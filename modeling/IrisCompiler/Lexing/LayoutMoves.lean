import IrisCompiler.Library.BlockScan
import IrisCompiler.Lexing.Layout

/-!
# What a layout transition does

`Insert.invoke` has some thirty arms, but every arm is a sequence of a few moves: close a run of
blocks, emit a separator, emit the token, push or pop a delimiter, open a block.  `Restacks` lists
what they do to the stack.  `Moves self ts next` says what they do to the machine: the source tokens
they emit are `ts`, and the block structure of what they emit accounts exactly for the change in the
number of indented delimiters on the stack.  Each arm is a chain of moves, and `invoke_moves` is the
one statement about the transition that the results on whole runs use.
-/

namespace Iris.Lexing

open BlockScan

/-- The role of a token in the block structure of the output. -/
def layoutMark : SyntaxKind → Mark
  | .LAYOUT_START => .start
  | .LAYOUT_SEPARATOR => .separator
  | .LAYOUT_END => .finish
  | _ => .plain

lemma layoutMark_eq_plain {kind : SyntaxKind} (h : kind.isLayoutToken = false) :
    layoutMark kind = .plain := by
  cases kind <;> first | rfl | cases h

/-- The number of indented delimiters on a stack. -/
def openBlocks (stack : List (Position × Delimiter)) : ℕ :=
  stack.countP fun entry => entry.2.isIndented

@[simp] lemma openBlocks_nil : openBlocks [] = 0 := rfl

lemma openBlocks_cons (position : Position) (delimiter : Delimiter)
    (stack : List (Position × Delimiter)) :
    openBlocks ((position, delimiter) :: stack)
      = openBlocks stack + if delimiter.isIndented then 1 else 0 := by
  simp [openBlocks, List.countP_cons]

/-- The delimiters pushed by a declaration of the module. -/
def Delimiter.IsDeclaration (delimiter : Delimiter) : Prop :=
  delimiter = .TopDecl ∨ delimiter = .TopDeclHead

/-- A stack that the machine can be in: `Root` at the bottom and nowhere else, and a declaration
only inside a block. -/
def StackWf : List (Position × Delimiter) → Prop
  | [] => False
  | [(_, delimiter)] => delimiter = .Root
  | (_, delimiter) :: entry :: rest =>
    delimiter ≠ .Root ∧ (delimiter.IsDeclaration → 0 < openBlocks (entry :: rest))
      ∧ StackWf (entry :: rest)

variable {stack : List (Position × Delimiter)} {position : Position} {delimiter : Delimiter}

lemma StackWf.ne_nil (h : StackWf stack) : stack ≠ [] := by
  rintro rfl
  exact h

/-- Anything but `Root` may be pushed, a declaration only inside a block. -/
lemma StackWf.cons (h : StackWf stack) (hroot : delimiter ≠ .Root)
    (hdecl : delimiter.IsDeclaration → 0 < openBlocks stack) :
    StackWf ((position, delimiter) :: stack) := by
  cases stack with
  | nil => exact h.elim
  | cons entry rest => exact ⟨hroot, hdecl, h⟩

/-- Anything but `Root` may be popped. -/
lemma StackWf.tail (h : StackWf ((position, delimiter) :: stack)) (hroot : delimiter ≠ .Root) :
    StackWf stack := by
  cases stack with
  | nil => exact absurd h hroot
  | cons entry rest => exact h.2.2

/-- A declaration on top of the stack stands inside a block. -/
lemma StackWf.open_of_declaration (h : StackWf ((position, delimiter) :: stack))
    (hdecl : delimiter.IsDeclaration) : 0 < openBlocks stack := by
  cases stack with
  | nil =>
      have hroot : delimiter = .Root := h
      rcases hdecl with rfl | rfl <;> cases hroot
  | cons entry rest => exact h.2.1 hdecl

/-- What popping an entry other than `Root` keeps, popping a run of such entries keeps. -/
lemma of_dropWhile {P : List (Position × Delimiter) → Prop}
    (hpop : ∀ position delimiter stack, P ((position, delimiter) :: stack) → delimiter ≠ .Root →
      P stack)
    (predicate : Position × Delimiter → Bool)
    (hroot : ∀ position, predicate (position, .Root) = false) (h : P stack) :
    P (stack.dropWhile predicate) := by
  induction stack with
  | nil => exact h
  | cons entry rest ih =>
      obtain ⟨position, delimiter⟩ := entry
      rw [List.dropWhile_cons]
      split
      · rename_i hp
        refine ih (hpop _ _ _ h ?_)
        rintro rfl
        rw [hroot] at hp
        cases hp
      · exact h

/-- Everything that a transition at `here`, with the next token at `next`, can do to the stack: pop
anything but `Root`, push a delimiter that opens no block, and open a block at the next token if
that is indented past the block on top. -/
inductive Restacks (here next : Position) (first : List (Position × Delimiter)) :
    List (Position × Delimiter) → Prop
  | refl : Restacks here next first first
  | pop {position : Position} {delimiter : Delimiter} {stack : List (Position × Delimiter)} :
      Restacks here next first ((position, delimiter) :: stack) → delimiter ≠ .Root →
      Restacks here next first stack
  | push {position : Position} {delimiter : Delimiter} {stack : List (Position × Delimiter)} :
      Restacks here next first stack → position = here ∨ position = next →
      delimiter.isIndented = false → delimiter ≠ .Root →
      Restacks here next first ((position, delimiter) :: stack)
  | openBlock {delimiter : Delimiter} {stack : List (Position × Delimiter)} :
      Restacks here next first stack → delimiter.isIndented = true →
      (∀ past, stack.find? (fun entry => entry.2.isIndented) = some past →
        past.1.column < next.column) →
      Restacks here next first ((next, delimiter) :: stack)

/-- The delimiters that open no block, except `Root`. -/
def Delimiter.IsPlain (delimiter : Delimiter) : Prop :=
  delimiter.isIndented = false ∧ delimiter ≠ .Root

instance : Decidable delimiter.IsPlain := inferInstanceAs (Decidable (_ ∧ _))

instance : Decidable delimiter.IsDeclaration := inferInstanceAs (Decidable (_ ∨ _))

lemma Delimiter.IsDeclaration.isPlain (h : delimiter.IsDeclaration) : delimiter.IsPlain := by
  rcases h with rfl | rfl <;> decide

namespace Insert

/-- The moves from `first` to `next` emit the source tokens `ts`, and what they emit around them
opens and closes blocks exactly as the stack does. -/
structure Moves (first : Insert) (ts : List SyntaxKind) (next : Insert) : Prop where
  wf : StackWf next.layout.stack
  restacks : Restacks first.position first.next first.layout.stack next.layout.stack
  emits : ∃ emitted, next.layout.output = first.layout.output ++ emitted
    ∧ (layoutMark first.token = .plain →
      scan layoutMark (openBlocks first.layout.stack) emitted = some (openBlocks next.layout.stack)
        ∧ plain layoutMark emitted = ts)
  lexed : next.layout.lexed = first.layout.lexed
  index : next.layout.index = first.layout.index
  token : next.token = first.token
  position : next.position = first.position
  following : next.next = first.next

section Collapse

variable {self : Insert} {p : Insert → Position → Delimiter → Bool}

/-- The loop of `collapse` counts the run of entries that satisfy the p, and the blocks in
it. -/
lemma collapse_loop_eq (stack : List (Position × Delimiter)) (acc : Collapse) :
    collapse.loop self p stack acc
      = { stackLen := acc.stackLen - (stack.takeWhile fun e => p self e.1 e.2).length
          endTokens := acc.endTokens + openBlocks (stack.takeWhile fun e => p self e.1 e.2) } := by
  induction stack generalizing acc with
  | nil => simp [collapse.loop]
  | cons entry rest ih =>
      obtain ⟨position, delimiter⟩ := entry
      rw [collapse.loop]
      split
      · rename_i hp
        rw [ih]
        simp only [List.takeWhile_cons, hp, if_true, List.length_cons, openBlocks_cons,
          Collapse.mk.injEq]
        split <;> omega
      · rename_i hp
        simp [hp]

/-- What `preview` shows is the stack without that run. -/
lemma preview_collapse :
    (self.collapse p).preview self.layout
      = self.layout.stack.dropWhile fun e => p self e.1 e.2 := by
  set run := self.layout.stack.takeWhile fun e => p self e.1 e.2 with hrun
  set left := self.layout.stack.dropWhile fun e => p self e.1 e.2 with hleft
  have hsplit : run ++ left = self.layout.stack := List.takeWhile_append_dropWhile
  have hlen : run.length ≤ self.layout.stack.length := by rw [← hsplit]; simp
  rw [collapse, collapse_loop_eq]
  calc self.layout.stack.drop (self.layout.stack.length - (self.layout.stack.length - run.length))
      = self.layout.stack.drop run.length := by rw [Nat.sub_sub_self hlen]
    _ = (run ++ left).drop run.length := by rw [hsplit]
    _ = left := List.drop_left

/-- What closing the run emits: one `LAYOUT_END` for each block in it. -/
lemma endTokens_collapse :
    (self.collapse p).endTokens
      = openBlocks (self.layout.stack.takeWhile fun e => p self e.1 e.2) := by
  rw [collapse, collapse_loop_eq, Nat.zero_add]

end Collapse

namespace Moves

variable {self mid : Insert} {ts : List SyntaxKind}

lemma refl (h : StackWf self.layout.stack) : self.Moves [] self :=
  ⟨h, .refl, ⟨[], by simp, by simp⟩, rfl, rfl, rfl, rfl, rfl⟩

/-- What the moves so far emit, followed by `more`. -/
lemma emits_append (h : self.Moves ts mid) (more us : List SyntaxKind) {n : ℕ}
    (hscan : layoutMark self.token = .plain →
      scan layoutMark (openBlocks mid.layout.stack) more = some n)
    (hplain : layoutMark self.token = .plain → plain layoutMark more = us) :
    ∃ emitted, mid.layout.output ++ more = self.layout.output ++ emitted
      ∧ (layoutMark self.token = .plain →
        scan layoutMark (openBlocks self.layout.stack) emitted = some n
          ∧ plain layoutMark emitted = ts ++ us) := by
  obtain ⟨emitted, hout, hblocks⟩ := h.emits
  refine ⟨emitted ++ more, by rw [hout, List.append_assoc], fun htoken => ⟨?_, ?_⟩⟩
  · exact scan_append_of_eq _ (hblocks htoken).1 (hscan htoken)
  · rw [plain_append, (hblocks htoken).2, hplain htoken]

/-! ## Primitive moves -/

/-- The token itself is neither an opening nor a closing token. -/
lemma emit (h : self.Moves [] mid) : self.Moves [self.token] (mid.insertToken self.token) :=
  { h with
    emits := h.emits_append [self.token] [self.token]
      (fun htoken => by simp [step, htoken, insertToken]) fun htoken => by simp [plain, htoken] }

/-- The token is the one the transition started with. -/
lemma emitOwn (h : self.Moves [] mid) : self.Moves [self.token] (mid.insertToken mid.token) := by
  rw [h.token]
  exact h.emit

/-- A separator stands inside a block. -/
lemma separate (h : self.Moves ts mid) (hopen : 0 < openBlocks mid.layout.stack) :
    self.Moves ts mid.insertSeparator := by
  obtain ⟨n, hn⟩ : ∃ n, openBlocks mid.layout.stack = n + 1 :=
    ⟨_, (Nat.succ_pred_eq_of_pos hopen).symm⟩
  have hscan : scan layoutMark (openBlocks mid.layout.stack) [.LAYOUT_SEPARATOR]
      = some (openBlocks mid.layout.stack) := by simp [step, layoutMark, hn]
  exact { h with
    emits := by
      simpa [insertSeparator, insertToken] using
        h.emits_append [.LAYOUT_SEPARATOR] [] (fun _ => hscan) fun _ => rfl }

/-- Pushing a delimiter that opens no block emits nothing. -/
lemma push (h : self.Moves ts mid)
    (hposition : position = self.position ∨ position = self.next) (hd : delimiter.IsPlain)
    (hdecl : delimiter.IsDeclaration → 0 < openBlocks mid.layout.stack) :
    self.Moves ts (mid.pushStack position delimiter) :=
  { h with
    wf := h.wf.cons hd.2 hdecl
    restacks := h.restacks.push hposition hd.1 hd.2
    emits := by simpa [pushStack, openBlocks_cons, hd.1] using h.emits }

variable {rest : List (Position × Delimiter)}

section Moving

variable (h : self.Moves ts mid)

include h

/-- Popping keeps the stack one that the machine can be in. -/
lemma popped (hstack : mid.layout.stack = (position, delimiter) :: rest)
    (hroot : delimiter ≠ .Root) :
    StackWf mid.popStack.layout.stack ∧
      Restacks self.position self.next self.layout.stack mid.popStack.layout.stack := by
  have hwf := h.wf
  have hrestacks := h.restacks
  rw [hstack] at hwf hrestacks
  simpa [popStack, hstack] using And.intro (hwf.tail hroot) (hrestacks.pop hroot)

/-- Popping a delimiter that opened no block emits nothing. -/
lemma pop (hstack : mid.layout.stack = (position, delimiter) :: rest) (hd : delimiter.IsPlain) :
    self.Moves ts mid.popStack :=
  { h with
    wf := (h.popped hstack hd.2).1
    restacks := (h.popped hstack hd.2).2
    emits := by simpa [popStack, hstack, openBlocks_cons, hd.1] using h.emits }

/-- Popping a block and closing it in the output. -/
lemma close (hstack : mid.layout.stack = (position, delimiter) :: rest)
    (hindented : delimiter.isIndented = true) : self.Moves ts mid.popStack.insertEnd := by
  have hpopped := h.popped hstack (by rintro rfl; cases hindented)
  have hscan : scan layoutMark (openBlocks mid.layout.stack) [.LAYOUT_END]
      = some (openBlocks rest) := by
    simp [step, layoutMark, hstack, openBlocks_cons, hindented]
  exact { h with
    wf := hpopped.1
    restacks := hpopped.2
    emits := by
      simpa [popStack, insertEnd, insertToken, hstack] using
        h.emits_append [.LAYOUT_END] [] (fun _ => hscan) fun _ => rfl }

/-- Opening a block at the next token, where that is indented past the block on top. -/
lemma openBlock (hindented : delimiter.isIndented = true)
    (hpast : ∀ past, mid.layout.stack.find? (fun entry => entry.2.isIndented) = some past →
      past.1.column < self.next.column) :
    self.Moves ts ((mid.pushStack self.next delimiter).insertToken .LAYOUT_START) := by
  have hscan : scan layoutMark (openBlocks mid.layout.stack) [.LAYOUT_START]
      = some (openBlocks mid.layout.stack + 1) := by simp [step, layoutMark]
  exact { h with
    wf := h.wf.cons (by rintro rfl; cases hindented) (by rintro (rfl | rfl) <;> cases hindented)
    restacks := h.restacks.openBlock hindented hpast
    emits := by
      simpa [pushStack, insertToken, openBlocks_cons, hindented] using
        h.emits_append [.LAYOUT_START] [] (fun _ => hscan) fun _ => rfl }

/-- Closing a run of entries emits one `LAYOUT_END` for each block in it. -/
lemma collapse {p : Insert → Position → Delimiter → Bool}
    (hroot : ∀ position, p mid position .Root = false) :
    self.Moves ts (mid.commit (mid.collapse p)) := by
  set run := mid.layout.stack.takeWhile fun e => p mid e.1 e.2 with hrun
  set left := mid.layout.stack.dropWhile fun e => p mid e.1 e.2 with hleft
  have hsplit : run ++ left = mid.layout.stack := List.takeWhile_append_dropWhile
  have hopen : openBlocks mid.layout.stack = openBlocks left + openBlocks run := by
    rw [← hsplit, openBlocks, List.countP_append, Nat.add_comm]
    rfl
  have hstack : (mid.commit (mid.collapse p)).layout.stack = left := preview_collapse
  have hout : (mid.commit (mid.collapse p)).layout.output
      = mid.layout.output ++ List.replicate (openBlocks run) .LAYOUT_END := by
    show mid.layout.output ++ List.replicate (mid.collapse p).endTokens .LAYOUT_END = _
    rw [endTokens_collapse]
  have hscan : scan layoutMark (openBlocks mid.layout.stack)
      (List.replicate (openBlocks run) .LAYOUT_END) = some (openBlocks left) := by
    rw [hopen]
    exact scan_replicate_finish _ rfl _ _
  refine ⟨?_, ?_, ?_, h.lexed, h.index, h.token, h.position, h.following⟩
  · rw [hstack]
    exact of_dropWhile (fun _ _ _ => .tail) _ hroot h.wf
  · rw [hstack]
    exact of_dropWhile (fun _ _ _ => .pop) _ hroot h.restacks
  · rw [hstack, hout]
    have hemits := h.emits_append (List.replicate (openBlocks run) .LAYOUT_END) []
      (fun _ => hscan) fun _ => by simp [plain, layoutMark]
    rwa [List.append_nil] at hemits

/-! ## Composite moves -/

/-- `insert_start` opens a block, or finds that the next token is not indented enough for one. -/
lemma start {d : Delimiter} (hindented : d.isIndented = true) :
    self.Moves ts (mid.insertStart d) := by
  unfold insertStart
  rw [h.following]
  split
  · rename_i past _ hfind
    split
    · exact h
    · refine h.openBlock hindented fun other hother => ?_
      rw [hfind] at hother
      cases hother
      simp only
      omega
  · rename_i hfind
    exact h.openBlock hindented fun other hother => by simp [hfind] at hother

/-- `pop_stack_if` with a predicate that accepts neither a block nor `Root`. -/
lemma popIf {predicate : Delimiter → Bool}
    (hpredicate : ∀ delimiter, predicate delimiter = true → delimiter.IsPlain) :
    ∃ next, mid.popStackIf predicate = some next ∧ self.Moves ts next := by
  unfold popStackIf
  split
  · rename_i position delimiter rest hstack
    split
    · rename_i hp
      exact ⟨_, rfl, h.pop hstack (hpredicate delimiter hp)⟩
    · exact ⟨_, rfl, h⟩
  · rename_i hstack
    exact absurd hstack h.wf.ne_nil

/-- Separators are only emitted below an open block: directly on one, or on a declaration, which
stands inside one. -/
lemma sep : self.Moves ts mid.insertSep := by
  unfold insertSep
  split
  · rename_i position delimiter rest hstack
    have hpop : delimiter.IsDeclaration → self.Moves ts mid.popStack.insertSeparator := by
      intro hdecl
      refine (h.pop hstack hdecl.isPlain).separate ?_
      have hwf := h.wf
      rw [hstack] at hwf
      simpa [popStack, hstack] using hwf.open_of_declaration hdecl
    split
    · rename_i hd
      exact hpop (.inl hd.1)
    · split
      · rename_i hd
        exact hpop (.inr hd.1)
      · split
        · rename_i hsep
          have hindented : delimiter.isIndented = true := by
            simp only [indentSepP, Bool.and_eq_true] at hsep
            exact hsep.1
          have hmove : self.Moves ts mid.insertSeparator :=
            h.separate (by simp [hstack, openBlocks_cons, hindented])
          split
          · exact hmove.push (.inl h.position) (by decide) (absurd · (by decide))
          · exact hmove
        · exact h
  · exact h

end Moving

end Moves

/-! ## The arms -/

section Arms

variable {self : Insert}

/-- The transition does not panic and emits its token. -/
def Emits (self : Insert) (result : Option Insert) : Prop :=
  ∃ next, result = some next ∧ self.Moves [self.token] next

lemma offsideP_root (position : Position) : offsideP self position .Root = false := rfl

lemma offsideEndP_root (position : Position) : offsideEndP self position .Root = false := rfl

lemma indentedP_root (position : Position) : indentedP self position .Root = false := rfl

lemma isProperty_plain (delimiter : Delimiter) (hp : isProperty delimiter = true) :
    delimiter.IsPlain := by
  simp only [isProperty, decide_eq_true_eq] at hp
  subst hp
  decide

lemma isArrowHead_plain (delimiter : Delimiter) (hp : isArrowHead delimiter = true) :
    delimiter.IsPlain := by
  cases delimiter <;> simp [isArrowHead] at hp <;> decide

lemma eq_plain {closing : Delimiter} (hd : closing.IsPlain) (delimiter : Delimiter)
    (hp : decide (delimiter = closing) = true) : delimiter.IsPlain :=
  of_decide_eq_true hp ▸ hd

/-- The module's own block is open where a declaration of the module is recognised. -/
lemma open_of_isTopDeclaration (h : self.isTopDeclaration position = true) :
    0 < openBlocks self.layout.stack := by
  unfold isTopDeclaration at h
  split at h
  · rename_i hstack
    simp [hstack, openBlocks_cons, Delimiter.isIndented]
  · cases h

lemma moves_insertLet {this : Insert} (h : self.Moves [self.token] this) :
    self.Moves [self.token] this.insertLet := by
  unfold insertLet
  split
  · split <;> exact h.start rfl
  · split <;> exact h.start rfl
  · exact h.start rfl

variable (h : StackWf self.layout.stack)

include h

/-- `insert_default`: close what the token is offside of, separate, emit. -/
lemma moves_insertDefault : self.Moves [self.token] self.insertDefault :=
  ((Moves.refl h).collapse (p := offsideP) offsideP_root).sep.emitOwn

/-- Closing the blocks on top of the stack. -/
lemma moves_commit : self.Moves [] (self.commit (self.collapse indentedP)) :=
  (Moves.refl h).collapse indentedP_root

lemma moves_insertKeywordProperty {callback : Insert → Insert}
    (hcallback : ∀ this : Insert, self.Moves [self.token] this →
      self.Moves [self.token] (callback this)) :
    self.Moves [self.token] (self.insertKeywordProperty callback) := by
  have hdefault := moves_insertDefault h
  unfold insertKeywordProperty
  simp only
  split
  · rename_i position rest hstack
    exact hdefault.pop hstack (by decide)
  · exact hcallback _ hdefault

/-- `insert_default` followed by a conditional pop. -/
lemma moves_insertDefault_popStackIf : self.Emits (self.insertDefault.popStackIf isProperty) :=
  (moves_insertDefault h).popIf isProperty_plain

/-- `insert_default` followed by pushing a delimiter that opens no block. -/
lemma moves_insertDefault_pushStack {d : Delimiter} (hd : d.IsPlain) (hdecl : ¬ d.IsDeclaration) :
    self.Moves [self.token] (self.insertDefault.pushStack self.position d) :=
  (moves_insertDefault h).push (.inl rfl) hd (absurd · hdecl)

lemma moves_insertDeclaration (hdecl : delimiter.IsDeclaration) :
    self.Emits (self.insertDeclaration delimiter) := by
  have hdefault := moves_insertDefault h
  unfold insertDeclaration
  simp only
  split
  · rename_i htop
    exact ⟨_, rfl, hdefault.push (.inl hdefault.position) hdecl.isPlain fun _ =>
      open_of_isTopDeclaration htop⟩
  · exact moves_insertDefault_popStackIf h

lemma moves_insertWhere : self.Moves [self.token] self.insertWhere := by
  unfold insertWhere
  split
  · rename_i hstack
    exact ((Moves.refl h).pop hstack (by decide)).emit.start rfl
  · rename_i hstack
    exact ((Moves.refl h).pop hstack (by decide)).emit
  · exact ((Moves.refl h).collapse (p := whereP) fun _ => rfl).emit.start rfl

lemma moves_insertIn : self.Emits self.insertIn := by
  have hcommit := (Moves.refl h).collapse (p := inP) fun _ => rfl
  unfold insertIn
  simp only
  split
  · -- `in_p` accepts `LetStmt`, so the run that is closed never stops at one
    rename_i p₁ p₂ rest hpreview
    rw [preview_collapse] at hpreview
    have hhead := List.head?_dropWhile_not (fun e => inP self e.1 e.2) self.layout.stack
    rw [hpreview] at hhead
    cases hhead
  · rename_i position delimiter rest _ hpreview
    split
    · rename_i hindented
      exact ⟨_, rfl, (hcommit.close hpreview hindented).emit⟩
    · exact moves_insertDefault_popStackIf h
  · exact moves_insertDefault_popStackIf h

lemma moves_insertOf : self.Emits self.insertOf := by
  unfold insertOf
  simp only
  split
  · rename_i hpreview
    have hopen := ((moves_commit h).pop hpreview (by decide)).emit.start (d := .Of) rfl
    exact ⟨_, rfl, hopen.push (.inr rfl) (by decide) (absurd · (by decide))⟩
  · exact moves_insertDefault_popStackIf h

lemma moves_insertThen : self.Emits self.insertThen := by
  unfold insertThen
  simp only
  split
  · rename_i hpreview
    have hemit := ((moves_commit h).pop hpreview (by decide)).emit
    exact ⟨_, rfl, hemit.push (.inl rfl) (by decide) (absurd · (by decide))⟩
  · exact moves_insertDefault_popStackIf h

lemma moves_insertElse : self.Emits self.insertElse := by
  unfold insertElse
  simp only
  split
  · rename_i hpreview
    exact ⟨_, rfl, ((moves_commit h).pop hpreview (by decide)).emit⟩
  · have hcommit := (Moves.refl h).collapse (p := offsideP) offsideP_root
    split
    · exact ⟨_, rfl, hcommit.emit⟩
    · exact hcommit.sep.emit.popIf isProperty_plain

lemma moves_insertArrow : self.Emits self.insertArrow := by
  have hcommit := (Moves.refl h).collapse (p := arrowP) fun _ => rfl
  obtain ⟨next, hnext, hmove⟩ := hcommit.popIf isArrowHead_plain
  refine ⟨next.insertToken next.token, ?_, ?_⟩
  · simp only [insertArrow, collapseAndCommit, hnext]
    rfl
  · exact hmove.emitOwn

lemma moves_insertEqual : self.Moves [self.token] self.insertEqual := by
  unfold insertEqual
  simp only
  split
  · rename_i hpreview
    exact (((Moves.refl h).collapse (p := equalsP) fun _ => rfl).pop hpreview (by decide)).emit
  · exact moves_insertDefault h

lemma moves_insertPipe : self.Moves [self.token] self.insertPipe := by
  have hcommit := (Moves.refl h).collapse (p := offsideEndP) offsideEndP_root
  have hguard : ∀ delimiter : Delimiter, delimiter.IsPlain → ¬ delimiter.IsDeclaration →
      self.Moves [self.token] (((self.commit (self.collapse offsideEndP)).pushStack self.position
        delimiter).insertToken self.token) :=
    fun delimiter hd hdecl => (hcommit.push (.inl rfl) hd (absurd · hdecl)).emit
  unfold insertPipe
  simp only
  split
  · exact hguard .CaseGuard (by decide) (by decide)
  · exact hguard .DeclGuard (by decide) (by decide)
  · exact hguard .DeclGuard (by decide) (by decide)
  · exact hguard .DeclGuard (by decide) (by decide)
  · exact moves_insertDefault h

lemma moves_insertTick : self.Moves [self.token] self.insertTick := by
  unfold insertTick
  simp only
  split
  · rename_i hpreview
    exact ((moves_commit h).pop hpreview (by decide)).emit
  · have hsep := ((Moves.refl h).collapse (p := offsideEndP) offsideEndP_root).sep
    exact hsep.emit.push (.inl rfl) (by decide) (absurd · (by decide))

lemma moves_insertComma : self.Moves [self.token] self.insertComma := by
  have hemit := (moves_commit h).emit
  unfold insertComma
  simp only
  split
  · exact hemit.push (.inl rfl) (by decide) (absurd · (by decide))
  · exact hemit

lemma moves_insertPeriod : self.Moves [self.token] self.insertPeriod := by
  have hdefault := moves_insertDefault h
  unfold insertPeriod
  simp only
  split
  · rename_i hstack
    exact hdefault.pop hstack (by decide)
  · exact hdefault.push (.inl hdefault.position) (by decide) (absurd · (by decide))

lemma moves_insertClosing (hd : delimiter.IsPlain) : self.Emits (self.insertClosing delimiter) := by
  obtain ⟨next, hnext, hmove⟩ := (moves_commit h).popIf (eq_plain hd)
  refine ⟨next.insertToken next.token, ?_, ?_⟩
  · simp only [insertClosing, collapseAndCommit, hnext]
    rfl
  · exact hmove.emitOwn

lemma moves_insertRightCurly : self.Emits self.insertRightCurly := by
  obtain ⟨mid, hmid, hproperty⟩ := (moves_commit h).popIf isProperty_plain
  obtain ⟨next, hnext, hmove⟩ := hproperty.popIf (@eq_plain .Brace (by decide))
  refine ⟨next.insertToken next.token, ?_, ?_⟩
  · simp only [insertRightCurly, collapseAndCommit, hmid, Option.bind_eq_bind, Option.bind_some,
      hnext]
    rfl
  · exact hmove.emitOwn

/-- **Every transition emits its token once and keeps the block count.**  From a stack the machine
can be in, `invoke` does not panic. -/
theorem invoke_moves : ∃ next, self.invoke = some next ∧ self.Moves [self.token] next := by
  have hcallback : ∀ delimiter : Delimiter, delimiter.IsPlain → ¬ delimiter.IsDeclaration →
      self.Moves [self.token]
        (self.insertKeywordProperty fun this => this.pushStack this.position delimiter) :=
    fun delimiter hd hdecl => moves_insertKeywordProperty h fun this hmove =>
      hmove.push (.inl hmove.position) hd (absurd · hdecl)
  unfold invoke
  split
  · exact moves_insertDeclaration h (.inl rfl)
  · exact moves_insertDeclaration h (.inr rfl)
  · exact ⟨_, rfl, moves_insertWhere h⟩
  · exact moves_insertIn h
  · exact ⟨_, rfl, moves_insertKeywordProperty h fun _ => moves_insertLet⟩
  · exact ⟨_, rfl, moves_insertKeywordProperty h fun _ hmove => hmove.start rfl⟩
  · exact ⟨_, rfl, moves_insertKeywordProperty h fun _ hmove => hmove.start rfl⟩
  · exact ⟨_, rfl, hcallback .Case (by decide) (by decide)⟩
  · exact moves_insertOf h
  · exact ⟨_, rfl, hcallback .If (by decide) (by decide)⟩
  · exact moves_insertThen h
  · exact moves_insertElse h
  · exact ⟨_, rfl, hcallback .Forall (by decide) (by decide)⟩
  · exact ⟨_, rfl, moves_insertDefault_pushStack h (by decide) (by decide)⟩
  · exact moves_insertArrow h
  · exact ⟨_, rfl, moves_insertEqual h⟩
  · exact ⟨_, rfl, moves_insertPipe h⟩
  · exact ⟨_, rfl, moves_insertTick h⟩
  · exact ⟨_, rfl, moves_insertComma h⟩
  · exact ⟨_, rfl, moves_insertPeriod h⟩
  · exact ⟨_, rfl, moves_insertDefault_pushStack h (by decide) (by decide)⟩
  · have hbrace := moves_insertDefault_pushStack h (d := .Brace) (by decide) (by decide)
    exact ⟨_, rfl, hbrace.push (.inl rfl) (by decide) (absurd · (by decide))⟩
  · exact ⟨_, rfl, moves_insertDefault_pushStack h (by decide) (by decide)⟩
  · exact moves_insertClosing h (by decide)
  · exact moves_insertRightCurly h
  · exact moves_insertClosing h (by decide)
  · exact moves_insertDefault_popStackIf h
  · exact moves_insertDefault_popStackIf h
  · split
    · exact moves_insertDefault_popStackIf h
    · split
      · exact ⟨_, rfl, ((Moves.refl h).collapse (p := offsideEndP) offsideEndP_root).sep.emit⟩
      · exact ⟨_, rfl, moves_insertDefault h⟩

end Arms

end Insert

end Iris.Lexing
