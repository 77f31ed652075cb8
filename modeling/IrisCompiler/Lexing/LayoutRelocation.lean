import Mathlib.Data.List.Forall2
import Mathlib.Data.Set.Function
import Mathlib.Order.Monotone.Basic
import IrisCompiler.Lexing.LayoutStack

/-!
# Layout depends only on relative positions

Two runs of the layout algorithm, over tokens of the same kinds at positions that compare alike: the
columns in the same order, the lines equal in the same places.  `Mirrors` relates the states of the
two runs: the second stack is the first one with every position moved, except that of `Root`, which
is never looked at.  Every predicate, move and arm of the transition keeps the two runs related, so
they emit the same tokens.
-/

namespace Iris.Lexing

open Layout (TokenPosition)

/-- Two token sequences of the same kinds and qualified alike.  A map that is strictly increasing on
the columns of the first, and one that is injective on its lines, lead to the positions of the
second. -/
structure Relocation where
  before : Lexed
  after : Lexed
  column : ℕ → ℕ
  line : ℕ → ℕ
  kinds : after.kinds = before.kinds
  columns : StrictMonoOn column { n | ∃ info ∈ before.infos, info.position.column = n }
  lines : Set.InjOn line { n | ∃ info ∈ before.infos, info.position.line = n }
  infos : List.Forall₂ (fun info info' : SyntaxKindInfo =>
    (info'.qualifier > info'.annotation ↔ info.qualifier > info.annotation) ∧
      info'.position = ⟨line info.position.line, column info.position.column⟩)
    before.infos after.infos

namespace Relocation

variable (r : Relocation)

def move (position : Position) : Position := ⟨r.line position.line, r.column position.column⟩

variable {r} {p q : Position}

section Columns

variable (hp : TokenPosition r.before p) (hq : TokenPosition r.before q)

include hp hq

lemma column_lt_iff : (r.move p).column < (r.move q).column ↔ p.column < q.column := by
  obtain ⟨info, hinfo, rfl⟩ := hp
  obtain ⟨info', hinfo', rfl⟩ := hq
  exact r.columns.lt_iff_lt ⟨info, hinfo, rfl⟩ ⟨info', hinfo', rfl⟩

lemma column_le_iff : (r.move p).column ≤ (r.move q).column ↔ p.column ≤ q.column := by
  rw [← Nat.not_lt, ← Nat.not_lt, r.column_lt_iff hq hp]

lemma column_eq_iff : (r.move p).column = (r.move q).column ↔ p.column = q.column := by
  rw [Nat.le_antisymm_iff, Nat.le_antisymm_iff, r.column_le_iff hp hq, r.column_le_iff hq hp]

lemma line_eq_iff : (r.move p).line = (r.move q).line ↔ p.line = q.line := by
  obtain ⟨info, hinfo, rfl⟩ := hp
  obtain ⟨info', hinfo', rfl⟩ := hq
  exact r.lines.eq_iff ⟨info, hinfo, rfl⟩ ⟨info', hinfo', rfl⟩

end Columns

end Relocation

/-- A stack entry with its position moved; nothing depends on where `Root` stands. -/
def Relocation.entry (r : Relocation) (entry : Position × Delimiter) : Position × Delimiter :=
  (if entry.2 = .Root then entry.1 else r.move entry.1, entry.2)

lemma Relocation.entry_of_ne_root (r : Relocation) {position : Position} {delimiter : Delimiter}
    (h : delimiter ≠ .Root) : r.entry (position, delimiter) = (r.move position, delimiter) := by
  simp [Relocation.entry, h]

namespace Insert

/-- The second transition is the first one with its positions moved. -/
structure Mirrors (r : Relocation) (first second : Insert) : Prop where
  stack : second.layout.stack = first.layout.stack.map r.entry
  output : second.layout.output = first.layout.output
  token : second.token = first.token
  qualified : second.qualified = first.qualified
  position : second.position = r.move first.position
  next : second.next = r.move first.next
  here : TokenPosition r.before first.position
  there : TokenPosition r.before first.next
  standsAt : StandsAt (TokenPosition r.before) first.layout.stack
  index : second.layout.index = first.layout.index
  before : first.layout.lexed = r.before
  after : second.layout.lexed = r.after

/-- Both transitions panic, or neither does and they end related. -/
inductive MirrorsOption (r : Relocation) : Option Insert → Option Insert → Prop
  | none : MirrorsOption r none none
  | some {self other : Insert} : Mirrors r self other → MirrorsOption r (some self) (some other)

lemma mirrorsOption_cases {first second : Option Insert} (h : MirrorsOption r first second) :
    (first = none ∧ second = none) ∨
      ∃ self other, first = some self ∧ second = some other ∧ Mirrors r self other := by
  cases h with
  | none => exact .inl ⟨rfl, rfl⟩
  | some hm => exact .inr ⟨_, _, rfl, rfl, hm⟩

variable {r : Relocation} {self other : Insert}

/-! ## Predicates -/

/-- The predicate accepts an entry exactly when it accepts the entry moved. -/
def Agrees (r : Relocation) (predicate : Insert → Position → Delimiter → Bool) : Prop :=
  ∀ self other, Mirrors r self other → ∀ position delimiter,
    (delimiter ≠ .Root → TokenPosition r.before position) →
    predicate other (r.entry (position, delimiter)).1 delimiter = predicate self position delimiter

/-- A predicate that asks for a block and compares columns by a relation that the map keeps. -/
lemma agrees_of_indented (compare : ℕ → ℕ → Bool)
    (h : ∀ p q, TokenPosition r.before p → TokenPosition r.before q →
      compare (r.move p).column (r.move q).column = compare p.column q.column) :
    Agrees r fun self position delimiter =>
      delimiter.isIndented && compare self.position.column position.column := by
  intro self other hm position delimiter hposition
  by_cases hd : delimiter = .Root
  · subst hd
    rfl
  · simp [r.entry_of_ne_root hd, hm.position, h _ _ hm.here (hposition hd)]

lemma agrees_offsideP : Agrees r offsideP :=
  agrees_of_indented (fun m n => decide (m < n)) fun p q hp hq => by simp [r.column_lt_iff hp hq]

lemma agrees_offsideEndP : Agrees r offsideEndP :=
  agrees_of_indented (fun m n => decide (m ≤ n)) fun p q hp hq => by simp [r.column_le_iff hp hq]

/-- A predicate that looks only at the delimiter. -/
lemma agrees_delimiter (accepts : Delimiter → Bool) :
    Agrees r fun _ _ delimiter => accepts delimiter :=
  fun _ _ _ _ _ _ => rfl

lemma agrees_indentedP : Agrees r indentedP := agrees_delimiter _

lemma agrees_inP : Agrees r inP := fun _ _ _ _ _ _ => rfl

lemma agrees_equalsP : Agrees r equalsP := fun _ _ _ _ _ _ => rfl

lemma agrees_whereP : Agrees r whereP := by
  intro self other hm position delimiter hposition
  have hend := agrees_offsideEndP self other hm position delimiter hposition
  cases delimiter <;> first | rfl | exact hend

lemma agrees_arrowP : Agrees r arrowP := by
  intro self other hm position delimiter hposition
  have hend := agrees_offsideEndP self other hm position delimiter hposition
  cases delimiter <;> first | rfl | exact hend

namespace Mirrors

variable (hm : Mirrors r self other)

include hm

variable {position : Position} {delimiter : Delimiter} {first first' : Insert}

/-- What is on top of the stack stands at a token, unless it is `Root`. -/
lemma top {rest : List (Position × Delimiter)}
    (hstack : self.layout.stack = (position, delimiter) :: rest) (hroot : delimiter ≠ .Root) :
    TokenPosition r.before position :=
  hm.standsAt (position, delimiter) (hstack ▸ List.mem_cons_self) hroot

/-- `sep_p` on an entry that is not `Root`. -/
lemma sepP_eq (hposition : TokenPosition r.before position) :
    other.sepP (r.move position) = self.sepP position := by
  simp [sepP, hm.position, r.column_eq_iff hm.here hposition, r.line_eq_iff hm.here hposition]

/-! ## Primitive moves -/

lemma insertToken (t : SyntaxKind) : Mirrors r (self.insertToken t) (other.insertToken t) :=
  { hm with output := congrArg (· ++ [t]) hm.output }

/-- Emitting the token itself. -/
lemma insertOwn (hfirst : Mirrors r first first') :
    Mirrors r (self.insertToken first.token) (other.insertToken first'.token) := by
  rw [hfirst.token]
  exact hm.insertToken _

lemma popStack : Mirrors r self.popStack other.popStack :=
  { hm with
    stack := by simp [Insert.popStack, hm.stack]
    standsAt := fun entry hentry => hm.standsAt entry (List.mem_of_mem_tail hentry) }

lemma pushStack (delimiter : Delimiter) {position' : Position} (hroot : delimiter ≠ .Root)
    (hmove : position' = r.move position) (hposition : TokenPosition r.before position) :
    Mirrors r (self.pushStack position delimiter)
      (other.pushStack position' delimiter) :=
  { hm with
    stack := by simp [Insert.pushStack, hm.stack, r.entry_of_ne_root hroot, hmove]
    standsAt := by
      rintro entry (_ | ⟨_, hentry⟩) hne
      · exact hposition
      · exact hm.standsAt entry hentry hne }

/-- Pushing a delimiter at the token itself. -/
lemma pushHere (hfirst : Mirrors r first first') (delimiter : Delimiter)
    (hroot : delimiter ≠ .Root) :
    Mirrors r (self.pushStack first.position delimiter)
      (other.pushStack first'.position delimiter) :=
  hm.pushStack delimiter hroot hfirst.position hfirst.here

lemma popStackIf (predicate : Delimiter → Bool) :
    MirrorsOption r (self.popStackIf predicate) (other.popStackIf predicate) := by
  unfold Insert.popStackIf
  rw [hm.stack]
  cases self.layout.stack with
  | nil => exact .none
  | cons entry rest =>
      simp only [List.map_cons, Relocation.entry]
      split
      · exact .some hm.popStack
      · exact .some hm

/-! ## Collapsing -/

section Collapse

variable {predicate : Insert → Position → Delimiter → Bool}

/-- The predicate accepts the same entries of both stacks. -/
lemma accepts_eq (ha : Agrees r predicate)
    {entry : Position × Delimiter} (hentry : entry ∈ self.layout.stack) :
    predicate other (r.entry entry).1 (r.entry entry).2
      = predicate self entry.1 entry.2 :=
  ha self other hm entry.1 entry.2 fun hroot => hm.standsAt entry hentry hroot

/-- The same entries of both stacks are closed, and the same are left. -/
lemma split_eq (ha : Agrees r predicate) :
    other.layout.stack.takeWhile (fun e => predicate other e.1 e.2)
      = (self.layout.stack.takeWhile fun e => predicate self e.1 e.2).map r.entry ∧
    other.layout.stack.dropWhile (fun e => predicate other e.1 e.2)
      = (self.layout.stack.dropWhile fun e => predicate self e.1 e.2).map r.entry := by
  have haccepts : ∀ entry ∈ self.layout.stack, predicate other (r.entry entry).1
      (r.entry entry).2 = predicate self entry.1 entry.2 :=
    fun entry hentry => hm.accepts_eq ha hentry
  rw [hm.stack]
  generalize self.layout.stack = stack at haccepts
  induction stack with
  | nil => exact ⟨rfl, rfl⟩
  | cons entry rest ih =>
      have htail := ih fun entry hentry => haccepts entry (List.mem_cons_of_mem _ hentry)
      have hhead := haccepts entry List.mem_cons_self
      rw [List.map_cons, List.takeWhile_cons, List.takeWhile_cons, List.dropWhile_cons,
        List.dropWhile_cons, hhead]
      split
      · exact ⟨congrArg _ htail.1, htail.2⟩
      · exact ⟨rfl, rfl⟩

lemma preview_eq (ha : Agrees r predicate) :
    (other.collapse predicate).preview other.layout
      = ((self.collapse predicate).preview self.layout).map r.entry := by
  rw [preview_collapse, preview_collapse]
  exact (hm.split_eq ha).2

lemma endTokens_eq (ha : Agrees r predicate) :
    (other.collapse predicate).endTokens = (self.collapse predicate).endTokens := by
  rw [endTokens_collapse, endTokens_collapse, (hm.split_eq ha).1, openBlocks, List.countP_map]
  rfl

lemma commit (ha : Agrees r predicate) :
    Mirrors r (self.commit (self.collapse predicate)) (other.commit (other.collapse predicate)) :=
  { hm with
    stack := hm.preview_eq ha
    output := by
      show other.layout.output ++ List.replicate (other.collapse predicate).endTokens _ = _
      rw [hm.output, hm.endTokens_eq ha]
      rfl
    standsAt := fun entry hentry => hm.standsAt entry (by
      have hmem : entry ∈ (self.collapse predicate).preview self.layout := hentry
      rw [preview_collapse] at hmem
      exact (List.dropWhile_sublist _).subset hmem) }

end Collapse

/-! ## Composite moves -/

lemma collapseAndCommit {p : Insert → Position → Delimiter → Bool} (ha : Agrees r p) :
    Mirrors r (self.collapseAndCommit p) (other.collapseAndCommit p) :=
  hm.commit ha

/-- The block on top is the same one in both runs. -/
lemma find_eq :
    other.layout.stack.find? (fun entry => entry.2.isIndented)
      = (self.layout.stack.find? fun entry => entry.2.isIndented).map r.entry := by
  rw [hm.stack, List.find?_map]
  rfl

lemma insertStart (delimiter : Delimiter) (hroot : delimiter ≠ .Root) :
    Mirrors r (self.insertStart delimiter) (other.insertStart delimiter) := by
  have hpush : Mirrors r
      ((self.pushStack self.next delimiter).insertToken .LAYOUT_START)
      ((other.pushStack other.next delimiter).insertToken .LAYOUT_START) :=
    (hm.pushStack delimiter hroot hm.next hm.there).insertToken _
  unfold Insert.insertStart
  rw [hm.find_eq]
  cases hfind : self.layout.stack.find? fun entry => entry.2.isIndented with
  | none => exact hpush
  | some past =>
      have hindented : past.2.isIndented = true := by simpa using List.find?_some hfind
      have hne : past.2 ≠ .Root := by
        intro hroot
        rw [hroot] at hindented
        cases hindented
      have hpast := hm.standsAt past (List.mem_of_find?_eq_some hfind) hne
      simp only [Option.map_some, Relocation.entry, if_neg hne, hm.next,
        r.column_le_iff hm.there hpast]
      split
      · exact hm
      · rw [← hm.next]
        exact hpush

lemma insertSep : Mirrors r self.insertSep other.insertSep := by
  have hseparate : Mirrors r self.insertSeparator other.insertSeparator := hm.insertToken _
  have hpop : Mirrors r self.popStack.insertSeparator
      other.popStack.insertSeparator := hm.popStack.insertToken _
  unfold Insert.insertSep
  rw [hm.stack]
  cases hstack : self.layout.stack with
  | nil => exact hm
  | cons entry rest =>
      obtain ⟨position, delimiter⟩ := entry
      by_cases hroot : delimiter = .Root
      · subst hroot
        simpa [Relocation.entry, indentSepP, Delimiter.isIndented] using hm
      · have hposition := hm.top hstack hroot
        have hsep : other.indentSepP (r.move position) delimiter
            = self.indentSepP position delimiter := by
          rw [indentSepP, indentSepP, hm.sepP_eq hposition]
        simp only [List.map_cons, r.entry_of_ne_root hroot, hm.sepP_eq hposition, hsep]
        split
        · exact hpop
        · split
          · exact hpop
          · split
            · split
              · exact hseparate.pushHere hm _ (by simp)
              · exact hseparate
            · exact hm

lemma insertDefault : Mirrors r self.insertDefault other.insertDefault := by
  have hsep := (hm.collapseAndCommit agrees_offsideP).insertSep
  exact hsep.insertOwn hsep

lemma insertDefault_popStackIf :
    MirrorsOption r (self.insertDefault.popStackIf isProperty)
      (other.insertDefault.popStackIf isProperty) :=
  hm.insertDefault.popStackIf _

lemma isTopDeclaration_eq :
    other.isTopDeclaration other.position = self.isTopDeclaration self.position := by
  unfold Insert.isTopDeclaration
  rw [hm.stack]
  rcases hstack : self.layout.stack with _ | ⟨⟨position, delimiter⟩, _ | ⟨⟨bottom, root⟩, rest⟩⟩
  · rfl
  · cases delimiter <;> rfl
  · cases rest with
    | cons => cases delimiter <;> cases root <;> rfl
    | nil =>
        cases delimiter with
        | Where =>
            have hposition := hm.top hstack (by simp)
            cases root <;>
              simp [Relocation.entry, hm.position, r.column_eq_iff hm.here hposition]
        | _ => cases root <;> rfl

/-! ## The arms -/

lemma insertKeywordProperty {callback : Insert → Insert}
    (hcallback : ∀ first second, Mirrors r first second →
      Mirrors r (callback first) (callback second)) :
    Mirrors r (self.insertKeywordProperty callback)
      (other.insertKeywordProperty callback) := by
  have hdefault := hm.insertDefault
  unfold Insert.insertKeywordProperty
  simp only [hdefault.stack]
  rcases self.insertDefault.layout.stack with _ | ⟨⟨position, delimiter⟩, rest⟩
  · exact hcallback _ _ hdefault
  · cases delimiter <;> first | exact hcallback _ _ hdefault | exact hdefault.popStack

lemma insertDeclaration (hroot : delimiter ≠ .Root) :
    MirrorsOption r (self.insertDeclaration delimiter)
      (other.insertDeclaration delimiter) := by
  have hdefault := hm.insertDefault
  unfold Insert.insertDeclaration
  simp only [hdefault.isTopDeclaration_eq]
  split
  · exact .some (hdefault.pushHere hdefault _ hroot)
  · exact hdefault.popStackIf _

lemma insertWhere : Mirrors r self.insertWhere other.insertWhere := by
  have hcollapse := ((hm.collapseAndCommit agrees_whereP).insertOwn hm).insertStart .Where (by simp)
  have hpop := hm.popStack.insertOwn hm
  have hstart := hpop.insertStart .Where (by simp)
  unfold Insert.insertWhere
  rw [hm.stack]
  rcases self.layout.stack with _ | ⟨⟨position, delimiter⟩, rest⟩
  · exact hcollapse
  · cases delimiter <;> first | exact hcollapse | exact hstart | exact hpop

lemma insertIn : MirrorsOption r self.insertIn other.insertIn := by
  have hcommit := hm.commit agrees_inP
  have hdefault := hm.insertDefault_popStackIf
  have hblock := ((hcommit.popStack.insertToken .LAYOUT_END).insertOwn hm)
  have hado := (((hcommit.popStack.popStack.insertToken .LAYOUT_END).insertToken
    .LAYOUT_END).insertOwn hm)
  unfold Insert.insertIn
  simp only [hm.preview_eq agrees_inP]
  rcases (self.collapse inP).preview self.layout with
    _ | ⟨⟨position, delimiter⟩, _ | ⟨⟨below, outer⟩, rest⟩⟩
  · exact hdefault
  · cases delimiter <;> first | exact hdefault | exact .some hblock
  · cases delimiter <;>
      first
      | exact hdefault
      | exact .some hblock
      | (cases outer <;>
          first
          | exact .some hado
          | exact .some hblock)

lemma insertLet : Mirrors r self.insertLet other.insertLet := by
  have hlet := hm.insertStart .Let (by simp)
  have hstmt := hm.insertStart .LetStmt (by simp)
  unfold Insert.insertLet
  rw [hm.stack]
  rcases hstack : self.layout.stack with _ | ⟨⟨position, delimiter⟩, rest⟩
  · exact hlet
  · by_cases hroot : delimiter = .Root
    · subst hroot
      exact hlet
    · have hcolumn := r.column_eq_iff (hm.top hstack hroot) hm.here
      cases delimiter <;> first | exact hlet | skip
      all_goals
        simp only [List.map_cons, r.entry_of_ne_root hroot, hm.position, hcolumn]
        split
        · exact hstmt
        · exact hlet

lemma insertOf : MirrorsOption r self.insertOf other.insertOf := by
  have hcommit := hm.commit agrees_indentedP
  have hdefault := hm.insertDefault_popStackIf
  have hopen := ((hcommit.popStack.insertOwn hm).insertStart
    .Of (by simp)).pushStack .CaseBinders (by simp)
    hm.next hm.there
  unfold Insert.insertOf
  simp only [hm.preview_eq agrees_indentedP]
  rcases (self.collapse indentedP).preview self.layout with _ | ⟨⟨position, delimiter⟩, rest⟩
  · exact hdefault
  · cases delimiter <;> first | exact hdefault | exact .some hopen

lemma insertThen : MirrorsOption r self.insertThen other.insertThen := by
  have hcommit := hm.commit agrees_indentedP
  have hdefault := hm.insertDefault_popStackIf
  have hthen := (hcommit.popStack.insertOwn hm).pushHere hm .Then (by simp)
  unfold Insert.insertThen
  simp only [hm.preview_eq agrees_indentedP]
  rcases (self.collapse indentedP).preview self.layout with _ | ⟨⟨position, delimiter⟩, rest⟩
  · exact hdefault
  · cases delimiter <;> first | exact hdefault | exact .some hthen

/-- What `else` does when it closes no `then`. -/
lemma insertElse_default :
    let first := self.collapseAndCommit offsideP
    let second := other.collapseAndCommit offsideP
    MirrorsOption r
      (if first.isTopDeclaration first.position then some (first.insertToken first.token)
        else (first.insertSep.insertToken first.token).popStackIf isProperty)
      (if second.isTopDeclaration second.position then some (second.insertToken second.token)
        else (second.insertSep.insertToken second.token).popStackIf isProperty) := by
  have hoffside := hm.collapseAndCommit agrees_offsideP
  simp only [hoffside.isTopDeclaration_eq]
  split
  · exact .some (hoffside.insertOwn hoffside)
  · exact ((hoffside.insertSep).insertOwn hoffside).popStackIf _

lemma insertElse : MirrorsOption r self.insertElse other.insertElse := by
  have hthen := (hm.commit agrees_indentedP).popStack.insertOwn hm
  have hdefault := hm.insertElse_default
  unfold Insert.insertElse
  simp only [hm.preview_eq agrees_indentedP]
  rcases (self.collapse indentedP).preview self.layout with _ | ⟨⟨position, delimiter⟩, rest⟩
  · exact hdefault
  · cases delimiter <;> first | exact hdefault | exact .some hthen

lemma insertEqual : Mirrors r self.insertEqual other.insertEqual := by
  have hguard := (hm.commit agrees_equalsP).popStack.insertOwn hm
  have hdefault := hm.insertDefault
  unfold Insert.insertEqual
  simp only [hm.preview_eq agrees_equalsP]
  rcases (self.collapse equalsP).preview self.layout with _ | ⟨⟨position, delimiter⟩, rest⟩
  · exact hdefault
  · cases delimiter <;> first | exact hdefault | exact hguard

lemma insertPipe : Mirrors r self.insertPipe other.insertPipe := by
  have hcommit := hm.commit agrees_offsideEndP
  have hcase := (hcommit.pushHere hm .CaseGuard (by simp)).insertOwn hm
  have hdecl := (hcommit.pushHere hm .DeclGuard (by simp)).insertOwn hm
  have hdefault := hm.insertDefault
  unfold Insert.insertPipe
  simp only [hm.preview_eq agrees_offsideEndP]
  rcases (self.collapse offsideEndP).preview self.layout with _ | ⟨⟨position, delimiter⟩, rest⟩
  · exact hdefault
  · cases delimiter <;> first | exact hdefault | exact hcase | exact hdecl

lemma insertTick : Mirrors r self.insertTick other.insertTick := by
  have hclose := (hm.commit agrees_indentedP).popStack.insertOwn hm
  have hopen := ((((hm.collapseAndCommit agrees_offsideEndP).insertSep).insertOwn hm).pushHere
    hm .Tick (by simp))
  unfold Insert.insertTick
  simp only [hm.preview_eq agrees_indentedP]
  rcases (self.collapse indentedP).preview self.layout with _ | ⟨⟨position, delimiter⟩, rest⟩
  · exact hopen
  · cases delimiter <;> first | exact hopen | exact hclose

lemma insertComma : Mirrors r self.insertComma other.insertComma := by
  have hcommit := hm.collapseAndCommit agrees_indentedP
  have hemit := hcommit.insertOwn hcommit
  have hproperty := hemit.pushHere hcommit .Property (by simp)
  unfold Insert.insertComma
  simp only [hcommit.stack]
  rcases (self.collapseAndCommit indentedP).layout.stack with _ | ⟨⟨position, delimiter⟩, rest⟩
  · exact hemit
  · cases delimiter <;> first | exact hemit | exact hproperty

lemma insertPeriod : Mirrors r self.insertPeriod other.insertPeriod := by
  have hdefault := hm.insertDefault
  have hproperty := hdefault.pushHere hdefault .Property (by simp)
  unfold Insert.insertPeriod
  simp only [hdefault.stack]
  rcases self.insertDefault.layout.stack with _ | ⟨⟨position, delimiter⟩, rest⟩
  · exact hproperty
  · cases delimiter <;> first | exact hproperty | exact hdefault.popStack

end Mirrors

namespace MirrorsOption

variable {first second : Option Insert}

/-- What follows a transition that may have panicked. -/
lemma bind (hm : MirrorsOption r first second) {f g : Insert → Option Insert}
    (hnext : ∀ self other, Mirrors r self other →
      MirrorsOption r (f self) (g other)) : MirrorsOption r (first.bind f) (second.bind g) := by
  cases hm with
  | none => exact .none
  | some hm => exact hnext _ _ hm

lemma insertOwn (hm : MirrorsOption r first second) :
    MirrorsOption r (first.bind fun self => pure (self.insertToken self.token))
      (second.bind fun other => pure (other.insertToken other.token)) :=
  hm.bind fun _ _ hm => .some (hm.insertOwn hm)

end MirrorsOption

/-- **The transition keeps the two runs related.** -/
theorem Mirrors.invoke (hm : Mirrors r self other) : MirrorsOption r self.invoke other.invoke := by
  have hkeyword : ∀ delimiter : Delimiter, delimiter ≠ .Root → MirrorsOption r
      (some (self.insertKeywordProperty fun this => this.pushStack this.position delimiter))
      (some (other.insertKeywordProperty fun this => this.pushStack this.position delimiter)) :=
    fun delimiter hroot => .some (hm.insertKeywordProperty fun _ _ hm => hm.pushHere hm _ hroot)
  have hstart : ∀ delimiter : Delimiter, delimiter ≠ .Root → MirrorsOption r
      (some (self.insertKeywordProperty (·.insertStart delimiter)))
      (some (other.insertKeywordProperty (·.insertStart delimiter))) :=
    fun delimiter hroot => .some (hm.insertKeywordProperty fun _ _ hm => hm.insertStart _ hroot)
  have hopen : ∀ delimiter : Delimiter, delimiter ≠ .Root → Mirrors r
      (self.insertDefault.pushStack self.position delimiter)
      (other.insertDefault.pushStack other.position delimiter) :=
    fun delimiter hroot => (hm.insertDefault).pushHere hm _ hroot
  have hblocks := hm.collapseAndCommit agrees_indentedP
  unfold Insert.invoke
  rw [hm.token, hm.qualified]
  split
  · exact hm.insertDeclaration (by simp)
  · exact hm.insertDeclaration (by simp)
  · exact .some (hm.insertWhere)
  · exact hm.insertIn
  · exact .some (hm.insertKeywordProperty fun _ _ hm => hm.insertLet)
  · exact hstart .Do (by simp)
  · exact hstart .Ado (by simp)
  · exact hkeyword .Case (by simp)
  · exact hm.insertOf
  · exact hkeyword .If (by simp)
  · exact hm.insertThen
  · exact hm.insertElse
  · exact hkeyword .Forall (by simp)
  · exact .some (hopen .LambdaBinders (by simp))
  · exact ((hm.collapseAndCommit agrees_arrowP).popStackIf isArrowHead).insertOwn
  · exact .some (hm.insertEqual)
  · exact .some (hm.insertPipe)
  · exact .some (hm.insertTick)
  · exact .some hm.insertComma
  · exact .some (hm.insertPeriod)
  · exact .some (hopen .Paren (by simp))
  · exact .some ((hopen .Brace (by simp)).pushHere hm _ (by simp))
  · exact .some (hopen .Square (by simp))
  · exact (hblocks.popStackIf _).insertOwn
  · exact (hblocks.popStackIf isProperty).bind fun _ _ hm => (hm.popStackIf _).insertOwn
  · exact (hblocks.popStackIf _).insertOwn
  · exact hm.insertDefault_popStackIf
  · exact hm.insertDefault_popStackIf
  · split
    · exact hm.insertDefault_popStackIf
    · split
      · exact .some (((hm.collapseAndCommit agrees_offsideEndP).insertSep).insertToken _)
      · exact .some (hm.insertDefault)

end Insert

/-! ## Whole runs -/

namespace Layout

variable {r : Relocation}

/-- The two runs stand at the same token, with related stacks and the same output. -/
structure Mirrors (r : Relocation) (first second : Layout) : Prop where
  stack : second.stack = first.stack.map r.entry
  output : second.output = first.output
  index : second.index = first.index
  before : first.lexed = r.before
  after : second.lexed = r.after
  standsAt : StandsAt (TokenPosition r.before) first.stack

lemma Mirrors.new : Mirrors r (Layout.new r.before) (Layout.new r.after) :=
  ⟨rfl, rfl, rfl, rfl, rfl, by simp [StandsAt, Layout.new]⟩

lemma kind_eq (r : Relocation) (index : ℕ) : r.after.kind index = r.before.kind index := by
  rw [Lexed.kind, Lexed.kind, r.kinds]

variable {first second : Layout}

/-- Both runs are at `END_OF_FILE`, or neither is. -/
lemma Mirrors.isEof_eq (hm : Mirrors r first second) : second.isEof = first.isEof := by
  rw [isEof, isEof, hm.before, hm.after, hm.index, kind_eq]

/-- The infos of the two runs at one index. -/
lemma info_cases (r : Relocation) (index : ℕ) :
    (r.before.info index = none ∧ r.after.info index = none) ∨
      ∃ info info', r.before.info index = some info ∧ r.after.info index = some info' ∧
        (info'.qualifier > info'.annotation ↔ info.qualifier > info.annotation) ∧
        info'.position = r.move info.position := by
  have hlength := r.infos.length_eq
  by_cases hindex : index < r.before.infos.length
  · have hindex' : index < r.after.infos.length := hlength ▸ hindex
    refine .inr ⟨_, _, List.getElem?_eq_getElem hindex, List.getElem?_eq_getElem hindex', ?_⟩
    exact r.infos.get hindex hindex'
  · exact .inl ⟨List.getElem?_eq_none (by omega), List.getElem?_eq_none (by omega)⟩

/-- **Step.**  Taking a token keeps the two runs related. -/
lemma Mirrors.takeToken (hm : Mirrors r first second) :
    (first.takeToken = none ∧ second.takeToken = none) ∨
      ∃ next next', first.takeToken = some next ∧ second.takeToken = some next' ∧
        Mirrors r next next' := by
  simp only [Layout.takeToken, hm.before, hm.after, hm.index, kind_eq]
  cases r.before.kind first.index with
  | none => exact .inl ⟨rfl, rfl⟩
  | some kind =>
      obtain ⟨hinfo, hinfo'⟩ | ⟨info, info', hinfo, hinfo', hqualified, hposition⟩ :=
        info_cases r first.index
      · exact .inl ⟨by simp [hinfo], by simp [hinfo']⟩
      obtain ⟨hafter, hafter'⟩ | ⟨after, after', hafter, hafter', -, hnext⟩ :=
        info_cases r (first.index + 1)
      · exact .inl ⟨by simp [hafter], by simp [hafter']⟩
      have hinsert : Insert.Mirrors r
          ⟨first, kind, decide (info.qualifier > info.annotation), info.position, after.position⟩
          ⟨second, kind, decide (info'.qualifier > info'.annotation), info'.position,
            after'.position⟩ :=
        { stack := hm.stack
          output := hm.output
          token := rfl
          qualified := decide_eq_decide.mpr hqualified
          position := hposition
          next := hnext
          here := ⟨info, List.mem_of_getElem? hinfo, rfl⟩
          there := ⟨after, List.mem_of_getElem? hafter, rfl⟩
          standsAt := hm.standsAt
          index := hm.index
          before := hm.before
          after := hm.after }
      simp only [hinfo, hinfo', hafter, hafter', Option.bind_eq_bind, Option.bind_some,
        Layout.insert]
      obtain ⟨hnone, hnone'⟩ | ⟨moved, moved', hmoves, hmoves', hmoved⟩ :=
        Insert.mirrorsOption_cases hinsert.invoke
      · exact .inl ⟨by rw [hnone]; rfl, by rw [hnone']; rfl⟩
      · rw [hmoves, hmoves']
        exact .inr ⟨_, _, rfl, rfl, hmoved.stack, hmoved.output, congrArg (· + 1) hmoved.index,
          hmoved.before, hmoved.after, hmoved.standsAt⟩

/-- **Run.**  The two loops end related, or both panic. -/
lemma Mirrors.layoutLoop (hm : Mirrors r first second) (fuel : ℕ) :
    (Lexing.layoutLoop fuel first = none ∧ Lexing.layoutLoop fuel second = none) ∨
      ∃ last last', Lexing.layoutLoop fuel first = some last ∧
        Lexing.layoutLoop fuel second = some last' ∧ Mirrors r last last' := by
  induction fuel generalizing first second with
  | zero => exact .inl ⟨rfl, rfl⟩
  | succ fuel ih =>
      simp only [Lexing.layoutLoop, hm.isEof_eq]
      cases first.isEof with
      | none => exact .inl ⟨rfl, rfl⟩
      | some eof =>
          cases eof with
          | true => exact .inr ⟨first, second, rfl, rfl, hm⟩
          | false =>
              obtain ⟨hnone, hnone'⟩ | ⟨next, next', hnext, hnext', hm'⟩ := hm.takeToken
              · exact .inl ⟨by simp [hnone], by simp [hnone']⟩
              · simpa [hnext, hnext'] using ih hm'

/-- The loop of `Layout::finish` closes the same blocks in both runs. -/
lemma Mirrors.finishLoop (hm : Mirrors r first second) (fuel : ℕ) :
    (Layout.finishLoop fuel second).output = (Layout.finishLoop fuel first).output := by
  induction fuel generalizing first second with
  | zero => exact hm.output
  | succ fuel ih =>
      simp only [Layout.finishLoop, Layout.finishStep, hm.stack]
      cases hstack : first.stack with
      | nil => exact hm.output
      | cons entry stack =>
          have htail : StandsAt (TokenPosition r.before) stack := by
            intro other hother
            refine hm.standsAt other ?_
            rw [hstack]
            exact List.mem_cons_of_mem _ hother
          refine ih ⟨rfl, ?_, hm.index, hm.before, hm.after, htail⟩
          simp [hm.output]

lemma Mirrors.finish_eq (hm : Mirrors r first second) : second.finish = first.finish := by
  rw [Layout.finish, Layout.finish, hm.stack, List.length_map, hm.finishLoop]

end Layout

/-- The layout of relocated tokens is the layout of the tokens. -/
lemma layout_relocation (r : Relocation) : layout r.after = layout r.before := by
  have hlength : r.after.len = r.before.len := by
    rw [← Layout.kinds_length, ← Layout.kinds_length, r.kinds]
  simp only [layout, hlength]
  obtain ⟨hnone, hnone'⟩ | ⟨last, last', hlast, hlast', hm⟩ :=
    (Layout.Mirrors.new : Layout.Mirrors r _ _).layoutLoop r.before.len
  · rw [hnone, hnone']
  · rw [hlast, hlast']
    simp [hm.finish_eq]

/-- **Layout depends only on relative positions.**  Tokens of the same kinds and qualified alike,
whose positions are related by a map that is strictly increasing on the columns that occur and one
that is injective on the lines that occur, have the same layout. -/
theorem layout_relative (lexed lexed' : Lexed) (column line : ℕ → ℕ)
    (hkinds : lexed'.kinds = lexed.kinds)
    (hcolumns : StrictMonoOn column { n | ∃ info ∈ lexed.infos, info.position.column = n })
    (hlines : Set.InjOn line { n | ∃ info ∈ lexed.infos, info.position.line = n })
    (hinfos : List.Forall₂ (fun info info' : SyntaxKindInfo =>
      (info'.qualifier > info'.annotation ↔ info.qualifier > info.annotation) ∧
        info'.position = ⟨line info.position.line, column info.position.column⟩)
      lexed.infos lexed'.infos) :
    layout lexed' = layout lexed :=
  layout_relocation ⟨lexed, lexed', column, line, hkinds, hcolumns, hlines, hinfos⟩

/-- The block of `whereBlock`, indented further and with its lines swapped. -/
def whereBlockMoved : Lexed where
  source := "x\n where".toList
  tokens := [(.WHERE, ⟨0, 0, 5, ⟨2, 5⟩⟩), (.LOWER, ⟨8, 8, 9, ⟨1, 7⟩⟩),
    (.END_OF_FILE, ⟨9, 9, 9, ⟨1, 8⟩⟩)]
  errors := []

theorem whereBlock_relative : layout whereBlockMoved = layout whereBlock := by
  have hcolumns : StrictMono fun n : ℕ => n + 4 := fun m n hlt => Nat.add_lt_add_right hlt 4
  have hlines : Function.Injective fun n : ℕ => if n = 1 then 2 else if n = 2 then 1 else n := by
    intro m n heq
    simp only at heq
    split_ifs at heq <;> omega
  refine layout_relative whereBlock whereBlockMoved _ _ rfl (hcolumns.strictMonoOn _)
    hlines.injOn ?_
  exact .cons ⟨Iff.rfl, rfl⟩ (.cons ⟨Iff.rfl, rfl⟩ (.cons ⟨Iff.rfl, rfl⟩ .nil))

end Iris.Lexing
