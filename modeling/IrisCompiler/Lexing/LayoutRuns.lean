import IrisCompiler.Lexing.LayoutMoves

/-!
# Whole runs of the layout algorithm

`invoke_moves` says what one transition does.  Here it is carried along the loop of `lexing::layout`
and through `Layout::finish`: the blocks of the output are balanced, and erasing the layout tokens
gives back the lexed kinds.
-/

namespace Iris.Lexing

open BlockScan Lexed List SyntaxKind

/-- The lexer pushes no layout token: they are for the layout algorithm alone to emit. -/
def Lexed.SourceKinds (lexed : Lexed) : Prop := ∀ kind ∈ lexed.kinds, kind.isLayoutToken = false

/-- The last token is `END_OF_FILE`. -/
def Lexed.EndsInEof (lexed : Lexed) : Prop := lexed.kinds.getLast? = some .END_OF_FILE

instance (lexed : Lexed) : Decidable lexed.SourceKinds :=
  inferInstanceAs (Decidable (∀ kind ∈ lexed.kinds, kind.isLayoutToken = false))

instance (lexed : Lexed) : Decidable lexed.EndsInEof :=
  inferInstanceAs (Decidable (lexed.kinds.getLast? = some .END_OF_FILE))

/-- What the lexer makes of a `where` block with one declaration on its own line. -/
def whereBlock : Lexed where
  source := "where\n  x".toList
  tokens := [(.WHERE, ⟨0, 0, 5, ⟨1, 1⟩⟩), (.LOWER, ⟨8, 8, 9, ⟨2, 3⟩⟩),
    (.END_OF_FILE, ⟨9, 9, 9, ⟨2, 4⟩⟩)]
  errors := []

namespace Layout

/-- The states of the loop of `lexing::layout`. -/
inductive Walks (lexed : Lexed) : Layout → Prop
  | new : Walks lexed (Layout.new lexed)
  | takeToken {machine next : Layout} : Walks lexed machine → machine.isEof = some false →
      machine.takeToken = some next → Walks lexed next

/-- The states of the loop of `Layout::finish`. -/
inductive Drains (lexed : Lexed) : Layout → Prop
  | eof {machine : Layout} : Walks lexed machine → machine.isEof = some true → Drains lexed machine
  | finishStep {machine next : Layout} : Drains lexed machine → machine.finishStep = some next →
      Drains lexed next

/-- The output so far is block structured, with one open block for each indented delimiter on the
stack, and its source tokens are the ones before `index`. -/
structure Matches (lexed : Lexed) (machine : Layout) : Prop where
  blocks : scan layoutMark 0 machine.output = some (openBlocks machine.stack)
  source : plain layoutMark machine.output = lexed.kinds.take machine.index

/-- The machine stands at a token of `lexed`, on a stack it can be in. -/
structure Standing (lexed : Lexed) (machine : Layout) : Prop where
  wf : StackWf machine.stack
  same : machine.lexed = lexed
  index_lt : machine.index < lexed.len

/-- The invariant of the loop. -/
structure WalkInv (lexed : Lexed) (machine : Layout) : Prop extends Matches lexed machine,
    Standing lexed machine where
  before_eof : SyntaxKind.END_OF_FILE ∉ lexed.kinds.take machine.index

variable {lexed : Lexed} {machine next : Layout}

lemma kinds_length (lexed : Lexed) : lexed.kinds.length = lexed.len := by
  simp [kinds, len]

lemma len_pos (heof : lexed.EndsInEof) : 0 < lexed.len := by
  rw [← kinds_length]
  refine length_pos_iff.mpr fun hnil => ?_
  rw [EndsInEof, hnil] at heof
  cases heof

lemma Standing.new (hlen : 0 < lexed.len) : Standing lexed (Layout.new lexed) := ⟨rfl, rfl, hlen⟩

lemma WalkInv.new (hlen : 0 < lexed.len) : WalkInv lexed (Layout.new lexed) where
  blocks := rfl
  source := by simp [Layout.new]
  toStanding := .new hlen
  before_eof := by simp [Layout.new]

/-- Before the end of the file there is a token to take, and `isEof` reads it. -/
lemma Standing.kind_eq (h : Standing lexed machine) :
    machine.lexed.kind machine.index
      = some (lexed.kinds.get ⟨machine.index, by rw [kinds_length]; exact h.index_lt⟩) := by
  rw [h.same]
  exact getElem?_eq_getElem _

/-- **Step.**  Unless the machine is at `END_OF_FILE`, it takes a token: the transition is one that
`Moves` describes, between the token and the one after it. -/
theorem Standing.takeToken (h : Standing lexed machine) (heof : lexed.EndsInEof)
    (hne : machine.isEof = some false) :
    ∃ kind info after moved, lexed.kinds[machine.index]? = some kind ∧ kind ≠ .END_OF_FILE
      ∧ lexed.info machine.index = some info ∧ lexed.info (machine.index + 1) = some after
      ∧ machine.takeToken = some { moved.layout with index := machine.index + 1 }
      ∧ Insert.Moves ⟨machine, kind, decide <| info.annotation < info.qualifier, info.position,
          after.position⟩ [kind] moved
      ∧ Standing lexed { moved.layout with index := machine.index + 1 } := by
  have hlt : machine.index < lexed.kinds.length := by rw [kinds_length]; exact h.index_lt
  set kind := lexed.kinds.get ⟨machine.index, hlt⟩ with hkind
  have hhkind_ne : kind ≠ .END_OF_FILE := by simpa [isEof, h.kind_eq, hkind] using hne
  -- the token is not the last one, because the last one is `END_OF_FILE`
  have hnext : machine.index + 1 < lexed.len := by
    by_contra hlast
    have heq : machine.index = lexed.kinds.length - 1 := by rw [kinds_length] at hlt ⊢; omega
    have : lexed.kinds.getLast? = some kind := by
      rw [getLast?_eq_getElem?, ← heq]
      exact getElem?_eq_getElem hlt
    rw [heof] at this
    exact hhkind_ne (Option.some.inj this).symm
  obtain ⟨info, hinfo⟩ : ∃ info, lexed.info machine.index = some info :=
    ⟨_, getElem?_eq_getElem (by simpa [infos, len] using h.index_lt)⟩
  obtain ⟨after, hafter⟩ : ∃ info, lexed.info (machine.index + 1) = some info :=
    ⟨_, getElem?_eq_getElem (by simpa [infos, len] using hnext)⟩
  obtain ⟨moved, hmoved, hmoves⟩ := @Insert.invoke_moves
    ⟨machine, kind, decide <| info.annotation < info.qualifier, info.position, after.position⟩ h.wf
  have hindex : moved.layout.index = machine.index := hmoves.index
  refine ⟨kind, info, after, moved, getElem?_eq_getElem hlt, hhkind_ne, hinfo, hafter, ?_,
    hmoves, hmoves.wf, hmoves.lexed.trans h.same, hnext⟩
  rw [Layout.takeToken, h.kind_eq, h.same, hinfo, hafter]
  simp only [Option.bind_eq_bind, Option.bind_some, Layout.insert, ← hkind, hmoved]
  rw [← hindex]
  rfl

/-- Every state of the loop stands at a token. -/
theorem Walks.standing (heof : lexed.EndsInEof) (h : Walks lexed machine) :
    Standing lexed machine := by
  induction h with
  | new => exact .new (len_pos heof)
  | takeToken _ hne htake ih =>
      obtain ⟨_, _, _, _, _, _, _, _, hnext, _, hstands⟩ := ih.takeToken heof hne
      rw [hnext] at htake
      exact Option.some.inj htake ▸ hstands

/-- The invariant is kept by a token that is not a layout token. -/
theorem WalkInv.takeToken (h : WalkInv lexed machine) (hsource : lexed.SourceKinds)
    (heof : lexed.EndsInEof) (hne : machine.isEof = some false) :
    ∃ next, machine.takeToken = some next ∧ WalkInv lexed next
      ∧ next.index = machine.index + 1 := by
  obtain ⟨kind, info, after, moved, hkind, hhkind_ne, -, -, hnext, hmoves, hstands⟩ :=
    h.toStanding.takeToken heof hne
  obtain ⟨hlt, hget⟩ := List.getElem?_eq_some_iff.mp hkind
  have hplain : layoutMark kind = .plain :=
    layoutMark_eq_plain (hsource _ (mem_of_getElem? hkind))
  obtain ⟨emitted, hout, hblocks⟩ := hmoves.emits
  obtain ⟨hscan, hemitted⟩ := hblocks hplain
  have htake : lexed.kinds.take (machine.index + 1) = lexed.kinds.take machine.index ++ [kind] := by
    rw [take_succ_eq_append_getElem hlt, hget]
  refine ⟨_, hnext, ?_, rfl⟩
  exact {
    blocks := by
      rw [hout]
      exact scan_append_of_eq _ h.blocks hscan
    source := by
      rw [hout, plain_append, h.source, hemitted, htake]
    toStanding := hstands
    before_eof := by
      rw [htake, mem_append, not_or]
      exact ⟨h.before_eof, by simpa using hhkind_ne.symm⟩ }

/-- **Run.**  With as much fuel as there are tokens left, the loop reaches `END_OF_FILE`. -/
theorem Standing.layoutLoop (heof : lexed.EndsInEof) :
    ∀ (fuel : ℕ) (machine : Layout), Standing lexed machine → lexed.len ≤ fuel + machine.index →
      Walks lexed machine → ∃ last, Lexing.layoutLoop fuel machine = some last
        ∧ last.isEof = some true ∧ Walks lexed last
  | 0, machine, h, hfuel, _ => absurd h.index_lt (by omega)
  | fuel + 1, machine, h, hfuel, hwalks => by
      cases hcase : machine.isEof with
      | none => simp [isEof, h.kind_eq] at hcase
      | some eof =>
          cases eof with
          | true =>
              refine ⟨machine, ?_, hcase, hwalks⟩
              rw [Lexing.layoutLoop, hcase]
              rfl
          | false =>
              obtain ⟨_, _, _, _, _, _, _, _, hnext, _, hstands⟩ := h.takeToken heof hcase
              obtain ⟨last, hlast⟩ := Standing.layoutLoop heof fuel _ hstands
                (by simp only; omega) (.takeToken hwalks hcase hnext)
              refine ⟨last, ?_, hlast.2⟩
              rw [Lexing.layoutLoop, hcase]
              simp only [hnext]
              exact hlast.1

/-- The loop of `lexing::layout` reaches `END_OF_FILE`. -/
lemma exists_layoutLoop (heof : lexed.EndsInEof) :
    ∃ last, Lexing.layoutLoop lexed.len (Layout.new lexed) = some last ∧ last.isEof = some true
      ∧ Walks lexed last :=
  Standing.layoutLoop heof lexed.len _ (.new (len_pos heof)) (by simp) .new

/-- Every state of the loop satisfies the invariant. -/
theorem Walks.inv (hsource : lexed.SourceKinds) (heof : lexed.EndsInEof)
    (h : Walks lexed machine) : WalkInv lexed machine := by
  induction h with
  | new => exact .new (len_pos heof)
  | takeToken _ hne htake ih =>
      obtain ⟨_, hnext, hinv, _⟩ := ih.takeToken hsource heof hne
      rw [hnext] at htake
      exact Option.some.inj htake ▸ hinv

/-- Closing the block on top of the stack keeps output and stack in step. -/
lemma Matches.finishStep (h : Matches lexed machine) (hstep : machine.finishStep = some next) :
    Matches lexed next := by
  unfold Layout.finishStep at hstep
  split at hstep
  · cases hstep
  · rename_i position delimiter stack hstack
    cases hstep
    have hblocks := h.blocks
    rw [hstack, openBlocks_cons] at hblocks
    cases hindented : delimiter.isIndented with
    | false => exact ⟨by simpa [hindented] using hblocks, by simpa using h.source⟩
    | true =>
        refine ⟨?_, ?_⟩
        · refine scan_append_of_eq _ hblocks ?_
          simp [hindented, step, layoutMark]
        · have : plain layoutMark [LAYOUT_END] = [] := rfl
          simpa [this] using h.source

theorem Drains.matches (hsource : lexed.SourceKinds) (heof : lexed.EndsInEof)
    (h : Drains lexed machine) : Matches lexed machine := by
  induction h with
  | eof hwalks _ => exact (hwalks.inv hsource heof).toMatches
  | finishStep _ hstep ih => exact ih.finishStep hstep

/-- The loop of `Layout::finish` empties the stack. -/
lemma Matches.finishLoop : ∀ (fuel : ℕ) (machine : Layout), Matches lexed machine →
    machine.stack.length = fuel → Matches lexed (Layout.finishLoop fuel machine)
      ∧ (Layout.finishLoop fuel machine).stack = []
      ∧ (Layout.finishLoop fuel machine).index = machine.index
  | 0, machine, h, hlen => ⟨h, length_eq_zero_iff.mp hlen, rfl⟩
  | fuel + 1, machine, h, hlen => by
      cases hstack : machine.stack with
      | nil => simp [hstack] at hlen
      | cons entry stack =>
          rw [hstack, length_cons, Nat.add_right_cancel_iff] at hlen
          have hstep : machine.finishStep = some { machine with
              stack
              output := if entry.2.isIndented then machine.output ++ [.LAYOUT_END]
                else machine.output } := by
            simp [Layout.finishStep, hstack]
          rw [Layout.finishLoop, hstep]
          exact Matches.finishLoop fuel _ (h.finishStep hstep) hlen

end Layout

/-- What `lexing::layout` returns: a block structured stream whose source tokens are the lexed kinds
up to the first `END_OF_FILE`, followed by it. -/
theorem layout_spec {lexed : Lexed} (hsource : lexed.SourceKinds) (heof : lexed.EndsInEof) :
    ∃ (index : ℕ) (body : List SyntaxKind), layout lexed = some (body ++ [.END_OF_FILE])
      ∧ scan layoutMark 0 body = some 0
      ∧ plain layoutMark body = lexed.kinds.take index
      ∧ lexed.kinds[index]? = some .END_OF_FILE
      ∧ END_OF_FILE ∉ lexed.kinds.take index := by
  obtain ⟨last, hlast, hend, hwalks⟩ := Layout.exists_layoutLoop heof
  have hinv' := hwalks.inv hsource heof
  obtain ⟨hmatches, hstack, hindex⟩ := hinv'.toMatches.finishLoop last.stack.length last rfl
  refine ⟨last.index, (Layout.finishLoop last.stack.length last).output, ?_, ?_, ?_, ?_,
    hinv'.before_eof⟩
  · simp only [layout, hlast]
    rfl
  · simpa [hstack] using hmatches.blocks
  · rw [hmatches.source, hindex]
  · rw [Layout.isEof, hinv'.same, kind] at hend
    cases hkind : lexed.kinds[last.index]? with
    | none => simp [hkind] at hend
    | some kind => simpa [hkind] using hend

/-! ## Blocks -/

lemma countP_start (as : List SyntaxKind) :
    as.countP (layoutMark · = .start) = as.count .LAYOUT_START := by
  refine countP_congr fun kind _ => ?_
  cases kind <;> simp [layoutMark]

lemma countP_finish (as : List SyntaxKind) :
    as.countP (layoutMark · = .finish) = as.count .LAYOUT_END := by
  refine countP_congr fun kind _ => ?_
  cases kind <;> simp [layoutMark]

/-- **Layout blocks are balanced.**  No prefix of the output closes more blocks than it opens, the
whole output closes all of them, every separator stands inside a block, and in every state of the
run the open blocks of the output are the indented delimiters of the stack. -/
theorem layout_blocks_balanced (lexed : Lexed) (hsource : lexed.SourceKinds)
    (heof : lexed.EndsInEof) :
    (∃ output, layout lexed = some output
      ∧ (∀ before, before <+: output →
          before.count .LAYOUT_END ≤ before.count .LAYOUT_START)
      ∧ output.count .LAYOUT_START = output.count .LAYOUT_END
      ∧ ∀ before after, output = before ++ .LAYOUT_SEPARATOR :: after →
          before.count .LAYOUT_END < before.count .LAYOUT_START)
    ∧ ∀ machine, Layout.Walks lexed machine ∨ Layout.Drains lexed machine →
        machine.output.count .LAYOUT_START
          = machine.output.count .LAYOUT_END + openBlocks machine.stack := by
  refine ⟨?_, ?_⟩
  · obtain ⟨_, body, hbody, hscan, -⟩ := layout_spec hsource heof
    have hfull : scan layoutMark 0 (body ++ [.END_OF_FILE]) = some 0 :=
      scan_append_of_eq _ hscan rfl
    refine ⟨_, hbody, ?_, ?_, ?_⟩
    · intro before hbefore
      simpa [countP_start, countP_finish] using countP_finish_le_of_prefix _ hfull hbefore
    · have hcount := scan_count _ hfull
      rwa [countP_start, countP_finish, Nat.zero_add, Nat.zero_add] at hcount
    · intro before after hsplit
      rw [hsplit] at hfull
      simpa [countP_start, countP_finish] using countP_finish_lt_of_separator _ hfull rfl
  · intro machine hmachine
    have hmatches : Layout.Matches lexed machine := by
      rcases hmachine with h | h
      · exact (h.inv hsource heof).toMatches
      · exact h.matches hsource heof
    have hcount := scan_count _ hmatches.blocks
    rw [countP_start, countP_finish] at hcount
    omega

theorem whereBlock_blocks_balanced :
    whereBlock.SourceKinds ∧ whereBlock.EndsInEof
      ∧ ∃ output, layout whereBlock = some output
        ∧ output.count .LAYOUT_START = output.count .LAYOUT_END := by
  have hsource : whereBlock.SourceKinds := by decide
  have heof : whereBlock.EndsInEof := by decide
  obtain ⟨⟨output, hlayout, -, hcount, -⟩, -⟩ := layout_blocks_balanced whereBlock hsource heof
  exact ⟨hsource, heof, output, hlayout, hcount⟩

/-! ## Source tokens -/

/-- The output without its layout tokens. -/
lemma layout_ends {lexed : Lexed} (hsource : lexed.SourceKinds)
    (heof : lexed.EndsInEof) (hsingle : lexed.kinds.count .END_OF_FILE = 1) :
    ∃ output, layout lexed = some output
      ∧ output.filter (fun kind => !kind.isLayoutToken) = lexed.kinds
      ∧ output.getLast? = some .END_OF_FILE := by
  obtain ⟨index, body, hbody, -, hplain, hat, hbefore⟩ := layout_spec hsource heof
  have hindex : index < lexed.kinds.length := (List.getElem?_eq_some_iff.mp hat).1
  have hget : lexed.kinds[index] = .END_OF_FILE := (List.getElem?_eq_some_iff.mp hat).2
  have hsplit : lexed.kinds
      = lexed.kinds.take index ++ .END_OF_FILE :: lexed.kinds.drop (index + 1) := by
    rw [← hget, ← drop_eq_getElem_cons hindex, take_append_drop]
  -- a second token after that `END_OF_FILE` would make the last one a second `END_OF_FILE`
  have hrest : lexed.kinds.drop (index + 1) = [] := by
    by_contra hne
    have hlast : (lexed.kinds.drop (index + 1)).getLast? = some .END_OF_FILE := by
      rw [EndsInEof, hsplit, getLast?_append] at heof
      rw [getLast?_cons_of_ne_nil hne] at heof
      simpa [getLast?_eq_some_getLast hne] using heof
    have hmem : END_OF_FILE ∈ lexed.kinds.drop (index + 1) := mem_of_getLast? hlast
    have := count_pos_iff.mpr hmem
    rw [hsplit, count_append, count_cons_self] at hsingle
    omega
  refine ⟨_, hbody, ?_, by simp⟩
  have hfilter : (body ++ [END_OF_FILE]).filter (fun kind => !kind.isLayoutToken)
      = plain layoutMark (body ++ [.END_OF_FILE]) := by
    refine filter_congr fun kind _ => ?_
    cases kind <;> rfl
  rw [hrest] at hsplit
  rw [hfilter, plain_append, hplain]
  exact hsplit.symm

/-- **Layout preserves the source tokens.**  Erasing the layout tokens from the output leaves
exactly the lexed kinds, each once and in order, and the output ends in `END_OF_FILE`. -/
theorem layout_preserves_tokens (lexed : Lexed) (hsource : lexed.SourceKinds)
    (heof : lexed.EndsInEof) (hsingle : lexed.kinds.count .END_OF_FILE = 1) :
    ∃ output, layout lexed = some output
      ∧ output.filter (fun kind => !kind.isLayoutToken) = lexed.kinds
      ∧ output.getLast? = some .END_OF_FILE :=
  layout_ends hsource heof hsingle

theorem whereBlock_preserves_tokens :
    whereBlock.kinds.count .END_OF_FILE = 1
      ∧ ∃ output, layout whereBlock = some output
        ∧ output.filter (fun kind => !kind.isLayoutToken) = [.WHERE, .LOWER, .END_OF_FILE] := by
  have hsingle : whereBlock.kinds.count .END_OF_FILE = 1 := by decide
  obtain ⟨output, hlayout, hfilter, -⟩ :=
    layout_preserves_tokens whereBlock (by decide) (by decide) hsingle
  exact ⟨hsingle, output, hlayout, hfilter⟩

example : layout whereBlock
    = some [.WHERE, .LAYOUT_START, .LOWER, .LAYOUT_END, .END_OF_FILE] := by decide

end Iris.Lexing
