import IrisCompiler.Lexing.LayoutRuns

/-!
# The stack of the layout algorithm

`Restacks` lists what a transition can do to the stack.  Three facts about the stack follow from it
for whole runs, whatever the tokens are: `Root` stays at the bottom, the blocks are indented further
and further from bottom to top, and every entry but `Root` stands at the position of a token.
-/

namespace Iris.Lexing

/-- `Root` is at the bottom of the stack and nowhere else. -/
def Rooted (stack : List (Position × Delimiter)) : Prop :=
  ∃ inner position, stack = inner ++ [(position, .Root)] ∧ ∀ entry ∈ inner, entry.2 ≠ .Root

/-- The columns of the indented delimiters, from top to bottom. -/
def blockColumns (stack : List (Position × Delimiter)) : List ℕ :=
  (stack.filter fun entry => entry.2.isIndented).map fun entry => entry.1.column

/-- The columns of the indented delimiters strictly increase from bottom to top. -/
def IndentsFurther (stack : List (Position × Delimiter)) : Prop :=
  (blockColumns stack).Pairwise (· > ·)

/-- Every entry but `Root` stands at one of the positions. -/
def StandsAt (positions : Position → Prop) (stack : List (Position × Delimiter)) : Prop :=
  ∀ entry ∈ stack, entry.2 ≠ .Root → positions entry.1

lemma StackWf.rooted {stack : List (Position × Delimiter)} (h : StackWf stack) : Rooted stack := by
  induction stack with
  | nil => exact h.elim
  | cons entry rest ih =>
      obtain ⟨position, delimiter⟩ := entry
      cases rest with
      | nil =>
          obtain rfl : delimiter = .Root := h
          exact ⟨[], position, rfl, by simp⟩
      | cons below rest =>
          obtain ⟨inner, bottom, hsplit, hinner⟩ := ih h.2.2
          refine ⟨(position, delimiter) :: inner, bottom, by rw [hsplit]; rfl, ?_⟩
          rintro other (_ | ⟨_, hother⟩)
          · exact h.1
          · exact hinner other hother

namespace Restacks

variable {here next : Position} {first stack : List (Position × Delimiter)}

/-- The block on top is the first indented delimiter. -/
lemma blockColumns_find {column : ℕ}
    (h : ∀ past, stack.find? (fun entry => entry.2.isIndented) = some past →
      past.1.column < column) (hstack : IndentsFurther stack) :
    ∀ other ∈ blockColumns stack, other < column := by
  intro other hother
  obtain ⟨blocks, hblocks⟩ : ∃ blocks, stack.filter (fun entry => entry.2.isIndented) = blocks :=
    ⟨_, rfl⟩
  rw [← List.head?_filter, hblocks] at h
  rw [IndentsFurther, blockColumns, hblocks] at hstack
  rw [blockColumns, hblocks] at hother
  cases blocks with
  | nil => simp at hother
  | cons top rest =>
      have htop := h top rfl
      rw [List.map_cons, List.pairwise_cons] at hstack
      rcases List.mem_cons.mp hother with rfl | hother
      · exact htop
      · exact Nat.lt_trans (hstack.1 other hother) htop

/-- **A transition keeps the columns of the blocks in order.** -/
lemma indentsFurther (h : Restacks here next first stack) (hfirst : IndentsFurther first) :
    IndentsFurther stack := by
  induction h with
  | refl => exact hfirst
  | @pop position delimiter stack _ _ ih =>
      rw [IndentsFurther, blockColumns, List.filter_cons] at ih
      split at ih
      · rw [List.map_cons, List.pairwise_cons] at ih
        exact ih.2
      · exact ih
  | push _ _ hindented _ ih =>
      rwa [IndentsFurther, blockColumns, List.filter_cons_of_neg (by simp [hindented])]
  | openBlock _ hindented hpast ih =>
      rw [IndentsFurther, blockColumns, List.filter_cons_of_pos (by simp [hindented]),
        List.map_cons,
        List.pairwise_cons]
      exact ⟨blockColumns_find hpast ih, ih⟩

/-- **A transition stacks entries at its own token and at the next one.** -/
lemma standsAt (h : Restacks here next first stack) {positions : Position → Prop}
    (hfirst : StandsAt positions first) (hhere : positions here) (hnext : positions next) :
    StandsAt positions stack := by
  induction h with
  | refl => exact hfirst
  | pop _ _ ih => exact fun entry hentry => ih entry (List.mem_cons_of_mem _ hentry)
  | push _ hposition _ _ ih =>
      rintro entry (_ | ⟨_, hentry⟩) hroot
      · rcases hposition with rfl | rfl
        · exact hhere
        · exact hnext
      · exact ih entry hentry hroot
  | openBlock _ _ _ ih =>
      rintro entry (_ | ⟨_, hentry⟩) hroot
      · exact hnext
      · exact ih entry hentry hroot

end Restacks

namespace Layout

variable {lexed : Lexed} {machine : Layout}

/-- The position of one of the tokens. -/
def TokenPosition (lexed : Lexed) (position : Position) : Prop :=
  ∃ info ∈ lexed.infos, info.position = position

/-- What holds of the stack in every state of the loop. -/
theorem Walks.stack (heof : lexed.EndsInEof) (h : Walks lexed machine) :
    IndentsFurther machine.stack ∧ StandsAt (TokenPosition lexed) machine.stack := by
  induction h with
  | new => exact ⟨by simp [IndentsFurther, blockColumns, Layout.new, Delimiter.isIndented],
      by simp [StandsAt, Layout.new]⟩
  | @takeToken machine next hwalks hne htake ih =>
      obtain ⟨kind, info, after, moved, -, -, hinfo, hafter, hnext, hmoves, -⟩ :=
        (hwalks.standing heof).takeToken heof hne
      cases htake.symm.trans hnext
      refine ⟨hmoves.restacks.indentsFurther ih.1, hmoves.restacks.standsAt ih.2 ?_ ?_⟩
      · exact ⟨info, List.mem_of_getElem? hinfo, rfl⟩
      · exact ⟨after, List.mem_of_getElem? hafter, rfl⟩

end Layout

/-- **Layout never panics and keeps its root.**  In every state of the run `Root` is at the bottom
of the stack and nowhere else, the columns of the indented delimiters strictly increase from bottom
to top, and the machine is at `END_OF_FILE` or takes the next token; so the whole run returns. -/
theorem layout_keeps_root (lexed : Lexed) (heof : lexed.EndsInEof) :
    (∀ machine, Layout.Walks lexed machine → Rooted machine.stack ∧ IndentsFurther machine.stack ∧
      (machine.isEof = some true ∨
        machine.isEof = some false ∧ ∃ next, machine.takeToken = some next)) ∧
    ∃ output, layout lexed = some output := by
  refine ⟨fun machine hwalks => ?_, ?_⟩
  · have hstands := hwalks.standing heof
    refine ⟨hstands.wf.rooted, (hwalks.stack heof).1, ?_⟩
    cases hcase : machine.isEof with
    | none => simp [Layout.isEof, hstands.kind_eq] at hcase
    | some eof =>
        cases eof with
        | true => exact .inl rfl
        | false =>
            obtain ⟨_, _, _, _, _, _, _, _, hnext, _⟩ := hstands.takeToken heof hcase
            exact .inr ⟨rfl, _, hnext⟩
  · obtain ⟨last, hlast, -⟩ := Layout.exists_layoutLoop heof
    exact ⟨last.finish, by simp [layout, hlast]⟩

/-- A block that closes before the end of the file. -/
theorem whereBlock_keeps_root :
    whereBlock.EndsInEof ∧ (∀ machine, Layout.Walks whereBlock machine → Rooted machine.stack) ∧
      ∃ output, layout whereBlock = some output := by
  have heof : whereBlock.EndsInEof := by decide
  have hroot := layout_keeps_root whereBlock heof
  exact ⟨heof, fun machine hwalks => (hroot.1 machine hwalks).1, hroot.2⟩

end Iris.Lexing
