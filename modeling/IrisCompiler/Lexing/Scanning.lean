import IrisCompiler.Lexing.Lexer

/-!
# What the scanners take

Between two pushed tokens a lexer only moves forward: `Moves taken s t` says that `t` is `s` after
the characters `taken`, with the position advanced over them and everything else as it was.  This
module gives each scanner of annotations, qualifiers and token texts its specification in those
terms, with the end of every loop.
-/

namespace Iris.Lexing

open ByteText TotalRun

namespace Lexer

variable {source : List Char} {s t u : Lexer source} {taken more : List Char}

/-! ## Moving forward -/

/-- From `s` to `t` the lexer has taken the characters `taken` and done nothing else. -/
structure Moves (taken : List Char) (s t : Lexer source) : Prop where
  chars : s.chars.rest = taken ++ t.chars.rest
  position : t.currentPosition = taken.foldl Position.after s.currentPosition
  annotation : t.annotation = s.annotation
  qualifier : t.qualifier = s.qualifier
  qualifierPosition : t.qualifierPosition = s.qualifierPosition
  lexed : t.lexed = s.lexed

/-- From `s` to `t` the lexer has moved by at least one character. -/
def Progresses (s t : Lexer source) : Prop := ∃ taken, taken ≠ [] ∧ Moves taken s t

lemma Moves.refl (s : Lexer source) : Moves [] s s := ⟨rfl, rfl, rfl, rfl, rfl, rfl⟩

/-- Moves compose: the characters are taken one run after the other. -/
lemma Moves.trans (h : Moves taken s t) (h' : Moves more t u) : Moves (taken ++ more) s u where
  chars := by rw [h.chars, h'.chars, List.append_assoc]
  position := by rw [h'.position, h.position, List.foldl_append]
  annotation := h'.annotation.trans h.annotation
  qualifier := h'.qualifier.trans h.qualifier
  qualifierPosition := h'.qualifierPosition.trans h.qualifierPosition
  lexed := h'.lexed.trans h.lexed

/-- A move over at least one character. -/
lemma Moves.progresses (h : Moves taken s t) (hnonempty : taken ≠ []) : Progresses s t :=
  ⟨taken, hnonempty, h⟩

/-- Progress stays progress when the lexer goes on. -/
lemma Progresses.moves (h : Progresses s t) (h' : Moves more t u) : Progresses s u := by
  obtain ⟨taken, hnonempty, moves⟩ := h
  exact ⟨taken ++ more, by simp [hnonempty], moves.trans h'⟩

lemma Moves.then_progresses (h : Moves taken s t) (h' : Progresses t u) : Progresses s u := by
  obtain ⟨more, hnonempty, hmoves⟩ := h'
  exact ⟨taken ++ more, by simp [hnonempty], h.trans hmoves⟩

lemma Progresses.trans (h : Progresses s t) (h' : Progresses t u) : Progresses s u := by
  obtain ⟨more, -, hmoves⟩ := h'
  exact h.moves hmoves

/-- Progress leaves less text: this is what bounds the loops. -/
lemma Progresses.shorter (h : Progresses s t) : t.chars.rest.length < s.chars.rest.length := by
  obtain ⟨taken, hnonempty, hmoves⟩ := h
  have := List.length_pos_iff.mpr hnonempty
  rw [hmoves.chars, List.length_append]
  omega

/-! ## Offsets -/

/-- The text that has been taken since the start. -/
lemma exists_before (s : Lexer source) :
    ∃ before, source = before ++ s.chars.rest ∧ byteLength before = s.consumed := by
  obtain ⟨before, hsplit⟩ := s.chars.suffix
  have hwidth := congrArg byteLength hsplit
  rw [byteLength_append] at hwidth
  exact ⟨before, hsplit.symm, by unfold consumed; omega⟩

/-- The offset of the lexer does not cut a character. -/
lemma isBoundary_consumed (s : Lexer source) : IsBoundary source s.consumed := by
  obtain ⟨before, hsplit, hwidth⟩ := s.exists_before
  exact ⟨before, _, hsplit, hwidth⟩

lemma consumed_le (s : Lexer source) : s.consumed ≤ byteLength source := Nat.sub_le _ _

/-- A move adds the width of what it takes to the offset. -/
lemma Moves.consumed (h : Moves taken s t) : t.consumed = s.consumed + byteLength taken := by
  obtain ⟨before, hsplit, hwidth⟩ := s.exists_before
  have htotal := congrArg byteLength hsplit
  rw [h.chars] at htotal
  simp only [byteLength_append] at htotal
  unfold Lexer.consumed at hwidth ⊢
  omega

lemma Progresses.consumed_lt (h : Progresses s t) : s.consumed < t.consumed := by
  obtain ⟨taken, hnonempty, hmoves⟩ := h
  have := byteLength_pos hnonempty
  rw [hmoves.consumed]
  omega

/-- The text between where the lexer was and where it is. -/
lemma Moves.slice (h : Moves taken s t) :
    ByteText.slice source s.consumed t.consumed = some taken := by
  obtain ⟨before, hsplit, hwidth⟩ := s.exists_before
  have := slice_append before taken t.chars.rest
  rwa [← h.chars, ← hsplit, hwidth, ← h.consumed] at this

/-! ## Looking ahead -/

/-- Before the end there is a character to take, which is the one looked at. -/
lemma exists_rest (h : s.isEof = false) : ∃ rest, s.chars.rest = s.first :: rest := by
  unfold isEof at h
  rw [first_eq]
  cases hchars : s.chars.rest with
  | nil => simp [hchars] at h
  | cons c rest => exact ⟨rest, by simp⟩

/-- A character other than the one that stands for the end is not the end. -/
lemma not_isEof_of_first {c : Char} (h : s.first = c) (hreal : c ≠ EOF_CHAR) : s.isEof = false := by
  rw [first_eq] at h
  unfold isEof
  cases hchars : s.chars.rest with
  | nil => exact absurd (by simpa [hchars] using h.symm) hreal
  | cons => rfl

/-- The same for a category that the end does not belong to. -/
lemma not_isEof_of_category {category : Char → Bool} (h : category s.first)
    (hreal : category EOF_CHAR = false) : s.isEof = false :=
  not_isEof_of_first rfl fun habsurd => by simp [habsurd, hreal] at h

/-- After the first character the second one comes first. -/
lemma Moves.first_eq_second (h : Moves [s.first] s t) : t.first = s.second := by
  rw [second_eq, h.chars]
  rfl

end Lexer

open Lexer

variable {source : List Char} {s t : Lexer source} {taken : List Char}

/-! ## Loops that take a character in each round -/

/-- **A loop ends** if every round keeps the invariant and takes a character. -/
lemma Ends.repeatLoop {τ ρ : Type} {body : τ → LexerM source (Turn τ ρ)} {x : τ}
    {post : ρ → Lexer source → Prop} (invariant : τ → Lexer source → Prop)
    (hround : ∀ x s, invariant x s → Ends (body x) s fun turn t =>
      match turn with
      | .again y => invariant y t ∧ t.chars.rest.length < s.chars.rest.length
      | .leave result => post result t)
    (hstart : invariant x s) : Ends (repeatLoop body x) s post := by
  exact Ends.loop invariant (fun _ s => s.chars.rest.length) hround (Nat.lt_succ_self _) hstart

/-- The same for a loop with a condition, which is false behind it. -/
lemma Ends.whileLoop {condition : Lexer source → Bool} {body : LexerM source Unit}
    (invariant : Lexer source → Prop)
    (hround : ∀ s, invariant s → condition s →
      Ends body s fun _ t => invariant t ∧ t.chars.rest.length < s.chars.rest.length)
    (hstart : invariant s) :
    Ends (whileLoop condition body) s fun _ t => invariant t ∧ condition t = false := by
  refine Ends.repeatLoop (fun _ => invariant) (fun _ s holds => ?_) hstart
  simp only [ends_bind, ends_get, ends_ite, ends_pure]
  refine ⟨fun h => (hround s holds h).mono fun _ t hdone => hdone, fun h => ⟨holds, ?_⟩⟩
  simpa using h

/-! ## Taking characters -/

/-- `take` takes the character that is looked at. -/
lemma ends_take (h : s.isEof = false) :
    Ends take s fun c t => c = s.first ∧ Moves [s.first] s t := by
  obtain ⟨rest, hchars⟩ := exists_rest h
  simp only [take, ends_bind, ends_get, ends_set, ends_pure]
  exact ⟨rfl, ⟨by simp [Chars.next, hchars], rfl, rfl, rfl, rfl, rfl⟩⟩

/-- Taking the two characters that were looked at. -/
lemma ends_take_take {post : Char → Lexer source → Prop} (h : s.isEof = false)
    (h' : s.second ≠ EOF_CHAR) (hdone : ∀ c t, Progresses s t → post c t) :
    Ends take s fun _ t => Ends take t post := by
  refine (ends_take h).mono fun _ t hmove => ?_
  have hfirst := hmove.2.first_eq_second
  refine (ends_take (not_isEof_of_first hfirst h')).mono fun c u hnext => hdone c u ?_
  exact (hmove.2.progresses (by simp)).moves hnext.2

/-- **`take_while` takes the longest run of the predicate.** -/
lemma ends_takeWhile (predicate : Char → Bool) (s : Lexer source) :
    Ends (takeWhile predicate) s fun _ t => Moves (s.chars.rest.takeWhile predicate) s t := by
  -- What has been taken and the run that is left make up the run at the start.
  let invariant (t : Lexer source) : Prop := ∃ taken, Moves taken s t ∧
    s.chars.rest.takeWhile predicate = taken ++ t.chars.rest.takeWhile predicate
  have hstart : invariant s := ⟨[], .refl s, rfl⟩
  refine (Ends.whileLoop invariant ?_ hstart).mono ?_
  · rintro t ⟨taken, hmoves, hrun⟩ h
    simp only [Bool.and_eq_true, Bool.not_eq_true'] at h
    simp only [ends_bind, ends_pure]
    refine (ends_take h.2).mono fun _ u hnext => ⟨⟨_, hmoves.trans hnext.2, ?_⟩, ?_⟩
    · have hleft := hnext.2.chars
      rw [hrun, hleft]
      simp [h.1]
    · exact (hnext.2.progresses (by simp)).shorter
  · rintro - t ⟨⟨taken, hmoves, hrun⟩, hleft⟩
    have hstopped : t.chars.rest.takeWhile predicate = [] := by
      cases h : t.isEof with
      | true => simp_all [isEof]
      | false =>
        obtain ⟨rest, hchars⟩ := exists_rest h
        simp_all
    rw [hstopped, List.append_nil] at hrun
    rwa [hrun]

/-- `take_while_maximum` takes the longest run up to the maximum. -/
lemma ends_takeWhileMaximum (predicate : Char → Bool) (maximum : ℕ) (s : Lexer source) :
    Ends (takeWhileMaximum predicate maximum) s fun _ t =>
      Moves ((s.chars.rest.takeWhile predicate).take maximum) s t := by
  induction maximum generalizing s with
  | zero => simpa [takeWhileMaximum] using Moves.refl s
  | succ maximum ih =>
    simp only [takeWhileMaximum, ends_bind, ends_get, ends_ite, ends_pure]
    constructor
    · intro h
      simp only [Bool.and_eq_true, Bool.not_eq_true'] at h
      refine (ends_take h.2).mono fun _ t hmove => (ih t).mono fun _ u hmoves => ?_
      have := hmove.2.trans hmoves
      rw [hmove.2.chars]
      simpa [h.1] using this
    · intro h
      suffices (s.chars.rest.takeWhile predicate).take (maximum + 1) = [] by
        rw [this]
        exact .refl s
      cases heof : s.isEof with
      | true => simp_all [isEof]
      | false =>
        obtain ⟨rest, hchars⟩ := exists_rest heof
        simp_all

lemma ends_sourceText (h : Moves taken s t) {u : Lexer source} :
    Ends (sourceText s.consumed t.consumed) u fun text u' => text = taken ∧ u' = u := by
  simp [sourceText, h.slice]

end Iris.Lexing
