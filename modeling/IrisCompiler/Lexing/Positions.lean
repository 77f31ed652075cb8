import Mathlib.Data.List.Induction
import IrisCompiler.Lexing.Trivia

/-!
# Positions

The lexer keeps its position by steps: `take` advances it over one character, `take_qualifier` puts
it back with the characters it gives back, and an operator after an opening parenthesis is stored
with the position between the two.  `positionAt` reads the position of an offset off the source
instead: it counts the newlines before the offset, and the bytes since the last of them.  Here the
position stored with each token is shown to be the one of the offset where its annotation ends.

Lines and columns are `u32` and count from one, so the statement is about sources of at most
`2 ^ 32 - 2` bytes; in a line of one byte more the last column wraps around.
-/

namespace Iris.Lexing

open ByteText TotalRun

/-- The position after a text that starts at the first line and column. -/
def positionAfter (before : List Char) : Position where
  line := 1 + before.count '\n'
  column := 1 + byteLength (before.reverse.takeWhile fun c => c ≠ '\n')

/-- The position of a byte offset, read off the source. -/
def positionAt (source : List Char) (offset : ℕ) : Option Position :=
  (takeBytes offset source).map positionAfter

/-- The token is stored with the position where its annotation ends. -/
def PositionHere (source : List Char) (info : SyntaxKindInfo) : Prop :=
  positionAt source info.annotation = some info.position

/-! ## Counting step by step -/

lemma count_le_byteLength (text : List Char) : text.count '\n' ≤ byteLength text := by
  induction text with
  | nil => simp
  | cons c text ih =>
    have := c.utf8Size_pos
    rw [List.count_cons, byteLength_cons]
    split <;> omega

lemma byteLength_reverse (text : List Char) : byteLength text.reverse = byteLength text := by
  simp [byteLength]

lemma byteLength_takeWhile_le (predicate : Char → Bool) (text : List Char) :
    byteLength (text.takeWhile predicate) ≤ byteLength text := by
  have hsplit := congrArg byteLength
    (List.takeWhile_append_dropWhile : text.takeWhile predicate ++ text.dropWhile predicate = text)
  rw [byteLength_append] at hsplit
  omega

/-- One character more: as long as nothing wraps around, `after` is `positionAfter` of it. -/
lemma after_positionAfter {before : List Char} {c : Char}
    (hshort : byteLength (before ++ [c]) + 1 < 2 ^ 32) :
    (positionAfter before).after c = positionAfter (before ++ [c]) := by
  have hlines := count_le_byteLength before
  have hcolumns := byteLength_takeWhile_le (fun c => c ≠ '\n') before.reverse
  have := c.utf8Size_pos
  rw [byteLength_reverse] at hcolumns
  rw [byteLength_append, byteLength_cons] at hshort
  by_cases hnewline : c = '\n'
  · subst hnewline
    simp only [Position.after, positionAfter]
    rw [asU32_of_lt (by omega)]
    simp
    omega
  · have hcolumn : asU32 ((positionAfter before).column + c.utf8Size) =
        1 + (c.utf8Size + byteLength (before.reverse.takeWhile fun c => c ≠ '\n')) := by
      rw [asU32_of_lt (by simp only [positionAfter]; omega)]
      simp only [positionAfter]
      omega
    rw [Position.after, hcolumn]
    simp [positionAfter, hnewline]

/-- **Taking the characters one by one counts the lines and the columns.** -/
lemma foldl_after {before : List Char} (hshort : byteLength before + 1 < 2 ^ 32) :
    before.foldl Position.after ⟨1, 1⟩ = positionAfter before := by
  induction before using List.reverseRecOn with
  | nil => rfl
  | append_singleton before c ih =>
    have hshorter : byteLength before + 1 < 2 ^ 32 := by
      rw [byteLength_append] at hshort
      omega
    rw [List.foldl_append, ih hshorter]
    exact after_positionAfter hshort

lemma positionAt_append (before after : List Char) :
    positionAt (before ++ after) (byteLength before) = some (positionAfter before) := by
  rw [positionAt, takeBytes_append, Option.map_some]

/-! ## States of a run -/

namespace Lexer

variable {source : List Char} {s t : Lexer source} {taken : List Char} {unicode : UnicodeTables}

/-- The position is where the characters taken so far lead to. -/
def Located (s : Lexer source) : Prop :=
  ∃ before, source = before ++ s.chars.rest ∧
    s.currentPosition = before.foldl Position.after ⟨1, 1⟩

lemma located_start (source : List Char) : Located (start source) := ⟨[], rfl, rfl⟩

lemma Moves.located (h : Moves taken s t) (located : Located s) : Located t := by
  obtain ⟨before, hsplit, hposition⟩ := located
  refine ⟨before ++ taken, ?_, ?_⟩
  · rw [List.append_assoc, ← h.chars]
    exact hsplit
  · rw [h.position, hposition, List.foldl_append]

lemma Located.positionAt (hlocated : Located s) (hshort : byteLength source + 1 < 2 ^ 32) :
    positionAt source s.consumed = some s.currentPosition := by
  obtain ⟨before, hsplit, hposition⟩ := hlocated
  have hwidth := congrArg byteLength hsplit
  rw [byteLength_append] at hwidth
  have hconsumed : s.consumed = byteLength before := by
    unfold Lexer.consumed
    omega
  rw [hconsumed, hposition, foldl_after (by omega)]
  conv_lhs => rw [hsplit]
  exact positionAt_append before s.chars.rest

/-- All tokens so far are stored with the position where their annotation ends. -/
def Placed (s : Lexer source) : Prop :=
  Located s ∧ ∀ token ∈ s.lexed.tokens, PositionHere source token.2

/-- The tokens so far are placed, and so is the next one. -/
def ReadyPlaced (s : Lexer source) : Prop :=
  Placed s ∧ positionAt source s.annotation = some s.qualifierPosition

lemma placed_start (source : List Char) : Placed (start source) :=
  ⟨located_start source, by simp [start, LexedBuilder.new]⟩

lemma Placed.push {kind : SyntaxKind} {info : SyntaxKindInfo} {error : Option String}
    (hplaced : Placed t) (here : PositionHere source info) : Placed (t.pushed kind info error) := by
  refine ⟨hplaced.1, fun token hmem => ?_⟩
  rw [pushed_tokens, List.mem_append, List.mem_singleton] at hmem
  rcases hmem with hmem | rfl
  · exact hplaced.2 token hmem
  · exact here

lemma Moves.placed (h : Moves taken s t) (placed : Placed s) : Placed t :=
  ⟨h.located placed.1, by rw [h.lexed]; exact placed.2⟩

/-- A token pushed where the lexer has moved to keeps the annotation and the position that the next
token was given. -/
lemma ReadyPlaced.info (hready : ReadyPlaced s) (h : Moves taken s t) :
    PositionHere source t.info := by
  show positionAt source t.annotation = some t.qualifierPosition
  rw [h.qualifierPosition, h.annotation]
  exact hready.2

/-- **A token is stored with the position where its annotation ends.** -/
lemma ReadyPlaced.step (hready : ReadyPlaced s) (hshort : byteLength source + 1 < 2 ^ 32)
    (step : TokenStep unicode s t) : Placed t := by
  cases step with
  | stop message htrivia => exact hready.1.push (hready.info (.refl s))
  | token error htext =>
    obtain ⟨taken, -, hmoves⟩ := htext
    exact (hmoves.placed hready.1).push (hready.info hmoves)
  | @parenthesis left mid kind op hfirst _ _ hrun _ _ hann _ _ hposition =>
    obtain ⟨taken, -, hmoves⟩ := hfirst
    have hopened : Placed left := hmoves.placed hready.1
    have hoperator : PositionHere source op := by
      rw [PositionHere, hann, hposition, asU32_consumed (by omega)]
      exact hopened.1.positionAt hshort
    exact ((hrun.placed hopened).push (hready.info hmoves)).push hoperator

/-- **Trivia and a qualifier give the next token the position where the trivia ends.** -/
lemma Placed.ready {mid u : Lexer source} {more : List Char} (hplaced : Placed s)
    (hshort : byteLength source + 1 < 2 ^ 32) (htrivia : Moves taken s mid)
    (hqualifier : Moves more mid.annotated u) : ReadyPlaced u.qualified := by
  have here : Placed mid := htrivia.placed hplaced
  have hannotated : Placed mid.annotated := here
  refine ⟨hqualifier.placed hannotated, ?_⟩
  show positionAt source u.annotation = some u.qualifierPosition
  rw [hqualifier.qualifierPosition, hqualifier.annotation]
  show positionAt source (asU32 mid.consumed) = some mid.currentPosition
  rw [asU32_consumed (by omega)]
  exact here.1.positionAt hshort

end Lexer

open Lexer

variable {source : List Char} {s : Lexer source} {unicode : UnicodeTables}

/-! ## Whole runs -/

lemma ends_new_placed (hshort : byteLength source + 1 < 2 ^ 32) (hplaced : Placed s) :
    Ends (new unicode) s fun _ t => ReadyPlaced t := by
  refine (ends_new unicode s).mono ?_
  rintro _ t ⟨mid, last, htrivia, -, hname, rfl⟩
  obtain ⟨taken, htrivia⟩ := htrivia.exists_moves
  obtain ⟨more, hname⟩ := hname.exists_moves
  exact hplaced.ready hshort htrivia hname

lemma ends_takeToken_placed (hshort : byteLength source + 1 < 2 ^ 32) (hready : ReadyPlaced s)
    (hnotEof : s.isEof = false) : Ends (takeToken unicode) s fun _ t => ReadyPlaced t :=
  ends_takeToken_of hnotEof fun _ hstep => ends_new_placed hshort (hready.step hshort hstep)

/-- **Positions match offsets.**  The position stored with each token is the line and the byte
column, counted in the source, of the offset where the token's annotation ends. -/
theorem lex_positions (unicode : UnicodeTables) (source : List Char)
    (hshort : byteLength source + 1 < 2 ^ 32) :
    ∃ lexed, lex unicode source = .ok lexed ∧ ∀ info ∈ lexed.infos, PositionHere source info := by
  refine @lex_run source unicode ReadyPlaced _ (ends_new_placed hshort (placed_start source))
    (fun s => ends_takeToken_placed hshort) fun s error hready _ info hmem => ?_
  have hplaced : Placed (s.pushed .END_OF_FILE s.info error) :=
    hready.1.push (hready.info (.refl s))
  obtain ⟨token, hinside, rfl⟩ := List.mem_map.mp hmem
  exact hplaced.2 token hinside

/-- A source with a wide character, a qualified name and an operator after a parenthesis. -/
theorem lex_positions_lines :
    byteLength "α =\n  (+ A.x)".toList + 1 < 2 ^ 32 ∧
      ∃ lexed, lex asciiTables "α =\n  (+ A.x)".toList = .ok lexed ∧
        ∀ info ∈ lexed.infos, PositionHere "α =\n  (+ A.x)".toList info :=
  ⟨by decide, lex_positions asciiTables _ (by decide)⟩

/-! ## Lines of `2 ^ 32 - 1` bytes -/

lemma column_spaces (n : ℕ) :
    ((List.replicate n ' ').foldl Position.after ⟨1, 1⟩).column = asU32 (1 + n) := by
  induction n with
  | zero => rfl
  | succ n ih =>
    rw [List.replicate_succ', List.foldl_append]
    show asU32 (_ + 1) = _
    rw [ih, asU32, asU32, Nat.mod_add_mod]
    rfl

/-- A line that fills the range of offsets has no column for its end. -/
lemma position_lost {n : ℕ} (hfits : asU32 n = n) (hwraps : asU32 (1 + n) = 0) :
    ¬ ∃ lexed, lex asciiTables (List.replicate n ' ') = .ok lexed ∧
      ∀ info ∈ lexed.infos, PositionHere (List.replicate n ' ') info := by
  rintro ⟨lexed, hran, hplaced⟩
  obtain ⟨-, info, htokens, hann, hposition⟩ := lex_spaces hran
  have here := hplaced info (by simp [Lexed.infos, htokens])
  have hwidth : byteLength (List.replicate n ' ') = n := by simp [byteLength, Char.utf8Size]
  have hwhole := positionAt_append (List.replicate n ' ') []
  rw [List.append_nil, hwidth] at hwhole
  rw [PositionHere, hann, hfits, hwhole, Option.some.injEq] at here
  have hcolumn := congrArg Position.column here
  rw [hposition, column_spaces, hwraps] at hcolumn
  simp [positionAfter] at hcolumn

/-- After a line of `2 ^ 32 - 1` spaces the `u32` column wraps around to zero: the end-of-file token
is stored with column 0. -/
theorem long_line_position_lost :
    ¬ ∃ lexed, lex asciiTables (List.replicate (2 ^ 32 - 1) ' ') = .ok lexed ∧
      ∀ info ∈ lexed.infos, PositionHere (List.replicate (2 ^ 32 - 1) ' ') info :=
  position_lost (asU32_of_lt (by omega)) (Nat.mod_self _)

end Iris.Lexing
