import Mathlib.Data.List.Infix
import IrisCompiler.Lexing.Trivia

/-!
# The comments of an annotation

The formatter cuts the annotation of a token into whitespace and comments with its own scanner,
`trivia`.  It agrees with the lexer, which scanned the same characters: on every annotation of a
source whose block comments are closed it succeeds, and its pieces are the annotation.
-/

namespace Iris.Formatting

open Lexing ByteText List

inductive FormatError where
  | InvalidSource (message : String)

structure Comment where
  whitespace : List Char
  text : List Char
  line : Bool
  ends : ℕ

/-- The length of the rest of a block comment. -/
def blockLength : ℕ → List Char → Option ℕ
  | 0, _ => some 0
  | _ + 1, [] => none
  | depth + 1, '{' :: '-' :: text => (blockLength (depth + 2) text).map (· + 2)
  | depth + 1, '-' :: '}' :: text => (blockLength depth text).map (· + 2)
  | depth + 1, _ :: text => (blockLength (depth + 1) text).map (· + 1)

/-- The length of the comment at the front of a text. -/
def commentLength (remaining : List Char) : Except FormatError ℕ :=
  if ['-', '-'].isPrefixOf remaining then .ok (remaining.takeWhile (· != '\n')).length
  else if ['{', '-'].isPrefixOf remaining then
    match blockLength 1 (remaining.drop 2) with
    | some length => .ok (length + 2)
    | none => .error (.InvalidSource "unterminated block comment")
  else .error (.InvalidSource "unrecognized source annotation")

/-- `text.replace("\r\n", "\n")`. -/
def replaceCarriageReturns : List Char → List Char
  | '\r' :: '\n' :: text => '\n' :: replaceCarriageReturns text
  | c :: text => c :: replaceCarriageReturns text
  | [] => []

/-- The text of a comment as it is printed. -/
def printed (line : Bool) (text : List Char) : List Char :=
  replaceCarriageReturns (if line && text.getLast? == some '\r' then text.dropLast else text)

/-- The loop of `trivia`; a turn takes a character, so there are enough turns. -/
def triviaTurns (unicode : UnicodeTables) (whole : List Char) :
    ℕ → List Char → Except FormatError (List Comment × List Char)
  | 0, _ => .ok ([], [])
  | turns + 1, remaining =>
    let whitespace := remaining.takeWhile unicode.isWhitespace
    let remaining := remaining.dropWhile unicode.isWhitespace
    if remaining.isEmpty then .ok ([], whitespace)
    else do
      let length ← commentLength remaining
      let line := ['-', '-'].isPrefixOf remaining
      let text := remaining.take length
      let (comments, last) ← triviaTurns unicode whole turns (remaining.drop length)
      return (⟨whitespace, printed line text, line,
        byteLength whole - byteLength remaining + byteLength text⟩ :: comments, last)

def trivia (unicode : UnicodeTables) (whole : List Char) :
    Except FormatError (List Comment × List Char) :=
  triviaTurns unicode whole whole.length whole

/-- The pieces are the text, and every comment ends at its offset. -/
def Covers (last : List Char) : ℕ → List Comment → List Char → Prop
  | _, [], text => text = last
  | offset, comment :: comments, text => ∃ raw rest, text = comment.whitespace ++ (raw ++ rest) ∧
    comment.text = printed comment.line raw ∧
    comment.ends = offset + byteLength (comment.whitespace ++ raw) ∧
    Covers last comment.ends comments rest

/-- Whether a block comment at nesting depth `depth` is closed. -/
def closes : ℕ → List Char → Bool
  | 0, _ => true
  | _ + 1, [] => false
  | depth + 1, '{' :: '-' :: text => closes (depth + 2) text
  | depth + 1, '-' :: '}' :: text => closes depth text
  | depth + 1, _ :: text => closes (depth + 1) text

/-- Every block comment in the trivia at the front of a text is closed. -/
def Closed (unicode : UnicodeTables) (text : List Char) : Prop :=
  ∀ before more, TriviaRun unicode text before → text = before ++ '{' :: '-' :: more → closes 1 more

/-- No block comment of the source is unterminated. -/
def BlockCommentsClosed (unicode : UnicodeTables) (lexed : Lexed) : Prop :=
  ∀ index < lexed.len, ∀ low rest, lexed.previousEnd index = some low →
    dropBytes low lexed.source = some rest → Closed unicode rest

variable {unicode : UnicodeTables} {text run rest item : List Char}

/-- The scanner of the formatter stops where the comment of the lexer ends, whatever follows. -/
lemma blockLength_append {depth : ℕ} (h : closes depth text) (more : List Char) :
    blockLength depth (blockComment depth text ++ more) =
      some (blockComment depth text).length := by
  induction depth, text using blockComment.induct with
  | case1 => simp [blockComment, blockLength]
  | case2 => cases h
  | case3 depth text ih => simp [blockComment, blockLength, ih h]
  | case4 depth text ih => simp [blockComment, blockLength, ih h]
  | case5 depth c text hopen hclose ih =>
    have hcloses : closes (depth + 1) text := by rwa [closes] at h <;> assumption
    have hlater := ih hcloses
    rw [blockComment, cons_append, length_cons]
    -- The comment goes on with the next character of the text.
    cases text with
    | nil => cases hcloses
    | cons d text =>
      obtain ⟨tail, hnext⟩ : ∃ tail, blockComment (depth + 1) (d :: text) = d :: tail := by
        rw [blockComment.eq_def]
        split <;> simp_all
      rw [hnext, cons_append] at hlater ⊢
      rw [blockLength, hlater]
      · rfl
      · rintro _ rfl hsame
        exact hopen _ rfl (by rw [(List.cons.inj hsame).1])
      · rintro _ rfl hsame
        exact hclose _ rfl (by rw [(List.cons.inj hsame).1])
    · exact hopen
    · exact hclose

lemma Closed.after (h : Closed unicode text) (htrivia : TriviaRun unicode text run)
    (hsplit : text = run ++ rest) : Closed unicode rest := by
  rintro before more hlater rfl
  exact h (run ++ before) more (htrivia.append hsplit hlater) (by simp [hsplit])

/-- **The comment that the lexer took is found**, whatever part of the rest follows it. -/
theorem commentLength_item {c : Char} {more : List Char} (hwhite : unicode.isWhitespace c = false)
    (hfirst : triviaItem unicode (c :: text) = some item) (hsplit : c :: text = item ++ rest)
    (hclosed : Closed unicode (c :: text)) (hpart : more <+: rest) :
    commentLength (item ++ more) = .ok item.length := by
  simp only [triviaItem, hwhite, Bool.false_eq_true, if_false] at hfirst
  split at hfirst
  · cases hfirst
    rename_i text
    -- The line ends where the text of the lexer did: at a line feed or at the end.
    have hstop : more.takeWhile (· != '\n') = [] := by
      have hafter : '-' :: '-' :: (text.takeWhile (· != '\n') ++ text.dropWhile (· != '\n')) =
          '-' :: '-' :: (text.takeWhile (· != '\n') ++ rest) := by simpa using hsplit
      obtain ⟨tail, rfl⟩ := hpart
      have hends := head?_dropWhile_not (· != '\n') text
      cases more with
      | nil => rfl
      | cons d more =>
        simp only [List.cons.injEq, true_and, append_cancel_left_eq] at hafter
        rw [hafter] at hends
        exact takeWhile_cons_of_neg (by simpa using hends)
    have hline : (text.takeWhile (· != '\n') ++ more).takeWhile (· != '\n') =
        text.takeWhile (· != '\n') := by
      rw [takeWhile_append_of_pos fun _ => mem_takeWhile_imp, hstop, append_nil]
    simp [commentLength, hline]
  · cases hfirst
    simp [commentLength, blockLength_append (hclosed [] _ (.nil _) rfl)]
  · cases hfirst

/-- Whitespace at the front is taken off. -/
lemma triviaRun_dropWhile (h : TriviaRun unicode text run) (hsplit : text = run ++ rest) :
    TriviaRun unicode (run.dropWhile unicode.isWhitespace ++ rest)
      (run.dropWhile unicode.isWhitespace) := by
  induction h with
  | nil text => exact .nil _
  | @item text item after run hitem hfirst hmore ih =>
    cases item with
    | nil => exact ih (by simpa [hitem] using hsplit)
    | cons c item =>
      by_cases hwhite : unicode.isWhitespace c
      · obtain rfl : item = [] := by simpa [hitem, triviaItem, hwhite] using hfirst.symm
        rw [cons_append, dropWhile_cons_of_pos hwhite]
        exact ih (by simpa [hitem] using hsplit)
      · rw [cons_append, dropWhile_cons_of_neg hwhite]
        exact hsplit ▸ .item hitem hfirst hmore

/-- **The loop cuts a run of trivia into its pieces.** -/
theorem exists_triviaTurns {whole : List Char} {turns offset : ℕ}
    (henough : run.length ≤ turns) (h : TriviaRun unicode (run ++ rest) run)
    (hclosed : Closed unicode (run ++ rest))
    (here : offset + byteLength run = byteLength whole) :
    ∃ comments last, triviaTurns unicode whole turns run = .ok (comments, last) ∧
      Covers last offset comments run := by
  induction turns generalizing run offset with
  | zero =>
    obtain rfl := length_eq_zero_iff.mp (Nat.le_zero.mp henough)
    exact ⟨[], [], rfl, rfl⟩
  | succ turns ih =>
    have hdrop := triviaRun_dropWhile h rfl
    have hwhole := takeWhile_append_dropWhile (p := unicode.isWhitespace) (l := run)
    have hwhite : TriviaRun unicode _ (run.takeWhile unicode.isWhitespace) :=
      .whitespace (fun c => mem_takeWhile_imp) (run.dropWhile unicode.isWhitespace ++ rest)
    have hstop := head?_dropWhile_not unicode.isWhitespace run
    simp only [triviaTurns]
    generalize run.takeWhile unicode.isWhitespace = whitespace at *
    generalize run.dropWhile unicode.isWhitespace = remaining at *
    subst hwhole
    rw [append_assoc] at hclosed
    have hclosed := hclosed.after hwhite rfl
    cases hdrop with
    | nil => exact ⟨[], whitespace, rfl, append_nil _⟩
    | @item _ item after run hsplit hfirst hmore =>
      obtain rfl : run ++ rest = after := by simpa using hsplit
      cases item with
      | nil =>
        unfold triviaItem at hfirst
        split at hfirst
        · cases hfirst
        · split_ifs at hfirst
          · cases hfirst
          · split at hfirst <;> cases hfirst
      | cons c item =>
        have hlength : commentLength (c :: (item ++ run)) = _ :=
          commentLength_item (by simpa using hstop) hfirst hsplit hclosed ⟨rest, rfl⟩
        obtain ⟨comments, last, hrest, hcovers⟩ := @ih run
          (offset + byteLength whitespace + byteLength (c :: item)) (by simp at henough; omega)
          hmore (hclosed.after (.item hsplit hfirst (.nil _)) (by simp))
          (by simp at here ⊢; omega)
        have hends : byteLength whole - byteLength (c :: (item ++ run)) + byteLength (c :: item) =
            offset + byteLength whitespace + byteLength (c :: item) := by
          simp at here ⊢
          omega
        refine ⟨⟨whitespace, printed (['-', '-'].isPrefixOf (c :: (item ++ run))) (c :: item), _,
          _⟩ :: comments, last, ?_, c :: item, run, rfl, rfl, ?_, hcovers⟩
        · simp only [cons_append, isEmpty_cons, Bool.false_eq_true, if_false, hlength]
          simp only [bind, Except.bind, ← cons_append, drop_left, hrest, take_left]
          rw [← hends]
          rfl
        · simp [add_assoc]

/-- Opening delimiters that are closed wherever they stand. -/
lemma blockCommentsClosed_of_tails {lexed : Lexed}
    (h : ∀ tail ∈ lexed.source.tails, ['{', '-'].isPrefixOf tail → closes 1 (tail.drop 2)) :
    BlockCommentsClosed unicode lexed := by
  rintro index _ low _ _ hdrop before more _ rfl
  refine h ('{' :: '-' :: more) ((mem_tails _ _).mpr ?_) (by simp)
  exact (suffix_append before _).trans (dropBytes_suffix hdrop)

end Iris.Formatting
