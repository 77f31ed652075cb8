import Mathlib.Data.List.TakeWhile
import IrisCompiler.Lexing.Scanning

/-!
# What one token does

`TokenStep` lists everything that `take_token_impl` can do to the lexer: stop before whitespace or a
comment with an empty error token, take some text and push it as one token, or push an opening
parenthesis and the operator after it as two.  `ends_takeTokenImpl` shows that it does one of them
from every state that is not at the end, and so that no `unreachable!` branch, no failed assertion
and no bad slice is ever met.  `NameStep` says what is pushed first: a name, an operator or a token
of one of `otherKinds`.  `takeAnnotation_ends` and `ends_takeQualifier` do the same for what
comes between two tokens.
-/

namespace Iris.Lexing

open ByteText TotalRun Ends List

namespace Lexer

variable {source : List Char} {s t u : Lexer source} {taken : List Char}

/-- The lexer has moved on from `s` to `t`, or stayed. -/
def Reaches (s t : Lexer source) : Prop := t = s ∨ Progresses s t

lemma Moves.eq_of_nil (h : Moves [] s t) : t = s := by
  obtain ⟨⟨rest, hsuffix⟩, _, _, _, _, _⟩ := s
  obtain ⟨⟨rest', hsuffix'⟩, _, _, _, _, _⟩ := t
  obtain ⟨hchars, hposition, hann, hqualifier, hqualifierPosition, hlexed⟩ := h
  simp_all

lemma Moves.reaches (h : Moves taken s t) : Reaches s t := by
  by_cases hempty : taken = []
  · exact .inl (Moves.eq_of_nil (hempty ▸ h))
  · exact .inr (h.progresses hempty)

lemma Reaches.progresses (h : Reaches s t) (h' : Progresses t u) : Progresses s u := by
  obtain rfl | h := h
  · exact h'
  · exact h.trans h'

lemma Reaches.exists_moves (h : Reaches s t) : ∃ taken, Moves taken s t := by
  obtain rfl | ⟨taken, -, hmoves⟩ := h
  · exact ⟨[], .refl t⟩
  · exact ⟨taken, hmoves⟩

/-- Whitespace or a comment comes next. -/
def StartsTrivia (unicode : UnicodeTables) (s : Lexer source) : Prop :=
  unicode.isWhitespace s.first ∨ (s.first = '-' ∧ s.second = '-') ∨
    (s.first = '{' ∧ s.second = '-')

/-- Everything that taking a token can do. -/
inductive TokenStep (unicode : UnicodeTables) (s : Lexer source) : Lexer source → Prop
  /-- A qualifier that no token follows. -/
  | stop (message : String) (htrivia : StartsTrivia unicode s) :
      TokenStep unicode s (s.pushed .ERROR s.info (some message))
  /-- One token with some text. -/
  | token {mid : Lexer source} {kind : SyntaxKind} (error : Option String)
      (htext : Progresses s mid) (hinner : kind.isInner = true) :
      TokenStep unicode s (mid.pushed kind mid.info error)
  /-- An opening parenthesis and the operator right after it, which does not start a comment. -/
  | parenthesis {left mid : Lexer source} {kind : SyntaxKind} {op : SyntaxKindInfo}
      (hfirst : Progresses s left) (htext : Progresses left mid) (hinner : kind.isInner = true)
      (hrun : Moves (left.chars.rest.takeWhile unicode.isOperator) left mid)
      (hoperator : kind = operatorKind (left.chars.rest.takeWhile unicode.isOperator))
      (hnoComment : ¬ (left.first = '-' ∧ left.second = '-'))
      (hann : op.annotation = asU32 left.consumed)
      (hqualifier : op.qualifier = asU32 left.consumed) (htoken : op.token = asU32 mid.consumed)
      (hposition : op.position = left.currentPosition) :
      TokenStep unicode s
        ((mid.pushed .LEFT_PARENTHESIS left.info none).pushed kind op none)

/-- The kinds of tokens that are not scanned as names or operators. -/
def otherKinds : List SyntaxKind :=
  [.ERROR, .LEFT_PARENTHESIS, .OPERATOR_NAME, .DOUBLE_PERIOD_OPERATOR_NAME, .RIGHT_PARENTHESIS,
    .LEFT_CURLY, .RIGHT_CURLY, .LEFT_SQUARE, .RIGHT_SQUARE, .TICK, .COMMA, .UNDERSCORE, .CHAR,
    .STRING, .RAW_STRING, .HOLE, .INTEGER, .NUMBER]

/-- What taking a token pushes first: a name, an operator or something else. -/
inductive NameStep (unicode : UnicodeTables) (s : Lexer source) : Lexer source → Prop
  | lower {mid : Lexer source} (hstart : unicode.isLowerStart s.first = true)
      (hname : s.first = '_' → unicode.isName s.second = true)
      (hrun : Moves (s.chars.rest.takeWhile unicode.isName) s mid) :
      NameStep unicode s
        (mid.pushed (lowerKind (s.chars.rest.takeWhile unicode.isName)) mid.info none)
  | upper {mid : Lexer source} (hstart : unicode.isUpperStart s.first = true)
      (hrun : Moves (s.first :: s.chars.rest.tail.takeWhile unicode.isName) s mid) :
      NameStep unicode s (mid.pushed .UPPER mid.info none)
  | operator {mid : Lexer source} (hstart : unicode.isOperator s.first = true)
      (hnoHole : s.first = '?' → unicode.isName s.second = false)
      (hnoComment : ¬(s.first = '-' ∧ s.second = '-'))
      (hrun : Moves (s.chars.rest.takeWhile unicode.isOperator) s mid) :
      NameStep unicode s
        (mid.pushed (operatorKind (s.chars.rest.takeWhile unicode.isOperator)) mid.info none)
  | other {t : Lexer source} {kind : SyntaxKind} {info : SyntaxKindInfo}
      {more : List (SyntaxKind × SyntaxKindInfo)} (hmem : kind ∈ otherKinds)
      (htokens : t.lexed.tokens = s.lexed.tokens ++ (kind, info) :: more) : NameStep unicode s t

/-- The text is taken and pushed as one token. -/
def Pushes (s : Lexer source) (text : List Char) (kind : SyntaxKind) (t : Lexer source) : Prop :=
  ∃ mid, Moves text s mid ∧ Progresses s mid ∧ t = mid.pushed kind mid.info none

/-- What taking a token does, and what it pushes first. -/
def Takes (unicode : UnicodeTables) (s t : Lexer source) : Prop :=
  TokenStep unicode s t ∧ NameStep unicode s t

end Lexer

open Lexer

variable {source : List Char} {s t : Lexer source} {taken : List Char} {unicode : UnicodeTables}

/-! ## Annotations -/

/-- A run that starts with a character of the category is not empty. -/
lemma ends_takeWhile_progresses {category : Char → Bool} (h : category s.first)
    (hnotEof : s.isEof = false) : Ends (takeWhile category) s fun _ t => Progresses s t := by
  refine (ends_takeWhile category s).mono fun _ t hmoves => hmoves.progresses ?_
  obtain ⟨rest, hchars⟩ := exists_rest hnotEof
  rw [hchars, takeWhile_cons_of_pos h]
  simp

lemma ends_takeAnnotationLineComment (h : s.isEof = false) (h' : s.second = '-') :
    Ends takeAnnotationLineComment s fun _ t => Progresses s t := by
  simp only [takeAnnotationLineComment, ends_bind]
  refine ends_take_take h (by simp [h', EOF_CHAR]) fun _ t htwo => ?_
  exact (ends_takeWhile _ t).mono fun _ u hmoves => htwo.moves hmoves

lemma ends_takeAnnotationBlockComment (h : s.isEof = false) (h' : s.second = '-') :
    Ends takeAnnotationBlockComment s fun _ t => Progresses s t := by
  simp only [takeAnnotationBlockComment, ends_bind]
  refine ends_take_take h (by simp [h', EOF_CHAR]) fun _ t htwo => ?_
  refine repeatLoop (fun _ u => Progresses s u) (fun level u hmoved => ?_) htwo
  simp only [ends_bind, ends_get, ends_ite, ends_pure]
  refine ⟨fun hmore => ?_, fun _ => hmoved⟩
  have hnotEof : u.isEof = false := by simpa using hmore.2
  refine ⟨fun hopens => ?_, fun _ => ⟨fun hcloses => ?_, fun _ => ?_⟩⟩
  · exact ends_take_take hnotEof (by simp [hopens.2, EOF_CHAR]) fun _ v hstep =>
      ⟨hmoved.trans hstep, hstep.shorter⟩
  · exact ends_take_take hnotEof (by simp [hcloses.2, EOF_CHAR]) fun _ v hstep =>
      ⟨hmoved.trans hstep, hstep.shorter⟩
  · exact (ends_take hnotEof).mono fun _ v hstep =>
      ⟨hmoved.moves hstep.2, (hstep.2.progresses (by simp)).shorter⟩

/-- **`take_annotation` takes trivia until none comes next**, and records where it ends. -/
lemma takeAnnotation_ends (unicode : UnicodeTables) (s : Lexer source) :
    Ends (do takeAnnotation unicode) s fun _ t =>
      ∃ mid, Reaches s mid ∧ ¬ StartsTrivia unicode mid ∧ t = mid.annotated := by
  simp only [ends_bind, takeAnnotation, ends_modify]
  refine of_imp (fun _ t => Reaches s t ∧ ¬ StartsTrivia unicode t)
    (fun _ t hdone => ⟨t, hdone.1, hdone.2, rfl⟩)
    (repeatLoop (fun _ t => Reaches s t) (fun _ t hmoved => ?_) (.inl rfl))
  have hfurther {u : Lexer source} (hstep : Progresses t u) :
      Reaches s u ∧ u.chars.rest.length < t.chars.rest.length :=
    ⟨.inr (hmoved.progresses hstep), hstep.shorter⟩
  simp only [ends_bind, ends_get, ends_ite, ends_pure]
  refine ⟨fun hwhite => ?_, fun hnotWhite => ⟨fun hline => ?_, fun hnotLine => ⟨fun hblock => ?_,
    fun hnotBlock => ⟨hmoved, ?_⟩⟩⟩⟩
  · exact (ends_takeWhile_progresses hwhite
      (not_isEof_of_category hwhite UnicodeTables.isWhitespace_eof)).mono fun _ u => hfurther
  · exact (ends_takeAnnotationLineComment (not_isEof_of_first hline.1 (by decide)) hline.2).mono
      fun _ u => hfurther
  · exact (ends_takeAnnotationBlockComment (not_isEof_of_first hblock.1 (by decide)) hblock.2).mono
      fun _ u => hfurther
  · rintro (hwhite | hline | hblock)
    · exact hnotWhite hwhite
    · exact hnotLine hline
    · exact hnotBlock hblock

/-! ## Qualifiers -/

/-- **`take_qualifier` takes whole module names**, and records where they end: a name without a
period after it is given back. -/
lemma ends_takeQualifier (unicode : UnicodeTables) (s : Lexer source) :
    Ends (takeQualifier unicode) s fun _ t => ∃ mid, Reaches s mid ∧ t = mid.qualified := by
  simp only [takeQualifier, ends_bind, ends_modify]
  refine of_imp (fun _ t => Reaches s t) (fun _ t hdone => ⟨t, hdone, rfl⟩)
    (repeatLoop (fun _ t => Reaches s t) (fun _ t hmoved => ?_) (.inl rfl))
  simp only [ends_bind, ends_get, ends_ite, ends_pure, ends_modify]
  refine ⟨fun hupper => ?_, fun _ => hmoved⟩
  refine (ends_takeWhile _ t).mono fun _ u hname => ⟨fun hperiod => ?_, fun _ => ?_⟩
  · refine (ends_take (not_isEof_of_first hperiod (by decide))).mono fun _ v hdot => ?_
    have hstep : Progresses t v := hname.then_progresses (hdot.2.progresses (by simp))
    exact ⟨.inr (hmoved.progresses hstep), hstep.shorter⟩
  · rw [hname.lexed]
    exact hmoved

/-! ## Tokens -/

lemma isInner_of_mem_otherKinds : ∀ kind ∈ otherKinds, kind.isInner = true := by decide

variable {kind : SyntaxKind} {error : Option String}

/-- The text is taken and pushed. -/
lemma takes_other (htext : Progresses s t) (hmem : kind ∈ otherKinds) :
    Takes unicode s (t.pushed kind t.info error) := by
  have ⟨_, _, hmoves⟩ := htext
  have htokens := pushed_tokens t kind t.info error
  rw [hmoves.lexed] at htokens
  exact ⟨.token error htext (isInner_of_mem_otherKinds kind hmem), .other hmem htokens⟩

lemma ends_push_token (htext : Progresses s t) (hmem : kind ∈ otherKinds) :
    Ends (push kind error) t fun _ u => Takes unicode s u := by
  simp only [push, pushInfo, ends_bind, ends_get, ends_modify]
  exact takes_other htext hmem

lemma ends_takeKind (h : s.isEof = false) (hmem : kind ∈ otherKinds) :
    Ends (takeKind kind) s fun _ t => Takes unicode s t := by
  simp only [takeKind, ends_bind]
  exact (ends_take h).mono fun _ t hone => ends_push_token (hone.2.progresses (by simp)) hmem

lemma isInner_operatorKind (text : List Char) : (operatorKind text).isInner = true := by
  unfold operatorKind
  split <;> decide

lemma isInner_lowerKind (text : List Char) : (lowerKind text).isInner = true := by
  unfold lowerKind
  split <;> decide

/-- `take_operator_kind` takes the longest run of operator characters, at least one. -/
lemma ends_takeOperatorKind (h : unicode.isOperator s.first) :
    Ends (takeOperatorKind unicode) s fun kind t => kind.isInner = true ∧ Progresses s t ∧
      Moves (s.chars.rest.takeWhile unicode.isOperator) s t ∧
      kind = operatorKind (s.chars.rest.takeWhile unicode.isOperator) := by
  have hnotEof := not_isEof_of_category h UnicodeTables.isOperator_eof
  obtain ⟨rest, hchars⟩ := exists_rest hnotEof
  simp only [takeOperatorKind, ends_bind, ends_get, ends_pure]
  refine (ends_takeWhile _ s).mono fun _ t htext => ?_
  refine (ends_sourceText htext).mono ?_
  rintro operator u ⟨rfl, rfl⟩
  refine ⟨isInner_operatorKind _, htext.progresses ?_, htext, rfl⟩
  rw [hchars, takeWhile_cons_of_pos h]
  simp

lemma ends_takeOperator_run (hstart : unicode.isOperator s.first) :
    Ends (takeOperator unicode) s fun _ t => s.Pushes (s.chars.rest.takeWhile unicode.isOperator)
      (operatorKind (s.chars.rest.takeWhile unicode.isOperator)) t := by
  simp only [takeOperator, ends_bind]
  refine (ends_takeOperatorKind hstart).mono ?_
  rintro _ mid ⟨_, htext, hrun, rfl⟩
  simp only [push, pushInfo, ends_bind, ends_get, ends_modify]
  exact ⟨mid, hrun, htext, rfl⟩

lemma ends_takeOperator (hstart : unicode.isOperator s.first)
    (hnoHole : s.first = '?' → unicode.isName s.second = false)
    (hnoComment : ¬(s.first = '-' ∧ s.second = '-')) :
    Ends (takeOperator unicode) s fun _ t => Takes unicode s t := by
  refine (ends_takeOperator_run hstart).mono ?_
  rintro _ _ ⟨mid, hrun, htext, rfl⟩
  exact ⟨.token none htext (isInner_operatorKind _), .operator hstart hnoHole hnoComment hrun⟩

/-- After the longest run of a predicate comes the first character without it. -/
lemma first_of_takeWhile {predicate : Char → Bool} {c : Char} (hreal : c ≠ EOF_CHAR)
    (h : Moves (s.chars.rest.takeWhile predicate) s t) :
    s.chars.rest.find? (fun c => !predicate c) = some c ↔ t.first = c := by
  have hrest : t.chars.rest = s.chars.rest.dropWhile predicate := by
    have hsplit := takeWhile_append_dropWhile (p := predicate) (l := s.chars.rest)
    exact (append_cancel_left (hsplit.trans h.chars)).symm
  rw [first_eq, hrest, find?_not_eq_head?_dropWhile]
  cases (s.chars.rest.dropWhile predicate).head? with
  | none => simpa using hreal.symm
  | some d => simp

lemma pushed_pushed_tokens (hsame : t.lexed = s.lexed) {other : SyntaxKind}
    (info more : SyntaxKindInfo) (error : Option String) :
    ((t.pushed kind info none).pushed other more error).lexed.tokens =
      s.lexed.tokens ++ (kind, info) :: [(other, more)] := by
  rw [pushed_tokens, pushed_tokens, hsame, append_assoc]
  rfl

lemma ends_takeOperatorNameOrLeftParenthesis (h : s.isEof = false) :
    Ends (takeOperatorNameOrLeftParenthesis unicode) s fun _ t => Takes unicode s t := by
  simp only [takeOperatorNameOrLeftParenthesis, pushInfo, ends_bind, ends_get, ends_ite,
    ends_modify]
  refine (ends_take h).mono fun _ left hone => ?_
  have hfirst : Progresses s left := hone.2.progresses (by simp)
  have hposition : { left.info with position := s.qualifierPosition } = left.info := by
    rw [← hone.2.qualifierPosition]
    rfl
  rw [hposition]
  refine ⟨fun _ => takes_other hfirst (by decide), fun haccepted => ?_⟩
  obtain ⟨hoperator, hnotComment⟩ := not_or.mp haccepted
  rw [not_not] at hoperator
  refine (ends_takeOperatorKind hoperator).mono fun kind mid htext => ⟨fun hunclosed => ?_,
    fun hclosed => ?_⟩
  · refine ⟨.parenthesis hfirst htext.2.1 htext.1 htext.2.2.1 htext.2.2.2
      (fun hdashes => hnotComment ?_) rfl rfl rfl rfl, ?_⟩
    · refine ⟨hdashes.1, hdashes.2, fun hcloses => hunclosed ?_⟩
      exact (first_of_takeWhile (by decide) htext.2.2.1).mp hcloses
    · have hmem : SyntaxKind.LEFT_PARENTHESIS ∈ otherKinds := by decide
      exact .other hmem (pushed_pushed_tokens (htext.2.2.1.lexed.trans hone.2.lexed) _ _ _)
  · have hclosed : mid.first = ')' := not_not.mp hclosed
    refine (ends_take (not_isEof_of_first hclosed (by decide))).mono fun _ right hone' => ?_
    have hall := hone.2.trans (htext.2.2.1.trans hone'.2)
    have hinfo : { left.info with
        token := asU32 right.consumed, position := s.qualifierPosition } = right.info := by
      simp [Lexer.info, hall.annotation, hall.qualifier, hall.qualifierPosition,
        Moves.annotation hone.2, hone.2.qualifier]
    rw [hinfo]
    refine takes_other (hall.progresses (by simp)) ?_
    split <;> decide

lemma ends_takeChar (h : s.isEof = false) : Ends takeChar s fun _ t => Takes unicode s t := by
  simp only [takeChar, ends_bind, ends_get, ends_ite]
  refine (ends_take h).mono fun _ t hone => ?_
  refine of_imp (fun _ u => Progresses s u) (fun _ u htext => ⟨fun hclosed => ?_, fun _ => ?_⟩)
    (repeatLoop (fun _ u => Progresses s u) (fun _ u htext => ?_)
      (hone.2.progresses (by simp)))
  · exact (ends_take (not_isEof_of_first hclosed (by decide))).mono fun _ v hquote =>
      ends_push_token (htext.moves hquote.2) (by decide)
  · exact ends_push_token htext (by decide)
  · simp only [ends_bind, ends_get, ends_ite, ends_pure]
    refine ⟨fun _ => htext, fun hmore => ?_⟩
    have hnotEof : u.isEof = false := by simpa using fun heof => hmore (.inl heof)
    refine ⟨fun hescape => ?_, fun _ => ?_⟩
    · have hreal : u.second ≠ EOF_CHAR := by rcases hescape.2 with h | h <;> simp [h, EOF_CHAR]
      exact ends_take_take hnotEof hreal fun _ v hstep => ⟨htext.trans hstep, hstep.shorter⟩
    · exact (ends_take hnotEof).mono fun _ v hstep =>
        ⟨htext.moves hstep.2, (hstep.2.progresses (by simp)).shorter⟩

lemma ends_takeNormalString (hopened : Progresses s t) :
    Ends (takeNormalString unicode) t fun _ u => Takes unicode s u := by
  simp only [takeNormalString, ends_bind, ends_get, ends_ite]
  refine of_imp (fun _ u => Progresses s u) (fun _ u htext => ⟨fun hclosed => ?_, fun _ => ?_⟩)
    (repeatLoop (fun _ u => Progresses s u) (fun _ u htext => ?_) hopened)
  · exact (ends_take (not_isEof_of_first hclosed (by decide))).mono fun _ v hquote =>
      ends_push_token (htext.moves hquote.2) (by decide)
  · exact ends_push_token htext (by decide)
  · simp only [ends_bind, ends_get, ends_ite, ends_pure]
    refine ⟨fun _ => htext, fun hmore => ?_⟩
    have hnotEof : u.isEof = false := by simpa using fun heof => hmore (.inl heof)
    refine ⟨fun hgap => ?_, fun _ => ⟨fun hescape => ?_, fun _ => ?_⟩⟩
    · refine (ends_take hnotEof).mono fun _ v hone => ?_
      refine (ends_takeWhile _ v).mono fun _ w hwhite => ?_
      have hstep : Progresses u w := (hone.2.progresses (by simp)).moves hwhite
      refine ⟨fun hcloses => ?_, fun _ => ⟨htext.trans hstep, hstep.shorter⟩⟩
      exact (ends_take (not_isEof_of_first hcloses (by decide))).mono fun _ x hlast =>
        ⟨(htext.trans hstep).moves hlast.2, (hstep.moves hlast.2).shorter⟩
    · have hreal : u.second ≠ EOF_CHAR := by rcases hescape.2 with h | h <;> simp [h, EOF_CHAR]
      exact ends_take_take hnotEof hreal fun _ v hstep => ⟨htext.trans hstep, hstep.shorter⟩
    · exact (ends_take hnotEof).mono fun _ v hstep =>
        ⟨htext.moves hstep.2, (hstep.2.progresses (by simp)).shorter⟩

/-- At most `maximum` quotes are taken, and each is one byte wide. -/
lemma ends_takeQuotes (maximum : ℕ) (s : Lexer source) :
    Ends (takeWhileMaximum (fun c => c == '\x22') maximum) s fun _ t => ∃ quotes,
      Moves quotes s t ∧ t.consumed - s.consumed = quotes.length ∧ quotes.length ≤ maximum ∧
        (s.first = '\x22' → 0 < maximum → quotes ≠ []) := by
  refine (ends_takeWhileMaximum _ maximum s).mono fun _ t hmoves => ⟨_, hmoves, ?_, ?_, ?_⟩
  · have hquotes : ∀ c ∈ (s.chars.rest.takeWhile (fun c => c == '\x22')).take maximum,
        c.utf8Size = 1 := by
      intro c hmem
      have := mem_takeWhile_imp (mem_of_mem_take hmem)
      rw [beq_iff_eq.mp this]
      decide
    rw [hmoves.consumed, byteLength, map_congr_left hquotes]
    simp
  · exact length_take_le _ _
  · intro hquote hsome
    obtain ⟨rest, hchars⟩ := exists_rest (not_isEof_of_first hquote (by decide))
    rw [hchars, hquote]
    simpa using Nat.pos_iff_ne_zero.mp hsome

lemma ends_takeRawString (hopened : Progresses s t) :
    Ends takeRawString t fun _ u => Takes unicode s u := by
  simp only [takeRawString, ends_bind]
  refine of_imp (fun _ u => Progresses s u) (fun _ u htext => ends_push_token htext (by decide))
    (repeatLoop (fun _ u => Progresses s u) (fun _ u htext => ?_) hopened)
  simp only [ends_bind, ends_get]
  refine (ends_takeWhile _ u).mono fun _ v hcontent => ?_
  refine (ends_takeQuotes 5 v).mono ?_
  rintro _ w ⟨quotes, hmoves, hcount, hatMost, -⟩
  have hall : Moves _ u w := hcontent.trans hmoves
  split
  case h_2 | h_3 =>
    refine ends_pure.mpr ⟨htext.moves hall, (hall.progresses ?_).shorter⟩
    simp [ne_nil_of_length_pos (l := quotes) (by omega)]
  case h_7 =>
    simp only [imp_false] at *
    omega
  all_goals exact ends_pure.mpr (htext.moves hall)

lemma ends_takeString (h : s.first = '\x22') :
    Ends (takeString unicode) s fun _ t => Takes unicode s t := by
  simp only [takeString, ends_bind, ends_get]
  refine (ends_takeQuotes 8 s).mono ?_
  rintro _ t ⟨quotes, hmoves, hcount, hatMost, hsome⟩
  have hnonempty := hsome h (by decide)
  have := length_pos_iff.mpr hnonempty
  have hopened : Progresses s t := hmoves.progresses hnonempty
  split
  case h_1 => exact ends_takeNormalString hopened
  case h_3 | h_4 | h_5 => exact ends_takeRawString hopened
  case h_9 =>
    simp only [imp_false] at *
    omega
  all_goals exact ends_push_token hopened (by decide)

lemma ends_takeHole (h : s.first = '?') :
    Ends (takeHole unicode) s fun _ t => Takes unicode s t := by
  simp only [takeHole, ends_bind, ends_ite, ends_throw]
  refine (ends_take (not_isEof_of_first h (by decide))).mono fun c t hone => ?_
  refine ⟨fun hother => hother (hone.1.trans h), fun _ => ?_⟩
  exact (ends_takeWhile _ t).mono fun _ u hname =>
    ends_push_token ((hone.2.progresses (by simp)).moves hname) (by decide)

lemma ends_takeLower (hstart : unicode.isLowerStart s.first) (hnotEof : s.isEof = false) :
    Ends (takeLower unicode) s fun _ t => s.Pushes (s.chars.rest.takeWhile unicode.isName)
      (lowerKind (s.chars.rest.takeWhile unicode.isName)) t := by
  obtain ⟨rest, hchars⟩ := exists_rest hnotEof
  simp only [takeLower, ends_bind, ends_get]
  refine (ends_takeWhile _ s).mono fun _ mid hrun => ?_
  refine (ends_sourceText hrun).mono ?_
  rintro _ _ ⟨rfl, rfl⟩
  simp only [push, pushInfo, ends_bind, ends_get, ends_modify]
  refine ⟨_, hrun, hrun.progresses ?_, rfl⟩
  rw [hchars, takeWhile_cons_of_pos (UnicodeTables.isName_of_isLowerStart hstart)]
  simp

lemma ends_takeUpper (hnotEof : s.isEof = false) :
    Ends (takeUpper unicode) s fun _ t =>
      s.Pushes (s.first :: s.chars.rest.tail.takeWhile unicode.isName) .UPPER t := by
  obtain ⟨rest, hchars⟩ := exists_rest hnotEof
  simp only [takeUpper, ends_bind]
  refine (ends_take hnotEof).mono fun _ u hone => (ends_takeWhile _ u).mono fun _ mid hrun => ?_
  simp only [push, pushInfo, ends_bind, ends_get, ends_modify]
  have htail : u.chars.rest = s.chars.rest.tail := by
    have := hone.2.chars
    rw [hchars] at this ⊢
    simpa using this.symm
  have hmoves := hone.2.trans hrun
  rw [htail] at hmoves
  exact ⟨mid, hmoves, hmoves.progresses (by simp), rfl⟩

lemma ends_takeFraction (hdigits : Progresses s t) :
    Ends takeFraction t fun kind u => kind ∈ otherKinds ∧ Progresses s u := by
  simp only [takeFraction, ends_bind, ends_get, ends_ite, ends_pure]
  refine ⟨fun hperiod => ?_, fun _ => ⟨by decide, hdigits⟩⟩
  refine (ends_take (not_isEof_of_first hperiod (by decide))).mono fun _ u hone => ?_
  exact (ends_takeWhile _ u).mono fun _ v hmore => ⟨by decide, (hdigits.moves hone.2).moves hmore⟩

lemma ends_takeExponent (hmem : kind ∈ otherKinds) (hdigits : Progresses s t) :
    Ends (takeExponent kind) t fun kind u => kind ∈ otherKinds ∧ Progresses s u := by
  simp only [takeExponent, ends_bind, ends_get, ends_ite, ends_pure]
  refine ⟨fun hmark => ?_, fun _ => ⟨hmem, hdigits⟩⟩
  have hnotEof : t.isEof = false := by
    rcases hmark with hmark | hmark <;> exact not_isEof_of_first hmark (by decide)
  refine (ends_take hnotEof).mono fun _ u hone => ⟨fun hsign => ?_, fun _ => ?_⟩
  · have hnotEof : u.isEof = false := by
      rcases hsign with hsign | hsign <;> exact not_isEof_of_first hsign (by decide)
    refine (ends_take hnotEof).mono fun _ v hone' => ?_
    exact (ends_takeWhile _ v).mono fun _ w hmore =>
      ⟨by decide, ((hdigits.moves hone.2).moves hone'.2).moves hmore⟩
  · exact (ends_takeWhile _ u).mono fun _ w hmore => ⟨by decide, (hdigits.moves hone.2).moves hmore⟩

lemma ends_takeIntegerOrNumber (h : s.first.isDigit) (hnotEof : s.isEof = false) :
    Ends takeIntegerOrNumber s fun _ t => Takes unicode s t := by
  simp only [takeIntegerOrNumber, ends_bind, ends_get, ends_ite]
  refine (ends_takeWhile_progresses (by simp [h]) hnotEof).mono fun _ t hdigits => ?_
  refine ⟨fun hex => ?_, fun _ => ⟨fun _ => ends_push_token hdigits (by decide), fun _ => ?_⟩⟩
  · refine (ends_take (not_isEof_of_first hex (by decide))).mono fun _ u hone => ?_
    exact (ends_takeWhile _ u).mono fun _ v hmore =>
      ends_push_token ((hdigits.moves hone.2).moves hmore) (by decide)
  · refine (ends_takeFraction hdigits).mono fun kind u hfraction => ?_
    exact (ends_takeExponent hfraction.1 hfraction.2).mono fun kind v hliteral =>
      ends_push_token hliteral.2 hliteral.1

lemma ends_takeTokenImpl_takes (hnotEof : s.isEof = false) :
    Ends (takeTokenImpl unicode) s fun _ t => Takes unicode s t := by
  have hstop (htrivia : StartsTrivia unicode s) : Ends (push .ERROR (some "Expected a token")) s
      fun _ t => Takes unicode s t := by
    simp only [push, pushInfo, ends_bind, ends_get, ends_modify]
    exact ⟨.stop _ htrivia, .other (by decide) (pushed_tokens _ _ _ _)⟩
  -- One conjunct for each branch, in the order of the source.
  refine ends_ite.mpr ⟨fun hwhite => hstop (.inl hwhite), fun _ => ?_⟩
  refine ends_ite.mpr ⟨fun hline => hstop (.inr (.inl hline)), fun hnoComment => ?_⟩
  refine ends_ite.mpr ⟨fun hblock => hstop (.inr (.inr hblock)), fun _ => ?_⟩
  refine ends_ite.mpr ⟨fun _ => ends_takeOperatorNameOrLeftParenthesis hnotEof, fun _ => ?_⟩
  iterate 7 refine ends_ite.mpr ⟨fun _ => ends_takeKind hnotEof (by decide), fun _ => ?_⟩
  refine ends_ite.mpr ⟨fun hquestion => ?_, fun _ => ?_⟩
  · refine ends_takeOperator (by rw [hquestion.1]; rfl) (fun _ => ?_) hnoComment
    simpa using hquestion.2
  refine ends_ite.mpr ⟨fun _ => ends_takeKind hnotEof (by decide), fun hname => ?_⟩
  refine ends_ite.mpr ⟨fun _ => ends_takeChar hnotEof, fun _ => ?_⟩
  refine ends_ite.mpr ⟨fun hquote => ends_takeString hquote, fun _ => ?_⟩
  refine ends_ite.mpr ⟨fun hquestion => ends_takeHole hquestion, fun hnotQuestion => ?_⟩
  refine ends_ite.mpr ⟨fun hlower => (ends_takeLower hlower hnotEof).mono ?_, fun _ => ?_⟩
  · rintro _ _ ⟨mid, hrun, htext, rfl⟩
    refine ⟨.token none htext (isInner_lowerKind _), .lower hlower (fun hunderscore => ?_) hrun⟩
    by_contra hmissing
    exact hname ⟨hunderscore, hmissing⟩
  refine ends_ite.mpr ⟨fun hupper => (ends_takeUpper hnotEof).mono ?_, fun _ => ?_⟩
  · rintro _ _ ⟨mid, hrun, htext, rfl⟩
    exact ⟨.token none htext (by decide), .upper hupper hrun⟩
  refine ends_ite.mpr ⟨fun hoperator => ?_, fun _ => ?_⟩
  · exact ends_takeOperator hoperator (fun hquestion => absurd hquestion hnotQuestion) hnoComment
  refine ends_ite.mpr ⟨fun hdigit => ends_takeIntegerOrNumber hdigit hnotEof, fun _ => ?_⟩
  rw [ends_bind]
  exact (ends_take hnotEof).mono fun _ t hone =>
    ends_push_token (hone.2.progresses (by simp)) (by decide)

/-- **Before the end, taking a token does one of the things listed in `TokenStep`.** -/
theorem ends_takeTokenImpl (hnotEof : s.isEof = false) :
    Ends (takeTokenImpl unicode) s fun _ t => TokenStep unicode s t :=
  (ends_takeTokenImpl_takes hnotEof).mono fun _ _ htakes => htakes.1

end Iris.Lexing
