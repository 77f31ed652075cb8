import IrisCompiler.Lexing.Lossless

/-!
# Annotations are the trivia

Trivia is what the language skips between tokens: whitespace, line comments and nested block
comments.  `triviaItem` says what one piece of it at the front of a text is, `LongestTrivia` what
the longest run of such pieces is, both without the lexer.  The lexer recognises comments in three
places: where it takes an annotation, where it dispatches on the next token, and after an opening
parenthesis.  This module shows that they agree with each other and with that definition.

Offsets are `u32`, and so the statement is about sources shorter than `2 ^ 32` bytes.
-/

namespace Iris.Lexing

open ByteText TotalRun List UnicodeTables

/-! ## Trivia without the lexer -/

/-- The rest of a block comment at nesting depth `depth`: up to the end of the delimiter that closes
it, or the whole text. -/
def blockComment : ℕ → List Char → List Char
  | 0, _ => []
  | _ + 1, [] => []
  | depth + 1, '{' :: '-' :: text => '{' :: '-' :: blockComment (depth + 2) text
  | depth + 1, '-' :: '}' :: text => '-' :: '}' :: blockComment depth text
  | depth + 1, c :: text => c :: blockComment (depth + 1) text

/-- The whitespace character or the comment at the front of a text. -/
def triviaItem (unicode : UnicodeTables) : List Char → Option (List Char)
  | [] => none
  | c :: text =>
    if unicode.isWhitespace c then some [c]
    else match c, text with
      | '-', '-' :: text => some ('-' :: '-' :: text.takeWhile (· != '\n'))
      | '{', '-' :: text => some ('{' :: '-' :: blockComment 1 text)
      | _, _ => none

/-- `run` is a sequence of whitespace and comments at the front of `text`. -/
inductive TriviaRun (unicode : UnicodeTables) : List Char → List Char → Prop
  | nil (text : List Char) : TriviaRun unicode text []
  | item {text item rest run : List Char} (hsplit : text = item ++ rest)
      (hfirst : triviaItem unicode text = some item) (hmore : TriviaRun unicode rest run) :
      TriviaRun unicode text (item ++ run)

/-- `run` is the longest sequence of whitespace and comments at the front of `text`. -/
def LongestTrivia (unicode : UnicodeTables) (text run : List Char) : Prop :=
  TriviaRun unicode text run ∧ ∀ other, TriviaRun unicode text other → other.length ≤ run.length

variable {unicode : UnicodeTables} {source text run rest more : List Char}

lemma TriviaRun.append (h : TriviaRun unicode text run) (hsplit : text = run ++ rest)
    (h' : TriviaRun unicode rest more) : TriviaRun unicode text (run ++ more) := by
  induction h with
  | nil text =>
    obtain rfl : text = rest := hsplit
    exact h'
  | @item text item after run hsplit' hfirst _ ih =>
    rw [append_assoc]
    refine .item hsplit' hfirst (ih ?_)
    rw [hsplit', append_assoc] at hsplit
    exact append_cancel_left hsplit

lemma TriviaRun.exists_rest (h : TriviaRun unicode text run) : ∃ rest, text = run ++ rest := by
  induction h with
  | nil text => exact ⟨text, rfl⟩
  | item hsplit _ _ ih =>
    obtain ⟨rest, rfl⟩ := ih
    exact ⟨rest, by rw [hsplit, append_assoc]⟩

/-- A run is the longest one when no trivia follows it. -/
lemma TriviaRun.longest (h : TriviaRun unicode text run) (hsplit : text = run ++ rest)
    (hstop : triviaItem unicode rest = none) : LongestTrivia unicode text run := by
  refine ⟨h, ?_⟩
  -- Both runs start with the same item: it is determined by the text.
  induction h with
  | nil text =>
    intro other h'
    obtain rfl : text = rest := hsplit
    cases h' with
    | nil => exact le_rfl
    | item _ hfirst _ => rw [hstop] at hfirst; cases hfirst
  | @item text item after run hsplit' hfirst _ ih =>
    intro other h'
    cases h' with
    | nil => exact Nat.zero_le _
    | @item _ item' after' run' hsplit'' hfirst' hmore' =>
      obtain rfl : item' = item := by
        rw [hfirst, Option.some.injEq] at hfirst'
        exact hfirst'.symm
      obtain rfl : after' = after := append_cancel_left (hsplit''.symm.trans hsplit')
      rw [hsplit', append_assoc] at hsplit
      have := ih (append_cancel_left hsplit) _ hmore'
      rw [length_append, length_append]
      omega

lemma TriviaRun.whitespace (h : ∀ c ∈ run, unicode.isWhitespace c) (rest : List Char) :
    TriviaRun unicode (run ++ rest) run := by
  induction run with
  | nil => exact .nil rest
  | cons c run ih =>
    have hwhite : unicode.isWhitespace c := h c (by simp)
    have hfirst : triviaItem unicode (c :: (run ++ rest)) = some [c] := by simp [triviaItem, hwhite]
    have hsplit : c :: (run ++ rest) = [c] ++ (run ++ rest) := rfl
    exact .item hsplit hfirst (ih fun d hmem => h d (by simp [hmem]))

/-! ## The lexer takes trivia -/

namespace Lexer

variable {s t u : Lexer source}

lemma triviaItem_of_not_startsTrivia (h : ¬ StartsTrivia unicode s) :
    triviaItem unicode s.chars.rest = none := by
  unfold StartsTrivia at h
  rw [first_eq, second_eq] at h
  unfold triviaItem
  split
  · rfl
  · rename_i c text hchars
    simp only [hchars, head?_cons, Option.getD_some, not_or] at h
    rw [if_neg h.1]
    split
    · exact absurd ⟨rfl, rfl⟩ h.2.1
    · exact absurd ⟨rfl, rfl⟩ h.2.2
    · rfl

/-- The characters that `first` and `second` look at. -/
lemma exists_rest_two {c d : Char} (h : s.first = c) (h' : s.second = d) (hreal : d ≠ EOF_CHAR) :
    ∃ rest, s.chars.rest = c :: d :: rest := by
  rw [first_eq] at h
  rw [second_eq] at h'
  match hchars : s.chars.rest with
  | [] => simp [hchars] at h'; exact absurd h'.symm hreal
  | [_] => simp [hchars] at h'; exact absurd h'.symm hreal
  | e :: f :: rest => exact ⟨rest, by simp_all⟩

end Lexer

open Lexer

variable {s t : Lexer source}

/-- Taking the two characters that were looked at, with the text they are. -/
lemma ends_take_two {post : Char → Lexer source → Prop} {c d : Char} (h : s.first = c)
    (h' : s.second = d) (hreal : c ≠ EOF_CHAR) (hreal' : d ≠ EOF_CHAR)
    (hdone : ∀ e t, Moves [c, d] s t → post e t) : Ends take s fun _ t => Ends take t post := by
  refine (ends_take (not_isEof_of_first h hreal)).mono fun _ t hone => ?_
  have hsecond : t.first = d := hone.2.first_eq_second.trans h'
  refine (ends_take (not_isEof_of_first hsecond hreal')).mono fun e u htwo => hdone e u ?_
  have := hone.2.trans htwo.2
  rwa [h, hsecond] at this

lemma ends_takeAnnotationLineComment_run (h : s.first = '-') (h' : s.second = '-') :
    Ends takeAnnotationLineComment s fun _ t =>
      ∃ item, triviaItem unicode s.chars.rest = some item ∧ Moves item s t := by
  obtain ⟨rest, hchars⟩ := exists_rest_two h h' (by decide)
  simp only [takeAnnotationLineComment, ends_bind]
  refine ends_take_two h h' (by decide) (by decide) fun _ t htwo => ?_
  refine (ends_takeWhile _ t).mono fun _ u hline => ⟨_, ?_, htwo.trans hline⟩
  obtain rfl : t.chars.rest = rest := by simpa [hchars] using htwo.chars.symm
  simp [hchars, triviaItem, isWhitespace, isAscii]

lemma blockComment_other {depth : ℕ} {c : Char} {text : List Char}
    (hnotOpen : ¬ (c = '{' ∧ text.head? = some '-'))
      (hnotClose : ¬ (c = '-' ∧ text.head? = some '}')) :
    blockComment (depth + 1) (c :: text) = c :: blockComment (depth + 1) text := by
  rw [blockComment.eq_def]
  split <;> simp_all

/-- The nesting level is far from the bounds of an `i32`: each level takes two bytes. -/
lemma bmod_level {depth : Int} (h : -1 ≤ depth) (h' : depth < 0x80000000) :
    depth.bmod (2 ^ 32) = depth := by
  apply Int.bmod_eq_of_le_mul_two <;> omega

lemma ends_takeAnnotationBlockComment_run (hshort : byteLength source < 2 ^ 32)
    (h : s.first = '{') (h' : s.second = '-') :
    Ends takeAnnotationBlockComment s fun _ t =>
      ∃ item, triviaItem unicode s.chars.rest = some item ∧ Moves item s t := by
  obtain ⟨rest, hchars⟩ := exists_rest_two h h' (by decide)
  simp only [takeAnnotationBlockComment, ends_bind]
  refine ends_take_two h h' (by decide) (by decide) fun _ t htwo => ?_
  obtain rfl : t.chars.rest = rest := by simpa [hchars] using htwo.chars.symm
  -- What has been taken and the comment that is left make up the comment.
  let invariant (level : Int) (u : Lexer source) : Prop := ∃ (depth : ℕ) (taken : List Char),
    level = depth ∧ 2 * depth ≤ u.consumed ∧ Moves taken t u ∧
      blockComment 1 t.chars.rest = taken ++ blockComment depth u.chars.rest
  have hstart : invariant 1 t := by
    refine ⟨1, [], rfl, ?_, .refl t, rfl⟩
    rw [htwo.consumed]
    have : byteLength ['{', '-'] = 2 := by decide
    omega
  refine Ends.of_imp (fun _ u => Moves (blockComment 1 t.chars.rest) t u) (fun _ u hbody => ?_)
    (Ends.repeatLoop invariant (fun level u holds => ?_) hstart)
  · exact ⟨_, by simp [hchars, triviaItem, isWhitespace, isAscii], htwo.trans hbody⟩
  obtain ⟨depth, taken, rfl, hwidth, hmoves, hcomment⟩ := holds
  simp only [ends_bind, ends_get, ends_ite, ends_pure]
  refine ⟨fun hmore => ?_, fun hstop => ?_⟩
  · obtain ⟨depth, rfl⟩ : ∃ n, depth = n + 1 := ⟨depth - 1, by have := hmore.1; omega⟩
    have hnotEof : u.isEof = false := by simpa using hmore.2
    refine ⟨fun hopens => ?_, fun hnotOpen => ⟨fun hcloses => ?_, fun hnotClose => ?_⟩⟩
    · refine ends_take_two hopens.1 hopens.2 (by decide) (by decide) fun _ v hdelimiter => ⟨?_, ?_⟩
      · have hgrown := hdelimiter.consumed
        have hsmall := v.consumed_le
        have : byteLength ['{', '-'] = 2 := by decide
        refine ⟨depth + 2, taken ++ ['{', '-'], ?_, by omega, hmoves.trans hdelimiter, ?_⟩
        · rw [bmod_level] <;> push_cast <;> omega
        · rw [hcomment, hdelimiter.chars, append_assoc]
          rfl
      · exact (hdelimiter.progresses (by simp)).shorter
    · refine ends_take_two hcloses.1 hcloses.2 (by decide) (by decide) fun _ v hdelimiter =>
        ⟨?_, ?_⟩
      · have hgrown := hdelimiter.consumed
        have hsmall := v.consumed_le
        refine ⟨depth, taken ++ ['-', '}'], ?_, by omega, hmoves.trans hdelimiter, ?_⟩
        · rw [bmod_level] <;> push_cast <;> omega
        · rw [hcomment, hdelimiter.chars, append_assoc]
          rfl
      · exact (hdelimiter.progresses (by simp)).shorter
    · refine (ends_take hnotEof).mono fun _ v hone => ⟨?_, (hone.2.progresses (by simp)).shorter⟩
      have hgrown := hone.2.consumed
      refine ⟨depth + 1, taken ++ [u.first], rfl, by omega, hmoves.trans hone.2, ?_⟩
      obtain ⟨rest, hchars⟩ := exists_rest hnotEof
      have hother : blockComment (depth + 1) (u.first :: rest) =
          u.first :: blockComment (depth + 1) rest := by
        apply blockComment_other
        · exact fun hopens => hnotOpen ⟨hopens.1, by simp [second_eq, hchars, hopens.2]⟩
        · exact fun hcloses => hnotClose ⟨hcloses.1, by simp [second_eq, hchars, hcloses.2]⟩
      have hleft : rest = v.chars.rest := by simpa [hchars] using hone.2.chars
      rw [hcomment, hchars, hother, append_assoc, hleft]
      rfl
  · have hdone : blockComment depth u.chars.rest = [] := by
      rcases Nat.eq_zero_or_pos depth with rfl | hpositive
      · rw [blockComment]
      · have heof : u.chars.rest = [] := by
          by_contra hnonempty
          exact hstop ⟨by omega, by simpa [isEof] using hnonempty⟩
        obtain ⟨n, rfl⟩ : ∃ n, depth = n + 1 := ⟨depth - 1, by omega⟩
        rw [heof, blockComment]
    rw [hcomment, hdone, append_nil]
    exact hmoves

/-- Block comments are taken whole. -/
def TakesBlocks (unicode : UnicodeTables) (source : List Char) : Prop :=
  ∀ s : Lexer source, s.first = '{' → s.second = '-' → Ends takeAnnotationBlockComment s fun _ t =>
    ∃ item, triviaItem unicode s.chars.rest = some item ∧ Moves item s t

/-- **`take_annotation` takes the longest run of trivia.** -/
lemma ends_takeAnnotation_run (hblocks : TakesBlocks unicode source) (s : Lexer source) :
    Ends (do takeAnnotation unicode) s fun _ t => ∃ mid run, Moves run s mid ∧
      ¬ StartsTrivia unicode mid ∧ LongestTrivia unicode s.chars.rest run ∧ t = mid.annotated := by
  let invariant (t : Lexer source) : Prop :=
    ∃ run, Moves run s t ∧ TriviaRun unicode s.chars.rest run
  have hstart : invariant s := ⟨[], .refl s, .nil _⟩
  -- One more item, or a run of whitespace, goes on where the run so far ended.
  have hfurther {t u : Lexer source} {more : List Char} (holds : invariant t)
      (hmoves : Moves more t u) (hitem : TriviaRun unicode t.chars.rest more) : invariant u := by
    obtain ⟨run, hbefore, htrivia⟩ := holds
    exact ⟨run ++ more, hbefore.trans hmoves, htrivia.append hbefore.chars hitem⟩
  have hcomment {t u : Lexer source} (holds : invariant t)
      (htaken : ∃ item, triviaItem unicode t.chars.rest = some item ∧ Moves item t u) :
      invariant u := by
    obtain ⟨item, hfirst, hmoves⟩ := htaken
    have := TriviaRun.item hmoves.chars hfirst (.nil u.chars.rest)
    exact hfurther holds hmoves (by simpa using this)
  simp only [ends_bind, takeAnnotation, ends_modify]
  refine Ends.of_imp (fun _ t => invariant t ∧ ¬ StartsTrivia unicode t) (fun _ t hdone => ?_)
    (Ends.repeatLoop (fun _ t => invariant t) (fun _ t holds => ?_) hstart)
  · obtain ⟨⟨run, hmoves, htrivia⟩, hstop⟩ := hdone
    exact ⟨t, run, hmoves, hstop,
      htrivia.longest hmoves.chars (triviaItem_of_not_startsTrivia hstop), rfl⟩
  simp only [ends_bind, ends_get, ends_ite, ends_pure]
  refine ⟨fun hwhite => ?_, fun hnotWhite => ⟨fun hline => ?_, fun hnotLine => ⟨fun hblock => ?_,
    fun hnotBlock => ⟨holds, ?_⟩⟩⟩⟩
  · have hnotEof := not_isEof_of_category hwhite isWhitespace_eof
    refine ((ends_takeWhile _ t).and (ends_takeWhile_progresses hwhite hnotEof)).mono
      fun _ u hdone => ?_
    have hwhites : TriviaRun unicode (t.chars.rest.takeWhile unicode.isWhitespace ++ u.chars.rest)
        (t.chars.rest.takeWhile unicode.isWhitespace) :=
      .whitespace (fun c hmem => mem_takeWhile_imp hmem) _
    rw [← hdone.1.chars] at hwhites
    exact ⟨hfurther holds hdone.1 hwhites, hdone.2.shorter⟩
  · have hnotEof := not_isEof_of_first hline.1 (by decide)
    exact ((ends_takeAnnotationLineComment_run hline.1 hline.2).and
      (ends_takeAnnotationLineComment hnotEof hline.2)).mono fun _ u hdone =>
        ⟨hcomment holds hdone.1, hdone.2.shorter⟩
  · have hnotEof := not_isEof_of_first hblock.1 (by decide)
    exact ((hblocks t hblock.1 hblock.2).and
      (ends_takeAnnotationBlockComment hnotEof hblock.2)).mono fun _ u hdone =>
        ⟨hcomment holds hdone.1, hdone.2.shorter⟩
  · exact not_or.mpr ⟨hnotWhite, not_or.mpr ⟨hnotLine, hnotBlock⟩⟩

/-! ## The annotations of all tokens -/

/-- The token is an operator right after an opening parenthesis: it has no annotation, and it does
not start a line comment. -/
structure OperatorAfterParenthesis (unicode : UnicodeTables) (lexed : Lexed) (index : ℕ)
    (rest : List Char) : Prop where
  previous : 0 < index ∧ lexed.kind (index - 1) = some .LEFT_PARENTHESIS
  empty : lexed.annotation index = some none
  operator : ∃ text, lexed.text index = some text ∧ text ≠ [] ∧
    (∀ c ∈ text, unicode.isOperator c) ∧ lexed.kind index = some (operatorKind text)
  noComment : ¬ ['-', '-'] <+: rest

/-- The annotation of the token at `index` is the longest run of trivia from where the token before
it ended, with the one exception. -/
def AnnotationAt (unicode : UnicodeTables) (lexed : Lexed) (index : ℕ) : Prop :=
  ∃ low rest trivia, lexed.previousEnd index = some low ∧
    dropBytes low lexed.source = some rest ∧ lexed.annotation index = some trivia ∧
    (LongestTrivia unicode rest (trivia.getD []) ∨
      OperatorAfterParenthesis unicode lexed index rest)

section Push

variable {lexed lexed' : Lexed} {kind : SyntaxKind} {info : SyntaxKindInfo} {index : ℕ}
  (htokens : lexed'.tokens = lexed.tokens ++ [(kind, info)])

include htokens

lemma AnnotationAt.push (hsource_eq : lexed'.source = lexed.source) (hinside : index < lexed.len)
    (h : AnnotationAt unicode lexed index) : AnnotationAt unicode lexed' index := by
  have htoken {i : ℕ} (hle : i ≤ index) : lexed'.tokens[i]? = lexed.tokens[i]? := by
    rw [htokens, getElem?_append_left (lt_of_le_of_lt hle hinside)]
  have hinfo {i : ℕ} (hle : i ≤ index) : lexed'.info i = lexed.info i := by
    simp [Lexed.info, Lexed.infos, htoken hle]
  have hkind {i : ℕ} (hle : i ≤ index) : lexed'.kind i = lexed.kind i := by
    simp [Lexed.kind, Lexed.kinds, htoken hle]
  have hpreviousEnd : lexed'.previousEnd index = lexed.previousEnd index := by
    simp [Lexed.previousEnd, hinfo (Nat.sub_le index 1)]
  have hann : lexed'.annotation index = lexed.annotation index := by
    simp [Lexed.between, Lexed.annotation, hpreviousEnd, hinfo le_rfl, hsource_eq]
  have htext : lexed'.text index = lexed.text index := by
    simp [Lexed.text, hinfo le_rfl, hsource_eq]
  obtain ⟨low, rest, run, hbefore, hdrop, here, htrivia⟩ := h
  refine ⟨low, rest, run, hpreviousEnd ▸ hbefore, hsource_eq ▸ hdrop, hann ▸ here, ?_⟩
  rcases htrivia with htrivia | hoperator
  · exact .inl htrivia
  · refine .inr ⟨?_, hann ▸ hoperator.empty, ?_, hoperator.noComment⟩
    · rw [hkind (Nat.sub_le index 1)]
      exact hoperator.previous
    · rw [htext, hkind le_rfl]
      exact hoperator.operator

lemma info_push : lexed'.info lexed.len = some info := by
  simp [Lexed.info, Lexed.infos, Lexed.len, htokens]

lemma previousEnd_push : lexed'.previousEnd lexed'.len = some info.token := by
  simp [Lexed.previousEnd, Lexed.info, Lexed.infos, Lexed.len, htokens]

lemma previousEnd_len : lexed'.previousEnd lexed.len = lexed.previousEnd lexed.len := by
  unfold Lexed.previousEnd
  split_ifs with hlater
  · have : lexed.len - 1 < lexed.tokens.length := by
      unfold Lexed.len at hlater ⊢
      omega
    have htoken : lexed'.tokens[lexed.len - 1]? = lexed.tokens[lexed.len - 1]? := by
      rw [htokens, getElem?_append_left this]
    simp [Lexed.info, Lexed.infos, htoken]
  · rfl

/-- Pushing a token whose annotation is the longest run of trivia. -/
lemma annotationAt_push {low : ℕ} {rest run : List Char}
    (hbefore : lexed.previousEnd lexed.len = some low)
    (hdrop : dropBytes low lexed'.source = some rest)
    (hcut : slice lexed'.source low info.annotation = some run)
    (htrivia : LongestTrivia unicode rest run) : AnnotationAt unicode lexed' lexed.len := by
  obtain ⟨trivia, here, rfl⟩ := Lexed.between_of_slice hcut
  refine ⟨low, rest, trivia, (previousEnd_len htokens).trans hbefore, hdrop, ?_, .inl htrivia⟩
  simp [previousEnd_len htokens, Lexed.annotation, hbefore, info_push htokens, here]

/-- Pushing an operator right after an opening parenthesis. -/
lemma annotationAt_push_operator {rest text : List Char}
    {front : List (SyntaxKind × SyntaxKindInfo)}
    {left : SyntaxKindInfo} (hparenthesis : lexed.tokens = front ++ [(.LEFT_PARENTHESIS, left)])
    (hempty : info.annotation = left.token)
    (hdrop : dropBytes left.token lexed'.source = some rest)
    (hcut : slice lexed'.source info.qualifier info.token = some text) (hnonempty : text ≠ [])
    (hoperators : ∀ c ∈ text, unicode.isOperator c) (hkind_eq : kind = operatorKind text)
    (hnoComment : ¬ ['-', '-'] <+: rest) : AnnotationAt unicode lexed' lexed.len := by
  have hbefore : lexed'.previousEnd lexed.len = some left.token := by
    simp [Lexed.previousEnd, Lexed.info, Lexed.infos, Lexed.len, htokens, hparenthesis]
  have hnone_ : lexed'.annotation lexed.len = some none := by
    simp [hbefore, Lexed.annotation, info_push htokens, Lexed.between, hempty]
  refine ⟨left.token, rest, none, hbefore, hdrop, hnone_, .inr ⟨⟨?_, ?_⟩, hnone_, ?_, hnoComment⟩⟩
  · simp [Lexed.len, hparenthesis]
  · simp [Lexed.kind, Lexed.kinds, Lexed.len, htokens, hparenthesis]
  · refine ⟨text, by simp [Lexed.text, info_push htokens, hcut], hnonempty, hoperators, ?_⟩
    simp [Lexed.kind, Lexed.kinds, Lexed.len, htokens, hkind_eq]

end Push

namespace Lexer

/-- The annotations of all tokens so far are explained. -/
def Explained (unicode : UnicodeTables) (s : Lexer source) : Prop :=
  ∀ index < s.lexed.build.len, AnnotationAt unicode s.lexed.build index

/-- The last token ends where the lexer stands. -/
def Reached (s : Lexer source) : Prop :=
  s.lexed.build.previousEnd s.lexed.build.len = some s.consumed

/-- The annotation of the next token is the longest run of trivia after the last one. -/
def Pending (unicode : UnicodeTables) (s : Lexer source) : Prop :=
  ∃ low rest run, s.lexed.build.previousEnd s.lexed.build.len = some low ∧
    dropBytes low source = some rest ∧ slice source low s.annotation = some run ∧
    LongestTrivia unicode rest run

variable {t u mid : Lexer source}

lemma dropBytes_consumed (s : Lexer source) : dropBytes s.consumed source = some s.chars.rest := by
  obtain ⟨before, hsplit, hwidth⟩ := s.exists_before
  have := dropBytes_append before s.chars.rest
  rwa [← hsplit, hwidth] at this

lemma build_pushed_tokens (t : Lexer source) (kind info error) :
    (t.pushed kind info error).lexed.build.tokens = t.lexed.build.tokens ++ [(kind, info)] :=
  pushed_tokens t kind info error

variable {kind : SyntaxKind} {error : Option String}

/-- Pushing the next token where the lexer stands keeps the annotations explained. -/
lemma Explained.push {info : SyntaxKindInfo} (hexplained : Explained unicode t)
    (hnext : AnnotationAt unicode (t.pushed kind info error).lexed.build t.lexed.build.len) :
    Explained unicode (t.pushed kind info error) := by
  intro index hinside
  have htokens := build_pushed_tokens t kind info error
  rcases Nat.lt_or_ge index t.lexed.build.len with hbefore | here
  · refine (hexplained index hbefore).push htokens ?_ hbefore
    exact pushed_source t kind info error
  · obtain rfl : index = t.lexed.build.len := by
      have : (t.pushed kind info error).lexed.build.len = t.lexed.build.len + 1 := by
        unfold Lexed.len
        rw [htokens, length_append, length_singleton]
      omega
    exact hnext

/-- A token with the annotation that is pending. -/
lemma Pending.push (hpending : Pending unicode s) (hsource_eq : s.lexed.source = source)
    (hmoved : Moves run s t) :
    AnnotationAt unicode (t.pushed kind t.info error).lexed.build t.lexed.build.len := by
  obtain ⟨low, rest, run, hbefore, hdrop, hcut, htrivia⟩ := hpending
  have hsame : (t.pushed kind t.info error).lexed.build.source = source :=
    (pushed_source _ _ _ _).trans (by rw [hmoved.lexed, hsource_eq])
  refine annotationAt_push (pushed_tokens t kind t.info error) ?_ (hsame ▸ hdrop) ?_ htrivia
  · rw [hmoved.lexed]
    exact hbefore
  · rw [hsame, show t.info.annotation = s.annotation from hmoved.annotation]
    exact hcut

/-- The two characters that come next are no dashes. -/
lemma noDashes (h : ¬ (s.first = '-' ∧ s.second = '-')) : ¬ ['-', '-'] <+: s.chars.rest := by
  rintro ⟨rest, hdashes⟩
  rw [first_eq, second_eq, ← hdashes] at h
  exact h ⟨rfl, rfl⟩

/-- **A token keeps all annotations explained.** -/
lemma Ready.explained_step (hready : Ready s) (hshort : byteLength source < 2 ^ 32)
    (hexplained : Explained unicode s) (hpending : Pending unicode s)
    (hstep : TokenStep unicode s t) : Explained unicode t ∧ Reached t := by
  -- The first token that is pushed takes the pending annotation.
  have hfirst {mid : Lexer source} {run : List Char} (hmoved : Moves run s mid) (kind : SyntaxKind)
      (error : Option String) : Explained unicode (mid.pushed kind mid.info error) ∧
        Reached (mid.pushed kind mid.info error) := by
    constructor
    · refine Explained.push ?_ (hpending.push hready.source_eq hmoved)
      unfold Explained
      rw [hmoved.lexed]
      exact hexplained
    · have hended := previousEnd_push (build_pushed_tokens mid kind mid.info error)
      exact hended.trans (congrArg some (asU32_consumed hshort mid))
  cases hstep with
  | stop message htrivia => exact hfirst (.refl s) _ _
  | @token mid kind error htext hinner =>
    obtain ⟨taken, -, hmoves⟩ := htext
    exact hfirst hmoves _ _
  | @parenthesis left mid kind op hopens htext hinner hrun hoperator hnoComment
      hann hqualifier
      htoken _ =>
    obtain ⟨taken, -, hmoves⟩ := hopens
    rw [asU32_consumed hshort] at hann hqualifier htoken
    have hended : left.info.token = left.consumed := asU32_consumed hshort left
    obtain ⟨hexplained, -⟩ := hfirst hmoves .LEFT_PARENTHESIS none
    -- The parenthesis is pushed after the operator has been taken, with the same tokens.
    have hlexed : (mid.pushed .LEFT_PARENTHESIS left.info none).lexed =
        (left.pushed .LEFT_PARENTHESIS left.info none).lexed := by
      rw [Lexer.pushed, Lexer.pushed, hrun.lexed]
    have hexplained : Explained unicode (mid.pushed .LEFT_PARENTHESIS left.info none) := by
      unfold Explained
      rw [hlexed]
      exact hexplained
    have htokens := build_pushed_tokens (mid.pushed .LEFT_PARENTHESIS left.info none) kind op none
    have hsame : ((mid.pushed .LEFT_PARENTHESIS left.info none).pushed kind op
        none).lexed.build.source = source := by
      refine (pushed_source _ _ _ _).trans ?_
      simp [hrun.lexed, hmoves.lexed, hready.source_eq]
    constructor
    · refine hexplained.push (annotationAt_push_operator htokens
        (build_pushed_tokens mid _ left.info none) (hann.trans hended.symm) ?_ ?_ ?_ ?_
          hoperator (noDashes hnoComment))
      · rw [hsame, hended]
        exact left.dropBytes_consumed
      · rw [hsame, hqualifier, htoken]
        exact hrun.slice
      · obtain ⟨taken, hnonempty, hmoves⟩ := htext
        have := append_cancel_right (hmoves.chars.symm.trans hrun.chars)
        rwa [← this]
      · exact fun c hmem => mem_takeWhile_imp hmem
    · exact (previousEnd_push htokens).trans (congrArg some htoken)

/-- Trivia and a qualifier leave the next annotation pending. -/
lemma Explained.pending (hexplained : Explained unicode s) (hreached : Reached s)
    (hshort : byteLength source < 2 ^ 32) (htrivia : Moves run s mid)
    (hlongest : LongestTrivia unicode s.chars.rest run) (hqualifier : Moves more mid.annotated u) :
    Explained unicode u.qualified ∧ Pending unicode u.qualified := by
  have hlexed : u.qualified.lexed = s.lexed := hqualifier.lexed.trans htrivia.lexed
  have hann : u.qualified.annotation = mid.consumed :=
    hqualifier.annotation.trans (asU32_consumed hshort mid)
  unfold Explained Pending
  rw [hlexed, hann]
  exact ⟨hexplained, s.consumed, _, run, hreached, s.dropBytes_consumed, htrivia.slice, hlongest⟩

end Lexer

/-! ## Whole runs -/

/-- The annotation and the qualifier that follow a state, with the trivia that is taken. -/
lemma ends_new_run (hblocks : TakesBlocks unicode source) (s : Lexer source) :
    Ends (new unicode) s fun _ t => ∃ mid last run more, Moves run s mid ∧
      ¬ StartsTrivia unicode mid ∧ LongestTrivia unicode s.chars.rest run ∧
      Moves more mid.annotated last ∧ t = last.qualified := by
  simp only [new, ends_bind]
  refine (ends_takeAnnotation_run hblocks s).mono ?_
  rintro _ t ⟨mid, run, htrivia, hall, hlongest, rfl⟩
  refine (ends_takeQualifier unicode mid.annotated).mono ?_
  rintro _ t ⟨last, hname, rfl⟩
  obtain ⟨more, hmoves⟩ := hname.exists_moves
  exact ⟨mid, last, run, more, htrivia, hall, hlongest, hmoves, rfl⟩

/-- Between two tokens: the text is cut, and the annotations are explained up to here. -/
def ReadyExplained (unicode : UnicodeTables) (s : Lexer source) : Prop :=
  Ready s ∧ Explained unicode s ∧ Pending unicode s

/-- What follows a pushed token leads to the next state between two tokens. -/
lemma ends_new_ready (hshort : byteLength source < 2 ^ 32) (hpushed : Pushed unicode s)
    (hexplained : Explained unicode s) (hreached : Reached s) :
    Ends (new unicode) s fun _ t => ReadyExplained unicode t := by
  refine (ends_new_run (fun _ => ends_takeAnnotationBlockComment_run hshort) s).mono ?_
  rintro _ t ⟨mid, last, run, more, htrivia, hall, hlongest, hname, rfl⟩
  exact ⟨hpushed.ready hshort htrivia.reaches hall hname.reaches,
    hexplained.pending hreached hshort htrivia hlongest hname⟩

lemma ends_takeToken_ready (hshort : byteLength source < 2 ^ 32)
    (hready : ReadyExplained unicode s) (hnotEof : s.isEof = false) :
    Ends (takeToken unicode) s fun _ t => ReadyExplained unicode t := by
  refine ends_takeToken_of hnotEof fun pushed hstep => ?_
  obtain ⟨hexplained, hreached⟩ := hready.1.explained_step hshort hready.2.1 hready.2.2 hstep
  exact ends_new_ready hshort (hready.1.step hshort hstep) hexplained hreached

lemma lex_explained (unicode : UnicodeTables) (hshort : byteLength source < 2 ^ 32) :
    ∃ lexed, lex unicode source = .ok lexed ∧ lexed.source = source ∧
      ∀ index < lexed.len, AnnotationAt unicode lexed index := by
  have hnone : Explained unicode (start source) :=
    fun _ hinside => absurd hinside (Nat.not_lt_zero _)
  have hzero : Reached (start source) := by simp [Reached, Lexed.previousEnd, Lexed.len,
    LexedBuilder.build, LexedBuilder.new, start, consumed]
  refine @lex_run source unicode (ReadyExplained unicode) _
    (ends_new_ready hshort (pushed_start unicode source) hnone hzero)
    (fun s => ends_takeToken_ready hshort) ?_
  rintro s error ⟨hready, hexplained, hpending⟩ _
  exact ⟨(pushed_source _ _ _ _).trans hready.source_eq,
    hexplained.push (hpending.push hready.source_eq (.refl s))⟩

/-- **Annotations are the trivia.**  The annotation of every token is the longest run of whitespace,
line comments and nested block comments from where the token before it ended; the exception is an
operator pushed right after an opening parenthesis, which has no annotation and does not start a
line comment. -/
theorem lex_annotations (unicode : UnicodeTables) (source : List Char)
    (hshort : byteLength source < 2 ^ 32) :
    ∃ lexed, lex unicode source = .ok lexed ∧ lexed.source = source ∧
      ∀ index < lexed.len, AnnotationAt unicode lexed index :=
  lex_explained unicode hshort

/-- A source with a nested comment, a line comment and an operator after a parenthesis. -/
theorem lex_annotations_nested :
    byteLength "x {- a {- b -} -} (+ y -- z".toList < 2 ^ 32 ∧
      ∃ lexed, lex asciiTables "x {- a {- b -} -} (+ y -- z".toList = .ok lexed ∧
        lexed.source = "x {- a {- b -} -} (+ y -- z".toList ∧
        ∀ index < lexed.len, AnnotationAt asciiTables lexed index :=
  ⟨by decide, lex_annotations asciiTables _ (by decide)⟩

/-! ## Sources of `2 ^ 32` bytes -/

/-- A source of trivia has one token, the end-of-file token, at the wrapped length of the source. -/
lemma lex_trivia (hblocks : TakesBlocks unicode source) (hwhole : TriviaRun unicode source source) :
    ∃ lexed, lex unicode source = .ok lexed ∧ lexed.source = source ∧
      ∃ info, lexed.tokens = [(.END_OF_FILE, info)] ∧ info.annotation = asU32 (byteLength source) ∧
        info.position = source.foldl Position.after ⟨1, 1⟩ := by
  let between (t : Lexer source) : Prop := t.isEof = true ∧ t.lexed = .new source ∧
    t.annotation = asU32 (byteLength source) ∧
      t.qualifierPosition = source.foldl Position.after ⟨1, 1⟩
  have hfirst : Ends (new unicode) (start source) fun _ t => between t := by
    refine (ends_new_run hblocks _).mono ?_
    rintro _ s ⟨mid, last, run, more, hmoves, _, hlongest, hmoves', rfl⟩
    have hsplit : source = run ++ mid.chars.rest := hmoves.chars
    have hempty : mid.chars.rest = [] := by
      have := hlongest.2 source hwhole
      have := congrArg List.length hsplit
      rw [length_append] at this
      exact length_eq_zero_iff.mp (by omega)
    have hwidth : mid.consumed = byteLength source := by simp [consumed, hempty]
    refine ⟨?_, hmoves'.lexed.trans hmoves.lexed, hmoves'.annotation.trans (congrArg asU32 hwidth),
      hmoves'.qualifierPosition.trans ?_⟩
    · have : mid.annotated.chars.rest = [] := hempty
      rw [hmoves'.chars] at this
      exact isEmpty_iff.mpr (append_eq_nil_iff.mp this).2
    · rw [hempty, append_nil] at hsplit
      refine hmoves.position.trans ?_
      rw [← hsplit]
      rfl
  refine @lex_run _ unicode between _ hfirst
    (fun s holds hnotEof => absurd (holds.1.symm.trans hnotEof) (by decide)) ?_
  rintro s error ⟨_, hlexed, hann, hposition⟩ _
  refine ⟨(pushed_source _ _ _ _).trans (congrArg LexedBuilder.source hlexed), s.info,
    (pushed_tokens _ _ _ _).trans ?_, hann, hposition⟩
  rw [hlexed]
  rfl

/-- Without a brace there is no block comment. -/
lemma takesBlocks_of_not_mem (h : '{' ∉ source) : TakesBlocks unicode source := by
  intro s hopens hdash
  obtain ⟨rest, hchars⟩ := exists_rest_two hopens hdash (by decide)
  exact absurd (s.chars.suffix.subset (by simp [hchars])) h

lemma lex_spaces {n : ℕ} {lexed : Lexed} (h : lex asciiTables (List.replicate n ' ') = .ok lexed) :
    lexed.source = List.replicate n ' ' ∧
      ∃ info, lexed.tokens = [(.END_OF_FILE, info)] ∧ info.annotation = asU32 n ∧
        info.position = (List.replicate n ' ').foldl Position.after ⟨1, 1⟩ := by
  have hwhite : TriviaRun asciiTables (List.replicate n ' ') (List.replicate n ' ') := by
    simpa using TriviaRun.whitespace (fun c hmem => by rw [eq_of_mem_replicate hmem]; rfl) []
  obtain ⟨_, hran, hrest⟩ := lex_trivia (takesBlocks_of_not_mem (by simp)) hwhite
  cases hran.symm.trans h
  simpa [byteLength, Char.utf8Size] using hrest

/-- Where the length wraps around to zero, the annotation is lost. -/
lemma annotation_lost {n : ℕ} (hpositive : 0 < n) (hwraps : asU32 n = 0) :
    ¬ ∃ lexed, lex asciiTables (List.replicate n ' ') = .ok lexed ∧
      ∀ index < lexed.len, AnnotationAt asciiTables lexed index := by
  rintro ⟨lexed, hran, hexplained⟩
  obtain ⟨hsource_eq, info, htokens, hann, -⟩ := lex_spaces hran
  have hzero : info.annotation = 0 := hann.trans hwraps
  have hone : 0 < lexed.len := by simp [Lexed.len, htokens]
  obtain ⟨low, rest, run, hbefore, hdrop, here, htrivia⟩ := hexplained 0 hone
  obtain rfl : low = 0 := by simpa [Lexed.previousEnd] using hbefore.symm
  obtain rfl : run = none := by
    simpa [Lexed.previousEnd, Lexed.annotation, Lexed.info, Lexed.infos, htokens, Lexed.between,
      hzero] using here.symm
  rw [hsource_eq, dropBytes, Option.some.injEq] at hdrop
  subst hdrop
  rcases htrivia with hlongest | hoperator
  · obtain ⟨n, rfl⟩ := Nat.exists_eq_succ_of_ne_zero hpositive.ne'
    have hspace : TriviaRun asciiTables ([' '] ++ List.replicate n ' ') [' '] :=
      .whitespace (by simp [isWhitespace]) _
    exact absurd (hlongest.2 [' '] hspace) (by simp)
  · exact absurd hoperator.previous.1 (Nat.lt_irrefl 0)

/-- In `2 ^ 32` bytes of whitespace the `u32` end of the annotation wraps around to zero: the
end-of-file token has no annotation. -/
theorem long_annotation_lost :
    ¬ ∃ lexed, lex asciiTables (List.replicate (2 ^ 32) ' ') = .ok lexed ∧
      ∀ index < lexed.len, AnnotationAt asciiTables lexed index :=
  annotation_lost (by omega) (Nat.mod_self _)

end Iris.Lexing
