import IrisCompiler.Lexing.FirstToken

/-!
# Names and operators

`is_lower_name`, `is_upper_name` and `is_operator_name` say of a string whether it could be the name
of a value, of a type or of an operator.  They repeat by hand what the scanner does.  Here they are
compared with it: `Single` says that a string is lexed as one token, and `single_lower_iff`,
`single_upper_iff` and `single_operator_iff` say of which strings that is so.

An operator that starts with a question mark is the one case in which they differ, since a question
mark before a character of a name starts a hole, and there are symbols that are alphanumeric.
-/

namespace Iris.Lexing

open ByteText TotalRun Lexer List UnicodeTables

/-! ## The predicates of the source -/

section Predicates

variable (unicode : UnicodeTables) (source : List Char)

def isLowerName : Bool :=
  source != ['_'] &&
    source.head?.any unicode.isLowerStart && source.tail.all unicode.isName &&
    lowerKind source == .LOWER

def isUpperName : Bool := source.head?.any unicode.isUpperStart && source.tail.all unicode.isName

/-- The kinds of tokens that can be the name of an operator. -/
def operatorNameKinds : List SyntaxKind :=
  [.OPERATOR, .COLON, .MINUS, .DOUBLE_PERIOD, .LEFT_THICK_ARROW]

def isOperatorName : Bool :=
  !source.isEmpty && !(['-', '-'].isPrefixOf source) && source.all unicode.isOperator &&
    operatorNameKinds.contains (operatorKind source)

/-- The whole text is one token, without annotation and qualifier, and nothing comes before the end
of the file. -/
def Single (kind : SyntaxKind) : Prop :=
  ∃ lexed info eof, lex unicode source = .ok lexed ∧
    lexed.tokens = [(kind, info), (.END_OF_FILE, eof)] ∧
    lexed.annotation 0 = some none ∧ lexed.qualifier 0 = some none ∧ lexed.text 0 = some source ∧
    lexed.annotation 1 = some none ∧ lexed.qualifier 1 = some none ∧ lexed.text 1 = some []

end Predicates

/-- What is known of the Unicode categories: letters of the two cases, symbols and whitespace have
no character in common. -/
structure UnicodeTables.Separated (unicode : UnicodeTables) : Prop where
  lowercase : ∀ c, unicode.letterLowercase c = true →
    unicode.whiteSpace c = false ∧ unicode.letterUppercase c = false
  uppercase : ∀ c, unicode.letterUppercase c = true → unicode.whiteSpace c = false
  symbol : ∀ c, unicode.symbol c = true → unicode.whiteSpace c = false ∧
    unicode.letterLowercase c = false ∧ unicode.letterUppercase c = false

/-! ## What one token says about the text -/

section Backward

variable {source : List Char} {unicode : UnicodeTables} {s : Lexer source}

variable {kind : SyntaxKind} {lexed : Lexed}

/-- A text that is one token is shorter than the offsets can say. -/
lemma Single.short (h : Single unicode source kind) : byteLength source < 2 ^ 32 := by
  obtain ⟨lexed, info, eof, hran, htokens, _, _, htext, _⟩ := h
  have hbound : info.token < 2 ^ 32 := lex_bounded hran (kind, info) (by rw [htokens]; simp)
  have hlength : byteLength source = info.token - info.qualifier := by
    apply @byteLength_of_slice lexed.source _ _ _
    simpa [Lexed.text, Lexed.info, Lexed.infos, htokens] using htext
  omega

lemma not_lt_of_between {low high : ℕ} (h : lexed.between low high = some none) : ¬low < high := by
  intro hroom
  rw [Lexed.between, if_pos hroom] at h
  simp at h

/-- A step that takes the token of a text of one token takes all of it. -/
lemma Single.taken {info eof : SyntaxKindInfo}
    (htokens : lexed.tokens = [(kind, info), (.END_OF_FILE, eof)])
    (hann : lexed.annotation 0 = some none) (hqualifier : lexed.qualifier 0 = some none)
    (htext : lexed.text 0 = some source) {mid : Lexer source} {taken : List Char}
    (hbefore : s = ready source ∨ 0 < s.annotation ∨ s.annotation < s.qualifier)
    (hrun : Moves taken s mid) (hsame : mid.info = info) (hshort : byteLength source < 2 ^ 32) :
    s = ready source ∧ taken = source := by
  have hnoAnnotation : ¬0 < info.annotation := @not_lt_of_between lexed _ _ (by
    simpa [Lexed.previousEnd, Lexed.annotation, Lexed.info, Lexed.infos,
      htokens] using hann)
  have hnoQualifier : ¬ info.annotation < info.qualifier := @not_lt_of_between lexed _ _ (by
    simpa [Lexed.qualifier, Lexed.info, Lexed.infos, htokens] using hqualifier)
  have hlength : byteLength source = info.token - info.qualifier :=
    @byteLength_of_slice lexed.source _ _ _ (by
      simpa [Lexed.text, Lexed.info, Lexed.infos, htokens] using htext)
  have hinfoAnnotation : info.annotation = s.annotation := by rw [← hsame]; exact hrun.annotation
  have hinfoQualifier : info.qualifier = s.qualifier := by rw [← hsame]; exact hrun.qualifier
  have hinfoToken : info.token = mid.consumed := by rw [← hsame]; exact asU32_consumed hshort mid
  obtain rfl : s = ready source := by
    rcases hbefore with rfl | hroom | hroom
    · rfl
    · omega
    · omega
  refine ⟨rfl, ?_⟩
  have hsplit : source = taken ++ mid.chars.rest := hrun.chars
  have hall : mid.consumed = byteLength taken := by
    rw [hrun.consumed]
    simp [ready, start, annotated, qualified, Lexer.consumed]
  have hrest : mid.chars.rest = [] := by
    by_contra hnonempty
    have := byteLength_pos hnonempty
    have := congrArg byteLength hsplit
    rw [byteLength_append] at this
    omega
  rw [hrest, append_nil] at hsplit
  exact hsplit.symm

/-- What the first step says about a text that is one token. -/
inductive NameText (unicode : UnicodeTables) (source : List Char) : SyntaxKind → Prop
  | lower (hstart : unicode.isLowerStart (ready source).first = true)
      (hname : (ready source).first = '_' → unicode.isName (ready source).second = true)
      (hall : source.takeWhile unicode.isName = source) :
      NameText unicode source (lowerKind source)
  | upper (hstart : unicode.isUpperStart (ready source).first = true)
      (hall : (ready source).first :: source.tail.takeWhile unicode.isName = source) :
      NameText unicode source .UPPER
  | operator (hstart : unicode.isOperator (ready source).first = true)
      (hnoHole : (ready source).first = '?' → unicode.isName (ready source).second = false)
      (hnoComment : ¬((ready source).first = '-' ∧ (ready source).second = '-'))
      (hall : source.takeWhile unicode.isOperator = source) :
      NameText unicode source (operatorKind source)

/-- **A text that is one token and no other kind of token is a name or an operator.** -/
theorem Single.nameText (h : Single unicode source kind) (hproper : kind ∉ otherKinds) :
    NameText unicode source kind := by
  have hshort := h.short
  obtain ⟨lexed, info, eof, hran, htokens, hann, hqualifier, htext, _⟩ := h
  obtain ⟨lexed', hran', s, hempty, hbefore, hfirst⟩ := @lex_first source unicode hshort
  obtain rfl : lexed = lexed' := by
    rw [hran] at hran'
    exact Except.ok.inj hran'
  have hpushed {mid : Lexer source} {taken : List Char} {kind' : SyntaxKind}
      {more : List (SyntaxKind × SyntaxKindInfo)} {eof' : SyntaxKindInfo} (hrun : Moves taken s mid)
      (hsame : lexed.tokens = (mid.pushed kind' mid.info none).lexed.tokens ++ more ++
        [(.END_OF_FILE, eof')]) :
      (s = ready source ∧ taken = source) ∧ kind' = kind := by
    rw [pushed_tokens, hrun.lexed, hempty, htokens] at hsame
    have head := head_eq_of_cons_eq hsame
    obtain ⟨rfl, rfl⟩ : kind = kind' ∧ info = mid.info := by simpa using head
    exact ⟨Single.taken htokens hann hqualifier htext hbefore hrun rfl hshort, rfl⟩
  obtain ⟨eof', hsingle⟩ | ⟨t, more, eof', hstep, hall⟩ := hfirst
  · rw [htokens] at hsingle
    simp at hsingle
  · cases hstep with
    | lower hstart hname hrun =>
      obtain ⟨⟨rfl, hwhole⟩, rfl⟩ := hpushed hrun hall
      rw [hwhole]
      exact .lower hstart hname hwhole
    | upper hstart hrun =>
      obtain ⟨⟨rfl, hwhole⟩, rfl⟩ := hpushed hrun hall
      exact .upper hstart hwhole
    | operator hstart hnoHole hnoComment hrun =>
      obtain ⟨⟨rfl, hwhole⟩, rfl⟩ := hpushed hrun hall
      rw [hwhole]
      exact .operator hstart hnoHole hnoComment hwhole
    | @other _ kind' info' more' hmem hpushedTokens =>
      rw [hpushedTokens, hempty, htokens] at hall
      have head := head_eq_of_cons_eq hall
      obtain ⟨rfl, _⟩ : kind = kind' ∧ info = info' := by simpa using head
      exact absurd hmem hproper

end Backward

/-! ## Characters that start a name -/

section Starts

variable {unicode : UnicodeTables} {c d : Char}

/-- A character of the category is not one outside it. -/
lemma ne_of_category {category : Char → Bool} (h : category c = true)
    (houtside : category d = false) :
    c ≠ d := by
  rintro rfl
  rw [houtside] at h
  contradiction

/-- What the branches before those of names compare the first character with. -/
def punctuation : List Char := ['{', '(', ')', '}', '[', ']', '\x60', ',', '\x27', '\x22']

lemma isLowerStart_of_ascii (hascii : isAscii c = true) :
    unicode.isLowerStart c = (c.isLower || c == '_') := by
  rw [isLowerStart, if_pos hascii]

lemma isUpperStart_of_ascii (hascii : isAscii c = true) : unicode.isUpperStart c = c.isUpper := by
  rw [isUpperStart, if_pos hascii]

lemma isOperator_of_ascii (hascii : isAscii c = true) :
    unicode.isOperator c = decide (c ∈ asciiOperators) := by
  simp [isOperator, hascii]

lemma isWhitespace_of_ascii (hascii : isAscii c = true) :
    unicode.isWhitespace c = (c == ' ' || ('\x09' ≤ c && c ≤ '\x0d')) := by
  simp [isWhitespace, hascii]

/-- The characters outside ASCII are decided by the tables. -/
lemma category_of_not_ascii (hascii : ¬isAscii c = true) :
    unicode.isLowerStart c = unicode.letterLowercase c ∧
    unicode.isUpperStart c = unicode.letterUppercase c ∧
    unicode.isOperator c = unicode.symbol c ∧ unicode.isWhitespace c = unicode.whiteSpace c := by
  have hne {d : Char} (h : isAscii d = true) : c ≠ d := by
    rintro rfl
    exact hascii h
  have hnoOperator : c ∉ asciiOperators := fun hmem =>
    hascii (all_eq_true.mp (show asciiOperators.all isAscii = true from rfl) c hmem)
  have hnoTab : ¬('\x09' ≤ c ∧ c ≤ '\x0d') := fun hbetween => hascii <| by
    have : c.toNat ≤ 13 := hbetween.2
    simp only [isAscii, decide_eq_true_eq]
    omega
  simp [isLowerStart, isUpperStart, isOperator,
    isWhitespace, hascii, hnoOperator, hnoTab, hne (show isAscii ' ' = true from rfl)]

lemma not_mem_punctuation (hascii : ¬isAscii c = true) : c ≠ '-' ∧ c ≠ '?' ∧ c ∉ punctuation := by
  refine ⟨?_, ?_, fun hmem => hascii ?_⟩
  · rintro rfl
    exact hascii rfl
  · rintro rfl
    exact hascii rfl
  · exact all_eq_true.mp (show punctuation.all isAscii = true from rfl) c hmem

lemma exists_ascii (hascii : isAscii c = true) : ∃ n < 128, c = Char.ofNat n :=
  ⟨c.toNat, Nat.lt_succ_of_le (of_decide_eq_true hascii), (Char.ofNat_toNat c).symm⟩

/-- What a character that starts a name or an operator is not. -/
lemma starts_exclude (hseparated : unicode.Separated) (c : Char) :
    (unicode.isLowerStart c = true → unicode.isWhitespace c = false ∧
      unicode.isUpperStart c = false ∧ c ≠ '-' ∧ c ≠ '?' ∧ c ∉ punctuation) ∧
    (unicode.isUpperStart c = true → unicode.isWhitespace c = false ∧
      unicode.isLowerStart c = false ∧ c ≠ '-' ∧ c ≠ '?' ∧ c ∉ punctuation) ∧
    (unicode.isOperator c = true → unicode.isWhitespace c = false ∧
      unicode.isLowerStart c = false ∧ unicode.isUpperStart c = false ∧ c ∉ punctuation) := by
  by_cases hascii : isAscii c = true
  · rw [isLowerStart_of_ascii hascii, isUpperStart_of_ascii hascii, isOperator_of_ascii hascii,
      isWhitespace_of_ascii hascii]
    obtain ⟨n, hsmall, rfl⟩ := exists_ascii hascii
    clear hascii
    refine ⟨?_, ?_, ?_⟩ <;> revert n <;> decide
  · obtain ⟨hlower, hupper, hoperator, hwhite⟩ := @category_of_not_ascii unicode c hascii
    have hmarks := not_mem_punctuation hascii
    rw [hlower, hupper, hoperator, hwhite]
    refine ⟨fun h => ?_, fun h => ⟨hseparated.uppercase c h, ?_, hmarks⟩, fun h => ?_⟩
    · exact ⟨(hseparated.lowercase c h).1, (hseparated.lowercase c h).2, hmarks⟩
    · by_contra hboth
      rw [(hseparated.lowercase c (by simpa using hboth)).2] at h
      contradiction
    · obtain ⟨hwhite, hlower, hupper⟩ := hseparated.symbol c h
      exact ⟨hwhite, hlower, hupper, hmarks.2.2⟩

end Starts

/-! ## Names are lexed as one token -/

section Forward

variable {source : List Char} {unicode : UnicodeTables} {s : Lexer source}

lemma isLowerStart_eof : unicode.isLowerStart EOF_CHAR = false := isLowerStart_of_ascii rfl

lemma ends_takeTokenImpl_lower (hseparated : unicode.Separated)
    (hlower : unicode.isLowerStart s.first = true)
    (hname : s.first = '_' → unicode.isName s.second = true) :
    Ends (takeTokenImpl unicode) s fun _ t => s.Pushes (s.chars.rest.takeWhile unicode.isName)
      (lowerKind (s.chars.rest.takeWhile unicode.isName)) t := by
  obtain ⟨hwhite, _, hminus, hquestion, hmarks⟩ := (starts_exclude hseparated _).1 hlower
  have hnoUnderscore : ¬(s.first = '_' ∧ ¬unicode.isName s.second = true) :=
    fun h => h.2 (hname h.1)
  simp only [punctuation, mem_cons, not_or] at hmarks
  simp only [takeTokenImpl, ends_bind, ends_get, hwhite, hminus, hquestion, hmarks,
    hnoUnderscore, hlower]
  exact ends_takeLower hlower (not_isEof_of_category hlower isLowerStart_eof)

lemma ends_takeTokenImpl_upper (hseparated : unicode.Separated)
    (hupper : unicode.isUpperStart s.first = true) :
    Ends (takeTokenImpl unicode) s fun _ t =>
      s.Pushes (s.first :: s.chars.rest.tail.takeWhile unicode.isName) .UPPER t := by
  obtain ⟨hwhite, hlower, hminus, hquestion, hmarks⟩ := (starts_exclude hseparated _).2.1 hupper
  have hnoUnderscore : s.first ≠ '_' :=
    ne_of_category hupper (isUpperStart_of_ascii (show isAscii '_' = true from rfl))
  simp only [punctuation, mem_cons, not_or] at hmarks
  simp only [takeTokenImpl, ends_bind, ends_get, hwhite, hminus, hquestion, hmarks,
    hnoUnderscore, hlower,
    hupper]
  exact ends_takeUpper (not_isEof_of_category hupper (isUpperStart_eof))

lemma ends_takeTokenImpl_operator (hseparated : unicode.Separated)
    (hoperator : unicode.isOperator s.first = true)
    (hnoHole : s.first = '?' → unicode.isName s.second = false)
    (hnoComment : ¬(s.first = '-' ∧ s.second = '-')) :
    Ends (takeTokenImpl unicode) s fun _ t => s.Pushes (s.chars.rest.takeWhile unicode.isOperator)
      (operatorKind (s.chars.rest.takeWhile unicode.isOperator)) t := by
  obtain ⟨hwhite, hlower, hupper, hmarks⟩ := (starts_exclude hseparated _).2.2 hoperator
  have hnoUnderscore : s.first ≠ '_' :=
    ne_of_category hoperator (isOperator_of_ascii (show isAscii '_' = true from rfl))
  simp only [punctuation, mem_cons, not_or] at hmarks
  simp only [takeTokenImpl, ends_bind, ends_get, hwhite, hnoComment, hmarks, hnoUnderscore, hlower,
    hupper, false_and, if_false, Bool.false_eq_true]
  split
  · exact ends_takeOperator_run hoperator
  · rename_i hname
    have hnotQuestion : s.first ≠ '?' :=
      fun hquestion => hname ⟨hquestion, by simp [hnoHole hquestion]⟩
    rw [if_neg hnotQuestion]
    exact ends_takeOperator_run hoperator

/-- **A text of which nothing comes before the token and all is the token.** -/
lemma single_of_takes {kind : SyntaxKind} (hnonempty : source ≠ [])
    (hshort : byteLength source < 2 ^ 32) (hnoTrivia : ¬StartsTrivia unicode (start source))
    (hnoQualifier : unicode.isUpperStart (start source).first = true →
      ∀ mid, Moves (source.takeWhile unicode.isName) (start source).annotated mid → mid.first ≠ '.')
    (htakes : Ends (takeTokenImpl unicode) (ready source) fun _ t =>
      (ready source).Pushes source kind t) :
    Single unicode source kind := by
  have hbegins : Ends (new unicode) (start source) fun _ t => t = ready source := by
    simp only [new, ends_bind]
    refine (ends_takeAnnotation_none hnoTrivia).mono ?_
    rintro _ _ rfl
    exact ends_takeQualifier_none hnoQualifier
  obtain ⟨lexed, position, hran, hsource_eq, htokens⟩ := lex_oneToken hnonempty hbegins htakes
  have hwhole := slice_whole source
  have hlast : slice source (byteLength source) (byteLength source) = some [] := by
    simpa using slice_append source [] []
  rw [oneToken, asU32_of_lt hshort] at htokens
  refine ⟨lexed, _, _, hran, htokens, ?_⟩
  simp [Lexed.qualifier, Lexed.annotation, Lexed.text, Lexed.previousEnd, Lexed.info, Lexed.infos,
    Lexed.between, htokens, hsource_eq, hwhole, hlast]

lemma isName_eof : unicode.isName EOF_CHAR = false := by
  simp [isName, isAscii, EOF_CHAR]

variable {c : Char} {rest : List Char}

lemma isName_of_isUpperStart (h : unicode.isUpperStart c = true) : unicode.isName c = true := by
  unfold isUpperStart at h
  unfold isName
  split at h
  · rename_i hascii
    unfold Char.isAlphanum Char.isAlpha
    simp [hascii, h]
  · rename_i hascii
    simpa [hascii] using unicode.uppercase_alphanumeric c h

lemma lowerKind_not_mem (source : List Char) :
    lowerKind source ≠ .UPPER ∧ lowerKind source ∉ operatorNameKinds := by
  unfold lowerKind
  split <;> decide

lemma operatorKind_not_mem (source : List Char) :
    operatorKind source ≠ .UPPER ∧ operatorKind source ≠ .LOWER := by
  unfold operatorKind
  split <;> decide

/-- The first character of a text in which the category holds of it. -/
lemma exists_first {category : Char → Bool} (h : category (ready source).first = true)
    (heof : category EOF_CHAR = false) :
    ∃ c rest, source = c :: rest ∧ category c = true := by
  cases source with
  | nil => exact absurd (heof.symm.trans h) (by decide)
  | cons c rest => exact ⟨c, rest, rfl, h⟩

lemma isLowerName_cons :
    isLowerName unicode (c :: rest) = true ↔ c :: rest ≠ ['_'] ∧ unicode.isLowerStart c = true ∧
      (∀ d ∈ rest, unicode.isName d = true) ∧ lowerKind (c :: rest) = .LOWER := by
  simp [isLowerName, and_assoc]

lemma isUpperName_cons :
    isUpperName unicode (c :: rest) = true ↔
      unicode.isUpperStart c = true ∧ ∀ d ∈ rest, unicode.isName d = true := by
  simp [isUpperName]

lemma isOperatorName_cons :
    isOperatorName unicode (c :: rest) = true ↔ ¬['-', '-'] <+: c :: rest ∧
      (∀ d ∈ c :: rest, unicode.isOperator d = true) ∧
      operatorKind (c :: rest) ∈ operatorNameKinds := by
  rw [← isPrefixOf_iff_prefix, Bool.not_eq_true]
  simp [isOperatorName, and_assoc]

/-- What comes first in a text that starts with a character that starts no annotation. -/
lemma not_startsTrivia (hwhite : unicode.isWhitespace c = false)
    (hnoComment : ¬['-', '-'] <+: c :: rest) (hnoBlock : c ∉ punctuation) :
    ¬StartsTrivia unicode (start (c :: rest)) := by
  rintro (hspace | ⟨hfirst, hsecond⟩ | ⟨hfirst, _⟩)
  · exact absurd (hwhite.symm.trans hspace) (by decide)
  · obtain rfl : c = '-' := hfirst
    cases rest with
    | nil => exact absurd hsecond (by decide)
    | cons d rest =>
      obtain rfl : d = '-' := hsecond
      exact hnoComment ⟨rest, rfl⟩
  · obtain rfl : c = '{' := hfirst
    exact hnoBlock (by decide)

lemma not_comment_of_ne (h : c ≠ '-') : ¬['-', '-'] <+: c :: rest := by
  rintro ⟨more, hsame⟩
  exact h (head_eq_of_cons_eq hsame).symm

/-- **Lower names are the texts that are one lower token.** -/
theorem single_lower_iff (hseparated : unicode.Separated) :
    Single unicode source .LOWER ↔
      isLowerName unicode source = true ∧ byteLength source < 2 ^ 32 := by
  constructor
  · intro hsingle
    refine ⟨?_, hsingle.short⟩
    generalize hkind_eq : SyntaxKind.LOWER = kind at hsingle
    cases hsingle.nameText (by rw [← hkind_eq]; decide) with
    | lower hstart hname hall =>
      obtain ⟨c, rest, rfl, hfirst⟩ := exists_first hstart isLowerStart_eof
      have hnames := takeWhile_eq_self_iff.mp hall
      refine isLowerName_cons.mpr ⟨?_, hfirst, fun d hmem => hnames d (.tail c hmem), hkind_eq.symm⟩
      rintro ⟨⟩
      exact absurd (isName_eof.symm.trans (hname rfl)) (by decide)
    | upper => contradiction
    | operator => exact absurd hkind_eq.symm (operatorKind_not_mem source).2
  · rintro ⟨hname, hshort⟩
    obtain _ | ⟨c, rest⟩ := source
    · simp [isLowerName] at hname
    obtain ⟨hnotAlone, hlower, hnames, hkind⟩ := isLowerName_cons.mp hname
    obtain ⟨hwhite, hupper, hminus, _, hmarks⟩ := (starts_exclude hseparated _).1 hlower
    have hall : (c :: rest).takeWhile unicode.isName = c :: rest :=
      takeWhile_eq_self_iff.mpr fun d hmem => (mem_cons.mp hmem).elim
        (fun hsame => hsame ▸ isName_of_isLowerStart hlower) (hnames d)
    refine single_of_takes (cons_ne_nil c rest) hshort
      (not_startsTrivia hwhite (not_comment_of_ne hminus) hmarks)
      (fun hfirst => absurd (hupper.symm.trans hfirst) (by decide)) ?_
    have hrun := @ends_takeTokenImpl_lower _ unicode (ready (c :: rest)) hseparated hlower ?_
    · rw [show (ready (c :: rest)).chars.rest = c :: rest from rfl, hall, hkind] at hrun
      exact hrun
    · intro hunderscore
      cases rest with
      | nil => exact absurd (congrArg (· :: []) hunderscore) hnotAlone
      | cons d rest => exact hnames d (.head rest)

/-- **Upper names are the texts that are one upper token.** -/
theorem single_upper_iff (hseparated : unicode.Separated) :
    Single unicode source .UPPER ↔
      isUpperName unicode source = true ∧ byteLength source < 2 ^ 32 := by
  constructor
  · intro hsingle
    refine ⟨?_, hsingle.short⟩
    generalize hkind_eq : SyntaxKind.UPPER = kind at hsingle
    cases hsingle.nameText (by rw [← hkind_eq]; decide) with
    | lower => exact absurd hkind_eq.symm (lowerKind_not_mem source).1
    | upper hstart hall =>
      obtain ⟨c, rest, rfl, hfirst⟩ := exists_first hstart isUpperStart_eof
      have htail : rest.takeWhile unicode.isName = rest := tail_eq_of_cons_eq hall
      exact isUpperName_cons.mpr ⟨hfirst, takeWhile_eq_self_iff.mp htail⟩
    | operator => exact absurd hkind_eq.symm (operatorKind_not_mem source).1
  · rintro ⟨hname, hshort⟩
    obtain _ | ⟨c, rest⟩ := source
    · simp [isUpperName] at hname
    obtain ⟨hupper, hnames⟩ := isUpperName_cons.mp hname
    obtain ⟨hwhite, _, hminus, _, hmarks⟩ := (starts_exclude hseparated _).2.1 hupper
    have htail : rest.takeWhile unicode.isName = rest := takeWhile_eq_self_iff.mpr hnames
    have hall : (c :: rest).takeWhile unicode.isName = c :: rest := by
      rw [takeWhile_cons_of_pos (isName_of_isUpperStart hupper), htail]
    refine single_of_takes (cons_ne_nil c rest) hshort
      (not_startsTrivia hwhite (not_comment_of_ne hminus) hmarks) (fun _ mid hrun => ?_) ?_
    · -- all of the text is a name, and no period comes after it
      have hended : mid.chars.rest = [] := by
        have hchars := hrun.chars
        rw [hall] at hchars
        simpa [start, annotated] using hchars
      rw [first_eq, hended]
      decide
    · have hrun := @ends_takeTokenImpl_upper _ unicode (ready (c :: rest)) hseparated hupper
      rw [show (ready (c :: rest)).chars.rest.tail = rest from rfl, htail] at hrun
      exact hrun

/-- The text starts with a question mark and a character of a name. -/
def startsLikeHole (unicode : UnicodeTables) : List Char → Bool
  | '?' :: c :: _ => unicode.isName c
  | _ => false

/-- **Operator names are the texts that are one such operator, unless they start like a hole.** -/
theorem single_operator_iff (hseparated : unicode.Separated) :
    (∃ kind ∈ operatorNameKinds, Single unicode source kind) ↔
      isOperatorName unicode source = true ∧ byteLength source < 2 ^ 32 ∧
        startsLikeHole unicode source = false := by
  constructor
  · rintro ⟨kind, hmem, hsingle⟩
    refine ⟨?_, hsingle.short, ?_⟩
    all_goals cases hsingle.nameText ((by decide : ∀ k ∈ operatorNameKinds, k ∉ otherKinds) _ hmem)
    case refine_1.lower | refine_2.lower => exact absurd hmem (lowerKind_not_mem source).2
    case refine_1.upper | refine_2.upper => exact absurd hmem (by decide)
    case refine_1.operator hstart hnoHole hnoComment hall =>
      obtain ⟨c, rest, rfl, hfirst⟩ := exists_first hstart isOperator_eof
      refine isOperatorName_cons.mpr ⟨?_, takeWhile_eq_self_iff.mp hall, hmem⟩
      rintro ⟨more, hsame⟩
      rw [← hsame] at hnoComment
      exact hnoComment ⟨rfl, rfl⟩
    case refine_2.operator hstart hnoHole hnoComment hall =>
      unfold startsLikeHole
      split
      · exact hnoHole rfl
      · rfl
  · rintro ⟨hname, hshort, hnoHole⟩
    obtain _ | ⟨c, rest⟩ := source
    · simp [isOperatorName] at hname
    obtain ⟨hnoComment, hoperators, hmem⟩ := isOperatorName_cons.mp hname
    have hoperator := hoperators c (.head rest)
    obtain ⟨hwhite, _, hupper, hmarks⟩ := (starts_exclude hseparated _).2.2 hoperator
    have hall : (c :: rest).takeWhile unicode.isOperator = c :: rest :=
      takeWhile_eq_self_iff.mpr hoperators
    have hnoTrivia := not_startsTrivia hwhite hnoComment hmarks
    refine ⟨_, hmem, single_of_takes (cons_ne_nil c rest) hshort hnoTrivia
      (fun hfirst => absurd (hupper.symm.trans hfirst) (by decide)) ?_⟩
    have hrun :=
      @ends_takeTokenImpl_operator _ unicode (ready (c :: rest)) hseparated hoperator ?_ ?_
    · rw [show (ready (c :: rest)).chars.rest = c :: rest from rfl, hall] at hrun
      exact hrun
    · intro hquestion
      obtain rfl : c = '?' := hquestion
      cases rest with
      | nil => exact isName_eof
      | cons d rest => exact hnoHole
    · exact fun hcomment => hnoTrivia (.inr (.inl hcomment))

end Forward

/-! ## Operators in parentheses -/

section Parentheses

variable {unicode : UnicodeTables} {source : List Char}

/-- The text in parentheses. -/
def parenthesised (source : List Char) : List Char := '(' :: (source ++ [')'])

/-- The kinds of tokens that name an operator in parentheses. -/
def parenthesisedKinds : List SyntaxKind := [.OPERATOR_NAME, .DOUBLE_PERIOD_OPERATOR_NAME]

lemma ends_takeTokenImpl_parenthesised {c : Char} {rest : List Char}
    (hoperators : ∀ d ∈ c :: rest, unicode.isOperator d = true)
    (hnoComment : ¬['-', '-'] <+: c :: rest) :
    ∃ kind ∈ parenthesisedKinds, Ends (takeTokenImpl unicode) (ready (parenthesised (c :: rest)))
      fun _ t => (ready _).Pushes (parenthesised (c :: rest)) kind t := by
  -- The run finds the kind.
  apply Exists.intro
  apply And.intro
  swap
  have hfirst : (ready (parenthesised (c :: rest))).first = '(' := rfl
  have hnotEof : (ready (parenthesised (c :: rest))).isEof = false := rfl
  have hwhite : unicode.isWhitespace '(' = false := isWhitespace_of_ascii rfl
  have hnotMinus : ('(' : Char) ≠ '-' := by decide
  have hnotCurly : ('(' : Char) ≠ '{' := by decide
  simp only [takeTokenImpl, ends_bind, ends_get, hfirst, hwhite, hnotMinus, hnotCurly, false_and,
    if_false, if_true, Bool.false_eq_true]
  simp only [takeOperatorNameOrLeftParenthesis, pushInfo, ends_bind, ends_get, ends_ite,
    ends_modify]
  refine (ends_take hnotEof).mono fun _ left hone => ?_
  have hchars : left.chars.rest = c :: (rest ++ [')']) := (tail_eq_of_cons_eq hone.2.chars).symm
  have hoperator : unicode.isOperator left.first = true := by
    rw [first_eq, hchars]
    exact hoperators c (.head rest)
  refine ⟨fun hrejected => ?_, fun _ => ?_⟩
  · obtain hother | ⟨hminus, hminus', _⟩ := hrejected
    · exact absurd hoperator hother
    · -- two dashes would be a comment also without the parentheses
      rw [first_eq, hchars] at hminus
      rw [second_eq, hchars] at hminus'
      obtain rfl : c = '-' := hminus
      cases rest with
      | nil => exact absurd hminus' (by decide)
      | cons d rest =>
        obtain rfl : d = '-' := hminus'
        exact absurd ⟨rest, rfl⟩ hnoComment
  · have hrun : left.chars.rest.takeWhile unicode.isOperator = c :: rest := by
      have hclose : unicode.isOperator ')' = false := isOperator_of_ascii rfl
      rw [hchars, ← cons_append, takeWhile_append_of_pos hoperators]
      simp [hclose]
    refine (ends_takeOperatorKind hoperator).mono ?_
    rintro _ mid ⟨_, _, htext, rfl⟩
    rw [hrun] at htext ⊢
    have hclosed : mid.first = ')' := by
      have hafter := htext.chars
      rw [hchars, ← cons_append] at hafter
      rw [first_eq, ← append_cancel_left hafter]
      rfl
    refine ⟨fun hunclosed => absurd hclosed hunclosed, fun _ => ?_⟩
    refine (ends_take (not_isEof_of_first hclosed (by decide))).mono fun _ right hone' => ?_
    have hall := hone.2.trans (htext.trans hone'.2)
    have hinfo : { left.info with
        token := asU32 right.consumed,
        position := (ready (parenthesised (c :: rest))).qualifierPosition } = right.info := by
      simp [Lexer.info, hall.annotation, hall.qualifier, hall.qualifierPosition,
        Moves.annotation hone.2, hone.2.qualifier]
    rw [hinfo]
    rw [hclosed] at hall
    exact ⟨right, hall, hall.progresses (by simp), rfl⟩
  split <;> decide

/-- **An operator name in parentheses is one token.** -/
theorem single_parenthesised_iff (hname : isOperatorName unicode source = true) :
    (∃ kind ∈ parenthesisedKinds, Single unicode (parenthesised source) kind) ↔
      byteLength source + 2 < 2 ^ 32 := by
  have hlength : byteLength (parenthesised source) = byteLength source + 2 := by
    simp only [parenthesised, byteLength_cons, byteLength_append, byteLength_nil,
      show Char.utf8Size '(' = 1 from rfl, show Char.utf8Size ')' = 1 from rfl]
    omega
  rw [← hlength]
  constructor
  · rintro ⟨kind, _, hsingle⟩
    exact hsingle.short
  · intro hshort
    obtain _ | ⟨c, rest⟩ := source
    · simp [isOperatorName] at hname
    obtain ⟨hnoComment, hoperators, _⟩ := isOperatorName_cons.mp hname
    obtain ⟨kind, hmem, htakes⟩ := ends_takeTokenImpl_parenthesised hoperators hnoComment
    refine ⟨kind, hmem, single_of_takes (cons_ne_nil _ _) hshort ?_ (fun hupper => ?_) htakes⟩
    · rintro (hspace | ⟨hfirst, _⟩ | ⟨hfirst, _⟩)
      · exact absurd ((@isWhitespace_of_ascii unicode '(' rfl).symm.trans hspace) (by decide)
      · exact absurd (show '(' = '-' from hfirst) (by decide)
      · exact absurd (show '(' = '{' from hfirst) (by decide)
    · exact absurd ((@isUpperStart_of_ascii unicode '(' rfl).symm.trans hupper) (by decide)

end Parentheses

/-! ## Agreement -/

section Agreement

variable {unicode : UnicodeTables} {source : List Char}

/-- The predicates say of the text what the lexer makes of it. -/
structure NamesAgree (unicode : UnicodeTables) (source : List Char) : Prop where
  lower : isLowerName unicode source = true ↔ Single unicode source .LOWER
  upper : isUpperName unicode source = true ↔ Single unicode source .UPPER
  operator : isOperatorName unicode source = true ↔
    ∃ kind ∈ operatorNameKinds, Single unicode source kind
  parenthesised : isOperatorName unicode source = true →
    ∃ kind ∈ parenthesisedKinds, Single unicode (parenthesised source) kind

/-- **The predicates agree with the lexer on every text that its offsets can count and that is no
operator that starts like a hole.** -/
theorem namesAgree_iff (hseparated : unicode.Separated) (source : List Char) :
    NamesAgree unicode source ↔
      (isLowerName unicode source = true ∨ isUpperName unicode source = true →
        byteLength source < 2 ^ 32) ∧
      (isOperatorName unicode source = true →
        byteLength source + 2 < 2 ^ 32 ∧ startsLikeHole unicode source = false) := by
  constructor
  · intro hagree
    refine ⟨?_, fun hname => ⟨?_, ?_⟩⟩
    · rintro (hname | hname)
      · exact (hagree.lower.mp hname).short
      · exact (hagree.upper.mp hname).short
    · exact (single_parenthesised_iff hname).mp (hagree.parenthesised hname)
    · exact ((single_operator_iff hseparated).mp (hagree.operator.mp hname)).2.2
  · rintro ⟨hshort, hproper⟩
    refine ⟨?_, ?_, ?_, fun hname => (single_parenthesised_iff hname).mpr (hproper hname).1⟩
    · rw [single_lower_iff hseparated]
      exact ⟨fun hname => ⟨hname, hshort (.inl hname)⟩, And.left⟩
    · rw [single_upper_iff hseparated]
      exact ⟨fun hname => ⟨hname, hshort (.inr hname)⟩, And.left⟩
    · rw [single_operator_iff hseparated]
      refine ⟨fun hname => ⟨hname, ?_, (hproper hname).2⟩, And.left⟩
      exact Nat.lt_of_le_of_lt (Nat.le_add_right _ 2) (hproper hname).1

lemma asciiTables_separated : asciiTables.Separated where
  lowercase c h := by simp [asciiTables] at h
  uppercase c h := by simp [asciiTables] at h
  symbol c _ := ⟨rfl, rfl, rfl⟩

/-- The operator of `map`, in a text of ASCII characters. -/
theorem namesAgree_map : NamesAgree asciiTables "<$>".toList :=
  (namesAgree_iff asciiTables_separated _).mpr (by decide +kernel)

/-- The tables of a text with circled letters, which are symbols and alphanumeric. -/
def circledTables : UnicodeTables :=
  { asciiTables with
    alphanumeric := (· == 'Ⓐ')
    symbol := (· == 'Ⓐ')
    lowercase_alphanumeric := fun _ h => by simp [asciiTables] at h
    uppercase_alphanumeric := fun _ h => by simp [asciiTables] at h }

/-- **A question mark before a circled letter is an operator name that is lexed as a hole.** -/
theorem not_namesAgree_circled :
    circledTables.Separated ∧ isOperatorName circledTables ['?', 'Ⓐ'] = true ∧
      (lex circledTables ['?', 'Ⓐ']).map Lexed.kinds = .ok [.HOLE, .END_OF_FILE] ∧
      ¬NamesAgree circledTables ['?', 'Ⓐ'] := by
  have hname : isOperatorName circledTables ['?', 'Ⓐ'] = true := by decide +kernel
  have hole : (lex circledTables ['?', 'Ⓐ']).map Lexed.kinds = .ok [.HOLE, .END_OF_FILE] := by
    decide +kernel
  refine ⟨?_, hname, hole, fun hagree => ?_⟩
  · exact {
      lowercase := fun c h => by simp [circledTables, asciiTables] at h
      uppercase := fun c h => by simp [circledTables, asciiTables] at h
      symbol := fun c _ => ⟨rfl, rfl, rfl⟩ }
  · obtain ⟨kind, hmem, lexed, info, eof, hran, htokens, _⟩ := hagree.operator.mp hname
    rw [hran] at hole
    obtain rfl : kind = .HOLE := by simpa [Except.map, Lexed.kinds, htokens] using hole
    exact absurd hmem (by decide)

end Agreement

end Iris.Lexing
