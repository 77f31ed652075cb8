import IrisCompiler.Lexing.Lossless

/-!
# The first token of a text

From what `take_token_impl` pushes first (`NameStep`) follow the two directions in which a whole run
is read.  A text of which the first token is all is lexed as that token (`lex_oneToken`), and the
tokens of a text begin with what the first step pushed (`lex_first`).
-/

namespace Iris.Lexing

open ByteText TotalRun Lexer

section First

variable {source : List Char} {unicode : UnicodeTables} {s t : Lexer source}

/-! ## Texts of one token -/

lemma ends_takeAnnotation_none (hnone : ¬StartsTrivia unicode s) :
    Ends (do takeAnnotation unicode) s fun _ t => t = s.annotated := by
  simp only [ends_bind, takeAnnotation, ends_modify]
  refine Ends.of_imp (fun _ t => t = s) (fun _ t hsame => by rw [hsame])
    (Ends.repeatLoop (fun _ t => t = s) ?_ rfl)
  rintro _ s rfl
  obtain ⟨hwhite, hline, hblock⟩ : ¬unicode.isWhitespace s.first = true ∧
      ¬(s.first = '-' ∧ s.second = '-') ∧ ¬(s.first = '{' ∧ s.second = '-') := by
    simpa [StartsTrivia] using hnone
  simp [if_neg hwhite, if_neg hline, if_neg hblock]

/-- A text that starts with no module name has no qualifier. -/
lemma ends_takeQualifier_none (hnone : unicode.isUpperStart s.first = true → ∀ mid,
      Moves (s.chars.rest.takeWhile unicode.isName) s mid → mid.first ≠ '.') :
    Ends (takeQualifier unicode) s fun _ t => t = s.qualified := by
  simp only [takeQualifier, ends_bind, ends_modify]
  refine Ends.of_imp (fun _ t => t = s) (fun _ t hsame => by rw [hsame])
    (Ends.repeatLoop (fun _ t => t = s) ?_ rfl)
  rintro _ s rfl
  simp only [ends_bind, ends_get, ends_ite, ends_pure, ends_modify]
  refine ⟨fun hupper => (ends_takeWhile _ s).mono fun _ mid hrun =>
    ⟨fun hperiod => ?_, fun _ => ?_⟩,
    fun _ => trivial⟩
  · exact absurd hperiod (hnone hupper mid hrun)
  · rw [hrun.lexed]

/-- Nothing comes at the end. -/
lemma ends_new_eof (heof : s.isEof = true) :
    Ends (new unicode) s fun _ t => t = s.annotated.qualified := by
  have hrest : s.chars.rest = [] := by simpa [isEof] using heof
  have hfirst : s.first = EOF_CHAR := by rw [first_eq, hrest]; rfl
  simp only [new, ends_bind]
  refine (ends_takeAnnotation_none ?_).mono ?_
  · rintro (hwhite | hline | hblock)
    · rw [hfirst] at hwhite
      exact absurd hwhite (by simp [EOF_CHAR, UnicodeTables.isWhitespace_eof])
    · exact absurd (hfirst.symm.trans hline.1) (by decide)
    · exact absurd (hfirst.symm.trans hblock.1) (by decide)
  · rintro _ _ rfl
    refine ends_takeQualifier_none fun hupper => ?_
    have hupper : unicode.isUpperStart s.first = true := hupper
    rw [hfirst] at hupper
    exact absurd hupper (by simp [EOF_CHAR, UnicodeTables.isUpperStart_eof])

/-- The state in which the first token is taken, if no annotation and no qualifier come first. -/
def ready (source : List Char) : Lexer source := (start source).annotated.qualified

/-- The tokens of a text that is one token. -/
def oneToken (source : List Char) (kind : SyntaxKind) (position : Position) :
    List (SyntaxKind × SyntaxKindInfo) :=
  let stop := asU32 (byteLength source)
  [(kind, ⟨0, 0, stop, ⟨1, 1⟩⟩), (.END_OF_FILE, ⟨stop, stop, stop, position⟩)]

/-- **A text whose first token is all of it.** -/
lemma lex_oneToken {kind : SyntaxKind} (hnonempty : source ≠ [])
    (hbegins : Ends (new unicode) (start source) fun _ t => t = ready source)
    (htakes : Ends (takeTokenImpl unicode) (ready source) fun _ t =>
      (ready source).Pushes source kind t) :
    ∃ lexed position, lex unicode source = .ok lexed ∧ lexed.source = source ∧
      lexed.tokens = oneToken source kind position := by
  -- after the token the lexer is at the end
  let done (t : Lexer source) : Prop := t.isEof = true ∧ ∃ mid, Moves source (ready source) mid ∧
    t = (mid.pushed kind mid.info none).annotated.qualified
  have hone : Ends (takeToken unicode) (ready source) fun _ t => done t := by
    change Ends (do takeTokenImpl unicode; new unicode) _ _
    rw [ends_bind]
    refine htakes.mono ?_
    rintro _ _ ⟨mid, hrun, -, rfl⟩
    have hrest : mid.chars.rest = [] := by
      have := hrun.chars
      simpa [ready, start, annotated, qualified] using this
    refine (ends_new_eof (by simpa [isEof, pushed] using hrest)).mono ?_
    rintro _ _ rfl
    exact ⟨by simpa [isEof, pushed, annotated, qualified] using hrest, mid, hrun, rfl⟩
  have hnotEof : (ready source).isEof = false := by
    simpa [isEof, ready, start, annotated, qualified] using hnonempty
  have hrun := @lex_run source unicode (fun t => t = ready source ∨ done t) (fun lexed =>
    lexed.source = source ∧ ∃ position, lexed.tokens = oneToken source kind position)
    (hbegins.mono fun _ _ => .inl) ?_ ?_
  · obtain ⟨lexed, hran, hsource_eq, position, htokens⟩ := hrun
    exact ⟨lexed, position, hran, hsource_eq, htokens⟩
  · rintro t (rfl | ⟨heof, _⟩) hmore
    · exact hone.mono fun _ u => .inr
    · simp [heof] at hmore
  · rintro _ error (rfl | ⟨_, mid, hrun, rfl⟩) hstopped
    · simp [hnotEof] at hstopped
    have hconsumed : mid.consumed = byteLength source := by
      rw [hrun.consumed]
      simp [ready, start, annotated, qualified, Lexer.consumed]
    have hinfo : mid.info = ⟨0, 0, asU32 (byteLength source), ⟨1, 1⟩⟩ := by
      rw [Lexer.info, hrun.annotation, hrun.qualifier, hrun.qualifierPosition, hconsumed]
      simp [ready, start, annotated, qualified, Lexer.consumed, asU32]
    have hlexed : mid.lexed = .new source := hrun.lexed
    generalize hlast_eq : (mid.pushed kind mid.info none).annotated.qualified = last
    have hlastTokens : last.lexed.tokens = [(kind, mid.info)] := by
      rw [← hlast_eq]
      exact (pushed_tokens mid kind mid.info none).trans (by rw [hlexed]; rfl)
    have hlastSource : last.lexed.source = source := by
      rw [← hlast_eq]
      exact (pushed_source mid kind mid.info none).trans (by rw [hlexed]; rfl)
    have hlastInfo : last.info =
        ⟨asU32 mid.consumed, asU32 mid.consumed, asU32 mid.consumed, mid.currentPosition⟩ := by
      rw [← hlast_eq]
      rfl
    refine ⟨(pushed_source _ _ _ _).trans hlastSource, mid.currentPosition,
      (pushed_tokens _ _ _ _).trans ?_⟩
    rw [hlastTokens, hlastInfo, hconsumed, hinfo]
    rfl

/-! ## What one token says about the text -/

/-- Before the first token: nothing was taken, or the offsets say so. -/
lemma ends_new_start (hshort : byteLength source < 2 ^ 32) :
    Ends (new unicode) (start source) fun _ t => t.lexed = .new source ∧
      (t = ready source ∨ 0 < t.annotation ∨ t.annotation < t.qualifier) := by
  refine (ends_new unicode (start source)).mono ?_
  rintro _ _ ⟨mid, last, htrivia, _, hname, rfl⟩
  have hzero : (start source).consumed = 0 := by simp [start, Lexer.consumed]
  obtain ⟨taken, hmoves⟩ := htrivia.exists_moves
  obtain ⟨taken', hmoves'⟩ := hname.exists_moves
  refine ⟨hmoves'.lexed.trans hmoves.lexed, ?_⟩
  have hann : last.qualified.annotation = mid.consumed :=
    hmoves'.annotation.trans (asU32_consumed hshort mid)
  have hqualifier : last.qualified.qualifier = last.consumed := asU32_consumed hshort last
  obtain rfl | hprogress := htrivia
  · obtain rfl | hprogress := hname
    · exact .inl rfl
    · refine .inr (.inr ?_)
      rw [hann, hqualifier]
      exact hprogress.consumed_lt
  · refine .inr (.inl ?_)
    rw [hann, ← hzero]
    exact hprogress.consumed_lt

/-- Taking the next annotation and qualifier pushes nothing. -/
lemma ends_new_lexed (unicode : UnicodeTables) (s : Lexer source) :
    Ends (new unicode) s fun _ t => t.lexed = s.lexed := by
  refine (ends_new unicode s).mono ?_
  rintro _ _ ⟨mid, last, htrivia, _, hname, rfl⟩
  obtain ⟨_, hmoves⟩ := htrivia.exists_moves
  obtain ⟨_, hmoves'⟩ := hname.exists_moves
  exact hmoves'.lexed.trans hmoves.lexed

lemma TokenStep.exists_tokens (h : TokenStep unicode s t) :
    ∃ more, t.lexed.tokens = s.lexed.tokens ++ more := by
  cases h with
  | stop message htrivia => exact ⟨_, pushed_tokens _ _ _ _⟩
  | token error htext hinner =>
    obtain ⟨_, _, hmoves⟩ := htext
    exact ⟨_, (pushed_tokens _ _ _ _).trans (by rw [hmoves.lexed])⟩
  | @parenthesis left mid kind op hfirst htext hinner hrun hoperator hnoComment _ _ _ _ =>
    obtain ⟨_, _, hmoves⟩ := hfirst
    refine ⟨[(.LEFT_PARENTHESIS, left.info)] ++ [(kind, op)], ?_⟩
    rw [pushed_tokens, pushed_tokens, hrun.lexed, hmoves.lexed, List.append_assoc]

/-- The tokens of a whole run begin with what the first step pushed. -/
lemma lex_first (hshort : byteLength source < 2 ^ 32) :
    ∃ lexed, lex unicode source = .ok lexed ∧ ∃ s : Lexer source, s.lexed = .new source ∧
      (s = ready source ∨ 0 < s.annotation ∨ s.annotation < s.qualifier) ∧
      ((∃ eof, lexed.tokens = [(.END_OF_FILE, eof)]) ∨
        ∃ t more eof, NameStep unicode s t ∧
          lexed.tokens = t.lexed.tokens ++ more ++ [(.END_OF_FILE, eof)]) := by
  refine @lex_run source unicode (fun t => ∃ s : Lexer source, s.lexed = .new source ∧
    (s = ready source ∨ 0 < s.annotation ∨ s.annotation < s.qualifier) ∧
    (t = s ∨ ∃ u more, NameStep unicode s u ∧ t.lexed.tokens = u.lexed.tokens ++ more)) _
    ((ends_new_start hshort).mono fun _ s ⟨hempty, hbefore⟩ => ⟨s, hempty, hbefore, .inl rfl⟩) ?_ ?_
  · -- after the first token only more are pushed
    rintro t ⟨s, hempty, hbefore, hso⟩ hnotEof
    change Ends (do takeTokenImpl unicode; new unicode) _ _
    rw [ends_bind]
    refine (ends_takeTokenImpl_takes hnotEof).mono fun _ pushed ⟨htaken, hstep⟩ => ?_
    refine (ends_new_lexed unicode pushed).mono fun _ v hsame => ⟨s, hempty, hbefore, .inr ?_⟩
    obtain rfl | ⟨u, more, hstep, htokens⟩ := hso
    · exact ⟨pushed, [], hstep, by rw [hsame, List.append_nil]⟩
    · obtain ⟨more', htokens'⟩ := TokenStep.exists_tokens htaken
      exact ⟨u, more ++ more', hstep, by rw [hsame, htokens', htokens, List.append_assoc]⟩
  · rintro t error ⟨s, hempty, hbefore, hso⟩ -
    refine ⟨s, hempty, hbefore, ?_⟩
    obtain rfl | ⟨u, more, hstep, htokens⟩ := hso
    · refine .inl ⟨t.info, (pushed_tokens _ _ _ _).trans ?_⟩
      rw [hempty]
      rfl
    · exact .inr ⟨u, more, t.info, hstep, (pushed_tokens _ _ _ _).trans (by rw [htokens])⟩

/-- The end offsets of all tokens are below `2 ^ 32`. -/
def Bounded (s : Lexer source) : Prop := ∀ token ∈ s.lexed.tokens, token.2.token < 2 ^ 32

lemma Bounded.pushed (h : Bounded s) (kind : SyntaxKind) {info : SyntaxKindInfo}
    (hbound : info.token < 2 ^ 32) (error : Option String) :
    Bounded (s.pushed kind info error) := by
  intro token hmem
  rw [pushed_tokens, List.mem_append, List.mem_singleton] at hmem
  obtain hmem | rfl := hmem
  · exact h token hmem
  · exact hbound

lemma asU32_lt (n : ℕ) : asU32 n < 2 ^ 32 := Nat.mod_lt _ (Nat.two_pow_pos 32)

lemma Bounded.step (h : Bounded s) (step : TokenStep unicode s t) : Bounded t := by
  have hmoved {u : Lexer source} (hprogress : Progresses s u) : Bounded u := by
    obtain ⟨_, _, hmoves⟩ := hprogress
    unfold Bounded
    rw [hmoves.lexed]
    exact h
  cases step with
  | stop message htrivia => exact h.pushed _ (asU32_lt _) _
  | token error htext hinner => exact (hmoved htext).pushed _ (asU32_lt _) _
  | parenthesis hfirst htext hinner hrun hoperator hnoComment _ _ htoken _ =>
    refine ((hmoved (hfirst.trans htext)).pushed _ (asU32_lt _) _).pushed _ ?_ _
    rw [htoken]
    exact asU32_lt _

lemma lex_bounded {lexed : Lexed} (h : lex unicode source = .ok lexed) :
    ∀ token ∈ lexed.tokens, token.2.token < 2 ^ 32 := by
  have hkept {s t : Lexer source} (hbounded : Bounded s) (hsame : t.lexed = s.lexed) :
      Bounded t := by
    unfold Bounded
    rw [hsame]
    exact hbounded
  have hnone : Bounded (start source) := fun token hmem =>
    absurd hmem (by simp [start, LexedBuilder.new])
  obtain ⟨_, hran, hbounded⟩ := @lex_run source unicode Bounded
    (fun lexed => ∀ token ∈ lexed.tokens, token.2.token < 2 ^ 32)
    ((ends_new_lexed unicode _).mono fun _ _ => hkept hnone)
    (fun s hbounded hnotEof => ends_takeToken_of hnotEof fun u hstep =>
      (ends_new_lexed unicode u).mono fun _ _ => hkept (hbounded.step hstep))
    fun s error hbounded _ => hbounded.pushed _ (asU32_lt _) error
  cases hran.symm.trans h
  exact hbounded

end First

end Iris.Lexing
