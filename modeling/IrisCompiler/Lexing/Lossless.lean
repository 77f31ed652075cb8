import IrisCompiler.Lexing.TokenSteps

/-!
# The lexer loses nothing

The tokens of a source text cut it into adjacent pieces: annotation, qualifier and text of the first
token, then of the second, up to the end-of-file token, which ends where the source ends.  A run of
the lexer alternates between two kinds of state.  `Pushed` holds after a token has been pushed,
`Ready` after the annotation and the qualifier of the next one have been taken.  `TokenStep` leads
from `Ready` to `Pushed`, the trivia back to `Ready`, and `finish` adds the last token.
-/

namespace Iris.Lexing

open ByteText TotalRun

/-! ## What losslessness means -/

/-- The end offsets of all tokens: annotation, qualifier and text of each, in order. -/
def endOffsets (tokens : List (SyntaxKind × SyntaxKindInfo)) : List ℕ :=
  tokens.flatMap fun token =>
    SyntaxKindInfo.annotation token.2 :: [token.2.qualifier, token.2.token]

namespace Lexed

variable (self : Lexed)

/-- Annotation, qualifier and text of the token at `index`, one after the other. -/
def piece (index : ℕ) : Option (List Char) := do
  let annotation ← self.annotation index
  let qualifier ← self.qualifier index
  let text ← self.text index
  return annotation.getD [] ++ qualifier.getD [] ++ text

/-- The pieces of all tokens, one after the other. -/
def concatenation : Option (List Char) := do
  let pieces ← (List.range self.len).mapM self.piece
  return pieces.flatten

end Lexed

/-- The tokens reproduce the source, cut at character boundaries. -/
structure Lossless (source : List Char) (lexed : Lexed) : Prop where
  source_eq : lexed.source = source
  ordered : (endOffsets lexed.tokens).Pairwise (· ≤ ·)
  boundaries : ∀ offset ∈ endOffsets lexed.tokens, IsBoundary source offset
  qualifiers : (lexed.tokens.map fun token => token.2.qualifier).Pairwise (· < ·)
  endOfFile : ∃ front info, lexed.tokens = front ++ [(.END_OF_FILE, info)] ∧
    (∀ token ∈ front, token.1 ≠ .END_OF_FILE) ∧ info.token = byteLength source
  concatenation : lexed.concatenation = some source

/-! ## Adjacent pieces -/

namespace Lexed

variable {lexed : Lexed}

lemma between_of_slice {low high : ℕ} {run : List Char}
    (h : slice lexed.source low high = some run) :
    ∃ piece, lexed.between low high = some piece ∧ piece.getD [] = run := by
  unfold between
  split_ifs with room
  · exact ⟨some run, by simp [h], rfl⟩
  · cases hdrop : dropBytes low lexed.source <;> simp_all [slice, takeBytes]

lemma between_eq_slice {low high : ℕ} (hlow : IsBoundary lexed.source low)
    (hhigh : IsBoundary lexed.source high) (horder : low ≤ high) :
    ∃ piece, lexed.between low high = some piece ∧
      slice lexed.source low high = some (piece.getD []) := by
  obtain ⟨text, hcut⟩ := exists_slice hlow hhigh horder
  obtain ⟨piece, hfound, rfl⟩ := between_of_slice hcut
  exact ⟨piece, hfound, hcut⟩

variable {index : ℕ} {info : SyntaxKindInfo}

/-- One token's piece is the source from the end of the token before it to its own end. -/
lemma piece_eq_slice {low : ℕ} (hprevious : lexed.previousEnd index = some low)
    (here : lexed.info index = some info) (hlow : IsBoundary lexed.source low)
    (hann : IsBoundary lexed.source info.annotation)
    (hqualifier : IsBoundary lexed.source info.qualifier)
    (htoken : IsBoundary lexed.source info.token) (hfirst : low ≤ info.annotation)
    (hsecond : info.annotation ≤ info.qualifier) (hthird : info.qualifier ≤ info.token) :
    ∃ piece, lexed.piece index = some piece ∧ slice lexed.source low info.token = some piece := by
  obtain ⟨trivia, hannotated, hcutAnnotation⟩ := between_eq_slice hlow hann hfirst
  obtain ⟨qualifier, hqualified, hcutQualifier⟩ := between_eq_slice hann hqualifier hsecond
  obtain ⟨text, hcutText⟩ := exists_slice hqualifier htoken hthird
  refine ⟨trivia.getD [] ++ qualifier.getD [] ++ text, ?_, ?_⟩
  · simp [piece, Lexed.annotation, Lexed.qualifier, Lexed.text, hprevious, here, hannotated,
      hqualified, hcutText]
  · exact slice_trans hlow hqualifier htoken
      (slice_trans hlow hann hqualifier hcutAnnotation hcutQualifier) hcutText

/-- The offsets of one token are in order, and follow those of the tokens before it. -/
lemma ordered_at (hordered : (endOffsets lexed.tokens).Pairwise (· ≤ ·))
    (here : lexed.info index = some info) :
    info.annotation ≤ info.qualifier ∧ info.qualifier ≤ info.token ∧
      ∀ low, lexed.previousEnd index = some low → low ≤ info.annotation := by
  rw [endOffsets, List.pairwise_flatMap] at hordered
  simp only [Lexed.info, infos, List.getElem?_map, Option.map_eq_some_iff] at here
  obtain ⟨⟨kind, _⟩, hat_, rfl⟩ := here
  have hwithin := hordered.1 _ (List.mem_of_getElem? hat_)
  simp only [List.pairwise_cons, List.mem_cons, List.not_mem_nil, or_false] at hwithin
  refine ⟨hwithin.1 _ (.inl rfl), hwithin.2.1 _ rfl, fun low hprevious => ?_⟩
  unfold previousEnd at hprevious
  split_ifs at hprevious with later
  · simp only [Lexed.info, infos, List.getElem?_map, Option.map_map, Option.map_eq_some_iff]
      at hprevious
    obtain ⟨token, hbefore, rfl⟩ := hprevious
    obtain ⟨hinBefore, rfl⟩ := List.getElem?_eq_some_iff.mp hbefore
    obtain ⟨hinHere, hsame⟩ := List.getElem?_eq_some_iff.mp hat_
    have hacross := List.pairwise_iff_getElem.mp hordered.2 _ _ hinBefore hinHere (by omega)
    exact hacross _ (by simp) _ (by simp [hsame])
  · obtain rfl : low = 0 := by simpa using hprevious.symm
    exact Nat.zero_le _

lemma boundaries_at {source : List Char}
    (hboundaries : ∀ offset ∈ endOffsets lexed.tokens, IsBoundary source offset)
    (here : lexed.info index = some info) :
    IsBoundary source info.annotation ∧ IsBoundary source info.qualifier ∧
      IsBoundary source info.token := by
  simp only [Lexed.info, infos, List.getElem?_map, Option.map_eq_some_iff] at here
  obtain ⟨token, hat_, rfl⟩ := here
  have hmem {offset : ℕ}
    (h : offset ∈ SyntaxKindInfo.annotation token.2 :: [token.2.qualifier, token.2.token]) :
      offset ∈ endOffsets lexed.tokens :=
    List.mem_flatMap.mpr ⟨token, List.mem_of_getElem? hat_, h⟩
  exact ⟨hboundaries _ (hmem (by simp)), hboundaries _ (hmem (by simp)),
    hboundaries _ (hmem (by simp))⟩

variable (hordered : (endOffsets lexed.tokens).Pairwise (· ≤ ·))
  (hboundaries : ∀ offset ∈ endOffsets lexed.tokens, IsBoundary lexed.source offset)

include hordered hboundaries

/-- The pieces of the first `count` tokens are the source up to the end of the last of them. -/
lemma pieces_eq_slice {count : ℕ} (hinside : count ≤ lexed.len) :
    ∃ finish pieces, lexed.previousEnd count = some finish ∧ IsBoundary lexed.source finish ∧
      (List.range count).mapM lexed.piece = some pieces ∧
      slice lexed.source 0 finish = some pieces.flatten := by
  induction count with
  | zero => exact ⟨0, [], rfl, .zero _, rfl, by simp [slice, dropBytes, takeBytes]⟩
  | succ count ih =>
    obtain ⟨low, pieces, hprevious, hlow, htaken, hcut⟩ := ih (by omega)
    obtain ⟨info, here⟩ : ∃ info, lexed.info count = some info := by
      have : count < lexed.infos.length := by simpa [infos, len] using Nat.lt_of_succ_le hinside
      exact ⟨_, List.getElem?_eq_getElem this⟩
    have horder := ordered_at hordered here
    have hbound := boundaries_at hboundaries here
    obtain ⟨piece, htaking, hcutting⟩ :=
      piece_eq_slice hprevious here hlow hbound.1 hbound.2.1 hbound.2.2
      (horder.2.2 low hprevious) horder.1 horder.2.1
    refine ⟨info.token, pieces ++ [piece], by simp [previousEnd, here], hbound.2.2, ?_, ?_⟩
    · simp [List.range_succ, htaken, htaking]
    · simpa using slice_trans (.zero _) hlow hbound.2.2 hcut hcutting

/-- **The pieces of ordered tokens that end where the source ends are the source.** -/
lemma concatenation_eq_source
    (hlast : lexed.previousEnd lexed.len = some (byteLength lexed.source)) :
    lexed.concatenation = some lexed.source := by
  obtain ⟨finish, pieces, hprevious, -, htaken, hcut⟩ := pieces_eq_slice hordered hboundaries le_rfl
  obtain rfl : finish = byteLength lexed.source := by simpa [hlast] using hprevious.symm
  rw [slice_whole] at hcut
  simp [concatenation, htaken, hcut]

end Lexed

/-! ## Tokens pushed one after the other -/

lemma endOffsets_push (tokens : List (SyntaxKind × SyntaxKindInfo)) (kind : SyntaxKind)
    (info : SyntaxKindInfo) : endOffsets (tokens ++ [(kind, info)]) =
      endOffsets tokens ++ info.annotation :: [info.qualifier, info.token] := by
  simp [endOffsets]

section Chains

variable {source : List Char} {tokens : List (SyntaxKind × SyntaxKindInfo)}
  {finish later next next' : ℕ} {kind : SyntaxKind} {info : SyntaxKindInfo}

/-- The tokens cut the source up to `finish` at ordered character boundaries. -/
structure Cut (source : List Char) (tokens : List (SyntaxKind × SyntaxKindInfo)) (finish : ℕ) :
    Prop where
  ordered : (endOffsets tokens).Pairwise (· ≤ ·)
  below : ∀ offset ∈ endOffsets tokens, offset ≤ finish
  boundaries : ∀ offset ∈ endOffsets tokens, IsBoundary source offset

lemma Cut.nil (source : List Char) (finish : ℕ) : Cut source [] finish :=
  ⟨by simp [endOffsets], by simp [endOffsets], by simp [endOffsets]⟩

lemma Cut.mono (h : Cut source tokens finish) (hle : finish ≤ later) : Cut source tokens later :=
  ⟨h.ordered, fun offset hmem => (h.below offset hmem).trans hle, h.boundaries⟩

/-- A token that starts no earlier than the last one ended extends the cut. -/
lemma Cut.push (h : Cut source tokens finish)
    (hfirst : finish ≤ info.annotation) (hsecond : info.annotation ≤ info.qualifier)
    (hthird : info.qualifier ≤ info.token) (hann : IsBoundary source info.annotation)
    (hqualifier : IsBoundary source info.qualifier) (htoken : IsBoundary source info.token) :
    Cut source (tokens ++ [(kind, info)]) info.token := by
  constructor <;> rw [endOffsets_push]
  · refine List.pairwise_append.mpr ⟨h.ordered, ?_, fun offset hmem => ?_⟩
    · simp [hsecond, hthird, hsecond.trans hthird]
    · have := (h.below offset hmem).trans hfirst
      simp only [List.mem_cons, List.not_mem_nil, or_false]
      omega
  · refine List.forall_mem_append.mpr
      ⟨fun offset hmem => ?_, by simp [hthird, hsecond.trans hthird]⟩
    have := h.below offset hmem
    omega
  · exact List.forall_mem_append.mpr ⟨h.boundaries, by simp [hqualifier, hann, htoken]⟩

/-- The tokens cut the source up to `finish`, their qualifiers end at increasing offsets before
`next`, and none of them is the end-of-file token. -/
structure Chain (source : List Char) (tokens : List (SyntaxKind × SyntaxKindInfo))
    (finish next : ℕ) : Prop extends Cut source tokens finish where
  qualifiers : (tokens.map fun token => token.2.qualifier).Pairwise (· < ·)
  last : ∀ token ∈ tokens, token.2.qualifier < next
  inner : ∀ token ∈ tokens, token.1.isInner = true

lemma Chain.nil (source : List Char) (finish next : ℕ) : Chain source [] finish next :=
  ⟨.nil source finish, by simp, by simp, by simp⟩

lemma Chain.mono (h : Chain source tokens finish next) (hle : finish ≤ later) :
    Chain source tokens later next :=
  ⟨h.toCut.mono hle, h.qualifiers, h.last, h.inner⟩

lemma Chain.mono_next (h : Chain source tokens finish next) (hle : next ≤ next') :
    Chain source tokens finish next' :=
  ⟨h.toCut, h.qualifiers, fun token hmem => (h.last token hmem).trans_le hle, h.inner⟩

/-- The qualifiers stay in order when the next token is pushed. -/
lemma Chain.qualifiers_push (h : Chain source tokens finish info.qualifier) :
    ((tokens ++ [(kind, info)]).map fun token => token.2.qualifier).Pairwise (· < ·) := by
  rw [List.map_append]
  refine List.pairwise_append.mpr ⟨h.qualifiers, by simp, fun offset hmem => ?_⟩
  obtain ⟨token, hinside, rfl⟩ := List.mem_map.mp hmem
  simpa using h.last token hinside

lemma Chain.push (h : Chain source tokens finish info.qualifier) (hfirst : finish ≤ info.annotation)
    (hsecond : info.annotation ≤ info.qualifier) (hthird : info.qualifier ≤ info.token)
    (hann : IsBoundary source info.annotation)
    (hqualifier : IsBoundary source info.qualifier) (htoken : IsBoundary source info.token)
    (hinner : kind.isInner = true) (hlater : info.qualifier < next) :
    Chain source (tokens ++ [(kind, info)]) info.token next where
  toCut := h.toCut.push hfirst hsecond hthird hann hqualifier htoken
  qualifiers := h.qualifiers_push
  last := List.forall_mem_append.mpr
    ⟨fun token hmem => (h.last token hmem).trans hlater, by simpa using hlater⟩
  inner := List.forall_mem_append.mpr ⟨h.inner, by simpa using hinner⟩

end Chains

/-! ## States of a run -/

namespace Lexer

variable {source : List Char} {s t u : Lexer source} {unicode : UnicodeTables}

/-- A token has been pushed: the tokens reach to where the lexer stands.  The next qualifier may end
here as well, unless trivia comes next. -/
structure Pushed (unicode : UnicodeTables) (s : Lexer source) : Prop where
  source_eq : s.lexed.source = source
  chain : ∀ next, s.consumed < next ∨ (s.consumed = next ∧ ¬ StartsTrivia unicode s) →
    Chain source s.lexed.tokens s.consumed next

/-- The annotation and the qualifier of the next token have been taken. -/
structure Ready (s : Lexer source) : Prop where
  source_eq : s.lexed.source = source
  chain : Chain source s.lexed.tokens s.annotation s.qualifier
  annotated : s.annotation ≤ s.qualifier
  boundary : IsBoundary source s.annotation
  here : s.qualifier = s.consumed

lemma Reaches.consumed_le (h : Reaches s t) : s.consumed ≤ t.consumed := by
  obtain rfl | h := h
  · exact le_rfl
  · exact h.consumed_lt.le

lemma asU32_consumed (hshort : byteLength source < 2 ^ 32) (s : Lexer source) :
    asU32 s.consumed = s.consumed :=
  asU32_of_lt (s.consumed_le.trans_lt hshort)

lemma pushed_start (unicode : UnicodeTables) (source : List Char) : Pushed unicode (start source) :=
  ⟨rfl, fun next _ => .nil source _ next⟩

/-- The next token can be pushed wherever the lexer moves from a state between two tokens. -/
lemma Ready.push {kind : SyntaxKind} {next : ℕ} (h : Ready s) (hshort : byteLength source < 2 ^ 32)
    (hmoved : Reaches s t) (hinner : kind.isInner = true) (hlater : s.qualifier < next) :
    Chain source (s.lexed.tokens ++ [(kind, t.info)]) t.consumed next := by
  obtain ⟨taken, hmoves⟩ := hmoved.exists_moves
  have htoken : t.info.token = t.consumed := asU32_consumed hshort t
  have hann : t.info.annotation = s.annotation := hmoves.annotation
  have hqualifier : t.info.qualifier = s.qualifier := hmoves.qualifier
  rw [← htoken]
  have hchain : Chain source s.lexed.tokens s.annotation t.info.qualifier := hqualifier ▸ h.chain
  apply hchain.push
  · exact hann.ge
  · rw [hann, hqualifier]
    exact h.annotated
  · rw [htoken, hqualifier, h.here]
    exact hmoved.consumed_le
  · exact hann ▸ h.boundary
  · rw [hqualifier, h.here]
    exact s.isBoundary_consumed
  · exact htoken ▸ t.isBoundary_consumed
  · exact hinner
  · exact hqualifier ▸ hlater

/-- **A token extends the chain to where the lexer stands after it.** -/
lemma Ready.step (h : Ready s) (hshort : byteLength source < 2 ^ 32)
    (step : TokenStep unicode s t) : Pushed unicode t := by
  cases step with
  | stop message htrivia =>
    refine ⟨by simp [h.source_eq], fun next hlater => ?_⟩
    have hlater : s.qualifier < next := by
      rcases hlater with hlater | hlater
      · exact h.here ▸ hlater
      · exact absurd htrivia hlater.2
    simpa using h.push hshort (.inl rfl) (show SyntaxKind.ERROR.isInner = true by decide) hlater
  | @token mid kind error htext hinner =>
    have ⟨taken, _, hmoves⟩ := htext
    refine ⟨by simp [hmoves.lexed, h.source_eq], fun next hlater => ?_⟩
    have hlater : s.qualifier < next := by
      have := htext.consumed_lt
      rw [pushed_consumed] at hlater
      rw [h.here]
      omega
    simpa [hmoves.lexed] using h.push hshort (.inr htext) hinner hlater
  | @parenthesis left mid kind op hfirst htext hinner _ _ _ hann hqualifier htoken _ =>
    have ⟨taken, _, hmoves⟩ := hfirst.trans htext
    refine ⟨by simp [hmoves.lexed, h.source_eq], fun next hlater => ?_⟩
    simp only [pushed_consumed] at hlater ⊢
    rw [asU32_consumed hshort] at hann hqualifier htoken
    have hopens : s.qualifier < op.qualifier := by
      rw [hqualifier, h.here]
      exact hfirst.consumed_lt
    have hwidth := htext.consumed_lt
    have hparenthesis := h.push hshort (.inr hfirst)
      (show SyntaxKind.LEFT_PARENTHESIS.isInner = true by decide) hopens
    have hboth : Chain source (s.lexed.tokens ++ [(.LEFT_PARENTHESIS, left.info)] ++ [(kind, op)])
        op.token next := by
      refine hparenthesis.push hann.ge ?_ ?_ ?_ ?_ ?_ hinner ?_
      · rw [hann, hqualifier]
      · rw [hqualifier, htoken]
        exact hwidth.le
      · exact hann ▸ left.isBoundary_consumed
      · exact hqualifier ▸ left.isBoundary_consumed
      · exact htoken ▸ mid.isBoundary_consumed
      · omega
    simpa [hmoves.lexed, htoken] using hboth

/-- **Trivia and a qualifier lead on to the next token.** -/
lemma Pushed.ready (h : Pushed unicode s) (hshort : byteLength source < 2 ^ 32) {mid : Lexer source}
    (htrivia : Reaches s mid) (hall : ¬ StartsTrivia unicode mid)
    (hqualifier : Reaches mid.annotated u) : Ready u.qualified := by
  obtain ⟨taken, hmoves⟩ := htrivia.exists_moves
  obtain ⟨name, hmoves'⟩ := hqualifier.exists_moves
  have hlexed : u.lexed = s.lexed := hmoves'.lexed.trans hmoves.lexed
  have hann : u.annotation = mid.consumed :=
    hmoves'.annotation.trans (asU32_consumed hshort mid)
  have hends : asU32 u.consumed = u.consumed := asU32_consumed hshort u
  have hafter : mid.consumed ≤ u.consumed := hqualifier.consumed_le
  have hnext : s.consumed < mid.consumed ∨
      (s.consumed = mid.consumed ∧ ¬ StartsTrivia unicode s) := by
    rcases htrivia with rfl | hmoved
    · exact .inr ⟨rfl, hall⟩
    · exact .inl hmoved.consumed_lt
  have hchain := h.chain mid.consumed hnext
  refine ⟨hlexed ▸ h.source_eq, ?_, ?_, ?_, hends⟩
  · change Chain source u.lexed.tokens u.annotation (asU32 u.consumed)
    rw [hlexed, hann, hends]
    exact (hchain.mono htrivia.consumed_le).mono_next hafter
  · change u.annotation ≤ asU32 u.consumed
    omega
  · exact hann ▸ mid.isBoundary_consumed

end Lexer

open Lexer

variable {source : List Char} {s : Lexer source} {unicode : UnicodeTables}

/-! ## Every token takes a character -/

variable {t : Lexer source} {kind : SyntaxKind}

/-- A lexer that has consumed more has less left. -/
lemma shorter_of_consumed_lt {s : Lexer source} (h : s.consumed < t.consumed) :
    t.chars.rest.length < s.chars.rest.length := by
  obtain ⟨before, hsplit, hwidth⟩ := s.exists_before
  obtain ⟨first, hlater, hwidth'⟩ := t.exists_before
  obtain ⟨middle, rfl, hrest⟩ := exists_middle hsplit hlater (by omega)
  have hnonempty : middle ≠ [] := by
    rintro rfl
    rw [List.append_nil] at hwidth'
    omega
  have := List.length_pos_iff.mpr hnonempty
  rw [hrest, List.length_append]
  omega

/-- The annotation and the qualifier that follow a state. -/
lemma ends_new (unicode : UnicodeTables) (s : Lexer source) :
    Ends (new unicode) s fun _ t => ∃ mid last, Reaches s mid ∧ ¬ StartsTrivia unicode mid ∧
      Reaches mid.annotated last ∧ t = last.qualified := by
  simp only [new, ends_bind]
  refine (takeAnnotation_ends unicode s).mono ?_
  rintro _ t ⟨mid, htrivia, hall, rfl⟩
  refine (ends_takeQualifier unicode mid.annotated).mono ?_
  rintro _ t ⟨last, hname, rfl⟩
  exact ⟨mid, last, htrivia, hall, hname, rfl⟩

/-- A token is taken, then what comes before the next one. -/
lemma ends_takeToken_of {post : Unit → Lexer source → Prop} (hnotEof : s.isEof = false)
    (hnext : ∀ pushed, TokenStep unicode s pushed → Ends (new unicode) pushed post) :
    Ends (takeToken unicode) s post := by
  change Ends (do takeTokenImpl unicode; new unicode) s _
  rw [ends_bind]
  exact (ends_takeTokenImpl hnotEof).mono fun _ pushed hstep => hnext pushed hstep

/-- **`take_token` takes a character in every source.**  An empty error token stands before trivia,
which the annotation after it takes. -/
theorem ends_takeToken (unicode : UnicodeTables) (hnotEof : s.isEof = false) :
    Ends (takeToken unicode) s fun _ t =>
      (∃ pushed mid last, TokenStep unicode s pushed ∧ Reaches pushed mid ∧
        ¬ StartsTrivia unicode mid ∧ Reaches mid.annotated last ∧ t = last.qualified) ∧
      t.chars.rest.length < s.chars.rest.length := by
  refine ends_takeToken_of hnotEof fun pushed hstep => ?_
  refine (ends_new unicode pushed).mono ?_
  rintro _ t ⟨mid, last, htrivia, hall, hname, rfl⟩
  refine ⟨⟨pushed, mid, last, hstep, htrivia, hall, hname, rfl⟩, shorter_of_consumed_lt ?_⟩
  have hafter : mid.consumed ≤ last.consumed := hname.consumed_le
  have hbefore : pushed.consumed ≤ mid.consumed := htrivia.consumed_le
  have : s.consumed < mid.consumed := by
    cases hstep with
    | stop message hstarts =>
      rcases htrivia with rfl | hmoved
      · exact absurd hstarts hall
      · exact hmoved.consumed_lt
    | token error htext => exact htext.consumed_lt.trans_le hbefore
    | parenthesis hfirst htext => exact (hfirst.trans htext).consumed_lt.trans_le hbefore
  exact this.trans_le hafter

/-- **The rule for whole runs.**  `between` holds whenever the next token can be taken. -/
theorem lex_run {between : Lexer source → Prop} {post : Lexed → Prop}
    (hfirst : Ends (new unicode) (start source) fun _ t => between t)
    (hnext : ∀ s : Lexer source, between s → s.isEof = false →
      Ends (takeToken unicode) s fun _ t => between t)
    (hlast : ∀ (s : Lexer source) error, between s → s.isEof = true →
      post (s.pushed .END_OF_FILE s.info error).lexed.build) :
    ∃ lexed, lex unicode source = .ok lexed ∧ post lexed := by
  have hrun : Ends (lexAll unicode) (start source) fun _ t => post t.lexed.build := by
    simp only [lexAll, ends_bind]
    refine hfirst.mono fun _ s hfirst => ?_
    refine (Ends.whileLoop between (fun s holds hmore => ?_) hfirst).mono fun _ s hdone => ?_
    · have hnotEof : s.isEof = false := by simpa using hmore
      exact ((hnext s holds hnotEof).and (ends_takeToken unicode hnotEof)).mono
        fun _ t hstep => ⟨hstep.1, hstep.2.2⟩
    · have hended : s.isEof = true := by simpa using hdone.2
      simp only [finish, push, pushInfo, ends_bind, ends_get, ends_ite, ends_modify]
      exact ⟨fun _ => hlast s _ hdone.1 hended, fun _ => hlast s _ hdone.1 hended⟩
  obtain ⟨⟨⟩, lexer, hran, holds⟩ := hrun
  exact ⟨lexer.lexed.build, by simp [lex, hran, bind, Except.bind, pure, Except.pure], holds⟩

/-- Of two suffixes of one text the shorter one ends the longer one. -/
lemma exists_taken {s : Lexer source} (h : t.chars.rest.length < s.chars.rest.length) :
    ∃ taken, taken ≠ [] ∧ s.chars.rest = taken ++ t.chars.rest := by
  obtain ⟨taken, hsplit⟩ := List.suffix_of_suffix_length_le t.chars.suffix s.chars.suffix h.le
  refine ⟨taken, ?_, hsplit.symm⟩
  rintro rfl
  rw [← hsplit] at h
  simp at h

/-- **Every token takes a character, so the lexer returns.**  Whatever state `take_token` is called
in, it ends without a panic as long as some input remains, and takes at least one character of it;
hence `lex` returns on every source, and no panic is ever reached. -/
theorem lex_progresses (unicode : UnicodeTables) (source : List Char) :
    (∀ s : Lexer source, s.isEof = false → Ends (takeToken unicode) s fun _ t =>
      ∃ taken, taken ≠ [] ∧ s.chars.rest = taken ++ t.chars.rest) ∧
    ∃ lexed, lex unicode source = .ok lexed := by
  refine ⟨fun s hnotEof => ?_, ?_⟩
  · exact (ends_takeToken unicode hnotEof).mono fun _ t hnext => exists_taken hnext.2
  · obtain ⟨lexed, hran, -⟩ := @lex_run source unicode (fun _ => True) (fun _ => True)
      ((ends_new unicode _).mono fun _ _ _ => trivial)
      (fun s _ hnotEof => (ends_takeToken unicode hnotEof).mono fun _ _ _ => trivial)
      fun _ _ _ _ => trivial
    exact ⟨lexed, hran⟩

/-! ## Whole runs -/

lemma isLayoutToken_of_isInner (h : kind.isInner = true) : kind.isLayoutToken = false := by
  simpa using (Bool.and_eq_true_iff.mp h).1

lemma ne_endOfFile_of_isInner (h : kind.isInner = true) : kind ≠ .END_OF_FILE := by
  rintro rfl
  exact absurd h (by decide)

/-- The end-of-file token completes the chain. -/
lemma Lexer.Ready.lossless {info : SyntaxKindInfo} {lexed : Lexed} (h : Ready s)
    (hshort : byteLength source < 2 ^ 32) (hatEnd : s.isEof = true) (hinfo_eq : info = s.info)
    (hsource_eq : lexed.source = s.lexed.source)
    (htokens : lexed.tokens = s.lexed.tokens ++ [(.END_OF_FILE, info)]) :
    Lossless source lexed := by
  subst hinfo_eq
  have hsource_eq : lexed.source = source := hsource_eq.trans h.source_eq
  have hwhole : s.consumed = byteLength source := by
    have : s.chars.rest = [] := by simpa [isEof] using hatEnd
    simp [consumed, this]
  have htoken : s.info.token = byteLength source := (asU32_consumed hshort s).trans hwhole
  have hcut : Cut source lexed.tokens s.info.token := by
    rw [htokens]
    refine h.chain.toCut.push le_rfl h.annotated ?_ h.boundary ?_ ?_
    · exact (h.here.trans hwhole).trans htoken.symm |>.le
    · rw [show s.info.qualifier = s.consumed from h.here]
      exact s.isBoundary_consumed
    · exact htoken ▸ hwhole ▸ s.isBoundary_consumed
  refine ⟨hsource_eq, hcut.ordered, hcut.boundaries, ?_, ?_, ?_⟩
  · rw [htokens]
    exact Chain.qualifiers_push h.chain
  · exact ⟨_, _, htokens,
      fun token hmem => ne_endOfFile_of_isInner (h.chain.inner token hmem), htoken⟩
  · subst hsource_eq
    refine Lexed.concatenation_eq_source hcut.ordered hcut.boundaries ?_
    simp [Lexed.previousEnd, Lexed.len, Lexed.info, Lexed.infos, htokens, htoken]

/-- A run of the lexer on a source shorter than `2 ^ 32` bytes. -/
lemma lex_ends (unicode : UnicodeTables) {source : List Char}
    (hshort : byteLength source < 2 ^ 32) :
    ∃ lexed, lex unicode source = .ok lexed ∧ Lossless source lexed ∧
      ∀ kind ∈ lexed.kinds, kind.isLayoutToken = false := by
  refine @lex_run source unicode Ready _ ?_
    (fun s hready hnotEof => ?_) fun s error hready hatEnd => ?_
  · refine (ends_new unicode (start source)).mono ?_
    rintro _ s ⟨mid, last, htrivia, hall, hname, rfl⟩
    exact (pushed_start unicode source).ready hshort htrivia hall hname
  · refine (ends_takeToken unicode hnotEof).mono ?_
    rintro _ t ⟨⟨pushed, mid, last, hstep, htrivia, hall, hname, rfl⟩, -⟩
    exact (hready.step hshort hstep).ready hshort htrivia hall hname
  · refine ⟨hready.lossless hshort hatEnd rfl (by simp [LexedBuilder.build])
      (by simp [LexedBuilder.build]), fun kind hmem => ?_⟩
    simp only [Lexed.kinds, LexedBuilder.build, Lexer.pushed, LexedBuilder.push_tokens,
      List.map_append, List.mem_append, List.map_cons, List.map_nil, List.mem_singleton] at hmem
    obtain hmem | rfl := hmem
    · obtain ⟨token, hinside, rfl⟩ := List.mem_map.mp hmem
      exact isLayoutToken_of_isInner (hready.chain.inner token hinside)
    · rfl

/-- **The lexer loses nothing.**  It returns on every source shorter than `2 ^ 32` bytes; the end
offsets of its tokens are ordered and lie on character boundaries, the qualifiers end at strictly
increasing offsets, the one end-of-file token comes last and ends with the source, and the pieces of
all tokens make up the source. -/
theorem lex_lossless (unicode : UnicodeTables) (source : List Char)
    (hshort : byteLength source < 2 ^ 32) :
    ∃ lexed, lex unicode source = .ok lexed ∧ Lossless source lexed := by
  obtain ⟨lexed, hran, hlossless, _⟩ := lex_ends unicode hshort
  exact ⟨lexed, hran, hlossless⟩

/-- A source with a qualified name, an operator after a parenthesis, a qualifier that nothing
follows and a comment at the end. -/
theorem lex_lossless_comment :
    byteLength "f (∷ A.x) = B. 1 -- α".toList < 2 ^ 32 ∧
      ∃ lexed, lex asciiTables "f (∷ A.x) = B. 1 -- α".toList = .ok lexed ∧
        Lossless "f (∷ A.x) = B. 1 -- α".toList lexed :=
  ⟨by decide, lex_lossless asciiTables _ (by decide)⟩

end Iris.Lexing
