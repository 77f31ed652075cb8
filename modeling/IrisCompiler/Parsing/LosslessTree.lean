import IrisCompiler.Lexing.LayoutRuns
import IrisCompiler.Lexing.Lossless
import IrisCompiler.Parsing.Placement
import IrisCompiler.Parsing.WholeModule

/-!
# When the syntax tree is lossless

The tree of a source text is lossless if every token is where the lexer found it, with its
annotation and its qualifier before it, and if the tree is as wide as the source.  The builder adds
no text for a token of kind `ERROR`, so everything after such a token is moved to the left by the
length of its text: the tree is lossless exactly if no `ERROR` token has a text
(`losslessTree_iff`).
-/

namespace Iris.Parsing

open TotalRun Lexing ByteText List TreeBuilder.Implementation

/-! ## The width of a tree -/

namespace Builder

variable {T : TreeLibrary}

/-- Every run of the program that ends keeps the width and the limit of the tree. -/
def Keeps {α : Type} (program : BuilderM T α) : Prop :=
  ∀ ⦃s a t⦄, program.run s = .ok (a, t) → s.tree.Sized (2 ^ 32) → t.tree.Sized (2 ^ 32)

section Keeps

variable {α β : Type}

lemma keeps_pure (a : α) : Keeps (pure a : BuilderM T α) := by
  rintro s _ t ⟨⟩ hsized
  exact hsized

lemma keeps_throw (panic : BuildPanic) : Keeps (throw panic : BuilderM T α) := by rintro s a t ⟨⟩

lemma keeps_get : Keeps (get : BuilderM T (Builder T)) := by
  rintro s _ t ⟨⟩ hsized
  exact hsized

lemma keeps_modify {f : Builder T → Builder T}
    (h : ∀ s, s.tree.Sized (2 ^ 32) → (f s).tree.Sized (2 ^ 32)) :
    Keeps (modify f : BuilderM T Unit) := by
  rintro s _ t ⟨⟩ hsized
  exact h s hsized

lemma Keeps.bind {program : BuilderM T α} {next : α → BuilderM T β} (hfirst : Keeps program)
    (hrest : ∀ a, Keeps (next a)) : Keeps (program >>= next) := by
  intro s b u hrun hsized
  obtain ⟨a, t, hran, hrun⟩ := of_run_bind hrun
  exact hrest a hrun (hfirst hran hsized)

lemma keeps_ite {condition : Prop} [Decidable condition] {yes no : BuilderM T α} (h : Keeps yes)
    (h' : Keeps no) : Keeps (if condition then yes else no) := by
  split
  · exact h
  · exact h'

lemma keeps_unless {condition : Prop} [Decidable condition] {panic : BuildPanic}
    {program : BuilderM T α} (h : Keeps program) :
    Keeps (if condition then program else throw panic >>= fun (_ : Unit) => program) :=
  keeps_ite h ((keeps_throw panic).bind fun _ => h)

lemma keeps_foldlM {f : β → α → BuilderM T β} (hstep : ∀ b a, Keeps (f b a)) (as : List α) (b : β) :
    Keeps (as.foldlM f b) := by
  induction as generalizing b with
  | nil => exact keeps_pure b
  | cons a as ih =>
    exact (hstep b a).bind ih

end Keeps

lemma keeps_start (kind : SyntaxKind) : Keeps (start kind : BuilderM T Unit) :=
  keeps_ite (keeps_modify fun s hsized => by
    rw [tree, T.view_start]
    exact hsized.start kind) (keeps_pure ())

lemma keeps_finish : Keeps (finish : BuilderM T Unit) := by
  intro s _ t hrun hsized
  obtain ⟨_, _, ⟨⟩, hrun⟩ := of_run_bind hrun
  split at hrun
  · next hclose =>
    cases hrun
    exact hsized.close (view_of_close hclose)
  · cases hrun

lemma keeps_leaf (kind : SyntaxKind) (length : ℕ) :
    Keeps (leaf kind length : BuilderM T Unit) := by
  intro s _ t hrun hsized
  obtain ⟨_, _, ⟨⟩, hrun⟩ := of_run_bind hrun
  split at hrun
  · next hadded =>
    cases hrun
    exact hsized.token (view_of_token hadded)
  · cases hrun

lemma keeps_emptyLeaf (kind : SyntaxKind) : Keeps (emptyLeaf kind : BuilderM T Unit) :=
  keeps_modify fun s hsized => by
    rw [tree, T.view_tokenEmpty]
    exact hsized.tokenEmpty kind

lemma keeps_ownNode (kind : SyntaxKind) (length : ℕ) {α : Type} {rest : BuilderM T α}
    (h : Keeps rest) : Keeps (do start kind; leaf .TEXT length; finish; rest) :=
  (keeps_start kind).bind fun _ => (keeps_leaf .TEXT length).bind fun _ =>
    keeps_finish.bind fun _ =>
    h

lemma keeps_annotate : Keeps (annotate : BuilderM T Unit) := by
  have hflag : Keeps (modify fun self : Builder T => { self with annotated := true }) :=
    keeps_modify fun _ hsized => hsized
  exact keeps_get.bind fun _ => keeps_ite (keeps_ownNode _ _ hflag) hflag

lemma keeps_qualify : Keeps (qualify : BuilderM T Unit) := by
  have hflag : Keeps (modify fun self : Builder T => { self with qualified := true }) :=
    keeps_modify fun _ hsized => hsized
  exact keeps_get.bind fun _ => keeps_ite (keeps_ownNode _ _ hflag) hflag

lemma keeps_error (message : ErrorMessage) : Keeps (error message : BuilderM T Unit) :=
  (keeps_emptyLeaf .ERROR).bind fun _ => keeps_modify fun _ hsized => hsized

lemma next_builder (lexed : Lexed) (b : Builder T) : (next lexed b).builder = b.builder := by
  simp only [next]
  split <;> rfl

lemma keeps_token (lexed : Lexed) (kind : SyntaxKind) :
    Keeps (token lexed kind : BuilderM T Unit) := by
  have hmoved : Keeps (modify (next lexed) : BuilderM T Unit) := keeps_modify fun s hsized => by
    rw [tree, next_builder]
    exact hsized
  have htext : Keeps (T := T) (do
      qualify
      if kind ≠ .ERROR then
        let self ← get
        leaf kind (asU32 (self.tokenEnd + 2 ^ 32 - self.qualifierEnd))
      modify (next lexed)) :=
    keeps_qualify.bind fun _ => keeps_ite
      (keeps_get.bind fun _ => (keeps_leaf _ _).bind fun _ => hmoved) hmoved
  refine keeps_ite (keeps_emptyLeaf kind) (keeps_annotate.bind fun _ => keeps_get.bind fun _ =>
    keeps_unless (keeps_get.bind fun self => ?_))
  cases lexed.error self.index with
  | none => exact htext
  | some message => exact (keeps_error _).bind fun _ => htext

lemma keeps_event (lexed : Lexed) (errors : List ParserError) (e : Event) :
    Keeps (event lexed errors e : BuilderM T _) := by
  cases e with
  | Start kind => exact (keeps_start kind).bind fun _ => keeps_pure _
  | Annotate => exact keeps_annotate.bind fun _ => keeps_pure _
  | Qualify => exact keeps_qualify.bind fun _ => keeps_pure _
  | Token kind => exact (keeps_token lexed kind).bind fun _ => keeps_pure _
  | Finish => exact keeps_finish.bind fun _ => keeps_pure _
  | Error =>
    cases errors with
    | nil => exact keeps_throw _
    | cons reason errors => exact (keeps_error _).bind fun _ => keeps_pure _

/-! ## Placeholders -/

variable {lexed : Lexed}

/-- The builder does nothing for the placeholder of a marker. -/
lemma foldlM_withoutPlaceholders (events : List Event) (errors : List ParserError) :
    (withoutPlaceholders events).foldlM (event lexed) errors =
      (events.foldlM (event lexed) errors : BuilderM T _) := by
  induction events generalizing errors with
  | nil => rfl
  | cons e events ih =>
    by_cases hplaceholder : e = .Start .Node
    · subst hplaceholder
      exact ih errors
    · have hkept : withoutPlaceholders (e :: events) = e :: withoutPlaceholders events := by
        simp [withoutPlaceholders, hplaceholder]
      rw [hkept]
      exact bind_congr fun left => ih left

lemma tokensOf_withoutPlaceholders (events : List Event) :
    tokensOf (withoutPlaceholders events) = tokensOf events := by
  rw [tokensOf, withoutPlaceholders, filterMap_filter]
  refine filterMap_congr fun e _ => ?_
  split
  · rfl
  · next hplaceholder =>
    obtain rfl : e = .Start .Node := by simpa using hplaceholder
    rfl

lemma leaves_withoutPlaceholders (events : List Event) :
    leaves (withoutPlaceholders events) = leaves events := by
  rw [leaves, withoutPlaceholders, filter_filter]
  refine filter_congr fun e _ => ?_
  by_cases hplaceholder : e = .Start .Node
  · subst hplaceholder
    rfl
  · simp [hplaceholder]

lemma Consumes.of_withoutPlaceholders {events : List Event}
    (h : Consumes T lexed (withoutPlaceholders events)) : Consumes T lexed events := by
  intro b past more rest annotated after errors later hstands hflag hinfos hahead htokens
    hordered hcounted
  rw [← foldlM_withoutPlaceholders]
  refine h hstands hflag hinfos hahead ?_ ?_ ?_
  · rw [sourceTokens, tokensOf_withoutPlaceholders]
    exact htokens
  · rw [← order_leaves, leaves_withoutPlaceholders, order_leaves]
    exact hordered
  · rw [withoutPlaceholders, count_filter (by decide)]
    exact hcounted

end Builder

section Whole

variable {T : TreeLibrary} {lexed : Lexed} {events : List Event} {errors : List ParserError}

/-- A tree that the builder made fits its text index. -/
lemma width_of_build {tree : SyntaxTree} {reports : List ParseError}
    (h : build T lexed events errors = .ok (tree, reports)) : tree.width < 2 ^ 32 := by
  unfold build at h
  cases hfirst : (Builder.new lexed : Except BuildPanic (Builder T)) with
  | error panic => simp [hfirst, bind, Except.bind] at h
  | ok b =>
    have hsized : b.tree.Sized (2 ^ 32) := by
      unfold Builder.new at hfirst
      split at hfirst
      · cases hfirst
      · cases hfirst
        rw [Builder.tree, T.view_new]
        exact .new (Nat.two_pow_pos 32)
    cases hran : (events.foldlM (Builder.event lexed) errors).run b with
    | error panic => simp [hfirst, hran, bind, Except.bind] at h
    | ok result =>
      have hsized' := Builder.keeps_foldlM (Builder.keeps_event lexed) events errors hran hsized
      simp only [hfirst, hran, bind, Except.bind] at h
      split at h
      · cases h
      · unfold Builder.build at h
        split at h
        · cases h
        · cases h
        · next hbuilds =>
          cases h
          exact hsized'.width_lt ((T.build_eq _).symm.trans hbuilds)

variable {info : SyntaxKindInfo}

/-- A new builder stands before the first token. -/
lemma Builder.exists_new {infos : List SyntaxKindInfo} (h : lexed.infos = info :: infos) :
    ∃ b : Builder T, Builder.new lexed = .ok b ∧ b.tree = .new ∧ Builder.Stands lexed [] b := by
  have hfound : lexed.info 0 = some info := by rw [Lexed.info, h]; rfl
  simp only [Builder.new, hfound]
  refine ⟨_, rfl, T.view_new, rfl, ⟨infos, h⟩, rfl, (absurd · Bool.false_ne_true), ?_⟩
  rw [Builder.tree, T.view_new]
  exact ⟨rfl, rfl, by simp [TreeBuilder.Builder.new]⟩

/-- **The builder places the tokens of a module.** -/
theorem build_module (hascends : Ascends (2 ^ 32) 0 lexed.infos)
    (hnested : Nested (withoutPlaceholders events))
    (hnodes : ∀ kind, .Start kind ∈ events → kind = .Node ∨ kind.isRuleNode = true) {after : Bool}
    (hordered : order false events = some after) (hcounted : events.count .Error = errors.length)
    {front : List Located} (htokens : Builder.sourceTokens events = front.map Prod.fst)
    (hinfos : lexed.infos = front.map Prod.snd ++ [info]) :
    ∃ tree reports,
      build T lexed (.Start .Module :: (events ++ [.Token .END_OF_FILE]) ++ [.Finish]) errors =
        .ok (tree, reports) ∧
      tree.pieces = placed 0 (sizesFrom 0 (front ++ [(.END_OF_FILE, info)])) ∧
      tree.width = total (sizesFrom 0 (front ++ [(.END_OF_FILE, info)])) := by
  obtain ⟨first, others, hcons⟩ := List.exists_cons_of_ne_nil (l := lexed.infos) (by simp [hinfos])
  obtain ⟨b, hnew, hempty, hstands⟩ := @Builder.exists_new T _ _ _ hcons
  have hconsumes : Builder.Consumes T lexed events := by
    refine .of_withoutPlaceholders (Builder.consumes_nested hascends hnested fun kind hmem => ?_)
    obtain ⟨hmem, hnamed⟩ := List.mem_filter.mp hmem
    obtain rfl | hnode := hnodes kind hmem
    · exact absurd hnamed (by decide)
    · exact hnode
  -- the root node is opened, and nothing else is open when the end of the file comes
  have hopens := hstands.start (show SyntaxKind.Module.isRuleNode = true from rfl)
  have hrun : Ends (List.foldlM (Builder.event lexed) errors
      (.Start .Module :: (events ++ [.Token .END_OF_FILE]) ++ [.Finish])) b fun left c =>
        left = [] ∧ ∃ root, c.tree.build = some [root] ∧
          Builder.Places (sizesFrom 0 (front ++ [(.END_OF_FILE, info)])) c.tree := by
    simp only [List.foldlM_cons, List.foldlM_append, List.foldlM_nil, Builder.event, Builder.start,
      if_pos (show SyntaxKind.Module ≠ .Node by decide), ends_bind, ends_modify, ends_pure]
    rw [← List.append_nil errors]
    refine (hconsumes hopens (absurd · Bool.false_ne_true) hinfos (by simp) htokens hordered
      hcounted).mono ?_
    rintro _ c ⟨rfl, hstands', _, hopened⟩
    refine (Builder.token_ends hascends hstands' rfl).mono ?_
    rintro _ _ ⟨last, rfl, _, _, hplaces, hsame⟩
    rw [hstands'.current_eq hinfos] at hplaces
    have hnext : (Builder.next lexed last).tree = last.tree := by
      rw [Builder.tree, Builder.next_builder]
    have houtermost : (Builder.next lexed last).tree.opened = [(.Module, [])] := by
      rw [hnext, hsame, hopened, Builder.tree, T.view_start]
      exact congrArg (fun tree => (TreeBuilder.Builder.start tree .Module).opened) hempty
    obtain ⟨closed, hclose, hclosedOpened, hdone⟩ := TreeBuilder.Builder.close_of_opened houtermost
    refine (Builder.finish_ends hclose).mono ?_
    rintro _ _ ⟨builder, rfl, rfl⟩
    have hbuilds : (T.view builder).build =
        some [.node .Module (Builder.next lexed last).tree.done] := by
      rw [TreeBuilder.Builder.build, hclosedOpened, hdone]
      rfl
    rw [← hnext] at hplaces
    exact ⟨rfl, _, hbuilds, hplaces.close hclose⟩
  obtain ⟨_, c, hran, rfl, root, hbuilds, hplaces⟩ := hrun
  have hsized := Builder.keeps_foldlM (Builder.keeps_event lexed) _ errors hran
    (by rw [hempty]; exact .new (Nat.two_pow_pos 32))
  have hwhole : c.tree.leaves = root.leaves none := by
    rw [TreeBuilder.Builder.leaves_of_build hbuilds, TreeBuilder.leavesOf_singleton]
  refine ⟨root, c.errors, ?_, ?_, ?_⟩
  · simp only [build, hnew, hran, bind, Except.bind, Builder.build, T.build_eq, hbuilds]
    rfl
  · rw [SyntaxTree.pieces, ← hwhole]
    exact hplaces.pieces
  · rw [TreeBuilder.Tree.width, ← hwhole, hsized.width, hplaces.cursor]

end Whole

/-! ## Tokens under other names -/

variable {kind : SyntaxKind} {tokens renamed : List Located} {kinds : List SyntaxKind}
  {limit previous depth : ℕ} {source : List Char} {lexed : Lexed} {fuel : Option ℕ}
  {events : List Event} {errors : List ParserError} {unicode : UnicodeTables} {T : TreeLibrary}

/-- The renames of the grammar neither make nor take away layout tokens and errors. -/
lemma renamed_kind {kind' : SyntaxKind} (h : Renamed renames kind kind') :
    kind'.isLayoutToken = kind.isLayoutToken ∧ (kind' = .ERROR ↔ kind = .ERROR) := by
  cases h with
  | same => exact ⟨rfl, Iff.rfl⟩
  | @renamed set _ hlisted hmem =>
    have hproper : ∀ entry ∈ renames, entry.2.isLayoutToken = false ∧ entry.2 ≠ .ERROR ∧
        ∀ kind ∈ entry.1, kind.isLayoutToken = false ∧ kind ≠ .ERROR := by decide
    obtain ⟨hlayout', herror', heach⟩ := hproper _ hlisted
    obtain ⟨hlayout, herror⟩ := heach kind hmem
    exact ⟨hlayout'.trans hlayout.symm, iff_of_false herror' herror⟩

/-- The same tokens, with kinds as the parser names them. -/
abbrev RenamedTokens : List Located → List Located → Prop :=
  List.Forall₂ fun token token' => Renamed renames token.1 token'.1 ∧ token'.2 = token.2

lemma exists_renamedTokens (h : List.Forall₂ (Renamed renames) (tokens.map Prod.fst) kinds) :
    ∃ renamed, renamed.map Prod.fst = kinds ∧ RenamedTokens tokens renamed := by
  induction tokens generalizing kinds with
  | nil =>
    cases h
    exact ⟨[], rfl, .nil⟩
  | cons token tokens ih =>
    cases h with
    | @cons _ kind _ kinds here hrest =>
      obtain ⟨renamed, hsame, hrelated⟩ := ih hrest
      exact ⟨(kind, token.2) :: renamed, by rw [map_cons, hsame], .cons ⟨here, rfl⟩ hrelated⟩

lemma RenamedTokens.infos (h : RenamedTokens tokens renamed) :
    renamed.map Prod.snd = tokens.map Prod.snd := by
  induction h with
  | nil => rfl
  | cons here _ ih => rw [map_cons, map_cons, here.2, ih]

/-- An error loses its text under every name. -/
lemma RenamedTokens.lost_eq (h : RenamedTokens tokens renamed) : lost renamed = lost tokens := by
  induction h with
  | nil => rfl
  | @cons token token' _ _ here _ ih =>
    have herror := (renamed_kind here.1).2
    have hinfo := here.2
    simp only [lost, map_cons, sum_cons, herror, hinfo] at ih ⊢
    rw [ih]

lemma lost_eq_zero (hascends : Ascends limit previous (tokens.map Prod.snd)) :
    lost tokens = 0 ↔ ∀ token ∈ tokens, token.1 = .ERROR → token.2.qualifier = token.2.token := by
  induction tokens generalizing previous with
  | nil => simp [lost]
  | cons token tokens ih =>
    obtain ⟨kind, info⟩ := token
    simp only [map_cons] at hascends
    obtain ⟨_, _, horder, _, hrest⟩ := hascends
    have here : (if kind = .ERROR then info.token - info.qualifier else 0) = 0 ↔
        (kind = .ERROR → info.qualifier = info.token) := by
      split
      · next herror =>
        simp only [herror, forall_const]
        omega
      · next hproper => simp [hproper]
    rw [forall_mem_cons, ← ih hrest, ← here, lost, map_cons, sum_cons,
      Nat.add_eq_zero_iff]
    rfl

/-! ## Lossless trees -/

/-- Where the pieces of the tokens are in the source: between the end of the token before and the
end of the annotation, from there to the end of the qualifier, and from there to the end of the
token. -/
def piecesFrom (previous : ℕ) : List Located → List Piece
  | [] => []
  | (kind, info) :: tokens =>
    (if previous < info.annotation then [⟨.trivia, previous, info.annotation⟩] else []) ++
    (if info.annotation < info.qualifier then [⟨.qualifier, info.annotation, info.qualifier⟩]
      else []) ++
    (if kind = .ERROR ∧ info.qualifier = info.token then []
      else [⟨.text kind, info.qualifier, info.token⟩]) ++ piecesFrom info.token tokens

lemma placed_triviaSize (previous : ℕ) (info : SyntaxKindInfo) :
    placed previous (triviaSize previous info) =
      if previous < info.annotation then [⟨.trivia, previous, info.annotation⟩] else [] := by
  unfold triviaSize
  split
  · simp only [placed, List.cons.injEq, Piece.mk.injEq, and_true, true_and]
    omega
  · rfl

lemma placed_qualifierSize (info : SyntaxKindInfo) :
    placed info.annotation (qualifierSize info) =
      if info.annotation < info.qualifier then [⟨.qualifier, info.annotation, info.qualifier⟩]
      else [] := by
  unfold qualifierSize
  split
  · simp only [placed, List.cons.injEq, Piece.mk.injEq, and_true, true_and]
    omega
  · rfl

lemma placed_textSize {info : SyntaxKindInfo} (horder : info.qualifier ≤ info.token)
    (hempty : kind = .ERROR → info.qualifier = info.token) :
    placed info.qualifier (textSize (kind, info)) =
      (if kind = .ERROR ∧ info.qualifier = info.token then []
        else [⟨.text kind, info.qualifier, info.token⟩]) ∧
      info.qualifier + total (textSize (kind, info)) = info.token := by
  unfold textSize
  by_cases herror : kind = .ERROR
  · rw [if_pos herror, if_pos ⟨herror, hempty herror⟩]
    exact ⟨rfl, hempty herror⟩
  · rw [if_neg herror, if_neg fun hboth => herror hboth.1]
    simp only [placed, total, List.cons.injEq, Piece.mk.injEq, and_true, true_and, map_cons,
      map_nil, sum_cons, sum_nil]
    omega

/-- Without lost text the pieces are where they are in the source. -/
lemma placed_eq_piecesFrom (hascends : Ascends limit previous (tokens.map Prod.snd))
    (hnothing : lost tokens = 0) :
    placed previous (sizesFrom previous tokens) = piecesFrom previous tokens := by
  induction tokens generalizing previous with
  | nil => rfl
  | cons token tokens ih =>
    obtain ⟨kind, info⟩ := token
    have hempty : kind = .ERROR → info.qualifier = info.token :=
      (lost_eq_zero hascends).mp hnothing (kind, info) mem_cons_self
    have hnothing : lost tokens = 0 := by
      simp only [lost, map_cons, sum_cons, Nat.add_eq_zero_iff] at hnothing
      exact hnothing.2
    simp only [map_cons] at hascends
    obtain ⟨htrivia, hqualifier, htext, _, hrest⟩ := hascends
    have hfirst : previous + total (triviaSize previous info) = info.annotation := by
      rw [total_triviaSize]
      omega
    have hsecond : info.annotation + total (qualifierSize info) = info.qualifier := by
      rw [total_qualifierSize]
      omega
    obtain ⟨hplacedText, hthird⟩ := placed_textSize htext hempty
    simp only [sizesFrom, placed_append, total_append, ← Nat.add_assoc, hfirst, hsecond, hthird,
      placed_triviaSize, placed_qualifierSize, hplacedText, ih hrest hnothing, piecesFrom]

/-- The syntax tree of a source text is lossless: lexer, layout and parser come to an end, the
tokens of the tree are those of the lexer, under the names that the parser gives them, each piece is
where the lexer found it, and the tree is as wide as the source.  With a lookup counter the parser
makes the same tree or exhausts the counter. -/
def LosslessTree (T : TreeLibrary) (unicode : UnicodeTables) (source : List Char) : Prop :=
  ∃ lexed tokens tree errors, lex unicode source = .ok lexed ∧ layout lexed = some tokens ∧
    (∃ enough, ∀ depth ≥ enough, parse T depth none lexed tokens = .ok (tree, errors) ∧
      ∀ fuel, parse T depth (some fuel) lexed tokens ∈
        [.ok (tree, errors), .error (.parser .fuelExhausted)]) ∧
    (∃ renamed, RenamedTokens lexed.tokens renamed ∧ tree.pieces = piecesFrom 0 renamed) ∧
    tree.width = byteLength source

lemma ascends_of_ordered (hordered : (endOffsets tokens).Pairwise (· ≤ ·))
    (hbetween : ∀ offset ∈ endOffsets tokens, previous ≤ offset ∧ offset < limit) :
    Ascends limit previous (tokens.map Prod.snd) := by
  induction tokens generalizing previous with
  | nil => trivial
  | cons token tokens ih =>
    simp only [endOffsets, flatMap_cons, cons_append, pairwise_cons,
      forall_mem_cons] at hordered hbetween
    obtain ⟨⟨hfirst, _, _⟩, ⟨hsecond, _⟩, hafter, hordered⟩ := hordered
    obtain ⟨htrivia, _, hlast, hbetween⟩ := hbetween
    exact ⟨htrivia.1, hfirst, hsecond, hlast.2,
      ih hordered fun offset hmem => ⟨hafter offset hmem, (hbetween offset hmem).2⟩⟩

/-- The offsets that the lexer records ascend. -/
lemma ascends_of_lossless (h : Lossless source lexed) (hshort : byteLength source < 2 ^ 32) :
    Ascends (2 ^ 32) 0 lexed.infos :=
  ascends_of_ordered h.ordered fun offset hmem =>
    ⟨Nat.zero_le offset, Nat.lt_of_le_of_lt (h.boundaries offset hmem).le hshort⟩

/-! ## Whole runs -/

lemma parse_eq (tokens : List SyntaxKind) : parse T depth fuel lexed tokens =
    match (parseModule depth fuel tokens).map Parser.result with
    | .error panic => .error (.parser panic)
    | .ok (events, errors) => build T lexed events errors := by
  unfold parse
  cases parseModule depth fuel tokens <;> rfl

/-- The events of a module are ordered. -/
lemma module_ordered
    (h : (parseModulePlain depth none kinds).map Parser.result = .ok (events, errors)) :
    ∃ after, order false events = some after := by
  unfold parseModulePlain at h
  cases hran : (runPlain grammar depth .module_).run (.new none kinds) with
  | error panic => simp [hran, Except.map] at h
  | ok final =>
    obtain ⟨⟨⟩, p⟩ := final
    have hsame : p.result = (events, errors) := by simpa [hran, Except.map] using h
    obtain ⟨_, added, hsplit, reached, hordered, _⟩ := runPlain_ordered grammar_orderly rfl hran
    obtain rfl : p.output = events := congrArg Prod.fst hsame
    have hwhole : leaves p.output = added := hsplit
    exact ⟨reached, by rw [← order_leaves, hwhole, hordered]⟩

/-- The layout of lexed tokens ends in their only end of the file. -/
lemma layout_of_lossless (hlossless : Lossless source lexed) (hproper : lexed.SourceKinds) :
    ∃ init front info, layout lexed = some (init ++ [.END_OF_FILE]) ∧ .END_OF_FILE ∉ init ∧
      lexed.tokens = front ++ [(.END_OF_FILE, info)] ∧
      init.filter (fun kind => !kind.isLayoutToken) = front.map Prod.fst := by
  obtain ⟨front, info, htokens, hinner, _⟩ := hlossless.endOfFile
  have hkinds : lexed.kinds = front.map Prod.fst ++ [.END_OF_FILE] := by simp [Lexed.kinds, htokens]
  have habsent : .END_OF_FILE ∉ front.map Prod.fst := fun hmem => by
    obtain ⟨token, hinside, heof⟩ := mem_map.mp hmem
    exact hinner token hinside heof
  have hendsInEof : lexed.EndsInEof := by rw [Lexed.EndsInEof, hkinds, getLast?_concat]
  have hsingle : lexed.kinds.count .END_OF_FILE = 1 := by
    rw [hkinds, count_append, count_eq_zero_of_not_mem habsent]
    rfl
  obtain ⟨output, hlaid, hfiltered, hlast⟩ := layout_ends hproper hendsInEof hsingle
  obtain ⟨init, rfl⟩ := getLast?_eq_some_iff.mp hlast
  have hsame : init.filter (fun kind => !kind.isLayoutToken) = front.map Prod.fst := by
    rw [hkinds, filter_append] at hfiltered
    exact append_cancel_right hfiltered
  exact ⟨init, front, info, hlaid,
    fun hmem => habsent (hsame ▸ mem_filter.mpr ⟨hmem, rfl⟩), htokens, hsame⟩

/-- **The tree of a short source.**  Lexer, layout, parser and builder come to an end, and the
pieces of the tokens are placed one after the other. -/
theorem parse_places (T : TreeLibrary) (unicode : UnicodeTables)
    (hshort : byteLength source < 2 ^ 32) :
    ∃ lexed tokens tree errors renamed, lex unicode source = .ok lexed ∧ Lossless source lexed ∧
      layout lexed = some tokens ∧
      (∃ enough, ∀ depth ≥ enough, parse T depth none lexed tokens = .ok (tree, errors) ∧
        ∀ fuel, parse T depth (some fuel) lexed tokens ∈
          [.ok (tree, errors), .error (.parser .fuelExhausted)]) ∧
      RenamedTokens lexed.tokens renamed ∧ tree.pieces = placed 0 (sizesFrom 0 renamed) ∧
      tree.width = total (sizesFrom 0 renamed) := by
  obtain ⟨lexed, hlexes, hlossless, hproper⟩ := lex_ends unicode hshort
  obtain ⟨init, front, info, hlaid, habsent, htokens, hfiltered⟩ :=
    layout_of_lossless hlossless hproper
  obtain ⟨index, events, errors, hsegment, hstopped, enough, hparsed⟩ :=
    module_parsed (init ++ [.END_OF_FILE])
  obtain rfl := index_eq_length habsent hsegment hstopped
  have hresult : moduleResult (init ++ [.END_OF_FILE]) init.length events errors =
      .ok (.Start .Module :: (events ++ [.Token .END_OF_FILE]) ++ [.Finish], errors) := by
    rw [moduleResult, getElem?_concat_length]
  -- the tokens of the source among those of the events, each with its offsets
  have hkinds :
      List.Forall₂ (Renamed renames) (front.map Prod.fst) (Builder.sourceTokens events) := by
    have hall : List.Forall₂ (Renamed renames) init (tokensOf events) := by
      simpa using hsegment.tokens
    rw [← hfiltered]
    refine rel_filter (fun _ _ hrenamed => ?_) hall
    simp [(renamed_kind hrenamed).1]
  obtain ⟨renamed, hnamed, hrelated⟩ := exists_renamedTokens hkinds
  have hinfos : lexed.infos = renamed.map Prod.snd ++ [info] := by
    rw [hrelated.infos, Lexed.infos, htokens, map_append]
    rfl
  obtain ⟨after, hordered⟩ : ∃ after, order false events = some after := by
    obtain ⟨_, hordered⟩ := module_ordered ((hparsed enough le_rfl).1.trans hresult)
    rw [order_append, Option.bind_eq_some_iff] at hordered
    obtain ⟨_, hinner, _⟩ := hordered
    change order false (events ++ _) = _ at hinner
    rw [order_append, Option.bind_eq_some_iff] at hinner
    obtain ⟨after, hordered, _⟩ := hinner
    exact ⟨after, hordered⟩
  obtain ⟨tree, reports, hbuilt, hpieces, hwidth⟩ :=
    build_module (ascends_of_lossless hlossless hshort) hsegment.nested hsegment.nodes hordered
      hsegment.counted hnamed.symm hinfos
  refine ⟨lexed, _, tree, reports, renamed ++ [(.END_OF_FILE, info)], hlexes, hlossless, hlaid,
    ⟨enough, fun depth hge => ⟨?_, fun fuel => ?_⟩⟩, ?_, hpieces, hwidth⟩
  · rw [parse_eq, (hparsed depth hge).2.trans hresult]
    exact hbuilt
  · have hcounted : Simulates Exhausts Counted Eq (runRule grammar depth .module_)
        (runRule grammar depth .module_) := Counted.runRule depth RuleName.module_
    have houtcome := result_counted hcounted ((hparsed depth hge).2.trans hresult) fuel
    obtain hsame | hsame := mem_pair.mp houtcome <;>
      rw [parse_eq, parseModule, hsame, mem_pair]
    · exact .inl hbuilt
    · exact .inr rfl
  · rw [htokens]
    exact rel_append hrelated (.cons ⟨.same, rfl⟩ .nil)

/-- No token of the source is an error with a text. -/
def ErrorsEmpty (unicode : UnicodeTables) (source : List Char) : Prop :=
  ∀ lexed, lex unicode source = .ok lexed →
    ∀ token ∈ lexed.tokens, token.1 = .ERROR → token.2.qualifier = token.2.token

/-- The pieces and the lost text make up the source. -/
lemma total_add_lost (hlossless : Lossless source lexed) (hshort : byteLength source < 2 ^ 32)
    (hrelated : RenamedTokens lexed.tokens renamed) :
    total (sizesFrom 0 renamed) + lost lexed.tokens = byteLength source := by
  have hascends := ascends_of_lossless hlossless hshort
  obtain ⟨front, info, htokens, _, hlast⟩ := hlossless.endOfFile
  rw [Lexed.infos, ← hrelated.infos] at hascends
  have hsum := total_sizesFrom hascends
  rw [hrelated.lost_eq, hrelated.infos, htokens, map_append, map_cons, map_nil,
    lastEnd_append_singleton, hlast, ← htokens] at hsum
  omega

lemma losslessTree_of_errorsEmpty (hshort : byteLength source < 2 ^ 32)
    (hempty : ErrorsEmpty unicode source) : LosslessTree T unicode source := by
  obtain ⟨lexed, tokens, tree, errors, renamed, hlexes, hlossless, hlaid, hparses,
    hrelated, hpieces,
    hwidth⟩ := parse_places T unicode hshort
  have hascends : Ascends (2 ^ 32) 0 (lexed.tokens.map Prod.snd) :=
    ascends_of_lossless hlossless hshort
  have hnothing : lost lexed.tokens = 0 := (lost_eq_zero hascends).mpr (hempty lexed hlexes)
  rw [← hrelated.infos] at hascends
  refine ⟨lexed, tokens, tree, errors, hlexes, hlaid, hparses, ⟨renamed, hrelated, ?_⟩, ?_⟩
  · rw [hpieces]
    exact placed_eq_piecesFrom hascends (hrelated.lost_eq.trans hnothing)
  · have hsum := total_add_lost hlossless hshort hrelated
    omega

/-- The width alone shows that nothing is lost. -/
lemma LosslessTree.errorsEmpty (h : LosslessTree T unicode source) :
    byteLength source < 2 ^ 32 ∧ ErrorsEmpty unicode source := by
  obtain ⟨lexed, tokens, tree, errors, hlexes, hlaid, ⟨enough, hparses⟩, _, hwidth⟩ := h
  have hshort : byteLength source < 2 ^ 32 := by
    have hbuilt := (hparses enough le_rfl).1
    unfold parse at hbuilt
    split at hbuilt
    · cases hbuilt
    · rw [← hwidth]
      exact width_of_build hbuilt
  refine ⟨hshort, fun lexed' hlexes' => ?_⟩
  obtain ⟨lexed'', tokens', tree', errors', renamed, hlexes'', hlossless, hlaid',
    ⟨enough', hparses'⟩,
    hrelated, _, hwidth'⟩ := parse_places T unicode hshort
  obtain rfl : lexed = lexed' := by simpa [hlexes] using hlexes'
  obtain rfl : lexed = lexed'' := by simpa [hlexes] using hlexes''
  obtain rfl : tokens = tokens' := by simpa [hlaid] using hlaid'
  have hone := (hparses (max enough enough') (le_max_left _ _)).1
  have hother := (hparses' (max enough enough') (le_max_right _ _)).1
  obtain ⟨rfl, _⟩ : tree = tree' ∧ errors = errors' := by simpa [hone] using hother
  have hsum := total_add_lost hlossless hshort hrelated
  exact (lost_eq_zero (ascends_of_lossless hlossless hshort)).mp (by omega)

/-- **The syntax tree is lossless exactly if no error has a text.**  The builder adds no text for
tokens of kind `ERROR`, and the text index of the tree is a `u32`; apart from that every token, its
annotation and its qualifier are where the lexer found them. -/
theorem losslessTree_iff (T : TreeLibrary) (unicode : UnicodeTables) (source : List Char) :
    LosslessTree T unicode source ↔ byteLength source < 2 ^ 32 ∧ ErrorsEmpty unicode source :=
  ⟨LosslessTree.errorsEmpty, fun ⟨hshort, hempty⟩ => losslessTree_of_errorsEmpty hshort hempty⟩

/-- A semicolon is no token of the language. -/
theorem not_losslessTree_semicolon :
    ¬LosslessTree (TreeBuilder.model SyntaxKind (2 ^ 32)) asciiTables ";".toList := by
  intro hlossless
  have hlexes : lex asciiTables ";".toList = .ok {
      source := ";".toList
      tokens := [(.ERROR, ⟨0, 0, 1, ⟨1, 1⟩⟩), (.END_OF_FILE, ⟨1, 1, 1, ⟨1, 2⟩⟩)]
      errors := [⟨"Invalid token", 0⟩] } := by rfl
  have hempty := hlossless.errorsEmpty.2 _ hlexes (.ERROR, ⟨0, 0, 1, ⟨1, 1⟩⟩) List.mem_cons_self rfl
  exact absurd hempty (by decide)

end Iris.Parsing
