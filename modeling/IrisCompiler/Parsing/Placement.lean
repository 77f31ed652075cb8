import IrisCompiler.Library.Simulation
import IrisCompiler.Parsing.Builder
import IrisCompiler.Parsing.Order

/-!
# Where the tree builder places the tokens

The tree builder is given lengths, not offsets, so a piece of text lands where the pieces before it
end.  `sizesFrom` lists the lengths that the builder adds for a list of tokens, and `placed` lays
them out; a run of the builder over the events of the parser places exactly those (`nested_ends`).
The invariant is `Stands`: between two events all tokens so far are placed, and of the next one the
annotation and the qualifier if the flags say so.

A token of kind `ERROR` has no size here, although its text need not be empty.
-/

namespace Iris.Parsing

open TotalRun Lexing TreeBuilder TreeBuilder.Implementation

/-! ## Pieces of text -/

/-- What a piece of text is to the token it belongs to. -/
inductive Role where
  | trivia
  | qualifier
  | text (kind : SyntaxKind)
  deriving DecidableEq, Repr

structure Piece where
  role : Role
  start : ℕ
  stop : ℕ
  deriving DecidableEq, Repr

/-- A token of the tree as a piece of text.  Layout tokens, and the `ERROR` tokens without text that
stand for an error, are none. -/
def piece (leaf : Leaf SyntaxKind) : Option Piece :=
  if leaf.parent = some SyntaxKind.Annotation then some ⟨.trivia, leaf.start, leaf.stop⟩
  else if leaf.parent = some .Qualifier then some ⟨.qualifier, leaf.start, leaf.stop⟩
  else if leaf.value.isLayoutToken ∨ leaf.value = .ERROR ∧ leaf.start = leaf.stop then none
  else some ⟨.text leaf.value, leaf.start, leaf.stop⟩

/-- The pieces of text of a tree, in order. -/
def SyntaxTree.pieces (tree : SyntaxTree) : List Piece := (tree.leaves none).filterMap piece

/-- The pieces one after the other, from an offset on. -/
def placed (offset : ℕ) : List (Role × ℕ) → List Piece
  | [] => []
  | (role, size) :: sizes => ⟨role, offset, offset + size⟩ :: placed (offset + size) sizes

/-- The length of all pieces together. -/
def total (sizes : List (Role × ℕ)) : ℕ := (sizes.map Prod.snd).sum

lemma placed_append (offset : ℕ) (first second : List (Role × ℕ)) :
    placed offset (first ++ second) =
      placed offset first ++ placed (offset + total first) second := by
  induction first generalizing offset with
  | nil => simp [placed, total]
  | cons size sizes ih => simp [placed, total, ih, Nat.add_assoc]

@[simp] lemma total_append (first second : List (Role × ℕ)) :
    total (first ++ second) = total first + total second := by
  simp [total]

/-- A token with its end offsets. -/
abbrev Located := SyntaxKind × SyntaxKindInfo

/-- The annotation, if there is one. -/
def triviaSize (previous : ℕ) (info : SyntaxKindInfo) : List (Role × ℕ) :=
  if previous < info.annotation then [(.trivia, info.annotation - previous)] else []

def qualifierSize (info : SyntaxKindInfo) : List (Role × ℕ) :=
  if info.annotation < info.qualifier then [(.qualifier, info.qualifier - info.annotation)] else []

/-- The text, unless the token is an error. -/
def textSize (token : Located) : List (Role × ℕ) :=
  if token.1 = .ERROR then [] else [(.text token.1, token.2.token - token.2.qualifier)]

/-- What the builder adds for tokens of which the one before ended at `previous`. -/
def sizesFrom (previous : ℕ) : List Located → List (Role × ℕ)
  | [] => []
  | token :: tokens => triviaSize previous token.2 ++ qualifierSize token.2 ++ textSize token ++
      sizesFrom token.2.token tokens

/-- Where the last token ends. -/
def lastEnd (previous : ℕ) (infos : List SyntaxKindInfo) : ℕ :=
  infos.foldl (fun _ info => info.token) previous

@[simp] lemma lastEnd_append_singleton (previous : ℕ) (infos : List SyntaxKindInfo)
    (info : SyntaxKindInfo) : lastEnd previous (infos ++ [info]) = info.token := by
  simp [lastEnd]

lemma sizesFrom_append (previous : ℕ) (first second : List Located) :
    sizesFrom previous (first ++ second) =
      sizesFrom previous first ++ sizesFrom (lastEnd previous (first.map Prod.snd)) second := by
  induction first generalizing previous with
  | nil => rfl
  | cons token tokens ih =>
    have hlast : lastEnd previous ((token :: tokens).map Prod.snd) =
        lastEnd token.2.token (tokens.map Prod.snd) := rfl
    simp only [List.cons_append, sizesFrom, ih, hlast, List.append_assoc]

/-- The end offsets ascend and stay below a limit. -/
def Ascends (limit previous : ℕ) : List SyntaxKindInfo → Prop
  | [] => True
  | info :: infos => previous ≤ info.annotation ∧ info.annotation ≤ info.qualifier ∧
      info.qualifier ≤ info.token ∧ info.token < limit ∧ Ascends limit info.token infos

variable {previous : ℕ}

lemma ascends_append {limit : ℕ} {first second : List SyntaxKindInfo} :
    Ascends limit previous (first ++ second) ↔
      Ascends limit previous first ∧ Ascends limit (lastEnd previous first) second := by
  induction first generalizing previous with
  | nil => simp [Ascends, lastEnd]
  | cons info infos ih =>
    have hlast : lastEnd previous (info :: infos) = lastEnd info.token infos := rfl
    simp [Ascends, ih, hlast, and_assoc]

@[simp] lemma total_triviaSize (previous : ℕ) (info : SyntaxKindInfo) :
    total (triviaSize previous info) = info.annotation - previous := by
  unfold triviaSize
  split
  · simp [total]
  · simp only [total, List.map_nil, List.sum_nil]
    omega

@[simp] lemma total_qualifierSize (info : SyntaxKindInfo) :
    total (qualifierSize info) = info.qualifier - info.annotation := by
  unfold qualifierSize
  split
  · simp [total]
  · simp only [total, List.map_nil, List.sum_nil]
    omega

/-- The text of errors, which the builder does not add. -/
def lost (tokens : List Located) : ℕ :=
  (tokens.map fun token => if token.1 = .ERROR then token.2.token - token.2.qualifier else 0).sum

/-- All pieces and the lost text together are as long as the source up to the last token. -/
lemma total_sizesFrom {limit : ℕ} {tokens : List Located}
    (hascends : Ascends limit previous (tokens.map Prod.snd)) :
    previous + total (sizesFrom previous tokens) + lost tokens =
      lastEnd previous (tokens.map Prod.snd) := by
  induction tokens generalizing previous with
  | nil => rfl
  | cons token tokens ih =>
    obtain ⟨kind, info⟩ := token
    obtain ⟨htrivia, hqualifier, htext, _, hrest⟩ := hascends
    have hlast : lastEnd previous (((kind, info) :: tokens).map Prod.snd) =
        lastEnd info.token (tokens.map Prod.snd) := rfl
    have here : total (textSize (kind, info)) +
        (if kind = .ERROR then info.token - info.qualifier else 0) =
        info.token - info.qualifier := by
      unfold textSize
      split <;> simp [total]
    rw [hlast, ← ih hrest]
    simp only [sizesFrom, lost, total_append, total_triviaSize, total_qualifierSize, List.map_cons,
      List.sum_cons] at *
    omega

/-! ## The invariant -/

variable {T : TreeLibrary} {lexed : Lexed} {past : List Located} {b : Builder T}

/-- The end offsets of the token at the builder's index. -/
def Builder.current (b : Builder T) : SyntaxKindInfo where
  annotation := b.annotationEnd
  qualifier := b.qualifierEnd
  token := b.tokenEnd
  position := b.position

/-- What has been placed of the token at the builder's index. -/
def Builder.partial_ (b : Builder T) : List (Role × ℕ) :=
  (if b.annotated then triviaSize b.previousEnd b.current else []) ++
    if b.qualified then qualifierSize b.current else []

/-- What has been built. -/
abbrev Builder.tree (b : Builder T) : TreeBuilder.Builder SyntaxKind := T.view b.builder

/-- The leaves of the builder are the given pieces. -/
structure Builder.Places (sizes : List (Role × ℕ)) (b : TreeBuilder.Builder SyntaxKind) : Prop where
  pieces : b.leaves.filterMap piece = placed 0 sizes
  cursor : b.cursor = total sizes
  nodes : ∀ entry ∈ b.opened, entry.1.isRuleNode = true

/-- The tokens of `past` are placed, and of the next one what the flags say. -/
structure Builder.Stands (lexed : Lexed) (past : List Located) (b : Builder T) : Prop where
  index : b.index = past.length
  infos : ∃ rest, lexed.infos = past.map Prod.snd ++ b.current :: rest
  previous : b.previousEnd = lastEnd 0 (past.map Prod.snd)
  qualified : b.qualified = true → b.annotated = true
  places : Builder.Places (sizesFrom 0 past ++ b.partial_) b.tree

namespace Builder

variable {sizes : List (Role × ℕ)} {kind : SyntaxKind} {length : ℕ}

lemma Places.start {b : TreeBuilder.Builder SyntaxKind} (h : Places sizes b)
    (hnode : kind.isRuleNode = true) :
    Places sizes (b.start kind) where
  pieces := by rw [b.leaves_start, h.pieces]
  cursor := h.cursor
  nodes entry hmem := by
    obtain rfl | hmem := List.mem_cons.mp hmem
    · exact hnode
    · exact h.nodes entry hmem

lemma Places.close {b closed : TreeBuilder.Builder SyntaxKind} (h : Places sizes b)
    (hclose : b.close = some closed) : Places sizes closed := by
  obtain ⟨hleaves, hcursor⟩ := TreeBuilder.Builder.leaves_close hclose
  refine ⟨?_, hcursor.trans h.cursor, fun entry hmem => ?_⟩
  · rw [hleaves]
    exact h.pieces
  · exact h.nodes entry (TreeBuilder.Builder.opened_close hclose hmem)

/-- The innermost open node is none of the builder's own. -/
lemma Places.parent_ne {b : TreeBuilder.Builder SyntaxKind} (h : Places sizes b) :
    b.parent ≠ some SyntaxKind.Annotation ∧ b.parent ≠ some .Qualifier := by
  unfold TreeBuilder.Builder.parent
  cases hopened : b.opened with
  | nil => simp
  | cons entry rest =>
    have hnode := h.nodes entry (by rw [hopened]; exact List.mem_cons_self)
    have : entry.1 ≠ SyntaxKind.Annotation ∧ entry.1 ≠ .Qualifier := by
      refine ⟨fun hsame => ?_, fun hsame => ?_⟩ <;> rw [hsame] at hnode
        <;> exact absurd hnode (by decide)
    simpa using this

lemma Places.tokenEmpty {b : TreeBuilder.Builder SyntaxKind} (h : Places sizes b)
    (hplaceholder : kind.isLayoutToken ∨ kind = .ERROR) :
    Places sizes (b.tokenEmpty kind) where
  pieces := by
    have hnone : piece ⟨b.parent, kind, b.cursor, b.cursor⟩ = none := by
      simp [piece, h.parent_ne.1, h.parent_ne.2, hplaceholder]
    rw [b.leaves_tokenEmpty, List.filterMap_append, h.pieces, List.filterMap_cons_none hnone]
    exact List.append_nil _
  cursor := h.cursor
  nodes := h.nodes

lemma leaf_ends (hfits : b.tree.cursor + length < 2 ^ 32) :
    Ends (leaf kind length) b fun _ c => ∃ builder,
      b.tree.token (2 ^ 32) kind length = some (T.view builder) ∧ c = { b with builder } := by
  obtain ⟨builder, hadded⟩ := @exists_token _ _ T b.builder kind length hfits
  simp only [leaf, ends_bind, ends_get, hadded, ends_set]
  exact ⟨builder, view_of_token hadded, rfl⟩

/-- Closing a node of what has been built. -/
lemma finish_ends {closed : TreeBuilder.Builder SyntaxKind} (h : b.tree.close = some closed) :
    Ends finish b fun _ c => ∃ builder, T.view builder = closed ∧ c = { b with builder } := by
  obtain ⟨builder, hclosed, hview⟩ := exists_close h
  simp only [finish, ends_bind, ends_get, hclosed, ends_set]
  exact ⟨builder, hview, rfl⟩

/-- Placing the text of a token. -/
lemma text_ends (h : Places sizes b.tree) (hproper : kind.isLayoutToken = false ∧ kind ≠ .ERROR)
    (hfits : total sizes + length < 2 ^ 32) :
    Ends (leaf kind length) b fun _ c => ∃ builder, c = { b with builder } ∧
      Places (sizes ++ [(.text kind, length)]) (T.view builder) ∧
      (T.view builder).opened = b.tree.opened := by
  refine (leaf_ends (by rwa [h.cursor])).mono ?_
  rintro _ _ ⟨builder, hadded, rfl⟩
  obtain ⟨hleaves, hcursor, _, hopened⟩ := TreeBuilder.Builder.token_eq_some hadded
  refine ⟨builder, rfl, ⟨?_, ?_, by rw [hopened]; exact h.nodes⟩, hopened⟩
  · have htext : piece ⟨b.tree.parent, kind, b.tree.cursor, b.tree.cursor + length⟩ =
        some ⟨.text kind, total sizes, total sizes + length⟩ := by
      simp [piece, h.parent_ne.1, h.parent_ne.2, hproper.1, hproper.2, h.cursor]
    rw [hleaves, List.filterMap_append, h.pieces, List.filterMap_cons_some htext, placed_append]
    simp [placed]
  · rw [hcursor, h.cursor]
    simp [total]

/-- Placing an annotation or a qualifier, in a node of its own. -/
lemma ownNode_ends (h : Places sizes b.tree) {role : Role}
    (hown : kind = SyntaxKind.Annotation ∧ role = .trivia ∨ kind = .Qualifier ∧ role = .qualifier)
    (hfits : total sizes + length < 2 ^ 32) {post : Unit → Builder T → Prop}
    (holds : ∀ builder, Places (sizes ++ [(role, length)]) (T.view builder) →
      (T.view builder).opened = b.tree.opened → post () { b with builder }) :
    Ends (start kind) b fun _ c => Ends (leaf .TEXT length) c fun _ d => Ends finish d post := by
  have hnamed : kind ≠ .Node := by obtain ⟨rfl, _⟩ | ⟨rfl, _⟩ := hown <;> decide
  simp only [start, if_pos hnamed, ends_modify]
  have hopens : (T.view (T.start b.builder kind)).cursor = total sizes := by
    rw [T.view_start]
    exact h.cursor
  refine (leaf_ends (b := { b with builder := T.start b.builder kind })
    (show (T.view (T.start b.builder kind)).cursor + length < 2 ^ 32 by rwa [hopens])).mono ?_
  rintro _ _ ⟨builder, hadded, rfl⟩
  rw [tree, T.view_start] at hadded
  obtain ⟨hleaves, hcursor, _, hopened⟩ := TreeBuilder.Builder.token_eq_some hadded
  obtain ⟨closed, hclose, hreopened, _⟩ := TreeBuilder.Builder.close_of_opened hopened
  obtain ⟨hleavesClosed, hcursorClosed⟩ := TreeBuilder.Builder.leaves_close hclose
  refine (finish_ends hclose).mono ?_
  rintro _ _ ⟨last, rfl, rfl⟩
  refine holds last ⟨?_, ?_, by rw [hreopened]; exact h.nodes⟩ hreopened
  · have htext : piece ⟨(b.tree.start kind).parent, .TEXT, (b.tree.start kind).cursor,
        (b.tree.start kind).cursor + length⟩ =
        some ⟨role, total sizes, total sizes + length⟩ := by
      have hcursor : (b.tree.start kind).cursor = total sizes := h.cursor
      have hparent : (b.tree.start kind).parent = some kind := rfl
      obtain ⟨rfl, rfl⟩ | ⟨rfl, rfl⟩ := hown <;> simp [piece, hcursor, hparent]
    rw [hleavesClosed, hleaves, b.tree.leaves_start, List.filterMap_append, h.pieces,
      List.filterMap_cons_some htext, placed_append]
    simp [placed]
  · have : (b.tree.start kind).cursor = total sizes := h.cursor
    rw [hcursorClosed, hcursor, this]
    simp [total]

/-! ## One event -/

section Steps

variable (hascends : Ascends (2 ^ 32) 0 lexed.infos)

variable (h : Stands lexed past b)

include h

include hascends in
/-- The offsets of the next token, and the room that they leave. -/
lemma Stands.offsets :
    b.previousEnd ≤ b.annotationEnd ∧ b.annotationEnd ≤ b.qualifierEnd ∧
      b.qualifierEnd ≤ b.tokenEnd ∧ b.tokenEnd < 2 ^ 32 ∧
      total (sizesFrom 0 past) ≤ b.previousEnd := by
  obtain ⟨rest, hinfos⟩ := h.infos
  rw [hinfos, ascends_append] at hascends
  obtain ⟨hbefore, htrivia, hqualifier, htext, hshort, _⟩ := hascends
  have hplaced := total_sizesFrom hbefore
  rw [h.previous]
  exact ⟨htrivia, hqualifier, htext, hshort, by omega⟩

include hascends in
lemma annotate_ends :
    Ends annotate b fun _ c => ∃ builder, c = { b with builder, annotated := true } ∧
      Stands lexed past c ∧ (T.view builder).opened = b.tree.opened := by
  obtain ⟨_, _, _, _, _⟩ := h.offsets hascends
  simp only [annotate, ends_bind, ends_get, ends_ite, ends_modify]
  -- the annotation is added if it is not there and not empty
  refine ⟨?_, fun hnone => ?_⟩
  · rintro ⟨habsent, hroom⟩
    have habsent : b.annotated = false := by simpa using habsent
    have hunqualified : b.qualified = false := by
      cases hflag : b.qualified with
      | false => rfl
      | true => exact absurd (h.qualified hflag) (by simp [habsent])
    have hplaces : Places (sizesFrom 0 past) b.tree := by
      simpa [partial_, habsent, hunqualified] using h.places
    refine ownNode_ends hplaces (.inl ⟨rfl, rfl⟩) (by omega) fun builder hplaced hopened => ?_
    refine ⟨builder, rfl, ⟨h.index, h.infos, h.previous, fun _ => rfl, ?_⟩, hopened⟩
    have hsize : partial_ { b with builder, annotated := true } =
        [(.trivia, b.annotationEnd - b.previousEnd)] := by
      simp [partial_, hunqualified, triviaSize, current, hroom]
    rw [hsize]
    exact hplaced
  · refine ⟨b.builder, rfl, ⟨h.index, h.infos, h.previous, fun _ => rfl, ?_⟩, rfl⟩
    have hsame : partial_ { b with annotated := true } = b.partial_ := by
      cases hflag : b.annotated with
      | true => simp [partial_, hflag, current]
      | false =>
        have hempty : ¬b.previousEnd < b.annotationEnd := by simpa [hflag] using hnone
        simp [partial_, triviaSize, current, hempty]
    rw [hsame]
    exact h.places

include hascends in
/-- A qualifier is placed after the annotation, if that is there. -/
lemma qualify_ends (hannotated : b.annotated = true) :
    Ends qualify b fun _ c => ∃ builder, c = { b with builder, qualified := true } ∧
      Stands lexed past c ∧ (T.view builder).opened = b.tree.opened := by
  obtain ⟨_, _, _, _, _⟩ := h.offsets hascends
  simp only [qualify, ends_bind, ends_get, ends_ite, ends_modify]
  refine ⟨?_, fun hnone => ?_⟩
  · rintro ⟨habsent, hroom⟩
    have habsent : b.qualified = false := by simpa using habsent
    have hplaces : Places (sizesFrom 0 past ++ triviaSize b.previousEnd b.current) b.tree := by
      simpa [partial_, hannotated, habsent] using h.places
    have hfits : total (sizesFrom 0 past ++ triviaSize b.previousEnd b.current) +
        (b.qualifierEnd - b.annotationEnd) < 2 ^ 32 := by
      have : b.current.annotation = b.annotationEnd := rfl
      rw [total_append, total_triviaSize]
      omega
    refine ownNode_ends hplaces (.inr ⟨rfl, rfl⟩) hfits fun builder hplaced hopened => ?_
    refine ⟨builder, rfl, ⟨h.index, h.infos, h.previous, fun _ => hannotated, ?_⟩, hopened⟩
    have hsize : partial_ { b with builder, qualified := true } =
        triviaSize b.previousEnd b.current ++ [(.qualifier, b.qualifierEnd - b.annotationEnd)] := by
      simp [partial_, hannotated, qualifierSize, current, hroom]
    rw [hsize, ← List.append_assoc]
    exact hplaced
  · refine ⟨b.builder, rfl, ⟨h.index, h.infos, h.previous, fun _ => hannotated, ?_⟩, rfl⟩
    have hsame : partial_ { b with qualified := true } = b.partial_ := by
      cases hflag : b.qualified with
      | true => simp [partial_, hflag, current]
      | false =>
        have hempty : ¬b.annotationEnd < b.qualifierEnd := by simpa [hflag] using hnone
        simp [partial_, qualifierSize, current, hempty]
    rw [hsame]
    exact h.places

variable {kind : SyntaxKind} {info : SyntaxKindInfo} {rest : List SyntaxKindInfo}

/-- An error or a layout token takes no room. -/
lemma Stands.tokenEmpty (hplaceholder : kind.isLayoutToken ∨ kind = .ERROR)
    (errors : List ParseError) :
    Stands lexed past { b with builder := T.tokenEmpty b.builder kind, errors } :=
  ⟨h.index, h.infos, h.previous, h.qualified, by
    rw [tree, T.view_tokenEmpty]
    exact h.places.tokenEmpty hplaceholder⟩

lemma Stands.start (hnode : kind.isRuleNode = true) :
    Stands lexed past { b with builder := T.start b.builder kind } :=
  ⟨h.index, h.infos, h.previous, h.qualified, by
    rw [tree, T.view_start]
    exact h.places.start hnode⟩

lemma error_ends (message : ErrorMessage) :
    Ends (error message) b fun _ c => ∃ builder errors, c = { b with builder, errors } ∧
      Stands lexed past c ∧ (T.view builder).opened = b.tree.opened := by
  simp only [error, emptyLeaf, ends_bind, ends_modify]
  exact ⟨_, _, rfl, h.tokenEmpty (.inr rfl) _, by rw [T.view_tokenEmpty]; rfl⟩

lemma Stands.current_eq
    (hinfos : lexed.infos = past.map Prod.snd ++ info :: rest) : b.current = info := by
  obtain ⟨_, hinfos'⟩ := h.infos
  rw [hinfos] at hinfos'
  simpa using (congrArg (·[past.length]?) hinfos').symm

lemma Stands.index_lt : b.index < lexed.len := by
  obtain ⟨rest, hinfos⟩ := h.infos
  have hlength := congrArg List.length hinfos
  simp only [Lexed.infos, List.length_map, List.length_append, List.length_cons] at hlength
  rw [h.index, Lexed.len]
  omega

omit h in
/-- All of the token at the index of `b` is placed, and the builder has moved on. -/
def Completes (lexed : Lexed) (past : List Located) (kind : SyntaxKind) (b c : Builder T) :
    Prop :=
  ∃ last, c = next lexed last ∧ last.index = b.index ∧ last.tokenEnd = b.tokenEnd ∧
    Places (sizesFrom 0 (past ++ [(kind, b.current)])) last.tree ∧
    last.tree.opened = b.tree.opened

include hascends in
/-- The end of `token`: the qualifier, and the text of a token that is no error. -/
lemma text_completes (hannotated : b.annotated = true) (hsource : kind.isLayoutToken = false) :
    Ends qualify b fun _ c => Ends (do
      if kind ≠ .ERROR then
        let self ← get
        leaf kind (asU32 (self.tokenEnd + 2 ^ 32 - self.qualifierEnd))
      modify (next lexed)) c fun _ d => Completes lexed past kind b d := by
  refine (qualify_ends hascends h hannotated).mono ?_
  rintro _ _ ⟨builder, rfl, hstands, hopened⟩
  obtain ⟨_, _, horder, hshort, hroom⟩ := h.offsets hascends
  have hsizes : sizesFrom 0 (past ++ [(kind, b.current)]) = sizesFrom 0 past ++
      (triviaSize b.previousEnd b.current ++ qualifierSize b.current) ++
        textSize (kind, b.current) := by
    simp [sizesFrom_append, sizesFrom, h.previous]
  have hplaces : Places (sizesFrom 0 past ++
      (triviaSize b.previousEnd b.current ++ qualifierSize b.current)) (T.view builder) := by
    simpa [partial_, hannotated, current] using hstands.places
  simp only [ends_ite, ends_bind, ends_get, ends_modify]
  refine ⟨fun hproper => ?_, fun herror => ?_⟩
  · have hlength : asU32 (b.tokenEnd + 2 ^ 32 - b.qualifierEnd) = b.tokenEnd - b.qualifierEnd := by
      unfold asU32
      omega
    rw [hlength]
    refine (text_ends hplaces ⟨hsource, hproper⟩ ?_).mono ?_
    · have hann : b.current.annotation = b.annotationEnd := rfl
      have hqualifier : b.current.qualifier = b.qualifierEnd := rfl
      simp only [total_append, total_triviaSize, total_qualifierSize]
      omega
    · rintro _ _ ⟨builder', rfl, hplaced, hopened'⟩
      refine ⟨_, rfl, rfl, rfl, ?_, hopened'.trans hopened⟩
      rw [hsizes, textSize, if_neg hproper]
      exact hplaced
  · have herror : kind = .ERROR := not_not.mp herror
    refine ⟨_, rfl, rfl, rfl, ?_, hopened⟩
    rw [hsizes, textSize, if_pos herror, List.append_nil]
    exact hplaces

include hascends in
/-- A token of the source is placed. -/
lemma token_ends (hsource : kind.isLayoutToken = false) :
    Ends (token lexed kind) b fun _ c => Completes lexed past kind b c := by
  simp only [token, hsource, Bool.false_eq_true, if_false, ends_bind]
  refine (annotate_ends hascends h).mono ?_
  rintro _ _ ⟨builder, rfl, hstands, hopened⟩
  -- the pieces and the open nodes of the states in between are those of `b`
  have hcompletes : ∀ {c : Builder T} {d}, Completes lexed past kind c d → c.index = b.index →
      c.current = b.current → c.tree.opened = (T.view builder).opened →
      Completes lexed past kind b d := by
    rintro c d ⟨last, rfl, hlastIndex, hlastEnd, hplaced, hlastOpened⟩ hindex hcurrent hsame
    refine ⟨last, rfl, hlastIndex.trans hindex, ?_, hcurrent ▸ hplaced,
      (hlastOpened.trans hsame).trans hopened⟩
    exact hlastEnd.trans (congrArg SyntaxKindInfo.token hcurrent)
  simp only [ends_get, h.index_lt, if_true, ends_bind]
  split
  · simp only [ends_bind]
    refine (error_ends hstands _).mono ?_
    rintro _ _ ⟨builder', errors, rfl, hstands', hopened'⟩
    refine (text_completes hascends hstands' rfl hsource).mono fun _ _ hends => ?_
    exact hends.mono fun _ _ hdone => hcompletes hdone rfl rfl hopened'
  · simp only [ends_bind]
    refine (text_completes hascends hstands rfl hsource).mono fun _ _ hends => ?_
    exact hends.mono fun _ _ hdone => hcompletes hdone rfl rfl rfl

/-- After a token the builder stands before the next one. -/
lemma Completes.stands {c : Builder T} (hdone : Completes lexed past kind b c)
    (hinfos : lexed.infos = past.map Prod.snd ++ b.current :: info :: rest) :
    Stands lexed (past ++ [(kind, b.current)]) c ∧ c.tree.opened = b.tree.opened := by
  obtain ⟨last, rfl, hindex, htokenEnd, hplaced, hopened⟩ := hdone
  have hfound : lexed.info (last.index + 1) = some info := by
    rw [Lexed.info, hinfos, hindex, h.index]
    simp
  have hmoved : next lexed last = { last with
      previousEnd := last.tokenEnd
      index := last.index + 1
      annotated := false
      qualified := false
      annotationEnd := info.annotation
      qualifierEnd := info.qualifier
      tokenEnd := info.token
      position := info.position } := by
    simp [next, hfound]
  rw [hmoved]
  refine ⟨⟨?_, ⟨rest, ?_⟩, ?_, (absurd · Bool.false_ne_true), ?_⟩, hopened⟩
  · simp [hindex, h.index]
  · simpa [current] using hinfos
  · simp [htokenEnd, current]
  · simpa [partial_] using hplaced

end Steps

/-! ## Nested events -/

/-- The tokens of the source among the tokens of a piece of output. -/
def sourceTokens (events : List Event) : List SyntaxKind :=
  (tokensOf events).filter fun kind => !kind.isLayoutToken

@[simp] lemma sourceTokens_append (first second : List Event) :
    sourceTokens (first ++ second) = sourceTokens first ++ sourceTokens second := by
  simp [sourceTokens]

lemma sourceTokens_cons_none {event : Event} (hnone : event.token? = none) (events : List Event) :
    sourceTokens (event :: events) = sourceTokens events := by
  rw [sourceTokens, sourceTokens, tokensOf, List.filterMap_cons_none hnone, tokensOf]

/-- The builder goes through the events and places the tokens of `more`, if more tokens come after
them; the errors that the events stand for are used up, and the open nodes are the same as
before. -/
def Consumes (T : TreeLibrary) (lexed : Lexed) (events : List Event) : Prop :=
  ∀ ⦃b : Builder T⦄ ⦃past more : List Located⦄ ⦃rest : List SyntaxKindInfo⦄ ⦃annotated after : Bool⦄
    ⦃errors later : List ParserError⦄, Stands lexed past b →
    (annotated = true → b.annotated = true) →
    lexed.infos = (past ++ more).map Prod.snd ++ rest → rest ≠ [] →
    sourceTokens events = more.map Prod.fst → order annotated events = some after →
    events.count .Error = errors.length →
    Ends (events.foldlM (event lexed) (errors ++ later)) b fun left c =>
      left = later ∧ Stands lexed (past ++ more) c ∧ (after = true → c.annotated = true) ∧
        c.tree.opened = b.tree.opened

lemma Consumes.nil : Consumes T lexed [] := by
  intro b past more rest annotated after errors later h hflag hinfos hahead htokens
    hordered hcounted
  obtain rfl : more = [] := by simpa [sourceTokens, tokensOf] using htokens.symm
  obtain rfl : errors = [] := by simpa using hcounted.symm
  cases hordered
  simp only [List.foldlM_nil, ends_pure, List.nil_append, List.append_nil]
  exact ⟨trivial, h, hflag, trivial⟩

lemma Consumes.append {first second : List Event} (h : Consumes T lexed first)
    (h' : Consumes T lexed second) : Consumes T lexed (first ++ second) := by
  intro b past more rest annotated after errors later hstands hflag hinfos hahead htokens
    hordered hcounted
  -- the tokens and the errors are split where the events are
  rw [sourceTokens_append, eq_comm, List.map_eq_append_iff] at htokens
  obtain ⟨more₁, more₂, rfl, htokens₁, htokens₂⟩ := htokens
  rw [order_append, Option.bind_eq_some_iff] at hordered
  obtain ⟨middle, hordered₁, hordered₂⟩ := hordered
  rw [List.count_append] at hcounted
  obtain ⟨errors₁, errors₂, rfl, hlength₁⟩ :
      ∃ errors₁ errors₂, errors = errors₁ ++ errors₂ ∧ errors₁.length = first.count .Error :=
    ⟨errors.take (first.count .Error), errors.drop (first.count .Error),
      (List.take_append_drop _ _).symm, List.length_take_of_le (by omega)⟩
  have hlength₂ : second.count .Error = errors₂.length := by
    rw [List.length_append] at hcounted
    omega
  rw [List.foldlM_append, ends_bind, List.append_assoc]
  have hinfos₁ : lexed.infos = (past ++ more₁).map Prod.snd ++ (more₂.map Prod.snd ++ rest) := by
    simpa using hinfos
  refine (h hstands hflag hinfos₁ (by simp [hahead]) htokens₁.symm hordered₁ hlength₁.symm).mono ?_
  rintro _ c ⟨rfl, hstands₁, hflag₁, hopened₁⟩
  refine (h' hstands₁ hflag₁ (by simpa using hinfos) hahead htokens₂.symm hordered₂ hlength₂).mono
    ?_
  rintro _ d ⟨rfl, hstands₂, hflag₂, hopened₂⟩
  exact ⟨rfl, by simpa using hstands₂, hflag₂, hopened₂.trans hopened₁⟩

/-- An event that is neither a start nor a finish. -/
lemma Consumes.leaf (hascends : Ascends (2 ^ 32) 0 lexed.infos) {event : Event}
    (leaf : event.isLeaf = true) : Consumes T lexed [event] := by
  intro b past more rest annotated after errors later hstands hflag hinfos hahead htokens
    hordered hcounted
  have hstep : Event.order annotated event = some after := by
    simpa [order] using hordered
  have hnothing (hnone : event.token? = none) : more = [] := by
    rw [sourceTokens_cons_none hnone] at htokens
    exact List.map_eq_nil_iff.mp htokens.symm
  simp only [List.foldlM_cons, List.foldlM_nil]
  cases event with
  | Start kind => cases leaf
  | Finish => cases leaf
  | Annotate =>
    obtain rfl : more = [] := hnothing rfl
    obtain rfl : errors = [] := by simpa using hcounted.symm
    simp only [Builder.event, ends_bind, ends_pure, List.append_nil, List.nil_append]
    refine (annotate_ends hascends hstands).mono ?_
    rintro _ _ ⟨builder, rfl, hstands', hopened⟩
    exact ⟨trivial, hstands', fun _ => rfl, hopened⟩
  | Qualify =>
    obtain rfl : more = [] := hnothing rfl
    obtain rfl : errors = [] := by simpa using hcounted.symm
    have hbefore : annotated = true := by
      by_contra hnone
      simp [Event.order, hnone] at hstep
    simp only [Builder.event, ends_bind, ends_pure, List.append_nil, List.nil_append]
    refine (qualify_ends hascends hstands (hflag hbefore)).mono ?_
    rintro _ _ ⟨builder, rfl, hstands', hopened⟩
    exact ⟨trivial, hstands', fun _ => hflag hbefore, hopened⟩
  | Error =>
    obtain rfl : more = [] := hnothing rfl
    obtain ⟨reason, rfl⟩ : ∃ reason, errors = [reason] := List.length_eq_one_iff.mp hcounted.symm
    cases hstep
    simp only [Builder.event, List.cons_append, ends_bind, ends_pure, List.append_nil,
      List.nil_append]
    refine (error_ends hstands _).mono ?_
    rintro _ _ ⟨builder, _, rfl, hstands', hopened⟩
    exact ⟨trivial, hstands', hflag, hopened⟩
  | Token kind =>
    obtain rfl : errors = [] := by simpa using hcounted.symm
    cases hstep
    simp only [Builder.event, ends_bind, ends_pure, List.nil_append]
    cases hlayout : kind.isLayoutToken with
    | true =>
      obtain rfl : more = [] := by
        simpa [sourceTokens, tokensOf, Event.token?, hlayout] using htokens.symm
      simp only [token, hlayout, if_true, emptyLeaf, ends_modify, List.append_nil]
      exact ⟨trivial, hstands.tokenEmpty (.inl hlayout) _, (absurd · Bool.false_ne_true),
        by rw [tree, T.view_tokenEmpty]; rfl⟩
    | false =>
      obtain ⟨⟨kind', info⟩, rfl, rfl⟩ : ∃ token : Located, more = [token] ∧ token.1 = kind := by
        have : more.map Prod.fst = [kind] := by
          simpa [sourceTokens, tokensOf, Event.token?, hlayout] using htokens.symm
        simpa using this
      obtain ⟨following, rest, rfl⟩ := List.exists_cons_of_ne_nil hahead
      obtain rfl : b.current = info := hstands.current_eq (by simpa using hinfos)
      refine (token_ends hascends hstands hlayout).mono fun _ c hdone => ?_
      obtain ⟨hstands', hopened⟩ := hdone.stands hstands (by simpa using hinfos)
      exact ⟨trivial, hstands', (absurd · Bool.false_ne_true), hopened⟩

/-- A node around events. -/
lemma Consumes.node (node : kind.isRuleNode = true) {inner : List Event}
    (h : Consumes T lexed inner) :
    Consumes T lexed (.Start kind :: inner ++ [.Finish]) := by
  intro b past more rest annotated after errors later hstands hflag hinfos hahead htokens
    hordered hcounted
  have hnamed : kind ≠ .Node := by
    rintro rfl
    exact absurd node (by decide)
  have hordered : order annotated inner = some after := by
    rw [← order_leaves] at hordered ⊢
    simpa [leaves, Event.isLeaf] using hordered
  have htokens : sourceTokens inner = more.map Prod.fst := by
    rw [← htokens, List.cons_append, sourceTokens_cons_none rfl, sourceTokens_append]
    exact (List.append_nil _).symm
  have hcounted : inner.count .Error = errors.length := by
    rw [← hcounted]
    simp
  simp only [List.foldlM_cons, List.foldlM_append, List.foldlM_nil, Builder.event, start,
    if_pos hnamed, ends_bind, ends_modify, ends_pure]
  refine (h (hstands.start node) hflag hinfos hahead htokens hordered hcounted).mono ?_
  rintro _ c ⟨rfl, hstands', hflag', hopened⟩
  rw [tree, tree, T.view_start] at hopened
  obtain ⟨closed, hclose, hreopened, _⟩ := TreeBuilder.Builder.close_of_opened hopened
  refine (finish_ends hclose).mono ?_
  rintro _ _ ⟨builder, rfl, rfl⟩
  exact ⟨rfl, ⟨hstands'.index, hstands'.infos, hstands'.previous, hstands'.qualified,
    hstands'.places.close hclose⟩, hflag', hreopened⟩

/-- **The builder places the tokens of nested events.** -/
theorem consumes_nested (hascends : Ascends (2 ^ 32) 0 lexed.infos) {events : List Event}
    (hnested : Nested events) (hnodes : ∀ kind, .Start kind ∈ events → kind.isRuleNode = true) :
    Consumes T lexed events := by
  induction hnested with
  | nil => exact .nil
  | @leaf event rest hleaf _ ih =>
    exact Consumes.append (.leaf hascends hleaf)
      (ih fun kind hmem => hnodes kind (List.mem_cons_of_mem _ hmem))
  | @node kind inner rest _ _ ihInner ih =>
    have hsplit : .Start kind :: inner ++ .Finish :: rest =
        (.Start kind :: inner ++ [.Finish]) ++ rest := by simp
    rw [hsplit] at hnodes ⊢
    refine Consumes.append (.node (hnodes kind (by simp)) (ihInner fun kind' hmem => ?_))
      (ih fun kind' hmem => ?_)
    · exact hnodes kind' (by simp [hmem])
    · exact hnodes kind' (by simp [hmem])

end Builder

end Iris.Parsing
