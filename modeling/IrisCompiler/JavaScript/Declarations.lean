import IrisCompiler.Functional.Initializers
import IrisCompiler.Functional.Tree
import Mathlib.Data.List.Sort

/-!
# The order of value declarations

`sorted_value_declarations` decides the order in which the values of a module are initialised.  A
function declaration is hoisted, so that it may be used before its place; another value may not.

Two graphs are used.  A value has a **strict** dependency on what its initializer mentions outside
abstractions, and a **lexical** one on whatever it mentions.  Strongly connected components of the
lexical graph come in the order of their dependencies, and within one of them values come in the
depth-first postorder of the strict graph.
-/

namespace Iris.JavaScript

open Functional DepthFirst

/-- A declaration of a value. -/
structure ValueDeclaration where
  global : GlobalId
  expression : ExpressionId
  deriving DecidableEq

inductive DeclarationKind where
  | Value (expression : ExpressionId)
  | Constructor (arity : ℕ)
  | Foreign

structure Declaration where
  global : GlobalId
  kind : DeclarationKind

/-- A functional module.  The arenas have no cycles, since a node stands above its children, and a
global is declared once. -/
structure Module where
  storage : Storage
  declarations : List Declaration
  height : ExpressionId → ℕ
  patternHeight : PatternId → ℕ
  height_lt : ∀ parent, ∀ child ∈ (storage.expressions parent).children,
      height child < height parent
  patternHeight_lt : ∀ parent, ∀ child ∈ (storage.patterns parent).children,
    patternHeight child < patternHeight parent
  nodup : (declarations.map Declaration.global).Nodup

/-- The union of the sets that belong to the elements of a list. -/
def unionAll {α : Type} (globals : α → Finset GlobalId) (elements : List α) : Finset GlobalId :=
  elements.foldr (fun element found => globals element ∪ found) ∅

lemma mem_unionAll {α : Type} {globals : α → Finset GlobalId} {elements : List α} {id : GlobalId} :
    id ∈ unionAll globals elements ↔ ∃ element ∈ elements, id ∈ globals element := by
  induction elements with
  | nil => simp [unionAll]
  | cons element elements ih =>
    simp only [unionAll, List.foldr_cons, Finset.mem_union, List.mem_cons, exists_eq_or_imp] at ih ⊢
    rw [ih]

/-- **A collector finds what the nodes below have**, when a turn of its recursion takes what the
node has itself and what its children have. -/
lemma mem_collect {ν : Type} {collect : ℕ → ν → Finset GlobalId} {has : ν → GlobalId → Prop}
    {next : ν → List ν} {height : ν → ℕ}
    (hlt : ∀ node, ∀ child ∈ next node, height child < height node)
    (hsucc : ∀ bound node id, id ∈ collect (bound + 1) node ↔
      has node id ∨ ∃ child ∈ next node, id ∈ collect bound child)
    {bound : ℕ} {node : ν} {id : GlobalId} (h : height node < bound) :
    id ∈ collect bound node ↔
      ∃ below, Relation.ReflTransGen (fun parent child => child ∈ next parent) node below ∧
        has below id := by
  induction bound generalizing node with
  | zero => omega
  | succ bound ih =>
    have hchild : ∀ child ∈ next node, height child < bound := fun child hmem => by
      have := hlt node child hmem
      omega
    rw [hsucc]
    constructor
    · rintro (hid | ⟨child, hmem, hid⟩)
      · exact ⟨node, .refl, hid⟩
      · obtain ⟨below, hbelow, hid⟩ := (ih (hchild child hmem)).mp hid
        exact ⟨below, hbelow.head hmem, hid⟩
    · rintro ⟨below, hbelow, hid⟩
      rcases hbelow.cases_head with rfl | ⟨child, hmem, hbelow⟩
      · exact .inl hid
      · exact .inr ⟨child, hmem, (ih (hchild child hmem)).mpr ⟨below, hbelow, hid⟩⟩

namespace Module

variable (self : Module)

/-! ## Globals of an expression

The recursion of the source goes down the arena; here it is on a bound for the height of the node.
-/

def collectPatternReferences : ℕ → PatternId → Finset GlobalId
  | 0, _ => ∅
  | height + 1, pattern =>
    match self.storage.patterns pattern with
    | .Variable _ | .Wildcard | .Literal => ∅
    | .Named _ pattern => collectPatternReferences height pattern
    | .Array patterns => unionAll (collectPatternReferences height) patterns
    | .Record fields => unionAll (fun field => collectPatternReferences height field.pattern) fields
    | .Constructor global arguments =>
      {global} ∪ unionAll (collectPatternReferences height) arguments

/-- The globals of a pattern. -/
def patternReferences (pattern : PatternId) : Finset GlobalId :=
  self.collectPatternReferences (self.patternHeight pattern + 1) pattern

/-- `collect_expression_references`, with `collect_update_references` and
`collect_guarded_references`. -/
def collectExpressionReferences : ℕ → ExpressionId → Finset GlobalId
  | 0, _ => ∅
  | height + 1, expression =>
    match self.storage.expressions expression with
    | .Constructor global | .Global global => {global}
    | .Case scrutinees alternatives =>
      unionAll (collectExpressionReferences height) scrutinees ∪
        unionAll (fun alternative => unionAll self.patternReferences alternative.patterns ∪
          collectExpressionReferences height alternative.expression) alternatives
    | .Guarded alternatives =>
      unionAll (fun alternative =>
        unionAll (fun guard => match guard with
          | .Boolean expression => collectExpressionReferences height expression
          | .Pattern expression pattern =>
            collectExpressionReferences height expression ∪ self.patternReferences pattern)
          alternative.guards ∪
        collectExpressionReferences height alternative.expression) alternatives
    | .LetPattern pattern value body =>
      self.patternReferences pattern ∪ collectExpressionReferences height value ∪
        collectExpressionReferences height body
    -- every other node has its children visited, and nothing else
    | kind => unionAll (collectExpressionReferences height) kind.children

/-- `collect_expression_globals` and `collect_expression_children`. -/
def collectExpressionGlobals (descendAbstractions : Bool) : ℕ → ExpressionId → Finset GlobalId
  | 0, _ => ∅
  | height + 1, expression =>
    match self.storage.expressions expression with
    | .Global global | .Constructor global => {global}
    | .Abstraction _ body | .UncurriedAbstraction _ body =>
      if descendAbstractions then collectExpressionGlobals descendAbstractions height body else ∅
    | .Let recursive bindings body =>
      let lazyValues := recursive && !(bindings.all fun binding =>
        (self.storage.expressions binding.expression).isAbstraction)
      (if descendAbstractions || lazyValues || !recursive then
        unionAll (fun binding =>
          collectExpressionGlobals descendAbstractions height binding.expression) bindings
      else ∅) ∪ collectExpressionGlobals descendAbstractions height body
    | kind =>
      if descendAbstractions then self.collectExpressionReferences (height + 1) expression
      else
        match kind with
        | .Effect (.Bind action _ _) => collectExpressionGlobals descendAbstractions height action
        | kind => unionAll (collectExpressionGlobals descendAbstractions height) kind.children

/-- What an expression mentions outside abstractions. -/
def strictGlobals (expression : ExpressionId) : Finset GlobalId :=
  self.collectExpressionGlobals false (self.height expression + 1) expression

/-- What an expression mentions anywhere. -/
def lexicalGlobals (expression : ExpressionId) : Finset GlobalId :=
  self.collectExpressionGlobals true (self.height expression + 1) expression

/-! ## The order -/

/-- The declarations of values.  A stable sort has put the generated ones first. -/
def values : List ValueDeclaration :=
  let values := self.declarations.filterMap fun declaration =>
    match declaration.kind with
    | .Value expression => some ⟨declaration.global, expression⟩
    | _ => none
  values.filter (fun declaration => declaration.global.isGenerated) ++
    values.filter fun declaration => !declaration.global.isGenerated

abbrev Position := Fin self.values.length

def value (position : self.Position) : ValueDeclaration := self.values.get position

/-- The positions of some globals.  They are sorted and without repetition, so that the order of the
hash set they come from makes no difference. -/
def positionsOf (globals : Finset GlobalId) : List self.Position :=
  (List.finRange self.values.length).filter fun position => (self.value position).global ∈ globals

/-- `dependencies`. -/
def dependencies (lazyGlobalNames : Finset GlobalId) : Dependencies self.values.length :=
  fun position =>
    (self.positionsOf (self.strictGlobals (self.value position).expression)).filter
      fun dependency =>
      !((self.value position).global ∈ lazyGlobalNames &&
        (self.value dependency).global ∈ lazyGlobalNames)

/-- `lexical_dependencies`. -/
def lexicalDependencies : Dependencies self.values.length := fun position =>
  self.positionsOf (self.lexicalGlobals (self.value position).expression)

/-- `strict_positions`. -/
def strictPosition (lazyGlobalNames : Finset GlobalId) (position : self.Position) : ℕ :=
  (initializerPostorder (self.dependencies lazyGlobalNames)).idxOf position

/-- The components in their order, each sorted by strict position. -/
def sortedPositions (lazyGlobalNames : Finset GlobalId) : List self.Position :=
  ((initializerComponents self.lexicalDependencies).map fun component =>
    component.insertionSort fun p q =>
      self.strictPosition lazyGlobalNames p ≤ self.strictPosition lazyGlobalNames q).flatten

/-- `sorted_value_declarations`. -/
def sortedValueDeclarations (lazyGlobalNames : Finset GlobalId) : List (ValueDeclaration × Bool) :=
  (self.sortedPositions lazyGlobalNames).map fun position =>
    (self.value position, cyclicInitializers (self.dependencies lazyGlobalNames) position)

/-! ## Eager readers -/

/-- A function declaration, which is hoisted. -/
def IsFunction (position : self.Position) : Prop :=
  (self.storage.expressions (self.value position).expression).isAbstraction = true

/-- **An eager reader**: the initializer mentions the value outside abstractions, or a function that
is read eagerly mentions it anywhere. -/
inductive EagerlyReads (self : Module) : self.Position → self.Position → Prop
  | strict {p q : self.Position} :
      (self.value q).global ∈ self.strictGlobals (self.value p).expression → EagerlyReads self p q
  | through {p f q : self.Position} : EagerlyReads self p f → self.IsFunction f →
      (self.value q).global ∈ self.lexicalGlobals (self.value f).expression → EagerlyReads self p q

/-- Eager reading among values that are not functions. -/
def Initializes (p q : self.Position) : Prop :=
  ¬ self.IsFunction p ∧ ¬ self.IsFunction q ∧ self.EagerlyReads p q

/-- A value mentions another. -/
def Mentions (p q : self.Position) : Prop :=
  (self.value q).global ∈ self.lexicalGlobals (self.value p).expression

/-- The values that an initializer mentions outside abstractions, in their order. -/
def strictMentions (p : self.Position) : List self.Position :=
  self.positionsOf (self.strictGlobals (self.value p).expression)

/-- **Every value comes after the values that it eagerly reads.** -/
def ReadsInitialized : Prop :=
  ∀ p q, self.Initializes p q →
    [self.value q, self.value p].Sublist ((self.sortedValueDeclarations ∅).map Prod.fst)

variable {self}

/-! ### What the collectors find -/

variable {expression : ExpressionId} {p q : self.Position} {lazyGlobalNames : Finset GlobalId}
  {id : GlobalId}

def guardPatterns : Guard → List PatternId
  | .Boolean _ => []
  | .Pattern _ pattern => [pattern]

/-- The patterns that a node matches itself.  The parameters of an abstraction are not visited. -/
def matchedPatterns : ExpressionKind → List PatternId
  | .Case _ alternatives => alternatives.flatMap CaseAlternative.patterns
  | .Guarded alternatives => alternatives.flatMap fun alternative =>
      alternative.guards.flatMap guardPatterns
  | .LetPattern pattern _ _ => [pattern]
  | _ => []

/-- The children whose globals are needed to evaluate a node: not the body of an abstraction, not
the functions that are bound recursively, and not the continuation of an effect. -/
def strictChildren (self : Module) : ExpressionKind → List ExpressionId
  | .Abstraction _ _ | .UncurriedAbstraction _ _ => []
  | .Let recursive bindings body =>
    (if recursive && bindings.all fun binding =>
        (self.storage.expressions binding.expression).isAbstraction
      then [] else bindings.map Binding.expression) ++ [body]
  | .Effect (.Bind action _ _) => [action]
  | kind => kind.children

/-- A node is the name of a global. -/
def Names (self : Module) (expression : ExpressionId) (id : GlobalId) : Prop :=
  self.storage.expressions expression = .Global id ∨
    self.storage.expressions expression = .Constructor id

/-- A node of the tree of an expression. -/
def Below (self : Module) : ExpressionId → ExpressionId → Prop :=
  Relation.ReflTransGen fun parent child => child ∈ (self.storage.expressions parent).children

/-- A node that is reached through strict children. -/
def StrictlyBelow (self : Module) : ExpressionId → ExpressionId → Prop :=
  Relation.ReflTransGen fun parent child =>
    child ∈ self.strictChildren (self.storage.expressions parent)

/-- A pattern matches a constructor, itself or below. -/
def Matches (self : Module) (pattern : PatternId) (id : GlobalId) : Prop :=
  ∃ below,
    Relation.ReflTransGen (fun parent child => child ∈ (self.storage.patterns parent).children)
    pattern below ∧ ∃ arguments, self.storage.patterns below = .Constructor id arguments

/-- A node names a global, or one of its patterns matches it. -/
def NamesOrMatches (self : Module) (expression : ExpressionId) (id : GlobalId) : Prop :=
  self.Names expression id ∨
    ∃ pattern ∈ matchedPatterns (self.storage.expressions expression), self.Matches pattern id

lemma mem_patternReferences {pattern : PatternId} :
    id ∈ self.patternReferences pattern ↔ self.Matches pattern id := by
  have hsucc (bound : ℕ) (pattern : PatternId) (id : GlobalId) :
      id ∈ self.collectPatternReferences (bound + 1) pattern ↔
        (∃ arguments, self.storage.patterns pattern = .Constructor id arguments) ∨
        ∃ child ∈ (self.storage.patterns pattern).children,
          id ∈ self.collectPatternReferences bound child := by
    rw [collectPatternReferences]
    cases self.storage.patterns pattern <;> simp [PatternKind.children, mem_unionAll, eq_comm]
  exact mem_collect self.patternHeight_lt hsucc (Nat.lt_succ_self _)

lemma mem_references_succ (bound : ℕ) (expression : ExpressionId) (id : GlobalId) :
    id ∈ self.collectExpressionReferences (bound + 1) expression ↔
      self.NamesOrMatches expression id ∨ ∃ child ∈ (self.storage.expressions expression).children,
        id ∈ self.collectExpressionReferences bound child := by
  rw [collectExpressionReferences, NamesOrMatches, Names]
  cases self.storage.expressions expression with
  | Case scrutinees alternatives =>
    simp only [matchedPatterns, ExpressionKind.children, mem_unionAll, mem_patternReferences,
      Finset.mem_union, List.mem_append, List.mem_map, List.mem_flatMap]
    grind
  | Guarded alternatives =>
    have hguard (guard : Guard) : (id ∈ match guard with
        | .Boolean expression => self.collectExpressionReferences bound expression
        | .Pattern expression pattern =>
          self.collectExpressionReferences bound expression ∪ self.patternReferences pattern) ↔
        (∃ pattern ∈ guardPatterns guard, self.Matches pattern id) ∨
          id ∈ self.collectExpressionReferences bound guard.expression := by
      cases guard <;> simp [guardPatterns, Guard.expression, mem_patternReferences, or_comm]
    simp only [matchedPatterns, ExpressionKind.children, mem_unionAll, hguard, Finset.mem_union,
      List.mem_append, List.mem_map, List.mem_flatMap, List.mem_singleton]
    grind
  | _ => simp [matchedPatterns, ExpressionKind.children, mem_unionAll,
      mem_patternReferences, eq_comm]

/-- With abstractions, the two collectors agree. -/
lemma globals_true (bound : ℕ) (expression : ExpressionId) :
    self.collectExpressionGlobals true bound expression =
      self.collectExpressionReferences bound expression := by
  induction bound generalizing expression with
  | zero => rfl
  | succ bound ih =>
    ext id
    rw [mem_references_succ, collectExpressionGlobals, NamesOrMatches, Names]
    cases hkind : self.storage.expressions expression <;>
      simp [matchedPatterns, ExpressionKind.children, mem_unionAll, ih, eq_comm,
        mem_references_succ,
        hkind, NamesOrMatches, Names]

lemma mem_strict_succ (bound : ℕ) (expression : ExpressionId) (id : GlobalId) :
    id ∈ self.collectExpressionGlobals false (bound + 1) expression ↔ self.Names expression id ∨
      ∃ child ∈ self.strictChildren (self.storage.expressions expression),
        id ∈ self.collectExpressionGlobals false bound child := by
  rw [collectExpressionGlobals, Names]
  cases self.storage.expressions expression with
  | Let recursive bindings body =>
    simp only [strictChildren]
    cases recursive <;> cases hall : bindings.all fun binding =>
      (self.storage.expressions binding.expression).isAbstraction <;>
      simp [mem_unionAll]
  | Effect effect => cases effect <;> simp [strictChildren, ExpressionKind.children, mem_unionAll]
  | _ => simp [strictChildren, ExpressionKind.children, mem_unionAll, eq_comm]

lemma strictChildren_subset (kind : ExpressionKind) : self.strictChildren kind ⊆ kind.children := by
  unfold strictChildren
  split
  · exact List.nil_subset _
  · exact List.nil_subset _
  · split
    · exact List.subset_append_right _ _
    · exact List.Subset.refl _
  · simp [ExpressionKind.children, EffectExpression.children]
  · exact List.Subset.refl _

lemma mem_strictGlobals : id ∈ self.strictGlobals expression ↔
    ∃ below, self.StrictlyBelow expression below ∧ self.Names below id :=
  mem_collect (fun node child hmem => self.height_lt node child (strictChildren_subset _ hmem))
    mem_strict_succ (Nat.lt_succ_self _)

lemma mem_lexicalGlobals : id ∈ self.lexicalGlobals expression ↔
    ∃ below, self.Below expression below ∧ self.NamesOrMatches below id := by
  rw [lexicalGlobals, globals_true]
  exact mem_collect self.height_lt mem_references_succ (Nat.lt_succ_self _)

lemma strictGlobals_subset (expression : ExpressionId) :
    self.strictGlobals expression ⊆ self.lexicalGlobals expression := by
  intro id hid
  obtain ⟨below, hbelow, hid⟩ := mem_strictGlobals.mp hid
  exact mem_lexicalGlobals.mpr
    ⟨below, Relation.ReflTransGen.mono (fun _ _ hmem => strictChildren_subset _ hmem) _ _ hbelow,
      .inl hid⟩

/-- A function mentions nothing outside abstractions. -/
lemma strictGlobals_function {position : self.Position} (h : self.IsFunction position) :
    self.strictGlobals (self.value position).expression = ∅ := by
  unfold IsFunction ExpressionKind.isAbstraction at h
  unfold strictGlobals collectExpressionGlobals
  split at h
  case h_1 hkind | h_2 hkind => simp [hkind]
  case h_3 => cases h

/-! ### The two graphs -/

lemma mem_positionsOf {globals : Finset GlobalId} :
    p ∈ self.positionsOf globals ↔ (self.value p).global ∈ globals := by
  simp [positionsOf]

/-- **The edges of the two graphs are exact.**  A value depends lexically on the values that are
named at a node below its expression or matched by a pattern of such a node, and strictly on those
that are named at a node which is reached through strict children, unless both are lazy. -/
theorem dependencies_exact (self : Module) (lazyGlobalNames : Finset GlobalId)
    (p q : self.Position) :
    (q ∈ self.lexicalDependencies p ↔ ∃ below, self.Below (self.value p).expression below ∧
      self.NamesOrMatches below (self.value q).global) ∧
    (q ∈ self.dependencies lazyGlobalNames p ↔
      (∃ below, self.StrictlyBelow (self.value p).expression below ∧
        self.Names below (self.value q).global) ∧
      ¬ ((self.value p).global ∈ lazyGlobalNames ∧ (self.value q).global ∈ lazyGlobalNames)) := by
  constructor
  · rw [lexicalDependencies, mem_positionsOf, mem_lexicalGlobals]
  · rw [dependencies, List.mem_filter, mem_positionsOf, mem_strictGlobals]
    simp [imp_iff_not_or]

lemma dependencies_empty : self.dependencies ∅ = self.strictMentions := by
  funext p
  simp [dependencies, strictMentions]

lemma walk_lexicalDependencies :
    Walk self.lexicalDependencies p q ↔ Relation.ReflTransGen self.Mentions p q := by
  simp only [Walk, lexicalDependencies, mem_positionsOf]
  rfl

/-- What is read eagerly is mentioned, if only by what is mentioned. -/
lemma EagerlyReads.mentions (h : self.EagerlyReads p q) :
    Relation.ReflTransGen self.Mentions p q := by
  induction h with
  | strict hmem => exact .single (strictGlobals_subset _ hmem)
  | through _ _ hmem ih => exact ih.tail hmem

/-- A function mentions nothing strictly. -/
lemma not_isFunction_of_mem (hmem : q ∈ self.strictMentions p) : ¬ self.IsFunction p := by
  intro hfunction
  have hread := mem_positionsOf.mp hmem
  rw [strictGlobals_function hfunction] at hread
  simp at hread

/-- Values that lead to a value by strict mentions are not functions. -/
lemma initializes_of_walk (h : Walk self.strictMentions p q) (hq : ¬ self.IsFunction q) :
    ¬ self.IsFunction p ∧ Relation.ReflTransGen self.Initializes p q := by
  induction h using Relation.ReflTransGen.head_induction_on with
  | refl => exact ⟨hq, .refl⟩
  | @head p r hstep _ ih =>
    have hp := not_isFunction_of_mem hstep
    exact ⟨hp, ih.2.head ⟨hp, ih.1, .strict (mem_positionsOf.mp hstep)⟩⟩

lemma strictMentions_acyclic (h : ∀ p, ¬ Relation.TransGen self.Initializes p p)
    (p q : self.Position)
    (hmem : q ∈ self.strictMentions p) : ¬ Walk self.strictMentions q p := by
  intro hpath
  have hp := not_isFunction_of_mem hmem
  obtain ⟨hq, hback⟩ := initializes_of_walk hpath hp
  exact h p (Relation.TransGen.head' ⟨hp, hq, .strict (mem_positionsOf.mp hmem)⟩ hback)

/-! ### The order of positions -/

lemma sublist_or_sublist {α : Type} {a b : α} {elements : List α} (ha : a ∈ elements)
    (hb : b ∈ elements) (hne : a ≠ b) : [a, b].Sublist elements ∨ [b, a].Sublist elements := by
  induction elements with
  | nil => simp at ha
  | cons c elements ih =>
    rcases List.mem_cons.mp ha with hac | ha' <;> rcases List.mem_cons.mp hb with hbc | hb'
    · exact absurd (hac.trans hbc.symm) hne
    · exact .inl (hac ▸ (List.singleton_sublist.mpr hb').cons_cons a)
    · exact .inr (hbc ▸ (List.singleton_sublist.mpr ha').cons_cons b)
    · exact (ih ha' hb').imp (·.cons c) (·.cons c)

lemma perm_sortedPositions (lazyGlobalNames : Finset GlobalId) :
    (self.sortedPositions lazyGlobalNames).Perm
      (initializerComponents self.lexicalDependencies).flatten := by
  refine List.Perm.flatten_congr ?_
  rw [List.forall₂_map_left_iff]
  exact List.forall₂_same.mpr fun component _ => List.perm_insertionSort _ component

/-- A value that comes before another one that it mentions, if only indirectly, is of the same
component and has the lower strict position. -/
lemma pairwise_sortedPositions (lazyGlobalNames : Finset GlobalId) :
    (self.sortedPositions lazyGlobalNames).Pairwise fun earlier later =>
      Walk self.lexicalDependencies earlier later → Walk self.lexicalDependencies later earlier ∧
        self.strictPosition lazyGlobalNames earlier ≤ self.strictPosition
          lazyGlobalNames later := by
  have hcomponents := isCondensation_initializerComponents self.lexicalDependencies
  refine List.pairwise_flatten.mpr ⟨?_, ?_⟩
  · intro sorted hsorted
    obtain ⟨component, hcomponent, rfl⟩ := List.mem_map.mp hsorted
    let key := self.strictPosition lazyGlobalNames
    have hpairwise := List.pairwise_insertionSort (fun p q => key p ≤ key q) component
    refine hpairwise.imp_of_mem fun hp hq hle _ => ⟨?_, hle⟩
    rw [List.mem_insertionSort] at hp hq
    exact ((hcomponents.connected component hcomponent _ hp _).mp hq).2
  · rw [List.pairwise_map]
    refine hcomponents.ordered.imp fun hnot p hp q hq hpath => ?_
    rw [List.mem_insertionSort] at hp hq
    exact absurd hpath (hnot p hp q hq)

/-- Of two values, the one that the other leads to comes first, unless both are of one component. -/
lemma sublist_sortedPositions_iff (hpath : Walk self.lexicalDependencies p q) (hne : p ≠ q) :
    [q, p].Sublist (self.sortedPositions lazyGlobalNames) ↔
      (Walk self.lexicalDependencies q p →
        self.strictPosition lazyGlobalNames q < self.strictPosition lazyGlobalNames p) := by
  have hcomponents := isCondensation_initializerComponents self.lexicalDependencies
  have hmem : ∀ r, r ∈ self.sortedPositions lazyGlobalNames := fun r =>
    (perm_sortedPositions lazyGlobalNames).mem_iff.mpr (hcomponents.mem_flatten r)
  have hpairwise : ∀ {a b}, [a, b].Sublist (self.sortedPositions lazyGlobalNames) → _ :=
    List.pairwise_iff_forall_sublist.mp (@pairwise_sortedPositions self lazyGlobalNames)
  have hinjective : self.strictPosition lazyGlobalNames q ≠ self.strictPosition lazyGlobalNames p :=
    fun heq => hne ((List.idxOf_inj (mem_initializerPostorder _ q)).mp heq).symm
  constructor
  · intro hsublist hback
    exact lt_of_le_of_ne (hpairwise hsublist hback).2 hinjective
  · intro hlt
    refine (sublist_or_sublist (hmem q) (hmem p) (Ne.symm hne)).resolve_right fun hsublist => ?_
    obtain ⟨hback, hle⟩ := hpairwise hsublist hpath
    exact absurd (hlt hback) (by omega)

/-! ### The order of declarations -/

lemma nodup_values : (self.values.map ValueDeclaration.global).Nodup := by
  have hsublist : ((self.declarations.filterMap fun declaration =>
      match declaration.kind with
      | .Value expression => some (⟨declaration.global, expression⟩ : ValueDeclaration)
      | _ => none).map ValueDeclaration.global).Sublist
        (self.declarations.map Declaration.global) := by
    induction self.declarations with
    | nil => exact List.Sublist.refl _
    | cons declaration declarations ih =>
      obtain ⟨global, kind⟩ := declaration
      cases kind with
      | Value expression => exact ih.cons_cons global
      | Constructor | Foreign => exact ih.cons global
  have hperm := (List.filter_append_perm (fun declaration : ValueDeclaration =>
    declaration.global.isGenerated) (self.declarations.filterMap fun declaration =>
      match declaration.kind with
      | .Value expression => some ⟨declaration.global, expression⟩
      | _ => none)).map ValueDeclaration.global
  exact hperm.nodup_iff.mpr (self.nodup.sublist hsublist)

lemma value_injective : Function.Injective self.value :=
  List.nodup_iff_injective_get.mp (List.Nodup.of_map _ self.nodup_values)

lemma sublist_sortedValueDeclarations_iff :
    [self.value q, self.value p].Sublist
        ((self.sortedValueDeclarations lazyGlobalNames).map Prod.fst) ↔
      [q, p].Sublist (self.sortedPositions lazyGlobalNames) := by
  have hmap : (self.sortedValueDeclarations lazyGlobalNames).map Prod.fst =
      (self.sortedPositions lazyGlobalNames).map self.value := by
    simp [sortedValueDeclarations]
  rw [hmap]
  refine ⟨fun h => ?_, fun h => h.map self.value⟩
  obtain ⟨positions, hsublist, heq⟩ := List.sublist_map_iff.mp h
  have hpositions : [q, p].map self.value = positions.map self.value := heq
  rwa [value_injective.list_map hpositions]

/-- **When values are initialised in time.**  If eager reading is acyclic, every value comes after
the values that it eagerly reads exactly if this holds within lexical groups: of a value and one
that it eagerly reads and that mentions it in turn, a depth-first search along strict mentions has
to finish the latter first. -/
theorem readsInitialized_iff (hacyclic : ∀ p, ¬ Relation.TransGen self.Initializes p p) :
    self.ReadsInitialized ↔ ∀ p q, self.Initializes p q → Relation.ReflTransGen self.Mentions q p →
      First self.strictMentions (List.finRange self.values.length) q p := by
  refine forall_congr' fun p => forall_congr' fun q => imp_congr_right fun hreads => ?_
  have hne : p ≠ q := by
    rintro rfl
    exact hacyclic p (.single hreads)
  have hpath := walk_lexicalDependencies.mpr hreads.2.2.mentions
  have hsearch := explores_initializerPostorder (self.dependencies ∅)
  have hmem := mem_initializerPostorder (self.dependencies ∅)
  rw [sublist_sortedValueDeclarations_iff, sublist_sortedPositions_iff hpath hne,
    walk_lexicalDependencies]
  refine imp_congr_right fun _ => ?_
  rw [dependencies_empty] at hsearch hmem
  have hsettled : Settled self.strictMentions ∅ (List.finRange self.values.length) := by
    simp [Settled]
  rw [strictPosition, strictPosition, dependencies_empty]
  exact hsearch.idxOf_lt_iff (strictMentions_acyclic hacyclic) hsettled (hmem q)
    (hmem p) (Ne.symm hne)

end Module

/-! ## A value that is read through a function -/

namespace ReadThrough

/-- The expressions of the module below. -/
def expressions (knot : Bool) : List ExpressionKind :=
  [.Application 1 [2], .Global (.Term 0 1), .Literal, .Abstraction [] 4,
    .Global (.Term 0 2), .Record [⟨"run", 6⟩], .Abstraction [] 7,
    if knot then .Global (.Term 0 0) else .Literal]

def heights : List ℕ := [1, 0, 0, 1, 0, 2, 1, 0]

lemma heights_lt (knot : Bool) (parent child : ExpressionId)
    (h : child ∈ ((expressions knot).getD parent .TrivialEvidence).children) :
    heights.getD child 0 < heights.getD parent 0 := by
  have hsmall : ∀ parent < 8, ∀ child ∈ ((expressions knot).getD parent .TrivialEvidence).children,
      heights.getD child 0 < heights.getD parent 0 := by
    cases knot <;> decide
  by_cases hparent : parent < 8
  · exact hsmall parent hparent child h
  · have hlength : (expressions knot).length ≤ parent := by simpa [expressions] using hparent
    rw [List.getD_eq_getElem?_getD, List.getElem?_eq_none hlength] at h
    simp [ExpressionKind.children] at h

/-- The module `p = f 1`, `f = \_ -> q`, `q = { run: \_ -> r }`, where `r` is `p` or the literal
2. -/
def module (knot : Bool) : Module where
  storage := ⟨fun id => (expressions knot).getD id .TrivialEvidence, fun _ => .Wildcard⟩
  declarations := [⟨.Term 0 0, .Value 0⟩, ⟨.Term 0 1, .Value 3⟩, ⟨.Term 0 2, .Value 5⟩]
  height id := heights.getD id 0
  patternHeight _ := 0
  height_lt := heights_lt knot
  patternHeight_lt := by simp [PatternKind.children]
  nodup := by decide

variable {knot : Bool}

/-- Eager reading starts at `p` and goes through `f` to `q`. -/
lemma eagerlyReads_cases {p q : (module knot).Position} (h : (module knot).EagerlyReads p q) :
    p.val = 0 ∧ (q.val = 1 ∨ q.val = 2) := by
  have hstrict : ∀ p q : (module knot).Position, ((module knot).value q).global ∈
      (module knot).strictGlobals ((module knot).value p).expression → p.val = 0 ∧ q.val = 1 := by
    cases knot <;> decide
  have hlexical : ∀ f q : (module knot).Position, ((module knot).value q).global ∈
      (module knot).lexicalGlobals ((module knot).value f).expression → f.val = 1 → q.val = 2 := by
    cases knot <;> decide
  have hfunction : ∀ f : (module knot).Position,
      ((module knot).storage.expressions ((module knot).value f).expression).isAbstraction = true →
        f.val = 1 := by
    cases knot <;> decide
  induction h with
  | strict hmem => exact ⟨(hstrict _ _ hmem).1, .inl (hstrict _ _ hmem).2⟩
  | through _ hf hmem ih => exact ⟨ih.1, .inr (hlexical _ _ hmem (hfunction _ hf))⟩

lemma acyclic (p : (module knot).Position) : ¬ Relation.TransGen (module knot).Initializes p p := by
  have hlt : ∀ a b, Relation.TransGen (module knot).Initializes a b → a.val < b.val := by
    intro a b h
    have hstep : ∀ a b, (module knot).Initializes a b → a.val < b.val := fun a b hread => by
      have := eagerlyReads_cases hread.2.2
      omega
    induction h with
    | single hread => exact hstep _ _ hread
    | tail _ hread ih => exact ih.trans (hstep _ _ hread)
  exact fun h => lt_irrefl _ (hlt p p h)

end ReadThrough

/-- **A value may be initialised too early.**  `p` reads `q` through `f` and no value reads `p`, but
`q` mentions `p`, so that only the strict mentions order them, and these do not relate them. -/
theorem readThrough_not_initialized :
    (∀ p, ¬ Relation.TransGen (ReadThrough.module true).Initializes p p) ∧
      ¬ (ReadThrough.module true).ReadsInitialized := by
  refine ⟨ReadThrough.acyclic, fun h => ?_⟩
  have hreads : (ReadThrough.module true).Initializes ⟨0, by decide⟩ ⟨2, by decide⟩ := by
    refine ⟨by unfold Module.IsFunction; decide, by unfold Module.IsFunction; decide, ?_⟩
    have hfunction : (ReadThrough.module true).EagerlyReads ⟨0, by decide⟩ ⟨1, by decide⟩ :=
      .strict (by decide)
    exact hfunction.through (by unfold Module.IsFunction; decide) (by decide)
  exact absurd (h _ _ hreads) (by decide)

theorem readThrough_initialized :
    (∀ p, ¬ Relation.TransGen (ReadThrough.module false).Initializes p p) ∧
      (ReadThrough.module false).ReadsInitialized := by
  refine ⟨ReadThrough.acyclic, (Module.readsInitialized_iff ReadThrough.acyclic).mpr ?_⟩
  intro p q hreads hback
  have hleaf : ∀ q r : (ReadThrough.module false).Position, q.val = 2 →
      ((ReadThrough.module false).value r).global ∉
        (ReadThrough.module false).lexicalGlobals
          ((ReadThrough.module false).value q).expression := by
    decide
  have hcases := ReadThrough.eagerlyReads_cases hreads.2.2
  have hq : q.val = 2 := by
    refine hcases.2.resolve_left fun hone => hreads.2.1 ?_
    have : ∀ f : (ReadThrough.module false).Position, f.val = 1 →
        ((ReadThrough.module false).storage.expressions
          ((ReadThrough.module false).value f).expression).isAbstraction = true := by decide
    exact this q hone
  rcases hback.cases_head with rfl | ⟨r, hmentions, -⟩
  · omega
  · exact absurd hmentions (hleaf q r hq)

end Iris.JavaScript
