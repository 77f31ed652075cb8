import IrisCompiler.Checking.Solving
import Mathlib.Data.List.ReduceOption
import Mathlib.Data.List.Sort

/-!
# `Prim.Int`: comparison

The solver of `Compare` (`core/constraint/compiler/prim_int.rs`).  Two literals are compared as
numbers.  Otherwise the given `Compare` constraints make a graph whose edges lead from smaller to
larger terms, the literals in it are connected in ascending order, and the ordering is read off the
paths between the two terms.
-/

namespace Iris.Checking

open TotalRun

/-! ## The source's functions -/

/-- The constructors of `Ordering` and the class `Compare`. -/
structure PrimOrdering where
  lt : TypeItem
  eq : TypeItem
  gt : TypeItem
  compare : TypeItem

namespace PrimOrdering

variable (prim : PrimOrdering)

def type : Ordering → Ty
  | .lt => .Constructor prim.lt
  | .eq => .Constructor prim.eq
  | .gt => .Constructor prim.gt

/-- The ordering that a type stands for. -/
def ordering? (relation : Ty) : Option Ordering :=
  if relation = prim.type .lt then some .lt
  else if relation = prim.type .eq then some .eq
  else if relation = prim.type .gt then some .gt
  else none

end PrimOrdering

/-- `expect_type_arguments`, for any number of them. -/
def CanonicalConstraint.typeArguments (self : CanonicalConstraint) : List Ty :=
  self.arguments.filterMap fun
    | .Type argument => some argument
    | .Kind _ => none

/-- The terms and the edges between them (`DiGraphMap`). -/
structure CompareGraph where
  nodes : List Ty
  edges : List (Ty × Ty)

namespace CompareGraph

def addNode (self : CompareGraph) (node : Ty) : CompareGraph :=
  if node ∈ self.nodes then self else { self with nodes := self.nodes ++ [node] }

def addEdge (self : CompareGraph) (source target : Ty) : CompareGraph :=
  let self := (self.addNode source).addNode target
  { self with edges := self.edges ++ [(source, target)] }

/-- The edges of a comparison. -/
def addRelation (self : CompareGraph) (a b : Ty) : Option Ordering → CompareGraph
  | some .lt => self.addEdge a b
  | some .eq => (self.addEdge a b).addEdge b a
  | some .gt => self.addEdge b a
  | none => self

/-- Edges between the literals of the graph, in ascending order. -/
def addIntegers (self : CompareGraph) (integers : List (ℤ × Ty)) : CompareGraph :=
  let integers := integers.insertionSort fun left right => left.1 ≤ right.1
  (integers.zip integers.tail).foldl (fun graph window => graph.addEdge window.1.2 window.2.2) self

end CompareGraph

section Source

variable (context : CheckContext) (prim : PrimOrdering)

/-- `has_path_connecting`, the graph library's search for a path. -/
abbrev HasPath := List (Ty × Ty) → Ty → Ty → Bool

/-- The edges of a given constraint. -/
def addGiven (fuel : ℕ) (graph : CompareGraph) (constraint : CanonicalConstraint) :
    CheckM CompareGraph := do
  if constraint.item ≠ prim.compare then return graph
  let [a, b, relation] := constraint.typeArguments | return graph
  let a ← expand context fuel a
  let b ← expand context fuel b
  let relation ← expand context fuel relation
  return graph.addRelation a b (prim.ordering? relation)

/-- A node with its value, if it is a literal. -/
def integerNode (fuel : ℕ) (node : Ty) : CheckM (Option (ℤ × Ty)) := do
  return (← extractInteger context fuel node).map (·, node)

/-- What the paths between the two terms say. -/
def readPaths (hasPath : HasPath) (graph : CompareGraph) (left right : Ty) : Option Ordering :=
  match hasPath graph.edges left right, hasPath graph.edges right left with
  | true, true => some .eq
  | true, false => some .lt
  | false, true => some .gt
  | false, false => none

def matchCompareTransitive (hasPath : HasPath) (fuel : ℕ) (left right ordering : Ty)
    (given : List CanonicalConstraint) : CheckM (Option MatchInstance) := do
  let graph ← given.foldlM (addGiven context prim fuel) ⟨[], []⟩
  let graph := (graph.addNode left).addNode right
  let integers ← graph.nodes.mapM (integerNode context fuel)
  let graph := graph.addIntegers integers.reduceOption
  match readPaths hasPath graph left right with
  | some result => return some (← matchEquality context fuel ordering (prim.type result))
  | none => return none

def matchCompare (hasPath : HasPath) (fuel : ℕ) (left right ordering : Ty)
    (given : List CanonicalConstraint) : CheckM MatchInstance := do
  let left ← expand context fuel left
  let right ← expand context fuel right
  let ordering ← expand context fuel ordering
  let leftInt ← extractInteger context fuel left
  let rightInt ← extractInteger context fuel right
  match leftInt, rightInt with
  | some leftInt, some rightInt =>
    matchEquality context fuel ordering (prim.type (compare leftInt rightInt))
  | _, _ =>
    match ← matchCompareTransitive context prim hasPath fuel left right ordering given with
    | some result => return result
    | none => blockingConstraint fuel [left, right]

end Source

/-! ## The graph of the given constraints -/

/-- A literal or a rigid variable. -/
def Ty.isTerm : Ty → Bool
  | .Integer _ | .Rigid _ _ _ => true
  | _ => false

/-- What a given constraint says about two terms. -/
abbrev Fact := Ty × Ty × Ordering

/-- The graph with the edges of a fact. -/
def CompareGraph.addFact (self : CompareGraph) : Option Fact → CompareGraph
  | some (a, b, ordering) => self.addRelation a b (some ordering)
  | none => self

/-- The graph without the edges between literals. -/
def graphOf (facts : List (Option Fact)) (left right : Ty) : CompareGraph :=
  ((facts.foldl CompareGraph.addFact ⟨[], []⟩).addNode left).addNode right

/-- The literals of a graph. -/
def CompareGraph.integers (self : CompareGraph) : List (ℤ × Ty) :=
  self.nodes.filterMap fun node => node.integer?.map (·, node)

/-- A fact says that the first term is less. -/
def Smaller (facts : List (Option Fact)) (x y : Ty) : Prop :=
  some (x, y, .lt) ∈ facts ∨ some (y, x, .gt) ∈ facts

/-- A fact says that the terms are equal. -/
def Level (facts : List (Option Fact)) (x y : Ty) : Prop := some (x, y, .eq) ∈ facts

/-- The facts are about literals and rigid variables. -/
def AboutTerms (facts : List (Option Fact)) : Prop :=
  ∀ a b ordering, some (a, b, ordering) ∈ facts → a.isTerm ∧ b.isTerm

namespace CompareGraph

variable {graph : CompareGraph} {facts : List (Option Fact)} {left right a b x y : Ty}

@[simp]
lemma mem_nodes_addNode : x ∈ (graph.addNode a).nodes ↔ x ∈ graph.nodes ∨ x = a := by
  unfold addNode
  split_ifs with hold
  · exact ⟨.inl, fun h => h.elim id fun hsame => hsame ▸ hold⟩
  · simp

@[simp]
lemma edges_addNode : (graph.addNode a).edges = graph.edges := by
  unfold addNode
  split_ifs <;> rfl

@[simp]
lemma mem_nodes_addEdge : x ∈ (graph.addEdge a b).nodes ↔ x ∈ graph.nodes ∨ x = a ∨ x = b := by
  simp [addEdge, or_assoc]

@[simp]
lemma mem_edges_addEdge :
    (x, y) ∈ (graph.addEdge a b).edges ↔ (x, y) ∈ graph.edges ∨ (x = a ∧ y = b) := by
  simp [addEdge]

/-- Every node stands once, and the edges are between nodes. -/
structure Valid (graph : CompareGraph) : Prop where
  nodup : graph.nodes.Nodup
  ends : ∀ {x y}, (x, y) ∈ graph.edges → x ∈ graph.nodes ∧ y ∈ graph.nodes

lemma Valid.addNode (h : graph.Valid) (a : Ty) : (graph.addNode a).Valid where
  nodup := by
    unfold CompareGraph.addNode
    split_ifs with hold
    · exact h.nodup
    · exact List.nodup_append'.mpr ⟨h.nodup, List.nodup_singleton a, by simpa using hold⟩
  ends hmem := by
    obtain ⟨hx, hy⟩ := h.ends (edges_addNode ▸ hmem)
    exact ⟨mem_nodes_addNode.mpr (.inl hx), mem_nodes_addNode.mpr (.inl hy)⟩

lemma Valid.addEdge (h : graph.Valid) (a b : Ty) : (graph.addEdge a b).Valid where
  nodup := ((h.addNode a).addNode b).nodup
  ends hmem := by
    simp only [mem_nodes_addEdge]
    rcases mem_edges_addEdge.mp hmem with hold | ⟨rfl, rfl⟩
    · exact ⟨.inl (h.ends hold).1, .inl (h.ends hold).2⟩
    · exact ⟨.inr (.inl rfl), .inr (.inr rfl)⟩

lemma Valid.addFact (h : graph.Valid) : ∀ fact : Option Fact, (graph.addFact fact).Valid
  | none => h
  | some (a, b, .lt) => h.addEdge a b
  | some (a, b, .eq) => (h.addEdge a b).addEdge b a
  | some (a, b, .gt) => h.addEdge b a

lemma valid_graphOf (facts : List (Option Fact)) (left right : Ty) :
    (graphOf facts left right).Valid := by
  have hvalid (graph : CompareGraph) (h : graph.Valid) : (facts.foldl addFact graph).Valid := by
    induction facts generalizing graph with
    | nil => exact h
    | cons fact facts ih => exact ih _ (h.addFact fact)
  exact ((hvalid ⟨[], []⟩ ⟨List.nodup_nil, by simp⟩).addNode left).addNode right

/-- The nodes of a fact are its terms. -/
lemma mem_nodes_addFact {fact : Option Fact} (hmem : x ∈ (graph.addFact fact).nodes) :
    x ∈ graph.nodes ∨ ∃ a b ordering, fact = some (a, b, ordering) ∧ (x = a ∨ x = b) := by
  match fact with
  | none => exact .inl hmem
  | some (a, b, ordering) =>
    have hends : x ∈ graph.nodes ∨ x = a ∨ x = b := by
      cases ordering <;> simp only [addFact, addRelation, mem_nodes_addEdge] at hmem <;> tauto
    exact hends.imp_right fun hsame => ⟨a, b, ordering, rfl, hsame⟩

/-- The nodes of the graph are terms. -/
lemma isTerm_of_mem (hterms : AboutTerms facts) (hl : left.isTerm) (hr : right.isTerm)
    (hmem : x ∈ (graphOf facts left right).nodes) : x.isTerm := by
  have hinside (graph : CompareGraph) (h : ∀ x ∈ graph.nodes, x.isTerm) :
      ∀ x ∈ (facts.foldl addFact graph).nodes, x.isTerm := by
    clear hmem
    induction facts generalizing graph with
    | nil => exact h
    | cons fact facts ih =>
      refine ih (fun a b ordering hmem => hterms a b ordering (.tail _ hmem)) _ fun x hmem => ?_
      rcases mem_nodes_addFact hmem with hold | ⟨a, b, ordering, rfl, rfl | rfl⟩
      · exact h x hold
      · exact (hterms x b ordering (.head _)).1
      · exact (hterms a x ordering (.head _)).2
  simp only [graphOf, mem_nodes_addNode] at hmem
  rcases hmem with (hmem | rfl) | rfl
  · exact hinside ⟨[], []⟩ (by simp) x hmem
  · exact hl
  · exact hr

lemma mem_edges_addFact {fact : Option Fact} : (x, y) ∈ (graph.addFact fact).edges ↔
    (x, y) ∈ graph.edges ∨ Smaller [fact] x y ∨ Level [fact] x y ∨ Level [fact] y x := by
  match fact with
  | none => simp [addFact, Smaller, Level]
  | some (a, b, .lt) => simp [addFact, addRelation, Smaller, Level]
  | some (a, b, .eq) => simp [addFact, addRelation, Smaller, Level, or_assoc, and_comm]
  | some (a, b, .gt) => simp [addFact, addRelation, Smaller, Level, and_comm]

lemma mem_edges_foldl : (x, y) ∈ (facts.foldl addFact graph).edges ↔
    (x, y) ∈ graph.edges ∨ Smaller facts x y ∨ Level facts x y ∨ Level facts y x := by
  induction facts generalizing graph with
  | nil => simp [Smaller, Level]
  | cons fact facts ih =>
    rw [List.foldl_cons, ih, mem_edges_addFact]
    simp only [Smaller, Level, List.mem_cons]
    tauto

lemma mem_edges_graphOf : (x, y) ∈ (graphOf facts left right).edges ↔
    Smaller facts x y ∨ Level facts x y ∨ Level facts y x := by
  simp [graphOf, mem_edges_foldl]

/-- The literals in ascending order. -/
def ascending (integers : List (ℤ × Ty)) : List (ℤ × Ty) :=
  integers.insertionSort fun left right => left.1 ≤ right.1

lemma mem_edges_addIntegers {integers : List (ℤ × Ty)} :
    (x, y) ∈ (graph.addIntegers integers).edges ↔ (x, y) ∈ graph.edges ∨
      ∃ p q, (p, q) ∈ (ascending integers).zip (ascending integers).tail ∧ x = p.2 ∧ y = q.2 := by
  have hfold (windows : List ((ℤ × Ty) × (ℤ × Ty))) (graph : CompareGraph) :
      (x, y) ∈ (windows.foldl (fun graph window =>
        graph.addEdge window.1.2 window.2.2) graph).edges ↔ (x, y) ∈ graph.edges ∨
          ∃ p q, (p, q) ∈ windows ∧ x = p.2 ∧ y = q.2 := by
    induction windows generalizing graph with
    | nil => simp
    | cons window windows ih =>
      rw [List.foldl_cons, ih, mem_edges_addEdge]
      obtain ⟨p, q⟩ := window
      constructor
      · rintro ((hold | ⟨rfl, rfl⟩) | ⟨p', q', hmem, hsame⟩)
        · exact .inl hold
        · exact .inr ⟨p, q, .head _, rfl, rfl⟩
        · exact .inr ⟨p', q', .tail _ hmem, hsame⟩
      · rintro (hold | ⟨p', q', hmem, hsame⟩)
        · exact .inl (.inl hold)
        · rcases List.mem_cons.mp hmem with hsame' | hmem
          · cases hsame'
            exact .inl (.inr hsame)
          · exact .inr ⟨p', q', hmem, hsame⟩
  exact hfold _ graph

lemma mem_integers {value : ℤ} :
    (value, x) ∈ graph.integers ↔ x ∈ graph.nodes ∧ x = .Integer value := by
  simp only [integers, List.mem_filterMap, Option.map_eq_some_iff, Prod.mk.injEq]
  constructor
  · rintro ⟨_, hmem, value, hfound, rfl, rfl⟩
    exact ⟨hmem, Ty.eq_of_integer? hfound⟩
  · rintro ⟨hmem, rfl⟩
    exact ⟨_, hmem, value, rfl, rfl, rfl⟩

end CompareGraph

end Iris.Checking
