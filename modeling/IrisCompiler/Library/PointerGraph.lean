import Mathlib.Data.List.AList
import Mathlib.Data.Finset.Card
import Mathlib.Logic.Relation

/-!
# Finite graphs with at most one successor

A finite map from nodes to nodes, read as a graph: every node has at most one outgoing edge, so
following edges from a node is a walk, not a search.  The module gives the walk with a bound on its
length, and says for any relation when adding an edge keeps it free of cycles.
-/

namespace PointerGraph

open Relation

variable {α : Type*}

/-! ## Relations without cycles -/

/-- No node reaches itself along one or more edges. -/
def Acyclic (edge : α → α → Prop) : Prop := ∀ a, ¬ TransGen edge a a

section Acyclic

variable {edge larger smaller : α → α → Prop}

/-- Fewer edges, fewer cycles. -/
lemma Acyclic.mono (h : Acyclic edge) (hle : ∀ a b, smaller a b → edge a b) : Acyclic smaller :=
  fun a hcycle => h a (TransGen.mono hle a a hcycle)

/-- A path of a relation with one more edge is a path of the old one, or passes through it. -/
lemma reach_of_insert {tail head node target : α}
    (hlarger : ∀ a b, larger a b → (a = tail ∧ b = head) ∨ edge a b)
    (h : ReflTransGen larger node target) :
    ReflTransGen edge node target ∨
      (ReflTransGen edge node tail ∧ ReflTransGen edge head target) := by
  induction h using ReflTransGen.head_induction_on with
  | refl => exact Or.inl ReflTransGen.refl
  | head hedge _ ih =>
    rcases hlarger _ _ hedge with ⟨rfl, rfl⟩ | hedge
    · exact Or.inr ⟨ReflTransGen.refl, ih.elim id And.right⟩
    · exact ih.imp (ReflTransGen.head hedge) (And.imp_left (ReflTransGen.head hedge))

/-- **An edge whose head does not reach its tail closes no cycle.** -/
theorem Acyclic.insert (h : Acyclic edge) {tail head : α}
    (hlarger : ∀ a b, larger a b → (a = tail ∧ b = head) ∨ edge a b)
    (hreach : ¬ ReflTransGen edge head tail) : Acyclic larger := by
  intro a hcycle
  obtain ⟨b, hedge, hback⟩ := TransGen.head'_iff.mp hcycle
  rcases hlarger _ _ hedge with ⟨rfl, rfl⟩ | hedge
  · exact hreach ((reach_of_insert hlarger hback).elim id And.right)
  · rcases reach_of_insert hlarger hback with hold | ⟨htail, hhead⟩
    · exact h a (TransGen.head' hedge hold)
    · exact hreach (hhead.trans (ReflTransGen.head hedge htail))

/-- **Edges may be moved to a node without outgoing edges.** -/
theorem Acyclic.retarget (h : Acyclic edge) {sink : α}
    (hlarger : ∀ a b, larger a b → b = sink ∨ edge a b) (hsink : ∀ b, ¬ larger sink b) :
    Acyclic larger := by
  -- an edge of a cycle is followed by another one, so it does not end in the sink
  have hold : ∀ {a b c}, larger a b → larger b c → edge a b := by
    intro a b c hab hbc
    refine (hlarger a b hab).resolve_left ?_
    rintro rfl
    exact hsink c hbc
  intro a hcycle
  obtain ⟨b, hfirst, -⟩ := TransGen.head'_iff.mp hcycle
  suffices hpath : ∀ {c}, TransGen larger a c → (∃ d, larger c d) → TransGen edge a c from
    h a (hpath hcycle ⟨b, hfirst⟩)
  intro c hpath
  induction hpath with
  | single hedge => exact fun ⟨_, hnext⟩ => TransGen.single (hold hedge hnext)
  | tail _ hedge ih => exact fun ⟨_, hnext⟩ => (ih ⟨_, hedge⟩).tail (hold hedge hnext)

end Acyclic

/-! ## Walks -/

/-- A finite map, read as a graph. -/
abbrev Graph (α : Type*) := AList (fun _ : α => α)

variable [DecidableEq α]

/-- The edge relation of a graph. -/
def Edge (graph : Graph α) (a b : α) : Prop := graph.lookup a = some b

/-- Follow the edges from a node until `target` is met (`true`) or the edges end (`false`);
`none` when neither happens within the bound. -/
def walk (graph : Graph α) (target : α) : ℕ → α → Option Bool
  | 0, _ => none
  | fuel + 1, node =>
    if node = target then some true
    else
      match graph.lookup node with
      | none => some false
      | some next => walk graph target fuel next

/-- A walk has at most one node for each key, and one more at its end. -/
def bound (graph : Graph α) : ℕ := graph.keys.length + 1

lemma walk_true {graph : Graph α} {target : α} :
    ∀ {fuel : ℕ} {node : α}, walk graph target fuel node = some true →
      ReflTransGen (Edge graph) node target
  | 0, node, h => by simp [walk] at h
  | fuel + 1, node, h => by
    rw [walk] at h
    split at h
    · rename_i heq
      rw [heq]
    · split at h
      · cases h
      · rename_i next hnext
        exact ReflTransGen.head hnext (walk_true h)

lemma walk_false {graph : Graph α} {target : α} :
    ∀ {fuel : ℕ} {node : α}, walk graph target fuel node = some false →
      ¬ ReflTransGen (Edge graph) node target
  | 0, node, h => by simp [walk] at h
  | fuel + 1, node, h => by
    rw [walk] at h
    split at h
    · cases h
    · rename_i hne
      intro hreach
      rcases ReflTransGen.cases_head hreach with heq | ⟨next, hedge, hrest⟩
      · exact hne heq
      · rw [hedge] at h
        exact walk_false h hrest

/-- A walk that runs out has passed as many distinct keys as it had fuel. -/
lemma walk_none {graph : Graph α} (hacyclic : Acyclic (Edge graph)) {target : α} :
    ∀ {fuel : ℕ} {node : α} (visited : Finset α),
      (∀ a ∈ visited, a ∈ graph ∧ TransGen (Edge graph) a node) →
      walk graph target fuel node = none → visited.card + fuel ≤ graph.keys.length
  | 0, node, visited, hvisited, _ => by
    have hsubset : visited ⊆ graph.keys.toFinset := by
      intro a ha
      exact List.mem_toFinset.mpr (AList.mem_keys.mp (hvisited a ha).1)
    calc visited.card + 0 ≤ graph.keys.toFinset.card := Finset.card_le_card hsubset
      _ ≤ graph.keys.length := List.toFinset_card_le _
  | fuel + 1, node, visited, hvisited, h => by
    rw [walk] at h
    split at h
    · cases h
    · split at h
      · cases h
      · rename_i next hnext
        have hnode : node ∉ visited := fun hmem => hacyclic node (hvisited node hmem).2
        have hkey : node ∈ graph := AList.lookup_isSome.mp (by rw [hnext]; rfl)
        have hgrown : ∀ a ∈ insert node visited, a ∈ graph ∧ TransGen (Edge graph) a next := by
          intro a ha
          rcases Finset.mem_insert.mp ha with rfl | ha
          · exact ⟨hkey, TransGen.single hnext⟩
          · exact ⟨(hvisited a ha).1, (hvisited a ha).2.tail hnext⟩
        have hcard := walk_none hacyclic (insert node visited) hgrown h
        rw [Finset.card_insert_of_notMem hnode] at hcard
        omega

variable {graph : Graph α} {a b : α}

/-- **On a graph without cycles the bounded walk is exact.** -/
theorem walk_bound (hacyclic : Acyclic (Edge graph)) (target node : α) :
    ∃ found, walk graph target (bound graph) node = some found ∧
      (found = true ↔ ReflTransGen (Edge graph) node target) := by
  cases h : walk graph target (bound graph) node with
  | none =>
    have hcard := walk_none hacyclic ∅ (by simp) h
    rw [bound] at hcard
    omega
  | some found =>
    cases found with
    | true => exact ⟨true, rfl, by simpa using walk_true h⟩
    | false => exact ⟨false, rfl, by simpa using walk_false h⟩

lemma walk_sink {target : α} : ∀ {fuel : ℕ} {node : α}, walk graph target fuel node = some false →
    ∃ sink, ReflTransGen (Edge graph) node sink ∧ ∀ next, ¬ Edge graph sink next
  | 0, node, h => by simp [walk] at h
  | fuel + 1, node, h => by
    rw [walk] at h
    split at h
    · cases h
    · split at h
      · rename_i hlast
        exact ⟨node, .refl, by simp [Edge, hlast]⟩
      · rename_i next hnext
        obtain ⟨sink, hreach, hsink⟩ := walk_sink h
        exact ⟨sink, hreach.head hnext, hsink⟩

/-- **On a graph without cycles every node leads to one without a successor.** -/
theorem exists_sink (hacyclic : Acyclic (Edge graph)) (node : α) :
    ∃ sink, ReflTransGen (Edge graph) node sink ∧ ∀ next, ¬ Edge graph sink next := by
  cases hnext : graph.lookup node with
  | none => exact ⟨node, .refl, by simp [Edge, hnext]⟩
  | some next =>
    -- the walk from the successor does not come back, so that its edges end
    obtain ⟨found, hwalk, hfound⟩ := walk_bound hacyclic node next
    cases found with
    | true => exact (hacyclic node (.head' hnext (hfound.mp rfl))).elim
    | false =>
      obtain ⟨sink, hreach, hsink⟩ := walk_sink hwalk
      exact ⟨sink, hreach.head hnext, hsink⟩

/-! ## Adding and removing edges -/

@[simp]
lemma edge_empty : ¬ Edge (∅ : Graph α) a b := by simp [Edge]

@[simp]
lemma edge_erase {node : α} : Edge (graph.erase node) a b ↔ a ≠ node ∧ Edge graph a b := by
  by_cases ha : a = node
  · subst ha
    simp [Edge]
  · simp [Edge, ha]

@[simp]
lemma edge_insert {tail head : α} :
    Edge (graph.insert tail head) a b ↔ (a = tail ∧ b = head) ∨ (a ≠ tail ∧ Edge graph a b) := by
  by_cases ha : a = tail
  · subst ha
    simp [Edge, eq_comm]
  · simp [Edge, ha]

end PointerGraph
