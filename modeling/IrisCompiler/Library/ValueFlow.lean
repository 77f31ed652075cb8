import Mathlib.Data.Set.Finite.Lattice
import Mathlib.Logic.Relation
import Mathlib.Order.WellFounded
import Mathlib.Data.Fintype.EquivFin

/-!
# Values along a graph

A system moves from state to state, and in each state the nodes of a graph hold values.  The value
of a node after a step is a copy of the value that another node had before, or it is computed from
the values of several nodes.  A copy makes no new value.  So if no computing edge lies on a cycle, a
node holds only finitely many values in all the states that can be reached (`finite_values`).
-/

namespace ValueFlow

open Relation

variable {S ι V : Type*}

/-- Where the values of nodes come from. -/
structure Flow (S ι V : Type*) where
  step : S → S → Prop
  value : S → ι → Option V
  /-- The second node may copy the value of the first. -/
  copies : ι → ι → Prop
  /-- The value of the second node may be computed from the value of the first. -/
  grows : ι → ι → Prop
  computes : S → ι → V → Prop
  flow : ∀ {s t node v}, step s t → value t node = some v →
    (∃ source, copies source node ∧ value s source = some v) ∨ computes s node v
  /-- Only finitely many values are computed from finitely many. -/
  finite : ∀ node (A : ι → Set V), (∀ source, grows source node → (A source).Finite) →
    {v | ∃ s, (∀ source u, grows source node → value s source = some u → u ∈ A source) ∧
      computes s node v}.Finite

namespace Flow

variable (F : Flow S ι V)

def edge (source node : ι) : Prop := F.copies source node ∨ F.grows source node

/-- The values that a node holds in the states that can be reached. -/
def values (root : S) (node : ι) : Set V :=
  {v | ∃ s, ReflTransGen F.step root s ∧ F.value s node = some v}

/-- One node comes before the other and not after it. -/
def Upstream (source node : ι) : Prop :=
  ReflTransGen F.edge source node ∧ ¬ ReflTransGen F.edge node source

lemma wellFounded_upstream [Finite ι] : WellFounded F.Upstream := by
  have : IsTrans ι F.Upstream := ⟨fun _ _ _ hfirst hsecond =>
    ⟨hfirst.1.trans hsecond.1, fun hback => hfirst.2 (hsecond.1.trans hback)⟩⟩
  have : Std.Irrefl F.Upstream := ⟨fun _ h => h.2 h.1⟩
  exact Finite.wellFounded_of_trans_of_irrefl _

/-- The values that enter the cycles through a node: those of the first state, those copied from
nodes before the cycles and those computed. -/
def entering (root : S) (node : ι) : Set V :=
  {v | ∃ m, F.value root m = some v} ∪
  (⋃ m ∈ {m | F.Upstream m node}, F.values root m) ∪
  ⋃ m ∈ {m | ReflTransGen F.edge m node ∧ ReflTransGen F.edge node m},
    {v | ∃ s, (∀ source u, F.grows source m → F.value s source = some u →
      u ∈ F.values root source) ∧ F.computes s m v}

variable {F} {root : S} {node : ι}

/-- All values of the nodes on the cycles have entered them. -/
lemma mem_entering {s : S} (hreached : ReflTransGen F.step root s) {m : ι} {v : V}
    (hbefore : ReflTransGen F.edge m node) (hafter : ReflTransGen F.edge node m)
    (holds : F.value s m = some v) : v ∈ F.entering root node := by
  induction hreached generalizing m with
  | refl => exact .inl (.inl ⟨m, holds⟩)
  | tail hreached hmove ih =>
    obtain ⟨source, hcopy, holds⟩ | hcomputed := F.flow hmove holds
    · have htoNode : ReflTransGen F.edge source node := hbefore.head (.inl hcopy)
      by_cases hback : ReflTransGen F.edge node source
      · exact ih htoNode hback holds
      · exact .inl (.inr (Set.mem_biUnion (show F.Upstream source node from ⟨htoNode, hback⟩)
          ⟨_, hreached, holds⟩))
    · refine .inr (Set.mem_biUnion (show _ ∧ _ from ⟨hbefore, hafter⟩) ⟨_, ?_, hcomputed⟩)
      exact fun source u _ holds => ⟨_, hreached, holds⟩

/-- **Finitely many values.**  If no computing edge lies on a cycle, every node holds finitely many
values. -/
theorem finite_values [Finite ι]
    (hacyclic : ∀ source node, F.grows source node → ¬ ReflTransGen F.edge node source) (node : ι) :
    (F.values root node).Finite := by
  induction node using F.wellFounded_upstream.induction with
  | _ node ih =>
    have hentering : (F.entering root node).Finite := by
      refine (Set.Finite.union ?_ ?_).union ?_
      · have : {v | ∃ m, F.value root m = some v} = ⋃ m, {v | F.value root m = some v} := by
          ext v
          simp
        rw [this]
        exact Set.finite_iUnion fun m => Set.Subsingleton.finite fun u hu v hv =>
          Option.some_injective _ (hu.symm.trans hv)
      · exact Set.Finite.biUnion (Set.toFinite _) fun m hupstream => ih m hupstream
      · refine Set.Finite.biUnion (Set.toFinite _) fun m hcyclic =>
          F.finite m _ fun source hgrow => ?_
        -- A source that computes a value on the cycles is before them.
        refine ih source ⟨hcyclic.1.head (.inr hgrow), fun hback => ?_⟩
        exact hacyclic source m hgrow (hcyclic.1.trans hback)
    refine hentering.subset ?_
    rintro v ⟨s, hreached, holds⟩
    exact mem_entering hreached .refl .refl holds

end Flow

end ValueFlow
