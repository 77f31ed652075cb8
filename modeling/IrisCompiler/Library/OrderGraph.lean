import Mathlib.Algebra.Order.Field.Basic
import Mathlib.Data.Finset.Max
import Mathlib.Logic.Relation
import Mathlib.Order.CountableDenseLinearOrder
import Mathlib.Tactic.FieldSimp
import Mathlib.Tactic.Linarith
import Mathlib.Tactic.Positivity

/-!
# Order constraints and reachability

Terms stand for elements of a linear order; some of them are constants.  Constraints say that one
term is less than another or that two are equal.  An edge leads from the smaller to the larger term,
both ways between equal ones, and between constants by their order.

What is reachable is at least as large, and larger if there is no way back (`le_of_reach`,
`lt_of_reach`).  Over an ordered field the converse holds: where there is no path from `x` to `y`,
some solution makes `x` the larger one (`exists_gt`).  The terms reachable from `x` are moved above
a threshold and the others below it, with the constants where they are; for this the field must be
dense between the constants, which is why it does not hold over the integers.
-/

namespace OrderGraph

open Relation

variable {V α : Type*}

/-- The constraints: the constants, and which terms are less than or equal to which. -/
structure Constraints (V α : Type*) where
  constant : V → Option α
  less : V → V → Prop
  same : V → V → Prop
  /-- The terms that occur in the constraints or are asked about. -/
  nodes : Finset V
  less_nodes : ∀ {x y}, less x y → x ∈ nodes ∧ y ∈ nodes
  same_nodes : ∀ {x y}, same x y → x ∈ nodes ∧ y ∈ nodes
  /-- A constant is one term. -/
  constant_inj : ∀ {x y a}, constant x = some a → constant y = some a → x = y

/-- An assignment of values that satisfies the constraints. -/
structure Solves [LT α] (constraints : Constraints V α) (v : V → α) : Prop where
  constant : ∀ {x a}, constraints.constant x = some a → v x = a
  less : ∀ {x y}, constraints.less x y → v x < v y
  same : ∀ {x y}, constraints.same x y → v x = v y

/-- An edge leads to a term that is at least as large. -/
inductive Edge [LT α] (constraints : Constraints V α) : V → V → Prop where
  | less {x y : V} (h : constraints.less x y) : Edge constraints x y
  | same {x y : V} (h : constraints.same x y) : Edge constraints x y
  | back {x y : V} (h : constraints.same y x) : Edge constraints x y
  | constant {x y : V} {a b : α} (hx : x ∈ constraints.nodes) (hy : y ∈ constraints.nodes)
    (ha : constraints.constant x = some a) (hb : constraints.constant y = some b) (hlt : a < b) :
    Edge constraints x y

/-- There is a path of edges. -/
abbrev Reach [LT α] (constraints : Constraints V α) : V → V → Prop :=
  ReflTransGen (Edge constraints)

/-! ## Soundness -/

section Sound

variable [LinearOrder α] {constraints : Constraints V α} {v : V → α} {x y : V}

lemma Edge.le (hedge : Edge constraints x y) (hsolves : Solves constraints v) : v x ≤ v y := by
  cases hedge with
  | less h => exact (hsolves.less h).le
  | same h => exact (hsolves.same h).le
  | back h => exact (hsolves.same h).ge
  | constant _ _ ha hb hlt => exact (hsolves.constant ha ▸ hsolves.constant hb ▸ hlt).le

/-- An edge between terms of one value can be taken back. -/
lemma Edge.symm (hedge : Edge constraints x y) (hsolves : Solves constraints v) (heq : v x = v y) :
    Edge constraints y x := by
  cases hedge with
  | less h => exact absurd heq (hsolves.less h).ne
  | same h => exact .back h
  | back h => exact .same h
  | constant _ _ ha hb hlt => exact absurd heq (hsolves.constant ha ▸ hsolves.constant hb ▸ hlt).ne

/-- **What is reachable is at least as large.** -/
theorem le_of_reach (hreach : Reach constraints x y) (hsolves : Solves constraints v) :
    v x ≤ v y := by
  induction hreach with
  | refl => exact le_rfl
  | tail _ hedge ih => exact ih.trans (hedge.le hsolves)

lemma reach_back (hreach : Reach constraints x y) (hsolves : Solves constraints v)
    (heq : v x = v y) :
    Reach constraints y x := by
  induction hreach with
  | refl => exact .refl
  | @tail y z hreach hedge ih =>
    have hfirst := le_of_reach hreach hsolves
    have hlast := hedge.le hsolves
    have here : v y = v z := le_antisymm hlast (heq ▸ hfirst)
    exact .head (hedge.symm hsolves here) (ih (heq.trans here.symm))

/-- **Without a way back it is larger.** -/
theorem lt_of_reach (hreach : Reach constraints x y) (hnoWay : ¬ Reach constraints y x)
    (hsolves : Solves constraints v) : v x < v y :=
  lt_of_le_of_ne (le_of_reach hreach hsolves) fun heq => hnoWay (reach_back hreach hsolves heq)

end Sound

/-! ## Completeness -/

section Complete

variable [Field α] [LinearOrder α] [IsStrictOrderedRing α]

/-- Moves everything above the threshold, and leaves what is at least `least` where it is. -/
def raise (threshold least t : α) : α :=
  if least ≤ t then t
  else least - (least - threshold) * ((least - t) / (1 + (least - t)))

variable {threshold least t greatest : α}

omit [IsStrictOrderedRing α] in
lemma raise_of_le (h : least ≤ t) : raise threshold least t = t := if_pos h

private lemma fraction_lt_one {d : α} (h : 0 < d) : d / (1 + d) < 1 := by
  rw [div_lt_one (by linarith)]
  linarith

private lemma fraction_strictMono {d e : α} (hd : 0 < d) (h : d < e) :
    d / (1 + d) < e / (1 + e) := by
  rw [div_lt_div_iff₀ (by linarith) (by linarith)]
  nlinarith

lemma threshold_lt_raise (h : threshold < least) (t : α) : threshold < raise threshold least t := by
  unfold raise
  split_ifs with habove
  · exact h.trans_le habove
  · have hsmall := fraction_lt_one (sub_pos.mpr (not_le.mp habove))
    nlinarith [sub_pos.mpr h]

lemma raise_lt_least (h : threshold < least) (hbelow : t < least) :
    raise threshold least t < least := by
  have hpositive : 0 < (least - t) / (1 + (least - t)) := by
    positivity
  rw [raise, if_neg (not_le.mpr hbelow)]
  nlinarith [mul_pos (sub_pos.mpr h) hpositive]

lemma raise_strictMono (h : threshold < least) : StrictMono (raise threshold least) := by
  intro t u hlt
  by_cases ht : least ≤ t
  · rwa [raise_of_le ht, raise_of_le (ht.trans hlt.le)]
  by_cases hu : least ≤ u
  · rw [raise_of_le hu]
    exact (raise_lt_least h (not_le.mp ht)).trans_le hu
  · have hsmaller := fraction_strictMono (sub_pos.mpr (not_le.mp hu))
      (sub_lt_sub_left hlt least)
    rw [raise, raise, if_neg ht, if_neg hu]
    nlinarith [mul_lt_mul_of_pos_left hsmaller (sub_pos.mpr h)]

/-- Moves everything below the threshold, and leaves what is at most `greatest` where it is. -/
def lower (threshold greatest t : α) : α := -raise (-threshold) (-greatest) (-t)

lemma lower_of_le (h : t ≤ greatest) : lower threshold greatest t = t := by
  rw [lower, raise_of_le (neg_le_neg h), neg_neg]

lemma lower_lt_threshold (h : greatest < threshold) (t : α) :
    lower threshold greatest t < threshold := by
  have := threshold_lt_raise (neg_lt_neg h) (-t)
  rw [lower]
  linarith

lemma lower_strictMono (h : greatest < threshold) :
    StrictMono (lower threshold greatest) := fun _ _ hlt =>
  neg_lt_neg (raise_strictMono (neg_lt_neg h) (neg_lt_neg hlt))

/-- The solution in which the reachable terms are raised and the others are lowered. -/
noncomputable def moved (constraints : Constraints V α) (v : V → α) (U : Set V)
    (threshold least greatest : α) (z : V) : α :=
  open scoped Classical in
  match constraints.constant z with
  | some a => a
  | none => if z ∈ U then raise threshold least (v z) else lower threshold greatest (v z)

variable {constraints : Constraints V α} {v : V → α} {x y : V}

/-- There is room between the constants that are reachable and those that are not. -/
lemma exists_thresholds (constraints : Constraints V α) (x : V) : ∃ greatest threshold least : α,
    greatest < threshold ∧ threshold < least ∧ ∀ z ∈ constraints.nodes, ∀ a,
      constraints.constant z = some a → (Reach constraints x z → least ≤ a) ∧
        (¬ Reach constraints x z → a ≤ greatest) := by
  classical
  let constants (p : V → Prop) : Finset α :=
    (constraints.nodes.filter p).biUnion fun z => (constraints.constant z).toFinset
  have hmem {p : V → Prop} {a : α} :
      a ∈ constants p ↔ ∃ z ∈ constraints.nodes, p z ∧ constraints.constant z = some a := by
    simp [constants, and_assoc]
  obtain ⟨threshold, hbelow, habove⟩ := Order.exists_between_finsets
    (constants fun z => ¬ Reach constraints x z) (constants (Reach constraints x)) (by
      intro a ha b hb
      obtain ⟨z, hz, hunreachable, ha⟩ := hmem.mp ha
      obtain ⟨u, hu, hreachable, hb⟩ := hmem.mp hb
      by_contra hge
      rcases (not_lt.mp hge).lt_or_eq with hlt | rfl
      · exact hunreachable (hreachable.tail (.constant hu hz hb ha hlt))
      · exact hunreachable (constraints.constant_inj hb ha ▸ hreachable))
  obtain ⟨greatest, hbelow', hbetween⟩ := Order.exists_between_finsets
    (constants fun z => ¬ Reach constraints x z) {threshold} (by simpa using hbelow)
  obtain ⟨least, hbetween', habove'⟩ := Order.exists_between_finsets {threshold}
    (constants (Reach constraints x)) (by simpa using habove)
  refine ⟨greatest, threshold, least, by simpa using hbetween, by simpa using hbetween', ?_⟩
  intro z hz a ha
  exact ⟨fun hreachable => (habove' a (hmem.mpr ⟨z, hz, hreachable, ha⟩)).le,
    fun hunreachable => (hbelow' a (hmem.mpr ⟨z, hz, hunreachable, ha⟩)).le⟩

/-- **Where there is no path from `x` to `y`, a solution makes `x` larger.** -/
theorem exists_gt (hsolves : Solves constraints v) (hx : x ∈ constraints.nodes)
    (hy : y ∈ constraints.nodes) (hnoPath : ¬ Reach constraints x y) :
    ∃ w, Solves constraints w ∧ w y < w x := by
  classical
  obtain ⟨greatest, threshold, least, hg, hl, hconstants⟩ := exists_thresholds constraints x
  let w := moved constraints v {z | Reach constraints x z} threshold least greatest
  have hraised {z : V} (hz : z ∈ constraints.nodes) (hreachable : Reach constraints x z) :
      w z = raise threshold least (v z) := by
    cases hfound : constraints.constant z with
    | none => simp [w, moved, hfound, hreachable]
    | some a =>
      rw [hsolves.constant hfound, raise_of_le ((hconstants z hz a hfound).1 hreachable)]
      simp [w, moved, hfound]
  have hlowered {z : V} (hz : z ∈ constraints.nodes) (hunreachable : ¬ Reach constraints x z) :
      w z = lower threshold greatest (v z) := by
    cases hfound : constraints.constant z with
    | none => simp [w, moved, hfound, hunreachable]
    | some a =>
      rw [hsolves.constant hfound, lower_of_le ((hconstants z hz a hfound).2 hunreachable)]
      simp [w, moved, hfound]
  -- What is unreachable ends up below what is reachable.
  have hapart {z u : V} (hz : z ∈ constraints.nodes) (hu : u ∈ constraints.nodes)
      (hunreachable : ¬ Reach constraints x z) (hreachable : Reach constraints x u) :
        w z < w u := by
    rw [hlowered hz hunreachable, hraised hu hreachable]
    exact (lower_lt_threshold hg _).trans (threshold_lt_raise hl _)
  refine ⟨w, ⟨fun {z a} hfound => by simp [w, moved, hfound], fun {p q} h => ?_, fun {p q} h => ?_⟩,
    hapart hy hx hnoPath .refl⟩
  · obtain ⟨hp, hq⟩ := constraints.less_nodes h
    by_cases hreachable : Reach constraints x p
    · rw [hraised hp hreachable, hraised hq (hreachable.tail (.less h))]
      exact raise_strictMono hl (hsolves.less h)
    · by_cases hnext : Reach constraints x q
      · exact hapart hp hq hreachable hnext
      · rw [hlowered hp hreachable, hlowered hq hnext]
        exact lower_strictMono hg (hsolves.less h)
  · obtain ⟨hp, hq⟩ := constraints.same_nodes h
    by_cases hreachable : Reach constraints x p
    · rw [hraised hp hreachable, hraised hq (hreachable.tail (.same h)), hsolves.same h]
    · have hnext : ¬ Reach constraints x q := fun hreach => hreachable (hreach.tail (.back h))
      rw [hlowered hp hreachable, hlowered hq hnext, hsolves.same h]

end Complete

end OrderGraph
