import Mathlib.Data.Fintype.Card
import Mathlib.Logic.Relation
import Mathlib.Tactic.Common

/-!
# Depth-first search

A graph is given by the lists `next v` of the vertices that `v` has edges to.  `Explores` is
depth-first search without a stack: what it gives back is the **postorder** of the vertices it
finds, which lists a vertex when the search of all that it has edges to has ended.

Four facts say what a postorder is.  It lists what the search can reach, each vertex once
(`Explores.mem_iff`, `Explores.nodup`).  A vertex stands after what it has edges to, unless there is
a way back (`Explores.idxOf_lt_of_edge`).  Of the vertices that can be reached from `x`, the last
one reaches back to `x` (`Explores.exists_last`); strongly connected components can be read off from
that. And in a graph without cycles, which of two vertices comes first depends on reachability alone
(`Explores.idxOf_lt_iff`).
-/

namespace DepthFirst

variable {V : Type*} (next : V → List V)

/-- A walk from one vertex to another. -/
def Walk : V → V → Prop := Relation.ReflTransGen fun v w => w ∈ next v

/-- A path whose vertices, but for the first, are not in `seen`. -/
def Reaches (seen : Finset V) : V → V → Prop :=
  Relation.ReflTransGen fun v w => w ∈ next v ∧ w ∉ seen

variable {next} {seen mid : Finset V} {v w x y : V} {vs out : List V}

lemma reaches_empty_iff : Reaches next ∅ v w ↔ Walk next v w := by simp [Reaches, Walk]

lemma Walk.of_reaches (h : Reaches next seen v w) : Walk next v w :=
  Relation.ReflTransGen.mono (fun _ _ hstep => hstep.1) _ _ h

namespace Reaches

lemma anti (hsub : seen ⊆ mid) (h : Reaches next mid v w) : Reaches next seen v w :=
  Relation.ReflTransGen.mono (fun _ _ hstep => ⟨hstep.1, fun hmem => hstep.2 (hsub hmem)⟩) _ _ h

lemma notMem (h : Reaches next seen v w) (hv : v ∉ seen) : w ∉ seen := by
  cases h with
  | refl => exact hv
  | tail _ hstep => exact hstep.2

/-- A path avoids the larger set as well, or it enters it. -/
lemma avoid_or_enter (mid : Finset V) (h : Reaches next seen v x) :
    Reaches next mid v x ∨ ∃ y ∈ mid, y ∉ seen ∧ Reaches next seen v y ∧ Reaches next seen y x := by
  induction h with
  | refl => exact .inl .refl
  | @tail b c hpath hstep ih =>
    rcases ih with ih | ⟨y, hy, hseen, hbefore, hafter⟩
    · by_cases hc : c ∈ mid
      · exact .inr ⟨c, hc, hstep.2, hpath.tail hstep, .refl⟩
      · exact .inl (ih.tail ⟨hstep.1, hc⟩)
    · exact .inr ⟨y, hy, hseen, hbefore, hafter.tail hstep⟩

variable [DecidableEq V]

/-- A path that leaves its first vertex leaves it for good at some point. -/
lemma leave (h : Reaches next seen v x) :
    x = v ∨ ∃ w ∈ next v, w ∉ insert v seen ∧ Reaches next (insert v seen) w x := by
  induction h with
  | refl => exact .inl rfl
  | @tail b c _ hstep ih =>
    by_cases hc : c = v
    · exact .inl hc
    · have hnew : c ∉ insert v seen := by simp [hc, hstep.2]
      rcases ih with rfl | ⟨w, hw, hseen, hpath⟩
      · exact .inr ⟨c, hstep.1, hnew, .refl⟩
      · exact .inr ⟨w, hw, hseen, hpath.tail ⟨hstep.1, hnew⟩⟩

end Reaches

variable [DecidableEq V]

/-! ## The search -/

/-- **Depth-first search** from the vertices of a list in turn, but for those that have been seen;
`Explores next seen vs out` finishes the vertices `out`, in this order. -/
inductive Explores (next : V → List V) : Finset V → List V → List V → Prop
  | nil {seen : Finset V} : Explores next seen [] []
  | seen {seen : Finset V} {v : V} {vs out : List V} : v ∈ seen → Explores next seen vs out →
      Explores next seen (v :: vs) out
  | fresh {seen : Finset V} {v : V} {vs inner out : List V} : v ∉ seen →
      Explores next (insert v seen) (next v) inner →
      Explores next (insert v seen ∪ inner.toFinset) vs out →
      Explores next seen (v :: vs) (inner ++ v :: out)

/-- A search ends, whatever it starts with. -/
lemma exists_explores [Fintype V] (next : V → List V) (seen : Finset V) (vs : List V) :
    ∃ out, Explores next seen vs out := by
  -- a search from a new vertex has fewer vertices left to see
  induction hleft : seenᶜ.card using Nat.strong_induction_on generalizing seen vs with
  | _ left ih =>
    subst hleft
    induction vs generalizing seen with
    | nil => exact ⟨[], .nil⟩
    | cons v vs ihvs =>
      by_cases hv : v ∈ seen
      · obtain ⟨out, hout⟩ := ihvs seen ih
        exact ⟨out, .seen hv hout⟩
      · have hless : ∀ more : Finset V, insert v seen ⊆ more → moreᶜ.card < seenᶜ.card := by
          intro more hmore
          refine Finset.card_lt_card (Finset.compl_ssubset_compl.mpr ?_)
          exact (Finset.ssubset_insert hv).trans_subset hmore
        obtain ⟨inner, hinner⟩ := ih _ (hless _ subset_rfl) (insert v seen) (next v) rfl
        obtain ⟨out, hout⟩ := ih _ (hless _ Finset.subset_union_left)
          (insert v seen ∪ inner.toFinset) vs rfl
        exact ⟨_, .fresh hv hinner hout⟩

/-- What has been seen after the search from a vertex. -/
lemma mem_mid {inner : List V} :
    x ∈ insert v seen ∪ inner.toFinset ↔ x ∈ seen ∨ x ∈ inner ∨ x = v := by
  simp only [Finset.mem_union, Finset.mem_insert, List.mem_toFinset]
  tauto

namespace Explores

/-- What a search from a new vertex finds, given what it finds behind that vertex. -/
private lemma mem_fresh {inner : List V} (hv : v ∉ seen)
    (h : ∀ x, x ∈ inner ↔ ∃ w ∈ next v, w ∉ insert v seen ∧ Reaches next (insert v seen) w x)
    (x : V) :
    x ∈ inner ∨ x = v ↔ Reaches next seen v x := by
  rw [h]
  constructor
  · rintro (⟨w, hw, hseen, hpath⟩ | rfl)
    · have hw' : w ∉ seen := fun hmem => hseen (Finset.mem_insert_of_mem hmem)
      exact (hpath.anti (Finset.subset_insert v seen)).head ⟨hw, hw'⟩
    · exact .refl
  · intro hpath
    exact hpath.leave.symm

/-- **A search finds what can be reached.** -/
theorem mem_iff (h : Explores next seen vs out) :
    x ∈ out ↔ ∃ v ∈ vs, v ∉ seen ∧ Reaches next seen v x := by
  induction h generalizing x with
  | nil => simp
  | seen hv _ ih =>
    rw [ih]
    simp [hv]
  | @fresh seen v vs inner out hv _ _ ihinner ihout =>
    have hfirst := mem_fresh hv (fun x => @ihinner x)
    have hmid : ∀ y, y ∈ insert v seen ∪ inner.toFinset ↔ y ∈ seen ∨ Reaches next seen v y := by
      intro y
      rw [← hfirst, mem_mid]
    have hsplit : x ∈ inner ++ v :: out ↔ Reaches next seen v x ∨ x ∈ out := by
      rw [← hfirst, List.mem_append, List.mem_cons, or_assoc]
    rw [hsplit, ihout]
    constructor
    · rintro (hpath | ⟨w, hw, hseen, hpath⟩)
      · exact ⟨v, List.mem_cons_self, hv, hpath⟩
      · have hsub : seen ⊆ insert v seen ∪ inner.toFinset := fun y hy => (hmid y).mpr (.inl hy)
        exact ⟨w, List.mem_cons_of_mem v hw, fun hmem => hseen (hsub hmem), hpath.anti hsub⟩
    · rintro ⟨w, hw, hseen, hpath⟩
      rcases List.mem_cons.mp hw with rfl | hw
      · exact .inl hpath
      · -- the second search finds `x`, unless the path meets the first one
        by_cases hwmid : w ∈ insert v seen ∪ inner.toFinset
        · rcases (hmid w).mp hwmid with hmem | hbefore
          · exact absurd hmem hseen
          · exact .inl (hbefore.trans hpath)
        · rcases hpath.avoid_or_enter (insert v seen ∪ inner.toFinset) with hpath |
            ⟨y, hy, hyseen, -, hafter⟩
          · exact .inr ⟨w, hw, hwmid, hpath⟩
          · rcases (hmid y).mp hy with hmem | hbefore
            · exact absurd hmem hyseen
            · exact .inl (hbefore.trans hafter)

lemma notMem_seen (h : Explores next seen vs out) (hx : x ∈ out) : x ∉ seen := by
  obtain ⟨v, -, hv, hpath⟩ := h.mem_iff.mp hx
  exact hpath.notMem hv

/-- The first vertex, and what is found behind it. -/
lemma fresh_mem_iff {inner : List V} (hv : v ∉ seen)
    (h : Explores next (insert v seen) (next v) inner) :
    x ∈ inner ∨ x = v ↔ Reaches next seen v x :=
  mem_fresh hv (fun _ => h.mem_iff) x

theorem nodup (h : Explores next seen vs out) : out.Nodup := by
  induction h with
  | nil => exact List.nodup_nil
  | seen _ _ ih => exact ih
  | @fresh seen v vs inner out hv hinner hout ihinner ihout =>
    have hvout : v ∉ out := fun hmem => hout.notMem_seen hmem (by simp)
    have hvinner : v ∉ inner := fun hmem => hinner.notMem_seen hmem (by simp)
    refine List.nodup_append'.mpr ⟨ihinner, List.nodup_cons.mpr ⟨hvout, ihout⟩, ?_⟩
    intro x hx hx'
    rcases List.mem_cons.mp hx' with rfl | hx'
    · exact hvinner hx
    · exact hout.notMem_seen hx' (by simp [hx])

/-! ### Where a vertex stands in the postorder -/

section Positions

variable {inner : List V}

lemma idxOf_inner (v : V) (out : List V) (hx : x ∈ inner) :
    (inner ++ v :: out).idxOf x = inner.idxOf x ∧ inner.idxOf x < inner.length :=
  ⟨List.idxOf_append_of_mem hx, List.idxOf_lt_length_of_mem hx⟩

lemma idxOf_vertex (out : List V) (h : Explores next (insert v seen) (next v) inner) :
    (inner ++ v :: out).idxOf v = inner.length := by
  have hv : v ∉ inner := fun hmem => h.notMem_seen hmem (by simp)
  rw [List.idxOf_append_of_notMem hv, List.idxOf_cons_self, Nat.add_zero]

lemma idxOf_outer (h : Explores next (insert v seen ∪ inner.toFinset) vs out) (hx : x ∈ out) :
    (inner ++ v :: out).idxOf x = inner.length + (out.idxOf x + 1) := by
  have hnot := h.notMem_seen hx
  simp only [mem_mid, not_or] at hnot
  rw [List.idxOf_append_of_notMem hnot.2.1, List.idxOf_cons_ne _ (Ne.symm hnot.2.2)]

end Positions

/-- **The last vertex that can be reached from `x` reaches back to `x`.** -/
theorem exists_last (h : Explores next seen vs out) (hx : x ∈ out) :
    ∃ last, Reaches next seen x last ∧ Reaches next seen last x ∧
      ∀ y, Reaches next seen x y → y ∈ out ∧ out.idxOf y ≤ out.idxOf last := by
  induction h with
  | nil => simp at hx
  | seen _ _ ih => exact ih hx
  | @fresh seen v vs inner out hv hinner hout ihinner ihout =>
    have hfirst := fun y => @fresh_mem_iff _ next seen v y _ inner hv hinner
    have hidx : ∀ y, Reaches next seen v y →
        y ∈ inner ++ v :: out ∧ (inner ++ v :: out).idxOf y ≤ inner.length := by
      intro y hy
      rcases (hfirst y).mpr hy with hy | rfl
      · obtain ⟨heq, hlt⟩ := idxOf_inner v out hy
        exact ⟨by simp [hy], by omega⟩
      · exact ⟨by simp, (hinner.idxOf_vertex out).le⟩
    by_cases hback : Reaches next seen v x ∧ Reaches next seen x v
    · -- then `v` is the last
      refine ⟨v, hback.2, hback.1, fun y hy => ?_⟩
      rw [hinner.idxOf_vertex]
      exact hidx y (hback.1.trans hy)
    · rcases List.mem_append.mp hx with hxin | hx
      · obtain ⟨last, hto, hfrom, hlast⟩ := ihinner hxin
        have hsub : seen ⊆ insert v seen := Finset.subset_insert v seen
        refine ⟨last, hto.anti hsub, hfrom.anti hsub, fun y hy => ?_⟩
        rcases hy.avoid_or_enter (insert v seen) with hy | ⟨z, hz, hzseen, hxz, -⟩
        · obtain ⟨hyinner, hle⟩ := hlast y hy
          refine ⟨List.mem_append_left _ hyinner, ?_⟩
          rwa [(idxOf_inner v out hyinner).1, (idxOf_inner v out (hlast last hto).1).1]
        · rcases Finset.mem_insert.mp hz with rfl | hz
          · exact absurd ⟨(hfirst x).mp (.inl hxin), hxz⟩ hback
          · exact absurd hz hzseen
      · rcases List.mem_cons.mp hx with rfl | hx
        · exact absurd ⟨.refl, .refl⟩ hback
        · obtain ⟨last, hto, hfrom, hlast⟩ := ihout hx
          have hsub : seen ⊆ insert v seen ∪ inner.toFinset := fun y hy => by simp [hy]
          have hlastidx := hout.idxOf_outer (hlast last hto).1
          refine ⟨last, hto.anti hsub, hfrom.anti hsub, fun y hy => ?_⟩
          rcases hy.avoid_or_enter (insert v seen ∪ inner.toFinset) with hy |
            ⟨z, hz, hzseen, -, hzy⟩
          · obtain ⟨hyout, hle⟩ := hlast y hy
            have hyidx := hout.idxOf_outer hyout
            exact ⟨by simp [hyout], by omega⟩
          · have hvz := (hfirst z).mp ((mem_mid.mp hz).resolve_left hzseen)
            obtain ⟨hmem, hle⟩ := hidx y (hvz.trans hzy)
            exact ⟨hmem, by omega⟩

/-- **A vertex stands after those that it has edges to**, but for those that had been seen and those
that lead back to it. -/
theorem idxOf_lt_of_edge (h : Explores next seen vs out) (hx : x ∈ out) (hy : y ∈ next x)
    (hback : ¬ Walk next y x) : y ∈ seen ∨ y ∈ out ∧ out.idxOf y < out.idxOf x := by
  induction h with
  | nil => simp at hx
  | seen _ _ ih => exact ih hx
  | @fresh seen v vs inner out hv hinner hout ihinner ihout =>
    rcases List.mem_append.mp hx with hxin | hx
    · have hidx := idxOf_inner v out hxin
      rcases ihinner hxin with hmem | ⟨hmem, hlt⟩
      · rcases Finset.mem_insert.mp hmem with rfl | hmem
        · exact absurd (Walk.of_reaches ((hinner.fresh_mem_iff hv).mp (.inl hxin))) hback
        · exact .inl hmem
      · have hyidx := idxOf_inner v out hmem
        exact .inr ⟨by simp [hmem], by omega⟩
    · rcases List.mem_cons.mp hx with rfl | hx
      · by_cases hmem : y ∈ insert x seen
        · rcases Finset.mem_insert.mp hmem with rfl | hmem
          · exact absurd .refl hback
          · exact .inl hmem
        · have hinside : y ∈ inner := hinner.mem_iff.mpr ⟨y, hy, hmem, .refl⟩
          have hyidx := idxOf_inner x out hinside
          have hidx := hinner.idxOf_vertex out
          exact .inr ⟨by simp [hinside], by omega⟩
      · have hidx := hout.idxOf_outer hx
        rcases ihout hx with hmem | ⟨hmem, hlt⟩
        · rcases mem_mid.mp hmem with hmem | hmem | rfl
          · exact .inl hmem
          · have hyidx := idxOf_inner v out hmem
            exact .inr ⟨by simp [hmem], by omega⟩
          · have hyidx := hinner.idxOf_vertex out
            exact .inr ⟨by simp, by omega⟩
        · have hyidx := hout.idxOf_outer hmem
          exact .inr ⟨by simp [hmem], by omega⟩

end Explores

/-! ## Graphs without cycles -/

/-- **Of two vertices, the first to be finished** by a search from the vertices of a list in turn:
the first vertex of the list from which either can be reached decides. -/
inductive First (next : V → List V) : List V → V → V → Prop
  /-- Only `x` can be reached from it. -/
  | only {v x y : V} {vs : List V} : Walk next v x → ¬ Walk next v y → First next (v :: vs) x y
  /-- It is `y`, and `x` is behind it. -/
  | behind {x y : V} {vs : List V} : x ≠ y → Walk next y x → First next (y :: vs) x y
  /-- Both are behind it, and what it has edges to decides. -/
  | inside {v x y : V} {vs : List V} : v ≠ x → v ≠ y → Walk next v x → Walk next v y →
      First next (next v) x y → First next (v :: vs) x y
  /-- None can be reached from it. -/
  | later {v x y : V} {vs : List V} : ¬ Walk next v x → ¬ Walk next v y → First next vs x y →
      First next (v :: vs) x y

namespace First

omit [DecidableEq V]

lemma later_iff (hx : ¬ Walk next v x) (hy : ¬ Walk next v y) :
    First next (v :: vs) x y ↔ First next vs x y := by
  refine ⟨fun h => ?_, .later hx hy⟩
  cases h with
  | only hpath | behind _ hpath | inside _ _ hpath => exact absurd hpath hx
  | later _ _ h => exact h

lemma inside_iff (hvx : v ≠ x) (hvy : v ≠ y) (hx : Walk next v x) (hy : Walk next v y) :
    First next (v :: vs) x y ↔ First next (next v) x y := by
  refine ⟨fun h => ?_, .inside hvx hvy hx hy⟩
  cases h with
  | only _ hnot => exact absurd hy hnot
  | behind => exact absurd rfl hvy
  | inside _ _ _ _ h => exact h
  | later hnot => exact absurd hx hnot

/-- A vertex that can be reached is not second to one that cannot. -/
lemma not_of_walk (hx : ¬ Walk next v x) (hy : Walk next v y) : ¬ First next (v :: vs) x y := by
  intro h
  cases h with
  | only hpath | behind _ hpath | inside _ _ hpath => exact hx hpath
  | later _ hnot => exact hnot hy

/-- A vertex is not finished before what is behind it. -/
lemma not_self (hne : x ≠ y) (hy : Walk next x y) : ¬ First next (x :: vs) x y := by
  intro h
  cases h with
  | only _ hnot => exact hnot hy
  | behind => exact hne rfl
  | inside hself => exact hself rfl
  | later hnot => exact hnot .refl

end First

/-- Whatever has been seen and can be reached from `vs` has been searched to its end. -/
def Settled (next : V → List V) (seen : Finset V) (vs : List V) : Prop :=
  ∀ v ∈ vs, ∀ x ∈ seen, Walk next v x → ∀ y, Walk next x y → y ∈ seen

omit [DecidableEq V] in
lemma Settled.reaches_iff (h : Settled next seen vs) (hv : v ∈ vs) (hx : x ∉ seen) :
    Reaches next seen v x ↔ Walk next v x := by
  refine ⟨Walk.of_reaches, fun hpath => ?_⟩
  rcases (reaches_empty_iff.mpr hpath).avoid_or_enter seen with hreach | ⟨z, hz, -, hvz, hzx⟩
  · exact hreach
  · exact absurd (h v hv z hz (.of_reaches hvz) x (.of_reaches hzx)) hx

/-- **In a graph without cycles, reachability decides which vertex is finished first.** -/
theorem Explores.idxOf_lt_iff (hacyclic : ∀ v w, w ∈ next v → ¬ Walk next w v)
    (h : Explores next seen vs out) (hsettled : Settled next seen vs) (hx : x ∈ out) (hy : y ∈ out)
    (hne : x ≠ y) : out.idxOf x < out.idxOf y ↔ First next vs x y := by
  induction h with
  | nil => simp at hx
  | @seen seen v vs out hv hout ih =>
    have hnot : ∀ z ∈ out, ¬ Walk next v z := fun z hz hpath =>
      hout.notMem_seen hz (hsettled v List.mem_cons_self v hv .refl z hpath)
    rw [First.later_iff (hnot x hx) (hnot y hy)]
    exact ih (fun w hw => hsettled w (List.mem_cons_of_mem v hw)) hx hy
  | @fresh seen v vs inner out hv hinner hout ihinner ihout =>
    have hpath : ∀ z ∉ seen, z ∈ inner ∨ z = v ↔ Walk next v z := fun z hz => by
      rw [hinner.fresh_mem_iff hv, hsettled.reaches_iff List.mem_cons_self hz]
    have hinside : Settled next (insert v seen) (next v) := by
      intro w hw z hz hwz u hzu
      rcases Finset.mem_insert.mp hz with rfl | hz
      · exact absurd hwz (hacyclic z w hw)
      · have hvz : Walk next v z := Relation.ReflTransGen.head hw hwz
        exact Finset.mem_insert_of_mem (hsettled v List.mem_cons_self z hz hvz u hzu)
    have houtside : Settled next (insert v seen ∪ inner.toFinset) vs := by
      intro w hw z hz hwz u hzu
      by_cases hzseen : z ∈ seen
      · exact mem_mid.mpr (.inl (hsettled w (List.mem_cons_of_mem v hw) z hzseen hwz u hzu))
      · have hvz := (hpath z hzseen).mp ((mem_mid.mp hz).resolve_left hzseen)
        by_cases huseen : u ∈ seen
        · exact mem_mid.mpr (.inl huseen)
        · exact mem_mid.mpr (.inr ((hpath u huseen).mpr (hvz.trans hzu)))
    -- each of the two vertices is behind `v`, is `v`, or is found by the rest of the search
    have hcases : ∀ z ∈ inner ++ v :: out,
        (z ∈ inner ∧ v ≠ z ∧ Walk next v z) ∨ z = v ∨ (z ∈ out ∧ ¬ Walk next v z) := by
      intro z hz
      rcases List.mem_append.mp hz with hz | hz
      · have hseen := hinner.notMem_seen hz
        rw [Finset.mem_insert, not_or] at hseen
        exact .inl ⟨hz, Ne.symm hseen.1, (hpath z hseen.2).mp (.inl hz)⟩
      · rcases List.mem_cons.mp hz with rfl | hz
        · exact .inr (.inl rfl)
        · have hseen := hout.notMem_seen hz
          rw [mem_mid, not_or] at hseen
          exact .inr (.inr ⟨hz, fun hvz => hseen.2 ((hpath z hseen.1).mpr hvz)⟩)
    have hvidx := hinner.idxOf_vertex out
    rcases hcases x hx with ⟨hxin, hvx, hxpath⟩ | rfl | ⟨hxout, hxpath⟩ <;>
      rcases hcases y hy with ⟨hyin, hvy, hypath⟩ | rfl | ⟨hyout, hypath⟩
    · rw [First.inside_iff hvx hvy hxpath hypath, (Explores.idxOf_inner v out hxin).1,
        (Explores.idxOf_inner v out hyin).1]
      exact ihinner hinside hxin hyin
    · obtain ⟨heq, hlt⟩ := Explores.idxOf_inner y out hxin
      exact iff_of_true (by omega) (.behind hne hxpath)
    · obtain ⟨heq, hlt⟩ := Explores.idxOf_inner v out hxin
      have hyidx := hout.idxOf_outer hyout
      exact iff_of_true (by omega) (.only hxpath hypath)
    · obtain ⟨heq, hlt⟩ := Explores.idxOf_inner x out hyin
      exact iff_of_false (by omega) (First.not_self hne hypath)
    · exact absurd rfl hne
    · have hyidx := hout.idxOf_outer hyout
      exact iff_of_true (by omega) (.only .refl hypath)
    · obtain ⟨heq, hlt⟩ := Explores.idxOf_inner v out hyin
      have hxidx := hout.idxOf_outer hxout
      exact iff_of_false (by omega) (First.not_of_walk hxpath hypath)
    · have hxidx := hout.idxOf_outer hxout
      exact iff_of_false (by omega) (First.not_of_walk hxpath .refl)
    · rw [First.later_iff hxpath hypath, hout.idxOf_outer hxout, hout.idxOf_outer hyout,
        ← ihout houtside hxout hyout]
      omega

end DepthFirst
