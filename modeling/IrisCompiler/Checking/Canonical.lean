import IrisCompiler.Checking.Normalise
import IrisCompiler.Library.Fuel
import Mathlib.Algebra.Order.BigOperators.Group.List
import Mathlib.Algebra.Order.Group.Nat

/-!
# Canonical constraints

A constraint is kept as its class and the arguments (`core/constraint/canonical.rs`).
`contains_unknown` (`core/toolkit.rs`) looks for the unknown type in a type and in the synonyms that
it mentions, each of them once.

A type is zonked in a state if its unification variables have no solution there.  On zonked types
`contains_unknown` returns and leaves the state as it is (`containsUnknown_settles`).
-/

namespace Iris.Checking

open TotalRun

/-! ## The source's functions -/

/-- The class of a constraint and its arguments.  Constraints are interned, so their ids are equal
iff they are. -/
structure CanonicalConstraint where
  item : TypeItem
  arguments : List ApplicationArgument
  deriving DecidableEq

section Source

variable (context : CheckContext)

/-- The last argument is taken off. -/
def extractApplication (fuel : ℕ) (id : Ty) (arguments : List ApplicationArgument) :
    CheckM (Turn (Ty × List ApplicationArgument) (Ty × List ApplicationArgument)) := do
  match ← expand context fuel id with
  | .Application function argument => return .again (function, arguments ++ [.Type argument])
  | .KindApplication function argument => return .again (function, arguments ++ [.Kind argument])
  | id => return .leave (id, arguments)

/-- `extract_all_applications` -/
def extractAllApplications (fuel : ℕ) (id : Ty) : CheckM (Ty × List ApplicationArgument) := do
  let (id, arguments) ← loop .fuel (fun x => extractApplication context fuel x.1 x.2) fuel (id, [])
  return (id, arguments.reverse)

def canonicalise (fuel : ℕ) (id : Ty) : CheckM (Option CanonicalConstraint) := do
  let (head, arguments) ← extractAllApplications context fuel id
  match ← expand context fuel head with
  | .Constructor item => return some ⟨item, arguments⟩
  | _ => return none

/-- `may_contain_unknown` -/
def Ty.mayContainUnknown (t : Ty) : Bool :=
  t.any fun
    | .Unknown _ | .Synonym _ | .Unification _ => true
    | _ => false

/-- Whether the unknown type was found, and the synonyms that were looked into. -/
structure ContainsUnknown where
  contains : Bool
  synonyms : List TypeItem

/-- `ContainsUnknown::visit`: a synonym is looked into when it is met first. -/
def ContainsUnknown.visit (walk : Ty → ContainsUnknown → CheckM ContainsUnknown)
    (walker : ContainsUnknown) : Ty → CheckM ContainsUnknown
  | .Unknown _ => return { walker with contains := true }
  | .Synonym item =>
    if item ∈ walker.synonyms then return walker
    else
      match context.synonyms item with
      | some synonym => walk synonym.expansion { walker with synonyms := item :: walker.synonyms }
      | none => return { walker with synonyms := item :: walker.synonyms }
  | _ => return walker

/-- `walk_type` with `ContainsUnknown`.  The walk breaks off once the unknown type was found. -/
def walkUnknown : ℕ → Ty → ContainsUnknown → CheckM ContainsUnknown
  | 0, _, _ => throw .fuel
  | fuel + 1, id, walker => do
    if !id.mayContainUnknown then return walker
    let id ← normalise fuel id
    let walker ← walker.visit context (walkUnknown fuel) id
    if walker.contains then return walker
    id.children.foldlM (fun walker child =>
      if walker.contains then return walker else walkUnknown fuel child walker) walker

def containsUnknown (fuel : ℕ) (id : Ty) : CheckM Bool := do
  return (← walkUnknown context fuel id ⟨false, []⟩).contains

end Source

/-! ## Sizes -/

mutual

/-- The number of nodes of a type. -/
def Ty.size : Ty → ℕ
  | .Application function argument => function.size + argument.size + 1
  | .KindApplication function argument => function.size + argument.size + 1
  | .Forall _ _ kind inner => kind.size + inner.size + 1
  | .Constrained constraint inner => constraint.size + inner.size + 1
  | .ConstraintOrigin constraint origin => constraint.size + origin.size + 1
  | .Function argument result => argument.size + result.size + 1
  | .Kinded inner kind => inner.size + kind.size + 1
  | .Row row => row.size + 1
  | .Rigid _ _ kind => kind.size + 1
  | _ => 1

def RowType.size : RowType → ℕ
  | .Closed => 0
  | .Opened _ type tail => type.size + tail.size
  | .Field _ type rest => type.size + rest.size

end

section Size

lemma RowType.size_eq (row : RowType) : row.size = (row.children.map Ty.size).sum := by
  induction row with
  | Closed => rfl
  | Opened => simp [RowType.size, RowType.children, RowType.fields, RowType.tail]
  | Field label type rest ih => rw [RowType.size, ih]; simp

lemma Ty.size_eq (t : Ty) : t.size = (t.children.map Ty.size).sum + 1 := by
  cases t with
  | Row row => rw [Ty.size, RowType.size_eq]; rfl
  | _ => simp [Ty.size, Ty.children]

lemma Ty.size_lt_of_mem {t c : Ty} (h : c ∈ t.children) : c.size < t.size := by
  rw [t.size_eq, Nat.lt_succ_iff]
  exact List.single_le_sum (fun _ _ => Nat.zero_le _) _ (List.mem_map_of_mem h)

lemma Ty.size_pos (t : Ty) : 0 < t.size := by
  rw [t.size_eq]
  omega

/-- The nodes of the fields and of the tail. -/
def partsSize (fields : List RowField) (tail : Option Ty) : ℕ :=
  ((fields.map RowField.type ++ tail.toList).map Ty.size).sum

lemma partsSize_perm {fields other : List RowField} {tail : Option Ty} (h : fields.Perm other) :
    partsSize fields tail = partsSize other tail :=
  (((h.map _).append_right _).map _).sum_eq

lemma size_row (row : RowType) : (Ty.Row row).size = partsSize row.fields row.tail + 1 :=
  (Ty.Row row).size_eq

lemma size_internRow_le (fields : List RowField) (tail : Option Ty) :
    (internRow fields tail).size ≤ partsSize fields tail + 1 := by
  rcases internRow_cases fields tail with ⟨rfl, hsame⟩ | ⟨row, hsame, hperm, hrowTail⟩
  · nth_rewrite 2 [hsame]
    simp [partsSize]
  · rw [hsame, size_row, partsSize_perm hperm, hrowTail]

/-- **Merging a row into another removes a node.** -/
lemma size_simplifyRows {t merged : Ty} (h : simplifyRows t = some merged) :
    merged.size < t.size := by
  cases t with
  | Row row =>
    simp only [simplifyRows] at h
    split at h
    · rename_i inner htail
      split_ifs at h
      cases h
      refine (size_internRow_le _ _).trans_lt ?_
      rw [partsSize_perm (List.merge_perm_append _), size_row, htail]
      simp only [partsSize, List.map_append, List.sum_append, Option.toList_some, List.map_cons,
        List.sum_cons, size_row]
      omega
    · cases h
  | _ => cases h

end Size

/-! ## Nodes of a kind -/

section Nodes

variable {p : Ty → Bool} {t c : Ty}

lemma any_child (h : t.any p = false) (hmem : c ∈ t.children) : c.any p = false := by
  rw [Ty.any_eq, Bool.or_eq_false_iff, List.any_eq_false] at h
  exact Bool.eq_false_iff.mpr (h.2 c hmem)

variable (hrows : ∀ row, p (.Row row) = false)

include hrows

lemma any_internRow {fields : List RowField} {tail : Option Ty}
    (htypes : ∀ field ∈ fields, field.type.any p = false)
    (hlast : ∀ t, tail = some t → t.any p = false) :
    (internRow fields tail).any p = false := by
  rcases internRow_cases fields tail with ⟨_, hsame⟩ | ⟨row, hsame, hperm, hrowTail⟩
  · exact hlast _ hsame
  · rw [hsame, Ty.any_eq, Bool.or_eq_false_iff, List.any_eq_false]
    exact ⟨hrows row,
      forall_mem_row (fun field hmem => Bool.eq_false_iff.mp (htypes field (hperm.subset hmem)))
      fun c hmem => Bool.eq_false_iff.mp (hlast c (hrowTail ▸ hmem))⟩

/-- Merging rows brings no new nodes in. -/
lemma any_simplifyRows {merged : Ty} (h : t.any p = false) (hstep : simplifyRows t = some merged) :
    merged.any p = false := by
  cases t with
  | Row row =>
    simp only [simplifyRows] at hstep
    split at hstep
    · rename_i inner htail
      split_ifs at hstep
      cases hstep
      have hinner : (Ty.Row inner).any p = false := any_child h (tail_mem_row htail)
      refine any_internRow hrows (fun field hmem => ?_) fun t hlast => ?_
      · obtain hmem | hmem := List.mem_append.mp ((List.merge_perm_append _).subset hmem)
        · exact any_child h (field_mem_row hmem)
        · exact any_child hinner (field_mem_row hmem)
      · exact any_child hinner (tail_mem_row hlast)
    · cases hstep
  | _ => cases hstep

end Nodes

/-! ## Zonked types -/

/-- The variable exists and has no solution. -/
def CheckState.unsolved (state : CheckState) (id : ℕ) : Bool :=
  match state.unifications[id]? with
  | some ⟨_, _, .Unsolved⟩ => true
  | _ => false

/-- No variable of the type has a solution. -/
def Zonked (state : CheckState) (t : Ty) : Prop :=
  t.any (fun
    | .Unification id => !state.unsolved id
    | _ => false) = false

instance (state : CheckState) (t : Ty) : Decidable (Zonked state t) :=
  inferInstanceAs (Decidable (_ = false))

section Zonked

variable {state : CheckState} {t c : Ty}

lemma Zonked.child (h : Zonked state t) (hmem : c ∈ t.children) : Zonked state c :=
  any_child h hmem

lemma Zonked.simplifyRows {merged : Ty} (h : Zonked state t)
    (hstep : simplifyRows t = some merged) : Zonked state merged :=
  any_simplifyRows (fun _ => rfl) h hstep

lemma reduceOnce_zonked (h : Zonked state t) :
    (reduceOnce t).run state = .ok ((simplifyRows t).map (·, none), state) := by
  cases t with
  | Unification id =>
    have hunsolved : state.unsolved id = true := by simpa [Zonked, Ty.any] using h
    unfold CheckState.unsolved at hunsolved
    split at hunsolved
    · rename_i hfound
      simp [reduceOnce, getUnification, hfound]
      rfl
    · cases hunsolved
  | _ => rfl

/-- **Normalisation of a zonked type** merges rows and leaves the state as it is. -/
lemma normalise_settles (h : Zonked state t) :
    Settles (normalise · t) state fun merged s =>
      s = state ∧ Zonked state merged ∧ merged.size ≤ t.size := by
  unfold normalise
  split_ifs
  · refine (?_ : Settles _ state fun (result : Ty × List ℕ) s => s = state ∧ Zonked state result.1 ∧
      result.1.size ≤ t.size ∧ result.2 = []).bind ?_
    · refine Settles.loop (fun x s => s = state ∧ Zonked state x.1 ∧ x.1.size ≤ t.size ∧ x.2 = [])
        (fun x _ => x.1.size) ?_ ⟨rfl, h, le_rfl, rfl⟩
      rintro ⟨id, compression⟩ s ⟨rfl, hzonked, hsmall, rfl⟩
      refine Settles.bind_run (fun _ => reduceOnce_zonked hzonked) ?_
      cases hstep : simplifyRows id with
      | none => exact .pure ⟨rfl, hzonked, hsmall, rfl⟩
      | some merged =>
        have hsmaller := size_simplifyRows hstep
        exact .pure ⟨⟨rfl, hzonked.simplifyRows hstep, hsmaller.le.trans hsmall, rfl⟩, hsmaller⟩
    · rintro ⟨merged, compression⟩ s ⟨rfl, hzonked, hsmall, rfl⟩
      exact .pure ⟨rfl, hzonked, hsmall⟩
  · exact .pure ⟨rfl, h, le_rfl⟩

end Zonked

/-! ## The walk returns -/

section Walk

variable {context : CheckContext} {state : CheckState} {items : List TypeItem}

/-- How many synonyms were not looked into. -/
def unvisited (items : List TypeItem) (walker : ContainsUnknown) : ℕ :=
  (items.filter (· ∉ walker.synonyms)).length

variable {walker : ContainsUnknown}

lemma unvisited_le {next : ContainsUnknown} (hsub : walker.synonyms ⊆ next.synonyms) :
    unvisited items next ≤ unvisited items walker :=
  (List.monotone_filter_right items fun item h => by
    simp only [decide_eq_true_eq] at h ⊢
    exact fun hmem => h (hsub hmem)).length_le

lemma unvisited_insert {item : TypeItem} (hmem : item ∈ items) (hnew : item ∉ walker.synonyms) :
    unvisited items { walker with synonyms := item :: walker.synonyms } <
      unvisited items walker := by
  have hsplit (x : TypeItem) : decide (x ∉ item :: walker.synonyms) =
      (decide (x ∉ walker.synonyms) && decide (x ≠ item)) := by
    by_cases hsame : x = item <;> simp [hsame]
  have hboth : items.filter (· ∉ item :: walker.synonyms) =
      (items.filter (· ∉ walker.synonyms)).filter (· ≠ item) := by
    rw [List.filter_filter]
    exact List.filter_congr fun x _ => (hsplit x).trans (Bool.and_comm _ _)
  unfold unvisited
  rw [hboth]
  exact List.length_filter_lt_length_iff_exists.mpr
    ⟨item, List.mem_filter.mpr ⟨hmem, by simpa using hnew⟩, by simp⟩

variable (hexpansions : ∀ item synonym, context.synonyms item = some synonym →
  Zonked state synonym.expansion)

include hexpansions

/-- **The walk returns** on zonked types, if the program has finitely many synonyms. -/
theorem walkUnknown_settles
    (hfinite : ∀ item synonym, context.synonyms item = some synonym → item ∈ items)
    (t : Ty) (walker : ContainsUnknown) (hzonked : Zonked state t) :
    Settles (walkUnknown context · t walker) state fun next s =>
      s = state ∧ walker.synonyms ⊆ next.synonyms := by
  refine Settles.succ ?_
  simp only [walkUnknown]
  split_ifs
  · exact .pure ⟨rfl, List.Subset.refl _⟩
  refine (normalise_settles hzonked).bind ?_
  rintro merged s ⟨hsame, hzonked, hsmall⟩
  subst s
  have hvisit : Settles (fun fuel => walker.visit context (walkUnknown context fuel) merged) state
      fun next s => s = state ∧ walker.synonyms ⊆ next.synonyms := by
    cases merged with
    | Synonym item =>
      simp only [ContainsUnknown.visit]
      split_ifs with old
      · exact .pure ⟨rfl, List.Subset.refl _⟩
      · cases hfound : context.synonyms item with
        | none => exact .pure ⟨rfl, List.subset_cons_self _ _⟩
        | some synonym =>
          refine (walkUnknown_settles hfinite synonym.expansion
            { walker with synonyms := item :: walker.synonyms }
            (hexpansions item synonym hfound)).mono ?_
          rintro next s ⟨hsame, hsub⟩
          exact ⟨hsame, List.Subset.trans (List.subset_cons_self _ _) hsub⟩
    | _ => exact .pure ⟨rfl, List.Subset.refl _⟩
  refine hvisit.bind ?_
  rintro next s ⟨hsame, hsub⟩
  subst s
  split_ifs
  · exact .pure ⟨rfl, hsub⟩
  · refine Settles.foldlM
      (fun (later : ContainsUnknown) s => s = state ∧ walker.synonyms ⊆ later.synonyms)
        ?_ ⟨rfl, hsub⟩
    rintro child hmem later s ⟨hsame, hsub⟩
    subst s
    split_ifs
    · exact .pure ⟨rfl, hsub⟩
    · refine (walkUnknown_settles hfinite child later (hzonked.child hmem)).mono ?_
      rintro last s ⟨hsame, hmore⟩
      exact ⟨hsame, List.Subset.trans hsub hmore⟩
  termination_by (unvisited items walker, t.size)
  decreasing_by
    · exact .left _ _ (unvisited_insert (hfinite _ _ ‹_›) ‹_›)
    · have := @unvisited_le items walker later ‹_›
      have := Ty.size_lt_of_mem hmem
      omega

/-- **`contains_unknown` returns** and leaves the state as it is. -/
lemma containsUnknown_settles
    (hfinite : ∀ item synonym, context.synonyms item = some synonym → item ∈ items)
    {t : Ty} (hzonked : Zonked state t) :
    Settles (containsUnknown context · t) state fun _ s => s = state := by
  refine (walkUnknown_settles hexpansions hfinite t ⟨false, []⟩ hzonked).bind ?_
  rintro walker s ⟨rfl, _⟩
  exact .pure rfl

end Walk

/-! ## Types that do not stand for the unknown type -/

/-- A node that may stand for the unknown type, if these synonyms do not. -/
def hidesUnknown (items : List TypeItem) : Ty → Bool
  | .Unknown _ | .Unification _ => true
  | .Synonym item => item ∉ items
  | _ => false

/-- The type mentions neither unknown types nor unification variables, and no synonyms but these. -/
def Known (items : List TypeItem) (t : Ty) : Prop := t.any (hidesUnknown items) = false

instance (items : List TypeItem) (t : Ty) : Decidable (Known items t) :=
  inferInstanceAs (Decidable (_ = false))

section Known

variable {context : CheckContext} {items : List TypeItem} {fuel : ℕ} {t : Ty} {s s' : CheckState}

lemma normalise_known {merged : Ty} (h : Known items t)
    (hrun : (normalise fuel t).run s = .ok (merged, s')) : s' = s ∧ Known items merged := by
  unfold normalise at hrun
  split_ifs at hrun
  · obtain ⟨⟨id, compression⟩, middle, hloop, hrest⟩ := of_run_bind hrun
    obtain ⟨rfl, hknown, rfl⟩ : middle = s ∧ Known items id ∧ compression = [] := by
      refine of_run_loop (fun (x : Ty × List ℕ) state => state = s ∧ Known items x.1 ∧ x.2 = [])
        (fun x state => state = s ∧ Known items x.1 ∧ x.2 = []) ?_ ⟨rfl, h, rfl⟩ hloop
      rintro ⟨id, compression⟩ state turn last ⟨hsame, hknown, rfl⟩ hturn
      subst state
      obtain ⟨reduced, middle, hreduce, hturn⟩ := of_run_bind hturn
      have hreduced : (reduceOnce id).run s = .ok ((simplifyRows id).map (·, none), s) := by
        cases id with
        | Unification => simp [Known, Ty.any_eq, hidesUnknown] at hknown
        | _ => rfl
      cases hreduced.symm.trans hreduce
      cases hstep : simplifyRows id with
      | none =>
        rw [hstep] at hturn
        cases hturn
        exact ⟨rfl, hknown, rfl⟩
      | some merged =>
        rw [hstep] at hturn
        cases hturn
        exact ⟨rfl, any_simplifyRows (fun _ => rfl) hknown hstep, rfl⟩
    cases hrest
    exact ⟨rfl, hknown⟩
  · cases hrun
    exact ⟨rfl, h⟩

variable (hsynonyms : ∀ item ∈ items, ∀ synonym, context.synonyms item = some synonym →
  Known items synonym.expansion)

include hsynonyms

/-- The walk finds nothing in a type that is known. -/
lemma walkUnknown_known {walker next : ContainsUnknown} (h : Known items t)
    (hnone : walker.contains = false)
    (hrun : (walkUnknown context fuel t walker).run s = .ok (next, s')) :
    s' = s ∧ next.contains = false := by
  induction fuel generalizing t walker next s s' with
  | zero => cases hrun
  | succ fuel ih =>
    simp only [walkUnknown] at hrun
    split_ifs at hrun
    · cases hrun
      exact ⟨rfl, hnone⟩
    obtain ⟨merged, first, hnormalise, hrun⟩ := of_run_bind hrun
    obtain ⟨hsame, hknown⟩ := normalise_known h hnormalise
    subst first
    obtain ⟨visited, second, hvisit, hrun⟩ := of_run_bind hrun
    obtain ⟨hsame, hnone⟩ : second = s ∧ visited.contains = false := by
      cases merged with
      | Unknown => simp [Known, Ty.any_eq, hidesUnknown] at hknown
      | Synonym item =>
        have hmem : item ∈ items := by
          simpa [Known, Ty.any_eq, hidesUnknown, Ty.children] using hknown
        simp only [ContainsUnknown.visit] at hvisit
        split_ifs at hvisit
        · cases hvisit
          exact ⟨rfl, hnone⟩
        · cases hfound : context.synonyms item with
          | none =>
            rw [hfound] at hvisit
            cases hvisit
            exact ⟨rfl, hnone⟩
          | some synonym =>
            rw [hfound] at hvisit
            refine ih (hsynonyms item hmem synonym hfound) ?_ hvisit
            exact hnone
      | _ =>
        cases hvisit
        exact ⟨rfl, hnone⟩
    subst second
    simp only [hnone, Bool.false_eq_true, if_false] at hrun
    refine of_run_foldlM (fun (walker : ContainsUnknown) state =>
      state = s ∧ walker.contains = false) ?_ ⟨rfl, hnone⟩ hrun
    rintro child hmem walker state later last ⟨hsame, hnone⟩ hstep
    subst state
    simp only [hnone, Bool.false_eq_true, if_false] at hstep
    exact ih (any_child hknown hmem) hnone hstep

/-- **`contains_unknown` finds nothing** in a type that is known. -/
lemma containsUnknown_known {found : Bool} (h : Known items t)
    (hrun : (containsUnknown context fuel t).run s = .ok (found, s')) : s' = s ∧ found = false := by
  obtain ⟨walker, middle, hwalk, hrun⟩ := of_run_bind hrun
  cases hrun
  exact walkUnknown_known hsynonyms h rfl hwalk

end Known

end Iris.Checking
