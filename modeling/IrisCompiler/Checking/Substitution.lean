import IrisCompiler.Checking.Canonical
import IrisCompiler.Checking.Instantiation
import Mathlib.Data.Set.Finite.Lattice
import Mathlib.Data.Fintype.Pi

/-!
# Substitution into zonked types

`SubstituteName::many` folds over the type into which it substitutes and looks through solved
variables and into rows.  In a type without unification variables and without rows in the tails of
rows it only replaces rigid variables: it is the function `Ty.substitute` (`substituteMany_fixed`).
It does not look into the types that it puts there.

A type that uses a variable is not smaller than the variable's value after the substitution, and it
is larger unless it is the variable (`Uses.size_le`, `Uses.size_lt`).  It is known by the values of
the variables that it uses (`substitute_congr`).
-/

namespace Iris.Checking

open TotalRun List Option RowField

mutual

/-- The type with the rigid variables replaced. -/
def Ty.substitute (bindings : NameToType) : Ty → Ty
  | .Application function argument =>
    .Application (function.substitute bindings) (argument.substitute bindings)
  | .KindApplication function argument =>
    .KindApplication (function.substitute bindings) (argument.substitute bindings)
  | .Forall visible name kind inner =>
    .Forall visible name (kind.substitute bindings) (inner.substitute bindings)
  | .Constrained constraint inner =>
    .Constrained (constraint.substitute bindings) (inner.substitute bindings)
  | .ConstraintOrigin constraint origin =>
    .ConstraintOrigin (constraint.substitute bindings) (origin.substitute bindings)
  | .Function argument result =>
    .Function (argument.substitute bindings) (result.substitute bindings)
  | .Kinded inner kind => .Kinded (inner.substitute bindings) (kind.substitute bindings)
  | .Row row =>
    if row.substitute bindings = (row.fields, row.tail) then .Row row
    else internRow (row.substitute bindings).1 (row.substitute bindings).2
  | .Rigid name depth kind =>
    (bindings.lookup name).getD (.Rigid name depth (kind.substitute bindings))
  | .Constructor item => .Constructor item
  | .Synonym item => .Synonym item
  | .Integer value => .Integer value
  | .String kind value => .String kind value
  | .Unification id => .Unification id
  | .Free name => .Free name
  | .Unknown label => .Unknown label

def RowType.substitute (bindings : NameToType) : RowType → List RowField × Option Ty
  | .Closed => ([], none)
  | .Opened label type tail =>
    ([⟨label, type.substitute bindings⟩], some (tail.substitute bindings))
  | .Field label type rest =>
    (⟨label, type.substitute bindings⟩ :: (rest.substitute bindings).1,
      (rest.substitute bindings).2)

end

/-- The field with the rigid variables of its type replaced. -/
def RowField.substitute (bindings : NameToType) (field : RowField) : RowField :=
  ⟨field.label, field.type.substitute bindings⟩

section Fixed

variable {bindings : NameToType} {t : Ty}

lemma RowType.substitute_eq (row : RowType) : row.substitute bindings =
    (row.fields.map (RowField.substitute bindings), row.tail.map (Ty.substitute bindings)) := by
  induction row with
  | Closed | Opened => rfl
  | Field label type rest ih => rw [RowType.substitute, ih]; rfl

/-- A variable that the substitution replaces. -/
def bindsRigid (bindings : NameToType) : Ty → Bool
  | .Rigid name _ _ => (bindings.lookup name).isSome
  | _ => false

/-- Nothing changes in a type without the variables of the substitution. -/
lemma substitute_unbound (h : t.any (bindsRigid bindings) = false) : t.substitute bindings = t := by
  induction t using Ty.childInduction with
  | step t ih =>
    rw [Ty.any_eq, Bool.or_eq_false_iff, List.any_eq_false] at h
    have hchildren (c : Ty) (hmem : c ∈ t.children) : c.substitute bindings = c :=
      ih c hmem (Bool.eq_false_iff.mpr (h.2 c hmem))
    cases t with
    | Row row =>
      have hfields : row.fields.map (substitute bindings) = row.fields := by
        refine map_congr_left (fun field hmem => ?_) |>.trans (map_id _)
        have := hchildren field.type (field_mem_row hmem)
        rw [substitute, this]
        rfl
      have htail : row.tail.map (Ty.substitute bindings) = row.tail := by
        cases heq : row.tail with
        | none => rfl
        | some tail => rw [map_some, hchildren tail (tail_mem_row heq)]
      rw [Ty.substitute, RowType.substitute_eq, hfields, htail, if_pos rfl]
    | Rigid name depth kind =>
      have hfree : bindings.lookup name = none := by simpa [bindsRigid] using h.1
      rw [Ty.substitute, hfree, hchildren kind (.head _)]
      rfl
    | _ => simp_all [Ty.substitute, Ty.children]

/-- A kind of nodes that is part of another. -/
lemma any_mono {p q : Ty → Bool} (himp : ∀ t, p t = true → q t = true) (h : t.any q = false) :
    t.any p = false := by
  induction t using Ty.childInduction with
  | step t ih =>
    rw [Ty.any_eq, Bool.or_eq_false_iff, List.any_eq_false] at h ⊢
    refine ⟨?_, fun c hmem => Bool.eq_false_iff.mp (ih c hmem (Bool.eq_false_iff.mpr (h.2 c hmem)))⟩
    by_contra hsome
    rw [Bool.not_eq_false] at hsome
    rw [himp t hsome] at h
    cases h.1

lemma substitute_nil (t : Ty) : t.substitute [] = t := by
  refine substitute_unbound ?_
  induction t using Ty.childInduction with
  | step t ih =>
    rw [Ty.any_eq, Bool.or_eq_false_iff, List.any_eq_false]
    refine ⟨?_, fun c hmem => Bool.eq_false_iff.mp (ih c hmem)⟩
    cases t <;> rfl

/-- Nothing changes in a type without variables. -/
lemma substitute_eq_self (h : t.maySubstitute = false) : t.substitute bindings = t := by
  refine substitute_unbound (any_mono (fun t hbound => ?_) h)
  cases t with
  | Rigid => rfl
  | _ => cases hbound

lemma mayZonk_child {c : Ty} (h : t.mayZonk = false) (hmem : c ∈ t.children) :
    c.mayZonk = false := any_child h hmem

lemma mayNormalise_of_mayZonk (h : t.mayZonk = false) : t.mayNormalise = false := by
  rw [Ty.mayZonk, Ty.any_eq, Bool.or_eq_false_iff] at h
  exact h.1

lemma normalise_fixed (h : t.mayNormalise = false) (fuel : ℕ) : normalise fuel t = pure t := by
  rw [normalise, h]
  rfl

/-- A row without a row in its tail is flat. -/
lemma flattenRow_fixed {row : RowType} (h : (Ty.Row row).mayZonk = false) {fuel : ℕ}
    (hsome : 0 < fuel) : flattenRow fuel row = pure (row.fields, row.tail) := by
  obtain ⟨fuel, rfl⟩ : ∃ less, fuel = less + 1 := ⟨fuel - 1, by omega⟩
  unfold flattenRow
  rw [loop]
  dsimp only
  cases heq : row.tail with
  | none => rfl
  | some tail =>
    have hfixed : tail.mayZonk = false := mayZonk_child h (tail_mem_row heq)
    have hnoRow : tail.isRow = false := by
      have hnested : (Ty.Row row).isNestedRow = false :=
        (Bool.or_eq_false_iff.mp (mayNormalise_of_mayZonk h)).2
      simpa [Ty.isNestedRow, heq] using hnested
    simp only [normalise_fixed (mayNormalise_of_mayZonk hfixed)]
    cases tail with
    | Row => cases hnoRow
    | _ => rfl

lemma mapM_pure {α β : Type} {f : α → CheckM β} {g : α → β} {list : List α}
    (h : ∀ a ∈ list, f a = pure (g a)) : list.mapM f = pure (list.map g) := by
  induction list with
  | nil => rfl
  | cons a list ih =>
    rw [mapM_cons, h a (.head _), ih fun b hmem => h b (.tail _ hmem)]
    rfl

lemma option_mapM_pure {f : Ty → CheckM Ty} {g : Ty → Ty} {tail : Option Ty}
    (h : ∀ t, tail = some t → f t = pure (g t)) : tail.mapM f = pure (tail.map g) := by
  cases tail with
  | none => rfl
  | some t => simp [h t rfl]

/-- **Substitution into a zonked type** only replaces rigid variables. -/
theorem substituteMany_fixed (hfixed : t.mayZonk = false) {fuel : ℕ} (hlarge : t.size < fuel) :
    substituteMany fuel bindings t = pure (t.substitute bindings) := by
  induction fuel generalizing t with
  | zero => omega
  | succ fuel ih =>
    unfold substituteMany at ih ⊢
    rw [foldType]
    by_cases hsame : t.maySubstitute = false
    · rw [if_pos (by simpa using hsame), substitute_eq_self hsame]
    rw [if_neg (by simpa using hsame), normalise_fixed (mayNormalise_of_mayZonk hfixed), pure_bind]
    have hchildren (c : Ty) (hmem : c ∈ t.children) :=
      ih (mayZonk_child hfixed hmem) (by have := Ty.size_lt_of_mem hmem; omega)
    cases t with
    | Row row =>
      have hsome : 0 < fuel := by
        have := (Ty.Row row).size_pos
        omega
      have hfields (field : RowField) (hmem : field ∈ row.fields) :=
        hchildren field.type (field_mem_row hmem)
      dsimp only
      rw [flattenRow_fixed hfixed hsome, pure_bind]
      rw [@mapM_pure _ _ _ (RowField.substitute bindings) _ fun field hmem => by
        rw [hfields field hmem]; rfl, pure_bind]
      rw [option_mapM_pure fun t heq => hchildren t (tail_mem_row heq), pure_bind,
        Ty.substitute, RowType.substitute_eq]
      simp only [Prod.mk.injEq]
      split_ifs <;> rfl
    | Rigid name depth kind =>
      cases hvalue : bindings.lookup name with
      | none => simp [hvalue, Ty.substitute, hchildren kind (.head _)]
      | some t => simp [hvalue, Ty.substitute]
    | _ =>
      simp [Ty.children] at hchildren
      simp [Ty.substitute, hchildren]

end Fixed

/-! ## The variables of a type -/

/-- The variable is one of the type that a substitution for `names` replaces. -/
inductive Uses (names : List Name) (name : Name) : Ty → Prop
  | here {depth : ℕ} {kind : Ty} (hmem : name ∈ names) : Uses names name (.Rigid name depth kind)
  | child {t c : Ty} (hmem : c ∈ t.children) (hkept : ∀ other depth kind,
      t = .Rigid other depth kind → other ∉ names) (hinner : Uses names name c) : Uses names name t

section Uses

variable {names : List Name} {name : Name} {bindings other : NameToType} {t value : Ty}

lemma Uses.mem (h : Uses names name t) : name ∈ names := by
  induction h with
  | here mem => exact mem
  | child _ _ _ ih => exact ih

/-- The type is known by the values of the variables that it uses. -/
lemma substitute_congr (hbound : ∀ name, bindings.lookup name ≠ none ↔ name ∈ names)
    (hbound' : ∀ name, other.lookup name ≠ none ↔ name ∈ names)
    (hsame : ∀ name, Uses names name t → bindings.lookup name = other.lookup name) :
    t.substitute bindings = t.substitute other := by
  induction t using Ty.childInduction with
  | step t ih =>
    by_cases hreplaced : ∃ other depth kind, t = .Rigid other depth kind ∧ other ∈ names
    · obtain ⟨name, depth, kind, rfl, hmem⟩ := hreplaced
      obtain ⟨value, heq⟩ := ne_none_iff_exists'.mp ((hbound name).mpr hmem)
      rw [Ty.substitute, Ty.substitute, ← hsame name (.here hmem), heq]
      rfl
    · have hkept (name depth kind) (heq : t = .Rigid name depth kind) : name ∉ names :=
        fun hmem => hreplaced ⟨name, depth, kind, heq, hmem⟩
      have hchildren (c : Ty) (hmem : c ∈ t.children) :
          c.substitute bindings = c.substitute other :=
        ih c hmem fun name huses => hsame name (.child hmem hkept huses)
      cases t with
      | Row row =>
        have hequal : row.substitute bindings = row.substitute other := by
          rw [RowType.substitute_eq, RowType.substitute_eq, Prod.mk.injEq]
          constructor
          · refine map_congr_left fun field hmem => ?_
            rw [substitute, substitute,
              hchildren field.type (field_mem_row hmem)]
          · cases heq : row.tail with
            | none => rfl
            | some tail =>
              rw [map_some, map_some,
                hchildren tail (tail_mem_row heq)]
        rw [Ty.substitute, Ty.substitute, hequal]
      | Rigid name depth kind =>
        have hunbound := hkept name depth kind rfl
        have hfree : bindings.lookup name = none := by
          by_contra hsome
          exact hunbound ((hbound name).mp hsome)
        have hfree' : other.lookup name = none := by
          by_contra hsome
          exact hunbound ((hbound' name).mp hsome)
        rw [Ty.substitute, Ty.substitute, hfree, hfree', hchildren kind (.head _)]
      | _ => simp_all [Ty.substitute, Ty.children]

/-- The row after a substitution. -/
lemma substitute_row (row : RowType) : ∃ replaced : RowType,
    (Ty.Row row).substitute bindings = .Row replaced ∧
      replaced.fields.Perm (row.fields.map (substitute bindings)) ∧
      replaced.tail = row.tail.map (Ty.substitute bindings) := by
  rw [Ty.substitute, RowType.substitute_eq]
  split_ifs with hsame
  · obtain ⟨hfields, htail⟩ := Prod.mk.injEq _ _ _ _ ▸ hsame
    exact ⟨row, rfl, by rw [hfields], htail.symm⟩
  · obtain ⟨replaced, heq, hfields, htail⟩ := @internRow_eq_row
      (row.fields.map (substitute bindings)) (row.tail.map (Ty.substitute bindings))
      fun hempty => by rw [RowType.tail_of_fields_nil (map_eq_nil_iff.mp hempty)]; rfl
    exact ⟨replaced, heq, hfields ▸ perm_insertionSort _ _, htail⟩

/-- A type that is not replaced is built from its children after the substitution. -/
lemma children_substitute
    (hkept : ∀ name depth kind, t = .Rigid name depth kind → bindings.lookup name = none) :
    (t.substitute bindings).children.Perm (t.children.map (Ty.substitute bindings)) := by
  cases t with
  | Row row =>
    obtain ⟨replaced, heq, hfields, htail⟩ := @substitute_row bindings row
    rw [heq]
    show (replaced.fields.map type ++ replaced.tail.toList).Perm
      ((row.fields.map type ++ row.tail.toList).map (Ty.substitute bindings))
    rw [htail, map_append]
    refine List.Perm.append ((hfields.map _).trans (by simp [Function.comp_def, substitute])) ?_
    cases row.tail <;> simp
  | Rigid name depth kind =>
    rw [Ty.substitute, hkept name depth kind rfl]
    rfl
  | _ => exact List.Perm.refl _

section Bound

variable (hbound : ∀ name, bindings.lookup name ≠ none → name ∈ names)

include hbound

lemma size_substitute_child {c : Ty} (hmem : c ∈ t.children)
    (hkept : ∀ name depth kind, t = .Rigid name depth kind → name ∉ names) :
    (c.substitute bindings).size < (t.substitute bindings).size := by
  refine Ty.size_lt_of_mem ((children_substitute fun name depth kind hsame => ?_).symm.subset
    (mem_map_of_mem hmem))
  by_contra hsome
  exact hkept name depth kind hsame (hbound name hsome)

variable (h : Uses names name t) (heq : bindings.lookup name = some value)

include h heq

/-- **A type is not smaller than the value of a variable that it uses.** -/
lemma Uses.size_le : value.size ≤ (t.substitute bindings).size := by
  induction h with
  | here _ =>
    rw [Ty.substitute, heq]
    exact le_rfl
  | child hmem hkept _ ih => exact ih.trans (size_substitute_child hbound hmem hkept).le

/-- **A type is larger than the value of a variable that it uses**, unless it is the variable. -/
lemma Uses.size_lt (hproper : ∀ depth kind, t ≠ .Rigid name depth kind) :
    value.size < (t.substitute bindings).size := by
  cases h with
  | here _ => exact absurd rfl (hproper _ _)
  | child hmem hkept hinner =>
    exact (Uses.size_le hbound hinner heq).trans_lt (size_substitute_child hbound hmem hkept)

end Bound

/-- A type without children is what it was, unless it is replaced. -/
lemma substitute_leaf (hleaf : t.children = []) : t.substitute bindings = t := by
  cases t with
  | Row row =>
    have hclosed : row.fields = [] := map_eq_nil_iff.mp (append_eq_nil_iff.mp hleaf).1
    rw [Ty.substitute, RowType.substitute_eq, hclosed, RowType.tail_of_fields_nil hclosed]
    exact if_pos rfl
  | Application | KindApplication | Forall | Constrained | ConstraintOrigin | Function | Kinded
  | Rigid => cases hleaf
  | _ => rfl

variable {p : Ty → Bool} {state : CheckState}

/-- **Leaves of a kind do not appear** if neither the type nor the values have them. -/
lemma any_substitute (hleaf : ∀ t, p t = true → t.children = []) (h : t.any p = false)
    (hvalues : ∀ name value, bindings.lookup name = some value →
      value.any p = false) : (t.substitute bindings).any p = false := by
  induction t using Ty.childInduction with
  | step t ih =>
    by_cases hkept : ∀ name depth kind, t = .Rigid name depth kind → bindings.lookup name = none
    · rw [Ty.any_eq, Bool.or_eq_false_iff, List.any_eq_false] at h ⊢
      constructor
      · by_contra hisLeaf
        rw [Bool.not_eq_false] at hisLeaf
        have hempty : t.children = [] := by
          have hperm := children_substitute hkept
          rw [hleaf _ hisLeaf] at hperm
          exact map_eq_nil_iff.mp hperm.nil_eq.symm
        rw [substitute_leaf hempty, h.1] at hisLeaf
        cases hisLeaf
      · intro c hmem
        obtain ⟨child, hinT, rfl⟩ := mem_map.mp ((children_substitute hkept).subset hmem)
        exact Bool.eq_false_iff.mp (ih child hinT (Bool.eq_false_iff.mpr (h.2 child hinT)))
    · push Not at hkept
      obtain ⟨name, depth, kind, rfl, hsome⟩ := hkept
      obtain ⟨value, heq⟩ := ne_none_iff_exists'.mp hsome
      rw [Ty.substitute, heq]
      exact hvalues name value heq

lemma zonked_of_fixed (h : t.mayZonk = false) : Zonked state t := by
  refine any_mono (fun t hisSolved => ?_) h
  cases t with
  | Unification => rfl
  | _ => cases hisSolved

/-- A solved variable is a leaf. -/
lemma solved_leaf (t : Ty) (h : (match t with
    | .Unification id => !state.unsolved id
    | _ => false) = true) : t.children = [] := by
  cases t with
  | Unification => rfl
  | _ => cases h

end Uses

/-! ## Finitely many substitutions -/

/-- The substitution is for these variables. -/
def Binds (names : List Name) (bindings : NameToType) : Prop :=
  ∀ name, bindings.lookup name ≠ none ↔ name ∈ names

/-- **Finitely many results.**  What depends only on some of the variables takes finitely many
values, if these variables do. -/
lemma finite_results {X : Type*} {names : List Name} {used : Name → Prop} (f : NameToType → X)
    (A : Name → Set Ty) (hfinite : ∀ name ∈ names, used name → (A name).Finite)
    (hcongr : ∀ bindings other, Binds names bindings → Binds names other →
      (∀ name ∈ names, used name → bindings.lookup name = other.lookup name) →
      f bindings = f other) :
    {x | ∃ bindings, Binds names bindings ∧ (∀ name ∈ names, used name →
      ∀ value, bindings.lookup name = some value → value ∈ A name) ∧ f bindings = x}.Finite := by
  let values (bindings : NameToType) (name : {name // name ∈ names ∧ used name}) : Option Ty :=
    bindings.lookup name.1
  have : Finite {name // name ∈ names ∧ used name} :=
    Set.Finite.subset (finite_toSet names) fun _ h => h.1
  have hpossible : (Set.pi Set.univ fun name : {name // name ∈ names ∧ used name} =>
      some '' A name.1).Finite :=
    Set.Finite.pi fun name => (hfinite name.1 name.2.1 name.2.2).image _
  refine (Set.Finite.biUnion hpossible fun g _ => Set.Subsingleton.finite
    (s := {x | ∃ bindings, Binds names bindings ∧ values bindings = g ∧ f bindings = x}) ?_).subset
      ?_
  · rintro x ⟨bindings, hbinds, heq, rfl⟩ y ⟨other, hbinds', heq', rfl⟩
    refine hcongr bindings other hbinds hbinds' fun name hmem huses => ?_
    exact congrFun (heq.trans heq'.symm) ⟨name, hmem, huses⟩
  · rintro x ⟨bindings, hbinds, hinside, rfl⟩
    refine Set.mem_biUnion (x := values bindings) ?_ ⟨bindings, hbinds, rfl, rfl⟩
    intro name _
    obtain ⟨value, heq⟩ := ne_none_iff_exists'.mp ((hbinds name.1).mpr name.2.1)
    exact ⟨value, hinside name.1 name.2.1 name.2.2 value heq, heq.symm⟩

end Iris.Checking
