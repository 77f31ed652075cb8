import IrisCompiler.Checking.Types
import IrisCompiler.Library.MergeJoin

/-!
# Instances of types

Two types are equal if they have one canonical form: rows are merged with the rows in their tails
and sorted by label, with the fields of one label in order, and a function is the application of the
function constructor.  `Ty.instantiate` puts types in the place of rigid variables and returns the
canonical form.

A canonical row is known by the types that each label has, in order, and by its tail
(`instantiate_row_inj`).
-/

namespace Iris.Checking

open MergeJoin

/-! ## Rows -/

variable {row : RowType} {fields : List RowField}

lemma RowType.ext {other : RowType} (hfields : row.fields = other.fields)
    (htail : row.tail = other.tail) : row = other := by
  induction row generalizing other with
  | Closed =>
    cases other with
    | Closed => rfl
    | Opened | Field => simp [RowType.fields] at hfields
  | Opened label type last =>
    cases other with
    | Closed => simp [RowType.fields] at hfields
    | Opened => simp_all [RowType.fields, RowType.tail]
    | Field label' type' rest => cases rest <;> simp_all [RowType.fields, RowType.tail]
  | Field label type rest ih =>
    cases other with
    | Closed => simp [RowType.fields] at hfields
    | Opened => cases rest <;> simp_all [RowType.fields, RowType.tail]
    | Field label' type' rest' =>
      simp only [RowType.fields, List.cons.injEq] at hfields
      obtain ⟨⟨rfl, rfl⟩, hfields⟩ := hfields
      rw [ih hfields htail]

/-- A row without fields is closed. -/
lemma RowType.tail_of_fields_nil (h : row.fields = []) : row.tail = none := by
  cases row with
  | Closed => rfl
  | Opened | Field => simp [RowType.fields] at h

/-- The fields by label. -/
abbrev SortedFields (fields : List RowField) : Prop := Sorted RowField.label fields

abbrev sortFields (fields : List RowField) : List RowField :=
  fields.insertionSort fun left right => left.label ≤ right.label

lemma sortedFields_sort (fields : List RowField) : SortedFields (sortFields fields) :=
  List.pairwise_insertionSort _ _

lemma sortFields_of_sorted (h : SortedFields fields) :
    sortFields fields = fields := h.insertionSort_eq

lemma keyed_sortFields (label : Label) (fields : List RowField) :
    keyed RowField.label label (sortFields fields) = keyed RowField.label label fields :=
  keyed_insertionSort

/-- An interned row with a field or without a tail is a row of the sorted fields. -/
lemma internRow_eq_row {tail : Option Ty} (h : fields = [] → tail = none) :
    ∃ row : RowType, internRow fields tail = .Row row ∧ row.fields = sortFields fields ∧
      row.tail = tail := by
  unfold internRow
  split
  case h_1 => exact ⟨_, rfl, by simp, by simp⟩
  case h_2 t hsorted =>
    have hempty : fields = [] := by
      have hperm := List.perm_insertionSort (fun l r : RowField => l.label ≤ r.label) fields
      rw [hsorted] at hperm
      exact hperm.nil_eq.symm
    cases h hempty
  case h_3 field rest t hsorted => exact ⟨_, rfl, by rw [sortFields, hsorted]; simp, by simp⟩

/-- The fields of a type and what comes after them. -/
def rowParts : Ty → List RowField × Option Ty
  | .Row row => (row.fields, row.tail)
  | type => ([], some type)

/-- The fields in a tail and what comes after them. -/
def tailParts : Option Ty → List RowField × Option Ty
  | none => ([], none)
  | some tail => rowParts tail

/-- The row of the fields and the tail, merged with the tail if that is a row. -/
def joinRow (fields : List RowField) (tail : Option Ty) : Ty :=
  internRow (fields ++ (tailParts tail).1) (tailParts tail).2

/-! ## Instances -/

mutual

/-- The canonical form of the type with `σ` applied to its rigid variables. -/
def Ty.instantiate (function : TypeItem) (σ : Name → Option Ty) : Ty → Ty
  | .Application f argument =>
    .Application (f.instantiate function σ) (argument.instantiate function σ)
  | .KindApplication f argument =>
    .KindApplication (f.instantiate function σ) (argument.instantiate function σ)
  | .Forall visible name kind inner =>
    .Forall visible name (kind.instantiate function σ) (inner.instantiate function σ)
  | .Constrained constraint inner =>
    .Constrained (constraint.instantiate function σ) (inner.instantiate function σ)
  | .ConstraintOrigin constraint origin =>
    .ConstraintOrigin (constraint.instantiate function σ) (origin.instantiate function σ)
  | .Function argument result => .Application
    (.Application (.Constructor function) (argument.instantiate function σ))
    (result.instantiate function σ)
  | .Kinded inner kind => .Kinded (inner.instantiate function σ) (kind.instantiate function σ)
  | .Row row => joinRow (row.instantiate function σ).1 (row.instantiate function σ).2
  | .Rigid name depth kind => (σ name).getD (.Rigid name depth (kind.instantiate function σ))
  | .Constructor item => .Constructor item
  | .Synonym item => .Synonym item
  | .Integer value => .Integer value
  | .String kind value => .String kind value
  | .Unification id => .Unification id
  | .Free name => .Free name
  | .Unknown label => .Unknown label

/-- The instances of the fields and of the tail. -/
def RowType.instantiate (function : TypeItem) (σ : Name → Option Ty) :
    RowType → List RowField × Option Ty
  | .Closed => ([], none)
  | .Opened label type tail =>
    ([⟨label, type.instantiate function σ⟩], some (tail.instantiate function σ))
  | .Field label type rest =>
    (⟨label, type.instantiate function σ⟩ :: (rest.instantiate function σ).1,
      (rest.instantiate function σ).2)

end

/-- The canonical form of a type. -/
def Ty.canonical (function : TypeItem) (t : Ty) : Ty := t.instantiate function fun _ => none

/-- The canonical form of the type under a substitution. -/
def Ty.under (function : TypeItem) (σ : Name → Option Ty) (t : Ty) : Ty :=
  t.instantiate function fun name => (σ name).map (Ty.canonical function)

/-- The field with the instance of its type. -/
def RowField.instantiate (function : TypeItem) (σ : Name → Option Ty) (field : RowField) :
    RowField := ⟨field.label, field.type.instantiate function σ⟩

section Instantiate

variable {function : TypeItem} {σ : Name → Option Ty}

lemma RowType.instantiate_eq (row : RowType) : row.instantiate function σ =
    (row.fields.map (RowField.instantiate function σ),
      row.tail.map (Ty.instantiate function σ)) := by
  induction row with
  | Closed => rfl
  | Opened => rfl
  | Field label type rest ih =>
    rw [RowType.instantiate, ih]
    rfl

/-- A row that is a canonical form: its fields are sorted and its tail is no row. -/
def Flat (t : Ty) : Prop :=
  ∀ row, t = .Row row → SortedFields row.fields ∧ ∀ tail, row.tail = some tail → tail.isRow = false

variable {t : Ty}

lemma flat_of_not_isRow (h : t.isRow = false) : Flat t := by
  rintro row rfl
  cases h

/-- What comes after the fields of a flat type is no row. -/
lemma Flat.parts (h : Flat t) :
    SortedFields (rowParts t).1 ∧ ∀ tail, (rowParts t).2 = some tail → tail.isRow = false := by
  cases t with
  | Row row => exact h row rfl
  | _ => exact ⟨.nil, by rintro tail ⟨⟩; rfl⟩

lemma flat_internRow {fields : List RowField} {tail : Option Ty}
    (h : ∀ t, tail = some t → t.isRow = false) : Flat (internRow fields tail) := by
  by_cases hempty : fields = [] ∧ tail ≠ none
  · obtain ⟨rfl, hsome⟩ := hempty
    obtain ⟨t, rfl⟩ := Option.ne_none_iff_exists'.mp hsome
    exact flat_of_not_isRow (h t rfl)
  · obtain ⟨row, heq, hrowFields, hrowTail⟩ := @internRow_eq_row fields tail (by tauto)
    rw [heq]
    rintro _ ⟨⟩
    rw [hrowFields, hrowTail]
    exact ⟨sortedFields_sort fields, h⟩

lemma flat_instantiate (hvalues : ∀ name t, σ name = some t → Flat t) (t : Ty) :
    Flat (t.instantiate function σ) := by
  induction t using Ty.childInduction with
  | step t ih =>
    cases t with
    | Row row =>
      rw [Ty.instantiate, RowType.instantiate_eq]
      refine flat_internRow fun t hlast => ?_
      cases htail : row.tail with
      | none =>
        rw [htail] at hlast
        cases hlast
      | some u =>
        rw [htail] at hlast
        exact (ih u (tail_mem_row htail)).parts.2 t hlast
    | Rigid name depth kind =>
      rw [Ty.instantiate]
      cases hvalue : σ name with
      | none => exact flat_of_not_isRow rfl
      | some t => exact hvalues name t hvalue
    | _ => exact flat_of_not_isRow rfl

lemma flat_canonical (t : Ty) : Flat (t.canonical function) :=
  flat_instantiate (fun _ _ h => by cases h) t

/-- The values of a substitution, in canonical form. -/
lemma flat_values (σ : Name → Option Ty) :
    ∀ name t, (σ name).map (Ty.canonical function) = some t → Flat t := by
  intro name t h
  obtain ⟨u, _, rfl⟩ := Option.map_eq_some_iff.mp h
  exact flat_canonical u

/-- A type is known by its parts. -/
lemma eq_of_rowParts {u : Ty} (hsame : rowParts t = rowParts u) : t = u := by
  have hmixed {row : RowType} {t : Ty} (h : rowParts (.Row row) = ([], some t)) : False := by
    obtain ⟨hfields, htail⟩ := Prod.mk.injEq _ _ _ _ ▸ h
    rw [RowType.tail_of_fields_nil hfields] at htail
    cases htail
  by_cases hrowT : ∃ row, t = .Row row
  · obtain ⟨row, rfl⟩ := hrowT
    cases u with
    | Row other =>
      obtain ⟨hfields, htail⟩ := Prod.mk.injEq _ _ _ _ ▸ hsame
      rw [RowType.ext hfields htail]
    | _ => exact (hmixed hsame).elim
  · have hpartsT : rowParts t = ([], some t) := by
      cases t with
      | Row row => exact absurd ⟨row, rfl⟩ hrowT
      | _ => rfl
    rw [hpartsT] at hsame
    cases u with
    | Row other => exact (hmixed hsame.symm).elim
    | _ => simpa [rowParts] using hsame

/-! ## Equal rows -/

/-- The fields of a row under a substitution, before they are sorted, and what comes after them. -/
def rowUnder (function : TypeItem) (σ : Name → Option Ty) (row : RowType) :
    List RowField × Option Ty :=
  let tail := tailParts (row.tail.map (Ty.instantiate function σ))
  (row.fields.map (RowField.instantiate function σ) ++ tail.1, tail.2)

/-- The instance of a row is a row. -/
lemma instantiate_row (row : RowType) : ∃ instance' : RowType,
    (Ty.Row row).instantiate function σ = .Row instance' ∧
      instance'.fields = sortFields (rowUnder function σ row).1 ∧
      instance'.tail = (rowUnder function σ row).2 := by
  rw [Ty.instantiate, RowType.instantiate_eq]
  refine internRow_eq_row fun hempty => ?_
  have hfields : row.fields = [] := by simpa using (List.append_eq_nil_iff.mp hempty).1
  rw [RowType.tail_of_fields_nil hfields]
  rfl

/-- **Rows with equal instances have equal types at each label, and equal tails.** -/
theorem instantiate_row_inj {row other : RowType}
    (hsame : (Ty.Row row).instantiate function σ = (Ty.Row other).instantiate function σ) :
    (∀ label, keyed RowField.label label (rowUnder function σ row).1 =
      keyed RowField.label label (rowUnder function σ other).1) ∧
    (rowUnder function σ row).2 = (rowUnder function σ other).2 := by
  obtain ⟨left, heq, hfields, htail⟩ := @instantiate_row function σ row
  obtain ⟨right, heq', hfields', htail'⟩ := @instantiate_row function σ other
  rw [heq, heq', Ty.Row.injEq] at hsame
  subst hsame
  refine ⟨fun label => ?_, htail.symm.trans htail'⟩
  rw [← keyed_sortFields, ← hfields, hfields', keyed_sortFields]

end Instantiate

end Iris.Checking
