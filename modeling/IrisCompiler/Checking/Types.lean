import Mathlib.Algebra.Ring.Nat
import Mathlib.Data.List.Sort
import Mathlib.Data.String.Basic
import Mathlib.Tactic.Common

/-!
# Core types

The type representation of the checker (`core.rs`), with the flags that the interner stores beside
each type (`interners.rs`) and the constructor of rows (`CheckContext::intern_row`).

Types are interned in the source and compared by their handle; here they are the finite trees the
handles stand for, so that comparing handles is comparing trees.  A row is a list of fields that
ends closed or with a tail; by its constructors an open row has a field, as `RowType::from_open`
asserts.
-/

namespace Iris.Checking

abbrev Label := String

/-- The identity of a rigid type variable.  Names are unique over the whole program. -/
structure Name where
  file : ℕ
  unique : ℕ
  isScoped : Bool
  deriving DecidableEq

/-- A type declaration: the file and the item in it. -/
structure TypeItem where
  file : ℕ
  item : ℕ
  deriving DecidableEq

inductive StringKind where
  | String
  | RawString
  deriving DecidableEq

mutual

/-- `Type`. -/
inductive Ty where
  | Application (function argument : Ty)
  | KindApplication (function argument : Ty)
  | Forall (visible : Bool) (name : Name) (kind inner : Ty)
  | Constrained (constraint inner : Ty)
  | ConstraintOrigin (constraint origin : Ty)
  | Function (argument result : Ty)
  | Kinded (inner kind : Ty)
  | Constructor (item : TypeItem)
  | Synonym (item : TypeItem)
  | Integer (value : ℤ)
  | String (kind : StringKind) (value : List ℕ)
  | Row (row : RowType)
  | Rigid (name : Name) (depth : ℕ) (kind : Ty)
  | Unification (id : ℕ)
  | Free (name : Label)
  | Unknown (label : Label)
  deriving DecidableEq

/-- `RowType`: the fields in order; the last field of an open row comes with the tail. -/
inductive RowType where
  | Closed
  | Opened (label : Label) (type : Ty) (tail : Ty)
  | Field (label : Label) (type : Ty) (rest : RowType)
  deriving DecidableEq

end

structure RowField where
  label : Label
  type : Ty
  deriving DecidableEq

namespace RowType

def fields : RowType → List RowField
  | Closed => []
  | Opened label type _ => [⟨label, type⟩]
  | Field label type rest => ⟨label, type⟩ :: rest.fields

def tail : RowType → Option Ty
  | Closed => none
  | Opened _ _ tail => some tail
  | Field _ _ rest => rest.tail

def fromClosed : List RowField → RowType
  | [] => Closed
  | field :: fields => Field field.label field.type (fromClosed fields)

/-- The row of a field, further fields and a tail. -/
def fromOpen (field : RowField) : List RowField → Ty → RowType
  | [], tail => Opened field.label field.type tail
  | next :: fields, tail => Field field.label field.type (fromOpen next fields tail)

@[simp]
lemma fields_fromClosed (fields : List RowField) : (fromClosed fields).fields = fields := by
  induction fields with
  | nil => rfl
  | cons field fields ih => simp [fromClosed, RowType.fields, ih]

@[simp]
lemma tail_fromClosed (fields : List RowField) : (fromClosed fields).tail = none := by
  induction fields with
  | nil => rfl
  | cons field fields ih => simpa [fromClosed, RowType.tail] using ih

@[simp]
lemma fields_fromOpen (field : RowField) (fields : List RowField) (tail : Ty) :
    (fromOpen field fields tail).fields = field :: fields := by
  induction fields generalizing field with
  | nil => rfl
  | cons next fields ih => simp [fromOpen, RowType.fields, ih]

@[simp]
lemma tail_fromOpen (field : RowField) (fields : List RowField) (tail : Ty) :
    (fromOpen field fields tail).tail = some tail := by
  induction fields generalizing field with
  | nil => rfl
  | cons next fields ih => simpa [fromOpen, RowType.tail] using ih next

end RowType

/-- Induction over the fields of a row. -/
@[elab_as_elim, induction_eliminator]
theorem RowType.fieldInduction {P : RowType → Prop} (Closed : P .Closed)
    (Opened : ∀ label type tail, P (.Opened label type tail))
    (Field : ∀ label type rest, P rest → P (.Field label type rest)) : ∀ row, P row
  | .Closed => Closed
  | .Opened label type tail => Opened label type tail
  | .Field label type rest => Field label type rest (fieldInduction Closed Opened Field rest)

/-! ## Descendants -/

/-- The types of the fields, then the tail. -/
def RowType.children (row : RowType) : List Ty := row.fields.map RowField.type ++ row.tail.toList

section Parts

variable {fields : List RowField} {tail : Option Ty} {field : RowField} {t : Ty}

lemma field_mem_row (hmem : field ∈ fields) :
    field.type ∈ fields.map RowField.type ++ tail.toList :=
  List.mem_append_left _ (List.mem_map_of_mem hmem)

lemma tail_mem_row (hmem : tail = some t) : t ∈ fields.map RowField.type ++ tail.toList :=
  List.mem_append_right _ (Option.mem_toList.mpr hmem)

lemma forall_mem_row {P : Ty → Prop} (htypes : ∀ field ∈ fields, P field.type)
    (hlast : ∀ t ∈ tail, P t) : ∀ c ∈ fields.map RowField.type ++ tail.toList, P c :=
  List.forall_mem_append.mpr ⟨List.forall_mem_map.mpr htypes, fun c hmem =>
    hlast c (Option.mem_toList.mp hmem)⟩

end Parts

namespace Ty

/-- The types a type is built from, in the order of its constructor. -/
def children : Ty → List Ty
  | Application function argument => [function, argument]
  | KindApplication function argument => [function, argument]
  | Forall _ _ kind inner => [kind, inner]
  | Constrained constraint inner => [constraint, inner]
  | ConstraintOrigin constraint origin => [constraint, origin]
  | Function argument result => [argument, result]
  | Kinded inner kind => [inner, kind]
  | Row row => row.children
  | Rigid _ _ kind => [kind]
  | Constructor _ | Synonym _ | Integer _ | String _ _ | Unification _ | Free _ | Unknown _ => []

end Ty

@[simp]
lemma RowType.children_Field (label : Label) (type : Ty) (rest : RowType) :
    (RowType.Field label type rest).children = type :: rest.children := rfl

private lemma forall_mem_pair {P : Ty → Prop} {first second : Ty} (hfirst : P first)
    (hsecond : P second) : ∀ c ∈ [first, second], P c := by
  simp [hfirst, hsecond]

mutual

/-- **Induction over the children of a type.** -/
theorem Ty.childInduction {P : Ty → Prop} (step : ∀ t, (∀ c ∈ t.children, P c) → P t) :
    ∀ t, P t
  | .Application first second | .KindApplication first second | .Forall _ _ first second
  | .Constrained first second | .ConstraintOrigin first second | .Function first second
  | .Kinded first second => step _ (forall_mem_pair
      (Ty.childInduction step first) (Ty.childInduction step second))
  | .Row row => step _ (RowType.childInduction step row)
  | .Rigid _ _ kind => step _ (List.forall_mem_singleton.mpr (Ty.childInduction step kind))
  | .Constructor _ | .Synonym _ | .Integer _ | .String _ _ | .Unification _ | .Free _
  | .Unknown _ => step _ (List.forall_mem_nil _)

/-- What every type satisfies by `step` is satisfied by the children of a row. -/
theorem RowType.childInduction {P : Ty → Prop} (step : ∀ t, (∀ c ∈ t.children, P c) → P t) :
    ∀ row : RowType, ∀ c ∈ row.children, P c
  | .Closed => List.forall_mem_nil _
  | .Opened _ type tail => forall_mem_pair
      (Ty.childInduction step type) (Ty.childInduction step tail)
  | .Field _ type rest => List.forall_mem_cons.mpr
      ⟨Ty.childInduction step type, RowType.childInduction step rest⟩

end

mutual

/-- Whether the type or one of its descendants satisfies `p`. -/
def Ty.any (p : Ty → Bool) : Ty → Bool
  | .Application function argument =>
    p (.Application function argument) || function.any p || argument.any p
  | .KindApplication function argument =>
    p (.KindApplication function argument) || function.any p || argument.any p
  | .Forall visible name kind inner =>
    p (.Forall visible name kind inner) || kind.any p || inner.any p
  | .Constrained constraint inner =>
    p (.Constrained constraint inner) || constraint.any p || inner.any p
  | .ConstraintOrigin constraint origin =>
    p (.ConstraintOrigin constraint origin) || constraint.any p || origin.any p
  | .Function argument result => p (.Function argument result) || argument.any p || result.any p
  | .Kinded inner kind => p (.Kinded inner kind) || inner.any p || kind.any p
  | .Row row => p (.Row row) || row.any p
  | .Rigid name depth kind => p (.Rigid name depth kind) || kind.any p
  | .Constructor item => p (.Constructor item)
  | .Synonym item => p (.Synonym item)
  | .Integer value => p (.Integer value)
  | .String kind value => p (.String kind value)
  | .Unification id => p (.Unification id)
  | .Free name => p (.Free name)
  | .Unknown label => p (.Unknown label)

/-- Whether a descendant of the row satisfies `p`. -/
def RowType.any (p : Ty → Bool) : RowType → Bool
  | .Closed => false
  | .Opened _ type tail => type.any p || tail.any p
  | .Field _ type rest => type.any p || rest.any p

end

lemma RowType.any_eq (p : Ty → Bool) (row : RowType) :
    row.any p = row.children.any (Ty.any p) := by
  induction row with
  | Closed => rfl
  | Opened => simp [RowType.any, RowType.children, RowType.fields, RowType.tail]
  | Field _ type rest ih => rw [RowType.any, ih, RowType.children_Field, List.any_cons]

lemma Ty.any_eq (p : Ty → Bool) (t : Ty) : t.any p = (p t || t.children.any (Ty.any p)) := by
  cases t <;> simp [Ty.any, Ty.children, RowType.any_eq, Bool.or_assoc]

/-! ## Flags -/

namespace Ty

def isRow : Ty → Bool
  | Row _ => true
  | _ => false

def isRigid : Ty → Bool
  | Rigid _ _ _ => true
  | _ => false

def isUnification : Ty → Bool
  | Unification _ => true
  | _ => false

/-- A row whose tail is a row again. -/
def isNestedRow : Ty → Bool
  | Row row => row.tail.any isRow
  | _ => false

/-- Whether head normalisation may change this type (`may_normalise`). -/
def mayNormalise (t : Ty) : Bool := t.isUnification || t.isNestedRow

def hasVariables (t : Ty) : Bool := t.any fun t => t.isUnification || t.isRigid

/-- Whether zonking may change this type (`may_zonk`). -/
def mayZonk (t : Ty) : Bool := t.any fun t => t.isUnification || t.isNestedRow

/-- Whether substituting rigid variables may change this type (`may_substitute`). -/
def maySubstitute (t : Ty) : Bool := t.any fun t => t.isUnification || t.isRigid || t.isNestedRow

end Ty

mutual

/-- Whether expanding synonyms may change this type (`may_expand`). -/
def Ty.mayExpand : Ty → Bool
  | .Application function _ => function.mayExpand
  | .KindApplication function _ => function.mayExpand
  | .ConstraintOrigin _ _ => true
  | .Synonym _ => true
  | .Unification _ => true
  | .Row row => row.tailMayExpand
  | _ => false

/-- Whether expanding the tail of a row may change it. -/
def RowType.tailMayExpand : RowType → Bool
  | .Closed => false
  | .Opened _ _ tail => tail.isRow || tail.mayExpand
  | .Field _ _ rest => rest.tailMayExpand

end

/-! ## Construction of types -/

/-- `intern_row`: the fields sorted by their labels, in their order where labels are equal.  A row
that adds no field to its tail is the tail. -/
def internRow (fields : List RowField) (tail : Option Ty) : Ty :=
  match fields.insertionSort (fun left right => left.label ≤ right.label), tail with
  | fields, none => .Row (.fromClosed fields)
  | [], some tail => tail
  | field :: fields, some tail => .Row (.fromOpen field fields tail)

/-- An interned row is the row of its fields and its tail, up to the order of the fields, or it is
the tail. -/
lemma internRow_cases (fields : List RowField) (tail : Option Ty) :
    (fields = [] ∧ tail = some (internRow fields tail)) ∨
      ∃ row : RowType, internRow fields tail = .Row row ∧ row.fields.Perm fields ∧
        row.tail = tail := by
  have hperm := List.perm_insertionSort (fun left right : RowField => left.label ≤ right.label)
    fields
  unfold internRow
  split
  case h_1 => exact .inr ⟨_, rfl, by simpa using hperm, by simp⟩
  case h_2 t hsorted =>
    rw [hsorted] at hperm
    exact .inl ⟨hperm.nil_eq.symm, rfl⟩
  case h_3 field rest t hsorted =>
    rw [hsorted] at hperm
    exact .inr ⟨_, rfl, by simpa using hperm, by simp⟩

end Iris.Checking
