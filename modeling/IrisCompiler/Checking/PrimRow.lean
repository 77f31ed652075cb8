import IrisCompiler.Checking.Solving
import IrisCompiler.Checking.Unification

/-!
# Row unions

The solver of `Union` (`core/constraint/compiler/prim_row.rs`), with the views of rows that it
matches on (`core/constraint/compiler.rs`).
-/

namespace Iris.Checking

open TotalRun MergeJoin

/-! ## Views of rows -/

inductive RowView where
  | Closed (fields : List RowField)
  | EmptyOpen (tail : Ty)
  | Open (fields : List RowField) (tail : Ty)
  deriving DecidableEq

namespace RowView

def fields : RowView → List RowField
  | Closed fields => fields
  | EmptyOpen _ => []
  | Open fields _ => fields

def tail : RowView → Option Ty
  | Closed _ => none
  | EmptyOpen tail => some tail
  | Open _ tail => some tail

def fromRow (row : RowType) : RowView :=
  match row.tail with
  | some tail => Open row.fields tail
  | none => Closed row.fields

/-- The view of a type. -/
def ofType : Ty → RowView
  | .Row row => fromRow row
  | id => EmptyOpen id

end RowView

section Source

variable (context : CheckContext)

/-- The part of `fold_type` after the type itself is transformed: its children are folded. -/
def foldChildren (fold : Ty → CheckM Ty) (fuel : ℕ) : Ty → CheckM Ty
  | .Application function argument => return .Application (← fold function) (← fold argument)
  | .KindApplication function argument =>
    return .KindApplication (← fold function) (← fold argument)
  | .Forall visible name kind inner => return .Forall visible name (← fold kind) (← fold inner)
  | .Constrained constraint inner => return .Constrained (← fold constraint) (← fold inner)
  | .ConstraintOrigin constraint origin =>
    return .ConstraintOrigin (← fold constraint) (← fold origin)
  | .Function argument result => return .Function (← fold argument) (← fold result)
  | .Kinded inner kind => return .Kinded (← fold inner) (← fold kind)
  | .Row row => do
    let (fields, tail) ← flattenRow fuel row
    let fields ← fields.mapM fun field => do return { field with type := ← fold field.type }
    let tail ← tail.mapM fold
    if fields = row.fields ∧ tail = row.tail then return .Row row else return internRow fields tail
  | .Rigid name depth kind => return .Rigid name depth (← fold kind)
  | id => return id

/-- One round of the loop in `fold_type` with `RecursivelyNormalise`. -/
def recursivelyNormaliseTurn (fuel : ℕ) (id : Ty) : CheckM (Turn Ty Ty) := do
  let expanded ← expand context fuel id
  if expanded = id then return .leave id
  let thenId ← normalise fuel expanded
  return if thenId = id then .leave id else .again thenId

/-- `fold_type` with `RecursivelyNormalise` -/
def foldRecursivelyNormalise : ℕ → Ty → CheckM Ty
  | 0, _ => throw .fuel
  | fuel + 1, id => do
    let id ← normalise fuel id
    let id ← loop .fuel (recursivelyNormaliseTurn context fuel) fuel id
    foldChildren (foldRecursivelyNormalise fuel) fuel id

def recursivelyNormalise (fuel : ℕ) (id : Ty) : CheckM Ty :=
  loop .fuel (fun id => do
    let next ← foldRecursivelyNormalise context fuel id
    return if next = id then .leave id else .again next) fuel id

def extractRow (fuel : ℕ) (id : Ty) : CheckM RowView := do
  return .ofType (← recursivelyNormalise context fuel id)

/-! ## Kinds of rows -/

/-- The kind of the fields, if the argument has the kind of a row. -/
def rowElementKind (fuel : ℕ) (argument : Ty) : CheckM (Option Ty) := do
  match ← expand context fuel (← kindOf context fuel argument) with
  | .Application rowConstructor rowElementKind =>
    if (← expand context fuel rowConstructor) = .Constructor context.primRow then
      return some rowElementKind
    else return none
  | _ => return none

/-- `infer_prim_row_element_kind` -/
def inferPrimRowElementKind (fuel : ℕ) : List Ty → CheckM Ty
  | [] => freshUnification context.type
  | argument :: arguments => do
    match ← rowElementKind context fuel argument with
    | some kind => return kind
    | none => inferPrimRowElementKind fuel arguments

def makePrimRowConstraint (fuel : ℕ) (item : TypeItem) (arguments : List Ty) : CheckM Ty := do
  let kind ← inferPrimRowElementKind context fuel arguments
  return arguments.foldl .Application (.KindApplication (.Constructor item) kind)

/-! ## Unions -/

/-- The fields that the right row still needs, by label, and the fields that were shared out. -/
structure Partition where
  demand : Label → ℕ
  left : List RowField
  right : List RowField

/-- The loop over the output, from its end. -/
def Partition.share (self : Partition) (field : RowField) : Partition :=
  if self.demand field.label > 0 then
    { self with
      demand := Function.update self.demand field.label (self.demand field.label - 1)
      right := self.right ++ [field] }
  else { self with left := self.left ++ [field] }

/-- `right_labels` -/
def rightLabels (right : List RowField) : Label → ℕ :=
  right.foldl (fun labels field => Function.update labels field.label (labels field.label + 1))
    fun _ => 0

def partitionUnionOutput (output right : List RowField) : Option (List RowField × List RowField) :=
  let parts := output.reverse.foldl Partition.share ⟨rightLabels right, [], []⟩
  if right.any fun field => parts.demand field.label > 0 then none
  else some (parts.left.reverse, parts.right.reverse)

variable (unionClass : TypeItem)

/-- The rule for a left row with fields and a tail: the fields are moved into the union, and what is
left is a union with the tail. -/
def matchOpenUnion (fuel : ℕ) (left right union : Ty) (leftFields : List RowField) (tail : Ty) :
    CheckM MatchInstance := do
  let kind ← inferPrimRowElementKind context fuel [left, right, union]
  let fresh ← freshUnification (context.rowKind kind)
  let constraint ← makePrimRowConstraint context fuel unionClass [tail, right, fresh]
  let constraint ← canonicalise context fuel constraint
  return .Match [(union, internRow leftFields (some fresh))] constraint.toList

/-- The cases of `match_union`. -/
def unionCases (fuel : ℕ) (left right union : Ty) :
    RowView → RowView → RowView → CheckM MatchInstance
  | .Closed leftFields, rightRow, _ =>
    return .fromUnifications [(union, internRow (leftFields ++ rightRow.fields) rightRow.tail)]
  | .EmptyOpen _, .Closed rightFields, .Closed unionFields
  | .Open _ _, .Closed rightFields, .Closed unionFields =>
    match partitionUnionOutput unionFields rightFields with
    | none => return .Apart
    | some (leftFields, rightFields) =>
      return .fromUnifications
        [(left, internRow leftFields none), (right, internRow rightFields none)]
  | .Open leftFields tail, _, _ =>
    matchOpenUnion context unionClass fuel left right union leftFields tail
  | .EmptyOpen _, _, _ => blockingConstraint fuel [left, right, union]

def matchUnion (fuel : ℕ) (left right union : Ty) : CheckM MatchInstance := do
  let leftRow ← extractRow context fuel left
  let rightRow ← extractRow context fuel right
  let unionRow ← extractRow context fuel union
  unionCases context unionClass fuel left right union leftRow rightRow unionRow

end Source

/-! ## Sharing out the output -/

section Partition

lemma keyed_reverse (label : Label) (fields : List RowField) :
    keyed RowField.label label fields.reverse = (keyed RowField.label label fields).reverse :=
  List.filter_reverse

lemma foldl_labels (right : List RowField) (labels : Label → ℕ) (label : Label) :
    right.foldl (fun labels field =>
      Function.update labels field.label (labels field.label + 1)) labels label =
        labels label + (keyed RowField.label label right).length := by
  induction right generalizing labels with
  | nil => rfl
  | cons field right ih =>
    rw [List.foldl_cons, ih]
    by_cases hsame : field.label = label
    · rw [keyed_cons_of_eq hsame, ← hsame, Function.update_self, List.length_cons]
      omega
    · rw [keyed_cons_of_ne hsame, Function.update_of_ne (Ne.symm hsame)]

lemma rightLabels_eq (right : List RowField) (label : Label) :
    rightLabels right label = (keyed RowField.label label right).length := by
  rw [rightLabels, foldl_labels, Nat.zero_add]

/-- **Of each label the right row gets the first fields that are met, as many as it needs.** -/
theorem share_labelled (fields : List RowField) (parts : Partition) (label : Label) :
    keyed RowField.label label (fields.foldl Partition.share parts).right =
        keyed RowField.label label parts.right ++ (keyed RowField.label label fields).take
          (parts.demand label) ∧
      keyed RowField.label label (fields.foldl Partition.share parts).left =
        keyed RowField.label label parts.left ++ (keyed RowField.label label fields).drop
          (parts.demand label) ∧
      (fields.foldl Partition.share parts).demand label =
        parts.demand label - (keyed RowField.label label fields).length := by
  induction fields generalizing parts with
  | nil => simp
  | cons field fields ih =>
    rw [List.foldl_cons]
    obtain ⟨hright, hleft, hdemand⟩ := ih (parts.share field)
    rw [hright, hleft, hdemand]
    unfold Partition.share
    by_cases hsame : field.label = label
    · split_ifs with hneeded
      · obtain ⟨less, henough⟩ : ∃ less, parts.demand label = less + 1 :=
          ⟨parts.demand label - 1, by rw [hsame] at hneeded; omega⟩
        simp [hsame, henough, keyed_cons_of_eq hsame]
      · have hnone : parts.demand label = 0 := by rw [← hsame]; omega
        simp [hnone, keyed_cons_of_eq hsame]
    · split_ifs
      · simp [keyed_cons_of_ne hsame, Function.update_of_ne (Ne.symm hsame)]
      · simp [keyed_cons_of_ne hsame]

/-- Both parts keep the order in which the fields are met. -/
lemma share_sublist (fields : List RowField) (parts : Partition) :
    ∃ left right, left.Sublist fields ∧ right.Sublist fields ∧
      (fields.foldl Partition.share parts).left = parts.left ++ left ∧
      (fields.foldl Partition.share parts).right = parts.right ++ right := by
  induction fields generalizing parts with
  | nil => exact ⟨[], [], .slnil, .slnil, by simp, by simp⟩
  | cons field fields ih =>
    obtain ⟨left, right, hleft, hright, heqLeft, heqRight⟩ := ih (parts.share field)
    rw [List.foldl_cons, heqLeft, heqRight]
    unfold Partition.share
    split_ifs
    · exact ⟨left, field :: right, hleft.cons _, hright.cons_cons _, rfl, by simp⟩
    · exact ⟨field :: left, right, hleft.cons_cons _, hright.cons _, by simp, rfl⟩

/-- **The output cannot be shared out** exactly when it has too few fields of some label. -/
lemma partitionUnionOutput_eq_none {output right : List RowField} :
    partitionUnionOutput output right = none ↔
      ∃ label,
        (keyed RowField.label label output).length < (keyed RowField.label label right).length := by
  unfold partitionUnionOutput
  simp only [ite_eq_left_iff, reduceCtorEq, imp_false, not_not, List.any_eq_true,
    decide_eq_true_eq, (share_labelled _ _ _).2.2, rightLabels_eq, keyed_reverse,
    List.length_reverse]
  constructor
  · rintro ⟨field, -, hlacking⟩
    exact ⟨field.label, by omega⟩
  · rintro ⟨label, hlacking⟩
    obtain ⟨field, hfound⟩ := List.exists_mem_of_length_pos (Nat.zero_lt_of_lt hlacking)
    obtain ⟨hmem, hsame⟩ := List.mem_filter.mp hfound
    obtain rfl : field.label = label := by simpa using hsame
    exact ⟨field, hmem, by omega⟩

/-- **Sharing out undoes the union**: from the sorted fields of two rows the rows come back. -/
theorem partitionUnionOutput_union {left right : List RowField} (hsorted : SortedFields left)
    (hsorted' : SortedFields right) :
    partitionUnionOutput (sortFields (left ++ right)) right = some (left, right) := by
  have houtput (label : Label) : keyed RowField.label label (sortFields (left ++ right)).reverse =
      (keyed RowField.label label right).reverse ++ (keyed RowField.label label left).reverse := by
    rw [keyed_reverse, keyed_sortFields, keyed_append, List.reverse_append]
  have henough : partitionUnionOutput (sortFields (left ++ right)) right ≠ none := by
    rw [Ne, partitionUnionOutput_eq_none]
    rintro ⟨label, hlacking⟩
    rw [keyed_sortFields, keyed_append, List.length_append] at hlacking
    omega
  obtain ⟨parts, hsame⟩ := Option.ne_none_iff_exists'.mp henough
  rw [hsame]
  simp only [partitionUnionOutput] at hsame
  split at hsame
  case isTrue => cases hsame
  obtain ⟨ls, rs, hls, hrs, heqLeft, heqRight⟩ := share_sublist
    (sortFields (left ++ right)).reverse ⟨rightLabels right, [], []⟩
  have hlabels (label : Label) := share_labelled
    (sortFields (left ++ right)).reverse ⟨rightLabels right, [], []⟩ label
  simp only [heqLeft, heqRight, houtput, rightLabels_eq, List.nil_append] at hlabels
  have hordered {part : List RowField} (h : part.Sublist (sortFields (left ++ right)).reverse) :
      SortedFields part.reverse :=
    (sortedFields_sort (left ++ right)).sublist (by simpa using h.reverse)
  have hisLeft : ls.reverse = left := (hordered hls).ext hsorted fun label => by
    rw [keyed_reverse, (hlabels label).2.1]
    simp
  have hisRight : rs.reverse = right := (hordered hrs).ext hsorted' fun label => by
    rw [keyed_reverse, (hlabels label).1]
    simp
  rw [← Option.some_injective _ hsame, heqLeft, heqRight, List.nil_append, List.nil_append, hisLeft,
    hisRight]

end Partition

end Iris.Checking
