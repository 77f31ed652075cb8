import IrisCompiler.Checking.Instantiation
import IrisCompiler.Checking.Normalise
import Mathlib.Algebra.Order.BigOperators.Group.List
import Mathlib.Algebra.Order.Group.Nat

/-!
# Improvements from given constraints

`collect_structural_improvements` walks two types that a given constraint makes equal and collects
what this says about their rigid variables (`core/constraint/elaborate/improvements.rs`).

Where one of two open rows has further fields, the other's tail is made of them and of the first
row's tail.  The source takes the wrong side: the tail of the row *with* the further fields is
assigned to them.
-/

namespace Iris.Checking

open MergeJoin TotalRun List

/-- The pairs that were looked at and the assignments found so far. -/
structure Collected where
  seen : List (Ty × Ty)
  improvements : List (Name × Ty)

namespace RowType

variable (left right : RowType)

/-- The fields of the left row that the right one lacks. -/
def leftOnly : List RowField := lefts RowField.label left.fields right.fields

/-- The fields of the right row that the left one lacks. -/
def rightOnly : List RowField := rights RowField.label left.fields right.fields

/-- The fields of both rows. -/
def shared : List (RowField × RowField) := boths RowField.label left.fields right.fields

/-- The types of the fields of both rows. -/
def sharedTypes : List (Ty × Ty) := (left.shared right).map fun pair => (pair.1.type, pair.2.type)

end RowType

/-! ## The source's functions -/

def collectRowImprovements (collect : Ty → Ty → Collected → CheckM Collected)
    (left right : RowType) (collected : Collected) : CheckM Collected := do
  let collected ← (mergeJoinBy RowField.label left.fields right.fields).foldlM
    (fun collected field => match field with
      | .Both left right => collect left.type right.type collected
      | .Left _ | .Right _ => return collected) collected
  let leftOnly := left.leftOnly right
  let rightOnly := left.rightOnly right
  match left.tail, right.tail with
  | some leftTail, some rightTail =>
    if leftOnly.isEmpty ∧ rightOnly.isEmpty then collect leftTail rightTail collected
    else if rightOnly.isEmpty then collect leftTail (internRow leftOnly (some rightTail)) collected
    else if leftOnly.isEmpty then collect (internRow rightOnly (some leftTail)) rightTail collected
    else return collected
  | some leftTail, none =>
    if rightOnly.isEmpty then collect leftTail (internRow leftOnly none) collected
    else return collected
  | none, some rightTail =>
    if leftOnly.isEmpty then collect (internRow rightOnly none) rightTail collected
    else return collected
  | none, none => return collected

variable (context : CheckContext)

def collectStructuralImprovements : ℕ → Ty → Ty → Collected → CheckM Collected
  | 0, _, _, _ => throw .fuel
  | fuel + 1, left, right, collected => do
    let left ← expand context fuel left
    let right ← expand context fuel right
    if left = right then return collected
    if (left, right) ∈ collected.seen then return collected
    let collected := { collected with seen := (left, right) :: collected.seen }
    let collect := collectStructuralImprovements fuel
    match left, right with
    | .Rigid name _ _, right =>
      return { collected with improvements := collected.improvements ++ [(name, right)] }
    | left, .Rigid name _ _ =>
      return { collected with improvements := collected.improvements ++ [(name, left)] }
    | .Application leftFunction leftArgument, .Application rightFunction rightArgument =>
      let collected ← collect leftFunction rightFunction collected
      collect leftArgument rightArgument collected
    | .KindApplication leftFunction leftArgument, .KindApplication rightFunction rightArgument =>
      let collected ← collect leftFunction rightFunction collected
      collect leftArgument rightArgument collected
    | .Function leftArgument leftResult, .Function rightArgument rightResult =>
      let collected ← collect leftArgument rightArgument collected
      collect leftResult rightResult collected
    | .Function leftArgument leftResult, .Application function argument =>
      collect (context.functionApplication leftArgument leftResult) (.Application function argument)
        collected
    | .Application function argument, .Function rightArgument rightResult =>
      collect (.Application function argument)
        (context.functionApplication rightArgument rightResult)
        collected
    | .Kinded leftInner leftKind, .Kinded rightInner rightKind =>
      let collected ← collect leftInner rightInner collected
      collect leftKind rightKind collected
    | .Row leftRow, .Row rightRow => collectRowImprovements collect leftRow rightRow collected
    | _, _ => return collected

/-! ## The pairs of a walk -/

/-- The tails that the walk goes on with. -/
def tailPairs (left right : RowType) : List (Ty × Ty) :=
  match left.tail, right.tail with
  | some leftTail, some rightTail =>
    if left.leftOnly right = [] ∧ left.rightOnly right = [] then [(leftTail, rightTail)]
    else if left.rightOnly right = [] then
      [(leftTail, internRow (left.leftOnly right) (some rightTail))]
    else if left.leftOnly right = [] then
      [(internRow (left.rightOnly right) (some leftTail), rightTail)]
    else []
  | some leftTail, none =>
    if left.rightOnly right = [] then [(leftTail, internRow (left.leftOnly right) none)] else []
  | none, some rightTail =>
    if left.leftOnly right = [] then [(internRow (left.rightOnly right) none, rightTail)] else []
  | none, none => []

/-- The pairs that the walk goes on with, in order. -/
def childPairs : Ty → Ty → List (Ty × Ty)
  | .Rigid _ _ _, _ => []
  | _, .Rigid _ _ _ => []
  | .Application f x, .Application g y => [(f, g), (x, y)]
  | .KindApplication f x, .KindApplication g y => [(f, g), (x, y)]
  | .Function x a, .Function y b => [(x, y), (a, b)]
  | .Function x a, .Application g y => [(context.functionApplication x a, .Application g y)]
  | .Application f x, .Function y b => [(.Application f x, context.functionApplication y b)]
  | .Kinded a k, .Kinded b l => [(a, b), (k, l)]
  | .Row left, .Row right => left.sharedTypes right ++ tailPairs left right
  | _, _ => []

/-- **A tail is compared with what the other row has beyond the fields of both.** -/
lemma mem_tailPairs {left right : RowType} {pair : Ty × Ty} (h : pair ∈ tailPairs left right) :
    (∃ tail, left.tail = some tail ∧ left.rightOnly right = [] ∧
      pair = (tail, internRow (left.leftOnly right) right.tail)) ∨
    ∃ tail, right.tail = some tail ∧ left.leftOnly right = [] ∧
      pair = (internRow (left.rightOnly right) left.tail, tail) := by
  unfold tailPairs at h
  have hempty (tail : Ty) : internRow [] (some tail) = tail := rfl
  split at h
  case h_4 => cases h
  all_goals split_ifs at h <;> simp_all

/-- What the pair itself says about a rigid variable. -/
def assigned : Ty → Ty → List (Name × Ty)
  | .Rigid name _ _, right => [(name, right)]
  | left, .Rigid name _ _ => [(name, left)]
  | _, _ => []

/-! ## Types without variables to look through -/

/-- The node is no unification variable and no synonym, and a row's tail is a rigid variable. -/
def Ty.isPlainNode : Ty → Bool
  | .Unification _ | .Synonym _ | .ConstraintOrigin _ _ => false
  | .Row row => decide (SortedFields row.fields) && row.tail.all Ty.isRigid
  | _ => true

/-- Every node of the type is plain. -/
def Ty.Plain (t : Ty) : Prop := t.any (fun node => !node.isPlainNode) = false

instance (t : Ty) : Decidable t.Plain := inferInstanceAs (Decidable (_ = false))

section Plain

variable {context : CheckContext} {t l r : Ty}

lemma Ty.plain_iff : t.Plain ↔ t.isPlainNode = true ∧ ∀ c ∈ t.children, c.Plain := by
  rw [Plain, Ty.any_eq]
  simp [Plain]

lemma Ty.Plain.mayExpand (h : t.Plain) : t.mayExpand = false := by
  induction t using Ty.childInduction with
  | step t ih =>
    obtain ⟨hnode, hchildren⟩ := Ty.plain_iff.mp h
    cases t with
    | Application f | KindApplication f => exact ih f (.head _) (hchildren f (.head _))
    | ConstraintOrigin | Synonym | Unification => cases hnode
    | Row row =>
      have hrigid : row.tail.all Ty.isRigid = true := (Bool.and_eq_true _ _ ▸ hnode).2
      clear ih hnode h hchildren
      induction row with
      | Closed => rfl
      | Opened label type tail =>
        cases tail with
        | Rigid => rfl
        | _ => cases hrigid
      | Field label type rest hinner => exact hinner hrigid
    | _ => rfl

lemma expand_plain (h : t.Plain) (fuel : ℕ) : expand context fuel t = pure t := by
  rw [expand, h.mayExpand]
  rfl

end Plain

section Walk

variable {context : CheckContext} {l r : Ty} {fuel : ℕ} {collected : Collected}

lemma foldlM_both {γ : Type} {f : γ → RowField → RowField → CheckM γ} {c : γ}
    (list : List (EitherOrBoth RowField RowField)) :
    list.foldlM (fun c field => match field with
      | .Both left right => f c left right
      | .Left _ | .Right _ => return c) c =
    (list.filterMap EitherOrBoth.both?).foldlM (fun c pair => f c pair.1 pair.2) c := by
  induction list generalizing c with
  | nil => rfl
  | cons field list ih =>
    cases field with
    | Both left right => exact bind_congr fun c => ih
    | Left | Right => exact (pure_bind _ _).trans ih

lemma collectRow_eq (collect : Ty → Ty → Collected → CheckM Collected) (left right : RowType) :
    collectRowImprovements collect left right collected =
      (left.sharedTypes right ++ tailPairs left right).foldlM
        (fun c pair => collect pair.1 pair.2 c) collected := by
  rw [foldlM_append, RowType.sharedTypes, foldlM_map, collectRowImprovements, foldlM_both]
  refine bind_congr fun c => ?_
  cases hleftTail : left.tail <;> cases hrightTail : right.tail <;>
    simp only [tailPairs, hleftTail, hrightTail, List.isEmpty_iff]
  · rfl
  · split <;> simp
  · split <;> simp
  · split
    · simp
    · split
      · simp
      · split <;> simp

/-- **One turn of the walk.** -/
lemma collect_succ (hplain : l.Plain) (hplain' : r.Plain) :
    collectStructuralImprovements context (fuel + 1) l r collected =
      if l = r ∨ (l, r) ∈ collected.seen then pure collected
      else (childPairs context l r).foldlM
        (fun c pair => collectStructuralImprovements context fuel pair.1 pair.2 c)
        ⟨(l, r) :: collected.seen, collected.improvements ++ assigned l r⟩ := by
  rw [collectStructuralImprovements, expand_plain hplain, expand_plain hplain',
    pure_bind, pure_bind]
  by_cases hsame : l = r
  · simp [hsame]
  by_cases hold : (l, r) ∈ collected.seen
  · simp [hold]
  rw [if_neg hsame, if_neg hold, if_neg (not_or.mpr ⟨hsame, hold⟩)]
  fun_cases childPairs context l r
  case case9 => simpa [assigned] using collectRow_eq _ _ _
  all_goals simp [assigned]

end Walk

/-! ## The walk ends -/

mutual

/-- A bound for the walk: a function weighs more than the application it stands for. -/
def Ty.weight : Ty → ℕ
  | .Application f x => f.weight + x.weight + 1
  | .KindApplication f x => f.weight + x.weight + 1
  | .Function x a => x.weight + a.weight + 4
  | .Kinded a k => a.weight + k.weight + 1
  | .Row row => row.weight + 1
  | _ => 1

def RowType.weight : RowType → ℕ
  | .Closed => 0
  | .Opened _ type tail => type.weight + 1 + tail.weight
  | .Field _ type rest => type.weight + 1 + rest.weight

end

def fieldsWeight (fields : List RowField) : ℕ := (fields.map fun field => field.type.weight + 1).sum

def tailWeight (tail : Option Ty) : ℕ := tail.elim 0 Ty.weight

section Weight

variable {context : CheckContext} {left right : RowType} {l r : Ty}

lemma RowType.weight_eq (row : RowType) :
    row.weight = fieldsWeight row.fields + tailWeight row.tail := by
  induction row with
  | Closed => rfl
  | Opened => simp [RowType.weight, RowType.fields, RowType.tail, fieldsWeight, tailWeight]
  | Field label type rest ih =>
    simp only [RowType.weight, ih, RowType.fields, RowType.tail, fieldsWeight, map_cons,
      sum_cons]
    omega

variable {fields other : List RowField} {pair : Ty × Ty}

lemma fieldsWeight_perm (h : fields.Perm other) :
    fieldsWeight fields = fieldsWeight other := (h.map _).sum_eq

lemma weight_internRow_le (fields : List RowField) (tail : Option Ty) :
    (internRow fields tail).weight ≤ fieldsWeight fields + tailWeight tail + 1 := by
  rcases internRow_cases fields tail with ⟨_, hsame⟩ | ⟨row, hsame, hperm, hrowTail⟩
  · have : tailWeight tail = (internRow fields tail).weight := by
      nth_rewrite 1 [hsame]
      rfl
    omega
  · rw [hsame, Ty.weight, RowType.weight_eq, fieldsWeight_perm hperm, hrowTail]

lemma weight_le_of_mem {field : RowField} (h : field ∈ fields) :
    field.type.weight + 1 ≤ fieldsWeight fields :=
  single_le_sum (fun _ _ => Nat.zero_le _) _ (mem_map_of_mem h)

lemma fieldsWeight_sublist (h : fields.Sublist other) : fieldsWeight fields ≤ fieldsWeight other :=
  (h.map _).sum_le_sum fun _ _ => Nat.zero_le _

lemma weight_functionApplication (x a : Ty) :
    (context.functionApplication x a).weight = x.weight + a.weight + 3 := by
  simp only [CheckContext.functionApplication, Ty.weight]
  omega

lemma tailPairs_weight (h : pair ∈ tailPairs left right) :
    pair.1.weight + pair.2.weight < left.weight + 1 + (right.weight + 1) := by
  have hleftOnly : fieldsWeight (left.leftOnly right) ≤ _ := fieldsWeight_sublist lefts_sublist
  have hrightOnly : fieldsWeight (left.rightOnly right) ≤ _ := fieldsWeight_sublist rights_sublist
  rw [RowType.weight_eq, RowType.weight_eq]
  obtain ⟨tail, heq, _, rfl⟩ | ⟨tail, heq, _, rfl⟩ := mem_tailPairs h
  · have := weight_internRow_le (left.leftOnly right) right.tail
    have : tailWeight left.tail = tail.weight := by rw [heq]; rfl
    dsimp only
    omega
  · have := weight_internRow_le (left.rightOnly right) left.tail
    have : tailWeight right.tail = tail.weight := by rw [heq]; rfl
    dsimp only
    omega

/-- **The walk goes on with smaller pairs.** -/
lemma childPairs_weight (h : pair ∈ childPairs context l r) :
    pair.1.weight + pair.2.weight < l.weight + r.weight := by
  revert h
  fun_cases childPairs context l r
  case case9 left right =>
    rw [mem_append]
    rintro (hmem | hmem)
    · obtain ⟨fields, hboth, rfl⟩ := mem_map.mp hmem
      obtain ⟨hinLeft, hinRight, _⟩ := mem_boths hboth
      have := weight_le_of_mem hinLeft
      have := weight_le_of_mem hinRight
      rw [Ty.weight, Ty.weight, RowType.weight_eq, RowType.weight_eq]
      dsimp only
      omega
    · exact tailPairs_weight hmem
  all_goals
    intro h
    simp only [mem_cons, not_mem_nil, or_false] at h
  all_goals
    rcases h with rfl | rfl <;> simp only [Ty.weight, weight_functionApplication] <;> omega

end Weight

section ChildPlain

variable {context : CheckContext} {left right : RowType} {l r x a : Ty}

lemma plain_of_mem_fields (h : (Ty.Row left).Plain) {field : RowField}
    (hmem : field ∈ left.fields) :
    field.type.Plain :=
  (Ty.plain_iff.mp h).2 _ (field_mem_row hmem)

lemma plain_of_tail (h : (Ty.Row left).Plain) {tail : Ty} (hmem : left.tail = some tail) :
    tail.Plain ∧ tail.isRigid = true := by
  obtain ⟨hnode, hchildren⟩ := Ty.plain_iff.mp h
  refine ⟨hchildren _ (tail_mem_row hmem), ?_⟩
  have hrigid : left.tail.all Ty.isRigid = true := (Bool.and_eq_true _ _ ▸ hnode).2
  simpa [hmem] using hrigid

lemma sorted_of_plain (h : (Ty.Row left).Plain) : SortedFields left.fields :=
  of_decide_eq_true (Bool.and_eq_true _ _ ▸ (Ty.plain_iff.mp h).1).1

lemma plain_internRow {fields : List RowField} {tail : Option Ty}
    (hplain : ∀ field ∈ fields, field.type.Plain)
    (htailPlain : ∀ t, tail = some t → t.Plain ∧ t.isRigid = true) :
    (internRow fields tail).Plain := by
  by_cases hempty : fields = [] ∧ tail ≠ none
  · obtain ⟨rfl, hsome⟩ := hempty
    obtain ⟨t, rfl⟩ := Option.ne_none_iff_exists'.mp hsome
    exact (htailPlain t rfl).1
  · obtain ⟨row, heq, hrowFields, hrowTail⟩ := @internRow_eq_row fields tail (by tauto)
    rw [heq, Ty.plain_iff]
    constructor
    · have hsorted : SortedFields row.fields := hrowFields ▸ sortedFields_sort fields
      rw [Ty.isPlainNode, hrowTail, decide_eq_true hsorted, Bool.true_and, Option.all_eq_true]
      exact fun t h => (htailPlain t h).2
    · refine forall_mem_row (fun field hmem => hplain field ?_)
        (hrowTail ▸ fun t h => (htailPlain t h).1)
      rwa [hrowFields, mem_insertionSort] at hmem

lemma plain_functionApplication (hplain : x.Plain) (hplain' : a.Plain) :
    (context.functionApplication x a).Plain := by
  have hconstructor' : (Ty.Constructor context.primFunction).Plain := rfl
  have happlication {f y : Ty} (hf : f.Plain) (hy : y.Plain) : (Ty.Application f y).Plain :=
    Ty.plain_iff.mpr ⟨rfl, by simp [Ty.children, hf, hy]⟩
  exact happlication (happlication hconstructor' hplain) hplain'

variable {pair : Ty × Ty}

lemma tailPairs_plain (hplain : (Ty.Row left).Plain) (hplain' : (Ty.Row right).Plain)
    (h : pair ∈ tailPairs left right) : pair.1.Plain ∧ pair.2.Plain := by
  obtain ⟨tail, heq, _, rfl⟩ | ⟨tail, heq, _, rfl⟩ := mem_tailPairs h
  · refine ⟨(plain_of_tail hplain heq).1, plain_internRow ?_ fun _ => plain_of_tail hplain'⟩
    exact fun field hmem => plain_of_mem_fields hplain (lefts_sublist.subset hmem)
  · refine ⟨plain_internRow ?_ fun _ => plain_of_tail hplain, (plain_of_tail hplain' heq).1⟩
    exact fun field hmem => plain_of_mem_fields hplain' (rights_sublist.subset hmem)

/-- **The walk stays within plain types.** -/
lemma childPairs_plain (hplain : l.Plain) (hplain' : r.Plain) (h : pair ∈ childPairs context l r) :
    pair.1.Plain ∧ pair.2.Plain := by
  revert h
  have hchildren := (Ty.plain_iff.mp hplain).2
  have hchildren' := (Ty.plain_iff.mp hplain').2
  fun_cases childPairs context l r
  case case9 left right =>
    rw [List.mem_append]
    rintro (hmem | hmem)
    · obtain ⟨fields, hboth, rfl⟩ := List.mem_map.mp hmem
      obtain ⟨hinLeft, hinRight, _⟩ := mem_boths hboth
      exact ⟨plain_of_mem_fields hplain hinLeft, plain_of_mem_fields hplain' hinRight⟩
    · exact tailPairs_plain hplain hplain' hmem
  all_goals
    intro h
    simp only [List.mem_cons, List.not_mem_nil, or_false, Ty.children, forall_eq_or_imp, forall_eq]
      at h hchildren hchildren'
  all_goals
    rcases h with rfl | rfl <;> simp_all [plain_functionApplication]

end ChildPlain

/-! ## What a walk collects -/

/-- The pair says this about a rigid variable, itself or through a pair that it leads to. -/
inductive Assigns : Ty → Ty → Name × Ty → Prop
  | here {l r : Ty} {x : Name × Ty} (hne : l ≠ r) (hmem : x ∈ assigned l r) : Assigns l r x
  | child {l r : Ty} {pair : Ty × Ty} {x : Name × Ty} (hne : l ≠ r)
      (hmem : pair ∈ childPairs context l r) (hinner : Assigns pair.1 pair.2 x) : Assigns l r x

/-- The pairs were walked: all that they say was collected and nothing else. -/
structure Walked (pairs : List (Ty × Ty)) (before after : Collected) : Prop where
  kept : ∀ x ∈ before.improvements, x ∈ after.improvements
  sound : ∀ x ∈ after.improvements,
    x ∈ before.improvements ∨ ∃ pair ∈ pairs, Assigns context pair.1 pair.2 x
  complete : ∀ pair ∈ pairs, ∀ x, Assigns context pair.1 pair.2 x → x ∈ after.improvements
  seen : ∀ old ∈ after.seen, old ∈ before.seen ∨
    ∃ pair ∈ pairs, old.1.weight + old.2.weight ≤ pair.1.weight + pair.2.weight

/-- All that the pairs below a weight say was collected; the pairs above are being walked. -/
def SettledBelow (bound : ℕ) (collected : Collected) : Prop :=
  ∀ old ∈ collected.seen, old.1.weight + old.2.weight < bound →
    ∀ x, Assigns context old.1 old.2 x → x ∈ collected.improvements

section Collect

variable {context : CheckContext} {l r : Ty} {fuel bound : ℕ} {before middle after : Collected}

lemma Walked.refl : Walked context [] before before :=
  ⟨fun _ => id, fun _ => .inl, nofun, fun _ => .inl⟩

variable {pairs : List (Ty × Ty)}

lemma Walked.trans {others : List (Ty × Ty)} (h : Walked context pairs before middle)
    (h' : Walked context others middle after) : Walked context (pairs ++ others) before after where
  kept x hmem := h'.kept x (h.kept x hmem)
  sound x hmem := by
    obtain hmem | ⟨pair, hmem, hinner⟩ := h'.sound x hmem
    · obtain hmem | ⟨pair, hmem, hinner⟩ := h.sound x hmem
      · exact .inl hmem
      · exact .inr ⟨pair, mem_append_left _ hmem, hinner⟩
    · exact .inr ⟨pair, mem_append_right _ hmem, hinner⟩
  complete pair hmem x hinner := by
    obtain hmem | hmem := mem_append.mp hmem
    · exact h'.kept x (h.complete pair hmem x hinner)
    · exact h'.complete pair hmem x hinner
  seen old hmem := by
    obtain hmem | ⟨pair, hmem, hle⟩ := h'.seen old hmem
    · obtain hmem | ⟨pair, hmem, hle⟩ := h.seen old hmem
      · exact .inl hmem
      · exact .inr ⟨pair, mem_append_left _ hmem, hle⟩
    · exact .inr ⟨pair, mem_append_right _ hmem, hle⟩

lemma walk_children (hwalk : ∀ pair ∈ pairs, ∀ before, SettledBelow context bound before →
      ∃ after, collectStructuralImprovements context fuel pair.1 pair.2 before = pure after ∧
        Walked context [pair] before after ∧ SettledBelow context bound after)
    (hsettled : SettledBelow context bound before) :
    ∃ after, pairs.foldlM
        (fun c pair => collectStructuralImprovements context fuel pair.1 pair.2 c) before =
          pure after ∧
      Walked context pairs before after ∧ SettledBelow context bound after := by
  induction pairs generalizing before with
  | nil => exact ⟨before, rfl, .refl, hsettled⟩
  | cons pair pairs ih =>
    obtain ⟨middle, hrun, hwalked, hsettled⟩ := hwalk pair (.head _) before hsettled
    obtain ⟨after, hrun', hwalked', hsettled'⟩ := ih (fun p hmem => hwalk p (.tail _ hmem)) hsettled
    refine ⟨after, ?_, hwalked.trans hwalked', hsettled'⟩
    rw [foldlM_cons, hrun, pure_bind, hrun']

/-- A pair that was not looked at before is walked by walking the pairs that it leads to. -/
lemma Walked.step (hne : l ≠ r) (hsettled : SettledBelow context bound before)
    (hwalked : Walked context (childPairs context l r)
      ⟨(l, r) :: before.seen, before.improvements ++ assigned l r⟩ after)
    (hinner : SettledBelow context (l.weight + r.weight) after) :
    Walked context [(l, r)] before after ∧ SettledBelow context bound after := by
  have hcomplete (x : Name × Ty) (h : Assigns context l r x) : x ∈ after.improvements := by
    cases h with
    | here _ hmem => exact hwalked.kept x (mem_append_right _ hmem)
    | child _ hmem hdeeper => exact hwalked.complete _ hmem x hdeeper
  have hseen (old : Ty × Ty) (hmem : old ∈ after.seen) :
      old ∈ before.seen ∨ old = (l, r) ∨ old.1.weight + old.2.weight < l.weight + r.weight := by
    obtain hmem | ⟨pair, hmem, hle⟩ := hwalked.seen old hmem
    · obtain rfl | hmem := mem_cons.mp hmem
      · exact .inr (.inl rfl)
      · exact .inl hmem
    · exact .inr (.inr (hle.trans_lt (childPairs_weight hmem)))
  have hkept (x : Name × Ty) (hmem : x ∈ before.improvements) : x ∈ after.improvements :=
    hwalked.kept x (mem_append_left _ hmem)
  refine ⟨⟨hkept, fun x hmem => ?_, ?_, fun old hmem => ?_⟩, fun old hmem hbelow x h => ?_⟩
  · obtain hmem | ⟨pair, hmem, hdeeper⟩ := hwalked.sound x hmem
    · obtain hmem | hmem := mem_append.mp hmem
      · exact .inl hmem
      · exact .inr ⟨(l, r), .head _, .here hne hmem⟩
    · exact .inr ⟨(l, r), .head _, .child hne hmem hdeeper⟩
  · rintro pair hmem x h
    obtain rfl := mem_singleton.mp hmem
    exact hcomplete x h
  · obtain hmem | rfl | hlt := hseen old hmem
    · exact .inl hmem
    · exact .inr ⟨_, .head _, le_rfl⟩
    · exact .inr ⟨(l, r), .head _, hlt.le⟩
  · obtain hmem | rfl | hlt := hseen old hmem
    · exact hkept x (hsettled old hmem hbelow x h)
    · exact hcomplete x h
    · exact hinner old ‹_› hlt x h

lemma not_assigns_self (x : Name × Ty) : ¬ Assigns context l l x := by
  rintro (⟨hne, _⟩ | ⟨hne, _, _⟩)
  · exact hne rfl
  · exact hne rfl

/-- **The walk ends and collects what the pair says.** -/
theorem collect_walks (hplain : l.Plain) (hplain' : r.Plain) (henough : l.weight + r.weight < fuel)
    (hbounded : l.weight + r.weight < bound) (hsettled : SettledBelow context bound before) :
    ∃ after, collectStructuralImprovements context fuel l r before = pure after ∧
      Walked context [(l, r)] before after ∧ SettledBelow context bound after := by
  induction fuel generalizing l r bound before with
  | zero => omega
  | succ fuel ih =>
    rw [collect_succ hplain hplain']
    split_ifs with hold
    · refine ⟨before, rfl, ⟨fun _ => id, fun _ => .inl, ?_, fun _ => .inl⟩, hsettled⟩
      intro pair hmem x h
      obtain rfl := mem_singleton.mp hmem
      obtain rfl | hold := hold
      · exact absurd h (not_assigns_self x)
      · exact hsettled _ hold hbounded x h
    · obtain ⟨hne, hnew⟩ := not_or.mp hold
      -- The pair itself is not settled while the pairs below it are walked.
      have hstart : SettledBelow context (l.weight + r.weight)
          ⟨(l, r) :: before.seen, before.improvements ++ assigned l r⟩ := by
        intro old hmem hbelow x h
        obtain rfl | hmem := mem_cons.mp hmem
        · exact absurd hbelow (lt_irrefl _)
        · exact mem_append_left _ (hsettled old hmem (hbelow.trans hbounded) x h)
      have hwalk (pair : Ty × Ty) (hmem : pair ∈ childPairs context l r) (before : Collected)
          (hsettled : SettledBelow context (l.weight + r.weight) before) :=
        have hlighter := childPairs_weight hmem
        have hkept := childPairs_plain hplain hplain' hmem
        ih hkept.1 hkept.2 (by omega) hlighter hsettled
      obtain ⟨after, hrun, hwalked, hinner⟩ := walk_children hwalk hstart
      exact ⟨after, hrun, Walked.step hne hsettled hwalked hinner⟩

/-- A walk from the start collects exactly what the pair says. -/
lemma collect_improvements (hplain : l.Plain) (hplain' : r.Plain)
    (henough : l.weight + r.weight < fuel) :
    ∃ after, collectStructuralImprovements context fuel l r ⟨[], []⟩ = pure after ∧
      ∀ x, x ∈ after.improvements ↔ Assigns context l r x := by
  obtain ⟨after, hrun, hwalked, _⟩ :=
    @collect_walks context l r fuel (l.weight + r.weight + 1) ⟨[], []⟩
    hplain hplain' henough (Nat.lt_succ_self _) (fun old hmem => by cases hmem)
  refine ⟨after, hrun, fun x => ⟨fun hmem => ?_, hwalked.complete (l, r) (.head _) x⟩⟩
  obtain hmem | ⟨pair, hmem, h⟩ := hwalked.sound x hmem
  · cases hmem
  · obtain rfl := mem_singleton.mp hmem
    exact h

end Collect

end Iris.Checking
