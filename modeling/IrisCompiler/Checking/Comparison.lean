import IrisCompiler.Checking.Compression
import IrisCompiler.Checking.Improvements

/-!
# Comparing types for instances

The three-valued comparison of types that instance matching and overlap checking share
(`core/constraint/matching.rs`): its results, the comparison of rows, and `types_apart`, by which
two instance heads are told apart.
-/

namespace Iris.Checking

open TotalRun MergeJoin

/-! ## Results -/

inductive MatchType where
  | Match (bindings : List (Name × Ty))
  | Apart
  | Stuck (stuck : List ℕ) (skolem : Bool)
  deriving DecidableEq

namespace MatchType

def combine : MatchType → MatchType → MatchType
  | Match left, Match right => Match (left ++ right)
  | Apart, _ | _, Apart => Apart
  | Stuck left leftSkolem, Stuck right rightSkolem =>
    Stuck (left ++ right) (leftSkolem || rightSkolem)
  | Stuck stuck skolem, _ | _, Stuck stuck skolem => Stuck stuck skolem

def isApart : MatchType → Bool
  | Apart => true
  | _ => false

/-- The other comparison is not made when this result is apart already. -/
def andThen (self : MatchType) (other : CheckM MatchType) : CheckM MatchType :=
  if self.isApart then return Apart else return self.combine (← other)

/-- Nothing to compare. -/
abbrev matched : MatchType := Match []

end MatchType

/-! ## Rows -/

/-- The types of the fields that both rows have are compared until one pair is apart. -/
def compareShared (compare : Ty → Ty → CheckM MatchType) :
    List (Ty × Ty) → MatchType → CheckM MatchType
  | [], rowResult => return rowResult
  | (left, right) :: rest, rowResult => do
    let rowResult := rowResult.combine (← compare left right)
    if rowResult.isApart then return .Apart
    compareShared compare rest rowResult

/-- `compare_row_tails_with`: two rows that are left over are the same only if both are empty. -/
def compareRowTailsWith (compare : Ty → Ty → CheckM MatchType) (leftFields : List RowField)
    (leftTail : Option Ty) (rightFields : List RowField) (rightTail : Option Ty) :
    CheckM MatchType :=
  match internRow leftFields leftTail, internRow rightFields rightTail with
  | .Row leftRow, .Row rightRow =>
    return if leftRow = .Closed ∧ rightRow = .Closed then .matched else .Apart
  | leftTail, rightTail => compare leftTail rightTail

def compareRowTypesWith (compare : Ty → Ty → CheckM MatchType) (left right : RowType) :
    CheckM MatchType := do
  let rowResult ← compareShared compare (left.sharedTypes right) .matched
  if rowResult.isApart then return .Apart
  let tailResult ← compareRowTailsWith compare (left.leftOnly right) left.tail
    (left.rightOnly right) right.tail
  return rowResult.combine tailResult

/-! ## Apartness -/

variable (context : CheckContext)

/-- The cases of `types_apart`, for types that are expanded. -/
def apartCases (apart : Ty → Ty → Bool → CheckM MatchType) (left right : Ty)
    (comparingKindArgument : Bool) : CheckM MatchType :=
  match left, right with
  | .Kinded left _, right => apart left right comparingKindArgument
  | left, .Kinded right _ => apart left right comparingKindArgument
  | .Rigid _ _ _, .Rigid _ _ _ | .Unification _, .Unification _ => return .matched
  | .Rigid _ _ _, _ | .Unification _, _ | _, .Rigid _ _ _ | _, .Unification _ =>
    return if comparingKindArgument then .Apart else .matched
  | .Constructor left, .Constructor right | .Constructor left, .Synonym right
  | .Synonym left, .Constructor right | .Synonym left, .Synonym right =>
    return if left ≠ right then .Apart else .matched
  | .String _ left, .String _ right => return if left ≠ right then .Apart else .matched
  | .Integer left, .Integer right => return if left ≠ right then .Apart else .matched
  | .Application leftFunction leftArgument, .Application rightFunction rightArgument => do
    (← apart leftFunction rightFunction false).andThen (apart leftArgument rightArgument false)
  | .Application leftFunction leftArgument, .Function rightArgument rightResult =>
    apart (.Application leftFunction leftArgument)
      (context.functionApplication rightArgument rightResult) comparingKindArgument
  | .Function leftArgument leftResult, .Application rightFunction rightArgument =>
    apart (context.functionApplication leftArgument leftResult)
      (.Application rightFunction rightArgument) comparingKindArgument
  | .KindApplication leftFunction leftArgument, .KindApplication rightFunction rightArgument => do
    (← apart leftFunction rightFunction false).andThen (apart leftArgument rightArgument true)
  | .Function leftArgument leftResult, .Function rightArgument rightResult => do
    (← apart leftArgument rightArgument false).andThen (apart leftResult rightResult false)
  | .Row left, .Row right => compareRowTypesWith (apart · · false) left right
  | _, _ => return .Apart

def typesApart : ℕ → Ty → Ty → Bool → CheckM MatchType
  | 0, _, _, _ => throw .fuel
  | fuel + 1, left, right, comparingKindArgument => do
    let left ← expand context fuel left
    let right ← expand context fuel right
    apartCases context (typesApart fuel) left right comparingKindArgument

/-! ## Comparisons answer the same in states that are the same -/

section Follows

variable {one : Ty → Ty → CheckM MatchType} {program : ℕ → Ty → Ty → CheckM MatchType}

lemma andThen_follows {one : CheckM MatchType} {program : ℕ → CheckM MatchType}
    (hfollows : Follows Same one program) (self : MatchType) :
    Follows Same (self.andThen one) fun fuel => self.andThen (program fuel) := by
  unfold MatchType.andThen
  split_ifs
  · exact follows_pure _
  · exact follows_bind hfollows fun _ => follows_pure _

lemma compareShared_follows
    (hfollows : ∀ left right, Follows Same (one left right) fun fuel => program fuel left right) :
    ∀ pairs rowResult, Follows Same (compareShared one pairs rowResult)
      fun fuel => compareShared (program fuel) pairs rowResult
  | [], _ => follows_pure _
  | (left, right) :: rest, rowResult => by
    refine follows_bind (hfollows left right) fun result => ?_
    dsimp only
    split_ifs
    · exact follows_pure _
    · exact compareShared_follows hfollows rest _

lemma compareRowTypesWith_follows
    (hfollows : ∀ left right, Follows Same (one left right) fun fuel => program fuel left right)
    (left right : RowType) : Follows Same (compareRowTypesWith one left right)
      fun fuel => compareRowTypesWith (program fuel) left right := by
  refine follows_bind (compareShared_follows hfollows _ _) fun rowResult => ?_
  split_ifs
  · exact follows_pure _
  refine follows_bind ?_ fun _ => follows_pure _
  unfold compareRowTailsWith
  generalize internRow (left.leftOnly right) left.tail = leftTail
  generalize internRow (left.rightOnly right) right.tail = rightTail
  cases leftTail with
  | Row =>
    cases rightTail with
    | Row => exact follows_pure _
    | _ => exact hfollows _ _
  | _ => exact hfollows _ _

lemma apartCases_follows {one : Ty → Ty → Bool → CheckM MatchType}
    {program : ℕ → Ty → Ty → Bool → CheckM MatchType}
    (hfollows : ∀ left right kind, Follows Same (one left right kind)
      fun fuel => program fuel left right kind) (left right : Ty) (kind : Bool) :
    Follows Same (apartCases context one left right kind)
      fun fuel => apartCases context (program fuel) left right kind := by
  have hpair (left right : Ty) (kind : Bool) (left' right' : Ty) (kind' : Bool) :
      Follows Same (one left right kind >>= fun result => result.andThen (one left' right' kind'))
        fun fuel => program fuel left right kind >>= fun result =>
          result.andThen (program fuel left' right' kind') :=
    follows_bind (hfollows left right kind) fun result => andThen_follows (hfollows _ _ _) result
  unfold apartCases
  split <;> first
    | exact follows_pure _
    | exact hfollows _ _ _
    | exact hpair _ _ _ _ _ _
    | exact compareRowTypesWith_follows (hfollows · · false) _ _

/-- **Apartness is answered the same in states that are the same.** -/
theorem typesApart_follows : ∀ fuel left right kind,
    Follows Same (typesApart context fuel left right kind)
      fun fuel => typesApart context fuel left right kind
  | 0, _, _, _ => .throw Fault.fuel
  | fuel + 1, left, right, kind => by
    refine .succ ?_
    refine follows_bind (expand_follows context fuel left) fun left => ?_
    refine follows_bind (expand_follows context fuel right) fun right => ?_
    exact apartCases_follows context (typesApart_follows fuel) left right kind

end Follows

/-! ## Comparisons of plain types return -/

/-- The comparison returns from every state. -/
def Returns (program : ℕ → CheckM MatchType) : Prop :=
  ∀ s, Settles program s fun _ _ => True

section Plain

variable {context} {left right : RowType}

namespace Returns

lemma pure (result : MatchType) : Returns fun _ => (return result : CheckM MatchType) :=
  fun _ => .pure trivial

lemma bind {program : ℕ → CheckM MatchType} {next : ℕ → MatchType → CheckM MatchType}
    (h : Returns program) (hnext : ∀ result, Returns fun fuel => next fuel result) :
    Returns fun fuel => program fuel >>= next fuel :=
  fun s => (h s).bind fun result t _ => hnext result t

lemma andThen {program : ℕ → CheckM MatchType} (h : Returns program) (self : MatchType) :
    Returns fun fuel => self.andThen (program fuel) := by
  unfold MatchType.andThen
  split_ifs
  · exact .pure _
  · exact h.bind fun _ => .pure _

lemma compareShared {program : ℕ → Ty → Ty → CheckM MatchType} {pairs : List (Ty × Ty)}
    (h : ∀ pair ∈ pairs, Returns fun fuel => program fuel pair.1 pair.2) (rowResult : MatchType) :
    Returns fun fuel => Checking.compareShared (program fuel) pairs rowResult := by
  induction pairs generalizing rowResult with
  | nil => exact .pure _
  | cons pair pairs ih =>
    refine (h pair (.head _)).bind fun result => ?_
    dsimp only
    split_ifs
    · exact .pure _
    · exact ih (fun other hmem => h other (.tail _ hmem)) _

end Returns

/-- A tail that is left over weighs no more than its row, and less if no fields are left over. -/
lemma weight_leftOver {fields : List RowField} {row : RowType} (hsub : fields.Sublist row.fields) :
    (internRow fields row.tail).weight ≤ (Ty.Row row).weight ∧
      ((∀ left, internRow fields row.tail ≠ .Row left) →
        (internRow fields row.tail).weight < (Ty.Row row).weight) := by
  have hless : fieldsWeight fields ≤ _ := fieldsWeight_sublist hsub
  rw [Ty.weight, RowType.weight_eq]
  refine ⟨(weight_internRow_le fields row.tail).trans (by omega), fun hopen => ?_⟩
  rcases internRow_cases fields row.tail with ⟨_, hsame⟩ | ⟨inner, hsame, _⟩
  · have : tailWeight row.tail = (internRow fields row.tail).weight := by
      nth_rewrite 1 [hsame]
      rfl
    omega
  · exact absurd hsame (hopen inner)

/-- **Plain rows are compared in smaller plain types.** -/
lemma compareRowTypesWith_returns (context : CheckContext)
    {program : ℕ → Ty → Ty → CheckM MatchType}
    (hl : (Ty.Row left).Plain) (hr : (Ty.Row right).Plain)
    (hsmaller : ∀ l r : Ty, l.Plain → r.Plain →
      l.weight + r.weight < (Ty.Row left).weight + (Ty.Row right).weight →
      Returns fun fuel => program fuel l r) :
    Returns fun fuel => compareRowTypesWith (program fuel) left right := by
  have hshared : ∀ pair ∈ left.sharedTypes right,
      Returns fun fuel => program fuel pair.1 pair.2 := fun pair hmem => by
    have hchild : pair ∈ childPairs context (.Row left) (.Row right) :=
      List.mem_append_left _ hmem
    obtain ⟨hplain, hplain'⟩ := childPairs_plain hl hr hchild
    exact hsmaller _ _ hplain hplain' (childPairs_weight hchild)
  refine (Returns.compareShared hshared _).bind fun rowResult => ?_
  split_ifs
  · exact .pure _
  refine Returns.bind ?_ fun _ => .pure _
  have hplain : (internRow (left.leftOnly right) left.tail).Plain :=
    plain_internRow (fun field hmem => plain_of_mem_fields hl (lefts_sublist.subset hmem))
      fun _ => plain_of_tail hl
  have hplain' : (internRow (left.rightOnly right) right.tail).Plain :=
    plain_internRow (fun field hmem => plain_of_mem_fields hr (rights_sublist.subset hmem))
      fun _ => plain_of_tail hr
  obtain ⟨hle, hlt⟩ := @weight_leftOver (left.leftOnly right) left lefts_sublist
  obtain ⟨hle', hlt'⟩ := @weight_leftOver (left.rightOnly right) right rights_sublist
  unfold compareRowTailsWith
  split
  · exact .pure _
  · next hnotBoth =>
    refine hsmaller _ _ hplain hplain' ?_
    by_cases hrow : ∃ inner, internRow (left.leftOnly right) left.tail = .Row inner
    · obtain ⟨inner, hrow⟩ := hrow
      have := hlt' fun inner' hrow' => hnotBoth inner inner' hrow hrow'
      omega
    · have := hlt (not_exists.mp hrow)
      omega

/-- The cases of `types_apart` return if they do for smaller plain types. -/
lemma apartCases_returns {l r : Ty} {program : ℕ → Ty → Ty → Bool → CheckM MatchType}
    (hl : l.Plain) (hr : r.Plain)
    (hsmaller : ∀ (l' r' : Ty) (kind : Bool), l'.Plain → r'.Plain →
      l'.weight + r'.weight < l.weight + r.weight → Returns fun fuel => program fuel l' r' kind)
    (kind : Bool) : Returns fun fuel => apartCases context (program fuel) l r kind := by
  have hchildren := (Ty.plain_iff.mp hl).2
  have hchildren' := (Ty.plain_iff.mp hr).2
  unfold apartCases
  split
  all_goals
    simp only [Ty.children, List.forall_mem_cons] at hchildren hchildren'
  all_goals first
    | exact .pure _
    | exact compareRowTypesWith_returns context hl hr fun l r => hsmaller l r false
    | refine hsmaller _ _ _ ?_ ?_ ?_
    | refine Returns.bind (hsmaller _ _ _ ?_ ?_ ?_) fun result =>
        (hsmaller _ _ _ ?_ ?_ ?_).andThen result
  all_goals first
    | simp only [Ty.weight, weight_functionApplication]; omega
    | simp only [hl, hr, hchildren, hchildren', plain_functionApplication]

/-- **`types_apart` returns for plain types.** -/
theorem typesApart_returns {l r : Ty} (hl : l.Plain) (hr : r.Plain) (kind : Bool) :
    Returns fun fuel => typesApart context fuel l r kind := by
  obtain ⟨weight, hweight⟩ : ∃ weight, l.weight + r.weight = weight := ⟨_, rfl⟩
  induction weight using Nat.strong_induction_on generalizing l r kind with
  | _ weight ih =>
    refine fun s => .succ ?_
    simp only [typesApart, expand_plain hl, expand_plain hr, pure_bind]
    exact apartCases_returns hl hr
      (fun l' r' kind hl' hr' hless => ih _ (hweight ▸ hless) hl' hr' kind rfl) kind s

end Plain

end Iris.Checking
