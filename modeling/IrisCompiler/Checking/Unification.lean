import IrisCompiler.Checking.Improvements

/-!
# Unification

`unify_core` and what it calls (`core/unification.rs`): the solution of a variable with its occurs
check, its scope check and the promotion of deeper variables, the unification of rows, and the kinds
of types (`elaborate_kind`, `source/types.rs`), which unify again.

Three functions call each other in the source: unification, the solution of a variable and the
elaboration of kinds.  Here each takes the others as arguments, so that only `unifyCore` and
`elaborateKind` recurse, each on its own fuel.  The errors that are reported and the texts of names
are left out: nothing that is computed here depends on them.
-/

namespace Iris.Checking

open TotalRun

/-- The outcome of a unification. -/
inductive Unified where
  | Success
  /-- The innermost pair of types that could not be unified. -/
  | Mismatch (t1 t2 : Ty)
  /-- Labels that a closed row does not allow during record subtyping. -/
  | Labels (missing additional : List Label)
  deriving DecidableEq

def Unified.andThen (self : Unified) (other : CheckM Unified) : CheckM Unified :=
  match self with
  | Success => other
  | self => return self

/-- `with_depth` -/
def withDepth {α : Type} (action : CheckM α) : CheckM α := do
  let previous := (← get).depth
  modify ({ · with depth := previous + 1 })
  let result ← action
  modify ({ · with depth := previous })
  return result

variable (context : CheckContext)

/-! ## Promotion -/

inductive PromoteResult where
  | Ok
  | OccursCheck
  | SkolemEscape
  deriving DecidableEq

def PromoteResult.andThen (self : PromoteResult) (other : CheckM PromoteResult) :
    CheckM PromoteResult :=
  match self with
  | Ok => other
  | self => return self

/-- The variable that is solved, its depth and the names that are bound where the check is. -/
structure PromotionState where
  id : ℕ
  depth : ℕ
  names : List Name

/-- The parts of a type are checked until one of them fails. -/
def promoteAll (check : Ty → CheckM PromoteResult) : List Ty → CheckM PromoteResult
  | [] => return .Ok
  | t :: rest => do (← check t).andThen (promoteAll check rest)

/-- A variable that is deeper than the one that is solved is solved to a fresh one that is not. -/
def promoteUnification (promote : PromotionState) (id : ℕ) : CheckM PromoteResult := do
  if id = promote.id then return .OccursCheck
  let entry ← getUnification id
  if entry.depth > promote.depth then
    let promoted ← freshAt promote.depth entry.kind
    solveUnification id (.Unification promoted)
  return .Ok

/-- The cases of `check` in `promote_type`, for a type that is expanded. -/
def promoteCases (check : PromotionState → Ty → CheckM PromoteResult) (promote : PromotionState) :
    Ty → CheckM PromoteResult
  | .Application function argument | .KindApplication function argument =>
    promoteAll (check promote) [function, argument]
  | .Forall _ name kind inner => do
    (← check promote kind).andThen
      (check { promote with names := promote.names ++ [name] } inner)
  | .Constrained constraint inner => promoteAll (check promote) [constraint, inner]
  | .ConstraintOrigin constraint _ => check promote constraint
  | .Function argument result => promoteAll (check promote) [argument, result]
  | .Kinded inner kind => promoteAll (check promote) [inner, kind]
  | .Row row => promoteAll (check promote) row.children
  | .Rigid name depth kind =>
    if name ∈ promote.names then check promote kind
    else if depth > promote.depth then return .SkolemEscape
    else check promote kind
  | .Unification id => promoteUnification promote id
  | .Constructor _ | .Synonym _ | .Integer _ | .String _ _ | .Free _ | .Unknown _ => return .Ok

/-- `check` in `promote_type` -/
def promoteCheck : ℕ → PromotionState → Ty → CheckM PromoteResult
  | 0, _, _ => throw .fuel
  | fuel + 1, promote, id => do
    if !id.hasVariables then return .Ok
    promoteCases (promoteCheck fuel) promote (← expand context fuel id)

def promoteType (fuel : ℕ) (id : ℕ) (solution : Ty) : CheckM PromoteResult := do
  let depth := (← getUnification id).depth
  promoteCheck context fuel ⟨id, depth, []⟩ solution

/-! ## Solutions -/

section Solve

variable (unifyCore : Ty → Ty → CheckM Unified)

/-- The kinds are unified for their effect: the solution is kept if they do not. -/
def solveCore (elaborateKind : Ty → CheckM Ty) (fuel : ℕ) (unification : Ty) (id : ℕ)
    (solution : Ty) : CheckM Unified := do
  let solution ← expand context fuel solution
  match ← promoteType context fuel id solution with
  | .OccursCheck | .SkolemEscape => return .Mismatch unification solution
  | .Ok =>
    let unificationKind := (← getUnification id).kind
    let solutionKind ← elaborateKind solution
    let _ ← unifyCore unificationKind solutionKind
    solveUnification id solution
    return .Success

/-! ## Kinds -/

namespace CheckContext

/-- `prim.t` -/
abbrev type : Ty := .Constructor context.primType

/-- `prim.row` applied to the kind of the fields. -/
abbrev rowKind (field : Ty) : Ty := .Application (.Constructor context.primRow) field

end CheckContext

/-- The kind of an invalid type. -/
def invalidKind : Ty := .Unknown "invalid kind"

/-- The kind of an application, from the expanded kind of its function.  A variable is solved to a
function first. -/
def applicationKind (elaborateKind : Ty → CheckM Ty) (fuel : ℕ) : Ty → CheckM Ty
  | .Function _ resultKind => return resultKind
  | .Unification id => do
    let depth := (← getUnification id).depth
    let argument ← freshAt depth context.type
    let result ← freshAt depth context.type
    let function := .Function (.Unification argument) (.Unification result)
    let _ ← solveCore context unifyCore elaborateKind fuel (.Unification id) id function
    return .Unification result
  | _ => return invalidKind

/-- The kind of a row: one kind for the fields, which the tail has too. -/
def elaborateRowKind (elaborateKind : Ty → CheckM Ty) (row : RowType) : CheckM Ty := do
  let fieldKind ← freshUnification context.type
  row.fields.forM fun field => do
    let _ ← unifyCore fieldKind (← elaborateKind field.type)
  row.tail.forM fun tail => do
    let _ ← unifyCore (context.rowKind fieldKind) (← elaborateKind tail)
  return context.rowKind fieldKind

def elaborateKind : ℕ → Ty → CheckM Ty
  | 0, _ => throw .fuel
  | fuel + 1, id => do
    match ← expand context fuel id with
    | .Application function _ =>
      let functionKind ← expand context fuel (← elaborateKind fuel function)
      applicationKind context unifyCore (elaborateKind fuel) fuel functionKind
    | .KindApplication function argument =>
      match ← expand context fuel (← elaborateKind fuel function) with
      | .Forall _ name _ innerKind => substituteOne fuel name (← normalise fuel argument) innerKind
      | _ => return invalidKind
    | .Constrained _ _ | .Forall _ _ _ _ | .Function _ _ => return context.type
    | .ConstraintOrigin constraint _ => elaborateKind fuel constraint
    | .Constructor item | .Synonym item => return context.kinds item
    | .Integer _ => return .Constructor context.primInt
    | .String _ _ => return .Constructor context.primSymbol
    | .Kinded _ kind => return kind
    | .Row row => elaborateRowKind context unifyCore (elaborateKind fuel) row
    | .Unification id => return (← getUnification id).kind
    | .Rigid _ _ kind => return kind
    | .Free _ | .Unknown _ => return invalidKind

end Solve

/-! ## Rows -/

section Rows

variable (unifyCore : Ty → Ty → CheckM Unified)

/-- Every pair is unified; the first failure is kept. -/
def unifyShared (pairs : List (Ty × Ty)) : CheckM Unified :=
  pairs.foldlM (fun unified pair => do
    let fieldUnified ← unifyCore pair.1 pair.2
    return if unified = .Success then fieldUnified else unified) .Success

/-- What the rows do not share goes into the tails. -/
def unifyRowTails (t1Tail t2Tail : Option Ty) (extrasLeft extrasRight : List RowField) :
    CheckM Unified :=
  match t1Tail, t2Tail with
  | none, none => return .Success
  | some t1Tail, none => unifyCore t1Tail (internRow extrasRight none)
  | none, some t2Tail => unifyCore t2Tail (internRow extrasLeft none)
  | some t1Tail, some t2Tail => do
    if extrasLeft.isEmpty && extrasRight.isEmpty then unifyCore t1Tail t2Tail
    else
      let tailKind ← freshUnification context.type
      let tail ← freshUnification tailKind
      (← unifyCore t1Tail (internRow extrasRight (some tail))).andThen
        (unifyCore t2Tail (internRow extrasLeft (some tail)))

/-- Whether a closed row lacks a field of the other one. -/
def RowType.disallowed (left right : RowType) : Bool :=
  (right.tail.isNone && !(left.leftOnly right).isEmpty) ||
    (left.tail.isNone && !(left.rightOnly right).isEmpty)

def unifyRows (left right : RowType) : CheckM Unified := do
  match ← unifyShared unifyCore (left.sharedTypes right) with
  | .Success =>
    if left.disallowed right then return .Mismatch (.Row left) (.Row right)
    else
      unifyRowTails context unifyCore left.tail right.tail (left.leftOnly right)
        (left.rightOnly right)
  | unified => return unified

/-! ## Types -/

/-- A mismatch inside of a rewritten type is reported on the original types. -/
def Unified.reportOn (t1 t2 : Ty) : Unified → Unified
  | Mismatch _ _ => Mismatch t1 t2
  | unified => unified

/-- The cases of `unify_core`, for types that are expanded and differ. -/
def unifyCases (elaborateKind : Ty → CheckM Ty) (fuel : ℕ) (t1 t2 : Ty) : CheckM Unified :=
  match t1, t2 with
  | .Unification id, t2 => solveCore context unifyCore elaborateKind fuel (.Unification id) id t2
  | t1, .Unification id => solveCore context unifyCore elaborateKind fuel (.Unification id) id t1
  | .Unknown _, _ | _, .Unknown _ => return .Success
  | .Application t1Function t1Argument, .Application t2Function t2Argument => do
    (← unifyCore t1Function t2Function).andThen (unifyCore t1Argument t2Argument)
  | .KindApplication t1Function t1Argument, .KindApplication t2Function t2Argument => do
    (← unifyCore t1Function t2Function).andThen (unifyCore t1Argument t2Argument)
  | .Forall _ t1Name t1Kind t1Inner, .Forall _ t2Name t2Kind t2Inner => do
    let _ ← unifyCore t1Kind t2Kind
    let skolem ← freshRigid t1Kind
    let t1Inner ← substituteOne fuel t1Name skolem t1Inner
    let t2Inner ← substituteOne fuel t2Name skolem t2Inner
    withDepth (unifyCore t1Inner t2Inner)
  | .Forall _ name kind inner, t2 => do
    let skolem ← freshRigid kind
    unifyCore (← substituteOne fuel name skolem inner) t2
  | t1, .Forall _ name kind inner => do
    let skolem ← freshRigid kind
    unifyCore t1 (← substituteOne fuel name skolem inner)
  | .Constrained t1Constraint t1Inner, .Constrained t2Constraint t2Inner => do
    (← unifyCore t1Constraint t2Constraint).andThen (unifyCore t1Inner t2Inner)
  | .Application t1Function t1Argument, .Function t2Argument t2Result => do
    let unified ← unifyCore (.Application t1Function t1Argument)
      (context.functionApplication t2Argument t2Result)
    return unified.reportOn (.Application t1Function t1Argument) (.Function t2Argument t2Result)
  | .Function t1Argument t1Result, .Application t2Function t2Argument => do
    let unified ← unifyCore (context.functionApplication t1Argument t1Result)
      (.Application t2Function t2Argument)
    return unified.reportOn (.Function t1Argument t1Result) (.Application t2Function t2Argument)
  | .Function t1Argument t1Result, .Function t2Argument t2Result => do
    (← unifyCore t1Argument t2Argument).andThen (unifyCore t1Result t2Result)
  | .Kinded t1Inner t1Kind, .Kinded t2Inner t2Kind => do
    (← unifyCore t1Inner t2Inner).andThen (unifyCore t1Kind t2Kind)
  | .Row left, .Row right => unifyRows context unifyCore left right
  | .Rigid t1Name t1Depth t1Kind, .Rigid t2Name t2Depth t2Kind =>
    if t1Name = t2Name then unifyCore t1Kind t2Kind
    else return .Mismatch (.Rigid t1Name t1Depth t1Kind) (.Rigid t2Name t2Depth t2Kind)
  | .Constructor t1, .Synonym t2 =>
    return if t1 = t2 then .Success else .Mismatch (.Constructor t1) (.Synonym t2)
  | .Synonym t1, .Constructor t2 =>
    return if t1 = t2 then .Success else .Mismatch (.Synonym t1) (.Constructor t2)
  -- Literals, constructors and synonyms of one form that are the same are equal types.
  | t1, t2 => return .Mismatch t1 t2

end Rows

def unifyCore : ℕ → Ty → Ty → CheckM Unified
  | 0, _, _ => throw .fuel
  | fuel + 1, t1, t2 => do
    if t1 = t2 then return .Success
    let t1 ← expand context fuel t1
    let t2 ← expand context fuel t2
    if t1 = t2 then return .Success
    unifyCases context (unifyCore fuel) (elaborateKind context (unifyCore fuel) fuel) fuel t1 t2

/-- `elaborate_kind` -/
def kindOf (fuel : ℕ) (id : Ty) : CheckM Ty :=
  elaborateKind context (unifyCore context fuel) fuel id

end Iris.Checking
