import IrisCompiler.Checking.Types
import IrisCompiler.Library.Simulation

/-!
# The checker's state, normalisation and expansion

The part of `CheckState` that types depend on (`state.rs`), and the functions that look through
solved unification variables, nested rows and synonyms: `normalise` and `expand`
(`core/normalise.rs`), with the fold over types that they use for synonyms (`core/fold.rs`,
`core/substitute.rs`).

The source bounds its loops by a constant and recurses on the stack.  Here both are bounded by a
number that every function takes; running out of it is a fault.
-/

namespace Iris.Checking

open TotalRun

/-! ## State -/

inductive UnificationState where
  | Unsolved
  | Solved (solution : Ty)
  deriving DecidableEq

structure UnificationEntry where
  depth : ℕ
  kind : Ty
  state : UnificationState
  deriving DecidableEq

/-- The unification variables, the names given out in this file and the current depth. -/
structure CheckState where
  unifications : List UnificationEntry
  file : ℕ
  unique : ℕ
  depth : ℕ
  deriving DecidableEq

/-- What stops the checker. -/
inductive Fault where
  /-- A loop or a recursion went on after its bound. -/
  | fuel
  /-- There is no such unification variable. -/
  | index
  deriving DecidableEq, Repr

abbrev CheckM := StateT CheckState (Except Fault)

/-- `Unifications::get` -/
def getUnification (id : ℕ) : CheckM UnificationEntry := do
  match (← get).unifications[id]? with
  | some entry => return entry
  | none => throw .index

/-- The state in which the variable has a solution. -/
def CheckState.solved (self : CheckState) (id : ℕ) (solution : Ty) : CheckState :=
  { self with
    unifications :=
      self.unifications.modify id fun entry => { entry with state := .Solved solution } }

/-- `Unifications::solve` -/
def solveUnification (id : ℕ) (solution : Ty) : CheckM Unit := do
  let _ ← getUnification id
  modify fun state => state.solved id solution

/-- `Unifications::fresh` -/
def freshAt (depth : ℕ) (kind : Ty) : CheckM ℕ := do
  let id := (← get).unifications.length
  modify fun state =>
    { state with unifications := state.unifications ++ [⟨depth, kind, .Unsolved⟩] }
  return id

def freshUnification (kind : Ty) : CheckM Ty := do
  return .Unification (← freshAt (← get).depth kind)

/-- `fresh_rigid_named`, without the text of the name. -/
def freshRigid (kind : Ty) : CheckM Ty := do
  let state ← get
  modify fun state => { state with unique := state.unique + 1 }
  return .Rigid ⟨state.file, state.unique, false⟩ state.depth kind

/-! ## Normalisation -/

/-- `rule_simplify_rows`: a row that is the tail of a row is merged into it. -/
def simplifyRows : Ty → Option Ty
  | .Row row =>
    match row.tail with
    | some (.Row inner) =>
      if inner = row then none
      else
        let merged := row.fields.merge inner.fields fun left right => left.label ≤ right.label
        some (internRow merged inner.tail)
    | _ => none
  | _ => none

/-- `reduce_once`, with the variable that was looked through. -/
def reduceOnce (id : Ty) : CheckM (Option (Ty × Option ℕ)) := do
  match id with
  | .Unification unification =>
    match (← getUnification unification).state with
    | .Solved solution => return some (solution, some unification)
    | .Unsolved => return none
  | id => return (simplifyRows id).map (·, none)

/-- The variables that were looked through are solved to where they lead. -/
def normaliseHead (fuel : ℕ) (id : Ty) : CheckM Ty := do
  let (id, compression) ← loop .fuel (fun (id, compression) => do
    match ← reduceOnce id with
    | some (reduced, unification) => return .again (reduced, compression ++ unification.toList)
    | none => return .leave (id, compression)) fuel (id, [])
  compression.forM fun unification => solveUnification unification id
  return id

def normalise (fuel : ℕ) (id : Ty) : CheckM Ty :=
  if id.mayNormalise then normaliseHead fuel id else return id

/-! ## Folds -/

/-- What a fold replaces, and which types it need not look into. -/
structure TypeFold where
  mayChange : Ty → Bool
  replace : Ty → Option Ty

/-- The fields of a row and of the rows that its tail leads to, and the last tail. -/
def flattenRow (fuel : ℕ) (row : RowType) : CheckM (List RowField × Option Ty) :=
  loop .fuel (fun (row, fields) => do
    match row.tail with
    | none => return .leave (fields, none)
    | some tail =>
      match ← normalise fuel tail with
      | .Row inner => return .again (inner, fields ++ inner.fields)
      | _ => return .leave (fields, some tail)) fuel (row, row.fields)

def foldType (folder : TypeFold) : ℕ → Ty → CheckM Ty
  | 0, _ => throw .fuel
  | fuel + 1, id => do
    if !folder.mayChange id then return id
    let id ← normalise fuel id
    match folder.replace id with
    | some replacement => return replacement
    | none =>
      match id with
      | .Application function argument =>
        return .Application (← foldType folder fuel function) (← foldType folder fuel argument)
      | .KindApplication function argument =>
        return .KindApplication (← foldType folder fuel function) (← foldType folder fuel argument)
      | .Forall visible name kind inner =>
        return .Forall visible name (← foldType folder fuel kind) (← foldType folder fuel inner)
      | .Constrained constraint inner =>
        return .Constrained (← foldType folder fuel constraint) (← foldType folder fuel inner)
      | .ConstraintOrigin constraint origin =>
        return .ConstraintOrigin (← foldType folder fuel constraint) (← foldType folder fuel origin)
      | .Function argument result =>
        return .Function (← foldType folder fuel argument) (← foldType folder fuel result)
      | .Kinded inner kind =>
        return .Kinded (← foldType folder fuel inner) (← foldType folder fuel kind)
      | .Row row =>
        let (fields, tail) ← flattenRow fuel row
        let fields ← fields.mapM fun field => do
          return { field with type := ← foldType folder fuel field.type }
        let tail ← tail.mapM (foldType folder fuel)
        if fields = row.fields ∧ tail = row.tail then return id else return internRow fields tail
      | .Rigid name depth kind => return .Rigid name depth (← foldType folder fuel kind)
      | .Constructor _ | .Synonym _ | .Integer _ | .String _ _ | .Unification _ | .Free _
      | .Unknown _ => return id

/-- Rigid variables and the types that replace them. -/
abbrev NameToType := List (Name × Ty)

/-- `SubstituteName::many` -/
def substituteMany (fuel : ℕ) (bindings : NameToType) (inType : Ty) : CheckM Ty :=
  foldType {
    mayChange := Ty.maySubstitute
    replace := fun
      | .Rigid name _ _ => bindings.lookup name
      | _ => none } fuel inType

/-- `SubstituteName::one` -/
def substituteOne (fuel : ℕ) (name : Name) (replacement inType : Ty) : CheckM Ty :=
  substituteMany fuel [(name, replacement)] inType

/-- The zonked type.  The cache that the source may keep is left out. -/
def zonk (fuel : ℕ) (id : Ty) : CheckM Ty :=
  foldType { mayChange := Ty.mayZonk, replace := fun _ => none } fuel id

/-! ## Expansion -/

inductive ApplicationArgument where
  | Kind (argument : Ty)
  | Type (argument : Ty)
  deriving DecidableEq

structure CheckedSynonym where
  kind : Ty
  parameters : List Name
  expansion : Ty

/-- What the checker looks up in the modules that are checked already. -/
structure CheckContext where
  synonyms : TypeItem → Option CheckedSynonym
  /-- `lookup_file_type` -/
  kinds : TypeItem → Ty
  /-- `Type` -/
  primType : TypeItem
  /-- `Function` -/
  primFunction : TypeItem
  primRow : TypeItem
  primInt : TypeItem
  primSymbol : TypeItem

namespace CheckContext

/-- A program without synonyms. -/
def bare : CheckContext :=
  ⟨fun _ => none, fun _ => .Constructor ⟨0, 0⟩, ⟨0, 0⟩, ⟨0, 1⟩, ⟨0, 2⟩, ⟨0, 3⟩, ⟨0, 4⟩⟩

variable (context : CheckContext)

/-- `intern_function_application` -/
def functionApplication (argument result : Ty) : Ty :=
  .Application (.Application (.Constructor context.primFunction) argument) result

end CheckContext

/-- The arguments of an application, last first, and its head. -/
def applicationSpine (fuel : ℕ) (id : Ty) : CheckM (Ty × List ApplicationArgument) :=
  loop .fuel (fun (current, arguments) => do
    match current with
    | .Application function argument =>
      return .again (← normalise fuel function, arguments ++ [.Type argument])
    | .KindApplication function argument =>
      return .again (← normalise fuel function, arguments ++ [.Kind argument])
    | current => return .leave (current, arguments)) fuel (id, [])

/-- The kind arguments of a synonym for the quantifiers of its kind, and the arguments after them;
nothing if there are too few. -/
def bindKinds (fuel : ℕ) (kind : Ty) (arguments : List ApplicationArgument) :
    CheckM (Option (NameToType × List ApplicationArgument)) :=
  loop .fuel (fun (kind, bindings, arguments) => do
    match ← normalise fuel kind with
    | .Forall _ name _ inner =>
      match arguments with
      | .Kind argument :: arguments =>
        return .again (inner, bindings ++ [(name, argument)], arguments)
      | _ => return .leave none
    | _ => return .leave (some (bindings, arguments))) fuel (kind, [], arguments)

/-- The type arguments of a synonym for its parameters, and the arguments after them. -/
def bindParameters : List Name → List ApplicationArgument →
    Option (NameToType × List ApplicationArgument)
  | [], arguments => some ([], arguments)
  | name :: parameters, .Type argument :: arguments =>
    (bindParameters parameters arguments).map fun (bindings, arguments) =>
      ((name, argument) :: bindings, arguments)
  | _ :: _, _ => none

/-- The function applied to the arguments. -/
def applyArguments (function : Ty) (arguments : List ApplicationArgument) : Ty :=
  arguments.foldl (fun function argument => match argument with
    | .Type argument => .Application function argument
    | .Kind argument => .KindApplication function argument) function

variable (context : CheckContext)

def expandSynonym (fuel : ℕ) (id : Ty) : CheckM Ty := do
  let (head, arguments) ← applicationSpine fuel id
  let .Synonym item := head | return id
  let some synonym := context.synonyms item | return id
  let some (kinds, arguments) ← bindKinds fuel synonym.kind arguments.reverse | return id
  let some (types, arguments) := bindParameters synonym.parameters arguments | return id
  let bindings := kinds ++ types
  let substituted ←
    if bindings.isEmpty then pure synonym.expansion
    else substituteMany fuel bindings synonym.expansion
  return applyArguments substituted arguments

/-- The row with the tails that `expand` changes merged into it. -/
def expandRowTail (expand : Ty → CheckM Ty) (fuel : ℕ) (id : Ty) : CheckM Ty := do
  let .Row _ := id | return id
  loop .fuel (fun (current, fields, flattened) => do
    match current with
    | .Row row =>
      match row.tail with
      | none => return .leave (if flattened then internRow (fields ++ row.fields) none else id)
      | some tail =>
        let expanded ← expand tail
        if tail = expanded then
          return .leave (if flattened then internRow (fields ++ row.fields) (some tail) else id)
        else return .again (expanded, fields ++ row.fields, true)
    | current => return .leave (if flattened then internRow fields (some current) else id)) fuel
    (id, ([] : List RowField), false)

def expandCore : ℕ → Ty → CheckM Ty
  | 0, _ => throw .fuel
  | fuel + 1, id => do
    let id ← normalise fuel id
    let expand (id : Ty) : CheckM Ty := if id.mayExpand then expandCore fuel id else return id
    loop .fuel (fun id => do
      match id with
      | .ConstraintOrigin constraint _ => return .again (← normalise fuel constraint)
      | id =>
        if !id.mayExpand then return .leave id
        let expanded ← expandSynonym context fuel id
        if expanded ≠ id then return .again (← normalise fuel expanded)
        let expanded ← expandRowTail expand fuel id
        if expanded = id then return .leave id
        return .again (← normalise fuel expanded)) fuel id

def expand (fuel : ℕ) (id : Ty) : CheckM Ty :=
  if id.mayExpand then expandCore context fuel id else return id

end Iris.Checking
