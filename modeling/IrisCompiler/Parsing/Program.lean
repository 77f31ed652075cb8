import IrisCompiler.Parsing.Parser

/-!
# The programs that rules are

A rule of the parser is a straight piece of code over the methods of `Parser`: it looks tokens up,
emits events through marker variables, runs other rules and loops.  `Program` is the monad of such
code.  A rule is written in it with the source's statements, and the tree it denotes can be run
(`Program.exec`) and can be examined (the static check of `Parsing.Discipline`); a call of another
rule is a node of the tree that holds the other rule's name, so that the tree is finite although the
rules are mutually recursive.

A marker is held in a local variable of the rule.  The scope is the list of the variables declared
so far, the innermost first, so that an inner `let mut m` hides an outer one until it is ended.
-/

namespace Iris.Parsing

open TotalRun

/-- The names of the marker variables in the source. -/
inductive Variable where
  | m | n | o | e | label | imports | statements | marker
  deriving DecidableEq, Repr

/-- The marker variables in scope.  A variable declared as `let mut e = None` holds no marker until
it is assigned one. -/
abbrev Scope := List (Variable × Option NodeMarker)

/-- Move the innermost `v` out of the scope. -/
def Scope.take (v : Variable) : Scope → Option (Option NodeMarker × Scope)
  | [] => none
  | (w, held) :: scope =>
    if w = v then some (held, scope)
    else (Scope.take v scope).map fun (found, rest) => (found, (w, held) :: rest)

/-- A statement that does not branch. -/
inductive Command (ρ : Type) where
  | consume
  /-- `eat_in` after its test: the token goes to the output as `kind`.  The set it was tested for is
  kept for the record. -/
  | advance (set : TokenSet) (kind : SyntaxKind)
  | annotate
  | qualify
  | error (reason : ParserError)
  /-- `let mut v = p.start()` -/
  | start (v : Variable)
  /-- `let mut v = None` -/
  | unset (v : Variable)
  /-- `if v.is_none() { v = Some(p.start()); p.error(message); }` -/
  | startOnce (v : Variable) (message : String)
  /-- `v.end(p, kind)` -/
  | finish (v : Variable) (kind : SyntaxKind)
  /-- `v.end_non_empty(p, kind)` -/
  | finishNonEmpty (v : Variable) (kind : SyntaxKind)
  /-- `if let Some(mut v) = v { v.end(p, kind); }` -/
  | finishSome (v : Variable) (kind : SyntaxKind)
  /-- `v.cancel(p)` -/
  | cancel (v : Variable)
  | call (rule : ρ)
  | optional (rule : ρ)
  | prefer (leading rule other : ρ)

/-- The code of a rule, with a result of type `α`. -/
inductive Program (ρ : Type) : Type → Type 1 where
  | pure {α : Type} (a : α) : Program ρ α
  /-- Look up the token `index` places ahead and go on by whether it is in `set`. -/
  | ask {α : Type} (index : ℕ) (set : TokenSet) (next : Bool → Program ρ α) : Program ρ α
  | act {α : Type} (command : Command ρ) (next : Program ρ α) : Program ρ α
  /-- Run `body` until it answers `false`, then go on by whether it ever answered `true`: the source
  counts the completed rounds of a loop in `i` and asks `i > 0`. -/
  | loop {α : Type} (body : Program ρ Bool) (next : Bool → Program ρ α) : Program ρ α
  /-- Run a function that is no rule and answers a `bool`, in a scope of its own. -/
  | invoke {α : Type} (body : Program ρ Bool) (next : Bool → Program ρ α) : Program ρ α

namespace Program

variable {ρ α β : Type}

protected def bind : {α : Type} → Program ρ α → (α → Program ρ β) → Program ρ β
  | _, .pure a, f => f a
  | _, .ask index set next, f => .ask index set fun answer => (next answer).bind f
  | _, .act command next, f => .act command (next.bind f)
  | _, .loop body next, f => .loop body fun ran => (next ran).bind f
  | _, .invoke body next, f => .invoke body fun answer => (next answer).bind f

instance : Monad (Program ρ) where
  pure := Program.pure
  bind := Program.bind

lemma bind_pure_right {α : Type} (program : Program ρ α) : program.bind .pure = program := by
  induction program with
  | pure a => rfl
  | ask index set next ih => exact congrArg (Program.ask index set) (funext ih)
  | act command next ih => exact congrArg (Program.act command) ih
  | loop body next _ ih => exact congrArg (Program.loop body) (funext ih)
  | invoke body next _ ih => exact congrArg (Program.invoke body) (funext ih)

lemma bind_bind {α γ : Type} (program : Program ρ α) (f : α → Program ρ β) (g : β → Program ρ γ) :
    (program.bind f).bind g = program.bind fun a => (f a).bind g := by
  induction program with
  | pure a => rfl
  | ask index set next ih => exact congrArg (Program.ask index set) (funext fun b => ih b f)
  | act command next ih => exact congrArg (Program.act command) (ih f)
  | loop body next _ ih => exact congrArg (Program.loop body) (funext fun b => ih b f)
  | invoke body next _ ih => exact congrArg (Program.invoke body) (funext fun b => ih b f)

instance : LawfulMonad (Program ρ) := LawfulMonad.mk' (Program ρ)
  (fun program => bind_pure_right program) (fun _ _ => rfl) bind_bind

/-- Call a function that is no rule. -/
def function (body : Program ρ Bool) : Program ρ Bool := .invoke body .pure

/-- A single command. -/
def run (command : Command ρ) : Program ρ Unit := .act command (.pure ())

/-! ## Conditions

The connectives evaluate their second operand only if the first does not decide. -/

/-- `self.nth(index) == kind` -/
def nthAt (index : ℕ) (kind : SyntaxKind) : Program ρ Bool := .ask index [kind] .pure

def nthAtIn (index : ℕ) (set : TokenSet) : Program ρ Bool := .ask index set .pure

/-- `Parser::at` -/
def at_ (kind : SyntaxKind) : Program ρ Bool := nthAt 0 kind

def atNext (kind : SyntaxKind) : Program ρ Bool := nthAt 1 kind

def atEof : Program ρ Bool := at_ .END_OF_FILE

def atIn (set : TokenSet) : Program ρ Bool := nthAtIn 0 set

def not (condition : Program ρ Bool) : Program ρ Bool := do
  return !(← condition)

def and (first second : Program ρ Bool) : Program ρ Bool := do
  if ← first then second else return false

def or (first second : Program ρ Bool) : Program ρ Bool := do
  if ← first then return true else second

/-! ## Statements -/

def consume : Program ρ Unit := run .consume
def annotate : Program ρ Unit := run .annotate
def qualify : Program ρ Unit := run .qualify
def error (message : String) : Program ρ Unit := run (.error (.Message message))
def start (v : Variable) : Program ρ Unit := run (.start v)
def unset (v : Variable) : Program ρ Unit := run (.unset v)
def startOnce (v : Variable) (message : String) : Program ρ Unit := run (.startOnce v message)
def finish (v : Variable) (kind : SyntaxKind) : Program ρ Unit := run (.finish v kind)
def finishNonEmpty (v : Variable) (kind : SyntaxKind) : Program ρ Unit :=
    run (.finishNonEmpty v kind)
def finishSome (v : Variable) (kind : SyntaxKind) : Program ρ Unit := run (.finishSome v kind)
def cancel (v : Variable) : Program ρ Unit := run (.cancel v)
def call (rule : ρ) : Program ρ Unit := run (.call rule)
def optional (rule : ρ) : Program ρ Unit := run (.optional rule)
def preferWithPrefix (leading rule other : ρ) : Program ρ Unit := run (.prefer leading rule other)

def eat (kind : SyntaxKind) : Program ρ Bool := do
  if ← at_ kind then
    consume
    return true
  return false

def eatIn (set : TokenSet) (kind : SyntaxKind) : Program ρ Bool := do
  if ← atIn set then
    run (.advance set kind)
    return true
  return false

def expect (kind : SyntaxKind) : Program ρ Unit := do
  unless ← eat kind do
    run (.error (.Expected kind))

lemma expect_eq (kind : SyntaxKind) : (expect kind : Program ρ Unit) =
    .ask 0 [kind] fun found => if found then consume else run (.error (.Expected kind)) :=
  congrArg (Program.ask 0 [kind]) (funext fun found => by cases found <;> rfl)

def expectIn (set : TokenSet) (kind : SyntaxKind) (message : String) : Program ρ Unit := do
  unless ← eatIn set kind do
    error message

def errorRecover (message : String) : Program ρ Unit := do
  start .marker
  error message
  consume
  finish .marker .ERROR

/-- `while condition { body }`; the result says whether the body ran. -/
def whileDo (condition : Program ρ Bool) (body : Program ρ Unit) : Program ρ Bool :=
  .loop (do
    if ← condition then
      body
      return true
    return false) .pure

/-- `while condition { body }` with a body that answers `false` where the source has `break`. -/
def whileBreak (condition body : Program ρ Bool) : Program ρ Unit :=
  .loop (condition.and body) fun _ => .pure ()

end Program

/-! ## Running a program -/

/-- What a program needs to know of the other rules. -/
structure Rules (ρ : Type) where
  call : ρ → ParserM ρ Unit
  prefer : (leading rule other : ρ) → ParserM ρ Unit

variable {ρ α : Type}

/-- Move the marker in `v` out of the scope and use it. -/
def Scope.useMarker (v : Variable) (use : NodeMarker → ParserM ρ Unit) (scope : Scope) :
    ParserM ρ Scope :=
  match scope.take v with
  | some (some m, rest) => do
    use m
    return rest
  | _ => throw .unscoped

/-- The end of a scope: a marker that is still there goes off. -/
def Scope.defused (scope : Scope) : ParserM ρ Unit :=
  if scope.any fun (_, held) => held.isSome then throw .bomb else return

def Command.exec (rules : Rules ρ) : Command ρ → Scope → ParserM ρ Scope
  | .consume, scope => do
    Parser.consume
    return scope
  | .advance _ kind, scope => do
    Parser.advance kind
    return scope
  | .annotate, scope => do
    Parser.annotate
    return scope
  | .qualify, scope => do
    Parser.qualify
    return scope
  | .error reason, scope => do
    Parser.error reason
    return scope
  | .start v, scope => do
    return (v, some (← Parser.start)) :: scope
  | .unset v, scope => return (v, none) :: scope
  | .startOnce v message, scope =>
    match scope.take v with
    | some (none, rest) => do
      let marker ← Parser.start
      Parser.error (.Message message)
      return (v, some marker) :: rest
    | some (some _, _) => return scope
    | none => throw .unscoped
  | .finish v kind, scope => scope.useMarker v fun m => m.finish kind
  | .finishNonEmpty v kind, scope => scope.useMarker v fun m => m.finishNonEmpty kind
  | .finishSome v kind, scope =>
    match scope.take v with
    | some (none, rest) => return rest
    | some (some m, rest) => do
      m.finish kind
      return rest
    | none => throw .unscoped
  | .cancel v, scope => scope.useMarker v fun m => m.cancel
  | .call rule, scope => do
    rules.call rule
    return scope
  | .optional rule, scope => do
    Parser.optional (rules.call rule)
    return scope
  | .prefer leading rule other, scope => do
    rules.prefer leading rule other
    return scope

/-- Run a program from a scope.  A loop may take at most `laps` rounds. -/
def Program.exec (rules : Rules ρ) (laps : ℕ) :
    {α : Type} → Program ρ α → Scope → ParserM ρ (α × Scope)
  | _, .pure a, scope => return (a, scope)
  | _, .ask index set next, scope => do
    let kind ← Parser.nth index
    (next (set.contains kind)).exec rules laps scope
  | _, .act command next, scope => do
    let scope ← command.exec rules scope
    next.exec rules laps scope
  | _, .loop body next, scope => do
    let (ran, scope) ← TotalRun.loop .tooDeep (fun (ran, scope) => do
      let (again, scope) ← body.exec rules laps scope
      return if again then .again (true, scope) else .leave (ran, scope)) laps (false, scope)
    (next ran).exec rules laps scope
  | _, .invoke body next, scope => do
    let (answer, inner) ← body.exec rules laps []
    inner.defused
    (next answer).exec rules laps scope

/-- A sequence is run in sequence. -/
lemma Program.exec_bind {β : Type} (rules : Rules ρ) (laps : ℕ) (program : Program ρ α)
    (f : α → Program ρ β) (scope : Scope) : (program >>= f).exec rules laps scope = (do
      let (a, scope) ← program.exec rules laps scope
      (f a).exec rules laps scope) := by
  change (program.bind f).exec rules laps scope = _
  induction program generalizing scope with
  | pure a => simp [Program.bind, Program.exec]
  | ask _ _ _ ih | act _ _ ih | loop _ _ _ ih | invoke _ _ _ ih =>
    simp [Program.bind, Program.exec, ih]

/-- Run a rule's code from an empty scope. -/
def Program.execRule (rules : Rules ρ) (laps : ℕ) (program : Program ρ Unit) : ParserM ρ Unit := do
  let (_, scope) ← program.exec rules laps []
  scope.defused

section Grammar

variable (grammar : ρ → Program ρ Unit)

/-- Run a rule as the source does, at most `depth` calls deep. -/
def runRule [DecidableEq ρ] : (depth : ℕ) → ρ → ParserM ρ Unit
  | 0, _ => throw .tooDeep
  | depth + 1, rule =>
    (grammar rule).execRule
      { call := runRule depth, prefer := Parser.preferWithPrefix (runRule depth) } depth

/-- The rules at a depth, as the source runs them. -/
def memoRules [DecidableEq ρ] (depth : ℕ) : Rules ρ where
  call := runRule grammar depth
  prefer := Parser.preferWithPrefix (runRule grammar depth)

/-- Run a rule with the plain choice between alternatives. -/
def runPlain : (depth : ℕ) → ρ → ParserM ρ Unit
  | 0, _ => throw .tooDeep
  | depth + 1, rule =>
    (grammar rule).execRule
      { call := runPlain depth, prefer := fun _ => Parser.prefer (runPlain depth) } depth

/-- The rules at a depth, for the plain choice. -/
def plainRules (depth : ℕ) : Rules ρ where
  call := runPlain grammar depth
  prefer := fun _ => Parser.prefer (runPlain grammar depth)

end Grammar

end Iris.Parsing
