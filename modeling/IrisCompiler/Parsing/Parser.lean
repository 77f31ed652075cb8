import Mathlib.Tactic.Common
import IrisCompiler.Syntax.SyntaxKind
import IrisCompiler.Library.TotalRun

/-!
# The parser's state and its methods

`Parser` (`compiler-frontend/parsing/src/parser.rs`) turns a slice of token kinds into a list of
`Event`s and a list of `ParserError`s.  It only ever appends to the two lists, except that a
`NodeMarker` renames the `Start` event it was made for, and that a failed alternative is taken back
by truncating both lists and moving the index back.

A method is a `ParserM` program: it changes the parser or panics.  The methods here are the ones of
the source, one definition each; the rules that use them are programs of their own and are the
subject of the modules after this one.  The type `ρ` names the rules: it is what the source compares
when it uses the address of a `Rule` as a key.

The lookup counter is `fuel`, reset to `u16::MAX` whenever the parser advances.  It is an option:
`none` is the parser without the counter.
-/

namespace Iris.Parsing

open TotalRun

/-- What the tree builder is told, in order. -/
inductive Event where
  | Start (kind : SyntaxKind)
  | Annotate
  | Qualify
  | Token (kind : SyntaxKind)
  | Error
  | Finish
  deriving DecidableEq, Repr

inductive ParserError where
  | Message (message : String)
  | Expected (kind : SyntaxKind)
  deriving DecidableEq, Repr

/-- The output of an alternative that failed with errors, replayed when an enclosing alternative
parses the same tokens again. -/
structure FailedAlternative where
  index : ℕ
  output : List Event
  errors : List ParserError
  deriving DecidableEq, Repr

structure Parser (ρ : Type) where
  index : ℕ
  tokens : List SyntaxKind
  output : List Event
  errors : List ParserError
  /-- The lookups left before the next token must be consumed; `none` without the counter. -/
  fuel : Option ℕ
  /-- The hash map of the source, by its lookup function. -/
  failedAlternatives : ℕ × ρ → Option FailedAlternative

/-- `u16::MAX`. -/
def fullFuel : ℕ := 65535

/-- How a run of the parser stops short.  The first five are panics of the source.  A program that
names a marker variable which is not in scope is `unscoped` (the compiler rejects it), and a run
that goes deeper than the model was given leave to is `tooDeep`. -/
inductive Panic where
  | fuelExhausted
  | outOfBounds
  | unreachable
  /-- `debug_assert!` of `prefer_with_prefix`. -/
  | assertion
  /-- A marker is dropped without `end` or `cancel`. -/
  | bomb
  | unscoped
  | tooDeep
  deriving DecidableEq, Repr

abbrev ParserM (ρ : Type) := StateT (Parser ρ) (Except Panic)

structure Checkpoint where
  index : ℕ
  output : ℕ
  errors : ℕ

structure NodeMarker where
  index : ℕ
  tokenIndex : ℕ
  deriving DecidableEq, Repr

namespace Parser

variable {ρ : Type}

/-- `Parser::new`, with the counter or without it. -/
def new (fuel : Option ℕ) (tokens : List SyntaxKind) : Parser ρ where
  index := 0
  tokens := tokens
  output := []
  errors := []
  fuel := fuel
  failedAlternatives := fun _ => none

/-- The token that `nth` looks up; past the end it is the end of the file. -/
def kindAt (p : Parser ρ) (index : ℕ) : SyntaxKind := p.tokens[p.index + index]?.getD .END_OF_FILE

/-- `self.fuel.set(u16::MAX)`. -/
def refuel (p : Parser ρ) : Parser ρ := { p with fuel := p.fuel.map fun _ => fullFuel }

def nth (index : ℕ) : ParserM ρ SyntaxKind := do
  let p ← get
  match p.fuel with
  | some 0 => throw .fuelExhausted
  | some (fuel + 1) => set { p with fuel := some fuel }
  | none => pure ()
  return p.kindAt index

/-- The parser after the token at its index went to the output as `kind`. -/
def advanced (p : Parser ρ) (kind : SyntaxKind) : Parser ρ :=
  { p.refuel with index := p.index + 1, output := p.output ++ [.Token kind] }

def consume : ParserM ρ Unit := do
  let p ← get
  match p.tokens[p.index]? with
  | some kind => set (p.advanced kind)
  | none => throw .outOfBounds

/-- What `eat_in` does once its test has succeeded. -/
def advance (kind : SyntaxKind) : ParserM ρ Unit := modify fun p => p.advanced kind

/-- The parser after one more event. -/
def emit (p : Parser ρ) (event : Event) : Parser ρ := { p with output := p.output ++ [event] }

def annotate : ParserM ρ Unit := modify fun p => p.emit .Annotate

def qualify : ParserM ρ Unit := modify fun p => p.emit .Qualify

/-- The marker that `start` returns. -/
def marker (p : Parser ρ) : NodeMarker where
  index := p.output.length
  tokenIndex := p.index

def start : ParserM ρ NodeMarker := do
  let p ← get
  set (p.emit (.Start .Node))
  return p.marker

/-- The parser after one more error, which has its own event. -/
def failed (p : Parser ρ) (error : ParserError) : Parser ρ :=
  { p with errors := p.errors ++ [error], output := p.output ++ [.Error] }

def error (e : ParserError) : ParserM ρ Unit := modify fun p => p.failed e

/-! ## Alternatives -/

def checkpoint (p : Parser ρ) : Checkpoint where
  index := p.index
  output := p.output.length
  errors := p.errors.length

def succeededSince (p : Parser ρ) (checkpoint : Checkpoint) : Bool :=
  p.errors.length == checkpoint.errors

def failedSince (p : Parser ρ) (checkpoint : Checkpoint) : FailedAlternative where
  index := p.index
  output := p.output.drop checkpoint.output
  errors := p.errors.drop checkpoint.errors

def rewind (p : Parser ρ) (checkpoint : Checkpoint) : Parser ρ :=
  { p with
    index := checkpoint.index
    output := p.output.take checkpoint.output
    errors := p.errors.take checkpoint.errors }

def replay (p : Parser ρ) (failed : FailedAlternative) : Parser ρ :=
  { (if failed.index > p.index then p.refuel else p) with
    index := failed.index
    output := p.output ++ failed.output
    errors := p.errors ++ failed.errors }

/-- `self.failed_alternatives.insert(key, failed)`. -/
def remember [DecidableEq ρ] (p : Parser ρ) (key : ℕ × ρ) (failed : FailedAlternative) : Parser ρ :=
  { p with failedAlternatives := Function.update p.failedAlternatives key (some failed) }

def optional (rule : ParserM ρ Unit) : ParserM ρ Unit := do
  let initial := (← get).checkpoint
  rule
  unless (← get).succeededSince initial do
    modify fun p => p.rewind initial

/-- Returns whether `rule` parses without errors, without consuming input. -/
def speculate (rule : ParserM ρ Unit) : ParserM ρ Bool := do
  let checkpoint := (← get).checkpoint
  rule
  let succeeded := (← get).succeededSince checkpoint
  modify fun p => p.rewind checkpoint
  return succeeded

/-- `prefer_with_prefix`: `leading` is the source's `prefix`, and a rule is run by its name.  The
entry that is found in the table is taken out and put back, so the table stays as it is. -/
def preferWithPrefix [DecidableEq ρ] (call : ρ → ParserM ρ Unit) (leading rule other : ρ) :
    ParserM ρ Unit := do
  let p ← get
  let key := (p.index, rule)
  match p.failedAlternatives key with
  | some failed => modify fun p => p.replay failed
  | none =>
    let checkpoint := p.checkpoint
    if ← speculate (call leading) then
      call rule
      if (← get).succeededSince checkpoint then return
      let failed := (← get).failedSince checkpoint
      modify fun p => p.rewind checkpoint
      call other
      if (← get).succeededSince checkpoint then return
      modify fun p => p.rewind checkpoint
      modify fun p => p.replay failed
      modify fun p => p.remember key failed
    else
      call other
      if (← get).succeededSince checkpoint then return
      modify fun p => p.rewind checkpoint
      call rule
      if (← get).succeededSince checkpoint then throw .assertion
      let failed := (← get).failedSince checkpoint
      modify fun p => p.remember key failed

/-- The plain definition that `preferWithPrefix` is meant to agree with: run `rule`, fall back to
`other` when it recorded an error, and keep what `rule` did when both fail. -/
def prefer (call : ρ → ParserM ρ Unit) (rule other : ρ) : ParserM ρ Unit := do
  let checkpoint := (← get).checkpoint
  call rule
  if (← get).succeededSince checkpoint then return
  let failed := (← get).failedSince checkpoint
  modify fun p => p.rewind checkpoint
  call other
  if (← get).succeededSince checkpoint then return
  modify fun p => p.rewind checkpoint
  modify fun p => p.replay failed

/-- The parser moved to `index`, with more output and more errors. -/
def extend (s : Parser ρ) (index : ℕ) (events : List Event) (errors : List ParserError) :
    Parser ρ :=
  { s with index := index, output := s.output ++ events, errors := s.errors ++ errors }

section Extend

variable (s : Parser ρ) (index : ℕ) (events : List Event) (errors : List ParserError)

/-- An extension succeeded if it has no errors. -/
lemma succeededSince_extend :
    (s.extend index events errors).succeededSince s.checkpoint = errors.isEmpty := by
  cases errors <;> simp [succeededSince, checkpoint, extend]

/-- Going back to a checkpoint undoes what was done since. -/
lemma rewind_extend : (s.extend index events errors).rewind s.checkpoint = s := by
  simp [rewind, checkpoint, extend]

lemma failedSince_extend :
    (s.extend index events errors).failedSince s.checkpoint = ⟨index, events, errors⟩ := by
  simp [failedSince, checkpoint, extend]

/-- Without the counter there is nothing to reset. -/
lemma refuel_eq_self (hfree : s.fuel = none) : s.refuel = s := by
  cases s
  subst hfree
  rfl

lemma replay_eq_extend (hfree : s.fuel = none) :
    s.replay ⟨index, events, errors⟩ = s.extend index events errors := by
  simp [replay, extend, s.refuel_eq_self hfree]

end Extend

end Parser

namespace NodeMarker

variable {ρ : Type}

/-- `NodeMarker::end`. -/
def finish (m : NodeMarker) (kind : SyntaxKind) : ParserM ρ Unit := do
  let p ← get
  match p.output[m.index]? with
  | some (.Start _) => set { p with output := p.output.set m.index (.Start kind) ++ [Event.Finish] }
  | some _ => throw .unreachable
  | none => throw .outOfBounds

/-- `NodeMarker::cancel`.  The comparison is that of the source, `index == output.len() - 1`, which
an empty output would not pass either. -/
def cancel (m : NodeMarker) : ParserM ρ Unit := do
  let p ← get
  if m.index + 1 = p.output.length then
    match p.output.getLast? with
    | some (.Start .Node) => set { p with output := p.output.dropLast }
    | _ => throw .unreachable

/-- `NodeMarker::end_non_empty`. -/
def finishNonEmpty (m : NodeMarker) (kind : SyntaxKind) : ParserM ρ Unit := do
  if (← get).index > m.tokenIndex then m.finish kind
  else m.cancel

end NodeMarker

end Iris.Parsing
