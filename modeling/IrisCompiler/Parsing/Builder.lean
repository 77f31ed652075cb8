import IrisCompiler.Library.TreeBuilder
import IrisCompiler.Lexing.Lexed
import IrisCompiler.Parsing.Grammar.Module

/-!
# The tree builder

`builder::build` (`compiler-frontend/parsing/src/builder.rs`) turns the events of the parser into a
syntax tree.  The parser says in which order tokens, nodes and errors come; how long a token is, and
how long the annotation and the qualifier before it are, the builder looks up in the lexed tokens.
The annotation is placed when the parser asks for it, or else with the token, and so is the
qualifier.

The tree itself is made by a builder of a library, whose text index is a `u32`.  It is a parameter:
any builder whose operations do to the tree what their names say (`TreeBuilder.Implementation`).
-/

namespace Iris.Parsing

open Lexing

abbrev SyntaxTree := TreeBuilder.Tree SyntaxKind

/-- The library's builder. -/
abbrev TreeLibrary := TreeBuilder.Implementation SyntaxKind (2 ^ 32)

/-- A message of the lexer, or an error of the parser before it is formatted. -/
inductive ErrorMessage where
  | lexer (message : String)
  | parser (error : ParserError)
  deriving DecidableEq, Repr

structure ParseError where
  offset : ℕ
  position : Position
  message : ErrorMessage
  deriving DecidableEq, Repr

/-- How the builder stops short. -/
inductive BuildPanic where
  /-- The text is too long for the index type of the tree. -/
  | capacity
  | unbalanced
  | missingError
  | unconsumedError
  | outOfBounds
  | noRoot
  | parser (panic : Panic)
  deriving DecidableEq, Repr

structure Builder (T : TreeLibrary) where
  index : ℕ
  previousEnd : ℕ
  annotationEnd : ℕ
  qualifierEnd : ℕ
  tokenEnd : ℕ
  position : Position
  annotated : Bool
  qualified : Bool
  builder : T.State
  errors : List ParseError

abbrev BuilderM (T : TreeLibrary) := StateT (Builder T) (Except BuildPanic)

namespace Builder

variable {T : TreeLibrary} (lexed : Lexed)

def new : Except BuildPanic (Builder T) :=
  match lexed.info 0 with
  | none => .error .outOfBounds
  | some info =>
    .ok {
      index := 0
      previousEnd := 0
      annotationEnd := info.annotation
      qualifierEnd := info.qualifier
      tokenEnd := info.token
      position := info.position
      annotated := false
      qualified := false
      builder := T.new
      errors := [] }

def start (kind : SyntaxKind) : BuilderM T Unit :=
  if kind ≠ .Node then modify fun self => { self with builder := T.start self.builder kind }
  else pure ()

def finish : BuilderM T Unit := do
  let self ← get
  match T.close self.builder with
  | some builder => set { self with builder }
  | none => throw .unbalanced

/-- `self.builder.token(SyntaxValue::token(kind), length)`. -/
def leaf (kind : SyntaxKind) (length : ℕ) : BuilderM T Unit := do
  let self ← get
  match T.token self.builder kind length with
  | some builder => set { self with builder }
  | none => throw .capacity

/-- `self.builder.token_empty(SyntaxValue::token(kind))`. -/
def emptyLeaf (kind : SyntaxKind) : BuilderM T Unit :=
  modify fun self => { self with builder := T.tokenEmpty self.builder kind }

def annotate : BuilderM T Unit := do
  let self ← get
  if !self.annotated ∧ self.previousEnd < self.annotationEnd then
    start SyntaxKind.Annotation
    leaf .TEXT (self.annotationEnd - self.previousEnd)
    finish
  modify fun self => { self with annotated := true }

def qualify : BuilderM T Unit := do
  let self ← get
  if !self.qualified ∧ self.annotationEnd < self.qualifierEnd then
    start .Qualifier
    leaf .TEXT (self.qualifierEnd - self.annotationEnd)
    finish
  modify fun self => { self with qualified := true }

def error (message : ErrorMessage) : BuilderM T Unit := do
  emptyLeaf .ERROR
  modify fun self =>
    let error := { offset := self.qualifierEnd, position := self.position, message }
    { self with errors := self.errors ++ [error] }

/-- The builder after the token at its index. -/
def next (self : Builder T) : Builder T :=
  let moved := { self with
    previousEnd := self.tokenEnd
    index := self.index + 1
    annotated := false
    qualified := false }
  match lexed.info moved.index with
  | some info =>
    { moved with
      annotationEnd := info.annotation
      qualifierEnd := info.qualifier
      tokenEnd := info.token
      position := info.position }
  | none => moved

def token (kind : SyntaxKind) : BuilderM T Unit := do
  if kind.isLayoutToken then emptyLeaf kind
  else
    annotate
    unless (← get).index < lexed.len do
      throw .outOfBounds
    if let some message := lexed.error (← get).index then error (.lexer message)
    qualify
    if kind ≠ .ERROR then
      let self ← get
      leaf kind (asU32 (self.tokenEnd + 2 ^ 32 - self.qualifierEnd))
    modify (next lexed)

/-- One event, with the errors of the parser that are left. -/
def event (errors : List ParserError) : Event → BuilderM T (List ParserError)
  | .Start kind => do
    start kind
    return errors
  | .Annotate => do
    annotate
    return errors
  | .Qualify => do
    qualify
    return errors
  | .Token kind => do
    token lexed kind
    return errors
  | .Error =>
    match errors with
    | [] => throw .missingError
    | reason :: errors => do
      error (.parser reason)
      return errors
  | .Finish => do
    finish
    return errors

/-- The root of the tree and the errors. -/
def build (self : Builder T) : Except BuildPanic (SyntaxTree × List ParseError) :=
  match T.build self.builder with
  | none => .error .unbalanced
  | some [] => .error .noRoot
  | some (root :: _) => .ok (root, self.errors)

end Builder

def build (T : TreeLibrary) (lexed : Lexed) (events : List Event) (errors : List ParserError) :
    Except BuildPanic (SyntaxTree × List ParseError) := do
  let builder : Builder T ← Builder.new lexed
  let (rest, builder) ← (events.foldlM (Builder.event lexed) errors).run builder
  if rest ≠ [] then throw .unconsumedError
  builder.build

/-- `parsing::parse`. -/
def parse (T : TreeLibrary) (depth : ℕ) (fuel : Option ℕ) (lexed : Lexed)
    (tokens : List SyntaxKind) : Except BuildPanic (SyntaxTree × List ParseError) :=
  match parseModule depth fuel tokens with
  | .error panic => .error (.parser panic)
  | .ok parser => build T lexed parser.output parser.errors

end Iris.Parsing
