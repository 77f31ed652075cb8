import IrisCompiler.Lexing.Categories
import IrisCompiler.Lexing.Lexed
import IrisCompiler.Library.TotalRun

/-!
# The lexer

`lexing/src/lexer.rs`, method by method.  A lexer borrows its source text, so the source is a
parameter of the state and the characters still to be read are a suffix of it by construction.  The
methods take `&mut self`: they are computations over the state that can stop with a `Fault`, which
is a panic of the source or a loop that never ends.

Every loop of the lexer that ends takes a character in each round, so the characters that remain
bound its rounds; a loop that exceeds the bound is the fault `diverges`.  Offsets and positions are
`u32` in the source and wrap around here as they do there.
-/

namespace Iris.Lexing

open ByteText TotalRun

/-! ## Kinds of names and operators -/

def operatorKind (source : List Char) : SyntaxKind :=
  match String.ofList source with
  | "∷" => .DOUBLE_COLON
  | "←" => .LEFT_ARROW
  | "→" => .RIGHT_ARROW
  | "⇐" => .LEFT_THICK_ARROW
  | "⇒" => .RIGHT_THICK_ARROW
  | "∀" => .FORALL
  | "=" => .EQUAL
  | ":" => .COLON
  | "::" => .DOUBLE_COLON
  | "." => .PERIOD
  | ".." => .DOUBLE_PERIOD
  | "<-" => .LEFT_ARROW
  | "->" => .RIGHT_ARROW
  | "<=" => .LEFT_THICK_ARROW
  | "=>" => .RIGHT_THICK_ARROW
  | "|" => .PIPE
  | "@" => .AT
  | "-" => .MINUS
  | "\\" => .BACKSLASH
  | _ => .OPERATOR

def lowerKind (source : List Char) : SyntaxKind :=
  match String.ofList source with
  | "ado" => .ADO
  | "as" => .AS
  | "case" => .CASE
  | "class" => .CLASS
  | "data" => .DATA
  | "derive" => .DERIVE
  | "do" => .DO
  | "else" => .ELSE
  | "false" => .FALSE
  | "forall" => .FORALL
  | "foreign" => .FOREIGN
  | "hiding" => .HIDING
  | "if" => .IF
  | "import" => .IMPORT
  | "in" => .IN
  | "infix" => .INFIX
  | "infixl" => .INFIXL
  | "infixr" => .INFIXR
  | "instance" => .INSTANCE
  | "let" => .LET
  | "module" => .MODULE
  | "newtype" => .NEWTYPE
  | "nominal" => .NOMINAL
  | "of" => .OF
  | "phantom" => .PHANTOM
  | "representational" => .REPRESENTATIONAL
  | "role" => .ROLE
  | "then" => .THEN
  | "true" => .TRUE
  | "type" => .TYPE
  | "where" => .WHERE
  | _ => .LOWER

/-! ## The state -/

/-- What stops the lexer before it returns. -/
inductive Fault where
  /-- An `unreachable!` branch was reached. -/
  | unreachable
  /-- An `assert_eq!` failed. -/
  | assertion
  /-- A text was sliced out of range or inside a character. -/
  | slice
  /-- A loop went on after its bound. -/
  | diverges
  deriving DecidableEq, Repr

/-- The iterator over the characters of the source: what it has not returned yet. -/
structure Chars (source : List Char) where
  rest : List Char
  suffix : rest <:+ source

namespace Chars

variable {source : List Char}

def next (self : Chars source) : Option Char × Chars source :=
  (self.rest.head?, ⟨self.rest.tail, (List.tail_suffix _).trans self.suffix⟩)

end Chars

structure Lexer (source : List Char) where
  chars : Chars source
  annotation : ℕ
  qualifier : ℕ
  qualifierPosition : Position
  currentPosition : Position
  lexed : LexedBuilder

/-- A method of the lexer. -/
abbrev LexerM (source : List Char) := StateT (Lexer source) (Except Fault)

/-- What `first` and `second` return at the end of the text. -/
def EOF_CHAR : Char := '\x00'

/-- The position after a character that starts at this one. -/
def Position.after (self : Position) (c : Char) : Position :=
  if c = '\n' then ⟨asU32 (self.line + 1), 1⟩ else ⟨self.line, asU32 (self.column + c.utf8Size)⟩

namespace Lexer

variable {source : List Char}

/-- The lexer that `new` sets up, before it takes the first annotation and qualifier. -/
def start (source : List Char) : Lexer source where
  chars := ⟨source, List.suffix_rfl⟩
  annotation := 0
  qualifier := 0
  qualifierPosition := ⟨1, 1⟩
  currentPosition := ⟨1, 1⟩
  lexed := .new source

section Observations

variable (self : Lexer source)

def isEof : Bool := self.chars.rest.isEmpty

def first : Char := self.chars.next.1.getD EOF_CHAR

def second : Char := self.chars.next.2.next.1.getD EOF_CHAR

def consumed : ℕ := byteLength source - byteLength self.chars.rest

lemma first_eq : self.first = self.chars.rest.head?.getD EOF_CHAR := rfl

lemma second_eq : self.second = self.chars.rest.tail.head?.getD EOF_CHAR := rfl

end Observations

/-! ## Loops -/

/-- A loop with variables of its own. -/
def repeatLoop {τ ρ : Type} (body : τ → LexerM source (Turn τ ρ)) (x : τ) : LexerM source ρ := do
  loop .diverges body ((← get).chars.rest.length + 1) x

/-- `while condition { body }`. -/
def whileLoop (condition : Lexer source → Bool) (body : LexerM source Unit) : LexerM source Unit :=
  repeatLoop (fun () => do
    if condition (← get) then
      body
      return .again ()
    else return .leave ()) ()

/-! ## Taking characters -/

def take : LexerM source Char := do
  let lexer ← get
  let c := lexer.chars.next.1.getD EOF_CHAR
  set { lexer with
    chars := lexer.chars.next.2
    currentPosition := lexer.currentPosition.after c }
  return c

def takeWhile (predicate : Char → Bool) : LexerM source Unit :=
  whileLoop (fun lexer => predicate lexer.first && !lexer.isEof) do
    let _ ← take

def takeWhileMaximum (predicate : Char → Bool) : ℕ → LexerM source Unit
  | 0 => return ()
  | maximum + 1 => do
    let lexer ← get
    if predicate lexer.first && !lexer.isEof then
      let _ ← take
      takeWhileMaximum predicate maximum
    else return ()

/-- `&self.source[low..high]` -/
def sourceText (low high : ℕ) : LexerM source (List Char) :=
  match slice source low high with
  | some text => return text
  | none => throw .slice

/-! ## Annotations and qualifiers -/

variable (unicode : UnicodeTables)

def takeAnnotationWhitespace : LexerM source Unit := takeWhile unicode.isWhitespace

def takeAnnotationLineComment : LexerM source Unit := do
  let _ ← take
  let _ ← take
  takeWhile fun c => c != '\n'

/-- The nesting level is an `i32`. -/
def takeAnnotationBlockComment : LexerM source Unit := do
  let _ ← take
  let _ ← take
  repeatLoop (fun (level : Int) => do
    let lexer ← get
    if level > 0 ∧ ¬ lexer.isEof then
      if lexer.first = '{' ∧ lexer.second = '-' then
        let _ ← take
        let _ ← take
        return .again ((level + 1).bmod (2 ^ 32))
      else if lexer.first = '-' ∧ lexer.second = '}' then
        let _ ← take
        let _ ← take
        return .again ((level - 1).bmod (2 ^ 32))
      else
        let _ ← take
        return .again level
    else return .leave ()) 1

/-- The annotation ends here. -/
def annotated (self : Lexer source) : Lexer source :=
  { self with
    annotation := asU32 self.consumed
    qualifierPosition := self.currentPosition }

/-- The qualifier ends here. -/
def qualified (self : Lexer source) : Lexer source := { self with qualifier := asU32 self.consumed }

def takeAnnotation : LexerM source Unit := do
  repeatLoop (fun () => do
    let lexer ← get
    if unicode.isWhitespace lexer.first then
      takeAnnotationWhitespace unicode
      return .again ()
    else if lexer.first = '-' ∧ lexer.second = '-' then
      takeAnnotationLineComment
      return .again ()
    else if lexer.first = '{' ∧ lexer.second = '-' then
      takeAnnotationBlockComment
      return .again ()
    else return .leave ()) ()
  modify annotated

def takeQualifier : LexerM source Unit := do
  repeatLoop (fun () => do
    let checkpoint ← get
    if unicode.isUpperStart checkpoint.first then
      takeWhile unicode.isName
      if (← get).first = '.' then
        let _ ← take
        return .again ()
      else
        -- Not a module name after all: back to where the name starts.
        modify fun lexer => { lexer with
          chars := checkpoint.chars
          annotation := checkpoint.annotation
          qualifier := checkpoint.qualifier
          qualifierPosition := checkpoint.qualifierPosition
          currentPosition := checkpoint.currentPosition }
        return .leave ()
    else return .leave ()) ()
  modify qualified

/-! ## Tokens -/

/-- The info of a token that ends where the lexer stands. -/
def info (self : Lexer source) : SyntaxKindInfo where
  annotation := self.annotation
  qualifier := self.qualifier
  token := asU32 self.consumed
  position := self.qualifierPosition

/-- `self.lexed.push(kind, info, error)` -/
def pushed (self : Lexer source) (kind : SyntaxKind) (info : SyntaxKindInfo)
    (error : Option String) : Lexer source :=
  { self with lexed := self.lexed.push kind info error }

@[simp] lemma pushed_consumed (self : Lexer source) (kind info error) :
    (self.pushed kind info error).consumed = self.consumed := rfl

@[simp] lemma pushed_tokens (self : Lexer source) (kind info error) :
    (self.pushed kind info error).lexed.tokens = self.lexed.tokens ++ [(kind, info)] :=
  LexedBuilder.push_tokens _ _ _ _

@[simp] lemma pushed_source (self : Lexer source) (kind info error) :
    (self.pushed kind info error).lexed.source = self.lexed.source :=
  LexedBuilder.push_source _ _ _ _

def pushInfo (kind : SyntaxKind) (info : SyntaxKindInfo) (error : Option String) :
    LexerM source Unit :=
  modify fun lexer => lexer.pushed kind info error

def push (kind : SyntaxKind) (error : Option String) : LexerM source Unit := do
  pushInfo kind (← get).info error

def takeKind (kind : SyntaxKind) : LexerM source Unit := do
  let _ ← take
  push kind none

def takeOperatorKind : LexerM source SyntaxKind := do
  let start := (← get).consumed
  takeWhile unicode.isOperator
  let finish := (← get).consumed
  return operatorKind (← sourceText start finish)

def takeOperatorNameOrLeftParenthesis : LexerM source Unit := do
  let lpPosition := (← get).qualifierPosition
  let _ ← take
  let lexer ← get
  let lpInfo := { lexer.info with position := lpPosition }
  let lineComment := lexer.first = '-' ∧ lexer.second = '-' ∧
    lexer.chars.rest.find? (fun c => !unicode.isOperator c) ≠ some ')'
  if ¬ unicode.isOperator lexer.first ∨ lineComment then pushInfo .LEFT_PARENTHESIS lpInfo none
  else
    let opPosition := lexer.currentPosition
    let opKind ← takeOperatorKind unicode
    let lexer ← get
    if lexer.first ≠ ')' then
      pushInfo .LEFT_PARENTHESIS lpInfo none
      -- The operator's annotation and qualifier are zero-width.
      pushInfo opKind ⟨lpInfo.token, lpInfo.token, asU32 lexer.consumed, opPosition⟩ none
    else
      let _ ← take
      let rpToken := asU32 (← get).consumed
      let opNameKind := match opKind with
        | .DOUBLE_PERIOD => .DOUBLE_PERIOD_OPERATOR_NAME
        | _ => .OPERATOR_NAME
      pushInfo opNameKind { lpInfo with token := rpToken, position := lpPosition } none

def takeOperator : LexerM source Unit := do
  let kind ← takeOperatorKind unicode
  push kind none

/-- `\x27` is the single quote. -/
def takeChar : LexerM source Unit := do
  let _ ← take
  repeatLoop (fun () => do
    let lexer ← get
    if lexer.isEof ∨ lexer.first = '\x27' then return .leave ()
    else if lexer.first = '\\' ∧ (lexer.second = '\\' ∨ lexer.second = '\x27') then
      let _ ← take
      let _ ← take
      return .again ()
    else
      let _ ← take
      return .again ()) ()
  if (← get).first = '\x27' then
    let _ ← take
    push .CHAR none
  else push .CHAR (some "Unterminated character literal")

/-- `\x22` is the double quote. -/
def takeNormalString : LexerM source Unit := do
  repeatLoop (fun () => do
    let lexer ← get
    if lexer.isEof ∨ lexer.first = '\x22' then return .leave ()
    else if lexer.first = '\\' ∧ unicode.isWhitespace lexer.second then
      -- A gap: whitespace between two backslashes.
      let _ ← take
      takeWhile unicode.isWhitespace
      if (← get).first = '\\' then let _ ← take
      return .again ()
    else if lexer.first = '\\' ∧ (lexer.second = '\\' ∨ lexer.second = '\x22') then
      let _ ← take
      let _ ← take
      return .again ()
    else
      let _ ← take
      return .again ()) ()
  if (← get).first = '\x22' then
    let _ ← take
    push .STRING none
  else push .STRING (some "Unterminated single quoted string literal")

def takeRawString : LexerM source Unit := do
  let error ← repeatLoop (fun () => do
    takeWhile fun c => c != '\x22'
    let string := (← get).consumed
    takeWhileMaximum (fun c => c == '\x22') 5
    let quotes := (← get).consumed - string
    match quotes with
    | 0 => return .leave (some "Unterminated triple quoted string literal")
    | 1 | 2 => return .again ()
    | 3 | 4 | 5 => return .leave none
    | _ => throw .unreachable) ()
  push .RAW_STRING error

def takeString : LexerM source Unit := do
  let string := (← get).consumed
  takeWhileMaximum (fun c => c == '\x22') 8
  let quotes := (← get).consumed - string
  match quotes with
  | 1 => takeNormalString unicode
  | 2 => push .STRING none
  | 3 | 4 | 5 => takeRawString
  | 6 | 7 | 8 => push .RAW_STRING none
  | _ => throw .unreachable

def takeHole : LexerM source Unit := do
  if (← take) ≠ '?' then throw .assertion
  takeWhile unicode.isName
  push .HOLE none

def takeLower : LexerM source Unit := do
  let start := (← get).consumed
  takeWhile unicode.isName
  let finish := (← get).consumed
  let kind := lowerKind (← sourceText start finish)
  push kind none

def takeUpper : LexerM source Unit := do
  let _ ← take
  takeWhile unicode.isName
  push .UPPER none

/-- The fraction in `take_integer_or_number`, with the kind of the literal so far. -/
def takeFraction : LexerM source SyntaxKind := do
  if (← get).first = '.' then
    let _ ← take
    takeWhile fun c => c.isDigit || c == '_'
    return .NUMBER
  else return .INTEGER

/-- The exponent in `take_integer_or_number`, with the kind of the literal after it. -/
def takeExponent (kind : SyntaxKind) : LexerM source SyntaxKind := do
  if (← get).first = 'e' ∨ (← get).first = 'E' then
    let _ ← take
    if (← get).first = '+' ∨ (← get).first = '-' then let _ ← take
    takeWhile fun c => c.isDigit || c == '_'
    return .NUMBER
  else return kind

def takeIntegerOrNumber : LexerM source Unit := do
  let lexer ← get
  let error :=
    if lexer.first = '0' ∧ lexer.second = '0' then some "Too many leading zeros" else none
  takeWhile fun c => c.isDigit || c == '_'
  let lexer ← get
  if lexer.first = 'x' then
    let _ ← take
    takeWhile isAsciiHexdigit
    push .INTEGER error
  else if lexer.first = '.' ∧ lexer.second = '.' then
    -- A range: `1..2` is an integer, two periods and an integer.
    push .INTEGER error
  else
    let kind ← takeFraction
    let kind ← takeExponent kind
    push kind error

/-- `\x60` is the backtick. -/
def takeTokenImpl : LexerM source Unit := do
  let lexer ← get
  let i := lexer.first
  if unicode.isWhitespace i then push .ERROR (some "Expected a token")
  else if i = '-' ∧ lexer.second = '-' then push .ERROR (some "Expected a token")
  else if i = '{' ∧ lexer.second = '-' then push .ERROR (some "Expected a token")
  else if i = '(' then takeOperatorNameOrLeftParenthesis unicode
  else if i = ')' then takeKind .RIGHT_PARENTHESIS
  else if i = '{' then takeKind .LEFT_CURLY
  else if i = '}' then takeKind .RIGHT_CURLY
  else if i = '[' then takeKind .LEFT_SQUARE
  else if i = ']' then takeKind .RIGHT_SQUARE
  else if i = '\x60' then takeKind .TICK
  else if i = ',' then takeKind .COMMA
  else if i = '?' ∧ ¬ unicode.isName lexer.second then takeOperator unicode
  else if i = '_' ∧ ¬ unicode.isName lexer.second then takeKind .UNDERSCORE
  else if i = '\x27' then takeChar
  else if i = '\x22' then takeString unicode
  else if i = '?' then takeHole unicode
  else if unicode.isLowerStart i then takeLower unicode
  else if unicode.isUpperStart i then takeUpper unicode
  else if unicode.isOperator i then takeOperator unicode
  else if i.isDigit then takeIntegerOrNumber
  else
    let _ ← take
    push .ERROR (some "Invalid token")

def takeToken : LexerM source Unit := do
  takeTokenImpl unicode
  takeAnnotation unicode
  takeQualifier unicode

/-- The rest of `new`, on the lexer that `start` sets up. -/
def new : LexerM source Unit := do
  takeAnnotation unicode
  takeQualifier unicode

def finish : LexerM source Unit := do
  let lexer ← get
  if lexer.qualifier > lexer.annotation then push .END_OF_FILE (some "Unexpected end of file")
  else push .END_OF_FILE none

end Lexer

open Lexer in
/-- The body of `lex`, on the lexer that `start` sets up. -/
def lexAll {source : List Char} (unicode : UnicodeTables) : LexerM source Unit := do
  new unicode
  whileLoop (fun lexer => !lexer.isEof) (takeToken unicode)
  finish

def lex (unicode : UnicodeTables) (source : List Char) : Except Fault Lexed := do
  let ((), lexer) ← (lexAll unicode).run (Lexer.start source)
  return lexer.lexed.build

example :
    (lex asciiTables "f (+ A.x) = A. 00 -- n".toList).map (fun lexed =>
      (lexed.tokens.map (fun t => (t.1, SyntaxKindInfo.annotation t.2, t.2.qualifier, t.2.token)),
        lexed.errors)) =
    .ok ([(.LOWER, 0, 0, 1), (.LEFT_PARENTHESIS, 2, 2, 3), (.OPERATOR, 3, 3, 4), (.LOWER, 5, 7, 8),
      (.RIGHT_PARENTHESIS, 8, 8, 9), (.EQUAL, 10, 10, 11), (.ERROR, 12, 14, 14),
      (.INTEGER, 15, 15, 17), (.END_OF_FILE, 22, 22, 22)],
      [⟨"Expected a token", 6⟩, ⟨"Too many leading zeros", 7⟩]) := by
  decide +kernel

end Iris.Lexing
