import IrisCompiler.Lexing.Lexed

/-!
# The layout algorithm

`lexing::layout` walks over the lexed tokens once and inserts `LAYOUT_START`, `LAYOUT_SEPARATOR` and
`LAYOUT_END`.  Its state is a stack of delimiters; every source token is one transition
(`Insert.invoke`).

The source keeps the stack in a vector whose last element is the top.  Here the top is the head of a
list, so the slice pattern `[.., (_, Ado), (_, LetStmt)]` reads `(_, LetStmt) :: (_, Ado) :: _`.  A
branch that panics in the source returns `none`.
-/

namespace Iris.Lexing

/-- What a stack entry was opened by. -/
inductive Delimiter where
  | Root | TopDecl | TopDeclHead | DeclGuard | Case | CaseBinders | CaseGuard | LambdaBinders
  | Paren | Brace | Square | If | Then | Property | Forall | Tick | Let | LetStmt | Where | Of
  | Do | Ado
  deriving DecidableEq, Repr

/-- The delimiters that open a block, and so are matched by a `LAYOUT_START` in the output. -/
def Delimiter.isIndented : Delimiter → Bool
  | .Let | .LetStmt | .Where | .Of | .Do | .Ado => true
  | _ => false

/-- The state of the walk. -/
structure Layout where
  lexed : Lexed
  index : ℕ
  stack : List (Position × Delimiter)
  output : List SyntaxKind

namespace Layout

/-- The machine before the first token: the stack holds the root. -/
def new (lexed : Lexed) : Layout := { lexed, index := 0, stack := [(⟨1, 1⟩, .Root)], output := [] }

/-- Whether the machine is at the last token. -/
def isEof (self : Layout) : Option Bool := do
  return (← self.lexed.kind self.index) = .END_OF_FILE

/-- One iteration of the `while let` of `Layout::finish`. -/
def finishStep (self : Layout) : Option Layout :=
  match self.stack with
  | [] => none
  | (_, delimiter) :: stack =>
    some { self with
      stack
      output := if delimiter.isIndented then self.output ++ [.LAYOUT_END] else self.output }

/-- The `while let` itself: one iteration for each entry of the stack. -/
def finishLoop : ℕ → Layout → Layout
  | 0, self => self
  | fuel + 1, self =>
    match self.finishStep with
    | some next => finishLoop fuel next
    | none => self

/-- `Layout::finish`: drain the stack, closing every block that is still open. -/
def finish (self : Layout) : List SyntaxKind :=
  (finishLoop self.stack.length self).output ++ [.END_OF_FILE]

end Layout

/-- How far a run of delimiters can be closed: what is left of the stack, and how many
`LAYOUT_END`s that takes. -/
structure Collapse where
  stackLen : ℕ
  endTokens : ℕ

namespace Collapse

/-- The stack as it is once the run is closed. -/
def preview (self : Collapse) (machine : Layout) : List (Position × Delimiter) :=
  machine.stack.drop (machine.stack.length - self.stackLen)

/-- Close the run. -/
def commit (self : Collapse) (machine : Layout) : Layout :=
  { machine with
    stack := self.preview machine
    output := machine.output ++ List.replicate self.endTokens .LAYOUT_END }

end Collapse

/-- One transition: the token being inserted, and the machine it is inserted into. -/
structure Insert where
  layout : Layout
  token : SyntaxKind
  qualified : Bool
  position : Position
  next : Position

namespace Insert

/-! ## Primitive moves -/

def insertToken (self : Insert) (token : SyntaxKind) : Insert :=
  { self with layout := { self.layout with output := self.layout.output ++ [token] } }

def insertSeparator (self : Insert) : Insert := self.insertToken .LAYOUT_SEPARATOR

def insertEnd (self : Insert) : Insert := self.insertToken .LAYOUT_END

def pushStack (self : Insert) (position : Position) (delimiter : Delimiter) : Insert :=
  { self with layout := { self.layout with stack := (position, delimiter) :: self.layout.stack } }

def popStack (self : Insert) : Insert :=
  { self with layout := { self.layout with stack := self.layout.stack.tail } }

/-- Pop the stack if its top is as asked; the source does not expect an empty stack. -/
def popStackIf (self : Insert) (predicate : Delimiter → Bool) : Option Insert :=
  match self.layout.stack with
  | (_, delimiter) :: _ => if predicate delimiter then some self.popStack else some self
  -- `None => unreachable!()`
  | [] => none

/-! ## Predicates over a stack entry -/

/-- The token is in the column of the entry, on another line. -/
def sepP (self : Insert) (position : Position) : Bool :=
  self.position.column = position.column ∧ self.position.line ≠ position.line

/-- The token separates two items of the block. -/
def indentSepP (self : Insert) (position : Position) (delimiter : Delimiter) : Bool :=
  delimiter.isIndented && self.sepP position

/-- The entry opens a block. -/
def indentedP (_ : Insert) (_ : Position) (delimiter : Delimiter) : Bool := delimiter.isIndented

/-- The token is to the left of the block. -/
def offsideP (self : Insert) (position : Position) (delimiter : Delimiter) : Bool :=
  delimiter.isIndented && decide (self.position.column < position.column)

/-- The token is not to the right of the column of the block. -/
def offsideEndP (self : Insert) (position : Position) (delimiter : Delimiter) : Bool :=
  delimiter.isIndented && decide (self.position.column ≤ position.column)

/-- What `where` closes: every `do`, and blocks it does not stand to the right of. -/
def whereP (self : Insert) (position : Position) (delimiter : Delimiter) : Bool :=
  match delimiter with
  | .Do => true
  | _ => self.offsideEndP position delimiter

/-- What `in` closes: the blocks above its `let` or `ado`. -/
def inP (_ : Insert) (_ : Position) (delimiter : Delimiter) : Bool :=
  match delimiter with
  | .Let | .Ado => false
  | _ => delimiter.isIndented

/-- What `->` closes: every `do`, and blocks but those of `of` that it does not stand to the right
of. -/
def arrowP (self : Insert) (position : Position) (delimiter : Delimiter) : Bool :=
  match delimiter with
  | .Do => true
  | .Of => false
  | _ => self.offsideEndP position delimiter

/-- What `=` closes: the blocks of declarations. -/
def equalsP (_ : Insert) (_ : Position) (delimiter : Delimiter) : Bool :=
  match delimiter with
  | .Where | .Let | .LetStmt => true
  | _ => false

/-! ## Collapsing -/

/-- Walk down from the top of the stack while `predicate` holds. -/
def collapse (self : Insert) (predicate : Insert → Position → Delimiter → Bool) : Collapse :=
  loop self.layout.stack ⟨self.layout.stack.length, 0⟩
where
  loop : List (Position × Delimiter) → Collapse → Collapse
    | [], acc => acc
    | (position, delimiter) :: rest, acc =>
      if predicate self position delimiter then
        loop rest
          { stackLen := acc.stackLen - 1
            endTokens := if delimiter.isIndented then acc.endTokens + 1 else acc.endTokens }
      else acc

def commit (self : Insert) (collapse : Collapse) : Insert :=
  { self with layout := collapse.commit self.layout }

/-- Close the run of entries for which the predicate holds. -/
def collapseAndCommit (self : Insert) (predicate : Insert → Position → Delimiter → Bool) : Insert :=
  self.commit (self.collapse predicate)

/-! ## Composite moves -/

/-- Whether the token starts a declaration of the module's own block. -/
def isTopDeclaration (self : Insert) (tokenPosition : Position) : Bool :=
  match self.layout.stack with
  | [(layoutPosition, .Where), (_, .Root)] => tokenPosition.column = layoutPosition.column
  | _ => false

/-- Open a block at the next token, unless it is not indented past the enclosing block. -/
def insertStart (self : Insert) (delimiter : Delimiter) : Insert :=
  match self.layout.stack.find? (fun entry => entry.2.isIndented) with
  | some (pastPosition, _) =>
    if self.next.column ≤ pastPosition.column then self
    else (self.pushStack self.next delimiter).insertToken .LAYOUT_START
  | none => (self.pushStack self.next delimiter).insertToken .LAYOUT_START

/-- A separator, where the token begins another item of the block on top. -/
def insertSep (self : Insert) : Insert :=
  match self.layout.stack with
  | (position, delimiter) :: _ =>
    if delimiter = .TopDecl ∧ self.sepP position then self.popStack.insertSeparator
    else if delimiter = .TopDeclHead ∧ self.sepP position then self.popStack.insertSeparator
    else if self.indentSepP position delimiter then
      match delimiter with
      | .Of => self.insertSeparator.pushStack self.position .CaseBinders
      | _ => self.insertSeparator
    else self
  | [] => self

/-- What most tokens do: close the blocks that they are to the left of, then separate. -/
def insertDefault (self : Insert) : Insert :=
  let self := self.collapseAndCommit offsideP
  let self := self.insertSep
  self.insertToken self.token

/-- A keyword that is a record label instead, right behind a brace, a comma or a period. -/
def insertKeywordProperty (self : Insert) (callback : Insert → Insert) : Insert :=
  let self := self.insertDefault
  match self.layout.stack with
  | (_, .Property) :: _ => self.popStack
  | _ => callback self

end Insert

/-- Keywords that are also names where a record label or a variable may stand. -/
def lowerSet : TokenSet :=
  [.ADO, .AS, .CASE, .CLASS, .DATA, .DERIVE, .DO, .ELSE, .FALSE, .FORALL, .FOREIGN, .HIDING, .IF,
   .IMPORT, .IN, .INFIX, .INFIXL, .INFIXR, .INSTANCE, .LET, .LOWER, .MODULE, .NEWTYPE, .NOMINAL,
   .OF, .PHANTOM, .REPRESENTATIONAL, .ROLE, .THEN, .TRUE, .TYPE, .WHERE]

/-- The tokens that continue an expression of the line before. -/
def operatorSet : TokenSet := [.OPERATOR, .MINUS, .COLON, .DOUBLE_PERIOD, .LEFT_THICK_ARROW]

namespace Insert

/-! ## The transition -/

def isProperty (delimiter : Delimiter) : Bool := delimiter = .Property

/-- The arm of `data` and `class`: push `delimiter` for a declaration of the module. -/
def insertDeclaration (self : Insert) (delimiter : Delimiter) : Option Insert :=
  let self := self.insertDefault
  if self.isTopDeclaration self.position then some (self.pushStack self.position delimiter)
  else self.popStackIf isProperty

/-- `where` ends the head of a class, or opens a block of declarations. -/
def insertWhere (self : Insert) : Insert :=
  match self.layout.stack with
  | (_, .TopDeclHead) :: _ => (self.popStack.insertToken self.token).insertStart .Where
  | (_, .Property) :: _ => self.popStack.insertToken self.token
  | _ => ((self.collapseAndCommit whereP).insertToken self.token).insertStart .Where

/-- `in` closes the block of its `let`, and that of an `ado` around it. -/
def insertIn (self : Insert) : Option Insert :=
  let collapse := self.collapse inP
  match collapse.preview self.layout with
  | (_, .LetStmt) :: (_, .Ado) :: _ =>
    some ((self.commit collapse).popStack.popStack.insertEnd.insertEnd.insertToken self.token)
  | (_, delimiter) :: _ =>
    if delimiter.isIndented then
      some ((self.commit collapse).popStack.insertEnd.insertToken self.token)
    else self.insertDefault.popStackIf isProperty
  | [] => self.insertDefault.popStackIf isProperty

/-- What `let` does when it is not a record label. -/
def insertLet (self : Insert) : Insert :=
  match self.layout.stack with
  | (position, .Do) :: _ =>
    if position.column = self.position.column then self.insertStart .LetStmt
    else self.insertStart .Let
  | (position, .Ado) :: _ =>
    if position.column = self.position.column then self.insertStart .LetStmt
    else self.insertStart .Let
  | _ => self.insertStart .Let

/-- `of` closes its `case` and opens the block of the alternatives. -/
def insertOf (self : Insert) : Option Insert :=
  let collapse := self.collapse indentedP
  match collapse.preview self.layout with
  | (_, .Case) :: _ =>
    some ((((self.commit collapse).popStack.insertToken self.token).insertStart .Of).pushStack
      self.next .CaseBinders)
  | _ => self.insertDefault.popStackIf isProperty

/-- `then` replaces its `if`. -/
def insertThen (self : Insert) : Option Insert :=
  let collapse := self.collapse indentedP
  match collapse.preview self.layout with
  | (_, .If) :: _ =>
    some (((self.commit collapse).popStack.insertToken self.token).pushStack self.position .Then)
  | _ => self.insertDefault.popStackIf isProperty

/-- `else` closes its `then`, or continues a chain of instances. -/
def insertElse (self : Insert) : Option Insert :=
  let collapse := self.collapse indentedP
  match collapse.preview self.layout with
  | (_, .Then) :: _ => some ((self.commit collapse).popStack.insertToken self.token)
  | _ =>
    let self := self.collapseAndCommit offsideP
    if self.isTopDeclaration self.position then some (self.insertToken self.token)
    else (self.insertSep.insertToken self.token).popStackIf isProperty

/-- The delimiters that `->` closes. -/
def isArrowHead : Delimiter → Bool
  | .CaseBinders | .CaseGuard | .LambdaBinders => true
  | _ => false

def insertArrow (self : Insert) : Option Insert := do
  let self := self.collapseAndCommit arrowP
  let self ← self.popStackIf isArrowHead
  return self.insertToken self.token

/-- `=` ends the guard of a declaration. -/
def insertEqual (self : Insert) : Insert :=
  let collapse := self.collapse equalsP
  match collapse.preview self.layout with
  | (_, .DeclGuard) :: _ => (self.commit collapse).popStack.insertToken self.token
  | _ => self.insertDefault

/-- `|` begins the guard of an alternative or of a declaration. -/
def insertPipe (self : Insert) : Insert :=
  let collapse := self.collapse offsideEndP
  match collapse.preview self.layout with
  | (_, .Of) :: _ =>
    ((self.commit collapse).pushStack self.position .CaseGuard).insertToken self.token
  | (_, .Let) :: _ | (_, .LetStmt) :: _ | (_, .Where) :: _ =>
    ((self.commit collapse).pushStack self.position .DeclGuard).insertToken self.token
  | _ => self.insertDefault

/-- The second tick closes what the first one opened. -/
def insertTick (self : Insert) : Insert :=
  let collapse := self.collapse indentedP
  match collapse.preview self.layout with
  | (_, .Tick) :: _ => (self.commit collapse).popStack.insertToken self.token
  | _ =>
    ((self.collapseAndCommit offsideEndP).insertSep.insertToken self.token).pushStack
      self.position .Tick

/-- A comma closes the blocks inside of the brackets; in braces a label comes next. -/
def insertComma (self : Insert) : Insert :=
  let self := self.collapseAndCommit indentedP
  match self.layout.stack with
  | (_, .Brace) :: _ => (self.insertToken self.token).pushStack self.position .Property
  | _ => self.insertToken self.token

/-- A period ends the binders of a `forall`, else a label comes next. -/
def insertPeriod (self : Insert) : Insert :=
  let self := self.insertDefault
  match self.layout.stack with
  | (_, .Forall) :: _ => self.popStack
  | _ => self.pushStack self.position .Property

/-- The arm of `)` and `]`. -/
def insertClosing (self : Insert) (delimiter : Delimiter) : Option Insert := do
  let self := self.collapseAndCommit indentedP
  let self ← self.popStackIf (· = delimiter)
  return self.insertToken self.token

def insertRightCurly (self : Insert) : Option Insert := do
  let self := self.collapseAndCommit indentedP
  let self ← self.popStackIf isProperty
  let self ← self.popStackIf (· = .Brace)
  return self.insertToken self.token

/-- `Insert::invoke`, arm by arm in the order of the source. -/
def invoke (self : Insert) : Option Insert :=
  match self.token, self.qualified with
  | .DATA, false => self.insertDeclaration .TopDecl
  | .CLASS, false => self.insertDeclaration .TopDeclHead
  | .WHERE, false => some self.insertWhere
  | .IN, false => self.insertIn
  | .LET, false => some (self.insertKeywordProperty insertLet)
  | .DO, _ => some (self.insertKeywordProperty (·.insertStart .Do))
  | .ADO, _ => some (self.insertKeywordProperty (·.insertStart .Ado))
  | .CASE, false => some (self.insertKeywordProperty fun this => this.pushStack this.position .Case)
  | .OF, false => self.insertOf
  | .IF, false => some (self.insertKeywordProperty fun this => this.pushStack this.position .If)
  | .THEN, false => self.insertThen
  | .ELSE, false => self.insertElse
  | .FORALL, _ => some (self.insertKeywordProperty fun this => this.pushStack this.position .Forall)
  | .BACKSLASH, _ => some (self.insertDefault.pushStack self.position .LambdaBinders)
  | .RIGHT_ARROW, _ => self.insertArrow
  | .EQUAL, _ => some self.insertEqual
  | .PIPE, _ => some self.insertPipe
  | .TICK, _ => some self.insertTick
  | .COMMA, _ => some self.insertComma
  | .PERIOD, _ => some self.insertPeriod
  | .LEFT_PARENTHESIS, _ => some (self.insertDefault.pushStack self.position .Paren)
  | .LEFT_CURLY, _ =>
    some ((self.insertDefault.pushStack self.position .Brace).pushStack self.position .Property)
  | .LEFT_SQUARE, _ => some (self.insertDefault.pushStack self.position .Square)
  | .RIGHT_PARENTHESIS, _ => self.insertClosing .Paren
  | .RIGHT_CURLY, _ => self.insertRightCurly
  | .RIGHT_SQUARE, _ => self.insertClosing .Square
  | .STRING, _ | .RAW_STRING, _ => self.insertDefault.popStackIf isProperty
  | token, qualified =>
    if lowerSet.contains token && !qualified then self.insertDefault.popStackIf isProperty
    else if operatorSet.contains token then
      some ((self.collapseAndCommit offsideEndP).insertSep.insertToken self.token)
    else some self.insertDefault

end Insert

namespace Layout

def insert (self : Layout) (token : SyntaxKind) (qualified : Bool) (position next : Position) :
    Option Layout := do
  let insert ← Insert.invoke { layout := self, token, qualified, position, next }
  return insert.layout

/-- One iteration of the walk: insert the token at `index` and go on. -/
def takeToken (self : Layout) : Option Layout := do
  let token ← self.lexed.kind self.index
  let info ← self.lexed.info self.index
  let qualified := info.annotation < info.qualifier
  let next ← self.lexed.info (self.index + 1)
  let self ← self.insert token qualified info.position next.position
  return { self with index := self.index + 1 }

end Layout

/-- The loop of `lexing::layout`.  Every iteration moves `index` forward and the loop stops at
`END_OF_FILE`, so the number of lexed tokens is enough fuel. -/
def layoutLoop : ℕ → Layout → Option Layout
  | 0, _ => none
  | fuel + 1, machine => do
    if ← machine.isEof then return machine
    else layoutLoop fuel (← machine.takeToken)

/-- `lexing::layout`. -/
def layout (lexed : Lexed) : Option (List SyntaxKind) := do
  let machine ← layoutLoop lexed.len (Layout.new lexed)
  return machine.finish

end Iris.Lexing
