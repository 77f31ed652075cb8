import IrisCompiler.Parsing.Grammar.Types

/-!
# The grammar: binders, bindings and expressions

The rules of `parser/binders.rs`, `parser/generic.rs`, `parser/binding.rs` and
`parser/expressions.rs`, in that order.
-/

namespace Iris.Parsing.Grammar

open Program hiding pure bind

/-! ## Shared pieces -/

/-- The end of one item of a comma separated list before `closing`. -/
def listSeparator (closing : SyntaxKind) : Rule := do
  if ← (at_ .COMMA).and (atNext closing) then errorRecover "Trailing comma"
  else if ← (at_ closing).not then expect .COMMA

/-- The loop over a comma separated list: items begin with `first`, and of the other tokens the ones
in `recovery` leave the loop while the rest are skipped with an error. -/
def listItems (closing : SyntaxKind) (first : TokenSet) (item : Rule) (recovery : TokenSet)
    (message : String) : Rule :=
  whileBreak ((at_ closing).not.and atEof.not) do
    if ← atIn first then
      item
      listSeparator closing
    else
      if ← atIn recovery then return false
      errorRecover message
    return true

/-- The closure `recover_until_end` of the rules for blocks. -/
def recoverUntilEnd (message : String) : Rule := do
  unset .e
  let _ ← whileDo (((at_ .LAYOUT_SEPARATOR).not.and (at_ .LAYOUT_END).not).and atEof.not) do
    startOnce .e message
    consume
  finishSome .e .ERROR

/-- One item of a block and what follows it up to the separator. -/
def blockItem (item : Rule) (message : String) : Rule := do
  item
  recoverUntilEnd message
  if ← (at_ .LAYOUT_END).not then expect .LAYOUT_SEPARATOR

/-! ## Binders -/

/-- Parses the `binder <-` prefix of binds in do statements and pattern guards. -/
def binderLeftArrow : Rule := do
  call .binder
  expect .LEFT_ARROW

def binder : Rule := do
  start .m
  call .binder1
  if ← eat .DOUBLE_COLON then
    call .type_
    finish .m .BinderTyped
  else cancel .m

def binder1 : Rule := operatorChain .binder2 .TermOperator .BinderOperatorPair .BinderOperatorChain

def BINDER_ATOM_START : TokenSet :=
  [.UPPER, .UNDERSCORE, .STRING, .RAW_STRING, .CHAR, .TRUE, .FALSE, .INTEGER, .NUMBER, .LEFT_SQUARE,
    .LEFT_CURLY, .LEFT_PARENTHESIS] ++ LOWER

def BINDER_START : TokenSet := BINDER_ATOM_START ++ [.MINUS]

def binderConstructor (node : Variable) : Rule := do
  call .upper
  let _ ← whileDo (atIn BINDER_ATOM_START) (call .binderAtom)
  finish node .BinderConstructor

def binder2 : Rule := do
  start .m
  if ← at_ .MINUS then
    consume
    if ← at_ .INTEGER then
      consume
      finish .m .BinderInteger
    else if ← at_ .NUMBER then
      consume
      finish .m .BinderNumber
    else
      error "Expected INTEGER or NUMBER"
      finish .m .BinderInteger
  else if ← at_ .UPPER then binderConstructor .m
  else if ← atIn BINDER_ATOM_START then
    call .binderAtom
    cancel .m
  else cancel .m

def BINDER_ATOM_RECOVERY : TokenSet := [.EQUAL, .PIPE, .RIGHT_ARROW, .LAYOUT_SEPARATOR, .LAYOUT_END]

def binderNamedOrVariable (node : Variable) : Rule := do
  consume
  if ← eat .AT then
    call .binderAtom
    finish node .BinderNamed
  else finish node .BinderVariable

def binderArray (node : Variable) : Rule := do
  listItems .RIGHT_SQUARE BINDER_START (call .binder) BINDER_ATOM_RECOVERY
    "Unexpected token in array"
  expect .RIGHT_SQUARE
  finish node .BinderArray

/-- `generic::record_item`, which the records of binders and of expressions share. -/
def recordItem (k : RuleName) : Rule := do
  start .m
  if ← ((at_ .STRING).or (at_ .RAW_STRING)).and (atNext .COLON).not then
    error "Invalid string label in record pun"
  if ← (atIn KEYWORD).and (atNext .COLON).not then error "Invalid reserved keyword in record pun"
  call .label
  if ← (at_ .COMMA).or (at_ .RIGHT_CURLY) then
    finish .m .RecordPun
    return
  expect .COLON
  call k
  finish .m .RecordField

def binderRecord (node : Variable) : Rule := do
  listItems .RIGHT_CURLY RECORD_LABEL (recordItem .binder) BINDER_ATOM_RECOVERY
    "Unexpected token in record"
  expect .RIGHT_CURLY
  finish node .BinderRecord

def binderAtom : Rule := do
  start .m
  if ← atIn LOWER then binderNamedOrVariable .m
  else if ← at_ .UPPER then
    call .upper
    finish .m .BinderConstructor
  else if ← eat .UNDERSCORE then finish .m .BinderWildcard
  else if ← (eat .STRING).or (eat .RAW_STRING) then finish .m .BinderString
  else if ← eat .CHAR then finish .m .BinderChar
  else if ← eat .TRUE then finish .m .BinderTrue
  else if ← eat .FALSE then finish .m .BinderFalse
  else if ← eat .INTEGER then finish .m .BinderInteger
  else if ← eat .NUMBER then finish .m .BinderNumber
  else if ← eat .LEFT_SQUARE then binderArray .m
  else if ← eat .LEFT_CURLY then binderRecord .m
  else if ← eat .LEFT_PARENTHESIS then
    call .binder
    expect .RIGHT_PARENTHESIS
    finish .m .BinderParenthesized
  else cancel .m

/-! ## Sets of first tokens of expressions -/

def EXPRESSION_ATOM_START : TokenSet :=
  [.UPPER, .UNDERSCORE, .HOLE, .STRING, .RAW_STRING, .CHAR, .TRUE, .FALSE, .INTEGER, .NUMBER,
    .LEFT_SQUARE, .LEFT_CURLY, .LEFT_PARENTHESIS] ++ LOWER ++ OPERATOR_NAME

def ARGUMENT_START : TokenSet := [.IF, .LET, .BACKSLASH, .CASE, .DO, .ADO] ++ EXPRESSION_ATOM_START

def EXPRESSION_START : TokenSet := ARGUMENT_START ++ [.MINUS]

def EXPRESSION_ATOM_RECOVERY : TokenSet := [.LAYOUT_SEPARATOR, .LAYOUT_END]

/-! ## Equations and guards -/

def EQUATION_BINDERS_END : TokenSet := [.EQUAL, .PIPE]

def FUNCTION_BINDERS_RECOVERY : TokenSet := [.LAYOUT_SEPARATOR, .LAYOUT_END]

def functionBinders (s : TokenSet) : Rule := do
  start .m
  whileBreak ((atIn s).not.and atEof.not) do
    if ← atIn BINDER_ATOM_START then call .binderAtom
    else
      if ← atIn FUNCTION_BINDERS_RECOVERY then return false
      errorRecover "Unexpected token in function binders"
    return true
  finishNonEmpty .m .FunctionBinders

def whereExpression : Rule := do
  start .m
  call .expression
  if ← eat .WHERE then call .letBindingStatements
  finishNonEmpty .m .WhereExpression

def PATTERN_GUARD_START : TokenSet := BINDER_START ++ EXPRESSION_START

def PATTERN_GUARD_RECOVERY : TokenSet := [.LAYOUT_SEPARATOR, .LAYOUT_END]

def patternGuards (s : SyntaxKind) : Rule :=
  whileBreak ((at_ s).not.and atEof.not) do
    if ← atIn PATTERN_GUARD_START then
      call .patternGuard
      listSeparator s
    else
      if ← (at_ s).or (atIn PATTERN_GUARD_RECOVERY) then return false
      errorRecover "Unexpected token in pattern guards"
    return true

def patternGuarded (s : SyntaxKind) : Rule := do
  start .m
  expect .PIPE
  patternGuards s
  expect s
  call .whereExpression
  finish .m .PatternGuarded

def conditionals (s : SyntaxKind) : Rule := do
  let _ ← whileDo (at_ .PIPE) (patternGuarded s)

def unconditionalOrConditionals (s : SyntaxKind) : Rule := do
  start .m
  if ← at_ .PIPE then
    conditionals s
    finish .m .Conditionals
  else
    expect s
    call .whereExpression
    finish .m .Unconditional

/-- Parses the name and binders that begin `signatureOrEquation`, returning whether it continues as
a signature. -/
def signatureOrEquationHead : Program RuleName Bool := do
  expectIn LOWER .LOWER "Expected LOWER"
  if ← eat .DOUBLE_COLON then return true
  functionBinders EQUATION_BINDERS_END
  return false

def signatureOrEquation (s e : SyntaxKind) : Rule := do
  start .m
  if ← function signatureOrEquationHead then
    call .type_
    finish .m s
  else
    unconditionalOrConditionals .EQUAL
    finish .m e

def patternGuard : Rule :=
  preferWithPrefix .binderLeftArrow .patternGuardBinder .patternGuardExpression

def patternGuardBinder : Rule := do
  start .m
  call .binderLeftArrow
  call .expression
  finish .m .PatternGuardBinder

def patternGuardExpression : Rule := do
  start .m
  call .expression
  finish .m .PatternGuardExpression

/-! ## Let bindings -/

def LET_BINDING_START : TokenSet := [.LOWER] ++ EXPRESSION_START ++ BINDER_START

def letBindingStatements : Rule := do
  start .m
  expect .LAYOUT_START
  let _ ← whileDo (atIn LET_BINDING_START) do
    blockItem
      (preferWithPrefix .letBindingSignatureOrEquationHead .letBindingSignatureOrEquation
        .letBindingPattern)
      "Unexpected tokens in let binding statement"
  expect .LAYOUT_END
  finish .m .LetBindingStatements

def letBindingSignatureOrEquationHead : Rule := do
  let _ ← function signatureOrEquationHead

def letBindingSignatureOrEquation : Rule :=
  signatureOrEquation .LetBindingSignature .LetBindingEquation

def letBindingPattern : Rule := do
  start .m
  call .binder1
  expect .EQUAL
  call .whereExpression
  finish .m .LetBindingPattern

/-! ## Expressions -/

def expression : Rule := do
  start .m
  call .expression1
  if ← eat .DOUBLE_COLON then
    call .type_
    finish .m .ExpressionTyped
  else cancel .m

def expression1 : Rule :=
  operatorChain .expression2 .TermOperator .ExpressionOperatorPair .ExpressionOperatorChain

def expression2 : Rule := do
  start .m
  call .expression3
  let i ← whileDo (at_ .TICK) do
    start .m
    call .tickExpression
    call .expression3
    finish .m .ExpressionInfixPair
  if i then finish .m .ExpressionInfixChain
  else cancel .m

def tickExpression : Rule := do
  start .m
  expect .TICK
  call .tickExpression1
  expect .TICK
  finish .m .ExpressionTick

def tickExpression1 : Rule :=
  operatorChain .expression3 .TermOperator .ExpressionOperatorPair .ExpressionOperatorChain

def expression3 : Rule := do
  start .m
  if ← eat .MINUS then
    call .expression3
    finish .m .ExpressionNegate
  else
    call .expression4
    cancel .m

def atArgument : Program RuleName Bool := (at_ .AT).or (atIn ARGUMENT_START)

def expression4 : Rule := do
  start .m
  call .expression5
  let i ← whileDo atArgument (call .expressionArgument)
  if i then finish .m .ExpressionApplicationChain
  else cancel .m

def expressionArgument : Rule := do
  start .m
  if ← eat .AT then
    call .typeAtom
    finish .m .ExpressionTypeArgument
  else
    call .expression5
    finish .m .ExpressionTermArgument

def expressionIfThenElse (node : Variable) : Rule := do
  expect .IF
  start .n
  call .expression
  finish .n .ExpressionIf
  expect .THEN
  start .n
  call .expression
  finish .n .ExpressionThen
  expect .ELSE
  start .n
  call .expression
  finish .n .ExpressionElse
  finish node .ExpressionIfThenElse

def expressionLet (node : Variable) : Rule := do
  expect .LET
  call .letBindingStatements
  expect .IN
  call .expression
  finish node .ExpressionLetIn

def LAMBDA_BINDERS_END : TokenSet := [.RIGHT_ARROW]

def expressionLambda (node : Variable) : Rule := do
  expect .BACKSLASH
  functionBinders LAMBDA_BINDERS_END
  expect .RIGHT_ARROW
  call .expression
  finish node .ExpressionLambda

def expressionCase (node : Variable) : Rule := do
  expect .CASE
  call .caseTrunk
  expect .OF
  call .caseBranches
  finish node .ExpressionCaseOf

def caseTrunk : Rule := do
  start .m
  listItems .OF EXPRESSION_START (call .expression) EXPRESSION_ATOM_RECOVERY
    "Unexpected token in case trunk"
  finish .m .CaseTrunk

def caseBranches : Rule := do
  start .m
  expect .LAYOUT_START
  let _ ← whileDo ((at_ .LAYOUT_END).not.and atEof.not) do
    blockItem (call .caseBranch) "Unexpected tokens in case branch"
  expect .LAYOUT_END
  finish .m .CaseBranches

def caseBranch : Rule := do
  start .m
  call .caseBranchBinders
  unconditionalOrConditionals .RIGHT_ARROW
  finish .m .CaseBranch

def BINDERS_LIST_RECOVERY : TokenSet := [.LAYOUT_SEPARATOR, .LAYOUT_END]

def caseBranchBinders : Rule := do
  start .m
  whileBreak (((at_ .RIGHT_ARROW).not.and (at_ .PIPE).not).and atEof.not) do
    if ← atIn BINDER_START then
      call .binder1
      if ← (at_ .COMMA).and ((atNext .RIGHT_ARROW).or (atNext .PIPE)) then
        errorRecover "Trailing comma"
      else if ← (at_ .RIGHT_ARROW).not.and (at_ .PIPE).not then expect .COMMA
    else
      if ← atIn BINDERS_LIST_RECOVERY then return false
      errorRecover "Unexpected token in branch binders"
    return true
  finish .m .CaseBranchBinders

def DO_STATEMENT_START : TokenSet := [.LET] ++ EXPRESSION_START ++ BINDER_START

def expressionDo (node : Variable) : Rule := do
  expect .DO
  call .doStatements
  finish node .ExpressionDo

def doStatements : Rule := do
  start .m
  expect .LAYOUT_START
  let _ ← whileDo (atIn DO_STATEMENT_START) do
    blockItem (call .doStatement) "Unexpected tokens in do statement"
  expect .LAYOUT_END
  finish .m .DoStatements

def doStatement : Rule := do
  if ← at_ .LET then call .doStatementLet
  else preferWithPrefix .binderLeftArrow .doStatementBind .doStatementDiscard

def doStatementLet : Rule := do
  start .m
  expect .LET
  call .letBindingStatements
  finish .m .DoStatementLet

def doStatementBind : Rule := do
  start .m
  call .binderLeftArrow
  call .expression
  finish .m .DoStatementBind

def doStatementDiscard : Rule := do
  start .m
  call .expression
  finish .m .DoStatementDiscard

def expressionAdo (node : Variable) : Rule := do
  expect .ADO
  call .doStatements
  expect .IN
  call .expression
  finish node .ExpressionAdo

def expression5 : Rule := do
  start .m
  if ← at_ .IF then expressionIfThenElse .m
  else if ← at_ .LET then expressionLet .m
  else if ← at_ .BACKSLASH then expressionLambda .m
  else if ← at_ .CASE then expressionCase .m
  else if ← at_ .DO then expressionDo .m
  else if ← at_ .ADO then expressionAdo .m
  else if ← atIn EXPRESSION_ATOM_START then
    call .expression6
    cancel .m
  else cancel .m

def isRecordUpdate : Program RuleName Bool :=
  ((nthAt 0 .LEFT_CURLY).and (nthAtIn 1 RECORD_LABEL)).and
    ((nthAt 2 .EQUAL).or (nthAt 2 .LEFT_CURLY))

def expression6 : Rule := do
  start .m
  call .expression7
  if ← isRecordUpdate then
    call .recordUpdates
    finish .m .ExpressionRecordUpdate
  else cancel .m

def recordUpdates : Rule := do
  start .m
  expect .LEFT_CURLY
  listItems .RIGHT_CURLY RECORD_LABEL (call .recordUpdate) EXPRESSION_ATOM_RECOVERY
    "Unexpected token in record update"
  expect .RIGHT_CURLY
  finish .m .RecordUpdates

def recordUpdate : Rule := do
  start .m
  call .label
  if ← eat .EQUAL then
    call .expression
    finish .m .RecordUpdateLeaf
  else if ← at_ .LEFT_CURLY then
    call .recordUpdates
    finish .m .RecordUpdateBranch
  else cancel .m

def expression7 : Rule := do
  start .m
  call .expressionAtom
  let i ← whileDo (at_ .PERIOD) do
    start .label
    expect .PERIOD
    call .label
    finish .label .RecordAccessLabel
  if i then finish .m .ExpressionRecordAccess
  else cancel .m

def expressionArray (node : Variable) : Rule := do
  listItems .RIGHT_SQUARE EXPRESSION_START (call .expression) EXPRESSION_ATOM_RECOVERY
    "Unexpected token in array"
  expect .RIGHT_SQUARE
  finish node .ExpressionArray

def expressionRecord (node : Variable) : Rule := do
  listItems .RIGHT_CURLY RECORD_LABEL (recordItem .expression) EXPRESSION_ATOM_RECOVERY
    "Unexpected token in record"
  expect .RIGHT_CURLY
  finish node .ExpressionRecord

def expressionAtom : Rule := do
  start .m
  if ← atIn LOWER then
    call .lower
    finish .m .ExpressionVariable
  else if ← at_ .UPPER then
    call .upper
    finish .m .ExpressionConstructor
  else if ← atIn OPERATOR_NAME then
    call .operatorName
    finish .m .ExpressionOperatorName
  else if ← eat .UNDERSCORE then finish .m .ExpressionSection
  else if ← eat .HOLE then finish .m .ExpressionHole
  else if ← (eat .STRING).or (eat .RAW_STRING) then finish .m .ExpressionString
  else if ← eat .CHAR then finish .m .ExpressionChar
  else if ← eat .TRUE then finish .m .ExpressionTrue
  else if ← eat .FALSE then finish .m .ExpressionFalse
  else if ← eat .INTEGER then finish .m .ExpressionInteger
  else if ← eat .NUMBER then finish .m .ExpressionNumber
  else if ← eat .LEFT_SQUARE then expressionArray .m
  else if ← eat .LEFT_CURLY then expressionRecord .m
  else if ← eat .LEFT_PARENTHESIS then
    call .expression
    expect .RIGHT_PARENTHESIS
    finish .m .ExpressionParenthesized
  else cancel .m

end Iris.Parsing.Grammar
