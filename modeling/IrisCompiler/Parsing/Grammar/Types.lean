import IrisCompiler.Parsing.Program

/-!
# The grammar: names and types

The rules of `parser/names.rs` and `parser/types.rs`, and the names of all rules.  A function of the
source that takes only the parser is a rule with a name; one that takes a marker, a kind, a set or
another rule as well is a program with that parameter, and becomes a part of the rule that uses it.
-/

namespace Iris.Parsing

/-- The rules, by source file. -/
inductive RuleName where
  -- names.rs
  | moduleName | lower | upper | operator | operatorName | label
  -- types.rs
  | type_ | type1 | type2 | type3 | type4 | type5 | typeAtom | typeVariable
  | typeVariableBindings | typeVariableBinding | typeParenthesis | typeKindedVariable
  | typeParenthesized | typeRow | rowItem | rowTail | typeRecord
  -- binders.rs
  | binderLeftArrow | binder | binder1 | binder2 | binderAtom
  -- generic.rs
  | whereExpression | patternGuard | patternGuardBinder | patternGuardExpression
  -- binding.rs
  | letBindingStatements | letBindingSignatureOrEquationHead | letBindingSignatureOrEquation
  | letBindingPattern
  -- expressions.rs
  | expression | expression1 | expression2 | tickExpression | tickExpression1 | expression3
  | expression4 | expressionArgument | expression5 | caseTrunk | caseBranches | caseBranch
  | caseBranchBinders | doStatements | doStatement | doStatementLet | doStatementBind
  | doStatementDiscard | expression6 | recordUpdates | recordUpdate | expression7 | expressionAtom
  -- parser.rs
  | endOfFile | module_ | moduleHeader | exportList | exportItem | typeItems
  | importsAndStatements | importStatement | importList | importItem | importAlias
  | moduleStatement | valueSignatureOrEquation | infixDeclaration
  | roleOrSynonymSignatureOrEquation | classSignatureOrDeclaration | classSignature
  | classDeclaration | classConstraints | classHead | classFunctionalDependencies
  | classFunctionalDependency | classFunctionalDependencyVariables | classStatements
  | classStatement | instanceChain | instanceDeclaration | instanceName | instanceConstraints
  | instanceHead | instanceStatements | instanceStatement | deriveDeclaration
  | newtypeSignatureOrEquation | dataSignatureOrEquation | dataConstructors | dataConstructor
  | headTypeVariableBindings | headTypeVariableBinding | foreignImport
  deriving DecidableEq, Repr

namespace Grammar

open Program hiding pure bind

/-- The code of a rule. -/
abbrev Rule := Program RuleName Unit

/-! ## Sets of tokens (`syntax/src/names.rs`) -/

def ROLE : TokenSet := [.NOMINAL, .PHANTOM, .REPRESENTATIONAL]

def LOWER : TokenSet := [.LOWER, .AS, .HIDING, .ROLE] ++ ROLE

def OPERATOR : TokenSet := [.OPERATOR, .COLON, .MINUS, .DOUBLE_PERIOD, .LEFT_THICK_ARROW]

def OPERATOR_NAME : TokenSet := [.OPERATOR_NAME, .DOUBLE_PERIOD_OPERATOR_NAME]

def KEYWORD : TokenSet :=
  [.MODULE, .WHERE, .IMPORT, .ADO, .DO, .IF, .THEN, .ELSE, .LET, .IN, .CASE, .OF, .DATA, .NEWTYPE,
    .FORALL, .TYPE, .CLASS, .INSTANCE, .DERIVE, .FOREIGN, .INFIXL, .INFIXR, .INFIX, .TRUE, .FALSE]

def RECORD_LABEL : TokenSet := [.STRING, .RAW_STRING] ++ LOWER ++ KEYWORD

/-! ## Names -/

def moduleName : Rule := do
  annotate
  start .m
  qualify
  expect .UPPER
  finish .m .ModuleName

/-- The shape that the four rules for qualified names share. -/
def qualifiedName (name : Rule) : Rule := do
  annotate
  start .m
  qualify
  name
  finish .m .QualifiedName

def lower : Rule := qualifiedName (expectIn LOWER .LOWER "Expected LOWER")

def upper : Rule := qualifiedName (expect .UPPER)

def operator : Rule := qualifiedName (expectIn OPERATOR .OPERATOR "Expected OPERATOR")

def operatorName : Rule :=
  qualifiedName (expectIn OPERATOR_NAME .OPERATOR_NAME "Expected OPERATOR_NAME")

def label : Rule := do
  start .m
  expectIn RECORD_LABEL .TEXT "Expected RECORD_LABEL"
  finish .m .LabelName

/-! ## Types -/

/-- A rule that wraps what it parsed in a chain if an operator follows: the operator and the operand
after it make a pair, and so on.  The operator rules of types, binders and expressions differ in the
operand and in the kinds of the three nodes. -/
def operatorChain (operand : RuleName) (operatorNode pair chain : SyntaxKind) : Rule := do
  start .m
  call operand
  let i ← whileDo (atIn OPERATOR) do
    start .n
    start .o
    call .operator
    finish .o operatorNode
    call operand
    finish .n pair
  if i then finish .m chain
  else cancel .m

def type_ : Rule := do
  start .m
  call .type1
  if ← eat .DOUBLE_COLON then
    call .type_
    finish .m .TypeKinded
  else cancel .m

def type1 : Rule := do
  start .m
  if ← eat .FORALL then
    call .typeVariableBindings
    expect .PERIOD
    call .type1
    finish .m .TypeForall
  else
    call .type2
    cancel .m

def type2 : Rule := do
  start .m
  call .type3
  if ← eat .RIGHT_ARROW then
    call .type1
    finish .m .TypeArrow
  else if ← eat .RIGHT_THICK_ARROW then
    call .type1
    finish .m .TypeConstrained
  else cancel .m

def type3 : Rule := operatorChain .type4 .TypeOperator .TypeOperatorPair .TypeOperatorChain

def type4 : Rule := do
  start .m
  if ← eat .MINUS then
    expect .INTEGER
    finish .m .TypeInteger
  else
    call .type5
    cancel .m

def TYPE_ATOM_START : TokenSet :=
  [.UPPER, .STRING, .RAW_STRING, .MINUS, .INTEGER, .OPERATOR_NAME, .LEFT_PARENTHESIS, .LEFT_CURLY,
    .UNDERSCORE] ++ LOWER

def type5 : Rule := do
  start .m
  call .typeAtom
  let i ← whileDo (atIn TYPE_ATOM_START) (call .typeAtom)
  if i then finish .m .TypeApplicationChain
  else cancel .m

def typeAtom : Rule := do
  if ← atIn LOWER then
    call .typeVariable
    return
  start .m
  if ← at_ .UPPER then
    call .upper
    finish .m .TypeConstructor
  else if ← atIn OPERATOR_NAME then
    call .operatorName
    finish .m .TypeOperatorName
  else if ← (eat .STRING).or (eat .RAW_STRING) then finish .m .TypeString
  else if ← (at_ .MINUS).or (at_ .INTEGER) then
    let _ ← eat .MINUS
    expect .INTEGER
    finish .m .TypeInteger
  else if ← at_ .LEFT_PARENTHESIS then
    call .typeParenthesis
    cancel .m
  else if ← at_ .LEFT_CURLY then
    call .typeRecord
    cancel .m
  else if ← eat .HOLE then finish .m .TypeHole
  else if ← eat .UNDERSCORE then finish .m .TypeWildcard
  else cancel .m

def typeVariable : Rule := do
  start .m
  let _ ← eatIn LOWER .LOWER
  finish .m .TypeVariable

def TYPE_VARIABLE_BINDING_START : TokenSet := [.AT, .LEFT_PARENTHESIS] ++ LOWER

def TYPE_VARIABLE_BINDING_RECOVERY : TokenSet := [.LAYOUT_SEPARATOR, .LAYOUT_END]

def typeVariableBindings : Rule :=
  whileBreak ((at_ .PERIOD).not.and atEof.not) do
    if ← atIn TYPE_VARIABLE_BINDING_START then call .typeVariableBinding
    else
      if ← atIn TYPE_VARIABLE_BINDING_RECOVERY then return false
      errorRecover "Unexpected token in variable bindings."
    return true

def typeVariableBinding : Rule := do
  start .m
  let closing ← eat .LEFT_PARENTHESIS
  let _ ← eat .AT
  expectIn LOWER .LOWER "Expected LOWER"
  if ← eat .DOUBLE_COLON then call .type_
  else if closing then expect .DOUBLE_COLON
  if closing then expect .RIGHT_PARENTHESIS
  finish .m .TypeVariableBinding

def isTypeRow : Program RuleName Bool :=
  ((nthAt 1 .RIGHT_PARENTHESIS).or (nthAt 1 .PIPE)).or
    ((nthAtIn 1 RECORD_LABEL).and (nthAt 2 .DOUBLE_COLON))

def isKindedTypeVariable : Program RuleName Bool :=
  (((nthAt 1 .LEFT_PARENTHESIS).and (nthAtIn 2 LOWER)).and (nthAt 3 .RIGHT_PARENTHESIS)).and
    (nthAt 4 .DOUBLE_COLON)

def typeParenthesis : Rule := do
  if ← isTypeRow then call .typeRow
  else if ← isKindedTypeVariable then call .typeKindedVariable
  else call .typeParenthesized

def typeKindedVariable : Rule := do
  start .m
  expect .LEFT_PARENTHESIS
  start .n
  expect .LEFT_PARENTHESIS
  start .o
  expectIn LOWER .LOWER "Expected LOWER"
  finish .o .TypeVariable
  expect .RIGHT_PARENTHESIS
  finish .n .TypeParenthesized
  expect .DOUBLE_COLON
  call .type_
  expect .RIGHT_PARENTHESIS
  finish .m .TypeKinded

def typeParenthesized : Rule := do
  start .m
  expect .LEFT_PARENTHESIS
  call .type_
  expect .RIGHT_PARENTHESIS
  finish .m .TypeParenthesized

def TYPE_ROW_RECOVERY : TokenSet := [.PIPE, .RIGHT_PARENTHESIS, .LAYOUT_SEPARATOR, .LAYOUT_END]

/-- What `type_row` and `type_record` share: items up to `closing`, then a tail. -/
def rowItems (opening closing : SyntaxKind) (message : String) : Rule := do
  expect opening
  whileBreak (((at_ .PIPE).not.and (at_ closing).not).and atEof.not) do
    if ← atIn RECORD_LABEL then
      call .rowItem
      let ending ← (atNext .PIPE).or (atNext closing)
      if ← (at_ .COMMA).and (return ending) then errorRecover "Trailing comma"
      else if ← (at_ .PIPE).not.and (at_ closing).not then expect .COMMA
    else
      if ← atIn TYPE_ROW_RECOVERY then return false
      errorRecover message
    return true
  if ← at_ .PIPE then call .rowTail
  expect closing

def typeRow : Rule := do
  start .m
  rowItems .LEFT_PARENTHESIS .RIGHT_PARENTHESIS "Unexpected token in row"
  finish .m .TypeRow

def rowItem : Rule := do
  start .m
  call .label
  expect .DOUBLE_COLON
  call .type_
  finish .m .TypeRowItem

def rowTail : Rule := do
  start .m
  expect .PIPE
  call .type_
  finish .m .TypeRowTail

def typeRecord : Rule := do
  start .m
  rowItems .LEFT_CURLY .RIGHT_CURLY "Unexpected token in record"
  finish .m .TypeRecord

end Grammar

end Iris.Parsing
