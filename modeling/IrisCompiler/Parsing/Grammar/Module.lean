import IrisCompiler.Parsing.Grammar.Expressions

/-!
# The grammar: modules

The rules of `parser.rs` itself: the module's header, its imports and its declarations.  `grammar`
assigns every rule name its code.  The functions `type_variable_binding` and
`type_variable_bindings` of this file are not the ones of `parser/types.rs`; they parse the head of
a declaration and are called `headTypeVariableBinding` and `headTypeVariableBindings` here.
-/

namespace Iris.Parsing

namespace Grammar

open Program hiding pure bind

/-! ## The module and its header -/

def endOfFile : Rule := do
  unset .e
  let _ ← whileDo atEof.not do
    startOnce .e "Unexpected tokens at end of file"
    consume
  finishSome .e .ERROR
  expect .END_OF_FILE

def module_ : Rule := do
  start .m
  call .moduleHeader
  expect .LAYOUT_START
  call .importsAndStatements
  expect .LAYOUT_END
  call .endOfFile
  finish .m .Module

def moduleHeader : Rule := do
  start .m
  expect .MODULE
  call .moduleName
  if ← at_ .LEFT_PARENTHESIS then call .exportList
  expect .WHERE
  finish .m .ModuleHeader

def EXPORT_ITEM_START : TokenSet :=
  [.CLASS, .MODULE, .OPERATOR_NAME, .TYPE, .UPPER] ++ LOWER ++ OPERATOR_NAME

def exportList : Rule := do
  start .m
  expect .LEFT_PARENTHESIS
  if ← at_ .RIGHT_PARENTHESIS then
    error "Empty export list"
    consume
    finish .m .ExportList
    return
  unset .e
  whileBreak ((at_ .RIGHT_PARENTHESIS).not.and atEof.not) do
    if ← atIn EXPORT_ITEM_START then
      call .exportItem
      listSeparator .RIGHT_PARENTHESIS
    else
      if ← at_ .WHERE then return false
      startOnce .e "Unexpected tokens in export list"
      consume
    return true
  finishSome .e .ERROR
  expect .RIGHT_PARENTHESIS
  finish .m .ExportList

def exportItem : Rule := do
  start .m
  if ← eatIn LOWER .LOWER then finish .m .ExportValue
  else if ← eat .UPPER then
    call .typeItems
    finish .m .ExportType
  else if ← eat .CLASS then
    expect .UPPER
    finish .m .ExportClass
  else if ← eat .TYPE then
    expectIn OPERATOR_NAME .OPERATOR_NAME "Expected OPERATOR_NAME"
    finish .m .ExportTypeOperator
  else if ← eatIn OPERATOR_NAME .OPERATOR_NAME then finish .m .ExportOperator
  else if ← eat .MODULE then
    call .moduleName
    finish .m .ExportModule
  else cancel .m

def typeItems : Rule := do
  start .m
  if ← eat .DOUBLE_PERIOD_OPERATOR_NAME then
    finish .m .TypeItemsAll
    return
  if ← (eat .LEFT_PARENTHESIS).not then
    cancel .m
    return
  unset .e
  whileBreak ((at_ .RIGHT_PARENTHESIS).not.and atEof.not) do
    if ← eat .UPPER then listSeparator .RIGHT_PARENTHESIS
    else
      if ← at_ .WHERE then return false
      startOnce .e "Unexpected tokens in type items"
      consume
    return true
  finishSome .e .ERROR
  expect .RIGHT_PARENTHESIS
  finish .m .TypeItemsList

/-! ## Imports and statements -/

def MODULE_STATEMENT_START : TokenSet :=
  [.FOREIGN, .CLASS, .DATA, .NEWTYPE, .TYPE, .INSTANCE, .DERIVE, .INFIX, .INFIXL, .INFIXR] ++ LOWER

def importsAndStatements : Rule := do
  start .imports
  let _ ← whileDo (at_ .IMPORT) do
    blockItem (call .importStatement) "Unexpected tokens in import statement"
  finishNonEmpty .imports .ModuleImports
  start .statements
  let _ ← whileDo (atIn MODULE_STATEMENT_START) do
    blockItem (call .moduleStatement) "Unexpected tokens in module statement"
  finishNonEmpty .statements .ModuleStatements

def IMPORT_LIST_START : TokenSet := [.HIDING, .LEFT_PARENTHESIS]

def importStatement : Rule := do
  start .m
  expect .IMPORT
  call .moduleName
  if ← atIn IMPORT_LIST_START then call .importList
  call .importAlias
  finish .m .ImportStatement

def IMPORT_ITEM_START : TokenSet := [.UPPER, .CLASS, .TYPE] ++ LOWER ++ OPERATOR_NAME

def importList : Rule := do
  start .m
  let _ ← eat .HIDING
  if ← (eat .LEFT_PARENTHESIS).not then
    finish .m .ImportList
    return
  if ← at_ .RIGHT_PARENTHESIS then
    error "Empty import list"
    consume
    finish .m .ImportList
    return
  unset .e
  let _ ← whileDo ((at_ .RIGHT_PARENTHESIS).not.and atEof.not) do
    if ← atIn IMPORT_ITEM_START then
      call .importItem
      listSeparator .RIGHT_PARENTHESIS
    else
      startOnce .e "Unexpected tokens in import list"
      consume
  finishSome .e .ERROR
  expect .RIGHT_PARENTHESIS
  finish .m .ImportList

def importItem : Rule := do
  start .m
  if ← eatIn LOWER .LOWER then finish .m .ImportValue
  else if ← eat .UPPER then
    call .typeItems
    finish .m .ImportType
  else if ← eat .CLASS then
    expect .UPPER
    finish .m .ImportClass
  else if ← eat .TYPE then
    expectIn OPERATOR_NAME .OPERATOR_NAME "Expected OPERATOR_NAME"
    finish .m .ImportTypeOperator
  else if ← eatIn OPERATOR_NAME .OPERATOR_NAME then finish .m .ImportOperator
  else cancel .m

def importAlias : Rule := do
  start .m
  if ← eat .AS then
    call .moduleName
    finish .m .ImportAlias
  else cancel .m

/-- The keywords of fixity declarations. -/
def INFIX_KEYWORD : TokenSet := [.INFIX, .INFIXL, .INFIXR]

def moduleStatement : Rule := do
  if ← atIn LOWER then call .valueSignatureOrEquation
  else if ← at_ .DATA then call .dataSignatureOrEquation
  else if ← at_ .TYPE then call .roleOrSynonymSignatureOrEquation
  else if ← at_ .NEWTYPE then call .newtypeSignatureOrEquation
  else if ← at_ .CLASS then call .classSignatureOrDeclaration
  else if ← at_ .FOREIGN then call .foreignImport
  else if ← at_ .INSTANCE then call .instanceChain
  else if ← at_ .DERIVE then call .deriveDeclaration
  else if ← atIn INFIX_KEYWORD then call .infixDeclaration

def valueSignatureOrEquation : Rule := signatureOrEquation .ValueSignature .ValueEquation

def infixDeclaration : Rule := do
  start .m
  if ← atIn INFIX_KEYWORD then consume
  else error "Expected INFIX_KEYWORD"
  expect .INTEGER
  let _ ← eat .TYPE
  start .n
  if ← ((eatIn LOWER .LOWER).or (eat .UPPER)).not then error "Expected LOWER or UPPER"
  finish .n .QualifiedName
  expect .AS
  expectIn OPERATOR .OPERATOR "Expected OPERATOR"
  finish .m .InfixDeclaration

/-! ## Type level declarations -/

def TYPE_ROLE_END : TokenSet := [.LAYOUT_SEPARATOR, .LAYOUT_END]

def roleOrSynonymSignatureOrEquation : Rule := do
  start .m
  expect .TYPE
  if ← eat .ROLE then
    expect .UPPER
    let _ ← whileDo ((atIn TYPE_ROLE_END).not.and atEof.not) do
      if ← atIn ROLE then
        start .n
        consume
        finish .n .TypeRole
      else errorRecover "Expected NOMINAL, REPRESENTATIONAL, or PHANTOM"
    finish .m .TypeRoleDeclaration
    return
  expect .UPPER
  if ← eat .DOUBLE_COLON then
    call .type_
    finish .m .TypeSynonymSignature
  else
    call .headTypeVariableBindings
    expect .EQUAL
    call .type_
    finish .m .TypeSynonymEquation

def isClassSignature : Program RuleName Bool :=
  ((nthAt 0 .CLASS).and (nthAt 1 .UPPER)).and (nthAt 2 .DOUBLE_COLON)

def classSignatureOrDeclaration : Rule := do
  if ← isClassSignature then call .classSignature
  else call .classDeclaration

def classSignature : Rule := do
  start .m
  expect .CLASS
  expect .UPPER
  expect .DOUBLE_COLON
  call .type_
  finish .m .ClassSignature

def classDeclaration : Rule := do
  start .m
  expect .CLASS
  optional .classConstraints
  call .classHead
  if ← at_ .PIPE then call .classFunctionalDependencies
  if ← eat .WHERE then call .classStatements
  finish .m .ClassDeclaration

def CLASS_CONSTRAINTS_RECOVERY : TokenSet :=
  [.LEFT_THICK_ARROW, .PIPE, .WHERE, .LAYOUT_SEPARATOR, .LAYOUT_END]

/-- What `class_constraints` and `instance_constraints` share: one constraint or a parenthesised
list of them, then the arrow. -/
def constraints (item : RuleName) (recovery : TokenSet) (message : String) (arrow : SyntaxKind) :
    Rule := do
  if ← eat .LEFT_PARENTHESIS then
    listItems .RIGHT_PARENTHESIS TYPE_ATOM_START (call item) recovery message
    expect .RIGHT_PARENTHESIS
  else call item
  expect arrow

def classConstraints : Rule := do
  start .m
  constraints .type5 CLASS_CONSTRAINTS_RECOVERY "Unexpected token in class constraints"
    .LEFT_THICK_ARROW
  finish .m .ClassConstraints

def classHead : Rule := do
  start .m
  expect .UPPER
  call .headTypeVariableBindings
  finish .m .ClassHead

def FUNCTIONAL_DEPENDENCY_START : TokenSet := [.RIGHT_ARROW] ++ LOWER

def FUNCTIONAL_DEPENDENCY_END : TokenSet := [.WHERE, .LAYOUT_SEPARATOR, .LAYOUT_END]

def FUNCTIONAL_DEPENDENCY_RECOVERY : TokenSet := [.WHERE, .LAYOUT_SEPARATOR, .LAYOUT_END]

def classFunctionalDependencies : Rule := do
  start .m
  expect .PIPE
  if ← (atIn FUNCTIONAL_DEPENDENCY_END).or atEof then error "Expected LOWER or RIGHT_ARROW"
  whileBreak ((atIn FUNCTIONAL_DEPENDENCY_END).not.and atEof.not) do
    if ← atIn FUNCTIONAL_DEPENDENCY_START then
      call .classFunctionalDependency
      if ← (at_ .COMMA).and (atNext .WHERE) then errorRecover "Trailing comma"
      else if ← (atIn FUNCTIONAL_DEPENDENCY_END).not then expect .COMMA
    else
      if ← atIn FUNCTIONAL_DEPENDENCY_RECOVERY then return false
      errorRecover "Unexpected token in functional dependencies"
    return true
  finish .m .ClassFunctionalDependencies

def classFunctionalDependency : Rule := do
  start .m
  if ← eat .RIGHT_ARROW then
    call .classFunctionalDependencyVariables
    finish .m .FunctionalDependencyDetermined
  else
    let _ ← whileDo (atIn LOWER) (call .typeVariable)
    expect .RIGHT_ARROW
    call .classFunctionalDependencyVariables
    finish .m .FunctionalDependencyDetermines

def classFunctionalDependencyVariables : Rule := do
  if ← (atIn LOWER).not then error "Expected LOWER"
  let _ ← whileDo (atIn LOWER) (call .typeVariable)

/-- The block of a class or of an instance. -/
def memberStatements (item : RuleName) (message : String) (kind : SyntaxKind) : Rule := do
  start .m
  expect .LAYOUT_START
  let _ ← whileDo (atIn LOWER) do
    blockItem (call item) message
  expect .LAYOUT_END
  finish .m kind

def classStatements : Rule :=
  memberStatements .classStatement "Unexpected tokens in class statement" .ClassStatements

def classStatement : Rule := do
  start .m
  expectIn LOWER .LOWER "Expected LOWER"
  expect .DOUBLE_COLON
  call .type_
  finish .m .ClassMemberStatement

def instanceChain : Rule := do
  start .m
  call .instanceDeclaration
  let _ ← whileDo (at_ .ELSE) (call .instanceDeclaration)
  finish .m .InstanceChain

def instanceDeclaration : Rule := do
  start .m
  let _ ← eat .ELSE
  let _ ← eat .LAYOUT_SEPARATOR
  expect .INSTANCE
  optional .instanceName
  optional .instanceConstraints
  call .instanceHead
  if ← eat .WHERE then call .instanceStatements
  finish .m .InstanceDeclaration

def INSTANCE_CONSTRAINTS_RECOVERY : TokenSet :=
  [.RIGHT_THICK_ARROW, .WHERE, .LAYOUT_SEPARATOR, .LAYOUT_END]

def instanceName : Rule := do
  start .m
  expectIn LOWER .LOWER "Expected LOWER"
  expect .DOUBLE_COLON
  finish .m .InstanceName

def instanceConstraints : Rule := do
  start .m
  constraints .type3 INSTANCE_CONSTRAINTS_RECOVERY "Unexpected token in instance constraints"
    .RIGHT_THICK_ARROW
  finish .m .InstanceConstraints

/-- The arguments of an instance head, a constructor or a derived instance. -/
def typeAtoms : Rule := do
  let _ ← whileDo (atIn TYPE_ATOM_START) (call .typeAtom)

def instanceHead : Rule := do
  start .m
  call .upper
  typeAtoms
  finish .m .InstanceHead

def instanceStatements : Rule :=
  memberStatements .instanceStatement "Unexpected tokens in instance statement" .InstanceStatements

def instanceStatement : Rule :=
  signatureOrEquation .InstanceSignatureStatement .InstanceEquationStatement

def deriveDeclaration : Rule := do
  start .m
  expect .DERIVE
  let _ ← eat .NEWTYPE
  expect .INSTANCE
  optional .instanceName
  optional .instanceConstraints
  call .instanceHead
  typeAtoms
  finish .m .DeriveDeclaration

def newtypeSignatureOrEquation : Rule := do
  start .m
  expect .NEWTYPE
  expect .UPPER
  if ← eat .DOUBLE_COLON then
    call .type_
    finish .m .NewtypeSignature
  else
    call .headTypeVariableBindings
    expect .EQUAL
    start .n
    expect .UPPER
    call .typeAtom
    finish .n .DataConstructor
    finish .m .NewtypeEquation

def dataSignatureOrEquation : Rule := do
  start .m
  expect .DATA
  expect .UPPER
  if ← eat .DOUBLE_COLON then
    call .type_
    finish .m .DataSignature
  else
    call .headTypeVariableBindings
    if ← eat .EQUAL then call .dataConstructors
    finish .m .DataEquation

def dataConstructors : Rule := do
  call .dataConstructor
  let _ ← whileDo ((eat .PIPE).and atEof.not) (call .dataConstructor)

def dataConstructor : Rule := do
  start .m
  expect .UPPER
  typeAtoms
  finish .m .DataConstructor

def HEAD_TYPE_VARIABLE_BINDING_START : TokenSet := [.LEFT_PARENTHESIS] ++ LOWER

def TYPE_VARIABLE_BINDING_END : TokenSet := [.EQUAL, .PIPE, .WHERE, .LAYOUT_SEPARATOR, .LAYOUT_END]

def HEAD_TYPE_VARIABLE_BINDING_RECOVERY : TokenSet := [.LAYOUT_SEPARATOR, .LAYOUT_END]

def headTypeVariableBindings : Rule :=
  whileBreak ((atIn TYPE_VARIABLE_BINDING_END).not.and atEof.not) do
    if ← atIn HEAD_TYPE_VARIABLE_BINDING_START then call .headTypeVariableBinding
    else
      if ← atIn HEAD_TYPE_VARIABLE_BINDING_RECOVERY then return false
      errorRecover "Unexpected token in variable bindings"
    return true

def headTypeVariableBinding : Rule := do
  start .m
  let closing ← eat .LEFT_PARENTHESIS
  let _ ← eatIn LOWER .LOWER
  if ← eat .DOUBLE_COLON then call .type_
  else if closing then expect .DOUBLE_COLON
  if closing then expect .RIGHT_PARENTHESIS
  finish .m .TypeVariableBinding

def foreignImport : Rule := do
  start .m
  expect .FOREIGN
  expect .IMPORT
  let k : SyntaxKind ← do
    if ← eat .DATA then
      expect .UPPER
      pure .ForeignImportDataDeclaration
    else
      expectIn LOWER .LOWER "Expected LOWER"
      pure .ForeignImportValueDeclaration
  expect .DOUBLE_COLON
  call .type_
  finish .m k

end Grammar

/-- The code of every rule. -/
def grammar : RuleName → Program RuleName Unit
  | .moduleName => Grammar.moduleName
  | .lower => Grammar.lower
  | .upper => Grammar.upper
  | .operator => Grammar.operator
  | .operatorName => Grammar.operatorName
  | .label => Grammar.label
  | .type_ => Grammar.type_
  | .type1 => Grammar.type1
  | .type2 => Grammar.type2
  | .type3 => Grammar.type3
  | .type4 => Grammar.type4
  | .type5 => Grammar.type5
  | .typeAtom => Grammar.typeAtom
  | .typeVariable => Grammar.typeVariable
  | .typeVariableBindings => Grammar.typeVariableBindings
  | .typeVariableBinding => Grammar.typeVariableBinding
  | .typeParenthesis => Grammar.typeParenthesis
  | .typeKindedVariable => Grammar.typeKindedVariable
  | .typeParenthesized => Grammar.typeParenthesized
  | .typeRow => Grammar.typeRow
  | .rowItem => Grammar.rowItem
  | .rowTail => Grammar.rowTail
  | .typeRecord => Grammar.typeRecord
  | .binderLeftArrow => Grammar.binderLeftArrow
  | .binder => Grammar.binder
  | .binder1 => Grammar.binder1
  | .binder2 => Grammar.binder2
  | .binderAtom => Grammar.binderAtom
  | .whereExpression => Grammar.whereExpression
  | .patternGuard => Grammar.patternGuard
  | .patternGuardBinder => Grammar.patternGuardBinder
  | .patternGuardExpression => Grammar.patternGuardExpression
  | .letBindingStatements => Grammar.letBindingStatements
  | .letBindingSignatureOrEquationHead => Grammar.letBindingSignatureOrEquationHead
  | .letBindingSignatureOrEquation => Grammar.letBindingSignatureOrEquation
  | .letBindingPattern => Grammar.letBindingPattern
  | .expression => Grammar.expression
  | .expression1 => Grammar.expression1
  | .expression2 => Grammar.expression2
  | .tickExpression => Grammar.tickExpression
  | .tickExpression1 => Grammar.tickExpression1
  | .expression3 => Grammar.expression3
  | .expression4 => Grammar.expression4
  | .expressionArgument => Grammar.expressionArgument
  | .expression5 => Grammar.expression5
  | .caseTrunk => Grammar.caseTrunk
  | .caseBranches => Grammar.caseBranches
  | .caseBranch => Grammar.caseBranch
  | .caseBranchBinders => Grammar.caseBranchBinders
  | .doStatements => Grammar.doStatements
  | .doStatement => Grammar.doStatement
  | .doStatementLet => Grammar.doStatementLet
  | .doStatementBind => Grammar.doStatementBind
  | .doStatementDiscard => Grammar.doStatementDiscard
  | .expression6 => Grammar.expression6
  | .recordUpdates => Grammar.recordUpdates
  | .recordUpdate => Grammar.recordUpdate
  | .expression7 => Grammar.expression7
  | .expressionAtom => Grammar.expressionAtom
  | .endOfFile => Grammar.endOfFile
  | .module_ => Grammar.module_
  | .moduleHeader => Grammar.moduleHeader
  | .exportList => Grammar.exportList
  | .exportItem => Grammar.exportItem
  | .typeItems => Grammar.typeItems
  | .importsAndStatements => Grammar.importsAndStatements
  | .importStatement => Grammar.importStatement
  | .importList => Grammar.importList
  | .importItem => Grammar.importItem
  | .importAlias => Grammar.importAlias
  | .moduleStatement => Grammar.moduleStatement
  | .valueSignatureOrEquation => Grammar.valueSignatureOrEquation
  | .infixDeclaration => Grammar.infixDeclaration
  | .roleOrSynonymSignatureOrEquation => Grammar.roleOrSynonymSignatureOrEquation
  | .classSignatureOrDeclaration => Grammar.classSignatureOrDeclaration
  | .classSignature => Grammar.classSignature
  | .classDeclaration => Grammar.classDeclaration
  | .classConstraints => Grammar.classConstraints
  | .classHead => Grammar.classHead
  | .classFunctionalDependencies => Grammar.classFunctionalDependencies
  | .classFunctionalDependency => Grammar.classFunctionalDependency
  | .classFunctionalDependencyVariables => Grammar.classFunctionalDependencyVariables
  | .classStatements => Grammar.classStatements
  | .classStatement => Grammar.classStatement
  | .instanceChain => Grammar.instanceChain
  | .instanceDeclaration => Grammar.instanceDeclaration
  | .instanceName => Grammar.instanceName
  | .instanceConstraints => Grammar.instanceConstraints
  | .instanceHead => Grammar.instanceHead
  | .instanceStatements => Grammar.instanceStatements
  | .instanceStatement => Grammar.instanceStatement
  | .deriveDeclaration => Grammar.deriveDeclaration
  | .newtypeSignatureOrEquation => Grammar.newtypeSignatureOrEquation
  | .dataSignatureOrEquation => Grammar.dataSignatureOrEquation
  | .dataConstructors => Grammar.dataConstructors
  | .dataConstructor => Grammar.dataConstructor
  | .headTypeVariableBindings => Grammar.headTypeVariableBindings
  | .headTypeVariableBinding => Grammar.headTypeVariableBinding
  | .foreignImport => Grammar.foreignImport

/-- `parser::module` on a fresh parser, at most `depth` calls deep. -/
def parseModule (depth : ℕ) (fuel : Option ℕ) (tokens : List SyntaxKind) :
    Except Panic (Parser RuleName) :=
  ((runRule grammar depth .module_).run (.new fuel tokens)).map Prod.snd

/-- The same with the plain choice between alternatives. -/
def parseModulePlain (depth : ℕ) (fuel : Option ℕ) (tokens : List SyntaxKind) :
    Except Panic (Parser RuleName) :=
  ((runPlain grammar depth .module_).run (.new fuel tokens)).map Prod.snd

end Iris.Parsing
