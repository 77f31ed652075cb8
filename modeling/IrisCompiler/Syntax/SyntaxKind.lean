import Mathlib.Data.List.Basic

/-!
# Syntax kinds

`SyntaxKind` (`compiler-frontend/syntax`) is the one enumeration that the lexer, the layout
algorithm, the parser and the syntax tree share: the kinds up to `ERROR` are tokens, the ones after
it are tree nodes.  A `TokenSet` is a bit set over the token kinds; here it is the list of its
members.
-/

namespace Iris

/-- The kinds of tokens and nodes, in the order of the source. -/
inductive SyntaxKind where
  -- Generic
  | TEXT
  -- Names
  | HOLE | UPPER | LOWER | OPERATOR | OPERATOR_NAME
  -- Operators
  | AT | BACKSLASH | COLON | DOUBLE_COLON | COMMA | EQUAL | MINUS | PERIOD | DOUBLE_PERIOD
  | DOUBLE_PERIOD_OPERATOR_NAME | PIPE | TICK | UNDERSCORE | LEFT_ARROW | RIGHT_ARROW
  | LEFT_THICK_ARROW | RIGHT_THICK_ARROW | LEFT_PARENTHESIS | RIGHT_PARENTHESIS | LEFT_CURLY
  | RIGHT_CURLY | LEFT_SQUARE | RIGHT_SQUARE
  -- Keywords
  | ADO | AS | CASE | CLASS | DATA | DERIVE | DO | ELSE | FORALL | FOREIGN | HIDING | IF | IMPORT
  | IN | INFIX | INFIXL | INFIXR | INSTANCE | LET | MODULE | NEWTYPE | NOMINAL | OF | PHANTOM
  | REPRESENTATIONAL | ROLE | THEN | TYPE | WHERE
  -- Literals
  | CHAR | INTEGER | NUMBER | RAW_STRING | STRING | TRUE | FALSE
  -- Control
  | LAYOUT_START | LAYOUT_SEPARATOR | LAYOUT_END | END_OF_FILE
  -- Special
  | ERROR
  -- Nodes
  | Node | Annotation | Qualifier
  | ModuleName | QualifiedName | LabelName
  | Module | ModuleHeader | ExportList | ExportValue | ExportClass | ExportType | ExportOperator
  | ExportTypeOperator | ExportModule | ModuleImports | ImportStatement | ImportList | ImportValue
  | ImportClass | ImportType | ImportOperator | ImportTypeOperator | ImportAlias
  | ModuleStatements
  | TypeItemsAll | TypeItemsList
  | ValueSignature | ValueEquation | FunctionBinders
  | Unconditional | WhereExpression
  | Conditionals | PatternGuarded | PatternGuardBinder | PatternGuardExpression
  | LetBindingSignature | LetBindingEquation | LetBindingPattern | LetBindingStatements
  | TypeApplicationChain | TypeArrow | TypeConstrained | TypeConstructor | TypeForall | TypeHole
  | TypeInteger | TypeKinded | TypeOperatorName | TypeOperatorChain | TypeOperatorPair
  | TypeString | TypeVariable | TypeVariableBinding | TypeWildcard | TypeRecord | TypeRow
  | TypeRowItem | TypeRowTail | TypeParenthesized
  | BinderTyped | BinderOperatorChain | BinderOperatorPair | BinderInteger | BinderNumber
  | BinderConstructor | BinderVariable | BinderNamed | BinderWildcard | BinderString | BinderChar
  | BinderTrue | BinderFalse | BinderArray | BinderRecord | BinderParenthesized
  | ExpressionTyped | ExpressionOperatorChain | ExpressionOperatorPair | ExpressionInfixChain
  | ExpressionInfixPair | ExpressionTick | ExpressionNegate | ExpressionApplicationChain
  | ExpressionTypeArgument | ExpressionTermArgument | ExpressionIfThenElse | ExpressionIf
  | ExpressionThen | ExpressionElse | ExpressionLetIn | ExpressionLambda | ExpressionCaseOf
  | ExpressionDo | ExpressionAdo | ExpressionConstructor | ExpressionVariable
  | ExpressionOperatorName | ExpressionSection | ExpressionHole | ExpressionString
  | ExpressionChar | ExpressionTrue | ExpressionFalse | ExpressionInteger | ExpressionNumber
  | ExpressionArray | ExpressionRecord | ExpressionParenthesized | ExpressionRecordAccess
  | ExpressionRecordUpdate
  | CaseTrunk | CaseBranches | CaseBranchBinders | CaseBranch
  | DoStatements | DoStatementBind | DoStatementLet | DoStatementDiscard
  | RecordAccessLabel | RecordField | RecordPun | RecordUpdates | RecordUpdateLeaf
  | RecordUpdateBranch
  | InfixDeclaration
  | TypeRoleDeclaration | TypeRole
  | TypeSynonymSignature | TypeSynonymEquation
  | ClassSignature | ClassDeclaration | ClassConstraints | ClassHead | ClassFunctionalDependencies
  | FunctionalDependencyDetermined | FunctionalDependencyDetermines | ClassStatements
  | ClassMemberStatement
  | InstanceChain | InstanceDeclaration | InstanceName | InstanceConstraints | InstanceHead
  | InstanceStatements | InstanceSignatureStatement | InstanceEquationStatement
  | ForeignImportDataDeclaration | ForeignImportValueDeclaration
  | NewtypeSignature | NewtypeEquation
  | DataSignature | DataEquation | DataConstructor
  | DeriveDeclaration
  | TermOperator | TypeOperator
  deriving DecidableEq, Repr, Inhabited

/-- The three kinds that only the layout algorithm emits. -/
def SyntaxKind.isLayoutToken : SyntaxKind → Bool
  | .LAYOUT_START | .LAYOUT_SEPARATOR | .LAYOUT_END => true
  | _ => false

/-- A kind for a token of the source other than the end of the file. -/
def SyntaxKind.isInner (kind : SyntaxKind) : Bool := !kind.isLayoutToken && kind != .END_OF_FILE

/-- A kind that a rule may give to a node: neither the placeholder nor one of the two kinds that the
tree builder makes itself. -/
def SyntaxKind.isRuleNode (kind : SyntaxKind) : Bool :=
  kind != .Node && kind != SyntaxKind.Annotation && kind != .Qualifier

/-- A set of token kinds. -/
abbrev TokenSet := List SyntaxKind

/-- `TokenSet::contains`. -/
def TokenSet.contains (set : TokenSet) (kind : SyntaxKind) : Bool := decide (kind ∈ set)

end Iris
