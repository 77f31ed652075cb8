import Mathlib.Data.Finset.Lattice.Basic
import Mathlib.Tactic.Common

/-!
# Functional trees

Expressions and patterns are nodes of two arenas and refer to each other by ids, so that a node may
have several parents.  Nodes of `Async` programs are left out: a module has none of them when it is
optimised or rendered.  So are the literals, operators and evidence that nodes are made of: here
only the nodes below a node are read, and the globals that it names.
-/

namespace Iris.Functional

/-- An index into the arena of expressions. -/
abbrev ExpressionId := ℕ

/-- An index into the arena of patterns. -/
abbrev PatternId := ℕ

/-- A variable that an expression binds. -/
abbrev LocalId := ℕ

/-- An instance is declared in a file or derived there. -/
inductive InstanceIdentity where
  | Declared (fileId id : ℕ)
  | Derived (fileId id : ℕ)
  deriving DecidableEq

/-- A name of a module: a term, an instance, or one that the compiler made. -/
inductive GlobalId where
  | Term (fileId item : ℕ)
  | Instance (identity : InstanceIdentity)
  | Generated (fileId id : ℕ)
  deriving DecidableEq

/-- Whether the compiler made the name. -/
def GlobalId.isGenerated : GlobalId → Bool
  | .Generated _ _ => true
  | _ => false

/-! ## Expressions -/

/-- An element of an array that is put together, or an array spread into it. -/
inductive ArrayElement where
  | Value (expression : ExpressionId)
  | Spread (expression : ExpressionId)
  deriving DecidableEq

def ArrayElement.expression : ArrayElement → ExpressionId
  | .Value expression | .Spread expression => expression

structure RecordField where
  field : String
  expression : ExpressionId
  deriving DecidableEq

/-- An update of a field, or of fields inside of it. -/
inductive RecordUpdate where
  | Leaf (field : String) (expression : ExpressionId)
  | Branch (field : String) (updates : List RecordUpdate)

/-- A binding of a `let`. -/
structure Binding where
  parameter : LocalId
  expression : ExpressionId
  deriving DecidableEq

/-- An alternative of a `case`: one pattern for each scrutinee. -/
structure CaseAlternative where
  patterns : List PatternId
  expression : ExpressionId
  deriving DecidableEq

/-- A condition, or a pattern that a value has to match. -/
inductive Guard where
  | Boolean (expression : ExpressionId)
  | Pattern (expression : ExpressionId) (pattern : PatternId)
  deriving DecidableEq

def Guard.expression : Guard → ExpressionId
  | .Boolean expression | .Pattern expression _ => expression

/-- An expression behind guards that all have to hold. -/
structure GuardedAlternative where
  guards : List Guard
  expression : ExpressionId
  deriving DecidableEq

/-- A loop of an effect; its parts are evaluated in turn. -/
inductive EffectLoop where
  | Range (start stop body : ExpressionId)
  | Each (array body : ExpressionId)
  | While (condition body : ExpressionId)
  | Until (condition : ExpressionId)
  deriving DecidableEq

/-- An effect that gives nothing but unit. -/
inductive EffectStatement where
  | ReferenceWrite (reference value : ExpressionId)
  | Loop (effectLoop : EffectLoop)
  | When (condition action : ExpressionId)
  deriving DecidableEq

/-- An effect, as a value. -/
inductive EffectExpression where
  | Pure (value : ExpressionId)
  | Bind (action : ExpressionId) (parameter : LocalId) (body : ExpressionId)
  | Map (function action : ExpressionId)
  | Apply (functionAction argumentAction : ExpressionId)
  | ReferenceNew (value : ExpressionId)
  | ReferenceRead (reference : ExpressionId)
  | ReferenceWrite (reference value : ExpressionId)
  | UncurriedApplication (function : ExpressionId) (arguments : List ExpressionId)
  | Statement (statement : EffectStatement) (unit : ExpressionId)
  deriving DecidableEq

/-- The key of a conditional case of StyleX. -/
inductive StyleXCondition where
  | Expression (condition : ExpressionId)
  | When (selector : ExpressionId) (marker : Option ExpressionId)
  deriving DecidableEq

structure StyleXConditionalCase where
  condition : StyleXCondition
  value : ExpressionId
  deriving DecidableEq

/-- A call of the StyleX library, which is rendered in place. -/
inductive StyleXExpression where
  | Call (target : String) (arguments : List ExpressionId)
  | Conditional (condition style : ExpressionId)
  | ConditionalCase (conditionalCase : StyleXConditionalCase)
  | ConditionalValue (default : ExpressionId) (cases : List StyleXConditionalCase)
  deriving DecidableEq

/-- A node of the arena of expressions. -/
inductive ExpressionKind where
  | Literal
  | Array (elements : List ExpressionId)
  | ArrayConcatenation (elements : List ArrayElement)
  | Record (fields : List RecordField)
  | RecordUpdate (record : ExpressionId) (updates : List RecordUpdate)
  | Project (record : ExpressionId) (field : String)
  | Unary (value : ExpressionId)
  | Binary (left right : ExpressionId)
  | Index (value index : ExpressionId)
  | Constructor (global : GlobalId)
  | Global (global : GlobalId)
  | Local (parameter : LocalId)
  | Abstraction (parameters : List PatternId) (body : ExpressionId)
  | UncurriedAbstraction (parameters : List PatternId) (body : ExpressionId)
  | Application (function : ExpressionId) (arguments : List ExpressionId)
  | UncurriedApplication (function : ExpressionId) (arguments : List ExpressionId)
  | StyleX (expression : StyleXExpression)
  | IfThenElse (condition consequent alternative : ExpressionId)
  | Case (scrutinees : List ExpressionId) (alternatives : List CaseAlternative)
  | Guarded (alternatives : List GuardedAlternative)
  | Let (recursive : Bool) (bindings : List Binding) (body : ExpressionId)
  | LetPattern (pattern : PatternId) (value body : ExpressionId)
  | Effect (effect : EffectExpression)
  | SynthesizedEvidence
  | TrivialEvidence

/-! ## Children -/

mutual

def RecordUpdate.children : RecordUpdate → List ExpressionId
  | .Leaf _ expression => [expression]
  | .Branch _ updates => updatesChildren updates

/-- `try_for_each_update_child`. -/
def updatesChildren : List RecordUpdate → List ExpressionId
  | [] => []
  | update :: updates => update.children ++ updatesChildren updates

end

/-- `operands` of a loop. -/
def EffectLoop.operands : EffectLoop → List ExpressionId
  | .Range start stop body => [start, stop, body]
  | .Each array body => [array, body]
  | .While condition body => [condition, body]
  | .Until condition => [condition]

/-- `operands` of a statement. -/
def EffectStatement.operands : EffectStatement → List ExpressionId
  | .ReferenceWrite reference value => [reference, value]
  | .Loop effectLoop => effectLoop.operands
  | .When condition action => [condition, action]

/-- The children of an effect, as `try_for_each_expression_child` visits them. -/
def EffectExpression.children : EffectExpression → List ExpressionId
  | .Pure value => [value]
  | .Bind action _ body => [action, body]
  | .Map function action => [function, action]
  | .Apply functionAction argumentAction => [functionAction, argumentAction]
  | .ReferenceNew value => [value]
  | .ReferenceRead reference => [reference]
  | .ReferenceWrite reference value => [reference, value]
  | .UncurriedApplication function arguments => function :: arguments
  | .Statement statement unit => statement.operands ++ [unit]

def StyleXConditionalCase.children (self : StyleXConditionalCase) : List ExpressionId :=
  (match self.condition with
    | .Expression condition => [condition]
    | .When selector marker => selector :: marker.toList) ++ [self.value]

/-- `try_for_each_child` of a StyleX expression. -/
def StyleXExpression.children : StyleXExpression → List ExpressionId
  | .Call _ arguments => arguments
  | .Conditional condition style => [condition, style]
  | .ConditionalCase conditionalCase => conditionalCase.children
  | .ConditionalValue default cases => default :: cases.flatMap StyleXConditionalCase.children

/-- `for_each_expression_child`: the children of a node in the order they are visited. -/
def ExpressionKind.children : ExpressionKind → List ExpressionId
  | .Literal | .Constructor _ | .Global _ | .Local _ | .SynthesizedEvidence | .TrivialEvidence => []
  | .Array elements => elements
  | .ArrayConcatenation elements => elements.map ArrayElement.expression
  | .Record fields => fields.map RecordField.expression
  | .RecordUpdate record updates => record :: updatesChildren updates
  | .Project record _ => [record]
  | .Unary value => [value]
  | .Binary left right => [left, right]
  | .Index value index => [value, index]
  | .Abstraction _ body | .UncurriedAbstraction _ body => [body]
  | .Application function arguments | .UncurriedApplication function arguments =>
    function :: arguments
  | .StyleX expression => expression.children
  | .IfThenElse condition consequent alternative => [condition, consequent, alternative]
  | .Case scrutinees alternatives => scrutinees ++ alternatives.map CaseAlternative.expression
  | .Guarded alternatives =>
    alternatives.flatMap fun alternative =>
      alternative.guards.map Guard.expression ++ [alternative.expression]
  | .Let _ bindings body => bindings.map Binding.expression ++ [body]
  | .LetPattern _ value body => [value, body]
  | .Effect effect => effect.children

/-- Whether the node is a function: evaluating it evaluates nothing below it. -/
def ExpressionKind.isAbstraction : ExpressionKind → Bool
  | .Abstraction _ _ | .UncurriedAbstraction _ _ => true
  | _ => false

/-! ## Patterns -/

/-- A field of a record pattern. -/
structure RecordPatternField where
  field : String
  pattern : PatternId
  deriving DecidableEq

/-- A node of the arena of patterns. -/
inductive PatternKind where
  | Variable (parameter : LocalId)
  | Named (parameter : LocalId) (pattern : PatternId)
  | Wildcard
  | Literal
  | Array (patterns : List PatternId)
  | Record (fields : List RecordPatternField)
  | Constructor (global : GlobalId) (arguments : List PatternId)
  deriving DecidableEq

/-- The patterns right below a pattern. -/
def PatternKind.children : PatternKind → List PatternId
  | .Variable _ | .Wildcard | .Literal => []
  | .Named _ pattern => [pattern]
  | .Array patterns => patterns
  | .Record fields => fields.map RecordPatternField.pattern
  | .Constructor _ arguments => arguments

/-- The two arenas. -/
structure Storage where
  expressions : ExpressionId → ExpressionKind
  patterns : PatternId → PatternKind

end Iris.Functional
