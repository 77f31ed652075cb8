import IrisCompiler.Parsing.Grammar.Module
import IrisCompiler.Parsing.Discipline

/-!
# The grammar passes the check

A summary for every rule but the two that consume the end of the file, and the check of the rules
against them.
-/

namespace Iris.Parsing

open Grammar

/-- What `eat_in` is used for in the grammar. -/
def renames : List (TokenSet × SyntaxKind) :=
  [(LOWER, .LOWER), (OPERATOR, .OPERATOR), (OPERATOR_NAME, .OPERATOR_NAME), (RECORD_LABEL, .TEXT)]

/-- The first tokens of a type atom.  The set that the source tests for lacks two of them. -/
def typeAtomFirst : TokenSet := TYPE_ATOM_START ++ OPERATOR_NAME ++ [.HOLE]

def summary : RuleName → Option Summary
  | .moduleName => some { rank := 1, advances := [.UPPER] }
  | .lower => some { rank := 1, advances := LOWER }
  | .upper => some { rank := 1, advances := [.UPPER] }
  | .operator => some { rank := 1, advances := OPERATOR }
  | .operatorName => some { rank := 1, advances := OPERATOR_NAME }
  | .label => some { rank := 1, advances := RECORD_LABEL }
  | .type_ => some { rank := 9 }
  | .type1 => some { rank := 8 }
  | .type2 => some { rank := 7 }
  | .type3 => some { rank := 6, advances := typeAtomFirst }
  | .type4 => some { rank := 5, advances := typeAtomFirst }
  | .type5 => some { rank := 4, advances := typeAtomFirst }
  | .typeAtom => some { rank := 3, advances := typeAtomFirst }
  | .typeVariable => some { rank := 1, advances := LOWER }
  | .typeVariableBindings => some { rank := 2 }
  | .typeVariableBinding => some { rank := 1, advances := TYPE_VARIABLE_BINDING_START }
  | .typeParenthesis =>
    some { rank := 2, needs := some [.LEFT_PARENTHESIS], advances := [.LEFT_PARENTHESIS] }
  | .typeKindedVariable =>
    some { rank := 1, needs := some [.LEFT_PARENTHESIS], advances := [.LEFT_PARENTHESIS] }
  | .typeParenthesized =>
    some { rank := 1, needs := some [.LEFT_PARENTHESIS], advances := [.LEFT_PARENTHESIS] }
  | .typeRow =>
    some { rank := 1, needs := some [.LEFT_PARENTHESIS], advances := [.LEFT_PARENTHESIS] }
  | .rowItem => some { rank := 10, advances := RECORD_LABEL }
  | .rowTail => some { rank := 10 }
  | .typeRecord => some { rank := 1, needs := some [.LEFT_CURLY], advances := [.LEFT_CURLY] }
  | .binderLeftArrow => some { rank := 6 }
  | .binder => some { rank := 5, advances := BINDER_START }
  | .binder1 => some { rank := 4, advances := BINDER_START }
  | .binder2 => some { rank := 3, advances := BINDER_START }
  | .binderAtom => some { rank := 2, advances := BINDER_ATOM_START }
  | .whereExpression => some { rank := 14 }
  | .patternGuard => some { rank := 15, advances := PATTERN_GUARD_START }
  | .patternGuardBinder => some { rank := 14, advances := PATTERN_GUARD_START }
  | .patternGuardExpression => some { rank := 14, advances := PATTERN_GUARD_START }
  | .letBindingStatements => some { rank := 16 }
  | .letBindingSignatureOrEquationHead => some { rank := 3 }
  | .letBindingSignatureOrEquation => some { rank := 15 }
  | .letBindingPattern => some { rank := 15 }
  | .expression => some { rank := 13, advances := EXPRESSION_START }
  | .expression1 => some { rank := 12, advances := EXPRESSION_START }
  | .expression2 => some { rank := 11, advances := EXPRESSION_START }
  | .tickExpression => some { rank := 10, advances := [.TICK] }
  | .tickExpression1 => some { rank := 9 }
  | .expression3 => some { rank := 8, advances := EXPRESSION_START }
  | .expression4 => some { rank := 7, advances := ARGUMENT_START }
  | .expressionArgument => some { rank := 6, advances := [.AT] ++ ARGUMENT_START }
  | .expression5 => some { rank := 5, advances := ARGUMENT_START }
  | .caseTrunk => some { rank := 14 }
  | .caseBranches => some { rank := 16 }
  | .caseBranch => some { rank := 15 }
  | .caseBranchBinders => some { rank := 5 }
  | .doStatements => some { rank := 19 }
  | .doStatement => some { rank := 18 }
  | .doStatementLet => some { rank := 17 }
  | .doStatementBind => some { rank := 14 }
  | .doStatementDiscard => some { rank := 14 }
  | .expression6 => some { rank := 4, advances := EXPRESSION_ATOM_START }
  | .recordUpdates => some { rank := 1, needs := some [.LEFT_CURLY], advances := [.LEFT_CURLY] }
  | .recordUpdate => some { rank := 2, advances := RECORD_LABEL }
  | .expression7 => some { rank := 3, advances := EXPRESSION_ATOM_START }
  | .expressionAtom => some { rank := 2, advances := EXPRESSION_ATOM_START }
  | .endOfFile => none
  | .module_ => none
  | .moduleHeader => some { rank := 4 }
  | .exportList => some { rank := 3 }
  | .exportItem => some { rank := 2, advances := EXPORT_ITEM_START }
  | .typeItems => some { rank := 1 }
  | .importsAndStatements => some { rank := 17 }
  | .importStatement => some { rank := 4 }
  | .importList => some { rank := 3 }
  | .importItem => some { rank := 2, advances := IMPORT_ITEM_START }
  | .importAlias => some { rank := 2 }
  | .moduleStatement => some { rank := 16 }
  | .valueSignatureOrEquation => some { rank := 15 }
  | .infixDeclaration => some { rank := 1 }
  | .roleOrSynonymSignatureOrEquation => some { rank := 10 }
  | .classSignatureOrDeclaration => some { rank := 13 }
  | .classSignature => some { rank := 10 }
  | .classDeclaration => some { rank := 12 }
  | .classConstraints => some { rank := 5 }
  | .classHead => some { rank := 3 }
  | .classFunctionalDependencies => some { rank := 4 }
  | .classFunctionalDependency => some { rank := 3, advances := FUNCTIONAL_DEPENDENCY_START }
  | .classFunctionalDependencyVariables => some { rank := 2 }
  | .classStatements => some { rank := 11 }
  | .classStatement => some { rank := 10 }
  | .instanceChain => some { rank := 9 }
  | .instanceDeclaration => some { rank := 8, advances := [.ELSE] }
  | .instanceName => some { rank := 1 }
  | .instanceConstraints => some { rank := 7 }
  | .instanceHead => some { rank := 4 }
  | .instanceStatements => some { rank := 16 }
  | .instanceStatement => some { rank := 15 }
  | .deriveDeclaration => some { rank := 8 }
  | .newtypeSignatureOrEquation => some { rank := 4 }
  | .dataSignatureOrEquation => some { rank := 3 }
  | .dataConstructors => some { rank := 5 }
  | .dataConstructor => some { rank := 4 }
  | .headTypeVariableBindings => some { rank := 2 }
  | .headTypeVariableBinding => some { rank := 1, advances := HEAD_TYPE_VARIABLE_BINDING_START }
  | .foreignImport => some { rank := 10 }

/-- **Every rule passes the check.** -/
theorem grammar_summarised : Summarised renames summary grammar 19 := by
  have hchecked : ∀ rule, (summary rule).all (fun given =>
      given.keeps renames summary (grammar rule) && decide (0 < given.rank) &&
        decide (given.rank ≤ 19)) = true := by
    intro rule
    cases rule <;> decide +kernel
  have heach : ∀ {rule given}, summary rule = some given →
      given.keeps renames summary (grammar rule) = true ∧ 0 < given.rank ∧ given.rank ≤ 19 := by
    intro rule given hfound
    simpa [hfound, and_assoc] using hchecked rule
  exact ⟨fun hfound => (heach hfound).1, fun hfound => (heach hfound).2.1,
    fun hfound => (heach hfound).2.2⟩

end Iris.Parsing
