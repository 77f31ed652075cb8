import IrisCompiler.Library.BlockScan
import IrisCompiler.Library.PointerGraph
import IrisCompiler.Library.HandOff
import IrisCompiler.Library.TotalRun
import IrisCompiler.Library.ByteText
import IrisCompiler.Library.Descent
import IrisCompiler.Library.DepthFirst
import IrisCompiler.Building.Engine
import IrisCompiler.Building.Steps
import IrisCompiler.Building.Ownership
import IrisCompiler.Building.FromScratch
import IrisCompiler.Building.Cache
import IrisCompiler.Building.Results
import IrisCompiler.Building.Errors
import IrisCompiler.Building.Progress
import IrisCompiler.Syntax.SyntaxKind
import IrisCompiler.Lexing.Categories
import IrisCompiler.Lexing.Lexed
import IrisCompiler.Lexing.Lexer
import IrisCompiler.Lexing.Scanning
import IrisCompiler.Lexing.TokenSteps
import IrisCompiler.Lexing.Lossless
import IrisCompiler.Lexing.Trivia
import IrisCompiler.Lexing.Positions
import IrisCompiler.Lexing.Layout
import IrisCompiler.Lexing.LayoutMoves
import IrisCompiler.Lexing.LayoutRuns
import IrisCompiler.Lexing.LayoutStack
import IrisCompiler.Lexing.LayoutRelocation
import IrisCompiler.Interner.Parallel
import IrisCompiler.Interner.Agreement
import IrisCompiler.Exhaustive.Patterns
import IrisCompiler.Exhaustive.Usefulness
import IrisCompiler.Exhaustive.Values
import IrisCompiler.Exhaustive.Specialisation
import IrisCompiler.Exhaustive.Exactness
import IrisCompiler.Formatting.Comments
import IrisCompiler.Functional.Tree
import IrisCompiler.Functional.Initializers
import IrisCompiler.JavaScript.Declarations
import IrisCompiler.Checking.Types
import IrisCompiler.Parsing.Parser
import IrisCompiler.Parsing.Program
import IrisCompiler.Parsing.Grammar.Types
import IrisCompiler.Parsing.Grammar.Expressions
import IrisCompiler.Parsing.Grammar.Module
import IrisCompiler.Library.ListedSet
import IrisCompiler.Parsing.Discipline
import IrisCompiler.Parsing.Grammar.Summaries
import IrisCompiler.Parsing.Segments
import IrisCompiler.Parsing.Soundness
import IrisCompiler.Library.Simulation
import IrisCompiler.Parsing.Lifting
import IrisCompiler.Parsing.Alternatives
import IrisCompiler.Parsing.Counter
import IrisCompiler.Parsing.WholeModule
import IrisCompiler.Library.TreeBuilder
import IrisCompiler.Parsing.Order
import IrisCompiler.Parsing.Builder
import IrisCompiler.Parsing.Placement
import IrisCompiler.Parsing.LosslessTree
import IrisCompiler.Library.Pratt
import IrisCompiler.Sugar.Bracketing
import IrisCompiler.Sugar.BracketingTrees
import IrisCompiler.Lexing.FirstToken
import IrisCompiler.Lexing.Names
import IrisCompiler.Library.MergeJoin
import IrisCompiler.Checking.Normalise
import IrisCompiler.Checking.Instantiation
import IrisCompiler.Checking.Improvements
import IrisCompiler.Checking.ImprovementSoundness
import IrisCompiler.Library.ValueFlow
import IrisCompiler.Library.Fuel
import IrisCompiler.Checking.Canonical
import IrisCompiler.Checking.Substitution
import IrisCompiler.Checking.Superclasses
import IrisCompiler.Checking.SuperclassHeads
import IrisCompiler.Checking.SuperclassClosure
import IrisCompiler.Checking.SuperclassSearch
import IrisCompiler.Library.Following
import IrisCompiler.Checking.Compression
import IrisCompiler.Checking.Comparison
import IrisCompiler.Checking.Overlap
import IrisCompiler.Checking.Solving
import IrisCompiler.Checking.PrimInt
import IrisCompiler.Library.OrderGraph
import IrisCompiler.Checking.PrimCompare
import IrisCompiler.Checking.CompareSoundness
import IrisCompiler.Library.Utf16
import IrisCompiler.Checking.PrimSymbol
import IrisCompiler.Lowering.StringLiterals
import IrisCompiler.JavaScript.StringValues
import IrisCompiler.Checking.Unification
import IrisCompiler.Checking.PrimRow
import IrisCompiler.Checking.UnionSteps
import IrisCompiler.Checking.RowExpansion
import IrisCompiler.Exhaustive.Witnesses
import IrisCompiler.Exhaustive.Cells
import IrisCompiler.Checking.Zonking
