import IrisCompiler.Parsing.Program
import IrisCompiler.Library.ListedSet

/-!
# A static check of a rule's code

Three things can go wrong in a recursive descent parser: a loop or a recursion that does not
consume, a token consumed past the end, and a marker that is not ended where it should be.  All
three can be read off the code of a rule if one keeps track of what the code has found out about the
next token.  `Program.check` does that: it follows every path through the code with a `View` of the
parser, and uses a `Summary` of every other rule at a call.  A path that looks at the next token
narrows the kinds the token can have, and a path that no token takes is not followed.

The check is a computation, so that it is carried out on a whole grammar by evaluation; what it
guarantees is the subject of `Parsing.Soundness`.
-/

namespace Iris.Parsing

/-- What a rule promises its callers. -/
structure Summary where
  /-- Before anything is consumed, a rule may only call rules of smaller rank. -/
  rank : ℕ
  /-- The next token must be one of these, if given, when the rule is called. -/
  needs : Option TokenSet := none
  /-- The rule consumes a token if the next one is one of these. -/
  advances : TokenSet := []

/-- What is known at a point of a rule's code. -/
structure View where
  /-- The kinds that the next token may have. -/
  kinds : Listed SyntaxKind
  /-- A token was consumed since the rule began. -/
  moved : Bool
  /-- A token was consumed since the current round of the innermost loop began. -/
  lap : Bool
  /-- The marker variables in scope, and whether each was declared without a marker. -/
  markers : List (Variable × Bool)

namespace View

/-- The view at the start of a rule. -/
def enter (kinds : Listed SyntaxKind) : View where
  kinds := kinds
  moved := false
  lap := false
  markers := []

/-- A token was consumed, and nothing is known of the next one. -/
def stepped (view : View) : View := { view with kinds := .all, moved := true, lap := true }

/-- Whether a rule with this summary may be called here from a rule of rank `rank`. -/
def admits (view : View) (rank : ℕ) (summary : Summary) : Bool :=
  (match summary.needs with
    | none => true
    | some set => view.kinds.within set) &&
    (view.moved || decide (summary.rank < rank))

/-- Declare a variable. -/
def declare (view : View) (v : Variable) (unset : Bool) : View :=
  { view with markers := (v, unset) :: view.markers }

/-- Go on without the innermost variable, which has to be this one. -/
def release (view : View) (v : Variable) (unset : Bool) (next : View → Bool) : Bool :=
  match view.markers with
  | [] => false
  | entry :: markers => entry == (v, unset) && next { view with markers }

end View

/-- The kinds that `eat_in` turns a token's kind into, and the kind itself. -/
inductive Renamed (renames : List (TokenSet × SyntaxKind)) (kind : SyntaxKind) : SyntaxKind → Prop
  | same : Renamed renames kind kind
  | renamed {set : TokenSet} {as : SyntaxKind} (hlisted : (set, as) ∈ renames) (hmem : kind ∈ set) :
      Renamed renames kind as

section Check

variable {ρ : Type} (renames : List (TokenSet × SyntaxKind)) (table : ρ → Option Summary) (rank : ℕ)

/-- Whether the rule may be called here; a rule without a summary may not. -/
def View.allows (view : View) (rule : ρ) : Bool :=
  match table rule with
  | none => false
  | some summary => view.admits rank summary

/-- The tokens on which the rule is known to advance. -/
def advancing (rule : ρ) : TokenSet :=
  match table rule with
  | none => []
  | some summary => summary.advances

/-- Follow one command from a view into all the views after it. -/
def Command.check : Command ρ → View → (View → Bool) → Bool
  | .consume, view, next => !view.kinds.has .END_OF_FILE && next view.stepped
  | .advance set kind, view, next =>
    !view.kinds.has .END_OF_FILE && view.kinds.within set && decide ((set, kind) ∈ renames) &&
      next view.stepped
  | .annotate, view, next => next view
  | .qualify, view, next => next view
  | .error _, view, next => next view
  | .start v, view, next => next (view.declare v false)
  | .unset v, view, next => next (view.declare v true)
  | .startOnce v _, view, next => view.release v true fun _ => next view
  | .finish v kind, view, next => kind.isRuleNode && view.release v false next
  | .finishNonEmpty v kind, view, next => kind.isRuleNode && view.release v false next
  | .finishSome v kind, view, next => kind.isRuleNode && view.release v true next
  | .cancel v, view, next => view.release v false next
  | .call rule, view, next =>
    view.allows table rank rule && next view.stepped &&
      (view.kinds.within (advancing table rule) ||
        next { view with kinds := view.kinds.diff (advancing table rule) })
  | .optional rule, view, next => view.allows table rank rule && next view.stepped && next view
  | .prefer leading rule other, view, next =>
    view.allows table rank leading && view.allows table rank rule &&
      view.allows table rank other && next view.stepped &&
      (view.kinds.within (advancing table rule) && view.kinds.within (advancing table other) ||
        next view)

/-- Follow the code from a view along every path to its results. -/
def Program.check : {α : Type} → Program ρ α → View → (α → View → Bool) → Bool
  | _, .pure a, view, next => next a view
  | _, .ask 0 set answer, view, next =>
    ((view.kinds.inter set).isEmpty ||
        (answer true).check { view with kinds := view.kinds.inter set } next) &&
      ((view.kinds.diff set).isEmpty ||
        (answer false).check { view with kinds := view.kinds.diff set } next)
  | _, .ask (_ + 1) _ answer, view, next =>
    (answer true).check view next && (answer false).check view next
  | _, .act command rest, view, next =>
    command.check renames table rank view fun view => rest.check view next
  | _, .loop body rest, view, next =>
    -- the first round, then every later one: a round that goes on must have consumed
    body.check { view with lap := false } (fun again after =>
        if again then after.lap && after.markers == view.markers
        else (rest false).check { after with lap := view.lap || after.lap } next) &&
      body.check { view.stepped with lap := false } fun again after =>
        if again then after.lap && after.markers == view.markers
        else (rest true).check { after with lap := true } next
  | _, .invoke body rest, view, next =>
    body.check { view with moved := false, lap := false, markers := [] } fun answer after =>
      after.markers.isEmpty && (rest answer).check
        { after with
          moved := view.moved || after.moved
          lap := view.lap || after.lap
          markers := view.markers } next

/-- A rule keeps its summary: it may start at any token it allows, it ends every marker, and it
advances where it says so. -/
def Summary.keeps (summary : Summary) (program : Program ρ Unit) : Bool :=
  program.check renames table summary.rank
      (.enter (match summary.needs with | none => .all | some set => .only set))
      (fun _ view => view.markers.isEmpty) &&
    program.check renames table summary.rank (.enter (.only summary.advances))
      fun _ view => view.moved && view.markers.isEmpty

end Check

/-- Every summary is kept, and the ranks are between one and `top`. -/
structure Summarised {ρ : Type} (renames : List (TokenSet × SyntaxKind))
    (table : ρ → Option Summary)
    (grammar : ρ → Program ρ Unit) (top : ℕ) : Prop where
  keeps : ∀ {rule summary}, table rule = some summary →
    summary.keeps renames table (grammar rule) = true
  rank_pos : ∀ {rule summary}, table rule = some summary → 0 < summary.rank
  rank_le : ∀ {rule summary}, table rule = some summary → summary.rank ≤ top

end Iris.Parsing
