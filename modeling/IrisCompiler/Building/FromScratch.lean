import IrisCompiler.Building.Engine
import Mathlib.Logic.Relation
import Mathlib.Tactic.Common

/-!
# Evaluation from scratch

What the engine is for, without the engine: a query is evaluated by running its body over fixed
inputs, evaluating whatever it demands in the same way.  There is no cache, no revision and no
thread.  A body that panics or demands itself has no evaluation.

* `FromScratch` — the evaluation of a query; it has at most one result
  (`FromScratch.deterministic`).
* `Reaches` — a run of a body up to some point, every demand of which was answered by a value, and
  everything the run read being listed.  A cached value is one end of such a run, and the run
  stays a run over other inputs as long as what is listed keeps its value (`Reaches.transport`).
* `Demands` — the dependency graph of the queries.
-/

namespace Iris.Building

variable {σ : Schema}

/-- The values of the inputs at one time. -/
abbrev Values (σ : Schema) := σ.Input → Option σ.InputValue

/-- The body of each query. -/
abbrev Bodies (σ : Schema) := σ.Query → Body σ

/-- **Evaluation of a body**, demands being evaluated in the same way. -/
inductive Evaluates (bodies : Bodies σ) (inputs : Values σ) : Body σ → QueryResult σ → Prop
  | ret (result : QueryResult σ) : Evaluates bodies inputs (.ret result) result
  | read {key : σ.Input} {next : Option σ.InputValue → Body σ} {result : QueryResult σ} :
      Evaluates bodies inputs (next (inputs key)) result →
      Evaluates bodies inputs (.read key next) result
  | demand {query : σ.Query} {next : QueryResult σ → Body σ} {answer result : QueryResult σ} :
      Evaluates bodies inputs (bodies query) answer →
      Evaluates bodies inputs (next answer) result →
      Evaluates bodies inputs (.demand query next) result

/-- **Evaluation of a query from scratch.** -/
def FromScratch (bodies : Bodies σ) (inputs : Values σ) (query : σ.Query)
    (result : QueryResult σ) : Prop :=
  Evaluates bodies inputs (bodies query) result

section Evaluation

variable {bodies : Bodies σ} {inputs : Values σ}

variable {first second : QueryResult σ} {query : σ.Query}

lemma Evaluates.deterministic {tree : Body σ} (hfirst : Evaluates bodies inputs tree first)
    (hsecond : Evaluates bodies inputs tree second) : first = second := by
  induction hfirst generalizing second with
  | ret result =>
    cases hsecond
    rfl
  | read _ ih =>
    cases hsecond with
    | read hnext => exact ih hnext
  | demand _ _ ihanswer ihnext =>
    cases hsecond with
    | demand hanswer hnext =>
      cases ihanswer hanswer
      exact ihnext hnext

/-- **A query has one result.** -/
theorem FromScratch.deterministic (hfirst : FromScratch bodies inputs query first)
    (hsecond : FromScratch bodies inputs query second) : first = second :=
  Evaluates.deterministic hfirst hsecond

lemma FromScratch.iff_eq {result : QueryResult σ} (h : FromScratch bodies inputs query result)
    (other : QueryResult σ) : FromScratch bodies inputs query other ↔ other = result := by
  constructor
  · exact fun hother => hother.deterministic h
  · rintro rfl
    exact h

end Evaluation

/-! ## Which errors a body passes on -/

/-- The errors that say nothing about the inputs. -/
def QueryError.IsUnavailable : QueryError σ → Prop
  | .Unverifiable | .Cancelled => True
  | .Cycle _ | .MissingContent _ => False

/-- A body that passes every error of a demand on, as `?` does, except that it may recover from
`Unverifiable` and `Cancelled`. -/
def Body.Propagates : Body σ → Prop
  | .ret _ | .panic => True
  | .read _ next => ∀ value, (next value).Propagates
  | .demand _ next =>
    (∀ error : QueryError σ, ¬ error.IsUnavailable → next (.error error) = .ret (.error error)) ∧
      ∀ answer, (next answer).Propagates

/-! ## Runs of a body -/

/-- **A run of the body `start` that got to a tree.**  All its demands were answered by values, and
all that it read or demanded is in `dependencies`. -/
inductive Reaches (bodies : Bodies σ) (inputs : Values σ)
    (dependencies : List (QueryKey σ.Input σ.Query)) (start : Body σ) : Body σ → Prop
  | refl : Reaches bodies inputs dependencies start start
  | read {key : σ.Input} {next : Option σ.InputValue → Body σ} :
      Reaches bodies inputs dependencies start (.read key next) → .input key ∈ dependencies →
      Reaches bodies inputs dependencies start (next (inputs key))
  | demand {query : σ.Query} {next : QueryResult σ → Body σ} {value : σ.Value} :
      Reaches bodies inputs dependencies start (.demand query next) →
      .derived query ∈ dependencies → FromScratch bodies inputs query (.ok value) →
      Reaches bodies inputs dependencies start (next (.ok value))

section Runs

variable {bodies : Bodies σ} {inputs : Values σ} {dependencies : List (QueryKey σ.Input σ.Query)}
  {start tree : Body σ}

variable {result : QueryResult σ}

/-- A run goes on to what the tree it got to evaluates to. -/
lemma Reaches.evaluates (h : Reaches bodies inputs dependencies start tree)
    (htree : Evaluates bodies inputs tree result) : Evaluates bodies inputs start result := by
  induction h with
  | refl => exact htree
  | read _ _ ih => exact ih (.read htree)
  | demand _ _ hanswer ih => exact ih (.demand hanswer htree)

lemma Reaches.fromScratch {query : σ.Query}
    (h : Reaches bodies inputs dependencies (bodies query) (.ret result)) :
    FromScratch bodies inputs query result :=
  h.evaluates (.ret result)

lemma Reaches.mono {larger : List (QueryKey σ.Input σ.Query)} (hsubset : dependencies ⊆ larger)
    (h : Reaches bodies inputs dependencies start tree) :
    Reaches bodies inputs larger start tree := by
  induction h with
  | refl => exact .refl
  | read _ hmem ih => exact .read ih (hsubset hmem)
  | demand _ hmem hanswer ih => exact .demand ih (hsubset hmem) hanswer

/-- **A run stays a run while its dependencies keep their values.** -/
theorem Reaches.transport {others : Values σ}
    (hinput : ∀ key, .input key ∈ dependencies → inputs key = others key)
    (hderived : ∀ query value, .derived query ∈ dependencies →
      FromScratch bodies inputs query (.ok value) → FromScratch bodies others query (.ok value))
    (h : Reaches bodies inputs dependencies start tree) :
    Reaches bodies others dependencies start tree := by
  induction h with
  | refl => exact .refl
  | read _ hmem ih =>
    rw [hinput _ hmem]
    exact .read ih hmem
  | demand _ hmem hanswer ih => exact .demand ih hmem (hderived _ _ hmem hanswer)

lemma Reaches.propagates (h : Reaches bodies inputs dependencies start tree)
    (hstart : start.Propagates) : tree.Propagates := by
  induction h with
  | refl => exact hstart
  | read _ _ ih => exact ih _
  | demand _ _ _ ih => exact ih.2 _

end Runs

/-! ## The dependency graph -/

/-- The evaluation of `start` gets to a tree, whatever its demands were answered by. -/
inductive Unfolds (bodies : Bodies σ) (inputs : Values σ) (start : Body σ) : Body σ → Prop
  | refl : Unfolds bodies inputs start start
  | read {key : σ.Input} {next : Option σ.InputValue → Body σ} :
      Unfolds bodies inputs start (.read key next) →
      Unfolds bodies inputs start (next (inputs key))
  | demand {query : σ.Query} {next : QueryResult σ → Body σ} {answer : QueryResult σ} :
      Unfolds bodies inputs start (.demand query next) → FromScratch bodies inputs query answer →
      Unfolds bodies inputs start (next answer)

lemma Reaches.unfolds {bodies : Bodies σ} {inputs : Values σ}
    {dependencies : List (QueryKey σ.Input σ.Query)} {start tree : Body σ}
    (h : Reaches bodies inputs dependencies start tree) : Unfolds bodies inputs start tree := by
  induction h with
  | refl => exact .refl
  | read _ _ ih => exact .read ih
  | demand _ _ hanswer ih => exact .demand ih hanswer

/-- The evaluation of a query from scratch gets to a demand of another one. -/
def Demands (bodies : Bodies σ) (inputs : Values σ) (query other : σ.Query) : Prop :=
  ∃ next, Unfolds bodies inputs (bodies query) (.demand other next)

/-- The dependency graph has a cycle. -/
def HasCycle (bodies : Bodies σ) (inputs : Values σ) : Prop :=
  ∃ query, Relation.TransGen (Demands bodies inputs) query query

end Iris.Building
