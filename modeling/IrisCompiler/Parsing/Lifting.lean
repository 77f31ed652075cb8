import Mathlib.Data.List.Forall2
import IrisCompiler.Library.Simulation
import IrisCompiler.Parsing.Program

/-!
# What a rule does depends on the tokens from its index on

A rule never reads what was there before it: its output and its errors are the same on top of any
output and any errors.  That is what allows the parser to store the output of a failed alternative
and to replay it elsewhere.

`Correspondence` collects what two parsers must have in common for the same code to do the same to
both; `Program.exec_simulates` is the induction over the code, done once.  The correspondence used
here is `Lifted`: one parser is the other with more output and errors below, and with another table
of failed alternatives.  It works in both directions.
-/

namespace Iris.Parsing

open TotalRun

section Correspondence

variable {ρ : Type}

/-- Two scopes with the same variables and corresponding markers. -/
abbrev ScopesRelated (markers : NodeMarker → NodeMarker → Prop) : Scope → Scope → Prop :=
  List.Forall₂ fun (v, held) (v', held') => v = v' ∧ Option.Rel markers held held'

/-- The same result in related scopes. -/
abbrev ResultsRelated (markers : NodeMarker → NodeMarker → Prop) {α : Type} (x y : α × Scope) :
    Prop :=
  x.1 = y.1 ∧ ScopesRelated markers x.2 y.2

/-- Every method of the parser does the same to two corresponding parsers. -/
structure Correspondence (E : Panic → Prop) (R : Parser ρ → Parser ρ → Prop)
    (markers : NodeMarker → NodeMarker → Prop) : Prop where
  nth : ∀ index, Simulates E R Eq (Parser.nth index) (Parser.nth index)
  consume : Simulates E R Eq Parser.consume Parser.consume
  advance : ∀ kind, Simulates E R Eq (Parser.advance kind) (Parser.advance kind)
  annotate : Simulates E R Eq Parser.annotate Parser.annotate
  qualify : Simulates E R Eq Parser.qualify Parser.qualify
  error : ∀ reason, Simulates E R Eq (Parser.error reason) (Parser.error reason)
  start : Simulates E R markers Parser.start Parser.start
  finish : ∀ {m m'} kind, markers m m' → Simulates E R Eq (m.finish kind) (m'.finish kind)
  cancel : ∀ {m m'}, markers m m' → Simulates E R Eq m.cancel m'.cancel
  tokenIndex : ∀ {m m'}, markers m m' → m'.tokenIndex = m.tokenIndex
  index : ∀ {s t}, R s t → t.index = s.index
  succeeded : ∀ {s t s' t'}, R s t → R s' t' →
    t'.succeededSince t.checkpoint = s'.succeededSince s.checkpoint
  rewind : ∀ {s t s' t'}, R s t → R s' t' → R (s'.rewind s.checkpoint) (t'.rewind t.checkpoint)
  failed : ∀ {s t s' t'}, R s t → R s' t' →
    t'.failedSince t.checkpoint = s'.failedSince s.checkpoint
  replay : ∀ {s t} failed, R s t → R (s.replay failed) (t.replay failed)

variable {E : Panic → Prop} {R : Parser ρ → Parser ρ → Prop}
  {markers : NodeMarker → NodeMarker → Prop}

/-- A choice between alternatives is of the given kind. -/
def Command.Chooses (chosen : ρ → ρ → ρ → Prop) : Command ρ → Prop
  | .prefer leading rule other => chosen leading rule other
  | _ => True

/-- All choices between alternatives in the code are of the given kind. -/
def Program.Chooses (chosen : ρ → ρ → ρ → Prop) : {α : Type} → Program ρ α → Prop
  | _, .pure _ => True
  | _, .ask _ _ next => ∀ answer, (next answer).Chooses chosen
  | _, .act command next => command.Chooses chosen ∧ next.Chooses chosen
  | _, .loop body next => body.Chooses chosen ∧ ∀ ran, (next ran).Chooses chosen
  | _, .invoke body next => body.Chooses chosen ∧ ∀ answer, (next answer).Chooses chosen

variable {scope scope' : Scope} {v : Variable}

/-- Moving a variable out of related scopes. -/
lemma take_related {rest : Scope} {held : Option NodeMarker}
    (hrelated : ScopesRelated markers scope scope') (htaken : scope.take v = some (held, rest)) :
    ∃ held' rest', scope'.take v = some (held', rest') ∧ Option.Rel markers held held' ∧
      ScopesRelated markers rest rest' := by
  induction hrelated generalizing held rest with
  | nil => exact absurd htaken (by simp [Scope.take])
  | @cons entry entry' scope scope' heads htails ih =>
    obtain ⟨w, here⟩ := entry
    obtain ⟨w', here'⟩ := entry'
    obtain ⟨rfl, hsame⟩ := heads
    by_cases hfound : w = v
    · simp only [Scope.take, hfound, if_true, Option.some.injEq, Prod.mk.injEq] at htaken ⊢
      obtain ⟨rfl, rfl⟩ := htaken
      exact ⟨here', scope', ⟨rfl, rfl⟩, hsame, htails⟩
    · simp only [Scope.take, hfound, if_false, Option.map_eq_some_iff] at htaken ⊢
      obtain ⟨⟨found', rest₀⟩, hinner, ⟨⟩⟩ := htaken
      obtain ⟨held', rest', htaken', heldRelated, hrestRelated⟩ := ih hinner
      exact ⟨held', (w, here') :: rest', ⟨_, htaken', rfl⟩, heldRelated,
        .cons ⟨rfl, hsame⟩ hrestRelated⟩

lemma Scope.useMarker_simulates {use use' : NodeMarker → ParserM ρ Unit}
    (hrelated : ScopesRelated markers scope scope')
    (hused : ∀ {m m'}, markers m m' → Simulates E R Eq (use m) (use' m')) :
    Simulates E R (ScopesRelated markers) (scope.useMarker v use) (scope'.useMarker v use') := by
  unfold Scope.useMarker
  rcases htaken : scope.take v with _ | ⟨held, rest⟩
  · exact .ofThrow _
  · obtain ⟨held', rest', htaken', heldRelated, hrestRelated⟩ := take_related hrelated htaken
    rw [htaken']
    cases heldRelated with
    | none => exact .ofThrow _
    | some hmarker => exact .bind (hused hmarker) fun _ _ _ => .ofPure hrestRelated

lemma Scope.defused_simulates (hrelated : ScopesRelated markers scope scope') :
    Simulates E R Eq (scope.defused : ParserM ρ Unit) scope'.defused := by
  have hsame : scope'.any (fun (_, held) => held.isSome) =
      scope.any fun (_, held) => held.isSome := by
    induction hrelated with
    | nil => rfl
    | @cons entry entry' _ _ heads _ ih =>
      obtain ⟨v, held⟩ := entry
      obtain ⟨v', held'⟩ := entry'
      have : held'.isSome = held.isSome := by cases heads.2 <;> rfl
      rw [List.any_cons, ih]
      exact congrArg (· || _) this
  unfold Scope.defused
  rw [hsame]
  split
  · exact .ofThrow _
  · exact .ofPure rfl

variable (hsame : Correspondence E R markers) {rules rules' : Rules ρ} {chosen : ρ → ρ → ρ → Prop}
  (hcall : ∀ rule, Simulates E R Eq (rules.call rule) (rules'.call rule))
  (hchoose : ∀ {leading rule other}, chosen leading rule other →
    Simulates E R Eq (rules.prefer leading rule other) (rules'.prefer leading rule other))

include hsame

namespace Correspondence

lemma finishNonEmpty {m m' : NodeMarker} (kind : SyntaxKind) (hrelated : markers m m') :
    Simulates E R Eq (m.finishNonEmpty kind) (m'.finishNonEmpty kind) := by
  refine .bind .ofGet fun s t here => ?_
  rw [hsame.index here, hsame.tokenIndex hrelated]
  split
  · exact hsame.finish kind hrelated
  · exact hsame.cancel hrelated

lemma optional {rule rule' : ParserM ρ Unit} (hsimulates : Simulates E R Eq rule rule') :
    Simulates E R Eq (Parser.optional rule) (Parser.optional rule') := by
  refine .bind .ofGet fun s t hbefore => .bind hsimulates fun _ _ _ =>
    .bind .ofGet fun s' t' hafter => ?_
  rw [hsame.succeeded hbefore hafter]
  split
  · exact .ofPure rfl
  · exact .ofModify (hsame.rewind hbefore)

lemma prefer {call call' : ρ → ParserM ρ Unit} {rule other : ρ}
    (hsimulates : Simulates E R Eq (call rule) (call' rule))
    (hotherSimulates : Simulates E R Eq (call other) (call' other)) :
    Simulates E R Eq (Parser.prefer call rule other) (Parser.prefer call' rule other) := by
  refine .bind .ofGet fun s t hbefore => .bind hsimulates fun _ _ _ =>
    .bind .ofGet fun s' t' hafter => ?_
  rw [hsame.succeeded hbefore hafter]
  split
  · exact .ofPure rfl
  · refine .bind .ofGet fun s₁ t₁ hfailing => ?_
    refine .bind (.ofModify (hsame.rewind hbefore)) fun _ _ _ => .bind hotherSimulates fun _ _ _ =>
      .bind .ofGet fun s₂ t₂ hfinally_ => ?_
    rw [hsame.succeeded hbefore hfinally_]
    split
    · exact .ofPure rfl
    · refine .bind (.ofModify (hsame.rewind hbefore)) fun _ _ _ => ?_
      rw [hsame.failed hbefore hfailing]
      exact .ofModify (hsame.replay _)

include hcall hchoose in
/-- The same command does the same to corresponding parsers. -/
lemma commandExec {command : Command ρ} (hchoice : command.Chooses chosen)
    (hrelated : ScopesRelated markers scope scope') :
    Simulates E R (ScopesRelated markers) (command.exec rules scope)
      (command.exec rules' scope') := by
  cases command with
  | consume => exact .bind hsame.consume fun _ _ _ => .ofPure hrelated
  | advance set kind => exact .bind (hsame.advance kind) fun _ _ _ => .ofPure hrelated
  | annotate => exact .bind hsame.annotate fun _ _ _ => .ofPure hrelated
  | qualify => exact .bind hsame.qualify fun _ _ _ => .ofPure hrelated
  | error reason => exact .bind (hsame.error reason) fun _ _ _ => .ofPure hrelated
  | start v =>
    exact .bind hsame.start fun m m' hmarker =>
      .ofPure (.cons ⟨rfl, .some hmarker⟩ hrelated)
  | unset v => exact .ofPure (.cons ⟨rfl, .none⟩ hrelated)
  | startOnce v message =>
    simp only [Command.exec]
    rcases htaken : scope.take v with _ | ⟨held, rest⟩
    · exact .ofThrow _
    · obtain ⟨held', rest', htaken', heldRelated, hrestRelated⟩ := take_related hrelated htaken
      rw [htaken']
      cases heldRelated with
      | none =>
        exact .bind hsame.start fun m m' hmarker => .bind (hsame.error _) fun _ _ _ =>
          .ofPure (.cons ⟨rfl, .some hmarker⟩ hrestRelated)
      | some hmarker => exact .ofPure hrelated
  | finish v kind => exact Scope.useMarker_simulates hrelated (hsame.finish kind)
  | finishNonEmpty v kind => exact Scope.useMarker_simulates hrelated (hsame.finishNonEmpty kind)
  | finishSome v kind =>
    simp only [Command.exec]
    rcases htaken : scope.take v with _ | ⟨held, rest⟩
    · exact .ofThrow _
    · obtain ⟨held', rest', htaken', heldRelated, hrestRelated⟩ := take_related hrelated htaken
      rw [htaken']
      cases heldRelated with
      | none => exact .ofPure hrestRelated
      | some hmarker => exact .bind (hsame.finish kind hmarker) fun _ _ _ => .ofPure hrestRelated
  | cancel v => exact Scope.useMarker_simulates hrelated hsame.cancel
  | call rule => exact .bind (hcall rule) fun _ _ _ => .ofPure hrelated
  | optional rule => exact .bind (hsame.optional (hcall rule)) fun _ _ _ => .ofPure hrelated
  | prefer leading rule other => exact .bind (hchoose hchoice) fun _ _ _ => .ofPure hrelated

end Correspondence

include hcall hchoose

variable {laps laps' : ℕ} (hle : laps ≤ laps')

include hle

/-- **The same code does the same to corresponding parsers.** -/
theorem Program.exec_simulates {α : Type} {program : Program ρ α}
    (hchoices : program.Chooses chosen)
    (hrelated : ScopesRelated markers scope scope') :
    Simulates E R (ResultsRelated markers) (program.exec rules laps scope)
      (program.exec rules' laps' scope') := by
  induction program generalizing scope scope' with
  | pure a => exact .ofPure ⟨rfl, hrelated⟩
  | ask index set next ih =>
    refine .bind (hsame.nth index) fun kind kind' hequal => ?_
    subst hequal
    exact ih _ (hchoices _) hrelated
  | act command next ih =>
    exact .bind (hsame.commandExec hcall hchoose hchoices.1 hrelated) fun _ _ hafter =>
      ih hchoices.2 hafter
  | loop body next ihBody ihNext =>
    -- the variables of the loop are whether it ran before, and the scope
    refine .bind (.loop (Q := ResultsRelated markers) (V := ResultsRelated markers) ?_ hle
      ⟨rfl, hrelated⟩) fun result result' hafter => ?_
    · rintro ⟨ran, scope⟩ ⟨_, scope'⟩ ⟨rfl, here⟩
      refine .bind (ihBody hchoices.1 here) ?_
      rintro ⟨again, after⟩ ⟨_, after'⟩ ⟨rfl, hthere⟩
      cases again <;> exact .ofPure ⟨rfl, hthere⟩
    · obtain ⟨ran, after₁⟩ := result
      obtain ⟨rfl, hthere⟩ := hafter
      exact ihNext _ (hchoices.2 _) hthere
  | invoke body next ihBody ihNext =>
    refine .bind (ihBody hchoices.1 .nil) fun inner inner' hafter => ?_
    refine .bind (Scope.defused_simulates hafter.2) fun _ _ _ => ?_
    rw [hafter.1]
    exact ihNext _ (hchoices.2 _) hrelated

/-- The code of a rule does the same to corresponding parsers. -/
lemma Program.execRule_simulates {program : Program ρ Unit} (hchoices : program.Chooses chosen) :
    Simulates E R Eq (program.execRule rules laps) (program.execRule rules' laps') :=
  .bind (Program.exec_simulates hsame hcall hchoose hle hchoices .nil) fun _ _ hafter =>
    Scope.defused_simulates hafter.2

end Correspondence

/-! ## More output below -/

/-- The table of failed alternatives. -/
abbrev Failures (ρ : Type) := ℕ × ρ → Option FailedAlternative

/-- The parser with more output and more errors below, and with another table. -/
def Parser.above {ρ : Type} (s : Parser ρ) (events : List Event) (errors : List ParserError)
    (table : Failures ρ) : Parser ρ :=
  { s with
    output := events ++ s.output
    errors := errors ++ s.errors
    failedAlternatives := table }

/-- The marker for the same event with `below` more events before it. -/
def NodeMarker.above (below : ℕ) (m : NodeMarker) : NodeMarker :=
  { m with index := below + m.index }

section Runs

variable {ρ : Type} (s : Parser ρ) (m : NodeMarker)

lemma run_consume : (Parser.consume : ParserM ρ Unit).run s = match s.tokens[s.index]? with
    | some kind => .ok ((), s.advanced kind)
    | none => .error .outOfBounds := by
  cases here : s.tokens[s.index]? <;> simp [Parser.consume, here] <;> rfl

lemma run_start : (Parser.start : ParserM ρ NodeMarker).run s =
    .ok (s.marker, s.emit (.Start .Node)) := rfl

lemma run_finish (kind : SyntaxKind) : (m.finish kind : ParserM ρ Unit).run s =
    match s.output[m.index]? with
    | some (.Start _) =>
      .ok ((), { s with output := s.output.set m.index (.Start kind) ++ [Event.Finish] })
    | some _ => .error .unreachable
    | none => .error .outOfBounds := by
  simp only [NodeMarker.finish, StateT.run_bind, StateT.run_get, pure_bind]
  cases s.output[m.index]? with
  | none => rfl
  | some event => cases event <;> rfl

lemma run_cancel : (m.cancel : ParserM ρ Unit).run s = if m.index + 1 = s.output.length then
      if s.output.getLast? = some (.Start .Node) then
        .ok ((), { s with output := s.output.dropLast })
      else .error .unreachable
    else .ok ((), s) := by
  simp only [NodeMarker.cancel, StateT.run_bind, StateT.run_get, pure_bind]
  split
  · split
    · next hlast => rw [hlast]; rfl
    · next hother => rw [if_neg hother]; rfl
  · rfl

end Runs

section Lifted

variable {ρ α β : Type} (events : List Event) (errors : List ParserError)

/-- `q` does to a lifted parser what `p` does to the parser itself, and `p` keeps the tokens and the
absence of the counter. -/
structure Uniform (result : α → β) (p : ParserM ρ α) (q : ParserM ρ β) : Prop where
  commutes : ∀ s table, q.run (s.above events errors table) =
    (p.run s).map fun (a, s') => (result a, s'.above events errors table)
  keeps : ∀ s, ∀ {a s'}, p.run s = .ok (a, s') →
    s'.tokens = s.tokens ∧ (s.fuel = none → s'.fuel = none)

variable (kinds : List SyntaxKind) (tables : Failures ρ → Prop)

/-- `t` is `s` with the given output and errors below, and with one of the given tables. -/
structure Lifted (s t : Parser ρ) : Prop where
  tokens : s.tokens = kinds
  free : s.fuel = none
  table : ∃ table, tables table ∧ t = s.above events errors table

variable {events errors kinds tables}

namespace Uniform

variable {result : α → β} {p : ParserM ρ α} {q : ParserM ρ β}

lemma up (h : Uniform events errors result p q) :
    Simulates Never (Lifted events errors kinds tables) (fun a b => b = result a) p q := by
  refine .ofEnds ?_
  rintro s _ ⟨htokens, hfree, table, hvalid, rfl⟩ a s' hrun
  have hkeeps := h.keeps s hrun
  refine ⟨result a, s'.above events errors table, ?_, rfl,
    hkeeps.1.trans htokens, hkeeps.2 hfree, table, hvalid, rfl⟩
  rw [h.commutes, hrun]
  rfl

lemma down (h : Uniform events errors result p q) :
    Simulates Never (fun t s => Lifted events errors kinds tables s t)
      (fun b a => b = result a) q p := by
  refine .ofEnds ?_
  rintro _ s ⟨htokens, hfree, table, hvalid, rfl⟩ b t hrun
  rw [h.commutes] at hrun
  cases hran : p.run s with
  | error e => simp [hran, Except.map] at hrun
  | ok pair =>
    obtain ⟨a, s'⟩ := pair
    have hkeeps := h.keeps s hran
    simp only [hran] at hrun
    obtain ⟨rfl, rfl⟩ := hrun
    exact ⟨a, s', hran, rfl, hkeeps.1.trans htokens, hkeeps.2 hfree, table, hvalid, rfl⟩

lemma ofModify {f : Parser ρ → Parser ρ}
    (hcommutes : ∀ s table, f (s.above events errors table) = (f s).above events errors table)
    (hkeeps : ∀ s, (f s).tokens = s.tokens ∧ (s.fuel = none → (f s).fuel = none)) :
    Uniform events errors id (modify f : ParserM ρ Unit) (modify f) where
  commutes s table := congrArg (fun t => Except.ok ((), t)) (hcommutes s table)
  keeps s a s' hrun := by
    cases hrun
    exact hkeeps s

lemma nth (index : ℕ) :
    Uniform events errors id (Parser.nth index : ParserM ρ SyntaxKind) (Parser.nth index) where
  commutes s table := by
    obtain ⟨i, tokens, output, errors, fuel, failures⟩ := s
    match fuel with
    | none => rfl
    | some 0 => rfl
    | some (fuel + 1) => rfl
  keeps s a s' hrun := by
    obtain ⟨i, tokens, output, errors, fuel, failures⟩ := s
    match fuel, hrun with
    | none, hrun => cases hrun; exact ⟨rfl, fun _ => rfl⟩
    | some (fuel + 1), hrun => cases hrun; exact ⟨rfl, fun h => absurd h (by simp)⟩

lemma advance (kind : SyntaxKind) :
    Uniform events errors id (Parser.advance kind : ParserM ρ Unit) (Parser.advance kind) :=
  ofModify (fun s table => by simp [Parser.above, Parser.advanced, Parser.refuel])
    fun s => ⟨rfl, fun hfree => by simp [Parser.advanced, Parser.refuel, hfree]⟩

lemma consume : Uniform events errors id (Parser.consume : ParserM ρ Unit) Parser.consume where
  commutes s table := by
    have hlifted : (s.above events errors table).tokens[(s.above events errors table).index]? =
        s.tokens[s.index]? := rfl
    rw [run_consume, run_consume, hlifted]
    cases s.tokens[s.index]? with
    | none => rfl
    | some kind =>
      have := (@advance ρ events errors kind).commutes s table
      exact this
  keeps s a s' hrun := by
    rw [run_consume] at hrun
    cases here : s.tokens[s.index]? with
    | none => simp [here] at hrun
    | some kind =>
      rw [here] at hrun
      exact (@advance ρ events errors kind).keeps s hrun

lemma emit (event : Event) : Uniform events errors id
    (modify fun s : Parser ρ => s.emit event : ParserM ρ Unit) (modify fun s => s.emit event) :=
  ofModify (fun s table => by simp [Parser.above, Parser.emit]) fun s => ⟨rfl, id⟩

lemma error (reason : ParserError) :
    Uniform events errors id (Parser.error reason : ParserM ρ Unit) (Parser.error reason) :=
  ofModify (fun s table => by simp [Parser.above, Parser.failed]) fun s => ⟨rfl, id⟩

lemma start : Uniform events errors (NodeMarker.above events.length)
    (Parser.start : ParserM ρ NodeMarker) Parser.start where
  commutes s table := by
    have hmarker : (s.above events errors table).marker = s.marker.above events.length := by
      simp [Parser.marker, Parser.above, NodeMarker.above]
    have hemitted : (s.above events errors table).emit (.Start .Node) =
        (s.emit (.Start .Node)).above events errors table := by
      simp [Parser.above, Parser.emit]
    rw [run_start, hmarker, hemitted]
    rfl
  keeps s a s' hrun := by
    cases hrun
    exact ⟨rfl, id⟩

lemma finish (m : NodeMarker) (kind : SyntaxKind) : Uniform events errors id
    (m.finish kind : ParserM ρ Unit) ((m.above events.length).finish kind) where
  commutes s table := by
    have hthere : (s.above events errors table).output[(m.above events.length).index]? =
        s.output[m.index]? := by
      simp only [Parser.above, NodeMarker.above]
      rw [List.getElem?_append_right (Nat.le_add_right _ _), Nat.add_sub_cancel_left]
    rw [run_finish, run_finish, hthere]
    match s.output[m.index]? with
    | none => rfl
    | some (.Start _) =>
      refine congrArg (fun t => Except.ok ((), t)) ?_
      simp [Parser.above, NodeMarker.above]
    | some .Annotate => rfl
    | some .Qualify => rfl
    | some (.Token _) => rfl
    | some .Error => rfl
    | some .Finish => rfl
  keeps s a s' hrun := by
    rw [run_finish] at hrun
    split at hrun
    · cases hrun
      exact ⟨rfl, id⟩
    · cases hrun
    · cases hrun

lemma cancel (m : NodeMarker) :
    Uniform events errors id (m.cancel : ParserM ρ Unit) (m.above events.length).cancel where
  commutes s table := by
    have hlength : (m.above events.length).index + 1 = (s.above events errors table).output.length ↔
        m.index + 1 = s.output.length := by
      simp only [Parser.above, NodeMarker.above, List.length_append]
      omega
    rw [run_cancel, run_cancel]
    by_cases hlast : m.index + 1 = s.output.length
    · have hsome : s.output ≠ [] := by
        intro hempty
        simp [hempty] at hlast
      have hevent : (s.above events errors table).output.getLast? = s.output.getLast? :=
        List.getLast?_append_of_ne_nil _ hsome
      have hrest : (s.above events errors table).output.dropLast = events ++ s.output.dropLast :=
        List.dropLast_append_of_ne_nil hsome
      rw [if_pos (hlength.mpr hlast), hevent, hrest]
      split <;> rfl
    · rw [if_neg hlast, if_neg (mt hlength.mp hlast)]
      rfl
  keeps s a s' hrun := by
    rw [run_cancel] at hrun
    split at hrun
    · split at hrun
      · cases hrun
        exact ⟨rfl, id⟩
      · cases hrun
    · cases hrun
      exact ⟨rfl, id⟩

end Uniform

/-! ### Checkpoints -/

variable (events errors) (s s' : Parser ρ) (table table' : Failures ρ)

lemma succeededSince_above :
    (s'.above events errors table').succeededSince (s.above events errors table).checkpoint =
      s'.succeededSince s.checkpoint := by
  simp [Parser.succeededSince, Parser.checkpoint, Parser.above]

lemma rewind_above :
    (s'.above events errors table').rewind (s.above events errors table).checkpoint =
      (s'.rewind s.checkpoint).above events errors table' := by
  simp [Parser.rewind, Parser.checkpoint, Parser.above, List.take_length_add_append]

lemma failedSince_above :
    (s'.above events errors table').failedSince (s.above events errors table).checkpoint =
      s'.failedSince s.checkpoint := by
  simp [Parser.failedSince, Parser.checkpoint, Parser.above]

lemma replay_above (failed : FailedAlternative) :
    (s.above events errors table).replay failed =
      (s.replay failed).above events errors table := by
  by_cases hfurther : failed.index > s.index
  · simp [Parser.replay, Parser.above, Parser.refuel, hfurther]
  · simp [Parser.replay, Parser.above, hfurther]

variable {events errors s s'} {t t' : Parser ρ}

lemma Lifted.replay (failed : FailedAlternative) (h : Lifted events errors kinds tables s t) :
    Lifted events errors kinds tables (s.replay failed) (t.replay failed) := by
  obtain ⟨htokens, hfree, table, hvalid, rfl⟩ := h
  refine ⟨?_, ?_, table, hvalid, replay_above events errors s table failed⟩
  · simp only [Parser.replay]
    split <;> exact htokens
  · simp only [Parser.replay]
    split
    · simp [Parser.refuel, hfree]
    · exact hfree

lemma Lifted.index (h : Lifted events errors kinds tables s t) : t.index = s.index := by
  obtain ⟨_, _, _, _, rfl⟩ := h
  rfl

variable (hbefore : Lifted events errors kinds tables s t)
  (hafter : Lifted events errors kinds tables s' t')

include hbefore hafter

lemma Lifted.rewind :
    Lifted events errors kinds tables (s'.rewind s.checkpoint) (t'.rewind t.checkpoint) := by
  obtain ⟨_, _, _, _, rfl⟩ := hbefore
  obtain ⟨htokens, hfree, table, hvalid, rfl⟩ := hafter
  exact ⟨htokens, hfree, table, hvalid, rewind_above events errors s s' _ _⟩

lemma Lifted.succeeded :
    t'.succeededSince t.checkpoint = s'.succeededSince s.checkpoint := by
  obtain ⟨_, _, _, _, rfl⟩ := hbefore
  obtain ⟨_, _, _, _, rfl⟩ := hafter
  exact succeededSince_above events errors s s' _ _

lemma Lifted.failed :
    t'.failedSince t.checkpoint = s'.failedSince s.checkpoint := by
  obtain ⟨_, _, _, _, rfl⟩ := hbefore
  obtain ⟨_, _, _, _, rfl⟩ := hafter
  exact failedSince_above events errors s s' _ _

omit hbefore hafter

/-- **Lifting is a correspondence**: code does the same on top of more output. -/
theorem lifted_corresponds : Correspondence Never (Lifted events errors kinds tables)
    fun m m' => m' = m.above events.length where
  nth index := (Uniform.nth index).up.mono fun _ _ h => h.symm
  consume := Uniform.consume.up.mono fun _ _ h => h.symm
  advance kind := (Uniform.advance kind).up.mono fun _ _ h => h.symm
  annotate := (Uniform.emit .Annotate).up.mono fun _ _ h => h.symm
  qualify := (Uniform.emit .Qualify).up.mono fun _ _ h => h.symm
  error reason := (Uniform.error reason).up.mono fun _ _ h => h.symm
  start := Uniform.start.up
  finish kind hmarker := hmarker ▸ (Uniform.finish _ kind).up.mono fun _ _ h => h.symm
  cancel hmarker := hmarker ▸ (Uniform.cancel _).up.mono fun _ _ h => h.symm
  tokenIndex hmarker := hmarker ▸ rfl
  index := Lifted.index
  succeeded := Lifted.succeeded
  rewind := Lifted.rewind
  failed := Lifted.failed
  replay := Lifted.replay

/-- Taking output away from below is a correspondence, too. -/
theorem lowered_corresponds :
    Correspondence Never (fun t s => Lifted events errors kinds tables s t)
    fun m' m => m' = m.above events.length where
  nth index := (Uniform.nth index).down
  consume := Uniform.consume.down
  advance kind := (Uniform.advance kind).down
  annotate := (Uniform.emit .Annotate).down
  qualify := (Uniform.emit .Qualify).down
  error reason := (Uniform.error reason).down
  start := Uniform.start.down
  finish kind hmarker := hmarker ▸ (Uniform.finish _ kind).down
  cancel hmarker := hmarker ▸ (Uniform.cancel _).down
  tokenIndex hmarker := hmarker ▸ rfl
  index h := (Lifted.index h).symm
  succeeded hbefore hafter := (Lifted.succeeded hbefore hafter).symm
  rewind := Lifted.rewind
  failed hbefore hafter := (Lifted.failed hbefore hafter).symm
  replay := Lifted.replay

end Lifted

/-! ## Rules -/

section Rules

variable {ρ : Type} {grammar : ρ → Program ρ Unit} {E : Panic → Prop}
  {R : Parser ρ → Parser ρ → Prop} {markers : NodeMarker → NodeMarker → Prop}

lemma Program.chooses_any {α : Type} (program : Program ρ α) :
    program.Chooses fun _ _ _ => True := by
  induction program with
  | pure a => trivial
  | ask _ _ next ih => exact fun answer => ih answer
  | act command next ih => exact ⟨by cases command <;> trivial, ih⟩
  | loop body next ihBody ihNext => exact ⟨ihBody, ihNext⟩
  | invoke body next ihBody ihNext => exact ⟨ihBody, ihNext⟩

/-- **A rule does the same to corresponding parsers**, also when it may go deeper. -/
theorem runPlain_simulates (hsame : Correspondence E R markers) {depth depth' : ℕ}
    (hle : depth ≤ depth') (rule : ρ) :
    Simulates E R Eq (runPlain grammar depth rule) (runPlain grammar depth' rule) := by
  induction depth generalizing depth' rule with
  | zero => exact .ofThrow _
  | succ depth ih =>
    obtain ⟨depth', rfl⟩ : ∃ n, depth' = n + 1 := ⟨depth' - 1, by omega⟩
    have hshallower : depth ≤ depth' := by omega
    exact Program.execRule_simulates hsame (ih hshallower)
      (fun _ => hsame.prefer (ih hshallower _) (ih hshallower _)) hshallower (Program.chooses_any _)

end Rules

end Iris.Parsing
