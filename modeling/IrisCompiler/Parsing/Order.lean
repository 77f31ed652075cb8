import IrisCompiler.Parsing.Alternatives
import IrisCompiler.Parsing.Segments
import IrisCompiler.Parsing.Grammar.Module

/-!
# A qualifier comes after its annotation

The tree builder puts the annotation of a token where it is when it is told to, and the qualifier
likewise.  They end up in the order of the source only if every `Qualify` event comes after an
`Annotate` event that no token separates from it.  That the parser does so can be read off the code
of its rules: `Program.orderly` is a check that follows the code, and `runPlain_ordered` says what
it guarantees of the events of a run.
-/

namespace Iris.Parsing

open TotalRun

/-! ## Ordered events -/

/-- Whether an `Annotate` event was met since the last token; a `Qualify` event needs one. -/
def Event.order (annotated : Bool) : Event → Option Bool
  | .Annotate => some true
  | .Qualify => if annotated then some true else none
  | .Token _ => some false
  | _ => some annotated

def order (annotated : Bool) (events : List Event) : Option Bool :=
  events.foldlM Event.order annotated

lemma order_cons (annotated : Bool) (event : Event) (events : List Event) :
    order annotated (event :: events) = (Event.order annotated event).bind (order · events) := rfl

lemma order_append (annotated : Bool) (first second : List Event) :
    order annotated (first ++ second) = (order annotated first).bind (order · second) := by
  simp [order]

variable {events : List Event} {kind : SyntaxKind}

/-- One more annotation before the events does no harm. -/
lemma order_mono {annotated annotated' after : Bool} (h : order annotated events = some after)
    (hle : annotated = true → annotated' = true) :
    ∃ after', order annotated' events = some after' ∧ (after = true → after' = true) := by
  induction events generalizing annotated annotated' with
  | nil =>
    cases h
    exact ⟨annotated', rfl, hle⟩
  | cons event events ih =>
    rw [order_cons, Option.bind_eq_some_iff] at h
    obtain ⟨next, hstep, hrest⟩ := h
    have hcontinues : ∀ {next'}, (next = true → next' = true) →
        Event.order annotated' event = some next' →
        ∃ after', order annotated' (event :: events) = some after' ∧
          (after = true → after' = true) := by
      intro next' hleNext hstep'
      rw [order_cons, hstep']
      exact ih hrest hleNext
    cases event with
    | Annotate => exact hcontinues (fun _ => rfl) rfl
    | Token kind =>
      cases hstep
      exact hcontinues id rfl
    | Qualify =>
      cases annotated with
      | false => exact absurd hstep (by simp [Event.order])
      | true => exact hcontinues (fun _ => rfl) (by simp [Event.order, hle rfl])
    | Start | Error | Finish =>
      cases hstep
      exact hcontinues hle rfl

/-! ## Markers do not matter -/

/-- The events without the starts and finishes of nodes. -/
def leaves (events : List Event) : List Event := events.filter Event.isLeaf

@[simp] lemma leaves_append (first second : List Event) :
    leaves (first ++ second) = leaves first ++ leaves second := by
  simp [leaves]

lemma leaves_cons (event : Event) (events : List Event) :
    leaves (event :: events) = if event.isLeaf then event :: leaves events else leaves events :=
  List.filter_cons

lemma order_leaves (annotated : Bool) (events : List Event) :
    order annotated (leaves events) = order annotated events := by
  induction events generalizing annotated with
  | nil => rfl
  | cons event events ih =>
    cases event with
    | Start kind => exact ih annotated
    | Finish => exact ih annotated
    | Annotate => exact ih true
    | Token kind => exact ih false
    | Error => exact ih annotated
    | Qualify =>
      cases annotated with
      | true => exact ih true
      | false => rfl

/-- Naming the node of a marker changes no leaf. -/
lemma leaves_set {index : ℕ} {kind' : SyntaxKind} (h : events[index]? = some (.Start kind)) :
    leaves (events.set index (.Start kind')) = leaves events := by
  induction events generalizing index with
  | nil => rfl
  | cons event events ih =>
    cases index with
    | zero =>
      cases h
      rfl
    | succ index => rw [List.set_cons_succ, leaves_cons, leaves_cons, ih h]

lemma leaves_dropLast (h : events.getLast? = some (.Start kind)) :
    leaves events.dropLast = leaves events := by
  obtain ⟨front, rfl⟩ := List.getLast?_eq_some_iff.mp h
  simp [leaves, Event.isLeaf]

/-! ## The check -/

variable {ρ : Type}

/-- Whether the next token is known to be annotated after a command; `none` where a qualifier would
come too early.  Nothing is known after a call. -/
def Command.order (annotated : Bool) : Command ρ → Option Bool
  | .annotate => some true
  | .qualify => if annotated then some true else none
  | .consume | .advance _ _ | .call _ | .optional _ | .prefer _ _ _ => some false
  | _ => some annotated

/-- Follow the code with what is known of the next token. -/
def Program.orderly : {α : Type} → Bool → Program ρ α → Bool
  | _, _, .pure _ => true
  | _, annotated, .ask _ _ next => (next true).orderly annotated && (next false).orderly annotated
  | _, annotated, .act command next =>
    match command.order annotated with
    | none => false
    | some after => next.orderly after
  | _, _, .loop body next =>
    body.orderly false && (next true).orderly false && (next false).orderly false
  | _, _, .invoke body next =>
    body.orderly false && (next true).orderly false && (next false).orderly false

/-- What a run added to the output is ordered, and if `after` says so the next token is
annotated. -/
def Adds (annotated after : Bool) (s t : Parser ρ) : Prop :=
  t.fuel = none ∧ ∃ added, leaves t.output = leaves s.output ++ added ∧
    ∃ reached, Parsing.order annotated added = some reached ∧ (after = true → reached = true)

namespace Adds

variable {annotated after : Bool} {s t u : Parser ρ}

lemma of_leaves (hfree : t.fuel = none) (hsame : leaves t.output = leaves s.output) :
    Adds annotated annotated s t :=
  ⟨hfree, [], by rw [hsame, List.append_nil], annotated, rfl, id⟩

lemma of_event (hfree : t.fuel = none) {event : Event}
    (hsame : leaves t.output = leaves s.output ++ [event])
    (hstep : Event.order annotated event = some after) : Adds annotated after s t :=
  ⟨hfree, [event], hsame, after, by simp [Parsing.order, hstep], id⟩

/-- What is ordered without an annotation before it is ordered with one. -/
lemma of_false (h : Adds false after s t) (annotated : Bool) : Adds annotated after s t := by
  obtain ⟨hfree, added, hsplit, reached, hfound, hle⟩ := h
  obtain ⟨reached', hfound', hle'⟩ := order_mono hfound (absurd · Bool.false_ne_true)
  exact ⟨hfree, added, hsplit, reached', hfound', fun h => hle' (hle h)⟩

lemma forget (h : Adds annotated after s t) : Adds annotated false s t := by
  obtain ⟨hfree, added, hsplit, reached, hfound, _⟩ := h
  exact ⟨hfree, added, hsplit, reached, hfound, (absurd · Bool.false_ne_true)⟩

/-- One run after the other. -/
lemma trans {last : Bool} (h : Adds annotated after s t) (h' : Adds after last t u) :
    Adds annotated last s u := by
  obtain ⟨_, added, hsplit, reached, hfound, hle⟩ := h
  obtain ⟨hfree, added', hsplit', reached', hfound', hle'⟩ := h'
  obtain ⟨last', hfound, hle''⟩ := order_mono hfound' hle
  refine ⟨hfree, added ++ added', by rw [hsplit', hsplit, List.append_assoc], last', ?_,
    fun h => hle'' (hle' h)⟩
  rw [order_append, ‹Parsing.order annotated added = some reached›, Option.bind_some, hfound]

variable {m : NodeMarker}

lemma of_finish {kind : SyntaxKind} (hfree : s.fuel = none)
    (hrun : (m.finish kind).run s = .ok ((), t)) : Adds annotated annotated s t := by
  rw [run_finish] at hrun
  split at hrun
  · next hfound =>
    cases hrun
    refine of_leaves hfree ?_
    rw [leaves_append, leaves_set hfound]
    exact List.append_nil _
  · cases hrun
  · cases hrun

lemma of_cancel (hfree : s.fuel = none) (hrun : m.cancel.run s = .ok ((), t)) :
    Adds annotated annotated s t := by
  rw [run_cancel] at hrun
  split at hrun
  · split at hrun
    · next hlast =>
      cases hrun
      exact of_leaves hfree (leaves_dropLast hlast)
    · cases hrun
  · cases hrun
    exact of_leaves hfree rfl

end Adds

section Sound

variable {grammar : ρ → Program ρ Unit} {depth : ℕ} {s t : Parser ρ}

variable {scope scope' : Scope} {annotated : Bool}

lemma of_run_useMarker {v : Variable} {use : NodeMarker → ParserM ρ Unit}
    (hrun : (scope.useMarker v use).run s = .ok (scope', t)) :
    ∃ m, (use m).run s = .ok ((), t) := by
  unfold Scope.useMarker at hrun
  split at hrun
  · next m rest _ =>
    obtain ⟨_, _, hused, ⟨⟩⟩ := of_run_bind hrun
    exact ⟨m, hused⟩
  · cases hrun

section Calls

variable (hcalls : ∀ {rule s t}, s.fuel = none →
  (runPlain grammar depth rule).run s = .ok ((), t) → Adds false false s t)

include hcalls

/-- What a command adds. -/
lemma Command.order_sound {command : Command ρ} {after : Bool}
    (hchecked : command.order annotated = some after) (hfree : s.fuel = none)
    (hrun : (command.exec (plainRules grammar depth) scope).run s = .ok (scope', t)) :
    Adds annotated after s t := by
  have hfreeAdvanced : ∀ kind, (s.advanced kind).fuel = none := fun kind => by
    simp [Parser.advanced, Parser.refuel, hfree]
  cases command with
  | consume =>
    cases hchecked
    obtain ⟨_, _, hran, ⟨⟩⟩ := of_run_bind hrun
    rw [run_consume] at hran
    split at hran
    · cases hran
      exact .of_event (hfreeAdvanced _) (leaves_append _ _) rfl
    · cases hran
  | advance set kind =>
    cases hchecked
    cases hrun
    exact .of_event (hfreeAdvanced kind) (leaves_append _ _) rfl
  | annotate | error =>
    cases hchecked
    cases hrun
    exact .of_event hfree (leaves_append _ _) rfl
  | qualify =>
    cases hrun
    exact .of_event hfree (leaves_append _ _) hchecked
  | start v =>
    cases hchecked
    cases hrun
    exact .of_leaves hfree ((leaves_append _ _).trans (List.append_nil _))
  | unset v =>
    cases hchecked
    cases hrun
    exact .of_leaves hfree rfl
  | startOnce v message =>
    cases hchecked
    simp only [Command.exec] at hrun
    split at hrun
    · cases hrun
      have hstarted : leaves (s.emit (.Start .Node)).output = leaves s.output :=
        (leaves_append _ _).trans (List.append_nil _)
      have hfailed : leaves ((s.emit (.Start .Node)).failed (.Message message)).output =
          leaves s.output ++ [.Error] := (leaves_append _ _).trans (by rw [hstarted]; rfl)
      exact .of_event hfree hfailed rfl
    · cases hrun
      exact .of_leaves hfree rfl
    · cases hrun
  | finish v kind =>
    cases hchecked
    obtain ⟨m, hran⟩ := of_run_useMarker hrun
    exact .of_finish hfree hran
  | finishNonEmpty v kind =>
    cases hchecked
    obtain ⟨m, hran⟩ := of_run_useMarker hrun
    obtain ⟨_, _, ⟨⟩, hran⟩ := of_run_bind hran
    split at hran
    · exact .of_finish hfree hran
    · exact .of_cancel hfree hran
  | finishSome v kind =>
    cases hchecked
    simp only [Command.exec] at hrun
    split at hrun
    · cases hrun
      exact .of_leaves hfree rfl
    · obtain ⟨_, _, hran, ⟨⟩⟩ := of_run_bind hrun
      exact .of_finish hfree hran
    · cases hrun
  | cancel v =>
    cases hchecked
    obtain ⟨m, hran⟩ := of_run_useMarker hrun
    exact .of_cancel hfree hran
  | call rule =>
    cases hchecked
    obtain ⟨_, _, hran, ⟨⟩⟩ := of_run_bind hrun
    exact (hcalls hfree hran).of_false annotated
  | optional rule =>
    cases hchecked
    obtain ⟨_, _, hrun, ⟨⟩⟩ := of_run_bind hrun
    obtain ⟨_, _, ⟨⟩, hrun⟩ := of_run_bind hrun
    obtain ⟨_, t', hran, hrest⟩ := of_run_bind hrun
    obtain ⟨outcome, _, rfl⟩ := yields_of_run hfree hran
    obtain ⟨_, _, ⟨⟩, hrest⟩ := of_run_bind hrest
    split at hrest
    · cases hrest
      exact (hcalls hfree hran).of_false annotated
    · cases hrest
      have hback : (s.after outcome).rewind s.checkpoint = s := s.rewind_extend _ _ _
      change Adds annotated false s ((s.after outcome).rewind s.checkpoint)
      rw [hback]
      exact (Adds.of_leaves hfree rfl).forget
  | prefer leading rule other =>
    cases hchecked
    obtain ⟨_, _, hrun, ⟨⟩⟩ := of_run_bind hrun
    obtain ⟨outcome, hran, ⟨_, rfl⟩ | ⟨_, outcome', hran', rfl⟩⟩ := of_run_prefer hfree hrun
    · exact (hcalls hfree hran).of_false annotated
    · split
      · exact (hcalls hfree hran').of_false annotated
      · exact (hcalls hfree hran).of_false annotated

/-- **Code that passes the check adds ordered events.** -/
theorem Program.orderly_sound {laps : ℕ} {α : Type} {program : Program ρ α}
    (hchecked : program.orderly annotated = true) {a : α} (hfree : s.fuel = none)
    (hrun : (program.exec (plainRules grammar depth) laps scope).run s = .ok ((a, scope'), t)) :
    Adds annotated false s t := by
  induction program generalizing s t scope scope' annotated with
  | pure a =>
    cases hrun
    exact (Adds.of_leaves hfree rfl).forget
  | ask index set next ih =>
    obtain ⟨kind, s', hlooked, hrun⟩ := of_run_bind hrun
    obtain rfl : s = s' := by
      simp only [Parser.nth, StateT.run_bind, StateT.run_get, pure_bind, hfree] at hlooked
      cases hlooked
      rfl
    simp only [Program.orderly, Bool.and_eq_true] at hchecked
    cases hanswer : set.contains kind with
    | true => exact ih true hchecked.1 hfree (hanswer ▸ hrun)
    | false => exact ih false hchecked.2 hfree (hanswer ▸ hrun)
  | act command next ih =>
    obtain ⟨scope₁, s₁, hran, hrun⟩ := of_run_bind hrun
    simp only [Program.orderly] at hchecked
    split at hchecked
    · exact absurd hchecked Bool.false_ne_true
    · next after hfound =>
      have hadded := Command.order_sound hcalls hfound hfree hran
      exact hadded.trans (ih hchecked hadded.1 hrun)
  | loop body next ihBody ihNext =>
    simp only [Program.orderly, Bool.and_eq_true] at hchecked
    obtain ⟨⟨ran, after⟩, s₁, hlooped, hrun⟩ := of_run_bind hrun
    have hadded : Adds false false s s₁ := by
      refine of_run_loop (fun _ u => Adds false false s u) (fun _ u => Adds false false s u) ?_
        (Adds.of_leaves hfree rfl) hlooped
      rintro ⟨before, inner⟩ u turn v hso hround
      obtain ⟨⟨again, inner'⟩, _, hran, ⟨⟩⟩ := of_run_bind hround
      have hmore := hso.trans (ihBody hchecked.1.1 hso.1 hran)
      cases again with
      | true => exact hmore
      | false => exact hmore
    have hadded := hadded.of_false annotated
    cases ran with
    | true => exact hadded.trans (ihNext true hchecked.1.2 hadded.1 hrun)
    | false => exact hadded.trans (ihNext false hchecked.2 hadded.1 hrun)
  | invoke body next ihBody ihNext =>
    simp only [Program.orderly, Bool.and_eq_true] at hchecked
    obtain ⟨⟨answer, inner⟩, s₁, hran, hrun⟩ := of_run_bind hrun
    obtain ⟨_, s₂, hended, hrun⟩ := of_run_bind hrun
    obtain rfl := of_run_defused hended
    have hadded := (ihBody hchecked.1.1 hfree hran).of_false annotated
    cases answer with
    | true => exact hadded.trans (ihNext true hchecked.1.2 hadded.1 hrun)
    | false => exact hadded.trans (ihNext false hchecked.2 hadded.1 hrun)

end Calls

/-- **The events of a rule are ordered**, if the code of all rules passes the check. -/
theorem runPlain_ordered (hchecked : ∀ rule, (grammar rule).orderly false = true) {rule : ρ}
    (hfree : s.fuel = none) (hrun : (runPlain grammar depth rule).run s = .ok ((), t)) :
    Adds false false s t := by
  induction depth generalizing rule s t with
  | zero => cases hrun
  | succ depth ih =>
    obtain ⟨after, hrun⟩ := of_run_execRule hrun
    exact Program.orderly_sound ih (hchecked rule) hfree hrun

end Sound

lemma grammar_orderly (rule : RuleName) : (grammar rule).orderly false = true := by
  cases rule <;> decide +kernel

end Iris.Parsing
