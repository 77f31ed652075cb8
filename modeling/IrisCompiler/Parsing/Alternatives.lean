import IrisCompiler.Parsing.Lifting

/-!
# The table of failed alternatives cannot be seen

`prefer_with_prefix` does three things that the plain choice between two alternatives does not: it
tries the prefix first and then may run the alternatives in the other order, and it replays a stored
failure instead of running anything.  None of them changes what is parsed.

A rule has one outcome at each index (`Yields`), whatever stands before it, because rules do the
same on top of any output.  The table is sound if every entry is the outcome of its rule, a failure,
and the other alternative fails as well (`Sound`).  Then a replay is what the plain choice would
have done, and since the prefix is what the rule itself begins with, a failed prefix means a failed
rule, so that the order of the alternatives does not matter either (`Leads`).
-/

namespace Iris.Parsing

open TotalRun Iris.Parsing.Parser

variable {ρ : Type}

/-! ## Outcomes -/

/-- A parser at `index` that has done nothing yet. -/
def Parser.blank (kinds : List SyntaxKind) (index : ℕ) : Parser ρ where
  index := index
  tokens := kinds
  output := []
  errors := []
  fuel := none
  failedAlternatives := fun _ => none

/-- The parser after an outcome. -/
def Parser.after (s : Parser ρ) (outcome : FailedAlternative) : Parser ρ :=
  s.extend outcome.index outcome.output outcome.errors

/-- A program does the same on top of any output. -/
structure Placeless {α : Type} (p q : ParserM ρ α) : Prop where
  up : ∀ events errors kinds tables, Simulates Never (Lifted events errors kinds tables) Eq p q
  down : ∀ events errors kinds tables,
    Simulates Never (fun t s => Lifted events errors kinds tables s t) Eq p q

/-- A parser is a blank one with its output and errors below. -/
lemma Parser.lifted_blank (s : Parser ρ) (hfree : s.fuel = none) :
    Lifted s.output s.errors s.tokens (· = s.failedAlternatives) (.blank s.tokens s.index) s where
  tokens := rfl
  free := rfl
  table := by
    cases s
    subst hfree
    simp [blank, above]

lemma Parser.eq_after (s : Parser ρ) (hfree : s.fuel = none) {b s' : Parser ρ}
    (h : Lifted s.output s.errors s.tokens (· = s.failedAlternatives) b s') :
    s' = s.after ⟨b.index, b.output, b.errors⟩ := by
  obtain ⟨htokens, hblankFree, _, rfl, rfl⟩ := h
  cases s
  subst hfree
  simp [after, extend, above, htokens, hblankFree]

variable {α : Type} {s s' : Parser ρ} {depth : ℕ} {outcome outcome' : FailedAlternative}
  {rule leading : ρ} {kinds : List SyntaxKind} {scope : Scope} {v : Variable}

/-- A program that ends at one parser ends at every other with the same tokens ahead, with the same
outcome. -/
lemma Placeless.elsewhere {p q r : ParserM ρ α} (hfirst : Placeless p q) (hsecond : Placeless q r)
    {a : α} (hfree : s.fuel = none) (hrun : p.run s = .ok (a, s')) :
    ∃ outcome, s' = s.after outcome ∧ ∀ t : Parser ρ, t.fuel = none → t.tokens = s.tokens →
      t.index = s.index → r.run t = .ok (a, t.after outcome) := by
  obtain ⟨_, b, hran, rfl, hlifted⟩ := (hfirst.down _ _ _ _).ends (s.lifted_blank hfree) hrun
  refine ⟨_, s.eq_after hfree hlifted, fun t hfree' htokens hindex => ?_⟩
  rw [← htokens, ← hindex] at hran
  obtain ⟨_, t', hran', rfl, hlifted'⟩ := (hsecond.up _ _ _ _).ends (t.lifted_blank hfree') hran
  rw [← t.eq_after hfree' hlifted']
  exact hran'

variable {grammar : ρ → Program ρ Unit}

lemma runPlain_placeless {depth' : ℕ} (hle : depth ≤ depth') (rule : ρ) :
    Placeless (runPlain grammar depth rule) (runPlain grammar depth' rule) where
  up _ _ _ _ := runPlain_simulates lifted_corresponds hle rule
  down _ _ _ _ := runPlain_simulates lowered_corresponds hle rule

/-- What the rule does from `index` on, if it ends. -/
def Yields (grammar : ρ → Program ρ Unit) (kinds : List SyntaxKind) (index : ℕ) (rule : ρ)
    (outcome : FailedAlternative) : Prop :=
  ∃ depth, (runPlain grammar depth rule).run (.blank kinds index) =
    .ok ((), (Parser.blank kinds index).after outcome)

lemma Parser.after_injective (s : Parser ρ) (h : s.after outcome = s.after outcome') :
    outcome = outcome' := by
  cases outcome
  cases outcome'
  simpa [after, extend] using h

/-- Every run of a rule that ends shows its outcome. -/
lemma yields_of_run (hfree : s.fuel = none)
    (hrun : (runPlain grammar depth rule).run s = .ok ((), s')) :
    ∃ outcome, Yields grammar s.tokens s.index rule outcome ∧ s' = s.after outcome := by
  have hsame : Placeless (runPlain grammar depth rule) (runPlain grammar depth rule) :=
    runPlain_placeless (Nat.le_refl depth) rule
  obtain ⟨outcome, rfl, hanywhere⟩ := hsame.elsewhere hsame hfree hrun
  exact ⟨outcome, ⟨depth, hanywhere _ rfl rfl rfl⟩, rfl⟩

/-- A rule has one outcome at an index. -/
lemma Yields.unique {index : ℕ} (h : Yields grammar kinds index rule outcome)
    (h' : Yields grammar kinds index rule outcome') : outcome = outcome' := by
  -- a run that ends is the same at every greater depth
  have hdeeper : ∀ {outcome depth depth'}, depth ≤ depth' →
      (runPlain grammar depth rule).run (.blank kinds index) =
        .ok ((), (blank kinds index).after outcome) →
      (runPlain grammar depth' rule).run (.blank kinds index) =
        .ok ((), (blank kinds index).after outcome) := by
    intro outcome depth depth' hle hrun
    obtain ⟨outcome', hequal, hanywhere⟩ := (runPlain_placeless (Nat.le_refl depth) rule).elsewhere
      (runPlain_placeless hle rule) rfl hrun
    rw [hequal]
    exact hanywhere _ rfl rfl rfl
  obtain ⟨depth, hrun⟩ := h
  obtain ⟨depth', hrun'⟩ := h'
  have hfirst := hdeeper (Nat.le_max_left depth depth') hrun
  have hsecond := hdeeper (Nat.le_max_right depth depth') hrun'
  rw [hfirst] at hsecond
  exact after_injective _ (Prod.mk.inj (Except.ok.inj hsecond)).2

/-- A run of a rule has the rule's outcome. -/
lemma Yields.eq_after (h : Yields grammar s.tokens s.index rule outcome) (hfree : s.fuel = none)
    (hrun : (runPlain grammar depth rule).run s = .ok ((), s')) : s' = s.after outcome := by
  obtain ⟨outcome', h', rfl⟩ := yields_of_run hfree hrun
  rw [h.unique h']

/-! ## Prefixes -/

/-- `leading` parses what `rule` begins with: it ends where `rule` does, and its failure is a
failure of `rule`. -/
def Leads (grammar : ρ → Program ρ Unit) (leading rule : ρ) : Prop :=
  ∀ ⦃depth : ℕ⦄ ⦃s s' : Parser ρ⦄, s.fuel = none →
    (runPlain grammar depth rule).run s = .ok ((), s') →
    ∃ outcome, (runPlain grammar depth leading).run s = .ok ((), s.after outcome) ∧
      (outcome.errors ≠ [] → s'.errors ≠ s.errors)

/-- Code does the same to corresponding parsers if it is run with the same plain rules. -/
lemma exec_plain_simulates {E : Panic → Prop} {R : Parser ρ → Parser ρ → Prop}
    {markers : NodeMarker → NodeMarker → Prop} (hsame : Correspondence E R markers) (depth : ℕ)
    (program : Program ρ α) {scope' : Scope} (hrelated : ScopesRelated markers scope scope') :
    Simulates E R (ResultsRelated markers) (program.exec (plainRules grammar depth) depth scope)
      (program.exec (plainRules grammar depth) depth scope') :=
  have hcall rule := @runPlain_simulates ρ grammar _ _ _ hsame _ _ (Nat.le_refl depth) rule
  Program.exec_simulates hsame hcall (fun _ => hsame.prefer (hcall _) (hcall _)) (Nat.le_refl depth)
    program.chooses_any hrelated

/-- Running code only adds errors, and no counter. -/
lemma exec_errors {program : Program ρ α} {after : Scope} {a : α} (hfree : s.fuel = none)
    (hrun : (program.exec (plainRules grammar depth) depth scope).run s = .ok ((a, after), s')) :
    s'.fuel = none ∧ ∃ more, s'.errors = s.errors ++ more := by
  -- the code does the same if the errors so far are taken away
  have hlifted : Lifted [] s.errors s.tokens (· = s.failedAlternatives) { s with errors := [] } s :=
    ⟨rfl, hfree, s.failedAlternatives, rfl, by simp [above]⟩
  have hrelated :
      ScopesRelated (fun m' m => m' = m.above ([] : List Event).length) scope scope := by
    refine List.forall₂_same.mpr fun entry _ => ⟨rfl, ?_⟩
    cases entry.2 with
    | none => exact .none
    | some m => exact .some (by simp [NodeMarker.above])
  obtain ⟨_, t, _, _, _, hfree', _, _, rfl⟩ :=
    (exec_plain_simulates lowered_corresponds depth program hrelated).ends hlifted hrun
  exact ⟨hfree', t.errors, rfl⟩

lemma of_run_defused (hrun : (scope.defused : ParserM ρ Unit).run s = .ok ((), s')) : s = s' := by
  unfold Scope.defused at hrun
  split at hrun
  · cases hrun
  · cases hrun
    rfl

/-- A rule's code runs, and the end of its scope changes nothing. -/
lemma of_run_execRule {rules : Rules ρ} {laps : ℕ} {program : Program ρ Unit}
    (hrun : (program.execRule rules laps).run s = .ok ((), s')) :
    ∃ after, (program.exec rules laps []).run s = .ok (((), after), s') := by
  obtain ⟨⟨_, after⟩, t, hran, hended⟩ := of_run_bind hrun
  obtain rfl := of_run_defused hended
  exact ⟨after, hran⟩

/-- A rule that makes a marker and then does what `leading` does, whatever comes after. -/
lemma leads_of (first : ℕ → ParserM ρ α)
    (hplaceless : ∀ depth, Placeless (first depth) (first depth))
    (hisLeading : ∀ {depth a s t}, s.fuel = none → (first depth).run s = .ok (a, t) →
      (runPlain grammar (depth + 1) leading).run s = .ok ((), t))
    (hisFirst : ∀ {depth s s'}, s.fuel = none →
      (runPlain grammar (depth + 1) rule).run s = .ok ((), s') →
      ∃ a t, (first depth).run (s.emit (.Start .Node)) = .ok (a, t) ∧
        ∃ more, s'.errors = t.errors ++ more) : Leads grammar leading rule := by
  intro depth s s' hfree hrun
  cases depth with
  | zero =>
    exact absurd hrun (by simp [runPlain, throw, throwThe, MonadExceptOf.throw])
  | succ depth =>
    obtain ⟨a, t, hran, more, hgrown⟩ := hisFirst hfree hrun
    have hfreeThere : (s.emit (.Start .Node)).fuel = none := hfree
    obtain ⟨outcome, rfl, hanywhere⟩ :=
      (hplaceless depth).elsewhere (hplaceless depth) hfreeThere hran
    refine ⟨outcome, hisLeading hfree (hanywhere s hfree rfl rfl), fun hfailed hsame => hfailed ?_⟩
    rw [hgrown] at hsame
    have hboth : outcome.errors = [] ∧ more = [] := by
      simpa [after, extend, emit] using hsame
    exact hboth.1

/-- A rule that calls `leading` first. -/
lemma leads_of_call {rest : Program ρ Unit}
    (hcode : grammar rule = .act (.start v) (.act (.call leading) rest)) :
    Leads grammar leading rule := by
  refine leads_of (runPlain grammar · leading)
    (fun depth => runPlain_placeless (Nat.le_refl depth) leading) ?_ ?_
  · intro depth _ s t hfree hrun
    obtain ⟨outcome, rfl, hanywhere⟩ := (runPlain_placeless (Nat.le_refl depth) leading).elsewhere
      (runPlain_placeless (Nat.le_succ depth) leading) hfree hrun
    exact hanywhere s hfree rfl rfl
  · intro depth s s' hfree hrun
    obtain ⟨after, hrun⟩ := of_run_execRule hrun
    rw [hcode] at hrun
    obtain ⟨scope, _, ⟨⟩, hrun⟩ := of_run_bind hrun
    obtain ⟨scope', t, hcalled, hrun⟩ := of_run_bind hrun
    obtain ⟨_, _, hcalled, ⟨⟩⟩ := of_run_bind hcalled
    have hfree' : t.fuel = none := by
      obtain ⟨outcome, _, rfl⟩ := yields_of_run (s := s.emit (.Start .Node)) hfree hcalled
      exact hfree
    exact ⟨(), t, hcalled, (exec_errors hfree' hrun).2⟩

/-- A function that is called, for what it answers and does. -/
def answered (grammar : ρ → Program ρ Unit) (head : Program ρ Bool) (depth : ℕ) :
    ParserM ρ Bool := do
  let (answer, inner) ← head.exec (plainRules grammar depth) depth []
  inner.defused
  return answer

/-- A rule that calls the function first that `leading` is. -/
lemma leads_of_function {head : Program ρ Bool} {rest : Bool → Program ρ Unit}
    (hcode : grammar rule = .act (.start v) (.invoke head rest))
    (hcodeLeading : grammar leading = .invoke head fun _ => .pure ()) :
    Leads grammar leading rule := by
  have hsimulates : ∀ {E R markers} (_ : Correspondence E R markers) (depth : ℕ),
      Simulates E R Eq (answered grammar head depth) (answered grammar head depth) := by
    intro E R markers hsame depth
    refine .bind (exec_plain_simulates hsame depth head .nil) fun result result' hrelated => ?_
    refine .bind (Scope.defused_simulates hrelated.2) fun _ _ _ => .ofPure hrelated.1
  refine leads_of (answered grammar head) (fun depth => ⟨fun _ _ _ _ => hsimulates
    lifted_corresponds depth, fun _ _ _ _ => hsimulates lowered_corresponds depth⟩) ?_ ?_
  · intro depth answer s t hfree hrun
    obtain ⟨⟨_, inner⟩, _, hran, hrun⟩ := of_run_bind hrun
    obtain ⟨_, _, hended, ⟨⟩⟩ := of_run_bind hrun
    simp only [runPlain, hcodeLeading]
    have hcode : ((Program.invoke head fun _ => .pure ()).exec (plainRules grammar depth) depth
        []).run s = .ok (((), []), t) := (run_bind_eq hran).trans (run_bind_eq hended)
    exact (run_bind_eq hcode).trans rfl
  · intro depth s s' hfree hrun
    obtain ⟨after, hrun⟩ := of_run_execRule hrun
    rw [hcode] at hrun
    obtain ⟨scope, _, ⟨⟩, hrun⟩ := of_run_bind hrun
    obtain ⟨⟨answer, inner⟩, t, hran, hrun⟩ := of_run_bind hrun
    obtain ⟨_, t', hended, hrun⟩ := of_run_bind hrun
    obtain rfl := of_run_defused hended
    have hfree' : t.fuel = none := (exec_errors (s := s.emit (.Start .Node)) hfree hran).1
    exact ⟨answer, t, (run_bind_eq hran).trans (run_bind_eq hended), (exec_errors hfree' hrun).2⟩

/-! ## The table -/

/-- The choices between alternatives in the rules' code: each rule has one alternative, and a prefix
that it begins with. -/
structure Choices (grammar : ρ → Program ρ Unit) (chosen : ρ → ρ → ρ → Prop) : Prop where
  code : ∀ rule, (grammar rule).Chooses chosen
  other : ∀ {leading leading' rule other other'}, chosen leading rule other →
    chosen leading' rule other' → other' = other
  leads : ∀ {leading rule other}, chosen leading rule other → Leads grammar leading rule

/-- The rule fails from `index` on. -/
def Fails (grammar : ρ → Program ρ Unit) (kinds : List SyntaxKind) (index : ℕ) (rule : ρ)
    (failed : FailedAlternative) : Prop :=
  Yields grammar kinds index rule failed ∧ failed.errors ≠ []

lemma fails_of_run (hfree : s.fuel = none)
    (hran : (runPlain grammar depth rule).run s = .ok ((), s.after outcome))
    (hfails : outcome.errors ≠ []) : Fails grammar s.tokens s.index rule outcome := by
  obtain ⟨_, hyields, hsame⟩ := yields_of_run hfree hran
  obtain rfl := s.after_injective hsame
  exact ⟨hyields, hfails⟩

/-- Every entry is the failure of its rule, at an index where the other alternative fails, too. -/
def Valid (grammar : ρ → Program ρ Unit) (chosen : ρ → ρ → ρ → Prop) (kinds : List SyntaxKind)
    (table : Failures ρ) : Prop :=
  ∀ ⦃index rule failed⦄, table (index, rule) = some failed → Fails grammar kinds index rule failed ∧
    ∃ leading other, chosen leading rule other ∧ ∃ failed, Fails grammar kinds index other failed

/-- A new entry for two alternatives that fail. -/
lemma Valid.remember [DecidableEq ρ] {chosen : ρ → ρ → ρ → Prop} {table : Failures ρ}
    (hvalid : Valid grammar chosen kinds table) {index : ℕ} {other : ρ}
    (hchoice : chosen leading rule other) {failed failed' : FailedAlternative}
    (hfails : Fails grammar kinds index rule failed)
    (hotherFails : Fails grammar kinds index other failed') :
    Valid grammar chosen kinds (Function.update table (index, rule) (some failed)) := by
  intro index' rule' found hentry
  by_cases hsame : (index', rule') = (index, rule)
  · rw [hsame, Function.update_self] at hentry
    cases hsame
    cases hentry
    exact ⟨hfails, leading, other, hchoice, failed', hotherFails⟩
  · rw [Function.update_of_ne hsame] at hentry
    exact hvalid hentry

section After

variable (s : Parser ρ) (outcome : FailedAlternative) (table table' : Failures ρ)

lemma succeededSince_after :
    ((s.after outcome).above [] [] table).succeededSince (s.above [] [] table').checkpoint =
      outcome.errors.isEmpty := by
  rw [succeededSince_above]
  exact s.succeededSince_extend _ _ _

lemma rewind_after :
    ((s.after outcome).above [] [] table).rewind (s.above [] [] table').checkpoint =
      s.above [] [] table := by
  exact congrArg (above · [] [] table) (s.rewind_extend _ _ _)

lemma failedSince_after :
    ((s.after outcome).above [] [] table).failedSince (s.above [] [] table').checkpoint =
      outcome := by
  exact s.failedSince_extend _ _ _

lemma replay_after (hfree : s.fuel = none) :
    (s.above [] [] table).replay outcome = (s.after outcome).above [] [] table := by
  rw [replay_above]
  exact congrArg (above · [] [] table) (s.replay_eq_extend _ _ _ hfree)

end After

/-- What the plain choice does, in terms of the outcomes of the alternatives. -/
lemma of_run_prefer {other : ρ} (hfree : s.fuel = none)
    (hrun : (prefer (runPlain grammar depth) rule other).run s = .ok ((), s')) :
    ∃ outcome, (runPlain grammar depth rule).run s = .ok ((), s.after outcome) ∧
      (outcome.errors = [] ∧ s' = s.after outcome ∨
        outcome.errors ≠ [] ∧ ∃ outcome',
          (runPlain grammar depth other).run s = .ok ((), s.after outcome') ∧
            s' = s.after (if outcome'.errors = [] then outcome' else outcome)) := by
  have hends : Ends (prefer (runPlain grammar depth) rule other) s fun _ t => t = s' :=
    ⟨(), s', hrun, rfl⟩
  simp only [prefer, ends_bind, ends_get] at hends
  obtain ⟨_, t, hran, hends⟩ := hends
  obtain ⟨outcome, _, rfl⟩ := yields_of_run hfree hran
  refine ⟨outcome, hran, ?_⟩
  rw [after, s.succeededSince_extend] at hends
  by_cases hsucceeded : outcome.errors = []
  · rw [if_pos (by simp [hsucceeded]), ends_pure] at hends
    exact .inl ⟨hsucceeded, hends.symm⟩
  · rw [if_neg (by simp [hsucceeded])] at hends
    simp only [ends_bind, ends_get, ends_modify, s.rewind_extend] at hends
    obtain ⟨_, t, hran', hends⟩ := hends
    obtain ⟨outcome', _, rfl⟩ := yields_of_run hfree hran'
    refine .inr ⟨hsucceeded, outcome', hran', ?_⟩
    rw [after, s.succeededSince_extend] at hends
    by_cases hotherSucceeded : outcome'.errors = []
    · rw [if_pos (by simp [hotherSucceeded]), ends_pure] at hends
      rw [if_pos hotherSucceeded]
      exact hends.symm
    · rw [if_neg (by simp [hotherSucceeded])] at hends
      simp only [ends_bind, ends_modify, s.rewind_extend, s.failedSince_extend,
        s.replay_eq_extend _ _ _ hfree] at hends
      rw [if_neg hotherSucceeded]
      exact hends.symm

section Prefer

variable {chosen : ρ → ρ → ρ → Prop} {depth : ℕ} {call : ρ → ParserM ρ Unit}
  {s : Parser ρ} {leading rule other : ρ}

/-- `t` is `s`, up to a valid table. -/
abbrev Tabled (grammar : ρ → Program ρ Unit) (chosen : ρ → ρ → ρ → Prop) (s t : Parser ρ) : Prop :=
  ∃ table, Valid grammar chosen s.tokens table ∧ t = s.above [] [] table

/-- What a call does at `s` with a valid table, if the plain rule ends. -/
abbrev Matches (grammar : ρ → Program ρ Unit) (chosen : ρ → ρ → ρ → Prop) (depth : ℕ)
    (call : ρ → ParserM ρ Unit) (s : Parser ρ) : Prop :=
  ∀ ⦃rule outcome table⦄, Valid grammar chosen s.tokens table →
    (runPlain grammar depth rule).run s = .ok ((), s.after outcome) →
    Ends (call rule) (s.above [] [] table) fun _ t => Tabled grammar chosen (s.after outcome) t

/-- The prefix is tried and taken back. -/
lemma speculate_ends (hcalled : Matches grammar chosen depth call s) {table : Failures ρ}
    (hvalid : Valid grammar chosen s.tokens table) {outcome : FailedAlternative}
    (hran : (runPlain grammar depth leading).run s = .ok ((), s.after outcome)) :
    Ends (speculate (call leading)) (s.above [] [] table) fun answer t =>
      answer = outcome.errors.isEmpty ∧ Tabled grammar chosen s t := by
  simp only [speculate, ends_bind, ends_get, ends_modify, ends_pure]
  refine (hcalled hvalid hran).mono ?_
  rintro _ _ ⟨table', hvalid', rfl⟩
  rw [succeededSince_after, rewind_after]
  exact ⟨rfl, table', hvalid', rfl⟩

variable {kinds : List SyntaxKind}

/-- **The plain choice is simulated by the one of the source**, from one valid table to another. -/
theorem prefer_simulates [DecidableEq ρ] (hchoices : Choices grammar chosen)
    (hcalls : ∀ rule, Simulates Never (Lifted [] [] kinds (Valid grammar chosen kinds)) Eq
      (runPlain grammar depth rule) (call rule)) (hchoice : chosen leading rule other) :
    Simulates Never (Lifted [] [] kinds (Valid grammar chosen kinds)) Eq
      (prefer (runPlain grammar depth) rule other)
      (preferWithPrefix call leading rule other) := by
  refine .ofEnds ?_
  rintro s _ ⟨rfl, hfree, table, hvalid, rfl⟩ _ s' hrun
  obtain ⟨outcome, hran, hresult⟩ := of_run_prefer hfree hrun
  have hcalled : Matches grammar chosen depth call s := by
    intro rule outcome table hvalid hran
    exact ((hcalls rule).ends ⟨rfl, hfree, table, hvalid, rfl⟩ hran).mono fun _ t
      ⟨_, hlifted⟩ => hlifted.table
  have hdone : ∀ {outcome table}, Valid grammar chosen s.tokens table →
      Lifted [] [] s.tokens (Valid grammar chosen s.tokens) (s.after outcome)
        ((s.after outcome).above [] [] table) :=
    fun hvalid => ⟨rfl, hfree, _, hvalid, rfl⟩
  have hremembered : ∀ {outcome' table}, Valid grammar chosen s.tokens table →
      (runPlain grammar depth other).run s = .ok ((), s.after outcome') → outcome.errors ≠ [] →
      outcome'.errors ≠ [] → Valid grammar chosen s.tokens
        (Function.update table (s.index, rule) (some outcome)) :=
    fun hvalid hran' hfails hfails' =>
      hvalid.remember hchoice (fails_of_run hfree hran hfails) (fails_of_run hfree hran' hfails')
  simp only [preferWithPrefix, ends_bind, ends_get]
  have hindex : (s.above [] [] table).index = s.index := rfl
  have hentry : (s.above [] [] table).failedAlternatives = table := rfl
  rw [hindex, hentry]
  cases hfound : table (s.index, rule) with
  | some failed =>
    -- both alternatives are known to fail here
    obtain ⟨⟨hyields, hfails⟩, leading', other', hchoice', failed', hyields', hfails'⟩ :=
      hvalid hfound
    obtain rfl := hchoices.other hchoice hchoice'
    obtain rfl := s.after_injective (hyields.eq_after hfree hran)
    obtain ⟨hsucceeds, _⟩ | ⟨_, outcome', hran', rfl⟩ := hresult
    · exact absurd hsucceeds hfails
    · obtain rfl := s.after_injective (hyields'.eq_after hfree hran')
      simp only [ends_modify, if_neg hfails', replay_after _ _ _ hfree]
      exact ⟨trivial, hdone hvalid⟩
  | none =>
    simp only [ends_bind]
    obtain ⟨lead, hleadRan, hfailsToo⟩ := hchoices.leads hchoice hfree hran
    refine (speculate_ends hcalled hvalid hleadRan).mono ?_
    rintro _ _ ⟨rfl, table₁, hvalid₁, rfl⟩
    by_cases hgoesOn : lead.errors = []
    · rw [if_pos (by simp [hgoesOn])]
      simp only [ends_bind, ends_get]
      refine (hcalled hvalid₁ hran).mono ?_
      rintro _ _ ⟨table₂, hvalid₂, rfl⟩
      rw [succeededSince_after]
      obtain ⟨hsucceeds, rfl⟩ | ⟨hfails, outcome', hran', rfl⟩ := hresult
      · rw [if_pos (by simp [hsucceeds]), ends_pure]
        exact ⟨trivial, hdone hvalid₂⟩
      · rw [if_neg (by simp [hfails])]
        simp only [ends_bind, ends_get, ends_modify, rewind_after, failedSince_after]
        refine (hcalled hvalid₂ hran').mono ?_
        rintro _ _ ⟨table₃, hvalid₃, rfl⟩
        rw [succeededSince_after]
        by_cases hsucceeds' : outcome'.errors = []
        · rw [if_pos (by simp [hsucceeds']), if_pos hsucceeds', ends_pure]
          exact ⟨trivial, hdone hvalid₃⟩
        · rw [if_neg (by simp [hsucceeds']), if_neg hsucceeds']
          simp only [ends_bind, ends_modify, rewind_after, replay_after _ _ _ hfree]
          exact ⟨trivial, rfl, hfree, _, hremembered hvalid₃ hran' hfails hsucceeds', rfl⟩
    · have hfails : outcome.errors ≠ [] := by
        intro hnone
        exact hfailsToo hgoesOn (by simp [after, extend, hnone])
      rw [if_neg (by simp [hgoesOn])]
      obtain ⟨hsucceeds, _⟩ | ⟨_, outcome', hran', rfl⟩ := hresult
      · exact absurd hsucceeds hfails
      · simp only [ends_bind, ends_get]
        refine (hcalled hvalid₁ hran').mono ?_
        rintro _ _ ⟨table₂, hvalid₂, rfl⟩
        rw [succeededSince_after]
        by_cases hsucceeds' : outcome'.errors = []
        · rw [if_pos (by simp [hsucceeds']), if_pos hsucceeds', ends_pure]
          exact ⟨trivial, hdone hvalid₂⟩
        · rw [if_neg (by simp [hsucceeds']), if_neg hsucceeds']
          simp only [ends_bind, ends_get, ends_modify, rewind_after]
          refine (hcalled hvalid₂ hran).mono ?_
          rintro _ _ ⟨table₃, hvalid₃, rfl⟩
          rw [succeededSince_after, if_neg (by simp [hfails])]
          simp only [ends_bind, ends_get, ends_modify, failedSince_after]
          exact ⟨trivial, rfl, hfree, _, hremembered hvalid₃ hran' hfails hsucceeds', rfl⟩

/-- **The table cannot be seen**: what a rule does with the plain choice it does as the source runs
it, from every valid table. -/
theorem runRule_simulates [DecidableEq ρ] (hchoices : Choices grammar chosen) {depth depth' : ℕ}
    (hle : depth ≤ depth') (rule : ρ) :
    Simulates Never (Lifted [] [] kinds (Valid grammar chosen kinds)) Eq
      (runPlain grammar depth rule)
      (runRule grammar depth' rule) := by
  induction depth generalizing depth' rule with
  | zero => exact .ofThrow _
  | succ depth ih =>
    obtain ⟨depth', rfl⟩ : ∃ n, depth' = n + 1 := ⟨depth' - 1, by omega⟩
    have hshallower : depth ≤ depth' := by omega
    exact Program.execRule_simulates lifted_corresponds (ih hshallower)
      (prefer_simulates hchoices (ih hshallower)) hshallower (hchoices.code rule)

end Prefer

end Iris.Parsing
