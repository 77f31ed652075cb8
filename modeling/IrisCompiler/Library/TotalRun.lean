import Mathlib.Tactic.Common

/-!
# Total correctness of stateful programs that can fail

A program over a state `σ` that can fail with an `ε` is a `StateT σ (Except ε)` computation.
`Ends program s post` says that the program, started in `s`, comes to an end without failing and
that `post` holds of its result and of the state it leaves: it is the weakest precondition of
`post`, so it computes along the program's own structure and the rules below are equivalences.

A loop of the source is `loop`: its body takes the loop's variables and either goes around again
with new ones or leaves with a result.  It runs on fuel and *fails* when the fuel is gone, so that
`Ends` of a loop does say that the loop is left.  `Ends.loop` is the rule for it: an invariant, and
a measure that every round decreases.
-/

namespace TotalRun

variable {σ ε α β τ ρ : Type}

/-- From `s` the program ends without failing, and its result and last state satisfy `post`. -/
def Ends (program : StateT σ (Except ε) α) (s : σ) (post : α → σ → Prop) : Prop :=
  ∃ a t, program.run s = .ok (a, t) ∧ post a t

/-! ## Rules for the constructs -/

variable {s : σ} {post : α → σ → Prop} {program : StateT σ (Except ε) α}

@[simp] lemma ends_pure {a : α} : Ends (pure a : StateT σ (Except ε) α) s post ↔ post a s := by
  constructor
  · rintro ⟨_, _, ⟨⟩, holds⟩
    exact holds
  · exact fun holds => ⟨a, s, rfl, holds⟩

@[simp] lemma ends_bind {next : α → StateT σ (Except ε) β} {post : β → σ → Prop} :
    Ends (program >>= next) s post ↔ Ends program s fun a t => Ends (next a) t post := by
  simp only [Ends, StateT.run_bind]
  cases program.run s with
  | error e => simp [bind, Except.bind]
  | ok result =>
    obtain ⟨a, t⟩ := result
    simp [bind, Except.bind]

@[simp] lemma ends_get {post : σ → σ → Prop} :
    Ends (get : StateT σ (Except ε) σ) s post ↔ post s s := by
  simp [Ends, pure, Except.pure]

@[simp] lemma ends_set {t : σ} {post : PUnit → σ → Prop} :
    Ends (set t : StateT σ (Except ε) PUnit) s post ↔ post ⟨⟩ t := by
  constructor
  · rintro ⟨_, _, ⟨⟩, holds⟩
    exact holds
  · exact fun holds => ⟨⟨⟩, t, rfl, holds⟩

@[simp] lemma ends_modify {update : σ → σ} {post : PUnit → σ → Prop} :
    Ends (modify update : StateT σ (Except ε) PUnit) s post ↔ post ⟨⟩ (update s) := by
  constructor
  · rintro ⟨_, _, ⟨⟩, holds⟩
    exact holds
  · exact fun holds => ⟨⟨⟩, update s, rfl, holds⟩

@[simp] lemma ends_throw {e : ε} : Ends (throw e : StateT σ (Except ε) α) s post ↔ False := by
  simp [Ends, throw, throwThe, MonadExceptOf.throw]

lemma Ends.mono {program : StateT σ (Except ε) α} {s : σ} {post weaker : α → σ → Prop}
    (h : Ends program s post) (himp : ∀ a t, post a t → weaker a t) : Ends program s weaker := by
  obtain ⟨a, t, hrun, holds⟩ := h
  exact ⟨a, t, hrun, himp a t holds⟩

/-- `Ends.mono` with the stronger postcondition given first. -/
lemma Ends.of_imp {weaker : α → σ → Prop} (post : α → σ → Prop)
    (himp : ∀ a t, post a t → weaker a t)
    (h : Ends program s post) : Ends program s weaker :=
  h.mono himp

/-- A program has one run: what two postconditions say of it holds together. -/
lemma Ends.and {other : α → σ → Prop} (h : Ends program s post) (h' : Ends program s other) :
    Ends program s fun a t => post a t ∧ other a t := by
  obtain ⟨a, t, hrun, holds⟩ := h
  obtain ⟨a', t', hrun', holds'⟩ := h'
  obtain ⟨rfl, rfl⟩ : a = a' ∧ t = t' := by simpa [hrun] using hrun'
  exact ⟨a, t, hrun, holds, holds'⟩

lemma ends_ite {condition : Prop} [Decidable condition] {yes no : StateT σ (Except ε) α} :
    Ends (if condition then yes else no) s post ↔
      (condition → Ends yes s post) ∧ (¬ condition → Ends no s post) := by
  by_cases h : condition <;> simp [h]

/-! ## Loops -/

/-- What the body of a loop decides: go around again with new variables, or leave. -/
inductive Turn (τ ρ : Type) where
  | again (next : τ)
  | leave (result : ρ)

/-- Run `body` until it leaves, at most `fuel` times; `exhausted` is the failure after that. -/
def loop (exhausted : ε) (body : τ → StateT σ (Except ε) (Turn τ ρ)) :
    ℕ → τ → StateT σ (Except ε) ρ
  | 0, _ => throw exhausted
  | fuel + 1, x => do
    match ← body x with
    | .again y => loop exhausted body fuel y
    | .leave result => pure result

/-- **A loop ends when every round keeps the invariant and decreases the measure.**  The result
satisfies what the body guarantees when it leaves. -/
theorem Ends.loop {exhausted : ε} {body : τ → StateT σ (Except ε) (Turn τ ρ)} {post : ρ → σ → Prop}
    (invariant : τ → σ → Prop) (measure : τ → σ → ℕ)
    (hround : ∀ x s, invariant x s → Ends (body x) s fun turn t =>
      match turn with
      | .again y => invariant y t ∧ measure y t < measure x s
      | .leave result => post result t) {fuel : ℕ} {x : τ} (henough : measure x s < fuel)
    (hstart : invariant x s) : Ends (TotalRun.loop exhausted body fuel x) s post := by
  induction fuel generalizing x s with
  | zero => omega
  | succ fuel ih =>
    simp only [TotalRun.loop, ends_bind]
    refine (hround x s hstart).mono fun turn t holds => ?_
    cases turn with
    | again y => exact ih (by have := holds.2; omega) holds.1
    | leave result => exact ends_pure.mpr holds

end TotalRun
