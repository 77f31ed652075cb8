import IrisCompiler.Library.TotalRun

/-!
# Simulation between stateful programs that can fail

`Simulates E R Q p q` says that every run of `p` that comes to an end is matched by a run of `q`:
from states related by `R`, `q` ends too, with a result related by `Q` and in a state related by
`R`, unless it fails with an error in `E`.  The relation composes along the structure of programs,
so that two programs of the same shape are related by relating their steps; a loop may be given more
fuel on the right.
-/

namespace TotalRun

variable {σ τ ε α β γ δ : Type}

variable {p : StateT σ (Except ε) α} {f : α → StateT σ (Except ε) β} {s : σ}

/-- A sequence that ends went through a state in between. -/
lemma of_run_bind {s' : σ} {b : β} (hrun : (p >>= f).run s = .ok (b, s')) :
    ∃ a t, p.run s = .ok (a, t) ∧ (f a).run t = .ok (b, s') := by
  rw [StateT.run_bind] at hrun
  cases hmid : p.run s with
  | error e => simp [hmid, Bind.bind, Except.bind] at hrun
  | ok result =>
    obtain ⟨a, t⟩ := result
    rw [hmid] at hrun
    exact ⟨a, t, rfl, hrun⟩

/-- A sequence goes on where its first part ends. -/
lemma run_bind_eq {t : σ} {a : α} (hfirst : p.run s = .ok (a, t)) :
    (p >>= f).run s = (f a).run t := by
  rw [StateT.run_bind, hfirst]
  rfl

/-- A sequence fails where its first part does. -/
lemma run_bind_error {e : ε} (hfirst : p.run s = .error e) : (p >>= f).run s = .error e := by
  rw [StateT.run_bind, hfirst]
  rfl

/-- What the rounds of a loop keep holds when the loop has ended. -/
lemma of_run_loop {ι : Type} {exhausted : ε} {body : ι → StateT σ (Except ε) (Turn ι α)}
    (invariant : ι → σ → Prop) (post : α → σ → Prop)
    (hround : ∀ {x s turn t}, invariant x s → (body x).run s = .ok (turn, t) → match turn with
      | .again y => invariant y t
      | .leave a => post a t) {fuel : ℕ} {x : ι} {t : σ} {a : α} (hstart : invariant x s)
    (hrun : (TotalRun.loop exhausted body fuel x).run s = .ok (a, t)) : post a t := by
  induction fuel generalizing x s with
  | zero => cases hrun
  | succ fuel ih =>
    obtain ⟨turn, s', hran, hrest⟩ := of_run_bind hrun
    have holds := hround hstart hran
    match turn, holds, hrest with
    | .again y, holds, hrest => exact ih holds hrest
    | .leave result, holds, hrest =>
      cases hrest
      exact holds

/-- What the steps of a fold keep holds when the fold has ended. -/
lemma of_run_foldlM {ι : Type} {step : α → ι → StateT σ (Except ε) α} {list : List ι}
    (invariant : α → σ → Prop)
    (hstep : ∀ x ∈ list, ∀ {a s b t}, invariant a s → (step a x).run s = .ok (b, t) →
      invariant b t) {a b : α} {t : σ} (hstart : invariant a s)
    (hrun : (list.foldlM step a).run s = .ok (b, t)) : invariant b t := by
  induction list generalizing a s with
  | nil =>
    cases hrun
    exact hstart
  | cons x list ih =>
    rw [List.foldlM_cons] at hrun
    obtain ⟨middle, s', hfirst, hrest⟩ := of_run_bind hrun
    exact ih (fun y hmem => hstep y (.tail _ hmem)) (hstep x (.head _) hstart hfirst) hrest

/-- No error at all. -/
abbrev Never : ε → Prop := fun _ => False

/-- Every run of `p` that ends is matched by a run of `q`, or by a failure in `E`. -/
def Simulates (E : ε → Prop) (R : σ → τ → Prop) (Q : α → β → Prop) (p : StateT σ (Except ε) α)
    (q : StateT τ (Except ε) β) : Prop :=
  ∀ ⦃s t⦄, R s t → ∀ ⦃a s'⦄, p.run s = .ok (a, s') →
    (∃ e, E e ∧ q.run t = .error e) ∨ Ends q t fun b t' => Q a b ∧ R s' t'

namespace Simulates

variable {E : ε → Prop} {R : σ → τ → Prop} {Q : α → β → Prop} {p : StateT σ (Except ε) α}
  {q : StateT τ (Except ε) β}

/-- Without tolerated errors every run is matched. -/
lemma ends (h : Simulates Never R Q p q) {s : σ} {t : τ} (hrelated : R s t) {a : α} {s' : σ}
    (hrun : p.run s = .ok (a, s')) : Ends q t fun b t' => Q a b ∧ R s' t' :=
  (h hrelated hrun).resolve_left fun ⟨_, hnever, _⟩ => hnever

lemma ofEnds (h : ∀ {s t}, R s t → ∀ {a s'}, p.run s = .ok (a, s') →
    Ends q t fun b t' => Q a b ∧ R s' t') : Simulates E R Q p q :=
  fun _ _ hrelated _ _ hrun => .inr (h hrelated hrun)

lemma ofPure {a : α} {b : β} (h : Q a b) :
    Simulates E R Q (pure a : StateT σ (Except ε) α) (pure b) := by
  rintro s t hrelated a s' ⟨⟩
  exact .inr (ends_pure.mpr ⟨h, hrelated⟩)

lemma ofThrow (e : ε) : Simulates E R Q (throw e) q := by
  intro s t _ a s' hrun
  exact absurd hrun (by simp [throw, throwThe, MonadExceptOf.throw])

lemma bind {Q' : γ → δ → Prop} {f : α → StateT σ (Except ε) γ} {g : β → StateT τ (Except ε) δ}
    (hfirst : Simulates E R Q p q) (hnext : ∀ a b, Q a b → Simulates E R Q' (f a) (g b)) :
    Simulates E R Q' (p >>= f) (q >>= g) := by
  intro s t hrelated c s' hrun
  obtain ⟨a, s₁, hmid, hrun⟩ := of_run_bind hrun
  obtain ⟨e, htolerated, hfails⟩ | ⟨b, t₁, hran, holds, hrelated₁⟩ := hfirst hrelated hmid
  · exact .inl ⟨e, htolerated, run_bind_error hfails⟩
  · have hgoesOn := hnext a b holds hrelated₁ hrun
    rw [← run_bind_eq hran] at hgoesOn
    refine hgoesOn.imp_right fun hends => ?_
    rw [ends_bind]
    exact ⟨b, t₁, hran, by simpa using hends⟩

lemma mono {Q' : α → β → Prop} (h : Simulates E R Q p q) (himp : ∀ a b, Q a b → Q' a b) :
    Simulates E R Q' p q := fun _ _ hrelated _ _ hrun =>
  (h hrelated hrun).imp_right fun hends => hends.mono fun _ _ ⟨holds, hrelated⟩ =>
    ⟨himp _ _ holds, hrelated⟩

/-- Reading the state reads related states. -/
lemma ofGet : Simulates E R R (get : StateT σ (Except ε) σ) (get : StateT τ (Except ε) τ) := by
  rintro s t hrelated a s' ⟨⟩
  exact .inr (ends_get.mpr ⟨hrelated, hrelated⟩)

lemma ofModify {f : σ → σ} {g : τ → τ} (h : ∀ {s t}, R s t → R (f s) (g t)) :
    Simulates E R Eq (modify f : StateT σ (Except ε) PUnit) (modify g) := by
  rintro s t hrelated a s' ⟨⟩
  exact .inr (ends_modify.mpr ⟨rfl, h hrelated⟩)

/-- Related rounds make related loops. -/
lemma loop {ι κ : Type} {exhausted : ε} {body : ι → StateT σ (Except ε) (Turn ι α)}
    {body' : κ → StateT τ (Except ε) (Turn κ β)} {V : ι → κ → Prop}
    (hround : ∀ x y, V x y → Simulates E R
      (fun turn turn' => match turn, turn' with
        | .again x, .again y => V x y
        | .leave a, .leave b => Q a b
        | _, _ => False) (body x) (body' y))
    {fuel fuel' : ℕ} (hle : fuel ≤ fuel') {x : ι} {y : κ} (h : V x y) :
    Simulates E R Q (TotalRun.loop exhausted body fuel x)
      (TotalRun.loop exhausted body' fuel' y) := by
  induction fuel generalizing fuel' x y with
  | zero => exact ofThrow exhausted
  | succ fuel ih =>
    obtain ⟨fuel', rfl⟩ : ∃ n, fuel' = n + 1 := ⟨fuel' - 1, by omega⟩
    refine bind (hround x y h) fun turn turn' hrelated => ?_
    match turn, turn', hrelated with
    | .again x, .again y, hrelated => exact ih (by omega) hrelated
    | .leave a, .leave b, hrelated => exact ofPure hrelated

end Simulates

end TotalRun
