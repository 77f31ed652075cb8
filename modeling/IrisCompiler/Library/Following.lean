import IrisCompiler.Library.Fuel

/-!
# Programs that give the same answer in related states

A program may write to its state and still not depend on what it writes: a cache, a compressed path.
`Follows R p f` says this of a program `f` that is bounded by fuel and of one of its runs `p`: where
`p` ends, `f` ends with the same result from every related state, once it has enough fuel, and both
stay in states related to the one they began in.  For the relation of equality this says that more
fuel changes nothing.

The relation composes along programs.  A recursion on fuel follows by induction on the fuel of the
run, which is why the run and the program stand apart.
-/

namespace TotalRun

variable {σ ε α β τ ρ : Type}

/-- Where `one` ends, `program` ends with the same result from every related state. -/
def Follows (R : σ → σ → Prop) (one : StateT σ (Except ε) α)
    (program : ℕ → StateT σ (Except ε) α) : Prop :=
  ∀ ⦃s s' a t⦄, R s s' → one.run s = .ok (a, t) →
    R s t ∧ Settles program s' fun b t' => b = a ∧ R s' t'

namespace Follows

variable {R : σ → σ → Prop} {one : StateT σ (Except ε) α} {program : ℕ → StateT σ (Except ε) α}

lemma pure (hR : Equivalence R) (a : α) :
    Follows R (Pure.pure a : StateT σ (Except ε) α) fun _ => Pure.pure a := by
  rintro s s' _ t hrelated ⟨⟩
  exact ⟨hR.refl s, .pure ⟨rfl, hR.refl s'⟩⟩

lemma throw (e : ε) : Follows R (MonadExcept.throw e : StateT σ (Except ε) α) program := by
  intro s s' a t _ hrun
  cases hrun

lemma bind (hR : Equivalence R) {next : α → StateT σ (Except ε) β}
    {goOn : ℕ → α → StateT σ (Except ε) β} (hfirst : Follows R one program)
    (hrest : ∀ a, Follows R (next a) fun fuel => goOn fuel a) :
    Follows R (one >>= next) fun fuel => program fuel >>= goOn fuel := by
  intro s s' b t hrelated hrun
  obtain ⟨a, s₁, hmid, hrun⟩ := of_run_bind hrun
  obtain ⟨hnear, hsettles⟩ := hfirst hrelated hmid
  refine ⟨hR.trans hnear ?_, hsettles.bind ?_⟩
  · exact (hrest a (hR.refl s₁) hrun).1
  · rintro _ t₁ ⟨rfl, hnear'⟩
    have hrelated₁ : R s₁ t₁ := hR.trans (hR.symm hnear) (hR.trans hrelated hnear')
    obtain ⟨_, hsettles⟩ := hrest _ hrelated₁ hrun
    exact hsettles.mono fun c u ⟨hsame, hnear''⟩ => ⟨hsame, hR.trans hnear' hnear''⟩

/-- A recursion whose body has one unit of fuel less. -/
lemma succ (h : Follows R one fun fuel => program (fuel + 1)) : Follows R one program :=
  fun _ _ _ _ hrelated hrun => ⟨(h hrelated hrun).1, (h hrelated hrun).2.succ⟩

/-- Rounds that follow make loops that follow. -/
theorem loop (hR : Equivalence R) {exhausted : ε} {turn : τ → StateT σ (Except ε) (Turn τ ρ)}
    {body : ℕ → τ → StateT σ (Except ε) (Turn τ ρ)}
    (hround : ∀ x, Follows R (turn x) fun fuel => body fuel x) (count : ℕ) (x : τ) :
    Follows R (TotalRun.loop exhausted turn count x)
      fun fuel => TotalRun.loop exhausted (body fuel) fuel x := by
  have hrounds (count : ℕ) (x : τ) {s s' : σ} {a : ρ} {t : σ} (hrelated : R s s')
      (hrun : (TotalRun.loop exhausted turn count x).run s = .ok (a, t)) :
      R s t ∧ Loops exhausted body x s' fun b t' => b = a ∧ R s' t' := by
    induction count generalizing x s s' with
    | zero => cases hrun
    | succ count ih =>
      obtain ⟨decision, s₁, hmid, hrun⟩ := of_run_bind hrun
      obtain ⟨hnear, hsettles⟩ := hround x hrelated hmid
      cases decision with
      | again y =>
        refine ⟨hR.trans hnear (ih y (hR.refl s₁) hrun).1, .round (hsettles.mono ?_)⟩
        rintro _ t₁ ⟨rfl, hnear'⟩
        have hrelated₁ : R s₁ t₁ := hR.trans (hR.symm hnear) (hR.trans hrelated hnear')
        exact (ih y hrelated₁ hrun).2.mono fun b u ⟨hsame, hclose⟩ =>
          ⟨hsame, hR.trans hnear' hclose⟩
      | leave result =>
        cases hrun
        refine ⟨hnear, .round (hsettles.mono ?_)⟩
        rintro _ t₁ ⟨rfl, hnear'⟩
        exact ⟨rfl, hnear'⟩
  intro s s' a t hrelated hrun
  exact ⟨(hrounds count x hrelated hrun).1, (hrounds count x hrelated hrun).2.settles⟩

variable {f : τ → StateT σ (Except ε) β} {g : ℕ → τ → StateT σ (Except ε) β}

lemma mapM (hR : Equivalence R) {list : List τ}
    (heach : ∀ x ∈ list, Follows R (f x) fun fuel => g fuel x) :
    Follows R (list.mapM f) fun fuel => list.mapM (g fuel) := by
  induction list with
  | nil => exact .pure hR []
  | cons x list ih =>
    simp only [List.mapM_cons]
    exact (heach x (.head _)).bind hR fun b =>
      (ih fun y hmem => heach y (.tail _ hmem)).bind hR fun bs => .pure hR (b :: bs)

lemma mapOption (hR : Equivalence R) (heach : ∀ x, Follows R (f x) fun fuel => g fuel x) :
    ∀ option : Option τ, Follows R (option.mapM f) fun fuel => option.mapM (g fuel)
  | none => .pure hR none
  | some x => (heach x).bind hR fun b => .pure hR (some b)

/-- **A run settles**: with more fuel the program ends as it did. -/
lemma settles (h : Follows R one program) {s s' : σ} {a : α} {t : σ} (hrelated : R s s')
    (hrun : one.run s = .ok (a, t)) : Settles program s' fun b t' => b = a ∧ R s' t' :=
  (h hrelated hrun).2

end Follows

end TotalRun
