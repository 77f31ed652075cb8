import IrisCompiler.Library.TotalRun
import IrisCompiler.Library.Simulation

/-!
# Enough fuel

A program that is bounded by fuel *settles* if, with enough of it, it always ends in the same way.
Programs that settle are composed like programs that end: the fuel that is enough for the whole is
the largest of what its parts need.
-/

namespace TotalRun

variable {σ ε α β τ ρ : Type}

/-- With enough fuel the program ends in one way, and the postcondition holds there. -/
def Settles (program : ℕ → StateT σ (Except ε) α) (s : σ) (post : α → σ → Prop) : Prop :=
  ∃ a t enough, (∀ fuel ≥ enough, (program fuel).run s = .ok (a, t)) ∧ post a t

section Rules

variable {program : ℕ → StateT σ (Except ε) α} {s : σ} {post weaker : α → σ → Prop}

lemma Settles.mono (h : Settles program s post) (himp : ∀ a t, post a t → weaker a t) :
    Settles program s weaker := by
  obtain ⟨a, t, enough, hrun, holds⟩ := h
  exact ⟨a, t, enough, hrun, himp a t holds⟩

variable {a : α} {next : ℕ → α → StateT σ (Except ε) β} {last : β → σ → Prop}

lemma Settles.pure (h : post a s) :
    Settles (fun _ => (Pure.pure a : StateT σ (Except ε) α)) s post :=
  ⟨a, s, 0, fun _ _ => rfl, h⟩

/-- A program settles in one way: what two postconditions say of it holds together. -/
lemma Settles.and {other : α → σ → Prop} (h : Settles program s post)
    (h' : Settles program s other) : Settles program s fun a t => post a t ∧ other a t := by
  obtain ⟨a, t, enough, hrun, holds⟩ := h
  obtain ⟨a', t', enough', hrun', holds'⟩ := h'
  obtain ⟨rfl, rfl⟩ : a = a' ∧ t = t' := by
    simpa [hrun (max enough enough') (by omega)] using hrun' (max enough enough') (by omega)
  exact ⟨a, t, enough, hrun, holds, holds'⟩

/-- What holds of the result is what holds of the value that the program settles at. -/
lemma Settles.iff_of_eq (h : Settles program s fun b _ => b = a) {P : α → Prop} :
    (Settles program s fun b _ => P b) ↔ P a := by
  constructor
  · intro h'
    obtain ⟨_, _, _, _, rfl, holds⟩ := h.and h'
    exact holds
  · exact fun holds => h.mono fun b _ hsame => hsame ▸ holds

/-- A program that is another one for large fuel. -/
lemma Settles.congr {other : ℕ → StateT σ (Except ε) α} (h : Settles other s post) (least : ℕ)
    (hsame : ∀ fuel ≥ least, program fuel = other fuel) : Settles program s post := by
  obtain ⟨a, t, enough, hrun, holds⟩ := h
  refine ⟨a, t, max enough least, fun fuel hlarge => ?_, holds⟩
  rw [hsame fuel (by omega)]
  exact hrun fuel (by omega)

lemma Settles.bind (h : Settles program s post)
    (hstep : ∀ a t, post a t → Settles (fun fuel => next fuel a) t last) :
    Settles (fun fuel => program fuel >>= next fuel) s last := by
  obtain ⟨a, t, enough, hrun, holds⟩ := h
  obtain ⟨b, u, enough', hrun', holds'⟩ := hstep a t holds
  refine ⟨b, u, max enough enough', fun fuel hlarge => ?_, holds'⟩
  rw [run_bind_eq (hrun fuel (by omega))]
  exact hrun' fuel (by omega)

/-- A first part that needs no fuel. -/
lemma Settles.bind_run {t : σ} (hrun : ∀ fuel, (program fuel).run s = .ok (a, t))
    (h : Settles (fun fuel => next fuel a) t last) :
    Settles (fun fuel => program fuel >>= next fuel) s last := by
  obtain ⟨b, u, enough, hrun', holds⟩ := h
  refine ⟨b, u, enough, fun fuel hlarge => ?_, holds⟩
  rw [run_bind_eq (hrun fuel)]
  exact hrun' fuel hlarge

/-- A first part that only needs enough fuel. -/
lemma Settles.bind_pure (least : ℕ) (hsame : ∀ fuel ≥ least, program fuel = Pure.pure a)
    (h : Settles (fun fuel => next fuel a) s last) :
    Settles (fun fuel => program fuel >>= next fuel) s last := by
  refine h.congr least fun fuel hlarge => ?_
  rw [hsame fuel hlarge, pure_bind]

/-- A recursion whose body has one unit of fuel less. -/
lemma Settles.succ (h : Settles (fun fuel => program (fuel + 1)) s post) :
    Settles program s post := by
  obtain ⟨a, t, enough, hrun, holds⟩ := h
  refine ⟨a, t, enough + 1, fun fuel hlarge => ?_, holds⟩
  obtain ⟨fuel, rfl⟩ : ∃ less, fuel = less + 1 := ⟨fuel - 1, by omega⟩
  exact hrun fuel (by omega)

/-- A program that has more fuel than it needs. -/
lemma Settles.more (h : Settles program s post) :
    Settles (fun fuel => program (fuel + 1)) s post := by
  obtain ⟨a, t, enough, hrun, holds⟩ := h
  exact ⟨a, t, enough, fun fuel hlarge => hrun (fuel + 1) (by omega), holds⟩

/-- A fold settles when every step settles and keeps the invariant. -/
lemma Settles.foldlM {step : ℕ → β → τ → StateT σ (Except ε) β} {list : List τ} {b : β}
    (invariant : β → σ → Prop)
    (heach : ∀ x ∈ list, ∀ b s, invariant b s → Settles (fun fuel => step fuel b x) s invariant)
    (hstart : invariant b s) :
    Settles (fun fuel => list.foldlM (step fuel) b) s invariant := by
  induction list generalizing b s with
  | nil => exact .pure hstart
  | cons x list ih =>
    exact (heach x (.head _) b s hstart).bind fun b t hkept =>
      ih (fun y hmem => heach y (.tail _ hmem)) hkept

end Rules

section Rounds

variable {exhausted : ε} {body : ℕ → τ → StateT σ (Except ε) (Turn τ ρ)}
    {post weaker : ρ → σ → Prop}
  {x : τ} {s : σ}

/-- The rounds of a loop settle: their number and the fuel of each are bounded apart. -/
def Loops (exhausted : ε) (body : ℕ → τ → StateT σ (Except ε) (Turn τ ρ)) (x : τ) (s : σ)
    (post : ρ → σ → Prop) : Prop :=
  ∃ a t enough, (∀ fuel ≥ enough, ∀ more ≥ enough,
    (TotalRun.loop exhausted (body fuel) more x).run s = .ok (a, t)) ∧ post a t

/-- **One more round.** -/
theorem Loops.round (h : Settles (fun fuel => body fuel x) s fun turn t =>
      match turn with
      | .again y => Loops exhausted body y t post
      | .leave result => post result t) : Loops exhausted body x s post := by
  obtain ⟨turn, t, enough, hrun, holds⟩ := h
  cases turn with
  | again y =>
    obtain ⟨a, u, enough', hrun', holds'⟩ := holds
    refine ⟨a, u, max enough enough' + 1, fun fuel hlarge more hmany => ?_, holds'⟩
    obtain ⟨more, rfl⟩ : ∃ less, more = less + 1 := ⟨more - 1, by omega⟩
    rw [TotalRun.loop, run_bind_eq (hrun fuel (by omega))]
    exact hrun' fuel (by omega) more (by omega)
  | leave result =>
    refine ⟨result, t, enough + 1, fun fuel hlarge more hmany => ?_, holds⟩
    obtain ⟨more, rfl⟩ : ∃ less, more = less + 1 := ⟨more - 1, by omega⟩
    rw [TotalRun.loop, run_bind_eq (hrun fuel (by omega))]
    rfl

lemma Loops.mono (h : Loops exhausted body x s post)
    (himp : ∀ a t, post a t → weaker a t) : Loops exhausted body x s weaker := by
  obtain ⟨a, t, enough, hrun, holds⟩ := h
  exact ⟨a, t, enough, hrun, himp a t holds⟩

lemma Loops.settles (h : Loops exhausted body x s post) :
    Settles (fun fuel => TotalRun.loop exhausted (body fuel) fuel x) s post := by
  obtain ⟨a, t, enough, hrun, holds⟩ := h
  exact ⟨a, t, enough, fun fuel hlarge => hrun fuel hlarge fuel hlarge, holds⟩

/-- **A loop settles** when every round settles, keeps the invariant and decreases the measure. -/
theorem Settles.loop (invariant : τ → σ → Prop) (measure : τ → σ → ℕ)
    (hround : ∀ x s, invariant x s → Settles (fun fuel => body fuel x) s fun turn t =>
      match turn with
      | .again y => invariant y t ∧ measure y t < measure x s
      | .leave result => post result t)
    (hstart : invariant x s) :
    Settles (fun fuel => TotalRun.loop exhausted (body fuel) fuel x) s post := by
  have hrounds (count : ℕ) (x : τ) (s : σ) (hfew : measure x s < count) (hstart : invariant x s) :
      Loops exhausted body x s post := by
    induction count generalizing x s with
    | zero => omega
    | succ count ih =>
      refine .round ((hround x s hstart).mono fun turn t holds => ?_)
      cases turn with
      | again y => exact ih y t (by have := holds.2; omega) holds.1
      | leave result => exact holds
  exact (hrounds _ x s (Nat.lt_succ_self _) hstart).settles

end Rounds

section Answers

variable {Inv : σ → Prop} {program : ℕ → StateT σ (Except ε) α} {a b : α}

/-- The program answers the same in all states with the invariant, and keeps it. -/
def Answers (Inv : σ → Prop) (program : ℕ → StateT σ (Except ε) α) (a : α) : Prop :=
  ∀ s, Inv s → Settles program s fun found s' => found = a ∧ Inv s'

namespace Answers

lemma unique {s : σ} (hinv : Inv s) (h : Answers Inv program a) (h' : Answers Inv program b) :
    a = b := by
  obtain ⟨_, _, _, _, ⟨rfl, _⟩, rfl, _⟩ := (h s hinv).and (h' s hinv)
  rfl

/-- A recursion whose body has one unit of fuel less. -/
lemma succ (h : Answers Inv (fun fuel => program (fuel + 1)) a) : Answers Inv program a :=
  fun s hinv => (h s hinv).succ

lemma pure (a : α) : Answers Inv (fun _ => (Pure.pure a : StateT σ (Except ε) α)) a :=
  fun _ hinv => .pure ⟨rfl, hinv⟩

lemma bind {next : ℕ → α → StateT σ (Except ε) β} {b : β} (hfirst : Answers Inv program a)
    (hrest : Answers Inv (fun fuel => next fuel a) b) :
    Answers Inv (fun fuel => program fuel >>= next fuel) b := by
  intro s hinv
  refine (hfirst s hinv).bind ?_
  rintro _ t ⟨rfl, hinv⟩
  exact hrest t hinv

lemma mapM {program : ℕ → τ → StateT σ (Except ε) β} {f : τ → β} {list : List τ}
    (heach : ∀ x ∈ list, Answers Inv (program · x) (f x)) :
    Answers Inv (fun fuel => list.mapM (program fuel)) (list.map f) := by
  induction list with
  | nil => exact .pure []
  | cons x list ih =>
    simp only [List.mapM_cons]
    exact (heach x (.head _)).bind ((ih fun y hmem => heach y (.tail _ hmem)).bind (.pure _))

end Answers

end Answers

end TotalRun
