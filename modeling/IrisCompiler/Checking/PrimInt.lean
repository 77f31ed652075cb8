import IrisCompiler.Checking.Solving

/-!
# `Prim.Int`: arithmetic

The solvers of `Add` and `Mul` (`core/constraint/compiler/prim_int.rs`).  They compute with the
plain operations of `i32`: where the exact result is out of range, a build with overflow checks
panics and one without wraps around.  So the solved literal is exact, and there is no panic, exactly
if the number to be solved for is an `i32`.
-/

namespace Iris.Checking

open TotalRun

/-! ## Machine integers -/

/-- The numbers that a literal can hold. -/
def InI32 (value : ℤ) : Prop := -2 ^ 31 ≤ value ∧ value < 2 ^ 31

instance (value : ℤ) : Decidable (InI32 value) := inferInstanceAs (Decidable (_ ∧ _))

/-- The panic of an operation whose overflow is checked. -/
inductive Panic where
  | overflow
  deriving DecidableEq

/-- The result of an `i32` operation, from the exact one. -/
def i32 (overflowChecks : Bool) (exact : ℤ) : Except Panic ℤ :=
  if InI32 exact then .ok exact
  else if overflowChecks then .error .overflow
  else .ok (exact.bmod (2 ^ 32))

/-! ## The source's functions -/

section Source

variable (context : CheckContext) (overflowChecks : Bool)

/-- An argument is equated with the result of an operation. -/
def solveInteger (fuel : ℕ) (id : Ty) (exact : ℤ) : CheckM (Except Panic MatchInstance) :=
  match i32 overflowChecks exact with
  | .error panic => return .error panic
  | .ok value => return .ok (← matchEquality context fuel id (.Integer value))

/-- The cases of `match_add` by which literals are known. -/
def addCases (fuel : ℕ) (left right sum : Ty) :
    Option ℤ → Option ℤ → Option ℤ → CheckM (Except Panic MatchInstance)
  | some leftInt, some rightInt, _ =>
    solveInteger context overflowChecks fuel sum (leftInt + rightInt)
  | some leftInt, _, some sumInt =>
    solveInteger context overflowChecks fuel right (sumInt - leftInt)
  | _, some rightInt, some sumInt =>
    solveInteger context overflowChecks fuel left (sumInt - rightInt)
  | _, _, _ => return .ok (← blockingConstraint fuel [left, right, sum])

def matchAdd (fuel : ℕ) (left right sum : Ty) : CheckM (Except Panic MatchInstance) := do
  let leftInt ← extractInteger context fuel left
  let rightInt ← extractInteger context fuel right
  let sumInt ← extractInteger context fuel sum
  addCases context overflowChecks fuel left right sum leftInt rightInt sumInt

def matchMul (fuel : ℕ) (left right product : Ty) : CheckM (Except Panic MatchInstance) := do
  let some leftInt ← extractInteger context fuel left
    | return .ok (← blockingConstraint fuel [left])
  let some rightInt ← extractInteger context fuel right
    | return .ok (← blockingConstraint fuel [right])
  solveInteger context overflowChecks fuel product (leftInt * rightInt)

end Source

/-! ## Exactness -/

/-- The number that `Add` is solved for, from the literals that are known. -/
def exactAdd : Option ℤ → Option ℤ → Option ℤ → Option ℤ
  | some left, some right, _ => some (left + right)
  | some left, none, some sum => some (sum - left)
  | none, some right, some sum => some (sum - right)
  | _, _, _ => none

/-- The number that `Mul` is solved for. -/
def exactMul : Option ℤ → Option ℤ → Option ℤ
  | some left, some right => some (left * right)
  | _, _ => none

/-- With and without overflow checks the solver does not panic, and what it solves an argument to is
the exact number, if that is an `i32`; where there is no number to solve for, it solves nothing. -/
def SolvesExactly (solver : Bool → ℕ → CheckM (Except Panic MatchInstance)) (s : CheckState) :
    Option ℤ → Prop
  | some exact => ∀ overflowChecks, Settles (solver overflowChecks) s fun found _ =>
      ∃ answer, found = .ok answer ∧
        ∀ pair ∈ answer.unifications, pair.2 = .Integer exact ∧ InI32 exact
  | none => ∀ overflowChecks fuel found s', (solver overflowChecks fuel).run s = .ok (found, s') →
      ∃ answer, found = .ok answer ∧ answer.unifications = []

section Exactness

variable {context : CheckContext} {s s' : CheckState} {left right result left' right' result' : Ty}

/-- An exact result in range is what the argument is solved to. -/
lemma solveInteger_settles (h : Expands context s result result') (hsame : Same s s') {exact : ℤ}
    (hrange : InI32 exact) (overflowChecks : Bool) :
    Settles (fun fuel => solveInteger context overflowChecks fuel result exact) s' fun found _ =>
      ∃ answer, found = .ok answer ∧
        ∀ pair ∈ answer.unifications, pair.2 = .Integer exact ∧ InI32 exact := by
  simp only [solveInteger, i32, if_pos hrange]
  refine (matchEquality_atom h hsame rfl).bind ?_
  rintro _ u ⟨rfl, -⟩
  exact .pure ⟨_, rfl, fun pair hmem => ⟨by rw [equated_unifications hmem], hrange⟩⟩

/-- An exact result out of range is a panic. -/
lemma solveInteger_panics {exact : ℤ} (hrange : ¬ InI32 exact) (s' : CheckState) :
    Settles (fun fuel => solveInteger context true fuel result exact) s' fun found _ =>
      found = .error .overflow := by
  simp only [solveInteger, i32, if_neg hrange]
  exact .pure rfl

variable {ids : List Ty}

lemma blocking_unifications {fuel : ℕ} {found : MatchInstance}
    (hrun : (blockingConstraint fuel ids).run s = .ok (found, s')) : found.unifications = [] := by
  obtain ⟨stuck, _, _, hrun⟩ := of_run_bind hrun
  cases hrun
  split_ifs <;> rfl

/-- A solver goes on with a program, in a state that is the same. -/
def GoesOn (solver program : Bool → ℕ → CheckM (Except Panic MatchInstance)) (s : CheckState) :
    Prop :=
  (∀ post overflowChecks, (∀ s', Same s s' → Settles (program overflowChecks) s' post) →
    Settles (solver overflowChecks) s post) ∧
  ∀ overflowChecks fuel found u, (solver overflowChecks fuel).run s = .ok (found, u) →
    ∃ s', (program overflowChecks fuel).run s' = .ok (found, u)

variable {solver program : Bool → ℕ → CheckM (Except Panic MatchInstance)}

/-- **A solver that goes on with an operation is exact iff the result is in range.** -/
lemma GoesOn.exact {exact : ℤ} (hgoesOn : GoesOn solver
      (fun overflowChecks fuel => solveInteger context overflowChecks fuel result exact) s)
    (h : Expands context s result result') : SolvesExactly solver s (some exact) ↔ InI32 exact := by
  constructor
  · intro hexactly
    by_contra hrange
    have hpanics := hgoesOn.1 (fun found _ => found = .error .overflow) true fun s' _ =>
      solveInteger_panics hrange s'
    obtain ⟨_, _, _, _, ⟨answer, rfl, _⟩, hpanicked⟩ := (hexactly true).and hpanics
    cases hpanicked
  · intro hrange overflowChecks
    exact hgoesOn.1 _ overflowChecks fun s' hsame =>
      solveInteger_settles h hsame hrange overflowChecks

/-- A solver that is blocked solves nothing. -/
lemma GoesOn.blocked (hgoesOn : GoesOn solver
      (fun _ fuel => do return .ok (← blockingConstraint fuel ids)) s) :
    SolvesExactly solver s none := by
  intro overflowChecks fuel found u hrun
  obtain ⟨s', hrun⟩ := hgoesOn.2 overflowChecks fuel found u hrun
  obtain ⟨answer, _, hblocks, hrun⟩ := of_run_bind hrun
  cases hrun
  exact ⟨answer, rfl, blocking_unifications hblocks⟩

/-- A solver first reads an argument. -/
lemma GoesOn.read {next : Bool → ℕ → Option ℤ → CheckM (Except Panic MatchInstance)} {t t' : Ty}
    (h : Expands context s t t')
    (hgoesOn : ∀ s', Same s s' →
      GoesOn (fun checks fuel => next checks fuel t'.integer?) program s') :
    GoesOn (fun checks fuel => extractInteger context fuel t >>= next checks fuel) program s := by
  refine ⟨fun post checks hrest => ?_, fun checks fuel found u hrun => ?_⟩
  · refine (extractInteger_settles h (same_equivalence.refl s)).bind ?_
    rintro _ s₁ ⟨rfl, hsame⟩
    exact (hgoesOn s₁ hsame).1 post checks fun s' hnear =>
      hrest s' (same_equivalence.trans hsame hnear)
  · obtain ⟨_, s₁, hreads, hrun⟩ := of_run_bind hrun
    obtain ⟨rfl, hsame⟩ := extractInteger_run h (same_equivalence.refl s) hreads
    exact (hgoesOn s₁ hsame).2 checks fuel found u hrun

lemma GoesOn.refl (s : CheckState) : GoesOn program program s :=
  ⟨fun _ _ hrest => hrest s (same_equivalence.refl s), fun _ _ _ _ hrun => ⟨s, hrun⟩⟩

section Operands

variable (hl : Expands context s left left') (hr : Expands context s right right')

include hl hr

/-- `match_add` reads its arguments. -/
lemma matchAdd_goesOn (hs : Expands context s result result') :
    GoesOn (fun checks fuel => matchAdd context checks fuel left right result)
      (fun checks fuel => addCases context checks fuel left right result left'.integer?
        right'.integer? result'.integer?) s :=
  .read hl fun _ hsame => .read (hr.of_same hsame) fun _ hsame' =>
    .read (hs.of_same (same_equivalence.trans hsame hsame')) fun s' _ => .refl s'

/-- **`Add` is solved exactly iff the number to be solved for is an `i32`.** -/
theorem matchAdd_exact (hs : Expands context s result result') :
    SolvesExactly (fun checks fuel => matchAdd context checks fuel left right result) s
        (exactAdd left'.integer? right'.integer? result'.integer?) ↔
      ∀ exact, exactAdd left'.integer? right'.integer? result'.integer? = some exact →
        InI32 exact := by
  have hgoesOn := matchAdd_goesOn hl hr hs
  generalize left'.integer? = l, right'.integer? = r, result'.integer? = x at hgoesOn
  match l, r, x with
  | some l, some r, x => simpa [exactAdd] using hgoesOn.exact hs
  | some l, none, some x => simpa [exactAdd] using hgoesOn.exact hr
  | none, some r, some x => simpa [exactAdd] using hgoesOn.exact hl
  | some l, none, none | none, some r, none | none, none, _ =>
    simpa [exactAdd] using hgoesOn.blocked

/-- **`Mul` is solved exactly iff the product is an `i32`.** -/
theorem matchMul_exact (hp : Expands context s result result') :
    SolvesExactly (fun checks fuel => matchMul context checks fuel left right result) s
        (exactMul left'.integer? right'.integer?) ↔
      ∀ exact, exactMul left'.integer? right'.integer? = some exact → InI32 exact := by
  have hgoesOn : GoesOn (fun checks fuel => matchMul context checks fuel left right result)
      (fun checks fuel => match left'.integer?, right'.integer? with
        | some l, some r => solveInteger context checks fuel result (l * r)
        | some _, none => do return .ok (← blockingConstraint fuel [right])
        | none, _ => do return .ok (← blockingConstraint fuel [left])) s := by
    refine .read hl fun s₁ hsame => ?_
    cases left'.integer? with
    | none => exact .refl s₁
    | some l =>
      refine .read (hr.of_same hsame) fun s₂ _ => ?_
      cases right'.integer? <;> exact .refl s₂
  generalize left'.integer? = l, right'.integer? = r at hgoesOn
  match l, r with
  | some l, some r => simpa [exactMul] using hgoesOn.exact hp
  | some l, none | none, _ => simpa [exactMul] using hgoesOn.blocked

end Operands

/-- **Type-level arithmetic is exact where the result can be represented.**  For any three
arguments, `match_add` and `match_mul` neither panic nor solve an argument to another number than
the exact one, in both kinds of build, exactly if the number that the known literals determine is an
`i32`. -/
theorem arithmetic_exact_iff (context : CheckContext) (s : CheckState)
    (left right result left' right' result' : Ty) (hl : Expands context s left left')
    (hr : Expands context s right right') (hx : Expands context s result result') :
    (SolvesExactly (fun checks fuel => matchAdd context checks fuel left right result) s
        (exactAdd left'.integer? right'.integer? result'.integer?) ↔
      ∀ exact, exactAdd left'.integer? right'.integer? result'.integer? = some exact →
        InI32 exact) ∧
    (SolvesExactly (fun checks fuel => matchMul context checks fuel left right result) s
        (exactMul left'.integer? right'.integer?) ↔
      ∀ exact, exactMul left'.integer? right'.integer? = some exact → InI32 exact) :=
  ⟨matchAdd_exact hl hr hx, matchMul_exact hl hr hx⟩

/-- `Add 20 22 ?` and `Mul 20 22 ?` are in range. -/
theorem arithmetic_exact_small :
    (SolvesExactly (fun checks fuel => matchAdd .bare checks fuel (.Integer 20) (.Integer 22)
        (.Unification 0)) .oneUnsolved (some 42) ↔
      ∀ exact, exactAdd (some 20) (some 22) none = some exact → InI32 exact) ∧
    (SolvesExactly (fun checks fuel => matchMul .bare checks fuel (.Integer 20) (.Integer 22)
        (.Unification 0)) .oneUnsolved (some 440) ↔
      ∀ exact, exactMul (some 20) (some 22) = some exact → InI32 exact) :=
  arithmetic_exact_iff .bare .oneUnsolved (.Integer 20) (.Integer 22) (.Unification 0) (.Integer 20)
    (.Integer 22) (.Unification 0) (.refl rfl) (.refl rfl) (.unsolved rfl)

/-- `Add 2147483647 1 ?` is not solved exactly. -/
theorem not_solvesExactly_overflow :
    ¬ SolvesExactly
      (fun checks fuel => matchAdd .bare checks fuel (.Integer 2147483647) (.Integer 1)
      (.Unification 0)) .oneUnsolved (exactAdd (some 2147483647) (some 1) none) := fun hexactly =>
  have hrange := (matchAdd_exact (.refl rfl) (.refl rfl) (.unsolved rfl)).mp hexactly
    2147483648 rfl
  absurd hrange (by decide)

end Exactness

end Iris.Checking
