import IrisCompiler.Checking.Canonical
import IrisCompiler.Checking.Compression

/-!
# Constraints that the compiler solves

What the solvers of the classes in `Prim` share: `can_unify` (`core/unification.rs`), the result of
a match and the variables that block one (`core/constraint/matching.rs`), and the extraction of
literals (`core/constraint/compiler.rs`).
-/

namespace Iris.Checking

open TotalRun

/-! ## Results of a match -/

inductive MatchInstance where
  | Match (unifications : List (Ty × Ty)) (constraints : List CanonicalConstraint)
  | Apart
  | Stuck (stuck : List ℕ) (skolem : Bool)
  deriving DecidableEq

namespace MatchInstance

def fromUnifications (unifications : List (Ty × Ty)) : MatchInstance := Match unifications []

/-- The equations that a match asks for. -/
def unifications : MatchInstance → List (Ty × Ty)
  | Match unifications _ => unifications
  | _ => []

end MatchInstance

/-! ## Variables that block -/

/-- `has_unification` -/
def Ty.hasUnification (t : Ty) : Bool := t.any Ty.isUnification

/-- `CollectBlocking::visit` -/
def visitBlocking (blocking : List ℕ) : Ty → List ℕ
  | .Unification id => blocking ++ [id]
  | _ => blocking

/-- `walk_type` with `CollectBlocking` -/
def walkBlocking : ℕ → Ty → List ℕ → CheckM (List ℕ)
  | 0, _, _ => throw .fuel
  | fuel + 1, id, blocking => do
    if !id.hasUnification then return blocking
    let id ← normalise fuel id
    id.children.foldlM (fun blocking child => walkBlocking fuel child blocking)
      (visitBlocking blocking id)

def collectBlocking (fuel : ℕ) (ids : List Ty) : CheckM (List ℕ) :=
  ids.foldlM (fun blocking id => walkBlocking fuel id blocking) []

def blockingConstraint (fuel : ℕ) (ids : List Ty) : CheckM MatchInstance := do
  let stuck ← collectBlocking fuel ids
  return if stuck.isEmpty then .Apart else .Stuck stuck false

/-! ## Types that can unify -/

inductive CanUnify where
  | Equal
  | Apart
  | Unify
  deriving DecidableEq

def CanUnify.andThen (self : CanUnify) (other : CheckM CanUnify) : CheckM CanUnify :=
  match self with
  | Equal => other
  | self => return self

section Source

variable (context : CheckContext)

/-- An application is compared with a function if its head is an application again. -/
def canUnifyFunction (fuel : ℕ) (function : Ty) (canUnify : CheckM CanUnify) : CheckM CanUnify := do
  match ← expand context fuel function with
  | .Application _ _ => canUnify
  | _ => return .Apart

/-- The cases of `can_unify`, for types that are expanded and differ. -/
def canUnifyCases (fuel : ℕ) (canUnify : Ty → Ty → CheckM CanUnify) (t1 t2 : Ty) :
    CheckM CanUnify :=
  match t1, t2 with
  | .Unification _, _ | _, .Unification _ => return .Unify
  | .Unknown _, _ | _, .Unknown _ => return .Unify
  | .Row _, .Row _ => return .Unify
  | .Application t1Function t1Argument, .Application t2Function t2Argument => do
    (← canUnify t1Function t2Function).andThen (canUnify t1Argument t2Argument)
  | .Function t1Argument t1Result, .Function t2Argument t2Result => do
    (← canUnify t1Argument t2Argument).andThen (canUnify t1Result t2Result)
  | .Application t1Function t1Argument, .Function t2Argument t2Result =>
    canUnifyFunction context fuel t1Function
      (canUnify (.Application t1Function t1Argument)
        (context.functionApplication t2Argument t2Result))
  | .Function t1Argument t1Result, .Application t2Function t2Argument =>
    canUnifyFunction context fuel t2Function
      (canUnify (context.functionApplication t1Argument t1Result)
        (.Application t2Function t2Argument))
  | .KindApplication t1Function t1Argument, .KindApplication t2Function t2Argument => do
    (← canUnify t1Function t2Function).andThen (canUnify t1Argument t2Argument)
  | .Kinded t1Inner t1Kind, .Kinded t2Inner t2Kind => do
    (← canUnify t1Inner t2Inner).andThen (canUnify t1Kind t2Kind)
  | .Constrained t1Constraint t1Constrained, .Constrained t2Constraint t2Constrained => do
    (← canUnify t1Constraint t2Constraint).andThen (canUnify t1Constrained t2Constrained)
  | .Rigid t1Name _ t1Kind, .Rigid t2Name _ t2Kind =>
    if t1Name = t2Name then canUnify t1Kind t2Kind else return .Apart
  | .Forall _ _ t1Kind t1Inner, .Forall _ _ t2Kind t2Inner => do
    (← canUnify t1Kind t2Kind).andThen (canUnify t1Inner t2Inner)
  | _, _ => return .Apart

def canUnify : ℕ → Ty → Ty → CheckM CanUnify
  | 0, _, _ => throw .fuel
  | fuel + 1, t1, t2 => do
    let t1 ← expand context fuel t1
    let t2 ← expand context fuel t2
    if t1 = t2 then return .Equal
    canUnifyCases context fuel (canUnify fuel) t1 t2

def matchEquality (fuel : ℕ) (actual expected : Ty) : CheckM MatchInstance := do
  match ← canUnify context fuel actual expected with
  | .Apart => return .Apart
  | .Equal | .Unify => return .fromUnifications [(actual, expected)]

/-! ## Literals -/

def extractInteger (fuel : ℕ) (id : Ty) : CheckM (Option ℤ) := do
  match ← expand context fuel id with
  | .Integer value => return some value
  | _ => return none

def extractSymbol (fuel : ℕ) (id : Ty) : CheckM (Option (List ℕ)) := do
  match ← expand context fuel id with
  | .String _ value => return some value
  | _ => return none

/-- `intern_symbol_literal` -/
def internSymbol (value : List ℕ) : Ty := .String .String value

end Source

/-! ## The answers do not depend on shortcuts -/

section Follows

variable (context : CheckContext)

lemma extractInteger_follows (fuel : ℕ) (t : Ty) :
    Follows Same (extractInteger context fuel t) fun fuel => extractInteger context fuel t := by
  refine follows_bind (expand_follows context fuel t) fun expanded => ?_
  cases expanded <;> exact follows_pure _

end Follows

/-! ## Arguments that expand -/

section Expands

variable {context : CheckContext} {s s' : CheckState} {t t' : Ty}

/-- `expand` returns `t'` for `t`. -/
def Expands (context : CheckContext) (s : CheckState) (t t' : Ty) : Prop :=
  Settles (fun fuel => expand context fuel t) s fun found _ => found = t'

/-- A type that `expand` does not look into. -/
lemma Expands.refl (h : t.mayExpand = false) : Expands context s t t := by
  unfold Expands expand
  rw [h]
  exact .pure rfl

/-- A variable without a solution. -/
lemma Expands.unsolved {id : ℕ} (h : reduct s (.Unification id) = .ok none) :
    Expands context s (.Unification id) (.Unification id) := by
  refine .succ ((normaliseHead_settles (.stop h)).bind ?_)
  rintro _ u ⟨rfl, -⟩
  refine Settles.congr (.pure rfl) 1 fun fuel hlarge => ?_
  obtain ⟨fuel, rfl⟩ : ∃ less, fuel = less + 1 := ⟨fuel - 1, by omega⟩
  have hsynonym : expandSynonym context (fuel + 1) (.Unification id) = pure (.Unification id) := rfl
  have htail (expand : Ty → CheckM Ty) :
      expandRowTail expand (fuel + 1) (.Unification id) = pure (.Unification id) := rfl
  simp [loop, hsynonym, htail]

/-- The expansion is the same after shortcuts were made. -/
lemma Expands.same (h : Expands context s t t') (same : Same s s') :
    Settles (fun fuel => expand context fuel t) s' fun found u => found = t' ∧ Same s u := by
  obtain ⟨_, u, enough, hruns, rfl⟩ := h
  refine ((expand_follows context enough t).settles same (hruns enough le_rfl)).mono ?_
  rintro found u ⟨rfl, hnear⟩
  exact ⟨rfl, same_equivalence.trans same hnear⟩

lemma Expands.of_same (h : Expands context s t t') (hsame : Same s s') : Expands context s' t t' :=
  (h.same hsame).mono fun _ _ holds => holds.1

lemma Expands.idem (h : Expands context s t t') : Expands context s t' t' := by
  obtain ⟨_, u, enough, hruns, rfl⟩ := h
  have hnear := (expand_follows context enough t (same_equivalence.refl s) (hruns enough le_rfl)).1
  exact Expands.of_same (expand_idempotent context (hruns enough le_rfl))
    (same_equivalence.symm hnear)

/-- The literal that a type is. -/
def Ty.integer? : Ty → Option ℤ
  | .Integer value => some value
  | _ => none

lemma Ty.eq_of_integer? {value : ℤ} (h : t.integer? = some value) : t = .Integer value := by
  unfold Ty.integer? at h
  split at h <;> cases h
  rfl

lemma extractInteger_settles (h : Expands context s t t') (hsame : Same s s') :
    Settles (fun fuel => extractInteger context fuel t) s' fun found u =>
      found = t'.integer? ∧ Same s u := by
  refine (h.same hsame).bind ?_
  rintro found u ⟨rfl, hsame⟩
  cases found <;> exact .pure ⟨rfl, hsame⟩

/-- What a run extracts is the literal that the type is. -/
lemma extractInteger_run (h : Expands context s t t') (hsame : Same s s') {fuel : ℕ}
    {found : Option ℤ} {u : CheckState}
    (hrun : (extractInteger context fuel t).run s' = .ok (found, u)) :
    found = t'.integer? ∧ Same s u := by
  obtain ⟨hnear, hsettles⟩ := extractInteger_follows context fuel t (same_equivalence.refl s') hrun
  obtain ⟨_, _, _, _, ⟨rfl, -⟩, rfl, -⟩ := hsettles.and (extractInteger_settles h hsame)
  exact ⟨rfl, same_equivalence.trans hsame hnear⟩

/-- A literal or a constructor. -/
def Ty.isAtom : Ty → Bool
  | .Integer _ | .String _ _ | .Constructor _ => true
  | _ => false

/-- An expanded type that can be an atom. -/
def Ty.accepts (t atom : Ty) : Bool :=
  t = atom || match t with
    | .Unification _ | .Unknown _ => true
    | _ => false

/-- The equation of an argument with an atom. -/
def equated (t t' atom : Ty) : MatchInstance :=
  if t'.accepts atom then .fromUnifications [(t, atom)] else .Apart

/-- **An argument is equated with an atom, or the two are apart.** -/
lemma matchEquality_atom (h : Expands context s t t') (hsame : Same s s') {atom : Ty}
    (hisAtom : atom.isAtom) :
    Settles (fun fuel => matchEquality context fuel t atom) s' fun found u =>
      found = equated t t' atom ∧ Same s u := by
  have hfixed (fuel : ℕ) : expand context fuel atom = pure atom := by
    cases atom <;> first | rfl | cases hisAtom
  have hanswers : Settles (fun fuel => canUnify context fuel t atom) s' fun answer u =>
      ((answer = .Apart) ↔ t'.accepts atom = false) ∧ Same s u := by
    refine .succ ((h.same hsame).bind ?_)
    rintro found u ⟨rfl, hnear⟩
    refine .bind_pure 0 (fun fuel _ => hfixed fuel) ?_
    split_ifs with heq
    · exact .pure ⟨by simp [Ty.accepts, heq], hnear⟩
    · cases atom with
      | Integer | String | Constructor =>
        cases found <;> exact .pure ⟨by simp_all [Ty.accepts], hnear⟩
      | _ => cases hisAtom
  refine hanswers.bind ?_
  rintro answer u ⟨hapart, hnear⟩
  unfold equated
  cases answer with
  | Apart => exact .pure ⟨by simp [hapart.mp rfl], hnear⟩
  | Equal | Unify =>
    have haccepts : t'.accepts atom = true := by simpa using hapart
    exact .pure ⟨by simp [haccepts], hnear⟩

lemma equated_unifications {atom : Ty} {pair : Ty × Ty}
    (hmem : pair ∈ (equated t t' atom).unifications) : pair = (t, atom) := by
  unfold equated at hmem
  split_ifs at hmem
  · simpa [MatchInstance.fromUnifications, MatchInstance.unifications] using hmem
  · cases hmem

end Expands

/-- A state with one unsolved variable. -/
def CheckState.oneUnsolved : CheckState := ⟨[⟨0, .Constructor ⟨0, 3⟩, .Unsolved⟩], 0, 0, 0⟩

end Iris.Checking
