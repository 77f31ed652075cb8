import IrisCompiler.Checking.Comparison
import Mathlib.Data.Finset.Max
import Mathlib.Order.Bounds.Basic

/-!
# Overlapping instances

Two instances overlap if the positions at which their arguments are not apart determine all
positions by the functional dependencies of the class (`core/fd.rs`, `instances_overlap` in
`core/constraint/matching.rs`).

The source compares the arguments position by position and stops as soon as the answer is known: the
positions known not to be apart bound the final set from below, those not known to be apart bound it
from above, and the closure is monotone.  So neither the order nor the early exits matter.
-/

namespace Iris.Checking

open TotalRun Finset

/-! ## Functional dependencies -/

structure Fd where
  determiners : Finset ℕ
  determined : Finset ℕ
  deriving DecidableEq

/-- One dependency, with whether it added a position. -/
def Fd.apply (fd : Fd) (found : Finset ℕ × Bool) : Finset ℕ × Bool :=
  if fd.determiners ⊆ found.1 then
    (found.1 ∪ fd.determined, found.2 || !decide (fd.determined ⊆ found.1))
  else found

/-- The dependencies one after the other. -/
def applyAll (functionalDependencies : List Fd) (found : Finset ℕ × Bool) : Finset ℕ × Bool :=
  functionalDependencies.foldl (fun found fd => fd.apply found) found

def computeClosure (fuel : ℕ) (functionalDependencies : List Fd) (initialPositions : Finset ℕ) :
    CheckM (Finset ℕ) :=
  loop .fuel (fun determined => do
    let (determined, changed) := applyAll functionalDependencies (determined, false)
    if !changed then return .leave determined
    return .again determined) fuel initialPositions

def positionsCoverAll (fuel : ℕ) (functionalDependencies : List Fd)
    (positions allPositions : Finset ℕ) : CheckM Bool := do
  return decide ((← computeClosure fuel functionalDependencies positions) = allPositions)

/-! ### The least closed set -/

section Closure

variable {fds : List Fd} {S T C D : Finset ℕ}

/-- No dependency leads out of the set. -/
def FdClosed (fds : List Fd) (S : Finset ℕ) : Prop :=
  ∀ fd ∈ fds, fd.determiners ⊆ S → fd.determined ⊆ S

/-- `C` is the closure of `S`: the least closed set that contains it. -/
def Determines (fds : List Fd) (S C : Finset ℕ) : Prop := IsLeast {T | S ⊆ T ∧ FdClosed fds T} C

/-- The closure is monotone: what is between a set and its closure has the same closure. -/
lemma Determines.mono (h : Determines fds S C) (hsub : S ⊆ T) (hwithin : T ⊆ C) :
    Determines fds T C :=
  ⟨⟨hwithin, h.1.2⟩, fun _ hclosed => h.2 ⟨hsub.trans hclosed.1, hclosed.2⟩⟩

lemma Determines.unique (h : Determines fds S C) (h' : Determines fds S D) : C = D :=
  IsLeast.unique h h'

section ApplyAll

variable {found : Finset ℕ × Bool}

lemma applyAll_cons (fd : Fd) (fds : List Fd) (found : Finset ℕ × Bool) :
    applyAll (fd :: fds) found = applyAll fds (fd.apply found) := rfl

lemma applyAll_grows (fds : List Fd) (found : Finset ℕ × Bool) :
    found.1 ⊆ (applyAll fds found).1 := by
  induction fds generalizing found with
  | nil => exact Finset.Subset.refl _
  | cons fd fds ih =>
    refine Finset.Subset.trans ?_ (ih (fd.apply found))
    unfold Fd.apply
    split_ifs
    · exact subset_union_left
    · exact Finset.Subset.refl _

/-- They do not lead out of a closed set. -/
lemma applyAll_subset (hsub : found.1 ⊆ T) (hclosed : FdClosed fds T) :
    (applyAll fds found).1 ⊆ T := by
  induction fds generalizing found with
  | nil => exact hsub
  | cons fd fds ih =>
    rw [applyAll_cons]
    refine ih ?_ fun other hmem => hclosed other (.tail _ hmem)
    unfold Fd.apply
    split_ifs with hfires
    · exact union_subset hsub (hclosed fd (.head _) (hfires.trans hsub))
    · exact hsub

/-- If they add nothing, the set is closed. -/
lemma applyAll_unchanged (h : (applyAll fds found).2 = false) :
    found.2 = false ∧ (applyAll fds found).1 = found.1 ∧ FdClosed fds found.1 := by
  induction fds generalizing found with
  | nil => exact ⟨h, rfl, fun _ hmem => absurd hmem List.not_mem_nil⟩
  | cons fd fds ih =>
    rw [applyAll_cons] at h ⊢
    obtain ⟨hunchanged, hsame, hclosed⟩ := ih h
    unfold Fd.apply at hunchanged hsame hclosed ⊢
    split_ifs at hunchanged hsame hclosed ⊢ with hfires
    · obtain ⟨hunchanged, hsub⟩ : found.2 = false ∧ fd.determined ⊆ found.1 := by
        simpa using hunchanged
      simp only [union_eq_left.mpr hsub] at hsame hclosed
      refine ⟨hunchanged, by simpa [union_eq_left.mpr hsub] using hsame, ?_⟩
      exact List.forall_mem_cons.mpr ⟨fun _ => hsub, hclosed⟩
    · exact ⟨hunchanged, hsame,
        List.forall_mem_cons.mpr ⟨fun hinside => absurd hinside hfires, hclosed⟩⟩

/-- If they report a change, there is one. -/
lemma applyAll_changed (h : (applyAll fds found).2 = true) (hbefore : found.2 = false) :
    (applyAll fds found).1 ≠ found.1 := by
  induction fds generalizing found with
  | nil => simp [applyAll, hbefore] at h
  | cons fd fds ih =>
    by_cases hchanges : (fd.apply found).2 = false
    · have hsame : (fd.apply found).1 = found.1 := (@applyAll_unchanged [fd] found hchanges).2.1
      rw [← hsame]
      exact ih h hchanges
    · have hnew : ¬ fd.determined ⊆ found.1 ∧ fd.determined ⊆ (fd.apply found).1 := by
        unfold Fd.apply at hchanges ⊢
        split_ifs at hchanges ⊢
        · exact ⟨by simpa [hbefore] using hchanges, subset_union_right⟩
        · exact absurd hbefore hchanges
      intro hsame
      exact hnew.1 (hsame ▸ hnew.2.trans (applyAll_grows fds _))

end ApplyAll

/-- **The closure is the least fixpoint**: `compute_closure` returns the least closed set. -/
theorem computeClosure_settles (fds : List Fd) (S : Finset ℕ) (s : CheckState) :
    Settles (fun fuel => computeClosure fuel fds S) s fun C s' => s' = s ∧ Determines fds S C := by
  -- All positions that are mentioned bound the search.
  obtain ⟨B, hsub, hclosed⟩ : ∃ B, S ⊆ B ∧ FdClosed fds B := by
    refine ⟨S ∪ fds.toFinset.sup Fd.determined, subset_union_left, fun fd hmem _ => ?_⟩
    exact (le_sup (f := Fd.determined) (List.mem_toFinset.mpr hmem)).trans
      subset_union_right
  refine Settles.loop
    (fun C s' => s' = s ∧ S ⊆ C ∧ C ⊆ B ∧ ∀ T, S ⊆ T → FdClosed fds T → C ⊆ T)
    (fun C _ => (B \ C).card) ?_ ⟨rfl, Finset.Subset.refl S, hsub, fun _ hinside _ => hinside⟩
  rintro C _ ⟨rfl, hcontains, hinside, hleast⟩
  dsimp only
  split_ifs with hchanged
  · obtain ⟨-, hsame, hcloses⟩ := applyAll_unchanged (by simpa using hchanged)
    refine .pure ⟨rfl, ⟨?_, ?_⟩, fun T h => ?_⟩
    · exact hsame ▸ hcontains
    · exact hsame ▸ hcloses
    · exact hsame ▸ hleast T h.1 h.2
  · have hgrows := applyAll_grows fds (C, false)
    have hwithin : (applyAll fds (C, false)).1 ⊆ B := applyAll_subset hinside hclosed
    refine .pure ⟨⟨rfl, hcontains.trans hgrows, hwithin, fun T h h' => ?_⟩, ?_⟩
    · exact applyAll_subset (hleast T h h') h'
    · have hmore : C ⊂ (applyAll fds (C, false)).1 :=
        lt_of_le_of_ne hgrows (applyAll_changed (by simpa using hchanged) rfl).symm
      rw [card_sdiff_of_subset hwithin, card_sdiff_of_subset hinside]
      have := card_lt_card hmore
      have := card_le_card hwithin
      omega

/-- Whether the positions cover all positions is known from their closure. -/
lemma positionsCoverAll_settles (fds : List Fd) (positions all : Finset ℕ) (s : CheckState) :
    Settles (fun fuel => positionsCoverAll fuel fds positions all) s fun covers s' =>
      s' = s ∧ (covers = true ↔ Determines fds positions all) := by
  refine (computeClosure_settles fds positions s).bind ?_
  rintro C _ ⟨rfl, hclosure⟩
  refine .pure ⟨rfl, ?_⟩
  rw [decide_eq_true_eq]
  exact ⟨fun hsame => hsame ▸ hclosure, fun hclosure' => hclosure.unique hclosure'⟩

end Closure

/-! ## Instances -/

variable (context : CheckContext)

/-- Whether the arguments at a position are apart. -/
def positionApart (fuel : ℕ) (leftArguments rightArguments : List Ty) (position : ℕ) :
    CheckM Bool := do
  let some left := leftArguments[position]? | throw .index
  let some right := rightArguments[position]? | throw .index
  return (← typesApart context fuel left right false).isApart

/-- The loop of `instances_overlap` over the positions, in any order. -/
def examinePositions (fuel : ℕ) (functionalDependencies : List Fd)
    (leftArguments rightArguments : List Ty) (allPositions : Finset ℕ) :
    List ℕ → Finset ℕ → Finset ℕ → CheckM Bool
  | [], knownNonApart, _ => positionsCoverAll fuel functionalDependencies knownNonApart allPositions
  | position :: positions, knownNonApart, possiblyNonApart => do
    if ← positionApart context fuel leftArguments rightArguments position then
      let possiblyNonApart := possiblyNonApart.erase position
      if !(← positionsCoverAll fuel functionalDependencies possiblyNonApart allPositions) then
        return false
      examinePositions fuel functionalDependencies leftArguments rightArguments allPositions
        positions knownNonApart possiblyNonApart
    else
      let knownNonApart := insert position knownNonApart
      if ← positionsCoverAll fuel functionalDependencies knownNonApart allPositions then return true
      examinePositions fuel functionalDependencies leftArguments rightArguments allPositions
        positions knownNonApart possiblyNonApart

/-- `instances_overlap`, with the positions examined in the given order. -/
def instancesOverlapBy (order : List ℕ) (fuel : ℕ) (functionalDependencies : List Fd)
    (leftArguments rightArguments : List Ty) : CheckM Bool := do
  let allPositions := Finset.range leftArguments.length
  if ← positionsCoverAll fuel functionalDependencies ∅ allPositions then return true
  examinePositions context fuel functionalDependencies leftArguments rightArguments allPositions
    order ∅ allPositions

def instancesOverlap (fuel : ℕ) (functionalDependencies : List Fd)
    (leftArguments rightArguments : List Ty) : CheckM Bool :=
  instancesOverlapBy context (List.range leftArguments.length) fuel functionalDependencies
    leftArguments rightArguments

section Overlap

variable {context} {fds : List Fd} {left right : List Ty} {s s' : CheckState} {apart : ℕ → Bool}

/-- `apart` is what the comparison of the arguments at each position answers. -/
def Verdicts (context : CheckContext) (left right : List Ty) (s : CheckState) (apart : ℕ → Bool) :
    Prop :=
  ∀ position < left.length, Settles (fun fuel => positionApart context fuel left right position) s
    fun answer _ => answer = apart position

/-- The positions whose arguments are not apart. -/
def nonApart (left : List Ty) (apart : ℕ → Bool) : Finset ℕ :=
  (Finset.range left.length).filter fun position => apart position = false

lemma positionApart_follows (fuel : ℕ) (left right : List Ty) (position : ℕ) :
    Follows Same (positionApart context fuel left right position)
      fun fuel => positionApart context fuel left right position := by
  unfold positionApart
  cases left[position]? with
  | none => exact .throw Fault.index
  | some l =>
    cases right[position]? with
    | none => exact .throw Fault.index
    | some r =>
      exact follows_bind (typesApart_follows context fuel l r false) fun _ =>
        follows_pure _

/-- A comparison made later answers as one made at the start. -/
lemma Verdicts.same (hverdicts : Verdicts context left right s apart) (same : Same s s')
    {position : ℕ} (hsmall : position < left.length) :
    Settles (fun fuel => positionApart context fuel left right position) s' fun answer t =>
      answer = apart position ∧ Same s t := by
  obtain ⟨_, t, enough, hruns, rfl⟩ := hverdicts position hsmall
  refine ((positionApart_follows enough left right position).settles same
    (hruns enough le_rfl)).mono ?_
  rintro answer t' ⟨rfl, hnear⟩
  exact ⟨rfl, same_equivalence.trans same hnear⟩

/-- **The loop answers for the whole set**, from any state of its bounds. -/
theorem examinePositions_settles (hverdicts : Verdicts context left right s apart)
    (positions : List ℕ) (known possibly : Finset ℕ)
    (hsmall : ∀ position ∈ positions, position < left.length)
    (hlower : known ⊆ nonApart left apart) (hupper : nonApart left apart ⊆ possibly)
    (hwithin : possibly ⊆ Finset.range left.length)
    (hcovered : ∀ position ∈ possibly, position ∈ known ∨ position ∈ positions)
    (hsame : Same s s') :
    Settles (fun fuel => examinePositions context fuel fds left right (Finset.range left.length)
      positions known possibly) s' fun overlap _ =>
        overlap = true ↔ Determines fds (nonApart left apart) (Finset.range left.length) := by
  induction positions generalizing known possibly s' with
  | nil =>
    obtain rfl : known = nonApart left apart := by
      refine hlower.antisymm fun position hmem => ?_
      exact (hcovered position (hupper hmem)).resolve_right List.not_mem_nil
    exact (positionsCoverAll_settles fds _ _ s').mono fun _ _ h => h.2
  | cons position positions ih =>
    have here := hsmall position (.head _)
    have hrest := fun other hmem => hsmall other (.tail _ hmem)
    refine (hverdicts.same hsame here).bind ?_
    rintro _ t ⟨rfl, hsame⟩
    cases hanswer : apart position with
    | true =>
      -- The upper bound loses the position; if it no longer covers, the set does not.
      have hupper : nonApart left apart ⊆ possibly.erase position := fun other hmem => by
        refine mem_erase.mpr ⟨?_, hupper hmem⟩
        rintro rfl
        simp [nonApart, hanswer] at hmem
      refine (positionsCoverAll_settles fds _ _ t).bind ?_
      rintro covers _ ⟨rfl, hiff⟩
      cases covers with
      | false =>
        refine .pure ⟨fun h => absurd h Bool.false_ne_true, fun hclosure => ?_⟩
        exact absurd (hclosure.mono hupper ((erase_subset _ _).trans hwithin))
          (by simpa using hiff)
      | true =>
        refine ih known _ hrest hlower hupper ((erase_subset _ _).trans hwithin) ?_ hsame
        intro other hmem
        obtain ⟨hne, hmem⟩ := mem_erase.mp hmem
        exact (hcovered other hmem).imp_right fun hmem => (List.mem_cons.mp hmem).resolve_left hne
    | false =>
      -- The lower bound gains the position; once it covers, the set does.
      have hlower : insert position known ⊆ nonApart left apart :=
        insert_subset (by simp [nonApart, here, hanswer]) hlower
      refine (positionsCoverAll_settles fds _ _ t).bind ?_
      rintro covers _ ⟨rfl, hiff⟩
      cases covers with
      | true =>
        refine .pure ⟨fun _ => ?_, fun _ => rfl⟩
        exact (hiff.mp rfl).mono hlower (hupper.trans hwithin)
      | false =>
        refine ih _ possibly hrest hlower hupper hwithin ?_ hsame
        intro other hmem
        rcases hcovered other hmem with hold | hnew
        · exact .inl (mem_insert_of_mem hold)
        · rcases List.mem_cons.mp hnew with rfl | hnew
          · exact .inl (mem_insert_self _ _)
          · exact .inr hnew

/-- **Overlap in any order.** -/
theorem instancesOverlapBy_settles (hverdicts : Verdicts context left right s apart)
    {order : List ℕ} (hall : ∀ position, position ∈ order ↔ position < left.length) :
    Settles (fun fuel => instancesOverlapBy context order fuel fds left right) s fun overlap _ =>
      overlap = true ↔ Determines fds (nonApart left apart) (Finset.range left.length) := by
  have hwithin : nonApart left apart ⊆ Finset.range left.length := filter_subset _ _
  refine (positionsCoverAll_settles fds ∅ _ s).bind ?_
  rintro covers _ ⟨rfl, hiff⟩
  cases covers with
  | true => exact .pure ⟨fun _ => (hiff.mp rfl).mono (empty_subset _) hwithin, fun _ => rfl⟩
  | false =>
    refine examinePositions_settles hverdicts order ∅ _
      (fun position hmem => (hall position).mp hmem)
      (Finset.empty_subset _) hwithin (Finset.Subset.refl _) (fun position hmem => ?_)
      (same_equivalence.refl _)
    exact .inr ((hall position).mpr (mem_range.mp hmem))

/-- What overlap detection answers, where the comparison of the arguments answers everywhere. -/
lemma instancesOverlap_of_verdicts (fds : List Fd)
    (hverdicts : Verdicts context left right s apart) : ∃ overlap : Bool,
      (overlap = true ↔ Determines fds (nonApart left apart) (Finset.range left.length)) ∧
      Settles (fun fuel => instancesOverlap context fuel fds left right) s (fun answer _ =>
        answer = overlap) ∧
      ∀ order : List ℕ, order.Perm (List.range left.length) →
        Settles (fun fuel => instancesOverlapBy context order fuel fds left right) s fun answer _ =>
          answer = overlap := by
  classical
  refine ⟨decide (Determines fds (nonApart left apart) (Finset.range left.length)),
    decide_eq_true_iff, ?_, fun order hperm => ?_⟩
  · refine (instancesOverlapBy_settles hverdicts (by simp)).mono fun answer _ hiff => ?_
    rw [Bool.eq_iff_iff, hiff, decide_eq_true_iff]
  · refine (instancesOverlapBy_settles hverdicts fun position => ?_).mono fun answer _ hiff => ?_
    · rw [hperm.mem_iff, List.mem_range]
    · rw [Bool.eq_iff_iff, hiff, decide_eq_true_iff]

/-- **The arguments of plain heads are compared at every position.** -/
lemma exists_verdicts (hlength : left.length = right.length)
    (hplain : ∀ t ∈ left ++ right, t.Plain) (s : CheckState) :
    ∃ apart, Verdicts context left right s apart := by
  have hanswers (position : ℕ) : ∃ apart : Bool, position < left.length →
      Settles (fun fuel => positionApart context fuel left right position) s
        fun answer _ => answer = apart := by
    by_cases hsmall : position < left.length
    · have hl := List.getElem?_eq_getElem hsmall
      have hr := List.getElem?_eq_getElem (hlength ▸ hsmall)
      obtain ⟨result, t, enough, hruns, _⟩ := @typesApart_returns context _ _
        (hplain _ (List.mem_append_left _ (List.mem_of_getElem? hl)))
        (hplain _ (List.mem_append_right _ (List.mem_of_getElem? hr))) false s
      have hcompares : Settles (fun fuel => typesApart context fuel left[position]
          right[position] false) s fun found _ => found = result := ⟨_, _, enough, hruns, rfl⟩
      refine ⟨result.isApart, fun _ => ?_⟩
      simp only [positionApart, hl, hr]
      exact hcompares.bind fun _ _ h => .pure (h ▸ rfl)
    · exact ⟨false, fun hinside => absurd hinside hsmall⟩
  choose apart hapart using hanswers
  exact ⟨apart, hapart⟩

/-- The head `f a, ( x :: Int | r )` of an instance, with type variables `f`, `a` and `r`. -/
def openHead : List Ty :=
  let rigid (index : ℕ) : Ty := .Rigid ⟨1, index, true⟩ 0 (.Constructor ⟨0, 0⟩)
  [.Application (rigid 0) (rigid 1),
    .Row (.Opened "x" (.Constructor ⟨0, 1⟩) (rigid 2))]

/-- The head `Array Int, ( y :: Int )`. -/
def closedHead : List Ty :=
  [.Application (.Constructor ⟨0, 2⟩) (.Constructor ⟨0, 1⟩),
    .Row (.Field "y" (.Constructor ⟨0, 1⟩) .Closed)]

end Overlap

end Iris.Checking
