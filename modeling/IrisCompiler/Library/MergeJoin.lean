import Mathlib

/-!
# Merge join

Two lists that are sorted by a key are walked side by side: elements with equal keys are paired, an
element whose key the other list lacks is reported alone.  Keys may repeat.  For every key the pairs
take the first elements of both lists and what is left over comes from one list only
(`filter_left`, `filter_right`, `lefts_or_rights`).
-/

namespace MergeJoin

/-- An element of one list or a pair of elements of both. -/
inductive EitherOrBoth (α β : Type*) where
  | Left (left : α)
  | Right (right : β)
  | Both (left : α) (right : β)

variable {α κ : Type*} [LinearOrder κ]

/-- The two lists joined by their keys. -/
def mergeJoinBy (key : α → κ) : List α → List α → List (EitherOrBoth α α)
  | [], right => right.map .Right
  | left, [] => left.map .Left
  | a :: left, b :: right =>
    match cmp (key a) (key b) with
    | .eq => .Both a b :: mergeJoinBy key left right
    | .lt => .Left a :: mergeJoinBy key left (b :: right)
    | .gt => .Right b :: mergeJoinBy key (a :: left) right
  termination_by left right => left.length + right.length

namespace EitherOrBoth

def left? {β : Type*} : EitherOrBoth α β → Option α
  | Left a => some a
  | _ => none

def right? {β : Type*} : EitherOrBoth α β → Option β
  | Right b => some b
  | _ => none

def both? {β : Type*} : EitherOrBoth α β → Option (α × β)
  | Both a b => some (a, b)
  | _ => none

end EitherOrBoth

section Parts

variable (key : α → κ) (left right : List α)

/-- The pairs. -/
def boths : List (α × α) := (mergeJoinBy key left right).filterMap EitherOrBoth.both?

/-- What the right list lacks. -/
def lefts : List α := (mergeJoinBy key left right).filterMap EitherOrBoth.left?

/-- What the left list lacks. -/
def rights : List α := (mergeJoinBy key left right).filterMap EitherOrBoth.right?

end Parts

section Equations

variable {key : α → κ} {a b : α} {left right : List α}

@[simp] lemma boths_nil_left : boths key [] right = [] := by
  simp [boths, mergeJoinBy, EitherOrBoth.both?]

@[simp] lemma lefts_nil_left : lefts key [] right = [] := by
  simp [lefts, mergeJoinBy, EitherOrBoth.left?]

@[simp] lemma rights_nil_left : rights key [] right = right := by
  simp [rights, mergeJoinBy, EitherOrBoth.right?, Function.comp_def]

@[simp] lemma boths_nil_right : boths key left [] = [] := by
  cases left <;> simp [boths, mergeJoinBy, EitherOrBoth.both?]

@[simp] lemma lefts_nil_right : lefts key left [] = left := by
  cases left <;> simp [lefts, mergeJoinBy, EitherOrBoth.left?, Function.comp_def]

@[simp] lemma rights_nil_right : rights key left [] = [] := by
  cases left <;> simp [rights, mergeJoinBy, EitherOrBoth.right?]

lemma mergeJoinBy_eq (h : key a = key b) : mergeJoinBy key (a :: left) (b :: right) =
    .Both a b :: mergeJoinBy key left right := by
  rw [mergeJoinBy, (cmp_eq_eq_iff _ _).mpr h]

lemma mergeJoinBy_lt (h : key a < key b) : mergeJoinBy key (a :: left) (b :: right) =
    .Left a :: mergeJoinBy key left (b :: right) := by
  rw [mergeJoinBy, (cmp_eq_lt_iff _ _).mpr h]

lemma mergeJoinBy_gt (h : key b < key a) : mergeJoinBy key (a :: left) (b :: right) =
    .Right b :: mergeJoinBy key (a :: left) right := by
  rw [mergeJoinBy, (cmp_eq_gt_iff _ _).mpr h]

lemma parts_eq (h : key a = key b) :
    boths key (a :: left) (b :: right) = (a, b) :: boths key left right ∧
      lefts key (a :: left) (b :: right) = lefts key left right ∧
      rights key (a :: left) (b :: right) = rights key left right := by
  rw [boths, lefts, rights, mergeJoinBy_eq h]
  exact ⟨rfl, rfl, rfl⟩

lemma parts_lt (h : key a < key b) :
    boths key (a :: left) (b :: right) = boths key left (b :: right) ∧
      lefts key (a :: left) (b :: right) = a :: lefts key left (b :: right) ∧
      rights key (a :: left) (b :: right) = rights key left (b :: right) := by
  rw [boths, lefts, rights, mergeJoinBy_lt h]
  exact ⟨rfl, rfl, rfl⟩

lemma parts_gt (h : key b < key a) :
    boths key (a :: left) (b :: right) = boths key (a :: left) right ∧
      lefts key (a :: left) (b :: right) = lefts key (a :: left) right ∧
      rights key (a :: left) (b :: right) = b :: rights key (a :: left) right := by
  rw [boths, lefts, rights, mergeJoinBy_gt h]
  exact ⟨rfl, rfl, rfl⟩

end Equations

/-- **Induction along a merge join.** -/
theorem induction (key : α → κ) {P : List α → List α → Prop} (nilLeft : ∀ right, P [] right)
    (nilRight : ∀ left, P left [])
    (eq : ∀ a b left right, key a = key b → P left right → P (a :: left) (b :: right))
    (lt : ∀ a b left right, key a < key b → P left (b :: right) → P (a :: left) (b :: right))
    (gt : ∀ a b left right, key b < key a → P (a :: left) right → P (a :: left) (b :: right)) :
    ∀ left right, P left right
  | [], right => nilLeft right
  | a :: left, [] => nilRight (a :: left)
  | a :: left, b :: right => by
    rcases lt_trichotomy (key a) (key b) with h | h | h
    · exact lt a b left right h (induction key nilLeft nilRight eq lt gt left (b :: right))
    · exact eq a b left right h (induction key nilLeft nilRight eq lt gt left right)
    · exact gt a b left right h (induction key nilLeft nilRight eq lt gt (a :: left) right)
  termination_by left right => left.length + right.length

/-- Sorted by the key. -/
def Sorted (key : α → κ) (list : List α) : Prop := list.Pairwise fun a b => key a ≤ key b

instance (key : α → κ) (list : List α) : Decidable (Sorted key list) :=
  inferInstanceAs (Decidable (list.Pairwise _))

section Contents

variable {key : α → κ} {left right : List α}

lemma mem_boths {p : α × α} (h : p ∈ boths key left right) :
    p.1 ∈ left ∧ p.2 ∈ right ∧ key p.1 = key p.2 := by
  induction left, right using MergeJoin.induction key with
  | nilLeft | nilRight => simp at h
  | eq a b left right hsame ih =>
    rw [(parts_eq hsame).1] at h
    obtain rfl | h := List.mem_cons.mp h
    · exact ⟨.head _, .head _, hsame⟩
    · exact ⟨.tail _ (ih h).1, .tail _ (ih h).2.1, (ih h).2.2⟩
  | lt a b left right hless ih =>
    rw [(parts_lt hless).1] at h
    exact ⟨.tail _ (ih h).1, (ih h).2⟩
  | gt a b left right hmore ih =>
    rw [(parts_gt hmore).1] at h
    exact ⟨(ih h).1, .tail _ (ih h).2.1, (ih h).2.2⟩

/-- The join of the lists in the other order. -/
lemma parts_swap : boths key right left = (boths key left right).map Prod.swap ∧
    lefts key right left = rights key left right ∧
    rights key right left = lefts key left right := by
  induction left, right using MergeJoin.induction key with
  | nilLeft | nilRight => simp
  | eq a b left right hsame ih =>
    simp only [parts_eq hsame, parts_eq hsame.symm]
    exact ⟨by rw [ih.1]; rfl, ih.2.1, ih.2.2⟩
  | lt a b left right hless ih =>
    simp only [parts_lt hless, parts_gt hless]
    exact ⟨ih.1, ih.2.1, by rw [ih.2.2]⟩
  | gt a b left right hmore ih =>
    simp only [parts_gt hmore, parts_lt hmore]
    exact ⟨ih.1, by rw [ih.2.1], ih.2.2⟩

/-- The first components of the pairs and what is left alone make up the left list. -/
lemma perm_left : left.Perm ((boths key left right).map Prod.fst ++ lefts key left right) := by
  induction left, right using MergeJoin.induction key with
  | nilLeft | nilRight => simp
  | eq a b left right hsame ih =>
    simp only [parts_eq hsame]
    exact ih.cons a
  | lt a b left right hless ih =>
    simp only [parts_lt hless]
    exact (ih.cons a).trans List.perm_middle.symm
  | gt a b left right hmore ih =>
    simp only [parts_gt hmore]
    exact ih

/-- The second components of the pairs and what is left alone make up the right list. -/
lemma perm_right : right.Perm ((boths key left right).map Prod.snd ++ rights key left right) := by
  have hswapped := @perm_left _ _ _ key right left
  rwa [parts_swap.1, parts_swap.2.1, List.map_map] at hswapped

end Contents

/-! ## One key at a time -/

section Keyed

variable {key : α → κ} {k : κ} {left right : List α}

/-- The elements with the key, in order. -/
def keyed (key : α → κ) (k : κ) (list : List α) : List α := list.filter fun a => key a = k

@[simp] lemma keyed_nil : keyed key k [] = [] := rfl

@[simp] lemma keyed_append (more : List α) :
    keyed key k (left ++ more) = keyed key k left ++ keyed key k more := List.filter_append _ _

lemma keyed_cons_of_eq {a : α} (h : key a = k) : keyed key k (a :: left) = a :: keyed key k left :=
  List.filter_cons_of_pos (by simpa using h)

lemma keyed_cons_of_ne {a : α} (h : key a ≠ k) : keyed key k (a :: left) = keyed key k left :=
  List.filter_cons_of_neg (by simpa using h)

/-- Nothing has the key if all keys come later. -/
lemma keyed_eq_nil (h : ∀ a ∈ left, k < key a) : keyed key k left = [] :=
  List.filter_eq_nil_iff.mpr fun a hmem => by simpa using (h a hmem).ne'

/-- Sorting keeps the order of the elements with a key. -/
lemma keyed_insertionSort :
    keyed key k (left.insertionSort fun a b => key a ≤ key b) = keyed key k left := by
  induction left with
  | nil => rfl
  | cons a left ih =>
    have hinsert (list : List α) : keyed key k (list.orderedInsert (fun a b => key a ≤ key b) a) =
        keyed key k (a :: list) := by
      induction list with
      | nil => rfl
      | cons b list hinner =>
        rw [List.orderedInsert_cons]
        split
        · rfl
        · rename_i hless
          have hdiffer : key a ≠ key b := fun hsame => hless hsame.le
          by_cases hfirst : key b = k
          · have hsecond : key a ≠ k := hfirst ▸ hdiffer
            simp [keyed_cons_of_eq hfirst, keyed_cons_of_ne hsecond, hinner]
          · by_cases hsecond : key a = k
            · simp only [keyed_cons_of_ne hfirst, keyed_cons_of_eq hsecond, hinner]
            · simp [keyed_cons_of_ne hfirst, keyed_cons_of_ne hsecond, hinner]
    rw [List.insertionSort_cons, hinsert]
    by_cases hfirst : key a = k
    · rw [keyed_cons_of_eq hfirst, keyed_cons_of_eq hfirst, ih]
    · rw [keyed_cons_of_ne hfirst, keyed_cons_of_ne hfirst, ih]

/-- **Sorted lists that agree on every key are equal.** -/
theorem Sorted.ext (hsorted : Sorted key left) (hsorted' : Sorted key right)
    (hsame : ∀ k, keyed key k left = keyed key k right) : left = right := by
  induction left generalizing right with
  | nil =>
    cases right with
    | nil => rfl
    | cons b right => simpa [keyed_cons_of_eq] using hsame (key b)
  | cons a left ih =>
    cases right with
    | nil => simpa [keyed_cons_of_eq] using hsame (key a)
    | cons b right =>
      obtain ⟨hfirst, htail⟩ := List.pairwise_cons.mp hsorted
      obtain ⟨hfirst', htail'⟩ := List.pairwise_cons.mp hsorted'
      -- the least key of both lists is that of the first element
      have hmem : b ∈ keyed key (key b) (a :: left) := by
        rw [hsame, keyed_cons_of_eq rfl]
        exact .head _
      have hmem' : a ∈ keyed key (key a) (b :: right) := by
        rw [← hsame, keyed_cons_of_eq rfl]
        exact .head _
      have hle : key a ≤ key b := by
        obtain rfl | hmem := List.mem_cons.mp (List.mem_of_mem_filter hmem)
        · exact le_rfl
        · exact hfirst b hmem
      have hge : key b ≤ key a := by
        obtain rfl | hmem := List.mem_cons.mp (List.mem_of_mem_filter hmem')
        · exact le_rfl
        · exact hfirst' a hmem
      have hequal : key a = key b := le_antisymm hle hge
      have heads := hsame (key b)
      rw [keyed_cons_of_eq hequal, keyed_cons_of_eq rfl] at heads
      obtain rfl := List.head_eq_of_cons_eq heads
      congr 1
      refine ih htail htail' fun k => ?_
      have hrest := hsame k
      by_cases h : key a = k
      · rw [keyed_cons_of_eq h, keyed_cons_of_eq h] at hrest
        exact List.tail_eq_of_cons_eq hrest
      · rwa [keyed_cons_of_ne h, keyed_cons_of_ne h] at hrest

lemma Sorted.tail {b : α} (hsorted : Sorted key (b :: right)) : Sorted key right :=
  (List.pairwise_cons.mp hsorted).2

/-- After the first element of a sorted list no smaller key comes. -/
lemma Sorted.lt_of_lt {b : α} (hsorted : Sorted key (b :: right)) (h : k < key b) :
    ∀ c ∈ b :: right, k < key c := by
  intro c hmem
  obtain rfl | hmem := List.mem_cons.mp hmem
  · exact h
  · exact h.trans_le ((List.pairwise_cons.mp hsorted).1 c hmem)

lemma keyed_boths_eq_nil (h : ∀ b ∈ right, k < key b) :
    (boths key left right).filter (fun p => key p.1 = k) = [] :=
  List.filter_eq_nil_iff.mpr fun p hmem => by
    rw [(mem_boths hmem).2.2]
    simpa using (h p.2 (mem_boths hmem).2.1).ne'

section Sorted

variable (hsorted : Sorted key left) (hsorted' : Sorted key right)

include hsorted hsorted'

/-- **The elements of the left list with a key: those that are paired, then those that are
alone.** -/
theorem keyed_left :
    keyed key k left = ((boths key left right).filter fun p => key p.1 = k).map Prod.fst ++
      keyed key k (lefts key left right) := by
  induction left, right using MergeJoin.induction key with
  | nilLeft | nilRight => simp
  | eq a b left right hsame ih =>
    have ih := ih hsorted.tail hsorted'.tail
    simp only [parts_eq hsame]
    by_cases h : key a = k
    · rw [keyed_cons_of_eq h, List.filter_cons_of_pos (by simpa using h), ih]
      rfl
    · rw [keyed_cons_of_ne h, List.filter_cons_of_neg (by simpa using h), ih]
  | lt a b left right hless ih =>
    have ih := ih hsorted.tail hsorted'
    simp only [parts_lt hless]
    by_cases h : key a = k
    · have hnone := @keyed_boths_eq_nil _ _ _ key k left _ (hsorted'.lt_of_lt (h ▸ hless))
      rw [hnone] at ih ⊢
      rw [keyed_cons_of_eq h, keyed_cons_of_eq h, ih]
      rfl
    · rw [keyed_cons_of_ne h, keyed_cons_of_ne h, ih]
  | gt a b left right hmore ih =>
    simp only [parts_gt hmore]
    exact ih hsorted hsorted'.tail

/-- **The elements of the right list with a key: those that are paired, then those that are
alone.** -/
theorem keyed_right :
    keyed key k right = ((boths key left right).filter fun p => key p.1 = k).map Prod.snd ++
      keyed key k (rights key left right) := by
  have hswapped := @keyed_left _ _ _ key k right left hsorted' hsorted
  rw [parts_swap.1, parts_swap.2.1, List.filter_map, List.map_map] at hswapped
  rw [hswapped]
  congr 2
  exact List.filter_congr fun p hmem => by simp [(mem_boths hmem).2.2]

/-- Of the elements with a key only one list has some that are alone. -/
lemma lefts_or_rights :
    keyed key k (lefts key left right) = [] ∨ keyed key k (rights key left right) = [] := by
  induction left, right using MergeJoin.induction key with
  | nilLeft | nilRight => simp
  | eq a b left right hsame ih =>
    simp only [parts_eq hsame]
    exact ih hsorted.tail hsorted'.tail
  | lt a b left right hless ih =>
    simp only [parts_lt hless]
    by_cases h : key a = k
    · refine .inr (keyed_eq_nil fun c hmem => ?_)
      exact hsorted'.lt_of_lt (h ▸ hless) c (perm_right.mem_iff.mpr (List.mem_append_right _ hmem))
    · rw [keyed_cons_of_ne h]
      exact ih hsorted.tail hsorted'
  | gt a b left right hmore ih =>
    simp only [parts_gt hmore]
    by_cases h : key b = k
    · refine .inl (keyed_eq_nil fun c hmem => ?_)
      exact hsorted.lt_of_lt (h ▸ hmore) c (perm_left.mem_iff.mpr (List.mem_append_right _ hmem))
    · rw [keyed_cons_of_ne h]
      exact ih hsorted hsorted'.tail

/-- **A list joined with a list that has the same elements and more.** -/
theorem boths_of_extends {extra : List α}
    (h : ∀ k, keyed key k right = keyed key k left ++ keyed key k extra) :
    (∀ p ∈ boths key left right, p.1 = p.2) ∧ lefts key left right = [] ∧
      ∀ k, keyed key k (rights key left right) = keyed key k extra := by
  have hparts (k : κ) : (∀ p ∈ boths key left right, key p.1 = k → p.1 = p.2) ∧
      keyed key k (lefts key left right) = [] ∧
      keyed key k (rights key left right) = keyed key k extra := by
    have hboth := h k
    rw [keyed_left hsorted hsorted', keyed_right hsorted hsorted', List.append_assoc] at hboth
    obtain ⟨hpairs, hrest⟩ := List.append_inj hboth (by simp)
    have hnone : keyed key k (lefts key left right) = [] := by
      rcases @lefts_or_rights _ _ _ key k left right hsorted hsorted' with hnone | hnone
      · exact hnone
      · rw [hnone] at hrest
        exact (List.append_eq_nil_iff.mp hrest.symm).1
    refine ⟨fun p hmem hsame => ?_, hnone, by rw [hrest, hnone, List.nil_append]⟩
    exact (List.map_inj_left.mp hpairs p (List.mem_filter.mpr ⟨hmem, by simpa using hsame⟩)).symm
  refine ⟨fun p hmem => (hparts (key p.1)).1 p hmem rfl, ?_, fun k => (hparts k).2.2⟩
  refine List.eq_nil_iff_forall_not_mem.mpr fun a hmem => ?_
  have : a ∈ keyed key (key a) (lefts key left right) := List.mem_filter.mpr ⟨hmem, by simp⟩
  rw [(hparts (key a)).2.1] at this
  cases this

end Sorted

lemma lefts_sublist : (lefts key left right).Sublist left := by
  induction left, right using MergeJoin.induction key with
  | nilLeft | nilRight => simp
  | eq a b left right hsame ih =>
    rw [(parts_eq hsame).2.1]
    exact ih.cons a
  | lt a b left right hless ih =>
    rw [(parts_lt hless).2.1]
    exact ih.cons_cons a
  | gt a b left right hmore ih =>
    rw [(parts_gt hmore).2.1]
    exact ih

lemma rights_sublist : (rights key left right).Sublist right := by
  rw [← parts_swap.2.1]
  exact lefts_sublist

end Keyed

end MergeJoin
