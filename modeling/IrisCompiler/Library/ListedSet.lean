import Mathlib.Data.List.Basic

/-!
# Finite and cofinite sets as lists

A static analysis keeps track of which of many kinds a value can still have: a membership test
leaves either a few kinds or all but a few.  `Listed` is such a set, given by its members or by the
elements it lacks, so that cutting it by a list stays a computation on short lists however large the
type is.
-/

/-- The set of the listed elements, or of all the others. -/
inductive Listed (α : Type*) where
  | only (members : List α)
  | except (others : List α)
  deriving DecidableEq, Repr

namespace Listed

variable {α : Type*} [DecidableEq α]

/-- Whether `a` is in the set. -/
def has : Listed α → α → Bool
  | .only members, a => decide (a ∈ members)
  | .except others, a => decide (a ∉ others)

/-- The set of all elements. -/
def all : Listed α := .except []

/-- The elements that are in the list `cut`. -/
def inter : Listed α → List α → Listed α
  | .only members, cut => .only (members.filter fun a => decide (a ∈ cut))
  | .except others, cut => .only (cut.filter fun a => decide (a ∉ others))

/-- The elements that are not in the list `cut`. -/
def diff : Listed α → List α → Listed α
  | .only members, cut => .only (members.filter fun a => decide (a ∉ cut))
  | .except others, cut => .except (others ++ cut)

/-- Whether the set is known to be empty. -/
def isEmpty : Listed α → Bool
  | .only members => members.isEmpty
  | .except _ => false

/-- Whether the set is known to lie within the list `bound`. -/
def within : Listed α → List α → Bool
  | .only members, bound => members.all fun a => decide (a ∈ bound)
  | .except _, _ => false

variable {set : Listed α} {a : α} {list : List α}

@[simp] lemma has_all : (all : Listed α).has a = true := by simp [all, has]

@[simp] lemma has_only {members : List α} : (only members).has a = true ↔ a ∈ members := by
  simp [has]

@[simp] lemma has_inter : (set.inter list).has a = true ↔ set.has a = true ∧ a ∈ list := by
  cases set <;> simp [inter, has, and_comm]

@[simp] lemma has_diff : (set.diff list).has a = true ↔ set.has a = true ∧ a ∉ list := by
  cases set <;> simp [diff, has]

lemma isEmpty_eq_false (h : set.has a = true) : set.isEmpty = false := by
  cases set with
  | only members => simpa [isEmpty] using List.ne_nil_of_mem (has_only.mp h)
  | except others => rfl

lemma mem_of_within (h : set.within list = true) (ha : set.has a = true) : a ∈ list := by
  cases set with
  | only members => exact of_decide_eq_true (List.all_eq_true.mp h a (has_only.mp ha))
  | except others => exact absurd h Bool.false_ne_true

end Listed
