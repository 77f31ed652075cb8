import IrisCompiler.Library.DepthFirst
import Mathlib.Algebra.Ring.Nat
import Mathlib.Algebra.BigOperators.Group.Finset.Basic
import Mathlib.Data.Fintype.BigOperators
import Mathlib.Data.Fin.VecNotation
import Mathlib.Data.List.FinRange
import Mathlib.Data.List.Flatten

/-!
# The order of initializers

`initializer_postorder` and `initializer_components` are depth-first search and Kosaraju's algorithm
with explicit work stacks.  Initializers are positions in a graph of `n` vertices.

A loop over a work stack takes a number of steps that is known beforehand (`Traversal.remaining`,
`Gathering.remaining`): each step takes one from it.  The loop is that many steps, and the steps
after its end change nothing.
-/

namespace Iris.Functional

open DepthFirst

variable {n : ℕ}

/-- `dependencies[position]` lists the positions that `position` refers to. -/
abbrev Dependencies (n : ℕ) := Fin n → List (Fin n)

/-! ## The code -/

/-- The state of `initializer_postorder`.  An entry of the work stack is a position with the
dependencies of it that are still to be followed. -/
@[ext]
structure Traversal (n : ℕ) where
  visited : Finset (Fin n)
  ordered : List (Fin n)
  workStack : List (Fin n × List (Fin n))

namespace Traversal

variable (dependencies : Dependencies n)

/-- One turn of the inner loop. -/
def step (self : Traversal n) : Traversal n :=
  match self.workStack with
  | [] => self
  | (position, []) :: stack =>
    { self with ordered := self.ordered ++ [position], workStack := stack }
  | (position, dependency :: rest) :: stack =>
    if dependency ∈ self.visited then { self with workStack := (position, rest) :: stack }
    else
      { self with
        visited := insert dependency self.visited
        workStack := (dependency, dependencies dependency) :: (position, rest) :: stack }

/-- The number of turns that are left, if every position that has not been visited will be. -/
def remaining (self : Traversal n) : ℕ :=
  (self.workStack.map fun entry => entry.2.length + 1).sum +
    ∑ position ∈ self.visitedᶜ, ((dependencies position).length + 1)

def run (self : Traversal n) : Traversal n := (step dependencies)^[self.remaining dependencies] self

/-- One turn of the loop over the roots. -/
def visitRoot (self : Traversal n) (root : Fin n) : Traversal n :=
  if root ∈ self.visited then self
  else
    run dependencies { self with
      visited := insert root self.visited
      workStack := (root, dependencies root) :: self.workStack }

end Traversal

/-- `initializer_postorder`. -/
def initializerPostorder (dependencies : Dependencies n) : List (Fin n) :=
  ((List.finRange n).foldl (Traversal.visitRoot dependencies) ⟨∅, [], []⟩).ordered

/-- The transposed graph of `initializer_components`. -/
def dependents (dependencies : Dependencies n) (dependency : Fin n) : List (Fin n) :=
  (List.finRange n).flatMap fun position =>
    ((dependencies position).filter (· = dependency)).map fun _ => position

/-- The state of the inner loop of `initializer_components`. -/
@[ext]
structure Gathering (n : ℕ) where
  assigned : Finset (Fin n)
  component : List (Fin n)
  workStack : List (Fin n)

namespace Gathering

variable (dependencies : Dependencies n)

def push (self : Gathering n) (dependent : Fin n) : Gathering n :=
  if dependent ∈ self.assigned then self
  else
    { self with
      assigned := insert dependent self.assigned
      workStack := dependent :: self.workStack }

/-- One turn of the loop over the work stack. -/
def step (self : Gathering n) : Gathering n :=
  match self.workStack with
  | [] => self
  | position :: stack =>
    (dependents dependencies position).foldl push
      { self with component := self.component ++ [position], workStack := stack }

/-- The number of turns that are left, if every position that has not been assigned will be. -/
def remaining (self : Gathering n) : ℕ := self.workStack.length + self.assignedᶜ.card

def run (self : Gathering n) : Gathering n := (step dependencies)^[self.remaining] self

end Gathering

/-- The state of the outer loop of `initializer_components`. -/
structure Assignment (n : ℕ) where
  assigned : Finset (Fin n)
  components : List (List (Fin n))

def Assignment.gatherRoot (dependencies : Dependencies n) (self : Assignment n) (root : Fin n) :
    Assignment n :=
  if root ∈ self.assigned then self
  else
    let gathering := Gathering.run dependencies ⟨insert root self.assigned, [], [root]⟩
    ⟨gathering.assigned, self.components ++ [gathering.component]⟩

/-- `initializer_components`. -/
def initializerComponents (dependencies : Dependencies n) : List (List (Fin n)) :=
  ((initializerPostorder dependencies).reverse.foldl (Assignment.gatherRoot dependencies)
    ⟨∅, []⟩).components.reverse

/-- `cyclic_initializers`. -/
def cyclicInitializers (dependencies : Dependencies n) (position : Fin n) : Bool :=
  (initializerComponents dependencies).any fun component =>
    position ∈ component &&
      (component.length > 1 || component.head?.any fun first => first ∈ dependencies first)

/-! ## The postorder -/

namespace Traversal

variable {dependencies : Dependencies n}

variable {self : Traversal n} {visited : Finset (Fin n)} {out : List (Fin n)}

lemma step_remaining (h : self.workStack ≠ []) :
    (self.step dependencies).remaining dependencies + 1 = self.remaining dependencies := by
  obtain ⟨visited, ordered, workStack⟩ := self
  match workStack, h with
  | (position, []) :: stack, _ =>
    simp only [step, remaining, List.map_cons, List.sum_cons, List.length_nil]
    omega
  | (position, dependency :: rest) :: stack, _ =>
    by_cases hvisited : dependency ∈ visited
    · simp only [step, remaining, if_pos hvisited, List.map_cons, List.sum_cons, List.length_cons]
      omega
    · have hsum : ∑ other ∈ visitedᶜ, ((dependencies other).length + 1) =
          ∑ other ∈ (insert dependency visited)ᶜ, ((dependencies other).length + 1) +
            ((dependencies dependency).length + 1) := by
        rw [Finset.compl_insert]
        exact (Finset.sum_erase_add _ _ (Finset.mem_compl.mpr hvisited)).symm
      simp only [step, remaining, if_neg hvisited, List.map_cons, List.sum_cons, List.length_cons]
      omega

/-- Turns of the loop. -/
def Leads (dependencies : Dependencies n) : Traversal n → Traversal n → Prop :=
  Relation.ReflTransGen fun t t' => t.workStack ≠ [] ∧ t.step dependencies = t'

lemma run_of_leads {after : Traversal n} (h : Leads dependencies self after)
    (hend : after.workStack = []) : self.run dependencies = after := by
  induction h using Relation.ReflTransGen.head_induction_on with
  | refl =>
    have hfix : after.step dependencies = after := by
      unfold step
      rw [hend]
    exact Function.iterate_fixed hfix _
  | head hstep _ ih =>
    rw [run, ← step_remaining hstep.1, Function.iterate_succ_apply, hstep.2]
    exact ih

lemma visited_fresh (visited : Finset (Fin n)) (v : Fin n) (inner out : List (Fin n)) :
    visited ∪ (inner ++ v :: out).toFinset = insert v visited ∪ inner.toFinset ∪ out.toFinset := by
  ext x
  simp only [Finset.mem_union, Finset.mem_insert, List.mem_toFinset, List.mem_append, List.mem_cons]
  tauto

lemma ordered_fresh (ordered : List (Fin n)) (v : Fin n) (inner out : List (Fin n)) :
    ordered ++ (inner ++ v :: out) = ordered ++ inner ++ [v] ++ out := by simp

lemma leads_of_explores {rest : List (Fin n)} (h : Explores dependencies visited rest out)
    (ordered : List (Fin n)) (position : Fin n) (stack : List (Fin n × List (Fin n))) :
    Leads dependencies ⟨visited, ordered, (position, rest) :: stack⟩
      ⟨visited ∪ out.toFinset, ordered ++ out, (position, []) :: stack⟩ := by
  induction h generalizing ordered position stack with
  | nil =>
    rw [List.toFinset_nil, Finset.union_empty, List.append_nil]
    exact .refl
  | seen hv _ ih =>
    refine .head ⟨by simp, ?_⟩ (ih ordered position stack)
    simp [step, hv]
  | @fresh visited v vs inner out hv _ _ ihinner ihout =>
    have hpush : step dependencies ⟨visited, ordered, (position, v :: vs) :: stack⟩ =
        ⟨insert v visited, ordered, (v, dependencies v) :: (position, vs) :: stack⟩ := by
      simp [step, hv]
    have hpop : step dependencies
        ⟨insert v visited ∪ inner.toFinset, ordered ++ inner, (v, []) :: (position, vs) :: stack⟩ =
        ⟨insert v visited ∪ inner.toFinset, ordered ++ inner ++ [v], (position, vs) :: stack⟩ := rfl
    rw [visited_fresh, ordered_fresh]
    refine Relation.ReflTransGen.head ⟨by simp, hpush⟩ ((ihinner _ _ _).trans ?_)
    exact Relation.ReflTransGen.head ⟨by simp, hpop⟩ (ihout _ _ _)

lemma foldl_of_explores {roots : List (Fin n)} (h : Explores dependencies visited roots out)
    (ordered : List (Fin n)) :
    roots.foldl (visitRoot dependencies) ⟨visited, ordered, []⟩ =
      ⟨visited ∪ out.toFinset, ordered ++ out, []⟩ := by
  induction h generalizing ordered with
  | nil => simp
  | seen hv _ ih => rw [List.foldl_cons, visitRoot, if_pos hv, ih]
  | @fresh visited v vs inner out hv hinner _ _ ihout =>
    have hleads : Leads dependencies ⟨insert v visited, ordered, [(v, dependencies v)]⟩
        ⟨insert v visited ∪ inner.toFinset, ordered ++ inner ++ [v], []⟩ :=
      (leads_of_explores hinner ordered v []).tail ⟨by simp, rfl⟩
    rw [List.foldl_cons, visitRoot, if_neg hv, run_of_leads hleads rfl, ihout, visited_fresh,
      ordered_fresh]

end Traversal

/-- **`initializer_postorder` is the postorder of depth-first search.** -/
theorem explores_initializerPostorder (dependencies : Dependencies n) :
    Explores dependencies ∅ (List.finRange n) (initializerPostorder dependencies) := by
  obtain ⟨out, hout⟩ := exists_explores dependencies ∅ (List.finRange n)
  have hordered : initializerPostorder dependencies = out := by
    rw [initializerPostorder, Traversal.foldl_of_explores hout]
    simp
  rwa [hordered]

lemma mem_initializerPostorder (dependencies : Dependencies n) (position : Fin n) :
    position ∈ initializerPostorder dependencies :=
  (explores_initializerPostorder dependencies).mem_iff.mpr
    ⟨position, List.mem_finRange position, by simp, .refl⟩

example : initializerPostorder ![[1, 2], [2], [], [0]] = [2, 1, 0, 3] := by decide

/-! ## The components -/

variable {dependencies : Dependencies n}

lemma mem_dependents {position dependency : Fin n} :
    position ∈ dependents dependencies dependency ↔ dependency ∈ dependencies position := by
  simp [dependents]

lemma walk_dependents {p q : Fin n} :
    Walk (dependents dependencies) q p ↔ Walk dependencies p q := by
  have hswap : Walk (dependents dependencies) q p ↔
      Relation.ReflTransGen (Function.swap fun v w => w ∈ dependencies v) q p := by
    simp [Walk, mem_dependents]
  rw [hswap, Relation.reflTransGen_swap]
  rfl

namespace Gathering

variable {dependencies : Dependencies n}

/-- What the loop over the dependents of a position does: those that are not assigned yet go to the
work stack. -/
lemma foldl_push (self : Gathering n) (positions : List (Fin n)) :
    ∃ new : List (Fin n), new.Nodup ∧ (∀ p, p ∈ new ↔ p ∈ positions ∧ p ∉ self.assigned) ∧
      positions.foldl push self =
        ⟨self.assigned ∪ new.toFinset, self.component, new ++ self.workStack⟩ := by
  induction positions generalizing self with
  | nil => exact ⟨[], by simp⟩
  | cons position positions ih =>
    by_cases hmem : position ∈ self.assigned
    · obtain ⟨new, hnodup, hnew, heq⟩ := ih self
      refine ⟨new, hnodup, fun p => ?_, by rw [List.foldl_cons, push, if_pos hmem, heq]⟩
      rw [hnew, List.mem_cons]
      refine ⟨fun h => ⟨.inr h.1, h.2⟩, fun h => ⟨h.1.resolve_left ?_, h.2⟩⟩
      rintro rfl
      exact h.2 hmem
    · obtain ⟨new, hnodup, hnew, heq⟩ := ih { self with
        assigned := insert position self.assigned
        workStack := position :: self.workStack }
      refine ⟨new ++ [position], ?_, fun p => ?_, ?_⟩
      · refine List.nodup_append'.mpr ⟨hnodup, List.nodup_singleton _, fun p hp hp' => ?_⟩
        rw [List.mem_singleton.mp hp'] at hp
        exact ((hnew position).mp hp).2 (Finset.mem_insert_self _ _)
      · simp only [List.mem_append, hnew]
        by_cases hp : p = position
        · simp [hp, hmem]
        · simp [hp]
      · rw [List.foldl_cons, push, if_neg hmem, heq]
        ext p
        · simp only [Finset.mem_union, Finset.mem_insert, List.mem_toFinset, List.mem_append,
            List.mem_singleton]
          tauto
        · rfl
        · simp

/-- The invariant of the loop from a root: what has been taken from the work stack and what is on it
are the positions that have been assigned since the start, and they lead to the root. -/
structure Gathers (dependencies : Dependencies n) (before : Finset (Fin n)) (root : Fin n)
    (now : Gathering n) : Prop where
  nodup : (now.component ++ now.workStack).Nodup
  mem_assigned : ∀ p, p ∈ now.assigned ↔ p ∈ before ∨ p ∈ now.component ++ now.workStack
  mem_root : root ∈ now.component ++ now.workStack
  reaches : ∀ p ∈ now.component ++ now.workStack,
    p ∉ before ∧ Reaches (dependents dependencies) before root p
  closed : ∀ p ∈ now.component, ∀ q ∈ dependents dependencies p, q ∈ now.assigned

variable {before : Finset (Fin n)} {root : Fin n} {self : Gathering n}

lemma gathers_start (hroot : root ∉ before) :
    Gathers dependencies before root ⟨insert root before, [], [root]⟩ where
  nodup := List.nodup_singleton root
  mem_assigned p := by simp [or_comm]
  mem_root := List.mem_singleton_self root
  reaches := by
    intro p hp
    obtain rfl := List.mem_singleton.mp hp
    exact ⟨hroot, .refl⟩
  closed := by simp

/-- One turn keeps the invariant and leaves one turn less. -/
lemma Gathers.step (h : Gathers dependencies before root self) (hstack : self.workStack ≠ []) :
    Gathers dependencies before root (self.step dependencies) ∧
      (self.step dependencies).remaining + 1 = self.remaining := by
  obtain ⟨assigned, component, workStack⟩ := self
  obtain ⟨position, stack, rfl⟩ := List.exists_cons_of_ne_nil hstack
  obtain ⟨new, hnodup, hnew, heq⟩ := foldl_push ⟨assigned, component ++ [position], stack⟩
    (dependents dependencies position)
  have hmem : ∀ p, p ∈ component ++ [position] ++ (new ++ stack) ↔
      p ∈ component ++ position :: stack ∨ p ∈ new := by
    simp only [List.mem_append, List.mem_cons]
    tauto
  have hfresh : ∀ p ∈ new, p ∉ component ++ position :: stack := fun p hp hold =>
    ((hnew p).mp hp).2 ((h.mem_assigned p).mpr (.inr hold))
  show Gathers dependencies before root (List.foldl _ _ _) ∧
    (List.foldl push _ (dependents dependencies position)).remaining + 1 = _
  rw [heq]
  constructor
  · constructor
    · have hperm : (component ++ [position] ++ (new ++ stack)).Perm
          (new ++ (component ++ position :: stack)) := by
        rw [List.append_cons component position stack, ← List.append_assoc, ← List.append_assoc]
        exact List.perm_append_comm.append_right stack
      refine hperm.nodup_iff.mpr (List.nodup_append'.mpr ⟨hnodup, h.nodup, fun p hp hold => ?_⟩)
      exact hfresh p hp hold
    · intro p
      rw [Finset.mem_union, h.mem_assigned p, List.mem_toFinset, hmem, or_assoc]
    · exact (hmem root).mpr (.inl h.mem_root)
    · intro p hp
      rcases (hmem p).mp hp with hp | hp
      · exact h.reaches p hp
      · obtain ⟨hdependent, hunassigned⟩ := (hnew p).mp hp
        have hbefore : p ∉ before := fun hmem => hunassigned ((h.mem_assigned p).mpr (.inl hmem))
        have hposition := (h.reaches position (by simp)).2
        exact ⟨hbefore, hposition.tail ⟨hdependent, hbefore⟩⟩
    · intro p hp q hq
      rcases List.mem_append.mp hp with hp | hp
      · exact Finset.mem_union_left _ (h.closed p hp q hq)
      · obtain rfl := List.mem_singleton.mp hp
        by_cases hassigned : q ∈ assigned
        · exact Finset.mem_union_left _ hassigned
        · exact Finset.mem_union_right _ (List.mem_toFinset.mpr ((hnew q).mpr ⟨hq, hassigned⟩))
  · have hcard : (assigned ∪ new.toFinset)ᶜ.card + new.length = assignedᶜ.card := by
      have hdisjoint : Disjoint assigned new.toFinset := by
        rw [Finset.disjoint_right]
        exact fun p hp => ((hnew p).mp (List.mem_toFinset.mp hp)).2
      have hunion := Finset.card_union_of_disjoint hdisjoint
      have hlength := List.toFinset_card_of_nodup hnodup
      have hle := Finset.card_le_univ (assigned ∪ new.toFinset)
      rw [Finset.card_compl, Finset.card_compl]
      omega
    simp only [remaining, List.length_append, List.length_cons]
    omega

/-- **A search from a root gathers what leads to it** and has not been assigned before. -/
lemma Gathers.run (h : Gathers dependencies before root self) :
    Gathers dependencies before root (self.run dependencies) ∧
      (self.run dependencies).workStack = [] := by
  unfold Gathering.run
  induction hleft : self.remaining generalizing self with
  | zero =>
    rw [remaining, Nat.add_eq_zero_iff] at hleft
    exact ⟨h, List.eq_nil_of_length_eq_zero hleft.1⟩
  | succ left ih =>
    rw [Function.iterate_succ_apply]
    by_cases hstack : self.workStack = []
    · have hfix : self.step dependencies = self := by
        unfold Gathering.step
        rw [hstack]
      rw [hfix, Function.iterate_fixed hfix]
      exact ⟨h, hstack⟩
    · obtain ⟨hnext, hless⟩ := h.step hstack
      exact ih hnext (by omega)

lemma Gathers.mem_component (h : Gathers dependencies before root self)
    (hstack : self.workStack = [])
    {p : Fin n} :
    p ∈ self.component ↔ p ∉ before ∧ Reaches (dependents dependencies) before root p := by
  have hreaches := h.reaches
  have hroot := h.mem_root
  have hassigned := h.mem_assigned
  rw [hstack, List.append_nil] at hreaches hroot hassigned
  refine ⟨hreaches p, fun hp => ?_⟩
  have hpath := hp.2
  clear hp
  induction hpath with
  | refl => exact hroot
  | tail _ hstep ih => exact ((hassigned _).mp (h.closed _ ih _ hstep.1)).resolve_left hstep.2

end Gathering

/-- **The strongly connected components of a graph**, each after those that it depends on. -/
structure IsCondensation (dependencies : Dependencies n) (components : List (List (Fin n))) :
    Prop where
  nodup : components.flatten.Nodup
  mem_flatten : ∀ p, p ∈ components.flatten
  connected : ∀ component ∈ components, ∀ p ∈ component, ∀ q,
    q ∈ component ↔ Walk dependencies p q ∧ Walk dependencies q p
  ordered : components.Pairwise fun earlier later =>
    ∀ p ∈ earlier, ∀ q ∈ later, ¬ Walk dependencies p q

namespace Assignment

variable {dependencies : Dependencies n}

/-- The invariant of the loop over the roots: what has been assigned is made of whole components,
and whatever leads to it has been assigned too. -/
structure Assigns (dependencies : Dependencies n) (now : Assignment n) : Prop where
  mem_assigned : ∀ p, p ∈ now.assigned ↔ p ∈ now.components.flatten
  nodup : now.components.flatten.Nodup
  connected : ∀ component ∈ now.components, ∀ p ∈ component, ∀ q,
    q ∈ component ↔ Walk dependencies p q ∧ Walk dependencies q p
  upward : ∀ p q, Walk dependencies p q → q ∈ now.assigned → p ∈ now.assigned
  ordered : now.components.Pairwise fun earlier later =>
    ∀ p ∈ earlier, ∀ q ∈ later, ¬ Walk dependencies q p
  nonempty : [] ∉ now.components

lemma assigns_start : Assigns dependencies ⟨∅, []⟩ where
  mem_assigned := by simp
  nodup := by simp
  connected := by simp
  upward := by simp
  ordered := List.Pairwise.nil
  nonempty := List.not_mem_nil

/-- If whatever leads to the root and is not assigned can be reached from the root, the search
gathers the component of the root. -/
lemma Assigns.gatherRoot {now : Assignment n} {root : Fin n} (h : Assigns dependencies now)
    (hroot : ∀ p ∉ now.assigned, Walk dependencies p root → Walk dependencies root p) :
    Assigns dependencies (now.gatherRoot dependencies root) ∧
      root ∈ (now.gatherRoot dependencies root).assigned ∧
      now.assigned ⊆ (now.gatherRoot dependencies root).assigned := by
  unfold Assignment.gatherRoot
  split
  case isTrue hmem => exact ⟨h, hmem, subset_rfl⟩
  case isFalse hmem =>
    have hstart : Gathering.Gathers dependencies now.assigned root
        ⟨insert root now.assigned, [], [root]⟩ := Gathering.gathers_start hmem
    obtain ⟨hgathers, hstack⟩ := hstart.run
    generalize hgathering : Gathering.run dependencies ⟨insert root now.assigned, [], [root]⟩ =
      gathering at hgathers hstack
    have hassigned := hgathers.mem_assigned
    have hnodup := hgathers.nodup
    have hself := hgathers.mem_root
    rw [hstack, List.append_nil] at hassigned hnodup hself
    have hcomponent : ∀ p, p ∈ gathering.component ↔
        Walk dependencies root p ∧ Walk dependencies p root := by
      intro p
      rw [hgathers.mem_component hstack]
      constructor
      · rintro ⟨hp, hreaches⟩
        have hpath := walk_dependents.mp (Walk.of_reaches hreaches)
        exact ⟨hroot p hp hpath, hpath⟩
      · rintro ⟨hfrom, hto⟩
        have hp : p ∉ now.assigned := fun hp => hmem (h.upward root p hfrom hp)
        refine ⟨hp, ?_⟩
        have hback := reaches_empty_iff.mpr (walk_dependents.mpr hto)
        rcases hback.avoid_or_enter now.assigned with hreaches | ⟨q, hq, -, -, hqp⟩
        · exact hreaches
        · exact absurd (h.upward p q (walk_dependents.mp (Walk.of_reaches hqp)) hq) hp
    have hnew : ∀ p ∈ gathering.component, p ∉ now.assigned := fun p hp =>
      (hgathers.reaches p (List.mem_append_left _ hp)).1
    refine ⟨⟨?_, ?_, ?_, ?_, ?_, ?_⟩, (hassigned root).mpr (.inr hself),
      fun p hp => (hassigned p).mpr (.inl hp)⟩
    · intro p
      simp [hassigned, h.mem_assigned]
    · rw [List.flatten_append, List.flatten_singleton]
      refine List.nodup_append'.mpr ⟨h.nodup, hnodup, fun p hp hp' => ?_⟩
      exact hnew p hp' ((h.mem_assigned p).mpr hp)
    · intro component hcomp p hp q
      rcases List.mem_append.mp hcomp with hcomp | hcomp
      · exact h.connected component hcomp p hp q
      · obtain rfl := List.mem_singleton.mp hcomp
        obtain ⟨hrp, hpr⟩ := (hcomponent p).mp hp
        rw [hcomponent]
        exact ⟨fun hq => ⟨hpr.trans hq.1, hq.2.trans hrp⟩,
          fun hq => ⟨hrp.trans hq.1, hq.2.trans hpr⟩⟩
    · intro p q hpq hq
      by_cases hp : p ∈ now.assigned
      · exact (hassigned p).mpr (.inl hp)
      · rcases (hassigned q).mp hq with hq | hq
        · exact absurd (h.upward p q hpq hq) hp
        · have hpath : Walk dependencies p root := hpq.trans ((hcomponent q).mp hq).2
          exact (hassigned p).mpr (.inr ((hcomponent p).mpr ⟨hroot p hp hpath, hpath⟩))
    · refine List.pairwise_append.mpr ⟨h.ordered, List.pairwise_singleton _ _, ?_⟩
      intro earlier hearlier later hlater p hp q hq hpath
      obtain rfl := List.mem_singleton.mp hlater
      have hpmem : p ∈ now.assigned :=
        (h.mem_assigned p).mpr (List.mem_flatten.mpr ⟨earlier, hearlier, hp⟩)
      exact hnew q hq (h.upward q p hpath hpmem)
    · intro hnil
      rcases List.mem_append.mp hnil with hnil | hnil
      · exact h.nonempty hnil
      · rw [← List.mem_singleton.mp hnil] at hself
        exact List.not_mem_nil hself

/-- Roots in reverse postorder: the vertices after `root` in the postorder have been assigned. -/
lemma assigns_foldr {out front back : List (Fin n)}
    (hout : Explores dependencies ∅ (List.finRange n) out)
    (hsplit : out = front ++ back) :
    let now := back.foldr (fun root now => Assignment.gatherRoot dependencies now root) ⟨∅, []⟩
    Assigns dependencies now ∧ ∀ p ∈ back, p ∈ now.assigned := by
  induction back generalizing front with
  | nil => exact ⟨assigns_start, by simp⟩
  | cons root back ih =>
    obtain ⟨hassigns, hback⟩ := @ih (front ++ [root]) (by simp [hsplit])
    rw [List.foldr_cons]
    generalize back.foldr
      (fun root now => Assignment.gatherRoot dependencies now root) ⟨∅, []⟩ = now
      at hassigns hback
    have hroot : ∀ p ∉ now.assigned, Walk dependencies p root → Walk dependencies root p := by
      intro p hp hpath
      have hpout : p ∈ out := hout.mem_iff.mpr ⟨p, List.mem_finRange p, by simp, .refl⟩
      obtain ⟨last, hto, hfrom, hlast⟩ := hout.exists_last hpout
      rw [reaches_empty_iff] at hto hfrom
      obtain ⟨hrootmem, hle⟩ := hlast root (reaches_empty_iff.mpr hpath)
      -- the last one is not assigned, so it stands at the root or before it
      have hlastback : last ∉ back := fun hmem => hp (hassigns.upward p last hto (hback last hmem))
      have hlastmem : last ∈ out := (hlast last (reaches_empty_iff.mpr hto)).1
      have hnodup := hout.nodup
      have hrootfront : root ∉ front := by
        rw [hsplit] at hnodup
        exact fun hmem => (List.nodup_append'.mp hnodup).2.2 hmem List.mem_cons_self
      rcases eq_or_ne last root with rfl | hne
      · exact hfrom
      · have hlastfront : last ∈ front := by
          rw [hsplit] at hlastmem
          simpa [hne, hlastback] using hlastmem
        have hlt := List.idxOf_lt_length_of_mem hlastfront
        rw [hsplit, List.idxOf_append_of_notMem hrootfront,
          List.idxOf_append_of_mem hlastfront] at hle
        omega
    obtain ⟨hnext, hmem, hsub⟩ := hassigns.gatherRoot hroot
    refine ⟨hnext, fun p hp => ?_⟩
    rcases List.mem_cons.mp hp with rfl | hp
    · exact hmem
    · exact hsub (hback p hp)

end Assignment

lemma assigns_initializerPostorder (dependencies : Dependencies n) :
    let now := (initializerPostorder dependencies).foldr
      (fun root now => Assignment.gatherRoot dependencies now root) ⟨∅, []⟩
    Assignment.Assigns dependencies now ∧
      ∀ p ∈ initializerPostorder dependencies, p ∈ now.assigned :=
  Assignment.assigns_foldr (explores_initializerPostorder dependencies) (List.nil_append _).symm

lemma nil_notMem_initializerComponents (dependencies : Dependencies n) :
    [] ∉ initializerComponents dependencies := by
  rw [initializerComponents, List.foldl_reverse, List.mem_reverse]
  exact (assigns_initializerPostorder dependencies).1.nonempty

/-- **`initializer_components` returns the strongly connected components, dependencies first.** -/
theorem isCondensation_initializerComponents (dependencies : Dependencies n) :
    IsCondensation dependencies (initializerComponents dependencies) := by
  obtain ⟨hassigns, hmem⟩ := assigns_initializerPostorder dependencies
  unfold initializerComponents
  rw [List.foldl_reverse]
  have hperm : ∀ components : List (List (Fin n)),
      components.reverse.flatten.Perm components.flatten := fun components =>
    (List.reverse_perm components).flatten
  constructor
  · exact (hperm _).nodup_iff.mpr hassigns.nodup
  · intro p
    rw [(hperm _).mem_iff, ← hassigns.mem_assigned]
    exact hmem p (mem_initializerPostorder dependencies p)
  · intro component hcomponent
    exact hassigns.connected component (List.mem_reverse.mp hcomponent)
  · rw [List.pairwise_reverse]
    exact hassigns.ordered.imp fun h p hp q hq => h q hq p hp

/-! ## Cycles -/

/-- A vertex lies on a cycle if its component has another vertex, or if it has an edge to itself. -/
lemma IsCondensation.onCycle_iff {components : List (List (Fin n))} {component : List (Fin n)}
    {p : Fin n} (h : IsCondensation dependencies components) (hcomponent : component ∈ components)
    (hp : p ∈ component) :
    Relation.TransGen (fun v w => w ∈ dependencies v) p p ↔
      component.length > 1 ∨ ∃ first ∈ component.head?, first ∈ dependencies first := by
  have hconnected := h.connected component hcomponent p hp
  rcases component with - | ⟨first, - | ⟨second, rest⟩⟩
  · simp at hp
  · obtain rfl : p = first := List.mem_singleton.mp hp
    simp only [List.mem_singleton] at hconnected
    constructor
    · intro hcycle
      obtain ⟨q, hedge, hpath⟩ := Relation.TransGen.head'_iff.mp hcycle
      obtain rfl : q = p := (hconnected q).mpr ⟨.single hedge, hpath⟩
      exact .inr ⟨q, rfl, hedge⟩
    · rintro (hlength | ⟨first, hfirst, hedge⟩)
      · simp at hlength
      · cases hfirst
        exact .single hedge
  · refine ⟨fun _ => .inl (by simp), fun _ => ?_⟩
    have hnodup := (List.nodup_flatten.mp h.nodup).1 _ hcomponent
    have hother : ∃ q ∈ first :: second :: rest, q ≠ p := by
      by_cases hfirst : first = p
      · refine ⟨second, by simp, ?_⟩
        rintro rfl
        simp [hfirst] at hnodup
      · exact ⟨first, by simp, hfirst⟩
    obtain ⟨q, hq, hne⟩ := hother
    obtain ⟨hto, hfrom⟩ := (hconnected q).mp hq
    have hstart := (Relation.reflTransGen_iff_eq_or_transGen.mp hto).resolve_left hne
    exact hstart.trans_left hfrom

lemma cyclicInitializers_iff (dependencies : Dependencies n) (p : Fin n) :
    cyclicInitializers dependencies p = true ↔
      Relation.TransGen (fun v w => w ∈ dependencies v) p p := by
  have hcondensation := isCondensation_initializerComponents dependencies
  simp only [cyclicInitializers, List.any_eq_true, Bool.and_eq_true, Bool.or_eq_true,
    decide_eq_true_eq, Option.any_eq_true]
  constructor
  · rintro ⟨component, hcomponent, hp, hmarked⟩
    exact (hcondensation.onCycle_iff hcomponent hp).mpr hmarked
  · intro hcycle
    obtain ⟨component, hcomponent, hp⟩ := List.mem_flatten.mp (hcondensation.mem_flatten p)
    exact ⟨component, hcomponent, hp, (hcondensation.onCycle_iff hcomponent hp).mp hcycle⟩

/-- **The graph algorithms are right for every graph.**  The components are the strongly connected
ones, each once and after those that it depends on; the positions on a cycle are marked; and the
postorder lists every position once, after the positions that it depends on and that do not lead
back to it. -/
theorem initializers_correct (dependencies : Dependencies n) :
    (IsCondensation dependencies (initializerComponents dependencies) ∧
        [] ∉ initializerComponents dependencies) ∧
      (∀ p, cyclicInitializers dependencies p = true ↔
        Relation.TransGen (fun v w => w ∈ dependencies v) p p) ∧
      (initializerPostorder dependencies).Perm (List.finRange n) ∧
      ∀ u v, v ∈ dependencies u → ¬ Walk dependencies v u →
        (initializerPostorder dependencies).idxOf v <
          (initializerPostorder dependencies).idxOf u := by
  have hexplores := explores_initializerPostorder dependencies
  have hmem := mem_initializerPostorder dependencies
  refine ⟨⟨isCondensation_initializerComponents dependencies,
    nil_notMem_initializerComponents dependencies⟩, cyclicInitializers_iff dependencies, ?_, ?_⟩
  · rw [List.perm_ext_iff_of_nodup hexplores.nodup (List.nodup_finRange n)]
    intro p
    simp [hmem p]
  · intro u v hedge hback
    rcases hexplores.idxOf_lt_of_edge (hmem u) hedge hback with hseen | ⟨-, hlt⟩
    · simp at hseen
    · exact hlt

end Iris.Functional
