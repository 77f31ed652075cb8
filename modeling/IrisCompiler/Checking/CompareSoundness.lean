import IrisCompiler.Checking.PrimCompare
import IrisCompiler.Checking.Substitution
import IrisCompiler.Library.OrderGraph
import Mathlib.Data.Rat.Cast.Order

/-!
# Transitive comparison is correct

Reachability in the graph of the given comparisons is that of `OrderGraph`.  So an ordering that
`match_compare` chooses holds in every integer solution of the given constraints, and one that they
force over the rationals is chosen.
-/

namespace Iris.Checking

open TotalRun Relation CompareGraph List Option OrderGraph Ty

/-! ## Reachability -/

/-- A list leads along its windows from each element to every later one. -/
lemma pairwise_windows {β : Type*} (list : List β) :
    list.Pairwise (ReflTransGen fun x y => (x, y) ∈ list.zip list.tail) := by
  rw [← isChain_iff_pairwise, isChain_iff_forall_rel_of_append_cons_cons]
  rintro a b before after rfl
  refine .single ?_
  induction before with
  | nil => simp
  | cons c before ih =>
    cases before with
    | nil => simp
    | cons => exact .tail _ ih

lemma of_mem_windows {β : Type*} {R : β → β → Prop} {p q : β} :
    ∀ {list : List β}, list.Pairwise R → (p, q) ∈ list.zip list.tail → R p q
  | [], _, hmem => by cases hmem
  | [_], _, hmem => by cases hmem
  | a :: b :: list, hordered, hmem => by
    rcases mem_cons.mp hmem with hsame | hmem
    · cases hsame
      exact rel_of_pairwise_cons hordered (.head _)
    · exact of_mem_windows hordered.tail hmem

/-- The literals of the graph are in strictly ascending order. -/
lemma ascending_strict {graph : CompareGraph} (hnodup : graph.nodes.Nodup) :
    (ascending graph.integers).Pairwise fun left right => left.1 < right.1 := by
  have hsorted : (ascending graph.integers).Pairwise fun left right =>
      left.1 ≤ right.1 := pairwise_insertionSort _ _
  have hdistinct : (ascending graph.integers).Nodup := by
    refine (perm_insertionSort _ _).nodup_iff.mpr (hnodup.filterMap fun x y p hx hy => ?_)
    obtain ⟨_, _, rfl⟩ := map_eq_some_iff.mp hx
    obtain ⟨_, _, hsame⟩ := map_eq_some_iff.mp hy
    exact (Prod.mk.inj hsame).2.symm
  refine (hsorted.and hdistinct).imp_of_mem fun {p q} hp hq h => lt_of_le_of_ne h.1 fun hsame => ?_
  have his {p : ℤ × Ty} (hmem : p ∈ ascending graph.integers) : p.2 = .Integer p.1 :=
    (mem_integers.mp ((mem_insertionSort _).mp hmem)).2
  exact h.2 (Prod.ext hsame (by rw [his hp, his hq, hsame]))

section Reach

variable (α : Type) [Ring α] [LinearOrder α] [IsStrictOrderedRing α] (facts : List (Option Fact))
  (left right : Ty)

/-- The facts as order constraints over `α`, with the literals as constants. -/
def orderOf : OrderGraph.Constraints Ty α where
  constant t := t.integer?.map Int.cast
  less := Smaller facts
  same := Level facts
  nodes := (graphOf facts left right).nodes.toFinset
  less_nodes h := by
    simpa using (CompareGraph.valid_graphOf facts left right).ends
      (CompareGraph.mem_edges_graphOf.mpr (.inl h))
  same_nodes h := by
    simpa using (CompareGraph.valid_graphOf facts left right).ends
      (CompareGraph.mem_edges_graphOf.mpr (.inr (.inl h)))
  constant_inj {x y a} hx hy := by
    cases x <;> cases y <;> simp_all [Ty.integer?]
    exact Int.cast_injective (hx.trans hy.symm)

/-- The graph that is searched. -/
def searched : CompareGraph :=
  (graphOf facts left right).addIntegers (graphOf facts left right).integers

variable {facts left right}

/-- Between literals the graph leads from the smaller to the larger one. -/
lemma reach_integers {a b : ℤ} (hx : Integer a ∈ (graphOf facts left right).nodes)
    (hy : Integer b ∈ (graphOf facts left right).nodes) (hlt : a < b) :
    ReflTransGen (fun x y => (x, y) ∈ (searched facts left right).edges) (.Integer a)
      (.Integer b) := by
  let list := ascending (graphOf facts left right).integers
  have hsorted : list.Pairwise fun left right => left.1 ≤ right.1 := pairwise_insertionSort _ _
  have hmem {value : ℤ} (h : Integer value ∈ (graphOf facts left right).nodes) :
      (value, Integer value) ∈ list :=
    (mem_insertionSort _).mpr (mem_integers.mpr ⟨h, rfl⟩)
  have hpath : ReflTransGen (fun p q => (p, q) ∈ list.zip list.tail) (a, Integer a)
      (b, Integer b) := by
    have hboth := (pairwise_windows list).and hsorted
    rcases pairwise_iff_getElem.mp hboth with hordered
    obtain ⟨i, hi, hat_i⟩ := getElem_of_mem (hmem hx)
    obtain ⟨j, hj, hat_j⟩ := getElem_of_mem (hmem hy)
    rcases lt_trichotomy i j with hbefore | rfl | hafter
    · exact hat_i ▸ hat_j ▸ (hordered i j hi hj hbefore).1
    · rw [hat_i] at hat_j
      exact hat_j ▸ .refl
    · have hge := (hordered j i hj hi hafter).2
      rw [hat_i, hat_j] at hge
      exact absurd hge (not_le.mpr hlt)
  exact hpath.lift Prod.snd fun p q hwindow =>
    mem_edges_addIntegers.mpr (.inr ⟨p, q, hwindow, rfl, rfl⟩)

/-- **The graph has the paths of the order constraints.** -/
theorem reach_iff {x y : Ty} :
    ReflTransGen (fun x y => (x, y) ∈ (searched facts left right).edges) x y ↔
      Reach (orderOf α facts left right) x y := by
  constructor
  · intro hpath
    refine ReflTransGen.mono (fun x y hedge => ?_) x y hpath
    rcases mem_edges_addIntegers.mp hedge with hedge | ⟨p, q, hwindow, rfl, rfl⟩
    · rcases mem_edges_graphOf.mp hedge with h | h | h
      · exact .less h
      · exact .same h
      · exact .back h
    · have hlt := of_mem_windows
        (ascending_strict (valid_graphOf facts left right).nodup) hwindow
      have hinteger {r : ℤ × Ty} (hmem : r ∈ ascending
          (graphOf facts left right).integers) :=
        mem_integers.mp ((mem_insertionSort _).mp hmem)
      obtain ⟨hp, hisp⟩ := hinteger (of_mem_zip hwindow).1
      obtain ⟨hq, hisq⟩ := hinteger (mem_of_mem_tail (of_mem_zip hwindow).2)
      exact .constant (a := (p.1 : α)) (b := (q.1 : α)) (mem_toFinset.mpr hp)
        (mem_toFinset.mpr hq) (by simp [orderOf, hisp, integer?])
        (by simp [orderOf, hisq, integer?]) (Int.cast_lt.mpr hlt)
  · intro hreach
    refine hreach.trans_induction_on (fun _ => .refl) (fun hedge => ?_) fun _ _ => .trans
    cases hedge with
    | less h =>
      exact .single (mem_edges_addIntegers.mpr (.inl
        (mem_edges_graphOf.mpr (.inl h))))
    | same h =>
      exact .single (mem_edges_addIntegers.mpr (.inl
        (mem_edges_graphOf.mpr (.inr (.inl h)))))
    | back h =>
      exact .single (mem_edges_addIntegers.mpr (.inl
        (mem_edges_graphOf.mpr (.inr (.inr h)))))
    | constant hx hy ha hb hlt =>
      obtain ⟨m, hm, rfl⟩ := map_eq_some_iff.mp ha
      obtain ⟨n, hn, rfl⟩ := map_eq_some_iff.mp hb
      obtain rfl := eq_of_integer? hm
      obtain rfl := eq_of_integer? hn
      exact reach_integers (mem_toFinset.mp hx) (mem_toFinset.mp hy) (Int.cast_lt.mp hlt)

end Reach

/-! ## Assignments -/

section Assignments

variable {α : Type} [Ring α] [LinearOrder α] [IsStrictOrderedRing α]

/-- The value of a term: variables are assigned values, literals stand for themselves. -/
def valueOf (v : Ty → α) (t : Ty) : α :=
  match t.integer? with
  | some value => value
  | none => v t

/-- The fact holds. -/
def Fact.Holds (v : Ty → α) (fact : Fact) : Prop :=
  cmp (valueOf v fact.1) (valueOf v fact.2.1) = fact.2.2

/-- All facts hold. -/
def Satisfies (facts : List (Option Fact)) (v : Ty → α) : Prop :=
  ∀ fact, some fact ∈ facts → fact.Holds v

variable {facts : List (Option Fact)} {left right : Ty} {v : Ty → α}

lemma Satisfies.solves (h : Satisfies facts v) :
    Solves (orderOf α facts left right) (valueOf v) where
  constant {x a} hfound := by
    obtain ⟨n, hn, rfl⟩ := map_eq_some_iff.mp hfound
    simp [valueOf, hn]
  less := by
    rintro x y (hlt | hgt)
    · exact (cmp_eq_lt_iff _ _).mp (h _ hlt)
    · exact (cmp_eq_gt_iff _ _).mp (h _ hgt)
  same hlevel := (cmp_eq_eq_iff _ _).mp (h _ hlevel)

/-- A solution of the order constraints is an assignment. -/
lemma satisfies_of_solves {w : Ty → α} (h : Solves (orderOf α facts left right) w) :
    Satisfies facts w ∧ valueOf w = w := by
  have hsame : valueOf w = w := by
    funext t
    unfold valueOf
    cases hfound : t.integer? with
    | none => rfl
    | some n => exact (h.constant (by simp [orderOf, hfound])).symm
  refine ⟨?_, hsame⟩
  rintro ⟨x, y, ordering⟩ hmem
  rw [Fact.Holds, hsame]
  cases ordering with
  | lt => exact (cmp_eq_lt_iff _ _).mpr (h.less (.inl hmem))
  | eq => exact (cmp_eq_eq_iff _ _).mpr (h.same hmem)
  | gt => exact (cmp_eq_gt_iff _ _).mpr (h.less (.inr hmem))

end Assignments

/-! ## The ordering that is chosen -/

/-- The search for paths finds them. -/
def HasPath.Correct (hasPath : HasPath) : Prop :=
  ∀ edges x y, hasPath edges x y = true ↔ ReflTransGen (fun x y => (x, y) ∈ edges) x y

/-- What `match_compare` chooses. -/
def chosenOrdering (hasPath : HasPath) (facts : List (Option Fact)) (left right : Ty) :
    Option Ordering :=
  match left.integer?, right.integer? with
  | some leftInt, some rightInt => some (compare leftInt rightInt)
  | _, _ => readPaths hasPath (searched facts left right) left right

section Chosen

variable {hasPath : HasPath} {facts : List (Option Fact)} {left right : Ty} {ordering : Ordering}

/-- Either both terms are literals or the paths decide. -/
lemma chosenOrdering_cases (hasPath : HasPath) (facts : List (Option Fact)) (left right : Ty) :
    (∃ m n, left = .Integer m ∧ right = .Integer n ∧
      chosenOrdering hasPath facts left right = some (compare m n)) ∨
    chosenOrdering hasPath facts left right =
      readPaths hasPath (searched facts left right) left right := by
  unfold chosenOrdering
  cases hl : left.integer? with
  | none => exact .inr rfl
  | some m =>
    cases hr : right.integer? with
    | none => exact .inr rfl
    | some n => exact .inl ⟨m, n, eq_of_integer? hl, eq_of_integer? hr, rfl⟩

variable {α : Type} [Ring α] [LinearOrder α] [IsStrictOrderedRing α]

lemma hasPath_iff (hcorrect : hasPath.Correct) (x y : Ty) :
    hasPath (searched facts left right).edges x y = true ↔
      Reach (orderOf α facts left right) x y :=
  (hcorrect _ x y).trans (reach_iff α)

lemma cmp_literals (v : Ty → α) (m n : ℤ) :
    cmp (valueOf v (.Integer m)) (valueOf v (.Integer n)) = compare m n := by
  rw [← cmp_eq_compare]
  exact Int.cast_strictMono.cmp_map_eq m n

/-- **A chosen ordering holds** in every assignment that satisfies the facts. -/
theorem chosen_holds (hcorrect : hasPath.Correct)
    (hchosen : chosenOrdering hasPath facts left right = some ordering) {v : Ty → α}
    (hsatisfies : Satisfies facts v) : cmp (valueOf v left) (valueOf v right) = ordering := by
  rcases chosenOrdering_cases hasPath facts left right with ⟨m, n, rfl, rfl, hsame⟩ | hsame
  · cases hchosen
    exact cmp_literals v m n
  · rw [hsame, readPaths] at hchosen
    have hsolves : Solves (orderOf α facts left right) (valueOf v) := hsatisfies.solves
    have hpath : ∀ x y, hasPath (searched facts left right).edges x y = true ↔
        Reach (orderOf α facts left right) x y := hasPath_iff hcorrect
    split at hchosen <;> cases hchosen
    case h_1 hforth hback =>
      rw [cmp_eq_eq_iff]
      exact le_antisymm (le_of_reach ((hpath _ _).mp hforth) hsolves)
        (le_of_reach ((hpath _ _).mp hback) hsolves)
    case h_2 hforth hback =>
      rw [cmp_eq_lt_iff]
      exact lt_of_reach ((hpath _ _).mp hforth)
        (fun hreach => by simp [(hpath _ _).mpr hreach] at hback) hsolves
    case h_3 hforth hback =>
      rw [cmp_eq_gt_iff]
      exact lt_of_reach ((hpath _ _).mp hback)
        (fun hreach => by simp [(hpath _ _).mpr hreach] at hforth) hsolves

/-- **A forced ordering is chosen.**  If the facts can be satisfied over the rationals and force one
ordering there, it is the one that is chosen. -/
theorem chosen_of_forced (hcorrect : hasPath.Correct) {v : Ty → ℚ} (hsatisfies : Satisfies facts v)
    (hforced : ∀ v : Ty → ℚ, Satisfies facts v →
      cmp (valueOf v left) (valueOf v right) = ordering) :
    chosenOrdering hasPath facts left right = some ordering := by
  rcases chosenOrdering_cases hasPath facts left right with ⟨m, n, rfl, rfl, hsame⟩ | hsame
  · rw [hsame, ← hforced v hsatisfies, cmp_literals]
  have hsolves : Solves (orderOf ℚ facts left right) (valueOf v) := hsatisfies.solves
  have hpath : ∀ x y, hasPath (searched facts left right).edges x y = true ↔
      Reach (orderOf ℚ facts left right) x y := hasPath_iff hcorrect
  have hnodes : left ∈ (orderOf ℚ facts left right).nodes ∧
      right ∈ (orderOf ℚ facts left right).nodes := by
    simp [orderOf, graphOf]
  -- Without a path some assignment has the opposite strict order.
  have hforth (h : ordering ≠ .gt) :
      hasPath (searched facts left right).edges left right = true := by
    by_contra hnone
    obtain ⟨w, hsolves, hlt⟩ := exists_gt hsolves hnodes.1 hnodes.2
      fun hreach => hnone ((hpath _ _).mpr hreach)
    obtain ⟨hsatisfies, hsame⟩ := satisfies_of_solves hsolves
    refine h ((hforced w hsatisfies).symm.trans ((cmp_eq_gt_iff _ _).mpr ?_))
    rwa [hsame]
  have hback (h : ordering ≠ .lt) :
      hasPath (searched facts left right).edges right left = true := by
    by_contra hnone
    obtain ⟨w, hsolves, hlt⟩ := exists_gt hsolves hnodes.2 hnodes.1
      fun hreach => hnone ((hpath _ _).mpr hreach)
    obtain ⟨hsatisfies, hsame⟩ := satisfies_of_solves hsolves
    refine h ((hforced w hsatisfies).symm.trans ((cmp_eq_lt_iff _ _).mpr ?_))
    rwa [hsame]
  -- A path against a strict order there is not.
  have here := hforced v hsatisfies
  have hnoWay {a b : Ty} (hless : valueOf v a < valueOf v b) :
      hasPath (searched facts left right).edges b a = false := by
    by_contra hfound
    have hle := le_of_reach ((hpath _ _).mp (by simpa using hfound)) hsolves
    exact absurd hless (not_lt.mpr hle)
  rw [hsame, readPaths]
  cases ordering with
  | eq => rw [hforth (by simp), hback (by simp)]
  | lt => rw [hforth (by simp), hnoWay ((cmp_eq_lt_iff _ _).mp here)]
  | gt => rw [hback (by simp), hnoWay ((cmp_eq_gt_iff _ _).mp here)]

end Chosen

/-! ## The run -/

section Run

variable {context : CheckContext} {prim : PrimOrdering} {s s' : CheckState} {t left right : Ty}

lemma Ty.mayExpand_of_isTerm (h : t.isTerm) : t.mayExpand = false := by
  cases t <;> first | rfl | cases h

lemma expand_term (h : t.isTerm) (fuel : ℕ) : expand context fuel t = pure t := by
  rw [expand, mayExpand_of_isTerm h]
  rfl

/-- What a given constraint says: a comparison of two terms says how they are related, if its
relation expands to an ordering; other constraints say nothing. -/
inductive Reads (context : CheckContext) (prim : PrimOrdering) (s : CheckState) :
    CanonicalConstraint → Option Fact → Prop where
  | other {constraint : CanonicalConstraint} (h : constraint.item ≠ prim.compare ∨
      constraint.typeArguments.length ≠ 3) : Reads context prim s constraint none
  | compare {constraint : CanonicalConstraint} {a b relation relation' : Ty}
      (hitem : constraint.item = prim.compare)
      (harguments : constraint.typeArguments = [a, b, relation]) (ha : a.isTerm) (hb : b.isTerm)
      (hexpands : Expands context s relation relation') :
      Reads context prim s constraint ((prim.ordering? relation').map (a, b, ·))

lemma addGiven_settles {constraint : CanonicalConstraint} {fact : Option Fact}
    (hreads : Reads context prim s constraint fact) (hsame : Same s s') (graph : CompareGraph) :
    Settles (fun fuel => addGiven context prim fuel graph constraint) s' fun found u =>
      found = graph.addFact fact ∧ Same s u := by
  cases hreads with
  | other h =>
    unfold addGiven
    split_ifs with hitem
    · exact .pure ⟨rfl, hsame⟩
    · split
      · simp_all
      · exact .pure ⟨rfl, hsame⟩
  | compare hitem harguments ha hb hexpands =>
    simp only [addGiven, hitem, ne_eq, harguments, expand_term ha, expand_term hb, pure_bind]
    refine (hexpands.same hsame).bind ?_
    rintro relation u ⟨rfl, hnear⟩
    refine .pure ⟨?_, hnear⟩
    cases prim.ordering? relation <;> rfl

variable {given : List CanonicalConstraint} {facts : List (Option Fact)}

lemma foldlM_addGiven (hreads : List.Forall₂ (Reads context prim s) given facts) (hsame : Same s s')
    (graph : CompareGraph) :
    Settles (fun fuel => given.foldlM (addGiven context prim fuel) graph) s' fun found u =>
      found = facts.foldl addFact graph ∧ Same s u := by
  induction hreads generalizing graph s' with
  | nil => exact .pure ⟨rfl, hsame⟩
  | cons head _ ih =>
    refine (addGiven_settles head hsame graph).bind ?_
    rintro _ u ⟨rfl, hnear⟩
    exact ih hnear _

/-- Facts that are read are about terms. -/
lemma aboutTerms_of_reads (hreads : List.Forall₂ (Reads context prim s) given facts) :
    AboutTerms facts := by
  intro a b ordering hmem
  induction hreads with
  | nil => cases hmem
  | cons head _ ih =>
    rcases mem_cons.mp hmem with hsame | hmem
    · cases head with
      | other => cases hsame
      | compare hitem harguments ha hb hexpands =>
        obtain ⟨_, _, hsame⟩ := map_eq_some_iff.mp hsame.symm
        cases hsame
        exact ⟨ha, hb⟩
    · exact ih hmem

variable {hasPath : HasPath} {ordering ordering' : Ty}

lemma integerNodes {nodes : List Ty} (hterms : ∀ x ∈ nodes, x.isTerm) (fuel : ℕ) :
    nodes.mapM (integerNode context fuel) =
      pure (nodes.map fun node => node.integer?.map (·, node)) := by
  refine mapM_pure fun x hmem => ?_
  rw [integerNode, extractInteger, expand_term (hterms x hmem)]
  cases x <;> rfl

/-- The transitive search equates the ordering with the one that the paths say. -/
lemma matchCompareTransitive_settles (hl : left.isTerm) (hr : right.isTerm)
    (ho : Expands context s ordering ordering')
    (hreads : List.Forall₂ (Reads context prim s) given facts) (hsame : Same s s') :
    Settles (fun fuel => matchCompareTransitive context prim hasPath fuel left right ordering given)
      s' fun found _ =>
        found = (readPaths hasPath (searched facts left right) left right).map fun result =>
          equated ordering ordering' (prim.type result) := by
  refine (foldlM_addGiven hreads hsame ⟨[], []⟩).bind ?_
  rintro _ u ⟨rfl, hnear⟩
  refine .bind_pure 0 (fun fuel _ => integerNodes (fun x hmem =>
    isTerm_of_mem (aboutTerms_of_reads hreads) hl hr hmem) fuel) ?_
  have hintegers : (List.map (fun node => node.integer?.map (·, node))
      (graphOf facts left right).nodes).reduceOption = (graphOf facts left right).integers := by
    rw [List.reduceOption, filterMap_map]
    rfl
  have hwhole : (((facts.foldl addFact ⟨[], []⟩).addNode left).addNode right).addIntegers
      (graphOf facts left right).integers = searched facts left right := rfl
  simp only [hintegers, hwhole]
  cases readPaths hasPath (searched facts left right) left right with
  | none => exact .pure rfl
  | some result =>
    refine (matchEquality_atom ho hnear (by cases result <;> rfl)).bind ?_
    rintro _ u ⟨rfl, -⟩
    exact .pure rfl

/-- Terms whose kinds are known do not block. -/
lemma blockingConstraint_closed (hl : left.hasUnification = false)
    (hr : right.hasUnification = false) (u : CheckState) :
    Settles (fun fuel => blockingConstraint fuel [left, right]) u fun found _ =>
      found = .Apart := by
  refine .succ (Settles.congr (.pure rfl) 0 fun fuel _ => ?_)
  simp [blockingConstraint, collectBlocking, walkBlocking, hl, hr]

/-- `match_compare` equates the ordering with the one that is chosen.  Where none is, the kinds of
the terms may block. -/
theorem matchCompare_settles (hl : left.isTerm) (hr : right.isTerm)
    (ho : Expands context s ordering ordering')
    (hreads : List.Forall₂ (Reads context prim s) given facts)
    (hclosed : chosenOrdering hasPath facts left right = none →
      left.hasUnification = false ∧ right.hasUnification = false) :
    Settles (fun fuel => matchCompare context prim hasPath fuel left right ordering given) s
      fun found _ => found = match chosenOrdering hasPath facts left right with
        | some chosen => equated ordering' ordering' (prim.type chosen)
        | none => .Apart := by
  have hextract {t : Ty} (h : t.isTerm) (fuel : ℕ) :
      extractInteger context fuel t = pure t.integer? := by
    rw [extractInteger, expand_term h]
    cases t <;> rfl
  simp only [matchCompare, expand_term hl, expand_term hr, pure_bind, hextract hl, hextract hr]
  refine (ho.same (same_equivalence.refl s)).bind ?_
  rintro ordering' u ⟨rfl, hnear⟩
  unfold chosenOrdering at hclosed ⊢
  cases hleft : left.integer? <;> cases hright : right.integer? <;>
    simp only [hleft, hright] at hclosed ⊢
  case some.some m n =>
    refine (matchEquality_atom ho.idem hnear ?_).mono fun _ _ h => h.1
    cases compare m n <;> rfl
  -- The search, then the variables that block if it found nothing.
  all_goals
    refine (matchCompareTransitive_settles hl hr ho.idem hreads hnear).bind ?_
    rintro _ w rfl
    cases hfound : readPaths hasPath (searched facts left right) left right with
    | none => exact blockingConstraint_closed (hclosed hfound).1 (hclosed hfound).2 w
    | some chosen => exact .pure rfl

/-- The search for paths, as a specification. -/
noncomputable def everyPath : HasPath := fun edges x y =>
  open scoped Classical in decide (ReflTransGen (fun x y => (x, y) ∈ edges) x y)

lemma everyPath_correct : everyPath.Correct := fun _ _ _ => by simp [everyPath]

end Run

end Iris.Checking
