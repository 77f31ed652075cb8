import IrisCompiler.Checking.SuperclassClosure

/-!
# The search for superclasses

The search of `superclass_edges` visits the superclasses of the given constraint, each of them once.
It returns if there are finitely many (`elaborates_of_finite`), and what it has seen when it returns
is all of them (`finite_of_elaborates`).
-/

namespace Iris.Checking

open TotalRun Relation List Search

/-- How the classes that are reached are stored: the head of each superclass unfolds to a class in
less than so many steps, and there are no unification variables in it.  The parameters of these
classes are not among the variables of synonyms.  There are finitely many synonyms, interned and
without solved variables. -/
structure Stored (context : CheckContext) (classes : ClassTable) (steps : ℕ)
    (given : CanonicalConstraint) (state : CheckState) : Prop where
  unfolds : ∀ {item checkedClass}, Reaches (unfoldedTable context steps classes) given item →
    classes.lookup item = some checkedClass → ∀ superclass ∈ checkedClass.superclasses,
      (unfold context steps superclass.constraint).isSome
  fixed : ∀ {item checkedClass}, Reaches (unfoldedTable context steps classes) given item →
    classes.lookup item = some checkedClass → ∀ superclass ∈ checkedClass.superclasses,
      superclass.constraint.mayZonk = false
  apart : ∀ {item checkedClass}, Reaches (unfoldedTable context steps classes) given item →
    classes.lookup item = some checkedClass → ∀ other synonym,
      context.synonyms other = some synonym →
      synonym.expansion.any (namesRigid checkedClass.parameters) = false
  synonyms : ∃ items : List TypeItem, ∀ item synonym, context.synonyms item = some synonym →
    item ∈ items ∧ Zonked state synonym.expansion ∧ synonym.expansion.Interned

/-- Elaboration returns. -/
def Elaborates (context : CheckContext) (classes : ClassTable) (state : CheckState)
    (given : CanonicalConstraint) : Prop :=
  ∃ enough, ∀ fuel ≥ enough, ∃ constraints last,
    (elaborateSuperclasses context classes fuel [given]).run state = .ok (constraints, last)

/-! ## Arguments -/

section Arguments

variable {select : ApplicationArgument → Option Ty} {checkedClass : CheckedClass}
  {names : List Name} {arguments rest : List ApplicationArgument} {bindings result : NameToType}
  {P : Ty → Prop}

lemma bindArguments_all (hselects : ∀ argument t, select argument = some t → argument.type = t)
    (h : bindArguments select names arguments bindings = some (result, rest))
    (hall : ∀ argument ∈ arguments, P argument.type) (hbound : ∀ binding ∈ bindings, P binding.2) :
    (∀ binding ∈ result, P binding.2) ∧ ∀ argument ∈ rest, P argument.type := by
  induction names generalizing arguments bindings with
  | nil =>
    cases h
    exact ⟨hbound, hall⟩
  | cons name names ih =>
    cases arguments with
    | nil => cases h
    | cons argument arguments =>
      rw [bindArguments] at h
      cases hselected : select argument with
      | none => simp [hselected] at h
      | some t =>
        rw [hselected] at h
        refine ih h (fun other hmem => hall other (.tail _ hmem)) fun binding hmem => ?_
        obtain rfl | hmem := mem_cons.mp hmem
        · exact hselects argument t hselected ▸ hall argument (.head _)
        · exact hbound binding hmem

/-- What holds of the arguments holds of the values of the parameters. -/
lemma substitutions_all (h : superclassSubstitutions checkedClass arguments = some result)
    (hall : ∀ argument ∈ arguments, P argument.type) {name : Name} {value : Ty}
    (hbound : result.lookup name = some value) : P value := by
  unfold superclassSubstitutions at h
  split at h
  · cases h
  · rename_i kinds rest hfirst
    obtain ⟨hkindsAll, hrestAll⟩ := bindArguments_all
      (by rintro (_ | _) t h <;> cases h; rfl) hfirst hall (by simp)
    split at h
    · rename_i types hsecond
      cases h
      obtain ⟨htypesAll, _⟩ := bindArguments_all
        (by rintro (_ | _) t h <;> cases h; rfl) hsecond hrestAll hkindsAll
      obtain ⟨before, after, rfl, _⟩ := lookup_eq_some_iff.mp hbound
      exact htypesAll (name, value) (by simp)
    · cases h

end Arguments

/-! ## The superclasses of the table -/

section Table

variable {context : CheckContext} {classes : ClassTable} {steps : ℕ} {state : CheckState}
  {given parent child : CanonicalConstraint} {checkedClass : CheckedClass}
  {substitutions : NameToType} {superclass : CheckedSuperclass} {constraint : CanonicalConstraint}

/-- The child is a superclass of the parent, which the stored table has in this form. -/
structure Declares (context : CheckContext) (classes : ClassTable) (steps : ℕ)
    (parent child : CanonicalConstraint) (checkedClass : CheckedClass)
    (substitutions : NameToType) (superclass : CheckedSuperclass)
    (constraint : CanonicalConstraint) : Prop where
  found : classes.lookup parent.item = some checkedClass
  fits : superclassSubstitutions checkedClass parent.arguments = some substitutions
  mem : superclass ∈ checkedClass.superclasses
  unfolds : unfold context steps superclass.constraint = some constraint
  child_eq : child = constraint.substitute substitutions

lemma Declares.isSuperclass (h : Declares context classes steps parent child checkedClass
    substitutions superclass constraint) :
    IsSuperclass (unfoldedTable context steps classes) parent child :=
  ⟨checkedClass.unfolded context steps, substitutions, superclass.unfolded context steps,
    constraint, by rw [lookup_unfoldedTable, h.found]; rfl, h.fits, mem_map_of_mem h.mem,
    spine_unfolded h.unfolds, h.child_eq⟩

/-- The class of a constraint that is reached. -/
lemma reaches_of_found
    (hreached : ReflTransGen (IsSuperclass (unfoldedTable context steps classes)) given parent)
    (hfound : classes.lookup parent.item = some checkedClass)
    (hfits : superclassSubstitutions checkedClass parent.arguments = some substitutions) :
    Reaches (unfoldedTable context steps classes) given parent.item := by
  refine @reaches_of_superclass _ _ _ (checkedClass.unfolded context steps) hreached ?_ ?_
  · rw [lookup_unfoldedTable, hfound]
    rfl
  · have hfits : superclassSubstitutions (checkedClass.unfolded context steps) parent.arguments =
        some substitutions := hfits
    rw [hfits]
    nofun

lemma Stored.declares (hstored : Stored context classes steps given state)
    (hreached : ReflTransGen (IsSuperclass (unfoldedTable context steps classes)) given parent)
    (h : IsSuperclass (unfoldedTable context steps classes) parent child) :
    ∃ checkedClass substitutions superclass constraint, Declares context classes steps parent child
      checkedClass substitutions superclass constraint := by
  obtain ⟨_, substitutions, _, template, hlookup, hfits, hmem', heq, rfl⟩ := h
  rw [lookup_unfoldedTable] at hlookup
  obtain ⟨checkedClass, hfound, rfl⟩ := Option.map_eq_some_iff.mp hlookup
  obtain ⟨superclass, hmem, rfl⟩ := mem_map.mp hmem'
  obtain ⟨constraint, hunfolds⟩ := Option.isSome_iff_exists.mp
    (hstored.unfolds (reaches_of_found hreached hfound hfits) hfound superclass hmem)
  obtain rfl := Option.some_injective _ ((spine_unfolded hunfolds).symm.trans heq)
  exact ⟨checkedClass, substitutions, superclass, constraint, hfound, hfits, hmem, hunfolds, rfl⟩

/-- The synonyms do not mention the parameters that are replaced. -/
lemma Stored.apart_substitutions (hstored : Stored context classes steps given state)
    (hreaches : Reaches (unfoldedTable context steps classes) given parent.item)
    (hfound : classes.lookup parent.item = some checkedClass)
    (hfits : superclassSubstitutions checkedClass parent.arguments = some substitutions) :
    Apart context substitutions := by
  obtain ⟨items, hsynonyms⟩ := hstored.synonyms
  refine Apart.of_names (fun name => (lookup_substitutions hfits name).mp)
    fun item synonym hsome => ⟨?_, (hsynonyms item synonym hsome).2.2⟩
  exact hstored.apart hreaches hfound item synonym hsome

/-- **Leaves of a kind do not appear** among the superclasses. -/
lemma superclass_any {p : Ty → Bool} (hleaf : ∀ t, p t = true → t.children = [])
    (hstored : Stored context classes steps given state)
    (hsynonym : ∀ item synonym, p (.Synonym item) = false → context.synonyms item = some synonym →
      synonym.expansion.any p = false)
    (hclasses : ∀ {item checkedClass}, Reaches (unfoldedTable context steps classes) given item →
      classes.lookup item = some checkedClass → ∀ superclass ∈ checkedClass.superclasses,
        superclass.constraint.any p = false)
    (hclean : ∀ argument ∈ given.arguments, argument.type.any p = false)
    (hreached :
      ReflTransGen (IsSuperclass (unfoldedTable context steps classes)) given constraint) :
    ∀ argument ∈ constraint.arguments, argument.type.any p = false := by
  induction hreached with
  | refl => exact hclean
  | tail hbefore hstep ih =>
    obtain ⟨checkedClass, substitutions, superclass, template, hdeclares⟩ :=
      hstored.declares hbefore hstep
    have hreaches := reaches_of_found hbefore hdeclares.found hdeclares.fits
    intro argument hinChild
    rw [hdeclares.child_eq] at hinChild
    obtain ⟨original, hinTemplate, rfl⟩ := mem_map.mp hinChild
    have htype : (original.map (Ty.substitute substitutions)).type =
        original.type.substitute substitutions := by cases original <;> rfl
    rw [htype]
    refine any_substitute hleaf (unfold_any hleaf hsynonym hdeclares.unfolds
      (hclasses hreaches hdeclares.found superclass hdeclares.mem) original hinTemplate) ?_
    exact fun name value hbound =>
      substitutions_all (P := fun t => t.any p = false) hdeclares.fits ih hbound

end Table

/-! ## The search ends -/

section Ends

variable {context : CheckContext} {classes : ClassTable} {steps : ℕ} {state : CheckState}
  {given parent : CanonicalConstraint}

/-- The search after a superclass: it is the same, or a superclass was added. -/
def Search.Grown (classes : ClassTable) (parent : CanonicalConstraint) (search next : Search) :
    Prop :=
  next = search ∨ ∃ child, IsSuperclass classes parent child ∧ child ∉ search.seen ∧
    next.pending = search.pending ++ [child] ∧ next.seen = child :: search.seen

lemma visitSuperclass_settles (hstored : Stored context classes steps given state)
    (hzonked : ∀ argument ∈ parent.arguments, Zonked state argument.type)
    (hreaches : Reaches (unfoldedTable context steps classes) given parent.item)
    {checkedClass : CheckedClass} {substitutions : NameToType} {superclass : CheckedSuperclass}
    (hfound : classes.lookup parent.item = some checkedClass)
    (hfits : superclassSubstitutions checkedClass parent.arguments = some substitutions)
    (hmem : superclass ∈ checkedClass.superclasses) (search : Search) :
    Settles (fun fuel => visitSuperclass context fuel parent substitutions search superclass) state
      fun next s => s = state ∧
        search.Grown (unfoldedTable context steps classes) parent next := by
  obtain ⟨constraint, hunfolds⟩ :=
    Option.isSome_iff_exists.mp (hstored.unfolds hreaches hfound superclass hmem)
  have hfixed := hstored.fixed hreaches hfound superclass hmem
  have hzonkedChild : Zonked state (superclass.constraint.substitute substitutions) := by
    refine any_substitute solved_leaf (zonked_of_fixed hfixed) fun name value hbound => ?_
    exact substitutions_all (P := Zonked state) hfits hzonked hbound
  have hapart := hstored.apart_substitutions hreaches hfound hfits
  obtain ⟨items, hsynonyms⟩ := hstored.synonyms
  obtain ⟨enough, hcanonical⟩ := canonicalise_unfold hunfolds
  refine Settles.bind_pure (superclass.constraint.size + 1)
    (fun fuel hlarge => substituteMany_fixed hfixed hlarge) ?_
  refine (containsUnknown_settles (fun item synonym h => (hsynonyms item synonym h).2.1)
    (fun item synonym h => (hsynonyms item synonym h).1) hzonkedChild).bind ?_
  rintro unknown s rfl
  split_ifs
  · exact .pure ⟨rfl, .inl rfl⟩
  · refine Settles.bind_pure enough (fun fuel hlarge => hcanonical _ hapart fuel hlarge) ?_
    dsimp only
    split_ifs with hold
    · exact .pure ⟨rfl, .inl rfl⟩
    · have hdeclares : Declares context classes steps parent _ checkedClass substitutions superclass
        constraint := ⟨hfound, hfits, hmem, hunfolds, rfl⟩
      exact .pure ⟨rfl, .inr ⟨_, hdeclares.isSuperclass, hold, rfl, rfl⟩⟩

/-- What is seen is a superclass of the given constraint, and what is pending was seen. -/
structure Search.Valid (classes : ClassTable) (given : CanonicalConstraint) (search : Search) :
    Prop where
  reached : ∀ constraint ∈ search.seen, ReflTransGen (IsSuperclass classes) given constraint
  pending : ∀ constraint ∈ search.pending, constraint ∈ search.seen

/-- How much is left to do, if all constraints are among these. -/
def Search.left (all : Finset CanonicalConstraint) (search : Search) : ℕ :=
  2 * (all.filter (· ∉ search.seen)).card + search.pending.length

variable {search next : Search} {all : Finset CanonicalConstraint}

lemma Search.Grown.valid (h : search.Grown classes parent next)
    (hreached : ReflTransGen (IsSuperclass classes) given parent)
    (valid : search.Valid classes given) : next.Valid classes given := by
  obtain rfl | ⟨child, hsuperclass, _, hpending, hseen⟩ := h
  · exact valid
  · refine ⟨fun constraint hmem => ?_, fun constraint hmem => ?_⟩
    · rw [hseen] at hmem
      obtain rfl | hmem := mem_cons.mp hmem
      · exact hreached.tail hsuperclass
      · exact valid.reached constraint hmem
    · rw [hpending] at hmem
      rw [hseen]
      obtain hmem | hmem := mem_append.mp hmem
      · exact .tail _ (valid.pending constraint hmem)
      · rw [mem_singleton.mp hmem]
        exact .head _

lemma Search.Grown.left_le (h : search.Grown classes parent next)
    (hcomplete : ∀ constraint, IsSuperclass classes parent constraint → constraint ∈ all) :
    next.left all ≤ search.left all := by
  obtain rfl | ⟨child, hsuperclass, hnew, hpending, hseen⟩ := h
  · exact le_rfl
  · have hfewer : (all.filter (· ∉ next.seen)).card < (all.filter (· ∉ search.seen)).card := by
      refine Finset.card_lt_card (Finset.ssubset_iff_of_subset ?_ |>.mpr ⟨child, ?_, ?_⟩)
      · intro constraint hmem
        simp only [Finset.mem_filter, hseen, mem_cons, not_or] at hmem ⊢
        exact ⟨hmem.1, hmem.2.2⟩
      · simp [hcomplete child hsuperclass, hnew]
      · simp [hseen]
    unfold left
    rw [hpending, length_append, length_singleton]
    omega

lemma visitConstraint_settles (hstored : Stored context classes steps given state)
    (hzonked : ∀ argument ∈ given.arguments, Zonked state argument.type)
    (hcomplete : ∀ constraint,
      ReflTransGen (IsSuperclass (unfoldedTable context steps classes)) given constraint →
      constraint ∈ all)
    (hreached : ReflTransGen (IsSuperclass (unfoldedTable context steps classes)) given parent)
    (hvalid : search.Valid (unfoldedTable context steps classes) given) :
    Settles (fun fuel => visitConstraint context classes fuel parent search) state
      fun next s => s = state ∧ next.Valid (unfoldedTable context steps classes) given ∧
        next.left all ≤ search.left all := by
  have hzonkedParent := superclass_any solved_leaf hstored
    (fun item synonym _ hsome => by
      obtain ⟨items, hsynonyms⟩ := hstored.synonyms
      exact (hsynonyms item synonym hsome).2.1)
    (fun hreaches hfound superclass hmem =>
      zonked_of_fixed (hstored.fixed hreaches hfound superclass hmem)) hzonked hreached
  unfold visitConstraint
  cases hfound : classes.lookup parent.item with
  | none => exact .pure ⟨rfl, hvalid, le_rfl⟩
  | some checkedClass =>
    dsimp only
    cases hfits : superclassSubstitutions checkedClass parent.arguments with
    | none => exact .pure ⟨rfl, hvalid, le_rfl⟩
    | some substitutions =>
      refine Settles.foldlM (fun (next : Search) s => s = state ∧
        next.Valid (unfoldedTable context steps classes) given ∧
          next.left all ≤ search.left all) ?_ ⟨rfl, hvalid, le_rfl⟩
      rintro superclass hmem next s ⟨rfl, hvalid, hle⟩
      refine (visitSuperclass_settles hstored hzonkedParent
        (reaches_of_found hreached hfound hfits) hfound hfits hmem next).mono ?_
      rintro later s ⟨rfl, hgrown⟩
      refine ⟨rfl, hgrown.valid hreached hvalid,
        le_trans (hgrown.left_le fun constraint h => ?_) hle⟩
      exact hcomplete constraint (hreached.tail h)

/-- **The search ends** if there are finitely many superclasses. -/
theorem elaborates_of_finite (hstored : Stored context classes steps given state)
    (hzonked : ∀ argument ∈ given.arguments, Zonked state argument.type)
    (hfinite : {constraint | ReflTransGen
      (IsSuperclass (unfoldedTable context steps classes)) given constraint}.Finite) :
    Elaborates context classes state given := by
  have hcomplete (constraint : CanonicalConstraint)
      (h : ReflTransGen (IsSuperclass (unfoldedTable context steps classes)) given constraint) :
      constraint ∈ hfinite.toFinset := hfinite.mem_toFinset.mpr h
  have hedges : Settles (fun fuel => superclassEdges context classes fuel (distinct [given])) state
      fun _ _ => True := by
    refine Settles.loop (fun (search : Search) s => s = state ∧
      search.Valid (unfoldedTable context steps classes) given)
      (fun search _ => search.left hfinite.toFinset) ?_ ⟨rfl, ?_⟩
    · rintro search s ⟨rfl, hvalid⟩
      cases hpending : search.pending with
      | nil => exact .pure trivial
      | cons parent rest =>
        have hreached := hvalid.reached parent (hvalid.pending parent (by simp [hpending]))
        have hvalidRest : Valid (unfoldedTable context steps classes) given
            { search with pending := rest } :=
          ⟨hvalid.reached,
            fun constraint hmem => hvalid.pending constraint (by simp [hpending, hmem])⟩
        refine (visitConstraint_settles hstored hzonked hcomplete hreached hvalidRest).bind ?_
        rintro next s ⟨rfl, hvalid, hle⟩
        refine .pure ⟨⟨rfl, hvalid⟩, lt_of_le_of_lt hle ?_⟩
        simp [left, hpending]
    · refine ⟨fun constraint hmem => ?_, fun _ => id⟩
      obtain rfl : constraint = given := by simpa [distinct] using hmem
      exact .refl
  obtain ⟨constraints, last, enough, hrun, _⟩ :
      Settles (fun fuel => elaborateSuperclasses context classes fuel [given]) state
        fun _ _ => True :=
    hedges.bind fun _ _ _ => .pure trivial
  exact ⟨enough, fun fuel hlarge => ⟨constraints, last, hrun fuel hlarge⟩⟩

end Ends

/-! ## What the search has seen -/

/-- Nothing in the classes that are reached and in the given constraint may stand for the unknown
type: they mention no synonyms but these, which do not stand for it either. -/
structure Clean (context : CheckContext) (classes : ClassTable) (steps : ℕ) (items : List TypeItem)
    (given : CanonicalConstraint) : Prop where
  classes : ∀ {item checkedClass}, Reaches (unfoldedTable context steps classes) given item →
    classes.lookup item = some checkedClass → ∀ superclass ∈ checkedClass.superclasses,
      Known items superclass.constraint
  given : ∀ argument ∈ given.arguments, Known items argument.type
  synonyms : ∀ item ∈ items, ∀ synonym, context.synonyms item = some synonym →
    Known items synonym.expansion

section Complete

variable {context : CheckContext} {classes : ClassTable} {steps : ℕ} {items : List TypeItem}
  {state : CheckState} {given parent : CanonicalConstraint}

/-- With this fuel a superclass is found, whatever the parameters are. -/
structure Affordable (context : CheckContext) (steps fuel : ℕ) (superclass : CheckedSuperclass) :
    Prop where
  size : superclass.constraint.size < fuel
  canonicalise : ∀ constraint outer, unfold context steps superclass.constraint = some constraint →
    Apart context outer → canonicalise context fuel (superclass.constraint.substitute outer) =
      pure (some (constraint.substitute outer))

lemma exists_affordable (superclass : CheckedSuperclass) :
    ∃ enough, ∀ fuel ≥ enough, Affordable context steps fuel superclass := by
  cases hunfolds : unfold context steps superclass.constraint with
  | none =>
    refine ⟨superclass.constraint.size + 1, fun fuel hlarge => ⟨hlarge, fun _ _ hsome => ?_⟩⟩
    cases hunfolds.symm.trans hsome
  | some constraint =>
    obtain ⟨enough, hcanonical⟩ := canonicalise_unfold hunfolds
    refine ⟨max enough (superclass.constraint.size + 1), fun fuel hlarge =>
      ⟨(le_max_right _ _).trans hlarge, fun _ outer hsome hapart => ?_⟩⟩
    cases hunfolds.symm.trans hsome
    exact hcanonical outer hapart fuel ((le_max_left _ _).trans hlarge)

/-- There is fuel for all superclasses of the table. -/
lemma exists_affordable_all (context : CheckContext) (classes : ClassTable) (steps : ℕ) :
    ∃ enough, ∀ fuel ≥ enough, ∀ {item checkedClass}, classes.lookup item = some checkedClass →
      ∀ superclass ∈ checkedClass.superclasses, Affordable context steps fuel superclass := by
  have hall : ∀ᶠ fuel in Filter.atTop, ∀ superclass ∈
      {superclass | superclass ∈ classes.flatMap fun entry => entry.2.superclasses},
      Affordable context steps fuel superclass :=
    (Filter.eventually_all_finite (finite_toSet _)).mpr fun superclass _ =>
      Filter.eventually_atTop.mpr (exists_affordable superclass)
  obtain ⟨enough, hall⟩ := Filter.eventually_atTop.mp hall
  refine ⟨enough, fun fuel hlarge item checkedClass hfound superclass hmem => ?_⟩
  exact hall fuel hlarge superclass (mem_flatMap.mpr ⟨_, mem_of_lookup hfound, hmem⟩)

/-- The search with a superclass added, unless it was seen before. -/
def Search.add (search : Search) (parent child : CanonicalConstraint)
    (superclass : CheckedSuperclass) : Search :=
  if child ∈ search.seen then search
  else {
    pending := search.pending ++ [child]
    seen := child :: search.seen
    edges := search.edges ++
      [⟨parent, child, parent.item, superclass.sourceId, superclass.member⟩] }

/-- A visit that returns has added the superclass. -/
lemma visitSuperclass_run {superclass : CheckedSuperclass} {constraint : CanonicalConstraint}
    {substitutions : NameToType} {fuel : ℕ} {search next : Search} {last : CheckState}
    (haffordable : Affordable context steps fuel superclass)
    (hfixed : superclass.constraint.mayZonk = false)
    (hunfolds : unfold context steps superclass.constraint = some constraint)
    (hapart : Apart context substitutions)
    (hsynonyms : ∀ item ∈ items, ∀ synonym, context.synonyms item = some synonym →
      Known items synonym.expansion)
    (hknown : Known items (superclass.constraint.substitute substitutions))
    (hrun : (visitSuperclass context fuel parent substitutions search superclass).run state =
      .ok (next, last)) :
    last = state ∧ next = search.add parent (constraint.substitute substitutions) superclass := by
  rw [visitSuperclass, substituteMany_fixed hfixed haffordable.size, pure_bind] at hrun
  obtain ⟨found, middle, hunknown, hrun⟩ := of_run_bind hrun
  obtain ⟨rfl, rfl⟩ := containsUnknown_known hsynonyms hknown hunknown
  simp only [Bool.false_eq_true, if_false,
    haffordable.canonicalise constraint substitutions hunfolds hapart, pure_bind] at hrun
  unfold add
  split_ifs at hrun ⊢
  · cases hrun
    exact ⟨rfl, rfl⟩
  · cases hrun
    exact ⟨rfl, rfl⟩

/-- Constraints were added to those to look at and to those seen. -/
def Search.Extends (search next : Search) : Prop :=
  ∃ more, next.pending = search.pending ++ more ∧
    ∀ constraint, constraint ∈ next.seen ↔ constraint ∈ more ∨ constraint ∈ search.seen

variable {search next : Search}

lemma Search.Extends.trans {later : Search} (h : search.Extends next) (h' : next.Extends later) :
    search.Extends later := by
  obtain ⟨more, hpending, hseen⟩ := h
  obtain ⟨more', hpending', hseen'⟩ := h'
  refine ⟨more ++ more', by rw [hpending', hpending, append_assoc], fun constraint => ?_⟩
  rw [hseen', hseen, mem_append]
  tauto

lemma Search.extends_add (search : Search) (parent child : CanonicalConstraint)
    (superclass : CheckedSuperclass) :
    search.Extends (search.add parent child superclass) ∧
      child ∈ (search.add parent child superclass).seen := by
  unfold add
  split_ifs with hold
  · exact ⟨⟨[], by simp, by simp⟩, hold⟩
  · exact ⟨⟨[child], rfl, by simp⟩, .head _⟩

lemma Search.mem_add {constraint child : CanonicalConstraint} {superclass : CheckedSuperclass}
    (h : constraint ∈ (search.add parent child superclass).seen) :
    constraint = child ∨ constraint ∈ search.seen := by
  unfold add at h
  split_ifs at h
  · exact .inr h
  · exact mem_cons.mp h

/-- What may stand for the unknown type is a leaf. -/
lemma unknown_leaf (t : Ty) (h : hidesUnknown items t = true) : t.children = [] := by
  cases t with
  | Unknown | Synonym | Unification => rfl
  | _ => cases h

section Visit

variable (hstored : Stored context classes steps given state)
  (hclean : Clean context classes steps items given) {fuel : ℕ}
  (haffordable : ∀ {item checkedClass}, classes.lookup item = some checkedClass →
    ∀ superclass ∈ checkedClass.superclasses, Affordable context steps fuel superclass)
  (hreached : ReflTransGen (IsSuperclass (unfoldedTable context steps classes)) given parent)

include hstored hclean haffordable hreached

/-- The superclasses in a list are seen after they were visited. -/
lemma visitSuperclasses_run {checkedClass : CheckedClass} {substitutions : NameToType}
    (hfound : classes.lookup parent.item = some checkedClass)
    (hfits : superclassSubstitutions checkedClass parent.arguments = some substitutions)
    {list : List CheckedSuperclass}
    (hsub : ∀ superclass ∈ list, superclass ∈ checkedClass.superclasses) {last : CheckState}
    (hrun : (list.foldlM (visitSuperclass context fuel parent substitutions) search).run state =
      .ok (next, last)) :
    last = state ∧ search.Extends next ∧
      (∀ superclass ∈ list, ∀ constraint,
        unfold context steps superclass.constraint = some constraint →
        constraint.substitute substitutions ∈ next.seen) ∧
      ∀ constraint ∈ next.seen, constraint ∈ search.seen ∨
        IsSuperclass (unfoldedTable context steps classes) parent constraint := by
  have hknownParent := superclass_any unknown_leaf hstored
    (fun item synonym hmem hsome => hclean.synonyms item (by simpa [hidesUnknown] using hmem)
      synonym hsome) hclean.classes hclean.given hreached
  have hreaches := reaches_of_found hreached hfound hfits
  induction list generalizing search with
  | nil =>
    cases hrun
    exact ⟨rfl, ⟨[], by simp, by simp⟩, by simp, fun _ => .inl⟩
  | cons superclass list ih =>
    have hmem := hsub superclass (.head _)
    obtain ⟨constraint, hunfolds⟩ :=
      Option.isSome_iff_exists.mp (hstored.unfolds hreaches hfound superclass hmem)
    have hknown : Known items (superclass.constraint.substitute substitutions) :=
      any_substitute unknown_leaf (hclean.classes hreaches hfound superclass hmem)
        fun name value hbound => substitutions_all (P := Known items) hfits hknownParent hbound
    rw [foldlM_cons] at hrun
    obtain ⟨first, middle, hvisit, hrun⟩ := of_run_bind hrun
    obtain ⟨rfl, rfl⟩ := visitSuperclass_run (haffordable hfound superclass hmem)
      (hstored.fixed hreaches hfound superclass hmem) hunfolds
      (hstored.apart_substitutions hreaches hfound hfits) hclean.synonyms hknown hvisit
    obtain ⟨hextended, hseen⟩ :=
      search.extends_add parent (constraint.substitute substitutions) superclass
    obtain ⟨hsame, hextended', hchildren, honly⟩ := ih (fun s h => hsub s (.tail _ h)) hrun
    refine ⟨hsame, hextended.trans hextended', ?_, fun c hinNext => ?_⟩
    · intro other hinList template hunfolds'
      obtain rfl | hinList := mem_cons.mp hinList
      · cases hunfolds.symm.trans hunfolds'
        obtain ⟨more, _, hall⟩ := hextended'
        exact (hall _).mpr (.inr hseen)
      · exact hchildren other hinList template hunfolds'
    · obtain hold | hisSuperclass := honly c hinNext
      · obtain rfl | hold := mem_add hold
        · have hdeclares : Declares context classes steps parent _ checkedClass substitutions
            superclass constraint := ⟨hfound, hfits, hmem, hunfolds, rfl⟩
          exact .inr hdeclares.isSuperclass
        · exact .inl hold
      · exact .inr hisSuperclass

/-- All superclasses of a constraint are seen after it was visited. -/
lemma visitConstraint_run {last : CheckState}
    (hrun : (visitConstraint context classes fuel parent search).run state = .ok (next, last)) :
    last = state ∧ search.Extends next ∧
      (∀ child, IsSuperclass (unfoldedTable context steps classes) parent child →
        child ∈ next.seen) ∧
      ∀ constraint ∈ next.seen, constraint ∈ search.seen ∨
        IsSuperclass (unfoldedTable context steps classes) parent constraint := by
  have hsame : search.Extends search := ⟨[], by simp, by simp⟩
  unfold visitConstraint at hrun
  cases hfound : classes.lookup parent.item with
  | none =>
    rw [hfound] at hrun
    cases hrun
    refine ⟨rfl, hsame, fun child h => ?_, fun _ => .inl⟩
    obtain ⟨_, _, _, _, hdeclares⟩ := hstored.declares hreached h
    cases hfound.symm.trans hdeclares.found
  | some checkedClass =>
    simp only [hfound] at hrun
    cases hfits : superclassSubstitutions checkedClass parent.arguments with
    | none =>
      rw [hfits] at hrun
      cases hrun
      refine ⟨rfl, hsame, fun child h => ?_, fun _ => .inl⟩
      obtain ⟨_, _, _, _, hdeclares⟩ := hstored.declares hreached h
      cases hfound.symm.trans hdeclares.found
      cases hfits.symm.trans hdeclares.fits
    | some substitutions =>
      simp only [hfits] at hrun
      obtain ⟨hstate, hextended, hchildren, honly⟩ :=
        visitSuperclasses_run hstored hclean haffordable hreached hfound hfits (fun _ => id) hrun
      refine ⟨hstate, hextended, fun child h => ?_, honly⟩
      obtain ⟨_, _, superclass, constraint, hdeclares⟩ := hstored.declares hreached h
      cases hfound.symm.trans hdeclares.found
      cases hfits.symm.trans hdeclares.fits
      rw [hdeclares.child_eq]
      exact hchildren superclass hdeclares.mem constraint hdeclares.unfolds

end Visit

/-- The superclasses of what was looked at were seen. -/
structure Search.Closed (classes : ClassTable) (given : CanonicalConstraint) (search : Search) :
    Prop extends search.Valid classes given where
  start : given ∈ search.seen
  closed : ∀ constraint ∈ search.seen, constraint ∉ search.pending →
    ∀ child, IsSuperclass classes constraint child → child ∈ search.seen

lemma Search.Closed.visit {rest : List CanonicalConstraint} (hclosed : search.Closed classes given)
    (hpending : search.pending = parent :: rest)
    (hextended : Extends { search with pending := rest } next)
    (hchildren : ∀ child, IsSuperclass classes parent child → child ∈ next.seen)
    (honly : ∀ constraint ∈ next.seen,
      constraint ∈ search.seen ∨ IsSuperclass classes parent constraint) :
    next.Closed classes given := by
  obtain ⟨more, hnextPending, hnextSeen⟩ := hextended
  have hkept (constraint : CanonicalConstraint) (hmem : constraint ∈ search.seen) :
      constraint ∈ next.seen := (hnextSeen constraint).mpr (.inr hmem)
  have hreached := hclosed.reached parent (hclosed.pending parent (by simp [hpending]))
  refine ⟨⟨fun constraint hmem => ?_, fun constraint hmem => ?_⟩, hkept given hclosed.start, ?_⟩
  · obtain hmem | hsuperclass := honly constraint hmem
    · exact hclosed.reached constraint hmem
    · exact hreached.tail hsuperclass
  · rw [hnextPending] at hmem
    obtain hmem | hmem := mem_append.mp hmem
    · exact hkept constraint (hclosed.pending constraint (by simp [hpending, hmem]))
    · exact (hnextSeen constraint).mpr (.inl hmem)
  · intro constraint hmem hdone child hsuperclass
    rw [hnextPending, mem_append, not_or] at hdone
    obtain hmem | hmem := (hnextSeen constraint).mp hmem
    · exact absurd hmem hdone.2
    · by_cases hsame : constraint = parent
      · exact hchildren child (hsame ▸ hsuperclass)
      · refine hkept child (hclosed.closed constraint hmem ?_ child hsuperclass)
        rw [hpending, mem_cons, not_or]
        exact ⟨hsame, hdone.1⟩

/-- **The search sees all superclasses**, so there are finitely many if it ends. -/
theorem finite_of_elaborates (hstored : Stored context classes steps given state)
    (hclean : Clean context classes steps items given)
    (helaborates : Elaborates context classes state given) :
    {constraint | ReflTransGen
      (IsSuperclass (unfoldedTable context steps classes)) given constraint}.Finite := by
  obtain ⟨enough, hruns⟩ := helaborates
  obtain ⟨cost, haffordable⟩ := exists_affordable_all context classes steps
  obtain ⟨_, _, hrun⟩ := hruns (max enough cost) (le_max_left _ _)
  obtain ⟨_, _, hrun, _⟩ := of_run_bind hrun
  refine of_run_loop (fun search s => s = state ∧
      search.Closed (unfoldedTable context steps classes) given)
    (fun _ _ => {constraint | ReflTransGen
      (IsSuperclass (unfoldedTable context steps classes)) given constraint}.Finite) ?_ ?_ hrun
  · rintro search s turn t ⟨hstate, hclosed⟩ hran
    subst s
    cases hpending : search.pending with
    | nil =>
      simp only [hpending] at hran
      cases hran
      refine (finite_toSet search.seen).subset fun constraint hreached => ?_
      induction hreached with
      | refl => exact hclosed.start
      | tail _ hstep ih => exact hclosed.closed _ ih (by simp [hpending]) _ hstep
    | cons parent rest =>
      simp only [hpending] at hran
      have hreached := hclosed.reached parent (hclosed.pending parent (by simp [hpending]))
      obtain ⟨next, middle, hvisit, hran⟩ := of_run_bind hran
      obtain ⟨hstate, hextended, hchildren, honly⟩ := visitConstraint_run hstored hclean
        (haffordable _ (le_max_right enough cost)) hreached hvisit
      cases hran
      exact ⟨hstate, hclosed.visit hpending hextended hchildren honly⟩
  · refine ⟨rfl, ⟨fun constraint hmem => ?_, fun _ => id⟩, .head _,
      fun constraint hmem hnew => absurd hmem hnew⟩
    rw [mem_singleton.mp hmem]

/-- A program with the synonym `type Equal = Eq`. -/
def equalContext : CheckContext :=
  { CheckContext.bare with
    synonyms := fun item =>
      if item = ⟨1, 9⟩ then some ⟨.Constructor ⟨0, 0⟩, [], .Constructor ⟨1, 0⟩⟩ else none }

/-- The classes `Eq a`, `Equal a <= Ord a` and `f a <= Apply f a`. -/
def ordClasses : ClassTable :=
  [(⟨1, 1⟩, ⟨[], [⟨1, 1, true⟩], [⟨0, 0, .Application (.Synonym ⟨1, 9⟩)
      (.Rigid ⟨1, 1, true⟩ 0 (.Constructor ⟨0, 0⟩))⟩]⟩),
    (⟨1, 0⟩, ⟨[], [⟨1, 0, true⟩], []⟩),
    (⟨1, 2⟩, ⟨[], [⟨1, 2, true⟩, ⟨1, 3, true⟩], [⟨0, 0, .Application
      (.Rigid ⟨1, 2, true⟩ 0 (.Constructor ⟨0, 0⟩))
      (.Rigid ⟨1, 3, true⟩ 0 (.Constructor ⟨0, 0⟩))⟩]⟩)]

/-- `Ord Int` -/
def ordInt : CanonicalConstraint := ⟨⟨1, 1⟩, [.Type (.Constructor ⟨0, 3⟩)]⟩

/-- The superclass of `Ord` is `Eq`. -/
lemma ord_superclass {checkedClass : CheckedClass} {superclass : CheckedSuperclass}
    (hfound : (unfoldedTable equalContext 2 ordClasses).lookup ⟨1, 1⟩ = some checkedClass)
    (hmem : superclass ∈ checkedClass.superclasses) :
    spine superclass.constraint = some ⟨⟨1, 0⟩,
      [.Type (.Rigid ⟨1, 1, true⟩ 0 (.Constructor ⟨0, 0⟩))]⟩ := by
  cases hfound
  obtain rfl := List.mem_singleton.mp hmem
  rfl

/-- `Apply` is not reached from `Ord Int`. -/
lemma reaches_ordInt {item : TypeItem}
    (h : Reaches (unfoldedTable equalContext 2 ordClasses) ordInt item) :
    item = ⟨1, 1⟩ ∨ item = ⟨1, 0⟩ := by
  induction h with
  | given => exact .inl rfl
  | superclass _ hfound hmem heq _ _ ih =>
    obtain rfl | rfl := ih
    · cases (ord_superclass hfound hmem).symm.trans heq
      exact .inr rfl
    · cases hfound
      cases hmem

lemma stored_ord : Stored equalContext ordClasses 2 ordInt ⟨[], 1, 0, 0⟩ where
  unfolds hreaches hfound superclass hmem := by
    obtain rfl | rfl := reaches_ordInt hreaches
    · cases hfound
      obtain rfl := List.mem_singleton.mp hmem
      rfl
    · cases hfound
      cases hmem
  fixed hreaches hfound superclass hmem := by
    obtain rfl | rfl := reaches_ordInt hreaches
    · cases hfound
      obtain rfl := List.mem_singleton.mp hmem
      rfl
    · cases hfound
      cases hmem
  apart _ _ other synonym hsome := by
    simp only [equalContext] at hsome
    split_ifs at hsome
    cases hsome
    rfl
  synonyms := by
    refine ⟨[⟨1, 9⟩], fun item synonym hsome => ?_⟩
    simp only [equalContext] at hsome
    split_ifs at hsome with hitem
    cases hsome
    exact ⟨by simp [hitem], rfl, rfl⟩

/-- The class `C (Array a) <= C a`. -/
def growingClass : ClassTable :=
  [(⟨1, 0⟩, ⟨[], [⟨1, 0, true⟩], [⟨0, 0, .Application (.Constructor ⟨1, 0⟩)
    (.Application (.Constructor ⟨1, 1⟩) (.Rigid ⟨1, 0, true⟩ 0 (.Constructor ⟨0, 0⟩)))⟩]⟩)]

lemma mem_growingClass {item : TypeItem} {checkedClass : CheckedClass}
    {superclass : CheckedSuperclass} (hfound : growingClass.lookup item = some checkedClass)
    (hmem : superclass ∈ checkedClass.superclasses) : superclass.constraint =
      .Application (.Constructor ⟨1, 0⟩)
        (.Application (.Constructor ⟨1, 1⟩) (.Rigid ⟨1, 0, true⟩ 0 (.Constructor ⟨0, 0⟩))) := by
  have hentry := mem_of_lookup hfound
  simp only [growingClass, List.mem_singleton] at hentry
  obtain ⟨_, rfl⟩ := hentry
  rw [List.mem_singleton.mp hmem]

lemma stored_growing (given : CanonicalConstraint) :
    Stored .bare growingClass 1 given ⟨[], 1, 0, 0⟩ where
  unfolds _ hfound _ hmem := by
    rw [mem_growingClass hfound hmem]
    rfl
  fixed _ hfound _ hmem := by
    rw [mem_growingClass hfound hmem]
    rfl
  apart _ _ _ _ hsome := by cases hsome
  synonyms := ⟨[], nofun⟩

lemma clean_growing {given : CanonicalConstraint}
    (hgiven : ∀ argument ∈ given.arguments, Known [] argument.type) :
    Clean .bare growingClass 1 [] given where
  classes _ hfound _ hmem := by
    rw [mem_growingClass hfound hmem]
    rfl
  given := hgiven
  synonyms := nofun

end Complete

end Iris.Checking
