import IrisCompiler.Checking.SuperclassHeads

/-!
# The closure under superclasses

The nodes of a graph are the parameters of the classes.  A parameter is passed to a parameter of a
superclass if it is used in the argument there.  If no parameter is put inside of a larger type on a
cycle, every parameter takes finitely many values (`Flow.finite_values`), so a given constraint has
finitely many superclasses and the search for them ends.  Otherwise the values grow around the cycle
and the search goes on forever.
-/

namespace Iris.Checking

open TotalRun Relation ValueFlow List Option

variable (classes : ClassTable) (given : CanonicalConstraint)

/-- One constraint has the other as a superclass. -/
def IsSuperclass (parent child : CanonicalConstraint) : Prop :=
  ∃ checkedClass substitutions superclass constraint,
    classes.lookup parent.item = some checkedClass ∧
    superclassSubstitutions checkedClass parent.arguments = some substitutions ∧
    superclass ∈ checkedClass.superclasses ∧ spine superclass.constraint = some constraint ∧
    child = constraint.substitute substitutions

/-- A class of which there are constraints among the superclasses of the given one. -/
inductive Reaches : TypeItem → Prop
  | given {checkedClass : CheckedClass} (hfound : classes.lookup given.item = some checkedClass)
      (hfits : superclassSubstitutions checkedClass given.arguments ≠ none) : Reaches given.item
  | superclass {item : TypeItem} {checkedClass target : CheckedClass}
      {superclass : CheckedSuperclass} {constraint : CanonicalConstraint} (hsource : Reaches item)
      (hfound : classes.lookup item = some checkedClass)
      (hmem : superclass ∈ checkedClass.superclasses)
      (heq : spine superclass.constraint = some constraint)
      (hfound' : classes.lookup constraint.item = some target)
      (hfits : superclassSubstitutions target constraint.arguments ≠ none) :
      Reaches constraint.item

/-- A class has a superclass whose parameter gets the type. -/
def Sends (item : TypeItem) (node : TypeItem × Name) (checkedClass : CheckedClass) (t : Ty) :
    Prop :=
  classes.lookup item = some checkedClass ∧
  ∃ superclass ∈ checkedClass.superclasses, ∃ constraint target templates,
    spine superclass.constraint = some constraint ∧ constraint.item = node.1 ∧
    classes.lookup node.1 = some target ∧
    superclassSubstitutions target constraint.arguments = some templates ∧
    templates.lookup node.2 = some t

/-- The parameter is used in what a superclass gets for its parameter. -/
def Passes (source node : TypeItem × Name) : Prop :=
  Reaches classes given source.1 ∧ ∃ checkedClass t, Sends classes source.1 node checkedClass t ∧
    Uses checkedClass.parameters source.2 t

/-- The parameter is used there inside of a larger type. -/
def Enlarges (source node : TypeItem × Name) : Prop :=
  Reaches classes given source.1 ∧ ∃ checkedClass t, Sends classes source.1 node checkedClass t ∧
    Uses checkedClass.parameters source.2 t ∧ ∀ depth kind, t ≠ .Rigid source.2 depth kind

/-- No parameter is put inside of a larger type on a cycle. -/
def Bounded : Prop :=
  ∀ source node, Enlarges classes given source node →
    ¬ ReflTransGen (Passes classes given) node source

/-- The value of a parameter in a constraint. -/
def valueAt (constraint : CanonicalConstraint) (node : TypeItem × Name) : Option Ty :=
  if constraint.item = node.1 then
    (classes.lookup node.1).bind fun checkedClass =>
      (superclassSubstitutions checkedClass constraint.arguments).bind (·.lookup node.2)
  else none

section Values

variable {classes : ClassTable} {given parent child : CanonicalConstraint}

variable {node : TypeItem × Name} {checkedClass : CheckedClass} {substitutions : NameToType}

lemma Enlarges.passes {source : TypeItem × Name} (h : Enlarges classes given source node) :
    Passes classes given source node := by
  obtain ⟨hreaches, checkedClass, t, hsends, huses, _⟩ := h
  exact ⟨hreaches, checkedClass, t, hsends, huses⟩

lemma valueAt_eq {value : Ty} (h : valueAt classes parent node = some value) :
    parent.item = node.1 ∧ ∃ checkedClass substitutions,
      classes.lookup parent.item = some checkedClass ∧
      superclassSubstitutions checkedClass parent.arguments = some substitutions ∧
      substitutions.lookup node.2 = some value := by
  unfold valueAt at h
  split_ifs at h with hsame
  obtain ⟨checkedClass, hfound, h⟩ := bind_eq_some_iff.mp h
  obtain ⟨substitutions, hfits, h⟩ := bind_eq_some_iff.mp h
  exact ⟨hsame, checkedClass, substitutions, hsame ▸ hfound, hfits, h⟩

lemma valueAt_of (hfound : classes.lookup parent.item = some checkedClass)
    (hfits : superclassSubstitutions checkedClass parent.arguments = some substitutions)
    (name : Name) : valueAt classes parent (parent.item, name) = substitutions.lookup name := by
  simp [valueAt, hfound, hfits]

/-- **The values of a superclass** are those of its arguments under the parent's values. -/
lemma valueAt_child {superclass : CheckedSuperclass} {constraint : CanonicalConstraint}
    (hfound : classes.lookup parent.item = some checkedClass)
    (hmem : superclass ∈ checkedClass.superclasses)
    (heq : spine superclass.constraint = some constraint) {value : Ty}
    (h : valueAt classes (constraint.substitute substitutions) node = some value) :
    ∃ t, Sends classes parent.item node checkedClass t ∧ value = t.substitute substitutions := by
  obtain ⟨hsame, target, bindings, hfound', hfits, hbound⟩ := valueAt_eq h
  have hfits : superclassSubstitutions target
      (constraint.arguments.map (.map (Ty.substitute substitutions))) = some bindings := hfits
  rw [substitutions_map] at hfits
  obtain ⟨templates, hfitsTemplates, rfl⟩ := map_eq_some_iff.mp hfits
  rw [lookup_mapBindings] at hbound
  obtain ⟨t, hboundTemplate, rfl⟩ := map_eq_some_iff.mp hbound
  exact ⟨t, ⟨hfound, superclass, hmem, constraint, target, templates, heq, hsame, hsame ▸ hfound',
    hfitsTemplates, hboundTemplate⟩, rfl⟩

/-- The classes of the superclasses of the given constraint are reached. -/
lemma reaches_of_superclass (hreached : ReflTransGen (IsSuperclass classes) given parent)
    (hfound : classes.lookup parent.item = some checkedClass)
    (hfits : superclassSubstitutions checkedClass parent.arguments ≠ none) :
    Reaches classes given parent.item := by
  induction hreached generalizing checkedClass with
  | refl => exact .given hfound hfits
  | tail _ hstep ih =>
    obtain ⟨source, substitutions, superclass, constraint, hfound', hfits', hmem, heq, rfl⟩ := hstep
    have hreaches := ih hfound' (by rw [hfits']; nofun)
    have hfits : superclassSubstitutions checkedClass
        (constraint.arguments.map (.map (Ty.substitute substitutions))) ≠ none := hfits
    show Reaches classes given constraint.item
    refine .superclass hreaches hfound' hmem heq hfound fun hunfit => hfits ?_
    rw [substitutions_map, hunfit]
    rfl

end Values

/-! ## Finitely many superclasses -/

/-- The parameters of the classes. -/
def parameterNodes : List (TypeItem × Name) :=
  classes.flatMap fun entry => entry.2.parameters.map (entry.1, ·)

section Finite

variable {classes : ClassTable} {given : CanonicalConstraint}

variable {item : TypeItem} {checkedClass : CheckedClass}

lemma mem_of_lookup (hfound : classes.lookup item = some checkedClass) :
    (item, checkedClass) ∈ classes := by
  obtain ⟨before, after, rfl, _⟩ := lookup_eq_some_iff.mp hfound
  simp

lemma mem_parameterNodes {name : Name} (hfound : classes.lookup item = some checkedClass)
    (hmem : name ∈ checkedClass.parameters) : (item, name) ∈ parameterNodes classes :=
  mem_flatMap.mpr ⟨_, mem_of_lookup hfound, mem_map_of_mem hmem⟩

/-- A type is a copy of a parameter. -/
def IsCopy (checkedClass : CheckedClass) (t : Ty) : Prop :=
  ∃ name ∈ checkedClass.parameters, ∃ depth kind, t = .Rigid name depth kind

/-- A superclass's parameter gets a type that is no copy. -/
def Computes (classes : ClassTable) (given parent : CanonicalConstraint) (node : TypeItem × Name)
    (value : Ty) : Prop :=
  Reaches classes given parent.item ∧ ∃ checkedClass substitutions t,
    superclassSubstitutions checkedClass parent.arguments = some substitutions ∧
    Sends classes parent.item node checkedClass t ∧ ¬ IsCopy checkedClass t ∧
    value = t.substitute substitutions

/-- There are finitely many types that a superclass's parameter gets. -/
lemma finite_sends (node : TypeItem × Name) :
    {x : (TypeItem × CheckedClass) × Ty | Sends classes x.1.1 node x.1.2 x.2}.Finite := by
  let one (entry : TypeItem × CheckedClass) (superclass : CheckedSuperclass) :
      Set ((TypeItem × CheckedClass) × Ty) :=
    {x | x.1 = entry ∧ ∃ constraint target templates,
      spine superclass.constraint = some constraint ∧ classes.lookup node.1 = some target ∧
      superclassSubstitutions target constraint.arguments = some templates ∧
      templates.lookup node.2 = some x.2}
  have hsingle (entry : TypeItem × CheckedClass) (superclass : CheckedSuperclass) :
      (one entry superclass).Finite := by
    refine Set.Subsingleton.finite ?_
    rintro ⟨_, t⟩ ⟨rfl, _, _, _, heq, hfound, hfits, hbound⟩ ⟨_, u⟩
      ⟨rfl, _, _, _, heq', hfound', hfits', hbound'⟩
    cases heq.symm.trans heq'
    cases hfound.symm.trans hfound'
    cases hfits.symm.trans hfits'
    exact Prod.ext rfl (some_injective _ (hbound.symm.trans hbound'))
  refine (Set.Finite.biUnion (finite_toSet classes) fun entry _ =>
    Set.Finite.biUnion (finite_toSet entry.2.superclasses) fun superclass _ =>
      hsingle entry superclass).subset ?_
  rintro ⟨entry, t⟩
    ⟨hfound, superclass, hmem, constraint, target, templates, heq, _, hfound', hfits, hbound⟩
  exact Set.mem_biUnion (mem_of_lookup hfound) (Set.mem_biUnion hmem
    ⟨rfl, constraint, target, templates, heq, hfound', hfits, hbound⟩)

/-- Finitely many values are computed from finitely many. -/
lemma finite_computes (node : TypeItem × Name) (A : TypeItem × Name → Set Ty)
    (hfinite : ∀ source, Enlarges classes given source node → (A source).Finite) :
    {value | ∃ parent, (∀ source u, Enlarges classes given source node →
        valueAt classes parent source = some u → u ∈ A source) ∧
      Computes classes given parent node value}.Finite := by
  have htemplates : {x : (TypeItem × CheckedClass) × Ty | Reaches classes given x.1.1 ∧
      Sends classes x.1.1 node x.1.2 x.2 ∧ ¬ IsCopy x.1.2 x.2}.Finite :=
    (finite_sends node).subset fun x h => h.2.1
  refine (Set.Finite.biUnion htemplates fun x hx => @finite_results _ x.1.2.parameters
    (fun name => Uses x.1.2.parameters name x.2) (fun bindings => x.2.substitute bindings)
    (fun name => A (x.1.1, name)) ?_ ?_).subset ?_
  · obtain ⟨hreaches, hsends, hnoCopy⟩ := hx
    intro name hmem huses
    refine hfinite (x.1.1, name) ⟨hreaches, x.1.2, x.2, hsends, huses, ?_⟩
    exact fun depth kind hcopy => hnoCopy ⟨name, hmem, depth, kind, hcopy⟩
  · intro bindings other hbinds hbinds' hsame
    exact substitute_congr hbinds hbinds' fun name huses => hsame name huses.mem huses
  · rintro value
      ⟨parent, hinside, hreaches, checkedClass, substitutions, t, hfits, hsends, hnoCopy, rfl⟩
    refine Set.mem_biUnion (x := ((parent.item, checkedClass), t)) ⟨hreaches, hsends, hnoCopy⟩ ?_
    refine ⟨substitutions, lookup_substitutions hfits, fun name hmem huses u heq => ?_, rfl⟩
    refine hinside (parent.item, name) u ⟨hreaches, checkedClass, t, hsends, huses, ?_⟩ ?_
    · exact fun depth kind hcopy => hnoCopy ⟨name, hmem, depth, kind, hcopy⟩
    · rw [valueAt_of hsends.1 hfits, heq]

/-- Where the values of parameters come from. -/
def parameterFlow (classes : ClassTable) (given : CanonicalConstraint) :
    Flow CanonicalConstraint {node // node ∈ parameterNodes classes} Ty where
  step parent child := IsSuperclass classes parent child ∧ Reaches classes given parent.item
  value constraint node := valueAt classes constraint node.1
  copies source node := Passes classes given source.1 node.1
  grows source node := Enlarges classes given source.1 node.1
  computes constraint node := Computes classes given constraint node.1
  flow := by
    rintro parent _ node value
      ⟨⟨checkedClass, substitutions, superclass, constraint, hfound, hfits, hmem, heq, rfl⟩,
        hreaches⟩ h
    obtain ⟨t, hsends, rfl⟩ := valueAt_child hfound hmem heq h
    by_cases hcopy : IsCopy checkedClass t
    · obtain ⟨name, hinParameters, depth, kind, rfl⟩ := hcopy
      refine .inl ⟨⟨(parent.item, name), mem_parameterNodes hfound hinParameters⟩,
        ⟨hreaches, checkedClass, _, hsends, .here hinParameters⟩, ?_⟩
      obtain ⟨value, hbound⟩ :=
        Option.ne_none_iff_exists'.mp ((lookup_substitutions hfits name).mpr hinParameters)
      rw [valueAt_of hfound hfits, Ty.substitute, hbound]
      rfl
    · exact .inr ⟨hreaches, checkedClass, substitutions, t, hfits, hsends, hcopy, rfl⟩
  finite node A hsmall := by
    refine (@finite_computes classes given node.1
      (fun source => {u | ∃ hmem, u ∈ A ⟨source, hmem⟩}) ?_).subset ?_
    · intro source henlarges
      by_cases hmem : source ∈ parameterNodes classes
      · exact (hsmall ⟨source, hmem⟩ henlarges).subset fun u ⟨_, h⟩ => h
      · exact Set.finite_empty.subset fun u ⟨h, _⟩ => hmem h
    · rintro value ⟨parent, hinside, hcomputes⟩
      refine ⟨parent, fun source u henlarges h => ?_, hcomputes⟩
      obtain ⟨hsame, checkedClass, substitutions, hfound, hfits, hbound⟩ := valueAt_eq h
      have hmem : source ∈ parameterNodes classes := by
        have := mem_parameterNodes hfound
          ((lookup_substitutions hfits source.2).mp (by rw [hbound]; nofun))
        rwa [hsame] at this
      exact ⟨hmem, hinside ⟨source, hmem⟩ u henlarges h⟩

/-- Every parameter takes finitely many values. -/
lemma finite_parameter (hbounded : Bounded classes given)
    (node : {node // node ∈ parameterNodes classes}) :
    ((parameterFlow classes given).values given node).Finite := by
  refine Flow.finite_values (fun source node hgrows hback => ?_) node
  refine hbounded source.1 node.1 hgrows (hback.lift Subtype.val fun a b hedge => ?_)
  exact hedge.elim id Enlarges.passes

lemma flow_of_superclass {constraint : CanonicalConstraint}
    (hreached : ReflTransGen (IsSuperclass classes) given constraint) :
    ReflTransGen (parameterFlow classes given).step given constraint := by
  induction hreached with
  | refl => exact .refl
  | tail hbefore hstep ih =>
    obtain ⟨checkedClass, substitutions, superclass, _, hfound, hfits, _⟩ := id hstep
    exact ih.tail ⟨hstep, reaches_of_superclass hbefore hfound (by rw [hfits]; nofun)⟩

/-- The constraint is known by the values of the variables. -/
lemma constraint_congr {names : List Name} {bindings other : NameToType}
    (hbinds : Binds names bindings) (hbinds' : Binds names other)
    (hsame : ∀ name ∈ names, bindings.lookup name = other.lookup name)
    (constraint : CanonicalConstraint) :
    constraint.substitute bindings = constraint.substitute other := by
  unfold CanonicalConstraint.substitute
  congr 1
  refine map_congr_left fun argument _ => ?_
  have hequal (t : Ty) : t.substitute bindings = t.substitute other :=
    substitute_congr hbinds hbinds' fun name huses => hsame name huses.mem
  cases argument <;> simp [ApplicationArgument.map, hequal]

/-- **A given constraint has finitely many superclasses** if its parameters are bounded. -/
theorem finite_superclasses (hbounded : Bounded classes given) :
    {constraint | ReflTransGen (IsSuperclass classes) given constraint}.Finite := by
  let values (entry : TypeItem × CheckedClass) (name : Name) : Set Ty :=
    {u | ∃ hmem, u ∈ (parameterFlow classes given).values given ⟨(entry.1, name), hmem⟩}
  have hfew (entry : TypeItem × CheckedClass) (superclass : CheckedSuperclass) :=
    @finite_results CanonicalConstraint entry.2.parameters (fun _ => True)
      (fun bindings => ((spine superclass.constraint).getD given).substitute bindings)
      (values entry)
      (fun name hmem _ => by
        by_cases hmem : (entry.1, name) ∈ parameterNodes classes
        · exact (finite_parameter hbounded ⟨_, hmem⟩).subset fun u ⟨_, h⟩ => h
        · exact Set.finite_empty.subset fun u ⟨h, _⟩ => hmem h)
      (fun bindings other hbinds hbinds' hsame =>
        constraint_congr hbinds hbinds' (fun name hmem => hsame name hmem trivial) _)
  refine ((Set.finite_singleton given).union (Set.Finite.biUnion (finite_toSet classes)
    fun entry _ => Set.Finite.biUnion (finite_toSet entry.2.superclasses)
      fun superclass _ => hfew entry superclass)).subset ?_
  intro constraint hreached
  cases hreached with
  | refl => exact .inl rfl
  | tail hbefore hstep =>
    rename_i parent
    obtain ⟨checkedClass, substitutions, superclass, constraint, hfound, hfits, hmem, heq, rfl⟩ :=
      hstep
    refine .inr (Set.mem_biUnion (mem_of_lookup hfound) (Set.mem_biUnion hmem
      ⟨substitutions, lookup_substitutions hfits,
        fun name hmem _ value hbound => ?_, by rw [heq]; rfl⟩))
    refine ⟨mem_parameterNodes hfound hmem, parent, flow_of_superclass hbefore, ?_⟩
    exact (valueAt_of hfound hfits name).trans hbound

end Finite

/-! ## Values that grow -/

section Growth

variable {classes : ClassTable} {given parent : CanonicalConstraint}

/-- There is a constraint of every class that is reached. -/
lemma exists_of_reaches {item : TypeItem} (hreaches : Reaches classes given item) :
    ∃ parent checkedClass substitutions,
      ReflTransGen (IsSuperclass classes) given parent ∧ parent.item = item ∧
      classes.lookup parent.item = some checkedClass ∧
      superclassSubstitutions checkedClass parent.arguments = some substitutions := by
  induction hreaches with
  | @given checkedClass hfound hfits =>
    obtain ⟨substitutions, hfits⟩ := ne_none_iff_exists'.mp hfits
    exact ⟨given, checkedClass, substitutions, .refl, rfl, hfound, hfits⟩
  | @superclass item checkedClass target superclass constraint _ hfound hmem heq hfound' hfits ih =>
    obtain ⟨parent, checkedClass', substitutions, hreached, rfl, hfound'', hfits''⟩ := ih
    cases hfound.symm.trans hfound''
    obtain ⟨templates, hfits⟩ := ne_none_iff_exists'.mp hfits
    refine ⟨constraint.substitute substitutions, target, mapBindings (Ty.substitute substitutions)
      templates,
        hreached.tail ⟨checkedClass, substitutions, superclass, constraint, hfound, hfits'', hmem,
        heq, rfl⟩, rfl, hfound', ?_⟩
    show superclassSubstitutions target
      (constraint.arguments.map (.map (Ty.substitute substitutions))) = _
    rw [substitutions_map, hfits]
    rfl

variable {source node : TypeItem × Name} {value : Ty}

/-- A value is passed on to a superclass. -/
lemma exists_sent {checkedClass : CheckedClass} {t : Ty}
    (hreached : ReflTransGen (IsSuperclass classes) given parent)
    (h : valueAt classes parent source = some value)
    (hsends : Sends classes source.1 node checkedClass t) :
    ∃ child substitutions, ReflTransGen (IsSuperclass classes) given child ∧
      superclassSubstitutions checkedClass parent.arguments = some substitutions ∧
      substitutions.lookup source.2 = some value ∧
      valueAt classes child node = some (t.substitute substitutions) := by
  obtain ⟨hsame, checkedClass', substitutions, hfound, hfits, hbound⟩ := valueAt_eq h
  obtain ⟨hfound', superclass, hmem, constraint, target, templates, heq, hitem, hlookup,
      hfits', hbound'⟩ :=
    hsends
  obtain rfl := some_injective _ (hfound.symm.trans (hsame ▸ hfound'))
  refine ⟨constraint.substitute substitutions, substitutions,
    hreached.tail
      ⟨checkedClass', substitutions, superclass, constraint, hfound, hfits, hmem, heq, rfl⟩,
    hfits, hbound, ?_⟩
  have hitem : (constraint.substitute substitutions).item = node.1 := hitem
  have hfits' : superclassSubstitutions target (constraint.substitute substitutions).arguments =
      some (mapBindings (Ty.substitute substitutions) templates) := by
    show superclassSubstitutions target
      (constraint.arguments.map (.map (Ty.substitute substitutions))) = _
    rw [substitutions_map, hfits']
    rfl
  rw [valueAt, if_pos hitem, hlookup, bind_some, hfits', bind_some, lookup_mapBindings,
    hbound']
  rfl

lemma exists_along (hreached : ReflTransGen (IsSuperclass classes) given parent)
    (h : valueAt classes parent source = some value)
    (hpath : ReflTransGen (Passes classes given) source node) :
    ∃ child larger, ReflTransGen (IsSuperclass classes) given child ∧
      valueAt classes child node = some larger ∧ value.size ≤ larger.size := by
  induction hpath with
  | refl => exact ⟨parent, value, hreached, h, le_rfl⟩
  | tail _ hpasses ih =>
    obtain ⟨child, larger, hreached, h, hle⟩ := ih
    obtain ⟨_, checkedClass, t, hsends, huses⟩ := hpasses
    obtain ⟨next, substitutions, hreached, hfits, hbound, h⟩ := exists_sent hreached h hsends
    have hle' := huses.size_le (fun name => (lookup_substitutions hfits name).mp) hbound
    exact ⟨next, _, hreached, h, hle.trans hle'⟩

/-- **The values on a cycle that enlarges them are not bounded.** -/
lemma exists_larger (henlarges : Enlarges classes given source node)
    (hback : ReflTransGen (Passes classes given) node source) (least : ℕ) :
    ∃ constraint value, ReflTransGen (IsSuperclass classes) given constraint ∧
      valueAt classes constraint source = some value ∧ least ≤ value.size := by
  obtain ⟨hreaches, checkedClass, t, hsends, huses, hproper⟩ := henlarges
  induction least with
  | zero =>
    obtain ⟨parent, checkedClass', substitutions, hreached, hsame, hfound, hfits⟩ :=
      exists_of_reaches hreaches
    cases hfound.symm.trans (hsame ▸ hsends.1)
    obtain ⟨value, hbound⟩ :=
      ne_none_iff_exists'.mp ((lookup_substitutions hfits source.2).mpr huses.mem)
    refine ⟨parent, value, hreached, ?_, Nat.zero_le _⟩
    have := valueAt_of hfound hfits source.2
    rwa [hsame, hbound] at this
  | succ least ih =>
    obtain ⟨parent, value, hreached, h, hle⟩ := ih
    obtain ⟨child, substitutions, hreached, hfits, hbound, h⟩ := exists_sent hreached h hsends
    have hlt := Uses.size_lt (fun name => (lookup_substitutions hfits name).mp) huses hbound hproper
    obtain ⟨last, largest, hreached, h, hle'⟩ := exists_along hreached h hback
    exact ⟨last, largest, hreached, h, by omega⟩

/-- **If there are finitely many superclasses, the parameters are bounded.** -/
theorem bounded_of_finite
    (hfinite : {constraint | ReflTransGen (IsSuperclass classes) given constraint}.Finite) :
    Bounded classes given := by
  intro source node henlarges hback
  obtain ⟨most, hbound⟩ :=
    (hfinite.image fun constraint => ((valueAt classes constraint source).elim 0 Ty.size)).bddAbove
  obtain ⟨constraint, value, hreached, h, hle⟩ := exists_larger henlarges hback (most + 1)
  have := hbound ⟨constraint, hreached, rfl⟩
  simp only [h, elim_some] at this
  omega

end Growth

end Iris.Checking
