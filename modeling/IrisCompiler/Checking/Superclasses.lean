import IrisCompiler.Checking.Substitution
import IrisCompiler.Library.ValueFlow
import Mathlib.Data.Set.Finite.Lemmas

/-!
# Superclasses

`elaborate_superclasses` adds to the given constraints their superclasses, the superclasses of these
and so on (`core/constraint/elaborate.rs`).  A constraint is visited once, but two constraints are
the same only if their arguments are the same types, and nothing stops a class from being its own
superclass at a larger type.

The arguments of a superclass are types in the parameters of the class.  A parameter is passed on to
a parameter of the superclass as it is, or inside of a larger type.  `elaborates_iff` says when the
search ends: no parameter is passed around a cycle on which it is put inside of a larger type.  The
head of a superclass may be a synonym, which is unfolded before the class is looked up.
-/

namespace Iris.Checking

open TotalRun Relation ApplicationArgument

/-! ## The source's functions -/

/-- A superclass, with the place where it is declared. -/
structure CheckedSuperclass where
  sourceId : ℕ
  member : ℕ
  constraint : Ty

structure CheckedClass where
  kindBinders : List Name
  typeParameters : List Name
  superclasses : List CheckedSuperclass

/-- The classes that `lookup_file_class` finds. -/
abbrev ClassTable := List (TypeItem × CheckedClass)

structure SuperclassEdge where
  parent : CanonicalConstraint
  child : CanonicalConstraint
  superclassId : TypeItem × ℕ × ℕ

/-- The constraints to look at, those that were met, and the edges between them. -/
structure Search where
  pending : List CanonicalConstraint
  seen : List CanonicalConstraint
  edges : List SuperclassEdge

def ApplicationArgument.kind? : ApplicationArgument → Option Ty
  | .Kind argument => some argument
  | .Type _ => none

def ApplicationArgument.type? : ApplicationArgument → Option Ty
  | .Type argument => some argument
  | .Kind _ => none

/-- The names with the arguments in their order, and the arguments after them. -/
def bindArguments (select : ApplicationArgument → Option Ty) :
    List Name → List ApplicationArgument → NameToType →
      Option (NameToType × List ApplicationArgument)
  | [], arguments, bindings => some (bindings, arguments)
  | _ :: _, [], _ => none
  | name :: names, argument :: arguments, bindings =>
    match select argument with
    | some type => bindArguments select names arguments ((name, type) :: bindings)
    | none => none

/-- The parameters of a class with the arguments of a constraint; nothing if they do not match. -/
def superclassSubstitutions (checkedClass : CheckedClass) (arguments : List ApplicationArgument) :
    Option NameToType :=
  match bindArguments ApplicationArgument.kind? checkedClass.kindBinders arguments [] with
  | none => none
  | some (bindings, arguments) =>
    match bindArguments ApplicationArgument.type? checkedClass.typeParameters
      arguments bindings with
    | some (bindings, []) => some bindings
    | _ => none

section Source

variable (context : CheckContext) (classes : ClassTable)

/-- A superclass of a constraint: it is looked at later, unless it was met before. -/
def visitSuperclass (fuel : ℕ) (parent : CanonicalConstraint) (substitutions : NameToType)
    (search : Search) (superclass : CheckedSuperclass) : CheckM Search := do
  let child ← substituteMany fuel substitutions superclass.constraint
  if ← containsUnknown context fuel child then return search
  match ← canonicalise context fuel child with
  | none => return search
  | some child =>
    if child ∈ search.seen then return search
    return {
      pending := search.pending ++ [child]
      seen := child :: search.seen
      edges := search.edges ++
        [⟨parent, child, parent.item, superclass.sourceId, superclass.member⟩] }

/-- The superclasses of a constraint. -/
def visitConstraint (fuel : ℕ) (parent : CanonicalConstraint) (search : Search) : CheckM Search :=
  match classes.lookup parent.item with
  | none => return search
  | some checkedClass =>
    match superclassSubstitutions checkedClass parent.arguments with
    | none => return search
    | some substitutions =>
      checkedClass.superclasses.foldlM (visitSuperclass context fuel parent substitutions) search

/-- Each of the constraints once. -/
def distinct (constraints : List CanonicalConstraint) : List CanonicalConstraint :=
  constraints.foldl (fun seen constraint =>
    if constraint ∈ seen then seen else seen ++ [constraint]) []

def superclassEdges (fuel : ℕ) (roots : List CanonicalConstraint) : CheckM (List SuperclassEdge) :=
  loop .fuel (fun (search : Search) => do
    match search.pending with
    | [] => return .leave search.edges
    | parent :: pending =>
      return .again (← visitConstraint context classes fuel parent { search with pending })) fuel
    ⟨distinct roots, distinct roots, []⟩

/-- The given constraints and all their superclasses. -/
def elaborateSuperclasses (fuel : ℕ) (given : List CanonicalConstraint) :
    CheckM (List CanonicalConstraint) := do
  let edges ← superclassEdges context classes fuel (distinct given)
  return distinct given ++ edges.map SuperclassEdge.child

end Source

/-! ## Arguments and parameters -/

def ApplicationArgument.map (f : Ty → Ty) : ApplicationArgument → ApplicationArgument
  | .Kind argument => .Kind (f argument)
  | .Type argument => .Type (f argument)

def ApplicationArgument.type : ApplicationArgument → Ty
  | .Kind argument => argument
  | .Type argument => argument

def CheckedClass.parameters (checkedClass : CheckedClass) : List Name :=
  checkedClass.kindBinders ++ checkedClass.typeParameters

/-- The bindings with a function applied to the types. -/
def mapBindings (f : Ty → Ty) (bindings : NameToType) : NameToType :=
  bindings.map fun binding => (binding.1, f binding.2)

section Bindings

variable {select : ApplicationArgument → Option Ty} {checkedClass : CheckedClass}
  {names : List Name} {arguments rest : List ApplicationArgument} {bindings result : NameToType}

lemma lookup_mapBindings (f : Ty → Ty) (bindings : NameToType) (name : Name) :
    (mapBindings f bindings).lookup name = (bindings.lookup name).map f := by
  induction bindings with
  | nil => rfl
  | cons binding bindings ih =>
    obtain ⟨other, type⟩ := binding
    simp only [mapBindings, List.map_cons, List.lookup_cons]
    cases name == other with
    | true => rfl
    | false => exact ih

lemma lookup_ne_none (bindings : NameToType) (name : Name) :
    bindings.lookup name ≠ none ↔ name ∈ bindings.map Prod.fst := by
  induction bindings with
  | nil => simp
  | cons binding bindings ih =>
    obtain ⟨other, type⟩ := binding
    by_cases hsame : name = other
    · simp [hsame]
    · simp [hsame]

lemma bindArguments_names
    (h : bindArguments select names arguments bindings = some (result, rest)) :
    result.map Prod.fst = names.reverse ++ bindings.map Prod.fst := by
  induction names generalizing arguments bindings with
  | nil =>
    cases h
    rfl
  | cons name names ih =>
    cases arguments with
    | nil => cases h
    | cons argument arguments =>
      rw [bindArguments] at h
      cases hselected : select argument with
      | none => simp [hselected] at h
      | some type =>
        rw [hselected] at h
        simpa using ih h

/-- The parameters are bound. -/
lemma lookup_substitutions (h : superclassSubstitutions checkedClass arguments = some result)
    (name : Name) : result.lookup name ≠ none ↔ name ∈ checkedClass.parameters := by
  unfold superclassSubstitutions at h
  split at h
  · cases h
  · rename_i kinds rest hfirst
    split at h
    · rename_i types hsecond
      cases h
      rw [lookup_ne_none, bindArguments_names hsecond, bindArguments_names hfirst]
      simp [CheckedClass.parameters, or_comm]
    · cases h

lemma bindArguments_map (f : Ty → Ty)
    (hnatural : ∀ argument, select (argument.map f) = (select argument).map f) :
    bindArguments select names (arguments.map (.map f)) (mapBindings f bindings) =
      (bindArguments select names arguments bindings).map fun (bindings, rest) =>
        (mapBindings f bindings, rest.map (.map f)) := by
  induction names generalizing arguments bindings with
  | nil => rfl
  | cons name names ih =>
    cases arguments with
    | nil => rfl
    | cons argument arguments =>
      simp only [List.map_cons, bindArguments, hnatural]
      cases select argument with
      | none => rfl
      | some type => exact @ih arguments ((name, type) :: bindings)

/-- The bindings of changed arguments. -/
lemma substitutions_map (f : Ty → Ty) :
    superclassSubstitutions checkedClass (arguments.map (.map f)) =
      (superclassSubstitutions checkedClass arguments).map (mapBindings f) := by
  have hkinds : bindArguments kind? checkedClass.kindBinders
      (arguments.map (.map f)) [] = _ :=
    @bindArguments_map kind? checkedClass.kindBinders arguments [] f
      (by rintro (_ | _) <;> rfl)
  have htypes (rest : List ApplicationArgument) (bindings : NameToType) :=
    @bindArguments_map type? checkedClass.typeParameters rest bindings f
      (by rintro (_ | _) <;> rfl)
  unfold superclassSubstitutions
  rw [hkinds]
  cases bindArguments kind? checkedClass.kindBinders arguments [] with
  | none => rfl
  | some result =>
    obtain ⟨bindings, rest⟩ := result
    simp only [Option.map_some, htypes]
    cases bindArguments type? checkedClass.typeParameters rest bindings with
    | none => rfl
    | some result =>
      obtain ⟨bindings, rest⟩ := result
      cases rest <;> rfl

end Bindings

end Iris.Checking
