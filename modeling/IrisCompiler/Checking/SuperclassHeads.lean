import IrisCompiler.Checking.Superclasses

/-!
# The heads of superclasses

A superclass is stored as it is written: its head may be a class, a synonym for one, or the mark of
a bundle that the constraint comes from.  `canonicalise` expands it after the parameters were
replaced.  `unfold` expands the head before that, and the two agree (`canonicalise_unfold`): a
synonym does not mention the parameters of the class, so it does not matter which is done first.
-/

namespace Iris.Checking

open TotalRun List ApplicationArgument

/-! ## Heads and arguments -/

/-- The head of an application and its arguments. -/
def headOf : Ty → Ty × List ApplicationArgument
  | .Application function argument => ((headOf function).1, (headOf function).2 ++ [.Type argument])
  | .KindApplication function argument =>
    ((headOf function).1, (headOf function).2 ++ [.Kind argument])
  | t => (t, [])

/-- A class applied to arguments. -/
def spine (t : Ty) : Option CanonicalConstraint :=
  match headOf t with
  | (.Constructor item, arguments) => some ⟨item, arguments⟩
  | _ => none

/-- The constraint as a type. -/
def CanonicalConstraint.toTy (self : CanonicalConstraint) : Ty :=
  applyArguments (.Constructor self.item) self.arguments

/-- The constraint with the variables of its arguments replaced. -/
def CanonicalConstraint.substitute (bindings : NameToType) (self : CanonicalConstraint) :
    CanonicalConstraint := ⟨self.item, self.arguments.map (.map (Ty.substitute bindings))⟩

section Heads

variable {context : CheckContext} {head t : Ty} {arguments : List ApplicationArgument}
  {bindings : NameToType} {fuel : ℕ}

@[simp]
lemma applyArguments_type (head : Ty) (arguments : List ApplicationArgument) (argument : Ty) :
    applyArguments head (arguments ++ [.Type argument]) =
      .Application (applyArguments head arguments) argument := by
  rw [applyArguments, foldl_append]
  rfl

@[simp]
lemma applyArguments_kind (head : Ty) (arguments : List ApplicationArgument) (argument : Ty) :
    applyArguments head (arguments ++ [.Kind argument]) =
      .KindApplication (applyArguments head arguments) argument := by
  rw [applyArguments, foldl_append]
  rfl

/-- The type is its head applied to its arguments. -/
lemma applyArguments_headOf (t : Ty) : applyArguments (headOf t).1 (headOf t).2 = t := by
  induction t using Ty.childInduction with
  | step t ih =>
    cases t with
    | Application function argument => rw [headOf, applyArguments_type, ih function (.head _)]
    | KindApplication function argument => rw [headOf, applyArguments_kind, ih function (.head _)]
    | _ => rfl

lemma headOf_applyArguments (hhead : headOf head = (head, []))
    (arguments : List ApplicationArgument) :
    headOf (applyArguments head arguments) = (head, arguments) := by
  induction arguments using reverseRecOn with
  | nil => exact hhead
  | append_singleton arguments argument ih =>
    cases argument <;> simp [headOf, ih]

lemma toTy_of_spine {constraint : CanonicalConstraint} (h : spine t = some constraint) :
    constraint.toTy = t := by
  have hwhole := applyArguments_headOf t
  unfold spine at h
  split at h
  · next item arguments hhead =>
    cases h
    rwa [hhead] at hwhole
  · cases h

lemma spine_toTy (constraint : CanonicalConstraint) : spine constraint.toTy = some constraint := by
  rw [spine, CanonicalConstraint.toTy, headOf_applyArguments rfl]

lemma mayExpand_applyArguments (head : Ty) (arguments : List ApplicationArgument) :
    (applyArguments head arguments).mayExpand = head.mayExpand := by
  induction arguments using reverseRecOn with
  | nil => rfl
  | append_singleton arguments argument ih =>
    cases argument <;> simpa [Ty.mayExpand] using ih

lemma substitute_applyArguments (bindings : NameToType) (head : Ty)
    (arguments : List ApplicationArgument) :
    (applyArguments head arguments).substitute bindings =
      applyArguments (head.substitute bindings)
        (arguments.map (.map (Ty.substitute bindings))) := by
  induction arguments using reverseRecOn with
  | nil => rfl
  | append_singleton arguments argument ih =>
    cases argument <;> simp [Ty.substitute, ih, ApplicationArgument.map]

/-- A kind of nodes that are no applications. -/
lemma any_applyArguments {p : Ty → Bool} (hleaf : ∀ t, p t = true → t.children = [])
    (head : Ty) (arguments : List ApplicationArgument) :
    (applyArguments head arguments).any p = false ↔
      head.any p = false ∧ ∀ argument ∈ arguments, argument.type.any p = false := by
  induction arguments using reverseRecOn with
  | nil => simp [applyArguments]
  | append_singleton arguments argument ih =>
    have hnode (t : Ty) (hchildren : t.children ≠ []) : p t = false :=
      Bool.eq_false_iff.mpr fun h => hchildren (hleaf t h)
    rw [forall_mem_append, ← and_assoc, ← ih]
    cases argument
    all_goals
      simp only [applyArguments_type, applyArguments_kind]
      rw [Ty.any_eq, hnode _ (by simp [Ty.children])]
      simp [Ty.children, ApplicationArgument.type]

/-- The arguments of a class are taken off one by one. -/
lemma loop_class (item : TypeItem) (arguments after : List ApplicationArgument) {count : ℕ}
    (hlarge : arguments.length < count) :
    loop .fuel (fun x => extractApplication context fuel x.1 x.2) count
        (applyArguments (.Constructor item) arguments, after) =
      pure (.Constructor item, after ++ arguments.reverse) := by
  have hstays (arguments : List ApplicationArgument) :
      expand context fuel (applyArguments (.Constructor item) arguments) =
        pure (applyArguments (.Constructor item) arguments) := by
    rw [expand, mayExpand_applyArguments]
    rfl
  induction arguments using reverseRecOn generalizing after count with
  | nil =>
    obtain ⟨count, rfl⟩ : ∃ less, count = less + 1 := ⟨count - 1, by omega⟩
    rw [loop, extractApplication, hstays]
    simp [applyArguments]
  | append_singleton arguments argument ih =>
    obtain ⟨count, rfl⟩ : ∃ less, count = less + 1 := ⟨count - 1, by omega⟩
    have hless : arguments.length < count := by
      rw [length_append, length_singleton] at hlarge
      omega
    rw [loop, extractApplication, hstays]
    cases argument <;> simp [ih _ hless]

end Heads

/-! ## Substitutions one after the other -/

/-- The fields of every row are sorted by label, as `intern_row` leaves them. -/
def Ty.Interned (t : Ty) : Prop :=
  t.any (fun
    | .Row row => !decide (SortedFields row.fields)
    | _ => false) = false

section Composition

variable {bindings inner outer : NameToType} {t : Ty}

/-- A sorted row stays in its order. -/
lemma substitute_sorted {row : RowType} (hsorted : SortedFields row.fields) :
    ∃ replaced : RowType, (Ty.Row row).substitute bindings = .Row replaced ∧
      replaced.fields = row.fields.map (RowField.substitute bindings) ∧
      replaced.tail = row.tail.map (Ty.substitute bindings) := by
  rw [Ty.substitute, RowType.substitute_eq]
  split_ifs with hsame
  · obtain ⟨hfields, htail⟩ := Prod.mk.injEq _ _ _ _ ▸ hsame
    exact ⟨row, rfl, hfields.symm, htail.symm⟩
  · obtain ⟨replaced, heq, hfields, htail⟩ := @internRow_eq_row
      (row.fields.map (RowField.substitute bindings)) (row.tail.map (Ty.substitute bindings))
      fun hempty => by rw [RowType.tail_of_fields_nil (map_eq_nil_iff.mp hempty)]; rfl
    have hsorted' : SortedFields (row.fields.map (RowField.substitute bindings)) :=
      pairwise_map.mpr hsorted
    exact ⟨replaced, heq, hfields.trans (sortFields_of_sorted hsorted'), htail⟩

/-- **Substitution into the values.**  A substitution for variables that the type does not mention
changes what the first one has put there, and nothing else. -/
lemma substitute_substitute (hapart : t.any (bindsRigid outer) = false) (hinterned : t.Interned) :
    (t.substitute inner).substitute outer =
      t.substitute (mapBindings (Ty.substitute outer) inner) := by
  induction t using Ty.childInduction with
  | step t ih =>
    unfold Ty.Interned at hinterned
    rw [Ty.any_eq, Bool.or_eq_false_iff, any_eq_false] at hapart hinterned
    have hchildren (c : Ty) (hmem : c ∈ t.children) :=
      ih c hmem (Bool.eq_false_iff.mpr (hapart.2 c hmem))
        (Bool.eq_false_iff.mpr (hinterned.2 c hmem))
    cases t with
    | Row row =>
      have hsorted : SortedFields row.fields := by simpa using hinterned.1
      obtain ⟨middle, hmiddle, hfields, htail⟩ := @substitute_sorted inner row hsorted
      have hsorted' : SortedFields middle.fields := hfields ▸ pairwise_map.mpr hsorted
      obtain ⟨last, hlast, hfields', htail'⟩ := @substitute_sorted outer middle hsorted'
      obtain ⟨whole, hwhole, hfields'', htail''⟩ :=
        @substitute_sorted (mapBindings (Ty.substitute outer) inner) row hsorted
      rw [hmiddle, hlast, hwhole, Ty.Row.injEq]
      refine RowType.ext ?_ ?_
      · rw [hfields', hfields, hfields'', map_map]
        refine map_congr_left fun field hmem => ?_
        simp only [Function.comp_apply, RowField.substitute, RowField.mk.injEq, true_and]
        exact hchildren field.type (field_mem_row hmem)
      · rw [htail', htail, htail'']
        cases heq : row.tail with
        | none => rfl
        | some tail => exact congrArg some (hchildren tail (tail_mem_row heq))
    | Rigid name depth kind =>
      have hfree : outer.lookup name = none := by simpa [bindsRigid] using hapart.1
      rw [Ty.substitute, Ty.substitute, lookup_mapBindings]
      cases hvalue : inner.lookup name with
      | none => simp [Ty.substitute, hfree, hchildren kind (.head _)]
      | some value => rfl
    | _ => simp_all [Ty.substitute, Ty.children]

end Composition

/-! ## Unfolding -/

/-- The kind arguments for the quantifiers of a kind, and the arguments after them. -/
def kindBindings : Ty → List ApplicationArgument → Option (NameToType × List ApplicationArgument)
  | .Forall _ name _ inner, .Kind argument :: arguments =>
    (kindBindings inner arguments).map fun (bindings, arguments) =>
      ((name, argument) :: bindings, arguments)
  | .Forall _ _ _ _, _ => none
  | _, arguments => some ([], arguments)

/-- The arguments of a synonym for its variables, and the arguments after them. -/
def CheckedSynonym.bindings (synonym : CheckedSynonym) (arguments : List ApplicationArgument) :
    Option (NameToType × List ApplicationArgument) := do
  let (kinds, arguments) ← kindBindings synonym.kind arguments
  let (types, arguments) ← bindParameters synonym.parameters arguments
  return (kinds ++ types, arguments)

/-- A synonym that is stored without unification variables and with its rows merged. -/
def CheckedSynonym.fixed (synonym : CheckedSynonym) : Bool :=
  !synonym.kind.mayZonk && !synonym.expansion.mayZonk

/-- The constraint with the mark of a bundle taken off, or with the synonym at its head replaced. -/
def unfoldOnce (context : CheckContext) (t : Ty) : Option Ty :=
  match headOf t with
  | (.ConstraintOrigin constraint _, []) => some constraint
  | (.Synonym item, arguments) =>
    match context.synonyms item with
    | none => none
    | some synonym =>
      if synonym.fixed then
        (synonym.bindings arguments).map fun (bindings, arguments) =>
          applyArguments (synonym.expansion.substitute bindings) arguments
      else none
  | _ => none

/-- The class and the arguments of a constraint, found in less than so many steps. -/
def unfold (context : CheckContext) : ℕ → Ty → Option CanonicalConstraint
  | 0, _ => none
  | steps + 1, t =>
    match spine t with
    | some constraint => some constraint
    | none => (unfoldOnce context t).bind (unfold context steps)

section Unfold

variable {context : CheckContext} {t next : Ty} {constraint : CanonicalConstraint} {steps : ℕ}
  {synonym : CheckedSynonym} {arguments rest : List ApplicationArgument}
  {bindings outer : NameToType}

/-- What a step does. -/
lemma unfoldOnce_cases (h : unfoldOnce context t = some next) :
    (∃ origin, t = .ConstraintOrigin next origin) ∨
      ∃ item synonym arguments bindings rest, t = applyArguments (.Synonym item) arguments ∧
        context.synonyms item = some synonym ∧ synonym.fixed = true ∧
        synonym.bindings arguments = some (bindings, rest) ∧
        next = applyArguments (synonym.expansion.substitute bindings) rest := by
  have hwhole := applyArguments_headOf t
  unfold unfoldOnce at h
  split at h
  · next constraint origin hhead =>
    cases h
    rw [hhead] at hwhole
    exact .inl ⟨origin, hwhole.symm⟩
  · next item arguments hhead =>
    rw [hhead] at hwhole
    cases hfound : context.synonyms item with
    | none => simp [hfound] at h
    | some synonym =>
      simp only [hfound] at h
      split_ifs at h with hfixed
      obtain ⟨⟨bindings, rest⟩, hbinds, rfl⟩ := Option.map_eq_some_iff.mp h
      exact .inr
        ⟨item, synonym, arguments, bindings, rest, hwhole.symm, hfound, hfixed, hbinds, rfl⟩
  · cases h

lemma unfoldOnce_synonym {item : TypeItem} (hfound : context.synonyms item = some synonym)
    (hfixed : synonym.fixed = true) (hbinds : synonym.bindings arguments = some (bindings, rest)) :
    unfoldOnce context (applyArguments (.Synonym item) arguments) =
      some (applyArguments (synonym.expansion.substitute bindings) rest) := by
  simp [unfoldOnce, @headOf_applyArguments (.Synonym item) rfl, hfound, hfixed, hbinds]

/-- Where a step is made there is no class yet. -/
lemma spine_of_unfoldOnce (h : unfoldOnce context t = some next) : spine t = none := by
  obtain ⟨origin, rfl⟩ | ⟨item, _, arguments, _, _, rfl, _⟩ := unfoldOnce_cases h
  · rfl
  · rw [spine, headOf_applyArguments rfl]

/-- A synonym for itself is no class. -/
lemma unfold_self (h : unfoldOnce context t = some t) : unfold context steps t = none := by
  induction steps with
  | zero => rfl
  | succ steps ih => rw [unfold, spine_of_unfoldOnce h, h, Option.bind_some, ih]

lemma mayNormalise_of_unfold (h : unfold context steps t = some constraint) :
    t.mayNormalise = false := by
  cases steps with
  | zero => cases h
  | succ steps =>
    cases t with
    | Row | Unification => simp [unfold, spine, unfoldOnce, headOf] at h
    | _ => rfl

/-! ### Unfolding and substitution -/

lemma kindBindings_map (f : Ty → Ty) (kind : Ty) (arguments : List ApplicationArgument) :
    kindBindings kind (arguments.map (.map f)) =
      (kindBindings kind arguments).map fun (bindings, rest) =>
        (mapBindings f bindings, rest.map (.map f)) := by
  induction kind using Ty.childInduction generalizing arguments with
  | step kind ih =>
    cases kind with
    | Forall visible name binderKind inner =>
      rcases arguments with _ | ⟨_ | _, arguments⟩
      · rfl
      · simp only [map_cons, ApplicationArgument.map, kindBindings, ih inner (.tail _ (.head _)),
          Option.map_map]
        rfl
      · rfl
    | _ => rfl

lemma bindParameters_map (f : Ty → Ty) (parameters : List Name)
    (arguments : List ApplicationArgument) :
    bindParameters parameters (arguments.map (.map f)) =
      (bindParameters parameters arguments).map fun (bindings, rest) =>
        (mapBindings f bindings, rest.map (.map f)) := by
  induction parameters generalizing arguments with
  | nil => rfl
  | cons name parameters ih =>
    rcases arguments with _ | ⟨_ | _, arguments⟩
    · rfl
    · rfl
    · simp only [map_cons, ApplicationArgument.map, bindParameters, ih, Option.map_map]
      rfl

/-- The bindings of changed arguments of a synonym. -/
lemma CheckedSynonym.bindings_map (f : Ty → Ty)
    (h : synonym.bindings arguments = some (bindings, rest)) :
    synonym.bindings (arguments.map (.map f)) =
      some (mapBindings f bindings, rest.map (.map f)) := by
  unfold CheckedSynonym.bindings at h ⊢
  obtain ⟨⟨kinds, after⟩, hkinds, h⟩ := Option.bind_eq_some_iff.mp h
  obtain ⟨⟨types, last⟩, htypes, h⟩ := Option.bind_eq_some_iff.mp h
  cases h
  simp [kindBindings_map, hkinds, bindParameters_map, htypes, mapBindings]

/-- One of these variables. -/
def namesRigid (names : List Name) : Ty → Bool
  | .Rigid name _ _ => name ∈ names
  | _ => false

/-- The synonyms are interned and do not mention the variables of the substitution. -/
structure Apart (context : CheckContext) (outer : NameToType) : Prop where
  apart : ∀ item synonym, context.synonyms item = some synonym →
    synonym.expansion.any (bindsRigid outer) = false
  interned : ∀ item synonym, context.synonyms item = some synonym → synonym.expansion.Interned

/-- A substitution for variables that the synonyms do not mention. -/
lemma Apart.of_names {names : List Name}
    (hbound : ∀ name, outer.lookup name ≠ none → name ∈ names)
    (hapart : ∀ item synonym, context.synonyms item = some synonym →
      synonym.expansion.any (namesRigid names) = false ∧ synonym.expansion.Interned) :
    Apart context outer := by
  refine ⟨fun item synonym hfound => any_mono (fun t ht => ?_) (hapart item synonym hfound).1,
    fun item synonym hfound => (hapart item synonym hfound).2⟩
  cases t with
  | Rigid name depth kind =>
    refine decide_eq_true (hbound name fun hnone => ?_)
    simp [bindsRigid, hnone] at ht
  | _ => cases ht

lemma spine_substitute (outer : NameToType) (h : spine t = some constraint) :
    spine (t.substitute outer) = some (constraint.substitute outer) := by
  rw [← toTy_of_spine h, CanonicalConstraint.toTy, substitute_applyArguments]
  exact spine_toTy (constraint.substitute outer)

/-- **A step commutes with a substitution** for variables that the synonyms do not mention. -/
lemma unfoldOnce_substitute (hapart : Apart context outer)
    (h : unfoldOnce context t = some next) :
    unfoldOnce context (t.substitute outer) = some (next.substitute outer) := by
  obtain ⟨origin, rfl⟩ | ⟨item, synonym, arguments, bindings, rest, rfl, hfound, hfixed, hbinds,
    rfl⟩ := unfoldOnce_cases h
  · rfl
  · rw [substitute_applyArguments, substitute_applyArguments,
      substitute_substitute (hapart.apart item synonym hfound)
        (hapart.interned item synonym hfound)]
    exact unfoldOnce_synonym hfound hfixed (CheckedSynonym.bindings_map _ hbinds)

lemma unfold_substitute (hapart : Apart context outer)
    (h : unfold context steps t = some constraint) :
    unfold context steps (t.substitute outer) = some (constraint.substitute outer) := by
  induction steps generalizing t with
  | zero => cases h
  | succ steps ih =>
    rw [unfold] at h ⊢
    cases hspine : spine t with
    | some found =>
      rw [hspine] at h
      cases h
      rw [spine_substitute outer hspine]
    | none =>
      rw [hspine] at h
      obtain ⟨next, honce, h⟩ := Option.bind_eq_some_iff.mp h
      have honce' := unfoldOnce_substitute hapart honce
      rw [spine_of_unfoldOnce honce', honce']
      exact ih h

lemma kindBindings_all {P : Ty → Prop} {kind : Ty}
    (h : kindBindings kind arguments = some (bindings, rest))
    (hall : ∀ argument ∈ arguments, P argument.type) :
    (∀ binding ∈ bindings, P binding.2) ∧ ∀ argument ∈ rest, P argument.type := by
  induction kind using Ty.childInduction generalizing arguments bindings with
  | step kind ih =>
    cases kind with
    | Forall visible name binderKind inner =>
      rcases arguments with _ | ⟨argument | _, arguments⟩
      · cases h
      · obtain ⟨⟨values, after⟩, hinner, heq⟩ := Option.map_eq_some_iff.mp h
        cases heq
        obtain ⟨hvalues, hafter⟩ :=
          ih inner (.tail _ (.head _)) hinner fun other hmem => hall other (.tail _ hmem)
        exact ⟨forall_mem_cons.mpr ⟨hall _ (.head _), hvalues⟩, hafter⟩
      · cases h
    | _ =>
      cases h
      exact ⟨nofun, hall⟩

lemma bindParameters_all {P : Ty → Prop} {parameters : List Name}
    (h : bindParameters parameters arguments = some (bindings, rest))
    (hall : ∀ argument ∈ arguments, P argument.type) :
    (∀ binding ∈ bindings, P binding.2) ∧ ∀ argument ∈ rest, P argument.type := by
  induction parameters generalizing arguments bindings with
  | nil =>
    cases h
    exact ⟨nofun, hall⟩
  | cons name parameters ih =>
    rcases arguments with _ | ⟨_ | argument, arguments⟩
    · cases h
    · cases h
    · obtain ⟨⟨values, after⟩, hinner, heq⟩ := Option.map_eq_some_iff.mp h
      cases heq
      obtain ⟨hvalues, hafter⟩ := ih hinner fun other hmem => hall other (.tail _ hmem)
      exact ⟨forall_mem_cons.mpr ⟨hall _ (.head _), hvalues⟩, hafter⟩

/-- What holds of the arguments of a synonym holds of the values of its variables. -/
lemma CheckedSynonym.bindings_all {P : Ty → Prop}
    (h : synonym.bindings arguments = some (bindings, rest))
    (hall : ∀ argument ∈ arguments, P argument.type) :
    (∀ binding ∈ bindings, P binding.2) ∧ ∀ argument ∈ rest, P argument.type := by
  unfold CheckedSynonym.bindings at h
  obtain ⟨⟨kinds, after⟩, hkinds, h⟩ := Option.bind_eq_some_iff.mp h
  obtain ⟨⟨types, last⟩, htypes, h⟩ := Option.bind_eq_some_iff.mp h
  cases h
  obtain ⟨hkindsAll, hafterAll⟩ := kindBindings_all hkinds hall
  obtain ⟨htypesAll, hlastAll⟩ := bindParameters_all htypes hafterAll
  exact ⟨forall_mem_append.mpr ⟨hkindsAll, htypesAll⟩, hlastAll⟩

/-- What appears neither in the constraint nor in its synonyms does not appear in the arguments. -/
lemma unfold_any {p : Ty → Bool} (hleaf : ∀ t, p t = true → t.children = [])
    (hsynonym : ∀ item synonym, p (.Synonym item) = false → context.synonyms item = some synonym →
      synonym.expansion.any p = false)
    (h : unfold context steps t = some constraint) (hclean : t.any p = false) :
    ∀ argument ∈ constraint.arguments, argument.type.any p = false := by
  induction steps generalizing t with
  | zero => cases h
  | succ steps ih =>
    rw [unfold] at h
    cases hspine : spine t with
    | some found =>
      rw [hspine] at h
      cases h
      rw [← toTy_of_spine hspine] at hclean
      exact ((any_applyArguments hleaf _ _).mp hclean).2
    | none =>
      rw [hspine] at h
      obtain ⟨next, honce, h⟩ := Option.bind_eq_some_iff.mp h
      refine ih h ?_
      obtain ⟨origin, rfl⟩ | ⟨item, synonym, arguments, bindings, rest, rfl, hfound, _, hbinds,
        rfl⟩ := unfoldOnce_cases honce
      · exact any_child hclean (.head _)
      · obtain ⟨hhead, harguments⟩ := (any_applyArguments hleaf _ _).mp hclean
        obtain ⟨hvalues, hrest⟩ :=
          CheckedSynonym.bindings_all (P := fun t => t.any p = false) hbinds harguments
        refine (any_applyArguments hleaf _ _).mpr ⟨any_substitute hleaf ?_ ?_, hrest⟩
        · exact hsynonym item synonym (by simpa [Ty.any_eq, Ty.children] using hhead) hfound
        · intro name value hbound
          obtain ⟨before, after, rfl, _⟩ := lookup_eq_some_iff.mp hbound
          exact hvalues (name, value) (by simp)

/-! ### The source's expansion -/

variable {fuel : ℕ}

lemma mayNormalise_applyArguments {head : Ty} (h : head.mayNormalise = false)
    (arguments : List ApplicationArgument) :
    (applyArguments head arguments).mayNormalise = false := by
  induction arguments using reverseRecOn with
  | nil => exact h
  | append_singleton arguments argument _ =>
    cases argument <;> simp [Ty.mayNormalise, Ty.isUnification, Ty.isNestedRow]

/-- A loop that takes the arguments of a synonym off. -/
lemma loop_arguments {item : TypeItem}
    {body : Ty × List ApplicationArgument →
      CheckM (Turn (Ty × List ApplicationArgument) (Ty × List ApplicationArgument))}
    (htype : ∀ function argument after, body (.Application function argument, after) =
      normalise fuel function >>= fun inner => pure (.again (inner, after ++ [.Type argument])))
    (hkind : ∀ function argument after, body (.KindApplication function argument, after) =
      normalise fuel function >>= fun inner => pure (.again (inner, after ++ [.Kind argument])))
    (hleaves : ∀ after, body (.Synonym item, after) = pure (.leave (.Synonym item, after)))
    (arguments after : List ApplicationArgument) {count : ℕ} (hlarge : arguments.length < count) :
    loop .fuel body count (applyArguments (.Synonym item) arguments, after) =
      pure (.Synonym item, after ++ arguments.reverse) := by
  induction arguments using reverseRecOn generalizing after count with
  | nil =>
    obtain ⟨count, rfl⟩ : ∃ less, count = less + 1 := ⟨count - 1, by omega⟩
    simp [loop, applyArguments, hleaves]
  | append_singleton arguments argument ih =>
    obtain ⟨count, rfl⟩ : ∃ less, count = less + 1 := ⟨count - 1, by omega⟩
    have hless : arguments.length < count := by
      rw [length_append, length_singleton] at hlarge
      omega
    have hstays := @mayNormalise_applyArguments (.Synonym item) rfl arguments
    rw [loop]
    cases argument <;> simp [htype, hkind, normalise_fixed hstays, ih _ hless]

/-- A loop that binds the quantifiers of a kind. -/
lemma loop_kinds
    {body : Ty × NameToType × List ApplicationArgument →
      CheckM (Turn (Ty × NameToType × List ApplicationArgument)
        (Option (NameToType × List ApplicationArgument)))}
    (hbinds : ∀ visible name kind inner bindings argument arguments,
      body (.Forall visible name kind inner, bindings, .Kind argument :: arguments) =
        pure (.again (inner, bindings ++ [(name, argument)], arguments)))
    (hfails : ∀ visible name kind inner bindings arguments,
      (∀ argument after, arguments ≠ .Kind argument :: after) →
      body (.Forall visible name kind inner, bindings, arguments) = pure (.leave none))
    (hleaves : ∀ kind bindings arguments, kind.mayZonk = false →
      (∀ visible name binderKind inner, kind ≠ .Forall visible name binderKind inner) →
      body (kind, bindings, arguments) = pure (.leave (some (bindings, arguments))))
    {kind : Ty} (hfixed : kind.mayZonk = false) (bindings : NameToType)
    (arguments : List ApplicationArgument) {count : ℕ} (hlarge : kind.size < count) :
    loop .fuel body count (kind, bindings, arguments) =
      pure ((kindBindings kind arguments).map fun (more, rest) => (bindings ++ more, rest)) := by
  induction kind using Ty.childInduction generalizing bindings arguments count with
  | step kind ih =>
    obtain ⟨count, rfl⟩ : ∃ less, count = less + 1 := ⟨count - 1, by omega⟩
    cases kind with
    | Forall visible name binderKind inner =>
      have hless : inner.size < count := by
        have := Ty.size_lt_of_mem (t := .Forall visible name binderKind inner) (c := inner)
          (.tail _ (.head _))
        omega
      rcases arguments with _ | ⟨argument | argument, arguments⟩
      · rw [loop, hfails _ _ _ _ _ _ (by simp)]
        rfl
      · rw [loop, hbinds, pure_bind]
        dsimp only
        rw [ih inner (.tail _ (.head _)) (mayZonk_child hfixed (.tail _ (.head _))) _ _ hless]
        simp [kindBindings, Function.comp_def]
      · rw [loop, hfails _ _ _ _ _ _ (by simp)]
        rfl
    | _ =>
      rw [loop, hleaves _ _ _ hfixed (by simp)]
      simp [kindBindings]

lemma bindKinds_fixed {kind : Ty} (hfixed : kind.mayZonk = false) (hlarge : kind.size < fuel) :
    bindKinds fuel kind arguments = pure (kindBindings kind arguments) := by
  refine (loop_kinds ?_ ?_ ?_ hfixed [] arguments hlarge).trans ?_
  · intros
    rfl
  · intro visible name kind inner bindings arguments hnone
    rcases arguments with _ | ⟨argument | argument, arguments⟩
    · rfl
    · exact absurd rfl (hnone argument arguments)
    · rfl
  · intro kind bindings arguments hfixed hnone
    simp only [normalise_fixed (mayNormalise_of_mayZonk hfixed), pure_bind]
  · cases kindBindings kind arguments <;> rfl

/-- The synonym at the head is replaced. -/
lemma expandSynonym_eq {item : TypeItem} (hfound : context.synonyms item = some synonym)
    (hfixed : synonym.fixed = true) (hbinds : synonym.bindings arguments = some (bindings, rest))
    (hlarge : arguments.length + synonym.kind.size + synonym.expansion.size < fuel) :
    expandSynonym context fuel (applyArguments (.Synonym item) arguments) =
      pure (applyArguments (synonym.expansion.substitute bindings) rest) := by
  simp only [CheckedSynonym.fixed, Bool.and_eq_true, Bool.not_eq_true'] at hfixed
  have hspine : applicationSpine fuel (applyArguments (.Synonym item) arguments) =
      pure (.Synonym item, arguments.reverse) :=
    loop_arguments (fun _ _ _ => rfl) (fun _ _ _ => rfl) (fun _ => rfl) arguments [] (by omega)
  unfold CheckedSynonym.bindings at hbinds
  obtain ⟨⟨kinds, after⟩, hkinds, hbinds⟩ := Option.bind_eq_some_iff.mp hbinds
  obtain ⟨⟨types, last⟩, htypes, hbinds⟩ := Option.bind_eq_some_iff.mp hbinds
  cases hbinds
  rw [expandSynonym, hspine]
  have hkind : synonym.kind.size < fuel := by omega
  simp only [pure_bind, hfound, reverse_reverse, bindKinds_fixed hfixed.1 hkind, hkinds, htypes]
  split_ifs with hempty
  · rw [isEmpty_iff.mp hempty, substitute_nil]
  · rw [substituteMany_fixed hfixed.2 (by omega)]
    rfl

/-- The turns of the loop of `expand` at a constraint. -/
structure ExpandTurns (context : CheckContext) (fuel : ℕ) (body : Ty → CheckM (Turn Ty Ty)) :
    Prop where
  origin : ∀ constraint origin, body (.ConstraintOrigin constraint origin) =
    normalise fuel constraint >>= fun inner => pure (.again inner)
  leaves : ∀ t, t.mayExpand = false → body t = pure (.leave t)
  synonym : ∀ item arguments next,
    expandSynonym context fuel (applyArguments (.Synonym item) arguments) = pure next →
    next ≠ applyArguments (.Synonym item) arguments →
    body (applyArguments (.Synonym item) arguments) =
      normalise fuel next >>= fun inner => pure (.again inner)

/-- A turn makes a step of unfolding, with enough fuel for every substitution. -/
lemma exists_turn (honce : unfoldOnce context t = some next)
    (h : unfold context steps next = some constraint) :
    ∃ enough, ∀ outer, Apart context outer → ∀ fuel ≥ enough, ∀ body,
      ExpandTurns context fuel body →
      body (t.substitute outer) = pure (.again (next.substitute outer)) := by
  have hstays (outer : NameToType) (hapart : Apart context outer) (fuel : ℕ) :
      normalise fuel (next.substitute outer) = pure (next.substitute outer) :=
    normalise_fixed (mayNormalise_of_unfold (unfold_substitute hapart h)) fuel
  obtain ⟨origin, rfl⟩ | ⟨item, synonym, arguments, bindings, rest, rfl, hfound, hfixed, hbinds,
    rfl⟩ := unfoldOnce_cases honce
  · refine ⟨0, fun outer hapart fuel _ body hbody => ?_⟩
    rw [Ty.substitute, hbody.origin, hstays outer hapart, pure_bind]
  · refine ⟨arguments.length + synonym.kind.size + synonym.expansion.size + 1,
      fun outer hapart fuel hlarge body hbody => ?_⟩
    have honce' := unfoldOnce_substitute hapart honce
    have hnext := unfold_substitute hapart h
    have hlength : (arguments.map (ApplicationArgument.map (Ty.substitute outer))).length +
        synonym.kind.size + synonym.expansion.size < fuel := by
      rw [length_map]
      omega
    have hexpanded := expandSynonym_eq hfound hfixed
      (CheckedSynonym.bindings_map (Ty.substitute outer) hbinds) hlength
    rw [← substitute_substitute (hapart.apart item synonym hfound)
      (hapart.interned item synonym hfound), ← substitute_applyArguments] at hexpanded
    rw [substitute_applyArguments] at honce' ⊢
    refine (hbody.synonym item _ _ hexpanded fun hsame => ?_).trans ?_
    · rw [Ty.substitute, ← hsame] at honce'
      rw [unfold_self honce'] at hnext
      cases hnext
    · rw [hstays outer hapart, pure_bind]

/-- **The loop of `expand` unfolds the head**, with enough fuel for every substitution. -/
lemma exists_turns (h : unfold context steps t = some constraint) :
    ∃ enough, ∀ outer, Apart context outer → ∀ fuel ≥ enough, ∀ body,
      ExpandTurns context fuel body → ∀ count ≥ enough,
      loop .fuel body count (t.substitute outer) = pure (constraint.substitute outer).toTy := by
  induction steps generalizing t with
  | zero => cases h
  | succ steps ih =>
    rw [unfold] at h
    cases hspine : spine t with
    | some found =>
      rw [hspine] at h
      cases h
      refine ⟨1, fun outer hapart fuel _ body hbody count hlarge => ?_⟩
      obtain ⟨count, rfl⟩ : ∃ less, count = less + 1 := ⟨count - 1, by omega⟩
      rw [← toTy_of_spine (spine_substitute outer hspine), loop, hbody.leaves, pure_bind]
      rw [CanonicalConstraint.toTy, mayExpand_applyArguments]
      rfl
    | none =>
      rw [hspine] at h
      obtain ⟨next, honce, h⟩ := Option.bind_eq_some_iff.mp h
      obtain ⟨first, hturn⟩ := exists_turn honce h
      obtain ⟨later, hturns⟩ := ih h
      refine ⟨max first later + 1, fun outer hapart fuel hlarge body hbody count hcount => ?_⟩
      obtain ⟨count, rfl⟩ : ∃ less, count = less + 1 := ⟨count - 1, by omega⟩
      rw [loop, hturn outer hapart fuel (by omega) body hbody, pure_bind]
      exact hturns outer hapart fuel (by omega) body hbody count (by omega)

/-- A constraint that `expand` leaves as it is has a class at its head. -/
lemma spine_of_mayExpand (h : unfold context steps t = some constraint)
    (hstays : t.mayExpand = false) : spine t = some constraint := by
  cases steps with
  | zero => cases h
  | succ steps =>
    rw [unfold] at h
    cases hspine : spine t with
    | some found => rwa [hspine] at h
    | none =>
      rw [hspine] at h
      obtain ⟨next, honce, _⟩ := Option.bind_eq_some_iff.mp h
      obtain ⟨origin, rfl⟩ | ⟨item, _, arguments, _, _, rfl, _⟩ := unfoldOnce_cases honce
      · cases hstays
      · rw [mayExpand_applyArguments] at hstays
        cases hstays

/-- **`expand` unfolds the head**, with enough fuel for every substitution. -/
lemma exists_expand (h : unfold context steps t = some constraint) :
    ∃ enough, ∀ outer, Apart context outer → ∀ fuel ≥ enough,
      expand context fuel (t.substitute outer) = pure (constraint.substitute outer).toTy := by
  obtain ⟨enough, hturns⟩ := exists_turns h
  refine ⟨enough + 1, fun outer hapart fuel hlarge => ?_⟩
  obtain ⟨fuel, rfl⟩ : ∃ less, fuel = less + 1 := ⟨fuel - 1, by omega⟩
  have hloop (body : Ty → CheckM (Turn Ty Ty)) (hbody : ExpandTurns context fuel body) :=
    hturns outer hapart fuel (by omega) body hbody fuel (by omega)
  have hfixed := mayNormalise_of_unfold (unfold_substitute hapart h)
  unfold expand
  split_ifs with hexpands
  · rw [expandCore, normalise_fixed hfixed]
    refine hloop _ ⟨fun _ _ => rfl, fun t hstays => ?_, fun item arguments next hnext hne => ?_⟩
    · cases t with
      | ConstraintOrigin => cases hstays
      | _ => simp [hstays]
    · have hexpands : (applyArguments (.Synonym item) arguments).mayExpand = true :=
        mayExpand_applyArguments _ _
      have hhead := @headOf_applyArguments (.Synonym item) rfl arguments
      generalize applyArguments (.Synonym item) arguments = t at hnext hne hexpands hhead
      cases t with
      | ConstraintOrigin => cases hhead
      | _ => simp [hexpands, hnext, hne]
  · rw [toTy_of_spine (spine_of_mayExpand (unfold_substitute hapart h) (by simpa using hexpands))]

/-- **The class and the arguments of a superclass** are those of the unfolded constraint, with
enough fuel for every substitution. -/
theorem canonicalise_unfold (h : unfold context steps t = some constraint) :
    ∃ enough, ∀ outer, Apart context outer → ∀ fuel ≥ enough,
      canonicalise context fuel (t.substitute outer) =
        pure (some (constraint.substitute outer)) := by
  obtain ⟨enough, hexpand⟩ := exists_expand h
  refine ⟨enough + constraint.arguments.length + 1, fun outer hapart fuel hlarge => ?_⟩
  have hexpanded := hexpand outer hapart fuel (by omega)
  have hstays : expand context fuel (constraint.substitute outer).toTy =
      pure (constraint.substitute outer).toTy := by
    rw [expand, CanonicalConstraint.toTy, mayExpand_applyArguments]
    rfl
  -- The first turn sees the unfolded constraint in either case.
  have hsame (arguments : List ApplicationArgument) :
      extractApplication context fuel (t.substitute outer) arguments =
        extractApplication context fuel (constraint.substitute outer).toTy arguments := by
    rw [extractApplication, extractApplication, hexpanded, hstays]
  have hextracted : extractAllApplications context fuel (t.substitute outer) =
      pure (.Constructor constraint.item, (constraint.substitute outer).arguments) := by
    have hturns := @loop_class context fuel constraint.item
      (constraint.substitute outer).arguments [] fuel (by
        simp only [CanonicalConstraint.substitute, length_map]
        omega)
    obtain ⟨fuel, rfl⟩ : ∃ less, fuel = less + 1 := ⟨fuel - 1, by omega⟩
    rw [loop] at hturns
    rw [extractAllApplications, loop, hsame]
    exact (congrArg (· >>= _) hturns).trans (by simp)
  rw [canonicalise, hextracted]
  rfl

end Unfold

/-! ## Tables -/

/-- The superclass with its head unfolded, if that ends in a class. -/
def CheckedSuperclass.unfolded (context : CheckContext) (steps : ℕ)
    (superclass : CheckedSuperclass) : CheckedSuperclass :=
  { superclass with
    constraint := ((unfold context steps superclass.constraint).map
      CanonicalConstraint.toTy).getD superclass.constraint }

def CheckedClass.unfolded (context : CheckContext) (steps : ℕ) (checkedClass : CheckedClass) :
    CheckedClass :=
  { checkedClass with superclasses := checkedClass.superclasses.map (·.unfolded context steps) }

/-- The table with the heads of the superclasses unfolded. -/
def unfoldedTable (context : CheckContext) (steps : ℕ) (classes : ClassTable) : ClassTable :=
  classes.map fun entry => (entry.1, entry.2.unfolded context steps)

section Tables

variable {context : CheckContext} {steps : ℕ} {classes : ClassTable}

lemma lookup_unfoldedTable (item : TypeItem) :
    (unfoldedTable context steps classes).lookup item =
      (classes.lookup item).map (·.unfolded context steps) := by
  induction classes with
  | nil => rfl
  | cons entry classes ih =>
    obtain ⟨other, checkedClass⟩ := entry
    simp only [unfoldedTable, map_cons, lookup_cons]
    cases item == other with
    | true => rfl
    | false => exact ih

lemma spine_unfolded {superclass : CheckedSuperclass} {constraint : CanonicalConstraint}
    (h : unfold context steps superclass.constraint = some constraint) :
    spine (superclass.unfolded context steps).constraint = some constraint := by
  rw [CheckedSuperclass.unfolded, h]
  exact spine_toTy constraint

end Tables

end Iris.Checking
