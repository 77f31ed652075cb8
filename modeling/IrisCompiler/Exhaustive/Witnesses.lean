import IrisCompiler.Exhaustive.Exactness

/-!
# The witnesses are genuine

`algorithm_m` answers with pattern vectors for values that no row matches.  It builds them from the
inside: a witness for the specialised columns has its first cells put together to one constructor,
and a witness for the default matrix gets the first missing constructor, or a wildcard, in front.

Putting a witness together is undone by specialising it (`specialiseVector_rebuildWitness`), so what
specialisation does to matching says what the rebuilt witness matches.
-/

namespace Iris.Exhaustive

open Descent List Option

variable {T : Type} {n : ℕ}

/-- A typing that also answers for the field types of a reported constructor: there are as many as
the constructor declares, at whatever type the pattern is labelled with. -/
structure FieldTyping (T : Type) extends Typing T where
  fieldTypes_length : ∀ {t fileId typeId constructors},
    shape t = .data fileId typeId constructors → ∀ {itemId types}, (itemId, types) ∈ constructors →
    ∀ scrutinee, (constructorFieldTypes fileId itemId scrutinee).length = types.length

/-- A witness is genuine: it is well typed, an instance of the query, and matches a value that no
row matches. -/
structure Genuine (Γ : Typing T) (types : List T) (matrix : PatternMatrix T n)
    (vector witness : PatternVector T n) : Prop where
  typed : RowHasType Γ types witness
  isInstance : ∀ values, List.Forall₂ (HasType Γ) values types →
    List.Forall₂ Matches witness.toList values → List.Forall₂ Matches vector.toList values
  useful : Useful Γ types matrix witness

/-! ## Putting a constructor together again -/

section Rebuild

variable {Γ : Typing T} {expected : PatternConstructor (Pattern T)} {fields : List (Pattern T)}
  {t : T} {componentTypes types : List T}

lemma reconstruct_fields (h : fields.length = expected.arity) :
    (expected.reconstruct fields).fields = fields := by
  cases expected <;> simp_all [PatternConstructor.reconstruct, PatternConstructor.arity,
    PatternConstructor.fields]

lemma specialiseFields_reconstruct (h : fields.length = expected.arity) (t : T) :
    specialiseFields expected (.constructor (expected.reconstruct fields) t) = some fields := by
  cases expected <;> simp_all [PatternConstructor.reconstruct, PatternConstructor.arity,
    PatternConstructor.fields, specialiseFields, PatternConstructor.matches, specialiseRecordFields]

lemma Components.reconstruct (hexpected : Components Γ expected t types)
    (h : fields.length = expected.arity) : Components Γ (expected.reconstruct fields) t types := by
  cases hexpected with
  | data hshape hmem hlen => exact .data hshape hmem (h.trans hlen)
  | record hshape hnodup hlen hlabels => exact .record hshape hnodup (hlen.trans h.symm) hlabels
  | @array _ _ fields' hshape =>
    have hlen : fields.length = fields'.length := h
    rw [← hlen]
    exact .array hshape
  | _ =>
    constructor
    assumption

lemma length_take_arity (witness : PatternVector T (expected.arity + n)) :
    (witness.toList.take expected.arity).length = expected.arity := by
  simp

/-- **A rebuilt witness specialises to the witness it was built from.** -/
lemma specialiseVector_rebuildWitness (t : T) (witness : PatternVector T (expected.arity + n)) :
    specialiseVector expected (rebuildWitness expected t witness) = some witness := by
  have hlen := length_take_arity witness
  have hhead : (rebuildWitness expected t witness).head =
      .constructor (expected.reconstruct (witness.toList.take expected.arity)) t := rfl
  rw [specialiseVector, hhead, specialiseFields_reconstruct hlen, map_some, some_inj]
  apply List.Vector.toList_injective
  rw [List.Vector.toList_append, normaliseSpecialisedFields_of_length hlen]
  exact take_append_drop _ _

lemma covers_rebuildWitness (t : T) (witness : PatternVector T (expected.arity + n)) :
    Covers expected (rebuildWitness expected t witness).head := by
  intro labels fields t' labels' fields' hhead heq
  subst heq
  cases hhead
  exact List.Subset.refl _

variable {witness : PatternVector T (expected.arity + n)}

lemma RowHasType.rebuildWitness (t' : T) (hexpected : Components Γ expected t componentTypes)
    (h : RowHasType Γ (componentTypes ++ types) witness) :
    RowHasType Γ (t :: types) (rebuildWitness expected t' witness) := by
  have hlen := length_take_arity witness
  have harity := hexpected.arity_eq
  have hargs : List.Forall₂ (PatternHasType Γ) (witness.toList.take expected.arity)
      componentTypes := by
    have := forall₂_take expected.arity h
    rwa [take_left' harity] at this
  have hrest : List.Forall₂ (PatternHasType Γ) (witness.toList.drop expected.arity) types := by
    have := forall₂_drop expected.arity h
    rwa [drop_left' harity] at this
  refine .cons (.constructor (hexpected.reconstruct hlen) ?_) hrest
  rwa [reconstruct_fields hlen]

/-- A genuine witness for the specialised columns gives one for the column it came from. -/
lemma Genuine.rebuildWitness (hhΓ : ∀ t, ∃ v, HasType Γ v t) (t' : T)
    {matrix : PatternMatrix T (n + 1)} {vector : PatternVector T (n + 1)}
    {specialised : PatternVector T (expected.arity + n)}
    (hexpected : Components Γ expected t componentTypes)
    (hmatrix : ∀ row ∈ matrix, RowHasType Γ (t :: types) row)
    (hrows : ∀ row ∈ matrix, Covers expected row.head) (hvector : RowHasType Γ (t :: types) vector)
    (hcovers : Covers expected vector.head)
    (hspecialised : specialiseVector expected vector = some specialised)
    (h : Genuine Γ (componentTypes ++ types) (specialiseMatrix expected matrix) specialised witness)
    :
    Genuine Γ (t :: types) matrix vector (Exhaustive.rebuildWitness expected t' witness) := by
  have htyped := h.typed.rebuildWitness t' hexpected
  have hcovers' := covers_rebuildWitness t' witness
  have hwitness := specialiseVector_rebuildWitness t' witness
  refine ⟨htyped, fun all hall hmatch => ?_, ?_⟩
  · cases hall with
    | @cons v _ values _ hv hvalues =>
    -- the value has the rebuilt constructor, so it opens along the expected one
    obtain ⟨components, hexplode⟩ : ∃ components, explode expected v = some components := by
      have hfirst := ((matches_row_iff _ _ _).mp hmatch).1
      cases hfirst with | constructor hexplode _
      have hkey := key_eq_of_specialiseFields
        (specialiseFields_reconstruct (length_take_arity witness) t')
      exact isSome_iff_exists.mp (explode_isSome_of_key v hkey (by simp [hexplode]))
    obtain ⟨witness', heq, hcells⟩ :=
      (matches_row_iff_specialised hexpected htyped hcovers' hv hexplode).mp hmatch
    cases hwitness.symm.trans heq
    refine (matches_row_iff_specialised hexpected hvector hcovers hv hexplode).mpr
      ⟨specialised, hspecialised, h.isInstance _ ?_ hcells⟩
    exact rel_append (hv.components hexpected hexplode) hvalues
  · have hboth := fun row hrow => And.intro (hmatrix row hrow) (hrows row hrow)
    exact ((useful_specialise_iff hhΓ hexpected hboth htyped hcovers' hwitness).mp h.useful).useful

end Rebuild

/-! ## The first missing constructor -/

section Missing

variable {Γ : FieldTyping T} {t : T}

/-- **The cell in front of a default witness matches a value that the sigma leaves out.** -/
lemma firstMissingConstructor_spec (hhΓ : ∀ t, ∃ v, HasType Γ.toTyping v t)
    {sigma : List (PatternConstructor (Pattern T))}
    (hsigma : ∀ constructor ∈ sigma, ∃ types, Components Γ.toTyping constructor t types)
    (hincomplete : sigmaIsComplete Γ.toQueries sigma = false) (t' : T) :
    let first := (firstMissingConstructor Γ.toQueries t' sigma).getD (.wildcard t')
    PatternHasType Γ.toTyping first t ∧
      ∃ v, HasType Γ.toTyping v t ∧ Matches first v ∧
        ∀ constructor ∈ sigma, explode constructor v = none := by
  intro first
  cases hmissing : firstMissingConstructor Γ.toQueries t' sigma with
  | none =>
    have hfirst : first = .wildcard t' := by simp [first, hmissing]
    obtain ⟨v, hv, hout⟩ := exists_not_explode_of_incomplete hhΓ hsigma hincomplete
    rw [hfirst]
    exact ⟨.wildcard, v, hv, .wildcard, hout⟩
  | some missing =>
    have hfirst : first = missing := by simp [first, hmissing]
    rw [hfirst]
    cases sigma with
    | nil => simp [firstMissingConstructor] at hmissing
    | cons head rest =>
      obtain ⟨types, hhead⟩ := hsigma head mem_cons_self
      cases hhead with
      | @data _ fileId typeId constructors itemId types fields hshape hmem _ =>
        have hknown := Γ.constructor_known hshape hmem
        simp only [firstMissingConstructor, hknown, bind_some, map_eq_some_iff]
          at hmissing
        obtain ⟨termId, hfind, rfl⟩ := hmissing
        have hterm := mem_of_find?_eq_some hfind
        have hlacks : ∀ constructor ∈ .dataConstructor fileId itemId fields :: rest,
            constructor.isItem termId = false := by
          simpa
            using find?_some hfind
        obtain ⟨⟨_, types'⟩, hmem', rfl⟩ :=
          mem_map.mp ((Γ.constructors_known hshape termId).mp hterm)
        have hlen := Γ.fieldTypes_length hshape hmem' t'
        obtain ⟨values, hvalues⟩ :=
          exists_forall₂ (R := flip (HasType Γ.toTyping)) fun s (_ : s ∈ types') => hhΓ s
        refine ⟨.constructor (.data hshape hmem' (by simpa using hlen)) ?_, .data _ _ values,
          .data hshape hmem' hvalues.flip, .constructor (by simp [explode]; rfl) ?_, ?_⟩
        · -- the fields are wildcards, as many as the constructor has
          rw [PatternConstructor.fields, List.forall₂_map_left_iff]
          exact forall₂_iff_get.mpr ⟨hlen, fun _ _ _ => .wildcard⟩
        · rw [PatternConstructor.fields, List.forall₂_map_left_iff]
          exact forall₂_iff_get.mpr ⟨hlen.trans hvalues.length_eq, fun _ _ _ => .wildcard⟩
        · intro constructor hconstructor
          have := hlacks constructor hconstructor
          cases constructor <;> simp_all [PatternConstructor.isItem, explode]
      | @boolean _ b' hshape =>
        obtain ⟨b, hlacks, rfl⟩ : ∃ b, (∀ constructor ∈ .boolean b' :: rest,
            constructor.isBoolean b = false) ∧ Pattern.constructor (.boolean b) t' = missing := by
          simp only [firstMissingConstructor, Bool.not_eq_true', List.any_eq_false,
            Bool.not_eq_true] at hmissing
          split_ifs at hmissing with htrue hfalse
          · exact ⟨true, htrue, Option.some_inj.mp hmissing⟩
          · exact ⟨false, hfalse, Option.some_inj.mp hmissing⟩
        refine ⟨.constructor (.boolean hshape) .nil, .boolean b, .boolean hshape,
          .constructor (if_pos rfl) .nil, fun constructor hconstructor => ?_⟩
        have := hlacks constructor hconstructor
        cases constructor <;> simp_all [PatternConstructor.isBoolean, explode]
      | record | array | integer | number | string | char =>
        simp [firstMissingConstructor] at hmissing

/-- A genuine witness for the default matrix gives one for the matrix. -/
lemma Genuine.cons_firstMissing (hhΓ : ∀ t, ∃ v, HasType Γ.toTyping v t) {types : List T}
    {matrix : PatternMatrix T (n + 1)}
    (hmatrix : ∀ row ∈ matrix, RowHasType Γ.toTyping (t :: types) row)
    (hincomplete : sigmaIsComplete Γ.toQueries (collectSigma matrix) = false)
    {vector : PatternVector T (n + 1)} {t' : T} (hhead : vector.head = .wildcard t')
    {witness : PatternVector T n}
    (h : Genuine Γ.toTyping types (defaultMatrix matrix) vector.tail witness) :
    Genuine Γ.toTyping (t :: types) matrix vector (List.Vector.cons
      ((firstMissingConstructor Γ.toQueries t' (collectSigma matrix)).getD (.wildcard t'))
      witness) := by
  have hrows : ∀ row ∈ matrix, PatternHasType Γ.toTyping row.head t :=
    fun row hrow => (hmatrix row hrow).head
  obtain ⟨htyped, v, hv, hmatch, hout⟩ := firstMissingConstructor_spec hhΓ
    (fun constructor hmem => (collectSigma_spec hrows hmem).1) hincomplete t'
  refine ⟨?_, fun all hall hcells => ?_, useful_cons_of_default hmatrix hv hout hmatch h.useful⟩
  · exact .cons htyped h.typed
  · cases hall with | cons _ hvalues
    cases hcells with | cons _ hrest
    exact (matches_row_iff _ _ _).mpr ⟨hhead ▸ .wildcard, h.isInstance _ hvalues hrest⟩

end Missing

/-! ## The algorithm -/

/-- Against an empty matrix the query is its own witness. -/
lemma genuine_self {Γ : Typing T} (hhΓ : ∀ t, ∃ v, HasType Γ v t) {types : List T}
    {vector : PatternVector T n} (h : RowHasType Γ types vector) :
    ∀ witness ∈ [vector], Genuine Γ types [] vector witness := by
  intro witness hwitness
  rw [mem_singleton.mp hwitness]
  exact ⟨h, fun _ _ hmatch => hmatch, useful_nil hhΓ h⟩

/-- **Every witness of `algorithm_m` is genuine.** -/
lemma algorithmM_sound {Γ : FieldTyping T} (hhΓ : ∀ t, ∃ v, HasType Γ.toTyping v t) {n : ℕ}
    (matrix : PatternMatrix T n) (vector : PatternVector T n) (types : List T)
    (hmatrix : ∀ row ∈ matrix, RowHasType Γ.toTyping types row)
    (hvector : RowHasType Γ.toTyping types vector) {witnesses : List (PatternVector T n)}
    (h : algorithmM Γ.toQueries matrix vector = some witnesses) :
    ∀ witness ∈ witnesses, Genuine Γ.toTyping types matrix vector witness := by
  induction n, matrix, vector using columnInduction generalizing types with
  | nil vector =>
    rw [algorithmM_nil, Option.some.injEq] at h
    exact h ▸ genuine_self hhΓ hvector
  | zero vector hne => simp [algorithmM_zero vector hne] at h
  | @constructor n matrix vector head t' specialised hne hhead hspecialised ih =>
    obtain ⟨t, types, rfl⟩ := hvector.exists_cons
    have htyped := hvector.head
    rw [hhead] at htyped
    cases htyped with | constructor hcomponents _
    obtain ⟨⟨componentTypes, hcanonical⟩, -, hcovers, hown⟩ :=
      canonicaliseRecordConstructor_spec hcomponents fun row hrow => (hmatrix row hrow).head
    rw [algorithmM_constructor hne hhead hspecialised] at h
    obtain ⟨found, hfound, rfl⟩ := map_eq_some_iff.mp h
    rw [List.forall_mem_map]
    intro inner hinner
    refine Genuine.rebuildWitness hhΓ t' hcanonical hmatrix hcovers hvector (hhead ▸ hown t')
      hspecialised ?_
    exact ih _ (fun row hrow => .of_mem_specialiseMatrix hcanonical hmatrix hrow)
      (hvector.specialise hcanonical hspecialised) hfound inner hinner
  | @wildcard n matrix vector t' hne hhead ihsigma ihdefault =>
    obtain ⟨t, types, rfl⟩ := hvector.exists_cons
    by_cases hcomplete : sigmaIsComplete Γ.toQueries (collectSigma matrix) = true
    · rw [algorithmM_sigma hne hhead hcomplete] at h
      split_ifs at h
      cases h
      intro witness hwitness
      obtain ⟨constructor, hmem, hfound⟩ := mem_flatMap.mp hwitness
      obtain ⟨⟨componentTypes, hcomponents⟩, hcovers⟩ :=
        collectSigma_spec (fun row hrow => (hmatrix row hrow).head) hmem
      obtain ⟨specialised, hspecialised, ih⟩ := ihsigma constructor hmem
      rw [sigmaWitnesses, hspecialised, bind_some] at hfound
      cases hresult : algorithmM Γ.toQueries (specialiseMatrix constructor matrix) specialised with
      | none => simp [hresult] at hfound
      | some found =>
        rw [hresult] at hfound
        obtain ⟨inner, hinner, rfl⟩ := mem_map.mp hfound
        refine Genuine.rebuildWitness hhΓ t' hcomponents hmatrix hcovers hvector ?_ hspecialised ?_
        · intro labels fields t'' _ _ heq
          cases hhead.symm.trans heq
        · exact ih _ (fun row hrow => .of_mem_specialiseMatrix hcomponents hmatrix hrow)
            (hvector.specialise hcomponents hspecialised) hresult inner hinner
    · rw [algorithmM_default hne hhead hcomplete] at h
      obtain ⟨found, hfound, rfl⟩ := map_eq_some_iff.mp h
      intro witness hwitness
      obtain ⟨inner, hinner, rfl⟩ := mem_map.mp hwitness
      refine Genuine.cons_firstMissing hhΓ hmatrix (by simpa using hcomplete) hhead ?_
      exact ihdefault types (fun row hrow => .of_mem_defaultMatrix hmatrix hrow) hvector.tail hfound
        inner hinner

/-- **Witnesses are genuine.**  `algorithm_m` finds witnesses exactly when `algorithm_u` says that
the query is useful.  Each of them is as wide as the matrix, is an instance of the query and matches
a value vector that no row matches. -/
theorem witnesses_genuine (Γ : FieldTyping T) (hhΓ : ∀ t, ∃ v, HasType Γ.toTyping v t)
    (types : List T) (matrix : PatternMatrix T n) (vector : PatternVector T n)
    (hmatrix : ∀ row ∈ matrix, RowHasType Γ.toTyping types row)
    (hvector : RowHasType Γ.toTyping types vector) :
    ((∃ witnesses, witnesses ≠ [] ∧ algorithmM Γ.toQueries matrix vector = some witnesses) ↔
        algorithmU Γ.toQueries matrix vector = true) ∧
      ∀ witnesses, algorithmM Γ.toQueries matrix vector = some witnesses →
        ∀ witness ∈ witnesses, witness.toList.length = n ∧
          (∀ values, List.Forall₂ (HasType Γ.toTyping) values types →
            List.Forall₂ Matches witness.toList values →
            List.Forall₂ Matches vector.toList values) ∧
          ∃ values, List.Forall₂ (HasType Γ.toTyping) values types ∧
            List.Forall₂ Matches witness.toList values ∧
            ∀ row ∈ matrix, ¬ List.Forall₂ Matches row.toList values := by
  obtain ⟨hsome, hne⟩ := algorithmM_spec Γ.toQueries matrix vector
  refine ⟨?_, fun witnesses h witness hwitness => ?_⟩
  · rw [← hsome, Option.isSome_iff_exists]
    constructor
    · rintro ⟨witnesses, -, h⟩
      exact ⟨witnesses, h⟩
    · rintro ⟨witnesses, h⟩
      refine ⟨witnesses, ?_, h⟩
      rintro rfl
      exact hne h
  · have hgenuine := algorithmM_sound hhΓ matrix vector types hmatrix hvector h witness hwitness
    exact ⟨witness.toList_length, hgenuine.isInstance, hgenuine.useful⟩

def maybeFieldTyping : FieldTyping Bool where
  toTyping := maybeTyping
  fieldTypes_length {t} _ _ _ hshape itemId types hmem scrutinee := by
    cases t <;> simp [maybeTyping] at hshape
    obtain ⟨rfl, rfl, rfl⟩ := hshape
    rcases List.mem_pair.mp hmem with heq | heq <;> cases heq <;> rfl

/-- For the rows `Nothing` and `Just true` a wildcard has witnesses. -/
theorem witnesses_genuine_maybe : ∃ witnesses, witnesses ≠ [] ∧
    algorithmM maybeTyping.toQueries maybeRows ⟨[.wildcard true], rfl⟩ = some witnesses := by
  have hvector : RowHasType maybeTyping [true] ⟨[.wildcard true], rfl⟩ := .cons .wildcard .nil
  obtain ⟨htyped, hnone⟩ := maybeRows_justFalse
  refine (witnesses_genuine maybeFieldTyping maybe_inhabited [true] maybeRows _ maybeRows_typed
    hvector).1.mpr ?_
  exact (algorithmU_iff maybe_inhabited maybeRows _ [true] maybeRows_typed hvector).mpr
    ⟨_, .cons htyped .nil, .cons .wildcard .nil, hnone⟩

end Iris.Exhaustive
