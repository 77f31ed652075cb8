import IrisCompiler.Exhaustive.Values

/-!
# Specialisation and matching

Specialising a vector by a constructor is right when a value with that constructor matches the
vector exactly when the value's components match the specialised vector.  For records this needs the
constructor to mention every label the pattern mentions, which is what
`canonicalise_record_constructor` is for.
-/

namespace Iris.Exhaustive

open List PatternConstructor

variable {T : Type} {n : ℕ} {Γ : Typing T} {expected head : PatternConstructor (Pattern T)}
  {p : Pattern T} {t : T} {types : List T} {cells fields : List (Pattern T)} {labels : List String}
  {declared : List (String × T)} {v : Value} {components : List Value}

/-! ## Record patterns -/

variable {α β : Type} {keys : List α} {values : List β} {expectedLabels : List String}
  {expectedFields : List (Pattern T)}

/-- The field at a label, as the alignment of record patterns looks it up. -/
lemma lookup_eq_some_iff [DecidableEq α] (hnodup : keys.Nodup) {key : α} {value : β} :
    (keys.idxOf? key).bind (values[·]?) = some value ↔ (key, value) ∈ keys.zip values := by
  induction keys generalizing values with
  | nil => simp
  | cons first keys ih =>
    obtain ⟨hfresh, hnodup⟩ := nodup_cons.mp hnodup
    cases values with
    | nil => simp
    | cons head values =>
      rw [idxOf?_cons, zip_cons_cons, mem_cons]
      by_cases heq : first = key
      · subst heq
        have : (first, value) ∉ keys.zip values := fun h => hfresh (of_mem_zip h).1
        simp [this, eq_comm]
      · rw [← ih hnodup]
        have hne : key ≠ first := fun h => heq h.symm
        simp [heq, hne, Option.bind_map]

lemma forall₂_map_iff_zip {γ : Type} {R : β → γ → Prop} {f : α → γ}
    (hlen : keys.length = values.length) :
    List.Forall₂ R values (keys.map f) ↔
      ∀ key value, (key, value) ∈ keys.zip values → R value (f key) := by
  rw [forall₂_map_right_iff]
  constructor
  · exact fun h _ _ hmem => forall₂_zip (List.Forall₂.flip (R := fun k v => R v (f k)) h) hmem
  · exact fun h => (forall₂_iff_zip.mpr ⟨hlen, fun hmem => h _ _ hmem⟩).flip

lemma exists_mem_zip (hlen : keys.length = values.length) {key : α} (h : key ∈ keys) :
    ∃ value, (key, value) ∈ keys.zip values := by
  rw [← map_fst_zip hlen.le] at h
  obtain ⟨⟨key', value⟩, hmem, rfl⟩ := mem_map.mp h
  exact ⟨value, hmem⟩

/-- Aligning the fields of a record pattern to more labels does not change what it matches. -/
lemma forall₂_specialiseRecordFields (hnodup : labels.Nodup) (hlen : labels.length = fields.length)
    (hlen' : expectedLabels.length = expectedFields.length) (hsub : labels ⊆ expectedLabels)
    (field : String → Value) :
    List.Forall₂ Matches
      (specialiseRecordFields (.record expectedLabels expectedFields) labels fields)
        (expectedLabels.map field) ↔
      List.Forall₂ Matches fields (labels.map field) := by
  simp only [specialiseRecordFields]
  split_ifs with heq
  · rw [heq]
  · rw [forall₂_map_iff_zip hlen]
    conv_lhs => rw [← map_fst_zip hlen'.le, map_map, forall₂_map_left_iff,
      forall₂_map_right_iff, map_fst_zip hlen'.le, forall₂_same]
    constructor
    · intro h label pattern hmem
      obtain ⟨expectedField, hexpected⟩ := exists_mem_zip hlen' (hsub (of_mem_zip hmem).1)
      have := h (label, expectedField) hexpected
      simpa [(lookup_eq_some_iff hnodup).mpr hmem] using this
    · rintro h ⟨label, expectedField⟩ -
      split
      · next actualField hactual =>
        exact h label actualField ((lookup_eq_some_iff hnodup).mp hactual)
      · exact .wildcard

lemma exists_type_of_mem_zip
    (hlabels : List.Forall₂ (fun label s => (label, s) ∈ declared) labels types)
    (hfields : List.Forall₂ (PatternHasType Γ) fields types) {label : String} {field : Pattern T}
    (h : (label, field) ∈ labels.zip fields) :
    ∃ s, (label, s) ∈ declared ∧ PatternHasType Γ field s := by
  induction hlabels generalizing fields with
  | nil => simp at h
  | cons hmem _ ih =>
    obtain _ | ⟨hfield, hrest⟩ := hfields
    rcases mem_cons.mp h with heq | h
    · cases heq
      exact ⟨_, hmem, hfield⟩
    · exact ih hrest h

lemma specialiseRecordFields_length (hlen : labels.length = fields.length)
    (hlen' : expectedLabels.length = expectedFields.length) :
    (specialiseRecordFields (.record expectedLabels expectedFields) labels fields).length =
      expectedFields.length := by
  simp only [specialiseRecordFields]
  split_ifs with heq
  · rw [← hlen, heq, hlen']
  · simp [hlen']

lemma specialiseRecordFields_typed {expectedTypes : List T}
    (hexpected : Components Γ (.record expectedLabels expectedFields) t expectedTypes)
    (hactual : Components Γ (.record labels fields) t types)
    (hfields : List.Forall₂ (PatternHasType Γ) fields types) :
    List.Forall₂ (PatternHasType Γ)
      (specialiseRecordFields (.record expectedLabels expectedFields) labels fields)
      expectedTypes := by
  cases hexpected with | @record _ declared _ _ _ hshape hnodup hlen hlabels
  cases hactual with | record hshape' hnodup' hlen' hlabels'
  cases hshape.symm.trans hshape'
  have hdeclared := Γ.labels_nodup hshape
  simp only [specialiseRecordFields]
  split_ifs with heq
  · -- the same labels have the same types
    subst heq
    have hunique : Relator.RightUnique fun label s => (label, s) ∈ declared :=
      fun _ _ _ h h' => eq_of_mem_of_nodup_fst hdeclared h h'
    exact right_unique_forall₂' hunique hlabels' hlabels ▸ hfields
  · rw [forall₂_map_left_iff]
    have hzip : List.Forall₂ (fun (entry : String × Pattern T) s => (entry.1, s) ∈ declared)
        (expectedLabels.zip expectedFields) expectedTypes := by
      rw [← map_fst_zip hlen.le, forall₂_map_left_iff] at hlabels
      exact hlabels
    refine hzip.imp fun entry s hmem => ?_
    split
    · next actualField hfound =>
      obtain ⟨s', hmem', htyped⟩ :=
        exists_type_of_mem_zip hlabels' hfields ((lookup_eq_some_iff hnodup').mp hfound)
      exact eq_of_mem_of_nodup_fst hdeclared hmem' hmem ▸ htyped
    · exact .wildcard

/-! ## One pattern -/

/-- The expected constructor mentions every label of a record pattern. -/
def Covers (expected : PatternConstructor (Pattern T)) (p : Pattern T) : Prop :=
  ∀ labels fields t labels' fields', p = .constructor (.record labels fields) t →
    expected = .record labels' fields' → labels ⊆ labels'

lemma normaliseSpecialisedFields_of_length (h : cells.length = expected.arity) :
    (normaliseSpecialisedFields expected cells).toList = cells := by
  rw [toList_normaliseSpecialisedFields, take_of_length_le h.le, h]
  simp [arity]

lemma normaliseSpecialisedFields_nil (expected : PatternConstructor (Pattern T)) :
    (normaliseSpecialisedFields expected []).toList =
      expected.fields.map fun field => .wildcard field.t := by
  simp [toList_normaliseSpecialisedFields]

/-- A constructor with the expected key takes values apart in the same way and contributes its
fields as they are, unless both are records. -/
lemma same_or_record {types' : List T} (hexpected : Components Γ expected t types)
    (hhead : Components Γ head t types')
    (hkey : head.key = expected.key) :
    (∃ labels fields labels' fields', head = .record labels fields ∧
        expected = .record labels' fields') ∨
      types' = types ∧ (∀ v, explode head v = explode expected v) ∧
        ∀ t', specialiseFields expected (.constructor head t') = some head.fields := by
  have hmatches := (matches_iff_key head expected).mpr hkey
  cases hhead with
  | record =>
    cases hexpected <;> simp only [key, reduceCtorEq] at hkey
    exact .inl ⟨_, _, _, _, rfl, rfl⟩
  | data hshape hmem hlen =>
    cases hexpected <;> simp only [key, reduceCtorEq] at hkey
    next hshape' hmem' _ =>
    cases hkey
    cases hshape.symm.trans hshape'
    refine .inr ⟨eq_of_mem_of_nodup_fst (Γ.constructors_nodup hshape) hmem hmem', fun v => ?_, ?_⟩
    · cases v <;> rfl
    · simp [specialiseFields, hmatches, fields]
  | array hshape =>
    cases hexpected <;> simp only [key, reduceCtorEq] at hkey
    next hshape' =>
    simp only [ConstructorKey.array.injEq] at hkey
    cases hshape.symm.trans hshape'
    refine .inr ⟨by rw [hkey], fun v => ?_, ?_⟩
    · cases v <;> simp [explode, hkey]
    · simp [specialiseFields, hmatches, fields]
  | boolean | integer | number | string | char =>
    cases hexpected <;> simp only [key, reduceCtorEq] at hkey
    cases hkey
    exact .inr ⟨rfl, fun v => rfl, by simp [specialiseFields, hmatches, fields]⟩

lemma key_eq_of_specialiseFields
    (h : specialiseFields expected (.constructor head t) = some cells) :
    head.key = expected.key := by
  rw [← matches_iff_key]
  by_contra hne
  simp [specialiseFields, hne] at h

lemma specialiseFields_record {labels' : List String} {fields' : List (Pattern T)} (t : T) :
    specialiseFields (.record labels' fields') (.constructor (.record labels fields) t) =
      some (specialiseRecordFields (.record labels' fields') labels fields) := rfl

lemma matches_constructor_iff (h : explode head v = some components) :
    Matches (.constructor head t) v ↔ List.Forall₂ Matches head.fields components := by
  constructor
  · rintro (_ | ⟨hexplode, hfields⟩)
    cases hexplode.symm.trans h
    exact hfields
  · exact .constructor h

/-- The specialised cells are typed like the components. -/
lemma specialiseFields_typed (hexpected : Components Γ expected t types)
    (hp : PatternHasType Γ p t) (h : specialiseFields expected p = some cells) :
    List.Forall₂ (PatternHasType Γ) (normaliseSpecialisedFields expected cells).toList types := by
  have harity := hexpected.arity_eq
  cases hp with
  | wildcard =>
    cases h
    rw [normaliseSpecialisedFields_nil, forall₂_map_left_iff]
    refine forall₂_iff_get.mpr ⟨harity.symm, fun _ _ _ => .wildcard⟩
  | @constructor head _ t' types' hhead hfields =>
    rcases same_or_record hexpected hhead (key_eq_of_specialiseFields h) with
      ⟨labels, fields, labels', fields', rfl, rfl⟩ | ⟨rfl, -, hspecialised⟩
    · have htyped := specialiseRecordFields_typed hexpected hhead hfields
      cases h
      rwa [normaliseSpecialisedFields_of_length (by rw [htyped.length_eq, harity])]
    · cases (hspecialised t').symm.trans h
      rwa [normaliseSpecialisedFields_of_length (by rw [hfields.length_eq, harity])]

/-- **A value with the expected constructor matches a pattern exactly when its components match the
specialised cells.** -/
lemma matches_iff_specialised
    (hexpected : Components Γ expected t types) (hp : PatternHasType Γ p t)
    (hcovers : Covers expected p) (hv : HasType Γ v t) (h : explode expected v = some components) :
    Matches p v ↔ ∃ cells, specialiseFields expected p = some cells ∧
      List.Forall₂ Matches (normaliseSpecialisedFields expected cells).toList components := by
  have hlen : components.length = expected.arity :=
    (hv.components hexpected h).length_eq.trans hexpected.arity_eq
  cases hp with
  | wildcard =>
    refine ⟨fun _ => ⟨[], rfl, ?_⟩, fun _ => .wildcard⟩
    rw [normaliseSpecialisedFields_nil, forall₂_map_left_iff]
    exact forall₂_iff_get.mpr ⟨hlen.symm, fun _ _ _ => .wildcard⟩
  | @constructor head _ t' types' hhead hfields =>
    by_cases hkey : head.key = expected.key
    · rcases same_or_record hexpected hhead hkey with
        ⟨labels, fields, labels', fields', rfl, rfl⟩ | ⟨rfl, hexplode, hspecialised⟩
      · have hsub : labels ⊆ labels' := hcovers _ _ _ _ _ rfl rfl
        cases hexpected with | record _ _ hlen' _
        cases hhead with | record _ hnodup hlen'' _
        obtain ⟨field, rfl⟩ : ∃ field, v = .record field := by
          cases v <;> simp only [explode, reduceCtorEq] at h
          exact ⟨_, rfl⟩
        cases h
        have hlength : (specialiseRecordFields (.record labels' fields') labels fields).length =
            (record labels' fields').arity :=
          specialiseRecordFields_length hlen'' hlen'
        rw [specialiseFields_record, matches_constructor_iff rfl]
        refine (forall₂_specialiseRecordFields hnodup hlen'' hlen' hsub field).symm.trans ?_
        simp [normaliseSpecialisedFields_of_length hlength]
      · have hlength : head.fields.length = expected.arity := by
          rw [hfields.length_eq, hexpected.arity_eq]
        rw [hspecialised t', matches_constructor_iff ((hexplode v).trans h)]
        simp [normaliseSpecialisedFields_of_length hlength]
    · -- neither side holds: the value has one constructor only
      constructor
      · rintro (_ | ⟨hexplode, -⟩)
        exact absurd (key_eq_of_explode hexplode h) hkey
      · rintro ⟨cells, hcells, -⟩
        exact absurd (key_eq_of_specialiseFields hcells) hkey

/-! ## Canonical record constructors -/

section Canonical

/-- The list of labels that the loop over the rows builds: distinct labels of the record type. -/
def CanonicalList (declared : List (String × T)) (entries : List (String × Pattern T)) : Prop :=
  (entries.map Prod.fst).Nodup ∧ ∀ entry ∈ entries, ∃ s, (entry.1, s) ∈ declared

/-- Adding the labels of a record pattern keeps the list canonical, keeps what it has in front and
makes it mention the new labels. -/
lemma addMissingLabels_spec {entries : List (String × Pattern T)}
    (hentries : CanonicalList declared entries)
    (hlen : labels.length = fields.length)
      (hlabels : ∀ label ∈ labels, ∃ s, (label, s) ∈ declared) :
    CanonicalList declared (addMissingLabels entries labels fields) ∧
      entries <+: addMissingLabels entries labels fields ∧
      labels ⊆ (addMissingLabels entries labels fields).map Prod.fst := by
  induction labels generalizing entries fields with
  | nil => simp [addMissingLabels, hentries]
  | cons label labels ih =>
    cases fields with
    | nil => simp at hlen
    | cons field fields =>
      have hstep : addMissingLabels entries (label :: labels) (field :: fields) =
          addMissingLabels (if entries.any (fun existing => existing.1 == label) then entries
            else entries ++ [(label, field)]) labels fields := rfl
      rw [hstep]
      have hlen : labels.length = fields.length := by simpa using hlen
      have hrest : ∀ label ∈ labels, ∃ s, (label, s) ∈ declared :=
        fun label hlabel => hlabels label (mem_cons_of_mem _ hlabel)
      split_ifs with hany
      · obtain ⟨hcanonical, hpre, hsub⟩ := ih hentries hlen hrest
        refine ⟨hcanonical, hpre, cons_subset.mpr ⟨?_, hsub⟩⟩
        obtain ⟨existing, hmem, heq⟩ := any_eq_true.mp hany
        rw [← beq_iff_eq.mp heq]
        exact mem_map_of_mem (hpre.subset hmem)
      · have hfresh : label ∉ entries.map Prod.fst := by
          intro hmem
          obtain ⟨existing, hexisting, rfl⟩ := mem_map.mp hmem
          exact hany (any_eq_true.mpr ⟨existing, hexisting, by simp⟩)
        have hnew : CanonicalList declared (entries ++ [(label, field)]) := by
          refine ⟨?_, fun entry hentry => ?_⟩
          · rw [map_append]
            exact nodup_append_comm.mp (nodup_cons.mpr ⟨hfresh, hentries.1⟩)
          · rcases mem_append.mp hentry with hentry | hentry
            · exact hentries.2 entry hentry
            · cases mem_singleton.mp hentry
              exact hlabels label mem_cons_self
        obtain ⟨hcanonical, hpre, hsub⟩ := ih hnew hlen hrest
        refine ⟨hcanonical, (prefix_append _ _).trans hpre, cons_subset.mpr ⟨?_, hsub⟩⟩
        have hmem : (label, field) ∈ addMissingLabels (entries ++ [(label, field)]) labels fields :=
          hpre.subset (by simp)
        exact mem_map_of_mem hmem

lemma labels_declared
    (hshape : Γ.shape t = .record declared) (h : Components Γ (.record labels fields) t types) :
    ∀ label ∈ labels, ∃ s, (label, s) ∈ declared := by
  cases h with | record hshape' _ _ hlabels
  cases hshape.symm.trans hshape'
  intro label hlabel
  obtain ⟨i, hi, rfl⟩ := mem_iff_getElem.mp hlabel
  have := (forall₂_iff_get.mp hlabels).2 i hi (hlabels.length_eq ▸ hi)
  exact ⟨_, this⟩

variable {matrix : PatternMatrix T (n + 1)}

/-- What the loop over the rows has built, where it starts from the original labels. -/
lemma canonicalRow_fold {originalLabels : List String} {originalFields : List (Pattern T)}
    (hshape : Γ.shape t = .record declared)
    (horiginal : Components Γ (.record originalLabels originalFields) t types)
    (hrows : ∀ row ∈ matrix, PatternHasType Γ row.head t) :
    let canonical := matrix.foldl (canonicalRow originalLabels originalFields) none
    let entries := canonical.getD (originalLabels.zip originalFields)
    CanonicalList declared entries ∧ originalLabels.zip originalFields <+: entries ∧
      ∀ row ∈ matrix, ∀ labels fields t', row.head = .constructor (.record labels fields) t' →
        labels ⊆ entries.map Prod.fst := by
  have ⟨hnodup, hlen⟩ : originalLabels.Nodup ∧ originalLabels.length = originalFields.length := by
    cases horiginal with | record _ hnodup hlen _
    exact ⟨hnodup, hlen⟩
  induction matrix using List.reverseRecOn with
  | nil =>
    refine ⟨⟨?_, fun entry hentry => ?_⟩, prefix_rfl, by simp⟩
    · simpa [map_fst_zip hlen.le] using hnodup
    · exact labels_declared hshape horiginal entry.1 (of_mem_zip hentry).1
  | append_singleton rows last ih =>
    obtain ⟨hcanonical, hpre, hsub⟩ := ih fun row hrow => hrows row (mem_append_left _ hrow)
    simp only [foldl_append, foldl_cons, foldl_nil]
    set canonical := rows.foldl (canonicalRow originalLabels originalFields) none
    set entries := canonical.getD (originalLabels.zip originalFields)
    have horiginalSub : originalLabels ⊆ entries.map Prod.fst :=
      map_fst_zip hlen.le ▸ map_subset Prod.fst hpre.subset
    have htyped := hrows last (by simp)
    -- the list only grows, so that the rows before the last keep their labels
    obtain ⟨grown, heq, hcanonical, hgrow, hlast⟩ : ∃ grown,
        (canonicalRow originalLabels originalFields canonical last).getD
          (originalLabels.zip originalFields) = grown ∧
        CanonicalList declared grown ∧ entries <+: grown ∧
        ∀ labels fields t', last.head = .constructor (.record labels fields) t' →
          labels ⊆ grown.map Prod.fst := by
      unfold canonicalRow
      split
      · next labels fields t' hlast =>
        rw [hlast] at htyped
        obtain _ | ⟨hlastTyped, -⟩ := htyped
        simp only [hlast, Pattern.constructor.injEq, PatternConstructor.record.injEq]
        split_ifs with heq
        · refine ⟨_, rfl, hcanonical, prefix_rfl, ?_⟩
          rintro _ _ _ ⟨⟨rfl, -⟩, -⟩
          rw [heq]
          exact horiginalSub
        · have hlen' : labels.length = fields.length := by
            cases hlastTyped with | record _ _ hlen' _
            exact hlen'
          obtain ⟨hcanonical', hpre', hsub'⟩ :=
            addMissingLabels_spec hcanonical hlen' (labels_declared hshape hlastTyped)
          refine ⟨_, rfl, hcanonical', hpre', ?_⟩
          rintro _ _ _ ⟨⟨rfl, -⟩, -⟩
          exact hsub'
      · next hother =>
        exact ⟨_, rfl, hcanonical, prefix_rfl, fun _ _ _ hlast => absurd hlast (hother _ _ _)⟩
    simp only [heq]
    refine ⟨hcanonical, hpre.trans hgrow, ?_⟩
    rw [forall_mem_append, forall_mem_singleton]
    exact ⟨fun row hrow labels fields t' hhead => List.Subset.trans
      (hsub row hrow labels fields t' hhead) (map_subset _ hgrow.subset), hlast⟩

lemma exists_forall₂ {α β : Type} {R : α → β → Prop} {xs : List α} (h : ∀ x ∈ xs, ∃ y, R x y) :
    ∃ ys, List.Forall₂ R xs ys := by
  induction xs with
  | nil => exact ⟨[], .nil⟩
  | cons x xs ih =>
    obtain ⟨y, hy⟩ := h x mem_cons_self
    obtain ⟨ys, hys⟩ := ih fun x hx => h x (mem_cons_of_mem _ hx)
    exact ⟨y :: ys, .cons hy hys⟩

/-- The canonical form of a constructor is a constructor of the same type with the same key, and it
mentions every label of the first column and its own. -/
lemma canonicaliseRecordConstructor_spec (hhead : Components Γ head t types)
    (hrows : ∀ row ∈ matrix, PatternHasType Γ row.head t) :
    (∃ types', Components Γ (canonicaliseRecordConstructor head matrix) t types') ∧
      (canonicaliseRecordConstructor head matrix).key = head.key ∧
      (∀ row ∈ matrix, Covers (canonicaliseRecordConstructor head matrix) row.head) ∧
      ∀ t', Covers (canonicaliseRecordConstructor head matrix) (.constructor head t') := by
  by_cases hrecord : ∃ labels fields, head = .record labels fields
  · obtain ⟨originalLabels, originalFields, rfl⟩ := hrecord
    obtain ⟨declared, hshape, hlen⟩ : ∃ declared, Γ.shape t = .record declared ∧
        originalLabels.length = originalFields.length := by
      cases hhead with | record hshape _ hlen _
      exact ⟨_, hshape, hlen⟩
    obtain ⟨hcanonical, hpre, hsub⟩ := canonicalRow_fold hshape hhead hrows
    set canonical := matrix.foldl (canonicalRow originalLabels originalFields) none with hfold
    set entries := canonical.getD (originalLabels.zip originalFields) with hentries
    have hzip : (originalLabels.zip originalFields).map Prod.fst = originalLabels :=
      map_fst_zip hlen.le
    have horiginalSub : originalLabels ⊆ entries.map Prod.fst :=
      hzip ▸ map_subset Prod.fst hpre.subset
    -- whichever way the result comes about, its labels are those of the list
    obtain ⟨labels, fields, heq, hlen', hperm⟩ : ∃ labels fields,
        canonicaliseRecordConstructor (.record originalLabels originalFields) matrix =
          .record labels fields ∧ labels.length = fields.length ∧
          labels.Perm (entries.map Prod.fst) := by
      have hunchanged (heq : entries.length = originalLabels.length) :
          originalLabels.Perm (entries.map Prod.fst) := by
        rw [← hpre.eq_of_length (by simp [← hlen, heq]), hzip]
      cases hcanonical : canonical with
      | none =>
        refine ⟨originalLabels, originalFields, ?_, hlen, hunchanged ?_⟩
        · simp [canonicaliseRecordConstructor, ← hfold, hcanonical]
        · simp [hentries, hcanonical, ← hlen]
      | some found =>
        have hfound : entries = found := by simp [hentries, hcanonical]
        by_cases hsize : found.length = originalLabels.length
        · refine ⟨originalLabels, originalFields, ?_, hlen, hunchanged (hfound ▸ hsize)⟩
          simp [canonicaliseRecordConstructor, ← hfold, hcanonical, hsize]
        · set sorted := found.mergeSort fun a b => decide (a.1 ≤ b.1) with hsorted
          have hperm : sorted.Perm entries := hfound ▸ mergeSort_perm _ _
          refine ⟨sorted.map (·.1), sorted.map (·.2), ?_, by simp, hperm.map Prod.fst⟩
          simp [canonicaliseRecordConstructor, ← hfold, hcanonical, hsize, hsorted]
    have hdeclared : ∀ label ∈ labels, ∃ s, (label, s) ∈ declared := by
      intro label hlabel
      obtain ⟨entry, hentry, rfl⟩ := mem_map.mp (hperm.subset hlabel)
      exact hcanonical.2 entry hentry
    obtain ⟨types', htypes'⟩ := exists_forall₂ hdeclared
    rw [heq]
    refine ⟨⟨types', .record hshape (hperm.nodup_iff.mpr hcanonical.1) hlen' htypes'⟩, rfl,
      fun row hrow => ?_, fun t' => ?_⟩
    · rintro labels' fields' t' _ _ hrow' ⟨⟩ label hlabel
      exact hperm.symm.subset (hsub row hrow labels' fields' t' hrow' hlabel)
    · rintro labels' fields' t' _ _ ⟨⟩ ⟨⟩ label hlabel
      exact hperm.symm.subset (horiginalSub hlabel)
  · have heq : canonicaliseRecordConstructor head matrix = head := by
      unfold canonicaliseRecordConstructor
      split
      · next h => exact absurd ⟨_, _, rfl⟩ hrecord
      · rfl
    rw [heq]
    refine ⟨⟨types, hhead⟩, rfl, fun row _ => ?_, fun t' => ?_⟩ <;>
    · intro labels fields t'' labels' fields' _ hexpected
      exact absurd ⟨_, _, hexpected⟩ hrecord

end Canonical

end Iris.Exhaustive
