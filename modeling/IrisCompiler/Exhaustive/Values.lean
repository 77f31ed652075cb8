import IrisCompiler.Exhaustive.Usefulness

/-!
# Values, types and matching

What the usefulness algorithm is about: values of data types, records, arrays and literals, the
types they have, and the values a pattern matches.

A type is known through its `Shape`.  Literal domains are taken as infinite: an integer literal
ranges over `ℤ` and a character over all of `ℕ`, where the pattern's own value has bounds.

`explode` opens a value along a constructor; matching, typing of constructors and specialisation
are all read through it.
-/

namespace Iris.Exhaustive

open List PatternConstructor

variable {T : Type} {n : ℕ}

inductive Value where
  | data (fileId itemId : ℕ) (fields : List Value)
  | record (field : String → Value)
  | array (elements : List Value)
  | boolean (value : Bool)
  | integer (value : ℤ)
  | number (negative : Bool) (value : String)
  | string (value : List ℕ)
  | char (code : ℕ)
  | other

/-- What patterns can tell apart at a type. -/
inductive Shape (T : Type) where
  | data (fileId typeId : ℕ) (constructors : List (ℕ × List T))
  | record (fields : List (String × T))
  | array (element : T)
  | boolean
  | integer
  | number
  | string
  | char
  | other

/-- The types of a program and the queries that answer for them: the indexed module knows each
constructor of a data type and no others, and labels and constructors are declared once. -/
structure Typing (T : Type) extends Queries T where
  shape : T → Shape T
  constructor_known : ∀ {t fileId typeId constructors}, shape t = .data fileId typeId constructors →
    ∀ {itemId types}, (itemId, types) ∈ constructors → constructorType fileId itemId = some typeId
  constructors_known :
      ∀ {t fileId typeId constructors}, shape t = .data fileId typeId constructors →
    ∀ itemId, itemId ∈ dataConstructors fileId typeId ↔ itemId ∈ constructors.map Prod.fst
  constructors_nodup :
      ∀ {t fileId typeId constructors}, shape t = .data fileId typeId constructors →
    (constructors.map Prod.fst).Nodup
  labels_nodup : ∀ {t fields}, shape t = .record fields → (fields.map Prod.fst).Nodup

variable {Γ : Typing T}

inductive HasType (Γ : Typing T) : Value → T → Prop where
  | data {t fileId typeId constructors itemId types fields} :
    Γ.shape t = .data fileId typeId constructors → (itemId, types) ∈ constructors →
    List.Forall₂ (HasType Γ) fields types → HasType Γ (.data fileId itemId fields) t
  | record {t types field} : Γ.shape t = .record types →
    (∀ label s, (label, s) ∈ types → HasType Γ (field label) s) → HasType Γ (.record field) t
  | array {t element elements} : Γ.shape t = .array element →
    (∀ v ∈ elements, HasType Γ v element) → HasType Γ (.array elements) t
  | boolean {t b} : Γ.shape t = .boolean → HasType Γ (.boolean b) t
  | integer {t i} : Γ.shape t = .integer → HasType Γ (.integer i) t
  | number {t negative v} : Γ.shape t = .number → HasType Γ (.number negative v) t
  | string {t s} : Γ.shape t = .string → HasType Γ (.string s) t
  | char {t c} : Γ.shape t = .char → HasType Γ (.char c) t
  | other {t} : Γ.shape t = .other → HasType Γ .other t

/-- The components a constructor takes a value apart into, if the value has that constructor. -/
def explode {P : Type} : PatternConstructor P → Value → Option (List Value)
  | .dataConstructor fileId itemId _, .data fileId' itemId' fields =>
    if fileId = fileId' ∧ itemId = itemId' then some fields else none
  | .record labels _, .record field => some (labels.map field)
  | .array fields, .array elements =>
    if fields.length = elements.length then some elements else none
  | .boolean b, .boolean b' => if b = b' then some [] else none
  | .integer i, .integer i' => if i = i' then some [] else none
  | .number negative v, .number negative' v' =>
    if negative = negative' ∧ v = v' then some [] else none
  | .string s, .string s' => if s = s' then some [] else none
  | .char c, .char code => if c.toNat = code then some [] else none
  | _, _ => none

/-- A pattern matches a value when its fields match what its constructor takes the value apart
into. -/
inductive Matches : Pattern T → Value → Prop where
  | wildcard {t v} : Matches (.wildcard t) v
  | constructor {head t v components} : explode head v = some components →
    List.Forall₂ Matches head.fields components → Matches (.constructor head t) v

/-- The types of the components of a constructor that is allowed at a type. -/
inductive Components (Γ : Typing T) : PatternConstructor (Pattern T) → T → List T → Prop where
  | data {t fileId typeId constructors itemId types fields} :
    Γ.shape t = .data fileId typeId constructors → (itemId, types) ∈ constructors →
    fields.length = types.length → Components Γ (.dataConstructor fileId itemId fields) t types
  | record {t declared labels fields types} : Γ.shape t = .record declared → labels.Nodup →
    labels.length = fields.length →
      List.Forall₂ (fun label s => (label, s) ∈ declared) labels types →
    Components Γ (.record labels fields) t types
  | array {t element fields} : Γ.shape t = .array element →
    Components Γ (.array fields) t (List.replicate fields.length element)
  | boolean {t b} : Γ.shape t = .boolean → Components Γ (.boolean b) t []
  | integer {t i} : Γ.shape t = .integer → Components Γ (.integer i) t []
  | number {t negative v} : Γ.shape t = .number → Components Γ (.number negative v) t []
  | string {t s} : Γ.shape t = .string → Components Γ (.string s) t []
  | char {t c} : Γ.shape t = .char → Components Γ (.char c) t []

/-- The well-typed patterns.  The type stored in a pattern only labels reports, so it is not
constrained. -/
inductive PatternHasType (Γ : Typing T) : Pattern T → T → Prop where
  | wildcard {t t'} : PatternHasType Γ (.wildcard t') t
  | constructor {head t t' types} : Components Γ head t types →
    List.Forall₂ (PatternHasType Γ) head.fields types → PatternHasType Γ (.constructor head t') t

/-! ## Taking apart and putting together -/

variable {head head' : PatternConstructor (Pattern T)} {t : T} {types : List T} {v : Value}

lemma Components.arity_eq (h : Components Γ head t types) : types.length = head.arity := by
  cases h <;> simp only [arity, fields, length_replicate,
    length_nil]
  case data _ _ hlen => exact hlen.symm
  case record hlen _ hlabels => rw [← hlabels.length_eq, hlen]

lemma eq_of_mem_of_nodup_fst {α β : Type} {l : List (α × β)} (h : (l.map Prod.fst).Nodup)
    {a : α} {b b' : β} (hb : (a, b) ∈ l) (hb' : (a, b') ∈ l) : b = b' := by
  have := inj_on_of_nodup_map h hb hb' rfl
  exact (Prod.mk.inj this).2

/-- The components of a typed value are typed. -/
lemma HasType.components {components : List Value} (hv : HasType Γ v t)
    (hhead : Components Γ head t types)
    (h : explode head v = some components) : List.Forall₂ (HasType Γ) components types := by
  cases hhead with
  | data hshape hmem hlen =>
    cases hv <;> simp only [explode, reduceCtorEq] at h
    next hmem' hfields hshape' =>
    split_ifs at h with heq
    obtain ⟨rfl, rfl⟩ := heq
    cases h
    cases hshape.symm.trans hshape'
    cases eq_of_mem_of_nodup_fst (Γ.constructors_nodup hshape) hmem hmem'
    exact hfields
  | record hshape hnodup hlen hlabels =>
    cases hv <;> simp only [explode, reduceCtorEq, Option.some.injEq] at h
    next hfield hshape' =>
    subst h
    cases hshape.symm.trans hshape'
    rw [forall₂_map_left_iff]
    exact hlabels.imp fun label s hmem => hfield label s hmem
  | array hshape =>
    cases hv <;> simp only [explode, reduceCtorEq] at h
    next helements hshape' =>
    split_ifs at h with heq
    cases h
    cases hshape.symm.trans hshape'
    rw [forall₂_iff_get]
    refine ⟨by simp [heq], fun i hi hi' => ?_⟩
    simpa using helements (components.get ⟨i, hi⟩) (get_mem _ _)
  | boolean | integer | number | string | char =>
    cases hv <;> simp only [explode, reduceCtorEq] at h
    split_ifs at h
    cases h
    exact .nil

variable {components : List Value}

/-- A record value with given components at some labels and any values of their types at the
others. -/
lemma exists_record_field (hhΓ : ∀ t, ∃ v, HasType Γ v t) {declared : List (String × T)}
    (hdeclared : (declared.map Prod.fst).Nodup) {labels : List String}
    (hlabels : List.Forall₂ (fun label s => (label, s) ∈ declared) labels types)
    (hnodup : labels.Nodup) (h : List.Forall₂ (HasType Γ) components types) :
    ∃ field : String → Value, labels.map field = components ∧
      ∀ label s, (label, s) ∈ declared → HasType Γ (field label) s := by
  induction hlabels generalizing components with
  | nil =>
    cases h
    have hvalue : ∀ label, ∃ v, ∀ s, (label, s) ∈ declared → HasType Γ v s := by
      intro label
      by_cases hmem : ∃ s, (label, s) ∈ declared
      · obtain ⟨s, hs⟩ := hmem
        obtain ⟨v, hv⟩ := hhΓ s
        exact ⟨v, fun s' hs' => eq_of_mem_of_nodup_fst hdeclared hs hs' ▸ hv⟩
      · exact ⟨.other, fun s hs => absurd ⟨s, hs⟩ hmem⟩
    choose field hfield using hvalue
    exact ⟨field, rfl, hfield⟩
  | @cons label s labels types hmem _ ih =>
    obtain _ | ⟨hv, hrest⟩ := h
    next v components =>
    obtain ⟨hfresh, hnodup⟩ := nodup_cons.mp hnodup
    obtain ⟨field, hmap, hfield⟩ := ih hnodup hrest
    refine ⟨Function.update field label v, ?_, fun label' s' hmem' => ?_⟩
    · rw [map_cons, Function.update_self, ← hmap]
      congr 1
      refine map_congr_left fun label' hlabel' => Function.update_of_ne ?_ _ _
      rintro rfl
      exact hfresh hlabel'
    · by_cases heq : label' = label
      · subst heq
        rw [Function.update_self, eq_of_mem_of_nodup_fst hdeclared hmem' hmem]
        exact hv
      · rw [Function.update_of_ne heq]
        exact hfield label' s' hmem'

/-- Every typed list of components is put together to a typed value.  The labels a record
constructor does not mention take any values of their types. -/
lemma exists_explode (hhΓ : ∀ t, ∃ v, HasType Γ v t) (hhead : Components Γ head t types)
    (h : List.Forall₂ (HasType Γ) components types) :
    ∃ v, HasType Γ v t ∧ explode head v = some components := by
  cases hhead with
  | data hshape hmem hlen => exact ⟨.data _ _ components, .data hshape hmem h, by simp [explode]⟩
  | record hshape hnodup hlen hlabels =>
    obtain ⟨field, hmap, hfield⟩ := exists_record_field hhΓ (Γ.labels_nodup hshape) hlabels hnodup h
    exact ⟨.record field, .record hshape hfield, by simp [explode, hmap]⟩
  | array hshape =>
    have hlen := h.length_eq
    refine ⟨.array components, .array hshape fun v hv => ?_, by simp [explode, hlen]⟩
    obtain ⟨i, hi, rfl⟩ := mem_iff_getElem.mp hv
    simpa using (forall₂_iff_get.mp h).2 i hi (by simpa [hlen] using hi)
  | boolean hshape =>
    cases h
    exact ⟨_, .boolean hshape, if_pos rfl⟩
  | integer hshape =>
    cases h
    exact ⟨_, .integer hshape, if_pos rfl⟩
  | number hshape =>
    cases h
    exact ⟨_, .number hshape, if_pos ⟨rfl, rfl⟩⟩
  | string hshape =>
    cases h
    exact ⟨_, .string hshape, if_pos rfl⟩
  | char hshape =>
    cases h
    exact ⟨_, .char hshape, if_pos rfl⟩

/-- One value for each cell of a row. -/
lemma exists_values {cells : List (Pattern T)}
    (h : List.Forall₂ (fun p t => ∃ v, HasType Γ v t ∧ Matches p v) cells types) :
    ∃ values, List.Forall₂ (HasType Γ) values types ∧ List.Forall₂ Matches cells values := by
  induction h with
  | nil => exact ⟨[], .nil, .nil⟩
  | cons hcell _ ih =>
    obtain ⟨v, hv, hmatch⟩ := hcell
    obtain ⟨values, htyped, hmatches⟩ := ih
    exact ⟨v :: values, .cons hv htyped, .cons hmatch hmatches⟩

/-- A typed pattern matches a typed value. -/
theorem PatternHasType.exists_matches (hhΓ : ∀ t, ∃ v, HasType Γ v t) {p : Pattern T} {t : T}
    (h : PatternHasType Γ p t) : ∃ v, HasType Γ v t ∧ Matches p v := by
  cases h with
  | wildcard =>
    obtain ⟨v, hv⟩ := hhΓ t
    exact ⟨v, hv, .wildcard⟩
  | @constructor head t t' types hhead hfields =>
    -- one value for each field, by recursion into the fields
    obtain ⟨components, htyped, hmatches⟩ := exists_values <| forall₂_iff_zip.mpr
      ⟨hfields.length_eq, fun {_ _} hmem =>
        have := sizeOf_field_lt t' (of_mem_zip hmem).1
        (forall₂_zip hfields hmem).exists_matches hhΓ⟩
    obtain ⟨v, hv, hexplode⟩ := exists_explode hhΓ hhead htyped
    exact ⟨v, hv, .constructor hexplode hmatches⟩
termination_by sizeOf p
decreasing_by
  subst_vars
  simpa using this

/-! ## Constructors with the same key -/

/-- A value has at most one constructor: two that take it apart have the same key. -/
lemma key_eq_of_explode {components' : List Value} (h : explode head v = some components)
    (h' : explode head' v = some components') : head.key = head'.key := by
  cases v <;> cases head <;> simp only [explode, reduceCtorEq] at h <;> cases head' <;>
    simp only [explode, reduceCtorEq] at h' <;> simp [key] <;>
    split_ifs at h h' <;> grind [Char.toNat_inj]

/-- Constructors with one key take the same values apart. -/
lemma explode_isSome_of_key (v : Value) (h : head.key = head'.key)
    (hsome : (explode head v).isSome) : (explode head' v).isSome := by
  cases head <;> cases head' <;> simp only [key, reduceCtorEq] at h <;>
    cases v <;> simp only [explode] at hsome ⊢ <;> grind

end Iris.Exhaustive
