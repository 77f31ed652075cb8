import Mathlib.Data.Set.Finite.Lattice
import IrisCompiler.Exhaustive.Specialisation

/-!
# The report is exact

Usefulness of a vector means a value vector it matches and no row does.  The algorithm decides this
by opening the first column: along the vector's own constructor, along every constructor of the
column when those are all there are, and otherwise along a constructor the column does not have,
which only the rows that start with a wildcard can match.
-/

namespace Iris.Exhaustive

open Descent List Option PatternConstructor

variable {T : Type} {n : ℕ} {Γ : Typing T}

/-- Some value vector is matched by the vector and by no row of the matrix. -/
def Useful (Γ : Typing T) (types : List T) (matrix : PatternMatrix T n)
    (vector : PatternVector T n) : Prop :=
  ∃ values, List.Forall₂ (HasType Γ) values types ∧ List.Forall₂ Matches vector.toList values ∧
    ∀ row ∈ matrix, ¬ List.Forall₂ Matches row.toList values

/-- The row's patterns have the types of the columns. -/
def RowHasType (Γ : Typing T) (types : List T) (row : PatternVector T n) : Prop :=
  List.Forall₂ (PatternHasType Γ) row.toList types

/-! ## Rows and their first column -/

section Columns

variable {expected : PatternConstructor (Pattern T)} {t t' : T} {componentTypes types : List T}
  {row vector : PatternVector T (n + 1)} {matrix : PatternMatrix T (n + 1)}
  {specialised : PatternVector T (expected.arity + n)} {v : Value}

/-- The vector is useful at a value that the constructor takes apart. -/
def UsefulAt (Γ : Typing T) (t : T) (types : List T) (matrix : PatternMatrix T (n + 1))
    (vector : PatternVector T (n + 1)) (constructor : PatternConstructor (Pattern T)) : Prop :=
  ∃ v values, HasType Γ v t ∧ List.Forall₂ (HasType Γ) values types ∧
    (explode constructor v).isSome ∧ List.Forall₂ Matches vector.toList (v :: values) ∧
    ∀ row ∈ matrix, ¬ List.Forall₂ Matches row.toList (v :: values)

lemma UsefulAt.useful (h : UsefulAt Γ t types matrix vector expected) :
    Useful Γ (t :: types) matrix vector := by
  obtain ⟨v, values, hv, hvalues, -, hmatch, hnone⟩ := h
  exact ⟨v :: values, .cons hv hvalues, hmatch, hnone⟩

lemma forall₂_append_iff {α β : Type} {R : α → β → Prop} {xs xs' : List α} {ys ys' : List β}
    (hlen : xs.length = ys.length) :
    List.Forall₂ R (xs ++ xs') (ys ++ ys') ↔ List.Forall₂ R xs ys ∧ List.Forall₂ R xs' ys' := by
  induction xs generalizing ys with
  | nil =>
    obtain rfl : ys = [] := length_eq_zero_iff.mp hlen.symm
    simp
  | cons x xs ih =>
    cases ys with
    | nil => simp at hlen
    | cons y ys => simp [ih (by simpa using hlen), and_assoc]

lemma RowHasType.head (h : RowHasType Γ (t :: types) row) : PatternHasType Γ row.head t := by
  rw [RowHasType, toList_eq_head_tail] at h
  exact (forall₂_cons.mp h).1

lemma RowHasType.tail (h : RowHasType Γ (t :: types) row) : RowHasType Γ types row.tail := by
  rw [RowHasType, toList_eq_head_tail] at h
  exact (forall₂_cons.mp h).2

variable {head : PatternConstructor (Pattern T)}

lemma matches_row_iff (row : PatternVector T (n + 1)) (v : Value) (values : List Value) :
    List.Forall₂ Matches row.toList (v :: values) ↔
      Matches row.head v ∧ List.Forall₂ Matches row.tail.toList values := by
  rw [toList_eq_head_tail, forall₂_cons]

/-- A row matches a value vector exactly when the specialised row matches the opened one. -/
lemma matches_row_iff_specialised {components values : List Value}
    (hexpected : Components Γ expected t componentTypes)
    (hrow : RowHasType Γ (t :: types) row) (hcovers : Covers expected row.head)
    (hv : HasType Γ v t) (h : explode expected v = some components) :
    List.Forall₂ Matches row.toList (v :: values) ↔
      ∃ specialised, specialiseVector expected row = some specialised ∧
        List.Forall₂ Matches specialised.toList (components ++ values) := by
  have hlen : components.length = expected.arity :=
    (hv.components hexpected h).length_eq.trans hexpected.arity_eq
  rw [matches_row_iff, matches_iff_specialised hexpected hrow.head hcovers hv h]
  simp only [specialiseVector, map_eq_some_iff]
  constructor
  · rintro ⟨⟨cells, hcells, hmatches⟩, htail⟩
    refine ⟨_, ⟨cells, hcells, rfl⟩, ?_⟩
    rw [List.Vector.toList_append, forall₂_append_iff (by simp [hlen])]
    exact ⟨hmatches, htail⟩
  · rintro ⟨_, ⟨cells, hcells, rfl⟩, hmatches⟩
    rw [List.Vector.toList_append, forall₂_append_iff (by simp [hlen])] at hmatches
    exact ⟨⟨cells, hcells, hmatches.1⟩, hmatches.2⟩

lemma RowHasType.specialise
    (hexpected : Components Γ expected t componentTypes) (hrow : RowHasType Γ (t :: types) row)
    (h : specialiseVector expected row = some specialised) :
    RowHasType Γ (componentTypes ++ types) specialised := by
  obtain ⟨cells, hcells, heq⟩ := specialiseVector_eq h
  rw [RowHasType, heq]
  exact rel_append (specialiseFields_typed hexpected hrow.head hcells) hrow.tail

/-- Being useful for the specialised columns is being useful at a value with that constructor. -/
lemma useful_specialise_iff (hhΓ : ∀ t, ∃ v, HasType Γ v t)
    (hexpected : Components Γ expected t componentTypes)
    (hmatrix : ∀ row ∈ matrix, RowHasType Γ (t :: types) row ∧ Covers expected row.head)
    (hvector : RowHasType Γ (t :: types) vector) (hcovers : Covers expected vector.head)
    (h : specialiseVector expected vector = some specialised) :
    Useful Γ (componentTypes ++ types) (specialiseMatrix expected matrix) specialised ↔
      UsefulAt Γ t types matrix vector expected := by
  -- the rows that match are the same on both sides
  have hrows : ∀ {v : Value} {components values : List Value}, HasType Γ v t →
      explode expected v = some components →
      ((∀ row ∈ specialiseMatrix expected matrix,
          ¬ List.Forall₂ Matches row.toList (components ++ values)) ↔
        ∀ row ∈ matrix, ¬ List.Forall₂ Matches row.toList (v :: values)) := by
    intro v components values hv hexplode
    constructor
    · intro hnone row hrow hmatch
      obtain ⟨row', hrow', hmatch'⟩ := (matches_row_iff_specialised hexpected (hmatrix row hrow).1
        (hmatrix row hrow).2 hv hexplode).mp hmatch
      exact hnone row' (mem_filterMap.mpr ⟨row, hrow, hrow'⟩) hmatch'
    · intro hnone row' hrow' hmatch'
      obtain ⟨row, hrow, heq⟩ := mem_filterMap.mp hrow'
      exact hnone row hrow ((matches_row_iff_specialised hexpected (hmatrix row hrow).1
        (hmatrix row hrow).2 hv hexplode).mpr ⟨row', heq, hmatch'⟩)
  constructor
  · rintro ⟨all, htyped, hmatch, hnone⟩
    obtain ⟨components, values, hcomponents, hvalues, rfl⟩ : ∃ components values,
        List.Forall₂ (HasType Γ) components componentTypes ∧
          List.Forall₂ (HasType Γ) values types ∧ all = components ++ values :=
      ⟨_, _, forall₂_take_append _ _ _ htyped, forall₂_drop_append _ _ _ htyped,
        (take_append_drop _ _).symm⟩
    obtain ⟨v, hv, hexplode⟩ := exists_explode hhΓ hexpected hcomponents
    refine ⟨v, values, hv, hvalues, by simp [hexplode], ?_, (hrows hv hexplode).mp hnone⟩
    exact (matches_row_iff_specialised hexpected hvector hcovers hv hexplode).mpr
      ⟨specialised, h, hmatch⟩
  · rintro ⟨v, values, hv, hvalues, hsome, hmatch, hnone⟩
    obtain ⟨components, hexplode⟩ := isSome_iff_exists.mp hsome
    obtain ⟨specialised', h', hmatch'⟩ :=
      (matches_row_iff_specialised hexpected hvector hcovers hv hexplode).mp hmatch
    cases h.symm.trans h'
    exact ⟨components ++ values, rel_append (hv.components hexpected hexplode) hvalues, hmatch',
      (hrows hv hexplode).mpr hnone⟩

/-! ## The first column -/

section Heads

variable (hrows : ∀ row ∈ matrix, PatternHasType Γ row.head t)

include hrows

/-- A constructor of the sigma belongs to the type of the column and mentions every label there. -/
lemma collectSigma_spec
    {constructor : PatternConstructor (Pattern T)} (h : constructor ∈ collectSigma matrix) :
    (∃ types, Components Γ constructor t types) ∧ ∀ row ∈ matrix, Covers constructor row.head := by
  obtain ⟨row, hrow, head, t', heq, rfl⟩ := exists_row_of_mem_collectSigma h
  have htyped := hrows row hrow
  rw [heq] at htyped
  obtain _ | ⟨hhead, -⟩ := htyped
  obtain ⟨hcomponents, -, hcovers, -⟩ := canonicaliseRecordConstructor_spec hhead hrows
  exact ⟨hcomponents, hcovers⟩

/-- Every constructor that starts a row has its key in the sigma. -/
lemma exists_key_mem_collectSigma (hrow : row ∈ matrix) (hhead : row.head = .constructor head t') :
    ∃ constructor ∈ collectSigma matrix, constructor.key = head.key := by
  obtain ⟨hkeys, hstart, hseen⟩ := distinctConstructors_spec matrix
  obtain ⟨kept, hkept, hkey⟩ := (hkeys _).mp (hseen row hrow head t' hhead)
  obtain ⟨row', hrow', t'', heq⟩ := hstart kept hkept
  have htyped := hrows row' hrow'
  rw [heq] at htyped
  obtain _ | ⟨hcomponents, -⟩ := htyped
  refine ⟨_, mem_map_of_mem hkept, ?_⟩
  rw [(canonicaliseRecordConstructor_spec hcomponents hrows).2.1, hkey]

/-- A row that starts with a constructor does not match a value that the sigma leaves out. -/
lemma not_matches_of_explode_none
    (hv : ∀ constructor ∈ collectSigma matrix, explode constructor v = none) (hrow : row ∈ matrix)
    (hhead : row.head = .constructor head t') :
    ¬ Matches row.head v := by
  rw [hhead]
  rintro (_ | ⟨hexplode, -⟩)
  obtain ⟨constructor, hconstructor, hkey⟩ := exists_key_mem_collectSigma hrows hrow hhead
  have := explode_isSome_of_key v hkey.symm (by simp [hexplode])
  simp [hv constructor hconstructor] at this

end Heads

variable {sigma : List (PatternConstructor (Pattern T))}

/-- **A complete sigma leaves no value out.** -/
lemma exists_explode_of_complete
    (hsigma : ∀ constructor ∈ sigma, ∃ types, Components Γ constructor t types)
    (hcomplete : sigmaIsComplete Γ.toQueries sigma = true) (hv : HasType Γ v t) :
    ∃ constructor ∈ sigma, (explode constructor v).isSome := by
  cases sigma with
  | nil => simp [sigmaIsComplete] at hcomplete
  | cons first rest =>
    obtain ⟨types, hfirst⟩ := hsigma first mem_cons_self
    cases hfirst with
    | record hshape =>
      cases hv <;> simp_all [explode]
    | @data t fileId typeId constructors itemId types fields hshape hmem _ =>
      have hall : ∀ termId ∈ Γ.dataConstructors fileId typeId,
          ∃ constructor ∈ .dataConstructor fileId itemId fields :: rest,
            constructor.isItem termId = true := by
        simpa [sigmaIsComplete, Γ.constructor_known hshape hmem] using hcomplete
      cases hv with
      | record hshape' _ | array hshape' _ => cases hshape.symm.trans hshape'
      | boolean hshape' | integer hshape' | number hshape' | string hshape' | char hshape'
      | other hshape' => cases hshape.symm.trans hshape'
      | @data _ _ _ _ itemId' types' values hshape' hmem' _ =>
      cases hshape.symm.trans hshape'
      have hknown := (Γ.constructors_known hshape itemId').mpr (mem_map_of_mem hmem')
      obtain ⟨constructor, hconstructor, hitem⟩ := hall itemId' hknown
      refine ⟨constructor, hconstructor, ?_⟩
      -- the constructor found belongs to the same data type, so also to the same file
      obtain ⟨_, htyped⟩ := hsigma constructor hconstructor
      cases htyped <;> simp_all [isItem, explode]
    | @boolean t b' hshape =>
      have hboth : ∀ b, ∃ constructor ∈ .boolean b' :: rest, constructor.isBoolean b = true := by
        simp only [sigmaIsComplete, Bool.and_eq_true, List.any_eq_true] at hcomplete
        exact fun b => b.rec hcomplete.2 hcomplete.1
      cases hv <;> simp_all only [reduceCtorEq]
      next b _ =>
      obtain ⟨constructor, hconstructor, hb⟩ := hboth b
      refine ⟨constructor, hconstructor, ?_⟩
      cases constructor <;> simp_all [isBoolean, explode]
    | array | integer | number | string | char => simp [sigmaIsComplete] at hcomplete

/-- In an infinite family of values, each with another constructor, finitely many constructors leave
one out. -/
lemma exists_not_explode {α : Type} [Infinite α] (value : α → Value)
    (hvalue : ∀ (constructor : PatternConstructor (Pattern T)) a a',
      (explode constructor (value a)).isSome → (explode constructor (value a')).isSome → a = a')
    (sigma : List (PatternConstructor (Pattern T))) :
    ∃ a, ∀ constructor ∈ sigma, explode constructor (value a) = none := by
  have hfinite : (⋃ constructor ∈ {c | c ∈ sigma},
      {a | (explode constructor (value a)).isSome}).Finite := by
    refine Set.Finite.biUnion (finite_toSet sigma) fun constructor _ => ?_
    exact Set.Subsingleton.finite fun a ha a' ha' => hvalue constructor a a' ha ha'
  obtain ⟨a, ha⟩ := hfinite.exists_notMem
  refine ⟨a, fun constructor hconstructor => ?_⟩
  simp only [Set.mem_ofPred_eq, Set.mem_iUnion, not_exists, Bool.not_eq_true,
    isSome_eq_false_iff, isNone_iff_eq_none] at ha
  exact ha constructor hconstructor

/-- **An incomplete sigma leaves a value out.** -/
lemma exists_not_explode_of_incomplete (hhΓ : ∀ t, ∃ v, HasType Γ v t)
    (hsigma : ∀ constructor ∈ sigma, ∃ types, Components Γ constructor t types)
    (hincomplete : sigmaIsComplete Γ.toQueries sigma = false) :
    ∃ v, HasType Γ v t ∧ ∀ constructor ∈ sigma, explode constructor v = none := by
  cases sigma with
  | nil =>
    obtain ⟨v, hv⟩ := hhΓ t
    exact ⟨v, hv, by simp⟩
  | cons first rest =>
    obtain ⟨types, hfirst⟩ := hsigma first mem_cons_self
    cases hfirst with
    | record => simp [sigmaIsComplete] at hincomplete
    | @data t fileId typeId constructors itemId types fields hshape hmem _ =>
      obtain ⟨termId, hterm, hmissing⟩ : ∃ termId ∈ Γ.dataConstructors fileId typeId,
          ∀ constructor ∈ .dataConstructor fileId itemId fields :: rest,
            constructor.isItem termId = false := by
        simpa [sigmaIsComplete, Γ.constructor_known hshape hmem] using hincomplete
      obtain ⟨⟨_, types'⟩, hmem', rfl⟩ :=
        mem_map.mp ((Γ.constructors_known hshape termId).mp hterm)
      obtain ⟨values, hvalues⟩ :=
        exists_forall₂ (R := flip (HasType Γ)) fun s (_ : s ∈ types') => hhΓ s
      refine ⟨_, .data hshape hmem' hvalues.flip, fun constructor hconstructor => ?_⟩
      have := hmissing constructor hconstructor
      cases constructor <;> simp_all [isItem, explode]
    | @boolean t b' hshape =>
      obtain ⟨b, hmissing⟩ : ∃ b, ∀ constructor ∈ .boolean b' :: rest,
          constructor.isBoolean b = false := by
        simp only [sigmaIsComplete, Bool.and_eq_false_iff, List.any_eq_false,
          Bool.not_eq_true] at hincomplete
        exact hincomplete.elim (⟨true, ·⟩) (⟨false, ·⟩)
      refine ⟨.boolean b, .boolean hshape, fun constructor hconstructor => ?_⟩
      have := hmissing constructor hconstructor
      cases constructor <;> simp_all [isBoolean, explode]
    | @array t element fields hshape =>
      obtain ⟨v, hv⟩ := hhΓ element
      obtain ⟨length, hlength⟩ :=
        exists_not_explode (fun length => .array (List.replicate length v))
        (by intro c a a'; cases c <;> simp +contextual [explode]) (.array fields :: rest)
      exact ⟨_, .array hshape fun u hu => eq_of_mem_replicate hu ▸ hv, hlength⟩
    | @integer t i hshape =>
      obtain ⟨i', hi'⟩ := exists_not_explode Value.integer
        (by intro c a a'; cases c <;> simp +contextual [explode]) (.integer i :: rest)
      exact ⟨_, .integer hshape, hi'⟩
    | @number t negative v hshape =>
      obtain ⟨k, hk⟩ := exists_not_explode
        (fun k => .number false (String.ofList (List.replicate k '0')))
        (by intro c a a'; cases c <;> simp +contextual [explode, String.ofList_inj])
        (.number negative v :: rest)
      exact ⟨_, .number hshape, hk⟩
    | @string t s hshape =>
      obtain ⟨s', hs'⟩ := exists_not_explode Value.string
        (by intro c a a'; cases c <;> simp +contextual [explode]) (.string s :: rest)
      exact ⟨_, .string hshape, hs'⟩
    | @char t c hshape =>
      obtain ⟨code, hcode⟩ := exists_not_explode Value.char
        (by intro c a a'; cases c <;> simp +contextual [explode]) (.char c :: rest)
      exact ⟨_, .char hshape, hcode⟩

section Typed

variable (hhΓ : ∀ t, ∃ v, HasType Γ v t) (hmatrix : ∀ row ∈ matrix, RowHasType Γ (t :: types) row)

include hmatrix

/-- A value that the sigma leaves out can stand before the values that the default matrix leaves
out. -/
lemma useful_cons_of_default (hv : HasType Γ v t)
    (hout : ∀ constructor ∈ collectSigma matrix, explode constructor v = none) {first : Pattern T}
    (hfirst : Matches first v) {rest : PatternVector T n}
    (h : Useful Γ types (defaultMatrix matrix) rest) :
    Useful Γ (t :: types) matrix (List.Vector.cons first rest) := by
  obtain ⟨values, hvalues, hmatch, hnone⟩ := h
  refine ⟨v :: values, .cons hv hvalues, ?_, fun row hrow => ?_⟩
  · exact .cons hfirst hmatch
  · rw [matches_row_iff]
    rintro ⟨hrowFirst, hrest⟩
    cases hrowHead : row.head with
    | constructor head t' =>
      have hrows : ∀ row ∈ matrix, PatternHasType Γ row.head t :=
        fun row hrow => (hmatrix row hrow).head
      exact not_matches_of_explode_none hrows hout hrow hrowHead hrowFirst
    | wildcard t' =>
      refine hnone row.tail (mem_filterMap.mpr ⟨row, hrow, ?_⟩) hrest
      simp [hrowHead]

include hhΓ

/-- With an incomplete sigma the first column can be left out: the rows that can match a value the
sigma leaves out are those of the default matrix. -/
lemma useful_default_iff
    (hincomplete : sigmaIsComplete Γ.toQueries (collectSigma matrix) = false)
    (hhead : vector.head = .wildcard t') :
    Useful Γ types (defaultMatrix matrix) vector.tail ↔ Useful Γ (t :: types) matrix vector := by
  have hrows : ∀ row ∈ matrix, PatternHasType Γ row.head t :=
    fun row hrow => (hmatrix row hrow).head
  constructor
  · intro h
    obtain ⟨v, hv, hout⟩ := exists_not_explode_of_incomplete hhΓ
      (fun constructor h => (collectSigma_spec hrows h).1) hincomplete
    rw [← vector.cons_head_tail]
    exact useful_cons_of_default hmatrix hv hout (hhead ▸ .wildcard) h
  · rintro ⟨all, htyped, hmatch, hnone⟩
    obtain _ | ⟨hv, hvalues⟩ := htyped
    next v values =>
    refine ⟨values, hvalues, ((matches_row_iff _ _ _).mp hmatch).2, fun row hrow hrest => ?_⟩
    obtain ⟨full, hfull, heq⟩ := mem_filterMap.mp hrow
    cases hfullHead : full.head with
    | constructor head t'' => simp [hfullHead] at heq
    | wildcard t'' =>
      simp only [hfullHead, Option.some.injEq] at heq
      subst heq
      exact hnone full hfull ((matches_row_iff _ _ _).mpr ⟨hfullHead ▸ .wildcard, hrest⟩)

variable (hvector : RowHasType Γ (t :: types) vector)

include hvector

/-- A vector that starts with a constructor is useful exactly when it is at the values with that
constructor, opened along its canonical form. -/
lemma useful_constructor_iff (hhead : vector.head = .constructor head t') :
    ∃ specialised componentTypes,
      specialiseVector (canonicaliseRecordConstructor head matrix) vector = some specialised ∧
      Components Γ (canonicaliseRecordConstructor head matrix) t componentTypes ∧
      (Useful Γ (componentTypes ++ types)
          (specialiseMatrix (canonicaliseRecordConstructor head matrix) matrix) specialised ↔
        Useful Γ (t :: types) matrix vector) := by
  have htyped := hvector.head
  rw [hhead] at htyped
  obtain _ | ⟨hcomponents, -⟩ := htyped
  obtain ⟨⟨componentTypes, hcanonical⟩, hkey, hcovers, hown⟩ :=
    canonicaliseRecordConstructor_spec hcomponents fun row hrow => (hmatrix row hrow).head
  obtain ⟨specialised, hspecialised⟩ := specialiseVector_own hhead hkey.symm
  refine ⟨specialised, componentTypes, hspecialised, hcanonical, ?_⟩
  rw [useful_specialise_iff hhΓ hcanonical (fun row hrow => ⟨hmatrix row hrow, hcovers row hrow⟩)
    hvector (hhead ▸ hown t') hspecialised]
  refine ⟨UsefulAt.useful, ?_⟩
  -- the vector's own constructor opens every value it matches
  rintro ⟨all, htyped, hmatch, hnone⟩
  obtain _ | ⟨hv, hvalues⟩ := htyped
  have hfirst := ((matches_row_iff _ _ _).mp hmatch).1
  rw [hhead] at hfirst
  obtain _ | ⟨hexplode, -⟩ := hfirst
  exact ⟨_, _, hv, hvalues, explode_isSome_of_key _ hkey.symm (by simp [hexplode]), hmatch, hnone⟩

/-- A vector that starts with a wildcard, opened along one constructor of the sigma. -/
lemma useful_sigma (hhead : vector.head = .wildcard t') (hmem : expected ∈ collectSigma matrix) :
    ∃ specialised componentTypes, specialiseVector expected vector = some specialised ∧
      Components Γ expected t componentTypes ∧
      (Useful Γ (componentTypes ++ types) (specialiseMatrix expected matrix) specialised ↔
        UsefulAt Γ t types matrix vector expected) := by
  obtain ⟨⟨componentTypes, hcomponents⟩, hcovers⟩ :=
    collectSigma_spec (fun row hrow => (hmatrix row hrow).head) hmem
  obtain ⟨specialised, hspecialised⟩ := specialiseVector_wildcard hhead expected
  refine ⟨specialised, componentTypes, hspecialised, hcomponents, ?_⟩
  refine useful_specialise_iff hhΓ hcomponents
    (fun row hrow => ⟨hmatrix row hrow, hcovers row hrow⟩) hvector ?_ hspecialised
  intro labels fields t'' _ _ heq
  cases hhead.symm.trans heq

end Typed

/-! ## The algorithms -/

lemma RowHasType.of_mem_specialiseMatrix (hexpected : Components Γ expected t componentTypes)
    (hmatrix : ∀ row ∈ matrix, RowHasType Γ (t :: types) row)
    {row : PatternVector T (expected.arity + n)} (h : row ∈ specialiseMatrix expected matrix) :
    RowHasType Γ (componentTypes ++ types) row := by
  obtain ⟨full, hfull, heq⟩ := mem_filterMap.mp h
  exact (hmatrix full hfull).specialise hexpected heq

lemma RowHasType.of_mem_defaultMatrix
    (hmatrix : ∀ row ∈ matrix, RowHasType Γ (t :: types) row) {row : PatternVector T n}
    (h : row ∈ defaultMatrix matrix) : RowHasType Γ types row := by
  obtain ⟨full, hfull, heq⟩ := mem_filterMap.mp h
  split at heq
  · cases heq
    exact (hmatrix full hfull).tail
  · cases heq

/-- Any vector is useful against an empty matrix. -/
lemma useful_nil (hhΓ : ∀ t, ∃ v, HasType Γ v t) {vector : PatternVector T n}
    (h : RowHasType Γ types vector) : Useful Γ types [] vector := by
  obtain ⟨values, hvalues, hmatches⟩ :=
    exists_values (h.imp fun _ _ hcell => hcell.exists_matches hhΓ)
  exact ⟨values, hvalues, hmatches, by simp⟩

/-- Without columns a vector is not useful against a row. -/
lemma not_useful_zero {matrix : PatternMatrix T 0} {row vector : PatternVector T 0}
    (hrow : row ∈ matrix) : ¬ Useful Γ types matrix vector := by
  rintro ⟨values, -, hmatch, hnone⟩
  refine hnone row hrow ?_
  rwa [row.eq_nil, ← vector.eq_nil]

lemma RowHasType.exists_cons (h : RowHasType Γ types row) : ∃ t types', types = t :: types' := by
  cases types with
  | nil => simpa using h.length_eq
  | cons t types => exact ⟨t, types, rfl⟩

end Columns

/-- **`algorithm_u` decides usefulness.** -/
theorem algorithmU_iff (hhΓ : ∀ t, ∃ v, HasType Γ v t) {n : ℕ} (matrix : PatternMatrix T n)
    (vector : PatternVector T n) (types : List T) (hmatrix : ∀ row ∈ matrix, RowHasType Γ types row)
    (hvector : RowHasType Γ types vector) :
    algorithmU Γ.toQueries matrix vector = true ↔ Useful Γ types matrix vector := by
  induction n, matrix, vector using columnInduction generalizing types with
  | nil vector => simp [algorithmU_nil, useful_nil hhΓ hvector]
  | zero vector hne =>
    obtain ⟨first, hfirst⟩ := exists_mem_of_ne_nil _ hne
    simp [algorithmU_zero vector hne, not_useful_zero hfirst]
  | @constructor n matrix vector head t' specialised hne hhead h ih =>
    obtain ⟨t, types, rfl⟩ := hvector.exists_cons
    obtain ⟨specialised', componentTypes, h', hcomponents, hiff⟩ :=
      useful_constructor_iff hhΓ hmatrix hvector hhead
    cases h.symm.trans h'
    rw [algorithmU_constructor hne hhead h, ← hiff]
    exact ih _ (fun row hrow => .of_mem_specialiseMatrix hcomponents hmatrix hrow)
      (hvector.specialise hcomponents h)
  | @wildcard n matrix vector t' hne hhead ihsigma ihdefault =>
    obtain ⟨t, types, rfl⟩ := hvector.exists_cons
    by_cases hcomplete : sigmaIsComplete Γ.toQueries (collectSigma matrix) = true
    · -- along one constructor, what is useful is a value with that constructor
      have hopen : ∀ constructor ∈ collectSigma matrix,
          ((specialiseVector constructor vector).any fun specialised =>
            algorithmU Γ.toQueries (specialiseMatrix constructor matrix) specialised) = true ↔
          UsefulAt Γ t types matrix vector constructor := by
        intro constructor hmem
        obtain ⟨specialised, componentTypes, h, hcomponents, hiff⟩ :=
          useful_sigma hhΓ hmatrix hvector hhead hmem
        obtain ⟨specialised', h', ih⟩ := ihsigma constructor hmem
        cases h.symm.trans h'
        rw [h, ← hiff]
        exact ih _ (fun row hrow => .of_mem_specialiseMatrix hcomponents hmatrix hrow)
          (hvector.specialise hcomponents h)
      rw [algorithmU_sigma hne hhead hcomplete, List.any_eq_true]
      constructor
      · rintro ⟨constructor, hmem, hresult⟩
        exact ((hopen constructor hmem).mp hresult).useful
      · rintro ⟨all, htyped, hmatch, hnone⟩
        obtain _ | ⟨hv, hvalues⟩ := htyped
        obtain ⟨constructor, hmem, hsome⟩ := exists_explode_of_complete
          (fun constructor h =>
            (collectSigma_spec (fun row hrow => (hmatrix row hrow).head) h).1) hcomplete hv
        exact ⟨constructor, hmem, (hopen constructor hmem).mpr
          ⟨_, _, hv, hvalues, hsome, hmatch, hnone⟩⟩
    · rw [algorithmU_default hne hhead hcomplete,
        ← useful_default_iff hhΓ hmatrix (by simpa using hcomplete) hhead]
      exact ihdefault types (fun row hrow => .of_mem_defaultMatrix hmatrix hrow) hvector.tail

/-- `algorithm_m` finds witnesses exactly when `algorithm_u` says the vector is useful. -/
theorem algorithmM_spec (queries : Queries T) {n : ℕ} (matrix : PatternMatrix T n)
    (vector : PatternVector T n) :
    ((algorithmM queries matrix vector).isSome = algorithmU queries matrix vector) ∧
      algorithmM queries matrix vector ≠ some [] := by
  induction n, matrix, vector using columnInduction with
  | nil vector => simp [algorithmU_nil, algorithmM_nil]
  | zero vector hne => simp [algorithmU_zero vector hne, algorithmM_zero vector hne]
  | constructor hne hhead h ih =>
    rw [algorithmU_constructor hne hhead h, algorithmM_constructor hne hhead h]
    simpa using ih
  | @wildcard n matrix vector t hne hhead ihsigma ihdefault =>
    by_cases hcomplete : sigmaIsComplete queries (collectSigma matrix) = true
    · have hitem : ∀ constructor ∈ collectSigma matrix,
          (sigmaWitnesses queries matrix vector t constructor = [] ↔
            ¬ ((specialiseVector constructor vector).any fun specialised =>
              algorithmU queries (specialiseMatrix constructor matrix) specialised) = true) := by
        intro constructor hmem
        obtain ⟨specialised, h, hsome, hne⟩ := ihsigma constructor hmem
        rw [sigmaWitnesses, h, any_some, ← hsome, bind_some]
        cases hresult : algorithmM queries (specialiseMatrix constructor matrix) specialised with
        | none => simp
        | some witnesses => simpa [hresult] using hne
      rw [algorithmU_sigma hne hhead hcomplete, algorithmM_sigma hne hhead hcomplete]
      split_ifs with hempty
      · refine ⟨?_, by simp⟩
        rw [Option.isSome_none, eq_comm, List.any_eq_false]
        rw [List.isEmpty_iff, List.flatMap_eq_nil_iff] at hempty
        exact fun constructor hmem => (hitem constructor hmem).mp (hempty constructor hmem)
      · refine ⟨?_, by simpa using hempty⟩
        rw [Option.isSome_some, eq_comm, List.any_eq_true]
        simp only [List.isEmpty_iff, List.flatMap_eq_nil_iff, not_forall] at hempty
        obtain ⟨constructor, hmem, hne⟩ := hempty
        exact ⟨constructor, hmem, not_not.mp (mt (hitem constructor hmem).mpr hne)⟩
    · rw [algorithmU_default hne hhead hcomplete, algorithmM_default hne hhead hcomplete]
      simpa using ihdefault

/-! ## The report -/

/-- Every value vector that a row matches is matched by an earlier row. -/
def RedundantAt (Γ : Typing T) (types : List T) (rows : PatternMatrix T n) (index : ℕ) : Prop :=
  ∀ row, rows[index]? = some row → ∀ values, List.Forall₂ (HasType Γ) values types →
    List.Forall₂ Matches row.toList values →
    ∃ earlier ∈ rows.take index, List.Forall₂ Matches earlier.toList values

open Classical in
/-- The rows whose every match is matched earlier, in their order. -/
noncomputable def coveredRows (Γ : Typing T) (types : List T) (rows : PatternMatrix T n) :
    List (PatternVector T n) :=
  ((List.range rows.length).filter fun index => RedundantAt Γ types rows index).filterMap (rows[·]?)

lemma coveredRows_concat (types : List T) (rows : PatternMatrix T n) (row : PatternVector T n) :
    coveredRows Γ types (rows ++ [row]) =
      coveredRows Γ types rows ++
        open Classical in if Useful Γ types rows row then [] else [row] := by
  classical
  have hold : ∀ index < rows.length,
      (RedundantAt Γ types (rows ++ [row]) index ↔ RedundantAt Γ types rows index) := by
    intro index hindex
    simp [RedundantAt, getElem?_append_left hindex, take_append_of_le_length hindex.le]
  have hnew : RedundantAt Γ types (rows ++ [row]) rows.length ↔ ¬ Useful Γ types rows row := by
    simp [RedundantAt, Useful]
  have hfilter : ((List.range rows.length).filter fun index =>
        RedundantAt Γ types (rows ++ [row]) index).filterMap ((rows ++ [row])[·]?) =
      coveredRows Γ types rows := by
    have hcongr : ((List.range rows.length).filter fun index =>
          decide (RedundantAt Γ types (rows ++ [row]) index)) =
        (List.range rows.length).filter fun index => decide (RedundantAt Γ types rows index) :=
      filter_congr fun index hindex => by
        rw [decide_eq_decide]
        exact hold index (mem_range.mp hindex)
    rw [hcongr]
    refine filterMap_congr fun index hindex => ?_
    have := mem_range.mp (mem_of_mem_filter hindex)
    exact getElem?_append_left this
  rw [coveredRows, length_append, length_singleton, range_succ, filter_append,
    filterMap_append, hfilter]
  by_cases huseful : Useful Γ types rows row
  · simp [hnew, huseful]
  · simp [hnew, huseful]

/-- What the loop over the rows has built: the kept rows match what all rows match, and the other
rows are the covered ones. -/
lemma checkRows_spec (hhΓ : ∀ t, ∃ v, HasType Γ v t) {types : List T} {rows : PatternMatrix T n}
    (hrows : ∀ row ∈ rows, RowHasType Γ types row) :
    (∀ row ∈ (checkRows Γ.toQueries rows).1, row ∈ rows) ∧
      (∀ values, List.Forall₂ (HasType Γ) values types →
        (∃ row ∈ rows, List.Forall₂ Matches row.toList values) →
        ∃ row ∈ (checkRows Γ.toQueries rows).1, List.Forall₂ Matches row.toList values) ∧
      (checkRows Γ.toQueries rows).2 = coveredRows Γ types rows := by
  induction rows using List.reverseRecOn with
  | nil => simp [checkRows, coveredRows]
  | append_singleton rows last ih =>
    have hbefore : ∀ row ∈ rows, RowHasType Γ types row :=
      fun row hrow => hrows row (mem_append_left _ hrow)
    obtain ⟨hsub, hcover, hredundant⟩ := ih hbefore
    have hstep : checkRows Γ.toQueries (rows ++ [last]) =
        checkRow Γ.toQueries (checkRows Γ.toQueries rows) last := by
      simp [checkRows]
    -- the kept rows decide usefulness like all rows before
    have huseful : algorithmU Γ.toQueries (checkRows Γ.toQueries rows).1 last = true ↔
        Useful Γ types rows last := by
      rw [algorithmU_iff hhΓ _ _ types (fun row hrow => hbefore row (hsub row hrow))
        (hrows last (by simp))]
      constructor
      · rintro ⟨values, hvalues, hmatch, hnone⟩
        refine ⟨values, hvalues, hmatch, fun row hrow hrowMatch => ?_⟩
        obtain ⟨row', hrow', hmatch'⟩ := hcover values hvalues ⟨row, hrow, hrowMatch⟩
        exact hnone row' hrow' hmatch'
      · rintro ⟨values, hvalues, hmatch, hnone⟩
        exact ⟨values, hvalues, hmatch, fun row hrow => hnone row (hsub row hrow)⟩
    rw [hstep, checkRow, coveredRows_concat]
    by_cases hlast : Useful Γ types rows last
    · rw [if_pos (huseful.mpr hlast), if_pos hlast]
      refine ⟨?_, ?_, by simpa using hredundant⟩
      · rw [forall_mem_append]
        exact ⟨fun row hrow => mem_append_left _ (hsub row hrow), fun row hrow =>
          mem_append_right _ hrow⟩
      · rintro values hvalues ⟨row, hrow, hmatch⟩
        rcases mem_append.mp hrow with hrow | hrow
        · obtain ⟨row', hrow', hmatch'⟩ := hcover values hvalues ⟨row, hrow, hmatch⟩
          exact ⟨row', mem_append_left _ hrow', hmatch'⟩
        · exact ⟨row, mem_append_right _ hrow, hmatch⟩
    · rw [if_neg (mt huseful.mp hlast), if_neg hlast, hredundant]
      refine ⟨fun row hrow => mem_append_left _ (hsub row hrow), ?_, rfl⟩
      rintro values hvalues ⟨row, hrow, hmatch⟩
      rcases mem_append.mp hrow with hrow | hrow
      · exact hcover values hvalues ⟨row, hrow, hmatch⟩
      · -- what a row that is not useful matches, an earlier row matches
        cases mem_singleton.mp hrow
        refine hcover values hvalues ?_
        by_contra hnone
        exact hlast ⟨values, hvalues, hmatch, fun row hrow hm => hnone ⟨row, hrow, hm⟩⟩

/-- **The exhaustiveness report is exact.**  No pattern is reported missing exactly when every value
vector is matched by some row, and the rows reported redundant are exactly those all of whose
matches are matched by earlier rows. -/
theorem exhaustiveness_exact (Γ : Typing T) (hhΓ : ∀ t, ∃ v, HasType Γ v t)
    (patternTypes : List.Vector T n) (rows : PatternMatrix T n)
    (hrows : ∀ row ∈ rows, RowHasType Γ patternTypes.toList row) :
    ((checkExhaustivenessCore Γ.toQueries patternTypes rows).missing = none ↔
        ∀ values, List.Forall₂ (HasType Γ) values patternTypes.toList →
          ∃ row ∈ rows, List.Forall₂ Matches row.toList values) ∧
      (checkExhaustivenessCore Γ.toQueries patternTypes rows).redundant =
        coveredRows Γ patternTypes.toList rows := by
  refine ⟨?_, (checkRows_spec hhΓ hrows).2.2⟩
  have hquery : RowHasType Γ patternTypes.toList (patternTypes.map Pattern.wildcard) := by
    rw [RowHasType, List.Vector.toList_map, List.forall₂_map_left_iff, List.forall₂_same]
    exact fun _ _ => .wildcard
  have hwild : ∀ values, List.Forall₂ (HasType Γ) values patternTypes.toList →
      List.Forall₂ Matches (patternTypes.map Pattern.wildcard).toList values := by
    intro values hvalues
    rw [List.Vector.toList_map, List.forall₂_map_left_iff]
    exact List.forall₂_iff_get.mpr ⟨hvalues.length_eq.symm, fun _ _ _ => .wildcard⟩
  have hmissing : (checkExhaustivenessCore Γ.toQueries patternTypes rows).missing = none ↔
      ¬ Useful Γ patternTypes.toList rows (patternTypes.map Pattern.wildcard) := by
    rw [← algorithmU_iff hhΓ rows _ _ hrows hquery, ← (algorithmM_spec Γ.toQueries rows _).1]
    simp [checkExhaustivenessCore]
  rw [hmissing]
  constructor
  · intro hnot values hvalues
    by_contra hnone
    exact hnot ⟨values, hvalues, hwild values hvalues, fun row hrow hm => hnone ⟨row, hrow, hm⟩⟩
  · rintro hall ⟨values, hvalues, -, hnone⟩
    obtain ⟨row, hrow, hmatch⟩ := hall values hvalues
    exact hnone row hrow hmatch

/-- `Maybe Boolean` (`true`) and `Boolean` (`false`), where `Nothing` is item 0 and `Just` item 1 of
type 0 in file 0. -/
def maybeTyping : Typing Bool where
  constructorType _ _ := some 0
  dataConstructors _ _ := [0, 1]
  constructorFieldTypes _ termId _ := if termId = 1 then [false] else []
  shape t := if t then .data 0 0 [(0, []), (1, [false])] else .boolean
  constructor_known {t} _ _ _ hshape _ _ _ := by
    cases t <;> simp at hshape
    simp [hshape.2.1.symm]
  constructors_known {t} _ _ _ hshape _ := by
    cases t <;> simp at hshape
    obtain ⟨rfl, rfl, rfl⟩ := hshape
    simp
  constructors_nodup {t} _ _ _ hshape := by
    cases t <;> simp at hshape
    obtain ⟨rfl, rfl, rfl⟩ := hshape
    simp
  labels_nodup {t} _ hshape := by cases t <;> simp at hshape

/-- The rows `Nothing` and `Just true`. -/
def maybeRows : PatternMatrix Bool 1 :=
  [⟨[.constructor (.dataConstructor 0 0 []) true], rfl⟩,
    ⟨[.constructor (.dataConstructor 0 1 [.constructor (.boolean true) false]) true], rfl⟩]

lemma maybe_hasType {itemId : ℕ} {types : List Bool} {fields : List Value}
    (hmem : (itemId, types) ∈ [(0, []), (1, [false])])
    (hfields : List.Forall₂ (HasType maybeTyping) fields types) :
    HasType maybeTyping (.data 0 itemId fields) true :=
  .data rfl hmem hfields

lemma maybe_inhabited : ∀ t, ∃ v, HasType maybeTyping v t
  | true => ⟨.data 0 0 [], maybe_hasType mem_cons_self .nil⟩
  | false => ⟨.boolean true, .boolean rfl⟩

lemma maybeRows_typed : ∀ row ∈ maybeRows, RowHasType maybeTyping [true] row := by
  intro row hrow
  rcases mem_pair.mp hrow with rfl | rfl
  · exact .cons (.constructor (.data rfl mem_cons_self rfl) .nil) .nil
  · exact .cons (.constructor (.data rfl (mem_cons_of_mem _ mem_cons_self) rfl)
      (.cons (.constructor (.boolean rfl) .nil) .nil)) .nil

/-- `Just false` is a value that neither row matches. -/
lemma maybeRows_justFalse : HasType maybeTyping (.data 0 1 [.boolean false]) true ∧
    ∀ row ∈ maybeRows, ¬ List.Forall₂ Matches row.toList [.data 0 1 [.boolean false]] := by
  refine ⟨maybe_hasType (mem_cons_of_mem _ mem_cons_self) (.cons (.boolean rfl) .nil), ?_⟩
  intro row hrow hmatch
  rcases mem_pair.mp hrow with rfl | rfl
  · obtain ⟨_ | ⟨hexplode, -⟩, -⟩ := forall₂_cons.mp hmatch
    simp [explode] at hexplode
  · obtain ⟨_ | ⟨hexplode, hfields⟩, -⟩ := forall₂_cons.mp hmatch
    cases hexplode
    obtain ⟨_ | ⟨hfalse, -⟩, -⟩ := forall₂_cons.mp hfields
    simp [explode] at hfalse

theorem exhaustiveness_exact_maybe :
    (checkExhaustivenessCore maybeTyping.toQueries ⟨[true], rfl⟩ maybeRows).missing ≠ none := by
  intro hmissing
  obtain ⟨htyped, hnone⟩ := maybeRows_justFalse
  obtain ⟨row, hrow, hmatch⟩ := (exhaustiveness_exact maybeTyping maybe_inhabited ⟨[true], rfl⟩
    maybeRows maybeRows_typed).1.mp hmissing _ (.cons htyped .nil)
  exact hnone row hrow hmatch

end Iris.Exhaustive
