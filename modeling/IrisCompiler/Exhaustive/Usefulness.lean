import Mathlib.Data.List.Induction
import IrisCompiler.Exhaustive.Patterns

/-!
# The usefulness algorithm

`algorithm_u` decides whether a pattern vector matches a value that no row of a matrix matches,
`algorithm_m` also builds patterns for such values, and `check_exhaustiveness_core` runs the first
on every row against the rows kept so far and the second on a vector of wildcards.

The recursion does not follow the patterns of the vector alone: a wildcard is specialised by every
constructor of the first column, and record alignment may even copy a field.  What always gets
smaller is the multiset of the sizes of the constructor patterns in the matrix and the vector.  A
specialisation takes out the constructor it is about and puts its fields in, and the default matrix
only takes rows out while the number of columns drops.
-/

namespace Iris.Exhaustive

open Descent Multiset

variable {T : Type} {n : ℕ} {expected head : PatternConstructor (Pattern T)} {t : T}
  {cell : Pattern T} {cells : List (Pattern T)} {matrix : PatternMatrix T (n + 1)}
  {vector row : PatternVector T (n + 1)}
  {specialised : PatternVector T (expected.arity + n)}

/-! ## The measure -/

/-- The size of a constructor pattern; a wildcard does not count. -/
noncomputable def Pattern.constructorSize : Pattern T → Option ℕ
  | .wildcard _ => none
  | .constructor head t => some (sizeOf (Pattern.constructor head t))

/-- The sizes of the constructor patterns among some cells. -/
noncomputable def weight (cells : List (Pattern T)) : Multiset ℕ :=
  (cells.filterMap Pattern.constructorSize : List ℕ)

/-- The weight of all the cells of a matrix. -/
noncomputable def matrixWeight (matrix : PatternMatrix T n) : Multiset ℕ :=
  weight (matrix.flatMap List.Vector.toList)

lemma weight_append (cells cells' : List (Pattern T)) :
    weight (cells ++ cells') = weight cells + weight cells' := by
  simp [weight]

lemma weight_cons (cell : Pattern T) (cells : List (Pattern T)) :
    weight (cell :: cells) = weight [cell] + weight cells :=
  weight_append [cell] cells

lemma matrixWeight_cons (row : PatternVector T n) (matrix : PatternMatrix T n) :
    matrixWeight (row :: matrix) = weight row.toList + matrixWeight matrix := by
  simp [matrixWeight, weight_append]

lemma weight_singleton_constructor (head : PatternConstructor (Pattern T)) (t : T) :
    weight [Pattern.constructor head t] = {sizeOf (Pattern.constructor head t)} := rfl

/-- A field is smaller than the pattern it is in. -/
lemma sizeOf_field_lt {field : Pattern T} (t : T)
    (h : field ∈ head.fields) : sizeOf field < sizeOf (Pattern.constructor head t) := by
  cases head <;> simp only [PatternConstructor.fields, List.not_mem_nil] at h
  all_goals
    have := List.sizeOf_lt_of_mem h
    simp only [Pattern.constructor.sizeOf_spec, PatternConstructor.dataConstructor.sizeOf_spec,
      PatternConstructor.record.sizeOf_spec, PatternConstructor.array.sizeOf_spec]
    omega

/-- Cells that are wildcards or fields of one constructor weigh less than that constructor. -/
lemma weight_lt (t : T) (h : ∀ cell ∈ cells, cell.constructorSize = none ∨ cell ∈ head.fields) :
    ∀ size ∈ weight cells, size < sizeOf (Pattern.constructor head t) := by
  intro size hsize
  obtain ⟨cell, hcell, heq⟩ := List.mem_filterMap.mp (Multiset.mem_coe.mp hsize)
  rcases h cell hcell with hwild | hfield
  · simp [hwild] at heq
  · cases cell with
    | wildcard => cases heq
    | constructor inner t' =>
      cases heq
      exact sizeOf_field_lt t hfield

/-- Wildcards weigh nothing. -/
lemma weight_eq_zero (h : ∀ cell ∈ cells, cell.constructorSize = none) : weight cells = 0 := by
  simpa [weight] using h

/-! ## What a specialisation puts in -/

/-- A record brings its own fields, and wildcards for the labels it lacks. -/
lemma mem_specialiseRecordFields {labels : List String} {fields : List (Pattern T)}
    (h : cell ∈ specialiseRecordFields expected labels fields) :
    cell.constructorSize = none ∨ cell ∈ fields := by
  unfold specialiseRecordFields at h
  split at h
  · split at h
    · exact .inr h
    · obtain ⟨⟨label, field⟩, -, heq⟩ := List.mem_map.mp h
      simp only at heq
      split at heq
      · next actual hactual =>
        obtain ⟨position, -, hget⟩ := Option.bind_eq_some_iff.mp hactual
        subst heq
        exact .inr (List.mem_of_getElem? hget)
      · subst heq
        exact .inl rfl
  · exact .inr h

/-- Whatever the constructor, what is put in is a wildcard or a field of the first cell. -/
lemma mem_specialiseFields {first : Pattern T}
    (h : specialiseFields expected first = some cells) (hcell : cell ∈ cells) :
    cell.constructorSize = none ∨ ∃ head t, first = .constructor head t ∧ cell ∈ head.fields := by
  cases first with
  | wildcard t =>
    cases h
    cases hcell
  | constructor head t =>
    have hsub : cell.constructorSize = none ∨ cell ∈ head.fields := by
      simp only [specialiseFields] at h
      split at h
      · cases head <;> simp only [Option.some.injEq] at h <;> subst h
        case record => exact mem_specialiseRecordFields hcell
        case dataConstructor | array => exact .inr hcell
        all_goals cases hcell
      · cases h
    rcases hsub with hwild | hfield
    · exact .inl hwild
    · exact .inr ⟨head, t, rfl, hfield⟩

lemma toList_normaliseSpecialisedFields (expected : PatternConstructor (Pattern T))
    (specialised : List (Pattern T)) :
    (normaliseSpecialisedFields expected specialised).toList =
      specialised.take expected.arity ++
        (expected.fields.drop (specialised.take expected.arity).length).map
          fun expectedField => .wildcard expectedField.t := rfl

/-- Filling up to the arity adds wildcards only. -/
lemma mem_normaliseSpecialisedFields
    (h : cell ∈ (normaliseSpecialisedFields expected cells).toList) :
    cell.constructorSize = none ∨ cell ∈ cells := by
  rcases List.mem_append.mp h with h | h
  · exact .inr (List.mem_of_mem_take h)
  · obtain ⟨field, -, rfl⟩ := List.mem_map.mp h
    exact .inl rfl

/-- A specialised vector is the vector with its first cell replaced by wildcards and by fields of
that cell. -/
lemma specialiseVector_eq (h : specialiseVector expected vector = some specialised) :
    ∃ cells, specialiseFields expected vector.head = some cells ∧
      specialised.toList =
        (normaliseSpecialisedFields expected cells).toList ++ vector.tail.toList := by
  obtain ⟨cells, hcells, rfl⟩ := Option.map_eq_some_iff.mp h
  exact ⟨cells, hcells, List.Vector.toList_append _ _⟩

lemma toList_eq_head_tail (vector : PatternVector T (n + 1)) :
    vector.toList = vector.head :: vector.tail.toList := by
  obtain ⟨head, tail, rfl⟩ := vector.exists_eq_cons
  simp

/-- Specialising a vector that starts with a constructor replaces it by smaller patterns. -/
lemma specialiseVector_descends (h : specialiseVector expected vector = some specialised)
    (hhead : vector.head = .constructor head t) :
    IsDershowitzMannaLT (weight specialised.toList) (weight vector.toList) := by
  obtain ⟨cells, hcells, heq⟩ := specialiseVector_eq h
  rw [heq, toList_eq_head_tail vector, hhead, weight_append, weight_cons]
  refine descends_add_left ?_ (.refl _)
  refine descends_singleton (weight_lt t fun cell hcell => ?_)
  rcases mem_normaliseSpecialisedFields hcell with hwild | hmem
  · exact .inl hwild
  · rcases mem_specialiseFields hcells hmem with hwild | ⟨head', t', hfirst, hfield⟩
    · exact .inl hwild
    · cases hhead.symm.trans hfirst
      exact .inr hfield

/-- Specialising any vector replaces patterns by smaller ones, if any. -/
lemma specialiseVector_shrinks (h : specialiseVector expected vector = some specialised) :
    Shrinks (weight specialised.toList) (weight vector.toList) := by
  cases hhead : vector.head with
  | constructor head t =>
    obtain ⟨X, Y, Z, -, hM, hN, hlt⟩ := specialiseVector_descends h hhead
    exact ⟨X, Y, Z, hM, hN, hlt⟩
  | wildcard t =>
    -- a wildcard is replaced by wildcards, which weigh nothing
    obtain ⟨cells, hcells, heq⟩ := specialiseVector_eq h
    rw [hhead] at hcells
    cases hcells
    rw [heq, toList_eq_head_tail vector, weight_append, weight_cons]
    refine Shrinks.add (.of_le ?_) (.refl _)
    rw [weight_eq_zero fun cell hcell =>
      (mem_normaliseSpecialisedFields hcell).resolve_right (List.not_mem_nil)]
    exact Multiset.zero_le _

/-- What a row weighs once it is specialised; a row that does not stay weighs nothing. -/
noncomputable def specialisedWeight (expected : PatternConstructor (Pattern T))
    (row : PatternVector T (n + 1)) : Multiset ℕ :=
  ((specialiseVector expected row).map fun specialised => weight specialised.toList).getD 0

/-- A specialised matrix weighs what its rows weigh once they are specialised. -/
lemma matrixWeight_specialiseMatrix_cons (expected : PatternConstructor (Pattern T))
    (row : PatternVector T (n + 1)) (matrix : PatternMatrix T (n + 1)) :
    matrixWeight (specialiseMatrix expected (row :: matrix)) =
      specialisedWeight expected row + matrixWeight (specialiseMatrix expected matrix) := by
  cases hrow : specialiseVector expected row with
  | none => simp [specialiseMatrix, specialisedWeight, hrow]
  | some specialised => simp [specialiseMatrix, specialisedWeight, hrow, matrixWeight_cons]

/-- No row gains by being specialised. -/
lemma specialisedWeight_shrinks (expected : PatternConstructor (Pattern T))
    (row : PatternVector T (n + 1)) :
    Shrinks (specialisedWeight expected row) (weight row.toList) := by
  cases hrow : specialiseVector expected row with
  | none => simpa [specialisedWeight, hrow] using Shrinks.of_le (Multiset.zero_le _)
  | some specialised => simpa [specialisedWeight, hrow] using specialiseVector_shrinks hrow

/-- A row that starts with a constructor loses, whether it stays or not. -/
lemma specialisedWeight_descends (hhead : row.head = .constructor head t) :
    IsDershowitzMannaLT (specialisedWeight expected row) (weight row.toList) := by
  cases hrow : specialiseVector expected row with
  | none =>
    refine (eq_or_descends_of_le ?_).resolve_left ?_ <;>
      simp [specialisedWeight, hrow, toList_eq_head_tail row, hhead, weight_cons _ row.tail.toList,
        weight_singleton_constructor]
  | some specialised => simpa [specialisedWeight, hrow] using specialiseVector_descends hrow hhead

/-- No matrix gains by being specialised. -/
lemma specialiseMatrix_shrinks (expected : PatternConstructor (Pattern T))
    (matrix : PatternMatrix T (n + 1)) :
    Shrinks (matrixWeight (specialiseMatrix expected matrix)) (matrixWeight matrix) := by
  induction matrix with
  | nil => exact .refl _
  | cons row matrix ih =>
    rw [matrixWeight_cons, matrixWeight_specialiseMatrix_cons]
    exact (specialisedWeight_shrinks expected row).add ih

/-- Specialising by a constructor while some row starts with a constructor takes one out. -/
lemma specialiseMatrix_descends (expected : PatternConstructor (Pattern T)) (hrow : row ∈ matrix)
    (hhead : row.head = .constructor head t) :
    IsDershowitzMannaLT (matrixWeight (specialiseMatrix expected matrix))
      (matrixWeight matrix) := by
  induction matrix with
  | nil => cases hrow
  | cons first matrix ih =>
    rw [matrixWeight_cons, matrixWeight_specialiseMatrix_cons]
    rcases List.mem_cons.mp hrow with rfl | hmem
    · exact descends_add_left (specialisedWeight_descends hhead)
        (specialiseMatrix_shrinks expected matrix)
    · exact descends_add_right (specialisedWeight_shrinks expected first) (ih hmem)

/-- The default matrix is made of tails of rows. -/
lemma defaultMatrix_weight_le (matrix : PatternMatrix T (n + 1)) :
    matrixWeight (defaultMatrix matrix) ≤ matrixWeight matrix := by
  induction matrix with
  | nil => exact le_rfl
  | cons row matrix ih =>
    rw [matrixWeight_cons]
    cases hhead : row.head with
    | constructor head t =>
      rw [defaultMatrix, List.filterMap_cons_none (by simp [hhead])]
      exact ih.trans (Multiset.le_add_left _ _)
    | wildcard t =>
      rw [defaultMatrix, List.filterMap_cons_some (b := row.tail) (by simp [hhead]),
        matrixWeight_cons, toList_eq_head_tail row, weight_cons]
      exact add_le_add (Multiset.le_add_left _ _) ih

/-! ## The constructors of the first column -/

/-- What the loop over the rows has collected: the keys it has seen are those of the constructors it
kept, each kept constructor starts some row, and each row's constructor has its key seen. -/
lemma distinctConstructors_spec (matrix : PatternMatrix T (n + 1)) :
    (∀ key, key ∈ (distinctConstructors matrix).1 ↔
        ∃ head ∈ (distinctConstructors matrix).2, head.key = key) ∧
      (∀ head ∈ (distinctConstructors matrix).2, ∃ row ∈ matrix, ∃ t,
        row.head = .constructor head t) ∧
      ∀ row ∈ matrix, ∀ head t, row.head = .constructor head t →
        head.key ∈ (distinctConstructors matrix).1 := by
  induction matrix using List.reverseRecOn with
  | nil => simp [distinctConstructors]
  | append_singleton rows last ih =>
    obtain ⟨hkeys, hrows, hseen⟩ := ih
    have hstep : distinctConstructors (rows ++ [last]) =
        collectRow (distinctConstructors rows) last := by
      simp [distinctConstructors]
    have hold : ∀ head ∈ (distinctConstructors rows).2,
        ∃ row ∈ rows ++ [last], ∃ t, row.head = .constructor head t := by
      intro head hhead
      obtain ⟨row, hrow, t, heq⟩ := hrows head hhead
      exact ⟨row, List.mem_append_left _ hrow, t, heq⟩
    rw [hstep]
    simp only [List.forall_mem_append, List.forall_mem_singleton]
    cases hlast : last.head with
    | wildcard t =>
      simp only [collectRow, hlast]
      exact ⟨hkeys, hold, hseen, by simp⟩
    | constructor new t =>
      simp only [collectRow, hlast]
      split_ifs with hmem
      · refine ⟨hkeys, hold, hseen, ?_⟩
        rintro _ _ ⟨⟩
        exact hmem
      · refine ⟨fun key => ?_, fun head hhead => ?_, fun row hrow head t' heq => ?_, ?_⟩
        · simp only [List.mem_cons, List.mem_append, List.mem_nil_iff, or_false, hkeys key]
          constructor
          · rintro (rfl | ⟨head, hhead, rfl⟩)
            · exact ⟨new, .inr rfl, rfl⟩
            · exact ⟨head, .inl hhead, rfl⟩
          · rintro ⟨head, hhead | rfl, rfl⟩
            · exact .inr ⟨head, hhead, rfl⟩
            · exact .inl rfl
        · rcases List.mem_append.mp hhead with hhead | hhead
          · exact hold head hhead
          · cases List.mem_singleton.mp hhead
            exact ⟨last, by simp, t, hlast⟩
        · exact List.mem_cons_of_mem _ (hseen row hrow head t' heq)
        · rintro _ _ ⟨⟩
          exact List.mem_cons_self

/-- A constructor of the sigma is the canonical form of one that starts a row. -/
lemma exists_row_of_mem_collectSigma (h : expected ∈ collectSigma matrix) :
    ∃ row ∈ matrix, ∃ head t, row.head = .constructor head t ∧
      expected = canonicaliseRecordConstructor head matrix := by
  obtain ⟨head, hhead, rfl⟩ := List.mem_map.mp h
  obtain ⟨row, hrow, t, heq⟩ := (distinctConstructors_spec matrix).2.1 head hhead
  exact ⟨row, hrow, head, t, heq, rfl⟩

/-! ## The algorithms -/

section Algorithms

/-- The descent into the default matrix: no more weight, and one column less. -/
lemma default_measure (matrix : PatternMatrix T (n + 1)) (vector : PatternVector T (n + 1)) :
    Prod.Lex IsDershowitzMannaLT (· < ·)
      (matrixWeight (defaultMatrix matrix) + weight vector.tail.toList, n)
      (matrixWeight matrix + weight vector.toList, n + 1) := by
  have hle : matrixWeight (defaultMatrix matrix) + weight vector.tail.toList ≤
      matrixWeight matrix + weight vector.toList := by
    rw [toList_eq_head_tail vector, weight_cons]
    exact add_le_add (defaultMatrix_weight_le matrix) (Multiset.le_add_left _ _)
  rcases eq_or_descends_of_le hle with heq | hlt
  · rw [heq]
    exact Prod.Lex.right _ (Nat.lt_succ_self n)
  · exact Prod.Lex.left _ _ hlt

/-- The descent into a constructor of the sigma: some row starts with it. -/
lemma sigma_measure (hmem : expected ∈ collectSigma matrix)
    (h : specialiseVector expected vector = some specialised) :
    IsDershowitzMannaLT
      (matrixWeight (specialiseMatrix expected matrix) + weight specialised.toList)
      (matrixWeight matrix + weight vector.toList) := by
  obtain ⟨row, hrow, head, t, heq, -⟩ := exists_row_of_mem_collectSigma hmem
  exact descends_add_left (specialiseMatrix_descends _ hrow heq) (specialiseVector_shrinks h)

/-- The descent into the constructor of the vector. -/
lemma constructor_measure (hhead : vector.head = .constructor head t)
    (h : specialiseVector expected vector = some specialised) :
    IsDershowitzMannaLT
      (matrixWeight (specialiseMatrix expected matrix) + weight specialised.toList)
      (matrixWeight matrix + weight vector.toList) :=
  descends_add_right (specialiseMatrix_shrinks _ _) (specialiseVector_descends h hhead)

/-- `algorithm_u`: whether the vector matches a value that no row matches.  A vector specialised by
its own constructor, or a wildcard by any, always stays; the source marks the other case
unreachable. -/
def algorithmU (queries : Queries T) : {n : ℕ} → PatternMatrix T n → PatternVector T n → Bool
  | 0, matrix, _ => matrix.isEmpty
  | n + 1, matrix, vector =>
    if matrix.isEmpty then true
    else
      match _ : vector.head with
      | .constructor head _ =>
        let constructor := canonicaliseRecordConstructor head matrix
        match _ : specialiseVector constructor vector with
        | some specialised => algorithmU queries (specialiseMatrix constructor matrix) specialised
        | none => false
      | .wildcard _ =>
        let sigma := collectSigma matrix
        if sigmaIsComplete queries sigma then
          sigma.attach.any fun ⟨constructor, _⟩ =>
            match _ : specialiseVector constructor vector with
            | some specialised =>
              algorithmU queries (specialiseMatrix constructor matrix) specialised
            | none => false
        else algorithmU queries (defaultMatrix matrix) vector.tail
termination_by n matrix vector => (matrixWeight matrix + weight vector.toList, n)
decreasing_by
  · exact Prod.Lex.left _ _ (constructor_measure (by assumption) (by assumption))
  · exact Prod.Lex.left _ _ (sigma_measure (by assumption) (by assumption))
  · exact default_measure matrix vector

/-- A witness for the specialised columns, with the constructor put together again. -/
def rebuildWitness (constructor : PatternConstructor (Pattern T)) (t : T)
    (witness : PatternVector T (constructor.arity + n)) : PatternVector T (n + 1) :=
  ⟨.constructor (constructor.reconstruct (witness.toList.take constructor.arity)) t ::
      witness.toList.drop constructor.arity, by simp⟩

/-- `algorithm_m`: pattern vectors for values the vector matches and no row does. -/
def algorithmM (queries : Queries T) :
    {n : ℕ} → PatternMatrix T n → PatternVector T n → Option (List (PatternVector T n))
  | 0, matrix, vector => if matrix.isEmpty then some [vector] else none
  | n + 1, matrix, vector =>
    if matrix.isEmpty then some [vector]
    else
      match _ : vector.head with
      | .constructor head t =>
        let constructor := canonicaliseRecordConstructor head matrix
        match _ : specialiseVector constructor vector with
        | some specialised =>
          (algorithmM queries (specialiseMatrix constructor matrix) specialised).map
            (List.map (rebuildWitness constructor t))
        | none => none
      | .wildcard t =>
        let sigma := collectSigma matrix
        if sigmaIsComplete queries sigma then
          let allWitnesses := sigma.attach.flatMap fun ⟨constructor, _⟩ =>
            match _ : specialiseVector constructor vector with
            | some specialised =>
              ((algorithmM queries (specialiseMatrix constructor matrix) specialised).getD []).map
                (rebuildWitness constructor t)
            | none => []
          if allWitnesses.isEmpty then none else some allWitnesses
        else
          (algorithmM queries (defaultMatrix matrix) vector.tail).map fun witnesses =>
            -- only the first missing constructor is reported
            let firstColumn := (firstMissingConstructor queries t sigma).getD (.wildcard t)
            witnesses.map (List.Vector.cons firstColumn)
termination_by n matrix vector => (matrixWeight matrix + weight vector.toList, n)
decreasing_by
  · exact Prod.Lex.left _ _ (constructor_measure (by assumption) (by assumption))
  · exact Prod.Lex.left _ _ (sigma_measure (by assumption) (by assumption))
  · exact default_measure matrix vector

end Algorithms

/-! ## One turn

A vector specialised by its own constructor, or a wildcard by any, stays.  So the algorithms leave
the first column in one of three ways: along the constructor of the vector, along every constructor
of a complete sigma, or along the default matrix. -/

lemma matches_iff_key (head head' : PatternConstructor (Pattern T)) :
    head.matches head' = true ↔ head.key = head'.key := by
  cases head <;> cases head' <;> simp [PatternConstructor.matches, PatternConstructor.key]

/-- The canonical form of a constructor keeps its key. -/
lemma canonicaliseRecordConstructor_key (head : PatternConstructor (Pattern T))
    (matrix : PatternMatrix T (n + 1)) :
    (canonicaliseRecordConstructor head matrix).key = head.key := by
  unfold canonicaliseRecordConstructor
  split
  · split
    · rfl
    · split_ifs <;> rfl
  · rfl

/-- A vector that starts with a wildcard stays, whatever the constructor. -/
lemma specialiseVector_wildcard (hhead : vector.head = .wildcard t)
    (expected : PatternConstructor (Pattern T)) :
    ∃ specialised, specialiseVector expected vector = some specialised := by
  rw [← Option.isSome_iff_exists, specialiseVector, hhead]
  rfl

/-- A vector stays when it is specialised by its own constructor. -/
lemma specialiseVector_own (hhead : vector.head = .constructor head t)
    (hkey : head.key = expected.key) :
    ∃ specialised, specialiseVector expected vector = some specialised := by
  have hmatches := (matches_iff_key _ _).mpr hkey
  rw [specialiseVector, hhead]
  cases head <;> simp [specialiseFields, hmatches]

section Turn

variable {queries : Queries T}

lemma algorithmU_nil (vector : PatternVector T n) : algorithmU queries [] vector = true := by
  cases n <;> simp [algorithmU]

lemma algorithmU_zero {matrix : PatternMatrix T 0} (vector : PatternVector T 0)
    (hne : matrix ≠ []) : algorithmU queries matrix vector = false := by
  simp [algorithmU, hne]

/-- A turn of `algorithm_u` along the constructor of the vector. -/
lemma algorithmU_constructor (hne : matrix ≠ []) (hhead : vector.head = .constructor head t)
    {specialised : PatternVector T ((canonicaliseRecordConstructor head matrix).arity + n)}
    (h : specialiseVector (canonicaliseRecordConstructor head matrix) vector = some specialised) :
    algorithmU queries matrix vector =
      algorithmU queries (specialiseMatrix (canonicaliseRecordConstructor head matrix) matrix)
        specialised := by
  rw [algorithmU, if_neg (by simpa using hne)]
  split
  · next hhead' =>
    cases hhead.symm.trans hhead'
    dsimp only
    split
    · next h' => rw [Option.some.inj (h.symm.trans h')]
    · next hnone => cases h.symm.trans hnone
  · next hhead' => cases hhead.symm.trans hhead'

/-- A turn of `algorithm_u` along a complete sigma. -/
lemma algorithmU_sigma (hne : matrix ≠ []) (hhead : vector.head = .wildcard t)
    (hcomplete : sigmaIsComplete queries (collectSigma matrix) = true) :
    algorithmU queries matrix vector =
      (collectSigma matrix).any fun constructor =>
        (specialiseVector constructor vector).any fun specialised =>
          algorithmU queries (specialiseMatrix constructor matrix) specialised := by
  rw [algorithmU, if_neg (by simpa using hne)]
  split
  · next hhead' => cases hhead.symm.trans hhead'
  · rw [if_pos hcomplete]
    conv_rhs => rw [← List.attach_map_subtype_val (collectSigma matrix), List.any_map]
    congr 1
    funext ⟨constructor, _⟩
    simp only [Function.comp_apply]
    split <;> simp [*]

/-- A turn of `algorithm_u` along the default matrix. -/
lemma algorithmU_default (hne : matrix ≠ []) (hhead : vector.head = .wildcard t)
    (hincomplete : ¬ sigmaIsComplete queries (collectSigma matrix) = true) :
    algorithmU queries matrix vector = algorithmU queries (defaultMatrix matrix) vector.tail := by
  rw [algorithmU, if_neg (by simpa using hne)]
  split
  · next hhead' => cases hhead.symm.trans hhead'
  · rw [if_neg hincomplete]

lemma algorithmM_nil (vector : PatternVector T n) :
    algorithmM queries [] vector = some [vector] := by
  cases n <;> simp [algorithmM]

lemma algorithmM_zero {matrix : PatternMatrix T 0} (vector : PatternVector T 0)
    (hne : matrix ≠ []) : algorithmM queries matrix vector = none := by
  simp [algorithmM, hne]

/-- A turn of `algorithm_m` along the constructor of the vector. -/
lemma algorithmM_constructor (hne : matrix ≠ []) (hhead : vector.head = .constructor head t)
    {specialised : PatternVector T ((canonicaliseRecordConstructor head matrix).arity + n)}
    (h : specialiseVector (canonicaliseRecordConstructor head matrix) vector = some specialised) :
    algorithmM queries matrix vector =
      (algorithmM queries (specialiseMatrix (canonicaliseRecordConstructor head matrix) matrix)
        specialised).map
          (List.map (rebuildWitness (canonicaliseRecordConstructor head matrix) t)) := by
  rw [algorithmM, if_neg (by simpa using hne)]
  split
  · next hhead' =>
    cases hhead.symm.trans hhead'
    dsimp only
    split
    · next h' => rw [Option.some.inj (h.symm.trans h')]
    · next hnone => cases h.symm.trans hnone
  · next hhead' => cases hhead.symm.trans hhead'

/-- The witnesses along one constructor of the sigma. -/
def sigmaWitnesses (queries : Queries T) (matrix : PatternMatrix T (n + 1))
    (vector : PatternVector T (n + 1)) (t : T) (constructor : PatternConstructor (Pattern T)) :
    List (PatternVector T (n + 1)) :=
  (((specialiseVector constructor vector).bind fun specialised =>
    algorithmM queries (specialiseMatrix constructor matrix) specialised).getD []).map
      (rebuildWitness constructor t)

/-- A turn of `algorithm_m` along a complete sigma. -/
lemma algorithmM_sigma (hne : matrix ≠ []) (hhead : vector.head = .wildcard t)
    (hcomplete : sigmaIsComplete queries (collectSigma matrix) = true) :
    algorithmM queries matrix vector =
      if ((collectSigma matrix).flatMap (sigmaWitnesses queries matrix vector t)).isEmpty then none
      else some ((collectSigma matrix).flatMap (sigmaWitnesses queries matrix vector t)) := by
  rw [algorithmM, if_neg (by simpa using hne)]
  split
  · next hhead' => cases hhead.symm.trans hhead'
  · next t' hhead' =>
    cases hhead.symm.trans hhead'
    have heach : ∀ constructor,
        (match _ : specialiseVector constructor vector with
          | some specialised =>
            ((algorithmM queries (specialiseMatrix constructor matrix) specialised).getD []).map
              (rebuildWitness constructor t)
          | none => []) = sigmaWitnesses queries matrix vector t constructor := by
      intro constructor
      dsimp only [sigmaWitnesses]
      split <;> simp [*]
    have hflat : (collectSigma matrix).attach.flatMap
        (fun constructor => sigmaWitnesses queries matrix vector t constructor.1) =
        (collectSigma matrix).flatMap (sigmaWitnesses queries matrix vector t) := by
      conv_rhs => rw [← List.attach_map_subtype_val (collectSigma matrix), List.flatMap_map]
    rw [if_pos hcomplete]
    simp [heach]

/-- A turn of `algorithm_m` along the default matrix. -/
lemma algorithmM_default (hne : matrix ≠ []) (hhead : vector.head = .wildcard t)
    (hincomplete : ¬ sigmaIsComplete queries (collectSigma matrix) = true) :
    algorithmM queries matrix vector =
      (algorithmM queries (defaultMatrix matrix) vector.tail).map (List.map (List.Vector.cons
        ((firstMissingConstructor queries t (collectSigma matrix)).getD (.wildcard t)))) := by
  rw [algorithmM, if_neg (by simpa using hne)]
  split
  · next hhead' => cases hhead.symm.trans hhead'
  · next t' hhead' =>
    cases hhead.symm.trans hhead'
    rw [if_neg hincomplete]

end Turn

/-- **Induction over the columns, as the algorithms leave them.** -/
theorem columnInduction {motive : ∀ n : ℕ, PatternMatrix T n → PatternVector T n → Prop}
    (nil : ∀ {n : ℕ} (vector : PatternVector T n), motive n [] vector)
    (zero : ∀ {matrix : PatternMatrix T 0} (vector : PatternVector T 0), matrix ≠ [] →
      motive 0 matrix vector)
    (constructor : ∀ {n : ℕ} {matrix : PatternMatrix T (n + 1)} {vector : PatternVector T (n + 1)}
      {head : PatternConstructor (Pattern T)} {t : T}
      {specialised : PatternVector T ((canonicaliseRecordConstructor head matrix).arity + n)},
      matrix ≠ [] → vector.head = .constructor head t →
      specialiseVector (canonicaliseRecordConstructor head matrix) vector = some specialised →
      motive _ (specialiseMatrix (canonicaliseRecordConstructor head matrix) matrix) specialised →
      motive _ matrix vector)
    (wildcard : ∀ {n : ℕ} {matrix : PatternMatrix T (n + 1)} {vector : PatternVector T (n + 1)}
      {t : T}, matrix ≠ [] → vector.head = .wildcard t →
      (∀ constructor ∈ collectSigma matrix, ∃ specialised,
        specialiseVector constructor vector = some specialised ∧
          motive _ (specialiseMatrix constructor matrix) specialised) →
      motive n (defaultMatrix matrix) vector.tail → motive _ matrix vector)
    (n : ℕ) (matrix : PatternMatrix T n) (vector : PatternVector T n) : motive n matrix vector := by
  by_cases hne : matrix = []
  · exact hne ▸ nil vector
  · match n, matrix, vector with
    | 0, matrix, vector => exact zero vector hne
    | n + 1, matrix, vector =>
      cases hhead : vector.head with
      | constructor head t =>
        obtain ⟨specialised, h⟩ :=
          specialiseVector_own hhead (canonicaliseRecordConstructor_key head matrix).symm
        exact constructor hne hhead h
          (columnInduction nil zero constructor wildcard _ _ specialised)
      | wildcard t =>
        refine wildcard hne hhead (fun expected hmem => ?_)
          (columnInduction nil zero constructor wildcard _ _ vector.tail)
        obtain ⟨specialised, h⟩ := specialiseVector_wildcard hhead expected
        exact ⟨specialised, h, columnInduction nil zero constructor wildcard _ _ specialised⟩
termination_by (matrixWeight matrix + weight vector.toList, n)
decreasing_by
  · exact Prod.Lex.left _ _ (sigma_measure hmem h)
  · exact default_measure matrix vector
  · exact Prod.Lex.left _ _ (constructor_measure hhead h)

/-- `ExhaustivenessReport`, with the pattern vectors instead of their printed texts. -/
structure ExhaustivenessReport (T : Type) (n : ℕ) where
  missing : Option (List (PatternVector T n))
  redundant : List (PatternVector T n)

/-- One turn of the loop over the rows: a useful row joins the matrix, another is redundant. -/
def checkRow (queries : Queries T) (checked : PatternMatrix T n × List (PatternVector T n))
    (vector : PatternVector T n) : PatternMatrix T n × List (PatternVector T n) :=
  if algorithmU queries checked.1 vector then (checked.1 ++ [vector], checked.2)
  else (checked.1, checked.2 ++ [vector])

/-- The rows kept and the redundant rows. -/
def checkRows (queries : Queries T) (unconditional : PatternMatrix T n) :
    PatternMatrix T n × List (PatternVector T n) :=
  unconditional.foldl (checkRow queries) ([], [])

/-- `check_exhaustiveness_core`.  At most five missing patterns are reported. -/
def checkExhaustivenessCore (queries : Queries T) (patternTypes : List.Vector T n)
    (unconditional : PatternMatrix T n) : ExhaustivenessReport T n :=
  let query := patternTypes.map Pattern.wildcard
  { missing := (algorithmM queries unconditional query).map (List.take 5)
    redundant := (checkRows queries unconditional).2 }

end Iris.Exhaustive
