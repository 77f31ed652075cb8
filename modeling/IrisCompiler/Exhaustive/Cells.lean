import Mathlib.Order.Filter.AtTopBot.Basic
import Mathlib.Order.Filter.Finite
import IrisCompiler.Exhaustive.Usefulness

/-!
# Matrices as the checker stores them

`PatternMatrix` keeps its cells in one vector and cuts the rows out of it.  Here the places where
the checker gives up are explicit: an `unreachable!`, a failed assertion, an index, a slice or a
difference out of range.  The recursion is bounded by fuel.

Nothing is assumed of the types of the patterns, so a column may hold constructors of several types,
and one constructor with several numbers of arguments.  That no such place is met rests on the
widths alone: specialised fields are cut and filled to the arity of the expected constructor, so a
rectangular matrix stays one.  The algorithms then return what they return on the matrices of
`Patterns.lean`, and their descent bounds the fuel.
-/

namespace Iris.Exhaustive

variable {T : Type} {n : ℕ}

/-- What stops the checker. -/
inductive Stop where
  | unreachable
  | assertion
  | range
  | fuel
  deriving DecidableEq

/-- `PatternMatrix`, as it is stored. -/
structure FlatMatrix (T : Type) where
  cells : List (Pattern T)
  rows : ℕ
  columns : ℕ

/-- A row of patterns, as a slice. -/
abbrev Cells (T : Type) := List (Pattern T)

/-! ## The code -/

/-- `PatternRows::next`, until no row remains. -/
def rowsFrom (columns : ℕ) : (remaining : ℕ) → Cells T → Except Stop (List (Cells T))
  | 0, _ => return []
  | remaining + 1, cells => do
    if cells.length < columns then throw .range
    return cells.take columns :: (← rowsFrom columns remaining (cells.drop columns))

namespace FlatMatrix

def iter (self : FlatMatrix T) : Except Stop (List (Cells T)) :=
  rowsFrom self.columns self.rows self.cells

def push (self : FlatMatrix T) (row : Cells T) : Except Stop (FlatMatrix T) := do
  if row.length ≠ self.columns then throw .assertion
  return { self with cells := self.cells ++ row, rows := self.rows + 1 }

end FlatMatrix

/-- The first cells of the rows; `canonicalise_record_constructor` and `collect_sigma` look at these
only, and skip a row without cells. -/
def firstColumn (rows : List (Cells T)) : PatternMatrix T 1 :=
  (rows.filterMap List.head?).map fun first => .cons first .nil

/-- `normalise_specialised_fields`, on the cells that `initialLength` others stand before. -/
def normaliseFields (expected : PatternConstructor (Pattern T)) (initialLength : ℕ)
    (specialised : Cells T) : Except Stop (Cells T) := do
  let specialised := specialised.take (initialLength + expected.fields.length)
  if specialised.length < initialLength then throw .range
  let actualFields := specialised.length - initialLength
  if expected.fields.length < actualFields then throw .range
  return specialised ++ (expected.fields.drop actualFields).map fun field => .wildcard field.t

/-- `specialise_vector_into`; nothing for a vector that starts with another constructor. -/
def specialiseVectorInto (expected : PatternConstructor (Pattern T))
    (vector specialised : Cells T) :
    Except Stop (Option (Cells T)) := do
  match vector with
  | [] => throw .unreachable
  | first :: tailColumns =>
    match specialiseFields expected first with
    | none => return none
    | some fields =>
      return some ((← normaliseFields expected specialised.length (specialised ++ fields)) ++
        tailColumns)

/-- `vector_matches_constructor` and `row[0]`, as far as they can fail. -/
def expectCell (stop : Stop) (row : Cells T) : Except Stop Unit :=
  if row.isEmpty then throw stop else return

/-- One turn of the loop of `specialise_matrix`. -/
def specialiseRow (expected : PatternConstructor (Pattern T)) (specialised : FlatMatrix T)
    (row : Cells T) : Except Stop (FlatMatrix T) := do
  match ← specialiseVectorInto expected row specialised.cells with
  | some cells =>
    if cells.length - specialised.cells.length ≠ specialised.columns then throw .assertion
    return { specialised with cells := cells, rows := specialised.rows + 1 }
  | none => return specialised

/-- `specialise_matrix` -/
def specialiseFlatMatrix (expected : PatternConstructor (Pattern T)) (matrix : FlatMatrix T) :
    Except Stop (FlatMatrix T) := do
  if matrix.columns = 0 then throw .range
  let columns := matrix.columns - 1 + expected.arity
  let rows ← matrix.iter
  -- the matching rows are counted first
  if columns ≠ 0 then rows.forM (expectCell .unreachable)
  rows.foldlM (specialiseRow expected) ⟨[], 0, columns⟩

/-- One turn of the loop of `default_matrix`. -/
def defaultRow (default : FlatMatrix T) : Cells T → Except Stop (FlatMatrix T)
  | [] => throw .unreachable
  | .wildcard _ :: defaultColumns => default.push defaultColumns
  | .constructor _ _ :: _ => return default

/-- `default_matrix` -/
def defaultFlatMatrix (matrix : FlatMatrix T) : Except Stop (FlatMatrix T) := do
  if matrix.columns = 0 then throw .range
  let columns := matrix.columns - 1
  let rows ← matrix.iter
  if columns ≠ 0 then rows.forM (expectCell .range)
  rows.foldlM defaultRow ⟨[], 0, columns⟩

/-- The matrix and the vector specialised by one constructor.  A vector that starts with another is
marked unreachable. -/
def specialiseBoth (expected : PatternConstructor (Pattern T)) (matrix : FlatMatrix T)
    (vector : Cells T) : Except Stop (FlatMatrix T × Cells T) := do
  let matrix ← specialiseFlatMatrix expected matrix
  if vector.length = 0 then throw .range
  match ← specialiseVectorInto expected vector [] with
  | some vector => return (matrix, vector)
  | none => throw .unreachable

/-- `algorithm_u` -/
def flatU (queries : Queries T) : ℕ → FlatMatrix T → Cells T → Except Stop Bool
  | 0, _, _ => throw .fuel
  | fuel + 1, matrix, vector => do
    if matrix.rows = 0 then return true
    match vector with
    | [] => return false
    | .constructor head _ :: _ =>
      let constructor := canonicaliseRecordConstructor head (firstColumn (← matrix.iter))
      let (matrix, vector) ← specialiseBoth constructor matrix vector
      flatU queries fuel matrix vector
    | .wildcard _ :: tailColumns =>
      let sigma := collectSigma (firstColumn (← matrix.iter))
      if sigmaIsComplete queries sigma then
        sigma.anyM fun constructor => do
          let (matrix, vector) ← specialiseBoth constructor matrix vector
          flatU queries fuel matrix vector
      else flatU queries fuel (← defaultFlatMatrix matrix) tailColumns

/-- Whether `reconstruct` takes fields; it asserts that the other constructors are given none. -/
def PatternConstructor.hasFields {P : Type} : PatternConstructor P → Bool
  | .dataConstructor _ _ _ | .record _ _ | .array _ => true
  | _ => false

/-- The columns of a witness put together again: `split_at` and `reconstruct`. -/
def rebuildCells (constructor : PatternConstructor (Pattern T)) (t : T) (witness : Cells T) :
    Except Stop (Cells T) := do
  if witness.length < constructor.arity then throw .range
  let argumentColumns := witness.take constructor.arity
  if !constructor.hasFields && !argumentColumns.isEmpty then throw .assertion
  return .constructor (constructor.reconstruct argumentColumns) t :: witness.drop constructor.arity

/-- `algorithm_m` -/
def flatM (queries : Queries T) :
    ℕ → FlatMatrix T → Cells T → Except Stop (Option (List (Cells T)))
  | 0, _, _ => throw .fuel
  | fuel + 1, matrix, vector => do
    if matrix.rows = 0 then return some [vector]
    match vector with
    | [] => return none
    | .constructor head t :: _ =>
      let constructor := canonicaliseRecordConstructor head (firstColumn (← matrix.iter))
      let (matrix, vector) ← specialiseBoth constructor matrix vector
      match ← flatM queries fuel matrix vector with
      | none => return none
      | some witnesses => return some (← witnesses.mapM (rebuildCells constructor t))
    | .wildcard t :: tailColumns =>
      let sigma := collectSigma (firstColumn (← matrix.iter))
      if sigmaIsComplete queries sigma then
        let witnesses ← sigma.mapM fun constructor => do
          let (matrix, vector) ← specialiseBoth constructor matrix vector
          ((← flatM queries fuel matrix vector).getD []).mapM (rebuildCells constructor t)
        return if witnesses.flatten.isEmpty then none else some witnesses.flatten
      else
        match ← flatM queries fuel (← defaultFlatMatrix matrix) tailColumns with
        | none => return none
        | some witnesses =>
          let firstColumn := (firstMissingConstructor queries t sigma).getD (.wildcard t)
          return some (witnesses.map (firstColumn :: ·))

/-! ## Rectangular matrices -/

namespace FlatMatrix

/-- Each row has as many cells as there are columns. -/
def Rectangular (self : FlatMatrix T) : Prop := self.cells.length = self.rows * self.columns

/-- A matrix of rows of one width, as it is stored. -/
def of (matrix : PatternMatrix T n) : FlatMatrix T :=
  ⟨matrix.flatMap List.Vector.toList, matrix.length, n⟩

lemma Rectangular.exists_of {self : FlatMatrix T} (h : self.Rectangular) :
    ∃ matrix : PatternMatrix T self.columns, self = of matrix := by
  obtain ⟨cells, rows, columns⟩ := self
  simp only [Rectangular] at h ⊢
  induction rows generalizing cells with
  | zero => exact ⟨[], by simp_all [of]⟩
  | succ rows ih =>
    have hle : columns ≤ cells.length := by
      rw [h, Nat.succ_mul]
      exact Nat.le_add_left _ _
    obtain ⟨matrix, hmatrix⟩ := ih (cells.drop columns) (by
      rw [List.length_drop, h, Nat.succ_mul, Nat.add_sub_cancel])
    simp only [of, mk.injEq, and_true] at hmatrix
    have hcells : cells.take columns ++ matrix.flatMap List.Vector.toList = cells := by
      rw [← hmatrix.1, List.take_append_drop]
    obtain ⟨row, hrow⟩ : ∃ row : PatternVector T columns, row.toList = cells.take columns :=
      ⟨⟨_, by simp [hle]⟩, rfl⟩
    exact ⟨row :: matrix, by rw [of, List.flatMap_cons, hrow, hcells, List.length_cons, hmatrix.2]⟩

lemma iter_of (matrix : PatternMatrix T n) :
    (of matrix).iter = .ok (matrix.map List.Vector.toList) := by
  simp only [iter, of]
  induction matrix with
  | nil => rfl
  | cons row matrix ih =>
    simp [rowsFrom, ih, pure, Except.pure, bind, Except.bind]

/-- A loop over the rows that adds at most one row for each. -/
lemma foldlM_of {k : ℕ} (f : PatternVector T n → Option (PatternVector T k))
    (step : FlatMatrix T → Cells T → Except Stop (FlatMatrix T))
    (hstep : ∀ (done : PatternMatrix T k) row,
      step (of done) row.toList = .ok (of (done ++ (f row).toList)))
    (matrix : PatternMatrix T n) (done : PatternMatrix T k) :
    (matrix.map List.Vector.toList).foldlM step (of done) =
      .ok (of (done ++ matrix.filterMap f)) := by
  induction matrix generalizing done with
  | nil => simp [pure, Except.pure]
  | cons row matrix ih =>
    rw [List.map_cons, List.foldlM_cons, hstep]
    refine (ih _).trans ?_
    cases hrow : f row <;> simp [hrow]

end FlatMatrix

open FlatMatrix

/-- Every row has a first cell. -/
lemma forM_expectCell (stop : Stop) (matrix : PatternMatrix T (n + 1)) :
    (matrix.map List.Vector.toList).forM (expectCell stop) = .ok () := by
  induction matrix with
  | nil => rfl
  | cons row matrix ih =>
    rw [List.map_cons, toList_eq_head_tail]
    exact ih

lemma firstColumn_map (matrix : PatternMatrix T (n + 1)) :
    firstColumn (matrix.map List.Vector.toList) = matrix.map fun row => .cons row.head .nil := by
  have hheads :
      (matrix.map List.Vector.toList).filterMap List.head? = matrix.map List.Vector.head := by
    rw [List.filterMap_map, ← List.filterMap_eq_map]
    congr 1
    funext row
    simp [toList_eq_head_tail row]
  rw [firstColumn, hheads, List.map_map]
  rfl

lemma canonicaliseRecordConstructor_firstColumn (head : PatternConstructor (Pattern T))
    (matrix : PatternMatrix T (n + 1)) :
    canonicaliseRecordConstructor head (firstColumn (matrix.map List.Vector.toList)) =
      canonicaliseRecordConstructor head matrix := by
  rw [firstColumn_map]
  simp only [canonicaliseRecordConstructor, List.foldl_map]
  rfl

lemma collectSigma_firstColumn (matrix : PatternMatrix T (n + 1)) :
    collectSigma (firstColumn (matrix.map List.Vector.toList)) = collectSigma matrix := by
  simp only [collectSigma, canonicaliseRecordConstructor_firstColumn]
  rw [firstColumn_map, distinctConstructors, List.foldl_map]
  rfl

/-! ## The operations keep the width -/

lemma specialiseVectorInto_toList (expected : PatternConstructor (Pattern T))
    (vector : PatternVector T (n + 1)) (cells : Cells T) :
    specialiseVectorInto expected vector.toList cells =
      .ok ((specialiseVector expected vector).map fun specialised =>
        cells ++ specialised.toList) := by
  rw [toList_eq_head_tail, specialiseVectorInto, specialiseVector]
  cases specialiseFields expected vector.head with
  | none => rfl
  | some fields =>
    have htake : (cells ++ fields).take (cells.length + expected.fields.length) =
        cells ++ fields.take expected.fields.length := List.take_length_add_append _
    have hnormalise : normaliseFields expected cells.length (cells ++ fields) =
        .ok (cells ++ (normaliseSpecialisedFields expected fields).toList) := by
      rw [normaliseFields, htake, toList_normaliseSpecialisedFields]
      simp [PatternConstructor.arity, pure, Except.pure]
    simp [hnormalise, bind, Except.bind, pure, Except.pure]

lemma specialiseFlatMatrix_of (expected : PatternConstructor (Pattern T))
    (matrix : PatternMatrix T (n + 1)) :
    specialiseFlatMatrix expected (of matrix) = .ok (of (specialiseMatrix expected matrix)) := by
  have hloop := foldlM_of (specialiseVector expected) (specialiseRow expected) ?_ matrix []
  · have hwidth : (of matrix).columns - 1 + expected.arity = expected.arity + n := Nat.add_comm n _
    have hcolumns : (of matrix).columns ≠ 0 := Nat.succ_ne_zero n
    simp only [specialiseFlatMatrix, hwidth, iter_of, bind, Except.bind, forM_expectCell, ite_self]
    exact hloop
  · intro done row
    rw [specialiseRow, specialiseVectorInto_toList]
    cases specialiseVector expected row with
    | none => simp [pure, Except.pure, bind, Except.bind]
    | some specialised =>
      simp [pure, Except.pure, bind, Except.bind, of]

lemma defaultFlatMatrix_of (matrix : PatternMatrix T (n + 1)) :
    defaultFlatMatrix (of matrix) = .ok (of (defaultMatrix matrix)) := by
  have hcolumns : (of matrix).columns ≠ 0 := Nat.succ_ne_zero n
  simp only [defaultFlatMatrix, iter_of, bind, Except.bind, forM_expectCell, ite_self]
  refine foldlM_of (k := n) _ defaultRow (fun done row => ?_) matrix []
  rw [toList_eq_head_tail]
  cases row.head with
  | constructor => simp [defaultRow, pure, Except.pure]
  | wildcard =>
    simp [defaultRow, push, pure, Except.pure, of]

lemma specialiseBoth_of {expected : PatternConstructor (Pattern T)}
    (matrix : PatternMatrix T (n + 1))
    {vector : PatternVector T (n + 1)} {specialised : PatternVector T (expected.arity + n)}
    (h : specialiseVector expected vector = some specialised) :
    specialiseBoth expected (of matrix) vector.toList =
      .ok (of (specialiseMatrix expected matrix), specialised.toList) := by
  simp [specialiseBoth, specialiseFlatMatrix_of, specialiseVectorInto_toList, h, bind, Except.bind,
    pure, Except.pure]

lemma rebuildCells_toList (constructor : PatternConstructor (Pattern T)) (t : T)
    (witness : PatternVector T (constructor.arity + n)) :
    rebuildCells constructor t witness.toList = .ok
      (rebuildWitness constructor t witness).toList := by
  have hliteral : (!constructor.hasFields && !(witness.toList.take constructor.arity).isEmpty) =
      false := by
    cases constructor <;> simp [PatternConstructor.hasFields, PatternConstructor.arity,
      PatternConstructor.fields]
  have hlength : ¬ witness.toList.length < constructor.arity := by simp
  simp only [rebuildCells, if_neg hlength, hliteral]
  rfl

lemma mapM_ok {α β : Type} {f : α → Except Stop β} {g : α → β} {l : List α}
    (h : ∀ a ∈ l, f a = .ok (g a)) : l.mapM f = .ok (l.map g) := by
  induction l with
  | nil => rfl
  | cons a l ih =>
    rw [List.forall_mem_cons] at h
    simp [h.1, ih h.2, bind, Except.bind, pure, Except.pure]

lemma anyM_ok {α : Type} {f : α → Except Stop Bool} {g : α → Bool} {l : List α}
    (h : ∀ a ∈ l, f a = .ok (g a)) : l.anyM f = .ok (l.any g) := by
  induction l with
  | nil => rfl
  | cons a l ih =>
    rw [List.forall_mem_cons] at h
    cases hg : g a <;> simp [h.1, hg, ih h.2, bind, Except.bind, pure, Except.pure]

lemma mapM_rebuildCells (constructor : PatternConstructor (Pattern T)) (t : T)
    (witnesses : List (PatternVector T (constructor.arity + n))) :
    (witnesses.map List.Vector.toList).mapM (rebuildCells constructor t) =
      .ok ((witnesses.map (rebuildWitness constructor t)).map List.Vector.toList) := by
  rw [List.mapM_map, List.map_map]
  exact mapM_ok fun witness _ => rebuildCells_toList constructor t witness

/-! ## The runs -/

section Runs

variable (queries : Queries T) {matrix : PatternMatrix T (n + 1)} {vector : PatternVector T (n + 1)}
  {head : PatternConstructor (Pattern T)} {t : T}

/-- The two algorithms return, with this much fuel. -/
def Returns (fuel : ℕ) (matrix : PatternMatrix T n) (vector : PatternVector T n) : Prop :=
  flatU queries fuel (of matrix) vector.toList = .ok (algorithmU queries matrix vector) ∧
    flatM queries fuel (of matrix) vector.toList =
      .ok ((algorithmM queries matrix vector).map (List.map List.Vector.toList))

lemma returns_nil (fuel : ℕ) (vector : PatternVector T n) :
    Returns queries (fuel + 1) [] vector := by
  simp [Returns, flatU, flatM, of, algorithmU_nil, algorithmM_nil, pure, Except.pure]

lemma returns_zero (fuel : ℕ) {matrix : PatternMatrix T 0} (vector : PatternVector T 0)
    (hne : matrix ≠ []) : Returns queries (fuel + 1) matrix vector := by
  rw [Returns, algorithmU_zero vector hne, algorithmM_zero vector hne]
  simp [flatU, flatM, of, hne, pure, Except.pure]

lemma returns_constructor {fuel : ℕ} (hne : matrix ≠ []) (hhead : vector.head = .constructor head t)
    {specialised : PatternVector T ((canonicaliseRecordConstructor head matrix).arity + n)}
    (h : specialiseVector (canonicaliseRecordConstructor head matrix) vector = some specialised)
    (hreturns : Returns queries fuel
      (specialiseMatrix (canonicaliseRecordConstructor head matrix) matrix) specialised) :
    Returns queries (fuel + 1) matrix vector := by
  have hcells : vector.toList = .constructor head t :: vector.tail.toList := by
    rw [toList_eq_head_tail, hhead]
  have hboth := specialiseBoth_of matrix h
  have hrows : ¬ (of matrix).rows = 0 := by simpa [of] using hne
  rw [hcells] at hboth
  rw [Returns, algorithmU_constructor hne hhead h, algorithmM_constructor hne hhead h, hcells]
  simp only [flatU, flatM, if_neg hrows, iter_of, bind, Except.bind,
    canonicaliseRecordConstructor_firstColumn, hboth]
  refine ⟨hreturns.1, ?_⟩
  rw [hreturns.2]
  cases algorithmM queries (specialiseMatrix (canonicaliseRecordConstructor head matrix) matrix)
    specialised with
  | none => rfl
  | some witnesses =>
    simp only [Option.map_some, mapM_rebuildCells]
    rfl

lemma returns_wildcard {fuel : ℕ} (hne : matrix ≠ []) (hhead : vector.head = .wildcard t)
    (hsigma : ∀ constructor ∈ collectSigma matrix, ∃ specialised,
      specialiseVector constructor vector = some specialised ∧
        Returns queries fuel (specialiseMatrix constructor matrix) specialised)
    (hdefault : Returns queries fuel (defaultMatrix matrix) vector.tail) :
    Returns queries (fuel + 1) matrix vector := by
  have hcells : vector.toList = .wildcard t :: vector.tail.toList := by
    rw [toList_eq_head_tail, hhead]
  have hrows : ¬ (of matrix).rows = 0 := by simpa [of] using hne
  by_cases hcomplete : sigmaIsComplete queries (collectSigma matrix) = true
  · have hopen : ∀ constructor ∈ collectSigma matrix, ∃ specialised,
        specialiseVector constructor vector = some specialised ∧
          specialiseBoth constructor (of matrix) (.wildcard t :: vector.tail.toList) =
            .ok (of (specialiseMatrix constructor matrix), specialised.toList) ∧
          Returns queries fuel (specialiseMatrix constructor matrix) specialised := by
      intro constructor hmem
      obtain ⟨specialised, h, hreturns⟩ := hsigma constructor hmem
      exact ⟨specialised, h, hcells ▸ specialiseBoth_of matrix h, hreturns⟩
    rw [Returns, algorithmU_sigma hne hhead hcomplete, algorithmM_sigma hne hhead hcomplete, hcells]
    simp only [flatU, flatM, if_neg hrows, iter_of, bind, Except.bind, collectSigma_firstColumn,
      if_pos hcomplete]
    constructor
    · refine anyM_ok fun constructor hmem => ?_
      obtain ⟨specialised, h, hboth, hreturns⟩ := hopen constructor hmem
      rw [hboth, h]
      exact hreturns.1
    · have hflat : ((collectSigma matrix).map fun constructor =>
          (sigmaWitnesses queries matrix vector t constructor).map List.Vector.toList).flatten =
          ((collectSigma matrix).flatMap (sigmaWitnesses queries matrix vector t)).map
            List.Vector.toList := by
        rw [List.map_flatMap, List.flatMap_def]
      rw [mapM_ok (g := fun constructor =>
        (sigmaWitnesses queries matrix vector t constructor).map List.Vector.toList)]
      · simp only [hflat, List.isEmpty_map]
        split_ifs <;> rfl
      · intro constructor hmem
        obtain ⟨specialised, h, hboth, hreturns⟩ := hopen constructor hmem
        simp only [hboth, hreturns.2, sigmaWitnesses, h, Option.bind_some]
        cases algorithmM queries (specialiseMatrix constructor matrix) specialised with
        | none => rfl
        | some witnesses => simpa using mapM_rebuildCells constructor t witnesses
  · rw [Returns, algorithmU_default hne hhead hcomplete, algorithmM_default hne hhead hcomplete,
      hcells]
    simp only [flatU, flatM, if_neg hrows, iter_of, bind, Except.bind, collectSigma_firstColumn,
      if_neg hcomplete, defaultFlatMatrix_of]
    refine ⟨hdefault.1, ?_⟩
    rw [hdefault.2]
    cases algorithmM queries (defaultMatrix matrix) vector.tail with
    | none => rfl
    | some witnesses => simp [pure, Except.pure]

/-- With one more unit of fuel for each turn, enough fuel stays enough. -/
lemma eventually_succ {p q : ℕ → Prop} (h : ∀ fuel, p fuel → q (fuel + 1))
    (hp : ∀ᶠ fuel in Filter.atTop, p fuel) : ∀ᶠ fuel in Filter.atTop, q fuel := by
  obtain ⟨bound, hbound⟩ := Filter.eventually_atTop.mp hp
  refine Filter.eventually_atTop.mpr ⟨bound + 1, fun fuel hfuel => ?_⟩
  obtain ⟨less, rfl⟩ := Nat.exists_eq_add_of_le hfuel
  rw [show bound + 1 + less = bound + less + 1 by omega]
  exact h _ (hbound _ (Nat.le_add_right _ _))

/-- **With enough fuel the algorithms return.** -/
lemma eventually_returns (matrix : PatternMatrix T n) (vector : PatternVector T n) :
    ∀ᶠ fuel in Filter.atTop, Returns queries fuel matrix vector := by
  induction n, matrix, vector using columnInduction with
  | nil vector =>
    exact eventually_succ (fun fuel _ => returns_nil queries fuel vector)
      (.of_forall fun _ => trivial)
  | zero vector hne =>
    exact eventually_succ (fun fuel _ => returns_zero queries fuel vector hne)
      (.of_forall fun _ => trivial)
  | constructor hne hhead h ih =>
    exact eventually_succ (fun _ => returns_constructor queries hne hhead h) ih
  | @wildcard n matrix vector t hne hhead ihsigma ihdefault =>
    have hsigma : ∀ᶠ fuel in Filter.atTop, ∀ constructor ∈ collectSigma matrix, ∃ specialised,
        specialiseVector constructor vector = some specialised ∧
          Returns queries fuel (specialiseMatrix constructor matrix) specialised := by
      refine (Filter.eventually_all_finite (List.finite_toSet (collectSigma matrix))).mpr ?_
      intro constructor hmem
      obtain ⟨specialised, h, ih⟩ := ihsigma constructor hmem
      exact ih.mono fun fuel hreturns => ⟨specialised, h, hreturns⟩
    exact eventually_succ (fun _ hboth => returns_wildcard queries hne hhead hboth.1 hboth.2)
      (hsigma.and ihdefault)

end Runs

/-- **Exhaustiveness checking survives ill-typed patterns.**  On every rectangular matrix and every
vector of its width, `algorithm_u` and `algorithm_m` come to an end, and they end with a result. -/
theorem algorithms_return (queries : Queries T) (matrix : FlatMatrix T) (vector : Cells T)
    (hmatrix : matrix.Rectangular) (hvector : vector.length = matrix.columns) :
    ∃ useful witnesses bound, ∀ fuel ≥ bound, flatU queries fuel matrix vector = .ok useful ∧
      flatM queries fuel matrix vector = .ok witnesses := by
  obtain ⟨rows, hrows⟩ := hmatrix.exists_of
  obtain ⟨cells, hcells⟩ : ∃ cells : PatternVector T matrix.columns, cells.toList = vector :=
    ⟨⟨vector, hvector⟩, rfl⟩
  obtain ⟨bound, hbound⟩ := Filter.eventually_atTop.mp (eventually_returns queries rows cells)
  refine ⟨algorithmU queries rows cells,
    (algorithmM queries rows cells).map (List.map List.Vector.toList), bound, fun fuel hfuel => ?_⟩
  have hreturns := hbound fuel hfuel
  rwa [Returns, ← hrows, hcells] at hreturns

/-- One column with a constructor at two arities, a literal, a record and an array. -/
def mixedMatrix : FlatMatrix Unit where
  cells := [.constructor (.dataConstructor 0 1 [.wildcard (), .wildcard ()]) (),
    .constructor (.dataConstructor 0 1 []) (), .constructor (.boolean true) (),
    .constructor (.record ["a"] [.wildcard ()]) (), .constructor (.array [.wildcard ()]) ()]
  rows := 5
  columns := 1

theorem algorithms_return_mixed : ∃ useful witnesses bound, ∀ fuel ≥ bound,
    flatU ⟨fun _ _ => none, fun _ _ => [], fun _ _ _ => []⟩ fuel mixedMatrix
        [.constructor (.dataConstructor 0 1 [.wildcard ()]) ()] = .ok useful ∧
      flatM ⟨fun _ _ => none, fun _ _ => [], fun _ _ _ => []⟩ fuel mixedMatrix
        [.constructor (.dataConstructor 0 1 [.wildcard ()]) ()] = .ok witnesses :=
  algorithms_return _ mixedMatrix _ rfl rfl

end Iris.Exhaustive
