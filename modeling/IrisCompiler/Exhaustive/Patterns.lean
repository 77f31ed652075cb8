import Mathlib.Data.List.Sort
import Mathlib.Data.Vector.Basic
import IrisCompiler.Library.Descent

/-!
# Patterns and pattern matrices

The data of the exhaustiveness checker (`core/exhaustive.rs`): patterns, the vectors and matrices
they form, and the operations of the usefulness algorithm on them (specialisation by a constructor,
the default matrix, the constructors of the first column).

Patterns are interned in the source and compared by their handle; here they are the trees the
handles stand for.  A row has as many cells as its matrix has columns, which the source asserts at
every push; here the length is part of the type of a row, so the places where the source gives up
on an empty row do not exist.
-/

namespace Iris.Exhaustive

/-- `PatternConstructor`, over the patterns its fields hold.  A string literal is its UTF-16 code
units. -/
inductive PatternConstructor (P : Type) where
  | dataConstructor (fileId itemId : ℕ) (fields : List P)
  | record (labels : List String) (fields : List P)
  | array (fields : List P)
  | boolean (value : Bool)
  | integer (value : ℤ)
  | number (negative : Bool) (value : String)
  | string (value : List ℕ)
  | char (value : Char)

/-- `Pattern`: a wildcard or a constructor, at the type `t` it scrutinises. -/
inductive Pattern (T : Type) where
  | wildcard (t : T)
  | constructor (constructor : PatternConstructor (Pattern T)) (t : T)

namespace PatternConstructor

variable {P : Type}

def fields : PatternConstructor P → List P
  | dataConstructor _ _ fields => fields
  | record _ fields => fields
  | array fields => fields
  | _ => []

def arity (constructor : PatternConstructor P) : ℕ := constructor.fields.length

/-- Whether a row that starts with the first constructor stays when specialising by the second. -/
def «matches» : PatternConstructor P → PatternConstructor P → Bool
  | dataConstructor f1 i1 _, dataConstructor f2 i2 _ => f1 == f2 && i1 == i2
  -- any record constructor matches any other record constructor
  | record _ _, record _ _ => true
  | array f1, array f2 => f1.length == f2.length
  | boolean b1, boolean b2 => b1 == b2
  | integer i1, integer i2 => i1 == i2
  | number n1 v1, number n2 v2 => n1 == n2 && v1 == v2
  | string s1, string s2 => s1 == s2
  | char c1, char c2 => c1 == c2
  | _, _ => false

/-- `reconstruct`: the constructor with other fields. -/
def reconstruct : PatternConstructor P → List P → PatternConstructor P
  | dataConstructor fileId itemId _, fields => dataConstructor fileId itemId fields
  | record labels _, fields => record labels fields
  | array _, fields => array fields
  | constructor, _ => constructor

end PatternConstructor

/-- `ConstructorKey`, the identity of a constructor in the first column. -/
inductive ConstructorKey where
  | data (fileId itemId : ℕ)
  | record
  | array (length : ℕ)
  | boolean (value : Bool)
  | integer (value : ℤ)
  | number (negative : Bool) (value : String)
  | string (value : List ℕ)
  | char (value : Char)
  deriving DecidableEq

/-- `ConstructorKey::from_pattern_constructor`. -/
def PatternConstructor.key {P : Type} : PatternConstructor P → ConstructorKey
  | dataConstructor fileId itemId _ => .data fileId itemId
  | record _ _ => .record
  | array fields => .array fields.length
  | boolean b => .boolean b
  | integer i => .integer i
  | number negative n => .number negative n
  | string s => .string s
  | char c => .char c

variable {T : Type} {n : ℕ}

def Pattern.t : Pattern T → T
  | .wildcard t => t
  | .constructor _ t => t

abbrev PatternVector (T : Type) (n : ℕ) := List.Vector (Pattern T) n

abbrev PatternMatrix (T : Type) (columns : ℕ) := List (PatternVector T columns)

/-! ## Specialisation -/

/-- `specialise_record_fields_into`: the fields of a record pattern in the order of the expected
labels, with a wildcard for each label the pattern does not mention. -/
def specialiseRecordFields (expected : PatternConstructor (Pattern T))
    (actualLabels : List String) (actualFields : List (Pattern T)) : List (Pattern T) :=
  match expected with
  | .record expectedLabels expectedFields =>
    if actualLabels = expectedLabels then actualFields
    else
      (expectedLabels.zip expectedFields).map fun (expectedLabel, expectedField) =>
        match (actualLabels.idxOf? expectedLabel).bind (actualFields[·]?) with
        | some actualField => actualField
        | none => .wildcard expectedField.t
  | _ => actualFields

/-- The fields a first pattern contributes, or nothing when it is another constructor. -/
def specialiseFields (expected : PatternConstructor (Pattern T)) :
    Pattern T → Option (List (Pattern T))
  | .wildcard _ => some []
  | .constructor constructor _ =>
    if constructor.matches expected then
      match constructor with
      | .dataConstructor _ _ fields => some fields
      | .array fields => some fields
      | .record labels fields => some (specialiseRecordFields expected labels fields)
      | _ => some []
    else none

/-- `normalise_specialised_fields`: cut to the expected arity and filled with wildcards. -/
def normaliseSpecialisedFields (expected : PatternConstructor (Pattern T))
    (specialised : List (Pattern T)) : PatternVector T expected.arity :=
  let kept := specialised.take expected.fields.length
  ⟨kept ++ (expected.fields.drop kept.length).map fun expectedField => .wildcard expectedField.t,
    by simp [kept, PatternConstructor.arity]⟩

def specialiseVector (expected : PatternConstructor (Pattern T))
    (vector : PatternVector T (n + 1)) :
    Option (PatternVector T (expected.arity + n)) :=
  (specialiseFields expected vector.head).map fun specialised =>
    normaliseSpecialisedFields expected specialised ++ vector.tail

def specialiseMatrix (expected : PatternConstructor (Pattern T))
    (matrix : PatternMatrix T (n + 1)) :
    PatternMatrix T (expected.arity + n) :=
  matrix.filterMap (specialiseVector expected)

/-- `default_matrix`: the rows that start with a wildcard, without it. -/
def defaultMatrix (matrix : PatternMatrix T (n + 1)) : PatternMatrix T n :=
  matrix.filterMap fun row =>
    match row.head with
    | .wildcard _ => some row.tail
    | .constructor _ _ => none

/-! ## The constructors of the first column -/

/-- Adds the labels of one record pattern that the canonical list does not have yet. -/
def addMissingLabels (canonical : List (String × Pattern T)) (labels : List String)
    (fields : List (Pattern T)) : List (String × Pattern T) :=
  (labels.zip fields).foldl (fun canonical entry =>
    if canonical.any (fun existing => existing.1 == entry.1) then canonical
    else canonical ++ [entry]) canonical

/-- One turn of `canonicalise_record_constructor`'s loop.  The list is created at the first record
pattern whose labels are not the original ones. -/
def canonicalRow (originalLabels : List String) (originalFields : List (Pattern T))
    (canonical : Option (List (String × Pattern T))) (row : PatternVector T (n + 1)) :
    Option (List (String × Pattern T)) :=
  match row.head with
  | .constructor (.record labels fields) _ =>
    if labels = originalLabels then canonical
    else some (addMissingLabels (canonical.getD (originalLabels.zip originalFields)) labels fields)
  | _ => canonical

/-- `canonicalise_record_constructor`: a record constructor with the labels of every record pattern
of the first column. -/
def canonicaliseRecordConstructor (constructor : PatternConstructor (Pattern T))
    (matrix : PatternMatrix T (n + 1)) : PatternConstructor (Pattern T) :=
  match constructor with
  | .record originalLabels originalFields =>
    match matrix.foldl (canonicalRow originalLabels originalFields) none with
    | none => constructor
    | some canonical =>
      if canonical.length = originalLabels.length then constructor
      else
        let sorted := canonical.mergeSort fun a b => decide (a.1 ≤ b.1)
        .record (sorted.map (·.1)) (sorted.map (·.2))
  | _ => constructor

/-- One turn of `collect_sigma`'s loop: a constructor is kept when its key is new. -/
def collectRow (collected : List ConstructorKey × List (PatternConstructor (Pattern T)))
    (row : PatternVector T (n + 1)) :
    List ConstructorKey × List (PatternConstructor (Pattern T)) :=
  match row.head with
  | .constructor constructor _ =>
    if constructor.key ∈ collected.1 then collected
    else (constructor.key :: collected.1, collected.2 ++ [constructor])
  | .wildcard _ => collected

/-- The loop of `collect_sigma`: the keys seen, and one representative for each of them. -/
def distinctConstructors (matrix : PatternMatrix T (n + 1)) :
    List ConstructorKey × List (PatternConstructor (Pattern T)) :=
  matrix.foldl collectRow ([], [])

/-- `collect_sigma`: the constructors of the first column.  All records share one key, so the list
holds at most one record constructor; that one is canonicalised, and the others are left alone by
`canonicaliseRecordConstructor`. -/
def collectSigma (matrix : PatternMatrix T (n + 1)) : List (PatternConstructor (Pattern T)) :=
  (distinctConstructors matrix).2.map fun constructor =>
    canonicaliseRecordConstructor constructor matrix

/-- What the algorithm asks about declarations: the two queries of an indexed module, and the field
types of a constructor at an applied type (`constructor_field_types`), which only label the
wildcards of a reported pattern. -/
structure Queries (T : Type) where
  constructorType : (fileId termId : ℕ) → Option ℕ
  dataConstructors : (fileId typeId : ℕ) → List ℕ
  constructorFieldTypes : (fileId termId : ℕ) → (scrutinee : T) → List T

/-- Whether a constructor is the data constructor of an item. -/
def PatternConstructor.isItem {P : Type} (termId : ℕ) : PatternConstructor P → Bool
  | .dataConstructor _ itemId _ => itemId == termId
  | _ => false

def PatternConstructor.isBoolean {P : Type} (value : Bool) : PatternConstructor P → Bool
  | .boolean value' => value' == value
  | _ => false

/-- `sigma_is_complete`. -/
def sigmaIsComplete (queries : Queries T) (sigma : List (PatternConstructor (Pattern T))) : Bool :=
  match sigma with
  | [] => false
  | .dataConstructor fileId itemId _ :: _ =>
    match queries.constructorType fileId itemId with
    | none => false
    | some typeItemId =>
      (queries.dataConstructors fileId typeItemId).all fun termId => sigma.any (·.isItem termId)
  -- a record type has exactly one constructor
  | .record _ _ :: _ => true
  | .boolean _ :: _ => sigma.any (·.isBoolean true) && sigma.any (·.isBoolean false)
  -- array lengths and the other literals are infinite domains
  | _ => false

/-- `first_missing_constructor` with `construct_missing_witness`: a pattern for the first
constructor of the scrutinee's type that the sigma lacks. -/
def firstMissingConstructor (queries : Queries T) (t : T)
    (sigma : List (PatternConstructor (Pattern T))) : Option (Pattern T) :=
  match sigma with
  | .dataConstructor fileId itemId _ :: _ =>
    (queries.constructorType fileId itemId).bind fun typeItemId =>
      let missing := (queries.dataConstructors fileId typeItemId).find? fun termId =>
        !sigma.any (·.isItem termId)
      missing.map fun termId =>
        let fields := (queries.constructorFieldTypes fileId termId t).map Pattern.wildcard
        .constructor (.dataConstructor fileId termId fields) t
  | .boolean _ :: _ =>
    if !sigma.any (·.isBoolean true) then some (.constructor (.boolean true) t)
    else if !sigma.any (·.isBoolean false) then some (.constructor (.boolean false) t)
    else none
  | _ => none

end Iris.Exhaustive
