import IrisCompiler.Checking.Solving
import IrisCompiler.Library.Utf16

/-!
# `Prim.Symbol`

The solvers of `Append` and `Cons` (`core/constraint/compiler/prim_symbol.rs`).  A symbol is a
sequence of UTF-16 code units (`lowering/src/literal.rs`).  Two symbols are appended unit by unit,
but to take a symbol apart it is decoded first, and where it does not decode the constraint is taken
to be apart.  So the solvers invert each other exactly for symbols in which no surrogate stands
alone; and a known result is compared as a type, which tells raw string literals from others.
-/

namespace Iris.Checking

open TotalRun Utf16

/-! ## The source's functions -/

/-- `str::strip_suffix` -/
def stripEnd (text last : List Char) : Option (List Char) :=
  if last <:+ text then some (text.take (text.length - last.length)) else none

/-- `str::strip_prefix` -/
def stripStart (text first : List Char) : Option (List Char) :=
  if first <+: text then some (text.drop first.length) else none

section Source

variable (context : CheckContext)

/-- The left symbol is what stands before the right one. -/
def solveLeft (fuel : ℕ) (left : Ty) (right appended : List ℕ) : CheckM MatchInstance :=
  match decode right, decode appended with
  | some right, some appended =>
    match stripEnd appended right with
    | some value => matchEquality context fuel left (internSymbol (encode value))
    | none => return .Apart
  | _, _ => return .Apart

/-- The right symbol is what follows the left one. -/
def solveRight (fuel : ℕ) (right : Ty) (left appended : List ℕ) : CheckM MatchInstance :=
  match decode left, decode appended with
  | some left, some appended =>
    match stripStart appended left with
    | some value => matchEquality context fuel right (internSymbol (encode value))
    | none => return .Apart
  | _, _ => return .Apart

def matchAppend (fuel : ℕ) (left right appended : Ty) : CheckM MatchInstance := do
  let leftSymbol ← extractSymbol context fuel left
  let rightSymbol ← extractSymbol context fuel right
  let appendedSymbol ← extractSymbol context fuel appended
  match leftSymbol, rightSymbol, appendedSymbol with
  | some leftValue, some rightValue, _ =>
    matchEquality context fuel appended (internSymbol (leftValue ++ rightValue))
  | _, some rightValue, some appendedValue => solveLeft context fuel left rightValue appendedValue
  | some leftValue, _, some appendedValue => solveRight context fuel right leftValue appendedValue
  | _, _, _ => blockingConstraint fuel [left, right, appended]

/-- The symbol of a head and a tail. -/
def joinCons (fuel : ℕ) (symbol : Ty) (head tail : List ℕ) : CheckM MatchInstance :=
  match decode head with
  | none => return .Apart
  | some headValue =>
    if (decode tail).isNone then return .Apart
    else
      match headValue with
      | [c] => matchEquality context fuel symbol (internSymbol (encodeChar c ++ tail))
      | _ => return .Apart

/-- The head and the tail of a symbol, where the head may be known. -/
def splitCons (head tail : Ty) (headSymbol : Option (List ℕ)) (symbol : List ℕ) : MatchInstance :=
  match decode symbol with
  | none | some [] => .Apart
  | some (c :: rest) =>
    let found : MatchInstance := .fromUnifications
      [(head, internSymbol (encodeChar c)), (tail, internSymbol (encode rest))]
    match headSymbol with
    | none => found
    | some headValue => if decode headValue = some [c] then found else .Apart

def matchCons (fuel : ℕ) (head tail symbol : Ty) : CheckM MatchInstance := do
  let headSymbol ← extractSymbol context fuel head
  let tailSymbol ← extractSymbol context fuel tail
  let symbolSymbol ← extractSymbol context fuel symbol
  match headSymbol, tailSymbol, symbolSymbol with
  | some headValue, some tailValue, _ => joinCons context fuel symbol headValue tailValue
  | _, _, some symbolValue => return splitCons head tail headSymbol symbolValue
  | _, _, _ => blockingConstraint fuel [head, tail, symbol]

end Source

/-! ## Arguments -/

/-- The symbol that a type is. -/
def Ty.symbol? : Ty → Option (List ℕ)
  | .String _ value => some value
  | _ => none

@[simp] lemma Ty.symbol?_String (kind : StringKind) (value : List ℕ) :
    (Ty.String kind value).symbol? = some value := rfl

@[simp] lemma Ty.symbol?_Unification (id : ℕ) : (Ty.Unification id).symbol? = none := rfl

/-- A raw string literal. -/
def Ty.isRaw : Ty → Bool
  | .String .RawString _ => true
  | _ => false

/-- The argument is the symbol, or a variable that can stand for it. -/
inductive Shows (s : CheckState) : Ty → List ℕ → Prop where
  | known (kind : StringKind) (value : List ℕ) : Shows s (.String kind value) value
  | unsolved {id : ℕ} (h : reduct s (.Unification id) = .ok none) (value : List ℕ) :
    Shows s (.Unification id) value

section Arguments

variable {context : CheckContext} {s s' : CheckState} {t t1 t2 t3 : Ty} {v l r o : List ℕ}

lemma Shows.expands (h : Shows s t v) : Expands context s t t := by
  cases h with
  | known => exact .refl rfl
  | unsolved h => exact .unsolved h

lemma Shows.of_same (h : Shows s t v) (hsame : Same s s') : Shows s' t v := by
  cases h with
  | known kind => exact .known kind v
  | unsolved h => exact .unsolved ((hsame.leads _ _).mp (.stop h)).done v

lemma Shows.symbol (h : Shows s t v) : t.symbol? = none ∨ t.symbol? = some v := by
  cases h with
  | known => exact .inr rfl
  | unsolved => exact .inl rfl

lemma extractSymbol_settles (h : Shows s t v) :
    Settles (fun fuel => extractSymbol context fuel t) s fun found u =>
      found = t.symbol? ∧ Same s u := by
  refine (h.expands.same (same_equivalence.refl s)).bind ?_
  rintro _ u ⟨rfl, hsame⟩
  cases h <;> exact .pure ⟨rfl, hsame⟩

/-- What follows when three arguments have been read. -/
abbrev Continuation :=
    ℕ → Option (List ℕ) → Option (List ℕ) → Option (List ℕ) → CheckM MatchInstance

/-- Three arguments are read, and a program goes on with what they show. -/
abbrev reading (context : CheckContext) (t1 t2 t3 : Ty) (next : Continuation) (fuel : ℕ) :
    CheckM MatchInstance := do
  let first ← extractSymbol context fuel t1
  let second ← extractSymbol context fuel t2
  let third ← extractSymbol context fuel t3
  next fuel first second third

variable {next : Continuation}

lemma reading_settles {answer : MatchInstance} (h1 : Shows s t1 l) (h2 : Shows s t2 r)
    (h3 : Shows s t3 o)
    (hrest : ∀ s', Same s s' → Settles (fun fuel => next fuel t1.symbol? t2.symbol? t3.symbol?) s'
      fun found _ => found = answer) :
    Settles (reading context t1 t2 t3 next) s fun found _ => found = answer := by
  refine (extractSymbol_settles h1).bind ?_
  rintro _ s₁ ⟨rfl, hsame₁⟩
  refine (extractSymbol_settles (h2.of_same hsame₁)).bind ?_
  rintro _ s₂ ⟨rfl, hsame₂⟩
  have hsame := same_equivalence.trans hsame₁ hsame₂
  refine (extractSymbol_settles (h3.of_same hsame)).bind ?_
  rintro _ s₃ ⟨rfl, hsame₃⟩
  exact hrest s₃ (same_equivalence.trans hsame hsame₃)

/-- The variables among the arguments. -/
def blockedBy (ts : List Ty) : List ℕ :=
  ts.filterMap fun
    | .Unification id => some id
    | _ => none

lemma walkBlocking_settles (h : Shows s t v) (blocking : List ℕ) :
    Settles (fun fuel => walkBlocking fuel t blocking) s fun found u =>
      found = blocking ++ blockedBy [t] ∧ Same s u := by
  refine .succ ?_
  cases h with
  | known kind => exact .pure ⟨by simp [blockedBy], same_equivalence.refl s⟩
  | @unsolved id h =>
    refine (normalise_settles_leads (.stop h)).bind ?_
    rintro _ u ⟨rfl, hsame⟩
    exact .pure ⟨rfl, hsame⟩

/-- Arguments of which one is a variable block. -/
lemma blockingConstraint_settles (h1 : Shows s t1 l) (h2 : Shows s t2 r) (h3 : Shows s t3 o)
    (hsome : blockedBy [t1, t2, t3] ≠ []) :
    Settles (fun fuel => blockingConstraint fuel [t1, t2, t3]) s fun found _ =>
      found = .Stuck (blockedBy [t1, t2, t3]) false := by
  have hcollects : Settles (fun fuel => collectBlocking fuel [t1, t2, t3]) s fun found _ =>
      found = blockedBy [t1, t2, t3] := by
    refine (walkBlocking_settles h1 []).bind ?_
    rintro _ s₁ ⟨rfl, hsame₁⟩
    refine (walkBlocking_settles (h2.of_same hsame₁) _).bind ?_
    rintro _ s₂ ⟨rfl, hsame₂⟩
    refine (walkBlocking_settles (h3.of_same (same_equivalence.trans hsame₁ hsame₂)) _).bind ?_
    rintro _ s₃ ⟨rfl, -⟩
    refine .pure ?_
    simp only [blockedBy, List.nil_append, ← List.filterMap_append]
    rfl
  refine hcollects.bind ?_
  rintro _ u rfl
  exact .pure (by simp [hsome])

/-- A program that is blocked after it has read three arguments. -/
lemma reading_stuck (h1 : Shows s t1 l) (h2 : Shows s t2 r) (h3 : Shows s t3 o)
    (hsome : blockedBy [t1, t2, t3] ≠ [])
    (hblocks : ∀ fuel, next fuel t1.symbol? t2.symbol? t3.symbol? =
      blockingConstraint fuel [t1, t2, t3]) :
    Settles (reading context t1 t2 t3 next) s fun found _ =>
      found = .Stuck (blockedBy [t1, t2, t3]) false := by
  refine reading_settles h1 h2 h3 fun s' hsame => ?_
  simp only [hblocks]
  exact blockingConstraint_settles (h1.of_same hsame) (h2.of_same hsame) (h3.of_same hsame) hsome

end Arguments

/-! ## Inversion -/

/-- The answer of a solver to arguments that show a solution: it is not apart, it equates arguments
with their symbols only, and if the arguments determine the solution, it equates every variable. -/
structure RightAnswer (determined : Prop) (solution : List (Ty × List ℕ)) (found : MatchInstance) :
    Prop where
  notApart : found ≠ .Apart
  right : ∀ pair ∈ found.unifications, ∃ v, (pair.1, v) ∈ solution ∧ pair.2 = internSymbol v
  solved : determined → ∀ t v, (t, v) ∈ solution → t.symbol? = none →
    (t, internSymbol v) ∈ found.unifications

/-- Two symbols and their concatenation are found from any two of them. -/
def AppendInverts (context : CheckContext) (s : CheckState) (t1 t2 t3 : Ty) (l r : List ℕ) : Prop :=
  Settles (fun fuel => matchAppend context fuel t1 t2 t3) s fun found _ =>
    RightAnswer (2 ≤ [t1, t2, t3].countP (·.symbol?.isSome)) [(t1, l), (t2, r), (t3, l ++ r)] found

/-- One code point: a character, or a surrogate on its own. -/
def IsPoint (head : Char ⊕ ℕ) : Prop := ∀ unit, head = .inr unit → isSingle unit = false

/-- The code point comes first in its symbol with this tail: if it is a surrogate, the tail does not
complete it to a pair. -/
def Heads (head : Char ⊕ ℕ) (tail : List ℕ) : Prop :=
  ∀ unit, head = .inr unit → (items (unit :: tail)).head? = some head

/-- A symbol is found from its head and its tail, and they are found from it. -/
def ConsInverts (context : CheckContext) (s : CheckState) (t1 t2 t3 : Ty) (h r : List ℕ) : Prop :=
  Settles (fun fuel => matchCons context fuel t1 t2 t3) s fun found _ =>
    RightAnswer (t3.symbol?.isSome ∨ (t1.symbol?.isSome ∧ t2.symbol?.isSome))
      [(t1, h), (t2, r), (t3, h ++ r)] found

section Inversion

variable {context : CheckContext} {s s' : CheckState} {t t1 t2 t3 : Ty}
    {v l r o : List ℕ} {head : Char ⊕ ℕ}

/-- Arguments equated with their symbols. -/
def answered (pairs : List (Ty × List ℕ)) : MatchInstance :=
  .fromUnifications (pairs.map fun pair => (pair.1, internSymbol pair.2))

/-- Under the condition the program equates the arguments with their symbols, else they are
apart. -/
def Decides (program : ℕ → CheckM MatchInstance) (s : CheckState) (condition : Prop)
    (pairs : List (Ty × List ℕ)) : Prop :=
  (condition → Settles program s fun found _ => found = answered pairs) ∧
    (¬ condition → Settles program s fun found _ => found = .Apart)

variable {program : ℕ → CheckM MatchInstance} {condition determined : Prop}
  {pairs solution : List (Ty × List ℕ)}

/-- **A program that decides is right exactly under its condition.** -/
lemma Decides.right_iff (hdecides : Decides program s condition pairs) (hsub : pairs ⊆ solution)
    (hall : ∀ pair ∈ solution, pair.1.symbol? = none → pair ∈ pairs) :
    (Settles program s fun found _ => RightAnswer determined solution found) ↔ condition := by
  constructor
  · intro hright
    by_contra hnot
    exact ((hdecides.2 hnot).iff_of_eq.mp hright).notApart rfl
  · intro holds
    refine (hdecides.1 holds).iff_of_eq.mpr
      ⟨by simp [answered, MatchInstance.fromUnifications], ?_, ?_⟩
    · intro pair hmem
      obtain ⟨⟨t, v⟩, hknown, rfl⟩ := List.mem_map.mp hmem
      exact ⟨v, hsub hknown, rfl⟩
    · exact fun _ t v hmem hunknown => List.mem_map.mpr ⟨(t, v), hall _ hmem hunknown, rfl⟩

/-- An argument is equated with a symbol unless it is a raw literal. -/
lemma matchEquality_decides (h : Shows s t v) (hsame : Same s s') :
    Decides (fun fuel => matchEquality context fuel t (internSymbol v)) s' (t.isRaw = false)
      [(t, v)] := by
  have hequates : Settles (fun fuel => matchEquality context fuel t (internSymbol v)) s'
      fun found u => found = equated t t (internSymbol v) ∧ Same s u :=
    matchEquality_atom h.expands hsame rfl
  refine ⟨fun hplain => hequates.mono fun found u holds => holds.1.trans ?_,
    fun hraw => hequates.mono fun found u holds => holds.1.trans ?_⟩
  · cases h with
    | unsolved => rfl
    | known kind =>
      cases kind with
      | String => simp [equated, Ty.accepts, internSymbol, answered]
      | RawString => cases hplain
  · cases h with
    | unsolved => exact absurd rfl hraw
    | known kind =>
      cases kind with
      | String => exact absurd rfl hraw
      | RawString => simp [equated, Ty.accepts, internSymbol]

lemma Shows.isRaw (h : Shows s t v) (hunknown : t.symbol? = none) : t.isRaw = false := by
  cases h with
  | known => cases hunknown
  | unsolved => rfl

/-- The left symbol is found iff both symbols decode. -/
lemma solveLeft_decides (h : Shows s t l) (hunknown : t.symbol? = none) (hsame : Same s s') :
    Decides (fun fuel => solveLeft context fuel t r (l ++ r)) s' (Valid l ∧ Valid r) [(t, l)] := by
  constructor
  · rintro ⟨hvalidLeft, hvalidRight⟩
    obtain ⟨first, rfl⟩ := valid_iff.mp hvalidLeft
    obtain ⟨more, rfl⟩ := valid_iff.mp hvalidRight
    have hstripped : stripEnd (first ++ more) more = some first := by simp [stripEnd]
    simp only [solveLeft, ← encode_append, decode_encode, hstripped]
    exact (matchEquality_decides h hsame).1 (h.isRaw hunknown)
  · intro hinvalid
    unfold solveLeft
    split
    · next more text hr ho =>
      have hvalidRight : Valid r := ⟨more, hr⟩
      exact absurd ⟨(valid_append_iff_left hvalidRight).mp ⟨text, ho⟩, hvalidRight⟩ hinvalid
    · exact .pure rfl

/-- The right symbol is found iff both symbols decode. -/
lemma solveRight_decides (h : Shows s t r) (hunknown : t.symbol? = none) (hsame : Same s s') :
    Decides (fun fuel => solveRight context fuel t l (l ++ r)) s' (Valid l ∧ Valid r) [(t, r)] := by
  constructor
  · rintro ⟨hvalidLeft, hvalidRight⟩
    obtain ⟨first, rfl⟩ := valid_iff.mp hvalidLeft
    obtain ⟨more, rfl⟩ := valid_iff.mp hvalidRight
    have hstripped : stripStart (first ++ more) first = some more := by simp [stripStart]
    simp only [solveRight, ← encode_append, decode_encode, hstripped]
    exact (matchEquality_decides h hsame).1 (h.isRaw hunknown)
  · intro hinvalid
    unfold solveRight
    split
    · next first text hl ho =>
      have hvalidLeft : Valid l := ⟨first, hl⟩
      exact absurd ⟨hvalidLeft, (valid_append_iff_right hvalidLeft).mp ⟨text, ho⟩⟩ hinvalid
    · exact .pure rfl

lemma decode_encodeChar (c : Char) : decode (encodeChar c) = some [c] := by
  simpa [decode] using decode_encodeChar_append c []

/-- A surrogate on its own does not decode. -/
lemma IsPoint.decode_eq_none {unit : ℕ} (h : IsPoint (.inr unit)) : decode [unit] = none := by
  simp [decode, h unit rfl]

/-- A symbol that begins with a surrogate on its own does not decode. -/
lemma Heads.decode_eq_none {unit : ℕ} (h : Heads (.inr unit) r) : decode (unit :: r) = none := by
  have hfirst := h unit rfl
  cases r with
  | nil =>
    rw [items] at hfirst
    split_ifs at hfirst with hsingle
    · cases hfirst
    · simp [decode, hsingle]
  | cons next rest =>
    rw [items] at hfirst
    split_ifs at hfirst with hsingle hpair
    · cases hfirst
    · cases hfirst
    · simp [decode, hsingle, hpair]

/-- A head and a tail are joined iff both decode and the result is not a raw literal. -/
lemma joinCons_decides (hpoint : IsPoint head) (h : Shows s t (itemUnits head ++ r))
    (hsame : Same s s') :
    Decides (fun fuel => joinCons context fuel t (itemUnits head) r) s'
      (t.isRaw = false ∧ Valid (itemUnits head) ∧ Valid r) [(t, itemUnits head ++ r)] := by
  cases head with
  | inr unit =>
    have hfails : decode (itemUnits (.inr unit)) = none := hpoint.decode_eq_none
    refine ⟨fun ⟨_, ⟨text, hfound⟩, _⟩ => ?_, fun _ => ?_⟩
    · rw [hfails] at hfound
      cases hfound
    · simp only [joinCons, hfails]
      exact .pure rfl
  | inl c =>
    have hhead : decode (itemUnits (.inl c)) = some [c] := decode_encodeChar c
    constructor
    · rintro ⟨hplain, _, text, htail⟩
      simp only [joinCons, hhead, htail]
      exact (matchEquality_decides h hsame).1 hplain
    · intro hfails
      simp only [joinCons, hhead]
      split_ifs with hinvalid
      · exact .pure rfl
      · refine (matchEquality_decides h hsame).2 fun hplain => hfails ⟨hplain, ⟨_, hhead⟩, ?_⟩
        exact Option.ne_none_iff_exists'.mp (by simpa using hinvalid)

/-- A symbol is split iff its head and its tail decode. -/
lemma splitCons_decides (hpoint : IsPoint head) (hheads : Heads head r)
    (h1 : Shows s t1 (itemUnits head)) (s' : CheckState) :
    Decides (fun _ => pure (splitCons t1 t2 t1.symbol? (itemUnits head ++ r))) s'
      (Valid (itemUnits head) ∧ Valid r) [(t1, itemUnits head), (t2, r)] := by
  have happart (hfails : decode (itemUnits head ++ r) = none) :
      splitCons t1 t2 t1.symbol? (itemUnits head ++ r) = .Apart := by simp [splitCons, hfails]
  cases head with
  | inr unit =>
    refine ⟨fun ⟨⟨text, hfound⟩, _⟩ => ?_, fun _ => .pure (happart hheads.decode_eq_none)⟩
    exact absurd hfound (by simp [itemUnits, hpoint.decode_eq_none])
  | inl c =>
    constructor
    · rintro ⟨_, text, htail⟩
      obtain rfl := (encode_of_decode htail).symm
      refine .pure ?_
      rcases h1.symbol with hunknown | hknown
      · simp [splitCons, itemUnits, decode_encodeChar_append, hunknown, answered]
      · simp [splitCons, itemUnits, decode_encodeChar_append, hknown, decode_encodeChar, answered]
    · intro hinvalid
      refine .pure (happart ?_)
      rw [itemUnits, decode_encodeChar_append, Option.map_eq_none_iff]
      exact Option.eq_none_iff_forall_ne_some.mpr fun text hfound =>
        hinvalid ⟨⟨_, decode_encodeChar c⟩, text, hfound⟩

/-- What the arguments of `Append` have to satisfy: a known result of two known symbols is not a raw
literal, and where one of the two is to be found, both decode. -/
def AppendCondition (t1 t2 t3 : Ty) (l r : List ℕ) : Prop :=
  (t1.symbol?.isSome → t2.symbol?.isSome → t3.isRaw = false) ∧
    (t3.symbol?.isSome → t1.symbol?.isSome ≠ t2.symbol?.isSome → Valid l ∧ Valid r)

/-- What the arguments of `Cons` have to satisfy. -/
def ConsCondition (t1 t2 t3 : Ty) (h r : List ℕ) : Prop :=
  (t1.symbol?.isSome → t2.symbol?.isSome → t3.isRaw = false) ∧
    (t3.symbol?.isSome ∨ (t1.symbol?.isSome ∧ t2.symbol?.isSome) → Valid h ∧ Valid r)

section Reading

variable {next : Continuation} (h1 : Shows s t1 l) (h2 : Shows s t2 r) (h3 : Shows s t3 o)

include h1 h2 h3

/-- A program that decides after it has read three arguments is right exactly under its
condition. -/
lemma right_iff_of_reads (hrest : ∀ s', Same s s' →
      Decides (fun fuel => next fuel t1.symbol? t2.symbol? t3.symbol?) s' condition pairs)
    (hsub : pairs ⊆ solution) (hall : ∀ pair ∈ solution, pair.1.symbol? = none → pair ∈ pairs) :
    (Settles (reading context t1 t2 t3 next) s fun found _ =>
      RightAnswer determined solution found) ↔ condition :=
  Decides.right_iff ⟨fun holds => reading_settles h1 h2 h3 fun s' hsame => (hrest s' hsame).1 holds,
    fun hfails => reading_settles h1 h2 h3 fun s' hsame => (hrest s' hsame).2 hfails⟩ hsub hall

/-- A program that is blocked after it has read three arguments is right. -/
lemma right_of_reads_stuck (hsome : blockedBy [t1, t2, t3] ≠ [])
    (hblocks : ∀ fuel, next fuel t1.symbol? t2.symbol? t3.symbol? =
      blockingConstraint fuel [t1, t2, t3]) (hundetermined : ¬ determined) :
    Settles (reading context t1 t2 t3 next) s fun found _ =>
      RightAnswer determined solution found :=
  (reading_stuck h1 h2 h3 hsome hblocks).iff_of_eq.mpr
    ⟨by simp, by simp [MatchInstance.unifications], fun h => absurd h hundetermined⟩

end Reading

/-- **`Append` is inverted exactly where its arguments meet the condition.** -/
theorem appendInverts_iff (h1 : Shows s t1 l) (h2 : Shows s t2 r) (h3 : Shows s t3 (l ++ r)) :
    AppendInverts context s t1 t2 t3 l r ↔ AppendCondition t1 t2 t3 l r := by
  unfold AppendInverts AppendCondition
  -- By which of the three symbols are known.
  match h1, h2, h3 with
  | .known k1 _, .known k2 _, h3 =>
    refine (right_iff_of_reads (.known k1 l) (.known k2 r) h3
      (fun _ => matchEquality_decides h3) (by simp) (by simp)).trans ?_
    simp
  | .unsolved h _, .known k2 _, .known k3 _ =>
    refine (right_iff_of_reads (.unsolved h l) (.known k2 r) (.known k3 (l ++ r))
      (fun _ => solveLeft_decides (.unsolved h l) rfl) (by simp) (by simp)).trans ?_
    simp
  | .known k1 _, .unsolved h _, .known k3 _ =>
    refine (right_iff_of_reads (.known k1 l) (.unsolved h r) (.known k3 (l ++ r))
      (fun _ => solveRight_decides (.unsolved h r) rfl) (by simp) (by simp)).trans ?_
    simp
  | .unsolved h1 _, .unsolved h2 _, h3 =>
    refine iff_of_true (right_of_reads_stuck (.unsolved h1 l) (.unsolved h2 r) h3
      (by simp [blockedBy]) (fun _ => rfl) ?_) (by simp)
    cases h3 <;> simp
  | .known k1 _, .unsolved h2 _, .unsolved h3 _ =>
    exact iff_of_true (right_of_reads_stuck (.known k1 l) (.unsolved h2 r) (.unsolved h3 r)
      (by simp [blockedBy]) (fun _ => rfl) (by simp [List.countP_cons])) (by simp)
  | .unsolved h1 _, .known k2 _, .unsolved h3 _ =>
    exact iff_of_true (right_of_reads_stuck (.unsolved h1 l) (.known k2 r) (.unsolved h3 r)
      (by simp [blockedBy]) (fun _ => rfl) (by simp [List.countP_cons])) (by simp)

/-- **`Cons` is inverted exactly where its arguments meet the condition.** -/
theorem consInverts_iff (hpoint : IsPoint head)
    (hheads : Heads head r ∨ (t1.symbol?.isSome ∧ t2.symbol?.isSome))
    (h1 : Shows s t1 (itemUnits head)) (h2 : Shows s t2 r)
    (h3 : Shows s t3 (itemUnits head ++ r)) :
    ConsInverts context s t1 t2 t3 (itemUnits head) r ↔
      ConsCondition t1 t2 t3 (itemUnits head) r := by
  unfold ConsInverts ConsCondition
  match h1, h2, h3 with
  | .known k1 _, .known k2 _, h3 =>
    refine (right_iff_of_reads (.known k1 _) (.known k2 r) h3
      (fun _ => joinCons_decides hpoint h3) (by simp) (by simp)).trans ?_
    simp
  | .unsolved h _, h2, .known k3 _ =>
    have hheads := hheads.resolve_right (by simp)
    refine (right_iff_of_reads (.unsolved h r) h2 (.known k3 _) (fun s' _ => splitCons_decides
      hpoint hheads (.unsolved h (itemUnits head)) s') (by simp) (by simp)).trans ?_
    simp
  | .known k1 _, .unsolved h _, .known k3 _ =>
    have hheads := hheads.resolve_right (by simp)
    refine (right_iff_of_reads (.known k1 _) (.unsolved h r) (.known k3 _) (fun s' _ =>
      @splitCons_decides s _ _ _ _ hpoint hheads (.known k1 (itemUnits head)) s') (by simp)
      (by simp)).trans ?_
    simp
  | .unsolved h1 _, h2, .unsolved h3 _ =>
    exact iff_of_true (right_of_reads_stuck (.unsolved h1 r) h2 (.unsolved h3 r)
      (by simp [blockedBy]) (fun _ => rfl) (by simp)) (by simp)
  | .known k1 _, .unsolved h2 _, .unsolved h3 _ =>
    exact iff_of_true (right_of_reads_stuck (.known k1 _) (.unsolved h2 r) (.unsolved h3 r)
      (by simp [blockedBy]) (fun _ => rfl) (by simp)) (by simp)

/-- **Symbol solving is inverted exactly where no surrogate stands alone and no known result is a
raw literal.**  Let three arguments show two symbols and their concatenation, or a code point, a
symbol and their concatenation; each is the symbol itself or an unsolved variable.  The code point
is a character or a surrogate, and the first of the concatenation where it is not given together
with the symbol.  The solver's answer is right exactly if the condition holds. -/
theorem symbols_invert_iff (context : CheckContext) (s : CheckState) (t1 t2 t3 : Ty) (r : List ℕ)
    (h2 : Shows s t2 r) :
    (∀ l, Shows s t1 l → Shows s t3 (l ++ r) →
      (AppendInverts context s t1 t2 t3 l r ↔ AppendCondition t1 t2 t3 l r)) ∧
    ∀ head, IsPoint head → Heads head r ∨ (t1.symbol?.isSome ∧ t2.symbol?.isSome) →
      Shows s t1 (itemUnits head) → Shows s t3 (itemUnits head ++ r) →
      (ConsInverts context s t1 t2 t3 (itemUnits head) r ↔
        ConsCondition t1 t2 t3 (itemUnits head) r) :=
  ⟨fun _ h1 h3 => appendInverts_iff h1 h2 h3,
    fun _ hpoint hheads h1 h3 => consInverts_iff hpoint hheads h1 h2 h3⟩

/-- `"a"` and `"b"` are found from `"ab"`; and the case of a symbol that is a surrogate. -/
theorem symbols_invert_ascii :
    (AppendInverts .bare .oneUnsolved (.Unification 0) (.String .String [98])
        (.String .String [97, 98]) [97] [98] ↔
      AppendCondition (.Unification 0) (.String .String [98])
        (.String .String [97, 98]) [97] [98]) ∧
    (ConsInverts .bare .oneUnsolved (.Unification 0) (.String .String [98])
        (.String .String [97, 98]) [97] [98] ↔
      ConsCondition (.Unification 0) (.String .String [98]) (.String .String [97, 98]) [97] [98]) ∧
    (ConsInverts .bare .oneUnsolved (.Unification 0) (.String .String [])
        (.String .String [0xD83D]) [0xD83D] [] ↔
      ConsCondition (.Unification 0) (.String .String []) (.String .String [0xD83D]) [0xD83D] []) :=
  have hboth := symbols_invert_iff .bare .oneUnsolved (.Unification 0) (.String .String [98])
    (.String .String [97, 98]) [98] (.known .String [98])
  have hlone := symbols_invert_iff .bare .oneUnsolved (.Unification 0) (.String .String [])
    (.String .String [0xD83D]) [] (.known .String [])
  ⟨hboth.1 [97] (.unsolved rfl [97]) (.known .String [97, 98]),
    hboth.2 (.inl 'a') (fun _ h => by cases h) (.inl fun _ h => by cases h)
      (.unsolved rfl (encodeChar 'a')) (.known .String [97, 98]),
    hlone.2 (.inr 0xD83D) (fun _ h => by cases h; rfl) (.inl fun _ h => by cases h; rfl)
      (.unsolved rfl [0xD83D]) (.known .String [0xD83D])⟩

/-- The low surrogate is not found from the high one and the pair of both. -/
theorem not_appendInverts_surrogates :
    ¬ AppendInverts .bare .oneUnsolved (.String .String [0xD83D]) (.Unification 0)
      (.String .String [0xD83D, 0xDE00]) [0xD83D] [0xDE00] := fun hinverts => by
  have hvalid := ((appendInverts_iff (.known .String [0xD83D]) (.unsolved rfl [0xDE00])
    (.known .String [0xD83D, 0xDE00])).mp hinverts).2 rfl (by simp)
  obtain ⟨text, hfound⟩ := hvalid.1
  cases hfound

end Inversion

end Iris.Checking
