import IrisCompiler.Library.Pratt
import IrisCompiler.Library.TotalRun

/-!
# Bracketing of operator chains

`bracketing.rs` of the crate `sugar` turns the operator chains of a lowered module into trees.  The
associativity and the precedence of an operator are those of the item that it resolves to, which may
be in another file; the lowered modules of other files are queried once and then kept in the
context.

The loop of the source is a Pratt parser.  Where all operators of a chain resolve it does what
`Pratt.climb` does with the binding powers of the operators (`bracket_ends`).
-/

namespace Iris.Sugar

open TotalRun Pratt

/-! ## Operators -/

inductive Associativity where
  /-- `infix` -/
  | None
  /-- `infixl` -/
  | Left
  /-- `infixr` -/
  | Right
  deriving DecidableEq, Repr

abbrev FileId := ℕ
abbrev TermOperatorId := ℕ
abbrev TypeOperatorId := ℕ
abbrev TermItemId := ℕ
abbrev TypeItemId := ℕ
abbrev BinderId := ℕ
abbrev ExpressionId := ℕ
abbrev TypeId := ℕ

/-- An operator of a chain and the operand after it. -/
structure OperatorPair (ω ι : Type) where
  id : Option ω
  element : Option ι
  deriving DecidableEq, Repr

/-- What bracketing looks for among the binders, the expressions and the types of a module. -/
inductive ElementKind (ω ι : Type) where
  | OperatorChain (head : Option ι) (tail : List (OperatorPair ω ι))
  | other
  deriving DecidableEq, Repr

/-- What bracketing looks for in an item of a module: its fixity, if it is an operator. -/
inductive ItemKind where
  | Operator (associativity : Option Associativity) (precedence : Option ℕ)
  | other
  deriving DecidableEq, Repr

/-- The part of a lowered module that bracketing reads. -/
structure LoweredModule where
  termOperators : TermOperatorId → Option (FileId × TermItemId)
  typeOperators : TypeOperatorId → Option (FileId × TypeItemId)
  termItems : TermItemId → Option ItemKind
  typeItems : TypeItemId → Option ItemKind
  binders : List (BinderId × ElementKind TermOperatorId BinderId)
  expressions : List (ExpressionId × ElementKind TermOperatorId ExpressionId)
  types : List (TypeId × ElementKind TypeOperatorId TypeId)

/-- `associativity.zip(*precedence)` of an operator item. -/
def ItemKind.info : Option ItemKind → Option (Associativity × ℕ)
  | some (.Operator (some associativity) (some precedence)) => some (associativity, precedence)
  | _ => none

/-- The two implementations of `ForOperatorId` in the source. -/
structure ForOperatorId (ω : Type) where
  resolveOperator : LoweredModule → ω → Option (FileId × ℕ)
  operatorInfo : LoweredModule → ℕ → Option (Associativity × ℕ)

def forTermOperatorId : ForOperatorId TermOperatorId where
  resolveOperator lowered id := lowered.termOperators id
  operatorInfo lowered id := ItemKind.info (lowered.termItems id)

def forTypeOperatorId : ForOperatorId TypeOperatorId where
  resolveOperator lowered id := lowered.typeOperators id
  operatorInfo lowered id := ItemKind.info (lowered.typeItems id)

variable {ε ω ι : Type}

/-- The modules that are kept are those that the queries give. -/
structure BracketingContext (ε : Type) where
  queries : FileId → Except ε LoweredModule
  lowered : LoweredModule
  loweredByFile : FileId → Option LoweredModule
  kept : ∀ fileId lowered, loweredByFile fileId = some lowered → queries fileId = .ok lowered

/-- Why bracketing stops without a result. -/
inductive Stop (ε : Type) where
  | query (error : ε)
  /-- The recursion is deeper than was allowed for. -/
  | tooDeep
  deriving DecidableEq, Repr

abbrev BracketM (ε : Type) := StateT (BracketingContext ε) (Except (Stop ε))

def BracketingContext.new (queries : FileId → Except ε LoweredModule) (lowered : LoweredModule) :
    BracketingContext ε where
  queries
  lowered
  loweredByFile _ := none
  kept _ _ hfound := absurd hfound (by simp)

/-- Keep a module that was queried. -/
def BracketingContext.insert (context : BracketingContext ε) {fileId : FileId}
    {lowered : LoweredModule} (hasked : context.queries fileId = .ok lowered) :
    BracketingContext ε where
  queries := context.queries
  lowered := context.lowered
  loweredByFile := Function.update context.loweredByFile fileId lowered
  kept other module_ hfound := by
    by_cases hsame : other = fileId
    · subst hsame
      simp only [Function.update_self, Option.some.injEq] at hfound
      rw [← hfound]
      exact hasked
    · rw [Function.update_of_ne hsame] at hfound
      exact context.kept other module_ hfound

/-- Resolve an operator, its associativity and its precedence. -/
def operatorInfo (forId : ForOperatorId ω) (id : ω) : BracketM ε (Option (Associativity × ℕ)) := do
  let context ← get
  match forId.resolveOperator context.lowered id with
  | none => return none
  | some (fileId, itemId) =>
    match context.loweredByFile fileId with
    | some lowered => return forId.operatorInfo lowered itemId
    | none =>
      match hasked : context.queries fileId with
      | .error error => throw (.query error)
      | .ok lowered =>
        set (context.insert hasked)
        return forId.operatorInfo lowered itemId

/-- Arithmetic of `u8` that stops at the largest value. -/
def saturatingAdd (a b : ℕ) : ℕ := min (a + b) 255

def saturatingMul (a b : ℕ) : ℕ := min (a * b) 255

/-- The powers to the left and to the right. -/
def bindingPower (associativity : Associativity) (precedence : ℕ) : ℕ × ℕ :=
  let base := saturatingMul precedence 2
  let bp₀ := saturatingAdd base 1
  let bp₁ := saturatingAdd base 2
  match associativity with
  | .None => (bp₀, bp₀)
  | .Left => (bp₀, bp₁)
  | .Right => (bp₁, bp₀)

/-! ## The algorithm -/

abbrev OperatorTree (ω ι : Type) := Pratt.Tree ω (Option ι)

structure OperatorInfo (ω : Type) where
  id : ω
  associativity : Associativity
  precedence : ℕ
  deriving DecidableEq, Repr

inductive BracketingError (ω : Type) where
  | InvalidOperator
  | FailedToResolve (id : ω)
  | NonAssociative (previous operator : OperatorInfo ω)
  | MixedAssociativity (previous operator : OperatorInfo ω)
  deriving DecidableEq, Repr

abbrev BracketingResult (ω ι : Type) := Except (BracketingError ω) (OperatorTree ω ι)

/-- The test of an operator against the operator of the enclosing call. -/
def conflict (previous operator : OperatorInfo ω) : Option (BracketingError ω) :=
  if operator.associativity = .None ∧ previous.associativity = .None then
    some (.NonAssociative previous operator)
  else if previous.associativity ≠ operator.associativity ∧
      previous.precedence = operator.precedence then
    some (.MixedAssociativity previous operator)
  else none

/-- The `while` of `bracket_loop`, with its left operand so far; it leaves the items that it did not
take. -/
def bracketLoop (forId : ForOperatorId ω) :
    ℕ → OperatorTree ω ι → List (OperatorPair ω ι) → ℕ → Option (OperatorInfo ω) →
      BracketM ε (Except (BracketingError ω) (OperatorTree ω ι × List (OperatorPair ω ι)))
  | _, left, [], _, _ => return .ok (left, [])
  | 0, _, _ :: _, _, _ => throw .tooDeep
  | depth + 1, left, pair :: items, minimumBindingPower, previousOperator =>
    match pair.id with
    | none => return .error .InvalidOperator
    | some id => do
      match ← operatorInfo forId id with
      | none => return .error (.FailedToResolve id)
      | some (associativity, precedence) =>
        let operator := { id, associativity, precedence }
        let (leftBindingPower, rightBindingPower) := bindingPower associativity precedence
        if leftBindingPower < minimumBindingPower then return .ok (left, pair :: items)
        else
          match previousOperator.bind (conflict · operator) with
          | some error => return .error error
          | none =>
            match ← bracketLoop forId depth (.Leaf pair.element) items rightBindingPower
                (some operator) with
            | .error error => return .error error
            | .ok (right, items) =>
              bracketLoop forId depth (.Branch id left right) items minimumBindingPower
                previousOperator

/-- The entry point; a chain of one operator is not resolved. -/
def bracket (forId : ForOperatorId ω) (item : Option ι) (items : List (OperatorPair ω ι)) :
    BracketM ε (BracketingResult ω ι) :=
  match items with
  | [⟨none, _⟩] => return .error .InvalidOperator
  | [⟨some id, element⟩] => return .ok (.Branch id (.Leaf item) (.Leaf element))
  | _ => do
    let result ← bracketLoop forId items.length (.Leaf item) items 0 none
    return result.map Prod.fst

/-- A loop of `bracketed`: the chains among the elements are bracketed, one after the other. -/
def bracketAll (forId : ForOperatorId ω) :
    List (ι × ElementKind ω ι) → BracketM ε (List (ι × BracketingResult ω ι))
  | [] => return []
  | (id, .OperatorChain head tail) :: elements => do
    let result ← bracket forId head tail
    let results ← bracketAll forId elements
    return (id, result) :: results
  | (_, .other) :: elements => bracketAll forId elements

/-- The result of bracketing for all operator chains of a module. -/
structure Bracketed where
  binders : List (BinderId × BracketingResult TermOperatorId BinderId)
  expressions : List (ExpressionId × BracketingResult TermOperatorId ExpressionId)
  types : List (TypeId × BracketingResult TypeOperatorId TypeId)

/-- The three loops, over one context. -/
def bracketModule (lowered : LoweredModule) : BracketM ε Bracketed := do
  let binders ← bracketAll forTermOperatorId lowered.binders
  let expressions ← bracketAll forTermOperatorId lowered.expressions
  let types ← bracketAll forTypeOperatorId lowered.types
  return { binders, expressions, types }

def bracketed (queries : FileId → Except ε LoweredModule) (lowered : LoweredModule) :
    Except (Stop ε) Bracketed :=
  (bracketModule lowered).run' (.new queries lowered)

/-! ## Operators that resolve -/

namespace BracketingContext

variable {context context' context'' : BracketingContext ε}

/-- What an operator resolves to, if the queries are asked afresh. -/
def infoOf (context : BracketingContext ε) (forId : ForOperatorId ω) (id : ω) :
    Except ε (Option (Associativity × ℕ)) :=
  match forId.resolveOperator context.lowered id with
  | none => .ok none
  | some (fileId, itemId) => (context.queries fileId).map (forId.operatorInfo · itemId)

/-- A context that differs in nothing but what it keeps. -/
structure Follows (context context' : BracketingContext ε) : Prop where
  queries : context'.queries = context.queries
  lowered : context'.lowered = context.lowered

lemma Follows.refl : Follows context context := ⟨rfl, rfl⟩

lemma Follows.trans (h : Follows context context') (h' : Follows context' context'') :
    Follows context context'' :=
  ⟨h'.queries.trans h.queries, h'.lowered.trans h.lowered⟩

lemma Follows.infoOf_eq (h : Follows context context') (forId : ForOperatorId ω) (id : ω) :
    context'.infoOf forId id = context.infoOf forId id := by
  simp [infoOf, h.queries, h.lowered]

end BracketingContext

open BracketingContext

variable {context : BracketingContext ε} {forId : ForOperatorId ω}

/-- What is kept changes no answer. -/
lemma operatorInfo_ends {id : ω} {info : Option (Associativity × ℕ)}
    (h : context.infoOf forId id = .ok info) :
    Ends (operatorInfo forId id) context fun answer context' =>
      answer = info ∧ Follows context context' := by
  simp only [operatorInfo, ends_bind, ends_get]
  unfold infoOf at h
  cases hfound : forId.resolveOperator context.lowered id with
  | none =>
    simp only [hfound] at h
    cases h
    exact ends_pure.mpr ⟨rfl, .refl⟩
  | some item =>
    obtain ⟨fileId, itemId⟩ := item
    simp only [hfound] at h ⊢
    cases hstored : context.loweredByFile fileId with
    | some lowered =>
      simp only [context.kept fileId lowered hstored] at h
      cases h
      exact ends_pure.mpr ⟨rfl, .refl⟩
    | none =>
      simp only
      split
      · next error hasked =>
        simp only [hasked] at h
        cases h
      · next lowered hasked =>
        simp only [hasked] at h
        cases h
        simp only [ends_bind, ends_set, ends_pure]
        exact ⟨trivial, rfl, rfl⟩

lemma operatorInfo_error {id : ω} {error : ε} (h : context.infoOf forId id = .error error) :
    (operatorInfo forId id).run context = .error (.query error) := by
  unfold infoOf at h
  cases hfound : forId.resolveOperator context.lowered id with
  | none => simp [hfound] at h
  | some item =>
    obtain ⟨fileId, itemId⟩ := item
    simp only [hfound] at h
    cases hasked : context.queries fileId with
    | ok lowered =>
      rw [hasked] at h
      cases h
    | error other =>
      rw [hasked] at h
      cases h
      have hstored : context.loweredByFile fileId = none := by
        cases hstored : context.loweredByFile fileId with
        | none => rfl
        | some lowered => simp [context.kept fileId lowered hstored] at hasked
      simp only [operatorInfo, StateT.run_bind, StateT.run_get, pure_bind, hfound, hstored]
      split
      · next error' hasked' =>
        rw [hasked] at hasked'
        cases hasked'
        rfl
      · next lowered hasked' =>
        rw [hasked] at hasked'
        cases hasked'

/-! ## The binding powers of a chain -/

/-- An operator with what it resolves to. -/
def OperatorInfo.of (info : ω → Associativity × ℕ) (id : ω) : OperatorInfo ω :=
  ⟨id, (info id).1, (info id).2⟩

/-- The powers of operators that resolve, and their conflicts. -/
def powers (info : ω → Associativity × ℕ) : Powers ω (BracketingError ω) where
  left id := (bindingPower (info id).1 (info id).2).1
  right id := (bindingPower (info id).1 (info id).2).2
  clash previous id := conflict (.of info previous) (.of info id)

/-- An operator and the operand after it. -/
def pairOf (item : ω × Option ι) : OperatorPair ω ι := ⟨some item.1, item.2⟩

/-- All operators of the chain resolve. -/
def Resolves (context : BracketingContext ε) (forId : ForOperatorId ω)
    (info : ω → Associativity × ℕ) (chain : List (ω × Option ι)) : Prop :=
  ∀ item ∈ chain, context.infoOf forId item.1 = .ok (some (info item.1))

variable {chain : List (ω × Option ι)}

lemma Resolves.follows {context' : BracketingContext ε} {info : ω → Associativity × ℕ}
    {chain' : List (ω × Option ι)} (h : Resolves context forId info chain)
    (follows : Follows context context') (hsub : chain' ⊆ chain) :
    Resolves context' forId info chain' := fun item hmem => by
  rw [follows.infoOf_eq]
  exact h item (hsub hmem)

/-- What the loop leaves of a chain. -/
def leftOver (outcome : Except (BracketingError ω) (OperatorTree ω ι × List (ω × Option ι))) :
    Except (BracketingError ω) (OperatorTree ω ι × List (OperatorPair ω ι)) :=
  outcome.map fun (tree, rest) => (tree, rest.map pairOf)

/-- **The loop climbs the binding powers.** -/
theorem bracketLoop_ends {info : ω → Associativity × ℕ} {depth : ℕ} {left : OperatorTree ω ι}
    {minimum : ℕ} {previous : Option ω} (hresolves : Resolves context forId info chain)
    (henough : chain.length ≤ depth) :
    Ends (bracketLoop forId depth left (chain.map pairOf) minimum
        (previous.map (OperatorInfo.of info))) context fun result context' =>
      result = leftOver (climb (powers info) depth left chain minimum previous) ∧
        Follows context context' := by
  induction depth generalizing left chain minimum previous context with
  | zero =>
    obtain rfl := List.length_eq_zero_iff.mp (Nat.le_zero.mp henough)
    simp only [List.map_nil, bracketLoop, ends_pure]
    exact ⟨rfl, .refl⟩
  | succ depth ih =>
    cases chain with
    | nil =>
      simp only [List.map_nil, bracketLoop, ends_pure]
      exact ⟨rfl, .refl⟩
    | cons item chain =>
      obtain ⟨id, element⟩ := item
      have hshorter : chain.length ≤ depth := Nat.le_of_succ_le_succ henough
      simp only [List.map_cons, pairOf, bracketLoop, climb, ends_bind]
      refine (operatorInfo_ends (hresolves (id, element) List.mem_cons_self)).mono ?_
      rintro _ context₁ ⟨rfl, hfollows₁⟩
      have hconflicts : (previous.map (OperatorInfo.of info)).bind
          (conflict · ⟨id, (info id).1, (info id).2⟩) =
          previous.bind ((powers info).clash · id) := by
        cases previous <;> rfl
      simp only [hconflicts]
      by_cases hlower : (powers info).left id < minimum
      · have hlower' : (bindingPower (info id).1 (info id).2).1 < minimum := hlower
        simp only [hlower, hlower', if_true, ends_pure]
        exact ⟨rfl, hfollows₁⟩
      have hlower' : ¬(bindingPower (info id).1 (info id).2).1 < minimum := hlower
      simp only [hlower, hlower', if_false]
      cases hclash : previous.bind ((powers info).clash · id) with
      | some error =>
        simp only [ends_pure]
        exact ⟨rfl, hfollows₁⟩
      | none =>
        have hsub : chain ⊆ (id, element) :: chain := List.subset_cons_self _ _
        simp only [ends_bind]
        refine (@ih _ _ _ _ (some id) (hresolves.follows hfollows₁ hsub)
          hshorter).mono ?_
        rintro _ context₂ ⟨rfl, hfollows₂⟩
        have hright_eq : (bindingPower (info id).1 (info id).2).2 = (powers info).right id := rfl
        rw [hright_eq]
        cases hran : climb (powers info) depth (.Leaf element) chain ((powers info).right id)
            (some id) with
        | error error => exact ends_pure.mpr ⟨rfl, hfollows₁.trans hfollows₂⟩
        | ok inner =>
          have hsuffix := climb_suffix _ hran
          have hfollows := hfollows₁.trans hfollows₂
          refine (ih (hresolves.follows hfollows (List.Subset.trans hsuffix.subset hsub))
            (Nat.le_trans hsuffix.length_le hshorter)).mono ?_
          rintro _ context₃ ⟨rfl, hfollows₃⟩
          exact ⟨rfl, hfollows.trans hfollows₃⟩

/-- The tree of a chain whose operators resolve, or what is wrong with it. -/
def bracketing (info : ω → Associativity × ℕ) (head : Option ι) (chain : List (ω × Option ι)) :
    BracketingResult ω ι :=
  (climb (powers info) chain.length (.Leaf head) chain 0 none).map Prod.fst

/-- **Bracketing climbs the binding powers.** -/
theorem bracket_ends {info : ω → Associativity × ℕ} {head : Option ι}
    (hresolves : Resolves context forId info chain) :
    Ends (bracket forId head (chain.map pairOf)) context fun result context' =>
      result = bracketing info head chain ∧ Follows context context' := by
  have hloops : Ends (do
      let result ← bracketLoop forId (chain.map pairOf).length (.Leaf head)
        (chain.map pairOf) 0 none
      return result.map Prod.fst) context fun result context' =>
        result = bracketing info head chain ∧ Follows context context' := by
    rw [ends_bind, List.length_map]
    refine (@bracketLoop_ends _ _ _ _ _ _ _ _ _ _ none hresolves (Nat.le_refl _)).mono ?_
    rintro _ context' ⟨rfl, hfollows⟩
    refine ends_pure.mpr ⟨?_, hfollows⟩
    unfold bracketing leftOver
    cases climb (powers info) chain.length (.Leaf head) chain 0 none <;> rfl
  match chain, hresolves, hloops with
  | [], _, hloops => exact hloops
  | [(id, element)], _, _ => exact ends_pure.mpr ⟨rfl, .refl⟩
  | first :: second :: chain, _, hloops => exact hloops

/-! ## All chains of a module -/

/-- From every context that differs in nothing but what it keeps, the program comes to the
outcome. -/
def Yields {α : Type} (context : BracketingContext ε) (program : BracketM ε α) :
    Except (Stop ε) α → Prop
  | .ok a => ∀ context', Follows context context' →
      Ends program context' fun found last => found = a ∧ Follows context last
  | .error stop => ∀ context', Follows context context' → program.run context' = .error stop

namespace Yields

variable {α β : Type} {program : BracketM ε α} {next : α → BracketM ε β}
  {outcome : Except (Stop ε) β}

lemma pure (a : α) : Yields context (Pure.pure a) (.ok a) :=
  fun _ hfollows => ends_pure.mpr ⟨rfl, hfollows⟩

lemma bind {a : α} (h : Yields context program (.ok a)) (hnext : Yields context (next a) outcome) :
    Yields context (program >>= next) outcome := by
  cases outcome with
  | ok b =>
    intro context' hfollows
    rw [ends_bind]
    refine (h context' hfollows).mono ?_
    rintro _ last ⟨rfl, hlast⟩
    exact hnext last hlast
  | error stop =>
    intro context' hfollows
    obtain ⟨found, last, hrun, rfl, hlast⟩ := h context' hfollows
    rw [StateT.run_bind, hrun]
    exact hnext last hlast

lemma bind_error {stop : Stop ε} (h : Yields context program (.error stop)) :
    Yields context (program >>= next) (.error stop) := by
  intro context' hfollows
  rw [StateT.run_bind, h context' hfollows]
  rfl

/-- What the rest comes to, the whole comes to. -/
lemma exists_bind {a : α} {P : Except (Stop ε) β → Prop} (h : Yields context program (.ok a))
    (hnext : ∃ outcome, Yields context (next a) outcome ∧ P outcome) :
    ∃ outcome, Yields context (program >>= next) outcome ∧ P outcome := by
  obtain ⟨outcome, hnext, hP⟩ := hnext
  exact ⟨outcome, h.bind hnext, hP⟩

/-- The outcome is that of the run from the context itself. -/
lemma run'_eq {outcome : Except (Stop ε) α} (h : Yields context program outcome) :
    program.run' context = outcome := by
  have hrun' : program.run' context = Prod.fst <$> program.run context := rfl
  cases outcome with
  | ok a =>
    obtain ⟨_, _, hrun, rfl, _⟩ := h context .refl
    rw [hrun', hrun]
    rfl
  | error stop =>
    rw [hrun', h context .refl]
    rfl

end Yields

lemma operatorInfo_yields (id : ω) :
    Yields context (operatorInfo forId id) ((context.infoOf forId id).mapError .query) := by
  cases hinfo : context.infoOf forId id with
  | ok info =>
    intro context' hfollows
    refine (operatorInfo_ends ((hfollows.infoOf_eq forId id).trans hinfo)).mono ?_
    rintro _ last ⟨rfl, hlast⟩
    exact ⟨rfl, hfollows.trans hlast⟩
  | error error =>
    intro context' hfollows
    exact operatorInfo_error ((hfollows.infoOf_eq forId id).trans hinfo)

/-- The loop does not run out of depth, and it leaves no more items than it was given. -/
def Within (items : List (OperatorPair ω ι))
    (outcome : Except (Stop ε)
      (Except (BracketingError ω) (OperatorTree ω ι × List (OperatorPair ω ι)))) : Prop :=
  outcome ≠ .error .tooDeep ∧
    ∀ tree rest, outcome = .ok (.ok (tree, rest)) → rest.length ≤ items.length

/-- **The outcome of the loop is that of the queries**, whatever is kept. -/
theorem bracketLoop_yields {depth : ℕ} {left : OperatorTree ω ι}
    {items : List (OperatorPair ω ι)} {minimum : ℕ} {previous : Option (OperatorInfo ω)}
    (henough : items.length ≤ depth) :
    ∃ outcome, Yields context (bracketLoop forId depth left items minimum previous) outcome ∧
      Within items outcome := by
  induction depth generalizing left items minimum previous with
  | zero =>
    obtain rfl := List.length_eq_zero_iff.mp (Nat.le_zero.mp henough)
    exact ⟨_, .pure _, by simp [Within]⟩
  | succ depth ih =>
    cases items with
    | nil => exact ⟨_, .pure _, by simp [Within]⟩
    | cons pair items =>
      obtain ⟨id, element⟩ := pair
      have hshorter : items.length ≤ depth := Nat.le_of_succ_le_succ henough
      cases id with
      | none => exact ⟨_, .pure _, by simp [Within]⟩
      | some id =>
        have hasked := @operatorInfo_yields _ _ context forId id
        cases hinfo : context.infoOf forId id with
        | error error =>
          rw [hinfo] at hasked
          exact ⟨_, .bind_error hasked, by simp [Within]⟩
        | ok info =>
          rw [hinfo] at hasked
          refine hasked.exists_bind ?_
          cases info with
          | none => exact ⟨_, .pure _, by simp [Within]⟩
          | some info =>
            obtain ⟨associativity, precedence⟩ := info
            by_cases hlower : (bindingPower associativity precedence).1 < minimum
            · simp only [hlower, if_true]
              exact ⟨_, .pure _, by simp [Within]⟩
            simp only [hlower, if_false]
            cases previous.bind (conflict · ⟨id, associativity, precedence⟩) with
            | some error => exact ⟨_, .pure _, by simp [Within]⟩
            | none =>
              obtain ⟨inner, hinner, hdeep, hleft⟩ := @ih (.Leaf element) items
                (bindingPower associativity precedence).2 (some ⟨id, associativity, precedence⟩)
                hshorter
              match inner, hinner, hdeep, hleft with
              | .error stop, hinner, hdeep, _ =>
                exact ⟨.error stop, .bind_error hinner, fun heq => hdeep (by cases heq; rfl),
                  by simp⟩
              | .ok (.error error), hinner, _, _ =>
                exact ⟨_, .bind hinner (.pure _), by simp [Within]⟩
              | .ok (.ok (right, rest)), hinner, _, hleft =>
                have hrest := hleft right rest rfl
                obtain ⟨outcome, houtcome, hdeep, hless⟩ := @ih (.Branch id left right) rest
                  minimum previous (Nat.le_trans hrest hshorter)
                refine ⟨outcome, .bind hinner houtcome, hdeep, fun tree last heq => ?_⟩
                have := hless tree last heq
                simp only [List.length_cons]
                omega

/-- The result of a chain that is bracketed alone, with nothing kept. -/
def alone (queries : FileId → Except ε LoweredModule) (lowered : LoweredModule)
    (forId : ForOperatorId ω) (head : Option ι) (tail : List (OperatorPair ω ι)) :
    Except (Stop ε) (BracketingResult ω ι) :=
  (bracket forId head tail).run' (.new queries lowered)

/-- The chains among the elements, each bracketed alone. -/
def aloneAll (queries : FileId → Except ε LoweredModule) (lowered : LoweredModule)
    (forId : ForOperatorId ω) :
    List (ι × ElementKind ω ι) → Except (Stop ε) (List (ι × BracketingResult ω ι))
  | [] => return []
  | (id, .OperatorChain head tail) :: elements => do
    let result ← alone queries lowered forId head tail
    let results ← aloneAll queries lowered forId elements
    return (id, result) :: results
  | (_, .other) :: elements => aloneAll queries lowered forId elements

variable {queries : FileId → Except ε LoweredModule} {lowered : LoweredModule}

lemma bracket_yields (head : Option ι) (tail : List (OperatorPair ω ι)) :
    ∃ outcome, Yields context (bracket forId head tail) outcome ∧ outcome ≠ .error .tooDeep := by
  have hloops : ∃ outcome, Yields context (do
      let result ← bracketLoop forId tail.length (.Leaf head) tail 0 none
      return result.map Prod.fst) outcome ∧ outcome ≠ .error .tooDeep := by
    obtain ⟨outcome, houtcome, hdeep, _⟩ := @bracketLoop_yields _ _ _ context forId tail.length
      (.Leaf head) tail 0 none (Nat.le_refl _)
    cases outcome with
    | ok result => exact ⟨_, .bind houtcome (.pure _), by simp⟩
    | error stop => exact ⟨_, .bind_error houtcome, fun heq => hdeep (by cases heq; rfl)⟩
  match tail, hloops with
  | [], hloops => exact hloops
  | [⟨none, _⟩], _ => exact ⟨_, .pure _, by simp⟩
  | [⟨some _, _⟩], _ => exact ⟨_, .pure _, by simp⟩
  | ⟨none, _⟩ :: _ :: _, hloops => exact hloops
  | ⟨some _, _⟩ :: _ :: _, hloops => exact hloops

lemma bracket_yields_alone (head : Option ι) (tail : List (OperatorPair ω ι)) :
    Yields (.new queries lowered) (bracket forId head tail)
      (alone queries lowered forId head tail) := by
  obtain ⟨outcome, houtcome, _⟩ := @bracket_yields _ _ _ (.new queries lowered) forId head tail
  rw [alone, houtcome.run'_eq]
  exact houtcome

/-- A chain alone stops at nothing but the error of a query. -/
lemma alone_ne_tooDeep (head : Option ι) (tail : List (OperatorPair ω ι)) :
    alone queries lowered forId head tail ≠ .error .tooDeep := by
  obtain ⟨outcome, houtcome, hdeep⟩ := @bracket_yields _ _ _ (.new queries lowered) forId head tail
  rw [alone, houtcome.run'_eq]
  exact hdeep

/-- The outcome of a sequence is the sequence of the outcomes. -/
lemma Yields.andThen {α β : Type} {program : BracketM ε α} {next : α → BracketM ε β}
    {first : Except (Stop ε) α} {second : α → Except (Stop ε) β}
    (h : Yields context program first) (hnext : ∀ a, Yields context (next a) (second a)) :
    Yields context (program >>= next) (first >>= second) := by
  cases first with
  | ok a => exact .bind h (hnext a)
  | error stop => exact .bind_error h

/-- A loop over the elements brackets each chain as if it were alone. -/
lemma bracketAll_yields (elements : List (ι × ElementKind ω ι)) :
    Yields (.new queries lowered) (bracketAll forId elements)
      (aloneAll queries lowered forId elements) := by
  induction elements with
  | nil => exact .pure _
  | cons element elements ih =>
    obtain ⟨id, kind⟩ := element
    cases kind with
    | OperatorChain head tail =>
      exact (bracket_yields_alone head tail).andThen fun _ => ih.andThen fun _ => .pure _
    | other => exact ih

lemma bind_ne_tooDeep {α β : Type} {first : Except (Stop ε) α} {second : α → Except (Stop ε) β}
    (h : first ≠ .error .tooDeep) (hnext : ∀ a, second a ≠ .error .tooDeep) :
    first >>= second ≠ .error .tooDeep := by
  cases first with
  | ok a => exact hnext a
  | error stop => exact fun heq => h (by cases heq; rfl)

lemma aloneAll_ne_tooDeep (elements : List (ι × ElementKind ω ι)) :
    aloneAll queries lowered forId elements ≠ .error .tooDeep := by
  induction elements with
  | nil => exact nofun
  | cons element elements ih =>
    obtain ⟨id, kind⟩ := element
    cases kind with
    | OperatorChain head tail =>
      exact bind_ne_tooDeep (alone_ne_tooDeep head tail) fun _ => bind_ne_tooDeep ih fun _ => nofun
    | other => exact ih

/-- All chains of a module, each bracketed alone. -/
def bracketedAlone (queries : FileId → Except ε LoweredModule) (lowered : LoweredModule) :
    Except (Stop ε) Bracketed := do
  let binders ← aloneAll queries lowered forTermOperatorId lowered.binders
  let expressions ← aloneAll queries lowered forTermOperatorId lowered.expressions
  let types ← aloneAll queries lowered forTypeOperatorId lowered.types
  return { binders, expressions, types }

lemma bracketed_eq : bracketed queries lowered = bracketedAlone queries lowered :=
  Yields.run'_eq ((bracketAll_yields _).andThen fun _ => (bracketAll_yields _).andThen fun _ =>
    (bracketAll_yields _).andThen fun _ => .pure _)

lemma bracketedAlone_ne_tooDeep : bracketedAlone queries lowered ≠ .error .tooDeep :=
  bind_ne_tooDeep (aloneAll_ne_tooDeep _) fun _ => bind_ne_tooDeep (aloneAll_ne_tooDeep _) fun _ =>
    bind_ne_tooDeep (aloneAll_ne_tooDeep _) fun _ => nofun

/-- A chain whose operators resolve has the tree of its binding powers, or the error. -/
lemma alone_of_resolves {info : ω → Associativity × ℕ} {head : Option ι}
    {chain : List (ω × Option ι)} (h : Resolves (.new queries lowered) forId info chain) :
    alone queries lowered forId head (chain.map pairOf) = .ok (bracketing info head chain) := by
  obtain ⟨_, last, hrun, rfl, _⟩ := @bracket_ends _ _ _ _ _ _ _ head h
  have hrun' : alone queries lowered forId head (chain.map pairOf) =
      Prod.fst <$> (bracket forId head (chain.map pairOf)).run (.new queries lowered) := rfl
  rw [hrun', hrun]
  rfl

end Iris.Sugar
