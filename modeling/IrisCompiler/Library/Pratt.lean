import Mathlib.Data.List.Induction

/-!
# Climbing binding powers

A Pratt parser turns a chain of binary operators into a tree.  Every operator has a power to its
left and one to its right; the parser takes an operator into the right operand of the one before it
as long as the power to its left is not below the power to the right of that one, and it may refuse
an operator because of the operator it would be put under.

The nested calls of the parser are a stack of the operators whose right operands are not complete.
Seen from the chain alone (`firstClash`), a new operator removes those from the stack that bind more
tightly to their right than it does to its left, and is then held against the top of what is left.
The parser refuses a chain exactly if that happens (`climb_refused`), and otherwise it makes a tree
of the whole chain in which the powers are respected everywhere (`climb_built`).
-/

namespace Pratt

variable {ι α ε : Type}

/-- A tree of binary operators. -/
inductive Tree (ι α : Type) where
  | Branch (operator : ι) (left right : Tree ι α)
  | Leaf (item : α)
  deriving DecidableEq, Repr

namespace Tree

/-- The operator at the root. -/
def root : Tree ι α → Option ι
  | Branch operator _ _ => some operator
  | Leaf _ => none

/-- The first item in order. -/
def head : Tree ι α → α
  | Branch _ left _ => left.head
  | Leaf item => item

/-- The operators in order, each with the item after it. -/
def tail : Tree ι α → List (ι × α)
  | Branch operator left right => left.tail ++ (operator, right.head) :: right.tail
  | Leaf _ => []

/-- The operators in order. -/
def operators (tree : Tree ι α) : List ι := tree.tail.map Prod.fst

@[simp] lemma operators_branch (operator : ι) (left right : Tree ι α) :
    (Branch operator left right).operators =
      left.operators ++ operator :: right.operators := by
  simp [operators, tail]

@[simp] lemma operators_leaf (item : α) : (Leaf item : Tree ι α).operators = [] := rfl

lemma root_mem_operators {tree : Tree ι α} {operator : ι} (h : tree.root = some operator) :
    operator ∈ tree.operators := by
  cases tree with
  | Branch o left right =>
    cases h
    simp
  | Leaf item => cases h

end Tree

/-- The powers of operators, and why an operator may not be put under another. -/
structure Powers (ι ε : Type) where
  left : ι → ℕ
  right : ι → ℕ
  /-- What is wrong with the second operator right under the first. -/
  clash : ι → ι → Option ε

variable (p : Powers ι ε)

/-- The loop of the parser: `tree` is the left operand so far.  An operator below `minimum` is left
to the caller, and `previous` is the operator that the caller is at.  It is given fuel for each
item. -/
def climb : ℕ → Tree ι α → List (ι × α) → ℕ → Option ι → Except ε (Tree ι α × List (ι × α))
  | _, tree, [], _, _ => .ok (tree, [])
  | 0, tree, items, _, _ => .ok (tree, items)
  | fuel + 1, tree, (operator, item) :: items, minimum, previous =>
    if p.left operator < minimum then .ok (tree, (operator, item) :: items)
    else
      match previous.bind (p.clash · operator) with
      | some error => .error error
      | none => do
        let (right, rest) ← climb fuel (.Leaf item) items (p.right operator) (some operator)
        climb fuel (.Branch operator tree right) rest minimum previous

variable {fuel : ℕ} {tree right : Tree ι α} {items rest : List (ι × α)} {operator : ι}
  {stack before : List ι}

/-- A call takes the items from the front of the chain. -/
lemma climb_suffix {result : Tree ι α} {minimum : ℕ} {previous : Option ι}
    (h : climb p fuel tree items minimum previous = .ok (result, rest)) : rest <:+ items := by
  induction fuel generalizing tree items minimum previous result rest with
  | zero => cases items <;> cases h <;> exact List.suffix_rfl
  | succ fuel ih =>
    cases items with
    | nil =>
      cases h
      exact List.suffix_rfl
    | cons first items =>
      obtain ⟨operator, item⟩ := first
      simp only [climb] at h
      split at h
      · cases h
        exact List.suffix_rfl
      · split at h
        · cases h
        · cases hran : climb p fuel (.Leaf item) items (p.right operator) (some operator) with
          | error error => simp [hran, bind, Except.bind] at h
          | ok inner =>
            rw [hran] at h
            exact ((ih h).trans (ih hran)).trans (List.suffix_cons _ _)

/-- The operators that stay on the stack when a new one comes. -/
def pop (operator : ι) (stack : List ι) : List ι :=
  stack.dropWhile fun other => p.left operator < p.right other

/-- The first thing that is wrong with a chain of operators on top of a stack. -/
def firstClash : List ι → List ι → Option ε
  | _, [] => none
  | stack, operator :: operators =>
    match (pop p operator stack).head?.bind (p.clash · operator) with
    | some error => some error
    | none => firstClash (operator :: pop p operator stack) operators

/-- The power that a call on top of the stack starts with. -/
def floor (stack : List ι) : ℕ := (stack.head?.map p.right).getD 0

variable {p}

lemma pop_of_le (h : floor p stack ≤ p.left operator) : pop p operator stack = stack := by
  cases stack with
  | nil => rfl
  | cons top stack =>
    have : ¬p.left operator < p.right top := Nat.not_lt.mpr h
    simp [pop, this]

lemma pop_of_lt {top : ι} (h : p.left operator < p.right top) (stack : List ι) :
    pop p operator (top :: stack) = pop p operator stack := by
  simp [pop, h]

/-- An operator whose right operand is complete does not matter to the rest of the chain. -/
lemma firstClash_of_lt {top : ι} {operators : List ι}
    (h : ∀ operator ∈ operators.head?, p.left operator < p.right top) (stack : List ι) :
    firstClash p (top :: stack) operators = firstClash p stack operators := by
  cases operators with
  | nil => rfl
  | cons operator operators =>
    have hlower := h operator rfl
    simp [firstClash, pop_of_lt hlower]

namespace Tree

/-- The powers are respected at every branch. -/
def Fits (p : Powers ι ε) : Tree ι α → Prop
  | Branch operator left right =>
    (∀ other ∈ left.root, p.left operator < p.right other) ∧
      (∀ other ∈ right.root, p.right operator ≤ p.left other ∧ p.clash operator other = none) ∧
      left.Fits p ∧ right.Fits p
  | Leaf _ => True

end Tree

/-- A left operand on top of a stack, before the rest of the chain. -/
structure Stands (p : Powers ι ε) (stack : List ι) (tree : Tree ι α) (rest : List (ι × α)) :
    Prop where
  fits : tree.Fits p
  accepted : ∀ operator ∈ tree.root, floor p stack ≤ p.left operator ∧
    ∀ top ∈ stack.head?, p.clash top operator = none
  next : ∀ operator ∈ tree.root, ∀ item ∈ rest.head?, p.left item.1 < p.right operator

lemma Stands.leaf (p : Powers ι ε) (stack : List ι) (item : α) (rest : List (ι × α)) :
    Stands p stack (.Leaf item) rest where
  fits := trivial
  accepted := by simp [Tree.root]
  next := by simp [Tree.root]

/-- What a call has made of a chain: a tree of the first items, and the rest, which is not for
it. -/
structure Built (p : Powers ι ε) (stack : List ι) (tree : Tree ι α) (items : List (ι × α))
    (result : Tree ι α) (rest : List (ι × α)) : Prop where
  stands : Stands p stack result rest
  head : result.head = tree.head
  tail : result.tail ++ rest = tree.tail ++ items
  stops : ∀ item ∈ rest.head?, p.left item.1 < floor p stack
  clash : firstClash p stack (items.map Prod.fst) = firstClash p stack (rest.map Prod.fst)

/-- One more operator with its right operand. -/
lemma Stands.branch {item : α} (h : Stands p stack tree ((operator, item) :: items))
    (henough : floor p stack ≤ p.left operator)
    (hfine : ∀ top ∈ stack.head?, p.clash top operator = none)
    (hbuilt : Built p (operator :: stack) (.Leaf item) items right rest) :
    Stands p stack (.Branch operator tree right) rest where
  fits := by
    refine ⟨fun other hroot => h.next other hroot _ rfl, fun other hroot => ?_, h.fits,
      hbuilt.stands.fits⟩
    obtain ⟨hle, hok⟩ := hbuilt.stands.accepted other hroot
    exact ⟨hle, hok operator rfl⟩
  accepted := by
    rintro _ ⟨⟩
    exact ⟨henough, hfine⟩
  next := by
    rintro _ ⟨⟩
    exact hbuilt.stops

/-- How a call may end. -/
def Outcome (p : Powers ι ε) (stack : List ι) (tree : Tree ι α) (items : List (ι × α)) :
    Except ε (Tree ι α × List (ι × α)) → Prop
  | .error error => firstClash p stack (items.map Prod.fst) = some error
  | .ok (result, rest) => Built p stack tree items result rest

lemma Built.refl (h : Stands p stack tree items)
    (hstops : ∀ item ∈ items.head?, p.left item.1 < floor p stack) :
    Built p stack tree items tree items :=
  ⟨h, rfl, rfl, hstops, rfl⟩

/-- A complete right operand leaves the stack as it was. -/
lemma Built.firstClash_eq (h : Built p (operator :: stack) tree items right rest) :
    firstClash p (operator :: stack) (items.map Prod.fst) =
      firstClash p stack (rest.map Prod.fst) := by
  rw [h.clash]
  refine firstClash_of_lt (fun next hmem => ?_) stack
  rw [List.head?_map, Option.mem_def, Option.map_eq_some_iff] at hmem
  obtain ⟨pair, hfound, rfl⟩ := hmem
  exact h.stops pair hfound

/-- **What the parser makes of a chain.**  With fuel for all items, it stops with what `firstClash`
finds or builds a tree. -/
theorem climb_outcome (henough : items.length ≤ fuel) (h : Stands p stack tree items) :
    Outcome p stack tree items (climb p fuel tree items (floor p stack) stack.head?) := by
  induction fuel generalizing stack tree items with
  | zero =>
    obtain rfl := List.length_eq_zero_iff.mp (Nat.le_zero.mp henough)
    exact .refl h (by simp)
  | succ fuel ih =>
    cases items with
    | nil => exact .refl h (by simp)
    | cons first items =>
      obtain ⟨operator, item⟩ := first
      have hshorter : items.length ≤ fuel := Nat.le_of_succ_le_succ henough
      rw [climb]
      by_cases hlower : p.left operator < floor p stack
      · rw [if_pos hlower]
        exact .refl h (by simpa using hlower)
      have hle : floor p stack ≤ p.left operator := Nat.not_lt.mp hlower
      have hscan : firstClash p stack (((operator, item) :: items).map Prod.fst) =
          match stack.head?.bind (p.clash · operator) with
          | some error => some error
          | none => firstClash p (operator :: stack) (items.map Prod.fst) := by
        rw [List.map_cons, firstClash, pop_of_le hle]
      rw [if_neg hlower]
      cases hclash : stack.head?.bind (p.clash · operator) with
      | some error =>
        rw [hclash] at hscan
        exact hscan
      | none =>
        rw [hclash] at hscan
        have hfine : ∀ top ∈ stack.head?, p.clash top operator = none := by
          intro top hfound
          simpa [Option.mem_def.mp hfound] using hclash
        -- the call for the right operand, and then the rest of the loop
        have hinner := ih hshorter (Stands.leaf p (operator :: stack) item items)
        change Outcome _ _ _ _ (climb p fuel (.Leaf item) items (p.right operator) (some operator))
          at hinner
        cases hran : climb p fuel (.Leaf item) items (p.right operator) (some operator) with
        | error error =>
          rw [hran] at hinner
          exact hscan.trans hinner
        | ok result =>
          obtain ⟨right, rest⟩ := result
          rw [hran] at hinner
          have hbuilt : Built p (operator :: stack) (.Leaf item) items right rest := hinner
          have hlength : rest.length ≤ fuel := by
            have := congrArg List.length hbuilt.tail
            simp only [List.length_append, Tree.tail, List.length_nil] at this
            omega
          have houter := ih hlength (h.branch hle hfine hbuilt)
          have hrescan := hscan.trans hbuilt.firstClash_eq
          change Outcome _ _ _ _ (climb p fuel (.Branch operator tree right) rest (floor p stack)
            stack.head?)
          cases hran : climb p fuel (.Branch operator tree right) rest (floor p stack)
              stack.head? with
          | error error =>
            rw [hran] at houter
            exact hrescan.trans houter
          | ok final =>
            rw [hran] at houter
            obtain ⟨hstands, head, htail, hstops, hclash⟩ := houter
            have hconsumed : right.tail ++ rest = items := hbuilt.tail
            refine ⟨hstands, head, ?_, hstops, hrescan.trans hclash⟩
            rw [htail, Tree.tail, hbuilt.head, ← hconsumed]
            simp [Tree.head]

/-- The parser takes all of the chain, or says what is wrong with it. -/
theorem climb_whole {head : α} (henough : items.length ≤ fuel) :
    match climb p fuel (.Leaf head) items 0 none with
    | .error error => firstClash p [] (items.map Prod.fst) = some error
    | .ok (tree, rest) => rest = [] ∧ firstClash p [] (items.map Prod.fst) = none ∧
        tree.head = head ∧ tree.tail = items ∧ tree.Fits p := by
  have houtcome := climb_outcome henough (Stands.leaf p [] head items)
  change Outcome _ _ _ _ (climb p fuel (.Leaf head) items 0 none) at houtcome
  cases hran : climb p fuel (.Leaf head) items 0 none with
  | error error =>
    rw [hran] at houtcome
    exact houtcome
  | ok result =>
    obtain ⟨tree, rest⟩ := result
    rw [hran] at houtcome
    have hbuilt : Built p [] (.Leaf head) items tree rest := houtcome
    obtain rfl : rest = [] := by
      cases rest with
      | nil => rfl
      | cons item rest => exact absurd (hbuilt.stops item rfl) (Nat.not_lt_zero _)
    exact ⟨rfl, hbuilt.clash,
      hbuilt.head, by simpa [Tree.tail] using hbuilt.tail, hbuilt.stands.fits⟩

/-! ## Clashes in the chain -/

/-- The operators whose right operands are not complete after a chain. -/
def opened (p : Powers ι ε) (operators : List ι) : List ι :=
  operators.foldl (fun stack operator => operator :: pop p operator stack) []

/-- The last operator of those before that takes a new one into its right operand. -/
def enclosing (p : Powers ι ε) (before : List ι) (operator : ι) : Option ι :=
  before.reverse.find? fun other => p.right other ≤ p.left operator

/-- The power to the right is at most one above the power to the left. -/
def Tight (p : Powers ι ε) : Prop := ∀ operator, p.right operator ≤ p.left operator + 1

lemma opened_concat (operators : List ι) (operator : ι) :
    opened p (operators ++ [operator]) = operator :: pop p operator (opened p operators) := by
  simp [opened]

/-- What the later of two operators removes, the earlier one did not need. -/
lemma pop_pop {other : ι} (hle : p.left operator ≤ p.left other) (stack : List ι) :
    pop p operator (pop p other stack) = pop p operator stack := by
  induction stack with
  | nil => rfl
  | cons top stack ih =>
    by_cases hlower : p.left other < p.right top
    · rw [pop_of_lt hlower, pop_of_lt (Nat.lt_of_le_of_lt hle hlower), ih]
    · have hstays : pop p other (top :: stack) = top :: stack := pop_of_le (Nat.not_lt.mp hlower)
      rw [hstays]

/-- The top of the stack is the enclosing operator. -/
lemma head?_pop_opened (htight : Tight p) (operators : List ι) (operator : ι) :
    (pop p operator (opened p operators)).head? = enclosing p operators operator := by
  induction operators using List.reverseRecOn with
  | nil => rfl
  | append_singleton operators last ih =>
    rw [opened_concat]
    by_cases hlower : p.left operator < p.right last
    · have hle : p.left operator ≤ p.left last := by
        have := htight last
        omega
      have hskipped : enclosing p (operators ++ [last]) operator =
          enclosing p operators operator := by
        simp [enclosing, Nat.not_le.mpr hlower]
      rw [pop_of_lt hlower, pop_pop hle, ih, hskipped]
    · have hstays : pop p operator (last :: pop p last (opened p operators)) =
          last :: pop p last (opened p operators) := pop_of_le (Nat.not_lt.mp hlower)
      rw [hstays]
      simp [enclosing, Nat.not_lt.mp hlower]

/-- What is wrong with an operator after those before it. -/
def clashAfter (p : Powers ι ε) (before : List ι) (operator : ι) : Option ε :=
  (enclosing p before operator).bind (p.clash · operator)

lemma firstClash_opened (htight : Tight p) (before : List ι) (operator : ι) (operators : List ι) :
    firstClash p (opened p before) (operator :: operators) =
      (clashAfter p before operator).or
        (firstClash p (opened p (before ++ [operator])) operators) := by
  have htop : (pop p operator (opened p before)).head?.bind (p.clash · operator) =
      clashAfter p before operator := by
    rw [head?_pop_opened htight, clashAfter]
  rw [firstClash, htop, opened_concat]
  cases clashAfter p before operator <;> rfl

/-- **The clash that the parser reports** is that of the first operator that clashes with the one
enclosing it. -/
theorem firstClash_eq_some (htight : Tight p) {operators : List ι} {error : ε} :
    firstClash p (opened p before) operators = some error ↔
      ∃ first operator rest, operators = first ++ operator :: rest ∧
        clashAfter p (before ++ first) operator = some error ∧
        ∀ earlier other later, first = earlier ++ other :: later →
          clashAfter p (before ++ earlier) other = none := by
  induction operators generalizing before with
  | nil => simp [firstClash]
  | cons operator operators ih =>
    rw [firstClash_opened htight]
    cases hclash : clashAfter p before operator with
    | some e =>
      rw [Option.some_or, Option.some.injEq]
      constructor
      · rintro rfl
        exact ⟨[], operator, operators, rfl, by simpa using hclash, by simp⟩
      · rintro ⟨first, other, rest, hsplit, hfound, hfine⟩
        cases first with
        | nil =>
          cases hsplit
          simpa [hclash] using hfound
        | cons _ first =>
          cases hsplit
          have := hfine [] operator first rfl
          simp [hclash] at this
    | none =>
      simp only [Option.none_or, ih, List.append_assoc]
      constructor
      · rintro ⟨first, other, rest, rfl, hfound, hfine⟩
        refine ⟨operator :: first, other, rest, rfl, hfound, fun earlier other' later hsplit => ?_⟩
        cases earlier with
        | nil =>
          cases hsplit
          simpa using hclash
        | cons _ earlier =>
          cases hsplit
          exact hfine earlier other' later rfl
      · rintro ⟨first, other, rest, hsplit, hfound, hfine⟩
        cases first with
        | nil =>
          cases hsplit
          simp [hclash] at hfound
        | cons _ first =>
          cases hsplit
          exact ⟨first, other, rest, rfl, hfound, fun earlier other' later hsame =>
            hfine (operator :: earlier) other' later (by rw [hsame]; rfl)⟩

lemma firstClash_eq_none (htight : Tight p) {operators : List ι} :
    firstClash p (opened p before) operators = none ↔
      ∀ first operator rest, operators = first ++ operator :: rest →
        clashAfter p (before ++ first) operator = none := by
  induction operators generalizing before with
  | nil => simp [firstClash]
  | cons operator operators ih =>
    rw [firstClash_opened htight, Option.or_eq_none_iff, ih]
    constructor
    · rintro ⟨hfine, hlater⟩ first other rest hsplit
      cases first with
      | nil =>
        cases hsplit
        simpa using hfine
      | cons _ first =>
        cases hsplit
        simpa using hlater first other rest rfl
    · intro hfine
      refine ⟨by simpa using hfine [] operator operators rfl, ?_⟩
      rintro first other rest rfl
      simpa using hfine (operator :: first) other rest rfl

end Pratt
