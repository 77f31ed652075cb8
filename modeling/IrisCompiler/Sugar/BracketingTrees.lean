import IrisCompiler.Sugar.Bracketing

/-!
# Which trees bracketing makes, and which chains it refuses

An operator takes a later one into its right operand if it binds less tightly (`Takes`).  The last
operator before another that takes it is the one that encloses it, and bracketing refuses a chain
because of an operator and the one enclosing it (`Refused`).

Two things are not as they are meant to be.  An operator is only held against the one enclosing it,
so that an `infixl` operator and a following `infix` operator of the same precedence go unnoticed,
and the chain is bracketed to the left (`wellBracketed_iff`).  And two `infix` operators are in
conflict whatever their precedences are.
-/

namespace Iris.Sugar

open TotalRun Pratt

variable {ε ω ι : Type}

/-- An associativity and a precedence. -/
abbrev Fixity := Associativity × ℕ

/-- An operator takes a later one into its right operand. -/
def Takes (first second : Fixity) : Prop :=
  first.2 < second.2 ∨ first.2 = second.2 ∧ (first.1 = .Left → second.1 = .Right)

instance (first second : Fixity) : Decidable (Takes first second) :=
  inferInstanceAs (Decidable (_ ∨ _))

/-- The two kinds of conflicts that the source tests for. -/
def Conflicting (previous operator : Fixity) : Prop :=
  previous.1 = .None ∧ operator.1 = .None ∨ previous.1 ≠ operator.1 ∧ previous.2 = operator.2

section Fixity

variable {first second : Fixity}

/-- For the precedences of the language the binding powers say which operator takes which. -/
lemma right_le_left_iff (hle : first.2 ≤ 9) (hle' : second.2 ≤ 9) :
    (bindingPower first.1 first.2).2 ≤ (bindingPower second.1 second.2).1 ↔ Takes first second := by
  obtain ⟨associativity, precedence⟩ := first
  obtain ⟨associativity', precedence'⟩ := second
  cases associativity <;> cases associativity' <;>
    simp [bindingPower, saturatingAdd, saturatingMul, Takes] <;> omega

lemma left_lt_right_iff (hle : first.2 ≤ 9) (hle' : second.2 ≤ 9) :
    (bindingPower second.1 second.2).1 < (bindingPower first.1 first.2).2 ↔
    ¬Takes first second := by
  rw [← right_le_left_iff hle hle', Nat.not_le]

lemma conflict_eq_none {previous operator : OperatorInfo ω} :
    conflict previous operator = none ↔ ¬Conflicting (previous.associativity, previous.precedence)
      (operator.associativity, operator.precedence) := by
  unfold conflict Conflicting
  split
  · next hboth => simp [hboth]
  · next hnotBoth =>
    split
    · next hmixed => simp [hmixed]
    · next hnotMixed =>
      simp only [true_iff]
      rintro (⟨hone, hother⟩ | hmixed)
      · exact hnotBoth ⟨hother, hone⟩
      · exact hnotMixed hmixed

end Fixity

variable {info : ω → Fixity}

lemma tight_powers (info : ω → Fixity) : Tight (powers info) := fun operator => by
  simp only [powers]
  cases (info operator).1 <;>
    simp [bindingPower, saturatingAdd] <;> omega

/-! ## Refused chains -/

/-- The last operator before `operator` that takes it. -/
def Encloses (info : ω → Fixity) (before : List ω) (operator previous : ω) : Prop :=
  ∃ front between, before = front ++ previous :: between ∧ Takes (info previous) (info operator) ∧
    ∀ other ∈ between, ¬Takes (info other) (info operator)

/-- Some operator is in conflict with the one that encloses it. -/
def Refused (info : ω → Fixity) (operators : List ω) : Prop :=
  ∃ before operator after previous, operators = before ++ operator :: after ∧
    Encloses info before operator previous ∧ Conflicting (info previous) (info operator)

/-- All operators have precedences of the language. -/
def InRange (info : ω → Fixity) (operators : List ω) : Prop :=
  ∀ operator ∈ operators, (info operator).2 ≤ 9

variable {operators before : List ω} {operator : ω} {error : BracketingError ω}
  {first second : Fixity}

lemma InRange.sub {operators' : List ω} (h : InRange info operators)
    (sub : operators' ⊆ operators) :
    InRange info operators' := fun operator hmem =>
  h operator (sub hmem)

lemma enclosing_iff {previous : ω} (hrange : InRange info before) (hle : (info operator).2 ≤ 9) :
    enclosing (powers info) before operator = some previous ↔
      Encloses info before operator previous := by
  have htakes : ∀ other ∈ before, ((powers info).right other ≤ (powers info).left operator ↔
      Takes (info other) (info operator)) := fun other hmem =>
    right_le_left_iff (hrange other hmem) hle
  rw [enclosing, List.find?_eq_some_iff_append]
  constructor
  · rintro ⟨htakes_previous, later, earlier, hsplit, hnone⟩
    have hsplit : before = earlier.reverse ++ previous :: later.reverse := by
      simpa using congrArg List.reverse hsplit
    refine ⟨earlier.reverse, later.reverse, hsplit, ?_, fun other hmem => ?_⟩
    · exact (htakes previous (by simp [hsplit])).mp (by simpa using htakes_previous)
    · have hinside : other ∈ before := by
        rw [hsplit]
        exact List.mem_append_right _ (List.mem_cons_of_mem _ hmem)
      rw [← htakes other hinside]
      simpa using hnone other (List.mem_reverse.mp hmem)
  · rintro ⟨front, between, rfl, htakes_previous, hnone⟩
    refine ⟨?_, between.reverse, front.reverse, by simp, fun other hmem => ?_⟩
    · simpa using (htakes previous (by simp)).mpr htakes_previous
    · have hmem := List.mem_reverse.mp hmem
      have := hnone other hmem
      rw [← htakes other (by simp [hmem])] at this
      simpa using this

lemma clashAfter_eq_some (hrange : InRange info before) (hle : (info operator).2 ≤ 9) :
    clashAfter (powers info) before operator = some error ↔
      ∃ previous, Encloses info before operator previous ∧
        conflict (.of info previous) (.of info operator) = some error := by
  simp only [clashAfter, Option.bind_eq_some_iff, enclosing_iff hrange hle]
  rfl

lemma clashAfter_eq_none (hrange : InRange info before) (hle : (info operator).2 ≤ 9) :
    clashAfter (powers info) before operator = none ↔
      ∀ previous, Encloses info before operator previous →
        ¬Conflicting (info previous) (info operator) := by
  rw [clashAfter, Option.bind_eq_none_iff]
  refine forall_congr' fun previous => ?_
  rw [enclosing_iff hrange hle]
  exact imp_congr Iff.rfl conflict_eq_none

/-- A chain is accepted if no operator clashes. -/
lemma accepted_iff (operators : List ω) :
    firstClash (powers info) [] operators = none ↔ ∀ before operator after,
      operators = before ++ operator :: after → clashAfter (powers info) before operator = none :=
  @firstClash_eq_none _ _ _ [] (tight_powers info) operators

/-- **Refused chains** are those with a conflict. -/
lemma firstClash_eq_none_iff (hrange : InRange info operators) :
    firstClash (powers info) [] operators = none ↔ ¬Refused info operators := by
  rw [accepted_iff]
  constructor
  · rintro hfine ⟨before, operator, after, previous, rfl, hencloses, hconflicting⟩
    have hnone := hfine before operator after rfl
    rw [clashAfter_eq_none (hrange.sub (by simp)) (hrange operator (by simp))] at hnone
    exact hnone previous hencloses hconflicting
  · rintro haccepted before operator after rfl
    rw [clashAfter_eq_none (hrange.sub (by simp)) (hrange operator (by simp))]
    intro previous hencloses hconflicting
    exact haccepted ⟨before, operator, after, previous, rfl, hencloses, hconflicting⟩

/-- The chain is refused because of its first operator in conflict. -/
lemma firstClash_eq_some_iff (hrange : InRange info operators) :
    firstClash (powers info) [] operators = some error ↔
      ∃ before operator after previous, operators = before ++ operator :: after ∧
        Encloses info before operator previous ∧
        conflict (.of info previous) (.of info operator) = some error ∧ ¬Refused info before := by
  have hscan : firstClash (powers info) [] operators = some error ↔ ∃ before operator after,
      operators = before ++ operator :: after ∧
        clashAfter (powers info) before operator = some error ∧ ∀ earlier other later,
          before = earlier ++ other :: later → clashAfter (powers info) earlier other = none :=
    @firstClash_eq_some _ _ _ [] (tight_powers info) operators error
  rw [hscan]
  constructor
  · rintro ⟨before, operator, after, rfl, hclash, hfine⟩
    rw [clashAfter_eq_some (hrange.sub (by simp)) (hrange operator (by simp))] at hclash
    obtain ⟨previous, hencloses, hfound⟩ := hclash
    rw [← accepted_iff, firstClash_eq_none_iff (hrange.sub (by simp))] at hfine
    exact ⟨before, operator, after, previous, rfl, hencloses, hfound, hfine⟩
  · rintro ⟨before, operator, after, previous, rfl, hencloses, hfound, hfine⟩
    rw [← firstClash_eq_none_iff (hrange.sub (by simp)), accepted_iff] at hfine
    refine ⟨before, operator, after, rfl, ?_, hfine⟩
    rw [clashAfter_eq_some (hrange.sub (by simp)) (hrange operator (by simp))]
    exact ⟨previous, hencloses, hfound⟩

/-! ## Well bracketed trees -/

/-- An operator may be at the root of the left operand of another. -/
def FitsLeft (inner outer : Fixity) : Prop :=
  outer.2 < inner.2 ∨ inner.2 = outer.2 ∧ inner.1 = .Left ∧ outer.1 = .Left

/-- An operator may be at the root of the right operand of another. -/
def FitsRight (inner outer : Fixity) : Prop :=
  outer.2 < inner.2 ∨ inner.2 = outer.2 ∧ inner.1 = .Right ∧ outer.1 = .Right

/-- Precedences and associativities are respected at every branch. -/
def WellBracketed (info : ω → Fixity) : OperatorTree ω ι → Prop
  | .Branch operator left right =>
    (∀ inner ∈ left.root, FitsLeft (info inner) (info operator)) ∧
      (∀ inner ∈ right.root, FitsRight (info inner) (info operator)) ∧
      WellBracketed info left ∧ WellBracketed info right
  | .Leaf _ => True

/-- An `infix` operator follows an `infixl` operator of its precedence, with only operators between
them that bind more tightly. -/
def Loose (info : ω → Fixity) (operators : List ω) : Prop :=
  ∃ front first between second rest precedence,
    operators = front ++ first :: between ++ second :: rest ∧ info first = (.Left, precedence) ∧
      info second = (.None, precedence) ∧ ∀ other ∈ between, precedence < (info other).2

lemma not_takes_iff : ¬Takes first second ↔
    FitsLeft first second ∨ first.2 = second.2 ∧ first.1 = .Left ∧ second.1 = .None := by
  obtain ⟨associativity, precedence⟩ := first
  obtain ⟨associativity', precedence'⟩ := second
  cases associativity <;> cases associativity' <;> simp [Takes, FitsLeft] <;> omega

lemma fitsRight_of_takes (htakes : Takes first second) (hfine : ¬Conflicting first second) :
    FitsRight second first := by
  obtain ⟨associativity, precedence⟩ := first
  obtain ⟨associativity', precedence'⟩ := second
  cases associativity <;> cases associativity' <;>
    simp [Takes, FitsRight, Conflicting] at htakes hfine ⊢ <;> omega

section Trees

variable {tree : OperatorTree ω ι}

variable {operator : ω} {left right : OperatorTree ω ι} {operators : List ω}

/-- What the parser guarantees at a branch, in terms of fixities. -/
lemma fits_branch (hrange : InRange info (Tree.Branch operator left right).operators)
    (hfits : (Tree.Branch operator left right).Fits (powers info)) :
    (∀ inner ∈ left.root, ¬Takes (info inner) (info operator)) ∧
      ∀ inner ∈ right.root, FitsRight (info inner) (info operator) := by
  obtain ⟨hfitsLeft, hfitsRight, _⟩ := hfits
  have hle : (info operator).2 ≤ 9 := hrange operator (by simp)
  refine ⟨fun inner hroot => ?_, fun inner hroot => ?_⟩
  · have hmem := Tree.root_mem_operators hroot
    exact (left_lt_right_iff (hrange inner (by simp [hmem])) hle).mp (hfitsLeft inner hroot)
  · have hmem := Tree.root_mem_operators hroot
    obtain ⟨htakes, hfine⟩ := hfitsRight inner hroot
    exact fitsRight_of_takes ((right_le_left_iff hle (hrange inner (by simp [hmem]))).mp htakes)
      (conflict_eq_none.mp hfine)

lemma InRange.children (hrange : InRange info (Tree.Branch operator left right).operators) :
    InRange info left.operators ∧ InRange info right.operators :=
  ⟨hrange.sub (by simp), hrange.sub (by simp)⟩

/-- No operator of a tree binds less tightly than the root. -/
lemma root_le (hrange : InRange info tree.operators) (hfits : tree.Fits (powers info))
    (hmem : operator ∈ tree.operators) :
    ∃ root, tree.root = some root ∧ (info root).2 ≤ (info operator).2 := by
  induction tree with
  | Leaf item => simp at hmem
  | Branch o left right ihLeft ihRight =>
    obtain ⟨hfitsLeft, hfitsRight⟩ := fits_branch hrange hfits
    obtain ⟨hrangeLeft, hrangeRight⟩ := hrange.children
    refine ⟨o, rfl, ?_⟩
    rw [Tree.operators_branch, List.mem_append, List.mem_cons] at hmem
    obtain hmem | rfl | hmem := hmem
    · obtain ⟨inner, hroot, hle⟩ := ihLeft hrangeLeft hfits.2.2.1 hmem
      have := not_takes_iff.mp (hfitsLeft inner hroot)
      simp only [FitsLeft] at this
      omega
    · exact Nat.le_refl _
    · obtain ⟨inner, hroot, hle⟩ := ihRight hrangeRight hfits.2.2.2 hmem
      have := hfitsRight inner hroot
      simp only [FitsRight] at this
      omega

lemma Loose.append_left (h : Loose info operators) (front : List ω) :
    Loose info (front ++ operators) := by
  obtain ⟨front', first, between, second, rest, precedence, rfl, hproperties⟩ := h
  exact ⟨front ++ front', first, between, second, rest, precedence, by simp, hproperties⟩

lemma Loose.append_right (h : Loose info operators) (rest : List ω) :
    Loose info (operators ++ rest) := by
  obtain ⟨front, first, between, second, rest', precedence, rfl, hproperties⟩ := h
  exact ⟨front, first, between, second, rest' ++ rest, precedence, by simp, hproperties⟩

/-- A tree that is not well bracketed has the loose pair at some branch. -/
lemma wellBracketed_of_not_loose (hrange : InRange info tree.operators)
    (hfits : tree.Fits (powers info)) (htight : ¬Loose info tree.operators) :
    WellBracketed info tree := by
  induction tree with
  | Leaf item => trivial
  | Branch o left right ihLeft ihRight =>
    obtain ⟨hfitsLeft, hfitsRight⟩ := fits_branch hrange hfits
    obtain ⟨hrangeLeft, hrangeRight⟩ := hrange.children
    rw [Tree.operators_branch] at htight
    refine ⟨fun inner hroot => ?_, hfitsRight, ihLeft hrangeLeft hfits.2.2.1 fun hloose => ?_,
      ihRight hrangeRight hfits.2.2.2 fun hloose => ?_⟩
    · refine (not_takes_iff.mp (hfitsLeft inner hroot)).resolve_right
        fun ⟨hsame, hfirst, hsecond⟩ => ?_
      -- what is between the two roots is in the right operand of the first
      cases left with
      | Leaf item => cases hroot
      | Branch _ leftLeft leftRight =>
        cases hroot
        refine htight ⟨leftLeft.operators, inner, leftRight.operators, o, right.operators,
          (info inner).2, by simp, Prod.ext hfirst rfl, Prod.ext hsecond hsame.symm,
          fun other hmem => ?_⟩
        obtain ⟨_, hinnerRight⟩ := fits_branch hrangeLeft hfits.2.2.1
        obtain ⟨top, hroot, hle⟩ := root_le hrangeLeft.children.2 hfits.2.2.1.2.2.2 hmem
        obtain higher | ⟨_, _, hright⟩ := hinnerRight top hroot
        · exact Nat.lt_of_lt_of_le higher hle
        · rw [hfirst] at hright
          cases hright
    · exact htight (hloose.append_right _)
    · have := hloose.append_left (left.operators ++ [o])
      rw [List.append_assoc] at this
      exact htight this

/-- Of two elements of a list one comes first, or they are the same. -/
lemma split_cons {α : Type} {before after before' after' : List α} {a b : α}
    (h : before ++ a :: after = before' ++ b :: after') :
    (∃ middle, before' = before ++ a :: middle ∧ after = middle ++ b :: after') ∨
      (before' = before ∧ b = a ∧ after' = after) ∨
      ∃ middle, before = before' ++ b :: middle ∧ after' = middle ++ a :: after := by
  obtain ⟨middle, rfl, hrest⟩ | ⟨middle, rfl, hrest⟩ := List.append_eq_append_iff.mp h
  · cases middle with
    | nil =>
      cases hrest
      exact .inr (.inl ⟨List.append_nil _, rfl, rfl⟩)
    | cons _ middle =>
      cases hrest
      exact .inl ⟨middle, rfl, rfl⟩
  · cases middle with
    | nil =>
      cases hrest
      exact .inr (.inl ⟨(List.append_nil _).symm, rfl, rfl⟩)
    | cons _ middle =>
      cases hrest
      exact .inr (.inr ⟨middle, rfl, rfl⟩)

/-- A loose pair is torn apart nowhere, so it is at some branch. -/
lemma not_wellBracketed_of_loose (hrange : InRange info tree.operators)
    (hfits : tree.Fits (powers info)) (hloose : Loose info tree.operators) :
    ¬WellBracketed info tree := by
  induction tree with
  | Leaf item =>
    obtain ⟨front, first, between, second, rest, precedence, hsplit, _⟩ := hloose
    simp at hsplit
  | Branch o left right ihLeft ihRight =>
    rintro ⟨hwellLeft, hwellRight, hbracketedLeft, hbracketedRight⟩
    obtain ⟨hrangeLeft, hrangeRight⟩ := hrange.children
    obtain ⟨front, first, between, second, rest, precedence, hsplit, hisFirst, hisSecond, higher⟩ :=
      hloose
    rw [Tree.operators_branch, List.append_assoc] at hsplit
    obtain ⟨middle, rfl, hrest_eq⟩ | ⟨rfl, rfl, hrest_eq⟩ | ⟨middle, hleft_eq, hrest_eq⟩ :=
      split_cons hsplit
    · -- both are in the right operand
      refine ihRight hrangeRight hfits.2.2.2 ?_ hbracketedRight
      exact ⟨middle, first, between, second, rest,
        precedence, by simp [hrest_eq], hisFirst, hisSecond,
        higher⟩
    · -- the first is the operator here, which takes nothing of its own precedence
      have hmem : second ∈ right.operators := by simp [← hrest_eq]
      obtain ⟨root, hfound, hle⟩ := root_le hrangeRight hfits.2.2.2 hmem
      have hfitting := hwellRight root hfound
      simp only [FitsRight, hisFirst, hisSecond, reduceCtorEq, and_false, or_false] at hfitting hle
      omega
    · have hmem : first ∈ left.operators := by simp [hleft_eq]
      obtain ⟨root, hfound, hle⟩ := root_le hrangeLeft hfits.2.2.1 hmem
      have hfitting := hwellLeft root hfound
      obtain ⟨middle', rfl, _⟩ | ⟨rfl, rfl, rfl⟩ | ⟨middle', rfl, rfl⟩ := split_cons hrest_eq.symm
      · -- the operator here is between the two, but binds more tightly than the first
        have habove := higher o (by simp)
        simp only [FitsLeft, hisFirst] at hfitting hle
        omega
      · simp only [FitsLeft, hisFirst, hisSecond, reduceCtorEq, and_false, or_false] at hfitting hle
        omega
      · -- both are in the left operand
        refine ihLeft hrangeLeft hfits.2.2.1 ?_ hbracketedLeft
        exact ⟨front, first, between, second, middle', precedence, by simp [hleft_eq], hisFirst,
          hisSecond, higher⟩

/-- **A tree of the parser is well bracketed exactly if its chain has no loose pair.** -/
theorem wellBracketed_iff (hrange : InRange info tree.operators) (hfits : tree.Fits (powers info)) :
    WellBracketed info tree ↔ ¬Loose info tree.operators :=
  ⟨fun hwell hloose => not_wellBracketed_of_loose hrange hfits hloose hwell,
    wellBracketed_of_not_loose hrange hfits⟩

end Trees

/-! ## Bracketing -/

section Bracket

variable {context : BracketingContext ε} {forId : ForOperatorId ω} {head : Option ι}
  {chain : List (ω × Option ι)}

/-- The operators of a chain. -/
def operatorsOf (chain : List (ω × Option ι)) : List ω := chain.map Prod.fst

/-- What bracketing makes of a chain that it does not refuse, or why it refuses it. -/
lemma bracketing_spec (info : ω → Fixity) (head : Option ι) (chain : List (ω × Option ι)) :
    match bracketing info head chain with
    | .error error => firstClash (powers info) [] (operatorsOf chain) = some error
    | .ok tree => firstClash (powers info) [] (operatorsOf chain) = none ∧ tree.head = head ∧
        tree.tail = chain ∧ tree.Fits (powers info) := by
  have hwhole := @climb_whole _ _ _ (powers info) chain.length chain head (Nat.le_refl _)
  unfold bracketing
  cases hran : climb (powers info) chain.length (.Leaf head) chain 0 none with
  | error error =>
    rw [hran] at hwhole
    exact hwhole
  | ok result =>
    rw [hran] at hwhole
    exact hwhole.2

/-- Bracketing ends with a result, and with an `Ok` only if the tree is that of the chain and well
bracketed. -/
def BracketsSoundly (context : BracketingContext ε) (forId : ForOperatorId ω) (info : ω → Fixity)
    (head : Option ι) (chain : List (ω × Option ι)) : Prop :=
  Ends (bracket forId head (chain.map pairOf)) context fun result _ =>
    ∀ tree, result = .ok tree → tree.head = head ∧ tree.tail = chain ∧ WellBracketed info tree

/-- Bracketing of a chain whose operators resolve ends with `bracketing`, and with nothing else. -/
lemma ends_bracket_iff (hresolves : Resolves context forId info chain)
    {post : BracketingResult ω ι → Prop} :
    Ends (bracket forId head (chain.map pairOf)) context (fun result _ => post result) ↔
      post (bracketing info head chain) := by
  have hends := @bracket_ends _ _ _ _ _ _ _ head hresolves
  constructor
  · intro holds
    obtain ⟨_, _, _, ⟨rfl, _⟩, hpost⟩ := hends.and holds
    exact hpost
  · intro holds
    refine hends.mono ?_
    rintro _ _ ⟨rfl, _⟩
    exact holds

/-- **Bracketing is sound except for loose pairs.**  The chain is bracketed in order and with
precedences and associativities respected, unless it is accepted although it has an `infixl`
operator followed by an `infix` operator of the same precedence with only tighter operators
between. -/
theorem bracketsSoundly_iff (hresolves : Resolves context forId info chain)
    (hrange : InRange info (operatorsOf chain)) :
    BracketsSoundly context forId info head chain ↔
      Refused info (operatorsOf chain) ∨ ¬Loose info (operatorsOf chain) := by
  rw [BracketsSoundly, ends_bracket_iff hresolves]
  have hspec := bracketing_spec info head chain
  have hscan := firstClash_eq_none_iff hrange
  cases hresult : bracketing info head chain with
  | error error =>
    rw [hresult] at hspec
    have hrefused : Refused info (operatorsOf chain) := by
      by_contra haccepted
      simp [hscan.mpr haccepted] at hspec
    simp [hrefused]
  | ok tree =>
    rw [hresult] at hspec
    obtain ⟨haccepted, hhead_eq, htail_eq, hfits⟩ := hspec
    have hoperators : tree.operators = operatorsOf chain := by
      rw [Tree.operators, htail_eq, operatorsOf]
    rw [← hoperators] at hrange hscan ⊢
    have hnot_refused := hscan.mp (hoperators ▸ haccepted)
    simp [hnot_refused, ← wellBracketed_iff hrange hfits, hhead_eq, htail_eq]

/-- A module that declares operators with the given fixities. -/
def fixityModule (info : ℕ → Fixity) : LoweredModule where
  termOperators id := some (0, id)
  typeOperators _ := none
  termItems id := some (.Operator (info id).1 (info id).2)
  typeItems _ := none
  binders := []
  expressions := []
  types := []

/-- Bracketing within that module. -/
def fixityContext (info : ℕ → Fixity) : BracketingContext Unit :=
  .new (fun _ => .ok (fixityModule info)) (fixityModule info)

lemma resolves_fixityContext (info : ℕ → Fixity) (chain : List (ℕ × Option ι)) :
    Resolves (fixityContext info) forTermOperatorId info chain := fun _ _ => rfl

/-- A sum with a product in it. -/
def sumFixity (id : ℕ) : Fixity := if id = 0 then (.Left, 6) else (.Left, 7)

lemma inRange_sum : InRange sumFixity (operatorsOf [(0, some 2), (1, some 3), (0, some 4)]) := by
  unfold InRange
  decide

theorem sum_bracketsSoundly :
    Resolves (fixityContext sumFixity) forTermOperatorId sumFixity
        [(0, some 2), (1, some 3), (0, some 4)] ∧
      InRange sumFixity (operatorsOf [(0, some 2), (1, some 3), (0, some 4)]) ∧
      BracketsSoundly (fixityContext sumFixity) forTermOperatorId sumFixity (some 1)
        [(0, some 2), (1, some 3), (0, some 4)] := by
  refine ⟨resolves_fixityContext _ _, inRange_sum,
    (bracketsSoundly_iff (resolves_fixityContext _ _) inRange_sum).mpr (.inr ?_)⟩
  rintro ⟨_, _, _, second, _, _, _, _, hisSecond, _⟩
  unfold sumFixity at hisSecond
  split at hisSecond <;> cases hisSecond

/-- **Every chain of a module is bracketed as if it were alone.**  The three loops share what they
keep of other modules; the result is still that of each chain by itself, and only the error of a
query stops it.  A chain whose operators resolve has the tree of its binding powers, or the error,
whatever the other chains are. -/
theorem bracketed_alone (queries : FileId → Except ε LoweredModule) (lowered : LoweredModule) :
    bracketed queries lowered = bracketedAlone queries lowered ∧
      (∀ stop, bracketed queries lowered = .error stop → ∃ error, stop = .query error) ∧
      ∀ {ω ι : Type} (forId : ForOperatorId ω) (info : ω → Fixity) (head : Option ι)
        (chain : List (ω × Option ι)), Resolves (.new queries lowered) forId info chain →
        alone queries lowered forId head (chain.map pairOf) =
          .ok (bracketing info head chain) := by
  refine ⟨bracketed_eq, fun stop hstop => ?_, fun _ _ _ _ => alone_of_resolves⟩
  cases stop with
  | query error => exact ⟨error, rfl⟩
  | tooDeep => exact absurd (bracketed_eq.symm.trans hstop) bracketedAlone_ne_tooDeep

/-- A module with a sum among its binders, its expressions and its types, and a chain of an operator
that does not resolve. -/
def sumModule : LoweredModule where
  termOperators id := if id < 2 then some (0, id) else none
  typeOperators id := some (0, id)
  termItems id := some (.Operator (sumFixity id).1 (sumFixity id).2)
  typeItems id := some (.Operator (sumFixity id).1 (sumFixity id).2)
  binders := [(0, .OperatorChain (some 1) ([(0, some 2), (1, some 3)].map pairOf)), (1, .other)]
  expressions := [(4, .OperatorChain (some 1) ([(2, some 2), (1, some 3)].map pairOf)),
    (5, .OperatorChain (some 1) ([(1, some 2), (0, some 3)].map pairOf))]
  types := [(7, .OperatorChain (some 8) ([(0, some 9), (1, some 10)].map pairOf))]

theorem bracketed_sums :
    Resolves (.new (fun _ => (.ok sumModule : Except Unit _)) sumModule) forTypeOperatorId sumFixity
        [(0, some 9), (1, some 10)] ∧
      alone (fun _ => (.ok sumModule : Except Unit _)) sumModule forTypeOperatorId (some 8)
          ([(0, some 9), (1, some 10)].map pairOf) =
        .ok (bracketing sumFixity (some 8) [(0, some 9), (1, some 10)]) ∧
      bracketed (fun _ => (.ok sumModule : Except Unit _)) sumModule = .ok
        { binders := [(0, bracketing sumFixity (some 1) [(0, some 2), (1, some 3)])]
          expressions := [(4, .error (.FailedToResolve 2)),
            (5, bracketing sumFixity (some 1) [(1, some 2), (0, some 3)])]
          types := [(7, bracketing sumFixity (some 8) [(0, some 9), (1, some 10)])] } := by
  refine ⟨fun _ _ => rfl, (bracketed_alone _ _).2.2 _ _ _ _ fun _ _ => rfl, ?_⟩
  rw [(bracketed_alone _ _).1]
  rfl

/-- An `infixl` and an `infix` operator of one precedence. -/
def looseFixity (id : ℕ) : Fixity := if id = 0 then (.Left, 5) else (.None, 5)

/-- The chain of the two is bracketed to the left. -/
theorem not_bracketsSoundly_loose :
    ¬BracketsSoundly (fixityContext looseFixity) forTermOperatorId looseFixity (some 1)
      [(0, some 2), (1, some 3)] := by
  rw [BracketsSoundly, ends_bracket_iff (resolves_fixityContext _ _)]
  intro hsound
  have hmade : bracketing looseFixity (some 1) [(0, some 2), (1, some 3)] =
      .ok (.Branch 1 (.Branch 0 (.Leaf (some 1)) (.Leaf (some 2))) (.Leaf (some 3))) := by rfl
  obtain ⟨_, _, hfitsLeft, _⟩ := hsound _ hmade
  have := hfitsLeft 0 rfl
  simp [FitsLeft, looseFixity] at this

/-! ### Conflicts -/

/-- Two operators of one precedence, with no operator of a lower one between them. -/
def OneLevel (info : ω → Fixity) (operators : List ω) (previous operator : OperatorInfo ω) : Prop :=
  ∃ front between rest, operators = front ++ previous.id :: between ++ operator.id :: rest ∧
    previous = .of info previous.id ∧ operator = .of info operator.id ∧
    previous.precedence = operator.precedence ∧
    ∀ other ∈ between, previous.precedence ≤ (info other).2

/-- An error names two operators that are in conflict. -/
def Justified (info : ω → Fixity) (operators : List ω) : BracketingError ω → Prop
  | .NonAssociative previous operator => OneLevel info operators previous operator ∧
      previous.associativity = .None ∧ operator.associativity = .None
  | .MixedAssociativity previous operator => OneLevel info operators previous operator ∧
      previous.associativity ≠ operator.associativity
  | .InvalidOperator => False
  | .FailedToResolve _ => False

/-- Operators of one precedence that no lower one separates are all `infixl` or all `infixr`. -/
def Harmless (info : ω → Fixity) (operators : List ω) : Prop :=
  ∀ front first between second rest, operators = front ++ first :: between ++ second :: rest →
    (info first).2 = (info second).2 → (∀ other ∈ between, (info first).2 ≤ (info other).2) →
    (info first).1 = (info second).1 ∧ (info first).1 ≠ .None

/-- Bracketing ends with a result, with an error only if it is justified, and with none if the chain
is harmless. -/
def RejectsOnlyConflicts (context : BracketingContext ε) (forId : ForOperatorId ω)
    (info : ω → Fixity) (head : Option ι) (chain : List (ω × Option ι)) : Prop :=
  Ends (bracket forId head (chain.map pairOf)) context fun result _ =>
    (∀ error, result = .error error → Justified info (operatorsOf chain) error) ∧
      (Harmless info (operatorsOf chain) → ∃ tree, result = .ok tree)

/-- An `infix` operator is enclosed by another of a lower precedence, and nothing before is in
conflict. -/
def Spurious (info : ω → Fixity) (operators : List ω) : Prop :=
  ∃ before operator after previous, operators = before ++ operator :: after ∧
    Encloses info before operator previous ∧ (info previous).1 = .None ∧
    (info operator).1 = .None ∧ (info previous).2 < (info operator).2 ∧ ¬Refused info before

variable {before after : List ω} {operator previous : ω} {error : BracketingError ω}

/-- The operators between an operator and the one that encloses it do not bind less tightly. -/
lemma Encloses.oneLevel (h : Encloses info before operator previous)
    (hsame : (info previous).2 = (info operator).2) :
    OneLevel info (before ++ operator :: after) (.of info previous) (.of info operator) := by
  obtain ⟨front, between, rfl, _, hnone⟩ := h
  refine ⟨front, between, after, rfl, rfl, rfl, hsame, fun other hmem => ?_⟩
  have := not_takes_iff.mp (hnone other hmem)
  simp only [FitsLeft] at this
  simp only [OperatorInfo.of]
  omega

/-- An error that is not spurious is justified. -/
lemma justified_of_conflict (hencloses : Encloses info before operator previous)
    (hfound : conflict (.of info previous) (.of info operator) = some error)
    (hproper : (info previous).1 = .None → (info operator).1 = .None →
      ¬(info previous).2 < (info operator).2) :
    Justified info (before ++ operator :: after) error := by
  unfold conflict at hfound
  split at hfound
  · next hboth =>
    cases hfound
    have hle : (info previous).2 ≤ (info operator).2 := by
      obtain ⟨_, _, _, htakes, _⟩ := hencloses
      simp only [Takes] at htakes
      omega
    have hsame := Nat.le_antisymm hle (Nat.not_lt.mp (hproper hboth.2 hboth.1))
    exact ⟨hencloses.oneLevel hsame, hboth.2, hboth.1⟩
  · split at hfound
    · next hmixed =>
      cases hfound
      exact ⟨hencloses.oneLevel hmixed.2, hmixed.1⟩
    · cases hfound

/-- A harmless chain has no justified error. -/
lemma Harmless.not_justified {operators : List ω} (harmless : Harmless info operators) :
    ¬Justified info operators error := by
  have hagree : ∀ {previous operator : OperatorInfo ω}, OneLevel info operators previous operator →
      previous.associativity = operator.associativity ∧ previous.associativity ≠ .None := by
    rintro previous operator ⟨front, between, rest, hsplit, hfirst, hsecond, hsame, habove⟩
    rw [hfirst, hsecond] at hsame ⊢
    rw [hfirst] at habove
    exact harmless front previous.id between operator.id rest hsplit hsame habove
  cases error with
  | InvalidOperator => exact not_false
  | FailedToResolve _ => exact not_false
  | NonAssociative previous operator =>
    rintro ⟨hlevel, hnone, _⟩
    exact (hagree hlevel).2 hnone
  | MixedAssociativity previous operator =>
    rintro ⟨hlevel, hmixed⟩
    exact hmixed (hagree hlevel).1

/-- **Bracketing rejects only real conflicts, except for `infix` operators of different
precedences.** -/
theorem rejectsOnlyConflicts_iff (hresolves : Resolves context forId info chain)
    (hrange : InRange info (operatorsOf chain)) :
    RejectsOnlyConflicts context forId info head chain ↔ ¬Spurious info (operatorsOf chain) := by
  rw [RejectsOnlyConflicts, ends_bracket_iff hresolves]
  have hspec := bracketing_spec info head chain
  constructor
  · rintro ⟨hjustified, _⟩
      ⟨before, operator, after, previous, hsplit, hencloses, hfirst, hsecond, hlower,
      hfine⟩
    have hfound : conflict (.of info previous) (.of info operator) =
        some (.NonAssociative (.of info previous) (.of info operator)) :=
      if_pos ⟨hsecond, hfirst⟩
    have hclash := (firstClash_eq_some_iff hrange).mpr
      ⟨before, operator, after, previous, hsplit, hencloses, hfound, hfine⟩
    cases hresult : bracketing info head chain with
    | ok tree =>
      rw [hresult] at hspec
      rw [hspec.1] at hclash
      cases hclash
    | error error =>
      rw [hresult] at hspec
      obtain rfl : error = .NonAssociative (.of info previous) (.of info operator) := by
        simpa [hspec] using hclash
      obtain ⟨⟨_, _, _, _, _, _, hsame, _⟩, _⟩ := hjustified _ hresult
      exact absurd hsame (Nat.ne_of_lt hlower)
  · intro hreal
    have hjustified : ∀ error, bracketing info head chain = .error error →
        Justified info (operatorsOf chain) error := by
      intro error hresult
      rw [hresult] at hspec
      obtain ⟨before, operator, after, previous, hsplit, hencloses, hfound, hfine⟩ :=
        (firstClash_eq_some_iff hrange).mp hspec
      rw [hsplit]
      refine justified_of_conflict hencloses hfound fun hfirst hsecond hlower => hreal ?_
      exact ⟨before, operator, after, previous, hsplit, hencloses, hfirst, hsecond, hlower, hfine⟩
    refine ⟨hjustified, fun harmless => ?_⟩
    cases hresult : bracketing info head chain with
    | ok tree => exact ⟨tree, rfl⟩
    | error error => exact absurd (hjustified error hresult) harmless.not_justified

theorem sum_rejectsOnlyConflicts :
    Resolves (fixityContext sumFixity) forTermOperatorId sumFixity
        [(0, some 2), (1, some 3), (0, some 4)] ∧
      InRange sumFixity (operatorsOf [(0, some 2), (1, some 3), (0, some 4)]) ∧
      RejectsOnlyConflicts (fixityContext sumFixity) forTermOperatorId sumFixity (some 1)
        [(0, some 2), (1, some 3), (0, some 4)] := by
  refine ⟨resolves_fixityContext _ _, inRange_sum,
    (rejectsOnlyConflicts_iff (resolves_fixityContext _ _) inRange_sum).mpr ?_⟩
  rintro ⟨_, operator, _, _, _, _, _, hsecond, _⟩
  unfold sumFixity at hsecond
  split at hsecond <;> cases hsecond

/-- Two `infix` operators of different precedences. -/
def infixFixity (id : ℕ) : Fixity := if id = 0 then (.None, 4) else (.None, 5)

/-- The chain of the two is refused. -/
theorem not_rejectsOnlyConflicts_infix :
    ¬RejectsOnlyConflicts (fixityContext infixFixity) forTermOperatorId infixFixity (some 1)
      [(0, some 2), (1, some 3)] := by
  rw [RejectsOnlyConflicts, ends_bracket_iff (resolves_fixityContext _ _)]
  rintro ⟨hjustified, _⟩
  have hmade : bracketing infixFixity (some 1) [(0, some 2), (1, some 3)] =
      .error (.NonAssociative ⟨0, .None, 4⟩ ⟨1, .None, 5⟩) := by rfl
  obtain ⟨⟨_, _, _, _, _, _, hsame, _⟩, _⟩ := hjustified _ hmade
  cases hsame

end Bracket

end Iris.Sugar
