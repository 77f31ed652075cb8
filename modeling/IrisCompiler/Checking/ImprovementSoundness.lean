import IrisCompiler.Checking.Improvements

/-!
# Soundness of improvements

An assignment that `collect_structural_improvements` collects should hold under every substitution
that makes the two types equal.  All pairs of a walk are equal under such a substitution, but for
the tails of two open rows of which one has further fields: there the tail of the row *with* the
further fields is compared with them, where `unify_row_tails` takes the other tail.

`improves_iff` says when this is not seen: no such rows are at the same place in the two types, or
nothing makes the types equal; and neither type is a row with the other's fields and more.
-/

namespace Iris.Checking

open MergeJoin List Ty

variable (context : CheckContext) (σ : Name → Option Ty)

/-- The substitution of rigid variables makes the types equal. -/
def Unifies (left right : Ty) : Prop :=
  left.under context.primFunction σ = right.under context.primFunction σ

/-- The substitution gives the variable the value that it gives the type. -/
def Holds (assignment : Name × Ty) : Prop :=
  match σ assignment.1 with
  | some value => value.canonical context.primFunction = assignment.2.under context.primFunction σ
  | none => ∃ depth kind, assignment.2.under context.primFunction σ = .Rigid assignment.1 depth kind

/-! ## Rows under a substitution -/

section Rows

variable {function : TypeItem} {σ : Name → Option Ty} {left right : RowType}

lemma keyed_instantiate (label : Label) (fields : List RowField) :
    keyed RowField.label label (fields.map (RowField.instantiate function σ)) =
      (keyed RowField.label label fields).map (RowField.instantiate function σ) :=
  filter_map ..

/-- The fields in the tail of a row under a substitution and what comes after them. -/
def tailUnder (function : TypeItem) (σ : Name → Option Ty) (row : RowType) :
    List RowField × Option Ty := tailParts (row.tail.map (Ty.instantiate function σ))

/-- What remains of the fields with a label, after those of both rows, and the tail's fields. -/
def remainder (function : TypeItem) (σ : Name → Option Ty) (row : RowType)
    (only : List RowField) (label : Label) : List RowField :=
  (keyed RowField.label label only).map (RowField.instantiate function σ) ++
    keyed RowField.label label (tailUnder function σ row).1

/-- **Equal rows.**  The fields of both are equal, and what remains of one row is what remains of
the other. -/
lemma row_unify (hsorted : SortedFields left.fields) (hsorted' : SortedFields right.fields)
    (hsame : (Row left).instantiate function σ = (Row right).instantiate function σ) :
    (∀ pair ∈ left.shared right,
      pair.1.instantiate function σ = pair.2.instantiate function σ) ∧
    (∀ label, remainder function σ left (left.leftOnly right) label =
      remainder function σ right (left.rightOnly right) label) ∧
    (tailUnder function σ left).2 = (tailUnder function σ right).2 := by
  obtain ⟨hfields, htail⟩ := instantiate_row_inj hsame
  have hparts (label : Label) :
      ((left.shared right).filter fun pair => pair.1.label = label).map
          (RowField.instantiate function σ ∘ Prod.fst) =
        ((left.shared right).filter fun pair => pair.1.label = label).map
          (RowField.instantiate function σ ∘ Prod.snd) ∧
      remainder function σ left (left.leftOnly right) label =
        remainder function σ right (left.rightOnly right) label := by
    have hfields := hfields label
    rw [rowUnder, rowUnder, keyed_append, keyed_append, keyed_instantiate, keyed_instantiate,
      keyed_left hsorted hsorted', keyed_right hsorted hsorted', map_append, map_append,
      append_assoc, append_assoc, map_map, map_map] at hfields
    exact append_inj hfields (by simp)
  refine ⟨fun pair hmem => ?_, fun label => (hparts label).2, htail⟩
  have hequal := map_inj_left.mp (hparts pair.1.label).1
  exact hequal pair (mem_filter.mpr ⟨hmem, by simp⟩)

lemma tailUnder_sorted (hvalues : ∀ name t, σ name = some t → Flat t) (row : RowType) :
    SortedFields (tailUnder function σ row).1 := by
  unfold tailUnder
  cases row.tail with
  | none => exact .nil
  | some tail => exact (flat_instantiate hvalues tail).parts.1

/-- Equal rows with the same labels have equal tails. -/
lemma tails_unify (hvalues : ∀ name t, σ name = some t → Flat t)
    (hsorted : SortedFields left.fields) (hsorted' : SortedFields right.fields)
    (hsame : (Row left).instantiate function σ = (Row right).instantiate function σ)
    (hnoLeft : left.leftOnly right = []) (hnoRight : left.rightOnly right = []) :
    tailUnder function σ left = tailUnder function σ right := by
  obtain ⟨_, hfields, htail⟩ := row_unify hsorted hsorted' hsame
  refine Prod.ext ?_ htail
  refine (tailUnder_sorted hvalues left).ext (tailUnder_sorted hvalues right) fun label => ?_
  simpa [remainder, hnoLeft, hnoRight] using hfields label

/-- A row without fields is its tail. -/
lemma rowParts_internRow_nil (tail : Option Ty) :
    rowParts ((internRow [] tail).instantiate function σ) =
      tailParts (tail.map (instantiate function σ)) := by
  cases tail <;> rfl

/-- How many fields a type has. -/
def width (t : Ty) : ℕ := (rowParts t).1.length

lemma width_row (row : RowType) : width ((Row row).instantiate function σ) =
    row.fields.length + (tailUnder function σ row).1.length := by
  obtain ⟨instance', heq, hfields, _⟩ := @instantiate_row function σ row
  rw [heq, width, rowParts, hfields, length_insertionSort, rowUnder, length_append,
    length_map]
  rfl

end Rows

/-! ## Rows whose tails are swapped -/

/-- Both rows are open and one of them, but not the other, has further fields. -/
def RowType.Crosses (left right : RowType) : Prop :=
  left.tail ≠ none ∧ right.tail ≠ none ∧
    ¬ (left.leftOnly right = [] ↔ left.rightOnly right = [])

instance (left right : RowType) : Decidable (left.Crosses right) :=
  inferInstanceAs (Decidable (_ ∧ _ ∧ _))

/-- Such rows are at the same place in the two types. -/
inductive Crosses : Ty → Ty → Prop
  | here {left right : RowType} (h : left.Crosses right) : Crosses (.Row left) (.Row right)
  | child {l r : Ty} {pair : Ty × Ty} (hne : l ≠ r) (hmem : pair ∈ childPairs context l r)
      (hinner : Crosses pair.1 pair.2) : Crosses l r

section Remainder

variable {function : TypeItem} {σ : Name → Option Ty} {row other : RowType}

/-- Nothing remains beside a closed row without further fields. -/
lemma eq_nil_of_remainder {only : List RowField} (hclosed : other.tail = none)
    (h : ∀ label, remainder function σ row only label = remainder function σ other [] label) :
    only = [] := by
  cases only with
  | nil => rfl
  | cons field only =>
    have := h field.label
    simp [remainder, tailUnder, hclosed, tailParts, keyed_cons_of_eq] at this

end Remainder

section Sound

variable {context : CheckContext} {σ : Name → Option Ty} {left right : RowType} {l r : Ty}

variable {pair : Ty × Ty} {function : TypeItem} {x : Name × Ty}

/-- What is equal stays equal when the tails of rows that do not cross are compared. -/
lemma unifies_tailPairs (hplain : (Row left).Plain) (hplain' : (Row right).Plain)
    (hunifies : Unifies context σ (.Row left) (.Row right)) (hstraight : ¬ left.Crosses right)
    (hmem : pair ∈ tailPairs left right) : Unifies context σ pair.1 pair.2 := by
  have hsorted := sorted_of_plain hplain
  have hsorted' := sorted_of_plain hplain'
  obtain ⟨_, hfields, _⟩ := row_unify hsorted hsorted' hunifies
  have htails := tails_unify (flat_values σ) hsorted hsorted' hunifies
  obtain ⟨tail, heq, hnoRight, rfl⟩ | ⟨tail, heq, hnoLeft, rfl⟩ := mem_tailPairs hmem
  · have hnoLeft : left.leftOnly right = [] := by
      by_cases hclosed : right.tail = none
      · exact eq_nil_of_remainder hclosed (hnoRight ▸ hfields)
      · exact (not_not.mp fun h => hstraight ⟨by simp [heq], hclosed, h⟩).mpr hnoRight
    refine eq_of_rowParts ?_
    rw [hnoLeft]
    refine Eq.trans ?_ (rowParts_internRow_nil right.tail).symm
    refine Eq.trans ?_ (htails hnoLeft hnoRight)
    rw [tailUnder, heq]
    rfl
  · have hnoRight : left.rightOnly right = [] := by
      by_cases hclosed : left.tail = none
      · exact eq_nil_of_remainder hclosed fun label => (hnoLeft ▸ hfields label).symm
      · exact (not_not.mp fun h => hstraight ⟨hclosed, by simp [heq], h⟩).mp hnoLeft
    refine eq_of_rowParts ?_
    rw [hnoRight]
    refine (rowParts_internRow_nil left.tail).trans ?_
    refine (htails hnoLeft hnoRight).trans ?_
    rw [tailUnder, heq]
    rfl

/-- **What the walk compares is equal** where no rows cross. -/
lemma unifies_childPairs (hplain : l.Plain) (hplain' : r.Plain) (hunifies : Unifies context σ l r)
    (hstraight : ∀ left right, l = .Row left → r = .Row right → ¬ left.Crosses right)
    (hmem : pair ∈ childPairs context l r) : Unifies context σ pair.1 pair.2 := by
  revert hmem hunifies
  fun_cases childPairs context l r
  case case9 left right =>
    intro hunifies hmem
    obtain hmem | hmem := mem_append.mp hmem
    · obtain ⟨fields, hboth, rfl⟩ := mem_map.mp hmem
      obtain ⟨hshared, _⟩ := row_unify (sorted_of_plain hplain) (sorted_of_plain hplain') hunifies
      exact congrArg RowField.type (hshared fields hboth)
    · exact unifies_tailPairs hplain hplain' hunifies (hstraight left right rfl rfl) hmem
  all_goals
    intro hunifies hmem
    simp only [mem_cons, not_mem_nil, or_false] at hmem
  all_goals
    rcases hmem with rfl | rfl <;>
      simp_all [Unifies, Ty.under, Ty.instantiate, CheckContext.functionApplication]

lemma under_rigid_some {name : Name} {depth : ℕ} {kind t : Ty} (hvalue : σ name = some t) :
    (Ty.Rigid name depth kind).under function σ = t.canonical function := by
  rw [Ty.under, Ty.instantiate, hvalue]
  rfl

lemma under_rigid_none {name : Name} {depth : ℕ} {kind : Ty} (hvalue : σ name = none) :
    (Ty.Rigid name depth kind).under function σ = .Rigid name depth (kind.under function σ) := by
  rw [Ty.under, Ty.instantiate, hvalue]
  rfl

/-- An assignment of the pair itself holds. -/
lemma holds_assigned (hunifies : Unifies context σ l r) (hmem : x ∈ assigned l r) :
    Holds context σ x := by
  have hrigid {name : Name} {depth : ℕ} {kind t : Ty}
      (h : Unifies context σ (.Rigid name depth kind) t) : Holds context σ (name, t) := by
    unfold Holds
    cases hvalue : σ name with
    | none => exact ⟨_, _, h.symm.trans (under_rigid_none hvalue)⟩
    | some t => exact (under_rigid_some hvalue).symm.trans h
  revert hmem
  fun_cases assigned l r
  case case1 =>
    intro hmem
    obtain rfl := mem_singleton.mp hmem
    exact hrigid hunifies
  case case2 =>
    intro hmem
    obtain rfl := mem_singleton.mp hmem
    exact hrigid hunifies.symm
  case case3 => exact fun hmem => by cases hmem

/-- **Improvements hold** under what makes the types equal, unless rows cross. -/
theorem Assigns.holds (h : Assigns context l r x) (hplain : l.Plain) (hplain' : r.Plain)
    (hunifies : Unifies context σ l r) (hstraight : ¬ Crosses context l r) : Holds context σ x := by
  induction h with
  | here hne hmem => exact holds_assigned hunifies hmem
  | child hne hmem hinner ih =>
    obtain ⟨hchildPlain, hchildPlain'⟩ := childPairs_plain hplain hplain' hmem
    refine ih hchildPlain hchildPlain' (unifies_childPairs hplain hplain' hunifies ?_ hmem)
      fun hcrosses => hstraight (.child hne hmem hcrosses)
    rintro left right rfl rfl hcrosses
    exact hstraight (.here hcrosses)

end Sound

/-! ## Swapped tails are not sound -/

section Unsound

variable {context : CheckContext} {σ : Name → Option Ty} {left right : RowType} {l r : Ty}

lemma lengths (left right : RowType) :
    left.fields.length = (left.shared right).length + (left.leftOnly right).length ∧
    right.fields.length = (left.shared right).length + (left.rightOnly right).length := by
  constructor
  · have hperm : left.fields.Perm ((left.shared right).map Prod.fst ++ left.leftOnly right) :=
      perm_left
    rw [hperm.length_eq, length_append, length_map]
  · have hperm : right.fields.Perm ((left.shared right).map Prod.snd ++ left.rightOnly right) :=
      perm_right
    rw [hperm.length_eq, length_append, length_map]

lemma RowType.Crosses.ne (h : left.Crosses right) : Row left ≠ Row right := by
  intro hsame
  obtain ⟨hleftLength, hrightLength⟩ := lengths left right
  obtain rfl : left = right := by injection hsame
  refine h.2.2 ?_
  rw [← length_eq_zero_iff, ← length_eq_zero_iff]
  omega

variable {row : RowType}

/-- A row is not the value of a variable that stands for another number of fields. -/
lemma not_holds_of_width {name : Name} {depth : ℕ} {kind : Ty}
    (hne : width ((Rigid name depth kind).under context.primFunction σ) ≠
      width ((Row row).under context.primFunction σ)) : ¬ Holds context σ (name, .Row row) := by
  intro holds
  unfold Holds at holds
  cases hvalue : σ name with
  | none =>
    rw [hvalue] at holds
    obtain ⟨depth, kind, hsame⟩ := holds
    obtain ⟨_, heq, _⟩ := @instantiate_row context.primFunction
      (fun name => (σ name).map (canonical context.primFunction)) row
    rw [under, heq] at hsame
    cases hsame
  | some t =>
    rw [hvalue] at holds
    exact hne (congrArg width ((under_rigid_some hvalue).trans holds))

lemma rigid_of_isRigid {t : Ty} (h : t.isRigid = true) :
    ∃ name depth kind, t = .Rigid name depth kind := by
  cases t with
  | Rigid name depth kind => exact ⟨name, depth, kind, rfl⟩
  | _ => cases h

/-- A tail that is compared with a row of another width gets a wrong value. -/
lemma assigns_wrong (other : RowType) {tail : Ty} {only : List RowField} (hne : l ≠ r)
    (hplain : (Row row).Plain) (heq : row.tail = some tail) (hsome : only ≠ [])
    (hmem : (tail, internRow only other.tail) ∈ childPairs context l r ∨
      (internRow only other.tail, tail) ∈ childPairs context l r)
    (hwrong : (tailUnder context.primFunction
        (fun name => (σ name).map (canonical context.primFunction)) row).1.length ≠
      only.length + (tailUnder context.primFunction
        (fun name => (σ name).map (canonical context.primFunction)) other).1.length) :
    ∃ x, Assigns context l r x ∧ ¬ Holds context σ x := by
  obtain ⟨name, depth, kind, rfl⟩ := rigid_of_isRigid (plain_of_tail hplain heq).2
  obtain ⟨rest, hinterned, hfields, htail⟩ :=
    @internRow_eq_row only other.tail (fun hnone => absurd hnone hsome)
  rw [hinterned] at hmem
  refine ⟨(name, .Row rest), ?_, @not_holds_of_width _ _ _ _ depth kind ?_⟩
  · obtain hmem | hmem := hmem <;> exact .child hne hmem (.here nofun (.head _))
  · rw [tailUnder, heq, tailUnder, ← htail] at hwrong
    unfold under
    rw [width_row, hfields, length_insertionSort]
    exact hwrong

/-- **The tails of crossing rows get a wrong value.** -/
lemma RowType.Crosses.unsound (h : left.Crosses right) (hplain : (Row left).Plain)
    (hplain' : (Row right).Plain) (hunifies : Unifies context σ (.Row left) (.Row right)) :
    ∃ x, Assigns context (.Row left) (.Row right) x ∧ ¬ Holds context σ x := by
  obtain ⟨hleftLength, hrightLength⟩ := lengths left right
  obtain ⟨leftTail, hleftEq⟩ := Option.ne_none_iff_exists'.mp h.1
  obtain ⟨rightTail, hrightEq⟩ := Option.ne_none_iff_exists'.mp h.2.1
  have hwidths := congrArg width hunifies
  unfold under at hwidths
  rw [width_row, width_row] at hwidths
  by_cases hnoRight : left.rightOnly right = []
  · have hsome : left.leftOnly right ≠ [] := fun hnoLeft => h.2.2 (by simp [hnoLeft, hnoRight])
    refine assigns_wrong right h.ne hplain hleftEq hsome (.inl (mem_append_right _ ?_)) ?_
    · simp [tailPairs, hleftEq, hrightEq, hsome, hnoRight]
    · have := length_pos_iff.mpr hsome
      simp only [hnoRight, length_nil] at hrightLength
      omega
  · have hnoLeft : left.leftOnly right = [] := by
      by_contra hsome
      exact h.2.2 (by simp [hsome, hnoRight])
    refine assigns_wrong left h.ne hplain' hrightEq hnoRight (.inr (mem_append_right _ ?_)) ?_
    · simp [tailPairs, hleftEq, hrightEq, hnoLeft, hnoRight]
    · have := length_pos_iff.mpr hnoRight
      simp only [hnoLeft, length_nil] at hleftLength
      omega

/-- **Improvements of types with crossing rows do not hold**, whatever makes the types equal. -/
theorem Crosses.unsound (h : Crosses context l r) (hplain : l.Plain) (hplain' : r.Plain)
    (hunifies : Unifies context σ l r) : ∃ x, Assigns context l r x ∧ ¬ Holds context σ x := by
  induction h with
  | here hcrosses => exact hcrosses.unsound hplain hplain' hunifies
  | @child l r pair hne hmem hinner ih =>
    by_cases hstraight : ∀ left right, l = .Row left → r = .Row right → ¬ left.Crosses right
    · obtain ⟨hchildPlain, hchildPlain'⟩ := childPairs_plain hplain hplain' hmem
      obtain ⟨x, hassigns, hwrong⟩ :=
        ih hchildPlain hchildPlain' (unifies_childPairs hplain hplain' hunifies hstraight hmem)
      exact ⟨x, .child hne hmem hassigns, hwrong⟩
    · push Not at hstraight
      obtain ⟨left, right, rfl, rfl, hcrosses⟩ := hstraight
      exact hcrosses.unsound hplain hplain' hunifies

end Unsound

/-! ## Rows that extend other rows -/

/-- The first type is the row of the fields with the variable as its tail, the second has the same
fields, further ones and another tail. -/
def Extends (name : Name) (fields further : List RowField) (tail : Option Ty) (l r : Ty) : Prop :=
  (∃ depth kind, l = internRow fields (some (.Rigid name depth kind))) ∧
    r = internRow (fields ++ further) tail ∧ further ≠ [] ∧
    ∀ depth kind, tail ≠ some (.Rigid name depth kind)

section Extend

variable {context : CheckContext} {name : Name} {fields further : List RowField}
  {tail : Option Ty} {left right : RowType} {l r t : Ty}

lemma swap (left right : RowType) :
    right.shared left = (left.shared right).map Prod.swap ∧
      right.leftOnly left = left.rightOnly right :=
  ⟨parts_swap.1, parts_swap.2.1⟩

/-- The rows of an extension: what one has beyond the other. -/
lemma Extends.rows (h : Extends name fields further tail l r) (hnonempty : fields ≠ []) :
    ∃ left right : RowType, l = .Row left ∧ r = .Row right ∧ right.tail = tail ∧
      (∀ pair ∈ left.shared right, pair.1 = pair.2) ∧ left.leftOnly right = [] ∧
      left.rightOnly right ≠ [] := by
  obtain ⟨⟨depth, kind, rfl⟩, rfl, hmore, _⟩ := h
  obtain ⟨left, hleftEq, hleftFields, _⟩ := @internRow_eq_row fields
    (some (.Rigid name depth kind)) (fun hnone => absurd hnone hnonempty)
  obtain ⟨right, hrightEq, hrightFields, hrightTail⟩ := @internRow_eq_row (fields ++ further) tail
    (fun hnone => absurd (append_eq_nil_iff.mp hnone).1 hnonempty)
  have hextended (label : Label) : keyed RowField.label label right.fields =
      keyed RowField.label label left.fields ++ keyed RowField.label label further := by
    rw [hleftFields, hrightFields, keyed_sortFields, keyed_sortFields, keyed_append]
  obtain ⟨hsame, hnoLeft, hrest⟩ := boths_of_extends (hleftFields ▸ sortedFields_sort fields)
    (hrightFields ▸ sortedFields_sort _) hextended
  refine ⟨left, right, hleftEq, hrightEq, hrightTail, hsame, hnoLeft, fun hnoRight => ?_⟩
  obtain ⟨field, further, rfl⟩ := exists_cons_of_ne_nil hmore
  have := hrest field.label
  rw [show rights RowField.label left.fields right.fields = [] from hnoRight,
    keyed_cons_of_eq rfl] at this
  cases this

/-- Rows with equal fields say nothing but through their tails. -/
lemma not_assigns_rows (hsame : ∀ pair ∈ left.shared right, pair.1 = pair.2)
    (htails : ∀ pair ∈ tailPairs left right, ¬ Assigns context pair.1 pair.2 (name, t)) :
    ¬ Assigns context (.Row left) (.Row right) (name, t) := by
  intro hassigns
  cases hassigns with
  | here _ hmem => cases hmem
  | child _ hmem hinner =>
    obtain hmem | hmem := mem_append.mp hmem
    · obtain ⟨fields, hboth, rfl⟩ := mem_map.mp hmem
      rw [hsame fields hboth] at hinner
      exact not_assigns_self _ hinner
    · exact htails _ hmem hinner

/-- A pair of a variable and a row only says something about this variable. -/
lemma name_of_assigns {other : Name} {depth : ℕ} {kind : Ty}
    (h : Assigns context (.Rigid other depth kind) (.Row right) (name, t) ∨
      Assigns context (.Row right) (.Rigid other depth kind) (name, t)) : name = other := by
  obtain h | h := h
  all_goals
    cases h with
    | here _ hmem =>
      simp only [assigned, mem_singleton, Prod.mk.injEq] at hmem
      exact hmem.1
    | child _ hmem _ => cases hmem

/-- **The tail of the shorter row gets no value.** -/
lemma Extends.not_assigns (h : Extends name fields further tail l r) (hnonempty : fields ≠ [])
    (hplain : r.Plain) : ¬ Assigns context l r (name, t) ∧ ¬ Assigns context r l (name, t) := by
  obtain ⟨left, right, rfl, rfl, rfl, hsame, hnoLeft, hmore⟩ := h.rows hnonempty
  obtain ⟨hswapShared, hswapOnly⟩ := swap left right
  have hrigid {tail : Ty} (heq : right.tail = some tail) :
      ∃ other depth kind, tail = .Rigid other depth kind ∧ name ≠ other := by
    obtain ⟨other, depth, kind, rfl⟩ := rigid_of_isRigid (plain_of_tail hplain heq).2
    refine ⟨other, depth, kind, rfl, ?_⟩
    rintro rfl
    exact h.2.2.2 depth kind heq
  have hrow (only : List RowField) (rest : Option Ty) (hnonempty : only ≠ []) :
      ∃ row, internRow only rest = .Row row := by
    obtain ⟨row, heq, _⟩ := @internRow_eq_row only rest (fun hnone => absurd hnone hnonempty)
    exact ⟨row, heq⟩
  constructor
  · refine not_assigns_rows hsame fun pair hmem hassigns => ?_
    obtain ⟨_, _, hnone, _⟩ | ⟨last, heq, _, rfl⟩ := mem_tailPairs hmem
    · exact hmore hnone
    · obtain ⟨other, depth, kind, rfl, hne⟩ := hrigid heq
      obtain ⟨row, heq⟩ := hrow (left.rightOnly right) left.tail hmore
      exact hne (name_of_assigns (.inr (heq ▸ hassigns)))
  · refine not_assigns_rows ?_ fun pair hmem hassigns => ?_
    · intro pair hmem
      obtain ⟨fields, hboth, rfl⟩ := mem_map.mp (hswapShared ▸ hmem)
      exact (hsame fields hboth).symm
    · obtain ⟨last, heq, _, rfl⟩ | ⟨_, _, hnone, _⟩ := mem_tailPairs hmem
      · obtain ⟨other, depth, kind, rfl, hne⟩ := hrigid heq
        obtain ⟨row, heq⟩ := hrow (right.leftOnly left) left.tail (hswapOnly ▸ hmore)
        exact hne (name_of_assigns (.inl (heq ▸ hassigns)))
      · exact hmore (hswapOnly ▸ hnone)

/-- A variable by itself gets the row as its value. -/
lemma Extends.assigns (h : Extends name [] further tail l r) :
    Assigns context l r (name, internRow further tail) ∧
      Assigns context r l (name, internRow further tail) := by
  obtain ⟨⟨depth, kind, rfl⟩, rfl, hmore, _⟩ := h
  obtain ⟨row, heq, _⟩ := @internRow_eq_row further tail (fun hnone => absurd hnone hmore)
  have hempty : internRow [] (some (.Rigid name depth kind)) = .Rigid name depth kind := rfl
  rw [nil_append, heq]
  exact ⟨.here nofun (.head _), .here nofun (.head _)⟩

end Extend

/-! ## When improvements are right -/

/-- The walk ends, what it collects holds under all that makes the types equal, and the tail of a
row that the other type extends is collected. -/
def Improves (l r : Ty) : Prop :=
  ∃ enough, ∀ fuel ≥ enough, ∀ state, ∃ collected,
    (collectStructuralImprovements context fuel l r ⟨[], []⟩).run state = .ok (collected, state) ∧
    (∀ σ, Unifies context σ l r → ∀ x ∈ collected.improvements, Holds context σ x) ∧
    ∀ name fields further tail,
      Extends name fields further tail l r ∨ Extends name fields further tail r l →
        (name, internRow further tail) ∈ collected.improvements

section Main

variable {context : CheckContext} {σ : Name → Option Ty} {l r : Ty}

/-- What a walk collects is what the pair says. -/
lemma improves_iff_assigns (hplain : l.Plain) (hplain' : r.Plain) : Improves context l r ↔
    (∀ σ, Unifies context σ l r → ∀ x, Assigns context l r x → Holds context σ x) ∧
    ∀ name fields further tail,
      Extends name fields further tail l r ∨ Extends name fields further tail r l →
        Assigns context l r (name, internRow further tail) := by
  constructor
  · rintro ⟨enough, hruns⟩
    obtain ⟨collected, hrun, hsound, hcomplete⟩ :=
      hruns (max enough (l.weight + r.weight + 1)) (le_max_left _ _) ⟨[], 0, 0, 0⟩
    obtain ⟨after, hrun', hall⟩ := @collect_improvements context l r
      (max enough (l.weight + r.weight + 1)) hplain hplain' (le_max_right enough _)
    obtain rfl : after = collected := by
      rw [hrun'] at hrun
      cases hrun
      rfl
    refine ⟨fun σ hunifies x h => hsound σ hunifies x ((hall x).mpr h), ?_⟩
    exact fun name fields further tail h => (hall _).mp (hcomplete name fields further tail h)
  · rintro ⟨hsound, hcomplete⟩
    refine ⟨l.weight + r.weight + 1, fun fuel henough state => ?_⟩
    obtain ⟨after, hrun, hall⟩ := @collect_improvements context l r fuel hplain hplain' henough
    refine ⟨after, by rw [hrun]; rfl, fun σ hunifies x hmem =>
      hsound σ hunifies x ((hall x).mp hmem), ?_⟩
    exact fun name fields further tail h => (hall _).mpr (hcomplete name fields further tail h)

/-- Crossing rows in types that something makes equal. -/
lemma not_improves_of_crosses (hplain : l.Plain) (hplain' : r.Plain)
    (hunifies : Unifies context σ l r)
    (hcrosses : Crosses context l r) : ¬ Improves context l r := by
  rw [improves_iff_assigns hplain hplain']
  rintro ⟨hsound, _⟩
  obtain ⟨x, hassigns, hwrong⟩ := hcrosses.unsound hplain hplain' hunifies
  exact hwrong (hsound σ hunifies x hassigns)

/-- **When improvements are right.**  The assignments collected for two types hold under every
substitution that makes the types equal, and include the tail of a row that the other extends, iff
no substitution makes the types equal or no rows cross in them, and neither type is an open row with
fields that the other extends. -/
theorem improves_iff (hplain : l.Plain) (hplain' : r.Plain) : Improves context l r ↔
    ((∃ σ, Unifies context σ l r) → ¬ Crosses context l r) ∧
    ∀ name fields further tail,
      Extends name fields further tail l r ∨ Extends name fields further tail r l →
      fields = [] := by
  constructor
  · intro himproves
    refine ⟨fun ⟨σ, hunifies⟩ hcrosses => not_improves_of_crosses hplain hplain' hunifies
      hcrosses himproves,
      fun name fields further tail h => ?_⟩
    have hassigns :=
      ((improves_iff_assigns hplain hplain').mp himproves).2 name fields further tail h
    by_contra hnonempty
    obtain h | h := h
    · exact (h.not_assigns hnonempty hplain').1 hassigns
    · exact (h.not_assigns hnonempty hplain).2 hassigns
  · rintro ⟨hstraight, hbare⟩
    refine (improves_iff_assigns hplain hplain').mpr ⟨fun σ hunifies x h => ?_, ?_⟩
    · exact h.holds hplain hplain' hunifies (hstraight ⟨σ, hunifies⟩)
    · intro name fields further tail h
      obtain rfl := hbare name fields further tail h
      obtain h | h := h
      · exact h.assigns.1
      · exact h.assigns.2

/-- Records `{ x :: a | r }` and `{ x :: Int | s }`: `a` is `Int` and the tails are equal. -/
theorem improves_records : Improves .bare
    (.Application (.Constructor ⟨1, 0⟩) (.Row (.Opened "x"
      (.Rigid ⟨1, 0, true⟩ 0 (.Constructor ⟨0, 0⟩)) (.Rigid ⟨1, 1, true⟩ 0 (.Constructor ⟨0, 2⟩)))))
    (.Application (.Constructor ⟨1, 0⟩) (.Row (.Opened "x" (.Constructor ⟨0, 3⟩)
      (.Rigid ⟨1, 2, true⟩ 0 (.Constructor ⟨0, 2⟩))))) := by
  have hnoRow {fields : List RowField} {tail : Option Ty} {f x : Ty}
      (h : Ty.Application f x = internRow fields tail) : fields = [] := by
    by_contra hnonempty
    obtain ⟨row, heq, _⟩ := @internRow_eq_row fields tail (fun hnone => absurd hnone hnonempty)
    rw [heq] at h
    cases h
  refine (improves_iff (by decide) (by decide)).mpr ⟨fun _ hcrosses => ?_, ?_⟩
  · cases hcrosses with
    | child _ hmem hinner =>
      simp only [childPairs, List.mem_cons, List.not_mem_nil, or_false] at hmem
      obtain rfl | rfl := hmem
      · cases hinner with | child _ hmem _ => cases hmem
      · cases hinner with
        | here h =>
          simp [RowType.Crosses, RowType.leftOnly, RowType.rightOnly, RowType.fields, lefts, rights,
            mergeJoinBy, EitherOrBoth.left?, EitherOrBoth.right?] at h
        | child _ hmem hinner =>
          -- The fields `x` are compared, then the tails: none of these are rows.
          simp [childPairs, RowType.sharedTypes, RowType.shared, boths, tailPairs,
            RowType.leftOnly, RowType.rightOnly, RowType.fields, RowType.tail, lefts, rights,
            mergeJoinBy, EitherOrBoth.left?, EitherOrBoth.right?, EitherOrBoth.both?] at hmem
          obtain rfl | rfl := hmem <;> cases hinner with | child _ hmem _ => cases hmem
  · rintro name fields further tail (⟨⟨_, _, heq⟩, _⟩ | ⟨⟨_, _, heq⟩, _⟩) <;> exact hnoRow heq

/-- The rows `( x :: Int, y :: Int | r )` and `( x :: Int | s )`: `r` is said to be
`( y :: Int | s )`. -/
theorem not_improves_rows : ¬ Improves .bare
    (.Row (.Field "x" (.Constructor ⟨0, 3⟩) (.Opened "y" (.Constructor ⟨0, 3⟩)
      (.Rigid ⟨1, 0, true⟩ 0 (.Constructor ⟨0, 2⟩)))))
    (.Row (.Opened "x" (.Constructor ⟨0, 3⟩)
      (.Rigid ⟨1, 1, true⟩ 0 (.Constructor ⟨0, 2⟩)))) := by
  -- `s` is `( y :: Int | r )`.
  let σ (name : Name) : Option Ty := if name = ⟨1, 1, true⟩ then
      some (.Row (.Opened "y" (.Constructor ⟨0, 3⟩)
        (.Rigid ⟨1, 0, true⟩ 0 (.Constructor ⟨0, 2⟩))))
    else none
  refine @not_improves_of_crosses _ σ _ _ (by decide) (by decide) ?_ (.here ?_)
  · unfold Unifies
    decide
  · simp [RowType.Crosses, RowType.tail, RowType.leftOnly, RowType.rightOnly, RowType.fields, lefts,
      rights, mergeJoinBy, EitherOrBoth.left?, EitherOrBoth.right?]

end Main

end Iris.Checking
