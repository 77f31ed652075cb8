import IrisCompiler.Checking.Instantiation
import IrisCompiler.Checking.Solving

/-!
# Rows whose tails stand for rows

A row may end in a variable that is solved to another row.  `expand` merges the two, and the fields
of one label stay in the order of the rows (`expands_joinRow`).  What is left behind them is
expanded and not a row (`Expands.rowTail`).
-/

namespace Iris.Checking

open TotalRun MergeJoin List RowType

/-! ## Expanded rows -/

section Expanded

variable {context : CheckContext} {s : CheckState} {row : RowType} {tail : Ty}

lemma RowType.tailMayExpand_eq (row : RowType) :
    row.tailMayExpand = row.tail.any fun tail => tail.isRow || tail.mayExpand := by
  induction row with
  | Closed => rfl
  | Opened => rfl
  | Field label type rest ih => exact ih

lemma RowType.fields_ne_nil (h : row.tail = some tail) : row.fields ≠ [] := fun hempty => by
  rw [tail_of_fields_nil hempty] at h
  cases h

/-- What an interned row is the row of. -/
lemma of_internRow_eq {fields : List RowField} {tail : Option Ty} (hnonempty : fields ≠ [])
    (h : internRow fields tail = .Row row) :
    row.tail = tail ∧ row.fields.length = fields.length := by
  obtain ⟨other, hsame, heqFields, heqTail⟩ := @internRow_eq_row fields tail fun hempty =>
    absurd hempty hnonempty
  obtain rfl : other = row := by
    rw [hsame] at h
    exact Ty.Row.inj h
  exact ⟨heqTail, by rw [heqFields, length_insertionSort]⟩

/-- One round of `expandRowTail`. -/
def rowTailTurn (expand : Ty → CheckM Ty) (id : Ty) (x : Ty × List RowField × Bool) :
    CheckM (Turn (Ty × List RowField × Bool) Ty) :=
  match x.1 with
  | .Row row =>
    match row.tail with
    | none => return .leave (if x.2.2 then internRow (x.2.1 ++ row.fields) none else id)
    | some tail => do
      let expanded ← expand tail
      if tail = expanded then
        return .leave (if x.2.2 then internRow (x.2.1 ++ row.fields) (some tail) else id)
      else return .again (expanded, x.2.1 ++ row.fields, true)
  | current => return .leave (if x.2.2 then internRow x.2.1 (some current) else id)

variable {expanded : Ty} {s' : CheckState}

/-- A row whose tail `expand` changes is changed by merging the tail into it. -/
lemma mergeTail_ne {fuel : ℕ} {expand : Ty → CheckM Ty} {result : Ty} {s u : CheckState}
    (hasTail : row.tail = some tail) (hchanged : tail ≠ expanded)
    (hrun : (loop .fuel (rowTailTurn expand (.Row row)) fuel (expanded, row.fields, true)).run s =
      .ok (result, u)) : result ≠ .Row row := by
  have hpositive := length_pos_of_ne_nil (fields_ne_nil hasTail)
  -- The fields are more than the row has, or the tail is another one.
  refine of_run_loop
    (fun x _ => x.2.2 = true ∧ (row.fields.length < x.2.1.length ∨ x.2.1 = row.fields ∧ x.1 ≠ tail))
    (fun result _ => result ≠ .Row row) ?_ ⟨rfl, .inr ⟨rfl, hchanged.symm⟩⟩ hrun
  rintro ⟨current, fields, flattened⟩ s turn t ⟨rfl, hdiffer⟩ hran
  dsimp only at hdiffer
  have hatLeast : row.fields.length ≤ fields.length := by
    rcases hdiffer with hlonger | ⟨rfl, -⟩
    exacts [hlonger.le, le_rfl]
  have hlong (more : List RowField) : fields ++ more ≠ [] := by
    rw [← length_pos_iff, length_append]
    omega
  simp only [rowTailTurn, ↓reduceIte] at hran
  split at hran
  · split at hran
    · cases hran
      intro hsame
      rw [(of_internRow_eq (hlong _) hsame).1] at hasTail
      cases hasTail
    · rename_i innerTail hinnerHas
      have hmore := length_pos_of_ne_nil (fields_ne_nil hinnerHas)
      obtain ⟨expanded, t', -, hran⟩ := of_run_bind hran
      split_ifs at hran
      · cases hran
        intro hsame
        have := (of_internRow_eq (hlong _) hsame).2
        rw [length_append] at this
        omega
      · cases hran
        exact ⟨rfl, .inl (by rw [length_append]; omega)⟩
  · cases hran
    intro hsame
    obtain ⟨hsameTail, hsameLength⟩ := of_internRow_eq (by simpa using hlong []) hsame
    rcases hdiffer with hlonger | ⟨rfl, hother⟩
    · omega
    · rw [hasTail] at hsameTail
      exact hother (Option.some_injective _ hsameTail).symm

lemma expandTurn_row (hmay : (Ty.Row row).mayExpand = true) (fuel : ℕ) :
    expandTurn context (fuel + 1) (.Row row) = (do
      let expanded ← expandRowTail (expand context (fuel + 1)) (fuel + 1) (.Row row)
      if expanded = .Row row then return .leave (.Row row)
      return .again (← normalise (fuel + 1) expanded)) := by
  have hsynonym : expandSynonym context (fuel + 1) (.Row row) = pure (.Row row) := rfl
  simp [expandTurn, hmay, hsynonym]

/-- The tail of an expanded row is expanded. -/
lemma Expands.rowTail (h : Expands context s (.Row row) (.Row row))
    (hasTail : row.tail = some tail) : Expands context s tail tail := by
  obtain ⟨_, u, enough, hruns, rfl⟩ := h
  cases hmay : tail.mayExpand with
  | false => exact .refl hmay
  | true =>
    have hmayRow : (Ty.Row row).mayExpand = true := by
      show row.tailMayExpand = true
      simp [tailMayExpand_eq, hasTail, hmay]
    obtain ⟨fuel, s', hsame, -, hleaves⟩ := expand_last context (hruns enough le_rfl) hmayRow
    obtain _ | fuel := fuel
    · have hstops : expandSynonym context 0 (.Row row) = throw .fuel := rfl
      simp [expandTurn, hmayRow] at hleaves
      cases hleaves
    rw [expandTurn_row hmayRow] at hleaves
    obtain ⟨expanded, s₁, hmerges, hleaves⟩ := of_run_bind hleaves
    split_ifs at hleaves with hkept
    case neg =>
      obtain ⟨_, _, _, hleaves⟩ := of_run_bind hleaves
      cases hleaves
    subst hkept
    obtain ⟨turn, s₂, hran, hmerges⟩ := of_run_bind hmerges
    simp only [hasTail, Bool.false_eq_true, ↓reduceIte] at hran
    obtain ⟨found, s₃, hexpands, hran⟩ := of_run_bind hran
    split_ifs at hran with hsame'
    · subst hsame'
      have hnear := (expand_follows context enough (.Row row) (same_equivalence.refl s)
        (hruns enough le_rfl)).1
      refine ((expand_follows context _ _).settles ?_ hexpands).mono fun _ _ holds => holds.1
      exact same_equivalence.trans hsame (same_equivalence.symm hnear)
    · cases hran
      exact absurd rfl (mergeTail_ne hasTail hsame' hmerges)

/-- An expanded type is normal. -/
lemma Expands.normal {t t' : Ty} (h : Expands context s t t') : reduct s t' = .ok none := by
  obtain ⟨found, u, enough, hruns, rfl⟩ := h
  have hnear := (expand_follows context enough t (same_equivalence.refl s) (hruns enough le_rfl)).1
  cases hmay : found.mayExpand with
  | true =>
    obtain ⟨-, -, -, normal, -⟩ := expand_last context (hruns enough le_rfl) hmay
    exact ((hnear.leads _ _).mpr (.stop normal)).done
  | false =>
    refine reduct_of_mayNormalise ?_
    cases found with
    | Row row =>
      have htails : row.tailMayExpand = false := hmay
      rw [tailMayExpand_eq] at htails
      cases hasTail : row.tail <;> simp_all [Ty.mayNormalise, Ty.isUnification, Ty.isNestedRow]
    | Unification => cases hmay
    | _ => rfl

/-- `expand` merges the tail of a row into it if the tail stands for something else. -/
lemma expandRowTail_settles (hasTail : row.tail = some tail) (h : Expands context s tail expanded)
    (hsame : Same s s') :
    Settles (fun fuel => expandRowTail (expand context fuel) fuel (.Row row)) s' fun found u =>
      found = (if tail = expanded then .Row row else joinRow row.fields (some expanded)) ∧
        Same s u := by
  refine Settles.loop
    (fun x u => (x = (.Row row, [], false) ∨ x = (expanded, row.fields, true) ∧ tail ≠ expanded) ∧
      Same s u) (fun x _ => if x.2.2 then 0 else 1) ?_ ⟨.inl rfl, hsame⟩
  rintro x u ⟨rfl | ⟨rfl, hdiffer⟩, hnear⟩
  · simp only [hasTail, Bool.false_eq_true, ↓reduceIte]
    refine (h.same hnear).bind ?_
    rintro found v ⟨rfl, hnear⟩
    split_ifs with hsame
    · exact .pure ⟨rfl, hnear⟩
    · exact .pure ⟨⟨.inr ⟨rfl, hsame⟩, hnear⟩, Nat.zero_lt_one⟩
  · rw [if_neg hdiffer]
    simp only
    cases expanded with
    | Row inner =>
      dsimp only
      cases hinnerTail : inner.tail with
      | none => exact .pure ⟨by simp [joinRow, tailParts, rowParts, hinnerTail], hnear⟩
      | some last =>
        refine ((h.idem.rowTail hinnerTail).same hnear).bind ?_
        rintro found v ⟨rfl, hnear⟩
        simp only [↓reduceIte]
        exact .pure ⟨by simp [joinRow, tailParts, rowParts, hinnerTail], hnear⟩
    | _ => exact .pure ⟨by simp [joinRow, tailParts, rowParts], hnear⟩

/-- A row that is merged with what its tail stands for. -/
lemma joinRow_eq (hasTail : row.tail = some tail) :
    ∃ joined : RowType, joinRow row.fields (some expanded) = .Row joined ∧
      joined.fields = sortFields (row.fields ++ (rowParts expanded).1) ∧
      joined.tail = (rowParts expanded).2 :=
  internRow_eq_row fun hempty =>
    absurd (append_eq_nil_iff.mp hempty).1 (fields_ne_nil hasTail)

lemma joinRow_ne (hasTail : row.tail = some tail) (hchanged : tail ≠ expanded) :
    joinRow row.fields (some expanded) ≠ .Row row := by
  intro hsame
  obtain ⟨joined, heq, hfields, htails⟩ := @joinRow_eq row tail expanded hasTail
  obtain rfl : joined = row := Ty.Row.inj (heq.symm.trans hsame)
  have hlengths := congrArg List.length hfields
  rw [length_insertionSort, length_append] at hlengths
  have hnone : (rowParts expanded).1 = [] := length_eq_zero_iff.mp (by omega)
  cases expanded with
  | Row inner =>
    rw [htails, rowParts, tail_of_fields_nil hnone] at hasTail
    cases hasTail
  | _ =>
    rw [htails] at hasTail
    exact hchanged (Option.some_injective _ hasTail).symm

/-- One round of `expand` on a row. -/
lemma expandTurn_row_settles (hasTail : row.tail = some tail) (hmay : (Ty.Row row).mayExpand = true)
    (h : Expands context s tail expanded)
    (hnormal : tail ≠ expanded → reduct s (joinRow row.fields (some expanded)) = .ok none)
    (hsame : Same s s') :
    Settles (fun fuel => expandTurn context fuel (.Row row)) s' fun turn u =>
      turn = (if tail = expanded then .leave (.Row row)
        else .again (joinRow row.fields (some expanded))) ∧ Same s u := by
  refine .succ ?_
  simp only [expandTurn_row hmay]
  refine (expandRowTail_settles hasTail h hsame).more.bind ?_
  rintro merged u ⟨rfl, hnear⟩
  by_cases hkept : tail = expanded
  · simp only [hkept, ↓reduceIte]
    exact .pure ⟨rfl, hnear⟩
  · simp only [hkept, joinRow_ne hasTail hkept, ↓reduceIte]
    have hleads : Leads u (joinRow row.fields (some expanded)) _ :=
      (hnear.leads _ _).mp (.stop (hnormal hkept))
    refine (normalise_settles_leads hleads).more.bind ?_
    rintro found v ⟨rfl, hnear'⟩
    exact .pure ⟨rfl, same_equivalence.trans hnear hnear'⟩

/-- A row without a tail or with an expanded one is left as it is. -/
lemma expandTurn_leaves (htails : ∀ tail, row.tail = some tail → Expands context s tail tail)
    (hsame : Same s s') :
    Settles (fun fuel => expandTurn context fuel (.Row row)) s' fun turn _ =>
      turn = .leave (.Row row) := by
  cases hmay : (Ty.Row row).mayExpand with
  | false => exact .congr (.pure rfl) 0 fun fuel _ => by simp [expandTurn, hmay]
  | true =>
    cases hasTail : row.tail with
    | none =>
      have hclosed : row.tailMayExpand = true := hmay
      simp [tailMayExpand_eq, hasTail] at hclosed
    | some tail =>
      refine (expandTurn_row_settles hasTail hmay (htails tail hasTail) (fun hne => absurd rfl hne)
        hsame).mono ?_
      rintro _ w ⟨rfl, -⟩
      simp

/-- **A row whose tail stands for another type stands for the row that is merged with it.** -/
theorem expands_joinRow (hsorted : SortedFields row.fields) (hasTail : row.tail = some tail)
    (hnotRow : tail.isRow = false) (h : Expands context s tail expanded) :
    Expands context s (.Row row) (joinRow row.fields (some expanded)) := by
  have hstart : reduct s (.Row row) = .ok none := row_normal (by simp [hasTail, hnotRow])
  by_cases hkept : tail = expanded
  · subst hkept
    have hsame : joinRow row.fields (some tail) = .Row row := by
      obtain ⟨joined, heq, hfields, htails⟩ := @joinRow_eq row tail tail hasTail
      have hparts : rowParts tail = ([], some tail) := by cases tail <;> first | rfl | cases hnotRow
      rw [hparts, append_nil, sortFields_of_sorted hsorted] at hfields
      rw [hparts, ← hasTail] at htails
      rw [heq, ext hfields htails]
    rw [hsame]
    unfold Expands expand
    split_ifs
    case neg => exact .pure rfl
    refine .succ ?_
    refine (normalise_settles_leads (.stop hstart)).bind ?_
    rintro found u ⟨rfl, hnear⟩
    refine Settles.loop (fun x u => x = .Row row ∧ Same s u) (fun _ _ => 0) ?_ ⟨rfl, hnear⟩
    rintro _ v ⟨rfl, hnear⟩
    refine (expandTurn_leaves (fun rest has => ?_) hnear).mono ?_
    · cases hasTail.symm.trans has
      exact h
    · rintro _ w rfl
      rfl
  obtain ⟨joined, heq, hfields, htails⟩ := @joinRow_eq row tail expanded hasTail
  -- The tail that is left after the merge is expanded and not a row.
  have hlast {rest : Ty} (has : joined.tail = some rest) :
      Expands context s rest rest ∧ rest.isRow = false := by
    rw [htails] at has
    cases expanded with
    | Row inner => exact ⟨h.idem.rowTail has, isRow_tail_of_normal h.normal has⟩
    | _ =>
      cases has
      exact ⟨h.idem, rfl⟩
  have hnormal : reduct s (.Row joined) = .ok none := row_normal fun _ has => (hlast has).2
  rw [heq]
  have hmay : (Ty.Row row).mayExpand = true := by
    show row.tailMayExpand = true
    rw [tailMayExpand_eq, hasTail]
    cases hmay : tail.mayExpand with
    | true => simp [hmay]
    | false =>
      obtain ⟨_, _, _, _, rfl, hsame⟩ := (Expands.refl hmay).and h
      exact absurd hsame hkept
  unfold Expands expand
  simp only [hmay]
  refine .succ ?_
  refine (normalise_settles_leads (.stop hstart)).bind ?_
  rintro found u ⟨rfl, hnear⟩
  refine Settles.loop (fun x u => (x = .Row row ∨ x = .Row joined) ∧ Same s u)
    (fun x _ => if x = .Row joined then 0 else 1) ?_ ⟨.inl rfl, hnear⟩
  have hdiffer : Ty.Row row ≠ .Row joined :=
    fun hsame => joinRow_ne hasTail hkept (heq.trans hsame.symm)
  rintro _ v ⟨rfl | rfl, hnear⟩
  · refine (expandTurn_row_settles hasTail hmay h (fun _ => heq ▸ hnormal) hnear).mono ?_
    rintro _ w ⟨rfl, hnear⟩
    rw [if_neg hkept, heq]
    exact ⟨⟨.inr rfl, hnear⟩, by simp [hdiffer]⟩
  · refine (expandTurn_leaves (fun rest has => (hlast has).1) hnear).mono ?_
    rintro _ w rfl
    rfl

end Expanded

end Iris.Checking
