import IrisCompiler.Checking.PrimRow
import IrisCompiler.Checking.RowExpansion

/-!
# Unions in one step and in two

What `match_union` finds is a matter of the views of its arguments.  A left row with a tail is taken
apart: its fields go into the union, in front of a fresh tail, and the tail of the left row is left
for a second union.  Here is that the two steps give the union that the flattened left row has.
-/

namespace Iris.Checking

open TotalRun MergeJoin

/-! ## Views -/

section Views

variable {context : CheckContext} {s s' : CheckState} {t : Ty} {view : RowView}

lemma foldChildren_follows {one : Ty → CheckM Ty} {program : ℕ → Ty → CheckM Ty}
    (hfollows : ∀ t, Follows Same (one t) fun fuel => program fuel t) (fuel : ℕ) (t : Ty) :
    Follows Same (foldChildren one fuel t) fun fuel => foldChildren (program fuel) fuel t := by
  have hrebuilds (one : Ty → CheckM Ty) (fuel : ℕ) :
      foldChildren one fuel t = rebuild (flattenRow fuel) one t := by cases t <;> rfl
  simp only [hrebuilds]
  exact rebuild_follows hfollows fuel t

lemma foldRecursivelyNormalise_follows (context : CheckContext) :
    ∀ fuel t, Follows Same (foldRecursivelyNormalise context fuel t)
      (foldRecursivelyNormalise context · t)
  | 0, _ => .throw Fault.fuel
  | fuel + 1, t => by
    refine .succ ?_
    refine follows_bind (normalise_follows fuel t) fun t => ?_
    refine follows_bind (Follows.loop same_equivalence (fun t => ?_) fuel t) fun t =>
      foldChildren_follows (foldRecursivelyNormalise_follows context fuel) fuel t
    refine follows_bind (expand_follows context fuel t) fun expanded => ?_
    split_ifs
    · exact follows_pure _
    · refine follows_bind (normalise_follows fuel expanded) fun _ => ?_
      exact follows_pure _

lemma extractRow_follows (context : CheckContext) (fuel : ℕ) (t : Ty) :
    Follows Same (extractRow context fuel t) (extractRow context · t) := by
  refine follows_bind (Follows.loop same_equivalence (fun t => ?_) fuel t) fun _ => follows_pure _
  exact follows_bind (foldRecursivelyNormalise_follows context fuel t) fun _ => follows_pure _

/-- `extract_row` returns the view. -/
def Views (context : CheckContext) (s : CheckState) (t : Ty) (view : RowView) : Prop :=
  Settles (fun fuel => extractRow context fuel t) s fun found _ => found = view

/-- The view is the same after shortcuts were made. -/
lemma Views.same (h : Views context s t view) (same : Same s s') :
    Settles (fun fuel => extractRow context fuel t) s' fun found u => found = view ∧ Same s u := by
  obtain ⟨_, u, enough, hruns, rfl⟩ := h
  refine ((extractRow_follows context enough t).settles same (hruns enough le_rfl)).mono ?_
  rintro found u ⟨rfl, hnear⟩
  exact ⟨rfl, same_equivalence.trans same hnear⟩

/-- What a run extracts is the view. -/
lemma Views.of_run {fuel : ℕ} {u : CheckState}
    (hrun : (extractRow context fuel t).run s' = .ok (view, u)) (hsame : Same s s') :
    Views context s t view ∧ Same s u := by
  obtain ⟨hnear, -⟩ := extractRow_follows context fuel t (same_equivalence.refl s') hrun
  refine ⟨?_, same_equivalence.trans hsame hnear⟩
  exact ((extractRow_follows context fuel t).settles (same_equivalence.symm hsame) hrun).mono
    fun _ _ holds => holds.1

lemma Views.unique {other : RowView} (h : Views context s t view) (h' : Views context s t other) :
    view = other := by
  obtain ⟨_, _, _, _, rfl, hsame⟩ := h.and h'
  exact hsame

lemma Views.eq_ofType (h : Views context s t view) : ∃ t', view = .ofType t' := by
  obtain ⟨_, u, enough, hruns, rfl⟩ := h
  obtain ⟨t', _, _, hrun⟩ := of_run_bind (hruns enough le_rfl)
  cases hrun
  exact ⟨t', rfl⟩

/-- A view with a tail and no field is not the view of a row. -/
lemma Views.isRow_tail {tail : Ty} (h : Views context s t view) (hempty : view.fields = [])
    (hasTail : view.tail = some tail) : tail.isRow = false := by
  obtain ⟨t', rfl⟩ := h.eq_ofType
  cases t' with
  | Row row =>
    cases has : row.tail with
    | none => simp [RowView.ofType, RowView.fromRow, has, RowView.tail] at hasTail
    | some last =>
      simp only [RowView.ofType, RowView.fromRow, has] at hempty
      exact absurd hempty (RowType.fields_ne_nil has)
  | _ =>
    cases hasTail
    rfl

lemma Views.fields_ne_nil {fields : List RowField} {tail : Ty}
    (h : Views context s t (.Open fields tail)) : fields ≠ [] := by
  obtain ⟨t', hsame⟩ := h.eq_ofType
  cases t' with
  | Row row =>
    cases has : row.tail with
    | none => simp [RowView.ofType, RowView.fromRow, has] at hsame
    | some last =>
      simp only [RowView.ofType, RowView.fromRow, has, RowView.Open.injEq] at hsame
      exact hsame.1 ▸ RowType.fields_ne_nil has
  | _ => cases hsame

end Views

/-! ## The rules -/

section Rules

variable {context : CheckContext} {unionClass : TypeItem} {s : CheckState}
  {left right union tail : Ty} {leftView rightView unionView : RowView} {fields : List RowField}

/-- **A closed left row**: the union has the fields of both rows and the tail of the right one. -/
lemma matchUnion_closed (hleft : Views context s left (.Closed fields))
    (hright : Views context s right rightView) (hunion : Views context s union unionView) :
    Settles (fun fuel => matchUnion context unionClass fuel left right union) s fun found _ =>
      found = .fromUnifications
        [(union, internRow (fields ++ rightView.fields) rightView.tail)] := by
  refine (hleft.same (same_equivalence.refl s)).bind ?_
  rintro _ s₁ ⟨rfl, hnear⟩
  refine (hright.same hnear).bind ?_
  rintro _ s₂ ⟨rfl, hnear⟩
  refine (hunion.same hnear).bind ?_
  rintro _ s₃ ⟨rfl, hnear⟩
  exact .pure rfl

variable {u : CheckState}

/-- The constraint of the second step is canonical. -/
lemma canonicalise_union {fuel : ℕ} {kind fresh : Ty} {found : Option CanonicalConstraint}
    (hrun : (canonicalise context fuel ([tail, right, fresh].foldl .Application
      (.KindApplication (.Constructor unionClass) kind))).run s = .ok (found, u)) :
    found = some ⟨unionClass, [.Kind kind, .Type tail, .Type right, .Type fresh]⟩ := by
  obtain _ | _ | _ | _ | _ | fuel := fuel
  case succ.succ.succ.succ.succ =>
    cases hrun
    rfl
  all_goals cases hrun

lemma canonicalise_union_settles {kind fresh : Ty} :
    Settles (fun fuel => canonicalise context fuel ([tail, right, fresh].foldl .Application
      (.KindApplication (.Constructor unionClass) kind))) s fun _ _ => True := by
  refine ⟨some ⟨unionClass, [.Kind kind, .Type tail, .Type right, .Type fresh]⟩, s, 5,
    fun fuel hlarge => ?_, trivial⟩
  obtain ⟨more, rfl⟩ := Nat.exists_eq_add_of_le' hlarge
  rfl

/-- Unless the right row and the union are closed, a left row with a tail is opened. -/
lemma unionCases_open
    (hopened : ¬ ∃ r o, rightView = .Closed r ∧ unionView = .Closed o) (fuel : ℕ) :
    unionCases context unionClass fuel left right union (.Open fields tail) rightView unionView =
      matchOpenUnion context unionClass fuel left right union fields tail := by
  cases rightView with
  | Closed r =>
    cases unionView with
    | Closed o => exact absurd ⟨r, o, rfl, rfl⟩ hopened
    | _ => rfl
  | _ => rfl

/-- **A left row with a tail**: its fields go into the union, in front of a fresh tail, and the
tails are left for another union. -/
lemma matchUnion_open (hleft : Views context s left (.Open fields tail))
    (hright : Views context s right rightView) (hunion : Views context s union unionView)
    (hopened : ¬ ∃ r o, rightView = .Closed r ∧ unionView = .Closed o)
    {fuel : ℕ} {found : MatchInstance}
    (hrun : (matchUnion context unionClass fuel left right union).run s = .ok (found, u)) :
    ∃ fresh kind, found = .Match [(union, internRow fields (some (.Unification fresh)))]
      [⟨unionClass, [.Kind kind, .Type tail, .Type right, .Type (.Unification fresh)]⟩] := by
  obtain ⟨leftView, s₁, hextracts, hrun⟩ := of_run_bind hrun
  obtain ⟨hviews, hnear⟩ := Views.of_run hextracts (same_equivalence.refl s)
  obtain rfl := hviews.unique hleft
  obtain ⟨_, s₂, hextracts, hrun⟩ := of_run_bind hrun
  obtain ⟨hviews, hnear⟩ := Views.of_run hextracts hnear
  obtain rfl := hviews.unique hright
  obtain ⟨_, s₃, hextracts, hrun⟩ := of_run_bind hrun
  obtain ⟨hviews, hnear⟩ := Views.of_run hextracts hnear
  obtain rfl := hviews.unique hunion
  rw [unionCases_open hopened] at hrun
  obtain ⟨kind, s₄, -, hrun⟩ := of_run_bind hrun
  obtain ⟨fresh, s₅, hfreshens, hrun⟩ := of_run_bind hrun
  obtain ⟨id, rfl⟩ : ∃ id, fresh = .Unification id := by
    cases hfreshens
    exact ⟨_, rfl⟩
  obtain ⟨constraint, s₆, hmakes, hrun⟩ := of_run_bind hrun
  obtain ⟨kind, s₇, -, hmakes⟩ := of_run_bind hmakes
  cases hmakes
  obtain ⟨canonical, s₈, hcanonicalises, hrun⟩ := of_run_bind hrun
  obtain rfl := canonicalise_union hcanonicalises
  cases hrun
  exact ⟨id, kind, rfl⟩

/-- Kind inference answers for the arguments of the wanted union and, once the fresh tail is made,
for those of the second step. -/
def InfersKinds (context : CheckContext) (s : CheckState) (left right union tail : Ty) : Prop :=
  ∀ s', Same s s' →
    Settles (fun fuel => inferPrimRowElementKind context fuel [left, right, union]) s' fun kind t =>
      ∀ fresh u, (freshUnification (context.rowKind kind)).run t = .ok (fresh, u) →
        Settles (fun fuel => inferPrimRowElementKind context fuel [tail, right, fresh]) u
          fun _ _ => True

/-- **The first step returns**, if kind inference answers. -/
lemma matchUnion_open_settles (hleft : Views context s left (.Open fields tail))
    (hright : Views context s right rightView) (hunion : Views context s union unionView)
    (hopened : ¬ ∃ r o, rightView = .Closed r ∧ unionView = .Closed o)
    (hkinds : InfersKinds context s left right union tail) :
    Settles (fun fuel => matchUnion context unionClass fuel left right union) s
      fun _ _ => True := by
  refine (hleft.same (same_equivalence.refl s)).bind ?_
  rintro _ s₁ ⟨rfl, hnear⟩
  refine (hright.same hnear).bind ?_
  rintro _ s₂ ⟨rfl, hnear⟩
  refine (hunion.same hnear).bind ?_
  rintro _ s₃ ⟨rfl, hnear⟩
  simp only [unionCases_open hopened]
  refine (hkinds s₃ hnear).bind fun kind s₄ hrest => ?_
  refine .bind_run (fun _ => rfl) ?_
  simp only [makePrimRowConstraint, bind_assoc, pure_bind]
  refine (hrest _ _ rfl).bind fun kind s₅ _ => ?_
  exact canonicalise_union_settles.bind fun _ _ _ => .pure trivial

end Rules

/-! ## Two steps -/

section TwoSteps

variable {context : CheckContext} {s : CheckState} {right : Ty} {fields closed : List RowField}
  {view : RowView}

lemma internRow_congr {fields other : List RowField} (tail : Option Ty)
    (h : ∀ label, keyed RowField.label label fields = keyed RowField.label label other) :
    internRow fields tail = internRow other tail := by
  have hsame : sortFields fields = sortFields other :=
    (sortedFields_sort fields).ext (sortedFields_sort other) fun label => by
      rw [keyed_sortFields, keyed_sortFields, h]
  simp [internRow, hsame]

/-- **The union of two steps is the union of one.**  The fields in front of the union of the tails,
merged with it, are the union of the flattened row. -/
lemma joinRow_union (h : Views context s right view) :
    joinRow (sortFields fields) (some (internRow (closed ++ view.fields) view.tail)) =
      internRow (sortFields (fields ++ closed) ++ view.fields) view.tail := by
  by_cases hempty : closed ++ view.fields = [] → view.tail = none
  · obtain ⟨row, heq, hrowFields, hrowTail⟩ := internRow_eq_row hempty
    rw [heq, joinRow, tailParts, rowParts, hrowFields, hrowTail]
    refine internRow_congr _ fun label => ?_
    simp [keyed_sortFields]
  · obtain ⟨hnone, has⟩ := Classical.not_imp.mp hempty
    obtain ⟨rfl, hnoFields⟩ := List.append_eq_nil_iff.mp hnone
    obtain ⟨tail, has⟩ := Option.ne_none_iff_exists'.mp has
    have hnotRow := h.isRow_tail hnoFields has
    have hparts : rowParts tail = ([], some tail) := by cases tail <;> first | rfl | cases hnotRow
    rw [hnoFields, has]
    show internRow (_ ++ (rowParts tail).1) (rowParts tail).2 = _
    rw [hparts]
    simp

end TwoSteps

/-- The second step ends in the union of the flattened row: whenever the tail of the left row is a
closed row, the union with the tail and the union with the flattened row have solutions, and where
the fresh tail stands for the first, the row of the first step stands for the second. -/
def SameUnion (context : CheckContext) (unionClass : TypeItem) (fields : List RowField)
    (tail right union fresh : Ty) : Prop :=
  ∀ (s : CheckState) (flat : Ty) (closed : List RowField) (view freshView unionView : RowView),
    Views context s tail (.Closed closed) → Views context s right view →
    Views context s fresh freshView → Views context s union unionView →
    Views context s flat (.Closed (sortFields (fields ++ closed))) →
    ∃ rest whole,
      (Settles (fun fuel => matchUnion context unionClass fuel tail right fresh) s fun found _ =>
        found = .fromUnifications [(fresh, rest)]) ∧
      (Settles (fun fuel => matchUnion context unionClass fuel flat right union) s fun found _ =>
        found = .fromUnifications [(union, whole)]) ∧
      ∀ s', Expands context s' fresh rest →
        Expands context s' (internRow fields (some fresh)) whole

lemma sameUnion {context : CheckContext} {unionClass : TypeItem} {fields : List RowField}
    {tail right union : Ty} {fresh : ℕ} (hnonempty : fields ≠ []) :
    SameUnion context unionClass fields tail right union (.Unification fresh) := by
  intro s flat closed view freshView unionView htail hright hfresh hunion hflat
  refine ⟨_, _, matchUnion_closed htail hright hfresh, matchUnion_closed hflat hright hunion, ?_⟩
  intro s' hexpands
  obtain ⟨row, heq, hrowFields, hrowTail⟩ := @internRow_eq_row fields
    (some (.Unification fresh)) fun hempty => absurd hempty hnonempty
  rw [heq, ← joinRow_union hright, ← hrowFields]
  exact expands_joinRow (hrowFields ▸ sortedFields_sort fields) hrowTail rfl hexpands

/-- What the first step finds: the fields of the left row in front of a fresh tail, and a second
union that gives the same as the flattened row. -/
def FirstStep (context : CheckContext) (unionClass : TypeItem) (fields : List RowField)
    (tail right union : Ty) (found : MatchInstance) : Prop :=
  ∃ fresh kind,
    found = .Match [(union, internRow fields (some fresh))]
      [⟨unionClass, [.Kind kind, .Type tail, .Type right, .Type fresh]⟩] ∧
    SameUnion context unionClass fields tail right union fresh

/-- **Row union is invertible.**  From the union of two closed rows and the right row both rows come
back, with the fields of one label in their order; an output is refused exactly when it has fewer
fields of some label than the right row; and a left row with a tail has the union of the row that it
is flattened to, in two steps, of which the first returns if kind inference answers. -/
theorem matchUnion_invertible (context : CheckContext) (unionClass : TypeItem) :
    (∀ (s : CheckState) (left right union : Ty) (l r : List RowField) (view : RowView),
      Views context s left (.Closed (sortFields l)) →
      Views context s right (.Closed (sortFields r)) → Views context s union view →
      ∃ output : RowType,
        (Settles (fun fuel => matchUnion context unionClass fuel left right union) s fun found _ =>
          found = .fromUnifications [(union, .Row output)]) ∧
        partitionUnionOutput output.fields (sortFields r) = some (sortFields l, sortFields r)) ∧
    (∀ output right : List RowField, partitionUnionOutput output right = none ↔
      ∃ label, (output.filter fun field => field.label = label).length <
        (right.filter fun field => field.label = label).length) ∧
    (∀ (s : CheckState) (left right union tail : Ty) (fields : List RowField)
      (rightView unionView : RowView), Views context s left (.Open fields tail) →
      Views context s right rightView → Views context s union unionView →
      ¬ (∃ r o, rightView = .Closed r ∧ unionView = .Closed o) →
      (∀ fuel found u,
        (matchUnion context unionClass fuel left right union).run s = .ok (found, u) →
        FirstStep context unionClass fields tail right union found) ∧
      (InfersKinds context s left right union tail →
        Settles (fun fuel => matchUnion context unionClass fuel left right union) s fun found _ =>
          FirstStep context unionClass fields tail right union found)) := by
  refine ⟨?_, fun output right => partitionUnionOutput_eq_none, ?_⟩
  · intro s left right union l r view hleft hright hunion
    obtain ⟨output, heq, hfields, -⟩ := @internRow_eq_row
      (sortFields l ++ sortFields r) none fun _ => rfl
    refine ⟨output, ?_, ?_⟩
    · exact heq ▸ matchUnion_closed hleft hright hunion
    · rw [hfields]
      exact partitionUnionOutput_union (sortedFields_sort l) (sortedFields_sort r)
  · intro s left right union tail fields rightView unionView hleft hright hunion hopened
    have hfirst : ∀ fuel found u,
        (matchUnion context unionClass fuel left right union).run s = .ok (found, u) →
        FirstStep context unionClass fields tail right union found := by
      intro fuel found u hrun
      obtain ⟨fresh, kind, rfl⟩ := matchUnion_open hleft hright hunion hopened hrun
      exact ⟨_, kind, rfl, sameUnion hleft.fields_ne_nil⟩
    refine ⟨hfirst, fun hkinds => ?_⟩
    obtain ⟨found, u, enough, hruns, -⟩ :=
      @matchUnion_open_settles _ unionClass _ _ _ _ _ _ _ _ hleft hright hunion hopened hkinds
    exact ⟨found, u, enough, hruns, hfirst enough found u (hruns enough le_rfl)⟩

/-- A state with row variables. -/
def CheckState.rows (states : List UnificationState) : CheckState :=
  ⟨states.map fun state => ⟨0, CheckContext.bare.rowKind CheckContext.bare.type, state⟩, 0, 0, 0⟩

/-- A field of which rows have several. -/
def fieldX (item : ℕ) : RowField := ⟨"x", .Constructor ⟨0, item⟩⟩

/-- Where no variable is solved there is no shortcut to make. -/
lemma eq_of_same {s s' : CheckState} (hunsolved : ∀ entry ∈ s.unifications, entry.state = .Unsolved)
    (hsame : Same s s') : s' = s := by
  have hlength : s.unifications.length = s'.unifications.length := by
    simpa using congrArg List.length hsame.entries
  have hentries : s'.unifications = s.unifications := by
    refine List.ext_getElem hlength.symm fun id hid' hid => ?_
    have hentry : (s.unifications[id].depth, s.unifications[id].kind) =
        (s'.unifications[id].depth, s'.unifications[id].kind) := by
      have := congrArg (·[id]?) hsame.entries
      simpa [List.getElem?_eq_getElem hid, List.getElem?_eq_getElem hid'] using this
    have hstays : reduct s (.Unification id) = .ok none := by
      simp [reduct, List.getElem?_eq_getElem hid, hunsolved _ (List.getElem_mem hid)]
    have hstays' := ((hsame.leads _ _).mp (.stop hstays)).done
    simp only [reduct, List.getElem?_eq_getElem hid'] at hstays'
    have hstate : s'.unifications[id].state = .Unsolved := by
      cases hcase : s'.unifications[id].state with
      | Solved => simp [hcase] at hstays'
      | Unsolved => rfl
    rw [Prod.mk.injEq] at hentry
    have hstate' := hunsolved _ (List.getElem_mem hid)
    cases hl : s.unifications[id]
    cases hr : s'.unifications[id]
    simp_all
  obtain ⟨entries, file, unique, depth⟩ := s
  obtain ⟨entries', file', unique', depth'⟩ := s'
  obtain ⟨rfl, rfl, rfl, -, -⟩ := hsame
  rw [show entries' = entries from hentries]

/-- The kind of the fields `x` is a fresh variable, which is solved to `Type`. -/
lemma infersKinds_x : InfersKinds .bare (.rows [.Unsolved, .Unsolved, .Unsolved])
    (internRow [fieldX 5] (some (.Unification 0))) (internRow [fieldX 7] (some (.Unification 1)))
    (.Unification 2) (.Unification 0) := by
  intro s' hsame
  obtain rfl := eq_of_same (by decide) hsame
  let inferred : List UnificationEntry :=
    (CheckState.rows [.Unsolved, .Unsolved, .Unsolved]).unifications ++
      [⟨0, CheckContext.bare.type, .Solved CheckContext.bare.type⟩]
  refine ⟨.Unification 3, ⟨inferred, 0, 0, 0⟩, 12, fun fuel hlarge => ?_, ?_⟩
  · obtain ⟨more, rfl⟩ := Nat.exists_eq_add_of_le' hlarge
    rfl
  · rintro _ _ ⟨⟩
    refine ⟨CheckContext.bare.type, ⟨inferred ++
      [⟨0, CheckContext.bare.rowKind (.Unification 3), .Unsolved⟩], 0, 0, 0⟩, 12,
      fun fuel hlarge => ?_, trivial⟩
    obtain ⟨more, rfl⟩ := Nat.exists_eq_add_of_le' hlarge
    rfl

/-- The fields `x` of three rows: in the first step one of them, in the second the others. -/
theorem matchUnion_invertible_x :
    (∃ output : RowType,
      (Settles (fun fuel => matchUnion .bare ⟨1, 0⟩ fuel (internRow [fieldX 5] none)
        (internRow [fieldX 7] none) (.Unification 2)) (.rows [.Unsolved, .Unsolved, .Unsolved])
        fun found _ => found = .fromUnifications [(.Unification 2, .Row output)]) ∧
      partitionUnionOutput output.fields [fieldX 7] = some ([fieldX 5], [fieldX 7])) ∧
    partitionUnionOutput [fieldX 5] [fieldX 6, fieldX 7] = none ∧
    (Settles (fun fuel => matchUnion .bare ⟨1, 0⟩ fuel
        (internRow [fieldX 5] (some (.Unification 0)))
        (internRow [fieldX 7] (some (.Unification 1))) (.Unification 2))
      (.rows [.Unsolved, .Unsolved, .Unsolved]) fun found _ =>
        FirstStep .bare ⟨1, 0⟩ [fieldX 5] (.Unification 0)
          (internRow [fieldX 7] (some (.Unification 1))) (.Unification 2) found) ∧
    ∃ found u, (matchUnion .bare ⟨1, 0⟩ 12 (internRow [fieldX 5] (some (.Unification 0)))
        (internRow [fieldX 7] (some (.Unification 1))) (.Unification 2)).run
          (.rows [.Unsolved, .Unsolved, .Unsolved]) = .ok (found, u) ∧
      ∃ rest whole,
        (Settles (fun fuel => matchUnion .bare ⟨1, 0⟩ fuel (.Unification 0)
          (internRow [fieldX 7] (some (.Unification 1))) (.Unification 4))
          (.rows [.Solved (internRow [fieldX 6] none), .Unsolved, .Unsolved, .Unsolved, .Unsolved])
          fun found _ => found = .fromUnifications [(.Unification 4, rest)]) ∧
        (Settles (fun fuel => matchUnion .bare ⟨1, 0⟩ fuel (internRow [fieldX 5, fieldX 6] none)
          (internRow [fieldX 7] (some (.Unification 1))) (.Unification 2))
          (.rows [.Solved (internRow [fieldX 6] none), .Unsolved, .Unsolved, .Unsolved, .Unsolved])
          fun found _ => found = .fromUnifications [(.Unification 2, whole)]) ∧
        ∀ s', Expands .bare s' (.Unification 4) rest →
          Expands .bare s' (internRow [fieldX 5] (some (.Unification 4))) whole := by
  obtain ⟨hinverts, hrefuses, htwoSteps⟩ := matchUnion_invertible .bare ⟨1, 0⟩
  have hviews {t : Ty} {view : RowView} {s : CheckState}
      (hrun : (extractRow .bare 9 t).run s = .ok (view, s)) : Views .bare s t view :=
    (Views.of_run hrun (same_equivalence.refl s)).1
  obtain ⟨hruns, hreturns⟩ := htwoSteps (.rows [.Unsolved, .Unsolved, .Unsolved])
    (internRow [fieldX 5] (some (.Unification 0))) (internRow [fieldX 7] (some (.Unification 1)))
    (.Unification 2) (.Unification 0) [fieldX 5] (.Open [fieldX 7] (.Unification 1)) _
    (hviews rfl) (hviews rfl) (hviews rfl) (by simp)
  refine ⟨hinverts _ _ _ _ [fieldX 5] [fieldX 7] _ (hviews rfl) (hviews rfl) (hviews rfl),
    (hrefuses _ _).mpr ⟨"x", by decide⟩, hreturns infersKinds_x, ?_⟩
  have hfirst : ((matchUnion .bare ⟨1, 0⟩ 12 (internRow [fieldX 5] (some (.Unification 0)))
      (internRow [fieldX 7] (some (.Unification 1))) (.Unification 2)).run
        (.rows [.Unsolved, .Unsolved, .Unsolved])).map Prod.fst =
      .ok (.Match [(.Unification 2, internRow [fieldX 5] (some (.Unification 4)))]
        [⟨⟨1, 0⟩, [.Kind CheckContext.bare.type, .Type (.Unification 0),
          .Type (internRow [fieldX 7] (some (.Unification 1))), .Type (.Unification 4)]⟩]) := rfl
  cases hrun : (matchUnion .bare ⟨1, 0⟩ 12 (internRow [fieldX 5] (some (.Unification 0)))
      (internRow [fieldX 7] (some (.Unification 1))) (.Unification 2)).run
        (.rows [.Unsolved, .Unsolved, .Unsolved]) with
  | error fault =>
    rw [hrun] at hfirst
    cases hfirst
  | ok result =>
    obtain ⟨found, u⟩ := result
    rw [hrun] at hfirst
    refine ⟨found, u, rfl, ?_⟩
    obtain ⟨fresh, kind, rfl, hsame⟩ := hruns _ _ _ hrun
    obtain ⟨-, rfl⟩ : kind = CheckContext.bare.type ∧ fresh = .Unification 4 := by
      injection hfirst with hfirst
      injection hfirst with _ hconstraints
      injection hconstraints with hconstraint
      injection hconstraint with _ harguments
      simpa using harguments
    exact hsame _ _ [fieldX 6] _ _ _ (hviews rfl) (hviews rfl) (hviews rfl)
      (hviews rfl) (hviews rfl)

end Iris.Checking
