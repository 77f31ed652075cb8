import IrisCompiler.Checking.Compression
import IrisCompiler.Library.PointerGraph

/-!
# Zonking

`zonk` (`core/zonk.rs`) replaces the solved variables of a type by their solutions, everywhere in
the type, and merges the rows that this brings together.  While the checker writes its results it
keeps a cache of what was zonked (`with_zonk_cache` in `state.rs`); the cache is asked with a type
whose head is normal, and it grows with every type that is rebuilt.

The solutions of a state may share as much as they like but have no cycles.  Then a type and what it
is made of, through the solutions of its variables, is well founded, and by induction on that every
type has one zonked form: a fixed point of zonking, whatever was looked through or cached before.
-/

namespace Iris.Checking

open TotalRun Relation

/-! ## The fold and its cache -/

lemma zonk_succ (fuel : ℕ) (id : Ty) : zonk (fuel + 1) id =
    if id.mayZonk then normalise fuel id >>= rebuild (flattenRow fuel) (zonk fuel) else pure id :=
  foldType_succ _ fuel id

/-- The checker's state with `zonk_cache`. -/
structure ZonkState where
  check : CheckState
  cache : Option (List (Ty × Ty))

inductive ZonkFault where
  | check (fault : Fault)
  /-- "invariant violated: zonk cache enabled twice" -/
  | enabledTwice

abbrev ZonkM := StateT ZonkState (Except ZonkFault)

/-- A program that does not know the cache. -/
def withCheck {α : Type} (program : CheckM α) : ZonkM α := fun state =>
  match program.run state.check with
  | .ok (result, check) => .ok (result, { state with check })
  | .error fault => .error (.check fault)

def lookupZonkCache (id : Ty) : ZonkM (Option Ty) := do
  return (← get).cache.bind (·.lookup id)

def insertZonkCache (id result : Ty) : ZonkM Unit :=
  modify fun state => { state with cache := state.cache.map ((id, result) :: ·) }

/-- `with_zonk_cache`.  The flag that forbids new solutions meanwhile is left out: zonking solves a
variable again only. -/
def withZonkCache {α : Type} (program : ZonkM α) : ZonkM α := do
  if (← get).cache.isSome then throw .enabledTwice
  modify fun state => { state with cache := some [] }
  let result ← program
  modify fun state => { state with cache := none }
  return result

/-- `zonk`, with the cache if there is one. -/
def zonkCached : ℕ → Ty → ZonkM Ty
  | 0, _ => throw (.check .fuel)
  | fuel + 1, id => do
    if !id.mayZonk then return id
    let id ← withCheck (normalise fuel id)
    match ← lookupZonkCache id with
    | some result => return result
    | none =>
      let result ← rebuild (fun row => withCheck (flattenRow fuel row)) (zonkCached fuel) id
      insertZonkCache id result
      return result

/-! ## Solutions without cycles -/

def CheckState.solution (self : CheckState) (id : ℕ) : Option Ty :=
  match self.unifications[id]? with
  | some ⟨_, _, .Solved solution⟩ => some solution
  | _ => none

def Ty.mentions (t : Ty) (id : ℕ) : Bool := t.any fun t => decide (t = .Unification id)

/-- The variables of the type exist. -/
def Ty.Known (s : CheckState) (t : Ty) : Prop :=
  ∀ id, t.mentions id = true → id < s.unifications.length

/-- The solution of the first variable mentions the second. -/
def Needs (s : CheckState) (a b : ℕ) : Prop := ∃ t, s.solution a = some t ∧ t.mentions b = true

/-- No variable is needed for its own solution. -/
structure AcyclicSolutions (s : CheckState) : Prop where
  known : ∀ id t, s.solution id = some t → t.Known s
  acyclic : PointerGraph.Acyclic (Needs s)

/-- What a type is made of, looking through variables. -/
inductive Descends (s : CheckState) : Ty → Ty → Prop where
  | child {c t : Ty} (hmem : c ∈ t.children) : Descends s c t
  | solution {c : Ty} {id : ℕ} (hsolved : s.solution id = some c) : Descends s c (.Unification id)

section Descent

variable {s : CheckState} {t c : Ty}

lemma mentions_iff {id : ℕ} :
    t.mentions id = true ↔ t = .Unification id ∨ ∃ c ∈ t.children, c.mentions id = true := by
  simp only [Ty.mentions]
  rw [Ty.any_eq]
  simp

lemma Ty.Known.descends (h : AcyclicSolutions s) (hknown : t.Known s) (descends : Descends s c t) :
    c.Known s := by
  cases descends with
  | child hmem => exact fun id hmentions => hknown id (mentions_iff.mpr (.inr ⟨c, hmem, hmentions⟩))
  | solution hsolved => exact h.known _ _ hsolved

/-- What a solution mentions is solved without it. -/
lemma AcyclicSolutions.wellFounded_needs (h : AcyclicSolutions s) :
    WellFounded fun b a => Needs s a b := by
  classical
  -- fewer variables can be reached from a variable that is needed
  let reached (a : ℕ) : Finset ℕ :=
    (Finset.range s.unifications.length).filter (TransGen (Needs s) a)
  refine Subrelation.wf (r := InvImage (· < ·) fun a => (reached a).card) ?_
    (InvImage.wf _ wellFounded_lt)
  intro b a hneeds
  have ⟨t, hsolved, hmentions⟩ := hneeds
  have hfewer : reached b ⊆ reached a := by
    intro c hmem
    have ⟨hsmall, hreach⟩ := Finset.mem_filter.mp hmem
    exact Finset.mem_filter.mpr ⟨hsmall, .head hneeds hreach⟩
  refine Finset.card_lt_card ((Finset.ssubset_iff_of_subset hfewer).mpr ⟨b, ?_, ?_⟩)
  · exact Finset.mem_filter.mpr
      ⟨Finset.mem_range.mpr (h.known a t hsolved b hmentions), .single hneeds⟩
  · exact fun hmem => h.acyclic b (Finset.mem_filter.mp hmem).2

/-- **Looking into types and through variables ends.** -/
theorem AcyclicSolutions.wellFounded (h : AcyclicSolutions s) : WellFounded (Descends s) := by
  -- a type is accessible as soon as its variables are
  have hbuilt (t : Ty) :
      (∀ id, t.mentions id = true → Acc (Descends s) (.Unification id)) → Acc (Descends s) t := by
    induction t using Ty.childInduction with
    | step t ih =>
      intro hleaves
      refine ⟨t, fun c hdescends => ?_⟩
      cases hdescends with
      | child hmem =>
        exact ih c hmem fun id hmentions =>
          hleaves id (mentions_iff.mpr (.inr ⟨c, hmem, hmentions⟩))
      | solution hsolved => exact (hleaves _ (mentions_iff.mpr (.inl rfl))).inv (.solution hsolved)
  have hleaf (id : ℕ) : Acc (Descends s) (.Unification id) := by
    induction id using h.wellFounded_needs.induction with
    | _ id ih =>
      refine ⟨_, fun c hdescends => ?_⟩
      cases hdescends with
      | child hmem => cases hmem
      | solution hsolved => exact hbuilt c fun b hmentions => ih b ⟨c, hsolved, hmentions⟩
  exact ⟨fun t => hbuilt t fun id _ => hleaf id⟩

end Descent

/-! ## Heads and rows -/

section Heads

variable {s : CheckState} {t last : Ty}

lemma reduct_unification {id : ℕ} (hknown : id < s.unifications.length) :
    reduct s (.Unification id) = .ok ((s.solution id).map (·, some id)) := by
  have hfound : s.unifications[id]? = some s.unifications[id] := List.getElem?_eq_getElem hknown
  rcases hentry : s.unifications[id] with ⟨depth, kind, _ | solution⟩ <;>
    simp [reduct, CheckState.solution, hfound, hentry]

variable {row : RowType}

/-- A row that is merged has a row as its tail, and brings the fields of both together. -/
lemma reduct_merge {next : Ty} {through : Option ℕ}
    (hreduces : reduct s (.Row row) = .ok (some (next, through))) :
    ∃ inner, row.tail = some (.Row inner) ∧
      (inner.tail = some next ∨ ∃ merged, next = .Row merged ∧ merged.tail = inner.tail ∧
        ∀ field ∈ merged.fields, field ∈ row.fields ∨ field ∈ inner.fields) := by
  simp only [reduct, simplifyRows, Except.ok.injEq, Option.map_eq_some_iff] at hreduces
  obtain ⟨_, hsimplified, hsame⟩ := hreduces
  cases hsame
  split at hsimplified
  case h_2 => cases hsimplified
  case h_1 inner htail =>
    split_ifs at hsimplified
    cases hsimplified
    refine ⟨inner, htail, ?_⟩
    rcases internRow_cases
      (row.fields.merge inner.fields fun left right => left.label ≤ right.label)
      inner.tail with ⟨_, hsame⟩ | ⟨merged, hsame, hperm, htail⟩
    · exact .inl hsame
    · refine .inr ⟨merged, hsame, htail, fun field hmem => ?_⟩
      exact List.mem_merge.mp (hperm.mem_iff.mp hmem)

/-- What holds of all that a type is made of holds of all that its normal form is made of. -/
lemma Leads.descends {Q : Ty → Prop} (hclosed : ∀ t c, Q t → Descends s c t → Q c)
    (hleads : Leads s t last) (holds : ∀ c, Descends s c t → Q c) :
    ∀ c, Descends s c last → Q c := by
  induction hleads with
  | stop => exact holds
  | @step t next last through hreduces _ ih =>
    refine ih fun c descends => ?_
    cases t with
    | Unification id =>
      have hsolved : s.solution id = some next := by
        simp only [reduct] at hreduces
        split at hreduces
        case h_2 => cases hreduces
        case h_1 entry hfound =>
          rcases entry with ⟨depth, kind, _ | solution⟩
          · cases hreduces
          · cases hreduces
            simp [CheckState.solution, hfound]
      exact hclosed next c (holds next (.solution hsolved)) descends
    | Row row =>
      obtain ⟨inner, htail, hmerges⟩ := reduct_merge hreduces
      have hinside (x : Ty) (hmem : x ∈ inner.children) : Q x := by
        exact hclosed (.Row inner) x (holds _ (.child (tail_mem_row htail))) (.child hmem)
      rcases hmerges with htail | ⟨merged, rfl, htail', hfields⟩
      · exact hclosed next c (hinside next (tail_mem_row htail)) descends
      · cases descends with
        | child hmem =>
          rcases List.mem_append.mp hmem with hmem | hmem
          · obtain ⟨field, hinMerged, rfl⟩ := List.mem_map.mp hmem
            rcases hfields field hinMerged with hmem | hmem
            · exact holds _ (.child (field_mem_row hmem))
            · exact hinside _ (field_mem_row hmem)
          · exact hinside c (List.mem_append_right _ (htail' ▸ hmem))
    | _ => cases hreduces

/-- **Every type leads somewhere.** -/
theorem AcyclicSolutions.leads (h : AcyclicSolutions s) (hknown : t.Known s) :
    ∃ last, Leads s t last := by
  -- with every row that ends in the type, since rows are merged along their tails
  suffices hboth : t.Known s → (∃ last, Leads s t last) ∧
      ∀ row : RowType, row.tail = some t → ∃ last, Leads s (.Row row) last from (hboth hknown).1
  clear hknown
  induction t using h.wellFounded.induction with
  | _ t ih =>
    intro hknown
    have hchild (c : Ty) (hdescends : Descends s c t) :=
      ih c hdescends (hknown.descends h hdescends)
    have hends (row : RowType) (htail : ∀ c ∈ row.tail, Descends s c t) :
        ∃ last, Leads s (.Row row) last := by
      cases hfound : row.tail with
      | none => exact ⟨_, .stop (row_normal (by simp [hfound]))⟩
      | some c => exact (hchild c (htail c hfound)).2 row hfound
    constructor
    · cases t with
      | Unification id =>
        have hreduces := reduct_unification (hknown id (mentions_iff.mpr (.inl rfl)))
        cases hsolved : s.solution id with
        | none =>
          rw [hsolved] at hreduces
          exact ⟨_, .stop hreduces⟩
        | some solution =>
          rw [hsolved] at hreduces
          obtain ⟨last, leads⟩ := (hchild solution (.solution hsolved)).1
          exact ⟨last, .step hreduces leads⟩
      | Row row =>
        exact hends row fun c hmem => .child (tail_mem_row hmem)
      | _ => exact ⟨_, .stop rfl⟩
    · intro row htail
      cases hreduces : reduct s (.Row row) with
      | error => cases hreduces
      | ok found =>
        cases found with
        | none => exact ⟨_, .stop hreduces⟩
        | some found =>
          obtain ⟨inner, htail', hmerges⟩ := reduct_merge hreduces
          obtain rfl : t = .Row inner := Option.some.inj (htail.symm.trans htail')
          have hbelow (c : Ty) (hmem : c ∈ inner.tail) : Descends s c (.Row inner) :=
            .child (tail_mem_row hmem)
          rcases hmerges with htail | ⟨merged, hsame, htail, _⟩
          · obtain ⟨last, leads⟩ := (hchild _ (hbelow _ htail)).1
            exact ⟨last, .step hreduces leads⟩
          · obtain ⟨last, leads⟩ := hends merged (htail ▸ hbelow)
            exact ⟨last, .step hreduces (hsame ▸ leads)⟩

end Heads

/-! ## Zonked types -/

/-- Nothing in the type can be looked through or merged. -/
inductive Normal (s : CheckState) : Ty → Prop where
  | mk {t : Ty} (head : reduct s t = .ok none) (hchildren : ∀ c ∈ t.children, Normal s c) :
      Normal s t

section Normal

variable {s : CheckState} {t : Ty}

lemma Normal.reduct (h : Normal s t) : reduct s t = .ok none := by
  cases h with
  | mk head => exact head

lemma Normal.children (h : Normal s t) : ∀ c ∈ t.children, Normal s c := by
  cases h with
  | mk _ children => exact children

lemma normal_of_not_mayZonk : t.mayZonk = false → Normal s t := by
  induction t using Ty.childInduction with
  | step t ih =>
    intro hmay
    rw [Ty.mayZonk, Ty.any_eq, Bool.or_eq_false_iff, List.any_eq_false] at hmay
    exact .mk (reduct_of_mayNormalise hmay.1) fun c hmem =>
      ih c hmem (Bool.eq_false_iff.mpr (hmay.2 c hmem))

variable {row : RowType}

lemma normal_row (hfields : ∀ field ∈ row.fields, Normal s field.type)
    (htail : ∀ t ∈ row.tail, Normal s t ∧ t.isRow = false) : Normal s (.Row row) := by
  exact .mk (row_normal fun t hmem => (htail t hmem).2)
    (forall_mem_row hfields fun t hmem => (htail t hmem).1)

lemma normal_internRow {fields : List RowField} {tail : Option Ty}
    (hfields : ∀ field ∈ fields, Normal s field.type)
    (htail : ∀ t ∈ tail, Normal s t ∧ t.isRow = false) : Normal s (internRow fields tail) := by
  rcases internRow_cases fields tail with ⟨_, hsame⟩ | ⟨row, hsame, hperm, hsame'⟩
  · exact (htail _ hsame).1
  · rw [hsame]
    exact normal_row (fun field hmem => hfields field (hperm.mem_iff.mp hmem)) (hsame' ▸ htail)

lemma Normal.known (h : Normal s t) : t.Known s := by
  induction h with
  | @mk t head _ ih =>
    intro id hmentions
    rcases mentions_iff.mp hmentions with rfl | ⟨c, hmem, hmentions⟩
    · by_contra hlarge
      simp [Iris.Checking.reduct, List.getElem?_eq_none (Nat.le_of_not_lt hlarge)] at head
    · exact ih c hmem id hmentions

end Normal

/-! ## One type rebuilt -/

section Rebuild

variable {τ ε : Type} {Inv : τ → Prop} {fold : ℕ → Ty → StateT τ (Except ε) Ty}
  {flatten : ℕ → RowType → StateT τ (Except ε) (List RowField × Option Ty)}

/-- The parts of a type that are folded. -/
def parts (flat : List RowField × Option Ty) : Ty → List Ty
  | .Row _ => flat.1.map RowField.type ++ flat.2.toList
  | t => t.children

/-- The type built from the answers for its parts. -/
def rebuilt (flat : List RowField × Option Ty) (answer : Ty → Ty) : Ty → Ty
  | .Row row =>
    let fields := flat.1.map fun field => { field with type := answer field.type }
    let tail := flat.2.map answer
    if fields = row.fields ∧ tail = row.tail then .Row row else internRow fields tail
  | t => rebuild (m := Id) (fun _ => flat) answer t

/-- **A type is rebuilt the same way in all states with the invariant.** -/
theorem rebuild_answers {flat : List RowField × Option Ty} {answer : Ty → Ty} {t : Ty}
    (hflattens : ∀ row, t = .Row row → Answers Inv (flatten · row) flat)
    (hfolds : ∀ c ∈ parts flat t, Answers Inv (fold · c) (answer c)) :
    Answers Inv (fun fuel => rebuild (flatten fuel) (fold fuel) t) (rebuilt flat answer t) := by
  cases t with
  | Row row =>
    obtain ⟨fields, tail⟩ := flat
    refine (hflattens row rfl).bind (.bind (.mapM (f := fun field =>
      { field with type := answer field.type }) fun field hmem => ?_)
        (.bind (a := tail.map answer) ?_ ?_))
    · exact (hfolds _ (field_mem_row hmem)).bind (.pure _)
    · cases tail with
      | none => exact .pure none
      | some t =>
        change Answers Inv (fun fuel => do return some (← fold fuel t)) _
        exact (hfolds t (by simp [parts])).bind (.pure _)
    · simp only [rebuilt]
      split_ifs <;> exact .pure _
  | Rigid name depth kind => exact (hfolds kind (.head _)).bind (.pure _)
  | Application | KindApplication | Forall | Constrained | ConstraintOrigin | Function | Kinded =>
    exact (hfolds _ (.head _)).bind ((hfolds _ (.tail _ (.head _))).bind (.pure _))
  | _ => exact .pure _

variable {s : CheckState} {flat : List RowField × Option Ty} {answer : Ty → Ty} {t : Ty}

lemma isRow_rebuilt (h : (rebuilt flat answer t).isRow = true) : t.isRow = true := by
  cases t with
  | Row => rfl
  | _ => cases h

lemma normal_rebuilt (head : reduct s t = .ok none)
    (hnormal : ∀ c ∈ parts flat t, Normal s (answer c))
    (htail : t.isRow = true → ∀ c ∈ flat.2, (answer c).isRow = false) :
    Normal s (rebuilt flat answer t) := by
  cases t with
  | Row row =>
    have hfields : ∀ field ∈ flat.1.map fun field => { field with type := answer field.type },
        Normal s field.type := by
      intro field hmem
      obtain ⟨field, hinFlat, rfl⟩ := List.mem_map.mp hmem
      exact hnormal _ (field_mem_row hinFlat)
    have htails : ∀ t ∈ flat.2.map answer, Normal s t ∧ t.isRow = false := by
      intro t hmem
      obtain ⟨c, hinFlat, rfl⟩ := Option.mem_map.mp hmem
      exact ⟨hnormal c (tail_mem_row hinFlat), htail rfl c hinFlat⟩
    simp only [rebuilt]
    split_ifs with hsame
    · exact normal_row (hsame.1 ▸ hfields) (hsame.2 ▸ htails)
    · exact normal_internRow hfields htails
  | Unification => exact .mk head (List.forall_mem_nil _)
  | Rigid => exact .mk rfl (List.forall_mem_singleton.mpr (hnormal _ (.head _)))
  | Application | KindApplication | Forall | Constrained | ConstraintOrigin | Function | Kinded =>
    exact .mk rfl (List.forall_mem_cons.mpr ⟨hnormal _ (.head _),
      List.forall_mem_singleton.mpr (hnormal _ (.tail _ (.head _)))⟩)
  | _ => exact .mk rfl (List.forall_mem_nil _)

lemma rebuilt_eq_self (hflattens : ∀ row, t = .Row row → flat = (row.fields, row.tail))
    (hsame : ∀ c ∈ t.children, answer c = c) : rebuilt flat answer t = t := by
  cases t with
  | Row row =>
    rw [hflattens row rfl]
    have hfields : row.fields.map (fun field => { field with type := answer field.type }) =
        row.fields := by
      refine (List.map_congr_left fun field hmem => ?_).trans (List.map_id _)
      rw [hsame field.type (field_mem_row hmem)]
      rfl
    have htail : row.tail.map answer = row.tail := by
      cases hfound : row.tail with
      | none => rfl
      | some t => simp [hsame t (tail_mem_row hfound)]
    simp [rebuilt, hfields, htail]
  | Rigid =>
    simp only [rebuilt, rebuild, hsame _ (.head _)]
    rfl
  | Application | KindApplication | Forall | Constrained | ConstraintOrigin | Function | Kinded =>
    simp only [rebuilt, rebuild, hsame _ (.head _), hsame _ (.tail _ (.head _))]
    rfl
  | _ => rfl

end Rebuild

/-! ## Rows made flat -/

section Flatten

variable {s : CheckState} {row : RowType}

lemma normalise_answers {t last : Ty} (hleads : Leads s t last) :
    Answers (Same s) (normalise · t) last := by
  intro s' hsame
  refine (normalise_settles_leads ((hsame.leads t last).mp hleads)).mono fun _ _
    ⟨hfound, hnear⟩ => ?_
  exact ⟨hfound, same_equivalence.trans hsame hnear⟩

/-- One round of `flatten_row`. -/
def flattenTurn (fuel : ℕ) : RowType × List RowField →
    CheckM (Turn (RowType × List RowField) (List RowField × Option Ty))
  | (row, fields) => do
    match row.tail with
    | none => return .leave (fields, none)
    | some tail =>
      match ← normalise fuel tail with
      | .Row inner => return .again (inner, fields ++ inner.fields)
      | _ => return .leave (fields, some tail)

/-- The row and the fields before it are made flat, in the same way in all states that are the same:
the fields and the tail are among the types with `Q`, and the tail does not lead to a row. -/
def Flattens (s : CheckState) (Q : Ty → Prop) (row : RowType) (before : List RowField) : Prop :=
  ∃ fields tail, (∀ s', Same s s' → Loops .fuel flattenTurn (row, before) s' fun found u =>
      found = (fields, tail) ∧ Same s u) ∧
    (∀ field ∈ fields, Q field.type) ∧ (∀ t ∈ tail, Q t ∧ ∀ inner, ¬ Leads s t (.Row inner)) ∧
    (Normal s (.Row row) → fields = before ∧ tail = row.tail)

/-- **Flattening a row ends**, with what the row is made of. -/
theorem AcyclicSolutions.flattens (h : AcyclicSolutions s) {Q : Ty → Prop}
    (hknown : ∀ t, Q t → t.Known s) (hclosed : ∀ t c, Q t → Descends s c t → Q c)
    {before : List RowField} (hbefore : ∀ field ∈ before, Q field.type)
    (holds : ∀ c ∈ row.tail, Q c) : Flattens s Q row before := by
  have hnoTail {row : RowType} (htail : row.tail = none) {before : List RowField}
      (hbefore : ∀ field ∈ before, Q field.type) : Flattens s Q row before := by
    refine ⟨before, none, fun s' hsame => .round ?_, hbefore, by simp, fun _ => ⟨rfl, htail.symm⟩⟩
    simp only [flattenTurn, htail]
    exact .pure ⟨rfl, hsame⟩
  cases htail : row.tail with
  | none => exact hnoTail htail hbefore
  | some t =>
    induction t using h.wellFounded.transGen.induction generalizing row before with
    | _ t ih =>
      have hQ : Q t := holds t htail
      obtain ⟨last, hleads⟩ := h.leads (hknown t hQ)
      cases hisRow : last.isRow with
      | true =>
        obtain ⟨inner, rfl⟩ : ∃ inner, last = .Row inner := by
          cases last with
          | Row inner => exact ⟨inner, rfl⟩
          | _ => cases hisRow
        -- what the merged row is made of lies below the tail
        have hbelow := hleads.descends (Q := fun c => Q c ∧ TransGen (Descends s) c t)
          (fun a c ⟨hQ, hless⟩ hdescends => ⟨hclosed a c hQ hdescends, .head hdescends hless⟩)
          fun c hdescends => ⟨hclosed t c hQ hdescends, .single hdescends⟩
        have hofFields (field : RowField) (hmem : field ∈ inner.fields) : Q field.type :=
          (hbelow _ (.child (field_mem_row hmem))).1
        have hofTail (c : Ty) (hmem : c ∈ inner.tail) : Q c ∧ TransGen (Descends s) c t :=
          hbelow c (.child (tail_mem_row hmem))
        have hmore : ∀ field ∈ before ++ inner.fields, Q field.type := fun field hmem =>
          (List.mem_append.mp hmem).elim (hbefore field) (hofFields field)
        obtain ⟨fields, last, hloops, hfields, hlast, _⟩ :
            Flattens s Q inner (before ++ inner.fields) := by
          cases htail' : inner.tail with
          | none => exact hnoTail htail' hmore
          | some c =>
            exact ih c (hofTail c htail').2 hmore (fun c hmem => (hofTail c hmem).1) htail'
        refine ⟨fields, last, fun s' hsame => .round ?_, hfields, hlast, fun hnormal => ?_⟩
        · simp only [flattenTurn, htail]
          refine (normalise_answers hleads s' hsame).bind ?_
          rintro _ u ⟨rfl, hsame⟩
          exact .pure (hloops u hsame)
        · -- the tail of a normal row leads nowhere
          have hstops := hnormal.children t (tail_mem_row htail)
          obtain rfl := hleads.unique (.stop hstops.reduct)
          cases isRow_tail_of_normal hnormal.reduct htail
      | false =>
        refine ⟨before, some t, fun s' hsame => .round ?_, hbefore, ?_, fun _ => ⟨rfl, htail.symm⟩⟩
        · simp only [flattenTurn, htail]
          refine (normalise_answers hleads s' hsame).bind ?_
          rintro found u ⟨rfl, hsame⟩
          cases found with
          | Row => cases hisRow
          | _ => exact .pure ⟨rfl, hsame⟩
        · rintro _ ⟨⟩
          refine ⟨hQ, fun inner hleads' => ?_⟩
          rw [hleads.unique hleads'] at hisRow
          cases hisRow

end Flatten

/-! ## Every type has one zonked form -/

section Zonk

variable {s : CheckState} {active : Bool}

/-- The state is the same as `s`, and what its cache has, if it is active, are answers of `zonk`. -/
structure Sound (s : CheckState) (active : Bool) (state : ZonkState) : Prop where
  check : Same s state.check
  active : state.cache.isSome = active
  cache : ∀ cache ∈ state.cache, ∀ t r, cache.lookup t = some r → Answers (Same s) (zonk · t) r

lemma withCheck_answers {α : Type} {program : ℕ → CheckM α} {a : α}
    (h : Answers (Same s) program a) :
    Answers (Sound s active) (fun fuel => withCheck (program fuel)) a := by
  intro state hsound
  obtain ⟨_, check, enough, hrun, rfl, hsame⟩ := h state.check hsound.check
  refine ⟨_, { state with check }, enough, fun fuel hlarge => ?_, rfl, hsame,
    hsound.active, hsound.cache⟩
  simp only [StateT.run] at hrun
  simp [withCheck, StateT.run, hrun fuel hlarge]

lemma withZonkCache_answers {α : Type} {program : ℕ → ZonkM α} {a : α}
    (h : Answers (Sound s true) program a) :
    Answers (Sound s false) (fun fuel => withZonkCache (program fuel)) a := by
  rintro ⟨check, cache⟩ ⟨hsame, hinactive, -⟩
  obtain rfl : cache = none := by simpa using hinactive
  have hfresh : Sound s true ⟨check, some []⟩ := ⟨hsame, rfl, by simp⟩
  refine .bind_run (fun _ => rfl) (.bind_run (fun _ => rfl) ?_)
  refine (h _ hfresh).bind ?_
  rintro _ state ⟨rfl, hsound⟩
  exact .bind_run (fun _ => rfl) (.pure ⟨rfl, hsound.check, rfl, by simp⟩)

/-- The type has the zonked form, with or without a cache. -/
structure Zonks (s : CheckState) (t r : Ty) : Prop where
  answers : Answers (Same s) (zonk · t) r
  cached : ∀ active, Answers (Sound s active) (zonkCached · t) r
  normal : Normal s r
  head : r.isRow = true → ∃ row, Leads s t (.Row row)
  fixed : Normal s t → r = t

variable {t : Ty}

/-- A type with a normal head is zonked by rebuilding it. -/
lemma zonk_answers_of_rebuild {last r : Ty} (hleads : Leads s t last)
    (hrebuilds : Answers (Same s) (fun fuel => rebuild (flattenRow fuel) (zonk fuel) last) r)
    (hfixed : Normal s t → r = t) : Answers (Same s) (zonk · t) r := by
  refine .succ ?_
  simp only [zonk_succ]
  cases hmay : t.mayZonk with
  | false => exact hfixed (normal_of_not_mayZonk hmay) ▸ .pure _
  | true => exact (normalise_answers hleads).bind hrebuilds

lemma zonkCached_answers {last r : Ty} (hleads : Leads s t last)
    (hanswers : Answers (Same s) (zonk · last) r) (hrebuilds : Answers (Sound s active) (fun fuel =>
      rebuild (fun row => withCheck (flattenRow fuel row)) (zonkCached fuel) last) r)
    (hfixed : Normal s t → r = t) : Answers (Sound s active) (zonkCached · t) r := by
  refine .succ ?_
  simp only [zonkCached]
  cases hmay : t.mayZonk with
  | false => exact hfixed (normal_of_not_mayZonk hmay) ▸ .pure _
  | true =>
    refine (withCheck_answers (normalise_answers hleads)).bind fun state hsound => ?_
    refine .bind_run (a := state.cache.bind (·.lookup last)) (fun _ => rfl) ?_
    cases hfound : state.cache.bind (·.lookup last) with
    | some result =>
      obtain ⟨cache, hactive, hfound⟩ := Option.bind_eq_some_iff.mp hfound
      have hsame := (hsound.cache cache hactive last result hfound).unique hsound.check hanswers
      exact .pure ⟨hsame, hsound⟩
    | none =>
      refine (hrebuilds state hsound).bind ?_
      rintro _ state ⟨rfl, hsound⟩
      refine .bind_run (fun _ => rfl) (.pure ⟨rfl, hsound.check, by simp [hsound.active], ?_⟩)
      intro cache hmem t' r' hfound
      obtain ⟨cache, hbefore, rfl⟩ := Option.mem_map.mp hmem
      rw [List.lookup_cons] at hfound
      split at hfound
      · rename_i hsame
        cases hfound
        exact (beq_iff_eq.mp hsame) ▸ hanswers
      · exact hsound.cache cache hbefore t' r' hfound

/-- **Every type has a zonked form.** -/
theorem AcyclicSolutions.zonks (h : AcyclicSolutions s) : t.Known s → ∃ r, Zonks s t r := by
  induction t using h.wellFounded.transGen.induction with
  | _ t ih =>
    intro hknown
    obtain ⟨last, hleads⟩ := h.leads hknown
    let Below (c : Ty) : Prop := c.Known s ∧ TransGen (Descends s) c t
    have hclosed (a c : Ty) (hbelow : Below a) (hdescends : Descends s c a) : Below c :=
      ⟨hbelow.1.descends h hdescends, .head hdescends hbelow.2⟩
    have hbelow : ∀ c, Descends s c last → Below c :=
      hleads.descends hclosed fun c hdescends => ⟨hknown.descends h hdescends, .single hdescends⟩
    choose! answer zonks using fun c (hbelow : Below c) => ih c hbelow.2 hbelow.1
    -- a row is made flat before its parts are zonked
    obtain ⟨flat, hflattens, hinside, htail', hsame⟩ : ∃ flat : List RowField × Option Ty,
        (∀ row, last = .Row row → Answers (Same s) (flattenRow · row) flat) ∧
        (∀ c ∈ parts flat last, Below c) ∧
        (last.isRow = true → ∀ c ∈ flat.2, Below c ∧ ∀ inner, ¬ Leads s c (.Row inner)) ∧
        (Normal s last → ∀ row, last = .Row row → flat = (row.fields, row.tail)) := by
      cases last with
      | Row row =>
        have hofFields (field : RowField) (hmem : field ∈ row.fields) : Below field.type :=
          hbelow _ (.child (field_mem_row hmem))
        obtain ⟨fields, tail, hloops, hfields, htail, hsame⟩ :=
          h.flattens (fun _ hbelow => hbelow.1) hclosed
          hofFields fun c hmem => hbelow c (.child (tail_mem_row hmem))
        refine ⟨(fields, tail), ?_, forall_mem_row hfields fun c hmem => (htail c hmem).1,
          fun _ => htail, ?_⟩
        · rintro _ ⟨⟩
          exact fun s' hsame => (hloops s' hsame).settles
        · rintro hnormal _ ⟨⟩
          obtain ⟨rfl, rfl⟩ := hsame hnormal
          rfl
      | _ => refine ⟨([], none), by simp, fun c hmem => hbelow c (.child hmem), by simp, by simp⟩
    have hfixed (hnormal : Normal s last) : rebuilt flat answer last = last :=
      rebuilt_eq_self (hsame hnormal) fun c hmem => (zonks c (hbelow c (.child hmem))).fixed
        (hnormal.children c hmem)
    have hfixed' (hnormal : Normal s t) : rebuilt flat answer last = t := by
      obtain rfl := hleads.unique (.stop hnormal.reduct)
      exact hfixed hnormal
    have hrebuilds : Answers (Same s) (fun fuel => rebuild (flattenRow fuel) (zonk fuel) last)
        (rebuilt flat answer last) :=
      rebuild_answers hflattens fun c hmem => (zonks c (hinside c hmem)).answers
    refine ⟨rebuilt flat answer last, ?_, fun active => ?_, ?_, fun hisRow => ?_, hfixed'⟩
    · exact zonk_answers_of_rebuild hleads hrebuilds hfixed'
    · refine zonkCached_answers hleads
        (zonk_answers_of_rebuild (.stop hleads.done) hrebuilds hfixed)
        (rebuild_answers (fun row hsame => withCheck_answers (hflattens row hsame))
          fun c hmem => ?_) hfixed'
      exact (zonks c (hinside c hmem)).cached active
    · refine normal_rebuilt hleads.done (fun c hmem => (zonks c (hinside c hmem)).normal)
        fun hisRow c hmem => ?_
      obtain ⟨hbelow, hnoRow⟩ := htail' hisRow c hmem
      refine Bool.eq_false_iff.mpr fun hisRow => ?_
      obtain ⟨row, hleads⟩ := (zonks c hbelow).head hisRow
      exact hnoRow row hleads
    · have hlastIsRow := isRow_rebuilt hisRow
      cases last with
      | Row row => exact ⟨row, hleads⟩
      | _ => cases hlastIsRow

/-- A call of the checker that looks through variables. -/
inductive Call where
  | normalise (t : Ty)
  | zonk (t : Ty)

def Call.type : Call → Ty
  | normalise t => t
  | zonk t => t

def Call.run (fuel : ℕ) : Call → ZonkM Ty
  | normalise t => withCheck (Checking.normalise fuel t)
  | zonk t => zonkCached fuel t

lemma calls_answer (h : AcyclicSolutions s) {calls : List Call}
    (hknown : ∀ call ∈ calls, call.type.Known s) :
    ∃ found, ∀ active, Answers (Sound s active) (fun fuel => calls.mapM (Call.run fuel)) found := by
  have heach (call : Call) (hknown : call.type.Known s) :
      ∃ r, ∀ active, Answers (Sound s active) (Call.run · call) r := by
    cases call with
    | normalise t =>
      obtain ⟨last, hleads⟩ := h.leads hknown
      exact ⟨last, fun _ => withCheck_answers (normalise_answers hleads)⟩
    | zonk t =>
      obtain ⟨r, hzonks⟩ := h.zonks hknown
      exact ⟨r, hzonks.cached⟩
  have : Nonempty Ty := ⟨.Unknown ""⟩
  choose! answer hanswers using heach
  exact ⟨calls.map answer, fun _ => .mapM fun call hmem => hanswers call (hknown call hmem) _⟩

/-- The type is a variable with a solution. -/
def Ty.isSolved (s : CheckState) : Ty → Bool
  | .Unification id => (s.solution id).isSome
  | _ => false

/-- A normal type has no solved variable and no row in the tail of a row, in any state that is the
same. -/
lemma Normal.any_eq_false {s' : CheckState} (hsame : Same s s') (h : Normal s t) :
    (t.any fun t => t.isSolved s' || t.isNestedRow) = false := by
  induction h with
  | @mk t head _ ih =>
    have here : (t.isSolved s' || t.isNestedRow) = false := by
      cases t with
      | Unification id =>
        have hdone := ((hsame.leads _ _).mp (.stop head)).done
        have hknown :=
          Normal.known (.mk hdone (List.forall_mem_nil _)) id (mentions_iff.mpr (.inl rfl))
        rw [reduct_unification hknown, Except.ok.injEq, Option.map_eq_none_iff] at hdone
        simp [Ty.isSolved, Ty.isNestedRow, hdone]
      | Row row =>
        cases hfound : row.tail with
        | none => simp [Ty.isSolved, Ty.isNestedRow, hfound]
        | some t => simp [Ty.isSolved, Ty.isNestedRow, hfound, isRow_tail_of_normal head hfound]
      | _ => rfl
    rw [Ty.any_eq, here, Bool.false_or, List.any_eq_false]
    exact fun c hmem => Bool.eq_false_iff.mp (ih c hmem)

/-- The type zonked, and the result zonked again, after some calls; with a cache from some of the
calls on, or without. -/
def zonkTwice (cached : Bool) (before during : List Call) (t : Ty) (fuel : ℕ) :
    ZonkM (Ty × Ty) := do
  let _ ← before.mapM (Call.run fuel)
  let twice : ZonkM (Ty × Ty) := do
    let _ ← during.mapM (Call.run fuel)
    let zonked ← zonkCached fuel t
    return (zonked, ← zonkCached fuel zonked)
  if cached then withZonkCache twice else twice

/-- The type has one zonked form, which is a fixed point of zonking: it has no solved variable and
no row in the tail of a row, and it does not depend on a cache nor on what was normalised or zonked
before. -/
def ZonksStably (s : CheckState) (t : Ty) : Prop :=
  ∃ r, (Settles (zonk · t) s fun found _ => found = r) ∧
    ∀ (cached : Bool) (before during : List Call),
      (∀ call ∈ before ++ during, call.type.Known s) →
      Settles (zonkTwice cached before during t) ⟨s, none⟩ fun found state => found = (r, r) ∧
        (r.any fun t => t.isSolved state.check || t.isNestedRow) = false

/-- **Zonking is a stable normal form**, where solutions have no cycles. -/
theorem zonk_stable (h : AcyclicSolutions s) {t : Ty} (hknown : t.Known s) : ZonksStably s t := by
  obtain ⟨r, hzonks⟩ := h.zonks hknown
  obtain ⟨again, hzonks'⟩ := h.zonks hzonks.normal.known
  obtain rfl := hzonks'.fixed hzonks.normal
  refine ⟨again, (hzonks.answers s (same_equivalence.refl s)).mono fun _ _ hfound => hfound.1, ?_⟩
  intro cached before during hcalls
  obtain ⟨_, hfirst⟩ := calls_answer h fun call hmem => hcalls call (List.mem_append_left _ hmem)
  obtain ⟨_, hsecond⟩ := calls_answer h fun call hmem => hcalls call (List.mem_append_right _ hmem)
  have htwice (active : Bool) : Answers (Sound s active) (fun fuel => do
      let _ ← during.mapM (Call.run fuel)
      let zonked ← zonkCached fuel t
      return (zonked, ← zonkCached fuel zonked)) (again, again) :=
    (hsecond active).bind ((hzonks.cached active).bind ((hzonks'.cached active).bind (.pure _)))
  have hanswers : Answers (Sound s false) (zonkTwice cached before during t) (again, again) := by
    refine (hfirst false).bind ?_
    cases cached with
    | false => exact htwice false
    | true => exact withZonkCache_answers (htwice true)
  refine (hanswers ⟨s, none⟩ ⟨same_equivalence.refl s, rfl, by simp⟩).mono ?_
  rintro _ state ⟨rfl, hsound⟩
  exact ⟨rfl, hzonks.normal.any_eq_false hsound.check⟩

/-- Two variables that are solved to open rows, the first to one that ends in the second. -/
def chainedRows : CheckState where
  unifications := [
    ⟨0, .Free "k", .Solved (.Row (.Opened "x" (.Free "a") (.Unification 1)))⟩,
    ⟨0, .Free "k", .Solved (.Row (.Opened "y" (.Unification 2) (.Unification 2)))⟩,
    ⟨0, .Free "k", .Unsolved⟩]
  file := 0
  unique := 0
  depth := 0

theorem zonk_stable_chainedRows : ZonksStably chainedRows (.Unification 0) := by
  -- every solution mentions one later variable
  have hlater (a : ℕ) (t : Ty) (hsolved : chainedRows.solution a = some t) (b : ℕ)
      (hmentions : t.mentions b = true) : a < b ∧ b < 3 := by
    match a, hsolved with
    | 0, hsolved | 1, hsolved =>
      cases hsolved
      simp [Ty.mentions, Ty.any, RowType.any] at hmentions
      omega
    | 2, hsolved => cases hsolved
    | a + 3, hsolved => cases hsolved
  refine zonk_stable ⟨fun a t hsolved b hmentions => (hlater a t hsolved b hmentions).2, ?_⟩ ?_
  · intro a hcycle
    have hrises (b : ℕ) (hpath : TransGen (Needs chainedRows) a b) : a < b := by
      induction hpath with
      | single hneeds =>
        obtain ⟨t, hsolved, hmentions⟩ := hneeds
        exact (hlater _ t hsolved _ hmentions).1
      | tail _ hneeds ih =>
        obtain ⟨t, hsolved, hmentions⟩ := hneeds
        exact ih.trans (hlater _ t hsolved _ hmentions).1
    exact lt_irrefl a (hrises a hcycle)
  · intro b hmentions
    simp [Ty.mentions, Ty.any] at hmentions
    simp [chainedRows, ← hmentions]

end Zonk

end Iris.Checking
