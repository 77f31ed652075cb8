import IrisCompiler.Checking.Normalise
import IrisCompiler.Library.Following

/-!
# Looking through variables changes no answer

`normalise` writes to the state: the variables that it looked through are solved to where they lead.
States that differ in such shortcuts only are `Same`.  Here is that `normalise`, the folds and
`expand` lead from a state to one that is the same, and that they answer the same in states that are
the same.
-/

namespace Iris.Checking

open TotalRun

/-! ## Where a type leads -/

section Leads

variable {s : CheckState} {t last : Ty}

/-- What `reduce_once` finds; it does not write. -/
def reduct (s : CheckState) : Ty → Except Fault (Option (Ty × Option ℕ))
  | .Unification id =>
    match s.unifications[id]? with
    | some entry =>
      match entry.state with
      | .Solved solution => .ok (some (solution, some id))
      | .Unsolved => .ok none
    | none => .error .index
  | t => .ok ((simplifyRows t).map (·, none))

lemma run_reduceOnce (s : CheckState) (t : Ty) :
    (reduceOnce t).run s = (reduct s t).map (·, s) := by
  cases t with
  | Unification id =>
    have hget : (getUnification id).run s = match s.unifications[id]? with
        | some entry => .ok (entry, s)
        | none => .error .index := by
      change ((match s.unifications[id]? with
        | some entry => pure entry
        | none => throw .index : CheckM UnificationEntry)).run s = _
      cases s.unifications[id]? <;> rfl
    cases hfound : s.unifications[id]? with
    | none =>
      rw [hfound] at hget
      simp only [reduceOnce, reduct, hfound]
      rw [run_bind_error hget]
      rfl
    | some entry =>
      rw [hfound] at hget
      simp only [reduceOnce, reduct, hfound]
      rw [run_bind_eq hget]
      cases entry.state <;> rfl
  | _ => rfl

/-- The type that `normalise` finds from here. -/
inductive Leads (s : CheckState) : Ty → Ty → Prop where
  | stop {t : Ty} (hdone : reduct s t = .ok none) : Leads s t t
  | step {t next last : Ty} {through : Option ℕ}
      (hreduces : reduct s t = .ok (some (next, through)))
    (hrest : Leads s next last) : Leads s t last

lemma Leads.done (h : Leads s t last) : reduct s last = .ok none := by
  induction h with
  | stop hdone => exact hdone
  | step _ _ ih => exact ih

/-- A type leads to one type. -/
lemma Leads.unique {other : Ty} (h : Leads s t last) (h' : Leads s t other) : last = other := by
  induction h with
  | stop hdone =>
    cases h' with
    | stop => rfl
    | step hreduces => simp [hdone] at hreduces
  | step hreduces hrest ih =>
    cases h' with
    | stop hdone => simp [hdone] at hreduces
    | step hreduces' hrest' =>
      rw [hreduces] at hreduces'
      cases hreduces'
      exact ih hrest'

end Leads

/-! ## States that are the same -/

/-- The states know the same variables, and every type leads to the same type in both. -/
structure Same (s s' : CheckState) : Prop where
  file : s.file = s'.file
  unique : s.unique = s'.unique
  depth : s.depth = s'.depth
  entries : s.unifications.map (fun entry => (entry.depth, entry.kind)) =
    s'.unifications.map fun entry => (entry.depth, entry.kind)
  leads : ∀ t last, Leads s t last ↔ Leads s' t last

lemma same_equivalence : Equivalence Same where
  refl _ := ⟨rfl, rfl, rfl, rfl, fun _ _ => .rfl⟩
  symm h := ⟨h.file.symm, h.unique.symm, h.depth.symm, h.entries.symm, fun t last =>
    (h.leads t last).symm⟩
  trans h h' := ⟨h.file.trans h'.file, h.unique.trans h'.unique, h.depth.trans h'.depth,
    h.entries.trans h'.entries, fun t last => (h.leads t last).trans (h'.leads t last)⟩

section Shortcut

variable {s : CheckState} {id : ℕ} {t last : Ty}

lemma reduct_solved_of_ne (h : t ≠ .Unification id) : reduct (s.solved id last) t = reduct s t := by
  cases t with
  | Unification other =>
    have hne : id ≠ other := fun hsame => h (hsame ▸ rfl)
    simp [reduct, CheckState.solved, hne]
  | _ => rfl

variable {through : Option ℕ}

lemma reduct_solved {next : Ty} (h : reduct s (.Unification id) = .ok (some (next, through))) :
    reduct (s.solved id last) (.Unification id) = .ok (some (last, some id)) := by
  simp only [reduct] at h
  split at h
  case h_1 entry hfound => simp [reduct, CheckState.solved, hfound]
  case h_2 => cases h

lemma entries_solved :
    ((s.solved id last).unifications.map fun entry => (entry.depth, entry.kind)) =
    s.unifications.map fun entry => (entry.depth, entry.kind) := by
  apply List.ext_getElem?
  intro i
  simp only [CheckState.solved, List.getElem?_map, List.getElem?_modify]
  cases s.unifications[i]? with
  | none => rfl
  | some entry => by_cases h : id = i <;> simp [h]

/-- **A shortcut changes no answer**: a variable may be solved to where it leads. -/
theorem same_solved {next : Ty} (hsolved : reduct s (.Unification id) = .ok (some (next, through)))
    (hleads : Leads s (.Unification id) last) : Same s (s.solved id last) := by
  have hdone := hleads.done
  have hne {t : Ty} (h : reduct s t = .ok none) : t ≠ .Unification id := by
    rintro rfl
    simp [h] at hsolved
  have hstays {t : Ty} (h : reduct s t = .ok none) : reduct (s.solved id last) t = .ok none :=
    (reduct_solved_of_ne (hne h)).trans h
  refine ⟨rfl, rfl, rfl, entries_solved.symm, fun t result => ⟨fun h => ?_, fun h => ?_⟩⟩
  · induction h with
    | stop h => exact .stop (hstays h)
    | @step t next result through hreduces hrest ih =>
      by_cases here : t = .Unification id
      · subst here
        obtain rfl : last = result := hleads.unique (.step hreduces hrest)
        exact .step (reduct_solved hsolved) (.stop (hstays hdone))
      · exact .step ((reduct_solved_of_ne here).trans hreduces) ih
  · induction h with
    | @stop t h =>
      have here : t ≠ .Unification id := by
        rintro rfl
        simp [reduct_solved hsolved] at h
      exact .stop ((reduct_solved_of_ne here).symm.trans h)
    | @step t next result through hreduces hrest ih =>
      by_cases here : t = .Unification id
      · subst here
        rw [reduct_solved hsolved] at hreduces
        cases hreduces
        obtain rfl : last = result := (Leads.stop hdone).unique ih
        exact hleads
      · exact .step ((reduct_solved_of_ne here).symm.trans hreduces) ih

end Shortcut

/-! ## Normalisation -/

section Normalise

variable {s : CheckState} {t last : Ty}

variable {id fuel : ℕ} {x : Ty × List ℕ} {s' : CheckState}

lemma run_solveUnification {next : Ty} {through : Option ℕ}
    (hsolved : reduct s (.Unification id) = .ok (some (next, through))) :
    (solveUnification id last).run s = .ok ((), s.solved id last) := by
  simp only [reduct] at hsolved
  split at hsolved
  case h_1 entry hfound =>
    have hget : (getUnification id).run s = .ok (entry, s) := by
      change ((match s.unifications[id]? with
        | some entry => pure entry
        | none => throw .index : CheckM UnificationEntry)).run s = _
      rw [hfound]
      rfl
    rw [solveUnification, run_bind_eq hget]
    rfl
  case h_2 => cases hsolved

/-- The variable is solved, and leads to `last`. -/
def Through (s : CheckState) (last : Ty) (id : ℕ) : Prop :=
  (∃ found, reduct s (.Unification id) = .ok (some found)) ∧ Leads s (.Unification id) last

lemma Through.solved {other : ℕ} (here : Through s last id) (hthere : Through s last other) :
    Through (s.solved other last) last id := by
  obtain ⟨⟨found, hreduces⟩, hleads⟩ := here
  obtain ⟨⟨found', hreduces'⟩, hleads'⟩ := hthere
  refine ⟨?_, ((same_solved hreduces' hleads').leads _ _).mp hleads⟩
  by_cases hsame : id = other
  · subst hsame
    exact ⟨_, reduct_solved hreduces⟩
  · exact ⟨found, (reduct_solved_of_ne (by simpa using hsame)).trans hreduces⟩

/-- Compressing the path leads to a state that is the same. -/
lemma compress_runs {ids : List ℕ} (hthrough : ∀ id ∈ ids, Through s last id) :
    ∃ s', (ids.forM fun id => solveUnification id last).run s = .ok ((), s') ∧ Same s s' := by
  induction ids generalizing s with
  | nil => exact ⟨s, rfl, same_equivalence.refl s⟩
  | cons id ids ih =>
    obtain ⟨⟨found, hreduces⟩, hleads⟩ := hthrough id (.head _)
    obtain ⟨s', hruns, hsame⟩ := @ih (s.solved id last) fun other hmem =>
      (hthrough other (.tail _ hmem)).solved (hthrough id (.head _))
    refine ⟨s', ?_, same_equivalence.trans (same_solved hreduces hleads) hsame⟩
    rw [List.forM_eq_forM, List.forM_cons, run_bind_eq (run_solveUnification hreduces)]
    exact hruns

/-- One round of `normalise_head`. -/
def headTurn (x : Ty × List ℕ) : CheckM (Turn (Ty × List ℕ) (Ty × List ℕ)) := do
  match ← reduceOnce x.1 with
  | some (reduced, unification) => return .again (reduced, x.2 ++ unification.toList)
  | none => return .leave x

lemma run_headTurn {found : Option (Ty × Option ℕ)} (hreduces : reduct s x.1 = .ok found) :
    (headTurn x).run s = .ok (match found with
      | some (reduced, unification) => .again (reduced, x.2 ++ unification.toList)
      | none => .leave x, s) := by
  have honce : (reduceOnce x.1).run s = .ok (found, s) := by rw [run_reduceOnce, hreduces]; rfl
  rw [headTurn, run_bind_eq honce]
  cases found <;> rfl

/-- A variable that was looked through leads to where its solution leads. -/
lemma through_of_reduct {next : Ty} (hreduces : reduct s t = .ok (some (next, some id)))
    (hrest : Leads s next last) : Through s last id := by
  obtain rfl : t = .Unification id := by
    cases t with
    | Unification other =>
      simp only [reduct] at hreduces
      split at hreduces
      · split at hreduces <;> simp_all
      · cases hreduces
    | _ =>
      simp only [reduct, Except.ok.injEq, Option.map_eq_some_iff] at hreduces
      obtain ⟨_, _, hsame⟩ := hreduces
      cases hsame
  exact ⟨⟨_, hreduces⟩, .step hreduces hrest⟩

/-- The loop finds what the type leads to and the variables on the way. -/
lemma head_settles (hleads : Leads s t last) (before : List ℕ)
    (hthrough : ∀ id ∈ before, Through s last id) :
    Settles (fun fuel => loop .fuel headTurn fuel (t, before)) s fun found s' =>
      s' = s ∧ found.1 = last ∧ ∀ id ∈ found.2, Through s last id := by
  induction hleads generalizing before with
  | @stop t hdone =>
    refine .succ (.bind_run (fun _ => run_headTurn (x := (t, before)) hdone) ?_)
    exact .pure ⟨rfl, rfl, hthrough⟩
  | @step t next last unification hreduces hrest ih =>
    refine .succ (.bind_run (fun _ => run_headTurn (x := (t, before)) hreduces) ?_)
    refine ih _ fun id hmem => ?_
    rcases List.mem_append.mp hmem with hold | hnew
    · exact hthrough id hold
    · obtain rfl : unification = some id := by simpa using hnew
      exact through_of_reduct hreduces hrest

/-- `normalise_head` finds where a type leads. -/
lemma normaliseHead_settles (hleads : Leads s t last) :
    Settles (normaliseHead · t) s fun found s' => found = last ∧ Same s s' := by
  refine (head_settles hleads [] (by simp)).bind ?_
  rintro ⟨_, ids⟩ _ ⟨rfl, rfl, hthrough⟩
  obtain ⟨s', hruns, hsame⟩ := compress_runs hthrough
  exact .bind_run (fun _ => hruns) (.pure ⟨rfl, hsame⟩)

/-- What the loop finds is where the type leads, with the variables on the way. -/
lemma leads_of_head {found : Ty × List ℕ}
    (hrun : (loop .fuel headTurn fuel x).run s = .ok (found, s')) :
    s' = s ∧ Leads s x.1 found.1 ∧ ∀ id ∈ found.2, id ∈ x.2 ∨ Through s found.1 id := by
  induction fuel generalizing x with
  | zero => cases hrun
  | succ fuel ih =>
    obtain ⟨turn, s₁, hfirst, hrun⟩ := of_run_bind hrun
    cases hreduces : reduct s x.1 with
    | error fault =>
      have honce : (reduceOnce x.1).run s = .error fault := by rw [run_reduceOnce, hreduces]; rfl
      rw [headTurn, run_bind_error honce] at hfirst
      cases hfirst
    | ok result =>
      rw [run_headTurn hreduces] at hfirst
      cases hfirst
      match result, hreduces, hrun with
      | some (next, unification), hreduces, hrun =>
        obtain ⟨hsame, hleads, hthrough⟩ := ih hrun
        refine ⟨hsame, .step hreduces hleads, fun id hmem => ?_⟩
        rcases hthrough id hmem with hold | hnew
        · rcases List.mem_append.mp hold with hold | hnew
          · exact .inl hold
          · obtain rfl : unification = some id := by simpa using hnew
            exact .inr (through_of_reduct hreduces hleads)
        · exact .inr hnew
      | none, hreduces, hrun =>
        cases hrun
        exact ⟨rfl, .stop hreduces, fun id hmem => .inl hmem⟩

lemma leads_of_normaliseHead (hrun : (normaliseHead fuel t).run s = .ok (last, s')) :
    Leads s t last ∧ Same s s' := by
  obtain ⟨found, s₁, hloops, hrest⟩ := of_run_bind hrun
  obtain ⟨_, s₂, hcompresses, hreturns⟩ := of_run_bind hrest
  obtain ⟨hsame, hleads, hthrough⟩ := leads_of_head hloops
  subst s₁
  obtain ⟨s₃, hcompressed, hsame⟩ := @compress_runs _ found.1 found.2 fun id hmem =>
    (hthrough id hmem).resolve_left (by simp)
  cases hcompresses.symm.trans hcompressed
  cases hreturns
  exact ⟨hleads, hsame⟩

lemma reduct_of_mayNormalise (h : t.mayNormalise = false) : reduct s t = .ok none := by
  cases t with
  | Unification => cases h
  | Row row =>
    have hnested : (Ty.Row row).isNestedRow = false := (Bool.or_eq_false_iff.mp h).2
    simp only [reduct, simplifyRows]
    cases hfound : row.tail with
    | none => rfl
    | some tail =>
      cases tail with
      | Row => simp [Ty.isNestedRow, hfound, Ty.isRow] at hnested
      | _ => rfl
  | _ => rfl

variable {row : RowType} {tail : Ty}

/-- A row whose tail is not a row is normal. -/
lemma row_normal (h : ∀ tail ∈ row.tail, tail.isRow = false) : reduct s (.Row row) = .ok none := by
  refine reduct_of_mayNormalise ?_
  cases hfound : row.tail with
  | none => simp [Ty.mayNormalise, Ty.isUnification, Ty.isNestedRow, hfound]
  | some tail => simp [Ty.mayNormalise, Ty.isUnification, Ty.isNestedRow, hfound, h tail hfound]

/-- A row is not its own tail. -/
lemma RowType.tail_ne_self : row.tail ≠ some (.Row row) := fun hsame => by
  have hne (t : Ty) : t ∉ t.children := by
    induction t using Ty.childInduction with
    | step t ih => exact fun hmem => ih t hmem hmem
  exact hne (.Row row) (tail_mem_row hsame)

/-- The tail of a normal row is not a row. -/
lemma isRow_tail_of_normal (hnormal : reduct s (.Row row) = .ok none) (h : row.tail = some tail) :
    tail.isRow = false := by
  cases tail with
  | Row inner =>
    have hdiffer : inner ≠ row := fun hsame => RowType.tail_ne_self (hsame ▸ h)
    simp [reduct, simplifyRows, h, hdiffer] at hnormal
  | _ => rfl

/-- `normalise` finds where a type leads. -/
lemma normalise_settles_leads (hleads : Leads s t last) :
    Settles (normalise · t) s fun found s' => found = last ∧ Same s s' := by
  unfold normalise
  split_ifs with hmay
  · exact normaliseHead_settles hleads
  · obtain rfl := hleads.unique (.stop (reduct_of_mayNormalise (by simpa using hmay)))
    exact .pure ⟨rfl, same_equivalence.refl s⟩

lemma leads_of_normalise (hrun : (normalise fuel t).run s = .ok (last, s')) :
    Leads s t last ∧ Same s s' := by
  unfold normalise at hrun
  split_ifs at hrun with hmay
  · exact leads_of_normaliseHead hrun
  · cases hrun
    exact ⟨.stop (reduct_of_mayNormalise (by simpa using hmay)), same_equivalence.refl s⟩

/-- **Normalisation answers the same in states that are the same.** -/
theorem normalise_follows (fuel : ℕ) (t : Ty) :
    Follows Same (normalise fuel t) (normalise · t) := by
  intro s s' last s₁ hsame hrun
  obtain ⟨hleads, hnear⟩ := leads_of_normalise hrun
  exact ⟨hnear, normalise_settles_leads ((hsame.leads t last).mp hleads)⟩

end Normalise

/-! ## Folds -/

section Folds

/-- A step that reads no state. -/
lemma follows_pure {α : Type} (a : α) : Follows Same (pure a : CheckM α) fun _ => pure a :=
  .pure same_equivalence a

/-- Two steps, one after the other. -/
lemma follows_bind {α β : Type} {one : CheckM α} {program : ℕ → CheckM α} {next : α → CheckM β}
    {goOn : ℕ → α → CheckM β} (hfirst : Follows Same one program)
    (hrest : ∀ a, Follows Same (next a) fun fuel => goOn fuel a) :
    Follows Same (one >>= next) fun fuel => program fuel >>= goOn fuel :=
  hfirst.bind same_equivalence hrest

lemma flattenRow_follows (fuel : ℕ) (row : RowType) :
    Follows Same (flattenRow fuel row) (flattenRow · row) := by
  refine Follows.loop same_equivalence (fun (row, fields) => ?_) fuel (row, row.fields)
  dsimp only
  cases row.tail with
  | none => exact follows_pure _
  | some tail =>
    refine follows_bind (normalise_follows fuel tail) fun normal => ?_
    cases normal <;> exact follows_pure _

/-- The end of `fold_type`, for a type with a normal head: the type built from its folded
children. -/
def rebuild {m : Type → Type} [Monad m] (flatten : RowType → m (List RowField × Option Ty))
    (fold : Ty → m Ty) (id : Ty) : m Ty :=
  match id with
  | .Application function argument => return .Application (← fold function) (← fold argument)
  | .KindApplication function argument =>
    return .KindApplication (← fold function) (← fold argument)
  | .Forall visible name kind inner => return .Forall visible name (← fold kind) (← fold inner)
  | .Constrained constraint inner => return .Constrained (← fold constraint) (← fold inner)
  | .ConstraintOrigin constraint origin =>
    return .ConstraintOrigin (← fold constraint) (← fold origin)
  | .Function argument result => return .Function (← fold argument) (← fold result)
  | .Kinded inner kind => return .Kinded (← fold inner) (← fold kind)
  | .Row row => do
    let (fields, tail) ← flatten row
    let fields ← fields.mapM fun field => do return { field with type := ← fold field.type }
    let tail ← tail.mapM fold
    if fields = row.fields ∧ tail = row.tail then return id else return internRow fields tail
  | .Rigid name depth kind => return .Rigid name depth (← fold kind)
  | .Constructor _ | .Synonym _ | .Integer _ | .String _ _ | .Unification _ | .Free _
  | .Unknown _ => return id

lemma foldType_succ (folder : TypeFold) (fuel : ℕ) (id : Ty) : foldType folder (fuel + 1) id =
    if folder.mayChange id then do
      let id ← normalise fuel id
      match folder.replace id with
      | some replacement => return replacement
      | none => rebuild (flattenRow fuel) (foldType folder fuel) id
    else pure id := by
  rw [foldType]
  cases folder.mayChange id with
  | false => rfl
  | true =>
    cases folder.replace id with
    | some => rfl
    | none => cases id <;> rfl

lemma rebuild_follows {one : Ty → CheckM Ty} {program : ℕ → Ty → CheckM Ty}
    (hsub : ∀ t, Follows Same (one t) fun fuel => program fuel t) (fuel : ℕ) (t : Ty) :
    Follows Same (rebuild (flattenRow fuel) one t) fun fuel =>
      rebuild (flattenRow fuel) (program fuel) t := by
  -- a type of two parts is folded part by part
  have hpair (first second : Ty) (build : Ty → Ty → Ty) :
      Follows Same (do return build (← one first) (← one second))
        fun fuel => do return build (← program fuel first) (← program fuel second) :=
    follows_bind (hsub first) fun _ => follows_bind (hsub second) fun _ => follows_pure _
  cases t with
  | Row row =>
    refine follows_bind (flattenRow_follows fuel row) fun (fields, tail) => ?_
    refine follows_bind (Follows.mapM same_equivalence fun field _ =>
      follows_bind (hsub field.type) fun _ => follows_pure _) fun fields => ?_
    refine follows_bind (Follows.mapOption same_equivalence hsub tail) fun tail => ?_
    split_ifs <;> exact follows_pure _
  | Rigid name depth kind => exact follows_bind (hsub kind) fun _ => follows_pure _
  | Forall visible name kind inner => exact hpair kind inner _
  | Application | KindApplication | Constrained | ConstraintOrigin | Function | Kinded =>
    exact hpair _ _ _
  | _ => exact follows_pure _

theorem foldType_follows (folder : TypeFold) :
    ∀ fuel t, Follows Same (foldType folder fuel t) (foldType folder · t)
  | 0, _ => .throw Fault.fuel
  | fuel + 1, t => by
    refine .succ ?_
    simp only [foldType_succ]
    split_ifs
    · refine follows_bind (normalise_follows fuel t) fun t => ?_
      cases folder.replace t with
      | some replacement => exact follows_pure replacement
      | none => exact rebuild_follows (foldType_follows folder fuel) fuel t
    · exact follows_pure t

lemma substituteMany_follows (fuel : ℕ) (bindings : NameToType) (t : Ty) :
    Follows Same (substituteMany fuel bindings t) (substituteMany · bindings t) :=
  foldType_follows _ fuel t

end Folds

/-! ## Expansion -/

section Expansion

variable (context : CheckContext)

lemma applicationSpine_follows (fuel : ℕ) (t : Ty) :
    Follows Same (applicationSpine fuel t) (applicationSpine · t) := by
  refine Follows.loop same_equivalence (fun (current, arguments) => ?_) fuel (t, [])
  cases current with
  | Application function | KindApplication function =>
    exact follows_bind (normalise_follows fuel function) fun _ => follows_pure _
  | _ => exact follows_pure _

lemma bindKinds_follows (fuel : ℕ) (kind : Ty) (arguments : List ApplicationArgument) :
    Follows Same (bindKinds fuel kind arguments) (bindKinds · kind arguments) := by
  refine Follows.loop same_equivalence (fun (kind, bindings, arguments) => ?_) fuel
    (kind, [], arguments)
  refine follows_bind (normalise_follows fuel kind) fun kind => ?_
  cases kind with
  | Forall =>
    match arguments with
    | .Kind _ :: _ | .Type _ :: _ | [] => exact follows_pure _
  | _ => exact follows_pure _

lemma expandSynonym_follows (fuel : ℕ) (t : Ty) :
    Follows Same (expandSynonym context fuel t) (expandSynonym context · t) := by
  refine follows_bind (applicationSpine_follows fuel t) fun (head, arguments) => ?_
  cases head with
  | Synonym item =>
    dsimp only
    cases context.synonyms item with
    | none => exact follows_pure _
    | some synonym =>
      refine follows_bind (bindKinds_follows fuel synonym.kind arguments.reverse) fun bound => ?_
      match bound with
      | none => exact follows_pure _
      | some (kinds, arguments) =>
        dsimp only
        match bindParameters synonym.parameters arguments with
        | none => exact follows_pure _
        | some (types, arguments) =>
          dsimp only
          split_ifs
          · exact follows_pure _
          · exact follows_bind (substituteMany_follows fuel _ _) fun _ => follows_pure _
  | _ => exact follows_pure _

lemma expandRowTail_follows {one : Ty → CheckM Ty} {program : ℕ → Ty → CheckM Ty}
    (hfollows : ∀ t, Follows Same (one t) fun fuel => program fuel t) (fuel : ℕ) (t : Ty) :
    Follows Same (expandRowTail one fuel t) fun fuel => expandRowTail (program fuel) fuel t := by
  cases t with
  | Row row =>
    refine Follows.loop same_equivalence (fun (current, fields, flattened) => ?_) fuel _
    cases current with
    | Row row =>
      dsimp only
      cases row.tail with
      | none => exact follows_pure _
      | some tail =>
        refine follows_bind (hfollows tail) fun expanded => ?_
        split_ifs <;> exact follows_pure _
    | _ => exact follows_pure _
  | _ => exact follows_pure _

/-- One round of `expand`. -/
def expandTurn (fuel : ℕ) (t : Ty) : CheckM (Turn Ty Ty) :=
  match t with
  | .ConstraintOrigin constraint _ => do return .again (← normalise fuel constraint)
  | t => do
    if !t.mayExpand then return .leave t
    let expanded ← expandSynonym context fuel t
    if expanded ≠ t then return .again (← normalise fuel expanded)
    let expanded ← expandRowTail (expand context fuel) fuel t
    if expanded = t then return .leave t
    return .again (← normalise fuel expanded)

variable {fuel : ℕ} {t : Ty} {s u : CheckState}

lemma expandTurn_follows (hsub : ∀ t, Follows Same (expand context fuel t) (expand context · t))
    (t : Ty) : Follows Same (expandTurn context fuel t) (expandTurn context · t) := by
  unfold expandTurn
  split
  · exact follows_bind (normalise_follows fuel _) fun _ => follows_pure _
  split_ifs
  · exact follows_pure _
  refine follows_bind (expandSynonym_follows context fuel _) fun expanded => ?_
  split_ifs
  · exact follows_bind (normalise_follows fuel expanded) fun _ => follows_pure _
  refine follows_bind (expandRowTail_follows hsub fuel _) fun expanded => ?_
  split_ifs
  · exact follows_pure _
  · exact follows_bind (normalise_follows fuel expanded) fun _ => follows_pure _

lemma expand_follows_of_core
    (hcore : ∀ t, Follows Same (expandCore context fuel t) (expandCore context · t)) (t : Ty) :
    Follows Same (expand context fuel t) (expand context · t) := by
  unfold expand
  split_ifs
  · exact hcore t
  · exact follows_pure t

theorem expandCore_follows :
    ∀ fuel t, Follows Same (expandCore context fuel t) (expandCore context · t)
  | 0, _ => .throw Fault.fuel
  | fuel + 1, t => by
    refine .succ ?_
    refine follows_bind (normalise_follows fuel t) fun t => ?_
    exact Follows.loop same_equivalence
      (expandTurn_follows context (expand_follows_of_core context (expandCore_follows fuel))) fuel t

/-- **Expansion answers the same in states that are the same.** -/
theorem expand_follows (fuel : ℕ) (t : Ty) :
    Follows Same (expand context fuel t) (expand context · t) :=
  expand_follows_of_core context (expandCore_follows context fuel) t

/-- What a round of `expand` goes on with is normal. -/
lemma expandTurn_cases {turn : Turn Ty Ty}
    (hrun : (expandTurn context fuel t).run s = .ok (turn, u)) :
    match turn with
      | .again next => reduct u next = .ok none
      | .leave last => last = t := by
  have hnormal {u v : CheckState} {z next : Ty}
      (hrun : (normalise fuel z).run u = .ok (next, v)) : reduct v next = .ok none := by
    obtain ⟨hleads, hsame⟩ := leads_of_normalise hrun
    exact (((hsame.leads next next).mp (.stop hleads.done))).done
  unfold expandTurn at hrun
  split at hrun
  · obtain ⟨next, v, hnormalises, hrun⟩ := of_run_bind hrun
    cases hrun
    exact hnormal hnormalises
  · split_ifs at hrun
    · cases hrun
      rfl
    obtain ⟨expanded, v, _, hrun⟩ := of_run_bind hrun
    split_ifs at hrun
    · obtain ⟨next, w, hnormalises, hrun⟩ := of_run_bind hrun
      cases hrun
      exact hnormal hnormalises
    obtain ⟨expanded, w, _, hrun⟩ := of_run_bind hrun
    split_ifs at hrun
    · cases hrun
      rfl
    · obtain ⟨next, w', hnormalises, hrun⟩ := of_run_bind hrun
      cases hrun
      exact hnormal hnormalises

/-- The last round of an expansion leaves a normal type as it is. -/
lemma expand_last {t' : Ty} (hrun : (expand context fuel t).run s = .ok (t', u))
    (hmay : t'.mayExpand = true) :
    ∃ fuel s', Same s' u ∧ reduct u t' = .ok none ∧
      (expandTurn context fuel t').run s' = .ok (.leave t', u) := by
  unfold expand at hrun
  split_ifs at hrun with hmay'
  case neg =>
    cases hrun
    exact absurd hmay hmay'
  cases fuel with
  | zero => cases hrun
  | succ fuel =>
    obtain ⟨t₀, s₀, hnormalises, hrun⟩ := of_run_bind hrun
    obtain ⟨hleads, hsame₀⟩ := leads_of_normalise hnormalises
    refine ⟨fuel, of_run_loop (fun x s' => reduct s' x = .ok none)
      (fun last u => ∃ s', Same s' u ∧ reduct u last = .ok none ∧
        (expandTurn context fuel last).run s' = .ok (.leave last, u))
      (fun {x s' turn v} hnormal hran => ?_)
      (((hsame₀.leads _ _).mp (.stop hleads.done)).done) hrun⟩
    have hcases := expandTurn_cases context hran
    cases turn with
    | again next => exact hcases
    | leave last =>
      obtain rfl : last = x := hcases
      have hsame := (expandTurn_follows context
        (expand_follows context fuel) last (same_equivalence.refl s') hran).1
      exact ⟨s', hsame, ((hsame.leads _ _).mp (.stop hnormal)).done, hran⟩

/-- **An expansion is not expanded further.** -/
theorem expand_idempotent {t' : Ty} (hrun : (expand context fuel t).run s = .ok (t', u)) :
    Settles (fun fuel => expand context fuel t') u fun found _ => found = t' := by
  unfold expand
  split_ifs with hmay
  case neg => exact .pure rfl
  -- The last round would leave the type as it is again.
  obtain ⟨fuel, s', hsame, hnormal, hleaves⟩ := expand_last context hrun hmay
  refine .succ ?_
  refine (normalise_settles_leads (.stop hnormal)).bind ?_
  rintro found v ⟨rfl, hnear⟩
  refine Settles.loop (fun x w => x = found ∧ w = v) (fun _ _ => 0) ?_ ⟨rfl, rfl⟩
  rintro _ _ ⟨rfl, rfl⟩
  refine ((expandTurn_follows context (expand_follows context fuel) _).settles
    (same_equivalence.trans hsame hnear) hleaves).mono ?_
  rintro _ _ ⟨rfl, -⟩
  rfl

end Expansion

end Iris.Checking
