import IrisCompiler.Building.Cache
import Mathlib.Tactic.Common

/-!
# Every result is the one from scratch

The cache invariant through whole runs.  Steps of snapshots keep it (`Good.frameStep`); a writer
begins a new revision, over whose inputs nothing is built yet, and the records of earlier revisions
stay records as long as no input that they read goes unnoticed (`Good.newRevision`).  Setting an
input stamps it; removing one leaves no stamp, so a removal has to discard every record that read
what it removes (`State.Forgets`).
-/

namespace Iris.Building

open Function History State

variable {σ : Schema} {bodies : Bodies σ} {H : History σ} {s s' : State σ}

/-! ## Writers -/

variable {revision : ℕ} {query : σ.Query} {id : SnapshotId}
  {removes : State σ → σ.Removal → List σ.Query → Prop} {action : Action σ}
  {event : Option (Event σ)} {frame : Frame σ} {outcome : Outcome σ}

/-- Earlier revisions keep their inputs. -/
lemma History.inputsAt_begin {t : ℕ} (hlt : t < revision) (inputs : Values σ) :
    (H.begin revision inputs).inputsAt t = H.inputsAt t :=
  update_of_ne (Nat.ne_of_lt hlt) _ _

/-- A record stays one in the next revision, if its inputs do. -/
lemma Entry.begin {now later : Base σ} {cached : Cached σ} (h : Entry bodies H now query cached)
    (hlater : later.revision = now.revision + 1)
    (hkept : ∀ key, .input key ∈ cached.dependencies → H.InputKept later cached.trace.built key)
    (inputs : Values σ) : Entry bodies (H.begin later.revision inputs) later query cached := by
  have hle := h.le
  have hsame : ∀ t ≤ cached.trace.built,
      (H.begin later.revision inputs).inputsAt t = H.inputsAt t := fun t ht =>
    inputsAt_begin (by omega) inputs
  refine ⟨⟨⟨?_, h.run.built⟩, fun key hmem => ?_⟩, by omega, h.last, h.builtAt, ?_⟩
  · rw [hsame _ (Nat.le_refl _)]
    exact h.run.reaches
  · have hkey := hkept key hmem
    unfold InputKept at hkey ⊢
    rwa [hsame _ (Nat.le_refl _)]
  · intro t hchanged hlt hbuilt
    unfold Holds
    rw [hsame t (Nat.le_of_lt hlt)]
    exact h.stable t hchanged hlt hbuilt

/-- **A new revision.** -/
lemma Good.newRevision (h : Good bodies H s) (hnone : ∀ id, s'.snapshots id = none)
    (hrevision : s'.revision = s.revision + 1)
    (hderived : ∀ query computed trace dependencies,
      s'.derived query = .Computed computed trace dependencies →
        s.derived query = .Computed computed trace dependencies ∧
          ∀ key, .input key ∈ dependencies → H.InputKept s'.base trace.built key) :
    Good bodies (H.begin s'.revision s'.values) s' where
  inputs := update_self ..
  past := by
    intro query t hbuilt
    have := h.past query t hbuilt
    omega
  fresh := by
    intro query hbuilt
    have := h.past query _ hbuilt
    omega
  entries := by
    intro query computed trace dependencies hstate
    obtain ⟨hold, hkept⟩ := hderived _ _ _ _ hstate
    exact (h.entries _ _ _ _ hold).begin hrevision hkept _
  frames := by simp [hnone]
  linked := by simp [hnone]
  slots := by simp [hnone]

/-- Only fields change that the invariant does not read. -/
lemma Good.congr (h : Good bodies H s) (hbase : s'.base = s.base)
    (hderived : s'.derived = s.derived) (hslots : s'.slots = s.slots)
    (hsnapshots : ∀ id frames, s'.snapshots id = some frames →
      s.snapshots id = some frames ∨ frames = []) : Good bodies H s' := by
  have hrevision : s'.revision = s.revision := congrArg Base.revision hbase
  have hinputs : s'.inputs = s.inputs := congrArg Base.inputs hbase
  refine ⟨?_, hrevision ▸ h.past, ?_, ?_, ?_, ?_, ?_⟩
  · rw [hrevision, h.inputs]
    unfold values
    rw [hinputs]
  · rw [hrevision, hderived]
    exact h.fresh
  · rw [hbase, hderived]
    exact h.entries
  · intro id frames hframes
    rw [hbase]
    rcases hsnapshots id frames hframes with hold | rfl
    · exact h.frames id frames hold
    · simp
  · intro id frames hframes
    rcases hsnapshots id frames hframes with hold | rfl
    · exact h.linked id frames hold
    · trivial
  · intro id frame rest value hframes hpc hslot
    rw [hrevision]
    rcases hsnapshots id _ hframes with hold | hnil
    · exact h.slots id frame rest value hold hpc (hslots ▸ hslot)
    · cases hnil

/-- The records that read an input that a removal takes away are discarded. -/
def State.Forgets (self : State σ) (removal : σ.Removal) (discarded : List σ.Query) : Prop :=
  ∀ query computed trace dependencies,
    self.derived query = .Computed computed trace dependencies → query ∉ discarded →
      ∀ key, .input key ∈ dependencies → ∀ state, self.inputs key = some state →
        σ.edit removal key state.value ≠ none

/-- What a removal leaves of an input tells a record of an earlier revision what it needs. -/
lemma History.InputKept.edit {removal : σ.Removal} {key : σ.Input} {t : ℕ} (ht : t ≤ s.revision)
    (hkey : ∀ state, s.inputs key = some state → σ.edit removal key state.value ≠ none)
    (h : H.InputKept s.base t key) : H.InputKept ⟨s.editInputs removal, revision⟩ t key := by
  simp only [InputKept, base, editInputs] at h ⊢
  cases hinput : s.inputs key with
  | none =>
    rw [hinput] at h
    exact h
  | some state =>
    rw [hinput] at h
    simp only
    cases hedit : σ.edit removal key state.value with
    | none => exact absurd hedit (hkey state hinput)
    | some value =>
      simp only
      split
      · rename_i after hafter
        split at hafter <;> cases hafter
      · rename_i after hafter
        split at hafter
        · cases hafter
          exact h
        · cases hafter
          intro hle
          simp only at hle
          omega

/-- **A writer that holds `query_lock` keeps the invariant.** -/
lemma Good.commit (h : Good bodies H s) (hinv : Inv s) (hfree : s.queryLockIsFree = true)
    {discarded : List σ.Query} {writer : Writer σ}
    (hremoval : ∀ removal, writer = .remove removal → s.Forgets removal discarded) :
    ∃ H, Good bodies H (s.commit discarded writer) := by
  have hnone := hinv.no_snapshots hfree
  cases writer with
  | requestCancel => exact ⟨H, h.congr rfl rfl rfl fun _ _ hframes => Or.inl hframes⟩
  | setInput key value =>
    simp only [State.commit]
    split
    · exact ⟨H, h.congr rfl rfl rfl fun _ _ hframes => Or.inl hframes⟩
    · refine ⟨_, h.newRevision hnone rfl fun query computed trace dependencies hstate => ?_⟩
      have hentry := h.entries _ _ _ _ hstate
      refine ⟨hstate, fun other hmem => ?_⟩
      have hkept := hentry.inputs other hmem
      have hle := hentry.le
      simp only [InputKept, base] at hkept hle ⊢
      by_cases heq : other = key
      · subst heq
        rw [update_self]
        intro hchanged
        simp only at hchanged
        omega
      · rw [update_of_ne heq]
        exact hkept
  | remove removal =>
    rw [commit_remove (hinv.not_inProgress hnone)]
    refine ⟨_, h.newRevision hnone rfl fun query computed trace dependencies hstate => ?_⟩
    simp only at hstate
    split at hstate
    · cases hstate
    · rename_i hkeep
      have hentry := h.entries _ _ _ _ hstate
      refine ⟨hstate, fun key hmem => ?_⟩
      exact (hentry.inputs key hmem).edit hentry.le
        (hremoval removal rfl query computed trace dependencies hstate hkeep key hmem)

/-- A writer that has held `query_lock` leaves no snapshot and no request of its own. -/
lemma commit_idle (hinv : Inv s) (hfree : s.queryLockIsFree = true) (discarded : List σ.Query)
    (writer : Writer σ) :
    (∀ id, (s.commit discarded writer).snapshots id = none) ∧
      (s.commit discarded writer).cancelled = false ∧
      (s.commit discarded writer).writers = s.writers := by
  have hnone := hinv.no_snapshots hfree
  cases writer with
  | requestCancel => exact ⟨hnone, rfl, rfl⟩
  | setInput key value =>
    simp only [commit]
    split <;> exact ⟨hnone, rfl, rfl⟩
  | remove removal =>
    rw [commit_remove (hinv.not_inProgress hnone)]
    exact ⟨hnone, rfl, rfl⟩

/-! ## Runs -/

/-- **The actions of runs over fixed bodies**: a step that starts a body starts the one of its
query.  `removes` says which removals may take place, with the entries that they discard. -/
def Drives (bodies : Bodies σ) (removes : State σ → σ.Removal → List σ.Query → Prop)
    (s : State σ) : Action σ → Prop
  | .step id tree _ =>
    ∀ frame rest, s.snapshots id = some (frame :: rest) → tree = bodies frame.query
  | .commit index discarded =>
    ∀ removal, s.writers[index]? = some (.remove removal) → removes s removal discarded
  | _ => True

/-- No removal takes place. -/
def noRemoval (_ : State σ) (_ : σ.Removal) (_ : List σ.Query) : Prop := False

lemma Good.new : Good bodies ⟨fun _ _ => none, fun _ _ => False⟩ (new : State σ) where
  inputs := rfl
  past := fun _ _ hbuilt => hbuilt.elim
  fresh := fun _ hbuilt => hbuilt.elim
  entries := fun _ _ _ _ hstate => by cases hstate
  frames := fun _ _ hframes => by cases hframes
  linked := fun _ _ hframes => by cases hframes
  slots := fun _ _ _ _ hframes => by cases hframes

/-- A snapshot with an empty stack comes or goes. -/
lemma snapshots_update_idle {other : SnapshotId} {after : Option (List (Frame σ))}
    (hafter : after = none ∨ after = some []) {frames : List (Frame σ)}
    (h : Function.update s.snapshots id after other = some frames) :
    s.snapshots other = some frames ∨ frames = [] := by
  by_cases heq : other = id
  · subst heq
    rw [update_self] at h
    rcases hafter with rfl | rfl
    · cases h
    · exact Or.inr (Option.some.inj h).symm
  · rw [update_of_ne heq] at h
    exact Or.inl h

/-- **Every action keeps the invariant.** -/
lemma Good.act (hbodies : ∀ query, (bodies query).Propagates) (h : Good bodies H s) (hinv : Inv s)
    (hremoves : ∀ removal discarded, removes s removal discarded → s.Forgets removal discarded)
    (hdrives : Drives bodies removes s action) (hact : s.act action = .next s' event) :
    ∃ H, Good bodies H s' := by
  cases ActStep.of_act hact with
  | snapshot => exact ⟨H, h.congr rfl rfl rfl fun _ _ => snapshots_update_idle (Or.inr rfl)⟩
  | drop => exact ⟨H, h.congr rfl rfl rfl fun _ _ => snapshots_update_idle (Or.inl rfl)⟩
  | @query id query =>
    refine ⟨H, h.quiet (.refl s) rfl ?_ trivial (Or.inl rfl)⟩
    simpa using FrameOk.new query
  | @step id tree order frame rest hs _ _ hstep =>
    exact h.frameStep hbodies hinv hs (hdrives frame rest hs) hstep
  | unchanged => exact ⟨H, h⟩
  | announce => exact ⟨H, h.congr rfl rfl rfl fun _ _ hframes => Or.inl hframes⟩
  | @commit index discarded writer hwriter hfree =>
    have h' : Good bodies H { s with writers := s.writers.eraseIdx index } :=
      h.congr rfl rfl rfl fun _ _ hframes => Or.inl hframes
    refine h'.commit (hinv.congr rfl rfl rfl rfl rfl) hfree fun removal heq => ?_
    subst heq
    exact hremoves removal discarded (hdrives removal hwriter)

/-- **The cache invariant holds in every run.** -/
theorem Reachable.good (hbodies : ∀ query, (bodies query).Propagates)
    (hremoves : ∀ s, Reachable (Drives bodies removes) s → ∀ removal discarded,
      removes s removal discarded → s.Forgets removal discarded)
    (h : Reachable (Drives bodies removes) s) : ∃ H, Good bodies H s := by
  induction h with
  | new => exact ⟨_, Good.new⟩
  | act action hreach hdrives hact ih =>
    obtain ⟨H, hgood⟩ := ih
    exact hgood.act hbodies hreach.inv (hremoves _ hreach) hdrives hact

/-- What only writers write. -/
structure SameFlags (s s' : State σ) : Prop where
  values : s'.values = s.values
  cancelled : s'.cancelled = s.cancelled
  writers : s'.writers = s.writers

lemma SameFlags.setFrames (h : SameFlags s s') {stack : List (Frame σ)} :
    SameFlags s (s'.setFrames id stack) :=
  ⟨h.values, h.cancelled, h.writers⟩

/-- The cleanup of `query` writes no flag. -/
lemma cleanup_flags {released : State σ} (h : s.cleanup frame outcome = .ok released) :
    SameFlags s released := by
  unfold cleanup release at h
  repeat' split at h
  all_goals cases h
  all_goals exact ⟨rfl, rfl, rfl⟩

lemma fulfillAndStore_flags {computed : σ.Value} {trace : Trace}
    {dependencies : List (QueryKey σ.Input σ.Query)} {stored : State σ}
    (h : s.fulfillAndStore query computed trace dependencies = some stored) :
    SameFlags s stored := by
  unfold fulfillAndStore at h
  split at h
  all_goals cases h
  all_goals exact ⟨rfl, rfl, rfl⟩

/-- A step of a snapshot writes no flag. -/
lemma FrameStep.flags {rest : List (Frame σ)} {tree : Body σ}
    {order : List (QueryKey σ.Input σ.Query)} (h : FrameStep s id frame rest tree order s' event) :
    SameFlags s s' := by
  cases h with
  | store _ hstored => exact (fulfillAndStore_flags hstored).setFrames
  | leaveOutermost _ hreleased _ | leave _ hreleased _ => exact (cleanup_flags hreleased).setFrames
  | _ => exact ⟨rfl, rfl, rfl⟩

/-- A query returns from a frame that is about to leave. -/
lemma act_returned_leave {outermost : Bool}
    (hact : s.act action = .next s' (some (.returned id query outermost outcome))) :
    ∃ frame rest, s.snapshots id = some (frame :: rest) ∧ frame.query = query ∧
      frame.pc = .leave outcome ∧ (outermost = true → rest = []) ∧ SameFlags s s' := by
  cases ActStep.of_act hact with
  | @step _ _ _ frame rest hs _ _ hstep =>
    have hflags := hstep.flags
    cases hstep with
    | leaveOutermost hpc _ hrest => exact ⟨frame, rest, hs, rfl, hpc, fun _ => hrest, hflags⟩
    | leave hpc _ _ => exact ⟨frame, rest, hs, rfl, hpc, by simp, hflags⟩

/-- **Results are the ones from scratch.**  Over bodies that propagate every error but
`Unverifiable` and `Cancelled`, in every run of snapshots and input writes, each value that a query
returns is the result of evaluating it from scratch over the current inputs, and so is each value
that the cache holds for the current revision. -/
theorem results_from_scratch (hbodies : ∀ query, (bodies query).Propagates)
    (h : Reachable (Drives bodies noRemoval) s) :
    (∀ action s' id query outermost value, Drives bodies noRemoval s action →
      s.act action = .next s' (some (.returned id query outermost (.result (.ok value)))) →
        ∀ result, FromScratch bodies s'.values query result ↔ result = .ok value) ∧
    (∀ query computed trace dependencies,
      s.derived query = .Computed computed trace dependencies → trace.built = s.revision →
        ∀ result, FromScratch bodies s.values query result ↔ result = .ok computed) := by
  obtain ⟨H, hgood⟩ := h.good hbodies fun _ _ _ _ hremoval => hremoval.elim
  constructor
  · intro action s' id query outermost value _ hact
    obtain ⟨frame, rest, hs, rfl, hpc, -, hflags⟩ := act_returned_leave hact
    have hknows := (hgood.frames id _ hs frame (by simp)).knows
    simp only [Frame.Knows, hpc] at hknows
    rw [hflags.values, ← hgood.inputs]
    exact (hknows value rfl).1.iff_eq
  · intro query computed trace dependencies hstate hbuilt
    have hholds := (hgood.holds_of_fresh hstate hbuilt).1
    rw [← hgood.inputs]
    exact hholds.iff_eq

/-! ## A run -/

/-- A run in which each action is chosen in the state before it. -/
def State.follow (self : State σ) : List (State σ → Action σ) → Option (State σ)
  | [] => some self
  | choose :: script =>
    match self.act (choose self) with
    | .next state _ => state.follow script
    | _ => none

/-- The next step of a snapshot, over fixed bodies. -/
def nextStep (bodies : Bodies σ) (id : SnapshotId) (s : State σ) : Action σ :=
  match s.snapshots id with
  | some (frame :: _) => .step id (bodies frame.query) frame.dependencies
  | _ => .step id .panic []

lemma drives_nextStep (bodies : Bodies σ) (removes : State σ → σ.Removal → List σ.Query → Prop)
    (id : SnapshotId) (s : State σ) : Drives bodies removes s (nextStep bodies id s) := by
  unfold nextStep
  split
  · rename_i frame rest hs
    rintro other below hother
    cases hs.symm.trans hother
    rfl
  · rename_i hs
    exact fun frame rest hother => absurd hother (hs frame rest)

lemma Reachable.follow {permits : State σ → Action σ → Prop} {script : List (State σ → Action σ)}
    (hpermits : ∀ choose ∈ script, ∀ s, permits s (choose s)) (h : Reachable permits s)
    (hfollow : s.follow script = some s') : Reachable permits s' := by
  induction script generalizing s with
  | nil => exact Option.some.inj hfollow ▸ h
  | cons choose script ih =>
    rw [follow] at hfollow
    split at hfollow
    · rename_i next event hact
      refine ih (fun other hmem => hpermits other (List.mem_cons_of_mem _ hmem)) ?_ hfollow
      exact .act _ h (hpermits choose (by simp) s) hact
    · cases hfollow

/-- The query `true` reads the input, and `false` is its successor. -/
def successor : Bodies pairSchema
  | true => .read () fun value => .ret (.ok (value.getD (0 : ℕ)))
  | false => .demand true fun
    | .ok value => .ret (.ok (Nat.succ value))
    | .error error => .ret (.error error)

lemma successor_propagates (query : Bool) : (successor query).Propagates := by
  cases query with
  | true => exact fun _ => trivial
  | false =>
    refine ⟨fun _ _ => rfl, fun answer => ?_⟩
    cases answer <;> trivial

/-- The input is written, a snapshot asks for `false`, and all of it happens again with another
value. -/
def rewrite : List (State pairSchema → Action pairSchema) :=
  [fun _ => .setInput () (3 : ℕ), fun _ => .commit 0 [], fun _ => .snapshot,
    fun _ => .query 1 false] ++
    List.replicate 16 (nextStep successor 1) ++
  [fun _ => .drop 1, fun _ => .setInput () (5 : ℕ), fun _ => .commit 0 [], fun _ => .snapshot,
    fun _ => .query 2 false] ++ List.replicate 23 (nextStep successor 2)

/-- The value that the cache holds for the current revision. -/
def State.cachedNow (self : State σ) (query : σ.Query) : Option σ.Value :=
  match self.derived query with
  | .Computed computed trace _ => if trace.built = self.revision then some computed else none
  | _ => none

lemma rewrite_drives : ∀ choose ∈ rewrite, ∀ s, Drives successor noRemoval s (choose s) := by
  intro choose hmem s
  simp only [rewrite, List.mem_append, List.mem_cons, List.not_mem_nil, or_false,
    List.mem_replicate] at hmem
  rcases hmem with ((((rfl | rfl | rfl | rfl) | ⟨-, rfl⟩) | rfl | rfl | rfl | rfl | rfl) | ⟨-, rfl⟩)
  case inl.inl.inr | inr => exact drives_nextStep successor noRemoval _ s
  case inl.inl.inl.inr.inl | inl.inr.inr.inr.inl => exact fun removal => removal.elim
  all_goals trivial

theorem rewrite_results_from_scratch :
    ∃ s : State pairSchema, (∀ query, (successor query).Propagates) ∧
      Reachable (Drives successor noRemoval) s ∧
      s.cachedNow false = some (6 : ℕ) ∧
      (∀ action s' id query outermost value, Drives successor noRemoval s action →
        s.act action = .next s' (some (.returned id query outermost (.result (.ok value)))) →
          ∀ result, FromScratch successor s'.values query result ↔ result = .ok value) ∧
      (∀ query computed trace dependencies,
        s.derived query = .Computed computed trace dependencies → trace.built = s.revision →
          ∀ result, FromScratch successor s.values query result ↔ result = .ok computed) := by
  have hrun :
      (State.new.follow rewrite).map (fun s => s.cachedNow false) = some (some (6 : ℕ)) := by
    decide
  obtain ⟨s, hfollow, hcached⟩ := Option.map_eq_some_iff.mp hrun
  have hreach : Reachable (Drives successor noRemoval) s :=
    Reachable.follow rewrite_drives .new hfollow
  exact ⟨s, successor_propagates, hreach, hcached, results_from_scratch successor_propagates hreach⟩

end Iris.Building
