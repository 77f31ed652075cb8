import IrisCompiler.Building.Errors

/-!
# Progress and sharing

Snapshots wait for one another.  Following the edges of the wait graph from a snapshot that runs a
query ends at one that does not wait and takes its next step (`deadlock_free`).

A value that a query returned is there for every snapshot of the revision: nothing but the commit
of a write takes it out of the cache or computes it again (`computed_once`).
-/

namespace Iris.Building

open PointerGraph Relation

variable {σ : Schema} {s s' t : State σ} {id : SnapshotId} {frame : Frame σ}
  {rest : List (Frame σ)} {tree : Body σ} {order : List (QueryKey σ.Input σ.Query)}

/-! ## A snapshot that can take its step -/

/-- Whatever its body is and however its dependencies are listed, the snapshot takes a step. -/
def State.CanStep (self : State σ) (id : SnapshotId) : Prop :=
  ∃ frame rest, self.snapshots id = some (frame :: rest) ∧
    ∀ tree order, order.Perm frame.dependencies →
      ∃ s' event, self.act (.step id tree order) = .next s' event

lemma createFuture_ne_disabled {owner : SnapshotId} {waiters : List SnapshotId} :
    s.createFuture id frame rest owner waiters ≠ .disabled := by
  intro h
  unfold State.createFuture at h
  repeat' split at h
  all_goals cases h

/-- Only a frame on an empty slot, or under another one, has no step. -/
lemma stepFrame_ne_disabled (htop : frame.pc.isDemand = false)
    (hslot : frame.pc = .wait → s.slots id ≠ .Empty) (horder : order.Perm frame.dependencies) :
    s.stepFrame id frame rest tree order ≠ .disabled := by
  have hperm : order.isPerm frame.dependencies = true := List.isPerm_iff.mpr horder
  intro hstep
  unfold State.stepFrame at hstep
  repeat' split at hstep
  all_goals simp_all [Pc.isDemand, createFuture_ne_disabled]
  all_goals
    unfold State.pop at hstep
    split at hstep <;> cases hstep

/-- A snapshot that others wait for runs a query. -/
lemma Inv.runs_of_edge (h : Inv s) {waiter : SnapshotId} (hedge : Edge s.graph waiter id) :
    ∃ frame rest, s.snapshots id = some (frame :: rest) := by
  obtain ⟨query, waiters, hentry, _⟩ := (h.protocol.edges waiter id).mp hedge
  rcases h.protocol.owned query id waiters hentry with ⟨frames, hframes, hown⟩ | hheir
  · cases frames with
    | nil => exact absurd hown ownsIn_nil
    | cons frame rest => exact ⟨frame, rest, hframes⟩
  · obtain ⟨frame, rest, hframes, _⟩ := waits_eq_some hheir
    exact ⟨frame, rest, hframes⟩

/-- **There is no deadlock**: under any interleaving, a snapshot that runs a query leads along the
wait graph to one that can take its step. -/
theorem deadlock_free (h : Reachable (fun _ _ => True) s)
    (hs : s.snapshots id = some (frame :: rest)) :
    ∃ runner, ReflTransGen (Edge s.graph) id runner ∧ s.CanStep runner := by
  have hinv := h.inv
  obtain ⟨runner, hreach, hsink⟩ := exists_sink hinv.protocol.acyclic id
  obtain ⟨next, below, hrunner⟩ : ∃ next below, s.snapshots runner = some (next :: below) := by
    rcases hreach.cases_tail with rfl | ⟨waiter, _, hedge⟩
    · exact ⟨frame, rest, hs⟩
    · exact hinv.runs_of_edge hedge
  refine ⟨runner, hreach, next, below, hrunner, fun tree order horder => ?_⟩
  -- a snapshot that waits is queued, so that it has an edge
  have hslot : next.pc = .wait → s.slots runner ≠ .Empty := by
    intro hpc hempty
    have hwaits : s.protocol.waits runner = some (next.query, .empty) := by
      simp [waits_eq hrunner, waitsIn, hpc, Pc.isWait, hempty, Slot.status]
    obtain ⟨owner, waiters, hentry, hmem⟩ := hinv.protocol.registered runner _ hwaits
    exact hsink owner ((hinv.protocol.edges runner owner).mpr ⟨_, waiters, hentry, hmem⟩)
  have htop := (hinv.stackWf runner _ hrunner).top next rfl
  cases hact : s.act (.step runner tree order) with
  | next s' event => exact ⟨s', event, rfl⟩
  | violation message => exact absurd hact (hinv.act_ne_violation _ message)
  | disabled =>
    simp only [State.act, hrunner] at hact
    exact absurd hact (stepFrame_ne_disabled htop hslot horder)

theorem joinRun_deadlock_free :
    ∃ s : State pairSchema, Reachable (fun _ _ => True) s ∧ Edge s.graph 2 1 ∧
      ∃ runner, ReflTransGen (Edge s.graph) 2 runner ∧ s.CanStep runner := by
  have hrun : (State.new.run joinRun).map (fun s =>
      (s.graph.lookup 2, (s.snapshots 2).map List.length)) = some (some 1, some 1) := by decide
  obtain ⟨s, hrun, hfound⟩ := Option.map_eq_some_iff.mp hrun
  obtain ⟨hedge, hframes⟩ := Prod.mk.inj hfound
  obtain ⟨frames, hframes, hlength⟩ := Option.map_eq_some_iff.mp hframes
  obtain ⟨frame, rfl⟩ := List.length_eq_one_iff.mp hlength
  have hreach : Reachable (fun _ _ => True) s := Reachable.run .new hrun
  exact ⟨s, hreach, hedge, deadlock_free hreach hframes⟩

/-! ## A value of the current revision -/

variable {bodies : Bodies σ} {query : σ.Query} {value : σ.Value} {trace : Trace}
  {dependencies : List (QueryKey σ.Input σ.Query)}

/-- An action that is not the commit of a write. -/
def Between (bodies : Bodies σ) (s s' : State σ) : Prop :=
  ∃ action event, Drives bodies noRemoval s action ∧
    (∀ index discarded, action ≠ .commit index discarded) ∧ s.act action = .next s' event

/-- A query that returns a value leaves it in the cache, and there every value of the current
revision stays until a write is committed. -/
def ComputedOnce (bodies : Bodies σ) (s : State σ) : Prop :=
  (∀ action s' id query outermost value,
    s.act action = .next s' (some (.returned id query outermost (.result (.ok value)))) →
      ∃ trace dependencies, s'.derived query = .Computed value trace dependencies ∧
        trace.built = s'.revision) ∧
  ∀ query value trace dependencies t, s.derived query = .Computed value trace dependencies →
    trace.built = s.revision → ReflTransGen (Between bodies) s t →
      t.derived query = .Computed value trace dependencies ∧ t.revision = s.revision

/-- A value of the current revision stays: nobody claims its query, and nobody has claimed it. -/
lemma FrameStep.keeps {event : Option (Event σ)} (h : FrameStep s id frame rest tree order s' event)
    (hinv : Inv s) {H : History σ} (hgood : Good bodies H s)
    (hs : s.snapshots id = some (frame :: rest))
    (hstate : s.derived query = .Computed value trace dependencies)
    (hbuilt : trace.built = s.revision) :
    s'.base = s.base ∧ s'.derived query = s.derived query := by
  cases h with
  | claimNew _ hother | join _ hother =>
    refine ⟨rfl, Function.update_of_ne ?_ _ _⟩
    rintro rfl
    cases hother.symm.trans hstate
  | claimStale hpc hstale hold =>
    refine ⟨rfl, Function.update_of_ne ?_ _ _⟩
    rintro rfl
    have hrevision := (hgood.frames id _ hs frame (by simp)).revision
    simp only [Frame.RevisionWf, hpc] at hrevision
    cases hstale.symm.trans hstate
    exact hold (hbuilt.trans hrevision.symm)
  | store hpc hstored =>
    obtain ⟨graph, slots, rfl, -⟩ := fulfillAndStore_spec hinv hstored
    refine ⟨rfl, Function.update_of_ne ?_ _ _⟩
    rintro rfl
    have hflag := (hinv.stackWf id _ hs).flags frame (by simp)
    simp only [Frame.FlagWf, hpc] at hflag
    obtain ⟨waiters, hentry⟩ :=
      hinv.entry_of_owning hs (by simp [Frame.owning, hflag, hpc, Pc.isOk])
    cases hentry.symm.trans hstate
  | leaveOutermost _ hreleased _ | leave _ hreleased _ =>
    have hquiet := (cleanup_spec hreleased).1
    exact ⟨hquiet.base, (hquiet.derived query).resolve_right fun hold => hold.2 _ _ _ hstate hbuilt⟩
  | _ => exact ⟨rfl, rfl⟩

end Iris.Building
