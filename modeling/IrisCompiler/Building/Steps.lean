import IrisCompiler.Building.Engine
import Mathlib.Tactic.Common

/-!
# What a step can do

`State.stepFrame` is one function with a branch for every stretch of locked code.  This module reads
it once, as a relation with one constructor a branch, so that an invariant is checked constructor by
constructor and nothing else unfolds the function.

`LocalStep` has the branches that replace the innermost frame and touch nothing that is shared;
`FrameStep` has the others.
-/

namespace Iris.Building

open PointerGraph State

variable {σ : Schema}

/-- The two places of `query_core` that look at the state of the query. -/
def Pc.IsLookup : Pc σ → Prop
  | .readPath | .upgradePath => True
  | _ => False

lemma Pc.IsLookup.cases {pc : Pc σ} (h : pc.IsLookup) : pc = .readPath ∨ pc = .upgradePath := by
  cases pc with
  | readPath => exact Or.inl rfl
  | upgradePath => exact Or.inr rfl
  | _ => exact h.elim

/-- **The steps that only replace the innermost frame.** -/
inductive LocalStep (s : State σ) (id : SnapshotId) (frame : Frame σ) (rest : List (Frame σ))
    (tree : Body σ) (order : List (QueryKey σ.Input σ.Query)) : Frame σ → Prop
  | startCancelled (hpc : frame.pc = .start) (hcancelled : s.cancelled = true) :
    LocalStep s id frame rest tree order
      { frame with pc := .leave (.result (.error .Cancelled)) }
  | start (hpc : frame.pc = .start) (hcancelled : s.cancelled = false) :
    LocalStep s id frame rest tree order { frame with revision := s.revision, pc := .readPath }
  | hit (hpc : frame.pc.IsLookup) {computed trace dependencies}
      (hstate : s.derived frame.query = .Computed computed trace dependencies)
      (hbuilt : trace.built = frame.revision) :
    LocalStep s id frame rest tree order { frame with pc := .leave (.result (.ok computed)) }
  | miss (hpc : frame.pc = .readPath) :
    LocalStep s id frame rest tree order { frame with pc := .upgradePath }
  | unverifiable (hpc : frame.pc.IsLookup) {owner waiters}
      (hstate : s.derived frame.query = .InProgress owner waiters)
      (hverifying : (frame :: rest).any Frame.verifying = true) :
    LocalStep s id frame rest tree order
      { frame with pc := .leave (.result (.error .Unverifiable)) }
  | cycle (hpc : frame.pc.IsLookup) {owner waiters}
      (hstate : s.derived frame.query = .InProgress owner waiters)
      (hverifying : (frame :: rest).any Frame.verifying = false) {graph}
      (hedge : addEdge s.graph id owner = some (false, graph)) :
    LocalStep s id frame rest tree order
      { frame with
        pc := .leave (.result (.error (.Cycle ((frame :: rest).map Frame.query).reverse))) }
  | abandoned (hpc : frame.pc = .wait) (hslot : s.slots id = .Dead) :
    LocalStep s id frame rest tree order
      { frame with pc := .leave (.result (.error .Cancelled)) }
  | verified {cached latest} (hpc : frame.pc = .verify cached [] latest)
      (hlatest : latest ≤ cached.trace.built) :
    LocalStep s id frame rest tree order
      { frame with
        verifying := false
        pc := .store cached.computed { cached.trace with built := frame.revision }
          cached.dependencies }
  | outdated {cached latest} (hpc : frame.pc = .verify cached [] latest)
      (hlatest : ¬ latest ≤ cached.trace.built) :
    LocalStep s id frame rest tree order
      { frame with verifying := false, pc := .compute (some (cached.computed, cached.trace)) }
  | missingInput {cached key todo latest}
      (hpc : frame.pc = .verify cached (.input key :: todo) latest) (hinput : s.inputs key = none) :
    LocalStep s id frame rest tree order { frame with pc := .verify cached todo latest }
  | input {cached key todo latest} (hpc : frame.pc = .verify cached (.input key :: todo) latest)
      {state} (hinput : s.inputs key = some state) :
    LocalStep s id frame rest tree order
      { frame with pc := .verify cached todo (max latest state.changed) }
  | fresh {cached query todo latest}
      (hpc : frame.pc = .verify cached (.derived query :: todo) latest) {trace}
      (htrace : s.computedTrace query = some trace) (hbuilt : trace.built = frame.revision) :
    LocalStep s id frame rest tree order
      { frame with pc := .verify cached todo (max latest trace.changed) }
  | traced {cached query todo latest} (hpc : frame.pc = .verifyTrace cached query todo latest)
      {trace} (htrace : s.computedTrace query = some trace) :
    LocalStep s id frame rest tree order
      { frame with pc := .verify cached todo (max latest trace.changed) }
  | untraced {cached query todo latest} (hpc : frame.pc = .verifyTrace cached query todo latest)
      (htrace : s.computedTrace query = none) :
    LocalStep s id frame rest tree order { frame with pc := .verify cached todo latest }
  | computeCancelled {previous} (hpc : frame.pc = .compute previous)
      (hcancelled : s.cancelled = true) :
    LocalStep s id frame rest tree order
      { frame with pc := .leave (.result (.error .Cancelled)) }
  | compute {previous} (hpc : frame.pc = .compute previous) (hcancelled : s.cancelled = false) :
    LocalStep s id frame rest tree order { frame with pc := .body previous tree }
  | bodyError {previous error} (hpc : frame.pc = .body previous (.ret (.error error))) :
    LocalStep s id frame rest tree order { frame with pc := .leave (.result (.error error)) }
  | bodyUnavailable {previous computed} (hpc : frame.pc = .body previous (.ret (.ok computed)))
      {error} (hunavailable : frame.unavailableDependency = some error) :
    LocalStep s id frame rest tree order
      { frame with unavailableDependency := none, pc := .leave (.result (.error error)) }
  | bodyOk {previous computed} (hpc : frame.pc = .body previous (.ret (.ok computed)))
      (hunavailable : frame.unavailableDependency = none) (horder : order.Perm frame.dependencies) :
    LocalStep s id frame rest tree order
      { frame with
        pc := .store computed
          ⟨frame.revision, State.changedAt previous computed frame.revision⟩ order }
  | bodyPanic {previous} (hpc : frame.pc = .body previous .panic) :
    LocalStep s id frame rest tree order { frame with pc := .leave .panicked }
  | read {previous key next} (hpc : frame.pc = .body previous (.read key next)) :
    LocalStep s id frame rest tree order
      { frame.record (.input key) with
        pc := .body previous (next ((s.inputs key).map InputState.value)) }

/-- The demands: the frame that is left below, and the query that is pushed. -/
inductive DemandStep (s : State σ) (frame : Frame σ) : Frame σ → σ.Query → Prop
  | verify {cached query todo latest}
      (hpc : frame.pc = .verify cached (.derived query :: todo) latest) :
    DemandStep s frame { frame with pc := .verifyDemand cached query todo latest } query
  | body {previous query next} (hpc : frame.pc = .body previous (.demand query next)) :
    DemandStep s frame { frame with pc := .bodyDemand previous query next } query

/-- **What a step of the innermost frame can do.** -/
inductive FrameStep (s : State σ) (id : SnapshotId) (frame : Frame σ) (rest : List (Frame σ))
    (tree : Body σ) (order : List (QueryKey σ.Input σ.Query)) :
    State σ → Option (Event σ) → Prop
  | local {next} (hlocal : LocalStep s id frame rest tree order next) :
    FrameStep s id frame rest tree order (s.setFrames id (next :: rest)) none
  | demand {parent query} (hdemand : DemandStep s frame parent query) :
    FrameStep s id frame rest tree order (s.push id parent rest query) none
  | claimNew (hpc : frame.pc = .upgradePath) (hstate : s.derived frame.query = .NotComputed) :
    FrameStep s id frame rest tree order
      ((s.setDerived frame.query (.InProgress id [])).setFrames id
        ({ frame with inProgress := true, pc := .compute none } :: rest)) none
  | claimStale (hpc : frame.pc = .upgradePath) {cached} (hstate : s.derived frame.query =
        .Computed cached.computed cached.trace cached.dependencies)
      (hbuilt : cached.trace.built ≠ frame.revision) :
    FrameStep s id frame rest tree order
      ((s.setDerived frame.query (.InProgress id [])).setFrames id
        ({ frame with
          inProgress := true
          verifying := true
          pc := .verify cached cached.dependencies 0 } :: rest)) none
  | join (hpc : frame.pc.IsLookup) {owner waiters}
      (hstate : s.derived frame.query = .InProgress owner waiters)
      (hverifying : (frame :: rest).any Frame.verifying = false) {graph}
      (hedge : addEdge s.graph id owner = some (true, graph)) :
    FrameStep s id frame rest tree order
      ((({ s with graph }.setDerived frame.query (.InProgress owner (waiters ++ [id]))).setSlot id
        .Empty).setFrames id ({ frame with pc := .wait } :: rest)) none
  | wakeFull (hpc : frame.pc = .wait) {value} (hslot : s.slots id = .Full value) :
    FrameStep s id frame rest tree order
      ((s.setSlot id .Dead).setFrames id
        ({ frame with pc := .leave (.result (.ok value)) } :: rest)) none
  | wakeTransferred (hpc : frame.pc = .wait) (hslot : s.slots id = .Transferred) :
    FrameStep s id frame rest tree order
      ((s.setSlot id .Dead).setFrames id
        ({ frame with inProgress := true, pc := .compute none } :: rest)) none
  | store {computed trace dependencies} (hpc : frame.pc = .store computed trace dependencies)
      {stored} (hstored : s.fulfillAndStore frame.query computed trace dependencies = some stored) :
    FrameStep s id frame rest tree order
      (stored.setFrames id ({ frame with pc := .leave (.result (.ok computed)) } :: rest)) none
  | leaveOutermost {outcome} (hpc : frame.pc = .leave outcome) {released}
      (hreleased : s.cleanup frame outcome = .ok released) (hrest : rest = []) :
    FrameStep s id frame rest tree order (released.setFrames id [])
      (some (.returned id frame.query true outcome))
  | leave {outcome} (hpc : frame.pc = .leave outcome) {released}
      (hreleased : s.cleanup frame outcome = .ok released) {parent below}
      (hrest : rest = parent :: below) :
    FrameStep s id frame rest tree order
      (released.setFrames id (State.resume parent outcome :: below))
      (some (.returned id frame.query false outcome))

/-- **When the engine's own assertions fail.** -/
inductive Violation (s : State σ) (id : SnapshotId) (frame : Frame σ) : String → Prop
  | diverges (hpc : frame.pc.IsLookup) {owner waiters}
      (hstate : s.derived frame.query = .InProgress owner waiters)
      (hedge : addEdge s.graph id owner = none) :
    Violation s id frame "add_edge does not return"
  | store {computed trace dependencies} (hpc : frame.pc = .store computed trace dependencies)
      (hstored : s.fulfillAndStore frame.query computed trace dependencies = none) :
    Violation s id frame "invariant violated: expected InProgress"
  | leave {outcome} (hpc : frame.pc = .leave outcome) {message}
      (hreleased : s.cleanup frame outcome = .error message) :
    Violation s id frame message

/-- What a step yields satisfies `P`, and it is no failed assertion unless `Q`. -/
def Step.Yields (P : State σ → Option (Event σ) → Prop) (Q : String → Prop) : Step σ → Prop
  | .disabled => True
  | .next state event => P state event
  | .violation message => Q message

/-! ## Reading the function -/

section Reading

variable {s : State σ} {id : SnapshotId} {frame : Frame σ} {rest : List (Frame σ)} {tree : Body σ}
  {order : List (QueryKey σ.Input σ.Query)}

lemma createFuture_yields (hpc : frame.pc.IsLookup) {owner : SnapshotId}
    {waiters : List SnapshotId} (hstate : s.derived frame.query = .InProgress owner waiters) :
    (s.createFuture id frame rest owner waiters).Yields (FrameStep s id frame rest tree order)
      (Violation s id frame) := by
  unfold createFuture
  split
  · rename_i hverifying
    exact .local (.unverifiable hpc hstate hverifying)
  · rename_i hverifying
    have hverifying' : (frame :: rest).any Frame.verifying = false := by simpa using hverifying
    split
    · rename_i hedge
      exact .diverges hpc hstate hedge
    · rename_i graph hedge
      exact .local (.cycle hpc hstate hverifying' hedge)
    · rename_i graph hedge
      exact .join hpc hstate hverifying' hedge

lemma pop_yields {outcome : Outcome σ} (hpc : frame.pc = .leave outcome) {released : State σ}
    (hreleased : s.cleanup frame outcome = .ok released) :
    (released.pop id frame rest outcome).Yields (FrameStep s id frame rest tree order)
      (Violation s id frame) := by
  cases hrest : rest with
  | nil => exact .leaveOutermost hpc hreleased rfl
  | cons parent below => exact .leave hpc hreleased rfl

/-- **Every branch of `stepFrame` is one of the constructors.** -/
theorem stepFrame_yields : (s.stepFrame id frame rest tree order).Yields
    (FrameStep s id frame rest tree order) (Violation s id frame) := by
  cases hpc : frame.pc with
  | start =>
    simp only [stepFrame, hpc]
    split
    · rename_i hcancelled
      exact .local (.startCancelled hpc hcancelled)
    · rename_i hcancelled
      exact .local (.start hpc (by simpa using hcancelled))
  | readPath =>
    simp only [stepFrame, hpc]
    split
    · rename_i computed trace dependencies hstate
      split
      · rename_i hbuilt
        exact .local (.hit (by rw [hpc]; trivial) hstate hbuilt)
      · exact .local (.miss hpc)
    · rename_i owner waiters hstate
      exact createFuture_yields (by rw [hpc]; trivial) hstate
    · exact .local (.miss hpc)
  | upgradePath =>
    simp only [stepFrame, hpc]
    split
    · rename_i hstate
      exact .claimNew hpc hstate
    · rename_i owner waiters hstate
      exact createFuture_yields (by rw [hpc]; trivial) hstate
    · rename_i computed trace dependencies hstate
      split
      · rename_i hbuilt
        exact .local (.hit (by rw [hpc]; trivial) hstate hbuilt)
      · rename_i hbuilt
        exact .claimStale hpc hstate hbuilt
  | wait =>
    simp only [stepFrame, hpc]
    split
    · trivial
    · rename_i value hslot
      exact .wakeFull hpc hslot
    · rename_i hslot
      exact .wakeTransferred hpc hslot
    · rename_i hslot
      exact .local (.abandoned hpc hslot)
  | verify cached todo latest =>
    cases todo with
    | nil =>
      simp only [stepFrame, hpc]
      split
      · rename_i hlatest
        exact .local (.verified hpc hlatest)
      · rename_i hlatest
        exact .local (.outdated hpc hlatest)
    | cons key todo =>
      cases key with
      | input key =>
        simp only [stepFrame, hpc]
        split
        · rename_i hinput
          exact .local (.missingInput hpc hinput)
        · rename_i state hinput
          exact .local (.input hpc hinput)
      | derived query =>
        simp only [stepFrame, hpc]
        split
        · rename_i trace htrace
          split
          · rename_i hbuilt
            exact .local (.fresh hpc htrace hbuilt)
          · exact .demand (.verify hpc)
        · exact .demand (.verify hpc)
  | verifyDemand cached query todo latest =>
    simp only [stepFrame, hpc]
    trivial
  | verifyTrace cached query todo latest =>
    simp only [stepFrame, hpc]
    split
    · rename_i trace htrace
      exact .local (.traced hpc htrace)
    · rename_i htrace
      exact .local (.untraced hpc htrace)
  | compute previous =>
    simp only [stepFrame, hpc]
    split
    · rename_i hcancelled
      exact .local (.computeCancelled hpc hcancelled)
    · rename_i hcancelled
      exact .local (.compute hpc (by simpa using hcancelled))
  | body previous running =>
    cases running with
    | ret result =>
      cases result with
      | error error =>
        simp only [stepFrame, hpc]
        exact .local (.bodyError hpc)
      | ok computed =>
        simp only [stepFrame, hpc]
        split
        · rename_i error hunavailable
          exact .local (.bodyUnavailable hpc hunavailable)
        · rename_i hunavailable
          split
          · rename_i horder
            exact .local (.bodyOk hpc hunavailable (List.isPerm_iff.mp horder))
          · trivial
    | panic =>
      simp only [stepFrame, hpc]
      exact .local (.bodyPanic hpc)
    | read key next =>
      simp only [stepFrame, hpc]
      exact .local (.read hpc)
    | demand query next =>
      simp only [stepFrame, hpc]
      exact .demand (.body hpc)
  | bodyDemand previous query next =>
    simp only [stepFrame, hpc]
    trivial
  | store computed trace dependencies =>
    simp only [stepFrame, hpc]
    split
    · rename_i hstored
      exact .store hpc hstored
    · rename_i stored hstored
      exact .store hpc hstored
  | leave outcome =>
    simp only [stepFrame, hpc]
    split
    · rename_i message hreleased
      exact .leave hpc hreleased
    · rename_i released hreleased
      exact pop_yields hpc hreleased

end Reading

/-! ## Actions -/

/-- The writer that an action announces. -/
def Action.writer : Action σ → Option (Writer σ)
  | .setInput key value => some (.setInput key value)
  | .requestCancel => some .requestCancel
  | .remove removal => some (.remove removal)
  | _ => none

/-- **What an action can do.** -/
inductive ActStep (s : State σ) : Action σ → State σ → Option (Event σ) → Prop
  | snapshot : ActStep s .snapshot { s with
      nextSnapshot := s.nextSnapshot + 1
      snapshots := Function.update s.snapshots s.nextSnapshot (some []) } none
  | drop {id} (hs : s.snapshots id = some []) : ActStep s (.drop id)
      { s with snapshots := Function.update s.snapshots id none } none
  | query {id query} (hs : s.snapshots id = some []) :
    ActStep s (.query id query) (s.setFrames id [Frame.new query]) none
  | step {id tree order frame rest} (hs : s.snapshots id = some (frame :: rest)) {s' event}
      (hstep : FrameStep s id frame rest tree order s' event) :
    ActStep s (.step id tree order) s' event
  | unchanged {key value} : ActStep s (.setInput key value) s none
  | announce {action writer} (hwriter : action.writer = some writer) :
    ActStep s action { s with cancelled := true, writers := s.writers ++ [writer] } none
  | commit {index discarded writer} (hwriter : s.writers[index]? = some writer)
      (hfree : s.queryLockIsFree = true) :
    ActStep s (.commit index discarded)
      ({ s with writers := s.writers.eraseIdx index }.commit discarded writer) none

/-- **Every action is one of the constructors**, and only a step of a frame fails an assertion. -/
theorem act_yields {s : State σ} {action : Action σ} : (s.act action).Yields (ActStep s action)
    fun message => ∃ id frame rest, s.snapshots id = some (frame :: rest) ∧
      Violation s id frame message := by
  cases action with
  | snapshot => exact .snapshot
  | drop id | query id query =>
    simp only [act]
    split
    · rename_i hs
      constructor
      exact hs
    · trivial
  | step id tree order =>
    simp only [act]
    split
    · rename_i frame rest hs
      have hyields := @stepFrame_yields σ s id frame rest tree order
      cases hstep : s.stepFrame id frame rest tree order with
      | disabled => trivial
      | next s' event =>
        rw [hstep] at hyields
        exact .step hs hyields
      | violation message =>
        rw [hstep] at hyields
        exact ⟨id, frame, rest, hs, hyields⟩
    · trivial
  | setInput key value =>
    simp only [act]
    split
    · exact .unchanged
    · exact .announce rfl
  | requestCancel | remove removal => exact .announce rfl
  | commit index discarded =>
    simp only [act]
    split
    · trivial
    · rename_i writer hwriter
      split
      · rename_i hfree
        exact .commit hwriter hfree
      · trivial

lemma ActStep.of_act {s s' : State σ} {action : Action σ} {event : Option (Event σ)}
    (hact : s.act action = .next s' event) : ActStep s action s' event := by
  have hyields := @act_yields σ s action
  rw [hact] at hyields
  exact hyields

end Iris.Building
