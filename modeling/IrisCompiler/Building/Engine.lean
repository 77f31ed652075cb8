import IrisCompiler.Library.PointerGraph
import Mathlib.Data.List.Perm.Basic
import Mathlib.Logic.Function.Basic

/-!
# The query engine

`building::engine::QueryEngine` answers queries over a set of inputs and caches what it computes.
Any number of snapshots run queries at the same time, each on its own thread; inputs change only
when no snapshot is alive.

The model is a system of atomic steps, one for each stretch of code that the engine runs under a
lock: the cancellation check, the read and the upgradable-read block of `query_core`, one
dependency of `verify_core`, one read or demand of a query body, `fulfill_and_store`, the cleanup of
`query` with its hand-off, and the wait on a future.  What a thread does between two of these
touches only its own stack of frames and is part of the step before it.  `Promise::transfer` follows
the cleanup's lock at once and only the blocked heir reads the slot it writes, so it belongs to the
cleanup's step.

Query bodies are trees that read inputs and demand queries through the engine.  A step that starts
a body is told which tree runs, so a body may be anything; the properties that need determinism fix
the tree.

Snapshot ids are natural numbers: the counter behind them is taken not to wrap around.
-/

namespace Iris.Building

open PointerGraph

/-- `QueryKey`: inputs and derived queries. -/
inductive QueryKey (I Q : Type) where
  | input (key : I)
  | derived (query : Q)
  deriving DecidableEq

/-- The keys and values of one engine, and the ways in which it removes inputs. -/
structure Schema where
  /-- Keys of `InputStorage`. -/
  Input : Type
  /-- What is stored for an input. -/
  InputValue : Type
  /-- Keys of `DerivedStorage`. -/
  Query : Type
  /-- What a query computes. -/
  Value : Type
  /-- `FileId`, which `MissingContent` names. -/
  File : Type
  /-- What is removed by `remove_file` and `remove_foreign_file`. -/
  Removal : Type
  /-- What a removal leaves of an input that is stored; `none` when the input goes. -/
  edit : Removal → Input → InputValue → Option InputValue
  /-- Whether a removal discards the entry of a query: an entry in progress, or one with these
  dependencies. -/
  discards : Removal → (Input → Option InputValue) → Query →
    Option (List (QueryKey Input Query)) → Bool
  [inputEq : DecidableEq Input]
  [inputValueEq : DecidableEq InputValue]
  [queryEq : DecidableEq Query]
  [valueEq : DecidableEq Value]

attribute [instance] Schema.inputEq Schema.inputValueEq Schema.queryEq Schema.valueEq

/-- `QueryError`. -/
inductive QueryError (σ : Schema) where
  | Cancelled
  | Cycle (stack : List σ.Query)
  | MissingContent (fileId : σ.File)
  | Unverifiable

/-- `QueryResult`. -/
abbrev QueryResult (σ : Schema) := Except (QueryError σ) σ.Value

/-- A query body: what it does next, given what the engine answered so far. -/
inductive Body (σ : Schema) where
  | ret (result : QueryResult σ)
  | panic
  | read (input : σ.Input) (next : Option σ.InputValue → Body σ)
  | demand (query : σ.Query) (next : QueryResult σ → Body σ)

abbrev SnapshotId := ℕ

structure Trace where
  built : ℕ
  changed : ℕ
  deriving DecidableEq

/-- `DerivedState`.  A waiter is its snapshot: a snapshot waits on one future at a time, whose slot
is in `State.slots`. -/
inductive DerivedState (σ : Schema) where
  | NotComputed
  | InProgress (id : SnapshotId) (waiters : List SnapshotId)
  | Computed (computed : σ.Value) (trace : Trace) (dependencies : List (QueryKey σ.Input σ.Query))

structure InputState (σ : Schema) where
  value : σ.InputValue
  changed : ℕ

/-- `promise::State`. -/
inductive Slot (σ : Schema) where
  | Empty
  | Full (value : σ.Value)
  | Transferred
  | Dead

/-- How `query_core` ended. -/
inductive Outcome (σ : Schema) where
  | result (result : QueryResult σ)
  | panicked

/-! ## Frames -/

/-- The cached entry that `query_core` takes out to verify it. -/
structure Cached (σ : Schema) where
  computed : σ.Value
  trace : Trace
  dependencies : List (QueryKey σ.Input σ.Query)

/-- Where the thread stands inside the query of a frame. -/
inductive Pc (σ : Schema) where
  /-- `query_core`, at the cancellation check. -/
  | start
  /-- `query_core`, at `shard.read()`. -/
  | readPath
  /-- `query_core`, at `shard.upgradable_read()`. -/
  | upgradePath
  /-- `wait_core`, in `future.wait()`. -/
  | wait
  /-- `verify_core`, with the dependencies that are left and the latest change so far. -/
  | verify (cached : Cached σ) (todo : List (QueryKey σ.Input σ.Query)) (latest : ℕ)
  /-- `verify_core`, while a dependency runs. -/
  | verifyDemand (cached : Cached σ) (query : σ.Query)
      (todo : List (QueryKey σ.Input σ.Query)) (latest : ℕ)
  /-- `verify_core`, at the `computed_trace` after a dependency ran. -/
  | verifyTrace (cached : Cached σ) (query : σ.Query)
      (todo : List (QueryKey σ.Input σ.Query)) (latest : ℕ)
  /-- `compute_core`, at the cancellation check. -/
  | compute (previous : Option (σ.Value × Trace))
  /-- `compute_core`, inside the body. -/
  | body (previous : Option (σ.Value × Trace)) (tree : Body σ)
  /-- `compute_core`, while a query that the body demanded runs. -/
  | bodyDemand (previous : Option (σ.Value × Trace)) (query : σ.Query)
      (next : QueryResult σ → Body σ)
  /-- `fulfill_and_store`. -/
  | store (computed : σ.Value) (trace : Trace) (dependencies : List (QueryKey σ.Input σ.Query))
  /-- `query`, after `query_core` returned or unwound. -/
  | leave (outcome : Outcome σ)

/-- `QueryFrame`, with the local variables of the functions that run on it. -/
structure Frame (σ : Schema) where
  query : σ.Query
  inProgress : Bool
  verifying : Bool
  dependencies : List (QueryKey σ.Input σ.Query)
  unavailableDependency : Option (QueryError σ)
  revision : ℕ
  pc : Pc σ

namespace Frame

variable {σ : Schema}

/-- `QueryFrame::new`. -/
def new (query : σ.Query) : Frame σ :=
  { query, inProgress := false, verifying := false, dependencies := [],
    unavailableDependency := none, revision := 0, pc := .start }

/-- `QueryFrame::record`; the set is a list without repetitions. -/
def record (self : Frame σ) (dependency : QueryKey σ.Input σ.Query) : Frame σ :=
  if self.verifying then self
  else { self with dependencies := self.dependencies.insert dependency }

/-- `QueryFrame::record_unavailable`. -/
def recordUnavailable (self : Frame σ) (error : QueryError σ) : Frame σ :=
  if self.verifying || self.unavailableDependency.isSome then self
  else
    match error with
    | .Unverifiable => { self with unavailableDependency := some .Unverifiable }
    | .Cancelled => { self with unavailableDependency := some .Cancelled }
    | _ => { self with unavailableDependency := none }

end Frame

/-! ## The state of the engine -/

/-- A call that is blocked on `query_lock.write()`. -/
inductive Writer (σ : Schema) where
  /-- `set_input_transaction`. -/
  | setInput (key : σ.Input) (value : σ.InputValue)
  /-- `request_cancel`. -/
  | requestCancel
  /-- `remove_file` or `remove_foreign_file`. -/
  | remove (removal : σ.Removal)

structure State (σ : Schema) where
  /-- `InputStorage`. -/
  inputs : σ.Input → Option (InputState σ)
  /-- `DerivedStorage`; a key that is not in its map is `NotComputed`. -/
  derived : σ.Query → DerivedState σ
  revision : ℕ
  cancelled : Bool
  writers : List (Writer σ)
  graph : Graph SnapshotId
  nextSnapshot : SnapshotId
  /-- The snapshots that are alive, each with its stack of frames, innermost first. -/
  snapshots : SnapshotId → Option (List (Frame σ))
  /-- The slot of the future that each snapshot waits on. -/
  slots : SnapshotId → Slot σ

/-- What an observer sees of a step. -/
inductive Event (σ : Schema) where
  /-- `QueryEngine::query` returned; `outermost` when no frame is left. -/
  | returned (id : SnapshotId) (query : σ.Query) (outermost : Bool) (outcome : Outcome σ)

/-- What comes of an action. -/
inductive Step (σ : Schema) where
  /-- The action cannot be taken now. -/
  | disabled
  | next (state : State σ) (event : Option (Event σ))
  /-- An `assert!`, `expect` or `unreachable!` of the engine fails. -/
  | violation (message : String)

/-! ## `SnapshotGraph` -/

/-- `SnapshotGraph::add_edge`; `none` when following the successors never ends. -/
def addEdge (graph : Graph SnapshotId) (fromId toId : SnapshotId) :
    Option (Bool × Graph SnapshotId) :=
  (walk graph fromId (bound graph) toId).map fun found =>
    if found then (false, graph) else (true, graph.insert fromId toId)

/-- `SnapshotGraph::remove_edge`. -/
def removeEdge (graph : Graph SnapshotId) (fromId toId : SnapshotId) : Graph SnapshotId :=
  if graph.lookup fromId = some toId then graph.erase fromId else graph

/-- `QueryEngine::remove_waiter_edges`. -/
def removeWaiterEdges (graph : Graph SnapshotId) (toId : SnapshotId) (waiters : List SnapshotId) :
    Graph SnapshotId :=
  waiters.foldl (fun graph waiter => removeEdge graph waiter toId) graph

/-- The loop of `hand_off_waiter_edges`; `none` when its assertion fails. -/
def handOffLoop (fromId heirId : SnapshotId) :
    Graph SnapshotId → List SnapshotId → Option (Graph SnapshotId)
  | graph, [] => some graph
  | graph, waiter :: waiters =>
    match addEdge (removeEdge graph waiter fromId) waiter heirId with
    | some (true, graph) => handOffLoop fromId heirId graph waiters
    | _ => none

/-- `QueryEngine::hand_off_waiter_edges`. -/
def handOffWaiterEdges (graph : Graph SnapshotId) (fromId heirId : SnapshotId)
    (waiters : List SnapshotId) : Option (Graph SnapshotId) :=
  handOffLoop fromId heirId (removeEdge graph heirId fromId) waiters

/-! ## Steps of a snapshot -/

namespace State

variable {σ : Schema}

/-- The state `QueryEngine::default` starts in; the engine itself takes the first id. -/
def new : State σ :=
  { inputs := fun _ => none, derived := fun _ => .NotComputed, revision := 0, cancelled := false,
    writers := [], graph := ∅, nextSnapshot := 1, snapshots := fun _ => none,
    slots := fun _ => .Dead }

def setFrames (self : State σ) (id : SnapshotId) (frames : List (Frame σ)) : State σ :=
  { self with snapshots := Function.update self.snapshots id (some frames) }

@[simp]
theorem snapshots_setFrames_self (self : State σ) (id : SnapshotId) (frames : List (Frame σ)) :
    (self.setFrames id frames).snapshots id = some frames := by simp [setFrames]

theorem snapshots_setFrames_of_ne (self : State σ) {id other : SnapshotId} (hne : other ≠ id)
    (frames : List (Frame σ)) :
    (self.setFrames id frames).snapshots other = self.snapshots other := by
  simp [setFrames, Function.update_of_ne hne]

def setDerived (self : State σ) (query : σ.Query) (state : DerivedState σ) : State σ :=
  { self with derived := Function.update self.derived query state }

def setSlot (self : State σ) (id : SnapshotId) (slot : Slot σ) : State σ :=
  { self with slots := Function.update self.slots id slot }

/-- `computed_trace`. -/
def computedTrace (self : State σ) (query : σ.Query) : Option Trace :=
  match self.derived query with
  | .Computed _ trace _ => some trace
  | _ => none

/-- `create_future` and, where it fails, the return of its error from `query_core`. -/
def createFuture (self : State σ) (id : SnapshotId) (frame : Frame σ) (rest : List (Frame σ))
    (toId : SnapshotId) (waiters : List SnapshotId) : Step σ :=
  let fail (error : QueryError σ) :=
    Step.next (self.setFrames id ({ frame with pc := .leave (.result (.error error)) } :: rest))
      none
  if (frame :: rest).any Frame.verifying then fail .Unverifiable
  else
    match addEdge self.graph id toId with
    | none => .violation "add_edge does not return"
    | some (false, _) => fail (.Cycle ((frame :: rest).map Frame.query).reverse)
    | some (true, graph) =>
      .next ((({ self with graph }.setDerived frame.query (.InProgress toId (waiters ++ [id]))
        ).setSlot id .Empty).setFrames id ({ frame with pc := .wait } :: rest)) none

/-- `with_query` and `query`, up to `query_core`: the parent records the query and a frame is
pushed. -/
def push (self : State σ) (id : SnapshotId) (parent : Frame σ) (rest : List (Frame σ))
    (query : σ.Query) : State σ :=
  self.setFrames id (Frame.new query :: parent.record (.derived query) :: rest)

/-- `fulfill_and_store`. -/
def fulfillAndStore (self : State σ) (query : σ.Query) (computed : σ.Value) (trace : Trace)
    (dependencies : List (QueryKey σ.Input σ.Query)) : Option (State σ) :=
  let stored := DerivedState.Computed computed trace dependencies
  match self.derived query with
  | .InProgress id waiters =>
    some ({ self with
      graph := removeWaiterEdges self.graph id waiters
      slots := fun waiter => if waiter ∈ waiters then .Full computed else self.slots waiter
      }.setDerived query stored)
  | .NotComputed => some (self.setDerived query stored)
  | .Computed .. => none

/-- The cleanup of `query` for a frame that owns its entry; an error is a panic of the engine. -/
def release (self : State σ) (query : σ.Query) : Except String (State σ) :=
  match self.derived query with
  | .NotComputed => .ok self
  | .Computed .. => .error "invariant violated: expected InProgress"
  | .InProgress id waiters =>
    match waiters.getLast? with
    | none => .ok (self.setDerived query .NotComputed)
    | some heir =>
      match handOffWaiterEdges self.graph id heir waiters.dropLast with
      | none => .error "invariant violated: heir has no outgoing edge"
      | some graph =>
        .ok (({ self with graph }.setDerived query (.InProgress heir waiters.dropLast)).setSlot
          heir .Transferred)

/-- `query_core`, after `verify_core` failed. -/
def verifyFailed (frame : Frame σ) (cached : Cached σ) : QueryError σ → Frame σ
  | .Unverifiable =>
    { frame with verifying := false, pc := .compute (some (cached.computed, cached.trace)) }
  | error => { frame with verifying := false, pc := .leave (.result (.error error)) }

/-- What the caller of `query` does with its outcome.  A frame below another one is at one of its
two demands. -/
def resume (parent : Frame σ) : Outcome σ → Frame σ
  | .panicked => { parent with pc := .leave .panicked }
  | .result (.ok value) =>
    match parent.pc with
    | .verifyDemand cached query todo latest =>
      { parent with pc := .verifyTrace cached query todo latest }
    | .bodyDemand previous _ next => { parent with pc := .body previous (next (.ok value)) }
    | _ => parent
  | .result (.error error) =>
    let parent := parent.recordUnavailable error
    match parent.pc with
    | .verifyDemand cached _ _ _ => verifyFailed parent cached error
    | .bodyDemand previous _ next => { parent with pc := .body previous (next (.error error)) }
    | _ => parent

/-- The end of `query`: the frame is popped and its caller goes on. -/
def pop (self : State σ) (id : SnapshotId) (frame : Frame σ) (rest : List (Frame σ))
    (outcome : Outcome σ) : Step σ :=
  match rest with
  | [] => .next (self.setFrames id []) (some (.returned id frame.query true outcome))
  | parent :: rest =>
    .next (self.setFrames id (resume parent outcome :: rest))
      (some (.returned id frame.query false outcome))

/-- The cleanup of `query`, which a frame that stored its value, or never claimed it, skips. -/
def cleanup (self : State σ) (frame : Frame σ) (outcome : Outcome σ) : Except String (State σ) :=
  match outcome with
  | .result (.ok _) => .ok self
  | _ => if frame.inProgress then self.release frame.query else .ok self

/-- The `changed` timestamp that `compute_core` stores: a value that is equal to the cached one
keeps the cached one's. -/
def changedAt (previous : Option (σ.Value × Trace)) (computed : σ.Value) (revision : ℕ) : ℕ :=
  match previous with
  | some (value, trace) => if computed = value then trace.changed else revision
  | none => revision

/-- One step of the innermost frame.  `tree` is the body that runs when one is started, and `order`
the order in which `LocalState::dependencies` lists the set of a frame. -/
def stepFrame (self : State σ) (id : SnapshotId) (frame : Frame σ) (rest : List (Frame σ))
    (tree : Body σ) (order : List (QueryKey σ.Input σ.Query)) : Step σ :=
  let goto (frame : Frame σ) := Step.next (self.setFrames id (frame :: rest)) none
  let fail (error : QueryError σ) := goto { frame with pc := .leave (.result (.error error)) }
  let done (value : σ.Value) := goto { frame with pc := .leave (.result (.ok value)) }
  let claim (claimed : Frame σ) :=
    Step.next
      ((self.setDerived frame.query (.InProgress id [])).setFrames id (claimed :: rest)) none
  match frame.pc with
  | .start =>
    if self.cancelled then fail .Cancelled
    else goto { frame with revision := self.revision, pc := .readPath }
  | .readPath =>
    match self.derived frame.query with
    | .Computed computed trace _ =>
      if trace.built = frame.revision then done computed
      else goto { frame with pc := .upgradePath }
    | .InProgress owner waiters => self.createFuture id frame rest owner waiters
    | .NotComputed => goto { frame with pc := .upgradePath }
  | .upgradePath =>
    match self.derived frame.query with
    | .NotComputed => claim { frame with inProgress := true, pc := .compute none }
    | .InProgress owner waiters => self.createFuture id frame rest owner waiters
    | .Computed computed trace dependencies =>
      if trace.built = frame.revision then done computed
      else
        claim { frame with
          inProgress := true
          verifying := true
          pc := .verify ⟨computed, trace, dependencies⟩ dependencies 0 }
  | .wait =>
    match self.slots id with
    | .Empty => .disabled
    | .Full value =>
      .next ((self.setSlot id .Dead).setFrames id
        ({ frame with pc := .leave (.result (.ok value)) } :: rest)) none
    | .Transferred =>
      .next ((self.setSlot id .Dead).setFrames id
        ({ frame with inProgress := true, pc := .compute none } :: rest)) none
    | .Dead => fail .Cancelled
  | .verify cached [] latest =>
    if latest ≤ cached.trace.built then
      goto { frame with
        verifying := false
        pc := .store cached.computed { cached.trace with built := frame.revision }
          cached.dependencies }
    else
      goto { frame with
        verifying := false, pc := .compute (some (cached.computed, cached.trace)) }
  | .verify cached (.input key :: todo) latest =>
    match self.inputs key with
    | none => goto { frame with pc := .verify cached todo latest }
    | some state => goto { frame with pc := .verify cached todo (max latest state.changed) }
  | .verify cached (.derived query :: todo) latest =>
    let demand :=
      Step.next
        (self.push id { frame with pc := .verifyDemand cached query todo latest } rest query)
        none
    match self.computedTrace query with
    | some trace =>
      if trace.built = frame.revision then
        goto { frame with pc := .verify cached todo (max latest trace.changed) }
      else demand
    | none => demand
  | .verifyTrace cached query todo latest =>
    match self.computedTrace query with
    | some trace => goto { frame with pc := .verify cached todo (max latest trace.changed) }
    | none => goto { frame with pc := .verify cached todo latest }
  | .compute previous =>
    if self.cancelled then fail .Cancelled
    else goto { frame with pc := .body previous tree }
  | .body _ (.ret (.error error)) => fail error
  | .body previous (.ret (.ok computed)) =>
    match frame.unavailableDependency with
    | some error =>
      goto { frame with
        unavailableDependency := none, pc := .leave (.result (.error error)) }
    | none =>
      if order.isPerm frame.dependencies then
        let changed := changedAt previous computed frame.revision
        goto { frame with pc := .store computed ⟨frame.revision, changed⟩ order }
      else .disabled
  | .body _ .panic => goto { frame with pc := .leave .panicked }
  | .body previous (.read key next) =>
    let value := (self.inputs key).map InputState.value
    goto { frame.record (.input key) with pc := .body previous (next value) }
  | .body previous (.demand query next) =>
    .next (self.push id { frame with pc := .bodyDemand previous query next } rest query) none
  | .store computed trace dependencies =>
    match self.fulfillAndStore frame.query computed trace dependencies with
    | none => .violation "invariant violated: expected InProgress"
    | some stored =>
      .next (stored.setFrames id ({ frame with pc := .leave (.result (.ok computed)) } :: rest))
        none
  | .leave outcome =>
    match self.cleanup frame outcome with
    | .error message => .violation message
    | .ok released => released.pop id frame rest outcome
  -- another frame is above this one
  | .verifyDemand .. | .bodyDemand .. => .disabled

/-! ## Actions -/

/-- No snapshot holds the shared side of `query_lock`. -/
def queryLockIsFree (self : State σ) : Bool :=
  (List.range self.nextSnapshot).all fun id => (self.snapshots id).isNone

/-- `discard_query_state` for one entry. -/
def discardQueryState (self : State σ) (query : σ.Query) : State σ :=
  match self.derived query with
  | .InProgress id waiters =>
    { self with graph := removeWaiterEdges self.graph id waiters }.setDerived query .NotComputed
  | _ => self.setDerived query .NotComputed

/-- The inputs after a removal: those that it changes are stamped with the new revision. -/
def editInputs (self : State σ) (removal : σ.Removal) (key : σ.Input) : Option (InputState σ) :=
  match self.inputs key with
  | none => none
  | some state =>
    match σ.edit removal key state.value with
    | none => none
    | some value => if value = state.value then some state else some ⟨value, self.revision + 1⟩

/-- A writer that holds `query_lock`: the rest of `set_input_transaction`, `request_cancel` or a
removal.  `discarded` lists the entries that the loops of a removal over the shards collect. -/
def commit (self : State σ) (discarded : List σ.Query) : Writer σ → State σ
  | .requestCancel => { self with cancelled := false }
  | .setInput key value =>
    if (self.inputs key).any (fun state => state.value = value) then
      { self with cancelled := false }
    else
      { self with
        inputs := Function.update self.inputs key (some ⟨value, self.revision + 1⟩)
        revision := self.revision + 1
        cancelled := false }
  | .remove removal =>
    let edited := { self with
      inputs := self.editInputs removal
      revision := self.revision + 1
      cancelled := false }
    discarded.foldl discardQueryState edited

end State

/-- What the threads around the engine can do. -/
inductive Action (σ : Schema) where
  /-- `QueryEngine::snapshot`. -/
  | snapshot
  /-- A snapshot is dropped. -/
  | drop (id : SnapshotId)
  /-- A snapshot is asked for a query outside of any frame. -/
  | query (id : SnapshotId) (query : σ.Query)
  /-- A snapshot takes its next step. -/
  | step (id : SnapshotId) (tree : Body σ) (order : List (QueryKey σ.Input σ.Query))
  /-- `set_input`, up to `query_lock.write()`. -/
  | setInput (key : σ.Input) (value : σ.InputValue)
  /-- `request_cancel`, up to `query_lock.write()`. -/
  | requestCancel
  /-- `remove_file` or `remove_foreign_file`, up to `query_lock.write()`. -/
  | remove (removal : σ.Removal)
  /-- A blocked writer gets `query_lock`. -/
  | commit (index : ℕ) (discarded : List σ.Query)

/-- What comes of an action in a state. -/
def State.act {σ : Schema} (self : State σ) : Action σ → Step σ
  | .snapshot =>
    .next { self with
      nextSnapshot := self.nextSnapshot + 1
      snapshots := Function.update self.snapshots self.nextSnapshot (some []) } none
  | .drop id =>
    match self.snapshots id with
    | some [] => .next { self with snapshots := Function.update self.snapshots id none } none
    | _ => .disabled
  | .query id query =>
    match self.snapshots id with
    | some [] => .next (self.setFrames id [Frame.new query]) none
    | _ => .disabled
  | .step id tree order =>
    match self.snapshots id with
    | some (frame :: rest) => self.stepFrame id frame rest tree order
    | _ => .disabled
  | .setInput key value =>
    if (self.inputs key).any (fun state => state.value = value) then .next self none
    else .next
      { self with cancelled := true, writers := self.writers ++ [.setInput key value] } none
  | .requestCancel =>
    .next { self with cancelled := true, writers := self.writers ++ [.requestCancel] } none
  | .remove removal =>
    .next { self with cancelled := true, writers := self.writers ++ [.remove removal] } none
  | .commit index discarded =>
    match self.writers[index]? with
    | none => .disabled
    | some writer =>
      if self.queryLockIsFree then
        .next ({ self with writers := self.writers.eraseIdx index }.commit discarded writer) none
      else .disabled

/-- A run of actions, each of which can be taken. -/
def State.run {σ : Schema} (self : State σ) : List (Action σ) → Option (State σ)
  | [] => some self
  | action :: actions =>
    match self.act action with
    | .next state _ => state.run actions
    | _ => none

/-- The states that runs of permitted actions reach from a new engine. -/
inductive Reachable {σ : Schema} (permits : State σ → Action σ → Prop) : State σ → Prop
  | new : Reachable permits State.new
  | act {s s' : State σ} {event : Option (Event σ)} (action : Action σ) :
      Reachable permits s → permits s action → s.act action = .next s' event → Reachable permits s'

theorem Reachable.run {σ : Schema} {s s' : State σ} (h : Reachable (fun _ _ => True) s) :
    ∀ {actions : List (Action σ)}, s.run actions = some s' → Reachable (fun _ _ => True) s'
  | [], hrun => Option.some.inj hrun ▸ h
  | action :: actions, hrun => by
    rw [State.run] at hrun
    split at hrun
    · rename_i next event hact
      exact Reachable.run (.act action h trivial hact) hrun
    · cases hrun

end Iris.Building
