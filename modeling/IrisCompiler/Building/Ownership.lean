import IrisCompiler.Building.Steps
import IrisCompiler.Library.HandOff
import Mathlib.Tactic.Common

/-!
# Who owns a query in progress

An `InProgress` entry names a snapshot, and that snapshot has a frame that knows it: the shared map
and the thread-local flags `in_progress` are two copies of one fact.  The snapshots that found an
entry taken are queued in it, and the graph of waits repeats the queues.

The engine is an instance of the hand-off protocol of the library: `State.protocol` forgets
everything but owners, queues and waits.  Most steps leave it alone (`Inv.setFrames`); each of the
others is one move of the protocol.  What the protocol does not see is that a stack of frames is
well formed (`StackWf`).
-/

namespace Iris.Building

open PointerGraph Relation Iris.Building.Frame Function List Pc

/-! ## The graph of waits -/

section Graph

variable {graph : Graph SnapshotId} {fromId toId heirId a b : SnapshotId}

lemma edge_removeEdge :
    Edge (removeEdge graph fromId toId) a b ↔ Edge graph a b ∧ ¬ (a = fromId ∧ b = toId) := by
  rw [removeEdge]
  split
  · rename_i hedge
    rw [edge_erase]
    constructor
    · rintro ⟨hne, h⟩
      exact ⟨h, fun heq => hne heq.1⟩
    · rintro ⟨h, hnot⟩
      refine ⟨?_, h⟩
      rintro rfl
      exact hnot ⟨rfl, Option.some.inj (h.symm.trans hedge)⟩
  · rename_i hedge
    constructor
    · intro h
      refine ⟨h, ?_⟩
      rintro ⟨rfl, rfl⟩
      exact hedge h
    · exact And.left

variable {waiters : List SnapshotId}

lemma edge_removeWaiterEdges :
    Edge (removeWaiterEdges graph toId waiters) a b ↔
      Edge graph a b ∧ ¬ (a ∈ waiters ∧ b = toId) := by
  induction waiters generalizing graph with
  | nil => simp [removeWaiterEdges]
  | cons waiter waiters ih =>
    rw [removeWaiterEdges, foldl_cons, ← removeWaiterEdges, ih, edge_removeEdge,
      mem_cons]
    tauto

/-- `add_edge` on a graph without cycles returns, and rejects exactly the edges that would close
one. -/
lemma addEdge_spec (hacyclic : Acyclic (Edge graph)) (fromId toId : SnapshotId) :
    (addEdge graph fromId toId = some (false, graph) ∧ ReflTransGen (Edge graph) toId fromId) ∨
      (addEdge graph fromId toId = some (true, graph.insert fromId toId) ∧
        ¬ ReflTransGen (Edge graph) toId fromId) := by
  obtain ⟨found, hwalk, hfound⟩ := walk_bound hacyclic fromId toId
  cases found with
  | true => exact Or.inl ⟨by simp [addEdge, hwalk], hfound.mp rfl⟩
  | false => exact Or.inr ⟨by simp [addEdge, hwalk], fun h => by simpa using hfound.mpr h⟩

/-- An edge to a node without outgoing edges is never rejected. -/
lemma addEdge_sink (hsink : ∀ b, ¬ Edge graph toId b) (hne : fromId ≠ toId) :
    addEdge graph fromId toId = some (true, graph.insert fromId toId) := by
  have hlookup : graph.lookup toId = none := by
    cases h : graph.lookup toId with
    | none => rfl
    | some next => exact absurd h (hsink next)
  simp [addEdge, bound, walk, hne.symm, hlookup]

lemma handOffLoop_spec (hnodup : waiters.Nodup) (hheir : heirId ∉ waiters)
    (hsink : ∀ b, ¬ Edge graph heirId b) :
    ∃ graph', handOffLoop fromId heirId graph waiters = some graph' ∧
      ∀ a b, Edge graph' a b ↔ (a ∈ waiters ∧ b = heirId) ∨ (a ∉ waiters ∧ Edge graph a b) := by
  induction waiters generalizing graph with
  | nil => exact ⟨graph, rfl, by simp⟩
  | cons waiter waiters ih =>
    obtain ⟨hnotin, hnodup⟩ := nodup_cons.mp hnodup
    obtain ⟨hne, hheir⟩ : heirId ≠ waiter ∧ heirId ∉ waiters := by simpa using hheir
    have hsink' : ∀ b, ¬ Edge (removeEdge graph waiter fromId) heirId b :=
      fun b h => hsink b (edge_removeEdge.mp h).1
    have hadd := addEdge_sink hsink' (Ne.symm hne)
    have hsink'' :
        ∀ b, ¬ Edge ((removeEdge graph waiter fromId).insert waiter heirId) heirId b := by
      intro b h
      rcases edge_insert.mp h with ⟨heq, -⟩ | ⟨-, h⟩
      · exact hne heq
      · exact hsink' b h
    obtain ⟨graph', hloop, hedges⟩ := ih hnodup hheir hsink''
    refine ⟨graph', ?_, fun a b => ?_⟩
    · rw [handOffLoop, hadd]
      exact hloop
    · rw [hedges, edge_insert, edge_removeEdge]
      by_cases ha : a = waiter
      · subst ha
        simp [hnotin]
      · simp [ha]

/-- **The hand-off moves the edges of the queue to the heir**, whose own edge goes. -/
lemma handOffWaiterEdges_spec (hnodup : waiters.Nodup) (hheir : heirId ∉ waiters)
    (honly : ∀ b, Edge graph heirId b → b = fromId) :
    ∃ graph', handOffWaiterEdges graph fromId heirId waiters = some graph' ∧
      ∀ a b, Edge graph' a b ↔
        (a ∈ waiters ∧ b = heirId) ∨ (a ∉ waiters ∧ a ≠ heirId ∧ Edge graph a b) := by
  have hsink : ∀ b, ¬ Edge (removeEdge graph heirId fromId) heirId b := by
    intro b h
    obtain ⟨hedge, hnot⟩ := edge_removeEdge.mp h
    exact hnot ⟨rfl, honly b hedge⟩
  obtain ⟨graph', hloop, hedges⟩ := handOffLoop_spec hnodup hheir hsink
  refine ⟨graph', hloop, fun a b => ?_⟩
  rw [hedges, edge_removeEdge]
  by_cases ha : a = heirId
  · subst ha
    simpa [hheir] using honly b
  · simp [ha]

end Graph

/-! ## Stacks of frames -/

variable {σ : Schema}

/-- The thread is blocked in `Future::wait`. -/
def Pc.isWait : Pc σ → Bool
  | .wait => true
  | _ => false

/-- Another frame runs above this one. -/
def Pc.isDemand : Pc σ → Bool
  | .verifyDemand .. | .bodyDemand .. => true
  | _ => false

/-- `query_core` returned a value. -/
def Pc.isOk : Pc σ → Bool
  | .leave (.result (.ok _)) => true
  | _ => false

/-- The frame is marked `in_progress` and has neither stored its value nor released its entry. -/
def Frame.owning (self : Frame σ) : Bool := self.inProgress && !self.pc.isOk

/-- The flag `in_progress`, by program counter: it is set by a claim or by a transfer. -/
def Frame.FlagWf (self : Frame σ) : Prop :=
  match self.pc with
  | .start | .readPath | .upgradePath | .wait => self.inProgress = false
  | .leave _ => True
  | _ => self.inProgress = true

/-- The queries of the frames that are marked `in_progress`. -/
def inProgressQueries (frames : List (Frame σ)) : List σ.Query :=
  (frames.filter Frame.inProgress).map Frame.query

/-- A stack of frames: all but the innermost frame are at a demand, and no query is in progress
twice. -/
structure StackWf (frames : List (Frame σ)) : Prop where
  top : ∀ frame ∈ frames.head?, frame.pc.isDemand = false
  below : ∀ frame ∈ frames.tail, frame.pc.isDemand = true
  flags : ∀ frame ∈ frames, frame.FlagWf
  nodup : (inProgressQueries frames).Nodup

/-- Some frame of the stack owns the entry of `query`. -/
def OwnsIn (frames : List (Frame σ)) (query : σ.Query) : Prop :=
  ∃ frame ∈ frames, frame.query = query ∧ frame.owning = true

/-- The query that the thread of the stack is blocked on. -/
def waitsIn : List (Frame σ) → Option σ.Query
  | [] => none
  | frame :: _ => if frame.pc.isWait then some frame.query else none

variable {query : σ.Query} {frame next : Frame σ} {rest : List (Frame σ)}

@[simp]
lemma ownsIn_nil : ¬ OwnsIn [] query := by simp [OwnsIn]

@[simp]
lemma ownsIn_cons :
    OwnsIn (frame :: rest) query ↔
      (frame.query = query ∧ frame.owning = true) ∨ OwnsIn rest query := by
  simp [OwnsIn]

lemma stackWf_nil : StackWf ([] : List (Frame σ)) :=
  ⟨by simp, by simp, by simp, by simp [inProgressQueries]⟩

lemma StackWf.tail (h : StackWf (frame :: rest)) :
    (∀ below ∈ rest, below.pc.isDemand = true) ∧ (∀ below ∈ rest, below.FlagWf) ∧
      (inProgressQueries rest).Nodup := by
  refine ⟨h.below, fun below hmem => h.flags below (mem_cons_of_mem _ hmem), ?_⟩
  have hnodup := h.nodup
  rw [inProgressQueries, filter_cons] at hnodup
  split at hnodup
  · exact (nodup_cons.mp hnodup).2
  · exact hnodup

/-- What is in progress depends on the query and the flag of a frame. -/
lemma inProgressQueries_congr (hquery : next.query = frame.query)
    (hflag : next.inProgress = frame.inProgress) (rest : List (Frame σ)) :
    inProgressQueries (next :: rest) = inProgressQueries (frame :: rest) := by
  simp only [inProgressQueries, filter_cons, hflag]
  split <;> simp [hquery]

/-- The innermost frame is replaced by one of the same query with the same flag. -/
lemma StackWf.replace (h : StackWf (frame :: rest)) (hquery : next.query = frame.query)
    (hflag : next.inProgress = frame.inProgress) (htop : next.pc.isDemand = false)
    (hwf : next.FlagWf) : StackWf (next :: rest) where
  top := by simpa using htop
  below := h.below
  flags := forall_mem_cons.mpr ⟨hwf, h.tail.2.1⟩
  nodup := by
    rw [inProgressQueries_congr hquery hflag]
    exact h.nodup

/-- A frame below another one is in progress. -/
lemma inProgress_of_isDemand (hwf : frame.FlagWf) (hdemand : frame.pc.isDemand = true) :
    frame.inProgress = true ∧ frame.owning = true := by
  unfold FlagWf at hwf
  unfold owning
  cases hpc : frame.pc <;> simp_all [isDemand, isOk]

/-- The frames below the innermost one own what they have in progress. -/
lemma StackWf.ownsIn_tail (h : StackWf (frame :: rest)) (hmem : query ∈ inProgressQueries rest) :
    OwnsIn rest query := by
  obtain ⟨below, hbelow, rfl⟩ := mem_map.mp hmem
  have hrest := (mem_filter.mp hbelow).1
  exact ⟨below, hrest, rfl,
    (inProgress_of_isDemand (h.tail.2.1 below hrest) (h.tail.1 below hrest)).2⟩

/-- The innermost frame takes the query in progress. -/
lemma StackWf.claim (h : StackWf (frame :: rest)) (hquery : next.query = frame.query)
    (hfree : ¬ OwnsIn rest frame.query) (hflag : next.inProgress = true)
    (htop : next.pc.isDemand = false) (hwf : next.FlagWf) :
    StackWf (next :: rest) where
  top := by simpa using htop
  below := h.below
  flags := forall_mem_cons.mpr ⟨hwf, h.tail.2.1⟩
  nodup := by
    rw [inProgressQueries, filter_cons_of_pos hflag, map_cons, nodup_cons, hquery]
    exact ⟨fun hmem => hfree (h.ownsIn_tail hmem), h.tail.2.2⟩

/-- The innermost frame demands a query, whose frame is pushed. -/
lemma StackWf.push {parent : Frame σ} (h : StackWf (frame :: rest))
    (hquery : parent.query = frame.query) (hflag : parent.inProgress = frame.inProgress)
    (hdemand : parent.pc.isDemand = true) (hwf : parent.FlagWf) (query : σ.Query) :
    StackWf (new query :: parent :: rest) where
  top := by simp [Frame.new, Pc.isDemand]
  below := forall_mem_cons.mpr ⟨hdemand, h.below⟩
  flags := forall_mem_cons.mpr ⟨rfl, forall_mem_cons.mpr ⟨hwf, h.tail.2.1⟩⟩
  nodup := by
    show (inProgressQueries (parent :: rest)).Nodup
    rw [inProgressQueries_congr hquery hflag]
    exact h.nodup

/-! ## The protocol behind a state -/

/-- How the wait on a slot stands. -/
def Slot.status : Slot σ → HandOff.Status
  | .Empty => .empty
  | .Full _ => .full
  | .Transferred => .transferred
  | .Dead => .abandoned

/-- Owners, queues and waits. -/
def State.protocol (self : State σ) : HandOff.Protocol SnapshotId σ.Query where
  entries query :=
    match self.derived query with
    | .InProgress id waiters => some (id, waiters)
    | _ => none
  owns id query := ∃ frames, self.snapshots id = some frames ∧ OwnsIn frames query
  waits id := (self.snapshots id).bind fun frames =>
    (waitsIn frames).map fun query => (query, (self.slots id).status)
  edge := Edge self.graph

/-- **The ownership invariant.** -/
structure Inv (s : State σ) : Prop where
  fresh : ∀ id, s.nextSnapshot ≤ id → s.snapshots id = none
  stackWf : ∀ id frames, s.snapshots id = some frames → StackWf frames
  protocol : HandOff.Inv s.protocol

section Protocol

variable {s : State σ} {id : SnapshotId} {query : σ.Query}

variable {owner other : SnapshotId} {waiters : List SnapshotId} {frames next stack : List (Frame σ)}
  {t : State σ}

lemma entries_eq_some :
    s.protocol.entries query = some (owner, waiters) ↔
      s.derived query = .InProgress owner waiters := by
  simp only [State.protocol]
  split
  · rename_i hstate
    simp [hstate]
  · rename_i hstate
    simpa using fun h => hstate _ _ h

lemma owns_iff (hs : s.snapshots id = some frames) :
    s.protocol.owns id query ↔ OwnsIn frames query := by
  simp [State.protocol, hs]

lemma waits_eq (hs : s.snapshots id = some frames) :
    s.protocol.waits id = (waitsIn frames).map fun query => (query, (s.slots id).status) := by
  simp [State.protocol, hs]

/-- A running snapshot waits for nothing. -/
lemma waits_eq_none {frame : Frame σ} {rest : List (Frame σ)}
    (hs : s.snapshots id = some (frame :: rest)) (hrun : frame.pc.isWait = false) :
    s.protocol.waits id = none := by
  rw [waits_eq hs]
  simp [waitsIn, hrun]

/-- Writing one entry. -/
lemma entries_setDerived (state : DerivedState σ) (key : σ.Query) :
    (s.setDerived query state).protocol.entries key = if key = query then
      (match state with
        | .InProgress id waiters => some (id, waiters)
        | _ => none)
    else s.protocol.entries key := by
  by_cases hkey : key = query
  · subst hkey
    simp [State.protocol, State.setDerived]
  · simp [State.protocol, State.setDerived, hkey]

lemma waits_eq_some {status : HandOff.Status} (h : s.protocol.waits id = some (query, status)) :
    ∃ frame rest, s.snapshots id = some (frame :: rest) ∧ frame.query = query ∧
      frame.pc = .wait ∧ (s.slots id).status = status := by
  simp only [State.protocol, Option.bind_eq_some_iff, Option.map_eq_some_iff] at h
  obtain ⟨frames, hframes, waited, hwaited, heq⟩ := h
  obtain ⟨rfl, hstatus⟩ := Prod.mk.inj heq
  cases frames with
  | nil => cases hwaited
  | cons frame rest =>
    cases hpc : frame.pc <;> simp [waitsIn, hpc, isWait] at hwaited
    exact ⟨frame, rest, hframes, hwaited, hpc, hstatus⟩

/-- Replacing the frames of one snapshot. -/
lemma owns_setFrames :
    (s.setFrames id frames).protocol.owns other query ↔
      if other = id then OwnsIn frames query else s.protocol.owns other query := by
  split
  · rename_i heq
    subst heq
    exact owns_iff (s.snapshots_setFrames_self _ _)
  · rename_i hne
    simp [State.protocol, s.snapshots_setFrames_of_ne hne]

lemma waits_setFrames_self (hwaits : waitsIn frames = none) :
    (s.setFrames id frames).protocol.waits id = none := by
  rw [waits_eq (s.snapshots_setFrames_self _ _), hwaits]
  rfl

lemma waits_setFrames_of_ne (hne : other ≠ id) :
    (s.setFrames id frames).protocol.waits other = s.protocol.waits other := by
  simp [State.protocol, State.setFrames, update_of_ne hne]

lemma waits_setSlot_of_ne {slot : Slot σ} (hne : other ≠ id) :
    ((s.setSlot id slot).setFrames id frames).protocol.waits other = s.protocol.waits other := by
  rw [waits_setFrames_of_ne hne]
  simp [State.protocol, State.setSlot, update_of_ne hne]

/-- The frames of one snapshot are replaced: stacks and ids stay well formed. -/
lemma Inv.withFrames (h : Inv s) (hs : s.snapshots id = some frames) (hnext : StackWf next)
    (ht : t.snapshots = s.snapshots) (hids : t.nextSnapshot = s.nextSnapshot)
    (hprotocol : HandOff.Inv (t.setFrames id next).protocol) : Inv (t.setFrames id next) := by
  refine ⟨fun other hother => ?_, fun other stack hstack => ?_, hprotocol⟩
  · have hnone := h.fresh other (hids ▸ hother)
    have hne : other ≠ id := by
      rintro rfl
      cases hs.symm.trans hnone
    rwa [t.snapshots_setFrames_of_ne hne, ht]
  · by_cases hne : other = id
    · subst hne
      obtain rfl : next = stack := by simpa using hstack
      exact hnext
    · rw [t.snapshots_setFrames_of_ne hne, ht] at hstack
      exact h.stackWf other stack hstack

/-- The frames of a snapshot change, what they own does not. -/
lemma owns_keep (hs : s.snapshots id = some frames) (ht : t.snapshots = s.snapshots)
    (howns : ∀ key, OwnsIn next key ↔ OwnsIn frames key) (other : SnapshotId) (key : σ.Query) :
    (t.setFrames id next).protocol.owns other key ↔ s.protocol.owns other key := by
  rw [owns_setFrames]
  split
  · rename_i heq
    subst heq
    rw [howns, owns_iff hs]
  · simp [State.protocol, ht]

/-- A snapshot that runs goes on to run. -/
lemma waits_keep (hidle : s.protocol.waits id = none) (hrun : waitsIn next = none)
    (ht : t.protocol.waits = s.protocol.waits) (other : SnapshotId) :
    (t.setFrames id next).protocol.waits other = s.protocol.waits other := by
  by_cases hne : other = id
  · subst hne
    rw [waits_setFrames_self hrun, hidle]
  · rw [waits_setFrames_of_ne hne, ht]

/-- **A step that touches only the frames of a running snapshot** and changes nothing about what
they own. -/
lemma Inv.setFrames (h : Inv s) (hs : s.snapshots id = some frames) (hnext : StackWf next)
    (howns : ∀ query, OwnsIn next query ↔ OwnsIn frames query) (hrun : waitsIn frames = none)
    (hrun' : waitsIn next = none) : Inv (s.setFrames id next) := by
  refine h.withFrames hs hnext rfl rfl (h.protocol.congr (fun _ => rfl) (owns_keep hs rfl howns)
    (waits_keep ?_ hrun' rfl) (fun _ _ => Iff.rfl))
  rw [waits_eq hs, hrun]
  rfl

/-! ## The steps that are moves of the protocol -/

variable {frame next : Frame σ} {rest : List (Frame σ)}

/-- The innermost frame comes to own its query. -/
lemma owns_gain (hs : s.snapshots id = some (frame :: rest)) (ht : t.snapshots = s.snapshots)
    (hbefore : frame.owning = false) (hquery : next.query = frame.query)
    (hafter : next.owning = true) (other : SnapshotId) (key : σ.Query) :
    (t.setFrames id (next :: rest)).protocol.owns other key ↔
      s.protocol.owns other key ∨ (other = id ∧ key = frame.query) := by
  rw [owns_setFrames]
  split
  · rename_i heq
    subst heq
    rw [owns_iff hs, ownsIn_cons, ownsIn_cons, hbefore, hafter, hquery]
    simp only [and_true, Bool.false_eq_true, and_false, false_or, true_and]
    rw [or_comm, eq_comm]
  · rename_i hne
    simp [State.protocol, ht, hne]

variable (h : Inv s) (hs : s.snapshots id = some (frame :: rest))

include h hs

/-- What every claim of a running snapshot needs to know about its own frames. -/
lemma Inv.not_ownsIn (hfree : s.protocol.entries query = none) : ¬ OwnsIn rest query := by
  intro hown
  obtain ⟨waiters, hentry⟩ :=
    h.protocol.holds id query ((owns_iff hs).mpr (ownsIn_cons.mpr (Or.inr hown)))
  rw [hfree] at hentry
  cases hentry

/-- `guard.insert(key, DerivedState::in_progress(self.control.id))`. -/
lemma Inv.claim (hflag : frame.inProgress = false) (hrun : frame.pc.isWait = false)
    (hfree : s.protocol.entries frame.query = none) (hquery : next.query = frame.query)
    (hnext : next.inProgress = true) (htop : next.pc.isDemand = false) (hok : next.pc.isOk = false)
    (hrun' : next.pc.isWait = false) (hwf : next.FlagWf) :
    Inv ((s.setDerived frame.query (.InProgress id [])).setFrames id (next :: rest)) := by
  have hstack : StackWf (next :: rest) :=
    (h.stackWf id _ hs).claim hquery (h.not_ownsIn hs hfree) hnext htop hwf
  refine h.withFrames hs hstack rfl rfl (h.protocol.claim (a := id) hfree (entries_setDerived _) ?_
    (waits_keep (waits_eq_none hs hrun) (by simp [waitsIn, hrun']) rfl) (fun _ _ => Iff.rfl))
  exact owns_gain hs rfl (by simp [owning, hflag]) hquery (by simp [owning, hnext, hok])

/-- `create_future` pushes a waiter. -/
lemma Inv.join (hflag : frame.inProgress = false) (hrun : frame.pc.isWait = false)
    (hentry : s.derived frame.query = .InProgress owner waiters)
    (hreach : ¬ ReflTransGen (Edge s.graph) owner id) :
    Inv ((({ s with graph := s.graph.insert id owner }.setDerived frame.query
      (.InProgress owner (waiters ++ [id]))).setSlot id .Empty).setFrames id
        ({ frame with pc := .wait } :: rest)) := by
  have hstack : StackWf ({ frame with pc := .wait } :: rest) :=
    (h.stackWf id _ hs).replace rfl rfl rfl hflag
  refine h.withFrames hs hstack rfl rfl (h.protocol.join (entries_eq_some.mpr hentry)
    (waits_eq_none hs hrun) hreach ?_ ?_ ?_ ?_ ?_)
  · exact entries_setDerived (s := { s with graph := _ }) _
  · exact owns_keep hs rfl fun key => by simp [owning, hflag]
  · rw [waits_eq (State.snapshots_setFrames_self _ _ _)]
    simp [waitsIn, isWait, State.setFrames, State.setSlot, Slot.status]
  · exact fun other hne => waits_setSlot_of_ne (s := { s with graph := _ }.setDerived _ _) hne
  · intro a b
    exact edge_insert

section Wake

variable (hwait : frame.pc = .wait) (hflag : frame.inProgress = false)
  (hquery : next.query = frame.query) (htop : next.pc.isDemand = false)
  (hrun' : next.pc.isWait = false) (hwf : next.FlagWf)

include hwait hflag hquery htop hrun' hwf

/-- `future.wait()` returns a value. -/
lemma Inv.wake {value : σ.Value} (hslot : s.slots id = .Full value)
    (hnext : next.inProgress = false) :
    Inv ((s.setSlot id .Dead).setFrames id (next :: rest)) := by
  have hstack : StackWf (next :: rest) :=
    (h.stackWf id _ hs).replace hquery (hnext.trans hflag.symm) htop hwf
  have hfull : s.protocol.waits id = some (frame.query, .full) := by
    rw [waits_eq hs]
    simp [waitsIn, hwait, isWait, hslot, Slot.status]
  refine h.withFrames hs hstack rfl rfl (h.protocol.resume hfull (by simp) (fun _ => rfl) ?_ ?_
    (fun _ => waits_setSlot_of_ne) (fun _ _ => Iff.rfl))
  · intro other key
    rw [owns_keep (t := s.setSlot id .Dead) hs rfl fun key => by simp [owning, hflag, hnext]]
    simp
  · exact waits_setFrames_self (by simp [waitsIn, hrun'])

/-- `future.wait()` returns `Transferred`, and the frame is marked `in_progress`. -/
lemma Inv.inherit (hslot : s.slots id = .Transferred) (hnext : next.inProgress = true)
    (hok : next.pc.isOk = false) :
    Inv ((s.setSlot id .Dead).setFrames id (next :: rest)) := by
  have htransferred : s.protocol.waits id = some (frame.query, .transferred) := by
    rw [waits_eq hs]
    simp [waitsIn, hwait, isWait, hslot, Slot.status]
  have hfree : ¬ OwnsIn rest frame.query := fun hown =>
    h.protocol.exclusive id frame.query htransferred
      ((owns_iff hs).mpr (ownsIn_cons.mpr (Or.inr hown)))
  have hstack : StackWf (next :: rest) := (h.stackWf id _ hs).claim hquery hfree hnext htop hwf
  refine h.withFrames hs hstack rfl rfl (h.protocol.resume htransferred (by simp) (fun _ => rfl) ?_
    ?_ (fun _ => waits_setSlot_of_ne) (fun _ _ => Iff.rfl))
  · intro other key
    rw [owns_gain (t := s.setSlot id .Dead) hs rfl (by simp [owning, hflag]) hquery
      (by simp [owning, hnext, hok])]
    simp
  · exact waits_setFrames_self (by simp [waitsIn, hrun'])

end Wake

/-- The innermost frame gives its query up, and nothing else of its snapshot is owned or lost. -/
lemma owns_lose (ht : t.snapshots = s.snapshots) (hown : frame.owning = true)
    (hstack : ∀ key, OwnsIn stack key ↔ OwnsIn rest key) (other : SnapshotId) (key : σ.Query) :
    (t.setFrames id stack).protocol.owns other key ↔
      s.protocol.owns other key ∧ ¬ (other = id ∧ key = frame.query) := by
  have honce : ¬ OwnsIn rest frame.query := by
    have hflag : frame.inProgress = true := by
      rw [owning, Bool.and_eq_true] at hown
      exact hown.1
    have hnodup := (h.stackWf id _ hs).nodup
    rw [inProgressQueries, filter_cons_of_pos hflag, map_cons, nodup_cons] at hnodup
    rintro ⟨below, hmem, hquery, hbelow⟩
    rw [owning, Bool.and_eq_true] at hbelow
    exact hnodup.1 (mem_map.mpr ⟨below, mem_filter.mpr ⟨hmem, hbelow.1⟩, hquery⟩)
  rw [owns_setFrames]
  split
  · rename_i heq
    subst heq
    rw [owns_iff hs, ownsIn_cons, hstack, hown]
    simp only [and_true, true_and]
    constructor
    · intro hrest
      refine ⟨Or.inr hrest, ?_⟩
      rintro rfl
      exact honce hrest
    · rintro ⟨rfl | hrest, hne⟩
      · exact absurd rfl hne
      · exact hrest
  · rename_i hne
    simp [State.protocol, ht, hne]

variable (hown : frame.owning = true) (hstack : StackWf stack)
  (howns : ∀ key, OwnsIn stack key ↔ OwnsIn rest key) (hrun : frame.pc.isWait = false)
  (hrun' : waitsIn stack = none)

include hown hstack howns hrun hrun'

/-- An entry is stored, or released with nobody waiting. -/
lemma Inv.giveUp
    (hentry : s.derived frame.query = .InProgress id waiters) (t : State σ)
    (hsnapshots : t.snapshots = s.snapshots) (hids : t.nextSnapshot = s.nextSnapshot)
    (hentries : ∀ key, t.protocol.entries key =
      if key = frame.query then none else s.protocol.entries key)
    (hslots : ∀ other, (t.slots other).status =
      if other ∈ waiters then .full else (s.slots other).status)
    (hgraph : ∀ a b, Edge t.graph a b ↔ Edge s.graph a b ∧ ¬ (a ∈ waiters ∧ b = id)) :
    Inv (t.setFrames id stack) := by
  have hidle := waits_eq_none hs hrun
  have hentry' := entries_eq_some.mpr hentry
  refine h.withFrames hs hstack hsnapshots hids (h.protocol.store hentry' hidle hentries
    (owns_lose h hs hsnapshots hown howns) (fun other => ?_) hgraph)
  by_cases hne : other = id
  · subst hne
    have hnot : other ∉ waiters := fun hmem => by
      rw [h.protocol.waiting _ _ _ hentry' other hmem] at hidle
      cases hidle
    rw [waits_setFrames_self hrun', if_neg hnot, hidle]
  · rw [waits_setFrames_of_ne hne]
    simp only [State.protocol, hsnapshots, hslots]
    split
    · rename_i hmem
      have hwaiting := h.protocol.waiting _ _ _ hentry' other hmem
      simp only [State.protocol, Option.bind_eq_some_iff, Option.map_eq_some_iff] at hwaiting
      obtain ⟨frames, hframes, waited, hwaited, heq⟩ := hwaiting
      rw [hframes, Option.bind_some, hwaited, (Prod.mk.inj heq).1]
      rfl
    · rfl

/-- An entry is handed to the last waiter. -/
lemma Inv.handOver {heir : SnapshotId}
    (hentry : s.derived frame.query = .InProgress id (waiters ++ [heir])) {graph : Graph SnapshotId}
    (hgraph : ∀ a b, Edge graph a b ↔
      (a ∈ waiters ∧ b = heir) ∨ (a ∉ waiters ∧ a ≠ heir ∧ Edge s.graph a b)) :
    Inv ((({ s with graph }.setDerived frame.query (.InProgress heir waiters)).setSlot heir
      .Transferred).setFrames id stack) := by
  have hidle := waits_eq_none hs hrun
  have hentry' := entries_eq_some.mpr hentry
  have hwaiting := h.protocol.waiting _ _ _ hentry' heir (by simp)
  have hheir : heir ≠ id := by
    rintro rfl
    rw [hidle] at hwaiting
    cases hwaiting
  refine h.withFrames hs hstack rfl rfl (h.protocol.handOff hentry' hidle ?_
    (owns_lose h hs rfl hown howns) ?_ ?_ hgraph)
  · exact entries_setDerived (s := { s with graph := _ }) _
  · rw [waits_setFrames_of_ne hheir]
    simp only [State.protocol, Option.bind_eq_some_iff, Option.map_eq_some_iff] at hwaiting
    obtain ⟨frames, hframes, waited, hwaited, heq⟩ := hwaiting
    simp [State.protocol, State.setSlot, State.setDerived, hframes, hwaited, Slot.status,
      (Prod.mk.inj heq).1]
  · intro other hne
    by_cases hself : other = id
    · subst hself
      rw [waits_setFrames_self hrun', hidle]
    · rw [waits_setFrames_of_ne hself]
      simp [State.protocol, State.setSlot, State.setDerived, update_of_ne hne]

end Protocol

/-! ## Every step -/

section Steps

variable {s : State σ} {id : SnapshotId} {frame next : Frame σ} {rest : List (Frame σ)}
  {tree : Body σ} {order : List (QueryKey σ.Input σ.Query)}

/-- A local step keeps the query and the flag of its frame, and neither blocks nor demands. -/
lemma LocalStep.frame_eq (h : LocalStep s id frame rest tree order next) :
    next.query = frame.query ∧ next.inProgress = frame.inProgress ∧ next.pc.isDemand = false ∧
      next.pc.isWait = false := by
  cases h
  case read => simp [record]; split <;> simp [isDemand, isWait]
  all_goals simp [isDemand, isWait]

/-- A frame that still looks its query up has not claimed it. -/
lemma inProgress_of_isLookup (hpc : frame.pc.IsLookup) (hwf : frame.FlagWf) :
    frame.inProgress = false := by
  unfold FlagWf at hwf
  rcases hpc.cases with hpc | hpc <;> simpa [hpc] using hwf

lemma isWait_of_isLookup (hpc : frame.pc.IsLookup) : frame.pc.isWait = false := by
  rcases hpc.cases with hpc | hpc <;> simp [hpc, isWait]

/-- A local step neither claims nor gives up. -/
lemma LocalStep.owning_eq (h : LocalStep s id frame rest tree order next)
    (hwf : frame.FlagWf) : next.FlagWf ∧ next.owning = frame.owning := by
  cases h
  case read hpc =>
    simp only [FlagWf, hpc] at hwf
    simp only [record]
    split <;> simp [FlagWf, owning, isOk, hpc, hwf]
  case hit hpc _ _ _ _ _ | unverifiable hpc _ _ _ _ | cycle hpc _ _ _ _ _ _ =>
    simp [FlagWf, owning, inProgress_of_isLookup hpc hwf]
  all_goals
    simp_all [FlagWf, owning, isOk]

lemma record_eq (key : QueryKey σ.Input σ.Query) :
    (frame.record key).query = frame.query ∧ (frame.record key).inProgress = frame.inProgress ∧
      (frame.record key).pc = frame.pc := by
  unfold record
  split <;> exact ⟨rfl, rfl, rfl⟩

variable {parent : Frame σ} {query : σ.Query}

/-- The caller of a query goes on with what it owned. -/
lemma resume_eq (hdemand : parent.pc.isDemand = true) (hwf : parent.FlagWf) (outcome : Outcome σ) :
    (State.resume parent outcome).query = parent.query ∧
      (State.resume parent outcome).inProgress = true ∧
      (State.resume parent outcome).owning = true ∧
      (State.resume parent outcome).pc.isDemand = false ∧
      (State.resume parent outcome).pc.isWait = false ∧
      (State.resume parent outcome).FlagWf := by
  have hin := (inProgress_of_isDemand hwf hdemand).1
  have hrecord : ∀ error, (parent.recordUnavailable error).query = parent.query ∧
      (parent.recordUnavailable error).inProgress = true ∧
      (parent.recordUnavailable error).pc = parent.pc := by
    intro error
    unfold recordUnavailable
    split
    · exact ⟨rfl, hin, rfl⟩
    · cases error <;> exact ⟨rfl, hin, rfl⟩
  rcases outcome with (error | value) | _
  · obtain ⟨hquery, hin, hpc'⟩ := hrecord error
    cases hpc : parent.pc with
    | verifyDemand cached query todo latest =>
      rw [hpc] at hpc'
      cases error <;>
        simp [State.resume, State.verifyFailed, hpc', hquery, hin, owning, isOk,
          isDemand, isWait, FlagWf]
    | bodyDemand previous query next =>
      rw [hpc] at hpc'
      simp [State.resume, hpc', hquery, hin, owning, isOk, isDemand, isWait,
        FlagWf]
    | _ => simp [hpc, isDemand] at hdemand
  · cases hpc : parent.pc with
    | verifyDemand | bodyDemand =>
      simp [State.resume, hpc, hin, owning, isOk, isDemand, isWait, FlagWf]
    | _ => simp [hpc, isDemand] at hdemand
  · simp [State.resume, hin, owning, isOk, isDemand, isWait, FlagWf]

/-- The frames below a popped one. -/
lemma StackWf.pop {below : List (Frame σ)} (h : StackWf (frame :: parent :: below))
    (outcome : Outcome σ) :
    StackWf (State.resume parent outcome :: below) ∧
      (∀ key, OwnsIn (State.resume parent outcome :: below) key ↔ OwnsIn (parent :: below) key) ∧
      waitsIn (State.resume parent outcome :: below) = none := by
  obtain ⟨hdemands, hflags, hnodup⟩ := h.tail
  have hdemand := hdemands parent (by simp)
  have hwf := hflags parent (by simp)
  obtain ⟨hquery, hin, howning, htop, hrun, hflag⟩ := resume_eq hdemand hwf outcome
  obtain ⟨hin', howning'⟩ := inProgress_of_isDemand hwf hdemand
  refine ⟨⟨by simpa using htop, ?_, ?_, ?_⟩, fun key => ?_, by simp [waitsIn, hrun]⟩
  · exact fun other hmem => hdemands other (mem_cons_of_mem _ hmem)
  · exact forall_mem_cons.mpr ⟨hflag, (forall_mem_cons.mp hflags).2⟩
  · rwa [inProgressQueries_congr hquery (hin.trans hin'.symm)]
  · rw [ownsIn_cons, ownsIn_cons, hquery, howning, howning']

/-- The queue of an entry, for its hand-off. -/
lemma Inv.queue (h : Inv s) {owner heir : SnapshotId} {waiters : List SnapshotId}
    (hentry : s.derived query = .InProgress owner (waiters ++ [heir])) :
    waiters.Nodup ∧ heir ∉ waiters ∧ ∀ b, Edge s.graph heir b → b = owner := by
  have hentry' := entries_eq_some.mpr hentry
  have hnodup := h.protocol.nodup _ _ _ hentry'
  rw [nodup_append] at hnodup
  refine ⟨hnodup.1, fun hmem => hnodup.2.2 heir hmem heir (by simp) rfl, fun b hedge => ?_⟩
  exact h.protocol.edge_owner hentry' (by simp) hedge

variable (h : Inv s) (hs : s.snapshots id = some (frame :: rest))

include h hs

/-- A slot that is waited on is never dead. -/
lemma Inv.slot_ne_dead (hwait : frame.pc = .wait) : s.slots id ≠ .Dead := by
  intro hslot
  refine h.protocol.live id frame.query ?_
  rw [waits_eq hs]
  simp [waitsIn, hwait, isWait, hslot, Slot.status]

lemma Inv.localStep (hlocal : LocalStep s id frame rest tree order next) :
    Inv (s.setFrames id (next :: rest)) := by
  have hstack := h.stackWf id _ hs
  have hwf : frame.FlagWf := hstack.flags frame (by simp)
  obtain ⟨hquery, hflag, htop, hrun'⟩ := hlocal.frame_eq
  obtain ⟨hwf', howning⟩ := hlocal.owning_eq hwf
  have hrun : frame.pc.isWait = false := by
    cases hlocal
    case abandoned hpc hslot => exact absurd hslot (h.slot_ne_dead hs hpc)
    case hit hpc _ _ _ _ _ | unverifiable hpc _ _ _ _ | cycle hpc _ _ _ _ _ _ =>
      exact isWait_of_isLookup hpc
    all_goals simp_all [isWait]
  refine h.setFrames hs (hstack.replace hquery hflag htop hwf') (fun query => ?_) ?_ ?_
  · rw [ownsIn_cons, ownsIn_cons, hquery, howning]
  · simp [waitsIn, hrun]
  · simp [waitsIn, hrun']

lemma Inv.demandStep (hdemand : DemandStep s frame parent query) :
    Inv (s.push id parent rest query) := by
  have hstack := h.stackWf id _ hs
  have hwf : frame.FlagWf := hstack.flags frame (by simp)
  obtain ⟨hquery, hin, hpc⟩ := @record_eq σ parent (.derived query)
  have hparent : parent.query = frame.query ∧ parent.inProgress = frame.inProgress ∧
      parent.pc.isDemand = true ∧ parent.pc.isOk = false ∧ frame.inProgress = true ∧
      frame.pc.isOk = false ∧ frame.pc.isWait = false ∧
      ∀ other : Frame σ, other.pc = parent.pc → other.inProgress = true → other.FlagWf := by
    cases hdemand <;> simp_all [isDemand, isOk, isWait, FlagWf]
  obtain ⟨hquery', hin', hdem, hok, hin'', hok', hrun, hflag⟩ := hparent
  refine h.setFrames hs (hstack.push (hquery.trans hquery') (hin.trans hin') (hpc ▸ hdem)
    (hflag _ hpc (hin.trans (hin'.trans hin''))) query) (fun key => ?_) ?_ ?_
  · rw [ownsIn_cons, ownsIn_cons, hquery, hquery']
    simp [Frame.owning, Frame.new, hin, hin', hpc, hok, hok']
  · simp [waitsIn, hrun]
  · simp [waitsIn, Frame.new, Pc.isWait]

/-- A running frame that owns its query finds its own entry. -/
lemma Inv.entry_of_owning (hown : frame.owning = true) :
    ∃ waiters, s.derived frame.query = .InProgress id waiters := by
  obtain ⟨waiters, hentry⟩ := h.protocol.holds id frame.query
    ((owns_iff hs).mpr (ownsIn_cons.mpr (Or.inl ⟨rfl, hown⟩)))
  exact ⟨waiters, entries_eq_some.mp hentry⟩

/-- `fulfill_and_store` finds the entry it expects. -/
lemma Inv.storeStep {computed : σ.Value} {trace : Trace}
    {dependencies : List (QueryKey σ.Input σ.Query)}
    (hpc : frame.pc = .store computed trace dependencies) :
    ∃ stored, s.fulfillAndStore frame.query computed trace dependencies = some stored ∧
      Inv (stored.setFrames id ({ frame with pc := .leave (.result (.ok computed)) } :: rest)) := by
  have hstack := h.stackWf id _ hs
  have hflag : frame.inProgress = true := by
    have hwf := hstack.flags frame (by simp)
    simpa [FlagWf, hpc] using hwf
  have hown : frame.owning = true := by simp [owning, hflag, hpc, isOk]
  obtain ⟨waiters, hentry⟩ := h.entry_of_owning hs hown
  set stored := { s with
      graph := removeWaiterEdges s.graph id waiters
      slots := fun waiter => if waiter ∈ waiters then .Full computed else s.slots waiter
      }.setDerived frame.query (.Computed computed trace dependencies) with hstored
  refine ⟨stored, by rw [State.fulfillAndStore, hentry], ?_⟩
  have hleft : StackWf ({ frame with pc := .leave (.result (.ok computed)) } :: rest) :=
    hstack.replace rfl rfl rfl trivial
  refine h.giveUp hs hown hleft (fun key => ?_) (by simp [hpc, isWait]) (by simp [waitsIn, isWait])
    hentry stored rfl rfl (fun key => ?_) (fun other => ?_) (fun a b => edge_removeWaiterEdges)
  · simp [owning, isOk]
  · exact entries_setDerived (s := { s with graph := _, slots := _ }) _ key
  · simp only [hstored, State.setDerived]
    split <;> simp [Slot.status]

/-- **The cleanup of `query` finds the entry it expects and hands it on.** -/
lemma Inv.leaveStep {outcome : Outcome σ} (hpc : frame.pc = .leave outcome) {stack : List (Frame σ)}
    (hstack : StackWf stack) (howns : ∀ key, OwnsIn stack key ↔ OwnsIn rest key)
    (hrun' : waitsIn stack = none) :
    ∃ released, s.cleanup frame outcome = .ok released ∧ Inv (released.setFrames id stack) := by
  have hrun : frame.pc.isWait = false := by simp [hpc, isWait]
  -- a frame that owns nothing is popped without a trace
  have hlocal : frame.owning = false → Inv (s.setFrames id stack) := by
    intro hown
    refine h.setFrames hs hstack (fun key => ?_) (by simp [waitsIn, hrun]) hrun'
    rw [howns, ownsIn_cons, hown]
    simp
  -- a frame that failed while it owned its query releases it
  have hrelease : frame.owning = true → ∃ released, s.release frame.query = .ok released ∧
      Inv (released.setFrames id stack) := by
    intro hown
    obtain ⟨waiters, hentry⟩ := h.entry_of_owning hs hown
    rcases eq_nil_or_concat' waiters with rfl | ⟨queue, heir, rfl⟩
    · refine ⟨s.setDerived frame.query .NotComputed, by simp [State.release, hentry], ?_⟩
      refine h.giveUp hs hown hstack howns hrun hrun' hentry (s.setDerived frame.query .NotComputed)
        rfl rfl (fun key => ?_) (fun other => by simp [State.setDerived])
        (fun a b => by simp [State.setDerived])
      exact entries_setDerived _ key
    · obtain ⟨hnodup, hheir, honly⟩ := h.queue hentry
      obtain ⟨graph, hgraph, hedges⟩ := handOffWaiterEdges_spec hnodup hheir honly
      refine ⟨({ s with graph }.setDerived frame.query (.InProgress heir queue)).setSlot heir
        .Transferred, by simp [State.release, hentry, hgraph], ?_⟩
      exact h.handOver hs hown hstack howns hrun hrun' hentry hedges
  have hfailed (hcleanup : s.cleanup frame outcome =
      if frame.inProgress then s.release frame.query else .ok s) (hok : frame.pc.isOk = false) :
      ∃ released, s.cleanup frame outcome = .ok released ∧ Inv (released.setFrames id stack) := by
    rw [hcleanup]
    cases hflag : frame.inProgress with
    | false => exact ⟨s, rfl, hlocal (by simp [owning, hflag])⟩
    | true => exact hrelease (by simp [owning, hflag, hok])
  rcases outcome with (error | value) | _
  · exact hfailed rfl (by simp [hpc, isOk])
  · exact ⟨s, rfl, hlocal (by simp [owning, hpc, isOk])⟩
  · exact hfailed rfl (by simp [hpc, isOk])

/-- **A step of a snapshot keeps the invariant.** -/
lemma Inv.frameStep {s' : State σ} {event : Option (Event σ)}
    (hstep : FrameStep s id frame rest tree order s' event) : Inv s' := by
  have hstack := h.stackWf id _ hs
  have hwf : frame.FlagWf := hstack.flags frame (by simp)
  cases hstep with
  | «local» hlocal => exact h.localStep hs hlocal
  | demand hdemand => exact h.demandStep hs hdemand
  | claimNew hpc hstate | claimStale hpc hstate _ =>
    refine h.claim hs (inProgress_of_isLookup (by rw [hpc]; trivial) hwf) (by simp [hpc, isWait])
      ?_ rfl rfl rfl rfl rfl rfl
    simp [State.protocol, hstate]
  | @join hpc owner waiters hstate _ graph hedge =>
    have hrun := isWait_of_isLookup hpc
    rcases addEdge_spec h.protocol.acyclic id owner with ⟨heq, -⟩ | ⟨heq, hreach⟩
    · rw [hedge] at heq
      cases heq
    · obtain rfl : graph = s.graph.insert id owner := by
        rw [hedge] at heq
        exact (Prod.mk.inj (Option.some.inj heq)).2
      exact h.join hs (inProgress_of_isLookup hpc hwf) hrun hstate hreach
  | wakeFull hpc hslot =>
    have hflag : frame.inProgress = false := by simpa [FlagWf, hpc] using hwf
    exact h.wake hs hpc hflag rfl rfl rfl trivial hslot hflag
  | wakeTransferred hpc hslot =>
    have hflag : frame.inProgress = false := by simpa [FlagWf, hpc] using hwf
    exact h.inherit hs hpc hflag rfl rfl rfl rfl hslot rfl rfl
  | store hpc hstored =>
    obtain ⟨stored, heq, hinv⟩ := h.storeStep hs hpc
    cases heq.symm.trans hstored
    exact hinv
  | leaveOutermost hpc hreleased hrest =>
    subst hrest
    obtain ⟨released, heq, hinv⟩ := h.leaveStep hs hpc stackWf_nil (fun _ => Iff.rfl) rfl
    cases heq.symm.trans hreleased
    exact hinv
  | leave hpc hreleased hrest =>
    subst hrest
    obtain ⟨hwf', howns, hrun⟩ := hstack.pop _
    obtain ⟨released, heq, hinv⟩ := h.leaveStep hs hpc hwf' howns hrun
    cases heq.symm.trans hreleased
    exact hinv

/-- **No assertion of the engine fails.** -/
lemma Inv.not_violation (message : String) : ¬ Violation s id frame message := by
  intro hviolation
  cases hviolation with
  | @diverges hpc owner waiters hstate hedge =>
    rcases addEdge_spec h.protocol.acyclic id owner with ⟨heq, -⟩ | ⟨heq, -⟩ <;>
    · rw [hedge] at heq
      cases heq
  | store hpc hstored =>
    obtain ⟨stored, heq, -⟩ := h.storeStep hs hpc
    rw [hstored] at heq
    cases heq
  | leave hpc hreleased =>
    have hstack := h.stackWf id _ hs
    cases rest with
    | nil =>
      obtain ⟨released, heq, -⟩ := h.leaveStep hs hpc stackWf_nil (fun _ => Iff.rfl) rfl
      rw [hreleased] at heq
      cases heq
    | cons parent below =>
      obtain ⟨hwf, howns, hrun⟩ := hstack.pop .panicked
      obtain ⟨released, heq, -⟩ := h.leaveStep hs hpc hwf howns hrun
      rw [hreleased] at heq
      cases heq

end Steps

/-! ## Writers -/

section Writers

variable {s : State σ}

/-- With `query_lock` free, no snapshot is alive. -/
lemma Inv.no_snapshots (h : Inv s) (hfree : s.queryLockIsFree = true) (id : SnapshotId) :
    s.snapshots id = none := by
  rcases Nat.lt_or_ge id s.nextSnapshot with hlt | hge
  · rw [State.queryLockIsFree, List.all_eq_true] at hfree
    simpa using hfree id (mem_range.mpr hlt)
  · exact h.fresh id hge

/-- Without snapshots nothing is in progress. -/
lemma Inv.not_inProgress (h : Inv s) (hnone : ∀ id, s.snapshots id = none) (query : σ.Query)
    (owner : SnapshotId) (waiters : List SnapshotId) :
    s.derived query ≠ .InProgress owner waiters := by
  intro hstate
  rcases h.protocol.owned _ _ _ (entries_eq_some.mpr hstate) with ⟨frames, hframes, -⟩ | hwaits
  · rw [hnone] at hframes
    cases hframes
  · simp [State.protocol, hnone] at hwaits

/-- An engine without snapshots. -/
lemma Inv.of_no_snapshots {t : State σ} (hnone : ∀ id, t.snapshots id = none)
    (hstate : ∀ query owner waiters, t.derived query ≠ .InProgress owner waiters)
    (hedge : ∀ a b, ¬ Edge t.graph a b) : Inv t := by
  refine ⟨fun id _ => hnone id, ?_, HandOff.Inv.idle ?_ ?_ ?_ hedge⟩
  · simp [hnone]
  · intro query
    cases hentry : t.protocol.entries query with
    | none => rfl
    | some entry => exact absurd (entries_eq_some.mp hentry) (hstate query entry.1 entry.2)
  · simp [State.protocol, hnone]
  · simp [State.protocol, hnone]

lemma Inv.not_edge (h : Inv s) (hnone : ∀ id, s.snapshots id = none) (a b : SnapshotId) :
    ¬ Edge s.graph a b :=
  h.protocol.not_edge (by simp [State.protocol, hnone]) b

/-- Discarding entries, none of which is in progress. -/
lemma foldl_discardQueryState (t : State σ)
    (hstate : ∀ query owner waiters, t.derived query ≠ .InProgress owner waiters)
    (discarded : List σ.Query) :
    discarded.foldl State.discardQueryState t =
      { t with derived := fun query => if query ∈ discarded then
        .NotComputed else t.derived query } := by
  induction discarded generalizing t with
  | nil => simp
  | cons query discarded ih =>
    have hdiscard : t.discardQueryState query = t.setDerived query .NotComputed := by
      unfold State.discardQueryState
      split
      · rename_i owner waiters hq
        exact absurd hq (hstate query owner waiters)
      · rfl
    rw [foldl_cons, hdiscard, ih]
    · congr 1
      funext other
      by_cases hother : other = query
      · subst hother
        simp [State.setDerived]
      · simp [State.setDerived, hother]
    · intro other owner waiters
      by_cases hother : other = query
      · subst hother
        simp [State.setDerived]
      · simpa [State.setDerived, hother] using hstate other owner waiters

/-- A removal, when nothing is in progress. -/
lemma commit_remove (hstate : ∀ query owner waiters, s.derived query ≠ .InProgress owner waiters)
    (discarded : List σ.Query) (removal : σ.Removal) : s.commit discarded (.remove removal) =
      { s with
        inputs := s.editInputs removal, revision := s.revision + 1, cancelled := false,
        derived := fun query => if query ∈ discarded then .NotComputed else s.derived query } := by
  rw [State.commit, foldl_discardQueryState]
  exact hstate

/-- **A writer that holds `query_lock` keeps the invariant.** -/
lemma Inv.commit (h : Inv s) (hfree : s.queryLockIsFree = true) (discarded : List σ.Query)
    (writer : Writer σ) : Inv (s.commit discarded writer) := by
  have hnone := h.no_snapshots hfree
  have hstate := h.not_inProgress hnone
  have hedge := h.not_edge hnone
  cases writer with
  | setInput key value =>
    simp only [State.commit]
    split <;> exact Inv.of_no_snapshots hnone hstate hedge
  | requestCancel => exact Inv.of_no_snapshots hnone hstate hedge
  | remove removal =>
    rw [commit_remove hstate]
    refine Inv.of_no_snapshots hnone (fun query owner waiters => ?_) hedge
    simp only
    split
    · simp
    · exact hstate query owner waiters

end Writers

/-! ## Runs -/

section Runs

variable {s : State σ}

/-- Fields that the invariant does not read may change. -/
lemma Inv.congr {t : State σ} (h : Inv s) (hids : t.nextSnapshot = s.nextSnapshot)
    (hsnapshots : t.snapshots = s.snapshots) (hderived : t.derived = s.derived)
    (hslots : t.slots = s.slots) (hgraph : t.graph = s.graph) : Inv t := by
  refine ⟨?_, ?_, h.protocol.congr ?_ ?_ ?_ ?_⟩
  · rw [hids, hsnapshots]
    exact h.fresh
  · rw [hsnapshots]
    exact h.stackWf
  · simp [State.protocol, hderived]
  · simp [State.protocol, hsnapshots]
  · simp [State.protocol, hsnapshots, hslots]
  · simp [State.protocol, hgraph]

variable {id : SnapshotId} {action : Action σ} {s' : State σ} {query : σ.Query}

/-- A snapshot with an empty stack comes or goes. -/
lemma Inv.update_snapshots (h : Inv s) {before after : Option (List (Frame σ))}
    (hbefore : s.snapshots id = before) (hidle : before = none ∨ before = some [])
    (hafter : after = none ∨ after = some []) {bound : SnapshotId} (hbound : s.nextSnapshot ≤ bound)
    (hid : id < bound) :
    Inv { s with nextSnapshot := bound, snapshots := Function.update s.snapshots id after } := by
  refine ⟨fun other hother => ?_, fun other frames hframes => ?_,
    h.protocol.congr (fun _ => rfl) (fun other query => ?_) (fun other => ?_)
      (fun _ _ => Iff.rfl)⟩
  · have hne : other ≠ id := by
      rintro rfl
      exact absurd hid (Nat.not_lt.mpr hother)
    simpa [update_of_ne hne] using h.fresh other (Nat.le_trans hbound hother)
  · by_cases hne : other = id
    · subst hne
      simp only [update_self] at hframes
      rcases hafter with rfl | rfl
      · cases hframes
      · cases hframes
        exact stackWf_nil
    · simp only [update_of_ne hne] at hframes
      exact h.stackWf other frames hframes
  · by_cases hne : other = id
    · subst hne
      rcases hidle with rfl | rfl <;> rcases hafter with rfl | rfl <;>
        simp [State.protocol, hbefore]
    · simp [State.protocol, Function.update_of_ne hne]
  · by_cases hne : other = id
    · subst hne
      rcases hidle with rfl | rfl <;> rcases hafter with rfl | rfl <;>
        simp [State.protocol, hbefore, waitsIn]
    · simp [State.protocol, Function.update_of_ne hne]

lemma Inv.new : Inv (State.new : State σ) :=
  Inv.of_no_snapshots (fun _ => rfl) (by simp [State.new]) (by simp [State.new])

lemma Inv.actStep (h : Inv s) {event : Option (Event σ)} (hstep : ActStep s action s' event) :
    Inv s' := by
  cases hstep with
  | snapshot =>
    exact h.update_snapshots (h.fresh s.nextSnapshot (Nat.le_refl _)) (Or.inl rfl) (Or.inr rfl)
      (Nat.le_succ _) (Nat.lt_succ_self _)
  | @drop id hs =>
    refine h.update_snapshots hs (Or.inr rfl) (Or.inl rfl) (Nat.le_refl _) ?_
    refine Nat.lt_of_not_le fun hle => ?_
    rw [h.fresh id hle] at hs
    cases hs
  | query hs =>
    refine h.setFrames hs ⟨?_, ?_, ?_, ?_⟩ (fun key => ?_) rfl rfl
    · simp [Frame.new, Pc.isDemand]
    · simp
    · simp [Frame.new, Frame.FlagWf]
    · simp [inProgressQueries, Frame.new]
    · simp [Frame.new, Frame.owning]
  | step hs hstep => exact h.frameStep hs hstep
  | unchanged => exact h
  | announce => exact h.congr rfl rfl rfl rfl rfl
  | @commit index discarded writer _ hfree =>
    have h' : Inv { s with writers := s.writers.eraseIdx index } := h.congr rfl rfl rfl rfl rfl
    exact h'.commit hfree discarded writer

/-- **Every action keeps the invariant.** -/
theorem Inv.act {event : Option (Event σ)} (h : Inv s) (hact : s.act action = .next s' event) :
    Inv s' :=
  h.actStep (.of_act hact)

/-- **No assertion fails in an action.** -/
theorem Inv.act_ne_violation (h : Inv s) (action : Action σ) (message : String) :
    s.act action ≠ .violation message := fun hact => by
  have hyields := @act_yields σ s action
  rw [hact] at hyields
  obtain ⟨id, frame, rest, hs, hviolation⟩ := hyields
  exact h.not_violation hs message hviolation

/-- **The invariant holds in every run.** -/
theorem Reachable.inv {permits : State σ → Action σ → Prop} (h : Reachable permits s) : Inv s := by
  induction h with
  | new => exact Inv.new
  | act action _ _ hact ih => exact ih.act hact

/-- How many frames of a stack have a query in progress. -/
def inProgressCount (frames : List (Frame σ)) (query : σ.Query) : ℕ :=
  frames.countP fun frame => decide (frame.query = query) && frame.inProgress

lemma inProgressCount_eq_count (frames : List (Frame σ)) (query : σ.Query) :
    inProgressCount frames query = (inProgressQueries frames).count query := by
  rw [inProgressQueries, List.count, countP_map, countP_filter]
  congr 1

/-- A stack that owns a query has it in progress once. -/
lemma StackWf.inProgressCount_eq_one {frames : List (Frame σ)} (h : StackWf frames)
    (hown : OwnsIn frames query) : inProgressCount frames query = 1 := by
  rw [inProgressCount_eq_count]
  obtain ⟨frame, hmem, hquery, howning⟩ := hown
  rw [owning, Bool.and_eq_true] at howning
  refine count_eq_one_of_mem h.nodup ?_
  exact mem_map.mpr ⟨frame, mem_filter.mpr ⟨hmem, howning.1⟩, hquery⟩

/-- An outermost query returns to an empty stack. -/
lemma act_returned {outcome : Outcome σ}
    (hact : s.act action = .next s' (some (.returned id query true outcome))) :
    s'.snapshots id = some [] := by
  cases ActStep.of_act hact with
  | step _ hstep =>
    cases hstep
    exact State.snapshots_setFrames_self _ _ _

/-- **The wait graph is safe.**  In every state the graph has an edge exactly for each queued
waiter, to the owner of the entry it waits on; it has no cycle; and no assertion of the engine
fails, the one in `hand_off_waiter_edges` included. -/
theorem wait_graph_safe (h : Reachable (fun _ _ => True) s) :
    (∀ waiter owner, Edge s.graph waiter owner ↔
      ∃ query waiters, s.derived query = .InProgress owner waiters ∧ waiter ∈ waiters) ∧
    (∀ id, ¬ TransGen (Edge s.graph) id id) ∧
    (∀ action message, s.act action ≠ .violation message) := by
  have hinv := h.inv
  refine ⟨fun waiter owner => ?_, hinv.protocol.acyclic, hinv.act_ne_violation⟩
  have hedges := hinv.protocol.edges waiter owner
  simp only [entries_eq_some] at hedges
  exact hedges

/-- An engine with one input and two queries. -/
abbrev pairSchema : Schema where
  Input := Unit
  InputValue := ℕ
  Query := Bool
  Value := ℕ
  File := Unit
  Removal := Empty
  edit removal := removal.elim
  discards removal := removal.elim

/-- A step of a snapshot, whose bodies all fail. -/
def failingStep (id : SnapshotId) : Action pairSchema :=
  .step id (.ret (.error (.MissingContent ()))) []

/-- Two snapshots demand one query, and the second queues behind the first. -/
def joinRun : List (Action pairSchema) :=
  [.snapshot, .snapshot, .query 1 true, failingStep 1, failingStep 1, failingStep 1,
    .query 2 true, failingStep 2, failingStep 2]

theorem joinRun_wait_graph_safe :
    ∃ s : State pairSchema, Reachable (fun _ _ => True) s ∧ Edge s.graph 2 1 ∧
      (∀ waiter owner, Edge s.graph waiter owner ↔
        ∃ query waiters, s.derived query = .InProgress owner waiters ∧ waiter ∈ waiters) ∧
      (∀ id, ¬ TransGen (Edge s.graph) id id) ∧
      (∀ action message, s.act action ≠ .violation message) := by
  have hrun : (State.new.run joinRun).map (fun s => s.graph.lookup 2) = some (some 1) := by decide
  obtain ⟨s, hrun, hedge⟩ := Option.map_eq_some_iff.mp hrun
  have hreach : Reachable (fun _ _ => True) s := Reachable.run .new hrun
  exact ⟨s, hreach, hedge, wait_graph_safe hreach⟩

/-- **In-progress entries have one owner that knows it.**  In every state an `InProgress` entry
names a snapshot with exactly one frame in progress for the query, or an heir that has not resumed;
a frame in progress holds its entry until it stores the value; no `unreachable!` branch is taken;
and a snapshot whose outermost query returns owns nothing. -/
theorem in_progress_owned (h : Reachable (fun _ _ => True) s) :
    (∀ query owner waiters, s.derived query = .InProgress owner waiters →
      ∃ frames, s.snapshots owner = some frames ∧
        (inProgressCount frames query = 1 ∨
          ∃ frame rest, frames = frame :: rest ∧ frame.query = query ∧ frame.pc = .wait ∧
            s.slots owner = .Transferred)) ∧
    (∀ id frames, s.snapshots id = some frames → ∀ frame ∈ frames, frame.inProgress = true →
      frame.pc.isOk = false → ∃ waiters, s.derived frame.query = .InProgress id waiters) ∧
    (∀ action, s.act action ≠ .violation "invariant violated: expected InProgress") ∧
    (∀ action s' id query outcome,
      s.act action = .next s' (some (.returned id query true outcome)) →
        ∀ key waiters, s'.derived key ≠ .InProgress id waiters) := by
  have hinv := h.inv
  refine ⟨?_, ?_, fun action => hinv.act_ne_violation action _, ?_⟩
  · intro query owner waiters hstate
    rcases hinv.protocol.owned _ _ _
      (entries_eq_some.mpr hstate) with ⟨frames, hframes, hown⟩ | hheir
    · exact ⟨frames, hframes,
        Or.inl ((hinv.stackWf owner frames hframes).inProgressCount_eq_one hown)⟩
    · obtain ⟨frame, rest, hframes, hquery, hpc, hstatus⟩ := waits_eq_some hheir
      refine ⟨frame :: rest, hframes, Or.inr ⟨frame, rest, rfl, hquery, hpc, ?_⟩⟩
      cases hslot : s.slots owner <;> simp [hslot, Slot.status] at hstatus ⊢
  · intro id frames hframes frame hmem hflag hok
    have hown : OwnsIn frames frame.query := ⟨frame, hmem, rfl, by simp [Frame.owning, hflag, hok]⟩
    obtain ⟨waiters, hentry⟩ := hinv.protocol.holds id frame.query ((owns_iff hframes).mpr hown)
    exact ⟨waiters, entries_eq_some.mp hentry⟩
  · intro action s' id query outcome hact key waiters hstate
    have hempty : s'.snapshots id = some [] := act_returned hact
    rcases (hinv.act hact).protocol.owned _ _ _ (entries_eq_some.mpr hstate) with hown | hheir
    · exact ownsIn_nil ((owns_iff hempty).mp hown)
    · rw [waits_eq hempty] at hheir
      cases hheir

/-- The first snapshot fails, and the second has the entry before it resumes. -/
def handOffRun : List (Action pairSchema) :=
  joinRun ++ [failingStep 1, failingStep 1, failingStep 1]

theorem handOffRun_in_progress_owned :
    ∃ s : State pairSchema, Reachable (fun _ _ => True) s ∧
      s.protocol.entries true = some (2, []) ∧
      (∀ query owner waiters, s.derived query = .InProgress owner waiters →
        ∃ frames, s.snapshots owner = some frames ∧
          (inProgressCount frames query = 1 ∨
            ∃ frame rest, frames = frame :: rest ∧ frame.query = query ∧ frame.pc = .wait ∧
              s.slots owner = .Transferred)) ∧
      (∀ id frames, s.snapshots id = some frames → ∀ frame ∈ frames, frame.inProgress = true →
        frame.pc.isOk = false → ∃ waiters, s.derived frame.query = .InProgress id waiters) ∧
      (∀ action, s.act action ≠ .violation "invariant violated: expected InProgress") ∧
      (∀ action s' id query outcome,
        s.act action = .next s' (some (.returned id query true outcome)) →
          ∀ key waiters, s'.derived key ≠ .InProgress id waiters) := by
  have hrun : (State.new.run handOffRun).map (fun s => s.protocol.entries true) =
      some (some (2, [])) := by decide
  obtain ⟨s, hrun, hentry⟩ := Option.map_eq_some_iff.mp hrun
  have hreach : Reachable (fun _ _ => True) s := Reachable.run .new hrun
  exact ⟨s, hreach, hentry, in_progress_owned hreach⟩

end Runs

end Iris.Building
