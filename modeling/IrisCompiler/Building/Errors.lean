import IrisCompiler.Building.Results
import Mathlib.Tactic.Common

/-!
# Every error has a reason

The engine makes three errors of its own: `Cancelled`, `Cycle` and `Unverifiable`.  Each of them
travels up the stack of frames, possibly through bodies that recover from it and through the
`unavailable_dependency` that remembers it then.  The invariant gives every such error that is on
its way the reason it was made for (`Explained`), and the reasons outlive the snapshot's query:

* `Cancelled` — the flag is set, and it is reset only when no snapshot is alive;
* `Unverifiable` — a frame below is verifying, and it stays below;
* `Cycle` — the dependency graph of the current inputs has a cycle.

For the last one, a chain of snapshots that wait on each other is read as a path of the dependency
graph (`Good.demands_of_waits`).  A snapshot that waits has no frame that verifies an old dependency
list, and none that goes on after an unavailable dependency, so each of its frames is in a run over
the current inputs and demands what the frame above it computes.
-/

namespace Iris.Building

open Iris.Building.Frame List Pc

variable {σ : Schema}

/-! ## Bodies that do not make errors up -/

/-- The errors that the engine makes. -/
def QueryError.IsEngine : QueryError σ → Prop
  | .Cancelled | .Cycle _ | .Unverifiable => True
  | .MissingContent _ => False

/-- A body that returns an error of the engine only after a demand gave it that error; `received`
has the errors it got before. -/
def Body.Honest : Body σ → (QueryError σ → Prop) → Prop
  | .ret (.ok _), _ | .panic, _ => True
  | .ret (.error error), received => error.IsEngine → received error
  | .read _ next, received => ∀ value, (next value).Honest received
  | .demand _ next, received =>
    (∀ value, (next (.ok value)).Honest received) ∧
      ∀ error, (next (.error error)).Honest fun other => received other ∨ other = error

/-- A body that passes every `Cycle` on. -/
def Body.PropagatesCycle : Body σ → Prop
  | .ret _ | .panic => True
  | .read _ next => ∀ value, (next value).PropagatesCycle
  | .demand _ next =>
    (∀ stack, next (.error (.Cycle stack)) = .ret (.error (.Cycle stack))) ∧
      ∀ answer, (next answer).PropagatesCycle

lemma Body.Honest.mono {tree : Body σ} {received larger : QueryError σ → Prop}
    (h : tree.Honest received) (hle : ∀ error, received error → larger error) :
    tree.Honest larger := by
  induction tree generalizing received larger with
  | ret result =>
    cases result with
    | ok value => trivial
    | error error => exact fun hengine => hle error (h hengine)
  | panic => trivial
  | read key next ih => exact fun value => ih _ (h value) hle
  | demand query next ih =>
    refine ⟨fun value => ih _ (h.1 value) hle, fun error => ih _ (h.2 error) fun other hother => ?_⟩
    exact hother.imp_left (hle other)

/-! ## The invariant -/

section Invariant

variable (bodies : Bodies σ) (values : Values σ) (cancelled : Bool)

/-- **The reason for an error**, in a frame above `rest`. -/
def Explained (rest : List (Frame σ)) : QueryError σ → Prop
  | .Cancelled => cancelled = true
  | .Cycle _ => (∀ query, (bodies query).Propagates) → HasCycle bodies values
  | .Unverifiable => rest.any Frame.verifying = true
  | .MissingContent _ => True

/-- The errors that a frame has or may still return. -/
def Frame.ErrorsOk (rest : List (Frame σ)) (frame : Frame σ) : Prop :=
  match frame.pc with
  | .body _ tree => tree.Honest (Explained bodies values cancelled rest)
  | .bodyDemand _ query next =>
    (Body.demand query next).Honest (Explained bodies values cancelled rest)
  | .leave (.result (.error error)) => Explained bodies values cancelled rest error
  | _ => True

/-- A query that has not begun or has ended. -/
def Pc.IsIdle : Pc σ → Prop
  | .start | .leave _ => True
  | _ => False

/-- What holds of a frame above `rest`. -/
structure FrameErrors (rest : List (Frame σ)) (frame : Frame σ) : Prop where
  verifying : frame.VerifyingWf
  errors : frame.ErrorsOk bodies values cancelled rest
  unavailable : ∀ error, frame.unavailableDependency = some error →
    error.IsUnavailable ∧ Explained bodies values cancelled rest error
  /-- What a cancelled frame demands is cancelled at once. -/
  idle : ∀ parent ∈ rest.head?, parent.unavailableDependency = some .Cancelled → frame.pc.IsIdle

/-- Every frame of a stack. -/
def StackErrors : List (Frame σ) → Prop
  | [] => True
  | frame :: rest => FrameErrors bodies values cancelled rest frame ∧ StackErrors rest

end Invariant

/-- **Errors are explained.** -/
structure ErrorsExplained (bodies : Bodies σ) (s : State σ) : Prop where
  pending : s.cancelled = true → s.writers ≠ []
  frames : ∀ id frames, s.snapshots id = some frames →
    StackErrors bodies s.values s.cancelled frames
  waiting : ∀ id frame rest, s.snapshots id = some (frame :: rest) → frame.pc = .wait →
    (frame :: rest).any Frame.verifying = false

/-! ## Waits are paths of the dependency graph -/

section Cycles

open PointerGraph Relation

variable {bodies : Bodies σ} {H : History σ} {s : State σ} {values : Values σ} {cancelled : Bool}
  {frame parent : Frame σ} {rest : List (Frame σ)}

/-- A frame that runs above another one, with nothing verifying: what is above is demanded from
scratch. -/
lemma demands_of_frame (hvalues : H.inputsAt s.revision = values)
    (hparent : FrameOk bodies H s.base parent) (hdemand : parent.pc.isDemand = true)
    (hlinked : parent.pc.demanded = some frame.query)
    (herrors : FrameErrors bodies values cancelled rest parent)
    (hframe : FrameErrors bodies values cancelled (parent :: rest) frame)
    (hidle : ¬ frame.pc.IsIdle)
    (hverifying : (parent :: rest).any verifying = false) :
    Demands bodies values parent.query frame.query := by
  rw [any_cons, Bool.or_eq_false_iff] at hverifying
  have hnone : parent.unavailableDependency = none := by
    rw [Option.eq_none_iff_forall_ne_some]
    intro error herror
    obtain ⟨hunavailable, hexplained⟩ := herrors.unavailable error herror
    cases error with
    | Cancelled => exact hidle (hframe.idle parent rfl herror)
    | Unverifiable =>
      have hbelow : rest.any verifying = true := hexplained
      rw [hverifying.2] at hbelow
      cases hbelow
    | Cycle => exact hunavailable
    | MissingContent => exact hunavailable
  have hwf := hparent.verifying
  have hknows := hparent.knows
  cases hpc : parent.pc with
  | verifyDemand =>
    simp only [VerifyingWf, hpc] at hwf
    rw [hverifying.1] at hwf
    cases hwf
  | bodyDemand previous query next =>
    simp only [Knows, hpc] at hknows
    obtain rfl : query = frame.query := by simpa [hpc, demanded] using hlinked
    rcases hknows.2.1 hnone with ⟨_, heq⟩ | ⟨hreaches, -⟩
    · cases heq
    · exact ⟨next, hvalues ▸ hreaches.unfolds⟩
  | _ => simp [hpc, isDemand] at hdemand

/-- **The frames of a stack with nothing verifying demand what is above them.** -/
lemma demands_of_stack (hvalues : H.inputsAt s.revision = values)
    (hframes : ∀ below ∈ rest, FrameOk bodies H s.base below)
    (hdemands : ∀ below ∈ rest, below.pc.isDemand = true) (hlinked : Linked (frame :: rest))
    (herrors : StackErrors bodies values cancelled (frame :: rest)) (hidle : ¬ frame.pc.IsIdle)
    (hverifying : rest.any verifying = false) :
    ∀ below ∈ rest, TransGen (Demands bodies values) below.query frame.query := by
  induction rest generalizing frame with
  | nil => simp
  | cons parent rest ih =>
    have hparent := demands_of_frame hvalues (hframes parent (by simp)) (hdemands parent (by simp))
      hlinked.1 herrors.2.1 herrors.1 hidle hverifying
    have hbelow : rest.any verifying = false := by
      rw [any_cons, Bool.or_eq_false_iff] at hverifying
      exact hverifying.2
    have hparentIdle : ¬ parent.pc.IsIdle := by
      cases hpc : parent.pc <;> simp_all [IsIdle, isDemand]
    intro below hmem
    rcases mem_cons.mp hmem with rfl | hmem
    · exact .single hparent
    · refine .tail (ih (fun other hother => hframes other (mem_cons_of_mem _ hother))
        (fun other hother => hdemands other (mem_cons_of_mem _ hother)) hlinked.2 herrors.2
        hparentIdle hbelow below hmem) hparent

/-- A snapshot that asks for a query in progress: it has found the entry, or waits on it. -/
def Asks (s : State σ) (id : SnapshotId) (query : σ.Query) : Prop :=
  ∃ frame rest, s.snapshots id = some (frame :: rest) ∧ frame.query = query ∧
    (frame.pc.IsLookup ∨ frame.pc = .wait) ∧ (frame :: rest).any Frame.verifying = false

variable {id : SnapshotId} {asked : σ.Query}

/-- What a snapshot owns demands what it asks for. -/
lemma Good.demands_of_asks (h : Good bodies H s) (hinv : Inv s) (herrors : ErrorsExplained bodies s)
    {owned : σ.Query} (hasks : Asks s id asked) (howns : s.protocol.owns id owned) :
    TransGen (Demands bodies s.values) owned asked := by
  obtain ⟨frame, rest, hs, rfl, hpc, hverifying⟩ := hasks
  have hstack := hinv.stackWf id _ hs
  have hwf := hstack.flags frame (by simp)
  have hnot : frame.owning = false ∧ ¬ frame.pc.IsIdle := by
    rcases hpc with hpc | hpc
    · refine ⟨by simp [owning, inProgress_of_isLookup hpc hwf], ?_⟩
      rcases hpc.cases with hpc | hpc <;> simp [hpc, IsIdle]
    · simp only [FlagWf, hpc] at hwf
      exact ⟨by simp [owning, hwf], by simp [hpc, IsIdle]⟩
  rw [owns_iff hs, ownsIn_cons, hnot.1] at howns
  obtain ⟨below, hmem, rfl, -⟩ := howns.resolve_left (by simp)
  rw [any_cons, Bool.or_eq_false_iff] at hverifying
  exact demands_of_stack h.inputs
    (fun other hother => h.frames id _ hs other (mem_cons_of_mem _ hother)) hstack.below
    (h.linked id _ hs) (herrors.frames id _ hs) hnot.2 hverifying.2 below hmem

/-- **A chain of waits is a path of the dependency graph.** -/
lemma Good.demands_of_waits (h : Good bodies H s) (hinv : Inv s)
    (herrors : ErrorsExplained bodies s) {owner : SnapshotId} {query : σ.Query}
    {waiters : List SnapshotId} (hasks : Asks s id asked) (hrun : s.protocol.waits id = none)
    (hentry : s.derived query = .InProgress owner waiters)
    (hpath : ReflTransGen (Edge s.graph) owner id) :
    TransGen (Demands bodies s.values) query asked := by
  induction hpath using ReflTransGen.head_induction_on generalizing query waiters with
  | refl =>
    rcases hinv.protocol.owned _ _ _ (entries_eq_some.mpr hentry) with howns | hheir
    · exact h.demands_of_asks hinv herrors hasks howns
    · rw [hrun] at hheir
      cases hheir
  | @head waiter next hedge _ ih =>
    obtain ⟨queue, others, hqueue, hmem⟩ := (hinv.protocol.edges waiter next).mp hedge
    have hwaits := hinv.protocol.waiting _ _ _ hqueue waiter hmem
    obtain ⟨frame, rest, hs, hquery, hpc, -⟩ := waits_eq_some hwaits
    have hwaiter : Asks s waiter queue :=
      ⟨frame, rest, hs, hquery, Or.inr hpc, herrors.waiting waiter frame rest hs hpc⟩
    rcases hinv.protocol.owned _ _ _ (entries_eq_some.mpr hentry) with howns | hheir
    · exact (h.demands_of_asks hinv herrors hwaiter howns).trans (ih (entries_eq_some.mp hqueue))
    · rw [hwaits] at hheir
      cases hheir

end Cycles

/-! ## Steps of one frame -/

section FrameSteps

variable {bodies : Bodies σ} {s : State σ} {id : SnapshotId} {values : Values σ} {cancelled : Bool}
  {frame next parent : Frame σ} {rest : List (Frame σ)} {tree : Body σ}
  {order : List (QueryKey σ.Input σ.Query)}

section

variable (h : FrameErrors bodies values cancelled rest frame)

include h

/-- A frame that is neither beginning nor ending lies above one that is not cancelled. -/
lemma FrameErrors.idle_of_busy (hbusy : ¬ frame.pc.IsIdle) (pc : Pc σ) :
    ∀ parent ∈ rest.head?, parent.unavailableDependency = some .Cancelled → pc.IsIdle :=
  fun parent hparent hcancelled => absurd (h.idle parent hparent hcancelled) hbusy

/-- The innermost frame goes on to a place where it has no error. -/
lemma FrameErrors.goto
    (hbusy : ¬ frame.pc.IsIdle)
    (hunavailable : next.unavailableDependency = frame.unavailableDependency)
    (hverifying : next.VerifyingWf) (herrors : next.ErrorsOk bodies values cancelled rest) :
    FrameErrors bodies values cancelled rest next :=
  ⟨hverifying, herrors, hunavailable ▸ h.unavailable, h.idle_of_busy hbusy next.pc⟩

variable {error : QueryError σ}

/-- The innermost frame ends with an error. -/
lemma FrameErrors.fail (herror : Explained bodies values cancelled rest error) :
    FrameErrors bodies values cancelled rest
      { frame with pc := .leave (.result (.error error)) } :=
  ⟨trivial, herror, h.unavailable, fun _ _ _ => trivial⟩

/-- What the engine answers `Unverifiable` to has a verifying frame below. -/
lemma FrameErrors.explained_unverifiable
    (hpc : frame.pc.IsLookup) (hverifying : (frame :: rest).any Frame.verifying = true) :
    Explained bodies values cancelled rest .Unverifiable := by
  have hwf := h.verifying
  have hframe : frame.verifying = false := by
    unfold VerifyingWf at hwf
    rcases hpc.cases with hpc | hpc <;> simpa [hpc] using hwf
  simpa [Explained, hframe] using hverifying

end

/-- **A local step explains the error it makes.** -/
lemma ErrorsExplained.frame_local (h : ErrorsExplained bodies s) (hinv : Inv s)
    (hgood : (∀ query, (bodies query).Propagates) → ∃ H, Good bodies H s)
    (hhonest : ∀ query, (bodies query).Honest fun _ => False)
    (hs : s.snapshots id = some (frame :: rest)) (htree : tree = bodies frame.query)
    (hlocal : LocalStep s id frame rest tree order next) :
    FrameErrors bodies s.values s.cancelled rest next := by
  obtain ⟨hframe, hrest⟩ := h.frames id _ hs
  have hwf := hframe.verifying
  have herrors := hframe.errors
  cases hlocal with
  | startCancelled _ hcancelled | computeCancelled _ hcancelled => exact hframe.fail hcancelled
  | unverifiable hpc _ hverifying =>
    exact hframe.fail (hframe.explained_unverifiable hpc hverifying)
  | cycle hpc hstate hverifying hedge =>
    refine hframe.fail fun hbodies => ?_
    obtain ⟨H, hgood⟩ := hgood hbodies
    rcases addEdge_spec hinv.protocol.acyclic id _ with ⟨-, hpath⟩ | ⟨heq, -⟩
    · refine ⟨frame.query, hgood.demands_of_waits hinv h
        ⟨frame, rest, hs, rfl, Or.inl hpc, hverifying⟩ ?_ hstate hpath⟩
      rw [waits_eq hs]
      rcases hpc.cases with hpc | hpc <;> simp [waitsIn, hpc, isWait]
    · rw [hedge] at heq
      cases heq
  | abandoned hpc hslot => exact absurd hslot (hinv.slot_ne_dead hs hpc)
  | start hpc hcancelled =>
    simp only [VerifyingWf, hpc] at hwf
    refine ⟨hwf, trivial, hframe.unavailable, fun parent hparent hunavailable => ?_⟩
    cases rest with
    | nil => cases hparent
    | cons below rest =>
      cases hparent
      have hset : s.cancelled = true := (hrest.1.unavailable _ hunavailable).2
      rw [hcancelled] at hset
      cases hset
  | hit hpc _ _ => exact ⟨trivial, trivial, hframe.unavailable, fun _ _ _ => trivial⟩
  | verified hpc _ | outdated hpc _ => exact hframe.goto (by simp [hpc, IsIdle]) rfl rfl trivial
  | miss hpc | missingInput hpc _ | input hpc _ | fresh hpc _ _ | bodyOk hpc _ _ | traced hpc _
  | untraced hpc _ =>
    simp only [VerifyingWf, hpc] at hwf
    exact hframe.goto (by simp [hpc, IsIdle]) rfl hwf trivial
  | compute hpc _ =>
    simp only [VerifyingWf, hpc] at hwf
    refine hframe.goto (by simp [hpc, IsIdle]) rfl hwf ?_
    rw [htree]
    exact (hhonest frame.query).mono fun _ hfalse => hfalse.elim
  | @bodyError _ error hpc =>
    refine hframe.fail ?_
    simp only [ErrorsOk, hpc] at herrors
    cases error with
    | MissingContent => trivial
    | _ => exact herrors trivial
  | bodyUnavailable hpc hunavailable =>
    exact ⟨trivial, (hframe.unavailable _ hunavailable).2, by simp, fun _ _ _ => trivial⟩
  | bodyPanic hpc => exact hframe.goto (by simp [hpc, IsIdle]) rfl trivial trivial
  | read hpc =>
    simp only [VerifyingWf, ErrorsOk, hpc] at hwf herrors
    refine hframe.goto (by simp [hpc, IsIdle]) ?_ ?_ ?_
    · simp [record, hwf]
    · simp [record, hwf, VerifyingWf]
    · exact herrors _

/-- A frame demands a query. -/
lemma FrameErrors.demand {query : σ.Query} (h : FrameErrors bodies values cancelled rest frame)
    (hdemand : DemandStep s frame parent query) :
    FrameErrors bodies values cancelled rest (parent.record (.derived query)) ∧
      (parent.record (.derived query)).verifying = frame.verifying := by
  have hwf := h.verifying
  have herrors := h.errors
  cases hdemand with
  | verify hpc =>
    simp only [VerifyingWf, hpc] at hwf
    simp only [record, hwf, if_true]
    exact ⟨h.goto (by simp [hpc, IsIdle]) rfl rfl trivial, trivial⟩
  | body hpc =>
    simp only [VerifyingWf, ErrorsOk, hpc] at hwf herrors
    simp only [record, hwf, Bool.false_eq_true, if_false]
    exact ⟨h.goto (by simp [hpc, IsIdle]) rfl rfl herrors, trivial⟩

/-- The reason for an error is one for the frame below, unless it is that this frame verifies. -/
lemma Explained.below (h : Explained bodies values cancelled (parent :: rest) error)
    (hverifying : parent.verifying = false ∨ error ≠ .Unverifiable) :
    Explained bodies values cancelled rest error := by
  cases error with
  | Unverifiable =>
    have hparent : parent.verifying = false := hverifying.resolve_right (by simp)
    simpa [Explained, hparent] using h
  | _ => exact h

/-- **The caller of a query goes on, with the query's error explained to it.** -/
lemma FrameErrors.resume (h : FrameErrors bodies values cancelled rest parent)
    (hdemand : parent.pc.isDemand = true) {outcome : Outcome σ}
    (houtcome : ∀ error, outcome = .result (.error error) →
      Explained bodies values cancelled (parent :: rest) error) :
    FrameErrors bodies values cancelled rest (State.resume parent outcome) := by
  have hwf := h.verifying
  have herrors := h.errors
  rcases outcome with (error | value) | _
  · have hexplained := houtcome error rfl
    cases hpc : parent.pc with
    | verifyDemand cached query todo latest =>
      simp only [VerifyingWf, hpc] at hwf
      simp only [State.resume, recordUnavailable, hwf, Bool.true_or, if_true, hpc]
      cases error with
      | Unverifiable => exact h.goto (by simp [hpc, IsIdle]) rfl rfl trivial
      | Cancelled | Cycle | MissingContent =>
        exact h.goto (by simp [hpc, IsIdle]) rfl trivial (hexplained.below (Or.inr (by simp)))
    | bodyDemand previous query next =>
      simp only [VerifyingWf, ErrorsOk, hpc] at hwf herrors
      have hbelow := hexplained.below (Or.inl hwf)
      obtain ⟨unavailable, hrecord, -, hcases⟩ := recordUnavailable_spec hwf error
      simp only [State.resume, hrecord, hpc]
      refine ⟨hwf, (herrors.2 error).mono ?_, fun other hother => ?_,
        h.idle_of_busy (by simp [hpc, IsIdle]) _⟩
      · rintro other (hother | rfl)
        · exact hother
        · exact hbelow
      · rcases hcases with heq | heq | ⟨heq, hunavailable⟩
        · exact h.unavailable other (heq ▸ hother)
        · rw [heq] at hother
          cases hother
        · rw [heq] at hother
          cases hother
          exact ⟨hunavailable, hbelow⟩
    | _ => simp [hpc, isDemand] at hdemand
  · cases hpc : parent.pc with
    | verifyDemand cached query todo latest =>
      simp only [VerifyingWf, hpc] at hwf
      simp only [State.resume, hpc]
      exact h.goto (by simp [hpc, IsIdle]) rfl hwf trivial
    | bodyDemand previous query next =>
      simp only [VerifyingWf, ErrorsOk, hpc] at hwf herrors
      simp only [State.resume, hpc]
      exact h.goto (by simp [hpc, IsIdle]) rfl hwf (herrors.1 value)
    | _ => simp [hpc, isDemand] at hdemand
  · exact ⟨trivial, trivial, h.unavailable, fun _ _ _ => trivial⟩

end FrameSteps

/-! ## Runs -/

section Runs

variable {bodies : Bodies σ} {s s' : State σ} {id : SnapshotId} {frame : Frame σ}
  {rest : List (Frame σ)}

/-- **A step of a snapshot.**  Only the frames that it leaves need a proof. -/
lemma ErrorsExplained.setFrames (h : ErrorsExplained bodies s) (hflags : SameFlags s s')
    (hsnapshots : s'.snapshots = s.snapshots) {stack : List (Frame σ)}
    (hstack : StackErrors bodies s.values s.cancelled stack)
    (hwait : waitsIn stack = none ∨ stack.any verifying = false) :
    ErrorsExplained bodies (s'.setFrames id stack) := by
  refine ⟨?_, fun other frames hother => ?_, fun other top below hother hpc => ?_⟩
  · show s'.cancelled = true → s'.writers ≠ []
    rw [hflags.cancelled, hflags.writers]
    exact h.pending
  · show StackErrors bodies s'.values s'.cancelled frames
    rw [hflags.values, hflags.cancelled]
    rcases snapshots_setFrames_cases hsnapshots hother with ⟨-, rfl⟩ | ⟨-, hold⟩
    · exact hstack
    · exact h.frames other frames hold
  · rcases snapshots_setFrames_cases hsnapshots hother with ⟨-, heq⟩ | ⟨-, hold⟩
    · rw [← heq] at hwait
      refine hwait.resolve_left fun hnone => ?_
      simp [waitsIn, hpc, isWait] at hnone
    · exact h.waiting other top below hold hpc

variable {event : Option (Event σ)} {values : Values σ} {cancelled : Bool}

/-- **A step of a snapshot keeps errors explained.** -/
lemma ErrorsExplained.frameStep (h : ErrorsExplained bodies s) (hinv : Inv s)
    (hgood : (∀ query, (bodies query).Propagates) → ∃ H, Good bodies H s)
    (hhonest : ∀ query, (bodies query).Honest fun _ => False)
    (hs : s.snapshots id = some (frame :: rest)) {tree : Body σ} (htree : tree = bodies frame.query)
    {order : List (QueryKey σ.Input σ.Query)}
    (hstep : FrameStep s id frame rest tree order s' event) : ErrorsExplained bodies s' := by
  obtain ⟨hframe, hrest⟩ := h.frames id _ hs
  have hwf := hframe.verifying
  cases hstep with
  | «local» hlocal =>
    obtain ⟨-, -, -, hrun⟩ := hlocal.frame_eq
    exact h.setFrames ⟨rfl, rfl, rfl⟩ rfl
      ⟨h.frame_local hinv hgood hhonest hs htree hlocal, hrest⟩ (Or.inl (by simp [waitsIn, hrun]))
  | demand hdemand =>
    obtain ⟨hparent, -⟩ := hframe.demand hdemand
    exact h.setFrames ⟨rfl, rfl, rfl⟩ rfl
      ⟨⟨rfl, trivial, by simp [new], fun _ _ _ => trivial⟩, hparent, hrest⟩ (Or.inl rfl)
  | claimNew hpc _ | wakeTransferred hpc _ =>
    simp only [VerifyingWf, hpc] at hwf
    refine h.setFrames ?_ ?_
      ⟨hframe.goto (by simp [hpc, IsIdle]) rfl hwf trivial, hrest⟩ (Or.inl ?_)
    exacts [⟨rfl, rfl, rfl⟩, rfl, rfl]
  | claimStale hpc _ _ | wakeFull hpc _ =>
    refine h.setFrames ?_ ?_ ⟨hframe.goto (by simp [hpc, IsIdle]) rfl ?_ trivial, hrest⟩ (Or.inl ?_)
    exacts [⟨rfl, rfl, rfl⟩, rfl, by trivial, rfl]
  | join hpc _ hverifying _ =>
    have hbusy : ¬ frame.pc.IsIdle := by rcases hpc.cases with hpc | hpc <;> simp [hpc, IsIdle]
    have hframe' : frame.verifying = false := by
      rw [any_cons, Bool.or_eq_false_iff] at hverifying
      exact hverifying.1
    refine h.setFrames ?_ ?_ ⟨hframe.goto hbusy rfl hframe' trivial, hrest⟩ (Or.inr hverifying)
    exacts [⟨rfl, rfl, rfl⟩, rfl]
  | store hpc hstored =>
    obtain ⟨graph, slots, rfl, -⟩ := fulfillAndStore_spec hinv hstored
    refine h.setFrames ?_ ?_
      ⟨hframe.goto (by simp [hpc, IsIdle]) rfl trivial trivial, hrest⟩ (Or.inl ?_)
    exacts [⟨rfl, rfl, rfl⟩, rfl, rfl]
  | leaveOutermost _ hreleased _ =>
    exact h.setFrames (cleanup_flags hreleased) (cleanup_spec hreleased).2 trivial (Or.inl rfl)
  | @leave outcome hpc released hreleased parent below hrest' =>
    subst hrest'
    have hstack := (hinv.stackWf id _ hs).tail
    have hdemand := hstack.1 parent (by simp)
    obtain ⟨-, -, -, -, hrun, -⟩ := resume_eq hdemand (hstack.2.1 parent (by simp)) outcome
    refine h.setFrames (cleanup_flags hreleased) (cleanup_spec hreleased).2
      ⟨hrest.1.resume hdemand ?_, hrest.2⟩ (Or.inl (by simp [waitsIn, hrun]))
    rintro error rfl
    have herrors := hframe.errors
    simpa [ErrorsOk, hpc] using herrors

/-! ### Writers -/

/-- A request to cancel takes no reason away. -/
lemma Explained.cancel {error : QueryError σ} (h : Explained bodies values cancelled rest error) :
    Explained bodies values true rest error := by
  cases error with
  | Cancelled => rfl
  | _ => exact h

lemma StackErrors.cancel {frames : List (Frame σ)}
    (h : StackErrors bodies values cancelled frames) :
    StackErrors bodies values true frames := by
  induction frames with
  | nil => trivial
  | cons frame rest ih =>
    obtain ⟨⟨hverifying, herrors, hunavailable, hidle⟩, hrest⟩ := h
    refine ⟨⟨hverifying, ?_, fun error herror => ?_, hidle⟩, ih hrest⟩
    · unfold ErrorsOk at herrors ⊢
      split at herrors
      · exact herrors.mono fun _ => Explained.cancel
      · exact herrors.mono fun _ => Explained.cancel
      · exact herrors.cancel
      · trivial
    · exact ⟨(hunavailable error herror).1, (hunavailable error herror).2.cancel⟩

/-- Stacks come and go empty. -/
lemma ErrorsExplained.stacks (h : ErrorsExplained bodies s) {bound : SnapshotId}
    {stacksAfter : SnapshotId → Option (List (Frame σ))}
    (hstacks : ∀ id frames, stacksAfter id = some frames →
      s.snapshots id = some frames ∨ frames = []) :
    ErrorsExplained bodies { s with nextSnapshot := bound, snapshots := stacksAfter } := by
  refine ⟨h.pending, fun id frames hframes => ?_, fun id frame rest hframes => ?_⟩
  · rcases hstacks id frames hframes with hold | rfl
    · exact h.frames id frames hold
    · trivial
  · rcases hstacks id _ hframes with hold | hnil
    · exact h.waiting id frame rest hold
    · cases hnil

/-- A writer announces itself. -/
lemma ErrorsExplained.announce (h : ErrorsExplained bodies s) (writer : Writer σ) :
    ErrorsExplained bodies { s with cancelled := true, writers := s.writers ++ [writer] } :=
  ⟨by simp, fun id frames hframes => (h.frames id frames hframes).cancel, h.waiting⟩

/-- An engine without snapshots and without a request to cancel. -/
lemma ErrorsExplained.of_no_snapshots (hnone : ∀ id, s.snapshots id = none)
    (hcancelled : s.cancelled = false) : ErrorsExplained bodies s :=
  ⟨by simp [hcancelled], by simp [hnone], by simp [hnone]⟩

/-- **Every action keeps errors explained.** -/
lemma ErrorsExplained.act (h : ErrorsExplained bodies s) (hinv : Inv s)
    (hgood : (∀ query, (bodies query).Propagates) → ∃ H, Good bodies H s)
    (hhonest : ∀ query, (bodies query).Honest fun _ => False)
    {removes : State σ → σ.Removal → List σ.Query → Prop} {action : Action σ}
    (hdrives : Drives bodies removes s action) (hact : s.act action = .next s' event) :
    ErrorsExplained bodies s' := by
  cases ActStep.of_act hact with
  | snapshot => exact h.stacks fun _ _ => snapshots_update_idle (Or.inr rfl)
  | drop => exact h.stacks fun _ _ => snapshots_update_idle (Or.inl rfl)
  | query =>
    refine h.setFrames ⟨rfl, rfl, rfl⟩ rfl ⟨⟨rfl, trivial, ?_, ?_⟩, trivial⟩ (Or.inl rfl)
    · simp [new]
    · simp
  | @step id tree order frame rest hs _ _ hstep =>
    exact h.frameStep hinv hgood hhonest hs (hdrives frame rest hs) hstep
  | unchanged => exact h
  | announce => exact h.announce _
  | @commit index discarded writer _ hfree =>
    have hidle := commit_idle (s := { s with writers := s.writers.eraseIdx index })
      (hinv.congr rfl rfl rfl rfl rfl) hfree discarded writer
    exact .of_no_snapshots hidle.1 hidle.2.1

/-- **Errors are explained in every run.** -/
theorem Reachable.errorsExplained (hhonest : ∀ query, (bodies query).Honest fun _ => False)
    (h : Reachable (Drives bodies noRemoval) s) : ErrorsExplained bodies s := by
  induction h with
  | new => exact .of_no_snapshots (fun _ => rfl) rfl
  | act action hreach hdrives hact ih =>
    refine ih.act hreach.inv (fun hbodies => ?_) hhonest hdrives hact
    exact hreach.good hbodies fun _ _ _ _ hremoval => hremoval.elim

/-- **Errors have reasons.**  Over bodies that make no error of the engine up, in every run of
snapshots and input writes: a query returns `Cycle` only if the dependency graph of the current
inputs has a cycle, where the bodies propagate every error but `Unverifiable` and `Cancelled`; it
returns `Cancelled` only while a writer is pending; and a demand outside of any query never returns
`Unverifiable`. -/
theorem errors_explained (hhonest : ∀ query, (bodies query).Honest fun _ => False)
    (h : Reachable (Drives bodies noRemoval) s) :
    ((∀ query, (bodies query).Propagates) → ∀ action s' id query outermost stack,
      s.act action = .next s'
        (some (.returned id query outermost (.result (.error (.Cycle stack))))) →
        HasCycle bodies s'.values) ∧
    (∀ action s' id query outermost,
      s.act action = .next s' (some (.returned id query outermost (.result (.error .Cancelled)))) →
        s'.writers ≠ []) ∧
    (∀ action s' id query,
      s.act action ≠ .next s'
        (some (.returned id query true (.result (.error .Unverifiable))))) := by
  have hexplained := h.errorsExplained hhonest
  -- the frame that returns an error has the reason for it
  have hreturned : ∀ action s' id query outermost error,
      s.act action = .next s' (some (.returned id query outermost (.result (.error error)))) →
        SameFlags s s' ∧ ∃ rest, (outermost = true → rest = []) ∧
          Explained bodies s.values s.cancelled rest error := by
    intro action s' id query outermost error hact
    obtain ⟨frame, rest, hs, -, hpc, hrest, hflags⟩ := act_returned_leave hact
    have herrors := (hexplained.frames id _ hs).1.errors
    simp only [Frame.ErrorsOk, hpc] at herrors
    exact ⟨hflags, rest, hrest, herrors⟩
  refine ⟨?_, ?_, ?_⟩
  · intro hbodies action s' id query outermost stack hact
    obtain ⟨hflags, rest, -, hcycle⟩ := hreturned _ _ _ _ _ _ hact
    rw [hflags.values]
    exact hcycle hbodies
  · intro action s' id query outermost hact
    obtain ⟨hflags, rest, -, hcancelled⟩ := hreturned _ _ _ _ _ _ hact
    rw [hflags.writers]
    exact hexplained.pending hcancelled
  · intro action s' id query hact
    obtain ⟨-, rest, hrest, hverifying⟩ := hreturned _ _ _ _ _ _ hact
    rw [hrest rfl] at hverifying
    cases hverifying

/-- The outermost query of a snapshot returns `Cycle`. -/
def Step.returnsCycle : Step σ → Option (State σ × SnapshotId × σ.Query × List σ.Query)
  | .next state (some (.returned id query true (.result (.error (.Cycle stack))))) =>
    some (state, id, query, stack)
  | _ => none

lemma returnsCycle_eq_some {step : Step σ} {query : σ.Query} {stack : List σ.Query}
    (h : step.returnsCycle = some (s', id, query, stack)) :
    step = .next s' (some (.returned id query true (.result (.error (.Cycle stack))))) := by
  unfold Step.returnsCycle at h
  split at h
  · cases h
    rfl
  · cases h

end Runs

/-! ## A cycle that is there -/

/-- Both queries demand the query `true`. -/
def looping : Bodies pairSchema := fun _ => .demand true fun answer => .ret answer

/-- The query `true` is demanded, and demands itself. -/
def loopRun : List (State pairSchema → Action pairSchema) :=
  [fun _ => .snapshot, fun _ => .query 1 true] ++ List.replicate 9 (nextStep looping 1)

theorem loopRun_errors_explained :
    ∃ s s' stack, (∀ query, (looping query).Honest fun _ => False) ∧
      (∀ query, (looping query).Propagates) ∧ Reachable (Drives looping noRemoval) s ∧
      s.act (nextStep looping 1 s) =
        .next s' (some (.returned 1 true true (.result (.error (.Cycle stack))))) ∧
      HasCycle looping s'.values := by
  have hrun : ((State.new.follow loopRun).bind fun s =>
      (s.act (nextStep looping 1 s)).returnsCycle.map fun returned => returned.2) =
        some (1, true, [true, true]) := by decide
  obtain ⟨s, hfollow, hreturned⟩ := Option.bind_eq_some_iff.mp hrun
  obtain ⟨⟨s', id, query, stack⟩, hreturned, heq⟩ := Option.map_eq_some_iff.mp hreturned
  cases heq
  have hact := returnsCycle_eq_some hreturned
  have hhonest : ∀ query, (looping query).Honest fun _ => False :=
    fun _ => ⟨fun _ => trivial, fun _ _ => Or.inr rfl⟩
  have hbodies : ∀ query, (looping query).Propagates := fun _ => ⟨fun _ _ => rfl, fun _ => trivial⟩
  have hreach : Reachable (Drives looping noRemoval) s := by
    refine Reachable.follow (fun choose hmem s => ?_) .new hfollow
    simp only [loopRun, List.mem_append, List.mem_cons, List.not_mem_nil, or_false,
      List.mem_replicate] at hmem
    rcases hmem with (rfl | rfl) | ⟨-, rfl⟩
    · trivial
    · trivial
    · exact drives_nextStep looping noRemoval _ s
  exact ⟨s, s', _, hhonest, hbodies, hreach, hact,
    (errors_explained hhonest hreach).1 hbodies _ _ _ _ _ _ hact⟩

/-! ## A cycle that is not there

`verify_core` runs the dependencies of the last time, and returns an error of one of them even if
the query would not demand it any more.  A body that recovers from such an error leaves the paths of
the dependency graph, and may meet itself. -/

/-- The inputs and the queries of a module, of a library that it imports, and of the module that the
library used to re-export. -/
inductive ImportUnit where
  | main
  | library
  | legacy
  deriving DecidableEq

abbrev reexportSchema : Schema where
  Input := ImportUnit
  InputValue := ℕ
  Query := ImportUnit
  Value := ℕ
  File := ImportUnit
  Removal := Empty
  edit removal := removal.elim
  discards removal := removal.elim

/-- The library demands the legacy module if its input is 1; the legacy module, if its input is 1,
reads a file that is missing; the main module falls back on itself when a file is missing. -/
def recovering : Bodies reexportSchema
  | .main => .demand .library fun
    | .ok value => .ret (.ok value)
    | .error (.MissingContent _) => .demand .main fun answer => .ret answer
    | .error error => .ret (.error error)
  | .library => .read .library fun value =>
    if value = some 1 then .demand .legacy fun answer => .ret answer else .ret (.ok 0)
  | .legacy => .read .legacy fun value =>
    if value = some 1 then .read .main fun content =>
      match content with
      | none => .ret (.error (.MissingContent .main))
      | some content => .ret (.ok content)
    else .ret (.ok 0)

/-- The library is built with the legacy module; then the library drops it, the legacy module loses
its file, and the main module is demanded. -/
def reexportRun : List (State reexportSchema → Action reexportSchema) :=
  [fun _ => .setInput .library 1, fun _ => .commit 0 [], fun _ => .snapshot,
    fun _ => .query 1 .library] ++ List.replicate 17 (nextStep recovering 1) ++
  [fun _ => .drop 1, fun _ => .setInput .library 0, fun _ => .commit 0 [],
    fun _ => .setInput .legacy 1, fun _ => .commit 0 [], fun _ => .snapshot,
    fun _ => .query 2 .main] ++ List.replicate 25 (nextStep recovering 2)

lemma recovering_propagatesCycle (query : ImportUnit) : (recovering query).PropagatesCycle := by
  cases query with
  | main =>
    refine ⟨fun _ => rfl, fun answer => ?_⟩
    rcases answer with (_ | _ | _ | _) | _
    all_goals first | trivial | exact ⟨fun _ => rfl, fun _ => trivial⟩
  | library =>
    intro value
    show (ite _ _ _ : Body reexportSchema).PropagatesCycle
    split
    · exact ⟨fun _ => rfl, fun _ => trivial⟩
    · trivial
  | legacy =>
    intro value
    show (ite _ _ _ : Body reexportSchema).PropagatesCycle
    split
    · rintro (_ | _) <;> trivial
    · trivial

lemma recovering_honest (query : ImportUnit) : (recovering query).Honest fun _ => False := by
  cases query with
  | main =>
    refine ⟨fun _ => trivial, fun error => ?_⟩
    cases error with
    | MissingContent => exact ⟨fun _ => trivial, fun _ _ => Or.inr rfl⟩
    | _ => exact fun _ => Or.inr rfl
  | library =>
    intro value
    show (ite _ _ _ : Body reexportSchema).Honest _
    split
    · exact ⟨fun _ => trivial, fun _ _ => Or.inr rfl⟩
    · trivial
  | legacy =>
    intro value
    show (ite _ _ _ : Body reexportSchema).Honest _
    split
    · rintro (_ | _)
      · exact fun hengine => hengine.elim
      · trivial
    · trivial

variable {tree : Body reexportSchema} {values : Values reexportSchema}

/-- Without the legacy module, the library demands nothing. -/
lemma unfolds_library (hvalue : values .library = some 0)
    (h : Unfolds recovering values (recovering .library) tree) :
    tree = recovering .library ∨ tree = .ret (.ok 0) := by
  induction h with
  | refl => exact Or.inl rfl
  | read _ ih =>
    rcases ih with heq | heq
    · cases heq
      exact Or.inr (by simp [hvalue])
    · cases heq
  | demand _ _ ih => rcases ih with heq | heq <;> cases heq

/-- A body that only reads inputs. -/
def Body.ReadsOnly : Body σ → Prop
  | .ret _ | .panic => True
  | .read _ next => ∀ value, (next value).ReadsOnly
  | .demand _ _ => False

lemma Unfolds.readsOnly {bodies : Bodies σ} {values : Values σ} {start tree : Body σ}
    (h : Unfolds bodies values start tree) (hstart : start.ReadsOnly) : tree.ReadsOnly := by
  induction h with
  | refl => exact hstart
  | read _ ih => exact ih _
  | demand _ _ ih => exact ih.elim

lemma legacy_readsOnly : (recovering .legacy).ReadsOnly := by
  intro value
  show (ite _ _ _ : Body reexportSchema).ReadsOnly
  split
  · rintro (_ | _) <;> trivial
  · trivial

/-- The library has a value, so the main module demands nothing else. -/
lemma unfolds_main (hvalue : values .library = some 0)
    (h : Unfolds recovering values (recovering .main) tree) :
    tree = recovering .main ∨ tree = .ret (.ok 0) := by
  have hlibrary : FromScratch recovering values .library (.ok 0) := by
    refine .read ?_
    rw [hvalue]
    exact .ret _
  induction h with
  | refl => exact Or.inl rfl
  | read _ ih => rcases ih with heq | heq <;> cases heq
  | demand _ hanswer ih =>
    rcases ih with heq | heq
    · cases heq
      cases hanswer.deterministic hlibrary
      exact Or.inr rfl
    · cases heq

/-- Without the legacy module, only the main module demands anything. -/
lemma recovering_not_hasCycle (hvalue : values .library = some 0) :
    ¬ HasCycle recovering values := by
  have hdemands : ∀ query other, Demands recovering values query other →
      query = .main ∧ other = .library := by
    rintro query other ⟨next, hunfolds⟩
    cases query with
    | main =>
      rcases unfolds_main hvalue hunfolds with heq | heq
      · cases heq
        exact ⟨rfl, rfl⟩
      · cases heq
    | library => rcases unfolds_library hvalue hunfolds with heq | heq <;> cases heq
    | legacy => exact (hunfolds.readsOnly legacy_readsOnly).elim
  rintro ⟨query, hpath⟩
  obtain ⟨first, hfirst, -⟩ := Relation.TransGen.head'_iff.mp hpath
  obtain ⟨last, -, hlast⟩ := Relation.TransGen.tail'_iff.mp hpath
  have hmain := (hdemands _ _ hfirst).1
  have hlibrary := (hdemands _ _ hlast).2
  rw [hmain] at hlibrary
  cases hlibrary

/-- **A `Cycle` without a cycle.**  Bodies that propagate `Cycle` and recover from `MissingContent`
make a query return `Cycle` although the dependency graph of the current inputs has none. -/
theorem recovered_error_returns_cycle :
    ∃ s s' stack, (∀ query, (recovering query).PropagatesCycle) ∧
      (∀ query, (recovering query).Honest fun _ => False) ∧
      Reachable (Drives recovering noRemoval) s ∧
      s.act (nextStep recovering 2 s) =
        .next s' (some (.returned 2 .main true (.result (.error (.Cycle stack))))) ∧
      ¬ HasCycle recovering s'.values := by
  have hrun : ((State.new.follow reexportRun).bind fun s =>
      (s.act (nextStep recovering 2 s)).returnsCycle.map fun returned =>
        (returned.1.values .library, returned.2)) =
        some (some 0, 2, .main, [.main, .main]) := by decide
  obtain ⟨s, hfollow, hreturned⟩ := Option.bind_eq_some_iff.mp hrun
  obtain ⟨⟨s', id, query, stack⟩, hreturned, heq⟩ := Option.map_eq_some_iff.mp hreturned
  simp only [Prod.mk.injEq] at heq
  obtain ⟨hvalue, rfl, rfl, -⟩ := heq
  have hreach : Reachable (Drives recovering noRemoval) s := by
    refine Reachable.follow (fun choose hmem s => ?_) .new hfollow
    simp only [reexportRun, List.mem_append, List.mem_cons, List.not_mem_nil, or_false,
      List.mem_replicate] at hmem
    rcases hmem with (((rfl | rfl | rfl | rfl) | ⟨-, rfl⟩) |
      rfl | rfl | rfl | rfl | rfl | rfl | rfl) | ⟨-, rfl⟩
    case inl.inl.inr | inr => exact drives_nextStep recovering noRemoval _ s
    case inl.inl.inl.inr.inl | inl.inr.inr.inr.inl | inl.inr.inr.inr.inr.inr.inl =>
      exact fun removal => removal.elim
    all_goals trivial
  exact ⟨s, s', stack, recovering_propagatesCycle, recovering_honest, hreach,
    returnsCycle_eq_some hreturned, recovering_not_hasCycle hvalue⟩

end Iris.Building
