import IrisCompiler.Building.FromScratch
import IrisCompiler.Building.Ownership
import Mathlib.Tactic.Common

/-!
# Why a cached value is right

The engine keeps a value across revisions when the timestamps of its dependencies say that nothing
changed.  The invariant of this module says what the timestamps mean.

A revision is known by its inputs, and a query by the revisions in which it was built; both are
ghosts (`History`), since the engine forgets them.  An entry that was built in revision `t` is the
end of a run of its body over the inputs of `t` (`Record`), every query of which was built in `t`
too.  Its `changed` timestamp says that the value was the same in all the revisions since then in
which the query was built (`History.Stable`); it says nothing of the others.  So when a dependency
is found unchanged since `t`, it was built both in `t` and now, and has one value in both: the run
over the inputs of `t` is a run over the inputs of now (`Reaches.transport`).

A body may see a query fail with `Unverifiable` or `Cancelled` and go on.  Its frame then has an
`unavailable_dependency`, and from there nothing is claimed about it; no value is stored for it.
-/

namespace Iris.Building

open Iris.Building.Frame Function InputState List State

variable {σ : Schema}

/-- The values of the inputs of the current revision. -/
def State.values (self : State σ) : Values σ := fun key => (self.inputs key).map InputState.value

/-- What only writers change. -/
structure Base (σ : Schema) where
  inputs : σ.Input → Option (InputState σ)
  revision : ℕ

def State.base (self : State σ) : Base σ := ⟨self.inputs, self.revision⟩

/-- The inputs of each revision so far, and the revisions in which each query was built. -/
structure History (σ : Schema) where
  inputsAt : ℕ → Values σ
  builtAt : σ.Query → ℕ → Prop

/-- A query is built. -/
def History.build (self : History σ) (query : σ.Query) (revision : ℕ) : History σ :=
  { self with builtAt := fun other t => self.builtAt other t ∨ (other = query ∧ t = revision) }

/-- A revision begins. -/
def History.begin (self : History σ) (revision : ℕ) (inputs : Values σ) : History σ :=
  { self with inputsAt := Function.update self.inputsAt revision inputs }

section Meaning

variable (bodies : Bodies σ) (H : History σ)

/-- The value of a query in a revision. -/
def History.Holds (t : ℕ) (query : σ.Query) (value : σ.Value) : Prop :=
  FromScratch bodies (H.inputsAt t) query (.ok value)

/-- **What a `changed` timestamp means**: the query had this value in every revision since then, and
before `bound`, in which it was built. -/
def History.Stable (query : σ.Query) (value : σ.Value) (changed bound : ℕ) : Prop :=
  ∀ t, changed ≤ t → t < bound → H.builtAt query t → H.Holds bodies t query value

/-- **What an input's `changed` timestamp means** to a run in revision `t` that read it. -/
def History.InputKept (now : Base σ) (t : ℕ) (key : σ.Input) : Prop :=
  match now.inputs key with
  | none => H.inputsAt t key = none
  | some state => state.changed ≤ t → H.inputsAt t key = some state.value

/-- A run of a query's body in revision `t`. -/
structure History.Run (query : σ.Query) (value : σ.Value) (t : ℕ)
    (dependencies : List (QueryKey σ.Input σ.Query)) : Prop where
  reaches : Reaches bodies (H.inputsAt t) dependencies (bodies query) (.ret (.ok value))
  built : ∀ other, .derived other ∈ dependencies → H.builtAt other t

/-- **What a cached value is.** -/
structure Record (now : Base σ) (query : σ.Query) (cached : Cached σ) : Prop where
  run : H.Run bodies query cached.computed cached.trace.built cached.dependencies
  inputs : ∀ key, .input key ∈ cached.dependencies → H.InputKept now cached.trace.built key

/-- A record in the map of derived queries: it is the last time the query was built. -/
structure Entry (now : Base σ) (query : σ.Query) (cached : Cached σ) : Prop
    extends Record bodies H now query cached where
  le : cached.trace.built ≤ now.revision
  last : ∀ t, H.builtAt query t → t ≤ cached.trace.built
  builtAt : H.builtAt query cached.trace.built
  stable : H.Stable bodies query cached.computed cached.trace.changed cached.trace.built

/-! ## Frames -/

/-- A dependency of a run in revision `t` keeps its value in the current revision. -/
def Agrees (now : Base σ) (t : ℕ) : QueryKey σ.Input σ.Query → Prop
  | .input key => H.inputsAt t key = H.inputsAt now.revision key
  | .derived query => ∀ value, H.Holds bodies t query value →
      H.Holds bodies now.revision query value

/-- What `verify_core` found out about a dependency. -/
structure Checked (now : Base σ) (t latest : ℕ) (key : QueryKey σ.Input σ.Query) : Prop where
  built : ∀ query, key = .derived query → H.builtAt query now.revision
  agrees : latest ≤ t → Agrees bodies H now t key

/-- `verify_core`: the record it is about, and the dependencies that are done. -/
structure Verifying (now : Base σ) (query : σ.Query) (cached : Cached σ)
    (todo : List (QueryKey σ.Input σ.Query)) (latest : ℕ) : Prop
    extends Record bodies H now query cached where
  lt : cached.trace.built < now.revision
  stable : H.Stable bodies query cached.computed cached.trace.changed now.revision
  checked : ∀ key ∈ cached.dependencies,
    key ∈ todo ∨ Checked bodies H now cached.trace.built latest key

/-- The value that `compute_core` compares with. -/
def PreviousOk (now : Base σ) (query : σ.Query) (previous : Option (σ.Value × Trace)) : Prop :=
  ∀ value trace, previous = some (value, trace) →
    H.Stable bodies query value trace.changed now.revision

/-- A body that runs: it failed, or its run so far is one over the current inputs.  `pending` is the
query that it demands now. -/
def Running (now : Base σ) (frame : Frame σ) (pending : Option σ.Query) (tree : Body σ) : Prop :=
  frame.unavailableDependency = none →
    (∃ error, tree = .ret (.error error)) ∨
      (Reaches bodies (H.inputsAt now.revision) frame.dependencies (bodies frame.query) tree ∧
        ∀ query, .derived query ∈ frame.dependencies →
          pending = some query ∨ H.builtAt query now.revision)

/-- The flag `verifying`, by program counter. -/
def Frame.VerifyingWf (self : Frame σ) : Prop :=
  match self.pc with
  | .verify .. | .verifyDemand .. | .verifyTrace .. => self.verifying = true
  | .leave _ => True
  | _ => self.verifying = false

/-- The frame reads the revision before everything else. -/
def Frame.RevisionWf (now : Base σ) (frame : Frame σ) : Prop :=
  match frame.pc with
  | .start | .leave _ => True
  | _ => frame.revision = now.revision

/-- Nothing is recorded before the body runs. -/
def Frame.DependenciesWf (self : Frame σ) : Prop :=
  match self.pc with
  | .body .. | .bodyDemand .. | .store .. | .leave _ => True
  | _ => self.dependencies = []

/-- What a frame knows, by program counter. -/
def Frame.Knows (now : Base σ) (frame : Frame σ) : Prop :=
  match frame.pc with
  | .start | .readPath | .upgradePath | .wait => True
  | .verify cached todo latest => Verifying bodies H now frame.query cached todo latest
  | .verifyDemand cached query todo latest =>
    Verifying bodies H now frame.query cached (.derived query :: todo) latest
  | .verifyTrace cached query todo latest =>
    Verifying bodies H now frame.query cached (.derived query :: todo) latest ∧
      H.builtAt query now.revision
  | .compute previous => PreviousOk bodies H now frame.query previous
  | .body previous tree =>
    PreviousOk bodies H now frame.query previous ∧ Running bodies H now frame none tree
  | .bodyDemand previous query next =>
    PreviousOk bodies H now frame.query previous ∧
      Running bodies H now frame (some query) (.demand query next) ∧
      .derived query ∈ frame.dependencies
  | .store computed trace dependencies =>
    trace.built = now.revision ∧ H.Run bodies frame.query computed now.revision dependencies ∧
      H.Stable bodies frame.query computed trace.changed now.revision
  | .leave outcome => ∀ value, outcome = .result (.ok value) →
    H.Holds bodies now.revision frame.query value ∧ H.builtAt frame.query now.revision

/-- **What is true of a frame.** -/
structure FrameOk (now : Base σ) (frame : Frame σ) : Prop where
  verifying : frame.VerifyingWf
  revision : frame.RevisionWf now
  dependencies : frame.DependenciesWf
  knows : frame.Knows bodies H now

end Meaning

/-- The query that a frame has demanded. -/
def Pc.demanded : Pc σ → Option σ.Query
  | .verifyDemand _ query _ _ | .bodyDemand _ query _ => some query
  | _ => none

/-- Each frame was pushed by the demand of the frame below it. -/
def Linked : List (Frame σ) → Prop
  | frame :: parent :: rest => parent.pc.demanded = some frame.query ∧ Linked (parent :: rest)
  | _ => True

/-- **The cache invariant.** -/
structure Good (bodies : Bodies σ) (H : History σ) (s : State σ) : Prop where
  inputs : H.inputsAt s.revision = s.values
  past : ∀ query t, H.builtAt query t → t ≤ s.revision
  fresh : ∀ query, H.builtAt query s.revision →
    ∃ computed trace dependencies, s.derived query = .Computed computed trace dependencies ∧
      trace.built = s.revision
  entries : ∀ query computed trace dependencies,
    s.derived query = .Computed computed trace dependencies →
      Entry bodies H s.base query ⟨computed, trace, dependencies⟩
  frames : ∀ id frames, s.snapshots id = some frames →
      ∀ frame ∈ frames, FrameOk bodies H s.base frame
  linked : ∀ id frames, s.snapshots id = some frames → Linked frames
  slots : ∀ id frame rest value, s.snapshots id = some (frame :: rest) → frame.pc = .wait →
    s.slots id = .Full value →
      H.Holds bodies s.revision frame.query value ∧ H.builtAt frame.query s.revision

/-! ## A query is built -/

section Build

variable {bodies : Bodies σ} {H : History σ} {now : Base σ} {query other : σ.Query} {t : ℕ}

variable {value : σ.Value} {cached : Cached σ} {frame : Frame σ}

/-- Building a query now says nothing about earlier revisions. -/
lemma History.Stable.build {changed bound revision : ℕ} (hbound : bound ≤ revision)
    (h : H.Stable bodies other value changed bound) (query : σ.Query) :
    (H.build query revision).Stable bodies other value changed bound := by
  intro t hchanged hlt hbuilt
  rcases hbuilt with hbuilt | ⟨-, rfl⟩
  · exact h t hchanged hlt hbuilt
  · omega

lemma History.Run.build {dependencies : List (QueryKey σ.Input σ.Query)}
    (h : H.Run bodies other value t dependencies) (query : σ.Query) (revision : ℕ) :
    (H.build query revision).Run bodies other value t dependencies :=
  ⟨h.reaches, fun dependency hmem => Or.inl (h.built dependency hmem)⟩

lemma Record.build (h : Record bodies H now other cached) (query : σ.Query) (revision : ℕ) :
    Record bodies (H.build query revision) now other cached :=
  ⟨h.run.build query revision, h.inputs⟩

lemma Verifying.build {todo : List (QueryKey σ.Input σ.Query)} {latest : ℕ}
    (h : Verifying bodies H now other cached todo latest) (query : σ.Query) :
    Verifying bodies (H.build query now.revision) now other cached todo latest where
  toRecord := h.toRecord.build query _
  lt := h.lt
  stable := h.stable.build (Nat.le_refl _) query
  checked := by
    intro key hmem
    refine (h.checked key hmem).imp_right fun hchecked => ⟨fun dependency hkey => ?_, ?_⟩
    · exact Or.inl (hchecked.built dependency hkey)
    · cases key with
      | input key => exact hchecked.agrees
      | derived dependency => exact hchecked.agrees

lemma PreviousOk.build {previous : Option (σ.Value × Trace)}
    (h : PreviousOk bodies H now other previous) (query : σ.Query) :
    PreviousOk bodies (H.build query now.revision) now other previous :=
  fun value trace heq => (h value trace heq).build (Nat.le_refl _) query

lemma Running.build {pending : Option σ.Query} {tree : Body σ}
    (h : Running bodies H now frame pending tree) (query : σ.Query) :
    Running bodies (H.build query now.revision) now frame pending tree := by
  intro hnone
  refine (h hnone).imp_right fun hrun => ⟨hrun.1, fun dependency hmem => ?_⟩
  exact (hrun.2 dependency hmem).imp_right Or.inl

/-- **What a frame knows stays true when any query is built.** -/
lemma FrameOk.build (h : FrameOk bodies H now frame) (query : σ.Query) :
    FrameOk bodies (H.build query now.revision) now frame where
  verifying := h.verifying
  revision := h.revision
  dependencies := h.dependencies
  knows := by
    have hknows := h.knows
    unfold Knows at hknows ⊢
    split at hknows
    · trivial
    · trivial
    · trivial
    · trivial
    · exact hknows.build query
    · exact hknows.build query
    · exact ⟨hknows.1.build query, Or.inl hknows.2⟩
    · exact hknows.build query
    · exact ⟨hknows.1.build query, hknows.2.build query⟩
    · exact ⟨hknows.1.build query, hknows.2.1.build query, hknows.2.2⟩
    · exact ⟨hknows.1, hknows.2.1.build query _, hknows.2.2.build (Nat.le_refl _) query⟩
    · exact fun value heq => ⟨(hknows value heq).1, Or.inl (hknows value heq).2⟩

/-- Another query is built. -/
lemma Entry.build (h : Entry bodies H now other cached) (hne : other ≠ query) :
    Entry bodies (H.build query now.revision) now other cached where
  toRecord := h.toRecord.build query _
  le := h.le
  last := by
    rintro t (hbuilt | ⟨heq, -⟩)
    · exact h.last t hbuilt
    · exact absurd heq hne
  builtAt := Or.inl h.builtAt
  stable := h.stable.build h.le query

end Build

/-! ## Verification -/

section Verification

variable {bodies : Bodies σ} {H : History σ} {now : Base σ} {query : σ.Query} {cached : Cached σ}
  {todo : List (QueryKey σ.Input σ.Query)} {key : QueryKey σ.Input σ.Query} {t latest later : ℕ}

lemma Checked.mono (hle : latest ≤ later) (h : Checked bodies H now t latest key) :
    Checked bodies H now t later key :=
  ⟨h.built, fun hlater => h.agrees (Nat.le_trans hle hlater)⟩

/-- `verify_core` is done with one dependency. -/
lemma Verifying.advance (h : Verifying bodies H now query cached (key :: todo) latest)
    (hle : latest ≤ later)
    (hkey : key ∈ cached.dependencies → Checked bodies H now cached.trace.built later key) :
    Verifying bodies H now query cached todo later where
  toRecord := h.toRecord
  lt := h.lt
  stable := h.stable
  checked := by
    intro dependency hmem
    rcases h.checked dependency hmem with htodo | hchecked
    · rcases mem_cons.mp htodo with rfl | htodo
      · exact Or.inr (hkey hmem)
      · exact Or.inl htodo
    · exact Or.inr (hchecked.mono hle)

/-- **A record whose dependencies are all unchanged is the end of a run over the current
inputs.** -/
lemma Verifying.run_now (h : Verifying bodies H now query cached [] latest)
    (hlatest : latest ≤ cached.trace.built) :
    H.Run bodies query cached.computed now.revision cached.dependencies := by
  have hchecked : ∀ key ∈ cached.dependencies,
      Checked bodies H now cached.trace.built latest key := fun key hmem =>
    (h.checked key hmem).resolve_left (by simp)
  refine ⟨h.run.reaches.transport (fun key hmem => ?_) (fun dependency value hmem => ?_),
    fun dependency hmem => (hchecked _ hmem).built dependency rfl⟩
  · exact (hchecked _ hmem).agrees hlatest
  · exact (hchecked _ hmem).agrees hlatest value

variable {s : State σ}

/-- An input dependency. -/
lemma Good.checked_input (h : Good bodies H s) {key : σ.Input} (hkept : H.InputKept s.base t key)
    (hlater : ∀ state, s.inputs key = some state → state.changed ≤ later) :
    Checked bodies H s.base t later (.input key) := by
  refine ⟨fun _ heq => (by cases heq), fun hle => ?_⟩
  have hnow : H.inputsAt s.revision key = (s.inputs key).map value :=
    congrFun h.inputs key
  simp only [History.InputKept, base] at hkept
  show H.inputsAt t key = H.inputsAt s.revision key
  rw [hnow]
  cases hinput : s.inputs key with
  | none =>
    rw [hinput] at hkept
    exact hkept
  | some state =>
    rw [hinput] at hkept
    exact hkept (Nat.le_trans (hlater state hinput) hle)

/-- A derived dependency that was built now: it was built in revision `t` as well, and its timestamp
compares the two. -/
lemma Good.checked_derived (h : Good bodies H s) (hlt : t < s.revision) {computed : σ.Value}
    {trace : Trace} {dependencies : List (QueryKey σ.Input σ.Query)}
    (hstate : s.derived query = .Computed computed trace dependencies)
    (hbuilt : trace.built = s.revision) (hrun : H.builtAt query t)
    (hlater : trace.changed ≤ later) : Checked bodies H s.base t later (.derived query) := by
  have hentry := h.entries _ _ _ _ hstate
  have hnow : H.builtAt query s.revision := hbuilt ▸ hentry.builtAt
  refine ⟨fun _ heq => by cases heq; exact hnow, fun hle value hvalue => ?_⟩
  have hthen : H.Holds bodies t query computed :=
    hentry.stable t (Nat.le_trans hlater hle) (show t < trace.built by omega) hrun
  obtain rfl : value = computed := by simpa using hvalue.deterministic hthen
  have hvalue' : H.Holds bodies trace.built query value := hentry.run.reaches.fromScratch
  rwa [hbuilt] at hvalue'

end Verification

/-! ## Steps of one frame -/

section LocalSteps

variable {bodies : Bodies σ} {H : History σ} {s : State σ} {id : SnapshotId}
  {frame next : Frame σ} {rest : List (Frame σ)} {tree : Body σ}
  {order : List (QueryKey σ.Input σ.Query)}

variable {now : Base σ} {query : σ.Query} {computed : σ.Value} {trace : Trace}
  {dependencies todo : List (QueryKey σ.Input σ.Query)} {previous : Option (σ.Value × Trace)}
  {cached : Cached σ} {latest : ℕ}

/-- A frame that failed knows nothing. -/
lemma FrameOk.failed {outcome : Outcome σ} (hpc : frame.pc = .leave outcome)
    (hfailed : ∀ value, outcome ≠ .result (.ok value)) : FrameOk bodies H now frame := by
  refine ⟨?_, ?_, ?_, ?_⟩
  · simp [VerifyingWf, hpc]
  · simp [RevisionWf, hpc]
  · simp [DependenciesWf, hpc]
  · simp only [Knows, hpc]
    exact fun value heq => absurd heq (hfailed value)

/-- A frame that looks its query up, or waits for it, has nothing yet. -/
lemma FrameOk.looking (h : FrameOk bodies H now frame)
    (hpc : frame.pc.IsLookup ∨ frame.pc = .wait) :
    frame.verifying = false ∧ frame.revision = now.revision ∧ frame.dependencies = [] := by
  obtain ⟨hverifying, hrevision, hdeps, -⟩ := h
  simp only [VerifyingWf, RevisionWf, DependenciesWf] at hverifying hrevision hdeps
  rcases hpc.imp_left Pc.IsLookup.cases with (hpc | hpc) | hpc <;>
    simp only [hpc] at hverifying hrevision hdeps <;> exact ⟨hverifying, hrevision, hdeps⟩

/-- `verify_core` runs. -/
def Pc.IsVerify : Pc σ → Prop
  | .verify .. | .verifyDemand .. | .verifyTrace .. => True
  | _ => False

lemma FrameOk.whileVerifying (h : FrameOk bodies H now frame) (hpc : frame.pc.IsVerify) :
    frame.verifying = true ∧ frame.revision = now.revision ∧ frame.dependencies = [] := by
  obtain ⟨hverifying, hrevision, hdeps, -⟩ := h
  simp only [VerifyingWf, RevisionWf, DependenciesWf] at hverifying hrevision hdeps
  unfold Pc.IsVerify at hpc
  split at hpc <;> simp_all

/-- An entry that was built now holds the value of its query. -/
lemma Good.holds_of_fresh (h : Good bodies H s)
    (hstate : s.derived query = .Computed computed trace dependencies)
    (hbuilt : trace.built = s.revision) :
    H.Holds bodies s.revision query computed ∧ H.builtAt query s.revision := by
  have hentry := h.entries _ _ _ _ hstate
  rw [← hbuilt]
  exact ⟨hentry.run.reaches.fromScratch, hentry.builtAt⟩

lemma computedTrace_eq_some (h : s.computedTrace query = some trace) :
    ∃ computed dependencies, s.derived query = .Computed computed trace dependencies := by
  unfold computedTrace at h
  split at h
  · rename_i computed found dependencies hstate
    exact ⟨computed, dependencies, Option.some.inj h ▸ hstate⟩
  · cases h

/-- `compute_core` stores the timestamp of the value it compares with, or the current revision. -/
lemma PreviousOk.stable_changedAt (h : PreviousOk bodies H now query previous) (computed : σ.Value)
    :
    H.Stable bodies query computed (changedAt previous computed now.revision)
      now.revision := by
  unfold changedAt
  split
  · rename_i value trace
    split
    · rename_i heq
      subst heq
      exact h computed trace rfl
    · exact fun t hle hlt => absurd hle (Nat.not_le.mpr hlt)
  · exact fun t hle hlt => absurd hle (Nat.not_le.mpr hlt)

/-- A verifying frame goes on to its next dependency. -/
lemma FrameOk.verify (hok : FrameOk bodies H now frame) (hpc : frame.pc.IsVerify)
    (hnext : Verifying bodies H now frame.query cached todo latest) :
    FrameOk bodies H now { frame with pc := .verify cached todo latest } :=
  have ⟨hverifying, hrevision, hdeps⟩ := hok.whileVerifying hpc
  ⟨hverifying, hrevision, hdeps, hnext⟩

/-- `compute_core` starts. -/
lemma Verifying.compute (h : Verifying bodies H now frame.query cached todo latest)
    (hok : FrameOk bodies H now frame) (hpc : frame.pc.IsVerify) :
    FrameOk bodies H now
      { frame with verifying := false, pc := .compute (some (cached.computed, cached.trace)) } := by
  refine ⟨rfl, (hok.whileVerifying hpc).2.1, (hok.whileVerifying hpc).2.2, ?_⟩
  rintro value trace heq
  obtain ⟨rfl, rfl⟩ := Prod.mk.inj (Option.some.inj heq)
  exact h.stable

/-- A frame that found its entry built in the current revision. -/
lemma Good.frameOk_hit (h : Good bodies H s) (hpc : frame.pc.IsLookup)
    (hok : FrameOk bodies H s.base frame)
    (hstate : s.derived frame.query = .Computed computed trace dependencies)
    (hbuilt : trace.built = frame.revision) :
    FrameOk bodies H s.base { frame with pc := .leave (.result (.ok computed)) } := by
  refine ⟨trivial, trivial, trivial, fun value heq => ?_⟩
  cases heq
  exact h.holds_of_fresh hstate (hbuilt.trans (hok.looking (.inl hpc)).2.1)

/-- A frame reads an input. -/
lemma Good.frameOk_read (h : Good bodies H s) (hok : FrameOk bodies H s.base frame) {key : σ.Input}
    {next : Option σ.InputValue → Body σ} (hpc : frame.pc = .body previous (.read key next)) :
    FrameOk bodies H s.base
      { frame.record (.input key) with
        pc := .body previous (next ((s.inputs key).map value)) } := by
  obtain ⟨hverifying, hrevision, -, hknows⟩ := hok
  simp only [VerifyingWf, RevisionWf, Knows, hpc] at hverifying hrevision hknows
  have hrecord : frame.record (.input key) =
      { frame with dependencies := frame.dependencies.insert (.input key) } := by
    simp [record, hverifying]
  rw [hrecord]
  refine ⟨hverifying, hrevision, trivial, hknows.1, fun hnone => Or.inr ?_⟩
  rcases hknows.2 hnone with ⟨error, heq⟩ | ⟨hreaches, hbuilt⟩
  · cases heq
  · have hvalue : (s.inputs key).map value = H.inputsAt s.revision key :=
      (congrFun h.inputs key).symm
    rw [hvalue]
    refine ⟨.read (hreaches.mono fun dependency hmem => mem_insert_of_mem hmem)
      mem_insert_self, fun dependency hmem => ?_⟩
    rcases mem_insert_iff.mp hmem with heq | hmem
    · cases heq
    · exact hbuilt dependency hmem

/-- **A local step keeps what is true of its frame.** -/
lemma Good.frameOk_local (h : Good bodies H s) (hs : s.snapshots id = some (frame :: rest))
    (htree : tree = bodies frame.query) (hlocal : LocalStep s id frame rest tree order next) :
    FrameOk bodies H s.base next := by
  have hok : FrameOk bodies H s.base frame := h.frames id _ hs frame (by simp)
  have ⟨hverifying, hrevision, hdeps, hknows⟩ := hok
  cases hlocal with
  | startCancelled | unverifiable | cycle | abandoned | computeCancelled | bodyError
  | bodyUnavailable | bodyPanic => exact .failed rfl (by simp)
  | hit hpc hstate hbuilt => exact h.frameOk_hit hpc hok hstate hbuilt
  | read hpc => exact h.frameOk_read hok hpc
  | start hpc _ =>
    simp only [VerifyingWf, DependenciesWf, hpc] at hverifying hdeps
    exact ⟨hverifying, rfl, hdeps, trivial⟩
  | miss hpc =>
    obtain ⟨hverifying, hrevision, hdeps⟩ := hok.looking (.inl (hpc ▸ trivial))
    exact ⟨hverifying, hrevision, hdeps, trivial⟩
  | verified hpc hlatest =>
    simp only [RevisionWf, Knows, hpc] at hrevision hknows
    exact ⟨rfl, hrevision, trivial, hrevision, hknows.run_now hlatest, hknows.stable⟩
  | outdated hpc _ =>
    simp only [Knows, hpc] at hknows
    exact hknows.compute hok (hpc ▸ trivial)
  | missingInput hpc hinput =>
    simp only [Knows, hpc] at hknows
    refine hok.verify (hpc ▸ trivial) (hknows.advance (Nat.le_refl _) fun hmem => ?_)
    exact h.checked_input (hknows.inputs _ hmem) (by simp [hinput])
  | input hpc hinput =>
    simp only [Knows, hpc] at hknows
    refine hok.verify (hpc ▸ trivial) (hknows.advance (Nat.le_max_left _ _) fun hmem => ?_)
    refine h.checked_input (hknows.inputs _ hmem) fun state hstate => ?_
    cases hinput.symm.trans hstate
    exact Nat.le_max_right _ _
  | fresh hpc htrace hbuilt =>
    simp only [Knows, hpc] at hknows
    obtain ⟨computed, dependencies, hstate⟩ := computedTrace_eq_some htrace
    refine hok.verify (hpc ▸ trivial) (hknows.advance (Nat.le_max_left _ _) fun hmem => ?_)
    exact h.checked_derived hknows.lt hstate (hbuilt.trans (hok.whileVerifying (hpc ▸ trivial)).2.1)
      (hknows.run.built _ hmem)
      (Nat.le_max_right _ _)
  | traced hpc htrace =>
    simp only [Knows, hpc] at hknows
    obtain ⟨computed, found, dependencies, hstate, hbuilt⟩ := h.fresh _ hknows.2
    rw [computedTrace, hstate] at htrace
    cases htrace
    refine hok.verify (hpc ▸ trivial)
      (hknows.1.advance (Nat.le_max_left _ _) fun hmem => ?_)
    exact h.checked_derived hknows.1.lt hstate hbuilt (hknows.1.run.built _ hmem)
      (Nat.le_max_right _ _)
  | untraced hpc htrace =>
    -- a query that was just built is in the map
    simp only [Knows, hpc] at hknows
    obtain ⟨computed, found, dependencies, hstate, -⟩ := h.fresh _ hknows.2
    rw [computedTrace, hstate] at htrace
    cases htrace
  | compute hpc _ =>
    simp only [VerifyingWf, RevisionWf, DependenciesWf, Knows, hpc]
      at hverifying hrevision hdeps hknows
    refine ⟨hverifying, hrevision, trivial, hknows, fun _ => Or.inr ⟨?_, ?_⟩⟩
    · rw [htree]
      exact .refl
    · simp [hdeps]
  | bodyOk hpc hunavailable horder =>
    simp only [VerifyingWf, RevisionWf, Knows, hpc]
      at hverifying hrevision hknows
    obtain ⟨hprevious, hrunning⟩ := hknows
    rcases hrunning hunavailable with ⟨error, heq⟩ | ⟨hreaches, hbuilt⟩
    · cases heq
    · refine ⟨hverifying, hrevision, trivial, hrevision, ⟨?_, fun query hmem => ?_⟩, ?_⟩
      · exact hreaches.mono fun key hmem => horder.mem_iff.mpr hmem
      · simpa using hbuilt query (horder.mem_iff.mp hmem)
      · rw [hrevision]
        exact hprevious.stable_changedAt _

end LocalSteps

/-! ## Demands and returns -/

section Demands

variable {bodies : Bodies σ} {H : History σ} {now : Base σ} {s : State σ}
  {frame parent : Frame σ} {query : σ.Query}

lemma FrameOk.new (query : σ.Query) : FrameOk bodies H now (new query) :=
  ⟨rfl, trivial, rfl, trivial⟩

/-- **A frame that demands a query.** -/
lemma FrameOk.demand (hok : FrameOk bodies H now frame)
    (hdemand : DemandStep s frame parent query) :
    FrameOk bodies H now (parent.record (.derived query)) ∧
      (parent.record (.derived query)).pc.demanded = some query := by
  have ⟨hverifying, hrevision, hdeps, hknows⟩ := hok
  cases hdemand with
  | verify hpc =>
    obtain ⟨hverifying, hrevision, hdeps⟩ := hok.whileVerifying (hpc ▸ trivial)
    simp only [Knows, hpc] at hknows
    simp only [hverifying]
    exact ⟨⟨rfl, hrevision, hdeps, hknows⟩, rfl⟩
  | body hpc =>
    simp only [VerifyingWf, RevisionWf, Knows, hpc]
      at hverifying hrevision hknows
    simp only [hverifying]
    refine ⟨⟨rfl, hrevision, trivial, hknows.1, fun hnone => Or.inr ?_, ?_⟩, rfl⟩
    · rcases hknows.2 hnone with ⟨error, heq⟩ | ⟨hreaches, hbuilt⟩
      · cases heq
      · refine ⟨hreaches.mono fun key hmem => mem_insert_of_mem hmem, fun other hmem => ?_⟩
        rcases mem_insert_iff.mp hmem with heq | hmem
        · cases heq
          exact Or.inl rfl
        · exact Or.inr ((hbuilt other hmem).resolve_left (by simp))
    · exact mem_insert_self

/-- `record_unavailable` changes one field: it keeps the first error that says nothing about the
inputs. -/
lemma recordUnavailable_spec (hverifying : frame.verifying = false) (error : QueryError σ) :
    ∃ unavailable, frame.recordUnavailable error =
        { frame with unavailableDependency := unavailable } ∧
      (unavailable = none → frame.unavailableDependency = none ∧ ¬ error.IsUnavailable) ∧
      (unavailable = frame.unavailableDependency ∨ unavailable = none ∨
        (unavailable = some error ∧ error.IsUnavailable)) := by
  unfold recordUnavailable
  split
  · rename_i hsome
    refine ⟨frame.unavailableDependency, rfl, fun hnone => ?_, Or.inl rfl⟩
    simp [hverifying, hnone] at hsome
  · rename_i hnone
    simp only [hverifying, Bool.false_or, Bool.not_eq_true, Option.isSome_eq_false_iff,
      Option.isNone_iff_eq_none] at hnone
    cases error
    · exact ⟨_, rfl, by simp, Or.inr (Or.inr ⟨rfl, trivial⟩)⟩
    · exact ⟨_, rfl, fun _ => ⟨hnone, id⟩, Or.inr (Or.inl rfl)⟩
    · exact ⟨_, rfl, fun _ => ⟨hnone, id⟩, Or.inr (Or.inl rfl)⟩
    · exact ⟨_, rfl, by simp, Or.inr (Or.inr ⟨rfl, trivial⟩)⟩

/-- A demand of a body fails. -/
lemma FrameOk.resume_body_error (hbodies : ∀ query, (bodies query).Propagates)
    (hok : FrameOk bodies H now parent) {previous : Option (σ.Value × Trace)}
    {next : QueryResult σ → Body σ} (hpc : parent.pc = .bodyDemand previous query next)
    (error : QueryError σ) :
    FrameOk bodies H now (resume parent (.result (.error error))) := by
  obtain ⟨hverifying, hrevision, -, hknows⟩ := hok
  simp only [VerifyingWf, RevisionWf, Knows, hpc] at hverifying hrevision hknows
  obtain ⟨unavailable, hrecord, hnone, -⟩ := recordUnavailable_spec hverifying error
  simp only [resume, hrecord, hpc]
  refine ⟨hverifying, hrevision, trivial, hknows.1, fun hunavailable => Or.inl ⟨error, ?_⟩⟩
  obtain ⟨hbefore, hinputs⟩ := hnone hunavailable
  rcases hknows.2.1 hbefore with ⟨_, heq⟩ | ⟨hreaches, -⟩
  · cases heq
  · exact (hreaches.propagates (hbodies _)).1 error hinputs

/-- **The caller of a query goes on.** -/
lemma FrameOk.resume (hbodies : ∀ query, (bodies query).Propagates)
    (hok : FrameOk bodies H now parent) (hdemanded : parent.pc.demanded = some query)
    {outcome : Outcome σ} (houtcome : ∀ value, outcome = .result (.ok value) →
      H.Holds bodies now.revision query value ∧ H.builtAt query now.revision) :
    FrameOk bodies H now (resume parent outcome) := by
  have ⟨hverifying, hrevision, hdeps, hknows⟩ := hok
  rcases outcome with (error | value) | _
  · cases hpc : parent.pc with
    | bodyDemand previous other next => exact hok.resume_body_error hbodies hpc error
    | verifyDemand cached other todo latest =>
      simp only [VerifyingWf, Knows, hpc] at hverifying hknows
      simp only [State.resume, Frame.recordUnavailable, hverifying, Bool.true_or, if_true, hpc]
      cases error with
      | Unverifiable => exact hknows.compute hok (hpc ▸ trivial)
      | Cancelled | Cycle | MissingContent => exact .failed rfl (by simp)
    | _ => simp [hpc, Pc.demanded] at hdemanded
  · obtain ⟨hholds, hbuilt⟩ := houtcome value rfl
    cases hpc : parent.pc with
    | verifyDemand cached other todo latest =>
      simp only [VerifyingWf, RevisionWf, DependenciesWf, Knows, hpc]
        at hverifying hrevision hdeps hknows
      obtain rfl : other = query := by simpa [hpc, Pc.demanded] using hdemanded
      simp only [resume, hpc]
      exact ⟨hverifying, hrevision, hdeps, hknows, hbuilt⟩
    | bodyDemand previous other next =>
      simp only [VerifyingWf, RevisionWf, Knows, hpc]
        at hverifying hrevision hknows
      obtain rfl : other = query := by simpa [hpc, Pc.demanded] using hdemanded
      simp only [resume, hpc]
      refine ⟨hverifying, hrevision, trivial, hknows.1, fun hnone => Or.inr ?_⟩
      rcases hknows.2.1 hnone with ⟨_, heq⟩ | ⟨hreaches, hdependencies⟩
      · cases heq
      · refine ⟨.demand hreaches hknows.2.2 hholds, fun dependency hmem => Or.inr ?_⟩
        rcases hdependencies dependency hmem with heq | hdependency
        · cases heq
          exact hbuilt
        · exact hdependency
    | _ => simp [hpc, Pc.demanded] at hdemanded
  · exact .failed rfl (by simp)

end Demands

/-! ## Steps of the engine -/

section Steps

variable {bodies : Bodies σ} {H : History σ} {s s' : State σ} {id : SnapshotId}
  {frame next : Frame σ} {rest : List (Frame σ)}

/-- The innermost frame is replaced. -/
lemma Linked.replace (h : Linked (frame :: rest)) (hquery : next.query = frame.query) :
    Linked (next :: rest) := by
  cases rest with
  | nil => trivial
  | cons parent below => exact ⟨hquery ▸ h.1, h.2⟩

variable {stack : List (Frame σ)} {other : SnapshotId} {query : σ.Query} {cached : Cached σ}
  {now : Base σ} {computed : σ.Value} {trace : Trace}
  {dependencies : List (QueryKey σ.Input σ.Query)} {stored : State σ}

lemma values_of_base (hbase : s'.base = s.base) : s'.values = s.values := by
  have hinputs : s'.inputs = s.inputs := congrArg Base.inputs hbase
  unfold values
  rw [hinputs]

/-- The stacks after one of them was replaced. -/
lemma snapshots_setFrames_cases (hsnapshots : s'.snapshots = s.snapshots) {frames : List (Frame σ)}
    (h : (s'.setFrames id stack).snapshots other = some frames) :
    (other = id ∧ frames = stack) ∨ (other ≠ id ∧ s.snapshots other = some frames) := by
  by_cases heq : other = id
  · subst heq
    exact Or.inl ⟨rfl, by simpa using h.symm⟩
  · rw [snapshots_setFrames_of_ne _ heq, hsnapshots] at h
    exact Or.inr ⟨heq, h⟩

/-- No value is stored, and no value of the current revision is lost. -/
structure Quiet (s s' : State σ) : Prop where
  base : s'.base = s.base
  derived : ∀ query, s'.derived query = s.derived query ∨
    ((∀ computed trace dependencies, s'.derived query ≠ .Computed computed trace dependencies) ∧
      ∀ computed trace dependencies, s.derived query = .Computed computed trace dependencies →
        trace.built ≠ s.revision)
  slots : ∀ other value, s'.slots other = .Full value → s.slots other = .Full value

/-- **A step that stores nothing.**  Only the frames that it leaves need a proof. -/
lemma Good.quiet (h : Good bodies H s) (hquiet : Quiet s s')
    (hsnapshots : s'.snapshots = s.snapshots)
    (hframes : ∀ frame ∈ stack, FrameOk bodies H s.base frame) (hlinked : Linked stack)
    (hwait : waitsIn stack = none ∨ ∀ value, s'.slots id ≠ .Full value) :
    Good bodies H (s'.setFrames id stack) := by
  obtain ⟨hbase, hderived, hslots⟩ := hquiet
  have hstack : ∀ other frames, (s'.setFrames id stack).snapshots other = some frames → _ :=
    fun other frames => snapshots_setFrames_cases hsnapshots
  have hvalues : s'.values = s.values := values_of_base hbase
  have hrevision : s'.revision = s.revision := congrArg Base.revision hbase
  refine ⟨?_, fun query t => hrevision ▸ h.past query t, fun query hbuilt => ?_, ?_, ?_, ?_, ?_⟩
  · exact (congrArg _ hrevision).trans (h.inputs.trans hvalues.symm)
  · obtain ⟨computed, trace, dependencies, hstate, hnow⟩ := h.fresh query (hrevision ▸ hbuilt)
    rcases hderived query with heq | ⟨-, hstale⟩
    · exact ⟨computed, trace, dependencies, heq.trans hstate, hnow.trans hrevision.symm⟩
    · exact absurd hnow (hstale _ _ _ hstate)
  · intro query computed trace dependencies hstate
    rcases hderived query with heq | ⟨hnot, -⟩
    · exact hbase ▸ h.entries _ _ _ _ (heq ▸ hstate)
    · exact absurd hstate (hnot _ _ _)
  · intro other frames hother
    rcases hstack other frames hother with ⟨-, rfl⟩ | ⟨-, hold⟩
    · exact hbase ▸ hframes
    · exact hbase ▸ h.frames other frames hold
  · intro other frames hother
    rcases hstack other frames hother with ⟨-, rfl⟩ | ⟨-, hold⟩
    · exact hlinked
    · exact h.linked other frames hold
  · intro other top below value hother hpc hslot
    rcases hstack other _ hother with ⟨rfl, heq⟩ | ⟨-, hold⟩
    · rcases hwait with hwait | hwait
      · simp [← heq, waitsIn, hpc, Pc.isWait] at hwait
      · exact absurd hslot (hwait value)
    · exact hrevision ▸ h.slots other top below value hold hpc (hslots other value hslot)

lemma Quiet.refl (s : State σ) : Quiet s s := ⟨rfl, fun _ => Or.inl rfl, fun _ _ h => h⟩

/-- One entry is replaced by one that stores nothing. -/
lemma Quiet.setDerived {state : DerivedState σ} (hbase : s'.base = s.base)
    (hderived : s'.derived = Function.update s.derived query state)
    (hstate : ∀ computed trace dependencies, state ≠ .Computed computed trace dependencies)
    (hstale : ∀ computed trace dependencies,
      s.derived query = .Computed computed trace dependencies →
      trace.built ≠ s.revision)
    (hslots : ∀ other value, s'.slots other = .Full value → s.slots other = .Full value) :
    Quiet s s' := by
  refine ⟨hbase, fun other => ?_, hslots⟩
  rw [hderived]
  by_cases heq : other = query
  · subst heq
    rw [update_self]
    exact Or.inr ⟨hstate, hstale⟩
  · rw [update_of_ne heq]
    exact Or.inl rfl

/-- A slot that is set to anything but a value. -/
lemma full_of_setSlot {slot : Slot σ} {value : σ.Value} (hslot : ∀ value, slot ≠ .Full value)
    (h : Function.update s.slots id slot other = .Full value) : s.slots other = .Full value := by
  by_cases heq : other = id
  · subst heq
    exact absurd (by simpa using h) (hslot value)
  · rwa [update_of_ne heq] at h

/-- The cleanup of `query` stores nothing. -/
lemma cleanup_spec {outcome : Outcome σ} {released : State σ}
    (h : s.cleanup frame outcome = .ok released) :
    Quiet s released ∧ released.snapshots = s.snapshots := by
  have hrelease : s.release frame.query = .ok released →
      Quiet s released ∧ released.snapshots = s.snapshots := by
    intro h
    unfold release at h
    split at h
    · cases h
      exact ⟨.refl s, rfl⟩
    · cases h
    · rename_i owner waiters hstate
      have hstale : ∀ computed trace dependencies,
          s.derived frame.query = .Computed computed trace dependencies →
            trace.built ≠ s.revision := by simp [hstate]
      split at h
      · cases h
        exact ⟨.setDerived rfl rfl (by simp) hstale fun _ _ hslot => hslot, rfl⟩
      · split at h
        · cases h
        · cases h
          exact ⟨.setDerived rfl rfl (by simp) hstale fun _ _ => full_of_setSlot (by simp), rfl⟩
  unfold cleanup at h
  split at h
  · cases h
    exact ⟨.refl s, rfl⟩
  · split at h
    · exact hrelease h
    · cases h
      exact ⟨.refl s, rfl⟩

/-- The record of a value that is stored now. -/
lemma Good.entry_store (h : Good bodies H s) (hbuilt : cached.trace.built = s.revision)
    (hrun : H.Run bodies query cached.computed s.revision cached.dependencies)
    (hstable : H.Stable bodies query cached.computed cached.trace.changed s.revision) :
    Entry bodies (H.build query s.revision) s.base query cached where
  run := by
    rw [hbuilt]
    exact hrun.build query _
  inputs := by
    intro key _
    have hnow : H.inputsAt s.revision key = (s.inputs key).map value :=
      congrFun h.inputs key
    rw [hbuilt]
    show (match s.inputs key with
      | none => H.inputsAt s.revision key = none
      | some state => state.changed ≤ s.revision → H.inputsAt s.revision key = some state.value)
    rw [hnow]
    cases s.inputs key with
    | none => rfl
    | some state => exact fun _ => rfl
  le := Nat.le_of_eq hbuilt
  last := by
    rw [hbuilt]
    rintro t (hold | ⟨-, rfl⟩)
    · exact h.past query t hold
    · exact Nat.le_refl _
  builtAt := Or.inr ⟨rfl, hbuilt⟩
  stable := by
    rw [hbuilt]
    exact hstable.build (Nat.le_refl _) query

/-- A record of an earlier revision is taken out to be verified. -/
lemma Entry.verifying (h : Entry bodies H now query cached)
    (hlt : cached.trace.built < now.revision) :
    Verifying bodies H now query cached cached.dependencies 0 where
  toRecord := h.toRecord
  lt := hlt
  stable := by
    intro t hchanged _ hbuilt
    rcases Nat.lt_or_eq_of_le (h.last t hbuilt) with hbefore | rfl
    · exact h.stable t hchanged hbefore hbuilt
    · exact h.run.reaches.fromScratch
  checked := fun _ hmem => Or.inl hmem

/-- What `fulfill_and_store` writes: the entry, and a value for snapshots that wait on the query. -/
lemma fulfillAndStore_spec (hinv : Inv s)
    (h : s.fulfillAndStore query computed trace dependencies = some stored) :
    ∃ graph slots, stored = setDerived { s with graph, slots } query
        (.Computed computed trace dependencies) ∧
      ∀ other value, slots other = .Full value → s.slots other = .Full value ∨
        (value = computed ∧ ∀ top below, s.snapshots other = some (top :: below) →
          top.query = query) := by
  unfold fulfillAndStore at h
  split at h
  · rename_i owner waiters hstate
    cases h
    refine ⟨_, _, rfl, fun other value hslot => ?_⟩
    split at hslot
    · rename_i hmem
      cases hslot
      have hwaiting := hinv.protocol.waiting _ _ _ (entries_eq_some.mpr hstate) other hmem
      obtain ⟨waiter, behind, hwaiter, hquery, -, -⟩ := waits_eq_some hwaiting
      refine Or.inr ⟨rfl, fun top below hsnapshot => ?_⟩
      cases hwaiter.symm.trans hsnapshot
      exact hquery
    · exact Or.inl hslot
  · cases h
    exact ⟨s.graph, s.slots, rfl, fun _ _ hslot => Or.inl hslot⟩
  · cases h

/-- **A value is stored.** -/
lemma Good.store (h : Good bodies H s) (hinv : Inv s) (hs : s.snapshots id = some (frame :: rest))
    (hpc : frame.pc = .store computed trace dependencies)
    (hstored : s.fulfillAndStore frame.query computed trace dependencies = some stored) :
    Good bodies (H.build frame.query s.revision)
      (stored.setFrames id ({ frame with pc := .leave (.result (.ok computed)) } :: rest)) := by
  obtain ⟨graph, slots, rfl, hslots⟩ := fulfillAndStore_spec hinv hstored
  have hknows := (h.frames id _ hs frame (by simp)).knows
  simp only [Knows, hpc] at hknows
  obtain ⟨hbuilt, hrun, hstable⟩ := hknows
  have hholds : H.Holds bodies s.revision frame.query computed := hrun.reaches.fromScratch
  refine ⟨h.inputs, ?_, fun query hquery => ?_, fun query value found keys hstate => ?_,
    fun other frames hother => ?_, fun other frames hother => ?_,
    fun other top below value hother hwait hslot => ?_⟩
  · rintro query t (hold | ⟨-, rfl⟩)
    · exact h.past query t hold
    · exact Nat.le_refl _
  · by_cases heq : query = frame.query
    · subst heq
      exact ⟨computed, trace, dependencies, update_self .., hbuilt⟩
    · obtain ⟨value, found, keys, hstate, hnow⟩ :=
        h.fresh query (hquery.resolve_right fun hnew => heq hnew.1)
      exact ⟨value, found, keys, (update_of_ne heq ..).trans hstate, hnow⟩
  · by_cases heq : query = frame.query
    · subst heq
      cases (update_self ..).symm.trans hstate
      exact h.entry_store hbuilt hrun hstable
    · exact (h.entries _ _ _ _ ((update_of_ne heq ..).symm.trans hstate)).build heq
  · rcases snapshots_setFrames_cases rfl hother with ⟨-, rfl⟩ | ⟨-, hold⟩
    · refine forall_mem_cons.mpr ⟨⟨trivial, trivial, trivial, fun value heq => ?_⟩, fun top hmem =>
        (h.frames id _ hs top (mem_cons_of_mem _ hmem)).build _⟩
      cases heq
      exact ⟨hholds, Or.inr ⟨rfl, rfl⟩⟩
    · exact fun top hmem => (h.frames other frames hold top hmem).build _
  · rcases snapshots_setFrames_cases rfl hother with ⟨-, rfl⟩ | ⟨-, hold⟩
    · exact (h.linked id _ hs).replace rfl
    · exact h.linked other frames hold
  · rcases snapshots_setFrames_cases rfl hother with ⟨-, heq⟩ | ⟨-, hold⟩
    · cases heq
      cases hwait
    · rcases hslots other value hslot with hslot | ⟨rfl, hquery⟩
      · exact (h.slots other top below value hold hwait hslot).imp_right Or.inl
      · rw [hquery top below hold]
        exact ⟨hholds, Or.inr ⟨rfl, rfl⟩⟩

/-- **A step of a snapshot keeps the invariant.** -/
theorem Good.frameStep (hbodies : ∀ query, (bodies query).Propagates) (h : Good bodies H s)
    (hinv : Inv s) (hs : s.snapshots id = some (frame :: rest)) {tree : Body σ}
    (htree : tree = bodies frame.query) {order : List (QueryKey σ.Input σ.Query)}
    {event : Option (Event σ)} (hstep : FrameStep s id frame rest tree order s' event) :
    ∃ H, Good bodies H s' := by
  have hok : FrameOk bodies H s.base frame := h.frames id _ hs frame (by simp)
  have hbelow : ∀ below ∈ rest, FrameOk bodies H s.base below := fun below hmem =>
    h.frames id _ hs below (mem_cons_of_mem _ hmem)
  have hlinked := h.linked id _ hs
  -- the frames of a stack whose innermost one was replaced
  have hreplaced : ∀ {next : Frame σ}, FrameOk bodies H s.base next →
      ∀ other ∈ next :: rest, FrameOk bodies H s.base other :=
    fun hnext => forall_mem_cons.mpr ⟨hnext, hbelow⟩
  have hkeep : ∀ {s' : State σ} {next : Frame σ}, Quiet s s' → s'.snapshots = s.snapshots →
      FrameOk bodies H s.base next → next.query = frame.query →
      (waitsIn (next :: rest) = none ∨ ∀ value, s'.slots id ≠ .Full value) →
      ∃ H, Good bodies H (s'.setFrames id (next :: rest)) :=
    fun hquiet hsnapshots hnext hquery hwait =>
      ⟨H, h.quiet hquiet hsnapshots (hreplaced hnext) (hlinked.replace hquery) hwait⟩
  cases hstep with
  | «local» hlocal =>
    obtain ⟨hquery, -, -, hrun⟩ := hlocal.frame_eq
    exact hkeep (.refl s) rfl (h.frameOk_local hs htree hlocal) hquery
      (Or.inl (by simp [waitsIn, hrun]))
  | @demand parent query hdemand =>
    obtain ⟨hparent, hdemanded⟩ := hok.demand hdemand
    have hquery : (parent.record (.derived query)).query = frame.query := by
      rw [(record_eq _).1]
      cases hdemand <;> rfl
    exact ⟨H, h.quiet (.refl s) rfl (forall_mem_cons.mpr ⟨.new _, hreplaced hparent⟩)
      ⟨hdemanded, hlinked.replace hquery⟩ (Or.inl rfl)⟩
  | claimNew hpc hstate =>
    obtain ⟨hverifying, hrevision, hdeps⟩ := hok.looking (.inl (hpc ▸ trivial))
    exact hkeep (.setDerived rfl rfl (by simp) (by simp [hstate]) fun _ _ hslot => hslot) rfl
      ⟨hverifying, hrevision, hdeps, fun _ _ heq => by cases heq⟩ rfl (Or.inl rfl)
  | @claimStale hpc cached hstate hbuilt =>
    obtain ⟨-, hrevision, hdeps⟩ := hok.looking (.inl (hpc ▸ trivial))
    have hentry := h.entries _ _ _ _ hstate
    have hlt : cached.trace.built < s.revision :=
      Nat.lt_of_le_of_ne hentry.le fun heq => hbuilt (heq.trans hrevision.symm)
    refine hkeep (.setDerived rfl rfl (by simp) ?_ fun _ _ hslot => hslot) rfl
      ⟨rfl, hrevision, hdeps, hentry.verifying hlt⟩ rfl (Or.inl rfl)
    intro computed trace dependencies hother
    cases hstate.symm.trans hother
    exact Nat.ne_of_lt hlt
  | join hpc hstate _ _ =>
    obtain ⟨hverifying, hrevision, hdeps⟩ := hok.looking (.inl hpc)
    exact hkeep (.setDerived rfl rfl (by simp) (by simp [hstate]) fun _ _ =>
      full_of_setSlot (by simp)) rfl ⟨hverifying, hrevision, hdeps, trivial⟩ rfl
      (Or.inr (by simp [setSlot]))
  | wakeFull hpc hslot =>
    refine hkeep ⟨rfl, fun _ => Or.inl rfl, fun _ _ => full_of_setSlot (by simp)⟩ rfl
      ⟨trivial, trivial, trivial, fun value heq => ?_⟩ rfl (Or.inl rfl)
    cases heq
    exact h.slots id frame rest _ hs hpc hslot
  | wakeTransferred hpc _ =>
    obtain ⟨hverifying, hrevision, hdeps⟩ := hok.looking (.inr hpc)
    exact hkeep ⟨rfl, fun _ => Or.inl rfl, fun _ _ => full_of_setSlot (by simp)⟩ rfl
      ⟨hverifying, hrevision, hdeps, fun _ _ heq => by cases heq⟩ rfl (Or.inl rfl)
  | store hpc hstored => exact ⟨_, h.store hinv hs hpc hstored⟩
  | leaveOutermost _ hreleased _ =>
    obtain ⟨hquiet, hsnapshots⟩ := cleanup_spec hreleased
    exact ⟨H, h.quiet hquiet hsnapshots (by simp) trivial (Or.inl rfl)⟩
  | @leave outcome hpc released hreleased parent below hrest =>
    subst hrest
    obtain ⟨hquiet, hsnapshots⟩ := cleanup_spec hreleased
    have hknows := hok.knows
    simp only [Knows, hpc] at hknows
    have hwf := (hinv.stackWf id _ hs).tail
    obtain ⟨hquery, -, -, -, hrun, -⟩ := resume_eq (hwf.1 parent (by simp))
      (hwf.2.1 parent (by simp)) outcome
    obtain ⟨hparent, hbelow⟩ := forall_mem_cons.mp hbelow
    exact ⟨H, h.quiet hquiet hsnapshots (forall_mem_cons.mpr
      ⟨hparent.resume hbodies hlinked.1 hknows, hbelow⟩) (hlinked.2.replace hquery)
      (Or.inl (by simp [waitsIn, hrun]))⟩

end Steps

end Iris.Building
