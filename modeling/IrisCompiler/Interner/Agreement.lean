import IrisCompiler.Interner.Parallel
import Mathlib.Tactic.Common

/-!
# Agreement of the parallel interner

Whatever the threads do, equal values get equal ids and distinct values distinct ones.

**Publication.**  An id is `Published` for a value once the table maps the hash of the value to it,
or the overflow list holds it.  The table is written once per hash and the overflow list holds
neither the value of the table entry nor one value twice (`Interner.Wf`), so the published id of a
value is unique (`Published.unique`).  Publication is never undone (`Published.grows`).

**Steps.**  Between two atomic steps a thread knows only what `FrameInv` says of its program
counter.  `StepSpec` says once what a step may do to the shared state, and `stepFrame_spec` checks
it for every program counter; the invariant of the whole system then follows from `StepSpec` alone.
-/

namespace Iris.Interning

open Interner List

variable {Tid T M : Type*}

namespace Interner

/-! ## The arena, the table and the overflow list only grow -/

/-- One interner is a later state of another. -/
structure Grows (first second : Interner T M) : Prop where
  arena : first.arena <+: second.arena
  table : ∀ h id, first.table h = some id → second.table h = some id
  overflow : ∀ entry ∈ first.overflow, entry ∈ second.overflow

lemma Grows.refl (self : Interner T M) : self.Grows self :=
  ⟨prefix_refl _, fun _ _ h => h, fun _ h => h⟩

variable {first second self : Interner T M} {id candidate : NonZeroU32} {value : T}

lemma Grows.arenaValue (h : first.Grows second) (hvalue : first.arenaValue id = some value) :
    second.arenaValue id = some value := by
  obtain ⟨rest, hrest⟩ := h.arena
  simp only [Interner.arenaValue, Option.map_eq_some_iff] at hvalue ⊢
  obtain ⟨entry, hentry, rfl⟩ := hvalue
  refine ⟨entry, ?_, rfl⟩
  rw [← hrest, List.getElem?_append_left (List.getElem?_eq_some_iff.mp hentry).1]
  exact hentry

lemma grows_push (self : Interner T M) (entry : T × M) : self.Grows (self.push entry) :=
  ⟨prefix_append _ _, fun _ _ h => h, fun _ h => h⟩

/-- The slot a push fills holds the pushed value. -/
lemma arenaValue_push {metadata : M} (h : idFromIndex self.arena.length = some candidate) :
    (self.push (value, metadata)).arenaValue candidate = some value := by
  unfold idFromIndex at h
  split at h
  · cases h
    simp [arenaValue, push]
  · cases h

/-! ## Publication -/

variable (hash : T → UInt64)

/-- Lookups of `value` find `id`. -/
structure Published (interner : Interner T M) (value : T) (id : NonZeroU32) : Prop where
  value_eq : interner.arenaValue id = some value
  found : interner.table (hash value) = some id ∨ (hash value, id) ∈ interner.overflow

/-- The table entry for the hash of `value` belongs to another value. -/
def Collides (self : Interner T M) (value : T) : Prop :=
  ∃ id other, self.table (hash value) = some id ∧ self.arenaValue id = some other ∧ other ≠ value

/-- The overflow list holds no id of `value`. -/
def NotInOverflow (self : Interner T M) (value : T) : Prop :=
  ∀ id, (hash value, id) ∈ self.overflow → self.arenaValue id ≠ some value

/-- **Coherence.**  Table entries name a value of their hash; overflow entries name a value of their
hash that differs from the table's, and no value is there twice. -/
structure Wf (interner : Interner T M) : Prop where
  table_value : ∀ h id, interner.table h = some id → ∃ value, interner.arenaValue id = some value ∧
    hash value = h
  overflow_value : ∀ h id, (h, id) ∈ interner.overflow →
      ∃ value, interner.arenaValue id = some value ∧
    hash value = h ∧ interner.Collides hash value
  overflow_unique : ∀ h h' id id', (h, id) ∈ interner.overflow → (h', id') ∈ interner.overflow →
    interner.arenaValue id = interner.arenaValue id' → id = id'

lemma wf_new : (new : Interner T M).Wf hash := ⟨by simp [new], by simp [new], by simp [new]⟩

variable {hash}

lemma Published.grows (h : first.Published hash value id) (hgrows : first.Grows second) :
    second.Published hash value id :=
  ⟨hgrows.arenaValue h.value_eq, h.found.imp (hgrows.table _ _) (hgrows.overflow _)⟩

lemma Collides.grows (h : first.Collides hash value) (hgrows : first.Grows second) :
    second.Collides hash value := by
  obtain ⟨id, other, htable, hvalue, hne⟩ := h
  exact ⟨id, other, hgrows.table _ _ htable, hgrows.arenaValue hvalue, hne⟩

/-- The id published for a value of a taken hash is in the overflow list. -/
lemma Published.mem_overflow (h : self.Published hash value id)
    (hcollides : self.Collides hash value) : (hash value, id) ∈ self.overflow := by
  obtain ⟨first, other, htable, hvalue, hne⟩ := hcollides
  rcases h.found with hfound | hfound
  · have hfirst : first = id := Option.some.inj (htable.symm.trans hfound)
    rw [hfirst, h.value_eq] at hvalue
    exact absurd (Option.some.inj hvalue).symm hne
  · exact hfound

/-- **A value has one published id.** -/
lemma Published.unique (hwf : self.Wf hash) {id' : NonZeroU32} (h : self.Published hash value id)
    (h' : self.Published hash value id') : id = id' := by
  by_cases hcollides : self.Collides hash value
  · exact hwf.overflow_unique _ _ _ _ (h.mem_overflow hcollides) (h'.mem_overflow hcollides)
      (h.value_eq.trans h'.value_eq.symm)
  · -- overflow entries only exist for values that collide
    have hfirst : ∀ {id}, self.Published hash value id → self.table (hash value) = some id := by
      intro id h
      refine h.found.resolve_right fun hmem => hcollides ?_
      obtain ⟨found, hfound, -, hcol⟩ := hwf.overflow_value _ _ hmem
      rwa [Option.some.inj (hfound.symm.trans h.value_eq)] at hcol
    exact Option.some.inj ((hfirst h).symm.trans (hfirst h'))

/-- Nothing is published for a value whose hash is free. -/
lemma not_published_of_table (hwf : self.Wf hash) (h : self.table (hash value) = none)
    (id : NonZeroU32) : ¬ self.Published hash value id := by
  intro hpublished
  rcases hpublished.found with hfound | hfound
  · exact absurd (h.symm.trans hfound) (by simp)
  · obtain ⟨found, hfound, -, first, other, htable, -⟩ := hwf.overflow_value _ _ hfound
    rw [Option.some.inj (hfound.symm.trans hpublished.value_eq), h] at htable
    cases htable

/-- Nothing is published for a colliding value that is not in the overflow list. -/
lemma not_published_of_overflow (hcollides : self.Collides hash value)
    (hnot : self.NotInOverflow hash value) (id : NonZeroU32) : ¬ self.Published hash value id :=
  fun h => hnot id (h.mem_overflow hcollides) h.value_eq

/-! ## What the writes keep -/

lemma Wf.push (hwf : self.Wf hash) (entry : T × M) : (self.push entry).Wf hash where
  table_value h id htable := by
    obtain ⟨value, hvalue, hhash⟩ := hwf.table_value h id htable
    exact ⟨value, (self.grows_push entry).arenaValue hvalue, hhash⟩
  overflow_value h id hmem := by
    obtain ⟨value, hvalue, hhash, hcollides⟩ := hwf.overflow_value h id hmem
    exact ⟨value, (self.grows_push entry).arenaValue hvalue, hhash,
      hcollides.grows (self.grows_push entry)⟩
  overflow_unique h h' id id' hmem hmem' heq := by
    obtain ⟨value, hvalue, -⟩ := hwf.overflow_value h id hmem
    obtain ⟨value', hvalue', -⟩ := hwf.overflow_value h' id' hmem'
    refine hwf.overflow_unique h h' id id' hmem hmem' ?_
    rw [(self.grows_push entry).arenaValue hvalue,
      (self.grows_push entry).arenaValue hvalue'] at heq
    rw [hvalue, hvalue', heq]

lemma grows_insertTable {h : UInt64} (candidate : NonZeroU32) (hfree : self.table h = none) :
    self.Grows (self.insertTable h candidate) where
  arena := prefix_refl _
  table h' id htable := by
    have hne : h' ≠ h := by rintro rfl; rw [hfree] at htable; cases htable
    simpa [insertTable, Function.update_of_ne hne] using htable
  overflow _ hmem := hmem

lemma grows_pushOverflow (self : Interner T M) (h : UInt64) (candidate : NonZeroU32) :
    self.Grows (self.pushOverflow h candidate) :=
  ⟨prefix_refl _, fun _ _ h => h, fun _ hmem => mem_append_left _ hmem⟩

lemma Wf.insertTable (hwf : self.Wf hash) (hfree : self.table (hash value) = none)
    (hvalue : self.arenaValue candidate = some value) :
    (self.insertTable (hash value) candidate).Wf hash where
  table_value h id htable := by
    by_cases hh : h = hash value
    · subst hh
      obtain rfl : candidate = id := by simpa [Interner.insertTable] using htable
      exact ⟨value, hvalue, rfl⟩
    · simp only [Interner.insertTable, Function.update_of_ne hh] at htable
      exact hwf.table_value h id htable
  overflow_value h id hmem := by
    obtain ⟨found, hfound, hhash, hcollides⟩ := hwf.overflow_value h id hmem
    exact ⟨found, hfound, hhash, hcollides.grows (grows_insertTable candidate hfree)⟩
  overflow_unique := hwf.overflow_unique

lemma Wf.pushOverflow (hwf : self.Wf hash) (hcollides : self.Collides hash value)
    (hnot : self.NotInOverflow hash value) (hvalue : self.arenaValue candidate = some value) :
    (self.pushOverflow (hash value) candidate).Wf hash := by
  -- an older entry that held the new value would be an entry for its hash
  have hfresh : ∀ h id, (h, id) ∈ self.overflow → self.arenaValue id ≠ some value := by
    intro h id hmem heq
    obtain ⟨found, hfound, hhash, -⟩ := hwf.overflow_value h id hmem
    cases hfound.symm.trans heq
    exact hnot id (hhash ▸ hmem) heq
  refine ⟨hwf.table_value, fun h id hmem => ?_, fun h h' id id' hmem hmem' heq => ?_⟩
  · rcases mem_append.mp hmem with hmem | hmem
    · exact hwf.overflow_value h id hmem
    · obtain ⟨rfl, rfl⟩ : h = hash value ∧ id = candidate := by simpa using hmem
      exact ⟨value, hvalue, rfl, hcollides⟩
  · simp only [Interner.pushOverflow, List.mem_append, List.mem_singleton]
      at hmem hmem'
    rcases hmem with hmem | ⟨-, rfl⟩ <;> rcases hmem' with hmem' | ⟨-, rfl⟩
    · exact hwf.overflow_unique h h' id id' hmem hmem' heq
    · exact absurd (heq.trans hvalue) (hfresh h id hmem)
    · exact absurd (heq.symm.trans hvalue) (hfresh h' id' hmem')
    · rfl

/-! ## Scanning the overflow list -/

variable [DecidableEq T]

/-- A scan that returns an id returns one that is listed for the value. -/
lemma scanOverflowLoop_some {self : Interner T M} {h : UInt64} {value : T} {id : NonZeroU32} :
    ∀ {entries : List (UInt64 × NonZeroU32)},
      self.scanOverflowLoop h value entries = some (some id) →
      (h, id) ∈ entries ∧ self.arenaValue id = some value
  | [], hscan => by simp [scanOverflowLoop] at hscan
  | (overflowHash, overflowId) :: rest, hscan => by
    rw [scanOverflowLoop] at hscan
    split at hscan
    · obtain ⟨hmem, hvalue⟩ := scanOverflowLoop_some hscan
      exact ⟨mem_cons_of_mem _ hmem, hvalue⟩
    · rename_i hhash
      obtain rfl := not_not.mp hhash
      split at hscan
      · cases hscan
      · rename_i found hfound
        split at hscan
        · rename_i heq
          obtain rfl : overflowId = id := by simpa using hscan
          exact ⟨mem_cons_self, heq ▸ hfound⟩
        · obtain ⟨hmem, hvalue⟩ := scanOverflowLoop_some hscan
          exact ⟨mem_cons_of_mem _ hmem, hvalue⟩

/-- A scan that finds nothing has passed every entry. -/
lemma scanOverflowLoop_none {self : Interner T M} {h : UInt64} {value : T} :
    ∀ {entries : List (UInt64 × NonZeroU32)}, self.scanOverflowLoop h value entries = some none →
      ∀ id, (h, id) ∈ entries → self.arenaValue id ≠ some value
  | [], _, _, hmem => by simp at hmem
  | (overflowHash, overflowId) :: rest, hscan, id, hmem => by
    rw [scanOverflowLoop] at hscan
    split at hscan
    · rename_i hhash
      rcases mem_cons.mp hmem with heq | hmem
      · exact absurd (Prod.mk.inj heq).1.symm hhash
      · exact scanOverflowLoop_none hscan id hmem
    · split at hscan
      · cases hscan
      · rename_i found hfound
        split at hscan
        · cases hscan
        · rename_i hne
          rcases mem_cons.mp hmem with heq | hmem
          · obtain ⟨-, rfl⟩ := Prod.mk.inj heq
            rw [hfound]
            exact fun h => hne (Option.some.inj h)
          · exact scanOverflowLoop_none hscan id hmem

lemma scanOverflow_some (h : self.scanOverflow (hash value) value = some (some id)) :
    self.Published hash value id := by
  obtain ⟨hmem, hvalue⟩ := scanOverflowLoop_some h
  exact ⟨hvalue, Or.inr (mem_reverse.mp hmem)⟩

lemma scanOverflow_none (h : self.scanOverflow (hash value) value = some none) :
    self.NotInOverflow hash value :=
  fun id hmem => scanOverflowLoop_none h id (mem_reverse.mpr hmem)

end Interner

/-! ## What a thread knows between two steps -/

section Frames

variable (hash : T → UInt64)

/-- What holds of the shared state at each program counter. -/
def FrameInv (interner : Interner T M) (lock : Option Tid) (thread : Tid) : Op T M → Pc → Prop
  | .intern _ _, .internTable | .intern _ _, .arenaPush | .get _, .getTable => True
  | .intern value _, .tryInsert candidate => interner.arenaValue candidate = some value
  | .intern value _, .internAtCollision | .get value, .getOverflow => interner.Collides hash value
  | .intern value _, .collisionPush =>
    lock = some thread ∧ interner.Collides hash value ∧ interner.NotInOverflow hash value
  | .intern value _, .collisionPublish candidate =>
    lock = some thread ∧ interner.Collides hash value ∧ interner.NotInOverflow hash value ∧
      interner.arenaValue candidate = some value
  | .intern value _, .publishCollision candidate =>
    interner.Collides hash value ∧ interner.arenaValue candidate = some value
  | _, _ => False

/-- What a returned result says about the value it was asked for. -/
def Answers (interner : Interner T M) (op : Op T M) : Option NonZeroU32 → Prop
  | some id => interner.Published hash op.value id
  | none => (∃ value, op = .get value) ∧ ∀ id, ¬ interner.Published hash op.value id

/-- What a step may do to the data the threads share: the interner only grows and stays coherent,
and nobody touches the overflow list or the mutex while another thread holds it. -/
structure Writes (s : System Tid T M) (thread : Tid) (s' : System Tid T M) : Prop where
  wf : s'.interner.Wf hash
  grows : s.interner.Grows s'.interner
  guarded : ∀ other, other ≠ thread → s.lock = some other →
    s'.lock = some other ∧ s'.interner.overflow = s.interner.overflow
  threads : s'.threads = s.threads
  log : s'.log = s.log

/-- **What one step of a running operation may do.** -/
structure StepSpec (s : System Tid T M) (thread : Tid) (frame : Frame T M) (s' : System Tid T M) :
    Prop where
  wf : s'.interner.Wf hash
  grows : s.interner.Grows s'.interner
  guarded : ∀ other, other ≠ thread → s.lock = some other →
    s'.lock = some other ∧ s'.interner.overflow = s.interner.overflow
  others : ∀ other, other ≠ thread → s'.threads other = s.threads other
  own : ∀ next, s'.threads thread = some next → next.op = frame.op ∧
    next.startedAt = frame.startedAt ∧ FrameInv hash s'.interner s'.lock thread next.op next.pc
  log : s'.log = s.log ∨ ∃ result, s'.log = s.log ++ [⟨frame.op, frame.startedAt, result⟩] ∧
    Answers hash s'.interner frame.op result

variable {hash} {s s' : System Tid T M} {thread : Tid} {frame : Frame T M}

/-- Another thread's knowledge survives a step. -/
lemma FrameInv.of_guarded {first second : Interner T M} {lock lock' : Option Tid} {other : Tid}
    (hgrows : first.Grows second)
    (hguarded : lock = some other → lock' = some other ∧ second.overflow = first.overflow)
    {op : Op T M} {pc : Pc} (h : FrameInv hash first lock other op pc)
    (hwf : first.Wf hash) : FrameInv hash second lock' other op pc := by
  have hnot : ∀ {value}, lock = some other → first.NotInOverflow hash value →
      second.NotInOverflow hash value := by
    intro value hlock hnot id hmem heq
    rw [(hguarded hlock).2] at hmem
    obtain ⟨found, hfound, -⟩ := hwf.overflow_value _ _ hmem
    rw [hgrows.arenaValue hfound] at heq
    exact hnot id hmem (hfound.trans heq)
  cases op <;> cases pc <;> simp only [FrameInv] at h ⊢
  case intern.tryInsert => exact hgrows.arenaValue h
  case intern.internAtCollision => exact h.grows hgrows
  case intern.collisionPush => exact ⟨(hguarded h.1).1, h.2.1.grows hgrows, hnot h.1 h.2.2⟩
  case intern.collisionPublish =>
    exact ⟨(hguarded h.1).1, h.2.1.grows hgrows, hnot h.1 h.2.2.1, hgrows.arenaValue h.2.2.2⟩
  case intern.publishCollision => exact ⟨h.1.grows hgrows, hgrows.arenaValue h.2⟩
  case get.getOverflow => exact h.grows hgrows

lemma Writes.refl (hwf : s.interner.Wf hash) : Writes hash s thread s :=
  ⟨hwf, .refl _, fun _ _ h => ⟨h, rfl⟩, rfl, rfl⟩

lemma Writes.push (hwf : s.interner.Wf hash) (entry : T × M) :
    Writes hash s thread { s with interner := s.interner.push entry } :=
  ⟨hwf.push entry, s.interner.grows_push entry, fun _ _ h => ⟨h, rfl⟩, rfl, rfl⟩

variable [DecidableEq Tid]

lemma Writes.goto (h : Writes hash s thread s') {pc : Pc}
    (hpc : FrameInv hash s'.interner s'.lock thread frame.op pc) :
    StepSpec hash s thread frame (s'.goto thread frame pc) where
  wf := h.wf
  grows := h.grows
  guarded := h.guarded
  others other hne := by simp [System.goto, Function.update_of_ne hne, h.threads]
  own next hnext := by
    obtain rfl : { frame with pc } = next := by simpa [System.goto] using hnext
    exact ⟨rfl, rfl, hpc⟩
  log := Or.inl h.log

lemma Writes.ret (h : Writes hash s thread s') {result : Option NonZeroU32}
    (hresult : Answers hash s'.interner frame.op result) :
    StepSpec hash s thread frame (s'.ret thread frame result) where
  wf := h.wf
  grows := h.grows
  guarded := h.guarded
  others other hne := by simp [System.ret, Function.update_of_ne hne, h.threads]
  own next hnext := by simp [System.ret] at hnext
  log := Or.inr ⟨result, by simp [System.ret, h.log], hresult⟩

lemma Writes.unwind (h : Writes hash s thread s') :
    StepSpec hash s thread frame (s'.unwind thread) where
  wf := h.wf
  grows := h.grows
  guarded other hne hlock := by
    obtain ⟨hlock', hoverflow⟩ := h.guarded other hne hlock
    refine ⟨?_, hoverflow⟩
    simp [System.unwind, hlock', hne]
  others other hne := by simp [System.unwind, Function.update_of_ne hne, h.threads]
  own next hnext := by simp [System.unwind] at hnext
  log := Or.inl h.log

/-! ## Every program counter -/

variable [DecidableEq T]

/-- **Every atomic step meets `StepSpec`.** -/
theorem stepFrame_spec (hwf : s.interner.Wf hash)
    (hframe : FrameInv hash s.interner s.lock thread frame.op frame.pc)
    (hstep : s.stepFrame hash thread frame = some s') : StepSpec hash s thread frame s' := by
  have hsame : Writes hash s thread s := .refl hwf
  obtain ⟨op, startedAt, pc⟩ := frame
  cases op with
  | intern value metadata =>
    cases pc with
    | internTable =>
      simp only [System.stepFrame] at hstep
      split at hstep
      · cases hstep
        exact hsame.goto trivial
      · rename_i id htable
        split at hstep
        · cases hstep
          exact hsame.unwind
        · rename_i found hfound
          split at hstep
          · cases hstep
            rename_i heq
            exact hsame.ret ⟨heq ▸ hfound, Or.inl htable⟩
          · cases hstep
            rename_i hne
            exact hsame.goto ⟨id, found, htable, hfound, hne⟩
    | arenaPush =>
      simp only [System.stepFrame] at hstep
      split at hstep
      · cases hstep
        exact (Writes.push hwf _).unwind
      · rename_i candidate hcandidate
        cases hstep
        exact (Writes.push hwf _).goto (arenaValue_push hcandidate)
    | tryInsert candidate =>
      simp only [System.stepFrame] at hstep
      split at hstep
      · rename_i hfree
        cases hstep
        have hwrites : Writes hash s thread
            { s with interner := s.interner.insertTable (hash value) candidate } :=
          ⟨hwf.insertTable hfree hframe, grows_insertTable candidate hfree,
            fun _ _ h => ⟨h, rfl⟩, rfl, rfl⟩
        exact hwrites.ret ⟨hframe, Or.inl (by simp [insertTable, Op.value])⟩
      · rename_i current htable
        split at hstep
        · rename_i currentValue candidateValue hcurrent hcandidate
          cases hcandidate.symm.trans hframe
          split at hstep
          · cases hstep
            rename_i heq
            exact hsame.ret ⟨heq ▸ hcurrent, Or.inl htable⟩
          · cases hstep
            rename_i hne
            exact hsame.goto ⟨⟨current, currentValue, htable, hcurrent, hne⟩, hframe⟩
        · cases hstep
          exact hsame.unwind
    | internAtCollision =>
      simp only [System.stepFrame] at hstep
      split at hstep
      · cases hstep
      · rename_i hlock
        have hfree : s.lock = none := by simpa using hlock
        split at hstep
        · cases hstep
          exact hsame.unwind
        · rename_i id hscan
          cases hstep
          exact hsame.ret (scanOverflow_some hscan)
        · rename_i hscan
          cases hstep
          have hwrites : Writes hash s thread { s with lock := some thread } :=
            ⟨hwf, .refl _, fun _ _ h => by simp [hfree] at h, rfl, rfl⟩
          exact hwrites.goto ⟨rfl, hframe, scanOverflow_none hscan⟩
    | collisionPush =>
      simp only [System.stepFrame] at hstep
      obtain ⟨hlock, hcollides, hnot⟩ :=
        FrameInv.of_guarded (s.interner.grows_push (value, metadata)) (fun h => ⟨h, rfl⟩) hframe hwf
      split at hstep
      · cases hstep
        exact (Writes.push hwf _).unwind
      · rename_i candidate hcandidate
        cases hstep
        exact (Writes.push hwf _).goto ⟨hlock, hcollides, hnot, arenaValue_push hcandidate⟩
    | collisionPublish candidate =>
      obtain ⟨hlock, hcollides, hnot, hvalue⟩ := hframe
      cases hstep
      have hwrites : Writes hash s thread { s with
          interner := s.interner.pushOverflow (hash value) candidate, lock := none } :=
        ⟨hwf.pushOverflow hcollides hnot hvalue, s.interner.grows_pushOverflow _ _,
          fun other hne h => absurd (Option.some.inj (h.symm.trans hlock)) hne, rfl, rfl⟩
      exact hwrites.ret ⟨hvalue, Or.inr (by simp [pushOverflow, Op.value])⟩
    | publishCollision candidate =>
      simp only [System.stepFrame] at hstep
      obtain ⟨hcollides, hvalue⟩ := hframe
      split at hstep
      · cases hstep
      · rename_i hlock
        have hfree : s.lock = none := by simpa using hlock
        rw [hvalue] at hstep
        simp only at hstep
        split at hstep
        · cases hstep
          exact hsame.unwind
        · rename_i id hscan
          cases hstep
          exact hsame.ret (scanOverflow_some hscan)
        · rename_i hscan
          cases hstep
          have hwrites : Writes hash s thread { s with
              interner := s.interner.pushOverflow (hash value) candidate } :=
            ⟨hwf.pushOverflow hcollides (scanOverflow_none hscan) hvalue,
              s.interner.grows_pushOverflow _ _, fun _ _ h => by simp [hfree] at h, rfl, rfl⟩
          exact hwrites.ret ⟨hvalue, Or.inr (by simp [pushOverflow, Op.value])⟩
    | getTable | getOverflow => exact hframe.elim
  | get value =>
    cases pc with
    | getTable =>
      simp only [System.stepFrame] at hstep
      split at hstep
      · rename_i hfree
        cases hstep
        exact hsame.ret ⟨⟨value, rfl⟩, not_published_of_table hwf hfree⟩
      · rename_i id htable
        split at hstep
        · cases hstep
          exact hsame.unwind
        · rename_i found hfound
          split at hstep
          · cases hstep
            rename_i heq
            exact hsame.ret ⟨heq ▸ hfound, Or.inl htable⟩
          · cases hstep
            rename_i hne
            exact hsame.goto ⟨id, found, htable, hfound, hne⟩
    | getOverflow =>
      simp only [System.stepFrame] at hstep
      split at hstep
      · cases hstep
      · split at hstep
        · cases hstep
          exact hsame.unwind
        · rename_i result hscan
          cases hstep
          refine hsame.ret ?_
          cases result with
          | none =>
            exact ⟨⟨value, rfl⟩,
              not_published_of_overflow hframe (scanOverflow_none hscan)⟩
          | some id => exact scanOverflow_some hscan
    | _ => exact hframe.elim

end Frames

/-! ## Runs -/

section Runs

variable {hash : T → UInt64}

/-- What holds in every state of the system.  The last field orders operations in real time: an
operation that started after one of the same value had returned an id does not miss it. -/
structure Inv (hash : T → UInt64) (s : System Tid T M) : Prop where
  wf : s.interner.Wf hash
  frames : ∀ thread frame, s.threads thread = some frame →
    FrameInv hash s.interner s.lock thread frame.op frame.pc ∧ frame.startedAt ≤ s.log.length
  started : ∀ later ∈ s.log, later.startedAt ≤ s.log.length
  published : ∀ done ∈ s.log, ∀ id, done.result = some id →
    s.interner.Published hash done.op.value id
  interned : ∀ done ∈ s.log, done.result = none → ∃ value, done.op = .get value
  ordered : ∀ later ∈ s.log, later.result = none → ∀ done ∈ s.returnedBefore later,
    done.op.value = later.op.value → done.result = none

lemma Inv.new : Inv hash (System.new : System Tid T M) := by
  refine ⟨Interner.wf_new hash, ?_, ?_, ?_, ?_, ?_⟩ <;> simp [System.new]

variable [DecidableEq Tid]

variable {s s' : System Tid T M} {thread : Tid} {frame : Frame T M}

lemma Inv.call {op : Op T M} (h : Inv hash s) (hcall : s.call thread op = some s') :
    Inv hash s' := by
  unfold System.call at hcall
  split at hcall
  · cases hcall
  · cases hcall
    refine ⟨h.wf, fun other frame hframe => ?_, h.started, h.published, h.interned, h.ordered⟩
    by_cases hother : other = thread
    · subst hother
      simp only [Function.update_self, Option.some.injEq] at hframe
      subst hframe
      cases op <;> exact ⟨trivial, Nat.le_refl _⟩
    · simp only [Function.update_of_ne hother] at hframe
      exact h.frames other frame hframe

/-- Threads other than the one that steps keep what they know. -/
lemma Inv.frames_of_stepSpec (h : Inv hash s) (hframe : s.threads thread = some frame)
    (hspec : StepSpec hash s thread frame s') (other : Tid) (next : Frame T M)
    (hnext : s'.threads other = some next) :
    FrameInv hash s'.interner s'.lock other next.op next.pc ∧ next.startedAt ≤ s'.log.length := by
  have hlen : s.log.length ≤ s'.log.length := by
    rcases hspec.log with hlog | ⟨result, hlog, -⟩ <;> simp [hlog]
  by_cases hother : other = thread
  · subst hother
    obtain ⟨-, hstarted, hinv⟩ := hspec.own next hnext
    exact ⟨hinv, hstarted ▸ Nat.le_trans (h.frames other frame hframe).2 hlen⟩
  · rw [hspec.others other hother] at hnext
    obtain ⟨hinv, hstarted⟩ := h.frames other next hnext
    exact ⟨hinv.of_guarded hspec.grows (hspec.guarded other hother) h.wf,
      Nat.le_trans hstarted hlen⟩

/-- **A step keeps the invariant.** -/
lemma Inv.of_stepSpec (h : Inv hash s) (hframe : s.threads thread = some frame)
    (hspec : StepSpec hash s thread frame s') : Inv hash s' := by
  have hframes := h.frames_of_stepSpec hframe hspec
  have hstarted := (h.frames thread frame hframe).2
  have hpublished : ∀ done ∈ s.log, ∀ id, done.result = some id →
      s'.interner.Published hash done.op.value id :=
    fun done hdone id hid => (h.published done hdone id hid).grows hspec.grows
  rcases hspec.log with hlog | ⟨result, hlog, hanswers⟩
  · refine ⟨hspec.wf, hframes, ?_, ?_, ?_, ?_⟩ <;> simp only [System.returnedBefore, hlog]
    · exact h.started
    · exact hpublished
    · exact h.interned
    · exact h.ordered
  · -- the log before the new entry is what older entries, and the new one, were measured against
    have htake : ∀ n ≤ s.log.length, s'.log.take n = s.log.take n := fun n hn => by
      rw [hlog, take_append_of_le_length hn]
    refine ⟨hspec.wf, hframes, ?_, ?_, ?_, ?_⟩ <;> intro done hdone
    all_goals
      rw [hlog, mem_append, mem_singleton] at hdone
    · rw [hlog, length_append]
      rcases hdone with hdone | rfl
      · exact Nat.le_trans (h.started done hdone) (Nat.le_add_right _ _)
      · exact Nat.le_trans hstarted (Nat.le_add_right _ _)
    · rcases hdone with hdone | rfl
      · exact hpublished done hdone
      · rintro id rfl
        exact hanswers
    · rcases hdone with hdone | rfl
      · exact h.interned done hdone
      · rintro rfl
        exact hanswers.1
    · rcases hdone with hdone | rfl
      · rw [System.returnedBefore, htake _ (h.started done hdone)]
        exact h.ordered done hdone
      · rintro rfl earlier hearlier hvalue
        rw [System.returnedBefore, htake _ hstarted] at hearlier
        by_contra hne
        obtain ⟨id, hid⟩ := Option.ne_none_iff_exists'.mp hne
        have hpub := hpublished earlier (mem_of_mem_take hearlier) id hid
        rw [hvalue] at hpub
        exact hanswers.2 id hpub

variable [DecidableEq T]

lemma Inv.step (h : Inv hash s) (hstep : s.step hash thread = some s') : Inv hash s' := by
  unfold System.step at hstep
  split at hstep
  · cases hstep
  · rename_i frame hframe
    exact h.of_stepSpec hframe (stepFrame_spec h.wf (h.frames thread frame hframe).1 hstep)

/-- **Every state of the system satisfies the invariant.** -/
lemma System.Reachable.inv (h : s.Reachable hash) : Inv hash s := by
  induction h with
  | new => exact Inv.new
  | call thread op _ hcall ih => exact ih.call hcall
  | step thread _ hstep ih => exact ih.step hstep

/-- **Agreement.**  In every state that any number of threads can reach: ids that were returned are
equal exactly when their values are, the arena slot of a returned id holds its value, and a `get`
that was called after an `intern` of its value had returned gives that id. -/
theorem interner_agreement {s : System Tid T M} (h : s.Reachable hash) :
    (∀ a ∈ s.log, ∀ b ∈ s.log, ∀ i j, a.result = some i → b.result = some j →
      (i = j ↔ a.op.value = b.op.value)) ∧
    (∀ a ∈ s.log, ∀ i, a.result = some i → s.interner.arenaValue i = some a.op.value) ∧
    (∀ b ∈ s.log, ∀ a ∈ s.returnedBefore b, ∀ value metadata, b.op = .get value →
      a.op = .intern value metadata → ∃ id, a.result = some id ∧ b.result = some id) := by
  have hinv := h.inv
  have hagree : ∀ a ∈ s.log, ∀ b ∈ s.log, ∀ i j, a.result = some i → b.result = some j →
      (i = j ↔ a.op.value = b.op.value) := by
    intro a ha b hb i j hi hj
    have hpa := hinv.published a ha i hi
    have hpb := hinv.published b hb j hj
    constructor
    · rintro rfl
      exact Option.some.inj (hpa.value_eq.symm.trans hpb.value_eq)
    · intro hvalue
      rw [hvalue] at hpa
      exact hpa.unique hinv.wf hpb
  refine ⟨hagree, fun a ha i hi => (hinv.published a ha i hi).value_eq, ?_⟩
  intro b hb a ha value metadata hop hop'
  have halog : a ∈ s.log := List.mem_of_mem_take ha
  have hvalue : a.op.value = b.op.value := by rw [hop, hop']; rfl
  obtain ⟨i, hi⟩ : ∃ i, a.result = some i := by
    refine Option.ne_none_iff_exists'.mp fun hnone => ?_
    obtain ⟨other, hget⟩ := hinv.interned a halog hnone
    rw [hop'] at hget
    cases hget
  obtain ⟨j, hj⟩ : ∃ j, b.result = some j := by
    refine Option.ne_none_iff_exists'.mp fun hnone => ?_
    rw [hinv.ordered b hb hnone a ha hvalue] at hi
    cases hi
  obtain rfl := (hagree a halog b hb i j hi hj).mpr hvalue
  exact ⟨i, hi, hj⟩

/-- A schedule: which thread moves next, and what it calls if it is idle. -/
def System.exec (hash : T → UInt64) (s : System Tid T M) :
    List (Tid × Option (Op T M)) → Option (System Tid T M)
  | [] => some s
  | (thread, some op) :: rest => (s.call thread op).bind fun s' => s'.exec hash rest
  | (thread, none) :: rest => (s.step hash thread).bind fun s' => s'.exec hash rest

lemma System.Reachable.exec {s s' : System Tid T M} (h : s.Reachable hash) :
    ∀ {schedule : List (Tid × Option (Op T M))}, s.exec hash schedule = some s' →
      s'.Reachable hash
  | [], hexec => Option.some.inj hexec ▸ h
  | (thread, some op) :: rest, hexec => by
    obtain ⟨next, hnext, hrest⟩ := Option.bind_eq_some_iff.mp hexec
    exact System.Reachable.exec (.call thread op h hnext) hrest
  | (thread, none) :: rest, hexec => by
    obtain ⟨next, hnext, hrest⟩ := Option.bind_eq_some_iff.mp hexec
    exact System.Reachable.exec (.step thread h hnext) hrest

end Runs

/-- Two threads intern two values of one hash and both find the table free; the one that pushed
first loses the race for the table entry, and then looks its value up. -/
def raceSchedule : List (Bool × Option (Op Bool Unit)) :=
  [(true, some (.intern true ())), (false, some (.intern false ())), (true, none), (false, none),
    (true, none), (false, none), (false, none), (true, none), (true, none),
    (true, some (.get true)), (true, none), (true, none)]

theorem raceSchedule_agreement :
    ∃ s : System Bool Bool Unit, s.Reachable (fun _ => 0) ∧
      s.log.map (fun done => (done.op.value, done.startedAt, done.result.map Subtype.val)) =
        [(false, 0, some 2), (true, 0, some 1), (true, 2, some 1)] ∧
      (∀ a ∈ s.log, ∀ b ∈ s.log, ∀ i j, a.result = some i → b.result = some j →
        (i = j ↔ a.op.value = b.op.value)) ∧
      (∀ a ∈ s.log, ∀ i, a.result = some i → s.interner.arenaValue i = some a.op.value) ∧
      (∀ b ∈ s.log, ∀ a ∈ s.returnedBefore b, ∀ value metadata, b.op = .get value →
        a.op = .intern value metadata → ∃ id, a.result = some id ∧ b.result = some id) := by
  have hlog : (System.new.exec (fun _ => 0) raceSchedule).map (fun s =>
      s.log.map (fun done => (done.op.value, done.startedAt, done.result.map Subtype.val))) =
        some [(false, 0, some 2), (true, 0, some 1), (true, 2, some 1)] := by decide
  obtain ⟨s, hexec, hlog⟩ := Option.map_eq_some_iff.mp hlog
  have hreach : s.Reachable (fun _ => 0) := System.Reachable.exec .new hexec
  exact ⟨s, hreach, hlog, interner_agreement hreach⟩

end Iris.Interning
