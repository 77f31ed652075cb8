import Mathlib.Algebra.Ring.Nat
import Mathlib.Logic.Function.Basic
import Mathlib.Data.List.Basic

/-!
# The parallel interner

`interner::parallel::Interner` gives every distinct value one `Id`, for any number of threads and
without a global lock.  Values live in an append-only arena; a concurrent table maps the hash of a
value to the id that was first published for that hash; values whose hash is taken by another value
go to an overflow list behind a mutex.

The model runs the threads as a system of atomic steps.  The arena is `boxcar::Vec`, whose `push`
hands out fresh indices, and the table is `papaya::HashMap`, a linearizable map whose entries are
never removed, so one `push`, `get` or `try_insert` is one step.  A critical section of the overflow
mutex is one step where it touches nothing else that is shared; `intern_at_collision`, which pushes
to the arena while it holds the mutex, takes three, and the mutex is a field of the state.

The hash function is a parameter: nothing here depends on how values collide.
-/

namespace Iris.Interning

/-- `std::num::NonZeroU32`. -/
abbrev NonZeroU32 := {n : ℕ // 0 < n ∧ n < 2 ^ 32}

/-- `id_from_index`, which panics once the arena is full. -/
def idFromIndex (index : ℕ) : Option NonZeroU32 :=
  if h : index + 1 < 2 ^ 32 then some ⟨index + 1, Nat.succ_pos _, h⟩ else none

/-- The shared data structure. -/
structure Interner (T M : Type*) where
  arena : List (T × M)
  table : UInt64 → Option NonZeroU32
  overflow : List (UInt64 × NonZeroU32)

/-- What a thread asks of the interner. -/
inductive Op (T M : Type*) where
  | intern (value : T) (metadata : M)
  | get (value : T)

/-- The value an operation is about. -/
def Op.value {T M : Type*} : Op T M → T
  | .intern value _ => value
  | .get value => value

/-- Where a thread stands inside an operation. -/
inductive Pc where
  /-- `table.get(&hash)` of `intern_with_metadata`. -/
  | internTable
  /-- `self.arena.push((value, metadata))`. -/
  | arenaPush
  /-- `table.try_insert(hash, candidate)`. -/
  | tryInsert (candidate : NonZeroU32)
  /-- `intern_at_collision`, before it takes the lock. -/
  | internAtCollision
  /-- `intern_at_collision`, at its `arena.push`; the thread holds the lock. -/
  | collisionPush
  /-- `intern_at_collision`, at its `overflow.push`; the thread holds the lock. -/
  | collisionPublish (candidate : NonZeroU32)
  /-- `publish_collision`, before it takes the lock. -/
  | publishCollision (candidate : NonZeroU32)
  /-- `table.get(&hash)` of `get`. -/
  | getTable
  /-- `get`, before it takes the lock. -/
  | getOverflow

/-- An operation in flight.  `startedAt` counts the operations that had returned when it was
called. -/
structure Frame (T M : Type*) where
  op : Op T M
  startedAt : ℕ
  pc : Pc

/-- An operation that returned. -/
structure Completed (T M : Type*) where
  op : Op T M
  startedAt : ℕ
  result : Option NonZeroU32

/-- The interner, its overflow mutex, the threads that use it, and the log of the operations that
have returned, oldest first. -/
structure System (Tid T M : Type*) where
  interner : Interner T M
  lock : Option Tid
  threads : Tid → Option (Frame T M)
  log : List (Completed T M)

variable {Tid T M : Type*}

namespace Interner

/-- An interner before its first use. -/
def new : Interner T M := { arena := [], table := fun _ => none, overflow := [] }

/-- `arena_value`; `none` is the `unreachable!` branch. -/
def arenaValue (self : Interner T M) (id : NonZeroU32) : Option T :=
  self.arena[id.1 - 1]?.map Prod.fst

/-- `self.arena.push(..)`: the index of the new slot is the number of slots before it. -/
def push (self : Interner T M) (entry : T × M) : Interner T M :=
  { self with arena := self.arena ++ [entry] }

/-- `table.try_insert` where the hash is free. -/
def insertTable (self : Interner T M) (h : UInt64) (candidate : NonZeroU32) : Interner T M :=
  { self with table := Function.update self.table h (some candidate) }

/-- `overflow.push`. -/
def pushOverflow (self : Interner T M) (h : UInt64) (candidate : NonZeroU32) : Interner T M :=
  { self with overflow := self.overflow ++ [(h, candidate)] }

variable [DecidableEq T]

/-- The loop of `scan_overflow`, over the reversed list. -/
def scanOverflowLoop (self : Interner T M) (hash : UInt64) (value : T) :
    List (UInt64 × NonZeroU32) → Option (Option NonZeroU32)
  | [] => some none
  | (overflowHash, overflowId) :: rest =>
    if overflowHash ≠ hash then self.scanOverflowLoop hash value rest
    else
      match self.arenaValue overflowId with
      | none => none
      | some found =>
        if found = value then some (some overflowId) else self.scanOverflowLoop hash value rest

/-- `scan_overflow`; `none` is a panic in `arena_value`. -/
def scanOverflow (self : Interner T M) (hash : UInt64) (value : T) : Option (Option NonZeroU32) :=
  self.scanOverflowLoop hash value self.overflow.reverse

end Interner

namespace System

/-- An unused interner and idle threads. -/
def new : System Tid T M := { interner := .new, lock := none, threads := fun _ => none, log := [] }

/-- The operations that had returned when `later` was called. -/
def returnedBefore (self : System Tid T M) (later : Completed T M) : List (Completed T M) :=
  self.log.take later.startedAt

variable [DecidableEq Tid]

/-- The thread goes on at `pc`. -/
def goto (self : System Tid T M) (thread : Tid) (frame : Frame T M) (pc : Pc) : System Tid T M :=
  { self with threads := Function.update self.threads thread (some { frame with pc }) }

/-- The operation returns `result`. -/
def ret (self : System Tid T M) (thread : Tid) (frame : Frame T M) (result : Option NonZeroU32) :
    System Tid T M :=
  { self with
    threads := Function.update self.threads thread none
    log := self.log ++ [⟨frame.op, frame.startedAt, result⟩] }

/-- The operation panics and unwinds, giving up the lock if it holds it. -/
def unwind (self : System Tid T M) (thread : Tid) : System Tid T M :=
  { self with
    threads := Function.update self.threads thread none
    lock := if self.lock = some thread then none else self.lock }

/-- A thread that is doing nothing calls an operation. -/
def call (self : System Tid T M) (thread : Tid) (op : Op T M) : Option (System Tid T M) :=
  match self.threads thread with
  | some _ => none
  | none =>
    let pc := match op with
      | .intern .. => Pc.internTable
      | .get _ => Pc.getTable
    some { self with
      threads := Function.update self.threads thread (some ⟨op, self.log.length, pc⟩) }

variable [DecidableEq T] (hash : T → UInt64)

/-- One atomic step of a running operation; `none` when the thread waits for the mutex. -/
def stepFrame (self : System Tid T M) (thread : Tid) (frame : Frame T M) :
    Option (System Tid T M) :=
  match frame.op, frame.pc with
  | .intern value _, .internTable =>
    match self.interner.table (hash value) with
    | none => some (self.goto thread frame .arenaPush)
    | some id =>
      match self.interner.arenaValue id with
      | none => some (self.unwind thread)
      | some found =>
        if found = value then some (self.ret thread frame (some id))
        else some (self.goto thread frame .internAtCollision)
  | .intern value metadata, .arenaPush =>
    let index := self.interner.arena.length
    let pushed := { self with interner := self.interner.push (value, metadata) }
    match idFromIndex index with
    | none => some (pushed.unwind thread)
    | some candidate => some (pushed.goto thread frame (.tryInsert candidate))
  | .intern value _, .tryInsert candidate =>
    match self.interner.table (hash value) with
    | none =>
      let inserted := { self with interner := self.interner.insertTable (hash value) candidate }
      some (inserted.ret thread frame (some candidate))
    | some current =>
      match self.interner.arenaValue current, self.interner.arenaValue candidate with
      | some currentValue, some candidateValue =>
        if currentValue = candidateValue then some (self.ret thread frame (some current))
        else some (self.goto thread frame (.publishCollision candidate))
      | _, _ => some (self.unwind thread)
  | .intern value _, .internAtCollision =>
    if self.lock.isSome then none
    else
      match self.interner.scanOverflow (hash value) value with
      | none => some (self.unwind thread)
      | some (some id) => some (self.ret thread frame (some id))
      | some none => some ({ self with lock := some thread }.goto thread frame .collisionPush)
  | .intern value metadata, .collisionPush =>
    let index := self.interner.arena.length
    let pushed := { self with interner := self.interner.push (value, metadata) }
    match idFromIndex index with
    | none => some (pushed.unwind thread)
    | some candidate => some (pushed.goto thread frame (.collisionPublish candidate))
  | .intern value _, .collisionPublish candidate =>
    let published := { self with
      interner := self.interner.pushOverflow (hash value) candidate
      lock := none }
    some (published.ret thread frame (some candidate))
  | .intern value _, .publishCollision candidate =>
    if self.lock.isSome then none
    else
      match self.interner.arenaValue candidate with
      | none => some (self.unwind thread)
      | some candidateValue =>
        match self.interner.scanOverflow (hash value) candidateValue with
        | none => some (self.unwind thread)
        | some (some id) => some (self.ret thread frame (some id))
        | some none =>
          let published := { self with
            interner := self.interner.pushOverflow (hash value) candidate }
          some (published.ret thread frame (some candidate))
  | .get value, .getTable =>
    match self.interner.table (hash value) with
    | none => some (self.ret thread frame none)
    | some id =>
      match self.interner.arenaValue id with
      | none => some (self.unwind thread)
      | some found =>
        if found = value then some (self.ret thread frame (some id))
        else some (self.goto thread frame .getOverflow)
  | .get value, .getOverflow =>
    if self.lock.isSome then none
    else
      match self.interner.scanOverflow (hash value) value with
      | none => some (self.unwind thread)
      | some result => some (self.ret thread frame result)
  -- the program counters of one operation never occur in the other
  | _, _ => none

/-- One step of a thread. -/
def step (self : System Tid T M) (thread : Tid) : Option (System Tid T M) :=
  match self.threads thread with
  | none => none
  | some frame => self.stepFrame hash thread frame

/-- The states of the system, under any interleaving of calls and steps. -/
inductive Reachable : System Tid T M → Prop
  | new : Reachable new
  | call {s s' : System Tid T M} (thread : Tid) (op : Op T M) : Reachable s →
      s.call thread op = some s' → Reachable s'
  | step {s s' : System Tid T M} (thread : Tid) : Reachable s → s.step hash thread = some s' →
      Reachable s'

end System

end Iris.Interning
