import Mathlib.Data.List.Basic

/-!
# Scanning a token stream for block structure

A stream of tokens over any alphabet, some of which start, separate or finish a block.  `scan`
counts the open blocks from left to right and fails at a separator or a finish that stands outside
every block.  Streams compose (`scan_append`), so a machine that emits its output piece by piece is
verified by saying what each piece does to the count; the last section turns a successful scan into
statements about the stream's prefixes.
-/

namespace BlockScan

/-- The role of one token. -/
inductive Mark where
  | start | separator | finish | plain
  deriving DecidableEq, Repr

variable {α : Type*} (mark : α → Mark)

/-- The number of open blocks after one more token. -/
def step : ℕ → α → Option ℕ
  | n, a =>
    match mark a, n with
    | .start, n => some (n + 1)
    | .plain, n => some n
    | .separator, n + 1 => some (n + 1)
    | .finish, n + 1 => some n
    | _, 0 => none

/-- The number of open blocks after a stream, starting from `n` of them. -/
def scan : ℕ → List α → Option ℕ
  | n, [] => some n
  | n, a :: as => (step mark n a).bind fun m => scan m as

/-- The tokens that belong to the underlying stream. -/
def plain (as : List α) : List α := as.filter (mark · = .plain)

@[simp] lemma scan_nil (n : ℕ) : scan mark n [] = some n := rfl

lemma scan_cons (n : ℕ) (a : α) (as : List α) :
    scan mark n (a :: as) = (step mark n a).bind fun m => scan mark m as := rfl

@[simp] lemma scan_singleton (n : ℕ) (a : α) : scan mark n [a] = step mark n a := by
  simp [scan_cons]

/-- Scanning a concatenation is scanning the parts in turn. -/
theorem scan_append (n : ℕ) (as bs : List α) :
    scan mark n (as ++ bs) = (scan mark n as).bind fun m => scan mark m bs := by
  induction as generalizing n with
  | nil => simp
  | cons a as ih =>
      rw [List.cons_append, scan_cons, scan_cons, Option.bind_assoc]
      exact congrArg _ (funext fun m => ih m)

variable {n m : ℕ} {as bs : List α}

lemma scan_append_of_eq {k : ℕ} (has : scan mark n as = some m) (hbs : scan mark m bs = some k) :
    scan mark n (as ++ bs) = some k := by
  rw [scan_append, has]
  exact hbs

/-- Closing `k` blocks at once. -/
lemma scan_replicate_finish {a : α} (ha : mark a = .finish) (n k : ℕ) :
    scan mark (n + k) (List.replicate k a) = some n := by
  induction k with
  | zero => simp
  | succ k ih =>
      rw [List.replicate_succ, scan_cons]
      simpa [step, ha] using ih

@[simp] lemma plain_nil : plain mark [] = [] := rfl

@[simp] lemma plain_append (as bs : List α) :
    plain mark (as ++ bs) = plain mark as ++ plain mark bs := by
  simp [plain]

/-! ## What a successful scan says about the stream -/

/-- Starts and finishes account for the change in the count. -/
theorem scan_count (h : scan mark n as = some m) :
    n + as.countP (mark · = .start) = m + as.countP (mark · = .finish) := by
  induction as generalizing n with
  | nil => simpa using h
  | cons a as ih =>
      rw [scan_cons, Option.bind_eq_some_iff] at h
      obtain ⟨k, hstep, hscan⟩ := h
      have hcount := ih hscan
      cases hmark : mark a <;> cases n <;> simp [step, hmark] at hstep <;>
        simp [hmark] <;> omega

/-- A prefix of a scannable stream is scannable. -/
theorem scan_of_prefix (h : scan mark n bs = some m) (hp : as <+: bs) :
    ∃ k, scan mark n as = some k := by
  obtain ⟨rest, rfl⟩ := hp
  rw [scan_append, Option.bind_eq_some_iff] at h
  exact ⟨_, h.choose_spec.1⟩

/-- No prefix of the stream finishes more blocks than it starts. -/
theorem countP_finish_le_of_prefix (h : scan mark 0 bs = some m) (hp : as <+: bs) :
    as.countP (mark · = .finish) ≤ as.countP (mark · = .start) := by
  obtain ⟨k, hk⟩ := scan_of_prefix mark h hp
  have := scan_count mark hk
  omega

/-- Every separator stands inside a block. -/
theorem countP_finish_lt_of_separator {a : α} (h : scan mark 0 (as ++ a :: bs) = some m)
    (ha : mark a = .separator) : as.countP (mark · = .finish) < as.countP (mark · = .start) := by
  rw [scan_append, Option.bind_eq_some_iff] at h
  obtain ⟨k, hk, hrest⟩ := h
  have hcount := scan_count mark hk
  cases k with
  | zero => simp [scan_cons, step, ha] at hrest
  | succ k => omega

end BlockScan
