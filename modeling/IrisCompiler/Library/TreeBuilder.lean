import Mathlib.Algebra.Ring.Nat
import Mathlib.Tactic.Common

/-!
# Trees over text, built from the left

A tree whose tokens are ranges of a text is built by opening and closing nodes and by adding tokens,
each of which begins where the one before it ended.  The leaves of the tree, in order and each with
the node around it, can be read off at any time, as if all open nodes were closed there
(`Builder.leaves`): opening and closing a node does not change them, and a token adds one.

The text index of the builder is bounded; a token that would end at or beyond the bound is refused.
-/

namespace TreeBuilder

variable {κ : Type}

inductive Tree (κ : Type) where
  | token (value : κ) (start stop : ℕ)
  | node (value : κ) (children : List (Tree κ))

/-- A token of a tree, with the node it is in. -/
structure Leaf (κ : Type) where
  parent : Option κ
  value : κ
  start : ℕ
  stop : ℕ
  deriving DecidableEq, Repr

mutual

/-- The tokens of a tree that is itself in a node `parent`. -/
def Tree.leaves (parent : Option κ) : Tree κ → List (Leaf κ)
  | .token value start stop => [⟨parent, value, start, stop⟩]
  | .node value children => leavesOf (some value) children

def leavesOf (parent : Option κ) : List (Tree κ) → List (Leaf κ)
  | [] => []
  | tree :: trees => tree.leaves parent ++ leavesOf parent trees

end

/-- The sum of the lengths of the tokens. -/
def widthOf (leaves : List (Leaf κ)) : ℕ := (leaves.map fun leaf => leaf.stop - leaf.start).sum

def Tree.width (tree : Tree κ) : ℕ := widthOf (tree.leaves none)

@[simp] lemma leavesOf_append (parent : Option κ) (first second : List (Tree κ)) :
    leavesOf parent (first ++ second) = leavesOf parent first ++ leavesOf parent second := by
  induction first with
  | nil => rfl
  | cons tree trees ih => simp [leavesOf, ih]

@[simp] lemma leavesOf_singleton (parent : Option κ) (tree : Tree κ) :
    leavesOf parent [tree] = tree.leaves parent := by
  simp [leavesOf]

@[simp] lemma widthOf_append (first second : List (Leaf κ)) :
    widthOf (first ++ second) = widthOf first + widthOf second := by
  simp [widthOf]

/-- What has been built so far. -/
structure Builder (κ : Type) where
  /-- Where the next token begins. -/
  cursor : ℕ
  /-- The open nodes, the innermost first, each with the trees before it. -/
  opened : List (κ × List (Tree κ))
  /-- The trees in the innermost open node. -/
  done : List (Tree κ)

namespace Builder

def new : Builder κ where
  cursor := 0
  opened := []
  done := []

/-- Open a node. -/
def start (self : Builder κ) (value : κ) : Builder κ where
  cursor := self.cursor
  opened := (value, self.done) :: self.opened
  done := []

/-- Close the innermost open node. -/
def close (self : Builder κ) : Option (Builder κ) :=
  match self.opened with
  | [] => none
  | (value, before) :: opened =>
    some { cursor := self.cursor, opened, done := before ++ [.node value self.done] }

/-- Add a token of the given length. -/
def token (limit : ℕ) (self : Builder κ) (value : κ) (length : ℕ) : Option (Builder κ) :=
  if self.cursor + length < limit then
    some { self with
      cursor := self.cursor + length
      done := self.done ++ [.token value self.cursor (self.cursor + length)] }
  else none

/-- Add a token without text. -/
def tokenEmpty (self : Builder κ) (value : κ) : Builder κ :=
  { self with done := self.done ++ [.token value self.cursor self.cursor] }

/-- The trees, if no node is open. -/
def build (self : Builder κ) : Option (List (Tree κ)) :=
  if self.opened.isEmpty then some self.done else none

/-- The value of the innermost open node. -/
def parent (self : Builder κ) : Option κ := self.opened.head?.map Prod.fst

/-- The leaves of open nodes around finished trees. -/
def leavesIn : List (κ × List (Tree κ)) → List (Tree κ) → List (Leaf κ)
  | [], done => leavesOf none done
  | (value, before) :: opened, done => leavesIn opened (before ++ [.node value done])

/-- The leaves of what has been built so far. -/
def leaves (self : Builder κ) : List (Leaf κ) := leavesIn self.opened self.done

lemma leavesIn_append (opened : List (κ × List (Tree κ))) (done more : List (Tree κ)) :
    leavesIn opened (done ++ more) =
      leavesIn opened done ++ leavesOf (opened.head?.map Prod.fst) more := by
  induction opened generalizing done more with
  | nil => simp [leavesIn]
  | cons entry opened ih =>
    simp only [leavesIn]
    rw [ih, ih]
    simp [Tree.leaves]

@[simp] lemma leaves_start (self : Builder κ) (value : κ) :
    (self.start value).leaves = self.leaves := by
  simp only [leaves, start, leavesIn, leavesIn_append]
  exact List.append_nil _

variable {self : Builder κ} {length : ℕ}

lemma leaves_close {closed : Builder κ} (h : self.close = some closed) :
    closed.leaves = self.leaves ∧ closed.cursor = self.cursor := by
  unfold close at h
  split at h
  · cases h
  · next value before opened hfound =>
    cases h
    exact ⟨by rw [leaves, leaves, hfound, leavesIn], rfl⟩

lemma opened_close {closed : Builder κ} (h : self.close = some closed) :
    closed.opened ⊆ self.opened := by
  unfold close at h
  split at h
  · cases h
  · next value before opened hfound =>
    cases h
    rw [hfound]
    exact List.subset_cons_self _ _

lemma leaves_tokenEmpty (self : Builder κ) (value : κ) :
    (self.tokenEmpty value).leaves =
      self.leaves ++ [⟨self.parent, value, self.cursor, self.cursor⟩] := by
  simp only [leaves, tokenEmpty, leavesIn_append]
  rfl

lemma token_eq_some {limit : ℕ} {added : Builder κ} {value : κ}
    (h : self.token limit value length = some added) :
    added.leaves = self.leaves ++
        [⟨self.parent, value, self.cursor, self.cursor + length⟩] ∧
      added.cursor = self.cursor + length ∧ added.cursor < limit ∧ added.opened = self.opened := by
  unfold token at h
  split at h
  · next hfits =>
    cases h
    refine ⟨?_, rfl, hfits, rfl⟩
    simp only [leaves, leavesIn_append]
    rfl
  · cases h

lemma exists_token {limit : ℕ} (self : Builder κ) (value : κ)
    (hfits : self.cursor + length < limit) :
    ∃ added, self.token limit value length = some added := by
  unfold token
  rw [if_pos hfits]
  exact ⟨_, rfl⟩

/-- Closing a node that was opened around what is there now. -/
lemma close_of_opened {value : κ} {before : List (Tree κ)} {opened : List (κ × List (Tree κ))}
    (h : self.opened = (value, before) :: opened) :
    ∃ closed, self.close = some closed ∧ closed.opened = opened ∧
      closed.done = before ++ [.node value self.done] := by
  simp only [close, h]
  exact ⟨_, rfl, rfl, rfl⟩

lemma leaves_of_build {trees : List (Tree κ)} (h : self.build = some trees) :
    self.leaves = leavesOf none trees := by
  unfold build at h
  split at h
  · next hclosed =>
    cases h
    rw [leaves, List.isEmpty_iff.mp hclosed, leavesIn]
  · cases h

/-! ## The width of what has been built -/

/-- The leaves are as wide as the cursor says, which is below the limit. -/
structure Sized (limit : ℕ) (builder : Builder κ) : Prop where
  width : widthOf builder.leaves = builder.cursor
  short : builder.cursor < limit

namespace Sized

variable {limit : ℕ} {self : Builder κ}

lemma new (hpositive : 0 < limit) : Sized limit (new : Builder κ) := ⟨rfl, hpositive⟩

lemma start (h : Sized limit self) (value : κ) : Sized limit (self.start value) :=
  ⟨(congrArg widthOf (self.leaves_start value)).trans h.width, h.short⟩

lemma close (h : Sized limit self) {closed : Builder κ} (hcloses : self.close = some closed) :
    Sized limit closed := by
  obtain ⟨hleaves, hcursor⟩ := leaves_close hcloses
  exact ⟨by rw [hleaves, hcursor, h.width], by rw [hcursor]; exact h.short⟩

lemma token (h : Sized limit self) {value : κ} {length : ℕ} {added : Builder κ}
    (hadds : self.token limit value length = some added) : Sized limit added := by
  obtain ⟨hleaves, hcursor, hshort, _⟩ := token_eq_some hadds
  refine ⟨?_, hshort⟩
  rw [hleaves, hcursor, widthOf_append, h.width]
  simp [widthOf]

lemma tokenEmpty (h : Sized limit self) (value : κ) : Sized limit (self.tokenEmpty value) := by
  refine ⟨?_, h.short⟩
  rw [self.leaves_tokenEmpty, widthOf_append, h.width]
  simp [widthOf, Builder.tokenEmpty]

/-- A tree that was built is narrower than the limit. -/
lemma width_lt (h : Sized limit self) {root : Tree κ} {rest : List (Tree κ)}
    (hbuilds : self.build = some (root :: rest)) : root.width < limit := by
  have hwidth := h.width
  rw [leaves_of_build hbuilds, leavesOf, widthOf_append] at hwidth
  have := h.short
  unfold Tree.width
  omega

end Sized

end Builder

/-! ## Implementations -/

/-- A builder with a state of its own, whose index is below `limit`.  What it has built can be seen,
and every operation does there what the name says. -/
structure Implementation (κ : Type) (limit : ℕ) where
  State : Type
  new : State
  start : State → κ → State
  close : State → Option State
  token : State → κ → ℕ → Option State
  tokenEmpty : State → κ → State
  build : State → Option (List (Tree κ))
  /-- What has been built. -/
  view : State → Builder κ
  view_new : view new = .new
  view_start : ∀ s value, view (start s value) = (view s).start value
  view_close : ∀ s, (close s).map view = (view s).close
  view_token : ∀ s value length, (token s value length).map view =
    (view s).token limit value length
  view_tokenEmpty : ∀ s value, view (tokenEmpty s value) = (view s).tokenEmpty value
  build_eq : ∀ s, build s = (view s).build

/-- What has been built is itself a state. -/
def model (κ : Type) (limit : ℕ) : Implementation κ limit where
  State := Builder κ
  new := Builder.new
  start := Builder.start
  close := Builder.close
  token := Builder.token limit
  tokenEmpty := Builder.tokenEmpty
  build := Builder.build
  view := id
  view_new := rfl
  view_start _ _ := rfl
  view_close _ := congrFun Option.map_id _
  view_token _ _ _ := congrFun Option.map_id _
  view_tokenEmpty _ _ := rfl
  build_eq _ := rfl

namespace Implementation

variable {limit : ℕ} {T : Implementation κ limit} {s next : T.State}

lemma view_of_close (h : T.close s = some next) : (T.view s).close = some (T.view next) := by
  rw [← T.view_close, h]
  rfl

lemma exists_close {closed : Builder κ} (h : (T.view s).close = some closed) :
    ∃ next, T.close s = some next ∧ T.view next = closed :=
  Option.map_eq_some_iff.mp ((T.view_close s).trans h)

variable {value : κ} {length : ℕ}

lemma view_of_token (h : T.token s value length = some next) :
    (T.view s).token limit value length = some (T.view next) := by
  rw [← T.view_token, h]
  rfl

lemma exists_token (h : (T.view s).cursor + length < limit) :
    ∃ next, T.token s value length = some next := by
  obtain ⟨added, hadded⟩ := (T.view s).exists_token value h
  obtain ⟨next, hnext, _⟩ := Option.map_eq_some_iff.mp ((T.view_token s value length).trans hadded)
  exact ⟨next, hnext⟩

end Implementation

end TreeBuilder
