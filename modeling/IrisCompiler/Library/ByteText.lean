import Mathlib.Algebra.Ring.Nat
import Mathlib.Data.List.Basic
import Mathlib.Tactic.Common

/-!
# Text addressed by byte offsets

A text is a list of characters; its UTF-8 encoding gives each character a width of one to four
bytes, and offsets into the text count bytes.  `slice` cuts a text at two offsets and refuses an
offset that is out of range or inside a character, as indexing a UTF-8 string does.
-/

namespace ByteText

/-- The number of bytes of the text's UTF-8 encoding. -/
def byteLength (text : List Char) : ℕ := (text.map Char.utf8Size).sum

@[simp] lemma byteLength_nil : byteLength [] = 0 := rfl

@[simp] lemma byteLength_cons (c : Char) (text : List Char) :
    byteLength (c :: text) = c.utf8Size + byteLength text := by
  simp [byteLength]

@[simp] lemma byteLength_append (text more : List Char) :
    byteLength (text ++ more) = byteLength text + byteLength more := by
  simp [byteLength]

variable {text piece : List Char} {low high : ℕ}

lemma byteLength_pos (h : text ≠ []) : 0 < byteLength text := by
  cases text with
  | nil => exact absurd rfl h
  | cons c text =>
    have := c.utf8Size_pos
    simp
    omega

/-- What follows the first `count` bytes. -/
def dropBytes : ℕ → List Char → Option (List Char)
  | 0, text => some text
  | _ + 1, [] => none
  | count + 1, c :: text =>
    if c.utf8Size ≤ count + 1 then dropBytes (count + 1 - c.utf8Size) text else none

/-- The first `count` bytes. -/
def takeBytes : ℕ → List Char → Option (List Char)
  | 0, _ => some []
  | _ + 1, [] => none
  | count + 1, c :: text =>
    if c.utf8Size ≤ count + 1 then (takeBytes (count + 1 - c.utf8Size) text).map (c :: ·) else none

/-- The text between two byte offsets, where both are boundaries between characters. -/
def slice (text : List Char) (low high : ℕ) : Option (List Char) :=
  if low ≤ high then (dropBytes low text).bind (takeBytes (high - low)) else none

/-- The offset lies between two characters of the text, or at one of its ends. -/
def IsBoundary (text : List Char) (offset : ℕ) : Prop :=
  ∃ before after, text = before ++ after ∧ byteLength before = offset

lemma dropBytes_append (before after : List Char) :
    dropBytes (byteLength before) (before ++ after) = some after := by
  induction before with
  | nil => simp [dropBytes]
  | cons c before ih =>
    have := c.utf8Size_pos
    obtain ⟨width, hw⟩ : ∃ width, c.utf8Size + byteLength before = width + 1 :=
      ⟨c.utf8Size + byteLength before - 1, by omega⟩
    rw [byteLength_cons, List.cons_append, hw, dropBytes, if_pos (by omega), ← hw,
      Nat.add_sub_cancel_left, ih]

lemma dropBytes_suffix {count : ℕ} {rest : List Char} (h : dropBytes count text = some rest) :
    rest <:+ text := by
  fun_induction dropBytes count text with
  | case1 =>
    cases h
    exact List.suffix_rfl
  | case2 => cases h
  | case3 _ _ _ _ ih => exact (ih h).trans (List.suffix_cons _ _)
  | case4 => cases h

lemma takeBytes_append (before after : List Char) :
    takeBytes (byteLength before) (before ++ after) = some before := by
  induction before with
  | nil => simp [takeBytes]
  | cons c before ih =>
    have := c.utf8Size_pos
    obtain ⟨width, hw⟩ : ∃ width, c.utf8Size + byteLength before = width + 1 :=
      ⟨c.utf8Size + byteLength before - 1, by omega⟩
    rw [byteLength_cons, List.cons_append, hw, takeBytes, if_pos (by omega), ← hw,
      Nat.add_sub_cancel_left, ih, Option.map_some]

lemma slice_append (before middle after : List Char) :
    slice (before ++ (middle ++ after)) (byteLength before)
      (byteLength before + byteLength middle) = some middle := by
  rw [slice, if_pos (by omega), dropBytes_append, Option.bind_some, Nat.add_sub_cancel_left,
    takeBytes_append]

lemma IsBoundary.le {offset : ℕ} (h : IsBoundary text offset) : offset ≤ byteLength text := by
  obtain ⟨before, after, rfl, rfl⟩ := h
  rw [byteLength_append]
  exact Nat.le_add_right _ _

lemma IsBoundary.zero (text : List Char) : IsBoundary text 0 := ⟨[], text, rfl, rfl⟩

/-- Two splits of one text, at offsets in order, nest. -/
lemma exists_middle {before after first rest : List Char} (hsplit : text = before ++ after)
    (hlater : text = first ++ rest) (horder : byteLength before ≤ byteLength first) :
    ∃ middle, first = before ++ middle ∧ after = middle ++ rest := by
  have hsame : before ++ after = first ++ rest := hsplit.symm.trans hlater
  rcases List.append_eq_append_iff.mp hsame with ⟨middle, rfl, rfl⟩ | ⟨middle, rfl, rfl⟩
  · exact ⟨middle, rfl, rfl⟩
  · have : middle = [] := by
      by_contra hnonempty
      have := byteLength_pos hnonempty
      simp at horder
      omega
    subst this
    exact ⟨[], by simp, by simp⟩

/-- Between two boundaries there is a text. -/
lemma exists_slice (hlow : IsBoundary text low) (hhigh : IsBoundary text high)
    (horder : low ≤ high) :
    ∃ piece, slice text low high = some piece := by
  obtain ⟨before, after, hsplit, rfl⟩ := hlow
  obtain ⟨first, rest, hlater, rfl⟩ := hhigh
  obtain ⟨middle, rfl, rfl⟩ := exists_middle hsplit hlater horder
  exact ⟨middle, by rw [hsplit, byteLength_append, slice_append]⟩

/-- What `slice` returns is the text between two boundaries. -/
lemma split_of_slice (hlow : IsBoundary text low) (hhigh : IsBoundary text high)
    (h : slice text low high = some piece) :
    ∃ before after, text = before ++ (piece ++ after) ∧ byteLength before = low ∧
      low + byteLength piece = high := by
  have horder : low ≤ high := by
    by_contra habsurd
    simp [slice, habsurd] at h
  obtain ⟨before, after, hsplit, rfl⟩ := hlow
  obtain ⟨first, rest, hlater, rfl⟩ := hhigh
  obtain ⟨middle, rfl, rfl⟩ := exists_middle hsplit hlater horder
  rw [hsplit, byteLength_append, slice_append, Option.some.injEq] at h
  subst h
  exact ⟨before, rest, hsplit, rfl, by rw [byteLength_append]⟩

/-- Adjacent slices join. -/
lemma slice_trans {more : List Char} {middle : ℕ} (hlow : IsBoundary text low)
    (hmiddle : IsBoundary text middle) (hhigh : IsBoundary text high)
    (hfirst : slice text low middle = some piece) (hsecond : slice text middle high = some more) :
    slice text low high = some (piece ++ more) := by
  obtain ⟨before, after, hsplit, rfl, rfl⟩ := split_of_slice hlow hmiddle hfirst
  obtain ⟨front, back, hsplit', hwidth, rfl⟩ := split_of_slice hmiddle hhigh hsecond
  have hjoined : text = (before ++ piece) ++ after := by rw [hsplit, List.append_assoc]
  obtain ⟨gap, rfl, hgapped⟩ := exists_middle hjoined hsplit' (by simp [hwidth])
  obtain rfl : gap = [] := by
    by_contra hnonempty
    have := byteLength_pos hnonempty
    simp at hwidth
    omega
  have := slice_append before (piece ++ more) back
  rwa [byteLength_append, ← Nat.add_assoc, show before ++ ((piece ++ more) ++ back) = text by
    rw [hsplit']; simp] at this

lemma byteLength_of_takeBytes {count : ℕ} (h : takeBytes count text = some piece) :
    byteLength piece = count := by
  fun_induction takeBytes count text generalizing piece with
  | case1 => simp_all
  | case2 => simp at h
  | case3 count c text hfits ih =>
    obtain ⟨rest, htaken, rfl⟩ := Option.map_eq_some_iff.mp h
    rw [byteLength_cons, ih htaken]
    omega
  | case4 => simp at h

/-- What `slice` returns is as long as its offsets are apart. -/
lemma byteLength_of_slice (h : slice text low high = some piece) :
    byteLength piece = high - low := by
  unfold slice at h
  split at h
  · obtain ⟨rest, _, htaken⟩ := Option.bind_eq_some_iff.mp h
    exact byteLength_of_takeBytes htaken
  · simp at h

/-- From the first offset to the last, `slice` is the whole text. -/
lemma slice_whole (text : List Char) : slice text 0 (byteLength text) = some text := by
  simpa using slice_append [] text []

end ByteText
