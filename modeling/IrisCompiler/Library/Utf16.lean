import Mathlib.Algebra.Ring.Nat
import Mathlib.Data.Char
import Mathlib.Data.List.Basic
import Mathlib.Tactic.Common

/-!
# UTF-16

Characters as code units: one unit, or a high surrogate and a low one.  `decode` refuses a surrogate
that stands alone.  A text that decodes is the encoding of its characters, and it can be cut only
where one of the two parts decodes.
-/

namespace Utf16

def isHigh (unit : ℕ) : Bool := 0xD800 ≤ unit && unit < 0xDC00

def isLow (unit : ℕ) : Bool := 0xDC00 ≤ unit && unit < 0xE000

/-- The unit is a character of its own. -/
def isSingle (unit : ℕ) : Bool := unit < 0xD800 || (0xE000 ≤ unit && unit < 0x10000)

/-- The code point of a surrogate pair. -/
def combine (high low : ℕ) : ℕ := 0x10000 + (high - 0xD800) * 0x400 + (low - 0xDC00)

/-- The characters of the units, if no surrogate stands alone. -/
def decode : List ℕ → Option (List Char)
  | [] => some []
  | [unit] => if isSingle unit then some [Char.ofNat unit] else none
  | unit :: next :: rest =>
    if isSingle unit then (decode (next :: rest)).map (Char.ofNat unit :: ·)
    else if isHigh unit && isLow next then (decode rest).map (Char.ofNat (combine unit next) :: ·)
    else none

def encodeChar (c : Char) : List ℕ :=
  if c.toNat < 0x10000 then [c.toNat]
  else [0xD800 + (c.toNat - 0x10000) / 0x400, 0xDC00 + (c.toNat - 0x10000) % 0x400]

def encode (text : List Char) : List ℕ := text.flatMap encodeChar

@[simp] lemma encode_nil : encode [] = [] := rfl

@[simp] lemma encode_cons (c : Char) (text : List Char) :
    encode (c :: text) = encodeChar c ++ encode text := rfl

@[simp] lemma encode_append (text more : List Char) :
    encode (text ++ more) = encode text ++ encode more := by
  simp [encode]

lemma toNat_cases (c : Char) : c.toNat < 0xD800 ∨ (0xE000 ≤ c.toNat ∧ c.toNat < 0x110000) := by
  have := c.valid
  change c.val.toNat < _ ∨ (_ ≤ c.val.toNat ∧ c.val.toNat < _)
  omega

lemma toNat_ofNat_of_valid {code : ℕ} (hvalid : code.isValidChar) :
    (Char.ofNat code).toNat = code := by
  rw [Char.ofNat, dif_pos hvalid]
  rfl

/-- The units of a character are one single unit or a surrogate pair. -/
lemma encodeChar_cases (c : Char) :
    (isSingle c.toNat ∧ encodeChar c = [c.toNat]) ∨
      ∃ high low, isHigh high ∧ isLow low ∧ combine high low = c.toNat ∧
        encodeChar c = [high, low] := by
  have hrange := toNat_cases c
  unfold encodeChar
  split_ifs with hsmall
  · left
    simp only [isSingle, Bool.or_eq_true, Bool.and_eq_true, decide_eq_true_eq, and_true]
    omega
  · right
    generalize c.toNat = code at hrange hsmall ⊢
    refine ⟨0xD800 + (code - 0x10000) / 0x400, 0xDC00 + (code - 0x10000) % 0x400, ?_, ?_, ?_, rfl⟩
    · rw [isHigh, Bool.and_eq_true, decide_eq_true_eq, decide_eq_true_eq]
      omega
    · rw [isLow, Bool.and_eq_true, decide_eq_true_eq, decide_eq_true_eq]
      omega
    · unfold combine
      omega

variable {unit : ℕ} {units left right rest : List ℕ} {text : List Char}

lemma not_isSingle_of_isHigh (h : isHigh unit) : isSingle unit = false := by
  simp only [isHigh, isSingle, Bool.and_eq_true, decide_eq_true_eq, Bool.or_eq_false_iff,
    decide_eq_false_iff_not, Bool.and_eq_false_iff] at *
  omega

lemma decode_cons_single (h : isSingle unit) (rest : List ℕ) :
    decode (unit :: rest) = (decode rest).map (Char.ofNat unit :: ·) := by
  cases rest with
  | nil => simp [decode, h]
  | cons next rest => simp [decode, h]

lemma decode_cons_pair {high low : ℕ} (hh : isHigh high) (hl : isLow low) (rest : List ℕ) :
    decode (high :: low :: rest) = (decode rest).map (Char.ofNat (combine high low) :: ·) := by
  simp [decode, not_isSingle_of_isHigh hh, hh, hl]

lemma decode_encodeChar_append (c : Char) (rest : List ℕ) :
    decode (encodeChar c ++ rest) = (decode rest).map (c :: ·) := by
  rcases encodeChar_cases c with ⟨hsingle, hunits⟩ | ⟨high, low, hh, hl, hsame, hunits⟩
  · rw [hunits, List.singleton_append, decode_cons_single hsingle, Char.ofNat_toNat]
  · rw [hunits, List.cons_append, List.singleton_append, decode_cons_pair hh hl, hsame,
      Char.ofNat_toNat]

/-- **What follows the encoding of a text is decoded on its own.** -/
theorem decode_encode_append (text : List Char) (rest : List ℕ) :
    decode (encode text ++ rest) = (decode rest).map (text ++ ·) := by
  induction text with
  | nil => simp
  | cons c text ih =>
    rw [encode_cons, List.append_assoc, decode_encodeChar_append, ih, Option.map_map]
    rfl

@[simp] lemma decode_encode (text : List Char) : decode (encode text) = some text := by
  have := decode_encode_append text []
  simpa [decode] using this

lemma encodeChar_single (h : isSingle unit) : encodeChar (Char.ofNat unit) = [unit] := by
  simp only [isSingle, Bool.or_eq_true, Bool.and_eq_true, decide_eq_true_eq] at h
  have hvalid : unit.isValidChar := by
    omega
  rw [encodeChar, toNat_ofNat_of_valid hvalid, if_pos (by omega)]

lemma encodeChar_pair {high low : ℕ} (hh : isHigh high) (hl : isLow low) :
    encodeChar (Char.ofNat (combine high low)) = [high, low] := by
  simp only [isHigh, isLow, Bool.and_eq_true, decide_eq_true_eq] at hh hl
  have hvalid : (combine high low).isValidChar := by
    unfold Nat.isValidChar combine
    omega
  rw [encodeChar, toNat_ofNat_of_valid hvalid, if_neg (by unfold combine; omega)]
  have hfirst : 0xD800 + (combine high low - 0x10000) / 0x400 = high := by unfold combine; omega
  have hsecond : 0xDC00 + (combine high low - 0x10000) % 0x400 = low := by unfold combine; omega
  rw [hfirst, hsecond]

/-- **A text that decodes is the encoding of its characters.** -/
theorem encode_of_decode (h : decode units = some text) : encode text = units := by
  induction units using decode.induct generalizing text with
  | case1 =>
    cases h
    rfl
  | case2 unit hsingle =>
    rw [decode, if_pos hsingle] at h
    cases h
    simpa using encodeChar_single hsingle
  | case3 unit hsingle =>
    rw [decode, if_neg hsingle] at h
    cases h
  | case4 unit next rest hsingle ih =>
    rw [decode, if_pos hsingle] at h
    obtain ⟨text, hfound, rfl⟩ := Option.map_eq_some_iff.mp h
    rw [encode_cons, encodeChar_single hsingle, ih hfound, List.singleton_append]
  | case5 unit next rest hsingle hpair ih =>
    rw [decode, if_neg hsingle, if_pos hpair] at h
    obtain ⟨text, hfound, rfl⟩ := Option.map_eq_some_iff.mp h
    obtain ⟨hh, hl⟩ := Bool.and_eq_true_iff.mp hpair
    rw [encode_cons, encodeChar_pair hh hl, ih hfound]
    rfl
  | case6 unit next rest hsingle hpair =>
    rw [decode, if_neg hsingle, if_neg hpair] at h
    cases h

/-- No surrogate stands alone. -/
def Valid (units : List ℕ) : Prop := ∃ text, decode units = some text

lemma valid_encode (text : List Char) : Valid (encode text) := ⟨text, decode_encode text⟩

lemma valid_iff : Valid units ↔ ∃ text, units = encode text :=
  ⟨fun ⟨text, h⟩ => ⟨text, (encode_of_decode h).symm⟩, fun ⟨text, h⟩ => h ▸ valid_encode text⟩

/-- After a text that decodes, what follows decodes iff the whole does. -/
theorem valid_append_iff_right (h : Valid left) : Valid (left ++ right) ↔ Valid right := by
  obtain ⟨text, rfl⟩ := valid_iff.mp h
  simp [Valid, decode_encode_append]

lemma not_isLow_head {c : Char} (h : encodeChar c = unit :: rest) : isLow unit = false := by
  rcases encodeChar_cases c with ⟨hsingle, hunits⟩ | ⟨high, low, hh, hl, hsame, hunits⟩
  · rw [hunits] at h
    cases h
    simp only [isSingle, isLow, Bool.or_eq_true, Bool.and_eq_true, decide_eq_true_eq,
      Bool.and_eq_false_iff, decide_eq_false_iff_not] at *
    omega
  · rw [hunits] at h
    cases h
    simp only [isHigh, isLow, Bool.and_eq_true, decide_eq_true_eq, Bool.and_eq_false_iff,
      decide_eq_false_iff_not] at *
    omega

/-- A text does not begin with a low surrogate. -/
lemma isLow_of_encode (h : encode text = unit :: rest) : isLow unit = false := by
  cases text with
  | nil => cases h
  | cons c text =>
    cases hunits : encodeChar c with
    | nil => rcases encodeChar_cases c with ⟨_, hu⟩ | ⟨_, _, _, _, _, hu⟩ <;> simp [hu] at hunits
    | cons first others =>
      rw [encode_cons, hunits] at h
      exact (List.cons.inj h).1 ▸ not_isLow_head hunits

/-- What stands before a text that decodes, decodes if the whole does. -/
lemma valid_of_append {more : List Char} (h : encode text = left ++ encode more) : Valid left := by
  induction text generalizing left with
  | nil =>
    obtain ⟨rfl, _⟩ := List.append_eq_nil_iff.mp h.symm
    exact valid_encode []
  | cons c text ih =>
    rw [encode_cons] at h
    -- The character stands before the cut, unless its two units are on both sides.
    have hwhole {rest : List ℕ} (hlater : encode text = rest ++ encode more) :
        Valid (encodeChar c ++ rest) := by
      obtain ⟨first, rfl⟩ := valid_iff.mp (ih hlater)
      exact valid_encode (c :: first)
    rcases encodeChar_cases c with ⟨_, hunits⟩ | ⟨high, low, _, hl, _, hunits⟩
    · rw [hunits] at h hwhole
      match left, h with
      | [], _ => exact valid_encode []
      | unit :: left, h =>
        obtain ⟨hsame, hlater⟩ := List.cons.inj h
        exact hsame ▸ hwhole hlater
    · rw [hunits] at h hwhole
      match left, h with
      | [], _ => exact valid_encode []
      | [unit], h =>
        obtain ⟨_, hlater⟩ := List.cons.inj h
        exact absurd hl (by simp [isLow_of_encode hlater.symm])
      | unit :: next :: left, h =>
        obtain ⟨hsame, hlater⟩ := List.cons.inj h
        obtain ⟨hsame', hlater⟩ := List.cons.inj hlater
        exact hsame ▸ hsame' ▸ hwhole hlater

/-- Before a text that decodes, what precedes decodes iff the whole does. -/
theorem valid_append_iff_left (h : Valid right) : Valid (left ++ right) ↔ Valid left := by
  constructor
  · intro hwhole
    obtain ⟨more, rfl⟩ := valid_iff.mp h
    obtain ⟨text, hsame⟩ := valid_iff.mp hwhole
    exact valid_of_append hsame.symm
  · intro hfirst
    exact (valid_append_iff_right hfirst).mpr h

/-! ## Surrogates that stand alone -/

/-- The characters of the units and the surrogates that stand alone (`char::decode_utf16`). -/
def items : List ℕ → List (Char ⊕ ℕ)
  | [] => []
  | [unit] => [if isSingle unit then .inl (Char.ofNat unit) else .inr unit]
  | unit :: next :: rest =>
    if isSingle unit then .inl (Char.ofNat unit) :: items (next :: rest)
    else if isHigh unit && isLow next then .inl (Char.ofNat (combine unit next)) :: items rest
    else .inr unit :: items (next :: rest)

/-- The units of an item. -/
def itemUnits : Char ⊕ ℕ → List ℕ
  | .inl c => encodeChar c
  | .inr unit => [unit]

/-- **The items keep every unit.** -/
theorem flatMap_items (units : List ℕ) : (items units).flatMap itemUnits = units := by
  induction units using items.induct with
  | case1 => rfl
  | case2 unit =>
    by_cases hsingle : isSingle unit <;> simp [items, itemUnits, hsingle, encodeChar_single]
  | case3 unit next rest hsingle ih => simp [items, itemUnits, hsingle, encodeChar_single, ih]
  | case4 unit next rest hsingle hpair ih =>
    obtain ⟨hh, hl⟩ := Bool.and_eq_true_iff.mp hpair
    simp [items, itemUnits, hsingle, hh, hl, encodeChar_pair, ih]
  | case5 unit next rest hsingle hpair ih => simp [items, itemUnits, hsingle, hpair, ih]

lemma lt_of_inr_mem_items {value : List UInt16} (h : .inr unit ∈ items (value.map UInt16.toNat)) :
    unit < 2 ^ 16 := by
  have hmem : unit ∈ (items (value.map UInt16.toNat)).flatMap itemUnits :=
    List.mem_flatMap.mpr ⟨_, h, .head _⟩
  rw [flatMap_items] at hmem
  obtain ⟨_, _, rfl⟩ := List.mem_map.mp hmem
  exact UInt16.toNat_lt _

/-! ## Hexadecimal digits -/

/-- The last digits of a number: all of them, with zeros before them, if it has no more. -/
def hexPadded : ℕ → ℕ → List Char
  | 0, _ => []
  | width + 1, n => hexPadded width (n / 16) ++ [Nat.digitChar (n % 16)]

def isHexDigit (c : Char) : Bool :=
  c.isDigit || ('a' ≤ c && c ≤ 'f') || ('A' ≤ c && c ≤ 'F')

def hexDigit (c : Char) : ℕ :=
  if c.isDigit then c.toNat - 48 else if 'a' ≤ c then c.toNat - 87 else c.toNat - 55

def hexValue (digits : List Char) : ℕ := digits.foldl (fun value c => 16 * value + hexDigit c) 0

lemma digitChar_cases {n : ℕ} (h : n < 16) :
    isHexDigit (Nat.digitChar n) ∧ hexDigit (Nat.digitChar n) = n := by
  revert n
  decide

lemma length_hexPadded (width n : ℕ) : (hexPadded width n).length = width := by
  induction width generalizing n with
  | zero => rfl
  | succ width ih => simp [hexPadded, ih]

lemma isHexDigit_of_mem {width n : ℕ} {c : Char} (h : c ∈ hexPadded width n) : isHexDigit c := by
  induction width generalizing n with
  | zero => cases h
  | succ width ih =>
    obtain h | h := List.mem_append.mp h
    · exact ih h
    · exact List.mem_singleton.mp h ▸ (digitChar_cases (Nat.mod_lt n (by decide))).1

/-- **The digits give back the number.** -/
theorem hexValue_hexPadded {width n : ℕ} (h : n < 16 ^ width) :
    hexValue (hexPadded width n) = n := by
  induction width generalizing n with
  | zero => simp_all [hexPadded, hexValue]
  | succ width ih =>
    have := ih (Nat.div_lt_of_lt_mul (by rwa [Nat.pow_succ'] at h))
    rw [hexValue] at this ⊢
    rw [hexPadded, List.foldl_append, List.foldl_cons, List.foldl_nil,
      (digitChar_cases (Nat.mod_lt n (by decide))).2]
    omega

end Utf16
