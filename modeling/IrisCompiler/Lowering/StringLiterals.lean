import IrisCompiler.Library.Utf16
import Mathlib.Data.List.TakeWhile

/-!
# String literals

`encode_normal_string` writes the UTF-16 code units of a string as a literal and
`decode_normal_string` reads a literal.  An escaped unit always takes six digits, so the escape ends
before whatever follows it.
-/

namespace Iris.Lowering

open Utf16

def isStringGapCharacter (c : Char) : Bool := c == ' ' || c == '\r' || c == '\n'

/-- One turn of the loop of `decode_normal_string`: the units and the characters that are left. -/
def decodeNext (character : Char) (characters : List Char) : Option (List ℕ × List Char) :=
  if character = '\r' ∨ character = '\n' then none
  else if character ≠ '\\' then some (encodeChar character, characters)
  else
    match characters with
    | [] => none
    | 't' :: characters => some ([9], characters)
    | 'r' :: characters => some ([13], characters)
    | 'n' :: characters => some ([10], characters)
    | '"' :: characters => some ([34], characters)
    | '\'' :: characters => some ([39], characters)
    | '\\' :: characters => some ([92], characters)
    | 'x' :: characters =>
      let hexadecimal := (characters.take 6).takeWhile isHexDigit
      let characters := characters.drop hexadecimal.length
      let value := hexValue hexadecimal
      if value ≤ 0xFFFF then some ([value], characters)
      else if value.isValidChar then some (encodeChar (Char.ofNat value), characters)
      else none
    | gap :: characters =>
      if isStringGapCharacter gap then
        match characters.dropWhile isStringGapCharacter with
        | '\\' :: characters => some ([], characters)
        | [] => some ([], [])
        | _ => none
      else none

/-- The loop of `decode_normal_string`; a turn takes a character, so there are enough turns. -/
def decodeTurns : ℕ → List Char → Option (List ℕ)
  | _, [] => some []
  | 0, _ => none
  | turns + 1, character :: characters => do
    let (units, characters) ← decodeNext character characters
    return units ++ (← decodeTurns turns characters)

def decodeNormalString (original : List Char) : Option (List UInt16) :=
  match original with
  | '"' :: text =>
    if text.getLast? = some '"' then
      (decodeTurns text.dropLast.length text.dropLast).map (List.map UInt16.ofNat)
    else none
  | _ => none

/-- `char::is_control`. -/
def isControl (c : Char) : Bool := c.toNat < 0x20 || (0x7F ≤ c.toNat && c.toNat < 0xA0)

def encodeItem : Char ⊕ ℕ → List Char
  | .inr surrogate => '\\' :: 'x' :: hexPadded 6 surrogate
  | .inl '\n' => ['\\', 'n']
  | .inl '\r' => ['\\', 'r']
  | .inl '\t' => ['\\', 't']
  | .inl '\\' => ['\\', '\\']
  | .inl '"' => ['\\', '"']
  | .inl character =>
    if isControl character then '\\' :: 'x' :: hexPadded 6 character.toNat else [character]

def encodeNormalStringContent (value : List UInt16) : List Char :=
  (items (value.map UInt16.toNat)).flatMap encodeItem

def encodeNormalString (value : List UInt16) : List Char :=
  '"' :: (encodeNormalStringContent value ++ ['"'])

/-- An escaped unit is read back, whatever follows. -/
lemma decodeNext_escaped {unit : ℕ} (hsmall : unit < 2 ^ 16) (rest : List Char) :
    decodeNext '\\' ('x' :: (hexPadded 6 unit ++ rest)) = some ([unit], rest) := by
  have hdigits : (hexPadded 6 unit).takeWhile isHexDigit = hexPadded 6 unit :=
    List.takeWhile_eq_self_iff.mpr fun c hmem => isHexDigit_of_mem hmem
  have hvalue := hexValue_hexPadded (show unit < 16 ^ 6 by omega)
  simp [decodeNext, length_hexPadded, hdigits, hvalue, show unit ≤ 0xFFFF by omega]

/-- **A turn reads what was written for one item.** -/
theorem exists_decodeNext {item : Char ⊕ ℕ} (hsmall : ∀ unit, item = .inr unit → unit < 2 ^ 16)
    (rest : List Char) : ∃ character characters, encodeItem item = character :: characters ∧
      decodeNext character (characters ++ rest) = some (itemUnits item, rest) := by
  unfold encodeItem
  split
  · exact ⟨_, _, rfl, decodeNext_escaped (hsmall _ rfl) rest⟩
  iterate 5 exact ⟨_, _, rfl, rfl⟩
  rename_i character hnewline hcarriage _ hbackslash _
  split_ifs with hcontrol
  · have hrange : character.toNat < 0xA0 := by
      simp only [isControl, Bool.or_eq_true, Bool.and_eq_true, decide_eq_true_eq] at hcontrol
      omega
    refine ⟨_, _, rfl, (decodeNext_escaped (show character.toNat < 2 ^ 16 by omega) rest).trans ?_⟩
    rw [itemUnits, encodeChar, if_pos (by omega)]
  · refine ⟨_, _, rfl, ?_⟩
    unfold decodeNext
    rw [if_neg (not_or.mpr ⟨hcarriage, hnewline⟩), if_pos hbackslash]
    rfl

lemma decodeTurns_encode {written : List (Char ⊕ ℕ)} {turns : ℕ}
    (hsmall : ∀ unit, .inr unit ∈ written → unit < 2 ^ 16)
    (henough : (written.flatMap encodeItem).length ≤ turns) :
    decodeTurns turns (written.flatMap encodeItem) = some (written.flatMap itemUnits) := by
  induction written generalizing turns with
  | nil => cases turns <;> rfl
  | cons item written ih =>
    obtain ⟨character, characters, htext, hnext⟩ := exists_decodeNext
      (fun unit hsame => hsmall unit (hsame ▸ .head _)) (written.flatMap encodeItem)
    rw [List.flatMap_cons, htext] at henough ⊢
    obtain _ | turns := turns
    · cases henough
    · simp only [List.length_append, List.length_cons] at henough
      have hlater := @ih turns (fun unit hmem => hsmall unit (.tail _ hmem)) (by omega)
      simp [decodeTurns, hnext, hlater]

/-- **Decoding undoes encoding**, so encoding is injective. -/
theorem decode_encode_normalString :
    (∀ value, decodeNormalString (encodeNormalString value) = some value) ∧
      Function.Injective encodeNormalString := by
  have hround (value : List UInt16) :
      decodeNormalString (encodeNormalString value) = some value := by
    have hcontent : decodeTurns (encodeNormalStringContent value).length
        (encodeNormalStringContent value) = some (value.map UInt16.toNat) := by
      rw [encodeNormalStringContent, decodeTurns_encode (fun _ => lt_of_inr_mem_items) le_rfl,
        flatMap_items]
    simp [decodeNormalString, encodeNormalString, hcontent, Function.comp_def]
  exact ⟨hround, fun value other hsame =>
    Option.some.inj
      ((hround value).symm.trans ((congrArg decodeNormalString hsame).trans (hround other)))⟩

end Iris.Lowering
