import IrisCompiler.Library.Utf16

/-!
# String nodes

A JavaScript string is any sequence of UTF-16 code units, but a string node holds text.
`oxc_string_value` sets a flag if a surrogate stands alone; each replacement character is then
followed by four digits for the unit it stands for.
-/

namespace Iris.JavaScript

open Utf16

def encodedItem : Char ⊕ ℕ → List Char
  | .inl '\uFFFD' => ['\uFFFD', 'f', 'f', 'f', 'd']
  | .inl character => [character]
  | .inr surrogate => '\uFFFD' :: hexPadded 4 surrogate

/-- The text and the flag; `none` is the `unreachable!` of the source. -/
def oxcStringValue (value : List UInt16) : Option (List Char × Bool) :=
  let decoded := items (value.map UInt16.toNat)
  if !decoded.any Sum.isRight then (decoded.mapM Sum.getLeft?).map (·, false)
  else some (decoded.flatMap encodedItem, true)

/-- The units of a text with escapes. -/
def escapedUnits : List Char → Option (List ℕ)
  | [] => some []
  | '\uFFFD' :: a :: b :: c :: d :: text =>
    if [a, b, c, d].all isHexDigit then
      (escapedUnits text).map (hexValue [a, b, c, d] :: ·) else none
  | character :: text =>
    if character = '\uFFFD' then none else (escapedUnits text).map (encodeChar character ++ ·)

/-- What a string node means to `oxc`. -/
def nodeUnits (text : List Char) (loneSurrogates : Bool) : Option (List UInt16) :=
  (if loneSurrogates then escapedUnits text else some (encode text)).map (List.map UInt16.ofNat)

lemma escapedUnits_escape {unit : ℕ} (hsmall : unit < 2 ^ 16) (text : List Char) :
    escapedUnits ('\uFFFD' :: (hexPadded 4 unit ++ text)) =
      (escapedUnits text).map (unit :: ·) := by
  have hvalue := hexValue_hexPadded (show unit < 16 ^ 4 by omega)
  have hex (c : Char) (hmem : c ∈ hexPadded 4 unit) := isHexDigit_of_mem hmem
  obtain ⟨a, b, c, d, hdigits⟩ : ∃ a b c d, hexPadded 4 unit = [a, b, c, d] := ⟨_, _, _, _, rfl⟩
  rw [hdigits] at hvalue hex ⊢
  rw [List.cons_append, List.cons_append, List.cons_append, List.cons_append, List.nil_append,
    escapedUnits, if_pos (List.all_eq_true.mpr hex), hvalue]

/-- **The escapes keep every item.** -/
theorem escapedUnits_encodedItem {decoded : List (Char ⊕ ℕ)}
    (hsmall : ∀ unit, .inr unit ∈ decoded → unit < 2 ^ 16) :
    escapedUnits (decoded.flatMap encodedItem) = some (decoded.flatMap itemUnits) := by
  induction decoded with
  | nil => rfl
  | cons item decoded ih =>
    have hlater := ih fun unit hmem => hsmall unit (.tail _ hmem)
    rw [List.flatMap_cons]
    cases item with
    | inr unit =>
      rw [encodedItem, List.cons_append, escapedUnits_escape (hsmall unit (.head _)), hlater]
      rfl
    | inl character =>
      by_cases hreplacement : character = '\uFFFD'
      · subst hreplacement
        refine (escapedUnits_escape (show 0xFFFD < 2 ^ 16 by decide) _).trans ?_
        rw [hlater]
        rfl
      · rw [encodedItem, List.singleton_append, escapedUnits]
        all_goals simp_all [itemUnits]

lemma exists_text {decoded : List (Char ⊕ ℕ)} (h : decoded.any Sum.isRight = false) :
    ∃ text, decoded.mapM Sum.getLeft? = some text ∧ encode text = decoded.flatMap itemUnits := by
  induction decoded with
  | nil => exact ⟨[], rfl, rfl⟩
  | cons item decoded ih =>
    cases item with
    | inr unit => simp at h
    | inl character =>
      obtain ⟨text, hfound, hsame⟩ := ih (by simpa using h)
      exact ⟨character :: text, by simp [hfound], by simp [hsame, itemUnits]⟩

/-- **A string node loses nothing.** -/
theorem nodeUnits_oxcStringValue (value : List UInt16) :
    ∃ text loneSurrogates, oxcStringValue value = some (text, loneSurrogates) ∧
      nodeUnits text loneSurrogates = some value := by
  have hunits := flatMap_items (value.map UInt16.toNat)
  simp only [oxcStringValue]
  cases hlone : (items (value.map UInt16.toNat)).any Sum.isRight with
  | false =>
    obtain ⟨text, hfound, hsame⟩ := exists_text hlone
    exact ⟨text, false, by simp [hfound], by simp [nodeUnits, hsame, hunits, Function.comp_def]⟩
  | true =>
    simp [nodeUnits, escapedUnits_encodedItem fun _ => lt_of_inr_mem_items, hunits,
      Function.comp_def]

end Iris.JavaScript
