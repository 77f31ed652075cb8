import Mathlib.Data.List.Basic

/-!
# Character categories

The predicates that cut source text into tokens (`lexing/src/categories.rs`, and
`char::is_whitespace` of the standard library).  Each one decides ASCII characters by itself and
asks a Unicode table about the others.  The tables belong to the standard library and to a category
crate: here they are parameters, with the one fact about them that the lexer relies on, that a
letter is alphanumeric.
-/

namespace Iris.Lexing

/-- The Unicode tables consulted for characters outside ASCII. -/
structure UnicodeTables where
  whiteSpace : Char → Bool
  letterLowercase : Char → Bool
  letterUppercase : Char → Bool
  alphanumeric : Char → Bool
  symbol : Char → Bool
  lowercase_alphanumeric : ∀ c, letterLowercase c → alphanumeric c
  uppercase_alphanumeric : ∀ c, letterUppercase c → alphanumeric c

def isAscii (c : Char) : Bool := decide (c.toNat ≤ 0x7f)

def isAsciiHexdigit (c : Char) : Bool := c.isDigit || ('a' ≤ c && c ≤ 'f') || ('A' ≤ c && c ≤ 'F')

namespace UnicodeTables

variable (unicode : UnicodeTables) (c : Char)

def isWhitespace : Bool :=
  c == ' ' || ('\x09' ≤ c && c ≤ '\x0d') || (!isAscii c && unicode.whiteSpace c)

def isLowerStart : Bool := if isAscii c then c.isLower || c == '_' else unicode.letterLowercase c

def isUpperStart : Bool := if isAscii c then c.isUpper else unicode.letterUppercase c

def isName : Bool :=
  if isAscii c then c.isAlphanum || c == '_' || c == '\'' else unicode.alphanumeric c

/-- The only valid ASCII operators. -/
def asciiOperators : List Char :=
  ['~', '!', '#', '$', '%', '&', '*', '+', '.', '/', '<', '=', '>', '?', '@', '\\', '^', '|', '-',
    ':']

def isOperator : Bool := if c ∈ asciiOperators then true else unicode.symbol c && !isAscii c

variable {unicode c}

/-- A name can go on with every character that it can start with. -/
lemma isName_of_isLowerStart (h : unicode.isLowerStart c) : unicode.isName c := by
  unfold isLowerStart at h
  unfold isName
  split at h <;> rename_i hascii
  · unfold Char.isAlphanum Char.isAlpha
    simp only [hascii, if_true, Bool.or_eq_true] at h ⊢
    tauto
  · simpa [hascii] using unicode.lowercase_alphanumeric c h

lemma isWhitespace_eof : unicode.isWhitespace '\x00' = false := by simp [isWhitespace, isAscii]

lemma isUpperStart_eof : unicode.isUpperStart '\x00' = false := by simp [isUpperStart, isAscii]

lemma isOperator_eof : unicode.isOperator '\x00' = false := by
  simp [isOperator, asciiOperators, isAscii]

end UnicodeTables

/-- Tables for text with the operators and arrows of the language and otherwise ASCII only. -/
def asciiTables : UnicodeTables where
  whiteSpace _ := false
  letterLowercase _ := false
  letterUppercase _ := false
  alphanumeric _ := false
  symbol c := c ∈ ['∷', '←', '→', '⇐', '⇒', '∀']
  lowercase_alphanumeric _ h := by simp at h
  uppercase_alphanumeric _ h := by simp at h

end Iris.Lexing
