import IrisCompiler.Syntax.SyntaxKind
import IrisCompiler.Library.ByteText

/-!
# Lexed tokens

The output of `lexing::lex`: the token kinds with their end offsets and positions.  The source keeps
kinds and infos in two vectors that are always pushed together; here they are one list of pairs.
Indexing past the end is an `assert!` in the source, so the accessors return `none` there, and so do
those that slice the source text at an offset that is no character boundary.
-/

namespace Iris.Lexing

open ByteText

/-- A conversion to `u32` with `as`. -/
def asU32 (n : ℕ) : ℕ := n % 2 ^ 32

lemma asU32_of_lt {n : ℕ} (h : n < 2 ^ 32) : asU32 n = n := Nat.mod_eq_of_lt h

/-- A line and a byte column, both counted from one. -/
structure Position where
  line : ℕ
  column : ℕ
  deriving DecidableEq, Repr, Inhabited

/-- The end offsets of a token's annotation, qualifier and text, and the position where its
qualifier starts. -/
structure SyntaxKindInfo where
  annotation : ℕ
  qualifier : ℕ
  token : ℕ
  position : Position
  deriving DecidableEq, Repr, Inhabited

/-- A lexer message for the token at `index`. -/
structure LexerError where
  message : String
  index : ℕ
  deriving DecidableEq, Repr

/-- What the lexer hands to the layout algorithm and to the parser. -/
structure Lexed where
  source : List Char
  tokens : List (SyntaxKind × SyntaxKindInfo)
  errors : List LexerError
  deriving DecidableEq, Repr

namespace Lexed

variable (self : Lexed)

/-- The token kinds, in order. -/
def kinds : List SyntaxKind := self.tokens.map Prod.fst

/-- The token infos, in order. -/
def infos : List SyntaxKindInfo := self.tokens.map Prod.snd

def len : ℕ := self.tokens.length

def kind (index : ℕ) : Option SyntaxKind := self.kinds[index]?

def info (index : ℕ) : Option SyntaxKindInfo := self.infos[index]?

/-- The offset where the token before `index` ends. -/
def previousEnd (index : ℕ) : Option ℕ :=
  if 0 < index then (self.info (index - 1)).map SyntaxKindInfo.token else some 0

/-- The part of the source between two offsets, or nothing where they do not leave room. -/
def between (low high : ℕ) : Option (Option (List Char)) :=
  if low < high then (slice self.source low high).map some else some none

/-- The whitespace and comments before the token. -/
def annotation (index : ℕ) : Option (Option (List Char)) := do
  let low ← self.previousEnd index
  let info ← self.info index
  self.between low info.annotation

/-- The module name that qualifies the token. -/
def qualifier (index : ℕ) : Option (Option (List Char)) := do
  let info ← self.info index
  self.between info.annotation info.qualifier

def text (index : ℕ) : Option (List Char) := do
  let info ← self.info index
  slice self.source info.qualifier info.token

/-- The message for the token, which the source finds by binary search: there is at most one for
each token, and they are pushed in order. -/
def error (index : ℕ) : Option String :=
  (self.errors.find? (·.index == asU32 index)).map LexerError.message

end Lexed

/-- The tokens pushed so far. -/
structure LexedBuilder where
  source : List Char
  tokens : List (SyntaxKind × SyntaxKindInfo)
  errors : List LexerError

namespace LexedBuilder

def new (source : List Char) : LexedBuilder := ⟨source, [], []⟩

def push (self : LexedBuilder) (kind : SyntaxKind) (info : SyntaxKindInfo)
    (error : Option String) : LexedBuilder :=
  let tokens := self.tokens ++ [(kind, info)]
  match error with
  | some message =>
    let index := asU32 (asU32 tokens.length + 2 ^ 32 - 1)
    ⟨self.source, tokens, self.errors ++ [⟨message, index⟩]⟩
  | none => ⟨self.source, tokens, self.errors⟩

def build (self : LexedBuilder) : Lexed := ⟨self.source, self.tokens, self.errors⟩

@[simp] lemma push_source (self : LexedBuilder) (kind info error) :
    (self.push kind info error).source = self.source := by
  cases error <;> rfl

@[simp] lemma push_tokens (self : LexedBuilder) (kind info error) :
    (self.push kind info error).tokens = self.tokens ++ [(kind, info)] := by
  cases error <;> rfl

end LexedBuilder

end Iris.Lexing
