import Mathlib.Data.List.Forall2
import IrisCompiler.Parsing.Discipline

/-!
# Well formed pieces of output

All that a run of a rule does to the parser is to append: a piece of output that is properly nested,
in which the tokens it consumed occur in order, and that has one `Error` event for every error it
recorded (`Segment`, `Advances`).  This is so although the rule edits its output while it runs: an
open marker is a placeholder, which does not count as a node, so the output is well formed at every
point, and to end a marker is to put a pair around the well formed piece after it (`Scoped`).
-/

namespace Iris.Parsing

open TotalRun List Iris.Parsing.Parser

/-! ## Pieces of output -/

/-- The events without the placeholders of markers that were not ended. -/
def withoutPlaceholders (events : List Event) : List Event := events.filter (· ≠ .Start .Node)

/-- Neither the start nor the finish of a node. -/
def Event.isLeaf : Event → Bool
  | .Start _ => false
  | .Finish => false
  | _ => true

/-- Every `Start` has its `Finish`, and between the two the same is true. -/
inductive Nested : List Event → Prop
  | nil : Nested []
  | leaf {event : Event} {rest : List Event} (hleaf : event.isLeaf = true) (hnested : Nested rest) :
      Nested (event :: rest)
  | node {kind : SyntaxKind} {inner rest : List Event} (hnestedInner : Nested inner)
      (hnested : Nested rest) : Nested (.Start kind :: inner ++ .Finish :: rest)

/-- The kind that a `Token` event gives to its token. -/
def Event.token? : Event → Option SyntaxKind
  | .Token kind => some kind
  | _ => none

/-- The tokens of a piece of output. -/
def tokensOf (events : List Event) : List SyntaxKind := events.filterMap Event.token?

lemma Nested.append {first second : List Event} (h : Nested first) (h' : Nested second) :
    Nested (first ++ second) := by
  induction h with
  | nil => exact h'
  | leaf hleaf _ ih => exact .leaf hleaf ih
  | node hinner _ _ ih => simpa using Nested.node hinner ih

@[simp] lemma withoutPlaceholders_append (first second : List Event) :
    withoutPlaceholders (first ++ second) =
      withoutPlaceholders first ++ withoutPlaceholders second := by
  simp [withoutPlaceholders]

@[simp] lemma tokensOf_start (kind : SyntaxKind) (events : List Event) :
    tokensOf (.Start kind :: events) = tokensOf events := rfl

@[simp] lemma tokensOf_append (first second : List Event) :
    tokensOf (first ++ second) = tokensOf first ++ tokensOf second := by
  simp [tokensOf]

/-- What a run of a rule from index `i` to index `j` appends to the output and to the errors. -/
structure Segment (renames : List (TokenSet × SyntaxKind)) (kinds : List SyntaxKind) (i j : ℕ)
    (events : List Event) (errors : List ParserError) : Prop where
  le : i ≤ j
  within : i < j → j ≤ kinds.length
  nested : Nested (withoutPlaceholders events)
  tokens : List.Forall₂ (Renamed renames) ((kinds.drop i).take (j - i)) (tokensOf events)
  /-- The end of the file is not consumed. -/
  before : .END_OF_FILE ∉ (kinds.drop i).take (j - i)
  nodes : ∀ kind, .Start kind ∈ events → kind = .Node ∨ kind.isRuleNode = true
  counted : events.count .Error = errors.length

namespace Segment

variable {renames : List (TokenSet × SyntaxKind)} {kinds : List SyntaxKind} {i j k : ℕ}
  {events events' : List Event} {errors errors' : List ParserError}

/-- The tokens of two pieces that meet. -/
lemma take_drop_split (hle : i ≤ j) (hle' : j ≤ k) : (kinds.drop i).take (k - i) =
    (kinds.drop i).take (j - i) ++ (kinds.drop j).take (k - j) := by
  have hsplit : k - i = (j - i) + (k - j) := by omega
  have hthere : i + (j - i) = j := by omega
  rw [hsplit, take_add, drop_drop, hthere]

lemma refl (i : ℕ) : Segment renames kinds i i [] [] where
  le := Nat.le_refl i
  within h := absurd h (Nat.lt_irrefl i)
  nested := .nil
  tokens := by simp [tokensOf]
  before := by simp
  nodes := by simp
  counted := rfl

lemma trans (h : Segment renames kinds i j events errors)
    (h' : Segment renames kinds j k events' errors') :
    Segment renames kinds i k (events ++ events') (errors ++ errors') where
  le := Nat.le_trans h.le h'.le
  within hlt := by
    have hfirst := h.within
    have hsecond := h'.within
    omega
  nested := by
    rw [withoutPlaceholders_append]
    exact h.nested.append h'.nested
  tokens := by
    rw [take_drop_split h.le h'.le, tokensOf_append]
    exact rel_append h.tokens h'.tokens
  before := by
    rw [take_drop_split h.le h'.le, mem_append]
    exact not_or.mpr ⟨h.before, h'.before⟩
  nodes kind hmem := by
    obtain hmem | hmem := mem_append.mp hmem
    · exact h.nodes kind hmem
    · exact h'.nodes kind hmem
  counted := by rw [count_append, h.counted, h'.counted, length_append]

/-- One event that is neither a token nor an error nor part of a node. -/
lemma event {event : Event} (hleaf : event.isLeaf = true) (htoken : event.token? = none)
    (herror : event ≠ .Error) : Segment renames kinds i i [event] [] where
  le := Nat.le_refl i
  within h := absurd h (Nat.lt_irrefl i)
  nested := by
    have : event ≠ .Start .Node := by
      rintro rfl
      exact absurd hleaf Bool.false_ne_true
    simpa [withoutPlaceholders, this] using Nested.leaf hleaf .nil
  tokens := by simp [tokensOf, htoken]
  before := by simp
  nodes kind hmem := by
    obtain rfl := mem_singleton.mp hmem
    exact absurd hleaf Bool.false_ne_true
  counted := by simpa [count_cons] using herror

lemma placeholder (i : ℕ) : Segment renames kinds i i [.Start .Node] [] where
  le := Nat.le_refl i
  within h := absurd h (Nat.lt_irrefl i)
  nested := .nil
  tokens := by
    rw [Nat.sub_self]
    exact .nil
  before := by simp
  nodes := by simp
  counted := rfl

lemma error (i : ℕ) (e : ParserError) : Segment renames kinds i i [.Error] [e] where
  le := Nat.le_refl i
  within h := absurd h (Nat.lt_irrefl i)
  nested := .leaf rfl .nil
  tokens := by
    rw [Nat.sub_self]
    exact .nil
  before := by simp
  nodes := by simp
  counted := rfl

variable {kind : SyntaxKind}

lemma take_drop_one (here : kinds[i]? = some kind) : (kinds.drop i).take (i + 1 - i) = [kind] := by
  obtain ⟨hbound, hget⟩ := List.getElem?_eq_some_iff.mp here
  rw [drop_eq_getElem_cons hbound, hget, Nat.add_sub_cancel_left, take_succ_cons,
    take_zero]

lemma token {as : SyntaxKind} (here : kinds[i]? = some kind) (hproper : kind ≠ .END_OF_FILE)
    (hrenamed : Renamed renames kind as) : Segment renames kinds i (i + 1) [.Token as] [] where
  le := Nat.le_succ i
  within _ := (List.getElem?_eq_some_iff.mp here).1
  nested := .leaf rfl .nil
  tokens := by
    rw [take_drop_one here]
    exact .cons hrenamed .nil
  before := by
    rw [take_drop_one here, mem_singleton]
    exact hproper.symm
  nodes := by simp
  counted := rfl

/-- A node around a piece of output. -/
lemma node (h : Segment renames kinds i j events errors) (hproper : kind.isRuleNode = true) :
    Segment renames kinds i j (.Start kind :: events ++ [.Finish]) errors where
  le := h.le
  within := h.within
  nested := by
    have : withoutPlaceholders (.Start kind :: events ++ [.Finish]) =
        .Start kind :: withoutPlaceholders events ++ [.Finish] := by
      have : kind ≠ .Node := by
        rintro rfl
        exact absurd hproper (by decide)
      simp [withoutPlaceholders, this]
    rw [this]
    exact .node h.nested .nil
  tokens := by
    have hfinish : tokensOf [.Finish] = [] := rfl
    rw [cons_append, tokensOf_start, tokensOf_append, hfinish, append_nil]
    exact h.tokens
  before := h.before
  nodes as hmem := by
    simp only [mem_cons, Event.Start.injEq, mem_append, reduceCtorEq, not_mem_nil,
      or_false] at hmem
    obtain rfl | hmem := hmem
    · exact .inr hproper
    · exact h.nodes as hmem
  counted := by simpa using h.counted

end Segment

/-! ## Appending to a parser -/

namespace Parser

variable {ρ : Type} {renames : List (TokenSet × SyntaxKind)} {s t u : Parser ρ}

/-- `t` is `s` with one more well formed piece. -/
def Advances (renames : List (TokenSet × SyntaxKind)) (s t : Parser ρ) : Prop :=
  ∃ index events errors, t = s.extend index events errors ∧
    Segment renames s.tokens s.index index events errors

namespace Advances

lemma of_segment {index : ℕ} {events : List Event} {errors : List ParserError}
    (h : Segment renames s.tokens s.index index events errors) :
    Advances renames s (s.extend index events errors) :=
  ⟨index, events, errors, rfl, h⟩

lemma refl (s : Parser ρ) : Advances renames s s :=
  ⟨s.index, [], [], by simp [extend], .refl s.index⟩

lemma trans (h : Advances renames s t) (h' : Advances renames t u) : Advances renames s u := by
  obtain ⟨i, events, errors, rfl, hsegment⟩ := h
  obtain ⟨j, events', errors', rfl, hsegment'⟩ := h'
  exact ⟨j, events ++ events', errors ++ errors', by simp [extend], hsegment.trans hsegment'⟩

lemma tokens_eq (h : Advances renames s t) : t.tokens = s.tokens := by
  obtain ⟨_, _, _, rfl, _⟩ := h
  rfl

lemma fuel_eq (h : Advances renames s t) : t.fuel = s.fuel := by
  obtain ⟨_, _, _, rfl, _⟩ := h
  rfl

lemma index_le (h : Advances renames s t) : s.index ≤ t.index := by
  obtain ⟨_, _, _, rfl, hsegment⟩ := h
  exact hsegment.le

lemma index_within (h : Advances renames s t) (hlt : s.index < t.index) :
    t.index ≤ s.tokens.length := by
  obtain ⟨_, _, _, rfl, hsegment⟩ := h
  exact hsegment.within hlt

lemma start (s : Parser ρ) : Advances renames s (s.emit (.Start .Node)) :=
  ⟨s.index, [.Start .Node], [], by simp [extend, emit], .placeholder s.index⟩

lemma emit {event : Event} (hleaf : event.isLeaf = true) (htoken : event.token? = none)
    (herror : event ≠ .Error) : Advances renames s (s.emit event) :=
  ⟨s.index, [event], [], by simp [extend, Parser.emit], .event hleaf htoken herror⟩

lemma failed (s : Parser ρ) (e : ParserError) : Advances renames s (s.failed e) :=
  ⟨s.index, [.Error], [e], by simp [extend, Parser.failed], .error s.index e⟩

lemma advanced {kind as : SyntaxKind} (hfree : s.fuel = none)
    (here : s.tokens[s.index]? = some kind)
    (hproper : kind ≠ .END_OF_FILE) (hrenamed : Renamed renames kind as) :
      Advances renames s (s.advanced as) :=
  ⟨s.index + 1, [.Token as], [], by simp [extend, Parser.advanced, s.refuel_eq_self hfree],
    .token here hproper hrenamed⟩

/-- Going back to a checkpoint undoes what was done since. -/
lemma rewind_eq (h : Advances renames s t) : t.rewind s.checkpoint = s := by
  obtain ⟨_, _, _, rfl, _⟩ := h
  exact s.rewind_extend _ _ _

/-- Replaying what was taken back restores it. -/
lemma replay_eq (h : Advances renames s t) (hfree : s.fuel = none) :
    s.replay (t.failedSince s.checkpoint) = t := by
  obtain ⟨index, events, errors, rfl, _⟩ := h
  rw [s.failedSince_extend, s.replay_eq_extend _ _ _ hfree]

end Advances

/-- A token other than the end of the file is there. -/
lemma getElem?_of_kindAt (s : Parser ρ) (h : s.kindAt 0 ≠ .END_OF_FILE) :
    s.tokens[s.index]? = some (s.kindAt 0) := by
  unfold kindAt at h ⊢
  cases here : s.tokens[s.index]? with
  | none => simp [here] at h
  | some kind => rfl

end Parser

/-! ## Markers in scope -/

section Scoped

variable {ρ : Type} (renames : List (TokenSet × SyntaxKind)) (origin : Parser ρ)

/-- The scope holds the markers of nested pieces of output: each marker was made at a parser that
the rule had reached before, and since then only a well formed piece was appended. -/
inductive Scoped : List (Variable × Bool) → Scope → Parser ρ → Prop
  | nil {s : Parser ρ} (hadvances : Parser.Advances renames origin s) : Scoped [] [] s
  | held {v : Variable} {unset : Bool} {markers : List (Variable × Bool)} {scope : Scope}
      {s t : Parser ρ} (houter : Scoped markers scope s)
      (hadvances : Parser.Advances renames (s.emit (.Start .Node)) t) :
      Scoped ((v, unset) :: markers) ((v, some s.marker) :: scope) t
  | none {v : Variable} {markers : List (Variable × Bool)} {scope : Scope} {s : Parser ρ}
      (houter : Scoped markers scope s) : Scoped ((v, true) :: markers) ((v, none) :: scope) s

namespace Scoped

variable {renames origin} {markers : List (Variable × Bool)} {scope : Scope} {s t : Parser ρ}
  {v : Variable} {unset : Bool}

lemma advance (h : Scoped renames origin markers scope s) (hadvances : Advances renames s t) :
    Scoped renames origin markers scope t := by
  induction h with
  | nil hbefore => exact .nil (hbefore.trans hadvances)
  | held houter hbefore _ => exact .held houter (hbefore.trans hadvances)
  | none _ ih => exact .none (ih hadvances)

lemma advances (h : Scoped renames origin markers scope s) : Advances renames origin s := by
  induction h with
  | nil advances => exact advances
  | held _ advances ih => exact (ih.trans (.start _)).trans advances
  | none _ ih => exact ih

lemma scope_eq_nil (h : Scoped renames origin [] scope s) : scope = [] := by
  cases h
  rfl

/-- The innermost variable holds a marker, or it was declared without one and holds none. -/
lemma uncons (h : Scoped renames origin ((v, unset) :: markers) scope t) :
    (∃ rest s, scope = (v, some s.marker) :: rest ∧ Scoped renames origin markers rest s ∧
        Advances renames (s.emit (.Start .Node)) t) ∨
      unset = true ∧ ∃ rest, scope = (v, Option.none) :: rest ∧
        Scoped renames origin markers rest t := by
  cases h with
  | held houter hadvances => exact .inl ⟨_, _, rfl, houter, hadvances⟩
  | none houter => exact .inr ⟨rfl, _, rfl, houter⟩

end Scoped

variable {renames} {s t : Parser ρ}

/-- Ending a marker puts a node around what came after it. -/
lemma run_finish_extend (kind : SyntaxKind) (index : ℕ) (events : List Event)
    (errors : List ParserError) :
    (s.marker.finish kind).run ((s.emit (.Start .Node)).extend index events errors) =
      .ok ((), s.extend index (.Start kind :: events ++ [Event.Finish]) errors) := by
  simp only [NodeMarker.finish, marker, extend, emit]
  simp
  rfl

lemma finish_ends {kind : SyntaxKind} (hproper : kind.isRuleNode = true)
    (hadvances : Advances renames (s.emit (.Start .Node)) t) :
    Ends (s.marker.finish kind) t fun _ u => Advances renames s u ∧ u.index = t.index := by
  obtain ⟨index, events, errors, rfl, hsegment⟩ := hadvances
  exact ⟨(), s.extend index (.Start kind :: events ++ [Event.Finish]) errors,
    run_finish_extend kind index events errors, .of_segment (hsegment.node hproper), rfl⟩

/-- Cancelling a marker leaves its placeholder or removes it. -/
lemma cancel_ends (hadvances : Advances renames (s.emit (.Start .Node)) t) :
    Ends s.marker.cancel t fun _ u => Advances renames s u ∧ u.index = t.index := by
  obtain ⟨index, events, errors, rfl, hsegment⟩ := hadvances
  simp only [NodeMarker.cancel, ends_bind, ends_get]
  cases events with
  | nil =>
    refine ⟨(), s.extend index [] errors, ?_, .of_segment hsegment, rfl⟩
    simp [marker, extend, emit]
    rfl
  | cons event events =>
    have hshorter : s.marker.index + 1 ≠
        ((s.emit (.Start .Node)).extend index (event :: events) errors).output.length := by
      simp [marker, extend, emit]
    rw [if_neg hshorter]
    have hwhole := (@Segment.placeholder renames s.tokens s.index).trans hsegment
    simpa [extend, emit] using Parser.Advances.of_segment hwhole

end Scoped

end Iris.Parsing
