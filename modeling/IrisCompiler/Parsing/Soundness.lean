import IrisCompiler.Parsing.Segments

/-!
# What the check guarantees

A rule that passes the check, run with the plain choice between alternatives, comes to an end
without a panic and appends one well formed piece of output.  The proof follows the check: a view
describes the parser at every point of the code (`View.Describes`), for a command, for a whole
program, and by induction on the depth for rules that call each other.

The depth that suffices for a rule is a number of calls for every token that is left, plus the
rule's rank (`runPlain_ends`).
-/

namespace Iris.Parsing

open TotalRun Listed Iris.Parsing.Parser Program View

/-! ## Views -/

section Views

variable {ρ : Type} (renames : List (TokenSet × SyntaxKind)) (table : ρ → Option Summary) (rank : ℕ)
  (origin : Parser ρ)

/-- The view is right about the parser `s` and its scope, in a rule that began at `origin` and a
round of a loop that began at index `lapStart`. -/
structure View.Describes (lapStart : ℕ) (view : View) (scope : Scope) (s : Parser ρ) : Prop where
  kind : view.kinds.has (s.kindAt 0) = true
  moved : view.moved = true → origin.index < s.index
  lapLe : lapStart ≤ s.index
  lap : view.lap = true → lapStart < s.index
  opened : Scoped renames origin view.markers scope s

/-- The rule may be called at `s` from a rule of rank `rank` that began at `origin`. -/
def Callable (rule : ρ) (s : Parser ρ) : Prop :=
  ∃ summary, table rule = some summary ∧
    (∀ set, summary.needs = some set → s.kindAt 0 ∈ set) ∧
    (origin.index < s.index ∨ summary.rank < rank)

/-- What a call does: it appends, and it consumes if the rule advances on the next token. -/
def Serves (call : ρ → ParserM ρ Unit) (rule : ρ) (s : Parser ρ) : Prop :=
  Ends (call rule) s fun _ t => Parser.Advances renames s t ∧
    (s.kindAt 0 ∈ advancing table rule → s.index < t.index)

variable {renames table rank origin}

namespace View.Describes

variable {lapStart : ℕ} {view : View} {scope : Scope} {s t : Parser ρ}

variable {kinds : Listed SyntaxKind}

/-- The view at the start of a rule. -/
lemma enter (hkind : kinds.has (s.kindAt 0) = true) :
    (enter kinds).Describes renames s s.index [] s where
  kind := hkind
  moved hmoved := absurd hmoved Bool.false_ne_true
  lapLe := Nat.le_refl s.index
  lap hlap := absurd hlap Bool.false_ne_true
  opened := .nil (.refl s)

variable (h : view.Describes renames origin lapStart scope s)

include h

lemma index_le : origin.index ≤ s.index :=
  h.opened.advances.index_le

/-- The next token and the index are the same, and the markers are as given. -/
lemma stay {markers : List (Variable × Bool)}
    {after : Scope} (htokens : t.tokens = s.tokens) (hindex : t.index = s.index)
    (hopened : Scoped renames origin markers after t) :
    Describes renames origin lapStart { view with markers } after t where
  kind := by
    have : t.kindAt 0 = s.kindAt 0 := by simp only [kindAt, htokens, hindex]
    rw [this]
    exact h.kind
  moved hmoved := hindex ▸ h.moved hmoved
  lapLe := hindex ▸ h.lapLe
  lap hlap := hindex ▸ h.lap hlap
  opened := hopened

/-- Something was appended and nothing consumed. -/
lemma append (hadvances : Advances renames s t) (hindex : t.index = s.index) :
    view.Describes renames origin lapStart scope t :=
  h.stay hadvances.tokens_eq hindex (h.opened.advance hadvances)

/-- A token was consumed. -/
lemma step (hadvances : Advances renames s t) (hlt : s.index < t.index) :
    view.stepped.Describes renames origin lapStart scope t where
  kind := has_all
  moved _ := Nat.lt_of_le_of_lt h.index_le hlt
  lapLe := Nat.le_of_lt (Nat.lt_of_le_of_lt h.lapLe hlt)
  lap _ := Nat.lt_of_le_of_lt h.lapLe hlt
  opened := h.opened.advance hadvances

/-- The kind of the next token can be narrowed down by what is known of it. -/
lemma narrow (hkind : kinds.has (s.kindAt 0) = true) :
    Describes renames origin lapStart { view with kinds } scope s :=
  { h with kind := hkind }

lemma callable {rule : ρ}
    (hallowed : view.allows table rank rule = true) : Callable table rank origin rule s := by
  unfold allows at hallowed
  cases hfound : table rule with
  | none => simp [hfound] at hallowed
  | some summary =>
    simp only [hfound, admits, Bool.and_eq_true, Bool.or_eq_true, decide_eq_true_eq] at hallowed
    refine ⟨summary, hfound, fun set hneeds => ?_, hallowed.2.imp_left h.moved⟩
    have hwithin : view.kinds.within set = true := by simpa [hneeds] using hallowed.1
    exact mem_of_within hwithin h.kind

/-- A new round of a loop begins. -/
lemma newLap : Describes renames origin s.index { view with lap := false } scope s :=
  { h with
    lapLe := Nat.le_refl s.index
    lap := fun hlap => absurd hlap Bool.false_ne_true }

/-- A round of a loop is left for the code around the loop. -/
lemma leave {start : ℕ} {lap : Bool}
    (hbefore : start ≤ lapStart) (hprogress : lap = true → start < s.index) :
    Describes renames origin start { view with lap } scope s :=
  { h with
    lapLe := Nat.le_trans hbefore h.lapLe
    lap := hprogress }

/-- A round of a loop has consumed and goes on. -/
lemma again {start : ℕ} {outer : View}
    (hbefore : start ≤ lapStart) (hlap : view.lap = true) (hmarkers : view.markers = outer.markers)
    (hreached : origin.index ≤ lapStart) :
    outer.stepped.Describes renames origin start scope s where
  kind := has_all
  moved _ := Nat.lt_of_le_of_lt hreached (h.lap hlap)
  lapLe := Nat.le_trans hbefore h.lapLe
  lap _ := Nat.lt_of_le_of_lt hbefore (h.lap hlap)
  opened := by
    have hopened := h.opened
    rw [hmarkers] at hopened
    exact hopened

/-- The view at the start of a function that is called here. -/
lemma inner :
    Describes renames s s.index { view with moved := false, lap := false, markers := [] } [] s
    where
  kind := h.kind
  moved hmoved := absurd hmoved Bool.false_ne_true
  lapLe := Nat.le_refl s.index
  lap hlap := absurd hlap Bool.false_ne_true
  opened := .nil (.refl s)

omit h in
/-- The view after a function that was called at `s`. -/
lemma outer {after : View} {inner : Scope} (hdescribed : after.Describes renames s s.index inner t)
    (h : view.Describes renames origin lapStart scope s) (hadvances : Advances renames s t) :
    Describes renames origin lapStart
      { after with
        moved := view.moved || after.moved
        lap := view.lap || after.lap
        markers := view.markers } scope t where
  kind := hdescribed.kind
  moved hmoved := by
    have := h.index_le
    have := hadvances.index_le
    obtain hbefore | hsince := Bool.or_eq_true_iff.mp hmoved
    · have := h.moved hbefore
      omega
    · have := hdescribed.moved hsince
      omega
  lapLe := Nat.le_trans h.lapLe hadvances.index_le
  lap hlap := by
    have := h.lapLe
    have := hadvances.index_le
    obtain hbefore | hsince := Bool.or_eq_true_iff.mp hlap
    · have := h.lap hbefore
      omega
    · have := hdescribed.lap hsince
      omega
  opened := h.opened.advance hadvances

end View.Describes

/-! ## Commands -/

variable {rules : Rules ρ} {lapStart : ℕ} {view : View} {scope : Scope} {s : Parser ρ}
  {next : View → Bool}

/-- The parser is described by some view that the check went on with. -/
def Follows (renames : List (TokenSet × SyntaxKind)) (origin : Parser ρ) (lapStart : ℕ)
    (next : View → Bool) (scope : Scope) (s : Parser ρ) : Prop :=
  ∃ view, next view = true ∧ view.Describes renames origin lapStart scope s

@[simp] lemma Scope.take_head (v : Variable) (held : Option NodeMarker) (scope : Scope) :
    Scope.take v ((v, held) :: scope) = some (held, scope) := by
  simp [Scope.take]

variable {v : Variable} {unset : Bool} {t : Parser ρ}

/-- The innermost variable is the one that the check expects. -/
lemma release_eq (h : view.release v unset next = true) :
    ∃ markers, view.markers = (v, unset) :: markers ∧ next { view with markers } = true := by
  unfold release at h
  split at h
  · exact absurd h Bool.false_ne_true
  · next entry markers hfound =>
    simp only [Bool.and_eq_true, beq_iff_eq] at h
    exact ⟨markers, h.1 ▸ hfound, h.2⟩

section Described

variable (h : view.Describes renames origin lapStart scope s)

include h

/-- The innermost variable and what it holds. -/
lemma release_cases (hchecked : view.release v unset next = true) :
    ∃ markers, view.markers = (v, unset) :: markers ∧ next { view with markers } = true ∧
      ((∃ rest before, scope = (v, some before.marker) :: rest ∧
          Scoped renames origin markers rest before ∧
          Advances renames (before.emit (.Start .Node)) s) ∨
        unset = true ∧ ∃ rest, scope = (v, none) :: rest ∧
          Scoped renames origin markers rest s) := by
  obtain ⟨markers, hfound, hcontinues⟩ := release_eq hchecked
  have hopened := h.opened
  rw [hfound] at hopened
  exact ⟨markers, hfound, hcontinues, hopened.uncons⟩

/-- The marker of the innermost variable is used up, in such a way that the output stays well
formed. -/
lemma used_ends {use : ParserM ρ Unit} {before : Parser ρ} {markers : List (Variable × Bool)}
    {rest : Scope} (hcontinues : next { view with markers } = true)
    (houter : Scoped renames origin markers rest before)
    (hadvances : Advances renames (before.emit (.Start .Node)) s)
    (hused : Ends use s fun _ t => Advances renames before t ∧ t.index = s.index) :
    Ends use s fun _ t => Follows renames origin lapStart next rest t := by
  refine hused.mono fun _ t ⟨hadvanced, hindex⟩ => ⟨_, hcontinues, ?_⟩
  have htokens : t.tokens = s.tokens := hadvanced.tokens_eq.trans hadvances.tokens_eq.symm
  exact h.stay htokens hindex (houter.advance hadvanced)

lemma useMarker_ends {use : NodeMarker → ParserM ρ Unit}
    (hused : ∀ before : Parser ρ, Advances renames (before.emit (.Start .Node)) s →
      Ends (use before.marker) s fun _ t => Advances renames before t ∧ t.index = s.index)
    (hchecked : view.release v false next = true) :
    Ends (scope.useMarker v use) s fun after t => Follows renames origin lapStart next after t := by
  obtain ⟨markers, _, hcontinues, held⟩ := release_cases h hchecked
  obtain ⟨rest, before, rfl, houter, hadvances⟩ | ⟨⟨⟩, _⟩ := held
  simp only [Scope.useMarker, Scope.take_head, ends_bind, ends_pure]
  exact used_ends h hcontinues houter hadvances (hused before hadvances)

/-- The effect on the view of a command that may consume. -/
lemma maybe_follows (hadvances : Advances renames s t) (hstepped : next view.stepped = true)
    (hstayed : s.index < t.index ∨
      ∃ kinds :
      Listed SyntaxKind, kinds.has (s.kindAt 0) = true ∧ next { view with kinds } = true) :
    Follows renames origin lapStart next scope t := by
  by_cases hlt : s.index < t.index
  · exact ⟨_, hstepped, h.step hadvances hlt⟩
  · obtain ⟨kinds, hkind, hcontinues⟩ := hstayed.resolve_left hlt
    have hsame : t.index = s.index := by
      have := hadvances.index_le
      omega
    exact ⟨_, hcontinues, (h.narrow hkind).append hadvances hsame⟩

end Described

/-- An optional rule is kept or taken back. -/
lemma optional_ends {rule : ParserM ρ Unit}
    (hends : Ends rule s fun _ t => Advances renames s t) :
    Ends (optional rule) s fun _ t => Advances renames s t := by
  simp only [Parser.optional, ends_bind, ends_get]
  refine hends.mono fun _ t hadvances => ?_
  by_cases hsucceeded : t.succeededSince s.checkpoint = true
  · simpa [hsucceeded] using hadvances
  · simpa [hsucceeded, hadvances.rewind_eq] using Parser.Advances.refl s

/-- What the other rules must do for the code of a rule that began at `origin`. -/
structure Rules.Sound (renames : List (TokenSet × SyntaxKind)) (table : ρ → Option Summary)
    (rank : ℕ) (origin : Parser ρ) (rules : Rules ρ) : Prop where
  call : ∀ rule s, Parser.Advances renames origin s → Callable table rank origin rule s →
    Serves renames table rules.call rule s
  prefer : ∀ leading rule other s, Parser.Advances renames origin s →
    Callable table rank origin leading s → Callable table rank origin rule s →
    Callable table rank origin other s →
    Ends (rules.prefer leading rule other) s fun _ t => Parser.Advances renames s t ∧
      (s.kindAt 0 ∈ advancing table rule → s.kindAt 0 ∈ advancing table other →
        s.index < t.index)

/-- Rules that are sound for a rule that began at `origin` are so for one that begins later. -/
lemma Rules.Sound.later (hsound : rules.Sound renames table rank origin)
    (hreached : Advances renames origin s) : rules.Sound renames table rank s := by
  have hearlier : ∀ {rule t}, Callable table rank s rule t → Callable table rank origin rule t := by
    rintro rule t ⟨summary, hfound, hneeds, hsmaller⟩
    exact ⟨summary, hfound, hneeds,
      hsmaller.imp_left fun hlt => Nat.lt_of_le_of_lt hreached.index_le hlt⟩
  exact {
    call := fun rule t hadvances hcallable =>
      hsound.call rule t (hreached.trans hadvances) (hearlier hcallable)
    prefer := fun leading rule other t hadvances hfirst hsecond hthird =>
      hsound.prefer leading rule other t (hreached.trans hadvances) (hearlier hfirst)
        (hearlier hsecond)
        (hearlier hthird) }

/-- **A command that passes the check follows it.** -/
theorem Command.check_sound (hfree : origin.fuel = none)
    (hsound : rules.Sound renames table rank origin) {command : Command ρ}
    (h : view.Describes renames origin lapStart scope s)
    (hchecked : command.check renames table rank view next = true) :
    Ends (command.exec rules scope) s fun after t =>
      Follows renames origin lapStart next after t := by
  have hreached := h.opened.advances
  have hfreeHere : s.fuel = none := hreached.fuel_eq.trans hfree
  have hproper : view.kinds.has .END_OF_FILE = false → s.kindAt 0 ≠ .END_OF_FILE := by
    intro hexcluded heof
    rw [← heof, h.kind] at hexcluded
    exact absurd hexcluded Bool.noConfusion
  have hstepped {kind : SyntaxKind} (hthere : view.kinds.has .END_OF_FILE = false)
      (hrenamed : Renamed renames (s.kindAt 0) kind) :
      view.stepped.Describes renames origin lapStart scope (s.advanced kind) :=
    h.step (.advanced hfreeHere (s.getElem?_of_kindAt (hproper hthere)) (hproper hthere) hrenamed)
      (Nat.lt_succ_self _)
  cases command with
  | consume =>
    simp only [Command.check, Bool.and_eq_true, Bool.not_eq_true'] at hchecked
    have here := s.getElem?_of_kindAt (hproper hchecked.1)
    simp only [Command.exec, Parser.consume, ends_bind, ends_get, here, ends_set, ends_pure]
    exact ⟨_, hchecked.2, hstepped hchecked.1 .same⟩
  | advance set kind =>
    simp only [Command.check, Bool.and_eq_true, Bool.not_eq_true', decide_eq_true_eq] at hchecked
    obtain ⟨⟨⟨hthere, hwithin⟩, hlisted⟩, hcontinues⟩ := hchecked
    have hrenamed : Renamed renames (s.kindAt 0) kind :=
      .renamed hlisted (Listed.mem_of_within hwithin h.kind)
    simp only [Command.exec, Parser.advance, ends_bind, ends_modify, ends_pure]
    exact ⟨_, hcontinues, hstepped hthere hrenamed⟩
  | annotate | qualify =>
    simp only [Command.exec, Parser.annotate, Parser.qualify, ends_bind, ends_modify, ends_pure]
    exact ⟨_, hchecked, h.append (.emit rfl rfl Event.noConfusion) rfl⟩
  | error reason =>
    simp only [Command.exec, Parser.error, ends_bind, ends_modify, ends_pure]
    exact ⟨_, hchecked, h.append (.failed s reason) rfl⟩
  | start v =>
    simp only [Command.exec, Parser.start, ends_bind, ends_get, ends_set, ends_pure]
    exact ⟨_, hchecked, h.stay rfl rfl (.held h.opened (.refl _))⟩
  | unset v =>
    simp only [Command.exec, ends_pure]
    exact ⟨_, hchecked, h.stay rfl rfl (.none h.opened)⟩
  | startOnce v message =>
    simp only [Command.check] at hchecked
    obtain ⟨markers, hfound, hcontinues, held⟩ := release_cases h hchecked
    obtain ⟨rest, before, rfl, _, _⟩ | ⟨_, rest, rfl, houter⟩ := held
    · simp only [Command.exec, Scope.take_head, ends_pure]
      exact ⟨_, hcontinues, h⟩
    · simp only [Command.exec, Scope.take_head, Parser.start, Parser.error, ends_bind, ends_get,
        ends_set, ends_pure, ends_modify]
      have hopened : Scoped renames origin view.markers ((v, some s.marker) :: rest)
          ((s.emit (.Start .Node)).failed (.Message message)) := by
        rw [hfound]
        exact .held houter (.failed _ _)
      exact ⟨_, hcontinues, h.stay rfl rfl hopened⟩
  | finish v kind =>
    simp only [Command.check, Bool.and_eq_true] at hchecked
    exact useMarker_ends h (fun _ => finish_ends hchecked.1) hchecked.2
  | finishNonEmpty v kind =>
    simp only [Command.check, Bool.and_eq_true] at hchecked
    refine useMarker_ends h (fun before hadvances => ?_) hchecked.2
    simp only [NodeMarker.finishNonEmpty, ends_bind, ends_get, ends_ite]
    exact ⟨fun _ => finish_ends hchecked.1 hadvances, fun _ => cancel_ends hadvances⟩
  | finishSome v kind =>
    simp only [Command.check, Bool.and_eq_true] at hchecked
    obtain ⟨markers, hfound, hcontinues, held⟩ := release_cases h hchecked.2
    obtain ⟨rest, before, rfl, houter, hadvances⟩ | ⟨_, rest, rfl, houter⟩ := held
    · simp only [Command.exec, Scope.take_head, ends_bind, ends_pure]
      exact used_ends h hcontinues houter hadvances (finish_ends hchecked.1 hadvances)
    · simp only [Command.exec, Scope.take_head, ends_pure]
      exact ⟨_, hcontinues, h.stay rfl rfl houter⟩
  | cancel v => exact useMarker_ends h (fun _ => cancel_ends) hchecked
  | call rule =>
    simp only [Command.check, Bool.and_eq_true] at hchecked
    obtain ⟨⟨hallowed, hstepped⟩, hstayed⟩ := hchecked
    simp only [Command.exec, ends_bind, ends_pure]
    refine (hsound.call rule s hreached (h.callable hallowed)).mono fun _ t hdone =>
      maybe_follows h hdone.1 hstepped ?_
    by_cases hmem : s.kindAt 0 ∈ advancing table rule
    · exact .inl (hdone.2 hmem)
    · exact .inr ⟨_, has_diff.mpr ⟨h.kind, hmem⟩, (Bool.or_eq_true_iff.mp hstayed).resolve_left
        fun hwithin => hmem (mem_of_within hwithin h.kind)⟩
  | optional rule =>
    simp only [Command.check, Bool.and_eq_true] at hchecked
    obtain ⟨⟨hallowed, hstepped⟩, hstayed⟩ := hchecked
    simp only [Command.exec, ends_bind, ends_pure]
    have hends := (hsound.call rule s hreached (h.callable hallowed)).mono fun _ t hdone => hdone.1
    exact (optional_ends hends).mono fun _ t hadvances =>
      maybe_follows h hadvances hstepped (.inr ⟨_, h.kind, hstayed⟩)
  | prefer leading rule other =>
    simp only [Command.check, Bool.and_eq_true] at hchecked
    obtain ⟨⟨⟨⟨hallowedLeading, hallowedRule⟩, hallowedOther⟩, hstepped⟩, hstayed⟩ := hchecked
    simp only [Command.exec, ends_bind, ends_pure]
    refine (hsound.prefer leading rule other s hreached (h.callable hallowedLeading)
      (h.callable hallowedRule) (h.callable hallowedOther)).mono ?_
    rintro _ t ⟨hadvances, hconsumes⟩
    refine maybe_follows h hadvances hstepped ?_
    obtain hwithin | hcontinues := Bool.or_eq_true_iff.mp hstayed
    · obtain ⟨hfirst, hsecond⟩ := Bool.and_eq_true_iff.mp hwithin
      exact .inl
        (hconsumes (Listed.mem_of_within hfirst h.kind) (Listed.mem_of_within hsecond h.kind))
    · exact .inr ⟨_, h.kind, hcontinues⟩

/-! ## Programs -/

/-- Without the counter a lookup only looks. -/
lemma nth_ends (hfree : s.fuel = none) (index : ℕ) {post : SyntaxKind → Parser ρ → Prop} :
    Ends (nth index) s post ↔ post (s.kindAt index) s := by
  simp [nth, hfree]

/-- One round of a loop: a round that goes on has consumed, and one that leaves is described by a
view that the check of the rest started from. -/
lemma round_ends {laps : ℕ} {body : Program ρ Bool} {ran : Bool} {outer : View}
    (leave : View → Bool)
    (hbodyEnds : Ends (body.exec rules laps scope) s fun (again, after) t =>
      Follows renames origin s.index (fun view =>
        if again then view.lap && view.markers == outer.markers
        else leave { view with lap := outer.lap || view.lap }) after t)
    (h : outer.Describes renames origin lapStart scope s) :
    Ends (do
        let (again, scope) ← body.exec rules laps scope
        return if again then .again (true, scope) else .leave (ran, scope)) s
      fun (turn : Turn (Bool × Scope) (Bool × Scope)) t =>
        match turn with
        | .again (ran, after) => ran = true ∧
            outer.stepped.Describes renames origin lapStart after t ∧ s.index < t.index
        | .leave (left, after) => left = ran ∧ Follows renames origin lapStart leave after t := by
  simp only [ends_bind, ends_pure]
  refine hbodyEnds.mono ?_
  rintro ⟨again, after⟩ t ⟨view, hchecked, hdescribed⟩
  cases again with
  | true =>
    simp only [if_true, Bool.and_eq_true, beq_iff_eq] at hchecked
    exact ⟨rfl, hdescribed.again h.lapLe hchecked.1 hchecked.2 h.index_le,
      hdescribed.lap hchecked.1⟩
  | false =>
    refine ⟨rfl, _, hchecked, hdescribed.leave h.lapLe fun hlap => ?_⟩
    obtain hearlier | hnow := Bool.or_eq_true_iff.mp hlap
    · exact Nat.lt_of_lt_of_le (h.lap hearlier) hdescribed.lapLe
    · exact Nat.lt_of_le_of_lt h.lapLe (hdescribed.lap hnow)

/-- **A program that passes the check follows it**: it comes to an end without a panic, at a parser
that one of the views at its end describes. -/
theorem Program.check_sound (hfree : origin.fuel = none)
    (hsound : rules.Sound renames table rank origin) {laps : ℕ}
    (henough : origin.tokens.length - origin.index < laps) {α : Type} {program : Program ρ α}
    {next : α → View → Bool} (h : view.Describes renames origin lapStart scope s)
    (hchecked : program.check renames table rank view next = true) :
    Ends (program.exec rules laps scope) s fun (a, after) t =>
      Follows renames origin lapStart (next a) after t := by
  induction program generalizing origin lapStart view scope s with
  | pure a =>
    simp only [exec, ends_pure]
    exact ⟨view, hchecked, h⟩
  | ask index set answer ih =>
    have hfreeHere : s.fuel = none := h.opened.advances.fuel_eq.trans hfree
    simp only [exec, ends_bind, nth_ends hfreeHere, TokenSet.contains]
    cases index with
    | zero =>
      simp only [check, Bool.and_eq_true, Bool.or_eq_true] at hchecked
      by_cases hmem : s.kindAt 0 ∈ set
      · have hnarrowed := has_inter.mpr ⟨h.kind, hmem⟩
        rw [decide_eq_true hmem]
        refine ih true hfree hsound henough (h.narrow hnarrowed) (hchecked.1.resolve_left ?_)
        simp [isEmpty_eq_false hnarrowed]
      · have hnarrowed := has_diff.mpr ⟨h.kind, hmem⟩
        rw [decide_eq_false hmem]
        refine ih false hfree hsound henough (h.narrow hnarrowed) (hchecked.2.resolve_left ?_)
        simp [isEmpty_eq_false hnarrowed]
    | succ index =>
      simp only [check, Bool.and_eq_true] at hchecked
      cases decide (s.kindAt (index + 1) ∈ set) with
      | true => exact ih true hfree hsound henough h hchecked.1
      | false => exact ih false hfree hsound henough h hchecked.2
  | act command rest ih =>
    simp only [exec, ends_bind]
    refine (Command.check_sound hfree hsound h hchecked).mono ?_
    rintro after t ⟨view, hchecked, hdescribed⟩
    exact ih hfree hsound henough hdescribed hchecked
  | loop body rest ihBody ihRest =>
    simp only [exec, ends_bind]
    simp only [check, Bool.and_eq_true] at hchecked
    refine Ends.of_imp (fun p t => Follows renames origin lapStart
      (fun view => (rest p.1).check renames table rank view next) p.2 t) ?_
      (Ends.loop
        -- between rounds nothing was consumed yet, or the view is that of a parser that moved on
        (fun (p : Bool × Scope) t =>
          (bif p.1 then view.stepped else view).Describes renames origin lapStart p.2 t)
        (fun _ t => origin.tokens.length - t.index) ?_ ?_ h)
    · rintro ⟨ran, after⟩ t ⟨view, hchecked, hdescribed⟩
      exact ihRest ran hfree hsound henough hdescribed hchecked
    · rintro ⟨ran, scope⟩ t hdescribed
      have hbodyEnds : Ends (body.exec rules laps scope) t fun p u =>
          Follows renames origin t.index (fun after =>
            if p.1 then after.lap && after.markers == (bif ran then view.stepped else view).markers
            else (rest ran).check renames table rank
              { after with lap := (bif ran then view.stepped else view).lap || after.lap } next)
            p.2 u := by
        cases ran with
        | false => exact ihBody hfree hsound henough hdescribed.newLap hchecked.1
        | true => exact ihBody hfree hsound henough hdescribed.newLap hchecked.2
      refine (round_ends (fun view => (rest ran).check renames table rank view next) hbodyEnds
        hdescribed).mono fun turn u holds => ?_
      rcases turn with ⟨_, after⟩ | ⟨_, after⟩
      · obtain ⟨rfl, hstepped, hlt⟩ := holds
        refine ⟨?_, ?_⟩
        · cases ran with
          | false => exact hstepped
          | true => exact hstepped
        · have := hstepped.opened.advances.index_within
            (Nat.lt_of_le_of_lt hdescribed.index_le hlt)
          omega
      · obtain ⟨rfl, hfollows⟩ := holds
        exact hfollows
    · have := h.index_le
      omega
  | invoke body rest ihBody ihRest =>
    simp only [exec, ends_bind]
    have hreached := h.opened.advances
    have henoughHere : s.tokens.length - s.index < laps := by
      have := hreached.index_le
      rw [hreached.tokens_eq]
      omega
    -- the function is followed as if it were a rule that begins here
    refine (ihBody (hreached.fuel_eq.trans hfree) (hsound.later hreached) henoughHere h.inner
      hchecked).mono ?_
    rintro ⟨answer, inner⟩ t ⟨after, hchecked, hdescribed⟩
    obtain ⟨hempty, hchecked⟩ := Bool.and_eq_true_iff.mp hchecked
    have hclosed := hdescribed.opened
    rw [List.isEmpty_iff.mp hempty] at hclosed
    simp only [hclosed.scope_eq_nil, Scope.defused, List.any_nil, Bool.false_eq_true, if_false,
      ends_pure]
    exact ihRest answer hfree hsound henough (hdescribed.outer h hclosed.advances) hchecked

/-! ## Rules -/

/-- The plain choice appends what one of the alternatives appends. -/
lemma prefer_ends {call : ρ → ParserM ρ Unit} {rule other : ρ} (hfree : s.fuel = none)
    (hserves : Serves renames table call rule s)
    (hotherServes : Serves renames table call other s) :
    Ends (prefer call rule other) s fun _ t => Advances renames s t ∧
      (s.kindAt 0 ∈ advancing table rule → s.kindAt 0 ∈ advancing table other →
        s.index < t.index) := by
  simp only [Parser.prefer, ends_bind, ends_get]
  refine hserves.mono ?_
  rintro _ t ⟨hadvances, hconsumes⟩
  have hkept : Advances renames s t ∧
      (s.kindAt 0 ∈ advancing table rule → s.kindAt 0 ∈ advancing table other →
        s.index < t.index) := ⟨hadvances, fun hmem _ => hconsumes hmem⟩
  by_cases hsucceeded : t.succeededSince s.checkpoint = true
  · rw [if_pos hsucceeded, ends_pure]
    exact hkept
  · rw [if_neg hsucceeded]
    simp only [ends_bind, ends_modify, ends_get, hadvances.rewind_eq]
    refine hotherServes.mono ?_
    rintro _ u ⟨hotherAdvances, hotherConsumes⟩
    by_cases hotherSucceeded : u.succeededSince s.checkpoint = true
    · rw [if_pos hotherSucceeded, ends_pure]
      exact ⟨hotherAdvances, fun _ hmem => hotherConsumes hmem⟩
    · rw [if_neg hotherSucceeded]
      simp only [ends_bind, ends_modify, hotherAdvances.rewind_eq, hadvances.replay_eq hfree]
      exact hkept

end Views

section Grammar

variable {ρ : Type} {renames : List (TokenSet × SyntaxKind)} {table : ρ → Option Summary}
  {grammar : ρ → Program ρ Unit} {top : ℕ}

/-- The depth that a rule of rank `rank` needs: `top + 1` calls for every token that is left. -/
def depthFor (top rank : ℕ) {ρ : Type} (s : Parser ρ) : ℕ :=
  (s.tokens.length - s.index) * (top + 1) + rank + 1

variable {summary : Summary} {s : Parser ρ} {depth : ℕ}

/-- The code of a rule whose calls are sound does what its summary says. -/
lemma execRule_serves {rules : Rules ρ} {laps : ℕ} {program : Program ρ Unit}
    (hfree : s.fuel = none)
    (hkeeps : summary.keeps renames table program = true)
    (hneeds : ∀ set, summary.needs = some set → s.kindAt 0 ∈ set)
    (hsound : rules.Sound renames table summary.rank s)
      (henough : s.tokens.length - s.index < laps) :
    Ends (program.execRule rules laps) s fun _ t => Advances renames s t ∧
      (s.kindAt 0 ∈ summary.advances → s.index < t.index) := by
  simp only [Summary.keeps, Bool.and_eq_true] at hkeeps
  have hends : Ends (program.exec rules laps []) s fun p t =>
      p.2 = [] ∧ Advances renames s t := by
    refine (check_sound hfree hsound henough (.enter ?_) hkeeps.1).mono ?_
    · cases hgiven : summary.needs with
      | none => exact has_all
      | some set => exact has_only.mpr (hneeds set hgiven)
    · rintro ⟨_, after⟩ t ⟨view, hempty, hdescribed⟩
      have hopened := hdescribed.opened
      rw [List.isEmpty_iff.mp hempty] at hopened
      exact ⟨hopened.scope_eq_nil, hopened.advances⟩
  have hconsumes : s.kindAt 0 ∈ summary.advances →
      Ends (program.exec rules laps []) s fun _ t => s.index < t.index := by
    intro hmem
    refine (check_sound hfree hsound henough (.enter (has_only.mpr hmem))
      hkeeps.2).mono ?_
    rintro _ t ⟨view, hmoved, hdescribed⟩
    exact hdescribed.moved (Bool.and_eq_true_iff.mp hmoved).1
  simp only [execRule, ends_bind]
  refine (?_ : Ends (program.exec rules laps []) s fun p t => p.2 = [] ∧
    Advances renames s t ∧ (s.kindAt 0 ∈ summary.advances → s.index < t.index)).mono ?_
  · by_cases hmem : s.kindAt 0 ∈ summary.advances
    · exact (hends.and (hconsumes hmem)).mono fun _ t hboth =>
        ⟨hboth.1.1, hboth.1.2, fun _ => hboth.2⟩
    · exact hends.mono fun _ t hdone => ⟨hdone.1, hdone.2, fun h => absurd h hmem⟩
  · rintro ⟨_, after⟩ t ⟨rfl, hdone⟩
    simpa [Scope.defused] using hdone

/-- Rules that come to an end at one depth are sound for the code of a rule at the next. -/
lemma plainRules_sound (hsummarised : Summarised renames table grammar top) {rank : ℕ}
    (hfree : s.fuel = none) (hserves : ∀ rule summary t, table rule = some summary → t.fuel = none →
      (∀ set, summary.needs = some set → t.kindAt 0 ∈ set) →
      depthFor top summary.rank t ≤ depth → Serves renames table (runPlain grammar depth) rule t)
    (henough : depthFor top rank s ≤ depth + 1) :
    (plainRules grammar depth).Sound renames table rank s := by
  have hcalls : ∀ called t, Advances renames s t → Callable table rank s called t →
      Serves renames table (runPlain grammar depth) called t := by
    rintro called t hadvances ⟨summary, hfound, hneeds, hsmaller⟩
    refine hserves _ _ _ hfound (hadvances.fuel_eq.trans hfree) hneeds ?_
    have := hsummarised.rank_le hfound
    have hindex_le := hadvances.index_le
    simp only [depthFor, hadvances.tokens_eq] at henough ⊢
    obtain hmoved | hlower := hsmaller
    · -- a token was consumed, which is worth more than any rank
      have hwithin := hadvances.index_within hmoved
      have hfewer : s.tokens.length - t.index + 1 ≤ s.tokens.length - s.index := by omega
      have := Nat.mul_le_mul_right (top + 1) hfewer
      rw [Nat.add_mul] at this
      omega
    · have hfewer : s.tokens.length - t.index ≤ s.tokens.length - s.index := by omega
      have := Nat.mul_le_mul_right (top + 1) hfewer
      omega
  exact {
    call := hcalls
    prefer := fun _ rule other t hadvances _ hcallable hotherCallable =>
      prefer_ends (hadvances.fuel_eq.trans hfree) (hcalls rule t hadvances hcallable)
        (hcalls other t hadvances hotherCallable) }

/-- A rule's loops can take as many rounds as there are tokens. -/
lemma laps_of_depthFor {rank : ℕ} (hpos : 0 < rank) (henough : depthFor top rank s ≤ depth + 1) :
    s.tokens.length - s.index < depth := by
  have := Nat.le_mul_of_pos_right (s.tokens.length - s.index) (Nat.succ_pos top)
  simp only [depthFor, Nat.succ_eq_add_one] at *
  omega

/-- **A rule comes to an end.**  Run with the plain choice and enough depth, a rule of a summarised
grammar appends one well formed piece, and it consumes where its summary says so. -/
theorem runPlain_ends (hsummarised : Summarised renames table grammar top) {rule : ρ}
    (hfound : table rule = some summary) (hfree : s.fuel = none)
    (hneeds : ∀ set, summary.needs = some set → s.kindAt 0 ∈ set)
    (henough : depthFor top summary.rank s ≤ depth) :
    Serves renames table (runPlain grammar depth) rule s := by
  induction depth generalizing rule summary s with
  | zero => exact absurd henough (by simp [depthFor])
  | succ depth ih =>
    have hsound :=
      plainRules_sound hsummarised hfree (fun _ _ _ hfound hfree => ih hfound hfree) henough
    have hlaps := laps_of_depthFor (hsummarised.rank_pos hfound) henough
    refine (execRule_serves hfree (hsummarised.keeps hfound) hneeds hsound hlaps).mono
      fun _ t ⟨hadvances, hconsumes⟩ => ⟨hadvances, fun hmem => hconsumes ?_⟩
    simpa [advancing, hfound] using hmem

end Grammar

end Iris.Parsing
