import IrisCompiler.Parsing.Alternatives
import IrisCompiler.Parsing.Counter
import IrisCompiler.Parsing.Soundness
import IrisCompiler.Parsing.Grammar.Summaries

/-!
# A module is parsed to its end

The two rules that the check does not accept are `module` and `end_of_file`, because they consume
the end of the file.  All of their code but the last statements passes it, so the run of a module is
cut there: what comes before leaves the parser at the end of the file (`parts_end`), and what comes
after consumes it, if it is there, and ends the root node (`run_module`).

The table of failed alternatives is dealt with in the same cut, since the code before the last
statements does the same with it and without it.
-/

namespace Iris.Parsing

open TotalRun Grammar

/-! ## The choices of the grammar -/

section Decide

variable {ρ : Type} (chosen : ρ → ρ → ρ → Prop)
  [∀ leading rule other, Decidable (chosen leading rule other)]

instance Command.decidableChooses : (command : Command ρ) → Decidable (command.Chooses chosen)
  | .prefer leading rule other => inferInstanceAs (Decidable (chosen leading rule other))
  | .consume | .annotate | .qualify | .advance _ _ | .error _ | .start _ | .unset _
  | .startOnce _ _ | .finish _ _ | .finishNonEmpty _ _ | .finishSome _ _ | .cancel _ | .call _
  | .optional _ => isTrue trivial

instance Program.decidableChooses :
    {α : Type} → (program : Program ρ α) → Decidable (program.Chooses chosen)
  | _, .pure _ => isTrue trivial
  | _, .ask _ _ next =>
    have (answer : Bool) := Program.decidableChooses (next answer)
    inferInstanceAs (Decidable (∀ answer, (next answer).Chooses chosen))
  | _, .act command next =>
    have := Program.decidableChooses next
    inferInstanceAs (Decidable (command.Chooses chosen ∧ next.Chooses chosen))
  | _, .loop body next | _, .invoke body next =>
    have := Program.decidableChooses body
    have (answer : Bool) := Program.decidableChooses (next answer)
    inferInstanceAs (Decidable (body.Chooses chosen ∧ ∀ answer, (next answer).Chooses chosen))

end Decide

/-- The calls of `prefer_with_prefix` in the source. -/
def Chosen (leading rule other : RuleName) : Prop :=
  (leading, rule, other) ∈ [
    (.binderLeftArrow, .doStatementBind, .doStatementDiscard),
    (.binderLeftArrow, .patternGuardBinder, .patternGuardExpression),
    (.letBindingSignatureOrEquationHead, .letBindingSignatureOrEquation, .letBindingPattern)]

instance (leading rule other : RuleName) : Decidable (Chosen leading rule other) :=
  inferInstanceAs (Decidable (_ ∈ _))

/-- **The choices of the grammar**: each prefix is what its rule begins with. -/
theorem grammar_choices : Choices grammar Chosen where
  code rule := by cases rule <;> decide +kernel
  other := by
    intro leading leading' rule other other' hchoice hchoice'
    simp only [Chosen, List.mem_cons, Prod.mk.injEq, List.not_mem_nil] at hchoice hchoice'
    obtain ⟨rfl, rfl, rfl⟩ | ⟨rfl, rfl, rfl⟩ | ⟨rfl, rfl, rfl⟩ := hchoice <;>
      simp_all only [reduceCtorEq, false_and, and_false, or_false, false_or]
  leads := by
    intro leading rule other hchoice
    simp only [Chosen, List.mem_cons, List.not_mem_nil, or_false] at hchoice
    obtain ⟨rfl, rfl, rfl⟩ | ⟨rfl, rfl, rfl⟩ | ⟨rfl, rfl, rfl⟩ := hchoice
    · exact leads_of_call (v := .m) rfl
    · exact leads_of_call (v := .m) rfl
    · exact leads_of_function (v := .m) rfl rfl

/-! ## The parts of a module -/

section Parts

open Program hiding pure bind

/-- `module` up to the call of `end_of_file`. -/
def moduleBody : Rule := do
  start .m
  call .moduleHeader
  expect .LAYOUT_START
  call .importsAndStatements
  expect .LAYOUT_END

/-- `end_of_file` up to the end of the file. -/
def unexpectedTokens : Rule := do
  unset .e
  let _ ← whileDo atEof.not do
    startOnce .e "Unexpected tokens at end of file"
    consume
  finishSome .e .ERROR

lemma module_eq : module_ = (do
    moduleBody
    call .endOfFile
    finish .m .Module) := by
  simp [module_, moduleBody]

lemma endOfFile_eq : endOfFile = (do
    unexpectedTokens
    expect .END_OF_FILE) := by
  simp [endOfFile, unexpectedTokens]

end Parts

variable {s t u : Parser RuleName} {rules : Rules RuleName} {laps : ℕ} {scope : Scope}

/-- `expect` consumes a token or records an error. -/
lemma run_expect (hfree : s.fuel = none) (kind : SyntaxKind) :
    ((Program.expect kind).exec rules laps scope).run s =
      if s.kindAt 0 = kind then (Parser.consume.run s).map fun (_, t) => (((), scope), t)
      else .ok (((), scope), s.failed (.Expected kind)) := by
  have hlooked : (Parser.nth 0).run s = .ok (s.kindAt 0, s) := by
    simp only [Parser.nth, StateT.run_bind, StateT.run_get, pure_bind, hfree]
    rfl
  rw [Program.expect_eq, Program.exec, run_bind_eq hlooked]
  by_cases here : s.kindAt 0 = kind
  · have hfound : TokenSet.contains [kind] (s.kindAt 0) = true := by simp [TokenSet.contains, here]
    rw [if_pos hfound, if_pos here]
    cases hran : Parser.consume.run s with
    | ok result => exact (run_bind_eq (run_bind_eq hran)).trans rfl
    | error e => exact run_bind_error (run_bind_error hran)
  · have hmissing : ¬TokenSet.contains [kind] (s.kindAt 0) = true := by
      simp [TokenSet.contains, here]
    rw [if_neg hmissing, if_neg here]
    rfl

/-- A token other than the end of the file is consumed or missed. -/
lemma expect_ends (hfree : s.fuel = none) {kind : SyntaxKind} (hproper : kind ≠ .END_OF_FILE) :
    Ends ((Program.expect kind).exec rules laps scope) s fun result t =>
      result = ((), scope) ∧ Parser.Advances renames s t := by
  by_cases here : s.kindAt 0 = kind
  · have hconsumed := s.getElem?_of_kindAt (here ▸ hproper)
    refine ⟨((), scope), s.advanced (s.kindAt 0), ?_, rfl,
      .advanced hfree hconsumed (here ▸ hproper) .same⟩
    rw [run_expect hfree, if_pos here, run_consume, hconsumed]
    rfl
  · refine ⟨((), scope), s.failed (.Expected kind), ?_, rfl, .failed s _⟩
    rw [run_expect hfree, if_neg here]

/-- The depth that is enough before is enough later. -/
lemma depthFor_le (hadvances : Parser.Advances renames s t) (top rank : ℕ) :
    depthFor top rank t ≤ depthFor top rank s := by
  have hfewer : s.tokens.length - t.index ≤ s.tokens.length - s.index := by
    have := hadvances.index_le
    omega
  have := Nat.mul_le_mul_right (top + 1) hfewer
  simp only [depthFor, hadvances.tokens_eq]
  omega

variable {depth index depth' : ℕ} {inner : Rules RuleName} {kinds : List SyntaxKind}
  {events : List Event} {errors : List ParserError} {table : Failures RuleName}

/-- A rule of the grammar that needs nothing can be called everywhere. -/
lemma call_ends {rule : RuleName} {given : Summary} (hfound : summary rule = some given)
    (hneeds : given.needs = none) (hfree : s.fuel = none) (henough : depthFor 19 19 s ≤ depth) :
    Ends ((Program.call rule).exec (plainRules grammar depth) laps scope) s fun result t =>
      result = ((), scope) ∧ Parser.Advances renames s t := by
  have hrank_le := grammar_summarised.rank_le hfound
  have hserves : Serves renames summary (runPlain grammar depth) rule s :=
    runPlain_ends grammar_summarised hfound hfree (by simp [hneeds])
      (Nat.le_trans (by simp [depthFor]; omega) henough)
  simp only [Program.call, Program.run, Program.exec, Command.exec, ends_bind, ends_pure]
  exact hserves.mono fun _ t hdone => ⟨trivial, hdone.1⟩

/-- The body of a module runs to its end. -/
lemma moduleBody_ends (hfree : s.fuel = none) (henough : depthFor 19 19 s ≤ depth) :
    Ends (moduleBody.exec (plainRules grammar depth) laps []) s fun result t =>
      result = ((), [(.m, some s.marker)]) ∧
        Parser.Advances renames (s.emit (.Start .Node)) t := by
  -- after each statement the same is known of the parser and the scope is the same
  have hgoesOn : ∀ {program : Rule} {rest : Unit → Rule} {t : Parser RuleName} {scope : Scope}
      {post : Unit × Scope → Parser RuleName → Prop},
      Ends (program.exec (plainRules grammar depth) laps scope) t (fun result u =>
        result = ((), scope) ∧ Parser.Advances renames t u) →
      (∀ u, Parser.Advances renames t u →
        Ends ((rest ()).exec (plainRules grammar depth) laps scope) u post) →
      Ends ((program >>= rest).exec (plainRules grammar depth) laps scope) t post := by
    intro program rest t scope post hfirst hnext
    rw [Program.exec_bind, ends_bind]
    refine hfirst.mono ?_
    rintro _ u ⟨rfl, hadvances⟩
    exact hnext u hadvances
  rw [moduleBody, Program.exec_bind, ends_bind]
  refine ⟨((), [(.m, some s.marker)]), s.emit (.Start .Node), rfl, ?_⟩
  have hstarted : Parser.Advances renames s (s.emit (.Start .Node)) := .start s
  have hfreeAt : ∀ {t}, Parser.Advances renames (s.emit (.Start .Node)) t → t.fuel = none :=
    fun hadvances => (hstarted.trans hadvances).fuel_eq.trans hfree
  have henoughAt : ∀ {t}, Parser.Advances renames (s.emit (.Start .Node)) t →
      depthFor 19 19 t ≤ depth :=
    fun hadvances => Nat.le_trans (depthFor_le (hstarted.trans hadvances) 19 19) henough
  refine hgoesOn (call_ends rfl rfl hfree henough) fun t₁ header => ?_
  refine hgoesOn (expect_ends (hfreeAt header) (by decide)) fun t₂ hsecond => ?_
  have hopened := header.trans hsecond
  refine hgoesOn (call_ends rfl rfl (hfreeAt hopened) (henoughAt hopened)) fun t₃ hthird => ?_
  have hstated := hopened.trans hthird
  exact (expect_ends (hfreeAt hstated) (by decide)).mono fun _ t₄ ⟨hresult, hlast⟩ =>
    ⟨hresult, hstated.trans hlast⟩

/-- What is left before the end of the file is consumed. -/
lemma unexpectedTokens_ends (hfree : s.fuel = none) (henough : depthFor 19 20 s ≤ depth) :
    Ends (unexpectedTokens.exec (plainRules grammar depth) depth []) s fun result t =>
      result = ((), []) ∧ Parser.Advances renames s t ∧ t.kindAt 0 = .END_OF_FILE := by
  have hchecked : unexpectedTokens.check renames summary 20 (.enter .all) (fun _ view =>
      view.markers.isEmpty && view.kinds.within [.END_OF_FILE]) = true := by
    decide +kernel
  have hsound : (plainRules grammar depth).Sound renames summary 20 s :=
    plainRules_sound grammar_summarised hfree
      (fun _ _ _ hfound hfree hneeds henough => runPlain_ends grammar_summarised hfound hfree
        hneeds henough)
      (Nat.le_succ_of_le henough)
  have hlaps : s.tokens.length - s.index < depth :=
    laps_of_depthFor (by decide) (Nat.le_succ_of_le henough)
  refine (Program.check_sound hfree hsound hlaps (.enter Listed.has_all) hchecked).mono
    fun (_, after) t ⟨view, hended, hdescribed⟩ => ?_
  obtain ⟨hempty, heof⟩ := Bool.and_eq_true_iff.mp hended
  have hopened := hdescribed.opened
  rw [List.isEmpty_iff.mp hempty] at hopened
  exact ⟨Prod.ext rfl hopened.scope_eq_nil, hopened.advances,
    List.mem_singleton.mp (Listed.mem_of_within heof hdescribed.kind)⟩

/-! ## The end of the file -/

/-- `end_of_file` ends by consuming the end of the file. -/
lemma run_endOfFile (hrest : (unexpectedTokens.exec rules laps []).run t = .ok (((), []), u))
    (hfree : u.fuel = none) (hkind : u.kindAt 0 = .END_OF_FILE) :
    (endOfFile.execRule rules laps).run t = Parser.consume.run u := by
  have hcode : (endOfFile.exec rules laps []).run t =
      (Parser.consume.run u).map fun (_, v) => (((), []), v) := by
    rw [endOfFile_eq, Program.exec_bind, run_bind_eq hrest, run_expect hfree, if_pos hkind]
  cases hran : Parser.consume.run u with
  | ok result =>
    rw [hran] at hcode
    exact (run_bind_eq hcode).trans rfl
  | error e =>
    rw [hran] at hcode
    exact run_bind_error hcode

/-- A module ends by consuming the end of the file and ending the root node. -/
lemma run_module {laps' : ℕ} (hcalls : rules.call .endOfFile = endOfFile.execRule inner laps')
    (hbody : (moduleBody.exec rules laps []).run s = .ok (((), [(.m, some s.marker)]), t))
    (hrest : (unexpectedTokens.exec inner laps' []).run t = .ok (((), []), u))
    (hfree : u.fuel = none)
    (hkind : u.kindAt 0 = .END_OF_FILE) :
    (module_.execRule rules laps).run s =
      (do Parser.consume; s.marker.finish .Module : ParserM RuleName Unit).run u := by
  have hending : ((do
        Program.call .endOfFile
        Program.finish .m .Module : Rule).exec rules laps [(.m, some s.marker)] >>=
      fun ended => ended.2.defused) = (do rules.call .endOfFile; s.marker.finish .Module) := by
    simp [Program.exec_bind, Program.call, Program.finish, Program.run, Program.exec, Command.exec,
      Scope.useMarker, Scope.defused]
  rw [Program.execRule, module_eq, Program.exec_bind, bind_assoc, run_bind_eq hbody, hending,
    StateT.run_bind, hcalls, run_endOfFile hrest hfree hkind, StateT.run_bind]

/-- The events and the errors that a parser has. -/
def Parser.result {ρ : Type} (p : Parser ρ) : List Event × List ParserError := (p.output, p.errors)

/-- What comes out of a module whose parts appended `events` and `errors` and stopped at `index`:
the end of the file is consumed, if it is there, and the root node put around it all. -/
def moduleResult (kinds : List SyntaxKind) (index : ℕ) (events : List Event)
    (errors : List ParserError) : Except Panic (List Event × List ParserError) :=
  match kinds[index]? with
  | some kind => .ok (.Start .Module :: (events ++ [.Token kind]) ++ [.Finish], errors)
  | none => .error .outOfBounds

lemma run_ending (hfresh : s = .new none kinds)
    (hreached : u = ((s.emit (.Start .Node)).extend index events errors).above [] [] table) :
    ((do Parser.consume; s.marker.finish .Module : ParserM RuleName Unit).run u).map
        (fun (_, p) => p.result) = moduleResult kinds index events errors := by
  have here : u.tokens[u.index]? = kinds[index]? := by
    subst hreached hfresh
    rfl
  cases hfound : kinds[index]? with
  | none =>
    have hconsumed : Parser.consume.run u = .error .outOfBounds := by rw [run_consume, here, hfound]
    rw [run_bind_error hconsumed, moduleResult, hfound]
    rfl
  | some kind =>
    have hconsumed : Parser.consume.run u = .ok ((), u.advanced kind) := by
      rw [run_consume, here, hfound]
    have hadvanced :
      u.advanced kind = ((s.above [] [] table).emit (.Start .Node)).extend (index + 1)
        (events ++ [.Token kind]) errors := by
      subst hreached hfresh
      simp [Parser.advanced, Parser.refuel, Parser.above, Parser.emit, Parser.extend, Parser.new]
    rw [run_bind_eq hconsumed, moduleResult, hfound, hadvanced]
    subst hfresh
    rfl

/-! ## Both ways to choose -/

/-- Rules that do what the plain rules do at `depth`, from one valid table to another. -/
structure Rules.Follows (kinds : List SyntaxKind) (depth : ℕ) (rules : Rules RuleName) : Prop where
  call : ∀ rule, Simulates Never (Lifted [] [] kinds (Valid grammar Chosen kinds)) Eq
    (runPlain grammar depth rule) (rules.call rule)
  prefer : ∀ {leading rule other}, Chosen leading rule other →
    Simulates Never (Lifted [] [] kinds (Valid grammar Chosen kinds)) Eq
      (Parser.prefer (runPlain grammar depth) rule other) (rules.prefer leading rule other)

lemma plainRules_follow (hle : depth ≤ depth') :
    (plainRules grammar depth').Follows kinds depth where
  call rule := runPlain_simulates lifted_corresponds hle rule
  prefer _ := lifted_corresponds.prefer (runPlain_simulates lifted_corresponds hle _)
    (runPlain_simulates lifted_corresponds hle _)

lemma memoRules_follow (hle : depth ≤ depth') : (memoRules grammar depth').Follows kinds depth where
  call rule := runRule_simulates grammar_choices hle rule
  prefer hchoice := prefer_simulates grammar_choices (runRule_simulates grammar_choices hle) hchoice

/-- Markers with no more events before them are the same. -/
lemma scope_eq_of_related {scope' : Scope}
    (hrelated : ScopesRelated (fun m m' => m' = m.above ([] : List Event).length) scope scope') :
    scope' = scope := by
  induction hrelated with
  | nil => rfl
  | @cons entry entry' _ _ heads _ ih =>
    obtain ⟨v, held⟩ := entry
    obtain ⟨v', held'⟩ := entry'
    obtain ⟨rfl, hsame⟩ := heads
    rw [ih]
    cases hsame with
    | none => rfl
    | some hmarker => simp [hmarker, NodeMarker.above]

/-- Code that ends with the plain rules ends in the same way with rules that follow them. -/
lemma exec_follows (hle : depth ≤ laps) (hfollows : rules.Follows kinds depth) {program : Rule}
    (hchoices : program.Chooses Chosen) (htokens : s.tokens = kinds) (hfree : s.fuel = none)
    (hvalid : Valid grammar Chosen kinds table)
    (hran : (program.exec (plainRules grammar depth) depth []).run s = .ok (((), scope), t)) :
    ∃ table', Valid grammar Chosen kinds table' ∧
      (program.exec rules laps []).run (s.above [] [] table) =
        .ok (((), scope), t.above [] [] table') := by
  have hsimulates : Simulates Never (Lifted [] [] kinds (Valid grammar Chosen kinds))
      (ResultsRelated fun m m' => m' = m.above ([] : List Event).length)
      (program.exec (plainRules grammar depth) depth []) (program.exec rules laps []) :=
    Program.exec_simulates lifted_corresponds hfollows.call hfollows.prefer hle hchoices .nil
  obtain ⟨⟨_, scope'⟩, t', hran', ⟨_, hrelated⟩, _, _, table', hvalid', rfl⟩ :=
    hsimulates.ends ⟨htokens, hfree, table, hvalid, rfl⟩ hran
  obtain rfl := scope_eq_of_related hrelated
  exact ⟨table', hvalid', hran'⟩

/-- A module comes out the same with all rules that follow the plain ones. -/
lemma module_follows {laps' : ℕ} (houterFollows : rules.Follows kinds (depth + 1))
    (hinnerFollows : inner.Follows kinds depth)
    (hcalls : rules.call .endOfFile = endOfFile.execRule inner laps') (hle : depth + 1 ≤ laps)
    (hle' : depth ≤ laps') (hfresh : s = .new none kinds)
    (hbody : (moduleBody.exec (plainRules grammar (depth + 1)) (depth + 1) []).run s =
      .ok (((), [(.m, some s.marker)]), t))
    (hrest : (unexpectedTokens.exec (plainRules grammar depth) depth []).run t = .ok (((), []), u))
    (hmiddle : Parser.Advances renames s t)
    (hreached : u = (s.emit (.Start .Node)).extend index events errors)
    (hkind : u.kindAt 0 = .END_OF_FILE) :
    ((module_.execRule rules laps).run s).map (fun (_, p) => p.result) =
      moduleResult kinds index events errors := by
  have htokens : s.tokens = kinds := by rw [hfresh]; rfl
  have hfree : s.fuel = none := by rw [hfresh]; rfl
  have hempty : Valid grammar Chosen kinds fun _ => none :=
    fun _ _ _ hfound => absurd hfound (by simp)
  have huntabled : s.above [] [] (fun _ => none) = s := by rw [hfresh]; rfl
  obtain ⟨table, hvalid, hbodyRan⟩ :=
    exec_follows hle houterFollows (by decide +kernel) htokens hfree
    hempty hbody
  obtain ⟨table', _, hrestRan⟩ := exec_follows hle' hinnerFollows (by decide +kernel)
    (hmiddle.tokens_eq.trans htokens) (hmiddle.fuel_eq.trans hfree) hvalid hrest
  rw [huntabled] at hbodyRan
  have hfreeEnd : (u.above [] [] table').fuel = none := by rw [hreached]; exact hfree
  rw [run_module hcalls hbodyRan hrestRan hfreeEnd hkind]
  exact run_ending hfresh (congrArg (Parser.above · [] [] table') hreached)

/-- **A module is parsed to its end.**  For every list of tokens there is one well formed piece of
output up to the end of the file, and with the table or without it, at every sufficient depth, the
parser ends with that output in the root node, or stops where the end of the file is missing. -/
theorem module_parsed (kinds : List SyntaxKind) :
    ∃ index events errors, Segment renames kinds 0 index events errors ∧
      kinds[index]?.getD .END_OF_FILE = .END_OF_FILE ∧
      ∃ enough, ∀ depth ≥ enough,
        (parseModulePlain depth none kinds).map Parser.result =
            moduleResult kinds index events errors ∧
          (parseModule depth none kinds).map Parser.result =
            moduleResult kinds index events errors := by
  generalize hfresh : (Parser.new none kinds : Parser RuleName) = s
  have htokens : s.tokens = kinds := by rw [← hfresh]; rfl
  have hfree : s.fuel = none := by rw [← hfresh]; rfl
  have hstarted : Parser.Advances renames s (s.emit (.Start .Node)) := .start s
  generalize hleast : depthFor 19 20 s = depth
  have henoughBody : depthFor 19 19 s ≤ depth + 1 := by simp only [depthFor] at *; omega
  obtain ⟨_, t, hbody, rfl, hadvances⟩ :=
    @moduleBody_ends s (depth + 1) (depth + 1) hfree henoughBody
  have hmiddle := hstarted.trans hadvances
  have henoughRest := hleast ▸ depthFor_le hmiddle 19 20
  obtain ⟨_, u, hrest, rfl, hadvances', hkind⟩ :=
    unexpectedTokens_ends (hmiddle.fuel_eq.trans hfree) henoughRest
  obtain ⟨index, events, errors, hreached, hsegment⟩ := hadvances.trans hadvances'
  have hstart : (s.emit (.Start .Node)).index = 0 := by rw [← hfresh]; rfl
  have hmapped : ∀ run : Except Panic (Unit × Parser RuleName),
      (run.map Prod.snd).map Parser.result = run.map fun (_, p) => p.result := by
    rintro (_ | _) <;> rfl
  refine ⟨index, events, errors, ?_, ?_, depth + 2, fun depth' hge => ?_⟩
  · rw [← htokens, ← hstart]
    exact hsegment
  · rw [hreached] at hkind
    simpa [Parser.kindAt, Parser.extend, Parser.emit, htokens] using hkind
  · obtain ⟨d, rfl⟩ : ∃ d, depth' = d + 2 := ⟨depth' - 2, by omega⟩
    simp only [parseModulePlain, parseModule, hmapped, hfresh]
    exact ⟨module_follows (plainRules_follow (by omega)) (plainRules_follow (by omega)) rfl
        (by omega) (by omega) hfresh.symm hbody hrest hmiddle hreached hkind,
      module_follows (memoRules_follow (by omega)) (memoRules_follow (by omega)) rfl
        (by omega) (by omega) hfresh.symm hbody hrest hmiddle hreached hkind⟩

/-- With the counter a run ends as without it or exhausts it. -/
lemma result_counted {run : ParserM RuleName Unit}
    (hcounted : Simulates Exhausts Counted Eq run run)
    {result : List Event × List ParserError}
    (huncounted : ((run.run (.new none kinds)).map Prod.snd).map Parser.result = .ok result)
    (fuel : ℕ) :
    ((run.run (.new (some fuel) kinds)).map Prod.snd).map Parser.result ∈
      [.ok result, .error .fuelExhausted] := by
  cases hran : run.run (.new none kinds) with
  | error e => simp [hran, Except.map] at huncounted
  | ok final =>
    obtain ⟨⟨⟩, p⟩ := final
    have hrelated : Counted (.new none kinds) (.new (some fuel) kinds : Parser RuleName) := rfl
    simp only [hran] at huncounted
    obtain ⟨e, rfl, hfails⟩ | ⟨_, q, hran', _, rfl⟩ := hcounted hrelated hran
    · simp [hfails, Except.map]
    · rw [hran', ← huncounted]
      exact List.mem_cons_self

/-- **The table of failed alternatives is invisible.**  Whatever the tokens are, a module is parsed
with the same outcome with the table and with the plain choice: the same events and errors, or the
same panic where the tokens have no end.  The lookup counter changes no result either; with it, both
parsers give that result or exhaust the counter. -/
theorem parseModule_memo_invisible (kinds : List SyntaxKind) :
    ∃ outcome, outcome ≠ .error .tooDeep ∧ ∃ enough, ∀ depth ≥ enough,
      (parseModule depth none kinds).map Parser.result = outcome ∧
      (parseModulePlain depth none kinds).map Parser.result = outcome ∧
      ∀ result, outcome = .ok result → ∀ fuel,
        (parseModule depth (some fuel) kinds).map Parser.result ∈
            [.ok result, .error .fuelExhausted] ∧
          (parseModulePlain depth (some fuel) kinds).map Parser.result ∈
            [.ok result, .error .fuelExhausted] := by
  obtain ⟨index, events, errors, _, _, enough, hparsed⟩ := module_parsed kinds
  refine ⟨moduleResult kinds index events errors, ?_, enough, fun depth hge => ?_⟩
  · unfold moduleResult
    split <;> simp
  · obtain ⟨hplain, hmemo⟩ := hparsed depth hge
    refine ⟨hmemo, hplain, fun result hok fuel => ⟨?_, ?_⟩⟩
    · have hcounted : Simulates Exhausts Counted Eq (runRule grammar depth .module_)
          (runRule grammar depth .module_) := Counted.runRule depth RuleName.module_
      exact result_counted hcounted (hmemo.trans hok) fuel
    · have hcounted : Simulates Exhausts Counted Eq (runPlain grammar depth .module_)
          (runPlain grammar depth .module_) :=
        runPlain_simulates Counted.corresponds (Nat.le_refl depth) RuleName.module_
      exact result_counted hcounted (hplain.trans hok) fuel

/-! ## The events of a module -/

/-- The parser stops in front of the only end of the file. -/
lemma index_eq_length {init : List SyntaxKind} (hsingle : .END_OF_FILE ∉ init)
    (hsegment : Segment renames (init ++ [.END_OF_FILE]) 0 index events errors)
    (hstopped : (init ++ [.END_OF_FILE])[index]?.getD .END_OF_FILE = .END_OF_FILE) :
    index = init.length := by
  have hnotAfter : index ≤ init.length := by
    by_contra hafter
    refine hsegment.before ?_
    rw [List.take_of_length_le (by simp; omega)]
    simp
  have hnotBefore : ¬index < init.length := by
    intro hbefore
    rw [List.getElem?_append_left hbefore, List.getElem?_eq_getElem hbefore] at hstopped
    exact hsingle (hstopped ▸ List.getElem_mem hbefore)
  omega

/-- **The events of a module are well formed.**  On tokens that end in their only end of the file
the parser comes to an end.  Its events are one `Module` node around properly nested ones, they have
one token for each token of the input, in order and renamed as `eat_in` does, and one `Error` for
each error. -/
theorem parseModule_events_wellFormed (init : List SyntaxKind) (hsingle : .END_OF_FILE ∉ init) :
    ∃ events errors inner,
      (∃ enough, ∀ depth ≥ enough,
        (parseModule depth none (init ++ [.END_OF_FILE])).map Parser.result =
          .ok (events, errors)) ∧
      withoutPlaceholders events = .Start .Module :: inner ++ [.Finish] ∧ Nested inner ∧
      List.Forall₂ (Renamed renames) (init ++ [.END_OF_FILE]) (tokensOf events) ∧
      events.count .Error = errors.length := by
  obtain ⟨index, events, errors, hsegment, hstopped, enough, hparsed⟩ :=
    module_parsed (init ++ [.END_OF_FILE])
  obtain rfl := index_eq_length hsingle hsegment hstopped
  have htokens : List.Forall₂ (Renamed renames) init (tokensOf events) := by
    simpa using hsegment.tokens
  refine ⟨.Start .Module :: (events ++ [.Token .END_OF_FILE]) ++ [.Finish], errors,
    withoutPlaceholders events ++ [.Token .END_OF_FILE], ⟨enough, fun depth hge => ?_⟩,
      ?_, ?_, ?_, ?_⟩
  · rw [(hparsed depth hge).2, moduleResult, List.getElem?_concat_length]
  · simp [withoutPlaceholders]
  · exact hsegment.nested.append (.leaf rfl .nil)
  · have hwhole : tokensOf (.Start .Module :: (events ++ [.Token .END_OF_FILE]) ++ [.Finish]) =
        tokensOf events ++ [.END_OF_FILE] := by
      simp only [tokensOf_start, tokensOf_append, List.append_assoc]
      rfl
    rw [hwhole]
    exact List.rel_append htokens (.cons .same .nil)
  · simpa using hsegment.counted

theorem parseModule_events_header : .END_OF_FILE ∉ [SyntaxKind.MODULE, .UPPER, .WHERE] ∧
    ∃ events errors inner,
      (∃ enough, ∀ depth ≥ enough,
        (parseModule depth none ([.MODULE, .UPPER, .WHERE] ++ [.END_OF_FILE])).map Parser.result =
          .ok (events, errors)) ∧
      withoutPlaceholders events = .Start .Module :: inner ++ [.Finish] ∧ Nested inner ∧
      List.Forall₂ (Renamed renames) ([.MODULE, .UPPER, .WHERE] ++ [.END_OF_FILE])
        (tokensOf events) ∧
      events.count .Error = errors.length :=
  ⟨by decide, parseModule_events_wellFormed [.MODULE, .UPPER, .WHERE] (by decide)⟩

end Iris.Parsing
