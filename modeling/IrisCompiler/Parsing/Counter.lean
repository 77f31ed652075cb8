import IrisCompiler.Parsing.Lifting

/-!
# The lookup counter

The parser counts its lookups down and panics when it runs out of them.  Apart from that the counter
is not read: a run with it does what the run without it does, or it panics with `fuelExhausted`.
The correspondence is `Counted`, and the induction over the code is again that of
`Program.exec_simulates`, now with one error that is tolerated.
-/

namespace Iris.Parsing

open TotalRun

variable {ρ : Type}

/-- The parser without its counter. -/
def Parser.uncounted (p : Parser ρ) : Parser ρ := { p with fuel := none }

/-- `t` is `s` with a counter, or without one. -/
def Counted (s t : Parser ρ) : Prop := s = t.uncounted

/-- The panic of the counter. -/
abbrev Exhausts (e : Panic) : Prop := e = .fuelExhausted

namespace Counted

/-- A method that does the same to the parser without the counter. -/
lemma ofModify {f : Parser ρ → Parser ρ} (hcommutes : ∀ t, f t.uncounted = (f t).uncounted) :
    Simulates Exhausts Counted Eq (modify f : ParserM ρ Unit) (modify f) :=
  .ofModify fun {s t} (h : s = t.uncounted) => h ▸ hcommutes t

lemma nth (index : ℕ) :
    Simulates Exhausts Counted Eq (Parser.nth index : ParserM ρ SyntaxKind) (Parser.nth index) := by
  rintro _ ⟨i, tokens, output, errors, fuel, failures⟩ rfl a s' hrun
  cases hrun
  match fuel with
  | some 0 => exact .inl ⟨_, rfl, rfl⟩
  | none | some (fuel + 1) => exact .inr ⟨_, _, rfl, rfl, rfl⟩

lemma consume : Simulates Exhausts Counted Eq (Parser.consume : ParserM ρ Unit) Parser.consume := by
  rintro _ t rfl a s' hrun
  have here : t.uncounted.tokens[t.uncounted.index]? = t.tokens[t.index]? := rfl
  rw [run_consume, here] at hrun
  cases hfound : t.tokens[t.index]? with
  | none => simp [hfound] at hrun
  | some kind =>
    rw [hfound] at hrun
    cases hrun
    refine .inr ⟨(), t.advanced kind, ?_, rfl, rfl⟩
    rw [run_consume, hfound]

lemma finish (m : NodeMarker) (kind : SyntaxKind) :
    Simulates Exhausts Counted Eq (m.finish kind : ParserM ρ Unit) (m.finish kind) := by
  rintro _ t rfl a s' hrun
  have here : t.uncounted.output[m.index]? = t.output[m.index]? := rfl
  rw [run_finish, here] at hrun
  split at hrun
  · next hfound =>
    cases hrun
    refine .inr ⟨(), { t with output := t.output.set m.index (.Start kind) ++ [Event.Finish] }, ?_,
      rfl, rfl⟩
    rw [run_finish, hfound]
  · cases hrun
  · cases hrun

lemma cancel (m : NodeMarker) :
    Simulates Exhausts Counted Eq (m.cancel : ParserM ρ Unit) m.cancel := by
  rintro _ t rfl a s' hrun
  have here : t.uncounted.output = t.output := rfl
  rw [run_cancel, here] at hrun
  split at hrun
  · next hlast =>
    split at hrun
    · next hplaceholder =>
      cases hrun
      refine .inr ⟨(), { t with output := t.output.dropLast }, ?_, rfl, rfl⟩
      rw [run_cancel, if_pos hlast, if_pos hplaceholder]
    · cases hrun
  · next hother =>
    cases hrun
    refine .inr ⟨(), t, ?_, rfl, rfl⟩
    rw [run_cancel, if_neg hother]

lemma replay {s t : Parser ρ} (failed : FailedAlternative) (h : Counted s t) :
    Counted (s.replay failed) (t.replay failed) := by
  obtain rfl := h
  have hindex : t.uncounted.index = t.index := rfl
  unfold Counted Parser.replay
  rw [hindex]
  split <;> rfl

/-- **The counter is not read**, except for its own panic. -/
theorem corresponds : Correspondence Exhausts (Counted : Parser ρ → Parser ρ → Prop) Eq where
  nth := nth
  consume := consume
  advance kind := ofModify fun _ => rfl
  annotate := ofModify fun _ => rfl
  qualify := ofModify fun _ => rfl
  error reason := ofModify fun _ => rfl
  start := by
    rintro _ t rfl a s' ⟨⟩
    exact .inr ⟨_, _, rfl, rfl, rfl⟩
  finish kind hsame := hsame ▸ finish _ kind
  cancel hsame := hsame ▸ cancel _
  tokenIndex hsame := hsame ▸ rfl
  index h := h ▸ rfl
  succeeded hbefore hafter := by
    obtain rfl := hbefore
    obtain rfl := hafter
    rfl
  rewind hbefore hafter := by
    obtain rfl := hbefore
    obtain rfl := hafter
    rfl
  failed hbefore hafter := by
    obtain rfl := hbefore
    obtain rfl := hafter
    rfl
  replay := replay

lemma speculate {p q : ParserM ρ Unit} (hsimulates : Simulates Exhausts Counted Eq p q) :
    Simulates Exhausts Counted Eq (Parser.speculate p) (Parser.speculate q) := by
  refine .bind .ofGet fun s t hbefore => .bind hsimulates fun _ _ _ =>
    .bind .ofGet fun s' t' hafter => ?_
  refine .bind (.ofModify (corresponds.rewind hbefore)) fun _ _ _ => .ofPure ?_
  exact (corresponds.succeeded hbefore hafter).symm

variable [DecidableEq ρ]

lemma remember {s t : Parser ρ} (key : ℕ × ρ) (failed : FailedAlternative) (h : Counted s t) :
    Counted (s.remember key failed) (t.remember key failed) := by
  obtain rfl := h
  rfl

/-- The choice of the source with the counter and without it. -/
lemma preferWithPrefix {call call' : ρ → ParserM ρ Unit}
    (hcalls : ∀ rule, Simulates Exhausts Counted Eq (call rule) (call' rule))
    (leading rule other : ρ) :
    Simulates Exhausts Counted Eq (Parser.preferWithPrefix call leading rule other)
      (Parser.preferWithPrefix call' leading rule other) := by
  refine .bind .ofGet fun s t hbefore => ?_
  have hindex : s.index = t.index := hbefore ▸ rfl
  have htable : s.failedAlternatives = t.failedAlternatives := hbefore ▸ rfl
  simp only [hindex, htable]
  cases t.failedAlternatives (t.index, rule) with
  | some failed => exact .ofModify fun {s t} => replay failed
  | none =>
    refine .bind (speculate (hcalls leading)) fun succeeded succeeded' hsame => ?_
    rw [← hsame]
    split
    · refine .bind (hcalls rule) fun _ _ _ => .bind .ofGet fun s₁ t₁ hafter => ?_
      rw [corresponds.succeeded hbefore hafter]
      split
      · exact .ofPure rfl
      · refine .bind .ofGet fun s₂ t₂ hfailing => .bind (.ofModify (corresponds.rewind hbefore))
          fun _ _ _ => .bind (hcalls other) fun _ _ _ => .bind .ofGet fun s₃ t₃ hfinally_ => ?_
        rw [corresponds.succeeded hbefore hfinally_]
        split
        · exact .ofPure rfl
        · refine .bind (.ofModify (corresponds.rewind hbefore)) fun _ _ _ => ?_
          rw [corresponds.failed hbefore hfailing]
          exact .bind (.ofModify fun {s t} => replay _) fun _ _ _ =>
            .ofModify fun {s t} => remember _ _
    · refine .bind (hcalls other) fun _ _ _ => .bind .ofGet fun s₁ t₁ hafter => ?_
      rw [corresponds.succeeded hbefore hafter]
      split
      · exact .ofPure rfl
      · refine .bind (.ofModify (corresponds.rewind hbefore)) fun _ _ _ => .bind (hcalls rule)
          fun _ _ _ => .bind .ofGet fun s₂ t₂ hfailing => ?_
        rw [corresponds.succeeded hbefore hfailing]
        split
        · exact .bind (.ofThrow (Q := fun _ _ => False) _) fun _ _ h => h.elim
        · refine .bind .ofGet fun s₃ t₃ hfailing => ?_
          rw [corresponds.failed hbefore hfailing]
          exact .ofModify fun {s t} => remember _ _

/-- **With the counter a rule does the same or exhausts it.** -/
theorem runRule {grammar : ρ → Program ρ Unit} (depth : ℕ) (rule : ρ) :
    Simulates Exhausts Counted Eq (runRule grammar depth rule) (runRule grammar depth rule) := by
  induction depth generalizing rule with
  | zero => exact .ofThrow _
  | succ depth ih =>
    exact Program.execRule_simulates corresponds ih (fun _ => preferWithPrefix ih _ _ _)
      (Nat.le_refl depth) (Program.chooses_any _)

end Counted

end Iris.Parsing
