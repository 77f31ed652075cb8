import IrisCompiler.Library.PointerGraph

/-!
# Exclusive ownership with waiters and hand-off

Agents own keys, at most one agent a key.  An agent that finds a key taken may queue behind the
owner and block; it is woken with a result when the owner is done, or inherits the key when the
owner gives up.  Who waits for whom is kept as a graph, and an agent that would close a cycle of it
does not queue.

The module states the protocol over any agents and keys: its state, the invariant, and for each
move that the invariant is kept.
-/

namespace HandOff

open PointerGraph Relation

variable {α κ : Type*}

/-- How the wait of a blocked agent stands. -/
inductive Status where
  | empty
  | full
  | transferred
  | abandoned

/-- Who owns, who queues and who waits for whom. -/
structure Protocol (α κ : Type*) where
  /-- The owner of a key and the agents queued behind it, as the shared table has them. -/
  entries : κ → Option (α × List α)
  /-- What an agent believes to own. -/
  owns : α → κ → Prop
  /-- What an agent is blocked on. -/
  waits : α → Option (κ × Status)
  edge : α → α → Prop

/-- The table, the beliefs of the agents and the wait graph agree. -/
structure Inv (p : Protocol α κ) : Prop where
  holds : ∀ a k, p.owns a k → ∃ ws, p.entries k = some (a, ws)
  owned : ∀ k a ws, p.entries k = some (a, ws) → p.owns a k ∨ p.waits a = some (k, .transferred)
  waiting : ∀ k a ws, p.entries k = some (a, ws) → ∀ w ∈ ws, p.waits w = some (k, .empty)
  registered : ∀ w k, p.waits w = some (k, .empty) → ∃ a ws, p.entries k = some (a, ws) ∧ w ∈ ws
  transferred : ∀ w k, p.waits w = some (k, .transferred) → ∃ ws, p.entries k = some (w, ws)
  exclusive : ∀ w k, p.waits w = some (k, .transferred) → ¬ p.owns w k
  live : ∀ w k, p.waits w ≠ some (k, .abandoned)
  nodup : ∀ k a ws, p.entries k = some (a, ws) → ws.Nodup
  edges : ∀ w a, p.edge w a ↔ ∃ k ws, p.entries k = some (a, ws) ∧ w ∈ ws
  acyclic : Acyclic p.edge

variable {p : Protocol α κ}

/-- Nobody owns or waits. -/
lemma Inv.idle (hentries : ∀ k, p.entries k = none) (howns : ∀ a k, ¬ p.owns a k)
    (hwaits : ∀ a, p.waits a = none) (hedge : ∀ a b, ¬ p.edge a b) : Inv p := by
  refine ⟨?_, ?_, ?_, ?_, ?_, ?_, ?_, ?_, ?_, ?_⟩
  · exact fun a k h => absurd h (howns a k)
  · simp [hentries]
  · simp [hentries]
  · simp [hwaits]
  · simp [hwaits]
  · simp [hwaits]
  · simp [hwaits]
  · simp [hentries]
  · simp [hentries, hedge]
  · intro a hcycle
    obtain ⟨b, hedge', -⟩ := TransGen.head'_iff.mp hcycle
    exact hedge a b hedge'

/-- The invariant reads nothing but the four components. -/
lemma Inv.congr {p' : Protocol α κ} (h : Inv p) (hentries : ∀ k, p'.entries k = p.entries k)
    (howns : ∀ a k, p'.owns a k ↔ p.owns a k) (hwaits : ∀ a, p'.waits a = p.waits a)
    (hedge : ∀ a b, p'.edge a b ↔ p.edge a b) : Inv p' := by
  have hentries' : p'.entries = p.entries := funext hentries
  have howns' : p'.owns = p.owns := funext fun a => funext fun k => propext (howns a k)
  have hwaits' : p'.waits = p.waits := funext hwaits
  have hedge' : p'.edge = p.edge := funext fun a => funext fun b => propext (hedge a b)
  cases p
  subst hentries' howns' hwaits' hedge'
  exact h

/-! ## One key at a time

Every move changes what is known of one key only.  What the invariant says of the other keys stays,
so a move needs a proof for its own key and for the wait graph. -/

/-- The part of the invariant that is about one key. -/
structure KeyInv (p : Protocol α κ) (k : κ) : Prop where
  holds : ∀ a, p.owns a k → ∃ ws, p.entries k = some (a, ws)
  owned : ∀ a ws, p.entries k = some (a, ws) → p.owns a k ∨ p.waits a = some (k, .transferred)
  waiting : ∀ a ws, p.entries k = some (a, ws) → ∀ w ∈ ws, p.waits w = some (k, .empty)
  registered : ∀ w, p.waits w = some (k, .empty) → ∃ a ws, p.entries k = some (a, ws) ∧ w ∈ ws
  transferred : ∀ w, p.waits w = some (k, .transferred) → ∃ ws, p.entries k = some (w, ws)
  exclusive : ∀ w, p.waits w = some (k, .transferred) → ¬ p.owns w k
  live : ∀ w, p.waits w ≠ some (k, .abandoned)
  nodup : ∀ a ws, p.entries k = some (a, ws) → ws.Nodup

/-- The agent is queued behind the other for another key. -/
def Elsewhere (p : Protocol α κ) (k : κ) (w a : α) : Prop :=
  ∃ j, j ≠ k ∧ ∃ ws, p.entries j = some (a, ws) ∧ w ∈ ws

section Facts

variable {p p' : Protocol α κ} {k : κ} {a b v : α} {ws : List α} (h : Inv p)

include h

/-- An agent that is not blocked has no outgoing edge. -/
lemma Inv.not_edge (hidle : ∀ k, p.waits a ≠ some (k, .empty)) (b : α) : ¬ p.edge a b := by
  rw [h.edges]
  rintro ⟨k, ws, hentry, hmem⟩
  exact hidle k (h.waiting k b ws hentry a hmem)

lemma Inv.key (k : κ) : KeyInv p k :=
  ⟨fun a => h.holds a k, h.owned k, h.waiting k, fun w => h.registered w k,
    fun w => h.transferred w k, fun w => h.exclusive w k, fun w => h.live w k, h.nodup k⟩

/-- The edges of the wait graph, by the key they are for. -/
lemma Inv.edge_iff (k : κ) :
    p.edge v b ↔ (∃ ws, p.entries k = some (b, ws) ∧ v ∈ ws) ∨ Elsewhere p k v b := by
  rw [h.edges]
  constructor
  · rintro ⟨j, ws, hj⟩
    by_cases hjk : j = k
    · exact .inl ⟨ws, hjk ▸ hj⟩
    · exact .inr ⟨j, hjk, ws, hj⟩
  · rintro (⟨ws, hk⟩ | ⟨j, -, ws, hj⟩)
    · exact ⟨k, ws, hk⟩
    · exact ⟨j, ws, hj⟩

/-- An agent that is queued for another key waits for that one. -/
lemma Inv.elsewhere (hother : Elsewhere p k v b) : ∃ j, j ≠ k ∧ p.waits v = some (j, .empty) := by
  obtain ⟨j, hne, ws, hj, hmem⟩ := hother
  exact ⟨j, hne, h.waiting j b ws hj v hmem⟩

lemma Inv.elsewhere_not_mem (hentry : p.entries k = some (a, ws)) (hother : Elsewhere p k v b) :
    v ∉ ws := by
  obtain ⟨j, hne, hv⟩ := h.elsewhere hother
  intro hmem
  rw [h.waiting k a ws hentry v hmem] at hv
  exact hne (Prod.mk.inj (Option.some.inj hv)).1.symm

/-- A queued agent has one outgoing edge, to the owner. -/
lemma Inv.edge_owner (hentry : p.entries k = some (a, ws)) (hmem : v ∈ ws) (hedge : p.edge v b) :
    b = a := by
  rcases (h.edge_iff k).mp hedge with ⟨ws', hentry', -⟩ | hother
  · exact (Prod.mk.inj (Option.some.inj (hentry'.symm.trans hentry))).1
  · exact absurd hmem (h.elsewhere_not_mem hentry hother)

/-- An owner that does not wait was not handed the key. -/
lemma Inv.not_transferred (hentry : p.entries k = some (a, ws)) (hidle : p.waits a = none) :
    p.waits v ≠ some (k, .transferred) := by
  intro hv
  obtain ⟨us, hj⟩ := h.transferred v k hv
  cases hentry.symm.trans hj
  cases hidle.symm.trans hv

/-- Nobody owns a key that its owner gives up. -/
lemma Inv.not_owns (hentry : p.entries k = some (a, ws))
    (howns : ∀ b j, p'.owns b j ↔ p.owns b j ∧ ¬ (b = a ∧ j = k)) : ¬ p'.owns b k := by
  intro hb
  obtain ⟨hb, hne⟩ := (howns b k).mp hb
  obtain ⟨us, hj⟩ := h.holds b k hb
  cases hentry.symm.trans hj
  exact hne ⟨rfl, rfl⟩

/-- **A move that changes one key.** -/
lemma Inv.of_key (hentries : ∀ j, j ≠ k → p'.entries j = p.entries j)
    (howns : ∀ b j, j ≠ k → (p'.owns b j ↔ p.owns b j))
    (hwaits : ∀ b j status, j ≠ k →
      (p'.waits b = some (j, status) ↔ p.waits b = some (j, status)))
    (hkey : KeyInv p' k)
    (hedge : ∀ v b, p'.edge v b ↔
      (∃ ws, p'.entries k = some (b, ws) ∧ v ∈ ws) ∨ Elsewhere p k v b)
    (hacyclic : Acyclic p'.edge) : Inv p' := by
  have hall : ∀ j, KeyInv p' j := by
    intro j
    by_cases hjk : j = k
    · exact hjk ▸ hkey
    · have hold := h.key j
      have howns' := fun b => howns b j hjk
      have hwaits' := fun b status => hwaits b j status hjk
      refine ⟨?_, ?_, ?_, ?_, ?_, ?_, ?_, ?_⟩ <;>
        simp [hentries j hjk, howns', hwaits']
      exacts [hold.holds, hold.owned, hold.waiting, hold.registered, hold.transferred,
        hold.exclusive, hold.live, hold.nodup]
  refine ⟨fun b j => (hall j).holds b, fun j => (hall j).owned, fun j => (hall j).waiting,
    fun w j => (hall j).registered w, fun w j => (hall j).transferred w,
    fun w j => (hall j).exclusive w, fun w j => (hall j).live w, fun j => (hall j).nodup,
    fun v b => ?_, hacyclic⟩
  rw [hedge]
  constructor
  · rintro (⟨ws, hk⟩ | ⟨j, hne, ws, hj, hmem⟩)
    · exact ⟨k, ws, hk⟩
    · exact ⟨j, ws, by rw [hentries j hne, hj], hmem⟩
  · rintro ⟨j, ws, hj, hmem⟩
    by_cases hjk : j = k
    · exact .inl ⟨ws, hjk ▸ hj, hmem⟩
    · exact .inr ⟨j, hjk, ws, by rw [← hentries j hjk, hj], hmem⟩

end Facts

/-! ## Moves -/

section Moves

variable {p p' : Protocol α κ} {k : κ} {a : α} {ws : List α}

/-- **Waking**, with a result or as the heir. -/
theorem Inv.resume (h : Inv p) {w : α} {status : Status} (hwait : p.waits w = some (k, status))
    (hstatus : status ≠ .empty) (hentries : ∀ j, p'.entries j = p.entries j)
    (howns : ∀ b j, p'.owns b j ↔ p.owns b j ∨ (status = .transferred ∧ b = w ∧ j = k))
    (hself : p'.waits w = none) (hwaits : ∀ b, b ≠ w → p'.waits b = p.waits b)
    (hedge : ∀ b c, p'.edge b c ↔ p.edge b c) : Inv p' := by
  have hback : ∀ {b j status}, p'.waits b = some (j, status) →
      b ≠ w ∧ p.waits b = some (j, status) := by
    intro b j status hb
    have hne : b ≠ w := by
      rintro rfl
      rw [hself] at hb
      cases hb
    exact ⟨hne, hwaits b hne ▸ hb⟩
  refine h.of_key (k := k) (fun j _ => hentries j) (fun b j hne => by simp [howns, hne])
    (fun b j status hne => ⟨fun hb => (hback hb).2, fun hb => ?_⟩) ?_ (fun v b => ?_)
    (h.acyclic.mono fun b c => (hedge b c).mp)
  · rw [hwaits, hb]
    rintro rfl
    exact hne (Prod.mk.inj (Option.some.inj (hb.symm.trans hwait))).1
  · have hold := h.key k
    refine ⟨fun b hb => ?_, fun b ws hk => ?_, fun b ws hk v hv => ?_, fun v hv => ?_,
      fun v hv => ?_, fun v hv hown => ?_, fun v hv => hold.live v (hback hv).2, ?_⟩
    · rw [hentries]
      rcases (howns b k).mp hb with hb | ⟨rfl, rfl, -⟩
      · exact hold.holds b hb
      · exact hold.transferred b hwait
    · rw [hentries] at hk
      rw [howns]
      rcases hold.owned b ws hk with hb | hb
      · exact .inl (.inl hb)
      · by_cases hbw : b = w
        · subst hbw
          obtain ⟨-, rfl⟩ := Prod.mk.inj (Option.some.inj (hb.symm.trans hwait))
          exact .inl (.inr ⟨rfl, rfl, rfl⟩)
        · exact .inr (by rw [hwaits b hbw, hb])
    · rw [hentries] at hk
      have hv' := hold.waiting b ws hk v hv
      rw [hwaits, hv']
      rintro rfl
      exact hstatus (Prod.mk.inj (Option.some.inj (hwait.symm.trans hv'))).2
    · simpa [hentries] using hold.registered v (hback hv).2
    · simpa [hentries] using hold.transferred v (hback hv).2
    · obtain ⟨hne, hv⟩ := hback hv
      exact hold.exclusive v hv (((howns v k).mp hown).resolve_right fun hw => hne hw.2.1)
    · simpa [hentries] using hold.nodup
  · rw [hedge, h.edge_iff k, hentries]

variable [DecidableEq κ]

/-- **Claiming a free key.** -/
theorem Inv.claim (h : Inv p) (hfree : p.entries k = none)
    (hentries : ∀ j, p'.entries j = if j = k then some (a, []) else p.entries j)
    (howns : ∀ b j, p'.owns b j ↔ p.owns b j ∨ (b = a ∧ j = k))
    (hwaits : ∀ b, p'.waits b = p.waits b) (hedge : ∀ b c, p'.edge b c ↔ p.edge b c) : Inv p' := by
  have hk : p'.entries k = some (a, []) := by rw [hentries, if_pos rfl]
  have hold := h.key k
  -- nobody has the free key or waits for it
  have hown : ∀ b, ¬ p.owns b k := by
    intro b hb
    obtain ⟨ws, hentry⟩ := hold.holds b hb
    cases hfree.symm.trans hentry
  have hempty : ∀ w, p.waits w ≠ some (k, .empty) := by
    intro w hw
    obtain ⟨b, ws, hentry, -⟩ := hold.registered w hw
    cases hfree.symm.trans hentry
  have htransferred : ∀ w, p.waits w ≠ some (k, .transferred) := by
    intro w hw
    obtain ⟨ws, hentry⟩ := hold.transferred w hw
    cases hfree.symm.trans hentry
  refine h.of_key (k := k) (fun j hne => by rw [hentries, if_neg hne])
    (fun b j hne => by simp [howns, hne]) (fun b j status _ => by rw [hwaits]) ?_ (fun v b => ?_)
    (h.acyclic.mono fun b c => (hedge b c).mp)
  · constructor <;> simp_all [hold.live]
  · simp [hedge, h.edge_iff k, hk, hfree]

/-- **Queueing behind an owner that does not wait for the new agent.** -/
theorem Inv.join (h : Inv p) {w o : α} (hentry : p.entries k = some (o, ws))
    (hidle : p.waits w = none) (hreach : ¬ ReflTransGen p.edge o w)
    (hentries : ∀ j, p'.entries j = if j = k then some (o, ws ++ [w]) else p.entries j)
    (howns : ∀ b j, p'.owns b j ↔ p.owns b j) (hself : p'.waits w = some (k, .empty))
    (hwaits : ∀ b, b ≠ w → p'.waits b = p.waits b)
    (hedge : ∀ b c, p'.edge b c ↔ (b = w ∧ c = o) ∨ (b ≠ w ∧ p.edge b c)) : Inv p' := by
  have hk : p'.entries k = some (o, ws ++ [w]) := by rw [hentries, if_pos rfl]
  have hold := h.key k
  have hblocked : ∀ {b j status}, p.waits b = some (j, status) → b ≠ w := by
    rintro b j status hb rfl
    cases hidle.symm.trans hb
  have hkeep : ∀ {b j status}, p.waits b = some (j, status) → p'.waits b = some (j, status) :=
    fun hb => (hwaits _ (hblocked hb)).trans hb
  have hback : ∀ {b j status}, p'.waits b = some (j, status) →
      (b = w ∧ j = k ∧ status = .empty) ∨ p.waits b = some (j, status) := by
    intro b j status hb
    by_cases hbw : b = w
    · subst hbw
      obtain ⟨rfl, rfl⟩ := Prod.mk.inj (Option.some.inj (hself.symm.trans hb))
      exact .inl ⟨rfl, rfl, rfl⟩
    · exact .inr (hwaits b hbw ▸ hb)
  have hfresh : w ∉ ws := fun hmem => hblocked (hold.waiting o ws hentry w hmem) rfl
  refine h.of_key (k := k) (fun j hne => by rw [hentries, if_neg hne]) (fun b j _ => howns b j)
    (fun b j status hne => ⟨fun hb => (hback hb).resolve_left fun hw => hne hw.2.1, hkeep⟩)
    ?_ (fun v b => ?_)
    (h.acyclic.insert (fun b c hbc => ((hedge b c).mp hbc).imp_right And.right) hreach)
  · refine ⟨fun b hb => ?_, fun b us hj => ?_, fun b us hj v hv => ?_, fun v hv => ?_,
      fun v hv => ?_, fun v hv hown => ?_, fun v hv => ?_, fun b us hj => ?_⟩
    · obtain ⟨us, hj⟩ := hold.holds b ((howns b k).mp hb)
      cases hentry.symm.trans hj
      exact ⟨_, hk⟩
    · cases hk.symm.trans hj
      rw [howns]
      exact (hold.owned o ws hentry).imp_right hkeep
    · cases hk.symm.trans hj
      rcases List.mem_append.mp hv with hv | hv
      · exact hkeep (hold.waiting o ws hentry v hv)
      · exact List.mem_singleton.mp hv ▸ hself
    · refine ⟨o, ws ++ [w], hk, ?_⟩
      rcases hback hv with ⟨rfl, -⟩ | hv
      · simp
      · obtain ⟨b, us, hj, hmem⟩ := hold.registered v hv
        cases hentry.symm.trans hj
        exact List.mem_append_left _ hmem
    · have hv := (hback hv).resolve_left (by simp)
      obtain ⟨us, hj⟩ := hold.transferred v hv
      cases hentry.symm.trans hj
      exact ⟨_, hk⟩
    · exact hold.exclusive v ((hback hv).resolve_left (by simp)) ((howns v k).mp hown)
    · exact hold.live v ((hback hv).resolve_left (by simp))
    · cases hk.symm.trans hj
      exact List.nodup_append_comm.mp (List.nodup_cons.mpr ⟨hfresh, hold.nodup o ws hentry⟩)
  · rw [hedge, h.edge_iff k, hentry, hk]
    have hother : Elsewhere p k v b → v ≠ w := fun hother =>
      have ⟨_, _, hv⟩ := h.elsewhere hother
      hblocked hv
    have hqueue : v ∈ ws → v ≠ w := fun hmem heq => hfresh (heq ▸ hmem)
    simp only [Option.some.injEq, Prod.mk.injEq]
    constructor
    · rintro (⟨rfl, rfl⟩ | ⟨-, ⟨us, ⟨rfl, rfl⟩, hmem⟩ | hother⟩)
      · exact .inl ⟨_, ⟨rfl, rfl⟩, by simp⟩
      · exact .inl ⟨_, ⟨rfl, rfl⟩, List.mem_append_left _ hmem⟩
      · exact .inr hother
    · rintro (⟨us, ⟨rfl, rfl⟩, hmem⟩ | helse)
      · rcases List.mem_append.mp hmem with hmem | hmem
        · exact .inr ⟨hqueue hmem, .inl ⟨_, ⟨rfl, rfl⟩, hmem⟩⟩
        · exact .inl ⟨List.mem_singleton.mp hmem, rfl⟩
      · exact .inr ⟨hother helse, .inr helse⟩

/-- **Giving a key up to the last agent in the queue.** -/
theorem Inv.handOff (h : Inv p) {heir : α} (hentry : p.entries k = some (a, ws ++ [heir]))
    (hidle : p.waits a = none)
    (hentries : ∀ j, p'.entries j = if j = k then some (heir, ws) else p.entries j)
    (howns : ∀ b j, p'.owns b j ↔ p.owns b j ∧ ¬ (b = a ∧ j = k))
    (hself : p'.waits heir = some (k, .transferred))
    (hwaits : ∀ b, b ≠ heir → p'.waits b = p.waits b)
    (hedge : ∀ b c, p'.edge b c ↔ (b ∈ ws ∧ c = heir) ∨ (b ∉ ws ∧ b ≠ heir ∧ p.edge b c)) :
    Inv p' := by
  have hk : p'.entries k = some (heir, ws) := by rw [hentries, if_pos rfl]
  have hold := h.key k
  have hheir : p.waits heir = some (k, .empty) := hold.waiting a _ hentry heir (by simp)
  have hnodup : ws.Nodup ∧ heir ∉ ws := by
    have hall := hold.nodup a _ hentry
    rw [List.nodup_append] at hall
    exact ⟨hall.1, fun hmem => hall.2.2 heir hmem heir (by simp) rfl⟩
  have hback : ∀ {b j status}, p'.waits b = some (j, status) →
      (b = heir ∧ j = k ∧ status = .transferred) ∨ (b ≠ heir ∧ p.waits b = some (j, status)) := by
    intro b j status hb
    by_cases hbh : b = heir
    · subst hbh
      obtain ⟨rfl, rfl⟩ := Prod.mk.inj (Option.some.inj (hb.symm.trans hself))
      exact .inl ⟨rfl, rfl, rfl⟩
    · exact .inr ⟨hbh, hwaits b hbh ▸ hb⟩
  have hown (b : α) : ¬ p'.owns b k := h.not_owns hentry howns
  refine h.of_key (k := k) (fun j hne => by rw [hentries, if_neg hne])
    (fun b j hne => by simp [howns, hne]) (fun b j status hne => ⟨fun hb => ?_, fun hb => ?_⟩)
    ?_ (fun v b => ?_) ?_
  · exact ((hback hb).resolve_left fun hw => hne hw.2.1).2
  · rw [hwaits, hb]
    rintro rfl
    exact hne (Prod.mk.inj (Option.some.inj (hb.symm.trans hheir))).1
  · refine ⟨fun b hb => absurd hb (hown b), fun b us hj => ?_, fun b us hj v hv => ?_,
      fun v hv => ?_, fun v hv => ?_, fun v _ => hown v, fun v hv => ?_, fun b us hj => ?_⟩
    · cases hk.symm.trans hj
      exact .inr hself
    · cases hk.symm.trans hj
      rw [hwaits, hold.waiting a _ hentry v (List.mem_append_left _ hv)]
      rintro rfl
      exact hnodup.2 hv
    · obtain ⟨hvh, hv⟩ := (hback hv).resolve_left (by simp)
      obtain ⟨b, us, hj, hmem⟩ := hold.registered v hv
      cases hentry.symm.trans hj
      exact ⟨heir, ws, hk, (List.mem_append.mp hmem).resolve_right fun hmem =>
        hvh (List.mem_singleton.mp hmem)⟩
    · rcases hback hv with ⟨rfl, -⟩ | ⟨-, hv⟩
      · exact ⟨ws, hk⟩
      · exact absurd hv (h.not_transferred hentry hidle)
    · exact hold.live v ((hback hv).resolve_left (by simp)).2
    · cases hk.symm.trans hj
      exact hnodup.1
  · rw [hedge, h.edge_iff k, hentry, hk]
    constructor
    · rintro (⟨hmem, rfl⟩ | ⟨hmem, hvh, ⟨us, hus, hv⟩ | hother⟩)
      · exact .inl ⟨ws, rfl, hmem⟩
      · cases hus
        rcases List.mem_append.mp hv with hv | hv
        · exact absurd hv hmem
        · exact absurd (List.mem_singleton.mp hv) hvh
      · exact .inr hother
    · rintro (⟨us, hus, hmem⟩ | hother)
      · cases hus
        exact .inl ⟨hmem, rfl⟩
      · have hmem := h.elsewhere_not_mem hentry hother
        rw [List.mem_append, List.mem_singleton, not_or] at hmem
        exact .inr ⟨hmem.1, hmem.2, .inr hother⟩
  · refine h.acyclic.retarget (fun b c hbc =>
      ((hedge b c).mp hbc).imp And.right fun hbc => hbc.2.2) fun c hc => ?_
    rcases (hedge heir c).mp hc with ⟨hmem, -⟩ | ⟨-, hne, -⟩
    · exact hnodup.2 hmem
    · exact hne rfl

variable [DecidableEq α]

/-- **Giving a key up with a result for everyone in the queue.** -/
theorem Inv.store (h : Inv p) (hentry : p.entries k = some (a, ws)) (hidle : p.waits a = none)
    (hentries : ∀ j, p'.entries j = if j = k then none else p.entries j)
    (howns : ∀ b j, p'.owns b j ↔ p.owns b j ∧ ¬ (b = a ∧ j = k))
    (hwaits : ∀ b, p'.waits b = if b ∈ ws then some (k, .full) else p.waits b)
    (hedge : ∀ b c, p'.edge b c ↔ p.edge b c ∧ ¬ (b ∈ ws ∧ c = a)) : Inv p' := by
  have hk : p'.entries k = none := by rw [hentries, if_pos rfl]
  have hold := h.key k
  have hown (b : α) : ¬ p'.owns b k := h.not_owns hentry howns
  -- whoever still waits for the key has a result
  have hfull : ∀ {b status}, p'.waits b = some (k, status) → status = .full := by
    intro b status hb
    rw [hwaits] at hb
    split at hb
    · exact (Prod.mk.inj (Option.some.inj hb)).2.symm
    · rename_i hmem
      cases status with
      | full => rfl
      | abandoned => exact absurd hb (hold.live b)
      | empty =>
        obtain ⟨c, us, hj, hus⟩ := hold.registered b hb
        cases hentry.symm.trans hj
        exact absurd hus hmem
      | transferred => exact absurd hb (h.not_transferred hentry hidle)
  refine h.of_key (k := k) (fun j hne => by rw [hentries, if_neg hne])
    (fun b j hne => by simp [howns, hne]) (fun b j status hne => ?_) ?_ (fun v b => ?_)
    (h.acyclic.mono fun b c hbc => ((hedge b c).mp hbc).1)
  · rw [hwaits]
    split
    · rename_i hmem
      rw [hold.waiting a ws hentry b hmem]
      simp [hne.symm]
    · rfl
  · refine ⟨fun b hb => absurd hb (hown b), by simp [hk], by simp [hk], fun v hv => ?_,
      fun v hv => ?_, fun v _ => hown v, fun v hv => ?_, by simp [hk]⟩ <;> cases hfull hv
  · rw [hedge, h.edge_iff k, hentry, hk]
    constructor
    · rintro ⟨⟨us, hus, hmem⟩ | hother, hnot⟩
      · cases hus
        exact absurd ⟨hmem, rfl⟩ hnot
      · exact .inr hother
    · rintro (⟨us, hus, -⟩ | hother)
      · cases hus
      · exact ⟨.inr hother, fun hmem => h.elsewhere_not_mem hentry hother hmem.1⟩

end Moves

end HandOff
