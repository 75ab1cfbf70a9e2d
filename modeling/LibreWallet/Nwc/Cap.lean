import LibreWallet.Nwc.Ledger

/-
  Nwc/Cap.lean --- the budget caps what a window debits.

  The counter in force is the net of the window's debits, as long as every debit writes over the counter that it
  was checked against, every refund finds its debit's window and object in force, and what takes the place of the
  object has its counter.
-/

set_option autoImplicit false

namespace LibreWallet.Nwc.Ledger

open Async Spending
open Nwc.Payments (NwcConnection Pay Stage Watch SendResult)

/-! ## The cap -/

/-- Nothing of the pairing is under way. -/
def State.Quiescent (s : State) : Prop :=
  s.saving = [] ∧ (∀ c ∈ s.calls, c.stage = .ended ∧ c.watch ≠ .watching) ∧ ∀ m ∈ s.managers, m.loading = none

/-- The window's net is within the limit in force, and at rest it is what is stored. -/
structure Capped (s : State) : Prop where
  within : ∀ p, s.pairing = some p → 0 < p.spendingLimitSats → s.book.netCounted ≤ p.spendingLimitSats
  stored : s.Quiescent → ∃ p, s.stored = some p ∧ p.spentTodaySats = s.book.netCounted

/-! ## Sound steps -/

/-- The spent counter in force. -/
def State.counter (s : State) : Nat := (s.pairing.map (·.spentTodaySats)).getD 0

/-- A request of the manager in force has the object in force. -/
def Call.inForce (s : State) (c : Call) : Bool := c.manager = s.live && s.connection s.live = some c.object

/-- The debit of a request is of the current window. -/
def Call.counted (s : State) (c : Call) : Bool := (c.debit.bind fun j => s.book.debits[j]?).any (·.counted)

/-- An object has the counter in force, and a limit that is not below it. -/
def State.continues (s : State) (p : NwcConnection) : Bool :=
  p.spentTodaySats = s.counter && (p.spendingLimitSats = 0 || s.counter ≤ p.spendingLimitSats)

def soundCall (s : State) (c : Call) : Action → Bool
  | .decrypted _ now => s.objects[c.object]?.all fun p =>
      !dispatches [p.toConnection] c.request now ||
        if budgetWindowElapsed p.budgetRenewal p.lastSpentTimestamp now then c.manager = s.live
        else !c.isInvoice || refuses c p p.spentTodaySats || c.inForce s
  | .go _ true =>
    match c.stage with
    | .resetting _ => s.objects[c.object]?.all fun p =>
        !c.isInvoice || refuses c p 0 || c.inForce s && s.counter = 0
    | .hashing spentToday _ => c.inForce s && s.counter = spentToday
    | _ => true
  | .send _ .refused | .failed _ => c.inForce s && c.counted s
  | .send _ .threw => c.isInvoice || c.inForce s && c.counted s
  | _ => true

/-- A debit writes over the counter it was checked against, in the object in force; a refund finds that object and
the window of its debit; an edit, or the list that an `init` takes, continues the counter; the list is saved by the
manager in force, and its newest write lands last. -/
def sound (a : Action) (s : State) : Bool :=
  match a with
  | .updateConnection m updates => m = s.live && s.pairing.all fun p => s.continues (updates.spread p)
  | .save m => m = s.live
  | .landed i => i + 1 < s.saving.length || s.saving.length ≤ 1
  | .lost i => i + 1 < s.saving.length
  | .initDone m => (s.managers[m]?.bind (·.loading)).all fun loaded => loaded.any s.continues
  | a => (a.call.bind fun k => s.calls[k]?).all fun c => soundCall s c a

/-! ## One call -/

/-- From the debit to the hand-over, and while the payment is awaited. -/
def Call.owes (c : Call) : Bool :=
  c.stage = .debiting || c.stage = .waiting || c.stage = .sending || c.watch = .watching

/-- Its payment is not handed over yet. -/
def Call.unsent (c : Call) : Bool :=
  match c.stage with
  | .queued | .decrypting | .resetting _ | .hashing _ _ | .debiting | .waiting | .sending => true
  | _ => false

/-- The debit of a call, which has not been refunded. -/
def Call.Owed (b : Book) (c : Call) : Prop :=
  ∃ j d, c.debit = some j ∧ b.debits[j]? = some d ∧ d.amount = c.pay.amtSats ∧ d.refunded = false

structure Call.Sound (s : State) (c : Call) : Prop where
  watch : c.unsent = true → c.watch = .idle
  debit : ∀ j, c.debit = some j → j < s.book.debits.length
  owed : c.owes = true → c.Owed s.book
  checked : ∀ spentToday now, c.stage = .hashing spentToday now →
    ∃ p, s.objects[c.object]? = some p ∧ p.overBudget spentToday c.pay.amtSats = false

section Calls

variable {s s' : State} {k n : Nat} {c c' d : Call} {b : Book} {j : Nat}

/-- A call moves on, and its budget does not change. -/
inductive Quiet (s : State) (c : Call) : Call → Prop where
  | started (object : Nat) : c.stage = .queued → Quiet s c { c with stage := .decrypting, object }
  | hashing {p : NwcConnection} {spentToday : Nat} (now : Nat) : c.unsent = true → s.objects[c.object]? = some p →
      p.overBudget spentToday c.pay.amtSats = false → Quiet s c { c with stage := .hashing spentToday now }
  | done (stage : Stage) : stage = .answering ∨ stage = .ended → Quiet s c { c with stage }
  | debited : c.stage = .debiting → Quiet s c { c with stage := .waiting }
  | handed : c.stage = .waiting → Quiet s c { c with stage := .sending }
  | sent (stage : Stage) : stage = .settling ∨ stage = .answering → c.stage = .waiting ∨ c.stage = .sending →
      Quiet s c { c with stage, released := true, watch := .watching }
  | unwatched (watch : Watch) : watch ≠ .watching → c.watch = .watching →
      Quiet s c { c with watch, stage := if c.stage = .settling then .answering else c.stage }
  | released : Quiet s c { c with released := true }

theorem Call.Sound.sent (h : c.Sound s) (hwatch : c.watch = .watching) : c.unsent = false := by
  rw [← Bool.not_eq_true]
  intro hunsent
  cases hwatch.symm.trans (h.watch hunsent)

/-- Of a call that is handed over only the watch can owe. -/
theorem Call.owes_of_sent (h : c.unsent = false) : c.owes = decide (c.watch = .watching) := by
  unfold Call.unsent at h
  unfold Call.owes
  cases hstage : c.stage <;> simp_all

theorem Quiet.debit (h : Quiet s c c') : c'.debit = c.debit := by
  cases h <;> rfl

theorem Quiet.sound (h : Quiet s c c') (hc : c.Sound s) : c'.Sound s := by
  cases h with
  | started object hstage =>
    have hwatch := hc.watch (by simp [Call.unsent, hstage])
    refine ⟨fun _ => hwatch, hc.debit, fun howes => ?_, fun _ _ hstage' => by cases hstage'⟩
    simp [Call.owes, hwatch] at howes
  | @hashing p spentToday now hunsent hp hbudget =>
    have hwatch := hc.watch hunsent
    refine ⟨fun _ => hwatch, hc.debit, fun howes => ?_, fun _ _ hstage' => ?_⟩
    · simp [Call.owes, hwatch] at howes
    · cases hstage'
      exact ⟨p, hp, hbudget⟩
  | done stage hstage =>
    refine ⟨fun hunsent => ?_, hc.debit, fun howes => hc.owed ?_, fun _ _ hstage' => ?_⟩
    · rcases hstage with rfl | rfl
      · cases hunsent
      · cases hunsent
    · rcases hstage with rfl | rfl
      · simp_all [Call.owes]
      · simp_all [Call.owes]
    · rcases hstage with rfl | rfl
      · cases hstage'
      · cases hstage'
  | debited hstage =>
    refine ⟨fun _ => hc.watch (by simp [Call.unsent, hstage]), hc.debit, fun _ => hc.owed ?_,
      fun _ _ hstage' => by cases hstage'⟩
    simp [Call.owes, hstage]
  | handed hstage =>
    refine ⟨fun _ => hc.watch (by simp [Call.unsent, hstage]), hc.debit, fun _ => hc.owed ?_,
      fun _ _ hstage' => by cases hstage'⟩
    simp [Call.owes, hstage]
  | sent stage hstage hbefore =>
    refine ⟨fun hunsent => ?_, hc.debit, fun _ => hc.owed ?_, fun _ _ hstage' => ?_⟩
    · rcases hstage with rfl | rfl
      · cases hunsent
      · cases hunsent
    · rcases hbefore with hbefore | hbefore
      · simp [Call.owes, hbefore]
      · simp [Call.owes, hbefore]
    · rcases hstage with rfl | rfl
      · cases hstage'
      · cases hstage'
  | unwatched watch hne hwatch =>
    have hsent := hc.sent hwatch
    have hstill : Call.unsent { c with watch, stage := if c.stage = .settling then .answering else c.stage } = false := by
      unfold Call.unsent at hsent ⊢
      cases hstage : c.stage <;> simp_all
    refine ⟨fun hunsent => ?_, hc.debit, fun howes => ?_, fun spentToday now hstage' => ?_⟩
    · cases hstill.symm.trans hunsent
    · rw [Call.owes_of_sent hstill] at howes
      exact absurd (of_decide_eq_true howes) hne
    · simp only [Call.unsent] at hstill
      rw [show (if c.stage = .settling then Stage.answering else c.stage) = .hashing spentToday now from hstage'] at hstill
      cases hstill
  | released => exact ⟨hc.watch, hc.debit, hc.owed, hc.checked⟩

/-! ### The book -/

theorem Call.Owed.reset (h : c.Owed b) : c.Owed b.reset := by
  obtain ⟨j, d, hj, hd, hamount, hrefunded⟩ := h
  exact ⟨j, { d with counted := false }, hj, by simp [Book.reset, hd], hamount, hrefunded⟩

theorem Call.Owed.debit (h : c.Owed b) (now amount : Nat) : c.Owed (b.debit now amount) := by
  obtain ⟨j, d, hj, hd, hrest⟩ := h
  have hlt : j < b.debits.length := (List.getElem?_eq_some_iff.mp hd).1
  exact ⟨j, d, hj, by rw [Book.debit, List.getElem?_append_left hlt, hd], hrest⟩

/-- The refund of another debit. -/
theorem Call.Owed.refund (h : c.Owed b) (hne : c.debit ≠ some j) : c.Owed (b.refund j) := by
  obtain ⟨i, d, hi, hd, hrest⟩ := h
  have hij : j ≠ i := fun heq => hne (heq ▸ hi)
  exact ⟨i, d, hi, (List.getElem?_modify_ne _ _ hij).trans hd, hrest⟩

end Calls

/-! ## What a sound step of a call can do -/

section Moves

variable {s s' : State} {k : Nat} {c : Call} {p : NwcConnection}

inductive Move (s : State) (k : Nat) (c : Call) : State → Prop where
  | quiet {c' : Call} : Quiet s c c' → Move s k c (s.put k c')
  | reset {p : NwcConnection} (now : Nat) : c.unsent = true → s.objects[c.object]? = some p →
      budgetWindowElapsed p.budgetRenewal p.lastSpentTimestamp now = true → c.manager = s.live →
      Move s k c (resetBudget k c now s)
  | debit {p : NwcConnection} (now : Nat) : c.unsent = true → s.objects[c.object]? = some p →
      p.overBudget s.counter c.pay.amtSats = false → c.inForce s = true → Move s k c (debitBudget k c s.counter now s)
  | refund {c' : Call} : c.owes = true → c'.owes = false → c'.unsent = false → c'.debit = c.debit →
      c.inForce s = true → c.counted s = true → Move s k c ((refundBudget c s).put k c')

theorem Call.inForce_iff : c.inForce s = true ↔ c.manager = s.live ∧ s.connection s.live = some c.object := by
  simp [Call.inForce]

theorem pairing_of_inForce (h : c.inForce s = true) : s.pairing = s.objects[c.object]? := by
  rw [State.pairing, State.listed, (Call.inForce_iff.mp h).2, Option.bind_some]

theorem counter_of_inForce (h : c.inForce s = true) (hp : s.objects[c.object]? = some p) :
    s.counter = p.spentTodaySats := by
  simp [State.counter, pairing_of_inForce h, hp]

/-- A request that its pairing does not refuse is within the budget. -/
theorem overBudget_of_not_refuses {spentToday : Nat} (h : ¬refuses c p spentToday = true) :
    p.overBudget spentToday c.pay.amtSats = false := by
  simp only [refuses, Bool.or_eq_true, not_or, Bool.not_eq_true] at h
  exact h.1.2

theorem move_checkBudget {spentToday : Nat} (now : Nat) (hunsent : c.unsent = true)
    (hp : s.objects[c.object]? = some p)
    (hsound : !c.isInvoice || refuses c p spentToday || c.inForce s && s.counter = spentToday) :
    Move s k c (checkBudget k c p spentToday now s) := by
  unfold checkBudget
  split
  · rename_i hinvoice
    split
    · exact .quiet (.done .answering (.inl rfl))
    · rename_i hrefuses
      simp only [hinvoice, hrefuses, Bool.not_true, Bool.false_or, Bool.and_eq_true, decide_eq_true_eq] at hsound
      obtain ⟨hforce, rfl⟩ := hsound
      exact .debit now hunsent hp (overBudget_of_not_refuses hrefuses) hforce
  · split
    · split
      · exact .quiet (.done .answering (.inl rfl))
      · rename_i hrefuses
        exact .quiet (.hashing now hunsent hp (overBudget_of_not_refuses hrefuses))
    · exact .quiet (.done .answering (.inl rfl))

theorem move_dispatch (now : Nat) (hunsent : c.unsent = true) (hp : s.objects[c.object]? = some p)
    (hsound : !dispatches [p.toConnection] c.request now ||
      if budgetWindowElapsed p.budgetRenewal p.lastSpentTimestamp now then c.manager = s.live
      else !c.isInvoice || refuses c p p.spentTodaySats || c.inForce s) :
    Move s k c (dispatch k c p now s) := by
  unfold dispatch
  split
  · rename_i hdispatches
    simp only [hdispatches, Bool.not_true, Bool.false_or] at hsound
    split
    · rename_i helapsed
      rw [if_pos helapsed] at hsound
      exact .reset now hunsent hp helapsed (of_decide_eq_true hsound)
    · rename_i helapsed
      rw [if_neg helapsed] at hsound
      apply move_checkBudget now hunsent hp
      simp only [Bool.or_eq_true] at hsound ⊢
      rcases hsound with hsound | hforce
      · exact .inl hsound
      · exact .inr (by simp [hforce, counter_of_inForce hforce hp])
  · exact .quiet (.done .answering (.inl rfl))

theorem Call.unsent_of_stage (h : c.stage = .debiting ∨ c.stage = .waiting ∨ c.stage = .sending) :
    c.unsent = true ∧ c.owes = true := by
  rcases h with h | h | h
  · simp [Call.unsent, Call.owes, h]
  · simp [Call.unsent, Call.owes, h]
  · simp [Call.unsent, Call.owes, h]

theorem move_undo (hc : c.Sound s) (hstage : c.stage = .waiting)
    (hsound : c.inForce s && c.counted s) : Move s k c (undo k c s) := by
  obtain ⟨hunsent, howes⟩ := Call.unsent_of_stage (.inr (.inl hstage))
  rw [Bool.and_eq_true] at hsound
  have hidle := hc.watch hunsent
  exact .refund howes (by simp [Call.owes, hidle]) rfl rfl hsound.1 hsound.2

theorem move_send {n : Nat} {result : SendResult} (hc : c.Sound s) (hstage : c.stage = .waiting)
    (hsound : soundCall s c (.send n result) = true) : Move s k c (send k c result s) := by
  cases result with
  | accepted =>
    unfold send
    dsimp only
    split
    · exact .quiet (.sent .settling (.inl rfl) (.inl hstage))
    · exact .quiet (.handed hstage)
  | refused => exact move_undo hc hstage hsound
  | threw =>
    unfold send
    dsimp only
    split
    · exact .quiet (.done .answering (.inl rfl))
    · rename_i hinvoice
      simp only [soundCall, hinvoice, Bool.false_or] at hsound
      exact move_undo hc hstage hsound

theorem move_goOn {n : Nat} {ok : Bool} (hc : c.Sound s) (h : goOn k c ok s = some s')
    (hsound : soundCall s c (.go n ok) = true) : Move s k c s' := by
  unfold goOn at h
  split at h
  · rename_i now hstage
    have hunsent : c.unsent = true := by simp [Call.unsent, hstage]
    simp only [Option.map_eq_some_iff] at h
    obtain ⟨p, hp, rfl⟩ := h
    cases ok with
    | true =>
      simp only [soundCall, hstage, hp, Option.all_some] at hsound
      exact move_checkBudget now hunsent hp hsound
    | false => exact .quiet (.done .ended (.inr rfl))
  · rename_i spentToday now hstage
    have hunsent : c.unsent = true := by simp [Call.unsent, hstage]
    obtain ⟨p, hp, hbudget⟩ := hc.checked spentToday now hstage
    cases ok with
    | true =>
      simp only [soundCall, hstage, Bool.and_eq_true, decide_eq_true_eq] at hsound
      obtain ⟨hforce, rfl⟩ := hsound
      cases h
      exact .debit now hunsent hp hbudget hforce
    | false =>
      cases h
      exact .quiet (.done .answering (.inl rfl))
  · rename_i hstage
    cases ok with
    | true =>
      cases h
      exact .quiet (.debited hstage)
    | false =>
      cases h
      exact .quiet (.done .answering (.inl rfl))
  · rename_i hstage
    cases h
    exact .quiet (.sent .answering (.inr rfl) (.inr hstage))
  · cases h

theorem move_of_moves {a : Action} (hc : c.Sound s) (h : moves s k c a = some s')
    (hsound : soundCall s c a = true) : Move s k c s' := by
  cases a with
  | start n =>
    simp only [moves] at h
    split at h
    · rename_i hqueued
      split at h
      · rename_i i p hi hp
        cases h
        split
        · exact .quiet (.started i hqueued.1)
        · exact .quiet (.done .ended (.inr rfl))
      · cases h
        exact .quiet (.done .ended (.inr rfl))
    · cases h
  | decrypted n now =>
    simp only [moves] at h
    split at h
    · rename_i hstage
      simp only [Option.map_eq_some_iff] at h
      obtain ⟨p, hp, rfl⟩ := h
      simp only [soundCall, hp, Option.all_some] at hsound
      exact move_dispatch now (by simp [Call.unsent, hstage]) hp hsound
    · cases h
  | go n ok => exact move_goOn hc h hsound
  | send n result =>
    simp only [moves] at h
    split at h
    · rename_i hstage
      cases h
      exact move_send hc hstage hsound
    · cases h
  | settled n =>
    simp only [moves] at h
    split at h
    · rename_i hwatch
      cases h
      exact .quiet (.unwatched .settled (by decide) hwatch)
    · cases h
  | failed n =>
    simp only [moves] at h
    split at h
    · rename_i hwatch
      cases h
      rw [soundCall, Bool.and_eq_true] at hsound
      have hsent : Call.unsent { c with
          watch := .refunded, stage := if c.stage = .settling then .answering else c.stage } = false := by
        have hbefore := hc.sent hwatch
        unfold Call.unsent at hbefore ⊢
        cases hstage : c.stage <;> simp_all
      refine .refund (by simp [Call.owes, hwatch]) ?_ hsent rfl hsound.1 hsound.2
      rw [Call.owes_of_sent hsent]
      rfl
    · cases h
  | timeout n =>
    simp only [moves] at h
    split at h
    · rename_i hwatch
      cases h
      exact .quiet (.unwatched .timedOut (by decide) hwatch)
    · cases h
  | finish n =>
    simp only [moves] at h
    split at h
    · cases h
      exact .quiet (.done .ended (.inr rfl))
    · cases h
  | release n =>
    simp only [moves] at h
    split at h
    · cases h
      exact .quiet .released
    · cases h
  | _ => cases h

end Moves

/-! ## The calls over a step -/

/-- Every call is sound, and no two have one debit. -/
structure Calls (s : State) : Prop where
  sound : ∀ (k : Nat) (c : Call), s.calls[k]? = some c → c.Sound s
  distinct : ∀ (k k' : Nat) (c c' : Call) (j : Nat), k ≠ k' → s.calls[k]? = some c → s.calls[k']? = some c' →
    c.debit = some j → c'.debit ≠ some j

section CallSteps

variable {s s' : State} {k : Nat} {c c' : Call}

/-- No debit is forgotten, and every object keeps its limit. -/
structure Grows (s s' : State) : Prop where
  debits : s.book.debits.length ≤ s'.book.debits.length
  objects : ∀ (i : Nat) (p : NwcConnection), s.objects[i]? = some p →
    ∃ p', s'.objects[i]? = some p' ∧ p'.spendingLimitSats = p.spendingLimitSats

theorem Call.Sound.grow (h : c.Sound s) (hgrows : Grows s s') (howed : c.Owed s.book → c.Owed s'.book) :
    c.Sound s' where
  watch := h.watch
  debit j hj := Nat.lt_of_lt_of_le (h.debit j hj) hgrows.debits
  owed howes := howed (h.owed howes)
  checked spentToday now hstage := by
    obtain ⟨p, hp, hbudget⟩ := h.checked spentToday now hstage
    obtain ⟨p', hp', hlimit⟩ := hgrows.objects c.object p hp
    refine ⟨p', hp', ?_⟩
    unfold Pairing.overBudget at hbudget ⊢
    rw [hlimit]
    exact hbudget

/-- One call changes; a debit of its own is new. -/
theorem Calls.put (h : Calls s) (hk : s.calls[k]? = some c) (hcalls : s'.calls = s.calls.set k c')
    (hgrows : Grows s s') (hsound : c'.Sound s')
    (howed : ∀ (n : Nat) (d : Call), n ≠ k → s.calls[n]? = some d → d.Owed s.book → d.Owed s'.book)
    (hdebit : c'.debit = c.debit ∨ c'.debit = some s.book.debits.length) : Calls s' := by
  have hlt : k < s.calls.length := (List.getElem?_eq_some_iff.mp hk).1
  have hself : s'.calls[k]? = some c' := by rw [hcalls, List.getElem?_set_self hlt]
  have hother : ∀ n, n ≠ k → s'.calls[n]? = s.calls[n]? := by
    intro n hn
    rw [hcalls, List.getElem?_set_ne (Ne.symm hn)]
  -- the debit of the call is no other call's
  have hnew : ∀ (n : Nat) (d : Call) (j : Nat), n ≠ k → s.calls[n]? = some d → c'.debit = some j →
      d.debit ≠ some j := by
    intro n d j hn hd hj hdj
    rcases hdebit with hsame | hfresh
    · exact h.distinct n k d c j hn hd hk hdj (hsame.symm.trans hj)
    · have hlast : j = s.book.debits.length := Option.some.inj (hj.symm.trans hfresh)
      have := (h.sound n d hd).debit j hdj
      omega
  constructor
  · intro n d hd
    by_cases hn : n = k
    · subst hn
      obtain rfl := Option.some.inj (hself.symm.trans hd)
      exact hsound
    · rw [hother n hn] at hd
      exact (h.sound n d hd).grow hgrows (howed n d hn hd)
  · intro n n' d d' j hne hd hd' hj
    by_cases hn : n = k
    · subst hn
      obtain rfl := Option.some.inj (hself.symm.trans hd)
      rw [hother n' (Ne.symm hne)] at hd'
      exact hnew n' d' j (Ne.symm hne) hd' hj
    · rw [hother n hn] at hd
      by_cases hn' : n' = k
      · subst hn'
        obtain rfl := Option.some.inj (hself.symm.trans hd')
        exact fun hj' => hnew n d j hn hd hj' hj
      · rw [hother n' hn'] at hd'
        exact h.distinct n n' d d' j hne hd hd' hj

/-- Nothing of the calls or of the book changes. -/
theorem Calls.frame (h : Calls s) (hcalls : s'.calls = s.calls) (hbook : s'.book = s.book) (hgrows : Grows s s') :
    Calls s' where
  sound k c hc := by
    rw [hcalls] at hc
    exact (h.sound k c hc).grow hgrows fun howed => hbook ▸ howed
  distinct := by
    rw [hcalls]
    exact h.distinct

theorem grows_refl (h : s'.objects = s.objects) (hdebits : s.book.debits.length ≤ s'.book.debits.length) :
    Grows s s' where
  debits := hdebits
  objects _ p hp := ⟨p, h ▸ hp, rfl⟩

theorem grows_append {objects : List NwcConnection} (h : s'.objects = s.objects ++ objects)
    (hbook : s'.book = s.book) : Grows s s' where
  debits := Nat.le_of_eq (congrArg (·.debits.length) hbook.symm)
  objects i p hp := by
    have hlt : i < s.objects.length := (List.getElem?_eq_some_iff.mp hp).1
    exact ⟨p, by rw [h, List.getElem?_append_left hlt, hp], rfl⟩

theorem grows_spend {i : Nat} {f : Pairing → Pairing} (hf : ∀ q, (f q).spendingLimitSats = q.spendingLimitSats)
    (h : s'.objects = (s.spend i f).objects) (hdebits : s.book.debits.length ≤ s'.book.debits.length) :
    Grows s s' where
  debits := hdebits
  objects n p hp := by
    rw [h]
    by_cases hin : i = n
    · subst hin
      exact ⟨p.spend f, by simp [State.spend, hp], hf _⟩
    · exact ⟨p, by simp [State.spend, hin, hp], rfl⟩

theorem resetBudget_limit (now : Nat) (q : Pairing) : (q.resetBudget now).spendingLimitSats = q.spendingLimitSats := by
  unfold Pairing.resetBudget
  split <;> rfl

theorem Calls.move (h : Calls s) (hk : s.calls[k]? = some c) (hmove : Move s k c s') : Calls s' := by
  have hc := h.sound k c hk
  cases hmove with
  | @quiet c' hquiet =>
    have hgrows : Grows s (s.put k c') := grows_refl rfl (Nat.le_refl _)
    have hsound : c'.Sound (s.put k c') := (hquiet.sound hc).grow hgrows id
    exact h.put hk rfl hgrows hsound (fun _ _ _ _ howed => howed) (.inl hquiet.debit)
  | reset now hunsent hp helapsed hlive =>
    have hidle := hc.watch hunsent
    have hbook : ∀ {d : Call}, d.Owed s.book → d.Owed (resetBudget k c now s).book := by
      intro d howed
      simp only [resetBudget, State.put, State.saveConnections, State.spend, State.resetBook]
      split
      · exact howed.reset
      · exact howed
    have hlength : (resetBudget k c now s).book.debits.length = s.book.debits.length := by
      simp only [resetBudget, State.put, State.saveConnections, State.spend, State.resetBook]
      split
      · simp [Book.reset]
      · rfl
    have hgrows : Grows s (resetBudget k c now s) :=
      grows_spend (resetBudget_limit now) rfl (Nat.le_of_eq hlength.symm)
    refine h.put hk rfl hgrows ?_ (fun _ _ _ _ howed => hbook howed) (.inl rfl)
    refine ⟨fun _ => hidle, fun j hj => hlength ▸ hc.debit j hj, fun howes => ?_, fun _ _ hstage => by cases hstage⟩
    simp [Call.owes, hidle] at howes
  | debit now hunsent hp hbudget hforce =>
    have hlength : (debitBudget k c s.counter now s).book.debits.length = s.book.debits.length + 1 := by
      simp [debitBudget, State.put, State.saveConnections, State.spend, Book.debit]
    have hgrows : Grows s (debitBudget k c s.counter now s) :=
      grows_spend (f := (·.debitBudget s.counter c.pay.amtSats now)) (fun _ => rfl) rfl (by omega)
    refine h.put hk rfl hgrows ?_ (fun _ _ _ _ howed => howed.debit now c.pay.amtSats) (.inr rfl)
    refine ⟨fun _ => hc.watch hunsent, fun j hj => ?_, fun _ => ?_, fun _ _ hstage => by cases hstage⟩
    · obtain rfl := Option.some.inj hj
      omega
    · exact ⟨s.book.debits.length, { at_ := now, amount := c.pay.amtSats }, rfl,
        by simp [debitBudget, State.put, State.saveConnections, State.spend, Book.debit], rfl, rfl⟩
  | @refund c' howes hpaid hsent hdebit hforce hcounted =>
    obtain ⟨j, d, hj, hd, hamount, hrefunded⟩ := hc.owed howes
    have hbook : ((refundBudget c s).put k c').book = s.book.refund j := by
      simp [refundBudget, State.put, State.saveConnections, hj]
    have hlength : ((refundBudget c s).put k c').book.debits.length = s.book.debits.length := by
      simp [hbook, Book.refund]
    have hgrows : Grows s ((refundBudget c s).put k c') :=
      grows_spend (f := (·.refundBudget c.pay.amtSats)) (fun _ => rfl) rfl (Nat.le_of_eq hlength.symm)
    refine h.put hk rfl hgrows ?_ ?_ (.inl hdebit)
    · refine ⟨fun hunsent => ?_, fun i hi => hlength ▸ hc.debit i (hdebit ▸ hi), fun howes' => ?_, fun _ _ hstage => ?_⟩
      · cases hsent.symm.trans hunsent
      · cases hpaid.symm.trans howes'
      · simp [Call.unsent, hstage] at hsent
    · intro n e hn he howed
      rw [hbook]
      exact howed.refund fun hej => h.distinct n k e c j hn he hk hej hj

end CallSteps

/-! ## The counter over a step -/

/-- The counter in force is the net of the window, within its limit, and the newest list saved has it. -/
structure Balanced (s : State) : Prop where
  pairing : ∃ p, s.pairing = some p ∧ p.spentTodaySats = s.book.netCounted ∧
    (0 < p.spendingLimitSats → p.spentTodaySats ≤ p.spendingLimitSats)
  newest : ∃ p, s.saving.getLast?.getD s.stored = some p ∧ p.spentTodaySats = s.book.netCounted

section Counter

variable {s s' : State} {k : Nat} {c c' : Call} {p : NwcConnection}

theorem Balanced.counter (h : Balanced s) : s.counter = s.book.netCounted := by
  obtain ⟨p, hp, hnet, -⟩ := h.pairing
  simp [State.counter, hp, hnet]

theorem listed_spend (s : State) (i : Nat) (f : Pairing → Pairing) (m : Nat) :
    (s.spend i f).listed m = if s.connection m = some i then (s.listed m).map (·.spend f) else s.listed m := by
  have hsame : (s.spend i f).connection m = s.connection m := rfl
  rw [State.listed, State.listed, hsame]
  cases hconnection : s.connection m with
  | none => simp
  | some n =>
    by_cases hn : n = i
    · subst hn
      simp [State.spend]
    · have hin : i ≠ n := fun heq => hn heq.symm
      simp [State.spend, hn, hin]

/-- The list is saved by the manager in force, with what the pairing is by now. -/
theorem Balanced.save {m : Nat} (hpairing : s.pairing = some p) (hlive : m = s.live)
    (hnet : p.spentTodaySats = s.book.netCounted)
    (hlimit : 0 < p.spendingLimitSats → p.spentTodaySats ≤ p.spendingLimitSats) :
    Balanced (s.saveConnections m) where
  pairing := ⟨p, hpairing, hnet, hlimit⟩
  newest := by
    refine ⟨p, ?_, hnet⟩
    subst hlive
    simp only [State.saveConnections, List.getLast?_concat, Option.getD_some]
    exact hpairing

/-- Neither the pairing nor what is saved of it changes. -/
theorem Balanced.frame (h : Balanced s) (hpairing : s'.pairing = s.pairing) (hbook : s'.book = s.book)
    (hnewest : s'.saving.getLast?.getD s'.stored = s.saving.getLast?.getD s.stored) : Balanced s' where
  pairing := by
    rw [hpairing, hbook]
    exact h.pairing
  newest := by
    rw [hnewest, hbook]
    exact h.newest

/-- The counter of the object in force. -/
theorem Balanced.object (h : Balanced s) (hforce : c.inForce s = true) :
    ∃ p, s.objects[c.object]? = some p ∧ s.pairing = some p ∧ p.spentTodaySats = s.book.netCounted ∧
      (0 < p.spendingLimitSats → p.spentTodaySats ≤ p.spendingLimitSats) := by
  obtain ⟨p, hp, hrest⟩ := h.pairing
  exact ⟨p, (pairing_of_inForce hforce).symm.trans hp, hp, hrest⟩

theorem pairing_spend_of_inForce (hforce : c.inForce s = true) (hp : s.pairing = some p) (f : Pairing → Pairing) :
    (s.spend c.object f).pairing = some (p.spend f) := by
  have hlisted := listed_spend s c.object f s.live
  rw [if_pos (Call.inForce_iff.mp hforce).2] at hlisted
  exact hlisted.trans (by rw [show s.listed s.live = some p from hp, Option.map_some])

theorem Balanced.reset (h : Balanced s) {p : NwcConnection} {now : Nat} (hp : s.objects[c.object]? = some p)
    (helapsed : budgetWindowElapsed p.budgetRenewal p.lastSpentTimestamp now = true) (hlive : c.manager = s.live) :
    Balanced (resetBudget k c now s) := by
  obtain ⟨q, hq, hnet, hlimit⟩ := h.pairing
  by_cases hconnection : s.connection s.live = some c.object
  · -- the pairing's own window ends
    have hforce : c.inForce s = true := Call.inForce_iff.mpr ⟨hlive, hconnection⟩
    have hreset : (p.spend (·.resetBudget now)).spentTodaySats = 0 := by
      simp [NwcConnection.spend, Pairing.resetBudget, helapsed]
    have hqp : q = p := Option.some.inj (hq.symm.trans ((pairing_of_inForce hforce).trans hp))
    have hbook : (s.resetBook c.object).book = s.book.reset := by simp [State.resetBook, hconnection]
    have hpairing : ((s.resetBook c.object).spend c.object (·.resetBudget now)).pairing =
        some (p.spend (·.resetBudget now)) := by
      rw [hqp] at hq
      exact pairing_spend_of_inForce (s := s.resetBook c.object) hforce hq _
    have hzero : ((s.resetBook c.object).spend c.object (·.resetBudget now)).book.netCounted = 0 :=
      (congrArg Book.netCounted hbook).trans (Book.netCounted_reset s.book)
    exact (Balanced.save hpairing hlive (hreset.trans hzero.symm) (fun _ => hreset ▸ Nat.zero_le _)).frame rfl rfl rfl
  · -- the window of an object that was replaced
    have hbook : s.resetBook c.object = s := by simp [State.resetBook, hconnection]
    have hpairing : (s.spend c.object (·.resetBudget now)).pairing = some q := by
      have hlisted := listed_spend s c.object (·.resetBudget now) s.live
      rw [if_neg hconnection] at hlisted
      exact hlisted.trans hq
    unfold resetBudget
    rw [hbook]
    exact (Balanced.save hpairing hlive hnet hlimit).frame rfl rfl rfl

theorem Balanced.debit (h : Balanced s) (hforce : c.inForce s = true) {p : NwcConnection}
    (hp : s.objects[c.object]? = some p) (hbudget : p.overBudget s.counter c.pay.amtSats = false) (now : Nat) :
    Balanced (debitBudget k c s.counter now s) := by
  have hpairing := pairing_spend_of_inForce hforce ((pairing_of_inForce hforce).trans hp)
    (·.debitBudget s.counter c.pay.amtSats now)
  have hnet : s.counter + c.pay.amtSats = (s.book.debit now c.pay.amtSats).netCounted := by
    rw [Book.netCounted_debit, h.counter]
  have hlimit : 0 < p.spendingLimitSats → s.counter + c.pay.amtSats ≤ p.spendingLimitSats := by
    intro hpos
    simp only [Pairing.overBudget, Bool.and_eq_false_iff, decide_eq_false_iff_not] at hbudget
    omega
  have hsaved := Balanced.save
    (s := { s.spend c.object (·.debitBudget s.counter c.pay.amtSats now) with book := s.book.debit now c.pay.amtSats })
    hpairing (Call.inForce_iff.mp hforce).1 hnet hlimit
  exact hsaved.frame rfl rfl rfl

theorem Balanced.refund (h : Balanced s) (hforce : c.inForce s = true) (howed : c.Owed s.book)
    (hcounted : c.counted s = true) : Balanced ((refundBudget c s).put k c') := by
  obtain ⟨p, -, hpairing, hcounter, hlimit⟩ := h.object hforce
  obtain ⟨j, d, hj, hd, hamount, hrefunded⟩ := howed
  have hcounted' : d.counted = true := by simpa [Call.counted, hj, hd] using hcounted
  have htaken := Book.netCounted_refund_of_counted hd hcounted' hrefunded
  have hnet : p.spentTodaySats - c.pay.amtSats = (s.book.refund j).netCounted := by omega
  have hwithin : 0 < p.spendingLimitSats → p.spentTodaySats - c.pay.amtSats ≤ p.spendingLimitSats :=
    fun hpos => Nat.le_trans (Nat.sub_le _ _) (hlimit hpos)
  have hsaved := Balanced.save
    (s := { s.spend c.object (·.refundBudget c.pay.amtSats) with book := s.book.refund j })
    (pairing_spend_of_inForce hforce hpairing (·.refundBudget c.pay.amtSats)) (Call.inForce_iff.mp hforce).1 hnet hwithin
  have hbook : refundBudget c s =
      { s.spend c.object (·.refundBudget c.pay.amtSats) with book := s.book.refund j }.saveConnections c.manager := by
    simp [refundBudget, hj]
  rw [hbook]
  exact hsaved.frame rfl rfl rfl

theorem Balanced.move (h : Balanced s) (hc : c.Sound s) (hmove : Move s k c s') : Balanced s' := by
  cases hmove with
  | quiet hquiet => exact h.frame rfl rfl rfl
  | reset now hunsent hp helapsed hlive => exact h.reset hp helapsed hlive
  | debit now hunsent hp hbudget hforce => exact h.debit hforce hp hbudget now
  | refund howes hpaid hsent hdebit hforce hcounted => exact h.refund hforce (hc.owed howes) hcounted

end Counter

/-! ## The list of connections -/

section Lists

variable {s s' : State} {m : Nat}

/-- A manager changes, and has the object it had. -/
theorem connection_set {manager manager' : Manager} (hm : s.managers[m]? = some manager)
    (hmanagers : s'.managers = s.managers.set m manager') (hsame : manager'.connection = manager.connection) (n : Nat) :
    s'.connection n = s.connection n := by
  have hlt : m < s.managers.length := (List.getElem?_eq_some_iff.mp hm).1
  simp only [State.connection, hmanagers]
  by_cases hn : m = n
  · subst hn
    rw [List.getElem?_set_self hlt, hm, Option.bind_some, Option.bind_some, hsame]
  · rw [List.getElem?_set_ne hn]

theorem pairing_congr (hconnection : ∀ n, s'.connection n = s.connection n) (hobjects : s'.objects = s.objects)
    (hlive : s'.live = s.live) : s'.pairing = s.pairing := by
  rw [State.pairing, State.pairing, State.listed, State.listed, hlive, hconnection, hobjects]

/-- The manager in force has a new object. -/
theorem pairing_replaced {manager' : Manager} {p : NwcConnection} (hlt : m < s.managers.length)
    (hobjects : s'.objects = s.objects ++ [p]) (hmanagers : s'.managers = s.managers.set m manager')
    (hconnection : manager'.connection = some s.objects.length) (hlive : s'.live = m) : s'.pairing = some p := by
  have hnew : s'.connection m = some s.objects.length := by
    rw [State.connection, hmanagers, List.getElem?_set_self hlt, Option.bind_some, hconnection]
  rw [State.pairing, State.listed, hlive, hnew, Option.bind_some, hobjects, List.getElem?_concat_length]

theorem State.continues_iff {p : NwcConnection} : s.continues p = true ↔
    p.spentTodaySats = s.counter ∧ (0 < p.spendingLimitSats → p.spentTodaySats ≤ p.spendingLimitSats) := by
  simp only [State.continues, Bool.and_eq_true, Bool.or_eq_true, decide_eq_true_eq]
  constructor
  · rintro ⟨hcounter, hlimit⟩
    exact ⟨hcounter, fun hpos => by omega⟩
  · rintro ⟨hcounter, hlimit⟩
    refine ⟨hcounter, ?_⟩
    by_cases hzero : p.spendingLimitSats = 0
    · exact .inl hzero
    · exact .inr (hcounter ▸ hlimit (Nat.pos_of_ne_zero hzero))

theorem Balanced.updateConnection (h : Balanced s) {updates : Updates}
    (hs : Ledger.updateConnection m updates s = some s') (hsound : sound (.updateConnection m updates) s = true) :
    Balanced s' := by
  simp only [Ledger.updateConnection, Option.bind_eq_some_iff, Option.map_eq_some_iff] at hs
  obtain ⟨manager, hm, p, hp, rfl⟩ := hs
  simp only [sound, Bool.and_eq_true, decide_eq_true_eq] at hsound
  obtain ⟨rfl, hcontinues⟩ := hsound
  rw [show s.pairing = some p from hp, Option.all_some, State.continues_iff] at hcontinues
  have hlt : s.live < s.managers.length := (List.getElem?_eq_some_iff.mp hm).1
  have hnet : (updates.spread p).spentTodaySats = s.book.netCounted := hcontinues.1.trans h.counter
  refine Balanced.save ?_ rfl hnet hcontinues.2
  exact pairing_replaced (s := s) hlt rfl rfl rfl rfl

theorem Balanced.initDone (h : Balanced s) (hs : Ledger.initDone m s = some s')
    (hsound : sound (.initDone m) s = true) : Balanced s' := by
  simp only [Ledger.initDone, Option.bind_eq_some_iff, Option.map_eq_some_iff] at hs
  obtain ⟨manager, hm, loaded, hloaded, rfl⟩ := hs
  simp only [sound, hm, Option.bind_some, hloaded, Option.all_some] at hsound
  cases loaded with
  | none => cases hsound
  | some p =>
    rw [Option.any_some, State.continues_iff] at hsound
    have hlt : m < s.managers.length := (List.getElem?_eq_some_iff.mp hm).1
    refine ⟨⟨p, ?_, hsound.1.trans h.counter, hsound.2⟩, h.newest⟩
    exact pairing_replaced (s := s) hlt rfl rfl rfl rfl

theorem Balanced.initRead (h : Balanced s) (hs : Ledger.initRead m s = some s') : Balanced s' := by
  simp only [Ledger.initRead, Option.map_eq_some_iff] at hs
  obtain ⟨manager, hm, rfl⟩ := hs
  exact h.frame (pairing_congr (connection_set hm rfl rfl) rfl rfl) rfl rfl

theorem Balanced.restart (h : Balanced s) : Balanced { s with managers := s.managers ++ [{}] } := by
  refine h.frame (pairing_congr (fun n => ?_) rfl rfl) rfl rfl
  simp only [State.connection]
  by_cases hn : n < s.managers.length
  · rw [List.getElem?_append_left hn]
  · have hnone : s.managers[n]? = none := List.getElem?_eq_none (Nat.le_of_not_lt hn)
    rw [List.getElem?_append_right (Nat.le_of_not_lt hn), hnone]
    cases n - s.managers.length with
    | zero => rfl
    | succ i => rfl

theorem Balanced.arrive (h : Balanced s) {request : Request} {pay : Pay}
    (hs : handleNwcRequest m request pay s = some s') : Balanced s' := by
  simp only [handleNwcRequest, Option.map_eq_some_iff] at hs
  obtain ⟨manager, hm, rfl⟩ := hs
  exact h.frame (pairing_congr (connection_set hm rfl rfl) rfl rfl) rfl rfl

/-- A write before the newest one. -/
theorem getLast?_eraseIdx {α : Type} {l : List α} {i : Nat} (h : i + 1 < l.length) :
    (l.eraseIdx i).getLast? = l.getLast? := by
  rw [List.getLast?_eq_getElem?, List.getLast?_eq_getElem?, List.length_eraseIdx_of_lt (by omega),
    List.getElem?_eraseIdx_of_ge (by omega)]
  congr 1
  omega

theorem Balanced.landed (h : Balanced s) {i : Nat} {list : Option NwcConnection} (hi : s.saving[i]? = some list)
    (hsound : sound (.landed i) s = true) :
    Balanced { s with stored := list, saving := s.saving.eraseIdx i } := by
  refine h.frame rfl rfl ?_
  simp only [sound, Bool.or_eq_true, decide_eq_true_eq] at hsound
  have hlt : i < s.saving.length := (List.getElem?_eq_some_iff.mp hi).1
  by_cases hlast : i + 1 < s.saving.length
  · have hne : s.saving ≠ [] := List.ne_nil_of_length_pos (by omega)
    rw [getLast?_eraseIdx hlast, List.getLast?_eq_some_getLast hne]
    rfl
  · -- the only one
    obtain ⟨x, hx⟩ := List.length_eq_one_iff.mp (show s.saving.length = 1 by omega)
    obtain rfl : i = 0 := by omega
    simp_all

theorem Balanced.lost (h : Balanced s) {i : Nat} (hsound : sound (.lost i) s = true) :
    Balanced { s with saving := s.saving.eraseIdx i } := by
  refine h.frame rfl rfl ?_
  rw [getLast?_eraseIdx (of_decide_eq_true hsound)]

theorem Calls.arrive (h : Calls s) {request : Request} {pay : Pay}
    (hs : handleNwcRequest m request pay s = some s') : Calls s' := by
  simp only [handleNwcRequest, Option.map_eq_some_iff] at hs
  obtain ⟨manager, hm, rfl⟩ := hs
  have hcases : ∀ {k : Nat} {c d : Call}, (s.calls ++ [d])[k]? = some c → s.calls[k]? = some c ∨ c = d := by
    intro k c d hk
    rw [List.getElem?_append] at hk
    split at hk
    · exact .inl hk
    · exact .inr (List.mem_singleton.mp (List.mem_of_getElem? hk))
  constructor
  · intro k c hk
    rcases hcases hk with hk | rfl
    · exact (h.sound k c hk).grow (grows_refl rfl (Nat.le_refl _)) id
    · exact ⟨fun _ => rfl, nofun, nofun, nofun⟩
  · intro k k' c c' j hne hk hk' hj
    rcases hcases hk with hk | rfl
    · rcases hcases hk' with hk' | rfl
      · exact h.distinct k k' c c' j hne hk hk' hj
      · intro hj'
        cases hj'
    · cases hj

end Lists

/-! ## Runs -/

section Runs

variable {s s' : State} {a : Action}

theorem move_of_step {k : Nat} (h : Calls s) (hs : (s.calls[k]?.bind fun c => moves s k c a) = some s')
    (hsound : (s.calls[k]?).all (fun c => soundCall s c a) = true) :
    ∃ c, s.calls[k]? = some c ∧ Move s k c s' := by
  simp only [Option.bind_eq_some_iff] at hs
  obtain ⟨c, hk, hmove⟩ := hs
  rw [hk, Option.all_some] at hsound
  exact ⟨c, hk, move_of_moves (h.sound k c hk) hmove hsound⟩

theorem balanced_step (hcalls : Calls s) (h : Balanced s) (hs : a.step s = some s') (hsound : sound a s = true) :
    Calls s' ∧ Balanced s' := by
  have hmove : ∀ {k c}, s.calls[k]? = some c → Move s k c s' → Calls s' ∧ Balanced s' :=
    fun hk hmove => ⟨hcalls.move hk hmove, h.move (hcalls.sound _ _ hk) hmove⟩
  cases a with
  | arrive m request pay => exact ⟨hcalls.arrive hs, h.arrive hs⟩
  | updateConnection m updates =>
    refine ⟨?_, h.updateConnection hs hsound⟩
    simp only [Action.step, Ledger.updateConnection, Option.bind_eq_some_iff, Option.map_eq_some_iff] at hs
    obtain ⟨manager, hm, p, hp, rfl⟩ := hs
    exact hcalls.frame rfl rfl (grows_append rfl rfl)
  | save m =>
    simp only [Action.step] at hs
    split at hs
    · cases hs
      obtain ⟨p, hp, hnet, hlimit⟩ := h.pairing
      exact ⟨hcalls.frame rfl rfl (grows_refl rfl (Nat.le_refl _)),
        Balanced.save hp (of_decide_eq_true hsound) hnet hlimit⟩
    · cases hs
  | landed i =>
    simp only [Action.step, Option.map_eq_some_iff] at hs
    obtain ⟨list, hi, rfl⟩ := hs
    exact ⟨hcalls.frame rfl rfl (grows_refl rfl (Nat.le_refl _)), h.landed hi hsound⟩
  | lost i =>
    simp only [Action.step] at hs
    split at hs
    · cases hs
      exact ⟨hcalls.frame rfl rfl (grows_refl rfl (Nat.le_refl _)), h.lost hsound⟩
    · cases hs
  | restart =>
    cases hs
    exact ⟨hcalls.frame rfl rfl (grows_refl rfl (Nat.le_refl _)), h.restart⟩
  | initRead m =>
    refine ⟨?_, h.initRead hs⟩
    simp only [Action.step, Ledger.initRead, Option.map_eq_some_iff] at hs
    obtain ⟨manager, hm, rfl⟩ := hs
    exact hcalls.frame rfl rfl (grows_refl rfl (Nat.le_refl _))
  | initDone m =>
    refine ⟨?_, h.initDone hs hsound⟩
    simp only [Action.step, Ledger.initDone, Option.bind_eq_some_iff, Option.map_eq_some_iff] at hs
    obtain ⟨manager, hm, loaded, hloaded, rfl⟩ := hs
    exact hcalls.frame rfl rfl (grows_append rfl rfl)
  | _ =>
    obtain ⟨c, hk, hmove'⟩ := move_of_step hcalls hs hsound
    exact hmove hk hmove'

theorem calls_initial (p : NwcConnection) : Calls (.initial p) := by
  have hnone : ∀ k : Nat, (State.initial p).calls[k]? = none := by
    intro k
    simp [State.initial]
  constructor
  · intro k c hk
    cases (hnone k).symm.trans hk
  · intro k k' c c' j hne hk
    cases (hnone k).symm.trans hk

theorem balanced_initial (p : NwcConnection) : Balanced (.initial p) :=
  ⟨⟨_, rfl, rfl, fun _ => Nat.zero_le _⟩, ⟨_, rfl, rfl⟩⟩

theorem Balanced.capped (h : Balanced s) : Capped s where
  within p hp hpos := by
    obtain ⟨q, hq, hnet, hlimit⟩ := h.pairing
    obtain rfl := Option.some.inj (hq.symm.trans hp)
    exact hnet ▸ hlimit hpos
  stored hquiet := by
    have hnewest := h.newest
    rw [hquiet.1] at hnewest
    exact hnewest

/-- Over a run of sound steps, the budget caps each window and is stored as it is. -/
theorem capped_of_sound (p : NwcConnection)
    (hrun : Steps Action.step (fun a s => sound a s = true) (.initial p) s) : Capped s := by
  have hinv : Calls s ∧ Balanced s := by
    apply hrun.invariant (I := fun t => Calls t ∧ Balanced t)
    · exact ⟨calls_initial p, balanced_initial p⟩
    · intro a t t' hinv hsound hs
      exact balanced_step hinv.1 hinv.2 hs hsound
  exact hinv.2.capped

end Runs

/-! ### An edit while a request is decrypted -/

def alice : NwcConnection := { clientPubkey := "alice", spendingLimitSats := 1000, lastSpentTimestamp := 0 }

def payInvoice : Request := ⟨"alice", 0, .request .payInvoice⟩

/-- Invoice `k` of 600 sats is paid, from its decryption on. -/
def paid (k : Nat) : List Action :=
  [.decrypted k 1, .landed 0, .go k true, .send k .accepted, .settled k, .finish k]

/-- An invoice is paid, the limit is raised, and the wallet is restarted. -/
def restarted : List Action :=
  [.arrive 0 payInvoice ⟨7, 600, true, true⟩, .start 0] ++ paid 0 ++
    [.updateConnection 0 { spendingLimitSats := some 2000 }, .landed 0, .restart, .initRead 1, .initDone 1]

/-- The cap of a payment is set while the first of two invoices is decrypted. -/
def edited : List Action :=
  [.arrive 0 payInvoice ⟨7, 600, true, true⟩, .start 0, .updateConnection 0 { maxAmountSats := some 800 }, .landed 0] ++
    paid 0 ++ [.arrive 0 payInvoice ⟨8, 600, true, true⟩, .start 1] ++ paid 1

theorem capped_of_sound_restarted : ∃ s, Steps Action.step (fun a s => sound a s = true) (.initial alice) s ∧
    s.pairing.map (fun p => (p.spendingLimitSats, p.spentTodaySats)) = some (2000, 600) ∧ Capped s := by
  obtain ⟨s, hrun, hs⟩ := Steps.exists_of_play Action.step sound (.initial alice) restarted
    (fun s => s.pairing.map (fun p => (p.spendingLimitSats, p.spentTodaySats)) = some (2000, 600)) (by decide)
  exact ⟨s, hrun, of_decide_eq_true hs, capped_of_sound alice hrun⟩

/-- Both are paid from a budget of 1000 sats, and one of them is stored. -/
theorem not_capped_edited : ∃ s, Steps Action.step (fun _ _ => True) (.initial alice) s ∧ s.Quiescent ∧
    s.pairing.map (·.spendingLimitSats) = some 1000 ∧ s.book.netCounted = 1200 ∧
    s.stored.map (·.spentTodaySats) = some 600 ∧ ¬Capped s := by
  obtain ⟨s, hrun, hs⟩ := Steps.exists_of_play Action.step (fun _ _ => true) (.initial alice) edited
    (fun s => s.saving = [] && s.calls.all (fun c => c.stage = .ended && c.watch = .settled) &&
      s.managers.all (fun m => m.loading = none) && s.pairing.map (·.spendingLimitSats) = some 1000 &&
      s.book.netCounted = 1200 && s.stored.map (·.spentTodaySats) = some 600) (by decide)
  simp only [Bool.and_eq_true, decide_eq_true_eq, List.all_eq_true] at hs
  obtain ⟨⟨⟨⟨⟨hsaving, hcalls⟩, hmanagers⟩, hlimit⟩, hnet⟩, hstored⟩ := hs
  refine ⟨s, hrun.mono fun _ _ _ => trivial, ⟨hsaving, fun c hc => ?_, hmanagers⟩, hlimit, hnet, hstored, ?_⟩
  · obtain ⟨hended, hsettled⟩ := hcalls c hc
    rw [hsettled]
    exact ⟨hended, by decide⟩
  · intro hcapped
    obtain ⟨p, hp, hp'⟩ := Option.map_eq_some_iff.mp hlimit
    have hle := hcapped.within p hp (by omega)
    omega

end LibreWallet.Nwc.Ledger
