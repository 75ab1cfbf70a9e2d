import LibreWallet.Nwc.Budget
import LibreWallet.Webln.PermissionStore

/-
  Spending/Windows.lean --- when a budget window ends.

  The daily cap of a WebLN origin over histories of charges and refunds, beside the budget
  of an NWC pairing.  `PermissionStore` serializes both per origin, so a history is a
  sequence.  Both move their timestamp with every debit: a window ends only after a pause
  as long as the window.
-/

set_option autoImplicit false

namespace LibreWallet.Webln

open Async Spending

variable {O : Type} [DecidableEq O]

/-! ## Histories of one origin -/

/-- The grants, with the history of one origin's debits. -/
structure Capped (O : Type) where
  grants : Grants O
  ledger : Ledger O
  book : Book := {}
  clock : Nat := 0

inductive CapAction (O : Type) where
  | charge (origin : O) (amountSats now : Nat)
  /-- The payment of a charge failed: of debit `j`, where the origin is ours. -/
  | refund (origin : O) (amountSats j : Nat)

/-- What a charge of `origin` does to the history: the reset, the check, and the debit where
the check passes. -/
def Capped.bookAfterCharge (s : Capped O) (origin : O) (amountSats now : Nat) : Book :=
  match s.grants origin with
  | none => s.book
  | some g =>
    if g.enabled then
      let g' := resetIfNewDay now g
      let asked := s.book.ask now
      let book := if ONE_DAY_MS ≤ now - g.lastSpentTimestamp then asked.reset else asked
      let checked := book.check ONE_DAY_MS now g'.spentTodaySats g'.spendingLimitSats amountSats
      if 0 < g'.spendingLimitSats ∧ g'.spendingLimitSats < g'.spentTodaySats + amountSats then
        checked
      else checked.debit now amountSats
    else s.book

namespace CapAction

/-- `origin` is the one whose history is kept. -/
def step (origin : O) : CapAction O → Capped O → Option (Capped O)
  | .charge o amountSats now, s =>
    if s.clock ≤ now then
      let r := chargeIfWithinCap now o amountSats s.grants s.ledger
      some { s with
        grants := r.1.getD s.grants
        ledger := r.2
        book := if o = origin then s.bookAfterCharge o amountSats now else s.book
        clock := now }
    else none
  | .refund o amountSats j, s =>
    let r := Webln.refund o amountSats none s.grants s.ledger
    if o = origin then
      match s.book.debits[j]? with
      | some d =>
        if d.refunded ∨ d.amount ≠ amountSats then none
        else some { s with grants := r.1.getD s.grants, ledger := r.2, book := s.book.refund j }
      | none => none
    else some { s with grants := r.1.getD s.grants, ledger := r.2 }

/-- At a charge, every debit of a day ago or more was refunded or was followed by a pause of a
whole day. -/
def InWindow (origin : O) : CapAction O → Capped O → Prop
  | .charge o _ now, s => o = origin → (s.book.ask now).Renewed ONE_DAY_MS now
  | .refund _ _ _, _ => True

instance (origin : O) : (a : CapAction O) → (s : Capped O) → Decidable (a.InWindow origin s)
  | .charge o _ _, _ => inferInstanceAs (Decidable (o = origin → _))
  | .refund _ _ _, _ => .isTrue trivial

end CapAction

/-- A new grant of the origin. -/
def Capped.initial (grants : Grants O) (origin : O) (spendingLimitSats now : Nat) : Capped O where
  grants := Function.update grants origin (some ⟨true, spendingLimitSats, 0, now, now⟩)
  ledger := { granted := fun _ => none }
  clock := now

/-- The counter of the origin's grant has no more than its history, and its timestamp is that of
the last debit or reset. -/
def Capped.Counted (origin : O) (s : Capped O) : Prop :=
  ∃ g, s.grants origin = some g ∧ Counts g.spentTodaySats s.book ∧
    Paced ONE_DAY_MS g.lastSpentTimestamp s.clock s.book

/-- Another origin's charge leaves a grant as it is. -/
theorem chargeIfWithinCap_of_ne {now amountSats : Nat} {o origin : O} (h : o ≠ origin)
    (grants : Grants O) (l : Ledger O) :
    ((chargeIfWithinCap now o amountSats grants l).1.getD grants) origin = grants origin := by
  unfold chargeIfWithinCap
  cases ho : grants o with
  | none => rfl
  | some g =>
    simp only
    split
    · split
      · simp [Function.update_of_ne h.symm]
      · simp [Function.update_of_ne h.symm]
    · rfl

/-- Another origin's refund leaves a grant as it is. -/
theorem refund_of_ne {amountSats : Nat} {o origin : O} (h : o ≠ origin) (grants : Grants O)
    (l : Ledger O) :
    ((Webln.refund o amountSats none grants l).1.getD grants) origin = grants origin := by
  unfold Webln.refund
  cases ho : grants o with
  | none => rfl
  | some g => simp [Function.update_of_ne h.symm]

/-- A charge asks for the account, and where the counter is reset for a new day, so is the
history. -/
theorem counts_resetIfNewDay {g : OriginGrant} {b : Book} {clock now : Nat}
    (hcounts : Counts g.spentTodaySats b) (hpaced : Paced ONE_DAY_MS g.lastSpentTimestamp clock b)
    (hclock : clock ≤ now) (hrenewed : (b.ask now).Renewed ONE_DAY_MS now) :
    let book := if ONE_DAY_MS ≤ now - g.lastSpentTimestamp then (b.ask now).reset else b.ask now
    Counts (resetIfNewDay now g).spentTodaySats book ∧
      Paced ONE_DAY_MS (resetIfNewDay now g).lastSpentTimestamp now book ∧
      book.Recent ONE_DAY_MS now ∧ now ∈ book.asked := by
  have hmem : now ∈ (b.ask now).asked := List.mem_append_right _ List.mem_cons_self
  unfold resetIfNewDay
  split
  · have hreset : Paced ONE_DAY_MS now now (b.ask now).reset := hpaced.reset hclock
    exact ⟨(hcounts.ask now).reset, hreset, hreset.recent hrenewed.reset, hmem⟩
  · rename_i hkept
    have hask := hpaced.ask hclock fun hpause => hkept hpause.2
    exact ⟨hcounts.ask now, hask, hask.recent hrenewed, hmem⟩

theorem Capped.Counted.charge {origin : O} {s : Capped O} (h : s.Counted origin)
    {amountSats now : Nat} (hclock : s.clock ≤ now)
    (hin : (CapAction.charge origin amountSats now).InWindow origin s) :
    ∃ g, ((chargeIfWithinCap now origin amountSats s.grants s.ledger).1.getD s.grants) origin =
        some g ∧ Counts g.spentTodaySats (s.bookAfterCharge origin amountSats now) ∧
      Paced ONE_DAY_MS g.lastSpentTimestamp now (s.bookAfterCharge origin amountSats now) := by
  obtain ⟨g, hg, hcounts, hpaced⟩ := h
  obtain ⟨hreset, hpace, hrecent, hasked⟩ := counts_resetIfNewDay hcounts hpaced hclock (hin rfl)
  have hchecked := hreset.check hrecent (resetIfNewDay now g).spendingLimitSats amountSats
  have hpaced' := hpace.check ONE_DAY_MS now (resetIfNewDay now g).spentTodaySats
    (resetIfNewDay now g).spendingLimitSats amountSats
  simp only [chargeIfWithinCap, bookAfterCharge, hg]
  split
  · split
    · exact ⟨_, Function.update_self .., hchecked, hpaced'⟩
    · exact ⟨_, Function.update_self .., hchecked.debit (Nat.le_refl _) now amountSats,
        hpaced'.debit hasked (Nat.le_refl _) amountSats⟩
  · exact ⟨g, hg, hcounts, hpaced.later hclock⟩

theorem Capped.Counted.step {origin : O} {a : CapAction O} {s s' : Capped O}
    (h : s.Counted origin) (hin : a.InWindow origin s) (hs : a.step origin s = some s') :
    s'.Counted origin := by
  cases a with
  | charge o amountSats now =>
    simp only [CapAction.step] at hs
    split at hs
    · rename_i hclock
      cases hs
      by_cases ho : o = origin
      · subst ho
        obtain ⟨g, hg, hcounts, hpaced⟩ := h.charge hclock hin
        exact ⟨g, hg, by simpa using hcounts, by simpa using hpaced⟩
      · obtain ⟨g, hg, hcounts, hpaced⟩ := h
        exact ⟨g, (chargeIfWithinCap_of_ne ho s.grants s.ledger).trans hg, by simpa [ho] using hcounts,
          by simpa [ho] using hpaced.later hclock⟩
    · cases hs
  | refund o amountSats j =>
    obtain ⟨g, hg, hcounts, hpaced⟩ := h
    simp only [CapAction.step] at hs
    split at hs
    · rename_i ho
      subst ho
      split at hs
      · rename_i d hd
        split at hs
        · cases hs
        · rename_i hamount
          cases hs
          simp only [not_or, not_not] at hamount
          refine ⟨{ g with spentTodaySats := g.spentTodaySats - amountSats }, ?_, ?_, hpaced.refund j⟩
          · simp [Webln.refund, hg]
          · rw [← hamount.2]
            exact hcounts.refund hd
      · cases hs
    · rename_i ho
      cases hs
      exact ⟨g, (refund_of_ne ho s.grants s.ledger).trans hg, hcounts, hpaced⟩

/-- In a history whose charges are all in a window, every check counts the last day. -/
theorem Capped.checks_exact {grants : Grants O} {origin : O} {spendingLimitSats now : Nat}
    {s : Capped O}
    (hrun : Steps (CapAction.step origin) (CapAction.InWindow origin)
      (Capped.initial grants origin spendingLimitSats now) s) :
    ∀ c ∈ s.book.checks, c.Exact := by
  have hinitial : (Capped.initial grants origin spendingLimitSats now).Counted origin :=
    ⟨_, Function.update_self .., ⟨Nat.zero_le _, nofun⟩, .nil _ _ _⟩
  have hcounted : s.Counted origin := hrun.invariant hinitial fun a s s' h hin hs => h.step hin hs
  obtain ⟨_, _, hcounts, _⟩ := hcounted
  exact hcounts.exact

end LibreWallet.Webln

namespace LibreWallet.Spending

open Async Nwc Webln

/-- Every check of a pairing counts only the debits of one renewal period before it, and
every check of a capped origin only those of one day, where a pause of a whole period comes
between each check and every earlier debit that is a period old and was not refunded. -/
theorem windows_end (limit : Nat) :
    (∀ createdAt renewal (b : Budget),
      Steps BudgetAction.step BudgetAction.InWindow (Budget.initial limit createdAt renewal) b →
        ∀ c ∈ b.book.checks, c.Exact) ∧
    ∀ (O : Type) [DecidableEq O] (grants : Grants O) (origin : O) (now : Nat) (s : Capped O),
      Steps (CapAction.step origin) (CapAction.InWindow origin)
        (Capped.initial grants origin limit now) s → ∀ c ∈ s.book.checks, c.Exact :=
  ⟨fun _ _ _ hrun => Budget.checks_exact hrun,
    fun _ _ _ _ _ _ hrun => Capped.checks_exact hrun⟩

/-! ### A steady spender -/

def HOUR_MS : Nat := 60 * 60 * 1000

/-- 600 sats, 300 more after 23 hours, and 200 after 25. -/
def steady : List BudgetAction :=
  [.request 0 (some 600), .debit, .request (23 * HOUR_MS) (some 300), .debit,
    .request (25 * HOUR_MS) (some 200)]

def steadyCharges : List (CapAction Unit) :=
  [.charge () 600 0, .charge () 300 (23 * HOUR_MS), .charge () 200 (25 * HOUR_MS)]

/-- Two payments a day apart: the second finds an elapsed window. -/
def paused : List BudgetAction :=
  [.request 0 (some 600), .debit, .request (24 * HOUR_MS) (some 600), .debit]

def pausedCharges : List (CapAction Unit) :=
  [.charge () 600 0, .charge () 600 (24 * HOUR_MS)]

theorem windows_end_paused :
    ∃ b, Steps BudgetAction.step BudgetAction.InWindow (Budget.initial 1000 0 (some .daily)) b ∧
      b.book.checks.length = 2 ∧ (∀ c ∈ b.book.checks, c.refused = false) ∧
      (∀ c ∈ b.book.checks, c.Exact) ∧
      ∃ s, Steps (CapAction.step ()) (CapAction.InWindow ())
          (Capped.initial (fun _ => none) () 1000 0) s ∧
        s.book.checks.length = 2 ∧ ∀ c ∈ s.book.checks, c.Exact := by
  obtain ⟨b, hrun, hb⟩ := Steps.exists_of_play BudgetAction.step
    (fun a b => decide (a.InWindow b)) (Budget.initial 1000 0 (some .daily)) paused
    (fun b => decide (b.book.checks.length = 2 ∧ ∀ c ∈ b.book.checks, c.refused = false)) (by decide)
  have hrun := hrun.mono fun a b h => of_decide_eq_true h
  obtain ⟨hlen, hpass⟩ := of_decide_eq_true hb
  obtain ⟨s, hcharge, hs⟩ := Steps.exists_of_play (CapAction.step ())
    (fun a s => decide (a.InWindow () s)) (Capped.initial (fun _ => none) () 1000 0)
    pausedCharges (fun s => decide (s.book.checks.length = 2)) (by decide)
  have hcharge := hcharge.mono fun a s h => of_decide_eq_true h
  exact ⟨b, hrun, hlen, hpass, (windows_end 1000).1 0 (some .daily) b hrun,
    s, hcharge, of_decide_eq_true hs, (windows_end 1000).2 Unit (fun _ => none) () 0 s hcharge⟩

/-- 200 sats refused, with 300 spent in the last period. -/
def wrongRefusal : Check := ⟨900, 300, 200, 1000, true⟩

/-- Both refuse 200 sats after 25 hours, with 300 of 1000 spent in the last 24. -/
theorem not_windows_end_steady :
    (∃ b, Steps BudgetAction.step (fun _ _ => True) (Budget.initial 1000 0 (some .daily)) b ∧
      ∃ c ∈ b.book.checks, c.refused = true ∧ c.net = 300 ∧ c.amount = 200 ∧ c.limit = 1000 ∧
        ¬ c.Exact) ∧
    ∃ s, Steps (CapAction.step ()) (fun _ _ => True)
        (Capped.initial (fun _ => none) () 1000 0) s ∧
      ∃ c ∈ s.book.checks, c.refused = true ∧ c.net = 300 ∧ c.amount = 200 ∧ c.limit = 1000 ∧
        ¬ c.Exact := by
  have hwrong : ¬ wrongRefusal.Exact := fun h => absurd h.1 (by decide)
  obtain ⟨b, hrun, hb⟩ := Steps.exists_of_play BudgetAction.step (fun _ _ => true)
    (Budget.initial 1000 0 (some .daily)) steady (fun b => decide (wrongRefusal ∈ b.book.checks)) (by decide)
  obtain ⟨s, hrun', hs⟩ := Steps.exists_of_play (CapAction.step ()) (fun _ _ => true)
    (Capped.initial (fun _ => none) () 1000 0) steadyCharges
    (fun s => decide (wrongRefusal ∈ s.book.checks)) (by decide)
  exact ⟨⟨b, hrun.mono fun _ _ _ => trivial, wrongRefusal, of_decide_eq_true hb, rfl, rfl, rfl, rfl,
      hwrong⟩,
    s, hrun'.mono fun _ _ _ => trivial, wrongRefusal, of_decide_eq_true hs, rfl, rfl, rfl, rfl,
      hwrong⟩

end LibreWallet.Spending
