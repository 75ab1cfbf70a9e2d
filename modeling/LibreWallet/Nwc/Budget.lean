import LibreWallet.Async.System
import LibreWallet.Spending.Account

/-
  Nwc/Budget.lean --- the spending budget of a pairing.

  The budget half of `NwcManager` in `libre-listener-wallet/src/nwc-manager.ts`, with
  `budgetWindowElapsed` of `shared/src/nwc-schema.ts`.  A request resets the counter where
  the window has elapsed and checks it; its debit writes back the counter of its check; a
  refund subtracts from whatever the counter is by then.  One client's requests reserve
  their budget one after another.
-/

set_option autoImplicit false

namespace LibreWallet.Nwc

open Async Spending

/-! ## The window -/

inductive BudgetRenewal where
  | never
  | daily
  | weekly
  | monthly
  | yearly
  deriving DecidableEq, Repr

/-- `RENEWAL_WINDOW_MS` -/
def BudgetRenewal.windowMs : BudgetRenewal → Option Nat
  | .never => none
  | .daily => some (24 * 60 * 60 * 1000)
  | .weekly => some (7 * 24 * 60 * 60 * 1000)
  | .monthly => some (30 * 24 * 60 * 60 * 1000)
  | .yearly => some (365 * 24 * 60 * 60 * 1000)

def budgetWindowElapsed (renewal : Option BudgetRenewal) (lastSpentTimestamp now : Nat) : Bool :=
  match (renewal.getD .daily).windowMs with
  | none => false
  | some window => window ≤ now - lastSpentTimestamp

/-- What the budget reads of an `NwcConnection`. -/
structure Pairing where
  spendingLimitSats : Nat
  spentTodaySats : Nat := 0
  lastSpentTimestamp : Nat
  budgetRenewal : Option BudgetRenewal := none
  deriving DecidableEq, Repr

namespace Pairing

/-- The renewal period; 0 for a budget that never renews. -/
def periodMs (p : Pairing) : Nat := (p.budgetRenewal.getD .daily).windowMs.getD 0

/-- The reset before a request is dispatched. -/
def resetBudget (p : Pairing) (now : Nat) : Pairing :=
  if budgetWindowElapsed p.budgetRenewal p.lastSpentTimestamp now then
    { p with spentTodaySats := 0, lastSpentTimestamp := now }
  else p

/-- The spending limit would be exceeded. -/
def overBudget (p : Pairing) (spentToday amtSats : Nat) : Bool :=
  0 < p.spendingLimitSats && p.spendingLimitSats < spentToday + amtSats

def debitBudget (p : Pairing) (spentToday amtSats now : Nat) : Pairing :=
  { p with spentTodaySats := spentToday + amtSats, lastSpentTimestamp := now }

def refundBudget (p : Pairing) (amtSats : Nat) : Pairing :=
  { p with spentTodaySats := p.spentTodaySats - amtSats }

@[simp] theorem resetBudget_periodMs (p : Pairing) (now : Nat) :
    (p.resetBudget now).periodMs = p.periodMs := by
  unfold resetBudget
  split <;> rfl

end Pairing

/-! ## Histories of one pairing -/

/-- A pay request that passed its check and has not debited yet. -/
structure Checked where
  spentToday : Nat
  amtSats : Nat
  now : Nat
  deriving DecidableEq, Repr

structure Budget where
  pairing : Pairing
  book : Book := {}
  clock : Nat := 0
  checked : Option Checked := none
  deriving DecidableEq, Repr

inductive BudgetAction where
  /-- A request is processed; one that pays checks its amount. -/
  | request (now : Nat) (amtSats : Option Nat)
  | debit
  /-- The request whose amount was checked ends before its debit. -/
  | dropped
  /-- The payment of debit `j` failed for good. -/
  | refund (j : Nat)
  deriving DecidableEq, Repr

/-- The history of a pairing's debits, where its counter is reset. -/
def Budget.bookAfterReset (b : Budget) (now : Nat) : Book :=
  if budgetWindowElapsed b.pairing.budgetRenewal b.pairing.lastSpentTimestamp now then
    (b.book.ask now).reset
  else b.book.ask now

namespace BudgetAction

def step : BudgetAction → Budget → Option Budget
  | .request now amtSats, b =>
    if b.clock ≤ now ∧ b.checked = none then
      let pairing := b.pairing.resetBudget now
      let spentToday := pairing.spentTodaySats
      let book := b.bookAfterReset now
      match amtSats with
      | none => some { b with pairing, book, clock := now }
      | some amt =>
        some { pairing, clock := now
               book := book.check pairing.periodMs now spentToday pairing.spendingLimitSats amt
               checked := if pairing.overBudget spentToday amt then none
                 else some ⟨spentToday, amt, now⟩ }
    else none
  | .debit, b =>
    match b.checked with
    | some c =>
      some { b with
        pairing := b.pairing.debitBudget c.spentToday c.amtSats c.now
        book := b.book.debit c.now c.amtSats
        checked := none }
    | none => none
  | .dropped, b => some { b with checked := none }
  | .refund j, b =>
    match b.book.debits[j]? with
    | some d =>
      if d.refunded then none
      else some { b with pairing := b.pairing.refundBudget d.amount, book := b.book.refund j }
    | none => none

/-- At a request, every debit of a period ago or more was refunded or was followed by a pause of a
whole period; at a debit, no refund came since its check. -/
def InWindow : BudgetAction → Budget → Prop
  | .request now _, b => (b.book.ask now).Renewed b.pairing.periodMs now
  | .debit, b => ∀ c, b.checked = some c → c.spentToday ≤ b.pairing.spentTodaySats
  | _, _ => True

instance : (a : BudgetAction) → (b : Budget) → Decidable (a.InWindow b)
  | .request now _, b => inferInstanceAs (Decidable ((b.book.ask now).Renewed b.pairing.periodMs now))
  | .debit, b =>
    match h : b.checked with
    | none => .isTrue (by simp [InWindow, h])
    | some c => decidable_of_iff (c.spentToday ≤ b.pairing.spentTodaySats) (by simp [InWindow, h])
  | .dropped, _ => .isTrue trivial
  | .refund _, _ => .isTrue trivial

end BudgetAction

/-- A new pairing. -/
def Budget.initial (spendingLimitSats createdAt : Nat) (budgetRenewal : Option BudgetRenewal) :
    Budget where
  pairing := { spendingLimitSats, lastSpentTimestamp := createdAt, budgetRenewal }
  clock := createdAt

/-- The counter has no more than its history, and its timestamp is that of the last debit or
reset. -/
structure Budget.Counted (b : Budget) : Prop where
  counts : Counts b.pairing.spentTodaySats b.book
  paced : Paced b.pairing.periodMs b.pairing.lastSpentTimestamp b.clock b.book
  checked : ∀ c, b.checked = some c → c.now = b.clock ∧ c.now ∈ b.book.asked

/-- The window has elapsed when a whole period has passed. -/
theorem budgetWindowElapsed_iff {p : Pairing} {now : Nat} :
    budgetWindowElapsed p.budgetRenewal p.lastSpentTimestamp now = true ↔
      0 < p.periodMs ∧ p.periodMs ≤ now - p.lastSpentTimestamp := by
  have hpos : ∀ r : BudgetRenewal, r.windowMs = none ∨ ∃ w, r.windowMs = some w ∧ 0 < w := by
    intro r
    cases r with
    | never => exact .inl rfl
    | _ => exact .inr ⟨_, rfl, by decide⟩
  rw [budgetWindowElapsed, Pairing.periodMs]
  rcases hpos (p.budgetRenewal.getD .daily) with hnone | ⟨w, hsome, hw⟩
  · simp [hnone]
  · simp [hsome, hw]

/-- A request asks for the account, and resets it where the window has elapsed. -/
theorem Budget.Counted.reset {b : Budget} (h : b.Counted) {now : Nat} (hclock : b.clock ≤ now) :
    Counts (b.pairing.resetBudget now).spentTodaySats (b.bookAfterReset now) ∧
      Paced b.pairing.periodMs (b.pairing.resetBudget now).lastSpentTimestamp now
        (b.bookAfterReset now) := by
  unfold Pairing.resetBudget Budget.bookAfterReset
  split
  · exact ⟨(h.counts.ask now).reset, h.paced.reset hclock⟩
  · rename_i hkept
    exact ⟨h.counts.ask now, h.paced.ask hclock fun hpause =>
      hkept (budgetWindowElapsed_iff.mpr hpause)⟩

/-- What a reset leaves of the history has no other times. -/
theorem Budget.renewed_reset {b : Budget} {period now : Nat}
    (h : (b.book.ask now).Renewed period now) : (b.bookAfterReset now).Renewed period now := by
  unfold Budget.bookAfterReset
  split
  · exact h.reset
  · exact h

theorem Budget.now_mem_asked (b : Budget) (now : Nat) : now ∈ (b.bookAfterReset now).asked := by
  have hmem : now ∈ (b.book.ask now).asked := List.mem_append_right _ List.mem_cons_self
  unfold Budget.bookAfterReset
  split <;> exact hmem

theorem Budget.Counted.step {a : BudgetAction} {b b' : Budget} (h : b.Counted)
    (hin : a.InWindow b) (hs : a.step b = some b') : b'.Counted := by
  cases a with
  | request now amtSats =>
    simp only [BudgetAction.step] at hs
    split at hs
    · rename_i hready
      obtain ⟨hcounts, hpaced⟩ := h.reset hready.1
      rw [← Pairing.resetBudget_periodMs b.pairing now] at hpaced
      cases amtSats with
      | none =>
        cases hs
        exact ⟨hcounts, hpaced, fun c hc => by simp [hready.2] at hc⟩
      | some amt =>
        have hrecent : (b.bookAfterReset now).Recent (b.pairing.resetBudget now).periodMs now :=
          hpaced.recent (by simpa using Budget.renewed_reset hin)
        cases hs
        refine ⟨hcounts.check hrecent _ amt, hpaced.check _ _ _ _ _, fun c hc => ?_⟩
        simp only at hc
        split at hc
        · cases hc
        · cases hc
          exact ⟨rfl, b.now_mem_asked now⟩
    · cases hs
  | debit =>
    simp only [BudgetAction.step] at hs
    split at hs
    · rename_i c hc
      obtain ⟨hnow, hasked⟩ := h.checked c hc
      cases hs
      exact ⟨h.counts.debit (hin c hc) c.now c.amtSats,
        h.paced.debit hasked (Nat.le_of_eq hnow.symm) c.amtSats, nofun⟩
    · cases hs
  | dropped =>
    cases hs
    exact ⟨h.counts, h.paced, nofun⟩
  | refund j =>
    simp only [BudgetAction.step] at hs
    split at hs
    · rename_i d hd
      split at hs
      · cases hs
      · cases hs
        exact ⟨h.counts.refund hd, h.paced.refund j, h.checked⟩
    · cases hs

/-- In a history whose steps are all in a window, every check counts the last period. -/
theorem Budget.checks_exact {spendingLimitSats createdAt : Nat}
    {budgetRenewal : Option BudgetRenewal} {b : Budget}
    (hrun : Steps BudgetAction.step BudgetAction.InWindow
      (Budget.initial spendingLimitSats createdAt budgetRenewal) b) :
    ∀ c ∈ b.book.checks, c.Exact := by
  have hinitial : (Budget.initial spendingLimitSats createdAt budgetRenewal).Counted :=
    ⟨⟨Nat.zero_le _, nofun⟩, .nil _ _ _, nofun⟩
  have hcounted : b.Counted := hrun.invariant hinitial fun a b b' h hin hs => h.step hin hs
  exact hcounted.counts.exact

end LibreWallet.Nwc
