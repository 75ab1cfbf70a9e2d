import Mathlib.Algebra.BigOperators.Group.List.Basic
import Mathlib.Algebra.GroupWithZero.Nat
import Mathlib.Data.List.Basic

/-
  Spending/Account.lean --- a spending counter against the exact history.

  A book keeps when an account was asked for, and every debit with its time, whether it was
  refunded, and whether the counter has been reset since.  A check compares the counter it
  was made with against what was net debited in one period before it.

  A counter that is reset after a pause, and only then, counts every debit that no pause has
  followed.  `Renewed` says of the times alone that this is no more than the last period.

  Nothing here names a particular program.
-/

set_option autoImplicit false

namespace LibreWallet.Spending

structure Debit where
  at_ : Nat
  amount : Nat
  refunded : Bool := false
  /-- The counter has not been reset since. -/
  counted : Bool := true
  deriving DecidableEq, Repr

/-- A budget check, with what was net debited in the period before it. -/
structure Check where
  counter : Nat
  net : Nat
  amount : Nat
  limit : Nat
  refused : Bool
  deriving DecidableEq, Repr

structure Book where
  /-- When the account was asked for. -/
  asked : List Nat := []
  debits : List Debit := []
  checks : List Check := []
  deriving DecidableEq, Repr

/-- The debit was made within one period before `now`. -/
def Debit.within (period now : Nat) (d : Debit) : Bool := now < d.at_ + period

/-- What a debit counts since the last reset. -/
def Debit.weight (d : Debit) : Nat := if d.counted && !d.refunded then d.amount else 0

/-- What a debit counts in the period before `now`. -/
def Debit.weightWithin (period now : Nat) (d : Debit) : Nat :=
  if d.within period now && !d.refunded then d.amount else 0

/-- The counter counts no more than the period before it, and a refusal is right about
that period. -/
def Check.Exact (c : Check) : Prop :=
  c.counter ≤ c.net ∧ (c.refused = true → c.limit < c.net + c.amount)

namespace Book

/-- The net of the debits since the last reset. -/
def netCounted (b : Book) : Nat := (b.debits.map Debit.weight).sum

/-- The net of the debits within one period before `now`. -/
def netWithin (b : Book) (period now : Nat) : Nat :=
  (b.debits.map (Debit.weightWithin period now)).sum

def ask (b : Book) (now : Nat) : Book := { b with asked := b.asked ++ [now] }

def reset (b : Book) : Book :=
  { b with debits := b.debits.map fun d => { d with counted := false } }

def debit (b : Book) (now amount : Nat) : Book :=
  { b with debits := b.debits ++ [{ at_ := now, amount }] }

def refund (b : Book) (j : Nat) : Book :=
  { b with debits := b.debits.modify j fun d => { d with refunded := true } }

/-- A check at `now` of `amount` against `limit`, 0 for no limit. -/
def check (b : Book) (period now counter limit amount : Nat) : Book :=
  { b with
    checks := b.checks ++
      [{ counter, net := b.netWithin period now, amount, limit
         refused := decide (0 < limit ∧ limit < counter + amount) }] }

/-- Every debit that is still counted, and was not refunded, was made within one period. -/
def Recent (b : Book) (period now : Nat) : Prop :=
  ∀ d ∈ b.debits, d.counted = true → d.refunded = false → d.within period now = true

/-- The account was asked for a whole period after every debit before that, `d` among them. -/
def Rested (b : Book) (period : Nat) (d : Debit) : Prop :=
  0 < period ∧ ∃ r ∈ b.asked, d.at_ + period ≤ r ∧ ∀ e ∈ b.debits, e.at_ < r → e.at_ + period ≤ r

/-- Every debit that was not refunded was made within one period, or was followed by a pause of
a whole one. -/
def Renewed (b : Book) (period now : Nat) : Prop :=
  ∀ d ∈ b.debits, d.refunded = false → d.within period now = true ∨ b.Rested period d

instance (b : Book) (period : Nat) (d : Debit) : Decidable (b.Rested period d) :=
  inferInstanceAs (Decidable (_ ∧ ∃ r ∈ b.asked, _))

instance (b : Book) (period now : Nat) : Decidable (b.Renewed period now) :=
  inferInstanceAs (Decidable (∀ d ∈ b.debits, _))

/-! ## The counter against the history -/

theorem netCounted_reset (b : Book) : b.reset.netCounted = 0 := by
  simp [netCounted, reset, Debit.weight, Function.comp_def]

theorem netCounted_debit (b : Book) (now amount : Nat) :
    (b.debit now amount).netCounted = b.netCounted + amount := by
  simp [netCounted, debit, Debit.weight]

/-- A refund takes off the net at most what it pays back. -/
theorem netCounted_refund {b : Book} {j : Nat} {d : Debit} (h : b.debits[j]? = some d) :
    b.netCounted ≤ (b.refund j).netCounted + d.amount := by
  simp only [netCounted, refund]
  generalize b.debits = debits at h
  induction debits generalizing j with
  | nil => simp at h
  | cons e debits ih =>
    cases j with
    | zero =>
      obtain rfl : e = d := by simpa using h
      have hle : e.weight ≤ e.amount := by
        unfold Debit.weight
        split <;> omega
      simp only [List.modify_zero_cons, List.map_cons, List.sum_cons]
      omega
    | succ j =>
      have := ih (j := j) (by simpa using h)
      simp only [List.modify_succ_cons, List.map_cons, List.sum_cons]
      omega

/-- The refund of a debit that is counted, and was not refunded, takes off its amount. -/
theorem netCounted_refund_of_counted {b : Book} {j : Nat} {d : Debit} (h : b.debits[j]? = some d)
    (hcounted : d.counted = true) (hrefunded : d.refunded = false) :
    b.netCounted = (b.refund j).netCounted + d.amount := by
  simp only [netCounted, refund]
  generalize b.debits = debits at h
  induction debits generalizing j with
  | nil => simp at h
  | cons e debits ih =>
    cases j with
    | zero =>
      obtain rfl : e = d := by simpa using h
      simp only [List.modify_zero_cons, List.map_cons, List.sum_cons, Debit.weight, hcounted, hrefunded]
      simp only [Bool.not_false, Bool.and_self, if_true, Bool.not_true, Bool.and_false, Bool.false_eq_true,
        if_false]
      omega
    | succ j =>
      have hrest := ih (j := j) (by simpa using h)
      simp only [List.modify_succ_cons, List.map_cons, List.sum_cons]
      omega

/-- Where only recent debits are counted, the last period has them all. -/
theorem netCounted_le_netWithin {b : Book} {period now : Nat} (h : b.Recent period now) :
    b.netCounted ≤ b.netWithin period now := by
  unfold Recent at h
  simp only [netCounted, netWithin]
  generalize b.debits = debits at h
  induction debits with
  | nil => simp
  | cons d debits ih =>
    have hrest := ih fun e he => h e (by simp [he])
    have hd : d.weight ≤ d.weightWithin period now := by
      unfold Debit.weight Debit.weightWithin
      have := h d (by simp)
      by_cases hc : d.counted = true <;> by_cases hr : d.refunded = true <;> simp_all
    simp only [List.map_cons, List.sum_cons]
    omega

/-- A counter that has no more than the last period makes an exact check. -/
theorem exact_check {b : Book} (h : ∀ c ∈ b.checks, c.Exact) {period now counter : Nat}
    (hle : counter ≤ b.netWithin period now) (limit amount : Nat) :
    ∀ c ∈ (b.check period now counter limit amount).checks, c.Exact := by
  intro c hc
  simp only [check, List.mem_append, List.mem_singleton] at hc
  rcases hc with hc | rfl
  · exact h c hc
  · refine ⟨hle, ?_⟩
    simp only [decide_eq_true_eq]
    omega

end Book

/-- A reset changes no time. -/
theorem Book.Renewed.reset {b : Book} {period now : Nat} (h : b.Renewed period now) :
    b.reset.Renewed period now := by
  intro d hd hrefunded
  obtain ⟨e, he, rfl⟩ := List.mem_map.mp hd
  refine (h e he hrefunded).imp_right fun ⟨hperiod, r, hr, hle, hall⟩ => ?_
  refine ⟨hperiod, r, hr, hle, fun x hx hlt => ?_⟩
  obtain ⟨y, hy, rfl⟩ := List.mem_map.mp hx
  exact hall y hy hlt

/-! ## Pauses -/

/-- The counter of a book was last touched at `last`: it is reset when an ask finds that a whole
period has passed since. -/
structure Paced (period last clock : Nat) (b : Book) : Prop where
  touched : (∃ d ∈ b.debits, last ≤ d.at_) ∨ ∀ d ∈ b.debits, d.counted = false
  asked : ∀ d ∈ b.debits, d.at_ ∈ b.asked
  clocked : ∀ r ∈ b.asked, r ≤ clock
  rested : ∀ d ∈ b.debits, b.Rested period d → d.counted = false

namespace Paced

variable {period last clock now : Nat} {b : Book}

theorem nil (period last clock : Nat) : Paced period last clock {} where
  touched := .inr nofun
  asked := nofun
  clocked := nofun
  rested := nofun

/-- What is counted, and was not refunded, is recent. -/
theorem recent (h : Paced period last clock b) (hrenewed : b.Renewed period now) :
    b.Recent period now := by
  intro d hd hcounted hrefunded
  rcases hrenewed d hd hrefunded with hwithin | hrested
  · exact hwithin
  · have huncounted := h.rested d hd hrested
    rw [hcounted] at huncounted
    cases huncounted

/-- Time passes. -/
theorem later {clock' : Nat} (h : Paced period last clock b) (hclock : clock ≤ clock') :
    Paced period last clock' b :=
  ⟨h.touched, h.asked, fun r hr => Nat.le_trans (h.clocked r hr) hclock, h.rested⟩

theorem clocked_ask (h : Paced period last clock b) (hclock : clock ≤ now) :
    ∀ r ∈ (b.ask now).asked, r ≤ now := by
  intro r hr
  rcases List.mem_append.mp hr with hr | hr
  · exact Nat.le_trans (h.clocked r hr) hclock
  · exact Nat.le_of_eq (List.mem_singleton.mp hr)

/-- An ask that finds no whole period to have passed. -/
theorem ask (h : Paced period last clock b) (hclock : clock ≤ now)
    (hkept : ¬(0 < period ∧ period ≤ now - last)) : Paced period last now (b.ask now) where
  touched := h.touched
  asked d hd := List.mem_append_left _ (h.asked d hd)
  clocked := h.clocked_ask hclock
  rested := by
    rintro d hd ⟨hperiod, r, hr, hle, hall⟩
    by_cases hold : r ∈ b.asked
    · exact h.rested d hd ⟨hperiod, r, hold, hle, hall⟩
    · -- `r` is `now`, and no debit was made now: one after `last` would have been a pause ago
      obtain rfl : r = now := List.mem_singleton.mp ((List.mem_append.mp hr).resolve_left hold)
      rcases h.touched with ⟨e, he, hlast⟩ | huncounted
      · have hbefore : e.at_ ≤ clock := h.clocked _ (h.asked e he)
        have hne : e.at_ ≠ r := fun heq => hold (heq ▸ h.asked e he)
        have hpause := hall e he (by omega)
        omega
      · exact huncounted d hd

/-- After a reset nothing is counted. -/
theorem reset {last' : Nat} (h : Paced period last clock b) (hclock : clock ≤ now) :
    Paced period last' now (b.ask now).reset where
  touched := .inr fun d hd => by
    obtain ⟨e, -, rfl⟩ := List.mem_map.mp hd
    rfl
  asked d hd := by
    obtain ⟨e, he, rfl⟩ := List.mem_map.mp hd
    exact List.mem_append_left _ (h.asked e he)
  clocked := h.clocked_ask hclock
  rested d hd _ := by
    obtain ⟨e, -, rfl⟩ := List.mem_map.mp hd
    rfl

theorem debit (h : Paced period last clock b) (hnow : now ∈ b.asked) (hclock : clock ≤ now)
    (amount : Nat) : Paced period now clock (b.debit now amount) where
  touched := .inl ⟨_, List.mem_append_right _ List.mem_cons_self, Nat.le_refl now⟩
  asked d hd := by
    rcases List.mem_append.mp hd with hd | hd
    · exact h.asked d hd
    · rw [List.mem_singleton.mp hd]
      exact hnow
  clocked := h.clocked
  rested := by
    rintro d hd ⟨hperiod, r, hr, hle, hall⟩
    rcases List.mem_append.mp hd with hd | hd
    · exact h.rested d hd ⟨hperiod, r, hr, hle, fun e he => hall e (List.mem_append_left _ he)⟩
    · have hbefore := h.clocked r hr
      rw [List.mem_singleton.mp hd] at hle
      change now + period ≤ r at hle
      omega

theorem mem_refund {j : Nat} {d : Debit} (h : d ∈ (b.refund j).debits) :
    ∃ e ∈ b.debits, e.at_ = d.at_ ∧ e.counted = d.counted := by
  obtain ⟨i, hi⟩ := List.mem_iff_getElem?.mp h
  simp only [Book.refund, List.getElem?_modify] at hi
  obtain ⟨e, he, hed⟩ := Option.map_eq_some_iff.mp hi
  refine ⟨e, List.mem_of_getElem? he, ?_⟩
  subst hed
  split <;> exact ⟨rfl, rfl⟩

theorem mem_of_refund {e : Debit} (h : e ∈ b.debits) (j : Nat) :
    ∃ d ∈ (b.refund j).debits, d.at_ = e.at_ := by
  obtain ⟨i, hi⟩ := List.mem_iff_getElem?.mp h
  have hmodified : (b.refund j).debits[i]? =
      some (if j = i then { e with refunded := true } else e) := by
    simp only [Book.refund, List.getElem?_modify, hi, Option.map_eq_map, Option.map_some]
  refine ⟨_, List.mem_of_getElem? hmodified, ?_⟩
  split <;> rfl

theorem refund (h : Paced period last clock b) (j : Nat) :
    Paced period last clock (b.refund j) where
  touched := by
    rcases h.touched with ⟨e, he, hlast⟩ | huncounted
    · obtain ⟨d, hd, hat⟩ := mem_of_refund he j
      exact .inl ⟨d, hd, hat ▸ hlast⟩
    · refine .inr fun d hd => ?_
      obtain ⟨e, he, -, hcounted⟩ := mem_refund hd
      exact hcounted ▸ huncounted e he
  asked d hd := by
    obtain ⟨e, he, hat, -⟩ := mem_refund hd
    exact hat ▸ h.asked e he
  clocked := h.clocked
  rested := by
    rintro d hd ⟨hperiod, r, hr, hle, hall⟩
    obtain ⟨e, he, hat, hcounted⟩ := mem_refund hd
    rw [← hcounted]
    refine h.rested e he ⟨hperiod, r, hr, hat ▸ hle, fun x hx hlt => ?_⟩
    obtain ⟨y, hy, hyx⟩ := mem_of_refund hx j
    rw [← hyx]
    exact hall y hy (hyx ▸ hlt)

theorem check (h : Paced period last clock b) (window now counter limit amount : Nat) :
    Paced period last clock (b.check window now counter limit amount) :=
  ⟨h.touched, h.asked, h.clocked, h.rested⟩

end Paced

/-! ## The two ways a counter goes on -/

/-- The counter has no more than the debits since the last reset, and every check so far
was exact. -/
structure Counts (spent : Nat) (b : Book) : Prop where
  counted : spent ≤ b.netCounted
  exact : ∀ c ∈ b.checks, c.Exact

namespace Counts

variable {spent : Nat} {b : Book}

theorem ask (h : Counts spent b) (now : Nat) : Counts spent (b.ask now) := ⟨h.counted, h.exact⟩

theorem reset (h : Counts spent b) : Counts 0 b.reset where
  counted := by omega
  exact := h.exact

theorem debit (h : Counts spent b) {counter : Nat} (hle : counter ≤ spent) (now amount : Nat) :
    Counts (counter + amount) (b.debit now amount) where
  counted := by
    have := h.counted
    rw [Book.netCounted_debit]
    omega
  exact := h.exact

theorem refund (h : Counts spent b) {j : Nat} {d : Debit} (hj : b.debits[j]? = some d) :
    Counts (spent - d.amount) (b.refund j) where
  counted := by
    have := h.counted
    have := Book.netCounted_refund hj
    omega
  exact := h.exact

/-- A check of a counter that has only recent debits. -/
theorem check (h : Counts spent b) {period now : Nat} (hrecent : b.Recent period now)
    (limit amount : Nat) : Counts spent (b.check period now spent limit amount) where
  counted := h.counted
  exact := by
    have hle := Nat.le_trans h.counted (Book.netCounted_le_netWithin hrecent)
    exact Book.exact_check h.exact hle limit amount

end Counts

end LibreWallet.Spending
