import Mathlib.Algebra.BigOperators.Group.List.Basic
import Mathlib.Algebra.GroupWithZero.Nat
import Mathlib.Data.List.Basic

/-
  Webln/Ledger.lean --- what the spending caps are about.

  A ledger of the charges of each origin: a charge belongs to the window between two daily
  resets in which it was made, and a refund takes one charge back.  An admission says what
  was net charged in the window when a charge was admitted, and under which cap.
-/

set_option autoImplicit false

namespace LibreWallet.Webln

structure Charge (O : Type) where
  origin : O
  amount : Nat
  epoch : Nat
  refunded : Bool := false
  deriving DecidableEq, Repr

structure Admission where
  net : Nat
  cap : Option Nat
  deriving DecidableEq, Repr

structure Ledger (O : Type) where
  /-- The cap in force for each origin; 0 is no cap. -/
  granted : O → Option Nat
  /-- How many resets there were. -/
  epoch : O → Nat := fun _ => 0
  charges : List (Charge O) := []
  admissions : List Admission := []

variable {O : Type} [DecidableEq O]

/-- What a charge counts in a window. -/
def Charge.weight (o : O) (epoch : Nat) (c : Charge O) : Nat :=
  if c.origin = o ∧ c.epoch = epoch ∧ c.refunded = false then c.amount else 0

namespace Ledger

/-- The charges since the last reset, less the refunds of those charges. -/
def net (l : Ledger O) (o : O) : Nat := (l.charges.map (Charge.weight o (l.epoch o))).sum

def reset (l : Ledger O) (o : O) : Ledger O :=
  { l with epoch := Function.update l.epoch o (l.epoch o + 1) }

def charge (l : Ledger O) (o : O) (amount : Nat) : Ledger O :=
  let charges := l.charges ++ [{ origin := o, amount, epoch := l.epoch o }]
  { l with
    charges
    admissions := l.admissions ++ [{ net := net { l with charges } o, cap := l.granted o }] }

def refund (l : Ledger O) (j : Nat) : Ledger O :=
  { l with charges := l.charges.modify j fun c => { c with refunded := true } }

def grant (l : Ledger O) (o : O) (limit : Nat) : Ledger O :=
  { l with granted := Function.update l.granted o (some limit) }

def revoke (l : Ledger O) (o : O) : Ledger O :=
  { l with granted := Function.update l.granted o none }

/-- No charge is of a window that has not come. -/
def Timely (l : Ledger O) : Prop := ∀ c ∈ l.charges, c.epoch ≤ l.epoch c.origin

variable {l : Ledger O} {o o' : O}

theorem Timely.reset (h : l.Timely) (o : O) : (l.reset o).Timely := by
  intro c hc
  have hle := h c hc
  simp only [Ledger.reset, Function.update_apply]
  split
  · rename_i ho
    rw [ho] at hle
    omega
  · exact hle

theorem Timely.charge (h : l.Timely) (o : O) (amount : Nat) : (l.charge o amount).Timely := by
  intro c hc
  rcases List.mem_append.mp hc with hold | hnew
  · exact h c hold
  · rw [List.mem_singleton.mp hnew]
    exact Nat.le_refl _

omit [DecidableEq O] in
theorem Timely.refund (h : l.Timely) (j : Nat) : (l.refund j).Timely := by
  intro c hc
  obtain ⟨i, hi⟩ := List.mem_iff_getElem?.mp hc
  simp only [Ledger.refund, List.getElem?_modify] at hi
  obtain ⟨d, hd, hcd⟩ := Option.map_eq_some_iff.mp hi
  have hle := h d (List.mem_of_getElem? hd)
  subst hcd
  split <;> exact hle

theorem net_reset_self (h : l.Timely) (o : O) : (l.reset o).net o = 0 := by
  refine List.sum_eq_zero fun n hn => ?_
  obtain ⟨c, hc, rfl⟩ := List.mem_map.mp hn
  refine if_neg ?_
  rintro ⟨ho, he, -⟩
  have hle := h c hc
  simp only [Ledger.reset, Function.update_self] at he
  rw [ho] at hle
  omega

theorem net_reset_ne (hne : o' ≠ o) : (l.reset o).net o' = l.net o' := by
  simp only [net, Ledger.reset, Function.update_of_ne hne]

theorem net_charge_self (l : Ledger O) (o : O) (amount : Nat) :
    (l.charge o amount).net o = l.net o + amount := by
  simp [net, charge, Charge.weight]

theorem net_charge_ne (hne : o' ≠ o) (amount : Nat) :
    (l.charge o amount).net o' = l.net o' := by
  simp [net, charge, Charge.weight, Ne.symm hne]

/-- A refund takes the weight of its charge back. -/
theorem sum_refund (o : O) (epoch : Nat) (charges : List (Charge O)) (j : Nat) :
    ((charges.modify j fun c => { c with refunded := true }).map (Charge.weight o epoch)).sum +
      (charges[j]?.elim 0 (Charge.weight o epoch)) = (charges.map (Charge.weight o epoch)).sum := by
  induction charges generalizing j with
  | nil => simp
  | cons c cs ih =>
    cases j with
    | zero =>
      simp [Charge.weight]
      omega
    | succ j =>
      have := ih j
      simp only [List.modify_succ_cons, List.map_cons, List.sum_cons, List.getElem?_cons_succ]
      omega

theorem net_refund_le (l : Ledger O) (j : Nat) (o : O) : (l.refund j).net o ≤ l.net o := by
  have := sum_refund o (l.epoch o) l.charges j
  simp only [net, refund]
  omega

/-- The refund of a charge of this window. -/
theorem net_refund {j amount : Nat} (h : l.charges[j]? = some ⟨o, amount, l.epoch o, false⟩) :
    (l.refund j).net o + amount = l.net o := by
  have := sum_refund o (l.epoch o) l.charges j
  rw [h] at this
  simpa [net, refund, Charge.weight] using this

end Ledger

/-- When it was admitted, the charges of the window were within the cap in force. -/
def Admission.WithinCap (a : Admission) : Prop := ∃ cap, a.cap = some cap ∧ (cap = 0 ∨ a.net ≤ cap)

end LibreWallet.Webln
