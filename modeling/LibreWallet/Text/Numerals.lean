import Mathlib

/-
  Text/Numerals.lean --- texts as code units, numerals, and rules on the beginning of a text.

  A rule is a list of classes of code units, one for each unit that it looks at, from the first one
  on: a regular expression anchored at the start whose alternatives are all written out.

  Nothing here names a particular program.
-/

set_option autoImplicit false

namespace LibreWallet.Text

/-- The code units of a literal text. -/
def codes (s : String) : List Nat := s.toList.map Char.toNat

/-! ## Numerals -/

/-- What a digit stands for, with `a` for ten. -/
def digitValue (c : Nat) : Nat := if c < 58 then c - 48 else c - 87

/-- What a numeral stands for in base `b`. -/
def valueOf (b : Nat) (t : List Nat) : Nat := t.foldl (fun v c => v * b + digitValue c) 0

/-- The numeral of a number in base `b`, in lower case. -/
def numeral (b n : Nat) : List Nat := (Nat.toDigits b n).map Char.toNat

/-- The code unit of a digit below sixteen. -/
def digitCode (d : Nat) : Nat := (Nat.digitChar d).toNat

theorem digitValue_digitCode {d : Nat} (h : d < 16) : digitValue (digitCode d) = d := by
  interval_cases d <;> rfl

theorem digitCode_range {d : Nat} (h : d < 16) :
    (48 ≤ digitCode d ∧ digitCode d ≤ 57) ∨ (97 ≤ digitCode d ∧ digitCode d ≤ 102) := by
  interval_cases d <;> decide

theorem digitCode_range_ten {d : Nat} (h : d < 10) : 48 ≤ digitCode d ∧ digitCode d ≤ 57 := by
  interval_cases d <;> decide

section Numeral

variable {b n k : Nat}

theorem numeral_of_lt (h : n < b) : numeral b n = [digitCode n] := by
  rw [numeral, Nat.toDigits_of_lt_base h]
  rfl

/-- The last digit comes off the end. -/
theorem numeral_of_le (hb : 1 < b) (h : b ≤ n) : numeral b n = numeral b (n / b) ++ [digitCode (n % b)] := by
  rw [numeral, Nat.toDigits_of_base_le hb h, List.map_append]
  rfl

theorem numeral_ne_nil : numeral b n ≠ [] := by
  simp [numeral, Nat.toDigits_ne_nil]

theorem length_numeral_le (hb : 1 < b) (hk : 0 < k) (h : n < b ^ k) : (numeral b n).length ≤ k := by
  rw [numeral, List.length_map]
  exact (Nat.length_toDigits_le_iff hb hk).mpr h

/-- Every digit of a numeral is one of the base. -/
theorem mem_numeral (hb : 1 < b) {c : Nat} (hc : c ∈ numeral b n) : ∃ d < b, c = digitCode d := by
  induction n using Nat.strong_induction_on with
  | _ n ih =>
    rcases Nat.lt_or_ge n b with h | h
    · rw [numeral_of_lt h, List.mem_singleton] at hc
      exact ⟨n, h, hc⟩
    · rw [numeral_of_le hb h, List.mem_append, List.mem_singleton] at hc
      rcases hc with hc | hc
      · exact ih (n / b) (Nat.div_lt_self (by omega) hb) hc
      · exact ⟨n % b, Nat.mod_lt n (by omega), hc⟩

theorem mem_numeral_ten {n c : Nat} (hc : c ∈ numeral 10 n) : 48 ≤ c ∧ c ≤ 57 := by
  obtain ⟨d, hd, rfl⟩ := mem_numeral (by decide) hc
  exact digitCode_range_ten hd

/-- A numeral reads back as its number. -/
theorem valueOf_numeral (hb : 1 < b) (hb' : b ≤ 16) : valueOf b (numeral b n) = n := by
  induction n using Nat.strong_induction_on with
  | _ n ih =>
    rcases Nat.lt_or_ge n b with h | h
    · rw [numeral_of_lt h]
      simp [valueOf, digitValue_digitCode (h.trans_le hb')]
    · have hmod : n % b < 16 := (Nat.mod_lt n (by omega)).trans_le hb'
      have hrest := ih (n / b) (Nat.div_lt_self (by omega) hb)
      rw [valueOf] at hrest
      rw [numeral_of_le hb h, valueOf, List.foldl_append, hrest]
      simp only [List.foldl_cons, List.foldl_nil, digitValue_digitCode hmod]
      exact Nat.div_add_mod' n b

end Numeral

/-! ## Rules -/

/-- The code units that may stand in a place. -/
abbrev CharClass := Nat → Bool

def exactly (c : Nat) : CharClass := fun x => x == c

def between (lo hi : Nat) : CharClass := fun x => decide (lo ≤ x) && decide (x ≤ hi)

def digit : CharClass := between 48 57

def hexDigit : CharClass := fun x => between 48 57 x || between 97 102 x

/-- A literal beginning. -/
def literal (s : String) : List CharClass := (codes s).map exactly

/-- The text begins as the rule says. -/
def begins : List CharClass → List Nat → Bool
  | [], _ => true
  | p :: ps, c :: t => p c && begins ps t
  | _ :: _, [] => false

@[simp] theorem begins_nil (t : List Nat) : begins [] t = true := by
  cases t <;> rfl

@[simp] theorem begins_cons_cons (p : CharClass) (ps : List CharClass) (c : Nat) (t : List Nat) :
    begins (p :: ps) (c :: t) = (p c && begins ps t) := rfl

@[simp] theorem begins_cons_nil (p : CharClass) (ps : List CharClass) : begins (p :: ps) [] = false := rfl

@[simp] theorem exactly_apply (c x : Nat) : exactly c x = (x == c) := rfl

@[simp] theorem digit_iff (x : Nat) : digit x = true ↔ 48 ≤ x ∧ x ≤ 57 := by
  simp [digit, between]

theorem begins_literal {s : String} {t : List Nat} : begins (literal s) t = true ↔ codes s <+: t := by
  have key : ∀ (l t : List Nat), begins (l.map exactly) t = true ↔ l <+: t := by
    intro l
    induction l with
    | nil => simp
    | cons c l ih =>
      intro t
      cases t with
      | nil => simp
      | cons x t =>
        rw [List.map_cons, begins_cons_cons, Bool.and_eq_true, ih, List.cons_prefix_cons, exactly_apply,
          beq_iff_eq]
        exact and_congr_left fun _ => eq_comm
  exact key _ _

/-- A numeral does not begin with the letter of a base or a sign. -/
theorem begins_numeral {n : Nat} {p : CharClass} (hp : ∀ c, 48 ≤ c → c ≤ 57 → p c = false) (q : CharClass) :
    begins [q, p] (numeral 10 n) = false ∧ begins [p] (numeral 10 n) = false := by
  obtain ⟨c, t, ht⟩ := List.exists_cons_of_ne_nil (numeral_ne_nil (b := 10) (n := n))
  have hmem : ∀ x ∈ c :: t, p x = false := fun x hx => by
    have hrange := mem_numeral_ten (ht ▸ hx)
    exact hp x hrange.1 hrange.2
  rw [ht]
  refine ⟨?_, by simp [hmem c List.mem_cons_self]⟩
  cases t with
  | nil => simp
  | cons x t => simp [hmem x (by simp)]

end LibreWallet.Text
