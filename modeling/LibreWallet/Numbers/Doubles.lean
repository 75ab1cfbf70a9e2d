import Mathlib

/-
  Numbers/Doubles.lean --- the whole numbers among the doubles.

  Fifty-three bits of significand, rounding to the nearest and of two to the even one, infinity past the
  largest finite value.  Sums and products are the exact ones, rounded.

  Nothing here names a particular program.
-/

set_option autoImplicit false

namespace LibreWallet.Numbers

/-- A double that is a natural number, infinity or not a number. -/
inductive Double where
  | fin (n : Nat)
  | inf
  | nan
  deriving DecidableEq, Repr

/-- The nearest multiple of `2 ^ e`, and of two the one with the even quotient. -/
def nearest (e n : Nat) : Nat :=
  if 2 ^ e < 2 * (n % 2 ^ e) ∨ (2 ^ e = 2 * (n % 2 ^ e) ∧ n / 2 ^ e % 2 = 1) then (n / 2 ^ e + 1) * 2 ^ e
  else n / 2 ^ e * 2 ^ e

/-- The double of a natural number. -/
def round (n : Nat) : Double :=
  if (nearest (n.log2 - 52) n).log2 < 1024 then .fin (nearest (n.log2 - 52) n) else .inf

namespace Double

def add : Double → Double → Double
  | .nan, _ => .nan
  | _, .nan => .nan
  | .fin m, .fin n => round (m + n)
  | _, _ => .inf

/-- Infinity times zero is not a number. -/
def mul : Double → Double → Double
  | .nan, _ => .nan
  | _, .nan => .nan
  | .fin m, .fin n => round (m * n)
  | .fin m, .inf => if m = 0 then .nan else .inf
  | .inf, .fin n => if n = 0 then .nan else .inf
  | .inf, .inf => .inf

/-- `Math.floor` of the quotient by `2 ^ k`, which is exact. -/
def floorDiv (k : Nat) : Double → Double
  | .fin n => .fin (n / 2 ^ k)
  | x => x

/-- `x & (2 ^ k - 1)`, for `k` at most 31: infinity and what is not a number count as zero. -/
def lowBits (k : Nat) : Double → Nat
  | .fin n => n % 2 ^ k
  | _ => 0

/-- `x >= y`, which fails where one is not a number. -/
def ge : Double → Double → Bool
  | .nan, _ => false
  | _, .nan => false
  | .inf, _ => true
  | .fin _, .inf => false
  | .fin m, .fin n => n ≤ m

def gt : Double → Double → Bool
  | .nan, _ => false
  | _, .nan => false
  | _, .inf => false
  | .inf, .fin _ => true
  | .fin m, .fin n => n < m

end Double

/-! ## Rounding -/

section Rounding

variable {d e k n : Nat}

theorem nearest_of_dvd (h : 2 ^ e ∣ n) : nearest e n = n := by
  have hmod : n % 2 ^ e = 0 := Nat.mod_eq_zero_of_dvd h
  have hpos : 0 < 2 ^ e := Nat.two_pow_pos e
  rw [nearest, hmod, if_neg (by omega)]
  exact Nat.div_mul_cancel h

/-- What has few significant bits is exact. -/
theorem round_mul_pow (hd : d < 2 ^ 53) :
    round (d * 2 ^ k) = if (d * 2 ^ k).log2 < 1024 then .fin (d * 2 ^ k) else .inf := by
  have hdvd : 2 ^ ((d * 2 ^ k).log2 - 52) ∣ d * 2 ^ k := by
    rcases Nat.eq_zero_or_pos d with rfl | hpos
    · simp
    · have hlt : d * 2 ^ k < 2 ^ (53 + k) := by
        rw [Nat.pow_add]
        exact Nat.mul_lt_mul_of_pos_right hd (Nat.two_pow_pos k)
      have hne : d * 2 ^ k ≠ 0 := Nat.mul_ne_zero hpos.ne' (Nat.two_pow_pos k).ne'
      have hlog := (Nat.log2_lt hne).mpr hlt
      exact (Nat.pow_dvd_pow 2 (by omega)).trans (Nat.dvd_mul_left _ _)
  rw [round, nearest_of_dvd hdvd]

theorem round_of_lt (h : n < 2 ^ 53) : round n = .fin n := by
  have hround := round_mul_pow (k := 0) h
  have hlog : n.log2 < 1024 := by
    rcases Nat.eq_zero_or_pos n with rfl | hpos
    · decide
    · have hlt := (Nat.log2_lt hpos.ne').mpr h
      omega
  rw [Nat.pow_zero, Nat.mul_one, if_pos hlog] at hround
  exact hround

theorem round_ne_nan : round n ≠ .nan := by
  rw [round]
  split
  · simp
  · simp

/-- What is not below `2 ^ 53` is not rounded below it. -/
theorem le_of_round {v : Nat} (h : 2 ^ 53 ≤ n) (hv : round n = .fin v) : 2 ^ 53 ≤ v := by
  have hne : n ≠ 0 := by
    have hpos := Nat.two_pow_pos 53
    omega
  have hlog : 53 ≤ n.log2 := (Nat.le_log2 hne).mpr h
  have hquot : 2 ^ 52 ≤ n / 2 ^ (n.log2 - 52) := by
    rw [Nat.le_div_iff_mul_le (Nat.two_pow_pos _), ← Nat.pow_add, Nat.add_sub_cancel' (by omega)]
    exact Nat.log2_self_le hne
  have hfloor : 2 ^ 53 ≤ n / 2 ^ (n.log2 - 52) * 2 ^ (n.log2 - 52) := by
    calc 2 ^ 53 ≤ 2 ^ (52 + (n.log2 - 52)) := Nat.pow_le_pow_right (by norm_num) (by omega)
      _ = 2 ^ 52 * 2 ^ (n.log2 - 52) := Nat.pow_add _ _ _
      _ ≤ n / 2 ^ (n.log2 - 52) * 2 ^ (n.log2 - 52) := Nat.mul_le_mul_right _ hquot
  have hnearest : n / 2 ^ (n.log2 - 52) * 2 ^ (n.log2 - 52) ≤ nearest (n.log2 - 52) n := by
    rw [nearest]
    split
    · exact Nat.mul_le_mul_right _ (Nat.le_succ _)
    · exact le_rfl
  rw [round] at hv
  split at hv
  · obtain rfl := Double.fin.inj hv
    exact hfloor.trans hnearest
  · cases hv

/-- A safe integer is compared with the number itself. -/
theorem round_gt (hk : k < 2 ^ 53) : (round n).gt (.fin k) = decide (k < n) := by
  rcases Nat.lt_or_ge n (2 ^ 53) with hn | hn
  · rw [round_of_lt hn]
    rfl
  · have hlt : k < n := hk.trans_le hn
    cases hround : round n with
    | fin v =>
      have hv := le_of_round hn hround
      simp [Double.gt, hlt, hk.trans_le hv]
    | inf => simp [Double.gt, hlt]
    | nan => exact absurd hround round_ne_nan

end Rounding

/-! ## Signed numbers -/

/-- A double that is an integer, or infinite. -/
inductive Whole where
  | integer (v : ℤ)
  | infinite
  deriving DecidableEq, Repr

/-- The double of an integer. -/
def toDouble (v : ℤ) : Whole :=
  match round v.natAbs with
  | .fin n => .integer (if v < 0 then -n else n)
  | _ => .infinite

/-- A safe integer is its own double. -/
theorem toDouble_of_safe {v : ℤ} (h : v.natAbs < 2 ^ 53) : toDouble v = .integer v := by
  simp only [toDouble, round_of_lt h]
  congr 1
  split
  · omega
  · omega

end LibreWallet.Numbers
