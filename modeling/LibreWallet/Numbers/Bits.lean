import Mathlib

/-
  Numbers/Bits.lean --- numbers as groups of bits, the most significant first.

  A list of numbers below `2 ^ n` is the list of its bits, `n` for each; it is regrouped when its bits stay,
  but for zeros at the end.

  Nothing here names a particular program.
-/

set_option autoImplicit false

namespace LibreWallet.Numbers

/-- The low `n` bits of a number, the most significant first. -/
def bits : Nat → Nat → List Bool
  | 0, _ => []
  | n + 1, v => v.testBit n :: bits n v

def ofBits (bs : List Bool) : Nat := bs.foldl (fun v b => 2 * v + b.toNat) 0

section Bits

variable {m n v w : Nat} {bs cs : List Bool}

@[simp] theorem length_bits (n v : Nat) : (bits n v).length = n := by
  induction n with
  | zero => rfl
  | succ n ih => rw [bits, List.length_cons, ih]

theorem bits_congr (h : ∀ i < n, v.testBit i = w.testBit i) : bits n v = bits n w := by
  induction n with
  | zero => rfl
  | succ n ih => rw [bits, bits, h n (Nat.lt_succ_self n), ih fun i hi => h i (Nat.lt_succ_of_lt hi)]

theorem testBit_of_bits (h : bits n v = bits n w) : ∀ i < n, v.testBit i = w.testBit i := by
  induction n with
  | zero => exact fun i hi => absurd hi (Nat.not_lt_zero i)
  | succ n ih =>
    rw [bits, bits] at h
    obtain ⟨htop, hrest⟩ := List.cons.inj h
    intro i hi
    rcases Nat.lt_succ_iff_lt_or_eq.mp hi with hi | rfl
    · exact ih hrest i hi
    · exact htop

/-- Numbers of `n` bits are told apart by them. -/
theorem bits_injective (hv : v < 2 ^ n) (hw : w < 2 ^ n) (h : bits n v = bits n w) : v = w := by
  refine Nat.eq_of_testBit_eq fun i => ?_
  by_cases hi : i < n
  · exact testBit_of_bits h i hi
  · have hle : 2 ^ n ≤ 2 ^ i := Nat.pow_le_pow_right (by decide) (Nat.le_of_not_lt hi)
    rw [Nat.testBit_lt_two_pow (hv.trans_le hle), Nat.testBit_lt_two_pow (hw.trans_le hle)]

theorem bits_add (m n v : Nat) : bits (m + n) v = bits m (v >>> n) ++ bits n v := by
  induction m with
  | zero => rw [Nat.zero_add, bits, List.nil_append]
  | succ m ih => rw [Nat.succ_add, bits, bits, ih, Nat.testBit_shiftRight, Nat.add_comm n m, List.cons_append]

theorem bits_zero (n : Nat) : bits n 0 = List.replicate n false := by
  induction n with
  | zero => rfl
  | succ n ih => rw [bits, ih, Nat.zero_testBit, List.replicate_succ]

theorem ofBits_concat (bs : List Bool) (b : Bool) : ofBits (bs ++ [b]) = 2 * ofBits bs + b.toNat := by
  rw [ofBits, ofBits, List.foldl_append]
  rfl

theorem ofBits_append (bs cs : List Bool) : ofBits (bs ++ cs) = ofBits bs * 2 ^ cs.length + ofBits cs := by
  induction cs using List.reverseRecOn with
  | nil => simp [ofBits]
  | append_singleton cs b ih =>
    rw [← List.append_assoc, ofBits_concat, ih, ofBits_concat, List.length_append, List.length_singleton,
      Nat.pow_succ]
    ring

theorem ofBits_bits (n v : Nat) : ofBits (bits n v) = v % 2 ^ n := by
  induction n with
  | zero => rw [bits, Nat.pow_zero, Nat.mod_one]; rfl
  | succ n ih =>
    have hcons : bits (n + 1) v = [v.testBit n] ++ bits n v := rfl
    rw [hcons, ofBits_append, ih, length_bits]
    have htop : ofBits [v.testBit n] = v / 2 ^ n % 2 := by
      rw [← Nat.toNat_testBit]
      simp [ofBits]
    rw [htop, Nat.pow_succ, Nat.mod_mul]
    ring

theorem ofBits_bits_of_lt (h : v < 2 ^ n) : ofBits (bits n v) = v := by
  rw [ofBits_bits, Nat.mod_eq_of_lt h]

end Bits

/-! ## Groups -/

section Groups

variable {n : Nat} {xs ys : List Nat}

theorem length_flatMap_bits (n : Nat) (xs : List Nat) : (xs.flatMap (bits n)).length = n * xs.length := by
  induction xs with
  | nil => rfl
  | cons x xs ih => rw [List.flatMap_cons, List.length_append, length_bits, ih, List.length_cons, Nat.mul_succ, Nat.add_comm]

/-- A list of numbers of `n` bits is told apart from others by its bits. -/
theorem flatMap_bits_injective (hn : 0 < n) (hxs : ∀ x ∈ xs, x < 2 ^ n) (hys : ∀ y ∈ ys, y < 2 ^ n)
    (h : xs.flatMap (bits n) = ys.flatMap (bits n)) : xs = ys := by
  induction xs generalizing ys with
  | nil =>
    have hlen := congrArg List.length h
    rw [length_flatMap_bits, length_flatMap_bits, List.length_nil, Nat.mul_zero] at hlen
    exact (List.length_eq_zero_iff.mp ((Nat.mul_eq_zero.mp hlen.symm).resolve_left (Nat.ne_of_gt hn))).symm
  | cons x xs ih =>
    cases ys with
    | nil =>
      have hlen := congrArg List.length h
      rw [length_flatMap_bits, length_flatMap_bits, List.length_nil, Nat.mul_zero, List.length_cons] at hlen
      exact absurd hlen (Nat.mul_ne_zero (Nat.ne_of_gt hn) (Nat.succ_ne_zero _))
    | cons y ys =>
      rw [List.flatMap_cons, List.flatMap_cons] at h
      obtain ⟨hhead, htail⟩ := List.append_inj h (by rw [length_bits, length_bits])
      have hxy : x = y := bits_injective (hxs x List.mem_cons_self) (hys y List.mem_cons_self) hhead
      rw [hxy, ih (fun z hz => hxs z (List.mem_cons_of_mem _ hz)) (fun z hz => hys z (List.mem_cons_of_mem _ hz)) htail]

/-- `ys` holds the bits of `xs`, `n` in place of `m` to a number, and zeros up to the end of the last. -/
structure Regroups (m n : Nat) (xs ys : List Nat) : Prop where
  lt : ∀ y ∈ ys, y < 2 ^ n
  bits_eq : ∃ pad < n, ys.flatMap (bits n) = xs.flatMap (bits m) ++ List.replicate pad false

namespace Regroups

variable {m : Nat} {zs : List Nat}

theorem length (h : Regroups m n xs ys) : ∃ pad < n, n * ys.length = m * xs.length + pad := by
  obtain ⟨pad, hpad, hbits⟩ := h.bits_eq
  have hlen := congrArg List.length hbits
  rw [length_flatMap_bits, List.length_append, length_flatMap_bits, List.length_replicate] at hlen
  exact ⟨pad, hpad, hlen⟩

/-- Where the bits fill the last group there are no zeros. -/
theorem exact (h : Regroups m n xs ys) (hdvd : n ∣ m * xs.length) : ys.flatMap (bits n) = xs.flatMap (bits m) := by
  obtain ⟨pad, hpad, hbits⟩ := h.bits_eq
  have hlen := congrArg List.length hbits
  rw [length_flatMap_bits, List.length_append, length_flatMap_bits, List.length_replicate] at hlen
  have hzero : n ∣ pad := (Nat.dvd_add_right hdvd).mp (hlen ▸ Nat.dvd_mul_right n ys.length)
  rw [hbits, Nat.eq_zero_of_dvd_of_lt hzero hpad, List.replicate_zero, List.append_nil]

/-- There is one regrouping. -/
theorem unique (h : Regroups m n xs ys) (h' : Regroups m n xs zs) : ys = zs := by
  obtain ⟨pad, hpad, hbits⟩ := h.bits_eq
  obtain ⟨pad', hpad', hbits'⟩ := h'.bits_eq
  have hn : 0 < n := Nat.lt_of_le_of_lt (Nat.zero_le _) hpad
  have hlen := congrArg List.length hbits
  have hlen' := congrArg List.length hbits'
  rw [length_flatMap_bits, List.length_append, length_flatMap_bits, List.length_replicate] at hlen hlen'
  have hmod : pad ≡ pad' [MOD n] := by
    refine Nat.ModEq.add_left_cancel' (m * xs.length) ?_
    rw [Nat.ModEq, ← hlen, ← hlen', Nat.mul_mod_right, Nat.mul_mod_right]
  have hsame : pad = pad' := Nat.ModEq.eq_of_lt_of_lt hmod hpad hpad'
  exact flatMap_bits_injective hn h.lt h'.lt (by rw [hbits, hbits', hsame])

/-- A regrouping without zeros is undone by regrouping again. -/
theorem round_trip (h : Regroups m n xs ys) (h' : Regroups n m ys zs) (hdvd : n ∣ m * xs.length) (hm : 0 < m)
    (hlt : ∀ x ∈ xs, x < 2 ^ m) : zs = xs := by
  have hback : Regroups n m ys xs := by
    refine ⟨hlt, 0, hm, ?_⟩
    rw [h.exact hdvd, List.replicate_zero, List.append_nil]
  exact h'.unique hback

end Regroups

end Groups

end LibreWallet.Numbers
