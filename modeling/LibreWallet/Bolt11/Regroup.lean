import LibreWallet.Numbers.Bits

/-
  Bolt11/Regroup.lean --- five bits to the word and eight to the byte.

  Mirrors `wordsToBytesPadded` and `bytesToWordsPadded` of `libre-listener-wallet/src/bolt11-hints.ts`.  The
  accumulator is an `int32` that is never masked: only its low bits, as many as are still to come out, say
  anything about the input.
-/

set_option autoImplicit false

namespace LibreWallet.Bolt11

open Numbers

/-- `while (bits >= group)`, with what is pushed and the bits that are left; each turn takes bits away. -/
def drain (group : Nat) (mask acc : BitVec 32) : Nat → Nat → List Nat × Nat
  | 0, bits => ([], bits)
  | turns + 1, bits =>
    if group ≤ bits then
      let pushed := ((acc.sshiftRight (bits - group)) &&& mask).toNat
      let (out, left) := drain group mask acc turns (bits - group)
      (pushed :: out, left)
    else ([], bits)

/-- The loop of both functions: `acc = (acc << width) | item`, and the zeros after the last item. -/
def packLoop {α : Type} (width group : Nat) (mask : BitVec 32) (item : α → BitVec 32) :
    List α → BitVec 32 → Nat → List Nat
  | [], acc, bits => if 0 < bits then [((acc <<< (group - bits)) &&& mask).toNat] else []
  | x :: xs, acc, bits =>
    let acc := (acc <<< width) ||| item x
    let (out, left) := drain group mask acc (bits + width) (bits + width)
    out ++ packLoop width group mask item xs acc left

/-- Pack 5-bit words, zero-padding the final byte. -/
def wordsToBytesPadded (words : List Nat) : List UInt8 :=
  (packLoop 5 8 0xff (fun w => BitVec.ofNat 32 w &&& 31) words 0 0).map UInt8.ofNat

def bytesToWordsPadded (bytes : List UInt8) : List Nat :=
  packLoop 8 5 31 (fun b => BitVec.ofNat 32 b.toNat) bytes 0 0

section Loop

variable {width group b : Nat} {mask acc x : BitVec 32}

variable (acc) in
/-- The accumulator takes an item below the bits that it holds. -/
theorem bits_shift_or (hfit : b + width ≤ 32) (hx : x.toNat < 2 ^ width) :
    bits (b + width) ((acc <<< width) ||| x).toNat = bits b acc.toNat ++ bits width x.toNat := by
  have hhigh : ∀ i, width ≤ i → x.getLsbD i = false := by
    intro i hi
    rw [← BitVec.testBit_toNat]
    exact Nat.testBit_lt_two_pow (hx.trans_le (Nat.pow_le_pow_right (by decide) hi))
  rw [bits_add]
  congr 1
  · refine bits_congr fun i hi => ?_
    rw [Nat.testBit_shiftRight, BitVec.testBit_toNat, BitVec.testBit_toNat, BitVec.getLsbD_or,
      BitVec.getLsbD_shiftLeft, hhigh _ (Nat.le_add_right width i), Nat.add_sub_cancel_left]
    simp
    omega
  · refine bits_congr fun i hi => ?_
    rw [BitVec.testBit_toNat, BitVec.testBit_toNat, BitVec.getLsbD_or, BitVec.getLsbD_shiftLeft]
    simp [hi]

/-- A mask of `group` ones keeps the low bits of a number. -/
theorem bits_mask (hmask : mask = BitVec.ofNat 32 (2 ^ group - 1)) (hgroup : group ≤ 32) (y : BitVec 32) :
    bits group (y &&& mask).toNat = bits group y.toNat ∧ (y &&& mask).toNat < 2 ^ group := by
  have hpos : 0 < 2 ^ group := Nat.two_pow_pos group
  have hle : 2 ^ group ≤ 2 ^ 32 := Nat.pow_le_pow_right (by decide) hgroup
  have hvalue : (y &&& mask).toNat = y.toNat % 2 ^ group := by
    rw [BitVec.toNat_and, hmask, BitVec.toNat_ofNat, Nat.mod_eq_of_lt (by omega), Nat.and_two_pow_sub_one_eq_mod]
  rw [hvalue]
  refine ⟨bits_congr fun i hi => ?_, Nat.mod_lt _ hpos⟩
  rw [Nat.testBit_mod_two_pow, decide_eq_true hi, Bool.true_and]

variable (acc) in
/-- What the inner loop pushes are the high bits of those to come, and fewer than a group are left. -/
theorem drain_spec (hmask : mask = BitVec.ofNat 32 (2 ^ group - 1)) (hgroup : 0 < group) (hle : group ≤ 32)
    {turns : Nat} (hturns : b ≤ turns) (hfit : b ≤ 32) :
    (drain group mask acc turns b).2 < group ∧
    (drain group mask acc turns b).1.flatMap (bits group) ++ bits (drain group mask acc turns b).2 acc.toNat =
      bits b acc.toNat ∧
    ∀ y ∈ (drain group mask acc turns b).1, y < 2 ^ group := by
  induction turns generalizing b with
  | zero =>
    obtain rfl := Nat.le_zero.mp hturns
    exact ⟨hgroup, rfl, fun y hy => absurd hy List.not_mem_nil⟩
  | succ turns ih =>
    rw [drain]
    by_cases hmore : group ≤ b
    · have hless : b - group ≤ turns := by omega
      obtain ⟨hleft, hbits, hlt⟩ := ih hless (by omega)
      obtain ⟨hpushed, hbound⟩ := bits_mask hmask hle (acc.sshiftRight (b - group))
      rw [if_pos hmore]
      refine ⟨hleft, ?_, ?_⟩
      · -- the group pushed is the high one: the shift keeps its bits, whatever the sign
        have hshift : bits group (acc.sshiftRight (b - group)).toNat = bits group (acc.toNat >>> (b - group)) := by
          refine bits_congr fun i hi => ?_
          rw [Nat.testBit_shiftRight, BitVec.testBit_toNat, BitVec.testBit_toNat, BitVec.getLsbD_sshiftRight]
          have hin : b - group + i < 32 := by omega
          have hin' : ¬32 ≤ i := by omega
          simp [hin, hin']
        have hsplit := bits_add group (b - group) acc.toNat
        rw [Nat.add_sub_cancel' hmore] at hsplit
        simp only [List.flatMap_cons, List.append_assoc]
        rw [hbits, hpushed, hshift, hsplit]
      · intro y hy
        rcases List.mem_cons.mp hy with rfl | hy
        · exact hbound
        · exact hlt y hy
    · rw [if_neg hmore]
      exact ⟨Nat.lt_of_not_le hmore, rfl, fun y hy => absurd hy List.not_mem_nil⟩

/-- The zeros after the last item. -/
theorem bits_pad (hmask : mask = BitVec.ofNat 32 (2 ^ group - 1)) (hle : group ≤ 32) (hb : b ≤ group) :
    bits group ((acc <<< (group - b)) &&& mask).toNat = bits b acc.toNat ++ List.replicate (group - b) false := by
  rw [(bits_mask hmask hle _).1]
  have hsum : b + (group - b) = group := Nat.add_sub_cancel' hb
  have hzero : (0#32).toNat < 2 ^ (group - b) := Nat.two_pow_pos _
  have h := bits_shift_or acc (by rw [hsum]; exact hle) hzero
  rw [hsum, BitVec.or_zero, BitVec.toNat_zero, bits_zero] at h
  exact h

variable {α : Type} {item : α → BitVec 32} {xs : List α}

variable (acc) in
/-- The loop carries that the bits pushed, and the low bits of the accumulator still to come, are those read. -/
theorem packLoop_spec (hmask : mask = BitVec.ofNat 32 (2 ^ group - 1)) (hgroup : 0 < group)
    (hfit : group + width ≤ 33) (hwidth : 0 < width) (hitem : ∀ x ∈ xs, (item x).toNat < 2 ^ width) (hb : b < group) :
    (∃ pad < group, (packLoop width group mask item xs acc b).flatMap (bits group) =
      bits b acc.toNat ++ (xs.flatMap (fun x => bits width (item x).toNat) ++ List.replicate pad false)) ∧
    ∀ y ∈ packLoop width group mask item xs acc b, y < 2 ^ group := by
  have hle : group ≤ 32 := by omega
  induction xs generalizing acc b with
  | nil =>
    rw [packLoop]
    by_cases hpos : 0 < b
    · rw [if_pos hpos]
      refine ⟨⟨group - b, by omega, ?_⟩, ?_⟩
      · rw [List.flatMap_singleton, bits_pad hmask hle hb.le, List.flatMap_nil, List.nil_append]
      · intro y hy
        rw [List.mem_singleton.mp hy]
        exact (bits_mask hmask hle _).2
    · obtain rfl := Nat.eq_zero_of_not_pos hpos
      rw [if_neg hpos]
      exact ⟨⟨0, hgroup, rfl⟩, fun y hy => absurd hy List.not_mem_nil⟩
  | cons x xs ih =>
    rw [packLoop]
    have hx := hitem x List.mem_cons_self
    obtain ⟨hleft, hbits, hlt⟩ :=
      drain_spec ((acc <<< width) ||| item x) hmask hgroup hle (le_refl (b + width)) (by omega)
    obtain ⟨⟨pad, hpad, hrest⟩, hrestlt⟩ := ih ((acc <<< width) ||| item x)
      (fun y hy => hitem y (List.mem_cons_of_mem _ hy)) hleft
    refine ⟨⟨pad, hpad, ?_⟩, ?_⟩
    · simp only [List.flatMap_append]
      rw [hrest, ← List.append_assoc, hbits, bits_shift_or acc (by omega) hx, List.flatMap_cons]
      simp only [List.append_assoc]
    · intro y hy
      rcases List.mem_append.mp hy with hy | hy
      · exact hlt y hy
      · exact hrestlt y hy

end Loop

/-! ## The two functions -/

section Functions

variable {words : List Nat} {bytes : List UInt8}

/-- The bytes of an array as numbers. -/
def octets (bytes : List UInt8) : List Nat := bytes.map UInt8.toNat

theorem octets_lt (bytes : List UInt8) : ∀ b ∈ octets bytes, b < 2 ^ 8 := by
  intro b hb
  obtain ⟨x, -, rfl⟩ := List.mem_map.mp hb
  exact x.toNat_lt

theorem octets_injective {bytes bytes' : List UInt8} (h : octets bytes = octets bytes') : bytes = bytes' :=
  List.map_injective_iff.mpr (fun _ _ hxy => UInt8.toNat_inj.mp hxy) h

/-- Words become bytes with the same bits, and zeros up to the end of the last byte. -/
theorem wordsToBytesPadded_regroups (hwords : ∀ w ∈ words, w < 32) :
    Regroups 5 8 words (octets (wordsToBytesPadded words)) := by
  have hitem : ∀ w ∈ words, (BitVec.ofNat 32 w &&& 31).toNat = w := by
    intro w hw
    have hlt := hwords w hw
    rw [BitVec.toNat_and, BitVec.toNat_ofNat, Nat.mod_eq_of_lt (by omega)]
    exact (Nat.and_two_pow_sub_one_eq_mod w 5).trans (Nat.mod_eq_of_lt hlt)
  have hlt : ∀ w ∈ words, (BitVec.ofNat 32 w &&& 31).toNat < 2 ^ 5 := by
    intro w hw
    rw [hitem w hw]
    exact hwords w hw
  obtain ⟨⟨pad, hpad, hbits⟩, hgroups⟩ := 
    packLoop_spec 0 (rfl : (0xff : BitVec 32) = _) (by decide : 0 < 8) (by decide) (by decide) hlt (by decide : 0 < 8)
  have hsame : octets (wordsToBytesPadded words) =
      packLoop 5 8 0xff (fun w => BitVec.ofNat 32 w &&& 31) words 0 0 := by
    rw [octets, wordsToBytesPadded, List.map_map]
    refine (List.map_congr_left fun y hy => ?_).trans (List.map_id _)
    exact Nat.mod_eq_of_lt (hgroups y hy)
  have hread : words.flatMap (fun w => bits 5 (BitVec.ofNat 32 w &&& 31).toNat) = words.flatMap (bits 5) := by
    refine List.flatMap_congr fun w hw => ?_
    rw [hitem w hw]
  rw [hread] at hbits
  exact ⟨octets_lt _, pad, hpad, hsame ▸ hbits⟩

/-- Bytes become words with the same bits, and zeros up to the end of the last word. -/
theorem bytesToWordsPadded_regroups (bytes : List UInt8) : Regroups 8 5 (octets bytes) (bytesToWordsPadded bytes) := by
  have hitem : ∀ b ∈ bytes, (BitVec.ofNat 32 b.toNat).toNat = b.toNat := by
    intro b _
    have hlt := b.toNat_lt
    rw [BitVec.toNat_ofNat, Nat.mod_eq_of_lt (by omega)]
  have hlt : ∀ b ∈ bytes, (BitVec.ofNat 32 b.toNat).toNat < 2 ^ 8 := by
    intro b hb
    rw [hitem b hb]
    exact b.toNat_lt
  obtain ⟨⟨pad, hpad, hbits⟩, hgroups⟩ := 
    packLoop_spec 0 (rfl : (31 : BitVec 32) = _) (by decide : 0 < 5) (by decide) (by decide) hlt (by decide : 0 < 5)
  have hread : bytes.flatMap (fun b => bits 8 (BitVec.ofNat 32 b.toNat).toNat) = (octets bytes).flatMap (bits 8) := by
    rw [octets, List.flatMap_map]
    refine List.flatMap_congr fun b hb => ?_
    rw [hitem b hb]
  rw [hread] at hbits
  exact ⟨hgroups, pad, hpad, hbits⟩

theorem bytesToWordsPadded_lt (bytes : List UInt8) : ∀ w ∈ bytesToWordsPadded bytes, w < 32 :=
  (bytesToWordsPadded_regroups bytes).lt

/-- Forty bits are five bytes and eight words: nothing is padded, and the bytes come back. -/
theorem wordsToBytesPadded_bytesToWordsPadded (hlen : 5 ∣ bytes.length) :
    wordsToBytesPadded (bytesToWordsPadded bytes) = bytes := by
  have hdvd : 5 ∣ 8 * (octets bytes).length := by
    rw [octets, List.length_map]
    exact Dvd.dvd.mul_left hlen 8
  refine octets_injective ?_
  exact (bytesToWordsPadded_regroups bytes).round_trip
    (wordsToBytesPadded_regroups (bytesToWordsPadded_lt bytes)) hdvd (by decide) (octets_lt bytes)

/-- Both functions regroup the bits, whatever the accumulator still holds of those pushed before, and bytes
whose number is divisible by five come back. -/
theorem regrouping_exact :
    (∀ words : List Nat, (∀ w ∈ words, w < 32) →
      ∀ ys, Regroups 5 8 words ys ↔ ys = octets (wordsToBytesPadded words)) ∧
    (∀ (bytes : List UInt8) ys, Regroups 8 5 (octets bytes) ys ↔ ys = bytesToWordsPadded bytes) ∧
    ∀ bytes : List UInt8, 5 ∣ bytes.length → wordsToBytesPadded (bytesToWordsPadded bytes) = bytes := by
  refine ⟨fun words hwords ys => ?_, fun bytes ys => ?_, fun bytes hlen => ?_⟩
  · have hregroups := wordsToBytesPadded_regroups hwords
    constructor
    · exact fun h => h.unique hregroups
    · rintro rfl
      exact hregroups
  · have hregroups := bytesToWordsPadded_regroups bytes
    constructor
    · exact fun h => h.unique hregroups
    · rintro rfl
      exact hregroups
  · exact wordsToBytesPadded_bytesToWordsPadded hlen

/-- Nine words, more than the accumulator holds, and five bytes. -/
theorem regrouping_exact_nine :
    (∀ w ∈ List.replicate 9 31, w < 32) ∧
    (∀ ys, Regroups 5 8 (List.replicate 9 31) ys ↔ ys = [255, 255, 255, 255, 255, 248]) ∧
    wordsToBytesPadded (bytesToWordsPadded [1, 2, 3, 4, 5]) = [1, 2, 3, 4, 5] := by
  have hwords : ∀ w ∈ List.replicate 9 31, w < 32 := by decide
  have hvalue : octets (wordsToBytesPadded (List.replicate 9 31)) = [255, 255, 255, 255, 255, 248] := by decide
  refine ⟨hwords, fun ys => ?_, regrouping_exact.2.2 _ (by decide)⟩
  rw [regrouping_exact.1 _ hwords ys, hvalue]

end Functions

end LibreWallet.Bolt11
