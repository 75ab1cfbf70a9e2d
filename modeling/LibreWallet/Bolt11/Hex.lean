import LibreWallet.Bolt11.Invoice
import LibreWallet.Text.Words

/-
  Bolt11/Hex.lean --- bytes and their hexadecimal texts.

  `hexToBytes` of `libre-listener-wallet/src/storage-cache.ts` reads what `bytesToHex` prints.
-/

set_option autoImplicit false

namespace LibreWallet.Bolt11

open Text

/-- `parseInt(pair, 16)`; no digits make zero. -/
def parsePair (pair : List Nat) : ℤ :=
  let t := pair.dropWhile isWhite
  let unsigned := if begins [fun c => c == 43 || c == 45] t then t.drop 1 else t
  let bare := if begins [exactly 48, fun c => c == 120 || c == 88] unsigned then unsigned.drop 2 else unsigned
  let value : Nat := (bare.takeWhile anyHexDigit).foldl (fun v c => 16 * v + hexValue c) 0
  if begins [exactly 45] t then -value else value

/-- An odd code unit at the end is left over. -/
def hexToBytes : List Nat → List UInt8
  | a :: b :: rest => UInt8.ofNat (parsePair [a, b] % 256).toNat :: hexToBytes rest
  | _ => []

section Hex

theorem isWhite_of_anyHexDigit {c : Nat} (h : anyHexDigit c = true) : isWhite c = false := by
  have hrange := anyHexDigit_range h
  exact isWhite_of_ge (by omega) (by omega)

theorem hexValue_lt_of_any {c : Nat} (h : anyHexDigit c = true) : hexValue c < 16 := by
  have hrange := anyHexDigit_range h
  unfold hexValue digitValue
  split
  · omega
  · split <;> omega

theorem parsePair_of_hex {a b : Nat} (ha : anyHexDigit a = true) (hb : anyHexDigit b = true) :
    parsePair [a, b] = (16 * hexValue a + hexValue b : Nat) := by
  have hra := anyHexDigit_range ha
  have hrb := anyHexDigit_range hb
  have htrim : [a, b].dropWhile isWhite = [a, b] :=
    Words.dropWhile_eq_self fun c hc => by
      cases hc
      exact isWhite_of_anyHexDigit ha
  have hsign : begins [fun c => c == 43 || c == 45] [a, b] = false := by
    simp
    omega
  have hminus : begins [exactly 45] [a, b] = false := by
    simp
    omega
  have hbase : begins [exactly 48, fun c => c == 120 || c == 88] [a, b] = false := by
    simp
    omega
  have hdigits : [a, b].takeWhile anyHexDigit = [a, b] := by
    simp [ha, hb]
  unfold parsePair
  dsimp only
  rw [htrim, hsign, hminus]
  simp [hbase, hdigits]

theorem hexToBytes_eq {t : List Nat} (h : ∀ c ∈ t, anyHexDigit c = true) : hexToBytes t = parseBytes t := by
  induction t using hexToBytes.induct with
  | case1 a b rest ih =>
    have ha := h a List.mem_cons_self
    have hb := h b (List.mem_cons_of_mem a List.mem_cons_self)
    have hla := hexValue_lt_of_any ha
    have hlb := hexValue_lt_of_any hb
    have hbyte : (((16 * hexValue a + hexValue b : Nat) : ℤ) % 256).toNat = 16 * hexValue a + hexValue b := by
      omega
    rw [hexToBytes, parseBytes, parsePair_of_hex ha hb, hbyte,
      ih fun c hc => h c (List.mem_cons_of_mem a (List.mem_cons_of_mem b hc))]
  | case2 t ht =>
    rcases t with - | ⟨a, - | ⟨b, rest⟩⟩
    · rfl
    · rfl
    · exact absurd rfl (ht a b rest)

/-- A byte is printed as its two digits. -/
theorem bytesToHex_cons {h l : Nat} (hh : h < 16) (hl : l < 16) (bytes : List UInt8) :
    bytesToHex (UInt8.ofNat (16 * h + l) :: bytes) = digitCode h :: digitCode l :: bytesToHex bytes := by
  have hbyte : (UInt8.ofNat (16 * h + l)).toNat = 16 * h + l := Nat.mod_eq_of_lt (by omega)
  have hdigits : List.replicate (2 - (numeral 16 (16 * h + l)).length) 48 ++ numeral 16 (16 * h + l) =
      [digitCode h, digitCode l] := by
    rcases Nat.eq_zero_or_pos h with rfl | hpos
    · rw [numeral_of_lt (by omega), Nat.mul_zero, Nat.zero_add]
      rfl
    · have hdiv : (16 * h + l) / 16 = h := by omega
      have hmod : (16 * h + l) % 16 = l := by omega
      rw [numeral_of_le (by omega) (by omega), hdiv, hmod, numeral_of_lt hh]
      rfl
  have hcons : bytesToHex (UInt8.ofNat (16 * h + l) :: bytes) =
      (List.replicate (2 - (numeral 16 (UInt8.ofNat (16 * h + l)).toNat).length) 48 ++
        numeral 16 (UInt8.ofNat (16 * h + l)).toNat) ++ bytesToHex bytes := rfl
  rw [hcons, hbyte, hdigits]
  rfl

theorem digitCode_of_any {c : Nat} (h : anyHexDigit c = true) :
    digitCode (hexValue c) = if 65 ≤ c ∧ c ≤ 90 then c + 32 else c := by
  rcases anyHexDigit_range h with ⟨hlo, hhi⟩ | ⟨hlo, hhi⟩ | ⟨hlo, hhi⟩
  · interval_cases c <;> rfl
  · interval_cases c <;> rfl
  · interval_cases c <;> rfl

theorem anyHexDigit_digitCode {v : Nat} (h : v < 16) :
    anyHexDigit (digitCode v) = true ∧ hexValue (digitCode v) = v := by
  interval_cases v <;> exact ⟨rfl, rfl⟩

/-- A byte prints as the digits of its halves. -/
theorem bytesToHex_byte (b : UInt8) (bytes : List UInt8) :
    bytesToHex (b :: bytes) = digitCode (b.toNat / 16) :: digitCode (b.toNat % 16) :: bytesToHex bytes := by
  have hlt := b.toNat_lt
  have hsplit : b = UInt8.ofNat (16 * (b.toNat / 16) + b.toNat % 16) := by
    rw [Nat.div_add_mod, UInt8.ofNat_toNat]
  have h := bytesToHex_cons (h := b.toNat / 16) (l := b.toNat % 16) (by omega) (by omega) bytes
  rwa [← hsplit] at h

theorem hexToBytes_bytesToHex (bytes : List UInt8) : hexToBytes (bytesToHex bytes) = bytes := by
  induction bytes with
  | nil => rfl
  | cons b bytes ih =>
    have hlt := b.toNat_lt
    have hhi := anyHexDigit_digitCode (v := b.toNat / 16) (by omega)
    have hlo := anyHexDigit_digitCode (v := b.toNat % 16) (by omega)
    have hbyte : (((16 * (b.toNat / 16) + b.toNat % 16 : Nat) : ℤ) % 256).toNat = b.toNat := by omega
    rw [bytesToHex_byte, hexToBytes, ih, parsePair_of_hex hhi.1 hlo.1, hhi.2, hlo.2, hbyte, UInt8.ofNat_toNat]

theorem bytesToHex_digits (bytes : List UInt8) :
    (bytesToHex bytes).length = 2 * bytes.length ∧ (bytesToHex bytes).all anyHexDigit = true := by
  induction bytes with
  | nil => exact ⟨rfl, rfl⟩
  | cons b bytes ih =>
    have hlt := b.toNat_lt
    have hhi := anyHexDigit_digitCode (v := b.toNat / 16) (by omega)
    have hlo := anyHexDigit_digitCode (v := b.toNat % 16) (by omega)
    rw [bytesToHex_byte, List.length_cons, List.length_cons, List.length_cons, ih.1, List.all_cons, List.all_cons,
      hhi.1, hlo.1, ih.2]
    exact ⟨by omega, rfl⟩

end Hex

end LibreWallet.Bolt11
