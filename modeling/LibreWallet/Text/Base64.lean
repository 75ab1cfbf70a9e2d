import Mathlib.Tactic.IntervalCases
import LibreWallet.Text.Numerals

/-
  Text/Base64.lean --- bytes as text, six bits a character.

  `btoa` of bytes, and what `atob` reads: it passes over ASCII white space, and a text may go
  without its padding.

  Nothing here names a particular program.
-/

set_option autoImplicit false

namespace LibreWallet.Text.Base64

def alphabet : List Nat :=
  [65, 66, 67, 68, 69, 70, 71, 72, 73, 74, 75, 76, 77, 78, 79, 80, 81, 82, 83, 84, 85, 86, 87, 88, 89, 90,
   97, 98, 99, 100, 101, 102, 103, 104, 105, 106, 107, 108, 109, 110, 111, 112, 113, 114, 115, 116, 117, 118, 119,
   120, 121, 122, 48, 49, 50, 51, 52, 53, 54, 55, 56, 57, 43, 47]

/-- The character of six bits. -/
def symbol (v : Nat) : Nat := alphabet.getD v 0

def valueOf (c : Nat) : Option Nat := alphabet.idxOf? c

/-- The bits of the bytes in sixes, with zeros at the end. -/
def sextets : List UInt8 → List Nat
  | a :: b :: c :: rest =>
    a.toNat / 4 :: (a.toNat % 4 * 16 + b.toNat / 16) :: (b.toNat % 16 * 4 + c.toNat / 64) :: c.toNat % 64 ::
      sextets rest
  | [a, b] => [a.toNat / 4, a.toNat % 4 * 16 + b.toNat / 16, b.toNat % 16 * 4]
  | [a] => [a.toNat / 4, a.toNat % 4 * 16]
  | [] => []

/-- One value alone is no byte. -/
def bytesOf : List Nat → Option (List UInt8)
  | a :: b :: c :: d :: rest => (bytesOf rest).map fun bytes =>
    UInt8.ofNat (a * 4 + b / 16) :: UInt8.ofNat (b % 16 * 16 + c / 4) :: UInt8.ofNat (c % 4 * 64 + d) :: bytes
  | [a, b, c] => some [UInt8.ofNat (a * 4 + b / 16), UInt8.ofNat (b % 16 * 16 + c / 4)]
  | [a, b] => some [UInt8.ofNat (a * 4 + b / 16)]
  | [_] => none
  | [] => some []

def btoa (bytes : List UInt8) : List Nat :=
  (sextets bytes).map symbol ++ List.replicate ((3 - bytes.length % 3) % 3) 61

def asciiWhite (c : Nat) : Bool := c = 9 || c = 10 || c = 12 || c = 13 || c = 32

/-- A text of whole fours loses the one or two signs of padding at its end. -/
def unpadded (t : List Nat) : List Nat :=
  if t.length % 4 = 0 then t.take (t.length - min 2 (t.reverse.takeWhile (· = 61)).length) else t

/-- `none` where it throws. -/
def atob (t : List Nat) : Option (List UInt8) :=
  ((unpadded (t.filter fun c => !asciiWhite c)).mapM valueOf).bind bytesOf

example : btoa [0x66, 0x6f, 0x6f, 0x62] = codes "Zm9vYg==" ∧ atob (codes "Zm9v Yg") = some [0x66, 0x6f, 0x6f, 0x62] := by
  decide

/-! ## Reading back -/

section Reading

variable {v : Nat} {values : List Nat}

theorem valueOf_symbol (h : v < 64) : valueOf (symbol v) = some v := by
  interval_cases v <;> rfl

/-- Neither white space nor the padding is in the alphabet. -/
theorem symbol_spec (h : v < 64) : asciiWhite (symbol v) = false ∧ symbol v ≠ 61 := by
  interval_cases v <;> decide

theorem mapM_symbol (h : ∀ v ∈ values, v < 64) : (values.map symbol).mapM valueOf = some values := by
  induction values with
  | nil => rfl
  | cons v values ih =>
    rw [List.map_cons, List.mapM_cons, valueOf_symbol (h v List.mem_cons_self),
      ih fun w hw => h w (List.mem_cons_of_mem _ hw)]
    rfl

theorem ofNat_eq {n : Nat} {b : UInt8} (h : n = b.toNat) : UInt8.ofNat n = b := by
  rw [h, UInt8.ofNat_toNat]

theorem sextets_spec (bytes : List UInt8) : (∀ v ∈ sextets bytes, v < 64) ∧
    (sextets bytes).length = (4 * bytes.length + 2) / 3 ∧ bytesOf (sextets bytes) = some bytes := by
  induction bytes using sextets.induct with
  | case1 a b c rest ih =>
    obtain ⟨hlt, hlength, hread⟩ := ih
    have ha := a.toNat_lt
    have hb := b.toNat_lt
    have hc := c.toNat_lt
    have hfirst : UInt8.ofNat (a.toNat / 4 * 4 + (a.toNat % 4 * 16 + b.toNat / 16) / 16) = a := ofNat_eq (by omega)
    have hsecond : UInt8.ofNat ((a.toNat % 4 * 16 + b.toNat / 16) % 16 * 16 +
        (b.toNat % 16 * 4 + c.toNat / 64) / 4) = b := ofNat_eq (by omega)
    have hthird : UInt8.ofNat ((b.toNat % 16 * 4 + c.toNat / 64) % 4 * 64 + c.toNat % 64) = c := ofNat_eq (by omega)
    refine ⟨?_, ?_, ?_⟩
    · rw [sextets]
      simp only [List.mem_cons]
      rintro v (rfl | rfl | rfl | rfl | hv)
      · omega
      · omega
      · omega
      · omega
      · exact hlt v hv
    · rw [sextets]
      simp only [List.length_cons, hlength]
      omega
    · rw [sextets, bytesOf, hread, hfirst, hsecond, hthird]
      rfl
  | case2 a b =>
    have ha := a.toNat_lt
    have hb := b.toNat_lt
    have hfirst : UInt8.ofNat (a.toNat / 4 * 4 + (a.toNat % 4 * 16 + b.toNat / 16) / 16) = a := ofNat_eq (by omega)
    have hsecond : UInt8.ofNat ((a.toNat % 4 * 16 + b.toNat / 16) % 16 * 16 + b.toNat % 16 * 4 / 4) = b := ofNat_eq (by omega)
    refine ⟨?_, by simp [sextets], ?_⟩
    · simp only [sextets, List.mem_cons, List.not_mem_nil, or_false]
      rintro v (rfl | rfl | rfl)
      · omega
      · omega
      · omega
    · rw [sextets, bytesOf, hfirst, hsecond]
  | case3 a =>
    have ha := a.toNat_lt
    have hfirst : UInt8.ofNat (a.toNat / 4 * 4 + a.toNat % 4 * 16 / 16) = a := ofNat_eq (by omega)
    refine ⟨?_, by simp [sextets], ?_⟩
    · simp only [sextets, List.mem_cons, List.not_mem_nil, or_false]
      rintro v (rfl | rfl)
      · omega
      · omega
    · rw [sextets, bytesOf, hfirst]
  | case4 => exact ⟨fun v hv => (List.not_mem_nil hv).elim, rfl, rfl⟩

theorem unpadded_append {t : List Nat} {n : Nat} (ht : ∀ c ∈ t, c ≠ 61) (hn : n ≤ 2)
    (hlength : (t.length + n) % 4 = 0) : unpadded (t ++ List.replicate n 61) = t := by
  have hpad : (t ++ List.replicate n 61).reverse.takeWhile (· = 61) = List.replicate n 61 := by
    rw [List.reverse_append, List.reverse_replicate, List.takeWhile_append_of_pos fun c hc =>
      decide_eq_true (List.eq_of_mem_replicate hc)]
    have hnone : t.reverse.takeWhile (· = 61) = [] := by
      rw [List.takeWhile_eq_nil_iff]
      intro hlt
      exact mt of_decide_eq_true (ht _ (List.mem_reverse.mp (List.getElem_mem hlt)))
    rw [hnone, List.append_nil]
  unfold unpadded
  rw [hpad, List.length_append, List.length_replicate, if_pos hlength, min_eq_right hn, Nat.add_sub_cancel,
    List.take_left]

/-- What is written reads back. -/
theorem atob_btoa (bytes : List UInt8) : atob (btoa bytes) = some bytes := by
  obtain ⟨hlt, hlength, hread⟩ := sextets_spec bytes
  have hsymbols : ∀ c ∈ (sextets bytes).map symbol, asciiWhite c = false ∧ c ≠ 61 := by
    intro c hc
    obtain ⟨v, hv, rfl⟩ := List.mem_map.mp hc
    exact symbol_spec (hlt v hv)
  have hplain : (btoa bytes).filter (fun c => !asciiWhite c) = btoa bytes := by
    rw [List.filter_eq_self]
    intro c hc
    rcases List.mem_append.mp hc with hc | hc
    · rw [(hsymbols c hc).1]
      rfl
    · rw [List.eq_of_mem_replicate hc]
      rfl
  have hfours : ((sextets bytes).length + (3 - bytes.length % 3) % 3) % 4 = 0 := by
    rw [hlength]
    obtain hmod | hmod | hmod : bytes.length % 3 = 0 ∨ bytes.length % 3 = 1 ∨ bytes.length % 3 = 2 := by omega
    · rw [hmod]
      omega
    · rw [hmod]
      omega
    · rw [hmod]
      omega
  unfold atob
  rw [hplain, btoa, unpadded_append (fun c hc => (hsymbols c hc).2) (by omega)
    (by rw [List.length_map, hfours]), mapM_symbol hlt, Option.bind_some, hread]

end Reading

end LibreWallet.Text.Base64
