import LibreWallet.Text.Numerals

/-
  Text/Bech32.lean --- words of five bits as text, with a prefix and a checksum.

  The format as its specification has it, but for the limit on the length, which is a parameter.

  Nothing here names a particular program.
-/

set_option autoImplicit false

namespace LibreWallet.Text.Bech32

def alphabet : List Nat :=
  [113, 112, 122, 114, 121, 57, 120, 56, 103, 102, 50, 116, 118, 100, 119, 48,
   115, 51, 106, 110, 53, 52, 107, 104, 99, 101, 54, 109, 117, 97, 55, 108]

example : alphabet = codes "qpzry9x8gf2tvdw0s3jn54khce6mua7l" := by decide

/-- The character of a word. -/
def symbol (w : Nat) : Nat := alphabet.getD w 0

def valueOf (c : Nat) : Option Nat := alphabet.idxOf? c

def generators : List (Nat × Nat) :=
  [(0, 0x3b6a57b2), (1, 0x26508e6d), (2, 0x1ea119fa), (3, 0x3d4233dd), (4, 0x2a1462b3)]

def polymod (pre : Nat) : Nat :=
  generators.foldl (fun chk g => if (pre >>> 25).testBit g.1 then chk ^^^ g.2 else chk) ((pre &&& 0x1ffffff) <<< 5)

/-- Six words. -/
def checksum (hrp words : List Nat) : List Nat :=
  let chk := hrp.foldl (fun chk c => polymod chk ^^^ (c >>> 5)) 1
  let chk := hrp.foldl (fun chk c => polymod chk ^^^ (c &&& 31)) (polymod chk)
  let chk := (words ++ [0, 0, 0, 0, 0, 0]).foldl (fun chk w => polymod chk ^^^ w) chk ^^^ 1
  [25, 20, 15, 10, 5, 0].map fun shift => (chk >>> shift) &&& 31

def upper (c : Nat) : Bool := between 65 90 c

def lower (c : Nat) : Bool := between 97 122 c

def toLower (c : Nat) : Nat := if upper c then c + 32 else c

/-- What stands before the last separator, and after. -/
def splitLast (sep : Nat) : List Nat → Option (List Nat × List Nat)
  | [] => none
  | c :: text =>
    match splitLast sep text with
    | some (pre, post) => some (c :: pre, post)
    | none => if c = sep then some ([], text) else none

def valuesOf : List Nat → Option (List Nat)
  | [] => some []
  | c :: text => do
    let w ← valueOf c
    let words ← valuesOf text
    some (w :: words)

/-- The characters of a prefix are printable. -/
def validPrefix (hrp : List Nat) : Bool := hrp ≠ [] && hrp.all (between 33 126)

def encode (hrp words : List Nat) (limit : Nat) : Option (List Nat) :=
  let hrp := hrp.map toLower
  if validPrefix hrp && words.all (· < 32) && hrp.length + 7 + words.length ≤ limit then
    some (hrp ++ 49 :: (words ++ checksum hrp words).map symbol)
  else none

def decode (text : List Nat) (limit : Nat) : Option (List Nat × List Nat) :=
  if text.length < 8 || limit < text.length || (text.any upper && text.any lower) then none
  else do
    let (hrp, data) ← splitLast 49 (text.map toLower)
    let all ← valuesOf data
    let words := all.take (all.length - 6)
    if validPrefix hrp && 6 ≤ all.length && all.drop (all.length - 6) = checksum hrp words then some (hrp, words)
    else none

section Words

variable {w c : Nat} {words pre post : List Nat}

theorem valueOf_symbol (h : w < 32) : valueOf (symbol w) = some w := by
  interval_cases w <;> rfl

/-- Neither the separator nor a capital is in the alphabet. -/
theorem symbol_spec (h : w < 32) : symbol w ≠ 49 ∧ symbol w < 128 ∧ upper (symbol w) = false := by
  interval_cases w <;> decide

theorem valueOf_lt (h : valueOf c = some w) : w < 32 := by
  obtain ⟨hlt, -⟩ := List.idxOf?_eq_some_iff.mp h
  exact hlt

theorem valuesOf_map_symbol (h : ∀ w ∈ words, w < 32) : valuesOf (words.map symbol) = some words := by
  induction words with
  | nil => rfl
  | cons w words ih =>
    rw [List.map_cons, valuesOf, valueOf_symbol (h w List.mem_cons_self),
      ih fun v hv => h v (List.mem_cons_of_mem _ hv)]
    rfl

theorem valuesOf_lt {text : List Nat} (h : valuesOf text = some words) : ∀ w ∈ words, w < 32 := by
  induction text generalizing words with
  | nil =>
    cases h
    exact fun w hw => absurd hw List.not_mem_nil
  | cons c text ih =>
    obtain ⟨v, hv, h⟩ := Option.bind_eq_some_iff.mp h
    obtain ⟨rest, hrest, h⟩ := Option.bind_eq_some_iff.mp h
    cases h
    intro w hw
    rcases List.mem_cons.mp hw with rfl | hw
    · exact valueOf_lt hv
    · exact ih hrest w hw

theorem splitLast_none (h : 49 ∉ post) : splitLast 49 post = none := by
  induction post with
  | nil => rfl
  | cons c post ih =>
    have hne : c ≠ 49 := by
      rintro rfl
      exact h List.mem_cons_self
    rw [splitLast, ih (mt (List.mem_cons_of_mem c) h)]
    simp only [if_neg hne]

theorem splitLast_append (h : 49 ∉ post) : splitLast 49 (pre ++ 49 :: post) = some (pre, post) := by
  induction pre with
  | nil =>
    rw [List.nil_append, splitLast, splitLast_none h]
    rfl
  | cons c pre ih =>
    rw [List.cons_append, splitLast, ih]

theorem splitLast_spec {text : List Nat} (h : splitLast 49 text = some (pre, post)) : text = pre ++ 49 :: post := by
  induction text generalizing pre with
  | nil => cases h
  | cons c text ih =>
    rw [splitLast] at h
    cases hrest : splitLast 49 text with
    | none =>
      rw [hrest] at h
      simp only at h
      split at h
      · rename_i hc
        obtain ⟨rfl, rfl⟩ := Prod.mk.inj (Option.some.inj h)
        rw [hc, List.nil_append]
      · cases h
    | some split =>
      obtain ⟨pre', post'⟩ := split
      rw [hrest] at h
      obtain ⟨rfl, rfl⟩ := Prod.mk.inj (Option.some.inj h)
      rw [ih hrest, List.cons_append]

theorem checksum_lt (hrp words : List Nat) : ∀ w ∈ checksum hrp words, w < 32 := by
  intro w hw
  obtain ⟨shift, -, rfl⟩ := List.mem_map.mp hw
  exact Nat.lt_of_le_of_lt Nat.and_le_right (by decide)

theorem length_checksum (hrp words : List Nat) : (checksum hrp words).length = 6 := rfl

end Words

section Texts

variable {text hrp words : List Nat} {limit : Nat}

theorem toLower_of_not_upper {c : Nat} (h : upper c = false) : toLower c = c := by
  rw [toLower, h]
  rfl

theorem upper_toLower (c : Nat) : upper (toLower c) = false := by
  rw [toLower]
  cases h : upper c with
  | false => exact h
  | true =>
    have hrange : 65 ≤ c ∧ c ≤ 90 := by simpa [upper, between] using h
    simp only [if_true, upper, between, Bool.and_eq_false_iff, decide_eq_false_iff_not]
    omega

/-- What is decoded has a prefix that can be encoded, and words of five bits. -/
theorem decode_spec (h : decode text limit = some (hrp, words)) :
    validPrefix hrp = true ∧ (∀ c ∈ hrp, upper c = false) ∧ ∀ w ∈ words, w < 32 := by
  rw [decode] at h
  split at h
  · cases h
  · obtain ⟨⟨pre, data⟩, hsplit, h⟩ := Option.bind_eq_some_iff.mp h
    obtain ⟨all, hall, h⟩ := Option.bind_eq_some_iff.mp h
    simp only at h
    split at h
    · rename_i hcond
      obtain ⟨rfl, rfl⟩ := Prod.mk.inj (Option.some.inj h)
      simp only [Bool.and_eq_true] at hcond
      refine ⟨hcond.1.1, fun c hc => ?_, fun w hw => valuesOf_lt hall w (List.mem_of_mem_take hw)⟩
      have hmem : c ∈ text.map toLower := by
        rw [splitLast_spec hsplit]
        exact List.mem_append_left _ hc
      obtain ⟨d, -, rfl⟩ := List.mem_map.mp hmem
      exact upper_toLower d
    · cases h

/-- What is encoded within the limit is decoded, and in lower case. -/
theorem decode_encode (hpre : validPrefix hrp = true) (hupper : ∀ c ∈ hrp, upper c = false)
    (hwords : ∀ w ∈ words, w < 32) (hlimit : hrp.length + 7 + words.length ≤ limit) :
    ∃ text, encode hrp words limit = some text ∧ decode text limit = some (hrp, words) ∧
      ∀ c ∈ text, c < 128 ∧ upper c = false := by
  have hlow : hrp.map toLower = hrp :=
    (List.map_congr_left fun c hc => toLower_of_not_upper (hupper c hc)).trans (List.map_id hrp)
  have hall : ∀ w ∈ words ++ checksum hrp words, w < 32 := by
    intro w hw
    rcases List.mem_append.mp hw with hw | hw
    · exact hwords w hw
    · exact checksum_lt hrp words w hw
  have hplain : ∀ c ∈ hrp ++ 49 :: (words ++ checksum hrp words).map symbol, c < 128 ∧ upper c = false := by
    intro c hc
    rcases List.mem_append.mp hc with hc | hc
    · have hprintable := (Bool.and_eq_true_iff.mp hpre).2
      have hrange : 33 ≤ c ∧ c ≤ 126 := by simpa [between] using List.all_eq_true.mp hprintable c hc
      exact ⟨by omega, hupper c hc⟩
    · rcases List.mem_cons.mp hc with rfl | hc
      · decide
      · obtain ⟨w, hw, rfl⟩ := List.mem_map.mp hc
        exact (symbol_spec (hall w hw)).2
  have hsep : 49 ∉ (words ++ checksum hrp words).map symbol := by
    intro hmem
    obtain ⟨w, hw, hsym⟩ := List.mem_map.mp hmem
    exact (symbol_spec (hall w hw)).1 hsym
  have hlen : (hrp ++ 49 :: (words ++ checksum hrp words).map symbol).length = hrp.length + 7 + words.length := by
    simp only [List.length_append, List.length_cons, List.length_map, length_checksum]
    omega
  have hne : hrp ≠ [] := of_decide_eq_true (Bool.and_eq_true_iff.mp hpre).1
  have hpos := List.length_pos_iff.mpr hne
  have hnoupper : (hrp ++ 49 :: (words ++ checksum hrp words).map symbol).any upper = false :=
    List.any_eq_false.mpr fun c hc => by rw [(hplain c hc).2]; exact Bool.false_ne_true
  have htext : (hrp ++ 49 :: (words ++ checksum hrp words).map symbol).map toLower =
      hrp ++ 49 :: (words ++ checksum hrp words).map symbol :=
    (List.map_congr_left fun c hc => toLower_of_not_upper (hplain c hc).2).trans (List.map_id _)
  have hfits : ¬(hrp.length + 7 + words.length < 8 ∨ limit < hrp.length + 7 + words.length) := by omega
  refine ⟨_, ?_, ?_, hplain⟩
  · have hwordsall : words.all (· < 32) = true := List.all_eq_true.mpr fun w hw => decide_eq_true (hwords w hw)
    simp only [encode, hlow, hpre, hwordsall, decide_eq_true hlimit, Bool.and_self, if_true]
  · have hcount : (words ++ checksum hrp words).length - 6 = words.length := by
      rw [List.length_append, length_checksum, Nat.add_sub_cancel]
    have hsix : 6 ≤ (words ++ checksum hrp words).length := by
      rw [List.length_append, length_checksum]
      omega
    have hcond : ¬(decide (hrp.length + 7 + words.length < 8) || decide (limit < hrp.length + 7 + words.length) ||
        (false && (hrp ++ 49 :: (words ++ checksum hrp words).map symbol).any lower)) = true := by
      simp only [Bool.false_and, Bool.or_false, Bool.or_eq_true, decide_eq_true_eq]
      exact hfits
    rw [decode, hnoupper, hlen, if_neg hcond, htext, splitLast_append hsep]
    simp only [Option.bind_eq_bind, Option.bind_some, valuesOf_map_symbol hall, hcount, List.take_left, List.drop_left,
      hpre, decide_eq_true hsix, decide_true, Bool.and_self, if_true]

end Texts

end LibreWallet.Text.Bech32
