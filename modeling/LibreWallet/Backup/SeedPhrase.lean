import LibreWallet.Async.Records
import LibreWallet.Bolt11.Hex
import LibreWallet.Controller.Restore

/-
  Backup/SeedPhrase.lean --- the recovery phrase of a seed.

  Mirrors `libre-listener-wallet/src/seed-phrase.ts`.
  A seed of 32 bytes is written as 24 words, and read back from them however they were typed.
  The codec of the words is not of the repository.
-/

set_option autoImplicit false

namespace LibreWallet.Backup

open Text
open Bolt11 (Failure anyHexDigit bytesToHex bytesToHex_cons digitCode_of_any hexToBytes hexToBytes_eq hexValue
  hexValue_lt_of_any isWhite_of_anyHexDigit parseBytes)
open Controller.Restore (Chars isHex)

/-- `@scure/bip39` with its English words, and of the platform the tables of Unicode.  Where one
throws it is `none`. -/
structure Bip39 where
  entropyToMnemonic : List UInt8 → Chars
  mnemonicToEntropy : Chars → Option (List UInt8)
  validateMnemonic : Chars → Bool
  unicode : Chars → Chars

/-! ## Phrases -/

section Code

variable (bip : Bip39)

def normalizeMnemonic (mnemonic : Chars) : Chars :=
  toLowerCase bip.unicode (Words.collapse isWhite 32 (trim mnemonic))

def seedHexToMnemonic (seedHex : Chars) : Except Failure Chars :=
  if isHex seedHex then .ok (bip.entropyToMnemonic (hexToBytes seedHex))
  else .error (.thrown "seedHexToMnemonic: expected a 64-character hex seed")

def mnemonicToSeedHex (mnemonic : Chars) : Except Failure Chars :=
  let normalized := normalizeMnemonic bip mnemonic
  if bip.validateMnemonic normalized then
    match bip.mnemonicToEntropy normalized with
    | none => .error .imported
    | some entropy =>
      if entropy.length = 32 then .ok (bytesToHex entropy)
      else .error (.thrown "Recovery phrase must be 24 words (256-bit) for this wallet")
  else .error (.thrown "Invalid recovery phrase — check the words and their order")

def isValidSeedMnemonic (input : Chars) : Bool :=
  let normalized := normalizeMnemonic bip input
  if ((normalized.splitOn 32).filter (· ≠ [])).length ≠ 24 then false
  else bip.validateMnemonic normalized

def normalizeBackupSecret (secret : Chars) : Except Failure Chars :=
  if isValidSeedMnemonic bip secret then mnemonicToSeedHex bip secret else .ok secret

end Code

/-! ## What is documented of the words -/

def isLower (c : Nat) : Bool := between 97 122 c

/-- What `@scure/bip39` and Unicode document. -/
structure Bip39.Documented (bip : Bip39) : Prop where
  /-- A phrase is valid where it can be decoded. -/
  validates : ∀ m, bip.validateMnemonic m = (bip.mnemonicToEntropy m).isSome
  /-- Three words are four bytes, where no other white space separates the words. -/
  counts : ∀ m entropy, (∀ c ∈ m, isWhite c = true → c = 32) →
    bip.mnemonicToEntropy m = some entropy →
    4 * ((m.splitOn 32).filter (· ≠ [])).length = 3 * entropy.length
  /-- 32 bytes are 24 English words. -/
  phrases : ∀ entropy, entropy.length = 32 → ∃ ws : List Chars, ws.length = 24 ∧
    (∀ w ∈ ws, w ≠ [] ∧ ∀ c ∈ w, isLower c = true) ∧ bip.entropyToMnemonic entropy = Words.join 32 ws
  decodes : ∀ entropy, entropy.length = 32 →
    bip.mnemonicToEntropy (bip.entropyToMnemonic entropy) = some entropy
  /-- No letter has white space for its lower case. -/
  lowers : ∀ t, ∀ c ∈ bip.unicode t, isWhite c = true → c ∈ t

/-! ## Hexadecimal digits -/

section Hex

theorem bytesToHex_parseBytes {n : Nat} {t : Chars} (hlen : t.length = n * 2)
    (h : ∀ c ∈ t, anyHexDigit c = true) :
    bytesToHex (parseBytes t) = Controller.Restore.toLowerCase t ∧ (parseBytes t).length = n := by
  induction n generalizing t with
  | zero =>
    obtain rfl := List.length_eq_zero_iff.mp (hlen.trans (Nat.zero_mul 2))
    exact ⟨rfl, rfl⟩
  | succ n ih =>
    rcases t with - | ⟨a, - | ⟨b, rest⟩⟩
    · rw [List.length_nil] at hlen
      omega
    · rw [List.length_singleton] at hlen
      omega
    · have ha := h a List.mem_cons_self
      have hb := h b (List.mem_cons_of_mem a List.mem_cons_self)
      obtain ⟨hrest, hcount⟩ := ih (by simp only [List.length_cons] at hlen; omega)
        fun c hc => h c (List.mem_cons_of_mem a (List.mem_cons_of_mem b hc))
      rw [parseBytes, bytesToHex_cons (hexValue_lt_of_any ha) (hexValue_lt_of_any hb), hrest, digitCode_of_any ha,
        digitCode_of_any hb, List.length_cons, hcount]
      exact ⟨rfl, rfl⟩

/-- A seed's bytes print as the seed in lower case. -/
theorem bytesToHex_hexToBytes {seedHex : Chars} (h : isHex seedHex = true) :
    bytesToHex (hexToBytes seedHex) = Controller.Restore.toLowerCase seedHex ∧
      (hexToBytes seedHex).length = 32 := by
  unfold isHex at h
  rw [Bool.and_eq_true, decide_eq_true_eq, List.all_eq_true] at h
  rw [hexToBytes_eq h.2]
  exact bytesToHex_parseBytes (n := 32) h.1 h.2

/-- Digits of either case are the same digits. -/
theorem hexValue_lower (c : Nat) : anyHexDigit (if 65 ≤ c ∧ c ≤ 90 then c + 32 else c) = anyHexDigit c ∧
    (anyHexDigit c = true → hexValue (if 65 ≤ c ∧ c ≤ 90 then c + 32 else c) = hexValue c) := by
  split
  · rename_i hupper
    constructor
    · rw [Bool.eq_iff_iff]
      simp only [anyHexDigit, hexDigit, between, Bool.or_eq_true, Bool.and_eq_true, decide_eq_true_eq]
      omega
    · intro h
      have hrange := Bolt11.anyHexDigit_range h
      have hlow : ¬(65 ≤ c + 32 ∧ c + 32 ≤ 70) := by omega
      have hcap : 65 ≤ c ∧ c ≤ 70 := by omega
      have hletter : ¬c + 32 < 58 := by omega
      rw [hexValue, hexValue, if_neg hlow, if_pos hcap, digitValue, if_neg hletter]
      omega
  · exact ⟨rfl, fun _ => rfl⟩

theorem parseBytes_lower {t : Chars} (h : ∀ c ∈ t, anyHexDigit c = true) :
    parseBytes (Controller.Restore.toLowerCase t) = parseBytes t := by
  induction t using Bolt11.hexToBytes.induct with
  | case1 a b rest ih =>
    have hrest := ih fun c hc => h c (List.mem_cons_of_mem a (List.mem_cons_of_mem b hc))
    have ha := (hexValue_lower a).2 (h a List.mem_cons_self)
    have hb := (hexValue_lower b).2 (h b (List.mem_cons_of_mem a List.mem_cons_self))
    unfold Controller.Restore.toLowerCase at hrest ⊢
    rw [List.map_cons, List.map_cons, parseBytes, parseBytes, ha, hb, hrest]
  | case2 t ht =>
    rcases t with - | ⟨a, - | ⟨b, rest⟩⟩
    · rfl
    · rfl
    · exact absurd rfl (ht a b rest)

theorem isHex_lower (t : Chars) : isHex (Controller.Restore.toLowerCase t) = isHex t := by
  unfold isHex Controller.Restore.toLowerCase
  rw [List.length_map, List.all_map]
  congr 2
  funext c
  exact (hexValue_lower c).1

/-- A seed typed in another case has the same bytes. -/
theorem hexToBytes_of_lower_eq {s t : Chars} (ht : isHex t = true)
    (h : Controller.Restore.toLowerCase s = Controller.Restore.toLowerCase t) :
    isHex s = true ∧ hexToBytes s = hexToBytes t := by
  have hs : isHex s = true := by rw [← isHex_lower s, h, isHex_lower, ht]
  refine ⟨hs, ?_⟩
  unfold isHex at hs ht
  rw [Bool.and_eq_true, List.all_eq_true] at hs ht
  rw [hexToBytes_eq hs.2, hexToBytes_eq ht.2, ← parseBytes_lower hs.2, ← parseBytes_lower ht.2, h]

theorem isHex_bytesToHex {bytes : List UInt8} (hlen : bytes.length = 32) :
    isHex (bytesToHex bytes) = true := by
  have hall : ∀ bytes : List UInt8, (bytesToHex bytes).length = 2 * bytes.length ∧
      ∀ c ∈ bytesToHex bytes, hexDigit c = true := by
    intro bytes
    induction bytes with
    | nil => exact ⟨rfl, fun c hc => by cases hc⟩
    | cons b bytes ih =>
      have hb := b.toNat_lt
      have hbyte : b = UInt8.ofNat (16 * (b.toNat / 16) + b.toNat % 16) := by
        rw [Nat.div_add_mod, UInt8.ofNat_toNat]
      have hdigit : ∀ d < 16, hexDigit (digitCode d) = true := fun d hd => by
        have hrange := digitCode_range hd
        simpa [hexDigit, between] using hrange
      rw [hbyte, bytesToHex_cons (by omega) (by omega)]
      refine ⟨by simp only [List.length_cons, ih.1]; omega, fun c hc => ?_⟩
      rcases List.mem_cons.mp hc with rfl | hc
      · exact hdigit _ (by omega)
      · rcases List.mem_cons.mp hc with rfl | hc
        · exact hdigit _ (by omega)
        · exact ih.2 c hc
  obtain ⟨hlength, hdigits⟩ := hall bytes
  unfold isHex
  rw [Bool.and_eq_true, decide_eq_true_eq, List.all_eq_true]
  exact ⟨by omega, fun c hc => by rw [hdigits c hc, Bool.true_or]⟩

end Hex

/-! ## Reading a phrase -/

section Reading

variable {bip : Bip39} {m typed seedHex : Chars} {ws : List Chars}

theorem lower_of_isLower {c : Nat} (h : isLower (if 65 ≤ c ∧ c ≤ 90 then c + 32 else c) = true) :
    c < 128 ∧ isWhite c = false := by
  simp only [isLower, between, Bool.and_eq_true, decide_eq_true_eq] at h
  split at h
  · exact ⟨by omega, isWhite_of_ge (by omega) (by omega)⟩
  · exact ⟨by omega, isWhite_of_ge (by omega) (by omega)⟩

theorem isWhite_of_isLower {c : Nat} (h : isLower c = true) : isWhite c = false ∧ c ≠ 32 := by
  simp only [isLower, between, Bool.and_eq_true, decide_eq_true_eq] at h
  exact ⟨isWhite_of_ge (by omega) (by omega), by omega⟩

/-- However its words are typed and spaced, a phrase is normalized to its words. -/
theorem normalizeMnemonic_eq (hws : ∀ w ∈ ws, ∀ c ∈ w, isLower c = true)
    (htyped : (Words.words isWhite typed).map Controller.Restore.toLowerCase = ws) :
    normalizeMnemonic bip typed = Words.join 32 ws := by
  have hjoin : Words.collapse isWhite 32 (trim typed) = Words.join 32 (Words.words isWhite typed) :=
    Words.collapse_trim 32 typed
  have hascii : (Words.join 32 (Words.words isWhite typed)).all (· < 128) = true := by
    rw [List.all_eq_true]
    intro c hc
    refine decide_eq_true ?_
    rcases Words.mem_join hc with rfl | ⟨w, hw, hcw⟩
    · decide
    · have hmem : Controller.Restore.toLowerCase w ∈ ws := htyped ▸ List.mem_map_of_mem hw
      exact (lower_of_isLower (hws _ hmem _ (List.mem_map_of_mem hcw))).1
  rw [normalizeMnemonic, hjoin, toLowerCase, if_pos hascii, Words.join_map _ rfl, ← htyped]
  rfl

/-- No white space but the separator is left. -/
theorem eq_separator (hdoc : bip.Documented) {c : Nat} (hc : c ∈ normalizeMnemonic bip m)
    (hwhite : isWhite c = true) : c = 32 := by
  have hjoin : Words.collapse isWhite 32 (trim m) = Words.join 32 (Words.words isWhite m) :=
    Words.collapse_trim 32 m
  have hplain : ∀ d ∈ Words.join 32 (Words.words isWhite m), isWhite d = true → d = 32 := by
    intro d hd hdwhite
    rcases Words.mem_join hd with rfl | ⟨w, hw, hdw⟩
    · rfl
    · rw [(Words.mem_words hw hdw).1] at hdwhite
      cases hdwhite
  rw [normalizeMnemonic, hjoin, toLowerCase] at hc
  split at hc
  · obtain ⟨d, hd, rfl⟩ := List.mem_map.mp hc
    split at hwhite
    · rename_i hupper
      rw [isWhite_of_ge (by omega) (by omega)] at hwhite
      cases hwhite
    · rename_i hlower
      rw [if_neg hlower]
      exact hplain d hd hwhite
  · exact hplain c (hdoc.lowers _ c hc hwhite) hwhite

/-- A phrase is called valid exactly where it reads as a seed. -/
theorem isValidSeedMnemonic_iff (hdoc : bip.Documented) :
    isValidSeedMnemonic bip m = true ↔ ∃ seedHex, mnemonicToSeedHex bip m = .ok seedHex := by
  have hwhite : ∀ c ∈ normalizeMnemonic bip m, isWhite c = true → c = 32 := fun c => eq_separator hdoc
  unfold isValidSeedMnemonic mnemonicToSeedHex
  dsimp only
  rw [hdoc.validates]
  cases hentropy : bip.mnemonicToEntropy (normalizeMnemonic bip m) with
  | none => simp
  | some entropy =>
    have hcount := hdoc.counts _ entropy hwhite hentropy
    rw [Option.isSome_some, if_pos rfl]
    dsimp only
    constructor
    · intro h
      split at h
      · cases h
      · rename_i hwords
        rw [if_pos (by omega)]
        exact ⟨_, rfl⟩
    · rintro ⟨seedHex, h⟩
      split at h
      · rw [if_neg (by omega)]
      · cases h

/-- The words of a seed's phrase. -/
theorem seedHexToMnemonic_words (hdoc : bip.Documented) {phrase : Chars}
    (h : seedHexToMnemonic bip seedHex = .ok phrase) : isHex seedHex = true ∧
      (∀ w ∈ Words.words isWhite phrase, ∀ c ∈ w, isLower c = true) ∧
      Words.join 32 (Words.words isWhite phrase) = phrase ∧
      bip.mnemonicToEntropy phrase = some (hexToBytes seedHex) := by
  unfold seedHexToMnemonic at h
  split at h
  · rename_i hhex
    cases h
    have hlen := (bytesToHex_hexToBytes hhex).2
    obtain ⟨ws, -, hws, heq⟩ := hdoc.phrases _ hlen
    have hwords : Words.words isWhite (Words.join 32 ws) = ws :=
      Words.words_join (by decide) (fun w hw => (hws w hw).1)
        fun w hw c hc => (isWhite_of_isLower ((hws w hw).2 c hc)).1
    rw [heq, hwords]
    refine ⟨hhex, fun w hw => (hws w hw).2, rfl, ?_⟩
    rw [← heq]
    exact hdoc.decodes _ hlen
  · cases h

theorem mnemonicToSeedHex_typed (hdoc : bip.Documented) {phrase : Chars}
    (h : seedHexToMnemonic bip seedHex = .ok phrase)
    (htyped : (Words.words isWhite typed).map Controller.Restore.toLowerCase =
      Words.words isWhite phrase) :
    mnemonicToSeedHex bip typed = .ok (Controller.Restore.toLowerCase seedHex) := by
  obtain ⟨hhex, hletters, hjoin, hentropy⟩ := seedHexToMnemonic_words hdoc h
  obtain ⟨hprint, hlen⟩ := bytesToHex_hexToBytes hhex
  have hnormalized : normalizeMnemonic bip typed = phrase :=
    (normalizeMnemonic_eq hletters htyped).trans hjoin
  unfold mnemonicToSeedHex
  dsimp only
  rw [hnormalized, hdoc.validates, hentropy, Option.isSome_some, if_pos rfl]
  dsimp only
  rw [if_pos hlen, hprint]

/-- The phrase of a seed is the seed, with its words typed in either case and any white space
around them and between them: it reads as the seed's digits in lower case, is called valid,
and stands for them where a backup is opened. -/
theorem phrase_reads_back (hdoc : bip.Documented) {phrase : Chars}
    (h : seedHexToMnemonic bip seedHex = .ok phrase)
    (htyped : (Words.words isWhite typed).map Controller.Restore.toLowerCase =
      Words.words isWhite phrase) :
    mnemonicToSeedHex bip typed = .ok (Controller.Restore.toLowerCase seedHex) ∧
      isValidSeedMnemonic bip typed = true ∧
      normalizeBackupSecret bip typed = .ok (Controller.Restore.toLowerCase seedHex) := by
  have hseed := mnemonicToSeedHex_typed hdoc h htyped
  have hvalid := (isValidSeedMnemonic_iff hdoc).mpr ⟨_, hseed⟩
  refine ⟨hseed, hvalid, ?_⟩
  rw [normalizeBackupSecret, if_pos hvalid, hseed]

/-- A seed's digits are one word, and no phrase. -/
theorem isValidSeedMnemonic_of_isHex (bip : Bip39) {t : Chars} (h : isHex t = true) :
    isValidSeedMnemonic bip t = false := by
  unfold isHex at h
  rw [Bool.and_eq_true, decide_eq_true_eq, List.all_eq_true] at h
  have hne : t ≠ [] := fun hnil => by
    rw [hnil] at h
    cases h.1
  have hrange : ∀ c ∈ t, 48 ≤ c ∧ c < 128 := fun c hc => by
    have := Bolt11.anyHexDigit_range (h.2 c hc)
    omega
  have hwords : ∀ {space : CharClass}, (∀ c ∈ t, space c = false) → Words.words space t = [t] := by
    intro space hspace
    have := Words.words_append hne hspace (t := []) rfl
    rw [List.append_nil] at this
    exact this
  have hwhite : Words.words isWhite t = [t] :=
    hwords fun c hc => isWhite_of_anyHexDigit (h.2 c hc)
  have hnormalized : normalizeMnemonic bip t = Controller.Restore.toLowerCase t := by
    have hjoin : Words.collapse isWhite 32 (trim t) = t := by
      have hwords : Words.collapse isWhite 32 (trim t) = Words.join 32 (Words.words isWhite t) :=
        Words.collapse_trim 32 t
      rw [hwhite] at hwords
      exact hwords
    have hascii : t.all (· < 128) = true := by
      rw [List.all_eq_true]
      exact fun c hc => decide_eq_true (hrange c hc).2
    rw [normalizeMnemonic, hjoin, toLowerCase, if_pos hascii]
    rfl
  have hone : ((normalizeMnemonic bip t).splitOn 32).filter (· ≠ []) = [normalizeMnemonic bip t] := by
    rw [Words.filter_splitOn, hnormalized]
    have hlower : ∀ c ∈ Controller.Restore.toLowerCase t, exactly 32 c = false := by
      intro c hc
      obtain ⟨d, hd, rfl⟩ := List.mem_map.mp hc
      have hd := hrange d hd
      split <;> simp <;> omega
    have hne' : Controller.Restore.toLowerCase t ≠ [] := fun hnil => hne (List.map_eq_nil_iff.mp hnil)
    have := Words.words_append hne' hlower (t := []) rfl
    rw [List.append_nil] at this
    exact this
  unfold isValidSeedMnemonic
  dsimp only
  rw [hone, if_pos (by simp)]

/-- Every secret has a normal form, itself or the digits of the seed that it stands for, and the
normal form is its own. -/
theorem normalizeBackupSecret_ok (hdoc : bip.Documented) (secret : Chars) :
    ∃ r, normalizeBackupSecret bip secret = .ok r ∧ normalizeBackupSecret bip r = .ok r ∧
      (isValidSeedMnemonic bip secret = false ∧ r = secret ∨
        isValidSeedMnemonic bip secret = true ∧ isHex r = true) := by
  unfold normalizeBackupSecret
  cases hvalid : isValidSeedMnemonic bip secret with
  | false => exact ⟨secret, rfl, by rw [hvalid]; rfl, .inl ⟨rfl, rfl⟩⟩
  | true =>
    obtain ⟨seedHex, hseed⟩ := (isValidSeedMnemonic_iff hdoc).mp hvalid
    have hhex : isHex seedHex = true := by
      unfold mnemonicToSeedHex at hseed
      dsimp only at hseed
      split at hseed
      · split at hseed
        · cases hseed
        · split at hseed
          · rename_i hlen
            cases hseed
            exact isHex_bytesToHex hlen
          · cases hseed
      · cases hseed
    refine ⟨seedHex, by rw [if_pos rfl, hseed], ?_, .inr ⟨rfl, hhex⟩⟩
    rw [isValidSeedMnemonic_of_isHex bip hhex]
    rfl

end Reading

/-! ## A codec of words -/

namespace Examples

/-- The words of 32 zeros, as the English list has them. -/
def zeroWords : List Chars := List.replicate 23 (codes "abandon") ++ [codes "art"]

/-- For other entropies, their number is the length of the first word. -/
def wordsOf (entropy : List UInt8) : List Chars :=
  List.replicate (Encodable.encode (entropy.map UInt8.toNat) + 1) 97 :: List.replicate 23 [97]

def entropyOf (ws : List Chars) : Option (List UInt8) :=
  if ws.tail = List.replicate 23 [97] then
    (Encodable.decode ((ws.headD []).length - 1) : Option (List Nat)).map (·.map UInt8.ofNat)
  else none

def words : Async.Records.Code (List UInt8) (List Chars) where
  listed := [(List.replicate 32 0, zeroWords)]
  write := wordsOf
  read := entropyOf

def decodeWords (m : Chars) : Option (List UInt8) :=
  (words.decode ((m.splitOn 32).filter (· ≠ []))).filter (·.length = 32)

def bip : Bip39 where
  entropyToMnemonic := fun entropy => Words.join 32 (words.encode entropy)
  mnemonicToEntropy := decodeWords
  validateMnemonic := fun m => (decodeWords m).isSome
  unicode := id

/-- The words written are 24, of small letters. -/
theorem words_encode (entropy : List UInt8) : (words.encode entropy).length = 24 ∧
    ∀ w ∈ words.encode entropy, w ≠ [] ∧ ∀ c ∈ w, isLower c = true := by
  have hlisted : zeroWords.length = 24 ∧ ∀ w ∈ zeroWords, w ≠ [] ∧ ∀ c ∈ w, isLower c = true := by decide
  rcases words.encode_cases entropy with hmem | heq
  · have hws : words.encode entropy = zeroWords := congrArg Prod.snd (List.mem_singleton.mp hmem)
    rw [hws]
    exact hlisted
  · rw [heq]
    refine ⟨by simp [words, wordsOf], fun w hw => ?_⟩
    rcases List.mem_cons.mp hw with rfl | hw
    · exact ⟨by simp, fun c hc => by rw [List.eq_of_mem_replicate hc]; rfl⟩
    · rw [List.eq_of_mem_replicate hw]
      exact ⟨by simp, fun c hc => by rw [List.mem_singleton.mp hc]; rfl⟩

theorem words_lawful : words.Lawful where
  distinct := List.nodup_singleton _
  apart := by
    intro entropy e he heq
    have htail : zeroWords.tail = List.replicate 23 [97] :=
      (congrArg (·.2.tail) (List.mem_singleton.mp he)).symm.trans (congrArg List.tail heq)
    exact absurd htail (by decide)
  reads := by
    intro entropy
    have hbytes : (entropy.map UInt8.toNat).map UInt8.ofNat = entropy := by
      rw [List.map_map]
      exact (List.map_congr_left fun b _ => UInt8.ofNat_toNat).trans (List.map_id entropy)
    simp only [words, entropyOf, wordsOf, List.tail_cons, if_true, List.headD_cons, List.length_replicate,
      Nat.add_sub_cancel, Encodable.encodek, Option.map_some, hbytes]

/-- What decodes is 24 words. -/
theorem length_of_decode {ws : List Chars} {entropy : List UInt8} (h : words.decode ws = some entropy) :
    ws.length = 24 := by
  rcases Option.or_eq_some_iff.mp h with h | ⟨-, h⟩
  · obtain ⟨e, hfind, -⟩ := Option.map_eq_some_iff.mp h
    have hws : e.2 = ws := by simpa using List.find?_some hfind
    rw [← hws, List.mem_singleton.mp (List.mem_of_find?_eq_some hfind)]
    rfl
  · unfold words entropyOf at h
    dsimp only at h
    split at h
    · rename_i htail
      have hcount := congrArg List.length htail
      rw [List.length_tail, List.length_replicate] at hcount
      omega
    · cases h

theorem documented : bip.Documented where
  validates := fun m => rfl
  counts := by
    intro m entropy _ h
    obtain ⟨hdecode, hlen⟩ := Option.filter_eq_some_iff.mp h
    have h32 : entropy.length = 32 := of_decide_eq_true hlen
    rw [length_of_decode hdecode, h32]
  phrases := fun entropy _ => ⟨words.encode entropy, (words_encode entropy).1, (words_encode entropy).2, rfl⟩
  decodes := by
    intro entropy h
    have hletters := (words_encode entropy).2
    have hsplit : ((Words.join 32 (words.encode entropy)).splitOn 32).filter (· ≠ []) = words.encode entropy := by
      rw [Words.filter_splitOn]
      refine Words.words_join (by decide) (fun w hw => (hletters w hw).1) fun w hw c hc => ?_
      have hletter := (isWhite_of_isLower ((hletters w hw).2 c hc)).2
      simpa using hletter
    simp only [bip, decodeWords, hsplit]
    rw [Async.Records.Code.decode_encode words_lawful, Option.filter_some, if_pos (decide_eq_true h)]
  lowers := fun t c hc _ => hc

/-- A seed of zeros. -/
def zeros : Chars := List.replicate 64 48

/-- Its phrase. -/
def phrase : Chars := Words.join 32 zeroWords

/-- The phrase as somebody types it: capitals, two spaces between the words and the end of a line. -/
def typed : Chars :=
  (List.replicate 23 (codes "Abandon  ")).flatten ++ codes "ART\n"

theorem seedHexToMnemonic_zeros : seedHexToMnemonic bip zeros = .ok phrase := by
  decide +kernel

theorem words_typed : (Words.words isWhite typed).map Controller.Restore.toLowerCase =
    Words.words isWhite phrase := by
  decide +kernel

end Examples

open Examples

/-- A phrase in capitals, with more white space, is the seed of zeros. -/
theorem phrase_reads_back_zeros :
    mnemonicToSeedHex bip typed = .ok (Controller.Restore.toLowerCase zeros) ∧
      isValidSeedMnemonic bip typed = true ∧
      normalizeBackupSecret bip typed = .ok (Controller.Restore.toLowerCase zeros) :=
  phrase_reads_back documented seedHexToMnemonic_zeros words_typed

end LibreWallet.Backup
