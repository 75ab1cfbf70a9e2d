import LibreWallet.Bolt11.Hints
import LibreWallet.Text.Bech32

/-
  Bolt11/Invoice.lean --- what an invoice says, and that appending route hints keeps it.

  The data of an invoice are a timestamp of seven words and tagged fields, each a type, a length over two words
  and as many words; an `r` field holds hops of 408 bits.
-/

set_option autoImplicit false

namespace LibreWallet.Bolt11

open Numbers Text

/-! ## Reading an invoice -/

structure TaggedField where
  type : Nat
  data : List Nat
  deriving DecidableEq, Repr

/-- The tagged fields of the words, if they come out even. -/
def readFieldsWithin : Nat → List Nat → Option (List TaggedField)
  | _, [] => some []
  | fuel + 1, type :: hi :: lo :: rest =>
    let len := hi * 32 + lo
    if rest.length < len then none
    else (readFieldsWithin fuel (rest.drop len)).map (⟨type, rest.take len⟩ :: ·)
  | _, _ => none

def readFields (words : List Nat) : Option (List TaggedField) := readFieldsWithin words.length words

structure Invoice where
  hrp : List Nat
  timestamp : Nat
  fields : List TaggedField
  signature : List Nat
  deriving DecidableEq, Repr

/-- The characters of an invoice: prefix, separator, data and checksum. -/
def Invoice.length (inv : Invoice) : Nat :=
  inv.hrp.length + 1 + (TIMESTAMP_WORDS + (inv.fields.map fun f => 3 + f.data.length).sum + SIG_WORDS) + 6

/-- There is an `r` field. -/
def Invoice.hinted (inv : Invoice) : Bool := inv.fields.any fun f => f.type = ROUTING_TAG_TYPE

/-- Hexadecimal digits of groups of four bits. -/
def nibbles : List Bool → List Nat
  | a :: b :: c :: d :: rest => digitCode (ofBits [a, b, c, d]) :: nibbles rest
  | _ => []

/-- A hop: 264 bits of public key, 64 of channel id, 32 of each fee and 16 of expiry delta. -/
def readHop (bs : List Bool) : HintHop where
  srcNodeId := nibbles (bs.take 264)
  scid := ofBits ((bs.drop 264).take 64)
  feeBaseMsat := .integer (ofBits ((bs.drop 328).take 32))
  feeProportionalMillionths := .integer (ofBits ((bs.drop 360).take 32))
  cltvExpiryDelta := .integer (ofBits ((bs.drop 392).take 16))

def readHops (data : List Nat) : List HintHop :=
  let bs := data.flatMap (bits 5)
  (List.range (bs.length / 408)).map fun i => readHop ((bs.drop (408 * i)).take 408)

section Reading

variable (im : Imports)

def readInvoice (text : List Nat) : Option Invoice := do
  let (hrp, words) ← im.decode (toLowerCase im.unicode text) LIMIT
  if words.length ≤ TIMESTAMP_WORDS + SIG_WORDS then none
  else
    let data := words.take (words.length - SIG_WORDS)
    let fields ← readFields (data.drop TIMESTAMP_WORDS)
    some { hrp, timestamp := ofBits ((data.take TIMESTAMP_WORDS).flatMap (bits 5)), fields,
           signature := words.drop (words.length - SIG_WORDS) }

/-- The key that the signature of an invoice recovers to. -/
def payee (text : List Nat) : Except Failure (List Nat) := do
  let parsed ← parseInvoice im text
  recoverPayee im (signingHash im parsed.hrp parsed.dataWords) parsed.sigWords

/-- The hint with its key in lower case. -/
def HintHop.lower (hint : HintHop) : HintHop :=
  { hint with srcNodeId := toLowerCase im.unicode hint.srcNodeId }

/-- Each part fits the bits that a hop has for it. -/
structure HintHop.InRange (hint : HintHop) : Prop where
  key : hint.srcNodeId.length = 66 ∧ hint.srcNodeId.all anyHexDigit = true
  scid : ∃ v < 2 ^ 64, hint.scid = (v : Nat)
  base : ∃ v < 2 ^ 32, hint.feeBaseMsat = .integer (v : Nat)
  proportional : ∃ v < 2 ^ 32, hint.feeProportionalMillionths = .integer (v : Nat)
  delta : ∃ v < 2 ^ 16, hint.cltvExpiryDelta = .integer (v : Nat)

/-- An `r` field with one hop, the hint. -/
structure Carries (field : TaggedField) (hint : HintHop) : Prop where
  type_eq : field.type = ROUTING_TAG_TYPE
  hops : readHops field.data = [hint.lower im]

/-- What the module relies on. -/
structure Imports.Lawful : Prop where
  /-- Words have five bits. -/
  decode_lt : ∀ text limit hrp words, im.decode text limit = some (hrp, words) → ∀ w ∈ words, w < 32
  /-- With a prefix that comes from a text, words within the limit are encoded, and decoded again. -/
  decode_encode : ∀ text limit hrp words limit' words', im.decode text limit = some (hrp, words) →
    (∀ w ∈ words', w < 32) → hrp.length + 7 + words'.length ≤ limit' →
    ∃ text', im.encode hrp words' limit' = some text' ∧
      im.decode (toLowerCase im.unicode text') limit' = some (hrp, words')
  sha256_length : ∀ m, (im.sha256 m).length = 32
  /-- The signature of a hash recovers to the key of its secret. -/
  recover_sign : ∀ secret key hash, im.getPublicKey secret = some key → hash.length = 32 →
    ∃ recovery signature, im.sign hash secret = some (recovery :: signature) ∧ signature.length = 64 ∧
      im.recoverPublicKey signature recovery hash = some key

end Reading

/-! ## Fields -/

/-- Words that are tagged fields, one after another. -/
inductive Fields : List Nat → List TaggedField → Prop where
  | nil : Fields [] []
  | cons {type hi lo : Nat} {data rest : List Nat} {fs : List TaggedField} (hlen : data.length = hi * 32 + lo)
    (h : Fields rest fs) : Fields (type :: hi :: lo :: (data ++ rest)) (⟨type, data⟩ :: fs)

section Fields

variable {words rest : List Nat} {fs gs : List TaggedField}

theorem Fields.append (h : Fields words fs) (h' : Fields rest gs) : Fields (words ++ rest) (fs ++ gs) := by
  induction h with
  | nil => exact h'
  | cons hlen _ ih =>
    rw [List.cons_append, List.cons_append, List.cons_append, List.append_assoc]
    exact .cons hlen ih

theorem Fields.length (h : Fields words fs) : words.length = (fs.map fun f => 3 + f.data.length).sum := by
  induction h with
  | nil => rfl
  | cons hlen _ ih =>
    simp only [List.length_cons, List.length_append, List.map_cons, List.sum_cons, ih]
    omega

theorem fields_of_readFieldsWithin {fuel : Nat} (h : readFieldsWithin fuel words = some fs) : Fields words fs := by
  induction fuel generalizing words fs with
  | zero =>
    cases words with
    | nil =>
      cases h
      exact .nil
    | cons w words => simp [readFieldsWithin] at h
  | succ fuel ih =>
    rcases words with - | ⟨type, - | ⟨hi, - | ⟨lo, rest⟩⟩⟩
    · cases h
      exact .nil
    · cases h
    · cases h
    · rw [readFieldsWithin] at h
      split at h
      · cases h
      · rename_i hfits
        obtain ⟨gs, hgs, rfl⟩ := Option.map_eq_some_iff.mp h
        have hlen : (rest.take (hi * 32 + lo)).length = hi * 32 + lo := by
          rw [List.length_take]
          omega
        have hcons := @Fields.cons type hi lo _ _ _ hlen (ih hgs)
        rwa [List.take_append_drop] at hcons

theorem Fields.readFieldsWithin {fuel : Nat} (h : Fields words fs) (hfuel : words.length ≤ fuel) :
    Bolt11.readFieldsWithin fuel words = some fs := by
  induction h generalizing fuel with
  | nil => cases fuel <;> rfl
  | @cons type hi lo data rest fs hlen _ ih =>
    obtain ⟨fuel, rfl⟩ := Nat.exists_eq_succ_of_ne_zero (n := fuel) (by rw [List.length_cons] at hfuel; omega)
    have hrest : rest.length ≤ fuel := by
      simp only [List.length_cons, List.length_append] at hfuel
      omega
    have hfits : ¬(data ++ rest).length < hi * 32 + lo := by
      rw [List.length_append]
      omega
    rw [Bolt11.readFieldsWithin, if_neg hfits, ← hlen, List.take_left, List.drop_left, ih hrest, Option.map_some]

theorem readFields_iff : readFields words = some fs ↔ Fields words fs :=
  ⟨fields_of_readFieldsWithin, fun h => h.readFieldsWithin le_rfl⟩

/-- The loop of `hasRouteHint` comes to an `r` field if there is one. -/
theorem Fields.routeHintFrom (before : List Nat) (h : Fields words fs) :
    Bolt11.routeHintFrom (before ++ words) before.length = fs.any fun f => f.type = ROUTING_TAG_TYPE := by
  induction h generalizing before with
  | nil =>
    rw [List.append_nil, Bolt11.routeHintFrom, dif_neg (by omega)]
    rfl
  | @cons type hi lo data rest fs hlen _ ih =>
    have hfits : before.length + 3 ≤ (before ++ (type :: hi :: lo :: (data ++ rest))).length := by
      simp only [List.length_append, List.length_cons]
      omega
    have hnext : before ++ (type :: hi :: lo :: (data ++ rest)) = (before ++ (type :: hi :: lo :: data)) ++ rest := by
      simp
    have hpos : (before ++ (type :: hi :: lo :: data)).length = before.length + (3 + (hi * 32 + lo)) := by
      simp only [List.length_append, List.length_cons, hlen]
      omega
    rw [Bolt11.routeHintFrom, dif_pos hfits]
    simp only [List.getElem_append_right (Nat.le_refl _), List.getElem_append_right (Nat.le_add_right _ _), Nat.sub_self,
      Nat.add_sub_cancel_left, List.getElem_cons_zero, List.getElem_cons_succ]
    rw [List.any_cons]
    by_cases htype : type = ROUTING_TAG_TYPE
    · rw [if_pos htype, decide_eq_true htype, Bool.true_or]
    · rw [if_neg htype, decide_eq_false htype, Bool.false_or, hnext, ← hpos]
      exact ih _

end Fields

/-! ## A hop -/

section Hex

variable {c : Nat} {hex : List Nat}

theorem hexDigit_range (h : hexDigit c = true) : (48 ≤ c ∧ c ≤ 57) ∨ (97 ≤ c ∧ c ≤ 102) := by
  simpa [hexDigit, between] using h

theorem anyHexDigit_range (h : anyHexDigit c = true) : (48 ≤ c ∧ c ≤ 57) ∨ (97 ≤ c ∧ c ≤ 102) ∨ (65 ≤ c ∧ c ≤ 70) := by
  simpa [anyHexDigit, hexDigit, between, or_assoc] using h

theorem hexValue_lt (h : hexDigit c = true) : hexValue c < 16 := by
  have hrange := hexDigit_range h
  unfold hexValue digitValue
  split
  · omega
  · split
    · omega
    · omega

theorem digitCode_hexValue (h : hexDigit c = true) : digitCode (hexValue c) = c := by
  rcases hexDigit_range h with ⟨hlo, hhi⟩ | ⟨hlo, hhi⟩
  · interval_cases c <;> rfl
  · interval_cases c <;> rfl

/-- Of hexadecimal digits in either case, in lower case. -/
theorem toLowerCase_hex (unicode : List Nat → List Nat) (h : hex.all anyHexDigit = true) :
    (toLowerCase unicode hex).length = hex.length ∧ ∀ c ∈ toLowerCase unicode hex, hexDigit c = true := by
  have hrange : ∀ c ∈ hex, (48 ≤ c ∧ c ≤ 57) ∨ (97 ≤ c ∧ c ≤ 102) ∨ (65 ≤ c ∧ c ≤ 70) :=
    fun c hc => anyHexDigit_range (List.all_eq_true.mp h c hc)
  have hascii : hex.all (· < 128) = true := by
    refine List.all_eq_true.mpr fun c hc => decide_eq_true ?_
    have hc := hrange c hc
    omega
  rw [toLowerCase, if_pos hascii]
  refine ⟨List.length_map _, fun c hc => ?_⟩
  obtain ⟨d, hd, rfl⟩ := List.mem_map.mp hc
  have hd := hrange d hd
  simp only [hexDigit, between, Bool.or_eq_true, Bool.and_eq_true, decide_eq_true_eq]
  split
  · omega
  · omega

/-- The bits of the bytes are those of the digits. -/
theorem bits_parseBytes {n : Nat} (hlen : hex.length = n * 2) (h : ∀ c ∈ hex, hexDigit c = true) :
    (parseBytes hex).length = n ∧
      (octets (parseBytes hex)).flatMap (bits 8) = hex.flatMap fun c => bits 4 (hexValue c) := by
  induction n generalizing hex with
  | zero =>
    obtain rfl := List.length_eq_zero_iff.mp (hlen.trans (Nat.zero_mul 2))
    exact ⟨rfl, rfl⟩
  | succ n ih =>
    rcases hex with - | ⟨hi, - | ⟨lo, rest⟩⟩
    · rw [List.length_nil] at hlen
      omega
    · rw [List.length_singleton] at hlen
      omega
    · have hhi := hexValue_lt (h hi List.mem_cons_self)
      have hlo := hexValue_lt (h lo (List.mem_cons_of_mem _ List.mem_cons_self))
      obtain ⟨hcount, hbits⟩ := ih (by simp only [List.length_cons] at hlen; omega)
        fun c hc => h c (List.mem_cons_of_mem _ (List.mem_cons_of_mem _ hc))
      have hbyte : (UInt8.ofNat (16 * hexValue hi + hexValue lo)).toNat = 16 * hexValue hi + hexValue lo :=
        Nat.mod_eq_of_lt (by omega)
      have hshift : (16 * hexValue hi + hexValue lo) >>> 4 = hexValue hi := by
        rw [Nat.shiftRight_eq_div_pow]
        omega
      have hmod : bits 4 (16 * hexValue hi + hexValue lo) = bits 4 (hexValue lo) := by
        refine bits_congr fun i hi' => ?_
        have hsum : 16 * hexValue hi + hexValue lo = 2 ^ 4 * hexValue hi + hexValue lo := rfl
        rw [hsum, Nat.testBit_two_pow_mul_add _ hlo, if_pos hi']
      rw [parseBytes, octets, List.map_cons, List.flatMap_cons, ← octets, hbits, hbyte]
      refine ⟨by rw [List.length_cons, hcount], ?_⟩
      rw [bits_add 4 4, hshift, hmod, List.append_assoc]
      rfl

theorem nibbles_hex (h : ∀ c ∈ hex, hexDigit c = true) : nibbles (hex.flatMap fun c => bits 4 (hexValue c)) = hex := by
  induction hex with
  | nil => rfl
  | cons c hex ih =>
    have hc := h c List.mem_cons_self
    have hhead : nibbles ((c :: hex).flatMap fun c => bits 4 (hexValue c)) =
        digitCode (ofBits (bits 4 (hexValue c))) :: nibbles (hex.flatMap fun c => bits 4 (hexValue c)) := rfl
    rw [hhead, ofBits_bits_of_lt (hexValue_lt hc), digitCode_hexValue hc,
      ih fun d hd => h d (List.mem_cons_of_mem _ hd)]

end Hex

section Payload

variable {front zeros rest : List UInt8} {offset k : Nat}

/-- The low `k` bytes of a number, the most significant first. -/
def bigEndian : Nat → Nat → List UInt8
  | 0, _ => []
  | k + 1, v => bigEndian k (v / 256) ++ [UInt8.ofNat (v % 256)]

theorem length_bigEndian (k v : Nat) : (bigEndian k v).length = k := by
  induction k generalizing v with
  | zero => rfl
  | succ k ih => rw [bigEndian, List.length_append, ih, List.length_singleton]

theorem bits_bigEndian (k v : Nat) : (octets (bigEndian k v)).flatMap (bits 8) = bits (8 * k) v := by
  induction k generalizing v with
  | zero => rfl
  | succ k ih =>
    have hbyte : (UInt8.ofNat (v % 256)).toNat = v % 2 ^ 8 := Nat.mod_mod v 256
    have hlow : bits 8 (v % 2 ^ 8) = bits 8 v := by
      refine bits_congr fun i hi => ?_
      rw [Nat.testBit_mod_two_pow, decide_eq_true hi, Bool.true_and]
    have hhigh : v >>> 8 = v / 256 := Nat.shiftRight_eq_div_pow v 8
    rw [bigEndian, octets, List.map_append, List.flatMap_append, ← octets, ih, List.map_singleton,
      List.flatMap_singleton, hbyte, hlow, Nat.mul_succ, bits_add, hhigh]

theorem bits_octets_append (front rest : List UInt8) :
    (octets (front ++ rest)).flatMap (bits 8) = (octets front).flatMap (bits 8) ++ (octets rest).flatMap (bits 8) := by
  rw [octets, List.map_append, List.flatMap_append]
  rfl

/-- The loop writes the bytes of a number over as many others. -/
theorem writeUIntBE_append (hoffset : front.length = offset) (v : Nat) (hzeros : zeros.length = k) :
    writeUIntBE (front ++ (zeros ++ rest)) (v : ℤ) offset k = front ++ (bigEndian k v ++ rest) := by
  induction k generalizing v zeros rest with
  | zero =>
    obtain rfl := List.length_eq_zero_iff.mp hzeros
    rfl
  | succ k ih =>
    obtain ⟨zeros', z, rfl⟩ : ∃ zeros' z, zeros = zeros' ++ [z] := by
      refine ⟨zeros.dropLast, zeros.getLast (by rintro rfl; cases hzeros), ?_⟩
      exact (List.dropLast_append_getLast _).symm
    have hlen : zeros'.length = k := by
      rw [List.length_append, List.length_singleton] at hzeros
      omega
    have hset : (front ++ (zeros' ++ [z] ++ rest)).set (offset + k) (UInt8.ofNat (v % 256)) =
        front ++ (zeros' ++ (UInt8.ofNat (v % 256) :: rest)) := by
      rw [List.append_assoc, ← hoffset, ← hlen, List.set_append_right _ _ (Nat.le_add_right _ _),
        Nat.add_sub_cancel_left, List.set_append_right _ _ (Nat.le_refl _), Nat.sub_self]
      rfl
    have hmod : ((v : ℤ) % 256).toNat = v % 256 := by omega
    have hdiv : (v : ℤ) / 256 = (v / 256 : Nat) := by omega
    rw [writeUIntBE, hmod, hset, hdiv, ih _ hlen, bigEndian, List.append_assoc]
    rfl

end Payload

/-! ## The tags that are appended -/

section Tags

variable (im : Imports) {hint : HintHop} {hints : List HintHop} {newData : List Nat}

/-- The 408 bits of a hop. -/
def hopBits (hex : List Nat) (scid base proportional delta : Nat) : List Bool :=
  (hex.flatMap fun c => bits 4 (hexValue c)) ++
    (bits 64 scid ++ (bits 32 base ++ (bits 32 proportional ++ bits 16 delta)))

theorem length_hexBits (hex : List Nat) : (hex.flatMap fun c => bits 4 (hexValue c)).length = 4 * hex.length := by
  induction hex with
  | nil => rfl
  | cons c hex ih =>
    rw [List.flatMap_cons, List.length_append, length_bits, ih, List.length_cons]
    omega

theorem length_hopBits {hex : List Nat} (hlen : hex.length = 66) (scid base proportional delta : Nat) :
    (hopBits hex scid base proportional delta).length = 408 := by
  simp only [hopBits, List.length_append, length_hexBits, length_bits, hlen]

theorem slice_eq {pre mid post : List Bool} {m n : Nat} (hpre : pre.length = m) (hmid : mid.length = n) :
    ((pre ++ (mid ++ post)).drop m).take n = mid := by
  rw [← hpre, List.drop_left, ← hmid, List.take_left]

theorem readHop_hopBits {hex : List Nat} {scid base proportional delta : Nat} (hlen : hex.length = 66)
    (hhex : ∀ c ∈ hex, hexDigit c = true) (hscid : scid < 2 ^ 64) (hbase : base < 2 ^ 32)
    (hproportional : proportional < 2 ^ 32) (hdelta : delta < 2 ^ 16) :
    readHop (hopBits hex scid base proportional delta) =
      ⟨hex, scid, .integer base, .integer proportional, .integer delta⟩ := by
  have hkey : (hex.flatMap fun c => bits 4 (hexValue c)).length = 264 := by rw [length_hexBits, hlen]
  have hsrc : (hopBits hex scid base proportional delta).take 264 = hex.flatMap fun c => bits 4 (hexValue c) := by
    rw [hopBits, ← hkey, List.take_left]
  have hid : ((hopBits hex scid base proportional delta).drop 264).take 64 = bits 64 scid :=
    slice_eq hkey (length_bits 64 scid)
  have hfee : ((hopBits hex scid base proportional delta).drop 328).take 32 = bits 32 base := by
    rw [hopBits, ← List.append_assoc]
    exact slice_eq (by rw [List.length_append, hkey, length_bits]) (length_bits 32 base)
  have hrate : ((hopBits hex scid base proportional delta).drop 360).take 32 = bits 32 proportional := by
    rw [hopBits, ← List.append_assoc, ← List.append_assoc]
    refine slice_eq ?_ (length_bits 32 proportional)
    simp only [List.length_append, hkey, length_bits]
  have hexpiry : ((hopBits hex scid base proportional delta).drop 392).take 16 = bits 16 delta := by
    rw [hopBits, ← List.append_assoc, ← List.append_assoc, ← List.append_assoc, ← List.append_nil (bits 16 delta)]
    refine slice_eq ?_ (length_bits 16 delta)
    simp only [List.length_append, hkey, length_bits]
  rw [readHop, hsrc, hid, hfee, hrate, hexpiry, nibbles_hex hhex, ofBits_bits_of_lt hscid, ofBits_bits_of_lt hbase,
    ofBits_bits_of_lt hproportional, ofBits_bits_of_lt hdelta]

/-- The payload of a hint is 51 bytes with the bits of the hop. -/
theorem bits_payload {key : List UInt8} (hkey : key.length = 33) (scid base proportional delta : Nat) :
    let payload := writeUIntBE (writeUIntBE (writeUIntBE (writeUIntBE (key ++ List.replicate 18 0) scid 33 8) base 41 4)
      proportional 45 4) delta 49 2
    payload.length = 51 ∧ (octets payload).flatMap (bits 8) = (octets key).flatMap (bits 8) ++
      (bits 64 scid ++ (bits 32 base ++ (bits 32 proportional ++ bits 16 delta))) := by
  intro payload
  have hzeros : List.replicate 18 (0 : UInt8) =
      List.replicate 8 0 ++ (List.replicate 4 0 ++ (List.replicate 4 0 ++ (List.replicate 2 0 ++ []))) := rfl
  have hpayload : payload = key ++ (bigEndian 8 scid ++ (bigEndian 4 base ++ (bigEndian 4 proportional ++
      (bigEndian 2 delta ++ [])))) := by
    have hscid : (key ++ bigEndian 8 scid).length = 41 := by rw [List.length_append, length_bigEndian, hkey]
    have hbase : (key ++ bigEndian 8 scid ++ bigEndian 4 base).length = 45 := by
      rw [List.length_append, length_bigEndian, hscid]
    have hproportional : (key ++ bigEndian 8 scid ++ bigEndian 4 base ++ bigEndian 4 proportional).length = 49 := by
      rw [List.length_append, length_bigEndian, hbase]
    simp only [payload, hzeros]
    rw [writeUIntBE_append hkey scid List.length_replicate, ← List.append_assoc key,
      writeUIntBE_append hscid base List.length_replicate, ← List.append_assoc (key ++ bigEndian 8 scid),
      writeUIntBE_append hbase proportional List.length_replicate, ← List.append_assoc (key ++ _ ++ _),
      writeUIntBE_append hproportional delta List.length_replicate]
    simp only [List.append_assoc]
  rw [hpayload]
  constructor
  · simp only [List.length_append, length_bigEndian, hkey, List.length_nil]
  · simp only [bits_octets_append, bits_bigEndian, List.append_nil]

/-- The words of 51 bytes: 82 of them, the last with two zeros. -/
theorem words_of_payload {payload : List UInt8} {bs : List Bool} (hlen : payload.length = 51)
    (hbits : (octets payload).flatMap (bits 8) = bs) :
    (bytesToWordsPadded payload).length = 82 ∧ (bytesToWordsPadded payload).flatMap (bits 5) = bs ++ [false, false] := by
  obtain ⟨pad, hpad, hwords⟩ := (bytesToWordsPadded_regroups payload).bits_eq
  have hcount := congrArg List.length hwords
  rw [length_flatMap_bits, List.length_append, length_flatMap_bits, List.length_replicate, octets, List.length_map,
    hlen] at hcount
  obtain rfl : pad = 2 := by omega
  rw [hbits] at hwords
  exact ⟨by omega, hwords⟩

theorem readHops_of_bits {data : List Nat} {bs : List Bool} (hlen : bs.length = 408)
    (hdata : data.flatMap (bits 5) = bs ++ [false, false]) : readHops data = [readHop bs] := by
  have hcount : (bs ++ [false, false]).length / 408 = 1 := by
    rw [List.length_append, hlen]
    rfl
  have htake : ((bs ++ [false, false]).drop (408 * 0)).take 408 = bs := by
    rw [Nat.mul_zero, List.drop_zero, ← hlen, List.take_left]
  rw [readHops, hdata]
  simp only [hcount, List.range_one, List.map_singleton, htake]

/-- What the tag of a hint in range is made of. -/
theorem encodeRoutingTag_eq (h : hint.InRange) : ∃ payload : List UInt8,
    encodeRoutingTag im hint = .ok (ROUTING_TAG_TYPE :: (bytesToWordsPadded payload).length / 32 ::
      (bytesToWordsPadded payload).length % 32 :: bytesToWordsPadded payload) ∧
    payload.length = 51 ∧ ∃ bs, (octets payload).flatMap (bits 8) = bs ∧ bs.length = 408 ∧
      readHop bs = hint.lower im := by
  obtain ⟨hlen, hlower⟩ := toLowerCase_hex im.unicode h.key.2
  rw [h.key.1] at hlen
  obtain ⟨scid, hscid, hscid'⟩ := h.scid
  obtain ⟨base, hbase, hbase'⟩ := h.base
  obtain ⟨proportional, hproportional, hproportional'⟩ := h.proportional
  obtain ⟨delta, hdelta, hdelta'⟩ := h.delta
  have hpairs : (toLowerCase im.unicode hint.srcNodeId).length = 33 * 2 := hlen
  obtain ⟨hkey, hkeybits⟩ := bits_parseBytes hpairs hlower
  obtain ⟨hpayload, hbits⟩ := bits_payload hkey scid base proportional delta
  have hany : (toLowerCase im.unicode hint.srcNodeId).all anyHexDigit = true :=
    List.all_eq_true.mpr fun c hc => by rw [anyHexDigit, hlower c hc, Bool.true_or]
  have hstrict : hexToBytesStrict (toLowerCase im.unicode hint.srcNodeId) 33 "hint srcNodeId" =
      .ok (parseBytes (toLowerCase im.unicode hint.srcNodeId)) := if_pos ⟨hpairs, hany⟩
  have hset : setAt (List.replicate 51 0) (parseBytes (toLowerCase im.unicode hint.srcNodeId)) 0 =
      .ok (parseBytes (toLowerCase im.unicode hint.srcNodeId) ++ List.replicate 18 0) := by
    rw [setAt, hkey]
    rfl
  refine ⟨_, ?_, hpayload, _, hbits, ?_, ?_⟩
  · rw [encodeRoutingTag, hstrict, hbase', hproportional', hdelta', hscid']
    simp only [bind, Except.bind, hset, bigInt]
  · rw [hkeybits]
    exact length_hopBits hlen scid base proportional delta
  · rw [hkeybits]
    refine (readHop_hopBits hlen hlower hscid hbase hproportional hdelta).trans ?_
    rw [HintHop.lower, ← hscid', ← hbase', ← hproportional', ← hdelta']

/-- The tag of a hint in range is an `r` field that carries it. -/
theorem encodeRoutingTag_of_inRange (h : hint.InRange) :
    ∃ tag field, encodeRoutingTag im hint = .ok tag ∧ Fields tag [field] ∧ Carries im field hint ∧ tag.length = 85 ∧
      ∀ w ∈ tag, w < 32 := by
  obtain ⟨payload, htag, hpayload, bs, hbits, hbs, hhop⟩ := encodeRoutingTag_eq im h
  obtain ⟨hcount, hdata⟩ := words_of_payload hpayload hbits
  have hlt := bytesToWordsPadded_lt payload
  rw [hcount] at htag
  generalize bytesToWordsPadded payload = data at htag hcount hdata hlt
  refine ⟨_, ⟨ROUTING_TAG_TYPE, data⟩, htag, ?_, ⟨rfl, ?_⟩, ?_, ?_⟩
  · have hlen : data.length = 82 / 32 * 32 + 82 % 32 := by rw [hcount]
    have hfields := @Fields.cons ROUTING_TAG_TYPE (82 / 32) (82 % 32) data [] [] hlen .nil
    rwa [List.append_nil] at hfields
  · rw [readHops_of_bits hbs hdata, hhop]
  · simp only [List.length_cons, hcount]
  · intro w hw
    simp only [List.mem_cons] at hw
    rcases hw with rfl | rfl | rfl | hw
    · decide
    · decide
    · decide
    · exact hlt w hw

variable (newData) in
/-- Tags of hints in range are appended after the fields that are there. -/
theorem pushTags_of_inRange (h : ∀ hint ∈ hints, hint.InRange) :
    ∃ tags routes, pushTags im newData hints = .ok (newData ++ tags) ∧ Fields tags routes ∧
      List.Forall₂ (Carries im) routes hints ∧ tags.length = 85 * hints.length ∧ ∀ w ∈ tags, w < 32 := by
  induction hints generalizing newData with
  | nil => exact ⟨[], [], by rw [pushTags, List.append_nil], .nil, .nil, rfl, fun w hw => absurd hw List.not_mem_nil⟩
  | cons hint hints ih =>
    obtain ⟨tag, field, htag, hfields, hcarries, hlen, hlt⟩ :=
      encodeRoutingTag_of_inRange im (h hint List.mem_cons_self)
    obtain ⟨tags, routes, htags, hroutes, hall, hcount, hlts⟩ :=
      ih (newData ++ tag) fun hint' hh => h hint' (List.mem_cons_of_mem _ hh)
    refine ⟨tag ++ tags, field :: routes, ?_, hfields.append hroutes, .cons hcarries hall, ?_, ?_⟩
    · rw [pushTags, htag, ← List.append_assoc]
      exact htags
    · rw [List.length_append, hlen, hcount, List.length_cons]
      omega
    · intro w hw
      rcases List.mem_append.mp hw with hw | hw
      · exact hlt w hw
      · exact hlts w hw

end Tags

/-! ## The invoice that comes back -/

section Invoice

variable {im : Imports} {text hrp data signature ts words : List Nat} {inv : Invoice} {fs : List TaggedField}
variable {key : List UInt8} {secret : List UInt8}

/-- An invoice that reads is parsed, into its parts. -/
theorem parse_of_readInvoice (h : readInvoice im text = some inv) :
    ∃ ts words, im.decode (toLowerCase im.unicode text) LIMIT = some (inv.hrp, (ts ++ words) ++ inv.signature) ∧
      parseInvoice im text = .ok ⟨inv.hrp, ts ++ words, inv.signature⟩ ∧ ts.length = TIMESTAMP_WORDS ∧
      Fields words inv.fields ∧ inv.timestamp = ofBits (ts.flatMap (bits 5)) ∧ inv.signature.length = SIG_WORDS ∧
      words ≠ [] := by
  obtain ⟨⟨hrp, all⟩, hdecode, h⟩ := Option.bind_eq_some_iff.mp h
  simp only at h
  split at h
  · cases h
  · rename_i hlong
    obtain ⟨fields, hfields, h⟩ := Option.bind_eq_some_iff.mp h
    cases h
    have hsplit : (all.take (all.length - SIG_WORDS)).take TIMESTAMP_WORDS ++
        (all.take (all.length - SIG_WORDS)).drop TIMESTAMP_WORDS = all.take (all.length - SIG_WORDS) :=
      List.take_append_drop _ _
    refine ⟨(all.take (all.length - SIG_WORDS)).take TIMESTAMP_WORDS,
      (all.take (all.length - SIG_WORDS)).drop TIMESTAMP_WORDS, ?_, ?_, ?_, readFields_iff.mp hfields, rfl, ?_, ?_⟩
    · rw [hsplit, List.take_append_drop]
      exact hdecode
    · rw [hsplit, parseInvoice, hdecode]
      simp only [bind, Except.bind, returned, if_neg hlong]
    · simp only [List.length_take, TIMESTAMP_WORDS, SIG_WORDS] at hlong ⊢
      omega
    · simp only [List.length_drop, TIMESTAMP_WORDS, SIG_WORDS] at hlong ⊢
      omega
    · intro hnil
      have hlen := congrArg List.length hnil
      simp only [List.length_drop, List.length_take, List.length_nil, TIMESTAMP_WORDS, SIG_WORDS] at hlong hlen
      omega

/-- `hasRouteHint` says of an invoice that reads whether it has an `r` field. -/
theorem hasRouteHint_of_read (h : readInvoice im text = some inv) : hasRouteHint im text = .ok inv.hinted := by
  obtain ⟨ts, words, -, hparse, hts, hfields, -⟩ := parse_of_readInvoice h
  have hfound := hfields.routeHintFrom ts
  rw [hts] at hfound
  rw [hasRouteHint, hparse]
  exact congrArg Except.ok hfound

/-- A text of a timestamp, fields and a signature is parsed and reads. -/
theorem parse_of_decode (hdecode : im.decode (toLowerCase im.unicode text) LIMIT = some (hrp, (ts ++ words) ++ signature))
    (hts : ts.length = TIMESTAMP_WORDS) (hwords : words ≠ []) (hfields : Fields words fs)
    (hsignature : signature.length = SIG_WORDS) :
    parseInvoice im text = .ok ⟨hrp, ts ++ words, signature⟩ ∧
      readInvoice im text = some ⟨hrp, ofBits (ts.flatMap (bits 5)), fs, signature⟩ := by
  have hpos := List.length_pos_iff.mpr hwords
  have hlong : ¬((ts ++ words) ++ signature).length ≤ TIMESTAMP_WORDS + SIG_WORDS := by
    simp only [List.length_append]
    omega
  have hcut : ((ts ++ words) ++ signature).length - SIG_WORDS = (ts ++ words).length := by
    rw [List.length_append, hsignature, Nat.add_sub_cancel]
  have hread : readFields words = some fs := readFields_iff.mpr hfields
  have htake : (ts ++ words).take TIMESTAMP_WORDS = ts := by rw [← hts, List.take_left]
  have hdrop : (ts ++ words).drop TIMESTAMP_WORDS = words := by rw [← hts, List.drop_left]
  constructor
  · rw [parseInvoice, hdecode]
    simp only [bind, Except.bind, returned, if_neg hlong, hcut, List.take_left, List.drop_left]
  · rw [readInvoice, hdecode]
    simp only [Option.bind_eq_bind, Option.bind_some, if_neg hlong, hcut, List.take_left, List.drop_left, htake, hdrop,
      hread]

/-- Sixty-five bytes, the recovery id last, are 104 words that recover to what the bytes recover to. -/
theorem recoverPayee_of_bytes {compact : List UInt8} {recovery : UInt8} {hash : List UInt8}
    (hlen : compact.length = 64) (hrecover : im.recoverPublicKey compact recovery hash = some key) :
    (bytesToWordsPadded (compact ++ [recovery])).length = SIG_WORDS ∧
      recoverPayee im hash (bytesToWordsPadded (compact ++ [recovery])) = .ok (bytesToHex key) := by
  have hcount : (compact ++ [recovery]).length = 65 := by rw [List.length_append, hlen, List.length_singleton]
  constructor
  · obtain ⟨pad, hpad, hwords⟩ := (bytesToWordsPadded_regroups (compact ++ [recovery])).length
    rw [octets, List.length_map, hcount] at hwords
    simp only [SIG_WORDS]
    omega
  · have hback : wordsToBytesPadded (bytesToWordsPadded (compact ++ [recovery])) = compact ++ [recovery] :=
      wordsToBytesPadded_bytesToWordsPadded (by rw [hcount]; decide)
    have hall : (compact ++ [recovery]).take 65 = compact ++ [recovery] := List.take_of_length_le hcount.le
    have hlast : (compact ++ [recovery])[64]? = some recovery := by
      rw [← hlen, List.getElem?_concat_length]
    have hfront : (compact ++ [recovery]).take 64 = compact := by rw [← hlen, List.take_left]
    rw [recoverPayee, hback]
    simp only [hall, hlast, hfront, hrecover, bind, Except.bind, returned]

/-- The bytes of a signature are set with the recovery id last. -/
theorem sigBytes_eq (recovery : UInt8) {compact : List UInt8} (hlen : compact.length = 64) :
    ∃ sigBytes, setAt (List.replicate 65 0) compact 0 = .ok sigBytes ∧
      sigBytes.set 64 recovery = compact ++ [recovery] := by
  refine ⟨compact ++ [0], ?_, ?_⟩
  · rw [setAt, hlen]
    rfl
  · rw [← hlen, List.set_append_right _ _ (Nat.le_refl _), Nat.sub_self]
    rfl

/-- An invoice of the node's own key comes back with its parts, an `r` field for each hint after its fields, and
a signature of the same key. -/
theorem appendRouteHints_of_own {hints : List HintHop} (laws : im.Lawful) (hread : readInvoice im text = some inv)
    (hkey : im.getPublicKey secret = some key) (hpayee : payee im text = .ok (bytesToHex key)) (hne : hints ≠ [])
    (hrange : ∀ hint ∈ hints, hint.InRange) (hfits : inv.length + 85 * hints.length ≤ LIMIT) :
    ∃ result routes signature, appendRouteHints im text hints secret = .ok result ∧
      readInvoice im result = some { inv with fields := inv.fields ++ routes, signature } ∧
      List.Forall₂ (Carries im) routes hints ∧ payee im result = .ok (bytesToHex key) ∧
      hasRouteHint im result = .ok true := by
  obtain ⟨ts, words, hdecode, hparse, hts, hfields, htime, hsignature, hwords⟩ := parse_of_readInvoice hread
  obtain ⟨tags, routes, htags, hroutes, hall, hcount, htagslt⟩ := pushTags_of_inRange im (ts ++ words) hrange
  rw [List.append_assoc] at htags
  rw [payee, hparse] at hpayee
  obtain ⟨recovery, compact, hsign, hlen, hrecover⟩ := laws.recover_sign secret key
    (signingHash im inv.hrp (ts ++ (words ++ tags))) hkey (laws.sha256_length _)
  obtain ⟨sigBytes, hset, hsigBytes⟩ := sigBytes_eq recovery hlen
  obtain ⟨hsigcount, hself⟩ := recoverPayee_of_bytes hlen hrecover
  -- what is encoded has words of five bits and fits
  have hlt : ∀ w ∈ (ts ++ (words ++ tags)) ++ bytesToWordsPadded (compact ++ [recovery]), w < 32 := by
    have hold := laws.decode_lt _ _ _ _ hdecode
    simp only [List.mem_append] at hold ⊢
    rintro w ((hw | hw | hw) | hw)
    · exact hold w (.inl (.inl hw))
    · exact hold w (.inl (.inr hw))
    · exact htagslt w hw
    · exact bytesToWordsPadded_lt _ w hw
  have hfits' : inv.hrp.length + 7 + ((ts ++ (words ++ tags)) ++ bytesToWordsPadded (compact ++ [recovery])).length ≤
      LIMIT := by
    rw [Invoice.length, ← hfields.length] at hfits
    simp only [List.length_append, hts, hcount, hsigcount]
    omega
  obtain ⟨result, hencode, hdecode'⟩ := laws.decode_encode _ _ _ _ LIMIT _ hdecode hlt hfits'
  have hne' : words ++ tags ≠ [] := List.append_ne_nil_of_left_ne_nil hwords _
  obtain ⟨hparse', hread'⟩ := parse_of_decode hdecode' hts hne' (hfields.append hroutes) hsigcount
  have hempty : ¬hints.isEmpty = true := by rwa [List.isEmpty_iff]
  refine ⟨result, routes, bytesToWordsPadded (compact ++ [recovery]), ?_, ?_, hall, ?_, ?_⟩
  · have hpayee : recoverPayee im (signingHash im inv.hrp (ts ++ words)) inv.signature = .ok (bytesToHex key) := hpayee
    rw [appendRouteHints, if_neg hempty, hparse, hkey]
    simp only [bind, Except.bind, returned, hpayee, ne_eq, not_true_eq_false, if_false, htags, hsign, List.tail_cons,
      List.headD_cons, hset, hsigBytes, hself, hencode]
  · rw [hread', htime]
  · rw [payee, hparse']
    exact hself
  · have hr : ∃ f ∈ inv.fields ++ routes, f.type = ROUTING_TAG_TYPE := by
      cases hall with
      | nil => exact absurd rfl hne
      | @cons field hint routes hints hcarries _ =>
        exact ⟨field, List.mem_append_right _ List.mem_cons_self, hcarries.type_eq⟩
    have hfound := (hfields.append hroutes).routeHintFrom ts
    rw [hts, List.any_eq_true.mpr (hr.imp fun _ h => ⟨h.1, decide_eq_true h.2⟩)] at hfound
    rw [hasRouteHint, hparse']
    exact congrArg Except.ok hfound

/-- An invoice of another key is refused. -/
theorem appendRouteHints_of_other {hints : List HintHop} {other : List Nat} (hkey : im.getPublicKey secret = some key)
    (hpayee : payee im text = .ok other) (hother : other ≠ bytesToHex key) :
    ∃ e, appendRouteHints im text hints secret = .error e := by
  cases hparse : parseInvoice im text with
  | error e =>
    rw [payee, hparse] at hpayee
    cases hpayee
  | ok parsed =>
    rw [payee, hparse] at hpayee
    have hpayee : recoverPayee im (signingHash im parsed.hrp parsed.dataWords) parsed.sigWords = .ok other := hpayee
    rw [appendRouteHints]
    split
    · exact ⟨_, rfl⟩
    · rw [hparse, hkey]
      simp only [bind, Except.bind, returned, hpayee, if_pos hother]
      exact ⟨_, rfl⟩

/-- Appending route hints to an invoice of the node's own keeps what it says, adds an `r` field for each hint,
and signs it with the same key; an invoice of another key is refused. -/
theorem appendRouteHints_preserves (laws : im.Lawful) :
    (∀ text inv secret key hints, readInvoice im text = some inv → im.getPublicKey secret = some key →
      payee im text = .ok (bytesToHex key) → hints ≠ [] → (∀ hint ∈ hints, HintHop.InRange hint) →
      inv.length + 85 * hints.length ≤ LIMIT →
      ∃ result routes signature, appendRouteHints im text hints secret = .ok result ∧
        readInvoice im result = some { inv with fields := inv.fields ++ routes, signature } ∧
        List.Forall₂ (Carries im) routes hints ∧ payee im result = .ok (bytesToHex key) ∧
        hasRouteHint im result = .ok true) ∧
    ∀ text secret key other hints, im.getPublicKey secret = some key → payee im text = .ok other →
      other ≠ bytesToHex key → ∃ e, appendRouteHints im text hints secret = .error e :=
  ⟨fun _ _ _ _ _ hread hkey hpayee hne hrange hfits =>
    appendRouteHints_of_own laws hread hkey hpayee hne hrange hfits,
   fun _ _ _ _ _ hkey hpayee hother => appendRouteHints_of_other hkey hpayee hother⟩

end Invoice

/-! ## An invoice of twenty microbitcoin -/

section Sample

def ownSecret : List UInt8 := bigEndian 32 0xe126f68f7eafcc8b74f54d269fe206be715000f94dac067d1c04a8ca3b2db734

def ownKey : List UInt8 := bigEndian 33 0x03e7156ae33b0a208d0744199163177e909e80176e55d97a2f221ede0f934dd9ad

def otherSecret : List UInt8 := bigEndian 32 1

def otherKey : List UInt8 := bigEndian 33 0x0279be667ef9dcbbac55a06295ce870b07029bfcdb2dce28d959f2815b16f81798

/-- `lnbc20u` -/
def sampleHrp : List Nat := [108, 110, 98, 99, 50, 48, 117]

/-- A timestamp, a payment hash and a description. -/
def sampleData : List Nat :=
  [1, 12, 18, 31, 28, 25, 2] ++
    (1 :: 1 :: 20 ::
      bytesToWordsPadded (bigEndian 32 0x0001020304050607080900010203040506070809000102030405060708090102)) ++
    (13 :: 0 :: 20 :: bytesToWordsPadded (bigEndian 12 0x312063757020636f66666565))

/-- Signed by the node's own key. -/
def sampleInvoice : List Nat :=
  (Bech32.encode sampleHrp (sampleData ++ bytesToWordsPadded (bigEndian 65
    0xaaa524d26fa7389dad70c6e8c54c45724ebc3680b2604a7e0974aec790c11813769a02a1c6211016e7c2a573a65fc0965874431cb5fd163ef215af205f63c29901)) LIMIT).getD []

def sampleHint : HintHop where
  srcNodeId := bytesToHex (bigEndian 33 0x029e03a901b85534ff1e92c43c74431f7ce72046060fcf7a95c37e148f78c77255)
  scid := 0x0102030405060708
  feeBaseMsat := .integer 1
  feeProportionalMillionths := .integer 20
  cltvExpiryDelta := .integer 3

/-- The hash that is signed for the hint, and its signature. -/
def hintedHash : List UInt8 := bigEndian 32 0x1925ecbd1c0e8f948c44f344dce3c566fb5a9d8fba9d1a465f193407e0b7be70

def hintedSignature : List UInt8 := bigEndian 64
  0xac9bdbea629e8e28f6a92bdc9a1314c9e179acca6186ebde759db1c8e856c4047b906859c4422f311b0c16c705e987f324beb1ed507946c807740b263215fe6b

/-- Bech32, and by table what the curve and the hash are on the invoice. -/
def sampleImports : Imports where
  decode := Bech32.decode
  encode := Bech32.encode
  getPublicKey secret :=
    if secret = ownSecret then some ownKey else if secret = otherSecret then some otherKey else none
  sign hash secret :=
    if secret = ownSecret then some (0 :: if hash = hintedHash then hintedSignature else List.replicate 64 1)
    else some (0 :: List.replicate 64 2)
  recoverPublicKey compact _ _ := if compact = List.replicate 64 2 then some otherKey else some ownKey
  sha256 m :=
    if m.length = 61 then bigEndian 32 0xdc4551f27f8104296819ce68d7b482bcf9e53add46790dd23acd527b6dcd2b50
    else if m.length = 114 then hintedHash else List.replicate 32 0
  utf8 t := t.map UInt8.ofNat
  unicode := id

theorem sampleImports_lawful : sampleImports.Lawful where
  decode_lt _ _ _ _ h := (Bech32.decode_spec h).2.2
  decode_encode text limit hrp words limit' words' h hlt hfits := by
    obtain ⟨hpre, hupper, -⟩ := Bech32.decode_spec h
    obtain ⟨text', hencode, hdecode, hplain⟩ := Bech32.decode_encode hpre hupper hlt hfits
    have hlower : toLowerCase sampleImports.unicode text' = text' := by
      refine toLowerCase_of_lower _ fun c hc => ⟨(hplain c hc).1, ?_⟩
      have hc := (hplain c hc).2
      simp only [Bech32.upper, between, Bool.and_eq_false_iff, decide_eq_false_iff_not] at hc
      omega
    exact ⟨text', hencode, by rw [hlower]; exact hdecode⟩
  sha256_length m := by
    simp only [sampleImports]
    split
    · decide
    · split
      · decide
      · decide
  recover_sign secret key hash hkey _ := by
    have hother : ¬otherSecret = ownSecret := by decide
    simp only [sampleImports] at hkey ⊢
    split at hkey
    · rename_i hown
      cases hkey
      by_cases hhash : hash = hintedHash
      · exact ⟨0, hintedSignature, by rw [if_pos hown, if_pos hhash], by decide +kernel, if_neg (by decide +kernel)⟩
      · exact ⟨0, List.replicate 64 1, by rw [if_pos hown, if_neg hhash], by decide, if_neg (by decide)⟩
    · rename_i hnot
      split at hkey
      · cases hkey
        exact ⟨0, List.replicate 64 2, if_neg hnot, by decide, if_pos rfl⟩
      · cases hkey

theorem sampleHint_inRange : sampleHint.InRange where
  key := by decide
  scid := ⟨72623859790382856, by decide, rfl⟩
  base := ⟨1, by decide, rfl⟩
  proportional := ⟨20, by decide, rfl⟩
  delta := ⟨3, by decide, rfl⟩

theorem appendRouteHints_preserves_sample :
    ∃ inv result routes signature, readInvoice sampleImports sampleInvoice = some inv ∧
      appendRouteHints sampleImports sampleInvoice [sampleHint] ownSecret = .ok result ∧
      readInvoice sampleImports result = some { inv with fields := inv.fields ++ routes, signature } ∧
      List.Forall₂ (Carries sampleImports) routes [sampleHint] ∧
      payee sampleImports result = .ok (bytesToHex ownKey) ∧ hasRouteHint sampleImports result = .ok true ∧
      ∃ e, appendRouteHints sampleImports sampleInvoice [sampleHint] otherSecret = .error e := by
  have hread : (readInvoice sampleImports sampleInvoice).any (fun inv => inv.length + 85 ≤ LIMIT) = true := by
    decide +kernel
  obtain ⟨inv, hinv, hfits⟩ := (Option.any_eq_true _ _).mp hread
  have hpayee : payee sampleImports sampleInvoice = .ok (bytesToHex ownKey) := by decide +kernel
  have hown : sampleImports.getPublicKey ownSecret = some ownKey := by decide +kernel
  have hother : sampleImports.getPublicKey otherSecret = some otherKey := by decide +kernel
  have hrange : ∀ hint ∈ [sampleHint], hint.InRange := by
    intro hint hmem
    rw [List.mem_singleton.mp hmem]
    exact sampleHint_inRange
  obtain ⟨result, routes, signature, hresult, hread', hroutes, hpayee', hfound⟩ :=
    (appendRouteHints_preserves sampleImports_lawful).1 _ inv _ _ [sampleHint] hinv hown hpayee
      (List.cons_ne_nil _ _) hrange (of_decide_eq_true hfits)
  exact ⟨inv, result, routes, signature, hinv, hresult, hread', hroutes, hpayee', hfound,
    (appendRouteHints_preserves sampleImports_lawful).2 _ _ _ _ [sampleHint] hother hpayee (by decide +kernel)⟩

/-- The invoice that comes back. -/
example : appendRouteHints sampleImports sampleInvoice [sampleHint] ownSecret = returned (Bech32.encode sampleHrp
    (sampleData ++ (3 :: 2 :: 18 :: bytesToWordsPadded (bigEndian 51
      0x029e03a901b85534ff1e92c43c74431f7ce72046060fcf7a95c37e148f78c77255010203040506070800000001000000140003)) ++
      bytesToWordsPadded (hintedSignature ++ [0])) LIMIT) := by decide +kernel

end Sample

end LibreWallet.Bolt11
