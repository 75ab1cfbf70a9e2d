import LibreWallet.Bolt11.Regroup
import LibreWallet.Text.Words
import LibreWallet.Numbers.Doubles

/-
  Bolt11/Hints.lean --- the transformer of route hints.

  Mirrors `libre-listener-wallet/src/bolt11-hints.ts`.  Texts are their code units; what the module imports is a
  parameter.
-/

set_option autoImplicit false

namespace LibreWallet.Bolt11

open Numbers Text

/-- `bech32` of `@scure/base`, `secp256k1` and `sha256` of `@noble`, and of the platform `TextEncoder` and the
tables of Unicode.  Where one throws it is `none`. -/
structure Imports where
  /-- The prefix and the words of a text, within a limit. -/
  decode : List Nat → Nat → Option (List Nat × List Nat)
  encode : List Nat → List Nat → Nat → Option (List Nat)
  /-- Compressed. -/
  getPublicKey : List UInt8 → Option (List UInt8)
  /-- The signature of a hash by a secret key, the recovery id first. -/
  sign : List UInt8 → List UInt8 → Option (List UInt8)
  /-- From a compact signature, a recovery id and a hash. -/
  recoverPublicKey : List UInt8 → UInt8 → List UInt8 → Option (List UInt8)
  sha256 : List UInt8 → List UInt8
  utf8 : List Nat → List UInt8
  unicode : List Nat → List Nat

structure HintHop where
  srcNodeId : List Nat
  scid : ℤ
  feeBaseMsat : Whole
  feeProportionalMillionths : Whole
  cltvExpiryDelta : Whole
  deriving DecidableEq

inductive Failure where
  | thrown (message : String)
  /-- Thrown by what is imported, or by the language. -/
  | imported
  deriving DecidableEq, Repr

def SIG_WORDS : Nat := 104
def TIMESTAMP_WORDS : Nat := 7
def ROUTING_TAG_TYPE : Nat := 3
def LIMIT : Nat := 10000

/-- What an import returns. -/
def returned {α : Type} : Option α → Except Failure α
  | some a => .ok a
  | none => .error .imported

theorem returned_eq_ok {α : Type} {o : Option α} {a : α} (h : returned o = .ok a) : o = some a := by
  cases o with
  | none => cases h
  | some b =>
    cases h
    rfl

/-- A computation that ends well did so after its first part. -/
theorem bind_eq_ok {ε α β : Type} {x : Except ε α} {f : α → Except ε β} {b : β}
    (h : (x >>= f) = .ok b) : ∃ a, x = .ok a ∧ f a = .ok b := by
  cases x with
  | error e => cases h
  | ok a => exact ⟨a, rfl, h⟩

/-- `target.set(source, offset)` -/
def setAt (target source : List UInt8) (offset : Nat) : Except Failure (List UInt8) :=
  if offset + source.length ≤ target.length then
    .ok (target.take offset ++ (source ++ target.drop (offset + source.length)))
  else .error .imported

/-- `[0-9a-fA-F]` -/
def anyHexDigit : CharClass := fun c => hexDigit c || between 65 70 c

/-- Of a digit in either case. -/
def hexValue (c : Nat) : Nat := if 65 ≤ c ∧ c ≤ 70 then c - 55 else digitValue c

/-- `parseInt(hex.slice(i * 2, i * 2 + 2), 16)` for each `i`. -/
def parseBytes : List Nat → List UInt8
  | hi :: lo :: rest => UInt8.ofNat (16 * hexValue hi + hexValue lo) :: parseBytes rest
  | _ => []

def hexToBytesStrict (hex : List Nat) (expectLen : Nat) (what : String) : Except Failure (List UInt8) :=
  if hex.length = expectLen * 2 ∧ hex.all anyHexDigit then .ok (parseBytes hex)
  else .error (.thrown ("Invalid " ++ what ++ ": expected " ++ toString expectLen ++ " hex bytes"))

/-- From the last byte to the first. -/
def writeUIntBE (target : List UInt8) (value : ℤ) (offset : Nat) : Nat → List UInt8
  | 0 => target
  | i + 1 => writeUIntBE (target.set (offset + i) (UInt8.ofNat (value % 256).toNat)) (value / 256) offset i

structure ParsedInvoice where
  hrp : List Nat
  /-- Timestamp and tagged fields, without the signature. -/
  dataWords : List Nat
  sigWords : List Nat
  deriving DecidableEq

section Functions

variable (im : Imports)

def parseInvoice (invoice : List Nat) : Except Failure ParsedInvoice := do
  let (hrp, words) ← returned (im.decode (toLowerCase im.unicode invoice) LIMIT)
  if words.length ≤ TIMESTAMP_WORDS + SIG_WORDS then
    .error (.thrown "Invoice too short to contain tagged fields")
  else
    .ok { hrp, dataWords := words.take (words.length - SIG_WORDS), sigWords := words.drop (words.length - SIG_WORDS) }

/-- The loop of `hasRouteHint`, at a position. -/
def routeHintFrom (dataWords : List Nat) (i : Nat) : Bool :=
  if h : i + 3 ≤ dataWords.length then
    if dataWords[i] = ROUTING_TAG_TYPE then true
    else routeHintFrom dataWords (i + (3 + (dataWords[i + 1] * 32 + dataWords[i + 2])))
  else false
termination_by dataWords.length - i

def hasRouteHint (invoice : List Nat) : Except Failure Bool := do
  let parsed ← parseInvoice im invoice
  .ok (routeHintFrom parsed.dataWords TIMESTAMP_WORDS)

/-- `BigInt` of a number. -/
def bigInt : Whole → Except Failure ℤ
  | .integer v => .ok v
  | .infinite => .error .imported

def encodeRoutingTag (hint : HintHop) : Except Failure (List Nat) := do
  let key ← hexToBytesStrict (toLowerCase im.unicode hint.srcNodeId) 33 "hint srcNodeId"
  let payload ← setAt (List.replicate 51 0) key 0
  let payload := writeUIntBE payload hint.scid 33 8
  let base ← bigInt hint.feeBaseMsat
  let payload := writeUIntBE payload base 41 4
  let proportional ← bigInt hint.feeProportionalMillionths
  let payload := writeUIntBE payload proportional 45 4
  let delta ← bigInt hint.cltvExpiryDelta
  let payload := writeUIntBE payload delta 49 2
  let dataWords := bytesToWordsPadded payload
  .ok (ROUTING_TAG_TYPE :: dataWords.length / 32 :: dataWords.length % 32 :: dataWords)

def signingHash (hrp dataWords : List Nat) : List UInt8 :=
  im.sha256 (im.utf8 hrp ++ wordsToBytesPadded dataWords)

/-- `x.toString(16).padStart(2, "0")` for each byte. -/
def bytesToHex (b : List UInt8) : List Nat :=
  b.flatMap fun x =>
    let digits := numeral 16 x.toNat
    List.replicate (2 - digits.length) 48 ++ digits

/-- The last byte is the recovery id. -/
def recoverPayee (hash : List UInt8) (sigWords : List Nat) : Except Failure (List Nat) := do
  let sigBytes := (wordsToBytesPadded sigWords).take 65
  let recovery ← returned sigBytes[64]?
  let key ← returned (im.recoverPublicKey (sigBytes.take 64) recovery hash)
  .ok (bytesToHex key)

/-- `for (const hint of hints) newData.push(...encodeRoutingTag(hint))` -/
def pushTags (newData : List Nat) : List HintHop → Except Failure (List Nat)
  | [] => .ok newData
  | hint :: hints => do
    let tag ← encodeRoutingTag im hint
    pushTags (newData ++ tag) hints

def appendRouteHints (invoice : List Nat) (hints : List HintHop) (nodeSecretKey : List UInt8) :
    Except Failure (List Nat) := do
  if hints.isEmpty then .error (.thrown "appendRouteHints requires at least one hint")
  else
    let { hrp, dataWords, sigWords } ← parseInvoice im invoice
    let ourKey ← returned (im.getPublicKey nodeSecretKey)
    let ourPubkey := bytesToHex ourKey
    let originalPayee ← recoverPayee im (signingHash im hrp dataWords) sigWords
    if originalPayee ≠ ourPubkey then
      .error (.thrown "Refusing to re-sign: invoice payee does not match the provided node key")
    else
      let newData ← pushTags im dataWords hints
      let hash := signingHash im hrp newData
      let recSig ← returned (im.sign hash nodeSecretKey)
      -- the recovery id comes first in what is signed and last in an invoice
      let sigBytes ← setAt (List.replicate 65 0) recSig.tail 0
      let sigBytes := sigBytes.set 64 (recSig.headD 0)
      let newSigWords := bytesToWordsPadded sigBytes
      let recovered ← recoverPayee im hash newSigWords
      if recovered ≠ ourPubkey then
        .error (.thrown "Re-signed invoice failed payee recovery self-check")
      else returned (im.encode hrp (newData ++ newSigWords) LIMIT)

end Functions

end LibreWallet.Bolt11
