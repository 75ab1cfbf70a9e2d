import LibreWallet.Numbers.Doubles

/-
  Vss/Protobuf.lean --- the wire codec of the versioned storage service.

  Mirrors `libre-listener-wallet/src/vss-protobuf.ts`, and of `tests/integration/vss-protobuf-server.ts` the
  responses that a server writes with the same `Writer`.  Positions, tags and lengths are doubles; a loop that
  has not ended within its fuel is running.  `TextEncoder` and `TextDecoder` are parameters.
-/

set_option autoImplicit false

namespace LibreWallet.Vss.Protobuf

open Numbers

/-- Its length is a safe integer. -/
structure Uint8Array where
  bytes : List UInt8
  length_lt : bytes.length < 2 ^ 53
  deriving DecidableEq

namespace Uint8Array

def length (a : Uint8Array) : Nat := a.bytes.length

theorem safe_length (a : Uint8Array) : a.length < 2 ^ 53 := a.length_lt

def empty : Uint8Array := ⟨[], by decide⟩

/-- An index of `subarray`. -/
def clamp (a : Uint8Array) : Double → Nat
  | .fin n => min n a.length
  | .inf => a.length
  | .nan => 0

def subarray (a : Uint8Array) (begin_ end_ : Double) : Uint8Array where
  bytes := (a.bytes.take (a.clamp end_)).drop (a.clamp begin_)
  length_lt := by
    have hle : ((a.bytes.take (a.clamp end_)).drop (a.clamp begin_)).length ≤ a.bytes.length := by
      rw [List.length_drop, List.length_take]
      omega
    exact hle.trans_lt a.length_lt

end Uint8Array

/-- `TextEncoder` and `TextDecoder`, and what a text is. -/
structure Texts (σ : Type) where
  empty : σ
  encode : σ → Uint8Array
  decode : Uint8Array → σ

structure VssKeyValue (σ : Type) where
  key : σ
  version : Whole
  value : Uint8Array
  deriving DecidableEq

inductive Error where
  | truncatedVarint
  | truncatedField
  | unsupportedWire (wire : Nat)
  /-- `BigInt` of what is not an integer, or an array that is too long. -/
  | range
  deriving DecidableEq, Repr

/-- What a call has come to. -/
inductive Result (α : Type) where
  | returned (a : α)
  | threw (e : Error)
  | running
  deriving DecidableEq, Repr

namespace Result

variable {α β : Type}

def bind (x : Result α) (f : α → Result β) : Result β :=
  match x with
  | .returned a => f a
  | .threw e => .threw e
  | .running => .running

instance : Monad Result where
  pure := .returned
  bind := bind

@[simp] theorem returned_bind (a : α) (f : α → Result β) : (Result.returned a >>= f) = f a := rfl

@[simp] theorem threw_bind (e : Error) (f : α → Result β) : (Result.threw e >>= f) = .threw e := rfl

@[simp] theorem running_bind (f : α → Result β) : (Result.running >>= f) = .running := rfl

@[simp] theorem pure_eq (a : α) : (pure a : Result α) = .returned a := rfl

theorem bind_eq_returned {x : Result α} {f : α → Result β} {b : β} (h : (x >>= f) = .returned b) :
    ∃ a, x = .returned a ∧ f a = .returned b := by
  cases x with
  | returned a => exact ⟨a, rfl, h⟩
  | threw e => cases h
  | running => cases h

end Result

def WIRE_VARINT : Nat := 0
def WIRE_LEN : Nat := 2

/-! ## The writer

Each call is what it appends. -/

namespace Writer

def varint (n : Nat) : List UInt8 :=
  if 0x7f < n then UInt8.ofNat (n % 128 + 0x80) :: varint (n / 128) else [UInt8.ofNat n]
termination_by n
decreasing_by omega

/-- The loop of `varintI64`. -/
def varintBits (u : Nat) : List UInt8 :=
  if 0x7f < u then UInt8.ofNat ((u &&& 0x7f) ||| 0x80) :: varintBits (u >>> 7) else [UInt8.ofNat u]
termination_by u
decreasing_by
  rw [Nat.shiftRight_eq_div_pow]
  omega

/-- Two's complement; a number that stays negative is pushed as it is. -/
def varintI64 (v : ℤ) : List UInt8 :=
  let u := if v < 0 then v + 2 ^ 64 else v
  if u < 0 then [UInt8.ofNat (u % 256).toNat] else varintBits u.toNat

def tag (field wire : Nat) : List UInt8 := varint (field * 8 + wire)

def int64 (field : Nat) (value : Whole) : Result (List UInt8) :=
  match value with
  | .integer v => pure (if v = 0 then [] else tag field WIRE_VARINT ++ varintI64 v)
  | .infinite => .threw .range

def optionalInt64 (field : Nat) (value : Option Whole) : Result (List UInt8) :=
  match value with
  | none => pure []
  | some (.integer v) => pure (tag field WIRE_VARINT ++ varintI64 v)
  | some .infinite => .threw .range

def rawBytes (field : Nat) (value : Uint8Array) : List UInt8 :=
  tag field WIRE_LEN ++ (varint value.length ++ value.bytes)

def bytes (field : Nat) (value : Uint8Array) : List UInt8 :=
  if value.length = 0 then [] else rawBytes field value

def message (field : Nat) (encoded : Uint8Array) : List UInt8 := rawBytes field encoded

def finish (out : List UInt8) : Result Uint8Array :=
  if h : out.length < 2 ^ 53 then pure ⟨out, h⟩ else .threw .range

end Writer

/-! ## The reader -/

structure Reader where
  buf : Uint8Array
  pos : Double := .fin 0
  deriving DecidableEq

namespace Reader

def eof (r : Reader) : Bool := r.pos.ge (.fin r.buf.length)

/-- The loop of `varint`, over the bytes from the position on; with how many it has read. -/
def varintLoop : List UInt8 → Double → Double → Nat → Result (Double × Nat)
  | [], _, _, _ => .threw .truncatedVarint
  | b :: rest, result, multiplier, k =>
    let result := result.add ((Double.fin (b &&& 0x7f).toNat).mul multiplier)
    if b &&& 0x80 = 0 then pure (result, k + 1)
    else varintLoop rest result (multiplier.mul (.fin 128)) (k + 1)

/-- Past a position that is not a number there is one byte, undefined, which counts as zero. -/
def varint (r : Reader) : Result (Double × Reader) :=
  match r.pos with
  | .fin p => do
    let (result, k) ← varintLoop (r.buf.bytes.drop p) (.fin 0) (.fin 1) 0
    pure (result, { r with pos := .fin (p + k) })
  | .inf => .threw .truncatedVarint
  | .nan => pure (.fin 0, r)

/-- The loop of `varintI64`. -/
def varintI64Loop : List UInt8 → Nat → Nat → Nat → Result (Nat × Nat)
  | [], _, _, _ => .threw .truncatedVarint
  | b :: rest, result, shift, k =>
    let result := result + (b &&& 0x7f).toNat <<< shift
    if b &&& 0x80 = 0 then pure (result, k + 1) else varintI64Loop rest result (shift + 7) (k + 1)

/-- Interpreted as signed 64-bit. -/
def signed (result : Nat) : ℤ := if 2 ^ 63 ≤ result then result - 2 ^ 64 else result

def varintI64 (r : Reader) : Result (Whole × Reader) :=
  match r.pos with
  | .fin p => do
    let (result, k) ← varintI64Loop (r.buf.bytes.drop p) 0 0 0
    pure (toDouble (signed result), { r with pos := .fin (p + k) })
  | .inf => .threw .truncatedVarint
  | .nan => pure (.integer 0, r)

def tag (r : Reader) : Result (Double × Nat × Reader) := do
  let (t, r) ← r.varint
  pure (t.floorDiv 3, t.lowBits 3, r)

def bytes (r : Reader) : Result (Uint8Array × Reader) := do
  let (len, r) ← r.varint
  if (r.pos.add len).gt (.fin r.buf.length) then .threw .truncatedField
  else pure (r.buf.subarray r.pos (r.pos.add len), { r with pos := r.pos.add len })

def skip (r : Reader) (wire : Nat) : Result Reader :=
  if wire = WIRE_VARINT then do
    let (_, r) ← r.varint
    pure r
  else if wire = WIRE_LEN then do
    let (_, r) ← r.bytes
    pure r
  else if wire = 5 then pure { r with pos := r.pos.add (.fin 4) }
  else if wire = 1 then pure { r with pos := r.pos.add (.fin 8) }
  else .threw (.unsupportedWire wire)

end Reader

/-! ## The decoders -/

/-- What a decoder does with a varint that it knows. -/
inductive OnVarint (μ : Type) where
  /-- Read by `varint`. -/
  | unsigned (set : Double → μ → μ)
  /-- Read by `varintI64`. -/
  | signed (set : Whole → μ → μ)

/-- The fields that a decoder knows, by wire type. -/
structure Fields (μ : Type) where
  varint : Double → Option (OnVarint μ)
  len : Double → Option (Uint8Array → μ → Result μ)

section Decoders

variable {μ σ : Type}

/-- The body of a decoder's loop: what is not known is skipped. -/
def readField (fields : Fields μ) (r : Reader) (out : μ) : Result (μ × Reader) := do
  let (field, wire, r) ← r.tag
  if wire = WIRE_VARINT then
    match fields.varint field with
    | some (.unsigned set) => do
      let (v, r) ← r.varint
      pure (set v out, r)
    | some (.signed set) => do
      let (v, r) ← r.varintI64
      pure (set v out, r)
    | none => do
      let r ← r.skip wire
      pure (out, r)
  else if wire = WIRE_LEN then
    match fields.len field with
    | some set => do
      let (b, r) ← r.bytes
      let out ← set b out
      pure (out, r)
    | none => do
      let r ← r.skip wire
      pure (out, r)
  else do
    let r ← r.skip wire
    pure (out, r)

/-- `while (!r.eof())` -/
def readFields (fields : Fields μ) : Nat → Reader → μ → Result (μ × Reader)
  | 0, _, _ => .running
  | fuel + 1, r, out =>
    if r.eof then pure (out, r)
    else do
      let (out, r) ← readField fields r out
      readFields fields fuel r out

/-- A loop that runs longer than there are bytes runs for ever. -/
def decode (fields : Fields μ) (out : μ) (buf : Uint8Array) : Result μ := do
  let (out, _) ← readFields fields (buf.length + 1) { buf } out
  pure out

variable (texts : Texts σ)

def keyValueFields : Fields (VssKeyValue σ) where
  varint field :=
    if field = .fin 2 then some (.signed fun v kv => { kv with version := v }) else none
  len field :=
    if field = .fin 1 then some fun b kv => pure { kv with key := texts.decode b }
    else if field = .fin 3 then some fun b kv => pure { kv with value := b }
    else none

def emptyKeyValue : VssKeyValue σ := ⟨texts.empty, .integer 0, .empty⟩

def decodeKeyValue (buf : Uint8Array) : Result (VssKeyValue σ) :=
  decode (keyValueFields texts) (emptyKeyValue texts) buf

def getObjectFields : Fields (Option (VssKeyValue σ)) where
  varint _ := none
  len field := if field = .fin 2 then some fun b _ => do
      let kv ← decodeKeyValue texts b
      pure (some kv)
    else none

def decodeGetObjectResponse (buf : Uint8Array) : Result (Option (VssKeyValue σ)) :=
  decode (getObjectFields texts) none buf

structure ListKeyVersionsResult (σ : Type) where
  keyVersions : List (VssKeyValue σ) := []
  nextPageToken : Option σ := none
  globalVersion : Option Double := none
  deriving DecidableEq

def listKeyVersionsFields : Fields (ListKeyVersionsResult σ) where
  varint field :=
    if field = .fin 3 then some (.unsigned fun v out => { out with globalVersion := some v }) else none
  len field :=
    if field = .fin 1 then some fun b out => do
      let kv ← decodeKeyValue texts b
      pure { out with keyVersions := out.keyVersions ++ [kv] }
    else if field = .fin 2 then some fun b out => pure { out with nextPageToken := some (texts.decode b) }
    else none

def decodeListKeyVersionsResponse (buf : Uint8Array) : Result (ListKeyVersionsResult σ) :=
  decode (listKeyVersionsFields texts) {} buf

structure VssErrorResponse (σ : Type) where
  errorCode : Double
  message : σ
  deriving DecidableEq

def errorFields : Fields (VssErrorResponse σ) where
  varint field :=
    if field = .fin 1 then some (.unsigned fun v out => { out with errorCode := v }) else none
  len field := if field = .fin 2 then some fun b out => pure { out with message := texts.decode b } else none

def decodeErrorResponse (buf : Uint8Array) : Result (VssErrorResponse σ) :=
  decode (errorFields texts) ⟨.fin 0, texts.empty⟩ buf

/-! ## The encoders -/

variable [DecidableEq σ]

/-- An empty or absent text is left out. -/
def Writer.string (field : Nat) (value : Option σ) : List UInt8 :=
  match value with
  | some s => if s = texts.empty then [] else Writer.rawBytes field (texts.encode s)
  | none => []

def encodeKeyValue (kv : VssKeyValue σ) : Result Uint8Array := do
  let version ← Writer.int64 2 kv.version
  Writer.finish (Writer.string texts 1 (some kv.key) ++ (version ++ Writer.bytes 3 kv.value))

def encodeGetObjectResponse (value : VssKeyValue σ) : Result Uint8Array := do
  let encoded ← encodeKeyValue texts value
  Writer.finish (Writer.message 2 encoded)

/-- `w.message(field, encodeKeyValue(kv))` for each. -/
def Writer.keyValues (field : Nat) : List (VssKeyValue σ) → Result (List UInt8)
  | [] => pure []
  | kv :: kvs => do
    let encoded ← encodeKeyValue texts kv
    let rest ← Writer.keyValues field kvs
    pure (Writer.message field encoded ++ rest)

def encodeListKeyVersionsResponse (keyVersions : List (VssKeyValue σ)) (nextPageToken : Option σ)
    (globalVersion : Option Whole) : Result Uint8Array := do
  let items ← Writer.keyValues texts 1 keyVersions
  let version ← Writer.optionalInt64 3 globalVersion
  Writer.finish (items ++ (Writer.string texts 2 nextPageToken ++ version))

end Decoders

end LibreWallet.Vss.Protobuf
