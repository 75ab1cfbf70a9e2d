import LibreWallet.Vss.Wire

/-
  Vss/Codec.lean --- what is written is read back.

  The writer's calls as fields, the round trips of the three decoders that the client relies on, and unknown
  fields, which change nothing wherever they stand.
-/

set_option autoImplicit false

namespace LibreWallet.Vss.Protobuf

open Numbers

/-! ## Written varints -/

section Varint

variable {n m r u : Nat}

theorem varint_of_lt (h : n < 128) : Writer.varint n = [UInt8.ofNat n] := by
  rw [Writer.varint, if_neg (by omega)]

theorem varint_of_le (h : 128 ≤ n) : Writer.varint n = UInt8.ofNat (n % 128 + 0x80) :: Writer.varint (n / 128) := by
  rw [Writer.varint, if_pos (by omega)]

theorem toNat_ofNat {b : Nat} (h : b < 256) : (UInt8.ofNat b).toNat = b := by
  rw [UInt8.toNat_ofNat']
  exact Nat.mod_eq_of_lt h

theorem splitVarint_varint (n : Nat) : splitVarint (Writer.varint n) = some (Writer.varint n, []) := by
  induction n using Nat.strong_induction_on with
  | _ n ih =>
    rcases Nat.lt_or_ge n 128 with h | h
    · rw [varint_of_lt h, splitVarint, toNat_ofNat (by omega), if_pos h]
    · rw [varint_of_le h, splitVarint, toNat_ofNat (by omega), if_neg (by omega), ih (n / 128) (by omega)]
      rfl

/-- Seven bits a byte. -/
theorem length_varint_le {k : Nat} (h : n < 2 ^ (7 * (k + 1))) : (Writer.varint n).length ≤ k + 1 := by
  induction k generalizing n with
  | zero =>
    rw [varint_of_lt (by simpa using h)]
    exact le_rfl
  | succ k ih =>
    rcases Nat.lt_or_ge n 128 with hn | hn
    · rw [varint_of_lt hn]
      exact Nat.succ_le_succ (Nat.zero_le _)
    · have hdiv : n / 128 < 2 ^ (7 * (k + 1)) := by
        rw [Nat.div_lt_iff_lt_mul (by decide)]
        calc n < 2 ^ (7 * (k + 1 + 1)) := h
          _ = 2 ^ (7 * (k + 1)) * 128 := by rw [Nat.mul_succ 7, Nat.pow_add]
      rw [varint_of_le hn, List.length_cons]
      exact Nat.succ_le_succ (ih hdiv)

/-- No double of the sum is rounded. -/
theorem varintSum_varint (h : r + n * m < 2 ^ 53) :
    varintSum (.fin r) (.fin m) (Writer.varint n) = .fin (r + n * m) := by
  induction n using Nat.strong_induction_on generalizing r m with
  | _ n ih =>
    rcases Nat.lt_or_ge n 128 with hn | hn
    · rw [varint_of_lt hn, varintSum, toNat_ofNat (by omega), Nat.mod_eq_of_lt hn, varintSum, Double.mul,
        round_of_lt (by omega), Double.add, round_of_lt h]
    · have hsplit : n % 128 * m + n / 128 * (m * 128) = n * m := by
        calc n % 128 * m + n / 128 * (m * 128) = (n % 128 + 128 * (n / 128)) * m := by ring
          _ = n * m := by rw [Nat.mod_add_div]
      have hmul : m * 128 ≤ n / 128 * (m * 128) := Nat.le_mul_of_pos_left _ (by omega)
      have hlow : (n % 128 + 128) % 128 = n % 128 := by omega
      rw [varint_of_le hn, varintSum, toNat_ofNat (by omega), hlow, Double.mul, round_of_lt (by omega), Double.mul,
        round_of_lt (by omega), Double.add, round_of_lt (by omega), ih (n / 128) (by omega) (by omega),
        Nat.add_assoc, hsplit]

theorem varintValue_varint (h : n < 2 ^ 53) : varintValue (Writer.varint n) = .fin n := by
  rw [varintValue, varintSum_varint (by omega), Nat.zero_add, Nat.mul_one]

theorem bigSum_varint (n : Nat) : bigSum (Writer.varint n) = n := by
  induction n using Nat.strong_induction_on with
  | _ n ih =>
    rcases Nat.lt_or_ge n 128 with h | h
    · rw [varint_of_lt h, bigSum, toNat_ofNat (by omega), Nat.mod_eq_of_lt h]
      rfl
    · have hlow : (n % 128 + 128) % 128 = n % 128 := by omega
      rw [varint_of_le h, bigSum, toNat_ofNat (by omega), hlow, ih (n / 128) (by omega), Nat.mod_add_div]

/-- The two loops of the writer push the same. -/
theorem varintBits_eq (u : Nat) : Writer.varintBits u = Writer.varint u := by
  induction u using Nat.strong_induction_on with
  | _ u ih =>
    have hlow : u &&& 0x7f = u % 128 := Nat.and_two_pow_sub_one_eq_mod u 7
    have hhigh : u % 128 ||| 0x80 = u % 128 + 0x80 := by
      have hor := Nat.two_pow_add_eq_or_of_lt (i := 7) (b := u % 128) (Nat.mod_lt u (by decide)) 1
      rw [Nat.or_comm, Nat.add_comm]
      exact hor.symm
    have hshift : u >>> 7 = u / 128 := Nat.shiftRight_eq_div_pow u 7
    rw [Writer.varintBits, hlow, hhigh, hshift, Writer.varint]
    split
    · rw [ih (u / 128) (by omega)]
    · rfl

theorem splitVarint_varintI64 {v : ℤ} (h : -2 ^ 64 ≤ v) :
    splitVarint (Writer.varintI64 v) = some (Writer.varintI64 v, []) := by
  have hu : ¬((if v < 0 then v + 2 ^ 64 else v) < 0) := by
    split
    · omega
    · omega
  simp only [Writer.varintI64, if_neg hu, varintBits_eq]
  exact splitVarint_varint _

/-- Two's complement is read back. -/
theorem signed_varintI64 {v : ℤ} (hlo : -2 ^ 63 ≤ v) (hhi : v < 2 ^ 63) :
    Reader.signed (bigSum (Writer.varintI64 v)) = v := by
  have hu : ¬((if v < 0 then v + 2 ^ 64 else v) < 0) := by
    split
    · omega
    · omega
  simp only [Writer.varintI64, if_neg hu, varintBits_eq, bigSum_varint, Reader.signed]
  split
  · rename_i hneg
    rw [if_pos (by omega), Int.toNat_of_nonneg (by omega)]
    omega
  · rename_i hpos
    rw [if_neg (by omega), Int.toNat_of_nonneg (by omega)]

theorem tag_value {field wire : Nat} (hf : field < 2 ^ 49) (hw : wire < 8) :
    fieldOf (Writer.tag field wire) = .fin field ∧ wireOf (Writer.tag field wire) = wire := by
  rw [fieldOf, wireOf, Writer.tag, varintValue_varint (by omega)]
  refine ⟨?_, ?_⟩
  · change Double.fin ((field * 8 + wire) / 8) = _
    congr 1
    omega
  · change (field * 8 + wire) % 8 = wire
    omega

end Varint

/-! ## Written fields -/

/-- `int64` and `optionalInt64` of a field, where they write one. -/
def intField (field : Nat) (v : ℤ) (hf : field < 2 ^ 49) (hv : -2 ^ 64 ≤ v) : Field where
  tag := Writer.tag field WIRE_VARINT
  content := Writer.varintI64 v
  isTag := splitVarint_varint _
  isContent := (tag_value hf (by decide : WIRE_VARINT < 8)).2.symm ▸ .varint (splitVarint_varintI64 hv)

/-- `rawBytes` -/
def lenField (field : Nat) (a : Uint8Array) (hf : field < 2 ^ 49) : Field where
  tag := Writer.tag field WIRE_LEN
  content := Writer.varint a.length ++ a.bytes
  isTag := splitVarint_varint _
  isContent := (tag_value hf (by decide : WIRE_LEN < 8)).2.symm ▸
    .len (splitVarint_varint _) (varintValue_varint a.safe_length)

section Fields

variable {field : Nat} {v : ℤ} {a : Uint8Array} {hf : field < 2 ^ 49} {hv : -2 ^ 64 ≤ v}

@[simp] theorem intField_bytes : (intField field v hf hv).bytes = Writer.tag field WIRE_VARINT ++ Writer.varintI64 v := rfl

@[simp] theorem intField_field : (intField field v hf hv).field = .fin field := (tag_value hf (by decide)).1

@[simp] theorem intField_wire : (intField field v hf hv).wire = WIRE_VARINT := (tag_value hf (by decide)).2

@[simp] theorem lenField_bytes : (lenField field a hf).bytes = Writer.rawBytes field a := rfl

@[simp] theorem lenField_field : (lenField field a hf).field = .fin field := (tag_value hf (by decide)).1

@[simp] theorem lenField_wire : (lenField field a hf).wire = WIRE_LEN := (tag_value hf (by decide)).2

@[simp] theorem lenField_array : (lenField field a hf).array = a := by
  have hpayload : (lenField field a hf).payload = a.bytes := by
    rw [Field.payload]
    change ((splitVarint (Writer.varint a.length ++ a.bytes)).map Prod.snd).getD [] = a.bytes
    rw [splitVarint_append (splitVarint_varint _)]
    rfl
  rw [Field.array, hpayload]
  exact Uint8Array.eq_of_bytes (asArray_bytes a.length_lt)

theorem finish_bytes {out : List UInt8} {buf : Uint8Array} (h : Writer.finish out = .returned buf) : buf.bytes = out := by
  rw [Writer.finish] at h
  split at h
  · cases h
    rfl
  · cases h

end Fields

/-! ## Round trips -/

section RoundTrip

variable {σ : Type} [DecidableEq σ] {texts : Texts σ} {kv : VssKeyValue σ} {kvs : List (VssKeyValue σ)}
  {buf : Uint8Array} {v : ℤ}

/-- What `string` writes. -/
def stringFields (texts : Texts σ) (field : Nat) (hf : field < 2 ^ 49) (value : Option σ) : List Field :=
  match value with
  | some s => if s = texts.empty then [] else [lenField field (texts.encode s) hf]
  | none => []

theorem string_eq_flatten (field : Nat) (hf : field < 2 ^ 49) (value : Option σ) :
    Writer.string texts field value = flatten (stringFields texts field hf value) := by
  cases value with
  | none => rfl
  | some s =>
    rw [Writer.string, stringFields]
    split
    · rfl
    · rw [flatten_cons]
      exact (List.append_nil _).symm

/-- What `encodeKeyValue` writes. -/
def keyValueWritten (texts : Texts σ) (kv : VssKeyValue σ) (v : ℤ) (hv : -2 ^ 64 ≤ v) : List Field :=
  stringFields texts 1 (by decide) (some kv.key) ++
    ((if v = 0 then [] else [intField 2 v (by decide) hv]) ++
      if kv.value.length = 0 then [] else [lenField 3 kv.value (by decide)])

theorem encodeKeyValue_bytes (hv : -2 ^ 64 ≤ v) (hversion : kv.version = .integer v)
    (h : encodeKeyValue texts kv = .returned buf) : buf.bytes = flatten (keyValueWritten texts kv v hv) := by
  rw [encodeKeyValue, hversion, Writer.int64] at h
  have hbytes := finish_bytes h
  rw [hbytes, keyValueWritten, flatten_append, flatten_append, string_eq_flatten 1 (by decide)]
  congr 2
  · split
    · rfl
    · rw [flatten_cons]
      exact (List.append_nil _).symm
  · rw [Writer.bytes]
    split
    · rfl
    · rw [flatten_cons]
      exact (List.append_nil _).symm

/-- A key-value is read back, for every version between the bounds of an `int64` that is a safe integer. -/
theorem decodeKeyValue_encode (htexts : ∀ s, texts.decode (texts.encode s) = s) (hversion : kv.version = .integer v)
    (hsafe : v.natAbs < 2 ^ 53) (h : encodeKeyValue texts kv = .returned buf) :
    decodeKeyValue texts buf = .returned kv := by
  have hv : -2 ^ 64 ≤ v := by omega
  have hkey : (keyValueFields texts).applyAll (stringFields texts 1 (by decide) (some kv.key)) (emptyKeyValue texts) =
      .returned { emptyKeyValue texts with key := kv.key } := by
    rw [stringFields]
    split
    · rename_i hempty
      rw [hempty]
      rfl
    · simp [Fields.applyAll, Fields.apply, keyValueFields, htexts, WIRE_VARINT, WIRE_LEN]
  have hint : ∀ out : VssKeyValue σ, out.version = .integer 0 →
      (keyValueFields texts).applyAll (if v = 0 then [] else [intField 2 v (by decide) hv]) out =
        .returned { out with version := kv.version } := by
    intro out hout
    split
    · rename_i hzero
      rw [hversion, hzero, ← hout]
      rfl
    · have hsigned : toDouble (Reader.signed (bigSum (Writer.varintI64 v))) = .integer v := by
        rw [signed_varintI64 (by omega) (by omega)]
        exact toDouble_of_safe hsafe
      have hcontent : (intField 2 v (by decide) hv).content = Writer.varintI64 v := rfl
      simp [Fields.applyAll, Fields.apply, keyValueFields, hcontent, hsigned, hversion, WIRE_VARINT]
  have hvalue : ∀ out : VssKeyValue σ, out.value = .empty →
      (keyValueFields texts).applyAll (if kv.value.length = 0 then [] else [lenField 3 kv.value (by decide)]) out =
        .returned { out with value := kv.value } := by
    intro out hout
    split
    · rename_i hzero
      have hnil : kv.value = .empty := Uint8Array.eq_of_bytes (List.length_eq_zero_iff.mp hzero)
      rw [hnil, ← hout]
      rfl
    · simp [Fields.applyAll, Fields.apply, keyValueFields, WIRE_VARINT, WIRE_LEN]
  rw [decodeKeyValue, decode_flatten (encodeKeyValue_bytes hv hversion h), keyValueWritten, applyAll_append, hkey,
    Result.returned_bind, applyAll_append, hint _ rfl, Result.returned_bind, hvalue _ rfl]

/-- The version is a safe integer, as a number of the program is. -/
def SafeVersion (kv : VssKeyValue σ) : Prop := ∃ v : ℤ, kv.version = .integer v ∧ v.natAbs < 2 ^ 53

/-- Encoding fails only where the result is no array. -/
theorem encodeKeyValue_returned (texts : Texts σ) (kv : VssKeyValue σ) (hv : -2 ^ 64 ≤ v) (hversion : kv.version = .integer v)
    (hlen : (flatten (keyValueWritten texts kv v hv)).length < 2 ^ 53) :
    ∃ buf, encodeKeyValue texts kv = .returned buf := by
  have hwritten : Writer.string texts 1 (some kv.key) ++
      ((if v = 0 then [] else Writer.tag 2 WIRE_VARINT ++ Writer.varintI64 v) ++ Writer.bytes 3 kv.value) =
        flatten (keyValueWritten texts kv v hv) := by
    rw [keyValueWritten, flatten_append, flatten_append, string_eq_flatten 1 (by decide)]
    congr 2
    · split
      · rfl
      · rw [flatten_cons]
        exact (List.append_nil _).symm
    · rw [Writer.bytes]
      split
      · rfl
      · rw [flatten_cons]
        exact (List.append_nil _).symm
  rw [← hwritten] at hlen
  refine ⟨⟨_, hlen⟩, ?_⟩
  rw [encodeKeyValue, hversion, Writer.int64]
  exact dif_pos hlen

theorem decodeKeyValue_of_safe (htexts : ∀ s, texts.decode (texts.encode s) = s) (hsafe : SafeVersion kv)
    (h : encodeKeyValue texts kv = .returned buf) : decodeKeyValue texts buf = .returned kv := by
  obtain ⟨v, hversion, hv⟩ := hsafe
  exact decodeKeyValue_encode htexts hversion hv h

theorem decodeGetObjectResponse_encode (htexts : ∀ s, texts.decode (texts.encode s) = s) (hsafe : SafeVersion kv)
    (h : encodeGetObjectResponse texts kv = .returned buf) :
    decodeGetObjectResponse texts buf = .returned (some kv) := by
  obtain ⟨encoded, hencoded, hfinish⟩ := Result.bind_eq_returned h
  have hbuf : buf.bytes = flatten [lenField 2 encoded (by decide)] := by
    rw [finish_bytes hfinish, flatten_cons]
    exact (List.append_nil _).symm
  have hkv := decodeKeyValue_of_safe htexts hsafe hencoded
  rw [decodeGetObjectResponse, decode_flatten hbuf]
  simp [Fields.applyAll, Fields.apply, getObjectFields, hkv, WIRE_VARINT, WIRE_LEN]

/-- The key-values of a list are read back in their order. -/
theorem keyValues_written (htexts : ∀ s, texts.decode (texts.encode s) = s) (hsafe : ∀ kv ∈ kvs, SafeVersion kv)
    {items : List UInt8} (h : Writer.keyValues texts 1 kvs = .returned items) :
    ∃ fs, items = flatten fs ∧ ∀ out, (listKeyVersionsFields texts).applyAll fs out =
      .returned { out with keyVersions := out.keyVersions ++ kvs } := by
  induction kvs generalizing items with
  | nil =>
    cases h
    exact ⟨[], rfl, fun out => by simp [Fields.applyAll]⟩
  | cons kv kvs ih =>
    obtain ⟨encoded, hencoded, h⟩ := Result.bind_eq_returned h
    obtain ⟨rest, hrest, h⟩ := Result.bind_eq_returned h
    cases h
    obtain ⟨fs, rfl, happly⟩ := ih (fun kv hkv => hsafe kv (List.mem_cons_of_mem _ hkv)) hrest
    have hkv := decodeKeyValue_of_safe htexts (hsafe kv List.mem_cons_self) hencoded
    refine ⟨lenField 1 encoded (by decide) :: fs, rfl, fun out => ?_⟩
    have hfirst : (listKeyVersionsFields texts).apply (lenField 1 encoded (by decide)) out =
        .returned { out with keyVersions := out.keyVersions ++ [kv] } := by
      simp [Fields.apply, listKeyVersionsFields, hkv, WIRE_VARINT, WIRE_LEN]
    rw [Fields.applyAll, hfirst, Result.returned_bind, happly]
    simp

/-- A list is read back; an empty page token is none. -/
theorem decodeListKeyVersionsResponse_encode (htexts : ∀ s, texts.decode (texts.encode s) = s)
    (hsafe : ∀ kv ∈ kvs, SafeVersion kv) {token : Option σ} {global : Option ℤ}
    (hglobal : ∀ v ∈ global, v.natAbs < 2 ^ 53)
    (h : encodeListKeyVersionsResponse texts kvs token (global.map Whole.integer) = .returned buf) :
    ∃ g, decodeListKeyVersionsResponse texts buf = .returned ⟨kvs, token.filter (· ≠ texts.empty), g⟩ := by
  obtain ⟨items, hitems, h⟩ := Result.bind_eq_returned h
  obtain ⟨version, hversion, h⟩ := Result.bind_eq_returned h
  obtain ⟨fs, rfl, happly⟩ := keyValues_written htexts hsafe hitems
  have htoken : ∀ out : ListKeyVersionsResult σ, out.nextPageToken = none →
      (listKeyVersionsFields texts).applyAll (stringFields texts 2 (by decide) token) out =
        .returned { out with nextPageToken := token.filter (· ≠ texts.empty) } := by
    rintro ⟨items, next, g⟩ rfl
    cases token with
    | none => rfl
    | some s =>
      rw [stringFields, Option.filter_some]
      split
      · rename_i hempty
        rw [if_neg (by simpa using hempty)]
        rfl
      · rename_i hne
        rw [if_pos (by simpa using hne)]
        simp [Fields.applyAll, Fields.apply, listKeyVersionsFields, htexts, WIRE_VARINT, WIRE_LEN]
  have hlast : ∃ gs, version = flatten gs ∧ ∀ out : ListKeyVersionsResult σ,
      ∃ g, (listKeyVersionsFields texts).applyAll gs out = .returned { out with globalVersion := g } := by
    cases global with
    | none =>
      cases hversion
      exact ⟨[], rfl, fun out => ⟨out.globalVersion, rfl⟩⟩
    | some v =>
      cases hversion
      have hv := hglobal v rfl
      refine ⟨[intField 3 v (by decide) (by omega)], ?_, fun out => ?_⟩
      · rw [flatten_cons]
        exact (List.append_nil _).symm
      · simp [Fields.applyAll, Fields.apply, listKeyVersionsFields, WIRE_VARINT]
  obtain ⟨gs, rfl, hgs⟩ := hlast
  have hbuf : buf.bytes = flatten (fs ++ (stringFields texts 2 (by decide) token ++ gs)) := by
    rw [finish_bytes h, string_eq_flatten 2 (by decide), flatten_append, flatten_append]
  obtain ⟨g, hg⟩ := hgs ⟨kvs, token.filter (· ≠ texts.empty), none⟩
  refine ⟨g, ?_⟩
  rw [decodeListKeyVersionsResponse, decode_flatten hbuf, applyAll_append, happly, Result.returned_bind,
    applyAll_append, htoken _ rfl, Result.returned_bind]
  exact hg

end RoundTrip

/-! ## Unknown fields -/

/-- The decoder skips the field. -/
structure Unknown {μ : Type} (fields : Fields μ) (f : Field) : Prop where
  varint : f.wire = WIRE_VARINT → fields.varint f.field = none
  len : f.wire = WIRE_LEN → fields.len f.field = none

/-- Unknown fields stand between the fields of a message; what a field holds may be such a message too. -/
inductive Interleaved {μ : Type} (fields : Fields μ) (inner : Field → Field → Prop) : List Field → List Field → Prop where
  | nil : Interleaved fields inner [] []
  | keep (f : Field) {fs gs : List Field} : Interleaved fields inner fs gs → Interleaved fields inner (f :: fs) (f :: gs)
  | unknown {f : Field} {fs gs : List Field} :
    Unknown fields f → Interleaved fields inner fs gs → Interleaved fields inner fs (f :: gs)
  | inside {f g : Field} {fs gs : List Field} :
    inner f g → Interleaved fields inner fs gs → Interleaved fields inner (f :: fs) (g :: gs)

section Unknown

variable {μ σ : Type} {fields : Fields μ} {inner : Field → Field → Prop} {f g : Field} {fs gs : List Field} {out : μ}
  {a b : Uint8Array}

theorem apply_unknown (h : Unknown fields f) : fields.apply f out = .returned out := by
  rw [Fields.apply]
  split
  · rename_i hw
    rw [h.varint hw]
    rfl
  · split
    · rename_i hw
      rw [h.len hw]
      rfl
    · rfl

theorem applyAll_interleaved (hinner : ∀ f g out, inner f g → fields.apply g out = fields.apply f out)
    (h : Interleaved fields inner fs gs) : fields.applyAll gs out = fields.applyAll fs out := by
  induction h generalizing out with
  | nil => rfl
  | keep f h ih =>
    rw [Fields.applyAll, Fields.applyAll]
    exact congrArg (fields.apply f out >>= ·) (funext fun out => ih)
  | unknown hf h ih => rw [Fields.applyAll, apply_unknown hf, Result.returned_bind, ih]
  | inside hfg h ih =>
    rw [Fields.applyAll, Fields.applyAll, hinner _ _ _ hfg]
    exact congrArg (fields.apply _ out >>= ·) (funext fun out => ih)

theorem decode_interleaved (hinner : ∀ f g out, inner f g → fields.apply g out = fields.apply f out)
    (h : Interleaved fields inner fs gs) (ha : a.bytes = flatten fs) (hb : b.bytes = flatten gs) :
    decode fields out b = decode fields out a := by
  rw [decode_flatten ha, decode_flatten hb, applyAll_interleaved hinner h]

/-- Nothing is inside a key-value. -/
def Flat (_ _ : Field) : Prop := False

/-- Two fields that hold the same key-value but for unknown fields. -/
structure SameKeyValue (texts : Texts σ) (field : Nat) (f g : Field) : Prop where
  field_left : f.field = .fin field
  field_right : g.field = .fin field
  wire_left : f.wire = WIRE_LEN
  wire_right : g.wire = WIRE_LEN
  interleaved : ∃ fs gs, f.array.bytes = flatten fs ∧ g.array.bytes = flatten gs ∧
    Interleaved (keyValueFields texts) Flat fs gs

theorem decodeKeyValue_interleaved {texts : Texts σ} (h : Interleaved (keyValueFields texts) Flat fs gs)
    (ha : a.bytes = flatten fs) (hb : b.bytes = flatten gs) : decodeKeyValue texts b = decodeKeyValue texts a :=
  decode_interleaved (fun _ _ _ hflat => hflat.elim) h ha hb

theorem apply_len {set : Uint8Array → μ → Result μ} (hw : f.wire = WIRE_LEN) (hset : fields.len f.field = some set) :
    fields.apply f out = set f.array out := by
  rw [Fields.apply, hw, hset]
  rfl

/-- A decoder of key-values reads the same from both. -/
theorem apply_sameKeyValue {texts : Texts σ} {field : Nat} (set : VssKeyValue σ → μ → μ)
    (hfield : fields.len (.fin field) = some fun b out => do
      let kv ← decodeKeyValue texts b
      pure (set kv out))
    (h : SameKeyValue texts field f g) : fields.apply g out = fields.apply f out := by
  obtain ⟨fs, gs, hf, hg, hfg⟩ := h.interleaved
  have hkv := decodeKeyValue_interleaved hfg hf hg
  rw [apply_len h.wire_left (h.field_left ▸ hfield), apply_len h.wire_right (h.field_right ▸ hfield), hkv]

end Unknown

/-! ## The codec -/

/-- What is written is read back, but that an empty page token is none; unknown fields change nothing. -/
theorem codec_round_trip {σ : Type} [DecidableEq σ] (texts : Texts σ) (htexts : ∀ s, texts.decode (texts.encode s) = s) :
    (∀ kv buf, SafeVersion kv → encodeKeyValue texts kv = .returned buf →
      decodeKeyValue texts buf = .returned kv) ∧
    (∀ kv buf, SafeVersion kv → encodeGetObjectResponse texts kv = .returned buf →
      decodeGetObjectResponse texts buf = .returned (some kv)) ∧
    (∀ kvs token, ∀ global : Option ℤ, ∀ buf, (∀ kv ∈ kvs, SafeVersion kv) → (∀ v ∈ global, v.natAbs < 2 ^ 53) →
      encodeListKeyVersionsResponse texts kvs token (global.map Whole.integer) = .returned buf →
      ∃ g, decodeListKeyVersionsResponse texts buf = .returned ⟨kvs, token.filter (· ≠ texts.empty), g⟩) ∧
    ∀ fs gs (a b : Uint8Array), a.bytes = flatten fs → b.bytes = flatten gs →
      (Interleaved (keyValueFields texts) Flat fs gs → decodeKeyValue texts b = decodeKeyValue texts a) ∧
      (Interleaved (getObjectFields texts) (SameKeyValue texts 2) fs gs →
        decodeGetObjectResponse texts b = decodeGetObjectResponse texts a) ∧
      (Interleaved (listKeyVersionsFields texts) (SameKeyValue texts 1) fs gs →
        decodeListKeyVersionsResponse texts b = decodeListKeyVersionsResponse texts a) ∧
      (Interleaved (errorFields texts) Flat fs gs → decodeErrorResponse texts b = decodeErrorResponse texts a) := by
  refine ⟨fun kv buf => decodeKeyValue_of_safe htexts, fun kv buf => decodeGetObjectResponse_encode htexts,
    fun kvs token global buf hsafe hglobal => decodeListKeyVersionsResponse_encode htexts hsafe hglobal,
    fun fs gs a b ha hb => ⟨fun h => decodeKeyValue_interleaved h ha hb, fun h => ?_, fun h => ?_, fun h => ?_⟩⟩
  · exact decode_interleaved (fun f g out hfg => apply_sameKeyValue (fun kv _ => some kv) rfl hfg) h ha hb
  · exact decode_interleaved (fun f g out hfg => apply_sameKeyValue
      (fun kv out => { out with keyVersions := out.keyVersions ++ [kv] }) rfl hfg) h ha hb
  · exact decode_interleaved (fun _ _ _ hflat => hflat.elim) h ha hb

/-- Texts that are their own encoding. -/
def plainTexts : Texts Uint8Array := ⟨.empty, id, id⟩

/-- A blind write, whose version takes ten bytes. -/
def blindWrite : VssKeyValue Uint8Array := ⟨asArray [0x6b], .integer (-1), asArray [1, 2]⟩

theorem codec_round_trip_blindWrite : ∃ buf, encodeKeyValue plainTexts blindWrite = .returned buf ∧
    decodeKeyValue plainTexts buf = .returned blindWrite := by
  have hfields : keyValueWritten plainTexts blindWrite (-1) (by decide) =
      [lenField 1 (asArray [0x6b]) (by decide), intField 2 (-1) (by decide) (by decide),
        lenField 3 (asArray [1, 2]) (by decide)] := rfl
  have hversion : (Writer.varintI64 (-1)).length ≤ 10 := by
    have heq : Writer.varintI64 (-1) = Writer.varint (2 ^ 64 - 1) := varintBits_eq _
    rw [heq]
    exact length_varint_le (by decide)
  have hlen : (flatten (keyValueWritten plainTexts blindWrite (-1) (by decide))).length < 2 ^ 53 := by
    have htag : ∀ field < 16, ∀ wire < 8, (Writer.tag field wire).length ≤ 2 := fun field hf wire hw => by
      exact length_varint_le (by omega)
    have h₁ := htag 1 (by decide) WIRE_LEN (by decide)
    have h₂ := htag 2 (by decide) WIRE_VARINT (by decide)
    have h₃ := htag 3 (by decide) WIRE_LEN (by decide)
    have hsize : ∀ n < 128, (Writer.varint n).length = 1 := fun n hn => by rw [varint_of_lt hn]; rfl
    rw [hfields]
    simp only [flatten, List.map_cons, List.map_nil, List.flatten_cons, List.flatten_nil, lenField_bytes,
      intField_bytes, Writer.rawBytes, List.length_append, List.length_nil]
    rw [hsize _ (by decide), hsize _ (by decide)]
    have ha : (asArray [0x6b]).bytes.length = 1 := by decide
    have hb : (asArray [1, 2]).bytes.length = 2 := by decide
    omega
  obtain ⟨buf, hbuf⟩ := encodeKeyValue_returned plainTexts blindWrite (by decide) rfl hlen
  have hsafe : SafeVersion blindWrite := ⟨-1, rfl, by decide⟩
  exact ⟨buf, hbuf, (codec_round_trip plainTexts fun _ => rfl).1 blindWrite buf hsafe hbuf⟩

/-- An empty page token is not read back. -/
theorem codec_empty_token : ∃ buf,
    encodeListKeyVersionsResponse plainTexts [] (some plainTexts.empty) none = .returned buf ∧
      decodeListKeyVersionsResponse plainTexts buf = .returned ⟨[], none, none⟩ ∧
      (none : Option Uint8Array) ≠ some plainTexts.empty :=
  ⟨.empty, by decide, by decide, by decide⟩

end LibreWallet.Vss.Protobuf
