import LibreWallet.Vss.Protobuf

/-
  Vss/Wire.lean --- the fields of a message as bytes.

  A varint ends at its first byte without the continuation bit; a field is a tag and a content of its wire
  type.  What the reader does at a position is said in terms of the bytes from there on.
-/

set_option autoImplicit false

namespace LibreWallet.Vss.Protobuf

open Numbers

/-! ## Varints -/

section Bits

theorem toNat_low (b : UInt8) : (b &&& 0x7f).toNat = b.toNat % 128 := by
  rw [UInt8.toNat_and]
  exact Nat.and_two_pow_sub_one_eq_mod b.toNat 7

theorem high_eq_zero_iff (b : UInt8) : b &&& 0x80 = 0 ↔ b.toNat < 128 := by
  have key : ∀ i : Fin 256, i.val &&& 128 = 0 ↔ i.val < 128 := by decide +kernel
  rw [← UInt8.toNat_inj, UInt8.toNat_and]
  exact key ⟨b.toNat, b.toNat_lt⟩

end Bits

/-- The bytes up to the first without the continuation bit, and the rest. -/
def splitVarint : List UInt8 → Option (List UInt8 × List UInt8)
  | [] => none
  | b :: rest => if b.toNat < 128 then some ([b], rest) else (splitVarint rest).map fun s => (b :: s.1, s.2)

/-- The sum that `varint` computes, in doubles. -/
def varintSum (result multiplier : Double) : List UInt8 → Double
  | [] => result
  | b :: g => varintSum (result.add ((Double.fin (b.toNat % 128)).mul multiplier)) (multiplier.mul (.fin 128)) g

def varintValue (g : List UInt8) : Double := varintSum (.fin 0) (.fin 1) g

/-- The number that `varintI64` computes. -/
def bigSum : List UInt8 → Nat
  | [] => 0
  | b :: g => b.toNat % 128 + 128 * bigSum g

section Varint

variable {bs g rest : List UInt8}

/-- A varint is taken off the front. -/
theorem splitVarint_append (h : splitVarint g = some (g, [])) (rest : List UInt8) :
    splitVarint (g ++ rest) = some (g, rest) := by
  suffices H : ∀ {g g' r : List UInt8}, splitVarint g = some (g', r) → splitVarint (g ++ rest) = some (g', r ++ rest) from
    H h
  clear h
  intro g
  induction g with
  | nil => intro g' r h; cases h
  | cons b g ih =>
    intro g' r h
    rw [List.cons_append, splitVarint]
    rw [splitVarint] at h
    split at h
    · rename_i hlast
      obtain ⟨rfl, rfl⟩ := Prod.mk.inj (Option.some.inj h)
      rw [if_pos hlast]
    · rename_i hmore
      obtain ⟨s, hs, heq⟩ := Option.map_eq_some_iff.mp h
      obtain ⟨rfl, rfl⟩ := Prod.mk.inj heq
      rw [if_neg hmore, ih hs]
      rfl

theorem splitVarint_spec (h : splitVarint bs = some (g, rest)) :
    bs = g ++ rest ∧ g ≠ [] ∧ splitVarint g = some (g, []) := by
  induction bs generalizing g rest with
  | nil => cases h
  | cons b bs ih =>
    rw [splitVarint] at h
    split at h
    · rename_i hlast
      obtain ⟨rfl, rfl⟩ := Prod.mk.inj (Option.some.inj h)
      refine ⟨rfl, List.cons_ne_nil _ _, ?_⟩
      rw [splitVarint, if_pos hlast]
    · rename_i hmore
      obtain ⟨s, hs, heq⟩ := Option.map_eq_some_iff.mp h
      obtain ⟨rfl, rfl⟩ := Prod.mk.inj heq
      obtain ⟨hbs, -, hself⟩ := ih hs
      refine ⟨congrArg (b :: ·) hbs, List.cons_ne_nil _ _, ?_⟩
      rw [splitVarint, if_neg hmore, hself]
      rfl

theorem varintLoop_of_split (h : splitVarint bs = some (g, rest)) (result multiplier : Double) (k : Nat) :
    Reader.varintLoop bs result multiplier k = .returned (varintSum result multiplier g, k + g.length) := by
  induction bs generalizing g result multiplier k with
  | nil => cases h
  | cons b bs ih =>
    rw [Reader.varintLoop, toNat_low]
    rw [splitVarint] at h
    split at h
    · rename_i hlast
      obtain ⟨rfl, rfl⟩ := Prod.mk.inj (Option.some.inj h)
      rw [if_pos ((high_eq_zero_iff b).mpr hlast)]
      rfl
    · rename_i hmore
      obtain ⟨s, hs, heq⟩ := Option.map_eq_some_iff.mp h
      obtain ⟨rfl, rfl⟩ := Prod.mk.inj heq
      rw [if_neg (mt (high_eq_zero_iff b).mp hmore), ih hs, List.length_cons, Nat.add_assoc, Nat.add_comm 1]
      rfl

theorem varintLoop_of_none (h : splitVarint bs = none) (result multiplier : Double) (k : Nat) :
    Reader.varintLoop bs result multiplier k = .threw .truncatedVarint := by
  induction bs generalizing result multiplier k with
  | nil => rfl
  | cons b bs ih =>
    rw [splitVarint] at h
    split at h
    · cases h
    · rename_i hmore
      rw [Reader.varintLoop, if_neg (mt (high_eq_zero_iff b).mp hmore)]
      exact ih (Option.map_eq_none_iff.mp h) _ _ _

theorem varintI64Loop_of_split (h : splitVarint bs = some (g, rest)) (result shift k : Nat) :
    Reader.varintI64Loop bs result shift k = .returned (result + bigSum g <<< shift, k + g.length) := by
  induction bs generalizing g result shift k with
  | nil => cases h
  | cons b bs ih =>
    rw [Reader.varintI64Loop, toNat_low]
    rw [splitVarint] at h
    split at h
    · rename_i hlast
      obtain ⟨rfl, rfl⟩ := Prod.mk.inj (Option.some.inj h)
      rw [if_pos ((high_eq_zero_iff b).mpr hlast)]
      simp [bigSum]
    · rename_i hmore
      obtain ⟨s, hs, heq⟩ := Option.map_eq_some_iff.mp h
      obtain ⟨rfl, rfl⟩ := Prod.mk.inj heq
      rw [if_neg (mt (high_eq_zero_iff b).mp hmore), ih hs, List.length_cons, Nat.add_assoc k, Nat.add_comm 1]
      have hsum : result + (b.toNat % 128) <<< shift + bigSum s.1 <<< (shift + 7) =
          result + bigSum (b :: s.1) <<< shift := by
        simp only [bigSum, Nat.shiftLeft_eq, Nat.pow_add]
        ring
      rw [hsum]

theorem varintI64Loop_of_none (h : splitVarint bs = none) (result shift k : Nat) :
    Reader.varintI64Loop bs result shift k = .threw .truncatedVarint := by
  induction bs generalizing result shift k with
  | nil => rfl
  | cons b bs ih =>
    rw [splitVarint] at h
    split at h
    · cases h
    · rename_i hmore
      rw [Reader.varintI64Loop, if_neg (mt (high_eq_zero_iff b).mp hmore)]
      exact ih (Option.map_eq_none_iff.mp h) _ _ _

end Varint

/-! ## The reader at a position -/

/-- The reader after the bytes before it. -/
def cursor (buf : Uint8Array) (before : List UInt8) : Reader := ⟨buf, .fin before.length⟩

section Cursor

variable {buf : Uint8Array} {before bs g rest : List UInt8}

theorem drop_before (hbuf : buf.bytes = before ++ bs) : buf.bytes.drop before.length = bs := by
  rw [hbuf, List.drop_left]

theorem varint_of_split (hbuf : buf.bytes = before ++ bs) (h : splitVarint bs = some (g, rest)) :
    (cursor buf before).varint = .returned (varintValue g, cursor buf (before ++ g)) := by
  simp only [Reader.varint, cursor, drop_before hbuf, varintLoop_of_split h, Result.returned_bind, Result.pure_eq,
    Nat.zero_add, List.length_append]
  rfl

theorem varint_of_none (hbuf : buf.bytes = before ++ bs) (h : splitVarint bs = none) :
    (cursor buf before).varint = .threw .truncatedVarint := by
  simp only [Reader.varint, cursor, drop_before hbuf, varintLoop_of_none h, Result.threw_bind]

theorem varintI64_of_split (hbuf : buf.bytes = before ++ bs) (h : splitVarint bs = some (g, rest)) :
    (cursor buf before).varintI64 =
      .returned (toDouble (Reader.signed (bigSum g)), cursor buf (before ++ g)) := by
  simp only [Reader.varintI64, cursor, drop_before hbuf, varintI64Loop_of_split h, Result.returned_bind,
    Result.pure_eq, Nat.zero_add, List.length_append, Nat.shiftLeft_zero]

theorem varintI64_of_none (hbuf : buf.bytes = before ++ bs) (h : splitVarint bs = none) :
    (cursor buf before).varintI64 = .threw .truncatedVarint := by
  simp only [Reader.varintI64, cursor, drop_before hbuf, varintI64Loop_of_none h, Result.threw_bind]

/-- An array is its bytes. -/
theorem Uint8Array.eq_of_bytes {a b : Uint8Array} (h : a.bytes = b.bytes) : a = b := by
  cases a
  cases b
  simpa using h

theorem tag_of_split (hbuf : buf.bytes = before ++ bs) (h : splitVarint bs = some (g, rest)) :
    (cursor buf before).tag =
      .returned ((varintValue g).floorDiv 3, (varintValue g).lowBits 3, cursor buf (before ++ g)) := by
  rw [Reader.tag, varint_of_split hbuf h]
  rfl

theorem tag_of_none (hbuf : buf.bytes = before ++ bs) (h : splitVarint bs = none) :
    (cursor buf before).tag = .threw .truncatedVarint := by
  rw [Reader.tag, varint_of_none hbuf h]
  rfl

/-- The position after a length that is a number. -/
theorem length_lt_add {n : Nat} (hbuf : buf.bytes = before ++ rest) :
    ((Double.fin before.length).add (.fin n)).gt (.fin buf.length) = decide (rest.length < n) := by
  have hlen : buf.length = before.length + rest.length := by
    rw [Uint8Array.length, hbuf, List.length_append]
  rw [Double.add, round_gt buf.safe_length, decide_eq_decide]
  omega

theorem bytes_of_fin {n : Nat} {payload : Uint8Array} (hbuf : buf.bytes = before ++ bs)
    (h : splitVarint bs = some (g, rest)) (hn : varintValue g = .fin n) (hle : n ≤ rest.length)
    (hpayload : payload.bytes = rest.take n) :
    (cursor buf before).bytes = .returned (payload, cursor buf (before ++ (g ++ rest.take n))) := by
  obtain ⟨rfl, -, -⟩ := splitVarint_spec h
  have hafter : buf.bytes = (before ++ g) ++ rest := by rw [hbuf, List.append_assoc]
  have hlen : buf.length = (before ++ g).length + rest.length := by
    rw [Uint8Array.length, hafter, List.length_append]
  have hsum : (before ++ g).length + n < 2 ^ 53 := by
    have hlt := buf.safe_length
    omega
  have hpos : (Double.fin (before ++ g).length).add (.fin n) = .fin ((before ++ g).length + n) :=
    round_of_lt hsum
  have hcond : ((Double.fin (before ++ g).length).add (.fin n)).gt (.fin buf.length) = false := by
    rw [length_lt_add hafter, decide_eq_false_iff_not]
    omega
  have hsub : buf.subarray (.fin (before ++ g).length) (.fin ((before ++ g).length + n)) = payload := by
    refine Uint8Array.eq_of_bytes ?_
    have hle₁ : (before ++ g).length + n ≤ buf.length := by omega
    simp only [Uint8Array.subarray, Uint8Array.clamp, min_eq_left hle₁,
      min_eq_left ((Nat.le_add_right _ n).trans hle₁)]
    rw [hpayload, hafter, List.take_length_add_append, List.drop_left]
  rw [hpos] at hcond
  rw [Reader.bytes, varint_of_split hbuf h, hn]
  simp only [Result.returned_bind, cursor, hpos, hcond, Bool.false_eq_true, if_false, Result.pure_eq, hsub]
  simp only [List.length_append, List.length_take, min_eq_left hle, Nat.add_assoc]

theorem bytes_of_long (hbuf : buf.bytes = before ++ bs) (h : splitVarint bs = some (g, rest))
    (hn : varintValue g = .inf ∨ ∃ n, varintValue g = .fin n ∧ rest.length < n) :
    (cursor buf before).bytes = .threw .truncatedField := by
  obtain ⟨rfl, -, -⟩ := splitVarint_spec h
  have hafter : buf.bytes = (before ++ g) ++ rest := by rw [hbuf, List.append_assoc]
  have hcond : ((Double.fin (before ++ g).length).add (varintValue g)).gt (.fin buf.length) = true := by
    rcases hn with hinf | ⟨n, hn, hlt⟩
    · rw [hinf]
      rfl
    · rw [hn, length_lt_add hafter, decide_eq_true hlt]
  rw [Reader.bytes, varint_of_split hbuf h]
  simp only [Result.returned_bind, cursor, hcond, if_true]

/-- A length that is not a number passes the check. -/
theorem bytes_of_nan (hbuf : buf.bytes = before ++ bs) (h : splitVarint bs = some (g, rest))
    (hn : varintValue g = .nan) : (cursor buf before).bytes = .returned (.empty, ⟨buf, .nan⟩) := by
  rw [Reader.bytes, varint_of_split hbuf h, hn]
  simp only [Result.returned_bind, cursor]
  refine congrArg Result.returned (Prod.ext (Uint8Array.eq_of_bytes ?_) rfl)
  simp [Uint8Array.subarray, Uint8Array.clamp, Double.add, Uint8Array.empty]

theorem bytes_of_none (hbuf : buf.bytes = before ++ bs) (h : splitVarint bs = none) :
    (cursor buf before).bytes = .threw .truncatedVarint := by
  rw [Reader.bytes, varint_of_none hbuf h]
  rfl

theorem pos_add_of_le {n : Nat} (hbuf : buf.bytes = before ++ bs) (hle : n ≤ bs.length) :
    (Double.fin before.length).add (.fin n) = .fin (before ++ bs.take n).length := by
  have hlen : buf.length = before.length + bs.length := by rw [Uint8Array.length, hbuf, List.length_append]
  have hlt := buf.safe_length
  rw [Double.add, round_of_lt (by omega), List.length_append, List.length_take, min_eq_left hle]

end Cursor

/-! ## Fields -/

/-- What follows a tag, by its wire type. -/
inductive Content : Nat → List UInt8 → Prop where
  | varint {g : List UInt8} (h : splitVarint g = some (g, [])) : Content 0 g
  | fixed64 {c : List UInt8} (h : c.length = 8) : Content 1 c
  | len {l payload : List UInt8} (h : splitVarint l = some (l, []))
      (hlen : varintValue l = .fin payload.length) : Content 2 (l ++ payload)
  | fixed32 {c : List UInt8} (h : c.length = 4) : Content 5 c

theorem Content.cases {w : Nat} {c : List UInt8} (h : Content w c) :
    (w = WIRE_VARINT ∧ splitVarint c = some (c, [])) ∨
    (w = WIRE_LEN ∧ ∃ l payload, c = l ++ payload ∧ splitVarint l = some (l, []) ∧
      varintValue l = .fin payload.length) ∨
    (w = 5 ∧ c.length = 4) ∨ (w = 1 ∧ c.length = 8) := by
  cases h with
  | varint h => exact .inl ⟨rfl, h⟩
  | len h hlen => exact .inr (.inl ⟨rfl, _, _, rfl, h, hlen⟩)
  | fixed32 h => exact .inr (.inr (.inl ⟨rfl, h⟩))
  | fixed64 h => exact .inr (.inr (.inr ⟨rfl, h⟩))

def fieldOf (t : List UInt8) : Double := (varintValue t).floorDiv 3

def wireOf (t : List UInt8) : Nat := (varintValue t).lowBits 3

/-- A tag and a content of its wire type. -/
structure Field where
  tag : List UInt8
  content : List UInt8
  isTag : splitVarint tag = some (tag, [])
  isContent : Content (wireOf tag) content

namespace Field

def bytes (f : Field) : List UInt8 := f.tag ++ f.content

def field (f : Field) : Double := fieldOf f.tag

def wire (f : Field) : Nat := wireOf f.tag

/-- What a content with a length holds. -/
def payload (f : Field) : List UInt8 := ((splitVarint f.content).map Prod.snd).getD []

end Field

/-- The array of some bytes. -/
def asArray (bs : List UInt8) : Uint8Array := if h : bs.length < 2 ^ 53 then ⟨bs, h⟩ else .empty

def Field.array (f : Field) : Uint8Array := asArray f.payload

section Effects

variable {μ : Type}

/-- What a decoder does with a field. -/
def Fields.apply (fields : Fields μ) (f : Field) (out : μ) : Result μ :=
  if f.wire = WIRE_VARINT then
    match fields.varint f.field with
    | some (.unsigned set) => pure (set (varintValue f.content) out)
    | some (.signed set) => pure (set (toDouble (Reader.signed (bigSum f.content))) out)
    | none => pure out
  else if f.wire = WIRE_LEN then
    match fields.len f.field with
    | some set => set f.array out
    | none => pure out
  else pure out

/-- Of fields one after another. -/
def Fields.applyAll (fields : Fields μ) : List Field → μ → Result μ
  | [], out => pure out
  | f :: fs, out => do
    let out ← fields.apply f out
    fields.applyAll fs out

def flatten (fs : List Field) : List UInt8 := (fs.map Field.bytes).flatten

variable {fields : Fields μ} {buf : Uint8Array} {before rest : List UInt8} {out : μ} {f : Field} {fs : List Field}

theorem Field.tag_ne_nil (f : Field) : f.tag ≠ [] := (splitVarint_spec f.isTag).2.1

theorem asArray_bytes {bs : List UInt8} (h : bs.length < 2 ^ 53) : (asArray bs).bytes = bs := by
  rw [asArray, dif_pos h]

theorem skip_varint (r : Reader) : r.skip WIRE_VARINT = (r.varint >>= fun x => pure x.2) := rfl

theorem skip_len (r : Reader) : r.skip WIRE_LEN = (r.bytes >>= fun x => pure x.2) := rfl

theorem skip_fixed32 (r : Reader) : r.skip 5 = .returned { r with pos := r.pos.add (.fin 4) } := rfl

theorem skip_fixed64 (r : Reader) : r.skip 1 = .returned { r with pos := r.pos.add (.fin 8) } := rfl

/-- What a field holds is what the reader hands over. -/
theorem payload_of_field (hbuf : buf.bytes = before ++ (f.bytes ++ rest)) (hw : f.wire = WIRE_LEN) :
    f.array.bytes = f.payload ∧ (cursor buf before).tag = .returned (f.field, WIRE_LEN, cursor buf (before ++ f.tag)) ∧
      (cursor buf (before ++ f.tag)).bytes = .returned (f.array, cursor buf (before ++ f.bytes)) := by
  have htag : buf.bytes = before ++ (f.tag ++ (f.content ++ rest)) := by
    rw [hbuf, Field.bytes, List.append_assoc]
  have hafter : buf.bytes = (before ++ f.tag) ++ (f.content ++ rest) := by rw [htag, List.append_assoc]
  have hread : (cursor buf before).tag = .returned (f.field, f.wire, cursor buf (before ++ f.tag)) :=
    tag_of_split htag (splitVarint_append f.isTag (f.content ++ rest))
  rw [hw] at hread
  rcases f.isContent.cases with ⟨hother, -⟩ | ⟨-, l, payload, hcontent, hl, hlen⟩ | ⟨hother, -⟩ | ⟨hother, -⟩
  · cases hw.symm.trans hother
  · have hpayload : f.payload = payload := by
      rw [Field.payload, hcontent, splitVarint_append hl payload]
      rfl
    have hlt : payload.length < 2 ^ 53 := by
      have hbound := buf.safe_length
      rw [Uint8Array.length, hafter, hcontent] at hbound
      simp only [List.length_append] at hbound
      omega
    have harray : f.array.bytes = f.payload := by
      rw [Field.array, hpayload, asArray_bytes hlt]
    rw [hcontent, List.append_assoc l] at hafter
    have hbytes := bytes_of_fin hafter (splitVarint_append hl (payload ++ rest)) hlen
      (by rw [List.length_append]; omega) (harray.trans (hpayload.trans List.take_left.symm))
    rw [List.take_left, ← hcontent, List.append_assoc before] at hbytes
    exact ⟨harray, hread, hbytes⟩
  · cases hw.symm.trans hother
  · cases hw.symm.trans hother

/-- A field at the position is applied, and the reader is past it. -/
theorem readField_of_field (hbuf : buf.bytes = before ++ (f.bytes ++ rest)) :
    readField fields (cursor buf before) out =
      (fields.apply f out >>= fun out => pure (out, cursor buf (before ++ f.bytes))) := by
  have htag : buf.bytes = before ++ (f.tag ++ (f.content ++ rest)) := by
    rw [hbuf, Field.bytes, List.append_assoc]
  have hafter : buf.bytes = (before ++ f.tag) ++ (f.content ++ rest) := by rw [htag, List.append_assoc]
  have hread : (cursor buf before).tag = .returned (f.field, f.wire, cursor buf (before ++ f.tag)) :=
    tag_of_split htag (splitVarint_append f.isTag (f.content ++ rest))
  rw [readField, hread, Fields.apply]
  simp only [Result.returned_bind, Field.bytes, ← List.append_assoc]
  rcases f.isContent.cases with ⟨hw, hg⟩ | ⟨hw, -⟩ | ⟨hw, hc⟩ | ⟨hw, hc⟩
  · have hw : f.wire = WIRE_VARINT := hw
    have hsplit := splitVarint_append hg rest
    rw [if_pos hw, if_pos hw, hw, skip_varint, varint_of_split hafter hsplit, varintI64_of_split hafter hsplit]
    cases fields.varint f.field with
    | none => rfl
    | some on =>
      cases on with
      | unsigned set => rfl
      | signed set => rfl
  · have hw : f.wire = WIRE_LEN := hw
    have hne : f.wire ≠ WIRE_VARINT := by rw [hw]; decide
    obtain ⟨-, -, hbytes⟩ := payload_of_field hbuf hw
    rw [Field.bytes, ← List.append_assoc] at hbytes
    rw [if_neg hne, if_pos hw, if_neg hne, if_pos hw, hw, skip_len, hbytes]
    cases fields.len f.field with
    | none => rfl
    | some set => rfl
  all_goals
    have hw : f.wire = _ := hw
    have hne : f.wire ≠ WIRE_VARINT ∧ f.wire ≠ WIRE_LEN := by rw [hw]; decide
    have hpos := pos_add_of_le hafter (n := f.content.length) (by rw [List.length_append]; omega)
    rw [List.take_left, hc] at hpos
    rw [if_neg hne.1, if_neg hne.2, if_neg hne.1, if_neg hne.2, hw]
    simp only [skip_fixed32, skip_fixed64, cursor, hpos, Result.returned_bind, Result.pure_eq]

theorem Field.bytes_ne_nil (f : Field) : f.bytes ≠ [] := by
  rw [Field.bytes]
  exact List.append_ne_nil_of_left_ne_nil f.tag_ne_nil _

theorem flatten_cons (f : Field) (fs : List Field) : flatten (f :: fs) = f.bytes ++ flatten fs := rfl

theorem flatten_append (fs gs : List Field) : flatten (fs ++ gs) = flatten fs ++ flatten gs := by
  rw [flatten, List.map_append, List.flatten_append]
  rfl

theorem length_le_flatten (fs : List Field) : fs.length ≤ (flatten fs).length := by
  induction fs with
  | nil => exact le_rfl
  | cons f fs ih =>
    have hpos := List.length_pos_iff.mpr f.bytes_ne_nil
    rw [flatten_cons, List.length_cons, List.length_append]
    omega

theorem eof_cursor (hbuf : buf.bytes = before ++ rest) : (cursor buf before).eof = true ↔ rest = [] := by
  have hlen : buf.length = before.length + rest.length := by rw [Uint8Array.length, hbuf, List.length_append]
  have heof : (cursor buf before).eof = true ↔ buf.length ≤ before.length := decide_eq_true_iff
  rw [heof, ← List.length_eq_zero_iff]
  omega

/-- The loop over whole fields applies them in turn. -/
theorem readFields_flatten {fuel : Nat} (hbuf : buf.bytes = before ++ flatten fs) (hfuel : fs.length < fuel) :
    readFields fields fuel (cursor buf before) out =
      (fields.applyAll fs out >>= fun out => pure (out, cursor buf buf.bytes)) := by
  induction fs generalizing before out fuel with
  | nil =>
    obtain ⟨fuel, rfl⟩ := Nat.exists_eq_succ_of_ne_zero (Nat.ne_of_gt (Nat.lt_of_le_of_lt (Nat.zero_le _) hfuel))
    have heof := (eof_cursor hbuf).mpr rfl
    rw [flatten, List.map_nil, List.flatten_nil, List.append_nil] at hbuf
    rw [readFields, if_pos heof, hbuf]
    rfl
  | cons f fs ih =>
    rw [List.length_cons] at hfuel
    obtain ⟨fuel, rfl⟩ := Nat.exists_eq_succ_of_ne_zero (n := fuel) (by omega)
    rw [flatten_cons] at hbuf
    have heof : ¬(cursor buf before).eof = true :=
      mt (eof_cursor hbuf).mp (List.append_ne_nil_of_left_ne_nil f.bytes_ne_nil _)
    rw [readFields, if_neg heof, readField_of_field hbuf, Fields.applyAll]
    cases fields.apply f out with
    | returned out' =>
      have hafter : buf.bytes = (before ++ f.bytes) ++ flatten fs := by rw [hbuf, List.append_assoc]
      have hnext : readFields fields fuel (cursor buf (before ++ f.bytes)) out' = _ := ih hafter (by omega)
      simpa only [Result.returned_bind, Result.pure_eq] using hnext
    | threw e => rfl
    | running => rfl

/-- A decoder of whole fields applies them in turn. -/
theorem decode_flatten (hbuf : buf.bytes = flatten fs) : decode fields out buf = fields.applyAll fs out := by
  have hfuel : fs.length < buf.length + 1 := by
    have hle := length_le_flatten fs
    rw [Uint8Array.length, hbuf]
    omega
  have hread : readFields fields (buf.length + 1) (cursor buf []) out = _ := readFields_flatten hbuf hfuel
  rw [decode]
  change (readFields fields (buf.length + 1) (cursor buf []) out >>= _) = _
  rw [hread]
  cases fields.applyAll fs out with
  | returned out' => rfl
  | threw e => rfl
  | running => rfl

theorem applyAll_append (fs gs : List Field) :
    fields.applyAll (fs ++ gs) out = (fields.applyAll fs out >>= fun out => fields.applyAll gs out) := by
  induction fs generalizing out with
  | nil => rfl
  | cons f fs ih =>
    rw [List.cons_append, Fields.applyAll, Fields.applyAll]
    cases fields.apply f out with
    | returned out' => exact ih
    | threw e => rfl
    | running => rfl

end Effects

end LibreWallet.Vss.Protobuf
