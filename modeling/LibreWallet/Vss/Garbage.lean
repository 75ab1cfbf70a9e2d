import LibreWallet.Vss.Wire

/-
  Vss/Garbage.lean --- what the decoders make of arbitrary bytes.

  A decoder is contained when it ends and its position stays inside the bytes.  Two things break that: a field
  of fixed width that the end of the bytes cuts off, whose skip is not checked, and a length so long that its
  sum is not a number, which passes the check on lengths.
-/

set_option autoImplicit false

namespace LibreWallet.Vss.Protobuf

open Numbers

/-! ## Varints that are not numbers -/

/-- From the 148th byte on the multiplier is infinite, and infinity times zero is not a number. -/
def Oversized (g : List UInt8) : Prop := ∃ i b, g[i]? = some b ∧ 147 ≤ i ∧ b.toNat % 128 = 0

/-- The multiplier of a byte by its index. -/
def multiplierAt (k : Nat) : Double := if 7 * k < 1024 then .fin (2 ^ (7 * k)) else .inf

section Oversized

variable {g : List UInt8} {k d : Nat} {x y : Double}

theorem multiplierAt_succ (k : Nat) : (multiplierAt k).mul (.fin 128) = multiplierAt (k + 1) := by
  rw [multiplierAt, multiplierAt]
  by_cases hk : 7 * k < 1024
  · have hprod : 2 ^ (7 * k) * 128 = 1 * 2 ^ (7 * (k + 1)) := by
      rw [Nat.mul_succ 7, Nat.pow_add, Nat.one_mul]
    have hlog : (1 * 2 ^ (7 * (k + 1))).log2 = 7 * (k + 1) := by rw [Nat.one_mul, Nat.log2_two_pow]
    rw [if_pos hk, Double.mul, hprod, round_mul_pow (by decide), hlog, Nat.one_mul]
  · rw [if_neg hk, if_neg (by omega)]
    rfl

theorem add_eq_nan_iff : x.add y = .nan ↔ x = .nan ∨ y = .nan := by
  cases x with
  | nan => simp [Double.add]
  | inf => cases y <;> simp [Double.add]
  | fin m =>
    cases y with
    | fin n => simp [Double.add, round_ne_nan]
    | inf => simp [Double.add]
    | nan => simp [Double.add]

theorem mul_multiplierAt_eq_nan_iff : (Double.fin d).mul (multiplierAt k) = .nan ↔ 147 ≤ k ∧ d = 0 := by
  rw [multiplierAt]
  by_cases hk : 7 * k < 1024
  · rw [if_pos hk, Double.mul]
    exact ⟨fun h => absurd h round_ne_nan, fun h => by omega⟩
  · rw [if_neg hk]
    by_cases hd : d = 0
    · simp [Double.mul, hd]
      omega
    · simp [Double.mul, hd]

theorem ge_of_gt (h : x.gt y = true) : x.ge y = true := by
  cases x with
  | nan => cases h
  | inf =>
    cases y with
    | nan => cases h
    | inf => cases h
    | fin n => rfl
  | fin m =>
    cases y with
    | nan => cases h
    | inf => cases h
    | fin n => exact decide_eq_true (of_decide_eq_true h).le

theorem varintSum_eq_nan_iff : varintSum x (multiplierAt k) g = .nan ↔
    x = .nan ∨ ∃ i b, g[i]? = some b ∧ 147 ≤ k + i ∧ b.toNat % 128 = 0 := by
  induction g generalizing x k with
  | nil => simp [varintSum]
  | cons b g ih =>
    rw [varintSum, multiplierAt_succ, ih, add_eq_nan_iff, mul_multiplierAt_eq_nan_iff, or_assoc]
    refine or_congr_right ⟨?_, ?_⟩
    · rintro (⟨hk, hb⟩ | ⟨i, c, hc, hi, hzero⟩)
      · exact ⟨0, b, rfl, by omega, hb⟩
      · exact ⟨i + 1, c, hc, by omega, hzero⟩
    · rintro ⟨i, c, hc, hi, hzero⟩
      cases i with
      | zero =>
        obtain rfl := Option.some.inj hc
        exact .inl ⟨by omega, hzero⟩
      | succ i => exact .inr ⟨i, c, hc, by omega, hzero⟩

theorem varintValue_eq_nan_iff : varintValue g = .nan ↔ Oversized g := by
  have hone : multiplierAt 0 = .fin 1 := rfl
  rw [varintValue, ← hone, varintSum_eq_nan_iff, Oversized]
  simp

end Oversized

/-! ## Runs of a decoder -/

/-- What the loop comes to, field by field. -/
inductive Visits {μ : Type} (fields : Fields μ) (start : μ) (buf : Uint8Array) : Reader → μ → Prop where
  | refl : Visits fields start buf { buf } start
  | step {r r' : Reader} {out out' : μ} : Visits fields start buf r out → r.eof = false →
    readField fields r out = .returned (out', r') → Visits fields start buf r' out'

/-- The decoder ends; it returns only past the last byte; every field that it reads or skips begins and ends
inside the bytes, further on than the one before; and `inner` holds of what its fields hold. -/
structure Contained {μ : Type} (fields : Fields μ) (inner : Double → Uint8Array → Prop) (start : μ)
    (buf : Uint8Array) : Prop where
  ends : ∃ fuel, readFields fields fuel { buf } start ≠ .running
  whole : ∀ fuel out r, readFields fields fuel { buf } start = .returned (out, r) → r.pos = .fin buf.length
  moves : ∀ r out, Visits fields start buf r out → ∃ p, r.pos = .fin p ∧ p ≤ buf.length ∧
    (r.eof = false → ∀ out' r', readField fields r out = .returned (out', r') →
      ∃ p', r'.pos = .fin p' ∧ p < p' ∧ p' ≤ buf.length)
  inside : ∀ r out, Visits fields start buf r out → ∀ field r₁ payload r₂,
    r.tag = .returned (field, WIRE_LEN, r₁) → r₁.bytes = .returned (payload, r₂) → inner field payload

/-- A field of fixed width is cut off, or a length is oversized, before the first fault that the decoder
throws on; or what a field holds is `bad`.  A field is passed only where what it holds `passes`. -/
inductive Defect (bad passes : Double → List UInt8 → Prop) : List UInt8 → Prop where
  | fixed32 {t rest : List UInt8} (ht : splitVarint t = some (t, [])) (hw : wireOf t = 5) (hlen : rest.length < 4) :
    Defect bad passes (t ++ rest)
  | fixed64 {t rest : List UInt8} (ht : splitVarint t = some (t, [])) (hw : wireOf t = 1) (hlen : rest.length < 8) :
    Defect bad passes (t ++ rest)
  | length {t l rest : List UInt8} (ht : splitVarint t = some (t, [])) (hw : wireOf t = WIRE_LEN)
    (hl : splitVarint l = some (l, [])) (hsize : Oversized l) : Defect bad passes (t ++ (l ++ rest))
  | inner {f : Field} {rest : List UInt8} (hw : f.wire = WIRE_LEN) (h : bad f.field f.payload) :
    Defect bad passes (f.bytes ++ rest)
  | later {f : Field} {rest : List UInt8} (hpasses : f.wire = WIRE_LEN → passes f.field f.payload)
    (h : Defect bad passes rest) : Defect bad passes (f.bytes ++ rest)

/-- What a decoder's handlers do with what a field holds. -/
structure Handles {μ : Type} (fields : Fields μ) (inner : Double → Uint8Array → Prop)
    (bad passes : Double → List UInt8 → Prop) : Prop where
  inner_iff : ∀ field a, inner field a ↔ ¬ bad field a.bytes
  sets : ∀ field set a out, fields.len field = some set → inner field a →
    (passes field a.bytes ∧ ∃ out', set a out = .returned out') ∨ (¬ passes field a.bytes ∧ ∃ e, set a out = .threw e)
  skipped : ∀ field bs, fields.len field = none → passes field bs
  empty : ∀ field set out, fields.len field = some set → ∃ out', set .empty out = .returned out'
  zero : fields.varint (.fin 0) = none

section Reading

variable {μ : Type} {fields : Fields μ} {buf : Uint8Array} {before bs t l rest : List UInt8} {out : μ} {f : Field}

theorem readField_varint_threw {r r₁ : Reader} {field : Double} {e : Error}
    (htag : r.tag = .returned (field, WIRE_VARINT, r₁)) (h : r₁.varint = .threw e) (h' : r₁.varintI64 = .threw e) :
    readField fields r out = .threw e := by
  rw [readField, htag]
  simp only [Result.returned_bind, if_pos, skip_varint, h, h']
  cases fields.varint field with
  | none => rfl
  | some on =>
    cases on with
    | unsigned set => rfl
    | signed set => rfl

theorem readField_len_threw {r r₁ : Reader} {field : Double} {e : Error}
    (htag : r.tag = .returned (field, WIRE_LEN, r₁)) (h : r₁.bytes = .threw e) :
    readField fields r out = .threw e := by
  have hne : ¬WIRE_LEN = WIRE_VARINT := by decide
  rw [readField, htag]
  simp only [Result.returned_bind, if_neg hne, if_pos, skip_len, h]
  cases fields.len field with
  | none => rfl
  | some set => rfl

theorem readField_known {r r₁ r₂ : Reader} {field : Double} {payload : Uint8Array} {set : Uint8Array → μ → Result μ}
    (htag : r.tag = .returned (field, WIRE_LEN, r₁)) (h : r₁.bytes = .returned (payload, r₂))
    (hset : fields.len field = some set) :
    readField fields r out = (set payload out >>= fun out => pure (out, r₂)) := by
  have hne : ¬WIRE_LEN = WIRE_VARINT := by decide
  rw [readField, htag]
  simp only [Result.returned_bind, if_neg hne, if_pos, h, hset]

theorem readField_unknown {r r₁ r₂ : Reader} {field : Double} {payload : Uint8Array}
    (htag : r.tag = .returned (field, WIRE_LEN, r₁)) (h : r₁.bytes = .returned (payload, r₂))
    (hnone : fields.len field = none) : readField fields r out = .returned (out, r₂) := by
  have hne : ¬WIRE_LEN = WIRE_VARINT := by decide
  rw [readField, htag]
  simp only [Result.returned_bind, if_neg hne, if_pos, skip_len, h, hnone, Result.pure_eq]

theorem readField_skip {r r₁ : Reader} {field : Double} {wire : Nat} (htag : r.tag = .returned (field, wire, r₁))
    (hvarint : wire ≠ WIRE_VARINT) (hlen : wire ≠ WIRE_LEN) :
    readField fields r out = (r₁.skip wire >>= fun r => pure (out, r)) := by
  rw [readField, htag]
  simp only [Result.returned_bind, if_neg hvarint, if_neg hlen]

/-- The reader throws, before anything with a length is read. -/
structure Faults (fields : Fields μ) (r : Reader) (e : Error) : Prop where
  threw : ∀ out, readField fields r out = .threw e
  unread : ∀ field r₁ x, r.tag = .returned (field, WIRE_LEN, r₁) → r₁.bytes ≠ .returned x

theorem Faults.of_len {r r₁ : Reader} {field : Double} {e : Error} (htag : r.tag = .returned (field, WIRE_LEN, r₁))
    (h : r₁.bytes = .threw e) : Faults fields r e where
  threw _ := readField_len_threw htag h
  unread field' r' x htag' hread := by
    rw [htag] at htag'
    obtain ⟨-, -, rfl⟩ : field = field' ∧ WIRE_LEN = WIRE_LEN ∧ r₁ = r' := by simpa using htag'
    rw [h] at hread
    cases hread

theorem Faults.of_other {r r₁ : Reader} {field : Double} {wire : Nat} {e : Error}
    (htag : r.tag = .returned (field, wire, r₁)) (hwire : wire ≠ WIRE_LEN)
    (h : ∀ out, readField fields r out = .threw e) : Faults fields r e where
  threw := h
  unread field' r' x htag' _ := by
    rw [htag] at htag'
    have heq : field = field' ∧ wire = WIRE_LEN ∧ r₁ = r' := by simpa using htag'
    exact hwire heq.2.1

variable (fields) in
/-- A whole field comes next, or the decoder throws, or one of the two defects. -/
theorem readField_cases (hbuf : buf.bytes = before ++ bs) :
    (∃ f rest, bs = Field.bytes f ++ rest) ∨
    (∃ e, Faults fields (cursor buf before) e) ∨
    (∃ t rest width, splitVarint t = some (t, []) ∧ bs = t ++ rest ∧ rest.length < width ∧
      (wireOf t = 5 ∧ width = 4 ∨ wireOf t = 1 ∧ width = 8)) ∨
    ∃ t l rest, splitVarint t = some (t, []) ∧ bs = t ++ (l ++ rest) ∧ wireOf t = WIRE_LEN ∧
      splitVarint l = some (l, []) ∧ Oversized l := by
  cases htag : splitVarint bs with
  | none =>
    have hthrew := tag_of_none hbuf htag
    refine .inr (.inl ⟨.truncatedVarint, fun out => ?_, fun field r₁ x hread => ?_⟩)
    · rw [readField, hthrew, Result.threw_bind]
    · rw [hthrew] at hread
      cases hread
  | some split =>
    obtain ⟨t, rest⟩ := split
    have hread := tag_of_split hbuf htag
    obtain ⟨rfl, -, ht⟩ := splitVarint_spec htag
    have hafter : buf.bytes = (before ++ t) ++ rest := by rw [hbuf, List.append_assoc]
    by_cases hvarint : wireOf t = WIRE_VARINT
    · have hw : (varintValue t).lowBits 3 = WIRE_VARINT := hvarint
      rw [hw] at hread
      cases hg : splitVarint rest with
      | none =>
        exact .inr (.inl ⟨.truncatedVarint, .of_other hread (by decide) fun out =>
          readField_varint_threw hread (varint_of_none hafter hg) (varintI64_of_none hafter hg)⟩)
      | some content =>
        obtain ⟨g, rest'⟩ := content
        obtain ⟨rfl, -, hg⟩ := splitVarint_spec hg
        exact .inl ⟨⟨t, g, ht, hvarint ▸ .varint hg⟩, rest', (List.append_assoc t g rest').symm⟩
    · by_cases hlen : wireOf t = WIRE_LEN
      · have hw : (varintValue t).lowBits 3 = WIRE_LEN := hlen
        rw [hw] at hread
        cases hl : splitVarint rest with
        | none =>
          exact .inr (.inl ⟨.truncatedVarint, .of_len hread (bytes_of_none hafter hl)⟩)
        | some content =>
          obtain ⟨l, rest'⟩ := content
          have hlong := bytes_of_long hafter hl
          obtain ⟨rfl, -, hl⟩ := splitVarint_spec hl
          cases hvalue : varintValue l with
          | nan =>
            exact .inr (.inr (.inr ⟨t, l, rest', ht, rfl, hlen, hl, varintValue_eq_nan_iff.mp hvalue⟩))
          | inf =>
            exact .inr (.inl ⟨.truncatedField, .of_len hread (hlong (.inl hvalue))⟩)
          | fin n =>
            by_cases hfits : n ≤ rest'.length
            · have hpayload : varintValue l = .fin (rest'.take n).length := by
                rw [hvalue, List.length_take, min_eq_left hfits]
              refine .inl ⟨⟨t, l ++ rest'.take n, ht, hlen ▸ .len hl hpayload⟩, rest'.drop n, ?_⟩
              rw [Field.bytes, List.append_assoc, List.append_assoc, List.take_append_drop]
            · have hcut : ∃ k, varintValue l = .fin k ∧ rest'.length < k := ⟨n, hvalue, Nat.lt_of_not_le hfits⟩
              exact .inr (.inl ⟨.truncatedField, .of_len hread (hlong (.inr hcut))⟩)
      · by_cases hfixed : wireOf t = 5 ∨ wireOf t = 1
        · obtain ⟨width, hwidth⟩ : ∃ width, wireOf t = 5 ∧ width = 4 ∨ wireOf t = 1 ∧ width = 8 := by
            rcases hfixed with hw | hw
            · exact ⟨4, .inl ⟨hw, rfl⟩⟩
            · exact ⟨8, .inr ⟨hw, rfl⟩⟩
          by_cases hfits : rest.length < width
          · exact .inr (.inr (.inl ⟨t, rest, width, ht, rfl, hfits, hwidth⟩))
          · have htake : (rest.take width).length = width := by
              rw [List.length_take]
              omega
            have hcontent : Content (wireOf t) (rest.take width) := by
              rcases hwidth with ⟨hw, rfl⟩ | ⟨hw, rfl⟩
              · rw [hw]
                exact .fixed32 htake
              · rw [hw]
                exact .fixed64 htake
            refine .inl ⟨⟨t, rest.take width, ht, hcontent⟩, rest.drop width, ?_⟩
            rw [Field.bytes, List.append_assoc, List.take_append_drop]
        · refine .inr (.inl ⟨.unsupportedWire (wireOf t), .of_other hread hlen fun out => ?_⟩)
          rw [readField_skip hread hvarint hlen, Reader.skip]
          have hother : ¬(varintValue t).lowBits 3 = 5 ∧ ¬(varintValue t).lowBits 3 = 1 := not_or.mp hfixed
          have hknown : ¬(varintValue t).lowBits 3 = WIRE_VARINT ∧ ¬(varintValue t).lowBits 3 = WIRE_LEN :=
            ⟨hvarint, hlen⟩
          rw [if_neg hknown.1, if_neg hknown.2, if_neg hother.1, if_neg hother.2]
          rfl

variable (fields) in
/-- The skip of a field that is cut off is not checked. -/
theorem readField_of_cut {width : Nat} (hbuf : buf.bytes = before ++ (t ++ rest)) (ht : splitVarint t = some (t, []))
    (hwidth : wireOf t = 5 ∧ width = 4 ∨ wireOf t = 1 ∧ width = 8) (hcut : rest.length < width) (out : μ) :
    ∃ pos, pos.gt (.fin buf.length) = true ∧ readField fields (cursor buf before) out = .returned (out, ⟨buf, pos⟩) := by
  have hread := tag_of_split hbuf (splitVarint_append ht rest)
  have hafter : buf.bytes = (before ++ t) ++ rest := by rw [hbuf, List.append_assoc]
  have hgt : ((Double.fin (before ++ t).length).add (.fin width)).gt (.fin buf.length) = true := by
    rw [length_lt_add hafter, decide_eq_true hcut]
  refine ⟨_, hgt, ?_⟩
  rcases hwidth with ⟨hw, rfl⟩ | ⟨hw, rfl⟩
  · have hw : (varintValue t).lowBits 3 = 5 := hw
    rw [readField_skip hread (by rw [hw]; decide) (by rw [hw]; decide), hw, skip_fixed32]
    rfl
  · have hw : (varintValue t).lowBits 3 = 1 := hw
    rw [readField_skip hread (by rw [hw]; decide) (by rw [hw]; decide), hw, skip_fixed64]
    rfl

/-- After an oversized length the position is not a number. -/
theorem readField_of_oversized (hbuf : buf.bytes = before ++ (t ++ (l ++ rest))) (ht : splitVarint t = some (t, []))
    (hw : wireOf t = WIRE_LEN) (hl : splitVarint l = some (l, [])) (hsize : Oversized l)
    (hempty : ∀ field set out, fields.len field = some set → ∃ out', set .empty out = .returned out') (out : μ) :
    ∃ out', readField fields (cursor buf before) out = .returned (out', ⟨buf, .nan⟩) := by
  have hread := tag_of_split hbuf (splitVarint_append ht (l ++ rest))
  have hw : (varintValue t).lowBits 3 = WIRE_LEN := hw
  rw [hw] at hread
  have hafter : buf.bytes = (before ++ t) ++ (l ++ rest) := by rw [hbuf, List.append_assoc]
  have hbytes := bytes_of_nan hafter (splitVarint_append hl rest) (varintValue_eq_nan_iff.mpr hsize)
  cases hset : fields.len ((varintValue t).floorDiv 3) with
  | none => exact ⟨out, readField_unknown hread hbytes hset⟩
  | some set =>
    obtain ⟨out', hout⟩ := hempty _ set out hset
    refine ⟨out', ?_⟩
    rw [readField_known hread hbytes hset, hout]
    rfl

end Reading

section Clean

variable {μ : Type} {fields : Fields μ} {inner : Double → Uint8Array → Prop} {bad passes : Double → List UInt8 → Prop}
variable {buf : Uint8Array} {before bs rest : List UInt8} {out out' start : μ} {f : Field} {r : Reader}

/-- A field whose content is not bad is applied, or the decoder throws on it; it is applied where it passes. -/
theorem Handles.apply_cases (hh : Handles fields inner bad passes) (hbuf : buf.bytes = before ++ (f.bytes ++ rest))
    (hbad : f.wire = WIRE_LEN → ¬bad f.field f.payload) (out : μ) :
    ((f.wire = WIRE_LEN → passes f.field f.payload) ∧ ∃ out', fields.apply f out = .returned out') ∨
    (¬(f.wire = WIRE_LEN → passes f.field f.payload) ∧ ∃ e, fields.apply f out = .threw e) := by
  rw [Fields.apply]
  by_cases hvarint : f.wire = WIRE_VARINT
  · have hne : f.wire ≠ WIRE_LEN := by rw [hvarint]; decide
    refine .inl ⟨fun hw => absurd hw hne, ?_⟩
    rw [if_pos hvarint]
    cases fields.varint f.field with
    | none => exact ⟨out, rfl⟩
    | some on =>
      cases on with
      | unsigned set => exact ⟨_, rfl⟩
      | signed set => exact ⟨_, rfl⟩
  · rw [if_neg hvarint]
    by_cases hw : f.wire = WIRE_LEN
    · obtain ⟨harray, -, -⟩ := payload_of_field hbuf hw
      rw [if_pos hw, ← harray]
      cases hset : fields.len f.field with
      | none => exact .inl ⟨fun _ => hh.skipped f.field f.array.bytes hset, out, rfl⟩
      | some set =>
        have hinner : inner f.field f.array := by
          rw [hh.inner_iff, harray]
          exact hbad hw
        rcases hh.sets f.field set f.array out hset hinner with ⟨hpasses, hout⟩ | ⟨hstops, hthrew⟩
        · exact .inl ⟨fun _ => hpasses, hout⟩
        · exact .inr ⟨fun h => hstops (h hw), hthrew⟩
    · rw [if_neg hw]
      exact .inl ⟨fun h => absurd h hw, out, rfl⟩

variable (fields) in
/-- Without a defect a whole field comes next or the reader throws; what the field holds is not bad, and past
the field there is no defect either. -/
theorem clean_cases (hbuf : buf.bytes = before ++ bs) (hclean : ¬Defect bad passes bs) :
    (∃ f rest, bs = Field.bytes f ++ rest ∧ (f.wire = WIRE_LEN → ¬bad f.field f.payload) ∧
      ((f.wire = WIRE_LEN → passes f.field f.payload) → ¬Defect bad passes rest)) ∨
    ∃ e, Faults fields (cursor buf before) e := by
  rcases readField_cases fields hbuf with ⟨f, rest, rfl⟩ | hfault | ⟨t, rest, width, ht, rfl, hcut, hwidth⟩ |
    ⟨t, l, rest, ht, rfl, hw, hl, hsize⟩
  · exact .inl ⟨f, rest, rfl, fun hw hbad => hclean (.inner hw hbad), fun hpasses h => hclean (.later hpasses h)⟩
  · exact .inr hfault
  · rcases hwidth with ⟨hw, rfl⟩ | ⟨hw, rfl⟩
    · exact absurd (.fixed32 ht hw hcut) hclean
    · exact absurd (.fixed64 ht hw hcut) hclean
  · exact absurd (.length ht hw hl hsize) hclean

/-- Without a defect the loop has read whole fields up to the end, or throws, or has not had the fuel. -/
theorem Handles.run_cases (hh : Handles fields inner bad passes) (fuel : Nat) (hbuf : buf.bytes = before ++ bs)
    (hclean : ¬Defect bad passes bs) (out : μ) :
    (fuel ≤ bs.length ∧ readFields fields fuel (cursor buf before) out = .running) ∨
    (∃ fs out', bs = flatten fs ∧
      readFields fields fuel (cursor buf before) out = .returned (out', cursor buf buf.bytes)) ∨
    ∃ e, readFields fields fuel (cursor buf before) out = .threw e := by
  induction fuel generalizing before bs out with
  | zero => exact .inl ⟨Nat.zero_le _, rfl⟩
  | succ fuel ih =>
    by_cases heof : (cursor buf before).eof = true
    · obtain rfl := (eof_cursor hbuf).mp heof
      refine .inr (.inl ⟨[], out, rfl, ?_⟩)
      rw [readFields, if_pos heof, hbuf, List.append_nil]
      rfl
    · rw [readFields, if_neg heof]
      rcases clean_cases fields hbuf hclean with ⟨f, rest, rfl, hbad, hrest⟩ | ⟨e, hfault⟩
      · have hafter : buf.bytes = (before ++ f.bytes) ++ rest := by rw [hbuf, List.append_assoc]
        have hpos := List.length_pos_iff.mpr f.bytes_ne_nil
        rw [readField_of_field hbuf, List.length_append]
        rcases hh.apply_cases hbuf hbad out with ⟨hpasses, out', hout⟩ | ⟨-, e, hthrew⟩
        · rw [hout]
          simp only [Result.returned_bind, Result.pure_eq]
          rcases ih hafter (hrest hpasses) out' with ⟨hfuel, hrun⟩ | ⟨fs, out'', hfs, hrun⟩ | hrun
          · exact .inl ⟨by omega, hrun⟩
          · exact .inr (.inl ⟨f :: fs, out'', by rw [hfs, flatten_cons], hrun⟩)
          · exact .inr (.inr hrun)
        · rw [hthrew]
          exact .inr (.inr ⟨e, rfl⟩)
      · rw [hfault.threw out]
        exact .inr (.inr ⟨e, rfl⟩)

/-- Without a defect the loop comes only to positions inside the bytes, with no defect after them. -/
theorem Handles.visits_clean (hh : Handles fields inner bad passes) (hclean : ¬Defect bad passes buf.bytes)
    (h : Visits fields start buf r out) :
    ∃ before bs, buf.bytes = before ++ bs ∧ r = cursor buf before ∧ ¬Defect bad passes bs := by
  induction h with
  | refl => exact ⟨[], buf.bytes, rfl, rfl, hclean⟩
  | step _ _ hread ih =>
    obtain ⟨before, bs, hbuf, rfl, hbs⟩ := ih
    rcases clean_cases fields hbuf hbs with ⟨f, rest, rfl, hbad, hrest⟩ | ⟨e, hfault⟩
    · rw [readField_of_field hbuf] at hread
      rcases hh.apply_cases hbuf hbad _ with ⟨hpasses, out', hout⟩ | ⟨-, e, hthrew⟩
      · rw [hout] at hread
        obtain ⟨-, rfl⟩ := Prod.mk.inj (Result.returned.inj hread)
        exact ⟨before ++ f.bytes, rest, by rw [hbuf, List.append_assoc], rfl, hrest hpasses⟩
      · rw [hthrew] at hread
        cases hread
    · rw [hfault.threw] at hread
      cases hread

theorem Handles.contained_of_clean (hh : Handles fields inner bad passes) (hclean : ¬Defect bad passes buf.bytes) :
    Contained fields inner start buf where
  ends := by
    refine ⟨buf.bytes.length + 1, ?_⟩
    change readFields fields _ (cursor buf []) start ≠ _
    rcases hh.run_cases (buf.bytes.length + 1) (List.nil_append _).symm hclean start with ⟨hfuel, -⟩ | ⟨_, _, _, hrun⟩ | ⟨e, hrun⟩
    · omega
    · rw [hrun]
      exact fun h => nomatch h
    · rw [hrun]
      exact fun h => nomatch h
  whole fuel out r hrun := by
    change readFields fields _ (cursor buf []) start = _ at hrun
    rcases hh.run_cases fuel (List.nil_append _).symm hclean start with ⟨-, hrun'⟩ | ⟨_, _, _, hrun'⟩ | ⟨e, hrun'⟩
    · cases hrun'.symm.trans hrun
    · obtain ⟨-, rfl⟩ := Prod.mk.inj (Result.returned.inj (hrun'.symm.trans hrun))
      rfl
    · cases hrun'.symm.trans hrun
  moves r out hvisits := by
    obtain ⟨before, bs, hbuf, rfl, hbs⟩ := hh.visits_clean hclean hvisits
    have hlen : buf.length = before.length + bs.length := by rw [Uint8Array.length, hbuf, List.length_append]
    refine ⟨before.length, rfl, by omega, fun _ out' r' hread => ?_⟩
    rcases clean_cases fields hbuf hbs with ⟨f, rest, rfl, hbad, -⟩ | ⟨e, hfault⟩
    · have hpos := List.length_pos_iff.mpr f.bytes_ne_nil
      rw [readField_of_field hbuf] at hread
      obtain ⟨out₁, -, hout⟩ := Result.bind_eq_returned hread
      obtain ⟨-, rfl⟩ := Prod.mk.inj (Result.returned.inj hout)
      rw [List.length_append] at hlen
      exact ⟨(before ++ f.bytes).length, rfl, by rw [List.length_append]; omega, by rw [List.length_append]; omega⟩
    · rw [hfault.threw] at hread
      cases hread
  inside r out hvisits field r₁ payload r₂ htag hbytes := by
    obtain ⟨before, bs, hbuf, rfl, hbs⟩ := hh.visits_clean hclean hvisits
    rcases clean_cases fields hbuf hbs with ⟨f, rest, rfl, hbad, -⟩ | ⟨e, hfault⟩
    · have hafter : buf.bytes = before ++ (f.tag ++ (f.content ++ rest)) := by
        rw [hbuf, Field.bytes, List.append_assoc]
      have hread : (cursor buf before).tag = .returned (f.field, f.wire, cursor buf (before ++ f.tag)) :=
        tag_of_split hafter (splitVarint_append f.isTag _)
      obtain ⟨rfl, hw, rfl⟩ : f.field = field ∧ f.wire = WIRE_LEN ∧ cursor buf (before ++ f.tag) = r₁ := by
        simpa using hread.symm.trans htag
      obtain ⟨harray, -, hbytes'⟩ := payload_of_field hbuf hw
      obtain ⟨rfl, -⟩ := Prod.mk.inj (Result.returned.inj (hbytes'.symm.trans hbytes))
      rw [hh.inner_iff, harray]
      exact hbad hw
    · exact absurd hbytes (hfault.unread field r₁ _ htag)

theorem not_eof_of_tag {t : List UInt8} (hbuf : buf.bytes = before ++ (t ++ rest))
    (ht : splitVarint t = some (t, [])) : (cursor buf before).eof = false :=
  Bool.eq_false_iff.mpr (mt (eof_cursor hbuf).mp (List.append_ne_nil_of_left_ne_nil (splitVarint_spec ht).2.1 _))

theorem not_moves_of_gt {t : List UInt8} {pos : Double} (hc : Contained fields inner start buf)
    (hvisits : Visits fields start buf (cursor buf before) out) (hbuf : buf.bytes = before ++ (t ++ rest))
    (ht : splitVarint t = some (t, [])) (hgt : pos.gt (.fin buf.length) = true)
    (hread : readField fields (cursor buf before) out = .returned (out', ⟨buf, pos⟩)) : False := by
  obtain ⟨p, -, -, hmoves⟩ := hc.moves _ _ hvisits
  obtain ⟨p', rfl, -, hle⟩ := hmoves (not_eof_of_tag hbuf ht) _ _ hread
  exact absurd (of_decide_eq_true hgt) (Nat.not_lt.mpr hle)

/-- Before a defect the loop comes to a field that is not contained. -/
theorem Handles.not_contained (hh : Handles fields inner bad passes) (hdefect : Defect bad passes bs)
    (hbuf : buf.bytes = before ++ bs) (hvisits : Visits fields start buf (cursor buf before) out) :
    ¬Contained fields inner start buf := by
  intro hc
  induction hdefect generalizing before out with
  | @fixed32 t rest ht hw hlen =>
    obtain ⟨pos, hgt, hread⟩ := readField_of_cut fields hbuf ht (.inl ⟨hw, rfl⟩) hlen out
    exact not_moves_of_gt hc hvisits hbuf ht hgt hread
  | @fixed64 t rest ht hw hlen =>
    obtain ⟨pos, hgt, hread⟩ := readField_of_cut fields hbuf ht (.inr ⟨hw, rfl⟩) hlen out
    exact not_moves_of_gt hc hvisits hbuf ht hgt hread
  | length ht hw hl hsize =>
    obtain ⟨out', hread⟩ := readField_of_oversized hbuf ht hw hl hsize hh.empty out
    obtain ⟨p, -, -, hmoves⟩ := hc.moves _ _ hvisits
    obtain ⟨p', hp', -⟩ := hmoves (not_eof_of_tag hbuf ht) _ _ hread
    cases hp'
  | @inner f rest hw hbad =>
    obtain ⟨harray, htag, hbytes⟩ := payload_of_field hbuf hw
    have hinner := hc.inside _ _ hvisits _ _ _ _ htag hbytes
    rw [hh.inner_iff, harray] at hinner
    exact hinner hbad
  | @later f rest hpasses _ ih =>
    have hbad : f.wire = WIRE_LEN → ¬bad f.field f.payload := by
      intro hw
      obtain ⟨harray, htag, hbytes⟩ := payload_of_field hbuf hw
      rw [← harray, ← hh.inner_iff]
      exact hc.inside _ _ hvisits _ _ _ _ htag hbytes
    have hafter : buf.bytes = (before ++ f.bytes) ++ rest := by rw [hbuf, List.append_assoc]
    have heof : (cursor buf before).eof = false :=
      Bool.eq_false_iff.mpr (mt (eof_cursor hbuf).mp (List.append_ne_nil_of_left_ne_nil f.bytes_ne_nil _))
    rcases hh.apply_cases hbuf hbad out with ⟨-, out', hout⟩ | ⟨hstops, -⟩
    · have hread : readField fields (cursor buf before) out = .returned (out', cursor buf (before ++ f.bytes)) := by
        rw [readField_of_field hbuf, hout]
        rfl
      exact ih hafter (.step hvisits heof hread)
    · exact hstops hpasses

/-- Contained, exactly without a defect. -/
theorem Handles.contained_iff (hh : Handles fields inner bad passes) :
    Contained fields inner start buf ↔ ¬Defect bad passes buf.bytes :=
  ⟨fun hc hdefect => hh.not_contained hdefect (List.nil_append _).symm .refl hc, hh.contained_of_clean⟩

end Clean

/-! ## The fuel of a decoder -/

section Fuel

variable {μ : Type} {fields : Fields μ} {inner : Double → Uint8Array → Prop} {bad passes : Double → List UInt8 → Prop}
variable {buf : Uint8Array} {before bs : List UInt8} {out start : μ} {fuel : Nat}

/-- At a position that is not a number the loop reads zeros for ever. -/
theorem readFields_nan (hzero : fields.varint (.fin 0) = none) (fuel : Nat) (out : μ) :
    readFields fields fuel ⟨buf, .nan⟩ out = .running := by
  induction fuel with
  | zero => rfl
  | succ fuel ih =>
    have hread : readField fields ⟨buf, .nan⟩ out = .returned (out, ⟨buf, .nan⟩) := by
      have htag : Reader.tag ⟨buf, .nan⟩ = .returned (.fin 0, WIRE_VARINT, ⟨buf, .nan⟩) := rfl
      rw [readField, htag]
      simp only [Result.returned_bind, if_pos, hzero]
      rfl
    rw [readFields, if_neg (by exact Bool.false_ne_true), hread]
    exact ih

/-- A loop with more fuel than there are bytes left, if it is running, runs at every fuel. -/
theorem Handles.runs_forever (hh : Handles fields inner bad passes) (hbuf : buf.bytes = before ++ bs)
    (hfuel : bs.length < fuel) (hrun : readFields fields fuel (cursor buf before) out = .running) (fuel' : Nat) :
    readFields fields fuel' (cursor buf before) out = .running := by
  induction fuel generalizing before bs out fuel' with
  | zero => omega
  | succ fuel ih =>
    cases fuel' with
    | zero => rfl
    | succ fuel' =>
      by_cases heof : (cursor buf before).eof = true
      · rw [readFields, if_pos heof] at hrun
        cases hrun
      · rw [readFields, if_neg heof] at hrun ⊢
        rcases readField_cases fields hbuf with ⟨f, rest, rfl⟩ | ⟨e, hfault⟩ |
          ⟨t, rest, width, ht, rfl, hcut, hwidth⟩ | ⟨t, l, rest, ht, rfl, hw, hl, hsize⟩
        · have hafter : buf.bytes = (before ++ f.bytes) ++ rest := by rw [hbuf, List.append_assoc]
          have hpos := List.length_pos_iff.mpr f.bytes_ne_nil
          rw [List.length_append] at hfuel
          rw [readField_of_field hbuf] at hrun ⊢
          cases hout : fields.apply f out with
          | returned out' =>
            rw [hout] at hrun
            exact ih hafter (by omega) hrun fuel'
          | threw e =>
            rw [hout] at hrun
            cases hrun
          | running => rfl
        · rw [hfault.threw] at hrun
          cases hrun
        · -- past the end the loop returns
          obtain ⟨pos, hgt, hread⟩ := readField_of_cut fields hbuf ht hwidth hcut out
          have hpos := List.length_pos_iff.mpr (splitVarint_spec ht).2.1
          rw [List.length_append] at hfuel
          obtain ⟨fuel, rfl⟩ := Nat.exists_eq_succ_of_ne_zero (n := fuel) (by omega)
          have heof' : Reader.eof ⟨buf, pos⟩ = true := ge_of_gt hgt
          rw [hread] at hrun
          simp only [Result.returned_bind, readFields, if_pos heof'] at hrun
          cases hrun
        · obtain ⟨out', hread⟩ := readField_of_oversized hbuf ht hw hl hsize hh.empty out
          rw [hread]
          exact readFields_nan hh.zero fuel' out'

/-- A decoder that has not ended within its fuel does not end. -/
theorem Handles.decode_running_iff (hh : Handles fields inner bad passes) :
    decode fields start buf = .running ↔ ∀ fuel, readFields fields fuel { buf } start = .running := by
  have hdecode : decode fields start buf = .running ↔
      readFields fields (buf.bytes.length + 1) (cursor buf []) start = .running := by
    change (readFields fields (buf.bytes.length + 1) (cursor buf []) start >>= _) = _ ↔ _
    cases readFields fields (buf.bytes.length + 1) (cursor buf []) start with
    | returned x => exact iff_of_false (fun h => nomatch h) (fun h => nomatch h)
    | threw e => exact iff_of_false (fun h => nomatch h) (fun h => nomatch h)
    | running => exact iff_of_true rfl rfl
  rw [hdecode]
  exact ⟨fun h fuel => hh.runs_forever (List.nil_append _).symm (Nat.lt_succ_self _) h fuel, fun h => h _⟩

end Fuel

/-! ## The decoders -/

/-- A defect where no field holds a message. -/
def Defective (bs : List UInt8) : Prop := Defect (fun _ _ => False) (fun _ _ => True) bs

/-- A defect where one field holds key-values, which are passed when they are whole fields. -/
def NestedDefective (k : Nat) (bs : List UInt8) : Prop :=
  Defect (fun field bs => field = .fin k ∧ Defective bs) (fun field bs => field = .fin k → ∃ fs, bs = flatten fs) bs

section Decoders

variable {σ μ : Type} (texts : Texts σ)

def KeyValueContained (buf : Uint8Array) : Prop :=
  Contained (keyValueFields texts) (fun _ _ => True) (emptyKeyValue texts) buf

/-- Of a response whose field `k` holds key-values, each of which is contained too. -/
def ResponseContained (fields : Fields μ) (k : Nat) (start : μ) (buf : Uint8Array) : Prop :=
  Contained fields (fun field a => field = .fin k → KeyValueContained texts a) start buf

/-- Handlers that only store what a field holds. -/
theorem handles_of_stores {fields : Fields μ} (hzero : fields.varint (.fin 0) = none)
    (hstores : ∀ field set a out, fields.len field = some set → ∃ out', set a out = .returned out') :
    Handles fields (fun _ _ => True) (fun _ _ => False) (fun _ _ => True) where
  inner_iff _ _ := iff_of_true trivial not_false
  sets field set a out hset _ := .inl ⟨trivial, hstores field set a out hset⟩
  skipped _ _ _ := trivial
  empty field set out hset := hstores field set .empty out hset
  zero := hzero

theorem keyValue_stores (field : Double) (set : Uint8Array → VssKeyValue σ → Result (VssKeyValue σ)) (a : Uint8Array)
    (out : VssKeyValue σ) (h : (keyValueFields texts).len field = some set) : ∃ out', set a out = .returned out' := by
  simp only [keyValueFields] at h
  split at h
  · cases h
    exact ⟨_, rfl⟩
  · split at h
    · cases h
      exact ⟨_, rfl⟩
    · cases h

theorem keyValue_handles : Handles (keyValueFields texts) (fun _ _ => True) (fun _ _ => False) (fun _ _ => True) :=
  handles_of_stores rfl (keyValue_stores texts)

theorem error_handles : Handles (errorFields texts) (fun _ _ => True) (fun _ _ => False) (fun _ _ => True) := by
  refine handles_of_stores rfl fun field set a out h => ?_
  simp only [errorFields] at h
  split at h
  · cases h
    exact ⟨_, rfl⟩
  · cases h

theorem keyValueContained_iff (buf : Uint8Array) : KeyValueContained texts buf ↔ ¬Defective buf.bytes :=
  (keyValue_handles texts).contained_iff

/-- Without a defect a key-value is decoded exactly when it is whole fields. -/
theorem decodeKeyValue_of_clean {buf : Uint8Array} (hclean : ¬Defective buf.bytes) :
    ((∃ fs, buf.bytes = flatten fs) ∧ ∃ kv, decodeKeyValue texts buf = .returned kv) ∨
    ((¬∃ fs, buf.bytes = flatten fs) ∧ ∃ e, decodeKeyValue texts buf = .threw e) := by
  have happly : ∀ fs out, buf.bytes = flatten fs → ∃ out', (keyValueFields texts).applyAll fs out = .returned out' := by
    intro fs out hbuf
    have hstart : buf.bytes = [] ++ flatten fs := hbuf
    clear hbuf
    generalize ([] : List UInt8) = before at hstart
    induction fs generalizing before out with
    | nil => exact ⟨out, rfl⟩
    | cons f fs ih =>
      rw [flatten_cons] at hstart
      rcases (keyValue_handles texts).apply_cases hstart (fun _ => not_false) out with ⟨-, out', hout⟩ | ⟨hstops, -⟩
      · rw [Fields.applyAll, hout]
        exact ih out' (before ++ f.bytes) (by rw [hstart, List.append_assoc])
      · exact absurd (fun _ => trivial) hstops
  by_cases hwhole : ∃ fs, buf.bytes = flatten fs
  · obtain ⟨fs, hbuf⟩ := hwhole
    rw [decodeKeyValue, decode_flatten hbuf]
    exact .inl ⟨⟨fs, hbuf⟩, happly fs _ hbuf⟩
  · refine .inr ⟨hwhole, ?_⟩
    change ∃ e, (readFields (keyValueFields texts) (buf.bytes.length + 1) (cursor buf []) (emptyKeyValue texts) >>= _) = _
    rcases (keyValue_handles texts).run_cases (buf.bytes.length + 1) (List.nil_append _).symm hclean (emptyKeyValue texts)
      with ⟨hfuel, -⟩ | ⟨fs, _, hfs, -⟩ | ⟨e, hrun⟩
    · omega
    · exact absurd ⟨fs, hfs⟩ hwhole
    · rw [hrun]
      exact ⟨e, rfl⟩

/-- Handlers that decode the key-values of one field, and store what another holds. -/
theorem handles_of_keyValues {fields : Fields μ} {k : Nat} (hzero : fields.varint (.fin 0) = none)
    (hknown : fields.len (.fin k) ≠ none)
    (hdecodes : ∀ set, fields.len (.fin k) = some set →
      ∃ store : VssKeyValue σ → μ → μ, ∀ a out, set a out = (decodeKeyValue texts a >>= fun kv => pure (store kv out)))
    (hstores : ∀ field set a out, field ≠ .fin k → fields.len field = some set → ∃ out', set a out = .returned out') :
    Handles fields (fun field a => field = .fin k → KeyValueContained texts a)
      (fun field bs => field = .fin k ∧ Defective bs) (fun field bs => field = .fin k → ∃ fs, bs = flatten fs) where
  inner_iff field a := by rw [not_and, keyValueContained_iff]
  sets field set a out hset hinner := by
    by_cases hfield : field = .fin k
    · subst hfield
      obtain ⟨store, hstore⟩ := hdecodes set hset
      rw [hstore]
      rcases decodeKeyValue_of_clean texts ((keyValueContained_iff texts a).mp (hinner rfl)) with
        ⟨hwhole, kv, hkv⟩ | ⟨hcut, e, hthrew⟩
      · rw [hkv]
        exact .inl ⟨fun _ => hwhole, _, rfl⟩
      · rw [hthrew]
        exact .inr ⟨fun h => hcut (h rfl), e, rfl⟩
    · exact .inl ⟨fun h => absurd h hfield, hstores field set a out hfield hset⟩
  skipped field bs hnone hfield := absurd (hfield ▸ hnone) hknown
  empty field set out hset := by
    by_cases hfield : field = .fin k
    · subst hfield
      obtain ⟨store, hstore⟩ := hdecodes set hset
      exact ⟨_, hstore _ _⟩
    · exact hstores field set .empty out hfield hset
  zero := hzero

theorem getObject_handles : Handles (getObjectFields texts) (fun field a => field = .fin 2 → KeyValueContained texts a)
    (fun field bs => field = .fin 2 ∧ Defective bs) (fun field bs => field = .fin 2 → ∃ fs, bs = flatten fs) := by
  refine handles_of_keyValues texts rfl (fun h => nomatch h) (fun set hset => ?_) fun field set a out hfield hset => ?_
  · cases hset
    exact ⟨fun kv _ => some kv, fun _ _ => rfl⟩
  · simp only [getObjectFields, if_neg hfield] at hset
    cases hset

theorem listKeyVersions_handles :
    Handles (listKeyVersionsFields texts) (fun field a => field = .fin 1 → KeyValueContained texts a)
    (fun field bs => field = .fin 1 ∧ Defective bs) (fun field bs => field = .fin 1 → ∃ fs, bs = flatten fs) := by
  refine handles_of_keyValues texts rfl (fun h => nomatch h) (fun set hset => ?_) fun field set a out hfield hset => ?_
  · cases hset
    exact ⟨fun kv out => { out with keyVersions := out.keyVersions ++ [kv] }, fun _ _ => rfl⟩
  · simp only [listKeyVersionsFields, if_neg hfield] at hset
    split at hset
    · cases hset
      exact ⟨_, rfl⟩
    · cases hset

/-- Each decoder is contained exactly where no field of fixed width is cut off and no length is oversized. -/
theorem decoders_contained_iff (buf : Uint8Array) :
    (KeyValueContained texts buf ↔ ¬Defective buf.bytes) ∧
    (ResponseContained texts (getObjectFields texts) 2 none buf ↔ ¬NestedDefective 2 buf.bytes) ∧
    (ResponseContained texts (listKeyVersionsFields texts) 1 {} buf ↔ ¬NestedDefective 1 buf.bytes) ∧
    (Contained (errorFields texts) (fun _ _ => True) ⟨.fin 0, texts.empty⟩ buf ↔ ¬Defective buf.bytes) :=
  ⟨keyValueContained_iff texts buf, (getObject_handles texts).contained_iff,
    (listKeyVersions_handles texts).contained_iff, (error_handles texts).contained_iff⟩

end Decoders

/-- Bytes as texts. -/
def rawTexts : Texts Uint8Array := ⟨.empty, id, id⟩

theorem splitVarint_replicate (n : Nat) :
    splitVarint (List.replicate n 0x80 ++ [0]) = some (List.replicate n 0x80 ++ [0], []) := by
  induction n with
  | zero => rfl
  | succ n ih =>
    rw [List.replicate_succ, List.cons_append, splitVarint, if_neg (by decide), ih]
    rfl

theorem oversized_replicate : Oversized (List.replicate 147 0x80 ++ [0]) := by
  refine ⟨147, 0, ?_, le_rfl, rfl⟩
  rw [List.getElem?_append_right (by rw [List.length_replicate]), List.length_replicate]
  rfl

/-- The tag of a field of four bytes that are not there is a message, and a length of 148 bytes makes the loop
endless. -/
theorem decoders_not_contained :
    ¬KeyValueContained rawTexts (asArray [0x2d]) ∧
      ¬KeyValueContained rawTexts (asArray (0x0a :: (List.replicate 147 0x80 ++ [0]))) := by
  refine ⟨fun h => ?_, fun h => ?_⟩
  · rw [keyValueContained_iff, asArray_bytes (by decide)] at h
    have hcut : Defective ([0x2d] ++ []) := .fixed32 rfl (by decide) (by decide)
    exact h hcut
  · have hlen : (0x0a :: (List.replicate 147 (0x80 : UInt8) ++ [0])).length < 2 ^ 53 := by
      rw [List.length_cons, List.length_append, List.length_replicate]
      decide
    rw [keyValueContained_iff, asArray_bytes hlen] at h
    have hlong : Defective ([0x0a] ++ ((List.replicate 147 0x80 ++ [0]) ++ [])) :=
      .length rfl (by decide) (splitVarint_replicate 147) oversized_replicate
    rw [List.append_nil] at hlong
    exact h hlong

end LibreWallet.Vss.Protobuf
