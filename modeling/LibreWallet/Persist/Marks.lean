import LibreWallet.Async.Records
import LibreWallet.Text.Words

/-
  Persist/Marks.lean --- the high-water marks of the monitors.

  Mirrors `libre-listener-wallet/src/state-highwater.ts`.  A stored marker is what `JSON.parse` makes of
  the text: an object's values are texts, or else what `BigInt` makes of them.
-/

set_option autoImplicit false

namespace LibreWallet.Persist

open Text

/-! ## `BigInt` of a text -/

/-- Digits of base `b`, with letters of either case. -/
def bigIntIn (b : Nat) (t : List Nat) : Option ℤ :=
  let t := t.map fun c => if 65 ≤ c ∧ c ≤ 90 then c + 32 else c
  if t ≠ [] ∧ t.all (fun c => hexDigit c && decide (digitValue c < b)) then some (valueOf b t) else none

/-- `BigInt(text)`, or `none` where it throws. -/
def BigInt (text : List Nat) : Option ℤ :=
  let t := trim text
  if t = [] then some 0
  else if begins [exactly 48, fun c => c == 120 || c == 88] t then bigIntIn 16 (t.drop 2)
  else if begins [exactly 48, fun c => c == 111 || c == 79] t then bigIntIn 8 (t.drop 2)
  else if begins [exactly 48, fun c => c == 98 || c == 66] t then bigIntIn 2 (t.drop 2)
  else if begins [exactly 45] t then (bigIntIn 10 (t.drop 1)).map Neg.neg
  else if begins [exactly 43] t then bigIntIn 10 (t.drop 1)
  else bigIntIn 10 t

/-- `toString` of a bigint. -/
def bigIntToString (v : ℤ) : List Nat :=
  if v < 0 then 45 :: numeral 10 v.natAbs else numeral 10 v.natAbs

example : BigInt (codes " 0x1F ") = some 31 := by decide

section BigInt

theorem bigIntIn_numeral (n : Nat) : bigIntIn 10 (numeral 10 n) = some (n : ℤ) := by
  have hlower : (numeral 10 n).map (fun c => if 65 ≤ c ∧ c ≤ 90 then c + 32 else c) = numeral 10 n := by
    refine (List.map_congr_left ?_).trans (List.map_id _)
    intro c hc
    have hrange := mem_numeral_ten hc
    exact if_neg (by omega)
  have hall : (numeral 10 n).all (fun c => hexDigit c && decide (digitValue c < 10)) = true := by
    rw [List.all_eq_true]
    intro c hc
    have hrange := mem_numeral_ten hc
    have hlt : c < 58 := by omega
    simp [hexDigit, between, digitValue, hlt]
    omega
  rw [bigIntIn, hlower, if_pos ⟨numeral_ne_nil, hall⟩, valueOf_numeral (by decide) (by decide)]

/-- A bigint's text reads back as it. -/
theorem bigInt_toString (v : ℤ) : BigInt (bigIntToString v) = some v := by
  have htrim : trim (bigIntToString v) = bigIntToString v := by
    refine trim_of_not_white fun c hc => ?_
    rw [bigIntToString] at hc
    have hrange : c = 45 ∨ c ∈ numeral 10 v.natAbs := by
      split at hc
      · exact List.mem_cons.mp hc
      · exact .inr hc
    rcases hrange with rfl | hc
    · exact isWhite_of_ge (by decide) (by decide)
    · have hdigits := mem_numeral_ten hc
      exact isWhite_of_ge (by omega) (by omega)
  rw [BigInt, htrim, bigIntToString]
  split
  · rename_i hneg
    have hnil : (45 :: numeral 10 v.natAbs) ≠ [] := List.cons_ne_nil _ _
    have hzero : ∀ p, begins [exactly 48, p] (45 :: numeral 10 v.natAbs) = false := fun p => by
      simp
    have hsign : begins [exactly 45] (45 :: numeral 10 v.natAbs) = true := by simp
    simp only [if_neg hnil, hzero, hsign, Bool.false_eq_true, if_false, if_true, List.drop_succ_cons,
      List.drop_zero, bigIntIn_numeral, Option.map_some, Option.some.injEq]
    omega
  · rename_i hpos
    have hx := (begins_numeral (n := v.natAbs) (p := fun c => c == 120 || c == 88)
      (fun c hlo hhi => by simp; omega) (exactly 48)).1
    have ho := (begins_numeral (n := v.natAbs) (p := fun c => c == 111 || c == 79)
      (fun c hlo hhi => by simp; omega) (exactly 48)).1
    have hb := (begins_numeral (n := v.natAbs) (p := fun c => c == 98 || c == 66)
      (fun c hlo hhi => by simp; omega) (exactly 48)).1
    have hminus := (begins_numeral (n := v.natAbs) (p := exactly 45) (fun c hlo hhi => by simp; omega) (exactly 48)).2
    have hplus := (begins_numeral (n := v.natAbs) (p := exactly 43) (fun c hlo hhi => by simp; omega) (exactly 48)).2
    simp only [if_neg (numeral_ne_nil (b := 10)), hx, ho, hb, hminus, hplus, Bool.false_eq_true, if_false,
      bigIntIn_numeral, Option.some.injEq]
    omega

end BigInt

/-! ## Marks -/

/-- A `Map` from channel ids to bigints; a key stands once. -/
structure Highwater (χ : Type) where
  entries : List (χ × ℤ)
  nodup : (entries.map Prod.fst).Nodup

/-- A value of a stored object. -/
inductive JsonValue where
  | text (t : List Nat)
  /-- `BigInt` makes this of it, or throws. -/
  | other (bigInt : Option ℤ)
  deriving DecidableEq, Repr

/-- What `JSON.parse` makes of a stored text. -/
inductive Marker (χ : Type) where
  | throws
  | notAnObject
  | object (entries : List (χ × JsonValue))
  deriving DecidableEq, Repr

structure MonitorSummary (χ : Type) where
  channelId : χ
  latestUpdateId : ℤ
  deriving DecidableEq, Repr

structure Regression (χ : Type) where
  channelId : χ
  loaded : ℤ
  highwater : ℤ
  deriving DecidableEq, Repr

def JsonValue.toBigInt : JsonValue → Option ℤ
  | .text t => BigInt t
  | .other v => v

namespace Highwater

variable {χ : Type} [DecidableEq χ]

def empty : Highwater χ := ⟨[], List.nodup_nil⟩

/-- `get` -/
def get (m : Highwater χ) (c : χ) : Option ℤ := m.entries.lookup c

/-- The list of `set`: the entry keeps its place. -/
def setEntries (entries : List (χ × ℤ)) (c : χ) (v : ℤ) : List (χ × ℤ) :=
  match entries with
  | [] => [(c, v)]
  | (k, x) :: rest => if k = c then (c, v) :: rest else (k, x) :: setEntries rest c v

theorem map_fst_setEntries (entries : List (χ × ℤ)) (c : χ) (v : ℤ) :
    (setEntries entries c v).map Prod.fst =
      if c ∈ entries.map Prod.fst then entries.map Prod.fst else entries.map Prod.fst ++ [c] := by
  induction entries with
  | nil => rfl
  | cons e rest ih =>
    obtain ⟨k, x⟩ := e
    rw [setEntries]
    by_cases hk : k = c
    · simp [hk]
    · have hmem : c ∈ List.map Prod.fst ((k, x) :: rest) ↔ c ∈ rest.map Prod.fst := by
        rw [List.map_cons, List.mem_cons, or_iff_right (Ne.symm hk)]
      rw [if_neg hk, List.map_cons, ih]
      split
      · rename_i hc
        rw [if_pos (hmem.mpr hc)]
        rfl
      · rename_i hc
        rw [if_neg (mt hmem.mp hc)]
        rfl

/-- `set` -/
def set (m : Highwater χ) (c : χ) (v : ℤ) : Highwater χ where
  entries := setEntries m.entries c v
  nodup := by
    rw [map_fst_setEntries]
    split
    · exact m.nodup
    · rename_i hmem
      refine List.nodup_append.mpr ⟨m.nodup, List.nodup_singleton c, fun k hk d hd heq => hmem ?_⟩
      rw [← List.mem_singleton.mp hd, ← heq]
      exact hk

theorem lookup_setEntries (entries : List (χ × ℤ)) (c d : χ) (v : ℤ) :
    (setEntries entries c v).lookup d = if d = c then some v else entries.lookup d := by
  induction entries with
  | nil => exact Async.Records.lookup_cons_eq []
  | cons e rest ih =>
    obtain ⟨k, x⟩ := e
    rw [setEntries]
    by_cases hk : k = c
    · subst hk
      rw [if_pos rfl, Async.Records.lookup_cons_eq, Async.Records.lookup_cons_eq]
      split
      · rfl
      · rfl
    · rw [if_neg hk, Async.Records.lookup_cons_eq, Async.Records.lookup_cons_eq, ih]
      by_cases hd : d = k
      · subst hd
        rw [if_pos rfl, if_neg hk, if_pos rfl]
      · rw [if_neg hd, if_neg hd]

@[simp] theorem get_set (m : Highwater χ) (c d : χ) (v : ℤ) :
    (m.set c v).get d = if d = c then some v else m.get d := lookup_setEntries m.entries c d v

@[simp] theorem get_empty (c : χ) : (empty : Highwater χ).get c = none := rfl

end Highwater

section Code

variable {χ : Type} [DecidableEq χ]

/-- One entry of a stored object; a malformed one is skipped. -/
def parseEntry (map : Highwater χ) (e : χ × JsonValue) : Highwater χ :=
  match e.2.toBigInt with
  | some v => map.set e.1 v
  | none => map

/-- `parseHighwater` of a stored text, or of none. -/
def parseHighwater (raw : Option (Marker χ)) : Highwater χ :=
  match raw with
  | some (.object entries) => entries.foldl parseEntry .empty
  | _ => .empty

def serializeHighwater (map : Highwater χ) : Marker χ :=
  .object (map.entries.map fun e => (e.1, .text (bigIntToString e.2)))

def mergeHighwater (stored : Highwater χ) (summaries : List (MonitorSummary χ)) : Highwater χ :=
  summaries.foldl (fun next s => match next.get s.channelId with
    | none => next.set s.channelId s.latestUpdateId
    | some cur => if cur < s.latestUpdateId then next.set s.channelId s.latestUpdateId else next) stored

def findRegression (summaries : List (MonitorSummary χ)) (stored : Highwater χ) : Option (Regression χ) :=
  summaries.findSome? fun s => match stored.get s.channelId with
    | some hw => if s.latestUpdateId < hw then some ⟨s.channelId, s.latestUpdateId, hw⟩ else none
    | none => none

theorem parseEntry_text (map : Highwater χ) (c : χ) (v : ℤ) :
    parseEntry map (c, .text (bigIntToString v)) = map.set c v := by
  rw [parseEntry, JsonValue.toBigInt, bigInt_toString]

/-- Distinct keys that are set in turn win over what was there before. -/
theorem get_foldl_parseEntry (entries : List (χ × ℤ)) (hnodup : (entries.map Prod.fst).Nodup)
    (map : Highwater χ) (c : χ) :
    ((entries.map fun e => (e.1, JsonValue.text (bigIntToString e.2))).foldl parseEntry map).get c =
      (entries.lookup c).or (map.get c) := by
  induction entries generalizing map with
  | nil => rfl
  | cons e rest ih =>
    obtain ⟨k, x⟩ := e
    rw [List.map_cons, List.nodup_cons] at hnodup
    rw [List.map_cons, List.foldl_cons, parseEntry_text, ih hnodup.2, Highwater.get_set,
      Async.Records.lookup_cons_eq]
    by_cases hc : c = k
    · subst hc
      have hnone : rest.lookup c = none := by
        rw [List.lookup_eq_none_iff]
        intro p hp
        refine bne_iff_ne.mpr fun heq => hnodup.1 ?_
        exact List.mem_map.mpr ⟨p, hp, heq.symm⟩
      rw [hnone, if_pos rfl]
      simp
    · simp [hc]

/-- A written marker is read back. -/
theorem parse_serialize (map : Highwater χ) (c : χ) :
    (parseHighwater (some (serializeHighwater map))).get c = map.get c := by
  refine (get_foldl_parseEntry map.entries map.nodup .empty c).trans ?_
  rw [Highwater.get_empty, Option.or_none]
  rfl

theorem mergeHighwater_cons (stored : Highwater χ) (s : MonitorSummary χ) (summaries : List (MonitorSummary χ)) :
    ∃ next, mergeHighwater stored (s :: summaries) = mergeHighwater next summaries ∧
      (next = stored ∨ next = stored.set s.channelId s.latestUpdateId) := by
  rw [mergeHighwater, List.foldl_cons]
  refine ⟨_, rfl, ?_⟩
  split
  · exact .inr rfl
  · split
    · exact .inr rfl
    · exact .inl rfl

/-- A merged mark is a stored one, or the update id of a loaded monitor. -/
theorem get_merge {stored : Highwater χ} {summaries : List (MonitorSummary χ)} {c : χ} {v : ℤ}
    (h : (mergeHighwater stored summaries).get c = some v) :
    stored.get c = some v ∨ ∃ s ∈ summaries, s.channelId = c ∧ s.latestUpdateId = v := by
  induction summaries generalizing stored with
  | nil => exact .inl h
  | cons s summaries ih =>
    obtain ⟨next, hnext, hcases⟩ := mergeHighwater_cons stored s summaries
    rw [hnext] at h
    rcases ih h with hn | ⟨t, ht, hc⟩
    · rcases hcases with rfl | rfl
      · exact .inl hn
      · rw [Highwater.get_set] at hn
        split at hn
        · rename_i heq
          exact .inr ⟨s, List.mem_cons_self, heq.symm, Option.some.inj hn⟩
        · exact .inl hn
    · exact .inr ⟨t, List.mem_cons_of_mem _ ht, hc⟩

/-- A start refuses exactly when a loaded monitor is below its channel's mark. -/
theorem findRegression_isSome_iff {summaries : List (MonitorSummary χ)} {stored : Highwater χ} :
    (findRegression summaries stored).isSome = true ↔
      ∃ s ∈ summaries, ∃ hw, stored.get s.channelId = some hw ∧ s.latestUpdateId < hw := by
  rw [findRegression, List.findSome?_isSome_iff]
  refine exists_congr fun s => and_congr_right fun _ => ?_
  cases hw : stored.get s.channelId with
  | none => simp
  | some v => simp

end Code

end LibreWallet.Persist
