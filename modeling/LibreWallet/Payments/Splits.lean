import Mathlib

/-
  Payments/Splits.lean --- how a boost is split among its recipients.

  Mirrors `calculateSplits` and `encodeV4VTlvs` of `shared/src/v4v-utils.ts`.  Numbers are exact
  (`ℚ`), so `Number.isFinite` holds of all of them.  The UUIDs that are drawn, the JSON of a record
  and the UTF-8 of a text are parameters.
-/

set_option autoImplicit false

namespace LibreWallet.Payments

/-! ## The records -/

/-- `SplitDestination`. -/
structure SplitDestination where
  destinationPubkey : String
  customKey : Option Nat := none
  customValue : Option String := none
  share : ℚ
  deriving DecidableEq

/-- `BoostRecord`: a template of type `T`, and what the split writes into it. -/
structure BoostRecord (T : Type) where
  template : T
  value_msat_total : ℚ
  boost_uuid : String
  uuid : String
  deriving DecidableEq

structure TlvRecord where
  key : Nat
  value : List UInt8
  deriving DecidableEq

/-- `SplitResult`. -/
structure SplitResult (T : Type) where
  destinationPubkey : String
  amountSats : ℚ
  boostRecord : BoostRecord T
  tlvRecords : List TlvRecord
  deriving DecidableEq

section Model

variable {T : Type} (stringify : BoostRecord T → List UInt8) (encode : String → List UInt8)
  (uuids : Nat → String)

/-- Insert a record in ascending order of the keys; a later record replaces one of its key. -/
def insertTlv (r : TlvRecord) : List TlvRecord → List TlvRecord
  | [] => [r]
  | x :: xs =>
    if r.key < x.key then r :: x :: xs
    else if r.key = x.key then r :: xs
    else x :: insertTlv r xs

/-- `encodeV4VTlvs`, without extra records: the boostagram, the feed GUID, the custom record. -/
def encodeV4VTlvs (boostRecord : BoostRecord T) (feedGuid : Option String) (customKey : Option Nat)
    (customValue : Option String) : List TlvRecord :=
  let boostagram : List TlvRecord := [⟨7629169, stringify boostRecord⟩]
  let feed : List TlvRecord := (feedGuid.filter (· ≠ "")).toList.map fun g => ⟨7629175, encode g⟩
  let custom : List TlvRecord :=
    match customKey, customValue with
    | some key, some value => [⟨key, encode value⟩]
    | _, _ => []
  (boostagram ++ feed ++ custom).foldl (fun sorted r => insertTlv r sorted) []

def NEGATIVE_AMOUNT_MSG : String :=
  "calculateSplits: amountSats must be a finite, non-negative number"

def NEGATIVE_SHARE_MSG : String :=
  "calculateSplits: every destination share must be a finite, non-negative number"

def NO_SHARES_MSG : String := "calculateSplits: total shares must be greater than zero"

/-- What each destination is paid, of which `allocated` is paid already: the last one balances. -/
def payouts (amountSats totalShares : ℚ) : ℚ → List SplitDestination → List ℚ
  | _, [] => []
  | allocatedSats, [_] => [amountSats - allocatedSats]
  | allocatedSats, dest :: rest =>
    let destSats : ℚ := ⌊amountSats * dest.share / totalShares⌋
    destSats :: payouts amountSats totalShares (allocatedSats + destSats) rest

/-- `totalShares`. -/
def totalShares (destinations : List SplitDestination) : ℚ := (destinations.map (·.share)).sum

/-- The result for the destination at `index`, whose UUID is drawn after the one of the boost. -/
def splitResult (template : T) (feedGuid : Option String) (amountSats : ℚ) (index : Nat)
    (dest : SplitDestination) (destSats : ℚ) : SplitResult T :=
  let boostRecord : BoostRecord T :=
    { template, value_msat_total := amountSats * 1000, boost_uuid := uuids 0, uuid := uuids (index + 1) }
  { destinationPubkey := dest.destinationPubkey
    amountSats := destSats
    boostRecord
    tlvRecords := encodeV4VTlvs stringify encode boostRecord feedGuid dest.customKey dest.customValue }

/-- `calculateSplits`. -/
def calculateSplits (destinations : List SplitDestination) (amountSats : ℚ) (template : T)
    (feedGuid : Option String) : Except String (List (SplitResult T)) :=
  if destinations = [] then .ok []
  else if amountSats < 0 then .error NEGATIVE_AMOUNT_MSG
  else if destinations.any (·.share < 0) then .error NEGATIVE_SHARE_MSG
  else if totalShares destinations ≤ 0 then .error NO_SHARES_MSG
  else
    .ok ((destinations.zip (payouts amountSats (totalShares destinations) 0 destinations)).mapIdx
      fun index x => splitResult stringify encode uuids template feedGuid amountSats index x.1 x.2)

end Model

/-! ## The TLV records -/

theorem mem_insertTlv {r x : TlvRecord} {xs : List TlvRecord} (h : x ∈ insertTlv r xs) :
    x = r ∨ x ∈ xs := by
  induction xs with
  | nil => exact .inl (List.mem_singleton.mp h)
  | cons y ys ih =>
    rw [insertTlv] at h
    split at h
    · exact List.mem_cons.mp h
    split at h
    · rcases List.mem_cons.mp h with rfl | h
      · exact .inl rfl
      · exact .inr (List.mem_cons_of_mem _ h)
    · rcases List.mem_cons.mp h with rfl | h
      · exact .inr List.mem_cons_self
      · exact (ih h).imp_right (List.mem_cons_of_mem _)

theorem sorted_insertTlv (r : TlvRecord) {xs : List TlvRecord} (h : xs.Pairwise (·.key < ·.key)) :
    (insertTlv r xs).Pairwise (·.key < ·.key) := by
  induction xs with
  | nil => exact List.pairwise_singleton _ _
  | cons y ys ih =>
    obtain ⟨hy, hys⟩ := List.pairwise_cons.mp h
    rw [insertTlv]
    split
    · rename_i hlt
      refine List.pairwise_cons.mpr ⟨fun z hz => ?_, h⟩
      rcases List.mem_cons.mp hz with rfl | hz
      · exact hlt
      · exact hlt.trans (hy z hz)
    split
    · rename_i heq
      exact List.pairwise_cons.mpr ⟨fun z hz => heq ▸ hy z hz, hys⟩
    · rename_i hge hne
      refine List.pairwise_cons.mpr ⟨fun z hz => ?_, ih hys⟩
      rcases mem_insertTlv hz with rfl | hz
      · omega
      · exact hy z hz

/-- LDK takes custom records in strictly ascending order of their keys. -/
theorem sorted_encodeV4VTlvs {T : Type} (stringify : BoostRecord T → List UInt8)
    (encode : String → List UInt8) (boostRecord : BoostRecord T) (feedGuid : Option String)
    (customKey : Option Nat) (customValue : Option String) :
    (encodeV4VTlvs stringify encode boostRecord feedGuid customKey customValue).Pairwise
      (·.key < ·.key) := by
  have hfold : ∀ rs xs : List TlvRecord, xs.Pairwise (·.key < ·.key) →
      (rs.foldl (fun sorted r => insertTlv r sorted) xs).Pairwise (·.key < ·.key) := by
    intro rs
    induction rs with
    | nil => exact fun xs h => h
    | cons r rs ih => exact fun xs h => ih _ (sorted_insertTlv r h)
  exact hfold _ [] List.Pairwise.nil

/-! ## What is paid -/

/-- The exact proportional share of a destination. -/
def exactShare (amountSats total : ℚ) (dest : SplitDestination) : ℚ :=
  amountSats * dest.share / total

section Payouts

variable {amountSats total allocated : ℚ}

theorem payouts_cons {d : SplitDestination} {ds : List SplitDestination} (h : ds ≠ []) :
    payouts amountSats total allocated (d :: ds) =
      (⌊exactShare amountSats total d⌋ : ℚ) ::
        payouts amountSats total (allocated + ⌊exactShare amountSats total d⌋) ds := by
  cases ds with
  | nil => exact absurd rfl h
  | cons d' ds => rfl

/-- What the destinations before the last are paid. -/
def floors (amountSats total : ℚ) (ds : List SplitDestination) : List ℚ :=
  ds.map fun d => (⌊exactShare amountSats total d⌋ : ℚ)

/-- All but the last are paid their exact share rounded down, and the last what is left. -/
theorem payouts_concat (ds : List SplitDestination) (d : SplitDestination) :
    payouts amountSats total allocated (ds ++ [d]) =
      floors amountSats total ds ++ [amountSats - allocated - (floors amountSats total ds).sum] := by
  induction ds generalizing allocated with
  | nil => simp [payouts, floors]
  | cons e ds ih =>
    rw [List.cons_append, payouts_cons (by simp), ih]
    simp only [floors, List.map_cons, List.sum_cons, List.cons_append]
    rw [sub_sub, add_assoc, ← sub_sub, sub_sub _ allocated]

/-- The exact shares of destinations are the share of their sum. -/
theorem sum_exactShare (ds : List SplitDestination) :
    (ds.map (exactShare amountSats total)).sum = amountSats * totalShares ds / total := by
  induction ds with
  | nil => simp [totalShares]
  | cons d ds ih =>
    simp only [totalShares, List.map_cons, List.sum_cons] at ih ⊢
    rw [ih, exactShare]
    ring

/-- Rounding down takes nothing from a destination but a fraction of a sat. -/
theorem floors_sum (ds : List SplitDestination) :
    (floors amountSats total ds).sum ≤ (ds.map (exactShare amountSats total)).sum ∧
      (ds.map (exactShare amountSats total)).sum ≤ (floors amountSats total ds).sum + ds.length := by
  induction ds with
  | nil => simp [floors]
  | cons d ds ih =>
    obtain ⟨hle, hlt⟩ := ih
    have hfloor := Int.floor_le (exactShare amountSats total d)
    have hfrac := Int.lt_floor_add_one (exactShare amountSats total d)
    simp only [floors, List.map_cons, List.sum_cons, List.length_cons, Nat.cast_add, Nat.cast_one] at *
    exact ⟨by linarith, by linarith⟩

theorem length_payouts {ds : List SplitDestination} :
    (payouts amountSats total allocated ds).length = ds.length := by
  rcases List.eq_nil_or_concat ds with rfl | ⟨ds, d, rfl⟩
  · rfl
  · simp [payouts_concat, floors]

end Payouts

/-! ## Main results -/

section Results

variable {T : Type} (stringify : BoostRecord T → List UInt8) (encode : String → List UInt8)
  (uuids : Nat → String)

/-- What of a result does not depend on its place. -/
theorem map_mapIdx_of_eq {α β γ : Type} {l : List α} {f : Nat → α → β} {g : β → γ} {h : α → γ}
    (heq : ∀ i x, g (f i x) = h x) : (l.mapIdx f).map g = l.map h := by
  apply List.ext_getElem?
  intro i
  rw [List.getElem?_map, List.getElem?_mapIdx, List.getElem?_map, Option.map_map]
  congr 1
  exact funext fun x => heq i x

/-- Shares and amounts that are not negative, and not all zero, are split. -/
theorem calculateSplits_eq {destinations : List SplitDestination} {amountSats : ℚ} (template : T)
    (feedGuid : Option String) (hshares : ∀ d ∈ destinations, 0 ≤ d.share)
    (htotal : 0 < totalShares destinations) (hamount : 0 ≤ amountSats) :
    ∃ rs, calculateSplits stringify encode uuids destinations amountSats template feedGuid = .ok rs ∧
      rs.map (·.destinationPubkey) = destinations.map (·.destinationPubkey) ∧
      rs.map (·.amountSats) = payouts amountSats (totalShares destinations) 0 destinations := by
  have hne : destinations ≠ [] := by
    rintro rfl
    exact absurd htotal (by simp [totalShares])
  have hany : destinations.any (·.share < 0) = false := by
    rw [List.any_eq_false]
    exact fun d hd => by simpa using hshares d hd
  have hlen : (payouts amountSats (totalShares destinations) 0 destinations).length = destinations.length :=
    length_payouts
  rw [calculateSplits, if_neg hne, if_neg (not_lt.mpr hamount), hany, if_neg (by simp),
    if_neg (not_le.mpr htotal)]
  refine ⟨_, rfl, ?_, ?_⟩
  · refine (map_mapIdx_of_eq (h := fun x : SplitDestination × ℚ => x.1.destinationPubkey) ?_).trans ?_
    · exact fun _ _ => rfl
    · calc _ = ((destinations.zip (payouts amountSats (totalShares destinations) 0 destinations)).map
          Prod.fst).map (·.destinationPubkey) := (List.map_map ..).symm
        _ = destinations.map (·.destinationPubkey) := by rw [List.map_fst_zip hlen.ge]
  · refine (map_mapIdx_of_eq (h := Prod.snd) ?_).trans ?_
    · exact fun _ _ => rfl
    · exact List.map_snd_zip hlen.le

/-- A boost is split in full: nobody is paid less than nothing, everybody but the last is paid their
exact share rounded down, and the last is paid their exact share and less than a sat for each of the
others. -/
theorem calculateSplits_conserves {destinations : List SplitDestination} {amountSats : ℚ} (template : T)
    (feedGuid : Option String) (hshares : ∀ d ∈ destinations, 0 ≤ d.share)
    (htotal : 0 < totalShares destinations) (hamount : 0 ≤ amountSats) :
    ∃ rs, calculateSplits stringify encode uuids destinations amountSats template feedGuid = .ok rs ∧
      rs.map (·.destinationPubkey) = destinations.map (·.destinationPubkey) ∧
      (∀ r ∈ rs, 0 ≤ r.amountSats) ∧ (rs.map (·.amountSats)).sum = amountSats ∧
      ∀ i d r, destinations[i]? = some d → rs[i]? = some r →
        (i + 1 < destinations.length →
          r.amountSats = (⌊exactShare amountSats (totalShares destinations) d⌋ : ℚ)) ∧
        (i + 1 = destinations.length →
          exactShare amountSats (totalShares destinations) d ≤ r.amountSats ∧
          r.amountSats < exactShare amountSats (totalShares destinations) d + destinations.length) := by
  obtain ⟨rs, hrs, hkeys, hpaid⟩ :=
    calculateSplits_eq stringify encode uuids template feedGuid hshares htotal hamount
  refine ⟨rs, hrs, hkeys, ?_⟩
  have hne : destinations ≠ [] := by
    rintro rfl
    exact absurd htotal (by simp [totalShares])
  have hexact : ∀ d ∈ destinations, 0 ≤ exactShare amountSats (totalShares destinations) d :=
    fun d hd => div_nonneg (mul_nonneg hamount (hshares d hd)) htotal.le
  have hwhole : (destinations.map (exactShare amountSats (totalShares destinations))).sum =
      amountSats * totalShares destinations / totalShares destinations := sum_exactShare destinations
  rw [mul_div_assoc, div_self htotal.ne', mul_one] at hwhole
  obtain ⟨ds, d, hd⟩ := (List.eq_nil_or_concat destinations).resolve_left hne
  rw [List.concat_eq_append] at hd
  subst hd
  generalize totalShares (ds ++ [d]) = total at *
  rw [payouts_concat, sub_zero] at hpaid
  obtain ⟨hle, hlt⟩ : (floors amountSats total ds).sum ≤ (ds.map (exactShare amountSats total)).sum ∧
      (ds.map (exactShare amountSats total)).sum ≤ (floors amountSats total ds).sum + ds.length := floors_sum ds
  rw [List.map_append, List.sum_append, List.map_singleton, List.sum_singleton] at hwhole
  have hlast : exactShare amountSats total d ≤ amountSats - (floors amountSats total ds).sum := by
    linarith
  refine ⟨fun r hr => ?_, ?_, fun i e r he hr => ⟨fun hi => ?_, fun hi => ?_⟩⟩
  · have hmem : r.amountSats ∈ rs.map (·.amountSats) := List.mem_map_of_mem hr
    rw [hpaid, List.mem_append, List.mem_singleton] at hmem
    rcases hmem with hmem | hmem
    · obtain ⟨e, he, heq⟩ := List.mem_map.mp hmem
      rw [← heq]
      exact_mod_cast Int.floor_nonneg.mpr (hexact e (List.mem_append_left _ he))
    · rw [hmem]
      exact (hexact d (by simp)).trans hlast
  · rw [hpaid, List.sum_append, List.sum_singleton]
    ring
  · have hget : (rs.map (·.amountSats))[i]? = some r.amountSats := by
      rw [List.getElem?_map, hr, Option.map_some]
    have hlt : i < ds.length := by simpa using hi
    rw [List.getElem?_append_left hlt] at he
    rw [hpaid, List.getElem?_append_left (by simpa [floors] using hlt), floors, List.getElem?_map, he,
      Option.map_some, Option.some.injEq] at hget
    exact hget.symm
  · have hget : (rs.map (·.amountSats))[i]? = some r.amountSats := by
      rw [List.getElem?_map, hr, Option.map_some]
    have hi' : i = ds.length := by simpa using hi
    subst hi'
    rw [List.getElem?_concat_length, Option.some.injEq] at he
    have hfloors : ds.length = (floors amountSats total ds).length := by simp [floors]
    rw [hpaid, hfloors, List.getElem?_concat_length, Option.some.injEq] at hget
    rw [← hget, ← he, List.length_append, List.length_singleton]
    push_cast
    exact ⟨hlast, by linarith⟩

end Results

/-- Three recipients of equal shares. -/
def three : List SplitDestination :=
  [{ destinationPubkey := "a", share := 1 }, { destinationPubkey := "b", share := 1 },
    { destinationPubkey := "c", share := 1 }]

/-- A boost of 100 is split into 33, 33 and 34. -/
theorem calculateSplits_conserves_three :
    ∃ rs, calculateSplits (fun _ => []) (fun _ => []) (fun _ => "") three 100 () none = .ok rs ∧
      rs.map (·.amountSats) = [33, 33, 34] ∧ (rs.map (·.amountSats)).sum = 100 := by
  have hshares : ∀ d ∈ three, 0 ≤ d.share := by simp [three]
  have htotal : totalShares three = 3 := by norm_num [three, totalShares]
  have hpos : 0 < totalShares three := by norm_num [htotal]
  obtain ⟨rs, hrs, -, -, hsum, -⟩ := calculateSplits_conserves (T := Unit) (fun _ => []) (fun _ => [])
    (fun _ => "") () none hshares hpos (by norm_num : (0 : ℚ) ≤ 100)
  obtain ⟨rs', hrs', -, hpaid⟩ := calculateSplits_eq (T := Unit) (fun _ => []) (fun _ => [])
    (fun _ => "") () none hshares hpos (by norm_num : (0 : ℚ) ≤ 100)
  obtain rfl : rs = rs' := Except.ok.inj (hrs.symm.trans hrs')
  refine ⟨rs, hrs, ?_, hsum⟩
  rw [hpaid, htotal]
  norm_num [three, payouts]

end LibreWallet.Payments
