import LibreWallet.Roaming.Policy
import Mathlib.Order.Lattice

/-
  Roaming/Chain.lean --- what a chain of claims and renewals carries.

  Each holder folds the record it claims over into `unprovenPredecessor`, so that a
  wallet that dies behind several claims is not forgotten.  This file takes a chain of
  writes of any length, by any owners, and computes the two things the handoff proof
  reads from its last record: the version the chain advertises, and the origin an
  unproven verdict names.
-/

set_option autoImplicit false

namespace LibreWallet.Roaming.Chain

open LibreWallet.Roaming

/-! ## Chains -/

/-- One claim or renewal: who writes, when, and the state_version it advertises. -/
structure Claim where
  owner : String
  origin : String
  appName : Option String := none
  now : Nat
  version : Nat
  leaseMs : Nat := ROAMING_LEASE_MS
  deriving DecidableEq, Repr

/-- The record a claim writes over `previous`. -/
def Claim.write (c : Claim) (previous : Option RoamingLeaseRecord) (clearPredecessor : Bool) :
    RoamingLeaseRecord :=
  buildLeaseRecord
    { ownerToken := c.owner, origin := c.origin, appName := c.appName, now := c.now
      previous := previous, heartbeatStateVersion := c.version, leaseMs := c.leaseMs
      clearPredecessor := clearPredecessor }

section

-- the chain starts over `base`; its first write may be an override's
variable (base : Option RoamingLeaseRecord) (override : Bool)

/-- The record that `c` leaves after the earlier claims, of which the newest comes first. -/
def recordAfter : Claim → List Claim → RoamingLeaseRecord
  | c, [] => c.write base override
  | c, p :: earlier => c.write (some (recordAfter p earlier)) false

/-- Nothing is carried into the chain: it starts at an absent or a released record, or
with a write that clears the predecessor. -/
def Fresh : Prop := override = true ∨ ∀ r, base = some r → r.phase = .released

end

/-- An owner token belongs to one origin, and its own version does not go back. -/
def Orderly (claims : List Claim) : Prop :=
  claims.Pairwise fun later earlier =>
    earlier.owner = later.owner → earlier.origin = later.origin ∧ earlier.version ≤ later.version

/-- The highest version a claim of the chain advertised. -/
def maxVersion : List Claim → Nat
  | [] => 0
  | c :: earlier => max c.version (maxVersion earlier)

theorem maxVersion_le_of_suffix {short long : List Claim} (h : short <:+ long) :
    maxVersion short ≤ maxVersion long := by
  obtain ⟨newer, rfl⟩ := h
  induction newer with
  | nil => simp
  | cons d newer ih =>
    simp only [List.cons_append, maxVersion]
    omega

theorem Orderly.tail {c : Claim} {earlier : List Claim} (h : Orderly (c :: earlier)) :
    Orderly earlier := by
  unfold Orderly at *
  exact (List.pairwise_cons.mp h).2

/-- A chain of one owner advertises its newest version. -/
theorem Orderly.maxVersion_eq {c : Claim} {earlier : List Claim} (h : Orderly (c :: earlier))
    (hown : ∀ p ∈ earlier, p.owner = c.owner) : maxVersion (c :: earlier) = c.version := by
  unfold Orderly at h
  have hle := (List.pairwise_cons.mp h).1
  have hmax : maxVersion earlier ≤ c.version := by
    clear h
    induction earlier with
    | nil => simp [maxVersion]
    | cons p earlier ih =>
      have hp := (hle p (by simp) (hown p (by simp))).2
      have hrest := ih (fun q hq => hown q (by simp [hq])) (fun q hq => hle q (by simp [hq]))
      simp only [maxVersion]
      omega
  simp only [maxVersion]
  omega

/-! ## What the records carry -/

section

variable {base : Option RoamingLeaseRecord} {override : Bool}

@[simp] theorem recordAfter_owner (c : Claim) (earlier : List Claim) :
    (recordAfter base override c earlier).owner = c.owner := by
  cases earlier <;> rfl

@[simp] theorem recordAfter_origin (c : Claim) (earlier : List Claim) :
    (recordAfter base override c earlier).origin = c.origin := by
  cases earlier <;> rfl

@[simp] theorem recordAfter_phase (c : Claim) (earlier : List Claim) :
    (recordAfter base override c earlier).phase = .live := by
  cases earlier <;> rfl

@[simp] theorem recordAfter_version (c : Claim) (earlier : List Claim) :
    (recordAfter base override c earlier).heartbeatStateVersion = c.version := by
  cases earlier <;> rfl

/-- The first record of a chain carries nothing. -/
theorem carried_nil (hfresh : Fresh base override) (c : Claim) :
    (recordAfter base override c []).unprovenPredecessor = none := by
  change (if override then none else carryPredecessor base c.owner c.now) = none
  rcases hfresh with rfl | hbase
  · rfl
  · cases base with
    | none => simp [carryPredecessor]
    | some r => simp [carryPredecessor, hbase r rfl]

/-- A renewal carries what its owner carried before. -/
theorem carried_renewal {c p : Claim} (earlier : List Claim) (h : p.owner = c.owner) :
    (recordAfter base override c (p :: earlier)).unprovenPredecessor =
      (recordAfter base override p earlier).unprovenPredecessor := by
  change carryPredecessor (some (recordAfter base override p earlier)) c.owner c.now = _
  simp [carryPredecessor, h]

/-- A claim over another owner carries that owner's origin and all its record
advertised. -/
theorem carried_claim {c p : Claim} (earlier : List Claim) (h : p.owner ≠ c.owner) :
    (recordAfter base override c (p :: earlier)).unprovenPredecessor =
      some { owner := p.owner, origin := p.origin
             advertisedVersion := advertisedVersionOf (recordAfter base override p earlier)
             since := c.now } := by
  change carryPredecessor (some (recordAfter base override p earlier)) c.owner c.now = _
  simp [carryPredecessor, h]

/-- The record of a chain advertises the chain's highest version. -/
theorem advertised_eq (hfresh : Fresh base override) {c : Claim} {earlier : List Claim}
    (h : Orderly (c :: earlier)) :
    advertisedVersionOf (recordAfter base override c earlier) = maxVersion (c :: earlier) := by
  induction earlier generalizing c with
  | nil => simp [advertisedVersionOf, carried_nil hfresh, maxVersion]
  | cons p earlier ih =>
    have hprev := ih h.tail
    by_cases hown : p.owner = c.owner
    · -- the owner's own version has not gone back, so its renewal covers the last one
      have hle : p.version ≤ c.version := by
        unfold Orderly at h
        exact ((List.pairwise_cons.mp h).1 p (by simp) hown).2
      simp only [advertisedVersionOf, recordAfter_version, maxVersion] at hprev ⊢
      rw [carried_renewal earlier hown]
      omega
    · simp only [advertisedVersionOf, recordAfter_version] at hprev ⊢
      rw [carried_claim earlier hown]
      simp only [advertisedVersionOf, recordAfter_version, maxVersion, Option.map_some,
        Option.getD_some] at hprev ⊢
      omega

/-- The newest claim that is not by the current owner. -/
def lastForeign (c : Claim) (earlier : List Claim) : Option Claim :=
  earlier.find? fun p => p.owner ≠ c.owner

/-- The origin carried is that of the newest other owner, whoever advertised most. -/
theorem carried_origin (hfresh : Fresh base override) (c : Claim) (earlier : List Claim) :
    (recordAfter base override c earlier).unprovenPredecessor.map (·.origin) =
      (lastForeign c earlier).map (·.origin) := by
  induction earlier generalizing c with
  | nil => simp [carried_nil hfresh, lastForeign]
  | cons p earlier ih =>
    by_cases hown : p.owner = c.owner
    · rw [carried_renewal earlier hown, ih p]
      simp [lastForeign, hown]
    · rw [carried_claim earlier hown]
      simp [lastForeign, hown]

/-- The origin that an unproven verdict on the chain's record names. -/
def staleOrigin (c : Claim) (earlier : List Claim) : String :=
  ((lastForeign c earlier).map (·.origin)).getD c.origin

/-- An unproven verdict names the newest other owner's origin and the highest version of
the chain. -/
theorem verdict_names (hfresh : Fresh base override) {c : Claim} {earlier : List Claim}
    (h : Orderly (c :: earlier)) {i : HandoffProofInputs}
    (hlease : i.lease = some (recordAfter base override c earlier)) {o : String} {a b : Nat}
    (hverdict : evaluateHandoffProof i = .unproven o a b) :
    o = staleOrigin c earlier ∧ a = maxVersion (c :: earlier) := by
  simp only [evaluateHandoffProof, hlease, carried_origin hfresh, advertised_eq hfresh h,
    recordAfter_origin] at hverdict
  split_ifs at hverdict
  injection hverdict with ho ha hb
  exact ⟨ho.symm, ha.symm⟩

/-- Without a local wallet, an ack and the override, the verdict is unproven. -/
theorem verdict_unproven (hfresh : Fresh base override) {c : Claim} {earlier : List Claim}
    (h : Orderly (c :: earlier)) :
    evaluateHandoffProof
        { lease := some (recordAfter base override c earlier), backupStateVersion := none
          localSeedPresent := false, localStateVersion := 0 } =
      .unproven (staleOrigin c earlier) (maxVersion (c :: earlier)) 0 := by
  simp [evaluateHandoffProof, ackProves, carried_origin hfresh, advertised_eq hfresh h,
    staleOrigin]

end

/-! ## The chain's promise -/

/-- No record of the chain advertises less than one before it. -/
def NeverForgets (base : Option RoamingLeaseRecord) (override : Bool) (c : Claim)
    (earlier : List Claim) : Prop :=
  ∀ p before, (p :: before) <:+ (c :: earlier) →
    advertisedVersionOf (recordAfter base override p before) ≤
      advertisedVersionOf (recordAfter base override c earlier)

/-- The origin an unproven verdict on the current record names is one of the chain that
itself advertised the version the record advertises. -/
def NamesTheAuthor (base : Option RoamingLeaseRecord) (override : Bool) (c : Claim)
    (earlier : List Claim) : Prop :=
  ∀ i : HandoffProofInputs, i.lease = some (recordAfter base override c earlier) →
    ∀ o a b, evaluateHandoffProof i = .unproven o a b →
      a = advertisedVersionOf (recordAfter base override c earlier) ∧
        ∃ p ∈ c :: earlier, p.origin = o ∧ p.version = a

/-- Nobody but the current owner has claimed, or the newest claim by another owner is of
an origin that reached the chain's highest version in one of its claims. -/
def LastForeignReached (c : Claim) (earlier : List Claim) : Prop :=
  ∀ q, lastForeign c earlier = some q →
    ∃ p ∈ c :: earlier, p.origin = q.origin ∧ p.version = maxVersion (c :: earlier)

theorem neverForgets {base : Option RoamingLeaseRecord} {override : Bool}
    (hfresh : Fresh base override) {c : Claim} {earlier : List Claim}
    (h : Orderly (c :: earlier)) : NeverForgets base override c earlier := by
  intro p before hsuffix
  have hshort : Orderly (p :: before) := List.Pairwise.sublist hsuffix.sublist h
  rw [advertised_eq hfresh hshort, advertised_eq hfresh h]
  exact maxVersion_le_of_suffix hsuffix

/-- Along every chain of claims and renewals the advertised version never decreases; the
origin named is one that advertised it exactly when the newest other owner's is. -/
theorem carries_author_iff {base : Option RoamingLeaseRecord} {override : Bool}
    (hfresh : Fresh base override) {c : Claim} {earlier : List Claim}
    (h : Orderly (c :: earlier)) :
    (NeverForgets base override c earlier ∧ NamesTheAuthor base override c earlier) ↔
      LastForeignReached c earlier := by
  constructor
  · rintro ⟨-, hnames⟩ q hq
    obtain ⟨-, p, hp, horigin, hversion⟩ := hnames _ rfl _ _ _ (verdict_unproven hfresh h)
    exact ⟨p, hp, by simpa [staleOrigin, hq] using horigin, hversion⟩
  · intro hreached
    refine ⟨neverForgets hfresh h, ?_⟩
    intro i hlease o a b hverdict
    obtain ⟨rfl, rfl⟩ := verdict_names hfresh h hlease hverdict
    refine ⟨(advertised_eq hfresh h).symm, ?_⟩
    cases hlast : lastForeign c earlier with
    | some q => simpa [staleOrigin, hlast] using hreached q hlast
    | none =>
      -- one owner's chain: its newest claim has the highest version
      have hown : ∀ p ∈ earlier, p.owner = c.owner := by
        intro p hp
        simpa using List.find?_eq_none.mp hlast p hp
      exact ⟨c, by simp, by simp [staleOrigin, hlast], (h.maxVersion_eq hown).symm⟩

/-! ### A chain of three origins -/

def claimA : Claim := { owner := "tok-a", origin := "https://a.example", now := 0, version := 10 }
def claimB : Claim :=
  { owner := "tok-b", origin := "https://b.example", now := 200000, version := 0 }
def claimC : Claim :=
  { owner := "tok-c", origin := "https://c.example", now := 400000, version := 0 }

theorem carries_author_iff_two :
    NeverForgets none false claimB [claimA] ∧ NamesTheAuthor none false claimB [claimA] := by
  refine (carries_author_iff (Or.inr (by simp)) (by simp [Orderly, claimA, claimB])).mpr ?_
  intro q hq
  have hq : claimA = q := by simpa [lastForeign, claimA, claimB] using hq
  subst hq
  exact ⟨claimA, by simp, rfl, by decide⟩

/-- A dies at version 10, B claims with nothing and halts, C claims: the verdict names B,
which never held version 10. -/
theorem not_names_author :
    Fresh none false ∧ Orderly [claimC, claimB, claimA] ∧
      evaluateHandoffProof
          { lease := some (recordAfter none false claimC [claimB, claimA])
            backupStateVersion := some 9, localSeedPresent := false, localStateVersion := 0 } =
        .unproven "https://b.example" 10 9 ∧
      ¬ NamesTheAuthor none false claimC [claimB, claimA] := by
  refine ⟨Or.inr (by simp), by simp [Orderly, claimA, claimB, claimC], by decide, ?_⟩
  intro hnames
  obtain ⟨-, p, hp, horigin, hversion⟩ := hnames
    { lease := some (recordAfter none false claimC [claimB, claimA])
      backupStateVersion := some 9, localSeedPresent := false, localStateVersion := 0 }
    rfl "https://b.example" 10 9 (by decide)
  rcases List.mem_cons.mp hp with rfl | hp
  · exact absurd horigin (by decide)
  rcases List.mem_cons.mp hp with rfl | hp
  · exact absurd hversion (by decide)
  rcases List.mem_cons.mp hp with rfl | hp
  · exact absurd horigin (by decide)
  · cases hp

end LibreWallet.Roaming.Chain
