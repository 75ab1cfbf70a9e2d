import Mathlib.Data.Option.Basic
import Mathlib.Data.Nat.Basic

/-
  Roaming/Policy.lean --- the pure decisions of the roaming wallet.

  Mirrors `wallet-core/src/roaming/roaming-policy.ts` and the lease rule it takes
  from `shared/src/device-lease.ts`: how a lease record is classified, what a boot
  decides, when a handoff is proven, and what a holder writes.

  Versions and times are `Nat`.  A record's constant `v: 1` is left out; a file
  whose contents do not parse reads as absent, which `none` stands for.
-/

set_option autoImplicit false

namespace LibreWallet.Roaming

/-! ## Constants -/

def ROAMING_LEASE_MS : Nat := 120000
def ROAMING_RENEW_MS : Nat := 40000
def ACQUIRE_SETTLE_MS : Nat := 2000
def ACQUIRE_SETTLE_JITTER_MS : Nat := 2000
def CONFIRM_READ_MS : Nat := 5000
def TAKEOVER_WAIT_MS : Nat := 90000
def TAKEOVER_POLL_MS : Nat := 5000

/-! ## The lease record -/

inductive Phase where
  | live
  | released
  deriving DecidableEq, Repr

/-- Written by an evicted holder after its final flush, without changing the owner. -/
structure HandoffAck where
  from_ : String
  flushedVersion : Nat
  at_ : Nat
  deriving DecidableEq, Repr

/-- The prior holder that the lease was taken from without proof that its final
flush landed. -/
structure UnprovenPredecessor where
  owner : String
  origin : String
  advertisedVersion : Nat
  since : Nat
  deriving DecidableEq, Repr

/-- `RoamingLeaseRecord`. -/
structure RoamingLeaseRecord where
  owner : String
  origin : String
  appName : Option String := none
  acquiredAt : Nat
  expiresAt : Nat
  seq : Nat
  heartbeatStateVersion : Nat
  phase : Phase
  handoffAck : Option HandoffAck := none
  unprovenPredecessor : Option UnprovenPredecessor := none
  deriving DecidableEq, Repr

/-! ## Classification -/

inductive LeaseDecision where
  | acquire
  | renew
  | blocked
  deriving DecidableEq, Repr

/-- `evaluateDeviceLease` of `device-lease.ts`. -/
def evaluateDeviceLease (existing : Option RoamingLeaseRecord) (ownerId : String)
    (now : Nat) : LeaseDecision :=
  match existing with
  | none => .acquire
  | some r =>
    if r.owner = ownerId then .renew
    else if r.expiresAt ≤ now then .acquire
    else .blocked

inductive RoamingLeaseState where
  | absent
  | ours
  | foreignLive
  | foreignExpired
  | released
  deriving DecidableEq, Repr

/-- Classify the stored lease relative to us.  Our own token comes first, whatever
the phase and the expiry. -/
def leaseState (record : Option RoamingLeaseRecord) (ownerToken : String) (now : Nat) :
    RoamingLeaseState :=
  match record with
  | none => .absent
  | some r =>
    if r.owner = ownerToken then .ours
    else if r.phase = .released then .released
    else if evaluateDeviceLease (some r) ownerToken now = .blocked then .foreignLive
    else .foreignExpired

theorem leaseState_eq_ours_iff {record : Option RoamingLeaseRecord} {ownerToken : String}
    {now : Nat} :
    leaseState record ownerToken now = .ours ↔ ∃ r, record = some r ∧ r.owner = ownerToken := by
  cases record with
  | none => simp [leaseState]
  | some r =>
    simp only [leaseState]
    split_ifs <;> simp_all

/-- A live foreign lease: another owner's, not released, not expired. -/
theorem leaseState_eq_foreignLive_iff {record : Option RoamingLeaseRecord}
    {ownerToken : String} {now : Nat} :
    leaseState record ownerToken now = .foreignLive ↔
      ∃ r, record = some r ∧ r.owner ≠ ownerToken ∧ r.phase = .live ∧ now < r.expiresAt := by
  cases record with
  | none => simp [leaseState]
  | some r =>
    cases hp : r.phase <;> simp only [leaseState, evaluateDeviceLease] <;>
      split_ifs <;> simp_all

/-! ## The handoff proof -/

/-- The highest state_version a predecessor is known to have reached. -/
def advertisedVersionOf (record : RoamingLeaseRecord) : Nat :=
  max record.heartbeatStateVersion
    ((record.unprovenPredecessor.map (·.advertisedVersion)).getD 0)

/-- What a handoff was proven by. -/
inductive Via where
  | noPredecessor
  | released
  | ack
  | localState
  | override
  deriving DecidableEq, Repr

inductive HandoffProof where
  | proven (via : Via)
  | unproven (staleOrigin : String) (advertisedVersion backupVersion : Nat)
  deriving DecidableEq, Repr

namespace HandoffProof

/-- `proof.proven`. -/
def isProven : HandoffProof → Bool
  | .proven _ => true
  | .unproven _ _ _ => false

end HandoffProof

/-- `HandoffProofInputs`: `lease` is the record as peeked before our claim. -/
structure HandoffProofInputs where
  lease : Option RoamingLeaseRecord
  postClaimLease : Option RoamingLeaseRecord := none
  backupStateVersion : Option Nat
  localSeedPresent : Bool
  localStateVersion : Nat
  override : Bool := false
  deriving DecidableEq, Repr

/-- The ack of our takeover, as far as the backup really goes. -/
def ackProves (i : HandoffProofInputs) (lease : RoamingLeaseRecord) : Bool :=
  match i.postClaimLease.bind (·.handoffAck) with
  | none => false
  | some ack =>
    -- an unreadable backup is `-1`, which fails the test
    ack.from_ = lease.owner ∧
      (ack.flushedVersion : Int) ≤ (i.backupStateVersion.map Int.ofNat).getD (-1)

/-- Can we prove that the Drive backup holds the predecessor's final state? -/
def evaluateHandoffProof (i : HandoffProofInputs) : HandoffProof :=
  if i.override then .proven .override
  else
    match i.lease with
    | none => .proven .noPredecessor
    | some lease =>
      if lease.phase = .released then .proven .released
      else if ackProves i lease then .proven .ack
      else if i.localSeedPresent ∧ advertisedVersionOf lease ≤ i.localStateVersion then
        .proven .localState
      else
        .unproven ((lease.unprovenPredecessor.map (·.origin)).getD lease.origin)
          (advertisedVersionOf lease) (i.backupStateVersion.getD 0)

/-- `via: "local-state"` is a comparison with the advertised version of a live
record, and nothing else. -/
theorem evaluateHandoffProof_localState {i : HandoffProofInputs}
    (h : evaluateHandoffProof i = .proven .localState) :
    ∃ lease, i.lease = some lease ∧ lease.phase = .live ∧ i.localSeedPresent = true ∧
      advertisedVersionOf lease ≤ i.localStateVersion := by
  simp only [evaluateHandoffProof] at h
  split at h
  · cases h
  cases hl : i.lease with
  | none => simp [hl] at h
  | some lease =>
    simp only [hl] at h
    split at h
    · cases h
    rename_i hlive
    split at h
    · cases h
    split at h
    · rename_i hlocal
      refine ⟨lease, rfl, ?_, hlocal⟩
      cases hp : lease.phase with
      | live => rfl
      | released => exact absurd hp hlive
    · cases h

/-- Against a live record that nobody acked, and without the override, only a local
wallet at the advertised version is a proof. -/
theorem evaluateHandoffProof_of_live {i : HandoffProofInputs} {lease : RoamingLeaseRecord}
    (ho : i.override = false) (hl : i.lease = some lease) (hp : lease.phase = .live)
    (hack : i.postClaimLease.bind (·.handoffAck) = none) :
    (evaluateHandoffProof i).isProven = true ↔
      i.localSeedPresent = true ∧ advertisedVersionOf lease ≤ i.localStateVersion := by
  simp only [evaluateHandoffProof, ho, hl, hp, ackProves, hack]
  by_cases hc : i.localSeedPresent = true ∧ advertisedVersionOf lease ≤ i.localStateVersion
  · simp [hc, HandoffProof.isProven]
  · simp [hc, HandoffProof.isProven]

/-! ## The boot decision -/

inductive RoamingBootDecision where
  | blocked (origin : String) (expiresAt : Nat)
  | haltVersionGap (staleOrigin : String) (missingVersions : Nat)
  | restoreIntoEmpty
  | setupNeeded
  | start
  deriving DecidableEq, Repr

structure RoamingBootInputs extends HandoffProofInputs where
  ownerToken : String
  now : Nat
  leaseClaimed : Bool := false
  backupPresent : Bool
  deriving DecidableEq, Repr

/-- Whether the proof gate is evaluated now; it is deferred while a backup exists
whose version is unreadable. -/
def RoamingBootInputs.gateNow (i : RoamingBootInputs) : Bool :=
  i.backupStateVersion.isSome || !i.backupPresent

/-- The roaming half of the boot decision. -/
def roamingBootDecision (i : RoamingBootInputs) : RoamingBootDecision :=
  let state := leaseState i.lease i.ownerToken i.now
  if state = .foreignLive ∧ ¬ i.leaseClaimed then
    .blocked ((i.lease.map (·.origin)).getD "") ((i.lease.map (·.expiresAt)).getD 0)
  else
    let afterGate :=
      if i.localSeedPresent then .start
      else if i.backupPresent then .restoreIntoEmpty
      else .setupNeeded
    if i.gateNow then
      match evaluateHandoffProof i.toHandoffProofInputs with
      | .unproven staleOrigin advertisedVersion backupVersion =>
        .haltVersionGap staleOrigin
          (advertisedVersion - max backupVersion i.localStateVersion)
      | .proven _ => afterGate
    else afterGate

/-- A session that has claimed the lease is told to start only with a local wallet,
and only past the proof gate where the gate is evaluated. -/
theorem roamingBootDecision_start {i : RoamingBootInputs} (h : roamingBootDecision i = .start) :
    i.localSeedPresent = true ∧
      (i.gateNow = true → (evaluateHandoffProof i.toHandoffProofInputs).isProven = true) := by
  simp only [roamingBootDecision] at h
  split_ifs at h with hb hg hs hr hs' hr'
  · cases hp : evaluateHandoffProof i.toHandoffProofInputs with
    | proven via => exact ⟨hs, fun _ => rfl⟩
    | unproven o a b => simp [hp] at h
  · cases hp : evaluateHandoffProof i.toHandoffProofInputs <;> simp [hp] at h
  · cases hp : evaluateHandoffProof i.toHandoffProofInputs <;> simp [hp] at h
  · exact ⟨hs', fun hg' => absurd hg' hg⟩

/-! ## Heartbeats -/

inductive HeartbeatDecision where
  | renew
  | evicted
  deriving DecidableEq, Repr

/-- What a running holder does on its heartbeat tick, having read the lease first. -/
def heartbeatDecision (record : Option RoamingLeaseRecord) (ownerToken : String) :
    HeartbeatDecision :=
  match record with
  | none => .renew
  | some r => if r.owner = ownerToken then .renew else .evicted

/-- Whether heartbeat failures have spanned longer than the lease window. -/
def shouldSelfFenceOnOutage (firstFailureAt : Option Nat) (now : Nat)
    (leaseMs : Nat := ROAMING_LEASE_MS) : Bool :=
  match firstFailureAt with
  | none => false
  | some t => leaseMs < now - t

/-! ## What a holder writes -/

/-- What an unproven predecessor becomes on our record. -/
def carryPredecessor (previous : Option RoamingLeaseRecord) (ownerToken : String)
    (now : Nat) : Option UnprovenPredecessor :=
  match previous with
  | none => none
  | some p =>
    if p.phase = .released then none
    else if p.owner = ownerToken then p.unprovenPredecessor
    else
      some { owner := p.owner, origin := p.origin
             advertisedVersion := advertisedVersionOf p, since := now }

/-- The options of `buildLeaseRecord`. -/
structure BuildOpts where
  ownerToken : String
  origin : String
  appName : Option String
  now : Nat
  previous : Option RoamingLeaseRecord
  heartbeatStateVersion : Nat
  leaseMs : Nat := ROAMING_LEASE_MS
  clearPredecessor : Bool := false

/-- Build the record a holder writes on acquire and renew. -/
def buildLeaseRecord (opts : BuildOpts) : RoamingLeaseRecord where
  owner := opts.ownerToken
  origin := opts.origin
  appName := opts.appName.filter (· ≠ "")
  acquiredAt :=
    match opts.previous with
    | some p => if p.owner = opts.ownerToken then p.acquiredAt else opts.now
    | none => opts.now
  expiresAt := opts.now + opts.leaseMs
  seq := (opts.previous.map (·.seq)).getD 0 + 1
  heartbeatStateVersion := opts.heartbeatStateVersion
  phase := .live
  unprovenPredecessor :=
    if opts.clearPredecessor then none
    else carryPredecessor opts.previous opts.ownerToken opts.now

/-! ## Takeover -/

inductive TakeoverReason where
  | acked
  | timeout
  | waiting
  | lost
  deriving DecidableEq, Repr

/-- `proceed` of `takeoverMayProceed`. -/
def TakeoverReason.proceed : TakeoverReason → Bool
  | .acked => true
  | .timeout => true
  | .waiting => false
  | .lost => false

/-- Whether a takeover claimant may stop waiting for the previous holder's handoff. -/
def takeoverMayProceed (record : Option RoamingLeaseRecord) (ourToken previousOwner : String)
    (takeoverStartedAt now waitMs : Nat) : TakeoverReason :=
  if record.any (fun r => r.owner ≠ ourToken ∧ r.phase ≠ .released) then .lost
  else if (record.bind (·.handoffAck)).any (·.from_ = previousOwner) then .acked
  else if waitMs ≤ now - takeoverStartedAt then .timeout
  else .waiting

/-- A claim is lost to some record of another owner. -/
theorem takeoverMayProceed_lost {record : Option RoamingLeaseRecord}
    {ourToken previousOwner : String} {takeoverStartedAt now waitMs : Nat}
    (h : takeoverMayProceed record ourToken previousOwner takeoverStartedAt now waitMs = .lost) :
    ∃ r, record = some r ∧ r.owner ≠ ourToken ∧ r.phase ≠ .released := by
  simp only [takeoverMayProceed] at h
  split at h
  · rename_i hany
    cases record with
    | none => cases hany
    | some r => exact ⟨r, rfl, by simpa using hany⟩
  split at h
  · cases h
  split at h <;> cases h

end LibreWallet.Roaming
