import LibreWallet.Roaming.World

/-
  Roaming/Lease.lean --- the lease object's operations.

  Mirrors the class `RoamingLease` of `wallet-core/src/roaming/drive-lease.ts`, over
  the page of its owner token.  `getStateVersion` is the embed's: a fresh read of
  the local database.  The settle delay's jitter is part of the delay's freedom to
  fire late.
-/

set_option autoImplicit false

namespace LibreWallet.Roaming

open Async

/-- The synchronous update of one page. -/
def updatePage (token : String) (f : Page → Page) : Roam Unit :=
  .modify fun w => w.setPage token f

/-- Read and classify the lease.  A transport failure is `LeaseUnreachableError`. -/
def peek (token : String) (site : ReadSite) :
    Roam (Option RoamingLeaseRecord × RoamingLeaseState) := do
  let record ← (ask (.leaseRead site)).rescue fun e => .fail (.unreachable e.message)
  let w ← .get
  pure (record, leaseState record token w.clock)

/-- `writeOurRecord`: the clock is read before the state version is awaited. -/
def writeOurRecord (token : String) (site : ReadSite) (previous : Option RoamingLeaseRecord) :
    Roam RoamingLeaseRecord := do
  let w ← .get
  let local_ ← ask .readLocal
  let record := buildLeaseRecord
    { ownerToken := token
      origin := (w.pages token).origin
      appName := (w.pages token).appName
      now := w.clock
      previous
      heartbeatStateVersion := local_.stateVersion
      clearPredecessor := site = .clear }
  ask (.leaseWrite (.claim site previous) record)
  updatePage token fun p => { p with lastWritten := some record }
  pure record

/-- `RoamingLeaseHeldError` for whoever the record names. -/
def heldBy (record : Option RoamingLeaseRecord) (now : Nat) : Err :=
  .held ((record.map (·.origin)).getD "another origin") ((record.map (·.expiresAt)).getD now)

/-- Drop the carried unproven predecessor, on the user's override only. -/
def clearPredecessor (token : String) : Roam Unit :=
  (do
    let record : Option RoamingLeaseRecord ← ask (.leaseRead .clear)
    match record with
    | none => pure ()
    | some r =>
      if r.owner = token then
        let _ ← writeOurRecord token .clear record
        pure ()
      else pure ()).rescue fun _ => .done ()

/-- Claim the lease: peek, write, settle, read back. -/
def acquire (token : String) (takeover : Bool) : Roam RoamingLeaseRecord := do
  let (record, state) ← peek token .acquire
  let w ← .get
  if state = .foreignLive ∧ ¬ takeover then
    .fail (heldBy record w.clock)
  else
    let _ ← (writeOurRecord token .acquire record).rescue fun e => .fail (.unreachable e.message)
    let w ← .get
    ask (.delayUntil (w.clock + ACQUIRE_SETTLE_MS))
    let (after, state) ← peek token .settle
    let w ← .get
    match after with
    | some r => if state = .ours then pure r else .fail (heldBy after w.clock)
    | none => .fail (heldBy none w.clock)

/-- The second confirmation read. -/
def confirmStillOurs (token : String) : Roam Unit := do
  let (record, state) ← peek token .confirm
  let w ← .get
  if state = .ours then pure () else .fail (heldBy record w.clock)

def stopHeartbeat (token : String) : Roam Unit :=
  updatePage token fun p => { p with heartbeatTimer := none }

def startHeartbeat (token : String) : Roam Unit :=
  .modify fun w =>
    w.setPage token fun p => { p with heartbeatTimer := some (w.clock + ROAMING_RENEW_MS) }

/-- `noteFailure`: whether the failures now span the lease window. -/
def noteFailure (token : String) : Roam Bool := do
  let w ← .get
  let first := ((w.pages token).firstFailureAt).getD w.clock
  let fenced := shouldSelfFenceOnOutage (some first) w.clock
  updatePage token fun p =>
    { p with
      firstFailureAt := some first
      fenced := p.fenced || fenced
      heartbeatTimer := if fenced then none else p.heartbeatTimer }
  pure fenced

/-- What `release` writes over our own record. -/
def releasedRecord (record : RoamingLeaseRecord) (clean : Bool) (localStateVersion now : Nat) :
    RoamingLeaseRecord :=
  { record with
    seq := record.seq + 1
    expiresAt := if clean then now else record.expiresAt
    phase := if clean then .released else .live
    heartbeatStateVersion := localStateVersion }

/-- The local version that a release goes by. -/
def releaseVersion : Option Nat → Roam Nat
  | some v => pure v
  | none => do
    let local_ ← ask .readLocal
    pure local_.stateVersion

/-- Clean stop, only if we still own the lease.  Without a local version the
database is read; without a flushed version nothing is taken to be pending. -/
def release (token : String) (localStateVersion flushedVersion : Option Nat) : Roam Unit := do
  stopHeartbeat token
  (do
    let record : Option RoamingLeaseRecord ← ask (.leaseRead .release)
    match record with
    | none => pure ()
    | some r =>
      if r.owner = token then
        let local_ ← releaseVersion localStateVersion
        let w ← .get
        ask (.leaseWrite (.release r)
          (releasedRecord r (local_ ≤ flushedVersion.getD local_) local_ w.clock))
      else pure ()).rescue fun _ => .done ()

/-- The pagehide path: a write built from our last record, issued before the page
dies, that nobody awaits. -/
def releaseSyncKeepalive (token : String) (localStateVersion flushedVersion : Nat) :
    Roam Unit := do
  stopHeartbeat token
  let w ← .get
  match (w.pages token).lastWritten with
  | none => pure ()
  | some last =>
    (ask (.leaseWrite (.keepalive last)
      (releasedRecord last (localStateVersion ≤ flushedVersion) localStateVersion
        w.clock))).rescue fun _ => .done ()

/-- What an ack adds to the record it finds. -/
def ackedRecord (record : RoamingLeaseRecord) (token : String) (flushedVersion now : Nat) :
    RoamingLeaseRecord :=
  { record with
    seq := record.seq + 1
    handoffAck := some { from_ := token, flushedVersion, at_ := now } }

/-- Evicted holder's post-flush ack, merged into the current record. -/
def writeHandoffAck (token : String) (flushedVersion : Nat) : Roam Unit :=
  (do
    let record : Option RoamingLeaseRecord ← ask (.leaseRead .ack)
    match record with
    | none => pure ()
    | some r =>
      let w ← .get
      ask (.leaseWrite (.ack r) (ackedRecord r token flushedVersion w.clock))).rescue
    fun _ => .done ()

end LibreWallet.Roaming
