import LibreWallet.Roaming.Lease

/-
  Roaming/Session.lean --- the session's boot, takeover, restore and close.

  Mirrors the class `RoamingSession` of
  `wallet-core/src/roaming/roaming-session.ts`, with the ports that
  `createEmbedSession` supplies (`flushTracked` of `session-wiring.ts` is
  `flushBackup`).  The state that each method returns is the page's view.
-/

set_option autoImplicit false

namespace LibreWallet.Roaming

open Async Controller

/-- `set`: show a view. -/
def setView (token : String) (view : View) : Roam Unit :=
  updatePage token fun p => { p with view }

/-- `leaseFailureState`. -/
def leaseFailureState (token : String) : Err → Roam Unit
  | .held origin expiresAt => setView token (.blocked origin expiresAt)
  | .unreachable _ => setView token .paused
  | .other message => setView token (.halted .startFailed message none)

/-- The text of the unproven-handoff halt. -/
def unprovenHandoffMsg (staleOrigin : String) : String :=
  s!"This wallet's last session on {staleOrigin} didn't finish saving to the cloud. " ++
    s!"Open {staleOrigin} once so it can sync, then come back here."

/-- `unprovenHandoffHalt`. -/
def unprovenHandoffHalt (staleOrigin : String) : View :=
  .halted .versionGap (unprovenHandoffMsg staleOrigin) (some staleOrigin)

/-- `flushTracked`: the version is read before the export. -/
def flushTracked (token : String) : Roam Nat := do
  let local_ ← ask .readLocal
  let envelope ← ask .exportBackup
  ask (.uploadBackup envelope)
  updatePage token fun p =>
    { p with flushedVersion := max p.flushedVersion local_.stateVersion }
  pure local_.stateVersion

/-- Stop the node because we can no longer prove we hold the lease. -/
def selfFence (token : String) : Roam Unit := do
  let w ← .get
  if (w.pages token).disposed then pure ()
  else
    stopHeartbeat token
    let _ ← (ask .stopNode).attempt
    setView token .paused

/-- The node runs: start the heartbeat and show it. -/
def nowRunning (token : String) : Roam Unit := do
  startHeartbeat token
  setView token .running

/-- `startGuarded`: the second confirmation read, then the start, which a restore
has done already. -/
def startGuarded (token : String) (skipStart : Bool) : Roam Unit := do
  setView token .starting
  let w ← .get
  let confirmed ← (do
    ask (.delayUntil (w.clock + CONFIRM_READ_MS))
    confirmStillOurs token).attempt
  match confirmed with
  | .error e => if skipStart then selfFence token else leaseFailureState token e
  | .ok () =>
    if skipStart then nowRunning token
    else
      let started ← (ask .startNode).attempt
      match started with
      | .error e => setView token (.halted .startFailed e.message none)
      | .ok () => nowRunning token

/-- The backup's version, which only a secret can read. -/
def readBackupVersion (backup : Option Envelope) (secret : Option String) :
    Roam (Option Nat) :=
  match backup, secret with
  | some envelope, some secret => do
    let v ← ask (.verifyEnvelope envelope secret)
    pure (if v.ok then v.stateVersion else none)
  | _, _ => pure none

/-- The inputs of the boot decision: the records this session holds and the clock,
as they are when it decides. -/
def bootInputs (w : World) (token : String) (local_ : LocalInfo) (backup : Option Envelope)
    (backupVersion : Option Nat) : RoamingBootInputs where
  lease := (w.pages token).preClaimRecord
  postClaimLease := (w.pages token).postClaimRecord
  ownerToken := token
  now := w.clock
  leaseClaimed := true
  backupPresent := backup.isSome
  backupStateVersion := backupVersion
  localSeedPresent := local_.seedPresent
  localStateVersion := local_.stateVersion
  override := (w.pages token).overrideUnprovenHandoff

/-- Note an evaluation of the handoff proof. -/
def noteEvaluated (token : String) (inputs : HandoffProofInputs) : Roam Unit :=
  .modify fun w => w.note (.evaluated token inputs)

/-- The part of `continueAfterLeaseGate` past the claim: proof gate, then
local-or-backup routing. -/
def routeClaimed (token : String) (local_ : LocalInfo) (backup : Option Envelope)
    (backupVersion : Option Nat) : Roam Unit := do
  let w ← .get
  let inputs := bootInputs w token local_ backup backupVersion
  if inputs.gateNow then noteEvaluated token inputs.toHandoffProofInputs
  match roamingBootDecision inputs with
  | .blocked origin expiresAt => setView token (.blocked origin expiresAt)
  | .haltVersionGap staleOrigin _ => setView token (unprovenHandoffHalt staleOrigin)
  | .setupNeeded => setView token .setupNeeded
  | .restoreIntoEmpty =>
    updatePage token fun p => { p with pendingRestoreEnvelope := backup, view := .needSecret }
  | .start => startGuarded token false

/-- `continueAfterLeaseGate`, with the lease claimed. -/
def continueClaimed (token : String) : Roam Unit := do
  let read ← (do
    let local_ ← ask .readLocal
    let backup ← ask .fetchBackup
    pure (local_, backup)).attempt
  match read with
  | .error _ => setView token .paused
  | .ok (local_, backup) =>
    let backupVersion ← readBackupVersion backup local_.seedHex
    routeClaimed token local_ backup backupVersion

/-- The boot flow, from cold. -/
def boot (token : String) : Roam Unit := do
  setView token .checking
  let peeked ← (peek token .bootPeek).attempt
  match peeked with
  | .error _ => setView token .paused
  | .ok (record, state) =>
    updatePage token fun p => { p with preClaimRecord := record }
    match record, state with
    | some r, .foreignLive => setView token (.blocked r.origin r.expiresAt)
    | _, _ =>
      let claimed ← (acquire token false).attempt
      match claimed with
      | .error e => leaseFailureState token e
      | .ok _ => continueClaimed token

/-- The poll of a takeover; `polls` bounds how many are made. -/
def pollTakeover (token previousOwner : String) (claimedAt : Nat) : Nat → Roam Unit
  | 0 => pure ()
  | polls + 1 => do
    let w ← .get
    setView token (.moving (w.clock - claimedAt))
    let peeked ← (peek token .poll).attempt
    let record : Option RoamingLeaseRecord :=
      match peeked with
      | .ok (record, _) => record
      | .error _ => none
    let w ← .get
    match takeoverMayProceed record token previousOwner claimedAt w.clock TAKEOVER_WAIT_MS with
    | .lost =>
      updatePage token fun p =>
        { p with
          preClaimRecord := record
          view := .blocked ((record.map (·.origin)).getD "another origin")
            ((record.map (·.expiresAt)).getD w.clock) }
    | .acked | .timeout =>
      updatePage token fun p => { p with postClaimRecord := record }
      continueClaimed token
    | .waiting =>
      ask (.delayUntil (w.clock + TAKEOVER_POLL_MS))
      pollTakeover token previousOwner claimedAt polls

/-- "Move wallet here": claim over the live holder and wait for its flush. -/
def moveHere (token : String) (polls : Nat) : Roam Unit := do
  let w ← .get
  match (w.pages token).view with
  | .blocked _ _ =>
    let previousOwner := ((w.pages token).preClaimRecord.map (·.owner)).getD ""
    let claimed ← (acquire token true).attempt
    match claimed with
    | .error e => leaseFailureState token e
    | .ok _ => pollTakeover token previousOwner w.clock polls
  | _ => pure ()

/-- The inputs of the deferred half of the proof gate. -/
def secretInputs (w : World) (token : String) (v : Verification) : HandoffProofInputs where
  lease := (w.pages token).preClaimRecord
  postClaimLease := (w.pages token).postClaimRecord
  backupStateVersion := v.stateVersion
  localSeedPresent := false
  localStateVersion := 0
  override := (w.pages token).overrideUnprovenHandoff

/-- Restore a proven backup; `restore` starts the node. -/
def restoreProven (token : String) (envelope : Envelope) (secret : String) : Roam Unit := do
  let restored ← (ask (.restore envelope secret)).attempt
  match restored with
  | .error e => setView token (.halted .restoreFailed e.message none)
  | .ok () =>
    updatePage token fun p => { p with pendingRestoreEnvelope := none }
    startGuarded token true

/-- The user's recovery phrase or seed for a fresh-origin restore. -/
def submitSecret (token secret : String) : Roam Unit := do
  let w ← .get
  match (w.pages token).view, (w.pages token).pendingRestoreEnvelope with
  | .needSecret, some envelope =>
    let v ← ask (.verifyEnvelope envelope secret)
    if v.ok then
      let w ← .get
      let inputs := secretInputs w token v
      noteEvaluated token inputs
      match evaluateHandoffProof inputs with
      | .unproven staleOrigin _ _ => setView token (unprovenHandoffHalt staleOrigin)
      | .proven _ => restoreProven token envelope secret
    else setView token .needSecret
  | _, _ => pure ()

/-- The escape hatch behind an unproven-handoff halt. -/
def forceRestoreAnyway (token : String) : Roam Unit := do
  let w ← .get
  match (w.pages token).view with
  | .halted _ _ (some _) =>
    updatePage token fun p => { p with overrideUnprovenHandoff := true }
    clearPredecessor token
    let w ← .get
    if (w.pages token).pendingRestoreEnvelope.isSome then setView token .needSecret
    else continueClaimed token
  | _ => pure ()

/-- The flush and ack of an eviction: flush only where local is ahead of the backup. -/
def flushAndAck (token : String) : Roam Unit := do
  let local_ ← ask .readLocal
  let envelope ← ask .fetchBackup
  let version ← readBackupVersion envelope local_.seedHex
  if version.getD 0 < local_.stateVersion then
    let flushed ← flushTracked token
    writeHandoffAck token flushed
  else writeHandoffAck token local_.stateVersion

/-- Another origin claimed the wallet: stop, flush if ahead, ack. -/
def onEvicted (token : String) (claimant : Option RoamingLeaseRecord) : Roam Unit := do
  let w ← .get
  if (w.pages token).disposed then pure ()
  else
    let _ ← (ask .stopNode).attempt
    let _ ← (flushAndAck token).attempt
    setView token (.movedAway ((claimant.map (·.origin)).getD "another device"))

/-- What a failed heartbeat does: fence once the failures span the lease window. -/
def tickFailed (token : String) : Roam Unit := do
  let fenced ← noteFailure token
  if fenced then selfFence token else pure ()

/-- One heartbeat: read first, then renew.  The handlers are the session's. -/
def tick (token : String) : Roam Unit := do
  let w ← .get
  if (w.pages token).fenced then pure ()
  else
    let read ← (ask (.leaseRead .tick)).attempt
    match read with
    | .error _ => tickFailed token
    | .ok record =>
      match heartbeatDecision record token with
      | .evicted =>
        stopHeartbeat token
        onEvicted token record
      | .renew =>
        let written ← (writeOurRecord token .tick record).attempt
        match written with
        | .error _ => tickFailed token
        | .ok _ => updatePage token fun p => { p with firstFailureAt := none }

/-- What `dispose` does for a session that ran: stop, final flush, release. -/
def disposeRunning (token : String) : Roam Unit := do
  ask .stopNode
  let flushedVersion ← flushTracked token
  let local_ ← ask .readLocal
  release token (some local_.stateVersion) (some flushedVersion)

/-- Clean shutdown. -/
def dispose (token : String) : Roam Unit := do
  updatePage token fun p => { p with disposed := true, heartbeatTimer := none }
  let w ← .get
  let _ ← (if (w.pages token).view = .running then disposeRunning token
    else release token none none).attempt
  setView token .stopped

end LibreWallet.Roaming
