import LibreWallet.Async.System
import LibreWallet.Roaming.Policy
import Mathlib.Data.List.Basic
import Mathlib.Logic.Function.Basic

/-
  Pwa/LeaseKeeper.lean --- the wallet app's keeper of the roaming lease.

  Mirrors `createPwaLeaseKeeper` of `wallet-pwa/src/core/pwa-lease.ts`, and `acquire`, `tick`,
  `release` and `writeHandoffAck` of `wallet-core/src/roaming/drive-lease.ts` as the keeper uses
  them, await by await.  Every `RoamingLease` object the keeper makes has a number, and `token`
  gives the random owner token of each.  A request is answered first and its caller goes on
  later, so that any other call may come in between.  The environment starts and stops the node,
  connects Drive, writes the lease file for other origins, fires heartbeats, and answers or
  rejects whatever is awaited.
-/

set_option autoImplicit false

namespace LibreWallet.Pwa

open Async Roaming

/-! ## What the keeper awaits -/

inductive Request where
  /-- The controller's state, or the settle delay. -/
  | promise
  | readFile
  | writeFile (record : RoamingLeaseRecord)
  /-- Of a fence, or after an outage. -/
  | stopNode (fence : Bool)
  /-- `localStateVersion` and `driveBackupVersion`, which answer 0 where they cannot read. -/
  | versions
  /-- The call has ended. -/
  | nothing
  deriving DecidableEq, Repr

inductive Answer where
  | rejected
  | resolved
  | record (r : Option RoamingLeaseRecord)
  | versions (localStateVersion driveBackupVersion : Nat)
  deriving DecidableEq, Repr

namespace Answer

def localStateVersion : Answer → Nat
  | versions n _ => n
  | _ => 0

def driveBackupVersion : Answer → Nat
  | versions _ m => m
  | _ => 0

end Answer

/-! ## `RoamingLease` and its calls -/

structure RoamingLease where
  /-- `heartbeatTimer` is set. -/
  heartbeat : Bool := false
  firstFailureAt : Option Nat := none
  fenced : Bool := false
  deriving DecidableEq, Repr

/-- Where `fence` waits. -/
inductive FenceStage where
  | stopNode
  /-- The two versions, and the upload of a backup that is behind. -/
  | flush
  | ackRead (version : Nat)
  | ackWrite (record : RoamingLeaseRecord)
  deriving DecidableEq, Repr

/-- Where `claimAndHeartbeat` waits. -/
inductive ClaimStage where
  | getState
  | peek
  | fence (stage : FenceStage)
  | acquirePeek
  | acquireVersion (previous : Option RoamingLeaseRecord) (now : Nat)
  | acquireWrite (record : RoamingLeaseRecord)
  | settleDelay
  | settlePeek
  deriving DecidableEq, Repr

/-- Where any other call waits. -/
inductive CallStage where
  | tickRead
  | tickVersion (previous : Option RoamingLeaseRecord) (now : Nat)
  | tickWrite (record : RoamingLeaseRecord)
  | fence (stage : FenceStage)
  | outageStop
  | releaseVersions
  | releaseRead (localStateVersion flushedVersion : Nat)
  | releaseWrite (record : RoamingLeaseRecord)
  | done
  deriving DecidableEq, Repr

def FenceStage.request : FenceStage → Request
  | stopNode => .stopNode true
  | flush => .versions
  | ackRead _ => .readFile
  | ackWrite record => .writeFile record

def ClaimStage.request : ClaimStage → Request
  | getState | settleDelay => .promise
  | peek | acquirePeek | settlePeek => .readFile
  | fence stage => stage.request
  | acquireVersion _ _ => .versions
  | acquireWrite record => .writeFile record

def CallStage.request : CallStage → Request
  | tickRead | releaseRead _ _ => .readFile
  | tickVersion _ _ | releaseVersions => .versions
  | tickWrite record | releaseWrite record => .writeFile record
  | fence stage => stage.request
  | outageStop => .stopNode false
  | done => .nothing

section

variable (ownerToken origin : String) (now : Nat)

/-- `buildLeaseRecord` with the options of the keeper. -/
def ourRecord (previous : Option RoamingLeaseRecord) (heartbeatStateVersion : Nat) :
    RoamingLeaseRecord :=
  buildLeaseRecord
    { ownerToken, origin, appName := some "libre-wallet-pwa", now, previous, heartbeatStateVersion }

/-- `fence` goes on; `none` when it has ended.  A rejected stop does not keep it from its flush. -/
def FenceStage.next : FenceStage → Answer → Option FenceStage
  | stopNode, _ => some .flush
  | flush, .versions version _ => some (.ackRead version)
  | ackRead version, .record (some r) =>
    some (.ackWrite { r with
      seq := r.seq + 1
      handoffAck := some { from_ := ownerToken, flushedVersion := version, at_ := now } })
  | _, _ => none

/-- What `claimAndHeartbeat` comes to. -/
inductive ClaimNext where
  | awaits (stage : ClaimStage)
  /-- The candidate is the lease. -/
  | holds
  | ends
  deriving DecidableEq, Repr

def ClaimStage.next : ClaimStage → Answer → ClaimNext
  | getState, .resolved => .awaits .peek
  | peek, .record r =>
    if leaseState r ownerToken now = .foreignLive then .awaits (.fence .stopNode)
    else .awaits .acquirePeek
  | fence stage, a =>
    match stage.next ownerToken now a with
    | some stage => .awaits (.fence stage)
    | none => .ends
  | acquirePeek, .record r =>
    if leaseState r ownerToken now = .foreignLive then .ends else .awaits (.acquireVersion r now)
  | acquireVersion previous at_, a =>
    .awaits (.acquireWrite (ourRecord ownerToken origin at_ previous a.localStateVersion))
  | acquireWrite _, .resolved => .awaits .settleDelay
  | settleDelay, .resolved => .awaits .settlePeek
  | settlePeek, .record r => if leaseState r ownerToken now = .ours then .holds else .ends
  | _, _ => .ends

/-- What any other call comes to. -/
inductive CallNext where
  | awaits (stage : CallStage)
  | renewed
  /-- `noteFailure` -/
  | failed
  | evicted
  /-- `release` of the lease object stops its heartbeat before it reads. -/
  | releases (localStateVersion flushedVersion : Nat)
  deriving DecidableEq, Repr

def CallStage.next : CallStage → Answer → CallNext
  | tickRead, .record r =>
    match heartbeatDecision r ownerToken with
    | .evicted => .evicted
    | .renew => .awaits (.tickVersion r now)
  | tickVersion previous at_, a =>
    .awaits (.tickWrite (ourRecord ownerToken origin at_ previous a.localStateVersion))
  | tickWrite _, .resolved => .renewed
  | tickRead, _ | tickWrite _, _ => .failed
  | fence stage, a =>
    match stage.next ownerToken now a with
    | some stage => .awaits (.fence stage)
    | none => .awaits .done
  | releaseVersions, a => .releases a.localStateVersion a.driveBackupVersion
  | releaseRead localStateVersion flushedVersion, .record (some r) =>
    if r.owner ≠ ownerToken then .awaits .done
    else
      let clean := decide (localStateVersion ≤ flushedVersion)
      .awaits (.releaseWrite { r with
        seq := r.seq + 1
        expiresAt := if clean then now else r.expiresAt
        phase := if clean then .released else .live
        heartbeatStateVersion := localStateVersion })
  | _, _ => .awaits .done

end

/-- A call on behalf of a lease object, and the answer it has not seen yet. -/
structure Call (Stage : Type) where
  lease : Nat
  stage : Stage
  reply : Option Answer := none
  deriving DecidableEq, Repr

/-! ## The keeper and its surroundings -/

structure State where
  running : Bool := false
  connected : Bool
  /-- The events of the controller that the keeper has not seen yet. -/
  due : Nat := 0
  /-- The node was stopped by a fence and has not been started since. -/
  fenced : Bool := false
  clock : Nat := 0
  file : Option RoamingLeaseRecord
  lease : Option Nat := none
  /-- `claiming`, and where the claim is. -/
  claim : Option (Call ClaimStage) := none
  leases : Nat → RoamingLease := fun _ => {}
  /-- How many lease objects there are. -/
  made : Nat := 0
  calls : List (Call CallStage) := []

namespace State

/-- The node runs with Drive connected. -/
def wanted (s : State) : Bool := s.running && s.connected

def modify (s : State) (l : Nat) (f : RoamingLease → RoamingLease) : State :=
  { s with leases := Function.update s.leases l (f (s.leases l)) }

def stopHeartbeat (s : State) (l : Nat) : State := s.modify l fun o => { o with heartbeat := false }

def invoke (s : State) (l : Nat) (stage : CallStage) : State :=
  { s with calls := s.calls ++ [{ lease := l, stage }] }

def put (s : State) (k : Nat) (c : Call CallStage) : State := { s with calls := s.calls.set k c }

end State

/-- `claimAndHeartbeat` up to its first await. -/
def claimAndHeartbeat (s : State) : State :=
  if s.claim.isSome || s.lease.isSome then s
  else { s with claim := some { lease := s.made, stage := .getState }, made := s.made + 1 }

/-- `release` of the keeper up to its first await. -/
def release (s : State) : State :=
  match s.lease with
  | none => s
  | some l => { s with lease := none }.invoke l .releaseVersions

def onEvent (s : State) : State :=
  if s.running then if s.connected then claimAndHeartbeat s else s else release s

/-- The keeper's `onEvicted`: the lease it holds is the one that is fenced. -/
def onEvicted (s : State) : State :=
  match s.lease with
  | none => s
  | some l => { s with lease := none }.invoke l (.fence .stopNode)

/-- The keeper's `onOutageFence`. -/
def onOutageFence (l : Nat) (s : State) : State := { s with lease := none }.invoke l .outageStop

/-- The failures of a lease object have lasted too long. -/
def outage (s : State) (l : Nat) : Bool :=
  shouldSelfFenceOnOutage (some ((s.leases l).firstFailureAt.getD s.clock)) s.clock

def noteFailure (l : Nat) (s : State) : State :=
  let s' := s.modify l fun o => { o with firstFailureAt := some (o.firstFailureAt.getD s.clock) }
  if outage s l then
    onOutageFence l ((s'.modify l fun o => { o with fenced := true }).stopHeartbeat l)
  else s'

/-! ## Steps -/

/-- How what is awaited ends: with the versions it read, if any; a write may land all the same. -/
inductive Outcome where
  | resolves (localStateVersion driveBackupVersion : Nat)
  | rejects (landed : Bool)
  deriving DecidableEq, Repr

/-- The node stops, by a fence or for another reason. -/
def State.nodeStops (s : State) (fence : Bool) : State :=
  if s.running then { s with running := false, due := s.due + 1, fenced := fence } else s

/-- A request is answered. -/
def answer (s : State) : Request → Outcome → Answer × State
  | .readFile, .resolves _ _ => (.record s.file, s)
  | .writeFile record, .resolves _ _ => (.resolved, { s with file := some record })
  | .writeFile record, .rejects true => (.rejected, { s with file := some record })
  | .stopNode fence, .resolves _ _ => (.resolved, s.nodeStops fence)
  | .versions, .resolves n m => (.versions n m, s)
  | _, .resolves _ _ => (.resolved, s)
  | _, .rejects _ => (.rejected, s)

inductive Action where
  | start
  | stop
  | drive (connected : Bool)
  /-- Any other event of the controller. -/
  | notify
  | advance (ms : Nat)
  /-- Another origin writes the lease file, or it is deleted. -/
  | foreign (file : Option RoamingLeaseRecord)
  | onEvent
  /-- A heartbeat fires. -/
  | tick (l : Nat)
  | answerClaim (o : Outcome)
  | resumeClaim
  | answerCall (k : Nat) (o : Outcome)
  | resumeCall (k : Nat)
  deriving DecidableEq, Repr

section

variable (token : Nat → String) (origin : String)

/-- The claim goes on with its answer. -/
def resumeClaim (c : Call ClaimStage) (a : Answer) (s : State) : State :=
  match c.stage.next (token c.lease) origin s.clock a with
  | .awaits stage => { s with claim := some { lease := c.lease, stage } }
  | .holds =>
    { s with claim := none, lease := some c.lease }.modify c.lease
      fun o => { o with heartbeat := true }
  | .ends => { s with claim := none }

/-- Call `k` goes on with its answer. -/
def resumeCall (k : Nat) (c : Call CallStage) (a : Answer) (s : State) : State :=
  let goOn (s : State) (stage : CallStage) : State := s.put k { lease := c.lease, stage }
  match c.stage.next (token c.lease) origin s.clock a with
  | .awaits stage => goOn s stage
  | .renewed => goOn (s.modify c.lease fun o => { o with firstFailureAt := none }) .done
  | .failed => goOn (noteFailure c.lease s) .done
  | .evicted => goOn (onEvicted (s.stopHeartbeat c.lease)) .done
  | .releases n m => goOn (s.stopHeartbeat c.lease) (.releaseRead n m)

def step : Action → State → Option State
  | .start, s =>
    if s.running then none else some { s with running := true, due := s.due + 1, fenced := false }
  | .stop, s => if s.running then some (s.nodeStops false) else none
  | .drive connected, s => some { s with connected, due := s.due + 1 }
  | .notify, s => some { s with due := s.due + 1 }
  | .advance ms, s => some { s with clock := s.clock + ms }
  | .foreign file, s => some { s with file }
  | .onEvent, s => if s.due = 0 then none else some (onEvent { s with due := s.due - 1 })
  | .tick l, s =>
    if (s.leases l).heartbeat then some (if (s.leases l).fenced then s else s.invoke l .tickRead)
    else none
  | .answerClaim o, s =>
    match s.claim with
    | some c =>
      if c.reply.isSome then none
      else
        let (a, s') := answer s c.stage.request o
        some { s' with claim := some { c with reply := some a } }
    | none => none
  | .resumeClaim, s =>
    match s.claim with
    | some c => c.reply.map fun a => resumeClaim token origin c a s
    | none => none
  | .answerCall k o, s =>
    match s.calls[k]? with
    | some c =>
      if c.reply.isSome || c.stage.request = .nothing then none
      else
        let (a, s') := answer s c.stage.request o
        some (s'.put k { c with reply := some a })
    | none => none
  | .resumeCall k, s =>
    match s.calls[k]? with
    | some c => c.reply.map fun a => resumeCall token origin k c a s
    | none => none

end

/-- A page whose node does not run yet. -/
def State.initial (connected : Bool) (file : Option RoamingLeaseRecord) : State := { connected, file }

/-! ## What the keeper is for -/

namespace State

/-- No event and no call is pending. -/
def Quiescent (s : State) : Prop := s.due = 0 ∧ s.claim = none ∧ ∀ c ∈ s.calls, c.stage = .done

/-- A call that is to stop the node and has no answer yet, other than `k`. -/
def StopPending (s : State) (k : Option Nat) : Prop :=
  ∃ j c, k ≠ some j ∧ s.calls[j]? = some c ∧ c.reply = none ∧ ∃ fence, c.stage.request = .stopNode fence

/-- Nothing is held and nothing is heartbeaten. -/
def Idle (s : State) : Prop := s.lease = none ∧ ∀ l, (s.leases l).heartbeat = false

end State

/-- The claim has written its record, as far as it knows. -/
def Call.written (c : Call ClaimStage) : Bool :=
  match c.stage with
  | .settleDelay | .settlePeek => true
  | .acquireWrite _ => c.reply = some .resolved
  | _ => false

section

variable (token : Nat → String) (origin : String)

/-- The record shows lease object `l` as the holder, or is another origin's. -/
def Shows (l : Nat) (r : RoamingLeaseRecord) : Prop :=
  (r.owner = token l ∧ r.phase = .live) ∨ ∀ k, r.owner ≠ token k

namespace State

/-- The keeper holds and heartbeats the Drive lease, unless another origin has written the file
since, which the next heartbeat sees. -/
def Holds (s : State) : Prop :=
  ∃ l, s.lease = some l ∧ (s.leases l).heartbeat = true ∧ ∀ r, s.file = some r → Shows token l r

/-- The keeper holds and heartbeats the lease if and only if the node runs with Drive connected,
or the node was fenced. -/
def Reconciled (s : State) : Prop := (s.Holds token ↔ s.wanted = true) ∨ s.fenced = true

/-- A lease object that holds the lease, or whose claim has written its record. -/
def Placed (s : State) (l : Nat) : Prop :=
  s.lease = some l ∨ ∃ c, s.claim = some c ∧ c.lease = l ∧ c.written = true

/-- If the keeper ends up without the lease, an event is due or the node is about to stop. -/
def Covered (s : State) (k : Option Nat) : Prop := s.wanted = true → 0 < s.due ∨ s.StopPending k

end State

/-- What an action must find for the keeper to reconcile. -/
def Careful : Action → State → Prop
  -- the tokens of other origins are not the keeper's
  | .foreign file, _ => ∀ r, file = some r → ∀ k, r.owner ≠ token k
  -- no lease is held when Drive is found disconnected
  | .onEvent, s => s.running = true → s.connected = false → s.lease.isSome = true → 1 < s.due
  | .resumeClaim, s => ∀ c a, s.claim = some c → c.reply = some a →
    match c.stage.next (token c.lease) origin s.clock a with
    -- the node still runs with Drive connected
    | .holds => s.wanted = true ∨ 0 < s.due
    -- a claim that fails is made again
    | .ends => s.Covered none
    | .awaits _ => True
  | .answerCall k o, s => ∀ c, s.calls[k]? = some c →
    match c.stage.request, o with
    -- no late write of a lease object that was given up
    | .writeFile r, .resolves _ _ | .writeFile r, .rejects true => ∀ l, s.Placed l → Shows token l r
    | .stopNode _, .rejects _ => s.lease = none → s.claim = none → s.Covered (some k)
    | _, _ => True
  | .resumeCall k, s => ∀ c a, s.calls[k]? = some c → c.reply = some a →
    match c.stage.next (token c.lease) origin s.clock a with
    -- no late heartbeat of such an object
    | .evicted => ∀ l, s.lease = some l → l = c.lease
    | .failed => outage s c.lease = true → ∀ l, s.lease = some l → l = c.lease
    | _ => True
  | _, _ => True

end

end LibreWallet.Pwa
