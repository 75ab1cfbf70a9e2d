import LibreWallet.Async.Machine
import LibreWallet.Roaming.Policy
import LibreWallet.Controller.WalletController
import Mathlib.Logic.Function.Basic

/-
  Roaming/World.lean --- the state that roaming sessions share, and what they await.

  One Drive folder (the lease file and the backup file), what each origin keeps,
  and every page that was opened: its controller, its lease object, its session and
  the variables of `createEmbedSession`.  A page is named by its owner token, which
  is drawn anew on every load.

  The two Drive files are kept as everything that was ever written to them, newest
  first; the contents of a file are its newest write.
-/

set_option autoImplicit false

namespace LibreWallet.Roaming

open Controller

/-! ## Errors, views, sites -/

/-- `RoamingLeaseHeldError`, `LeaseUnreachableError`, and any other `Error`. -/
inductive Err where
  | held (origin : String) (expiresAt : Nat)
  | unreachable (cause : String)
  | other (message : String)
  deriving DecidableEq, Repr

def Err.message : Err → String
  | .held origin _ => s!"ROAMING_LEASE_HELD: the wallet is active on {origin}"
  | .unreachable cause => s!"ROAMING_LEASE_UNREACHABLE: {cause}"
  | .other message => message

inductive HaltReason where
  | versionGap
  | startFailed
  | restoreFailed
  deriving DecidableEq, Repr

/-- `RoamingViewState`.  The only pause reason is `"drive-unreachable"`. -/
inductive View where
  | checking
  | blocked (origin : String) (expiresAt : Nat)
  | needSecret
  | setupNeeded
  | moving (waitedMs : Nat)
  | starting
  | running
  | movedAway (origin : String)
  | halted (reason : HaltReason) (message : String) (override : Option String)
  | paused
  | stopped
  deriving DecidableEq, Repr

/-- The places of the source that read the lease file. -/
inductive ReadSite where
  | bootPeek
  | acquire
  | settle
  | poll
  | confirm
  | tick
  | clear
  | ack
  | release
  deriving DecidableEq, Repr

/-- How a record came to be written, with the record it was built from. -/
inductive WriteKind where
  /-- `writeOurRecord`: an acquire, a renewal, or `clearPredecessor`. -/
  | claim (site : ReadSite) (previous : Option RoamingLeaseRecord)
  /-- `writeHandoffAck`. -/
  | ack (base : RoamingLeaseRecord)
  /-- `release`. -/
  | release (base : RoamingLeaseRecord)
  /-- `releaseSyncKeepalive`. -/
  | keepalive (base : RoamingLeaseRecord)
  deriving DecidableEq, Repr

/-! ## Drive -/

structure Written where
  author : String
  how : WriteKind
  record : RoamingLeaseRecord
  deriving DecidableEq, Repr

/-- The Drive folder: what the lease and backup files held at first, and what was
written to them since. -/
structure Drive where
  firstLease : Option RoamingLeaseRecord
  writes : List Written := []
  firstBackup : Option Envelope
  uploads : List Envelope := []
  deriving DecidableEq, Repr

namespace Drive

/-- The contents of the lease file. -/
def lease (d : Drive) : Option RoamingLeaseRecord :=
  match d.writes with
  | [] => d.firstLease
  | x :: _ => some x.record

/-- The contents of the backup file. -/
def backup (d : Drive) : Option Envelope :=
  match d.uploads with
  | [] => d.firstBackup
  | e :: _ => some e

/-- The state_version of the backup, 0 when there is none. -/
def backupVersion (d : Drive) : Nat := (d.backup.map (·.stateVersion)).getD 0

/-- The lease file has held `r` at some time. -/
def Held (d : Drive) (r : Option RoamingLeaseRecord) : Prop :=
  r = d.firstLease ∨ ∃ x ∈ d.writes, r = some x.record

theorem held_lease (d : Drive) : d.Held d.lease := by
  cases hw : d.writes with
  | nil => exact .inl (by simp [lease, hw])
  | cons x xs => exact .inr ⟨x, by simp [hw], by simp [lease, hw]⟩

end Drive

/-! ## Pages -/

inductive PageStatus where
  | unopened
  | alive
  | closed
  deriving DecidableEq, Repr

/-- A page load of the embed. -/
structure Page where
  origin : String := ""
  appName : Option String := none
  status : PageStatus := .unopened
  /-- `WalletController.wallet` -/
  wallet : WalletState := .absent
  -- `RoamingLease`
  /-- When the heartbeat interval fires next. -/
  heartbeatTimer : Option Nat := none
  firstFailureAt : Option Nat := none
  fenced : Bool := false
  lastWritten : Option RoamingLeaseRecord := none
  -- `RoamingSession`
  view : View := .stopped
  preClaimRecord : Option RoamingLeaseRecord := none
  postClaimRecord : Option RoamingLeaseRecord := none
  overrideUnprovenHandoff : Bool := false
  pendingRestoreEnvelope : Option Envelope := none
  disposed : Bool := false
  -- `createEmbedSession`
  localVersion : Nat := 0
  flushedVersion : Nat := 0
  /-- When the debounced upload fires. -/
  syncTimer : Option Nat := none
  deriving DecidableEq, Repr

/-! ## The world -/

/-- What happened, for the properties below to speak about. -/
inductive Note where
  /-- A session called `evaluateHandoffProof`. -/
  | evaluated (token : String) (inputs : HandoffProofInputs)
  /-- A running node stopped, by a stop or because its page died. -/
  | stopped (token origin : String) (stateVersion : Nat)
  /-- A restore reached the controller. -/
  | restore (token origin : String)
  deriving DecidableEq, Repr

structure World where
  clock : Nat := 0
  drive : Drive
  origins : String → OriginStore
  pages : String → Page
  log : List Note := []

namespace World

/-- Update the page of an owner token. -/
def setPage (w : World) (token : String) (f : Page → Page) : World :=
  { w with pages := Function.update w.pages token (f (w.pages token)) }

/-- What the page of `token` keeps on disk: the store of its origin. -/
def store (w : World) (token : String) : OriginStore :=
  w.origins (w.pages token).origin

/-- What the controller of a page acts on. -/
def node (w : World) (token : String) : Node :=
  { wallet := (w.pages token).wallet, store := w.store token }

/-- Put back what the controller of a page left. -/
def setNode (w : World) (token : String) (n : Node) : World :=
  { w with
    origins := Function.update w.origins (w.pages token).origin n.store
    pages := Function.update w.pages token { w.pages token with wallet := n.wallet } }

def note (w : World) (n : Note) : World := { w with log := n :: w.log }

/-- A node that runs in the page of `token`. -/
def Runs (w : World) (token : String) : Prop := (w.pages token).wallet = .running

instance (w : World) (token : String) : Decidable (w.Runs token) :=
  inferInstanceAs (Decidable (_ = _))

section Projections

variable (w : World) (token : String) (f : Page → Page) (n : Node) (note : Note)

@[simp] theorem setPage_clock : (w.setPage token f).clock = w.clock := rfl
@[simp] theorem setPage_drive : (w.setPage token f).drive = w.drive := rfl
@[simp] theorem setPage_origins : (w.setPage token f).origins = w.origins := rfl
@[simp] theorem setPage_log : (w.setPage token f).log = w.log := rfl

@[simp] theorem setPage_self : (w.setPage token f).pages token = f (w.pages token) := by
  simp [setPage]

theorem setPage_of_ne {u : String} (h : u ≠ token) :
    (w.setPage token f).pages u = w.pages u := by
  simp [setPage, h]

theorem setPage_setPage (g : Page → Page) :
    (w.setPage token f).setPage token g = w.setPage token fun p => g (f p) := by
  simp [setPage]

@[simp] theorem setNode_clock : (w.setNode token n).clock = w.clock := rfl
@[simp] theorem setNode_drive : (w.setNode token n).drive = w.drive := rfl
@[simp] theorem setNode_log : (w.setNode token n).log = w.log := rfl

@[simp] theorem setNode_self :
    (w.setNode token n).pages token = { w.pages token with wallet := n.wallet } := by
  simp [setNode]

theorem setNode_of_ne {u : String} (h : u ≠ token) :
    (w.setNode token n).pages u = w.pages u := by
  simp [setNode, h]

theorem setNode_origins (o : String) :
    (w.setNode token n).origins o =
      if o = (w.pages token).origin then n.store else w.origins o := by
  simp only [setNode, Function.update_apply]

@[simp] theorem note_clock : (w.note note).clock = w.clock := rfl
@[simp] theorem note_drive : (w.note note).drive = w.drive := rfl
@[simp] theorem note_origins : (w.note note).origins = w.origins := rfl
@[simp] theorem note_pages : (w.note note).pages = w.pages := rfl
@[simp] theorem note_log : (w.note note).log = note :: w.log := rfl

end Projections

end World

/-! ## Requests -/

/-- The handlers and timers whose code runs in a page. -/
inductive Verb where
  | boot
  | moveHere
  | submitSecret
  | forceRestoreAnyway
  | dispose
  | closeSoon
  | releaseSync
  | tick
  | sync
  | controllerEvent
  deriving DecidableEq, Repr

/-- Who awaits a request: code of the page of `token`. -/
structure Job where
  token : String
  verb : Verb
  deriving DecidableEq, Repr

/-- What the code awaits. -/
inductive Request where
  | leaseRead (site : ReadSite)
  | leaseWrite (how : WriteKind) (record : RoamingLeaseRecord)
  | delayUntil (deadline : Nat)
  | readLocal
  | fetchBackup
  | verifyEnvelope (envelope : Envelope) (secret : String)
  | startNode
  | stopNode
  | restore (envelope : Envelope) (secret : String)
  | exportBackup
  | uploadBackup (envelope : Envelope)
  deriving DecidableEq, Repr

/-- What `ports.readLocal` returns. -/
structure LocalInfo where
  seedPresent : Bool
  stateVersion : Nat
  seedHex : Option String
  deriving DecidableEq, Repr

abbrev Answer : Request → Type
  | .leaseRead _ => Option RoamingLeaseRecord
  | .leaseWrite _ _ => Unit
  | .delayUntil _ => Unit
  | .readLocal => LocalInfo
  | .fetchBackup => Option Envelope
  | .verifyEnvelope _ _ => Verification
  | .startNode => Unit
  | .stopNode => Unit
  | .restore _ _ => Unit
  | .exportBackup => Envelope
  | .uploadBackup _ => Unit

/-- The environment's choice: the request succeeds, it fails without an effect, or
it takes effect and the answer is lost. -/
inductive Choice where
  | ok
  | fail
  | lost
  deriving DecidableEq, Repr

/-- Asynchronous code of a page. -/
abbrev Roam := Async.Proc World Request Answer Err

/-- `await` one request. -/
abbrev ask (q : Request) : Roam (Answer q) := .request q

abbrev RoamEntry := Async.Entry World Request Answer Err

/-- `readLocal` of `createEmbedSession`. -/
def localInfo (db : LocalDb) : LocalInfo where
  seedPresent := db.seed.isSome
  stateVersion := db.stateVersion
  seedHex := db.seed

/-- What `createEmbedSession` gives the controller to see the Drive backup with: it
never calls `setBackupFetcher`. -/
def embedFetched : Option Envelope := none

def driveError : Err := .other "Drive request failed"

def World.writeLease (w : World) (token : String) (how : WriteKind)
    (record : RoamingLeaseRecord) : World :=
  { w with drive := { w.drive with writes := ⟨token, how, record⟩ :: w.drive.writes } }

def World.upload (w : World) (envelope : Envelope) : World :=
  { w with drive := { w.drive with uploads := envelope :: w.drive.uploads } }

/-- The controller's verb as a request of the page. -/
def World.act (w : World) (token : String) (r : Except String Unit × Node) :
    Except Err Unit × World :=
  (r.1.mapError .other, w.setNode token r.2)

/-- How a request of the page of `token` takes effect. -/
def exec (token : String) :
    (q : Request) → Choice → World → Option (Except Err (Answer q) × World)
  | .leaseRead _, c, w =>
    some (if c = .ok then .ok w.drive.lease else .error driveError, w)
  | .leaseWrite how record, c, w =>
    some (if c = .ok then .ok () else .error driveError,
      if c = .fail then w else w.writeLease token how record)
  | .delayUntil deadline, _, w =>
    if deadline ≤ w.clock then some (.ok (), w) else none
  | .readLocal, c, w =>
    some (if c = .ok then .ok (localInfo (w.store token).db)
      else .error (.other "IndexedDB request failed"), w)
  | .fetchBackup, c, w =>
    some (if c = .ok then .ok w.drive.backup else .error driveError, w)
  | .verifyEnvelope envelope secret, _, w =>
    some (.ok (verifyBackupEnvelope envelope secret), w)
  | .startNode, c, w =>
    some (w.act token (startNode (walletStart token (c = .ok)) embedFetched (w.node token)))
  | .stopNode, c, w =>
    let (r, w') := w.act token (stopNode token (c = .ok) (w.node token))
    some (r, if w.Runs token ∧ ¬ w'.Runs token then
        w'.note (.stopped token (w.pages token).origin (w.store token).db.stateVersion)
      else w')
  | .restore envelope secret, c, w =>
    let (r, w') := w.act token (restoreWallet (walletStart token (c = .ok)) (w.node token) envelope secret)
    some (r, w'.note (.restore token (w.pages token).origin))
  | .exportBackup, c, w =>
    some (if c = .ok then (exportBackup (w.node token)).mapError .other
      else .error (.other "export failed"), w)
  | .uploadBackup envelope, c, w =>
    some (if c = .ok then .ok () else .error driveError,
      if c = .fail then w else w.upload envelope)

end LibreWallet.Roaming
