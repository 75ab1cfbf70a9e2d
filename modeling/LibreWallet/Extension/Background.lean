import LibreWallet.Async.Logic
import LibreWallet.Spending.StrictInt
import LibreWallet.Webln.PermissionStore

/-
  Extension/Background.lean --- the contexts of the browser extension and their messages.

  Mirrors the router, the approval prompts and the WebLN gate of
  `browser-extension/src/background.ts` over the permission store, with the relay of
  `content-script.ts`, the decisions of `approval/approval.ts`, `core/sender-guard.ts` and
  `wallet-core/src/webln/webln-gate.ts`.  A page, another extension or a content script may
  send a message at any time; the pages of the extension send what the user does there.  The
  service worker may be reaped at any time: its calls and its pending approvals are gone,
  the store, the open windows and the messages on their way stay.  The id of a prompt is 64
  random bits, here one that was not used before.
-/

set_option autoImplicit false

namespace LibreWallet.Extension

open Async Text
open Webln (Op Grants OriginGrant)

/-! ## Messages -/

/-- The method that a page names: one of `WEBLN_METHODS`, or another text. -/
inductive Method where
  | enable
  | isEnabled
  | getInfo
  | makeInvoice
  | sendPayment
  | keysend
  | other (name : String)
  deriving DecidableEq, Repr

/-- `isAllowedWeblnMethod` -/
def Method.isAllowed : Method → Bool
  | .other _ => false
  | _ => true

/-- The methods that the wallet host carries out for a page. -/
def Method.reachesWallet : Method → Bool
  | .getInfo | .makeInvoice | .sendPayment | .keysend => true
  | _ => false

/-- What the gate reads from a page's parameters: the amount of the invoice or of the keysend,
or none where reading it throws. -/
structure Params where
  amountSats : Option Nat
  deriving DecidableEq, Repr

/-- A control-plane command of the popup or the options page. -/
inductive Command (O : Type) where
  | listGrants
  | revokeGrant (origin : O)
  /-- The limit is `String(msg.params.spendingLimitSats ?? "")`. -/
  | setGrantLimit (origin : O) (spendingLimitSats : List Nat)
  | driveBackupNow
  | driveRestore
  /-- A command that the background answers from its own settings. -/
  | setting (name : String)
  /-- Every other command goes to the wallet host. -/
  | host (name : String)
  deriving DecidableEq, Repr

inductive Message (O : Type) where
  | weblnRequest (origin : O) (method : Method) (params : Params)
  | walletCommand (command : Command O)
  /-- `origin` is none where it is missing or empty. -/
  | approvalDecision (id : Nat) (origin : Option O) (approved : Bool) (spendingLimitSats : List Nat)
  | other
  deriving DecidableEq, Repr

/-- What the browser says of the sender of a message. -/
structure Sender where
  /-- `sender.id === chrome.runtime.id` -/
  fromExtension : Bool
  /-- `sender.url` starts with the extension's own url. -/
  extensionUrl : Bool
  deriving DecidableEq, Repr

def Sender.isFromExtensionContext (s : Sender) : Bool := s.fromExtension && s.extensionUrl

/-- The content script of a page: the url is the page's. -/
def contentScript : Sender := ⟨true, false⟩

/-- What a page posts to its own window. -/
structure PagePost where
  /-- `event.source === window` -/
  sameWindow : Bool
  /-- The `source` and `direction` of the protocol. -/
  tagged : Bool
  method : Method
  params : Params

section Code

variable {O : Type}

/-- The content script relays a WebLN request and stamps the origin of its page. -/
def relay (pageOrigin : O) (post : PagePost) : Option (Message O) :=
  if post.sameWindow && post.tagged && post.method.isAllowed then
    some (.weblnRequest pageOrigin post.method post.params)
  else none

/-! ## The state -/

structure PendingApproval (O : Type) where
  origin : O
  windowId : Option Nat := none

structure Decision where
  approved : Bool
  spendingLimitSats : Nat
  deriving DecidableEq, Repr

/-- An approval window that is open: the prompt and the origin of its url. -/
structure Prompt (O : Type) where
  windowId : Nat
  id : Nat
  origin : O

/-- A decision that an approval window has sent. -/
structure Sent (O : Type) where
  id : Nat
  origin : O
  approved : Bool
  spendingLimitSats : Nat

/-- The answer to a page's request. -/
structure Reply (O : Type) where
  origin : O
  method : Method
  ok : Bool

structure World (O : Type) where
  /-- The permission store, with what is stored. -/
  store : Webln.State O
  /-- How the calls of the store were answered, by their number. -/
  answers : Nat → Option Bool := fun _ => none
  pendingApprovals : List (Nat × PendingApproval O) := []
  /-- The promises of the prompts that are resolved. -/
  decided : Nat → Option Decision := fun _ => none
  /-- For which origin, and in which life of the worker, an id was made. -/
  asked : Nat → Option (O × Nat) := fun _ => none
  nextId : Nat := 0
  nextWindowId : Nat := 0
  /-- How often the worker was reaped. -/
  life : Nat := 0
  windows : List (Prompt O) := []
  inFlight : List (Sent O) := []
  replies : List (Reply O) := []
  /-- What the user gave: a limit to an origin, in its prompt or in the settings. -/
  consents : List (O × Nat) := []
  /-- What the pages of an origin asked for. -/
  posts : List (O × Method) := []

/-- What the wallet host is asked. -/
inductive Rpc where
  | webln (method : Method)
  | host (name : String)
  deriving DecidableEq, Repr

/-- What the background awaits. -/
inductive Request (O : Type) where
  /-- The promise of call `k` of the permission store. -/
  | store (k : Nat)
  /-- `approvalPosition` -/
  | position
  /-- `chrome.windows.create` of the approval page. -/
  | createWindow (id : Nat) (origin : O)
  /-- The promise of a prompt. -/
  | decision (id : Nat)
  /-- `callOffscreen` -/
  | rpc (rpc : Rpc)

def Request.Answer : Request O → Type
  | .store _ => Bool
  | .position => Unit
  | .createWindow _ _ => Nat
  | .decision _ => Decision
  | .rpc _ => Unit

inductive Failure where
  | notPermitted
  | denied
  | notGranted
  | unreadableAmount
  /-- `chargeIfWithinCap` threw. -/
  | refused
  | invalidLimit
  /-- The window was not opened. -/
  | noWindow
  /-- The wallet host answered with an error; whether it says that the payment may still settle. -/
  | host (settlementPending : Bool)
  deriving DecidableEq, Repr

/-- A procedure of the background. -/
abbrev Code (O α : Type) := Proc (World O) (Request O) Request.Answer Failure α

def answered (k : Nat) : Code O Bool := Proc.request (Request.store k)

def approvalPosition : Code O Unit := Proc.request Request.position

def createWindow (id : Nat) (origin : O) : Code O Nat := Proc.request (Request.createWindow id origin)

def decisionOf (id : Nat) : Code O Decision := Proc.request (Request.decision id)

def callOffscreen (rpc : Rpc) : Code O Unit := Proc.request (Request.rpc rpc)

variable [DecidableEq O]

/-- Answers of a call of the store, as it goes on with a loaded map: whether the origin is
enabled, whether the charge was admitted. -/
def verdict (now : Nat) (grants : Grants O) : Op O → Bool
  | .isEnabled origin => (grants origin).any (·.enabled)
  | .chargeIfWithinCap origin amountSats =>
    (grants origin).any fun g =>
      let g' := Webln.resetIfNewDay now g
      g.enabled &&
        !(decide (0 < g'.spendingLimitSats) &&
          decide (g'.spendingLimitSats < g'.spentTodaySats + amountSats))
  | _ => true

/-- The map with which call `k` goes on. -/
def loadedMap (s : Webln.State O) (k : Nat) : Option (Op O × Grants O) :=
  match s.calls[k]? with
  | some ⟨op, .loaded i⟩ => (s.heap[i]?).map fun grants => (op, grants)
  | _ => none

/-- A step of the permission store; its calls are begun by the background. -/
def storeStep (a : Webln.Action O) (w : World O) : Option (World O) :=
  match a with
  | .begin _ => none
  | .resume k =>
    (Webln.step (.resume k) w.store).map fun store =>
      { w with
        store
        answers := Function.update w.answers k
          ((loadedMap w.store k).map fun (op, grants) => verdict w.store.now grants op) }
  | a => (Webln.step a w.store).map fun store => { w with store }

def begun (op : Op O) (w : World O) : World O :=
  { w with store := { w.store with calls := w.store.calls ++ [{ op }] } }

/-- `await store.…` -/
def callStore (op : Op O) : Code O Bool :=
  Proc.get.bind fun w => (Proc.modify (begun op)).bind fun _ => answered w.store.calls.length

/-! ## Approval prompts -/

/-- `pendingApprovals.delete(id); p.resolve(d)` -/
def settled (id : Nat) (d : Decision) (w : World O) : World O :=
  { w with
    pendingApprovals := w.pendingApprovals.filter (·.1 ≠ id)
    decided := Function.update w.decided id (some d) }

/-- A new prompt is recorded. -/
def minted (origin : O) (w : World O) : World O :=
  { w with
    pendingApprovals := w.pendingApprovals ++ [(w.nextId, { origin })]
    asked := Function.update w.asked w.nextId (some (origin, w.life))
    nextId := w.nextId + 1 }

/-- `if (p) p.windowId = win?.id` -/
def withWindow (id windowId : Nat) (w : World O) : World O :=
  { w with
    pendingApprovals := w.pendingApprovals.map fun (i, p) =>
      if i = id then (i, { p with windowId := some windowId }) else (i, p) }

/-- One prompt per origin: a second request waits for the first one's decision. -/
def requestApproval (origin : O) : Code O Decision := do
  let w ← .get
  match w.pendingApprovals.find? (·.2.origin = origin) with
  | some (id, _) => decisionOf id
  | none =>
    let id := w.nextId
    .modify (minted origin)
    approvalPosition
    let windowId ← createWindow id origin
    .modify (withWindow id windowId)
    decisionOf id

/-- `chrome.windows.onRemoved`: a closed window without a decision is a denial. -/
def onRemoved (closedId : Nat) (w : World O) : World O :=
  (w.pendingApprovals.filter (·.2.windowId = some closedId)).foldl
    (fun w p => settled p.1 ⟨false, 0⟩ w) w

def ensureEnabled (origin : O) : Code O Unit := do
  if ← callStore (.isEnabled origin) then pure ()
  else
    let decision ← requestApproval origin
    if decision.approved then pure () else .fail .denied

/-! ## The gate -/

/-- `isSettlementPending` -/
def Failure.settlementPending : Failure → Bool
  | .host pending => pending
  | _ => false

/-- A charged call of the wallet host; an error that does not say that the payment may still
settle is refunded. -/
def spend (origin : O) (method : Method) (amountSats : Nat) : Code O Bool := do
  if ← callStore (.chargeIfWithinCap origin amountSats) then
    ((callOffscreen (.webln method)).bind fun _ => pure true).rescue fun e => do
      if e.settlementPending then .fail e
      else
        let _ ← callStore (.refund origin amountSats none)
        .fail e
  else .fail .refused

/-- The end of `handleWebln`: a spending method is charged first, and is refused where its amount
cannot be read. -/
def walletMethod (origin : O) (method : Method) (params : Params) : Code O Bool :=
  match method with
  | .sendPayment | .keysend =>
    match params.amountSats with
    | none => .fail .unreadableAmount
    | some amountSats => spend origin method amountSats
  | method => (callOffscreen (.webln method)).bind fun _ => pure true

/-- What `isEnabled` answers, and true for the other methods. -/
def handleWebln (origin : O) (method : Method) (params : Params) : Code O Bool :=
  if !method.isAllowed then .fail .notPermitted
  else
    match method with
    | .enable => (ensureEnabled origin).bind fun _ => pure true
    | .isEnabled => callStore (.isEnabled origin)
    | method => do
      if ← callStore (.isEnabled origin) then walletMethod origin method params
      else .fail .notGranted

/-- `handleWebln`, and `sendResponse` with its result. -/
def answerWebln (origin : O) (method : Method) (params : Params) : Code O Unit := do
  let r ← (handleWebln origin method params).attempt
  .modify fun w => { w with replies := ⟨origin, method, r matches .ok _⟩ :: w.replies }

/-! ## The router -/

def resolveGrantOrigin (pendingOrigin msgOrigin : Option O) : Option O := pendingOrigin.or msgOrigin

def World.pendingOrigin (w : World O) (id : Nat) : Option O :=
  (w.pendingApprovals.find? (·.1 = id)).map (·.2.origin)

/-- `finish` of a decision: the grant is persisted before the prompt's promise is resolved. -/
def finish (id : Nat) (origin : Option O) (approved : Bool) (spendingLimitSats : List Nat) :
    Code O Unit := do
  let w ← .get
  let limit := if approved then Spending.resolveGrantLimitSats spendingLimitSats else none
  let granted := match resolveGrantOrigin (w.pendingOrigin id) origin, limit with
    | some target, some limit => some (target, limit)
    | _, _ => none
  match granted with
  | some (target, limit) =>
    let _ ← callStore (.grant target limit)
  | none => pure ()
  .modify fun w =>
    if (w.pendingOrigin id).isSome then settled id ⟨granted.isSome, limit.getD 0⟩ w else w

def handleCommand : Command O → Code O Unit
  | .listGrants => pure ()
  | .revokeGrant origin => do
    let _ ← callStore (.revoke origin)
  | .setGrantLimit origin spendingLimitSats =>
    match Spending.resolveGrantLimitSats spendingLimitSats with
    | none => .fail .invalidLimit
    | some limit => do
      let _ ← callStore (.grant origin limit)
  | .driveBackupNow => do
    callOffscreen (.host "exportBackup")
    callOffscreen (.host "getState")
  | .driveRestore => callOffscreen (.host "restoreWallet")
  | .setting _ => pure ()
  | .host name => callOffscreen (.host name)

/-- What a procedure was called for. -/
inductive Cause (O : Type) where
  | webln (origin : O) (method : Method)
  | command
  | decision
  | internal

/-- The life of the worker in which it was called. -/
structure Job (O : Type) where
  life : Nat
  cause : Cause O

/-- `chrome.runtime.onMessage`; none where the answer is an error at once. -/
def route (sender : Sender) : Message O → Option (Cause O × Code O Unit)
  | .weblnRequest origin method params =>
    if sender.fromExtension then some (.webln origin method, answerWebln origin method params) else none
  | .walletCommand command =>
    if sender.isFromExtensionContext then some (.command, handleCommand command) else none
  | .approvalDecision id origin approved spendingLimitSats =>
    if sender.isFromExtensionContext then
      some (.decision, finish id origin approved spendingLimitSats) else none
  | .other => none

/-! ## The machine -/

inductive Event (O : Type) where
  /-- The permission store takes a step. -/
  | store (a : Webln.Action O)
  /-- `listGrants` or another reader loads the map. -/
  | readGrants (origin : O)
  /-- A page posts to its window. -/
  | post (origin : O) (post : PagePost)
  | message (sender : Sender) (m : Message O)
  /-- The user clicks in an approval window. -/
  | click (windowId : Nat) (approved unlimited : Bool) (cap : List Nat)
  /-- A decision that was sent arrives. -/
  | deliver (n : Nat)
  /-- An approval window is closed. -/
  | close (windowId : Nat)
  /-- The icon, auto-start and the automatic backups ask the wallet host. -/
  | internal (name : String)
  | reap

/-- The worker is gone: nothing is cached, and none of its calls goes on. -/
def reaped (w : World O) : World O :=
  { w with
    life := w.life + 1
    pendingApprovals := []
    store := { w.store with
      cache := none
      calls := w.store.calls.map fun c => { c with stage := .finished } } }

/-- What the user gives by a command of the settings. -/
def consentOf : Message O → List (O × Nat)
  | .walletCommand (.setGrantLimit origin spendingLimitSats) =>
    (Spending.resolveGrantLimitSats spendingLimitSats).toList.map fun limit => (origin, limit)
  | _ => []

/-- The messages that can come from a sender without an event of their own: requests of pages
are relayed by their content script, and only the approval page sends decisions. -/
def Message.speaks (sender : Sender) : Message O → Bool
  | .weblnRequest _ _ _ => !sender.fromExtension
  | .approvalDecision _ _ _ _ => !sender.isFromExtensionContext
  | _ => true

/-- A message reaches the worker of this life. -/
def received (sender : Sender) (m : Message O) (w : World O) :
    World O × Option (Job O × Code O Unit) :=
  (w, (route sender m).map fun (cause, p) => (⟨w.life, cause⟩, p))

def event : Event O → World O → Option (World O × Option (Job O × Code O Unit))
  | .store a, w => (storeStep a w).map fun w => (w, none)
  | .readGrants origin, w => some (begun (.getGrant origin) w, none)
  | .post origin post, w =>
    (relay origin post).map fun m =>
      received contentScript m { w with posts := (origin, post.method) :: w.posts }
  | .message sender m, w =>
    if m.speaks sender then
      let consents := if sender.isFromExtensionContext then consentOf m else []
      some (received sender m { w with consents := consents ++ w.consents })
    else none
  | .click windowId approved unlimited cap, w =>
    (w.windows.find? (·.windowId = windowId)).bind fun p =>
      if approved then
        (Spending.approve unlimited cap).map fun limit =>
          ({ w with
            inFlight := ⟨p.id, p.origin, true, limit⟩ :: w.inFlight
            consents := (p.origin, limit) :: w.consents }, none)
      else some ({ w with inFlight := ⟨p.id, p.origin, false, 0⟩ :: w.inFlight }, none)
  | .deliver n, w =>
    (w.inFlight[n]?).map fun d =>
      received ⟨true, true⟩
        (.approvalDecision d.id (some d.origin) d.approved (numeral 10 d.spendingLimitSats))
        { w with inFlight := w.inFlight.eraseIdx n }
  | .close windowId, w =>
    some (onRemoved windowId { w with windows := w.windows.filter (·.windowId ≠ windowId) }, none)
  | .internal name, w => some (w, some (⟨w.life, .internal⟩, callOffscreen (.host name)))
  | .reap, w => some (reaped w, none)

/-- How a request ends: as asked, or with an error. -/
def exec (_ : Job O) (q : Request O) (c : Option Failure) (w : World O) :
    Option (Except Failure q.Answer × World O) :=
  match q with
  | .store k =>
    if (w.store.calls[k]?).any (·.isOver) then (w.answers k).map fun b => (.ok b, w) else none
  | .position => some (.ok (), w)
  | .createWindow id origin =>
    match c with
    | none =>
      some (.ok w.nextWindowId,
        { w with
          windows := ⟨w.nextWindowId, id, origin⟩ :: w.windows
          nextWindowId := w.nextWindowId + 1 })
    | some e => some (.error e, w)
  | .decision id => (w.decided id).map fun d => (.ok d, w)
  | .rpc _ =>
    match c with
    | none => some (.ok (), w)
    | some e => some (.error e, w)

def machine : Machine (World O) (Request O) Request.Answer Failure (Option Failure) (Job O) (Event O) where
  exec := exec
  event := event
  runs := fun j w => j.life = w.life

def initial (stored : Option (Grants O)) : World O := { store := Webln.initial stored }

end Code

end LibreWallet.Extension
