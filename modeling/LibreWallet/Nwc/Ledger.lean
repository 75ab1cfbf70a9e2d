import LibreWallet.Nwc.Payments

/-
  Nwc/Ledger.lean --- one pairing's connection objects, and its budget in storage.

  A request keeps the connection object that it found.  `updateConnection` puts a new object into the list, and so
  does `init` from storage, of the same manager or of the next one's; `saveConnections` writes the list as it is at
  the call.  Which promise an event of LDK settles (Nwc/Waiters.lean) is left open: any payment that is awaited
  may fail.  Deleted and pruned pairings are left out.
-/

set_option autoImplicit false

namespace LibreWallet.Nwc.Ledger

open Async Spending
open Nwc.Payments (NwcConnection Pay Stage Watch SendResult)

/-- `Partial<NwcConnection>` -/
structure Updates where
  enabled : Option Bool := none
  allowedMethods : Option (Option (List Method)) := none
  expiresAt : Option (Option Nat) := none
  spendingLimitSats : Option Nat := none
  spentTodaySats : Option Nat := none
  lastSpentTimestamp : Option Nat := none
  budgetRenewal : Option (Option BudgetRenewal) := none
  maxAmountSats : Option Nat := none
  deriving DecidableEq, Repr

/-- `{ ...c, ...updates }` -/
def Updates.spread (updates : Updates) (c : NwcConnection) : NwcConnection :=
  { c with
    enabled := updates.enabled.getD c.enabled
    allowedMethods := updates.allowedMethods.getD c.allowedMethods
    expiresAt := updates.expiresAt.getD c.expiresAt
    spendingLimitSats := updates.spendingLimitSats.getD c.spendingLimitSats
    spentTodaySats := updates.spentTodaySats.getD c.spentTodaySats
    lastSpentTimestamp := updates.lastSpentTimestamp.getD c.lastSpentTimestamp
    budgetRenewal := updates.budgetRenewal.getD c.budgetRenewal
    maxAmountSats := updates.maxAmountSats.getD c.maxAmountSats }

structure Call where
  manager : Nat
  request : Request
  pay : Pay
  /-- The request whose reservation this one waits for. -/
  prev : Option Nat := none
  /-- `reserved` is resolved. -/
  released : Bool := false
  stage : Stage := .queued
  /-- The connection object it found. -/
  object : Nat := 0
  /-- Its debit in the book. -/
  debit : Option Nat := none
  watch : Watch := .idle
  deriving DecidableEq, Repr

namespace Call

def isInvoice (c : Call) : Bool := c.request.content = .request .payInvoice

def isKeysend (c : Call) : Bool := c.request.content = .request .payKeysend

end Call

/-- A manager: the object it has of the pairing, and what its `init` has read. -/
structure Manager where
  connection : Option Nat := none
  loading : Option (Option NwcConnection) := none
  /-- `requestChains`: the last request of each client. -/
  chains : String → Option Nat := fun _ => none

structure State where
  /-- Every connection object of the pairing that there has been. -/
  objects : List NwcConnection
  managers : List Manager
  /-- The manager whose `init` was last. -/
  live : Nat := 0
  /-- `nwc_connections` -/
  stored : Option NwcConnection
  /-- The writes of it under way. -/
  saving : List (Option NwcConnection) := []
  calls : List Call := []
  book : Book := {}

namespace State

/-- The object that a manager's list has. -/
def connection (s : State) (m : Nat) : Option Nat := s.managers[m]?.bind (·.connection)

def listed (s : State) (m : Nat) : Option NwcConnection := (s.connection m).bind fun i => s.objects[i]?

/-- The pairing in force. -/
def pairing (s : State) : Option NwcConnection := s.listed s.live

def put (s : State) (k : Nat) (c : Call) : State := { s with calls := s.calls.set k c }

def spend (s : State) (i : Nat) (f : Pairing → Pairing) : State :=
  { s with objects := s.objects.modify i (·.spend f) }

def saveConnections (m : Nat) (s : State) : State := { s with saving := s.saving ++ [s.listed m] }

/-- The window of the pairing in force ends. -/
def resetBook (i : Nat) (s : State) : State :=
  { s with book := if s.connection s.live = some i then s.book.reset else s.book }

def initial (p : NwcConnection) : State where
  objects := [{ p with spentTodaySats := 0 }]
  managers := [{ connection := some 0 }]
  stored := some { p with spentTodaySats := 0 }

end State

/-! ## Requests -/

/-- `handleNwcRequest` from the gate on. -/
def handleNwcRequest (m : Nat) (request : Request) (pay : Pay) (s : State) : Option State :=
  s.managers[m]?.map fun manager =>
    { s with
      calls := s.calls ++ [{ manager := m, request, pay, prev := manager.chains request.pubkey }]
      managers := s.managers.set m
        { manager with chains := Function.update manager.chains request.pubkey (some s.calls.length) } }

/-- The gate of the request before is released. -/
def Call.turn (s : State) (c : Call) : Bool :=
  match c.prev with
  | none => true
  | some n => s.calls[n]?.any (·.released)

def answer (k : Nat) (c : Call) (s : State) : State := s.put k { c with stage := .answering }

/-- The reset before a request is dispatched. -/
def resetBudget (k : Nat) (c : Call) (now : Nat) (s : State) : State :=
  (((s.resetBook c.object).spend c.object (·.resetBudget now)).saveConnections c.manager).put k
    { c with stage := .resetting now }

def debitBudget (k : Nat) (c : Call) (spentToday now : Nat) (s : State) : State :=
  let debited := s.spend c.object (·.debitBudget spentToday c.pay.amtSats now)
  ({ debited with book := s.book.debit now c.pay.amtSats }.saveConnections c.manager).put k
    { c with stage := .debiting, debit := some s.book.debits.length }

def refundBudget (c : Call) (s : State) : State :=
  let refunded := s.spend c.object (·.refundBudget c.pay.amtSats)
  { refunded with book := c.debit.elim s.book s.book.refund }.saveConnections c.manager

/-- The checks of a pay request on its pairing. -/
def refuses (c : Call) (p : NwcConnection) (spentToday : Nat) : Bool :=
  (c.isInvoice && !c.pay.parses) || p.overCap c.pay.amtSats ||
    p.overBudget spentToday c.pay.amtSats || (c.isInvoice && !c.pay.builds)

/-- From the budget on: the check, and the debit of an invoice. -/
def checkBudget (k : Nat) (c : Call) (p : NwcConnection) (spentToday now : Nat) (s : State) : State :=
  if c.isInvoice then
    if refuses c p spentToday then answer k c s else debitBudget k c spentToday now s
  else if c.isKeysend then
    if refuses c p spentToday then answer k c s else s.put k { c with stage := .hashing spentToday now }
  else answer k c s

/-- `processNwcRequest` once the content is decrypted. -/
def dispatch (k : Nat) (c : Call) (p : NwcConnection) (now : Nat) (s : State) : State :=
  if dispatches [p.toConnection] c.request now then
    if budgetWindowElapsed p.budgetRenewal p.lastSpentTimestamp now then resetBudget k c now s
    else checkBudget k c p p.spentTodaySats now s
  else answer k c s

/-- A send that never left the wallet is refunded. -/
def undo (k : Nat) (c : Call) (s : State) : State := (refundBudget c s).put k { c with stage := .answering }

/-- A payment is handed to LDK, or is not. -/
def send (k : Nat) (c : Call) (result : SendResult) (s : State) : State :=
  match result with
  | .accepted =>
    if c.isInvoice then s.put k { c with stage := .settling, released := true, watch := .watching }
    else s.put k { c with stage := .sending }
  | .refused => undo k c s
  -- the catch of `pay_keysend` undoes this too; that of `pay_invoice` only answers
  | .threw => if c.isInvoice then answer k c s else undo k c s

/-- A call goes on after its `await`, which is `ok` or rejected. -/
def goOn (k : Nat) (c : Call) (ok : Bool) (s : State) : Option State :=
  match c.stage with
  | .resetting now =>
    s.objects[c.object]?.map fun p =>
      if ok then checkBudget k c p 0 now s else s.put k { c with stage := .ended }
  | .hashing spentToday now => some (if ok then debitBudget k c spentToday now s else answer k c s)
  | .debiting => some (if ok then s.put k { c with stage := .waiting } else answer k c s)
  | .sending => some (s.put k { c with stage := .answering, released := true, watch := .watching })
  | _ => none

/-- `awaitSettlementCharged` ends: an invoice's request is answered, a keysend's was. -/
def unwatch (k : Nat) (c : Call) (watch : Watch) (s : State) : State :=
  s.put k { c with watch, stage := if c.stage = .settling then .answering else c.stage }

/-! ## The list of connections -/

/-- `updateConnection` of this pairing. -/
def updateConnection (m : Nat) (updates : Updates) (s : State) : Option State :=
  s.managers[m]?.bind fun manager => (s.listed m).map fun p =>
    State.saveConnections m
      { s with
        objects := s.objects ++ [updates.spread p]
        managers := s.managers.set m { manager with connection := some s.objects.length } }

/-- `init` has the stored list. -/
def initRead (m : Nat) (s : State) : Option State :=
  s.managers[m]?.map fun manager =>
    { s with managers := s.managers.set m { manager with loading := some s.stored } }

/-- `init` takes the list it has read, with new objects. -/
def initDone (m : Nat) (s : State) : Option State :=
  s.managers[m]?.bind fun manager => manager.loading.map fun loaded =>
    { s with
      objects := s.objects ++ loaded.toList
      managers := s.managers.set m
        { manager with loading := none, connection := loaded.map fun _ => s.objects.length }
      live := m }

/-! ## Steps -/

inductive Action where
  | arrive (m : Nat) (request : Request) (pay : Pay)
  /-- The gate opens, and the pairing is looked up. -/
  | start (k : Nat)
  | decrypted (k now : Nat)
  | go (k : Nat) (ok : Bool)
  | send (k : Nat) (result : SendResult)
  /-- The payment settles, or fails, and its promise is awaited. -/
  | settled (k : Nat)
  | failed (k : Nat)
  | timeout (k : Nat)
  | finish (k : Nat)
  /-- `run` is settled: its `finally` releases the gate. -/
  | release (k : Nat)
  | updateConnection (m : Nat) (updates : Updates)
  /-- The list is saved for the sake of another pairing. -/
  | save (m : Nat)
  /-- A write of the list lands. -/
  | landed (i : Nat)
  /-- A write of the list fails. -/
  | lost (i : Nat)
  /-- A new wallet, and so a new manager. -/
  | restart
  | initRead (m : Nat)
  | initDone (m : Nat)
  deriving DecidableEq, Repr

/-- What an action does to call `k`. -/
def moves (s : State) (k : Nat) (c : Call) : Action → Option State
  | .start _ =>
    if c.stage = .queued ∧ c.turn s = true then
      match s.connection c.manager, s.listed c.manager with
      | some i, some p =>
        some (s.put k (if p.clientPubkey = c.request.pubkey ∧ p.enabled = true then
          { c with stage := .decrypting, object := i } else { c with stage := .ended }))
      | _, _ => some (s.put k { c with stage := .ended })
    else none
  | .decrypted _ now =>
    if c.stage = .decrypting then s.objects[c.object]?.map fun p => dispatch k c p now s else none
  | .go _ ok => goOn k c ok s
  | .send _ result => if c.stage = .waiting then some (send k c result s) else none
  | .settled _ => if c.watch = .watching then some (unwatch k c .settled s) else none
  | .failed _ => if c.watch = .watching then some (unwatch k c .refunded (refundBudget c s)) else none
  | .timeout _ => if c.watch = .watching then some (unwatch k c .timedOut s) else none
  | .finish _ => if c.stage = .answering then some (s.put k { c with stage := .ended }) else none
  | .release _ => if c.stage = .ended ∧ c.released = false then some (s.put k { c with released := true }) else none
  | _ => none

namespace Action

/-- The call an action is about. -/
def call : Action → Option Nat
  | .start k | .decrypted k _ | .go k _ | .send k _ | .settled k | .failed k | .timeout k | .finish k
  | .release k => some k
  | _ => none

def step (a : Action) (s : State) : Option State :=
  match a with
  | .arrive m request pay => handleNwcRequest m request pay s
  | .updateConnection m updates => Ledger.updateConnection m updates s
  | .save m => if m < s.managers.length then some (s.saveConnections m) else none
  | .landed i => s.saving[i]?.map fun list => { s with stored := list, saving := s.saving.eraseIdx i }
  | .lost i => if i < s.saving.length then some { s with saving := s.saving.eraseIdx i } else none
  | .restart => some { s with managers := s.managers ++ [{}] }
  | .initRead m => Ledger.initRead m s
  | .initDone m => Ledger.initDone m s
  | a => a.call.bind fun k => s.calls[k]?.bind fun c => moves s k c a

end Action

end LibreWallet.Nwc.Ledger
