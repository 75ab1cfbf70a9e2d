import LibreWallet.Async.System
import LibreWallet.Nwc.Budget
import LibreWallet.Nwc.Requests
import LibreWallet.Spending.Sends
import Mathlib.Data.List.Basic

/-
  Nwc/Payments.lean --- the pay requests of `NwcManager`, stage by stage.

  Mirrors `handleNwcRequest` from the gate on, `processNwcRequest` with `pay_invoice` and
  `pay_keysend`, and the two handlers of LDK's events, all of
  `libre-listener-wallet/src/nwc-manager.ts`.  A call is a request that has passed the gate's
  filters; `stage` says where it waits.  Call `k` is the `k`-th to arrive, and its payment is
  the one it hands to LDK.  `pendingPayments`, `paymentContexts` and the payment log are keyed
  by the payment hash.
-/

set_option autoImplicit false

namespace LibreWallet.Nwc.Payments

open Async
open Spending.Sends (Status notePending recordSent recordFailed)

/-! ## Pairings and requests -/

structure NwcConnection extends Connection, Pairing where
  /-- 0 for no per-payment cap. -/
  maxAmountSats : Nat := 0
  deriving DecidableEq, Repr

namespace NwcConnection

/-- The per-payment cap would be exceeded. -/
def overCap (p : NwcConnection) (amtSats : Nat) : Bool :=
  0 < p.maxAmountSats && p.maxAmountSats < amtSats

def spend (p : NwcConnection) (f : Pairing → Pairing) : NwcConnection :=
  { p with toPairing := f p.toPairing }

end NwcConnection

/-- What a pay request asks for. -/
structure Pay where
  hash : Nat
  amtSats : Nat
  /-- The invoice is valid and has an amount. -/
  parses : Bool := true
  /-- LDK builds its payment parameters from the invoice. -/
  builds : Bool := true
  deriving DecidableEq, Repr

/-- Where a call waits. -/
inductive Stage where
  /-- For the reservation of the request before it. -/
  | queued
  /-- `nip04.decrypt` -/
  | decrypting
  /-- `saveConnections` after the window was reset. -/
  | resetting (now : Nat)
  /-- `crypto.subtle.digest` of a keysend. -/
  | hashing (spentToday now : Nat)
  /-- `saveConnections` after the debit. -/
  | debiting
  /-- `waitForUsableChannel`, or `sendKeysendPayment` before it has handed the payment over. -/
  | waiting
  /-- `sendKeysendPayment` once it has. -/
  | sending
  /-- `awaitSettlementCharged` of an invoice. -/
  | settling
  /-- The response is published. -/
  | answering
  | ended
  deriving DecidableEq, Repr

inductive Waiter where
  | unsettled
  | resolved
  | rejected
  deriving DecidableEq, Repr

/-- The debit of a call. -/
inductive Charge where
  | notMade
  | kept
  | refunded
  deriving DecidableEq, Repr

/-- `awaitSettlementCharged` -/
inductive Watch where
  | idle
  | watching
  | settled
  | refunded
  | timedOut
  deriving DecidableEq, Repr

structure Call where
  request : Request
  pay : Pay
  /-- The request whose reservation this one waits for. -/
  prev : Option Nat := none
  /-- `reserved` is resolved. -/
  released : Bool := false
  /-- Its `finally` has run. -/
  drained : Bool := false
  stage : Stage := .queued
  /-- The budget was checked. -/
  checked : Bool := false
  charge : Charge := .notMade
  waiter : Waiter := .unsettled
  watch : Watch := .idle
  /-- What LDK has of its payment. -/
  payment : Option Status := none
  /-- The payment came to an outcome after the timeout. -/
  late : Bool := false
  deriving DecidableEq, Repr

namespace Call

def client (c : Call) : String := c.request.pubkey

def isInvoice (c : Call) : Bool := c.request.content = .request .payInvoice

def isKeysend (c : Call) : Bool := c.request.content = .request .payKeysend

end Call

/-! ## What the requests share -/

structure Shared where
  connections : String → Option NwcConnection
  /-- `pendingPayments`: the call whose promise an entry settles. -/
  waiters : Nat → Option Nat := fun _ => none
  /-- `paymentContexts`: the call whose client is notified. -/
  contexts : Nat → Option Nat := fun _ => none
  /-- The payment log. -/
  log : Nat → Option Status := fun _ => none

namespace Shared

def spend (sh : Shared) (client : String) (f : Pairing → Pairing) : Shared :=
  { sh with
    connections := Function.update sh.connections client ((sh.connections client).map (·.spend f)) }

/-- The waiter and the notification context of call `k`. -/
def register (sh : Shared) (hash k : Nat) : Shared :=
  { sh with
    waiters := Function.update sh.waiters hash (some k)
    contexts := Function.update sh.contexts hash (some k) }

/-- Both entries are deleted. -/
def forget (sh : Shared) (hash : Nat) : Shared :=
  { sh with
    waiters := Function.update sh.waiters hash none
    contexts := Function.update sh.contexts hash none }

def note (sh : Shared) (hash : Nat) : Shared := { sh with log := notePending hash sh.log }

def finalize (sh : Shared) (f : (Nat → Option Status) → Nat → Option Status) : Shared :=
  { sh with log := f sh.log }

/-- The spent counter of a client's pairing. -/
def spent (sh : Shared) (client : String) : Option Nat :=
  (sh.connections client).map (·.spentTodaySats)

/-- The log has a pending record of the hash. -/
def pending (sh : Shared) (hash : Nat) : Bool := sh.log hash = some .pending

end Shared

structure State where
  shared : Shared
  /-- The same, had call `k` done nothing. -/
  without : Nat → Shared
  calls : List Call := []
  /-- `requestChains`: the tail of each client's queue. -/
  chains : String → Option Nat := fun _ => none
  /-- The notifications of settled payments: whose context, and whose payment. -/
  notified : List (Nat × Nat) := []

namespace State

def put (s : State) (k : Nat) (c : Call) : State := { s with calls := s.calls.set k c }

/-- The shared state changes, on behalf of call `k` or with the time. -/
def emit (s : State) (k : Option Nat) (f : Shared → Shared) : State :=
  { s with
    shared := f s.shared
    without := fun j => if k = some j then s.without j else f (s.without j) }

def initial (shared : Shared) : State := { shared, without := fun _ => shared }

end State

/-! ## The calls -/

/-- `handleNwcRequest` from the gate on. -/
def handleNwcRequest (request : Request) (pay : Pay) (s : State) : State :=
  { s with
    calls := s.calls ++ [{ request, pay, prev := s.chains request.pubkey }]
    chains := Function.update s.chains request.pubkey (some s.calls.length) }

/-- The gate of the request before is released. -/
def Call.turn (s : State) (c : Call) : Bool :=
  match c.prev with
  | none => true
  | some n => s.calls[n]?.any (·.released)

/-- The response is on its way, and nothing else of the request is to come. -/
def answer (k : Nat) (c : Call) (s : State) : State := s.put k { c with stage := .answering }

/-- The waiter and the context are set, the record of an invoice is noted, and the budget is
debited. -/
def reserved (k : Nat) (c : Call) (spentToday now : Nat) (sh : Shared) : Shared :=
  let sh := sh.register c.pay.hash k
  let sh := if c.isInvoice then sh.note c.pay.hash else sh
  sh.spend c.client (·.debitBudget spentToday c.pay.amtSats now)

def reserve (k : Nat) (c : Call) (spentToday now : Nat) (s : State) : State :=
  (s.emit (some k) (reserved k c spentToday now)).put k
    { c with stage := .debiting, charge := .kept }

/-- The checks of a pay request on its pairing. -/
def refuses (c : Call) (p : NwcConnection) (spentToday : Nat) : Bool :=
  (c.isInvoice && !c.pay.parses) || p.overCap c.pay.amtSats ||
    p.overBudget spentToday c.pay.amtSats || (c.isInvoice && !c.pay.builds)

/-- From the budget on: the check, and the reservation of an invoice. -/
def checkBudget (k : Nat) (c : Call) (p : NwcConnection) (spentToday now : Nat) (s : State) :
    State :=
  let c := { c with checked := true }
  if c.isInvoice then
    if refuses c p spentToday then answer k c s else reserve k c spentToday now s
  else if c.isKeysend then
    if refuses c p spentToday then answer k c s
    else s.put k { c with stage := .hashing spentToday now }
  else answer k c s

/-- `processNwcRequest` once the content is decrypted. -/
def dispatch (k : Nat) (c : Call) (p : NwcConnection) (now : Nat) (s : State) : State :=
  if dispatches [p.toConnection] c.request now then
    if budgetWindowElapsed p.budgetRenewal p.lastSpentTimestamp now then
      (s.emit none fun sh => sh.spend c.client (·.resetBudget now)).put k
        { c with stage := .resetting now }
    else checkBudget k c p p.spentTodaySats now s
  else answer k c s

/-- A send that never left the wallet: the entries are deleted, the record of an invoice is
finalized, and the debit is refunded. -/
def undone (c : Call) (sh : Shared) : Shared :=
  let sh := sh.forget c.pay.hash
  let sh := if c.isInvoice then sh.finalize (recordFailed c.pay.hash) else sh
  sh.spend c.client (·.refundBudget c.pay.amtSats)

def undo (k : Nat) (c : Call) (s : State) : State :=
  (s.emit (some k) (undone c)).put k { c with stage := .answering, charge := .refunded }

inductive SendResult where
  | accepted
  /-- LDK refuses the payment, or `sendKeysendPayment` fails or throws. -/
  | refused
  /-- `waitForUsableChannel` throws, the channel manager is gone, or `send_payment` throws. -/
  | threw
  deriving DecidableEq, Repr

/-- A payment is handed to LDK, or is not. -/
def send (k : Nat) (c : Call) (result : SendResult) (s : State) : State :=
  match result with
  | .accepted =>
    if c.isInvoice then
      s.put k { c with
        stage := .settling, payment := some .pending, released := true, watch := .watching }
    else s.put k { c with stage := .sending, payment := some .pending }
  | .refused => undo k c s
  -- the catch of `pay_keysend` undoes this too; that of `pay_invoice` only answers
  | .threw => if c.isInvoice then answer k c s else undo k c s

/-- A call goes on after its `await`, which is `ok` or rejected. -/
def goOn (k : Nat) (c : Call) (ok : Bool) (s : State) : Option State :=
  match c.stage with
  | .resetting now =>
    (s.shared.connections c.client).map fun p =>
      if ok then checkBudget k c p 0 now s else s.put k { c with stage := .ended }
  | .hashing spentToday now =>
    some (if ok then reserve k c spentToday now s else answer k c s)
  | .debiting => some (if ok then s.put k { c with stage := .waiting } else answer k c s)
  | .sending =>
    some ((s.emit (some k) fun sh => sh.note c.pay.hash).put k
      { c with stage := .answering, released := true, watch := .watching })
  | _ => none

/-! ## LDK's events -/

/-- The promise that the waiter of a hash settles. -/
def wake (hash : Nat) (waiter : Waiter) (s : State) : State :=
  match s.shared.waiters hash with
  | none => s
  | some j => { s with calls := s.calls.modify j fun c => { c with waiter } }

def notify (hash k : Nat) (s : State) : State :=
  match s.shared.contexts hash with
  | none => s
  | some j => { s with notified := s.notified ++ [(j, k)] }

/-- The payment of call `k` comes to its outcome. -/
def Call.outcome (c : Call) (status : Status) : Call :=
  { c with payment := some status, late := decide (c.watch = .timedOut) }

def handlePaymentSettled (k : Nat) (c : Call) (s : State) : State :=
  (notify c.pay.hash k (wake c.pay.hash .resolved (s.put k (c.outcome .settled)))).emit (some k)
    fun sh => (sh.forget c.pay.hash).finalize (recordSent c.pay.hash)

def handlePaymentFailed (k : Nat) (c : Call) (s : State) : State :=
  (wake c.pay.hash .rejected (s.put k (c.outcome .failed))).emit (some k)
    fun sh => (sh.forget c.pay.hash).finalize (recordFailed c.pay.hash)

/-- `awaitSettlementCharged` goes on: an invoice's request is answered, a keysend's was. -/
def observe (k : Nat) (c : Call) (s : State) : Option State :=
  let stage := if c.stage = .settling then .answering else c.stage
  match c.waiter with
  | .unsettled => none
  | .resolved => some (s.put k { c with watch := .settled, stage })
  | .rejected =>
    some ((s.emit (some k) fun sh => sh.spend c.client (·.refundBudget c.pay.amtSats)).put k
      { c with watch := .refunded, stage, charge := .refunded })

/-- The timer fires: the payment is still in flight and the charge is kept. -/
def timeout (k : Nat) (c : Call) (s : State) : State :=
  s.put k { c with
    watch := .timedOut
    stage := if c.stage = .settling then .answering else c.stage }

/-- The tail's entry is deleted, unless a later request has replaced it. -/
def drain (k : Nat) (c : Call) (s : State) : State :=
  { s.put k { c with drained := true } with
    chains := if s.chains c.client = some k then Function.update s.chains c.client none
      else s.chains }

/-! ## Steps -/

inductive Action where
  | arrive (request : Request) (pay : Pay)
  /-- The gate opens, and the pairing is looked up. -/
  | start (k : Nat)
  | decrypted (k now : Nat)
  | go (k : Nat) (ok : Bool)
  | send (k : Nat) (result : SendResult)
  | paymentSent (k : Nat)
  | paymentFailed (k : Nat)
  | observe (k : Nat)
  | timeout (k : Nat)
  | finish (k : Nat)
  /-- `run` is settled: its `finally` releases the gate. -/
  | release (k : Nat)
  /-- `reserved` is resolved: its `finally` deletes the tail. -/
  | drain (k : Nat)
  deriving DecidableEq, Repr

/-- What an action does to call `k`. -/
def moves (s : State) (k : Nat) (c : Call) : Action → Option State
  | .arrive _ _ => none
  | .start _ =>
    if c.stage = .queued ∧ c.turn s = true then
      match s.shared.connections c.client with
      | some p => some (s.put k { c with stage := if p.enabled then .decrypting else .ended })
      | none => some (s.put k { c with stage := .ended })
    else none
  | .decrypted _ now =>
    if c.stage = .decrypting then
      (s.shared.connections c.client).map fun p => dispatch k c p now s
    else none
  | .go _ ok => goOn k c ok s
  | .send _ result => if c.stage = .waiting then some (send k c result s) else none
  | .paymentSent _ =>
    if c.payment = some .pending then some (handlePaymentSettled k c s) else none
  | .paymentFailed _ =>
    if c.payment = some .pending then some (handlePaymentFailed k c s) else none
  | .observe _ => if c.watch = .watching then observe k c s else none
  | .timeout _ =>
    if c.watch = .watching ∧ c.waiter = .unsettled then some (timeout k c s) else none
  | .finish _ => if c.stage = .answering then some (s.put k { c with stage := .ended }) else none
  | .release _ =>
    if c.stage = .ended ∧ c.released = false then some (s.put k { c with released := true })
    else none
  | .drain _ =>
    if c.released = true ∧ c.drained = false then some (drain k c s) else none

namespace Action

/-- The call an action is about. -/
def call : Action → Option Nat
  | .arrive _ _ => none
  | .start k | .decrypted k _ | .go k _ | .send k _ | .paymentSent k | .paymentFailed k
  | .observe k | .timeout k | .finish k | .release k | .drain k => some k

def step (a : Action) (s : State) : Option State :=
  match a with
  | .arrive request pay => some (handleNwcRequest request pay s)
  | a => a.call.bind fun k => s.calls[k]?.bind fun c => moves s k c a

end Action

/-! ## What one step can do -/

/-- A call moves on by itself, and nothing shared changes. -/
inductive Quiet (s : State) (c : Call) : Call → Prop where
  | started (enabled : Bool) : c.stage = .queued → c.turn s = true →
      Quiet s c { c with stage := if enabled then .decrypting else .ended }
  | rejected (checked : Bool) : c.stage = .decrypting ∨ (∃ now, c.stage = .resetting now) →
      Quiet s c { c with checked := c.checked || checked, stage := .answering }
  | hashing (spentToday now : Nat) : c.stage = .decrypting ∨ (∃ now, c.stage = .resetting now) →
      Quiet s c { c with checked := true, stage := .hashing spentToday now }
  | resetFailed {now : Nat} : c.stage = .resetting now → Quiet s c { c with stage := .ended }
  | hashFailed {spentToday now : Nat} : c.stage = .hashing spentToday now →
      Quiet s c { c with stage := .answering }
  | debited : c.stage = .debiting → Quiet s c { c with stage := .waiting }
  | accepted : c.stage = .waiting → Quiet s c
      { c with stage := .settling, payment := some .pending, released := true, watch := .watching }
  | handed : c.stage = .waiting → Quiet s c { c with stage := .sending, payment := some .pending }
  | settled : c.watch = .watching → c.waiter = .resolved →
      Quiet s c { c with
        watch := .settled, stage := if c.stage = .settling then .answering else c.stage }
  | timedOut : c.watch = .watching → c.waiter = .unsettled →
      Quiet s c { c with
        watch := .timedOut, stage := if c.stage = .settling then .answering else c.stage }
  | finished : c.stage = .answering → Quiet s c { c with stage := .ended }
  | released : c.stage = .ended → c.released = false → Quiet s c { c with released := true }

/-- The counter that a reservation starts from. -/
inductive Snapshot (s : State) (c : Call) : Nat → Prop where
  | read {p : NwcConnection} : c.stage = .decrypting → s.shared.connections c.client = some p →
      Snapshot s c p.spentTodaySats
  | reset {now : Nat} : c.stage = .resetting now → Snapshot s c 0
  | hashed {spentToday now : Nat} : c.stage = .hashing spentToday now → Snapshot s c spentToday

/-- What a step of call `k` leaves. -/
inductive Move (s : State) (k : Nat) (c : Call) : State → Prop where
  | quiet {c' : Call} : Quiet s c c' → Move s k c (s.put k c')
  | reset {p : NwcConnection} (now : Nat) : c.stage = .decrypting →
      s.shared.connections c.client = some p →
      budgetWindowElapsed p.budgetRenewal p.lastSpentTimestamp now = true →
      Move s k c ((s.emit none fun sh => sh.spend c.client (·.resetBudget now)).put k
        { c with stage := .resetting now })
  | reserve {spentToday : Nat} (checked : Bool) (now : Nat) : Snapshot s c spentToday →
      Move s k c (reserve k { c with checked := c.checked || checked } spentToday now s)
  | undo : c.stage = .waiting → Move s k c (undo k c s)
  | note : c.stage = .sending →
      Move s k c ((s.emit (some k) fun sh => sh.note c.pay.hash).put k
        { c with stage := .answering, released := true, watch := .watching })
  | settled : c.payment = some .pending → Move s k c (handlePaymentSettled k c s)
  | failed : c.payment = some .pending → Move s k c (handlePaymentFailed k c s)
  | refund : c.watch = .watching → c.waiter = .rejected →
      Move s k c ((s.emit (some k) fun sh => sh.spend c.client (·.refundBudget c.pay.amtSats)).put k
        { c with
          watch := .refunded
          stage := if c.stage = .settling then .answering else c.stage
          charge := .refunded })

/-- An exception between the debit and the hand-over that only answers the request. -/
def Leaks (a : Action) (c : Call) : Prop :=
  match a with
  | .go _ ok => c.stage = .debiting ∧ ok = false
  | .send _ result => c.stage = .waiting ∧ c.isInvoice = true ∧ result = .threw
  | _ => False

instance (a : Action) (c : Call) : Decidable (Leaks a c) := by
  cases a <;> simp only [Leaks] <;> infer_instance

section

variable {s s' : State} {k : Nat} {c : Call}

/-- The budget check of a call whose pairing was found. -/
theorem move_checkBudget {p : NwcConnection} {spentToday : Nat} (now : Nat)
    (hstage : c.stage = .decrypting ∨ ∃ now, c.stage = .resetting now)
    (hsnap : Snapshot s c spentToday) : Move s k c (checkBudget k c p spentToday now s) := by
  have hanswer : Move s k c (answer k { c with checked := true } s) := by
    have := Move.quiet (k := k) (Quiet.rejected (s := s) true hstage)
    simpa [answer] using this
  unfold checkBudget
  simp only
  split
  · split
    · exact hanswer
    · have := Move.reserve (k := k) true now hsnap
      simpa using this
  · split
    · split
      · exact hanswer
      · exact .quiet (.hashing spentToday now hstage)
    · exact hanswer

theorem move_dispatch {p : NwcConnection} {now : Nat} (hstage : c.stage = .decrypting)
    (hp : s.shared.connections c.client = some p) : Move s k c (dispatch k c p now s) := by
  unfold dispatch
  split
  · split
    · exact .reset now hstage hp ‹_›
    · exact move_checkBudget now (.inl hstage) (.read hstage hp)
  · have := Move.quiet (k := k) (Quiet.rejected (s := s) false (.inl hstage))
    simpa [answer] using this

theorem move_goOn {ok : Bool} (h : goOn k c ok s = some s') :
    Move s k c s' ∨ (c.stage = .debiting ∧ ok = false) ∧ s' = answer k c s := by
  unfold goOn at h
  split at h
  · rename_i now hstage
    obtain ⟨p, hp, rfl⟩ := Option.map_eq_some_iff.mp h
    refine .inl ?_
    split
    · exact move_checkBudget now (.inr ⟨now, hstage⟩) (.reset hstage)
    · exact .quiet (.resetFailed hstage)
  · rename_i spentToday now hstage
    cases h
    refine .inl ?_
    split
    · have := Move.reserve (k := k) false now (.hashed (s := s) hstage)
      simpa using this
    · exact .quiet (.hashFailed hstage)
  · rename_i hstage
    cases h
    split
    · exact .inl (.quiet (.debited hstage))
    · rename_i hok
      exact .inr ⟨⟨hstage, by simpa using hok⟩, rfl⟩
  · rename_i hstage
    cases h
    exact .inl (.note hstage)
  · cases h

theorem move_send {result : SendResult} (hstage : c.stage = .waiting) :
    Move s k c (send k c result s) ∨
      (c.isInvoice = true ∧ result = .threw) ∧ send k c result s = answer k c s := by
  cases result with
  | accepted =>
    refine .inl ?_
    simp only [send]
    split
    · exact .quiet (.accepted hstage)
    · exact .quiet (.handed hstage)
  | refused => exact .inl (.undo hstage)
  | threw =>
    simp only [send]
    split
    · exact .inr ⟨⟨‹_›, trivial⟩, rfl⟩
    · exact .inl (.undo hstage)

theorem move_observe (hwatch : c.watch = .watching) (h : observe k c s = some s') :
    Move s k c s' := by
  unfold observe at h
  simp only at h
  split at h
  · cases h
  · rename_i hwaiter
    cases h
    exact .quiet (.settled hwatch hwaiter)
  · rename_i hwaiter
    cases h
    exact .refund hwatch hwaiter

end

/-! ### What a step does to the calls -/

/-- How the call that moves goes on, but for the state of its waiter. -/
inductive Own (s : State) (c : Call) : Call → Prop where
  | quiet {c' : Call} : Quiet s c c' → Own s c c'
  | reset (now : Nat) : c.stage = .decrypting → Own s c { c with stage := .resetting now }
  | reserve {spentToday : Nat} (checked : Bool) : Snapshot s c spentToday →
      Own s c { c with checked := c.checked || checked, stage := .debiting, charge := .kept }
  | undo : c.stage = .waiting → Own s c { c with stage := .answering, charge := .refunded }
  | note : c.stage = .sending →
      Own s c { c with stage := .answering, released := true, watch := .watching }
  | outcome (status : Status) : c.payment = some .pending → Own s c (c.outcome status)
  | refund : c.watch = .watching → c.waiter = .rejected →
      Own s c { c with
        watch := .refunded
        stage := if c.stage = .settling then .answering else c.stage
        charge := .refunded }

/-- Call `n` after a step of call `k`: it is `d`, or its next state, with some waiter. -/
def Next (s : State) (k : Nat) (c : Call) (n : Nat) (d d' : Call) : Prop :=
  ∃ w, (n = k ∧ ∃ c', Own s c c' ∧ d' = { c' with waiter := w }) ∨
    (n ≠ k ∧ d' = { d with waiter := w })

section

variable {s s' : State} {k : Nat} {c : Call}

theorem calls_put {c' : Call} (hk : s.calls[k]? = some c) {n : Nat} {d' : Call}
    (h : (s.calls.set k c')[n]? = some d') :
    ∃ d, s.calls[n]? = some d ∧ (n = k ∧ d' = c' ∨ n ≠ k ∧ d' = d) := by
  by_cases hn : k = n
  · subst hn
    have hlt : k < s.calls.length := (List.getElem?_eq_some_iff.mp hk).1
    rw [List.getElem?_set_self hlt, Option.some.injEq] at h
    exact ⟨c, hk, .inl ⟨rfl, h.symm⟩⟩
  · rw [List.getElem?_set_ne hn] at h
    exact ⟨d', h, .inr ⟨Ne.symm hn, rfl⟩⟩

/-- The call moves on, and the others stay. -/
theorem next_put {c' : Call} (hk : s.calls[k]? = some c) (hown : Own s c c') {n : Nat} {d' : Call}
    (h : (s.calls.set k c')[n]? = some d') : ∃ d, s.calls[n]? = some d ∧ Next s k c n d d' := by
  obtain ⟨d, hd, ⟨rfl, rfl⟩ | ⟨hn, rfl⟩⟩ := calls_put hk h
  · exact ⟨d, hd, d'.waiter, .inl ⟨rfl, d', hown, rfl⟩⟩
  · exact ⟨d', hd, d'.waiter, .inr ⟨hn, rfl⟩⟩

/-- An event wakes at most one more call. -/
theorem next_wake {hash : Nat} {waiter : Waiter} {c' : Call} (hk : s.calls[k]? = some c)
    (hown : Own s c c') {n : Nat} {d' : Call}
    (h : (wake hash waiter (s.put k c')).calls[n]? = some d') :
    ∃ d, s.calls[n]? = some d ∧ Next s k c n d d' := by
  unfold wake at h
  split at h
  · exact next_put hk hown h
  · rename_i j hj
    simp only [List.getElem?_modify] at h
    obtain ⟨d₁, hd₁, heq⟩ := Option.map_eq_some_iff.mp h
    obtain ⟨d, hd, w, hnext⟩ := next_put hk hown hd₁
    split at heq
    · subst heq
      refine ⟨d, hd, waiter, ?_⟩
      rcases hnext with ⟨rfl, c'', hown', rfl⟩ | ⟨hn, rfl⟩
      · exact .inl ⟨rfl, c'', hown', rfl⟩
      · exact .inr ⟨hn, rfl⟩
    · subst heq
      exact ⟨d, hd, w, hnext⟩

theorem notify_calls (hash k : Nat) (s : State) : (notify hash k s).calls = s.calls := by
  unfold notify
  split <;> rfl

theorem next_of_move (hk : s.calls[k]? = some c) (h : Move s k c s') {n : Nat} {d' : Call}
    (hd' : s'.calls[n]? = some d') : ∃ d, s.calls[n]? = some d ∧ Next s k c n d d' := by
  cases h with
  | quiet hquiet => exact next_put hk (.quiet hquiet) hd'
  | reset now hstage _ _ => exact next_put hk (.reset now hstage) hd'
  | reserve checked now hsnap => exact next_put hk (.reserve checked hsnap) hd'
  | undo hstage => exact next_put hk (.undo hstage) hd'
  | note hstage => exact next_put hk (.note hstage) hd'
  | settled hpending =>
    unfold handlePaymentSettled State.emit at hd'
    rw [notify_calls] at hd'
    exact next_wake hk (.outcome .settled hpending) hd'
  | failed hpending => exact next_wake hk (.outcome .failed hpending) hd'
  | refund hwatch hwaiter => exact next_put hk (.refund hwatch hwaiter) hd'

theorem chains_of_move (h : Move s k c s') : s'.chains = s.chains := by
  cases h with
  | settled =>
    unfold handlePaymentSettled State.emit notify wake
    split <;> split <;> rfl
  | failed =>
    unfold handlePaymentFailed State.emit wake
    split <;> rfl
  | quiet => rfl
  | reset => rfl
  | reserve => rfl
  | undo => rfl
  | note => rfl
  | refund => rfl

/-- How a step of call `k` goes: a move, an exception that only answers, or the deletion of
the tail. -/
inductive Goes (s : State) (a : Action) (k : Nat) (c : Call) : State → Prop where
  | move {s' : State} : Move s k c s' → Goes s a k c s'
  | leak : Leaks a c → Goes s a k c (answer k c s)
  | drain : c.released = true → c.drained = false → Goes s a k c (drain k c s)

theorem goes_of_moves {a : Action} (h : moves s k c a = some s') : Goes s a k c s' := by
  cases a with
  | arrive => simp [moves] at h
  | start =>
    simp only [moves] at h
    split at h
    · rename_i hturn
      refine .move ?_
      split at h
      · rename_i p _
        cases h
        exact .quiet (.started p.enabled hturn.1 hturn.2)
      · cases h
        exact .quiet (.started false hturn.1 hturn.2)
    · cases h
  | decrypted k' now =>
    simp only [moves] at h
    split at h
    · rename_i hstage
      obtain ⟨p, hp, rfl⟩ := Option.map_eq_some_iff.mp h
      exact .move (move_dispatch hstage hp)
    · cases h
  | go k' ok =>
    rcases move_goOn h with hmove | ⟨hleak, rfl⟩
    · exact .move hmove
    · exact .leak hleak
  | send k' result =>
    simp only [moves] at h
    split at h
    · rename_i hstage
      cases h
      rcases move_send hstage with hmove | ⟨hleak, heq⟩
      · exact .move hmove
      · rw [heq]
        exact .leak ⟨hstage, hleak⟩
    · cases h
  | paymentSent =>
    simp only [moves] at h
    split at h
    · cases h
      exact .move (.settled ‹_›)
    · cases h
  | paymentFailed =>
    simp only [moves] at h
    split at h
    · cases h
      exact .move (.failed ‹_›)
    · cases h
  | observe =>
    simp only [moves] at h
    split at h
    · exact .move (move_observe ‹_› h)
    · cases h
  | timeout =>
    simp only [moves] at h
    split at h
    · rename_i hwatch
      cases h
      exact .move (.quiet (.timedOut hwatch.1 hwatch.2))
    · cases h
  | finish =>
    simp only [moves] at h
    split at h
    · cases h
      exact .move (.quiet (.finished ‹_›))
    · cases h
  | release =>
    simp only [moves] at h
    split at h
    · rename_i hended
      cases h
      exact .move (.quiet (.released hended.1 hended.2))
    · cases h
  | drain =>
    simp only [moves] at h
    split at h
    · rename_i hreleased
      cases h
      exact .drain hreleased.1 hreleased.2
    · cases h

/-- A step is an arrival, or a step of one call. -/
theorem step_cases {a : Action} (h : a.step s = some s') :
    (∃ request pay, a = .arrive request pay ∧ s' = handleNwcRequest request pay s) ∨
      ∃ k c, a.call = some k ∧ s.calls[k]? = some c ∧ Goes s a k c s' := by
  have hmoves : ∀ k, a.call = some k → (s.calls[k]?.bind fun c => moves s k c a) = some s' →
      ∃ k c, a.call = some k ∧ s.calls[k]? = some c ∧ Goes s a k c s' := by
    intro k hcall hs
    obtain ⟨c, hc, hmove⟩ := Option.bind_eq_some_iff.mp hs
    exact ⟨k, c, hcall, hc, goes_of_moves hmove⟩
  cases a with
  | arrive request pay =>
    cases h
    exact .inl ⟨request, pay, rfl, rfl⟩
  | start k => exact .inr (hmoves k rfl h)
  | decrypted k now => exact .inr (hmoves k rfl h)
  | go k ok => exact .inr (hmoves k rfl h)
  | send k result => exact .inr (hmoves k rfl h)
  | paymentSent k => exact .inr (hmoves k rfl h)
  | paymentFailed k => exact .inr (hmoves k rfl h)
  | observe k => exact .inr (hmoves k rfl h)
  | timeout k => exact .inr (hmoves k rfl h)
  | finish k => exact .inr (hmoves k rfl h)
  | release k => exact .inr (hmoves k rfl h)
  | drain k => exact .inr (hmoves k rfl h)

end

end LibreWallet.Nwc.Payments
