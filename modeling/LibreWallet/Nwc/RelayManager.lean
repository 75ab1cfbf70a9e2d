import LibreWallet.Nostr.Relays
import LibreWallet.Nwc.Requests
import Mathlib.Algebra.Group.Nat.Defs
import Mathlib.Data.List.Dedup
import Mathlib.Logic.Function.Basic

/-
  Nwc/RelayManager.lean --- how the manager comes to listen to its relays.

  `start`, `stop`, `createConnection`, `updateConnection`, `deleteConnection`,
  `connectRelay` and `scheduleRelayReconnect` of
  `libre-listener-wallet/src/nwc-manager.ts`, one turn of the event loop a step.  What is
  awaited is in the state: the connects under way and the calls that wait for their
  storage write.  The environment lets a connect succeed or fail, drops connections and
  closes subscriptions; closing a subscription invokes its `onclose` at once.
-/

set_option autoImplicit false

namespace LibreWallet.Nwc.Coverage

open Async Nostr

/-! ## The manager -/

/-- `NwcConnection`, as far as relays go. -/
structure NwcConnection extends Nwc.Connection where
  relayUrl : String
  deriving DecidableEq, Repr

/-- `Partial<NwcConnection>` -/
structure Updates where
  clientPubkey : Option String := none
  enabled : Option Bool := none
  relayUrl : Option String := none
  expiresAt : Option (Option Nat) := none
  deriving DecidableEq, Repr

/-- `{ ...c, ...updates }` -/
def Updates.spread (updates : Updates) (c : NwcConnection) : NwcConnection :=
  { c with
    clientPubkey := updates.clientPubkey.getD c.clientPubkey
    enabled := updates.enabled.getD c.enabled
    relayUrl := updates.relayUrl.getD c.relayUrl
    expiresAt := updates.expiresAt.getD c.expiresAt }

/-- What the caller of `connectRelay` does with its rejection. -/
inductive Catch where
  /-- `start` and `createConnection` log it. -/
  | log
  /-- The redial timer schedules the next redial. -/
  | redial
  deriving DecidableEq, Repr

/-- A `connectRelay` under way: in `Relay.connect`, or publishing the info event on a relay. -/
structure Connect where
  url : String
  onFail : Catch
  relay : Option Nat
  deriving DecidableEq, Repr

/-- A call of the manager that waits for its storage write. -/
inductive Call where
  /-- `createConnection` in `pruneExpiredConnections`, which writes only if it changed something. -/
  | pruning (connection : NwcConnection) (changed : Bool)
  /-- `createConnection` once the pairing is in the list. -/
  | creating (relayUrl : String)
  | deleting (connToDelete : Option NwcConnection)
  deriving DecidableEq, Repr

structure Manager where
  now : Nat := 0
  connections : List NwcConnection
  active : Bool := false
  relays : String → Option Nat := fun _ => none
  subs : String → Option Nat := fun _ => none
  reconnectAttempts : String → Option Nat := fun _ => none
  /-- When the redial of a relay fires. -/
  reconnectTimers : String → Option Nat := fun _ => none
  /-- What `nostr-tools` has open; a subscription knows the `relayUrl` of its `onclose`. -/
  net : Nostr.Relays String := {}
  connects : List Connect := []
  calls : List Call := []

def MAX_NWC_CONNECTIONS : Nat := 10

def DEFAULT_RELAY_URL : String := "wss://relay.getalby.com/v1"

/-- Exponential backoff in milliseconds, capped. -/
def reconnectDelayMs (attempt : Nat) : Nat :=
  let n := if attempt < 1 then 1 else attempt
  min 30000 (1000 * 2 ^ (n - 1))

namespace Manager

/-- An enabled pairing uses the relay. -/
def needed (m : Manager) (url : String) : Bool :=
  m.connections.any fun c => c.enabled && c.relayUrl = url

def scheduleRelayReconnect (m : Manager) (url : String) : Manager :=
  if !m.active then m
  else if (m.reconnectTimers url).isSome then m
  else if !m.needed url then m
  else
    let attempt := (m.reconnectAttempts url).getD 0 + 1
    { m with
      reconnectAttempts := Function.update m.reconnectAttempts url (some attempt)
      reconnectTimers := Function.update m.reconnectTimers url (some (m.now + reconnectDelayMs attempt)) }

/-- `onclose` of a subscription on the relay. -/
def onclose (m : Manager) (url : String) : Manager :=
  { m with
    relays := Function.update m.relays url none
    subs := Function.update m.subs url none }.scheduleRelayReconnect url

/-- A subscription is closed, by either side. -/
def closeSub (m : Manager) (s : Nat) : Manager :=
  match m.net.subscriptions[s]? with
  | some sub => { m with net := m.net.close s }.onclose sub.topic
  | none => m

/-- A connection is closed, by either side, and its subscriptions with it. -/
def closeRelay (m : Manager) (r : Nat) : Manager :=
  let m' := (m.net.openOn r).foldl closeSub m
  { m' with net := m'.net.disconnect r }

/-- `connectRelay` up to its first await. -/
def connectRelay (m : Manager) (url : String) (onFail : Catch) : Manager :=
  if (m.relays url).isSome then m else { m with connects := m.connects ++ [⟨url, onFail, none⟩] }

/-! ## Its verbs -/

def start (m : Manager) : Manager :=
  if m.active then m
  else
    let uniqueRelays := ((m.connections.filter (·.enabled)).map (·.relayUrl)).dedup
    uniqueRelays.foldl (fun m url => m.connectRelay url .log) { m with active := true }

/-- Both loops at once: every subscription in `subs` is closed, whose `onclose` forgets its relay,
and then every relay that is still in `relays`. -/
def stop (m : Manager) : Manager :=
  if !m.active then m
  else
    let left := fun url => if (m.subs url).isSome then none else m.relays url
    let closed := m.net.closeWhere fun s sub => m.subs sub.topic = some s ||
      (m.net.connections[sub.relay]?.any fun c => left c.url = some sub.relay)
    { m with
      active := false
      reconnectTimers := fun _ => none
      reconnectAttempts := fun _ => none
      subs := fun _ => none
      relays := fun _ => none
      net := closed.disconnectWhere fun r c => left c.url = some r }

/-- `createConnection` up to its first await. -/
def createConnection (m : Manager) (clientPubkey : String) (relayUrl : Option String)
    (expiresAt : Option Nat) : Manager :=
  let kept := m.connections.filter fun c => !isConnectionExpired c.toConnection m.now
  let url := match relayUrl with
    | some url => if url = "" then DEFAULT_RELAY_URL else url
    | none => DEFAULT_RELAY_URL
  { m with
    connections := kept
    calls := m.calls ++ [.pruning { clientPubkey, expiresAt, relayUrl := url }
      (kept.length ≠ m.connections.length)] }

/-- `createConnection` goes on when nothing was pruned or the write of it has ended; it throws at the
limit. -/
def pruned (m : Manager) (k : Nat) (ok : Bool) : Option Manager :=
  match m.calls[k]? with
  | some (.pruning connection changed) =>
    if (changed && !ok) || decide (MAX_NWC_CONNECTIONS ≤ m.connections.length) then
      some { m with calls := m.calls.eraseIdx k }
    else
      some { m with
        connections := m.connections ++ [connection]
        calls := m.calls.set k (.creating connection.relayUrl) }
  | _ => none

/-- `createConnection` once the write of the new pairing has ended. -/
def created (m : Manager) (k : Nat) (ok : Bool) : Option Manager :=
  match m.calls[k]? with
  | some (.creating relayUrl) =>
    let m := { m with calls := m.calls.eraseIdx k }
    some (if ok && m.active then m.connectRelay relayUrl .log else m)
  | _ => none

/-- `deleteConnection` up to its write. -/
def deleteConnection (m : Manager) (clientPubkey : String) : Manager :=
  { m with
    connections := m.connections.filter fun c => c.clientPubkey ≠ clientPubkey
    calls := m.calls ++ [.deleting (m.connections.find? fun c => c.clientPubkey = clientPubkey)] }

/-- The handles of a relay that no enabled pairing uses. -/
def closeHandles (m : Manager) (url : String) : Manager :=
  let m := match m.subs url with
    | some s =>
      let m := m.closeSub s
      { m with subs := Function.update m.subs url none }
    | none => m
  match m.relays url with
  | some r =>
    let m := m.closeRelay r
    { m with relays := Function.update m.relays url none }
  | none => m

/-- `deleteConnection` once its write has ended. -/
def deleted (m : Manager) (k : Nat) (ok : Bool) : Option Manager :=
  match m.calls[k]? with
  | some (.deleting connToDelete) =>
    let m := { m with calls := m.calls.eraseIdx k }
    match connToDelete with
    | some c =>
      some (if ok && m.active && !m.needed c.relayUrl then m.closeHandles c.relayUrl else m)
    | none => some m
  | _ => none

/-- `updateConnection`; nothing follows its write. -/
def updateConnection (m : Manager) (clientPubkey : String) (updates : Updates) : Manager :=
  { m with
    connections := m.connections.map fun c =>
      if c.clientPubkey = clientPubkey then updates.spread c else c }

/-- The redial timer of a relay fires. -/
def redial (m : Manager) (url : String) : Option Manager :=
  match m.reconnectTimers url with
  | some t =>
    if t ≤ m.now then
      let m := { m with reconnectTimers := Function.update m.reconnectTimers url none }
      some (if m.active then m.connectRelay url .redial else m)
    else none
  | none => none

/-- `Relay.connect` answers the connect `i`. -/
def connected (m : Manager) (i : Nat) (ok : Bool) : Option Manager :=
  match m.connects[i]? with
  | some ⟨url, onFail, none⟩ =>
    if ok then
      let r := m.net.connections.length
      some { m with
        net := m.net.connect url
        relays := Function.update m.relays url (some r)
        reconnectAttempts := Function.update m.reconnectAttempts url none
        connects := m.connects.set i ⟨url, onFail, some r⟩ }
    else
      let m := { m with connects := m.connects.eraseIdx i }
      some (match onFail with
        | .log => m
        | .redial => m.scheduleRelayReconnect url)
  | _ => none

/-- The info event of the connect `i` is published, or is not; it subscribes. -/
def published (m : Manager) (i : Nat) : Option Manager :=
  match m.connects[i]? with
  | some ⟨url, _, some r⟩ =>
    some { m with
      net := m.net.subscribe r url
      subs := Function.update m.subs url (some m.net.subscriptions.length)
      connects := m.connects.eraseIdx i }
  | _ => none

end Manager

/-! ## Runs -/

inductive Action where
  | wait (ms : Nat)
  | start
  | stop
  | createConnection (clientPubkey : String) (relayUrl : Option String) (expiresAt : Option Nat)
  | pruned (k : Nat) (ok : Bool)
  | created (k : Nat) (ok : Bool)
  | deleteConnection (clientPubkey : String)
  | deleted (k : Nat) (ok : Bool)
  | updateConnection (clientPubkey : String) (updates : Updates)
  | redial (url : String)
  | connected (i : Nat) (ok : Bool)
  | published (i : Nat)
  /-- The connection `r` drops. -/
  | dropped (r : Nat)
  /-- The relay closes the subscription `s`. -/
  | closed (s : Nat)
  deriving DecidableEq, Repr

def step : Action → Manager → Option Manager
  | .wait ms, m => some { m with now := m.now + ms }
  | .start, m => some m.start
  | .stop, m => some m.stop
  | .createConnection clientPubkey relayUrl expiresAt, m =>
    some (m.createConnection clientPubkey relayUrl expiresAt)
  | .pruned k ok, m => m.pruned k ok
  | .created k ok, m => m.created k ok
  | .deleteConnection clientPubkey, m => some (m.deleteConnection clientPubkey)
  | .deleted k ok, m => m.deleted k ok
  | .updateConnection clientPubkey updates, m => some (m.updateConnection clientPubkey updates)
  | .redial url, m => m.redial url
  | .connected i ok, m => m.connected i ok
  | .published i, m => m.published i
  | .dropped r, m => if m.net.connected r then some (m.closeRelay r) else none
  | .closed s, m =>
    if m.net.subscriptions[s]?.any (·.isOpen) then some (m.closeSub s) else none

/-! ## What is asked of it -/

/-- An open subscription, a connect in progress or an armed redial timer. -/
def Manager.covered (m : Manager) (url : String) : Bool :=
  m.net.subscriptions.any (fun x => x.topic = url && x.isOpen) || m.connects.any (fun c => c.url = url) ||
    (m.reconnectTimers url).isSome

structure Listens (m : Manager) : Prop where
  covered : m.active = true → ∀ url, m.needed url = true → m.covered url = true
  single : m.active = true → ∀ url, m.needed url = true → ∀ s s', m.net.Open s url → m.net.Open s' url → s = s'
  stopped : m.active = false → m.connects = [] →
    (∀ s url, ¬ m.net.Open s url) ∧ ∀ url, m.reconnectTimers url = none

/-- A `createConnection` for the relay waits for its write. -/
def Manager.creating (m : Manager) (url : String) : Bool := m.calls.any fun c => c = .creating url

/-- A `connectRelay` for the relay finds no other one under way. -/
def Manager.free (m : Manager) (url : String) : Bool :=
  (m.relays url).isSome || m.connects.all fun c => c.url ≠ url

/-- The relay needs to be covered by what is there. -/
def Manager.owed (m : Manager) (url : String) : Bool := m.active && m.needed url && !m.creating url

/-- The connect `c` is about to subscribe over the handle of an earlier subscription. -/
def Manager.stale (m : Manager) (c : Connect) : Bool := c.relay.isSome && (m.subs c.url).isSome

/-- The steps after which the relays stay covered. -/
def sound : Action → Manager → Bool
  -- no connect begins while another one for the relay is under way
  | .start, m => m.active || m.connections.all fun c => !c.enabled || m.connects.all fun x => x.url ≠ c.relayUrl
  | .redial url, m => !m.active || m.free url
  | .created k true, m =>
    match m.calls[k]? with
    | some (.creating url) => !m.active || m.free url
    | _ => true
  -- a first connect fails, or the write of a pairing, where the relay is not owed
  | .created k false, m =>
    match m.calls[k]? with
    | some (.creating url) =>
      let m' := { m with calls := m.calls.eraseIdx k }
      !m'.owed url || m'.covered url
    | _ => true
  | .connected i ok, m =>
    if ok then m.active
    else
      match m.connects[i]? with
      | some c => c.onFail = .redial || !m.owed c.url || (m.reconnectTimers c.url).isSome
      | none => true
  -- a connection is there until its connect has subscribed, or the manager has closed it
  | .published i, m =>
    match m.connects[i]? with
    | some ⟨url, _, some r⟩ => m.net.connected r ||
        ((m.relays url).isNone && (!m.owed url || (m.reconnectTimers url).isSome))
    | _ => true
  -- no handle of an earlier subscription is left beside a connect about to subscribe
  | .stop, m => m.connects.all fun c => !m.stale c
  | .deleted k _, m =>
    match m.calls[k]? with
    | some (.deleting (some conn)) => m.connects.all fun c => c.url ≠ conn.relayUrl || !m.stale c
    | _ => true
  -- a pairing that comes to need a relay finds it covered
  | .updateConnection clientPubkey updates, m =>
    let m' := m.updateConnection clientPubkey updates
    m'.connections.all fun c => !m'.owed c.relayUrl || m.needed c.relayUrl || m.covered c.relayUrl
  | _, _ => true

end LibreWallet.Nwc.Coverage
