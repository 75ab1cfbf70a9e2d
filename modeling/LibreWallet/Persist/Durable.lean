import LibreWallet.Persist.Storage

/-
  Persist/Durable.lean --- the code of the node that writes channel state.

  Mirrors `libre-listener-wallet/src/durable-persist.ts` (the durable flush and its
  acknowledgement) and the parts of `index.ts` that persist, export and import:
  `writeChannelManagerForDurableBatch`, the event tick, `exportState`,
  `importState` and `stop`.  LDK and the inner persister are the environment: they
  hand over updates, and ask of the cache what they like.
-/

set_option autoImplicit false

namespace LibreWallet.Persist

open Async

variable {χ M : Type}

/-! ## Requests -/

inductive Verb (χ M : Type) where
  /-- `scheduleDurableAck` for one monitor update. -/
  | durable (h : Handed χ M)
  | stop
  | exportState
  | importState
  deriving DecidableEq, Repr

structure Task (χ M : Type) where
  session : Nat
  verb : Verb χ M
  deriving DecidableEq, Repr

/-- What the code awaits. -/
inductive Request (χ M : Type) where
  /-- In some later microtask: serialize the channel manager, if there is one, and
  issue its write. -/
  | writeManager
  | setItem (key : Key) (value : Value χ M)
  | removeItem (key : Key)
  /-- The outcome of an issued operation. -/
  | settled (serial : Nat)
  /-- `flush` up to its `await`: the health check and the pending operations. -/
  | flushBegin
  | allSettled (serials : List Nat)
  /-- `ackDurable` -/
  | channelMonitorUpdated (h : Handed χ M)
  | getItem (key : Key)
  /-- The envelope is made from the entries. -/
  | envelope (entries : List (Key × Value χ M))
  /-- `teardownRuntime` frees the LDK objects. -/
  | tearDown

abbrev Answer : Request χ M → Type
  | .writeManager => Option Nat
  | .setItem _ _ => Nat
  | .removeItem _ => Nat
  | .settled _ => Unit
  | .flushBegin => List Nat
  | .allSettled _ => Unit
  | .channelMonitorUpdated _ => Unit
  | .getItem _ => Option (Value χ M)
  | .envelope _ => Unit
  | .tearDown => Unit

/-- Asynchronous code of the node. -/
abbrev Persisting (χ M : Type) := Async.Proc (Node χ M) (Request χ M) Answer String

abbrev PersistEntry (χ M : Type) := Async.Entry (Node χ M) (Request χ M) Answer String

abbrev ask (q : Request χ M) : Persisting χ M (Answer q) := .request q

/-- How a request takes effect; the choice is whether a read is answered. -/
def exec : (q : Request χ M) → Bool → Node χ M → Option (Except String (Answer q) × Node χ M)
  | .writeManager, _, w =>
    match w.phase.channelManager with
    | none => some (.ok none, w)
    | some m =>
      some (.ok (some w.issued.length), w.issue false .channelManager (some (.manager m)))
  | .setItem key value, _, w => some (.ok w.issued.length, w.issue false key (some value))
  | .removeItem key, _, w => some (.ok w.issued.length, w.issue false key none)
  | .settled serial, _, w =>
    if w.queue.any fun x => x.serial = serial then none
    else some (if w.rejected.any fun x => x.serial = serial then .error "rejected" else .ok (), w)
  | .flushBegin, _, w =>
    some (if w.persistenceHealthy then .ok w.pending
      else .error "StorageCache.flush: persistence degraded — writes are being refused", w)
  | .allSettled serials, _, w =>
    if w.queue.any fun x => decide (x.serial ∈ serials) then none
    else some (if w.persistenceHealthy ∧ ¬ w.rejected.any fun x => decide (x.serial ∈ serials) then
        .ok ()
      else .error "StorageCache.flush: persistence degraded or pending writes failed", w)
  | .channelMonitorUpdated h, _, w =>
    some (.ok (), if w.phase.hasChainMonitor then { w with acked := h :: w.acked } else w)
  | .getItem key, ok, w =>
    some (if ok then .ok (stored w.committed key) else .error "storage read failed", w)
  | .envelope entries, _, w => some (.ok (), { w with exports := entries :: w.exports })
  | .tearDown, _, w => some (.ok (), { w with phase := .stopped, isRunning := false })

/-! ## Procedures -/

/-- `flush` -/
def flush : Persisting χ M Unit := do
  let snapshot ← ask .flushBegin
  ask (.allSettled snapshot)

/-- `writeChannelManagerForDurableBatch`: a missing manager is no error. -/
def writeChannelManagerForDurableBatch : Persisting χ M Unit := do
  let serial : Option Nat ← ask .writeManager
  match serial with
  | none => pure ()
  | some n => ask (.settled n)

/-- `composeDurableFlush` -/
def durableFlush : Persisting χ M Unit := do
  writeChannelManagerForDurableBatch
  flush

/-- `scheduleDurableAck`: a failed flush only logs. -/
def scheduleDurableAck (h : Handed χ M) : Persisting χ M Unit :=
  (do
    durableFlush
    ask (.channelMonitorUpdated h)).rescue fun _ => .done ()

/-- `setItem`, awaited. -/
def setItem (key : Key) (value : Value χ M) : Persisting χ M Unit := do
  let serial : Nat ← ask (.setItem key value)
  ask (.settled serial)

/-- `removeItem`, awaited. -/
def removeItem (key : Key) : Persisting χ M Unit := do
  let serial : Nat ← ask (.removeItem key)
  ask (.settled serial)

/-- `persistManagerState` on a clean stop. -/
def persistManagerState : Persisting χ M Unit :=
  (do
    writeChannelManagerForDurableBatch
    setItem (.other "network_graph") (.text "")
    setItem (.other "scorer") (.text "")).rescue fun _ => .done ()

/-- `stop` -/
def stop : Persisting χ M Unit := do
  let w ← .get
  if w.isRunning then
    persistManagerState
    ask .tearDown
  else pure ()

/-- The top-level keys that a backup copies. -/
def BACKUP_DIRECT_KEYS : List Key :=
  [.ldkSeed, .channelManager, .ldkKeysIndex, .stateVersion, .other "peer_addresses",
    .other "node_alias", .other "nwc_wallet_private_key", .other "nwc_connections"]

/-- A key without a value makes no entry. -/
def addEntry (k : Key) (entries : List (Key × Value χ M)) :
    Option (Value χ M) → List (Key × Value χ M)
  | some v => (k, v) :: entries
  | none => entries

/-- Read keys one after the other. -/
def readAll : List Key → Persisting χ M (List (Key × Value χ M))
  | [] => pure []
  | k :: ks => do
    let v : Option (Value χ M) ← ask (.getItem k)
    let rest ← readAll ks
    pure (addEntry k rest v)

/-- `entries[k]` -/
def entryOf (entries : List (Key × Value χ M)) (k : Key) : Option (Value χ M) :=
  (entries.find? fun e => e.1 = k).map (·.2)

/-- The keys of the `ldk_keys_index` among the entries. -/
def indexEntry (entries : List (Key × Value χ M)) : List String :=
  parseIndex (entryOf entries .ldkKeysIndex)

/-- `persistChannelManagerState` and the flush before an export; neither throws. -/
def flushForExport : Persisting χ M Unit := do
  writeChannelManagerForDurableBatch.rescue fun _ => .done ()
  flush.rescue fun _ => .done ()

/-- What `exportState` reads. -/
def readEntries : Persisting χ M Unit := do
  let seed : Option (Value χ M) ← ask (.getItem .ldkSeed)
  match seed with
  | none => .fail "Cannot export: no wallet seed found in storage"
  | some _ =>
    let direct ← readAll BACKUP_DIRECT_KEYS
    let listed ← readAll ((indexEntry direct).map .kv)
    ask (.envelope (direct ++ listed))

/-- `exportState` -/
def exportState : Persisting χ M Unit := do
  let w ← .get
  if w.isRunning then
    flushForExport
    readEntries
  else readEntries

/-- The entries of a backup, written one by one. -/
def writeEntries : List (Key × Value χ M) → Persisting χ M Unit
  | [] => pure ()
  | (k, v) :: entries => do
    setItem k v
    writeEntries entries

/-- `importState` of a decrypted payload: the seed last. -/
def importState (entries : List (Key × Value χ M)) : Persisting χ M Unit := do
  let w ← .get
  if w.isRunning then .fail "Cannot import while running"
  else
    removeItem (.other "monitor_highwater")
    writeEntries (entries.filter fun e => decide (e.1 ≠ .ldkSeed))
    writeEntries (entries.filter fun e => decide (e.1 = .ldkSeed))

/-! ## Events -/

/-- What the environment does. -/
inductive Event (χ M : Type) where
  /-- `start()` loads the cache, makes a seed where there is none, and makes the chain
  monitor. -/
  | load (seedHex : String)
  /-- The channel manager is read, or made anew. -/
  | ready (m : M)
  /-- `start()` is done. -/
  | started
  /-- The channel manager changes in memory. -/
  | ldk (m : M)
  /-- `persist_new_channel` or `update_persisted_channel`: the update, if it has one,
  the latest id of the monitor, what the inner persister did, and whether it reported
  an unrecoverable error. -/
  | persist (channel : χ) (update : Option Nat) (latest : Nat) (calls : List (KvCall χ M))
      (unrecoverable : Bool)
  /-- `archive_persisted_channel` -/
  | archive (calls : List (KvCall χ M))
  /-- The event tick finds that the manager changed. -/
  | eventTick
  /-- A channel closed. -/
  | channelClosed
  | stop
  | exportState
  | importState (entries : List (Key × Value χ M))
  /-- The provider commits an operation, or rejects it. -/
  | settle (serial : Nat) (ok : Bool)
  | react (serial : Nat)
  | crash

/-- The update id to acknowledge: LDK's `None` update stands for the whole monitor. -/
def pickUpdateId (update : Option Nat) (latest : Nat) : Nat := update.getD latest

/-- The hand-over that an update makes of a callback. -/
def handedOf (w : Node χ M) (channel : χ) (updateId : Nat) (calls : List (KvCall χ M)) :
    Handed χ M where
  channel := channel
  updateId := updateId
  session := w.session
  calls := calls
  first := w.issued.length
  last := (w.callAll calls).issued.length
  managed := w.phase.channelManager.isSome

/-- The state after a persist callback. -/
def handOver (w : Node χ M) (h : Handed χ M) : Node χ M :=
  { w.callAll h.calls with handed := h :: w.handed }

/-- What an event does to the state, where it can happen, and what it calls. -/
def effect (e : Event χ M) (w : Node χ M) :
    Option (Node χ M × Option (Task χ M × Persisting χ M Unit)) :=
  match e with
  | .load seedHex =>
    if w.phase matches .down then some (w.load.ensureSeed seedHex, none) else none
  | .ready m => if w.phase matches .starting then some ({ w with phase := .running m }, none) else none
  | .started =>
    if w.phase.channelManager.isSome then some ({ w with isRunning := true }, none) else none
  | .ldk m =>
    if w.phase.channelManager.isSome then some ({ w with phase := .running m }, none) else none
  | .persist channel update latest calls unrecoverable =>
    if w.phase.hasChainMonitor then
      let h := handedOf w channel (pickUpdateId update latest) calls
      some (handOver w h,
        if unrecoverable then none else some (⟨w.session, .durable h⟩, scheduleDurableAck h))
    else none
  | .archive calls =>
    if w.phase.hasChainMonitor then some (w.callAll calls, none) else none
  | .eventTick => w.phase.channelManager.map fun m => (w.eventTick m, none)
  | .channelClosed =>
    if w.phase.channelManager.isSome then some (w.notifyStateChanged, none) else none
  | .stop => some (w, some (⟨w.session, .stop⟩, stop))
  | .exportState => some (w, some (⟨w.session, .exportState⟩, exportState))
  | .importState entries => some (w, some (⟨w.session, .importState⟩, importState entries))
  | .settle serial ok => (w.settle serial ok).map fun w' => (w', none)
  | .react serial => (w.react serial).map fun w' => (w', none)
  | .crash => some (w.crash, none)

/-- The requests of a process that died have no effect. -/
def execTask (j : Task χ M) (q : Request χ M) (ok : Bool) (w : Node χ M) :
    Option (Except String (Answer q) × Node χ M) :=
  if j.session = w.session then exec q ok w else none

/-- The node over its storage.  What a process ran dies with it. -/
def node (χ M : Type) : Machine (Node χ M) (Request χ M) Answer String Bool (Task χ M) (Event χ M)
    where
  exec := execTask
  event := effect
  runs := fun j w => j.session = w.session

abbrev NodeConfig (χ M : Type) := Config (Node χ M) (Request χ M) Answer String (Task χ M)

abbrev NodeLabel (χ M : Type) := Label Bool (Event χ M)

/-- What the storage holds before the first start. -/
def before (entries : List (Key × Value χ M)) : List (Write χ M) :=
  entries.map fun e => ⟨0, 0, false, e.1, some e.2⟩

/-- A node that was never started, over a storage with these entries. -/
def initial (entries : List (Key × Value χ M)) : NodeConfig χ M :=
  { world := { committed := before entries, session := 1 }, pool := [], trace := [] }

end LibreWallet.Persist
