import LibreWallet.Lifecycle.Page

/-
  Lifecycle/Verbs.lean --- starting, stopping, creating and restoring a wallet.

  Mirrors `start`, `stop` and `importState` of `libre-listener-wallet/src/index.ts`
  and `createWallet`, `startNode`, `autoStart`, `stopNode` and `restoreWallet` of
  the classes `WalletController` and `WalletHost`, `await` by `await`.  The two
  classes differ in what the frontend says: the PWA's controller recovers from a
  backup, keeps the mirror and may overwrite a stale copy, the extension's host does
  not.
-/

set_option autoImplicit false

namespace LibreWallet.Lifecycle

open Async Controller

/-- The class whose methods run. -/
inductive Frontend where
  /-- `WalletController` -/
  | pwa
  /-- `WalletHost` -/
  | extension
  deriving DecidableEq, Repr

/-! ## The SDK -/

/-- `try { await … } catch`: an error is only logged. -/
def quietly {α : Type} (p : Code α) : Code Unit := do
  let _ ← p.attempt
  pure ()

def DECODE_MSG : String :=
  "Stored channel_manager failed to decode (corrupt or key-mismatched state). " ++
    "Refusing to start to avoid force-closing live channels — restore from a backup instead."

/-- Whether a stored manager was made with other keys. -/
def keyMismatched (x : Wallet) : Option Value → Bool
  | some (.manager s _) => x.seed ≠ some s
  | some _ => true
  | none => false

/-- `teardownRuntime({ persist: false })` of instance `i`, and its lock is freed. -/
def tornDown (i : Nat) (w : Page) : Page :=
  { w.setWallet i fun x =>
      { x with managed := false, isRunning := false, releaseRunLock := false } with
    runLock := if w.runLock = some i then none else w.runLock }

/-- `start` up to the loading of the channel manager. -/
def loadState (i : Nat) (random : Seed) : Code Unit := do
  -- the WASM module, the storage cache
  ask (.turn true)
  let _ ← ask (.getItem (.other "ldk_keys_index"))
  ask (.turn true)
  let _ ← ask (.getItem .stateVersion)
  let stored : Option Value ← ask (.loadSeed i)
  match stored with
  | none => ask (.storeSeed i random)
  | some (.seed _) => pure ()
  | some _ => .fail "Stored ldk_seed is malformed"
  -- the monitors and their high-water mark, the network graph, the scorer
  ask (.turn true)
  let manager : Option Value ← ask (.getItem .channelManager)
  let w ← .get
  if keyMismatched (w.instances i) manager then .fail DECODE_MSG
  -- the chain tip of a fresh manager, or nothing
  ask (.turn true)

/-- `start` once its lock is held. -/
def startLocked (i : Nat) (random : Seed) : Code Unit := do
  loadState i random
  .modify fun w => w.setWallet i fun x => { x with managed := true }
  -- the initial chain sync, the pending sweeps
  ask (.turn true)
  .modify fun w => w.setWallet i fun x => { x with isRunning := true }
  -- the payment and close logs, Nostr Wallet Connect
  ask (.turn true)

/-- `start` of instance `i`: a failure tears down and frees the lock. -/
def start (i : Nat) (random : Seed) : Code Unit := do
  let w ← .get
  if (w.instances i).isRunning then pure ()
  else
    if !(w.instances i).releaseRunLock then
      let release : Bool ← ask (.acquireRunLock i)
      if !release then .fail NODE_ALREADY_RUNNING_MSG
    (startLocked i random).rescue fun e => do
      quietly (ask (.turn true))
      .modify (tornDown i)
      .fail e

/-- `stop` of instance `i`.  It takes the lock's release function first, and frees the
lock at the end. -/
def stop (i : Nat) : Code Unit := do
  let w ← .get
  if !(w.instances i).isRunning then pure ()
  else
    let released := (w.instances i).releaseRunLock
    .modify fun w => w.setWallet i fun x => { x with releaseRunLock := false }
    quietly (ask (.turn true))
    quietly (ask (.persistManager i))
    quietly (ask (.turn true))
    .modify fun w =>
      { w.setWallet i fun x => { x with managed := false, isRunning := false } with
        runLock := if released && w.runLock = some i then none else w.runLock }

/-- Write entries one by one. -/
def writeEntries : List (Key × Value) → Code Unit
  | [] => pure ()
  | (k, v) :: entries => do
    ask (.setItem k v)
    writeEntries entries

/-- `importState`: the seed is written last. -/
def importState (i : Nat) (envelope : Envelope) (secret : String) : Code Unit := do
  let w ← .get
  if (w.instances i).isRunning then .fail "Cannot import while running"
  ask (.turn false)
  if !envelope.opens secret then .fail "decryption failed"
  ask (.removeItem .monitorHighwater)
  writeEntries (envelope.entries.filter fun e => decide (e.1 ≠ .ldkSeed))
  writeEntries (envelope.entries.filter fun e => decide (e.1 = .ldkSeed))

/-! ## The controller -/

/-- `getConfig`: the PWA moves an alias out of the config. -/
def getConfig (fe : Frontend) : Code Unit := do
  ask (.turn true)
  let cfg : Option Value ← ask (.getItem .ldkConfig)
  match fe with
  | .extension => pure ()
  | .pwa =>
    let dedicated : Option Value ← ask (.getItem .nodeAlias)
    match configAlias cfg, dedicated with
    | some a, none => quietly (ask (.setItem .nodeAlias (.text a)))
    | _, _ => pure ()

/-- `buildWallet`: a new instance, and its number. -/
def buildWallet (fe : Frontend) : Code Nat := do
  getConfig fe
  let w ← .get
  .modify fun w => { w with wallets := w.wallets ++ [{}] }
  pure w.wallets.length

/-- `currentNode` -/
def currentNode : Code Nat := do
  let w ← .get
  match w.wallet with
  | some i => if (w.instances i).isRunning then pure i else .fail NOT_RUNNING_MSG
  | none => .fail NOT_RUNNING_MSG

def applySweepAddress : Code Unit :=
  quietly do
    ask (.turn true)
    ask (.getItem .sweepAddress)

/-- Whether a restore may overwrite the stored channel state. -/
def mayOverwrite (fe : Frontend) (envelope : Envelope) : Code Bool := do
  match fe with
  | .extension => pure false
  | .pwa =>
    let localSeed : Option Value ← ask (.getItem .ldkSeed)
    match parseSeed localSeed with
    | some _ => ask (.turn false)
    | none => pure ()
    let ours := (parseSeed localSeed).any envelope.opens
    let localRaw : Option Value ← ask (.getItem .stateVersion)
    pure (mayOverwriteStaleLocal true ours (parseVersion localRaw)
      (if ours then some envelope.stateVersion else none))

/-- The stale copy is removed; the device's own settings stay. -/
def clearStale : Code Unit := do
  let preservedConfig : Option Value ← ask (.getItem .ldkConfig)
  let preservedSweep : Option Value ← ask (.getItem .sweepAddress)
  ask .clear
  match preservedConfig with
  | some v => ask (.setItem .ldkConfig v)
  | none => pure ()
  match preservedSweep with
  | some v => ask (.setItem .sweepAddress v)
  | none => pure ()

/-- `restoreWallet` between its `try` and its `finally`, up to the import. -/
def restoreImport (fe : Frontend) (envelope : Envelope) (secret : String) : Code Nat := do
  let _ ← buildWallet fe
  ask (.turn false)
  if !envelope.opens secret then .fail NOT_DECRYPTED_MSG
  let target : Option Value ← ask (.getItem .channelManager)
  let canOverwriteStale ← if target.isSome then mayOverwrite fe envelope else pure false
  match restoreBlockReason false false (target.isSome && !canOverwriteStale) with
  | some funded => .fail funded
  | none =>
    if canOverwriteStale then clearStale
    -- the active network
    ask (.turn true)
    let i ← buildWallet fe
    importState i envelope secret
    pure i

/-- `restoreWallet` between its `try` and its `finally`. -/
def restoreBody (fe : Frontend) (envelope : Envelope) (secret : String) (random : Seed) :
    Code Nat := do
  let i ← restoreImport fe envelope secret
  .modify fun w =>
    { w with wallet := some i, mirror := if fe = .pwa then 0 else w.mirror }
  start i random
  applySweepAddress
  match fe with
  | .pwa => quietly (ask (.turn true))
  | .extension => pure ()
  currentNode

/-- `restoreWallet` -/
def restoreWallet (fe : Frontend) (envelope : Envelope) (secret : String) (random : Seed) :
    Code Nat := do
  let w ← .get
  match restoreBlockReason w.wallet.isSome w.restoring false with
  | some reason => .fail reason
  | none =>
    .modify fun w => { w with restoring := true }
    finally_ (restoreBody fe envelope secret random)
      (.modify fun w => { w with restoring := false })

/-- `recordStateVersionMirror` -/
def recordStateVersionMirror : Code Unit :=
  quietly do
    let raw : Option Value ← ask (.getItem .stateVersion)
    match raw with
    | none => pure ()
    | some v => .modify fun w => { w with mirror := nextMirrorValue (parseVersion (some v)) w.mirror }

/-- `recoverOrHalt`; `hasFetcher` is whether a backup source was injected. -/
def recoverOrHalt (fe : Frontend) (hasFetcher : Bool) (random : Seed) : Code (Option Nat) := do
  let localSeed : Option Value ← ask (.getItem .ldkSeed)
  let localRaw : Option Value ← ask (.getItem .stateVersion)
  let w ← .get
  let fetched ← match hasFetcher, parseSeed localSeed with
    | true, some _ => (ask .fetchBackup).rescue fun _ => .done none
    | _, _ => pure none
  let readable := fetched.filter fun e => (parseSeed localSeed).any e.opens
  match fetched with
  | some _ => ask (.turn false)
  | none => pure ()
  match recoveryDecision (parseVersion localRaw) w.mirror (readable.map (·.stateVersion)) with
  | .proceed => pure none
  | .recover =>
    match readable, parseSeed localSeed with
    | some envelope, some s =>
      let node ← (restoreWallet fe envelope s random).rescue fun _ =>
        .fail (backupAheadErrorMsg (parseVersion localRaw) envelope.stateVersion)
      pure (some node)
    | _, _ => .fail (stateRollbackErrorMsg (parseVersion localRaw) w.mirror)
  | .halt => .fail (stateRollbackErrorMsg (parseVersion localRaw) w.mirror)

/-- `doStartNode` from the assignment of `this.wallet` on. -/
def startBuilt (fe : Frontend) (i : Nat) (random : Seed) : Code Nat := do
  .modify fun w => { w with wallet := some i }
  (start i random).rescue fun e => do
    .modify fun w => { w with wallet := none }
    .fail e
  applySweepAddress
  match fe with
  | .pwa =>
    recordStateVersionMirror
    quietly (ask (.turn true))
  | .extension => pure ()
  currentNode

/-- `doStartNode` -/
def doStartNode (fe : Frontend) (hasFetcher : Bool) (random : Seed) : Code Nat := do
  ask (.turn true)
  let seed : Option Value ← ask (.getItem .ldkSeed)
  let manager : Option Value ← ask (.getItem .channelManager)
  let createdNew : Option Value ← ask (.getItem .walletCreatedNew)
  if seed.isNone && createdNew.isNone then .fail NO_WALLET_MSG
  if seed.isSome && manager.isNone && createdNew.isNone then .fail NO_CHANNEL_STATE_MSG
  let i ← buildWallet fe
  let recovered ← match fe with
    | .pwa => recoverOrHalt fe hasFetcher random
    | .extension => pure none
  match recovered with
  | some node => pure node
  | none => startBuilt fe i random

/-- `startNode`: calls that overlap share one start. -/
def startNode (fe : Frontend) (hasFetcher : Bool) (random : Seed) : Code Nat := do
  let w ← .get
  match w.startingPromise with
  | some p => ask (.started p)
  | none =>
    if w.isRunning then currentNode
    else
      .modify fun w => { w with startingPromise := some w.promises, promises := w.promises + 1 }
      let r ← (doStartNode fe hasFetcher random).attempt
      .modify fun w' =>
        { w' with startingPromise := none, settled := (w.promises, r) :: w'.settled }
      .ofExcept r

/-- `autoStart`: it never throws. -/
def autoStart (fe : Frontend) (flag hasFetcher unreachable : Bool) (random : Seed) : Code Unit :=
  quietly do
    ask (.turn true)
    let manager : Option Value ← ask (.getItem .channelManager)
    let seed : Option Value ← ask (.getItem .ldkSeed)
    let createdNew : Option Value ← ask (.getItem .walletCreatedNew)
    if flag && seed.isSome && (manager.isSome || createdNew.isSome) then
      let deferred ← match fe with
        | .pwa => do
          let localRaw : Option Value ← ask (.getItem .stateVersion)
          let w ← .get
          pure (manager.isSome && unreachable &&
            localStateRolledBack (parseVersion localRaw) w.mirror)
        | .extension => pure false
      if !deferred then
        let _ ← startNode fe hasFetcher random
        -- the saved peer is dialed
        ask (.turn true)
    else pure ()

/-- `stopNode` -/
def stopNode : Code Unit := do
  let w ← .get
  match w.startingPromise with
  | some p => quietly (ask (.started p))
  | none => pure ()
  let w ← .get
  match w.wallet with
  | none => pure ()
  | some _ =>
    quietly (ask (.turn true))
    -- `await this.wallet.stop()` reads the field again
    let w ← .get
    match w.wallet with
    | none => .fail "Cannot read properties of undefined"
    | some i =>
      stop i
      .modify fun w => { w with wallet := none }

def FUNDED_EXISTS_MSG : String :=
  "A funded wallet already exists on this network. Refusing to overwrite it."

def MALFORMED_SEED_MSG : String := "Seed must be 64 hex characters (32 bytes)."

/-- The seed of `createWallet`'s options. -/
inductive SeedOption where
  | absent
  | malformed
  | given (s : Seed)
  deriving DecidableEq, Repr

/-- `createWallet`; its own seed, and a start's where that makes one, are random. -/
def createWallet (fe : Frontend) (opts : SeedOption) (drawn : Seed) (hasFetcher : Bool)
    (random : Seed) : Code Unit := do
  ask (.turn true)
  let manager : Option Value ← ask (.getItem .channelManager)
  if manager.isSome then .fail FUNDED_EXISTS_MSG
  let create (seedHex : Seed) : Code Unit := do
    ask (.setItem .ldkSeed (.seed seedHex))
    ask (.setItem .walletCreatedNew (.text "1"))
    let node ← startNode fe hasFetcher random
    ask (.resolved seedHex node)
  match opts with
  | .malformed => .fail MALFORMED_SEED_MSG
  | .absent => create drawn
  | .given s => create s

/-- The `onStateChanged` handler of a wallet. -/
def onStateChanged (fe : Frontend) : Code Unit := do
  let manager : Option Value ← ask (.getItem .channelManager)
  if manager.isSome then ask (.removeItem .walletCreatedNew)
  match fe with
  | .pwa => recordStateVersionMirror
  | .extension => pure ()

/-! ## The machine -/

inductive Verb where
  | createWallet (opts : SeedOption) (drawn : Seed)
  | startNode
  | autoStart (flag unreachable : Bool)
  | stopNode
  | restoreWallet (envelope : Envelope) (secret : String)
  | onStateChanged

/-- A call, by its number on its page. -/
structure Task where
  session : Nat
  number : Nat
  verb : Verb

/-- What the environment does. -/
inductive Event where
  /-- A method is called; a start that needs a seed draws `random`. -/
  | call (verb : Verb) (random : Seed)
  /-- A node persists its manager, a monitor, its version or its high-water marks. -/
  | persist (i : Nat) (k : Key) (bytes : String) (version : Nat)
  /-- The page is left, and loaded again. -/
  | reload

/-- What a node stores under a key, where it stores anything. -/
def nodeValue (x : Wallet) (bytes : String) (version : Nat) : Key → Option Value
  | .channelManager => some (managerOf x bytes)
  | .stateVersion => some (.version version)
  | .monitorHighwater => some (.text bytes)
  | .other _ => some (.text bytes)
  | _ => none

/-- The page dies: its storage stays. -/
def reloaded (w : Page) : Page :=
  { session := w.session + 1, calls := w.calls, db := w.db, mirror := w.mirror }

/-- The code of a method. -/
def code (fe : Frontend) (hasFetcher : Bool) (random : Seed) : Verb → Code Unit
  | .createWallet opts drawn => createWallet fe opts drawn hasFetcher random
  | .startNode => do
    let _ ← startNode fe hasFetcher random
    pure ()
  | .autoStart flag unreachable => autoStart fe flag hasFetcher unreachable random
  | .stopNode => stopNode
  | .restoreWallet envelope secret => do
    let _ ← restoreWallet fe envelope secret random
    pure ()
  | .onStateChanged => onStateChanged fe

def effect (fe : Frontend) (hasFetcher : Bool) (e : Event) (w : Page) :
    Option (Page × Option (Task × Code Unit)) :=
  match e with
  | .call verb random =>
    some ({ w with calls := w.calls + 1 },
      some (⟨w.session, w.calls, verb⟩, code fe hasFetcher random verb))
  | .persist i k bytes version =>
    if (w.instances i).managed then
      (nodeValue (w.instances i) bytes version k).map fun v => (w.store k (some v), none)
    else none
  | .reload => some (reloaded w, none)

/-- The calls on one page of a frontend. -/
def lifecycle (fe : Frontend) (hasFetcher : Bool) :
    Machine Page Request Answer String Choice Task Event where
  exec := fun _ => exec
  event := effect fe hasFetcher
  runs := fun j w => j.session = w.session

abbrev PageConfig := Config Page Request Answer String Task

abbrev PageLabel := Label Choice Event

/-- A freshly loaded page over a database. -/
def opened (db : Db) (mirror : Nat) : PageConfig :=
  { world := { db, mirror }, pool := [], trace := [] }

end LibreWallet.Lifecycle
