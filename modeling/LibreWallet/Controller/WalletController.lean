import LibreWallet.Controller.Recovery

/-
  Controller/WalletController.lean --- the verbs that start, stop, restore and
  export a wallet.

  Mirrors `restoreWallet`, `doStartNode`, `startNode`, `stopNode`, `exportBackup`
  and `recoverOrHalt` of `wallet-core/src/wallet-controller.ts`, with what they use
  of the SDK (`start`, `importState`, `exportState`, `verifyBackupEnvelope`), for
  the one network that is active.

  A verb acts on `this.wallet` and on what the origin keeps (its database, the
  version mirror in localStorage, the Web Lock); its error is the message thrown.
-/

set_option autoImplicit false

namespace LibreWallet.Controller

/-! ## What a page and its origin hold -/

/-- `this.wallet`: undefined, an instance that is not running, a running node. -/
inductive WalletState where
  | absent
  | built
  | running
  deriving DecidableEq, Repr

/-- The per-network database, as far as the guards and the backup read it. -/
structure LocalDb where
  seed : Option String
  stateVersion : Nat
  channelManager : Bool
  createdNew : Bool := false
  deriving DecidableEq, Repr

/-- Everything an origin keeps across page loads, and the page that holds its
single-node lock. -/
structure OriginStore where
  db : LocalDb
  mirror : Nat := 0
  runLock : Option String := none
  deriving DecidableEq, Repr

/-- A Drive backup: the seed that decrypts it and the version it holds. -/
structure Envelope where
  seedHex : String
  stateVersion : Nat
  deriving DecidableEq, Repr

/-- `BackupVerification`. -/
structure Verification where
  ok : Bool
  stateVersion : Option Nat
  deriving DecidableEq, Repr

/-- Decrypt-only verification.  A secret is represented by the seed it denotes. -/
def verifyBackupEnvelope (envelope : Envelope) (secret : String) : Verification :=
  if secret = envelope.seedHex then { ok := true, stateVersion := some envelope.stateVersion }
  else { ok := false, stateVersion := none }

/-- The state a verb of the controller acts on. -/
structure Node where
  wallet : WalletState
  store : OriginStore
  deriving DecidableEq, Repr

def NODE_ALREADY_RUNNING_MSG : String :=
  "[NODE_ALREADY_RUNNING] This wallet is already running in another tab, window, or " ++
    "context. Close the other one and try again."

def NO_WALLET_MSG : String :=
  "No wallet on this network. Create a new wallet or restore from a backup first."

def NO_CHANNEL_STATE_MSG : String :=
  "This seed has no channel state. Restore from a backup before starting — starting a " ++
    "stateless node can force-close existing channels."

def NOT_DECRYPTED_MSG : String := "Backup could not be decrypted with that secret."

def NOT_RUNNING_MSG : String := "Wallet is not running"

/-! ## The SDK's start and import -/

/-- A `start` of the SDK: its error, and what it leaves of what the origin keeps.  The verbs below
take it as a parameter. -/
abbrev SdkStart := OriginStore → Except String Unit × OriginStore

/-- `LibreListenerWallet.start` taken as a whole: the single-node lock, a seed where there is none
yet, and the first channel manager.  `up` is whether the rest of the start (WASM,
chain sync) succeeds. -/
def walletStart (token : String) (up : Bool) : SdkStart := fun s =>
  if s.runLock.any (· ≠ token) then (.error NODE_ALREADY_RUNNING_MSG, s)
  else if up then
    (.ok (), { s with
      runLock := some token
      db := { s.db with seed := s.db.seed.orElse fun _ => some token
                        channelManager := true } })
  else (.error "start failed", s)

/-- `importState` into the origin's database, after it was cleared where a stale
copy is overwritten; the mirror is reset. -/
def importState (s : OriginStore) (envelope : Envelope) (cleared : Bool) : OriginStore :=
  { s with
    db := { seed := some envelope.seedHex, stateVersion := envelope.stateVersion
            channelManager := true, createdNew := !cleared && s.db.createdNew }
    mirror := 0 }

/-! ## The controller -/

/-- `restoreWallet`. -/
def restoreWallet (start : SdkStart) (n : Node) (envelope : Envelope)
    (secret : String) : Except String Unit × Node :=
  match restoreBlockReason (n.wallet ≠ .absent) false false with
  | some reason => (.error reason, n)
  | none =>
    if (verifyBackupEnvelope envelope secret).ok then
      let db := n.store.db
      let ours := db.seed.map (verifyBackupEnvelope envelope)
      let canOverwriteStale :=
        mayOverwriteStaleLocal db.channelManager (ours.any (·.ok)) db.stateVersion
          (ours.bind (·.stateVersion))
      match restoreBlockReason false false (db.channelManager && !canOverwriteStale) with
      | some funded => (.error funded, n)
      | none =>
        match start (importState n.store envelope canOverwriteStale) with
        | (.ok (), store) => (.ok (), { wallet := .running, store })
        -- `this.wallet` is assigned before `start()` and stays assigned
        | (.error e, store) => (.error e, { wallet := .built, store })
    else (.error NOT_DECRYPTED_MSG, n)

/-- `recoverOrHalt`: `none` lets the start proceed.  `fetched` is what the backup
fetcher returned, `none` also where no fetcher is wired. -/
def recoverOrHalt (start : SdkStart) (fetched : Option Envelope) (n : Node) :
    Option (Except String Unit × Node) :=
  let db := n.store.db
  let readable := do
    let localSeed ← db.seed
    let envelope ← fetched
    let version ← (verifyBackupEnvelope envelope localSeed).stateVersion
    return (localSeed, envelope, version)
  match recoveryDecision db.stateVersion n.store.mirror (readable.map (·.2.2)) with
  | .proceed => none
  | .recover =>
    match readable with
    | some (localSeed, envelope, _) =>
      match restoreWallet start n envelope localSeed with
      | (.ok (), n') => some (.ok (), n')
      | (.error _, n') => some (.error (backupAheadErrorMsg db.stateVersion envelope.stateVersion), n')
    | none => some (.error (stateRollbackErrorMsg db.stateVersion n.store.mirror), n)
  | .halt => some (.error (stateRollbackErrorMsg db.stateVersion n.store.mirror), n)

/-- `doStartNode`. -/
def doStartNode (start : SdkStart) (fetched : Option Envelope) (n : Node) :
    Except String Unit × Node :=
  let db := n.store.db
  if db.seed.isNone && !db.createdNew then (.error NO_WALLET_MSG, n)
  else if db.seed.isSome && !db.channelManager && !db.createdNew then
    (.error NO_CHANNEL_STATE_MSG, n)
  else
    match recoverOrHalt start fetched n with
    | some recovered => recovered
    | none =>
      match start n.store with
      | (.ok (), s) =>
        (.ok (), { wallet := .running
                   store := { s with mirror := nextMirrorValue s.db.stateVersion s.mirror } })
      | (.error e, s) => (.error e, { wallet := .absent, store := s })

/-- `startNode`. -/
def startNode (start : SdkStart) (fetched : Option Envelope) (n : Node) :
    Except String Unit × Node :=
  if n.wallet = .running then (.ok (), n) else doStartNode start fetched n

/-- `stopNode`; `down` is whether the teardown of a running node succeeds. -/
def stopNode (token : String) (down : Bool) (n : Node) : Except String Unit × Node :=
  match n.wallet with
  | .absent => (.ok (), n)
  | .built => (.ok (), { n with wallet := .absent })
  | .running =>
    -- the lock is freed in a `finally`
    let store :=
      if n.store.runLock = some token then { n.store with runLock := none } else n.store
    if down then (.ok (), { wallet := .absent, store })
    else (.error "stop failed", { n with store })

/-- `exportBackup`: it requires the node to run. -/
def exportBackup (n : Node) : Except String Envelope :=
  if n.wallet = .running then
    match n.store.db.seed with
    | some seedHex => .ok { seedHex, stateVersion := n.store.db.stateVersion }
    | none => .error "Cannot export: no wallet seed found in storage"
  else .error NOT_RUNNING_MSG

/-! ## What the verbs leave -/

/-- A stop that succeeds leaves no wallet. -/
theorem stopNode_wallet {token : String} {down : Bool} {n n' : Node}
    (h : stopNode token down n = (.ok (), n')) : n'.wallet = .absent := by
  cases hn : n.wallet with
  | absent =>
    simp only [stopNode, hn, Prod.mk.injEq, true_and] at h
    rw [← h, hn]
  | built =>
    simp only [stopNode, hn, Prod.mk.injEq, true_and] at h
    rw [← h]
  | running =>
    cases down with
    | true =>
      simp only [stopNode, hn, if_true, Prod.mk.injEq, true_and] at h
      rw [← h]
    | false => simp [stopNode, hn] at h

/-- A stop starts nothing. -/
theorem stopNode_runs (token : String) (down : Bool) (n : Node)
    (h : (stopNode token down n).2.wallet = .running) : n.wallet = .running := by
  cases hn : n.wallet with
  | absent => simp [stopNode, hn] at h
  | built => simp [stopNode, hn] at h
  | running => rfl

/-- A stop changes neither the database nor the mirror. -/
theorem stopNode_db (token : String) (down : Bool) (n : Node) :
    (stopNode token down n).2.store.db = n.store.db ∧
      (stopNode token down n).2.store.mirror = n.store.mirror := by
  cases hn : n.wallet <;> cases down <;> simp only [stopNode, hn, if_true] <;>
    first | exact ⟨rfl, rfl⟩ | (by_cases hl : n.store.runLock = some token <;> simp [hl])

/-- The SDK's start keeps the version and never loses the seed. -/
theorem walletStart_db (token : String) (up : Bool) (s : OriginStore) :
    (walletStart token up s).2.db.stateVersion = s.db.stateVersion ∧
      (s.db.seed.isSome = true → (walletStart token up s).2.db.seed = s.db.seed) := by
  simp only [walletStart]
  split
  · exact ⟨rfl, fun _ => rfl⟩
  split
  · refine ⟨rfl, fun hs => ?_⟩
    obtain ⟨seed, hs⟩ := Option.isSome_iff_exists.mp hs
    simp [hs]
  · exact ⟨rfl, fun _ => rfl⟩

/-- Without a view of the backup nothing is restored: a start keeps the version. -/
theorem startNode_none (token : String) (up : Bool) (n : Node) :
    (startNode (walletStart token up) none n).2.store.db.stateVersion = n.store.db.stateVersion ∧
      (n.store.db.seed.isSome = true →
        (startNode (walletStart token up) none n).2.store.db.seed = n.store.db.seed) := by
  have hrec : ∀ x, recoverOrHalt (walletStart token up) none n = some x → x.2 = n := by
    intro x hx
    simp only [recoverOrHalt] at hx
    cases hd : recoveryDecision n.store.db.stateVersion n.store.mirror none with
    | proceed => cases hs : n.store.db.seed <;> simp [hs, hd] at hx
    | recover => cases hs : n.store.db.seed <;> simp [hs, hd] at hx <;> exact hx ▸ rfl
    | halt => cases hs : n.store.db.seed <;> simp [hs, hd] at hx <;> exact hx ▸ rfl
  have hdb := walletStart_db token up n.store
  simp only [startNode, doStartNode]
  split
  · exact ⟨rfl, fun _ => rfl⟩
  split
  · exact ⟨rfl, fun _ => rfl⟩
  split
  · exact ⟨rfl, fun _ => rfl⟩
  split
  · rename_i x hx
    rw [hrec x hx]
    exact ⟨rfl, fun _ => rfl⟩
  · split
    · rename_i s hs
      rw [hs] at hdb
      exact hdb
    · rename_i e s hs
      rw [hs] at hdb
      exact hdb

/-- A restore never loses the seed. -/
theorem restoreWallet_seed (token : String) (up : Bool) (n : Node) (envelope : Envelope)
    (secret : String) (h : n.store.db.seed.isSome = true) :
    (restoreWallet (walletStart token up) n envelope secret).2.store.db.seed.isSome = true := by
  have hkept : ∀ cleared r s, walletStart token up (importState n.store envelope cleared) = (r, s) →
      s.db.seed.isSome = true := by
    intro cleared r s hs
    have hseed := (walletStart_db token up (importState n.store envelope cleared)).2 rfl
    rw [hs] at hseed
    rw [hseed]
    rfl
  simp only [restoreWallet]
  split
  · exact h
  split
  · split
    · exact h
    · split
      · rename_i s hs
        exact hkept _ _ _ hs
      · rename_i e s hs
        exact hkept _ _ _ hs
  · exact h

/-- A restore is refused, or leaves the backup's version, whether or not the start succeeds. -/
theorem restoreWallet_version (token : String) (up : Bool) (n : Node) (envelope : Envelope)
    (secret : String) :
    (restoreWallet (walletStart token up) n envelope secret).2.store.db.stateVersion =
        envelope.stateVersion ∨
      (restoreWallet (walletStart token up) n envelope secret).2 = n ∧
        ∃ e, (restoreWallet (walletStart token up) n envelope secret).1 = .error e := by
  have hkept : ∀ cleared r s, walletStart token up (importState n.store envelope cleared) = (r, s) →
      s.db.stateVersion = envelope.stateVersion := by
    intro cleared r s hs
    have hversion := (walletStart_db token up (importState n.store envelope cleared)).1
    rw [hs] at hversion
    exact hversion
  simp only [restoreWallet]
  split
  · exact .inr ⟨rfl, _, rfl⟩
  split
  · split
    · exact .inr ⟨rfl, _, rfl⟩
    · split
      · rename_i s hs
        exact .inl (hkept _ _ _ hs)
      · rename_i e s hs
        exact .inl (hkept _ _ _ hs)
  · exact .inr ⟨rfl, _, rfl⟩

section Refused

variable {start : SdkStart} {n n' : Node} {envelope : Envelope} {fetched : Option Envelope} {secret e : String}

/-- A restore that is refused starts nothing. -/
theorem restoreWallet_error (h : restoreWallet start n envelope secret = (.error e, n'))
    (hr : n'.wallet = .running) : n.wallet = .running := by
  simp only [restoreWallet] at h
  split at h
  · cases h
    exact hr
  · split at h
    · split at h
      · cases h
        exact hr
      · split at h
        · cases h
        · cases h
          cases hr
    · cases h
      exact hr

/-- Neither does a start that is halted before it. -/
theorem recoverOrHalt_error (h : recoverOrHalt start fetched n = some (.error e, n'))
    (hr : n'.wallet = .running) : n.wallet = .running := by
  simp only [recoverOrHalt] at h
  split at h
  · cases h
  · split at h
    · split at h
      · cases h
      · rename_i hrestore
        cases h
        exact restoreWallet_error hrestore hr
    · cases h
      exact hr
  · cases h
    exact hr

/-- A start that is refused starts nothing. -/
theorem startNode_error (h : startNode start fetched n = (.error e, n'))
    (hr : n'.wallet = .running) : n.wallet = .running := by
  simp only [startNode, doStartNode] at h
  split at h
  · cases h
  split at h
  · cases h
    exact hr
  split at h
  · cases h
    exact hr
  split at h
  · rename_i hrecover
    exact recoverOrHalt_error (hrecover.trans (congrArg some h)) hr
  · split at h
    · cases h
    · cases h
      cases hr

end Refused

/-- What is not running cannot be exported. -/
theorem exportBackup_of_not_running {n : Node} (h : n.wallet ≠ .running) :
    exportBackup n = .error NOT_RUNNING_MSG := by
  simp [exportBackup, h]

/-- An export holds the version of the database it reads. -/
theorem exportBackup_ok {n : Node} {envelope : Envelope} (h : exportBackup n = .ok envelope) :
    n.wallet = .running ∧ envelope.stateVersion = n.store.db.stateVersion := by
  simp only [exportBackup] at h
  split at h
  · rename_i hr
    split at h
    · cases h
      exact ⟨hr, rfl⟩
    · cases h
  · cases h

end LibreWallet.Controller
