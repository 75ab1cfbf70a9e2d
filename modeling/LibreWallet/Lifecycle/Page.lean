import LibreWallet.Async.Machine
import LibreWallet.Controller.WalletController

/-
  Lifecycle/Page.lean --- one page, its wallets and the database of its network.

  What `wallet-core/src/wallet-controller.ts` and
  `browser-extension/src/offscreen/wallet-host.ts` act on: the network's IndexedDB
  with every key on its own, the mirror in localStorage, the Web Lock, the
  `LibreListenerWallet` instances that were built, and the controller's own fields.
  Every `await` of the two classes and of the SDK's start, stop and import is a
  request of its own.
-/

set_option autoImplicit false

namespace LibreWallet.Lifecycle

open Async

/-! ## The database -/

/-- A 32-byte seed, as lower-case hex. -/
abbrev Seed := String

/-- The keys of a network's database. -/
inductive Key where
  | ldkSeed
  | channelManager
  | stateVersion
  | nodeAlias
  | monitorHighwater
  | walletCreatedNew
  | ldkConfig
  | sweepAddress
  | other (name : String)
  deriving DecidableEq, Repr

/-- What is stored: a channel manager was made with the keys of a seed. -/
inductive Value where
  | seed (hex : Seed)
  | manager (seed : Seed) (bytes : String)
  | version (n : Nat)
  | config (nodeAlias : Option String)
  | text (s : String)
  deriving DecidableEq, Repr

abbrev Db := Key → Option Value

/-- `parseInt(state_version) || 0` -/
def parseVersion : Option Value → Nat
  | some (.version n) => n
  | _ => 0

/-- The seed that an `ldk_seed` value holds. -/
def parseSeed : Option Value → Option Seed
  | some (.seed s) => some s
  | _ => none

/-- The alias that an `ldk_config` value still has. -/
def configAlias : Option Value → Option String
  | some (.config a) => a
  | _ => none

/-- Device-local keys are in no backup. -/
def Key.carried : Key → Bool
  | .monitorHighwater | .walletCreatedNew | .ldkConfig | .sweepAddress => false
  | _ => true

/-- A backup of a wallet: the entries of the storage that it was exported from. -/
structure Envelope where
  seedHex : Seed
  passphrase : Option String
  entries : List (Key × Value)
  nodup : (entries.map Prod.fst).Nodup
  carried : ∀ e ∈ entries, e.1.carried = true
  seed : ∀ v, (.ldkSeed, v) ∈ entries ↔ v = .seed seedHex
  manager : ∀ v, (.channelManager, v) ∈ entries → ∃ bytes, v = .manager seedHex bytes

namespace Envelope

/-- `entries[k]` -/
def entry (e : Envelope) (k : Key) : Option Value := (e.entries.find? fun x => x.1 = k).map (·.2)

/-- The version that `verifyBackup` reads. -/
def stateVersion (e : Envelope) : Nat := parseVersion (e.entry .stateVersion)

/-- Which secrets decrypt it. -/
def opens (e : Envelope) (secret : String) : Bool :=
  secret = e.seedHex || e.passphrase = some secret

end Envelope

/-! ## Instances and pages -/

/-- A `LibreListenerWallet`. -/
structure Wallet where
  /-- The seed that its start loaded: that of its keys. -/
  seed : Option Seed := none
  /-- Its channel manager exists. -/
  managed : Bool := false
  isRunning : Bool := false
  /-- `releaseRunLock` is defined. -/
  releaseRunLock : Bool := false
  deriving DecidableEq, Repr

structure Page where
  /-- How often the page was loaded. -/
  session : Nat := 0
  /-- How many calls were made. -/
  calls : Nat := 0
  db : Db := fun _ => none
  mirror : Nat := 0
  /-- The instance that holds the single-node Web Lock. -/
  runLock : Option Nat := none
  /-- Every instance that was built, by its number. -/
  wallets : List Wallet := []
  -- the controller's fields
  wallet : Option Nat := none
  startingPromise : Option Nat := none
  restoring : Bool := false
  /-- How many starts were made. -/
  promises : Nat := 0
  /-- The starts that are over. -/
  settled : List (Nat × Except String Nat) := []

namespace Page

def instances (w : Page) (i : Nat) : Wallet := w.wallets.getD i {}

/-- `this.wallet.status() === "Running"` -/
def isRunning (w : Page) : Bool := w.wallet.any fun i => (w.instances i).isRunning

def setWallet (w : Page) (i : Nat) (f : Wallet → Wallet) : Page :=
  { w with wallets := w.wallets.modify i f }

def store (w : Page) (k : Key) (v : Option Value) : Page :=
  { w with db := Function.update w.db k v }

@[simp] theorem store_db (w : Page) (k : Key) (v : Option Value) :
    (w.store k v).db = Function.update w.db k v := rfl

@[simp] theorem setWallet_db (w : Page) (i : Nat) (f : Wallet → Wallet) :
    (w.setWallet i f).db = w.db := rfl

/-- A new instance is as if it had always been there. -/
@[simp] theorem instances_append (w : Page) (i : Nat) :
    ({ w with wallets := w.wallets ++ [{}] } : Page).instances i = w.instances i := by
  simp only [instances, List.getD_eq_getElem?_getD, List.getElem?_append]
  split
  · rfl
  · rename_i h
    rw [List.getElem?_eq_none (Nat.not_lt.mp h), List.getElem?_singleton]
    split <;> rfl

theorem instances_setWallet (w : Page) (i j : Nat) (f : Wallet → Wallet)
    (h : j < w.wallets.length) :
    (w.setWallet i f).instances j = if i = j then f (w.instances j) else w.instances j := by
  simp only [instances, setWallet, List.getD_eq_getElem?_getD, List.getElem?_modify]
  rw [List.getElem?_eq_getElem h]
  split <;> simp

/-- An update of an instance, seen from any instance. -/
theorem instances_setWallet_cases (w : Page) (i j : Nat) (f : Wallet → Wallet) :
    (w.setWallet i f).instances j = w.instances j ∨
      (w.setWallet i f).instances j = f (w.instances j) ∧ i = j := by
  by_cases hlen : j < w.wallets.length
  · rw [instances_setWallet w i j f hlen]
    split
    · exact .inr ⟨rfl, by assumption⟩
    · exact .inl rfl
  · refine .inl ?_
    simp only [instances, setWallet, List.getD_eq_getElem?_getD]
    rw [List.getElem?_eq_none (by simpa using hlen), List.getElem?_eq_none (by simpa using hlen)]

theorem instances_setWallet_of_ne (w : Page) {i j : Nat} (f : Wallet → Wallet) (h : i ≠ j) :
    (w.setWallet i f).instances j = w.instances j :=
  (w.instances_setWallet_cases i j f).resolve_right fun hij => h hij.2

theorem instances_of_wallets {w w' : Page} (h : w'.wallets = w.wallets) :
    w'.instances = w.instances := by
  funext i
  rw [instances, instances, h]

end Page

/-! ## Requests -/

/-- What the code awaits. -/
inductive Request where
  /-- Something that changes none of this: it succeeds, or fails where it may. -/
  | turn (mayFail : Bool)
  | getItem (k : Key)
  | setItem (k : Key) (v : Value)
  | removeItem (k : Key)
  | clear
  /-- `startingPromise` number `p`. -/
  | started (p : Nat)
  | fetchBackup
  | acquireRunLock (i : Nat)
  /-- The start of `i` reads `ldk_seed`. -/
  | loadSeed (i : Nat)
  /-- The start of `i` stores a fresh `ldk_seed`. -/
  | storeSeed (i : Nat) (s : Seed)
  /-- `i` serializes its channel manager, if it has one, and stores it. -/
  | persistManager (i : Nat)
  /-- The caller of `createWallet` has its result. -/
  | resolved (s : Seed) (i : Nat)
  deriving DecidableEq, Repr

abbrev Answer : Request → Type
  | .getItem _ => Option Value
  | .loadSeed _ => Option Value
  | .started _ => Nat
  | .fetchBackup => Option Envelope
  | .acquireRunLock _ => Bool
  | _ => Unit

/-- What the environment chooses: whether an operation succeeds, what the backup
fetcher finds, whether Web Locks are missing, and what LDK serializes. -/
structure Choice where
  ok : Bool := true
  backup : Option Envelope := none
  lockless : Bool := false
  bytes : String := ""

abbrev Code (α : Type) := Async.Proc Page Request Answer String α

abbrev ask (q : Request) : Code (Answer q) := .request q

def STORAGE_MSG : String := "storage operation failed"

/-- The value that an instance's channel manager serializes to. -/
def managerOf (x : Wallet) (bytes : String) : Value := .manager (x.seed.getD "") bytes

/-- How a request takes effect. -/
def exec : (q : Request) → Choice → Page → Option (Except String (Answer q) × Page)
  | .turn mayFail, c, w => some (if mayFail && !c.ok then .error "failed" else .ok (), w)
  | .getItem k, c, w => some (if c.ok then .ok (w.db k) else .error STORAGE_MSG, w)
  | .setItem k v, c, w =>
    some (if c.ok then (.ok (), w.store k (some v)) else (.error STORAGE_MSG, w))
  | .removeItem k, c, w =>
    some (if c.ok then (.ok (), w.store k none) else (.error STORAGE_MSG, w))
  | .clear, c, w =>
    some (if c.ok then (.ok (), { w with db := fun _ => none }) else (.error STORAGE_MSG, w))
  | .started p, _, w => (w.settled.lookup p).map fun r => (r, w)
  | .fetchBackup, c, w => some (if c.ok then .ok c.backup else .error "fetch failed", w)
  | .acquireRunLock i, c, w =>
    some (if c.lockless then (.ok true, w.setWallet i fun x => { x with releaseRunLock := true })
      else if c.ok && w.runLock.isNone then
        (.ok true, { w.setWallet i fun x => { x with releaseRunLock := true } with runLock := some i })
      else (.ok false, w))
  | .loadSeed i, c, w =>
    some (if c.ok then (.ok (w.db .ldkSeed), w.setWallet i fun x =>
        { x with seed := parseSeed (w.db .ldkSeed) })
      else (.error STORAGE_MSG, w))
  | .storeSeed i s, c, w =>
    some (if c.ok then (.ok (), (w.store .ldkSeed (some (.seed s))).setWallet i fun x =>
        { x with seed := some s })
      else (.error STORAGE_MSG, w))
  | .persistManager i, c, w =>
    some (if !(w.instances i).managed then (.ok (), w)
      else if c.ok then
        (.ok (), w.store .channelManager (some (managerOf (w.instances i) c.bytes)))
      else (.error STORAGE_MSG, w))
  | .resolved _ _, _, w => some (.ok (), w)

/-- Whether a request may change the database. -/
def Request.writes : Request → Bool
  | .setItem _ _ | .removeItem _ | .clear | .storeSeed _ _ | .persistManager _ => true
  | _ => false

/-- A request that does not write keeps the database and the controller's fields. -/
theorem exec_reads {q : Request} {c : Choice} {w w' : Page} {r : Except String (Answer q)}
    (hq : q.writes = false) (he : exec q c w = some (r, w')) :
    w'.db = w.db ∧ w'.wallet = w.wallet ∧ w'.startingPromise = w.startingPromise ∧
      w'.restoring = w.restoring := by
  cases q with
  | setItem | removeItem | clear | storeSeed | persistManager => cases hq
  | started p =>
    simp only [exec, Option.map_eq_some_iff] at he
    obtain ⟨_, -, he⟩ := he
    cases he
    exact ⟨rfl, rfl, rfl, rfl⟩
  | acquireRunLock i =>
    simp only [exec, Option.some.injEq] at he
    split at he
    · cases he
      exact ⟨rfl, rfl, rfl, rfl⟩
    · split at he <;> cases he <;> exact ⟨rfl, rfl, rfl, rfl⟩
  | loadSeed i =>
    simp only [exec, Option.some.injEq] at he
    split at he <;> cases he <;> exact ⟨rfl, rfl, rfl, rfl⟩
  | _ =>
    cases he
    exact ⟨rfl, rfl, rfl, rfl⟩

/-- A `finally` clause. -/
def finally_ {α : Type} (p : Code α) (f : Code Unit) : Code α := do
  let r ← p.attempt
  f
  .ofExcept r

end LibreWallet.Lifecycle
