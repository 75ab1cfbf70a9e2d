import LibreWallet.Async.Machine

/-
  Persist/Storage.lean --- the wallet's storage and the cache that LDK writes through.

  Mirrors the class `StorageCache` of `libre-listener-wallet/src/storage-cache.ts`
  and what it shares with the running node of `index.ts`.  The storage provider is
  asynchronous: an operation is issued, and commits or is rejected at some later
  moment.  What the provider holds is kept as every operation it has committed,
  newest first.

  `χ` are the channels (funding outpoints) and `M` the serialized channel managers;
  both are LDK's.
-/

set_option autoImplicit false

namespace LibreWallet.Persist

/-! ## Keys and values -/

/-- The keys of the storage.  `kv` are those that LDK writes through the cache. -/
inductive Key where
  | ldkSeed
  | channelManager
  | ldkKeysIndex
  | stateVersion
  | kv (name : String)
  | other (name : String)
  deriving DecidableEq, Repr

/-- What is stored.  A monitor value, full or incremental, brings the monitor of its
channel to its update id. -/
inductive Value (χ M : Type) where
  | manager (m : M)
  | monitor (channel : χ) (updateId : Nat) (bytes : String)
  | index (keys : List String)
  | version (n : Nat)
  | text (s : String)
  deriving DecidableEq, Repr

/-- A storage operation: `setItem`, or `removeItem` where there is no value. -/
structure Write (χ M : Type) where
  /-- How many operations were issued before it. -/
  serial : Nat
  session : Nat
  /-- The cache tracks it. -/
  tracked : Bool
  key : Key
  value : Option (Value χ M)
  deriving DecidableEq, Repr

/-- What LDK asks of its KVStore. -/
inductive KvCall (χ M : Type) where
  | write (name : String) (value : Value χ M)
  | remove (name : String)
  deriving DecidableEq, Repr

/-- A monitor update that was handed to the persister. -/
structure Handed (χ M : Type) where
  channel : χ
  updateId : Nat
  session : Nat
  /-- What the inner persister asked of the cache for it. -/
  calls : List (KvCall χ M)
  /-- The operations issued before and up to the end of the callback. -/
  first : Nat
  last : Nat
  /-- The channel manager existed. -/
  managed : Bool
  deriving DecidableEq, Repr

/-- Which LDK objects a node has: none before it loads and after its teardown. -/
inductive Phase (M : Type) where
  | down
  /-- The chain monitor exists, the channel manager does not yet. -/
  | starting
  | running (m : M)
  | stopped
  deriving DecidableEq, Repr

namespace Phase

variable {M : Type}

/-- `this.channelManager` -/
def channelManager : Phase M → Option M
  | running m => some m
  | _ => none

/-- `this.chainMonitor` -/
def hasChainMonitor : Phase M → Bool
  | starting => true
  | running _ => true
  | _ => false

end Phase

/-! ## The node -/

structure Node (χ M : Type) where
  /-- Every operation issued so far, newest first. -/
  issued : List (Write χ M) := []
  /-- The operations that are neither committed nor rejected, oldest first. -/
  queue : List (Write χ M) := []
  /-- What the storage holds: every committed operation, newest first. -/
  committed : List (Write χ M) := []
  rejected : List (Write χ M) := []
  /-- How often the process died. -/
  session : Nat := 0
  phase : Phase M := .down
  isRunning : Bool := false
  -- `StorageCache`
  keys : List String := []
  /-- The tracked operations whose outcome the cache has not seen. -/
  pending : List Nat := []
  persistenceHealthy : Bool := true
  stateVersion : Nat := 0
  -- what happened
  handed : List (Handed χ M) := []
  /-- What `channel_monitor_updated` was called for. -/
  acked : List (Handed χ M) := []
  /-- The entries of every envelope that was made. -/
  exports : List (List (Key × Value χ M)) := []

variable {χ M : Type}

/-- The operation that a key's value comes from. -/
def storedWrite (l : List (Write χ M)) (k : Key) : Option (Write χ M) :=
  l.find? fun x => x.key = k

/-- `getItem` -/
def stored (l : List (Write χ M)) (k : Key) : Option (Value χ M) :=
  (storedWrite l k).bind (·.value)

/-- `parseInt(state_version) || 0` -/
def parseVersion : Option (Value χ M) → Nat
  | some (.version n) => n
  | _ => 0

/-- `JSON.parse(ldk_keys_index)` -/
def parseIndex : Option (Value χ M) → List String
  | some (.index ks) => ks
  | _ => []

/-- The stored `state_version`. -/
def versionOf (l : List (Write χ M)) : Nat := parseVersion (stored l .stateVersion)

/-- The stored `ldk_keys_index`. -/
def indexOf (l : List (Write χ M)) : List String := parseIndex (stored l .ldkKeysIndex)

@[simp] theorem storedWrite_cons (x : Write χ M) (l : List (Write χ M)) (k : Key) :
    storedWrite (x :: l) k = if x.key = k then some x else storedWrite l k := by
  by_cases h : x.key = k <;> simp [storedWrite, h]

@[simp] theorem stored_nil (k : Key) : stored ([] : List (Write χ M)) k = none := rfl

@[simp] theorem stored_cons (x : Write χ M) (l : List (Write χ M)) (k : Key) :
    stored (x :: l) k = if x.key = k then x.value else stored l k := by
  by_cases h : x.key = k <;> simp [stored, h]

/-- A stored value is that of a committed operation. -/
theorem mem_of_stored {l : List (Write χ M)} {k : Key} {v : Value χ M}
    (h : stored l k = some v) : ∃ x ∈ l, x.key = k ∧ x.value = some v ∧ storedWrite l k = some x := by
  simp only [stored, Option.bind_eq_some_iff] at h
  obtain ⟨x, hx, hv⟩ := h
  exact ⟨x, List.mem_of_find?_eq_some hx, by simpa using List.find?_some hx, hv, hx⟩

namespace Node

/-- Issue one operation. -/
def issue (w : Node χ M) (tracked : Bool) (key : Key) (value : Option (Value χ M)) : Node χ M :=
  { w with
    issued := ⟨w.issued.length, w.session, tracked, key, value⟩ :: w.issued
    queue := w.queue ++ [⟨w.issued.length, w.session, tracked, key, value⟩]
    pending := if tracked then w.pending ++ [w.issued.length] else w.pending }

/-- `persistIndex` -/
def persistIndex (w : Node χ M) : Node χ M :=
  w.issue true .ldkKeysIndex (some (.index w.keys))

/-- `StorageCache.write`: the index first, where the key is new; nothing once a
persist has failed. -/
def write (w : Node χ M) (name : String) (value : Value χ M) : Node χ M :=
  if w.persistenceHealthy then
    if name ∈ w.keys then w.issue true (.kv name) (some value)
    else ({ w with keys := w.keys ++ [name] } : Node χ M).persistIndex.issue true (.kv name)
      (some value)
  else w

/-- `StorageCache.remove` -/
def remove (w : Node χ M) (name : String) : Node χ M :=
  if w.persistenceHealthy then
    if name ∈ w.keys then
      ({ w with keys := w.keys.filter (· ≠ name) } : Node χ M).persistIndex.issue true (.kv name)
        none
    else w.issue true (.kv name) none
  else w

def call (w : Node χ M) : KvCall χ M → Node χ M
  | .write name value => w.write name value
  | .remove name => w.remove name

/-- What the inner persister does to the cache. -/
def callAll (w : Node χ M) (calls : List (KvCall χ M)) : Node χ M := calls.foldl call w

/-- The provider commits or rejects an operation. -/
def settle (w : Node χ M) (serial : Nat) (ok : Bool) : Option (Node χ M) :=
  (w.queue.find? fun x => x.serial = serial).map fun x =>
    { w with
      queue := w.queue.filter fun y => y.serial ≠ serial
      committed := if ok then x :: w.committed else w.committed
      rejected := if ok then w.rejected else x :: w.rejected }

/-- The cache sees the outcome of a tracked operation: `track`, `onPersistError`. -/
def react (w : Node χ M) (serial : Nat) : Option (Node χ M) :=
  if serial ∈ w.pending ∧ ∀ x ∈ w.queue, x.serial ≠ serial then
    some { w with
      pending := w.pending.filter (· ≠ serial)
      persistenceHealthy :=
        w.persistenceHealthy && !w.rejected.any fun x => decide (x.serial = serial) }
  else none

/-- `notifyStateChanged` -/
def notifyStateChanged (w : Node χ M) : Node χ M :=
  ({ w with stateVersion := w.stateVersion + 1 } : Node χ M).issue false .stateVersion
    (some (.version (w.stateVersion + 1)))

/-- The event tick's persist, once LDK says that the manager changed. -/
def eventTick (w : Node χ M) (m : M) : Node χ M :=
  (w.issue false .channelManager (some (.manager m))).notifyStateChanged

/-- The process dies: what was not committed is lost, and everything in memory. -/
def crash (w : Node χ M) : Node χ M :=
  { w with
    queue := [], session := w.session + 1, phase := .down, isRunning := false
    keys := [], pending := [], persistenceHealthy := true, stateVersion := 0 }

/-- `start()` up to the chain monitor: the cache and the version are loaded. -/
def load (w : Node χ M) : Node χ M :=
  { w with
    phase := .starting, keys := indexOf w.committed, stateVersion := versionOf w.committed }

/-- `start()` makes a seed where there is none. -/
def ensureSeed (w : Node χ M) (seedHex : String) : Node χ M :=
  if (stored w.committed .ldkSeed).isSome then w
  else w.issue false .ldkSeed (some (.text seedHex))

end Node

end LibreWallet.Persist
