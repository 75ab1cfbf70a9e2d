import LibreWallet.Async.Records
import LibreWallet.Async.System
import Mathlib.Logic.Function.Basic
import Mathlib.Data.List.Basic

/-
  Persist/Cache.lean --- the cache that LDK writes through, and what it leaves in storage.

  Mirrors `libre-listener-wallet/src/storage-cache.ts`: `write` and `remove` answer at once
  and issue the provider's operations in order, the key index before the value; `flush`
  waits for those that are pending; `load` reads the index and then every key it lists.
  The provider takes the operations in the order in which they were issued, and commits or
  rejects each.  A crash drops those that are still on their way.

  A removal that a crash cut between its two operations has not survived: a later process
  that writes the key again lists it, and until that write commits the old value is served.
-/

set_option autoImplicit false

namespace LibreWallet.Cache

open Async

/-! ## Bytes and text -/

abbrev Bytes := List UInt8

/-- `b.toString(16)` of a number below 16. -/
def hexDigit (n : Nat) : Char := "0123456789abcdef".toList.getD n '0'

/-- `BYTE_TO_HEX` -/
def byteToHex (b : UInt8) : List Char := [hexDigit (b.toNat / 16), hexDigit (b.toNat % 16)]

def bytesToHex (bytes : Bytes) : List Char := bytes.flatMap byteToHex

def digitValue (c : Char) : Option Nat :=
  let n := "0123456789abcdef".toList.idxOf c.toLower
  if n < 16 then some n else none

/-- `parseInt(pair, 16)`, where `NaN` is stored as 0. -/
def parsePair (a b : Char) : Nat :=
  match digitValue a, digitValue b with
  | some x, some y => 16 * x + y
  | some x, none => x
  | none, _ => 0

def hexToBytes : List Char → Bytes
  | a :: b :: rest => UInt8.ofNat (parsePair a b) :: hexToBytes rest
  | _ => []

theorem parsePair_hexDigit :
    ∀ x < 16, ∀ y < 16, parsePair (hexDigit x) (hexDigit y) = 16 * x + y := by
  decide

/-- What is stored as text is read back as it was. -/
@[simp] theorem hexToBytes_bytesToHex (bytes : Bytes) : hexToBytes (bytesToHex bytes) = bytes := by
  induction bytes with
  | nil => rfl
  | cons b bytes ih =>
    have hb : b.toNat < 256 := b.toNat_lt
    have hpair := parsePair_hexDigit (b.toNat / 16) (by omega) (b.toNat % 16) (by omega)
    have hcons : bytesToHex (b :: bytes) = hexDigit (b.toNat / 16) :: hexDigit (b.toNat % 16) ::
        bytesToHex bytes := rfl
    rw [hcons, hexToBytes, ih, hpair, Nat.div_add_mod, UInt8.ofNat_toNat]

/-! ## Keys -/

/-- What LDK names a value by. -/
structure Name where
  primary : String
  secondary : String
  key : String
  deriving DecidableEq, Repr

def getStorageKey (n : Name) : String :=
  "/".intercalate ((if n.primary = "" then [] else [n.primary]) ++
    (if n.secondary = "" then [] else [n.secondary]) ++ [n.key])

def indexKey : String := "ldk_keys_index"

/-- LDK keeps every value in a primary namespace. -/
def Name.Namespaced (n : Name) : Prop := n.primary ≠ ""

theorem slash_mem_getStorageKey {n : Name} (h : n.Namespaced) : '/' ∈ (getStorageKey n).toList := by
  unfold getStorageKey
  rw [if_neg h]
  split <;> simp [String.intercalate_cons_cons]

/-- The index is no namespaced key. -/
theorem getStorageKey_ne {n : Name} (h : n.Namespaced) : getStorageKey n ≠ indexKey := by
  intro heq
  have hmem := slash_mem_getStorageKey h
  rw [heq] at hmem
  exact absurd hmem (by decide)

/-! ## Storage -/

/-- A stored text: a value in hex, or the key list as JSON. -/
inductive Item where
  | hex (text : List Char)
  | keyList (keys : List String)
  deriving DecidableEq, Repr

/-- `hexToBytes`; no value is stored as a key list. -/
def Item.toBytes : Item → Bytes
  | .hex text => hexToBytes text
  | .keyList _ => []

/-- `JSON.parse` of the index: text in hex is no array. -/
def Item.parse : Item → List String
  | .hex _ => []
  | .keyList keys => keys

abbrev Storage := String → Option Item

/-- The stored index. -/
def indexOf (s : Storage) : List String := ((s indexKey).map Item.parse).getD []

/-- An operation of the provider: `setItem`, or `removeItem` where there is no item. -/
structure Op where
  /-- How many operations were issued before it. -/
  serial : Nat
  /-- How many calls were made before the one that issued it. -/
  call : Nat
  key : String
  item : Option Item
  deriving DecidableEq, Repr

/-- What the provider commits. -/
def Storage.apply (s : Storage) (x : Op) : Storage := Function.update s x.key x.item

/-! ## The cache -/

structure StorageCache where
  cache : String → Option Bytes := fun _ => none
  keys : List String := []
  /-- The operations whose outcome the cache has not seen. -/
  pending : List Nat := []
  persistenceHealthy : Bool := true

/-- `this.keys.add` -/
def addKey (keys : List String) (k : String) : List String :=
  if k ∈ keys then keys else keys ++ [k]

/-- `load` -/
def load (s : Storage) : StorageCache where
  cache k := if k ∈ indexOf s then (s k).map Item.toBytes else none
  keys := (indexOf s).foldl addKey []

/-- `read` -/
def StorageCache.read (c : StorageCache) (n : Name) : Option Bytes := c.cache (getStorageKey n)

/-! ## Calls -/

/-- A call that the cache has accepted. -/
inductive Call where
  | write (key : String) (buf : Bytes)
  | remove (key : String)
  deriving DecidableEq, Repr

namespace Call

def key : Call → String
  | write k _ => k
  | remove k => k

/-- What is to be served for the key afterwards. -/
def value : Call → Option Bytes
  | write _ buf => some buf
  | remove _ => none

/-- What is to be stored under the key. -/
def item : Call → Option Item
  | write _ buf => some (.hex (bytesToHex buf))
  | remove _ => none

end Call

/-- A call of `flush` that waits. -/
structure Flush where
  snapshot : List Nat
  /-- How many operations had been issued. -/
  issued : Nat
  /-- The calls of its process: from this one on, and before that one. -/
  first : Nat
  last : Nat
  deriving DecidableEq, Repr

structure World where
  storage : Storage := fun _ => none
  cache : StorageCache := {}
  /-- The operations that are neither committed nor rejected, oldest first. -/
  queue : List Op := []
  flushes : List Flush := []
  issued : Nat := 0
  -- what happened
  calls : List Call := []
  /-- How many calls earlier processes made. -/
  opened : Nat := 0
  /-- Every committed operation, newest first. -/
  kept : List Op := []
  /-- The operations of this process that were rejected. -/
  rejected : List Nat := []
  /-- The flushes that resolved. -/
  resolved : List Flush := []

namespace World

/-- Issue one operation of the call at hand. -/
def issue (w : World) (key : String) (item : Option Item) : World :=
  { w with
    issued := w.issued + 1
    queue := w.queue ++ [⟨w.issued, w.calls.length, key, item⟩]
    cache := { w.cache with pending := w.cache.pending ++ [w.issued] } }

/-- `persistIndex` -/
def persistIndex (w : World) : World := w.issue indexKey (some (.keyList w.cache.keys))

/-- The call has been made. -/
def record (w : World) (c : Call) : World := { w with calls := w.calls ++ [c] }

/-- `this.keys.add`, and the index persisted, where the key is new. -/
def list (w : World) (k : String) : World :=
  if k ∈ w.cache.keys then w
  else persistIndex { w with cache := { w.cache with keys := w.cache.keys ++ [k] } }

/-- `this.keys.delete`, and the index persisted, where the key is there. -/
def unlist (w : World) (k : String) : World :=
  if k ∈ w.cache.keys then
    persistIndex { w with cache := { w.cache with keys := w.cache.keys.filter (· ≠ k) } }
  else w

/-- `write` -/
def write (w : World) (k : String) (buf : Bytes) : World :=
  if w.cache.persistenceHealthy then
    let w := { w with cache := { w.cache with cache := Function.update w.cache.cache k (some buf) } }
    ((w.list k).issue k (some (.hex (bytesToHex buf)))).record (.write k buf)
  else w

/-- `remove` -/
def remove (w : World) (k : String) : World :=
  if w.cache.persistenceHealthy then
    let w := { w with cache := { w.cache with cache := Function.update w.cache.cache k none } }
    ((w.unlist k).issue k none).record (.remove k)
  else w

/-- `flush` up to its `await`. -/
def flushBegin (w : World) : World :=
  if w.cache.persistenceHealthy then
    { w with flushes := w.flushes ++
        [⟨w.cache.pending, w.issued, w.opened, w.calls.length⟩] }
  else w

/-- `flush` after its `await`. -/
def flushEnd (w : World) (i : Nat) : Option World :=
  match w.flushes[i]? with
  | none => none
  | some f =>
    if w.queue.any fun x => decide (x.serial ∈ f.snapshot) then none
    else
      let w := { w with flushes := w.flushes.eraseIdx i }
      if !w.cache.persistenceHealthy || w.rejected.any fun r => decide (r ∈ f.snapshot) then some w
      else some { w with resolved := f :: w.resolved }

/-- The provider settles the oldest operation on its way. -/
def settle (w : World) (ok : Bool) : Option World :=
  match w.queue with
  | [] => none
  | x :: queue =>
    if ok then some { w with queue, storage := w.storage.apply x, kept := x :: w.kept }
    else some { w with queue, rejected := x.serial :: w.rejected }

/-- The cache sees the outcome of an operation: `track`, `onPersistError`. -/
def react (w : World) (serial : Nat) : Option World :=
  if w.queue.any fun x => x.serial = serial then none
  else
    some { w with cache := { w.cache with
      pending := w.cache.pending.filter (· ≠ serial)
      persistenceHealthy := w.cache.persistenceHealthy && decide (serial ∉ w.rejected) } }

/-- The process dies, and a new one loads the cache. -/
def restart (w : World) : World :=
  { w with
    cache := load w.storage, queue := [], flushes := [], rejected := []
    opened := w.calls.length }

end World

inductive Action where
  | write (name : Name) (buf : Bytes)
  | remove (name : Name)
  | flushBegin
  | flushEnd (i : Nat)
  | settle (ok : Bool)
  | react (serial : Nat)
  | restart
  deriving DecidableEq, Repr

def step : Action → World → Option World
  | .write n buf, w => some (w.write (getStorageKey n) buf)
  | .remove n, w => some (w.remove (getStorageKey n))
  | .flushBegin, w => some w.flushBegin
  | .flushEnd i, w => w.flushEnd i
  | .settle ok, w => w.settle ok
  | .react serial, w => w.react serial
  | .restart, w => some w.restart

/-- Every name that LDK gives is namespaced. -/
def Namespaced : Action → World → Prop
  | .write n _, _ | .remove n, _ => n.Namespaced
  | _, _ => True

/-! ## What a step does -/

variable {w w' : World} {c : Call} {k : String} {x : Op}

/-- The operations of an accepted call, and the keys that it leaves in memory. -/
inductive Issues (w : World) (c : Call) : List String → List Op → Prop where
  | value (h : c.key ∈ w.cache.keys ↔ c.item.isSome) :
      Issues w c w.cache.keys [⟨w.issued, w.calls.length, c.key, c.item⟩]
  | index (keys : List String) (hown : c.key ∈ keys ↔ c.item.isSome)
      (hrest : ∀ k, k ≠ c.key → (k ∈ keys ↔ k ∈ w.cache.keys)) :
      Issues w c keys [⟨w.issued, w.calls.length, indexKey, some (.keyList keys)⟩,
        ⟨w.issued + 1, w.calls.length, c.key, c.item⟩]

/-- An accepted call. -/
def World.accept (w : World) (c : Call) (cache : String → Option Bytes) (keys : List String)
    (ops : List Op) : World :=
  { w with
    cache := { w.cache with cache, keys, pending := w.cache.pending ++ ops.map Op.serial }
    queue := w.queue ++ ops
    issued := w.issued + ops.length
    calls := w.calls ++ [c] }

/-- Everything a step can do. -/
inductive Moves (w : World) : World → Prop where
  | refused : Moves w w
  | call (c : Call) (cache : String → Option Bytes) (keys : List String) (ops : List Op)
      (hc : c.key ≠ indexKey) (h : Issues w c keys ops) : Moves w (w.accept c cache keys ops)
  | flushBegin (h : w.cache.persistenceHealthy = true) :
      Moves w { w with flushes := w.flushes ++
        [⟨w.cache.pending, w.issued, w.opened, w.calls.length⟩] }
  | flushFail (i : Nat) : Moves w { w with flushes := w.flushes.eraseIdx i }
  | flushEnd (i : Nat) (f : Flush) (hf : w.flushes[i]? = some f)
      (hqueue : ∀ x ∈ w.queue, x.serial ∉ f.snapshot)
      (hhealthy : w.cache.persistenceHealthy = true) (hrejected : ∀ r ∈ w.rejected, r ∉ f.snapshot) :
      Moves w { w with flushes := w.flushes.eraseIdx i, resolved := f :: w.resolved }
  | commit (x : Op) (queue : List Op) (h : w.queue = x :: queue) :
      Moves w { w with queue, storage := w.storage.apply x, kept := x :: w.kept }
  | reject (x : Op) (queue : List Op) (h : w.queue = x :: queue) :
      Moves w { w with queue, rejected := x.serial :: w.rejected }
  | react (serial : Nat) (h : ∀ x ∈ w.queue, x.serial ≠ serial) :
      Moves w { w with cache := { w.cache with
        pending := w.cache.pending.filter (· ≠ serial)
        persistenceHealthy := w.cache.persistenceHealthy && decide (serial ∉ w.rejected) } }
  | restart : Moves w w.restart

theorem moves_write (hk : k ≠ indexKey) (buf : Bytes) : Moves w (w.write k buf) := by
  unfold World.write
  split
  · simp only [World.list]
    split
    · rename_i hmem
      exact .call (.write k buf) _ _ _ hk (.value ⟨fun _ => rfl, fun _ => hmem⟩)
    · have h := Issues.index (w := w) (c := .write k buf) (w.cache.keys ++ [k])
        ⟨fun _ => rfl, fun _ => by simp [Call.key]⟩
        (fun k' hk' => by simp [Call.key] at hk' ⊢; exact fun h => absurd h hk')
      have hm := Moves.call (.write k buf) (Function.update w.cache.cache k (some buf)) _ _ hk h
      simpa [World.accept, World.persistIndex, World.issue, World.record, Call.key, Call.item] using hm
  · exact .refused

theorem moves_remove (hk : k ≠ indexKey) : Moves w (w.remove k) := by
  unfold World.remove
  split
  · simp only [World.unlist]
    split
    · have h := Issues.index (w := w) (c := .remove k) (w.cache.keys.filter (· ≠ k))
        ⟨fun h => by simp [Call.key] at h, nofun⟩
        (fun k' hk' => by simp [Call.key] at hk' ⊢; exact fun _ => hk')
      have hm := Moves.call (.remove k) (Function.update w.cache.cache k none) _ _ hk h
      simpa [World.accept, World.persistIndex, World.issue, World.record, Call.key, Call.item] using hm
    · rename_i hmem
      exact .call (.remove k) _ _ _ hk (.value ⟨fun h => absurd h hmem, nofun⟩)
  · exact .refused

theorem moves_step {a : Action} (ha : Namespaced a w) (h : step a w = some w') : Moves w w' := by
  cases a with
  | write n buf =>
    cases h
    exact moves_write (getStorageKey_ne ha) buf
  | remove n =>
    cases h
    exact moves_remove (getStorageKey_ne ha)
  | flushBegin =>
    cases h
    unfold World.flushBegin
    split
    · exact .flushBegin ‹_›
    · exact .refused
  | flushEnd i =>
    simp only [step, World.flushEnd] at h
    split at h
    · cases h
    · rename_i f hf
      split at h
      · cases h
      · rename_i hqueue
        simp only [List.any_eq_true, decide_eq_true_eq, not_exists, not_and] at hqueue
        split at h
        · cases h
          exact .flushFail i
        · rename_i hok
          cases h
          simp only [Bool.or_eq_true, Bool.not_eq_true', List.any_eq_true, decide_eq_true_eq,
            not_or, not_exists, not_and, Bool.not_eq_false] at hok
          exact .flushEnd i f hf hqueue hok.1 hok.2
  | settle ok =>
    simp only [step, World.settle] at h
    split at h
    · cases h
    · rename_i x queue hq
      split at h
      · cases h
        exact .commit x queue hq
      · cases h
        exact .reject x queue hq
  | react serial =>
    simp only [step, World.react] at h
    split at h
    · cases h
    · rename_i hqueue
      cases h
      simp only [List.any_eq_true, decide_eq_true_eq, not_exists, not_and] at hqueue
      exact .react serial hqueue
  | restart =>
    cases h
    exact .restart

/-! ## The operations are those of the calls, in their order -/

/-- The operation is one of its call's. -/
def Origin (calls : List Call) (x : Op) : Prop :=
  ∃ c, calls[x.call]? = some c ∧
    (x.key = c.key ∧ x.item = c.item ∨
      x.key = indexKey ∧ ∃ keys, x.item = some (.keyList keys) ∧ (c.key ∈ keys ↔ c.item.isSome))

/-- An operation on the index is followed by that on the value. -/
def Paired : List Op → Prop
  | [] => True
  | x :: queue =>
    (x.key = indexKey → ∃ y, queue.head? = some y ∧ y.call = x.call ∧ y.key ≠ indexKey) ∧
      Paired queue

structure Ordered (w : World) : Prop where
  named : ∀ c ∈ w.calls, c.key ≠ indexKey
  origin : ∀ x, x ∈ w.queue ∨ x ∈ w.kept → Origin w.calls x
  paired : Paired w.queue
  serials : w.queue.Pairwise fun x y => x.serial < y.serial
  issued : ∀ x ∈ w.queue, x.serial < w.issued
  inOrder : w.queue.Pairwise fun x y => x.call ≤ y.call
  after : ∀ x ∈ w.queue, ∀ y ∈ w.kept, y.call ≤ x.call

theorem Origin.mono {calls calls' : List Call} (h : Origin calls x) : Origin (calls ++ calls') x := by
  obtain ⟨c, hc, hx⟩ := h
  exact ⟨c, (List.getElem?_append_left (List.getElem?_eq_some_iff.mp hc).1).trans hc, hx⟩

theorem Origin.call_lt {calls : List Call} (h : Origin calls x) : x.call < calls.length := by
  obtain ⟨c, hc, -⟩ := h
  exact (List.getElem?_eq_some_iff.mp hc).1

theorem Paired.append {queue ops : List Op} (h : Paired queue) (h' : Paired ops) :
    Paired (queue ++ ops) := by
  induction queue with
  | nil => exact h'
  | cons x queue ih =>
    refine ⟨fun hx => ?_, ih h.2⟩
    obtain ⟨y, hy, hrest⟩ := h.1 hx
    exact ⟨y, by simp [List.head?_append, hy], hrest⟩

namespace Issues

variable {keys : List String} {ops : List Op}

theorem mem (h : Issues w c keys ops) (hx : x ∈ ops) :
    x.call = w.calls.length ∧ w.issued ≤ x.serial ∧ x.serial < w.issued + ops.length ∧
      (x.key = c.key ∧ x.item = c.item ∨ x.key = indexKey ∧ x.item = some (.keyList keys)) := by
  cases h with
  | value h =>
    simp only [List.mem_singleton] at hx
    subst hx
    exact ⟨rfl, Nat.le_refl _, Nat.lt_succ_self _, .inl ⟨rfl, rfl⟩⟩
  | index keys hown hrest =>
    simp only [List.mem_cons, List.not_mem_nil, or_false] at hx
    rcases hx with rfl | rfl
    · exact ⟨rfl, Nat.le_refl _, by simp, .inr ⟨rfl, rfl⟩⟩
    · exact ⟨rfl, Nat.le_succ _, by simp, .inl ⟨rfl, rfl⟩⟩

theorem own (h : Issues w c keys ops) : c.key ∈ keys ↔ c.item.isSome := by
  cases h with
  | value h => exact h
  | index keys hown hrest => exact hown

theorem rest (h : Issues w c keys ops) (hk : k ≠ c.key) : k ∈ keys ↔ k ∈ w.cache.keys := by
  cases h with
  | value h => exact Iff.rfl
  | index keys hown hrest => exact hrest k hk

theorem origin (h : Issues w c keys ops) (hx : x ∈ ops) : Origin (w.calls ++ [c]) x := by
  obtain ⟨hcall, -, -, hval | ⟨hkey, hitem⟩⟩ := h.mem hx
  · exact ⟨c, by rw [hcall]; simp, .inl hval⟩
  · exact ⟨c, by rw [hcall]; simp, .inr ⟨hkey, keys, hitem, h.own⟩⟩

theorem paired (h : Issues w c keys ops) (hc : c.key ≠ indexKey) : Paired ops := by
  cases h with
  | value h => exact ⟨fun hk => absurd hk hc, trivial⟩
  | index keys hown hrest => exact ⟨fun _ => ⟨_, rfl, rfl, hc⟩, fun hk => absurd hk hc, trivial⟩

theorem serials (h : Issues w c keys ops) : ops.Pairwise fun x y => x.serial < y.serial := by
  cases h with
  | value h => exact List.pairwise_singleton _ _
  | index keys hown hrest => exact List.pairwise_pair.mpr (Nat.lt_succ_self _)

end Issues

theorem Ordered.moves (h : Ordered w) (hm : Moves w w') : Ordered w' := by
  cases hm with
  | refused => exact h
  | call c cache keys ops hc hops =>
    refine ⟨?_, ?_, h.paired.append (hops.paired hc), ?_, ?_, ?_, ?_⟩
    · intro d hd
      rcases List.mem_append.mp hd with hd | hd
      · exact h.named d hd
      · rw [List.mem_singleton.mp hd]
        exact hc
    · rintro x (hx | hx)
      · rcases List.mem_append.mp hx with hx | hx
        · exact (h.origin x (.inl hx)).mono
        · exact hops.origin hx
      · exact (h.origin x (.inr hx)).mono
    · refine List.pairwise_append.mpr ⟨h.serials, hops.serials, fun x hx y hy => ?_⟩
      exact Nat.lt_of_lt_of_le (h.issued x hx) (hops.mem hy).2.1
    · intro x hx
      rcases List.mem_append.mp hx with hx | hx
      · exact Nat.lt_of_lt_of_le (h.issued x hx) (Nat.le_add_right _ _)
      · exact (hops.mem hx).2.2.1
    · refine List.pairwise_append.mpr ⟨h.inOrder, ?_, fun x hx y hy => ?_⟩
      · refine List.Pairwise.imp_of_mem (R := fun _ _ => True) (fun hx hy _ => ?_)
          (List.pairwise_of_forall (fun _ _ => trivial))
        exact Nat.le_of_eq ((hops.mem hx).1.trans (hops.mem hy).1.symm)
      · rw [(hops.mem hy).1]
        exact Nat.le_of_lt (h.origin x (.inl hx)).call_lt
    · intro x hx y hy
      rcases List.mem_append.mp hx with hx | hx
      · exact h.after x hx y hy
      · rw [(hops.mem hx).1]
        exact Nat.le_of_lt (h.origin y (.inr hy)).call_lt
  | flushBegin => exact ⟨h.named, h.origin, h.paired, h.serials, h.issued, h.inOrder, h.after⟩
  | flushFail => exact ⟨h.named, h.origin, h.paired, h.serials, h.issued, h.inOrder, h.after⟩
  | flushEnd => exact ⟨h.named, h.origin, h.paired, h.serials, h.issued, h.inOrder, h.after⟩
  | commit x queue hq =>
    obtain ⟨hnamed, horigin, hpaired, hserials, hissued, hinOrder, hafter⟩ := h
    rw [hq] at horigin hpaired hserials hissued hinOrder hafter
    refine ⟨hnamed, ?_, hpaired.2, (List.pairwise_cons.mp hserials).2,
      fun y hy => hissued y (.tail _ hy), (List.pairwise_cons.mp hinOrder).2, ?_⟩
    · rintro y (hy | hy)
      · exact horigin y (.inl (.tail _ hy))
      · rcases List.mem_cons.mp hy with rfl | hy
        · exact horigin y (.inl (.head _))
        · exact horigin y (.inr hy)
    · intro y hy z hz
      rcases List.mem_cons.mp hz with rfl | hz
      · exact (List.pairwise_cons.mp hinOrder).1 y hy
      · exact hafter y (.tail _ hy) z hz
  | reject x queue hq =>
    obtain ⟨hnamed, horigin, hpaired, hserials, hissued, hinOrder, hafter⟩ := h
    rw [hq] at horigin hpaired hserials hissued hinOrder hafter
    exact ⟨hnamed, fun y hy => horigin y (hy.imp_left (.tail _)), hpaired.2,
      (List.pairwise_cons.mp hserials).2, fun y hy => hissued y (.tail _ hy),
      (List.pairwise_cons.mp hinOrder).2, fun y hy => hafter y (.tail _ hy)⟩
  | react => exact ⟨h.named, h.origin, h.paired, h.serials, h.issued, h.inOrder, h.after⟩
  | restart =>
    refine ⟨h.named, fun x hx => h.origin x (.inr (hx.resolve_left nofun)), trivial,
      List.Pairwise.nil, nofun, List.Pairwise.nil, nofun⟩

/-! ## What is stored is what the newest kept operation left -/

/-- The value of the call, or its removal, has been kept. -/
def World.Survives (w : World) (i : Nat) : Prop := ∃ x ∈ w.kept, x.call = i ∧ x.key ≠ indexKey

/-- Some operation of the call has been kept. -/
def World.Touched (w : World) (i : Nat) : Prop := ∃ x ∈ w.kept, x.call = i

def Recorded (w : World) : Prop :=
  ∀ k item, w.storage k = some item →
    ∃ x ∈ w.kept, x.key = k ∧ x.item = some item ∧ ∀ y ∈ w.kept, y.key = k → y.call ≤ x.call

theorem Storage.apply_self {s : Storage} : s.apply x x.key = x.item := Function.update_self ..

theorem Storage.apply_of_ne {s : Storage} (h : k ≠ x.key) : s.apply x k = s k :=
  Function.update_of_ne h ..

theorem indexOf_apply {s : Storage} {keys : List String} (hkey : x.key = indexKey)
    (hitem : x.item = some (.keyList keys)) : indexOf (s.apply x) = keys := by
  rw [indexOf, ← hkey, Storage.apply_self, hitem]
  rfl

theorem indexOf_apply_of_ne {s : Storage} (h : x.key ≠ indexKey) :
    indexOf (s.apply x) = indexOf s := by
  rw [indexOf, Storage.apply_of_ne h.symm, indexOf]

theorem Recorded.moves (h : Recorded w) (ho : Ordered w) (hm : Moves w w') : Recorded w' := by
  cases hm with
  | refused | call | flushBegin | flushFail | flushEnd | reject | react | restart => exact h
  | commit x queue hq =>
    intro k item hk
    change w.storage.apply x k = some item at hk
    have hafter := ho.after x (hq ▸ List.mem_cons_self)
    by_cases hkx : k = x.key
    · subst hkx
      rw [Storage.apply_self] at hk
      refine ⟨x, List.mem_cons_self, rfl, hk, fun y hy _ => ?_⟩
      rcases List.mem_cons.mp hy with rfl | hy
      · exact Nat.le_refl _
      · exact hafter y hy
    · rw [Storage.apply_of_ne hkx] at hk
      obtain ⟨z, hz, hzk, hitem, hnew⟩ := h k item hk
      refine ⟨z, .tail _ hz, hzk, hitem, fun y hy hyk => ?_⟩
      rcases List.mem_cons.mp hy with rfl | hy
      · exact absurd hyk.symm hkx
      · exact hnew y hy hyk

/-! ## A removal that has begun is not undone -/

/-- The value is not served: it is gone, or it is unlisted and about to go. -/
def Hidden (w : World) (k : String) : Prop :=
  w.storage k = none ∨
    k ∉ indexOf w.storage ∧ ∃ y, w.queue.head? = some y ∧ y.key = k ∧ y.item = none

/-- While the provider rejects nothing, a removal of this process of which anything has
been kept holds until a later write is. -/
def Gone (w : World) : Prop :=
  w.rejected = [] → ∀ j k, w.opened ≤ j → w.calls[j]? = some (.remove k) → w.Touched j →
    (∃ i buf, j < i ∧ w.calls[i]? = some (.write k buf) ∧ w.Survives i) ∨ Hidden w k

/-- What an operation on a key of LDK's is. -/
theorem Origin.value {calls : List Call} (h : Origin calls x) (hx : x.key ≠ indexKey) :
    ∃ c, calls[x.call]? = some c ∧ x.key = c.key ∧ x.item = c.item := by
  obtain ⟨c, hc, hval | ⟨hkey, -⟩⟩ := h
  · exact ⟨c, hc, hval⟩
  · exact absurd hkey hx

/-- A commit of the removal's own operation, or of one after it. -/
theorem Gone.commit (h : Gone w) (ho : Ordered w) {queue : List Op} (hq : w.queue = x :: queue) :
    Gone { w with queue, storage := w.storage.apply x, kept := x :: w.kept } := by
  intro hrej j k hj hcall ⟨y, hy, hyj⟩
  have hx : Origin w.calls x := ho.origin x (.inl (hq ▸ List.mem_cons_self))
  have hk : k ≠ indexKey := ho.named _ (List.mem_of_getElem? hcall)
  have hpaired := ho.paired
  rw [hq] at hpaired
  by_cases hxj : x.call = j
  · -- its own: the value goes, or it is unlisted and the next operation removes it
    obtain ⟨c, hc, hval | ⟨hkey, keys, hitem, hmem⟩⟩ := hx
    · rw [hxj, hcall, Option.some.injEq] at hc
      subst hc
      refine .inr (.inl ?_)
      show w.storage.apply x k = none
      rw [show k = x.key from hval.1.symm, Storage.apply_self, hval.2]
      rfl
    · rw [hxj, hcall, Option.some.injEq] at hc
      subst hc
      obtain ⟨z, hz, hzcall, hzkey⟩ := hpaired.1 hkey
      have hzq : z ∈ w.queue := hq ▸ List.mem_cons_of_mem _ (List.mem_of_mem_head? hz)
      obtain ⟨c, hc, hzk, hzitem⟩ := (ho.origin z (.inl hzq)).value hzkey
      rw [hzcall, hxj, hcall, Option.some.injEq] at hc
      subst hc
      refine .inr (.inr ⟨?_, z, hz, hzk, hzitem⟩)
      show k ∉ indexOf (w.storage.apply x)
      rw [indexOf_apply hkey hitem]
      exact fun hmem' => absurd (hmem.mp hmem') nofun
  · have hyk : y ∈ w.kept := (List.mem_cons.mp hy).resolve_left fun heq => hxj (heq ▸ hyj)
    have hlt : j < x.call := by
      have hle := ho.after x (hq ▸ List.mem_cons_self) y hyk
      omega
    rcases h hrej j k hj hcall ⟨y, hyk, hyj⟩ with
      ⟨i, buf, hi, hw, z, hz, hzi⟩ | hnone | ⟨-, z, hz, hzk, hzitem⟩
    · exact .inl ⟨i, buf, hi, hw, z, .tail _ hz, hzi⟩
    · by_cases hxk : x.key = k
      · obtain ⟨c, hc, hck, hitem⟩ := hx.value (hxk ▸ hk)
        cases c with
        | write k' buf =>
          have hkk : k' = k := hck.symm.trans hxk
          subst hkk
          exact .inl ⟨x.call, buf, hlt, hc, x, .head _, rfl, hxk ▸ hk⟩
        | remove k' =>
          refine .inr (.inl ?_)
          show w.storage.apply x k = none
          rw [← hxk, Storage.apply_self, hitem]
          rfl
      · exact .inr (.inl ((Storage.apply_of_ne (Ne.symm hxk)).trans hnone))
    · rw [hq, List.head?_cons, Option.some.injEq] at hz
      subst hz
      refine .inr (.inl ?_)
      show w.storage.apply x k = none
      rw [← hzk, Storage.apply_self, hzitem]

theorem Gone.moves (h : Gone w) (ho : Ordered w) (hm : Moves w w') : Gone w' := by
  cases hm with
  | refused | flushBegin | flushFail | flushEnd | react => exact h
  | commit x queue hq => exact h.commit ho hq
  | reject => exact nofun
  | restart =>
    intro _ j k hj hcall _
    exact absurd (List.getElem?_eq_some_iff.mp hcall).1 (Nat.not_lt.mpr hj)
  | call c cache keys ops hc hops =>
    intro hrej j k hj hcall touched
    rcases Async.Records.getElem?_snoc.mp hcall with hold | ⟨hnew, -⟩
    · rcases h hrej j k hj hold touched with ⟨i, buf, hi, hw, hs⟩ | hnone | ⟨hidx, y, hy, hyk⟩
      · refine .inl ⟨i, buf, hi, ?_, hs⟩
        exact (List.getElem?_append_left (List.getElem?_eq_some_iff.mp hw).1).trans hw
      · exact .inr (.inl hnone)
      · refine .inr (.inr ⟨hidx, y, ?_, hyk⟩)
        simp [World.accept, List.head?_append, hy]
    · obtain ⟨y, hy, hyj⟩ := touched
      have hlt := (ho.origin y (.inr hy)).call_lt
      omega

/-! ## What a flush waits for -/

def Storage.applyAll (s : Storage) (queue : List Op) : Storage := queue.foldl Storage.apply s

/-- The storage holds what the call left. -/
def Holds (s : Storage) (c : Call) : Prop :=
  s c.key = c.item ∧ (c.item.isSome → c.key ∈ indexOf s)

/-- The operation leaves it there. -/
def Spares (x : Op) (c : Call) : Prop :=
  x.key ≠ c.key ∧
    (x.key = indexKey → c.item.isSome → ∃ keys, x.item = some (.keyList keys) ∧ c.key ∈ keys)

/-- No later call is about its key. -/
structure Last (calls : List Call) (i : Nat) (c : Call) : Prop where
  made : calls[i]? = some c
  last : ∀ j d, i < j → calls[j]? = some d → d.key ≠ c.key

theorem Holds.apply {s : Storage} (h : Holds s c) (hx : Spares x c) : Holds (s.apply x) c := by
  refine ⟨(Storage.apply_of_ne hx.1.symm).trans h.1, fun hc => ?_⟩
  by_cases hkey : x.key = indexKey
  · obtain ⟨keys, hitem, hmem⟩ := hx.2 hkey hc
    rw [indexOf_apply hkey hitem]
    exact hmem
  · rw [indexOf_apply_of_ne hkey]
    exact h.2 hc

/-- The call's own operation on the value. -/
theorem Holds.of_apply {s : Storage} (hkey : x.key = c.key) (hitem : x.item = c.item)
    (hc : c.key ≠ indexKey) (hlisted : c.item.isSome → c.key ∈ indexOf s) : Holds (s.apply x) c := by
  refine ⟨?_, fun h => ?_⟩
  · rw [← hkey, Storage.apply_self, hitem]
  · rw [indexOf_apply_of_ne (hkey ▸ hc)]
    exact hlisted h

theorem Holds.applyAll {s : Storage} {queue : List Op} (h : Holds s c)
    (hq : ∀ x ∈ queue, Spares x c) : Holds (s.applyAll queue) c := by
  induction queue generalizing s with
  | nil => exact h
  | cons x queue ih => exact ih (h.apply (hq x (.head _))) fun y hy => hq y (.tail _ hy)

theorem Storage.applyAll_append {s : Storage} {queue ops : List Op} :
    s.applyAll (queue ++ ops) = (s.applyAll queue).applyAll ops := List.foldl_append

theorem Last.old {calls : List Call} {i : Nat} {d : Call} (h : Last (calls ++ [c]) i d)
    (hi : i < calls.length) : Last calls i d ∧ c.key ≠ d.key := by
  refine ⟨⟨(List.getElem?_append_left hi).symm.trans h.made, fun j e hj he => h.last j e hj ?_⟩,
    h.last calls.length c hi (by simp)⟩
  exact (List.getElem?_append_left (List.getElem?_eq_some_iff.mp he).1).trans he

namespace Issues

variable {keys : List String} {ops : List Op} {s : Storage}

/-- The storage, once every operation has been committed, lists the keys. -/
theorem listed (h : Issues w c keys ops) (hc : c.key ≠ indexKey)
    (hs : ∀ k ∈ w.cache.keys, k ∈ indexOf s) : ∀ k ∈ keys, k ∈ indexOf (s.applyAll ops) := by
  cases h with
  | value h =>
    intro k hk
    rw [Storage.applyAll, List.foldl_cons, List.foldl_nil, indexOf_apply_of_ne hc]
    exact hs k hk
  | index keys hown hrest =>
    intro k hk
    rw [Storage.applyAll, List.foldl_cons, List.foldl_cons, List.foldl_nil, indexOf_apply_of_ne hc,
      indexOf_apply rfl rfl]
    exact hk

/-- It holds what the call left. -/
theorem holds (h : Issues w c keys ops) (hc : c.key ≠ indexKey)
    (hs : ∀ k ∈ w.cache.keys, k ∈ indexOf s) : Holds (s.applyAll ops) c := by
  cases h with
  | value h => exact .of_apply rfl rfl hc fun hsome => hs _ (h.mpr hsome)
  | index keys hown hrest =>
    refine .of_apply rfl rfl hc fun hsome => ?_
    rw [indexOf_apply rfl rfl]
    exact hown.mpr hsome

/-- A call leaves what another key's last call left. -/
theorem spares (h : Issues w c keys ops) (hc : c.key ≠ indexKey) {d : Call}
    (hd : d.key ≠ indexKey) (hne : c.key ≠ d.key)
    (hkeys : d.item.isSome → d.key ∈ w.cache.keys) (hx : x ∈ ops) : Spares x d := by
  obtain ⟨-, -, -, hval | ⟨hkey, hitem⟩⟩ := h.mem hx
  · exact ⟨hval.1.trans_ne hne, fun hkey => absurd (hval.1.symm.trans hkey) hc⟩
  · exact ⟨hkey.trans_ne hd.symm, fun _ hsome => ⟨keys, hitem, (h.rest hne.symm).mpr (hkeys hsome)⟩⟩

end Issues

/-- Once all that is on its way has been committed, the storage lists the keys and holds
what each last call of this process left. -/
def Expected (w : World) : Prop :=
  w.rejected = [] → (∀ k ∈ w.cache.keys, k ∈ indexOf (w.storage.applyAll w.queue)) ∧
    ∀ i c, w.opened ≤ i → Last w.calls i c →
      Holds (w.storage.applyAll w.queue) c ∧ (c.item.isSome → c.key ∈ w.cache.keys)

/-- The operations that the flush is about. -/
def Flush.covers (f : Flush) (queue : List Op) : List Op :=
  queue.filter fun x => decide (x.serial < f.issued)

/-- Unless one of them is rejected: once they have been committed, the storage holds what
the last calls before the flush left, and what was issued later leaves it. -/
def Foreseen (w : World) (f : Flush) : Prop :=
  (∃ r ∈ w.rejected, r < f.issued) ∨
    ∀ i c, f.first ≤ i → i < f.last → Last w.calls i c →
      Holds (w.storage.applyAll (f.covers w.queue)) c ∧ (c.item.isSome → c.key ∈ w.cache.keys) ∧
        ∀ x ∈ w.queue, f.issued ≤ x.serial → Spares x c

/-- The storage holds what the call left, and nothing on its way changes that. -/
structure Lasting (s : Storage) (keys : List String) (queue : List Op) (c : Call) : Prop where
  holds : Holds s c
  listed : c.item.isSome → c.key ∈ keys
  spared : ∀ x ∈ queue, Spares x c

structure Waiting (w : World) (f : Flush) : Prop where
  last : f.last ≤ w.calls.length
  issued : f.issued ≤ w.issued
  queue : ∀ x ∈ w.queue, x.serial < f.issued → x.serial ∈ f.snapshot
  rejected : ∀ r ∈ w.rejected, r < f.issued →
    r ∈ f.snapshot ∨ w.cache.persistenceHealthy = false
  foreseen : Foreseen w f

structure Flushing (w : World) : Prop where
  pending : ∀ x ∈ w.queue, x.serial ∈ w.cache.pending
  rejected : ∀ r ∈ w.rejected, r < w.issued ∧
    (r ∈ w.cache.pending ∨ w.cache.persistenceHealthy = false)
  expected : Expected w
  waiting : ∀ f ∈ w.flushes, Waiting w f
  covered : ∀ f ∈ w.resolved, f.last ≤ w.calls.length ∧
    ∀ i c, f.first ≤ i → i < f.last → Last w.calls i c → Lasting w.storage w.cache.keys w.queue c

theorem Flush.covers_of_lt {f : Flush} {queue : List Op} (h : ∀ x ∈ queue, x.serial < f.issued) :
    f.covers queue = queue :=
  List.filter_eq_self.mpr fun x hx => decide_eq_true (h x hx)

theorem Flush.covers_of_ge {f : Flush} {queue : List Op} (h : ∀ x ∈ queue, f.issued ≤ x.serial) :
    f.covers queue = [] :=
  List.filter_eq_nil_iff.mpr fun x hx => by simpa using h x hx

theorem Flush.covers_cons_of_lt {f : Flush} {queue : List Op} (h : x.serial < f.issued) :
    f.covers (x :: queue) = x :: f.covers queue :=
  List.filter_cons_of_pos (decide_eq_true h)

theorem Flush.covers_cons_of_ge {f : Flush} {queue : List Op} (h : f.issued ≤ x.serial) :
    f.covers (x :: queue) = f.covers queue :=
  List.filter_cons_of_neg (by simpa using h)

theorem Flush.covers_append {f : Flush} {queue ops : List Op}
    (h : ∀ x ∈ ops, f.issued ≤ x.serial) : f.covers (queue ++ ops) = f.covers queue := by
  rw [Flush.covers, List.filter_append, ← Flush.covers, ← Flush.covers, covers_of_ge h,
    List.append_nil]

section Commit

variable {queue : List Op}

theorem Ordered.tail_ge (ho : Ordered w) (hq : w.queue = x :: queue) {n : Nat} (hx : n ≤ x.serial) :
    ∀ y ∈ queue, n ≤ y.serial := by
  have hserials := ho.serials
  rw [hq] at hserials
  intro y hy
  have hlt := (List.pairwise_cons.mp hserials).1 y hy
  omega

theorem Foreseen.commit {f : Flush} (h : Foreseen w f) (ho : Ordered w) (hq : w.queue = x :: queue) :
    Foreseen { w with queue, storage := w.storage.apply x, kept := x :: w.kept } f := by
  rcases h with hr | h
  · exact .inl hr
  · refine .inr fun i c hi hi' hlast => ?_
    obtain ⟨hholds, hkeys, hspares⟩ := h i c hi hi' hlast
    rw [hq] at hholds hspares
    refine ⟨?_, hkeys, fun y hy => hspares y (.tail _ hy)⟩
    show Holds ((w.storage.apply x).applyAll (f.covers queue)) c
    rcases Nat.lt_or_ge x.serial f.issued with hx | hx
    · rw [Flush.covers_cons_of_lt hx] at hholds
      exact hholds
    · have htail := Flush.covers_of_ge (ho.tail_ge hq hx)
      rw [Flush.covers_cons_of_ge hx, htail] at hholds
      rw [htail]
      exact hholds.apply (hspares x (.head _) hx)

theorem Foreseen.reject {f : Flush} (h : Foreseen w f) (hq : w.queue = x :: queue) :
    Foreseen { w with queue, rejected := x.serial :: w.rejected } f := by
  rcases h with ⟨r, hr, hlt⟩ | h
  · exact .inl ⟨r, .tail _ hr, hlt⟩
  · rcases Nat.lt_or_ge x.serial f.issued with hx | hx
    · exact .inl ⟨x.serial, .head _, hx⟩
    · refine .inr fun i c hi hi' hlast => ?_
      obtain ⟨hholds, hkeys, hspares⟩ := h i c hi hi' hlast
      rw [hq] at hholds hspares
      refine ⟨?_, hkeys, fun y hy => hspares y (.tail _ hy)⟩
      rw [Flush.covers_cons_of_ge hx] at hholds
      exact hholds

end Commit

section Call

variable {cache : String → Option Bytes} {keys : List String} {ops : List Op}

theorem Lasting.accept {d : Call} (h : Lasting w.storage w.cache.keys w.queue d)
    (hops : Issues w c keys ops) (hc : c.key ≠ indexKey) (hd : d.key ≠ indexKey)
    (hne : c.key ≠ d.key) : Lasting w.storage keys (w.queue ++ ops) d := by
  refine ⟨h.holds, fun hsome => (hops.rest hne.symm).mpr (h.listed hsome), fun x hx => ?_⟩
  rcases List.mem_append.mp hx with hx | hx
  · exact h.spared x hx
  · exact hops.spares hc hd hne h.listed hx

theorem Expected.accept (h : Expected w) (ho : Ordered w) (hops : Issues w c keys ops)
    (hc : c.key ≠ indexKey) : Expected (w.accept c cache keys ops) := by
  intro hrej
  obtain ⟨hkeys, hcalls⟩ := h hrej
  have happend : (w.accept c cache keys ops).storage.applyAll (w.accept c cache keys ops).queue =
      (w.storage.applyAll w.queue).applyAll ops := Storage.applyAll_append
  rw [happend]
  refine ⟨hops.listed hc hkeys, fun i d hi hlast => ?_⟩
  rcases Async.Records.getElem?_snoc.mp hlast.made with hold | ⟨-, rfl⟩
  · obtain ⟨hlast', hne⟩ := hlast.old (List.getElem?_eq_some_iff.mp hold).1
    obtain ⟨hholds, hd⟩ := hcalls i d hi hlast'
    have hdk : d.key ≠ indexKey := ho.named d (List.mem_of_getElem? hold)
    exact ⟨hholds.applyAll fun x hx => hops.spares hc hdk hne hd hx,
      fun hsome => (hops.rest hne.symm).mpr (hd hsome)⟩
  · exact ⟨hops.holds hc hkeys, hops.own.mpr⟩

theorem Waiting.accept {f : Flush} (h : Waiting w f) (ho : Ordered w) (hops : Issues w c keys ops)
    (hc : c.key ≠ indexKey) : Waiting (w.accept c cache keys ops) f := by
  have hnew : ∀ x ∈ ops, f.issued ≤ x.serial := fun x hx =>
    Nat.le_trans h.issued (hops.mem hx).2.1
  refine ⟨?_, Nat.le_add_right_of_le h.issued, fun x hx hlt => ?_, h.rejected, ?_⟩
  · exact Nat.le_trans h.last (by simp [World.accept])
  · rcases List.mem_append.mp hx with hx | hx
    · exact h.queue x hx hlt
    · exact absurd hlt (Nat.not_lt.mpr (hnew x hx))
  · refine h.foreseen.imp id fun hfor i d hi hi' hlast => ?_
    obtain ⟨hlast', hne⟩ := hlast.old (Nat.lt_of_lt_of_le hi' h.last)
    obtain ⟨hholds, hd, hspares⟩ := hfor i d hi hi' hlast'
    have hdk : d.key ≠ indexKey := ho.named d (List.mem_of_getElem? hlast'.made)
    refine ⟨?_, fun hsome => (hops.rest hne.symm).mpr (hd hsome), fun x hx hge => ?_⟩
    · show Holds (w.storage.applyAll (f.covers (w.queue ++ ops))) d
      rw [Flush.covers_append hnew]
      exact hholds
    · rcases List.mem_append.mp hx with hx | hx
      · exact hspares x hx hge
      · exact hops.spares hc hdk hne hd hx

theorem Flushing.accept (h : Flushing w) (ho : Ordered w) (hops : Issues w c keys ops)
    (hc : c.key ≠ indexKey) : Flushing (w.accept c cache keys ops) := by
  refine ⟨fun x hx => ?_, fun r hr => ?_, h.expected.accept ho hops hc,
    fun f hf => (h.waiting f hf).accept ho hops hc, fun f hf => ?_⟩
  · rcases List.mem_append.mp hx with hx | hx
    · exact List.mem_append_left _ (h.pending x hx)
    · exact List.mem_append_right _ (List.mem_map_of_mem hx)
  · obtain ⟨hlt, hcase⟩ := h.rejected r hr
    exact ⟨Nat.lt_add_right _ hlt, hcase.imp_left (List.mem_append_left _)⟩
  · obtain ⟨hle, hlasting⟩ := h.covered f hf
    refine ⟨Nat.le_trans hle (by simp [World.accept]), fun i d hi hi' hlast => ?_⟩
    obtain ⟨hlast', hne⟩ := hlast.old (Nat.lt_of_lt_of_le hi' hle)
    exact (hlasting i d hi hi' hlast').accept hops hc
      (ho.named d (List.mem_of_getElem? hlast'.made)) hne

end Call

/-- The flush that begins waits for all that is on its way. -/
theorem Flushing.begin (h : Flushing w) (ho : Ordered w) :
    Waiting w ⟨w.cache.pending, w.issued, w.opened, w.calls.length⟩ := by
  refine ⟨Nat.le_refl _, Nat.le_refl _, fun x hx _ => h.pending x hx,
    fun r hr _ => (h.rejected r hr).2, ?_⟩
  cases hrej : w.rejected with
  | cons r rs =>
    have hr : r ∈ w.rejected := hrej ▸ List.mem_cons_self
    exact .inl ⟨r, hr, (h.rejected r hr).1⟩
  | nil =>
    refine .inr fun i c hi _ hlast => ?_
    obtain ⟨hholds, hkeys⟩ := (h.expected hrej).2 i c hi hlast
    rw [Flush.covers_of_lt ho.issued]
    exact ⟨hholds, hkeys, fun x hx hge => absurd (ho.issued x hx) (Nat.not_lt.mpr hge)⟩

/-- The flush that resolves found all of it committed. -/
theorem Waiting.resolved {f : Flush} (h : Waiting w f) (hqueue : ∀ x ∈ w.queue, x.serial ∉ f.snapshot)
    (hhealthy : w.cache.persistenceHealthy = true) (hrejected : ∀ r ∈ w.rejected, r ∉ f.snapshot) :
    ∀ i c, f.first ≤ i → i < f.last → Last w.calls i c → Lasting w.storage w.cache.keys w.queue c := by
  have hge : ∀ x ∈ w.queue, f.issued ≤ x.serial := fun x hx =>
    Nat.le_of_not_lt fun hlt => hqueue x hx (h.queue x hx hlt)
  rcases h.foreseen with ⟨r, hr, hlt⟩ | hfor
  · rcases h.rejected r hr hlt with hsnap | hsick
    · exact absurd hsnap (hrejected r hr)
    · rw [hhealthy] at hsick
      cases hsick
  · intro i c hi hi' hlast
    obtain ⟨hholds, hkeys, hspares⟩ := hfor i c hi hi' hlast
    rw [Flush.covers_of_ge hge] at hholds
    exact ⟨hholds, hkeys, fun x hx => hspares x hx (hge x hx)⟩

section Settle

variable {queue : List Op}

theorem Flushing.commit (h : Flushing w) (ho : Ordered w) (hq : w.queue = x :: queue) :
    Flushing { w with queue, storage := w.storage.apply x, kept := x :: w.kept } := by
  have hmem : ∀ y ∈ queue, y ∈ w.queue := fun y hy => hq ▸ List.mem_cons_of_mem x hy
  refine ⟨fun y hy => h.pending y (hmem y hy), h.rejected, ?_, fun f hf => ?_, fun f hf => ?_⟩
  · intro hrej
    have hexpected := h.expected hrej
    rw [hq] at hexpected
    exact hexpected
  · have hw := h.waiting f hf
    exact ⟨hw.last, hw.issued, fun y hy => hw.queue y (hmem y hy), hw.rejected,
      hw.foreseen.commit ho hq⟩
  · obtain ⟨hle, hlasting⟩ := h.covered f hf
    refine ⟨hle, fun i c hi hi' hlast => ?_⟩
    have hl := hlasting i c hi hi' hlast
    exact ⟨hl.holds.apply (hl.spared x (hq ▸ List.mem_cons_self)), hl.listed,
      fun y hy => hl.spared y (hmem y hy)⟩

theorem Flushing.reject (h : Flushing w) (ho : Ordered w) (hq : w.queue = x :: queue) :
    Flushing { w with queue, rejected := x.serial :: w.rejected } := by
  have hmem : ∀ y ∈ queue, y ∈ w.queue := fun y hy => hq ▸ List.mem_cons_of_mem x hy
  have hx : x ∈ w.queue := hq ▸ List.mem_cons_self
  refine ⟨fun y hy => h.pending y (hmem y hy), fun r hr => ?_, nofun, fun f hf => ?_, fun f hf => ?_⟩
  · rcases List.mem_cons.mp hr with rfl | hr
    · exact ⟨ho.issued x hx, .inl (h.pending x hx)⟩
    · exact h.rejected r hr
  · have hw := h.waiting f hf
    refine ⟨hw.last, hw.issued, fun y hy => hw.queue y (hmem y hy), fun r hr hlt => ?_,
      hw.foreseen.reject hq⟩
    rcases List.mem_cons.mp hr with rfl | hr
    · exact .inl (hw.queue x hx hlt)
    · exact hw.rejected r hr hlt
  · obtain ⟨hle, hlasting⟩ := h.covered f hf
    refine ⟨hle, fun i c hi hi' hlast => ?_⟩
    have hl := hlasting i c hi hi' hlast
    exact ⟨hl.holds, hl.listed, fun y hy => hl.spared y (hmem y hy)⟩

end Settle

/-- The cache sees an outcome. -/
theorem Flushing.react (h : Flushing w) {serial : Nat} (hqueue : ∀ x ∈ w.queue, x.serial ≠ serial) :
    Flushing { w with cache := { w.cache with
      pending := w.cache.pending.filter (· ≠ serial)
      persistenceHealthy := w.cache.persistenceHealthy && decide (serial ∉ w.rejected) } } := by
  have hsick : w.cache.persistenceHealthy = false →
      (w.cache.persistenceHealthy && decide (serial ∉ w.rejected)) = false := fun hs => by
    rw [hs, Bool.false_and]
  refine ⟨fun x hx => ?_, fun r hr => ?_, fun hrej => ?_, fun f hf => ?_, fun f hf => ?_⟩
  · exact List.mem_filter.mpr ⟨h.pending x hx, decide_eq_true (hqueue x hx)⟩
  · obtain ⟨hlt, hcase⟩ := h.rejected r hr
    refine ⟨hlt, ?_⟩
    by_cases hrs : r = serial
    · subst hrs
      exact .inr (by simp [hr])
    · exact hcase.imp (fun hmem => List.mem_filter.mpr ⟨hmem, decide_eq_true hrs⟩) hsick
  · exact h.expected hrej
  · have hw := h.waiting f hf
    refine ⟨hw.last, hw.issued, hw.queue, fun r hr hlt => (hw.rejected r hr hlt).imp_right hsick, ?_⟩
    exact hw.foreseen
  · obtain ⟨hle, hlasting⟩ := h.covered f hf
    refine ⟨hle, fun i c hi hi' hlast => ?_⟩
    have hl := hlasting i c hi hi' hlast
    exact ⟨hl.holds, hl.listed, hl.spared⟩

theorem mem_foldl_addKey {keys acc : List String} :
    k ∈ keys.foldl addKey acc ↔ k ∈ acc ∨ k ∈ keys := by
  induction keys generalizing acc with
  | nil => simp
  | cons key keys ih =>
    have hadd : k ∈ addKey acc key ↔ k ∈ acc ∨ k = key := by
      unfold addKey
      split
      · rename_i hmem
        exact ⟨.inl, fun h => h.elim id fun heq => heq ▸ hmem⟩
      · simp
    rw [List.foldl_cons, ih, hadd, List.mem_cons, or_assoc]

theorem mem_load_keys {s : Storage} : k ∈ (load s).keys ↔ k ∈ indexOf s := by
  simp [load, mem_foldl_addKey]

theorem Flushing.restart (h : Flushing w) : Flushing w.restart := by
  refine ⟨nofun, nofun, fun _ => ⟨fun k hk => mem_load_keys.mp hk, fun i c hi hlast => ?_⟩, nofun,
    fun f hf => ?_⟩
  · exact absurd (List.getElem?_eq_some_iff.mp hlast.made).1 (Nat.not_lt.mpr hi)
  · obtain ⟨hle, hlasting⟩ := h.covered f hf
    refine ⟨hle, fun i c hi hi' hlast => ?_⟩
    have hl := hlasting i c hi hi' hlast
    exact ⟨hl.holds, fun hsome => mem_load_keys.mpr (hl.holds.2 hsome), nofun⟩

theorem Flushing.moves (h : Flushing w) (ho : Ordered w) (hm : Moves w w') : Flushing w' := by
  cases hm with
  | refused => exact h
  | call c cache keys ops hc hops => exact h.accept ho hops hc
  | flushBegin hhealthy =>
    refine ⟨h.pending, h.rejected, h.expected, fun f hf => ?_, h.covered⟩
    have hw : Waiting w f := by
      rcases List.mem_append.mp hf with hf | hf
      · exact h.waiting f hf
      · exact List.mem_singleton.mp hf ▸ h.begin ho
    exact ⟨hw.last, hw.issued, hw.queue, hw.rejected, hw.foreseen⟩
  | flushFail i =>
    refine ⟨h.pending, h.rejected, h.expected, fun f hf => ?_, h.covered⟩
    have hw := h.waiting f (List.mem_of_mem_eraseIdx hf)
    exact ⟨hw.last, hw.issued, hw.queue, hw.rejected, hw.foreseen⟩
  | flushEnd i f hf hqueue hhealthy hrejected =>
    refine ⟨h.pending, h.rejected, h.expected, fun g hg => ?_, fun g hg => ?_⟩
    · have hw := h.waiting g (List.mem_of_mem_eraseIdx hg)
      exact ⟨hw.last, hw.issued, hw.queue, hw.rejected, hw.foreseen⟩
    rcases List.mem_cons.mp hg with rfl | hg
    · have hw := h.waiting g (List.mem_of_getElem? hf)
      exact ⟨hw.last, hw.resolved hqueue hhealthy hrejected⟩
    · exact h.covered g hg
  | commit x queue hq => exact h.commit ho hq
  | reject x queue hq => exact h.reject ho hq
  | react serial hqueue => exact h.react hqueue
  | restart => exact h.restart

/-! ## A fresh load -/

structure Sound (w : World) : Prop where
  ordered : Ordered w
  recorded : Recorded w
  gone : Gone w
  flushing : Flushing w

theorem sound_initial : Sound {} where
  ordered := ⟨nofun, fun _ hx => absurd hx (by simp), trivial, List.Pairwise.nil, nofun,
    List.Pairwise.nil, nofun⟩
  recorded := nofun
  gone := fun _ _ _ _ hcall => nomatch hcall
  flushing := ⟨nofun, nofun, fun _ => ⟨nofun, fun _ _ _ hlast => nomatch hlast.made⟩, nofun, nofun⟩

theorem sound_of_steps (hrun : Steps step Namespaced {} w) : Sound w := by
  refine hrun.invariant (I := Sound) sound_initial fun a t t' h ha hs => ?_
  have hm := moves_step ha hs
  exact ⟨h.ordered.moves hm, h.recorded.moves h.ordered hm, h.gone.moves h.ordered hm,
    h.flushing.moves h.ordered hm⟩

/-- A flush that resolved has waited for the call. -/
def World.Covered (w : World) (i : Nat) : Prop := ∃ f ∈ w.resolved, f.first ≤ i ∧ i < f.last

theorem read_restart {n : Name} {buf : Bytes} (h : w.restart.cache.read n = some buf) :
    getStorageKey n ∈ indexOf w.storage ∧
      ∃ item, w.storage (getStorageKey n) = some item ∧ item.toBytes = buf := by
  simp only [World.restart, StorageCache.read, load] at h
  split at h
  · simp only [Option.map_eq_some_iff] at h
    exact ⟨‹_›, h⟩
  · cases h

/-- Whenever the process dies, the next one serves for a key the value of its last
surviving write or nothing: no write or removal of it that came later has survived, and no
removal of which anything has been kept.  The last call on a key that a resolved flush has
covered is served as it is. -/
theorem served_after_crash (hrun : Steps step Namespaced {} w) (n : Name) (hn : n.Namespaced) :
    (∀ buf, w.restart.cache.read n = some buf →
      ∃ i, w.calls[i]? = some (.write (getStorageKey n) buf) ∧ w.Survives i ∧
        (∀ j c, i < j → w.calls[j]? = some c → c.key = getStorageKey n → ¬ w.Survives j) ∧
        (w.rejected = [] → ∀ j, i < j → w.opened ≤ j →
          w.calls[j]? = some (.remove (getStorageKey n)) → ¬ w.Touched j)) ∧
    ∀ i c, w.Covered i → Last w.calls i c → c.key = getStorageKey n →
      w.restart.cache.read n = c.value := by
  have hsound := sound_of_steps hrun
  have hne := getStorageKey_ne hn
  constructor
  · intro buf hserved
    obtain ⟨hidx, item, hitem, rfl⟩ := read_restart hserved
    obtain ⟨x, hx, hxk, hxitem, hnew⟩ := hsound.recorded _ _ hitem
    obtain ⟨c, hc, hck, hci⟩ := (hsound.ordered.origin x (.inr hx)).value (hxk ▸ hne)
    have hsurvived : ∀ j c, x.call < j → w.calls[j]? = some c → c.key = getStorageKey n →
        ¬ w.Survives j := by
      rintro j d hj hd hdk ⟨y, hy, rfl, hyk⟩
      obtain ⟨e, he, hye, -⟩ := (hsound.ordered.origin y (.inr hy)).value hyk
      rw [hd, Option.some.injEq] at he
      subst he
      have hle := hnew y hy (hye.trans hdk)
      omega
    refine ⟨x.call, ?_, ⟨x, hx, rfl, hxk ▸ hne⟩, hsurvived, fun hrej j hj hopened hd htouched => ?_⟩
    · rw [hc, Option.some.injEq]
      cases c with
      | write k bytes =>
        rw [hxitem, Call.item, Option.some.injEq] at hci
        subst hci
        rw [Item.toBytes, hexToBytes_bytesToHex, ← hxk, hck]
        rfl
      | remove k =>
        rw [hxitem] at hci
        cases hci
    · rcases hsound.gone hrej j _ hopened hd htouched with ⟨i, bytes, hi, hw, hs⟩ | hnone | ⟨hno, -⟩
      · exact hsurvived i _ (Nat.lt_trans hj hi) hw rfl hs
      · rw [hnone] at hitem
        cases hitem
      · exact hno hidx
  · rintro i c ⟨f, hf, hi, hi'⟩ hlast hck
    have hl := ((hsound.flushing.covered f hf).2 i c hi hi' hlast).holds
    rw [Holds, hck] at hl
    simp only [World.restart, StorageCache.read, load]
    cases c with
    | write k bytes =>
      rw [if_pos (hl.2 rfl), hl.1]
      exact congrArg some (hexToBytes_bytesToHex bytes)
    | remove k =>
      rw [hl.1]
      exact ite_self _

instance : (a : Action) → (w : World) → Decidable (Namespaced a w)
  | .write n _, _ | .remove n, _ => inferInstanceAs (Decidable (n.primary ≠ ""))
  | .flushBegin, _ | .flushEnd _, _ | .settle _, _ | .react _, _ | .restart, _ =>
    inferInstanceAs (Decidable True)

/-- The first write is flushed, the second is cut after its index. -/
theorem served_after_crash_cut : ∃ w, Steps step Namespaced {} w ∧ w.Covered 0 ∧
    w.restart.cache.read ⟨"monitors", "", "a"⟩ = some [1] := by
  obtain ⟨w, hrun, hw⟩ := Steps.exists_of_play step (fun a w => decide (Namespaced a w)) {}
    [.write ⟨"monitors", "", "a"⟩ [1], .settle true, .settle true, .flushBegin, .flushEnd 0,
      .write ⟨"monitors", "", "b"⟩ [2], .settle true]
    (fun w => decide (w.calls = [.write "monitors/a" [1], .write "monitors/b" [2]] ∧
      w.resolved = [⟨[0, 1], 2, 0, 1⟩])) (by decide +kernel)
  have hrun' : Steps step Namespaced {} w := hrun.mono fun a t h => of_decide_eq_true h
  obtain ⟨hcalls, hresolved⟩ := of_decide_eq_true hw
  have hkey : getStorageKey ⟨"monitors", "", "a"⟩ = "monitors/a" := by decide +kernel
  have hcovered : w.Covered 0 := ⟨_, hresolved ▸ List.mem_cons_self, Nat.le_refl 0, Nat.one_pos⟩
  have hlast : Last w.calls 0 (.write "monitors/a" [1]) := by
    rw [hcalls]
    refine ⟨rfl, fun j d hj hd => ?_⟩
    obtain _ | _ | j := j
    · exact absurd hj (Nat.lt_irrefl 0)
    · cases hd
      decide
    · cases hd
  have hname : Name.Namespaced ⟨"monitors", "", "a"⟩ := show "monitors" ≠ "" by decide
  exact ⟨w, hrun', hcovered,
    (served_after_crash hrun' _ hname).2 0 _ hcovered hlast hkey.symm⟩

end LibreWallet.Cache
