import Mathlib.Data.List.Dedup
import Mathlib.Data.List.Sort

/-
  Esplora/Chain.lean --- the chain as the Esplora server answers for it.

  A block is at the height of its index.  What the server says of a transaction or an
  output is what the best chain holds; a transaction that is only in the mempool is not
  confirmed, and the client asks for nothing else.
-/

set_option autoImplicit false

namespace LibreWallet.Esplora

/-- A transaction id and an output index. -/
abbrev Outpoint := Nat × Nat

structure Tx where
  txid : Nat
  spends : List Outpoint
  deriving DecidableEq, Repr

structure Block where
  hash : Nat
  txs : List Tx
  deriving DecidableEq, Repr

abbrev Chain := List Block

/-- No transaction is confirmed twice, and no output is spent twice. -/
def Valid (chain : Chain) : Prop :=
  (chain.flatMap fun b => b.txs.map Tx.txid).Nodup ∧ (chain.flatMap fun b => b.txs.flatMap Tx.spends).Nodup

instance (chain : Chain) : Decidable (Valid chain) := inferInstanceAs (Decidable (_ ∧ _))

/-! ## The server -/

def fetchBlockHash (chain : Chain) (height : Nat) : Option Nat := chain[height]?.map Block.hash

/-- `fetchTx`: the height at which the transaction is confirmed. -/
def fetchTx (chain : Chain) (txid : Nat) : Option Nat :=
  chain.findIdx? fun b => b.txs.any fun tx => tx.txid = txid

/-- The transaction of a block that spends an output. -/
def Block.spender (b : Block) (o : Outpoint) : Option Nat :=
  (b.txs.find? fun tx => o ∈ tx.spends).map Tx.txid

/-- `fetchSpendInfo`: the confirmed transaction that spends the output, and its height. -/
def fetchSpendInfo (chain : Chain) (o : Outpoint) : Option (Nat × Nat) :=
  (chain.findIdx? fun b => (b.spender o).isSome).bind fun height =>
    chain[height]?.bind fun b => (b.spender o).map fun txid => (txid, height)

variable {chain : Chain} {b : Block} {tx : Tx} {o : Outpoint} {h n m : Nat}

/-- Lists that are disjoint from one another tell which of them holds an element. -/
theorem eq_of_mem_flatMap_nodup {α β : Type} {f : α → List β} {l : List α} {x y : α} {i j : Nat}
    {z : β} (hl : (l.flatMap f).Nodup) (hi : l[i]? = some x) (hj : l[j]? = some y) (hx : z ∈ f x)
    (hy : z ∈ f y) : i = j := by
  obtain ⟨-, hdisj⟩ := List.nodup_flatMap.mp hl
  obtain ⟨hil, rfl⟩ := List.getElem?_eq_some_iff.mp hi
  obtain ⟨hjl, rfl⟩ := List.getElem?_eq_some_iff.mp hj
  have hpair := List.pairwise_iff_getElem.mp hdisj
  rcases Nat.lt_trichotomy i j with hlt | heq | hgt
  · exact absurd hy (hpair i j hil hjl hlt hx)
  · exact heq
  · exact absurd hx (hpair j i hjl hil hgt hy)

/-- The one index at which a predicate holds. -/
theorem findIdx?_of_unique {α : Type} {p : α → Bool} {l : List α} {x : α} {i : Nat}
    (hi : l[i]? = some x) (hx : p x = true)
    (huniq : ∀ j y, l[j]? = some y → p y = true → j = i) : l.findIdx? p = some i := by
  obtain ⟨hil, rfl⟩ := List.getElem?_eq_some_iff.mp hi
  refine List.findIdx?_eq_some_iff_getElem.mpr ⟨hil, hx, fun j hj hp => ?_⟩
  have := huniq j l[j] (List.getElem?_eq_getElem _) hp
  omega

theorem fetchTx_of_mem (hv : Valid chain) (hb : chain[h]? = some b) (htx : tx ∈ b.txs) :
    fetchTx chain tx.txid = some h := by
  refine findIdx?_of_unique hb (by simpa using ⟨tx, htx, rfl⟩) fun j b' hb' hp => ?_
  simp only [List.any_eq_true, decide_eq_true_eq] at hp
  obtain ⟨tx', htx', heq⟩ := hp
  exact eq_of_mem_flatMap_nodup hv.1 hb' hb (List.mem_map.mpr ⟨tx', htx', heq⟩)
    (List.mem_map.mpr ⟨tx, htx, rfl⟩)

theorem spender_of_mem (hv : Valid chain) (hb : chain[h]? = some b) (htx : tx ∈ b.txs)
    (ho : o ∈ tx.spends) : b.spender o = some tx.txid := by
  have hblock := (List.nodup_flatMap.mp hv.2).1 b (List.mem_of_getElem? hb)
  unfold Block.spender
  cases hf : b.txs.find? fun tx => o ∈ tx.spends with
  | none =>
    have := List.find?_eq_none.mp hf tx htx
    simp [ho] at this
  | some tx' =>
    have hmem := List.mem_of_find?_eq_some hf
    have hspend : o ∈ tx'.spends := by simpa using List.find?_some hf
    obtain ⟨i, hi⟩ := List.mem_iff_getElem?.mp hmem
    obtain ⟨j, hj⟩ := List.mem_iff_getElem?.mp htx
    have := eq_of_mem_flatMap_nodup hblock hi hj hspend ho
    subst this
    rw [hi] at hj
    cases hj
    rfl

theorem mem_of_spender {t : Nat} (hs : b.spender o = some t) :
    ∃ tx ∈ b.txs, o ∈ tx.spends ∧ tx.txid = t := by
  obtain ⟨tx, hf, ht⟩ := Option.map_eq_some_iff.mp hs
  exact ⟨tx, List.mem_of_find?_eq_some hf, by simpa using List.find?_some hf, ht⟩

theorem fetchSpendInfo_of_mem (hv : Valid chain) (hb : chain[h]? = some b) (htx : tx ∈ b.txs)
    (ho : o ∈ tx.spends) : fetchSpendInfo chain o = some (tx.txid, h) := by
  have hs := spender_of_mem hv hb htx ho
  have hidx : (chain.findIdx? fun b => (b.spender o).isSome) = some h := by
    refine findIdx?_of_unique hb (by rw [hs]; rfl) fun j b' hb' hp => ?_
    obtain ⟨t, ht⟩ := Option.isSome_iff_exists.mp hp
    obtain ⟨tx', htx', ho', -⟩ := mem_of_spender ht
    exact eq_of_mem_flatMap_nodup hv.2 hb' hb (List.mem_flatMap.mpr ⟨tx', htx', ho'⟩)
      (List.mem_flatMap.mpr ⟨tx, htx, ho⟩)
  simp [fetchSpendInfo, hidx, hb, hs]

/-! ## The plans of the client -/

/-- The watched transactions that are confirmed at or below `bestHeight`, by height. -/
def planBuriedConfirmations (watchedTxids : List Nat) (fetchStatus : Nat → Option Nat)
    (bestHeight : Nat) : List (Nat × List Nat) :=
  let heights := (watchedTxids.filterMap fetchStatus).filter fun height => height ≤ bestHeight
  (heights.dedup.insertionSort (· ≤ ·)).map fun height =>
    (height, watchedTxids.filter fun txid => fetchStatus txid = some height)

theorem mem_planBuriedConfirmations {watched : List Nat} {fetchStatus : Nat → Option Nat} {t : Nat}
    (ht : t ∈ watched) (hs : fetchStatus t = some h) (hle : h ≤ n) :
    ∃ txids, (h, txids) ∈ planBuriedConfirmations watched fetchStatus n ∧ t ∈ txids := by
  refine ⟨watched.filter fun txid => fetchStatus txid = some h, ?_, by simp [ht, hs]⟩
  refine List.mem_map.mpr ⟨h, (List.mem_insertionSort _).mpr (List.mem_dedup.mpr ?_), rfl⟩
  exact List.mem_filter.mpr ⟨List.mem_filterMap.mpr ⟨t, ht, hs⟩, by simpa using hle⟩

def MAX_FORWARD_BLOCKS_PER_SYNC : Nat := 20

def forwardSyncBatchEnd (bestHeight tipHeight maxPerSync : Nat) : Nat :=
  min tipHeight (bestHeight + maxPerSync)

/-- What `transactions_confirmed` gets for a block: those of `txids` that are in it, in chain
order, each with the block's hash. -/
def confirmations (chain : Chain) (height : Nat) (txids : List Nat) : List (Nat × Nat) :=
  (chain[height]?.toList.flatMap fun b =>
    (b.txs.filter fun tx => tx.txid ∈ txids).map fun tx => (tx.txid, b.hash))

theorem mem_confirmations {txids : List Nat} (hb : chain[h]? = some b) (htx : tx ∈ b.txs)
    (ht : tx.txid ∈ txids) : (tx.txid, b.hash) ∈ confirmations chain h txids := by
  simp only [confirmations, hb, Option.toList_some, List.flatMap_singleton, List.mem_map,
    List.mem_filter, decide_eq_true_eq]
  exact ⟨tx, ⟨htx, ht⟩, rfl⟩

/-- The walk from `currentLocalHeight` down: the height at which it stops, unless a request
fails.  The local hash is replaced by the server's own after the first mismatch. -/
def walkBack (chain : Chain) : Nat → Nat → Option Nat
  | 0, _ => some 0
  | n + 1, localHash =>
    (fetchBlockHash chain (n + 1)).bind fun remoteHash =>
      if remoteHash = localHash then some (n + 1)
      else if n = 0 then some 0
      else (fetchBlockHash chain n).bind fun hash => walkBack chain n hash

/-- The walk stops where it began when the hashes are equal, and one block below otherwise. -/
theorem walkBack_eq {hash : Nat} (h : walkBack chain n hash = some m) :
    (m = n ∧ (0 < n → fetchBlockHash chain n = some hash)) ∨
      (m + 1 = n ∧ ∃ remote, fetchBlockHash chain n = some remote ∧ remote ≠ hash) := by
  have hself : ∀ k x, fetchBlockHash chain k = some x → walkBack chain k x = some k := by
    intro k x hx
    cases k with
    | zero => rfl
    | succ k => simp [walkBack, hx]
  cases n with
  | zero =>
    cases h
    exact .inl ⟨rfl, fun hpos => absurd hpos (Nat.lt_irrefl 0)⟩
  | succ n =>
    obtain ⟨remote, hr, h⟩ := Option.bind_eq_some_iff.mp h
    split at h
    · rename_i heq
      cases h
      exact .inl ⟨rfl, fun _ => heq ▸ hr⟩
    · rename_i hne
      refine .inr ⟨?_, remote, hr, hne⟩
      split at h
      · rename_i hn
        cases h
        rw [hn]
      · obtain ⟨x, hx, h⟩ := Option.bind_eq_some_iff.mp h
        rw [hself n x hx] at h
        cases h
        rfl

end LibreWallet.Esplora
