import LibreWallet.Async.System
import LibreWallet.Esplora.Chain

/-
  Esplora/Client.lean --- a sync against the best chain.

  Mirrors `EsploraSyncClient.sync` of `libre-listener-wallet/src/esplora-client.ts`; at most
  one sync is under way (`runChainSync`).  The filters are lists in order of registration,
  as the maps are iterated, and LDK may register at any time, also from inside
  `transactions_confirmed`.  LDK's best block is what it was last told; which transactions it
  calls relevant is up to the environment, each time it is asked.  The requests about one
  block are answered as of the last of them, but for the walk over the registered outputs,
  which meets what is registered during it.
-/

set_option autoImplicit false

namespace LibreWallet.Esplora

open Async

inductive Stage where
  | idle
  | started (tipHeight : Nat)
  /-- The reorganization check is over. -/
  | checked (tipHeight : Nat)
  /-- The forward loop is at its head. -/
  | next (batchEnd currentHeight : Nat)
  /-- Output `i` is the next to be asked for. -/
  | scanning (batchEnd currentHeight i : Nat) (activeTxidsToCheck : List Nat)
  | confirming (batchEnd currentHeight : Nat) (activeTxidsToCheck : List Nat)
  /-- The sync has just returned. -/
  | finished
  deriving DecidableEq, Repr

structure State where
  chain : Chain
  bestHeight : Nat
  bestHash : Nat
  registeredTxs : List Nat := []
  registeredOutputs : List Outpoint := []
  /-- What was passed to `transactions_confirmed`, with the hash of its block. -/
  delivered : List (Nat × Nat) := []
  unconfirmed : List Nat := []
  /-- The rollback point that this sync reported. -/
  rolledBack : Option Nat := none
  stage : Stage := .idle
  deriving DecidableEq, Repr

inductive Action where
  /-- The server's chain grows. -/
  | grow (b : Block)
  | registerTx (txid : Nat)
  | registerOutput (o : Outpoint)
  | sync
  | reorgCheck (relevant : List Nat)
  /-- `relevant` are those that LDK has without a block. -/
  | catchUp (relevant : List Nat)
  | block (relevant : List Nat)
  /-- The answer about the next registered output, or there is none left. -/
  | spendInfo
  | confirm
  | rest
  deriving DecidableEq, Repr

/-- `currentLocalHeight` at the end of the reorganization check. -/
def State.commonAncestor (s : State) : Option Nat :=
  if 0 < s.bestHeight then walkBack s.chain s.bestHeight s.bestHash else some s.bestHeight

def reorgCheck (relevant : List Nat) (tipHeight : Nat) (s : State) : Option State :=
  s.commonAncestor.bind fun currentLocalHeight =>
    if currentLocalHeight < s.bestHeight then
      (fetchBlockHash s.chain currentLocalHeight).map fun hash =>
        { s with
          bestHeight := currentLocalHeight
          bestHash := hash
          unconfirmed := s.unconfirmed ++ relevant
          rolledBack := some currentLocalHeight
          stage := .checked tipHeight }
    else some { s with stage := .checked tipHeight }

def catchUp (relevant : List Nat) (tipHeight : Nat) (s : State) : State :=
  let groups := planBuriedConfirmations (relevant ++ s.registeredTxs) (fetchTx s.chain) s.bestHeight
  { s with
    delivered := s.delivered ++ groups.flatMap fun g => confirmations s.chain g.1 g.2
    stage := .next (forwardSyncBatchEnd s.bestHeight tipHeight MAX_FORWARD_BLOCKS_PER_SYNC)
      (s.bestHeight + 1) }

/-- The answer about output `i` of the registered ones, at the block `currentHeight`. -/
def spendInfo (batchEnd currentHeight i : Nat) (active : List Nat) (s : State) : State :=
  match s.registeredOutputs[i]? with
  | some o =>
    match fetchSpendInfo s.chain o with
    | some (txid, height) =>
      if height = currentHeight then
        { s with stage := .scanning batchEnd currentHeight (i + 1) (active ++ [txid]) }
      else { s with stage := .scanning batchEnd currentHeight (i + 1) active }
    | none => { s with stage := .scanning batchEnd currentHeight (i + 1) active }
  | none => { s with stage := .confirming batchEnd currentHeight active }

def confirm (batchEnd currentHeight : Nat) (active : List Nat) (s : State) : Option State :=
  (fetchBlockHash s.chain currentHeight).map fun hash =>
    { s with
      delivered := s.delivered ++ confirmations s.chain currentHeight active
      bestHeight := currentHeight
      bestHash := hash
      stage := .next batchEnd (currentHeight + 1) }

local instance : LawfulBEq Outpoint := inferInstance

def step : Action → State → Option State
  | .grow b, s => some { s with chain := s.chain ++ [b] }
  | .registerTx txid, s =>
    if s.stage = .finished then none
    else if txid ∈ s.registeredTxs then some s
    else some { s with registeredTxs := s.registeredTxs ++ [txid] }
  | .registerOutput o, s =>
    if s.stage = .finished then none
    else if o ∈ s.registeredOutputs then some s
    else some { s with registeredOutputs := s.registeredOutputs ++ [o] }
  | .sync, s =>
    match s.stage with
    | .idle => some { s with rolledBack := none, stage := .started (s.chain.length - 1) }
    | _ => none
  | .reorgCheck relevant, s =>
    match s.stage with
    | .started tipHeight => reorgCheck relevant tipHeight s
    | _ => none
  | .catchUp relevant, s =>
    match s.stage with
    | .checked tipHeight => some (catchUp relevant tipHeight s)
    | _ => none
  | .block relevant, s =>
    match s.stage with
    | .next batchEnd currentHeight =>
      if currentHeight ≤ batchEnd then
        (fetchBlockHash s.chain currentHeight).map fun _ =>
          { s with stage := .scanning batchEnd currentHeight 0 (relevant ++ s.registeredTxs) }
      else some { s with stage := .finished }
    | _ => none
  | .spendInfo, s =>
    match s.stage with
    | .scanning batchEnd currentHeight i active => some (spendInfo batchEnd currentHeight i active s)
    | _ => none
  | .confirm, s =>
    match s.stage with
    | .confirming batchEnd currentHeight active => confirm batchEnd currentHeight active s
    | _ => none
  | .rest, s =>
    match s.stage with
    | .finished => some { s with stage := .idle }
    | _ => none

/-! ## What has been delivered -/

/-- The transactions below height `n` that spend `o` have been delivered. -/
def SpendsDelivered (s : State) (o : Outpoint) (n : Nat) : Prop :=
  ∀ b ∈ s.chain.take n, ∀ tx ∈ b.txs, o ∈ tx.spends → (tx.txid, b.hash) ∈ s.delivered

/-- Those of the outputs in `Q`, and the transactions in `W`, below height `n`. -/
def Delivered (Q : Outpoint → Prop) (W : Nat → Prop) (s : State) (n : Nat) : Prop :=
  (∀ o ∈ s.registeredOutputs, Q o → SpendsDelivered s o n) ∧
    ∀ b ∈ s.chain.take n, ∀ tx ∈ b.txs, W tx.txid → (tx.txid, b.hash) ∈ s.delivered

/-- The blocks below this height have been scanned by the sync under way. -/
def State.scanned (s : State) : Nat :=
  match s.stage with
  | .next _ n | .scanning _ n _ _ | .confirming _ n _ => n
  | _ => 0

/-- The block whose outputs have been asked for, and what was found. -/
def State.atHand (s : State) : Option Block × List Nat :=
  match s.stage with
  | .confirming _ n active => (s.chain[n]?, active)
  | _ => (none, [])

/-- An output that is registered now: its spends are delivered, or at blocks that this sync has
still to scan, or in what it has found. -/
def Timely (s : State) (o : Outpoint) : Prop :=
  SpendsDelivered s o s.scanned ∧
    ∀ b ∈ s.atHand.1.toList, ∀ tx ∈ b.txs, o ∈ tx.spends → tx.txid ∈ s.atHand.2

/-- At the catch-up: the spends of the outputs in `Q` at or below the best block are delivered,
or the transaction itself is watched. -/
def CaughtUp (Q : Outpoint → Prop) (relevant : List Nat) (s : State) : Prop :=
  ∀ o ∈ s.registeredOutputs, Q o → ∀ b ∈ s.chain.take (s.bestHeight + 1), ∀ tx ∈ b.txs,
    o ∈ tx.spends → (tx.txid, b.hash) ∈ s.delivered ∨ tx.txid ∈ relevant ++ s.registeredTxs

instance (s : State) (o : Outpoint) (n : Nat) : Decidable (SpendsDelivered s o n) :=
  inferInstanceAs (Decidable
    (∀ b ∈ s.chain.take n, ∀ tx ∈ b.txs, o ∈ tx.spends → (tx.txid, b.hash) ∈ s.delivered))

instance (s : State) (o : Outpoint) : Decidable (Timely s o) :=
  inferInstanceAs (Decidable (SpendsDelivered s o s.scanned ∧
    ∀ b ∈ s.atHand.1.toList, ∀ tx ∈ b.txs, o ∈ tx.spends → tx.txid ∈ s.atHand.2))

instance (Q : Outpoint → Prop) [DecidablePred Q] (relevant : List Nat) (s : State) :
    Decidable (CaughtUp Q relevant s) :=
  inferInstanceAs (Decidable (∀ o ∈ s.registeredOutputs, Q o →
    ∀ b ∈ s.chain.take (s.bestHeight + 1), ∀ tx ∈ b.txs, o ∈ tx.spends →
      (tx.txid, b.hash) ∈ s.delivered ∨ tx.txid ∈ relevant ++ s.registeredTxs))

variable {Q : Outpoint → Prop} {W : Nat → Prop} {s s' : State} {n : Nat}

theorem mem_take_iff {chain : Chain} {b : Block} : b ∈ chain.take n ↔ ∃ h, h < n ∧ chain[h]? = some b := by
  rw [List.mem_iff_getElem?]
  constructor
  · rintro ⟨h, hb⟩
    rw [List.getElem?_take] at hb
    split at hb
    · rename_i hlt
      exact ⟨h, hlt, hb⟩
    · cases hb
  · rintro ⟨h, hlt, hb⟩
    exact ⟨h, by rw [List.getElem?_take, if_pos hlt]; exact hb⟩

theorem SpendsDelivered.mono {o : Outpoint} (h : SpendsDelivered s o n)
    (hchain : s'.chain.take n = s.chain.take n) (hdel : ∀ x ∈ s.delivered, x ∈ s'.delivered) :
    SpendsDelivered s' o n := by
  intro b hb tx htx ho
  rw [hchain] at hb
  exact hdel _ (h b hb tx htx ho)

/-- What is delivered stays delivered, while the blocks below `n` and the outputs stay. -/
theorem Delivered.mono (h : Delivered Q W s n) (hchain : s'.chain.take n = s.chain.take n)
    (hdel : ∀ x ∈ s.delivered, x ∈ s'.delivered)
    (hout : ∀ o ∈ s'.registeredOutputs, Q o → o ∈ s.registeredOutputs ∨ SpendsDelivered s' o n) :
    Delivered Q W s' n := by
  refine ⟨fun o ho hq => ?_, fun b hb tx htx hw => ?_⟩
  · rcases hout o ho hq with hold | hnew
    · exact (h.1 o hold hq).mono hchain hdel
    · exact hnew
  · rw [hchain] at hb
    exact hdel _ (h.2 b hb tx htx hw)

/-- One more block. -/
theorem take_succ_of_getElem? {chain : Chain} {b : Block} (hb : chain[n]? = some b) :
    chain.take (n + 1) = chain.take n ++ [b] := by
  rw [List.take_add_one, hb]
  rfl

/-! ## The invariant -/

/-- What is in the block at `n` is among those to check: of the outputs, those at an index that
has been asked for. -/
def Found (Q : Outpoint → Prop) (W : Nat → Prop) (s : State) (n : Nat) (active : List Nat)
    (asked : Nat → Prop) : Prop :=
  ∀ b ∈ s.chain[n]?.toList, ∀ tx ∈ b.txs, (W tx.txid → tx.txid ∈ active) ∧
    ∀ (j : Nat) (o : Outpoint), asked j → s.registeredOutputs[j]? = some o → Q o → o ∈ tx.spends →
      tx.txid ∈ active

/-- How far the sync has got. -/
def Progress (Q : Outpoint → Prop) (W : Nat → Prop) (s : State) : Prop :=
  match s.stage with
  | .next _ n => n = s.bestHeight + 1 ∧ Delivered Q W s n
  | .scanning _ n i active => n = s.bestHeight + 1 ∧ n < s.chain.length ∧ Delivered Q W s n ∧
    Found Q W s n active (· < i) ∧ i ≤ s.registeredOutputs.length
  | .confirming _ n active => n = s.bestHeight + 1 ∧ n < s.chain.length ∧ Delivered Q W s n ∧
    Found Q W s n active fun _ => True
  | .finished => Delivered Q W s (s.bestHeight + 1)
  | _ => True

structure Inv (Q : Outpoint → Prop) (W : Nat → Prop) (s : State) : Prop where
  valid : Valid s.chain
  best : s.bestHeight < s.chain.length
  watched : ∀ t, W t → t ∈ s.registeredTxs
  progress : Progress Q W s

theorem Inv.grow (h : Inv Q W s) (b : Block) (hv : Valid (s.chain ++ [b])) :
    Inv Q W { s with chain := s.chain ++ [b] } := by
  have htake : ∀ n, n ≤ s.chain.length → (s.chain ++ [b]).take n = s.chain.take n :=
    fun n hn => List.take_append_of_le_length hn
  have hdel : ∀ n, n ≤ s.chain.length → Delivered Q W s n →
      Delivered Q W { s with chain := s.chain ++ [b] } n :=
    fun n hn hd => hd.mono (htake n hn) (fun _ hx => hx) fun o ho _ => .inl ho
  have hget : ∀ n, n < s.chain.length → (s.chain ++ [b])[n]? = s.chain[n]? :=
    fun n hn => List.getElem?_append_left hn
  have hp := h.progress
  have hb := h.best
  refine ⟨hv, by simp only [List.length_append]; omega, h.watched, ?_⟩
  unfold Progress at hp ⊢
  simp only
  split at hp
  · exact ⟨hp.1, hdel _ (by omega) hp.2⟩
  · obtain ⟨hn, hlt, hd, hf, hi⟩ := hp
    refine ⟨hn, by simp only [List.length_append]; omega, hdel _ (by omega) hd, ?_, hi⟩
    unfold Found at hf ⊢
    simp only [hget _ hlt]
    exact hf
  · obtain ⟨hn, hlt, hd, hf⟩ := hp
    refine ⟨hn, by simp only [List.length_append]; omega, hdel _ (by omega) hd, ?_⟩
    unfold Found at hf ⊢
    simp only [hget _ hlt]
    exact hf
  · exact hdel _ (by omega) hp
  · trivial

theorem Inv.registerTx (h : Inv Q W s) (txid : Nat) :
    Inv Q W { s with registeredTxs := s.registeredTxs ++ [txid] } :=
  ⟨h.valid, h.best, fun t ht => List.mem_append_left _ (h.watched t ht), h.progress⟩

/-- An output is registered: what it needs of the blocks already scanned is there. -/
theorem Inv.registerOutput (h : Inv Q W s) (o : Outpoint) (hover : s.stage ≠ .finished)
    (ht : Q o → Timely s o) :
    Inv Q W { s with registeredOutputs := s.registeredOutputs ++ [o] } := by
  have hdel : ∀ n, Delivered Q W s n → (Q o → SpendsDelivered s o n) →
      Delivered Q W { s with registeredOutputs := s.registeredOutputs ++ [o] } n := by
    intro n hd hnew
    refine hd.mono rfl (fun _ hx => hx) fun o' ho' hq => ?_
    rcases List.mem_append.mp ho' with hold | hself
    · exact .inl hold
    · rw [List.mem_singleton.mp hself] at hq ⊢
      exact .inr (hnew hq)
  have hfound : ∀ n active asked, Found Q W s n active asked →
      (∀ b ∈ s.chain[n]?.toList, ∀ tx ∈ b.txs, asked s.registeredOutputs.length → Q o →
        o ∈ tx.spends → tx.txid ∈ active) →
      Found Q W { s with registeredOutputs := s.registeredOutputs ++ [o] } n active asked := by
    intro n active asked hf hnew b hb tx htx
    refine ⟨(hf b hb tx htx).1, fun j o' hj ho' hq hsp => ?_⟩
    rw [List.getElem?_append] at ho'
    split at ho'
    · exact (hf b hb tx htx).2 j o' hj ho' hq hsp
    · rename_i hge
      obtain ⟨hj0, rfl⟩ : j = s.registeredOutputs.length ∧ o' = o := by
        obtain ⟨hlt, hval⟩ := List.getElem?_eq_some_iff.mp ho'
        simp only [List.length_singleton] at hlt
        simp only [List.getElem_singleton] at hval
        exact ⟨by omega, hval.symm⟩
      exact hnew b hb tx htx (hj0 ▸ hj) hq hsp
  have hp := h.progress
  refine ⟨h.valid, h.best, h.watched, ?_⟩
  unfold Progress at hp ⊢
  unfold Timely State.scanned State.atHand at ht
  simp only
  split at hp
  · rename_i hst
    simp only [hst] at ht
    exact ⟨hp.1, hdel _ hp.2 fun hq => (ht hq).1⟩
  · rename_i i active hst
    simp only [hst] at ht
    obtain ⟨hn, hlt, hd, hf, hi⟩ := hp
    refine ⟨hn, hlt, hdel _ hd fun hq => (ht hq).1, hfound _ _ _ hf ?_, ?_⟩
    · exact fun b hb tx htx hasked => absurd hasked (by omega)
    · simp only [List.length_append]
      omega
  · rename_i hst
    simp only [hst] at ht
    obtain ⟨hn, hlt, hd, hf⟩ := hp
    refine ⟨hn, hlt, hdel _ hd fun hq => (ht hq).1, hfound _ _ _ hf ?_⟩
    exact fun b hb tx htx _ hq hsp => (ht hq).2 b hb tx htx hsp
  · rename_i hst
    exact absurd hst hover
  · trivial

theorem Inv.reorgCheck (h : Inv Q W s) {relevant : List Nat} {tipHeight : Nat}
    (hs : reorgCheck relevant tipHeight s = some s') : Inv Q W s' := by
  obtain ⟨local', -, hs⟩ := Option.bind_eq_some_iff.mp hs
  split at hs
  · rename_i hlt
    obtain ⟨hash, -, rfl⟩ := Option.map_eq_some_iff.mp hs
    exact ⟨h.valid, Nat.lt_trans hlt h.best, h.watched, trivial⟩
  · cases hs
    exact ⟨h.valid, h.best, h.watched, trivial⟩

/-- After the catch-up everything at or below the best block is delivered. -/
theorem Inv.catchUp (h : Inv Q W s) {relevant : List Nat} (tipHeight : Nat)
    (hc : CaughtUp Q relevant s) : Inv Q W (catchUp relevant tipHeight s) := by
  have hwatched : ∀ b ∈ s.chain.take (s.bestHeight + 1), ∀ tx ∈ b.txs,
      tx.txid ∈ relevant ++ s.registeredTxs →
      (tx.txid, b.hash) ∈ (Esplora.catchUp relevant tipHeight s).delivered := by
    intro b hb tx htx hmem
    obtain ⟨height, hlt, hget⟩ := mem_take_iff.mp hb
    obtain ⟨txids, hg, ht⟩ := mem_planBuriedConfirmations hmem (fetchTx_of_mem h.valid hget htx)
      (Nat.le_of_lt_succ hlt)
    refine List.mem_append_right _ (List.mem_flatMap.mpr ⟨_, hg, ?_⟩)
    exact mem_confirmations hget htx ht
  refine ⟨h.valid, h.best, h.watched, rfl, fun o ho hq b hb tx htx hsp => ?_,
    fun b hb tx htx hw => ?_⟩
  · rcases hc o ho hq b hb tx htx hsp with hdel | hwat
    · exact List.mem_append_left _ hdel
    · exact hwatched b hb tx htx hwat
  · exact hwatched b hb tx htx (List.mem_append_right _ (h.watched _ hw))

/-- The forward loop takes the next block, or the sync is over. -/
theorem Inv.block (h : Inv Q W s) {batchEnd n : Nat} (relevant : List Nat)
    (hst : s.stage = .next batchEnd n) (hs : step (.block relevant) s = some s') : Inv Q W s' := by
  have hp := h.progress
  simp only [Progress, hst] at hp
  simp only [step, hst] at hs
  split at hs
  · obtain ⟨hash, hhash, rfl⟩ := Option.map_eq_some_iff.mp hs
    obtain ⟨b, hb, -⟩ := Option.map_eq_some_iff.mp hhash
    refine ⟨h.valid, h.best, h.watched, hp.1, (List.getElem?_eq_some_iff.mp hb).1, hp.2, ?_,
      Nat.zero_le _⟩
    intro b _ tx _
    exact ⟨fun hw => List.mem_append_right _ (h.watched _ hw), fun j o hj => absurd hj (by omega)⟩
  · cases hs
    have hd := hp.2
    rw [hp.1] at hd
    exact ⟨h.valid, h.best, h.watched, hd⟩

/-- One more output has been asked for. -/
theorem Inv.spendInfo (h : Inv Q W s) {batchEnd n i : Nat} {active : List Nat}
    (hst : s.stage = .scanning batchEnd n i active) :
    Inv Q W (spendInfo batchEnd n i active s) := by
  have hp := h.progress
  simp only [Progress, hst] at hp
  obtain ⟨hn, hlt, hd, hf, hi⟩ := hp
  -- the output at `i` adds its spender
  have hone : ∀ o active', s.registeredOutputs[i]? = some o → (∀ t ∈ active, t ∈ active') →
      (∀ b ∈ s.chain[n]?.toList, ∀ tx ∈ b.txs, o ∈ tx.spends → tx.txid ∈ active') →
      Inv Q W { s with stage := .scanning batchEnd n (i + 1) active' } := by
    intro o active' ho hsub hspend
    refine ⟨h.valid, h.best, h.watched, hn, hlt, hd, fun b hb tx htx => ?_,
      (List.getElem?_eq_some_iff.mp ho).1⟩
    refine ⟨fun hw => hsub _ ((hf b hb tx htx).1 hw), fun j o' hj ho' hq hsp => ?_⟩
    rcases Nat.lt_or_eq_of_le (Nat.le_of_lt_succ hj) with hlt' | rfl
    · exact hsub _ ((hf b hb tx htx).2 j o' hlt' ho' hq hsp)
    · rw [ho] at ho'
      cases ho'
      exact hspend b hb tx htx hsp
  have hinfo : ∀ (o : Outpoint), ∀ b ∈ s.chain[n]?.toList, ∀ tx ∈ b.txs, o ∈ tx.spends →
      fetchSpendInfo s.chain o = some (tx.txid, n) :=
    fun o b hb tx htx hsp => fetchSpendInfo_of_mem h.valid (Option.mem_toList.mp hb) htx hsp
  unfold Esplora.spendInfo
  split
  · rename_i o ho
    split
    · rename_i t height hinf
      split
      · refine hone o _ ho (fun t' ht' => List.mem_append_left _ ht') fun b hb tx htx hsp => ?_
        have := (hinfo o b hb tx htx hsp).symm.trans hinf
        cases this
        exact List.mem_append_right _ (List.mem_singleton_self _)
      · rename_i hne
        refine hone o _ ho (fun t' ht' => ht') fun b hb tx htx hsp => ?_
        have := (hinfo o b hb tx htx hsp).symm.trans hinf
        cases this
        exact absurd rfl hne
    · rename_i hinf
      refine hone o _ ho (fun t' ht' => ht') fun b hb tx htx hsp => ?_
      exact nomatch (hinfo o b hb tx htx hsp).symm.trans hinf
  · -- all have been asked for
    rename_i hnone
    have hge : s.registeredOutputs.length ≤ i := List.getElem?_eq_none_iff.mp hnone
    refine ⟨h.valid, h.best, h.watched, hn, hlt, hd, fun b hb tx htx => ⟨(hf b hb tx htx).1, ?_⟩⟩
    intro j o _ ho hq hsp
    have hj : j < s.registeredOutputs.length := (List.getElem?_eq_some_iff.mp ho).1
    exact (hf b hb tx htx).2 j o (Nat.lt_of_lt_of_le hj hge) ho hq hsp

/-- The block is confirmed, and it is the best one. -/
theorem Inv.confirm (h : Inv Q W s) {batchEnd n : Nat} {active : List Nat}
    (hst : s.stage = .confirming batchEnd n active) (hs : confirm batchEnd n active s = some s') :
    Inv Q W s' := by
  have hp := h.progress
  simp only [Progress, hst] at hp
  obtain ⟨hn, hlt, hd, hf⟩ := hp
  obtain ⟨hash, hhash, rfl⟩ := Option.map_eq_some_iff.mp hs
  obtain ⟨b, hb, rfl⟩ := Option.map_eq_some_iff.mp hhash
  have hnew : ∀ tx ∈ b.txs, tx.txid ∈ active →
      (tx.txid, b.hash) ∈ s.delivered ++ confirmations s.chain n active :=
    fun tx htx ht => List.mem_append_right _ (mem_confirmations hb htx ht)
  have hold : ∀ x ∈ s.delivered, x ∈ s.delivered ++ confirmations s.chain n active :=
    fun x hx => List.mem_append_left _ hx
  have hbm : b ∈ s.chain[n]?.toList := Option.mem_toList.mpr hb
  refine ⟨h.valid, hlt, h.watched, rfl, fun o ho hq b' hb' tx htx hsp => ?_,
    fun b' hb' tx htx hw => ?_⟩
  · rw [take_succ_of_getElem? hb] at hb'
    rcases List.mem_append.mp hb' with hlow | hself
    · exact hold _ (hd.1 o ho hq b' hlow tx htx hsp)
    · rw [List.mem_singleton.mp hself] at htx ⊢
      obtain ⟨j, hj⟩ := List.mem_iff_getElem?.mp ho
      exact hnew tx htx ((hf b hbm tx htx).2 j o trivial hj hq hsp)
  · rw [take_succ_of_getElem? hb] at hb'
    rcases List.mem_append.mp hb' with hlow | hself
    · exact hold _ (hd.2 b' hlow tx htx hw)
    · rw [List.mem_singleton.mp hself] at htx ⊢
      exact hnew tx htx ((hf b hbm tx htx).1 hw)

/-- A step keeps the invariant: the chain stays valid, and of the outputs in `Q` nothing is
registered or left for the catch-up too late. -/
theorem Inv.step {a : Action} (h : Inv Q W s) (hgrow : ∀ b, a = .grow b → Valid (s.chain ++ [b]))
    (hreg : ∀ o, a = .registerOutput o → o ∉ s.registeredOutputs → Q o → Timely s o)
    (hcatch : ∀ relevant, a = .catchUp relevant → CaughtUp Q relevant s)
    (hs : step a s = some s') : Inv Q W s' := by
  cases a with
  | grow b =>
    cases hs
    exact h.grow b (hgrow b rfl)
  | registerTx txid =>
    simp only [Esplora.step] at hs
    split at hs
    · cases hs
    · split at hs
      · cases hs
        exact h
      · cases hs
        exact h.registerTx txid
  | registerOutput o =>
    simp only [Esplora.step] at hs
    split at hs
    · cases hs
    · rename_i hover
      split at hs
      · cases hs
        exact h
      · rename_i hnew
        cases hs
        exact h.registerOutput o hover (hreg o rfl hnew)
  | sync =>
    simp only [Esplora.step] at hs
    split at hs
    · cases hs
      exact ⟨h.valid, h.best, h.watched, trivial⟩
    · cases hs
  | reorgCheck relevant =>
    simp only [Esplora.step] at hs
    split at hs
    · exact h.reorgCheck hs
    · cases hs
  | catchUp relevant =>
    simp only [Esplora.step] at hs
    split at hs
    · cases hs
      exact h.catchUp _ (hcatch relevant rfl)
    · cases hs
  | block relevant =>
    have hs' := hs
    simp only [Esplora.step] at hs
    split at hs
    · rename_i hst
      exact h.block relevant hst hs'
    · cases hs
  | spendInfo =>
    simp only [Esplora.step] at hs
    split at hs
    · rename_i hst
      cases hs
      exact h.spendInfo hst
    · cases hs
  | confirm =>
    simp only [Esplora.step] at hs
    split at hs
    · rename_i hst
      exact h.confirm hst hs
    · cases hs
  | rest =>
    simp only [Esplora.step] at hs
    split at hs
    · cases hs
      exact ⟨h.valid, h.best, h.watched, trivial⟩
    · cases hs

/-! ## Runs on a chain that grows -/

/-- A client that has nothing registered yet, and a best block on the chain. -/
def initial (chain : Chain) (bestHeight bestHash : Nat) : State := { chain, bestHeight, bestHash }

/-- The chain that the server has is always valid. -/
def lawful (a : Action) (s : State) : Prop :=
  match a with
  | .grow b => Valid (s.chain ++ [b])
  | _ => True

/-- No output is registered after the forward loop has left the block of its spend, nor still
undelivered and unwatched at a catch-up. -/
def inTime (a : Action) (s : State) : Prop :=
  match a with
  | .registerOutput o => o ∉ s.registeredOutputs → Timely s o
  | .catchUp relevant => CaughtUp (fun _ => True) relevant s
  | _ => True

/-- In every run in which outputs are registered in time, a sync that returns has delivered
every spend of a registered output up to the height it reached. -/
theorem spendsDelivered_of_inTime (chain : Chain) (bestHeight bestHash : Nat) (hv : Valid chain)
    (hbest : fetchBlockHash chain bestHeight = some bestHash) (s : State)
    (hrun : Steps step (fun a t => lawful a t ∧ inTime a t) (initial chain bestHeight bestHash) s)
    (hover : s.stage = .finished) :
    ∀ o ∈ s.registeredOutputs, SpendsDelivered s o (s.bestHeight + 1) := by
  have h : Inv (fun _ => True) (fun _ => False) s := by
    have h₀ : Inv (fun _ => True) (fun _ => False) (initial chain bestHeight bestHash) := by
      refine ⟨hv, ?_, nofun, trivial⟩
      obtain ⟨b, hb, -⟩ := Option.map_eq_some_iff.mp hbest
      exact (List.getElem?_eq_some_iff.mp hb).1
    refine hrun.invariant h₀ fun a t t' ht hP hs => ht.step ?_ ?_ ?_ hs
    · rintro b rfl
      exact hP.1
    · rintro o rfl hnew _
      exact hP.2 hnew
    · rintro relevant rfl
      exact hP.2
  have hp := h.progress
  simp only [Progress, hover] at hp
  exact fun o ho => hp.1 o ho trivial

/-- An output is registered, and from inside the delivery of its spend another one. -/
theorem spendsDelivered_of_inTime_chain : ∃ s,
    Steps step (fun a t => lawful a t ∧ inTime a t) (initial [⟨100, []⟩] 0 100) s ∧
      s.delivered = [(1, 101), (2, 102)] ∧
      ∀ o ∈ s.registeredOutputs, SpendsDelivered s o (s.bestHeight + 1) := by
  obtain ⟨s, hrun, hs⟩ := Steps.exists_of_play step
    (fun a t => match a with
      | .grow b => decide (Valid (t.chain ++ [b]))
      | .registerOutput o => decide (Timely t o)
      | .catchUp relevant => decide (CaughtUp (fun _ => True) relevant t)
      | _ => true)
    (initial [⟨100, []⟩] 0 100)
    [.registerOutput (7, 0), .grow ⟨101, [⟨1, [(7, 0)]⟩]⟩, .sync, .reorgCheck [],
      .grow ⟨102, [⟨2, [(1, 0)]⟩]⟩, .catchUp [], .block [], .spendInfo, .spendInfo, .confirm,
      .registerOutput (1, 0), .block [], .rest, .sync, .reorgCheck [], .catchUp [], .block [],
      .spendInfo, .spendInfo, .spendInfo, .confirm, .block []]
    (fun s => s.delivered = [(1, 101), (2, 102)] ∧ s.stage = .finished) (by decide +kernel)
  simp only [decide_eq_true_eq] at hs
  have hrun' : Steps step (fun a t => lawful a t ∧ inTime a t) (initial [⟨100, []⟩] 0 100) s := by
    refine hrun.mono fun a t h => ?_
    cases a with
    | grow b => exact ⟨(of_decide_eq_true h : Valid _), trivial⟩
    | registerOutput o => exact ⟨trivial, fun _ => of_decide_eq_true h⟩
    | catchUp relevant => exact ⟨trivial, (of_decide_eq_true h : CaughtUp _ relevant t)⟩
    | _ => exact ⟨trivial, trivial⟩
  exact ⟨s, hrun', hs.1, spendsDelivered_of_inTime _ _ _ (by decide) rfl s hrun' hs.2⟩

/-- The spend is confirmed and synced, and then the output is registered: no later sync asks
for it at its height. -/
theorem not_spendsDelivered_late : ∃ s, Steps step lawful (initial [⟨100, []⟩] 0 100) s ∧
    s.stage = .finished ∧ ¬ ∀ o ∈ s.registeredOutputs, SpendsDelivered s o (s.bestHeight + 1) := by
  obtain ⟨s, hrun, hs⟩ := Steps.exists_of_play step
    (fun a t => match a with
      | .grow b => decide (Valid (t.chain ++ [b]))
      | _ => true)
    (initial [⟨100, []⟩] 0 100)
    [.grow ⟨101, [⟨1, [(7, 0)]⟩]⟩, .sync, .reorgCheck [], .catchUp [], .block [], .spendInfo,
      .confirm, .block [], .rest, .registerOutput (7, 0), .grow ⟨102, []⟩, .sync, .reorgCheck [],
      .catchUp [], .block [], .spendInfo, .spendInfo, .confirm, .block []]
    (fun s => s.stage = .finished ∧ s.registeredOutputs = [(7, 0)] ∧
      ¬ SpendsDelivered s (7, 0) (s.bestHeight + 1)) (by decide +kernel)
  simp only [decide_eq_true_eq] at hs
  obtain ⟨hover, hout, hnot⟩ := hs
  refine ⟨s, hrun.mono fun a t h => ?_, hover, fun hall => hnot (hall _ (by rw [hout]; simp))⟩
  cases a with
  | grow b => exact (of_decide_eq_true h : Valid _)
  | _ => trivial

end LibreWallet.Esplora
