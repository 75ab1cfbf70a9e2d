import LibreWallet.Async.System
import LibreWallet.Bolt11.Hex

/-
  Persist/Sweeps.lean --- the recovery of what a closed channel paid out.

  Mirrors `handleSpendableOutputs`, `persistPendingSweeps`, `loadPendingSweeps` and
  `broadcastPendingSweeps` of `libre-listener-wallet/src/index.ts`.  LDK hands over an event, and does
  not deliver it again once it is handled: from then on the signed transaction is the wallet's to keep.
  The storage takes the writes of the one key in order; a broadcast can be answered at any time, and
  calls of `broadcastPendingSweeps` overlap.
-/

set_option autoImplicit false

namespace LibreWallet.Persist.Sweeps

open Async
open Bolt11 (anyHexDigit bytesToHex bytesToHex_digits hexToBytes hexToBytes_bytesToHex)

abbrev Chars : Type := List Nat

/-! ## The wallet -/

/-- An entry of `pendingSweeps`. -/
structure Sweep where
  key : Chars
  txBytes : List UInt8
  deriving DecidableEq

/-- Where a `broadcastPendingSweeps` stands with the first of its sweeps. -/
inductive Stage where
  | broadcasting
  /-- It was accepted and deleted, and is being written down. -/
  | recording
  deriving DecidableEq

structure Loop where
  todo : List Sweep
  stage : Stage

structure Wallet where
  /-- The process lives, and has loaded what is stored. -/
  running : Bool := false
  sweepDestination : Bool := false
  sweepNeedsAddress : Bool := false
  pendingSweeps : List Sweep := []
  loops : List Loop := []
  /-- The `setItem` of `sweep_pending_txs` that are under way, the oldest first. -/
  writes : List (List Chars) := []
  /-- What is stored under `sweep_pending_txs`. -/
  disk : List Chars := []
  /-- The transactions whose event was handled. -/
  taken : List (List UInt8) := []
  /-- The transactions that the node answered it accepted. -/
  accepted : List Chars := []
  /-- What a write that is done held. -/
  saved : List Chars := []
  /-- What was pending at a crash and not stored. -/
  lost : List Chars := []

namespace Wallet

def keys (w : Wallet) : List Chars := w.pendingSweeps.map (·.key)

/-- `pendingSweeps.set` -/
def set (e : Sweep) (l : List Sweep) : List Sweep :=
  if l.any fun x => x.key = e.key then l.map fun x => if x.key = e.key then e else x else l ++ [e]

def persistPendingSweeps (w : Wallet) : Wallet := { w with writes := w.writes ++ [w.keys] }

def broadcastPendingSweeps (w : Wallet) : Wallet :=
  if w.pendingSweeps = [] then w else { w with loops := w.loops ++ [⟨w.pendingSweeps, .broadcasting⟩] }

/-- `handleSpendableOutputs`, with whether LDK may forget the event.  `built` is the transaction, where
it can be built. -/
def handleSpendableOutputs (built : Option (List UInt8)) (w : Wallet) : Wallet × Bool :=
  if !w.sweepDestination then ({ w with sweepNeedsAddress := true }, false)
  else
    match built with
    | none => (w, false)
    | some txBytes =>
      let w := { w with
        pendingSweeps := set ⟨bytesToHex txBytes, txBytes⟩ w.pendingSweeps, taken := w.taken ++ [txBytes] }
      (w.persistPendingSweeps.broadcastPendingSweeps, true)

/-- A key that `loadPendingSweeps` takes. -/
def loads (h : Chars) : Bool := h.length ≠ 0 && h.length % 2 = 0 && h.all anyHexDigit

def loadPendingSweeps (w : Wallet) : Wallet :=
  { w with
    pendingSweeps := (w.disk.filter loads).foldl (fun l h => set ⟨h, hexToBytes h⟩ l) w.pendingSweeps
    running := true }

def setSweepDestination (set : Bool) (w : Wallet) : Wallet :=
  { w with sweepDestination := set, sweepNeedsAddress := w.sweepNeedsAddress && !set }

/-- A loop goes on with the rest. -/
def next (i : Nat) (rest : List Sweep) (w : Wallet) : Wallet :=
  if rest = [] then { w with loops := w.loops.eraseIdx i }
  else { w with loops := w.loops.set i ⟨rest, .broadcasting⟩ }

/-- A broadcast is answered. -/
def answered (i : Nat) (ok : Bool) (w : Wallet) : Option Wallet :=
  match w.loops[i]? with
  | some ⟨e :: rest, .broadcasting⟩ =>
    if ok then
      let w := { w with
        accepted := e.key :: w.accepted, pendingSweeps := w.pendingSweeps.filter fun x => x.key ≠ e.key
        loops := w.loops.set i ⟨e :: rest, .recording⟩ }
      some w.persistPendingSweeps
    else some (w.next i rest)
  | _ => none

/-- What has been written down lets a loop go on. -/
def recorded (i : Nat) (w : Wallet) : Option Wallet :=
  match w.loops[i]? with
  | some ⟨_ :: rest, .recording⟩ => some (w.next i rest)
  | _ => none

/-- The oldest write is done, or it failed and is logged. -/
def wrote (ok : Bool) (w : Wallet) : Option Wallet :=
  match w.writes with
  | [] => none
  | snapshot :: writes =>
    some (if ok then { w with writes, disk := snapshot, saved := snapshot ++ w.saved } else { w with writes })

/-- The process ends after the storage has done `n` of the writes. -/
def crash (n : Nat) (w : Wallet) : Wallet :=
  let done := w.writes.take n
  let disk := done.getLast?.getD w.disk
  { disk, taken := w.taken, accepted := w.accepted, saved := done.flatten ++ w.saved
    lost := w.lost ++ w.keys.filter fun h => !disk.contains h }

end Wallet

inductive Action where
  | spendableOutputs (built : Option (List UInt8))
  | syncTick
  | answered (i : Nat) (ok : Bool)
  | recorded (i : Nat)
  | wrote (ok : Bool)
  | setSweepDestination (set : Bool)
  | crash (n : Nat)
  /-- `ok` where `sweep_pending_txs` can be read. -/
  | start (ok : Bool)

def step : Action → Wallet → Option Wallet
  | .spendableOutputs built, w => if w.running then some (w.handleSpendableOutputs built).1 else none
  | .syncTick, w => if w.running then some w.broadcastPendingSweeps else none
  | .answered i ok, w => w.answered i ok
  | .recorded i, w => w.recorded i
  | .wrote ok, w => w.wrote ok
  | .setSweepDestination set, w => some (w.setSweepDestination set)
  | .crash n, w => some (w.crash n)
  | .start ok, w => some (if ok then w.loadPendingSweeps else { w with running := true })

/-- A transaction that is built has bytes, and what is stored can be read when the process starts. -/
def sound : Action → Wallet → Bool
  | .spendableOutputs (some tx), _ => tx ≠ []
  | .start ok, w => ok || w.running
  | _, _ => true

/-! ## What is kept from one snapshot to the next -/

section Snapshots

variable {accepted accepted' x y z : List Chars}

/-- What is in `x` and was not accepted is in `y`. -/
def Kept (accepted x y : List Chars) : Prop := ∀ h ∈ x, h ∈ accepted ∨ h ∈ y

theorem Kept.refl (accepted x : List Chars) : Kept accepted x x := fun _ hh => .inr hh

theorem Kept.trans (hxy : Kept accepted x y) (hyz : Kept accepted y z) : Kept accepted x z := by
  intro h hh
  rcases hxy h hh with hacc | hy
  · exact .inl hacc
  · exact hyz h hy

theorem Kept.mono (h : Kept accepted x y) (hsub : accepted ⊆ accepted') : Kept accepted' x y :=
  fun t ht => (h t ht).imp_left fun hacc => hsub hacc

/-- In a chain of snapshots the last may be followed by a later one. -/
theorem chain_snoc {chain : List (List Chars)} (h : (chain ++ [y]).Pairwise (Kept accepted)) (hyz : Kept accepted y z) :
    (chain ++ [z]).Pairwise (Kept accepted) := by
  rw [List.pairwise_append] at h ⊢
  refine ⟨h.1, List.pairwise_singleton _ _, fun x hx t ht => ?_⟩
  rw [List.mem_singleton.mp ht]
  exact (h.2.2 x hx y List.mem_cons_self).trans hyz

end Snapshots

section Sets

variable {e x : Sweep} {l : List Sweep}

theorem mem_of_mem_set (h : x ∈ Wallet.set e l) : x = e ∨ x ∈ l := by
  unfold Wallet.set at h
  split at h
  · obtain ⟨y, hy, hx⟩ := List.mem_map.mp h
    split at hx
    · exact .inl hx.symm
    · exact .inr (hx ▸ hy)
  · rcases List.mem_append.mp h with h | h
    · exact .inr h
    · exact .inl (List.mem_singleton.mp h)

theorem mem_keys_set (e : Sweep) (l : List Sweep) (k : Chars) :
    k ∈ (Wallet.set e l).map (·.key) ↔ k = e.key ∨ k ∈ l.map (·.key) := by
  unfold Wallet.set
  split
  · rename_i hany
    have hkeys : (l.map fun x => if x.key = e.key then e else x).map (·.key) = l.map (·.key) := by
      rw [List.map_map]
      refine List.map_congr_left fun x _ => ?_
      rw [Function.comp_apply]
      split
      · rename_i heq
        exact heq.symm
      · rfl
    rw [hkeys, or_iff_right_of_imp]
    rintro rfl
    obtain ⟨x, hx, heq⟩ := List.any_eq_true.mp hany
    exact List.mem_map.mpr ⟨x, hx, of_decide_eq_true heq⟩
  · rw [List.map_append, List.mem_append, List.map_singleton, List.mem_singleton, or_comm]

end Sets

/-! ## The invariant -/

namespace Wallet

/-- The snapshots of the queue from the stored one on, the queue of a running process last. -/
def snapshots (w : Wallet) : List (List Chars) :=
  (w.disk :: w.writes) ++ if w.running then [w.keys] else []

/-- A transaction that the wallet took over, under its key. -/
def Own (taken : List (List UInt8)) (e : Sweep) : Prop := ∃ tx ∈ taken, tx ≠ [] ∧ e = ⟨bytesToHex tx, tx⟩

structure Inv (w : Wallet) : Prop where
  chain : w.snapshots.Pairwise (Kept w.accepted)
  saved : Kept w.accepted w.saved w.disk
  taken : ∀ tx ∈ w.taken, bytesToHex tx ∈ w.accepted ∨ bytesToHex tx ∈ w.lost ∨
    bytesToHex tx ∈ if w.running then w.keys else w.disk
  own : ∀ e ∈ w.pendingSweeps, Own w.taken e
  todo : ∀ l ∈ w.loops, ∀ e ∈ l.todo, Own w.taken e
  texts : ∀ s ∈ w.disk :: w.writes, ∀ h ∈ s, ∃ e, Own w.taken e ∧ h = e.key
  down : w.running = false → w.pendingSweeps = [] ∧ w.writes = [] ∧ w.loops = []

theorem Own.mono {taken taken' : List (List UInt8)} {e : Sweep} (h : Own taken e) (hsub : taken ⊆ taken') :
    Own taken' e := by
  obtain ⟨tx, htx, hne, he⟩ := h
  exact ⟨tx, hsub htx, hne, he⟩

variable {w : Wallet}

/-- The queue changes, and its snapshot is written. -/
theorem Inv.persist (h : Inv w) (hrun : w.running = true) {pendingSweeps : List Sweep} {loops : List Loop}
    {taken : List (List UInt8)} {accepted : List Chars} (htaken : w.taken ⊆ taken)
    (haccepted : w.accepted ⊆ accepted) (hkept : Kept accepted w.keys (pendingSweeps.map (·.key)))
    (hnew : ∀ tx ∈ taken, tx ∈ w.taken ∨ bytesToHex tx ∈ pendingSweeps.map (·.key))
    (hown : ∀ e ∈ pendingSweeps, Own taken e) (htodo : ∀ l ∈ loops, ∀ e ∈ l.todo, Own taken e) :
    Inv { w with pendingSweeps, loops, taken, accepted, writes := w.writes ++ [pendingSweeps.map (·.key)] } := by
  have hchain := h.chain
  unfold snapshots at hchain
  rw [hrun, if_pos rfl] at hchain
  refine ⟨?_, h.saved.mono haccepted, ?_, hown, htodo, ?_, fun hdown => ?_⟩
  · unfold snapshots keys
    dsimp only
    rw [hrun, if_pos rfl]
    have hnext := chain_snoc (hchain.imp fun hxy => hxy.mono haccepted) hkept
    have htwice := hnext
    rw [List.pairwise_append] at hnext
    rw [← List.cons_append, List.pairwise_append]
    refine ⟨htwice, List.pairwise_singleton _ _, fun x hx y hy => ?_⟩
    rw [List.mem_singleton.mp hy]
    rcases List.mem_append.mp hx with hx | hx
    · exact hnext.2.2 x hx _ List.mem_cons_self
    · rw [List.mem_singleton.mp hx]
      exact .refl _ _
  · intro tx htx
    unfold keys
    dsimp only
    rw [hrun, if_pos rfl]
    rcases hnew tx htx with hold | hnew
    · have hcase := h.taken tx hold
      rw [hrun, if_pos rfl] at hcase
      rcases hcase with hacc | hlost | hmem
      · exact .inl (haccepted hacc)
      · exact .inr (.inl hlost)
      · exact (hkept _ hmem).imp_right .inr
    · exact .inr (.inr hnew)
  · intro s hs t ht
    rw [← List.cons_append, List.mem_append, List.mem_singleton] at hs
    rcases hs with hs | rfl
    · obtain ⟨e, he, heq⟩ := h.texts s hs t ht
      exact ⟨e, he.mono htaken, heq⟩
    · obtain ⟨e, he, rfl⟩ := List.mem_map.mp ht
      exact ⟨e, hown e he, rfl⟩
  · rw [show w.running = false from hdown] at hrun
    cases hrun

theorem Inv.reloop (h : Inv w) {loops : List Loop} (htodo : ∀ l ∈ loops, ∀ e ∈ l.todo, Own w.taken e)
    (hrun : w.running = false → loops = []) : Inv { w with loops } := by
  refine ⟨h.chain, h.saved, h.taken, h.own, htodo, h.texts, fun hdown => ?_⟩
  have hrest := h.down hdown
  exact ⟨hrest.1, hrest.2.1, hrun hdown⟩

theorem Inv.broadcastPendingSweeps (h : Inv w) (hrun : w.running = true) : Inv w.broadcastPendingSweeps := by
  unfold Wallet.broadcastPendingSweeps
  split
  · exact h
  · refine h.reloop (fun l hl e he => ?_) fun hdown => ?_
    · rcases List.mem_append.mp hl with hl | hl
      · exact h.todo l hl e he
      · rw [List.mem_singleton.mp hl] at he
        exact h.own e he
    · rw [hdown] at hrun
      cases hrun

theorem Inv.handleSpendableOutputs (h : Inv w) (hrun : w.running = true) {built : Option (List UInt8)}
    (hbuilt : ∀ tx ∈ built, tx ≠ []) : Inv (w.handleSpendableOutputs built).1 := by
  unfold Wallet.handleSpendableOutputs
  split
  · exact ⟨h.chain, h.saved, h.taken, h.own, h.todo, h.texts, h.down⟩
  cases built with
  | none => exact h
  | some tx =>
    refine Inv.broadcastPendingSweeps ?_ hrun
    refine h.persist hrun (List.subset_append_left _ _) (List.Subset.refl _) (fun k hk => .inr ?_) (fun t ht => ?_)
      (fun e he => ?_) fun l hl e he => (h.todo l hl e he).mono (List.subset_append_left _ _)
    · exact (mem_keys_set _ _ k).mpr (.inr hk)
    · rcases List.mem_append.mp ht with ht | ht
      · exact .inl ht
      · rw [List.mem_singleton.mp ht]
        exact .inr ((mem_keys_set _ _ _).mpr (.inl rfl))
    · rcases mem_of_mem_set he with rfl | he
      · exact ⟨tx, List.mem_append_right _ List.mem_cons_self, hbuilt tx rfl, rfl⟩
      · exact (h.own e he).mono (List.subset_append_left _ _)

theorem Inv.next (h : Inv w) {i : Nat} {e : Sweep} {rest : List Sweep} {stage : Stage}
    (hloop : w.loops[i]? = some ⟨e :: rest, stage⟩) : Inv (w.next i rest) := by
  have hmem := List.mem_of_getElem? hloop
  unfold Wallet.next
  split
  · refine h.reloop (fun l hl => h.todo l ((List.eraseIdx_sublist _ _).subset hl)) fun hdown => ?_
    rw [(h.down hdown).2.2, List.eraseIdx_nil]
  · refine h.reloop (fun l hl x hx => ?_) fun hdown => ?_
    · rcases List.mem_or_eq_of_mem_set hl with hl | rfl
      · exact h.todo l hl x hx
      · exact h.todo _ hmem x (List.mem_cons_of_mem e hx)
    · rw [(h.down hdown).2.2] at hmem
      exact absurd hmem List.not_mem_nil

theorem running_of_loop (h : Inv w) {i : Nat} {l : Loop} (hloop : w.loops[i]? = some l) : w.running = true := by
  cases hrun : w.running with
  | true => rfl
  | false =>
    rw [(h.down hrun).2.2] at hloop
    cases hloop

theorem Inv.answered (h : Inv w) {i : Nat} {ok : Bool} {w' : Wallet} (hw : w.answered i ok = some w') : Inv w' := by
  unfold Wallet.answered at hw
  split at hw
  · rename_i e rest hloop
    split at hw
    · cases hw
      have hmem := List.mem_of_getElem? hloop
      refine h.persist (running_of_loop h hloop) (List.Subset.refl _) (List.subset_cons_self _ _) (fun k hk => ?_)
        (fun tx htx => .inl htx) (fun x hx => h.own x (List.mem_filter.mp hx).1) fun l hl x hx => ?_
      · obtain ⟨x, hx, rfl⟩ := List.mem_map.mp hk
        by_cases heq : x.key = e.key
        · exact .inl (heq ▸ List.mem_cons_self)
        · exact .inr (List.mem_map.mpr ⟨x, List.mem_filter.mpr ⟨hx, decide_eq_true heq⟩, rfl⟩)
      · rcases List.mem_or_eq_of_mem_set hl with hl | rfl
        · exact h.todo l hl x hx
        · exact h.todo _ hmem x hx
    · cases hw
      exact h.next hloop
  · cases hw

theorem Inv.recorded (h : Inv w) {i : Nat} {w' : Wallet} (hw : w.recorded i = some w') : Inv w' := by
  unfold Wallet.recorded at hw
  split at hw
  · rename_i e rest hloop
    cases hw
    exact h.next hloop
  · cases hw

theorem Inv.wrote (h : Inv w) {ok : Bool} {w' : Wallet} (hw : w.wrote ok = some w') : Inv w' := by
  have hchain := h.chain
  unfold snapshots at hchain
  unfold Wallet.wrote at hw
  split at hw
  · cases hw
  rename_i snapshot writes hwrites
  rw [hwrites] at hchain
  have hrun : w.running = true := by
    cases hrun : w.running with
    | true => rfl
    | false =>
      rw [(h.down hrun).2.1] at hwrites
      cases hwrites
  have htexts : ∀ s ∈ snapshot :: writes, ∀ k ∈ s, ∃ e, Own w.taken e ∧ k = e.key := fun s hs =>
    h.texts s (List.mem_cons_of_mem _ (hwrites ▸ hs))
  have hdown : ¬w.running = false := by
    rw [hrun]
    exact Bool.noConfusion
  have htaken := h.taken
  rw [hrun, if_pos rfl] at htaken
  rw [List.cons_append, List.cons_append] at hchain
  cases ok with
  | true =>
    cases hw
    have hnext := (List.pairwise_cons.mp hchain).1 snapshot List.mem_cons_self
    refine ⟨(List.pairwise_cons.mp hchain).2, fun k hk => ?_, fun tx htx => ?_, h.own, h.todo, htexts,
      fun hd => absurd hd hdown⟩
    · rcases List.mem_append.mp hk with hk | hk
      · exact .inr hk
      · exact (h.saved.trans hnext) k hk
    · show _ ∨ _ ∨ _ ∈ if w.running = true then _ else _
      rw [hrun, if_pos rfl]
      exact htaken tx htx
  | false =>
    cases hw
    refine ⟨hchain.sublist (List.Sublist.cons_cons _ (List.sublist_cons_self _ _)), h.saved, h.taken, h.own, h.todo,
      fun s hs => ?_, fun hd => absurd hd hdown⟩
    rcases List.mem_cons.mp hs with rfl | hs
    · exact h.texts _ List.mem_cons_self
    · exact htexts s (List.mem_cons_of_mem _ hs)

/-- All that went before is kept by the last. -/
theorem kept_last {accepted first : List Chars} {done : List (List Chars)}
    (h : (first :: done).Pairwise (Kept accepted)) :
    ∀ x ∈ first :: done, Kept accepted x (done.getLast?.getD first) := by
  intro x hx
  rcases List.eq_nil_or_concat done with rfl | ⟨front, last, rfl⟩
  · rw [List.mem_singleton.mp hx]
    exact .refl _ _
  · rw [List.concat_eq_append] at h hx ⊢
    rw [List.getLast?_concat, Option.getD_some]
    rw [← List.cons_append, List.mem_append] at hx
    rw [← List.cons_append, List.pairwise_append] at h
    rcases hx with hx | hx
    · exact h.2.2 x hx last List.mem_cons_self
    · rw [List.mem_singleton.mp hx]
      exact .refl _ _

theorem Inv.crash (h : Inv w) (n : Nat) : Inv (w.crash n) := by
  have hchain := h.chain
  unfold snapshots at hchain
  have hdone : (w.disk :: w.writes.take n).Pairwise (Kept w.accepted) :=
    (List.pairwise_append.mp hchain).1.sublist (List.Sublist.cons_cons _ (List.take_sublist _ _))
  have hlast := kept_last hdone
  have hmem : (w.writes.take n).getLast?.getD w.disk ∈ w.disk :: w.writes := by
    cases hl : (w.writes.take n).getLast? with
    | none => exact List.mem_cons_self
    | some s => exact List.mem_cons_of_mem _ (List.mem_of_mem_take (List.mem_of_getLast? hl))
  refine ⟨List.pairwise_singleton _ _, fun k hk => ?_, fun tx htx => ?_, fun e he => absurd he List.not_mem_nil,
    fun l hl => absurd hl List.not_mem_nil, fun s hs k hk => ?_, fun _ => ⟨rfl, rfl, rfl⟩⟩
  · rcases List.mem_append.mp hk with hk | hk
    · obtain ⟨s, hs, hk⟩ := List.mem_flatten.mp hk
      exact hlast s (List.mem_cons_of_mem _ hs) k hk
    · exact (h.saved.trans (hlast _ List.mem_cons_self)) k hk
  · show _ ∨ _ ∈ w.lost ++ w.keys.filter _ ∨ _ ∈ (w.writes.take n).getLast?.getD w.disk
    by_cases hon : bytesToHex tx ∈ (w.writes.take n).getLast?.getD w.disk
    · exact .inr (.inr hon)
    rcases h.taken tx htx with hacc | hlost | hin
    · exact .inl hacc
    · exact .inr (.inl (List.mem_append_left _ hlost))
    · split at hin
      · have hgone : (!((w.writes.take n).getLast?.getD w.disk).contains (bytesToHex tx)) = true := by
          rw [Bool.not_eq_true', List.contains_eq_mem]
          exact decide_eq_false hon
        exact .inr (.inl (List.mem_append_right _ (List.mem_filter.mpr ⟨hin, hgone⟩)))
      · exact (hlast _ List.mem_cons_self _ hin).imp_right .inr
  · rw [List.mem_singleton.mp hs] at hk
    exact h.texts _ hmem k hk

/-- What the wallet stored of a transaction is loaded as it was. -/
theorem loads_key {e : Sweep} {taken : List (List UInt8)} (h : Own taken e) :
    loads e.key = true ∧ (⟨e.key, hexToBytes e.key⟩ : Sweep) = e := by
  obtain ⟨tx, -, hne, rfl⟩ := h
  obtain ⟨hlen, hhex⟩ := bytesToHex_digits tx
  have hpos := List.length_pos_iff.mpr hne
  have hzero : (bytesToHex tx).length ≠ 0 := by omega
  have heven : (bytesToHex tx).length % 2 = 0 := by omega
  refine ⟨?_, ?_⟩
  · unfold loads
    rw [decide_eq_true hzero, decide_eq_true heven, hhex]
    rfl
  · dsimp only
    rw [hexToBytes_bytesToHex]

theorem foldl_set (hs : List Chars) (l : List Sweep) :
    (∀ k, k ∈ (hs.foldl (fun l h => Wallet.set ⟨h, hexToBytes h⟩ l) l).map (·.key) ↔
      k ∈ hs ∨ k ∈ l.map (·.key)) ∧
    ∀ e ∈ hs.foldl (fun l h => Wallet.set ⟨h, hexToBytes h⟩ l) l,
      e ∈ l ∨ ∃ h ∈ hs, e = ⟨h, hexToBytes h⟩ := by
  induction hs generalizing l with
  | nil => exact ⟨fun k => (or_iff_right List.not_mem_nil).symm, fun e he => .inl he⟩
  | cons h hs ih =>
    obtain ⟨hkeys, hmem⟩ := ih (Wallet.set ⟨h, hexToBytes h⟩ l)
    refine ⟨fun k => ?_, fun e he => ?_⟩
    · rw [List.foldl_cons, hkeys, mem_keys_set, List.mem_cons, or_left_comm, or_assoc]
    · rcases hmem e he with he | ⟨h', hh', rfl⟩
      · rcases mem_of_mem_set he with rfl | he
        · exact .inr ⟨h, List.mem_cons_self, rfl⟩
        · exact .inl he
      · exact .inr ⟨h', List.mem_cons_of_mem _ hh', rfl⟩

theorem Inv.loadPendingSweeps (h : Inv w) : Inv w.loadPendingSweeps := by
  have hchain := h.chain
  unfold snapshots at hchain
  obtain ⟨hkeys, hmem⟩ := foldl_set (w.disk.filter loads) w.pendingSweeps
  have hdisk : Kept w.accepted w.disk w.loadPendingSweeps.keys := by
    intro k hk
    obtain ⟨e, he, rfl⟩ := h.texts _ List.mem_cons_self k hk
    exact .inr ((hkeys _).mpr (.inl (List.mem_filter.mpr ⟨hk, (loads_key he).1⟩)))
  have hold : Kept w.accepted w.keys w.loadPendingSweeps.keys := fun k hk => .inr ((hkeys k).mpr (.inr hk))
  refine ⟨?_, h.saved, fun tx htx => ?_, fun e he => ?_, h.todo, h.texts, fun hdown => Bool.noConfusion hdown⟩
  · show ((w.disk :: w.writes) ++ [w.loadPendingSweeps.keys]).Pairwise _
    cases hrun : w.running with
    | true =>
      rw [hrun, if_pos rfl] at hchain
      exact chain_snoc hchain hold
    | false =>
      rw [(h.down hrun).2.1]
      exact List.pairwise_pair.mpr hdisk
  · show _ ∨ _ ∨ _ ∈ w.loadPendingSweeps.keys
    rcases h.taken tx htx with hacc | hlost | hin
    · exact .inl hacc
    · exact .inr (.inl hlost)
    · split at hin
      · exact (hold _ hin).imp_right .inr
      · exact (hdisk _ hin).imp_right .inr
  · rcases hmem e he with he | ⟨k, hk, rfl⟩
    · exact h.own e he
    · obtain ⟨e, hown, rfl⟩ := h.texts _ List.mem_cons_self k (List.mem_filter.mp hk).1
      rw [(loads_key hown).2]
      exact hown

end Wallet

open Wallet in
theorem Wallet.Inv.step {a : Action} {w w' : Wallet} (h : w.Inv) (hsound : sound a w = true)
    (hw : Sweeps.step a w = some w') : w'.Inv := by
  cases a with
  | spendableOutputs built =>
    unfold Sweeps.step at hw
    dsimp only at hw
    split at hw
    · rename_i hrun
      cases hw
      refine h.handleSpendableOutputs hrun fun tx htx => ?_
      cases htx
      exact of_decide_eq_true hsound
    · cases hw
  | syncTick =>
    unfold Sweeps.step at hw
    dsimp only at hw
    split at hw
    · rename_i hrun
      cases hw
      exact h.broadcastPendingSweeps hrun
    · cases hw
  | answered i ok => exact h.answered hw
  | recorded i => exact h.recorded hw
  | wrote ok => exact h.wrote hw
  | setSweepDestination set =>
    cases hw
    exact ⟨h.chain, h.saved, h.taken, h.own, h.todo, h.texts, h.down⟩
  | crash n =>
    cases hw
    exact h.crash n
  | start ok =>
    cases hw
    cases ok with
    | true => exact h.loadPendingSweeps
    | false =>
      have hrun : w.running = true := hsound
      have hsame : { w with running := true } = w := by rw [← hrun]
      show Wallet.Inv { w with running := true }
      rwa [hsame]

/-- What the wallet took over to sweep is in its queue or stored until the node has accepted it, unless a
crash came before the first write of it was done; once that is done no crash loses it.  What is offered
to the node are the bytes that were signed. -/
theorem sweeps_kept (w : Wallet) (hrun : Steps step (fun a w => sound a w = true) {} w) :
    (∀ tx ∈ w.taken, bytesToHex tx ∈ w.accepted ∨ bytesToHex tx ∈ w.lost ∨
      bytesToHex tx ∈ if w.running then w.keys else w.disk) ∧
    (∀ h ∈ w.saved, h ∈ w.accepted ∨ h ∈ w.disk) ∧
    (∀ h ∈ w.disk, w.running = true → h ∈ w.accepted ∨ h ∈ w.keys) ∧
    ∀ e ∈ w.pendingSweeps, e.txBytes ∈ w.taken ∧ e.key = bytesToHex e.txBytes := by
  have h : w.Inv := by
    refine hrun.invariant (I := Wallet.Inv) ?_ fun a t t' ht hP hs => Wallet.Inv.step ht hP hs
    exact ⟨List.pairwise_singleton _ _, fun h hh => absurd hh List.not_mem_nil,
      fun tx htx => absurd htx List.not_mem_nil, fun e he => absurd he List.not_mem_nil,
      fun l hl => absurd hl List.not_mem_nil,
      fun s hs h hh => absurd ((List.mem_singleton.mp hs) ▸ hh) List.not_mem_nil, fun _ => ⟨rfl, rfl, rfl⟩⟩
  refine ⟨h.taken, h.saved, fun k hk hr => ?_, fun e he => ?_⟩
  · have hchain := h.chain
    unfold Wallet.snapshots at hchain
    rw [hr, if_pos rfl, List.pairwise_append] at hchain
    exact hchain.2.2 w.disk List.mem_cons_self w.keys List.mem_cons_self k hk
  · obtain ⟨tx, htx, -, rfl⟩ := h.own e he
    exact ⟨htx, rfl⟩

/-- The first broadcast fails, the process ends, and the next one takes the sweep up again. -/
def strandedThenRetried : List Action :=
  [.start true, .setSweepDestination true, .spendableOutputs (some [0xab, 0xcd]), .answered 0 false, .wrote true,
    .crash 0, .start true, .syncTick]

/-- The queue of the second process holds the bytes that the first one signed. -/
theorem sweeps_kept_run : ∃ w : Wallet, ∃ e ∈ w.pendingSweeps,
    e.key = bytesToHex e.txBytes ∧ e.txBytes ∈ w.taken ∧ w.taken = [[0xab, 0xcd]] ∧ w.lost = [] := by
  obtain ⟨w, hrun, hw⟩ := Steps.exists_of_play step sound {} strandedThenRetried
    (fun w => decide (w.taken = [[0xab, 0xcd]] ∧ w.lost = []) && w.pendingSweeps.length = 1) (by decide +kernel)
  rw [Bool.and_eq_true, decide_eq_true_eq, decide_eq_true_eq] at hw
  obtain ⟨e, he⟩ := List.length_eq_one_iff.mp hw.2
  have hmem : e ∈ w.pendingSweeps := he ▸ List.mem_cons_self
  obtain ⟨htaken, hkey⟩ := (sweeps_kept w hrun).2.2.2 e hmem
  exact ⟨w, e, hmem, hkey, htaken, hw.1.1, hw.1.2⟩

end LibreWallet.Persist.Sweeps
