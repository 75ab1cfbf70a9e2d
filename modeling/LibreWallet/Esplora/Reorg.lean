import LibreWallet.Esplora.Client

/-
  Esplora/Reorg.lean --- a sync on a chain that left the one synced before.

  The client stands on a block of the first chain and syncs against the second.  It keeps
  one local hash, that of its best block: a mismatch there costs it one block, and below
  that the server is compared with itself.
-/

set_option autoImplicit false

namespace LibreWallet.Esplora

open Async

/-- Two chains share their blocks up to height `a`, and none above. -/
structure Diverge (c₁ c₂ : Chain) (a : Nat) : Prop where
  length : a < c₂.length
  shared : ∀ h, h ≤ a → c₁[h]? = c₂[h]?
  apart : ∀ h b₁ b₂, a < h → c₁[h]? = some b₁ → c₂[h]? = some b₂ → b₁.hash ≠ b₂.hash

/-- One sync, on a chain that stays: at its catch-up, the spends of the outputs in `Q` at or
below the best block are delivered or watched. -/
def oneSync (Q : Outpoint → Prop) (a : Action) (s : State) : Prop :=
  match a with
  | .grow _ | .rest => False
  | .catchUp relevant => CaughtUp Q relevant s
  | _ => True

/-- The rollback point is on both chains, and of what was watched or registered in `s`,
everything confirmed up to the height reached has been delivered for its block. -/
def Handled (a : Nat) (s s' : State) : Prop :=
  (∀ r, s'.rolledBack = some r → r ≤ a) ∧
    ∀ b ∈ s'.chain.take (s'.bestHeight + 1), ∀ tx ∈ b.txs,
      (tx.txid ∈ s.registeredTxs ∨ ∃ o ∈ s.registeredOutputs, o ∈ tx.spends) →
        (tx.txid, b.hash) ∈ s'.delivered

/-- The reorganization check of this sync is still to come. -/
def Stage.early : Stage → Bool
  | .idle | .started _ => true
  | _ => false

variable {c₁ c₂ : Chain} {a : Nat} {s t t' : State}

/-- Where the sync from `s` stands. -/
structure Resync (c₂ : Chain) (a : Nat) (s t : State) : Prop where
  chain : t.chain = c₂
  txs : ∀ x ∈ s.registeredTxs, x ∈ t.registeredTxs
  outputs : ∀ o ∈ s.registeredOutputs, o ∈ t.registeredOutputs
  early : t.stage.early = true → t.bestHeight = s.bestHeight ∧ t.bestHash = s.bestHash ∧
    (t.stage ≠ .idle → t.rolledBack = none)
  late : t.stage.early = false →
    Inv (· ∈ s.registeredOutputs) (· ∈ s.registeredTxs) t ∧
      ((t.rolledBack = none ∧ s.bestHeight ≤ a) ∨
        (t.rolledBack = some (s.bestHeight - 1) ∧ a < s.bestHeight))

/-- The reorganization check finds the fork, or goes back one block. -/
theorem Resync.reorgCheck (h : Resync c₂ a s t) (hdiv : Diverge c₁ c₂ a) (hv : Valid c₂)
    (hbest : fetchBlockHash c₁ s.bestHeight = some s.bestHash) {tip : Nat} {relevant : List Nat}
    (hst : t.stage = .started tip) (hs : reorgCheck relevant tip t = some t') :
    Resync c₂ a s t' := by
  obtain ⟨hheight, hhash, hnone⟩ := h.early (by rw [hst]; rfl)
  have hnone := hnone (by rw [hst]; nofun)
  obtain ⟨b₁, hb₁, hb₁h⟩ := Option.map_eq_some_iff.mp hbest
  obtain ⟨m, hm, hs⟩ := Option.bind_eq_some_iff.mp hs
  -- the walk stops at the best block if it is shared, and one below otherwise
  have hwalk : (m = s.bestHeight ∧ s.bestHeight ≤ a) ∨ (m + 1 = s.bestHeight ∧ a < s.bestHeight) := by
    unfold State.commonAncestor at hm
    rw [hheight, hhash, h.chain] at hm
    split at hm
    · rename_i hpos
      rcases walkBack_eq hm with ⟨rfl, hsame⟩ | ⟨hlt, remote, hr, hne⟩
      · refine .inl ⟨rfl, Nat.le_of_not_lt fun hlt => ?_⟩
        obtain ⟨b₂, hb₂, hb₂h⟩ := Option.map_eq_some_iff.mp (hsame hpos)
        exact hdiv.apart _ b₁ b₂ hlt hb₁ hb₂ (hb₁h.trans hb₂h.symm)
      · refine .inr ⟨hlt, Nat.lt_of_not_le fun hle => hne ?_⟩
        rw [fetchBlockHash, ← hdiv.shared _ hle] at hr
        rw [fetchBlockHash, hr] at hbest
        exact Option.some.inj hbest
    · cases hm
      exact .inl ⟨rfl, by omega⟩
  have hlength : m < c₂.length := by
    rcases hwalk with ⟨rfl, hle⟩ | ⟨hlt, -⟩
    · exact Nat.lt_of_le_of_lt hle hdiv.length
    · unfold State.commonAncestor at hm
      rw [hheight, hhash, h.chain, if_pos (by omega)] at hm
      rw [← hlt] at hm
      obtain ⟨remote, hr, -⟩ := Option.bind_eq_some_iff.mp hm
      obtain ⟨b, hb, -⟩ := Option.map_eq_some_iff.mp hr
      have := (List.getElem?_eq_some_iff.mp hb).1
      omega
  split at hs
  · rename_i hlt
    obtain ⟨hash, -, rfl⟩ := Option.map_eq_some_iff.mp hs
    refine ⟨h.chain, h.txs, h.outputs, nofun, fun _ => ⟨⟨?_, ?_, h.txs, trivial⟩, ?_⟩⟩
    · exact (h.chain ▸ hv : Valid t.chain)
    · exact (h.chain ▸ hlength : m < t.chain.length)
    · rcases hwalk with ⟨rfl, -⟩ | ⟨heq, ha⟩
      · omega
      · exact .inr ⟨by simp only; rw [← heq]; rfl, ha⟩
  · rename_i hge
    cases hs
    refine ⟨h.chain, h.txs, h.outputs, nofun, fun _ => ⟨⟨?_, ?_, h.txs, trivial⟩, ?_⟩⟩
    · exact (h.chain ▸ hv : Valid t.chain)
    · rcases hwalk with ⟨rfl, -⟩ | ⟨heq, -⟩
      · exact (h.chain ▸ hheight ▸ hlength : t.bestHeight < t.chain.length)
      · omega
    · rcases hwalk with ⟨-, hle⟩ | ⟨heq, -⟩
      · exact .inl ⟨hnone, hle⟩
      · omega

/-- Asking for an output moves the loop and nothing else. -/
theorem spendInfo_eq (batchEnd n i : Nat) (active : List Nat) (t : State) :
    ∃ stage : Stage, stage.early = false ∧ spendInfo batchEnd n i active t = { t with stage } := by
  unfold spendInfo
  split
  · split
    · split
      · exact ⟨_, rfl, rfl⟩
      · exact ⟨_, rfl, rfl⟩
    · exact ⟨_, rfl, rfl⟩
  · exact ⟨_, rfl, rfl⟩

/-- A step after the reorganization check. -/
theorem Resync.goOn (h : Resync c₂ a s t) (hst : t.stage.early = false) (hst' : t'.stage.early = false)
    (hchain : t'.chain = t.chain) (htxs : t'.registeredTxs = t.registeredTxs)
    (houtputs : t'.registeredOutputs = t.registeredOutputs) (hback : t'.rolledBack = t.rolledBack)
    (hinv : Inv (· ∈ s.registeredOutputs) (· ∈ s.registeredTxs) t') : Resync c₂ a s t' where
  chain := hchain.trans h.chain
  txs := by rw [htxs]; exact h.txs
  outputs := by rw [houtputs]; exact h.outputs
  early := by
    intro he
    rw [hst'] at he
    cases he
  late := fun _ => ⟨hinv, by rw [hback]; exact (h.late hst).2⟩

theorem Resync.step {act : Action} (h : Resync c₂ a s t) (hdiv : Diverge c₁ c₂ a) (hv : Valid c₂)
    (hbest : fetchBlockHash c₁ s.bestHeight = some s.bestHash)
    (hq : oneSync (· ∈ s.registeredOutputs) act t) (hs : step act t = some t') :
    Resync c₂ a s t' := by
  have hs₀ := hs
  cases act with
  | grow b => exact hq.elim
  | rest => exact hq.elim
  | registerTx txid =>
    simp only [Esplora.step] at hs
    split at hs
    · cases hs
    · split at hs
      · cases hs
        exact h
      · cases hs
        exact ⟨h.chain, fun x hx => List.mem_append_left _ (h.txs x hx), h.outputs, h.early,
          fun hl => ⟨(h.late hl).1.registerTx txid, (h.late hl).2⟩⟩
  | registerOutput o =>
    simp only [Esplora.step] at hs
    split at hs
    · cases hs
    · rename_i hover
      split at hs
      · cases hs
        exact h
      · rename_i hnew
        cases hs
        refine ⟨h.chain, h.txs, fun x hx => List.mem_append_left _ (h.outputs x hx), h.early,
          fun hl => ⟨(h.late hl).1.registerOutput o hover fun hmem => ?_, (h.late hl).2⟩⟩
        exact absurd (h.outputs o hmem) hnew
  | sync =>
    simp only [Esplora.step] at hs
    split at hs
    · rename_i hst
      cases hs
      obtain ⟨hheight, hhash, -⟩ := h.early (by rw [hst]; rfl)
      exact ⟨h.chain, h.txs, h.outputs, fun _ => ⟨hheight, hhash, fun _ => rfl⟩, fun hl => by cases hl⟩
    · cases hs
  | reorgCheck relevant =>
    simp only [Esplora.step] at hs
    split at hs
    · rename_i hst
      exact h.reorgCheck hdiv hv hbest hst hs
    · cases hs
  | catchUp relevant =>
    simp only [Esplora.step] at hs
    split at hs
    · rename_i tip hst
      cases hs
      have hl : t.stage.early = false := by rw [hst]; rfl
      exact h.goOn hl rfl rfl rfl rfl rfl ((h.late hl).1.catchUp tip hq)
    · cases hs
  | block relevant =>
    simp only [Esplora.step] at hs
    split at hs
    · rename_i hst
      have hl : t.stage.early = false := by rw [hst]; rfl
      have hinv := (h.late hl).1.block relevant hst hs₀
      split at hs
      · obtain ⟨hash, -, rfl⟩ := Option.map_eq_some_iff.mp hs
        exact h.goOn hl rfl rfl rfl rfl rfl hinv
      · cases hs
        exact h.goOn hl rfl rfl rfl rfl rfl hinv
    · cases hs
  | spendInfo =>
    simp only [Esplora.step] at hs
    split at hs
    · rename_i hst
      cases hs
      have hl : t.stage.early = false := by rw [hst]; rfl
      have hinv := (h.late hl).1.spendInfo hst
      obtain ⟨stage, he, heq⟩ := spendInfo_eq _ _ _ _ t
      rw [heq] at hinv ⊢
      exact h.goOn hl he rfl rfl rfl rfl hinv
    · cases hs
  | confirm =>
    simp only [Esplora.step] at hs
    split at hs
    · rename_i hst
      have hl : t.stage.early = false := by rw [hst]; rfl
      have hinv := (h.late hl).1.confirm hst hs
      obtain ⟨hash, -, rfl⟩ := Option.map_eq_some_iff.mp hs
      exact h.goOn hl rfl rfl rfl rfl rfl hinv
    · cases hs

/-- In every such sync, the reorganization is handled if and only if the client stood at most
one block above the fork. -/
theorem handled_iff_depth (c₁ c₂ : Chain) (a : Nat) (hdiv : Diverge c₁ c₂ a) (hv : Valid c₂)
    (s s' : State) (hidle : s.stage = .idle) (hchain : s.chain = c₂)
    (hbest : fetchBlockHash c₁ s.bestHeight = some s.bestHash)
    (hrun : Steps step (oneSync (· ∈ s.registeredOutputs)) s s') (hover : s'.stage = .finished) :
    Handled a s s' ↔ s.bestHeight ≤ a + 1 := by
  have h₀ : Resync c₂ a s s := by
    refine ⟨hchain, fun _ hx => hx, fun _ hx => hx, fun _ => ⟨rfl, rfl, fun hne => ?_⟩, fun hl => ?_⟩
    · exact absurd hidle hne
    · rw [hidle] at hl
      cases hl
  have h : Resync c₂ a s s' :=
    hrun.invariant (I := Resync c₂ a s) h₀ fun _ _ _ ht hP hs => ht.step hdiv hv hbest hP hs
  obtain ⟨hinv, hback⟩ := h.late (by rw [hover]; rfl)
  have hp := hinv.progress
  simp only [Progress, hover] at hp
  constructor
  · rintro ⟨hle, -⟩
    rcases hback with ⟨-, hshared⟩ | ⟨hback, -⟩
    · omega
    · have := hle _ hback
      omega
  · intro hdepth
    refine ⟨fun r hr => ?_, fun b hb tx htx hx => ?_⟩
    · rcases hback with ⟨hnone, -⟩ | ⟨hback, -⟩
      · rw [hnone] at hr
        cases hr
      · rw [hback] at hr
        cases hr
        omega
    · rcases hx with hw | ⟨o, ho, hsp⟩
      · exact hp.2 b hb tx htx hw
      · exact hp.1 o (h.outputs o ho) ho b hb tx htx hsp

/-! ## Depth one and depth two -/

/-- The block at height 1 is on both chains, and spends an output. -/
def forked (hash₂ hash₃ : Nat) : Chain := [⟨100, []⟩, ⟨101, [⟨1, [(7, 0)]⟩]⟩, ⟨hash₂, []⟩, ⟨hash₃, []⟩]

/-- The fork is one block below the best one. -/
theorem handled_iff_depth_one : ∃ s s', Steps step (oneSync (· ∈ s.registeredOutputs)) s s' ∧
    s'.rolledBack = some 1 ∧ Handled 1 s s' := by
  let s : State := {
    chain := forked 202 203, bestHeight := 2, bestHash := 102, registeredTxs := [5]
    registeredOutputs := [(7, 0)], delivered := [(1, 101)] }
  obtain ⟨s', hrun, hs⟩ := Steps.exists_of_play step
    (fun b t => match b with
      | .grow _ | .rest => false
      | .catchUp relevant => decide (CaughtUp (· ∈ s.registeredOutputs) relevant t)
      | _ => true) s
    [.sync, .reorgCheck [1], .catchUp [], .block [], .spendInfo, .spendInfo, .confirm, .block [],
      .spendInfo, .spendInfo, .confirm, .block []]
    (fun s' => s'.stage = .finished ∧ s'.rolledBack = some 1) (by decide +kernel)
  simp only [decide_eq_true_eq] at hs
  have hrun' : Steps step (oneSync (· ∈ s.registeredOutputs)) s s' := by
    refine hrun.mono fun b t h => ?_
    cases b with
    | grow b => cases h
    | rest => cases h
    | catchUp relevant => exact (of_decide_eq_true h : CaughtUp _ relevant t)
    | _ => trivial
  have hdiv : Diverge [⟨100, []⟩, ⟨101, [⟨1, [(7, 0)]⟩]⟩, ⟨102, []⟩] (forked 202 203) 1 := by
    refine ⟨by decide, fun h hle => ?_, fun h b₁ b₂ hlt hb₁ hb₂ => ?_⟩
    · have : h = 0 ∨ h = 1 := by omega
      rcases this with rfl | rfl <;> rfl
    · have hlen := (List.getElem?_eq_some_iff.mp hb₁).1
      simp only [List.length_cons, List.length_nil] at hlen
      have : h = 2 := by omega
      subst this
      cases hb₁
      cases hb₂
      decide
  exact ⟨s, s', hrun', hs.2, (handled_iff_depth _ _ 1 hdiv (by decide) s s' rfl rfl rfl hrun' hs.1).mpr
    (by decide)⟩

/-- The fork is two blocks below: the rollback point is a block of the second chain only. -/
theorem not_handled_depth_two : ∃ (c₁ c₂ : Chain) (s s' : State), Diverge c₁ c₂ 1 ∧ Valid c₂ ∧
    s.stage = .idle ∧ s.chain = c₂ ∧ fetchBlockHash c₁ s.bestHeight = some s.bestHash ∧
    Steps step (oneSync (· ∈ s.registeredOutputs)) s s' ∧ s'.stage = .finished ∧ ¬ Handled 1 s s' := by
  let s : State := { chain := forked 202 203, bestHeight := 3, bestHash := 103 }
  obtain ⟨s', hrun, hs⟩ := Steps.exists_of_play step
    (fun b t => match b with
      | .grow _ | .rest => false
      | .catchUp relevant => decide (CaughtUp (· ∈ s.registeredOutputs) relevant t)
      | _ => true) s
    [.sync, .reorgCheck [], .catchUp [], .block [], .spendInfo, .confirm, .block []]
    (fun s' => s'.stage = .finished ∧ s'.rolledBack = some 2) (by decide +kernel)
  simp only [decide_eq_true_eq] at hs
  refine ⟨[⟨100, []⟩, ⟨101, [⟨1, [(7, 0)]⟩]⟩, ⟨102, []⟩, ⟨103, []⟩], forked 202 203, s, s', ?_,
    by decide, rfl, rfl, rfl, hrun.mono fun b t h => ?_, hs.1, fun hh => ?_⟩
  · refine ⟨by decide, fun h hle => ?_, fun h b₁ b₂ hlt hb₁ hb₂ => ?_⟩
    · have : h = 0 ∨ h = 1 := by omega
      rcases this with rfl | rfl <;> rfl
    · have hlen := (List.getElem?_eq_some_iff.mp hb₁).1
      simp only [List.length_cons, List.length_nil] at hlen
      have : h = 2 ∨ h = 3 := by omega
      rcases this with rfl | rfl <;> (cases hb₁; cases hb₂; decide)
  · cases b with
    | grow b => cases h
    | rest => cases h
    | catchUp relevant => exact (of_decide_eq_true h : CaughtUp _ relevant t)
    | _ => trivial
  · exact absurd (hh.1 2 hs.2) (by decide)

end LibreWallet.Esplora
