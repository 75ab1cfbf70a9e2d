import LibreWallet.Controller.WalletController

/-
  Controller/Freshness.lean --- which state a start runs on.

  A start weighs three versions: the local one, the mirror's and the backup's.  It
  never runs behind a backup that its own seed decrypts.  It can run behind the
  mirror, where such a backup lies between the local version and the mirror.  While the
  SDK's start runs, its event loop may change the state and the mirror follows it, also
  where the start then fails.
-/

set_option autoImplicit false

namespace LibreWallet.Controller

/-! ## The SDK's start, step by step -/

/-- What happens to the origin's storage while `LibreListenerWallet.start` runs. -/
inductive StartEvent where
  /-- The event tick stores the channel manager. -/
  | managerStored
  /-- `notifyStateChanged`: the counter goes up and is stored. -/
  | stateChanged
  /-- The listener of `buildWallet` runs. -/
  | listened
  deriving DecidableEq, Repr

/-- `recordStateVersionMirror` -/
def recordStateVersionMirror (s : OriginStore) : OriginStore :=
  { s with mirror := nextMirrorValue s.db.stateVersion s.mirror }

/-- The listener of `onStateChanged`: over a channel manager the created-new marker is cleared, and
the mirror follows the counter. -/
def onStateChanged (s : OriginStore) : OriginStore :=
  recordStateVersionMirror
    { s with db := { s.db with createdNew := s.db.createdNew && !s.db.channelManager } }

def StartEvent.apply (s : OriginStore) : StartEvent → OriginStore
  | .managerStored => { s with db := { s.db with channelManager := true } }
  | .stateChanged => { s with db := { s.db with stateVersion := s.db.stateVersion + 1 } }
  | .listened => onStateChanged s

/-- `LibreListenerWallet.start`: it takes the single-node lock, stores a seed where there is none
yet, and arms its loops; then it comes up, or something fails (`failure`), such as the start of
Nostr Wallet Connect, its last step.  A listener may also run after that. -/
def sdkStart (token : String) (events : List StartEvent) (failure : Option String) : SdkStart := fun s =>
  if s.runLock.any (· ≠ token) then (.error NODE_ALREADY_RUNNING_MSG, s)
  else
    let seeded := { s with
      runLock := some token
      db := { s.db with seed := s.db.seed.orElse fun _ => some token } }
    let s := events.foldl StartEvent.apply seeded
    match failure with
    | none => (.ok (), { s with db := { s.db with channelManager := true } })
    -- the lock is freed
    | some e => (.error e, { s with runLock := none })

/-! ## The vocabulary -/

/-- The fetched backup decrypts with the local seed, and is at version `v`. -/
def Readable (fetched : Option Envelope) (db : LocalDb) (v : Nat) : Prop :=
  ∃ envelope, fetched = some envelope ∧ db.seed = some envelope.seedHex ∧ envelope.stateVersion = v

/-- A backup that is newer than the local state and older than the mirror. -/
def Between (fetched : Option Envelope) (n : Node) (v : Nat) : Prop :=
  Readable fetched n.store.db v ∧ n.store.db.stateVersion < v ∧ v < n.store.mirror

/-- The state `n'` that a start from `n` runs on is behind no version that it knows, but for a
mirror ahead of a newer backup: then it is that backup's, but for what the start itself changed. -/
structure RunsFresh (events : List StartEvent) (fetched : Option Envelope) (n n' : Node) : Prop where
  running : n'.wallet = .running
  backup : ∀ v, Readable fetched n.store.db v → v ≤ n'.store.db.stateVersion
  mirror : n.store.mirror ≤ n'.store.db.stateVersion ∨
    ∃ v, Between fetched n v ∧ n'.store.db.stateVersion = v + events.count .stateChanged

/-- The mirror after a start that is refused: it is left, unless the SDK's start has begun and its
listener has run, which raises it no further than to the version that is then stored, or a newer
backup has been imported, which resets it before. -/
inductive KeepsMirror (events : List StartEvent) (fetched : Option Envelope) (n n' : Node) : Prop where
  | kept : n'.store.mirror = n.store.mirror → KeepsMirror events fetched n n'
  | raised : StartEvent.listened ∈ events → n.store.mirror ≤ n'.store.mirror →
      n'.store.mirror ≤ n'.store.db.stateVersion → KeepsMirror events fetched n n'
  | imported (v : Nat) : Readable fetched n.store.db v → n.store.db.stateVersion < v →
      v ≤ n'.store.db.stateVersion → n'.store.mirror ≤ n'.store.db.stateVersion →
      KeepsMirror events fetched n n'

/-- What a start comes to. -/
def StartOutcome (events : List StartEvent) (fetched : Option Envelope) (n : Node) :
    Except String Unit × Node → Prop
  | (.ok _, n') => RunsFresh events fetched n n'
  | (.error _, n') => KeepsMirror events fetched n n'

/-! ## The start -/

/-- What a start of the SDK does with the two counters of `s`. -/
structure Counts (events : List StartEvent) (s s' : OriginStore) : Prop where
  version : s'.db.stateVersion = s.db.stateVersion + events.count .stateChanged
  raises : s.mirror ≤ s'.mirror
  bounded : s'.mirror ≤ max s.mirror s'.db.stateVersion
  silent : StartEvent.listened ∉ events → s'.mirror = s.mirror

theorem counts_foldl (events : List StartEvent) (s : OriginStore) :
    Counts events s (events.foldl StartEvent.apply s) := by
  induction events generalizing s with
  | nil => exact ⟨rfl, Nat.le_refl _, Nat.le_max_left _ _, fun _ => rfl⟩
  | cons e events ih =>
    have h := ih (StartEvent.apply s e)
    have hraises := h.raises
    have hbounded := h.bounded
    have hversion := h.version
    rw [List.foldl_cons]
    cases e with
    | managerStored => exact ⟨hversion, hraises, hbounded, fun hn => h.silent (List.not_mem_of_not_mem_cons hn)⟩
    | stateChanged =>
      refine ⟨?_, hraises, hbounded, fun hn => h.silent (List.not_mem_of_not_mem_cons hn)⟩
      rw [hversion, List.count_cons_self]
      simp only [StartEvent.apply]
      omega
    | listened =>
      simp only [StartEvent.apply, onStateChanged, recordStateVersionMirror, nextMirrorValue]
        at hraises hbounded hversion ⊢
      exact ⟨hversion, by omega, by omega, fun hn => absurd (List.mem_cons_self ..) hn⟩

/-- The lock is another's, or the events happen. -/
theorem sdkStart_cases (token : String) (events : List StartEvent) (failure : Option String)
    (s : OriginStore) :
    sdkStart token events failure s = (.error NODE_ALREADY_RUNNING_MSG, s) ∨
      Counts events s (sdkStart token events failure s).2 := by
  unfold sdkStart
  split
  · exact .inl rfl
  · right
    have h := counts_foldl events { s with
      runLock := some token, db := { s.db with seed := s.db.seed.orElse fun _ => some token } }
    cases failure with
    | none => exact ⟨h.version, h.raises, h.bounded, h.silent⟩
    | some e => exact ⟨h.version, h.raises, h.bounded, h.silent⟩

section

variable {token secret : String} {events : List StartEvent} {failure : Option String} {n n' : Node}
  {envelope : Envelope} {fetched : Option Envelope} {r : Except String Unit}

/-- A restore that succeeds runs on the backup's version, advanced by the start; one that does not
has changed nothing, or has imported the backup. -/
theorem restoreWallet_cases
    (h : restoreWallet (sdkStart token events failure) n envelope secret = (r, n')) :
    (r = .ok () ∧ n'.wallet = .running ∧
        n'.store.db.stateVersion = envelope.stateVersion + events.count .stateChanged) ∨
      (∃ e, r = .error e ∧ n' = n) ∨
      ∃ e, r = .error e ∧ envelope.stateVersion ≤ n'.store.db.stateVersion ∧
        n'.store.mirror ≤ n'.store.db.stateVersion := by
  simp only [restoreWallet] at h
  split at h
  · cases h
    exact .inr (.inl ⟨_, rfl, rfl⟩)
  split at h
  · split at h
    · cases h
      exact .inr (.inl ⟨_, rfl, rfl⟩)
    · rename_i canOverwriteStale _ _
      split at h
      · rename_i s hs
        cases h
        rcases sdkStart_cases token events failure _ with hlocked | hc
        · rw [hs] at hlocked
          cases hlocked
        · rw [hs] at hc
          exact .inl ⟨rfl, rfl, hc.version⟩
      · rename_i e s hs
        cases h
        refine .inr (.inr ⟨_, rfl, ?_⟩)
        rcases sdkStart_cases token events failure _ with hlocked | hc
        · rw [hs] at hlocked
          cases hlocked
          exact ⟨Nat.le_refl _, Nat.zero_le _⟩
        · rw [hs] at hc
          refine ⟨hc.version ▸ Nat.le_add_right _ _, ?_⟩
          exact Nat.le_trans hc.bounded (Nat.le_of_eq (Nat.zero_max _))
  · cases h
    exact .inr (.inl ⟨_, rfl, rfl⟩)

/-- What `recoverOrHalt` reads of the backup. -/
theorem readable_cases (fetched : Option Envelope) (db : LocalDb) :
    let readable : Option (String × Envelope × Nat) := do
      let localSeed ← db.seed
      let envelope ← fetched
      let version ← (verifyBackupEnvelope envelope localSeed).stateVersion
      return (localSeed, envelope, version)
    (readable = none ∧ ∀ v, ¬ Readable fetched db v) ∨
      ∃ envelope, readable = some (envelope.seedHex, envelope, envelope.stateVersion) ∧
        fetched = some envelope ∧ db.seed = some envelope.seedHex := by
  cases hs : db.seed with
  | none => exact .inl ⟨rfl, fun v ⟨_, _, h, _⟩ => by rw [hs] at h; cases h⟩
  | some seed =>
    cases hf : fetched with
    | none => exact .inl ⟨rfl, fun v ⟨_, h, _⟩ => by cases h⟩
    | some envelope =>
      by_cases he : seed = envelope.seedHex
      · exact .inr ⟨envelope, by simp [verifyBackupEnvelope, he], rfl, by rw [he]⟩
      · refine .inl ⟨by simp [verifyBackupEnvelope, he], fun v => ?_⟩
        rintro ⟨e, h, hseed, -⟩
        cases h
        rw [hs] at hseed
        cases hseed
        exact he rfl

/-- What `recoverOrHalt` does: it lets a start proceed where nothing is ahead, it
refuses, or it restores a newer backup and is refused where that is. -/
theorem recoverOrHalt_cases (start : SdkStart) (fetched : Option Envelope) (n : Node) :
    (recoverOrHalt start fetched n = none ∧ n.store.mirror ≤ n.store.db.stateVersion ∧
        ∀ v, Readable fetched n.store.db v → v ≤ n.store.db.stateVersion) ∨
      (∃ e, recoverOrHalt start fetched n = some (.error e, n)) ∨
      ∃ envelope r n', fetched = some envelope ∧ n.store.db.seed = some envelope.seedHex ∧
        n.store.db.stateVersion < envelope.stateVersion ∧
        restoreWallet start n envelope envelope.seedHex = (r, n') ∧
        ((r = .ok () ∧ recoverOrHalt start fetched n = some (.ok (), n')) ∨
          ∃ e e', r = .error e ∧ recoverOrHalt start fetched n = some (.error e', n')) := by
  unfold recoverOrHalt
  rcases readable_cases fetched n.store.db with ⟨hr, hnot⟩ | ⟨envelope, hr, hf, hseed⟩
  · simp only [hr, Option.map_none]
    cases hd : recoveryDecision n.store.db.stateVersion n.store.mirror none with
    | proceed =>
      have h := recoveryDecision_proceed hd
      exact .inl ⟨rfl, h.1, fun v hv => absurd hv (hnot v)⟩
    | recover => exact .inr (.inl ⟨_, rfl⟩)
    | halt => exact .inr (.inl ⟨_, rfl⟩)
  · simp only [hr, Option.map_some]
    cases hd : recoveryDecision n.store.db.stateVersion n.store.mirror
        (some envelope.stateVersion) with
    | proceed =>
      obtain ⟨hm, hb⟩ := recoveryDecision_proceed hd
      refine .inl ⟨rfl, hm, ?_⟩
      rintro v ⟨e, hfe, -, rfl⟩
      rw [hf] at hfe
      cases hfe
      exact hb _ rfl
    | recover =>
      have hlt := recoveryDecision_recover hd
      obtain ⟨⟨r, n'⟩, hx⟩ : ∃ x, restoreWallet start n envelope envelope.seedHex = x := ⟨_, rfl⟩
      simp only [hx]
      cases r with
      | ok u => exact .inr (.inr ⟨envelope, _, _, hf, hseed, hlt, hx, .inl ⟨rfl, rfl⟩⟩)
      | error e => exact .inr (.inr ⟨envelope, _, _, hf, hseed, hlt, hx, .inr ⟨e, _, rfl, rfl⟩⟩)
    | halt => exact .inr (.inl ⟨_, rfl⟩)

/-! ## Main results -/

/-- A start that succeeds runs on a state that is behind no readable backup, and not behind the
mirror unless it recovered from a backup that is; a start that is refused leaves the mirror, but for
what the SDK's start had done by then, and for a recovery that had imported the backup. -/
theorem doStartNode_fresh (token : String) (events : List StartEvent) (failure : Option String)
    (fetched : Option Envelope) (n : Node) :
    StartOutcome events fetched n (doStartNode (sdkStart token events failure) fetched n) := by
  simp only [doStartNode]
  by_cases hwallet : (n.store.db.seed.isNone && !n.store.db.createdNew) = true
  · rw [if_pos hwallet]
    exact .kept rfl
  by_cases hstate : (n.store.db.seed.isSome && !n.store.db.channelManager &&
      !n.store.db.createdNew) = true
  · rw [if_neg hwallet, if_pos hstate]
    exact .kept rfl
  rw [if_neg hwallet, if_neg hstate]
  rcases recoverOrHalt_cases (sdkStart token events failure) fetched n with
    ⟨h, hm, hb⟩ | ⟨e, h⟩ | ⟨envelope, r, n', hf, hseed, hlt, hrestore, hr⟩
  · -- nothing is ahead: the local state is started
    rw [h]
    dsimp only
    have hcases := sdkStart_cases token events failure n.store
    split
    · rename_i s hs
      rw [hs] at hcases
      rcases hcases with hlocked | hc
      · cases hlocked
      · have hup : n.store.db.stateVersion ≤ s.db.stateVersion := hc.version ▸ Nat.le_add_right _ _
        exact ⟨rfl, fun v hread => Nat.le_trans (hb v hread) hup, .inl (Nat.le_trans hm hup)⟩
    · rename_i e s hs
      rw [hs] at hcases
      rcases hcases with hlocked | hc
      · cases hlocked
        exact .kept rfl
      · by_cases hl : StartEvent.listened ∈ events
        · have hup : n.store.db.stateVersion ≤ s.db.stateVersion := hc.version ▸ Nat.le_add_right _ _
          exact .raised hl hc.raises
            (Nat.le_trans hc.bounded (Nat.max_le.mpr ⟨Nat.le_trans hm hup, Nat.le_refl _⟩))
        · exact .kept (hc.silent hl)
  · rw [h]
    exact .kept rfl
  · have hread : ∀ {v}, Readable fetched n.store.db v → v = envelope.stateVersion := by
      rintro v ⟨e, hfe, -, rfl⟩
      rw [hf] at hfe
      cases hfe
      rfl
    have hreadable : Readable fetched n.store.db envelope.stateVersion := ⟨envelope, hf, hseed, rfl⟩
    rcases hr with ⟨rfl, h⟩ | ⟨e, e', rfl, h⟩
    · rw [h]
      rcases restoreWallet_cases hrestore with ⟨-, hw, hv⟩ | ⟨_, hc, -⟩ | ⟨_, hc, -⟩
      · refine ⟨hw, fun v hv' => by rw [hv, hread hv']; exact Nat.le_add_right _ _, ?_⟩
        rcases Nat.lt_or_ge envelope.stateVersion n.store.mirror with hbehind | hm
        · exact .inr ⟨_, ⟨hreadable, hlt, hbehind⟩, hv⟩
        · exact .inl (Nat.le_trans hm (hv ▸ Nat.le_add_right _ _))
      · cases hc
      · cases hc
    · rw [h]
      rcases restoreWallet_cases hrestore with ⟨hc, -⟩ | ⟨_, -, rfl⟩ | ⟨_, -, hv, hm⟩
      · cases hc
      · exact .kept rfl
      · exact .imported _ hreadable hlt hv hm

end

/-- The mirror is at 113, the device at 90 and its backup at 100: the start recovers from the backup
and runs at 100; where the node then does not come up, the mirror is reset.  And where nothing is
ahead, a start whose last step fails has moved the mirror with the state. -/
theorem recovered_behind_mirror :
    let n : Node := ⟨.absent, { db := ⟨some "seed", 90, true, false⟩, mirror := 113 }⟩
    (∃ n', doStartNode (sdkStart "page" [] none) (some ⟨"seed", 100⟩) n = (.ok (), n') ∧
      n'.wallet = .running ∧ n'.store.db.stateVersion < n.store.mirror) ∧
    (∃ e n', doStartNode (sdkStart "page" [] (some "offline")) (some ⟨"seed", 100⟩) n = (.error e, n') ∧
      n'.store.mirror ≠ n.store.mirror) ∧
    let m : Node := ⟨.absent, { db := ⟨some "seed", 90, true, false⟩, mirror := 90 }⟩
    ∃ e n', doStartNode (sdkStart "page" [.managerStored, .stateChanged, .listened] (some "no relay"))
        none m = (.error e, n') ∧ n'.store.mirror ≠ m.store.mirror := by
  exact ⟨⟨_, rfl, rfl, by decide⟩, ⟨_, _, rfl, by decide⟩, _, _, rfl, by decide⟩

end LibreWallet.Controller
