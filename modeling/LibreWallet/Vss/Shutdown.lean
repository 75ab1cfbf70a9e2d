import LibreWallet.Async.System
import Mathlib.Data.List.Basic
import Mathlib.Logic.Function.Basic

/-
  Vss/Shutdown.lean --- the last upload of a clean stop, and what goes on beside it.

  Mirrors `teardownRuntime({ persist: true })` of `libre-listener-wallet/src/index.ts` with the
  upload of `vss-mirror.ts` that it awaits, the export inside it, and the lease's `release`.
  The state of a channel is a number that grows; a snapshot of the manager has one for every
  channel, a monitor its own.  The environment chooses when the channels advance, peers are
  dialed, writes commit and timers fire, and how every request ends.
-/

set_option autoImplicit false

namespace LibreWallet.Vss.Shutdown

open Async

structure Envelope (κ : Type) where
  manager : κ → Nat
  monitors : List (κ × Nat)

/-- How far `upload` has come. -/
inductive Stage (κ : Type) where
  /-- `storageCache.flush()`, with the monitors that were not committed when it was called. -/
  | flushing (pending : κ → Nat)
  | readingManager
  | reading (manager : κ → Nat) (monitors : List (κ × Nat)) (rest : List κ)
  | putting (envelope : Envelope κ)
  /-- It has landed; the answer has not come yet. -/
  | stored
  | finished

variable {κ : Type}

def Stage.landed : Stage κ → Bool
  | .stored | .finished => true
  | _ => false

/-- The manager is not read yet. -/
def Stage.early : Stage κ → Bool
  | .flushing _ | .readingManager => true
  | _ => false

/-- Where `teardownRuntime` waits. -/
inductive Teardown where
  | running
  /-- `vssMirror.flush()`, its upload being the one at `k`. -/
  | flushing (k : Nat)
  | releasing
  | stoppingNwc
  | persisting
  | down
  deriving DecidableEq, Repr

structure Node (κ : Type) where
  /-- The channels as the node has them. -/
  state : κ → Nat
  /-- `channel_manager` in the storage. -/
  manager : κ → Nat
  /-- The monitors in the storage. -/
  monitors : κ → Nat
  /-- A monitor write was rejected. -/
  degraded : Bool := false
  uploads : List (Stage κ) := []
  replica : Option (Envelope κ) := none
  /-- Whether `vssLease` is set. -/
  lease : Bool
  leaseDeleted : Bool := false
  teardown : Teardown := .running
  /-- The intervals, the redial timers and the desired peers. -/
  loops : Bool := true
  /-- The peers that were dialed. -/
  peers : Nat := 0

/-- The channel manager is there until the end of the teardown. -/
def Node.up (s : Node κ) : Bool := s.teardown ≠ .down

/-- `stop()` of the mirror is called after the flush. -/
def Node.mirroring (s : Node κ) : Bool :=
  match s.teardown with
  | .running | .flushing _ => true
  | _ => false

inductive Action (κ : Type) where
  /-- A peer message, a payment, a block: channel `c` advances. -/
  | advance (c : κ)
  | dial
  /-- The write of a monitor commits. -/
  | persistMonitor (c : κ)
  | persistFails
  /-- The event tick or a durable batch writes the manager. -/
  | persistManager
  /-- The mirror's timer fires. -/
  | upload (written : Bool)
  /-- Upload `k` goes on. -/
  | go (k : Nat)
  /-- The envelope of upload `k` lands. -/
  | land (k : Nat)
  /-- Upload `k` is over, with its answer or with an error. -/
  | finish (k : Nat)
  | stop (written : Bool)
  | flushed
  /-- The delete of the lease lands. -/
  | deleteLands
  /-- `release` is over, whatever became of the delete. -/
  | released
  | nwcStopped (written : Bool)
  | persisted

section

variable (channels : List κ)

/-- `persistChannelManagerState`, or `setItem` of `persistManagerState`. -/
def writeManager (written : Bool) (s : Node κ) : Node κ :=
  if written then { s with manager := s.state } else s

/-- `upload` up to its first `await` that matters: `exportState` has written the manager and
calls the cache's `flush`. -/
def startUpload (written : Bool) (s : Node κ) : Node κ :=
  let s := writeManager written s
  { s with uploads := s.uploads ++ [.flushing s.state] }

/-- The next step of an export. -/
def goOn (s : Node κ) : Stage κ → Option (Stage κ)
  | .flushing pending =>
    if s.degraded || channels.all fun c => pending c ≤ s.monitors c then some .readingManager else none
  | .readingManager => some (.reading s.manager [] channels)
  | .reading manager monitors (c :: rest) => some (.reading manager (monitors ++ [(c, s.monitors c)]) rest)
  | .reading manager monitors [] => some (.putting ⟨manager, monitors⟩)
  | .putting _ | .stored | .finished => none

def step [DecidableEq κ] : Action κ → Node κ → Option (Node κ)
  | .advance c, s =>
    if s.up then some { s with state := Function.update s.state c (s.state c + 1) } else none
  | .dial, s => if s.loops then some { s with peers := s.peers + 1 } else none
  | .persistMonitor c, s =>
    if s.degraded then none
    else some { s with monitors := Function.update s.monitors c (s.state c) }
  | .persistFails, s => some { s with degraded := true }
  | .persistManager, s => if s.up then some (writeManager true s) else none
  | .upload written, s => if s.mirroring then some (startUpload written s) else none
  | .go k, s =>
    (s.uploads[k]?.bind (goOn channels s)).map fun u => { s with uploads := s.uploads.set k u }
  | .land k, s =>
    match s.uploads[k]? with
    | some (.putting e) => some { s with uploads := s.uploads.set k .stored, replica := some e }
    | _ => none
  | .finish k, s => some { s with uploads := s.uploads.set k .finished }
  | .stop written, s =>
    if s.teardown = .running then
      some { startUpload written s with teardown := .flushing s.uploads.length }
    else none
  | .flushed, s =>
    match s.teardown with
    | .flushing k =>
      match s.uploads[k]? with
      | some .finished => some { s with teardown := if s.lease then .releasing else .stoppingNwc }
      | _ => none
    | _ => none
  | .deleteLands, s => if s.teardown = .releasing then some { s with leaseDeleted := true } else none
  | .released, s => if s.teardown = .releasing then some { s with teardown := .stoppingNwc } else none
  | .nwcStopped written, s =>
    if s.teardown = .stoppingNwc then
      some { writeManager written s with loops := false, peers := 0, teardown := .persisting }
    else none
  | .persisted, s => if s.teardown = .persisting then some { s with teardown := .down } else none

/-- The upload that `stop` awaits. -/
def Node.last (s : Node κ) : Option (Stage κ) :=
  match s.teardown with
  | .flushing k => s.uploads[k]?
  | _ => none

/-- The last upload has landed. -/
def Node.replicated (s : Node κ) : Bool :=
  match s.teardown with
  | .running => false
  | .flushing _ => s.last.any Stage.landed
  | _ => true

/-- After `stop()` a channel advances only before the last upload reads the manager; what that
upload reads is current, it lands, and no other upload lands after it; and no lease is
deleted. -/
def orderly (a : Action κ) (s : Node κ) : Bool :=
  match a with
  | .advance _ => s.teardown = .running || s.last.any Stage.early
  | .go k =>
    if s.teardown = .flushing k then
      match s.uploads[k]? with
      | some .readingManager => channels.all fun c => s.manager c = s.state c
      | some (.reading _ _ (c :: _)) => s.monitors c = s.state c
      | _ => true
    else true
  | .land _ => !s.replicated
  | .finish k => s.teardown ≠ .flushing k || s.replicated
  | .deleteLands => false
  | _ => true

/-- The envelope is what the storage has. -/
def Envelope.Matches (e : Envelope κ) (manager monitors : κ → Nat) : Prop :=
  (∀ c ∈ channels, e.manager c = manager c) ∧ e.monitors = channels.map fun c => (c, monitors c)

/-- At the end the replica has what the storage has; and where the lease is deleted, no channel
can advance and no peer be dialed any more. -/
structure InOrder [DecidableEq κ] (s : Node κ) : Prop where
  replica : s.teardown = .down → ∃ e, s.replica = some e ∧ e.Matches channels s.manager s.monitors
  lease : s.leaseDeleted = true →
    (∀ c, step channels (.advance c) s = none) ∧ step channels .dial s = none

end

variable {channels : List κ} {s s' : Node κ}

/-! ## What the last upload has -/

/-- The channels are in the storage as they are. -/
def Current (channels : List κ) (s : Node κ) (cs : List κ) : Prop :=
  (∀ c ∈ channels, s.manager c = s.state c) ∧ ∀ c ∈ cs, s.monitors c = s.state c

/-- What an upload has read is what the channels are, in the storage too. -/
def Captured (channels : List κ) (s : Node κ) : Stage κ → Prop
  | .flushing _ | .readingManager => True
  | .reading manager monitors rest => ∃ got, channels = got ++ rest ∧
      (∀ c ∈ channels, manager c = s.state c) ∧ (monitors = got.map fun c => (c, s.state c)) ∧
      Current channels s got
  | .putting e => e.Matches channels s.state s.state ∧ Current channels s channels
  | .stored | .finished => ∃ e, s.replica = some e ∧ e.Matches channels s.state s.state ∧
      Current channels s channels

/-- The storage may only come closer to the channels. -/
structure Closer (channels : List κ) (s s' : Node κ) : Prop where
  state : s'.state = s.state
  replica : s'.replica = s.replica
  manager : ∀ c ∈ channels, s.manager c = s.state c → s'.manager c = s.state c
  monitors : ∀ c, s.monitors c = s.state c → s'.monitors c = s.state c

theorem Current.closer {cs : List κ} (h : Current channels s cs) (hc : Closer channels s s') :
    Current channels s' cs := by
  constructor
  · intro c hmem
    rw [hc.state]
    exact hc.manager c hmem (h.1 c hmem)
  · intro c hmem
    rw [hc.state]
    exact hc.monitors c (h.2 c hmem)

theorem Captured.closer {u : Stage κ} (h : Captured channels s u) (hc : Closer channels s s') :
    Captured channels s' u := by
  cases u with
  | flushing pending => trivial
  | readingManager => trivial
  | reading manager monitors rest =>
    obtain ⟨got, hgot, hmanager, hmonitors, hcur⟩ := h
    refine ⟨got, hgot, ?_, ?_, hcur.closer hc⟩
    · rwa [hc.state]
    · rwa [hc.state]
  | putting e =>
    refine ⟨?_, h.2.closer hc⟩
    rw [hc.state]
    exact h.1
  | stored | finished =>
    obtain ⟨e, he, hmatch, hcur⟩ := h
    refine ⟨e, hc.replica.trans he, ?_, hcur.closer hc⟩
    rwa [hc.state]

/-- A step of the last upload that reads only what is current. -/
theorem Captured.goOn {k : Nat} {u u' : Stage κ} (h : Captured channels s u)
    (ht : s.teardown = .flushing k) (hu : s.uploads[k]? = some u)
    (ho : orderly channels (.go k) s = true) (hgo : goOn channels s u = some u') :
    Captured channels s u' := by
  simp only [orderly, ht, if_true, hu] at ho
  cases u with
  | flushing pending =>
    simp only [Shutdown.goOn, Option.ite_none_right_eq_some, Option.some.injEq] at hgo
    rw [← hgo.2]
    trivial
  | readingManager =>
    cases hgo
    have hcur : ∀ c ∈ channels, s.manager c = s.state c := by simpa using ho
    exact ⟨[], rfl, hcur, rfl, hcur, nofun⟩
  | reading manager monitors rest =>
    obtain ⟨got, hgot, hmanager, hmonitors, hcur⟩ := h
    cases rest with
    | nil =>
      cases hgo
      rw [List.append_nil] at hgot
      rw [← hgot] at hmonitors hcur
      exact ⟨⟨hmanager, hmonitors⟩, hcur⟩
    | cons c rest =>
      cases hgo
      have hc : s.monitors c = s.state c := by simpa using ho
      refine ⟨got ++ [c], ?_, hmanager, ?_, hcur.1, ?_⟩
      · rw [hgot, List.append_assoc]
        rfl
      · rw [hmonitors, List.map_append, hc]
        rfl
      · intro c' hc'
        rcases List.mem_append.mp hc' with hc' | hc'
        · exact hcur.2 c' hc'
        · rw [List.mem_singleton.mp hc']
          exact hc
  | putting e => cases hgo
  | stored => cases hgo
  | finished => cases hgo

/-! ## The invariant of an orderly stop -/

structure Settled (channels : List κ) (s : Node κ) : Prop where
  lease : s.leaseDeleted = false
  last : ∀ k, s.teardown = .flushing k → ∃ u, s.uploads[k]? = some u ∧ Captured channels s u
  done : s.teardown ≠ .running → (∀ k, s.teardown ≠ .flushing k) → Captured channels s .finished

/-- The teardown stays where it is and its upload as it was. -/
theorem Settled.frame (h : Settled channels s) (hc : Closer channels s s')
    (hlease : s'.leaseDeleted = s.leaseDeleted) (ht : s'.teardown = s.teardown)
    (hu : ∀ k u, s.teardown = .flushing k → s.uploads[k]? = some u → s'.uploads[k]? = some u) :
    Settled channels s' where
  lease := hlease.trans h.lease
  last := by
    intro k hk
    rw [ht] at hk
    obtain ⟨u, hget, hcap⟩ := h.last k hk
    exact ⟨u, hu k u hk hget, hcap.closer hc⟩
  done := by
    rw [ht]
    intro hr hf
    exact (h.done hr hf).closer hc

theorem closer_writeManager (written : Bool) (s : Node κ) :
    Closer channels s (writeManager written s) := by
  cases written with
  | false => exact ⟨rfl, rfl, fun _ _ hm => hm, fun _ hm => hm⟩
  | true => exact ⟨rfl, rfl, fun _ _ _ => rfl, fun _ hm => hm⟩

/-- Before the last upload reads the manager, anything may advance. -/
theorem Settled.advance (h : Settled channels s) {c : κ} {state : κ → Nat}
    (ho : orderly channels (.advance c) s = true) : Settled channels { s with state } where
  lease := h.lease
  last := by
    intro k hk
    have hk : s.teardown = .flushing k := hk
    obtain ⟨u, hget, -⟩ := h.last k hk
    simp only [orderly, Node.last, hk, hget, Option.any_some, Bool.or_eq_true, decide_eq_true_eq] at ho
    rcases ho with ho | ho
    · cases ho
    · refine ⟨u, hget, ?_⟩
      cases u with
      | flushing pending => trivial
      | readingManager => trivial
      | reading manager monitors rest => cases ho
      | putting e => cases ho
      | stored => cases ho
      | finished => cases ho
  done := by
    intro hr hf
    have hr : s.teardown ≠ .running := hr
    have hf : ∀ k, s.teardown ≠ .flushing k := hf
    have hnone : s.last = none := by
      unfold Node.last
      split
      · rename_i k hk
        exact absurd hk (hf k)
      · rfl
    simp [orderly, hr, hnone] at ho

/-- One upload goes on to another stage. -/
theorem Settled.setUpload (h : Settled channels s) {k : Nat} {u : Stage κ}
    {replica : Option (Envelope κ)}
    (hlast : s.teardown = .flushing k → Captured channels { s with replica } u)
    (hother : replica = s.replica ∨ s.replicated = false) :
    Settled channels { s with uploads := s.uploads.set k u, replica } where
  lease := h.lease
  last := by
    intro k' hk'
    have hk' : s.teardown = .flushing k' := hk'
    obtain ⟨u', hget, hcap⟩ := h.last k' hk'
    by_cases heq : k = k'
    · subst heq
      have hlt : k < s.uploads.length := (List.getElem?_eq_some_iff.mp hget).1
      refine ⟨u, List.getElem?_set_self hlt, ?_⟩
      exact hlast hk'
    · refine ⟨u', (List.getElem?_set_ne heq).trans hget, ?_⟩
      rcases hother with rfl | hno
      · exact hcap
      · cases u' with
        | flushing pending => trivial
        | readingManager => trivial
        | reading manager monitors rest => exact hcap
        | putting e => exact hcap
        | stored | finished => simp [Node.replicated, Node.last, hk', hget, Stage.landed] at hno
  done := by
    intro hr hf
    have hr : s.teardown ≠ .running := hr
    have hf : ∀ k, s.teardown ≠ .flushing k := hf
    rcases hother with rfl | hno
    · exact h.done hr hf
    · unfold Node.replicated at hno
      split at hno
      · exact absurd ‹_› hr
      · exact absurd ‹_› (hf _)
      · cases hno

theorem Settled.step [DecidableEq κ] {a : Action κ} (h : Settled channels s) (ho : orderly channels a s = true)
    (hs : step channels a s = some s') : Settled channels s' := by
  cases a with
  | advance c =>
    simp only [Shutdown.step, Option.ite_none_right_eq_some, Option.some.injEq] at hs
    rw [← hs.2]
    exact h.advance ho
  | dial =>
    simp only [Shutdown.step, Option.ite_none_right_eq_some, Option.some.injEq] at hs
    rw [← hs.2]
    exact h.frame ⟨rfl, rfl, fun _ _ hm => hm, fun _ hm => hm⟩ rfl rfl fun _ _ _ hu => hu
  | persistMonitor c =>
    simp only [Shutdown.step, Option.ite_none_left_eq_some, Option.some.injEq] at hs
    rw [← hs.2]
    refine h.frame ⟨rfl, rfl, fun _ _ hm => hm, fun c' hm => ?_⟩ rfl rfl fun _ _ _ hu => hu
    simp only [Function.update_apply]
    split
    · rename_i heq
      rw [heq]
    · exact hm
  | persistFails =>
    cases hs
    exact h.frame ⟨rfl, rfl, fun _ _ hm => hm, fun _ hm => hm⟩ rfl rfl fun _ _ _ hu => hu
  | persistManager =>
    simp only [Shutdown.step, Option.ite_none_right_eq_some, Option.some.injEq] at hs
    rw [← hs.2]
    exact h.frame (closer_writeManager true s) rfl rfl fun _ _ _ hu => hu
  | upload written =>
    simp only [Shutdown.step, Option.ite_none_right_eq_some, Option.some.injEq] at hs
    rw [← hs.2]
    have hw : Closer channels s (writeManager written s) := closer_writeManager written s
    refine h.frame ⟨hw.state, hw.replica, hw.manager, hw.monitors⟩ ?_ ?_ ?_
    · cases written <;> rfl
    · cases written <;> rfl
    · intro k u _ hu
      cases written <;> exact List.getElem?_append_left (List.getElem?_eq_some_iff.mp hu).1 ▸ hu
  | go k =>
    simp only [Shutdown.step, Option.map_eq_some_iff, Option.bind_eq_some_iff] at hs
    obtain ⟨u', ⟨u, hu, hgo⟩, rfl⟩ := hs
    refine h.setUpload (fun hk => ?_) (.inl rfl)
    obtain ⟨u₀, hget, hcap⟩ := h.last k hk
    rw [hu] at hget
    cases hget
    exact hcap.goOn hk hu ho hgo
  | land k =>
    simp only [Shutdown.step] at hs
    split at hs
    · rename_i e he
      cases hs
      refine h.setUpload (fun hk => ?_) (.inr (by simpa [orderly] using ho))
      obtain ⟨u, hget, hcap⟩ := h.last k hk
      rw [he] at hget
      cases hget
      exact ⟨e, rfl, hcap⟩
    · cases hs
  | finish k =>
    cases hs
    refine h.setUpload (fun hk => ?_) (.inl rfl)
    obtain ⟨u, hget, hcap⟩ := h.last k hk
    simp only [orderly, hk, ne_eq, not_true_eq_false, decide_false, Bool.false_or, Node.replicated,
      Node.last, hget, Option.any_some] at ho
    cases u with
    | stored | finished => exact hcap
    | flushing _ | readingManager | reading _ _ _ | putting _ => cases ho
  | stop written =>
    simp only [Shutdown.step, Option.ite_none_right_eq_some, Option.some.injEq] at hs
    rw [← hs.2]
    refine ⟨?_, ?_, ?_⟩
    · cases written <;> exact h.lease
    · rintro k ⟨⟩
      refine ⟨.flushing s.state, ?_, trivial⟩
      cases written <;> simp [startUpload, writeManager]
    · intro _ hf
      exact absurd rfl (hf s.uploads.length)
  | flushed =>
    simp only [Shutdown.step] at hs
    split at hs
    · rename_i k hk
      split at hs
      · rename_i hover
        cases hs
        obtain ⟨u, hget, hcap⟩ := h.last k hk
        rw [hover] at hget
        cases hget
        refine ⟨h.lease, fun k' hk' => ?_, fun _ _ => hcap⟩
        simp only at hk'
        split at hk' <;> cases hk'
      · cases hs
    · cases hs
  | deleteLands => cases ho
  | released =>
    simp only [Shutdown.step, Option.ite_none_right_eq_some, Option.some.injEq] at hs
    obtain ⟨ht, rfl⟩ := hs
    exact ⟨h.lease, nofun, fun _ _ => h.done (by simp [ht]) (by simp [ht])⟩
  | nwcStopped written =>
    simp only [Shutdown.step, Option.ite_none_right_eq_some, Option.some.injEq] at hs
    obtain ⟨ht, rfl⟩ := hs
    refine ⟨?_, nofun, fun _ _ => ?_⟩
    · cases written <;> exact h.lease
    · have hw : Closer channels s (writeManager written s) := closer_writeManager written s
      exact (h.done (by simp [ht]) (by simp [ht])).closer ⟨hw.state, hw.replica, hw.manager, hw.monitors⟩
  | persisted =>
    simp only [Shutdown.step, Option.ite_none_right_eq_some, Option.some.injEq] at hs
    obtain ⟨ht, rfl⟩ := hs
    exact ⟨h.lease, nofun, fun _ _ => h.done (by simp [ht]) (by simp [ht])⟩

/-- A node before `stop()`, whatever it has and whatever is on its way. -/
structure Started (s : Node κ) : Prop where
  running : s.teardown = .running
  held : s.leaseDeleted = false

theorem Started.settled (h : Started s) : Settled channels s where
  lease := h.held
  last := by
    intro k hk
    rw [h.running] at hk
    cases hk
  done := fun hr => absurd h.running hr

/-- In every stop whose steps are orderly, the replica has in the end what the storage has, and
the lease is not deleted while the node can advance a channel or dial a peer. -/
theorem inOrder_of_orderly [DecidableEq κ] (channels : List κ) (s s' : Node κ) (h : Started s)
    (hrun : Steps (step channels) (fun a t => orderly channels a t = true) s s') :
    InOrder channels s' := by
  have hset : Settled channels s' := hrun.invariant h.settled fun a t t' hi ho hs => hi.step ho hs
  refine ⟨fun hdown => ?_, fun hdel => ?_⟩
  · obtain ⟨e, he, ⟨hmanager, hmonitors⟩, hcur⟩ := hset.done (by simp [hdown]) (by simp [hdown])
    refine ⟨e, he, fun c hc => (hmanager c hc).trans (hcur.1 c hc).symm, ?_⟩
    rw [hmonitors]
    exact List.map_congr_left fun c hc => by rw [hcur.2 c hc]
  · rw [hset.lease] at hdel
    cases hdel

/-- Two monitors of which one is late, and no lease. -/
def busy (lease : Bool) : Node Bool where
  state := fun c => if c then 4 else 2
  manager := fun c => if c then 3 else 2
  monitors := fun c => if c then 3 else 2
  lease

/-- The first channel advances during the last upload, before its manager is read. -/
theorem inOrder_of_orderly_advance : ∃ s', Steps (step [true, false])
      (fun a t => orderly [true, false] a t = true) (busy false) s' ∧
    decide (s'.teardown = .down ∧ s'.state true = 5) = true ∧ InOrder [true, false] s' := by
  obtain ⟨s', hrun, hf⟩ := Steps.exists_of_play (step [true, false]) (orderly [true, false]) (busy false)
    [.stop true, .persistMonitor true, .go 0, .advance true, .persistMonitor true, .persistManager,
      .go 0, .go 0, .go 0, .go 0, .land 0, .finish 0, .flushed, .nwcStopped true, .persisted]
    (fun t => decide (t.teardown = .down ∧ t.state true = 5)) (by decide +kernel)
  exact ⟨s', hrun, hf, inOrder_of_orderly [true, false] (busy false) s' ⟨rfl, rfl⟩ hrun⟩

/-- A lease is deleted while the channels can advance, always. -/
theorem not_inOrder_of_deleteLands [DecidableEq κ] (c : κ)
    (hs : step channels .deleteLands s = some s') : ¬ InOrder channels s' := by
  intro h
  simp only [step, Option.ite_none_right_eq_some, Option.some.injEq] at hs
  obtain ⟨ht, rfl⟩ := hs
  have hno := (h.lease rfl).1 c
  simp [step, Node.up, ht] at hno

/-- The first channel advances while the lease is being released: the storage has the new state in
the end, the replica the old one. -/
theorem not_inOrder_released : ¬ ∀ s', Steps (step [true, false]) (fun _ _ => True) (busy true) s' →
    InOrder [true, false] s' := by
  intro h
  obtain ⟨s', hrun, hf⟩ := Steps.exists_of_play (step [true, false]) (fun _ _ => true) (busy true)
    [.stop true, .persistMonitor true, .go 0, .go 0, .go 0, .go 0, .go 0, .land 0, .finish 0, .flushed,
      .deleteLands, .advance true, .persistMonitor true, .released, .nwcStopped true, .persisted]
    (fun t => decide (t.teardown = .down ∧ t.manager true = 5 ∧
      t.replica.any (fun e => e.manager true = 4) = true)) (by decide +kernel)
  simp only [decide_eq_true_eq] at hf
  obtain ⟨hdown, hmanager, hreplica⟩ := hf
  obtain ⟨e, he, hmatch, -⟩ := (h s' (hrun.mono fun _ _ _ => trivial)).replica hdown
  rw [he] at hreplica
  have h₁ := hmatch true (by simp)
  simp only [Option.any_some, decide_eq_true_eq] at hreplica
  omega

end LibreWallet.Vss.Shutdown
