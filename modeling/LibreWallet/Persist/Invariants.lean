import LibreWallet.Async.Logic
import LibreWallet.Persist.Durable

/-
  Persist/Invariants.lean --- what every step of the node keeps.

  The invariant speaks of the operations alone: what was issued is in the queue, or
  has committed, or was rejected; the cache has every tracked operation in `pending`
  until it has seen its outcome; and a rejection that it has seen stays in its
  health flag.  Nothing here assumes anything of LDK or of the order of commits.
-/

set_option autoImplicit false

namespace LibreWallet.Persist

open Async

variable {χ M : Type}

/-! ## The vocabulary -/

/-- Some operation of `l` writes an index with `name` in it. -/
def Listed (l : List (Write χ M)) (name : String) : Prop :=
  ∃ x ∈ l, x.key = .ldkKeysIndex ∧ ∃ ks, x.value = some (.index ks) ∧ name ∈ ks

/-- A tracked operation of a session with a serial in a range. -/
structure Write.Tracked (x : Write χ M) (session first last : Nat) : Prop where
  tracked : x.tracked = true
  session : x.session = session
  first : first ≤ x.serial
  last : x.serial < last

/-- The operations that a hand-over issued: unless the cache has degraded, each value is
written and its key is in an index that is written no later, or was loaded. -/
def Recorded (issued committed : List (Write χ M)) (h : Handed χ M) : Prop :=
  ∀ name v, KvCall.write name v ∈ h.calls →
    (∃ x ∈ issued, x.Tracked h.session h.first h.last ∧ x.key = .kv name ∧ x.value = some v) ∧
    (Listed (issued.filter fun x =>
      x.tracked && decide (x.session = h.session) && decide (x.serial < h.last)) name ∨
      Listed committed name)

/-- What an acknowledged update has behind it. -/
structure AckOk (issued committed : List (Write χ M)) (h : Handed χ M) : Prop where
  bound : h.last ≤ issued.length
  /-- Every tracked operation up to the end of its callback has committed. -/
  settled : ∀ x ∈ issued, x.tracked = true → x.session = h.session → x.serial < h.last →
    x ∈ committed
  /-- So have its own values, and the index with their keys. -/
  values : ∀ name v, KvCall.write name v ∈ h.calls →
    (∃ x ∈ committed, x.Tracked h.session h.first h.last ∧ x.key = .kv name ∧
      x.value = some v) ∧ Listed committed name
  /-- So has a channel manager that was serialized after the callback. -/
  manager : h.managed = true →
    ∃ y ∈ committed, y.key = .channelManager ∧ (∃ m, y.value = some (.manager m)) ∧
      h.last ≤ y.serial

/-- The invariant of the node. -/
structure Inv (w : Node χ M) : Prop where
  alive : 0 < w.session
  serial : ∀ later x earlier, w.issued = later ++ x :: earlier → x.serial = earlier.length
  session : ∀ x ∈ w.issued, 0 < x.session ∧ x.session ≤ w.session
  queue : ∀ x ∈ w.queue, x ∈ w.issued ∧ x.session = w.session ∧ x ∉ w.committed ∧ x ∉ w.rejected
  committed : ∀ x ∈ w.committed, x ∈ w.issued ∨ x.session = 0
  rejected : ∀ x ∈ w.rejected, x ∈ w.issued ∧ x ∉ w.committed
  outcome : ∀ x ∈ w.issued, x.session = w.session →
    x ∈ w.queue ∨ x ∈ w.committed ∨ x ∈ w.rejected
  pending : ∀ x ∈ w.queue, x.tracked = true → x.serial ∈ w.pending
  health : ∀ x ∈ w.rejected, x.tracked = true → x.session = w.session →
    x.serial ∈ w.pending ∨ w.persistenceHealthy = false
  keys : ∀ name ∈ w.keys, Listed (w.issued.filter fun x =>
      x.tracked && decide (x.session = w.session)) name ∨ Listed w.committed name
  handed : ∀ h ∈ w.handed, 0 < h.session ∧ h.session ≤ w.session ∧ h.last ≤ w.issued.length ∧
    (h.session = w.session → w.persistenceHealthy = true → Recorded w.issued w.committed h)
  acked : ∀ h ∈ w.acked, AckOk w.issued w.committed h

/-- What every step respects. -/
structure Evolves (v w : Node χ M) : Prop where
  session : v.session ≤ w.session
  issued : v.issued <:+ w.issued
  committed : v.committed <:+ w.committed
  rejected : v.rejected <:+ w.rejected
  handed : v.handed <:+ w.handed
  queue : ∀ x ∈ v.issued, x ∈ w.queue → x ∈ v.queue
  healthy : w.session = v.session → w.persistenceHealthy = true → v.persistenceHealthy = true
  running : w.session = v.session → v.phase.channelManager.isSome = true →
    w.phase.channelManager.isSome = true ∨ w.phase = .stopped
  stopped : w.session = v.session → v.phase = .stopped → w.phase = .stopped

namespace Evolves

theorem refl (w : Node χ M) : Evolves w w where
  session := Nat.le_refl _
  issued := List.suffix_rfl
  committed := List.suffix_rfl
  rejected := List.suffix_rfl
  handed := List.suffix_rfl
  queue := fun _ _ h => h
  healthy := fun _ h => h
  running := fun _ h => .inl h
  stopped := fun _ h => h

theorem trans (u v w : Node χ M) (h : Evolves u v) (h' : Evolves v w) : Evolves u w := by
  have mid : w.session = u.session → v.session = u.session ∧ w.session = v.session := by
    intro heq
    have h₁ := h.session
    have h₂ := h'.session
    omega
  exact
    { session := Nat.le_trans h.session h'.session
      issued := h.issued.trans h'.issued
      committed := h.committed.trans h'.committed
      rejected := h.rejected.trans h'.rejected
      handed := h.handed.trans h'.handed
      queue := fun x hx hq => h.queue x hx (h'.queue x (h.issued.subset hx) hq)
      healthy := fun heq hw => h.healthy (mid heq).1 (h'.healthy (mid heq).2 hw)
      running := fun heq hu => by
        rcases h.running (mid heq).1 hu with hv | hv
        · exact h'.running (mid heq).2 hv
        · exact .inr (h'.stopped (mid heq).2 hv)
      stopped := fun heq hu => h'.stopped (mid heq).2 (h.stopped (mid heq).1 hu) }

end Evolves

/-! ## Facts about the invariant -/

variable {v w w' : Node χ M}

theorem Listed.mono {l l' : List (Write χ M)} {name : String} (h : Listed l name) (hl : l ⊆ l') :
    Listed l' name := by
  obtain ⟨x, hx, hrest⟩ := h
  exact ⟨x, hl hx, hrest⟩

/-- An operation that was issued early was issued early. -/
theorem Inv.mem_of_serial_lt (hi : Inv w) (hv : v.issued <:+ w.issued) {x : Write χ M}
    (hx : x ∈ w.issued) (hlt : x.serial < v.issued.length) : x ∈ v.issued := by
  obtain ⟨later, earlier, heq⟩ := List.append_of_mem hx
  have hser := hi.serial later x earlier heq
  have hsuf : x :: earlier <:+ w.issued := ⟨later, heq.symm⟩
  have hle : (x :: earlier).length ≤ v.issued.length := by
    rw [List.length_cons]
    omega
  exact (List.suffix_of_suffix_length_le hsuf hv hle).subset List.mem_cons_self

/-- Serials are below the number of operations. -/
theorem Inv.serial_lt (hi : Inv w) {x : Write χ M} (hx : x ∈ w.issued) :
    x.serial < w.issued.length := by
  obtain ⟨later, earlier, heq⟩ := List.append_of_mem hx
  rw [hi.serial later x earlier heq, heq]
  simp only [List.length_append, List.length_cons]
  omega

/-- A serial names one operation. -/
theorem Inv.eq_of_serial (hi : Inv w) {x y : Write χ M} (hx : x ∈ w.issued) (hy : y ∈ w.issued)
    (h : x.serial = y.serial) : x = y := by
  obtain ⟨later, earlier, heq⟩ := List.append_of_mem hx
  obtain ⟨later', earlier', heq'⟩ := List.append_of_mem hy
  have hlen : (x :: earlier).length = (y :: earlier').length := by
    simp only [List.length_cons]
    rw [← hi.serial later x earlier heq, ← hi.serial later' y earlier' heq', h]
  have hsame : x :: earlier = y :: earlier' :=
    List.IsSuffix.eq_of_length
      (List.suffix_of_suffix_length_le ⟨later, heq.symm⟩ ⟨later', heq'.symm⟩ (Nat.le_of_eq hlen))
      hlen
  exact (List.cons.inj hsame).1

/-- A flush that passes has committed every tracked operation issued before it. -/
theorem committed_of_flushed (hi : Inv v) (hi' : Inv w) (hev : Evolves v w)
    (hs : w.session = v.session) (hv : v.persistenceHealthy = true)
    (hq : ∀ x ∈ w.queue, x.serial ∉ v.pending) (hr : ∀ x ∈ w.rejected, x.serial ∉ v.pending)
    {x : Write χ M} (hx : x ∈ v.issued) (ht : x.tracked = true) (hxs : x.session = v.session) :
    x ∈ w.committed := by
  rcases hi'.outcome x (hev.issued.subset hx) (hxs.trans hs.symm) with hw | hw | hw
  · -- still in the queue: then it was pending
    exact absurd (hi.pending x (hev.queue x hx hw) ht) (hq x hw)
  · exact hw
  · rcases hi.outcome x hx hxs with hv' | hv' | hv'
    · exact absurd (hi.pending x hv' ht) (hr x hw)
    · exact hev.committed.subset hv'
    · rcases hi.health x hv' ht hxs with hp | hp
      · exact absurd hp (hr x hw)
      · rw [hv] at hp
        cases hp

/-! ## Issuing -/

/-- What an operation of the cache leaves alone. -/
structure Frame (v w : Node χ M) : Prop where
  session : w.session = v.session
  committed : w.committed = v.committed
  rejected : w.rejected = v.rejected
  phase : w.phase = v.phase
  isRunning : w.isRunning = v.isRunning
  healthy : w.persistenceHealthy = v.persistenceHealthy
  handed : w.handed = v.handed
  acked : w.acked = v.acked
  exports : w.exports = v.exports
  stateVersion : w.stateVersion = v.stateVersion

theorem Frame.refl (w : Node χ M) : Frame w w := ⟨rfl, rfl, rfl, rfl, rfl, rfl, rfl, rfl, rfl, rfl⟩

theorem Frame.trans {u v w : Node χ M} (h : Frame u v) (h' : Frame v w) : Frame u w where
  session := h'.session.trans h.session
  committed := h'.committed.trans h.committed
  rejected := h'.rejected.trans h.rejected
  phase := h'.phase.trans h.phase
  isRunning := h'.isRunning.trans h.isRunning
  healthy := h'.healthy.trans h.healthy
  handed := h'.handed.trans h.handed
  acked := h'.acked.trans h.acked
  exports := h'.exports.trans h.exports
  stateVersion := h'.stateVersion.trans h.stateVersion

/-- What was issued from one state to another is in the queue. -/
structure Issues (v w : Node χ M) : Prop where
  frame : Frame v w
  issued : v.issued <:+ w.issued
  queue : ∀ x ∈ w.queue, x ∈ v.queue ∨ v.issued.length ≤ x.serial

theorem Issues.refl (w : Node χ M) : Issues w w := ⟨Frame.refl w, List.suffix_rfl, fun _ => .inl⟩

theorem Issues.trans {u v w : Node χ M} (h : Issues u v) (h' : Issues v w) : Issues u w where
  frame := h.frame.trans h'.frame
  issued := h.issued.trans h'.issued
  queue := fun x hx => by
    rcases h'.queue x hx with hv | hv
    · exact h.queue x hv
    · exact .inr (Nat.le_trans h.issued.length_le hv)

theorem issue_issues (w : Node χ M) (ks : List String) (t : Bool) (k : Key)
    (v : Option (Value χ M)) : Issues w (({ w with keys := ks } : Node χ M).issue t k v) where
  frame := ⟨rfl, rfl, rfl, rfl, rfl, rfl, rfl, rfl, rfl, rfl⟩
  issued := List.suffix_cons _ _
  queue := fun x hx => by
    simp only [Node.issue, List.mem_append, List.mem_singleton] at hx
    rcases hx with hx | rfl
    · exact .inl hx
    · exact .inr (Nat.le_refl _)

theorem Issues.evolves (hi : Inv v) (h : Issues v w) : Evolves v w where
  session := Nat.le_of_eq h.frame.session.symm
  issued := h.issued
  committed := h.frame.committed ▸ List.suffix_rfl
  rejected := h.frame.rejected ▸ List.suffix_rfl
  handed := h.frame.handed ▸ List.suffix_rfl
  queue := fun x hx hq => by
    rcases h.queue x hq with hv | hv
    · exact hv
    · have hlt := hi.serial_lt hx
      omega
  healthy := fun _ hw => h.frame.healthy ▸ hw
  running := fun _ hr => .inl (by rw [h.frame.phase]; exact hr)
  stopped := fun _ hs => by rw [h.frame.phase]; exact hs

/-- One more operation keeps the invariant, if it accounts for the new keys. -/
theorem issue_inv (hi : Inv w) (ks : List String) (t : Bool) (k : Key) (v : Option (Value χ M))
    (hk : ∀ name ∈ ks, name ∉ w.keys → t = true ∧ k = .ldkKeysIndex ∧ v = some (.index ks)) :
    Inv (({ w with keys := ks } : Node χ M).issue t k v) := by
  have hnew : ∀ x ∈ w.issued, x.serial ≠ w.issued.length := fun x hx =>
    Nat.ne_of_lt (hi.serial_lt hx)
  have hlisted : ∀ (p : Write χ M → Bool) (name : String), Listed (w.issued.filter p) name →
      Listed ((({ w with keys := ks } : Node χ M).issue t k v).issued.filter p) name :=
    fun p name hl => hl.mono
      ((List.suffix_cons _ _).sublist.filter p).subset
  refine
    { alive := hi.alive
      serial := ?_, session := ?_, queue := ?_, committed := ?_, rejected := ?_, outcome := ?_
      pending := ?_, health := ?_, keys := ?_, handed := ?_, acked := ?_ }
  · intro later x earlier heq
    cases later with
    | nil =>
      simp only [Node.issue, List.nil_append, List.cons.injEq] at heq
      obtain ⟨rfl, rfl⟩ := heq
      rfl
    | cons y later =>
      simp only [Node.issue, List.cons_append, List.cons.injEq] at heq
      exact hi.serial later x earlier heq.2
  · intro x hx
    rcases List.mem_cons.mp hx with rfl | hx
    · exact ⟨hi.alive, Nat.le_refl _⟩
    · exact hi.session x hx
  · intro x hx
    simp only [Node.issue, List.mem_append, List.mem_singleton] at hx
    rcases hx with hx | rfl
    · obtain ⟨h₁, h₂, h₃, h₄⟩ := hi.queue x hx
      exact ⟨List.mem_cons_of_mem _ h₁, h₂, h₃, h₄⟩
    · refine ⟨List.mem_cons_self, rfl, fun hc => ?_, fun hr => ?_⟩
      · rcases hi.committed _ hc with hx | hx
        · exact hnew _ hx rfl
        · exact absurd hx (Nat.pos_iff_ne_zero.mp hi.alive)
      · exact hnew _ (hi.rejected _ hr).1 rfl
  · exact fun x hx => (hi.committed x hx).imp (List.mem_cons_of_mem _) id
  · exact fun x hx => ⟨List.mem_cons_of_mem _ (hi.rejected x hx).1, (hi.rejected x hx).2⟩
  · intro x hx hs
    rcases List.mem_cons.mp hx with rfl | hx
    · exact .inl (by simp [Node.issue])
    · refine (hi.outcome x hx hs).imp_left fun hq => ?_
      exact List.mem_append_left _ hq
  · intro x hx ht
    simp only [Node.issue, List.mem_append, List.mem_singleton] at hx ⊢
    rcases hx with hx | rfl
    · have hp := hi.pending x hx ht
      split
      · exact List.mem_append_left _ hp
      · exact hp
    · have ht' : t = true := ht
      simp [ht']
  · intro x hx ht hs
    refine (hi.health x hx ht hs).imp_left fun hp => ?_
    simp only [Node.issue]
    split
    · exact List.mem_append_left _ hp
    · exact hp
  · intro name hname
    by_cases hold : name ∈ w.keys
    · exact (hi.keys name hold).imp_left (hlisted _ name)
    · obtain ⟨rfl, rfl, rfl⟩ := hk name hname hold
      exact .inl ⟨⟨w.issued.length, w.session, true, .ldkKeysIndex, some (.index ks)⟩,
        by simp [Node.issue], rfl, ks, rfl, hname⟩
  · intro h hh
    obtain ⟨h₁, h₂, h₃, h₄⟩ := hi.handed h hh
    refine ⟨h₁, h₂, Nat.le_succ_of_le h₃, fun hs hp name v hv => ?_⟩
    obtain ⟨⟨x, hx, hrest⟩, hl⟩ := h₄ hs hp name v hv
    exact ⟨⟨x, List.mem_cons_of_mem _ hx, hrest⟩, hl.imp_left (hlisted _ name)⟩
  · intro h hh
    have ha := hi.acked h hh
    refine { ha with
      bound := Nat.le_succ_of_le ha.bound
      settled := fun x hx ht hs hlt => ?_ }
    rcases List.mem_cons.mp hx with rfl | hx
    · have hb : h.last ≤ w.issued.length := ha.bound
      have hlt' : w.issued.length < h.last := hlt
      omega
    · exact ha.settled x hx ht hs hlt

/-- An operation that leaves the cache's keys alone. -/
theorem issue_respects (hi : Inv w) (t : Bool) (k : Key) (v : Option (Value χ M)) :
    Issues w (w.issue t k v) ∧ Inv (w.issue t k v) :=
  ⟨issue_issues w w.keys t k v, issue_inv hi w.keys t k v fun _ h hn => absurd h hn⟩

theorem write_respects (hi : Inv w) (name : String) (v : Value χ M) :
    Issues w (w.write name v) ∧ Inv (w.write name v) := by
  simp only [Node.write]
  split
  · split
    · exact issue_respects hi _ _ _
    · have hi' := issue_inv hi (w.keys ++ [name]) true .ldkKeysIndex
        (some (.index (w.keys ++ [name]))) fun _ _ _ => ⟨rfl, rfl, rfl⟩
      obtain ⟨hs, hi''⟩ := issue_respects hi' true (.kv name) (some v)
      exact ⟨(issue_issues w _ true .ldkKeysIndex _).trans hs, hi''⟩
  · exact ⟨.refl w, hi⟩

theorem remove_respects (hi : Inv w) (name : String) :
    Issues w (w.remove name) ∧ Inv (w.remove name) := by
  simp only [Node.remove]
  split
  · split
    · have hi' := issue_inv hi (w.keys.filter (· ≠ name)) true .ldkKeysIndex
        (some (.index (w.keys.filter (· ≠ name)))) fun _ _ _ => ⟨rfl, rfl, rfl⟩
      obtain ⟨hs, hi''⟩ := issue_respects hi' true (.kv name) none
      exact ⟨(issue_issues w _ true .ldkKeysIndex _).trans hs, hi''⟩
    · exact issue_respects hi _ _ _
  · exact ⟨.refl w, hi⟩

theorem call_respects (hi : Inv w) (c : KvCall χ M) : Issues w (w.call c) ∧ Inv (w.call c) := by
  cases c with
  | write name v => exact write_respects hi name v
  | remove name => exact remove_respects hi name

theorem callAll_respects (hi : Inv w) (calls : List (KvCall χ M)) :
    Issues w (w.callAll calls) ∧ Inv (w.callAll calls) := by
  induction calls generalizing w with
  | nil => exact ⟨.refl w, hi⟩
  | cons c calls ih =>
    obtain ⟨hs, hi'⟩ := call_respects hi c
    obtain ⟨hs', hi''⟩ := ih hi'
    exact ⟨hs.trans hs', hi''⟩

end LibreWallet.Persist
