import LibreWallet.Pwa.LeaseKeeper

/-
  Pwa/Reconciling.lean --- when the keeper holds the lease exactly while it should.
-/

set_option autoImplicit false

namespace LibreWallet.Pwa

open Async Roaming

variable {s s' : State} {k l m : Nat} {c c' : Call CallStage} {stage : CallStage}

/-! ## Calls under way -/

/-- A call of `release` has not stopped the heartbeat of `l` yet. -/
def State.Releasing (s : State) (l : Nat) : Prop :=
  ∃ (j : Nat) (c : Call CallStage), s.calls[j]? = some c ∧ c.lease = l ∧ c.stage = .releaseVersions

theorem call_put (hc : s.calls[k]? = some c) (j : Nat) :
    (s.put k c').calls[j]? = if j = k then some c' else s.calls[j]? := by
  have hk : k < s.calls.length := (List.getElem?_eq_some_iff.mp hc).1
  simp only [State.put, List.getElem?_set]
  by_cases hj : j = k
  · subst hj
    simp [hk]
  · simp [hj, Ne.symm hj]

theorem call_invoke (j : Nat) :
    (s.invoke l stage).calls[j]? =
      if j = s.calls.length then some { lease := l, stage } else s.calls[j]? := by
  simp only [State.invoke]
  by_cases hj : j = s.calls.length
  · simp [hj]
  · by_cases hlt : j < s.calls.length
    · rw [List.getElem?_append_left hlt, if_neg hj]
    · rw [if_neg hj, List.getElem?_eq_none (by simp; omega), List.getElem?_eq_none (by omega)]

theorem releasing_put_iff (hc : s.calls[k]? = some c) (hl : c'.lease = c.lease)
    (hs : c'.stage = .releaseVersions ↔ c.stage = .releaseVersions) :
    (s.put k c').Releasing m ↔ s.Releasing m := by
  constructor
  · rintro ⟨j, d, hd, hdl, hds⟩
    rw [call_put hc] at hd
    split at hd
    · cases hd
      exact ⟨k, c, hc, hl ▸ hdl, hs.mp hds⟩
    · exact ⟨j, d, hd, hdl, hds⟩
  · rintro ⟨j, d, hd, hdl, hds⟩
    by_cases hj : j = k
    · subst hj
      cases hc.symm.trans hd
      exact ⟨j, c', by rw [call_put hc, if_pos rfl], hl.trans hdl, hs.mpr hds⟩
    · exact ⟨j, d, by rw [call_put hc, if_neg hj, hd], hdl, hds⟩

/-- A call that leaves `releaseVersions` takes only its own lease object out. -/
theorem releasing_put_of_ne (hc : s.calls[k]? = some c) (hs : c'.stage ≠ .releaseVersions) :
    ((s.put k c').Releasing m → s.Releasing m) ∧
      (s.Releasing m → m ≠ c.lease → (s.put k c').Releasing m) := by
  constructor
  · rintro ⟨j, d, hd, hdl, hds⟩
    rw [call_put hc] at hd
    split at hd
    · cases hd
      exact absurd hds hs
    · exact ⟨j, d, hd, hdl, hds⟩
  · rintro ⟨j, d, hd, hdl, hds⟩ hne
    by_cases hj : j = k
    · subst hj
      cases hc.symm.trans hd
      exact absurd hdl.symm hne
    · exact ⟨j, d, by rw [call_put hc, if_neg hj, hd], hdl, hds⟩

theorem releasing_invoke :
    (s.invoke l stage).Releasing m ↔ s.Releasing m ∨ l = m ∧ stage = .releaseVersions := by
  constructor
  · rintro ⟨j, d, hd, hdl, hds⟩
    rw [call_invoke] at hd
    split at hd
    · cases hd
      exact .inr ⟨hdl, hds⟩
    · exact .inl ⟨j, d, hd, hdl, hds⟩
  · rintro (⟨j, d, hd, hdl, hds⟩ | ⟨rfl, hs⟩)
    · have hj : j < s.calls.length := (List.getElem?_eq_some_iff.mp hd).1
      exact ⟨j, d, by rw [call_invoke, if_neg (by omega), hd], hdl, hds⟩
    · exact ⟨s.calls.length, _, by rw [call_invoke, if_pos rfl], rfl, hs⟩

theorem StopPending.put (hc : s.calls[k]? = some c) (hp : s.StopPending (some k)) :
    (s.put k c').StopPending none := by
  obtain ⟨j, d, hj, hd, hreply, hstop⟩ := hp
  have hne : j ≠ k := fun h => hj (by rw [h])
  exact ⟨j, d, nofun, by rw [call_put hc, if_neg hne, hd], hreply, hstop⟩

/-- Call `k` is none of them, as it does not stop the node or has its answer. -/
theorem StopPending.others (hc : s.calls[k]? = some c)
    (hk : c.reply.isSome = true ∨ ∀ fence, c.stage.request ≠ .stopNode fence)
    (hp : s.StopPending none) : s.StopPending (some k) := by
  obtain ⟨j, d, -, hd, hreply, fence, hstop⟩ := hp
  refine ⟨j, d, fun h => ?_, hd, hreply, fence, hstop⟩
  cases h
  cases hc.symm.trans hd
  rcases hk with hsome | hno
  · rw [hreply] at hsome
    cases hsome
  · exact hno fence hstop

theorem StopPending.invoke {j : Option Nat} (hp : s.StopPending j) : (s.invoke l stage).StopPending j := by
  obtain ⟨i, d, hi, hd, hreply, hstop⟩ := hp
  have hlt : i < s.calls.length := (List.getElem?_eq_some_iff.mp hd).1
  exact ⟨i, d, hi, by rw [call_invoke, if_neg (by omega), hd], hreply, hstop⟩

theorem stopPending_invoke (hk : k < s.calls.length) {fence : Bool}
    (hs : stage.request = .stopNode fence) : (s.invoke l stage).StopPending (some k) :=
  ⟨s.calls.length, _, by simp; omega, by rw [call_invoke, if_pos rfl], rfl, fence, hs⟩

/-! ## What an await leads to -/

section

variable {ownerToken origin : String} {now : Nat} {a : Answer}

/-- Only `release` waits for its versions, and it goes on to stop the heartbeat. -/
theorem releaseVersions_or_not (ownerToken origin : String) (now : Nat) (stage : CallStage)
    (a : Answer) :
    (stage = .releaseVersions ∧ ∃ n₁ n₂, stage.next ownerToken origin now a = .releases n₁ n₂) ∨
      (stage ≠ .releaseVersions ∧ (∀ n₁ n₂, stage.next ownerToken origin now a ≠ .releases n₁ n₂) ∧
        ∀ stage', stage.next ownerToken origin now a = .awaits stage' → stage' ≠ .releaseVersions) := by
  cases stage with
  | releaseVersions => exact .inl ⟨rfl, _, _, rfl⟩
  | tickRead =>
    refine .inr ⟨nofun, ?_⟩
    cases a with
    | record r => cases hd : heartbeatDecision r ownerToken <;> simp [CallStage.next, hd]
    | _ => simp [CallStage.next]
  | tickVersion previous at_ => exact .inr ⟨nofun, by simp [CallStage.next]⟩
  | tickWrite r => cases a <;> exact .inr ⟨nofun, by simp [CallStage.next]⟩
  | fence f =>
    refine .inr ⟨nofun, ?_⟩
    cases hf : f.next ownerToken now a <;> simp [CallStage.next, hf]
  | releaseRead n₁ n₂ =>
    refine .inr ⟨nofun, ?_⟩
    rcases a with - | - | (- | r) | -
    case record.some =>
      by_cases hr : r.owner ≠ ownerToken <;> simp [CallStage.next, hr]
    all_goals simp [CallStage.next]
  | _ => exact .inr ⟨nofun, by simp [CallStage.next]⟩

theorem awaits_acquireWrite {stage : ClaimStage} {r : RoamingLeaseRecord}
    (h : stage.next ownerToken origin now a = .awaits (.acquireWrite r)) :
    r.owner = ownerToken ∧ r.phase = .live := by
  unfold ClaimStage.next at h
  split at h
  case h_5 =>
    simp only [ClaimNext.awaits.injEq, ClaimStage.acquireWrite.injEq] at h
    subst h
    exact ⟨rfl, rfl⟩
  all_goals first | cases h | (split at h <;> cases h)

/-- The settle delay follows the write, the settle read the delay, and the lease the read. -/
theorem written_of_next {d : Call ClaimStage} {next : ClaimNext} (ha : d.reply = some a)
    (h : d.stage.next ownerToken origin now a = next)
    (hn : next = .holds ∨ next = .awaits .settleDelay ∨ next = .awaits .settlePeek) :
    d.written = true := by
  subst h
  unfold Call.written
  cases hs : d.stage with
  | settleDelay => rfl
  | settlePeek => rfl
  | acquireWrite r =>
    cases a with
    | resolved => simp [ha]
    | _ => simp [ClaimStage.next, hs] at hn
  | fence f => cases hf : f.next ownerToken now a <;> simp [ClaimStage.next, hs, hf] at hn
  | peek | acquirePeek =>
    cases a with
    | record r => by_cases hr : leaseState r ownerToken now = .foreignLive <;>
        simp [ClaimStage.next, hs, hr] at hn
    | _ => simp [ClaimStage.next, hs] at hn
  | _ => cases a <;> simp [ClaimStage.next, hs] at hn

end

/-! ## The bookkeeping of the keeper -/

section

variable {token : Nat → String} {origin : String}

/-- There is one lease object at a time, and a heartbeat is that of the lease unless the release
that is to stop it is under way. -/
structure Kept (token : Nat → String) (s : State) : Prop where
  free : ∀ d, s.claim = some d → s.lease = none
  claimMade : ∀ d, s.claim = some d → d.lease < s.made
  leaseMade : ∀ l, s.lease = some l → l < s.made
  releasing : ∀ l, s.Releasing l →
    l < s.made ∧ s.lease ≠ some l ∧ ∀ d, s.claim = some d → d.lease ≠ l
  beats : ∀ l, s.lease = some l → (s.leases l).heartbeat = true
  armed : ∀ l, (s.leases l).heartbeat = true → s.lease = some l ∨ s.Releasing l
  own : ∀ d r, s.claim = some d → d.stage = .acquireWrite r →
    r.owner = token d.lease ∧ r.phase = .live

/-- What is not part of the bookkeeping may change. -/
theorem Kept.congr (h : Kept token s) (hlease : s'.lease = s.lease) (hmade : s'.made = s.made)
    (hbeat : ∀ l, (s'.leases l).heartbeat = (s.leases l).heartbeat)
    (hrel : ∀ l, s'.Releasing l ↔ s.Releasing l)
    (hclaim : ∀ d', s'.claim = some d' → ∃ d, s.claim = some d ∧ d'.lease = d.lease ∧
      ∀ r, d'.stage = .acquireWrite r → r.owner = token d.lease ∧ r.phase = .live) :
    Kept token s' where
  free := fun d' hd' => by
    obtain ⟨d, hd, -, -⟩ := hclaim d' hd'
    rw [hlease, h.free d hd]
  claimMade := fun d' hd' => by
    obtain ⟨d, hd, hl, -⟩ := hclaim d' hd'
    rw [hl, hmade]
    exact h.claimMade d hd
  leaseMade := fun l hl => hmade ▸ h.leaseMade l (hlease ▸ hl)
  releasing := fun l hl => by
    obtain ⟨hlt, hne, hd⟩ := h.releasing l ((hrel l).mp hl)
    refine ⟨hmade ▸ hlt, hlease ▸ hne, fun d' hd' => ?_⟩
    obtain ⟨d, hd₀, hdl, -⟩ := hclaim d' hd'
    rw [hdl]
    exact hd d hd₀
  beats := fun l hl => (hbeat l).trans (h.beats l (hlease ▸ hl))
  armed := fun l hl => by
    rw [hlease, hrel]
    exact h.armed l ((hbeat l).symm.trans hl)
  own := fun d' r hd' hr => by
    obtain ⟨d, hd, hl, hown⟩ := hclaim d' hd'
    rw [hl]
    exact hown r hr

/-- A heartbeat is stopped, and the lease, if there was one, was that object's. -/
theorem Kept.dropped (h : Kept token s) (hl : ∀ m, s.lease = some m → m = l)
    (hlease : s'.lease = none) (hmade : s'.made = s.made) (hclaim : s'.claim = s.claim)
    (hbeat : ∀ m, (s'.leases m).heartbeat = true → m ≠ l ∧ (s.leases m).heartbeat = true)
    (hrel : ∀ m, s'.Releasing m ↔ s.Releasing m) : Kept token s' where
  free := fun _ _ => hlease
  claimMade := fun d hd => hmade ▸ h.claimMade d (hclaim ▸ hd)
  leaseMade := fun m hm => absurd (hlease.symm.trans hm) nofun
  releasing := fun m hm => by
    obtain ⟨hlt, -, hd⟩ := h.releasing m ((hrel m).mp hm)
    exact ⟨hmade ▸ hlt, fun hs => absurd (hlease.symm.trans hs) nofun,
      fun d hd' => hd d (hclaim ▸ hd')⟩
  beats := fun m hm => absurd (hlease.symm.trans hm) nofun
  armed := fun m hm => by
    obtain ⟨hne, hm'⟩ := hbeat m hm
    rcases h.armed m hm' with hs | hr
    · exact absurd (hl m hs) hne
    · exact .inr ((hrel m).mpr hr)
  own := fun d r hd => h.own d r (hclaim ▸ hd)

theorem Kept.initial (connected : Bool) (file : Option RoamingLeaseRecord) :
    Kept token (State.initial connected file) where
  free := fun _ _ => rfl
  claimMade := fun d hd => by simp [State.initial] at hd
  leaseMade := fun l hl => by simp [State.initial] at hl
  releasing := fun l ⟨j, d, hd, _⟩ => by simp [State.initial] at hd
  beats := fun l hl => by simp [State.initial] at hl
  armed := fun l hl => by simp [State.initial] at hl
  own := fun d r hd => by simp [State.initial] at hd

theorem Kept.claimAndHeartbeat (h : Kept token s) : Kept token (claimAndHeartbeat s) := by
  unfold Pwa.claimAndHeartbeat
  split
  · exact h
  · rename_i hfree
    simp only [Bool.or_eq_true, not_or, Bool.not_eq_true, Option.isSome_eq_false_iff,
      Option.isNone_iff_eq_none] at hfree
    exact {
      free := fun _ _ => hfree.2
      claimMade := fun d hd => by
        cases hd
        exact Nat.lt_succ_self _
      leaseMade := fun l hl => absurd (hfree.2.symm.trans hl) nofun
      releasing := fun l hl => by
        have hlt : l < s.made := (h.releasing l hl).1
        refine ⟨Nat.lt_succ_of_lt hlt, (h.releasing l hl).2.1, fun d hd => ?_⟩
        cases hd
        exact Nat.ne_of_gt hlt
      beats := h.beats
      armed := h.armed
      own := fun d r hd hr => by
        cases hd
        cases hr }

theorem Kept.release (h : Kept token s) : Kept token (release s) := by
  unfold Pwa.release
  cases hs : s.lease with
  | none => exact h
  | some l =>
    have hclaim : s.claim = none := by
      cases hd : s.claim with
      | none => rfl
      | some d => exact absurd (hs.symm.trans (h.free d hd)) nofun
    have hrel : ∀ m, ({ s with lease := none }.invoke l .releaseVersions).Releasing m ↔
        s.Releasing m ∨ l = m := fun m => by
      rw [releasing_invoke]
      simp [State.Releasing]
    exact {
      free := fun _ _ => rfl
      claimMade := h.claimMade
      leaseMade := fun m hm => by cases hm
      releasing := fun m hm => by
        refine ⟨?_, fun hs => (by cases hs), fun d hd => absurd (hclaim.symm.trans hd) nofun⟩
        rcases (hrel m).mp hm with hm | rfl
        · exact (h.releasing m hm).1
        · exact h.leaseMade l hs
      beats := fun m hm => by cases hm
      armed := fun m hm => by
        refine .inr ((hrel m).mpr ?_)
        rcases h.armed m hm with hl | hm
        · exact .inr (Option.some.inj (hs.symm.trans hl))
        · exact .inl hm
      own := h.own }

theorem Kept.onEvent (h : Kept token s) : Kept token (onEvent s) := by
  unfold Pwa.onEvent
  split
  · split
    · exact h.claimAndHeartbeat
    · exact h
  · exact h.release

/-! ### Calls that go on -/

theorem heartbeat_modify {f : RoamingLease → RoamingLease} (hf : ∀ o, (f o).heartbeat = o.heartbeat)
    (m : Nat) : ((s.modify l f).leases m).heartbeat = (s.leases m).heartbeat := by
  simp only [State.modify, Function.update_apply]
  split
  · rename_i hm
    rw [hf, hm]
  · rfl

theorem heartbeat_stopHeartbeat :
    ((s.stopHeartbeat l).leases m).heartbeat = true ↔ m ≠ l ∧ (s.leases m).heartbeat = true := by
  simp only [State.stopHeartbeat, State.modify, Function.update_apply]
  split <;> simp_all

theorem call_invoke_of_call (hc : s.calls[k]? = some c) : (s.invoke l stage).calls[k]? = some c := by
  have hk : k < s.calls.length := (List.getElem?_eq_some_iff.mp hc).1
  rw [call_invoke, if_neg (by omega), hc]

theorem Kept.resumeClaim {d : Call ClaimStage} {a : Answer} (h : Kept token s)
    (hd : s.claim = some d) : Kept token (resumeClaim token origin d a s) := by
  unfold Pwa.resumeClaim
  cases hn : d.stage.next (token d.lease) origin s.clock a with
  | awaits stage =>
    refine h.congr rfl rfl (fun _ => rfl) (fun _ => Iff.rfl) fun d' hd' => ?_
    cases hd'
    refine ⟨d, hd, rfl, fun r hr => ?_⟩
    have hr : stage = .acquireWrite r := hr
    exact awaits_acquireWrite (hr ▸ hn)
  | ends => exact h.congr rfl rfl (fun _ => rfl) (fun _ => Iff.rfl) fun d' hd' => by cases hd'
  | holds =>
    have hnone : s.lease = none := h.free d hd
    exact {
      free := fun _ hd' => by simp [State.modify] at hd'
      claimMade := fun _ hd' => by simp [State.modify] at hd'
      leaseMade := fun l hl => by
        cases hl
        exact h.claimMade d hd
      releasing := fun l hl => by
        obtain ⟨hlt, -, hne⟩ := h.releasing l hl
        exact ⟨hlt, fun hs => hne d hd (Option.some.inj hs), fun _ hd' => by simp [State.modify] at hd'⟩
      beats := fun l hl => by
        cases hl
        simp [State.modify]
      armed := fun l hl => by
        by_cases hld : l = d.lease
        · exact .inl (by rw [hld]; rfl)
        · simp only [State.modify, Function.update_of_ne hld] at hl
          exact .inr ((h.armed l hl).resolve_left fun hs => absurd (hnone.symm.trans hs) nofun)
      own := fun _ _ hd' => by simp [State.modify] at hd' }

/-- A call goes on, and nothing of the bookkeeping changes with it. -/
theorem Kept.put (h : Kept token s) (hc : s.calls[k]? = some c) (hl : c'.lease = c.lease)
    (hs : c'.stage = .releaseVersions ↔ c.stage = .releaseVersions) : Kept token (s.put k c') :=
  h.congr rfl rfl (fun _ => rfl) (fun _ => releasing_put_iff hc hl hs)
    fun d hd => ⟨d, hd, rfl, fun r hr => h.own d r hd hr⟩

theorem Kept.modify {f : RoamingLease → RoamingLease} (h : Kept token s)
    (hf : ∀ o, (f o).heartbeat = o.heartbeat) : Kept token (s.modify l f) :=
  h.congr rfl rfl (heartbeat_modify hf) (fun _ => Iff.rfl) fun d hd => ⟨d, hd, rfl, fun r hr => h.own d r hd hr⟩

theorem Kept.invoke (h : Kept token s) (hs : stage ≠ .releaseVersions) :
    Kept token (s.invoke l stage) :=
  h.congr rfl rfl (fun _ => rfl) (fun _ => releasing_invoke.trans (by simp [hs]))
    fun d hd => ⟨d, hd, rfl, fun r hr => h.own d r hd hr⟩

theorem Kept.evicted (h : Kept token s) (hl : ∀ m, s.lease = some m → m = l) :
    Kept token (onEvicted (s.stopHeartbeat l)) := by
  unfold onEvicted
  cases hs : (s.stopHeartbeat l).lease with
  | none =>
    exact h.dropped hl hs rfl rfl (fun m => heartbeat_stopHeartbeat.mp) fun _ => Iff.rfl
  | some m =>
    refine Kept.invoke ?_ nofun
    exact h.dropped hl rfl rfl rfl (fun m => heartbeat_stopHeartbeat.mp) fun _ => Iff.rfl

theorem Kept.noteFailure (h : Kept token s)
    (hl : outage s l = true → ∀ m, s.lease = some m → m = l) : Kept token (noteFailure l s) := by
  unfold Pwa.noteFailure
  have hnoted := h.modify (l := l)
    (f := fun o => { o with firstFailureAt := some (o.firstFailureAt.getD s.clock) }) fun _ => rfl
  split
  · rename_i hout
    refine Kept.invoke ?_ nofun
    refine (hnoted.modify (l := l) (f := fun o => { o with fenced := true }) fun _ => rfl).dropped
      (hl hout) rfl rfl rfl (fun m => heartbeat_stopHeartbeat.mp) fun _ => Iff.rfl
  · exact hnoted

/-- What becomes of the list of calls before call `k` itself goes on. -/
theorem call_onEvicted (hc : s.calls[k]? = some c) : (onEvicted s).calls[k]? = some c := by
  unfold onEvicted
  split
  · exact hc
  · exact call_invoke_of_call hc

theorem call_noteFailure (hc : s.calls[k]? = some c) : (noteFailure l s).calls[k]? = some c := by
  unfold noteFailure
  split
  · exact call_invoke_of_call hc
  · exact hc

theorem Kept.resumeCall {a : Answer} (h : Kept token s) (hc : s.calls[k]? = some c)
    (hevicted : c.stage.next (token c.lease) origin s.clock a = .evicted →
      ∀ l, s.lease = some l → l = c.lease)
    (hfailed : c.stage.next (token c.lease) origin s.clock a = .failed → outage s c.lease = true →
      ∀ l, s.lease = some l → l = c.lease) : Kept token (resumeCall token origin k c a s) := by
  unfold Pwa.resumeCall
  rcases releaseVersions_or_not (token c.lease) origin s.clock c.stage a with ⟨hstage, n₁, n₂, hn⟩ | ⟨hstage, hno, hawaits⟩
  · simp only [hn]
    have hne : ({ lease := c.lease, stage := .releaseRead n₁ n₂ } : Call CallStage).stage ≠
        .releaseVersions := nofun
    have hrel := fun m => releasing_put_of_ne (m := m) hc hne
    have hown : s.Releasing c.lease := ⟨k, c, hc, rfl, hstage⟩
    exact {
      free := h.free
      claimMade := h.claimMade
      leaseMade := h.leaseMade
      releasing := fun m hm => h.releasing m ((hrel m).1 hm)
      beats := fun m hm => by
        refine heartbeat_stopHeartbeat.mpr ⟨fun hml => ?_, h.beats m hm⟩
        exact (h.releasing c.lease hown).2.1 (hml ▸ hm)
      armed := fun m hm => by
        obtain ⟨hne, hm⟩ := heartbeat_stopHeartbeat.mp hm
        rcases h.armed m hm with hl | hr
        · exact .inl hl
        · exact .inr ((hrel m).2 hr hne)
      own := h.own }
  · cases hn : c.stage.next (token c.lease) origin s.clock a with
    | awaits stage =>
      exact h.put hc rfl ⟨fun hs => absurd hs (hawaits stage hn), fun hs => absurd hs hstage⟩
    | renewed =>
      exact Kept.put (h.modify fun _ => rfl) hc rfl ⟨nofun, fun hs => absurd hs hstage⟩
    | failed =>
      exact (h.noteFailure (hfailed hn)).put (call_noteFailure hc) rfl
        ⟨nofun, fun hs => absurd hs hstage⟩
    | evicted =>
      exact (h.evicted (hevicted hn)).put (call_onEvicted hc) rfl
        ⟨nofun, fun hs => absurd hs hstage⟩
    | releases n₁ n₂ => exact absurd hn (hno n₁ n₂)

/-! ## The keeper reconciles -/

/-- What holds in every state of a careful run. -/
structure Inv (token : Nat → String) (s : State) : Prop extends Kept token s where
  /-- A lease that is held is wanted, or an event is due that releases it. -/
  held : ∀ l, s.lease = some l → s.wanted = true ∨ 0 < s.due
  /-- Where nothing is held or claimed, none is wanted, or an event or a stop is to come. -/
  owed : s.lease = none → s.claim = none → s.Covered none
  shown : ∀ l, s.Placed l → ∀ r, s.file = some r → Shows token l r

/-- The surroundings change: an event tells the keeper when its lease may be wanted or not. -/
theorem Inv.around (h : Inv token s) {running connected fenced : Bool} {due clock : Nat}
    {file : Option RoamingLeaseRecord}
    (hdue : 0 < due ∨ due = s.due ∧ (running && connected) = s.wanted)
    (hfile : ∀ l, s.Placed l → ∀ r, file = some r → Shows token l r) :
    Inv token { s with running, connected, due, fenced, clock, file } where
  toKept := h.congr rfl rfl (fun _ => rfl) (fun _ => Iff.rfl)
    fun d hd => ⟨d, hd, rfl, fun r hr => h.own d r hd hr⟩
  held := fun l hl => by
    rcases hdue with hpos | ⟨rfl, hw⟩
    · exact .inr hpos
    · rcases h.held l hl with hwanted | hpos
      · exact .inl (hw.trans hwanted)
      · exact .inr hpos
  owed := fun hl hd hw => by
    rcases hdue with hpos | ⟨rfl, hw'⟩
    · exact .inl hpos
    · exact h.owed hl hd (hw'.symm.trans hw)
  shown := hfile

theorem Inv.nodeStops (h : Inv token s) (fence : Bool) : Inv token (s.nodeStops fence) := by
  unfold State.nodeStops
  split
  · exact h.around (.inl (Nat.succ_pos _)) h.shown
  · exact h

theorem Inv.release (h : Kept token s) (hr : s.running = false)
    (hshown : ∀ l, s.Placed l → ∀ r, s.file = some r → Shows token l r) : Inv token (release s) := by
  have hw : s.wanted = false := by simp [State.wanted, hr]
  have hkept := h.release
  unfold Pwa.release at hkept ⊢
  cases hs : s.lease with
  | none =>
    exact { toKept := h, held := fun l hl => absurd (hs.symm.trans hl) nofun
            owed := fun _ _ hw' => absurd (hw.symm.trans hw') nofun, shown := hshown }
  | some l =>
    rw [hs] at hkept
    exact {
      toKept := hkept
      held := fun _ => nofun
      owed := fun _ _ hw' => absurd (hw.symm.trans hw') nofun
      shown := fun m hm r hr' => by
        rcases hm with hm | hm
        · cases hm
        · exact hshown m (.inr hm) r hr' }

theorem Inv.claimAndHeartbeat (h : Kept token s) (hw : s.wanted = true)
    (hshown : ∀ l, s.Placed l → ∀ r, s.file = some r → Shows token l r) :
    Inv token (claimAndHeartbeat s) := by
  have hkept := h.claimAndHeartbeat
  unfold Pwa.claimAndHeartbeat at hkept ⊢
  split
  · rename_i hsome
    refine { toKept := h, held := fun _ _ => .inl hw, owed := fun hl hd => ?_, shown := hshown }
    rw [hl, hd] at hsome
    cases hsome
  · rename_i hfree
    rw [if_neg hfree] at hkept
    simp only [Bool.or_eq_true, not_or, Bool.not_eq_true, Option.isSome_eq_false_iff,
      Option.isNone_iff_eq_none] at hfree
    refine { toKept := hkept, held := fun _ _ => .inl hw, owed := fun _ => nofun, shown := ?_ }
    rintro m (hm | ⟨d, hd, -, hwritten⟩)
    · exact absurd (hfree.2.symm.trans hm) nofun
    · cases hd
      cases hwritten

theorem Inv.onEvent (h : Inv token s)
    (hc : s.running = true → s.connected = false → s.lease.isSome = true → 1 < s.due) :
    Inv token (onEvent { s with due := s.due - 1 }) := by
  have hk : Kept token { s with due := s.due - 1 } :=
    h.congr rfl rfl (fun _ => rfl) (fun _ => Iff.rfl)
      fun d hd => ⟨d, hd, rfl, fun r hr => h.own d r hd hr⟩
  unfold Pwa.onEvent
  split
  · rename_i hr
    split
    · rename_i hconn
      exact Inv.claimAndHeartbeat hk (by rw [State.wanted, hr, hconn]; rfl) h.shown
    · rename_i hconn
      rw [Bool.not_eq_true] at hconn
      refine { toKept := hk, held := fun l hl => .inr ?_, owed := fun _ _ hw => ?_, shown := h.shown }
      · have hlt : 1 < s.due := hc hr hconn (by rw [show s.lease = some l from hl]; rfl)
        exact Nat.sub_pos_of_lt hlt
      · rw [State.wanted, hconn, Bool.and_false] at hw
        cases hw
  · rename_i hr
    exact Inv.release hk (Bool.not_eq_true _ ▸ hr) h.shown

/-! ### Answers -/

/-- A write lands, the node stops, or nothing happens outside. -/
theorem answer_cases (s : State) (q : Request) (o : Outcome) :
    (∃ r, q = .writeFile r ∧ o ≠ .rejects false ∧ (answer s q o).2 = { s with file := some r }) ∨
      (∃ fence n₁ n₂, q = .stopNode fence ∧ o = .resolves n₁ n₂ ∧
        (answer s q o).2 = s.nodeStops fence) ∨
      ((answer s q o).2 = s ∧ (∀ r, q = .writeFile r → (answer s q o).1 = .rejected) ∧
        ∀ fence, q = .stopNode fence → ∃ landed, o = .rejects landed) := by
  cases q with
  | writeFile r =>
    rcases o with ⟨n₁, n₂⟩ | (- | -)
    · exact .inl ⟨r, rfl, nofun, rfl⟩
    · exact .inr (.inr ⟨rfl, fun _ _ => rfl, nofun⟩)
    · exact .inl ⟨r, rfl, nofun, rfl⟩
  | stopNode fence =>
    cases o with
    | resolves n₁ n₂ => exact .inr (.inl ⟨fence, n₁, n₂, rfl, rfl, rfl⟩)
    | rejects landed => exact .inr (.inr ⟨rfl, nofun, fun _ _ => ⟨landed, rfl⟩⟩)
  | _ => cases o <;> exact .inr (.inr ⟨rfl, nofun, nofun⟩)

theorem nodeStops_keeper (s : State) (fence : Bool) :
    (s.nodeStops fence).claim = s.claim ∧ (s.nodeStops fence).calls = s.calls ∧
      (s.nodeStops fence).wanted = false := by
  unfold State.nodeStops
  cases hr : s.running <;> simp [State.wanted, hr]

theorem answer_keeper (s : State) (q : Request) (o : Outcome) :
    (answer s q o).2.claim = s.claim ∧ (answer s q o).2.calls = s.calls := by
  rcases answer_cases s q o with ⟨r, -, -, ht⟩ | ⟨fence, n₁, n₂, -, -, ht⟩ | ⟨ht, -⟩
  · rw [ht]
    exact ⟨rfl, rfl⟩
  · rw [ht]
    exact ⟨(nodeStops_keeper s fence).1, (nodeStops_keeper s fence).2.1⟩
  · rw [ht]
    exact ⟨rfl, rfl⟩

theorem Inv.answered (h : Inv token s) {q : Request} {o : Outcome}
    (hfile : ∀ r, q = .writeFile r → o ≠ .rejects false → ∀ l, s.Placed l → Shows token l r) :
    Inv token (answer s q o).2 := by
  rcases answer_cases s q o with ⟨r, hq, ho, ht⟩ | ⟨fence, n₁, n₂, -, -, ht⟩ | ⟨ht, -⟩
  · rw [ht]
    refine h.around (.inr ⟨rfl, rfl⟩) fun l hl r' hr' => ?_
    cases hr'
    exact hfile r hq ho l hl
  · rw [ht]
    exact h.nodeStops fence
  · rw [ht]
    exact h

/-- The claim has its answer, or goes on. -/
theorem Inv.claiming (h : Inv token s) {d d' : Call ClaimStage} (hd : s.claim = some d)
    (hl : d'.lease = d.lease)
    (hown : ∀ r, d'.stage = .acquireWrite r → r.owner = token d.lease ∧ r.phase = .live)
    (hwritten : d'.written = true → ∀ r, s.file = some r → Shows token d.lease r) :
    Inv token { s with claim := some d' } where
  toKept := h.congr rfl rfl (fun _ => rfl) (fun _ => Iff.rfl) fun e he => by
    cases he
    exact ⟨d, hd, hl, hown⟩
  held := h.held
  owed := fun _ => nofun
  shown := fun l hl' r hr => by
    rcases hl' with hl' | ⟨e, he, hel, hew⟩
    · exact h.shown l (.inl hl') r hr
    · cases he
      rw [← hel, hl]
      exact hwritten hew r hr

/-- Call `k` has its answer, or goes on. -/
theorem Inv.put (h : Inv token s) (hc : s.calls[k]? = some c) (hl : c'.lease = c.lease)
    (hs : c'.stage = .releaseVersions ↔ c.stage = .releaseVersions)
    (howed : s.lease = none → s.claim = none → s.Covered (some k)) : Inv token (s.put k c') where
  toKept := h.toKept.put hc hl hs
  held := h.held
  owed := fun hnone hclaim hw => (howed hnone hclaim hw).imp_right (StopPending.put hc)
  shown := h.shown

theorem Inv.answerClaim (h : Inv token s) {d : Call ClaimStage} (hd : s.claim = some d)
    (hreply : d.reply = none) (o : Outcome) :
    Inv token { (answer s d.stage.request o).2 with
      claim := some { d with reply := some (answer s d.stage.request o).1 } } := by
  have hwritten : ∀ r, d.stage.request = .writeFile r → d.written = false := fun r hr => by
    unfold Call.written
    cases hs : d.stage <;> simp_all [ClaimStage.request]
  have ht : Inv token (answer s d.stage.request o).2 := h.answered fun r hr _ l hl => by
    rcases hl with hl | ⟨e, he, -, hew⟩
    · exact absurd ((h.free d hd).symm.trans hl) nofun
    · cases hd.symm.trans he
      rw [hwritten r hr] at hew
      cases hew
  refine ht.claiming ((answer_keeper s _ o).1.trans hd) rfl (fun r hr => h.own d r hd hr) ?_
  intro hw r hr
  cases hs : d.stage with
  | acquireWrite r' =>
    have hown := h.own d r' hd hs
    have hreq : d.stage.request = .writeFile r' := by rw [hs]; rfl
    rcases answer_cases s d.stage.request o with ⟨r'', hq, -, ht'⟩ | ⟨_, _, _, hq, -⟩ | ⟨-, hrej, -⟩
    · rw [ht'] at hr
      cases hr
      cases hreq.symm.trans hq
      exact .inl hown
    · exact absurd (hreq.symm.trans hq) nofun
    · have hrej := hrej r' hreq
      rw [hs] at hrej
      simp [Call.written, hs, hrej] at hw
  | settleDelay | settlePeek =>
    refine ht.shown d.lease (.inr ⟨d, (answer_keeper s _ o).1.trans hd, rfl, ?_⟩) r hr
    simp [Call.written, hs]
  | _ => simp [Call.written, hs] at hw

theorem Inv.answerCall (h : Inv token s) (hc : s.calls[k]? = some c) (o : Outcome)
    (hfile : ∀ r, c.stage.request = .writeFile r → o ≠ .rejects false →
      ∀ l, s.Placed l → Shows token l r)
    (hstop : ∀ fence landed, c.stage.request = .stopNode fence → o = .rejects landed →
      s.lease = none → s.claim = none → s.Covered (some k)) :
    Inv token ((answer s c.stage.request o).2.put k
      { c with reply := some (answer s c.stage.request o).1 }) := by
  have ht : Inv token (answer s c.stage.request o).2 := h.answered hfile
  have hc' : (answer s c.stage.request o).2.calls[k]? = some c := by
    rw [(answer_keeper s c.stage.request o).2, hc]
  refine ht.put hc' rfl Iff.rfl fun hnone hclaim => ?_
  rcases answer_cases s c.stage.request o with ⟨r, hq, -, ht'⟩ | ⟨fence, _, _, -, -, ht'⟩ | ⟨ht', -, hrej⟩
  · intro hw
    refine (ht.owed hnone hclaim hw).imp_right fun hp => ?_
    exact StopPending.others hc' (.inr fun fence hf => absurd (hq.symm.trans hf) nofun) hp
  · intro hw
    rw [ht', (nodeStops_keeper s fence).2.2] at hw
    cases hw
  · rw [ht'] at hnone hclaim ⊢
    by_cases hf : ∃ fence, c.stage.request = .stopNode fence
    · obtain ⟨fence, hf⟩ := hf
      obtain ⟨landed, ho⟩ := hrej fence hf
      exact hstop fence landed hf ho hnone hclaim
    · intro hw
      exact (h.owed hnone hclaim hw).imp_right
        (StopPending.others hc (.inr fun fence hf' => hf ⟨fence, hf'⟩))

/-! ### Steps -/

theorem Inv.resumeClaim {d : Call ClaimStage} {a : Answer} (h : Inv token s) (hd : s.claim = some d)
    (ha : d.reply = some a)
    (hholds : d.stage.next (token d.lease) origin s.clock a = .holds → s.wanted = true ∨ 0 < s.due)
    (hends : d.stage.next (token d.lease) origin s.clock a = .ends → s.Covered none) :
    Inv token (resumeClaim token origin d a s) := by
  have hkept : Kept token (Pwa.resumeClaim token origin d a s) := h.toKept.resumeClaim hd
  unfold Pwa.resumeClaim at hkept ⊢
  cases hn : d.stage.next (token d.lease) origin s.clock a with
  | awaits stage =>
    refine h.claiming hd rfl (fun r hr => ?_) fun hw => ?_
    · have hr : stage = .acquireWrite r := hr
      exact awaits_acquireWrite (hr ▸ hn)
    · refine h.shown d.lease (.inr ⟨d, hd, rfl, ?_⟩)
      refine written_of_next ha hn ?_
      cases stage <;> simp [Call.written] at hw ⊢
  | ends =>
    rw [hn] at hkept
    exact {
      toKept := hkept
      held := h.held
      owed := fun _ _ => hends hn
      shown := fun l hl => by
        rcases hl with hl | ⟨e, he, -⟩
        · exact h.shown l (.inl hl)
        · cases he }
  | holds =>
    rw [hn] at hkept
    exact {
      toKept := hkept
      held := fun _ _ => hholds hn
      owed := fun hl => by simp [State.modify] at hl
      shown := fun l hl => by
        rcases hl with hl | ⟨e, he, -⟩
        · cases hl
          exact h.shown d.lease (.inr ⟨d, hd, rfl, written_of_next ha hn (.inl rfl)⟩)
        · simp [State.modify] at he }

/-- The surroundings are left, and the lease is given up only with the node. -/
def Leaves (s s' : State) (k : Option Nat) (calls : List (Call CallStage)) : Prop :=
  s'.claim = s.claim ∧ s'.file = s.file ∧ s'.wanted = s.wanted ∧ s'.due = s.due ∧
    ((s'.lease = s.lease ∧ s'.calls = calls) ∨ (s'.lease = none ∧ s'.StopPending k))

theorem leaves_noteFailure (hk : k < s.calls.length) :
    Leaves s (noteFailure l s) (some k) s.calls := by
  unfold noteFailure
  split
  · refine ⟨rfl, rfl, rfl, rfl, .inr ⟨rfl, ?_⟩⟩
    exact stopPending_invoke hk rfl
  · exact ⟨rfl, rfl, rfl, rfl, .inl ⟨rfl, rfl⟩⟩

theorem leaves_onEvicted (hk : k < s.calls.length) : Leaves s (onEvicted s) (some k) s.calls := by
  unfold onEvicted
  split
  · exact ⟨rfl, rfl, rfl, rfl, .inl ⟨rfl, rfl⟩⟩
  · refine ⟨rfl, rfl, rfl, rfl, .inr ⟨rfl, ?_⟩⟩
    exact stopPending_invoke hk rfl

theorem Leaves.put (h : Leaves s s' (some k) s.calls) (hc : s'.calls[k]? = some c) :
    Leaves s (s'.put k c') none (s.calls.set k c') := by
  obtain ⟨hclaim, hfile, hwanted, hdue, ⟨hlease, hcalls⟩ | ⟨hlease, hp⟩⟩ := h
  · exact ⟨hclaim, hfile, hwanted, hdue, .inl ⟨hlease, by rw [← hcalls]; rfl⟩⟩
  · exact ⟨hclaim, hfile, hwanted, hdue, .inr ⟨hlease, StopPending.put hc hp⟩⟩

theorem leaves_resumeCall {a : Answer} (hc : s.calls[k]? = some c) :
    ∃ c', Leaves s (resumeCall token origin k c a s) none (s.calls.set k c') := by
  have hk : k < s.calls.length := (List.getElem?_eq_some_iff.mp hc).1
  unfold Pwa.resumeCall
  cases hn : c.stage.next (token c.lease) origin s.clock a with
  | awaits stage => exact ⟨_, rfl, rfl, rfl, rfl, .inl ⟨rfl, rfl⟩⟩
  | renewed => exact ⟨_, rfl, rfl, rfl, rfl, .inl ⟨rfl, rfl⟩⟩
  | releases n₁ n₂ => exact ⟨_, rfl, rfl, rfl, rfl, .inl ⟨rfl, rfl⟩⟩
  | failed => exact ⟨_, (leaves_noteFailure hk).put (call_noteFailure hc)⟩
  | evicted =>
    have hl : Leaves s (onEvicted (s.stopHeartbeat c.lease)) (some k) s.calls :=
      leaves_onEvicted (s := s.stopHeartbeat c.lease) hk
    exact ⟨_, hl.put (call_onEvicted hc)⟩

theorem Inv.resumeCall {a : Answer} (h : Inv token s) (hc : s.calls[k]? = some c)
    (ha : c.reply = some a)
    (hevicted : c.stage.next (token c.lease) origin s.clock a = .evicted →
      ∀ l, s.lease = some l → l = c.lease)
    (hfailed : c.stage.next (token c.lease) origin s.clock a = .failed → outage s c.lease = true →
      ∀ l, s.lease = some l → l = c.lease) : Inv token (resumeCall token origin k c a s) := by
  have hkept := h.toKept.resumeCall hc hevicted hfailed
  generalize hs' : Pwa.resumeCall token origin k c a s = s' at hkept ⊢
  obtain ⟨c', hleaves⟩ : ∃ c', Leaves s (Pwa.resumeCall token origin k c a s) none
      (s.calls.set k c') := leaves_resumeCall hc
  rw [hs'] at hleaves
  obtain ⟨hclaim, hfile, hwanted, hdue, heffect⟩ := hleaves
  refine { toKept := hkept, held := fun l hl => ?_, owed := fun hl hd hw => ?_, shown := ?_ }
  · rw [hwanted, hdue]
    rcases heffect with ⟨hlease, -⟩ | ⟨hlease, -⟩
    · exact h.held l (hlease ▸ hl)
    · exact absurd (hlease.symm.trans hl) nofun
  · rw [hdue]
    rcases heffect with ⟨hlease, hcalls⟩ | ⟨-, hp⟩
    · refine (h.owed (hlease ▸ hl) (hclaim ▸ hd) (hwanted ▸ hw)).imp_right fun hp => ?_
      have hput : (s.put k c').StopPending none :=
        StopPending.put hc (StopPending.others hc (.inl (by rw [ha]; rfl)) hp)
      unfold State.StopPending State.put at hput
      unfold State.StopPending
      rw [hcalls]
      exact hput
    · exact .inr hp
  · rintro l (hl | hl) r hr
    · rcases heffect with ⟨hlease, -⟩ | ⟨hlease, -⟩
      · exact h.shown l (.inl (hlease ▸ hl)) r (hfile ▸ hr)
      · exact absurd (hlease.symm.trans hl) nofun
    · exact h.shown l (.inr (hclaim ▸ hl)) r (hfile ▸ hr)

theorem Inv.tick (h : Inv token s) (l : Nat) : Inv token (s.invoke l .tickRead) where
  toKept := h.toKept.invoke nofun
  held := h.held
  owed := fun hl hd hw => (h.owed hl hd hw).imp_right StopPending.invoke
  shown := h.shown

theorem Inv.step {act : Action} (h : Inv token s) (hc : Careful token origin act s)
    (hs : step token origin act s = some s') : Inv token s' := by
  cases act with
  | start =>
    simp only [Pwa.step, Option.ite_none_left_eq_some, Option.some.injEq] at hs
    obtain ⟨-, rfl⟩ := hs
    exact h.around (.inl (Nat.succ_pos _)) h.shown
  | stop =>
    simp only [Pwa.step, Option.ite_none_right_eq_some, Option.some.injEq] at hs
    obtain ⟨-, rfl⟩ := hs
    exact h.nodeStops false
  | drive connected =>
    cases hs
    exact h.around (.inl (Nat.succ_pos _)) h.shown
  | notify =>
    cases hs
    exact h.around (.inl (Nat.succ_pos _)) h.shown
  | advance ms =>
    cases hs
    exact h.around (.inr ⟨rfl, rfl⟩) h.shown
  | foreign file =>
    cases hs
    exact h.around (.inr ⟨rfl, rfl⟩) fun l _ r hr => .inr (hc r hr)
  | onEvent =>
    simp only [Pwa.step, Option.ite_none_left_eq_some, Option.some.injEq] at hs
    obtain ⟨-, rfl⟩ := hs
    exact h.onEvent hc
  | tick l =>
    simp only [Pwa.step, Option.ite_none_right_eq_some, Option.some.injEq] at hs
    obtain ⟨-, rfl⟩ := hs
    split
    · exact h
    · exact h.tick l
  | answerClaim o =>
    cases hd : s.claim with
    | none => simp [Pwa.step, hd] at hs
    | some d =>
      simp only [Pwa.step, hd, Option.ite_none_left_eq_some, Option.some.injEq, Bool.not_eq_true,
        Option.isSome_eq_false_iff, Option.isNone_iff_eq_none] at hs
      obtain ⟨hreply, rfl⟩ := hs
      exact h.answerClaim hd hreply o
  | resumeClaim =>
    cases hd : s.claim with
    | none => simp [Pwa.step, hd] at hs
    | some d =>
      simp only [Pwa.step, hd, Option.map_eq_some_iff] at hs
      obtain ⟨a, ha, rfl⟩ := hs
      have hca := hc d a hd ha
      exact h.resumeClaim hd ha (fun hn => by simpa [hn] using hca) fun hn => by simpa [hn] using hca
  | answerCall k o =>
    cases hk : s.calls[k]? with
    | none => simp [Pwa.step, hk] at hs
    | some c =>
      simp only [Pwa.step, hk, Option.ite_none_left_eq_some, Option.some.injEq] at hs
      obtain ⟨-, rfl⟩ := hs
      have hcc := hc c hk
      refine h.answerCall hk o (fun r hr ho => ?_) fun fence landed hf ho => ?_
      · rw [hr] at hcc
        rcases o with ⟨n₁, n₂⟩ | (- | -)
        · exact hcc
        · exact absurd rfl ho
        · exact hcc
      · rw [hf, ho] at hcc
        exact hcc
  | resumeCall k =>
    cases hk : s.calls[k]? with
    | none => simp [Pwa.step, hk] at hs
    | some c =>
      simp only [Pwa.step, hk, Option.map_eq_some_iff] at hs
      obtain ⟨a, ha, rfl⟩ := hs
      have hcc := hc c a hk ha
      exact h.resumeCall hk ha (fun hn => by simpa [hn] using hcc) fun hn => by simpa [hn] using hcc

theorem Inv.initial (connected : Bool) (file : Option RoamingLeaseRecord) :
    Inv token (State.initial connected file) where
  toKept := .initial connected file
  held := fun l hl => by simp [State.initial] at hl
  owed := fun _ _ hw => by simp [State.initial, State.wanted] at hw
  shown := fun l hl => by simp [State.initial, State.Placed] at hl

end

/-! ## The two ends of a claim -/

/-- The token of each lease object. -/
def tokenOf (k : Nat) : String := String.ofList (List.replicate k 'x')

/-- What is awaited is answered, and the claim goes on. -/
def awaited : List Action := [.answerClaim (.resolves 12 12), .resumeClaim]

/-- The node starts, and the keeper claims up to the settle delay. -/
def claims : List Action :=
  [.start, .onEvent] ++ awaited ++ awaited ++ awaited ++ awaited ++ awaited

/-- No event and no call is pending, and lease object 0 holds the lease and heartbeats it. -/
def heldAtRest (s : State) : Bool :=
  s.due = 0 && s.claim.isNone && s.calls.isEmpty && s.lease = some 0 && (s.leases 0).heartbeat &&
    s.file.any fun r => r.owner = tokenOf 0 && r.phase = .live

theorem of_heldAtRest (h : heldAtRest s = true) : s.Quiescent ∧ s.Holds tokenOf := by
  simp only [heldAtRest, Bool.and_eq_true, decide_eq_true_eq, Option.isNone_iff_eq_none,
    List.isEmpty_iff, Option.any_eq_true] at h
  obtain ⟨⟨⟨⟨⟨hdue, hclaim⟩, hcalls⟩, hlease⟩, hbeat⟩, r, hr, hown⟩ := h
  refine ⟨⟨hdue, hclaim, by simp [hcalls]⟩, 0, hlease, hbeat, fun r' hr' => ?_⟩
  cases hr.symm.trans hr'
  exact .inl hown

/-- The steps of a claim that succeeds, with nothing else going on. -/
def undisturbed (act : Action) (s : State) : Bool :=
  match act with
  | .start | .answerClaim _ => true
  | .onEvent => s.lease.isNone
  | .resumeClaim => s.wanted && s.claim.all fun c => c.reply.all fun a =>
      c.stage.next (tokenOf c.lease) "https://pwa.example" s.clock a ≠ .ends
  | _ => false

theorem careful_of_undisturbed {act : Action} (h : undisturbed act s = true) :
    Careful tokenOf "https://pwa.example" act s := by
  cases act with
  | start | answerClaim o => trivial
  | onEvent =>
    intro _ _ hsome
    simp only [undisturbed, Option.isNone_iff_eq_none] at h
    rw [h] at hsome
    cases hsome
  | resumeClaim =>
    simp only [undisturbed, Bool.and_eq_true] at h
    intro c a hc ha
    have hne := h.2
    rw [hc, Option.all_some, ha, Option.all_some, decide_eq_true_eq] at hne
    cases hn : c.stage.next (tokenOf c.lease) "https://pwa.example" s.clock a with
    | awaits stage => trivial
    | holds => exact .inl h.1
    | ends => exact absurd hn hne
  | _ => cases h

end LibreWallet.Pwa
