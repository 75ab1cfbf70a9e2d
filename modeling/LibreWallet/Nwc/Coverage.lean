import LibreWallet.Nwc.RelayManager

/-
  Nwc/Coverage.lean --- which relays the manager listens to.

  `Handles` is what the handles of the manager (Nwc/RelayManager.lean) say of what is
  open, `Paid` that a relay which is owed is covered; every sound step keeps both.
-/

set_option autoImplicit false

namespace LibreWallet.Nwc.Coverage

open Async Nostr

/-! ## The handles -/

/-- The handles of the manager and what is open agree, one relay at a time. -/
structure Handles (m : Manager) : Prop where
  handles : ∀ s url, m.net.Open s url →
    m.subs url = some s ∧ (m.relays url).isSome = true ∧ ∀ c ∈ m.connects, c.url ≠ url
  topics : ∀ url s, m.subs url = some s → ∃ sub, m.net.subscriptions[s]? = some sub ∧ sub.topic = url
  relays : ∀ url r, m.relays url = some r →
    (∃ c ∈ m.connects, c.url = url ∧ c.relay = some r) ∨ ∃ s, m.net.Open s url
  single : (m.connects.map (·.url)).Nodup
  connecting : ∀ c ∈ m.connects, c.relay = none → m.relays c.url = none
  publishing : ∀ c ∈ m.connects, ∀ r, c.relay = some r →
    (∃ b, m.net.connections[r]? = some ⟨c.url, b⟩) ∧
      (m.relays c.url = some r ∨ m.relays c.url = none ∧ m.net.connected r = false)
  timers : ∀ url, (m.reconnectTimers url).isSome = true → m.active = true
  quiet : m.active = false → ∀ url, m.relays url = none

/-- What is owed is there. -/
def Paid (m : Manager) : Prop := ∀ url, m.owed url = true → m.covered url = true

structure Inv (m : Manager) : Prop where
  handles : Handles m
  paid : Paid m

variable {m m' : Manager} {url v : String} {s r i k : Nat} {c : Connect}

theorem covered_iff : m.covered url = true ↔
    (∃ s, m.net.Open s url) ∨ (∃ c ∈ m.connects, c.url = url) ∨ (m.reconnectTimers url).isSome = true := by
  simp only [Manager.covered, Bool.or_eq_true, List.any_eq_true, Bool.and_eq_true, decide_eq_true_eq, or_assoc,
    Relays.Open]
  refine or_congr_left ⟨?_, ?_⟩
  · rintro ⟨x, hx, rfl, hopen⟩
    obtain ⟨s, hs⟩ := List.mem_iff_getElem?.mp hx
    exact ⟨s, x.relay, by rw [hs, ← hopen]⟩
  · rintro ⟨s, r, hs⟩
    exact ⟨_, List.mem_of_getElem? hs, rfl, rfl⟩

theorem owed_iff : m.owed url = true ↔
    m.active = true ∧ m.needed url = true ∧ Call.creating url ∉ m.calls := by
  simp only [Manager.owed, Manager.creating, Bool.and_eq_true, Bool.not_eq_true', List.any_eq_false,
    decide_eq_true_eq, and_assoc, List.forall_mem_ne']

theorem needed_iff : m.needed url = true ↔ ∃ c ∈ m.connections, c.enabled = true ∧ c.relayUrl = url := by
  simp [Manager.needed]

theorem free_iff : m.free url = true ↔ (m.relays url).isSome = true ∨ ∀ c ∈ m.connects, c.url ≠ url := by
  simp [Manager.free]

/-- At most one subscription on a relay is open. -/
theorem Handles.unique (h : Handles m) {s s' : Nat} (hs : m.net.Open s url) (hs' : m.net.Open s' url) :
    s = s' := by
  have heq := (h.handles s url hs).1.symm.trans (h.handles s' url hs').1
  cases heq
  rfl

theorem mem_eraseIdx_of_ne {α : Type} {l : List α} {x y : α} {k : Nat} (hx : x ∈ l) (hk : l[k]? = some y)
    (hne : x ≠ y) : x ∈ l.eraseIdx k := by
  obtain ⟨j, hj⟩ := List.mem_iff_getElem?.mp hx
  refine List.mem_eraseIdx_iff_getElem?.mpr ⟨j, ?_, hj⟩
  rintro rfl
  rw [hk] at hj
  cases hj
  exact hne rfl

/-- The other connects are to other relays. -/
theorem Handles.url_ne (h : Handles m) (hi : m.connects[i]? = some c) {c' : Connect}
    (hc' : c' ∈ m.connects.eraseIdx i) : c'.url ≠ c.url := by
  obtain ⟨j, hne, hj⟩ := List.mem_eraseIdx_iff_getElem?.mp hc'
  intro heq
  refine hne ?_
  have hmap : (m.connects.map (·.url))[j]? = (m.connects.map (·.url))[i]? := by
    simp [hi, hj, heq]
  have hlt : j < (m.connects.map (·.url)).length := by
    rw [List.length_map]
    exact (List.getElem?_eq_some_iff.mp hj).1
  exact (List.getElem?_inj hlt h.single).mp hmap

/-! ## A redial is scheduled -/

/-- Scheduling arms a timer for a relay that is needed, and nothing else. -/
theorem schedule_cases (m : Manager) (url : String) :
    m.scheduleRelayReconnect url = m ∧
        (m.active = true → m.needed url = true → (m.reconnectTimers url).isSome = true) ∨
      ∃ attempts t, m.active = true ∧ m.scheduleRelayReconnect url =
        { m with
          reconnectAttempts := attempts
          reconnectTimers := Function.update m.reconnectTimers url (some t) } := by
  simp only [Manager.scheduleRelayReconnect]
  split
  · rename_i hinactive
    exact .inl ⟨rfl, fun ha => by simp [ha] at hinactive⟩
  · rename_i hactive
    split
    · rename_i htimer
      exact .inl ⟨rfl, fun _ _ => htimer⟩
    · split
      · rename_i hneeded
        exact .inl ⟨rfl, fun _ hn => by simp [hn] at hneeded⟩
      · exact .inr ⟨_, _, by simpa using hactive, rfl⟩

theorem Handles.schedule (h : Handles m) (url : String) : Handles (m.scheduleRelayReconnect url) := by
  rcases schedule_cases m url with ⟨heq, -⟩ | ⟨attempts, t, hactive, heq⟩
  · rw [heq]
    exact h
  · rw [heq]
    exact ⟨h.handles, h.topics, h.relays, h.single, h.connecting, h.publishing, fun _ _ => hactive, h.quiet⟩

/-- The relay is covered then, and the others as before. -/
theorem Paid.schedule (h : ∀ v, v ≠ url → m.owed v = true → m.covered v = true) :
    Paid (m.scheduleRelayReconnect url) := by
  intro v hv
  rcases schedule_cases m url with ⟨heq, htimer⟩ | ⟨attempts, t, hactive, heq⟩
  · rw [heq] at hv ⊢
    by_cases hne : v = url
    · subst hne
      obtain ⟨hactive, hneeded, -⟩ := owed_iff.mp hv
      exact covered_iff.mpr (.inr (.inr (htimer hactive hneeded)))
    · exact h v hne hv
  · rw [heq] at hv ⊢
    by_cases hne : v = url
    · subst hne
      exact covered_iff.mpr (.inr (.inr (by simp)))
    · have hcov := h v hne hv
      rw [covered_iff] at hcov ⊢
      simpa only [Function.update_of_ne hne] using hcov

/-! ## A subscription is closed -/

/-- A subscription is closed that is the only one of its relay. -/
theorem Handles.forget (h : Handles m) (hs : ∀ v, m.net.Open s v → v = url)
    (honly : ∀ s', m.net.Open s' url → s' = s) (hc : ∀ c ∈ m.connects, c.url = url → c.relay = none) :
    Handles { m with
      net := m.net.close s
      relays := Function.update m.relays url none
      subs := Function.update m.subs url none } := by
  have hopen : ∀ s' v, (m.net.close s).Open s' v → m.net.Open s' v ∧ v ≠ url := by
    intro s' v hv
    obtain ⟨hv, hne⟩ := Relays.open_close.mp hv
    refine ⟨hv, ?_⟩
    rintro rfl
    exact hne (honly s' hv)
  refine ⟨fun s' v hv => ?_, fun v s' hv => ?_, fun v r hv => ?_, h.single, fun c hmem hnone => ?_,
    fun c hmem r hr => ?_, h.timers, fun hq v => ?_⟩
  · obtain ⟨hv, hne⟩ := hopen s' v hv
    simpa only [Function.update_of_ne hne] using h.handles s' v hv
  · have hne : v ≠ url := by
      rintro rfl
      simp at hv
    simp only [Function.update_of_ne hne] at hv
    obtain ⟨sub, hsub, htopic⟩ := h.topics v s' hv
    refine ⟨if s' = s then { sub with isOpen := false } else sub, ?_, ?_⟩
    · simp [Relays.close, Relays.closeWhere, List.getElem?_mapIdx, hsub]
    · split <;> exact htopic
  · have hne : v ≠ url := by
      rintro rfl
      simp at hv
    simp only [Function.update_of_ne hne] at hv
    rcases h.relays v r hv with hpub | ⟨s', hs'⟩
    · exact .inl hpub
    · refine .inr ⟨s', Relays.open_close.mpr ⟨hs', ?_⟩⟩
      rintro rfl
      exact hne (hs v hs')
  · simp only [Function.update_apply]
    split
    · rfl
    · exact h.connecting c hmem hnone
  · have hne : c.url ≠ url := by
      intro heq
      rw [hc c hmem heq] at hr
      cases hr
    have hpub := h.publishing c hmem r hr
    simp only [Function.update_of_ne hne]
    exact hpub
  · simp only [Function.update_apply]
    split
    · rfl
    · exact h.quiet hq v

/-- A subscription that is open, or that is only a handle, is closed. -/
theorem Inv.closeSub (h : Inv m) {sub : Subscription String} (hsub : m.net.subscriptions[s]? = some sub)
    (honly : ∀ s', m.net.Open s' sub.topic → s' = s)
    (hc : ∀ c ∈ m.connects, c.url = sub.topic → c.relay = none) : Inv (m.closeSub s) := by
  have hs : ∀ v, m.net.Open s v → v = sub.topic := by
    rintro v ⟨r, hr⟩
    rw [hsub] at hr
    cases hr
    rfl
  simp only [Manager.closeSub, hsub, Manager.onclose]
  refine ⟨(h.handles.forget hs honly hc).schedule _, Paid.schedule fun v hne hv => ?_⟩
  have hcov := h.paid v hv
  rw [covered_iff] at hcov ⊢
  rcases hcov with ⟨s', hs'⟩ | hcov
  · refine .inl ⟨s', Relays.open_close.mpr ⟨hs', ?_⟩⟩
    rintro rfl
    exact hne (hs v hs')
  · exact .inr hcov

theorem Inv.closeOpen (h : Inv m) (hs : m.net.Open s url) : Inv (m.closeSub s) := by
  obtain ⟨r, hr⟩ := hs
  refine h.closeSub hr (fun s' hs' => h.handles.unique hs' ⟨r, hr⟩) fun c hmem heq => ?_
  exact absurd heq ((h.handles.handles s url ⟨r, hr⟩).2.2 c hmem)

theorem closeSub_net (m : Manager) (s : Nat) :
    (m.closeSub s).net = m.net ∧ m.net.subscriptions[s]? = none ∨ (m.closeSub s).net = m.net.close s := by
  simp only [Manager.closeSub]
  split
  · refine .inr ?_
    simp only [Manager.onclose]
    rename_i sub hsub
    rcases schedule_cases { m with
      net := m.net.close s
      relays := Function.update m.relays sub.topic none
      subs := Function.update m.subs sub.topic none } sub.topic with ⟨heq, -⟩ | ⟨_, _, -, heq⟩ <;> rw [heq]
  · rename_i hnone
    exact .inl ⟨rfl, hnone⟩

theorem closeSub_relays (hv : (m.closeSub s).relays url = some r) : m.relays url = some r := by
  simp only [Manager.closeSub] at hv
  split at hv
  · simp only [Manager.onclose] at hv
    rename_i sub _
    have hup : Function.update m.relays sub.topic none url = some r := by
      rcases schedule_cases { m with
        net := m.net.close s
        relays := Function.update m.relays sub.topic none
        subs := Function.update m.subs sub.topic none } sub.topic with ⟨heq, -⟩ | ⟨_, _, -, heq⟩
      · rw [heq] at hv
        exact hv
      · rw [heq] at hv
        exact hv
    simp only [Function.update_apply] at hup
    split at hup
    · cases hup
    · exact hup
  · exact hv

theorem closeSubs_relays {l : List Nat} (hv : (l.foldl Manager.closeSub m).relays url = some r) :
    m.relays url = some r := by
  induction l generalizing m with
  | nil => exact hv
  | cons s l ih => exact closeSub_relays (ih hv)

theorem Inv.closeSubs (h : Inv m) {l : List Nat} (hnd : l.Nodup) (hl : ∀ s ∈ l, ∃ v, m.net.Open s v) :
    Inv (l.foldl Manager.closeSub m) := by
  induction l generalizing m with
  | nil => exact h
  | cons s l ih =>
    obtain ⟨hnot, hnd⟩ := List.nodup_cons.mp hnd
    obtain ⟨v, hv⟩ := hl s (List.mem_cons_self ..)
    refine ih (h.closeOpen hv) hnd fun s' hs' => ?_
    obtain ⟨v', hv'⟩ := hl s' (List.mem_cons_of_mem _ hs')
    refine ⟨v', ?_⟩
    rcases closeSub_net m s with ⟨heq, -⟩ | heq
    · rw [heq]
      exact hv'
    · rw [heq]
      refine Relays.open_close.mpr ⟨hv', ?_⟩
      rintro rfl
      exact hnot hs'

/-- Its subscriptions are closed with a connection. -/
theorem Inv.closeRelay (h : Inv m) (r : Nat) : Inv (m.closeRelay r) := by
  have hfold : Inv ((m.net.openOn r).foldl Manager.closeSub m) := by
    refine h.closeSubs (List.nodup_range.filter _) fun s hs => ?_
    obtain ⟨v, hv⟩ := Relays.mem_openOn.mp hs
    exact ⟨v, r, hv⟩
  have hh := hfold.handles
  refine ⟨⟨hh.handles, hh.topics, hh.relays, hh.single, hh.connecting, fun c hc r' hr' => ?_, hh.timers, hh.quiet⟩,
    hfold.paid⟩
  obtain ⟨⟨b, hb⟩, hor⟩ := hh.publishing c hc r' hr'
  refine ⟨⟨if r' = r then false else b, ?_⟩, hor.imp_right fun ⟨hnone, hgone⟩ => ⟨hnone, ?_⟩⟩
  · simp only [Manager.closeRelay, Relays.disconnect, Relays.disconnectWhere, List.getElem?_mapIdx, hb,
      Option.map_some]
    by_cases heq : r' = r <;> simp [heq]
  · refine Bool.eq_false_iff.mpr fun hcon => ?_
    rw [(Relays.connected_disconnect.mp hcon).1] at hgone
    cases hgone

/-- A handle that is not open any more may be left. -/
theorem Handles.only (h : Handles m) (hsub : m.subs url = some s) {s' : Nat} (hs' : m.net.Open s' url) :
    s' = s := by
  have heq := (h.handles s' url hs').1.symm.trans hsub
  cases heq
  rfl

/-! ## Connects -/

/-- With no other connect under way the relay is covered afterwards, and nothing else changes. -/
theorem Handles.connectRelay (h : Handles m) (hfree : m.free url = true) (onFail : Catch) :
    Handles (m.connectRelay url onFail) ∧ (m.connectRelay url onFail).covered url = true ∧
      ∀ v, m.covered v = true → (m.connectRelay url onFail).covered v = true := by
  simp only [Manager.connectRelay]
  split
  · rename_i hsome
    refine ⟨h, ?_, fun v hv => hv⟩
    obtain ⟨r, hr⟩ := Option.isSome_iff_exists.mp hsome
    rcases h.relays url r hr with ⟨c, hc, heq, -⟩ | hopen
    · exact covered_iff.mpr (.inr (.inl ⟨c, hc, heq⟩))
    · exact covered_iff.mpr (.inl hopen)
  · rename_i hnone
    have hno : m.relays url = none := Option.not_isSome_iff_eq_none.mp hnone
    have hnot : ∀ c ∈ m.connects, c.url ≠ url := by
      rcases free_iff.mp hfree with hsome | hall
      · exact absurd hsome hnone
      · exact hall
    refine ⟨⟨fun s v hv => ?_, h.topics, fun v r hv => ?_, ?_, fun c hc hcon => ?_, fun c hc r hr => ?_, h.timers,
      h.quiet⟩, ?_, fun v hv => ?_⟩
    · obtain ⟨hsub, hrel, hall⟩ := h.handles s v hv
      refine ⟨hsub, hrel, fun c hc => ?_⟩
      rcases List.mem_append.mp hc with hc | hc
      · exact hall c hc
      · cases List.mem_singleton.mp hc
        rintro rfl
        exact hnone hrel
    · exact (h.relays v r hv).imp_left fun ⟨c, hc, hrest⟩ => ⟨c, List.mem_append_left _ hc, hrest⟩
    · simp only [List.map_append, List.map_cons, List.map_nil]
      refine List.nodup_append.mpr ⟨h.single, List.nodup_singleton _, fun a ha b hb => ?_⟩
      obtain ⟨c, hc, rfl⟩ := List.mem_map.mp ha
      rw [List.mem_singleton.mp hb]
      exact hnot c hc
    · rcases List.mem_append.mp hc with hc | hc
      · exact h.connecting c hc hcon
      · cases List.mem_singleton.mp hc
        exact hno
    · rcases List.mem_append.mp hc with hc | hc
      · exact h.publishing c hc r hr
      · cases List.mem_singleton.mp hc
        cases hr
    · exact covered_iff.mpr (.inr (.inl ⟨_, List.mem_append_right _ (List.mem_singleton_self _), rfl⟩))
    · rw [covered_iff] at hv ⊢
      exact hv.imp_right (Or.imp_left fun ⟨c, hc, heq⟩ => ⟨c, List.mem_append_left _ hc, heq⟩)

theorem connectRelay_owed (m : Manager) (url : String) (onFail : Catch) (v : String) :
    (m.connectRelay url onFail).owed v = m.owed v := by
  simp only [Manager.connectRelay]
  split <;> rfl

/-- A connect to a relay that is the last thing to be paid. -/
theorem Inv.connectRelay (h : Handles m) (hp : ∀ v, v ≠ url → m.owed v = true → m.covered v = true)
    (hfree : m.free url = true) (onFail : Catch) : Inv (m.connectRelay url onFail) := by
  obtain ⟨hh, hthis, hothers⟩ := h.connectRelay hfree onFail
  refine ⟨hh, fun v hv => ?_⟩
  rw [connectRelay_owed] at hv
  by_cases hne : v = url
  · exact hne ▸ hthis
  · exact hothers v (hp v hne hv)

/-- At the start a connect begins for each relay. -/
theorem connectAll {l : List String} (hnone : ∀ v, m.relays v = none) :
    l.foldl (fun m url => m.connectRelay url .log) m =
      { m with connects := m.connects ++ l.map fun url => ⟨url, .log, none⟩ } := by
  induction l generalizing m with
  | nil => simp
  | cons url l ih =>
    have hstep : m.connectRelay url .log = { m with connects := m.connects ++ [⟨url, .log, none⟩] } := by
      simp [Manager.connectRelay, hnone url]
    rw [List.foldl_cons, hstep, ih (m := { m with connects := m.connects ++ [⟨url, .log, none⟩] }) hnone]
    simp

theorem Inv.start (h : Inv m) (hsound : sound .start m = true) : Inv m.start := by
  simp only [Manager.start]
  split
  · exact h
  · rename_i hinactive
    have hq : m.active = false := by simpa using hinactive
    have hnone : ∀ v, m.relays v = none := h.handles.quiet hq
    have hno : ∀ s v, ¬ m.net.Open s v := fun s v hv => by
      have hrel := (h.handles.handles s v hv).2.1
      rw [hnone v] at hrel
      cases hrel
    have hnot : ∀ v ∈ ((m.connections.filter (·.enabled)).map (·.relayUrl)).dedup, ∀ c ∈ m.connects,
        c.url ≠ v := by
      intro v hv c hc
      obtain ⟨p, hp, rfl⟩ := List.mem_map.mp (List.mem_dedup.mp hv)
      obtain ⟨hp, hen⟩ := List.mem_filter.mp hp
      simp only [sound, hq, Bool.false_or, List.all_eq_true, Bool.or_eq_true, Bool.not_eq_true',
        decide_eq_true_eq] at hsound
      exact (hsound p hp).resolve_left (by simp [hen]) c hc
    rw [connectAll (m := { m with active := true }) hnone]
    refine ⟨⟨fun s v hv => absurd hv (hno s v), h.handles.topics, fun v r hv => ?_, ?_, fun c hc hcon => hnone _,
      fun c hc r hr => ?_, fun _ _ => rfl, fun hf => by cases hf⟩, fun v hv => ?_⟩
    · rw [hnone v] at hv
      cases hv
    · simp only [List.map_append, List.map_map]
      refine List.nodup_append.mpr ⟨h.handles.single, ?_, fun a ha b hb => ?_⟩
      · refine ((List.nodup_dedup _).map ?_)
        intro a b hab
        exact hab
      · obtain ⟨c, hc, rfl⟩ := List.mem_map.mp ha
        obtain ⟨v, hv, rfl⟩ := List.mem_map.mp hb
        exact hnot v hv c hc
    · rcases List.mem_append.mp hc with hc | hc
      · exact h.handles.publishing c hc r hr
      · obtain ⟨v, -, rfl⟩ := List.mem_map.mp hc
        cases hr
    · obtain ⟨-, hneeded, -⟩ := owed_iff.mp hv
      obtain ⟨p, hp, hen, rfl⟩ := needed_iff.mp hneeded
      refine covered_iff.mpr (.inr (.inl ⟨_, List.mem_append_right _ (List.mem_map.mpr ⟨p.relayUrl, ?_, rfl⟩), rfl⟩))
      exact List.mem_dedup.mpr (List.mem_map.mpr ⟨p, List.mem_filter.mpr ⟨hp, hen⟩, rfl⟩)

theorem Inv.stop (h : Inv m) (hsound : sound .stop m = true) : Inv m.stop := by
  simp only [Manager.stop]
  split
  · exact h
  · refine ⟨⟨fun s v hv => ?_, fun v s hv => (by cases hv), fun v r hv => (by cases hv), h.handles.single,
      fun c hc hcon => rfl, fun c hc r hr => ?_, fun v hv => (by cases hv), fun _ _ => rfl⟩, fun v hv => ?_⟩
    · obtain ⟨r, hr, hp⟩ := Relays.open_closeWhere.mp (Relays.open_disconnectWhere.mp hv)
      have hsub := (h.handles.handles s v ⟨r, hr⟩).1
      simp [hsub] at hp
    · obtain ⟨⟨b, hb⟩, hor⟩ := h.handles.publishing c hc r hr
      simp only [sound, Manager.stale, List.all_eq_true, Bool.not_eq_true', Bool.and_eq_false_iff] at hsound
      have hsub : m.subs c.url = none := by
        rcases hsound c hc with hrel | hsub
        · rw [hr] at hrel
          cases hrel
        · exact Option.not_isSome_iff_eq_none.mp (by simp [hsub])
      refine ⟨⟨if (decide (m.relays c.url = some r)) then false else b, ?_⟩, .inr ⟨rfl, ?_⟩⟩
      · simp only [Relays.disconnectWhere, Relays.closeWhere, List.getElem?_mapIdx, hb, Option.map_some, hsub,
          Option.isSome_none, Bool.false_eq_true, if_false, decide_eq_true_eq]
        split <;> rfl
      · refine Bool.eq_false_iff.mpr fun hcon => ?_
        obtain ⟨c', hc', hopen, hp⟩ := Relays.connected_disconnectWhere.mp hcon
        have heq : m.net.connections[r]? = some c' := hc'
        rw [hb] at heq
        cases heq
        rcases hor with hrel | ⟨-, hgone⟩
        · simp [hsub, hrel] at hp
        · simp only [Relays.connected, hb, Option.any_some] at hgone
          exact absurd hopen (by simp [hgone])
    · cases (owed_iff.mp hv).1

theorem covered_of_connects (hurls : ∀ v, (∃ c ∈ m.connects, c.url = v) → ∃ c ∈ m'.connects, c.url = v)
    (hopen : ∀ s v, m.net.Open s v → m'.net.Open s v)
    (htimers : ∀ v, (m.reconnectTimers v).isSome = true → (m'.reconnectTimers v).isSome = true)
    (hv : m.covered v = true) : m'.covered v = true := by
  rw [covered_iff] at hv ⊢
  rcases hv with ⟨s, hs⟩ | hc | ht
  · exact .inl ⟨s, hopen s v hs⟩
  · exact .inr (.inl (hurls v hc))
  · exact .inr (.inr (htimers v ht))

/-- A connect that has connected goes on with the relay in hand. -/
theorem Inv.connectOk (h : Inv m) {onFail : Catch} (hi : m.connects[i]? = some ⟨url, onFail, none⟩)
    (hactive : m.active = true) : Inv { m with
      net := m.net.connect url
      relays := Function.update m.relays url (some m.net.connections.length)
      reconnectAttempts := Function.update m.reconnectAttempts url none
      connects := m.connects.set i ⟨url, onFail, some m.net.connections.length⟩ } := by
  have hh := h.handles
  have hmem : (⟨url, onFail, none⟩ : Connect) ∈ m.connects := List.mem_of_getElem? hi
  have hlt : i < m.connects.length := (List.getElem?_eq_some_iff.mp hi).1
  -- the other connects are to other relays
  have hset : ∀ c ∈ m.connects.set i ⟨url, onFail, some m.net.connections.length⟩,
      c = ⟨url, onFail, some m.net.connections.length⟩ ∨ c ∈ m.connects ∧ c.url ≠ url := by
    intro c hc
    obtain ⟨j, hj⟩ := List.mem_iff_getElem?.mp hc
    rw [List.getElem?_set] at hj
    split at hj
    · simp only [Option.some.injEq] at hj
      exact .inl hj.symm
    · rename_i hne
      exact .inr ⟨List.mem_of_getElem? hj,
        hh.url_ne hi (List.mem_eraseIdx_iff_getElem?.mpr ⟨j, fun heq => hne heq.symm, hj⟩)⟩
  have hkeep : ∀ c ∈ m.connects, c.url ≠ url → c ∈ m.connects.set i ⟨url, onFail, some m.net.connections.length⟩ := by
    intro c hc hne
    obtain ⟨j, hj⟩ := List.mem_iff_getElem?.mp hc
    refine List.mem_iff_getElem?.mpr ⟨j, ?_⟩
    rw [List.getElem?_set, if_neg, hj]
    rintro rfl
    rw [hi] at hj
    cases hj
    exact hne rfl
  refine ⟨⟨fun s v hv => ?_, hh.topics, fun v r hv => ?_, ?_, fun c hc hcon => ?_, fun c hc r hr => ?_,
    hh.timers, fun hq => ?_⟩, fun v hv => ?_⟩
  · obtain ⟨hsub, hrel, hall⟩ := hh.handles s v hv
    have hne : url ≠ v := hall _ hmem
    refine ⟨hsub, ?_, fun c hc => ?_⟩
    · simpa only [Function.update_of_ne hne.symm] using hrel
    · rcases hset c hc with rfl | ⟨hc, -⟩
      · exact hne
      · exact hall c hc
  · by_cases hne : v = url
    · subst hne
      simp only [Function.update_self, Option.some.injEq] at hv
      subst hv
      exact .inl ⟨_, List.mem_set hlt _, rfl, rfl⟩
    · simp only [Function.update_of_ne hne] at hv
      refine (hh.relays v r hv).imp_left fun ⟨c, hc, heq, hr⟩ => ⟨c, hkeep c hc ?_, heq, hr⟩
      rw [heq]
      exact hne
  · have hurls : (m.connects.set i ⟨url, onFail, some m.net.connections.length⟩).map (·.url) =
        m.connects.map (·.url) := by
      rw [List.map_set]
      refine List.ext_getElem? fun j => ?_
      rw [List.getElem?_set]
      split
      · rename_i heq
        subst heq
        rw [List.getElem?_map, hi, if_pos (by simpa using hlt)]
        rfl
      · rfl
    rw [hurls]
    exact hh.single
  · rcases hset c hc with rfl | ⟨hc, hne⟩
    · cases hcon
    · simpa only [Function.update_of_ne hne] using hh.connecting c hc hcon
  · rcases hset c hc with rfl | ⟨hc, hne⟩
    · cases hr
      refine ⟨⟨true, ?_⟩, .inl (by simp)⟩
      simp [Relays.connect]
    · obtain ⟨⟨b, hb⟩, hor⟩ := hh.publishing c hc r hr
      have hlen : r < m.net.connections.length := (List.getElem?_eq_some_iff.mp hb).1
      simp only [Function.update_of_ne hne, Relays.connected_connect_of_lt hlen]
      exact ⟨⟨b, by simp only [Relays.connect, List.getElem?_append_left hlen, hb]⟩, hor⟩
  · rw [hactive] at hq
    cases hq
  · refine covered_of_connects (m := m) (fun v => ?_) (fun _ _ ho => ho) (fun _ ht => ht) (h.paid v hv)
    rintro ⟨c, hc, rfl⟩
    by_cases hne : c.url = url
    · exact ⟨_, List.mem_set hlt _, hne.symm⟩
    · exact ⟨c, hkeep c hc hne, rfl⟩

/-- A connect has ended; no open subscription comes of it. -/
theorem Handles.ended (h : Handles m) (hi : m.connects[i]? = some c) (hc : m.relays c.url = none) :
    Handles { m with connects := m.connects.eraseIdx i } := by
  have hsub : ∀ c' ∈ m.connects.eraseIdx i, c' ∈ m.connects := fun _ => List.mem_of_mem_eraseIdx
  refine ⟨fun s v hv => ?_, h.topics, fun v r hv => ?_, ?_, fun c' hc' => h.connecting c' (hsub c' hc'),
    fun c' hc' => h.publishing c' (hsub c' hc'), h.timers, h.quiet⟩
  · obtain ⟨hsubs, hrel, hall⟩ := h.handles s v hv
    exact ⟨hsubs, hrel, fun c' hc' => hall c' (hsub c' hc')⟩
  · refine (h.relays v r hv).imp_left fun ⟨c', hc', heq, hr⟩ => ⟨c', mem_eraseIdx_of_ne hc' hi ?_, heq, hr⟩
    rintro rfl
    rw [heq, hv] at hc
    cases hc
  · exact h.single.sublist ((List.eraseIdx_sublist ..).map _)

/-- The relays of the other connects stay covered. -/
theorem covered_ended (hi : m.connects[i]? = some c) {v : String} (hne : v ≠ c.url) (hv : m.covered v = true) :
    Manager.covered { m with connects := m.connects.eraseIdx i } v = true := by
  rw [covered_iff] at hv ⊢
  refine hv.imp_right (Or.imp_left fun ⟨c', hc', heq⟩ => ⟨c', mem_eraseIdx_of_ne hc' hi ?_, heq⟩)
  rintro rfl
  exact hne heq.symm

theorem Inv.connected (h : Inv m) {ok : Bool} (hsound : sound (.connected i ok) m = true)
    (hm : m.connected i ok = some m') : Inv m' := by
  simp only [Manager.connected] at hm
  split at hm
  · rename_i url onFail hi
    cases ok with
    | true =>
      simp only [if_true, Option.some.injEq] at hm
      subst hm
      exact h.connectOk hi hsound
    | false =>
      have hnone : m.relays url = none := h.handles.connecting _ (List.mem_of_getElem? hi) rfl
      have hh := h.handles.ended hi hnone
      have hothers : ∀ v, v ≠ url → Manager.owed { m with connects := m.connects.eraseIdx i } v = true →
          Manager.covered { m with connects := m.connects.eraseIdx i } v = true :=
        fun v hne hv => covered_ended hi hne (h.paid v hv)
      simp only [Bool.false_eq_true, if_false, Option.some.injEq] at hm
      subst hm
      cases onFail with
      | redial => exact ⟨hh.schedule url, Paid.schedule hothers⟩
      | log =>
        refine ⟨hh, fun v hv => ?_⟩
        by_cases hne : v = url
        · subst hne
          have howed : m.owed v = true := hv
          simp only [sound, hi, Bool.false_eq_true, if_false, reduceCtorEq, decide_false, Bool.false_or,
            howed, Bool.not_true] at hsound
          exact covered_iff.mpr (.inr (.inr hsound))
        · exact hothers v hne hv
  · cases hm

theorem Inv.published (h : Inv m) (hsound : sound (.published i) m = true) (hm : m.published i = some m') :
    Inv m' := by
  simp only [Manager.published] at hm
  split at hm
  · rename_i url onFail r hi
    cases hm
    have hh := h.handles
    have hmem : (⟨url, onFail, some r⟩ : Connect) ∈ m.connects := List.mem_of_getElem? hi
    obtain ⟨-, hor⟩ := hh.publishing _ hmem r rfl
    have hsub : ∀ c ∈ m.connects.eraseIdx i, c ∈ m.connects := fun _ => List.mem_of_mem_eraseIdx
    have hold : ∀ s v, m.net.Open s v → v ≠ url := fun s v hv heq => (hh.handles s v hv).2.2 _ hmem heq.symm
    have hnew : m.net.connected r = true → (m.net.subscribe r url).Open m.net.subscriptions.length url :=
      fun hr => Relays.open_subscribe.mpr (.inr ⟨rfl, rfl, hr⟩)
    refine ⟨⟨fun s v hv => ?_, fun v s hv => ?_, fun v r' hv => ?_, ?_, fun c hc => hh.connecting c (hsub c hc),
      fun c hc => hh.publishing c (hsub c hc), hh.timers, hh.quiet⟩, fun v hv => ?_⟩
    · rcases Relays.open_subscribe.mp hv with hv | ⟨rfl, rfl, hr⟩
      · obtain ⟨hsubs, hrel, hall⟩ := hh.handles s v hv
        refine ⟨?_, hrel, fun c hc => hall c (hsub c hc)⟩
        simpa only [Function.update_of_ne (hold s v hv)] using hsubs
      · refine ⟨by simp, ?_, fun c hc => hh.url_ne hi hc⟩
        rcases hor with hrel | ⟨-, hgone⟩
        · exact Option.isSome_iff_exists.mpr ⟨r, hrel⟩
        · rw [hr] at hgone
          cases hgone
    · by_cases hne : v = url
      · subst hne
        simp only [Function.update_self, Option.some.injEq] at hv
        subst hv
        exact ⟨⟨r, v, m.net.connected r⟩, by simp [Relays.subscribe], rfl⟩
      · simp only [Function.update_of_ne hne] at hv
        obtain ⟨sub, hsome, htopic⟩ := hh.topics v s hv
        have hlt := (List.getElem?_eq_some_iff.mp hsome).1
        exact ⟨sub, by simp only [Relays.subscribe, List.getElem?_append_left hlt, hsome], htopic⟩
    · rcases hh.relays v r' hv with ⟨c, hc, heq, hr⟩ | ⟨s, hs⟩
      · by_cases hthis : c = ⟨url, onFail, some r⟩
        · subst hthis
          obtain rfl : url = v := heq
          simp only [sound, hi, Bool.or_eq_true, Bool.and_eq_true, Option.isNone_iff_eq_none] at hsound
          rcases hsound with hcon | ⟨hnone, -⟩
          · exact .inr ⟨_, hnew hcon⟩
          · have hrel : m.relays url = some r' := hv
            rw [hnone] at hrel
            cases hrel
        · exact .inl ⟨c, mem_eraseIdx_of_ne hc hi hthis, heq, hr⟩
      · exact .inr ⟨s, Relays.open_subscribe.mpr (.inl hs)⟩
    · exact hh.single.sublist ((List.eraseIdx_sublist ..).map _)
    · by_cases hne : v = url
      · subst hne
        have howed : m.owed v = true := hv
        simp only [sound, hi, howed, Bool.not_true, Bool.false_or, Bool.or_eq_true, Bool.and_eq_true] at hsound
        rcases hsound with hcon | ⟨-, htimer⟩
        · exact covered_iff.mpr (.inl ⟨_, hnew hcon⟩)
        · exact covered_iff.mpr (.inr (.inr htimer))
      · have hcov := covered_ended hi hne (h.paid v hv)
        rw [covered_iff] at hcov ⊢
        exact hcov.imp_left (Exists.imp fun _ hs => Relays.open_subscribe.mpr (.inl hs))
  · cases hm

/-! ## Calls -/

theorem Handles.calls (h : Handles m) (connections : List NwcConnection) (calls : List Call) :
    Handles { m with connections, calls } :=
  ⟨h.handles, h.topics, h.relays, h.single, h.connecting, h.publishing, h.timers, h.quiet⟩

/-- A call that makes no relay owed, unless it is covered. -/
theorem Inv.calls (h : Inv m) {connections : List NwcConnection} {calls : List Call}
    (howed : ∀ v, Manager.owed { m with connections, calls } v = true → m.owed v = true ∨ m.covered v = true) :
    Inv { m with connections, calls } := by
  refine ⟨h.handles.calls connections calls, fun v hv => ?_⟩
  rcases howed v hv with hm | hcov
  · exact h.paid v hm
  · exact hcov

/-- Fewer pairings, and the same calls or more. -/
theorem Inv.fewer (h : Inv m) {connections : List NwcConnection} {calls : List Call}
    (hsub : ∀ c ∈ connections, c ∈ m.connections) (hcalls : ∀ v, .creating v ∈ m.calls → .creating v ∈ calls) :
    Inv { m with connections, calls } := by
  refine h.calls fun v hv => .inl ?_
  obtain ⟨hactive, hneeded, hnot⟩ := owed_iff.mp hv
  obtain ⟨c, hc, hen, rfl⟩ := needed_iff.mp hneeded
  exact owed_iff.mpr ⟨hactive, needed_iff.mpr ⟨c, hsub c hc, hen, rfl⟩, fun hm => hnot (hcalls _ hm)⟩

/-- Any call but a `createConnection` about to connect may end. -/
theorem Inv.erased (h : Inv m) {call : Call} (hk : m.calls[k]? = some call) (hnot : ∀ v, call ≠ .creating v) :
    Inv { m with calls := m.calls.eraseIdx k } :=
  h.fewer (fun _ hc => hc) fun v hv => mem_eraseIdx_of_ne hv hk fun heq => hnot v heq.symm

theorem Inv.pruned (h : Inv m) {ok : Bool} (hm : m.pruned k ok = some m') : Inv m' := by
  simp only [Manager.pruned] at hm
  split at hm
  · rename_i connection changed hk
    split at hm
    · cases hm
      exact h.erased hk fun v heq => by cases heq
    · cases hm
      have hlt : k < m.calls.length := (List.getElem?_eq_some_iff.mp hk).1
      refine h.calls fun v hv => .inl ?_
      obtain ⟨hactive, hneeded, hnot⟩ := owed_iff.mp hv
      have hother : ∀ u, .creating u ∈ m.calls → .creating u ∈ m.calls.set k (.creating connection.relayUrl) := by
        intro u hu
        obtain ⟨j, hj⟩ := List.mem_iff_getElem?.mp hu
        refine List.mem_iff_getElem?.mpr ⟨j, ?_⟩
        rw [List.getElem?_set, if_neg, hj]
        rintro rfl
        rw [hk] at hj
        cases hj
      obtain ⟨c, hc, hen, rfl⟩ := needed_iff.mp hneeded
      rcases List.mem_append.mp hc with hc | hc
      · exact owed_iff.mpr ⟨hactive, needed_iff.mpr ⟨c, hc, hen, rfl⟩, fun hmem => hnot (hother _ hmem)⟩
      · rw [List.mem_singleton.mp hc] at hnot
        exact absurd (List.mem_set hlt _) hnot
  · cases hm

/-- The pairing of a `createConnection` whose write has ended is the only one newly owed. -/
theorem owed_created (hk : m.calls[k]? = some (.creating url)) (hne : v ≠ url)
    (hv : Manager.owed { m with calls := m.calls.eraseIdx k } v = true) : m.owed v = true := by
  obtain ⟨hactive, hneeded, hnot⟩ := owed_iff.mp hv
  refine owed_iff.mpr ⟨hactive, hneeded, fun hmem => hnot (mem_eraseIdx_of_ne hmem hk fun heq => ?_)⟩
  cases heq
  exact hne rfl

theorem Inv.created (h : Inv m) {ok : Bool} (hsound : sound (.created k ok) m = true)
    (hm : m.created k ok = some m') : Inv m' := by
  simp only [Manager.created] at hm
  split at hm
  · rename_i url hk
    cases hm
    have hh : Handles { m with calls := m.calls.eraseIdx k } := h.handles.calls m.connections _
    split
    · rename_i hok
      obtain ⟨rfl, hactive⟩ := Bool.and_eq_true_iff.mp hok
      have hact : m.active = true := hactive
      simp only [sound, hk, hact, Bool.not_true, Bool.false_or] at hsound
      exact Inv.connectRelay hh (fun v hne hv => h.paid v (owed_created hk hne hv)) hsound .log
    · rename_i hnot
      refine ⟨hh, fun v hv => ?_⟩
      by_cases hne : v = url
      · subst hne
        have hactive : m.active = true := (owed_iff.mp hv).1
        cases ok with
        | true => exact absurd hactive (by simpa using hnot)
        | false =>
          simp only [sound, hk, hv, Bool.not_true, Bool.false_or] at hsound
          exact hsound
      · exact h.paid v (owed_created hk hne hv)
  · cases hm

theorem closeSubs_open {l : List Nat} (hs : (l.foldl Manager.closeSub m).net.Open s v) : m.net.Open s v := by
  induction l generalizing m with
  | nil => exact hs
  | cons s' l ih =>
    have hs' := ih hs
    rcases closeSub_net m s' with ⟨heq, -⟩ | heq
    · rwa [heq] at hs'
    · rw [heq] at hs'
      exact (Relays.open_close.mp hs').1

/-- A relay without an open subscription is closed and forgotten. -/
theorem Inv.forgetRelay (h : Inv m) (hno : ∀ s, ¬ m.net.Open s url) (hr : m.relays url = some r) :
    Inv { m.closeRelay r with relays := Function.update (m.closeRelay r).relays url none } := by
  have hclosed := h.closeRelay r
  have hh := hclosed.handles
  have hopen : ∀ s, ¬ (m.closeRelay r).net.Open s url := fun s hs => hno s (closeSubs_open hs)
  refine ⟨⟨fun s v hv => ?_, hh.topics, fun v r' hv => ?_, hh.single, fun c hc hcon => ?_, fun c hc r' hr' => ?_,
    hh.timers, fun hq v => ?_⟩, hclosed.paid⟩
  · have hne : v ≠ url := by
      rintro rfl
      exact hopen s hv
    simpa only [Function.update_of_ne hne] using hh.handles s v hv
  · have hne : v ≠ url := by
      rintro rfl
      simp at hv
    simp only [Function.update_of_ne hne] at hv
    exact hh.relays v r' hv
  · simp only [Function.update_apply]
    split
    · rfl
    · exact hh.connecting c hc hcon
  · obtain ⟨hb, hor⟩ := hh.publishing c hc r' hr'
    refine ⟨hb, ?_⟩
    by_cases hne : c.url = url
    · refine .inr ⟨by simp [hne], ?_⟩
      rcases hor with hrel | ⟨-, hgone⟩
      · have hsame : m.relays url = some r' := closeSubs_relays (hne ▸ hrel)
        rw [hr] at hsame
        cases hsame
        exact Bool.eq_false_iff.mpr fun hcon => (Relays.connected_disconnect.mp hcon).2 rfl
      · exact hgone
    · simpa only [Function.update_of_ne hne] using hor
  · simp only [Function.update_apply]
    split
    · rfl
    · exact hh.quiet hq v

/-- A subscription is closed through its handle, unless a connect is about to replace it. -/
theorem Inv.forgetSub (h : Inv m) (hsub : m.subs url = some s)
    (hc : ∀ c ∈ m.connects, c.url = url → c.relay = none) :
    Inv { m.closeSub s with subs := Function.update (m.closeSub s).subs url none } ∧
      ∀ s', ¬ (m.closeSub s).net.Open s' url := by
  obtain ⟨sub, hsome, rfl⟩ := h.handles.topics url s hsub
  have hclosed := h.closeSub hsome (fun s' hs' => h.handles.only hsub hs') hc
  have hh := hclosed.handles
  have hno : ∀ s', ¬ (m.closeSub s).net.Open s' sub.topic := by
    intro s' hs'
    rcases closeSub_net m s with ⟨-, hnone⟩ | heq
    · rw [hsome] at hnone
      cases hnone
    · rw [heq] at hs'
      obtain ⟨hold, hne⟩ := Relays.open_close.mp hs'
      exact hne (h.handles.only hsub hold)
  refine ⟨⟨⟨fun s' v hv => ?_, fun v s' hv => ?_, hh.relays, hh.single, hh.connecting, hh.publishing, hh.timers,
    hh.quiet⟩, hclosed.paid⟩, hno⟩
  · have hne : v ≠ sub.topic := by
      rintro rfl
      exact hno s' hv
    simpa only [Function.update_of_ne hne] using hh.handles s' v hv
  · have hne : v ≠ sub.topic := by
      rintro rfl
      simp at hv
    simp only [Function.update_of_ne hne] at hv
    exact hh.topics v s' hv

theorem Inv.closeHandles (h : Inv m)
    (hstale : ∀ c ∈ m.connects, c.url = url → c.relay.isSome = true → m.subs url = none) :
    Inv (m.closeHandles url) := by
  simp only [Manager.closeHandles]
  cases hsub : m.subs url with
  | none =>
    have hno : ∀ s, ¬ m.net.Open s url := fun s hs => by
      have hsome := (h.handles.handles s url hs).1
      rw [hsub] at hsome
      cases hsome
    dsimp only
    split
    · rename_i r hr
      exact h.forgetRelay hno hr
    · exact h
  | some s =>
    obtain ⟨hinv, hno⟩ := h.forgetSub hsub fun c hc heq => by
      refine Option.not_isSome_iff_eq_none.mp fun hsome => ?_
      have hnone := hstale c hc heq hsome
      rw [hsub] at hnone
      cases hnone
    dsimp only
    split
    · rename_i r hr
      exact hinv.forgetRelay hno hr
    · exact hinv

theorem Inv.deleted (h : Inv m) {ok : Bool} (hsound : sound (.deleted k ok) m = true)
    (hm : m.deleted k ok = some m') : Inv m' := by
  simp only [Manager.deleted] at hm
  split at hm
  · rename_i connToDelete hk
    have herased : Inv { m with calls := m.calls.eraseIdx k } := h.erased hk fun v heq => by cases heq
    split at hm
    · rename_i c
      cases hm
      split
      · refine herased.closeHandles fun x hx heq hsome => ?_
        simp only [sound, hk, List.all_eq_true, Bool.or_eq_true, Bool.not_eq_true', decide_eq_true_eq] at hsound
        have hfresh := (hsound x hx).resolve_left fun hne => hne heq
        simp only [Manager.stale, hsome, Bool.true_and, heq] at hfresh
        exact Option.not_isSome_iff_eq_none.mp (by simp [hfresh])
      · exact herased
    · cases hm
      exact herased
  · cases hm

theorem Inv.redial (h : Inv m) (hsound : sound (.redial url) m = true) (hm : m.redial url = some m') : Inv m' := by
  simp only [Manager.redial] at hm
  split at hm
  · split at hm
    · cases hm
      have hh := h.handles
      have hoff : Handles { m with reconnectTimers := Function.update m.reconnectTimers url none } := by
        refine ⟨hh.handles, hh.topics, hh.relays, hh.single, hh.connecting, hh.publishing, fun v hv => ?_, hh.quiet⟩
        simp only [Function.update_apply] at hv
        split at hv
        · cases hv
        · exact hh.timers v hv
      have hothers : ∀ v, v ≠ url → m.covered v = true →
          Manager.covered { m with reconnectTimers := Function.update m.reconnectTimers url none } v = true := by
        intro v hne hv
        rw [covered_iff] at hv ⊢
        simpa only [Function.update_of_ne hne] using hv
      split
      · rename_i hactive
        have hact : m.active = true := hactive
        simp only [sound, hact, Bool.not_true, Bool.false_or] at hsound
        exact Inv.connectRelay hoff (fun v hne hv => hothers v hne (h.paid v hv)) hsound .redial
      · rename_i hinactive
        exact ⟨hoff, fun v hv => absurd (owed_iff.mp hv).1 hinactive⟩
    · cases hm
  · cases hm

theorem Inv.updateConnection (h : Inv m) {clientPubkey : String} {updates : Updates}
    (hsound : sound (.updateConnection clientPubkey updates) m = true) :
    Inv (m.updateConnection clientPubkey updates) := by
  refine @Inv.calls _ h _ m.calls fun v hv => ?_
  obtain ⟨hactive, hneeded, hnot⟩ := owed_iff.mp hv
  obtain ⟨c, hc, hen, rfl⟩ := needed_iff.mp hneeded
  simp only [sound, List.all_eq_true, Bool.or_eq_true, Bool.not_eq_true'] at hsound
  rcases hsound c hc with (hno | hm) | hcov
  · have hyes : (m.updateConnection clientPubkey updates).owed c.relayUrl = true := hv
    rw [hno] at hyes
    cases hyes
  · exact .inl (owed_iff.mpr ⟨hactive, hm, hnot⟩)
  · exact .inr hcov

/-! ## Runs -/

theorem Inv.step {a : Action} (h : Inv m) (hsound : sound a m = true) (hm : step a m = some m') : Inv m' := by
  cases a with
  | wait ms =>
    cases hm
    exact ⟨⟨h.handles.handles, h.handles.topics, h.handles.relays, h.handles.single, h.handles.connecting,
      h.handles.publishing, h.handles.timers, h.handles.quiet⟩, h.paid⟩
  | start =>
    cases hm
    exact h.start hsound
  | stop =>
    cases hm
    exact h.stop hsound
  | createConnection clientPubkey relayUrl expiresAt =>
    cases hm
    exact h.fewer (fun c hc => (List.mem_filter.mp hc).1) fun v hv => List.mem_append_left _ hv
  | pruned k ok => exact h.pruned hm
  | created k ok => exact h.created hsound hm
  | deleteConnection clientPubkey =>
    cases hm
    exact h.fewer (fun c hc => (List.mem_filter.mp hc).1) fun v hv => List.mem_append_left _ hv
  | deleted k ok => exact h.deleted hsound hm
  | updateConnection clientPubkey updates =>
    cases hm
    exact h.updateConnection hsound
  | redial url => exact h.redial hsound hm
  | connected i ok => exact h.connected hsound hm
  | published i => exact h.published hsound hm
  | dropped r =>
    simp only [Coverage.step, Option.ite_none_right_eq_some, Option.some.injEq] at hm
    obtain ⟨-, rfl⟩ := hm
    exact h.closeRelay r
  | closed s =>
    simp only [Coverage.step, Option.ite_none_right_eq_some, Option.some.injEq, Option.any_eq_true] at hm
    obtain ⟨⟨sub, hsub, hopen⟩, rfl⟩ := hm
    exact @Inv.closeOpen _ sub.topic _ h ⟨sub.relay, by rw [hsub, ← hopen]⟩

/-- A manager that has loaded its pairings. -/
theorem inv_loaded (connections : List NwcConnection) (now : Nat) : Inv { now, connections } := by
  refine ⟨⟨fun s v hv => ?_, fun v s hv => ?_, fun v r hv => ?_, List.nodup_nil, fun c hc => ?_, fun c hc => ?_,
    fun v hv => ?_, fun _ _ => rfl⟩, fun v hv => ?_⟩
  · obtain ⟨r, hr⟩ := hv
    cases hr
  · cases hv
  · cases hv
  · cases hc
  · cases hc
  · cases hv
  · cases (owed_iff.mp hv).1

theorem Inv.listens (h : Inv m) (hcreating : ∀ v, m.active = true → m.needed v = true → m.creating v = true →
    m.covered v = true) : Listens m where
  covered := by
    intro hactive v hneeded
    cases hc : m.creating v with
    | true => exact hcreating v hactive hneeded hc
    | false => exact h.paid v (by simp [Manager.owed, hactive, hneeded, hc])
  single := fun _ v _ s s' hs hs' => h.handles.unique hs hs'
  stopped := by
    intro hq _
    refine ⟨fun s v hv => ?_, fun v => ?_⟩
    · have hrel := (h.handles.handles s v hv).2.1
      rw [h.handles.quiet hq v] at hrel
      cases hrel
    · refine Option.not_isSome_iff_eq_none.mp fun hsome => ?_
      rw [h.handles.timers v hsome] at hq
      cases hq

/-- In every run whose steps are sound, the manager listens in every state reached, but for the
relay of a pairing whose `createConnection` is still at its write. -/
theorem listens_of_sound (connections : List NwcConnection) (now : Nat) (m : Manager)
    (hrun : Steps step (fun a t => sound a t = true) { now, connections } m) :
    Listens m ↔ ∀ url, m.active = true → m.needed url = true → m.creating url = true → m.covered url = true := by
  have h : Inv m := hrun.invariant (inv_loaded connections now) fun _ _ _ ht hP hs => ht.step hP hs
  exact ⟨fun hl url hactive hneeded _ => hl.covered hactive url hneeded, h.listens⟩

def pairing : NwcConnection := { clientPubkey := "client", relayUrl := "wss://relay.example" }

/-- The relay drops, the first redial fails and the second succeeds. -/
theorem listens_of_sound_redialled : ∃ m,
    Steps step (fun a t => sound a t = true) { connections := [pairing] } m ∧
      m.active = true ∧ m.net.subscriptions = [⟨0, pairing.relayUrl, false⟩, ⟨1, pairing.relayUrl, true⟩] ∧
      (Listens m ↔ ∀ url, m.active = true → m.needed url = true → m.creating url = true →
        m.covered url = true) := by
  obtain ⟨m, hrun, hm⟩ := Steps.exists_of_play step sound { connections := [pairing] }
    [.start, .connected 0 true, .published 0, .dropped 0, .wait 1000, .redial pairing.relayUrl, .connected 0 false,
      .wait 2000, .redial pairing.relayUrl, .connected 0 true, .published 0]
    (fun m => m.active && decide (m.net.subscriptions =
      [⟨0, pairing.relayUrl, false⟩, ⟨1, pairing.relayUrl, true⟩])) (by decide +kernel)
  obtain ⟨hactive, hsubs⟩ := Bool.and_eq_true_iff.mp hm
  exact ⟨m, hrun, hactive, of_decide_eq_true hsubs, listens_of_sound [pairing] 0 m hrun⟩

/-- The first connect after the start fails, and no other is made. -/
theorem not_listens_unconnected : ¬ ∀ (connections : List NwcConnection) (now : Nat) (m : Manager),
    Steps step (fun _ _ => True) { now, connections } m → Listens m := by
  intro hall
  obtain ⟨m, hrun, hm⟩ := Steps.exists_of_play step (fun _ _ => true) { connections := [pairing] }
    [.start, .connected 0 false]
    (fun m => m.active && (m.needed pairing.relayUrl && !m.covered pairing.relayUrl)) (by decide +kernel)
  obtain ⟨hactive, hm⟩ := Bool.and_eq_true_iff.mp hm
  obtain ⟨hneeded, hnot⟩ := Bool.and_eq_true_iff.mp hm
  have hcov := (hall [pairing] 0 m (hrun.mono fun _ _ _ => trivial)).covered hactive _ hneeded
  simp [hcov] at hnot

end LibreWallet.Nwc.Coverage
