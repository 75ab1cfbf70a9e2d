import LibreWallet.Nwc.Payments

/-
  Nwc/Gate.lean --- the reservation gate of a client's requests.

  `requestChains` holds the tail of each client's queue; a request waits for the
  reservation of the one before it.  A reservation ends with the hand-over of the payment
  or with the request.  What a request has debited by then depends on how it ends.
-/

set_option autoImplicit false

namespace LibreWallet.Nwc.Payments

open Async

/-! ## One call -/

/-- What a call has done by the time it waits at its stage. -/
def Call.Sound (c : Call) : Prop :=
  match c.stage with
  | .queued =>
    c.released = false ∧ c.checked = false ∧ c.payment = none ∧ c.charge = .notMade ∧
      c.watch = .idle
  | .decrypting | .resetting _ | .hashing _ _ =>
    c.released = false ∧ c.payment = none ∧ c.charge = .notMade ∧ c.watch = .idle
  | .debiting | .waiting =>
    c.released = false ∧ c.payment = none ∧ c.charge = .kept ∧ c.watch = .idle
  | .sending =>
    c.released = false ∧ c.payment ≠ none ∧ c.charge = .kept ∧ c.watch = .idle
  | .settling => c.payment ≠ none ∧ c.charge ≠ .notMade
  | .answering =>
    (c.released = false ∧ c.payment = none ∧ c.watch = .idle) ∨
      (c.payment ≠ none ∧ c.charge ≠ .notMade)
  | .ended => (c.payment = none ∧ c.watch = .idle) ∨ (c.payment ≠ none ∧ c.charge ≠ .notMade)

/-- A call that ends without a payment has no debit outstanding. -/
def Call.Square (c : Call) : Prop :=
  (c.stage = .answering ∨ c.stage = .ended) → c.payment = none → c.charge ≠ .kept

/-- The budget was debited and the payment handed to LDK, or the request has ended without a
debit outstanding. -/
def Call.Reserved (c : Call) : Prop :=
  (c.charge ≠ .notMade ∧ c.payment ≠ none) ∨ (c.stage = .ended ∧ c.charge ≠ .kept)

section

variable {s : State} {c c' : Call}

/-- A call that has the budget's answer or waits for it is past the queue. -/
theorem Call.Sound.started (h : c.Sound) (hc : c.released = true ∨ c.checked = true) :
    c.stage ≠ .queued := by
  intro hstage
  simp only [Sound, hstage] at h
  rcases hc with hc | hc
  · simp [h.1] at hc
  · simp [h.2.1] at hc

theorem Call.Sound.reserved (h : c.Sound) (hsquare : c.Square) (hreleased : c.released = true) :
    c.Reserved := by
  unfold Call.Sound at h
  unfold Call.Square at hsquare
  unfold Call.Reserved
  cases hstage : c.stage <;> simp_all
  tauto

theorem Quiet.sound (h : Quiet s c c') (hc : c.Sound) : c'.Sound := by
  unfold Call.Sound at *
  cases h with
  | started enabled hstage _ => cases enabled <;> simp_all
  | rejected checked hstage => rcases hstage with hstage | ⟨now, hstage⟩ <;> simp_all
  | hashing spentToday now hstage => rcases hstage with hstage | ⟨now, hstage⟩ <;> simp_all
  | resetFailed hstage => simp_all
  | hashFailed hstage => simp_all
  | debited hstage => simp_all
  | accepted hstage => simp_all
  | handed hstage => simp_all
  | settled hwatch => cases hstage : c.stage <;> simp_all
  | timedOut hwatch => cases hstage : c.stage <;> simp_all
  | finished hstage => simp_all; tauto
  | released hstage => simp_all

theorem Own.sound (h : Own s c c') (hc : c.Sound) : c'.Sound := by
  cases h with
  | quiet hquiet => exact hquiet.sound hc
  | reset now hstage => simp_all [Call.Sound]
  | reserve checked hsnap => cases hsnap <;> simp_all [Call.Sound]
  | undo hstage => simp_all [Call.Sound]
  | note hstage => simp_all [Call.Sound]
  | outcome status hpending =>
    unfold Call.Sound Call.outcome at *
    cases hstage : c.stage <;> simp_all
  | refund hwatch =>
    unfold Call.Sound at *
    cases hstage : c.stage <;> simp_all

theorem Own.square (h : Own s c c') (hc : c.Sound) (hsquare : c.Square) : c'.Square := by
  unfold Call.Square at *
  unfold Call.Sound at hc
  cases h with
  | quiet hquiet =>
    cases hquiet with
    | started enabled hstage _ => cases enabled <;> simp_all
    | rejected checked hstage => rcases hstage with hstage | ⟨now, hstage⟩ <;> simp_all
    | settled hwatch => cases hstage : c.stage <;> simp_all
    | timedOut hwatch => cases hstage : c.stage <;> simp_all
    | _ => simp_all
  | reserve checked hsnap => cases hsnap <;> simp_all
  | outcome status hpending => simp [Call.outcome]
  | _ => simp_all

/-- What a step leaves of a call. -/
structure Call.Kept (s : State) (c c' : Call) : Prop where
  client : c'.client = c.client
  prev : c'.prev = c.prev
  released : c.released = true → c'.released = true
  started : c'.stage ≠ .queued → c.stage ≠ .queued ∨ c.turn s = true

theorem Own.kept (h : Own s c c') : c.Kept s c' ∧ c'.drained = c.drained := by
  cases h with
  | quiet hquiet =>
    cases hquiet with
    | started enabled hstage hturn => exact ⟨⟨rfl, rfl, id, fun _ => .inr hturn⟩, rfl⟩
    | rejected checked hstage =>
      refine ⟨⟨rfl, rfl, id, fun _ => .inl ?_⟩, rfl⟩
      rcases hstage with h | ⟨_, h⟩ <;> simp [h]
    | hashing _ _ hstage =>
      refine ⟨⟨rfl, rfl, id, fun _ => .inl ?_⟩, rfl⟩
      rcases hstage with h | ⟨_, h⟩ <;> simp [h]
    | settled =>
      refine ⟨⟨rfl, rfl, id, fun h => .inl fun hq => ?_⟩, rfl⟩
      simp [hq] at h
    | timedOut =>
      refine ⟨⟨rfl, rfl, id, fun h => .inl fun hq => ?_⟩, rfl⟩
      simp [hq] at h
    | _ => exact ⟨⟨rfl, rfl, fun h => by simp_all, fun _ => .inl (by simp_all)⟩, rfl⟩
  | reserve checked hsnap =>
    exact ⟨⟨rfl, rfl, id, fun _ => .inl (by cases hsnap <;> simp_all)⟩, rfl⟩
  | outcome => exact ⟨⟨rfl, rfl, id, .inl⟩, rfl⟩
  | refund =>
    refine ⟨⟨rfl, rfl, id, fun h => .inl fun hq => ?_⟩, rfl⟩
    simp [hq] at h
  | _ => exact ⟨⟨rfl, rfl, fun h => by simp_all, fun _ => .inl (by simp_all)⟩, rfl⟩

end

/-! ## The queue of a client -/

/-- A request waits for the one before it, and is past the queue only once every earlier one
of its client is released. -/
structure Queue (s : State) : Prop where
  sound : ∀ (n : Nat) (d : Call), s.calls[n]? = some d → d.Sound ∧ d.Square
  first : ∀ (m : Nat) (c : Call), s.calls[m]? = some c → c.prev = none →
    ∀ (n : Nat) (d : Call), n < m → s.calls[n]? = some d → d.client = c.client → d.released = true
  prev : ∀ (m : Nat) (c : Call) (p : Nat), s.calls[m]? = some c → c.prev = some p →
    p < m ∧ (∃ d : Call, s.calls[p]? = some d ∧ d.client = c.client) ∧
      ∀ (n : Nat) (d : Call), n < m → s.calls[n]? = some d → d.client = c.client → n ≤ p
  started : ∀ (m : Nat) (c : Call), s.calls[m]? = some c → c.stage ≠ .queued →
    ∀ (n : Nat) (d : Call), n < m → s.calls[n]? = some d → d.client = c.client → d.released = true

/-- The tail of a client's queue is its last request; without a tail, all are released. -/
structure Tails (s : State) : Prop where
  tail : ∀ (client : String) (t : Nat), s.chains client = some t →
    (∃ d : Call, s.calls[t]? = some d ∧ d.client = client ∧ d.drained = false) ∧
      ∀ (n : Nat) (d : Call), s.calls[n]? = some d → d.client = client → n ≤ t
  empty : ∀ client : String, s.chains client = none →
    ∀ (n : Nat) (d : Call), s.calls[n]? = some d → d.client = client → d.released = true

section

variable {s s' : State} {k : Nat} {c : Call}

/-- The gate of a request opens only once every earlier one of its client is released. -/
theorem Queue.turn (h : Queue s) {m : Nat} (hm : s.calls[m]? = some c) (hturn : c.turn s = true)
    {n : Nat} {d : Call} (hn : n < m) (hd : s.calls[n]? = some d) (hclient : d.client = c.client) :
    d.released = true := by
  unfold Call.turn at hturn
  split at hturn
  · rename_i hprev
    exact h.first m c hm hprev n d hn hd hclient
  · rename_i p hprev
    obtain ⟨hp, ⟨e, he, heclient⟩, hlast⟩ := h.prev m c p hm hprev
    have hreleased : e.released = true := by simpa [he] using hturn
    rcases Nat.lt_or_eq_of_le (hlast n d hn hd hclient) with hlt | rfl
    · have hstarted := (h.sound p e he).1.started (.inl hreleased)
      exact h.started p e he hstarted n d hlt hd (hclient.trans heclient.symm)
    · rw [hd, Option.some.injEq] at he
      exact he ▸ hreleased

/-- The calls of `s'` are those of `s`, each as it was or one step on. -/
structure Frame (s s' : State) : Prop where
  length : s'.calls.length = s.calls.length
  back : ∀ (n : Nat) (d' : Call), s'.calls[n]? = some d' →
    ∃ d : Call, s.calls[n]? = some d ∧ d.Kept s d' ∧ d'.Sound ∧ d'.Square

theorem Frame.forth (h : Frame s s') {n : Nat} {d : Call} (hd : s.calls[n]? = some d) :
    ∃ d', s'.calls[n]? = some d' ∧ d.Kept s d' := by
  have hlt : n < s'.calls.length := by
    have := (List.getElem?_eq_some_iff.mp hd).1
    have := h.length
    omega
  obtain ⟨e, he, hkept, -⟩ := h.back n s'.calls[n] (List.getElem?_eq_getElem hlt)
  rw [hd, Option.some.injEq] at he
  exact ⟨_, List.getElem?_eq_getElem hlt, he ▸ hkept⟩

theorem Queue.frame (h : Queue s) (hf : Frame s s') : Queue s' where
  sound := by
    intro n d' hd'
    obtain ⟨d, hd, hkept, hsound⟩ := hf.back n d' hd'
    exact hsound
  first := by
    intro m c' hc' hprev n d' hn hd' hclient
    obtain ⟨c, hc, hkept, -⟩ := hf.back m c' hc'
    obtain ⟨d, hd, hkept', -⟩ := hf.back n d' hd'
    refine hkept'.released (h.first m c hc (hkept.prev ▸ hprev) n d hn hd ?_)
    rw [← hkept.client, ← hkept'.client, hclient]
  prev := by
    intro m c' p hc' hprev
    obtain ⟨c, hc, hkept, -⟩ := hf.back m c' hc'
    obtain ⟨hp, ⟨e, he, heclient⟩, hlast⟩ := h.prev m c p hc (hkept.prev ▸ hprev)
    obtain ⟨e', he', hkept'⟩ := hf.forth he
    refine ⟨hp, ⟨e', he', ?_⟩, ?_⟩
    · rw [hkept'.client, heclient, hkept.client]
    · intro n d' hn hd' hclient
      obtain ⟨d, hd, hkept'', -⟩ := hf.back n d' hd'
      refine hlast n d hn hd ?_
      rw [← hkept.client, ← hkept''.client, hclient]
  started := by
    intro m c' hc' hstage n d' hn hd' hclient
    obtain ⟨c, hc, hkept, -⟩ := hf.back m c' hc'
    obtain ⟨d, hd, hkept', -⟩ := hf.back n d' hd'
    have hsame : d.client = c.client := by rw [← hkept.client, ← hkept'.client, hclient]
    refine hkept'.released ?_
    rcases hkept.started hstage with hold | hturn
    · exact h.started m c hc hold n d hn hd hsame
    · exact h.turn hc hturn hn hd hsame

theorem Next.kept {n : Nat} {d d' : Call} (h : Next s k c n d d') (hd : s.calls[n]? = some d)
    (hk : s.calls[k]? = some c) (hsound : d.Sound ∧ d.Square) :
    (d.Kept s d' ∧ d'.Sound ∧ d'.Square) ∧ d'.drained = d.drained := by
  obtain ⟨w, ⟨rfl, c', hown, rfl⟩ | ⟨-, rfl⟩⟩ := h
  · rw [hk, Option.some.injEq] at hd
    subst hd
    obtain ⟨⟨hclient, hprev, hreleased, hstarted⟩, hdrained⟩ := hown.kept
    exact ⟨⟨⟨hclient, hprev, hreleased, hstarted⟩, hown.sound hsound.1,
      hown.square hsound.1 hsound.2⟩, hdrained⟩
  · exact ⟨⟨⟨rfl, rfl, id, .inl⟩, hsound⟩, rfl⟩

theorem length_of_move (h : Move s k c s') : s'.calls.length = s.calls.length := by
  cases h with
  | settled =>
    unfold handlePaymentSettled State.emit
    simp only [notify_calls]
    unfold wake
    split <;> simp [State.put]
  | failed =>
    unfold handlePaymentFailed State.emit wake
    split <;> simp [State.put]
  | quiet => simp [State.put]
  | reset => simp [State.put, State.emit]
  | reserve => simp [Payments.reserve, State.put, State.emit]
  | undo => simp [Payments.undo, State.put, State.emit]
  | note => simp [State.put, State.emit]
  | refund => simp [State.put, State.emit]

theorem frame_of_move (h : Queue s) (hk : s.calls[k]? = some c) (hmove : Move s k c s') :
    Frame s s' where
  length := length_of_move hmove
  back := by
    intro n d' hd'
    obtain ⟨d, hd, hnext⟩ := next_of_move hk hmove hd'
    exact ⟨d, hd, (hnext.kept hd hk (h.sound n d hd)).1⟩

theorem Tails.move (h : Tails s) (hq : Queue s) (hk : s.calls[k]? = some c)
    (hmove : Move s k c s') : Tails s' := by
  have hf := frame_of_move hq hk hmove
  have hchains := chains_of_move hmove
  refine ⟨?_, ?_⟩
  · intro client t ht
    obtain ⟨⟨d, hd, hclient, hdrained⟩, hlast⟩ := h.tail client t (hchains ▸ ht)
    obtain ⟨d', hd', hkept⟩ := hf.forth hd
    refine ⟨⟨d', hd', hkept.client.trans hclient, ?_⟩, ?_⟩
    · obtain ⟨e, he, hnext⟩ := next_of_move hk hmove hd'
      rw [hd, Option.some.injEq] at he
      subst he
      exact (hnext.kept hd hk (hq.sound t d hd)).2.trans hdrained
    · intro n e' he' hclient'
      obtain ⟨e, he, hkept', -⟩ := hf.back n e' he'
      exact hlast n e he (hkept'.client.symm.trans hclient')
  · intro client hnone n d' hd' hclient
    obtain ⟨d, hd, hkept, -⟩ := hf.back n d' hd'
    exact hkept.released (h.empty client (hchains ▸ hnone) n d hd (hkept.client.symm.trans hclient))

/-! ### The tail is deleted -/

theorem chains_drain (k : Nat) (c : Call) (client : String) :
    (drain k c s).chains client =
      if client = c.client ∧ s.chains c.client = some k then none else s.chains client := by
  unfold drain
  by_cases htail : s.chains c.client = some k
  · by_cases hclient : client = c.client
    · subst hclient
      simp [htail]
    · simp [htail, hclient]
  · simp [htail]

theorem frame_drain (h : Queue s) (hk : s.calls[k]? = some c) : Frame s (drain k c s) where
  length := by simp [drain, State.put]
  back := by
    intro n d' hd'
    obtain ⟨d, hd, ⟨rfl, rfl⟩ | ⟨hn, rfl⟩⟩ := calls_put hk hd'
    · obtain ⟨hsound, hsquare⟩ := h.sound n c hk
      rw [hk, Option.some.injEq] at hd
      subst hd
      exact ⟨c, hk, ⟨rfl, rfl, id, .inl⟩, hsound, hsquare⟩
    · exact ⟨d', hd, ⟨rfl, rfl, id, .inl⟩, h.sound n d' hd⟩

/-- When the tail is released, so is every request of its client. -/
theorem Tails.all_released (h : Tails s) (hq : Queue s) (hk : s.calls[k]? = some c)
    (htail : s.chains c.client = some k) (hreleased : c.released = true) {n : Nat} {d : Call}
    (hd : s.calls[n]? = some d) (hclient : d.client = c.client) : d.released = true := by
  rcases Nat.lt_or_eq_of_le ((h.tail c.client k htail).2 n d hd hclient) with hlt | rfl
  · have hstarted := (hq.sound k c hk).1.started (.inl hreleased)
    exact hq.started k c hk hstarted n d hlt hd hclient
  · rw [hk, Option.some.injEq] at hd
    exact hd ▸ hreleased

theorem Tails.drain (h : Tails s) (hq : Queue s) (hk : s.calls[k]? = some c)
    (hreleased : c.released = true) : Tails (drain k c s) := by
  have hf := frame_drain hq hk
  refine ⟨?_, ?_⟩
  · intro client t ht
    -- the tail that is left is not the one that was drained
    have hold : s.chains client = some t ∧ t ≠ k := by
      have hchain := chains_drain k c client (s := s)
      rw [ht] at hchain
      split at hchain
      · cases hchain
      · rename_i hnot
        refine ⟨hchain.symm, fun heq => hnot ?_⟩
        subst heq
        obtain ⟨⟨d, hd, hclient, -⟩, -⟩ := h.tail client t hchain.symm
        rw [hk, Option.some.injEq] at hd
        subst hd
        exact ⟨hclient.symm, hclient ▸ hchain.symm⟩
    obtain ⟨⟨d, hd, hclient, hdrained⟩, hlast⟩ := h.tail client t hold.1
    refine ⟨⟨d, ?_, hclient, hdrained⟩, ?_⟩
    · change (s.calls.set k _)[t]? = some d
      rw [List.getElem?_set_ne hold.2.symm, hd]
    · intro n e' he' hclient'
      obtain ⟨e, he, hkept', -⟩ := hf.back n e' he'
      exact hlast n e he (hkept'.client.symm.trans hclient')
  · intro client hnone n d' hd' hclient
    obtain ⟨d, hd, hkept, -⟩ := hf.back n d' hd'
    have hclient₀ : d.client = client := hkept.client.symm.trans hclient
    refine hkept.released ?_
    have hchain := chains_drain k c client (s := s)
    rw [hnone] at hchain
    split at hchain
    · rename_i htail
      exact h.all_released hq hk htail.2 hreleased hd (hclient₀.trans htail.1)
    · exact h.empty client hchain.symm n d hd hclient₀

/-! ### A request arrives -/

/-- A call after an arrival is an earlier one, or the new one. -/
theorem calls_arrive {request : Request} {pay : Pay} {n : Nat} {d : Call}
    (h : (handleNwcRequest request pay s).calls[n]? = some d) :
    s.calls[n]? = some d ∨
      n = s.calls.length ∧ d = { request, pay, prev := s.chains request.pubkey } := by
  simp only [handleNwcRequest] at h
  rcases Nat.lt_or_ge n s.calls.length with hlt | hge
  · rw [List.getElem?_append_left hlt] at h
    exact .inl h
  · rw [List.getElem?_append_right hge] at h
    obtain ⟨hzero, rfl⟩ := List.getElem?_eq_some_iff.mp h
    simp only [List.length_singleton] at hzero
    refine .inr ⟨by omega, ?_⟩
    have : n - s.calls.length = 0 := by omega
    simp [this]

theorem lt_of_call {n : Nat} {d : Call} (h : s.calls[n]? = some d) : n < s.calls.length :=
  (List.getElem?_eq_some_iff.mp h).1

theorem calls_arrive_of_old {request : Request} {pay : Pay} {n : Nat} {d : Call}
    (h : s.calls[n]? = some d) : (handleNwcRequest request pay s).calls[n]? = some d := by
  simp only [handleNwcRequest]
  rw [List.getElem?_append_left (lt_of_call h)]
  exact h

theorem Queue.arrive (h : Queue s) (ht : Tails s) (request : Request) (pay : Pay) :
    Queue (handleNwcRequest request pay s) where
  sound := by
    intro n d hd
    rcases calls_arrive hd with hd | ⟨-, rfl⟩
    · exact h.sound n d hd
    · simp [Call.Sound, Call.Square]
  first := by
    intro m c hm hprev n d hn hd hclient
    rcases calls_arrive hm with hm | ⟨rfl, rfl⟩
    · rcases calls_arrive hd with hd | ⟨rfl, -⟩
      · exact h.first m c hm hprev n d hn hd hclient
      · have := lt_of_call hm
        omega
    · rcases calls_arrive hd with hd | ⟨rfl, -⟩
      · exact ht.empty request.pubkey hprev n d hd hclient
      · omega
  prev := by
    intro m c p hm hprev
    rcases calls_arrive hm with hm | ⟨rfl, rfl⟩
    · obtain ⟨hp, ⟨e, he, heclient⟩, hlast⟩ := h.prev m c p hm hprev
      refine ⟨hp, ⟨e, calls_arrive_of_old he, heclient⟩, ?_⟩
      intro n d hn hd hclient
      rcases calls_arrive hd with hd | ⟨rfl, -⟩
      · exact hlast n d hn hd hclient
      · have := lt_of_call hm
        omega
    · obtain ⟨⟨e, he, heclient, -⟩, hlast⟩ := ht.tail request.pubkey p hprev
      refine ⟨lt_of_call he, ⟨e, calls_arrive_of_old he, heclient⟩, ?_⟩
      intro n d hn hd hclient
      rcases calls_arrive hd with hd | ⟨rfl, -⟩
      · exact hlast n d hd hclient
      · omega
  started := by
    intro m c hm hstage n d hn hd hclient
    rcases calls_arrive hm with hm | ⟨rfl, rfl⟩
    · rcases calls_arrive hd with hd | ⟨rfl, -⟩
      · exact h.started m c hm hstage n d hn hd hclient
      · have := lt_of_call hm
        omega
    · exact absurd rfl hstage

theorem Tails.arrive (h : Tails s) (request : Request) (pay : Pay) :
    Tails (handleNwcRequest request pay s) where
  tail := by
    intro client t htail
    simp only [handleNwcRequest] at htail
    by_cases hclient : client = request.pubkey
    · subst hclient
      rw [Function.update_self, Option.some.injEq] at htail
      subst htail
      refine ⟨⟨{ request, pay, prev := s.chains request.pubkey }, ?_, rfl, rfl⟩, ?_⟩
      · simp [handleNwcRequest]
      · intro n d hd _
        have := lt_of_call hd
        simp only [handleNwcRequest, List.length_append, List.length_singleton] at this
        omega
    · rw [Function.update_of_ne hclient] at htail
      obtain ⟨⟨d, hd, hdclient, hdrained⟩, hlast⟩ := h.tail client t htail
      refine ⟨⟨d, calls_arrive_of_old hd, hdclient, hdrained⟩, ?_⟩
      intro n e he heclient
      rcases calls_arrive he with he | ⟨-, rfl⟩
      · exact hlast n e he heclient
      · exact absurd heclient.symm hclient
  empty := by
    intro client hnone n d hd hclient
    simp only [handleNwcRequest] at hnone
    by_cases hsame : client = request.pubkey
    · subst hsame
      rw [Function.update_self] at hnone
      cases hnone
    · rw [Function.update_of_ne hsame] at hnone
      rcases calls_arrive hd with hd | ⟨-, rfl⟩
      · exact h.empty client hnone n d hd hclient
      · exact absurd hclient.symm hsame

end

/-! ## The gate over a run -/

/-- No exception comes between a request's debit and the hand-over of its payment, but those
that `pay_keysend` catches. -/
def Action.Unbroken (a : Action) (s : State) : Prop :=
  ∀ k c, a.call = some k → s.calls[k]? = some c → ¬ Leaks a c

/-- No continuation of a promise is due. -/
def Calm (s : State) : Prop :=
  ∀ k, Action.step (.start k) s = none ∧ Action.step (.release k) s = none ∧
    Action.step (.drain k) s = none

/-- The gate of every client's queue. -/
structure InOrder (s : State) : Prop where
  /-- A budget check runs once every earlier request has reserved or ended. -/
  reserved : ∀ (m n : Nat) (c d : Call), s.calls[m]? = some c → s.calls[n]? = some d → n < m →
    d.client = c.client → c.checked = true → d.Reserved
  ordered : ∀ (m n : Nat) (c d : Call), s.calls[m]? = some c → s.calls[n]? = some d → n < m →
    d.client = c.client → c.stage ≠ .queued → d.stage ≠ .queued
  /-- A request that waits, waits for one that has not ended. -/
  waits : Calm s → ∀ (m : Nat) (c : Call), s.calls[m]? = some c → c.stage = .queued →
    ∃ (n : Nat) (d : Call), c.prev = some n ∧ s.calls[n]? = some d ∧ d.released = false ∧
      d.stage ≠ .ended
  released : Calm s → ∀ (n : Nat) (d : Call), s.calls[n]? = some d → d.stage = .ended →
    d.released = true
  drained : Calm s → ∀ client : String,
    (∀ (n : Nat) (d : Call), s.calls[n]? = some d → d.client = client → d.released = true) →
      s.chains client = none

section

variable {s s' : State}

theorem Calm.released (h : Calm s) {n : Nat} {d : Call} (hd : s.calls[n]? = some d)
    (hended : d.stage = .ended) : d.released = true := by
  have := (h n).2.1
  by_contra hnot
  simp [Action.step, Action.call, moves, hd, hended, hnot] at this

theorem Calm.drained (h : Calm s) {n : Nat} {d : Call} (hd : s.calls[n]? = some d)
    (hreleased : d.released = true) : d.drained = true := by
  have := (h n).2.2
  by_contra hnot
  simp [Action.step, Action.call, moves, hd, hreleased, hnot] at this

theorem Calm.turn (h : Calm s) {n : Nat} {d : Call} (hd : s.calls[n]? = some d)
    (hqueued : d.stage = .queued) : d.turn s = false := by
  have := (h n).1
  by_contra hnot
  simp only [Bool.not_eq_false] at hnot
  cases hp : s.shared.connections d.client <;>
    simp [Action.step, Action.call, moves, hd, hqueued, hnot, hp] at this

theorem Queue.inOrder (h : Queue s) (ht : Tails s) : InOrder s where
  reserved := by
    intro m n c d hm hd hn hclient hchecked
    have hstarted := (h.sound m c hm).1.started (.inr hchecked)
    have hreleased := h.started m c hm hstarted n d hn hd hclient
    exact (h.sound n d hd).1.reserved (h.sound n d hd).2 hreleased
  ordered := by
    intro m n c d hm hd hn hclient hstage
    have hreleased := h.started m c hm hstage n d hn hd hclient
    exact (h.sound n d hd).1.started (.inl hreleased)
  waits := by
    intro hcalm m c hm hqueued
    have hturn := hcalm.turn hm hqueued
    unfold Call.turn at hturn
    split at hturn
    · cases hturn
    · rename_i n hprev
      obtain ⟨-, ⟨d, hd, -⟩, -⟩ := h.prev m c n hm hprev
      have hreleased : d.released = false := by simpa [hd] using hturn
      refine ⟨n, d, hprev, hd, hreleased, fun hended => ?_⟩
      rw [hcalm.released hd hended] at hreleased
      cases hreleased
  released := fun hcalm n d hd hended => hcalm.released hd hended
  drained := by
    intro hcalm client hall
    cases htail : s.chains client with
    | none => rfl
    | some t =>
      obtain ⟨⟨d, hd, hclient, hnot⟩, -⟩ := ht.tail client t htail
      rw [hcalm.drained hd (hall t d hd hclient)] at hnot
      cases hnot

theorem queue_step {a : Action} (h : Queue s ∧ Tails s) (ha : a.Unbroken s)
    (hs : a.step s = some s') : Queue s' ∧ Tails s' := by
  obtain ⟨hq, ht⟩ := h
  rcases step_cases hs with ⟨request, pay, -, rfl⟩ | ⟨k, c, hcall, hk, hgoes⟩
  · exact ⟨hq.arrive ht request pay, ht.arrive request pay⟩
  · cases hgoes with
    | move hmove => exact ⟨hq.frame (frame_of_move hq hk hmove), ht.move hq hk hmove⟩
    | leak hleak => exact absurd hleak (ha k c hcall hk)
    | drain hreleased hdrained => exact ⟨hq.frame (frame_drain hq hk), ht.drain hq hk hreleased⟩

theorem queue_run {shared : Shared} (hrun : Steps Action.step Action.Unbroken (.initial shared) s) :
    Queue s ∧ Tails s := by
  refine hrun.invariant (I := fun s => Queue s ∧ Tails s) ?_ fun a s s' h ha hs =>
    queue_step h ha hs
  refine ⟨⟨?_, ?_, ?_, ?_⟩, ⟨?_, ?_⟩⟩ <;> simp [State.initial]

end

/-- In a run without such an exception the gate holds: budgets are checked in the order of
arrival, after every earlier reservation, and no gate and no tail outlives its requests. -/
theorem gate_holds {shared : Shared} {s : State}
    (hrun : Steps Action.step Action.Unbroken (.initial shared) s) : InOrder s := by
  obtain ⟨hq, ht⟩ := queue_run hrun
  exact hq.inOrder ht

/-! ### Two invoices of one client -/

theorem Action.unbroken_iff (a : Action) (s : State) :
    ((a.call.bind (s.calls[·]?)).all fun c => !decide (Leaks a c)) = true ↔ a.Unbroken s := by
  unfold Action.Unbroken
  simp only [Option.all_eq_true, Option.bind_eq_some_iff, Bool.not_eq_true', decide_eq_false_iff_not]
  constructor
  · intro h k c hcall hk
    exact h c ⟨k, hcall, hk⟩
  · rintro h c ⟨k, hcall, hk⟩
    exact h k c hcall hk

instance (a : Action) (s : State) : Decidable (a.Unbroken s) :=
  decidable_of_iff _ (a.unbroken_iff s)

def alice : NwcConnection :=
  { clientPubkey := "alice", spendingLimitSats := 1000, lastSpentTimestamp := 0 }

def aliceOnly : Shared := { connections := fun client => if client = "alice" then some alice else none }

def payInvoice (client : String) : Request := ⟨client, 0, .request .payInvoice⟩

/-- Two invoices of 600 sats: the first is handed over, the second exceeds the budget. -/
def handedOver : List Action :=
  [.arrive (payInvoice "alice") ⟨7, 600, true, true⟩, .arrive (payInvoice "alice") ⟨8, 600, true, true⟩,
    .start 0, .decrypted 0 1, .go 0 true, .send 0 .accepted, .drain 0, .start 1, .decrypted 1 2,
    .finish 1, .release 1, .drain 1]

/-- The node stops while the first waits for a usable channel. -/
def nodeStops : List Action :=
  [.arrive (payInvoice "alice") ⟨7, 600, true, true⟩, .arrive (payInvoice "alice") ⟨8, 600, true, true⟩,
    .start 0, .decrypted 0 1, .go 0 true, .send 0 .threw, .finish 0, .release 0, .start 1,
    .decrypted 1 2]

theorem gate_holds_handedOver :
    ∃ s, Steps Action.step Action.Unbroken (.initial aliceOnly) s ∧
      s.calls.map (·.stage) = [.settling, .ended] ∧ s.chains "alice" = none ∧ InOrder s := by
  obtain ⟨s, hrun, hs⟩ := Steps.exists_of_play Action.step (fun a s => decide (a.Unbroken s))
    (.initial aliceOnly) handedOver
    (fun s => decide (s.calls.map (·.stage) = [.settling, .ended] ∧ s.chains "alice" = none))
    (by decide)
  have hrun := hrun.mono fun a s h => of_decide_eq_true h
  obtain ⟨hstages, htail⟩ := of_decide_eq_true hs
  exact ⟨s, hrun, hstages, htail, gate_holds hrun⟩

/-- The second request's budget is checked although the first has ended with its debit
outstanding and no payment. -/
theorem not_gate_holds_nodeStops :
    ∃ s, Steps Action.step (fun _ _ => True) (.initial aliceOnly) s ∧
      s.shared.spent "alice" = some 600 ∧ ¬ InOrder s := by
  obtain ⟨s, hrun, hs⟩ := Steps.exists_of_play Action.step (fun _ _ => true)
    (.initial aliceOnly) nodeStops
    (fun s => s.shared.spent "alice" = some 600 &&
      (s.calls[0]?.any fun d => d.client = "alice" && d.charge = .kept && d.payment = none) &&
      s.calls[1]?.any fun c => c.client = "alice" && c.checked)
    (by decide)
  simp only [Bool.and_eq_true, Option.any_eq_true, decide_eq_true_eq] at hs
  obtain ⟨⟨hspent, d, hd, ⟨hdclient, hkept⟩, hnone⟩, c, hc, hcclient, hchecked⟩ := hs
  refine ⟨s, hrun.mono fun _ _ _ => trivial, hspent, fun horder => ?_⟩
  have hreserved :=
    horder.reserved 1 0 c d hc hd (by decide) (hdclient.trans hcclient.symm) hchecked
  rcases hreserved with ⟨-, hpayment⟩ | ⟨-, hcharge⟩
  · exact hpayment hnone
  · exact hcharge hkept

end LibreWallet.Nwc.Payments
