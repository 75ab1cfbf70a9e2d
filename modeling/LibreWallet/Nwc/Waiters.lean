import LibreWallet.Nwc.Gate

/-
  Nwc/Waiters.lean --- whose outcome a pay request gets.

  `pendingPayments` and `paymentContexts` have one entry for a payment hash, which a later
  request of the same hash overwrites and an earlier one's cleanup deletes.  While no two
  requests of one hash are under way at once, each entry is its request's own, and so is
  every outcome.
-/

set_option autoImplicit false

namespace LibreWallet.Nwc.Payments

open Async
open Spending.Sends (Status)

/-! ## Requests under way -/

/-- The call has registered its hash, and its payment has no outcome yet. -/
def Call.live (c : Call) : Bool :=
  c.stage = .debiting || c.stage = .waiting || c.stage = .sending || c.payment = some .pending

/-- The call's entries are there: its payment is about to be handed over, or in flight. -/
def Call.entered (c : Call) : Bool :=
  c.stage = .debiting || c.stage = .waiting || c.payment = some .pending

/-- No other call of the hash of call `k` is under way. -/
def Lone (s : State) (k : Nat) (c : Call) : Prop :=
  ∀ (j : Nat) (d : Call), j ≠ k → s.calls[j]? = some d → d.live = true → d.pay.hash ≠ c.pay.hash

/-- A step that registers a hash finds no other call of that hash under way. -/
def Action.Alone (a : Action) (s : State) : Prop :=
  ∀ (k : Nat) (c : Call), a.call = some k → s.calls[k]? = some c →
    ∀ (s' : State) (c' : Call), a.step s = some s' → s'.calls[k]? = some c' →
      c'.stage = .debiting → c.stage = .debiting ∨ Lone s k c

/-! ## One call -/

/-- The promise, the charge and the watch of a call agree with what LDK has of its payment. -/
structure Call.Matched (c : Call) : Prop where
  resolved : c.waiter = .resolved ↔ c.payment = some .settled
  rejected : c.waiter = .rejected ↔ c.payment = some .failed
  settled : c.watch = .settled → c.payment = some .settled
  refunded : c.watch = .refunded → c.payment = some .failed
  charged : c.payment ≠ none → c.charge = if c.watch = .refunded then .refunded else .kept
  timedOut : c.watch = .timedOut → c.late = true ∨ c.payment = some .pending

section

variable {s s' : State} {k : Nat} {c c' : Call}

theorem Call.Matched.unsettled (h : c.Matched) (hp : c.payment = none ∨ c.payment = some .pending) :
    c.waiter = .unsettled := by
  have hresolved := h.resolved
  have hrejected := h.rejected
  cases hw : c.waiter with
  | unsettled => rfl
  | resolved => rcases hp with hp | hp <;> simp_all
  | rejected => rcases hp with hp | hp <;> simp_all

/-- A call whose settlement is watched has handed its payment over. -/
theorem Call.Sound.watched (h : c.Sound) (hwatch : c.watch ≠ .idle) : c.payment ≠ none := by
  unfold Call.Sound at h
  cases hstage : c.stage <;> simp_all

/-- The timer fires only while the payment is in flight. -/
theorem Call.Matched.in_flight (h : c.Matched) (hp : c.payment ≠ none) (hw : c.waiter = .unsettled) :
    c.payment = some .pending := by
  have hresolved := h.resolved
  have hrejected := h.rejected
  cases hpayment : c.payment with
  | none => exact absurd hpayment hp
  | some status => cases status <;> simp_all

theorem Quiet.matched (h : Quiet s c c') (hsound : c.Sound) (hc : c.Matched) : c'.Matched := by
  obtain ⟨hresolved, hrejected, hsettled, hrefunded, hcharged, htimedOut⟩ := hc
  unfold Call.Sound at hsound
  cases h with
  | accepted hstage => constructor <;> simp_all
  | handed hstage => constructor <;> simp_all
  | settled hwatch hwaiter => constructor <;> simp_all
  | timedOut hwatch hwaiter =>
    have hp : c.payment = some .pending := by
      refine Call.Matched.in_flight ⟨hresolved, hrejected, hsettled, hrefunded, hcharged, htimedOut⟩
        ?_ hwaiter
      exact Call.Sound.watched hsound (by simp [hwatch])
    exact ⟨hresolved, hrejected, by simp, by simp, by simp_all, fun _ => .inr hp⟩
  | _ => exact ⟨hresolved, hrejected, hsettled, hrefunded, hcharged, htimedOut⟩

/-- What an outcome leaves of its own call. -/
theorem Call.Matched.outcome (h : c.Matched) (hp : c.payment = some .pending) {status : Status}
    {waiter : Waiter}
    (hw : status = .settled ∧ waiter = .resolved ∨ status = .failed ∧ waiter = .rejected) :
    ({ c.outcome status with waiter } : Call).Matched := by
  have hsettled := h.settled
  have hrefunded := h.refunded
  have hcharged := h.charged
  rcases hw with ⟨rfl, rfl⟩ | ⟨rfl, rfl⟩ <;> constructor <;> simp_all [Call.outcome]

/-! ## The invariant -/

structure Isolating (s : State) : Prop where
  sound : ∀ (k : Nat) (c : Call), s.calls[k]? = some c → c.Sound
  matched : ∀ (k : Nat) (c : Call), s.calls[k]? = some c → c.Matched
  entries : ∀ (k : Nat) (c : Call), s.calls[k]? = some c → c.entered = true →
    s.shared.waiters c.pay.hash = some k ∧ s.shared.contexts c.pay.hash = some k
  alone : ∀ (k : Nat) (c : Call), s.calls[k]? = some c → c.live = true → Lone s k c
  notified : ∀ x ∈ s.notified, x.1 = x.2
  told : ∀ (k : Nat) (c : Call), s.calls[k]? = some c → c.payment = some .settled →
    (k, k) ∈ s.notified

theorem Call.live_of_entered (h : c.entered = true) : c.live = true := by
  simp only [entered, live, Bool.or_eq_true] at h ⊢
  tauto

/-- Call `k` moves on to `c'`; only the entries of its hash change, and only while no other
call of that hash is under way. -/
theorem Isolating.update (h : Isolating s) (hk : s.calls[k]? = some c)
    (hcalls : s'.calls = s.calls.set k c') (hpay : c'.pay = c.pay)
    (hsound : c'.Sound) (hmatched : c'.Matched)
    (hother : ∀ hash, hash ≠ c.pay.hash →
      s'.shared.waiters hash = s.shared.waiters hash ∧
        s'.shared.contexts hash = s.shared.contexts hash)
    (hlone : Lone s k c ∨ c'.live = false ∧ s'.shared.waiters = s.shared.waiters ∧
      s'.shared.contexts = s.shared.contexts)
    (hentries : c'.entered = true →
      s'.shared.waiters c.pay.hash = some k ∧ s'.shared.contexts c.pay.hash = some k)
    (hnotified : s'.notified = s.notified ∨ s'.notified = s.notified ++ [(k, k)])
    (htold : c'.payment = some .settled → (k, k) ∈ s'.notified) : Isolating s' := by
  have hback : ∀ n d', s'.calls[n]? = some d' →
      ∃ d, s.calls[n]? = some d ∧ (n = k ∧ d' = c' ∨ n ≠ k ∧ d' = d) := by
    intro n d' hd'
    exact calls_put hk (hcalls ▸ hd')
  have hmem : ∀ x ∈ s.notified, x ∈ s'.notified := by
    intro x hx
    rcases hnotified with heq | heq <;> simp [heq, hx]
  refine ⟨?_, ?_, ?_, ?_, ?_, ?_⟩
  · intro n d' hd'
    obtain ⟨d, hd, ⟨rfl, rfl⟩ | ⟨-, rfl⟩⟩ := hback n d' hd'
    · exact hsound
    · exact h.sound n d' hd
  · intro n d' hd'
    obtain ⟨d, hd, ⟨rfl, rfl⟩ | ⟨-, rfl⟩⟩ := hback n d' hd'
    · exact hmatched
    · exact h.matched n d' hd
  · intro n d' hd' hentered
    obtain ⟨d, hd, ⟨rfl, rfl⟩ | ⟨hn, rfl⟩⟩ := hback n d' hd'
    · rw [hpay]
      exact hentries hentered
    · have hold := h.entries n d' hd hentered
      rcases hlone with hlone | ⟨-, hwaiters, hcontexts⟩
      · have hne := hlone n d' hn hd (Call.live_of_entered hentered)
        rw [(hother _ hne).1, (hother _ hne).2]
        exact hold
      · rw [hwaiters, hcontexts]
        exact hold
  · intro n d' hd' hlive j e' hj he' helive
    obtain ⟨d, hd, ⟨rfl, rfl⟩ | ⟨hn, rfl⟩⟩ := hback n d' hd'
    · obtain ⟨e, he, ⟨rfl, -⟩ | ⟨-, rfl⟩⟩ := hback j e' he'
      · exact absurd rfl hj
      · rcases hlone with hlone | ⟨hdead, -⟩
        · rw [hpay]
          exact hlone j e' hj he helive
        · rw [hdead] at hlive
          cases hlive
    · obtain ⟨e, he, ⟨rfl, rfl⟩ | ⟨-, rfl⟩⟩ := hback j e' he'
      · rcases hlone with hlone | ⟨hdead, -⟩
        · rw [hpay]
          exact (hlone n d' hn hd hlive).symm
        · rw [hdead] at helive
          cases helive
      · exact h.alone n d' hd hlive j e' hj he helive
  · intro x hx
    rcases hnotified with heq | heq
    · exact h.notified x (heq ▸ hx)
    · rw [heq, List.mem_append, List.mem_singleton] at hx
      rcases hx with hx | rfl
      · exact h.notified x hx
      · rfl
  · intro n d' hd' hsettled
    obtain ⟨d, hd, ⟨rfl, rfl⟩ | ⟨-, rfl⟩⟩ := hback n d' hd'
    · exact htold hsettled
    · exact hmem _ (h.told n d' hd hsettled)

theorem reserve_entries (k : Nat) (c : Call) (spentToday now : Nat) (s : State) :
    (reserve k c spentToday now s).shared.waiters =
        Function.update s.shared.waiters c.pay.hash (some k) ∧
      (reserve k c spentToday now s).shared.contexts =
        Function.update s.shared.contexts c.pay.hash (some k) := by
  unfold reserve reserved State.emit State.put
  by_cases h : c.isInvoice = true <;> simp only [h] <;> exact ⟨rfl, rfl⟩

theorem undo_entries (k : Nat) (c : Call) (s : State) :
    (undo k c s).shared.waiters = Function.update s.shared.waiters c.pay.hash none ∧
      (undo k c s).shared.contexts = Function.update s.shared.contexts c.pay.hash none := by
  unfold undo undone State.emit State.put
  by_cases h : c.isInvoice = true <;> simp only [h] <;> exact ⟨rfl, rfl⟩

/-! ### The steps -/

/-- An event wakes the call whose payment it is about, where the entry is its own. -/
theorem calls_wake {hash : Nat} {waiter : Waiter} (h : s.shared.waiters hash = some k) :
    (wake hash waiter (s.put k c')).calls = s.calls.set k { c' with waiter } := by
  have hentry : (s.put k c').shared.waiters hash = some k := h
  unfold wake
  rw [hentry]
  refine List.ext_getElem? fun n => ?_
  simp only [State.put, List.getElem?_modify, List.getElem?_set]
  by_cases hn : k = n
  · subst hn
    by_cases hlt : k < s.calls.length <;> simp [hlt]
  · simp [hn]

theorem wake_shared (hash : Nat) (waiter : Waiter) (s : State) :
    (wake hash waiter s).shared = s.shared ∧ (wake hash waiter s).notified = s.notified ∧
      (wake hash waiter s).without = s.without := by
  unfold wake
  split <;> exact ⟨rfl, rfl, rfl⟩

theorem notify_shared (hash k : Nat) (s : State) :
    (notify hash k s).shared = s.shared ∧ (notify hash k s).without = s.without := by
  unfold notify
  split <;> exact ⟨rfl, rfl⟩

/-- A settled payment wakes the call whose entry its hash has. -/
theorem handlePaymentSettled_calls (h : s.shared.waiters c.pay.hash = some k) :
    (handlePaymentSettled k c s).calls =
      s.calls.set k { c.outcome .settled with waiter := .resolved } := by
  unfold handlePaymentSettled State.emit
  simp only [notify_calls]
  exact calls_wake h

theorem handlePaymentFailed_calls (h : s.shared.waiters c.pay.hash = some k) :
    (handlePaymentFailed k c s).calls =
      s.calls.set k { c.outcome .failed with waiter := .rejected } := calls_wake h

/-- A call whose payment has come to its outcome has no entries. -/
theorem Call.not_entered (hsound : c.Sound) (hp : c.payment ≠ none) {waiter : Waiter}
    {status : Status} (hs : status ≠ .pending) :
    ({ c.outcome status with waiter } : Call).entered = false := by
  unfold Call.Sound at hsound
  cases hstage : c.stage <;> simp_all [Call.entered, Call.outcome]

/-- The outcome of a payment, where the entries are its own call's. -/
theorem Isolating.event (h : Isolating s) (hk : s.calls[k]? = some c)
    (hp : c.payment = some .pending) {status : Status} {waiter : Waiter}
    (hw : status = .settled ∧ waiter = .resolved ∨ status = .failed ∧ waiter = .rejected)
    (hcalls : s'.calls = s.calls.set k { c.outcome status with waiter })
    (hwaiters : s'.shared.waiters = Function.update s.shared.waiters c.pay.hash none)
    (hcontexts : s'.shared.contexts = Function.update s.shared.contexts c.pay.hash none)
    (hnotified : status = .settled ∧ s'.notified = s.notified ++ [(k, k)] ∨
      status = .failed ∧ s'.notified = s.notified) : Isolating s' := by
  have hsound := h.sound k c hk
  have hnone : c.payment ≠ none := by simp [hp]
  have hpending : status ≠ .pending := by rcases hw with ⟨rfl, -⟩ | ⟨rfl, -⟩ <;> simp
  have hgone : ({ c.outcome status with waiter } : Call).entered = false :=
    Call.not_entered hsound hnone hpending
  refine h.update hk hcalls rfl ?_ ((h.matched k c hk).outcome hp hw) ?_
    (.inl (h.alone k c hk (by simp [Call.live, hp]))) ?_ ?_ ?_
  · exact (Own.outcome (s := s) status hp).sound hsound
  · intro hash hne
    rw [hwaiters, hcontexts, Function.update_of_ne hne, Function.update_of_ne hne]
    exact ⟨rfl, rfl⟩
  · intro hentered
    rw [hgone] at hentered
    cases hentered
  · rcases hnotified with ⟨-, heq⟩ | ⟨-, heq⟩
    · exact .inr heq
    · exact .inl heq
  · intro hsettled
    rcases hnotified with ⟨-, heq⟩ | ⟨rfl, -⟩
    · simp [heq]
    · simp [Call.outcome] at hsettled

theorem notify_of_context {hash j : Nat} {k : Nat} (h : s.shared.contexts hash = some j) :
    notify hash k s = { s with notified := s.notified ++ [(j, k)] } := by
  unfold notify
  rw [h]

theorem Isolating.settled (h : Isolating s) (hk : s.calls[k]? = some c)
    (hp : c.payment = some .pending) : Isolating (handlePaymentSettled k c s) := by
  obtain ⟨hwaiter, hcontext⟩ := h.entries k c hk (by simp [Call.entered, hp])
  have hshared := wake_shared c.pay.hash .resolved (s.put k (c.outcome .settled))
  have hentry : (s.put k (c.outcome .settled)).shared.contexts c.pay.hash = some k := hcontext
  have hnotified := notify_of_context (k := k) (hshared.1 ▸ hentry)
  refine h.event hk hp (.inl ⟨rfl, rfl⟩) (handlePaymentSettled_calls hwaiter) ?_ ?_
    (.inl ⟨rfl, ?_⟩) <;> unfold handlePaymentSettled State.emit <;> rw [hnotified]
  · simp only [hshared.1]
    rfl
  · simp only [hshared.1]
    rfl
  · simp only [hshared.2.1]
    rfl

theorem Isolating.failed (h : Isolating s) (hk : s.calls[k]? = some c)
    (hp : c.payment = some .pending) : Isolating (handlePaymentFailed k c s) := by
  obtain ⟨hwaiter, -⟩ := h.entries k c hk (by simp [Call.entered, hp])
  have hshared := wake_shared c.pay.hash .rejected (s.put k (c.outcome .failed))
  refine h.event hk hp (.inr ⟨rfl, rfl⟩) (handlePaymentFailed_calls hwaiter) ?_ ?_
    (.inr ⟨rfl, ?_⟩) <;> unfold handlePaymentFailed State.emit
  · simp only [hshared.1]
    rfl
  · simp only [hshared.1]
    rfl
  · exact hshared.2.1

/-- A call moves on, and the entries stay. -/
theorem Isolating.still (h : Isolating s) (hk : s.calls[k]? = some c)
    (hcalls : s'.calls = s.calls.set k c') (hpay : c'.pay = c.pay) (hsound : c'.Sound)
    (hmatched : c'.Matched) (hlive : c'.live = true → c.live = true)
    (hentered : c'.entered = true → c.entered = true)
    (hshared : s'.shared.waiters = s.shared.waiters ∧ s'.shared.contexts = s.shared.contexts)
    (hnotified : s'.notified = s.notified)
    (hsettled : c'.payment = some .settled → c.payment = some .settled) : Isolating s' := by
  refine h.update hk hcalls hpay hsound hmatched ?_ ?_ ?_ (.inl hnotified) ?_
  · intro hash _
    rw [hshared.1, hshared.2]
    exact ⟨rfl, rfl⟩
  · by_cases hl : c.live = true
    · exact .inl (h.alone k c hk hl)
    · exact .inr ⟨by simpa using fun h => hl (hlive h), hshared⟩
  · intro he
    rw [hshared.1, hshared.2]
    exact h.entries k c hk (hentered he)
  · intro hs
    rw [hnotified]
    exact h.told k c hk (hsettled hs)

/-- By itself a call neither registers nor gets an outcome. -/
theorem Quiet.still (h : Quiet s c c') :
    c'.pay = c.pay ∧ (c'.live = true → c.live = true) ∧ (c'.entered = true → c.entered = true) ∧
      (c'.payment = some .settled → c.payment = some .settled) := by
  cases h with
  | started enabled hstage _ =>
    cases enabled <;> simp_all [Call.live, Call.entered]
  | rejected checked hstage =>
    refine ⟨rfl, ?_, ?_, id⟩ <;> simp +contextual [Call.live, Call.entered]
  | hashing spentToday now hstage =>
    refine ⟨rfl, ?_, ?_, id⟩ <;> simp +contextual [Call.live, Call.entered]
  | settled hwatch hwaiter =>
    refine ⟨rfl, ?_, ?_, id⟩ <;> by_cases hs : c.stage = .settling <;>
      simp_all [Call.live, Call.entered]
  | timedOut hwatch hwaiter =>
    refine ⟨rfl, ?_, ?_, id⟩ <;> by_cases hs : c.stage = .settling <;>
      simp_all [Call.live, Call.entered]
  | _ => simp_all [Call.live, Call.entered]

theorem Isolating.quiet (h : Isolating s) (hk : s.calls[k]? = some c) (hquiet : Quiet s c c') :
    Isolating (s.put k c') := by
  have hsound := h.sound k c hk
  obtain ⟨hpay, hlive, hentered, hsettled⟩ := hquiet.still
  exact h.still hk rfl hpay (hquiet.sound hsound) (hquiet.matched hsound (h.matched k c hk)) hlive
    hentered ⟨rfl, rfl⟩ rfl hsettled

/-- A registration while no other call of the hash is under way. -/
theorem Isolating.reserve (h : Isolating s) (hk : s.calls[k]? = some c) {spentToday now : Nat}
    (checked : Bool) (hsnap : Snapshot s c spentToday) (hlone : Lone s k c) :
    Isolating (reserve k { c with checked := c.checked || checked } spentToday now s) := by
  have hsound := h.sound k c hk
  have hnone : c.payment = none := by
    unfold Call.Sound at hsound
    cases hsnap <;> simp_all
  have hmatched := h.matched k c hk
  refine h.update hk rfl rfl ((Own.reserve checked hsnap).sound hsound) ?_ ?_ (.inl hlone) ?_
    (.inl rfl) ?_
  · obtain ⟨hresolved, hrejected, hsettled, hrefunded, hcharged, htimedOut⟩ := hmatched
    exact ⟨hresolved, hrejected, hsettled, hrefunded, fun hp => absurd hnone hp, htimedOut⟩
  · intro hash hne
    rw [(reserve_entries ..).1, (reserve_entries ..).2]
    exact ⟨Function.update_of_ne hne .., Function.update_of_ne hne ..⟩
  · intro _
    rw [(reserve_entries ..).1, (reserve_entries ..).2]
    exact ⟨Function.update_self .., Function.update_self ..⟩
  · intro hs
    simp [hnone] at hs

theorem Isolating.undo (h : Isolating s) (hk : s.calls[k]? = some c) (hstage : c.stage = .waiting) :
    Isolating (undo k c s) := by
  have hsound := h.sound k c hk
  have hnone : c.payment = none := by
    unfold Call.Sound at hsound
    simp_all
  obtain ⟨hresolved, hrejected, hsettled, hrefunded, hcharged, htimedOut⟩ := h.matched k c hk
  refine h.update hk rfl rfl ((Own.undo (s := s) hstage).sound hsound)
    ⟨hresolved, hrejected, hsettled, hrefunded, fun hp => absurd hnone hp, htimedOut⟩ ?_
    (.inl (h.alone k c hk (by simp [Call.live, hstage]))) ?_ (.inl rfl) ?_
  · intro hash hne
    rw [(undo_entries ..).1, (undo_entries ..).2]
    exact ⟨Function.update_of_ne hne .., Function.update_of_ne hne ..⟩
  · intro hentered
    simp [Call.entered, hnone] at hentered
  · intro hs
    simp [hnone] at hs

/-- A definite failure is refunded. -/
theorem Isolating.refund (h : Isolating s) (hk : s.calls[k]? = some c)
    (hwatch : c.watch = .watching) (hwaiter : c.waiter = .rejected) :
    Isolating ((s.emit (some k) fun sh => sh.spend c.client (·.refundBudget c.pay.amtSats)).put k
      { c with
        watch := .refunded
        stage := if c.stage = .settling then .answering else c.stage
        charge := .refunded }) := by
  have hsound := h.sound k c hk
  obtain ⟨hresolved, hrejected, hsettled, hrefunded, hcharged, htimedOut⟩ := h.matched k c hk
  have hfailed := hrejected.mp hwaiter
  refine h.still hk rfl rfl ((Own.refund (s := s) hwatch hwaiter).sound hsound) ?_ ?_ ?_
    ⟨rfl, rfl⟩ rfl id
  · exact ⟨hresolved, hrejected, by simp, fun _ => hfailed, by simp, by simp⟩
  · by_cases hs : c.stage = .settling <;> simp_all [Call.live]
  · by_cases hs : c.stage = .settling <;> simp_all [Call.entered]

theorem Isolating.move (h : Isolating s) (hk : s.calls[k]? = some c) (hmove : Move s k c s')
    (hlone : (∃ c', s'.calls[k]? = some c' ∧ c'.stage = .debiting) → c.stage = .debiting ∨ Lone s k c) :
    Isolating s' := by
  have hlt := lt_of_call hk
  have hsound := h.sound k c hk
  have hmatched := h.matched k c hk
  cases hmove with
  | quiet hquiet => exact h.quiet hk hquiet
  | reset now hstage _ _ =>
    refine h.still hk rfl rfl ((Own.reset (s := s) now hstage).sound hsound) ?_ ?_ ?_ ⟨rfl, rfl⟩ rfl id
    · obtain ⟨hresolved, hrejected, hsettled, hrefunded, hcharged, htimedOut⟩ := hmatched
      exact ⟨hresolved, hrejected, hsettled, hrefunded, hcharged, htimedOut⟩
    · simp +contextual [Call.live]
    · simp +contextual [Call.entered]
  | reserve checked now hsnap =>
    have hdebiting : c.stage = .debiting ∨ Lone s k c :=
      hlone ⟨{ c with checked := c.checked || checked, stage := .debiting, charge := .kept },
        by simp [Payments.reserve, State.put, State.emit, hlt], rfl⟩
    refine h.reserve hk checked hsnap (hdebiting.resolve_left ?_)
    cases hsnap <;> simp_all
  | undo hstage => exact h.undo hk hstage
  | note hstage =>
    obtain ⟨hresolved, hrejected, hsettled, hrefunded, hcharged, htimedOut⟩ := hmatched
    have hkept : c.watch = .idle := by
      unfold Call.Sound at hsound
      simp_all
    refine h.still hk rfl rfl ((Own.note (s := s) hstage).sound hsound) ?_ ?_ ?_ ⟨rfl, rfl⟩ rfl id
    · exact ⟨hresolved, hrejected, by simp, by simp, by simp_all, by simp⟩
    · simp [Call.live, hstage]
    · simp +contextual [Call.entered]
  | settled hp => exact h.settled hk hp
  | failed hp => exact h.failed hk hp
  | refund hwatch hwaiter => exact h.refund hk hwatch hwaiter

/-- An exception that only answers leaves the entries of a call that is over. -/
theorem Isolating.leak (h : Isolating s) (hk : s.calls[k]? = some c) {a : Action}
    (hleak : Leaks a c) : Isolating (answer k c s) := by
  have hsound := h.sound k c hk
  obtain ⟨hresolved, hrejected, hsettled, hrefunded, hcharged, htimedOut⟩ := h.matched k c hk
  have hstage : c.stage = .debiting ∨ c.stage = .waiting := by
    cases a with
    | go => exact .inl hleak.1
    | send => exact .inr hleak.1
    | _ => exact hleak.elim
  refine h.still hk rfl rfl ?_
    ⟨hresolved, hrejected, hsettled, hrefunded, hcharged, htimedOut⟩ ?_ ?_ ⟨rfl, rfl⟩ rfl id
  · unfold Call.Sound at *
    rcases hstage with hstage | hstage <;> simp_all
  · simp +contextual [Call.live]
  · simp +contextual [Call.entered]

theorem Isolating.drain (h : Isolating s) (hk : s.calls[k]? = some c) :
    Isolating (drain k c s) := by
  obtain ⟨hresolved, hrejected, hsettled, hrefunded, hcharged, htimedOut⟩ := h.matched k c hk
  exact h.still hk rfl rfl (h.sound k c hk)
    ⟨hresolved, hrejected, hsettled, hrefunded, hcharged, htimedOut⟩ id id ⟨rfl, rfl⟩ rfl id

theorem Isolating.arrive (h : Isolating s) (request : Request) (pay : Pay) :
    Isolating (handleNwcRequest request pay s) where
  sound := by
    intro n d hd
    rcases calls_arrive hd with hd | ⟨-, rfl⟩
    · exact h.sound n d hd
    · simp [Call.Sound]
  matched := by
    intro n d hd
    rcases calls_arrive hd with hd | ⟨-, rfl⟩
    · exact h.matched n d hd
    · constructor <;> simp
  entries := by
    intro n d hd hentered
    rcases calls_arrive hd with hd | ⟨-, rfl⟩
    · exact h.entries n d hd hentered
    · simp [Call.entered] at hentered
  alone := by
    intro n d hd hlive j e hj he helive
    rcases calls_arrive hd with hd | ⟨-, rfl⟩
    · rcases calls_arrive he with he | ⟨-, rfl⟩
      · exact h.alone n d hd hlive j e hj he helive
      · simp [Call.live] at helive
    · simp [Call.live] at hlive
  notified := h.notified
  told := by
    intro n d hd hs
    rcases calls_arrive hd with hd | ⟨-, rfl⟩
    · exact h.told n d hd hs
    · simp at hs

theorem Isolating.step {a : Action} (h : Isolating s) (ha : a.Alone s)
    (hs : a.step s = some s') : Isolating s' := by
  rcases step_cases hs with ⟨request, pay, -, rfl⟩ | ⟨k, c, hcall, hk, hgoes⟩
  · exact h.arrive request pay
  · cases hgoes with
    | move hmove =>
      refine h.move hk hmove ?_
      rintro ⟨c', hc', hstage⟩
      exact ha k c hcall hk s' c' hs hc' hstage
    | leak hleak => exact h.leak hk hleak
    | drain => exact h.drain hk

end

/-! ## The outcomes over a run -/

/-- Every request gets the outcome of its own payment, and of no other. -/
structure Isolated (s : State) : Prop where
  /-- Until its payment has an outcome, nothing has touched the waiter, the charge and the
  notification context of a request. -/
  waiting : ∀ (k : Nat) (c : Call), s.calls[k]? = some c → c.payment = some .pending →
    s.shared.waiters c.pay.hash = some k ∧ s.shared.contexts c.pay.hash = some k ∧
      c.waiter = .unsettled ∧ c.charge = .kept
  /-- A payment that settled has resolved its waiter and notified its client, and its charge is
  kept; a watch that has gone on before the timeout has seen it. -/
  settled : ∀ (k : Nat) (c : Call), s.calls[k]? = some c → c.payment = some .settled →
    c.waiter = .resolved ∧ (k, k) ∈ s.notified ∧ c.charge = .kept ∧
      (c.late = false → c.watch = .idle ∨ c.watch = .watching ∨ c.watch = .settled)
  /-- A payment that failed has rejected its waiter; a watch that has gone on before the
  timeout has refunded it. -/
  failed : ∀ (k : Nat) (c : Call), s.calls[k]? = some c → c.payment = some .failed →
    c.waiter = .rejected ∧
      (c.late = false → c.watch = .idle ∨ c.watch = .watching ∨
        c.watch = .refunded ∧ c.charge = .refunded)
  /-- A watch goes on as soon as its payment has an outcome. -/
  due : ∀ (k : Nat) (c : Call), s.calls[k]? = some c →
    c.payment = some .settled ∨ c.payment = some .failed → c.watch = .watching →
      (Action.step (.observe k) s).isSome = true
  notified : ∀ x ∈ s.notified, x.1 = x.2

theorem Isolating.isolated {s : State} (h : Isolating s) : Isolated s where
  waiting := by
    intro k c hk hp
    have hmatched := h.matched k c hk
    obtain ⟨hwaiter, hcontext⟩ := h.entries k c hk (by simp [Call.entered, hp])
    refine ⟨hwaiter, hcontext, hmatched.unsettled (.inr hp), ?_⟩
    have hnot : c.watch ≠ .refunded := fun hw => by simp [hmatched.refunded hw] at hp
    simpa [hnot] using hmatched.charged (by simp [hp])
  settled := by
    intro k c hk hp
    have hmatched := h.matched k c hk
    have hnot : c.watch ≠ .refunded := fun hw => by simp [hmatched.refunded hw] at hp
    refine ⟨hmatched.resolved.mpr hp, h.told k c hk hp, ?_, ?_⟩
    · simpa [hnot] using hmatched.charged (by simp [hp])
    · intro hlate
      have htimedOut := hmatched.timedOut
      cases hwatch : c.watch <;> simp_all
  failed := by
    intro k c hk hp
    have hmatched := h.matched k c hk
    refine ⟨hmatched.rejected.mpr hp, ?_⟩
    intro hlate
    have htimedOut := hmatched.timedOut
    have hsettled := hmatched.settled
    have hcharged := hmatched.charged (by simp [hp])
    cases hwatch : c.watch <;> simp_all
  due := by
    intro k c hk hp hwatch
    have hmatched := h.matched k c hk
    rcases hp with hp | hp
    · have hwaiter := hmatched.resolved.mpr hp
      simp [Action.step, Action.call, moves, hk, hwatch, observe, hwaiter]
    · have hwaiter := hmatched.rejected.mpr hp
      simp [Action.step, Action.call, moves, hk, hwatch, observe, hwaiter]
  notified := h.notified

theorem isolating_run {shared : Shared} {s : State}
    (hrun : Steps Action.step Action.Alone (.initial shared) s) : Isolating s := by
  have hinitial : Isolating (.initial shared) := by constructor <;> simp [State.initial]
  exact hrun.invariant hinitial fun a s s' h ha hs => h.step ha hs

/-- In a run in which no two requests of one hash are under way at once, every request gets
the outcome of its own payment, and of no other. -/
theorem outcomes_isolated {shared : Shared} {s : State}
    (hrun : Steps Action.step Action.Alone (.initial shared) s) : Isolated s :=
  (isolating_run hrun).isolated

/-! ### Two requests of one hash -/

/-- The requests' hashes all differ. -/
def State.distinct (s : State) : Bool := decide (s.calls.map fun c => c.pay.hash).Nodup

/-- Requests whose hashes all differ are never in each other's way. -/
theorem Action.alone_of_distinct {a : Action} {s : State} (h : s.distinct = true) : a.Alone s := by
  have h : (s.calls.map fun c => c.pay.hash).Nodup := of_decide_eq_true h
  intro k c _ hk s' c' _ _ _
  refine .inr fun j d hj hd _ heq => hj ?_
  have hjk : (s.calls.map fun c => c.pay.hash)[j]? = (s.calls.map fun c => c.pay.hash)[k]? := by
    simp [hd, hk, heq]
  exact (List.getElem?_inj (by simpa using lt_of_call hd) h).mp hjk

def bob : NwcConnection :=
  { clientPubkey := "bob", spendingLimitSats := 1000, lastSpentTimestamp := 0 }

def aliceAndBob : Shared where
  connections := fun client =>
    if client = "alice" then some alice else if client = "bob" then some bob else none

/-- Alice's invoice settles, and Bob's fails. -/
def apart : List Action :=
  [.arrive (payInvoice "alice") ⟨7, 600, true, true⟩, .arrive (payInvoice "bob") ⟨8, 600, true, true⟩,
    .start 0, .decrypted 0 1, .start 1, .decrypted 1 1, .go 0 true, .go 1 true, .send 0 .accepted,
    .send 1 .accepted, .paymentSent 0, .paymentFailed 1, .observe 0, .observe 1]

/-- Bob is sent the invoice that Alice is paying; his payment finds no route. -/
def sameInvoice : List Action :=
  [.arrive (payInvoice "alice") ⟨7, 600, true, true⟩, .arrive (payInvoice "bob") ⟨7, 600, true, true⟩,
    .start 0, .decrypted 0 1, .go 0 true, .send 0 .accepted, .start 1, .decrypted 1 1, .go 1 true,
    .send 1 .refused, .paymentSent 0]

theorem outcomes_isolated_apart :
    ∃ s, Steps Action.step Action.Alone (.initial aliceAndBob) s ∧
      s.calls.map (·.watch) = [.settled, .refunded] ∧ s.notified = [(0, 0)] ∧ Isolated s := by
  obtain ⟨s, hrun, hs⟩ := Steps.exists_of_play Action.step
    (fun _ s => s.distinct) (.initial aliceAndBob) apart
    (fun s => decide (s.calls.map (·.watch) = [.settled, .refunded] ∧ s.notified = [(0, 0)]))
    (by decide)
  have hrun : Steps Action.step Action.Alone (.initial aliceAndBob) s :=
    hrun.mono fun a s h => Action.alone_of_distinct h
  obtain ⟨hwatch, hnotified⟩ := of_decide_eq_true hs
  exact ⟨s, hrun, hwatch, hnotified, outcomes_isolated hrun⟩

/-- Alice's payment settles, but her request is not resolved and she is not notified: Bob's
cleanup has deleted the entries of the hash. -/
theorem not_outcomes_isolated_sameInvoice :
    ∃ s, Steps Action.step (fun _ _ => True) (.initial aliceAndBob) s ∧ ¬ Isolated s := by
  obtain ⟨s, hrun, hs⟩ := Steps.exists_of_play Action.step (fun _ _ => true)
    (.initial aliceAndBob) sameInvoice
    (fun s => s.calls[0]?.any fun c => c.payment = some .settled && c.waiter = .unsettled)
    (by decide)
  simp only [Bool.and_eq_true, Option.any_eq_true, decide_eq_true_eq] at hs
  obtain ⟨c, hc, hsettled, hunsettled⟩ := hs
  refine ⟨s, hrun.mono fun _ _ _ => trivial, fun h => ?_⟩
  have hresolved := (h.settled 0 c hc hsettled).1
  rw [hunsettled] at hresolved
  cases hresolved

end LibreWallet.Nwc.Payments
