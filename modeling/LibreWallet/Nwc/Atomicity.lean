import LibreWallet.Nwc.Waiters

/-
  Nwc/Atomicity.lean --- a pay request that sends nothing leaves nothing.

  Each call has a copy of the shared state that all but its own changes have gone to.  From
  its registration to its hand-over the two differ by its entries, its pending record and its
  debit; a request that ends before the hand-over has to undo exactly these.
-/

set_option autoImplicit false

namespace LibreWallet.Nwc.Payments

open Async
open Spending.Sends (Status notePending recordSent recordFailed)

/-! ## The shared state with and without a call -/

/-- Nothing of a call is left: the spent counters, the entries and the pending records are as
without it. -/
structure Agree (sh wo : Shared) : Prop where
  spent : ∀ client, sh.spent client = wo.spent client
  waiters : sh.waiters = wo.waiters
  contexts : sh.contexts = wo.contexts
  pending : ∀ hash, sh.pending hash = wo.pending hash

/-- What is outstanding of a call between its registration and its hand-over. -/
structure Outstanding (k : Nat) (c : Call) (sh wo : Shared) : Prop where
  elsewhere : ∀ client, client ≠ c.client → sh.connections client = wo.connections client
  debit : (sh.spent c.client).map (· - c.pay.amtSats) = wo.spent c.client
  waiters : sh.waiters = Function.update wo.waiters c.pay.hash (some k)
  contexts : sh.contexts = Function.update wo.contexts c.pay.hash (some k)
  waiter : wo.waiters c.pay.hash = none
  context : wo.contexts c.pay.hash = none
  log : ∀ hash, hash ≠ c.pay.hash ∨ c.isInvoice = false → sh.log hash = wo.log hash
  pending : c.isInvoice = true → wo.pending c.pay.hash = false

namespace Shared

theorem spent_spend_self (sh : Shared) (client : String) (f : Pairing → Pairing) :
    (sh.spend client f).spent client =
      (sh.connections client).map fun p => (f p.toPairing).spentTodaySats := by
  simp [spent, spend, NwcConnection.spend, Function.comp_def]

theorem spent_spend_ne (sh : Shared) {client client' : String} (h : client' ≠ client)
    (f : Pairing → Pairing) : (sh.spend client f).spent client' = sh.spent client' := by
  simp [spent, spend, Function.update_of_ne h]

/-- A refund subtracts from whatever the counter is by then. -/
theorem spent_refund (sh : Shared) (client : String) (amt : Nat) :
    (sh.spend client (·.refundBudget amt)).spent client = (sh.spent client).map (· - amt) := by
  rw [spent_spend_self]
  simp [spent, Pairing.refundBudget, Function.comp_def]

end Shared

theorem notePending_congr {hash x : Nat} {log log' : Nat → Option Status} (hh : log hash = log' hash)
    (hx : log x = log' x) : notePending hash log x = notePending hash log' x := by
  unfold notePending
  rw [hh]
  split
  · by_cases h : x = hash
    · simp [h]
    · simp [Function.update_of_ne h, hx]
  · exact hx

theorem recordFailed_congr {hash x : Nat} {log log' : Nat → Option Status}
    (hh : log hash = log' hash) (hx : log x = log' x) :
    recordFailed hash log x = recordFailed hash log' x := by
  unfold recordFailed
  rw [hh]
  split
  · exact hx
  · by_cases h : x = hash
    · simp [h]
    · simp [Function.update_of_ne h, hx]

theorem notePending_of_ne {hash x : Nat} (h : x ≠ hash) (log : Nat → Option Status) :
    notePending hash log x = log x := by
  unfold notePending
  split
  · exact Function.update_of_ne h ..
  · rfl

theorem recordFailed_of_ne {hash x : Nat} (h : x ≠ hash) (log : Nat → Option Status) :
    recordFailed hash log x = log x := by
  unfold recordFailed
  split
  · rfl
  · exact Function.update_of_ne h ..

/-- A failed record is not pending. -/
theorem recordFailed_self (hash : Nat) (log : Nat → Option Status) :
    recordFailed hash log hash ≠ some .pending := by
  unfold recordFailed
  split
  · rename_i h
    simp [h]
  · simp

namespace Outstanding

variable {k : Nat} {c : Call} {sh wo : Shared}

/-- Another client's budget. -/
theorem spend (h : Outstanding k c sh wo) {client : String} (hne : client ≠ c.client)
    (f : Pairing → Pairing) : Outstanding k c (sh.spend client f) (wo.spend client f) where
  elsewhere := by
    intro client' hne'
    by_cases heq : client' = client
    · subst heq
      simp [Shared.spend, h.elsewhere client' hne']
    · simp [Shared.spend, Function.update_of_ne heq, h.elsewhere client' hne']
  debit := by
    rw [Shared.spent_spend_ne _ hne.symm, Shared.spent_spend_ne _ hne.symm]
    exact h.debit
  waiters := h.waiters
  contexts := h.contexts
  waiter := h.waiter
  context := h.context
  log := h.log
  pending := h.pending

/-- A refund of another payment, of whatever client. -/
theorem refund (h : Outstanding k c sh wo) (client : String) (amt : Nat) :
    Outstanding k c (sh.spend client (·.refundBudget amt)) (wo.spend client (·.refundBudget amt)) := by
  by_cases hclient : client = c.client
  · subst hclient
    refine ⟨?_, ?_, h.waiters, h.contexts, h.waiter, h.context, h.log, h.pending⟩
    · intro client' hne
      simp [Shared.spend, Function.update_of_ne hne, h.elsewhere client' hne]
    · rw [Shared.spent_refund, Shared.spent_refund, ← h.debit]
      simp only [Option.map_map]
      congr 1
      funext x
      simp only [Function.comp_apply]
      omega
  · exact h.spend hclient _

/-- The entries of another hash. -/
theorem register (h : Outstanding k c sh wo) {hash : Nat} (hne : hash ≠ c.pay.hash) (j : Nat) :
    Outstanding k c (sh.register hash j) (wo.register hash j) where
  elsewhere := h.elsewhere
  debit := h.debit
  waiters := by
    simp only [Shared.register]
    rw [h.waiters, Function.update_comm hne]
  contexts := by
    simp only [Shared.register]
    rw [h.contexts, Function.update_comm hne]
  waiter := (Function.update_of_ne hne.symm ..).trans h.waiter
  context := (Function.update_of_ne hne.symm ..).trans h.context
  log := h.log
  pending := h.pending

theorem forget (h : Outstanding k c sh wo) {hash : Nat} (hne : hash ≠ c.pay.hash) :
    Outstanding k c (sh.forget hash) (wo.forget hash) where
  elsewhere := h.elsewhere
  debit := h.debit
  waiters := by
    simp only [Shared.forget]
    rw [h.waiters, Function.update_comm hne]
  contexts := by
    simp only [Shared.forget]
    rw [h.contexts, Function.update_comm hne]
  waiter := (Function.update_of_ne hne.symm ..).trans h.waiter
  context := (Function.update_of_ne hne.symm ..).trans h.context
  log := h.log
  pending := h.pending

/-- The record of another hash. -/
theorem finalize (h : Outstanding k c sh wo) {f : (Nat → Option Status) → Nat → Option Status}
    {hash : Nat} (hne : hash ≠ c.pay.hash)
    (hcongr : ∀ log log' x, log hash = log' hash → log x = log' x → f log x = f log' x)
    (hother : ∀ log x, x ≠ hash → f log x = log x) :
    Outstanding k c (sh.finalize f) (wo.finalize f) where
  elsewhere := h.elsewhere
  debit := h.debit
  waiters := h.waiters
  contexts := h.contexts
  waiter := h.waiter
  context := h.context
  log := by
    intro x hx
    exact hcongr _ _ x (h.log hash (.inl hne)) (h.log x hx)
  pending := by
    intro hinvoice
    have hp := h.pending hinvoice
    unfold Shared.pending at *
    rw [← hp]
    simp only [Shared.finalize, hother wo.log c.pay.hash hne.symm]

end Outstanding

/-! ## Reserving and undoing -/

section

variable {s s' : State} {k : Nat} {c c' : Call}

theorem reserved_connections (k : Nat) (c : Call) (spentToday now : Nat) (sh : Shared) :
    (reserved k c spentToday now sh).connections =
      (sh.spend c.client (·.debitBudget spentToday c.pay.amtSats now)).connections := by
  unfold reserved
  by_cases h : c.isInvoice = true <;> simp only [h] <;> rfl

theorem undone_connections (c : Call) (sh : Shared) :
    (undone c sh).connections = (sh.spend c.client (·.refundBudget c.pay.amtSats)).connections := by
  unfold undone
  by_cases h : c.isInvoice = true <;> simp only [h] <;> rfl

theorem Shared.spent_congr {sh sh' : Shared} (h : sh.connections = sh'.connections)
    (client : String) : sh.spent client = sh'.spent client := by
  unfold Shared.spent
  rw [h]

/-- A reservation of a hash that is not in use, from the counter as it is, is outstanding. -/
theorem outstanding_reserved {spentToday : Nat} (now : Nat) {wo : Shared}
    (hspent : wo.spent c.client = some spentToday) (hwaiter : wo.waiters c.pay.hash = none)
    (hcontext : wo.contexts c.pay.hash = none)
    (hpending : c.isInvoice = true → wo.pending c.pay.hash = false) :
    Outstanding k c (reserved k c spentToday now wo) wo := by
  obtain ⟨p, hp, hptoday⟩ := Option.map_eq_some_iff.mp hspent
  have hconnections := reserved_connections k c spentToday now wo
  refine ⟨?_, ?_, ?_, ?_, hwaiter, hcontext, ?_, hpending⟩
  · intro client hne
    rw [hconnections]
    exact Function.update_of_ne hne ..
  · rw [hspent, Shared.spent_congr hconnections, Shared.spent_spend_self, hp]
    simp [Pairing.debitBudget]
  · unfold reserved
    by_cases h : c.isInvoice = true <;> simp only [h] <;> rfl
  · unfold reserved
    by_cases h : c.isInvoice = true <;> simp only [h] <;> rfl
  · intro hash hhash
    unfold reserved
    by_cases h : c.isInvoice = true
    · simp only [h]
      exact notePending_of_ne (hhash.resolve_right (by simp [h])) _
    · simp only [h]
      rfl

/-- Undoing what is outstanding leaves nothing. -/
theorem Outstanding.undone {sh wo : Shared} (h : Outstanding k c sh wo) :
    Agree (undone c sh) wo := by
  have hconnections := undone_connections c sh
  refine ⟨?_, ?_, ?_, ?_⟩
  · intro client
    rw [Shared.spent_congr hconnections]
    by_cases hclient : client = c.client
    · subst hclient
      rw [Shared.spent_refund]
      exact h.debit
    · rw [Shared.spent_spend_ne _ hclient]
      unfold Shared.spent
      rw [h.elsewhere client hclient]
  · have hwaiters : (Payments.undone c sh).waiters = Function.update sh.waiters c.pay.hash none := by
      unfold Payments.undone
      by_cases hinvoice : c.isInvoice = true <;> simp only [hinvoice] <;> rfl
    rw [hwaiters, h.waiters, Function.update_idem, ← h.waiter, Function.update_eq_self]
  · have hcontexts : (Payments.undone c sh).contexts =
        Function.update sh.contexts c.pay.hash none := by
      unfold Payments.undone
      by_cases hinvoice : c.isInvoice = true <;> simp only [hinvoice] <;> rfl
    rw [hcontexts, h.contexts, Function.update_idem, ← h.context, Function.update_eq_self]
  · intro hash
    have hlog : (Payments.undone c sh).log =
        if c.isInvoice then recordFailed c.pay.hash sh.log else sh.log := by
      unfold Payments.undone
      by_cases hinvoice : c.isInvoice = true <;> simp only [hinvoice] <;> rfl
    unfold Shared.pending
    rw [hlog]
    by_cases hinvoice : c.isInvoice = true
    · simp only [hinvoice, if_true]
      by_cases hhash : hash = c.pay.hash
      · subst hhash
        have hpending := h.pending hinvoice
        unfold Shared.pending at hpending
        rw [hpending]
        simpa using recordFailed_self c.pay.hash sh.log
      · rw [recordFailed_of_ne hhash, h.log hash (.inl hhash)]
    · simp only [hinvoice]
      rw [if_neg (by simp), h.log hash (.inr (by simpa using hinvoice))]

/-! ## Whose entries there are -/

/-- Every entry is that of a call whose payment is not handed over yet, or in flight. -/
structure Owned (s : State) : Prop where
  waiters : ∀ (hash j : Nat), s.shared.waiters hash = some j →
    ∃ d : Call, s.calls[j]? = some d ∧ d.pay.hash = hash ∧ d.entered = true
  contexts : ∀ (hash j : Nat), s.shared.contexts hash = some j →
    ∃ d : Call, s.calls[j]? = some d ∧ d.pay.hash = hash ∧ d.entered = true

/-- One map of entries after call `k` has moved on to `c'`. -/
theorem owned_update {m m' : Nat → Option Nat} (hk : s.calls[k]? = some c)
    (hcalls : s'.calls = s.calls.set k c') (hpay : c'.pay = c.pay)
    (h : ∀ (hash j : Nat), m hash = some j →
      ∃ d : Call, s.calls[j]? = some d ∧ d.pay.hash = hash ∧ d.entered = true)
    (hother : ∀ hash, hash ≠ c.pay.hash → m' hash = m hash)
    (hself : m' c.pay.hash = none ∨ (m' c.pay.hash = some k ∧ c'.entered = true) ∨
      (m' c.pay.hash = m c.pay.hash ∧ (c.entered = true → c'.entered = true))) :
    ∀ (hash j : Nat), m' hash = some j →
      ∃ d : Call, s'.calls[j]? = some d ∧ d.pay.hash = hash ∧ d.entered = true := by
  have hlt := lt_of_call hk
  intro hash j hj
  rw [hcalls]
  by_cases hhash : hash = c.pay.hash
  · subst hhash
    rcases hself with hnone | ⟨hsome, hentered⟩ | ⟨hsame, hentered⟩
    · rw [hnone] at hj
      cases hj
    · rw [hsome, Option.some.injEq] at hj
      subst hj
      exact ⟨c', List.getElem?_set_self hlt, by rw [hpay], hentered⟩
    · obtain ⟨d, hd, hdhash, hdentered⟩ := h _ j (hsame ▸ hj)
      by_cases hjk : k = j
      · subst hjk
        rw [hk, Option.some.injEq] at hd
        subst hd
        exact ⟨c', List.getElem?_set_self hlt, by rw [hpay], hentered hdentered⟩
      · exact ⟨d, by rw [List.getElem?_set_ne hjk, hd], hdhash, hdentered⟩
  · obtain ⟨d, hd, hdhash, hdentered⟩ := h hash j (hother hash hhash ▸ hj)
    have hjk : k ≠ j := by
      intro heq
      subst heq
      rw [hk, Option.some.injEq] at hd
      exact hhash (hd ▸ hdhash.symm)
    exact ⟨d, by rw [List.getElem?_set_ne hjk, hd], hdhash, hdentered⟩

/-- The entries stay, and so does what the call that moves has entered. -/
theorem Owned.still (h : Owned s) (hk : s.calls[k]? = some c)
    (hcalls : s'.calls = s.calls.set k c') (hpay : c'.pay = c.pay)
    (hshared : s'.shared.waiters = s.shared.waiters ∧ s'.shared.contexts = s.shared.contexts)
    (hentered : c.entered = true → c'.entered = true) : Owned s' where
  waiters := owned_update hk hcalls hpay h.waiters (fun _ _ => by rw [hshared.1])
    (.inr (.inr ⟨by rw [hshared.1], hentered⟩))
  contexts := owned_update hk hcalls hpay h.contexts (fun _ _ => by rw [hshared.2])
    (.inr (.inr ⟨by rw [hshared.2], hentered⟩))

/-- The entries of the hash are deleted. -/
theorem Owned.forget (h : Owned s) (hk : s.calls[k]? = some c)
    (hcalls : s'.calls = s.calls.set k c') (hpay : c'.pay = c.pay)
    (hwaiters : s'.shared.waiters = Function.update s.shared.waiters c.pay.hash none)
    (hcontexts : s'.shared.contexts = Function.update s.shared.contexts c.pay.hash none) :
    Owned s' where
  waiters := owned_update hk hcalls hpay h.waiters
    (fun _ hne => by rw [hwaiters, Function.update_of_ne hne])
    (.inl (by rw [hwaiters, Function.update_self]))
  contexts := owned_update hk hcalls hpay h.contexts
    (fun _ hne => by rw [hcontexts, Function.update_of_ne hne])
    (.inl (by rw [hcontexts, Function.update_self]))

theorem Quiet.entered (h : Quiet s c c') (hentered : c.entered = true) : c'.entered = true := by
  cases h with
  | started enabled hstage _ => cases enabled <;> simp_all [Call.entered]
  | rejected checked hstage => rcases hstage with hstage | ⟨now, hstage⟩ <;> simp_all [Call.entered]
  | hashing spentToday now hstage =>
    rcases hstage with hstage | ⟨now', hstage⟩ <;> simp_all [Call.entered]
  | settled => by_cases hs : c.stage = .settling <;> simp_all [Call.entered]
  | timedOut => by_cases hs : c.stage = .settling <;> simp_all [Call.entered]
  | _ => simp_all [Call.entered]

theorem event_entries (k : Nat) (c : Call) (s : State) :
    ((handlePaymentSettled k c s).shared = (s.shared.forget c.pay.hash).finalize
        (recordSent c.pay.hash) ∧
      ∀ j, (handlePaymentSettled k c s).without j = if some k = some j then s.without j
        else ((s.without j).forget c.pay.hash).finalize (recordSent c.pay.hash)) ∧
    (handlePaymentFailed k c s).shared = (s.shared.forget c.pay.hash).finalize
        (recordFailed c.pay.hash) ∧
      ∀ j, (handlePaymentFailed k c s).without j = if some k = some j then s.without j
        else ((s.without j).forget c.pay.hash).finalize (recordFailed c.pay.hash) := by
  have hsettled := wake_shared c.pay.hash .resolved (s.put k (c.outcome .settled))
  have hfailed := wake_shared c.pay.hash .rejected (s.put k (c.outcome .failed))
  have hnotify := notify_shared c.pay.hash k
    (wake c.pay.hash .resolved (s.put k (c.outcome .settled)))
  refine ⟨⟨?_, ?_⟩, ?_, ?_⟩
  · simp only [handlePaymentSettled, State.emit, hnotify.1, hsettled.1]
    rfl
  · intro j
    simp only [handlePaymentSettled, State.emit, hnotify.2, hsettled.2.2]
    rfl
  · simp only [handlePaymentFailed, State.emit, hfailed.1]
    rfl
  · intro j
    simp only [handlePaymentFailed, State.emit, hfailed.2.2]
    rfl

theorem Owned.move (h : Owned s) (hi : Isolating s) (hk : s.calls[k]? = some c)
    (hmove : Move s k c s') : Owned s' := by
  cases hmove with
  | quiet hquiet => exact h.still hk rfl hquiet.still.1 ⟨rfl, rfl⟩ hquiet.entered
  | reset now hstage _ _ =>
    exact h.still hk rfl rfl ⟨rfl, rfl⟩ (by simp +contextual [Call.entered, hstage])
  | @reserve spentToday checked now hsnap =>
    have hentries := reserve_entries k { c with checked := c.checked || checked } spentToday now s
    refine ⟨owned_update hk rfl rfl h.waiters ?_ (.inr (.inl ⟨?_, rfl⟩)),
      owned_update hk rfl rfl h.contexts ?_ (.inr (.inl ⟨?_, rfl⟩))⟩
    · intro hash hne
      rw [hentries.1, Function.update_of_ne hne]
    · rw [hentries.1]
      exact Function.update_self ..
    · intro hash hne
      rw [hentries.2, Function.update_of_ne hne]
    · rw [hentries.2]
      exact Function.update_self ..
  | undo hstage => exact h.forget hk rfl rfl (undo_entries k c s).1 (undo_entries k c s).2
  | note hstage =>
    exact h.still hk rfl rfl ⟨rfl, rfl⟩ (by simp +contextual [Call.entered, hstage])
  | settled hp =>
    have hwaiter := (hi.entries k c hk (by simp [Call.entered, hp])).1
    refine h.forget hk (handlePaymentSettled_calls hwaiter) rfl ?_ ?_ <;>
      rw [(event_entries k c s).1.1] <;> rfl
  | failed hp =>
    have hwaiter := (hi.entries k c hk (by simp [Call.entered, hp])).1
    refine h.forget hk (handlePaymentFailed_calls hwaiter) rfl ?_ ?_ <;>
      rw [(event_entries k c s).2.1] <;> rfl
  | refund =>
    refine h.still hk rfl rfl ⟨rfl, rfl⟩ ?_
    by_cases hs : c.stage = .settling <;> simp_all [Call.entered]

/-- A hash that no other call has registered is not in use. -/
theorem Owned.unused (h : Owned s) (hk : s.calls[k]? = some c) (hlone : Lone s k c)
    (hnot : c.entered = false) :
    s.shared.waiters c.pay.hash = none ∧ s.shared.contexts c.pay.hash = none := by
  have hnone : ∀ (j : Nat) (d : Call), s.calls[j]? = some d → d.pay.hash = c.pay.hash →
      d.entered = true → False := by
    intro j d hd hhash hentered
    by_cases hjk : j = k
    · subst hjk
      rw [hk, Option.some.injEq] at hd
      subst hd
      rw [hnot] at hentered
      cases hentered
    · exact hlone j d hjk hd (Call.live_of_entered hentered) hhash
  constructor
  · by_contra hsome
    obtain ⟨j, hj⟩ := Option.ne_none_iff_exists'.mp hsome
    obtain ⟨d, hd, hhash, hentered⟩ := h.waiters _ j hj
    exact hnone j d hd hhash hentered
  · by_contra hsome
    obtain ⟨j, hj⟩ := Option.ne_none_iff_exists'.mp hsome
    obtain ⟨d, hd, hhash, hentered⟩ := h.contexts _ j hj
    exact hnone j d hd hhash hentered

/-! ## The copies -/

/-- The call has registered its hash, and its payment is not handed over yet. -/
def Call.reserving (c : Call) : Bool := c.stage = .debiting || c.stage = .waiting

/-- The call has not registered its hash yet. -/
def Call.early (c : Call) : Bool :=
  match c.stage with
  | .queued | .decrypting | .resetting _ | .hashing _ _ => true
  | _ => false

structure Tracks (s : State) : Prop where
  absent : ∀ j, s.calls.length ≤ j → s.without j = s.shared
  early : ∀ (j : Nat) (d : Call), s.calls[j]? = some d → d.early = true → s.without j = s.shared
  reserving : ∀ (j : Nat) (d : Call), s.calls[j]? = some d → d.reserving = true →
    Outstanding j d s.shared (s.without j)
  /-- Refunds leave a counter that was just reset at 0. -/
  resetting : ∀ (j : Nat) (d : Call) (now : Nat), s.calls[j]? = some d → d.stage = .resetting now →
    s.shared.spent d.client = some 0

/-- Two started calls of one client are not both unreleased. -/
theorem Queue.exclusive (h : Queue s) {j : Nat} {d : Call} (hj : s.calls[j]? = some d)
    (hk : s.calls[k]? = some c) (hjk : j ≠ k) (hstarted : d.stage ≠ .queued ∧ c.stage ≠ .queued)
    (hunreleased : d.released = false ∧ c.released = false) : d.client ≠ c.client := by
  intro hclient
  rcases Nat.lt_or_gt_of_ne hjk with hlt | hlt
  · have := h.started k c hk hstarted.2 j d hlt hj hclient
    simp [hunreleased.1] at this
  · have := h.started j d hj hstarted.1 k c hlt hk hclient.symm
    simp [hunreleased.2] at this

/-- Call `k` moves on to `c'`, and `f` goes to the shared state and to all copies but its own. -/
theorem Tracks.update (h : Tracks s) (hk : s.calls[k]? = some c)
    (hcalls : s'.calls = s.calls.set k c') (tag : Option Nat) (f : Shared → Shared)
    (hshared : s'.shared = f s.shared)
    (hwithout : ∀ j, s'.without j = if tag = some j then s.without j else f (s.without j))
    (htag : tag = none ∨ tag = some k)
    (hothers : ∀ (j : Nat) (d : Call), j ≠ k → s.calls[j]? = some d → d.reserving = true →
      ∀ sh wo, Outstanding j d sh wo → Outstanding j d (f sh) (f wo))
    (hreset : ∀ (j : Nat) (d : Call) (now : Nat), j ≠ k → s.calls[j]? = some d →
      d.stage = .resetting now → s.shared.spent d.client = some 0 →
        (f s.shared).spent d.client = some 0)
    (hearly : c'.early = true → s'.without k = s'.shared)
    (hown : c'.reserving = true → Outstanding k c' s'.shared (s'.without k))
    (hzero : ∀ now, c'.stage = .resetting now → s'.shared.spent c'.client = some 0) :
    Tracks s' := by
  have hlt := lt_of_call hk
  have hback : ∀ n d', s'.calls[n]? = some d' →
      ∃ d, s.calls[n]? = some d ∧ (n = k ∧ d' = c' ∨ n ≠ k ∧ d' = d) := by
    intro n d' hd'
    exact calls_put hk (hcalls ▸ hd')
  have hcopy : ∀ j, j ≠ k → s'.without j = f (s.without j) := by
    intro j hj
    rw [hwithout, if_neg]
    rcases htag with rfl | rfl
    · simp
    · simpa using hj.symm
  refine ⟨?_, ?_, ?_, ?_⟩
  · intro j hj
    rw [hcalls, List.length_set] at hj
    rw [hcopy j (by omega), hshared, h.absent j hj]
  · intro j d' hd' he
    obtain ⟨d, hd, ⟨rfl, rfl⟩ | ⟨hn, rfl⟩⟩ := hback j d' hd'
    · exact hearly he
    · rw [hcopy j hn, hshared, h.early j d' hd he]
  · intro j d' hd' hr
    obtain ⟨d, hd, ⟨rfl, rfl⟩ | ⟨hn, rfl⟩⟩ := hback j d' hd'
    · exact hown hr
    · rw [hcopy j hn, hshared]
      exact hothers j d' hn hd hr _ _ (h.reserving j d' hd hr)
  · intro j d' now hd' hstage
    obtain ⟨d, hd, ⟨rfl, rfl⟩ | ⟨hn, rfl⟩⟩ := hback j d' hd'
    · exact hzero now hstage
    · rw [hshared]
      exact hreset j d' now hn hd hstage (h.resetting j d' now hd hstage)

/-- Nothing shared changes. -/
theorem Tracks.still (h : Tracks s) (hk : s.calls[k]? = some c)
    (hcalls : s'.calls = s.calls.set k c') (hshared : s'.shared = s.shared)
    (hwithout : s'.without = s.without)
    (hearly : c'.early = true → c.early = true)
    (hreserving : c'.reserving = true → c.reserving = true)
    (hsame : c'.pay = c.pay ∧ c'.request = c.request)
    (hzero : ∀ now, c'.stage = .resetting now → c.stage = .resetting now) : Tracks s' := by
  refine h.update hk hcalls none id hshared ?_ (.inl rfl) ?_ ?_ ?_ ?_ ?_
  · intro j
    simp [hwithout]
  · exact fun _ _ _ _ _ _ _ ho => ho
  · exact fun _ _ _ _ _ _ h0 => h0
  · intro he
    rw [hwithout, hshared]
    exact h.early k c hk (hearly he)
  · intro hr
    rw [hwithout, hshared]
    have ho := h.reserving k c hk (hreserving hr)
    obtain ⟨hpay, hrequest⟩ := hsame
    have hclient : c'.client = c.client := by simp [Call.client, hrequest]
    have hinvoice : c'.isInvoice = c.isInvoice := by simp [Call.isInvoice, hrequest]
    constructor
    · rw [hclient]
      exact ho.elsewhere
    · rw [hclient, hpay]
      exact ho.debit
    · rw [hpay]
      exact ho.waiters
    · rw [hpay]
      exact ho.contexts
    · rw [hpay]
      exact ho.waiter
    · rw [hpay]
      exact ho.context
    · rw [hpay, hinvoice]
      exact ho.log
    · rw [hpay, hinvoice]
      exact ho.pending
  · intro now hstage
    rw [hshared]
    have hclient : c'.client = c.client := by simp [Call.client, hsame.2]
    rw [hclient]
    exact h.resetting k c now hk (hzero now hstage)

theorem Quiet.tracked (h : Quiet s c c') :
    (c'.early = true → c.early = true) ∧ (c'.reserving = true → c.reserving = true) ∧
      (c'.pay = c.pay ∧ c'.request = c.request) ∧
      ∀ now, c'.stage = .resetting now → c.stage = .resetting now := by
  cases h with
  | started enabled hstage _ => cases enabled <;> simp_all [Call.early, Call.reserving]
  | rejected checked hstage => simp [Call.early, Call.reserving]
  | hashing spentToday now hstage =>
    rcases hstage with hstage | ⟨now', hstage⟩ <;> simp_all [Call.early, Call.reserving]
  | settled => by_cases hs : c.stage = .settling <;> simp_all [Call.early, Call.reserving]
  | timedOut => by_cases hs : c.stage = .settling <;> simp_all [Call.early, Call.reserving]
  | _ => simp_all [Call.early, Call.reserving]

/-- A step that registers a hash finds no pending record of it, and the counter as it was
checked. -/
def Action.Fresh (a : Action) (s : State) : Prop :=
  ∀ (k : Nat) (c : Call), a.call = some k → s.calls[k]? = some c →
    ∀ (s' : State) (c' : Call), a.step s = some s' → s'.calls[k]? = some c' →
      c'.stage = .debiting → c.stage = .debiting ∨
        ((c.isInvoice = true → s.shared.pending c.pay.hash = false) ∧
          ∀ spentToday now, c.stage = .hashing spentToday now →
            s.shared.spent c.client = some spentToday)

/-- The condition on a step. -/
def Action.Clean (a : Action) (s : State) : Prop := a.Unbroken s ∧ a.Alone s ∧ a.Fresh s

/-- The invariants of a run of such steps. -/
structure Tracked (s : State) : Prop where
  queue : Queue s
  tails : Tails s
  isolating : Isolating s
  owned : Owned s
  tracks : Tracks s

namespace Tracked

/-- Another call that is under way has another hash than a call under way. -/
theorem hash_ne (h : Tracked s) (hk : s.calls[k]? = some c) (hlive : c.live = true) {j : Nat}
    {d : Call} (hj : j ≠ k) (hd : s.calls[j]? = some d) (hr : d.reserving = true) :
    c.pay.hash ≠ d.pay.hash := by
  have hdlive : d.live = true := by
    simp only [Call.reserving, Call.live, Bool.or_eq_true] at hr ⊢
    tauto
  exact (h.isolating.alone k c hk hlive j d hj hd hdlive).symm

/-- Another call that has started, and not reserved yet, is of another client. -/
theorem client_ne (h : Tracked s) (hk : s.calls[k]? = some c) (hstarted : c.stage ≠ .queued)
    (hunreleased : c.released = false) {j : Nat} {d : Call} (hj : j ≠ k)
    (hd : s.calls[j]? = some d) (hr : d.reserving = true ∨ ∃ now, d.stage = .resetting now) :
    c.client ≠ d.client := by
  have hsound := (h.queue.sound j d hd).1
  unfold Call.Sound at hsound
  have hstage : d.stage = .debiting ∨ d.stage = .waiting ∨ ∃ now, d.stage = .resetting now := by
    rcases hr with hr | hr
    · simp only [Call.reserving, Bool.or_eq_true, decide_eq_true_eq] at hr
      tauto
    · exact .inr (.inr hr)
  have hd₀ : d.stage ≠ .queued ∧ d.released = false := by
    rcases hstage with hstage | hstage | ⟨now, hstage⟩ <;> simp_all
  exact (h.queue.exclusive hd hk hj ⟨hd₀.1, hstarted⟩ ⟨hd₀.2, hunreleased⟩).symm

/-- The counter that a registration starts from is the counter as it is. -/
theorem snapshot (h : Tracked s) (hk : s.calls[k]? = some c) {spentToday : Nat}
    (hsnap : Snapshot s c spentToday)
    (hfresh : ∀ spentToday now, c.stage = .hashing spentToday now →
      s.shared.spent c.client = some spentToday) : s.shared.spent c.client = some spentToday := by
  cases hsnap with
  | read hstage hp => simp [Shared.spent, hp]
  | @reset now hstage => exact h.tracks.resetting k c now hk hstage
  | @hashed _ now hstage => exact hfresh spentToday now hstage

/-- What a registration does to another call's copy. -/
theorem outstanding_reserve (h : Tracked s) (hk : s.calls[k]? = some c) {spentToday : Nat}
    (now : Nat) (hsnap : Snapshot s c spentToday) (hlone : Lone s k c) {j : Nat} {d : Call}
    (hj : j ≠ k) (hd : s.calls[j]? = some d) (hr : d.reserving = true) {sh wo : Shared}
    (ho : Outstanding j d sh wo) :
    Outstanding j d (reserved k c spentToday now sh) (reserved k c spentToday now wo) := by
  have hsound := (h.queue.sound k c hk).1
  unfold Call.Sound at hsound
  have hunreleased : c.stage ≠ .queued ∧ c.released = false := by cases hsnap <;> simp_all
  have hclient := h.client_ne hk hunreleased.1 hunreleased.2 hj hd (.inl hr)
  have hdlive : d.live = true := by
    simp only [Call.reserving, Call.live, Bool.or_eq_true] at hr ⊢
    tauto
  have hhash : c.pay.hash ≠ d.pay.hash := (hlone j d hj hd hdlive).symm
  have hentered := ho.register hhash k
  unfold reserved
  by_cases hinvoice : c.isInvoice = true
  · simp only [hinvoice, if_true]
    refine Outstanding.spend ?_ hclient _
    exact hentered.finalize hhash (fun _ _ _ => notePending_congr) fun _ _ hx =>
      notePending_of_ne hx _
  · simp only [hinvoice]
    exact Outstanding.spend hentered hclient _

/-- What undoing a reservation does to another call's copy. -/
theorem outstanding_undo (h : Tracked s) (hk : s.calls[k]? = some c) (hstage : c.stage = .waiting)
    {j : Nat} {d : Call} (hj : j ≠ k) (hd : s.calls[j]? = some d) (hr : d.reserving = true)
    {sh wo : Shared} (ho : Outstanding j d sh wo) :
    Outstanding j d (undone c sh) (undone c wo) := by
  have hhash := h.hash_ne hk (by simp [Call.live, hstage]) hj hd hr
  have hforgotten := ho.forget hhash
  unfold undone
  by_cases hinvoice : c.isInvoice = true
  · simp only [hinvoice, if_true]
    refine Outstanding.refund ?_ _ _
    exact hforgotten.finalize hhash (fun _ _ _ => recordFailed_congr) fun _ _ hx =>
      recordFailed_of_ne hx _
  · simp only [hinvoice]
    exact Outstanding.refund hforgotten _ _

/-- An outcome of another payment. -/
theorem outstanding_event (h : Tracked s) (hk : s.calls[k]? = some c)
    (hp : c.payment = some .pending) {f : (Nat → Option Status) → Nat → Option Status}
    (hcongr : ∀ log log' x, log c.pay.hash = log' c.pay.hash → log x = log' x → f log x = f log' x)
    (hother : ∀ log x, x ≠ c.pay.hash → f log x = log x) {j : Nat} {d : Call} (hj : j ≠ k)
    (hd : s.calls[j]? = some d) (hr : d.reserving = true) {sh wo : Shared}
    (ho : Outstanding j d sh wo) :
    Outstanding j d ((sh.forget c.pay.hash).finalize f) ((wo.forget c.pay.hash).finalize f) := by
  have hhash := h.hash_ne hk (by simp [Call.live, hp]) hj hd hr
  exact (ho.forget hhash).finalize hhash hcongr hother

/-- A refund leaves a counter of 0. -/
theorem spent_refund_zero {sh : Shared} {client : String} (h0 : sh.spent client = some 0)
    (client' : String) (amt : Nat) :
    (sh.spend client' (·.refundBudget amt)).spent client = some 0 := by
  by_cases hclient : client = client'
  · subst hclient
    rw [Shared.spent_refund, h0]
    simp
  · rw [Shared.spent_spend_ne _ hclient, h0]

theorem tracks_reset (h : Tracked s) (hk : s.calls[k]? = some c) {p : NwcConnection} (now : Nat)
    (hstage : c.stage = .decrypting) (hp : s.shared.connections c.client = some p)
    (helapsed : budgetWindowElapsed p.budgetRenewal p.lastSpentTimestamp now = true) :
    Tracks ((s.emit none fun sh => sh.spend c.client (·.resetBudget now)).put k
      { c with stage := .resetting now }) := by
  have hsound := (h.queue.sound k c hk).1
  unfold Call.Sound at hsound
  have hunreleased : c.stage ≠ .queued ∧ c.released = false := by simp_all
  have hcopy := h.tracks.early k c hk (by simp [Call.early, hstage])
  refine h.tracks.update hk rfl none (fun sh => sh.spend c.client (·.resetBudget now)) rfl
    (fun _ => rfl) (.inl rfl) ?_ ?_ ?_ ?_ ?_
  · intro j d hj hd hr sh wo ho
    exact ho.spend (h.client_ne hk hunreleased.1 hunreleased.2 hj hd (.inl hr)) _
  · intro j d now' hj hd hstage' hzero
    have hclient := h.client_ne hk hunreleased.1 hunreleased.2 hj hd (.inr ⟨now', hstage'⟩)
    rw [Shared.spent_spend_ne _ hclient.symm, hzero]
  · intro _
    change (s.without k).spend c.client (·.resetBudget now) = _
    rw [hcopy]
    rfl
  · intro hr
    simp [Call.reserving] at hr
  · intro now' _
    change (s.shared.spend c.client (·.resetBudget now)).spent c.client = some 0
    rw [Shared.spent_spend_self, hp]
    simp [Pairing.resetBudget, helapsed]

theorem tracks_reserve (h : Tracked s) (hk : s.calls[k]? = some c) {spentToday : Nat}
    (checked : Bool) (now : Nat) (hsnap : Snapshot s c spentToday) (hlone : Lone s k c)
    (hfresh : (c.isInvoice = true → s.shared.pending c.pay.hash = false) ∧
      ∀ spentToday now, c.stage = .hashing spentToday now →
        s.shared.spent c.client = some spentToday) :
    Tracks (reserve k { c with checked := c.checked || checked } spentToday now s) := by
  have hsound := (h.queue.sound k c hk).1
  unfold Call.Sound at hsound
  have hearly : c.early = true := by cases hsnap <;> simp_all [Call.early]
  have hunreleased : c.stage ≠ .queued ∧ c.released = false := by cases hsnap <;> simp_all
  have hnot : c.entered = false := by cases hsnap <;> simp_all [Call.entered]
  obtain ⟨hwaiter, hcontext⟩ := h.owned.unused hk hlone hnot
  have hcopy := h.tracks.early k c hk hearly
  have hspent := h.snapshot hk hsnap hfresh.2
  refine h.tracks.update hk rfl (some k)
    (reserved k { c with checked := c.checked || checked } spentToday now) rfl (fun _ => rfl)
    (.inr rfl) ?_ ?_ ?_ ?_ ?_
  · intro j d hj hd hr sh wo ho
    exact h.outstanding_reserve hk now hsnap hlone hj hd hr ho
  · intro j d now' hj hd hstage hzero
    have hclient := h.client_ne hk hunreleased.1 hunreleased.2 hj hd (.inr ⟨now', hstage⟩)
    rw [Shared.spent_congr (reserved_connections ..), ← hzero]
    exact Shared.spent_spend_ne _ hclient.symm _
  · intro he
    simp [Call.early] at he
  · intro _
    have hself : (reserve k { c with checked := c.checked || checked } spentToday now s).without k =
        s.without k := if_pos rfl
    rw [hself, hcopy]
    obtain ⟨helsewhere, hdebit, hwaiters, hcontexts, -, -, hlog, hpending⟩ :=
      outstanding_reserved (k := k) (c := c) now hspent hwaiter hcontext hfresh.1
    exact ⟨helsewhere, hdebit, hwaiters, hcontexts, hwaiter, hcontext, hlog, hpending⟩
  · intro now' hstage
    cases hstage

theorem tracks_undo (h : Tracked s) (hk : s.calls[k]? = some c) (hstage : c.stage = .waiting) :
    Tracks (undo k c s) := by
  refine h.tracks.update hk rfl (some k) (undone c) rfl (fun _ => rfl) (.inr rfl) ?_ ?_ ?_ ?_ ?_
  · intro j d hj hd hr sh wo ho
    exact h.outstanding_undo hk hstage hj hd hr ho
  · intro j d now hj hd _ hzero
    rw [Shared.spent_congr (undone_connections ..)]
    exact spent_refund_zero hzero _ _
  · intro he
    simp [Call.early] at he
  · intro hr
    simp [Call.reserving] at hr
  · intro now hs
    cases hs

/-- A step of a call that has handed its payment over. -/
theorem tracks_sent (h : Tracked s) (hk : s.calls[k]? = some c)
    (hcalls : s'.calls = s.calls.set k c') {f : Shared → Shared} (hshared : s'.shared = f s.shared)
    (hwithout : ∀ j, s'.without j = if some k = some j then s.without j else f (s.without j))
    (hsent : c'.early = false ∧ c'.reserving = false)
    (hothers : ∀ (j : Nat) (d : Call), j ≠ k → s.calls[j]? = some d → d.reserving = true →
      ∀ sh wo, Outstanding j d sh wo → Outstanding j d (f sh) (f wo))
    (hreset : ∀ client, s.shared.spent client = some 0 → (f s.shared).spent client = some 0) :
    Tracks s' := by
  refine h.tracks.update hk hcalls (some k) f hshared hwithout (.inr rfl) hothers ?_ ?_ ?_ ?_
  · intro j d now hj hd _ hzero
    exact hreset d.client hzero
  · intro he
    rw [hsent.1] at he
    cases he
  · intro hr
    rw [hsent.2] at hr
    cases hr
  · intro now hstage
    have := hsent.1
    simp [Call.early, hstage] at this

theorem tracks_move (h : Tracked s) (hk : s.calls[k]? = some c) (hmove : Move s k c s')
    (hlone : (∃ c', s'.calls[k]? = some c' ∧ c'.stage = .debiting) →
      c.stage = .debiting ∨ Lone s k c)
    (hfresh : (∃ c', s'.calls[k]? = some c' ∧ c'.stage = .debiting) → c.stage = .debiting ∨
      ((c.isInvoice = true → s.shared.pending c.pay.hash = false) ∧
        ∀ spentToday now, c.stage = .hashing spentToday now →
          s.shared.spent c.client = some spentToday)) : Tracks s' := by
  have hlt := lt_of_call hk
  have hsound := (h.queue.sound k c hk).1
  unfold Call.Sound at hsound
  cases hmove with
  | quiet hquiet =>
    obtain ⟨hearly, hreserving, hsame, hzero⟩ := hquiet.tracked
    exact h.tracks.still hk rfl rfl rfl hearly hreserving hsame hzero
  | reset now hstage hp helapsed => exact h.tracks_reset hk now hstage hp helapsed
  | @reserve spentToday checked now hsnap =>
    have hregistered : ∃ c', (reserve k { c with checked := c.checked || checked } spentToday now
        s).calls[k]? = some c' ∧ c'.stage = .debiting :=
      ⟨{ c with checked := c.checked || checked, stage := .debiting, charge := .kept },
        by simp [Payments.reserve, State.put, State.emit, hlt], rfl⟩
    have hnot : c.stage ≠ .debiting := by cases hsnap <;> simp_all
    exact h.tracks_reserve hk checked now hsnap ((hlone hregistered).resolve_left hnot)
      ((hfresh hregistered).resolve_left hnot)
  | undo hstage => exact h.tracks_undo hk hstage
  | note hstage =>
    refine h.tracks_sent hk rfl (f := fun sh => sh.note c.pay.hash) rfl (fun _ => rfl) ⟨rfl, rfl⟩ ?_
      fun _ hzero => hzero
    intro j d hj hd hr sh wo ho
    have hhash := h.hash_ne hk (by simp [Call.live, hstage]) hj hd hr
    exact ho.finalize hhash (fun _ _ _ => notePending_congr) fun _ _ hx => notePending_of_ne hx _
  | settled hp =>
    have hwaiter := (h.isolating.entries k c hk (by simp [Call.entered, hp])).1
    obtain ⟨⟨hshared, hwithout⟩, -⟩ := event_entries k c s
    refine h.tracks_sent hk (handlePaymentSettled_calls hwaiter)
      (f := fun sh => (sh.forget c.pay.hash).finalize (recordSent c.pay.hash)) hshared hwithout ?_ ?_
      fun _ hzero => hzero
    · cases hstage : c.stage <;> simp_all [Call.early, Call.reserving, Call.outcome]
    · intro j d hj hd hr sh wo ho
      refine h.outstanding_event hk hp ?_ ?_ hj hd hr ho
      · intro log log' x _ hx
        by_cases hxh : x = c.pay.hash
        · simp [recordSent, hxh]
        · simp [recordSent, Function.update_of_ne hxh, hx]
      · intro log x hx
        exact Function.update_of_ne hx ..
  | failed hp =>
    have hwaiter := (h.isolating.entries k c hk (by simp [Call.entered, hp])).1
    obtain ⟨-, hshared, hwithout⟩ := event_entries k c s
    refine h.tracks_sent hk (handlePaymentFailed_calls hwaiter)
      (f := fun sh => (sh.forget c.pay.hash).finalize (recordFailed c.pay.hash)) hshared hwithout ?_ ?_
      fun _ hzero => hzero
    · cases hstage : c.stage <;> simp_all [Call.early, Call.reserving, Call.outcome]
    · intro j d hj hd hr sh wo ho
      exact h.outstanding_event hk hp (fun _ _ _ => recordFailed_congr)
        (fun _ _ hx => recordFailed_of_ne hx _) hj hd hr ho
  | refund hwatch hwaiter =>
    refine h.tracks_sent hk rfl (f := fun sh => sh.spend c.client (·.refundBudget c.pay.amtSats)) rfl
      (fun _ => rfl) ?_ ?_ ?_
    · cases hstage : c.stage <;> simp_all [Call.early, Call.reserving]
    · intro j d hj hd hr sh wo ho
      exact ho.refund _ _
    · intro client hzero
      exact spent_refund_zero hzero _ _

theorem tracks_arrive (h : Tracked s) (request : Request) (pay : Pay) :
    Tracks (handleNwcRequest request pay s) where
  absent := by
    intro j hj
    simp only [handleNwcRequest, List.length_append, List.length_singleton] at hj
    exact h.tracks.absent j (by omega)
  early := by
    intro j d hd he
    rcases calls_arrive hd with hd | ⟨rfl, -⟩
    · exact h.tracks.early j d hd he
    · exact h.tracks.absent _ (Nat.le_refl _)
  reserving := by
    intro j d hd hr
    rcases calls_arrive hd with hd | ⟨-, rfl⟩
    · exact h.tracks.reserving j d hd hr
    · simp [Call.reserving] at hr
  resetting := by
    intro j d now hd hstage
    rcases calls_arrive hd with hd | ⟨-, rfl⟩
    · exact h.tracks.resetting j d now hd hstage
    · cases hstage

theorem owned_arrive (h : Tracked s) (request : Request) (pay : Pay) :
    Owned (handleNwcRequest request pay s) where
  waiters := by
    intro hash j hj
    obtain ⟨d, hd, hrest⟩ := h.owned.waiters hash j hj
    exact ⟨d, calls_arrive_of_old hd, hrest⟩
  contexts := by
    intro hash j hj
    obtain ⟨d, hd, hrest⟩ := h.owned.contexts hash j hj
    exact ⟨d, calls_arrive_of_old hd, hrest⟩

theorem step {a : Action} (h : Tracked s) (ha : a.Clean s) (hs : a.step s = some s') :
    Tracked s' := by
  obtain ⟨hunbroken, halone, hfresh⟩ := ha
  obtain ⟨hqueue, htails⟩ := queue_step ⟨h.queue, h.tails⟩ hunbroken hs
  have hisolating := h.isolating.step halone hs
  rcases step_cases hs with ⟨request, pay, -, rfl⟩ | ⟨k, c, hcall, hk, hgoes⟩
  · exact ⟨hqueue, htails, hisolating, h.owned_arrive request pay, h.tracks_arrive request pay⟩
  · cases hgoes with
    | move hmove =>
      refine ⟨hqueue, htails, hisolating, h.owned.move h.isolating hk hmove,
        h.tracks_move hk hmove ?_ ?_⟩
      · rintro ⟨c', hc', hstage⟩
        exact halone k c hcall hk s' c' hs hc' hstage
      · rintro ⟨c', hc', hstage⟩
        exact hfresh k c hcall hk s' c' hs hc' hstage
    | leak hleak => exact absurd hleak (hunbroken k c hcall hk)
    | drain =>
      refine ⟨hqueue, htails, hisolating, h.owned.still hk rfl rfl ⟨rfl, rfl⟩ id, ?_⟩
      exact h.tracks.still hk rfl rfl rfl id id ⟨rfl, rfl⟩ fun _ => id

end Tracked

/-! ## The ends of a request -/

/-- The request is over but for its response. -/
def Call.over (c : Call) : Bool := c.stage = .answering || c.stage = .ended

theorem Quiet.over (h : Quiet s c c') (hsound : c.Sound) (hbefore : c.over = false)
    (hafter : c'.over = true) (hnone : c'.payment = none) : c.early = true := by
  unfold Call.Sound at hsound
  cases h with
  | started enabled hstage _ => simp [Call.early, hstage]
  | rejected checked hstage =>
    rcases hstage with hstage | ⟨now, hstage⟩ <;> simp [Call.early, hstage]
  | hashing => simp [Call.over] at hafter
  | resetFailed hstage => simp [Call.early, hstage]
  | hashFailed hstage => simp [Call.early, hstage]
  | debited => simp [Call.over] at hafter
  | accepted => simp [Call.over] at hafter
  | handed => simp [Call.over] at hafter
  | settled =>
    exfalso
    cases hstage : c.stage <;> simp_all [Call.over]
  | timedOut =>
    exfalso
    cases hstage : c.stage <;> simp_all [Call.over]
  | finished hstage => simp [Call.over, hstage] at hbefore
  | released hstage => simp [Call.over, hstage] at hbefore

/-- A step that ends a request without a payment leaves nothing of it. -/
theorem Tracked.agree (h : Tracked s) (hk : s.calls[k]? = some c) (hmove : Move s k c s')
    (hk' : s'.calls[k]? = some c') (hbefore : c.over = false) (hafter : c'.over = true)
    (hnone : c'.payment = none) : Agree s'.shared (s'.without k) := by
  have hlt := lt_of_call hk
  have hsound := (h.queue.sound k c hk).1
  have hself : ∀ {c₁ : Call}, (s.calls.set k c₁)[k]? = some c' → c₁ = c' := by
    intro c₁ h₁
    simpa [hlt] using h₁
  cases hmove with
  | @quiet c₁ hquiet =>
    obtain rfl := hself hk'
    have hcopy := h.tracks.early k c hk (hquiet.over hsound hbefore hafter hnone)
    change Agree s.shared (s.without k)
    rw [hcopy]
    exact ⟨fun _ => rfl, rfl, rfl, fun _ => rfl⟩
  | reset =>
    obtain rfl := hself hk'
    simp [Call.over] at hafter
  | reserve =>
    obtain rfl := hself hk'
    simp [Call.over] at hafter
  | undo hstage =>
    have ho := h.tracks.reserving k c hk (by simp [Call.reserving, hstage])
    have hcopy : (undo k c s).without k = s.without k := if_pos rfl
    rw [hcopy]
    exact ho.undone
  | note hstage =>
    obtain rfl := hself hk'
    unfold Call.Sound at hsound
    simp_all
  | settled hp =>
    have hwaiter := (h.isolating.entries k c hk (by simp [Call.entered, hp])).1
    rw [handlePaymentSettled_calls hwaiter] at hk'
    obtain rfl := hself hk'
    simp [Call.outcome] at hnone
  | failed hp =>
    have hwaiter := (h.isolating.entries k c hk (by simp [Call.entered, hp])).1
    rw [handlePaymentFailed_calls hwaiter] at hk'
    obtain rfl := hself hk'
    simp [Call.outcome] at hnone
  | refund hwatch =>
    obtain rfl := hself hk'
    exact absurd hnone (hsound.watched (by simp [hwatch]))

end

/-- A manager that has no request under way. -/
def State.fresh (connections : String → Option NwcConnection) (log : Nat → Option Status) : State :=
  .initial { connections, log }

theorem tracked_run {connections : String → Option NwcConnection} {log : Nat → Option Status}
    {s : State} (hrun : Steps Action.step Action.Clean (.fresh connections log) s) : Tracked s := by
  refine hrun.invariant ?_ fun a s s' h ha hs => h.step ha hs
  have hq := queue_run (.refl : Steps Action.step Action.Unbroken (.fresh connections log) _)
  have hi := isolating_run (.refl : Steps Action.step Action.Alone (.fresh connections log) _)
  refine ⟨hq.1, hq.2, hi, ⟨?_, ?_⟩, ⟨?_, ?_, ?_, ?_⟩⟩ <;> simp [State.fresh, State.initial]

/-- A request that ends without a payment, at whatever point, leaves the counters, the entries
and the pending records as they would be without it. -/
theorem unsent_leaves_nothing {connections : String → Option NwcConnection}
    {log : Nat → Option Status} {s s' : State}
    (hrun : Steps Action.step Action.Clean (.fresh connections log) s) {a : Action}
    (ha : a.Clean s) (hs : a.step s = some s') {k : Nat} {c c' : Call}
    (hk : s.calls[k]? = some c) (hk' : s'.calls[k]? = some c') (hbefore : c.over = false)
    (hafter : c'.over = true) (hnone : c'.payment = none) : Agree s'.shared (s'.without k) := by
  have h := tracked_run hrun
  rcases step_cases hs with ⟨request, pay, -, rfl⟩ | ⟨j, d, hcall, hj, hgoes⟩
  · rcases calls_arrive hk' with hold | ⟨-, rfl⟩
    · rw [hk, Option.some.injEq] at hold
      rw [hold, hafter] at hbefore
      cases hbefore
    · simp [Call.over] at hafter
  · by_cases hjk : k = j
    · subst hjk
      rw [hk, Option.some.injEq] at hj
      subst hj
      cases hgoes with
      | move hmove => exact h.agree hk hmove hk' hbefore hafter hnone
      | leak hleak => exact absurd hleak (ha.1 k c hcall hk)
      | drain =>
        have hover : c'.over = c.over := by
          have hlt := lt_of_call hk
          have heq : { c with drained := true } = c' := by
            simpa [drain, State.put, hlt] using hk'
          subst heq
          rfl
        rw [hover, hbefore] at hafter
        cases hafter
    · -- another call's step moves at most the waiter of this one
      have hover : c'.over = c.over := by
        cases hgoes with
        | move hmove =>
          obtain ⟨e, he, w, ⟨heq, -⟩ | ⟨-, rfl⟩⟩ := next_of_move hj hmove hk'
          · exact absurd heq hjk
          · rw [hk, Option.some.injEq] at he
            exact he ▸ rfl
        | leak hleak => exact absurd hleak (ha.1 j d hcall hj)
        | drain =>
          obtain ⟨e, he, ⟨heq, -⟩ | ⟨-, rfl⟩⟩ := calls_put hj hk'
          · exact absurd heq hjk
          · rw [hk, Option.some.injEq] at he
            exact he ▸ rfl
      rw [hover, hbefore] at hafter
      cases hafter

/-! ### An invoice that is not sent -/

/-- The test of `Fresh`. -/
def Action.isFresh (a : Action) (s : State) : Bool :=
  a.call.all fun k => s.calls[k]?.all fun c => (a.step s).all fun s' => s'.calls[k]?.all fun c' =>
    c'.stage ≠ .debiting || c.stage = .debiting ||
      ((!c.isInvoice || !s.shared.pending c.pay.hash) &&
        match c.stage with
        | .hashing spentToday _ => s.shared.spent c.client = some spentToday
        | _ => true)

theorem Action.fresh_of_isFresh {a : Action} {s : State} (h : a.isFresh s = true) : a.Fresh s := by
  intro k c hcall hk s' c' hs hk' hstage
  simp only [isFresh, hcall, Option.all_some, hk, hs, hk', hstage, Bool.or_eq_true,
    Bool.and_eq_true, decide_eq_true_eq, Bool.not_eq_true'] at h
  rcases h with (h | h) | ⟨hpending, hspent⟩
  · exact absurd rfl h
  · exact .inl h
  · refine .inr ⟨fun hinvoice => ?_, fun spentToday now hhashing => ?_⟩
    · rcases hpending with hpending | hpending
      · rw [hinvoice] at hpending
        cases hpending
      · exact hpending
    · simpa [hhashing] using hspent

/-- The test of `Clean` where the requests' hashes all differ. -/
def Action.isClean (a : Action) (s : State) : Bool :=
  decide (a.Unbroken s) && s.distinct && a.isFresh s

theorem Action.clean_of_isClean {a : Action} {s : State} (h : a.isClean s = true) : a.Clean s := by
  simp only [isClean, Bool.and_eq_true, decide_eq_true_eq] at h
  exact ⟨h.1.1, alone_of_distinct h.1.2, fresh_of_isFresh h.2⟩

/-- Alice's invoice waits for a usable channel. -/
def untilSend : List Action :=
  [.arrive (payInvoice "alice") ⟨7, 600, true, true⟩, .start 0, .decrypted 0 1, .go 0 true]

/-- Call 0 ends without a payment with `a`. -/
def endsUnsent (a : Action) (s : State) : Bool :=
  (s.calls[0]?.any fun c => !c.over) &&
    (a.step s).any fun s' => s'.calls[0]?.any fun c' => c'.over && c'.payment = none

theorem endsUnsent_iff {a : Action} {s : State} (h : endsUnsent a s = true) :
    ∃ (s' : State) (c c' : Call), a.step s = some s' ∧ s.calls[0]? = some c ∧
      s'.calls[0]? = some c' ∧ c.over = false ∧ c'.over = true ∧ c'.payment = none := by
  simp only [endsUnsent, Bool.and_eq_true, Option.any_eq_true, Bool.not_eq_true',
    decide_eq_true_eq] at h
  obtain ⟨⟨c, hc, hbefore⟩, s', hs, c', hc', hafter, hnone⟩ := h
  exact ⟨s', c, c', hs, hc, hc', hbefore, hafter, hnone⟩

theorem unsent_leaves_nothing_refused :
    ∃ s s', Steps Action.step Action.Clean (.fresh aliceOnly.connections fun _ => none) s ∧
      Action.step (.send 0 .refused) s = some s' ∧ Agree s'.shared (s'.without 0) := by
  obtain ⟨s, hrun, hs⟩ := Steps.exists_of_play Action.step Action.isClean
    (.fresh aliceOnly.connections fun _ => none) untilSend
    (fun s => Action.isClean (.send 0 .refused) s && endsUnsent (.send 0 .refused) s) (by decide)
  have hrun : Steps Action.step Action.Clean (.fresh aliceOnly.connections fun _ => none) s :=
    hrun.mono fun a s h => Action.clean_of_isClean h
  simp only [Bool.and_eq_true] at hs
  obtain ⟨s', c, c', hstep, hc, hc', hbefore, hafter, hnone⟩ := endsUnsent_iff hs.2
  exact ⟨s, s', hrun, hstep, unsent_leaves_nothing hrun (Action.clean_of_isClean hs.1) hstep hc hc'
    hbefore hafter hnone⟩

/-- The node stops meanwhile: the request ends, and 600 sats stay debited. -/
theorem not_unsent_leaves_nothing :
    ∃ (s s' : State) (c c' : Call),
      Steps Action.step (fun _ _ => True) (.fresh aliceOnly.connections fun _ => none) s ∧
      Action.step (.send 0 .threw) s = some s' ∧ s.calls[0]? = some c ∧ s'.calls[0]? = some c' ∧
      c.over = false ∧ c'.over = true ∧ c'.payment = none ∧ ¬ Agree s'.shared (s'.without 0) := by
  obtain ⟨s, hrun, hs⟩ := Steps.exists_of_play Action.step (fun _ _ => true)
    (.fresh aliceOnly.connections fun _ => none) untilSend
    (fun s => endsUnsent (.send 0 .threw) s && (Action.step (.send 0 .threw) s).any fun s' =>
      s'.shared.spent "alice" = some 600 && (s'.without 0).spent "alice" = some 0) (by decide)
  simp only [Bool.and_eq_true, Option.any_eq_true, decide_eq_true_eq] at hs
  obtain ⟨hends, s₁, hstep₁, hspent, hwithout⟩ := hs
  obtain ⟨s', c, c', hstep, hc, hc', hbefore, hafter, hnone⟩ := endsUnsent_iff hends
  rw [hstep, Option.some.injEq] at hstep₁
  subst hstep₁
  refine ⟨s, s', c, c', hrun.mono fun _ _ _ => trivial, hstep, hc, hc', hbefore, hafter, hnone, ?_⟩
  intro hagree
  have := hagree.spent "alice"
  rw [hspent, hwithout] at this
  cases this

end LibreWallet.Nwc.Payments
