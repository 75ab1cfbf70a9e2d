import LibreWallet.Async.System
import Mathlib.Data.List.Basic
import Mathlib.Logic.Function.Basic

/-
  Spending/Sends.lean --- which invoices are handed to LDK.

  The three ways to pay a bolt11 invoice: `pay_invoice` of
  `libre-listener-wallet/src/nwc-manager.ts`, `payBolt11` of its `index.ts` behind
  `payLightning` of `wallet-core/src/wallet-controller.ts`, and `payBolt11` of
  `browser-extension/src/offscreen/pay-invoice.ts`.  Each notes the payment under its hash,
  registers a waiter under its hash, and hands it to LDK under a random payment id, which is
  all that LDK compares.  An invoice is its hash.
-/

set_option autoImplicit false

namespace LibreWallet.Spending.Sends

open Async

inductive Entry where
  | payInvoice
  | payLightning
  /-- `sendPayment` of the extension. -/
  | sendPayment
  deriving DecidableEq, Repr

inductive Status where
  | pending
  | settled
  | failed
  deriving DecidableEq, Repr

/-- What was handed to `send_payment`, and whether an earlier send of the same hash was pending
or settled then. -/
structure Payment where
  hash : Nat
  id : Nat
  status : Status := .pending
  again : Bool
  deriving DecidableEq, Repr

inductive Outcome where
  | preimage
  | failed
  | notSent
  /-- The payment may still settle. -/
  | timeout
  deriving DecidableEq, Repr

/-- Where a call waits. -/
inductive Stage where
  /-- For its turn, or for a usable channel. -/
  | called
  /-- `debitBudget` -/
  | debiting
  /-- `waitForUsableChannel` -/
  | waiting
  /-- For the settlement. -/
  | sent
  | returned (outcome : Outcome)
  deriving DecidableEq, Repr

def Stage.unsent : Stage → Bool
  | .called | .debiting | .waiting => true
  | .sent | .returned _ => false

structure Call where
  entry : Entry
  hash : Nat
  stage : Stage := .called
  deriving DecidableEq, Repr

structure State where
  payments : List Payment := []
  calls : List Call := []
  /-- `pendingPayments`, `settlementWaiters` and the tracker's `waiters`: the call to wake. -/
  waiters : Entry → Nat → Option Nat := fun _ _ => none
  /-- The payment log. -/
  log : Nat → Option Status := fun _ => none

/-! ## The payment log -/

/-- A record that is final stays. -/
def notePending (hash : Nat) (log : Nat → Option Status) : Nat → Option Status :=
  if log hash = none ∨ log hash = some .pending then Function.update log hash (some .pending) else log

def recordSent (hash : Nat) (log : Nat → Option Status) : Nat → Option Status :=
  Function.update log hash (some .settled)

def recordFailed (hash : Nat) (log : Nat → Option Status) : Nat → Option Status :=
  if log hash = none then log else Function.update log hash (some .failed)

/-! ## The calls -/

def State.wait (s : State) (entry : Entry) (hash : Nat) (k : Option Nat) : State :=
  { s with waiters := Function.update s.waiters entry (Function.update (s.waiters entry) hash k) }

def State.stage (s : State) (k : Nat) (c : Call) (stage : Stage) : State :=
  { s with calls := s.calls.set k { c with stage } }

/-- The waiter and the pending record. -/
def register (k : Nat) (c : Call) (s : State) : State :=
  { s.wait c.entry c.hash (some k) with log := notePending c.hash s.log }

/-- `send_payment`: LDK refuses an id that it has seen, or it finds no route. -/
def send (k : Nat) (c : Call) (id : Nat) (route : Bool) (s : State) : State :=
  if route && s.payments.all fun p => p.id ≠ id then
    { s.stage k c .sent with
      payments := s.payments ++ [{
        hash := c.hash
        id
        again := s.payments.any fun p => p.hash = c.hash && p.status ≠ .failed }] }
  else
    match c.entry with
    | .payInvoice | .payLightning =>
      { (s.stage k c (.returned .notSent)).wait c.entry c.hash none with
        log := recordFailed c.hash s.log }
    -- the waiter stays until its timer fires, and the record stays pending
    | .sendPayment => s.stage k c (.returned .notSent)

/-- A call goes on after its `await`. -/
def goOn (k : Nat) (c : Call) (id : Nat) (route : Bool) (s : State) : Option State :=
  match c.entry, c.stage with
  | .payInvoice, .called => some ((register k c s).stage k c .debiting)
  | .payInvoice, .debiting => some (s.stage k c .waiting)
  | .payInvoice, .waiting => some (send k c id route s)
  | .payLightning, .called | .sendPayment, .called => some (send k c id route (register k c s))
  | _, _ => none

/-- `payingPromise` is set. -/
def State.paying (s : State) : Bool :=
  s.calls.any fun c => match c.entry, c.stage with
    | .payLightning, .returned _ => false
    | .payLightning, _ => true
    | _, _ => false

/-- The waiter of an entry is resolved or rejected. -/
def wake (hash : Nat) (outcome : Outcome) (s : State) (entry : Entry) : State :=
  match s.waiters entry hash with
  | none => s
  | some k =>
    { s.wait entry hash none with
      calls := s.calls.modify k fun c =>
        if c.stage = .sent then { c with stage := .returned outcome } else c }

def wakeAll (hash : Nat) (outcome : Outcome) (s : State) : State :=
  [Entry.payInvoice, .payLightning, .sendPayment].foldl (wake hash outcome) s

inductive Action where
  | call (entry : Entry) (hash : Nat)
  | go (k : Nat) (id : Nat) (route : Bool)
  /-- LDK's events about payment `i`. -/
  | settle (i : Nat)
  | fail (i : Nat)
  | timeout (k : Nat)
  /-- What LDK and the log have survives. -/
  | restart
  deriving DecidableEq, Repr

def step : Action → State → Option State
  | .call entry hash, s =>
    if entry = .payLightning ∧ s.paying then none
    else some { s with calls := s.calls ++ [{ entry, hash }] }
  | .go k id route, s => s.calls[k]?.bind fun c => goOn k c id route s
  | .settle i, s =>
    match s.payments[i]? with
    | some ⟨hash, id, .pending, again⟩ =>
      some (wakeAll hash .preimage
        { s with
          payments := s.payments.set i ⟨hash, id, .settled, again⟩
          log := recordSent hash s.log })
    | _ => none
  | .fail i, s =>
    match s.payments[i]? with
    | some ⟨hash, id, .pending, again⟩ =>
      some (wakeAll hash .failed
        { s with
          payments := s.payments.set i ⟨hash, id, .failed, again⟩
          log := recordFailed hash s.log })
    | _ => none
  | .timeout k, s =>
    match s.calls[k]? with
    | some c =>
      if c.stage = .sent then
        some (match c.entry with
          | .payInvoice => s.stage k c (.returned .timeout)
          | .payLightning | .sendPayment => (s.stage k c (.returned .timeout)).wait c.entry c.hash none)
      else none
    | none => none
  | .restart, s => some { s with calls := [], waiters := fun _ _ => none }

/-- Nobody asks to pay an invoice while another call is about to send it, or after a send that has
not failed. -/
def askedOnce (a : Action) (s : State) : Bool :=
  match a with
  | .call _ hash =>
    (s.calls.all fun c => c.hash ≠ hash || !c.stage.unsent) &&
      s.payments.all fun p => p.hash ≠ hash || p.status = .failed
  | _ => true

/-- No hash was handed over again while a send of it was pending or settled. -/
def SentOnce (s : State) : Prop := ∀ p ∈ s.payments, p.again = false

/-! ## The invariant -/

structure Inv (s : State) : Prop where
  once : SentOnce s
  first : ∀ (k : Nat) (c : Call), s.calls[k]? = some c → c.stage.unsent = true →
    ∀ p ∈ s.payments, p.hash = c.hash → p.status = .failed
  alone : ∀ (i j : Nat) (c d : Call), s.calls[i]? = some c → s.calls[j]? = some d →
    c.stage.unsent = true → d.stage.unsent = true → c.hash = d.hash → i = j

variable {s s' : State}

/-- The calls that have not sent yet are among the earlier ones. -/
def CallsOf (s s' : State) : Prop :=
  ∀ (k : Nat) (c' : Call), s'.calls[k]? = some c' → c'.stage.unsent = true →
    ∃ c, s.calls[k]? = some c ∧ c.stage.unsent = true ∧ c.hash = c'.hash

/-- The payments are the earlier ones, and what has failed stays so. -/
def PaymentsOf (s s' : State) : Prop :=
  ∀ p' ∈ s'.payments, ∃ p ∈ s.payments, p.hash = p'.hash ∧ p.again = p'.again ∧
    (p.status = .failed → p'.status = .failed)

theorem Inv.frame (h : Inv s) (hc : CallsOf s s') (hp : PaymentsOf s s') : Inv s' where
  once := by
    intro p' hp'
    obtain ⟨p, hmem, -, hagain, -⟩ := hp p' hp'
    rw [← hagain]
    exact h.once p hmem
  first := by
    intro k c' hk hun p' hp' hhash
    obtain ⟨c, hk₀, hun₀, hsame⟩ := hc k c' hk hun
    obtain ⟨p, hmem, hph, -, hfailed⟩ := hp p' hp'
    exact hfailed (h.first k c hk₀ hun₀ p hmem (hph.trans (hhash.trans hsame.symm)))
  alone := by
    intro i j c' d' hi hj hun hun' hhash
    obtain ⟨c, hi₀, hun₀, hsame⟩ := hc i c' hi hun
    obtain ⟨d, hj₀, hun₀', hsame'⟩ := hc j d' hj hun'
    exact h.alone i j c d hi₀ hj₀ hun₀ hun₀' (hsame.trans (hhash.trans hsame'.symm))

theorem CallsOf.refl (s : State) : CallsOf s s := fun _ c' hk hun => ⟨c', hk, hun, rfl⟩

theorem PaymentsOf.refl (s : State) : PaymentsOf s s := fun p' hp' => ⟨p', hp', rfl, rfl, id⟩

/-- One call moves on; it has sent already, or it has not sent yet and stays so. -/
theorem callsOf_set {k : Nat} {c : Call} {stage : Stage} (hk : s.calls[k]? = some c)
    (hcalls : s'.calls = s.calls.set k { c with stage })
    (hun : stage.unsent = true → c.stage.unsent = true) : CallsOf s s' := by
  intro i c' hi hun'
  rw [hcalls] at hi
  by_cases heq : k = i
  · subst heq
    have hlt : k < s.calls.length := (List.getElem?_eq_some_iff.mp hk).1
    rw [List.getElem?_set_self hlt, Option.some.injEq] at hi
    subst hi
    exact ⟨c, hk, hun hun', rfl⟩
  · rw [List.getElem?_set_ne heq] at hi
    exact ⟨c', hi, hun', rfl⟩

theorem wake_payments (hash : Nat) (outcome : Outcome) (s : State) (entry : Entry) :
    (wake hash outcome s entry).payments = s.payments := by
  unfold wake
  split <;> rfl

theorem callsOf_wake (hash : Nat) (outcome : Outcome) (s : State) (entry : Entry) :
    CallsOf s (wake hash outcome s entry) := by
  unfold wake
  split
  · exact CallsOf.refl s
  · rename_i k _
    intro i c' hi hun
    simp only [List.getElem?_modify] at hi
    obtain ⟨c, hc, heq⟩ := Option.map_eq_some_iff.mp hi
    refine ⟨c, hc, ?_⟩
    split at heq
    · split at heq
      · subst heq
        cases hun
      · subst heq
        exact ⟨hun, rfl⟩
    · subst heq
      exact ⟨hun, rfl⟩

theorem CallsOf.trans {s'' : State} (h : CallsOf s s') (h' : CallsOf s' s'') : CallsOf s s'' := by
  intro k c'' hk hun
  obtain ⟨c', hk', hun', hsame'⟩ := h' k c'' hk hun
  obtain ⟨c, hk₀, hun₀, hsame⟩ := h k c' hk' hun'
  exact ⟨c, hk₀, hun₀, hsame.trans hsame'⟩

theorem wakeAll_payments (hash : Nat) (outcome : Outcome) (s : State) :
    (wakeAll hash outcome s).payments = s.payments := by
  simp only [wakeAll, List.foldl_cons, List.foldl_nil, wake_payments]

theorem callsOf_wakeAll (hash : Nat) (outcome : Outcome) (s : State) :
    CallsOf s (wakeAll hash outcome s) := by
  have h₁ := callsOf_wake hash outcome s .payInvoice
  have h₂ := callsOf_wake hash outcome (wake hash outcome s .payInvoice) .payLightning
  exact h₁.trans (h₂.trans (callsOf_wake hash outcome _ .sendPayment))

/-- A pending payment is settled, or fails. -/
theorem Inv.event (h : Inv s) {i hash id : Nat} {again : Bool} {status : Status}
    (hi : s.payments[i]? = some ⟨hash, id, .pending, again⟩) (outcome : Outcome)
    (log : Nat → Option Status) :
    Inv (wakeAll hash outcome
      { s with payments := s.payments.set i ⟨hash, id, status, again⟩, log }) := by
  refine h.frame ((CallsOf.refl s).trans (callsOf_wakeAll hash outcome _)) fun p' hp' => ?_
  rw [wakeAll_payments] at hp'
  rcases List.mem_or_eq_of_mem_set hp' with hold | rfl
  · exact ⟨p', hold, rfl, rfl, fun hf => hf⟩
  · exact ⟨_, List.mem_of_getElem? hi, rfl, rfl, fun hf => by cases hf⟩

/-- The only call about to send a hash hands it over, or fails to. -/
theorem Inv.send (h : Inv s) {k : Nat} {c : Call} (hk : s.calls[k]? = some c)
    (hun : c.stage.unsent = true) (id : Nat) (route : Bool) : Inv (send k c id route s) := by
  have hfailed : ∀ p ∈ s.payments, p.hash = c.hash → p.status = .failed := h.first k c hk hun
  unfold Sends.send
  split
  · have hcalls : CallsOf s (s.stage k c .sent) := callsOf_set hk rfl fun hsent => by cases hsent
    have hagain : (s.payments.any fun p => p.hash = c.hash && p.status ≠ .failed) = false := by
      rw [List.any_eq_false]
      intro p hp hand
      simp only [Bool.and_eq_true, decide_eq_true_eq] at hand
      exact hand.2 (hfailed p hp hand.1)
    rw [hagain]
    have hlt : k < s.calls.length := (List.getElem?_eq_some_iff.mp hk).1
    refine ⟨?_, ?_, ?_⟩
    · intro p hp
      rcases List.mem_append.mp hp with hold | hnew
      · exact h.once p hold
      · rw [List.mem_singleton.mp hnew]
    · intro i c' hi hun' p hp hhash
      obtain ⟨c₀, hi₀, hun₀, hsame⟩ := hcalls i c' hi hun'
      rcases List.mem_append.mp hp with hold | hnew
      · exact h.first i c₀ hi₀ hun₀ p hold (hhash.trans hsame.symm)
      · -- another call with the hash of the one that sends
        rw [List.mem_singleton.mp hnew] at hhash
        have hik := h.alone i k c₀ c hi₀ hk hun₀ hun (hsame.trans hhash.symm)
        subst hik
        change (s.calls.set i { c with stage := .sent })[i]? = some c' at hi
        rw [List.getElem?_set_self hlt, Option.some.injEq] at hi
        subst hi
        cases hun'
    · intro i j c' d' hi hj hun' hund hhash
      obtain ⟨c₀, hi₀, hun₀, hsame⟩ := hcalls i c' hi hun'
      obtain ⟨d₀, hj₀, hund₀, hsame'⟩ := hcalls j d' hj hund
      exact h.alone i j c₀ d₀ hi₀ hj₀ hun₀ hund₀ (hsame.trans (hhash.trans hsame'.symm))
  · have hcalls : CallsOf s (s.stage k c (.returned .notSent)) :=
      callsOf_set hk rfl fun hret => by cases hret
    split
    · exact h.frame hcalls (PaymentsOf.refl s)
    · exact h.frame hcalls (PaymentsOf.refl s)
    · exact h.frame hcalls (PaymentsOf.refl s)

theorem Inv.register (h : Inv s) (k : Nat) (c : Call) : Inv (register k c s) :=
  h.frame (CallsOf.refl s) (PaymentsOf.refl s)

theorem Inv.step {a : Action} (h : Inv s) (ho : askedOnce a s = true) (hs : step a s = some s') :
    Inv s' := by
  cases a with
  | call entry hash =>
    simp only [Sends.step, Option.ite_none_left_eq_some, Option.some.injEq] at hs
    rw [← hs.2]
    simp only [askedOnce, Bool.and_eq_true, List.all_eq_true, Bool.or_eq_true, decide_eq_true_eq,
      Bool.not_eq_true'] at ho
    obtain ⟨hothers, hfailed⟩ := ho
    have hnew : ∀ (i : Nat) (c : Call), (s.calls ++ [({ entry, hash } : Call)])[i]? = some c →
        s.calls[i]? = some c ∨ i = s.calls.length ∧ c = { entry, hash } := by
      intro i c hi
      rcases Nat.lt_or_ge i s.calls.length with hlt | hge
      · rw [List.getElem?_append_left hlt] at hi
        exact .inl hi
      · rw [List.getElem?_append_right hge] at hi
        obtain ⟨hz, hc⟩ := List.getElem?_eq_some_iff.mp hi
        have hi0 : i - s.calls.length = 0 := by simpa using hz
        simp only [hi0, List.getElem_cons_zero] at hc
        exact .inr ⟨by omega, hc.symm⟩
    have hclash : ∀ (i : Nat) (c : Call), s.calls[i]? = some c → c.stage.unsent = true →
        c.hash ≠ hash := by
      intro i c hi hun
      rcases hothers c (List.mem_of_getElem? hi) with hne | hsent
      · exact hne
      · rw [hsent] at hun
        cases hun
    refine ⟨h.once, ?_, ?_⟩
    · intro i c hi hun p hp hhash
      rcases hnew i c hi with hold | ⟨-, rfl⟩
      · exact h.first i c hold hun p hp hhash
      · exact (hfailed p hp).resolve_left fun hne => hne hhash
    · intro i j c d hi hj hun hund hhash
      rcases hnew i c hi with hold | ⟨rfl, rfl⟩ <;> rcases hnew j d hj with hold' | ⟨rfl, rfl⟩
      · exact h.alone i j c d hold hold' hun hund hhash
      · exact absurd hhash (hclash i c hold hun)
      · exact absurd hhash.symm (hclash j d hold' hund)
      · rfl
  | go k id route =>
    simp only [Sends.step, Option.bind_eq_some_iff] at hs
    obtain ⟨c, hk, hs⟩ := hs
    unfold goOn at hs
    split at hs
    · rename_i hstage
      cases hs
      exact (h.register k c).frame (callsOf_set hk rfl fun _ => by rw [hstage]; rfl) (PaymentsOf.refl _)
    · rename_i hstage
      cases hs
      exact h.frame (callsOf_set hk rfl fun _ => by rw [hstage]; rfl) (PaymentsOf.refl s)
    · rename_i hstage
      cases hs
      exact h.send hk (by rw [hstage]; rfl) id route
    · rename_i hstage
      cases hs
      exact (h.register k c).send hk (by rw [hstage]; rfl) id route
    · rename_i hstage
      cases hs
      exact (h.register k c).send hk (by rw [hstage]; rfl) id route
    · cases hs
  | settle i =>
    simp only [Sends.step] at hs
    split at hs
    · rename_i hi
      cases hs
      exact h.event hi _ _
    · cases hs
  | fail i =>
    simp only [Sends.step] at hs
    split at hs
    · rename_i hi
      cases hs
      exact h.event hi _ _
    · cases hs
  | timeout k =>
    simp only [Sends.step] at hs
    split at hs
    · rename_i c hk
      simp only [Option.ite_none_right_eq_some, Option.some.injEq] at hs
      obtain ⟨-, hs⟩ := hs
      subst hs
      have hcalls : CallsOf s (s.stage k c (.returned .timeout)) :=
        callsOf_set hk rfl fun hret => by cases hret
      split
      · exact h.frame hcalls (PaymentsOf.refl s)
      · exact h.frame hcalls (PaymentsOf.refl s)
      · exact h.frame hcalls (PaymentsOf.refl s)
    · cases hs
  | restart =>
    cases hs
    refine h.frame (fun k c' hk => ?_) (PaymentsOf.refl s)
    simp at hk

theorem Inv.initial : Inv {} where
  once := by
    intro p hp
    cases hp
  first := by
    intro k c hk
    simp at hk
  alone := by
    intro i j c d hi
    simp at hi

/-- Where nobody asks for an invoice again before an earlier send of it has failed, no hash is handed
to LDK while a send of it is pending or settled. -/
theorem sentOnce_of_askedOnce (s : State)
    (hrun : Steps step (fun a t => askedOnce a t = true) {} s) : SentOnce s :=
  (hrun.invariant Inv.initial fun _ _ _ hi ho hs => hi.step ho hs).once

/-- A payment that fails is asked for again through another entry, and settles. -/
theorem sentOnce_of_askedOnce_retry : ∃ s, Steps step (fun a t => askedOnce a t = true) {} s ∧
    decide (s.payments.map Payment.status = [.failed, .settled]) = true ∧ SentOnce s := by
  obtain ⟨s, hrun, hf⟩ := Steps.exists_of_play step askedOnce {}
    [.call .payInvoice 5, .go 0 0 true, .go 0 0 true, .go 0 10 true, .fail 0, .call .payLightning 5,
      .go 1 11 true, .settle 1]
    (fun s => decide (s.payments.map Payment.status = [.failed, .settled])) (by decide +kernel)
  exact ⟨s, hrun, hf, sentOnce_of_askedOnce s hrun⟩

/-- A client asks twice for one invoice, in two events: it is paid again after it has settled. -/
theorem not_sentOnce_asked_twice : ¬ ∀ s, Steps step (fun _ _ => True) {} s → SentOnce s := by
  intro h
  obtain ⟨s, hrun, hf⟩ := Steps.exists_of_play step (fun _ _ => true) {}
    [.call .payInvoice 5, .go 0 0 true, .go 0 0 true, .go 0 10 true, .settle 0, .call .payInvoice 5,
      .go 1 0 true, .go 1 0 true, .go 1 11 true]
    (fun s => s.payments.any fun p => p.again) (by decide +kernel)
  obtain ⟨p, hp, hagain⟩ := List.any_eq_true.mp hf
  rw [h s (hrun.mono fun _ _ _ => trivial) p hp] at hagain
  cases hagain

end LibreWallet.Spending.Sends
