import LibreWallet.Async.System
import Mathlib.Algebra.Order.BigOperators.Group.List
import Mathlib.Algebra.Order.Ring.Nat
import Mathlib.Data.List.Basic

/-
  Webln/Refunds.lean --- when the charge of a WebLN payment is given back.

  A call is charged, its payment may be handed to LDK, and how that ended reaches the call
  through a map of waiters keyed by the payment hash: `PaymentTracker` in the extension
  (`browser-extension/src/offscreen/payment-tracker.ts`), `settlementWaiters` in the wallet
  that is embedded.  An error that is not a timeout is refunded (`handleWebln` of
  `background.ts`, `sendPayment` and `keysend` of `wallet-embed/src/provider.ts`).  The gate of
  the extension reaches the wallet host by message (`callOffscreen`), and an answer that does not
  come back is such an error too, whatever the host has done or still does.  LDK takes several payments of one hash, since every call has a payment id of its own; the hash
  of a keysend is of a fresh preimage.
-/

set_option autoImplicit false

namespace LibreWallet.Webln.Refunds

open Async

inductive Frontend where
  | extension
  | embed
  deriving DecidableEq, Repr

inductive Method where
  | sendPayment
  | keysend
  deriving DecidableEq, Repr

/-- What LDK knows of a payment it was handed. -/
inductive Status where
  | pending
  | settled
  | failed
  deriving DecidableEq, Repr

/-- How the wait for a settlement ended. -/
inductive Outcome where
  | preimage
  | failed
  | timeout
  deriving DecidableEq, Repr

/-- The race between the waiter and its timer. -/
inductive Wait where
  | unset
  | running
  | ended (outcome : Outcome)
  /-- Its `finally` has run. -/
  | cleaned (outcome : Outcome)
  deriving DecidableEq, Repr

inductive Answer where
  | preimage
  /-- An error; `inFlight` is whether it says that the payment may still settle. -/
  | error (inFlight : Bool)
  deriving DecidableEq, Repr

inductive Stage where
  | charged
  /-- The embedded controller works on this call. -/
  | entered
  /-- A keysend of the extension has its waiter, and is not sent yet. -/
  | registered
  /-- The payment is handed to LDK, and the call waits. -/
  | waiting
  | answered (answer : Answer)
  | finished
  deriving DecidableEq, Repr

structure Call where
  method : Method
  origin : Nat
  hash : Nat
  amountSats : Nat
  stage : Stage := .charged
  wait : Wait := .unset
  payment : Option Status := none
  /-- The gate has an error of `callOffscreen` in place of the answer. -/
  lost : Bool := false
  refunded : Bool := false
  deriving DecidableEq, Repr

structure State where
  calls : List Call := []
  /-- The waiters by payment hash: the call that waits. -/
  waiters : Nat → Option Nat := fun _ => none
  payingPromise : Bool := false

inductive Action where
  /-- A call is charged. -/
  | begin (method : Method) (origin hash amountSats : Nat)
  /-- The embedded controller takes the call, unless it is paying. -/
  | enter (k : Nat)
  /-- The call fails before anything is sent. -/
  | refuse (k : Nat)
  /-- A keysend of the extension registers its waiter. -/
  | register (k : Nat)
  /-- The payment is handed to LDK, which takes it or not. -/
  | send (k : Nat) (ok : Bool)
  /-- `Event_PaymentSent` for the payment of call `k`. -/
  | settle (k : Nat)
  /-- `Event_PaymentFailed` for the payment of call `k`. -/
  | fail (k : Nat)
  /-- The timer of call `k` fires. -/
  | expire (k : Nat)
  /-- The `finally` of its race runs. -/
  | cleanUp (k : Nat)
  /-- The wallet answers. -/
  | answer (k : Nat)
  /-- The gate has the answer. -/
  | conclude (k : Nat)
  /-- `sendMessage` rejects or yields nothing: the host may be gone, or may go on. -/
  | lose (k : Nat)
  deriving DecidableEq, Repr

def State.set (s : State) (k : Nat) (c : Call) : State := { s with calls := s.calls.set k c }

def State.wait (s : State) (hash : Nat) (w : Option Nat) : State :=
  { s with waiters := Function.update s.waiters hash w }

/-- An event wakes the waiter of a hash; only `PaymentTracker` deletes it at once. -/
def wake (frontend : Frontend) (hash : Nat) (outcome : Outcome) (s : State) : State :=
  match s.waiters hash with
  | none => s
  | some w =>
    let s' := match frontend with
      | .extension => s.wait hash none
      | .embed => s
    match s.calls[w]? with
    | some c => if c.wait = .running then s'.set w { c with wait := .ended outcome } else s'
    | none => s'

/-- `send_payment` and `send_spontaneous_payment`, with what is done around them. -/
def send (frontend : Frontend) (k : Nat) (ok : Bool) (c : Call) (s : State) : Option State :=
  match frontend, c.method, c.stage with
  | .extension, .sendPayment, .charged =>
    -- the waiter stays when nothing was sent, until its timer fires
    if ok then
      some ((s.wait c.hash (some k)).set k
        { c with stage := .waiting, wait := .running, payment := some .pending })
    else
      some ((s.wait c.hash (some k)).set k { c with stage := .answered (.error false), wait := .running })
  | .extension, .keysend, .registered =>
    if ok then some (s.set k { c with stage := .waiting, payment := some .pending })
    else some (s.set k { c with stage := .answered (.error false) })
  | .embed, .sendPayment, .entered =>
    if ok then
      some ((s.wait c.hash (some k)).set k
        { c with stage := .waiting, wait := .running, payment := some .pending })
    else
      some ({ s.wait c.hash none with payingPromise := false }.set k
        { c with stage := .answered (.error false) })
  | .embed, .keysend, .entered =>
    -- a keysend is answered when it is dispatched
    if ok then
      some ({ s with payingPromise := false }.set k
        { c with stage := .answered .preimage, payment := some .pending })
    else
      some ({ s with payingPromise := false }.set k { c with stage := .answered (.error false) })
  | _, _, _ => none

def Outcome.answer : Outcome → Answer
  | .preimage => .preimage
  | .failed => .error false
  | .timeout => .error true

/-- `payingPromise` is cleared when a call of the embedded controller is over. -/
def State.leave (s : State) : Frontend → State
  | .extension => s
  | .embed => { s with payingPromise := false }

def act (frontend : Frontend) (a : Action) (k : Nat) (c : Call) (s : State) : Option State :=
  match a with
  | .begin _ _ _ _ => none
  | .enter _ =>
    if frontend = .embed ∧ c.stage = .charged then
      if s.payingPromise then some (s.set k { c with stage := .answered (.error false) })
      else some ({ s with payingPromise := true }.set k { c with stage := .entered })
    else none
  | .refuse _ =>
    if c.stage = .charged then some (s.set k { c with stage := .answered (.error false) })
    else if c.stage = .entered then some ((s.leave frontend).set k { c with stage := .answered (.error false) })
    else none
  | .register _ =>
    if frontend = .extension ∧ c.method = .keysend ∧ c.stage = .charged then
      some ((s.wait c.hash (some k)).set k { c with stage := .registered, wait := .running })
    else none
  | .send _ ok => send frontend k ok c s
  | .settle _ =>
    if c.payment = some .pending then
      some (wake frontend c.hash .preimage (s.set k { c with payment := some .settled }))
    else none
  | .fail _ =>
    if c.payment = some .pending then
      some (wake frontend c.hash .failed (s.set k { c with payment := some .failed }))
    else none
  | .expire _ =>
    if c.wait = .running then some (s.set k { c with wait := .ended .timeout }) else none
  | .cleanUp _ =>
    match c.wait with
    | .ended outcome => some ((s.wait c.hash none).set k { c with wait := .cleaned outcome })
    | _ => none
  | .answer _ =>
    match c.stage, c.wait with
    | .waiting, .cleaned outcome =>
      some ((s.leave frontend).set k { c with stage := .answered outcome.answer })
    | _, _ => none
  | .conclude _ =>
    match c.stage with
    | .answered answer =>
      if c.lost then none
      else some (s.set k { c with stage := .finished, refunded := answer = .error false })
    | _ => none
  | .lose _ =>
    -- the error is not a settlement timeout, so the gate refunds
    if frontend = .extension ∧ c.stage ≠ .finished ∧ c.lost = false then
      some (s.set k { c with lost := true, refunded := true })
    else none

def Action.call : Action → Option Nat
  | .begin _ _ _ _ => none
  | .enter k | .refuse k | .register k | .send k _ | .settle k | .fail k | .expire k | .cleanUp k
  | .answer k | .conclude k | .lose k => some k

def step (frontend : Frontend) (a : Action) (s : State) : Option State :=
  match a with
  | .begin method origin hash amountSats =>
    -- a keysend mints its preimage
    if method = .keysend ∧ s.calls.any (fun c => c.hash = hash) then none
    else some { s with calls := s.calls ++ [{ method, origin, hash, amountSats }] }
  | a => a.call.bind fun k => s.calls[k]?.bind fun c => act frontend a k c s

/-- A failure event wakes the call whose payment failed, or one that no longer waits, or one
whose own payment has failed. -/
def ownWaiter (a : Action) (s : State) : Bool :=
  match a with
  | .fail k =>
    match s.calls[k]? with
    | some c =>
      match s.waiters c.hash with
      | some w => w = k || (s.calls[w]?).all fun c' => c'.wait ≠ .running || c'.payment = some .failed
      | none => true
    | none => true
  | _ => true

/-- An answer is lost only when the call's payment was never handed to LDK or has failed, and
nothing is handed to LDK for a call whose answer was lost. -/
def lostIdle (a : Action) (s : State) : Bool :=
  match a with
  | .lose k => (s.calls[k]?).all fun c => c.payment = none || c.payment = some .failed
  | .send k ok => !ok || (s.calls[k]?).all fun c => !c.lost
  | _ => true

/-- What the gate is told of a call is how its own payment ended. -/
def ownAnswer (a : Action) (s : State) : Bool := ownWaiter a s && lostIdle a s

/-! ## What the charges cover -/

/-- The payment is in flight or settled. -/
def Call.moves (c : Call) : Bool := c.payment = some .pending || c.payment = some .settled

/-- The charges of an origin, less its refunds. -/
def State.net (s : State) (origin : Nat) : Nat :=
  (s.calls.map fun c => if c.origin = origin ∧ c.refunded = false then c.amountSats else 0).sum

/-- The payments of an origin that are in flight or settled. -/
def State.moved (s : State) (origin : Nat) : Nat :=
  (s.calls.map fun c => if c.origin = origin ∧ c.moves = true then c.amountSats else 0).sum

/-- A refunded call's payment was never handed to LDK or has failed, so that the net charges of
every origin cover its payments that are in flight or settled. -/
def Sound (s : State) : Prop :=
  (∀ c ∈ s.calls, c.refunded = true → c.payment = none ∨ c.payment = some .failed) ∧
    ∀ origin, s.moved origin ≤ s.net origin

/-! ## The invariant -/

/-- Nothing of the call's payment is in flight or settled. -/
def Call.Idle (c : Call) : Prop := c.payment = none ∨ c.payment = some .failed

structure Call.Honest (c : Call) : Prop where
  unsent : c.stage = .charged ∨ c.stage = .entered ∨ c.stage = .registered → c.payment = none
  failed : c.wait = .ended .failed ∨ c.wait = .cleaned .failed → c.payment = some .failed
  answered : c.stage = .answered (.error false) → c.Idle
  refunded : c.refunded = true → c.Idle ∧ (c.stage = .finished ∨ c.lost = true)
  charged : c.stage = .charged ∨ c.stage = .entered → c.wait = .unset

def Inv (s : State) : Prop := ∀ c ∈ s.calls, c.Honest

variable {frontend : Frontend} {s s' : State} {k : Nat} {c c' : Call}

theorem Inv.sound (h : Inv s) : Sound s := by
  refine ⟨fun c hc hr => ((h c hc).refunded hr).1, fun origin => ?_⟩
  refine List.sum_le_sum fun c hc => ?_
  split
  · rename_i hmoves
    rw [if_pos]
    refine ⟨hmoves.1, ?_⟩
    cases hr : c.refunded with
    | false => rfl
    | true =>
      have hm := hmoves.2
      rcases ((h c hc).refunded hr).1 with hp | hp <;> (rw [Call.moves, hp] at hm; cases hm)
  · exact Nat.zero_le _

theorem Inv.set (h : Inv s) (hc : c'.Honest) (hs : s'.calls = s.calls.set k c') : Inv s' := by
  intro x hx
  rw [hs] at hx
  rcases List.mem_or_eq_of_mem_set hx with hold | rfl
  · exact h x hold
  · exact hc

/-- A waiter is woken: if with a failure, its own payment has failed. -/
theorem Inv.wake (h : Inv s) (hash : Nat) (outcome : Outcome)
    (hown : outcome = .failed → ∀ w c, s.waiters hash = some w → s.calls[w]? = some c →
      c.wait = .running → c.payment = some .failed) : Inv (wake frontend hash outcome s) := by
  unfold Refunds.wake
  split
  · exact h
  · rename_i w hw
    have hsame : Inv (match frontend with
        | .extension => s.wait hash none
        | .embed => s) := by
      cases frontend <;> exact h
    have hcalls : (match frontend with
        | .extension => s.wait hash none
        | .embed => s : State).calls = s.calls := by
      cases frontend <;> rfl
    simp only
    split
    · rename_i c hc
      split
      · rename_i hrun
        have hh := h c (List.mem_of_getElem? hc)
        refine hsame.set (show Call.Honest { c with wait := .ended outcome } from ⟨hh.unsent, ?_, hh.answered, hh.refunded, ?_⟩) rfl
        · intro hor
          simp only [Wait.ended.injEq, reduceCtorEq, or_false] at hor
          exact hown hor w c hw hc hrun
        · intro hst
          have := hh.charged hst
          rw [hrun] at this
          cases this
      · exact hsame
    · exact hsame

/-- Its wait did not end with a failure. -/
def Wait.NotFailed (w : Wait) : Prop := ¬(w = .ended .failed ∨ w = .cleaned .failed)

theorem Call.Honest.notFailed (h : c.Honest) (hp : c.payment = none) : c.wait.NotFailed := by
  intro hor
  rw [h.failed hor] at hp
  cases hp

/-- A payment of its own is in flight, and the call is not answered with an error. -/
theorem Call.Honest.sent (hr : c.refunded = false) {w : Wait} (hw : w.NotFailed) {st : Stage}
    (hst : st = .waiting ∨ st = .answered .preimage) :
    ({ c with stage := st, wait := w, payment := some .pending } : Call).Honest := by
  refine ⟨fun hor => ?_, fun hor => absurd hor hw, fun hor => ?_, fun hor => ?_, fun hor => ?_⟩
  · rcases hst with rfl | rfl <;> simp at hor
  · rcases hst with rfl | rfl <;> cases hor
  · rw [hr] at hor
    cases hor
  · rcases hst with rfl | rfl <;> simp at hor

/-- A call that is not over was refunded only because its answer was lost. -/
theorem Call.Honest.lost (h : c.Honest) (hst : c.stage ≠ .finished) (hr : c.refunded = true) :
    c.lost = true :=
  (h.refunded hr).2.resolve_left hst

theorem Call.Honest.not_refunded (h : c.Honest) (hst : c.stage ≠ .finished) (hl : c.lost = false) :
    c.refunded = false := by
  cases hr : c.refunded with
  | false => rfl
  | true =>
    have hlost := h.lost hst hr
    rw [hl] at hlost
    cases hlost

/-- Nothing was sent, and the call is answered with an error. -/
theorem Call.Honest.unsent_error (h : c.Honest) (hst : c.stage ≠ .finished) {w : Wait}
    (hw : w.NotFailed) (hp : c.payment = none) :
    ({ c with stage := .answered (.error false), wait := w } : Call).Honest := by
  refine ⟨fun _ => hp, fun hor => absurd hor hw, fun _ => .inl hp, fun hr => ?_, fun hor => ?_⟩
  · exact ⟨.inl hp, .inr (h.lost hst hr)⟩
  · simp at hor

/-- The payment is handed to LDK, or is not. -/
theorem Inv.send (h : Inv s) (hk : s.calls[k]? = some c) {ok : Bool}
    (hlost : ok = true → c.lost = false)
    (hs : send frontend k ok c s = some s') : Inv s' := by
  have hh := h c (List.mem_of_getElem? hk)
  have hrunning : Wait.running.NotFailed := by
    rintro (hw | hw) <;> cases hw
  unfold Refunds.send at hs
  split at hs
  · rename_i hst
    have hopen : c.stage ≠ .finished := by rw [hst]; nofun
    split at hs
    · rename_i hok
      cases hs
      exact h.set (.sent (hh.not_refunded hopen (hlost hok)) hrunning (.inl rfl)) rfl
    · cases hs
      exact h.set (hh.unsent_error hopen hrunning (hh.unsent (.inl hst))) rfl
  · rename_i hst
    have hopen : c.stage ≠ .finished := by rw [hst]; nofun
    have hp := hh.unsent (.inr (.inr hst))
    split at hs
    · rename_i hok
      cases hs
      exact h.set (.sent (hh.not_refunded hopen (hlost hok)) (hh.notFailed hp) (.inl rfl)) rfl
    · cases hs
      exact h.set (hh.unsent_error hopen (hh.notFailed hp) hp) rfl
  · rename_i hst
    have hopen : c.stage ≠ .finished := by rw [hst]; nofun
    have hp := hh.unsent (.inr (.inl hst))
    split at hs
    · rename_i hok
      cases hs
      exact h.set (.sent (hh.not_refunded hopen (hlost hok)) hrunning (.inl rfl)) rfl
    · cases hs
      exact h.set (hh.unsent_error hopen (hh.notFailed hp) hp) rfl
  · rename_i hst
    have hopen : c.stage ≠ .finished := by rw [hst]; nofun
    have hp := hh.unsent (.inr (.inl hst))
    split at hs
    · rename_i hok
      cases hs
      exact h.set (.sent (hh.not_refunded hopen (hlost hok)) (hh.notFailed hp) (.inr rfl)) rfl
    · cases hs
      exact h.set (hh.unsent_error hopen (hh.notFailed hp) hp) rfl
  · cases hs

/-- The status of a payment changes. -/
theorem Call.Honest.status (h : c.Honest) (hp : c.payment = some .pending) (status : Status) : ({ c with payment := some status } : Call).Honest := by
  have hunsent : ¬(c.stage = .charged ∨ c.stage = .entered ∨ c.stage = .registered) := by
    intro hor
    rw [h.unsent hor] at hp
    cases hp
  have hidle : ¬ c.Idle := by
    rintro (hn | hf)
    · rw [hn] at hp
      cases hp
    · rw [hf] at hp
      cases hp
  have hwait : c.wait.NotFailed := by
    intro hor
    rw [h.failed hor] at hp
    cases hp
  exact ⟨fun hor => absurd hor hunsent, fun hor => absurd hor hwait,
    fun hst => absurd (h.answered hst) hidle, fun hr => absurd (h.refunded hr).1 hidle, h.charged⟩

/-- `Event_PaymentFailed`. -/
theorem Inv.fail (h : Inv s) (hk : s.calls[k]? = some c) (hp : c.payment = some .pending)
    (hown : ownWaiter (.fail k) s = true) :
    Inv (Refunds.wake frontend c.hash .failed (s.set k { c with payment := some .failed })) := by
  have hh := h c (List.mem_of_getElem? hk)
  have hset : Inv (s.set k { c with payment := some .failed }) :=
    h.set (hh.status hp _) rfl
  refine hset.wake c.hash .failed fun _ w c' hw hc' hrun => ?_
  change s.waiters c.hash = some w at hw
  change (s.calls.set k { c with payment := some .failed })[w]? = some c' at hc'
  by_cases hwk : w = k
  · subst hwk
    rw [List.getElem?_set_self (List.getElem?_eq_some_iff.mp hk).1] at hc'
    cases hc'
    rfl
  · rw [List.getElem?_set_ne (Ne.symm hwk)] at hc'
    simp only [ownWaiter, hk, hw, hc', Option.all_some, Bool.or_eq_true, decide_eq_true_eq] at hown
    rcases hown with heq | hnot | hfailed
    · exact absurd heq hwk
    · exact absurd hrun hnot
    · exact hfailed

/-- A step of one call. -/
theorem Inv.act (h : Inv s) {a : Action} (hk : s.calls[k]? = some c) (hkey : a.call = some k)
    (hown : ownAnswer a s = true) (hs : act frontend a k c s = some s') : Inv s' := by
  have hh := h c (List.mem_of_getElem? hk)
  rw [ownAnswer, Bool.and_eq_true] at hown
  cases a with
  | begin method origin hash amountSats => cases hs
  | enter i =>
    simp only [Refunds.act] at hs
    split at hs
    · rename_i hst
      have hopen : c.stage ≠ .finished := by rw [hst.2]; nofun
      have hp := hh.unsent (.inl hst.2)
      split at hs
      · cases hs
        exact h.set (hh.unsent_error hopen (hh.notFailed hp) hp) rfl
      · cases hs
        refine h.set (show Call.Honest { c with stage := .entered } from ⟨fun _ => hp, hh.failed, nofun, ?_, ?_⟩) rfl
        · exact fun hr => ⟨.inl hp, .inr (hh.lost hopen hr)⟩
        · exact fun _ => hh.charged (.inl hst.2)
    · cases hs
  | refuse i =>
    simp only [Refunds.act] at hs
    split at hs
    · rename_i hst
      have hp := hh.unsent (.inl hst)
      cases hs
      exact h.set (hh.unsent_error (by rw [hst]; nofun) (hh.notFailed hp) hp) rfl
    · split at hs
      · rename_i hst
        have hp := hh.unsent (.inr (.inl hst))
        cases hs
        refine h.set (k := k) (hh.unsent_error (by rw [hst]; nofun) (hh.notFailed hp) hp) ?_
        cases frontend <;> rfl
      · cases hs
  | register i =>
    simp only [Refunds.act] at hs
    split at hs
    · rename_i hst
      have hopen : c.stage ≠ .finished := by rw [hst.2.2]; nofun
      have hp := hh.unsent (.inl hst.2.2)
      cases hs
      refine h.set (show Call.Honest { c with stage := .registered, wait := .running } from ⟨fun _ => hp, ?_, nofun, ?_, ?_⟩) rfl
      · intro hor
        simp at hor
      · exact fun hr => ⟨.inl hp, .inr (hh.lost hopen hr)⟩
      · intro hor
        simp at hor
    · cases hs
  | send i ok =>
    cases hkey
    have hidle := hown.2
    simp only [lostIdle, hk, Option.all_some, Bool.or_eq_true, Bool.not_eq_true'] at hidle
    exact h.send hk (fun hok => hidle.resolve_left (by simp [hok])) hs
  | settle i =>
    simp only [Refunds.act] at hs
    split at hs
    · rename_i hp
      cases hs
      have hset : Inv (s.set k { c with payment := some .settled }) :=
        h.set (hh.status hp _) rfl
      exact hset.wake c.hash .preimage nofun
    · cases hs
  | fail i =>
    cases hkey
    simp only [Refunds.act] at hs
    split at hs
    · rename_i hp
      cases hs
      exact h.fail hk hp hown.1
    · cases hs
  | expire i =>
    simp only [Refunds.act] at hs
    split at hs
    · rename_i hrun
      cases hs
      refine h.set (show Call.Honest { c with wait := .ended .timeout }
        from ⟨hh.unsent, ?_, hh.answered, hh.refunded, ?_⟩) rfl
      · intro hor
        simp at hor
      · intro hst
        have := hh.charged hst
        rw [hrun] at this
        cases this
    · cases hs
  | cleanUp i =>
    simp only [Refunds.act] at hs
    split at hs
    · rename_i outcome hw
      cases hs
      refine h.set (show Call.Honest { c with wait := .cleaned outcome }
        from ⟨hh.unsent, ?_, hh.answered, hh.refunded, ?_⟩) rfl
      · intro hor
        simp only [reduceCtorEq, Wait.cleaned.injEq, false_or] at hor
        exact hh.failed (.inl (hor ▸ hw))
      · intro hst
        have := hh.charged hst
        rw [hw] at this
        cases this
    · cases hs
  | answer i =>
    simp only [Refunds.act] at hs
    split at hs
    · rename_i outcome hst hw
      cases hs
      refine h.set (show Call.Honest { c with stage := .answered outcome.answer } from ⟨?_, hh.failed, ?_, ?_, ?_⟩)
        (by cases frontend <;> rfl)
      · intro hor
        simp at hor
      · intro hans
        refine .inr (hh.failed (.inr ?_))
        cases outcome with
        | failed => exact hw
        | preimage => cases hans
        | timeout => cases hans
      · intro hr
        exact ⟨(hh.refunded hr).1, .inr (hh.lost (by rw [hst]; nofun) hr)⟩
      · intro hor
        simp at hor
    · cases hs
  | conclude i =>
    simp only [Refunds.act] at hs
    split at hs
    · rename_i answer hst
      split at hs
      · cases hs
      · cases hs
        refine h.set (show Call.Honest { c with stage := .finished, refunded := answer = .error false }
          from ⟨?_, hh.failed, nofun, ?_, ?_⟩) rfl
        · intro hor
          simp at hor
        · intro hr
          simp only [decide_eq_true_eq] at hr
          exact ⟨hh.answered (hr ▸ hst), .inl rfl⟩
        · intro hor
          simp at hor
    · cases hs
  | lose i =>
    cases hkey
    simp only [Refunds.act] at hs
    split at hs
    · have hidle := hown.2
      simp only [lostIdle, hk, Option.all_some, Bool.or_eq_true, decide_eq_true_eq] at hidle
      cases hs
      exact h.set (show Call.Honest { c with lost := true, refunded := true }
        from ⟨hh.unsent, hh.failed, hh.answered, fun _ => ⟨hidle, .inr rfl⟩, hh.charged⟩) rfl
    · cases hs

theorem Inv.step (h : Inv s) {a : Action} (hown : ownAnswer a s = true)
    (hs : step frontend a s = some s') : Inv s' := by
  have hone : ∀ b : Action, ownAnswer b s = true →
      (b.call.bind fun k => s.calls[k]?.bind fun c => Refunds.act frontend b k c s) = some s' →
      Inv s' := by
    intro b hb hs'
    simp only [Option.bind_eq_some_iff] at hs'
    obtain ⟨k, hkey, c, hk, hc⟩ := hs'
    exact h.act hk hkey hb hc
  cases a with
  | begin method origin hash amountSats =>
    simp only [Refunds.step] at hs
    split at hs
    · cases hs
    · cases hs
      intro c hc
      rcases List.mem_append.mp hc with hold | hnew
      · exact h c hold
      · rw [List.mem_singleton.mp hnew]
        exact ⟨fun _ => rfl, nofun, nofun, nofun, fun _ => rfl⟩
  | _ => exact hone _ hown hs

/-! ## Runs -/

/-- In every run in which a failure reaches the call whose payment failed and no answer is lost
over a payment, no refund is made for a payment that is in flight or settled, and the net charges
cover those. -/
theorem sound_of_ownAnswer (frontend : Frontend) (s : State)
    (hrun : Steps (step frontend) (fun a t => ownAnswer a t = true) {} s) : Sound s := by
  refine (hrun.invariant (I := Inv) ?_ fun _ _ _ h hown hs => h.step hown hs).sound
  intro c hc
  cases hc

/-- The same invoice is paid twice in the extension: the first settles, the second, which
waits, is told so; then the second fails.  A keysend fails, and the answer to a last call is lost
before its payment is sent. -/
theorem sound_of_ownAnswer_twice : ∃ s,
    Steps (step .extension) (fun a t => ownAnswer a t = true) {} s ∧
      s.calls.map (fun c => (c.payment, c.refunded)) =
        [(some .settled, false), (some .failed, false), (some .failed, true), (none, true)] ∧ Sound s := by
  obtain ⟨s, hrun, hs⟩ := Steps.exists_of_play (step .extension) ownAnswer {}
    [.begin .sendPayment 0 5 10, .begin .sendPayment 1 5 10, .send 0 true, .send 1 true, .settle 0,
      .cleanUp 1, .answer 1, .conclude 1, .fail 1, .expire 0, .cleanUp 0, .answer 0, .conclude 0,
      .begin .keysend 0 6 3, .register 2, .send 2 true, .fail 2, .cleanUp 2, .answer 2, .conclude 2,
      .begin .sendPayment 1 7 4, .lose 3]
    (fun s => s.calls.map (fun c => (c.payment, c.refunded)) =
      [(some .settled, false), (some .failed, false), (some .failed, true), (none, true)]) (by decide +kernel)
  exact ⟨s, hrun, of_decide_eq_true hs, sound_of_ownAnswer _ s hrun⟩

/-- The first payment of an invoice fails, and the second call for it is told so and refunded
while its own payment is in flight. -/
theorem not_sound_twice : ∃ s, Steps (step .extension) (fun _ _ => True) {} s ∧ ¬ Sound s := by
  obtain ⟨s, hrun, hs⟩ := Steps.exists_of_play (step .extension) (fun _ _ => true) {}
    [.begin .sendPayment 0 5 10, .begin .sendPayment 1 5 10, .send 0 true, .send 1 true, .fail 0,
      .cleanUp 1, .answer 1, .conclude 1]
    (fun s => s.moved 1 = 10 ∧ s.net 1 = 0) (by decide +kernel)
  simp only [decide_eq_true_eq] at hs
  refine ⟨s, hrun.mono fun _ _ _ => trivial, fun h => ?_⟩
  have := h.2 1
  omega

end LibreWallet.Webln.Refunds
