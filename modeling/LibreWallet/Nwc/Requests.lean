import LibreWallet.Async.System
import Mathlib.Data.List.Basic
import Mathlib.Data.List.Nodup

/-
  Nwc/Requests.lean --- which request events are executed.

  The gate of `handleNwcRequest` in `libre-listener-wallet/src/nwc-manager.ts`: a stale
  event is dropped, then one whose id was handled; any other id is remembered, whoever
  sent it, in a queue of the last `MAX_HANDLED_EVENT_IDS`.  `processNwcRequest` looks for
  the sender's pairing afterwards.  The queue lives and dies with its `NwcManager`: every
  `LibreListenerWallet` has a new one.
-/

set_option autoImplicit false

namespace LibreWallet.Nwc

open Async

def MAX_HANDLED_EVENT_IDS : Nat := 2000

def NWC_REQUEST_MAX_AGE_SEC : Nat := 300

/-! ## Events and pairings -/

abbrev EventId := String

inductive Method where
  | getInfo
  | getBalance
  | makeInvoice
  | payInvoice
  | payKeysend
  | listTransactions
  deriving DecidableEq, Repr

/-- `NWC_ALWAYS_ALLOWED_METHODS` -/
def Method.alwaysAllowed : Method → Bool
  | .getInfo | .listTransactions => true
  | _ => false

/-- What a request decrypts to. -/
inductive Content where
  | undecryptable
  | notJson
  | invalidParams
  | request (method : Method)
  deriving DecidableEq, Repr

/-- A signed request event; its id is a hash of the rest. -/
structure Request where
  pubkey : String
  /-- In seconds; 0 where the event has none. -/
  createdAt : Nat
  content : Content
  deriving DecidableEq, Repr

/-- What the checks of a request read of a pairing. -/
structure Connection where
  clientPubkey : String
  enabled : Bool := true
  allowedMethods : Option (List Method) := none
  expiresAt : Option Nat := none
  deriving DecidableEq, Repr

/-- An expiry (epoch milliseconds) that has passed. -/
def isConnectionExpired (c : Connection) (now : Nat) : Bool :=
  match c.expiresAt with
  | some t => t ≠ 0 && t ≤ now
  | none => false

/-- A replayed or redelivered event by its age; `now` is in milliseconds. -/
def stale (r : Request) (now : Nat) : Bool :=
  0 < r.createdAt && r.createdAt + NWC_REQUEST_MAX_AGE_SEC < now / 1000

/-- `processNwcRequest` up to the method: whether it is dispatched. -/
def dispatches (connections : List Connection) (r : Request) (now : Nat) : Bool :=
  match connections.find? fun c => c.clientPubkey = r.pubkey && c.enabled with
  | none => false
  | some pairing =>
    match r.content with
    | .undecryptable | .notJson | .invalidParams => false
    | .request method =>
      !isConnectionExpired pairing now &&
        (match pairing.allowedMethods with
        | some allowed => method.alwaysAllowed || allowed.contains method
        | none => true)

/-! ## The manager -/

structure Manager where
  connections : List Connection := []
  handledEventIds : List EventId := []
  handledEventOrder : List EventId := []
  /-- Requests that have passed the gate and are not processed yet. -/
  chained : List EventId := []
  /-- The requests that were executed, newest first. -/
  executed : List EventId := []
  /-- The ids that this manager has accepted, newest first. -/
  accepted : List EventId := []
  /-- Those that any manager of the wallet has. -/
  everAccepted : List EventId := []

def markEventHandled (m : Manager) (eventId : EventId) : Manager :=
  let order := m.handledEventOrder ++ [eventId]
  let ids := eventId :: m.handledEventIds
  if MAX_HANDLED_EVENT_IDS < order.length then
    match order with
    | [] => { m with handledEventIds := ids, handledEventOrder := order }
    | evicted :: rest =>
      { m with handledEventIds := ids.filter (· ≠ evicted), handledEventOrder := rest }
  else { m with handledEventIds := ids, handledEventOrder := order }

inductive Action where
  /-- A relay delivers an event. -/
  | deliver (eventId : EventId) (now : Nat)
  /-- A request that has passed the gate gets its turn. -/
  | process (eventId : EventId) (now : Nat)
  /-- Pairings are created, edited, pruned or deleted. -/
  | setConnections (connections : List Connection)
  /-- The wallet is built anew: on the same page or on the next. -/
  | restart (connections : List Connection)

/-- `handleNwcRequest` up to the chain. -/
def handleNwcRequest (request : EventId → Request) (eventId : EventId) (now : Nat) (m : Manager) :
    Manager :=
  if stale (request eventId) now then m
  else if eventId ∈ m.handledEventIds then m
  else
    { markEventHandled m eventId with
      chained := eventId :: m.chained
      accepted := eventId :: m.accepted
      everAccepted := eventId :: m.everAccepted }

def step (request : EventId → Request) : Action → Manager → Option Manager
  | .deliver eventId now, m => some (handleNwcRequest request eventId now m)
  | .process eventId now, m =>
    if eventId ∈ m.chained then
      some { m with
        chained := m.chained.erase eventId
        executed := if dispatches m.connections (request eventId) now then eventId :: m.executed
          else m.executed }
    else none
  | .setConnections connections, m => some { m with connections }
  | .restart connections, m =>
    some { connections, executed := m.executed, everAccepted := m.everAccepted }

/-- An event that was accepted before is stale by now, or the same manager accepted it and
fewer than `MAX_HANDLED_EVENT_IDS` others since. -/
def Rejectable (request : EventId → Request) (a : Action) (m : Manager) : Prop :=
  match a with
  | .deliver eventId now => eventId ∈ m.everAccepted → stale (request eventId) now = true ∨
      eventId ∈ m.accepted.take MAX_HANDLED_EVENT_IDS
  | _ => True

/-! ## The invariant -/

structure Ordered (m : Manager) : Prop where
  order : m.handledEventOrder = (m.accepted.take MAX_HANDLED_EVENT_IDS).reverse
  ids : ∀ eventId, eventId ∈ m.handledEventIds ↔ eventId ∈ m.handledEventOrder
  distinct : m.accepted.Nodup
  once : (m.chained ++ m.executed).Nodup
  accepted : ∀ eventId ∈ m.accepted, eventId ∈ m.everAccepted
  known : ∀ eventId ∈ m.chained ++ m.executed, eventId ∈ m.everAccepted

variable {request : EventId → Request} {m m' : Manager}

/-- The set and the queue remember the last accepted ids. -/
theorem Ordered.mem_handled (h : Ordered m) (eventId : EventId) :
    eventId ∈ m.handledEventIds ↔ eventId ∈ m.accepted.take MAX_HANDLED_EVENT_IDS := by
  rw [h.ids, h.order, List.mem_reverse]

/-- Marking an event remembers it in the queue, and the set stays that of the queue. -/
theorem markEventHandled_spec {eventId : EventId}
    (hids : ∀ x, x ∈ m.handledEventIds ↔ x ∈ m.handledEventOrder)
    (hnodup : (m.handledEventOrder ++ [eventId]).Nodup) :
    (markEventHandled m eventId).handledEventOrder =
        remember MAX_HANDLED_EVENT_IDS m.handledEventOrder eventId ∧
      ∀ x, x ∈ (markEventHandled m eventId).handledEventIds ↔
        x ∈ (markEventHandled m eventId).handledEventOrder := by
  have hmem : ∀ x, x ∈ eventId :: m.handledEventIds ↔ x ∈ m.handledEventOrder ++ [eventId] := by
    intro x
    rw [List.mem_cons, hids, List.mem_append, List.mem_singleton, or_comm]
  unfold markEventHandled remember
  generalize m.handledEventOrder ++ [eventId] = order at hmem hnodup
  simp only
  split
  · cases order with
    | nil => exact ⟨rfl, hmem⟩
    | cons evicted rest =>
      refine ⟨rfl, fun x => ?_⟩
      have hnot : evicted ∉ rest := (List.nodup_cons.mp hnodup).1
      simp only [List.mem_filter, hmem, decide_eq_true_eq, List.mem_cons]
      constructor
      · rintro ⟨rfl | hx, hne⟩
        · exact absurd rfl hne
        · exact hx
      · intro hx
        refine ⟨.inr hx, ?_⟩
        rintro rfl
        exact hnot hx
  · exact ⟨rfl, hmem⟩

theorem markEventHandled_executed (m : Manager) (eventId : EventId) :
    (markEventHandled m eventId).executed = m.executed := by
  unfold markEventHandled
  simp only
  split
  · split <;> rfl
  · rfl

/-- An accepted event is a new one. -/
theorem Ordered.deliver {eventId : EventId} {now : Nat} (h : Ordered m)
    (hr : Rejectable request (.deliver eventId now) m) :
    Ordered (handleNwcRequest request eventId now m) := by
  unfold handleNwcRequest
  split
  · exact h
  · rename_i hfresh
    split
    · exact h
    · rename_i hnew
      have hnever : eventId ∉ m.everAccepted := by
        intro hmem
        rcases hr hmem with hs | hlast
        · exact hfresh hs
        · exact hnew ((h.mem_handled eventId).mpr hlast)
      have hunaccepted : eventId ∉ m.accepted := fun hmem => hnever (h.accepted _ hmem)
      have hnodup : (m.handledEventOrder ++ [eventId]).Nodup := by
        rw [List.nodup_append]
        refine ⟨?_, List.nodup_singleton _, ?_⟩
        · rw [h.order, List.nodup_reverse]
          exact h.distinct.sublist (List.take_sublist _ _)
        · intro x hx y hy hxy
          rw [List.mem_singleton] at hy
          rw [hxy, hy, ← h.ids] at hx
          exact hnew hx
      obtain ⟨horder, hids⟩ := markEventHandled_spec h.ids hnodup
      refine ⟨?_, hids, List.nodup_cons.mpr ⟨hunaccepted, h.distinct⟩, ?_, ?_, ?_⟩
      · simp only
        rw [horder, h.order, remember_take (by decide)]
      · have hout : eventId ∉ m.chained ++ m.executed := fun hmem => hnever (h.known _ hmem)
        simp only [markEventHandled_executed, List.cons_append, List.nodup_cons]
        exact ⟨hout, h.once⟩
      · intro x hx
        rcases List.mem_cons.mp hx with rfl | hx
        · exact List.mem_cons_self
        · exact List.mem_cons_of_mem _ (h.accepted x hx)
      · intro x hx
        simp only [markEventHandled_executed, List.cons_append, List.mem_cons] at hx
        rcases hx with rfl | hx
        · exact List.mem_cons_self
        · exact List.mem_cons_of_mem _ (h.known x hx)

/-- A request that gets its turn is executed or dropped. -/
theorem Ordered.process {eventId : EventId} {executed : List EventId} (h : Ordered m)
    (hmem : eventId ∈ m.chained) (he : executed = eventId :: m.executed ∨ executed = m.executed) :
    Ordered { m with chained := m.chained.erase eventId, executed } := by
  have hperm : (eventId :: (m.chained.erase eventId ++ m.executed)).Perm (m.chained ++ m.executed) :=
    ((List.perm_cons_erase hmem).symm).append_right m.executed
  have honce := hperm.nodup_iff.mpr h.once
  have hknown : ∀ x ∈ eventId :: (m.chained.erase eventId ++ m.executed), x ∈ m.everAccepted :=
    fun x hx => h.known x (hperm.mem_iff.mp hx)
  rcases he with rfl | rfl
  · have hmid : (m.chained.erase eventId ++ eventId :: m.executed).Perm
        (eventId :: (m.chained.erase eventId ++ m.executed)) := List.perm_middle
    exact ⟨h.order, h.ids, h.distinct, hmid.nodup_iff.mpr honce, h.accepted,
      fun x hx => hknown x (hmid.mem_iff.mp hx)⟩
  · exact ⟨h.order, h.ids, h.distinct, (List.nodup_cons.mp honce).2, h.accepted,
      fun x hx => hknown x (List.mem_cons_of_mem _ hx)⟩

theorem Ordered.step {a : Action} (h : Ordered m) (hr : Rejectable request a m)
    (hs : step request a m = some m') : Ordered m' := by
  cases a with
  | deliver eventId now =>
    cases hs
    exact h.deliver hr
  | process eventId now =>
    simp only [Nwc.step] at hs
    split at hs
    · rename_i hmem
      cases hs
      refine h.process hmem ?_
      split
      · exact .inl rfl
      · exact .inr rfl
    · cases hs
  | setConnections connections =>
    cases hs
    exact ⟨h.order, h.ids, h.distinct, h.once, h.accepted, h.known⟩
  | restart connections =>
    cases hs
    refine ⟨rfl, fun _ => Iff.rfl, List.nodup_nil, ?_, nofun, fun x hx => ?_⟩
    · exact h.once.sublist (List.sublist_append_right _ _)
    · exact h.known x (List.mem_append_right _ hx)

/-! ## Runs -/

/-- In every run in which an accepted event comes again only stale or soon enough, no
request is executed twice. -/
theorem executed_at_most_once (request : EventId → Request) (connections : List Connection)
    (m : Manager) (hrun : Steps (step request) (Rejectable request) { connections } m) :
    ∀ eventId, m.executed.count eventId ≤ 1 := by
  have hinit : Ordered { connections } := by
    refine ⟨rfl, fun _ => Iff.rfl, List.nodup_nil, List.nodup_nil, ?_, ?_⟩
    all_goals
      intro x hx
      cases hx
  have h : Ordered m := hrun.invariant hinit fun a t t' ht hr hs => ht.step hr hs
  intro eventId
  exact List.nodup_iff_count_le_one.mp (h.once.sublist (List.sublist_append_right _ _)) eventId

/-- A pairing asks for a payment. -/
def sampleRequest : EventId → Request := fun _ =>
  { pubkey := "client", createdAt := 1000, content := .request .payInvoice }

def samplePairing : Connection := { clientPubkey := "client" }

/-- An event is delivered twice, the second time after a reconnection. -/
theorem executed_at_most_once_redelivered : ∃ m,
    Steps (step sampleRequest) (Rejectable sampleRequest) { connections := [samplePairing] } m ∧
      m.executed = ["e1"] ∧ ∀ eventId, m.executed.count eventId ≤ 1 := by
  have hrun : Steps (step sampleRequest) (Rejectable sampleRequest)
      { connections := [samplePairing] }
      { connections := [samplePairing], handledEventIds := ["e1"], handledEventOrder := ["e1"],
        executed := ["e1"], accepted := ["e1"], everAccepted := ["e1"] } :=
    .snoc (a := .deliver "e1" 1200000)
      (.snoc (a := .process "e1" 1001000)
        (.snoc (a := .deliver "e1" 1001000) .refl (fun h => by cases h) rfl) trivial rfl)
      (fun _ => .inr (by decide)) rfl
  exact ⟨_, hrun, rfl, executed_at_most_once sampleRequest [samplePairing] _ hrun⟩

/-- The wallet is built anew within the age limit, and the event is delivered again. -/
theorem executed_twice_after_restart : ∃ m,
    Steps (step sampleRequest) (fun _ _ => True) { connections := [samplePairing] } m ∧
      m.executed.count "e1" = 2 := by
  obtain ⟨m, hrun, hm⟩ := Steps.exists_of_play (step sampleRequest) (fun _ _ => true)
    { connections := [samplePairing] }
    [.deliver "e1" 1001000, .process "e1" 1001000, .restart [samplePairing],
      .deliver "e1" 1200000, .process "e1" 1200000]
    (fun m => m.executed.count "e1" = 2) (by decide +kernel)
  exact ⟨m, hrun.mono fun _ _ _ => trivial, by simpa using hm⟩

end LibreWallet.Nwc
