import LibreWallet.Async.System
import LibreWallet.Nostr.Relays
import Mathlib.Data.List.Dedup

/-
  PushGateway/Listener.lean --- the relay listener of the push gateway.

  `NostrRelayListener`, `ensureRelayListener` and what the register, unregister and push
  handlers do to the rows of one relay URL in `libre-nwc-push-gateway/src/index.ts`, one
  turn of the event loop a step.  Requests that the handlers refuse change nothing and are
  left out.  The environment answers the connects under way and drops connections;
  closing a subscription invokes its `onclose` at once.
-/

set_option autoImplicit false

namespace LibreWallet.PushGateway

open Async Nostr

/-! ## The listener -/

/-- A row of `subscriptions` with this relay URL; its primary key is the pubkey. -/
structure Row where
  walletPubkey : String
  endpoint : String
  deriving DecidableEq, Repr

structure Gateway where
  now : Nat := 0
  relayUrl : String
  rows : List Row
  /-- `listeners` has one for the relay URL, with the fields that follow. -/
  listening : Bool := false
  relay : Option Nat := none
  sub : Option Nat := none
  isConnected : Bool := false
  /-- When the reconnect fires. -/
  reconnectTimeout : Option Nat := none
  /-- How many `Relay.connect` are under way. -/
  connects : Nat := 0
  /-- What `nostr-tools` has open; a subscription knows the pubkeys of its filter. -/
  net : Nostr.Relays (List String) := {}
  deriving DecidableEq, Repr

namespace Gateway

def getRegisteredPubkeys (g : Gateway) : List String := (g.rows.map (·.walletPubkey)).dedup

def scheduleReconnect (g : Gateway) : Gateway :=
  if g.reconnectTimeout.isSome then g else { g with reconnectTimeout := some (g.now + 5000) }

/-- `connect` up to its await. -/
def connect (g : Gateway) : Gateway :=
  if g.isConnected then g else { g with connects := g.connects + 1 }

def subscribe (g : Gateway) : Gateway :=
  match g.relay with
  | none => g
  | some r =>
    let pubkeys := g.getRegisteredPubkeys
    if pubkeys = [] then g
    else { g with net := g.net.subscribe r pubkeys, sub := some g.net.subscriptions.length }

/-- A subscription is closed, by either side: its `onclose` wants a new connection. -/
def closeSub (g : Gateway) (s : Nat) : Gateway :=
  { g with net := g.net.close s, isConnected := false }.scheduleReconnect

def updateSubscription (g : Gateway) : Gateway :=
  let g := match g.sub with
    | some s =>
      let g := g.closeSub s
      { g with sub := none }
    | none => g
  if g.isConnected then g.subscribe else g.connect

def ensureRelayListener (g : Gateway) : Gateway :=
  if g.listening then g.updateSubscription else { g with listening := true }.connect

/-- `INSERT OR REPLACE` -/
def upsert (g : Gateway) (walletPubkey endpoint : String) : Gateway :=
  { g with rows := (g.rows.filter fun x => x.walletPubkey ≠ walletPubkey) ++ [⟨walletPubkey, endpoint⟩] }

def delete (g : Gateway) (p : Row → Bool) : Gateway := { g with rows := g.rows.filter fun x => !p x }

/-- `/api/register` -/
def register (g : Gateway) (walletPubkey endpoint : String) : Gateway :=
  (g.upsert walletPubkey endpoint).ensureRelayListener

/-- `/api/unregister` -/
def unregister (g : Gateway) (walletPubkey : String) : Gateway :=
  let g := g.delete fun x => x.walletPubkey = walletPubkey
  if g.listening then g.updateSubscription else g

/-- `handleNwcEvent`, when the push service knows the endpoint of a row no more. -/
def expired (g : Gateway) (walletPubkey endpoint : String) : Gateway :=
  let g := g.delete fun x => x.walletPubkey = walletPubkey && x.endpoint = endpoint
  if g.listening then g.updateSubscription else g

/-- `Relay.connect` answers. -/
def connected (g : Gateway) (ok : Bool) : Option Gateway :=
  if g.connects = 0 then none
  else
    let g := { g with connects := g.connects - 1 }
    some (if ok then
      { g with
        net := g.net.connect g.relayUrl
        relay := some g.net.connections.length
        isConnected := true }.subscribe
    else g.scheduleReconnect)

/-- The reconnect fires. -/
def reconnect (g : Gateway) : Option Gateway :=
  match g.reconnectTimeout with
  | some t => if t ≤ g.now then some { g with reconnectTimeout := none }.connect else none
  | none => none

/-- A connection drops, and its subscriptions are closed. -/
def dropped (g : Gateway) (r : Nat) : Option Gateway :=
  if g.net.connected r then
    let g' := (g.net.openOn r).foldl closeSub g
    some { g' with net := g'.net.disconnect r }
  else none

end Gateway

/-! ## Runs -/

inductive Action where
  | wait (ms : Nat)
  /-- The gateway starts, with rows in its database or with a relay in its configuration. -/
  | ensureRelayListener
  | register (walletPubkey endpoint : String)
  | unregister (walletPubkey : String)
  | expired (walletPubkey endpoint : String)
  | connected (ok : Bool)
  | reconnect
  | dropped (r : Nat)
  deriving DecidableEq, Repr

def step : Action → Gateway → Option Gateway
  | .wait ms, g => some { g with now := g.now + ms }
  | .ensureRelayListener, g => some g.ensureRelayListener
  | .register walletPubkey endpoint, g => some (g.register walletPubkey endpoint)
  | .unregister walletPubkey, g => some (g.unregister walletPubkey)
  | .expired walletPubkey endpoint, g => some (g.expired walletPubkey endpoint)
  | .connected ok, g => g.connected ok
  | .reconnect, g => g.reconnect
  | .dropped r, g => g.dropped r

/-! ## What is asked of it -/

/-- The subscription `s` is live, for the pubkeys of the rows, and nothing else is open. -/
structure Live (g : Gateway) (s r : Nat) (pubkeys : List String) : Prop where
  subscription : g.net.subscriptions[s]? = some ⟨r, pubkeys, true⟩
  connected : g.net.connected r = true
  filter : ∀ pubkey, pubkey ∈ pubkeys ↔ ∃ row ∈ g.rows, row.walletPubkey = pubkey
  onlySub : ∀ s' pubkeys', g.net.Open s' pubkeys' → s' = s
  onlyConnection : ∀ r', g.net.connected r' = true → r' = r

/-- Once nothing is pending, the listener of a relay with rows has its one subscription. -/
def Converged (g : Gateway) : Prop :=
  g.listening = true → g.connects = 0 → g.reconnectTimeout = none → g.rows ≠ [] →
    ∃ s r pubkeys, Live g s r pubkeys

/-- A change of the rows reaches a listener that is not connected and not connecting, or one that is
connected, has no subscription, and whose connection is there if it is to have one. -/
def Gateway.ready (g : Gateway) : Bool :=
  if g.isConnected then g.sub.isNone && (decide (g.rows = []) || g.relay.any g.net.connected)
  else g.connects = 0

def sound : Action → Gateway → Bool
  | .ensureRelayListener, g => !g.listening || g.ready
  | .register walletPubkey endpoint, g => !g.listening || (g.upsert walletPubkey endpoint).ready
  | .unregister walletPubkey, g => !g.listening || (g.delete fun x => x.walletPubkey = walletPubkey).ready
  | .expired walletPubkey endpoint, g =>
    !g.listening || (g.delete fun x => x.walletPubkey = walletPubkey && x.endpoint = endpoint).ready
  | .reconnect, g => g.isConnected || g.connects = 0
  | _, _ => true

/-! ## The invariant -/

structure Inv (g : Gateway) : Prop where
  connects : g.connects ≤ 1
  connected : g.isConnected = true → g.connects = 0
  off : g.listening = false → g.isConnected = false ∧ g.connects = 0 ∧ g.sub = none ∧ g.reconnectTimeout = none
  pending : g.listening = true → g.isConnected = false → 0 < g.connects ∨ g.reconnectTimeout.isSome = true
  down : g.isConnected = false → (∀ s pubkeys, ¬ g.net.Open s pubkeys) ∧ ∀ r, g.net.connected r = false
  up : g.isConnected = true → ∃ r, g.relay = some r ∧ (∀ r', g.net.connected r' = true → r' = r) ∧
    ((∃ s pubkeys, g.sub = some s ∧ Live g s r pubkeys ∧ pubkeys ≠ []) ∨
      g.sub = none ∧ g.rows = [] ∧ ∀ s pubkeys, ¬ g.net.Open s pubkeys)
  empty : g.rows = [] → g.sub = none

variable {g g' : Gateway} {r s : Nat} {pubkeys : List String}

theorem mem_getRegisteredPubkeys {pubkey : String} :
    pubkey ∈ g.getRegisteredPubkeys ↔ ∃ row ∈ g.rows, row.walletPubkey = pubkey := by
  simp [Gateway.getRegisteredPubkeys]

theorem getRegisteredPubkeys_eq_nil : g.getRegisteredPubkeys = [] ↔ g.rows = [] := by
  rw [List.eq_nil_iff_forall_not_mem, List.eq_nil_iff_forall_not_mem]
  constructor
  · intro h row hrow
    exact h row.walletPubkey (mem_getRegisteredPubkeys.mpr ⟨row, hrow, rfl⟩)
  · intro h pubkey hp
    obtain ⟨row, hrow, -⟩ := mem_getRegisteredPubkeys.mp hp
    exact h row hrow

/-- Scheduling arms the timer, and nothing else. -/
theorem schedule_eq (g : Gateway) :
    ∃ t, g.scheduleReconnect = { g with reconnectTimeout := some t } := by
  simp only [Gateway.scheduleReconnect]
  split
  · rename_i hsome
    obtain ⟨t, ht⟩ := Option.isSome_iff_exists.mp hsome
    exact ⟨t, by rw [← ht]⟩
  · exact ⟨_, rfl⟩

theorem subscribe_cases (hrelay : g.relay = some r) :
    g.rows = [] ∧ g.subscribe = g ∨ g.rows ≠ [] ∧ g.getRegisteredPubkeys ≠ [] ∧
      g.subscribe =
        { g with net := g.net.subscribe r g.getRegisteredPubkeys, sub := some g.net.subscriptions.length } := by
  unfold Gateway.subscribe
  rw [hrelay]
  dsimp only
  split
  · rename_i hnil
    exact .inl ⟨getRegisteredPubkeys_eq_nil.mp hnil, rfl⟩
  · rename_i hsome
    exact .inr ⟨fun h => hsome (getRegisteredPubkeys_eq_nil.mpr h), hsome, rfl⟩

/-- A new subscription on the one connection, where there was none. -/
theorem Inv.subscribe (hc : g.connects = 0) (hl : g.listening = true) (hup : g.isConnected = true)
    (hrelay : g.relay = some r) (hone : ∀ r', g.net.connected r' = true → r' = r)
    (hready : g.rows = [] ∨ g.net.connected r = true) (hno : ∀ s pubkeys, ¬ g.net.Open s pubkeys)
    (hempty : g.rows = [] → g.sub = none) : Inv g.subscribe := by
  have hon : g.listening ≠ false := by simp [hl]
  have hcon : g.isConnected ≠ false := by simp [hup]
  rcases subscribe_cases hrelay with ⟨hrows, heq⟩ | ⟨hrows, hsome, heq⟩
  · rw [heq]
    exact ⟨by omega, fun _ => hc, fun h => absurd h hon, fun _ h => absurd h hcon, fun h => absurd h hcon,
      fun _ => ⟨r, hrelay, hone, .inr ⟨hempty hrows, hrows, hno⟩⟩, hempty⟩
  · have hr : g.net.connected r = true := hready.resolve_left hrows
    rw [heq]
    refine ⟨by simp [hc], fun _ => hc, fun h => absurd h hon, fun _ h => absurd h hcon, fun h => absurd h hcon,
      fun _ => ⟨r, hrelay, hone, .inl ⟨_, g.getRegisteredPubkeys, rfl, ⟨?_, hr, ?_, ?_, hone⟩, hsome⟩⟩,
      fun h => absurd h hrows⟩
    · simp [Relays.subscribe, hr]
    · exact fun _ => mem_getRegisteredPubkeys
    · intro s' pubkeys' hs'
      rcases Relays.open_subscribe.mp hs' with hold | ⟨rfl, -⟩
      · exact absurd hold (hno s' pubkeys')
      · rfl

/-- A listener that is not connected, with its next connect on the way. -/
theorem Inv.connecting (hc : g.connects ≤ 1) (hdown : g.isConnected = false) (hl : g.listening = true)
    (hp : 0 < g.connects ∨ g.reconnectTimeout.isSome = true)
    (hnone : (∀ s pubkeys, ¬ g.net.Open s pubkeys) ∧ ∀ r, g.net.connected r = false)
    (hempty : g.rows = [] → g.sub = none) : Inv g :=
  ⟨hc, fun h => absurd hdown (by simp [h]), fun h => absurd hl (by simp [h]), fun _ _ => hp, fun _ => hnone,
    fun h => absurd hdown (by simp [h]), hempty⟩

/-- What an update finds, whatever the rows are by then. -/
structure Before (g : Gateway) : Prop where
  listening : g.listening = true
  connected : g.isConnected = true → g.connects = 0
  down : g.isConnected = false → (∀ s pubkeys, ¬ g.net.Open s pubkeys) ∧ ∀ r, g.net.connected r = false
  up : g.isConnected = true → g.sub = none → ∃ r, g.relay = some r ∧
    (∀ r', g.net.connected r' = true → r' = r) ∧ ∀ s pubkeys, ¬ g.net.Open s pubkeys

theorem Inv.before (h : Inv g) (hl : g.listening = true) (rows : List Row) : Before { g with rows } where
  listening := hl
  connected := h.connected
  down := h.down
  up := by
    intro hup hsub
    obtain ⟨r, hrelay, hone, ⟨s, _, hs, -⟩ | ⟨-, -, hno⟩⟩ := h.up hup
    · have hnone : g.sub = none := hsub
      rw [hs] at hnone
      cases hnone
    · exact ⟨r, hrelay, hone, hno⟩

theorem updateSubscription_none (hsub : g.sub = none) :
    g.updateSubscription = if g.isConnected then g.subscribe else g.connect := by
  unfold Gateway.updateSubscription
  rw [hsub]

theorem updateSubscription_some (hsub : g.sub = some s) : ∃ t, g.updateSubscription =
    { g with
      net := g.net.close s
      isConnected := false
      reconnectTimeout := some t
      sub := none
      connects := g.connects + 1 } := by
  obtain ⟨t, ht⟩ := schedule_eq { g with net := g.net.close s, isConnected := false }
  refine ⟨t, ?_⟩
  unfold Gateway.updateSubscription
  rw [hsub]
  simp only [Gateway.closeSub, ht, Bool.false_eq_true, if_false, Gateway.connect]

theorem connect_of_down (hdown : g.isConnected = false) : g.connect = { g with connects := g.connects + 1 } := by
  unfold Gateway.connect
  rw [if_neg (by simp [hdown])]

theorem Before.updateSubscription (h : Before g) (hready : g.ready = true) : Inv g.updateSubscription := by
  by_cases hup : g.isConnected = true
  · rw [Gateway.ready, if_pos hup, Bool.and_eq_true, Option.isNone_iff_eq_none, Bool.or_eq_true,
      decide_eq_true_eq] at hready
    obtain ⟨hsub, hor⟩ := hready
    obtain ⟨r, hrelay, hone, hno⟩ := h.up hup hsub
    rw [updateSubscription_none hsub, if_pos hup]
    refine Inv.subscribe (h.connected hup) h.listening hup hrelay hone (hor.imp_right fun hr => ?_) hno fun _ => hsub
    rwa [hrelay, Option.any_some] at hr
  · have hdown : g.isConnected = false := Bool.eq_false_iff.mpr hup
    obtain ⟨hno, hgone⟩ := h.down hdown
    rw [Gateway.ready, if_neg hup, decide_eq_true_eq] at hready
    cases hsub : g.sub with
    | none =>
      rw [updateSubscription_none hsub, if_neg hup, connect_of_down hdown]
      exact Inv.connecting (by simp [hready]) hdown h.listening (.inl (Nat.succ_pos _)) ⟨hno, hgone⟩ fun _ => hsub
    | some s =>
      obtain ⟨t, ht⟩ := updateSubscription_some hsub
      rw [ht]
      refine Inv.connecting (by simp [hready]) rfl h.listening (.inl (Nat.succ_pos _))
        ⟨fun s' p hs' => hno s' p (Relays.open_close.mp hs').1, hgone⟩ fun _ => rfl

/-- The first connect of a listener. -/
theorem Inv.created (h : Inv g) (hl : g.listening = false) (rows : List Row) :
    Inv (Gateway.connect { g with rows, listening := true }) := by
  obtain ⟨hdown, hc, hsub, -⟩ := h.off hl
  rw [connect_of_down (g := { g with rows, listening := true }) hdown]
  exact Inv.connecting (by simp [hc]) hdown rfl (.inl (Nat.succ_pos _)) (h.down hdown) fun _ => hsub

theorem Inv.ensureRelayListener (h : Inv g) {rows : List Row}
    (hready : (!g.listening || Gateway.ready { g with rows }) = true) :
    Inv (Gateway.ensureRelayListener { g with rows }) := by
  unfold Gateway.ensureRelayListener
  by_cases hl : g.listening = true
  · rw [if_pos hl]
    rw [hl, Bool.not_true, Bool.false_or] at hready
    exact (h.before hl rows).updateSubscription hready
  · rw [if_neg hl]
    exact h.created (Bool.eq_false_iff.mpr hl) rows

/-- Rows are deleted, and the listener, if there is one, is told. -/
theorem Inv.deleted (h : Inv g) {rows : List Row}
    (hready : (!g.listening || Gateway.ready { g with rows }) = true) :
    Inv (if g.listening then Gateway.updateSubscription { g with rows } else { g with rows }) := by
  by_cases hl : g.listening = true
  · rw [if_pos hl]
    rw [hl, Bool.not_true, Bool.false_or] at hready
    exact (h.before hl rows).updateSubscription hready
  · obtain ⟨hdown, hc, hsub, -⟩ := h.off (Bool.eq_false_iff.mpr hl)
    rw [if_neg hl]
    exact ⟨h.connects, h.connected, h.off, h.pending, h.down, fun hup => absurd hup (by simp [hdown]), fun _ => hsub⟩

theorem Inv.connectedStep (h : Inv g) {ok : Bool} (hg : g.connected ok = some g') : Inv g' := by
  simp only [Gateway.connected] at hg
  split at hg
  · cases hg
  · rename_i hne
    have hone : g.connects = 1 := by
      have := h.connects
      omega
    have hup : g.isConnected = false := Bool.eq_false_iff.mpr fun hcon => hne (h.connected hcon)
    have hl : g.listening = true := by
      refine (Bool.not_eq_false _).mp fun hoff => hne (h.off hoff).2.1
    obtain ⟨hno, hgone⟩ := h.down hup
    simp only [Option.some.injEq] at hg
    subst hg
    cases ok with
    | true =>
      simp only [if_true]
      have hnew : (g.net.connect g.relayUrl).connected g.net.connections.length = true := by
        simp [Relays.connected, Relays.connect]
      refine Inv.subscribe (r := g.net.connections.length) (by simp [hone]) hl rfl rfl (fun r' hr' => ?_)
        (.inr hnew) hno h.empty
      by_contra hother
      have hlt : r' < g.net.connections.length := by
        simp only [Relays.connected, Relays.connect, Option.any_eq_true] at hr'
        obtain ⟨c, hc, -⟩ := hr'
        have hlen := (List.getElem?_eq_some_iff.mp hc).1
        simp only [List.length_append, List.length_singleton] at hlen
        omega
      have hold : g.net.connected r' = true := (Relays.connected_connect_of_lt hlt).symm.trans hr'
      rw [hgone r'] at hold
      cases hold
    | false =>
      obtain ⟨t, ht⟩ := schedule_eq { g with connects := g.connects - 1 }
      simp only [Bool.false_eq_true, if_false, ht]
      exact Inv.connecting (by simp [hone]) hup hl (.inr rfl) ⟨hno, hgone⟩ h.empty

/-- The clock and the timer are not the listener's. -/
theorem Inv.timed (h : Inv g) (now : Nat) {reconnectTimeout : Option Nat}
    (hoff : g.listening = false → reconnectTimeout = none)
    (hp : g.listening = true → g.isConnected = false → 0 < g.connects ∨ reconnectTimeout.isSome = true) :
    Inv { g with now, reconnectTimeout } := by
  refine ⟨h.connects, h.connected, fun hl => ?_, hp, h.down, fun hup => ?_, h.empty⟩
  · obtain ⟨hdown, hc, hsub, -⟩ := h.off hl
    exact ⟨hdown, hc, hsub, hoff hl⟩
  · obtain ⟨r, hrelay, hone, hor⟩ := h.up hup
    refine ⟨r, hrelay, hone, hor.imp_left fun ⟨s, pubkeys, hs, hlive, hne⟩ => ⟨s, pubkeys, hs, ?_, hne⟩⟩
    exact ⟨hlive.subscription, hlive.connected, hlive.filter, hlive.onlySub, hlive.onlyConnection⟩

theorem Inv.reconnect (h : Inv g) (hsound : sound .reconnect g = true) (hg : g.reconnect = some g') : Inv g' := by
  simp only [Gateway.reconnect] at hg
  split at hg
  · rename_i t htimer
    have hl : g.listening = true := by
      refine (Bool.not_eq_false _).mp fun hoff => ?_
      rw [(h.off hoff).2.2.2] at htimer
      cases htimer
    split at hg
    · cases hg
      by_cases hup : g.isConnected = true
      · have hsame : Gateway.connect { g with reconnectTimeout := none } = { g with reconnectTimeout := none } := by
          unfold Gateway.connect
          rw [if_pos hup]
        rw [hsame]
        exact h.timed g.now (fun _ => rfl) fun _ hdown => absurd hup (by simp [hdown])
      · have hdown : g.isConnected = false := Bool.eq_false_iff.mpr hup
        have hc : g.connects = 0 := by simpa [sound, hdown] using hsound
        rw [connect_of_down (g := { g with reconnectTimeout := none }) hdown]
        exact Inv.connecting (by simp [hc]) hdown hl (.inl (Nat.succ_pos _)) (h.down hdown) h.empty
    · cases hg
  · cases hg

/-- The subscriptions of a connection are closed one after another. -/
theorem closeSubs {l : List Nat} :
    ∃ net isConnected reconnectTimeout,
      l.foldl Gateway.closeSub g = { g with net, isConnected, reconnectTimeout } ∧
      net.connections = g.net.connections ∧
      (∀ s pubkeys, net.Open s pubkeys → g.net.Open s pubkeys ∧ s ∉ l) ∧
      (l = [] ∧ isConnected = g.isConnected ∧ reconnectTimeout = g.reconnectTimeout ∧ net = g.net ∨
        l ≠ [] ∧ isConnected = false ∧ reconnectTimeout.isSome = true) := by
  induction l generalizing g with
  | nil => exact ⟨g.net, g.isConnected, g.reconnectTimeout, rfl, rfl, fun s p hs => ⟨hs, by simp⟩,
      .inl ⟨rfl, rfl, rfl, rfl⟩⟩
  | cons s l ih =>
    obtain ⟨t, ht⟩ := schedule_eq { g with net := g.net.close s, isConnected := false }
    obtain ⟨net, up, timeout, heq, hcon, hopen, hor⟩ := ih (g := g.closeSub s)
    have hstep : g.closeSub s =
        { g with net := g.net.close s, isConnected := false, reconnectTimeout := some t } := ht
    refine ⟨net, up, timeout, ?_, ?_, fun s' p hs' => ?_, .inr ⟨by simp, ?_, ?_⟩⟩
    · rw [List.foldl_cons, heq, hstep]
    · rw [hcon, hstep]
      rfl
    · obtain ⟨hold, hnot⟩ := hopen s' p hs'
      rw [hstep] at hold
      obtain ⟨hold, hne⟩ := Relays.open_close.mp hold
      exact ⟨hold, by simp [hne, hnot]⟩
    · rcases hor with ⟨-, hup, -⟩ | ⟨-, hup, -⟩
      · rw [hup, hstep]
      · exact hup
    · rcases hor with ⟨-, -, htime, -⟩ | ⟨-, -, htime⟩
      · rw [htime, hstep]
        rfl
      · exact htime

theorem Inv.dropped (h : Inv g) (hg : g.dropped r = some g') : Inv g' := by
  simp only [Gateway.dropped] at hg
  split at hg
  · rename_i hcon
    cases hg
    have hup : g.isConnected = true := by
      refine (Bool.not_eq_false _).mp fun hdown => ?_
      rw [(h.down hdown).2 r] at hcon
      cases hcon
    have hl : g.listening = true := by
      refine (Bool.not_eq_false _).mp fun hoff => ?_
      rw [(h.off hoff).1] at hup
      cases hup
    obtain ⟨r₀, hrelay, hone, hor⟩ := h.up hup
    obtain rfl := hone r hcon
    obtain ⟨net, up, timeout, heq, hcons, hopen, hcases⟩ := closeSubs (g := g) (l := g.net.openOn r)
    rw [heq]
    -- it was the only connection
    have hgone : ∀ r', (net.disconnect r).connected r' = false := by
      refine fun r' => Bool.eq_false_iff.mpr fun hr' => ?_
      obtain ⟨hr', hne⟩ := Relays.connected_disconnect.mp hr'
      refine hne (hone r' ?_)
      simp only [Relays.connected, hcons] at hr'
      exact hr'
    rcases hcases with ⟨hnil, rfl, rfl, rfl⟩ | ⟨hsome, rfl, htimer⟩
    · -- it had no subscription
      refine ⟨h.connects, h.connected, h.off, h.pending, fun hdown => absurd hup (by simpa using hdown),
        fun _ => ⟨r, hrelay, fun r' hr' => ?_, .inr ?_⟩, h.empty⟩
      · rw [hgone r'] at hr'
        cases hr'
      · rcases hor with ⟨s, pubkeys, -, hlive, -⟩ | hidle
        · have hmem : s ∈ g.net.openOn r := Relays.mem_openOn.mpr ⟨pubkeys, hlive.subscription⟩
          rw [hnil] at hmem
          cases hmem
        · exact hidle
    · refine Inv.connecting h.connects rfl hl (.inr htimer) ⟨fun s pubkeys hs => ?_, hgone⟩ h.empty
      obtain ⟨hold, hnot⟩ := hopen s pubkeys hs
      rcases hor with ⟨s', pubkeys', -, hlive, -⟩ | ⟨-, -, hno⟩
      · obtain rfl := hlive.onlySub s pubkeys hold
        exact hnot (Relays.mem_openOn.mpr ⟨pubkeys', hlive.subscription⟩)
      · exact hno s pubkeys hold
  · cases hg

/-! ## Runs -/

theorem Inv.step {a : Action} (h : Inv g) (hsound : sound a g = true) (hg : step a g = some g') : Inv g' := by
  cases a with
  | wait ms =>
    cases hg
    exact h.timed (g.now + ms) (fun hoff => (h.off hoff).2.2.2) h.pending
  | ensureRelayListener =>
    cases hg
    exact @Inv.ensureRelayListener _ h g.rows hsound
  | register walletPubkey endpoint =>
    cases hg
    exact h.ensureRelayListener hsound
  | unregister walletPubkey =>
    cases hg
    exact h.deleted hsound
  | expired walletPubkey endpoint =>
    cases hg
    exact h.deleted hsound
  | connected ok => exact h.connectedStep hg
  | reconnect => exact h.reconnect hsound hg
  | dropped r => exact h.dropped hg

theorem inv_first (relayUrl : String) (rows : List Row) (now : Nat) : Inv { now, relayUrl, rows } where
  connects := Nat.zero_le _
  connected := fun h => by cases h
  off := fun _ => ⟨rfl, rfl, rfl, rfl⟩
  pending := fun h => by cases h
  down := by
    refine fun _ => ⟨fun s pubkeys hs => ?_, fun _ => rfl⟩
    obtain ⟨r, hr⟩ := hs
    cases hr
  up := fun h => by cases h
  empty := fun _ => rfl

theorem Inv.converged (h : Inv g) : Converged g := by
  intro hl hc htimer hrows
  have hup : g.isConnected = true := by
    refine (Bool.not_eq_false _).mp fun hdown => ?_
    rcases h.pending hl hdown with hpos | hsome
    · omega
    · rw [htimer] at hsome
      cases hsome
  obtain ⟨r, -, -, ⟨s, pubkeys, -, hlive, -⟩ | ⟨-, hempty, -⟩⟩ := h.up hup
  · exact ⟨s, r, pubkeys, hlive⟩
  · exact absurd hempty hrows

/-- In every run whose steps are sound, the listener has converged whenever nothing is pending. -/
theorem converged_of_sound (relayUrl : String) (rows : List Row) (now : Nat) (g : Gateway)
    (hrun : Steps step (fun a t => sound a t = true) { now, relayUrl, rows } g) : Converged g := by
  have h : Inv g := hrun.invariant (inv_first relayUrl rows now) fun _ _ _ ht hP hs => ht.step hP hs
  exact h.converged

/-- A wallet registers while the listener waits to reconnect. -/
theorem converged_of_sound_reconnected : ∃ g,
    Steps step (fun a t => sound a t = true) { relayUrl := "wss://relay.example", rows := [] } g ∧
      g.listening = true ∧ g.connects = 0 ∧ g.reconnectTimeout = none ∧ g.rows.length = 2 ∧ Converged g := by
  obtain ⟨g, hrun, hg⟩ := Steps.exists_of_play step sound { relayUrl := "wss://relay.example", rows := [] }
    [.register "p" "https://push.example/p", .connected true, .dropped 0, .register "q" "https://push.example/q",
      .connected true, .wait 5000, .reconnect]
    (fun g => decide (g.listening = true ∧ g.connects = 0 ∧ g.reconnectTimeout = none ∧ g.rows.length = 2))
    (by decide +kernel)
  obtain ⟨hl, hc, htimer, hrows⟩ := of_decide_eq_true hg
  exact ⟨g, hrun, hl, hc, htimer, hrows, converged_of_sound "wss://relay.example" [] 0 g hrun⟩

/-- Two wallets register before the first connect is answered: two subscriptions stay open. -/
theorem not_converged_twice : ¬ ∀ (relayUrl : String) (rows : List Row) (now : Nat) (g : Gateway),
    Steps step (fun _ _ => True) { now, relayUrl, rows } g → Converged g := by
  intro hall
  obtain ⟨g, hrun, hg⟩ := Steps.exists_of_play step (fun _ _ => true)
    { relayUrl := "wss://relay.example", rows := [] }
    [.register "p" "https://push.example/p", .register "q" "https://push.example/q", .connected true,
      .connected true]
    (fun g => decide (g.listening = true ∧ g.connects = 0 ∧ g.reconnectTimeout = none ∧ g.rows ≠ [] ∧
      g.net.subscriptions = [⟨0, ["p", "q"], true⟩, ⟨1, ["p", "q"], true⟩])) (by decide +kernel)
  obtain ⟨hl, hc, htimer, hrows, hsubs⟩ := of_decide_eq_true hg
  obtain ⟨s, r, pubkeys, hlive⟩ :=
    hall "wss://relay.example" [] 0 g (hrun.mono fun _ _ _ => trivial) hl hc htimer hrows
  have hfirst := hlive.onlySub 0 ["p", "q"] ⟨0, by rw [hsubs]; rfl⟩
  have hsecond := hlive.onlySub 1 ["p", "q"] ⟨1, by rw [hsubs]; rfl⟩
  rw [← hfirst] at hsecond
  cases hsecond

end LibreWallet.PushGateway
