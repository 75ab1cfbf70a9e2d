import Mathlib.Data.List.Basic

/-
  Nostr/Relays.lean --- the connections to relays and the subscriptions on them.

  A connection and a subscription are known by their numbers; each is open until it is
  closed, and never opens again.  A subscription that is made on a connection that is gone
  does not open.  What a client does when one is closed is its own: `openOn` lists the
  subscriptions that go with a connection.

  Nothing here names a particular program.
-/

set_option autoImplicit false

namespace LibreWallet.Nostr

structure Connection where
  url : String
  isOpen : Bool
  deriving DecidableEq, Repr

/-- A subscription on the connection `relay`, with what its client keeps of it. -/
structure Subscription (α : Type) where
  relay : Nat
  topic : α
  isOpen : Bool
  deriving DecidableEq, Repr

/-- Everything that was ever opened. -/
structure Relays (α : Type) where
  connections : List Connection := []
  subscriptions : List (Subscription α) := []
  deriving DecidableEq, Repr

namespace Relays

variable {α : Type}

def connected (n : Relays α) (r : Nat) : Bool := n.connections[r]?.any (·.isOpen)

/-- The new connection is number `n.connections.length`. -/
def connect (n : Relays α) (url : String) : Relays α :=
  { n with connections := n.connections ++ [⟨url, true⟩] }

/-- The new subscription is number `n.subscriptions.length`. -/
def subscribe (n : Relays α) (r : Nat) (topic : α) : Relays α :=
  { n with subscriptions := n.subscriptions ++ [⟨r, topic, n.connected r⟩] }

/-- The subscriptions that the test picks are closed. -/
def closeWhere (n : Relays α) (p : Nat → Subscription α → Bool) : Relays α :=
  { n with
    subscriptions := n.subscriptions.mapIdx fun i x => if p i x then { x with isOpen := false } else x }

def close (n : Relays α) (s : Nat) : Relays α := n.closeWhere fun i _ => i = s

/-- The connections that the test picks are gone. -/
def disconnectWhere (n : Relays α) (p : Nat → Connection → Bool) : Relays α :=
  { n with
    connections := n.connections.mapIdx fun i c => if p i c then { c with isOpen := false } else c }

def disconnect (n : Relays α) (r : Nat) : Relays α := n.disconnectWhere fun i _ => i = r

/-- The subscription `s` is open. -/
def Open (n : Relays α) (s : Nat) (topic : α) : Prop := ∃ r, n.subscriptions[s]? = some ⟨r, topic, true⟩

/-- The open subscriptions of a connection. -/
def openOn (n : Relays α) (r : Nat) : List Nat :=
  (List.range n.subscriptions.length).filter fun s =>
    n.subscriptions[s]?.any fun x => x.relay = r && x.isOpen

section

variable {n : Relays α} {r s : Nat} {url : String} {topic topic' : α}

theorem Open.lt (h : n.Open s topic) : s < n.subscriptions.length := by
  obtain ⟨r, h⟩ := h
  exact (List.getElem?_eq_some_iff.mp h).1

@[simp] theorem open_connect : (n.connect url).Open s topic ↔ n.Open s topic := Iff.rfl

@[simp] theorem open_disconnectWhere {p : Nat → Connection → Bool} :
    (n.disconnectWhere p).Open s topic ↔ n.Open s topic := Iff.rfl

@[simp] theorem open_disconnect : (n.disconnect r).Open s topic ↔ n.Open s topic := Iff.rfl

theorem open_subscribe : (n.subscribe r topic').Open s topic ↔
    n.Open s topic ∨ s = n.subscriptions.length ∧ topic = topic' ∧ n.connected r = true := by
  simp only [Open, subscribe, List.getElem?_append]
  split
  · rename_i hlt
    constructor
    · exact .inl
    · rintro (h | ⟨rfl, -⟩)
      · exact h
      · exact absurd hlt (Nat.lt_irrefl _)
  · rename_i hge
    constructor
    · rintro ⟨r', h⟩
      obtain ⟨hlt, heq⟩ := List.getElem?_eq_some_iff.mp h
      have hzero : s - n.subscriptions.length = 0 := Nat.lt_one_iff.mp hlt
      simp only [hzero, List.getElem_cons_zero, Subscription.mk.injEq] at heq
      exact .inr ⟨by omega, heq.2.1.symm, heq.2.2⟩
    · rintro (⟨r', h⟩ | ⟨rfl, rfl, hr⟩)
      · exact absurd (List.getElem?_eq_some_iff.mp h).1 hge
      · exact ⟨r, by simp [hr]⟩

theorem open_closeWhere {p : Nat → Subscription α → Bool} : (n.closeWhere p).Open s topic ↔
    ∃ r, n.subscriptions[s]? = some ⟨r, topic, true⟩ ∧ p s ⟨r, topic, true⟩ = false := by
  simp only [Open, closeWhere, List.getElem?_mapIdx, Option.map_eq_some_iff]
  constructor
  · rintro ⟨r, x, hx, heq⟩
    split at heq
    · cases heq
    · rename_i hp
      subst heq
      exact ⟨r, hx, Bool.eq_false_iff.mpr hp⟩
  · rintro ⟨r, hx, hp⟩
    exact ⟨r, _, hx, by simp [hp]⟩

theorem open_close {s' : Nat} : (n.close s').Open s topic ↔ n.Open s topic ∧ s ≠ s' := by
  rw [close, open_closeWhere]
  simp only [decide_eq_false_iff_not]
  constructor
  · rintro ⟨r, h, hne⟩
    exact ⟨⟨r, h⟩, hne⟩
  · rintro ⟨⟨r, h⟩, hne⟩
    exact ⟨r, h, hne⟩

theorem mem_openOn : s ∈ n.openOn r ↔ ∃ topic, n.subscriptions[s]? = some ⟨r, topic, true⟩ := by
  simp only [openOn, List.mem_filter, List.mem_range, Option.any_eq_true, Bool.and_eq_true,
    decide_eq_true_eq]
  constructor
  · rintro ⟨-, x, hx, rfl, hopen⟩
    exact ⟨x.topic, by rw [hx, ← hopen]⟩
  · rintro ⟨topic, h⟩
    exact ⟨(List.getElem?_eq_some_iff.mp h).1, _, h, rfl, rfl⟩

theorem connected_connect_of_lt (h : r < n.connections.length) :
    (n.connect url).connected r = n.connected r := by
  simp only [connected, connect, List.getElem?_append_left h]

theorem connected_disconnectWhere {p : Nat → Connection → Bool} :
    (n.disconnectWhere p).connected r = true ↔ ∃ c, n.connections[r]? = some c ∧ c.isOpen = true ∧ p r c = false := by
  simp only [connected, disconnectWhere, List.getElem?_mapIdx, Option.any_eq_true, Option.map_eq_some_iff]
  constructor
  · rintro ⟨c', ⟨c, hc, rfl⟩, hopen⟩
    by_cases hp : p r c = true
    · simp [hp] at hopen
    · simp only [hp, Bool.false_eq_true, if_false] at hopen
      exact ⟨c, hc, hopen, by simpa using hp⟩
  · rintro ⟨c, hc, hopen, hp⟩
    exact ⟨c, ⟨c, hc, by simp [hp]⟩, hopen⟩

theorem connected_disconnect {r' : Nat} :
    (n.disconnect r').connected r = true ↔ n.connected r = true ∧ r ≠ r' := by
  rw [disconnect, connected_disconnectWhere]
  simp only [decide_eq_false_iff_not, connected, Option.any_eq_true]
  constructor
  · rintro ⟨c, hc, hopen, hne⟩
    exact ⟨⟨c, hc, hopen⟩, hne⟩
  · rintro ⟨⟨c, hc, hopen⟩, hne⟩
    exact ⟨c, hc, hopen, hne⟩

end

end Relays

end LibreWallet.Nostr
