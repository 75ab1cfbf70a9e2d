import LibreWallet.Async.System
import LibreWallet.Roaming.Policy

/-
  Vss/DeviceLease.lean --- the single-device lease in the VSS store.

  Mirrors `VssDeviceLease` of `libre-listener-wallet/src/vss-device-lease.ts`, as `start` uses it: one
  `acquire`, then the heartbeat, then `release`.  A request takes effect and is answered at different
  times, may fail in transport with or without its effect, and other devices write the key in between.
-/

set_option autoImplicit false

namespace LibreWallet.Vss.DeviceLease

open Async
open Roaming (LeaseDecision)

/-! ## The decision -/

structure DeviceLeaseRecord where
  owner : String
  acquiredAt : Nat
  expiresAt : Nat
  deriving DecidableEq, Repr

/-- `evaluateDeviceLease` -/
def evaluateDeviceLease (existing : Option DeviceLeaseRecord) (ownerId : String) (now : Nat) : LeaseDecision :=
  match existing with
  | none => .acquire
  | some r =>
    if r.owner = ownerId then .renew
    else if r.expiresAt ≤ now then .acquire
    else .blocked

/-! ## The key on the server -/

/-- A value is what `parse` makes of it. -/
structure Object where
  version : Nat
  value : Option DeviceLeaseRecord
  deriving DecidableEq, Repr

structure Server where
  stored : Option Object := none
  /-- How many writes have taken effect. -/
  writes : Nat := 0
  deriving DecidableEq, Repr

/-- 0 when absent. -/
def Server.version (s : Server) : Nat := (s.stored.map (·.version)).getD 0

inductive Op where
  | getObject
  | putObjects (version : Nat) (value : DeviceLeaseRecord)
  | deleteObject (version : Nat)
  deriving DecidableEq, Repr

inductive Answer where
  | object (o : Option Object)
  | ok
  | conflict
  deriving DecidableEq, Repr

namespace Server

def put (s : Server) (value : Option DeviceLeaseRecord) : Server :=
  { stored := some ⟨s.version + 1, value⟩, writes := s.writes + 1 }

def delete (s : Server) : Server := { stored := none, writes := s.writes + 1 }

/-- A request takes effect; a put at another version than the stored one conflicts. -/
def exec (s : Server) : Op → Answer × Server
  | .getObject => (.object s.stored, s)
  | .putObjects version value => if version = s.version then (.ok, s.put (some value)) else (.conflict, s)
  | .deleteObject _ => (.ok, s.delete)

end Server

/-! ## The holder -/

/-- `effect` is the answer, with the writes before it.  For the put of the first renew that follows a
read-back, `after` is the writes before that read-back. -/
structure Request where
  op : Op
  after : Option Nat := none
  effect : Option (Answer × Nat) := none
  deriving DecidableEq, Repr

/-- Where `acquire` is; it awaits a request by its place. -/
inductive Acquire where
  | idle
  | getting (k : Nat)
  | putting (k : Nat) (curVersion : Nat)
  | returned
  | threw
  deriving DecidableEq, Repr

/-- Where a call of `renew` or `release` is. -/
inductive Call where
  | renewing (k : Nat)
  | readingBack (k : Nat)
  | releasing (k : Nat)
  | done
  deriving DecidableEq, Repr

structure State where
  now : Nat := 0
  server : Server := {}
  requests : List Request := []
  acquire : Acquire := .idle
  calls : List Call := []
  version : Nat := 0
  renewTimer : Bool := false
  stopped : Bool := false
  /-- The writes before the last read-back of a renew, until the next renew. -/
  readBack : Option Nat := none
  deriving DecidableEq, Repr

section Code

variable (ownerId : String) (leaseMs : Nat)

namespace State

def record (s : State) : DeviceLeaseRecord := { owner := ownerId, acquiredAt := s.now, expiresAt := s.now + leaseMs }

def send (s : State) (r : Request) : State := { s with requests := s.requests ++ [r] }

/-- `renew`, up to its put. -/
def renew (s : State) : State :=
  if s.stopped then s
  else
    { s.send { op := .putObjects s.version (s.record ownerId leaseMs), after := s.readBack } with
      calls := s.calls ++ [.renewing s.requests.length]
      readBack := none }

/-- `release`, up to its delete. -/
def release (s : State) : State :=
  { s.send { op := .deleteObject s.version } with
    calls := s.calls ++ [.releasing s.requests.length]
    renewTimer := false
    stopped := true }

/-- `acquire` gets an answer. -/
def acquireOn (s : State) (a : Answer) : State :=
  match s.acquire, a with
  | .getting _, .object obj =>
    let existing := obj.bind (·.value)
    if evaluateDeviceLease existing ownerId s.now = .blocked then { s with acquire := .threw }
    else
      let curVersion := (obj.map (·.version)).getD 0
      { s.send { op := .putObjects curVersion (s.record ownerId leaseMs) } with
        acquire := .putting s.requests.length curVersion }
  | .putting _ curVersion, .ok => { s with acquire := .returned, version := curVersion + 1 }
  | .putting _ _, .conflict => { s with acquire := .threw }
  | _, _ => s

/-- A call of `renew` or `release` gets an answer, that of a request with these writes before it. -/
def callOn (s : State) (i : Nat) (call : Call) (a : Answer) (writes : Nat) : State :=
  match call, a with
  | .renewing _, .ok => { s with version := s.version + 1, calls := s.calls.set i .done }
  | .renewing _, .conflict =>
    { s.send { op := .getObject } with calls := s.calls.set i (.readingBack s.requests.length) }
  | .readingBack _, .object obj =>
    { s with
      version := (obj.map (·.version)).getD s.version + 1
      calls := s.calls.set i .done
      readBack := if obj.isSome then some writes else s.readBack }
  | _, _ => { s with calls := s.calls.set i .done }

end State

/-- The place of the request that `acquire` awaits. -/
def Acquire.awaits : Acquire → Option Nat
  | .getting k | .putting k _ => some k
  | _ => none

def Call.awaits : Call → Option Nat
  | .renewing k | .readingBack k | .releasing k => some k
  | .done => none

inductive Action where
  | wait (ms : Nat)
  | acquire
  | startHeartbeat
  /-- The timer of the heartbeat fires. -/
  | tick
  | release
  /-- A request takes effect. -/
  | apply (k : Nat)
  /-- The server refuses a delete. -/
  | refuse (k : Nat)
  /-- `acquire` gets its answer, or its request fails in transport. -/
  | acquired (delivered : Bool)
  /-- So does another call. -/
  | answered (i : Nat) (delivered : Bool)
  /-- Another device puts a value. -/
  | otherPut (value : Option DeviceLeaseRecord)
  | otherDelete
  deriving DecidableEq, Repr

/-- A request takes effect. -/
def State.apply (s : State) (k : Nat) : Option State :=
  match s.requests[k]? with
  | some r =>
    if r.effect = none then
      some { s with
        server := (s.server.exec r.op).2
        requests := s.requests.set k { r with effect := some ((s.server.exec r.op).1, s.server.writes) } }
    else none
  | none => none

def step (a : Action) (s : State) : Option State :=
  match a with
  | .wait ms => some { s with now := s.now + ms }
  | .acquire =>
    if s.acquire = .idle then
      some { s.send { op := .getObject } with acquire := .getting s.requests.length }
    else none
  | .startHeartbeat =>
    if s.acquire = .returned then some (if s.stopped then s else { s with renewTimer := true }) else none
  | .tick => if s.renewTimer then some (s.renew ownerId leaseMs) else none
  | .release => if s.acquire = .returned then some s.release else none
  | .apply k => s.apply k
  | .refuse k =>
    match s.requests[k]? with
    | some ⟨.deleteObject v, after, none⟩ =>
      some { s with requests := s.requests.set k ⟨.deleteObject v, after, some (.conflict, s.server.writes)⟩ }
    | _ => none
  | .acquired delivered =>
    match s.acquire.awaits with
    | some k =>
      if delivered then ((s.requests[k]?).bind (·.effect)).map fun e => s.acquireOn ownerId leaseMs e.1
      else some { s with acquire := .returned }
    | none => none
  | .answered i delivered =>
    match s.calls[i]? with
    | some call =>
      match call.awaits with
      | some k =>
        if delivered then ((s.requests[k]?).bind (·.effect)).map fun e => s.callOn i call e.1 e.2
        else some { s with calls := s.calls.set i .done }
      | none => none
    | none => none
  | .otherPut value => some { s with server := s.server.put value }
  | .otherDelete => some { s with server := s.server.delete }

end Code

/-! ## After a read-back -/

/-- Every renew that is the next one after a read-back, with no write in between, has succeeded. -/
def Resumes (s : State) : Prop :=
  ∀ r ∈ s.requests, ∀ a w, r.after = some w → r.effect = some (a, w) → a = .ok

/-- The step is not the put of such a renew. -/
def writtenSince (a : Action) (s : State) : Bool :=
  match a with
  | .apply k => (s.requests[k]?).all fun r => r.effect ≠ none || r.after ≠ some s.server.writes
  | _ => true

/-- The write count is at most the present one, and the fact holds while it is the present one. -/
def Since (server : Server) (w : Nat) (p : Prop) : Prop := w ≤ server.writes ∧ (w = server.writes → p)

/-- A put that would conflict now. -/
def Stale (server : Server) (op : Op) : Prop := ∃ v x, op = .putObjects v x ∧ server.version < v

section Since

variable {server server' : Server} {w : Nat} {p q : Prop}

theorem Since.mono (h : Since server w p) (hpq : p → q) : Since server w q := ⟨h.1, fun hw => hpq (h.2 hw)⟩

theorem Since.of_now (h : p) : Since server server.writes p := ⟨le_rfl, fun _ => h⟩

/-- A write ends it. -/
theorem Since.wrote (h : Since server w p) (hs : server'.writes = server.writes + 1) : Since server' w q := by
  have hle := h.1
  exact ⟨by omega, fun hw => by omega⟩

end Since

namespace Server

variable {s : Server} {op : Op}

/-- A request leaves the key as it is, or writes it. -/
theorem exec_server (s : Server) (op : Op) : (s.exec op).2 = s ∨ (s.exec op).2.writes = s.writes + 1 := by
  cases op with
  | getObject => exact .inl rfl
  | putObjects version value =>
    rw [exec]
    split
    · exact .inr rfl
    · exact .inl rfl
  | deleteObject version => exact .inr rfl

/-- Only a read answers with an object. -/
theorem exec_object {o : Option Object} (h : (s.exec op).1 = .object o) : (s.exec op).2 = s ∧ o = s.stored := by
  cases op with
  | getObject =>
    cases h
    exact ⟨rfl, rfl⟩
  | putObjects version value =>
    rw [exec] at h
    split at h
    · cases h
    · cases h
  | deleteObject version => cases h

theorem exec_stale (h : Stale s op) : s.exec op = (.conflict, s) := by
  obtain ⟨v, x, rfl, hv⟩ := h
  rw [exec, if_neg (by omega)]

end Server

/-! ## What holds of the requests -/

structure Net (server : Server) (requests : List Request) : Prop where
  /-- A next renew would conflict while nothing has been written since the read-back. -/
  puts : ∀ r ∈ requests, ∀ w, r.after = some w → r.effect = none → Since server w (Stale server r.op)
  /-- An object that was read is the stored one while nothing has been written since. -/
  reads : ∀ r ∈ requests, ∀ o w, r.effect = some (.object o, w) → Since server w (o = server.stored)
  /-- A next renew without a write in between has conflicted. -/
  conflicts : ∀ r ∈ requests, ∀ a w, r.after = some w → r.effect = some (a, w) → a = .conflict

namespace Net

variable {server : Server} {requests : List Request} {r : Request} {k : Nat}

theorem send (h : Net server requests) (hr : r.effect = none)
    (hafter : ∀ w, r.after = some w → Since server w (Stale server r.op)) : Net server (requests ++ [r]) where
  puts := by
    intro r' hr' w hw he
    rcases List.mem_append.mp hr' with hr' | hr'
    · exact h.puts r' hr' w hw he
    · rw [List.mem_singleton] at hr'
      exact hr' ▸ hafter w (hr' ▸ hw)
  reads := by
    intro r' hr' o w he
    rcases List.mem_append.mp hr' with hr' | hr'
    · exact h.reads r' hr' o w he
    · rw [List.mem_singleton] at hr'
      rw [hr', hr] at he
      cases he
  conflicts := by
    intro r' hr' a w hw he
    rcases List.mem_append.mp hr' with hr' | hr'
    · exact h.conflicts r' hr' a w hw he
    · rw [List.mem_singleton] at hr'
      rw [hr', hr] at he
      cases he

/-- The key is written, or nothing happens to it. -/
theorem of_server {server' : Server} (h : Net server requests)
    (hs : server' = server ∨ server'.writes = server.writes + 1) : Net server' requests := by
  rcases hs with rfl | hs
  · exact h
  · exact {
      puts := fun r hr w hw he => (h.puts r hr w hw he).wrote hs
      reads := fun r hr o w he => (h.reads r hr o w he).wrote hs
      conflicts := h.conflicts }

/-- A request is answered, not with an object. -/
theorem answer (h : Net server requests) {e : Answer × Nat}
    (hobject : ∀ o w, e = (.object o, w) → Since server w (o = server.stored))
    (hconflict : ∀ a w, r.after = some w → e = (a, w) → a = .conflict) :
    Net server (requests.set k { r with effect := some e }) where
  puts := by
    intro r' hr' w hw he
    rcases List.mem_or_eq_of_mem_set hr' with hr' | rfl
    · exact h.puts r' hr' w hw he
    · cases he
  reads := by
    intro r' hr' o w he
    rcases List.mem_or_eq_of_mem_set hr' with hr' | rfl
    · exact h.reads r' hr' o w he
    · exact hobject o w (Option.some.inj he)
  conflicts := by
    intro r' hr' a w hw he
    rcases List.mem_or_eq_of_mem_set hr' with hr' | rfl
    · exact h.conflicts r' hr' a w hw he
    · exact hconflict a w hw (Option.some.inj he)

/-- A request takes effect. -/
theorem exec (h : Net server requests) (hk : requests[k]? = some r) (hr : r.effect = none) :
    Net (server.exec r.op).2 (requests.set k { r with effect := some ((server.exec r.op).1, server.writes) }) := by
  refine (h.of_server (server.exec_server r.op)).answer ?_ ?_
  · intro o w he
    obtain ⟨ha, rfl⟩ := Prod.mk.inj he
    obtain ⟨hs, ho⟩ := Server.exec_object ha
    rw [hs, ho]
    exact .of_now rfl
  · intro a w hw he
    obtain ⟨ha, rfl⟩ := Prod.mk.inj he
    have hstale := (h.puts r (List.mem_of_getElem? hk) _ hw hr).2 rfl
    rw [Server.exec_stale hstale] at ha
    exact ha.symm

end Net

/-! ## What holds in every run -/

structure Inv (s : State) : Prop where
  /-- Nothing is called before `acquire` has returned. -/
  early : s.acquire ≠ .returned → s.calls = [] ∧ s.readBack = none ∧ s.renewTimer = false
  /-- The version that is kept after a read-back is past the stored one. -/
  ahead : ∀ w, s.readBack = some w → Since s.server w (s.server.version < s.version)
  net : Net s.server s.requests

section Runs

variable {ownerId : String} {leaseMs : Nat} {s s' : State} {i k : Nat}

theorem inv_init : Inv {} where
  early := fun _ => ⟨rfl, rfl, rfl⟩
  ahead := fun w h => by cases h
  net := ⟨by simp, by simp, by simp⟩

theorem Inv.send (h : Inv s) {r : Request} (hr : r.effect = none) (hafter : r.after = none) : Inv (s.send r) where
  early := h.early
  ahead := h.ahead
  net := h.net.send hr fun w hw => by
    rw [hafter] at hw
    cases hw

/-- Another device writes. -/
theorem Inv.wrote (h : Inv s) {server : Server} (hs : server.writes = s.server.writes + 1) :
    Inv { s with server } where
  early := h.early
  ahead := fun w hw => (h.ahead w hw).wrote hs
  net := h.net.of_server (.inr hs)

theorem Inv.renew (h : Inv s) (hret : s.acquire = .returned) : Inv (s.renew ownerId leaseMs) := by
  unfold State.renew
  split
  · exact h
  · refine ⟨fun hne => absurd hret hne, by simp, ?_⟩
    exact h.net.send rfl fun w hw => (h.ahead w hw).mono fun hlt => ⟨_, _, rfl, hlt⟩

theorem Inv.release (h : Inv s) (hret : s.acquire = .returned) : Inv s.release := by
  refine ⟨fun hne => absurd hret hne, h.ahead, h.net.send rfl ?_⟩
  intro w hw
  cases hw

theorem Inv.acquireOn (h : Inv s) (hne : s.acquire ≠ .returned) (a : Answer) :
    Inv (s.acquireOn ownerId leaseMs a) := by
  obtain ⟨hcalls, hread, htimer⟩ := h.early hne
  have hearly : ∀ acquire, acquire ≠ Acquire.returned → s.calls = [] ∧ s.readBack = none ∧ s.renewTimer = false :=
    fun _ _ => h.early hne
  unfold State.acquireOn
  split
  · dsimp only
    split
    · exact ⟨hearly _, h.ahead, h.net⟩
    · exact ⟨hearly _, h.ahead, (h.send rfl rfl).net⟩
  · -- What `acquire` has written is not a read-back.
    refine ⟨fun hret => absurd rfl hret, ?_, h.net⟩
    intro w hw
    rw [show s.readBack = some w from hw] at hread
    cases hread
  · exact ⟨hearly _, h.ahead, h.net⟩
  · exact h

theorem Inv.callOn (h : Inv s) (hret : s.acquire = .returned) {call : Call} {a : Answer} {w : Nat}
    (hk : ∃ r ∈ s.requests, r.effect = some (a, w)) : Inv (s.callOn i call a w) := by
  have hearly : s.acquire ≠ .returned → ∀ p, p := fun hne => absurd hret hne
  unfold State.callOn
  split
  · exact ⟨fun hne => hearly hne _, fun w hw => (h.ahead w hw).mono fun hlt => by
      have : s.server.version < s.version := hlt
      exact Nat.lt_succ_of_lt this, h.net⟩
  · exact ⟨fun hne => hearly hne _, h.ahead, (h.send rfl rfl).net⟩
  · rename_i obj
    obtain ⟨r, hr, he⟩ := hk
    have hsince := h.net.reads r hr obj w he
    refine ⟨fun hne => hearly hne _, ?_, h.net⟩
    intro w' hw'
    cases obj with
    | none =>
      exact (h.ahead w' hw').mono fun hlt => Nat.lt_succ_of_lt hlt
    | some o =>
      obtain rfl : w = w' := Option.some.inj hw'
      refine hsince.mono fun ho => ?_
      rw [Server.version, ← ho]
      exact Nat.lt_succ_self _
  · exact ⟨fun hne => hearly hne _, h.ahead, h.net⟩

theorem Inv.apply (h : Inv s) (hs : s.apply k = some s') : Inv s' := by
  unfold State.apply at hs
  split at hs
  · rename_i r hk
    split at hs
    · rename_i hr
      cases hs
      refine ⟨h.early, fun w hw => ?_, h.net.exec hk hr⟩
      rcases s.server.exec_server r.op with heq | hwrites
      · rw [heq]
        exact h.ahead w hw
      · exact (h.ahead w hw).wrote hwrites
    · cases hs
  · cases hs

theorem Inv.refuse (h : Inv s) (hs : step ownerId leaseMs (.refuse k) s = some s') : Inv s' := by
  simp only [step] at hs
  split at hs
  · cases hs
    refine ⟨h.early, h.ahead, h.net.answer (r := ⟨.deleteObject _, _, none⟩) ?_ ?_⟩
    · intro o w he
      cases he
    · intro a w _ he
      cases he
      rfl
  · cases hs

theorem Inv.acquired (h : Inv s) {delivered : Bool}
    (hs : step ownerId leaseMs (.acquired delivered) s = some s') : Inv s' := by
  simp only [step] at hs
  split at hs
  · rename_i k hk
    have hne : s.acquire ≠ .returned := fun hret => by
      rw [hret] at hk
      cases hk
    split at hs
    · obtain ⟨e, -, rfl⟩ := Option.map_eq_some_iff.mp hs
      exact h.acquireOn hne e.1
    · cases hs
      exact ⟨fun hret => absurd rfl hret, h.ahead, h.net⟩
  · cases hs

theorem Inv.answered (h : Inv s) {delivered : Bool}
    (hs : step ownerId leaseMs (.answered i delivered) s = some s') : Inv s' := by
  simp only [step] at hs
  split at hs
  · rename_i call hcall
    have hret : s.acquire = .returned := by
      by_contra hne
      rw [(h.early hne).1] at hcall
      cases hcall
    split at hs
    · rename_i k hk
      split at hs
      · obtain ⟨e, he, rfl⟩ := Option.map_eq_some_iff.mp hs
        obtain ⟨r, hr, heff⟩ := Option.bind_eq_some_iff.mp he
        exact h.callOn hret ⟨r, List.mem_of_getElem? hr, heff⟩
      · cases hs
        exact ⟨fun hne => absurd hret hne, h.ahead, h.net⟩
    · cases hs
  · cases hs

theorem Inv.step {a : Action} (h : Inv s) (hs : step ownerId leaseMs a s = some s') : Inv s' := by
  cases a with
  | wait ms =>
    cases hs
    exact ⟨h.early, h.ahead, h.net⟩
  | acquire =>
    simp only [DeviceLease.step, Option.ite_none_right_eq_some, Option.some.injEq] at hs
    obtain ⟨hidle, rfl⟩ := hs
    have hne : s.acquire ≠ .returned := by simp [hidle]
    exact ⟨fun _ => h.early hne, h.ahead, (h.send rfl rfl).net⟩
  | startHeartbeat =>
    simp only [DeviceLease.step, Option.ite_none_right_eq_some, Option.some.injEq] at hs
    obtain ⟨hret, rfl⟩ := hs
    split
    · exact h
    · exact ⟨fun hne => absurd hret hne, h.ahead, h.net⟩
  | tick =>
    simp only [DeviceLease.step, Option.ite_none_right_eq_some, Option.some.injEq] at hs
    obtain ⟨htimer, rfl⟩ := hs
    refine h.renew ?_
    by_contra hne
    rw [(h.early hne).2.2] at htimer
    cases htimer
  | release =>
    simp only [DeviceLease.step, Option.ite_none_right_eq_some, Option.some.injEq] at hs
    obtain ⟨hret, rfl⟩ := hs
    exact h.release hret
  | apply k => exact h.apply hs
  | refuse k => exact h.refuse hs
  | acquired delivered => exact h.acquired hs
  | answered i delivered => exact h.answered hs
  | otherPut value =>
    cases hs
    exact h.wrote rfl
  | otherDelete =>
    cases hs
    exact h.wrote rfl

/-! ## When a next renew succeeds -/

/-- A next renew has been made with no write in between. -/
def Next (s : State) : Prop := ∃ r ∈ s.requests, ∃ a w, r.after = some w ∧ r.effect = some (a, w)

/-- It never succeeds. -/
theorem Inv.resumes_iff (h : Inv s) : Resumes s ↔ ¬ Next s := by
  constructor
  · rintro hres ⟨r, hr, a, w, hw, he⟩
    have hok := hres r hr a w hw he
    rw [h.net.conflicts r hr a w hw he] at hok
    cases hok
  · intro hnext r hr a w hw he
    exact absurd ⟨r, hr, a, w, hw, he⟩ hnext

theorem next_append {r : Request} (hr : r.effect = none) (hs : s'.requests = s.requests ++ [r]) :
    Next s' ↔ Next s := by
  constructor
  · rintro ⟨r', hr', a, w, hw, he⟩
    rw [hs, List.mem_append, List.mem_singleton] at hr'
    rcases hr' with hr' | rfl
    · exact ⟨r', hr', a, w, hw, he⟩
    · rw [hr] at he
      cases he
  · rintro ⟨r', hr', a, w, hw, he⟩
    exact ⟨r', by rw [hs]; exact List.mem_append_left _ hr', a, w, hw, he⟩

/-- A request is answered: it counts if it is a next renew's and nothing has been written since. -/
theorem next_set {r : Request} (hk : s.requests[k]? = some r) (hr : r.effect = none) {e : Answer × Nat}
    (hs : s'.requests = s.requests.set k { r with effect := some e }) :
    Next s' ↔ Next s ∨ r.after = some e.2 := by
  constructor
  · rintro ⟨r', hr', a, w, hw, he⟩
    rw [hs] at hr'
    rcases List.mem_or_eq_of_mem_set hr' with hr' | rfl
    · exact .inl ⟨r', hr', a, w, hw, he⟩
    · refine .inr ?_
      rw [Option.some.inj he]
      exact hw
  · have hmem : { r with effect := some e } ∈ s.requests.set k { r with effect := some e } :=
      List.mem_set (List.getElem?_eq_some_iff.mp hk).1 _
    rintro (⟨r', hr', a, w, hw, he⟩ | hafter)
    · obtain ⟨j, hj⟩ := List.mem_iff_getElem?.mp hr'
      have hne : k ≠ j := by
        rintro rfl
        rw [hk] at hj
        cases hj
        rw [hr] at he
        cases he
      refine ⟨r', ?_, a, w, hw, he⟩
      rw [hs]
      refine List.mem_of_getElem? (i := j) ?_
      rw [List.getElem?_set_ne hne, hj]
    · exact ⟨{ r with effect := some e }, hs ▸ hmem, e.1, e.2, hafter, rfl⟩

theorem next_apply (hs : s.apply k = some s') : Next s' ↔ Next s ∨ writtenSince (.apply k) s = false := by
  unfold State.apply at hs
  split at hs
  · rename_i r hk
    split at hs
    · rename_i hr
      cases hs
      rw [next_set hk hr rfl]
      simp [writtenSince, hk, hr]
    · cases hs
  · cases hs

/-- No other step makes a next renew. -/
theorem next_refuse (h : Inv s) (hs : step ownerId leaseMs (.refuse k) s = some s') : Next s' ↔ Next s := by
  simp only [step] at hs
  split at hs
  · rename_i v after hk
    cases hs
    rw [next_set hk rfl rfl]
    refine or_iff_left fun hafter => ?_
    -- Only the put of a renew is tagged.
    have htag := h.net.puts _ (List.mem_of_getElem? hk) _ hafter rfl
    obtain ⟨_, _, hop, -⟩ := htag.2 rfl
    cases hop
  · cases hs

theorem next_acquireOn (a : Answer) : Next (s.acquireOn ownerId leaseMs a) ↔ Next s := by
  unfold State.acquireOn
  split
  · dsimp only
    split
    · exact Iff.rfl
    · exact next_append rfl rfl
  · exact Iff.rfl
  · exact Iff.rfl
  · exact Iff.rfl

theorem next_callOn {call : Call} {a : Answer} {w : Nat} : Next (s.callOn i call a w) ↔ Next s := by
  unfold State.callOn
  split
  · exact Iff.rfl
  · exact next_append rfl rfl
  · exact Iff.rfl
  · exact Iff.rfl

theorem next_step {a : Action} (h : Inv s) (hs : step ownerId leaseMs a s = some s') :
    Next s' ↔ Next s ∨ writtenSince a s = false := by
  cases a with
  | apply k => exact next_apply hs
  | refuse k => simp [writtenSince, next_refuse h hs]
  | wait ms =>
    cases hs
    simp only [writtenSince, Bool.true_eq_false, or_false]
    exact Iff.rfl
  | acquire =>
    simp only [step, Option.ite_none_right_eq_some, Option.some.injEq] at hs
    obtain ⟨-, rfl⟩ := hs
    simp only [writtenSince, Bool.true_eq_false, or_false]
    exact next_append rfl rfl
  | startHeartbeat =>
    simp only [step, Option.ite_none_right_eq_some, Option.some.injEq] at hs
    obtain ⟨-, rfl⟩ := hs
    simp only [writtenSince, Bool.true_eq_false, or_false]
    split
    · exact Iff.rfl
    · exact Iff.rfl
  | tick =>
    simp only [step, Option.ite_none_right_eq_some, Option.some.injEq] at hs
    obtain ⟨-, rfl⟩ := hs
    simp only [writtenSince, Bool.true_eq_false, or_false]
    unfold State.renew
    split
    · exact Iff.rfl
    · exact next_append rfl rfl
  | release =>
    simp only [step, Option.ite_none_right_eq_some, Option.some.injEq] at hs
    obtain ⟨-, rfl⟩ := hs
    simp only [writtenSince, Bool.true_eq_false, or_false]
    exact next_append rfl rfl
  | acquired delivered =>
    simp only [writtenSince, Bool.true_eq_false, or_false]
    simp only [step] at hs
    split at hs
    · split at hs
      · obtain ⟨e, -, rfl⟩ := Option.map_eq_some_iff.mp hs
        exact next_acquireOn e.1
      · cases hs
        exact Iff.rfl
    · cases hs
  | answered i delivered =>
    simp only [writtenSince, Bool.true_eq_false, or_false]
    simp only [step] at hs
    split at hs
    · split at hs
      · split at hs
        · obtain ⟨e, -, rfl⟩ := Option.map_eq_some_iff.mp hs
          exact next_callOn
        · cases hs
          exact Iff.rfl
      · cases hs
    · cases hs
  | otherPut value =>
    cases hs
    simp only [writtenSince, Bool.true_eq_false, or_false]
    exact Iff.rfl
  | otherDelete =>
    cases hs
    simp only [writtenSince, Bool.true_eq_false, or_false]
    exact Iff.rfl

/-- What has failed once stays on record. -/
theorem next_of_play {as : List Action} (h : Inv s) (hnext : Next s)
    (hplay : play (step ownerId leaseMs) (fun _ _ => true) as s = some s') : Next s' := by
  induction as generalizing s with
  | nil =>
    cases hplay
    exact hnext
  | cons a as ih =>
    simp only [play, if_true, Option.bind_eq_some_iff] at hplay
    obtain ⟨t, ht, hrest⟩ := hplay
    exact ih (h.step ht) ((next_step h ht).mpr (.inl hnext)) hrest

/-- A run has no next renew without a write in between exactly when none of its steps is one. -/
theorem not_next_iff_play {as : List Action} (h : Inv s) (hnot : ¬ Next s)
    (hplay : play (step ownerId leaseMs) (fun _ _ => true) as s = some s') :
    ¬ Next s' ↔ play (step ownerId leaseMs) writtenSince as s = some s' := by
  induction as generalizing s with
  | nil =>
    cases hplay
    exact iff_of_true hnot rfl
  | cons a as ih =>
    simp only [play, if_true, Option.bind_eq_some_iff] at hplay
    obtain ⟨t, ht, hrest⟩ := hplay
    have hstep := next_step h ht
    cases hw : writtenSince a s with
    | true =>
      have hnot' : ¬ Next t := by
        rw [hstep, hw]
        simp [hnot]
      rw [ih (h.step ht) hnot' hrest, play, if_pos hw, ht, Option.bind_some]
    | false =>
      have hnext := next_of_play (h.step ht) (hstep.mpr (.inr hw)) hrest
      refine iff_of_false (not_not_intro hnext) ?_
      rw [play, if_neg (by simp [hw])]
      exact fun hcon => by cases hcon

/-! ## The lease of a running holder -/

/-- No request is on its way and no call is under way. -/
def Settled (s : State) : Prop := (∀ r ∈ s.requests, r.effect ≠ none) ∧ ∀ call ∈ s.calls, call = .done

/-- The steps of the holder that keep it running. -/
def Running : Action → Prop
  | .release | .otherPut _ | .otherDelete => False
  | _ => True

/-- Every put on its way is stale, and every object on its way to a call is the stored one. -/
structure Stuck (server : Server) (s : State) : Prop where
  same : s.server = server
  returned : s.acquire = .returned
  ahead : server.version < s.version
  pending : ∀ r ∈ s.requests, r.effect = none → r.op = .getObject ∨ Stale server r.op
  reads : ∀ k, .readingBack k ∈ s.calls → ∀ r, s.requests[k]? = some r → ∀ o w,
    r.effect = some (.object o, w) → o = server.stored

theorem Inv.stuck (h : Inv s) (hread : s.readBack = some s.server.writes) (hs : Settled s) :
    Stuck s.server s where
  same := rfl
  returned := by
    by_contra hne
    rw [(h.early hne).2.1] at hread
    cases hread
  ahead := (h.ahead _ hread).2 rfl
  pending := fun r hr he => absurd he (hs.1 r hr)
  reads := fun k hk => by cases hs.2 _ hk

namespace Stuck

variable {server : Server}

/-- A request is sent, and one call awaits it. -/
theorem send (h : Stuck server s) {r : Request} {calls : List Call} {readBack : Option Nat}
    (hr : r.effect = none) (hop : r.op = .getObject ∨ Stale server r.op)
    (hcalls : ∀ k, .readingBack k ∈ calls → .readingBack k ∈ s.calls ∨ k = s.requests.length) :
    Stuck server { s.send r with calls, readBack } where
  same := h.same
  returned := h.returned
  ahead := h.ahead
  pending := by
    intro r' hr' he
    rcases List.mem_append.mp hr' with hr' | hr'
    · exact h.pending r' hr' he
    · rw [List.mem_singleton] at hr'
      exact hr' ▸ hop
  reads := by
    intro k hk r' hr' o w he
    rcases Nat.lt_trichotomy k s.requests.length with hlt | rfl | hgt
    · have hold : .readingBack k ∈ s.calls := (hcalls k hk).resolve_right (Nat.ne_of_lt hlt)
      rw [State.send, List.getElem?_append_left hlt] at hr'
      exact h.reads k hold r' hr' o w he
    · simp only [State.send, List.getElem?_concat_length, Option.some.injEq] at hr'
      rw [← hr', hr] at he
      cases he
    · rw [State.send, List.getElem?_eq_none (by rw [List.length_append, List.length_singleton]; omega)] at hr'
      cases hr'

theorem apply (h : Stuck server s) (hs : s.apply k = some s') : Stuck server s' := by
  unfold State.apply at hs
  split at hs
  · rename_i r hk
    split at hs
    · rename_i hr
      cases hs
      have hexec : (s.server.exec r.op).2 = s.server ∧ ∀ o, (s.server.exec r.op).1 = .object o → o = server.stored := by
        rcases h.pending r (List.mem_of_getElem? hk) hr with hop | hop
        · rw [hop, h.same]
          exact ⟨rfl, fun o ho => (Answer.object.inj ho).symm⟩
        · rw [h.same, Server.exec_stale hop]
          exact ⟨rfl, fun o ho => by cases ho⟩
      refine ⟨hexec.1.trans h.same, h.returned, h.ahead, fun r' hr' he => ?_, fun j hj r' hr' o w he => ?_⟩
      · rcases List.mem_or_eq_of_mem_set hr' with hr' | rfl
        · exact h.pending r' hr' he
        · cases he
      · by_cases hjk : j = k
        · subst hjk
          simp only [List.getElem?_set_self (List.getElem?_eq_some_iff.mp hk).1, Option.some.injEq] at hr'
          rw [← hr'] at he
          exact hexec.2 o (Prod.mk.inj (Option.some.inj he)).1
        · simp only [List.getElem?_set_ne (Ne.symm hjk)] at hr'
          exact h.reads j hj r' hr' o w he
    · cases hs
  · cases hs

/-- A call that is over awaits nothing. -/
theorem mem_of_mem_done {calls : List Call} {j : Nat} (h : .readingBack j ∈ calls.set i .done) :
    .readingBack j ∈ calls := by
  rcases List.mem_or_eq_of_mem_set h with h | h
  · exact h
  · cases h

theorem callOn (h : Stuck server s) {call : Call} {a : Answer} {w : Nat} (hcall : s.calls[i]? = some call)
    (hawaits : call.awaits = some k) (hk : ∃ r, s.requests[k]? = some r ∧ r.effect = some (a, w)) :
    Stuck server (s.callOn i call a w) := by
  have hreads := fun j hj => h.reads j (mem_of_mem_done (i := i) hj)
  have hahead := h.ahead
  unfold State.callOn
  split
  · exact ⟨h.same, h.returned, Nat.lt_succ_of_lt hahead, h.pending, hreads⟩
  · refine h.send (r := { op := .getObject }) rfl (.inl rfl) fun j hj => ?_
    rcases List.mem_or_eq_of_mem_set hj with hj | hj
    · exact .inl hj
    · exact .inr (Call.readingBack.inj hj)
  · rename_i j obj
    obtain ⟨r, hr, he⟩ := hk
    obtain rfl : j = k := Option.some.inj hawaits
    have hobj := h.reads j (List.mem_of_getElem? hcall) r hr obj w he
    refine ⟨h.same, h.returned, ?_, h.pending, hreads⟩
    cases obj with
    | none => exact Nat.lt_succ_of_lt hahead
    | some o =>
      rw [Server.version, ← hobj]
      exact Nat.lt_succ_self _
  · exact ⟨h.same, h.returned, hahead, h.pending, hreads⟩

theorem step (h : Stuck server s) {a : Action} (ha : Running a) (hs : step ownerId leaseMs a s = some s') :
    Stuck server s' := by
  have hret := h.returned
  cases a with
  | wait ms =>
    cases hs
    exact ⟨h.same, hret, h.ahead, h.pending, h.reads⟩
  | acquire => simp [DeviceLease.step, hret] at hs
  | startHeartbeat =>
    simp only [DeviceLease.step, Option.ite_none_right_eq_some, Option.some.injEq] at hs
    obtain ⟨-, rfl⟩ := hs
    split
    · exact h
    · exact ⟨h.same, hret, h.ahead, h.pending, h.reads⟩
  | tick =>
    simp only [DeviceLease.step, Option.ite_none_right_eq_some, Option.some.injEq] at hs
    obtain ⟨-, rfl⟩ := hs
    unfold State.renew
    split
    · exact h
    · refine h.send rfl (.inr ⟨_, _, rfl, h.ahead⟩) fun j hj => ?_
      rcases List.mem_append.mp hj with hj | hj
      · exact .inl hj
      · cases List.mem_singleton.mp hj
  | apply k => exact h.apply hs
  | refuse k =>
    simp only [DeviceLease.step] at hs
    split at hs
    · -- A delete is not on its way.
      rename_i v after hk
      rcases h.pending _ (List.mem_of_getElem? hk) rfl with hop | ⟨_, _, hop, -⟩
      · cases hop
      · cases hop
    · cases hs
  | acquired delivered => simp [DeviceLease.step, hret, Acquire.awaits] at hs
  | answered i delivered =>
    simp only [DeviceLease.step] at hs
    split at hs
    · rename_i call hcall
      split at hs
      · rename_i k hawaits
        split at hs
        · obtain ⟨e, he, rfl⟩ := Option.map_eq_some_iff.mp hs
          obtain ⟨r, hr, heff⟩ := Option.bind_eq_some_iff.mp he
          exact h.callOn hcall hawaits ⟨r, hr, heff⟩
        · cases hs
          exact ⟨h.same, hret, h.ahead, h.pending, fun j hj => h.reads j (mem_of_mem_done hj)⟩
      · cases hs
    · cases hs
  | release => exact absurd ha id
  | otherPut value => exact absurd ha id
  | otherDelete => exact absurd ha id

end Stuck

theorem Inv.of_play {as : List Action} (h : Inv s)
    (hplay : play (DeviceLease.step ownerId leaseMs) (fun _ _ => true) as s = some s') : Inv s' :=
  (Steps.of_play hplay).invariant h fun _ _ _ ht _ hs => ht.step hs

/-- A run succeeds with every renew that is the next one after a read-back, with no write in between,
exactly when it has none: each comes only after another write, since it would conflict.  And a holder
with nothing on its way after a read-back leaves the lease as it is, however often it renews. -/
theorem renews_after_readBack {as : List Action}
    (h : play (step ownerId leaseMs) (fun _ _ => true) as {} = some s) :
    (Resumes s ↔ play (step ownerId leaseMs) writtenSince as {} = some s) ∧
      (s.readBack = some s.server.writes → Settled s → ∀ {s'},
        Steps (step ownerId leaseMs) (fun a _ => Running a) s s' → s'.server = s.server) := by
  have hinv := inv_init.of_play h
  have hnot : ¬ Next {} := by simp [Next]
  refine ⟨hinv.resumes_iff.trans (not_next_iff_play inv_init hnot h), fun hread hs s' hrun => ?_⟩
  exact (hrun.invariant (hinv.stuck hread hs) fun _ _ _ ht ha hstep => ht.step ha hstep).same

end Runs

/-- Another device writes while `"A"` holds the lease, and the renew of `"A"` reads it back. -/
def conflicted : List Action :=
  [.acquire, .apply 0, .acquired true, .apply 1, .acquired true, .startHeartbeat, .otherPut none, .tick,
    .apply 2, .answered 0 true, .apply 3, .answered 0 true]

theorem renews_after_readBack_conflicted :
    ∃ s, play (step "A" 120000) (fun _ _ => true) conflicted {} = some s ∧ Resumes s ∧
      ∀ {s'}, Steps (step "A" 120000) (fun a _ => Running a) s s' → s'.server = s.server := by
  obtain ⟨s, hs⟩ := Option.isSome_iff_exists.mp
    (by decide : (play (step "A" 120000) (fun _ _ => true) conflicted {}).isSome = true)
  have hsame : play (step "A" 120000) writtenSince conflicted {} =
      play (step "A" 120000) (fun _ _ => true) conflicted {} := by decide
  have hread : (play (step "A" 120000) (fun _ _ => true) conflicted {}).all (fun s =>
      s.readBack == some s.server.writes && s.requests.all (·.effect != none) && s.calls.all (· == .done)) = true := by
    decide
  rw [hs] at hread
  simp only [Option.all_some, Bool.and_eq_true, beq_iff_eq, List.all_eq_true, bne_iff_ne] at hread
  obtain ⟨hiff, hlapse⟩ := renews_after_readBack hs
  exact ⟨s, hs, hiff.mpr (hsame.trans hs), hlapse hread.1.1 ⟨hread.1.2, hread.2⟩⟩

/-- The next renew conflicts. -/
theorem not_resumes : ¬ ∀ (ownerId : String) (leaseMs : Nat) (as : List Action) (s : State),
    play (step ownerId leaseMs) (fun _ _ => true) as {} = some s → Resumes s := by
  intro h
  obtain ⟨s, hs⟩ := Option.isSome_iff_exists.mp
    (by decide : (play (step "A" 120000) (fun _ _ => true) (conflicted ++ [.tick, .apply 4]) {}).isSome = true)
  have hfail : (play (step "A" 120000) (fun _ _ => true) (conflicted ++ [.tick, .apply 4]) {}).any
      (fun s => s.requests.any fun r => r.after == some 2 && r.effect == some (.conflict, 2)) = true := by decide
  rw [hs] at hfail
  simp only [Option.any_some, List.any_eq_true, Bool.and_eq_true, beq_iff_eq] at hfail
  obtain ⟨r, hr, hafter, heffect⟩ := hfail
  cases h "A" 120000 _ s hs r hr .conflict 2 hafter heffect

end LibreWallet.Vss.DeviceLease
