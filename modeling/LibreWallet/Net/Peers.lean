import LibreWallet.Async.Records
import LibreWallet.Async.System
import LibreWallet.Nwc.RelayManager

/-
  Net/Peers.lean --- the sockets to the Lightning peers, and how they are dialled again.

  Mirrors `connectPeer`, `dialPeer`, `redialChannelPeers`, `refreshPeerConnections`, `handleDisconnect`
  and `scheduleReconnect` of `libre-listener-wallet/src/index.ts` with `WebSocketDescriptor`,
  `peer-reconnect.ts` and what `teardownRuntime` does to peers.  A dial is answered at any time; a socket
  closes, or LDK drops it, at any time; what LDK lists as connected is told by whoever asks.
-/

set_option autoImplicit false

namespace LibreWallet.Net.Peers

open Async Async.Records
open Nwc.Coverage (reconnectDelayMs)

/-! ## The wallet -/

section Code

variable {K A : Type} [DecidableEq K]

/-- A `WebSocketDescriptor`; its id is its place. -/
structure Descriptor (K : Type) where
  peerPubkey : K
  isClosed : Bool := false

/-- A `dialPeer` under way, and how many of the timers' callbacks wait for it. -/
structure Dial (K A : Type) where
  pubkey : K
  addr : A
  waiting : Nat := 0

/-- A `setTimeout` that has not fired. -/
structure Timer (K A : Type) where
  id : Nat
  pubkey : K
  target : A
  delay : Nat

structure Wallet (K A : Type) where
  peerManager : Bool := false
  isRunning : Bool := false
  descriptors : List (Descriptor K) := []
  connectedPeers : List (K × Nat) := []
  desiredPeers : List (K × A) := []
  pendingDials : List (Dial K A) := []
  timers : List (Timer K A) := []
  nextTimer : Nat := 0
  reconnectTimers : List (K × Nat) := []
  reconnectAttempts : List (K × Nat) := []
  /-- The callbacks of timers whose `connectPeer` was rejected. -/
  rejected : List K := []

/-- `shouldRedialNow` -/
def shouldRedialNow (running desired connectedInMap connectedInLdk : Bool) : Bool :=
  running && desired && !connectedInMap && !connectedInLdk

/-- The peers of our channels that the address book has, each once. -/
def channelPeersToRedial (book : List (K × A)) : List K → List K → List (K × A)
  | _, [] => []
  | seen, pk :: rest =>
    if pk ∈ seen then channelPeersToRedial book seen rest
    else ((book.lookup pk).map fun addr => (pk, addr)).toList ++ channelPeersToRedial book (pk :: seen) rest

namespace Wallet

variable (auto : Bool)

def reject (p : K) (n : Nat) (w : Wallet K A) : Wallet K A := { w with rejected := w.rejected ++ List.replicate n p }

/-- `connectPeer` up to its first await; it is rejected where the node is down.  `ldkHasPeer` is what LDK
answers, `waiting` is 1 for the callback of a timer. -/
def connectPeer (ldkHasPeer : Bool) (p : K) (addr : A) (waiting : Nat) (w : Wallet K A) : Option (Wallet K A) :=
  if !w.peerManager then none
  else
    let w := { w with desiredPeers := put w.desiredPeers p addr }
    if (w.connectedPeers.lookup p).isSome || ldkHasPeer then some w
    else if w.pendingDials.any (·.pubkey = p) then
      some { w with pendingDials := w.pendingDials.map fun d =>
        if d.pubkey = p then { d with waiting := d.waiting + waiting } else d }
    else some { w with pendingDials := w.pendingDials ++ [⟨p, addr, waiting⟩] }

def scheduleReconnect (p : K) (w : Wallet K A) : Wallet K A :=
  if !auto || !w.isRunning then w
  else
    match w.desiredPeers.lookup p with
    | none => w
    | some target =>
      if (w.connectedPeers.lookup p).isSome || (w.reconnectTimers.lookup p).isSome then w
      else
        let attempt := (w.reconnectAttempts.lookup p).getD 0 + 1
        { w with
          reconnectAttempts := put w.reconnectAttempts p attempt
          timers := w.timers ++ [⟨w.nextTimer, p, target, reconnectDelayMs attempt⟩]
          nextTimer := w.nextTimer + 1
          reconnectTimers := put w.reconnectTimers p w.nextTimer }

def handleDisconnect (i : Nat) (p : K) (w : Wallet K A) : Wallet K A :=
  if w.connectedPeers.lookup p = some i then
    scheduleReconnect auto p { w with connectedPeers := remove w.connectedPeers p }
  else w

/-- `disconnect_socket` of a descriptor -/
def disconnectSocket (i : Nat) (w : Wallet K A) : Wallet K A :=
  match w.descriptors[i]? with
  | none => w
  | some d =>
    if d.isClosed then w
    else handleDisconnect auto i d.peerPubkey { w with descriptors := w.descriptors.set i ⟨d.peerPubkey, true⟩ }

end Wallet

/-- What comes of a dial: no socket, or one that LDK accepts or not, and that takes the first bytes or
throws. -/
inductive Outcome where
  | refused
  | opened (accepted sent : Bool)
  deriving DecidableEq

namespace Wallet

variable (auto : Bool)

/-- The rest of `dialPeer`, and of those that wait for it. -/
def dialed (p : K) (outcome : Outcome) (w : Wallet K A) : Option (Wallet K A) :=
  (w.pendingDials.find? (·.pubkey = p)).map fun dial =>
    let w := { w with pendingDials := w.pendingDials.filter (·.pubkey ≠ p) }
    match outcome with
    | .refused => w.reject p dial.waiting
    | .opened accepted sent =>
      let id := w.descriptors.length
      let w := { w with descriptors := w.descriptors ++ [(⟨p, false⟩ : Descriptor K)] }
      if !w.peerManager || !accepted then (w.disconnectSocket auto id).reject p dial.waiting
      else
        let w := if sent then w else w.disconnectSocket auto id
        { w with connectedPeers := put w.connectedPeers p id, reconnectAttempts := remove w.reconnectAttempts p }

/-- The callback of `scheduleReconnect` -/
def timerFired (id : Nat) (ldkHasPeer : Bool) (w : Wallet K A) : Option (Wallet K A) :=
  (w.timers.find? (·.id = id)).map fun t =>
    let w := { w with
      timers := w.timers.filter (·.id ≠ id), reconnectTimers := remove w.reconnectTimers t.pubkey }
    let desired := (w.desiredPeers.lookup t.pubkey).isSome
    if shouldRedialNow w.isRunning desired (w.connectedPeers.lookup t.pubkey).isSome ldkHasPeer then
      (w.connectPeer ldkHasPeer t.pubkey t.target 1).getD (w.reject t.pubkey 1)
    else { w with reconnectAttempts := remove w.reconnectAttempts t.pubkey }

/-- The `catch` of that callback -/
def retry (p : K) (w : Wallet K A) : Option (Wallet K A) :=
  if p ∈ w.rejected then some (scheduleReconnect auto p { w with rejected := w.rejected.erase p }) else none

/-- One peer of `refreshPeerConnections` -/
def refreshPeer (ldkHasPeer : K → Bool) (w : Wallet K A) (e : K × A) : Wallet K A :=
  let w :=
    match w.connectedPeers.lookup e.1 with
    | none => w
    | some i => { w with connectedPeers := remove w.connectedPeers e.1 }.disconnectSocket auto i
  (w.connectPeer (ldkHasPeer e.1) e.1 e.2 0).getD w

def refreshPeerConnections (ldkHasPeer : K → Bool) (w : Wallet K A) : Wallet K A :=
  if !w.peerManager || !w.isRunning then w else w.desiredPeers.foldl (refreshPeer auto ldkHasPeer) w

/-- `book` is the stored address book, `counterparties` are those of `list_channels`. -/
def redialChannelPeers (book : List (K × A)) (counterparties : List K) (ldkHasPeer : K → Bool) (w : Wallet K A) :
    Wallet K A :=
  if !auto || !w.peerManager then w
  else (channelPeersToRedial book [] counterparties).foldl
    (fun w e => (w.connectPeer (ldkHasPeer e.1) e.1 e.2 0).getD w) w

/-- `teardownRuntime`, to where it waits for the manager's state to be stored. -/
def teardownRuntime (w : Wallet K A) : Wallet K A :=
  let w := { w with
    timers := w.timers.filter fun t => t.id ∉ w.reconnectTimers.map Prod.snd
    reconnectTimers := [], reconnectAttempts := [], desiredPeers := [] }
  let w := (w.connectedPeers.map Prod.snd).foldl (fun w i => w.disconnectSocket auto i) w
  { w with connectedPeers := [] }

end Wallet

inductive Action (K A : Type) where
  /-- The app, or a part of the wallet whose own `catch` only logs. -/
  | connectPeer (p : K) (addr : A) (ldkHasPeer : Bool)
  | dialed (p : K) (outcome : Outcome)
  /-- The socket closed or failed, or LDK drops the peer. -/
  | disconnectSocket (i : Nat)
  | timerFired (id : Nat) (ldkHasPeer : Bool)
  | retry (p : K)
  | refreshPeerConnections (ldkHasPeer : K → Bool)
  | redialChannelPeers (book : List (K × A)) (counterparties : List K) (ldkHasPeer : K → Bool)
  /-- `start` has made the peer manager. -/
  | built
  | started
  | teardownRuntime
  /-- The end of `teardownRuntime` -/
  | freed

def step (auto : Bool) : Action K A → Wallet K A → Option (Wallet K A)
  | .connectPeer p addr ldkHasPeer, w => some ((w.connectPeer ldkHasPeer p addr 0).getD w)
  | .dialed p outcome, w => w.dialed auto p outcome
  | .disconnectSocket i, w => some (w.disconnectSocket auto i)
  | .timerFired id ldkHasPeer, w => w.timerFired id ldkHasPeer
  | .retry p, w => w.retry auto p
  | .refreshPeerConnections ldkHasPeer, w => some (w.refreshPeerConnections auto ldkHasPeer)
  | .redialChannelPeers book counterparties ldkHasPeer, w =>
    some (w.redialChannelPeers auto book counterparties ldkHasPeer)
  | .built, w => some { w with peerManager := true }
  | .started, w => some { w with isRunning := true }
  | .teardownRuntime, w => some (w.teardownRuntime auto)
  | .freed, w => some { w with peerManager := false, isRunning := false }

/-- While the peer manager is up nobody asks for a peer and LDK takes no new socket; and no start
follows. -/
def quiet : Action K A → Wallet K A → Bool
  | .connectPeer _ _ _, w | .redialChannelPeers _ _ _, w => !w.peerManager
  | .dialed _ (.opened accepted _), w => !w.peerManager || !accepted
  | .built, _ | .started, _ => false
  | _, _ => true

/-- A socket that has just opened takes the first bytes. -/
def sound : Action K A → Wallet K A → Bool
  | .dialed _ (.opened _ sent), _ => sent
  | _, _ => true

end Code

/-! ## Sockets -/

section Sockets

variable {K A : Type} [DecidableEq K] {auto : Bool} {w : Wallet K A} {p : K} {i : Nat}

/-- The open sockets are those of `connectedPeers`, and a peer that is dialled has none. -/
structure Sockets (w : Wallet K A) : Prop where
  dials : (w.pendingDials.map (·.pubkey)).Nodup
  idle : ∀ d ∈ w.pendingDials, w.connectedPeers.lookup d.pubkey = none
  mapped : ∀ p i, w.connectedPeers.lookup p = some i → w.descriptors[i]? = some ⟨p, false⟩
  listed : ∀ p i, w.descriptors[i]? = some ⟨p, false⟩ → w.connectedPeers.lookup p = some i

theorem scheduleReconnect_frame (auto : Bool) (p : K) (w : Wallet K A) :
    ∃ timers nextTimer reconnectTimers reconnectAttempts, w.scheduleReconnect auto p =
      { w with timers, nextTimer, reconnectTimers, reconnectAttempts } := by
  unfold Wallet.scheduleReconnect
  split
  · exact ⟨_, _, _, _, rfl⟩
  split
  · exact ⟨_, _, _, _, rfl⟩
  split
  · exact ⟨_, _, _, _, rfl⟩
  · exact ⟨_, _, _, _, rfl⟩

/-- A socket that is open is closed, one that is closed stays as it is. -/
theorem disconnectSocket_cases (auto : Bool) (i : Nat) (w : Wallet K A) :
    ((∀ p, w.descriptors[i]? ≠ some ⟨p, false⟩) ∧ w.disconnectSocket auto i = w) ∨
      ∃ p, w.descriptors[i]? = some ⟨p, false⟩ ∧ w.disconnectSocket auto i =
        { w with descriptors := w.descriptors.set i ⟨p, true⟩ }.handleDisconnect auto i p := by
  unfold Wallet.disconnectSocket
  cases hd : w.descriptors[i]? with
  | none =>
    refine .inl ⟨fun p hp => ?_, rfl⟩
    cases hp
  | some d =>
    obtain ⟨p, closed⟩ := d
    cases closed with
    | true =>
      refine .inl ⟨fun q hq => ?_, rfl⟩
      cases hq
    | false => exact .inr ⟨p, rfl, rfl⟩

theorem Sockets.close (h : Sockets w) (hopen : w.descriptors[i]? = some ⟨p, false⟩) :
    Sockets { w with
      descriptors := w.descriptors.set i ⟨p, true⟩, connectedPeers := remove w.connectedPeers p } := by
  have hlt : i < w.descriptors.length := (List.getElem?_eq_some_iff.mp hopen).1
  refine ⟨h.dials, fun d hd => ?_, fun q j hq => ?_, fun q j hj => ?_⟩
  · dsimp only
    rw [lookup_remove, h.idle d hd, ite_self]
  · dsimp only at hq ⊢
    rw [lookup_remove] at hq
    split at hq
    · cases hq
    rename_i hne
    have hj := h.mapped q j hq
    rw [List.getElem?_set_ne, hj]
    rintro rfl
    rw [hopen] at hj
    cases hj
    exact hne rfl
  · dsimp only at hj ⊢
    rw [lookup_remove]
    have hij : i ≠ j := by
      rintro rfl
      rw [List.getElem?_set_self hlt] at hj
      cases hj
    rw [List.getElem?_set_ne hij] at hj
    have hq := h.listed q j hj
    split
    · rename_i heq
      subst heq
      rw [h.listed q i hopen] at hq
      cases hq
      exact absurd rfl hij
    · exact hq

theorem Sockets.disconnectSocket (h : Sockets w) (i : Nat) : Sockets (w.disconnectSocket auto i) := by
  rcases disconnectSocket_cases auto i w with ⟨-, heq⟩ | ⟨p, hopen, heq⟩
  · rwa [heq]
  · have hclose := h.close hopen
    rw [heq]
    unfold Wallet.handleDisconnect
    rw [if_pos (h.listed p i hopen)]
    obtain ⟨timers, nextTimer, reconnectTimers, reconnectAttempts, hframe⟩ := scheduleReconnect_frame auto p
      { w with descriptors := w.descriptors.set i ⟨p, true⟩, connectedPeers := remove w.connectedPeers p }
    rw [hframe]
    exact ⟨hclose.dials, hclose.idle, hclose.mapped, hclose.listed⟩

theorem Sockets.connectPeer (h : Sockets w) {has : Bool} {addr : A} {n : Nat} {w' : Wallet K A}
    (hw : w.connectPeer has p addr n = some w') : Sockets w' := by
  unfold Wallet.connectPeer at hw
  split at hw
  · cases hw
  dsimp only at hw
  split at hw
  · cases hw
    exact ⟨h.dials, h.idle, h.mapped, h.listed⟩
  rename_i hout
  split at hw
  · cases hw
    have hkeys : (w.pendingDials.map fun d => if d.pubkey = p then { d with waiting := d.waiting + n } else d).map
        (·.pubkey) = w.pendingDials.map (·.pubkey) := by
      rw [List.map_map]
      refine List.map_congr_left fun d _ => ?_
      rw [Function.comp_apply]
      split
      · rfl
      · rfl
    refine ⟨?_, fun d hd => ?_, h.mapped, h.listed⟩
    · dsimp only
      rw [hkeys]
      exact h.dials
    · dsimp only at hd ⊢
      have hmem := List.mem_map_of_mem (f := fun d : Dial K A => d.pubkey) hd
      rw [hkeys] at hmem
      obtain ⟨d', hd', heq⟩ := List.mem_map.mp hmem
      rw [← heq]
      exact h.idle d' hd'
  · rename_i hnone
    cases hw
    rw [Bool.or_eq_true, not_or, Option.not_isSome_iff_eq_none] at hout
    refine ⟨?_, fun d hd => ?_, h.mapped, h.listed⟩
    · dsimp only
      rw [List.map_append, List.map_singleton, List.nodup_append]
      refine ⟨h.dials, List.nodup_singleton p, fun q hq q' hq' => ?_⟩
      rw [List.mem_singleton.mp hq']
      rintro rfl
      obtain ⟨d, hd, hdq⟩ := List.mem_map.mp hq
      exact hnone (List.any_eq_true.mpr ⟨d, hd, decide_eq_true hdq⟩)
    · rcases List.mem_append.mp hd with hd | hd
      · exact h.idle d hd
      · rw [List.mem_singleton.mp hd]
        exact hout.1

theorem Sockets.getD_connectPeer (h : Sockets w) (has : Bool) (p : K) (addr : A) (n : Nat) :
    Sockets ((w.connectPeer has p addr n).getD w) := by
  cases hw : w.connectPeer has p addr n with
  | none => exact h
  | some w' => exact h.connectPeer hw

/-- A socket that LDK refuses is closed before anything knows of it. -/
theorem disconnectSocket_new (auto : Bool) (w : Wallet K A) (hidle : w.connectedPeers.lookup p = none) :
    { w with descriptors := w.descriptors ++ [(⟨p, false⟩ : Descriptor K)] }.disconnectSocket auto
        w.descriptors.length =
      { w with descriptors := w.descriptors ++ [(⟨p, true⟩ : Descriptor K)] } := by
  unfold Wallet.disconnectSocket
  dsimp only
  rw [List.getElem?_concat_length]
  dsimp only
  unfold Wallet.handleDisconnect
  dsimp only
  rw [hidle, if_neg Bool.false_ne_true, if_neg (fun h => by cases h), List.set_append_right _ _ (Nat.le_refl _),
    Nat.sub_self, List.set_cons_zero]

theorem Sockets.addClosed (h : Sockets w) : Sockets { w with descriptors := w.descriptors ++ [⟨p, true⟩] } := by
  refine ⟨h.dials, h.idle, fun q i hq => getElem?_snoc.mpr (.inl (h.mapped q i hq)), fun q i hi => ?_⟩
  rcases getElem?_snoc.mp hi with hi | ⟨-, hi⟩
  · exact h.listed q i hi
  · cases hi

theorem Sockets.addOpen (h : Sockets w) (hidle : w.connectedPeers.lookup p = none)
    (hdials : ∀ d ∈ w.pendingDials, d.pubkey ≠ p) :
    Sockets { w with
      descriptors := w.descriptors ++ [⟨p, false⟩]
      connectedPeers := put w.connectedPeers p w.descriptors.length } := by
  refine ⟨h.dials, fun d hd => ?_, fun q i hq => ?_, fun q i hi => ?_⟩
  · dsimp only
    rw [lookup_put, if_neg (hdials d hd)]
    exact h.idle d hd
  · dsimp only at hq
    rw [lookup_put] at hq
    refine getElem?_snoc.mpr ?_
    split at hq
    · rename_i heq
      cases hq
      exact .inr ⟨rfl, by rw [heq]⟩
    · exact .inl (h.mapped q i hq)
  · dsimp only
    rw [lookup_put]
    rcases getElem?_snoc.mp hi with hi | ⟨hlen, hi⟩
    · have hq := h.listed q i hi
      rw [if_neg, hq]
      rintro rfl
      rw [hidle] at hq
      cases hq
    · cases hi
      rw [if_pos rfl, hlen]

theorem Sockets.dialed (h : Sockets w) {outcome : Outcome} {w' : Wallet K A}
    (hsound : sound (.dialed p outcome : Action K A) w = true) (hw : w.dialed auto p outcome = some w') :
    Sockets w' := by
  unfold Wallet.dialed at hw
  obtain ⟨dial, hdial, rfl⟩ := Option.map_eq_some_iff.mp hw
  have hpeer := List.find?_some hdial
  rw [decide_eq_true_eq] at hpeer
  have hidle : w.connectedPeers.lookup p = none := hpeer ▸ h.idle dial (List.mem_of_find?_eq_some hdial)
  have hrest : Sockets { w with pendingDials := w.pendingDials.filter (·.pubkey ≠ p) } :=
    ⟨h.dials.sublist (List.filter_sublist.map _), fun d hd => h.idle d (List.mem_filter.mp hd).1, h.mapped,
      h.listed⟩
  have hother : ∀ d ∈ w.pendingDials.filter (·.pubkey ≠ p), d.pubkey ≠ p := fun d hd =>
    of_decide_eq_true (List.mem_filter.mp hd).2
  cases outcome with
  | refused => exact ⟨hrest.dials, hrest.idle, hrest.mapped, hrest.listed⟩
  | opened accepted sent =>
    dsimp only
    split
    · have hnew := disconnectSocket_new auto { w with pendingDials := w.pendingDials.filter (·.pubkey ≠ p) } hidle
      dsimp only at hnew
      rw [hnew]
      have hclosed := hrest.addClosed (p := p)
      exact ⟨hclosed.dials, hclosed.idle, hclosed.mapped, hclosed.listed⟩
    · have hsent : sent = true := hsound
      rw [hsent, if_pos rfl]
      have hopen := hrest.addOpen hidle hother
      exact ⟨hopen.dials, hopen.idle, hopen.mapped, hopen.listed⟩

theorem Sockets.timerFired (h : Sockets w) {id : Nat} {has : Bool} {w' : Wallet K A}
    (hw : w.timerFired id has = some w') : Sockets w' := by
  unfold Wallet.timerFired at hw
  obtain ⟨t, -, rfl⟩ := Option.map_eq_some_iff.mp hw
  have hrest : Sockets { w with
      timers := w.timers.filter (·.id ≠ id), reconnectTimers := remove w.reconnectTimers t.pubkey } :=
    ⟨h.dials, h.idle, h.mapped, h.listed⟩
  dsimp only
  split
  · cases hcode : Wallet.connectPeer has t.pubkey t.target 1 { w with
        timers := w.timers.filter (·.id ≠ id), reconnectTimers := remove w.reconnectTimers t.pubkey } with
    | none => exact ⟨h.dials, h.idle, h.mapped, h.listed⟩
    | some w₁ => exact hrest.connectPeer hcode
  · exact ⟨h.dials, h.idle, h.mapped, h.listed⟩

theorem Sockets.retry (h : Sockets w) {w' : Wallet K A} (hw : w.retry auto p = some w') : Sockets w' := by
  unfold Wallet.retry at hw
  split at hw
  · cases hw
    obtain ⟨_, _, _, _, hframe⟩ := scheduleReconnect_frame auto p { w with rejected := w.rejected.erase p }
    rw [hframe]
    exact ⟨h.dials, h.idle, h.mapped, h.listed⟩
  · cases hw

/-- A socket that `connectedPeers` has just forgotten is closed, and no timer is set for its peer. -/
theorem disconnectSocket_forgotten (auto : Bool) (hopen : w.descriptors[i]? = some ⟨p, false⟩) :
    { w with connectedPeers := remove w.connectedPeers p }.disconnectSocket auto i =
      { w with descriptors := w.descriptors.set i ⟨p, true⟩, connectedPeers := remove w.connectedPeers p } := by
  unfold Wallet.disconnectSocket
  dsimp only
  rw [hopen]
  dsimp only
  unfold Wallet.handleDisconnect
  dsimp only
  rw [lookup_remove, if_pos rfl, if_neg Bool.false_ne_true, if_neg (fun h => by cases h)]

/-- The renewal of a peer closes its socket, and then connects. -/
theorem Sockets.refreshPeer_eq (auto : Bool) (h : Sockets w) (has : K → Bool) (e : K × A) :
    ∃ descriptors connectedPeers, Sockets { w with descriptors, connectedPeers } ∧
      (∀ q, q ≠ e.1 → connectedPeers.lookup q = w.connectedPeers.lookup q) ∧
      w.refreshPeer auto has e = ({ w with descriptors, connectedPeers }.connectPeer (has e.1) e.1 e.2 0).getD
        { w with descriptors, connectedPeers } := by
  unfold Wallet.refreshPeer
  cases hi : w.connectedPeers.lookup e.1 with
  | none => exact ⟨w.descriptors, w.connectedPeers, h, fun q _ => rfl, rfl⟩
  | some i =>
    have hopen := h.mapped e.1 i hi
    refine ⟨_, _, h.close hopen, fun q hq => ?_, ?_⟩
    · rw [lookup_remove, if_neg hq]
    · dsimp only
      rw [disconnectSocket_forgotten auto hopen]

theorem Sockets.refreshPeer (h : Sockets w) (has : K → Bool) (e : K × A) : Sockets (w.refreshPeer auto has e) := by
  obtain ⟨_, _, hdropped, -, heq⟩ := h.refreshPeer_eq auto has e
  rw [heq]
  exact hdropped.getD_connectPeer _ _ _ _

theorem Sockets.refreshPeerConnections (h : Sockets w) (has : K → Bool) :
    Sockets (w.refreshPeerConnections auto has) := by
  unfold Wallet.refreshPeerConnections
  split
  · exact h
  · exact List.foldlRecOn _ _ h fun t ht e _ => ht.refreshPeer has e

theorem Sockets.redialChannelPeers (h : Sockets w) (book : List (K × A)) (counterparties : List K) (has : K → Bool) :
    Sockets (w.redialChannelPeers auto book counterparties has) := by
  unfold Wallet.redialChannelPeers
  split
  · exact h
  · exact List.foldlRecOn _ _ h fun t ht e _ => ht.getD_connectPeer _ _ _ _

theorem open_of_disconnectSocket {j : Nat} (h : (w.disconnectSocket auto i).descriptors[j]? = some ⟨p, false⟩) :
    w.descriptors[j]? = some ⟨p, false⟩ ∧ j ≠ i := by
  rcases disconnectSocket_cases auto i w with ⟨hshut, heq⟩ | ⟨q, hopen, heq⟩
  · rw [heq] at h
    refine ⟨h, ?_⟩
    rintro rfl
    exact hshut p h
  · have hset : (w.disconnectSocket auto i).descriptors = w.descriptors.set i ⟨q, true⟩ := by
      rw [heq]
      unfold Wallet.handleDisconnect
      split
      · obtain ⟨_, _, _, _, hframe⟩ := scheduleReconnect_frame auto q
          { w with
            descriptors := w.descriptors.set i ⟨q, true⟩, connectedPeers := remove w.connectedPeers q }
        rw [hframe]
      · rfl
    rw [hset] at h
    have hij : i ≠ j := by
      rintro rfl
      rw [List.getElem?_set_self (List.getElem?_eq_some_iff.mp hopen).1] at h
      cases h
    rw [List.getElem?_set_ne hij] at h
    exact ⟨h, hij.symm⟩

theorem open_of_foldl {l : List Nat} {j : Nat}
    (h : (l.foldl (fun w i => w.disconnectSocket auto i) w).descriptors[j]? = some ⟨p, false⟩) :
    w.descriptors[j]? = some ⟨p, false⟩ ∧ j ∉ l := by
  induction l generalizing w with
  | nil => exact ⟨h, List.not_mem_nil⟩
  | cons i l ih =>
    obtain ⟨hopen, hout⟩ := ih h
    obtain ⟨hopen, hne⟩ := open_of_disconnectSocket hopen
    exact ⟨hopen, List.not_mem_cons_of_ne_of_not_mem hne hout⟩

/-- It leaves no socket open. -/
theorem Sockets.teardownRuntime (h : Sockets w) : Sockets (w.teardownRuntime auto) := by
  unfold Wallet.teardownRuntime
  let w₀ : Wallet K A := { w with
    timers := w.timers.filter fun t => t.id ∉ w.reconnectTimers.map Prod.snd
    reconnectTimers := [], reconnectAttempts := [], desiredPeers := [] }
  have h₀ : Sockets w₀ := ⟨h.dials, h.idle, h.mapped, h.listed⟩
  have hall : Sockets ((w.connectedPeers.map Prod.snd).foldl (fun w i => w.disconnectSocket auto i) w₀) :=
    List.foldlRecOn _ _ h₀ fun t ht i _ => ht.disconnectSocket i
  refine ⟨hall.dials, fun d _ => rfl, fun q i hq => ?_, fun q i hi => ?_⟩
  · cases hq
  · obtain ⟨hopen, hout⟩ := open_of_foldl hi
    exact absurd (List.mem_map_of_mem (mem_of_lookup (h.listed q i hopen))) hout

end Sockets

/-! ## Timers -/

section Timers

variable {K A : Type} [DecidableEq K] {auto : Bool} {w : Wallet K A} {p : K} {i : Nat}

/-- `reconnectTimers` knows the timers, one for a peer. -/
structure Timers (w : Wallet K A) : Prop where
  fresh : ∀ t ∈ w.timers, t.id < w.nextTimer
  listed : ∀ t ∈ w.timers, w.reconnectTimers.lookup t.pubkey = some t.id
  ids : (w.timers.map (·.id)).Nodup
  mapped : ∀ p id, w.reconnectTimers.lookup p = some id → ∃ t ∈ w.timers, t.id = id ∧ t.pubkey = p
  delays : ∀ t ∈ w.timers, 1000 ≤ t.delay ∧ t.delay ≤ 30000

theorem reconnectDelayMs_bounds (attempt : Nat) :
    1000 ≤ reconnectDelayMs attempt ∧ reconnectDelayMs attempt ≤ 30000 := by
  unfold reconnectDelayMs
  dsimp only
  have hpos := Nat.one_le_two_pow (n := (if attempt < 1 then 1 else attempt) - 1)
  omega

theorem Timers.scheduleReconnect (h : Timers w) (p : K) : Timers (w.scheduleReconnect auto p) := by
  unfold Wallet.scheduleReconnect
  split
  · exact h
  split
  · exact h
  split
  · exact h
  rename_i hout
  rw [Bool.or_eq_true, not_or, Option.not_isSome_iff_eq_none, Option.not_isSome_iff_eq_none] at hout
  have hother : ∀ t ∈ w.timers, t.pubkey ≠ p := by
    rintro t ht rfl
    have hmapped := h.listed t ht
    rw [hout.2] at hmapped
    cases hmapped
  refine ⟨fun t ht => ?_, fun t ht => ?_, ?_, fun q id hq => ?_, fun t ht => ?_⟩
  · rcases List.mem_append.mp ht with ht | ht
    · exact Nat.lt_succ_of_lt (h.fresh t ht)
    · rw [List.mem_singleton.mp ht]
      exact Nat.lt_succ_self _
  · dsimp only
    rw [lookup_put]
    rcases List.mem_append.mp ht with ht | ht
    · rw [if_neg (hother t ht)]
      exact h.listed t ht
    · rw [List.mem_singleton.mp ht]
      exact if_pos rfl
  · dsimp only
    rw [List.map_append, List.map_singleton, List.nodup_append]
    refine ⟨h.ids, List.nodup_singleton _, fun id hid id' hid' => ?_⟩
    obtain ⟨t, ht, rfl⟩ := List.mem_map.mp hid
    rw [List.mem_singleton.mp hid']
    exact Nat.ne_of_lt (h.fresh t ht)
  · dsimp only at hq ⊢
    rw [lookup_put] at hq
    split at hq
    · rename_i heq
      cases hq
      exact ⟨_, List.mem_append_right _ List.mem_cons_self, rfl, heq.symm⟩
    · obtain ⟨t, ht, hid⟩ := h.mapped q id hq
      exact ⟨t, List.mem_append_left _ ht, hid⟩
  · rcases List.mem_append.mp ht with ht | ht
    · exact h.delays t ht
    · rw [List.mem_singleton.mp ht]
      exact reconnectDelayMs_bounds _

theorem Timers.disconnectSocket (auto : Bool) (h : Timers w) (i : Nat) : Timers (w.disconnectSocket auto i) := by
  rcases disconnectSocket_cases auto i w with ⟨-, heq⟩ | ⟨p, -, heq⟩
  · rwa [heq]
  · rw [heq]
    unfold Wallet.handleDisconnect
    split
    · refine Timers.scheduleReconnect ?_ p
      exact ⟨h.fresh, h.listed, h.ids, h.mapped, h.delays⟩
    · exact ⟨h.fresh, h.listed, h.ids, h.mapped, h.delays⟩

theorem connectPeer_frame {has : Bool} {addr : A} {n : Nat} {w' : Wallet K A}
    (hw : w.connectPeer has p addr n = some w') :
    ∃ pendingDials, w' = { w with desiredPeers := put w.desiredPeers p addr, pendingDials } := by
  unfold Wallet.connectPeer at hw
  split at hw
  · cases hw
  dsimp only at hw
  split at hw
  · exact ⟨_, (Option.some.inj hw).symm⟩
  split at hw
  · exact ⟨_, (Option.some.inj hw).symm⟩
  · exact ⟨_, (Option.some.inj hw).symm⟩

theorem Timers.getD_connectPeer (h : Timers w) (has : Bool) (p : K) (addr : A) (n : Nat) {w' : Wallet K A}
    (h' : Timers w') : Timers ((w.connectPeer has p addr n).getD w') := by
  cases hw : w.connectPeer has p addr n with
  | none => exact h'
  | some w₁ =>
    obtain ⟨pendingDials, rfl⟩ := connectPeer_frame hw
    exact ⟨h.fresh, h.listed, h.ids, h.mapped, h.delays⟩

theorem Timers.dialed (h : Timers w) {outcome : Outcome} {w' : Wallet K A} (hw : w.dialed auto p outcome = some w') :
    Timers w' := by
  unfold Wallet.dialed at hw
  obtain ⟨dial, -, rfl⟩ := Option.map_eq_some_iff.mp hw
  cases outcome with
  | refused => exact ⟨h.fresh, h.listed, h.ids, h.mapped, h.delays⟩
  | opened accepted sent =>
    have hnew : Timers { w with
        pendingDials := w.pendingDials.filter (·.pubkey ≠ p)
        descriptors := w.descriptors ++ [(⟨p, false⟩ : Descriptor K)] } :=
      ⟨h.fresh, h.listed, h.ids, h.mapped, h.delays⟩
    have hclosed := hnew.disconnectSocket auto w.descriptors.length
    dsimp only
    split
    · exact ⟨hclosed.fresh, hclosed.listed, hclosed.ids, hclosed.mapped, hclosed.delays⟩
    · cases sent with
      | true => exact ⟨h.fresh, h.listed, h.ids, h.mapped, h.delays⟩
      | false => exact ⟨hclosed.fresh, hclosed.listed, hclosed.ids, hclosed.mapped, hclosed.delays⟩

/-- No peer has two timers. -/
theorem Timers.once (h : Timers w) : (w.timers.map (·.pubkey)).Nodup := by
  unfold List.Nodup
  rw [List.pairwise_map]
  refine (List.pairwise_map.mp h.ids).imp_of_mem fun ht ht' hne heq => hne ?_
  have hid := h.listed _ ht
  rw [heq, h.listed _ ht'] at hid
  exact (Option.some.inj hid).symm

/-- Removing the timer of an id removes that of its peer and no other. -/
theorem Timers.ne_iff (h : Timers w) {t t' : Timer K A} (ht : t ∈ w.timers) (ht' : t' ∈ w.timers) :
    t.id ≠ t'.id ↔ t.pubkey ≠ t'.pubkey := by
  refine not_congr ⟨fun hid => ?_, fun hp => ?_⟩
  · rw [List.inj_on_of_nodup_map h.ids ht ht' hid]
  · rw [List.inj_on_of_nodup_map h.once ht ht' hp]

theorem Timers.timerFired (h : Timers w) {id : Nat} {has : Bool} {w' : Wallet K A}
    (hw : w.timerFired id has = some w') : Timers w' := by
  unfold Wallet.timerFired at hw
  obtain ⟨t, ht, rfl⟩ := Option.map_eq_some_iff.mp hw
  have hmem := List.mem_of_find?_eq_some ht
  have hid := List.find?_some ht
  rw [decide_eq_true_eq] at hid
  have hrest : Timers { w with
      timers := w.timers.filter (·.id ≠ id), reconnectTimers := remove w.reconnectTimers t.pubkey } := by
    refine ⟨fun x hx => h.fresh x (List.mem_filter.mp hx).1, fun x hx => ?_,
      h.ids.sublist (List.filter_sublist.map _), fun q n hq => ?_, fun x hx => h.delays x (List.mem_filter.mp hx).1⟩
    · obtain ⟨hx, hne⟩ := List.mem_filter.mp hx
      have hne : x.id ≠ t.id := hid ▸ of_decide_eq_true hne
      dsimp only
      rw [lookup_remove, if_neg ((h.ne_iff hx hmem).mp hne)]
      exact h.listed x hx
    · dsimp only at hq ⊢
      rw [lookup_remove] at hq
      split at hq
      · cases hq
      rename_i hne
      obtain ⟨x, hx, hxid, hxq⟩ := h.mapped q n hq
      have hother : x.id ≠ t.id := (h.ne_iff hx hmem).mpr (hxq ▸ hne)
      exact ⟨x, List.mem_filter.mpr ⟨hx, decide_eq_true (hid ▸ hother)⟩, hxid, hxq⟩
  dsimp only
  split
  · exact hrest.getD_connectPeer _ _ _ _ ⟨hrest.fresh, hrest.listed, hrest.ids, hrest.mapped, hrest.delays⟩
  · exact ⟨hrest.fresh, hrest.listed, hrest.ids, hrest.mapped, hrest.delays⟩

theorem Timers.refreshPeer (auto : Bool) (h : Timers w) (hs : Sockets w) (has : K → Bool) (e : K × A) :
    Timers (w.refreshPeer auto has e) := by
  obtain ⟨_, _, -, -, heq⟩ := hs.refreshPeer_eq auto has e
  rw [heq]
  refine Timers.getD_connectPeer ?_ _ _ _ _ ?_
  · exact ⟨h.fresh, h.listed, h.ids, h.mapped, h.delays⟩
  · exact ⟨h.fresh, h.listed, h.ids, h.mapped, h.delays⟩

/-- A peer that is not desired gets no timer. -/
theorem scheduleReconnect_undesired (hnone : w.desiredPeers = []) (q : K) : w.scheduleReconnect auto q = w := by
  unfold Wallet.scheduleReconnect
  split
  · rfl
  split
  · rfl
  · rename_i target htarget
    rw [hnone, List.lookup_nil] at htarget
    cases htarget

theorem disconnectSocket_undesired (auto : Bool) (hnone : w.desiredPeers = []) (i : Nat) :
    (w.disconnectSocket auto i).desiredPeers = [] ∧ (w.disconnectSocket auto i).timers = w.timers := by
  rcases disconnectSocket_cases auto i w with ⟨-, heq⟩ | ⟨q, -, heq⟩
  · rw [heq]
    exact ⟨hnone, rfl⟩
  · rw [heq]
    unfold Wallet.handleDisconnect
    split
    · let w₁ : Wallet K A := { w with
        descriptors := w.descriptors.set i ⟨q, true⟩, connectedPeers := remove w.connectedPeers q }
      have hsame : w₁.scheduleReconnect auto q = w₁ := scheduleReconnect_undesired (w := w₁) hnone q
      show (w₁.scheduleReconnect auto q).desiredPeers = [] ∧ (w₁.scheduleReconnect auto q).timers = w.timers
      rw [hsame]
      exact ⟨hnone, rfl⟩
    · exact ⟨hnone, rfl⟩

/-- It cancels every timer, and sets none. -/
theorem Timers.teardownRuntime (auto : Bool) (h : Timers w) :
    Timers (w.teardownRuntime auto) ∧ (w.teardownRuntime auto).desiredPeers = [] ∧
      (w.teardownRuntime auto).timers = [] := by
  unfold Wallet.teardownRuntime
  have hnone : (w.timers.filter fun t => t.id ∉ w.reconnectTimers.map Prod.snd) = [] := by
    refine List.filter_eq_nil_iff.mpr fun t ht hout => ?_
    exact of_decide_eq_true hout (List.mem_map_of_mem (mem_of_lookup (h.listed t ht)))
  rw [hnone]
  let w₀ : Wallet K A := { w with timers := [], reconnectTimers := [], reconnectAttempts := [], desiredPeers := [] }
  have h₀ : Timers w₀ := by
    refine ⟨fun t ht => absurd ht List.not_mem_nil, fun t ht => absurd ht List.not_mem_nil, List.nodup_nil,
      fun q id hq => ?_, fun t ht => absurd ht List.not_mem_nil⟩
    cases hq
  have hall := List.foldlRecOn (motive := fun t : Wallet K A => Timers t ∧ t.desiredPeers = [] ∧ t.timers = [])
    (w.connectedPeers.map Prod.snd) (fun w i => w.disconnectSocket auto i) (b := w₀) ⟨h₀, rfl, rfl⟩ ?_
  · exact ⟨⟨hall.1.fresh, hall.1.listed, hall.1.ids, hall.1.mapped, hall.1.delays⟩, hall.2⟩
  · intro t ht i _
    have hkept := disconnectSocket_undesired auto ht.2.1 i
    exact ⟨ht.1.disconnectSocket auto i, hkept.1, hkept.2.trans ht.2.2⟩

end Timers

/-! ## A node that goes down -/

section Down

variable {K A : Type} [DecidableEq K] {auto : Bool} {w w' : Wallet K A} {p : K} {i : Nat}

/-- No socket is open, no timer is set, and no peer is wanted. -/
structure Down (w : Wallet K A) : Prop where
  shut : ∀ (p : K) (i : Nat), w.descriptors[i]? ≠ some ⟨p, false⟩
  idle : w.connectedPeers = []
  unwanted : w.desiredPeers = []
  unset : w.timers = []

theorem down_teardownRuntime (auto : Bool) (hs : Sockets w) (ht : Timers w) : Down (w.teardownRuntime auto) where
  shut p i hopen := by
    have hlisted := hs.teardownRuntime.listed p i hopen
    cases hlisted
  idle := rfl
  unwanted := (ht.teardownRuntime auto).2.1
  unset := (ht.teardownRuntime auto).2.2

theorem Down.disconnectSocket (h : Down w) (i : Nat) : w.disconnectSocket auto i = w := by
  rcases disconnectSocket_cases auto i w with ⟨-, heq⟩ | ⟨q, hopen, -⟩
  · exact heq
  · exact absurd hopen (h.shut q i)

/-- A dial that ends now leaves nothing open. -/
theorem Down.dialed (h : Down w) {outcome : Outcome} (hquiet : quiet (.dialed p outcome : Action K A) w = true)
    (hw : w.dialed auto p outcome = some w') : Down w' := by
  unfold Wallet.dialed at hw
  obtain ⟨dial, -, rfl⟩ := Option.map_eq_some_iff.mp hw
  cases outcome with
  | refused => exact ⟨h.shut, h.idle, h.unwanted, h.unset⟩
  | opened accepted sent =>
    have hidle : w.connectedPeers.lookup p = none := by
      rw [h.idle]
      rfl
    have hnew := disconnectSocket_new auto { w with pendingDials := w.pendingDials.filter (·.pubkey ≠ p) } hidle
    have hrefused : (!w.peerManager || !accepted) = true := hquiet
    dsimp only at hnew ⊢
    rw [if_pos hrefused, hnew]
    refine ⟨fun q i hopen => ?_, h.idle, h.unwanted, h.unset⟩
    rcases getElem?_snoc.mp hopen with hold | ⟨-, hold⟩
    · exact h.shut q i hold
    · cases hold

theorem connectPeer_down (hdown : w.peerManager = false) (has : Bool) (p : K) (addr : A) (n : Nat) :
    w.connectPeer has p addr n = none := by
  unfold Wallet.connectPeer
  rw [hdown]
  rfl

/-- It stays down as long as it is quiet. -/
theorem Down.step {a : Action K A} (h : Down w) (hquiet : quiet a w = true) (hw : step auto a w = some w') :
    Down w' := by
  cases a with
  | connectPeer p addr has =>
    have hdown : w.peerManager = false := (Bool.not_eq_true' _).mp hquiet
    cases hw
    rw [connectPeer_down hdown]
    exact h
  | dialed p outcome => exact h.dialed hquiet hw
  | disconnectSocket i =>
    cases hw
    rw [h.disconnectSocket]
    exact h
  | timerFired id has =>
    unfold Peers.step Wallet.timerFired at hw
    dsimp only at hw
    rw [h.unset] at hw
    cases hw
  | retry p =>
    unfold Peers.step Wallet.retry at hw
    dsimp only at hw
    split at hw
    · cases hw
      have hnone : Wallet.desiredPeers { w with rejected := w.rejected.erase p } = [] := h.unwanted
      rw [scheduleReconnect_undesired hnone]
      exact ⟨h.shut, h.idle, h.unwanted, h.unset⟩
    · cases hw
  | refreshPeerConnections has =>
    cases hw
    unfold Wallet.refreshPeerConnections
    rw [h.unwanted, List.foldl_nil, ite_self]
    exact h
  | redialChannelPeers book counterparties has =>
    cases hw
    unfold Wallet.redialChannelPeers
    rw [if_pos (by rw [show (!w.peerManager) = true from hquiet, Bool.or_true])]
    exact h
  | teardownRuntime =>
    cases hw
    unfold Wallet.teardownRuntime
    rw [h.idle, h.unset]
    exact ⟨h.shut, rfl, rfl, rfl⟩
  | built | started => cases hquiet
  | freed =>
    cases hw
    exact ⟨h.shut, h.idle, h.unwanted, h.unset⟩

end Down

/-! ## What the wallet goes after -/

section Pursuit

variable {K A : Type} [DecidableEq K] {w : Wallet K A} {p q : K} {i : Nat}

/-- The peer is connected, is dialled or will be. -/
def Pursued (w : Wallet K A) (p : K) : Prop :=
  (w.connectedPeers.lookup p).isSome = true ∨ (∃ d ∈ w.pendingDials, d.pubkey = p) ∨
    (∃ t ∈ w.timers, t.pubkey = p) ∨ p ∈ w.rejected

/-- The node is up, and the peer was asked for. -/
structure Wanted (w : Wallet K A) (p : K) : Prop where
  running : w.isRunning = true
  desired : (w.desiredPeers.lookup p).isSome = true

def Outcome.fails (w : Wallet K A) : Outcome → Bool
  | .refused => true
  | .opened accepted _ => !w.peerManager || !accepted

/-- Where the wallet gives a peer up: a dial fails that no timer waits for, LDK says that it is connected
when a timer fires or the connections are renewed, or the node goes down. -/
def givesUp (p : K) : Action K A → Wallet K A → Bool
  | .dialed q outcome, w =>
    q = p && outcome.fails w && (w.pendingDials.find? (·.pubkey = p)).all (·.waiting = 0)
  | .timerFired id ldkHasPeer, w => ldkHasPeer && (w.timers.find? (·.id = id)).any (·.pubkey = p)
  | .refreshPeerConnections ldkHasPeer, _ => ldkHasPeer p
  | .teardownRuntime, _ => true
  | .freed, _ => true
  | _, _ => false

theorem Wanted.scheduleReconnect (h : Wanted w p) (q : K) : Wanted (w.scheduleReconnect true q) p := by
  obtain ⟨_, _, _, _, hframe⟩ := scheduleReconnect_frame true q w
  rw [hframe]
  exact ⟨h.running, h.desired⟩

theorem Wanted.disconnectSocket (h : Wanted w p) (i : Nat) : Wanted (w.disconnectSocket true i) p := by
  rcases disconnectSocket_cases true i w with ⟨-, heq⟩ | ⟨q, -, heq⟩
  · rwa [heq]
  · rw [heq]
    unfold Wallet.handleDisconnect
    split
    · refine Wanted.scheduleReconnect ?_ q
      exact ⟨h.running, h.desired⟩
    · exact ⟨h.running, h.desired⟩

theorem Wanted.getD_connectPeer (h : Wanted w p) (has : Bool) (q : K) (addr : A) (n : Nat) {w' : Wallet K A}
    (h' : Wanted w' p) : Wanted ((w.connectPeer has q addr n).getD w') p := by
  cases hw : w.connectPeer has q addr n with
  | none => exact h'
  | some w₁ =>
    obtain ⟨pendingDials, rfl⟩ := connectPeer_frame hw
    refine ⟨h.running, ?_⟩
    show ((put w.desiredPeers q addr).lookup p).isSome = true
    rw [lookup_put]
    split
    · rfl
    · exact h.desired

theorem Pursued.scheduleReconnect (h : Pursued w p) (q : K) : Pursued (w.scheduleReconnect true q) p := by
  unfold Wallet.scheduleReconnect
  split
  · exact h
  split
  · exact h
  split
  · exact h
  · rcases h with h | h | ⟨t, ht, hp⟩ | h
    · exact .inl h
    · exact .inr (.inl h)
    · exact .inr (.inr (.inl ⟨t, List.mem_append_left _ ht, hp⟩))
    · exact .inr (.inr (.inr h))

/-- A peer that is wanted and has dropped gets its timer. -/
theorem Wanted.pursued (h : Wanted w p) (ht : Timers w) : Pursued (w.scheduleReconnect true p) p := by
  obtain ⟨target, hdesired⟩ := Option.isSome_iff_exists.mp h.desired
  unfold Wallet.scheduleReconnect
  rw [h.running, hdesired]
  dsimp only
  rw [if_neg (by decide)]
  split
  · rename_i hin
    rcases (Bool.or_eq_true _ _).mp hin with hin | hin
    · exact .inl hin
    · obtain ⟨id, hid⟩ := Option.isSome_iff_exists.mp hin
      obtain ⟨t, htimer, -, hp⟩ := ht.mapped p id hid
      exact .inr (.inr (.inl ⟨t, htimer, hp⟩))
  · exact .inr (.inr (.inl ⟨_, List.mem_append_right _ List.mem_cons_self, rfl⟩))

theorem Pursued.disconnectSocket (h : Pursued w p) (hw : Wanted w p) (ht : Timers w) (i : Nat) :
    Pursued (w.disconnectSocket true i) p := by
  rcases disconnectSocket_cases true i w with ⟨-, heq⟩ | ⟨q, -, heq⟩
  · rwa [heq]
  rw [heq]
  unfold Wallet.handleDisconnect
  split
  · by_cases hq : q = p
    · subst hq
      refine Wanted.pursued ⟨hw.running, hw.desired⟩ ?_
      exact ⟨ht.fresh, ht.listed, ht.ids, ht.mapped, ht.delays⟩
    · refine Pursued.scheduleReconnect ?_ q
      rcases h with h | h
      · refine .inl ?_
        dsimp only
        rwa [lookup_remove, if_neg (Ne.symm hq)]
      · exact .inr h
  · exact h

theorem Pursued.connectPeer (h : Pursued w p) {has : Bool} {addr : A} {n : Nat} {w' : Wallet K A}
    (hw : w.connectPeer has q addr n = some w') : Pursued w' p := by
  unfold Wallet.connectPeer at hw
  split at hw
  · cases hw
  dsimp only at hw
  split at hw
  · cases hw
    exact h
  split at hw
  · cases hw
    refine h.imp_right (Or.imp_left ?_)
    rintro ⟨d, hd, hp⟩
    refine ⟨_, List.mem_map_of_mem hd, ?_⟩
    split
    · exact hp
    · exact hp
  · cases hw
    refine h.imp_right (Or.imp_left ?_)
    rintro ⟨d, hd, hp⟩
    exact ⟨d, List.mem_append_left _ hd, hp⟩

/-- Unless LDK has it, a peer that is connected to is pursued. -/
theorem pursued_of_connectPeer {addr : A} {n : Nat} {w' : Wallet K A}
    (hw : w.connectPeer false p addr n = some w') : Pursued w' p := by
  unfold Wallet.connectPeer at hw
  split at hw
  · cases hw
  dsimp only at hw
  split at hw
  · rename_i hin
    cases hw
    rw [Bool.or_false] at hin
    exact .inl hin
  split at hw
  · rename_i hdial
    cases hw
    obtain ⟨d, hd, hp⟩ := List.any_eq_true.mp hdial
    rw [decide_eq_true_eq] at hp
    refine .inr (.inl ⟨_, List.mem_map_of_mem hd, ?_⟩)
    rw [if_pos hp]
    exact hp
  · cases hw
    exact .inr (.inl ⟨_, List.mem_append_right _ List.mem_cons_self, rfl⟩)

theorem Pursued.getD_connectPeer (h : Pursued w p) (has : Bool) (q : K) (addr : A) (n : Nat) :
    Pursued ((w.connectPeer has q addr n).getD w) p := by
  cases hw : w.connectPeer has q addr n with
  | none => exact h
  | some w' => exact h.connectPeer hw

theorem Pursued.reject (h : Pursued w p ∨ q = p ∧ i ≠ 0) : Pursued (w.reject q i) p := by
  rcases h with h | ⟨rfl, hpos⟩
  · exact h.imp_right (Or.imp_right (Or.imp_right (List.mem_append_left _)))
  · exact .inr (.inr (.inr (List.mem_append_right _ (List.mem_replicate.mpr ⟨hpos, rfl⟩))))

theorem Pursued.dialed (h : Pursued w p) (hw : Wanted w p) (ht : Timers w) {outcome : Outcome} {w' : Wallet K A}
    (hup : givesUp p (.dialed q outcome) w = false) (hstep : w.dialed true q outcome = some w') :
    Wanted w' p ∧ Pursued w' p := by
  unfold Wallet.dialed at hstep
  obtain ⟨dial, hdial, rfl⟩ := Option.map_eq_some_iff.mp hstep
  have hpeer := List.find?_some hdial
  rw [decide_eq_true_eq] at hpeer
  let w₁ : Wallet K A := { w with pendingDials := w.pendingDials.filter (·.pubkey ≠ q) }
  have hw₁ : Wanted w₁ p := ⟨hw.running, hw.desired⟩
  have hother : q ≠ p → Pursued w₁ p := by
    intro hne
    refine h.imp_right (Or.imp_left ?_)
    rintro ⟨d, hd, rfl⟩
    exact ⟨d, List.mem_filter.mpr ⟨hd, decide_eq_true (Ne.symm hne)⟩, rfl⟩
  -- a dial of the peer itself that fails has a timer's callback waiting
  have hfails : outcome.fails w = true → Pursued w₁ p ∨ q = p ∧ dial.waiting ≠ 0 := by
    intro hfail
    by_cases hq : q = p
    · refine .inr ⟨hq, fun hzero => ?_⟩
      subst hq
      unfold givesUp at hup
      dsimp only at hup
      rw [hfail, hdial, Option.all_some, decide_eq_true hzero, decide_eq_true rfl] at hup
      cases hup
    · exact .inl (hother hq)
  cases outcome with
  | refused => exact ⟨⟨hw.running, hw.desired⟩, Pursued.reject (hfails rfl)⟩
  | opened accepted sent =>
    let w₂ : Wallet K A := { w₁ with descriptors := w.descriptors ++ [(⟨q, false⟩ : Descriptor K)] }
    have hw₂ : Wanted w₂ p := ⟨hw.running, hw.desired⟩
    have ht₂ : Timers w₂ := ⟨ht.fresh, ht.listed, ht.ids, ht.mapped, ht.delays⟩
    have hclosed := hw₂.disconnectSocket w.descriptors.length
    have hkept : Pursued w₁ p → Pursued (w₂.disconnectSocket true w.descriptors.length) p := fun h₁ =>
      Pursued.disconnectSocket (show Pursued w₂ p from h₁) hw₂ ht₂ _
    dsimp only
    split
    · rename_i hfail
      exact ⟨⟨hclosed.running, hclosed.desired⟩, Pursued.reject ((hfails hfail).imp_left hkept)⟩
    · have hput : ∀ w₃ : Wallet K A, (Pursued w₁ p → Pursued w₃ p) → ∀ n : Nat, Pursued { w₃ with
          connectedPeers := put w₃.connectedPeers q n
          reconnectAttempts := remove w₃.reconnectAttempts q } p := by
        intro w₃ h₃ n
        by_cases hq : q = p
        · refine .inl ?_
          dsimp only
          rw [lookup_put, if_pos hq.symm]
          rfl
        · rcases h₃ (hother hq) with hconn | hrest
          · refine .inl ?_
            dsimp only
            rwa [lookup_put, if_neg (Ne.symm hq)]
          · exact .inr hrest
      cases sent with
      | true => exact ⟨⟨hw.running, hw.desired⟩, hput w₂ id _⟩
      | false => exact ⟨⟨hclosed.running, hclosed.desired⟩, hput _ hkept _⟩

theorem Pursued.timerFired (h : Pursued w p) (hw : Wanted w p) (ht : Timers w) {id : Nat} {has : Bool}
    {w' : Wallet K A} (hup : givesUp p (.timerFired id has) w = false) (hstep : w.timerFired id has = some w') :
    Wanted w' p ∧ Pursued w' p := by
  unfold Wallet.timerFired at hstep
  obtain ⟨t, htimer, rfl⟩ := Option.map_eq_some_iff.mp hstep
  have hmem := List.mem_of_find?_eq_some htimer
  have hid := List.find?_some htimer
  rw [decide_eq_true_eq] at hid
  let w₁ : Wallet K A := { w with
    timers := w.timers.filter (·.id ≠ id), reconnectTimers := remove w.reconnectTimers t.pubkey }
  have hw₁ : Wanted w₁ p := ⟨hw.running, hw.desired⟩
  have hother : t.pubkey ≠ p → Pursued w₁ p := by
    intro hne
    refine h.imp_right (Or.imp_right (Or.imp_left ?_))
    rintro ⟨x, hx, rfl⟩
    have hxt : x.id ≠ t.id := (ht.ne_iff hx hmem).mpr (Ne.symm hne)
    exact ⟨x, List.mem_filter.mpr ⟨hx, decide_eq_true (hid ▸ hxt)⟩, rfl⟩
  have hhas : t.pubkey = p → has = false := by
    intro hp
    unfold givesUp at hup
    dsimp only at hup
    rw [htimer, Option.any_some, decide_eq_true hp, Bool.and_true] at hup
    exact hup
  dsimp only
  split
  · refine ⟨hw₁.getD_connectPeer _ _ _ _ ⟨hw.running, hw.desired⟩, ?_⟩
    cases hcode : w₁.connectPeer has t.pubkey t.target 1 with
    | none =>
      refine Pursued.reject ?_
      by_cases hp : t.pubkey = p
      · exact .inr ⟨hp, Nat.one_ne_zero⟩
      · exact .inl (hother hp)
    | some w₂ =>
      by_cases hp : t.pubkey = p
      · rw [hhas hp] at hcode
        exact pursued_of_connectPeer (hp ▸ hcode)
      · exact (hother hp).connectPeer hcode
  · rename_i hnot
    refine ⟨⟨hw.running, hw.desired⟩, ?_⟩
    by_cases hp : t.pubkey = p
    · refine .inl ?_
      have hdesired : (w.desiredPeers.lookup t.pubkey).isSome = true := hp ▸ hw.desired
      unfold shouldRedialNow at hnot
      rw [hw.running, hdesired, hhas hp, Bool.true_and, Bool.not_false, Bool.and_true, Bool.true_and,
        Bool.not_eq_true, Bool.not_eq_false'] at hnot
      exact hp ▸ hnot
    · exact hother hp

/-- One peer of a renewal is done, and the wallet is after `p`. -/
structure Renewing (w : Wallet K A) (p : K) : Prop where
  up : w.peerManager = true
  sockets : Sockets w
  timers : Timers w
  wanted : Wanted w p
  pursued : Pursued w p

theorem Renewing.refreshPeer (h : Renewing w p) {has : K → Bool} (hhas : has p = false) (e : K × A) :
    Renewing (w.refreshPeer true has e) p := by
  have htimers := h.timers.refreshPeer true h.sockets has e
  obtain ⟨descriptors, connectedPeers, hdropped, hother, heq⟩ := h.sockets.refreshPeer_eq true has e
  rw [heq] at htimers ⊢
  let w₁ : Wallet K A := { w with descriptors, connectedPeers }
  have hw₁ : Wanted w₁ p := ⟨h.wanted.running, h.wanted.desired⟩
  have hpursued : e.1 ≠ p → Pursued w₁ p := by
    intro hne
    refine h.pursued.imp_left fun hconn => ?_
    rwa [← hother p (Ne.symm hne)] at hconn
  refine ⟨?_, hdropped.getD_connectPeer _ _ _ _, htimers, hw₁.getD_connectPeer _ _ _ _ hw₁, ?_⟩
  · cases hcode : w₁.connectPeer (has e.1) e.1 e.2 0 with
    | none => exact h.up
    | some w₂ =>
      obtain ⟨_, rfl⟩ := connectPeer_frame hcode
      exact h.up
  · by_cases hp : e.1 = p
    · have hcode : (w₁.connectPeer false p e.2 0).isSome = true := by
        unfold Wallet.connectPeer
        rw [show w₁.peerManager = true from h.up, if_neg (by decide)]
        dsimp only
        split
        · rfl
        split
        · rfl
        · rfl
      obtain ⟨w₂, hw₂⟩ := Option.isSome_iff_exists.mp hcode
      show Pursued ((w₁.connectPeer (has e.1) e.1 e.2 0).getD w₁) p
      rw [hp, hhas, hw₂]
      exact pursued_of_connectPeer hw₂
    · exact (hpursued hp).getD_connectPeer _ _ _ _

theorem Pursued.refreshPeerConnections (h : Pursued w p) (hs : Sockets w) (ht : Timers w) (hw : Wanted w p)
    {has : K → Bool} (hhas : has p = false) :
    Wanted (w.refreshPeerConnections true has) p ∧ Pursued (w.refreshPeerConnections true has) p := by
  unfold Wallet.refreshPeerConnections
  split
  · exact ⟨hw, h⟩
  rename_i hup
  rw [Bool.or_eq_true, not_or, Bool.not_eq_true', Bool.not_eq_false] at hup
  have hfirst : Renewing w p := ⟨hup.1, hs, ht, hw, h⟩
  have hall : Renewing (w.desiredPeers.foldl (Wallet.refreshPeer true has) w) p :=
    List.foldlRecOn (motive := fun t => Renewing t p) _ _ hfirst fun t ht e _ => ht.refreshPeer hhas e
  exact ⟨hall.wanted, hall.pursued⟩

theorem Pursued.redialChannelPeers (h : Pursued w p) (hw : Wanted w p) (book : List (K × A)) (counterparties : List K)
    (has : K → Bool) :
    Wanted (w.redialChannelPeers true book counterparties has) p ∧
      Pursued (w.redialChannelPeers true book counterparties has) p := by
  unfold Wallet.redialChannelPeers
  split
  · exact ⟨hw, h⟩
  · exact List.foldlRecOn (motive := fun t => Wanted t p ∧ Pursued t p) _ _ ⟨hw, h⟩ fun t ht e _ =>
      ⟨ht.1.getD_connectPeer _ _ _ _ ht.1, ht.2.getD_connectPeer _ _ _ _⟩

end Pursuit

/-! ## Runs -/

section Runs

variable {K A : Type} [DecidableEq K] {auto : Bool} {w w' : Wallet K A} {p : K}

theorem Sockets.step {a : Action K A} (h : Sockets w) (hsound : sound a w = true) (hw : step auto a w = some w') :
    Sockets w' := by
  cases a with
  | connectPeer p addr has =>
    cases hw
    exact h.getD_connectPeer _ _ _ _
  | dialed p outcome => exact h.dialed hsound hw
  | disconnectSocket i =>
    cases hw
    exact h.disconnectSocket i
  | timerFired id has => exact h.timerFired hw
  | retry p => exact h.retry hw
  | refreshPeerConnections has =>
    cases hw
    exact h.refreshPeerConnections has
  | redialChannelPeers book counterparties has =>
    cases hw
    exact h.redialChannelPeers book counterparties has
  | teardownRuntime =>
    cases hw
    exact h.teardownRuntime
  | built | started | freed =>
    cases hw
    exact ⟨h.dials, h.idle, h.mapped, h.listed⟩

theorem Timers.step {a : Action K A} (h : Timers w) (hs : Sockets w) (hsound : sound a w = true)
    (hw : step auto a w = some w') : Timers w' := by
  cases a with
  | connectPeer p addr has =>
    cases hw
    exact h.getD_connectPeer _ _ _ _ h
  | dialed p outcome => exact h.dialed hw
  | disconnectSocket i =>
    cases hw
    exact h.disconnectSocket auto i
  | timerFired id has => exact h.timerFired hw
  | retry p =>
    unfold Peers.step Wallet.retry at hw
    dsimp only at hw
    split at hw
    · cases hw
      refine Timers.scheduleReconnect ?_ p
      exact ⟨h.fresh, h.listed, h.ids, h.mapped, h.delays⟩
    · cases hw
  | refreshPeerConnections has =>
    cases hw
    unfold Wallet.refreshPeerConnections
    split
    · exact h
    · exact (List.foldlRecOn (motive := fun t => Timers t ∧ Sockets t) _ _ ⟨h, hs⟩ fun t ht e _ =>
        ⟨ht.1.refreshPeer auto ht.2 has e, ht.2.refreshPeer has e⟩).1
  | redialChannelPeers book counterparties has =>
    cases hw
    unfold Wallet.redialChannelPeers
    split
    · exact h
    · exact List.foldlRecOn _ _ h fun t ht e _ => ht.getD_connectPeer _ _ _ _ ht
  | teardownRuntime =>
    cases hw
    exact (h.teardownRuntime auto).1
  | built | started | freed =>
    cases hw
    exact ⟨h.fresh, h.listed, h.ids, h.mapped, h.delays⟩

theorem invariants (hrun : Steps (step auto) (fun a w => sound a w = true) {} w) : Sockets w ∧ Timers w := by
  refine hrun.invariant (I := fun t => Sockets t ∧ Timers t) ⟨?_, ?_⟩ fun a t t' h hsound hstep =>
    ⟨h.1.step hsound hstep, h.2.step h.1 hsound hstep⟩
  · refine ⟨List.nodup_nil, fun d hd => absurd hd List.not_mem_nil, fun p i h => ?_, fun p i h => ?_⟩
    · cases h
    · cases h
  · refine ⟨fun t ht => absurd ht List.not_mem_nil, fun t ht => absurd ht List.not_mem_nil, List.nodup_nil,
      fun p id h => ?_, fun t ht => absurd ht List.not_mem_nil⟩
    cases h

/-- What the wallet is after it stays after, in every step that does not give the peer up. -/
theorem Pursued.step {a : Action K A} (h : Pursued w p) (hw : Wanted w p) (hs : Sockets w) (ht : Timers w)
    (hup : givesUp p a w = false) (hstep : step true a w = some w') : Wanted w' p ∧ Pursued w' p := by
  cases a with
  | connectPeer q addr has =>
    cases hstep
    exact ⟨hw.getD_connectPeer _ _ _ _ hw, h.getD_connectPeer _ _ _ _⟩
  | dialed q outcome => exact h.dialed hw ht hup hstep
  | disconnectSocket i =>
    cases hstep
    exact ⟨hw.disconnectSocket i, h.disconnectSocket hw ht i⟩
  | timerFired id has => exact h.timerFired hw ht hup hstep
  | retry q =>
    unfold Peers.step Wallet.retry at hstep
    dsimp only at hstep
    split at hstep
    · cases hstep
      have hw₁ : Wanted { w with rejected := w.rejected.erase q } p := ⟨hw.running, hw.desired⟩
      refine ⟨hw₁.scheduleReconnect q, ?_⟩
      by_cases hq : q = p
      · subst hq
        refine hw₁.pursued ?_
        exact ⟨ht.fresh, ht.listed, ht.ids, ht.mapped, ht.delays⟩
      · refine Pursued.scheduleReconnect ?_ q
        exact h.imp_right (Or.imp_right (Or.imp_right (List.mem_erase_of_ne (Ne.symm hq)).mpr))
    · cases hstep
  | refreshPeerConnections has =>
    cases hstep
    exact h.refreshPeerConnections hs ht hw hup
  | redialChannelPeers book counterparties has =>
    cases hstep
    exact h.redialChannelPeers hw book counterparties has
  | built =>
    cases hstep
    exact ⟨⟨hw.running, hw.desired⟩, h⟩
  | started =>
    cases hstep
    exact ⟨⟨rfl, hw.desired⟩, h⟩
  | teardownRuntime => cases hup
  | freed => cases hup

/-- In every run a peer has one socket at most, open or being opened, and `connectedPeers` knows it; it has
one timer at most, of one to thirty seconds.  A teardown leaves no socket open and no timer set, through its
wait and after it, as long as meanwhile no peer is asked for and no dial is taken. -/
theorem one_socket_per_peer (hrun : Steps (step auto) (fun a w => sound a w = true) {} w) :
    (∀ (p : K) (i : Nat), w.descriptors[i]? = some ⟨p, false⟩ ↔ w.connectedPeers.lookup p = some i) ∧
    (w.pendingDials.map (·.pubkey)).Nodup ∧
    (∀ (p : K) (i : Nat), w.descriptors[i]? = some ⟨p, false⟩ → ∀ d ∈ w.pendingDials, d.pubkey ≠ p) ∧
    (w.timers.map (·.pubkey)).Nodup ∧ (∀ t ∈ w.timers, 1000 ≤ t.delay ∧ t.delay ≤ 30000) ∧
    ∀ w', Steps (step auto) (fun a t => quiet a t = true) (w.teardownRuntime auto) w' →
      (∀ (p : K) (i : Nat), w'.descriptors[i]? ≠ some ⟨p, false⟩) ∧ w'.timers = [] := by
  obtain ⟨hs, ht⟩ := invariants hrun
  refine ⟨fun p i => ⟨hs.listed p i, hs.mapped p i⟩, hs.dials, fun p i hopen d hd hp => ?_, ht.once, ht.delays,
    fun w' hrest => ?_⟩
  · have hidle := hs.idle d hd
    rw [hp, hs.listed p i hopen] at hidle
    cases hidle
  · have hdown : Down w' := hrest.invariant (down_teardownRuntime auto hs ht) fun _ _ _ h hquiet hstep =>
      h.step hquiet hstep
    exact ⟨hdown.shut, hdown.unset⟩

/-- Where peers are reconnected to, one that is wanted and pursued is so in whatever follows, as long as
nothing gives it up; and what it is connected by is an open socket. -/
theorem peers_pursued (hrun : Steps (step true) (fun a w => sound a w = true) {} w) (hw : Wanted w p)
    (hp : Pursued w p)
    (hrest : Steps (step true) (fun a w => sound a w = true ∧ givesUp p a w = false) w w') :
    Wanted w' p ∧ Pursued w' p ∧ ∀ i, w'.connectedPeers.lookup p = some i → w'.descriptors[i]? = some ⟨p, false⟩ := by
  obtain ⟨hs, ht⟩ := invariants hrun
  suffices Sockets w' ∧ Timers w' ∧ Wanted w' p ∧ Pursued w' p from
    ⟨this.2.2.1, this.2.2.2, fun i hi => this.1.mapped p i hi⟩
  refine hrest.invariant (I := fun t => Sockets t ∧ Timers t ∧ Wanted t p ∧ Pursued t p) ⟨hs, ht, hw, hp⟩ ?_
  rintro a t t' ⟨hs, ht, hw, hp⟩ ⟨hsound, hup⟩ hstep
  exact ⟨hs.step hsound hstep, ht.step hs hsound hstep, hp.step hw hs ht hup hstep⟩

end Runs

section Examples

/-- Two callers ask for a peer at once, and it is connected once. -/
def connected : List (Action Nat Nat) :=
  [.built, .started, .connectPeer 1 9735 false, .connectPeer 1 9735 false, .dialed 1 (.opened true true)]

/-- The peer drops, and the first redial fails. -/
def dropped : List (Action Nat Nat) := [.disconnectSocket 0, .timerFired 0 false, .dialed 1 .refused, .retry 1]

/-- A second peer is dialled when the node goes down, and its dial ends after the manager is freed. -/
def leaving : List (Action Nat Nat) := [.freed, .dialed 2 (.opened true true)]

theorem one_socket_per_peer_run : ∃ w w' : Wallet Nat Nat,
    w.connectedPeers.lookup 1 = some 0 ∧ (w.pendingDials.map (·.pubkey)).Nodup ∧
      w.descriptors[0]? = some ⟨1, false⟩ ∧ w'.descriptors.length = 2 ∧
      ∀ (p i : Nat), w'.descriptors[i]? ≠ some ⟨p, false⟩ := by
  obtain ⟨w, hrun, hw⟩ := Steps.exists_of_play (step true) sound {} (connected ++ [.connectPeer 2 9735 false])
    (fun w => decide (w.connectedPeers.lookup 1 = some 0) &&
      (play (step true) quiet leaving (w.teardownRuntime true)).any fun w' : Wallet Nat Nat =>
        decide (w'.descriptors.length = 2))
    (by decide)
  rw [Bool.and_eq_true, decide_eq_true_eq] at hw
  obtain ⟨w', hrest, hw'⟩ := Steps.exists_of_play _ _ _ _ _ hw.2
  obtain ⟨hopen, hdials, -, -, -, hdown⟩ := one_socket_per_peer hrun
  exact ⟨w, w', hw.1, hdials, (hopen 1 0).mpr hw.1, of_decide_eq_true hw', (hdown w' hrest).1⟩

/-- The wallet is still after the peer. -/
theorem peers_pursued_run : ∃ w : Wallet Nat Nat, w.connectedPeers.lookup 1 = none ∧ Pursued w 1 := by
  obtain ⟨w, hrun, hw⟩ := Steps.exists_of_play (step true) sound {} connected
    (fun w => decide (w.isRunning = true ∧ (w.desiredPeers.lookup 1).isSome = true ∧
        (w.connectedPeers.lookup 1).isSome = true) &&
      (play (step true) (fun a w => sound a w && !givesUp 1 a w) dropped w).any
        fun w : Wallet Nat Nat => decide (w.connectedPeers.lookup 1 = none)) (by decide)
  rw [Bool.and_eq_true, decide_eq_true_eq] at hw
  obtain ⟨⟨hup, hdesired, hconn⟩, hplay⟩ := hw
  obtain ⟨w', hrest, hw'⟩ := Steps.exists_of_play _ _ _ _ _ hplay
  have hgoes : Steps (step true) (fun a w => sound a w = true ∧ givesUp 1 a w = false) w w' := by
    refine hrest.mono fun a t h => ?_
    rwa [Bool.and_eq_true, Bool.not_eq_true'] at h
  exact ⟨w', of_decide_eq_true hw', (peers_pursued hrun ⟨hup, hdesired⟩ (.inl hconn) hgoes).2.1⟩

end Examples

end LibreWallet.Net.Peers
