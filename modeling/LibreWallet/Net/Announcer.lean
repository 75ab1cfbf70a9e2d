import LibreWallet.Async.System
import LibreWallet.Bolt11.Hex
import LibreWallet.Controller.Restore

/-
  Net/Announcer.lean --- the wallet's name, told to each peer.

  Mirrors `libre-listener-wallet/src/node-announcement.ts`, `node-announcer.ts` and the peer tick of
  `index.ts`.  A session goes from the building of the announcer to the stop of the wallet; LDK asks
  for what is queued whenever it likes.
-/

set_option autoImplicit false

namespace LibreWallet.Net.Announce

open Bolt11 (Failure bigEndian bind_eq_ok bytesToHex hexToBytes hexToBytes_bytesToHex length_bigEndian returned
  returned_eq_ok setAt)
open Controller.Restore (Chars)
open Text

/-- `secp256k1` and `sha256` of `@noble`, and the platform's `TextEncoder`.  Where one throws it is
`none`. -/
structure Imports where
  /-- Compressed. -/
  getPublicKey : List UInt8 → Option (List UInt8)
  /-- The compact signature of a digest by a secret key. -/
  sign : List UInt8 → List UInt8 → Option (List UInt8)
  sha256 : List UInt8 → List UInt8
  utf8 : Chars → List UInt8

/-! ## The message -/

structure NodeAnnouncementOpts where
  secretKey : List UInt8
  «alias» : Chars
  rgb : List UInt8
  timestamp : Nat

section Code

variable (im : Imports)

def encodeNodeAnnouncement (opts : NodeAnnouncementOpts) : Except Failure (List UInt8) := do
  if opts.secretKey.length ≠ 32 then .error (.thrown "node secret must be 32 bytes")
  else if opts.rgb.length ≠ 3 then .error (.thrown "rgb must be 3 bytes")
  else
    let nodeId ← returned (im.getPublicKey opts.secretKey)
    let aliasBytes ← setAt (List.replicate 32 0) ((im.utf8 opts.alias).take 32) 0
    let body := List.replicate (2 + 4 + 33 + 3 + 32 + 2) 0
    let body ← setAt body (bigEndian 2 0) 0
    let body ← setAt body (bigEndian 4 (opts.timestamp % 2 ^ 32)) 2
    let body ← setAt body nodeId 6
    let body ← setAt body opts.rgb 39
    let body ← setAt body aliasBytes 42
    let body ← setAt body (bigEndian 2 0) 74
    let digest := im.sha256 (im.sha256 body)
    let sig ← returned (im.sign digest opts.secretKey)
    let out ← setAt (List.replicate (64 + body.length) 0) sig 0
    setAt out body 64

end Code

def nextAnnouncementTimestamp (nowSec lastTs : Nat) : Nat := max nowSec (lastTs + 1)

/-- Whether a peer was announced to, and had a ready channel then or since. -/
abbrev AnnounceState : Type := Chars → Option Bool

/-- `last === undefined || (ready && !last)` -/
def needs (prev : AnnounceState) (readyChannelPeers : List Chars) (p : Chars) : Bool :=
  (prev p).all fun last => readyChannelPeers.contains p && !last

def peersNeedingAnnouncement (prev : AnnounceState) (connected readyChannelPeers : List Chars) :
    List Chars × AnnounceState :=
  connected.foldl
    (fun acc p =>
      let ready := readyChannelPeers.contains p
      if needs prev readyChannelPeers p then (acc.1 ++ [p], Function.update acc.2 p (some ready))
      else (acc.1, Function.update acc.2 p (some ((prev p).getD false || ready))))
    ([], fun _ => none)

/-! ## The announcer -/

structure NodeAnnouncerOpts where
  «alias» : Chars
  rgb : Option (List UInt8) := none

structure Queued where
  peer : List UInt8
  payload : List UInt8
  deriving DecidableEq

structure NodeAnnouncer where
  outbound : List Queued := []
  lastTs : Nat := 0

/-- `now` is the second, `secret` what `getNodeSecret` returns. -/
def NodeAnnouncer.queueTo (im : Imports) (opts : NodeAnnouncerOpts) (now : Nat) (secret : Option (List UInt8))
    (a : NodeAnnouncer) (peerPubkeyHex : Chars) : NodeAnnouncer :=
  let ts := nextAnnouncementTimestamp now a.lastTs
  let payload := do
    let secretKey ← returned secret
    encodeNodeAnnouncement im
      { secretKey, «alias» := opts.alias, rgb := opts.rgb.getD [0x7a, 0x5a, 0xf5], timestamp := ts }
  match payload with
  | .ok payload => ⟨a.outbound ++ [⟨hexToBytes peerPubkeyHex, payload⟩], ts⟩
  | .error _ => { a with lastTs := ts }

/-! ## The wallet's session -/

/-- What the peer tick finds. -/
structure Tick where
  /-- The second at which each peer's announcement is made. -/
  now : Chars → Nat
  secret : Option (List UInt8)
  /-- `list_peers` -/
  connected : List (List UInt8)
  /-- The peers of channels that are ready. -/
  ready : List Chars

def Tick.texts (t : Tick) : List Chars := t.connected.map bytesToHex

inductive Event where
  | peerTick (t : Tick)
  /-- `get_and_clear_pending_msg` -/
  | getAndClearPendingMsg

structure Session where
  announcer : NodeAnnouncer := {}
  announceState : AnnounceState := fun _ => none
  nodeAnnTickCount : Nat := 0
  /-- Handed over to LDK. -/
  sent : List Queued := []

def Session.peerTick (im : Imports) (opts : NodeAnnouncerOpts) (t : Tick) (s : Session) : Session :=
  let count := s.nodeAnnTickCount + 1
  let announceState : AnnounceState := if count % 30 = 0 then fun _ => none else s.announceState
  let found := peersNeedingAnnouncement announceState t.texts t.ready
  { s with
    announcer := found.1.foldl (fun a p => a.queueTo im opts (t.now p) t.secret p) s.announcer
    announceState := found.2
    nodeAnnTickCount := count }

def Session.step (im : Imports) (opts : NodeAnnouncerOpts) (s : Session) : Event → Session
  | .peerTick t => s.peerTick im opts t
  | .getAndClearPendingMsg =>
    { s with announcer := { s.announcer with outbound := [] }, sent := s.sent ++ s.announcer.outbound }

/-- A session after `n` ticks of earlier ones. -/
def Session.run (im : Imports) (opts : NodeAnnouncerOpts) (n : Nat) (es : List Event) : Session :=
  es.foldl (Session.step im opts) { nodeAnnTickCount := n }

/-- All that was queued, in order. -/
def Session.queued (s : Session) : List Queued := s.sent ++ s.announcer.outbound

/-! ## What a peer makes of it -/

/-- The fields of a node announcement on the wire, and the bytes that are signed. -/
structure Announcement where
  signature : List UInt8
  features : List UInt8
  timestamp : Nat
  nodeId : List UInt8
  rgb : List UInt8
  «alias» : List UInt8
  addresses : List UInt8
  body : List UInt8
  deriving DecidableEq

/-- The first `n` bytes, and the rest. -/
def part (n : Nat) (bytes : List UInt8) : Option (List UInt8 × List UInt8) :=
  if n ≤ bytes.length then some (bytes.take n, bytes.drop n) else none

/-- A number, the most significant byte first. -/
def readNat (bytes : List UInt8) : Nat := bytes.foldl (fun v b => 256 * v + b.toNat) 0

def Announcement.read (payload : List UInt8) : Option Announcement := do
  let (signature, body) ← part 64 payload
  let (flen, rest) ← part 2 body
  let (features, rest) ← part (readNat flen) rest
  let (timestamp, rest) ← part 4 rest
  let (nodeId, rest) ← part 33 rest
  let (rgb, rest) ← part 3 rest
  let (name, rest) ← part 32 rest
  let (addrlen, rest) ← part 2 rest
  let (addresses, _) ← part (readNat addrlen) rest
  some
    { signature, features, timestamp := readNat timestamp, nodeId, rgb, «alias» := name, addresses, body }

/-- The newest timestamp that a peer holds of each node. -/
abbrev Held : Type := List UInt8 → Option Nat

/-- A peer that verifies signatures by `verify` takes what the node signed and is newer than what it
holds of the node. -/
def Announcement.take (im : Imports) (verify : List UInt8 → List UInt8 → List UInt8 → Bool) (held : Held)
    (payload : List UInt8) : Option Held :=
  (Announcement.read payload).bind fun a =>
    if verify a.signature (im.sha256 (im.sha256 a.body)) a.nodeId &&
        (held a.nodeId).all fun timestamp => decide (timestamp < a.timestamp)
    then some (Function.update held a.nodeId (some a.timestamp)) else none

/-- What `@noble` documents, against the peer's `verify`. -/
structure Imports.Documented (im : Imports) (verify : List UInt8 → List UInt8 → List UInt8 → Bool) :
    Prop where
  keys : ∀ secret key, im.getPublicKey secret = some key → key.length = 33
  signs : ∀ digest secret sig, im.sign digest secret = some sig → sig.length = 64
  verifies : ∀ digest secret sig key, im.sign digest secret = some sig →
    im.getPublicKey secret = some key → verify sig digest key = true

/-! ## The message reads back -/

section Message

theorem part_append {n : Nat} {front : List UInt8} (rest : List UInt8) (h : front.length = n) :
    part n (front ++ rest) = some (front, rest) := by
  have hle : n ≤ (front ++ rest).length := by rw [List.length_append, h]; omega
  rw [part, if_pos hle, List.take_left' h, List.drop_left' h]

theorem readNat_append (bytes : List UInt8) (b : UInt8) :
    readNat (bytes ++ [b]) = 256 * readNat bytes + b.toNat := by
  rw [readNat, List.foldl_append, ← readNat]
  rfl

theorem readNat_bigEndian (k v : Nat) : readNat (bigEndian k v) = v % 256 ^ k := by
  induction k generalizing v with
  | zero => rw [pow_zero, Nat.mod_one]; rfl
  | succ k ih =>
    have hbyte : (UInt8.ofNat (v % 256)).toNat = v % 256 := Nat.mod_mod v 256
    rw [bigEndian, readNat_append, ih, hbyte, pow_succ', Nat.mod_mul, Nat.add_comm]

/-- Zeros at the end make place for what is set after the front. -/
theorem setAt_zeros (front new : List UInt8) (offset : Nat) {m n : Nat} (hfront : front.length = offset)
    (hlen : new.length + n = m) :
    setAt (front ++ List.replicate m 0) new offset = .ok ((front ++ new) ++ List.replicate n 0) := by
  have hle : offset + new.length ≤ (front ++ List.replicate m 0).length := by
    rw [List.length_append, List.length_replicate]
    omega
  have hsub : m - new.length = n := by omega
  have hdrop : (front ++ List.replicate m 0).drop (offset + new.length) = List.replicate n (0 : UInt8) := by
    rw [← hfront, List.drop_length_add_append, List.drop_replicate, hsub]
  rw [setAt, if_pos hle, List.take_left' hfront, hdrop, List.append_assoc]

theorem setAt_start {new : List UInt8} {m n : Nat} (hlen : new.length + n = m) :
    setAt (List.replicate m 0) new 0 = .ok (new ++ List.replicate n 0) := by
  have h := setAt_zeros [] new 0 List.length_nil hlen
  rwa [List.nil_append, List.nil_append] at h

/-- The name's first 32 bytes, filled up with zeros. -/
def nameBytes (bytes : List UInt8) : List UInt8 := bytes.take 32 ++ List.replicate (32 - bytes.length) 0

theorem length_nameBytes (bytes : List UInt8) : (nameBytes bytes).length = 32 := by
  rw [nameBytes, List.length_append, List.length_take, List.length_replicate]
  omega

/-- What is signed of an announcement. -/
def bodyOf (timestamp : Nat) (key rgb name : List UInt8) : List UInt8 :=
  ((((bigEndian 2 0 ++ bigEndian 4 timestamp) ++ key) ++ rgb) ++ name) ++ bigEndian 2 0

variable {im : Imports} {verify : List UInt8 → List UInt8 → List UInt8 → Bool}

def NodeAnnouncementOpts.body (im : Imports) (opts : NodeAnnouncementOpts) (key : List UInt8) : List UInt8 :=
  bodyOf (opts.timestamp % 2 ^ 32) key opts.rgb (nameBytes (im.utf8 opts.alias))

theorem ok_bind {α β : Type} (a : α) (f : α → Except Failure β) : (Except.ok a >>= f) = f a := rfl

/-- An announcement is a signature of its body, before the body. -/
theorem encodeNodeAnnouncement_eq (hd : im.Documented verify) (opts : NodeAnnouncementOpts) {key : List UInt8}
    (hsecret : opts.secretKey.length = 32) (hrgb : opts.rgb.length = 3)
    (hkey : im.getPublicKey opts.secretKey = some key) :
    encodeNodeAnnouncement im opts =
      (returned (im.sign (im.sha256 (im.sha256 (opts.body im key))) opts.secretKey)).map
        fun sig => sig ++ opts.body im key := by
  have hlen := hd.keys _ _ hkey
  have hname : setAt (List.replicate 32 0) ((im.utf8 opts.alias).take 32) 0 =
      .ok (nameBytes (im.utf8 opts.alias)) :=
    setAt_start (by rw [List.length_take]; omega)
  -- the body is filled from its front, one field after another
  have hflen : setAt (List.replicate 76 0) (bigEndian 2 0) 0 = .ok (bigEndian 2 0 ++ List.replicate 74 0) :=
    setAt_start (by rw [length_bigEndian])
  have htime := setAt_zeros (bigEndian 2 0) (bigEndian 4 (opts.timestamp % 2 ^ 32)) 2 (m := 74) (n := 70)
    (length_bigEndian 2 0) (by rw [length_bigEndian])
  have hid := setAt_zeros (bigEndian 2 0 ++ bigEndian 4 (opts.timestamp % 2 ^ 32)) key 6 (m := 70) (n := 37)
    (by simp only [List.length_append, length_bigEndian]) (by rw [hlen])
  have hcolour := setAt_zeros ((bigEndian 2 0 ++ bigEndian 4 (opts.timestamp % 2 ^ 32)) ++ key) opts.rgb 39 (m := 37)
    (n := 34) (by simp only [List.length_append, length_bigEndian, hlen]) (by rw [hrgb])
  have halias := setAt_zeros (((bigEndian 2 0 ++ bigEndian 4 (opts.timestamp % 2 ^ 32)) ++ key) ++ opts.rgb)
    (nameBytes (im.utf8 opts.alias)) 42 (m := 34) (n := 2)
    (by simp only [List.length_append, length_bigEndian, hlen, hrgb]) (by rw [length_nameBytes])
  have haddrlen := setAt_zeros
    ((((bigEndian 2 0 ++ bigEndian 4 (opts.timestamp % 2 ^ 32)) ++ key) ++ opts.rgb) ++ nameBytes (im.utf8 opts.alias))
    (bigEndian 2 0) 74 (m := 2) (n := 0)
    (by simp only [List.length_append, length_bigEndian, hlen, hrgb, length_nameBytes])
    (by rw [length_bigEndian])
  rw [List.replicate_zero, List.append_nil, ← bodyOf,
    ← NodeAnnouncementOpts.body] at haddrlen
  have hbody : (opts.body im key).length = 76 := by
    simp only [NodeAnnouncementOpts.body, bodyOf, List.length_append, length_bigEndian, hlen, hrgb, length_nameBytes]
  unfold encodeNodeAnnouncement
  rw [if_neg (not_not.mpr hsecret), if_neg (not_not.mpr hrgb), hkey]
  simp only [returned, ok_bind, hname, hflen, htime, hid, hcolour, halias, haddrlen, hbody]
  cases hsign : im.sign (im.sha256 (im.sha256 (opts.body im key))) opts.secretKey with
  | none => rfl
  | some sig =>
    have hsig := hd.signs _ _ _ hsign
    have hfirst : setAt (List.replicate 140 0) sig 0 = .ok (sig ++ List.replicate 76 0) :=
      setAt_start (by rw [hsig])
    have hsecond := setAt_zeros sig (opts.body im key) 64 (m := 76) (n := 0) hsig (by rw [hbody])
    rw [List.replicate_zero, List.append_nil] at hsecond
    simp only [ok_bind, hfirst, hsecond]
    rfl

theorem encodeNodeAnnouncement_ok (hd : im.Documented verify) {opts : NodeAnnouncementOpts} {payload : List UInt8}
    (h : encodeNodeAnnouncement im opts = .ok payload) :
    ∃ key sig, im.getPublicKey opts.secretKey = some key ∧ opts.rgb.length = 3 ∧
      im.sign (im.sha256 (im.sha256 (opts.body im key))) opts.secretKey = some sig ∧
      payload = sig ++ opts.body im key := by
  have hcode := h
  unfold encodeNodeAnnouncement at h
  split at h
  · cases h
  rename_i hsecret
  split at h
  · cases h
  rename_i hrgb
  rw [not_not] at hsecret hrgb
  obtain ⟨key, hkey, -⟩ := bind_eq_ok h
  have hkey := returned_eq_ok hkey
  rw [encodeNodeAnnouncement_eq hd opts hsecret hrgb hkey] at hcode
  cases hsign : im.sign (im.sha256 (im.sha256 (opts.body im key))) opts.secretKey with
  | none =>
    rw [hsign] at hcode
    cases hcode
  | some sig =>
    rw [hsign] at hcode
    cases hcode
    exact ⟨key, sig, hkey, hrgb, hsign, rfl⟩

/-- A signed body reads back as the fields that it was made of. -/
theorem read_append {sig key rgb name : List UInt8} {timestamp : Nat} (hsig : sig.length = 64)
    (hkey : key.length = 33) (hrgb : rgb.length = 3) (hname : name.length = 32) (hts : timestamp < 2 ^ 32) :
    Announcement.read (sig ++ bodyOf timestamp key rgb name) = some
      { signature := sig, features := [], timestamp, nodeId := key, rgb, «alias» := name, addresses := [],
        body := bodyOf timestamp key rgb name } := by
  have hflen : part 2 (bodyOf timestamp key rgb name) =
      some (bigEndian 2 0, bigEndian 4 timestamp ++ (key ++ (rgb ++ (name ++ bigEndian 2 0)))) := by
    simp only [bodyOf, List.append_assoc]
    exact part_append _ (length_bigEndian 2 0)
  have hzero : readNat (bigEndian 2 0) = 0 := readNat_bigEndian 2 0
  have hnone (bytes : List UInt8) : part 0 bytes = some ([], bytes) := part_append bytes List.length_nil
  have haddrlen : part 2 (bigEndian 2 0) = some (bigEndian 2 0, []) := by
    have h := part_append [] (length_bigEndian 2 0)
    rwa [List.append_nil] at h
  have htime : readNat (bigEndian 4 timestamp) = timestamp := by
    rw [readNat_bigEndian]
    exact Nat.mod_eq_of_lt hts
  simp only [Announcement.read, part_append _ hsig, hflen, hzero, hnone,
    part_append _ (length_bigEndian 4 timestamp), part_append _ hkey, part_append _ hrgb, part_append _ hname,
    haddrlen, htime, Option.bind_eq_bind, Option.bind_some]

end Message

/-! ## Whom a tick announces to -/

section Schedule

theorem peersNeedingAnnouncement_eq (prev : AnnounceState) (connected ready : List Chars) :
    peersNeedingAnnouncement prev connected ready =
      (connected.filter (needs prev ready), fun p =>
        if p ∈ connected then some ((prev p).getD false || ready.contains p) else none) := by
  unfold peersNeedingAnnouncement
  induction connected using List.reverseRecOn with
  | nil => rfl
  | append_singleton front p ih =>
    rw [List.foldl_append, ih, List.foldl_cons, List.foldl_nil, List.filter_append]
    have hnext (v : Bool) (hv : v = ((prev p).getD false || ready.contains p)) :
        Function.update (fun p => if p ∈ front then some ((prev p).getD false || ready.contains p) else none)
          p (some v) =
            fun q => if q ∈ front ++ [p] then some ((prev q).getD false || ready.contains q) else none := by
      funext q
      rw [Function.update_apply]
      by_cases hq : q = p
      · subst hq
        rw [if_pos rfl, if_pos (List.mem_append_right front List.mem_cons_self), hv]
      · have hiff : q ∈ front ++ [p] ↔ q ∈ front := by
          rw [List.mem_append, List.mem_singleton, or_iff_left hq]
        rw [if_neg hq]
        simp only [hiff]
    by_cases h : needs prev ready p = true
    · have hv : ready.contains p = ((prev p).getD false || ready.contains p) := by
        unfold needs at h
        cases hp : prev p with
        | none => rfl
        | some last =>
          rw [hp, Option.all_some, Bool.and_eq_true] at h
          rw [h.1, Bool.or_true]
      rw [List.filter_singleton, h, if_pos rfl, hnext _ hv]
      rfl
    · rw [Bool.not_eq_true] at h
      rw [List.filter_singleton, h, cond_false, List.append_nil]
      exact Prod.ext rfl (hnext _ rfl)

/-- The ticks of an event list, newest first. -/
def ticks (es : List Event) : List Tick :=
  (es.filterMap fun | .peerTick t => some t | .getAndClearPendingMsg => none).reverse

/-- The ticks since a peer was there without a gap, or since all were announced to anew, newest
first.  `n` ticks came before the first. -/
def period (n : Nat) (p : Chars) : List Tick → List Tick
  | [] => []
  | t :: older =>
    if p ∈ t.texts then if (n + older.length + 1) % 30 = 0 then [t] else t :: period n p older else []

/-- A peer is due at a tick that begins its period, and when its channel is ready for the first time
in the period. -/
def due (n : Nat) (older : List Tick) (t : Tick) (p : Chars) : Bool :=
  let before := if (n + older.length + 1) % 30 = 0 then [] else period n p older
  before.isEmpty || t.ready.contains p && !before.any fun u => u.ready.contains p

/-- Those due at each tick, from the first on. -/
def dues (n : Nat) : List Tick → List (List UInt8)
  | [] => []
  | t :: older => dues n older ++ t.connected.filter fun id => due n older t (bytesToHex id)

variable {im : Imports} {opts : NodeAnnouncerOpts} {n : Nat}

/-- What the wallet remembers is what the history says. -/
structure Remembers (n : Nat) (past : List Tick) (s : Session) : Prop where
  count : s.nodeAnnTickCount = n + past.length
  state : ∀ p, s.announceState p =
    if (period n p past).isEmpty then none else some ((period n p past).any fun u => u.ready.contains p)

theorem needs_eq_due {past : List Tick} {s : Session} (h : Remembers n past s) (t : Tick) (p : Chars) :
    needs (if (s.nodeAnnTickCount + 1) % 30 = 0 then fun _ => none else s.announceState) t.ready p =
      due n past t p := by
  unfold needs due
  rw [h.count]
  split
  · rfl
  · rw [h.state]
    cases period n p past with
    | nil => rfl
    | cons u us => rfl

theorem Remembers.peerTick {past : List Tick} {s : Session} (h : Remembers n past s) (t : Tick) :
    Remembers n (t :: past) (s.peerTick im opts t) := by
  constructor
  · show s.nodeAnnTickCount + 1 = _
    rw [h.count, List.length_cons, Nat.add_assoc]
  · intro p
    show (peersNeedingAnnouncement _ t.texts t.ready).2 p = _
    rw [peersNeedingAnnouncement_eq, period, h.count]
    by_cases hp : p ∈ t.texts
    · simp only [if_pos hp]
      split
      · exact congrArg some (Bool.or_false _).symm
      · have hbefore : (s.announceState p).getD false = (period n p past).any fun u => u.ready.contains p := by
          rw [h.state]
          cases period n p past with
          | nil => rfl
          | cons u us => rfl
        rw [hbefore, Bool.or_comm]
        rfl
    · simp only [if_neg hp]
      rfl

theorem Remembers.run (es : List Event) : Remembers n (ticks es) (Session.run im opts n es) := by
  induction es using List.reverseRecOn with
  | nil => exact ⟨rfl, fun p => rfl⟩
  | append_singleton es e ih =>
    unfold ticks Session.run at ih ⊢
    rw [List.foldl_append, List.foldl_cons, List.foldl_nil, List.filterMap_append, List.reverse_append]
    cases e with
    | peerTick t => exact ih.peerTick t
    | getAndClearPendingMsg => exact ⟨ih.count, ih.state⟩

end Schedule

/-! ## What is queued -/

section Queue

variable {im : Imports} {verify : List UInt8 → List UInt8 → List UInt8 → Bool} {opts : NodeAnnouncerOpts}
  {n : Nat}

/-- The announcement of a second and a secret key. -/
def NodeAnnouncerOpts.stamped (opts : NodeAnnouncerOpts) (secretKey : List UInt8) (timestamp : Nat) :
    NodeAnnouncementOpts :=
  { secretKey, «alias» := opts.alias, rgb := opts.rgb.getD [0x7a, 0x5a, 0xf5], timestamp }

variable (im opts) in
/-- What an announcer queues for one peer: nothing, or one message with a new timestamp. -/
theorem queueTo_cases (now : Nat) (secret : Option (List UInt8)) (a : NodeAnnouncer) (p : Chars) :
    a.lastTs < (a.queueTo im opts now secret p).lastTs ∧
      ((a.queueTo im opts now secret p).outbound = a.outbound ∨ ∃ key payload, secret = some key ∧
        encodeNodeAnnouncement im (opts.stamped key (a.queueTo im opts now secret p).lastTs) = .ok payload ∧
        (a.queueTo im opts now secret p).outbound = a.outbound ++ [⟨hexToBytes p, payload⟩]) := by
  have hlt : a.lastTs < nextAnnouncementTimestamp now a.lastTs := lt_of_lt_of_le (Nat.lt_succ_self _) (le_max_right _ _)
  unfold NodeAnnouncer.queueTo
  dsimp only
  split
  · rename_i payload h
    obtain ⟨key, hkey, h⟩ := bind_eq_ok h
    exact ⟨hlt, .inr ⟨key, payload, returned_eq_ok hkey, h, rfl⟩⟩
  · exact ⟨hlt, .inl rfl⟩

/-- An announcement by which the wallet of a key tells its name. -/
structure Ours (im : Imports) (verify : List UInt8 → List UInt8 → List UInt8 → Bool) (opts : NodeAnnouncerOpts)
    (key : List UInt8) (a : Announcement) : Prop where
  features : a.features = []
  addresses : a.addresses = []
  named : a.alias = nameBytes (im.utf8 opts.alias)
  coloured : a.rgb = opts.rgb.getD [0x7a, 0x5a, 0xf5]
  node : im.getPublicKey key = some a.nodeId
  signed : verify a.signature (im.sha256 (im.sha256 a.body)) a.nodeId = true

theorem reads_of_encode (hd : im.Documented verify) {key payload : List UInt8} {ts : Nat} (hts : ts < 2 ^ 32)
    (h : encodeNodeAnnouncement im (opts.stamped key ts) = .ok payload) :
    ∃ a, Announcement.read payload = some a ∧ Ours im verify opts key a ∧ a.timestamp = ts := by
  obtain ⟨pub, sig, hpub, hrgb, hsign, rfl⟩ := encodeNodeAnnouncement_ok hd h
  have hmod : (opts.stamped key ts).timestamp % 2 ^ 32 = ts := Nat.mod_eq_of_lt hts
  rw [NodeAnnouncementOpts.body, hmod] at hsign ⊢
  refine ⟨_, read_append (hd.signs _ _ _ hsign) (hd.keys _ _ hpub) hrgb (length_nameBytes _) hts,
    ⟨rfl, rfl, rfl, rfl, hpub, ?_⟩, rfl⟩
  exact hd.verifies _ _ _ _ hsign hpub

/-- What was queued are the wallet's announcements, each newer than those before. -/
structure Newer (im : Imports) (verify : List UInt8 → List UInt8 → List UInt8 → Bool) (opts : NodeAnnouncerOpts)
    (key : List UInt8) (queued : List Queued) (lastTs : Nat) : Prop where
  ours : ∀ q ∈ queued, ∃ a,
    Announcement.read q.payload = some a ∧ Ours im verify opts key a ∧ a.timestamp ≤ lastTs
  order : queued.Pairwise fun q r => ∀ a b, Announcement.read q.payload = some a →
    Announcement.read r.payload = some b → a.timestamp < b.timestamp

theorem Newer.later {key : List UInt8} {queued : List Queued} {ts ts' : Nat} (h : Newer im verify opts key queued ts)
    (hts : ts ≤ ts') : Newer im verify opts key queued ts' := by
  refine ⟨fun q hq => ?_, h.order⟩
  obtain ⟨a, hread, hours, hle⟩ := h.ours q hq
  exact ⟨a, hread, hours, le_trans hle hts⟩

theorem Newer.snoc {key : List UInt8} {queued : List Queued} {ts : Nat} {q : Queued} {a : Announcement}
    (h : Newer im verify opts key queued ts) (hread : Announcement.read q.payload = some a)
    (hours : Ours im verify opts key a) (hlt : ts < a.timestamp) :
    Newer im verify opts key (queued ++ [q]) a.timestamp := by
  constructor
  · intro r hr
    rcases List.mem_append.mp hr with hr | hr
    · exact (h.later hlt.le).ours r hr
    · rw [List.mem_singleton.mp hr]
      exact ⟨a, hread, hours, le_rfl⟩
  · rw [List.pairwise_append]
    refine ⟨h.order, List.pairwise_singleton _ _, fun r hr q' hq' b c hb hc => ?_⟩
    obtain ⟨b', hb', -, hle⟩ := h.ours r hr
    rw [List.mem_singleton.mp hq', hread] at hc
    rw [hb'] at hb
    cases hb
    cases hc
    exact lt_of_le_of_lt hle hlt

theorem queueTo_newer (hd : im.Documented verify) {key : List UInt8} {secret : Option (List UInt8)}
    (hsecret : ∀ k, secret = some k → k = key) {before : List Queued} {now : Nat} {a : NodeAnnouncer} {p : Chars}
    (h : a.lastTs < 2 ^ 32 → Newer im verify opts key (before ++ a.outbound) a.lastTs)
    (hts : (a.queueTo im opts now secret p).lastTs < 2 ^ 32) :
    Newer im verify opts key (before ++ (a.queueTo im opts now secret p).outbound)
      (a.queueTo im opts now secret p).lastTs := by
  obtain ⟨hlt, hout | ⟨k, payload, hk, hcode, hout⟩⟩ := queueTo_cases im opts now secret a p
  · rw [hout]
    exact (h (hlt.trans hts)).later hlt.le
  · obtain rfl := hsecret k hk
    obtain ⟨m, hread, hours, htime⟩ := reads_of_encode hd hts hcode
    rw [hout, ← List.append_assoc, ← htime]
    exact (h (hlt.trans hts)).snoc hread hours (htime ▸ hlt)

theorem foldl_queueTo_newer (hd : im.Documented verify) {key : List UInt8} {secret : Option (List UInt8)}
    (hsecret : ∀ k, secret = some k → k = key) {before : List Queued} {now : Chars → Nat} {a : NodeAnnouncer}
    (ps : List Chars) (h : a.lastTs < 2 ^ 32 → Newer im verify opts key (before ++ a.outbound) a.lastTs) :
    let a' := ps.foldl (fun a p => a.queueTo im opts (now p) secret p) a
    a'.lastTs < 2 ^ 32 → Newer im verify opts key (before ++ a'.outbound) a'.lastTs := by
  induction ps generalizing a with
  | nil => exact h
  | cons p ps ih => exact ih (queueTo_newer hd hsecret h)

theorem run_newer (hd : im.Documented verify) {key : List UInt8} (es : List Event)
    (hsecret : ∀ t ∈ ticks es, ∀ k, t.secret = some k → k = key) :
    (Session.run im opts n es).announcer.lastTs < 2 ^ 32 →
      Newer im verify opts key (Session.run im opts n es).queued (Session.run im opts n es).announcer.lastTs := by
  induction es using List.reverseRecOn with
  | nil => exact fun _ => ⟨fun q hq => absurd hq List.not_mem_nil, .nil⟩
  | append_singleton es e ih =>
    unfold ticks at ih hsecret
    unfold Session.run Session.queued at ih ⊢
    rw [List.filterMap_append, List.reverse_append] at hsecret
    have ih := ih fun t ht => hsecret t (List.mem_append_right _ ht)
    rw [List.foldl_append, List.foldl_cons, List.foldl_nil]
    cases e with
    | peerTick t => exact foldl_queueTo_newer hd (hsecret t (List.mem_append_left _ List.mem_cons_self)) _ ih
    | getAndClearPendingMsg =>
      intro hts
      have h := ih hts
      show Newer im verify opts key (_ ++ _ ++ []) _
      rwa [List.append_nil]

end Queue

/-! ## The peers -/

section Peers

variable {im : Imports} {verify : List UInt8 → List UInt8 → List UInt8 → Bool} {opts : NodeAnnouncerOpts}
  {n : Nat} {key : List UInt8}

/-- A peer that holds only older ones takes each announcement of a queue. -/
theorem takes_all {queued : List Queued} {ts : Nat} (h : Newer im verify opts key queued ts) {qs : List Queued}
    (hsub : qs.Sublist queued) {held : Held}
    (hheld : ∀ q ∈ qs, ∀ a, Announcement.read q.payload = some a →
      (held a.nodeId).all fun t => decide (t < a.timestamp)) :
    ((qs.map (·.payload)).foldlM (Announcement.take im verify) held).isSome = true := by
  induction qs generalizing held with
  | nil => rfl
  | cons q qs ih =>
    obtain ⟨a, hread, hours, -⟩ := h.ours q (hsub.subset List.mem_cons_self)
    have hrest := (List.pairwise_cons.mp (h.order.sublist hsub)).1
    have htake : Announcement.take im verify held q.payload =
        some (Function.update held a.nodeId (some a.timestamp)) := by
      rw [Announcement.take, hread, Option.bind_some, hours.signed, hheld q List.mem_cons_self a hread,
        Bool.and_self, if_pos rfl]
    rw [List.map_cons, List.foldlM_cons, htake]
    refine ih ((List.sublist_cons_self q qs).trans hsub) fun r hr b hb => ?_
    have hlt := hrest r hr a b hread hb
    rw [Function.update_apply]
    split
    · rw [Option.all_some, decide_eq_true hlt]
    · exact hheld r (List.mem_cons_of_mem q hr) b hb

/-- Every message of a session is an announcement of the wallet's name, and whatever of them reaches a
peer is newer than what it holds. -/
theorem announcements_supersede (hd : im.Documented verify) (es : List Event)
    (hsecret : ∀ t ∈ ticks es, ∀ k, t.secret = some k → k = key)
    (hts : (Session.run im opts n es).announcer.lastTs < 2 ^ 32) :
    (∀ q ∈ (Session.run im opts n es).queued,
      ∃ a, Announcement.read q.payload = some a ∧ Ours im verify opts key a) ∧
    ∀ qs : List Queued, qs.Sublist (Session.run im opts n es).queued →
      ((qs.map (·.payload)).foldlM (Announcement.take im verify) fun _ => none).isSome = true := by
  have h := run_newer hd es hsecret hts
  constructor
  · intro q hq
    obtain ⟨a, hread, hours, -⟩ := h.ours q hq
    exact ⟨a, hread, hours⟩
  · intro qs hsub
    exact takes_all h hsub fun q hq a hread => rfl

/-- Where the key signs, the announcer queues one message for each peer. -/
theorem foldl_queueTo_peers (hd : im.Documented verify) {pub : List UInt8} (hsecret : key.length = 32)
    (hpub : im.getPublicKey key = some pub) (hsign : ∀ digest, (im.sign digest key).isSome = true)
    (hrgb : (opts.rgb.getD [0x7a, 0x5a, 0xf5]).length = 3) (now : Chars → Nat) (a : NodeAnnouncer) (ps : List Chars) :
    (ps.foldl (fun a p => a.queueTo im opts (now p) (some key) p) a).outbound.map (·.peer) =
      a.outbound.map (·.peer) ++ ps.map hexToBytes := by
  induction ps generalizing a with
  | nil => exact (List.append_nil _).symm
  | cons p ps ih =>
    have hone : (a.queueTo im opts (now p) (some key) p).outbound.map (·.peer) =
        a.outbound.map (·.peer) ++ [hexToBytes p] := by
      let ts := nextAnnouncementTimestamp (now p) a.lastTs
      obtain ⟨sig, hsig⟩ := Option.isSome_iff_exists.mp
        (hsign (im.sha256 (im.sha256 ((opts.stamped key ts).body im pub))))
      have hcode := encodeNodeAnnouncement_eq hd (opts.stamped key ts) hsecret hrgb hpub
      have hkey : (opts.stamped key ts).secretKey = key := rfl
      rw [hkey, hsig] at hcode
      unfold NodeAnnouncer.queueTo
      dsimp only [returned]
      rw [ok_bind, ← NodeAnnouncerOpts.stamped, hcode]
      exact List.map_append
    rw [List.foldl_cons, ih, hone, List.map_cons, List.append_assoc]
    rfl

/-- Where the key signs, what a session queues goes to those that are due, tick by tick, and what LDK
was handed is the front of it. -/
theorem announced_when_due (hd : im.Documented verify) {pub : List UInt8} (hkey : key.length = 32)
    (hpub : im.getPublicKey key = some pub) (hsign : ∀ digest, (im.sign digest key).isSome = true)
    (hrgb : (opts.rgb.getD [0x7a, 0x5a, 0xf5]).length = 3) (es : List Event)
    (hsecret : ∀ t ∈ ticks es, t.secret = some key) :
    (Session.run im opts n es).queued.map (·.peer) = dues n (ticks es) := by
  induction es using List.reverseRecOn with
  | nil => rfl
  | append_singleton es e ih =>
    have hpast : Remembers n (ticks es) (Session.run im opts n es) := .run es
    have hrun : Session.run im opts n (es ++ [e]) = (Session.run im opts n es).step im opts e := by
      unfold Session.run
      rw [List.foldl_append, List.foldl_cons, List.foldl_nil]
    have hticks : ticks (es ++ [e]) = ticks [e] ++ ticks es := by
      unfold ticks
      rw [List.filterMap_append, List.reverse_append]
    rw [hticks] at hsecret
    have ih := ih fun t ht => hsecret t (List.mem_append_right _ ht)
    rw [hrun, hticks]
    cases e with
    | peerTick t =>
      have hk := hsecret t (List.mem_append_left _ List.mem_cons_self)
      have hneeds : needs (if ((Session.run im opts n es).nodeAnnTickCount + 1) % 30 = 0 then fun _ => none
          else (Session.run im opts n es).announceState) t.ready = due n (ticks es) t := by
        funext p
        exact needs_eq_due hpast t p
      have hback : (t.texts.filter (due n (ticks es) t)).map hexToBytes =
          t.connected.filter fun id => due n (ticks es) t (bytesToHex id) := by
        unfold Tick.texts
        rw [List.filter_map, List.map_map]
        exact (List.map_congr_left fun id _ => hexToBytes_bytesToHex id).trans (List.map_id' _)
      unfold Session.queued at ih ⊢
      unfold Session.step Session.peerTick
      dsimp only
      rw [peersNeedingAnnouncement_eq, hk, hneeds, List.map_append,
        foldl_queueTo_peers hd hkey hpub hsign hrgb, ← List.append_assoc, ← List.map_append, ih, hback]
      rfl
    | getAndClearPendingMsg =>
      refine Eq.trans ?_ ih
      unfold Session.queued Session.step
      rw [List.append_nil]

end Peers

/-! ## Two ticks with one peer -/

section Sample

open Bolt11 (otherKey ownKey ownSecret)

def visitOpts : NodeAnnouncerOpts := { «alias» := codes "Libre" }

/-- The peer comes; then its channel is ready. -/
def visitEvents : List Event :=
  [.peerTick { now := fun _ => 1700000000, secret := some ownSecret, connected := [otherKey], ready := [] },
    .getAndClearPendingMsg,
    .peerTick
      { now := fun _ => 1700000010, secret := some ownSecret, connected := [otherKey],
        ready := [bytesToHex otherKey] }]

def visitBody (timestamp : Nat) : List UInt8 :=
  bodyOf timestamp ownKey [0x7a, 0x5a, 0xf5] (nameBytes [76, 105, 98, 114, 101])

/-- By table, what the hash and the curve are on the two announcements. -/
def visitImports : Imports where
  getPublicKey secret := if secret = ownSecret then some ownKey else none
  sign digest _ :=
    some (if digest = bigEndian 32 0x38cc207764b8d10e35f9ef234523ece4343ea3861bf8fc99f5ff53d17c4bd265 then
        bigEndian 64 0x7104b4083d1b0f90b46c531ff856fc3fd7c12feb09f63893b1a1d5583f77ccbc2c8d44c23b35c2b69998b71c055be948dc001bc4ba325c0ec3faa43ebfcfbc71
      else if digest = bigEndian 32 0x8a877e74b954ee8f776bad6cdd94882e12e95785201fdb79dc91f2c5370a2423 then
        bigEndian 64 0xdbbdfa63089dfbf2c7801ba7f54c6d0c8382f1aadd6fd47cb5cf2fe9232a01cf611bfff3ea4345d35be573c8949070ae3631157de18533e91aed0a6ea60b2031
      else List.replicate 64 1)
  sha256 m :=
    if m = visitBody 1700000000 then
      bigEndian 32 0xd2503e55adc3ca00c2de30b028afc3095cb0e705688e9d7dc4b325fe67d4b4e8
    else if m = bigEndian 32 0xd2503e55adc3ca00c2de30b028afc3095cb0e705688e9d7dc4b325fe67d4b4e8 then
      bigEndian 32 0x38cc207764b8d10e35f9ef234523ece4343ea3861bf8fc99f5ff53d17c4bd265
    else if m = visitBody 1700000010 then
      bigEndian 32 0xe88b3e059708a6a73a3d751fea28f1e43ea3655958ef3c368cca67d576e0608a
    else if m = bigEndian 32 0xe88b3e059708a6a73a3d751fea28f1e43ea3655958ef3c368cca67d576e0608a then
      bigEndian 32 0x8a877e74b954ee8f776bad6cdd94882e12e95785201fdb79dc91f2c5370a2423
    else List.replicate 32 0
  utf8 t := t.map UInt8.ofNat

/-- The signatures of the own key. -/
def visitVerify (sig digest key : List UInt8) : Bool :=
  decide (key = ownKey ∧ visitImports.sign digest ownSecret = some sig)

theorem visitImports_documented : visitImports.Documented visitVerify where
  keys secret key h := by
    unfold visitImports at h
    dsimp only at h
    split at h
    · cases h
      exact length_bigEndian 33 _
    · cases h
  signs digest secret sig h := by
    unfold visitImports at h
    dsimp only at h
    cases h
    split
    · exact length_bigEndian 64 _
    · split
      · exact length_bigEndian 64 _
      · exact List.length_replicate
  verifies digest secret sig key hsign hkey := by
    unfold visitImports at hkey
    dsimp only at hkey
    split at hkey
    · cases hkey
      exact decide_eq_true ⟨rfl, hsign⟩
    · cases hkey

theorem announcements_supersede_visit :
    ((((Session.run visitImports visitOpts 0 visitEvents).queued).map (·.payload)).foldlM
      (Announcement.take visitImports visitVerify) fun _ => none).isSome = true := by
  have hsecret : ∀ t ∈ ticks visitEvents, ∀ k, t.secret = some k → k = ownSecret := by
    intro t ht k hk
    rcases List.mem_cons.mp ht with rfl | ht
    · exact (Option.some.inj hk).symm
    · rw [List.mem_singleton.mp ht] at hk
      exact (Option.some.inj hk).symm
  have hts : (Session.run visitImports visitOpts 0 visitEvents).announcer.lastTs < 2 ^ 32 := by decide +kernel
  have h := announcements_supersede visitImports_documented visitEvents hsecret hts
  exact h.2 _ (List.Sublist.refl _)

theorem announced_when_due_visit :
    (Session.run visitImports visitOpts 0 visitEvents).queued.map (·.peer) = [otherKey, otherKey] := by
  have hsecret : ∀ t ∈ ticks visitEvents, t.secret = some ownSecret := by
    intro t ht
    rcases List.mem_cons.mp ht with rfl | ht
    · rfl
    · rw [List.mem_singleton.mp ht]
  have hkey : ownSecret.length = 32 := length_bigEndian 32 _
  have hpub : visitImports.getPublicKey ownSecret = some ownKey := by decide +kernel
  have hdues : dues 0 (ticks visitEvents) = [otherKey, otherKey] := by decide +kernel
  rw [← hdues]
  exact announced_when_due visitImports_documented hkey hpub (fun _ => rfl) rfl visitEvents hsecret

end Sample

end LibreWallet.Net.Announce
