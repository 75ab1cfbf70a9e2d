import LibreWallet.Async.System
import LibreWallet.Net.PrivateHost

/-
  Net/BridgeServer.lean --- the WebSocket bridge: what it dials, whom it counts, what it relays.

  Mirrors `ws-bridge/src/server.ts` with `parseTarget` and `isTargetAllowed` of `allowlist.ts` and
  `client-ip.ts`.  A socket's events come in any order; a WebSocket closes once, and a TCP socket
  that is destroyed delivers nothing.  A listener that throws takes the process down.
-/

set_option autoImplicit false

namespace LibreWallet.Net.Bridge

open Async Text

/-! ## Targets -/

structure Target where
  host : List Nat
  port : Nat
  deriving DecidableEq, Repr

/-- What the platform says of texts: `toLowerCase` beyond ASCII, and `Number` where it is whole. -/
structure Texts where
  unicode : List Nat → List Nat
  number : List Nat → Option ℤ

/-- The text after the last colon is the port. -/
def parseTarget (tx : Texts) (raw : List Nat) : Option Target :=
  let after := (raw.reverse.takeWhile (· ≠ 58)).reverse
  let host := raw.take (raw.length - after.length - 1)
  if 58 ∉ raw ∨ host = [] ∨ after = [] then none
  else (tx.number after).bind fun port =>
    if 1 ≤ port ∧ port ≤ 65535 then some ⟨host, port.toNat⟩ else none

/-- `${t.host}:${t.port}` -/
def Target.text (t : Target) : List Nat := t.host ++ 58 :: numeral 10 t.port

structure BridgeConfig where
  allowlist : List (List Nat)
  fallbackTarget : Option (List Nat) := none
  allowPrivate : Bool := false
  maxConnsPerIp : Nat := 8
  maxTotalConns : Nat := 512

def isTargetAllowed (tx : Texts) (cfg : BridgeConfig) (raw : List Nat) : Bool :=
  match parseTarget tx raw with
  | none => false
  | some t =>
    if !cfg.allowPrivate && isPrivateHost tx.unicode t.host then false else cfg.allowlist.contains t.text

/-- `xff` is the header: nothing, a text or several. -/
def clientIp (xff : List (List Nat)) (remoteAddress : Option (List Nat)) : List Nat :=
  let first := trim (((xff.headD []).splitOn 44).headD [])
  if first ≠ [] then first else remoteAddress.getD [63]

/-! ## The server -/

/-- `readyState` of a WebSocket. -/
inductive Ready where
  | opened
  | closing
  | closed
  deriving DecidableEq, Repr

/-- A connection that was let in.  `received` came from the client and `written` went to the target;
`data` came from the target and `sent` went to the client. -/
structure Session where
  ip : List Nat
  target : Target
  ws : Ready := .opened
  /-- The TCP socket is not destroyed. -/
  tcp : Bool := true
  received : List (List UInt8) := []
  written : List (List UInt8) := []
  data : List (List UInt8) := []
  sent : List (List UInt8) := []

def Session.live (s : Session) : Bool := s.ws ≠ .closed

structure Server where
  perIp : List Nat → Option ℤ := fun _ => none
  totalConns : ℤ := 0
  sessions : List Session := []
  /-- Who was turned away, with the code and the reason. -/
  refused : List (List Nat × Nat × String) := []
  crashed : Bool := false

inductive Action where
  /-- A client connects; `url` is none where it cannot be parsed, and else its `target`. -/
  | connect (xff : List (List Nat)) (remoteAddress : Option (List Nat)) (url : Option (Option (List Nat)))
  | wsMessage (i : Nat) (d : List UInt8)
  /-- The client begins to close: `readyState` changes, and no listener is called yet. -/
  | wsClosing (i : Nat)
  | wsClose (i : Nat)
  | wsError (i : Nat)
  | tcpData (i : Nat) (d : List UInt8)
  | tcpClose (i : Nat)
  | tcpError (i : Nat)

/-- `ws.close()` -/
def Session.close (s : Session) : Session := if s.ws = .opened then { s with ws := .closing } else s

def release (ip : List Nat) (b : Server) : Server :=
  let n := (b.perIp ip).getD 1 - 1
  { b with
    totalConns := b.totalConns - 1
    perIp := Function.update b.perIp ip (if n ≤ 0 then none else some n) }

def onConnection (tx : Texts) (cfg : BridgeConfig) (xff : List (List Nat)) (remoteAddress : Option (List Nat))
    (url : Option (Option (List Nat))) (b : Server) : Server :=
  let ip := clientIp xff remoteAddress
  if cfg.maxTotalConns ≤ b.totalConns then
    { b with refused := (ip, 1013, "server at capacity") :: b.refused }
  else
    match url with
    | none => { b with crashed := true }
    | some target =>
      let rawTarget := (target.or cfg.fallbackTarget).getD []
      if !isTargetAllowed tx cfg rawTarget then
        { b with refused := (ip, 1008, "target not allowed") :: b.refused }
      else
        let cur := (b.perIp ip).getD 0
        if cfg.maxConnsPerIp ≤ cur then
          { b with refused := (ip, 1013, "too many connections") :: b.refused }
        else
          let b := { b with
            perIp := Function.update b.perIp ip (some (cur + 1))
            totalConns := b.totalConns + 1 }
          match parseTarget tx rawTarget with
          | none => { b with crashed := true }
          | some target =>
            let s : Session := { ip, target }
            { b with sessions := b.sessions ++ [s] }

/-- An event of a session; none where it cannot happen any more. -/
def onSession (a : Action) (s : Session) : Option Session :=
  match a with
  | .wsMessage _ d =>
    if s.live then
      some { s with
        received := s.received ++ [d]
        written := if s.tcp then s.written ++ [d] else s.written }
    else none
  | .wsClosing _ => if s.ws = .opened then some s.close else none
  | .wsClose _ => if s.live then some { s with ws := .closed, tcp := false } else none
  | .wsError _ => some { s with tcp := false }
  | .tcpData _ d =>
    if s.tcp then
      some { s with
        data := s.data ++ [d]
        sent := if s.ws = .opened then s.sent ++ [d] else s.sent }
    else none
  | .tcpClose _ | .tcpError _ => some { s.close with tcp := false }
  | .connect _ _ _ => none

def Action.session : Action → Nat
  | .wsMessage i _ | .wsClosing i | .wsClose i | .wsError i | .tcpData i _ | .tcpClose i | .tcpError i => i
  | .connect _ _ _ => 0

def step (tx : Texts) (cfg : BridgeConfig) (a : Action) (b : Server) : Option Server :=
  if b.crashed then none
  else
    match a with
    | .connect xff remoteAddress url => some (onConnection tx cfg xff remoteAddress url b)
    | a =>
      (b.sessions[a.session]?).bind fun s => (onSession a s).map fun s' =>
        let b := { b with sessions := b.sessions.set a.session s' }
        -- the `close` listener releases what the connection took
        match a with
        | .wsClose _ => release s.ip b
        | _ => b

/-! ## What holds in every state -/

/-- The sessions of an address that are not over. -/
def liveOf (ip : List Nat) (sessions : List Session) : Nat := sessions.countP fun s => s.live && s.ip = ip

def liveAll (sessions : List Session) : Nat := sessions.countP Session.live

/-- What was passed on is what came, up to where the other side was gone. -/
structure Session.Relays (s : Session) : Prop where
  written : s.written <+: s.received
  writtenAll : s.tcp = true → s.written = s.received
  sent : s.sent <+: s.data
  sentAll : s.ws = .opened → s.sent = s.data

/-- A target that the operator listed, and that is not private. -/
def Allowed (tx : Texts) (cfg : BridgeConfig) (t : Target) : Prop :=
  t.text ∈ cfg.allowlist ∧ 1 ≤ t.port ∧ t.port ≤ 65535 ∧
    (cfg.allowPrivate = true ∨ isPrivateHost tx.unicode t.host = false)

structure Inv (tx : Texts) (cfg : BridgeConfig) (b : Server) : Prop where
  total : b.totalConns = liveAll b.sessions
  capped : liveAll b.sessions ≤ cfg.maxTotalConns
  perIp : ∀ ip, b.perIp ip = if liveOf ip b.sessions = 0 then none else some (liveOf ip b.sessions : ℤ)
  cappedIp : ∀ ip, liveOf ip b.sessions ≤ cfg.maxConnsPerIp
  allowed : ∀ s ∈ b.sessions, Allowed tx cfg s.target
  relays : ∀ s ∈ b.sessions, s.Relays

section Counting

variable {sessions : List Session} {i : Nat} {s s' : Session} {p : Session → Bool}

theorem countP_pos_of_getElem? (hi : sessions[i]? = some s) (hp : p s = true) : 0 < sessions.countP p :=
  List.countP_pos_iff.mpr ⟨s, List.mem_of_getElem? hi, hp⟩

/-- A session that changes and is counted as before. -/
theorem countP_set_of_eq (hi : sessions[i]? = some s) (hp : p s' = p s) :
    (sessions.set i s').countP p = sessions.countP p := by
  obtain ⟨hlt, hget⟩ := List.getElem?_eq_some_iff.mp hi
  have hpos := countP_pos_of_getElem? (p := p) hi
  rw [List.countP_set hlt, hget, hp]
  split
  · rename_i h
    have := hpos h
    omega
  · omega

/-- A session that is counted no more. -/
theorem countP_set_of_drop (hi : sessions[i]? = some s) (hp : p s = true) (hp' : p s' = false) :
    (sessions.set i s').countP p + 1 = sessions.countP p := by
  obtain ⟨hlt, hget⟩ := List.getElem?_eq_some_iff.mp hi
  have hpos := countP_pos_of_getElem? (p := p) hi hp
  rw [List.countP_set hlt, hget, hp, hp', if_pos rfl, if_neg Bool.false_ne_true]
  omega

end Counting

section Steps

variable {tx : Texts} {cfg : BridgeConfig} {b b' : Server} {a : Action} {s s' : Session}

/-- What passes the allowlist is dialled, and is a target that the operator listed. -/
theorem allowed_of_isTargetAllowed {raw : List Nat} (h : isTargetAllowed tx cfg raw = true) :
    ∃ t, parseTarget tx raw = some t ∧ Allowed tx cfg t := by
  unfold isTargetAllowed at h
  split at h
  · cases h
  · rename_i t ht
    refine ⟨t, ht, ?_⟩
    split at h
    · cases h
    · rename_i hprivate
      have hport : 1 ≤ t.port ∧ t.port ≤ 65535 := by
        unfold parseTarget at ht
        dsimp only at ht
        split at ht
        · cases ht
        · obtain ⟨port, -, hport⟩ := Option.bind_eq_some_iff.mp ht
          split at hport
          · rename_i hrange
            cases hport
            dsimp only
            omega
          · cases hport
      refine ⟨by simpa using h, hport.1, hport.2, ?_⟩
      rw [Bool.not_eq_true, Bool.and_eq_false_iff, Bool.not_eq_false'] at hprivate
      exact hprivate

theorem Session.Relays.close (h : s.Relays) : s.close.Relays ∧ s.close.live = s.live ∧ s.close.ip = s.ip ∧
    s.close.target = s.target := by
  unfold Session.close
  split
  · rename_i hopened
    refine ⟨{ h with sentAll := fun hw => by cases hw }, ?_, rfl, rfl⟩
    unfold Session.live
    rw [hopened]
    rfl
  · exact ⟨h, rfl, rfl, rfl⟩

/-- What an event makes of a session. -/
theorem onSession_spec (h : onSession a s = some s') (hs : s.Relays) :
    s'.Relays ∧ s'.ip = s.ip ∧ s'.target = s.target ∧
      ((∃ i, a = .wsClose i) ∧ s.live = true ∧ s'.live = false ∨
        (∀ i, a ≠ .wsClose i) ∧ s'.live = s.live) := by
  cases a with
  | connect xff remoteAddress url => cases h
  | wsMessage i d =>
    simp only [onSession] at h
    split at h
    · cases h
      refine ⟨{ hs with written := ?_, writtenAll := ?_ }, rfl, rfl, .inr ⟨fun _ hc => (by cases hc), rfl⟩⟩
      · dsimp only
        split
        · rename_i htcp
          rw [hs.writtenAll htcp]
        · exact hs.written.trans (List.prefix_append _ _)
      · intro htcp
        have htcp' : s.tcp = true := htcp
        dsimp only
        rw [if_pos htcp', hs.writtenAll htcp']
    · cases h
  | wsClosing i =>
    simp only [onSession] at h
    split at h
    · cases h
      obtain ⟨hr, hlive, hip, htarget⟩ := hs.close
      exact ⟨hr, hip, htarget, .inr ⟨fun _ hc => (by cases hc), hlive⟩⟩
    · cases h
  | wsClose i =>
    simp only [onSession] at h
    split at h
    · rename_i hlive
      cases h
      exact ⟨{ hs with writtenAll := fun ht => (by cases ht), sentAll := fun hw => (by cases hw) }, rfl, rfl,
        .inl ⟨⟨i, rfl⟩, hlive, rfl⟩⟩
    · cases h
  | wsError i =>
    cases h
    exact ⟨{ hs with writtenAll := fun ht => (by cases ht) }, rfl, rfl,
      .inr ⟨fun _ hc => (by cases hc), rfl⟩⟩
  | tcpData i d =>
    simp only [onSession] at h
    split at h
    · cases h
      refine ⟨{ hs with sent := ?_, sentAll := ?_ }, rfl, rfl, .inr ⟨fun _ hc => (by cases hc), rfl⟩⟩
      · dsimp only
        split
        · rename_i hopened
          rw [hs.sentAll hopened]
        · exact hs.sent.trans (List.prefix_append _ _)
      · intro hopened
        have hopened' : s.ws = .opened := hopened
        dsimp only
        rw [if_pos hopened', hs.sentAll hopened']
    · cases h
  | tcpClose i =>
    cases h
    obtain ⟨hr, hlive, hip, htarget⟩ := hs.close
    exact ⟨{ hr with writtenAll := fun ht => (by cases ht) }, hip, htarget,
      .inr ⟨fun _ hc => (by cases hc), hlive⟩⟩
  | tcpError i =>
    cases h
    obtain ⟨hr, hlive, hip, htarget⟩ := hs.close
    exact ⟨{ hr with writtenAll := fun ht => (by cases ht) }, hip, htarget,
      .inr ⟨fun _ hc => (by cases hc), hlive⟩⟩

theorem relays_new (ip : List Nat) (target : Target) :
    Session.Relays { ip := ip, target := target } :=
  ⟨List.prefix_rfl, fun _ => rfl, List.prefix_rfl, fun _ => rfl⟩

/-- What a counter of an address reads as. -/
theorem getD_perIp (h : Inv tx cfg b) (ip : List Nat) : (b.perIp ip).getD 0 = liveOf ip b.sessions := by
  rw [h.perIp]
  split
  · rename_i hzero
    rw [hzero]
    rfl
  · rfl

/-- A connection that is let in is counted. -/
theorem inv_admitted (h : Inv tx cfg b) {ip : List Nat} {target : Target} (htarget : Allowed tx cfg target)
    (htotal : liveAll b.sessions < cfg.maxTotalConns) (hip : liveOf ip b.sessions < cfg.maxConnsPerIp) :
    Inv tx cfg { b with
      perIp := Function.update b.perIp ip (some (liveOf ip b.sessions + 1 : ℤ))
      totalConns := b.totalConns + 1
      sessions := b.sessions ++ [{ ip := ip, target := target }] } := by
  have hall : liveAll (b.sessions ++ [{ ip := ip, target := target }]) = liveAll b.sessions + 1 := by
    unfold liveAll
    rw [List.countP_append]
    rfl
  have hof : ∀ ip', liveOf ip' (b.sessions ++ [{ ip := ip, target := target }]) =
      liveOf ip' b.sessions + if ip = ip' then 1 else 0 := by
    intro ip'
    unfold liveOf
    rw [List.countP_append, List.countP_singleton]
    simp [Session.live]
  constructor
  · rw [hall, h.total]
    rfl
  · rw [hall]
    exact htotal
  · intro ip'
    dsimp only
    rw [hof, Function.update_apply]
    by_cases heq : ip' = ip
    · rw [if_pos heq, if_pos heq.symm, if_neg (by omega), heq]
      rfl
    · rw [if_neg heq, if_neg (Ne.symm heq), Nat.add_zero]
      exact h.perIp ip'
  · intro ip'
    rw [hof]
    split
    · rename_i heq
      subst heq
      exact hip
    · exact h.cappedIp ip'
  · intro s hs
    rcases List.mem_append.mp hs with hold | hnew
    · exact h.allowed s hold
    · rw [List.mem_singleton.mp hnew]
      exact htarget
  · intro s hs
    rcases List.mem_append.mp hs with hold | hnew
    · exact h.relays s hold
    · rw [List.mem_singleton.mp hnew]
      exact relays_new ip target

theorem inv_onConnection (h : Inv tx cfg b) (xff : List (List Nat)) (remoteAddress : Option (List Nat))
    (url : Option (Option (List Nat))) : Inv tx cfg (onConnection tx cfg xff remoteAddress url b) := by
  unfold onConnection
  dsimp only
  split
  · exact { h with }
  · rename_i htotal
    split
    · exact { h with }
    · split
      · exact { h with }
      · rename_i hallowed
        rw [Bool.not_eq_true, Bool.not_eq_false'] at hallowed
        obtain ⟨t, ht, htarget⟩ := allowed_of_isTargetAllowed hallowed
        rw [getD_perIp h]
        split
        · exact { h with }
        · rename_i hip
          rw [ht]
          refine inv_admitted h htarget ?_ (by omega)
          have := h.total
          omega

/-- A session that changes and still counts. -/
theorem inv_changed (h : Inv tx cfg b) {i : Nat} (hi : b.sessions[i]? = some s) (hrelays : s'.Relays)
    (hip : s'.ip = s.ip) (htarget : s'.target = s.target) (hlive : s'.live = s.live) :
    Inv tx cfg { b with sessions := b.sessions.set i s' } := by
  have hall : liveAll (b.sessions.set i s') = liveAll b.sessions := countP_set_of_eq hi hlive
  have hof : ∀ ip, liveOf ip (b.sessions.set i s') = liveOf ip b.sessions := fun ip =>
    countP_set_of_eq hi (by rw [hip, hlive])
  have hmem : ∀ x ∈ b.sessions.set i s', x ∈ b.sessions ∨ x = s' := fun x hx =>
    List.mem_or_eq_of_mem_set hx
  constructor
  · rw [hall]
    exact h.total
  · rw [hall]
    exact h.capped
  · intro ip
    rw [hof]
    exact h.perIp ip
  · intro ip
    rw [hof]
    exact h.cappedIp ip
  · intro x hx
    rcases hmem x hx with hold | rfl
    · exact h.allowed x hold
    · rw [htarget]
      exact h.allowed s (List.mem_of_getElem? hi)
  · intro x hx
    rcases hmem x hx with hold | rfl
    · exact h.relays x hold
    · exact hrelays

/-- A session that is over gives back what it took. -/
theorem inv_released (h : Inv tx cfg b) {i : Nat} (hi : b.sessions[i]? = some s) (hrelays : s'.Relays)
    (hip : s'.ip = s.ip) (htarget : s'.target = s.target) (hlive : s.live = true) (hlive' : s'.live = false) :
    Inv tx cfg (release s.ip { b with sessions := b.sessions.set i s' }) := by
  have hall : liveAll (b.sessions.set i s') + 1 = liveAll b.sessions := countP_set_of_drop hi hlive hlive'
  have hself : liveOf s.ip (b.sessions.set i s') + 1 = liveOf s.ip b.sessions :=
    countP_set_of_drop hi (by rw [hlive]; simp) (by rw [hlive']; rfl)
  have hother : ∀ ip, ip ≠ s.ip → liveOf ip (b.sessions.set i s') = liveOf ip b.sessions := fun ip hne =>
    countP_set_of_eq hi (by simp [hip, hne.symm])
  have hmem : ∀ x ∈ b.sessions.set i s', x ∈ b.sessions ∨ x = s' := fun x hx =>
    List.mem_or_eq_of_mem_set hx
  have hcount : (b.perIp s.ip).getD 1 - 1 = liveOf s.ip (b.sessions.set i s') := by
    rw [h.perIp, if_neg (by omega), Option.getD_some]
    omega
  constructor
  · have := h.total
    simp only [release]
    omega
  · have := h.capped
    simp only [release]
    omega
  · intro ip
    simp only [release]
    rw [hcount, Function.update_apply]
    split
    · rename_i heq
      rw [heq]
      refine if_congr ?_ rfl rfl
      omega
    · rename_i hne
      rw [hother ip hne]
      exact h.perIp ip
  · intro ip
    by_cases heq : ip = s.ip
    · have := h.cappedIp s.ip
      rw [heq]
      simp only [release]
      omega
    · have := h.cappedIp ip
      simp only [release]
      rw [hother ip heq]
      exact this
  · intro x hx
    rcases hmem x hx with hold | rfl
    · exact h.allowed x hold
    · rw [htarget]
      exact h.allowed s (List.mem_of_getElem? hi)
  · intro x hx
    rcases hmem x hx with hold | rfl
    · exact h.relays x hold
    · exact hrelays

theorem inv_step (h : Inv tx cfg b) (hs : step tx cfg a b = some b') : Inv tx cfg b' := by
  unfold step at hs
  split at hs
  · cases hs
  · split at hs
    · cases hs
      exact inv_onConnection h _ _ _
    · obtain ⟨s, hi, hsome⟩ := Option.bind_eq_some_iff.mp hs
      obtain ⟨s', hevent, heq⟩ := Option.map_eq_some_iff.mp hsome
      obtain ⟨hrelays, hip, htarget, hcases⟩ := onSession_spec hevent (h.relays s (List.mem_of_getElem? hi))
      dsimp only at heq
      split at heq
      · rename_i i _
        cases heq
        rcases hcases with ⟨-, hlive, hlive'⟩ | ⟨hno, -⟩
        · exact inv_released h hi hrelays hip htarget hlive hlive'
        · exact absurd rfl (hno i)
      · rename_i hno
        cases heq
        rcases hcases with ⟨⟨i, hclose⟩, -, -⟩ | ⟨-, hlive⟩
        · exact absurd hclose (hno i)
        · exact inv_changed h hi hrelays hip htarget hlive

end Steps

theorem inv_start (tx : Texts) (cfg : BridgeConfig) : Inv tx cfg {} where
  total := rfl
  capped := Nat.zero_le _
  perIp := fun _ => rfl
  cappedIp := fun _ => Nat.zero_le _
  allowed := fun s hs => by cases hs
  relays := fun s hs => by cases hs

section Runs

variable {tx : Texts} {cfg : BridgeConfig} {P : Action → Server → Prop} {b : Server}

theorem inv_of_run (hrun : Steps (step tx cfg) P {} b) : Inv tx cfg b :=
  hrun.invariant (inv_start tx cfg) fun _ _ _ h _ hs => inv_step h hs

/-- In every state of every run the counters are the sessions that are not over, of all addresses
and of each one, and neither exceeds its cap; an address without a session has no counter. -/
theorem connections_counted (hrun : Steps (step tx cfg) P {} b) :
    b.totalConns = liveAll b.sessions ∧ liveAll b.sessions ≤ cfg.maxTotalConns ∧
      ∀ ip, (b.perIp ip).getD 0 = liveOf ip b.sessions ∧ liveOf ip b.sessions ≤ cfg.maxConnsPerIp ∧
        (b.perIp ip = none ↔ liveOf ip b.sessions = 0) := by
  have h := inv_of_run hrun
  refine ⟨h.total, h.capped, fun ip => ⟨getD_perIp h ip, h.cappedIp ip, ?_⟩⟩
  rw [h.perIp]
  split
  · rename_i hzero
    exact ⟨fun _ => hzero, fun _ => rfl⟩
  · rename_i hne
    exact ⟨fun h => (by cases h), fun hzero => absurd hzero hne⟩

/-- Whatever clients ask for and send, the bridge dials only targets that the operator listed and
that are not private, and each session passes on what came on its own sockets: in order, nothing
added, and all of it up to the point where the other side was gone. -/
theorem relays_listed_targets (hrun : Steps (step tx cfg) P {} b) :
    ∀ s ∈ b.sessions,
      (s.target.text ∈ cfg.allowlist ∧ 1 ≤ s.target.port ∧ s.target.port ≤ 65535 ∧
        (cfg.allowPrivate = true ∨ isPrivateHost tx.unicode s.target.host = false)) ∧
      (s.written <+: s.received ∧ (s.tcp = true → s.written = s.received)) ∧
      s.sent <+: s.data ∧ (s.ws = .opened → s.sent = s.data) := by
  intro s hs
  have h := inv_of_run hrun
  have hr := h.relays s hs
  exact ⟨h.allowed s hs, ⟨hr.written, hr.writtenAll⟩, hr.sent, hr.sentAll⟩

end Runs

namespace Examples

def decimal : Texts where
  unicode := id
  number := fun t => if t.all digit then some (valueOf 10 t) else none

/-- `h:80` -/
def listed : List Nat := [104, 58, 56, 48]

def one : BridgeConfig := { allowlist := [listed], maxConnsPerIp := 1 }

/-- A client connects twice, sends, is answered and leaves; a second answer finds it closing. -/
def visit : List Action :=
  [.connect [] (some [49]) (some (some listed)), .connect [] (some [49]) (some (some listed)),
    .wsMessage 0 [1], .tcpData 0 [2], .wsClosing 0, .tcpData 0 [3], .wsClose 0]

theorem exists_visit : ∃ b, Steps (step decimal one) (fun _ _ => true = true) {} b ∧
    (decide (b.refused.length = 1 ∧ b.totalConns = 0) && b.sessions.any fun s => s.sent = [[2]]) = true :=
  Steps.exists_of_play (step decimal one) (fun _ _ => true) {} visit
    (fun b => decide (b.refused.length = 1 ∧ b.totalConns = 0) && b.sessions.any fun s => s.sent = [[2]])
    (by decide)

end Examples

open Examples

/-- Once its client has left, the address has no session that counts. -/
theorem connections_counted_visit : ∃ b : Server, b.refused.length = 1 ∧ liveAll b.sessions = 0 := by
  obtain ⟨b, hrun, h⟩ := exists_visit
  rw [Bool.and_eq_true, decide_eq_true_eq] at h
  have htotal := (connections_counted hrun).1
  rw [h.1.2] at htotal
  exact ⟨b, h.1.1, by exact_mod_cast htotal.symm⟩

/-- The answer came from the listed target. -/
theorem relays_listed_targets_visit : ∃ (b : Server) (s : Session), s ∈ b.sessions ∧ s.sent = [[2]] ∧
    s.target.text ∈ one.allowlist := by
  obtain ⟨b, hrun, h⟩ := exists_visit
  rw [Bool.and_eq_true, List.any_eq_true] at h
  obtain ⟨s, hs, hsent⟩ := h.2
  exact ⟨b, s, hs, of_decide_eq_true hsent, (relays_listed_targets hrun s hs).1.1⟩

end LibreWallet.Net.Bridge
