import LibreWallet.Async.Alone
import LibreWallet.Roaming.Session

/-
  Embed/Eviction.lean --- what an evicted or closed page leaves behind.

  `onEvicted` and `dispose` of the session (Roaming/Session.lean), and the handler
  `fence` of `wallet-pwa/src/core/pwa-lease.ts`.  Each stops the node first and exports
  its state afterwards.  Others move between any two of its requests (`Around`); Drive
  answers, and only the stop may fail.
-/

set_option autoImplicit false

namespace LibreWallet.Embed.Eviction

open Async Controller Roaming

/-! ## The PWA's fence -/

def localStateVersion : Roam Nat := do
  let read ← (ask .readLocal).attempt
  match read with
  | .ok local_ => pure local_.stateVersion
  | .error _ => pure 0

/-- 0 where there is no backup, or none that can be read. -/
def driveBackupVersion : Roam Nat := do
  let read ← (do
    let local_ ← ask .readLocal
    let remote ← (match local_.seedHex with
      | some _ => ask .fetchBackup
      | none => pure none)
    readBackupVersion remote local_.seedHex).attempt
  match read with
  | .ok version => pure (version.getD 0)
  | .error _ => pure 0

/-- The flush and ack of `fence`. -/
def flushAndAckPwa (token : String) : Roam Unit := do
  let version ← localStateVersion
  let backupVersion ← driveBackupVersion
  if backupVersion < version then
    let envelope ← ask .exportBackup
    ask (.uploadBackup envelope)
    writeHandoffAck token version
  else writeHandoffAck token version

def fence (token : String) : Roam Unit := do
  let _ ← (ask .stopNode).attempt
  let _ ← (flushAndAckPwa token).attempt
  pure ()

/-! ## What is asked for -/

/-- The ack of `token` in the lease file. -/
def ackOf (token : String) (w : World) : Option HandoffAck :=
  (w.drive.lease.bind (·.handoffAck)).filter fun a => a.from_ = token

/-- The lease file holds our own record, released. -/
def ReleasedBy (token : String) (w : World) : Prop :=
  ∃ r, w.drive.lease = some r ∧ r.owner = token ∧ r.phase = .released

/-- The state_version of the origin of a page. -/
def localVersion (token : String) (w : World) : Nat := (w.store token).db.stateVersion

/-- The backup holds the state that the node stopped with, and the lease record an ack of no more
than that. -/
structure Settled (token : String) (h : List RoamEntry) (w : World) : Prop where
  flushed : ∀ r w₁, ⟨.stopNode, r, w₁⟩ ∈ h → localVersion token w₁ ≤ w.drive.backupVersion
  acked : ∃ a, ackOf token w = some a ∧ a.flushedVersion ≤ w.drive.backupVersion

/-- The backup holds the final state, and the lease is released. -/
structure Closed (token : String) (w : World) : Prop where
  flushed : localVersion token w ≤ w.drive.backupVersion
  released : ReleasedBy token w

/-- The version that a secret reads from a backup, 0 when it reads none. -/
def opened : Option Envelope → Option String → Nat
  | some envelope, some secret =>
    let v := verifyBackupEnvelope envelope secret
    (if v.ok then v.stateVersion else none).getD 0
  | _, _ => 0

/-- The backup that the handler fetched after the stop held the local state already. -/
def CaughtUp (h : List RoamEntry) : Prop :=
  ∃ info w₁ envelope w₂, ⟨.readLocal, .ok info, w₁⟩ ∈ h ∧ ⟨.fetchBackup, .ok envelope, w₂⟩ ∈ h ∧
    info.stateVersion ≤ opened envelope info.seedHex

/-- The stop failed, so the node still runs. -/
def StopFailed (h : List RoamEntry) : Prop := ∃ e w₁, ⟨.stopNode, .error e, w₁⟩ ∈ h

/-! ## The others -/

/-- What moves while the handler of a page waits.  Its node is left alone and its wallet stays, the
backup is not lowered, and the lease file is written by others only so that it keeps saying what
this page has said. -/
structure Around (token : String) (w w' : World) : Prop where
  wallet : (w'.pages token).wallet = (w.pages token).wallet
  seed : (w'.store token).db.seed = (w.store token).db.seed
  version : localVersion token w ≤ localVersion token w'
  backup : w.drive.backupVersion ≤ w'.drive.backupVersion
  lease : w.drive.lease.isSome = true → w'.drive.lease.isSome = true
  ack : ackOf token w' = ackOf token w
  released : ReleasedBy token w' ↔ ReleasedBy token w

theorem Around.refl (token : String) (w : World) : Around token w w where
  wallet := rfl
  seed := rfl
  version := Nat.le_refl _
  backup := Nat.le_refl _
  lease := id
  ack := rfl
  released := Iff.rfl

/-- The handler of a page among the others. -/
def around (token : String) : Contract World Request Answer Err Choice where
  exec := exec token
  inv := fun _ => True
  rely := Around token
  sync := fun _ _ => True
  guar := fun _ _ => True
  allow := fun _ q c _ => c = .ok ∨ q = .stopNode
  oblige := fun _ _ _ => True

variable {token seed : String} {v : Nat} {running : Bool} {h : List RoamEntry} {s w w₁ w₂ w₃ : World}

/-- What the handler knows of the state until it writes its ack. -/
structure Pending (token seed : String) (v : Nat) (running : Bool) (w : World) : Prop where
  wallet : decide ((w.pages token).wallet = .running) = running
  seed : (w.store token).db.seed = some seed
  version : v ≤ localVersion token w
  lease : w.drive.lease.isSome = true
  noAck : ackOf token w = none

theorem Pending.rely (hw : Pending token seed v running w) (hr : Around token w w₁) :
    Pending token seed v running w₁ where
  wallet := by
    rw [hr.wallet]
    exact hw.wallet
  seed := hr.seed.trans hw.seed
  version := Nat.le_trans hw.version hr.version
  lease := hr.lease hw.lease
  noAck := hr.ack.trans hw.noAck

/-- An update of the page that leaves its node alone. -/
theorem Pending.setPage (hw : Pending token seed v running w) {f : Page → Page}
    (hwallet : (f (w.pages token)).wallet = (w.pages token).wallet)
    (horigin : (f (w.pages token)).origin = (w.pages token).origin) :
    Pending token seed v running (w.setPage token f) := by
  have hpage := World.setPage_self w token f
  have hstore : (w.setPage token f).store token = w.store token := by
    simp only [World.store, hpage, horigin, World.setPage_origins]
  refine ⟨?_, ?_, ?_, hw.lease, hw.noAck⟩
  · rw [hpage, hwallet]
    exact hw.wallet
  · rw [hstore]
    exact hw.seed
  · rw [localVersion, hstore]
    exact hw.version

theorem store_setNode (w : World) (token : String) (n : Node) :
    (w.setNode token n).store token = n.store := by
  rw [World.store, World.setNode_self, World.setNode_origins, if_pos rfl]

/-- A verb of the controller that keeps the database. -/
theorem Pending.setNode (hw : Pending token seed v running w) {n : Node}
    (hdb : n.store.db = (w.store token).db) :
    Pending token seed v (decide (n.wallet = .running)) (w.setNode token n) := by
  have hstore := store_setNode w token n
  refine ⟨?_, ?_, ?_, hw.lease, hw.noAck⟩
  · rw [World.setNode_self]
  · rw [hstore, hdb]
    exact hw.seed
  · rw [localVersion, hstore, hdb]
    exact hw.version

theorem noteIf_drive (w : World) (p : Prop) [Decidable p] (n : Note) :
    (if p then w.note n else w).drive = w.drive := by
  split <;> rfl

theorem noteIf_pages (w : World) (p : Prop) [Decidable p] (n : Note) :
    (if p then w.note n else w).pages = w.pages := by
  split <;> rfl

theorem Pending.noteIf (hw : Pending token seed v running w) (p : Prop) [Decidable p] (n : Note) :
    Pending token seed v running (if p then w.note n else w) := by
  split
  · exact ⟨hw.wallet, hw.seed, hw.version, hw.lease, hw.noAck⟩
  · exact hw

/-! ## Requests -/

theorem wp_ask_around {q : Request} {Post : PostCond World Request Answer Err (Answer q)}
    (hk : ∀ c r w₁ w₂ w₃, Around token w w₁ → (c = .ok ∨ q = .stopNode) →
      exec token q c w₁ = some (r, w₂) → Around token w₂ w₃ → Post (⟨q, r, w₁⟩ :: h) r w₃ w₃) :
    wp (around token) (ask q) h Post s w := by
  rw [ask, wp_request]
  refine ⟨trivial, trivial, fun w₁ hr₁ _ c r w₂ ha he => ?_⟩
  exact ⟨trivial, trivial, trivial, fun w₃ hr₃ _ => hk c r w₁ w₂ w₃ hr₁ ha he hr₃⟩

theorem wp_readLocal {Post : PostCond World Request Answer Err LocalInfo}
    (hw : Pending token seed v running w)
    (hk : ∀ info w₁ w₂, v ≤ info.stateVersion → info.seedHex = some seed →
      Pending token seed info.stateVersion running w₂ →
      Post (⟨.readLocal, .ok info, w₁⟩ :: h) (.ok info) w₂ w₂) :
    wp (around token) (ask .readLocal) h Post s w := by
  refine wp_ask_around fun c r w₁ w₂ w₃ h₁ hc he h₃ => ?_
  obtain rfl := hc.resolve_right fun hq => by cases hq
  simp only [exec, if_true, Option.some.injEq, Prod.mk.injEq] at he
  obtain ⟨rfl, rfl⟩ := he
  have hw₁ := hw.rely h₁
  exact hk _ _ _ hw₁.version hw₁.seed (Pending.rely { hw₁ with version := Nat.le_refl _ } h₃)

theorem wp_fetchBackup {Post : PostCond World Request Answer Err (Option Envelope)}
    (hw : Pending token seed v running w)
    (hk : ∀ envelope w₁ w₂, (envelope.map (·.stateVersion)).getD 0 ≤ w₂.drive.backupVersion →
      Pending token seed v running w₂ →
      Post (⟨.fetchBackup, .ok envelope, w₁⟩ :: h) (.ok envelope) w₂ w₂) :
    wp (around token) (ask .fetchBackup) h Post s w := by
  refine wp_ask_around fun c r w₁ w₂ w₃ h₁ hc he h₃ => ?_
  obtain rfl := hc.resolve_right fun hq => by cases hq
  simp only [exec, if_true, Option.some.injEq, Prod.mk.injEq] at he
  obtain ⟨rfl, rfl⟩ := he
  exact hk _ _ _ h₃.backup ((hw.rely h₁).rely h₃)

/-- The requests that neither stop nor look. -/
def idle : Request → Bool
  | .stopNode | .readLocal | .fetchBackup => false
  | _ => true

/-- A history goes on with requests that neither stop nor look. -/
structure Goes (h h' : List RoamEntry) : Prop where
  old : h ⊆ h'
  new : ∀ e ∈ h', e ∈ h ∨ idle e.request = true

theorem Goes.refl (h : List RoamEntry) : Goes h h where
  old := fun _ he => he
  new := fun _ he => .inl he

theorem Goes.cons {h' : List RoamEntry} (hg : Goes h h') {e : RoamEntry}
    (he : idle e.request = true) : Goes h (e :: h') where
  old := fun _ hx => List.mem_cons_of_mem _ (hg.old hx)
  new := fun x hx => by
    rcases List.mem_cons.mp hx with rfl | hx
    · exact .inr he
    · exact hg.new x hx

theorem Goes.mem {h' : List RoamEntry} (hg : Goes h h') {e : RoamEntry}
    (hi : idle e.request = false) (he : e ∈ h') : e ∈ h := by
  rcases hg.new e he with hold | hidle
  · exact hold
  · rw [hi] at hidle
    cases hidle

/-- The backup's version, read with the wallet's seed. -/
theorem wp_readVersion {backup : Option Envelope} {Post : PostCond World Request Answer Err (Option Nat)}
    (hw : Pending token seed v running w)
    (hb : (backup.map (·.stateVersion)).getD 0 ≤ w.drive.backupVersion)
    (hk : ∀ h' version s' w₂, Goes h h' → version.getD 0 = opened backup (some seed) →
      opened backup (some seed) ≤ w₂.drive.backupVersion → Pending token seed v running w₂ →
      Post h' (.ok version) s' w₂) :
    wp (around token) (readBackupVersion backup (some seed)) h Post s w := by
  cases backup with
  | none => exact hk _ _ _ _ (Goes.refl h) rfl (Nat.zero_le _) hw
  | some envelope =>
    simp only [readBackupVersion, Proc.bind_eq, wp_bind]
    refine wp_ask_around fun c r w₁ w₂ w₃ h₁ hc he h₃ => ?_
    simp only [exec, Option.some.injEq, Prod.mk.injEq] at he
    obtain ⟨rfl, rfl⟩ := he
    refine hk _ _ _ _ ((Goes.refl h).cons rfl) rfl ?_ ((hw.rely h₁).rely h₃)
    refine Nat.le_trans ?_ (Nat.le_trans hb (Nat.le_trans h₁.backup h₃.backup))
    simp only [opened, verifyBackupEnvelope]
    split
    · exact Nat.le_refl _
    · exact Nat.zero_le _

/-- Only a running node exports. -/
theorem wp_exportBackup {Post : PostCond World Request Answer Err Envelope}
    (hw : Pending token seed v running w)
    (hok : running = true → ∀ envelope w₁ w₂, v ≤ envelope.stateVersion →
      Pending token seed v running w₂ →
      Post (⟨.exportBackup, .ok envelope, w₁⟩ :: h) (.ok envelope) w₂ w₂)
    (herr : running = false → ∀ e w₁ w₂, Pending token seed v running w₂ →
      Post (⟨.exportBackup, .error e, w₁⟩ :: h) (.error e) w₂ w₂) :
    wp (around token) (ask .exportBackup) h Post s w := by
  refine wp_ask_around fun c r w₁ w₂ w₃ h₁ hc he h₃ => ?_
  obtain rfl := hc.resolve_right fun hq => by cases hq
  have hw₁ := hw.rely h₁
  simp only [exec, if_true, Option.some.injEq, Prod.mk.injEq] at he
  obtain ⟨rfl, rfl⟩ := he
  cases running with
  | true =>
    have hrun : (w₁.node token).wallet = .running := of_decide_eq_true hw₁.wallet
    have hseed : (w₁.node token).store.db.seed = some seed := hw₁.seed
    rw [exportBackup, if_pos hrun, hseed]
    exact hok rfl _ _ _ hw₁.version (hw₁.rely h₃)
  | false =>
    have hrun : (w₁.node token).wallet ≠ .running := of_decide_eq_false hw₁.wallet
    rw [exportBackup_of_not_running hrun]
    exact herr rfl _ _ _ (hw₁.rely h₃)

theorem wp_uploadBackup {envelope : Envelope} {Post : PostCond World Request Answer Err Unit}
    (hw : Pending token seed v running w)
    (hk : ∀ w₁ w₂, envelope.stateVersion ≤ w₂.drive.backupVersion →
      Pending token seed v running w₂ →
      Post (⟨.uploadBackup envelope, .ok (), w₁⟩ :: h) (.ok ()) w₂ w₂) :
    wp (around token) (ask (.uploadBackup envelope)) h Post s w := by
  refine wp_ask_around fun c r w₁ w₂ w₃ h₁ hc he h₃ => ?_
  obtain rfl := hc.resolve_right fun hq => by cases hq
  simp only [exec, if_true, reduceCtorEq, if_false, Option.some.injEq, Prod.mk.injEq] at he
  obtain ⟨rfl, rfl⟩ := he
  have hw₁ := hw.rely h₁
  have hw₂ : Pending token seed v running (w₁.upload envelope) :=
    ⟨hw₁.wallet, hw₁.seed, hw₁.version, hw₁.lease, hw₁.noAck⟩
  exact hk _ _ h₃.backup (hw₂.rely h₃)

/-- The ack lands in the lease record of now. -/
theorem wp_ack {n : Nat} {Post : PostCond World Request Answer Err Unit}
    (hw : Pending token seed v running w)
    (hk : ∀ h' w', Goes h h' → w.drive.backupVersion ≤ w'.drive.backupVersion →
      (∃ a, ackOf token w' = some a ∧ a.flushedVersion = n) → Post h' (.ok ()) w' w') :
    wp (around token) (writeHandoffAck token n) h Post s w := by
  simp only [writeHandoffAck, Proc.bind_eq, wp_bind, wp_rescue]
  refine wp_ask_around fun c r w₁ w₂ w₃ h₁ hc he h₃ => ?_
  obtain rfl := hc.resolve_right fun hq => by cases hq
  simp only [exec, if_true, Option.some.injEq, Prod.mk.injEq] at he
  obtain ⟨rfl, rfl⟩ := he
  obtain ⟨base, hbase⟩ := Option.isSome_iff_exists.mp (hw.rely h₁).lease
  rw [hbase]
  simp only [wp_bind, wp_get]
  refine wp_ask_around fun c r w₄ w₅ w₆ h₄ hc he h₆ => ?_
  obtain rfl := hc.resolve_right fun hq => by cases hq
  simp only [exec, if_true, reduceCtorEq, if_false, Option.some.injEq, Prod.mk.injEq] at he
  obtain ⟨rfl, rfl⟩ := he
  refine hk _ _ (((Goes.refl h).cons rfl).cons rfl) ?_
    ⟨{ from_ := token, flushedVersion := n, at_ := w₃.clock }, h₆.ack.trans ?_, rfl⟩
  · exact Nat.le_trans (Nat.le_trans h₁.backup h₃.backup) (Nat.le_trans h₄.backup h₆.backup)
  · simp [ackOf, World.writeLease, Drive.lease, ackedRecord, Option.filter]

/-! ## What the history says -/

/-- The one stop of a handler. -/
structure Stopped (r₀ : Except Err Unit) (w₀ : World) (h : List RoamEntry) : Prop where
  mem : ⟨.stopNode, r₀, w₀⟩ ∈ h
  only : ∀ r w₁, ⟨.stopNode, r, w₁⟩ ∈ h → r = r₀ ∧ w₁ = w₀

/-- What the handler saw when it looked: its local version was at least `v`, and the backup this
one. -/
structure Looked (seed : String) (v : Nat) (envelope : Option Envelope) (h : List RoamEntry) : Prop where
  reads : ∀ info w₁, ⟨.readLocal, .ok info, w₁⟩ ∈ h →
    v ≤ info.stateVersion ∧ info.seedHex = some seed
  fetched : ∀ e w₁, ⟨.fetchBackup, .ok e, w₁⟩ ∈ h → e = envelope

section

variable {r₀ : Except Err Unit} {w₀ : World} {h' : List RoamEntry} {envelope : Option Envelope}

theorem Stopped.first : Stopped r₀ w₀ [⟨.stopNode, r₀, w₀⟩] := by
  refine ⟨List.mem_singleton_self _, fun r w₁ hr => ?_⟩
  cases List.mem_singleton.mp hr
  exact ⟨rfl, rfl⟩

theorem Stopped.cons (hs : Stopped r₀ w₀ h) {e : RoamEntry} (he : e.request ≠ .stopNode) :
    Stopped r₀ w₀ (e :: h) := by
  refine ⟨List.mem_cons_of_mem _ hs.mem, fun r w₁ hr => ?_⟩
  rcases List.mem_cons.mp hr with rfl | hr
  · exact absurd rfl he
  · exact hs.only r w₁ hr

theorem Stopped.goes (hs : Stopped r₀ w₀ h) (hg : Goes h h') : Stopped r₀ w₀ h' :=
  ⟨hg.old hs.mem, fun r w₁ hr => hs.only r w₁ (hg.mem rfl hr)⟩

theorem Looked.first : Looked seed v envelope [⟨.stopNode, r₀, w₀⟩] := by
  refine ⟨fun info w₁ hr => ?_, fun e w₁ he => ?_⟩
  · cases List.mem_singleton.mp hr
  · cases List.mem_singleton.mp he

theorem Looked.read (hl : Looked seed v envelope h) {info : LocalInfo}
    (hv : v ≤ info.stateVersion) (hs : info.seedHex = some seed) :
    Looked seed v envelope (⟨.readLocal, .ok info, w⟩ :: h) := by
  refine ⟨fun info' w' hr => ?_, fun e w' he => ?_⟩
  · rcases List.mem_cons.mp hr with heq | hr
    · cases heq
      exact ⟨hv, hs⟩
    · exact hl.reads info' w' hr
  · rcases List.mem_cons.mp he with heq | he
    · cases heq
    · exact hl.fetched e w' he

theorem Looked.fetch (hl : Looked seed v envelope h) :
    Looked seed v envelope (⟨.fetchBackup, .ok envelope, w⟩ :: h) := by
  refine ⟨fun info w' hr => ?_, fun e w' he => ?_⟩
  · rcases List.mem_cons.mp hr with heq | hr
    · cases heq
    · exact hl.reads info w' hr
  · rcases List.mem_cons.mp he with heq | he
    · cases heq
      rfl
    · exact hl.fetched e w' he

theorem Looked.goes (hl : Looked seed v envelope h) (hg : Goes h h') : Looked seed v envelope h' :=
  ⟨fun info w₁ hr => hl.reads info w₁ (hg.mem rfl hr), fun e w₁ he => hl.fetched e w₁ (hg.mem rfl he)⟩

theorem Looked.not_caughtUp (hl : Looked seed v envelope h) (hlt : opened envelope (some seed) < v) :
    ¬ CaughtUp h := by
  rintro ⟨info, w₁, e, w₂, hread, hfetch, hle⟩
  obtain ⟨hv, hs⟩ := hl.reads info w₁ hread
  rw [hl.fetched e w₂ hfetch, hs] at hle
  omega

/-- The ack was written, after a look that found the backup caught up, or after a stop that failed. -/
theorem settled_iff_of_acked (hs : Stopped r₀ w₀ h) (hv : localVersion token w₀ ≤ w.drive.backupVersion)
    (hack : ∃ a, ackOf token w = some a ∧ a.flushedVersion ≤ w.drive.backupVersion)
    (hwhy : CaughtUp h ∨ StopFailed h) : Settled token h w ↔ CaughtUp h ∨ StopFailed h := by
  refine iff_of_true ⟨fun r w₁ hr => ?_, hack⟩ hwhy
  obtain ⟨-, rfl⟩ := hs.only r w₁ hr
  exact hv

/-- The export failed, and with it the ack. -/
theorem settled_iff_of_missed (hs : Stopped (.ok ()) w₀ h) (hno : ackOf token w = none)
    (hbehind : ¬ CaughtUp h) : Settled token h w ↔ CaughtUp h ∨ StopFailed h := by
  refine iff_of_false (fun hset => ?_) ?_
  · obtain ⟨a, ha, -⟩ := hset.acked
    rw [hno] at ha
    cases ha
  · rintro (hc | ⟨e, w₁, he⟩)
    · exact hbehind hc
    · cases (hs.only _ w₁ he).1

end

/-! ## The handlers -/

section

variable {r₀ : Except Err Unit} {w₀ : World}

/-- What the stop leaves. -/
structure After (token seed : String) (r₀ : Except Err Unit) (w₀ : World) (h : List RoamEntry) (w : World) :
    Prop where
  pending : Pending token seed (localVersion token w₀) (decide (r₀ ≠ .ok ())) w
  stopped : Stopped r₀ w₀ h
  looked : ∀ v envelope, Looked seed v envelope h

theorem eq_error_of_ne_ok (hr : decide (r₀ ≠ .ok ()) = true) : ∃ e, r₀ = .error e := by
  cases r₀ with
  | ok u => exact absurd rfl (of_decide_eq_true hr)
  | error e => exact ⟨e, rfl⟩

theorem eq_ok_of_not_ne_ok (hr : decide (r₀ ≠ .ok ()) = false) : r₀ = .ok () := by
  cases r₀ with
  | ok u => rfl
  | error e => exact absurd (fun he => by cases he) (of_decide_eq_false hr)

theorem wp_flushAndAck_around (hw : After token seed r₀ w₀ h w) :
    wp (around token) (flushAndAck token) h
      (fun h' _ _ w' => Settled token h' w' ↔ CaughtUp h' ∨ StopFailed h') s w := by
  simp only [flushAndAck, flushTracked, updatePage, Proc.bind_eq, wp_bind]
  refine wp_readLocal hw.pending fun info w₁ w₂ hv hseed hw₂ => ?_
  refine wp_fetchBackup hw₂ fun envelope w₃ w₄ hb hw₄ => ?_
  have hread : ⟨.readLocal, .ok info, w₁⟩ ∈
      (⟨.fetchBackup, .ok envelope, w₃⟩ :: ⟨.readLocal, .ok info, w₁⟩ :: h : List RoamEntry) := by
    simp
  have hfetch : ⟨.fetchBackup, .ok envelope, w₃⟩ ∈
      (⟨.fetchBackup, .ok envelope, w₃⟩ :: ⟨.readLocal, .ok info, w₁⟩ :: h : List RoamEntry) := by
    simp
  have hstop := (hw.stopped.cons (e := ⟨.readLocal, .ok info, w₁⟩) (by simp)).cons
    (e := ⟨.fetchBackup, .ok envelope, w₃⟩) (by simp)
  have hlook := ((hw.looked info.stateVersion envelope).read (w := w₁) (Nat.le_refl _) hseed).fetch
    (w := w₃)
  simp only [hseed]
  refine wp_readVersion hw₄ hb fun h₅ version s₅ w₅ hg hversion hle hw₅ => ?_
  simp only [hversion]
  split
  · -- local is ahead
    rename_i hlt
    simp only [wp_bind]
    refine wp_readLocal hw₅ fun info' w₆ w₇ hv' hseed' hw₇ => ?_
    have hstop' := (hstop.goes hg).cons (e := ⟨.readLocal, .ok info', w₆⟩) (by simp)
    have hlook' := (hlook.goes hg).read (w := w₆) hv' hseed'
    refine wp_exportBackup hw₇ (fun hrun flushed w₈ w₉ hge hw₉ => ?_) fun hrun e w₈ w₉ hw₉ => ?_
    · -- the node still runs
      refine wp_uploadBackup hw₉ fun w₁₀ w₁₁ hup hw₁₁ => ?_
      simp only [wp_modify]
      refine wp_ack (hw₁₁.setPage (f := fun p => _) rfl rfl) fun h₁₂ w₁₂ hg' hmono hack => ?_
      obtain ⟨a, ha, hn⟩ := hack
      have hstop'' := ((hstop'.cons (e := ⟨.exportBackup, .ok flushed, w₈⟩) (by simp)).cons
        (e := ⟨.uploadBackup flushed, .ok (), w₁₀⟩) (by simp)).goes hg'
      have hbackup : info'.stateVersion ≤ w₁₂.drive.backupVersion :=
        Nat.le_trans (Nat.le_trans hge hup) hmono
      refine settled_iff_of_acked hstop'' ?_ ⟨a, ha, hn ▸ hbackup⟩ (.inr ?_)
      · exact Nat.le_trans hv (Nat.le_trans hv' hbackup)
      · obtain ⟨e, rfl⟩ := eq_error_of_ne_ok hrun
        exact ⟨e, w₀, hstop''.mem⟩
    · -- it was stopped
      have hok := eq_ok_of_not_ne_ok hrun
      subst hok
      exact settled_iff_of_missed (hstop'.cons (by simp)) hw₉.noAck
        ((hlook'.goes ((Goes.refl _).cons rfl)).not_caughtUp (by omega))
  · -- the backup has it all
    rename_i hge
    refine wp_ack hw₅ fun h₆ w₆ hg' hmono hack => ?_
    obtain ⟨a, ha, hn⟩ := hack
    have hbackup : info.stateVersion ≤ w₆.drive.backupVersion :=
      Nat.le_trans (Nat.le_trans (Nat.le_of_not_lt hge) hle) hmono
    refine settled_iff_of_acked ((hstop.goes hg).goes hg') (Nat.le_trans hv hbackup)
      ⟨a, ha, hn ▸ hbackup⟩ (.inl ⟨info, w₁, envelope, w₃, hg'.old (hg.old hread),
        hg'.old (hg.old hfetch), ?_⟩)
    rw [hseed]
    exact Nat.le_of_not_lt hge

theorem wp_flushAndAckPwa (hw : After token seed r₀ w₀ h w) :
    wp (around token) (flushAndAckPwa token) h
      (fun h' _ _ w' => Settled token h' w' ↔ CaughtUp h' ∨ StopFailed h') s w := by
  simp only [flushAndAckPwa, localStateVersion, driveBackupVersion, Proc.bind_eq, Proc.pure_eq,
    wp_bind, wp_attempt]
  refine wp_readLocal hw.pending fun info w₁ w₂ hv hseed hw₂ => ?_
  simp only [wp_done]
  refine wp_readLocal hw₂ fun info' w₃ w₄ hv' hseed' hw₄ => ?_
  simp only [hseed']
  refine wp_fetchBackup hw₄ fun envelope w₅ w₆ hb hw₆ => ?_
  have hread : ⟨.readLocal, .ok info, w₁⟩ ∈ (⟨.fetchBackup, .ok envelope, w₅⟩ ::
      ⟨.readLocal, .ok info', w₃⟩ :: ⟨.readLocal, .ok info, w₁⟩ :: h : List RoamEntry) := by
    simp
  have hfetch : ⟨.fetchBackup, .ok envelope, w₅⟩ ∈ (⟨.fetchBackup, .ok envelope, w₅⟩ ::
      ⟨.readLocal, .ok info', w₃⟩ :: ⟨.readLocal, .ok info, w₁⟩ :: h : List RoamEntry) := by
    simp
  have hstop := ((hw.stopped.cons (e := ⟨.readLocal, .ok info, w₁⟩) (by simp)).cons
    (e := ⟨.readLocal, .ok info', w₃⟩) (by simp)).cons (e := ⟨.fetchBackup, .ok envelope, w₅⟩) (by simp)
  have hlook := (((hw.looked info.stateVersion envelope).read (w := w₁) (Nat.le_refl _) hseed).read
    (w := w₃) hv' hseed').fetch (w := w₅)
  refine wp_readVersion hw₆ hb fun h₇ version s₇ w₇ hg hversion hle hw₇ => ?_
  simp only [wp_done, hversion]
  split
  · -- local is ahead
    rename_i hlt
    simp only [wp_bind]
    refine wp_exportBackup hw₇ (fun hrun flushed w₈ w₉ hge hw₉ => ?_) fun hrun e w₈ w₉ hw₉ => ?_
    · -- the node still runs
      refine wp_uploadBackup hw₉ fun w₁₀ w₁₁ hup hw₁₁ => ?_
      refine wp_ack hw₁₁ fun h₁₂ w₁₂ hg' hmono hack => ?_
      obtain ⟨a, ha, hn⟩ := hack
      have hstop' := (((hstop.goes hg).cons (e := ⟨.exportBackup, .ok flushed, w₈⟩) (by simp)).cons
        (e := ⟨.uploadBackup flushed, .ok (), w₁₀⟩) (by simp)).goes hg'
      have hbackup : info.stateVersion ≤ w₁₂.drive.backupVersion :=
        Nat.le_trans hv' (Nat.le_trans (Nat.le_trans hge hup) hmono)
      refine settled_iff_of_acked hstop' (Nat.le_trans hv hbackup) ⟨a, ha, hn ▸ hbackup⟩ (.inr ?_)
      obtain ⟨e, rfl⟩ := eq_error_of_ne_ok hrun
      exact ⟨e, w₀, hstop'.mem⟩
    · -- it was stopped
      have hok := eq_ok_of_not_ne_ok hrun
      subst hok
      exact settled_iff_of_missed ((hstop.goes hg).cons (by simp)) hw₉.noAck
        (((hlook.goes hg).goes ((Goes.refl _).cons rfl)).not_caughtUp hlt)
  · -- the backup has it all
    rename_i hge
    refine wp_ack hw₇ fun h₈ w₈ hg' hmono hack => ?_
    obtain ⟨a, ha, hn⟩ := hack
    have hbackup : info.stateVersion ≤ w₈.drive.backupVersion :=
      Nat.le_trans (Nat.le_trans (Nat.le_of_not_lt hge) hle) hmono
    refine settled_iff_of_acked ((hstop.goes hg).goes hg') (Nat.le_trans hv hbackup)
      ⟨a, ha, hn ▸ hbackup⟩ (.inl ⟨info, w₁, envelope, w₅, hg'.old (hg.old hread),
        hg'.old (hg.old hfetch), ?_⟩)
    rw [hseed]
    exact Nat.le_of_not_lt hge

end

/-- A page whose node runs, and a lease record that has no ack of it. -/
structure Evicted (token : String) (w : World) : Prop where
  runs : w.Runs token
  seed : (w.store token).db.seed.isSome = true
  lease : w.drive.lease.isSome = true
  noAck : ackOf token w = none

/-- The stop of a running node: it succeeds or the node goes on. -/
theorem wp_stopNode (hw : Evicted token w) {Post : PostCond World Request Answer Err Unit}
    (hk : ∀ seed r w₁ w₂, After token seed r w₁ (⟨.stopNode, r, w₁⟩ :: []) w₂ →
      Post [⟨.stopNode, r, w₁⟩] r w₂ w₂) :
    wp (around token) (ask .stopNode) [] Post s w := by
  obtain ⟨seed, hseed⟩ := Option.isSome_iff_exists.mp hw.seed
  refine wp_ask_around fun c r w₁ w₂ w₃ h₁ _ he h₃ => ?_
  have hw₁ : Pending token seed (localVersion token w₁) true w₁ :=
    { (Pending.rely (v := 0) ⟨decide_eq_true hw.runs, hseed, Nat.zero_le _, hw.lease, hw.noAck⟩ h₁) with
      version := Nat.le_refl _ }
  refine hk seed r w₁ w₃ ⟨Pending.rely ?_ h₃, Stopped.first, fun _ _ => Looked.first⟩
  have hrun : (w₁.node token).wallet = .running := of_decide_eq_true hw₁.wallet
  have hset := hw₁.setNode (stopNode_db token (c = .ok) (w₁.node token)).1
  simp only [exec, World.act, Option.some.injEq, Prod.mk.injEq] at he
  obtain ⟨hr, rfl⟩ := he
  have hsame : decide (r ≠ .ok ()) =
      decide ((stopNode token (c = .ok) (w₁.node token)).2.wallet = .running) := by
    rw [← hr]
    by_cases hc : c = .ok <;> simp [stopNode, hrun, hc, Except.mapError]
  rw [hsame]
  exact hset.noteIf _ _

theorem wp_onEvicted_around (hw : Evicted token w) (hlive : (w.pages token).disposed = false)
    (claimant : Option RoamingLeaseRecord) :
    wp (around token) (onEvicted token claimant) []
      (fun h' _ _ w' => Settled token h' w' ↔ CaughtUp h' ∨ StopFailed h') s w := by
  simp only [onEvicted, setView, updatePage, Proc.bind_eq, Proc.pure_eq, wp_bind, wp_get, hlive,
    Bool.false_eq_true, if_false, wp_attempt]
  refine wp_stopNode hw fun seed r w₁ w₂ hafter => ?_
  simp only [wp_modify]
  refine (wp_flushAndAck_around hafter).mono fun h' r' s' w' hiff => ?_
  exact ⟨fun hset => hiff.mp ⟨hset.flushed, hset.acked⟩, fun hor =>
    ⟨(hiff.mpr hor).flushed, (hiff.mpr hor).acked⟩⟩

theorem wp_fence (hw : Evicted token w) :
    wp (around token) (fence token) []
      (fun h' _ _ w' => Settled token h' w' ↔ CaughtUp h' ∨ StopFailed h') s w := by
  simp only [fence, Proc.bind_eq, Proc.pure_eq, wp_bind, wp_attempt]
  exact wp_stopNode hw fun seed r w₁ w₂ hafter => wp_flushAndAckPwa hafter

/-- A request that does not write the lease file leaves it unreleased. -/
theorem not_released {q : Request} {c : Choice} {r : Except Err (Answer q)}
    (hno : ¬ ReleasedBy token w) (h₁ : Around token w w₁) (he : exec token q c w₁ = some (r, w₂))
    (hq : q = .stopNode ∨ q = .readLocal ∨ q = .exportBackup) (h₃ : Around token w₂ w₃) :
    ¬ ReleasedBy token w₃ := by
  intro hrel
  refine hno (h₁.released.mp ?_)
  have hrel₂ := h₃.released.mp hrel
  have hdrive : w₂.drive = w₁.drive := by
    rcases hq with rfl | rfl | rfl
    · simp only [exec, World.act, Option.some.injEq, Prod.mk.injEq] at he
      rw [← he.2]
      exact noteIf_drive _ _ _
    · simp only [exec, Option.some.injEq, Prod.mk.injEq] at he
      rw [← he.2]
    · simp only [exec, Option.some.injEq, Prod.mk.injEq] at he
      rw [← he.2]
  simp only [ReleasedBy, hdrive] at hrel₂
  exact hrel₂

/-- A stop that succeeds leaves nothing to export. -/
theorem stopped_wallet {c : Choice} (he : exec token .stopNode c w₁ = some (.ok (), w₂)) :
    (w₂.pages token).wallet = .absent := by
  simp only [exec, World.act, Option.some.injEq, Prod.mk.injEq] at he
  obtain ⟨hr, hw₂⟩ := he
  have habsent : (stopNode token (c = .ok) (w₁.node token)).2.wallet = .absent := by
    cases hs : stopNode token (c = .ok) (w₁.node token) with
    | mk r n =>
      rw [hs] at hr
      cases r with
      | ok u => exact stopNode_wallet hs
      | error e => cases hr
  have hpages : w₂.pages =
      (w₁.setNode token (stopNode token (c = .ok) (w₁.node token)).2).pages := by
    rw [← hw₂]
    exact noteIf_pages _ _ _
  rw [hpages, World.setNode_self]
  exact habsent

/-- A running session that is disposed of never releases the lease. -/
theorem wp_dispose_around (hrunning : (w.pages token).view = .running) (hno : ¬ ReleasedBy token w) :
    wp (around token) (dispose token) [] (fun _ _ _ w' => ¬ Closed token w') s w := by
  simp only [dispose, disposeRunning, flushTracked, setView, updatePage, Proc.bind_eq, wp_bind,
    wp_get, wp_modify, World.setPage_self, hrunning, if_true, wp_attempt]
  refine wp_ask_around fun c r w₁ w₂ w₃ h₁ _ he h₃ => ?_
  have hno₃ : ¬ ReleasedBy token w₃ :=
    not_released (show ¬ ReleasedBy token (w.setPage token _) from hno) h₁ he (.inl rfl) h₃
  cases r with
  | error e => exact fun hclosed => hno₃ hclosed.released
  | ok u =>
    have habsent₃ : (w₃.pages token).wallet = .absent := h₃.wallet.trans (stopped_wallet he)
    refine wp_ask_around fun c r w₄ w₅ w₆ h₄ hc he h₆ => ?_
    have hno₆ := not_released hno₃ h₄ he (.inr (.inl rfl)) h₆
    obtain rfl := hc.resolve_right fun hq => by cases hq
    simp only [exec, if_true, Option.some.injEq, Prod.mk.injEq] at he
    obtain ⟨rfl, rfl⟩ := he
    have habsent₆ : (w₆.pages token).wallet = .absent := (h₆.wallet.trans h₄.wallet).trans habsent₃
    refine wp_ask_around fun c r w₇ w₈ w₉ h₇ hc he h₉ => ?_
    have hno₉ := not_released hno₆ h₇ he (.inr (.inr rfl)) h₉
    obtain rfl := hc.resolve_right fun hq => by cases hq
    have hstopped : (w₇.node token).wallet ≠ .running := by
      have habsent : (w₇.node token).wallet = .absent := h₇.wallet.trans habsent₆
      rw [habsent]
      exact fun hrun => by cases hrun
    simp only [exec, if_true, exportBackup_of_not_running hstopped, Option.some.injEq,
      Prod.mk.injEq] at he
    obtain ⟨rfl, rfl⟩ := he
    exact fun hclosed => hno₉ hclosed.released

/-! ## Among the others -/

/-- However the others move meanwhile: an evicted page leaves its state flushed and acknowledged
exactly when the backup it finds after the stop has it already, or the stop failed; and a running
session that is disposed of is never closed cleanly. -/
theorem settled_iff_caughtUp (token : String) (h' : List RoamEntry) (r : Except Err Unit)
    (w w' : World) :
    (∀ claimant, Evicted token w → (w.pages token).disposed = false →
      Solo (around token) (onEvicted token claimant) [] w h' r w' →
      (Settled token h' w' ↔ CaughtUp h' ∨ StopFailed h')) ∧
    (Evicted token w → Solo (around token) (fence token) [] w h' r w' →
      (Settled token h' w' ↔ CaughtUp h' ∨ StopFailed h')) ∧
    ((w.pages token).view = .running → ¬ ReleasedBy token w →
      Solo (around token) (dispose token) [] w h' r w' → ¬ Closed token w') := by
  refine ⟨fun claimant hw hlive run => ?_, fun hw run => ?_, fun hrunning hno run => ?_⟩
  · obtain ⟨-, hiff⟩ := run.sound (fun _ _ _ _ => trivial) (wp_onEvicted_around (s := w) hw hlive claimant)
    exact hiff
  · obtain ⟨-, hiff⟩ := run.sound (fun _ _ _ _ => trivial) (wp_fence (s := w) hw)
    exact hiff
  · obtain ⟨-, hnot⟩ := run.sound (fun _ _ _ _ => trivial) (wp_dispose_around (s := w) hrunning hno)
    exact hnot

/-- Every request is answered. -/
def answer (token : String) (q : Request) (w : World) : Option (Except Err (Answer q) × World) :=
  exec token q .ok w

theorem solo_of_answered {p : Roam Unit} {h' : List RoamEntry} {r : Except Err Unit} {w' : World}
    (hp : p.record (fun _ w => w) (answer token) [] w = some (h', r, w')) : Solo (around token) p [] w h' r w' :=
  Proc.solo_of_record (Around.refl token) (fun _ => Around.refl token) (fun _ _ _ _ _ he => ⟨.ok, Or.inl rfl, he⟩) hp

/-- An embed at version 5 whose lease another owner has taken, over a backup. -/
def evictedOver (backup : Nat) : World where
  drive := {
    firstLease := some {
      owner := "b", origin := "https://b.example", acquiredAt := 0, expiresAt := 120000, seq := 1
      heartbeatStateVersion := 5, phase := .live }
    firstBackup := some ⟨"seed", backup⟩ }
  origins := fun _ => {
    db := { seed := some "seed", stateVersion := 5, channelManager := true }, runLock := some "a" }
  pages := fun _ => {
    origin := "https://a.example", status := .alive, wallet := .running, view := .running }

/-- An upload had brought the backup up to date. -/
theorem settled_iff_caughtUp_uploaded : ∃ h' r w',
    Solo (around "a") (onEvicted "a" none) [] (evictedOver 5) h' r w' ∧
      decide ((ackOf "a" w').isSome = true) = true ∧
      (Settled "a" h' w' ↔ CaughtUp h' ∨ StopFailed h') := by
  have heval : (((onEvicted "a" none).record (fun _ w => w) (answer "a") [] (evictedOver 5)).any fun x =>
      (ackOf "a" x.2.2).isSome) = true := by decide +kernel
  obtain ⟨⟨h', r, w'⟩, hx, hack⟩ := (Option.any_eq_true _ _).mp heval
  have run := solo_of_answered hx
  refine ⟨h', r, w', run, by simpa using hack, ?_⟩
  exact (settled_iff_caughtUp "a" h' r (evictedOver 5) w').1 none
    ⟨by decide, by decide, by decide, by decide⟩ rfl run

/-- Nothing fails: the node is stopped at version 5, its export is refused, and the backup stays at
version 3 without an ack. -/
theorem not_settled_ahead : ¬ ∀ (w w' : World) (h' : List RoamEntry) (r : Except Err Unit),
    Evicted "a" w → (w.pages "a").disposed = false → w.drive.backupVersion < localVersion "a" w →
      Solo (around "a") (onEvicted "a" none) [] w h' r w' → Settled "a" h' w' := by
  intro hall
  have heval : (((onEvicted "a" none).record (fun _ w => w) (answer "a") [] (evictedOver 3)).any fun x =>
      (ackOf "a" x.2.2).isNone) = true := by decide +kernel
  obtain ⟨⟨h', r, w'⟩, hx, hno⟩ := (Option.any_eq_true _ _).mp heval
  obtain ⟨a, ha, -⟩ := (hall (evictedOver 3) w' h' r ⟨by decide, by decide, by decide, by decide⟩
    rfl (by decide) (solo_of_answered hx)).acked
  rw [Option.isNone_iff_eq_none.mp hno] at ha
  cases ha

end LibreWallet.Embed.Eviction
