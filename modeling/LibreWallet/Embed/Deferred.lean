import LibreWallet.Async.Alone
import LibreWallet.Embed.Replaced
import LibreWallet.Roaming.Moves

/-
  Embed/Deferred.lean --- which starts the handoff proof stands behind.

  The proof gate of `roamingBootDecision` waits while a backup is there whose version cannot be
  read: `submitSecret` asks for the proof once the secret is known.  A local wallet whose seed
  does not open the backup is started by the same decision, and no one asks.
-/

set_option autoImplicit false

namespace LibreWallet.Embed.Deferred

open Async Controller Roaming
open Replaced (Call)

/-! ## What is asked for -/

/-- The handoff proof, about the records the session holds, the local wallet and the backup. -/
def actual (token : String) (w : World) (info : LocalInfo) (backup : Option Envelope) :
    HandoffProofInputs where
  lease := (w.pages token).preClaimRecord
  postClaimLease := (w.pages token).postClaimRecord
  backupStateVersion := backup.map (·.stateVersion)
  localSeedPresent := info.seedPresent
  localStateVersion := info.stateVersion

/-- The backup is absent or opens with the local seed. -/
def Opens (info : LocalInfo) (backup : Option Envelope) : Prop :=
  ∀ e ∈ backup, info.seedHex = some e.seedHex

/-- The predecessor released the lease, acknowledged a version that the backup has, or advertised
no more than the local version. -/
def Vouched (i : HandoffProofInputs) : Prop :=
  ∀ lease ∈ i.lease, lease.phase = .released ∨
    (∃ post ack v, i.postClaimLease = some post ∧ post.handoffAck = some ack ∧
      i.backupStateVersion = some v ∧ ack.from_ = lease.owner ∧ ack.flushedVersion ≤ v) ∨
    (i.localSeedPresent = true ∧ advertisedVersionOf lease ≤ i.localStateVersion)

/-- The local wallet that the session read last. -/
def readOf : RoamEntry → Option LocalInfo
  | ⟨.readLocal, .ok info, _⟩ => some info
  | _ => none

def fetchOf : RoamEntry → Option (Option Envelope)
  | ⟨.fetchBackup, .ok backup, _⟩ => some backup
  | _ => none

def lastRead (h : List RoamEntry) : Option LocalInfo := h.findSome? readOf

def lastFetched (h : List RoamEntry) : Option (Option Envelope) := h.findSome? fetchOf

/-- The session started the node, or asked the controller to restore. -/
def Started (h : List RoamEntry) : Prop := ∃ e ∈ h, e.request = .startNode

def Restored (envelope : Envelope) (h : List RoamEntry) : Prop :=
  ∃ e ∈ h, ∃ secret, e.request = .restore envelope secret

theorem ackProves_iff {i : HandoffProofInputs} {lease : RoamingLeaseRecord} :
    ackProves i lease = true ↔ ∃ post ack v, i.postClaimLease = some post ∧ post.handoffAck = some ack ∧
      i.backupStateVersion = some v ∧ ack.from_ = lease.owner ∧ ack.flushedVersion ≤ v := by
  unfold ackProves
  cases hp : i.postClaimLease with
  | none => simp
  | some post =>
    cases ha : post.handoffAck with
    | none => simp [ha]
    | some ack =>
      cases hb : i.backupStateVersion with
      | none =>
        simp [ha]
        omega
      | some v => simp [ha]

theorem isProven_iff_vouched {i : HandoffProofInputs} (ho : i.override = false) :
    (evaluateHandoffProof i).isProven = true ↔ Vouched i := by
  simp only [evaluateHandoffProof, ho, Vouched, ← ackProves_iff]
  cases hl : i.lease with
  | none => simp [HandoffProof.isProven]
  | some lease =>
    cases hp : lease.phase <;> cases ha : ackProves i lease <;>
      by_cases hc : i.localSeedPresent = true ∧ advertisedVersionOf lease ≤ i.localStateVersion <;>
      simp [hp, ha, hc, HandoffProof.isProven]

/-- A proof without a local wallet is one with any. -/
theorem Vouched.local_ {i : HandoffProofInputs} (hv : Vouched i) (hs : i.localSeedPresent = false)
    (seedPresent : Bool) (version : Nat) :
    Vouched { i with localSeedPresent := seedPresent, localStateVersion := version } := by
  intro lease hl
  rcases hv lease hl with hr | hack | ⟨hlocal, -⟩
  · exact .inl hr
  · exact .inr (.inl hack)
  · rw [hs] at hlocal
    cases hlocal

/-! ## The others -/

/-- What the others leave alone: the records the session judges by, and its override. -/
structure Keeps (token : String) (w w' : World) : Prop where
  preClaim : (w'.pages token).preClaimRecord = (w.pages token).preClaimRecord
  postClaim : (w'.pages token).postClaimRecord = (w.pages token).postClaimRecord
  override : (w'.pages token).overrideUnprovenHandoff = (w.pages token).overrideUnprovenHandoff

/-- A call of the session, its requests answered in any way. -/
def session (token : String) : Contract World Request Answer Err Choice :=
  among (exec token) (Keeps token) fun _ _ _ _ => True

variable {token : String} {h h' : List RoamEntry} {s w w₁ w₂ : World} {α : Type}

namespace Keeps

theorem refl (token : String) (w : World) : Keeps token w w := ⟨rfl, rfl, rfl⟩

theorem trans (h₁ : Keeps token w w₁) (h₂ : Keeps token w₁ w₂) : Keeps token w w₂ where
  preClaim := h₂.preClaim.trans h₁.preClaim
  postClaim := h₂.postClaim.trans h₁.postClaim
  override := h₂.override.trans h₁.override

theorem setPage {f : Page → Page}
    (hpre : (f (w.pages token)).preClaimRecord = (w.pages token).preClaimRecord)
    (hpost : (f (w.pages token)).postClaimRecord = (w.pages token).postClaimRecord)
    (ho : (f (w.pages token)).overrideUnprovenHandoff = (w.pages token).overrideUnprovenHandoff) :
    Keeps token w (w.setPage token f) := by
  refine ⟨?_, ?_, ?_⟩
  all_goals
    rw [World.setPage_self]
    assumption

theorem setNode (n : Node) : Keeps token w (w.setNode token n) := by
  refine ⟨?_, ?_, ?_⟩
  all_goals rw [World.setNode_self]

theorem exec {q : Request} {c : Choice} {r : Except Err (Answer q)}
    (he : exec token q c w = some (r, w₁)) : Keeps token w w₁ :=
  exec_moves he (refl token w) (fun _ _ _ => ⟨rfl, rfl, rfl⟩) (fun n _ => setNode n)
    (fun _ _ _ hv => hv.trans ⟨rfl, rfl, rfl⟩) fun _ _ => ⟨rfl, rfl, rfl⟩

end Keeps

theorem keeps_framing (token : String) : Framing (session token) (Keeps token) where
  free := among_free _ _ _
  refl := Keeps.refl token
  trans := Keeps.trans
  rely := fun _ _ h => h

/-- Code that keeps the records, and asks only for what `ok` allows. -/
theorem keeping (token : String) (ok : Request → Bool) :
    Keeping token (session token) (Keeps token) (fun e => ok e.request = true) ok fun _ => true where
  framing := keeps_framing token
  ask := fun _ hq => (keeps_framing token).request fun _ _ _ _ _ _ he => ⟨Keeps.exec he, hq⟩
  view := fun _ _ _ => Keeps.setPage rfl rfl rfl
  stop := fun _ => Keeps.setPage rfl rfl rfl

/-- Neither a start nor a restore. -/
def quiet : Request → Bool
  | .startNode | .restore _ _ => false
  | _ => true

/-- Neither a look at the local wallet or the backup nor a restore. -/
def later : Request → Bool
  | .readLocal | .fetchBackup | .restore _ _ => false
  | _ => true

def Quiet (h : List RoamEntry) : Prop := ∀ e ∈ h, quiet e.request = true

theorem Quiet.adds (hq : Quiet h) (ha : Adds (fun e => quiet e.request = true) h h') : Quiet h' :=
  fun e he => (ha.mem he).elim (hq e) id

theorem Quiet.cons (hq : Quiet h) {e : RoamEntry} (he : quiet e.request = true) : Quiet (e :: h) :=
  hq.adds ((Adds.refl h).cons he)

theorem Quiet.not_started (hq : Quiet h) : ¬ Started h := by
  rintro ⟨e, he, hr⟩
  have := hq e he
  rw [hr] at this
  cases this

theorem Quiet.not_restored (hq : Quiet h) (envelope : Envelope) : ¬ Restored envelope h := by
  rintro ⟨e, he, secret, hr⟩
  have := hq e he
  rw [hr] at this
  cases this

/-! ## What a call may leave -/

/-- A start that was judged: by what the session read last, the proof holds if the backup opens. -/
structure Honest (token : String) (h : List RoamEntry) (w : World) : Prop where
  started : Started h → ∃ info backup, lastRead h = some info ∧ lastFetched h = some backup ∧
    ((evaluateHandoffProof (actual token w info backup)).isProven = true ↔
      Opens info backup ∨ Vouched (actual token w info backup))
  restored : ∀ envelope, Restored envelope h → ∀ info,
    (evaluateHandoffProof (actual token w info (some envelope))).isProven = true

theorem Quiet.honest (hq : Quiet h) (token : String) (w : World) : Honest token h w :=
  ⟨fun hs => absurd hs hq.not_started, fun e hr => absurd hr (hq.not_restored e)⟩

/-- Where the override is not armed, what is left is honest. -/
abbrev leaves (token : String) : PostCond World Request Answer Err Unit :=
  fun h' _ _ w' => (w'.pages token).overrideUnprovenHandoff = false → Honest token h' w'

/-- Code that neither starts nor restores. -/
theorem wp_quiet {p : Roam Unit}
    (hp : Frames (session token) (Keeps token) (fun e => quiet e.request = true) p) (hq : Quiet h) :
    wp (session token) p h (leaves token) s w :=
  hp h s w _ fun _ _ _ w' _ ha _ => (hq.adds ha).honest token w'

theorem actual_keeps (hk : Keeps token w w₁) (info : LocalInfo) (backup : Option Envelope) :
    actual token w₁ info backup = actual token w info backup := by
  simp only [actual, hk.preClaim, hk.postClaim]

theorem wp_ask_session {q : Request} {Post : PostCond World Request Answer Err (Answer q)}
    (hk : ∀ c r w₁ w₂ w₃, Keeps token w w₃ → exec token q c w₁ = some (r, w₂) →
      Post (⟨q, r, w₁⟩ :: h) r w₃ w₃) : wp (session token) (ask q) h Post s w :=
  (keeps_framing token).free.wp_request fun c r w₁ w₂ w₃ h₁ _ he h₃ =>
    hk c r w₁ w₂ w₃ (h₁.trans ((Keeps.exec he).trans h₃)) he

/-- The version that a secret reads from a backup. -/
def versionOf : Option Envelope → Option String → Option Nat
  | some envelope, some secret => if secret = envelope.seedHex then some envelope.stateVersion else none
  | _, _ => none

/-- What was read last stays so. -/
theorem lastRead_of_adds (ha : Adds (fun e => later e.request = true) h h') : lastRead h' = lastRead h := by
  obtain ⟨new, rfl, hn⟩ := ha
  rw [lastRead, List.findSome?_append, List.findSome?_eq_none_iff.mpr fun e he => ?_]
  · rfl
  · unfold readOf
    split
    · exact absurd (hn _ he) (by simp [later])
    · rfl

theorem lastFetched_of_adds (ha : Adds (fun e => later e.request = true) h h') :
    lastFetched h' = lastFetched h := by
  obtain ⟨new, rfl, hn⟩ := ha
  rw [lastFetched, List.findSome?_append, List.findSome?_eq_none_iff.mpr fun e he => ?_]
  · rfl
  · unfold fetchOf
    split
    · exact absurd (hn _ he) (by simp [later])
    · rfl

theorem not_restored_of_adds (hq : Quiet h) (ha : Adds (fun e => later e.request = true) h h')
    (envelope : Envelope) : ¬ Restored envelope h' := by
  rintro ⟨e, he, secret, hr⟩
  rcases ha.mem he with hold | hlater
  · exact hq.not_restored envelope ⟨e, hold, secret, hr⟩
  · rw [hr] at hlater
    cases hlater

/-- Where the backup opens, the gate was asked about the version that it has. -/
theorem vouched_of_opens {info : LocalInfo} {backup : Option Envelope}
    (ho : (w.pages token).overrideUnprovenHandoff = false)
    (hd : roamingBootDecision (bootInputs w token info backup (versionOf backup info.seedHex)) = .start)
    (hopens : Opens info backup) :
    (evaluateHandoffProof (actual token w info backup)).isProven = true := by
  obtain ⟨hseed, hgate⟩ := roamingBootDecision_start hd
  have hversion : versionOf backup info.seedHex = backup.map (·.stateVersion) := by
    cases backup with
    | none => rfl
    | some e => simp [versionOf, hopens e rfl]
  have hnow : (bootInputs w token info backup (versionOf backup info.seedHex)).gateNow = true := by
    rw [hversion]
    cases backup <;> rfl
  have hsame : (bootInputs w token info backup (versionOf backup info.seedHex)).toHandoffProofInputs =
      actual token w info backup := by
    rw [hversion]
    simp only [bootInputs, actual, ho]
  exact hsame ▸ hgate hnow

/-- The start of a local wallet. -/
theorem wp_startGuarded {info : LocalInfo} {backup : Option Envelope} (hq : Quiet h)
    (hread : lastRead h = some info) (hfetch : lastFetched h = some backup)
    (hk : Keeps token w w₁)
    (hd : roamingBootDecision (bootInputs w token info backup (versionOf backup info.seedHex)) = .start) :
    wp (session token) (startGuarded token false) h (leaves token) s w₁ := by
  have hK := keeping token later
  refine hK.startGuarded false (fun _ => rfl) rfl (fun hf => by cases hf) (fun _ => rfl) (fun _ _ => rfl)
    rfl (fun _ => rfl) rfl (hK.nowRunning rfl fun _ => Keeps.setPage rfl rfl rfl) h s w₁ _ ?_
  intro h' r s' w' hk' ha ho
  have hkeep := hk.trans hk'
  refine ⟨fun _ => ⟨info, backup, (lastRead_of_adds ha).trans hread, (lastFetched_of_adds ha).trans hfetch, ?_⟩,
    fun e hr => absurd hr (not_restored_of_adds hq ha e)⟩
  rw [actual_keeps hkeep]
  rw [hkeep.override] at ho
  refine ⟨fun hproven => .inr ((isProven_iff_vouched rfl).mp hproven), fun hor => ?_⟩
  rcases hor with hopens | hvouched
  · exact vouched_of_opens ho hd hopens
  · exact (isProven_iff_vouched rfl).mpr hvouched

/-- The boot decision, once the local wallet and the backup are read. -/
theorem wp_routeClaimed {info : LocalInfo} {backup : Option Envelope} (hq : Quiet h)
    (hread : lastRead h = some info) (hfetch : lastFetched h = some backup) :
    wp (session token) (routeClaimed token info backup (versionOf backup info.seedHex)) h (leaves token) s w := by
  have hhonest : ∀ w', leaves token h (.ok ()) s w' := fun w' _ => hq.honest token w'
  simp only [routeClaimed, Proc.bind_eq, wp_bind, wp_get]
  split
  · simp only [wp_bind, noteEvaluated, wp_modify]
    split
    · exact hhonest _
    · exact hhonest _
    · exact hhonest _
    · exact hhonest _
    · exact wp_startGuarded hq hread hfetch (w := w) ⟨rfl, rfl, rfl⟩ ‹_›
  · split
    · exact hhonest _
    · exact hhonest _
    · exact hhonest _
    · exact hhonest _
    · exact wp_startGuarded hq hread hfetch (Keeps.refl token w) ‹_›

theorem wp_readBackupVersion {backup : Option Envelope} {secret : Option String}
    {Post : PostCond World Request Answer Err (Option Nat)}
    (hk : ∀ h' s' w', Adds (fun e => quiet e.request = true ∧ later e.request = true) h h' →
      Keeps token w w' → Post h' (.ok (versionOf backup secret)) s' w') :
    wp (session token) (readBackupVersion backup secret) h Post s w := by
  unfold readBackupVersion
  split
  · rename_i envelope secret
    simp only [Proc.bind_eq, wp_bind]
    refine wp_ask_session fun c r w₁ w₂ w₃ hkeep he => ?_
    simp only [exec, Option.some.injEq, Prod.mk.injEq] at he
    obtain ⟨rfl, -⟩ := he
    have hversion : versionOf (some envelope) (some secret) =
        if (verifyBackupEnvelope envelope secret).ok then (verifyBackupEnvelope envelope secret).stateVersion
        else none := by
      by_cases hs : secret = envelope.seedHex <;> simp [versionOf, verifyBackupEnvelope, hs]
    exact (congrArg (fun v => Post _ (.ok v) w₃ w₃) hversion).mp
      (hk _ w₃ w₃ ((Adds.refl h).cons ⟨rfl, rfl⟩) hkeep)
  · rename_i hnone
    have hversion : versionOf backup secret = none := by
      unfold versionOf
      split
      · exact absurd rfl (hnone _ _ rfl)
      · rfl
    exact (congrArg (fun v => Post h (.ok v) s w) hversion).mp (hk h s w (Adds.refl h) (Keeps.refl token w))

/-- The tail of a claim: the reads, and the decision. -/
theorem wp_continueClaimed (hq : Quiet h) :
    wp (session token) (continueClaimed token) h (leaves token) s w := by
  simp only [continueClaimed, Proc.bind_eq, wp_bind, wp_attempt]
  refine wp_ask_session fun c r w₁ w₂ w₃ _ _ => ?_
  have hq₁ : Quiet (⟨.readLocal, r, w₁⟩ :: h) := hq.cons rfl
  cases r with
  | error e => exact fun _ => hq₁.honest token _
  | ok info =>
    refine wp_ask_session fun c r w₄ w₅ w₆ _ _ => ?_
    have hq₂ : Quiet (⟨.fetchBackup, r, w₄⟩ :: ⟨.readLocal, .ok info, w₁⟩ :: h) := hq₁.cons rfl
    cases r with
    | error e => exact fun _ => hq₂.honest token _
    | ok backup =>
      simp only [Proc.pure_eq, wp_done, wp_bind]
      refine wp_readBackupVersion fun h' s' w' ha _ => ?_
      have hlater := ha.mono fun _ he => he.2
      refine wp_routeClaimed (hq₂.adds (ha.mono fun _ he => he.1)) ?_ ?_
      · rw [lastRead_of_adds hlater]
        rfl
      · rw [lastFetched_of_adds hlater]
        rfl

/-! ## The calls -/

/-- What the claim of a boot or a takeover asks for. -/
theorem frames_acquire (takeover : Bool) :
    Frames (session token) (Keeps token) (fun e => quiet e.request = true) (acquire token takeover) :=
  (keeping token quiet).acquire takeover rfl rfl rfl (fun _ => rfl) (fun _ _ => rfl)
    fun _ _ => Keeps.setPage rfl rfl rfl

theorem frames_leaseFailureState (e : Err) :
    Frames (session token) (Keeps token) (fun e => quiet e.request = true) (leaseFailureState token e) :=
  (keeping token quiet).leaseFailureState e (fun _ _ => rfl) rfl fun _ => rfl

theorem wp_boot : wp (session token) (boot token) [] (leaves token) s w := by
  have hq₀ : Quiet [] := fun _ he => by cases he
  simp only [boot, setView, updatePage, Proc.bind_eq, wp_bind, wp_modify]
  refine Framing.attempt ((keeping token quiet).peek rfl) _ _ _ _ fun h₁ r s₁ w₁ _ ha => ?_
  have hq := hq₀.adds ha
  cases r with
  | error e => exact fun _ => hq.honest token _
  | ok peeked =>
    cases peeked with
    | error e => exact fun _ => hq.honest token _
    | ok x =>
      obtain ⟨record, state⟩ := x
      simp only [wp_bind, wp_modify]
      split
      · exact fun _ => hq.honest token _
      · rw [wp_bind]
        refine Framing.attempt (frames_acquire false) _ _ _ _ fun h₂ r s₂ w₂ _ ha₂ => ?_
        have hq₂ := hq.adds ha₂
        cases r with
        | error e => exact fun _ => hq₂.honest token _
        | ok claimed =>
          cases claimed with
          | error e => exact wp_quiet (frames_leaseFailureState e) hq₂
          | ok r => exact wp_continueClaimed hq₂

theorem wp_pollTakeover (previousOwner : String) (claimedAt polls : Nat) (hq : Quiet h) :
    wp (session token) (pollTakeover token previousOwner claimedAt polls) h (leaves token) s w := by
  induction polls generalizing h s w with
  | zero => exact fun _ => hq.honest token _
  | succ polls ih =>
    simp only [pollTakeover, setView, updatePage, Proc.bind_eq, wp_bind, wp_get, wp_modify]
    refine Framing.attempt ((keeping token quiet).peek rfl) _ _ _ _ fun h₁ r s₁ w₁ _ ha => ?_
    have hq₁ := hq.adds ha
    cases r with
    | error e => exact fun _ => hq₁.honest token _
    | ok peeked =>
      dsimp only
      split
      · exact fun _ => hq₁.honest token _
      · rw [wp_bind, wp_modify]
        exact wp_continueClaimed hq₁
      · rw [wp_bind, wp_modify]
        exact wp_continueClaimed hq₁
      · rw [wp_bind]
        refine wp_ask_session fun c r w₂ w₃ w₄ _ _ => ?_
        have hq₂ := hq₁.cons (e := ⟨.delayUntil _, r, w₂⟩) rfl
        cases r with
        | error e => exact fun _ => hq₂.honest token _
        | ok u => exact ih hq₂

theorem wp_moveHere (polls : Nat) : wp (session token) (moveHere token polls) [] (leaves token) s w := by
  have hq₀ : Quiet [] := fun _ he => by cases he
  simp only [moveHere, Proc.bind_eq, wp_bind, wp_get]
  split
  · rw [wp_bind]
    refine Framing.attempt (frames_acquire true) _ _ _ _ fun h₁ r s₁ w₁ _ ha => ?_
    have hq := hq₀.adds ha
    cases r with
    | error e => exact fun _ => hq.honest token _
    | ok claimed =>
      cases claimed with
      | error e => exact wp_quiet (frames_leaseFailureState e) hq
      | ok r => exact wp_pollTakeover _ _ _ hq
  · exact fun _ => hq₀.honest token _

/-- A restore, once the proof was asked about the backup that is restored. -/
theorem wp_restoreProven {envelope : Envelope} {secret : String} (hq : Quiet h)
    (hv : (w.pages token).overrideUnprovenHandoff = false →
      Vouched (actual token w ⟨false, 0, none⟩ (some envelope))) (hk : Keeps token w w₁) :
    wp (session token) (restoreProven token envelope secret) h (leaves token) s w₁ := by
  simp only [restoreProven, updatePage, Proc.bind_eq, wp_bind, wp_attempt]
  refine wp_ask_session fun c r w₂ w₃ w₄ hk₂ _ => ?_
  have hend : ∀ h' r' s' w', Keeps token w₄ w' →
      Adds (fun e => quiet e.request = true) (⟨.restore envelope secret, r, w₂⟩ :: h) h' →
      leaves token h' r' s' w' := by
    intro h' _ _ w' hk₃ ha ho
    have hkeep := (hk.trans hk₂).trans hk₃
    rw [hkeep.override] at ho
    refine ⟨?_, ?_⟩
    · rintro ⟨e, he, hr⟩
      rcases ha.mem he with hold | hnew
      · rcases List.mem_cons.mp hold with rfl | hold
        · cases hr
        · exact absurd ⟨e, hold, hr⟩ hq.not_started
      · rw [hr] at hnew
        cases hnew
    · rintro envelope' ⟨e, he, secret', hr⟩ info
      have hsame : envelope' = envelope := by
        rcases ha.mem he with hold | hnew
        · rcases List.mem_cons.mp hold with rfl | hold
          · cases hr
            rfl
          · exact absurd ⟨e, hold, secret', hr⟩ (hq.not_restored envelope')
        · rw [hr] at hnew
          cases hnew
      rw [hsame, actual_keeps hkeep]
      exact (isProven_iff_vouched rfl).mpr ((hv ho).local_ rfl info.seedPresent info.stateVersion)
  have hK := keeping token quiet
  cases r with
  | error e => exact hend _ (.ok ()) w₄ _ (Keeps.setPage rfl rfl rfl) (Adds.refl _)
  | ok u =>
    refine hK.startGuarded true (fun _ => rfl) rfl (fun _ => rfl) (fun hf => by cases hf) (fun _ _ => rfl)
      rfl (fun _ => rfl) rfl (hK.nowRunning rfl fun _ => Keeps.setPage rfl rfl rfl) _ _ _ _ ?_
    intro h' r s' w' hk₃ ha
    exact hend h' r s' w' (Keeps.trans (Keeps.setPage rfl rfl rfl) hk₃) ha

/-- The deferred half of the gate. -/
theorem wp_submitSecret (secret : String) :
    wp (session token) (submitSecret token secret) [] (leaves token) s w := by
  have hq₀ : Quiet [] := fun _ he => by cases he
  simp only [submitSecret, Proc.bind_eq, wp_bind, wp_get]
  split
  · rename_i envelope hview hpending
    rw [wp_bind]
    refine wp_ask_session fun c r w₁ w₂ w₃ _ he => ?_
    have hq := hq₀.cons (e := ⟨.verifyEnvelope envelope secret, r, w₁⟩) rfl
    simp only [exec, Option.some.injEq, Prod.mk.injEq] at he
    obtain ⟨rfl, -⟩ := he
    dsimp only
    split
    · rename_i hok
      simp only [wp_bind, wp_get, noteEvaluated, wp_modify]
      split
      · exact fun _ => hq.honest token _
      · rename_i via hproven
        have hversion : (verifyBackupEnvelope envelope secret).stateVersion = some envelope.stateVersion := by
          unfold verifyBackupEnvelope at hok ⊢
          split at hok
          · rename_i heq
            rw [if_pos heq]
          · cases hok
        refine wp_restoreProven (w := w₃) hq (fun ho => ?_) ⟨rfl, rfl, rfl⟩
        have hinputs : secretInputs w₃ token (verifyBackupEnvelope envelope secret) =
            actual token w₃ ⟨false, 0, none⟩ (some envelope) := by
          simp only [secretInputs, actual, hversion, ho, Option.map_some]
        rw [← isProven_iff_vouched rfl, ← hinputs, hproven]
        rfl
    · exact fun _ => hq.honest token _
  · exact fun _ => hq₀.honest token _

theorem wp_forceRestoreAnyway : wp (session token) (forceRestoreAnyway token) [] (leaves token) s w := by
  have hq₀ : Quiet [] := fun _ he => by cases he
  simp only [forceRestoreAnyway, updatePage, Proc.bind_eq, wp_bind, wp_get]
  split
  · -- the override is armed from here on
    simp only [wp_bind, wp_modify]
    have hK := keeping token fun _ => true
    have hF := keeps_framing token
    have hstart : Frames (session token) (Keeps token) (fun _ => true = true) (startGuarded token false) :=
      hK.startGuarded false (fun _ => rfl) rfl (fun _ => rfl) (fun _ => rfl) (fun _ _ => rfl) rfl
        (fun _ => rfl) rfl (hK.nowRunning rfl fun _ => Keeps.setPage rfl rfl rfl)
    have hclear : Frames (session token) (Keeps token) (fun _ => true = true) (clearPredecessor token) :=
      hK.clearPredecessor rfl rfl (fun _ _ => rfl) fun _ _ => Keeps.setPage rfl rfl rfl
    have hgo : Frames (session token) (Keeps token) (fun _ => true = true) (continueClaimed token) :=
      hK.continueClaimed rfl rfl (fun _ _ => rfl) rfl fun _ _ _ => hK.routeClaimed _ _ _ (fun _ => rfl)
        (fun _ _ => ⟨rfl, rfl, rfl⟩) (fun _ => Keeps.setPage rfl rfl rfl) hstart
    refine hclear _ _ _ _ fun h₁ r s₁ w₁ hk₁ _ => ?_
    have ho₁ : (w₁.pages token).overrideUnprovenHandoff = true := by
      rw [hk₁.override, World.setPage_self]
    cases r with
    | error e =>
      intro ho
      rw [ho₁] at ho
      cases ho
    | ok u =>
      simp only [wp_get]
      split
      · intro ho
        simp only [World.setPage_self, ho₁] at ho
        cases ho
      · refine hgo _ _ _ _ fun h₂ r s₂ w₂ hk₂ _ ho => ?_
        rw [hk₂.override, ho₁] at ho
        cases ho
  · exact fun _ => hq₀.honest token _

theorem wp_call (call : Call) :
    wp (session token) (call.code token) [] (leaves token) s w := by
  cases call with
  | boot => exact wp_boot
  | moveHere polls => exact wp_moveHere polls
  | submitSecret secret => exact wp_submitSecret secret
  | forceRestoreAnyway => exact wp_forceRestoreAnyway

/-! ## Every call -/

/-- In every call of a session whose override is not armed: whenever it starts the node, the handoff
proof, about the local wallet and the backup that it read, holds exactly if the backup is absent or
opens with the local seed, or else the predecessor vouched for it; and whatever it restores, the proof
holds for. -/
theorem proven_iff_opens (token : String) (call : Call) (w w' : World) (h : List RoamEntry)
    (r : Except Err Unit) (run : Solo (session token) (call.code token) [] w h r w')
    (ho : (w'.pages token).overrideUnprovenHandoff = false) :
    (Started h → ∃ info backup, lastRead h = some info ∧ lastFetched h = some backup ∧
      ((evaluateHandoffProof (actual token w' info backup)).isProven = true ↔
        Opens info backup ∨ Vouched (actual token w' info backup))) ∧
    ∀ envelope, Restored envelope h → ∀ info,
      (evaluateHandoffProof (actual token w' info (some envelope))).isProven = true := by
  obtain ⟨s', hl⟩ := run.sound (fun _ _ _ _ => trivial) (wp_call (s := w) call)
  exact ⟨(hl ho).started, (hl ho).restored⟩

/-- Every request is answered, and a delay fires when it is due. -/
def answer (token : String) (q : Request) (w : World) : Option (Except Err (Answer q) × World) :=
  exec token q .ok w

def wait (q : Request) (w : World) : World :=
  match q with
  | .delayUntil deadline => { w with clock := max w.clock deadline }
  | _ => w

theorem solo_of_answered {call : Call} {r : Except Err Unit} {w' : World}
    (hp : (call.code token).record wait (answer token) [] w = some (h, r, w')) :
    Solo (session token) (call.code token) [] w h r w' := by
  refine Proc.solo_of_record (Keeps.refl token) (fun q w => ?_) (fun _ _ _ _ _ he => ⟨.ok, trivial, he⟩) hp
  cases q <;> exact ⟨rfl, rfl, rfl⟩

/-- A page with a local wallet at version 5, over a lease record of "b" that has expired and a
backup at version 9. -/
def overB (phase : Phase) (version : Nat) (backup : String) : World where
  clock := 200000
  drive := {
    firstLease := some (Replaced.heldByB 1 version phase)
    firstBackup := some ⟨backup, 9⟩ }
  origins := fun _ => { db := { seed := some "seed", stateVersion := 5, channelManager := true } }
  pages := fun _ => { origin := "https://a.example", status := .alive }

/-- The start of a session is judged. -/
def started (token : String) (x : List RoamEntry × Except Err Unit × World) : Bool :=
  x.1.any (fun e => e.request = .startNode) && !(x.2.2.pages token).overrideUnprovenHandoff

/-- "b" advertises the local version, and the backup opens. -/
theorem proven_iff_opens_ownVersion : ∃ (h : List RoamEntry) (r : Except Err Unit) (w' : World)
    (info : LocalInfo) (backup : Option Envelope),
    Solo (session "a") (Call.boot.code "a") [] (overB .live 5 "seed") h r w' ∧ lastRead h = some info ∧
      lastFetched h = some backup ∧
      ((evaluateHandoffProof (actual "a" w' info backup)).isProven = true ↔
        Opens info backup ∨ Vouched (actual "a" w' info backup)) := by
  have heval : ((Call.boot.code "a").record wait (answer "a") [] (overB .live 5 "seed")).any (started "a") = true := by
    decide +kernel
  obtain ⟨⟨h, r, w'⟩, hx, hs⟩ := (Option.any_eq_true _ _).mp heval
  obtain ⟨hstart, ho⟩ := Bool.and_eq_true_iff.mp hs
  obtain ⟨e, he, hreq⟩ := List.any_eq_true.mp hstart
  have run := solo_of_answered hx
  obtain ⟨info, backup, hread, hfetch, hiff⟩ :=
    (proven_iff_opens "a" .boot (overB .live 5 "seed") w' h r run (by simpa using ho)).1
      ⟨e, he, of_decide_eq_true hreq⟩
  exact ⟨h, r, w', info, backup, run, hread, hfetch, hiff⟩

/-- "b" died at version 9, and the backup does not open with the local seed: the wallet at version 5
is started. -/
theorem not_proven_sealed : ¬ ∀ (call : Call) (w w' : World) (h : List RoamEntry) (r : Except Err Unit)
    (info : LocalInfo) (backup : Option Envelope),
    Solo (session "a") (call.code "a") [] w h r w' → (w'.pages "a").overrideUnprovenHandoff = false →
      Started h → lastRead h = some info → lastFetched h = some backup →
      (evaluateHandoffProof (actual "a" w' info backup)).isProven = true := by
  intro hall
  have heval : ((Call.boot.code "a").record wait (answer "a") [] (overB .live 9 "other")).any (fun x =>
      started "a" x && (lastRead x.1).any fun info => (lastFetched x.1).any fun backup =>
        !(evaluateHandoffProof (actual "a" x.2.2 info backup)).isProven) = true := by
    decide +kernel
  obtain ⟨⟨h, r, w'⟩, hx, hs⟩ := (Option.any_eq_true _ _).mp heval
  obtain ⟨hs, hbad⟩ := Bool.and_eq_true_iff.mp hs
  obtain ⟨hstart, ho⟩ := Bool.and_eq_true_iff.mp hs
  obtain ⟨e, he, hreq⟩ := List.any_eq_true.mp hstart
  obtain ⟨info, hread, hbad⟩ := (Option.any_eq_true _ _).mp hbad
  obtain ⟨backup, hfetch, hbad⟩ := (Option.any_eq_true _ _).mp hbad
  rw [hall .boot (overB .live 9 "other") w' h r info backup (solo_of_answered hx) (by simpa using ho)
    ⟨e, he, of_decide_eq_true hreq⟩ hread hfetch] at hbad
  cases hbad

end LibreWallet.Embed.Deferred
