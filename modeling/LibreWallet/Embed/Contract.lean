import LibreWallet.Async.Logic
import LibreWallet.Embed.Wiring
import Mathlib.Data.List.Infix

/-
  Embed/Contract.lean --- what every step of the embed keeps and respects.

  `Inv` ties each page's variables to the Drive files, `Evolves` is what any step
  may do to the others, `SyncStep` what a page's synchronous code may do, and
  `Obliged` what is true of a request when it takes effect: how its arguments come
  from the procedure's own earlier requests.  They say nothing about any particular
  property of the system; those are derived from them, run by run.
-/

set_option autoImplicit false

namespace LibreWallet.Embed

open Async Controller Roaming

/-! ## The vocabulary -/

/-- The state_version that an origin has on disk. -/
def version (w : World) (origin : String) : Nat := (w.origins origin).db.stateVersion

/-- A restore has reached a controller of the origin, which may lower its version. -/
def Restored (w : World) (origin : String) : Prop := ∃ t, Note.restore t origin ∈ w.log

def Opened (w : World) (token : String) : Prop := (w.pages token).status ≠ .unopened

/-- The proof was asked for about a record that the lease file has held, with
whatever was read back after the claim. -/
structure Judged (d : Drive) (i : HandoffProofInputs) : Prop where
  lease : d.Held i.lease
  postClaim : ∀ r, i.postClaimLease = some r → d.Held (some r)

/-- What a page's variables say about Drive. -/
structure PageInv (d : Drive) (restored : Prop) (token : String) (p : Page) : Prop where
  unopened : p.status = .unopened → p = {}
  postClaim : ∀ r, p.postClaimRecord = some r → d.Held (some r)
  lastWritten : ∀ r, p.lastWritten = some r →
    ∃ x ∈ d.writes, x.author = token ∧ x.record = r ∧ r.owner = token ∧
      ∃ site previous, x.how = .claim site previous
  blocked : ∀ o e, p.view = .blocked o e → d.Held p.preClaimRecord
  needSecret : p.view = .needSecret → d.Held p.preClaimRecord ∧ p.lastWritten.isSome = true
  halted : ∀ r m o, p.view = .halted r m (some o) →
    d.Held p.preClaimRecord ∧ p.lastWritten.isSome = true
  flushed : restored ∨ p.flushedVersion = 0 ∨ ∃ e ∈ d.uploads, p.flushedVersion ≤ e.stateVersion

/-- The invariant of the world. -/
def Inv (w : World) : Prop :=
  ∀ t, PageInv w.drive (Restored w (w.pages t).origin) t (w.pages t)

/-- What every step of the machine respects. -/
structure Evolves (v w : World) : Prop where
  clock : v.clock ≤ w.clock
  firstLease : w.drive.firstLease = v.drive.firstLease
  writes : v.drive.writes <:+ w.drive.writes
  firstBackup : w.drive.firstBackup = v.drive.firstBackup
  uploads : v.drive.uploads <:+ w.drive.uploads
  log : v.log <:+ w.log
  opened : ∀ t, Opened v t → Opened w t
  origin : ∀ t, Opened v t → (w.pages t).origin = (v.pages t).origin
  preClaim : ∀ t, v.drive.Held (v.pages t).preClaimRecord →
    w.drive.Held (w.pages t).preClaimRecord
  override : ∀ t, (v.pages t).overrideUnprovenHandoff = true →
    (w.pages t).overrideUnprovenHandoff = true
  flushed : ∀ t, (v.pages t).flushedVersion ≤ (w.pages t).flushedVersion
  lastWritten : ∀ t, (v.pages t).lastWritten.isSome = true →
    (w.pages t).lastWritten.isSome = true
  seed : ∀ o, (v.origins o).db.seed.isSome = true → (w.origins o).db.seed.isSome = true
  version : ∀ o, Restored w o ∨ version v o ≤ version w o

/-- What synchronous code may do to its own page. -/
structure PageStep (d : Drive) (verb : Verb) (p q : Page) : Prop where
  origin : q.origin = p.origin
  status : q.status = p.status
  wallet : q.wallet = p.wallet
  preClaim : d.Held p.preClaimRecord → d.Held q.preClaimRecord
  override : p.overrideUnprovenHandoff = true → q.overrideUnprovenHandoff = true
  overrideBy : q.overrideUnprovenHandoff = true →
    p.overrideUnprovenHandoff = true ∨ verb = .forceRestoreAnyway
  flushed : p.flushedVersion ≤ q.flushedVersion
  lastWritten : p.lastWritten.isSome = true → q.lastWritten.isSome = true

/-- What the synchronous code of a job does, from a resume to the next `await`. -/
structure SyncStep (j : Job) (s w : World) : Prop where
  clock : w.clock = s.clock
  drive : w.drive = s.drive
  origins : w.origins = s.origins
  others : ∀ u, u ≠ j.token → w.pages u = s.pages u
  page : PageStep s.drive j.verb (s.pages j.token) (w.pages j.token)
  log : ∃ new, w.log = new ++ s.log ∧
    ∀ n ∈ new, ∃ i, n = .evaluated j.token i ∧ Judged s.drive i

/-! ## Obligations -/

/-- The requests of an `acquire` that passed, newest first. -/
def AcquireBlock (token : String) (takeover : Bool) (block : List RoamEntry) : Prop :=
  ∃ (prev : Option RoamingLeaseRecord) (info : LocalInfo) (rec rec' : RoamingLeaseRecord)
    (origin : String) (appName : Option String) (now deadline : Nat)
    (w₀ w₁ w₂ w₃ w₄ : World),
    block =
      [⟨.leaseRead .settle, .ok (some rec'), w₄⟩, ⟨.delayUntil deadline, .ok (), w₃⟩,
        ⟨.leaseWrite (.claim .acquire prev) rec, .ok (), w₂⟩, ⟨.readLocal, .ok info, w₁⟩,
        ⟨.leaseRead .acquire, .ok prev, w₀⟩] ∧
    rec = buildLeaseRecord
      { ownerToken := token, origin, appName, now, previous := prev
        heartbeatStateVersion := info.stateVersion } ∧
    rec'.owner = token ∧ w₂.clock + ACQUIRE_SETTLE_MS ≤ deadline ∧
    w₀.clock ≤ now ∧ now ≤ w₁.clock ∧
    (takeover = false → leaseState prev token now ≠ .foreignLive)

/-- An `acquire` of `token` passed within this history. -/
def Acquired (token : String) (takeover : Bool) (h : List RoamEntry) : Prop :=
  ∃ later block earlier, h = later ++ (block ++ earlier) ∧ AcquireBlock token takeover block

/-- `writeOurRecord`: the record is built from the last lease read, the clock after
it, and the local version read then. -/
def ClaimOk (j : Job) (h : List RoamEntry) (site : ReadSite)
    (prev : Option RoamingLeaseRecord) (rec : RoamingLeaseRecord) : Prop :=
  ∃ (info : LocalInfo) (w₀ w₁ : World) (earlier : List RoamEntry) (origin : String)
    (appName : Option String) (now : Nat),
    h = ⟨.readLocal, .ok info, w₁⟩ :: ⟨.leaseRead site, .ok prev, w₀⟩ :: earlier ∧
    rec = buildLeaseRecord
      { ownerToken := j.token, origin, appName, now, previous := prev
        heartbeatStateVersion := info.stateVersion, clearPredecessor := site = .clear } ∧
    w₀.clock ≤ now ∧ now ≤ w₁.clock ∧
    match site with
    | .acquire =>
      (j.verb = .boot ∧ leaseState prev j.token now ≠ .foreignLive) ∨ j.verb = .moveHere
    | .tick => j.verb = .tick ∧ ∀ r ∈ prev, r.owner = j.token
    | .clear => j.verb = .forceRestoreAnyway ∧ ∃ r, prev = some r ∧ r.owner = j.token
    | _ => False

/-- `release`: over our own record, `clean` only as the close path vouches for it. -/
def ReleaseOk (j : Job) (h : List RoamEntry) (base : RoamingLeaseRecord) (clean : Bool)
    (local_ : Nat) (w : World) : Prop :=
  base.owner = j.token ∧
  match j.verb with
  | .dispose =>
    (∃ info w₁ w₀, local_ = info.stateVersion ∧
      h = [⟨.readLocal, .ok info, w₁⟩, ⟨.leaseRead .release, .ok (some base), w₀⟩]) ∨
    ∃ envelope w₁, ⟨.exportBackup, .ok envelope, w₁⟩ ∈ h
  | .closeSoon =>
    ∃ info w₁, ⟨.readLocal, .ok info, w₁⟩ ∈ h ∧ local_ = info.stateVersion ∧
      (clean = true → local_ ≤ (w.pages j.token).flushedVersion)
  | _ => False

/-- What holds of a lease write when it lands. -/
def WriteOk (j : Job) (h : List RoamEntry) (how : WriteKind) (rec : RoamingLeaseRecord)
    (w : World) : Prop :=
  match how with
  | .claim site prev => ClaimOk j h site prev rec
  | .ack base =>
    j.verb = .tick ∧ (∃ w₀ earlier, h = ⟨.leaseRead .ack, .ok (some base), w₀⟩ :: earlier) ∧
      ∃ flushedVersion now, rec = ackedRecord base j.token flushedVersion now
  | .release base =>
    (∃ w₀, ⟨.leaseRead .release, .ok (some base), w₀⟩ ∈ h) ∧
      ∃ clean local_ now, rec = releasedRecord base clean local_ now ∧
        ReleaseOk j h base clean local_ w
  | .keepalive base =>
    j.verb = .releaseSync ∧
      (∃ x ∈ w.drive.writes, x.author = j.token ∧ x.record = base ∧ base.owner = j.token ∧
        ∃ site previous, x.how = .claim site previous) ∧
      ∃ clean local_ now, rec = releasedRecord base clean local_ now

/-- The handlers that lead to `startNode`. -/
def boots : Verb → Bool
  | .boot => true
  | .moveHere => true
  | .forceRestoreAnyway => true
  | _ => false

/-- The local wallet `info` and then the backup were read. -/
def Loaded (h : List RoamEntry) (info : LocalInfo) : Prop :=
  ∃ (backup : Option Envelope) (w₀ w₁ : World) (earlier : List RoamEntry),
    ⟨.fetchBackup, .ok backup, w₁⟩ :: ⟨.readLocal, .ok info, w₀⟩ :: earlier <:+ h

/-- The boot decision was to start, on what was read and on records the lease file
has held; where the proof gate was deferred, the backup did not decrypt. -/
def Decided (j : Job) (h : List RoamEntry) (w : World) : Prop :=
  boots j.verb = true ∧ ∃ (i : RoamingBootInputs) (info : LocalInfo),
    roamingBootDecision i = .start ∧ Judged w.drive i.toHandoffProofInputs ∧
    (i.override = true → (w.pages j.token).overrideUnprovenHandoff = true) ∧
    Loaded h info ∧ i.localSeedPresent = info.seedPresent ∧
    i.localStateVersion = info.stateVersion ∧
    (i.gateNow = true ∨ ∃ envelope secret v w₁,
      ⟨.verifyEnvelope envelope secret, .ok v, w₁⟩ ∈ h ∧ v.ok = false)

/-- What holds of `startNode`: the confirmation read was the last thing awaited, the
session had claimed the lease, and the boot decision was to start. -/
def StartOk (j : Job) (h : List RoamEntry) (w : World) : Prop :=
  (∃ rec w₁ deadline w₂ earlier,
    h = ⟨.leaseRead .confirm, .ok (some rec), w₁⟩ ::
      ⟨.delayUntil deadline, .ok (), w₂⟩ :: earlier ∧ rec.owner = j.token) ∧
  (w.pages j.token).lastWritten.isSome = true ∧ Decided j h w

/-- What holds of `restore`: the deferred half of the proof gate said so. -/
def RestoreOk (j : Job) (h : List RoamEntry) (envelope : Envelope) (secret : String)
    (w : World) : Prop :=
  j.verb = .submitSecret ∧ (w.pages j.token).lastWritten.isSome = true ∧
  ∃ (v : Verification) (w₁ : World) (i : HandoffProofInputs),
    h = [⟨.verifyEnvelope envelope secret, .ok v, w₁⟩] ∧
    (evaluateHandoffProof i).isProven = true ∧ i.localSeedPresent = false ∧
    Judged w.drive i ∧
    (i.override = true → (w.pages j.token).overrideUnprovenHandoff = true)

/-- What holds of a request when it takes effect. -/
def Obliged (j : Job) (h : List RoamEntry) (q : Request) (w : World) : Prop :=
  Opened w j.token ∧
  match q with
  | .leaseWrite how rec => WriteOk j h how rec w
  | .leaseRead .confirm =>
    (w.pages j.token).lastWritten.isSome = true ∧ (j.verb = .boot → Acquired j.token false h)
  | .startNode => StartOk j h w
  | .restore envelope secret => RestoreOk j h envelope secret w
  | .exportBackup => j.verb = .dispose → ∃ w₀, ⟨.stopNode, .ok (), w₀⟩ ∈ h
  | .uploadBackup envelope =>
    ∃ w₁ info w₀ earlier,
      h = ⟨.exportBackup, .ok envelope, w₁⟩ :: ⟨.readLocal, .ok info, w₀⟩ :: earlier
  | _ => True

/-! ## The relations -/

theorem held_mono {d d' : Drive} {r : Option RoamingLeaseRecord}
    (h : d.Held r) (hf : d'.firstLease = d.firstLease) (hw : d.writes <:+ d'.writes) :
    d'.Held r := by
  rcases h with h | ⟨x, hx, h⟩
  · exact .inl (h.trans hf.symm)
  · exact .inr ⟨x, hw.subset hx, h⟩

theorem Restored.mono {v w : World} {o : String} (h : Restored v o) (hl : v.log <:+ w.log) :
    Restored w o := by
  obtain ⟨t, ht⟩ := h
  exact ⟨t, hl.subset ht⟩

namespace Evolves

theorem refl (w : World) : Evolves w w where
  clock := Nat.le_refl _
  firstLease := rfl
  writes := List.suffix_rfl
  firstBackup := rfl
  uploads := List.suffix_rfl
  log := List.suffix_rfl
  opened := fun _ h => h
  origin := fun _ _ => rfl
  preClaim := fun _ h => h
  override := fun _ h => h
  flushed := fun _ => Nat.le_refl _
  lastWritten := fun _ h => h
  seed := fun _ h => h
  version := fun _ => .inr (Nat.le_refl _)

theorem trans (u v w : World) (h : Evolves u v) (h' : Evolves v w) : Evolves u w where
  clock := Nat.le_trans h.clock h'.clock
  firstLease := h'.firstLease.trans h.firstLease
  writes := h.writes.trans h'.writes
  firstBackup := h'.firstBackup.trans h.firstBackup
  uploads := h.uploads.trans h'.uploads
  log := h.log.trans h'.log
  opened := fun t ht => h'.opened t (h.opened t ht)
  origin := fun t ht => (h'.origin t (h.opened t ht)).trans (h.origin t ht)
  preClaim := fun t ht => h'.preClaim t (h.preClaim t ht)
  override := fun t ht => h'.override t (h.override t ht)
  flushed := fun t => Nat.le_trans (h.flushed t) (h'.flushed t)
  lastWritten := fun t ht => h'.lastWritten t (h.lastWritten t ht)
  seed := fun o ho => h'.seed o (h.seed o ho)
  version := fun o => by
    rcases h'.version o with hr | hv'
    · exact .inl hr
    rcases h.version o with hr | hv
    · exact .inl (hr.mono h'.log)
    · exact .inr (Nat.le_trans hv hv')

theorem held {v w : World} (h : Evolves v w) {r : Option RoamingLeaseRecord}
    (hr : v.drive.Held r) : w.drive.Held r :=
  held_mono hr h.firstLease h.writes

theorem judged {v w : World} (h : Evolves v w) {i : HandoffProofInputs}
    (hi : Judged v.drive i) : Judged w.drive i :=
  ⟨h.held hi.lease, fun r hr => h.held (hi.postClaim r hr)⟩

end Evolves

theorem Loaded.mono {h h' : List RoamEntry} {info : LocalInfo} (hl : Loaded h info) (hh : h <:+ h') :
    Loaded h' info := by
  obtain ⟨backup, w₀, w₁, earlier, hl⟩ := hl
  exact ⟨backup, w₀, w₁, earlier, hl.trans hh⟩

theorem Loaded.mem {h : List RoamEntry} {info : LocalInfo} (hl : Loaded h info) :
    ∃ w₀, ⟨.readLocal, .ok info, w₀⟩ ∈ h := by
  obtain ⟨backup, w₀, w₁, earlier, hl⟩ := hl
  exact ⟨w₀, hl.subset (by simp)⟩

theorem Decided.mono {j : Job} {h h' : List RoamEntry} {v w : World} (hd : Decided j h v)
    (hh : h <:+ h') (hev : Evolves v w) : Decided j h' w := by
  obtain ⟨hverb, i, info, hstart, hj, hov, hload, hs, hver, hgate⟩ := hd
  refine ⟨hverb, i, info, hstart, hev.judged hj, fun hi => hev.override _ (hov hi), hload.mono hh, hs,
    hver, hgate.imp id ?_⟩
  rintro ⟨envelope, secret, r, w₁, hmem, hr⟩
  exact ⟨envelope, secret, r, w₁, hh.subset hmem, hr⟩

theorem Acquired.mono {t : String} {b : Bool} {h h' : List RoamEntry} (ha : Acquired t b h)
    (hh : h <:+ h') : Acquired t b h' := by
  obtain ⟨later, block, earlier, rfl, hb⟩ := ha
  obtain ⟨new, rfl⟩ := hh
  exact ⟨new ++ later, block, earlier, by rw [List.append_assoc], hb⟩

theorem PageStep.refl (d : Drive) (verb : Verb) (p : Page) : PageStep d verb p p where
  origin := rfl
  status := rfl
  wallet := rfl
  preClaim := fun h => h
  override := fun h => h
  overrideBy := fun h => .inl h
  flushed := Nat.le_refl _
  lastWritten := fun h => h

theorem PageStep.trans {d : Drive} {verb : Verb} {p q r : Page} (h : PageStep d verb p q)
    (h' : PageStep d verb q r) : PageStep d verb p r where
  origin := h'.origin.trans h.origin
  status := h'.status.trans h.status
  wallet := h'.wallet.trans h.wallet
  preClaim := fun hp => h'.preClaim (h.preClaim hp)
  override := fun hp => h'.override (h.override hp)
  overrideBy := fun hp => (h'.overrideBy hp).elim h.overrideBy .inr
  flushed := Nat.le_trans h.flushed h'.flushed
  lastWritten := fun hp => h'.lastWritten (h.lastWritten hp)

theorem SyncStep.refl (j : Job) (w : World) : SyncStep j w w where
  clock := rfl
  drive := rfl
  origins := rfl
  others := fun _ _ => rfl
  page := PageStep.refl _ _ _
  log := ⟨[], rfl, by simp⟩

/-- Synchronous code is a step that the others can rely on. -/
theorem SyncStep.evolves {j : Job} {s w : World} (h : SyncStep j s w) : Evolves s w := by
  have page : ∀ t, PageStep s.drive j.verb (s.pages t) (w.pages t) := by
    intro t
    by_cases ht : t = j.token
    · exact ht ▸ h.page
    · exact h.others t ht ▸ PageStep.refl _ _ _
  obtain ⟨new, hlog, -⟩ := h.log
  exact
    { clock := Nat.le_of_eq h.clock.symm
      firstLease := by rw [h.drive]
      writes := by rw [h.drive]
      firstBackup := by rw [h.drive]
      uploads := by rw [h.drive]
      log := ⟨new, hlog.symm⟩
      opened := fun t ht => by
        rw [Opened, (page t).status]
        exact ht
      origin := fun t _ => (page t).origin
      preClaim := fun t ht => by
        rw [h.drive]
        exact (page t).preClaim ht
      override := fun t => (page t).override
      flushed := fun t => (page t).flushed
      lastWritten := fun t => (page t).lastWritten
      seed := fun o ho => by rwa [h.origins]
      version := fun o => .inr (by rw [version, version, h.origins]) }

/-- One more update of the job's own page. -/
theorem SyncStep.setPage {j : Job} {s w : World} {f : Page → Page} (h : SyncStep j s w)
    (hf : PageStep w.drive j.verb (w.pages j.token) (f (w.pages j.token))) :
    SyncStep j s (w.setPage j.token f) where
  clock := h.clock
  drive := h.drive
  origins := h.origins
  others := fun u hu => by
    rw [World.setPage_of_ne _ _ _ hu, h.others u hu]
  page := by
    rw [World.setPage_self]
    rw [h.drive] at hf
    exact h.page.trans hf
  log := h.log

end LibreWallet.Embed
