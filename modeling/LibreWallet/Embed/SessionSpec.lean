import LibreWallet.Embed.LeaseSpec

/-
  Embed/SessionSpec.lean --- one specification for each method of the session and
  each hook of the embed, and the protocol of the whole machine.
-/

set_option autoImplicit false

namespace LibreWallet.Embed

open Async Controller Roaming

variable {j : Job} {s w : World} {h : List RoamEntry} {α : Type}

/-- A postcondition that asks for nothing but the contract: what the tail of a
method, with nothing after it, has to give. -/
def AnyEnd (j : Job) (Post : PostCond World Request Answer Err α) : Prop :=
  ∀ h' r s' w', At j s' w' → Post h' r s' w'

/-- What the session knows once it has peeked. -/
def Peeked (j : Job) (w : World) : Prop := w.drive.Held (w.pages j.token).preClaimRecord

/-- What the session knows once it has claimed. -/
structure Claimed (j : Job) (h : List RoamEntry) (w : World) : Prop where
  peeked : Peeked j w
  written : (w.pages j.token).lastWritten.isSome = true
  acquired : j.verb = .boot → Acquired j.token false h

theorem Peeked.mono {w' : World} (hp : Peeked j w) (hev : Evolves w w') : Peeked j w' :=
  hev.preClaim j.token hp

theorem Claimed.mono {h' : List RoamEntry} {w' : World} (hc : Claimed j h w) (hh : h <:+ h')
    (hev : Evolves w w') : Claimed j h' w' where
  peeked := hc.peeked.mono hev
  written := hev.lastWritten j.token hc.written
  acquired := fun hv => (hc.acquired hv).mono hh

/-! ## Views -/

/-- A view that promises nothing about the claim. -/
def View.plain : View → Bool
  | .blocked _ _ => false
  | .needSecret => false
  | .halted _ _ (some _) => false
  | _ => true

theorem At.plainView (hw : At j s w) {v : View} (hv : View.plain v = true) :
    At j s (w.setPage j.token fun p => { p with view := v }) :=
  hw.view v (fun o e h => by simp [h, View.plain] at hv) (fun h => by simp [h, View.plain] at hv)
    fun r m o h => by simp [h, View.plain] at hv

theorem At.claimedView (hw : At j s w) (hp : Peeked j w)
    (hl : (w.pages j.token).lastWritten.isSome = true) (v : View) :
    At j s (w.setPage j.token fun p => { p with view := v }) :=
  hw.view v (fun _ _ _ => hp) (fun _ => ⟨hp, hl⟩) fun _ _ _ _ => ⟨hp, hl⟩

theorem wp_leaseFailureState {e : Err} {Post : PostCond World Request Answer Err Unit}
    (hw : At j s w) (hp : Peeked j w) (hk : AnyEnd j Post) :
    wp (contract j) (leaseFailureState j.token e) h Post s w := by
  cases e with
  | held origin expiresAt =>
    exact hk _ _ _ _ (hw.view _ (fun _ _ _ => hp) (fun h => by cases h) fun _ _ _ h => by cases h)
  | unreachable cause => exact hk _ _ _ _ (hw.plainView rfl)
  | other message => exact hk _ _ _ _ (hw.plainView rfl)

/-! ## The flush -/

/-- What a flush that landed lets the page record. -/
theorem At.flushed (hw : At j s w) {v : Nat}
    (hv : Restored w (w.pages j.token).origin ∨ ∃ e ∈ w.drive.uploads, v ≤ e.stateVersion) :
    At j s (w.setPage j.token fun p => { p with flushedVersion := max p.flushedVersion v }) := by
  refine hw.update
    { origin := rfl, status := rfl, wallet := rfl, preClaim := id, override := id
      overrideBy := .inl, flushed := Nat.le_max_left _ _, lastWritten := id }
    { hw.inv j.token with
      unopened := fun hs => absurd hs hw.opened
      flushed := ?_ }
  rcases hv with hr | ⟨e, he, hle⟩
  · exact .inl hr
  rcases (hw.inv j.token).flushed with hr | h0 | ⟨e', he', hle'⟩
  · exact .inl hr
  · exact .inr (.inr ⟨e, he, by simpa [h0] using hle⟩)
  · rcases Nat.le_total (w.pages j.token).flushedVersion v with hmax | hmax
    · exact .inr (.inr ⟨e, he, by simpa [Nat.max_eq_right hmax] using hle⟩)
    · exact .inr (.inr ⟨e', he', by simpa [Nat.max_eq_left hmax] using hle'⟩)

/-- `readLocal` returns what the origin has on disk. -/
theorem readLocal_answer {t : String} {c : Choice} {info : LocalInfo} {w₁ w₂ : World}
    (he : exec t .readLocal c w₁ = some (.ok info, w₂)) :
    info = localInfo (w₁.store t).db := by
  cases c <;> simp [exec] at he
  exact he.1.symm

theorem exportBackup_answer {t : String} {c : Choice} {envelope : Envelope} {w₁ w₂ : World}
    (he : exec t .exportBackup c w₁ = some (.ok envelope, w₂)) :
    w₁.Runs t ∧ envelope.stateVersion = (w₁.store t).db.stateVersion := by
  cases c <;> simp [exec] at he
  cases hx : exportBackup (w₁.node t) with
  | error e => simp [hx, Except.mapError] at he
  | ok envelope' =>
    simp only [hx, Except.mapError, Except.ok.injEq] at he
    rw [← he.1]
    exact exportBackup_ok hx

theorem upload_mem {t : String} {c : Choice} {envelope : Envelope} {w₁ w₂ : World}
    (he : exec t (.uploadBackup envelope) c w₁ = some (.ok (), w₂)) :
    envelope ∈ w₂.drive.uploads := by
  cases c <;> simp [exec] at he
  rw [← he]
  simp [World.upload]

/-- `flushTracked`: a readLocal, an export, an upload; the version it returns is the
one it read before the export. -/
theorem wp_flushTracked {Post : PostCond World Request Answer Err Nat} (hw : At j s w)
    (hexp : j.verb = .dispose → ∃ w₀, ⟨.stopNode, .ok (), w₀⟩ ∈ h)
    (hok : ∀ info envelope w₁ w₂ w₃ s' w', Evolves w w' → At j s' w' →
      Post (⟨.uploadBackup envelope, .ok (), w₃⟩ :: ⟨.exportBackup, .ok envelope, w₂⟩ ::
        ⟨.readLocal, .ok info, w₁⟩ :: h) (.ok info.stateVersion) s' w')
    (herr : ∀ h' e w', Evolves w w' → At j w' w' → Post h' (.error e) w' w') :
    wp (contract j) (flushTracked j.token) h Post s w := by
  simp only [flushTracked, Proc.bind_eq, wp_bind]
  refine wp_ask hw (fun _ _ ho => ⟨ho, trivial⟩) fun c r w₁ w₁' w₁'' h₁ he₁ h₁' h₁'' hw₁ => ?_
  have hev₁ := h₁.trans _ _ _ (h₁'.trans _ _ _ h₁'')
  cases r with
  | error e => exact herr _ _ _ hev₁ hw₁
  | ok info =>
    refine wp_ask hw₁
      (fun _ _ ho => ⟨ho, fun hv => (hexp hv).imp fun _ hm => List.mem_cons_of_mem _ hm⟩)
      fun c r w₂ w₂' w₂'' h₂ he₂ h₂' h₂'' hw₂ => ?_
    have hev₂ := hev₁.trans _ _ _ (h₂.trans _ _ _ (h₂'.trans _ _ _ h₂''))
    cases r with
    | error e => exact herr _ _ _ hev₂ hw₂
    | ok envelope =>
      refine wp_ask hw₂ (fun _ _ ho => ⟨ho, w₂, info, w₁, h, rfl⟩)
        fun c r w₃ w₃' w₃'' h₃ he₃ h₃' h₃'' hw₃ => ?_
      have hev₃ := hev₂.trans _ _ _ (h₃.trans _ _ _ (h₃'.trans _ _ _ h₃''))
      cases r with
      | error e => exact herr _ _ _ hev₃ hw₃
      | ok u =>
        simp only [updatePage, wp_modify]
        -- versions grow from the read to the export, unless something was restored
        have hread := readLocal_answer he₁
        have hexport := (exportBackup_answer he₂).2
        have hlater : Evolves w₁ w₂ := h₁'.trans _ _ _ (h₁''.trans _ _ _ h₂)
        have hopen : Opened w₁ j.token := h₁.opened _ hw.opened
        have hsame := hlater.origin j.token hopen
        have hrest := h₂'.trans _ _ _ (h₂''.trans _ _ _ (h₃.trans _ _ _ (h₃'.trans _ _ _ h₃'')))
        have hv : Restored w₃'' (w₃''.pages j.token).origin ∨
            ∃ e ∈ w₃''.drive.uploads, info.stateVersion ≤ e.stateVersion := by
          rcases hlater.version (w₁.pages j.token).origin with hr | hv
          · rw [(hlater.trans _ _ _ hrest).origin j.token hopen]
            exact .inl (hr.mono hrest.log)
          · refine .inr ⟨envelope, h₃''.uploads.subset (upload_mem he₃), ?_⟩
            rw [hread, hexport]
            simp only [localInfo, World.store, hsame]
            exact hv
        have hw₃' := hw₃.flushed hv
        exact hok info envelope w₁ w₂ w₃ _ _ (hev₃.trans _ _ _ (evolves_of_at hw₃')) hw₃'

/-! ## The guarded start -/

theorem wp_selfFence {Post : PostCond World Request Answer Err Unit} (hw : At j s w)
    (hk : AnyEnd j Post) : wp (contract j) (selfFence j.token) h Post s w := by
  simp only [selfFence, stopHeartbeat, setView, updatePage, Proc.bind_eq, wp_bind, wp_get]
  split
  · exact hk _ _ _ _ hw
  · simp only [wp_bind, wp_modify, wp_attempt]
    exact wp_ask_free (hw.setTimer none) (fun _ ho => ⟨ho, trivial⟩)
      fun r w₁ w₂ _ _ hw₂ => hk _ _ _ _ (hw₂.plainView rfl)

theorem wp_nowRunning {Post : PostCond World Request Answer Err Unit} (hw : At j s w)
    (hk : AnyEnd j Post) : wp (contract j) (nowRunning j.token) h Post s w := by
  simp only [nowRunning, startHeartbeat, setView, updatePage, Proc.bind_eq, wp_bind, wp_modify]
  exact hk _ _ _ _ ((hw.setTimer _).plainView rfl)

/-- The start comes right after the confirmation read. -/
theorem wp_startGuarded {skipStart : Bool} {Post : PostCond World Request Answer Err Unit}
    (hw : At j s w) (hc : Claimed j h w) (hd : skipStart = false → Decided j h w)
    (hk : AnyEnd j Post) : wp (contract j) (startGuarded j.token skipStart) h Post s w := by
  simp only [startGuarded, setView, updatePage, Proc.bind_eq, wp_bind, wp_modify, wp_get,
    wp_attempt]
  have hw' := hw.plainView (v := .starting) rfl
  have hev : Evolves w (w.setPage j.token fun p => { p with view := .starting }) :=
    evolves_of_at ((At.start hw.inv hw.opened).plainView rfl)
  refine wp_ask_free hw' (fun _ ho => ⟨ho, trivial⟩) fun r w₁ w₁' h₁ h₁' hw₁ => ?_
  have hev₁ := hev.trans _ _ _ (h₁.trans _ _ _ h₁')
  -- either failure ends in a fence or in a view
  have failed : ∀ (h' : List RoamEntry) e w', Evolves w w' → At j w' w' →
      wp (contract j)
        (if skipStart = true then selfFence j.token else leaseFailureState j.token e) h'
        Post w' w' := by
    intro h' e w' hev' hw'
    split
    · exact wp_selfFence hw' hk
    · exact wp_leaseFailureState hw' (hc.peeked.mono hev') hk
  cases r with
  | error e => exact failed _ e _ hev₁ hw₁
  | ok u =>
    refine wp_confirmStillOurs hw₁ (hev₁.lastWritten j.token hc.written) (fun hv => (hc.acquired hv).mono (List.suffix_cons _ _)) ?_
      fun h' e w₂ hev₂ hw₂ => failed h' e w₂ (hev₁.trans _ _ _ hev₂) hw₂
    intro rec w₂ w₂' h₂ h₂' howner hw₂
    have hev₂ := hev₁.trans _ _ _ (h₂.trans _ _ _ h₂')
    simp only
    cases skipStart with
    | true => exact wp_nowRunning hw₂ hk
    | false =>
      simp only [Bool.false_eq_true, if_false, wp_bind, wp_attempt]
      refine wp_ask hw₂ (fun w₃ h₃ ho => ⟨ho, ⟨rec, w₂, _, w₁, h, rfl, howner⟩, ?_, ?_⟩)
        fun c r w₃ w₃' w₃'' _ _ _ _ hw₃ => ?_
      · exact (hev₂.trans _ _ _ h₃).lastWritten j.token hc.written
      · exact (hd rfl).mono ⟨[_, _], rfl⟩ (hev₂.trans _ _ _ h₃)
      · cases r with
        | error e => exact hk _ _ _ _ (hw₃.plainView rfl)
        | ok u => exact wp_nowRunning hw₃ hk

/-! ## Past the claim -/

/-- The backup's version is read, or there is nothing to read it with. -/
theorem wp_readBackupVersion {backup : Option Envelope} {secret : Option String}
    {Post : PostCond World Request Answer Err (Option Nat)} (hw : At j s w)
    (hnone : backup = none ∨ secret = none → Post h (.ok none) s w)
    (hsome : ∀ envelope key v w₁ w₂, backup = some envelope → secret = some key →
      v = verifyBackupEnvelope envelope key → Evolves w w₁ → Evolves w₁ w₂ → At j w₂ w₂ →
      Post (⟨.verifyEnvelope envelope key, .ok v, w₁⟩ :: h)
        (.ok (if v.ok then v.stateVersion else none)) w₂ w₂) :
    wp (contract j) (readBackupVersion backup secret) h Post s w := by
  cases backup with
  | none => exact hnone (.inl rfl)
  | some envelope =>
    cases secret with
    | none => exact hnone (.inr rfl)
    | some key =>
      simp only [readBackupVersion, Proc.bind_eq, wp_bind]
      refine wp_ask hw (fun _ _ ho => ⟨ho, trivial⟩) fun c r w₁ w₁' w₂ h₁ he h₁' h₂ hw₂ => ?_
      simp only [exec, Option.some.injEq, Prod.mk.injEq] at he
      obtain ⟨rfl, -⟩ := he
      exact hsome envelope key _ w₁ w₂ rfl rfl rfl h₁ (h₁'.trans _ _ _ h₂) hw₂

/-- Noting an evaluation of the proof on records the file has held. -/
theorem At.noteEvaluated (hw : At j s w) {i : HandoffProofInputs} (hi : Judged w.drive i) :
    At j s (w.note (.evaluated j.token i)) where
  sync :=
    { clock := hw.sync.clock, drive := hw.sync.drive, origins := hw.sync.origins
      others := hw.sync.others, page := hw.sync.page
      log := by
        obtain ⟨new, hlog, hnew⟩ := hw.sync.log
        refine ⟨.evaluated j.token i :: new, by rw [World.note_log, hlog]; rfl, ?_⟩
        intro n hn
        rcases List.mem_cons.mp hn with rfl | hn
        · exact ⟨i, rfl, hw.sync.drive ▸ hi⟩
        · exact hnew n hn }
  inv := fun u => (hw.inv u).mono rfl List.suffix_rfl List.suffix_rfl
    fun ⟨t, ht⟩ => ⟨t, List.mem_cons_of_mem _ ht⟩
  opened := hw.opened

/-- The records a session holds are records the file has held. -/
theorem judged_bootInputs (info : LocalInfo) (backup : Option Envelope) (v : Option Nat)
    (hw : At j s w) (hp : Peeked j w) :
    Judged w.drive (bootInputs w j.token info backup v).toHandoffProofInputs :=
  ⟨hp, fun r hr => (hw.inv j.token).postClaim r hr⟩

/-- The routes, at whichever state the note leaves. -/
theorem wp_route {decision : RoamingBootDecision} {backup : Option Envelope}
    {Post : PostCond World Request Answer Err Unit} (hw : At j s w) (hc : Claimed j h w)
    (hdec : decision = .start → Decided j h w) (hk : AnyEnd j Post) :
    wp (contract j)
      (match decision with
        | .blocked origin expiresAt => setView j.token (.blocked origin expiresAt)
        | .haltVersionGap staleOrigin _ => setView j.token (unprovenHandoffHalt staleOrigin)
        | .setupNeeded => setView j.token .setupNeeded
        | .restoreIntoEmpty =>
          updatePage j.token fun p =>
            { p with pendingRestoreEnvelope := backup, view := .needSecret }
        | .start => startGuarded j.token false) h Post s w := by
  cases decision with
  | blocked origin expiresAt => exact hk _ _ _ _ (hw.claimedView hc.peeked hc.written _)
  | haltVersionGap staleOrigin missing =>
    exact hk _ _ _ _ (hw.claimedView hc.peeked hc.written _)
  | setupNeeded => exact hk _ _ _ _ (hw.plainView rfl)
  | restoreIntoEmpty =>
    refine hk _ _ _ _ (hw.update
      { origin := rfl, status := rfl, wallet := rfl, preClaim := id, override := id
        overrideBy := .inl, flushed := Nat.le_refl _, lastWritten := id }
      { hw.inv j.token with
        unopened := fun hs => absurd hs hw.opened
        blocked := fun o e h => by cases h
        needSecret := fun _ => ⟨hc.peeked, hc.written⟩
        halted := fun r m o h => by cases h })
  | start => exact wp_startGuarded hw hc (fun _ => hdec rfl) hk

theorem wp_routeClaimed {info : LocalInfo} {backup : Option Envelope}
    {v : Option Nat} {Post : PostCond World Request Answer Err Unit} (hw : At j s w)
    (hc : Claimed j h w) (hverb : boots j.verb = true) (hload : Loaded h info)
    (hgate : backup.isSome = true → v = none → info.seedPresent = true →
      ∃ envelope key r w₁, ⟨.verifyEnvelope envelope key, .ok r, w₁⟩ ∈ h ∧ r.ok = false)
    (hk : AnyEnd j Post) :
    wp (contract j) (routeClaimed j.token info backup v) h Post s w := by
  simp only [routeClaimed, setView, updatePage, Proc.bind_eq, wp_bind, wp_get]
  have hj := judged_bootInputs info backup v hw hc.peeked
  have hdec : roamingBootDecision (bootInputs w j.token info backup v) = .start →
      Decided j h w := by
    intro hstart
    have hseed := (roamingBootDecision_start hstart).1
    refine ⟨hverb, bootInputs w j.token info backup v, info, hstart, hj, id, hload, rfl, rfl, ?_⟩
    cases hg : (bootInputs w j.token info backup v).gateNow with
    | true => exact .inl rfl
    | false =>
      simp only [RoamingBootInputs.gateNow, bootInputs, Bool.or_eq_false_iff,
        Option.isSome_eq_false_iff, Option.isNone_iff_eq_none, Bool.not_eq_false'] at hg
      exact .inr (hgate hg.2 hg.1 hseed)
  split
  · have hev := evolves_of_at ((At.start hw.inv hw.opened).noteEvaluated hj)
    exact wp_route (hw.noteEvaluated hj) (hc.mono List.suffix_rfl hev)
      (fun hd => (hdec hd).mono List.suffix_rfl hev) hk
  · exact wp_route hw hc hdec hk

theorem wp_continueClaimed {Post : PostCond World Request Answer Err Unit} (hw : At j s w)
    (hc : Claimed j h w) (hverb : boots j.verb = true) (hk : AnyEnd j Post) :
    wp (contract j) (continueClaimed j.token) h Post s w := by
  simp only [continueClaimed, setView, updatePage, Proc.bind_eq, Proc.pure_eq, wp_bind,
    wp_attempt, wp_done]
  refine wp_ask hw (fun _ _ ho => ⟨ho, trivial⟩) fun c r w₁ _ w₁' h₁ he h₁' h₁'' hw₁ => ?_
  have hev₁ := h₁.trans _ _ _ (h₁'.trans _ _ _ h₁'')
  cases r with
  | error e => exact hk _ _ _ _ (hw₁.plainView rfl)
  | ok info =>
    have hseed : info.seedPresent = info.seedHex.isSome := by
      rw [readLocal_answer he]
      rfl
    refine wp_ask_free hw₁ (fun _ ho => ⟨ho, trivial⟩) fun r w₂ w₂' h₂ h₂' hw₂ => ?_
    have hev₂ := hev₁.trans _ _ _ (h₂.trans _ _ _ h₂')
    cases r with
    | error e => exact hk _ _ _ _ (hw₂.plainView rfl)
    | ok backup =>
      simp only
      refine wp_readBackupVersion hw₂ (fun hnone => ?_)
        fun envelope key v w₃ w₃' _ _ hver h₃ h₃' hw₃ => ?_
      · refine wp_routeClaimed hw₂ (hc.mono ⟨[_, _], rfl⟩ hev₂) hverb ⟨_, _, _, _, List.suffix_rfl⟩
          (fun hb _ hp => ?_) hk
        rcases hnone with rfl | hnone
        · cases hb
        · rw [hseed, hnone] at hp
          cases hp
      · refine wp_routeClaimed hw₃ (hc.mono ⟨[_, _, _], rfl⟩ (hev₂.trans _ _ _ (h₃.trans _ _ _ h₃')))
          hverb ⟨_, _, _, _, List.suffix_cons _ _⟩
          (fun _ hv _ => ⟨envelope, key, v, w₃, by simp, ?_⟩) hk
        by_cases hkey : key = envelope.seedHex
        · simp [hver, verifyBackupEnvelope, hkey] at hv
        · simp [hver, verifyBackupEnvelope, hkey]

/-! ## Boot and takeover -/

/-- Storing a record that the file has held as the pre-claim record. -/
theorem At.preClaim (hw : At j s w) {rec : Option RoamingLeaseRecord} (hr : w.drive.Held rec) :
    At j s (w.setPage j.token fun p => { p with preClaimRecord := rec }) :=
  hw.update
    { origin := rfl, status := rfl, wallet := rfl, preClaim := fun _ => hr, override := id
      overrideBy := .inl, flushed := Nat.le_refl _, lastWritten := id }
    { hw.inv j.token with
      unopened := fun hs => absurd hs hw.opened
      blocked := fun _ _ _ => hr
      needSecret := fun hv => ⟨hr, ((hw.inv j.token).needSecret hv).2⟩
      halted := fun r m o hv => ⟨hr, ((hw.inv j.token).halted r m o hv).2⟩ }

/-- The same for the record as re-read after the claim. -/
theorem At.postClaim (hw : At j s w) {rec : Option RoamingLeaseRecord}
    (hr : ∀ r, rec = some r → w.drive.Held (some r)) :
    At j s (w.setPage j.token fun p => { p with postClaimRecord := rec }) :=
  hw.update
    { origin := rfl, status := rfl, wallet := rfl, preClaim := id, override := id
      overrideBy := .inl, flushed := Nat.le_refl _, lastWritten := id }
    { hw.inv j.token with
      unopened := fun hs => absurd hs hw.opened
      postClaim := hr }

theorem wp_boot {Post : PostCond World Request Answer Err Unit} (hw : At j s w)
    (hverb : j.verb = .boot) (hk : AnyEnd j Post) :
    wp (contract j) (boot j.token) h Post s w := by
  simp only [boot, setView, updatePage, Proc.bind_eq, wp_bind, wp_modify, wp_attempt]
  refine wp_peek (hw.plainView rfl) (fun _ _ ho => ⟨ho, trivial⟩) ?_
    fun h' e w₁ _ _ hw₁ => hk _ _ _ _ (hw₁.plainView rfl)
  intro rec w₁ w₁' _ h₁' hheld hw₁
  simp only [wp_bind, wp_modify]
  have hheld' : w₁'.drive.Held rec := h₁'.held hheld
  have hw₁' := hw₁.preClaim hheld'
  have hpeeked : Peeked j (w₁'.setPage j.token fun p => { p with preClaimRecord := rec }) := by
    rw [Peeked, World.setPage_self]
    exact hheld'
  split
  · exact hk _ _ _ _ (hw₁'.view _ (fun _ _ _ => hpeeked) (fun h => by cases h)
      fun _ _ _ h => by cases h)
  · -- past the gate: acquire, then go on
    simp only [wp_bind, wp_attempt]
    refine wp_acquire hw₁' (.inl ⟨rfl, hverb⟩) ?_
      fun h' e w₂ hev hw₂ => wp_leaseFailureState hw₂ (hpeeked.mono hev) hk
    intro block r w₂ hblock hev hw₂ hlast
    exact wp_continueClaimed hw₂
      ⟨hpeeked.mono hev, hlast, fun _ => ⟨[], block, _, rfl, hblock⟩⟩ (by rw [hverb]; rfl) hk

/-- What a poll's verdict leads to, whichever record it saw. -/
theorem wp_polled {reason : TakeoverReason} {rec : Option RoamingLeaseRecord}
    {deadline : Nat} {wait : Proc World Request Answer Err Unit}
    {Post : PostCond World Request Answer Err Unit} (hw : At j w w) (hc : Claimed j h w)
    (hverb : boots j.verb = true) (hrec : ∀ r, rec = some r → w.drive.Held (some r))
    (hlost : reason = .lost → ∃ r, rec = some r)
    (hwait : ∀ {h'} {w' : World}, At j w' w' → Claimed j h' w' → wp (contract j) wait h' Post w' w')
    (hk : AnyEnd j Post) :
    wp (contract j)
      (match reason with
        | .lost =>
          updatePage j.token fun p =>
            { p with
              preClaimRecord := rec
              view := .blocked ((rec.map (·.origin)).getD "another origin")
                ((rec.map (·.expiresAt)).getD w.clock) }
        | .acked | .timeout =>
          (updatePage j.token fun p => { p with postClaimRecord := rec }).bind fun _ =>
            continueClaimed j.token
        | .waiting => (ask (.delayUntil deadline)).bind fun _ => wait) h Post w w := by
  have proceed : wp (contract j)
      ((updatePage j.token fun p => { p with postClaimRecord := rec }).bind fun _ =>
        continueClaimed j.token) h Post w w := by
    simp only [updatePage, wp_bind, wp_modify]
    exact wp_continueClaimed (hw.postClaim hrec)
      (hc.mono List.suffix_rfl (evolves_of_at (hw.postClaim hrec))) hverb hk
  cases reason with
  | lost =>
    have hheld : w.drive.Held rec := by
      obtain ⟨r, hr⟩ := hlost rfl
      exact hr ▸ hrec r hr
    refine hk _ _ _ _ (hw.update
      { origin := rfl, status := rfl, wallet := rfl, preClaim := fun _ => hheld
        override := id, overrideBy := .inl, flushed := Nat.le_refl _, lastWritten := id }
      { hw.inv j.token with
        unopened := fun hs => absurd hs hw.opened
        blocked := fun _ _ _ => hheld
        needSecret := fun h => by cases h
        halted := fun _ _ _ h => by cases h })
  | acked => exact proceed
  | timeout => exact proceed
  | waiting =>
    simp only [wp_bind]
    refine wp_ask_free hw (fun _ ho => ⟨ho, trivial⟩) fun r w₂ w₃ h₂ h₃ hw₃ => ?_
    cases r with
    | error e => exact hk _ _ _ _ hw₃
    | ok u => exact hwait hw₃ (hc.mono (List.suffix_cons _ _) (h₂.trans _ _ _ h₃))

theorem wp_pollTakeover {previousOwner : String} {claimedAt polls : Nat}
    {Post : PostCond World Request Answer Err Unit} (hw : At j s w) (hc : Claimed j h w)
    (hverb : boots j.verb = true) (hk : AnyEnd j Post) :
    wp (contract j) (pollTakeover j.token previousOwner claimedAt polls) h Post s w := by
  induction polls generalizing h s w with
  | zero => exact hk _ _ _ _ hw
  | succ polls ih =>
    simp only [pollTakeover, setView, updatePage, Proc.bind_eq, wp_bind, wp_get, wp_modify,
      wp_attempt]
    have hev : Evolves w (w.setPage j.token fun p =>
        { p with view := .moving (w.clock - claimedAt) }) :=
      evolves_of_at ((At.start hw.inv hw.opened).plainView rfl)
    refine wp_peek (hw.plainView rfl) (fun _ _ ho => ⟨ho, trivial⟩) ?_ ?_
    · intro rec w₁ w₁' h₁ h₁' hheld hw₁
      exact wp_polled hw₁ (hc.mono (List.suffix_cons _ _) (hev.trans _ _ _ (h₁.trans _ _ _ h₁')))
        hverb (fun r hr => hr ▸ h₁'.held hheld)
        (fun hv => (takeoverMayProceed_lost hv).imp fun _ hr => hr.1) ih hk
    · intro h' e w₁ hh hev₁ hw₁
      exact wp_polled hw₁ (hc.mono hh (hev.trans _ _ _ hev₁)) hverb (fun r hr => by cases hr)
        (fun hv => (takeoverMayProceed_lost hv).imp fun _ hr => hr.1) ih hk

theorem wp_moveHere {polls : Nat} {Post : PostCond World Request Answer Err Unit}
    (hw : At j s w) (hverb : j.verb = .moveHere) (hk : AnyEnd j Post) :
    wp (contract j) (moveHere j.token polls) h Post s w := by
  simp only [moveHere, Proc.bind_eq, wp_bind, wp_get]
  cases hv : (w.pages j.token).view with
  | blocked o e =>
    have hpeeked : Peeked j w := (hw.inv j.token).blocked o e hv
    simp only [wp_bind, wp_attempt]
    refine wp_acquire hw (.inr ⟨rfl, hverb⟩) ?_
      fun h' e w₂ hev hw₂ => wp_leaseFailureState hw₂ (hpeeked.mono hev) hk
    intro block r w₂ _ hev hw₂ hlast
    refine wp_pollTakeover hw₂ ⟨hpeeked.mono hev, hlast, fun hboot => ?_⟩ (by rw [hverb]; rfl) hk
    rw [hverb] at hboot
    cases hboot
  | _ => exact hk _ _ _ _ hw

/-! ## Restore and override -/

theorem wp_restoreProven {envelope : Envelope} {secret : String} {v : Verification}
    {w₁ : World} {i : HandoffProofInputs} {Post : PostCond World Request Answer Err Unit}
    (hw : At j s w) (hp : Peeked j w) (hl : (w.pages j.token).lastWritten.isSome = true)
    (hverb : j.verb = .submitSecret) (hh : h = [⟨.verifyEnvelope envelope secret, .ok v, w₁⟩])
    (hproof : (evaluateHandoffProof i).isProven = true) (hseed : i.localSeedPresent = false)
    (hj : Judged w.drive i)
    (hov : i.override = true → (w.pages j.token).overrideUnprovenHandoff = true)
    (hk : AnyEnd j Post) :
    wp (contract j) (restoreProven j.token envelope secret) h Post s w := by
  have notBoot : j.verb ≠ .boot := by
    rw [hverb]
    decide
  simp only [restoreProven, setView, updatePage, Proc.bind_eq, wp_bind, wp_attempt]
  refine wp_ask hw (fun w₂ h₂ ho => ⟨ho, hverb, ?_, v, w₁, i, hh, hproof, hseed, h₂.judged hj,
    fun hi => h₂.override _ (hov hi)⟩) fun c r w₂ w₂' w₃ h₂ _ h₂' h₃ hw₃ => ?_
  · exact h₂.lastWritten j.token hl
  have hev := h₂.trans _ _ _ (h₂'.trans _ _ _ h₃)
  cases r with
  | error e => exact hk _ _ _ _ (hw₃.plainView rfl)
  | ok u =>
    simp only
    have hcore : SameCore (w₃.pages j.token)
        { w₃.pages j.token with pendingRestoreEnvelope := none } :=
      ⟨rfl, rfl, rfl, rfl, rfl, rfl, rfl, rfl, rfl⟩
    have hw₄ := hw₃.core (f := fun p => { p with pendingRestoreEnvelope := none }) hcore
    have hev₄ := hev.trans _ _ _ (evolves_of_at hw₄)
    exact wp_startGuarded hw₄
      ⟨hp.mono hev₄, hev₄.lastWritten j.token hl, fun hb => absurd hb notBoot⟩
      (fun hskip => by cases hskip) hk

theorem wp_submitSecret {secret : String} {Post : PostCond World Request Answer Err Unit}
    (hw : At j s w) (hverb : j.verb = .submitSecret) (hnil : h = []) (hk : AnyEnd j Post) :
    wp (contract j) (submitSecret j.token secret) h Post s w := by
  simp only [submitSecret, setView, updatePage, noteEvaluated, Proc.bind_eq, wp_bind, wp_get]
  split
  · rename_i envelope hv henv
    obtain ⟨hpeeked, hlast⟩ := (hw.inv j.token).needSecret hv
    simp only [wp_bind]
    refine wp_ask_free hw (fun _ ho => ⟨ho, trivial⟩) fun r w₁ w₂ h₁ h₂ hw₂ => ?_
    have hev := h₁.trans _ _ _ h₂
    cases r with
    | error e => exact hk _ _ _ _ hw₂
    | ok v =>
      have hp₂ : Peeked j w₂ := hev.preClaim j.token hpeeked
      have hl₂ := hev.lastWritten j.token hlast
      have hj : Judged w₂.drive (secretInputs w₂ j.token v) :=
        ⟨hp₂, fun r hr => (hw₂.inv j.token).postClaim r hr⟩
      simp only
      split
      · simp only [wp_bind, wp_get, wp_modify]
        have hw₃ := hw₂.noteEvaluated hj
        split
        · exact hk _ _ _ _ (hw₃.claimedView hp₂ hl₂ _)
        · rename_i via hproof
          refine wp_restoreProven hw₃ hp₂ hl₂ hverb (by rw [hnil]) (i := secretInputs w₂ j.token v)
            ?_ rfl hj id hk
          rw [hproof]
          rfl
      · exact hk _ _ _ _ (hw₂.claimedView hp₂ hl₂ _)
  · exact hk _ _ _ _ hw

theorem wp_forceRestoreAnyway {Post : PostCond World Request Answer Err Unit} (hw : At j s w)
    (hverb : j.verb = .forceRestoreAnyway) (hk : AnyEnd j Post) :
    wp (contract j) (forceRestoreAnyway j.token) h Post s w := by
  simp only [forceRestoreAnyway, setView, updatePage, Proc.bind_eq, wp_bind, wp_get]
  split
  · rename_i r m o hv
    obtain ⟨hpeeked, hlast⟩ := (hw.inv j.token).halted r m o hv
    simp only [wp_bind, wp_modify]
    have hov : ∀ {s}, At j s w → At j s (w.setPage j.token fun p =>
        { p with overrideUnprovenHandoff := true }) := fun hw => hw.update
      { origin := rfl, status := rfl, wallet := rfl, preClaim := id, override := fun _ => rfl
        overrideBy := fun _ => .inr hverb, flushed := Nat.le_refl _, lastWritten := id }
      { hw.inv j.token with unopened := fun hs => absurd hs hw.opened }
    have hev := evolves_of_at (hov (At.start hw.inv hw.opened))
    refine wp_clearPredecessor (hov hw) hverb fun h' s' w₁ hev₁ hw₁ => ?_
    have hev' := hev.trans _ _ _ hev₁
    have hp₁ : Peeked j w₁ := hev'.preClaim j.token hpeeked
    have hl₁ := hev'.lastWritten j.token hlast
    simp only [wp_get]
    split
    · exact hk _ _ _ _ (hw₁.claimedView hp₁ hl₁ _)
    · refine wp_continueClaimed hw₁ ⟨hp₁, hl₁, fun hb => ?_⟩ (by rw [hverb]; rfl) hk
      rw [hverb] at hb
      cases hb
  · exact hk _ _ _ _ hw

/-! ## Heartbeats -/

theorem wp_flushAndAck {Post : PostCond World Request Answer Err Unit} (hw : At j s w)
    (hverb : j.verb = .tick) (hk : AnyEnd j Post) :
    wp (contract j) (flushAndAck j.token) h Post s w := by
  have notDispose : j.verb ≠ .dispose := by
    rw [hverb]
    decide
  simp only [flushAndAck, Proc.bind_eq, wp_bind]
  refine wp_ask_free hw (fun _ ho => ⟨ho, trivial⟩) fun r w₁ w₁' _ _ hw₁ => ?_
  cases r with
  | error e => exact hk _ _ _ _ hw₁
  | ok info =>
    refine wp_ask_free hw₁ (fun _ ho => ⟨ho, trivial⟩) fun r w₂ w₂' _ _ hw₂ => ?_
    cases r with
    | error e => exact hk _ _ _ _ hw₂
    | ok backup =>
      -- flush if ahead, then ack
      have flush : ∀ h' (v : Option Nat) s' w', At j s' w' →
          wp (contract j)
            (if v.getD 0 < info.stateVersion then
              (flushTracked j.token).bind fun flushed => writeHandoffAck j.token flushed
            else writeHandoffAck j.token info.stateVersion) h' Post s' w' := by
        intro h' v s' w' hw'
        split
        · simp only [wp_bind]
          refine wp_flushTracked hw' (fun hd => absurd hd notDispose) ?_
            fun h' e w' _ hw' => hk _ _ _ _ hw'
          intro info' envelope w₃ w₄ w₅ s'' w'' _ hw''
          exact wp_writeHandoffAck hw'' hverb fun h' w' _ hw' => hk _ _ _ _ hw'
        · exact wp_writeHandoffAck hw' hverb fun h' w' _ hw' => hk _ _ _ _ hw'
      simp only
      exact wp_readBackupVersion hw₂ (fun _ => flush _ _ _ _ hw₂)
        fun envelope key v w₃ w₃' _ _ _ _ _ hw₃ => flush _ _ _ _ hw₃

theorem wp_onEvicted {claimant : Option RoamingLeaseRecord}
    {Post : PostCond World Request Answer Err Unit} (hw : At j s w) (hverb : j.verb = .tick)
    (hk : AnyEnd j Post) : wp (contract j) (onEvicted j.token claimant) h Post s w := by
  simp only [onEvicted, setView, updatePage, Proc.bind_eq, wp_bind, wp_get]
  split
  · exact hk _ _ _ _ hw
  · simp only [wp_bind, wp_attempt]
    refine wp_ask_free hw (fun _ ho => ⟨ho, trivial⟩) fun r w₁ w₁' _ _ hw₁ => ?_
    exact wp_flushAndAck hw₁ hverb fun h' r s' w' hw' => hk _ _ _ _ (hw'.plainView rfl)

theorem wp_tickFailed {Post : PostCond World Request Answer Err Unit} (hw : At j s w)
    (hk : AnyEnd j Post) : wp (contract j) (tickFailed j.token) h Post s w := by
  simp only [tickFailed, Proc.bind_eq, wp_bind]
  refine wp_noteFailure hw fun fenced w' hw' => ?_
  simp only
  split
  · exact wp_selfFence hw' hk
  · exact hk _ _ _ _ hw'

theorem wp_tick {Post : PostCond World Request Answer Err Unit} (hw : At j s w)
    (hverb : j.verb = .tick) (hk : AnyEnd j Post) :
    wp (contract j) (tick j.token) h Post s w := by
  simp only [tick, stopHeartbeat, updatePage, Proc.bind_eq, wp_bind, wp_get]
  split
  · exact hk _ _ _ _ hw
  · simp only [wp_bind, wp_attempt]
    refine wp_ask_free hw (fun _ ho => ⟨ho, trivial⟩) fun r w₁ w₁' _ h₁' hw₁ => ?_
    cases r with
    | error e => exact wp_tickFailed hw₁ hk
    | ok prev =>
      simp only
      cases hd : heartbeatDecision prev j.token with
      | evicted =>
        simp only [wp_bind, wp_modify]
        exact wp_onEvicted (hw₁.setTimer none) hverb hk
      | renew =>
        have hours : ∀ r ∈ prev, r.owner = j.token := by
          intro r hr
          cases hr
          by_contra hne
          simp [heartbeatDecision, hne] at hd
        simp only [wp_bind, wp_attempt]
        refine wp_writeOurRecord hw₁ rfl h₁'.clock ⟨hverb, hours⟩ ?_
          fun h' e w₂ _ hw₂ => wp_tickFailed hw₂ hk
        intro info rec w₂ w₃ w₄ _ _ _ _ hw₄
        exact hk _ _ _ _ (hw₄.core ⟨rfl, rfl, rfl, rfl, rfl, rfl, rfl, rfl, rfl⟩)

/-! ## Closing down -/

theorem wp_disposeRunning {Post : PostCond World Request Answer Err Unit} (hw : At j s w)
    (hverb : j.verb = .dispose) (hk : AnyEnd j Post) :
    wp (contract j) (disposeRunning j.token) h Post s w := by
  simp only [disposeRunning, Proc.bind_eq, wp_bind]
  refine wp_ask_free hw (fun _ ho => ⟨ho, trivial⟩) fun r w₁ w₁' _ _ hw₁ => ?_
  cases r with
  | error e => exact hk _ _ _ _ hw₁
  | ok u =>
    refine wp_flushTracked hw₁ (fun _ => ⟨w₁, by simp⟩) ?_ fun h' e w' _ hw' => hk _ _ _ _ hw'
    intro info envelope w₂ w₃ w₄ s' w' _ hw'
    simp only
    refine wp_ask_free hw' (fun _ ho => ⟨ho, trivial⟩) fun r w₅ w₅' _ _ hw₅ => ?_
    cases r with
    | error e => exact hk _ _ _ _ hw₅
    | ok info' =>
      refine wp_release hw₅ ?_ fun h' w' _ hw' => hk _ _ _ _ hw'
      intro h₁ base w₀ local_ w₆ hread howner _
      refine ⟨howner, ?_⟩
      rw [hverb]
      refine .inr ⟨envelope, w₃, ?_⟩
      rcases hread with ⟨-, rfl⟩ | ⟨hnone, -⟩
      · simp
      · cases hnone

theorem wp_dispose {Post : PostCond World Request Answer Err Unit} (hw : At j s w)
    (hverb : j.verb = .dispose) (hnil : h = []) (hk : AnyEnd j Post) :
    wp (contract j) (dispose j.token) h Post s w := by
  simp only [dispose, setView, updatePage, Proc.bind_eq, wp_bind, wp_get, wp_modify, wp_attempt]
  have hw' := hw.core (f := fun p => { p with disposed := true, heartbeatTimer := none })
    ⟨rfl, rfl, rfl, rfl, rfl, rfl, rfl, rfl, rfl⟩
  have done : AnyEnd j fun h' (_ : Except Err Unit) s' w' =>
      Post h' (.ok ()) s' (w'.setPage j.token fun p => { p with view := .stopped }) :=
    fun h' r s' w' hw' => hk _ _ _ _ (hw'.plainView rfl)
  split
  · exact wp_disposeRunning hw' hverb done
  · refine wp_release hw' ?_ fun h' w' _ hw' => done h' (.ok ()) w' w' hw'
    intro h₁ base w₀ local_ w₁ hread howner _
    refine ⟨howner, ?_⟩
    rw [hverb]
    rcases hread with ⟨hsome, -⟩ | ⟨-, info, wl, hloc, rfl⟩
    · cases hsome
    · exact .inl ⟨info, wl, w₀, hloc, by rw [hnil]⟩

theorem wp_closeSoon {Post : PostCond World Request Answer Err Unit} (hw : At j s w)
    (hverb : j.verb = .closeSoon) (hk : AnyEnd j Post) :
    wp (contract j) (closeSoon j.token) h Post s w := by
  have notDispose : j.verb ≠ .dispose := by
    rw [hverb]
    decide
  simp only [closeSoon, updatePage, Proc.bind_eq, wp_bind, wp_get]
  split
  · simp only [wp_bind, wp_modify, wp_attempt]
    have hw' := hw.core (f := fun p => { p with syncTimer := none })
      ⟨rfl, rfl, rfl, rfl, rfl, rfl, rfl, rfl, rfl⟩
    refine wp_ask_free hw' (fun _ ho => ⟨ho, trivial⟩) fun r w₁ w₁' _ _ hw₁ => ?_
    cases r with
    | error e => exact hk _ _ _ _ hw₁
    | ok info =>
      have hw₂ := hw₁.core (f := fun p => { p with localVersion := info.stateVersion })
        ⟨rfl, rfl, rfl, rfl, rfl, rfl, rfl, rfl, rfl⟩
      -- the release, wherever the flush has left things
      have close : ∀ h' s' w', ⟨.readLocal, .ok info, w₁⟩ ∈ h' → At j s' w' →
          wp (contract j)
            (release j.token (some info.stateVersion) (some (w'.pages j.token).flushedVersion))
            h' (fun h' r s' w' => Post h' (.ok ()) s' w') s' w' := by
        intro h' s' w' hmem hw'
        refine wp_release hw' ?_ fun h' w' _ hw' => hk _ _ _ _ hw'
        intro h₁ base w₀ local_ w₃ hread howner hev
        refine ⟨howner, ?_⟩
        rw [hverb]
        rcases hread with ⟨hsome, rfl⟩ | ⟨hnone, -⟩
        · cases hsome
          refine ⟨info, w₁, List.mem_cons_of_mem _ hmem, rfl, fun hclean => ?_⟩
          simp only [Option.getD_some, decide_eq_true_eq] at hclean
          exact Nat.le_trans hclean (hev.flushed j.token)
        · cases hnone
      simp only [wp_get]
      split
      · simp only [wp_bind]
        refine wp_flushTracked hw₂ (fun hd => absurd hd notDispose) ?_
          fun h' e w' _ hw' => hk _ _ _ _ hw'
        intro info' envelope w₃ w₄ w₅ s' w' _ hw'
        exact close _ _ _ (by simp) hw'
      · exact close _ _ _ (by simp) hw₂
  · exact hk _ _ _ _ hw

theorem wp_releaseSync {Post : PostCond World Request Answer Err Unit} (hw : At j s w)
    (hverb : j.verb = .releaseSync) (hk : AnyEnd j Post) :
    wp (contract j) (releaseSync j.token) h Post s w := by
  simp only [releaseSync, Proc.bind_eq, wp_bind, wp_get]
  exact wp_releaseSyncKeepalive hw hverb fun h' s' w' hw' => hk _ _ _ _ hw'

/-! ## Uploads and events -/

theorem wp_sync {Post : PostCond World Request Answer Err Unit} (hw : At j s w)
    (hverb : j.verb = .sync) (hk : AnyEnd j Post) :
    wp (contract j) (sync j.token) h Post s w := by
  simp only [sync, Proc.bind_eq, wp_bind, wp_attempt]
  refine wp_flushTracked hw (fun hd => ?_) (fun _ _ _ _ _ _ _ _ hw' => hk _ _ _ _ hw')
    fun _ _ _ _ hw' => hk _ _ _ _ hw'
  rw [hverb] at hd
  cases hd

theorem wp_onControllerEvent {changed connected : Bool}
    {Post : PostCond World Request Answer Err Unit} (hw : At j s w) (hk : AnyEnd j Post) :
    wp (contract j) (onControllerEvent j.token changed connected) h Post s w := by
  simp only [onControllerEvent, armSync, Proc.bind_eq, wp_bind, wp_get]
  -- whether or not the upload was armed
  have read : ∀ w', At j s w' →
      wp (contract j) (refreshLocalVersion j.token) h Post s w' := by
    intro w' hw'
    simp only [refreshLocalVersion, updatePage, Proc.bind_eq, wp_bind, wp_attempt]
    refine wp_ask_free hw' (fun _ ho => ⟨ho, trivial⟩) fun r w₁ w₂ _ _ hw₂ => ?_
    cases r with
    | error e => exact hk _ _ _ _ hw₂
    | ok info =>
      exact hk _ _ _ _ (hw₂.core (f := fun p => { p with localVersion := info.stateVersion })
        ⟨rfl, rfl, rfl, rfl, rfl, rfl, rfl, rfl, rfl⟩)
  split
  · simp only [wp_bind, wp_modify]
    exact read _ (hw.core
      (f := fun p => { p with syncTimer := some (w.clock + DRIVE_SYNC_DEBOUNCE_MS) })
      ⟨rfl, rfl, rfl, rfl, rfl, rfl, rfl, rfl, rfl⟩)
  · exact read w hw

/-! ## The protocol -/

/-- Every handler meets the contract of its job. -/
theorem wp_handler {e : Event} {j : Job} {p : Roam Unit} {w : World}
    (he : handler e = some (j, p)) (hi : Inv w) (ho : Opened w j.token) :
    wp (contract j) p [] (protocol.ends j) w w := by
  have hw : At j w w := At.start hi ho
  have hk : AnyEnd j (protocol.ends j) := fun _ _ _ _ hw' => ⟨hw'.sync, hw'.inv⟩
  cases e <;> simp only [handler, reduceCtorEq, Option.some.injEq, Prod.mk.injEq] at he <;>
    obtain ⟨rfl, rfl⟩ := he
  case boot t => exact wp_boot hw rfl hk
  case moveHere t polls => exact wp_moveHere hw rfl hk
  case submitSecret t secret => exact wp_submitSecret hw rfl rfl hk
  case forceRestoreAnyway t => exact wp_forceRestoreAnyway hw rfl hk
  case dispose t => exact wp_dispose hw rfl rfl hk
  case hidden t => exact wp_closeSoon hw rfl hk
  case pageHide t => exact wp_releaseSync hw rfl hk
  case heartbeat t => exact wp_tick hw rfl hk
  case syncFires t => exact wp_sync hw rfl hk
  case controllerEvent t changed connected => exact wp_onControllerEvent hw hk

/-- The protocol admits every event of the machine. -/
theorem admits (e : Event) : protocol.Admits e := by
  intro w w' called hi he
  simp only [embed, Option.map_eq_some_iff, Prod.mk.injEq] at he
  obtain ⟨w'', heff, rfl, rfl⟩ := he
  obtain ⟨hev, hinv, hopen⟩ := effect_respects hi heff
  refine ⟨hev, ?_⟩
  cases hh : handler e with
  | none => exact hinv
  | some jp => exact wp_handler hh hinv (hopen jp.1 jp.2 hh)

/-- Before any page is opened the invariant holds. -/
theorem inv_initial {w : World} (hp : ∀ t, w.pages t = {}) : Inv w := by
  intro t
  rw [hp t]
  exact
    { unopened := fun _ => rfl
      postClaim := by simp
      lastWritten := by simp
      blocked := by simp
      needSecret := by simp
      halted := by simp
      flushed := .inr (.inl rfl) }

end LibreWallet.Embed
