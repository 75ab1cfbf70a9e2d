import LibreWallet.Embed.Steps

/-
  Embed/LeaseSpec.lean --- one specification for each operation of the lease.

  Each is stated in continuation form: what has to hold before, and what the caller
  may use of the requests made and of the state left.  The callers never unfold an
  operation.
-/

set_option autoImplicit false

namespace LibreWallet.Embed

open Async Controller Roaming

/-- Where the code of a job stands: its synchronous code since the last resume did
what it may, and the invariant holds. -/
structure At (j : Job) (s w : World) : Prop where
  sync : SyncStep j s w
  inv : Inv w
  opened : Opened w j.token

variable {j : Job} {s w : World} {h : List RoamEntry} {α : Type}

namespace At

theorem start (hi : Inv w) (ho : Opened w j.token) : At j w w where
  sync := SyncStep.refl j w
  inv := hi
  opened := ho

/-- One more update of the job's own page. -/
theorem update (hw : At j s w) {f : Page → Page}
    (hf : PageStep w.drive j.verb (w.pages j.token) (f (w.pages j.token)))
    (hp : PageInv w.drive (Restored w (w.pages j.token).origin) j.token (f (w.pages j.token))) :
    At j s (w.setPage j.token f) where
  sync := hw.sync.setPage hf
  inv := by
    intro u
    by_cases hu : u = j.token
    · subst hu
      rw [World.setPage_self, hf.origin]
      exact hp
    · rw [World.setPage_of_ne _ _ _ hu]
      exact hw.inv u
  opened := by
    rw [Opened, World.setPage_self, hf.status]
    exact hw.opened

/-- An update of timers and counters. -/
theorem core (hw : At j s w) {f : Page → Page}
    (hf : SameCore (w.pages j.token) (f (w.pages j.token))) : At j s (w.setPage j.token f) :=
  hw.update hf.pageStep ((hw.inv j.token).core hf hw.opened)

/-- An update of the view, to one that promises nothing it should not. -/
theorem view (hw : At j s w) (v : View)
    (hb : ∀ o e, v = .blocked o e → w.drive.Held (w.pages j.token).preClaimRecord)
    (hn : v = .needSecret → w.drive.Held (w.pages j.token).preClaimRecord ∧
      (w.pages j.token).lastWritten.isSome = true)
    (hh : ∀ r m o, v = .halted r m (some o) →
      w.drive.Held (w.pages j.token).preClaimRecord ∧
        (w.pages j.token).lastWritten.isSome = true) :
    At j s (w.setPage j.token fun p => { p with view := v }) :=
  hw.update
    { origin := rfl, status := rfl, wallet := rfl, preClaim := id, override := id
      overrideBy := .inl, flushed := Nat.le_refl _, lastWritten := id }
    { hw.inv j.token with
      unopened := fun hs => absurd hs hw.opened
      blocked := hb, needSecret := hn, halted := hh }

/-- The present state comes after the one the code resumed at. -/
theorem evolves (hw : At j s w) : Evolves s w := hw.sync.evolves

end At

/-- A page update of the job's own is a step for everyone. -/
theorem evolves_of_at {w' : World} (hw : At j w w') : Evolves w w' := hw.sync.evolves

/-! ## Requests -/

/-- The rule for one request: pay its obligation, go on from any later state. -/
theorem wp_ask {q : Request} {Post : PostCond World Request Answer Err (Answer q)}
    (hw : At j s w)
    (hob : ∀ w₁, Evolves w w₁ → Opened w₁ j.token → Obliged j h q w₁)
    (hk : ∀ c r w₁ w₂ w₃, Evolves w w₁ → exec j.token q c w₁ = some (r, w₂) →
      Evolves w₁ w₂ → Evolves w₂ w₃ → At j w₃ w₃ → Post (⟨q, r, w₁⟩ :: h) r w₃ w₃) :
    wp (contract j) (ask q) h Post s w := by
  rw [ask, wp_request]
  refine ⟨hw.sync, hw.inv, fun w₁ hr₁ hi₁ c r w₂ _ he => ?_⟩
  have hev₁ : Evolves w w₁ := hr₁
  have ho₁ := hev₁.opened j.token hw.opened
  obtain ⟨hev₂, hi₂⟩ := exec_respects hi₁ ho₁ he
  refine ⟨hob w₁ hr₁ ho₁, hev₂, hi₂, fun w₃ hr₃ hi₃ => ?_⟩
  have hev₃ : Evolves w₂ w₃ := hr₃
  have ho₃ := hev₃.opened j.token (hev₂.opened j.token ho₁)
  exact hk c r w₁ w₂ w₃ hr₁ he hev₂ hr₃ (At.start hi₃ ho₃)

/-- The rule for a request that owes nothing and whose answer is all that matters. -/
theorem wp_ask_free {q : Request} {Post : PostCond World Request Answer Err (Answer q)}
    (hw : At j s w) (hob : ∀ w₁, Opened w₁ j.token → Obliged j h q w₁)
    (hk : ∀ r w₁ w₃, Evolves w w₁ → Evolves w₁ w₃ → At j w₃ w₃ →
      Post (⟨q, r, w₁⟩ :: h) r w₃ w₃) :
    wp (contract j) (ask q) h Post s w :=
  wp_ask hw (fun w₁ _ ho => hob w₁ ho) fun _ r w₁ _ w₃ h₁ _ h₂ h₃ hw₃ =>
    hk r w₁ w₃ h₁ (h₂.trans _ _ _ h₃) hw₃

/-- A lease read that succeeds returns what the file holds. -/
theorem held_of_leaseRead {t : String} {site : ReadSite} {c : Choice}
    {r : Option RoamingLeaseRecord} {w₁ w₂ : World}
    (he : exec t (.leaseRead site) c w₁ = some (.ok r, w₂)) : w₁.drive.Held r := by
  simp only [exec, Option.some.injEq, Prod.mk.injEq] at he
  split at he
  · obtain ⟨h, -⟩ := he
    cases h
    exact Drive.held_lease _
  · cases he.1

/-- A lease write that is answered has landed. -/
theorem mem_writes_of_leaseWrite {t : String} {how : WriteKind} {rec : RoamingLeaseRecord}
    {c : Choice} {w₁ w₂ : World}
    (he : exec t (.leaseWrite how rec) c w₁ = some (.ok (), w₂)) :
    ⟨t, how, rec⟩ ∈ w₂.drive.writes := by
  cases c <;> simp [exec] at he
  rw [← he]
  simp [World.writeLease]

/-! ## Reads -/

theorem wp_peek {site : ReadSite}
    {Post : PostCond World Request Answer Err (Option RoamingLeaseRecord × RoamingLeaseState)}
    (hw : At j s w)
    (hob : ∀ w₁, Evolves w w₁ → Opened w₁ j.token → Obliged j h (.leaseRead site) w₁)
    (hok : ∀ rec w₁ w₃, Evolves w w₁ → Evolves w₁ w₃ → w₁.drive.Held rec → At j w₃ w₃ →
      Post (⟨.leaseRead site, .ok rec, w₁⟩ :: h) (.ok (rec, leaseState rec j.token w₃.clock))
        w₃ w₃)
    (herr : ∀ h' e w₃, h <:+ h' → Evolves w w₃ → At j w₃ w₃ → Post h' (.error e) w₃ w₃) :
    wp (contract j) (peek j.token site) h Post s w := by
  simp only [peek, Proc.bind_eq, wp_bind, wp_rescue]
  refine wp_ask hw hob fun c r w₁ w₂ w₃ h₁ he h₂ h₃ hw₃ => ?_
  cases r with
  | ok rec => exact hok rec w₁ w₃ h₁ (h₂.trans _ _ _ h₃) (held_of_leaseRead he) hw₃
  | error e => exact herr _ _ w₃ (List.suffix_cons _ _) (h₁.trans _ _ _ (h₂.trans _ _ _ h₃)) hw₃

theorem wp_confirmStillOurs {Post : PostCond World Request Answer Err Unit} (hw : At j s w)
    (hlast : (w.pages j.token).lastWritten.isSome = true)
    (hacq : j.verb = .boot → Acquired j.token false h)
    (hok : ∀ rec w₁ w₃, Evolves w w₁ → Evolves w₁ w₃ → rec.owner = j.token → At j w₃ w₃ →
      Post (⟨.leaseRead .confirm, .ok (some rec), w₁⟩ :: h) (.ok ()) w₃ w₃)
    (herr : ∀ h' e w₃, Evolves w w₃ → At j w₃ w₃ → Post h' (.error e) w₃ w₃) :
    wp (contract j) (confirmStillOurs j.token) h Post s w := by
  simp only [confirmStillOurs, Proc.bind_eq, wp_bind]
  refine wp_peek hw (fun w₁ h₁ ho => ⟨ho, h₁.lastWritten j.token hlast, hacq⟩)
    (fun rec w₁ w₃ h₁ h₃ _ hw₃ => ?_)
    fun h' e w₃ _ => herr h' e w₃
  simp only [wp_get]
  split
  · rename_i hours
    obtain ⟨r, rfl, howner⟩ := leaseState_eq_ours_iff.mp hours
    exact hok r w₁ w₃ h₁ h₃ howner hw₃
  · exact herr _ _ w₃ (h₁.trans _ _ _ h₃) hw₃

/-! ## Claims -/

/-- Who may write our own record from where. -/
def SiteOk (j : Job) (site : ReadSite) (prev : Option RoamingLeaseRecord) (now : Nat) : Prop :=
  match site with
  | .acquire => (j.verb = .boot ∧ leaseState prev j.token now ≠ .foreignLive) ∨ j.verb = .moveHere
  | .tick => j.verb = .tick ∧ ∀ r ∈ prev, r.owner = j.token
  | .clear => j.verb = .forceRestoreAnyway ∧ ∃ r, prev = some r ∧ r.owner = j.token
  | _ => False

/-- The record that `writeOurRecord` writes. -/
def claimRecord (token : String) (page : Page) (site : ReadSite)
    (prev : Option RoamingLeaseRecord) (now version : Nat) : RoamingLeaseRecord :=
  buildLeaseRecord
    { ownerToken := token, origin := page.origin, appName := page.appName, now, previous := prev
      heartbeatStateVersion := version, clearPredecessor := site = .clear }

/-- Setting `lastWritten` to a record of ours that landed. -/
theorem At.lastWritten {how : WriteKind} {rec : RoamingLeaseRecord} (hw : At j s w)
    (hx : ⟨j.token, how, rec⟩ ∈ w.drive.writes) (hown : rec.owner = j.token)
    (hhow : ∃ site previous, how = .claim site previous) :
    At j s (w.setPage j.token fun p => { p with lastWritten := some rec }) :=
  hw.update
    { origin := rfl, status := rfl, wallet := rfl, preClaim := id, override := id
      overrideBy := .inl, flushed := Nat.le_refl _, lastWritten := fun _ => rfl }
    { hw.inv j.token with
      unopened := fun hs => absurd hs hw.opened
      lastWritten := fun r hr => by
        cases hr
        exact ⟨_, hx, rfl, rfl, hown, hhow⟩
      needSecret := fun hv => ⟨((hw.inv j.token).needSecret hv).1, rfl⟩
      halted := fun r m o hv => ⟨((hw.inv j.token).halted r m o hv).1, rfl⟩ }

theorem wp_writeOurRecord {site : ReadSite} {prev : Option RoamingLeaseRecord} {w₀ : World}
    {earlier : List RoamEntry} {Post : PostCond World Request Answer Err RoamingLeaseRecord}
    (hw : At j s w) (hh : h = ⟨.leaseRead site, .ok prev, w₀⟩ :: earlier)
    (hclock : w₀.clock ≤ w.clock) (hsite : SiteOk j site prev w.clock)
    (hok : ∀ info rec w₁ w₂ w₃,
      rec = claimRecord j.token (w.pages j.token) site prev w.clock info.stateVersion →
      Evolves w w₁ → Evolves w₁ w₂ → Evolves w₂ w₃ →
      At j w₃ (w₃.setPage j.token fun p => { p with lastWritten := some rec }) →
      Post
        (⟨.leaseWrite (.claim site prev) rec, .ok (), w₂⟩ :: ⟨.readLocal, .ok info, w₁⟩ :: h)
        (.ok rec) w₃ (w₃.setPage j.token fun p => { p with lastWritten := some rec }))
    (herr : ∀ h' e w₃, Evolves w w₃ → At j w₃ w₃ → Post h' (.error e) w₃ w₃) :
    wp (contract j) (writeOurRecord j.token site prev) h Post s w := by
  simp only [writeOurRecord, Proc.bind_eq, wp_bind, wp_get]
  refine wp_ask_free hw (fun _ ho => ⟨ho, trivial⟩) fun r w₁ w₁' h₁ h₁' hw₁ => ?_
  cases r with
  | error e => exact herr _ _ _ (h₁.trans _ _ _ h₁') hw₁
  | ok info =>
    refine wp_ask hw₁ (fun w₂ h₂ ho => ⟨ho, ?_⟩) fun c r w₂ w₂' w₃ h₂ he h₂' h₃ hw₃ => ?_
    · refine ⟨info, w₀, w₁, earlier, (w.pages j.token).origin, (w.pages j.token).appName,
        w.clock, by rw [hh], rfl, hclock, h₁.clock, ?_⟩
      cases site <;> exact hsite
    · cases r with
      | error e =>
        exact herr _ _ _ ((h₁.trans _ _ _ h₁').trans _ _ _
          (h₂.trans _ _ _ (h₂'.trans _ _ _ h₃))) hw₃
      | ok u =>
        have hx := mem_writes_of_leaseWrite he
        exact hok info _ w₁ w₂ w₃ rfl h₁ (h₁'.trans _ _ _ h₂) (h₂'.trans _ _ _ h₃)
          (hw₃.lastWritten (h₃.writes.subset hx) rfl ⟨site, prev, rfl⟩)

/-- `acquire` makes exactly its block of requests, or throws. -/
theorem wp_acquire {takeover : Bool}
    {Post : PostCond World Request Answer Err RoamingLeaseRecord} (hw : At j s w)
    (hverb : (takeover = false ∧ j.verb = .boot) ∨ (takeover = true ∧ j.verb = .moveHere))
    (hok : ∀ block rec w₄, AcquireBlock j.token takeover block → Evolves w w₄ → At j w₄ w₄ →
      (w₄.pages j.token).lastWritten.isSome = true → Post (block ++ h) (.ok rec) w₄ w₄)
    (herr : ∀ h' e w₄, Evolves w w₄ → At j w₄ w₄ → Post h' (.error e) w₄ w₄) :
    wp (contract j) (acquire j.token takeover) h Post s w := by
  simp only [acquire, Proc.bind_eq, wp_bind]
  refine wp_peek hw (fun _ _ ho => ⟨ho, trivial⟩) (fun prev w₀ w₀' h₀ h₀' _ hw₀ => ?_)
    fun h' e w₀ _ => herr h' e w₀
  have hev₀ := h₀.trans _ _ _ h₀'
  simp only [wp_get]
  split
  · exact herr _ _ _ hev₀ hw₀
  rename_i hgate
  have hfree : takeover = false → leaseState prev j.token w₀'.clock ≠ .foreignLive := by
    rintro rfl hlive
    exact hgate ⟨hlive, by simp⟩
  simp only [wp_bind, wp_rescue]
  refine wp_writeOurRecord hw₀ rfl h₀'.clock ?_ ?_ fun h' e w₃ hev hw₃ =>
    herr _ _ _ (hev₀.trans _ _ _ hev) hw₃
  · rcases hverb with ⟨ht, hv⟩ | ⟨-, hv⟩
    · exact .inl ⟨hv, hfree ht⟩
    · exact .inr hv
  rintro info rec w₁ w₂ w₃ rfl h₁ h₂ h₃ hw₃
  -- the delay starts at the resume after the write
  refine wp_ask_free hw₃ (fun _ ho => ⟨ho, trivial⟩) fun r w₅ w₅' h₅ h₅' hw₅ => ?_
  have hev₅ := (evolves_of_at hw₃).trans _ _ _ (h₅.trans _ _ _ h₅')
  have hev : Evolves w w₅' :=
    hev₀.trans _ _ _ (h₁.trans _ _ _ (h₂.trans _ _ _ (h₃.trans _ _ _ hev₅)))
  cases r with
  | error e => exact herr _ _ _ hev hw₅
  | ok u =>
    simp only
    refine wp_peek hw₅ (fun _ _ ho => ⟨ho, trivial⟩) (fun after w₆ w₆' h₆ h₆' _ hw₆ => ?_)
      fun h' e w₆ _ hev₆ hw₆ => herr _ _ _ (hev.trans _ _ _ hev₆) hw₆
    have hev₆ := hev.trans _ _ _ (h₆.trans _ _ _ h₆')
    have hlast : (w₆'.pages j.token).lastWritten.isSome = true := by
      refine (h₅.trans _ _ _ (h₅'.trans _ _ _ (h₆.trans _ _ _ h₆'))).lastWritten j.token ?_
      simp
    simp only [wp_get]
    cases after with
    | none => exact herr _ _ _ hev₆ hw₆
    | some rec' =>
      simp only
      split
      · rename_i hours
        obtain ⟨r, hr, howner⟩ := leaseState_eq_ours_iff.mp hours
        cases hr
        refine hok _ rec' w₆' ⟨prev, info, _, rec', (w₀'.pages j.token).origin,
          (w₀'.pages j.token).appName, w₀'.clock, _, w₀, w₁, w₂, w₅, w₆, rfl, rfl, howner, ?_,
          h₀'.clock, h₁.clock, hfree⟩ hev₆ hw₆ hlast
        exact Nat.add_le_add_right h₃.clock _
      · exact herr _ _ _ hev₆ hw₆

/-- `clearPredecessor` never throws. -/
theorem wp_clearPredecessor {Post : PostCond World Request Answer Err Unit} (hw : At j s w)
    (hverb : j.verb = .forceRestoreAnyway)
    (hk : ∀ h' s' w', Evolves w w' → At j s' w' → Post h' (.ok ()) s' w') :
    wp (contract j) (clearPredecessor j.token) h Post s w := by
  simp only [clearPredecessor, Proc.bind_eq, wp_rescue, wp_bind, wp_done]
  refine wp_ask_free hw (fun _ ho => ⟨ho, trivial⟩) fun r w₁ w₁' h₁ h₁' hw₁ => ?_
  have hev := h₁.trans _ _ _ h₁'
  cases r with
  | error e => exact hk _ _ _ hev hw₁
  | ok prev =>
    cases prev with
    | none => exact hk _ _ _ hev hw₁
    | some r =>
      simp only
      split
      · rename_i howner
        simp only [wp_bind]
        refine wp_writeOurRecord hw₁ rfl h₁'.clock ⟨hverb, r, rfl, howner⟩ ?_
          fun h' e w₃ hev₃ hw₃ => hk _ _ _ (hev.trans _ _ _ hev₃) hw₃
        intro info rec w₂ w₃ w₄ _ h₂ h₃ h₄ hw₄
        exact hk _ _ _ (hev.trans _ _ _ (h₂.trans _ _ _ (h₃.trans _ _ _
          (h₄.trans _ _ _ (evolves_of_at hw₄))))) hw₄
      · exact hk _ _ _ hev hw₁

/-! ## Heartbeat bookkeeping -/

theorem At.setTimer (hw : At j s w) (timer : Option Nat) :
    At j s (w.setPage j.token fun p => { p with heartbeatTimer := timer }) :=
  hw.core ⟨rfl, rfl, rfl, rfl, rfl, rfl, rfl, rfl, rfl⟩

theorem wp_noteFailure {Post : PostCond World Request Answer Err Bool} (hw : At j s w)
    (hk : ∀ fenced w', At j s w' → Post h (.ok fenced) s w') :
    wp (contract j) (noteFailure j.token) h Post s w := by
  simp only [noteFailure, updatePage, Proc.bind_eq, wp_bind, wp_get, wp_modify]
  exact hk _ _ (hw.core ⟨rfl, rfl, rfl, rfl, rfl, rfl, rfl, rfl, rfl⟩)

/-! ## Release and ack -/

/-- The history at a release write, and the local version it goes by. -/
def ReleaseRead (h h₁ : List RoamEntry) (base : RoamingLeaseRecord) (w₀ : World)
    (localStateVersion : Option Nat) (local_ : Nat) : Prop :=
  (localStateVersion = some local_ ∧ h₁ = ⟨.leaseRead .release, .ok (some base), w₀⟩ :: h) ∨
  (localStateVersion = none ∧ ∃ info w₁, local_ = info.stateVersion ∧
    h₁ = ⟨.readLocal, .ok info, w₁⟩ :: ⟨.leaseRead .release, .ok (some base), w₀⟩ :: h)

/-- `release` never throws; what it writes is what the caller vouches for. -/
theorem wp_release {localStateVersion flushedVersion : Option Nat}
    {Post : PostCond World Request Answer Err Unit} (hw : At j s w)
    (hrel : ∀ h₁ base w₀ local_ w₁, ReleaseRead h h₁ base w₀ localStateVersion local_ →
      base.owner = j.token → Evolves w w₁ →
      ReleaseOk j h₁ base (decide (local_ ≤ flushedVersion.getD local_)) local_ w₁)
    (hk : ∀ h' w', Evolves w w' → At j w' w' → Post h' (.ok ()) w' w') :
    wp (contract j) (release j.token localStateVersion flushedVersion) h Post s w := by
  simp only [release, stopHeartbeat, updatePage, Proc.bind_eq, wp_bind, wp_rescue, wp_modify]
  have hw' := hw.setTimer none
  have hev : Evolves w (w.setPage j.token fun p => { p with heartbeatTimer := none }) :=
    evolves_of_at ((At.start hw.inv hw.opened).setTimer none)
  refine wp_ask_free hw' (fun _ ho => ⟨ho, trivial⟩) fun r w₀ w₀' h₀ h₀' hw₀ => ?_
  have hev₀ := hev.trans _ _ _ (h₀.trans _ _ _ h₀')
  cases r with
  | error e => exact hk _ _ hev₀ hw₀
  | ok base =>
    cases base with
    | none => exact hk _ _ hev₀ hw₀
    | some base =>
      simp only
      split
      · rename_i howner
        -- the write, once the local version is known
        have write : ∀ h₁ local_ w₁ (Post' : PostCond World Request Answer Err Unit),
            ReleaseRead h h₁ base w₀ localStateVersion local_ → Evolves w w₁ → At j w₁ w₁ →
            (∀ h' r w', Evolves w w' → At j w' w' → Post' h' r w' w') →
            wp (contract j)
              (ask (.leaseWrite (.release base)
                (releasedRecord base (local_ ≤ flushedVersion.getD local_) local_ w₁.clock)))
              h₁ Post' w₁ w₁ := by
          intro h₁ local_ w₁ Post' hread hev₁ hw₁ hk'
          refine wp_ask hw₁ (fun w₂ h₂ ho => ⟨ho, ⟨w₀, ?_⟩, _, local_, w₁.clock, rfl, ?_⟩)
            fun c r w₂ w₂' w₃ h₂ _ h₂' h₃ hw₃ => ?_
          · rcases hread with ⟨-, rfl⟩ | ⟨-, info, wl, -, rfl⟩ <;> simp
          · exact hrel h₁ base w₀ local_ w₂ hread howner (hev₁.trans _ _ _ h₂)
          · exact hk' _ _ _ (hev₁.trans _ _ _ (h₂.trans _ _ _ (h₂'.trans _ _ _ h₃))) hw₃
        cases hl : localStateVersion with
        | some v =>
          simp only [releaseVersion, Proc.pure_eq, wp_bind, wp_done, wp_get]
          refine write _ v w₀' _ (.inl ⟨hl, rfl⟩) hev₀ hw₀ fun h' r w' hev' hw' => ?_
          cases r <;> exact hk _ _ hev' hw'
        | none =>
          simp only [releaseVersion, Proc.bind_eq, wp_bind, wp_get]
          refine wp_ask_free hw₀ (fun _ ho => ⟨ho, trivial⟩) fun r w₁ w₁' h₁ h₁' hw₁ => ?_
          have hev₁ := hev₀.trans _ _ _ (h₁.trans _ _ _ h₁')
          cases r with
          | error e => exact hk _ _ hev₁ hw₁
          | ok info =>
            refine write _ _ w₁' _ (.inr ⟨hl, info, w₁, rfl, rfl⟩) hev₁ hw₁
              fun h' r w' hev' hw' => ?_
            cases r <;> exact hk _ _ hev' hw'
      · exact hk _ _ hev₀ hw₀

theorem wp_releaseSyncKeepalive {localStateVersion flushedVersion : Nat}
    {Post : PostCond World Request Answer Err Unit} (hw : At j s w)
    (hverb : j.verb = .releaseSync)
    (hk : ∀ h' s' w', At j s' w' → Post h' (.ok ()) s' w') :
    wp (contract j) (releaseSyncKeepalive j.token localStateVersion flushedVersion) h Post s w := by
  simp only [releaseSyncKeepalive, stopHeartbeat, updatePage, Proc.bind_eq, wp_bind, wp_modify,
    wp_get]
  have hw' := hw.setTimer none
  cases hl : ((w.setPage j.token fun p => { p with heartbeatTimer := none }).pages
      j.token).lastWritten with
  | none => exact hk _ _ _ hw'
  | some last =>
    simp only [wp_rescue]
    refine wp_ask hw' (fun w₁ h₁ ho => ⟨ho, hverb, ?_, _, _, _, rfl⟩)
      fun c r w₁ w₁' w₂ _ _ _ _ hw₂ => ?_
    · obtain ⟨x, hx, hrest⟩ := (hw'.inv j.token).lastWritten last hl
      exact ⟨x, h₁.writes.subset hx, hrest⟩
    · cases r <;> exact hk _ _ _ hw₂

/-- `writeHandoffAck` never throws. -/
theorem wp_writeHandoffAck {flushedVersion : Nat} {Post : PostCond World Request Answer Err Unit}
    (hw : At j s w) (hverb : j.verb = .tick)
    (hk : ∀ h' w', Evolves w w' → At j w' w' → Post h' (.ok ()) w' w') :
    wp (contract j) (writeHandoffAck j.token flushedVersion) h Post s w := by
  simp only [writeHandoffAck, Proc.bind_eq, wp_bind, wp_rescue]
  refine wp_ask_free hw (fun _ ho => ⟨ho, trivial⟩) fun r w₁ w₁' h₁ h₁' hw₁ => ?_
  have hev := h₁.trans _ _ _ h₁'
  cases r with
  | error e => exact hk _ _ hev hw₁
  | ok base =>
    cases base with
    | none => exact hk _ _ hev hw₁
    | some base =>
      simp only [wp_bind, wp_get]
      refine wp_ask hw₁ (fun w₂ _ ho => ⟨ho, hverb, ⟨w₁, h, rfl⟩, _, _, rfl⟩)
        fun c r w₂ w₂' w₃ h₂ _ h₂' h₃ hw₃ => ?_
      cases r <;> exact hk _ _ (hev.trans _ _ _ (h₂.trans _ _ _ (h₂'.trans _ _ _ h₃))) hw₃

end LibreWallet.Embed
