import LibreWallet.Embed.SessionSpec

/-
  Embed/Runs.lean --- reading the trace of a run of the embed.

  What the answers in a sound configuration's trace say about the present state:
  lease reads returned what the file has held, local reads what the origin had, and
  what an origin has only grows unless something was restored.
-/

set_option autoImplicit false

namespace LibreWallet.Embed

open Async Controller Roaming

/-- The configuration before any page is opened. -/
def initial (w : World) : EmbedConfig := { world := w, pool := [], trace := [] }

/-- Nothing has happened yet: no page was opened and nothing was written to Drive. -/
structure Untouched (w : World) : Prop where
  pages : ∀ t, w.pages t = {}
  log : w.log = []
  writes : w.drive.writes = []
  uploads : w.drive.uploads = []

theorem sound_initial {w : World} (hw : Untouched w) : protocol.Sound (initial w) :=
  .initial (inv_initial hw.pages)

/-- Any run at all. -/
def Reaches (c c' : EmbedConfig) : Prop := embed.Run (fun _ _ => True) c c'

theorem Reaches.exists_of_play {c : EmbedConfig} {s : List (Line Choice Event)}
    {f : EmbedConfig → Bool} (h : (embed.play (fun _ _ => true) s c).any f = true) :
    ∃ c', Reaches c c' ∧ f c' = true := by
  obtain ⟨c', hrun, hf⟩ := Machine.Run.exists_of_play h
  exact ⟨c', hrun.mono fun _ _ _ => trivial, hf⟩

/-- The requests that make a node start. -/
def startsNode : Request → Bool
  | .startNode => true
  | .restore _ _ => true
  | _ => false

variable {c c' : EmbedConfig} {x : Effect World Request Answer Err Job}

/-- Every effect of a trace belongs to a page that was open then. -/
def OpenedThen (c : EmbedConfig) : Prop := ∀ x ∈ c.trace, Opened x.entry.before x.job.token

/-- The effects of procedure `i` in a trace. -/
def past (trace : List (Effect World Request Answer Err Job)) (i : Nat) : List RoamEntry :=
  (trace.filter (·.proc = i)).map (·.entry)

/-- An effect in a procedure's past, and where it stands in the trace. -/
theorem split_of_mem_past {trace : List (Effect World Request Answer Err Job)} {i : Nat}
    {e : RoamEntry} (h : e ∈ past trace i) :
    ∃ later y earlier, trace = later ++ y :: earlier ∧ y.proc = i ∧ y.entry = e := by
  simp only [past, List.mem_map, List.mem_filter, decide_eq_true_eq] at h
  obtain ⟨y, ⟨hy, hi⟩, rfl⟩ := h
  obtain ⟨later, earlier, rfl⟩ := List.append_of_mem hy
  exact ⟨later, y, earlier, rfl, hi, rfl⟩

/-- Two effects of one procedure are of one job. -/
theorem job_eq_of_proc_eq (hc : protocol.Sound c) {y : Effect World Request Answer Err Job}
    (hx : x ∈ c.trace) (hy : y ∈ c.trace) (h : y.proc = x.proc) : y.job = x.job := by
  obtain ⟨p, hp⟩ := hc.owned x hx
  obtain ⟨q, hq⟩ := hc.owned y hy
  rw [h, hp] at hq
  simp only [Option.some.injEq, Prod.mk.injEq] at hq
  exact hq.1.symm

/-- The answer of a lease read is what the file held. -/
theorem lease_of_read (hc : protocol.Sound c) (hx : x ∈ c.trace) {site : ReadSite}
    {r : Option RoamingLeaseRecord} {w : World} (he : x.entry = ⟨.leaseRead site, .ok r, w⟩) :
    w.drive.lease = r := by
  obtain ⟨ch, w', hans⟩ := hc.answered x hx
  rw [he] at hans
  change exec x.job.token (.leaseRead site) ch w = some (.ok r, w') at hans
  cases ch <;> simp [exec] at hans
  exact hans.1

/-- The answer of a lease read is a record that the file has held. -/
theorem held_of_read (hc : protocol.Sound c) (hx : x ∈ c.trace) {site : ReadSite}
    {r : Option RoamingLeaseRecord} {w : World} (he : x.entry = ⟨.leaseRead site, .ok r, w⟩) :
    c.world.drive.Held r := by
  obtain ⟨ch, w', hans⟩ := hc.answered x hx
  have hpast : Evolves x.entry.before c.world := hc.past x hx
  rw [he] at hans hpast
  exact hpast.held (held_of_leaseRead (t := x.job.token) hans)

/-- The answer of a local read is what the origin had on disk then. -/
theorem info_of_read (hc : protocol.Sound c) (hx : x ∈ c.trace) {info : LocalInfo} {w : World}
    (he : x.entry = ⟨.readLocal, .ok info, w⟩) :
    info = localInfo (w.store x.job.token).db := by
  obtain ⟨ch, w', hans⟩ := hc.answered x hx
  rw [he] at hans
  exact readLocal_answer (t := x.job.token) hans

/-- The version of a verification is that of the envelope and its secret. -/
theorem verification_of_read (hc : protocol.Sound c) (hx : x ∈ c.trace) {envelope : Envelope}
    {secret : String} {v : Verification} {w : World}
    (he : x.entry = ⟨.verifyEnvelope envelope secret, .ok v, w⟩) :
    v = verifyBackupEnvelope envelope secret := by
  obtain ⟨ch, w', hans⟩ := hc.answered x hx
  rw [he] at hans
  change exec x.job.token (.verifyEnvelope envelope secret) ch w = some (.ok v, w') at hans
  simp only [exec, Option.some.injEq, Prod.mk.injEq, Except.ok.injEq] at hans
  exact hans.1.symm

/-- What an origin has on disk grows, unless something was restored. -/
theorem store_grows {v w : World} {t : String} (hev : Evolves v w) (ho : Opened v t)
    (hr : ¬ Restored w (v.pages t).origin) :
    (v.store t).db.stateVersion ≤ (w.store t).db.stateVersion ∧
      ((v.store t).db.seed.isSome = true → (w.store t).db.seed.isSome = true) := by
  have horigin := hev.origin t ho
  simp only [World.store, horigin]
  exact ⟨(hev.version _).resolve_left hr, hev.seed _⟩

/-! ## What a step can do -/

/-- What a request of the page of `t` leaves alone. -/
structure Frame (t : String) (q : Request) (v w : World) : Prop where
  clock : w.clock = v.clock
  runs : startsNode q = true ∨ (w.Runs t → v.Runs t)
  version : (∃ e k, q = .restore e k) ∨ version w (v.pages t).origin = version v (v.pages t).origin
  origins : ∀ o, o ≠ (v.pages t).origin → w.origins o = v.origins o
  drive : w.drive = v.drive ∨
    (∃ how rec, q = .leaseWrite how rec ∧ w.drive = (v.writeLease t how rec).drive) ∨
    ∃ e, q = .uploadBackup e ∧ w.drive = (v.upload e).drive
  others : ∀ u, u ≠ t → w.pages u = v.pages u
  page : w.pages t = { v.pages t with wallet := (w.pages t).wallet }
  log : w.log = v.log ∨
    (q = .stopNode ∧ v.Runs t ∧ ¬ w.Runs t ∧
      w.log = .stopped t (v.pages t).origin (v.store t).db.stateVersion :: v.log) ∨
    ∃ e k, q = .restore e k ∧ w.log = .restore t (v.pages t).origin :: v.log

/-- A controller's verb touches its own page's wallet and its own origin. -/
theorem frame_act (t : String) (q : Request) (w : World) (x : Except String Unit × Node)
    (hr : startsNode q = true ∨ (x.2.wallet = .running → w.Runs t))
    (hv : (∃ e k, q = .restore e k) ∨
      x.2.store.db.stateVersion = (w.store t).db.stateVersion) :
    Frame t q w (w.act t x).2 where
  clock := rfl
  runs := hr.imp_right fun h hw => h (by simpa [World.Runs, World.act] using hw)
  version := hv.imp_right fun h => by
    simp only [version, World.act, World.setNode_origins, if_true, h]
    rfl
  origins := fun o ho => by simp only [World.act, World.setNode_origins, if_neg ho]
  drive := .inl rfl
  others := fun _ hu => World.setNode_of_ne _ _ _ hu
  page := by simp [World.act]
  log := .inl rfl

theorem frame_refl (t : String) (q : Request) (w : World) : Frame t q w w where
  clock := rfl
  runs := .inr id
  version := .inr rfl
  origins := fun _ _ => rfl
  drive := .inl rfl
  others := fun _ _ => rfl
  page := rfl
  log := .inl rfl

theorem exec_frame {t : String} {q : Request} {ch : Choice} {w w' : World}
    {r : Except Err (Answer q)} (he : exec t q ch w = some (r, w')) : Frame t q w w' := by
  cases q with
  | leaseRead site | readLocal | fetchBackup | verifyEnvelope | exportBackup =>
    simp only [exec, Option.some.injEq, Prod.mk.injEq] at he
    exact he.2 ▸ frame_refl _ _ _
  | delayUntil deadline =>
    simp only [exec] at he
    split at he
    · simp only [Option.some.injEq, Prod.mk.injEq] at he
      exact he.2 ▸ frame_refl _ _ _
    · cases he
  | leaseWrite how rec =>
    simp only [exec, Option.some.injEq, Prod.mk.injEq] at he
    rcases ite_eq_iff.mp he.2 with ⟨-, rfl⟩ | ⟨-, rfl⟩
    · exact frame_refl _ _ _
    · exact { frame_refl t _ w with drive := .inr (.inl ⟨how, rec, rfl, rfl⟩) }
  | uploadBackup e =>
    simp only [exec, Option.some.injEq, Prod.mk.injEq] at he
    rcases ite_eq_iff.mp he.2 with ⟨-, rfl⟩ | ⟨-, rfl⟩
    · exact frame_refl _ _ _
    · exact { frame_refl t _ w with drive := .inr (.inr ⟨e, rfl, rfl⟩) }
  | startNode =>
    simp only [exec, Option.some.injEq] at he
    have hw : (w.act t (startNode (walletStart t (ch = .ok)) embedFetched (w.node t))).2 = w' :=
      congrArg Prod.snd he
    exact hw ▸ frame_act _ _ _ _ (.inl rfl) (.inr (startNode_none _ _ _).1)
  | restore e k =>
    simp only [exec, Option.some.injEq, Prod.mk.injEq] at he
    obtain ⟨-, rfl⟩ := he
    exact { frame_act t _ w (restoreWallet (walletStart t (ch = .ok)) (w.node t) e k) (.inl rfl)
        (.inl ⟨e, k, rfl⟩) with
      log := .inr (.inr ⟨e, k, rfl, rfl⟩) }
  | stopNode =>
    simp only [exec, Option.some.injEq, Prod.mk.injEq] at he
    have hact := frame_act t .stopNode w (stopNode t (ch = .ok) (w.node t))
      (.inr fun h => stopNode_runs _ _ _ h)
      (.inr (by rw [(stopNode_db t (ch = .ok) (w.node t)).1]; rfl))
    rcases ite_eq_iff.mp he.2 with ⟨hr, rfl⟩ | ⟨-, rfl⟩
    · exact { hact with log := .inr (.inl ⟨rfl, hr.1, hr.2, rfl⟩) }
    · exact hact

/-- Only the timers, the wallet and the status of a page differ. -/
def SameSession (p q : Page) : Prop :=
  q = { p with status := q.status, wallet := q.wallet, heartbeatTimer := q.heartbeatTimer
               syncTimer := q.syncTimer }

/-- What an event leaves alone. -/
structure EventFrame (e : Event) (v w : World) : Prop where
  drive : w.drive = v.drive
  origins : w.origins = v.origins ∨ ∃ t, e = .closePage t ∨ e = .advance t
  version : ∀ o, version w o = version v o ∨
    ∃ t, e = .advance t ∧ v.Runs t ∧ (v.pages t).origin = o
  runs : ∀ t, w.Runs t → v.Runs t
  page : ∀ t, SameSession (v.pages t) (w.pages t) ∧ (Opened w t ↔ Opened v t) ∨
    ∃ origin appName, e = .openPage t origin appName ∧ ¬ Opened v t ∧
      w.pages t = { origin, appName, status := .alive }
  log : w.log = v.log ∨
    ∃ t, e = .closePage t ∧ v.Runs t ∧ w.log =
      .stopped t (v.pages t).origin (v.store t).db.stateVersion :: v.log

theorem EventFrame.refl (e : Event) (w : World) : EventFrame e w w where
  drive := rfl
  origins := .inl rfl
  version := fun _ => .inl rfl
  runs := fun _ h => h
  page := fun _ => .inl ⟨rfl, Iff.rfl⟩
  log := .inl rfl

theorem EventFrame.setPage {e : Event} {w : World} {t : String} {f : Page → Page}
    (hf : SameSession (w.pages t) (f (w.pages t)))
    (hst : (f (w.pages t)).status = (w.pages t).status)
    (hwa : (f (w.pages t)).wallet = (w.pages t).wallet) : EventFrame e w (w.setPage t f) where
  drive := rfl
  origins := .inl rfl
  version := fun _ => .inl rfl
  runs := fun u h => by
    by_cases hu : u = t
    · subst hu
      rwa [World.Runs, World.setPage_self, hwa] at h
    · rwa [World.Runs, World.setPage_of_ne _ _ _ hu] at h
  page := fun u => by
    by_cases hu : u = t
    · subst hu
      rw [Opened, World.setPage_self, hst]
      exact .inl ⟨hf, Iff.rfl⟩
    · rw [Opened, World.setPage_of_ne _ _ _ hu]
      exact .inl ⟨rfl, Iff.rfl⟩
  log := .inl rfl

theorem effect_frame {e : Event} {w w' : World} (he : effect e w = some w') :
    EventFrame e w w' := by
  cases e with
  | pass ms =>
    simp only [effect, Option.some.injEq] at he
    subst he
    exact { EventFrame.refl _ w with }
  | openPage t origin appName =>
    simp only [effect] at he
    split at he
    · rename_i hs
      cases he
      refine { EventFrame.refl _ w with runs := fun u hr => ?_, page := fun u => ?_ } <;>
        by_cases hu : u = t
      · subst hu
        rw [World.Runs, World.setPage_self] at hr
        cases hr
      · rwa [World.Runs, World.setPage_of_ne _ _ _ hu] at hr
      · subst hu
        exact .inr ⟨origin, appName, rfl, fun ho => ho hs, World.setPage_self _ _ _⟩
      · rw [Opened, World.setPage_of_ne _ _ _ hu]
        exact .inl ⟨rfl, Iff.rfl⟩
    · cases he
  | closePage t =>
    simp only [effect] at he
    split at he
    · rename_i ha
      cases he
      have hpages : (died w t).pages = Function.update w.pages t
          { w.pages t with status := .closed, wallet := .absent, heartbeatTimer := none
                           syncTimer := none } := by
        simp only [died]
        split <;> rfl
      refine ⟨?_, .inr ⟨t, .inl rfl⟩, fun o => .inl ?_, fun u hu => ?_, fun u => .inl ?_, ?_⟩
      · simp only [died]
        split <;> rfl
      · exact congrArg LocalDb.stateVersion (died_db w t o)
      · rw [World.Runs, hpages] at hu
        by_cases hut : u = t
        · subst hut
          rw [Function.update_self] at hu
          cases hu
        · rwa [Function.update_of_ne hut] at hu
      · rw [Opened, hpages]
        by_cases hu : u = t
        · subst hu
          rw [Function.update_self]
          exact ⟨rfl, fun _ => opened_of_alive ha, fun _ => by simp⟩
        · rw [Function.update_of_ne hu]
          exact ⟨rfl, Iff.rfl⟩
      · simp only [died]
        split
        · rename_i hr
          exact .inr ⟨t, rfl, hr, rfl⟩
        · exact .inl rfl
    · cases he
  | advance t =>
    simp only [effect] at he
    split at he
    · cases he
      rename_i ha
      refine { EventFrame.refl _ w with origins := .inr ⟨t, .inr rfl⟩, version := fun o => ?_ }
      by_cases ho : (w.pages t).origin = o
      · exact .inr ⟨t, rfl, ha.2, ho⟩
      · refine .inl ?_
        rw [version, version, advanceNode_origins, if_neg (Ne.symm ho)]
    · cases he
  | heartbeat t | syncFires t =>
    simp only [effect] at he
    split at he
    · split at he
      · cases he
        exact EventFrame.setPage rfl rfl rfl
      · cases he
    · cases he
  | _ =>
    simp only [effect] at he
    split at he
    · cases he
      exact EventFrame.refl _ _
    · cases he

/-- What code leaves of a page, and who sets its override. -/
theorem SyncStep.page_of {j : Job} {v w : World} (hs : SyncStep j v w) (t : String) :
    (w.pages t).status = (v.pages t).status ∧ (w.pages t).wallet = (v.pages t).wallet ∧
      ((w.pages t).overrideUnprovenHandoff = true →
        (v.pages t).overrideUnprovenHandoff = true ∨ j = ⟨t, .forceRestoreAnyway⟩) ∧
      (w.pages t).origin = (v.pages t).origin := by
  by_cases ht : t = j.token
  · subst ht
    refine ⟨hs.page.status, hs.page.wallet, fun h => (hs.page.overrideBy h).imp id fun hv => ?_,
      hs.page.origin⟩
    rw [← hv]
  · rw [hs.others t ht]
    exact ⟨rfl, rfl, .inl, rfl⟩

/-! ## The close paths up to their first request -/

/-- The page's death leaves a write only where something was written before, and
`released` only where nothing is unflushed. -/
theorem releaseSync_advance (t : String) (w : World) :
    ((releaseSync t).advance w).2 =
      match (w.pages t).lastWritten with
      | none => .done ()
      | some last =>
        .await (.leaseWrite (.keepalive last)
          (releasedRecord last
            (decide ((w.pages t).localVersion ≤ (w.pages t).flushedVersion))
            (w.pages t).localVersion w.clock)) (fun _ => .done ()) := by
  simp only [releaseSync, releaseSyncKeepalive, stopHeartbeat, updatePage, Proc.bind_eq,
    Proc.advance_get_bind, Proc.advance_modify_bind, World.setPage_self, World.setPage_clock]
  cases hl : (w.pages t).lastWritten with
  | none => rfl
  | some last =>
    simp only [ask, Proc.request, Proc.rescue, Proc.advance, Proc.await.injEq, heq_eq_eq, true_and]
    funext r
    cases r <;> rfl

/-- Hiding a tab that does not show its wallet running does nothing. -/
theorem closeSoon_advance {t : String} {w : World} (h : (w.pages t).view ≠ .running) :
    ((closeSoon t).advance w).2 = .done () := by
  simp only [closeSoon, Proc.bind_eq, Proc.advance_get_bind, if_neg h]
  rfl

/-- A session that runs is disposed of by a stop first. -/
theorem dispose_advance {t : String} {w : World} (h : (w.pages t).view = .running) :
    ∃ k, ((dispose t).advance w).2 = .await .stopNode k := by
  simp only [dispose, updatePage, Proc.bind_eq, Proc.advance_get_bind, Proc.advance_modify_bind,
    World.setPage_self, h, if_true]
  exact ⟨_, rfl⟩

/-! ## What a step of the machine can do -/

/-- Procedure `i` of `j` had its request answered. -/
structure Effected (l : EmbedLabel) (c c' : EmbedConfig) (i : Nat) (j : Job) (q : Request)
    (r : Except Err (Answer q)) : Prop where
  label : ∃ ch, l = .call i ch ∧ exec j.token q ch c.world = some (r, c'.world)
  pool : ∃ k, c.pool[i]? = some (j, .await q k)
  obliged : Obliged j (c.history i) q c.world
  trace : c'.trace = ⟨i, j, ⟨q, r, c.world⟩⟩ :: c.trace

theorem Effected.awaits {l : EmbedLabel} {i : Nat} {j : Job} {q : Request}
    {r : Except Err (Answer q)} (he : Effected l c c' i j q r) : c.awaits i = some (j, q) := by
  obtain ⟨k, hk⟩ := he.pool
  simp [Config.awaits, hk]

section Steps

variable {l : EmbedLabel} (hd : protocol.Did l c c')
include hd

/-- A step answers a request, or leaves Drive and the trace as they are. -/
theorem effected_or_same :
    (∃ i j q r, Effected l c c' i j q r) ∨ (c'.world.drive = c.world.drive ∧ c'.trace = c.trace) := by
  cases hd with
  | call i ch j q k r hl hi _ he ho _ ht => exact .inl ⟨i, j, q, r, ⟨ch, hl, he⟩, ⟨k, hi⟩, ho, ht⟩
  | resume i j p _ _ _ hs _ _ ht => exact .inr ⟨hs.drive, ht⟩
  | event e _ he _ ht =>
    simp only [embed, Option.map_eq_some_iff, Prod.mk.injEq] at he
    obtain ⟨w, heff, rfl, -⟩ := he
    exact .inr ⟨(effect_frame heff).drive, ht⟩
  | called e w j p _ he hs _ _ ht =>
    simp only [embed, Option.map_eq_some_iff, Prod.mk.injEq] at he
    obtain ⟨w', heff, rfl, -⟩ := he
    exact .inr ⟨hs.drive.trans (effect_frame heff).drive, ht⟩

theorem trace_step : c'.trace = c.trace ∨ ∃ i j q r, Effected l c c' i j q r :=
  (effected_or_same hd).symm.imp (·.2) id

/-- What holds of every effect so far holds of the next. -/
theorem trace_forall {p : Effect World Request Answer Err Job → Prop} (hp : ∀ x ∈ c.trace, p x)
    (hnew : ∀ i j q r, Effected l c c' i j q r → p ⟨i, j, ⟨q, r, c.world⟩⟩) :
    ∀ x ∈ c'.trace, p x := by
  intro x hx
  rcases trace_step hd with h | ⟨i, j, q, r, he⟩
  · exact hp x (h ▸ hx)
  · rw [he.trace] at hx
    rcases List.mem_cons.mp hx with rfl | hx
    · exact hnew i j q r he
    · exact hp x hx

/-- What the files held at first is fixed. -/
theorem first_step : c'.world.drive.firstLease = c.world.drive.firstLease ∧
    c'.world.drive.firstBackup = c.world.drive.firstBackup := by
  rcases effected_or_same hd with ⟨i, j, q, r, he⟩ | ⟨h, -⟩
  · obtain ⟨ch, -, hex⟩ := he.label
    rcases (exec_frame hex).drive with h | ⟨how, rec, rfl, h⟩ | ⟨e, rfl, h⟩ <;>
      exact ⟨h ▸ rfl, h ▸ rfl⟩
  · exact ⟨congrArg Drive.firstLease h, congrArg Drive.firstBackup h⟩

/-- Who changed the lease file was obliged to. -/
theorem writes_step : c'.world.drive.writes = c.world.drive.writes ∨
    ∃ i j how rec r, Effected l c c' i j (.leaseWrite how rec) r ∧
      c'.world.drive.writes = ⟨j.token, how, rec⟩ :: c.world.drive.writes := by
  rcases effected_or_same hd with ⟨i, j, q, r, he⟩ | ⟨h, -⟩
  · obtain ⟨ch, -, hex⟩ := he.label
    rcases (exec_frame hex).drive with h | ⟨how, rec, rfl, h⟩ | ⟨e, rfl, h⟩
    · exact .inl (congrArg Drive.writes h)
    · exact .inr ⟨i, j, how, rec, r, he, congrArg Drive.writes h⟩
    · exact .inl (by rw [h]; rfl)
  · exact .inl (congrArg Drive.writes h)

theorem uploads_step : c'.world.drive.uploads = c.world.drive.uploads ∨
    ∃ i j e r, Effected l c c' i j (.uploadBackup e) r ∧
      c'.world.drive.uploads = e :: c.world.drive.uploads := by
  rcases effected_or_same hd with ⟨i, j, q, r, he⟩ | ⟨h, -⟩
  · obtain ⟨ch, -, hex⟩ := he.label
    rcases (exec_frame hex).drive with h | ⟨how, rec, rfl, h⟩ | ⟨e, rfl, h⟩
    · exact .inl (congrArg Drive.uploads h)
    · exact .inl (by rw [h]; rfl)
    · exact .inr ⟨i, j, e, r, he, congrArg Drive.uploads h⟩
  · exact .inl (congrArg Drive.uploads h)

/-- What a step adds to the log. -/
inductive Noted (l : EmbedLabel) (c c' : EmbedConfig) : Note → Prop where
  | evaluated {t : String} {i : HandoffProofInputs} :
      Judged c.world.drive i → Noted l c c' (.evaluated t i)
  | stopped {i : Nat} {j : Job} {r : Except Err Unit} :
      Effected l c c' i j .stopNode r → c.world.Runs j.token → ¬ c'.world.Runs j.token →
      Noted l c c' (.stopped j.token (c.world.pages j.token).origin
        (c.world.store j.token).db.stateVersion)
  | died {t : String} : l = .event (.closePage t) → c.world.Runs t →
      Noted l c c' (.stopped t (c.world.pages t).origin (c.world.store t).db.stateVersion)
  | restore {i : Nat} {j : Job} {e : Envelope} {k : String} {r : Except Err Unit} :
      Effected l c c' i j (.restore e k) r → Noted l c c' (.restore j.token (c.world.pages j.token).origin)

theorem log_step {n : Note} (hn : n ∈ c'.world.log) : n ∈ c.world.log ∨ Noted l c c' n := by
  -- the events' own note, and those of the synchronous code
  have event : ∀ {e : Event} {w : World}, l = .event e → effect e c.world = some w →
      n ∈ w.log → n ∈ c.world.log ∨ Noted l c c' n := by
    intro e w hl he hn
    rcases (effect_frame he).log with h | ⟨t, rfl, hr, h⟩ <;> rw [h] at hn
    · exact .inl hn
    · rcases List.mem_cons.mp hn with rfl | hn
      · exact .inr (.died hl hr)
      · exact .inl hn
  have code : ∀ {j : Job} {w : World}, SyncStep j w c'.world → w.drive = c.world.drive →
      n ∈ w.log ∨ Noted l c c' n := by
    intro j w hs hw
    obtain ⟨new, hlog, hnew⟩ := hs.log
    rw [hlog] at hn
    rcases List.mem_append.mp hn with hn | hn
    · obtain ⟨i, rfl, hi⟩ := hnew n hn
      exact .inr (.evaluated (hw ▸ hi))
    · exact .inl hn
  cases hd with
  | call i ch j q k r hl hi _ he ho _ ht =>
    have heff : Effected l c c' i j q r := ⟨⟨ch, hl, he⟩, ⟨k, hi⟩, ho, ht⟩
    rcases (exec_frame (t := j.token) he).log with h | ⟨rfl, hr, hr', h⟩ | ⟨e, k, rfl, h⟩ <;>
      rw [h] at hn
    · exact .inl hn
    · rcases List.mem_cons.mp hn with rfl | hn
      · exact .inr (.stopped heff hr hr')
      · exact .inl hn
    · rcases List.mem_cons.mp hn with rfl | hn
      · exact .inr (.restore heff)
      · exact .inl hn
  | resume i j p _ _ _ hs _ _ _ => exact code hs rfl
  | event e hl he _ _ =>
    simp only [embed, Option.map_eq_some_iff, Prod.mk.injEq] at he
    obtain ⟨w, heff, rfl, -⟩ := he
    exact event hl heff hn
  | called e w j p hl he hs _ _ _ =>
    simp only [embed, Option.map_eq_some_iff, Prod.mk.injEq] at he
    obtain ⟨w', heff, rfl, -⟩ := he
    exact (code hs (effect_frame heff).drive).elim (event hl heff) .inr

/-- Only `forceRestoreAnyway` sets the override. -/
theorem override_step {t : String}
    (ht : (c'.world.pages t).overrideUnprovenHandoff = true) :
    (c.world.pages t).overrideUnprovenHandoff = true ∨
      (∃ (i : Nat) (p : Roam Unit), c.pool[i]? = some (⟨t, .forceRestoreAnyway⟩, p)) ∨
      l = .event (.forceRestoreAnyway t) := by
  have event : ∀ {e : Event} {w : World}, effect e c.world = some w →
      (w.pages t).overrideUnprovenHandoff = true →
      (c.world.pages t).overrideUnprovenHandoff = true := by
    intro e w he hw
    rcases (effect_frame he).page t with ⟨h, -⟩ | ⟨origin, appName, -, -, h⟩
    · rw [h] at hw
      exact hw
    · rw [h] at hw
      cases hw
  cases hd with
  | call i ch j q k r _ _ _ he _ _ _ =>
    have hf := exec_frame (t := j.token) he
    by_cases hj : t = j.token
    · subst hj
      rw [hf.page] at ht
      exact .inl ht
    · rw [hf.others t hj] at ht
      exact .inl ht
  | resume i j p _ hi _ hs _ _ _ =>
    rcases (hs.page_of t).2.2.1 ht with h | rfl
    · exact .inl h
    · exact .inr (.inl ⟨i, p, hi⟩)
  | event e _ he _ _ =>
    simp only [embed, Option.map_eq_some_iff, Prod.mk.injEq] at he
    obtain ⟨w, heff, rfl, -⟩ := he
    exact .inl (event heff ht)
  | called e w j p hl he hs _ _ _ =>
    simp only [embed, Option.map_eq_some_iff, Prod.mk.injEq] at he
    obtain ⟨w', heff, rfl, hh⟩ := he
    rcases (hs.page_of t).2.2.1 ht with h | rfl
    · exact .inl (event heff h)
    · cases e <;> simp [handler] at hh
      exact .inr (.inr (by rw [hl, hh.1]))

/-- Only a load opens a page, and it stays open. -/
theorem opened_step (t : String) :
    (Opened c'.world t ↔ Opened c.world t) ∨ ∃ origin appName,
      l = .event (.openPage t origin appName) ∧ (c'.world.pages t).origin = origin := by
  cases hd with
  | call i ch j q k r _ _ _ he _ _ _ =>
    have hf := exec_frame (t := j.token) he
    by_cases hj : t = j.token
    · subst hj
      rw [Opened, hf.page]
      exact .inl Iff.rfl
    · rw [Opened, hf.others t hj]
      exact .inl Iff.rfl
  | resume i j p _ _ _ hs _ _ _ =>
    rw [Opened, (hs.page_of t).1]
    exact .inl Iff.rfl
  | event e hl he _ _ =>
    simp only [embed, Option.map_eq_some_iff, Prod.mk.injEq] at he
    obtain ⟨w, heff, rfl, -⟩ := he
    rcases (effect_frame heff).page t with ⟨-, h⟩ | ⟨origin, appName, rfl, -, h⟩
    · exact .inl h
    · exact .inr ⟨origin, appName, hl, by rw [h]⟩
  | called e w j p hl he hs _ _ _ =>
    simp only [embed, Option.map_eq_some_iff, Prod.mk.injEq] at he
    obtain ⟨w', heff, rfl, hh⟩ := he
    rw [Opened, (hs.page_of t).1]
    rcases (effect_frame heff).page t with ⟨-, h⟩ | ⟨origin, appName, rfl, -, h⟩
    · exact .inl h
    · cases hh

/-- A page keeps its origin. -/
theorem origin_step {t : String} (ht : Opened c.world t) :
    (c'.world.pages t).origin = (c.world.pages t).origin := by
  have event : ∀ {e : Event} {w : World}, effect e c.world = some w →
      (w.pages t).origin = (c.world.pages t).origin := by
    intro e w he
    rcases (effect_frame he).page t with ⟨h, -⟩ | ⟨origin, appName, -, hn, -⟩
    · rw [h]
    · exact absurd ht hn
  cases hd with
  | call i ch j q k r _ _ _ he _ _ _ =>
    have hf := exec_frame (t := j.token) he
    by_cases hj : t = j.token
    · subst hj
      rw [hf.page]
    · rw [hf.others t hj]
  | resume i j p _ _ _ hs _ _ _ => exact (hs.page_of t).2.2.2
  | event e _ he _ _ =>
    simp only [embed, Option.map_eq_some_iff, Prod.mk.injEq] at he
    obtain ⟨w, heff, rfl, -⟩ := he
    exact event heff
  | called e w j p _ he hs _ _ _ =>
    simp only [embed, Option.map_eq_some_iff, Prod.mk.injEq] at he
    obtain ⟨w', heff, rfl, -⟩ := he
    exact (hs.page_of t).2.2.2.trans (event heff)

/-- Only a start or a restore makes a node run. -/
theorem runs_step {t : String} (ht : c'.world.Runs t) : c.world.Runs t ∨
    ∃ i j q r, Effected l c c' i j q r ∧ j.token = t ∧ startsNode q = true := by
  cases hd with
  | call i ch j q k r hl hi _ he ho _ htr =>
    have hf := exec_frame (t := j.token) he
    by_cases hj : t = j.token
    · rcases hf.runs with hq | hr
      · exact .inr ⟨i, j, q, r, ⟨⟨ch, hl, he⟩, ⟨k, hi⟩, ho, htr⟩, hj.symm, hq⟩
      · exact .inl (hj ▸ hr (hj ▸ ht))
    · rw [World.Runs, hf.others t hj] at ht
      exact .inl ht
  | resume i j p _ _ _ hs _ _ _ =>
    rw [World.Runs, (hs.page_of t).2.1] at ht
    exact .inl ht
  | event e _ he _ _ =>
    simp only [embed, Option.map_eq_some_iff, Prod.mk.injEq] at he
    obtain ⟨w, heff, rfl, -⟩ := he
    exact .inl ((effect_frame heff).runs t ht)
  | called e w j p _ he hs _ _ _ =>
    simp only [embed, Option.map_eq_some_iff, Prod.mk.injEq] at he
    obtain ⟨w', heff, rfl, -⟩ := he
    rw [World.Runs, (hs.page_of t).2.1] at ht
    exact .inl ((effect_frame heff).runs t ht)

/-- What an origin has on disk changes when its node advances or a restore reaches it. -/
theorem version_step (o : String) : version c'.world o = version c.world o ∨
    (∃ t, l = .event (.advance t) ∧ c.world.Runs t ∧ (c.world.pages t).origin = o) ∨
    ∃ i j e k r, Effected l c c' i j (.restore e k) r ∧ (c.world.pages j.token).origin = o := by
  cases hd with
  | call i ch j q k r hl hi _ he ho _ htr =>
    have hf := exec_frame (t := j.token) he
    by_cases hj : o = (c.world.pages j.token).origin
    · subst hj
      rcases hf.version with ⟨e, k', rfl⟩ | hv
      · exact .inr (.inr ⟨i, j, e, k', r, ⟨⟨ch, hl, he⟩, ⟨k, hi⟩, ho, htr⟩, rfl⟩)
      · exact .inl hv
    · exact .inl (by rw [version, version, hf.origins o hj])
  | resume i j p _ _ _ hs _ _ _ => exact .inl (by rw [version, version, hs.origins])
  | event e hl he _ _ =>
    simp only [embed, Option.map_eq_some_iff, Prod.mk.injEq] at he
    obtain ⟨w, heff, rfl, -⟩ := he
    rcases (effect_frame heff).version o with hv | ⟨t, rfl, hr, ho⟩
    · exact .inl hv
    · exact .inr (.inl ⟨t, hl, hr, ho⟩)
  | called e w j p hl he hs _ _ _ =>
    simp only [embed, Option.map_eq_some_iff, Prod.mk.injEq] at he
    obtain ⟨w', heff, rfl, -⟩ := he
    have hw : version c'.world o = version w' o := by rw [version, version, hs.origins]
    rcases (effect_frame heff).version o with hv | ⟨t, rfl, hr, ho⟩
    · exact .inl (hw.trans hv)
    · exact .inr (.inl ⟨t, hl, hr, ho⟩)

/-- Every effect was obliged, by what its procedure had done before, and found the
invariant. -/
def ObligedThen (c : EmbedConfig) : Prop :=
  ∀ later x earlier, c.trace = later ++ x :: earlier →
    Obliged x.job (past earlier x.proc) x.entry.request x.entry.before ∧ Inv x.entry.before

theorem obligedThen_step (hs : protocol.Sound c) (hc : ObligedThen c) : ObligedThen c' := by
  intro later x earlier hx
  rcases trace_step hd with h | ⟨i, j, q, r, he⟩
  · exact hc later x earlier (h ▸ hx)
  · rw [he.trace] at hx
    cases later with
    | nil =>
      simp only [List.nil_append, List.cons.injEq] at hx
      obtain ⟨rfl, rfl⟩ := hx
      exact ⟨he.obliged, hs.inv⟩
    | cons y later =>
      simp only [List.cons_append, List.cons.injEq] at hx
      exact hc later x earlier hx.2

/-- Every effect belongs to a page that was open. -/
theorem openedThen_step (hc : OpenedThen c) : OpenedThen c' :=
  trace_forall hd hc fun _ _ _ _ he => he.obliged.1

omit hd in
theorem obligedThen_of_run {w : World} (hw : Untouched w) (hrun : Reaches (initial w) c) :
    protocol.Sound c ∧ ObligedThen c := by
  refine Protocol.invariant_of_run admits (sound_initial hw) ?_
    (fun _ _ _ hs _ hI _ hd => obligedThen_step hd hs hI) hrun
  intro later x earlier h
  cases later <;> simp [initial] at h

/-- Nobody overrides an unproven handoff. -/
structure Unforced (c : EmbedConfig) : Prop where
  override : ∀ t, (c.world.pages t).overrideUnprovenHandoff = false
  pool : ∀ (i : Nat) (t : String) (p : Roam Unit), c.pool[i]? ≠ some (⟨t, .forceRestoreAnyway⟩, p)

omit hd in
theorem Unforced.initial {w : World} (hw : Untouched w) : Unforced (initial w) where
  override := fun t => by simp [Embed.initial, hw.pages t]
  pool := by simp [Embed.initial]

theorem Unforced.step (hs : protocol.Sound c) (hc : Unforced c) (hl : ∀ t, l ≠ .event (.forceRestoreAnyway t)) :
    Unforced c' where
  override := fun t => by
    rw [← Bool.not_eq_true]
    intro ht
    rcases override_step hd ht with h | ⟨i, p, h⟩ | h
    · simp [hc.override t] at h
    · exact hc.pool i t p h
    · exact hl t h
  pool := fun i t p hp => by
    rcases hd.job_mem hs hp with ⟨p', h⟩ | ⟨e, w, p', rfl, h⟩
    · exact hc.pool i t p' h
    · simp only [embed, Option.map_eq_some_iff, Prod.mk.injEq] at h
      obtain ⟨w', -, -, hh⟩ := h
      cases e <;> simp [handler] at hh
      exact hl _ (by rw [hh.1])

end Steps

end LibreWallet.Embed
