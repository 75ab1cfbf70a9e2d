import LibreWallet.Embed.Heeds

/-
  Embed/Handoffs.lean --- starts over clean handoffs.

  Where every stop leaves the Drive backup at the version it stopped at, and no
  upload goes back behind a stop, the backup is at or above every origin's last
  stop.  A session that restores the backup it has read is as current as that.  One
  that comes back with its old database is current exactly if something compares
  that database with the backup; the embed gives its controller no view of the
  backup, so nothing does.
-/

set_option autoImplicit false

namespace LibreWallet.Embed

open Async Controller Roaming

/-! ## The vocabulary -/

/-- The page whose node a step stops. -/
def stops (l : EmbedLabel) (c : EmbedConfig) : Option String :=
  match l with
  | .event (.closePage t) => if c.world.Runs t then some t else none
  | .call i .ok =>
    match c.awaits i with
    | some (j, .stopNode) => if c.world.Runs j.token then some j.token else none
    | _ => none
  | _ => none

/-- Nobody forces a restore, and who stops leaves its lease released and the backup at
its final version. -/
def cleanHandoffs (l : EmbedLabel) (c : EmbedConfig) : Bool :=
  (match l with
    | .event (.forceRestoreAnyway _) => false
    | _ => true) &&
  (stops l c).all fun t =>
    c.world.drive.lease.any (fun r => r.owner = t && r.phase = .released) &&
      c.world.drive.backupVersion = (c.world.store t).db.stateVersion

/-- The session of `t` reaches `running`. -/
def ReachesRunning (c c' : EmbedConfig) (t : String) : Prop :=
  (c.world.pages t).view ≠ .running ∧ (c'.world.pages t).view = .running

instance (c c' : EmbedConfig) (t : String) : Decidable (ReachesRunning c c' t) :=
  inferInstanceAs (Decidable (_ ∧ _))

/-- The version an origin had reached when it last stopped. -/
def lastStop (w : World) (o : String) : Option Nat :=
  w.log.findSome? fun
    | .stopped _ o' n => if o' = o then some n else none
    | _ => none

/-- A boot or a takeover that reads the backup over a populated database does not find the
backup ahead of it. -/
def comesBackCurrent (l : EmbedLabel) (c : EmbedConfig) : Bool :=
  match l with
  | .call i _ =>
    match c.awaits i with
    | some (j, .fetchBackup) =>
      !boots j.verb || (c.world.store j.token).db.seed.isNone ||
        !backupAheadOfLocal (c.world.store j.token).db.stateVersion c.world.drive.backupVersion
    | _ => true
  | _ => true

/-- No upload lands behind a stop. -/
def uploadsForward (l : EmbedLabel) (c : EmbedConfig) : Bool :=
  match l with
  | .call i _ =>
    match c.awaits i with
    | some (_, .uploadBackup e) =>
      c.world.log.all fun
        | .stopped _ _ n => n ≤ e.stateVersion
        | _ => true
    | _ => true
  | _ => true

/-- The page of `t` outlives the step. -/
def survives (l : EmbedLabel) (c : EmbedConfig) (t : String) : Bool :=
  decide ((c.world.pages t).status ≠ .closed) &&
  match l with
  | .event (.closePage u) => decide (u ≠ t)
  | _ => true

def fetches : Request → Bool
  | .fetchBackup => true
  | _ => false

/-- A restore goes by the backup that its page holds, a boot or a takeover by the one it
has read. -/
def goesByBackup (v : Verb) (h : List RoamEntry) : Bool :=
  decide (v = .submitSecret) || boots v && h.any fun e => fetches e.request && e.answer.isOk

/-- While a node stops, no other open page is between the backup that it goes by and the
end of its call, and none holds a backup that it is to restore. -/
def stopsApart (l : EmbedLabel) (c : EmbedConfig) : Bool :=
  (stops l c).isNone || (List.range c.pool.length).all fun i => (c.pool[i]?).all fun x =>
    !survives l c x.1.token ||
      (Dispose.ended x.2 || !goesByBackup x.1.verb (c.history i)) &&
        (c.world.pages x.1.token).pendingRestoreEnvelope.isNone

/-- A step of a clean handoff that the code is fit for. -/
def handsOver (l : EmbedLabel) (c : EmbedConfig) : Bool :=
  cleanHandoffs l c && (comesBackCurrent l c && (uploadsForward l c && stopsApart l c))

variable {c c' : EmbedConfig} {l : EmbedLabel} {t : String} {n : Nat} {v : Verb}
  {w w' : World}

/-! ## Stops, pages and versions -/

/-- A node has stopped at `n`. -/
def SomeStopAt (w : World) (n : Nat) : Prop := ∃ t o, Note.stopped t o n ∈ w.log

/-- Every stop so far is covered by the backup. -/
def StopsCovered (c : EmbedConfig) : Prop := ∀ n, SomeStopAt c.world n → n ≤ c.world.drive.backupVersion

/-- A stop that did not succeed leaves the node running. -/
theorem runs_of_stop_failed {ch : Choice} {r : Except Err Unit}
    (he : exec t .stopNode ch w = some (r, w')) (hr : w.Runs t) (hch : ch ≠ .ok) : w'.Runs t := by
  have hwallet : (w.node t).wallet = .running := hr
  simp only [exec, World.act, Option.some.injEq, Prod.mk.injEq] at he
  have hstay : (stopNode t (decide (ch = .ok)) (w.node t)).2.wallet = .running := by
    simp only [stopNode, hwallet, hch, decide_false, Bool.false_eq_true, if_false]
  rcases ite_eq_iff.mp he.2 with ⟨⟨-, hstop⟩, -⟩ | ⟨-, rfl⟩
  · exact absurd (by simp [World.Runs, hstay]) hstop
  · simp [World.Runs, hstay]

/-- A new stop is of the page that the label stops, at its version. -/
theorem someStopAt_step (hd : protocol.Did l c c') (h : SomeStopAt c'.world n) :
    SomeStopAt c.world n ∨ ∃ t, stops l c = some t ∧ n = (c.world.store t).db.stateVersion := by
  obtain ⟨t, o, h⟩ := h
  rcases log_step hd h with h | h
  · exact .inl ⟨t, o, h⟩
  · refine .inr ⟨t, ?_⟩
    cases h with
    | @stopped i j r he hr hr' =>
      obtain ⟨ch, rfl, hex⟩ := he.label
      cases ch with
      | ok => simp [stops, he.awaits, hr]
      | _ => exact absurd (runs_of_stop_failed hex hr (by decide)) hr'
    | died hl hr =>
      subst hl
      simp [stops, hr]

/-- After a clean step every stop is covered by the backup that the step has found. -/
theorem covered_now (hd : protocol.Did l c c') (hI : StopsCovered c) (hclean : cleanHandoffs l c = true)
    (hn : SomeStopAt c'.world n) : n ≤ c.world.drive.backupVersion := by
  rcases someStopAt_step hd hn with hn | ⟨t, hstop, rfl⟩
  · exact hI n hn
  · simp only [cleanHandoffs, hstop, Option.all_some, Bool.and_eq_true, decide_eq_true_eq] at hclean
    exact Nat.le_of_eq hclean.2.2.symm

theorem stopsCovered_step (hd : protocol.Did l c c') (hI : StopsCovered c)
    (hclean : cleanHandoffs l c = true) (hup : uploadsForward l c = true) : StopsCovered c' := by
  intro n hn
  rcases uploads_step hd with hu | ⟨i, j, e, r, he, hu⟩
  · have hbackup : c'.world.drive.backupVersion = c.world.drive.backupVersion := by
      rw [Drive.backupVersion, Drive.backupVersion, Drive.backup, Drive.backup, hu, (first_step hd).2]
    exact hbackup ▸ covered_now hd hI hclean hn
  · have hbackup : c'.world.drive.backupVersion = e.stateVersion := by
      simp [Drive.backupVersion, Drive.backup, hu]
    rw [hbackup]
    obtain ⟨ch, rfl, -⟩ := he.label
    rcases someStopAt_step hd hn with ⟨t, o, hn⟩ | ⟨t, hstop, -⟩
    · simp only [uploadsForward, he.awaits, List.all_eq_true] at hup
      simpa using hup _ hn
    · cases ch <;> simp [stops, he.awaits] at hstop

theorem lastStop_mem {o : String} (h : lastStop w o = some n) : SomeStopAt w n := by
  obtain ⟨note, hnote, h⟩ := List.exists_of_findSome?_eq_some h
  cases note with
  | stopped t o' m =>
    simp only [Option.ite_none_right_eq_some, Option.some.injEq] at h
    obtain ⟨rfl, rfl⟩ := h
    exact ⟨t, o', hnote⟩
  | _ => cases h

/-- No event revives a page. -/
theorem survives_of_effect {e : Event} (he : effect e c.world = some w')
    (hw : (w'.pages t).status ≠ .closed) : survives (.event e) c t = true := by
  have hset : ∀ {u : String} {f : Page → Page}, (f (c.world.pages u)).status = (c.world.pages u).status →
      ((c.world.setPage u f).pages t).status ≠ .closed → (c.world.pages t).status ≠ .closed := by
    intro u f hf
    by_cases hu : t = u
    · subst hu
      rw [World.setPage_self, hf]
      exact id
    · rw [World.setPage_of_ne _ _ _ hu]
      exact id
  cases e with
  | pass ms =>
    cases he
    simpa [survives] using hw
  | openPage u origin appName =>
    simp only [effect, Option.ite_none_right_eq_some, Option.some.injEq] at he
    obtain ⟨hunopened, rfl⟩ := he
    by_cases hu : t = u
    · subst hu
      simp [survives, hunopened]
    · rw [World.setPage_of_ne _ _ _ hu] at hw
      simpa [survives] using hw
  | closePage u =>
    simp only [effect, Option.ite_none_right_eq_some, Option.some.injEq] at he
    obtain ⟨-, rfl⟩ := he
    have hpages : (died c.world u).pages = Function.update c.world.pages u { c.world.pages u with
        status := .closed, wallet := .absent, heartbeatTimer := none, syncTimer := none } := by
      simp only [died]
      split <;> rfl
    rw [hpages] at hw
    by_cases hu : t = u
    · subst hu
      rw [Function.update_self] at hw
      exact absurd rfl hw
    · rw [Function.update_of_ne hu] at hw
      simpa [survives, Ne.symm hu] using hw
  | heartbeat u | syncFires u =>
    simp only [effect] at he
    split at he
    · simp only [Option.ite_none_right_eq_some, Option.some.injEq] at he
      obtain ⟨-, rfl⟩ := he
      simpa [survives] using hset rfl hw
    · cases he
  | _ =>
    simp only [effect, Option.ite_none_right_eq_some, Option.some.injEq] at he
    obtain ⟨-, rfl⟩ := he
    simpa [survives, advanceNode] using hw

/-- A page that is there after a step has survived it. -/
theorem survives_of_did (hd : protocol.Did l c c') (hw : (c'.world.pages t).status ≠ .closed) :
    survives l c t = true := by
  cases hd with
  | call i ch j q k r hl _ _ he _ _ _ =>
    subst hl
    have hf := exec_frame (t := j.token) he
    by_cases hj : t = j.token
    · subst hj
      rw [hf.page] at hw
      simpa [survives] using hw
    · rw [hf.others t hj] at hw
      simpa [survives] using hw
  | resume i j p hl _ _ hs _ _ _ =>
    subst hl
    rw [(hs.page_of t).1] at hw
    simpa [survives] using hw
  | event e hl he _ _ =>
    subst hl
    simp only [embed, Option.map_eq_some_iff, Prod.mk.injEq] at he
    obtain ⟨w, heff, rfl, -⟩ := he
    exact survives_of_effect heff hw
  | called e w j p hl he hs _ _ _ =>
    subst hl
    rw [(hs.page_of t).1] at hw
    exact survives_of_effect (Dispose.called_of_event he).1 hw

theorem status_of_survives (h : survives l c t = true) : (c.world.pages t).status ≠ .closed := by
  simp only [survives, Bool.and_eq_true, decide_eq_true_eq] at h
  exact h.1

/-- What the others of a stop are at. -/
theorem apart_of_stop {u : String} (hapart : stopsApart l c = true) (hstop : stops l c = some u) {i : Nat}
    {j : Job} {p : Roam Unit} (hi : c.pool[i]? = some (j, p)) (hs : survives l c j.token = true) :
    (p.Ended ∨ goesByBackup j.verb (c.history i) = false) ∧
      (c.world.pages j.token).pendingRestoreEnvelope = none := by
  simp only [stopsApart, hstop, Option.isNone_some, Bool.false_or, List.all_eq_true] at hapart
  have h := hapart i (List.mem_range.mpr (List.getElem?_eq_some_iff.mp hi).1)
  simp only [hi, Option.all_some, hs, Bool.not_true, Bool.false_or, Bool.and_eq_true,
    Bool.or_eq_true, Bool.not_eq_true', Option.isNone_iff_eq_none] at h
  exact ⟨h.1.imp_left Dispose.ended_of_true, h.2⟩

/-- A request leaves what its page holds, and so does an event. -/
theorem holds_of_exec {u : String} {q : Request} {ch : Choice} {r : Except Err (Answer q)}
    (he : exec u q ch w = some (r, w')) : Holding n t w w' := by
  have hf := exec_frame he
  intro h e hpending
  by_cases hu : t = u
  · subst hu
    rw [hf.page] at hpending
    exact h e hpending
  · rw [hf.others t hu] at hpending
    exact h e hpending

theorem holds_of_effect {e : Event} (he : effect e w = some w') : Holding n t w w' := by
  intro h envelope hpending
  rcases (effect_frame he).page t with ⟨hp, -⟩ | ⟨origin, appName, -, -, hp⟩
  · rw [hp] at hpending
    exact h envelope hpending
  · rw [hp] at hpending
    cases hpending

/-- A restore leaves the version, or takes it from the backup. -/
theorem version_of_restore {e : Envelope} {k : String} {ch : Choice} {r : Except Err Unit}
    (he : exec t (.restore e k) ch w = some (r, w')) :
    version w' (w.pages t).origin = e.stateVersion ∨
      version w' (w.pages t).origin = version w (w.pages t).origin ∧ r ≠ .ok () := by
  simp only [exec, World.act, Option.some.injEq, Prod.mk.injEq] at he
  obtain ⟨rfl, rfl⟩ := he
  have hversion : ∀ n : Node, version ((w.setNode t n).note (.restore t (w.pages t).origin))
      (w.pages t).origin = n.store.db.stateVersion := by
    intro n
    simp [version, World.setNode_origins]
  rw [hversion]
  rcases restoreWallet_version t (decide (ch = .ok)) (w.node t) e k with h | ⟨h, error, he⟩
  · exact .inl h
  · refine .inr ⟨congrArg (·.store.db.stateVersion) h, ?_⟩
    rw [he]
    simp [Except.mapError]

/-! ## The invariant -/

/-- What a call starts a node on: the populated database that it read, or a backup that it restored. -/
def Grounded (v : Verb) (h : List RoamEntry) : Prop :=
  (boots v = true ∧ ∃ info, Loaded h info ∧ info.seedPresent = true) ∨
    v = .submitSecret ∧ ∃ e k w, ⟨.restore e k, .ok (), w⟩ ∈ h

/-- What holds along a run over clean handoffs. -/
structure HandedOn (c : EmbedConfig) : Prop where
  opened : OpenedThen c
  covered : StopsCovered c
  /-- Who holds a backup to restore has called for it. -/
  caller : ∀ t, (c.world.pages t).pendingRestoreEnvelope ≠ none → ∃ x ∈ c.pool, x.1.token = t
  holds : ∀ t, (c.world.pages t).status ≠ .closed → ∀ n, SomeStopAt c.world n → Holds n t c.world
  heeds : ∀ (i : Nat) (j : Job) (p : Roam Unit), c.pool[i]? = some (j, p) →
    (c.world.pages j.token).status ≠ .closed → ∀ n,
      SomeStopAt c.world n ∨ goesByBackup j.verb (c.history i) = false → Heeds j.verb n j.token Unit p
  grounded : ∀ (i : Nat) (j : Job) (p : Roam Unit), c.pool[i]? = some (j, p) →
    (∃ e ∈ c.history i, Dispose.started e = true) → Grounded j.verb (c.history i)
  /-- What a call that has not ended starts on is not behind a stop. -/
  current : ∀ (i : Nat) (j : Job) (p : Roam Unit), c.pool[i]? = some (j, p) →
    (c.world.pages j.token).status ≠ .closed → Grounded j.verb (c.history i) →
      p.Ended ∨ ∀ n, SomeStopAt c.world n → n ≤ version c.world (c.world.pages j.token).origin
  staged : ∀ t, Dispose.StagedPool t c

theorem Grounded.mono {h h' : List RoamEntry} (hg : Grounded v h) (hh : h <:+ h') : Grounded v h' := by
  rcases hg with ⟨hv, info, hload, hseed⟩ | ⟨hv, e, k, w, hmem⟩
  · exact .inl ⟨hv, info, hload.mono hh, hseed⟩
  · exact .inr ⟨hv, e, k, w, hh.subset hmem⟩

theorem Grounded.goesByBackup {h : List RoamEntry} (hg : Grounded v h) : goesByBackup v h = true := by
  rcases hg with ⟨hv, info, ⟨backup, w₀, w₁, earlier, hload⟩, -⟩ | ⟨rfl, -⟩
  · simp only [Embed.goesByBackup, hv, Bool.true_and, Bool.or_eq_true, List.any_eq_true]
    exact .inr ⟨_, hload.subset (List.mem_cons_self ..), rfl⟩
  · rfl

theorem Grounded.not_releaseSync {h : List RoamEntry} (hg : Grounded v h) : v ≠ .releaseSync := by
  rintro rfl
  rcases hg with ⟨hv, -⟩ | ⟨hv, -⟩ <;> cases hv

theorem goesByBackup_cons {h : List RoamEntry} (e : RoamEntry) (hh : goesByBackup v h = true) :
    goesByBackup v (e :: h) = true := by
  simp only [goesByBackup, Bool.or_eq_true, Bool.and_eq_true, List.any_cons] at hh ⊢
  exact hh.imp_right fun h => ⟨h.1, .inr h.2⟩

/-- The effect behind a procedure's new request. -/
theorem effected_of_cons (hd : protocol.Did l c c') {i : Nat} {q : Request} {r : Except Err (Answer q)}
    (hh : c'.history i = ⟨q, r, c.world⟩ :: c.history i) : ∃ j, Effected l c c' i j q r := by
  rcases trace_step hd with htrace | ⟨i', j, q', r', he⟩
  · rw [Protocol.history_eq htrace] at hh
    exact absurd (congrArg List.length hh) (by simp)
  · by_cases hi : i' = i
    · subst hi
      have hcons : c'.history i' = ⟨q', r', c.world⟩ :: c.history i' := by
        simp [Config.history, he.trace]
      rw [hcons] at hh
      cases hh
      exact ⟨j, he⟩
    · have hsame : c'.history i = c.history i := by
        simp [Config.history, he.trace, hi]
      rw [hsame] at hh
      exact absurd (congrArg List.length hh) (by simp)

/-- Whoever has made a request is of a page that was opened. -/
theorem opened_of_history (hs : protocol.Sound c) (hI : OpenedThen c) {i : Nat} {j : Job} {p : Roam Unit}
    (hi : c.pool[i]? = some (j, p)) {e : RoamEntry} (he : e ∈ c.history i) : Opened c.world j.token := by
  obtain ⟨x, hx, rfl, rfl⟩ := hs.of_mem_history hi he
  have hpast : Evolves x.entry.before c.world := hs.past x hx
  exact hpast.opened _ (hI x hx)

/-- The answer of a fetch is what Drive held. -/
theorem backup_of_fetch {ch : Choice} {backup : Option Envelope}
    (he : exec t .fetchBackup ch w = some (.ok backup, w')) : w.drive.backup = backup := by
  cases ch <;> simp [exec] at he
  exact he.1

/-- But for the keepalive, only the code of an open page runs. -/
theorem open_of_runs {j : Job} (hj : jobRuns j w = true) (hv : j.verb ≠ .releaseSync) :
    (w.pages j.token).status ≠ .closed := by
  simp only [jobRuns, hv, or_false, decide_eq_true_eq] at hj
  have halive : (w.pages j.token).status = .alive := hj
  simp [halive]

theorem ended_advance {p : Roam Unit} (hp : p.Ended) : p.advance w = (w, p) := by
  cases p with
  | done a => rfl
  | fail e => rfl
  | sync f k => cases hp
  | await q k => cases hp

theorem Grounded.exists_mem {h : List RoamEntry} (hg : Grounded v h) : ∃ e, e ∈ h := by
  rcases hg with ⟨-, info, hload, -⟩ | ⟨-, e, k, w, hmem⟩
  · obtain ⟨w₀, hmem⟩ := hload.mem
    exact ⟨_, hmem⟩
  · exact ⟨_, hmem⟩

namespace HandedOn

theorem initial {w : World} (hw : Untouched w) : HandedOn (initial w) where
  opened := by simp [OpenedThen, Embed.initial]
  covered := by simp [StopsCovered, SomeStopAt, Embed.initial, hw.log]
  caller := by simp [Embed.initial, hw.pages]
  holds := by simp [SomeStopAt, Embed.initial, hw.log]
  heeds := by simp [Embed.initial]
  grounded := by simp [Embed.initial]
  current := by simp [Embed.initial]
  staged := by simp [Dispose.StagedPool, Embed.initial]

section Steps

variable (hI : HandedOn c) (hd : protocol.Did l c c')
include hI hd

/-- What a call does from here on, whatever stops with the step. -/
theorem heeds_now (hapart : stopsApart l c = true) {i : Nat} {j : Job} {p : Roam Unit}
    (hi : c.pool[i]? = some (j, p)) (hsurvives : survives l c j.token = true)
    (hn : SomeStopAt c'.world n ∨ goesByBackup j.verb (c.history i) = false) :
    Heeds j.verb n j.token Unit p := by
  have hopen := status_of_survives hsurvives
  rcases hn with hn | hn
  · rcases someStopAt_step hd hn with hn | ⟨u, hstop, -⟩
    · exact hI.heeds i j p hi hopen n (.inl hn)
    · rcases (apart_of_stop hapart hstop hi hsurvives).1 with hended | hgoes
      · exact .of_ended hended
      · exact hI.heeds i j p hi hopen n (.inr hgoes)
  · exact hI.heeds i j p hi hopen n (.inr hn)

/-- What a page holds is not behind what stops with the step. -/
theorem holds_now (hapart : stopsApart l c = true) (hsurvives : survives l c t = true)
    (hn : SomeStopAt c'.world n) : Holds n t c.world := by
  rcases someStopAt_step hd hn with hn | ⟨u, hstop, -⟩
  · exact hI.holds t (status_of_survives hsurvives) n hn
  · intro e he
    obtain ⟨x, hx, rfl⟩ := hI.caller t (by simp [he])
    obtain ⟨i, hi⟩ := List.mem_iff_getElem?.mp hx
    rw [(apart_of_stop hapart hstop hi hsurvives).2] at he
    cases he

omit hI in
theorem job_stays {x : Job × Roam Unit} (hx : x ∈ c.pool) : ∃ y ∈ c'.pool, y.1 = x.1 := by
  have set : ∀ {i : Nat} {j : Job} {p p' : Roam Unit}, c.pool[i]? = some (j, p) →
      ∃ y ∈ c.pool.set i (j, p'), y.1 = x.1 := by
    intro i j p p' hi
    obtain ⟨i', hi'⟩ := List.mem_iff_getElem?.mp hx
    obtain ⟨q, hq⟩ := Protocol.job_set (p := p') hi ⟨x.2, hi'⟩
    exact ⟨_, List.mem_of_getElem? hq, rfl⟩
  cases hd with
  | call i ch j q k r _ hi _ _ _ hpool _ => exact hpool ▸ set hi
  | resume i j p _ hi _ _ _ hpool _ => exact hpool ▸ set hi
  | event e _ _ hpool _ => exact ⟨x, hpool ▸ hx, rfl⟩
  | called e w j p _ _ _ _ hpool _ => exact ⟨x, hpool ▸ List.mem_append_left _ hx, rfl⟩

theorem caller_step (ht : (c'.world.pages t).pendingRestoreEnvelope ≠ none) :
    ∃ x ∈ c'.pool, x.1.token = t := by
  have before : (c.world.pages t).pendingRestoreEnvelope ≠ none → ∃ x ∈ c'.pool, x.1.token = t := by
    intro h
    obtain ⟨x, hx, hxt⟩ := hI.caller t h
    obtain ⟨y, hy, hyx⟩ := job_stays hd hx
    exact ⟨y, hy, hyx ▸ hxt⟩
  have event : ∀ {e : Event} {w : World}, effect e c.world = some w →
      (w.pages t).pendingRestoreEnvelope ≠ none → (c.world.pages t).pendingRestoreEnvelope ≠ none := by
    intro e w he hw
    rcases (effect_frame he).page t with ⟨hp, -⟩ | ⟨origin, appName, -, -, hp⟩
    · rw [hp] at hw
      exact hw
    · rw [hp] at hw
      exact absurd rfl hw
  cases hd with
  | call i ch j q k r _ _ _ he _ _ _ =>
    refine before ?_
    have hf := exec_frame (t := j.token) he
    by_cases hj : t = j.token
    · subst hj
      rwa [hf.page] at ht
    · rwa [hf.others t hj] at ht
  | resume i j p _ hi _ hs _ hpool _ =>
    by_cases hj : t = j.token
    · exact ⟨_, hpool ▸ List.mem_of_getElem? (List.getElem?_set_self
        (List.getElem?_eq_some_iff.mp hi).1), hj.symm⟩
    · rw [hs.others t hj] at ht
      exact before ht
  | event e _ he _ _ =>
    simp only [embed, Option.map_eq_some_iff, Prod.mk.injEq] at he
    obtain ⟨w, heff, rfl, -⟩ := he
    exact before (event heff ht)
  | called e w j p _ he hs _ hpool _ =>
    by_cases hj : t = j.token
    · exact ⟨_, hpool ▸ List.mem_append_right _ (List.mem_singleton.mpr rfl), hj.symm⟩
    · rw [hs.others t hj] at ht
      exact before (event (Dispose.called_of_event he).1 ht)

theorem holds_step (hapart : stopsApart l c = true) (ht : (c'.world.pages t).status ≠ .closed)
    (hn : SomeStopAt c'.world n) : Holds n t c'.world := by
  have hsurvives := survives_of_did hd ht
  have hold := hI.holds_now hd hapart hsurvives hn
  cases hd with
  | call i ch j q k r _ _ _ he _ _ _ => exact holds_of_exec he hold
  | resume i j p hl hi hruns hs hadv hpool htrace =>
    by_cases hj : t = j.token
    · subst hj
      have hp := hI.heeds_now (.resume i j p hl hi hruns hs hadv hpool htrace) hapart hi hsurvives (.inl hn)
      exact hadv ▸ (hp.advance (fun _ => id) (fun _ _ _ h₁ h₂ => h₂ ∘ h₁) c.world).1 hold
    · intro e he
      rw [hs.others t hj] at he
      exact hold e he
  | event e _ he _ _ =>
    simp only [embed, Option.map_eq_some_iff, Prod.mk.injEq] at he
    obtain ⟨w, heff, rfl, -⟩ := he
    exact holds_of_effect heff hold
  | called e w j p _ he hs hadv _ _ =>
    obtain ⟨heff, hh⟩ := Dispose.called_of_event he
    have hold' : Holds n t w := holds_of_effect heff hold
    by_cases hj : t = j.token
    · subst hj
      exact hadv ▸ (handler_heeds hh fun _ => hold').1 hold'
    · intro e' he'
      rw [hs.others t hj] at he'
      exact hold' e' he'

/-- The backup that a call goes by is not behind what has stopped by then. -/
theorem answers_now (hclean : cleanHandoffs l c = true) {i : Nat} {q : Request}
    {r : Except Err (Answer q)} (hh : c'.history i = ⟨q, r, c.world⟩ :: c.history i)
    (hn : SomeStopAt c'.world n ∨ goesByBackup v (c'.history i) = false) : (notBehind v n).answers q r := by
  cases q with
  | fetchBackup =>
    cases r with
    | error e => trivial
    | ok backup =>
      cases backup with
      | none => trivial
      | some e =>
        intro hv
        have hgoes : goesByBackup v (c'.history i) = true := by
          simp [goesByBackup, hh, hv, fetches, Except.isOk, Except.toBool]
        have hstop := hn.resolve_right (by simp [hgoes])
        obtain ⟨j, heff⟩ := effected_of_cons hd hh
        obtain ⟨ch, -, hex⟩ := heff.label
        have hbackup := backup_of_fetch hex
        have hle := covered_now hd hI.covered hclean hstop
        rwa [Drive.backupVersion, hbackup] at hle
  | _ => trivial

theorem heeds_step (hs : protocol.Sound c) (hclean : cleanHandoffs l c = true)
    (hapart : stopsApart l c = true) (i : Nat) (j : Job) (p : Roam Unit) (hi : c'.pool[i]? = some (j, p))
    (hopen : (c'.world.pages j.token).status ≠ .closed) (n : Nat)
    (hn : SomeStopAt c'.world n ∨ goesByBackup j.verb (c'.history i) = false) :
    Heeds j.verb n j.token Unit p := by
  have hsurvives := survives_of_did hd hopen
  cases hd.went hs hi with
  | stayed hold hhist => exact hI.heeds_now hd hapart hold hsurvives (hhist ▸ hn)
  | @answered q k r hold hhist =>
    have hp := hI.heeds_now hd hapart hold hsurvives (n := n) (hn.imp_right fun h => by
      rw [hhist] at h
      exact Bool.eq_false_iff.mpr fun hg => by simp [goesByBackup_cons _ hg] at h)
    exact hp.2 r (hI.answers_now hd hclean hhist hn)
  | resumed hold hhist =>
    have hp := hI.heeds_now hd hapart hold hsurvives (hhist ▸ hn)
    exact (hp.advance (fun _ => id) (fun _ _ _ h₁ h₂ => h₂ ∘ h₁) c.world).2
  | called hl he hhist =>
    obtain ⟨heff, hh⟩ := Dispose.called_of_event he
    refine (handler_heeds hh fun hv => ?_).2
    have hstop := hn.resolve_right (by simp [hhist, goesByBackup, hv])
    exact holds_of_effect heff (hI.holds_now hd hapart hsurvives hstop)

theorem grounded_step (hs : protocol.Sound c) (i : Nat) (j : Job) (p : Roam Unit)
    (hi : c'.pool[i]? = some (j, p)) (hstarted : ∃ e ∈ c'.history i, Dispose.started e = true) :
    Grounded j.verb (c'.history i) := by
  cases hd.went hs hi with
  | stayed hold hhist =>
    rw [hhist] at hstarted ⊢
    exact hI.grounded i j _ hold hstarted
  | resumed hold hhist =>
    rw [hhist] at hstarted ⊢
    exact hI.grounded i j _ hold hstarted
  | called _ _ hhist =>
    obtain ⟨e, he, -⟩ := hstarted
    simp [hhist] at he
  | @answered q k r hold hhist =>
    obtain ⟨e, he, hstart⟩ := hstarted
    rw [hhist] at he ⊢
    rcases List.mem_cons.mp he with rfl | he
    · obtain ⟨j', heff⟩ := effected_of_cons hd hhist
      obtain ⟨k', hpool⟩ := heff.pool
      obtain rfl : j' = j := by
        rw [hold] at hpool
        cases hpool
        rfl
      have hob := heff.obliged.2
      cases q with
      | startNode =>
        obtain ⟨-, -, hv, inputs, info, hdecision, -, -, hload, hseed, -, -⟩ := hob
        have hseed' := hseed ▸ (roamingBootDecision_start hdecision).1
        exact .inl ⟨hv, info, hload.mono (List.suffix_cons _ _), hseed'⟩
      | restore envelope secret =>
        obtain ⟨hv, -⟩ := hob
        cases r with
        | ok u => exact .inr ⟨hv, envelope, secret, c.world, List.mem_cons_self ..⟩
        | error e => cases hstart
      | _ => cases hstart
    · exact (hI.grounded i j _ hold ⟨e, he, hstart⟩).mono (List.suffix_cons _ _)

/-- No origin goes back behind what has stopped by then. -/
theorem version_now (hapart : stopsApart l c = true) {o : String} (hn : SomeStopAt c'.world n)
    (hle : n ≤ version c.world o) : n ≤ version c'.world o := by
  rcases version_step hd o with hv | ⟨t, rfl, -, ho⟩ | ⟨i, j, e, k, r, he, rfl⟩
  · exact hv ▸ hle
  · refine Nat.le_trans hle ?_
    cases hd with
    | call _ _ _ _ _ _ hl => cases hl
    | resume _ _ _ hl => cases hl
    | event e hl he _ _ =>
      cases hl
      simp only [embed, Option.map_eq_some_iff, Prod.mk.injEq] at he
      obtain ⟨w, heff, rfl, -⟩ := he
      simp only [effect, Option.ite_none_right_eq_some, Option.some.injEq] at heff
      rw [← heff.2, version, version, advanceNode_origins, if_pos ho.symm, World.store, ho]
      exact Nat.le_succ _
    | called e w j p hl he _ _ _ _ =>
      cases hl
      cases (Dispose.called_of_event he).2
  · obtain ⟨ch, hl, hex⟩ := he.label
    obtain ⟨k', hpool⟩ := he.pool
    rcases version_of_restore hex with hv | ⟨hv, -⟩
    · have hverb : j.verb = .submitSecret := he.obliged.2.1
      have hopen : (c.world.pages j.token).status ≠ .closed := by
        cases hd with
        | call i' ch' j' q' k'' r' hl' hi' hruns _ _ _ _ =>
          rw [hl] at hl'
          cases hl'
          rw [hpool] at hi'
          cases hi'
          exact open_of_runs hruns (by simp [hverb])
        | resume _ _ _ hl' => cases hl.symm.trans hl'
        | event _ hl' => cases hl.symm.trans hl'
        | called _ _ _ _ hl' => cases hl.symm.trans hl'
      have hp := hI.heeds_now hd hapart hpool (by simp [survives, hl, hopen]) (.inl hn)
      exact hv ▸ hp.1
    · exact hv ▸ hle

theorem current_step (hs : protocol.Sound c) (hback : comesBackCurrent l c = true)
    (hclean : cleanHandoffs l c = true) (hapart : stopsApart l c = true) (i : Nat) (j : Job)
    (p : Roam Unit) (hi : c'.pool[i]? = some (j, p)) (hopen : (c'.world.pages j.token).status ≠ .closed)
    (hg : Grounded j.verb (c'.history i)) :
    p.Ended ∨ ∀ n, SomeStopAt c'.world n → n ≤ version c'.world (c'.world.pages j.token).origin := by
  have hsurvives := survives_of_did hd hopen
  -- what was grounded before
  have before : ∀ {p : Roam Unit}, c.pool[i]? = some (j, p) → Grounded j.verb (c.history i) →
      p.Ended ∨ ∀ n, SomeStopAt c'.world n → n ≤ version c'.world (c'.world.pages j.token).origin := by
    intro p hold hg
    rcases hI.current i j p hold (status_of_survives hsurvives) hg with hended | hle
    · exact .inl hended
    refine or_iff_not_imp_left.mpr fun hended n hn => ?_
    obtain ⟨e, he⟩ := hg.exists_mem
    rw [origin_step hd (opened_of_history hs hI.opened hold he)]
    refine hI.version_now hd hapart hn ?_
    rcases someStopAt_step hd hn with hn | ⟨u, hstop, -⟩
    · exact hle n hn
    · rcases (apart_of_stop hapart hstop hold hsurvives).1 with hend | hgoes
      · exact absurd hend hended
      · simp [hg.goesByBackup] at hgoes
  cases hd.went hs hi with
  | stayed hold hhist => exact before hold (hhist ▸ hg)
  | resumed hold hhist =>
    refine (before hold (hhist ▸ hg)).imp_left fun hended => ?_
    rw [ended_advance hended]
    exact hended
  | called _ _ hhist =>
    obtain ⟨e, he⟩ := hg.exists_mem
    simp [hhist] at he
  | @answered q k r hold hhist =>
    by_cases hg' : Grounded j.verb (c.history i)
    · rcases before hold hg' with hended | hle
      · cases hended
      · exact .inr hle
    refine .inr fun n hn => ?_
    obtain ⟨j', heff⟩ := effected_of_cons hd hhist
    obtain ⟨k', hpool⟩ := heff.pool
    obtain rfl : j' = j := by
      rw [hold] at hpool
      cases hpool
      rfl
    have horigin := origin_step hd heff.obliged.1
    rw [hhist] at hg
    rcases hg with ⟨hv, info, ⟨backup, w₀, w₁, earlier, hload⟩, hseed⟩ | ⟨hv, e, secret, w₀, hmem⟩
    · -- the backup has been read over a populated database
      rcases List.suffix_cons_iff.mp hload with heq | hload
      · obtain ⟨hentry, hrest⟩ := List.cons.inj heq
        cases hentry
        obtain ⟨ch, rfl, -⟩ := heff.label
        have hmem : ⟨.readLocal, .ok info, w₀⟩ ∈ c.history i := hrest ▸ List.mem_cons_self ..
        obtain ⟨x, hx, rfl, hxe⟩ := hs.of_mem_history hold hmem
        have hpast : Evolves x.entry.before c.world := hs.past x hx
        have hthen := hI.opened x hx
        rw [hxe] at hpast hthen
        have hpopulated : (c.world.store x.job.token).db.seed.isSome = true := by
          rw [World.store, hpast.origin _ hthen]
          refine hpast.seed _ ?_
          rw [info_of_read hs hx hxe] at hseed
          exact hseed
        simp only [comesBackCurrent, heff.awaits, hv, Bool.not_true, Bool.false_or, Bool.or_eq_true,
          Option.isNone_iff_eq_none, backupAheadOfLocal, Bool.not_eq_true', decide_eq_false_iff_not,
          Nat.not_lt] at hback
        have hnotBehind := hback.resolve_left fun h => by simp [h] at hpopulated
        rw [horigin]
        exact hI.version_now hd hapart hn
          (Nat.le_trans (covered_now hd hI.covered hclean hn) hnotBehind)
      · exact absurd (.inl ⟨hv, info, ⟨backup, w₀, w₁, earlier, hload⟩, hseed⟩) hg'
    · rcases List.mem_cons.mp hmem with heq | hmem
      · cases heq
        obtain ⟨ch, -, hex⟩ := heff.label
        have hp := hI.heeds_now hd hapart hold hsurvives (.inl hn)
        rw [horigin, (version_of_restore hex).resolve_right fun h => h.2 rfl]
        exact hp.1
      · exact absurd (.inr ⟨hv, e, secret, w₀, hmem⟩) hg'

/-- One step of a clean handoff that the code is fit for. -/
theorem step (hs : protocol.Sound c) (hl : handsOver l c = true) : HandedOn c' := by
  simp only [handsOver, Bool.and_eq_true] at hl
  obtain ⟨hclean, hback, hup, hapart⟩ := hl
  exact
    { opened := openedThen_step hd hI.opened
      covered := stopsCovered_step hd hI.covered hclean hup
      caller := fun _ => hI.caller_step hd
      holds := fun _ ht _ hn => hI.holds_step hd hapart ht hn
      heeds := hI.heeds_step hd hs hclean hapart
      grounded := hI.grounded_step hd hs
      current := hI.current_step hd hs hback hclean hapart
      staged := fun t => Dispose.staged_step hs (hI.staged t) hd }

end Steps

/-- A start that the controller tries again. -/
theorem retried {u : String} {ch : Choice} {r : Except Err Unit} (hI : HandedOn c)
    (he : exec u .startNode ch c.world = some (r, c'.world)) (hpool : c'.pool = c.pool)
    (htrace : c'.trace = c.trace) : HandedOn c' := by
  have hf := startFrame_exec he
  have hstatus : ∀ t, (c'.world.pages t).status = (c.world.pages t).status := fun t => by rw [hf.page t]
  have hpending : ∀ t, (c'.world.pages t).pendingRestoreEnvelope =
      (c.world.pages t).pendingRestoreEnvelope := fun t => by rw [hf.page t]
  have horigin : ∀ t, (c'.world.pages t).origin = (c.world.pages t).origin := fun t => by rw [hf.page t]
  have hstopped : ∀ {n}, SomeStopAt c'.world n → SomeStopAt c.world n :=
    fun h => h.imp fun _ => Exists.imp fun _ h => hf.log ▸ h
  have hhistory := Protocol.history_eq htrace
  refine ⟨fun x hx => hI.opened x (htrace ▸ hx), fun n hn => ?_, fun t ht => ?_, fun t ht n hn e he => ?_,
    fun i j p hi ht n hn => ?_, fun i j p hi hst => ?_, fun i j p hi ht hg => ?_, fun t i j p hi ht => ?_⟩
  · rw [hf.drive]
    exact hI.covered n (hstopped hn)
  · rw [hpool]
    exact hI.caller t (hpending t ▸ ht)
  · exact hI.holds t (hstatus t ▸ ht) n (hstopped hn) e (hpending t ▸ he)
  · exact hI.heeds i j p (hpool ▸ hi) (hstatus _ ▸ ht) n (hn.imp hstopped fun h => hhistory i ▸ h)
  · rw [hhistory i] at hst ⊢
    exact hI.grounded i j p (hpool ▸ hi) hst
  · rw [hhistory i] at hg
    refine (hI.current i j p (hpool ▸ hi) (hstatus _ ▸ ht) hg).imp_right fun h n hn => ?_
    rw [hf.version, horigin]
    exact h n (hstopped hn)
  · rw [hhistory i]
    exact hI.staged t i j p (hpool ▸ hi) ht

end HandedOn

/-! ## Main results -/

/-- Only a call that has had its node started shows `running`. -/
theorem started_of_reachesRunning (hd : protocol.Did l c c') (hstaged : Dispose.StagedPool t c)
    (h : ReachesRunning c c' t) :
    ∃ (i : Nat) (j : Job) (p : Roam Unit), c.pool[i]? = some (j, p) ∧ j.token = t ∧
      jobRuns j c.world = true ∧ ¬ p.Ended ∧ SyncStep j c.world c'.world ∧
      ∃ e ∈ c.history i, Dispose.started e = true := by
  obtain ⟨hno, hyes⟩ := h
  have event : ∀ {e : Event} {w : World}, effect e c.world = some w → (w.pages t).view ≠ .running := by
    intro e w he hw
    rcases (effect_frame he).page t with ⟨hp, -⟩ | ⟨origin, appName, -, -, hp⟩
    · rw [hp] at hw
      exact hno hw
    · rw [hp] at hw
      cases hw
  cases hd with
  | call i ch j q k r _ _ _ he _ _ _ =>
    have hview := (Dispose.page_of_exec (t := t) he).2.2.1
    exact absurd (hview ▸ hyes) hno
  | resume i j p hl hi hruns hs hadv _ _ =>
    by_cases hj : j.token = t
    · refine ⟨i, j, p, hi, hj, hruns, fun hended => ?_, hs, ?_⟩
      · rw [ended_advance hended] at hadv
        have hworld : c.world = c'.world := hadv
        exact hno (hworld ▸ hyes)
      · rcases (hstaged i j p hi hj).2 with huntil | hstarted
        · have hlowers := (huntil.advance Dispose.Lowers.refl (fun _ _ _ => Dispose.Lowers.trans) c.world).1
          exact absurd hyes (hadv ▸ hlowers.view hno)
        · exact hstarted
    · rw [hs.others t (Ne.symm hj)] at hyes
      exact absurd hyes hno
  | event e _ he _ _ =>
    simp only [embed, Option.map_eq_some_iff, Prod.mk.injEq] at he
    obtain ⟨w, heff, rfl, -⟩ := he
    exact absurd hyes (event heff)
  | called e w j p hl he hs hadv _ _ =>
    obtain ⟨heff, hh⟩ := Dispose.called_of_event he
    by_cases hj : j.token = t
    · subst hj
      obtain ⟨w', hw', hlowers, -⟩ := Dispose.called_advance hh w
      refine absurd hyes (hadv ▸ hlowers.view ?_)
      rcases hw' with rfl | ⟨-, rfl⟩
      · exact event heff
      · rw [Dispose.marked, World.setPage_self]
        exact event heff
    · rw [hs.others t (Ne.symm hj)] at hyes
      exact absurd hyes (event heff)

namespace Examples

/-- `a.example` is at version 5, every other origin is empty; nothing is on Drive. -/
def oneOrigin : World where
  clock := 200000
  drive := { firstLease := none, firstBackup := none }
  origins := fun o =>
    if o = "a.example" then
      { db := { seed := some "seed", stateVersion := 5, channelManager := true }, mirror := 5 }
    else { db := { seed := none, stateVersion := 0, channelManager := false } }
  pages := fun _ => {}

theorem untouched_oneOrigin : Untouched oneOrigin := ⟨fun _ => rfl, rfl, rfl, rfl⟩

/-- The page `t` of the origin `o` loads and boots, by procedure `i`; at the end, `n`
more steps. -/
def bootUp (i : Nat) (t o : String) (n : Nat) : List (Line Choice Event) :=
  [.event (.openPage t o none), .event (.boot t), .go i .ok 9, .event (.pass 2000),
   .go i .ok 20, .event (.pass 5000), .go i .ok n]

/-- The tab is hidden, which flushes and releases, and closed. -/
def hideAndClose (i : Nat) (t : String) : List (Line Choice Event) :=
  [.event (.hidden t), .go i .ok 20, .event (.closePage t)]

/-- The empty origin's user enters the seed; at the end, `n` more steps. -/
def restoreSeed (i : Nat) (t : String) (n : Nat) : List (Line Choice Event) :=
  [.event (.submitSecret t "seed"), .go i .ok 20, .event (.pass 5000), .go i .ok n]

/-- `a.example` runs and closes; `b.example` restores, advances and closes. -/
def thereAndBack : List (Line Choice Event) :=
  bootUp 0 "a1" "a.example" 20 ++ hideAndClose 1 "a1" ++ bootUp 2 "b1" "b.example" 20 ++
    restoreSeed 3 "b1" 20 ++ [.event (.advance "b1")] ++ hideAndClose 4 "b1"

end Examples

end LibreWallet.Embed
