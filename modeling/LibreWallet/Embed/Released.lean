import LibreWallet.Embed.Retry

/-
  Embed/Released.lean --- what a released mark says about its owner.

  One page A of one origin runs, and from then on anything happens to it but a new
  boot: its node advances, its uploads land or not, its tab is hidden, shown, or
  disposed of, while other origins come and go.  A record of A that is marked
  `released` is sound as long as no close path marks it while A's node runs or its
  backup is behind.  The hidden tab is exactly what does: it releases and runs on.
  A's controller has no retry of a start pending: the start of its node cleared it.
-/

set_option autoImplicit false

namespace LibreWallet.Embed

open Async Controller Roaming

/-! ## The vocabulary -/

/-- A's node is stopped, and the backup holds what A has. -/
def CaughtUp (t : String) (w : World) : Prop :=
  ¬ w.Runs t ∧ version w (w.pages t).origin ≤ w.drive.backupVersion

instance (t : String) (w : World) : Decidable (CaughtUp t w) :=
  inferInstanceAs (Decidable (_ ∧ _))

/-- A released record of A is true. -/
def ReleasedSound (t : String) (w : World) : Prop :=
  ∀ r, w.drive.lease = some r → r.owner = t → r.phase = .released → CaughtUp t w

/-- The page A, alone on its origin, before it has released anything.  The log starts
here. -/
structure SoleSession (t : String) (w : World) : Prop where
  inv : Inv w
  opened : Opened w t
  alone : ∀ u, u ≠ t → Opened w u → (w.pages u).origin ≠ (w.pages t).origin
  log : w.log = []
  live : ∀ r, w.drive.Held (some r) → r.owner = t → r.phase = .live
  newest : ∀ e ∈ w.drive.uploads, e.stateVersion ≤ w.drive.backupVersion

/-- What happens to A: no new boot, and no second page of its origin. -/
def keepsRunning (t : String) (l : EmbedLabel) (c : EmbedConfig) : Bool :=
  match l with
  | .event (.boot u) => u ≠ t
  | .event (.moveHere u _) => u ≠ t
  | .event (.submitSecret u _) => u ≠ t
  | .event (.forceRestoreAnyway u) => u ≠ t
  | .event (.openPage _ o _) => o ≠ (c.world.pages t).origin
  | _ => true

/-- When a close path reaches A, it either marks nothing or may: a tab is hidden when its
node has stopped, a pagehide goes by counters that show something unflushed, or A is
caught up.  No upload lowers the backup. -/
def marksWhenCaughtUp (t : String) (l : EmbedLabel) (c : EmbedConfig) : Bool :=
  keepsRunning t l c &&
    match l with
    | .event (.hidden u) => u ≠ t || (c.world.pages t).view ≠ .running || ¬ c.world.Runs t
    | .event (.pageHide u) =>
      let p := c.world.pages t
      u ≠ t || p.lastWritten.isNone || p.flushedVersion < p.localVersion || CaughtUp t c.world
    | .event (.dispose u) =>
      u ≠ t || (c.world.pages t).view = .running || CaughtUp t c.world
    | .call i _ =>
      match c.awaits i with
      | some (_, .uploadBackup e) => c.world.drive.backupVersion ≤ e.stateVersion
      | _ => true
    | _ => true

/-! ## The invariant -/

/-- How far A's code has gone, for the verbs that can mark. -/
def Fit (t : String) (w : World) (h : List RoamEntry) : Verb → Roam Unit → Prop
  | .tick, _ => True
  | .sync, _ => True
  | .controllerEvent, _ => True
  | .closeSoon, p => p = .done () ∨ ¬ w.Runs t
  | .releaseSync, p => p = .done () ∨ ∃ base clean local_ now,
      p = .await (.leaseWrite (.keepalive base) (releasedRecord base clean local_ now))
        (fun _ => .done ()) ∧ (clean = true → CaughtUp t w)
  | .dispose, p => CaughtUp t w ∨ (h = [] ∧ ∃ k, p = .await .stopNode k) ∨
      ∃ r w₀, ⟨.stopNode, r, w₀⟩ ∈ h
  | _, _ => False

/-- What holds as long as A marks only when it is caught up; `o` is A's origin. -/
structure Marks (t o : String) (c : EmbedConfig) : Prop where
  opened : Opened c.world t
  origin : (c.world.pages t).origin = o
  alone : ∀ u, u ≠ t → Opened c.world u → (c.world.pages u).origin ≠ o
  unrestored : ¬ Restored c.world o
  newest : ∀ e ∈ c.world.drive.uploads, e.stateVersion ≤ c.world.drive.backupVersion
  fit : ∀ (i : Nat) v p, c.pool[i]? = some (⟨t, v⟩, p) → Fit t c.world (c.history i) v p
  released : ∀ r, c.world.drive.Held (some r) → r.owner = t → r.phase = .released →
    CaughtUp t c.world
  stopped : ∀ x ∈ c.trace, x.job.token = t → ∀ w, x.entry = ⟨.stopNode, .ok (), w⟩ →
    ¬ c.world.Runs t
  exported : ∀ x ∈ c.trace, x.job = ⟨t, .dispose⟩ → ∀ e w,
    x.entry ≠ ⟨.exportBackup, .ok e, w⟩
  closing : ∀ x ∈ c.trace, x.job = ⟨t, .closeSoon⟩ →
    ¬ c.world.Runs t ∧ version x.entry.before o = version c.world o
  openedThen : OpenedThen c

namespace Marks

variable {t o : String} {c c' : EmbedConfig} {l : EmbedLabel}

/-- A's code neither starts a node nor restores. -/
theorem not_starts (hI : Marks t o c) {i : Nat} {j : Job} {q : Request}
    {r : Except Err (Answer q)} (he : Effected l c c' i j q r) (hj : j.token = t) :
    startsNode q = false := by
  obtain ⟨k, hpool⟩ := he.pool
  have hfit := hI.fit i j.verb _ (by rw [← hj]; exact hpool)
  obtain ⟨-, hob⟩ := he.obliged
  rw [← Bool.not_eq_true]
  intro hq
  cases q <;> simp only [startsNode, reduceCtorEq] at hq
  · obtain ⟨-, -, hverb, -⟩ := hob
    cases hv : j.verb <;> simp [hv, boots] at hverb <;> simp [hv, Fit] at hfit
  · simp [hob.1, Fit] at hfit

/-- A stopped node stays stopped, and its origin as it is. -/
theorem stays (hc : protocol.Sound c) (hI : Marks t o c) (hd : protocol.Did l c c')
    (hr : ¬ c.world.Runs t) : ¬ c'.world.Runs t ∧ version c'.world o = version c.world o := by
  constructor
  · intro h
    rcases runs_step hd h with h | ⟨i, j, q, r, he, hj, hq⟩
    · exact hr h
    · rw [hI.not_starts he hj] at hq
      cases hq
  · rcases version_step hd o with h | ⟨u, -, hu, ho⟩ | ⟨i, j, e, k, r, he, ho⟩
    · exact h
    · by_cases hut : u = t
      · exact absurd (hut ▸ hu) hr
      · have hopen : Opened c.world u := by
          intro hun
          have := (hc.inv u).unopened hun
          rw [World.Runs, this] at hu
          cases hu
        exact absurd ho (hI.alone u hut hopen)
    · by_cases hj : j.token = t
      · have := hI.not_starts he hj
        cases this
      · exact absurd ho (hI.alone _ hj he.obliged.1)

/-- The backup does not get older. -/
theorem backup_mono (hd : protocol.Did l c c') (hl : marksWhenCaughtUp t l c = true) :
    c.world.drive.backupVersion ≤ c'.world.drive.backupVersion ∧
      ∀ e ∈ c'.world.drive.uploads, e ∈ c.world.drive.uploads ∨
        e.stateVersion ≤ c'.world.drive.backupVersion := by
  rcases uploads_step hd with hu | ⟨i, j, e, r, he, hu⟩
  · have hb : c'.world.drive.backupVersion = c.world.drive.backupVersion := by
      rw [Drive.backupVersion, Drive.backupVersion, Drive.backup, Drive.backup, hu,
        (first_step hd).2]
    exact ⟨Nat.le_of_eq hb.symm, fun e he => .inl (hu ▸ he)⟩
  · have hb : c'.world.drive.backupVersion = e.stateVersion := by
      simp [Drive.backupVersion, Drive.backup, hu]
    rw [hb]
    obtain ⟨ch, rfl, -⟩ := he.label
    simp only [marksWhenCaughtUp, he.awaits, Bool.and_eq_true, decide_eq_true_eq] at hl
    refine ⟨hl.2, fun e' he' => ?_⟩
    rw [hu] at he'
    rcases List.mem_cons.mp he' with rfl | he'
    · exact .inr (Nat.le_refl _)
    · exact .inl he'

/-- Caught up is caught up for good. -/
theorem caughtUp_step (hc : protocol.Sound c) (hI : Marks t o c) (hd : protocol.Did l c c')
    (hl : marksWhenCaughtUp t l c = true) (h : CaughtUp t c.world) : CaughtUp t c'.world := by
  obtain ⟨hr, hv⟩ := h
  obtain ⟨hr', hv'⟩ := hI.stays hc hd hr
  refine ⟨hr', ?_⟩
  rw [origin_step hd hI.opened, hI.origin, hv']
  rw [hI.origin] at hv
  exact Nat.le_trans hv (backup_mono hd hl).1

/-- Where A's code stood it still is fit, whatever the others did. -/
theorem fit_mono {w w' : World} (hr : ¬ w.Runs t → ¬ w'.Runs t) (hup : CaughtUp t w → CaughtUp t w')
    {h : List RoamEntry} {v : Verb} {p : Roam Unit} (hf : Fit t w h v p) : Fit t w' h v p := by
  cases v with
  | closeSoon => exact hf.imp_right hr
  | releaseSync =>
    refine hf.imp_right ?_
    rintro ⟨base, clean, v, now, hp, hclean⟩
    exact ⟨base, clean, v, now, hp, fun h => hup (hclean h)⟩
  | dispose => exact hf.imp_left hup
  | _ => exact hf

/-- A request of A's code was answered. -/
theorem fit_answered {h : List RoamEntry} {v : Verb} {q : Request} {w : World}
    {k : Except Err (Answer q) → Roam Unit} {r : Except Err (Answer q)}
    (hf : Fit t w h v (.await q k)) {w₀ : World} : Fit t w (⟨q, r, w₀⟩ :: h) v (k r) := by
  cases v with
  | closeSoon =>
    rcases hf with hp | hr
    · cases hp
    · exact .inr hr
  | releaseSync =>
    rcases hf with hp | ⟨_, _, _, _, hp, -⟩
    · cases hp
    · cases hp
      exact .inl rfl
  | dispose =>
    rcases hf with hup | ⟨-, k', hp⟩ | ⟨r', w', hmem⟩
    · exact .inl hup
    · cases hp
      exact .inr (.inr ⟨r, w₀, by simp⟩)
    · exact .inr (.inr ⟨r', w', List.mem_cons_of_mem _ hmem⟩)
  | _ => exact hf

/-- A's code ran on. -/
theorem fit_resumed {h : List RoamEntry} {v : Verb} {w w' : World} {p : Roam Unit}
    (hf : Fit t w' h v p) : Fit t w' h v (p.advance w).2 := by
  cases v with
  | closeSoon =>
    rcases hf with rfl | hr
    · exact .inl rfl
    · exact .inr hr
  | releaseSync =>
    rcases hf with rfl | ⟨base, clean, v, now, rfl, hclean⟩
    · exact .inl rfl
    · exact .inr ⟨base, clean, v, now, rfl, hclean⟩
  | dispose =>
    rcases hf with hup | ⟨hnil, k, rfl⟩ | hmem
    · exact .inl hup
    · exact .inr (.inl ⟨hnil, k, rfl⟩)
    · exact .inr (.inr hmem)
  | _ => exact hf

/-- A handler of A that the condition lets be called is fit from its first request on. -/
theorem fit_called {e : Event} {w : World} {v : Verb} {p : Roam Unit} {w' : World}
    (hl : marksWhenCaughtUp t (.event e) c = true) (he : effect e c.world = some w)
    (hh : handler e = some (⟨t, v⟩, p)) (hr : ¬ c.world.Runs t → ¬ w'.Runs t)
    (hup : CaughtUp t c.world → CaughtUp t w') : Fit t w' [] v (p.advance w).2 := by
  simp only [marksWhenCaughtUp, Bool.and_eq_true] at hl
  have stay : ∀ {b : Prop} [Decidable b], (if b then some c.world else none) = some w →
      w = c.world := by
    intro b _ h
    split at h
    · exact (Option.some.inj h).symm
    · cases h
  cases e <;> simp only [handler, reduceCtorEq, Option.some.injEq, Prod.mk.injEq, Job.mk.injEq]
    at hh <;> obtain ⟨⟨rfl, rfl⟩, rfl⟩ := hh
  case heartbeat | syncFires | controllerEvent => trivial
  case boot | moveHere | submitSecret | forceRestoreAnyway => simp [keepsRunning] at hl
  case dispose u =>
    have hl := hl.2
    cases stay he
    simp only [ne_eq, not_true_eq_false, decide_false, Bool.false_or, Bool.or_eq_true,
      decide_eq_true_eq] at hl
    rcases hl with hv | h
    · exact .inr (.inl ⟨rfl, dispose_advance hv⟩)
    · exact .inl (hup h)
  case hidden u =>
    have hl := hl.2
    cases stay he
    simp only [ne_eq, not_true_eq_false, decide_false, Bool.false_or, Bool.or_eq_true,
      decide_eq_true_eq] at hl
    rcases hl with hv | h
    · exact .inl (closeSoon_advance hv)
    · exact .inr (hr h)
  case pageHide u =>
    have hl := hl.2
    cases stay he
    simp only [ne_eq, not_true_eq_false, decide_false, Bool.false_or, Bool.or_eq_true,
      decide_eq_true_eq, Option.isNone_iff_eq_none] at hl
    rw [Fit, releaseSync_advance]
    cases hlw : (c.world.pages u).lastWritten with
    | none => exact .inl rfl
    | some last =>
      refine .inr ⟨last, _, _, _, rfl, fun hclean => ?_⟩
      rcases hl with (h | h) | h
      · simp [hlw] at h
      · simp only [decide_eq_true_eq] at hclean
        omega
      · exact hup h

theorem fit_step (hc : protocol.Sound c) (hI : Marks t o c) (hd : protocol.Did l c c')
    (hl : marksWhenCaughtUp t l c = true) :
    ∀ (i : Nat) v p, c'.pool[i]? = some (⟨t, v⟩, p) → Fit t c'.world (c'.history i) v p := by
  intro i v p hp
  have hmono : ∀ {h v p}, Fit t c.world h v p → Fit t c'.world h v p :=
    fit_mono (fun h => (hI.stays hc hd h).1) (hI.caughtUp_step hc hd hl)
  cases hd.went hc hp with
  | stayed hi hh =>
    rw [hh]
    exact hmono (hI.fit i v p hi)
  | answered hi hh =>
    rw [hh]
    exact fit_answered (hmono (hI.fit i v _ hi))
  | resumed hi hh =>
    rw [hh]
    exact fit_resumed (hmono (hI.fit i v _ hi))
  | called hl' he hh =>
    rw [hh]
    simp only [embed, Option.map_eq_some_iff, Prod.mk.injEq] at he
    obtain ⟨w', heff, rfl, hh'⟩ := he
    exact fit_called (hl' ▸ hl) heff hh' (fun h => (hI.stays hc hd h).1)
      (hI.caughtUp_step hc hd hl)

/-- What A flushed is in the backup. -/
theorem flushed_le (hc : protocol.Sound c) (hI : Marks t o c) :
    (c.world.pages t).flushedVersion ≤ c.world.drive.backupVersion := by
  rcases (hc.inv t).flushed with hr | h0 | ⟨e, he, hle⟩
  · exact absurd (hI.origin ▸ hr) hI.unrestored
  · rw [h0]
    exact Nat.zero_le _
  · exact Nat.le_trans hle (hI.newest e he)

/-- When A releases its lease as clean, it is caught up. -/
theorem release_caughtUp (hc : protocol.Sound c) (hI : Marks t o c) {i : Nat} {v : Verb}
    {q : Request} {k : Except Err (Answer q) → Roam Unit} {base : RoamingLeaseRecord} {n : Nat}
    (hpool : c.pool[i]? = some (⟨t, v⟩, .await q k))
    (hok : ReleaseOk ⟨t, v⟩ (c.history i) base true n c.world) : CaughtUp t c.world := by
  have hfit := hI.fit i v _ hpool
  obtain ⟨-, hok⟩ := hok
  cases v <;> simp only at hok
  case dispose =>
    rcases hok with ⟨info, w₁, w₀, -, hh⟩ | ⟨e, w₁, hmem⟩
    · -- a session that did not run has not asked for a stop
      rcases hfit with h | ⟨hnil, -⟩ | ⟨r, w, hmem⟩
      · exact h
      · simp [hh] at hnil
      · simp [hh] at hmem
    · obtain ⟨x, hx, hj, hxe⟩ := hc.of_mem_history hpool hmem
      exact absurd hxe (hI.exported x hx hj e w₁)
  case closeSoon =>
    obtain ⟨info, w₁, hmem, rfl, hclean⟩ := hok
    obtain ⟨x, hx, hj, hxe⟩ := hc.of_mem_history hpool hmem
    obtain ⟨hr, hv⟩ := hI.closing x hx hj
    have hinfo := info_of_read hc hx hxe
    have hpast : Evolves x.entry.before c.world := hc.past x hx
    have hopen := hI.openedThen x hx
    have horigin := hpast.origin _ hopen
    rw [hxe] at hv horigin
    rw [hj] at hinfo horigin
    refine ⟨hr, ?_⟩
    calc version c.world (c.world.pages t).origin = info.stateVersion := by
          rw [hI.origin, ← hv, hinfo]
          simp only [localInfo, World.store, version]
          rw [← horigin, hI.origin]
      _ ≤ (c.world.pages t).flushedVersion := hclean trivial
      _ ≤ c.world.drive.backupVersion := hI.flushed_le hc

/-- A released record of A is written when A is caught up. -/
theorem released_step (hc : protocol.Sound c) (hI : Marks t o c) (hd : protocol.Did l c c')
    (hl : marksWhenCaughtUp t l c = true) : ∀ r, c'.world.drive.Held (some r) →
      r.owner = t → r.phase = .released → CaughtUp t c'.world := by
  have hup := hI.caughtUp_step hc hd hl
  intro r hheld howner hphase
  rcases hheld with h | ⟨x, hx, hr⟩
  · exact hup (hI.released r (.inl (h.trans (first_step hd).1)) howner hphase)
  rcases writes_step hd with hw | ⟨i, j, how, rec, r', he, hw⟩
  · exact hup (hI.released r (.inr ⟨x, hw ▸ hx, hr⟩) howner hphase)
  rw [hw] at hx
  rcases List.mem_cons.mp hx with rfl | hx
  swap
  · exact hup (hI.released r (.inr ⟨x, hx, hr⟩) howner hphase)
  cases hr
  apply hup
  obtain ⟨k, hpool⟩ := he.pool
  have hok := he.obliged.2
  cases how with
  | claim site prev =>
    obtain ⟨info, w₀, w₁, earlier, origin, appName, now, -, rfl, -⟩ := hok
    cases hphase
  | ack base =>
    -- an ack copies the mark of the record that it finds
    obtain ⟨-, ⟨w₀, earlier, hh⟩, v, now, rfl⟩ := hok
    obtain ⟨y, hy, -, hye⟩ := hc.of_mem_history hpool
      (e := ⟨.leaseRead .ack, .ok (some base), w₀⟩) (by simp [hh])
    exact hI.released base (held_of_read hc hy hye) howner hphase
  | release base =>
    obtain ⟨-, clean, v, now, rfl, hrel⟩ := hok
    obtain ⟨token, verb⟩ := j
    have htoken : token = t := hrel.1.symm.trans howner
    subst htoken
    cases clean with
    | false => cases hphase
    | true => exact hI.release_caughtUp hc hpool hrel
  | keepalive base =>
    obtain ⟨hverb, ⟨y, hy, -, rfl, hown, -⟩, clean, v, now, hrec⟩ := hok
    obtain ⟨token, verb⟩ := j
    have htoken : token = t := by
      rw [← howner, hrec, ← show y.record.owner = token from hown]
      rfl
    subst htoken
    cases hverb
    rcases hI.fit i _ _ hpool with hq | ⟨_, clean', _, _, hq, hclean⟩
    · cases hq
    · cases hq
      cases clean' with
      | false => cases hphase
      | true => exact hclean rfl

/-- A stop that succeeds leaves no node. -/
theorem not_runs_of_stop {ch : Choice} {w w' : World}
    (he : exec t .stopNode ch w = some (.ok (), w')) : ¬ w'.Runs t := by
  simp only [exec, World.act, Option.some.injEq, Prod.mk.injEq] at he
  obtain ⟨hok, hw⟩ := he
  cases hs : stopNode t (decide (ch = .ok)) (w.node t) with
  | mk r n =>
    rw [hs] at hok hw
    cases r with
    | error e => simp [Except.mapError] at hok
    | ok u =>
      have hwallet := stopNode_wallet hs
      rcases ite_eq_iff.mp hw with ⟨-, rfl⟩ | ⟨-, rfl⟩ <;> simp [World.Runs, hwallet]

/-- One step of such a run. -/
theorem step (hc : protocol.Sound c) (hI : Marks t o c) (hd : protocol.Did l c c')
    (hl : marksWhenCaughtUp t l c = true) : Marks t o c' where
  opened := by
    rcases opened_step hd t with h | ⟨origin, appName, rfl, ho⟩
    · exact h.mpr hI.opened
    · simp [marksWhenCaughtUp, keepsRunning, ← ho, origin_step hd hI.opened] at hl
  origin := (origin_step hd hI.opened).trans hI.origin
  alone := by
    intro u hu hopen
    rcases opened_step hd u with h | ⟨origin, appName, rfl, ho⟩
    · rw [origin_step hd (h.mp hopen)]
      exact hI.alone u hu (h.mp hopen)
    · simp only [marksWhenCaughtUp, keepsRunning, Bool.and_true, decide_eq_true_eq, hI.origin] at hl
      rw [ho]
      exact hl
  unrestored := by
    rintro ⟨u, hu⟩
    rcases log_step hd hu with h | h
    · exact hI.unrestored ⟨u, h⟩
    · generalize hn : Note.restore u o = n at h
      cases h <;> simp only [reduceCtorEq, Note.restore.injEq] at hn
      rename_i i j e k r he
      by_cases hj : j.token = t
      · have := hI.not_starts he hj
        cases this
      · exact hI.alone _ hj he.obliged.1 hn.2.symm
  newest := by
    intro e he
    obtain ⟨hmono, hnew⟩ := backup_mono hd hl
    rcases hnew e he with h | h
    · exact Nat.le_trans (hI.newest e h) hmono
    · exact h
  fit := hI.fit_step hc hd hl
  released := hI.released_step hc hd hl
  stopped := by
    refine trace_forall hd (fun x hx hj w hxe => ?_) fun i j q r he hj w hx => ?_
    · exact (hI.stays hc hd (hI.stopped x hx hj w hxe)).1
    · cases hx
      subst hj
      obtain ⟨ch, -, hex⟩ := he.label
      exact not_runs_of_stop hex
  exported := by
    refine trace_forall hd hI.exported fun i j q r he hj e w hx => ?_
    cases hx
    obtain ⟨ch, -, hex⟩ := he.label
    obtain ⟨k, hpool⟩ := he.pool
    subst hj
    obtain ⟨w₀, hmem⟩ := he.obliged.2 rfl
    obtain ⟨x, hx, hxj, hxe⟩ := hc.of_mem_history hpool hmem
    exact hI.stopped x hx (by rw [hxj]) w₀ hxe (exportBackup_answer (t := t) hex).1
  closing := by
    refine trace_forall hd (fun x hx hj => ?_) fun i j q r he hj => ?_
    · obtain ⟨hr, hv⟩ := hI.closing x hx hj
      obtain ⟨hr', hv'⟩ := hI.stays hc hd hr
      exact ⟨hr', hv.trans hv'.symm⟩
    · subst hj
      obtain ⟨k, hpool⟩ := he.pool
      rcases hI.fit i _ _ hpool with hp | hr
      · cases hp
      · obtain ⟨hr', hv'⟩ := hI.stays hc hd hr
        exact ⟨hr', hv'.symm⟩
  openedThen := openedThen_step hd hI.openedThen

/-! ### The retry -/

/-- The retry of A's controller stays clear: A's code asks for no start. -/
theorem timer_step (hI : Marks t o c) (hd : protocol.Did l c c') {x : String → NodeLockRetry}
    (hx : (x t).timer = none) : (retriesAfter l c x t).timer = none := by
  have hclear : ∀ u, (Function.update x u clearNodeLockRetry t).timer = none := by
    intro u
    by_cases hu : t = u
    · rw [hu, Function.update_self]
      rfl
    · rw [Function.update_of_ne hu]
      exact hx
  cases l with
  | call i ch =>
    cases hawaits : c.awaits i with
    | none =>
      simp only [retriesAfter, hawaits]
      exact hx
    | some jq =>
      obtain ⟨j, q⟩ := jq
      cases q with
      | startNode =>
        have hne : t ≠ j.token := by
          intro hj
          cases hd with
          | call i' ch' j' q k r hl hi _ he ho _ ht =>
            cases hl
            have heff : Effected (.call i ch) c c' i j' q r := ⟨⟨ch, rfl, he⟩, ⟨k, hi⟩, ho, ht⟩
            obtain ⟨rfl, rfl⟩ := Prod.mk.inj (Option.some.inj (heff.awaits.symm.trans hawaits))
            have := hI.not_starts heff hj.symm
            cases this
          | resume i' j' p hl _ _ _ _ _ _ => cases hl
          | event e hl _ _ _ => cases hl
          | called e w j' p hl _ _ _ _ _ => cases hl
        by_cases hr : c.world.Runs j.token
        · simp only [retriesAfter, hawaits, if_pos hr]
          exact hx
        · simp only [retriesAfter, hawaits, if_neg hr, exec]
          rw [Function.update_of_ne hne]
          exact hx
      | stopNode =>
        simp only [retriesAfter, hawaits]
        exact hclear _
      | _ =>
        simp only [retriesAfter, hawaits]
        exact hx
  | resume i => exact hx
  | event e =>
    cases e with
    | closePage u => exact hclear u
    | _ => exact hx

/-- A start that the controller of another page tries again. -/
theorem retried (hI : Marks t o c) {u : String} {ch : Choice} {r : Except Err Unit} (hu : u ≠ t)
    (hopen : Opened c.world u) (he : exec u .startNode ch c.world = some (r, c'.world))
    (hpool : c'.pool = c.pool) (htrace : c'.trace = c.trace) : Marks t o c' := by
  have hf := startFrame_exec he
  have hpage : c'.world.pages t = c.world.pages t := hf.others t (Ne.symm hu)
  have hsame : ∀ v, (c'.world.pages v).origin = (c.world.pages v).origin ∧
      (Opened c'.world v → Opened c.world v) := by
    intro v
    rw [Opened, hf.page v]
    exact ⟨rfl, id⟩
  have hruns : ¬ c.world.Runs t → ¬ c'.world.Runs t := by
    rw [World.Runs, World.Runs, hpage]
    exact id
  have hup : CaughtUp t c.world → CaughtUp t c'.world := by
    rintro ⟨hr, hv⟩
    refine ⟨hruns hr, ?_⟩
    rw [hpage, hf.version, hf.drive]
    exact hv
  exact
    { opened := by
        rw [Opened, hpage]
        exact hI.opened
      origin := by
        rw [hpage]
        exact hI.origin
      alone := fun v hv ho => by
        rw [(hsame v).1]
        exact hI.alone v hv ((hsame v).2 ho)
      unrestored := by
        rw [Restored, hf.log]
        exact hI.unrestored
      newest := by
        rw [hf.drive]
        exact hI.newest
      fit := fun i v p hp => by
        rw [Protocol.history_eq htrace]
        exact fit_mono hruns hup (hI.fit i v p (hpool ▸ hp))
      released := fun r hr ho hp => hup (hI.released r (hf.drive ▸ hr) ho hp)
      stopped := fun x hx hj w hxe => hruns (hI.stopped x (htrace ▸ hx) hj w hxe)
      exported := fun x hx => hI.exported x (htrace ▸ hx)
      closing := fun x hx hj => by
        obtain ⟨hr, hv⟩ := hI.closing x (htrace ▸ hx) hj
        exact ⟨hruns hr, hv.trans (hf.version o).symm⟩
      openedThen := fun x hx => hI.openedThen x (htrace ▸ hx) }

end Marks

/-! ## Main results -/

/-- Where A's close paths mark only when A is caught up, every released record of A is
true in every state. -/
theorem releasedSound_of_marksWhenCaughtUp {t : String} {w : World} (hw : SoleSession t w)
    {x : String → NodeLockRetry} (hx : (x t).timer = none) {s : Controlled}
    (hrun : Steps controlled (Move.meets fun l d => marksWhenCaughtUp t l d = true)
      { config := initial w, retries := x } s) : ReleasedSound t s.config.world := by
  have hI₀ : Marks t (w.pages t).origin (initial w) :=
    { opened := hw.opened
      origin := rfl
      alone := hw.alone
      unrestored := by simp [Restored, initial, hw.log]
      newest := hw.newest
      fit := by simp [initial]
      released := fun r hr ho hp => by
        have := hw.live r hr ho
        rw [this] at hp
        cases hp
      stopped := by simp [initial]
      exported := by simp [initial]
      closing := by simp [initial]
      openedThen := by simp [OpenedThen, initial] }
  have hstep : ∀ m d d', protocol.Sound d.config →
      Marks t (w.pages t).origin d.config ∧ (d.retries t).timer = none →
      Move.meets (fun l d => marksWhenCaughtUp t l d = true) m d → Moved m d d' →
      Marks t (w.pages t).origin d'.config ∧ (d'.retries t).timer = none := by
    intro m d d' hd hI hm hmoved
    cases hmoved with
    | embed l hl hdid hretries =>
      exact ⟨hI.1.step hd hdid (hm l hl), hretries ▸ hI.1.timer_step hdid hI.2⟩
    | needless u ch _ hconfig hretries =>
      refine ⟨hconfig ▸ hI.1, ?_⟩
      rw [hretries]
      by_cases hu : t = u
      · rw [hu, Function.update_self]
        rfl
      · rw [Function.update_of_ne hu]
        exact hI.2
    | started u ch r x _ hdue ho he hpool htrace hretries =>
      have hu : t ≠ u := fun hu => hdue (hu ▸ hI.2)
      refine ⟨hI.1.retried (Ne.symm hu) ho he hpool htrace, ?_⟩
      rw [hretries, Function.update_of_ne hu]
      exact hI.2
  obtain ⟨-, hI, -⟩ := invariant_of_moves
    (I := fun d => Marks t (w.pages t).origin d.config ∧ (d.retries t).timer = none)
    (Protocol.Sound.initial hw.inv) ⟨hI₀, hx⟩ hstep hrun
  exact fun r hr => hI.released r (hr ▸ s.config.world.drive.held_lease)

namespace Examples

def ownRecord : RoamingLeaseRecord :=
  { owner := "a1", origin := "a.example", acquiredAt := 100000, expiresAt := 220000, seq := 1
    heartbeatStateVersion := 5, phase := .live }

/-- The page of `a.example`, running. -/
def runningPage : Page :=
  { origin := "a.example", status := .alive, wallet := .running, heartbeatTimer := some 140000
    lastWritten := some ownRecord, view := .running }

/-- It runs at version 5, and the backup is at version 5. -/
def runningAtFive : World where
  clock := 140000
  drive := { firstLease := none, writes := [⟨"a1", .claim .acquire none, ownRecord⟩]
             firstBackup := some { seedHex := "seed", stateVersion := 5 } }
  origins := fun _ =>
    { db := { seed := some "seed", stateVersion := 5, channelManager := true }, mirror := 5
      runLock := some "a1" }
  pages := fun u => if u = "a1" then runningPage else {}

theorem soleSession_runningAtFive : SoleSession "a1" runningAtFive where
  inv := fun u => by
    by_cases hu : u = "a1"
    · subst hu
      exact
        { unopened := fun h => by cases h
          postClaim := fun r h => by cases h
          lastWritten := fun r h => by
            cases h
            exact ⟨_, List.mem_cons_self, rfl, rfl, rfl, .acquire, none, rfl⟩
          blocked := fun o e h => by cases h
          needSecret := fun h => by cases h
          halted := fun r m o h => by cases h
          flushed := .inr (.inl rfl) }
    · simp only [runningAtFive, hu, if_false]
      exact
        { unopened := fun _ => rfl
          postClaim := fun r h => by cases h
          lastWritten := fun r h => by cases h
          blocked := fun o e h => by cases h
          needSecret := fun h => by cases h
          halted := fun r m o h => by cases h
          flushed := .inr (.inl rfl) }
  opened := by simp [Opened, runningAtFive, runningPage]
  alone := fun u hu hopen => by simp [Opened, runningAtFive, hu] at hopen
  log := rfl
  live := by
    rintro r (h | ⟨x, hx, h⟩) - <;> simp_all [runningAtFive, ownRecord]
  newest := by simp [runningAtFive]

/-- Drive is out of reach for longer than a lease, the session fences itself, and is
disposed of when Drive is back. -/
def fenceAndDispose : List (Line Choice Event) :=
  [.event (.heartbeat "a1"), .go 0 .fail 1, .go 0 .ok 9,
   .event (.pass 120001), .event (.heartbeat "a1"), .go 1 .fail 1, .go 1 .ok 9,
   .event (.dispose "a1"), .go 2 .ok 20]

/-- The lease is a released record of `t`. -/
def leaseReleased (c : EmbedConfig) (t : String) : Bool :=
  c.world.drive.lease.any fun r => r.owner = t && r.phase = .released

end Examples

open Examples in
/-- A session that is stopped and caught up releases, and the mark is true. -/
theorem releasedSound_of_marksWhenCaughtUp_run :
    ∃ s, Steps controlled (Move.meets fun l d => marksWhenCaughtUp "a1" l d = true)
        (unarmed (initial runningAtFive)) s ∧
      leaseReleased s.config "a1" = true ∧ ReleasedSound "a1" s.config.world := by
  obtain ⟨c, hrun, hf⟩ := Machine.Run.exists_of_play (M := embed) (g := marksWhenCaughtUp "a1")
    (c := initial runningAtFive) (s := fenceAndDispose) (f := fun c => leaseReleased c "a1")
    (by decide +kernel)
  obtain ⟨x, hsteps⟩ := steps_of_run_meets hrun fun _ => clearNodeLockRetry
  exact ⟨⟨c, x⟩, hsteps, hf,
    releasedSound_of_marksWhenCaughtUp soleSession_runningAtFive rfl hsteps⟩

open Examples in
/-- The tab is hidden: A uploads, releases its lease, and runs on. -/
theorem released_while_running :
    ∃ (t : String) (w : World) (s : Controlled), SoleSession t w ∧
      Steps controlled (Move.meets fun l d => keepsRunning t l d = true) (unarmed (initial w)) s ∧
      ¬ ReleasedSound t s.config.world := by
  obtain ⟨c, hrun, hf⟩ := Machine.Run.exists_of_play (M := embed) (g := keepsRunning "a1")
    (c := initial runningAtFive) (s := [.event (.hidden "a1"), .go 0 .ok 20])
    (f := fun c => leaseReleased c "a1" && decide (c.world.Runs "a1")) (by decide +kernel)
  obtain ⟨x, hsteps⟩ := steps_of_run_meets hrun fun _ => clearNodeLockRetry
  refine ⟨"a1", runningAtFive, ⟨c, x⟩, soleSession_runningAtFive, hsteps, fun h => ?_⟩
  simp only [Bool.and_eq_true, decide_eq_true_eq, leaseReleased] at hf
  obtain ⟨r, hr⟩ := Option.isSome_iff_exists.mp (Option.isSome_of_any hf.1)
  simp only [hr, Option.any_some, Bool.and_eq_true, decide_eq_true_eq] at hf
  exact (h r hr hf.1.1 hf.1.2).1 hf.2

end LibreWallet.Embed
