import LibreWallet.Async.Stages
import LibreWallet.Roaming.Session

/-
  Roaming/Code.lean --- what holds of the session's code because it holds of its pieces.

  A property of code that sequencing, catching and the requests and updates of a method keep is
  a property of the method.  Each method of the lease and of the session is put together once
  here; a frame, or a bound on what its synchronous code does, is an instance.
-/

set_option autoImplicit false

namespace LibreWallet.Roaming

open Async Controller

/-- A property of the code of a page that makes the requests `ok`, shows the views `shows`, and
stops its heartbeat. -/
structure Coded (token : String) (Φ : ∀ α : Type, Roam α → Prop) (ok : Request → Bool)
    (shows : View → Bool) : Prop where
  closed : Closed Φ
  ask : ∀ q, ok q = true → Φ _ (ask q)
  view : ∀ v, shows v = true → Φ _ (setView token v)
  stop : Φ _ (stopHeartbeat token)

section

variable {token : String} {Φ : ∀ α : Type, Roam α → Prop} {ok : Request → Bool} {shows : View → Bool}
  {site : ReadSite}

namespace Coded

/-! ## The lease -/

theorem peek (hC : Coded token Φ ok shows) (hr : ok (.leaseRead site) = true) :
    Φ _ (peek token site) := by
  have h := hC.closed
  refine h.bind (h.rescue (hC.ask _ hr) fun e => h.fail _) fun r => ?_
  exact h.bind h.get fun _ => h.done _

theorem confirmStillOurs (hC : Coded token Φ ok shows) (hr : ok (.leaseRead .confirm) = true) :
    Φ _ (confirmStillOurs token) := by
  have h := hC.closed
  refine h.bind (hC.peek hr) fun x => h.bind h.get fun w => ?_
  split
  · exact h.done _
  · exact h.fail _

theorem writeOurRecord (hC : Coded token Φ ok shows) {previous : Option RoamingLeaseRecord}
    (hread : ok .readLocal = true) (hwrite : ∀ rec, ok (.leaseWrite (.claim site previous) rec) = true)
    (hlast : ∀ r, Φ _ (updatePage token fun p => { p with lastWritten := some r })) :
    Φ _ (writeOurRecord token site previous) := by
  have h := hC.closed
  refine h.bind h.get fun w => h.bind (hC.ask _ hread) fun l => ?_
  refine h.bind (hC.ask _ (hwrite _)) fun _ => ?_
  exact h.bind (hlast _) fun _ => h.done _

theorem clearPredecessor (hC : Coded token Φ ok shows) (hread : ok .readLocal = true)
    (hclear : ok (.leaseRead .clear) = true)
    (hwrite : ∀ previous rec, ok (.leaseWrite (.claim .clear previous) rec) = true)
    (hlast : ∀ r, Φ _ (updatePage token fun p => { p with lastWritten := some r })) :
    Φ _ (clearPredecessor token) := by
  have h := hC.closed
  refine h.rescue (h.bind (hC.ask _ hclear) fun record => ?_) fun _ => h.done _
  split
  · exact h.done _
  · split
    · exact h.bind (hC.writeOurRecord hread (hwrite _) hlast) fun _ => h.done _
    · exact h.done _

theorem acquire (hC : Coded token Φ ok shows) (takeover : Bool) (hread : ok .readLocal = true)
    (hlease : ok (.leaseRead .acquire) = true) (hsettle : ok (.leaseRead .settle) = true)
    (hdelay : ∀ t, ok (.delayUntil t) = true)
    (hwrite : ∀ previous rec, ok (.leaseWrite (.claim .acquire previous) rec) = true)
    (hlast : ∀ r, Φ _ (updatePage token fun p => { p with lastWritten := some r })) :
    Φ _ (acquire token takeover) := by
  have h := hC.closed
  refine h.bind (hC.peek hlease) fun x => h.bind h.get fun w => ?_
  split
  · exact h.fail _
  · refine h.bind (h.rescue (hC.writeOurRecord hread (hwrite _) hlast) fun e => h.fail _) fun _ => ?_
    refine h.bind h.get fun w => h.bind (hC.ask _ (hdelay _)) fun _ => ?_
    refine h.bind (hC.peek hsettle) fun y => h.bind h.get fun w => ?_
    split
    · split
      · exact h.done _
      · exact h.fail _
    · exact h.fail _

theorem writeHandoffAck (hC : Coded token Φ ok shows) (n : Nat) (hread : ok (.leaseRead .ack) = true)
    (hwrite : ∀ base rec, ok (.leaseWrite (.ack base) rec) = true) : Φ _ (writeHandoffAck token n) := by
  have h := hC.closed
  refine h.rescue (h.bind (hC.ask _ hread) fun record => ?_) fun _ => h.done _
  split
  · exact h.done _
  · exact h.bind h.get fun w => hC.ask _ (hwrite _ _)

theorem release (hC : Coded token Φ ok shows) (localVersion flushed : Option Nat)
    (hread : ok (.leaseRead .release) = true) (hlocal : ok .readLocal = true)
    (hwrite : ∀ base rec, ok (.leaseWrite (.release base) rec) = true) :
    Φ _ (release token localVersion flushed) := by
  have h := hC.closed
  refine h.bind hC.stop fun _ => h.rescue (h.bind (hC.ask _ hread) fun record => ?_) fun _ => h.done _
  split
  · exact h.done _
  · split
    · refine h.bind ?_ fun l => h.bind h.get fun w => hC.ask _ (hwrite _ _)
      cases localVersion with
      | some v => exact h.done _
      | none => exact h.bind (hC.ask _ hlocal) fun l => h.done _
    · exact h.done _

theorem releaseSyncKeepalive (hC : Coded token Φ ok shows) (localVersion flushed : Nat)
    (hwrite : ∀ base rec, ok (.leaseWrite (.keepalive base) rec) = true) :
    Φ _ (releaseSyncKeepalive token localVersion flushed) := by
  have h := hC.closed
  refine h.bind hC.stop fun _ => h.bind h.get fun w => ?_
  split
  · exact h.done _
  · exact h.rescue (hC.ask _ (hwrite _ _)) fun _ => h.done _

/-! ## The session -/

theorem readBackupVersion (hC : Coded token Φ ok shows) (backup : Option Envelope)
    (secret : Option String) (hv : ∀ e x, ok (.verifyEnvelope e x) = true) :
    Φ _ (readBackupVersion backup secret) := by
  have h := hC.closed
  unfold Roaming.readBackupVersion
  split
  · exact h.bind (hC.ask _ (hv _ _)) fun v => h.done _
  · exact h.done _

theorem flushTracked (hC : Coded token Φ ok shows) (hread : ok .readLocal = true)
    (hexport : ok .exportBackup = true) (hupload : ∀ e, ok (.uploadBackup e) = true)
    (hflushed : ∀ n, Φ _ (updatePage token fun p => { p with flushedVersion := max p.flushedVersion n })) :
    Φ _ (flushTracked token) := by
  have h := hC.closed
  refine h.bind (hC.ask _ hread) fun l => h.bind (hC.ask _ hexport) fun e => ?_
  exact h.bind (hC.ask _ (hupload _)) fun _ => h.bind (hflushed _) fun _ => h.done _

theorem leaseFailureState (hC : Coded token Φ ok shows) (e : Err)
    (hblocked : ∀ o t, shows (.blocked o t) = true) (hpaused : shows .paused = true)
    (hhalted : ∀ m, shows (.halted .startFailed m none) = true) : Φ _ (leaseFailureState token e) := by
  cases e with
  | held origin expiresAt => exact hC.view _ (hblocked _ _)
  | unreachable cause => exact hC.view _ hpaused
  | other message => exact hC.view _ (hhalted _)

theorem selfFence (hC : Coded token Φ ok shows) (hstop : ok .stopNode = true)
    (hpaused : shows .paused = true) : Φ _ (selfFence token) := by
  have h := hC.closed
  refine h.bind h.get fun w => ?_
  split
  · exact h.done _
  · exact h.bind hC.stop fun _ => h.bind (h.attempt (hC.ask _ hstop)) fun _ => hC.view _ hpaused

theorem flushAndAck (hC : Coded token Φ ok shows) (hread : ok .readLocal = true)
    (hfetch : ok .fetchBackup = true) (hv : ∀ e x, ok (.verifyEnvelope e x) = true)
    (hflush : Φ _ (Roaming.flushTracked token)) (hack : ok (.leaseRead .ack) = true)
    (hwrite : ∀ base rec, ok (.leaseWrite (.ack base) rec) = true) : Φ _ (flushAndAck token) := by
  have h := hC.closed
  refine h.bind (hC.ask _ hread) fun l => h.bind (hC.ask _ hfetch) fun e => ?_
  refine h.bind (hC.readBackupVersion _ _ hv) fun v => ?_
  split
  · exact h.bind hflush fun n => hC.writeHandoffAck n hack hwrite
  · exact hC.writeHandoffAck _ hack hwrite

theorem onEvicted (hC : Coded token Φ ok shows) (claimant : Option RoamingLeaseRecord)
    (hstop : ok .stopNode = true) (hflush : Φ _ (Roaming.flushAndAck token))
    (haway : ∀ o, shows (.movedAway o) = true) : Φ _ (onEvicted token claimant) := by
  have h := hC.closed
  refine h.bind h.get fun w => ?_
  split
  · exact h.done _
  · refine h.bind (h.attempt (hC.ask _ hstop)) fun _ => ?_
    exact h.bind (h.attempt hflush) fun _ => hC.view _ (haway _)

/-- The node runs. -/
theorem nowRunning (hC : Coded token Φ ok shows) (hrunning : shows .running = true)
    (hstart : Φ _ (startHeartbeat token)) : Φ _ (nowRunning token) :=
  hC.closed.bind hstart fun _ => hC.view _ hrunning

/-- What `startGuarded` does before it has confirmed the lease. -/
theorem startGuarded (hC : Coded token Φ ok shows) (skipStart : Bool)
    (hdelay : ∀ t, ok (.delayUntil t) = true) (hconfirm : ok (.leaseRead .confirm) = true)
    (hstop : skipStart = true → ok .stopNode = true)
    (hblocked : ∀ o t, shows (.blocked o t) = true) (hpaused : shows .paused = true)
    (hhalted : ∀ m, shows (.halted .startFailed m none) = true) (hstarting : shows .starting = true)
    (hnow : skipStart = true → Φ _ (Roaming.nowRunning token))
    (hgo : skipStart = false → ∀ g : Except Err Unit → Roam Unit,
      (∀ e, g (.error e) = setView token (.halted .startFailed e.message none)) →
      g (.ok ()) = Roaming.nowRunning token → Φ _ ((Roaming.ask .startNode).attempt.bind g)) :
    Φ _ (startGuarded token skipStart) := by
  have h := hC.closed
  refine h.bind (hC.view _ hstarting) fun _ => h.bind h.get fun w => ?_
  refine h.bind (h.attempt (h.bind (hC.ask _ (hdelay _)) fun _ => hC.confirmStillOurs hconfirm))
    fun confirmed => ?_
  split
  · split
    · rename_i hskip
      exact hC.selfFence (hstop hskip) hpaused
    · exact hC.leaseFailureState _ hblocked hpaused hhalted
  · split
    · rename_i hskip
      exact hnow hskip
    · rename_i hskip
      exact hgo (Bool.eq_false_iff.mpr hskip) _ (fun _ => rfl) rfl

theorem routeClaimed (hC : Coded token Φ ok shows) (local_ : LocalInfo)
    (backup : Option Envelope) (backupVersion : Option Nat)
    (hblocked : ∀ o t, shows (.blocked o t) = true)
    (hhalted : ∀ o, shows (unprovenHandoffHalt o) = true) (hsetup : shows .setupNeeded = true)
    (hnote : ∀ i, Φ _ (noteEvaluated token i))
    (hpending : Φ _ (updatePage token fun p =>
      { p with pendingRestoreEnvelope := backup, view := .needSecret }))
    (hstart : Φ _ (Roaming.startGuarded token false)) :
    Φ _ (routeClaimed token local_ backup backupVersion) := by
  have h := hC.closed
  refine h.bind h.get fun w => ?_
  dsimp only
  split
  · refine h.bind (hnote _) fun _ => ?_
    split
    · exact hC.view _ (hblocked _ _)
    · exact hC.view _ (hhalted _)
    · exact hC.view _ hsetup
    · exact hpending
    · exact hstart
  · split
    · exact hC.view _ (hblocked _ _)
    · exact hC.view _ (hhalted _)
    · exact hC.view _ hsetup
    · exact hpending
    · exact hstart

theorem continueClaimed (hC : Coded token Φ ok shows) (hread : ok .readLocal = true)
    (hfetch : ok .fetchBackup = true) (hv : ∀ e x, ok (.verifyEnvelope e x) = true)
    (hpaused : shows .paused = true)
    (hroute : ∀ info backup v, Φ _ (Roaming.routeClaimed token info backup v)) :
    Φ _ (continueClaimed token) := by
  have h := hC.closed
  refine h.bind (h.attempt (h.bind (hC.ask _ hread) fun l =>
    h.bind (hC.ask _ hfetch) fun b => h.done _)) fun x => ?_
  split
  · exact hC.view _ hpaused
  · exact h.bind (hC.readBackupVersion _ _ hv) fun v => hroute _ _ _

theorem disposeRunning (hC : Coded token Φ ok shows) (hstop : ok .stopNode = true)
    (hlocal : ok .readLocal = true) (hflush : Φ _ (Roaming.flushTracked token))
    (hrelease : ∀ l f, Φ _ (Roaming.release token l f)) : Φ _ (disposeRunning token) := by
  have h := hC.closed
  refine h.bind (hC.ask _ hstop) fun _ => h.bind hflush fun n => ?_
  exact h.bind (hC.ask _ hlocal) fun l => hrelease _ _

end Coded

/-! ## The calls -/

/-- The request to restore a backup. -/
def restores : Request → Bool
  | .restore _ _ => true
  | _ => false

/-- An update that leaves a page its latches, its heartbeat and the backup that it is to restore, and
does not show `running`. -/
structure Kept (p q : Page) : Prop where
  fenced : q.fenced = p.fenced
  disposed : q.disposed = p.disposed
  timer : q.heartbeatTimer = p.heartbeatTimer
  pending : q.pendingRestoreEnvelope = p.pendingRestoreEnvelope
  view : q.view = p.view ∨ q.view ≠ .running

/-- A property of whatever a call does before its node runs: any request but a restore, any view but
`running`, and the updates of a call. -/
structure Called (token : String) (Φ : ∀ α : Type, Roam α → Prop) : Prop extends
    Coded token Φ (fun q => !restores q) fun v => decide (v ≠ .running) where
  update : ∀ f : Page → Page, (∀ p, Kept p (f p)) → Φ _ (updatePage token f)
  note : ∀ i, Φ _ (noteEvaluated token i)

namespace Called

theorem setView (hC : Called token Φ) {v : View} (hv : v ≠ .running) : Φ _ (Roaming.setView token v) :=
  hC.view v (decide_eq_true hv)

theorem lastWritten (hC : Called token Φ) (r : RoamingLeaseRecord) :
    Φ _ (updatePage token fun p => { p with lastWritten := some r }) :=
  hC.update _ fun _ => ⟨rfl, rfl, rfl, rfl, .inl rfl⟩

theorem acquire (hC : Called token Φ) (takeover : Bool) : Φ _ (acquire token takeover) :=
  hC.toCoded.acquire takeover rfl rfl rfl (fun _ => rfl) (fun _ _ => rfl) hC.lastWritten

theorem leaseFailureState (hC : Called token Φ) (e : Err) : Φ _ (leaseFailureState token e) :=
  hC.toCoded.leaseFailureState e (fun _ _ => rfl) rfl fun _ => rfl

theorem flushTracked (hC : Called token Φ) : Φ _ (flushTracked token) :=
  hC.toCoded.flushTracked rfl rfl (fun _ => rfl) fun _ => hC.update _ fun _ => ⟨rfl, rfl, rfl, rfl, .inl rfl⟩

theorem continueClaimed (hC : Called token Φ)
    (hpending : ∀ backup, Φ _ (updatePage token fun p =>
      { p with pendingRestoreEnvelope := backup, view := .needSecret }))
    (hstart : Φ _ (startGuarded token false)) : Φ _ (continueClaimed token) :=
  hC.toCoded.continueClaimed rfl rfl (fun _ _ => rfl) rfl fun _ _ _ =>
    hC.toCoded.routeClaimed _ _ _ (fun _ _ => rfl) (fun _ => rfl) rfl hC.note (hpending _) hstart

theorem boot (hC : Called token Φ) (hcontinue : Φ _ (Roaming.continueClaimed token)) :
    Φ _ (boot token) := by
  have h := hC.closed
  refine h.bind (hC.setView fun h => by cases h) fun _ => ?_
  refine h.bind (h.attempt (hC.toCoded.peek rfl)) fun peeked => ?_
  split
  · exact hC.setView fun h => by cases h
  · refine h.bind (hC.update _ fun _ => ⟨rfl, rfl, rfl, rfl, .inl rfl⟩) fun _ => ?_
    split
    · exact hC.setView fun h => by cases h
    · refine h.bind (h.attempt (hC.acquire false)) fun claimed => ?_
      split
      · exact hC.leaseFailureState _
      · exact hcontinue

theorem pollTakeover (hC : Called token Φ) (hcontinue : Φ _ (Roaming.continueClaimed token))
    (previousOwner : String) (claimedAt polls : Nat) :
    Φ _ (pollTakeover token previousOwner claimedAt polls) := by
  have h := hC.closed
  induction polls with
  | zero => exact h.done _
  | succ polls ih =>
    refine h.bind h.get fun w => h.bind (hC.setView fun h => by cases h) fun _ => ?_
    refine h.bind (h.attempt (hC.toCoded.peek rfl)) fun peeked => h.bind h.get fun w => ?_
    split
    · exact hC.update _ fun _ => ⟨rfl, rfl, rfl, rfl, .inr fun h => by cases h⟩
    · exact h.bind (hC.update _ fun _ => ⟨rfl, rfl, rfl, rfl, .inl rfl⟩) fun _ => hcontinue
    · exact h.bind (hC.update _ fun _ => ⟨rfl, rfl, rfl, rfl, .inl rfl⟩) fun _ => hcontinue
    · exact h.bind (hC.ask (.delayUntil _) rfl) fun _ => ih

theorem moveHere (hC : Called token Φ) (hcontinue : Φ _ (Roaming.continueClaimed token))
    (polls : Nat) : Φ _ (moveHere token polls) := by
  have h := hC.closed
  refine h.bind h.get fun w => ?_
  split
  · refine h.bind (h.attempt (hC.acquire true)) fun claimed => ?_
    split
    · exact hC.leaseFailureState _
    · exact hC.pollTakeover hcontinue _ _ _
  · exact h.done _

theorem submitSecret (hC : Called token Φ)
    (hrestore : ∀ envelope secret, Φ _ (restoreProven token envelope secret)) (secret : String) :
    Φ _ (submitSecret token secret) := by
  have h := hC.closed
  refine h.bind h.get fun w => ?_
  split
  · refine h.bind (hC.ask (.verifyEnvelope _ _) rfl) fun v => ?_
    split
    · refine h.bind h.get fun w => h.bind (hC.note _) fun _ => ?_
      split
      · exact hC.setView fun h => by cases h
      · exact hrestore _ _
    · exact hC.setView fun h => by cases h
  · exact h.done _

theorem forceRestoreAnyway (hC : Called token Φ) (hcontinue : Φ _ (Roaming.continueClaimed token)) :
    Φ _ (forceRestoreAnyway token) := by
  have h := hC.closed
  refine h.bind h.get fun w => ?_
  split
  · refine h.bind (hC.update _ fun _ => ⟨rfl, rfl, rfl, rfl, .inl rfl⟩) fun _ => ?_
    refine h.bind (hC.toCoded.clearPredecessor rfl rfl (fun _ _ => rfl) hC.lastWritten) fun _ => ?_
    refine h.bind h.get fun w => ?_
    split
    · exact hC.setView fun h => by cases h
    · exact hcontinue
  · exact h.done _

/-- A tick, where a failure may be noted. -/
theorem tick (hC : Called token Φ) (hfailure : Φ _ (noteFailure token)) : Φ _ (tick token) := by
  have h := hC.closed
  have hfailed : Φ _ (tickFailed token) := by
    refine h.bind hfailure fun fenced => ?_
    split
    · exact hC.toCoded.selfFence rfl rfl
    · exact h.done _
  have hflush : Φ _ (flushAndAck token) :=
    hC.toCoded.flushAndAck rfl rfl (fun _ _ => rfl) hC.flushTracked rfl fun _ _ => rfl
  refine h.bind h.get fun w => ?_
  split
  · exact h.done _
  · refine h.bind (h.attempt (hC.ask (.leaseRead .tick) rfl)) fun read => ?_
    split
    · exact hfailed
    · split
      · exact h.bind hC.stop fun _ => hC.toCoded.onEvicted _ rfl hflush fun _ => rfl
      · refine h.bind (h.attempt (hC.toCoded.writeOurRecord rfl (fun _ => rfl) hC.lastWritten)) fun written => ?_
        split
        · exact hfailed
        · exact hC.update _ fun _ => ⟨rfl, rfl, rfl, rfl, .inl rfl⟩

theorem release (hC : Called token Φ) (localVersion flushed : Option Nat) :
    Φ _ (release token localVersion flushed) :=
  hC.toCoded.release _ _ rfl rfl fun _ _ => rfl

theorem disposeRunning (hC : Called token Φ) : Φ _ (disposeRunning token) :=
  hC.toCoded.disposeRunning rfl rfl hC.flushTracked hC.release

end Called

end

end LibreWallet.Roaming
