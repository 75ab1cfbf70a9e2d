import LibreWallet.Async.Frames
import LibreWallet.Roaming.Code

/-
  Roaming/Moves.lean --- what the code of a page can change.

  The requests of a page move the world in four ways: a lease write, a verb of the controller
  (which may note a stop or a restore), an upload, or not at all.  Its synchronous code updates
  its own page.  A frame that keeps the requests and updates that a piece of code is made of
  keeps the code.
-/

set_option autoImplicit false

namespace LibreWallet.Roaming

open Async Controller

/-- The verbs of the controller. -/
def Request.isVerb : Request → Bool
  | .startNode | .stopNode | .restore _ _ => true
  | _ => false

theorem of_noteIf {F : World → Prop} {w : World} (hw : F w) (p : Prop) [Decidable p] {n : Note}
    (hn : F (w.note n)) : F (if p then w.note n else w) := by
  split
  · exact hn
  · exact hw

/-- One of the four ways. -/
theorem exec_moves {token : String} {q : Request} {c : Choice} {w w' : World}
    {r : Except Err (Answer q)} (he : exec token q c w = some (r, w')) {F : World → Prop}
    (same : F w) (write : ∀ how rec, q = .leaseWrite how rec → F (w.writeLease token how rec))
    (node : ∀ n, q.isVerb = true → F (w.setNode token n))
    (note : ∀ v n, (∀ t i, n ≠ .evaluated t i) → F v → F (v.note n))
    (upload : ∀ e, q = .uploadBackup e → F (w.upload e)) : F w' := by
  cases q with
  | leaseWrite how rec =>
    simp only [exec, Option.some.injEq, Prod.mk.injEq] at he
    rw [← he.2]
    split
    · exact same
    · exact write how rec rfl
  | delayUntil deadline =>
    simp only [exec, Option.ite_none_right_eq_some, Option.some.injEq, Prod.mk.injEq] at he
    rw [← he.2.2]
    exact same
  | startNode =>
    simp only [exec, World.act, Option.some.injEq, Prod.mk.injEq] at he
    rw [← he.2]
    exact node _ rfl
  | stopNode =>
    simp only [exec, World.act, Option.some.injEq, Prod.mk.injEq] at he
    rw [← he.2]
    exact of_noteIf (node _ rfl) _ (note _ _ (fun _ _ h => by cases h) (node _ rfl))
  | restore envelope secret =>
    simp only [exec, World.act, Option.some.injEq, Prod.mk.injEq] at he
    rw [← he.2]
    exact note _ _ (fun _ _ h => by cases h) (node _ rfl)
  | uploadBackup envelope =>
    simp only [exec, Option.some.injEq, Prod.mk.injEq] at he
    rw [← he.2]
    split
    · exact same
    · exact upload envelope rfl
  | _ =>
    simp only [exec, Option.some.injEq, Prod.mk.injEq] at he
    rw [← he.2]
    exact same

/-! ## Frames of the session's code -/

/-- What the code of a page may do to stay within a frame: the requests it makes, the views it
shows, and that it stops its heartbeat. -/
structure Keeping (token : String) (R : Contract World Request Answer Err Choice)
    (F : World → World → Prop) (N : RoamEntry → Prop) (ok : Request → Bool) (shows : View → Bool) :
    Prop where
  framing : Framing R F
  ask : ∀ q, ok q = true → Frames R F N (ask q)
  view : ∀ v w, shows v = true → F w (w.setPage token fun p => { p with view := v })
  stop : ∀ w, F w (w.setPage token fun p => { p with heartbeatTimer := none })

section

variable {token : String} {R : Contract World Request Answer Err Choice} {F : World → World → Prop}
  {N : RoamEntry → Prop} {ok : Request → Bool} {shows : View → Bool} {site : ReadSite}

namespace Keeping

theorem coded (hK : Keeping token R F N ok shows) : Coded token (fun _ => Frames R F N) ok shows where
  closed := hK.framing.closed
  ask := hK.ask
  view := fun v hv => Framing.modify fun w => hK.view v w hv
  stop := Framing.modify hK.stop

theorem setView (hK : Keeping token R F N ok shows) {v : View} (hv : shows v = true) :
    Frames R F N (setView token v) :=
  hK.coded.view v hv

theorem stopHeartbeat (hK : Keeping token R F N ok shows) : Frames R F N (stopHeartbeat token) :=
  hK.coded.stop

theorem peek (hK : Keeping token R F N ok shows) (hr : ok (.leaseRead site) = true) :
    Frames R F N (peek token site) :=
  hK.coded.peek hr

theorem confirmStillOurs (hK : Keeping token R F N ok shows) (hr : ok (.leaseRead .confirm) = true) :
    Frames R F N (confirmStillOurs token) :=
  hK.coded.confirmStillOurs hr

theorem writeOurRecord (hK : Keeping token R F N ok shows) {previous : Option RoamingLeaseRecord}
    (hread : ok .readLocal = true) (hwrite : ∀ rec, ok (.leaseWrite (.claim site previous) rec) = true)
    (hlast : ∀ r w, F w (w.setPage token fun p => { p with lastWritten := some r })) :
    Frames R F N (writeOurRecord token site previous) :=
  hK.coded.writeOurRecord hread hwrite fun r => Framing.modify (hlast r)

theorem clearPredecessor (hK : Keeping token R F N ok shows) (hread : ok .readLocal = true)
    (hclear : ok (.leaseRead .clear) = true)
    (hwrite : ∀ previous rec, ok (.leaseWrite (.claim .clear previous) rec) = true)
    (hlast : ∀ r w, F w (w.setPage token fun p => { p with lastWritten := some r })) :
    Frames R F N (clearPredecessor token) :=
  hK.coded.clearPredecessor hread hclear hwrite fun r => Framing.modify (hlast r)

theorem acquire (hK : Keeping token R F N ok shows) (takeover : Bool) (hread : ok .readLocal = true)
    (hlease : ok (.leaseRead .acquire) = true) (hsettle : ok (.leaseRead .settle) = true)
    (hdelay : ∀ t, ok (.delayUntil t) = true)
    (hwrite : ∀ previous rec, ok (.leaseWrite (.claim .acquire previous) rec) = true)
    (hlast : ∀ r w, F w (w.setPage token fun p => { p with lastWritten := some r })) :
    Frames R F N (acquire token takeover) :=
  hK.coded.acquire takeover hread hlease hsettle hdelay hwrite fun r => Framing.modify (hlast r)

theorem writeHandoffAck (hK : Keeping token R F N ok shows) (n : Nat) (hread : ok (.leaseRead .ack) = true)
    (hwrite : ∀ base rec, ok (.leaseWrite (.ack base) rec) = true) :
    Frames R F N (writeHandoffAck token n) :=
  hK.coded.writeHandoffAck n hread hwrite

theorem readBackupVersion (hK : Keeping token R F N ok shows) (backup : Option Envelope)
    (secret : Option String) (hv : ∀ e x, ok (.verifyEnvelope e x) = true) :
    Frames R F N (readBackupVersion backup secret) :=
  hK.coded.readBackupVersion backup secret hv

theorem flushTracked (hK : Keeping token R F N ok shows) (hread : ok .readLocal = true)
    (hexport : ok .exportBackup = true) (hupload : ∀ e, ok (.uploadBackup e) = true)
    (hflushed : ∀ n w, F w (w.setPage token fun p => { p with flushedVersion := max p.flushedVersion n })) :
    Frames R F N (flushTracked token) :=
  hK.coded.flushTracked hread hexport hupload fun n => Framing.modify (hflushed n)

theorem leaseFailureState (hK : Keeping token R F N ok shows) (e : Err)
    (hblocked : ∀ o t, shows (.blocked o t) = true) (hpaused : shows .paused = true)
    (hhalted : ∀ m, shows (.halted .startFailed m none) = true) :
    Frames R F N (leaseFailureState token e) :=
  hK.coded.leaseFailureState e hblocked hpaused hhalted

theorem selfFence (hK : Keeping token R F N ok shows) (hstop : ok .stopNode = true)
    (hpaused : shows .paused = true) : Frames R F N (selfFence token) :=
  hK.coded.selfFence hstop hpaused

theorem flushAndAck (hK : Keeping token R F N ok shows) (hread : ok .readLocal = true)
    (hfetch : ok .fetchBackup = true) (hv : ∀ e x, ok (.verifyEnvelope e x) = true)
    (hexport : ok .exportBackup = true) (hupload : ∀ e, ok (.uploadBackup e) = true)
    (hack : ok (.leaseRead .ack) = true) (hwrite : ∀ base rec, ok (.leaseWrite (.ack base) rec) = true)
    (hflushed : ∀ n w, F w (w.setPage token fun p => { p with flushedVersion := max p.flushedVersion n })) :
    Frames R F N (flushAndAck token) :=
  hK.coded.flushAndAck hread hfetch hv (hK.flushTracked hread hexport hupload hflushed) hack hwrite

theorem onEvicted (hK : Keeping token R F N ok shows) (claimant : Option RoamingLeaseRecord)
    (hstop : ok .stopNode = true) (hflush : Frames R F N (Roaming.flushAndAck token))
    (haway : ∀ o, shows (.movedAway o) = true) : Frames R F N (onEvicted token claimant) :=
  hK.coded.onEvicted claimant hstop hflush haway

/-- The node runs. -/
theorem nowRunning (hK : Keeping token R F N ok shows) (hrunning : shows .running = true)
    (hstart : ∀ w, F w (w.setPage token fun p =>
      { p with heartbeatTimer := some (w.clock + ROAMING_RENEW_MS) })) :
    Frames R F N (nowRunning token) :=
  hK.coded.nowRunning hrunning (Framing.modify hstart)

theorem startGuarded (hK : Keeping token R F N ok shows) (skipStart : Bool)
    (hdelay : ∀ t, ok (.delayUntil t) = true) (hconfirm : ok (.leaseRead .confirm) = true)
    (hstop : skipStart = true → ok .stopNode = true) (hgo : skipStart = false → ok .startNode = true)
    (hblocked : ∀ o t, shows (.blocked o t) = true) (hpaused : shows .paused = true)
    (hhalted : ∀ m, shows (.halted .startFailed m none) = true) (hstarting : shows .starting = true)
    (hnow : Frames R F N (Roaming.nowRunning token)) : Frames R F N (startGuarded token skipStart) := by
  refine hK.coded.startGuarded skipStart hdelay hconfirm hstop hblocked hpaused hhalted hstarting
    (fun _ => hnow) fun hskip g hfailed hstarted => ?_
  refine hK.framing.bind (Framing.attempt (hK.ask _ (hgo hskip))) fun started => ?_
  cases started with
  | error e =>
    rw [hfailed]
    exact hK.setView (hhalted _)
  | ok u =>
    rw [hstarted]
    exact hnow

theorem routeClaimed (hK : Keeping token R F N ok shows) (local_ : LocalInfo)
    (backup : Option Envelope) (backupVersion : Option Nat) (hshows : ∀ v, shows v = true)
    (hnote : ∀ i w, F w (w.note (.evaluated token i)))
    (hpending : ∀ w, F w (w.setPage token fun p =>
      { p with pendingRestoreEnvelope := backup, view := .needSecret }))
    (hstart : Frames R F N (Roaming.startGuarded token false)) :
    Frames R F N (routeClaimed token local_ backup backupVersion) :=
  hK.coded.routeClaimed local_ backup backupVersion (fun _ _ => hshows _) (fun _ => hshows _) (hshows _)
    (fun i => Framing.modify (hnote i)) (Framing.modify hpending) hstart

theorem continueClaimed (hK : Keeping token R F N ok shows) (hread : ok .readLocal = true)
    (hfetch : ok .fetchBackup = true) (hv : ∀ e x, ok (.verifyEnvelope e x) = true)
    (hpaused : shows .paused = true)
    (hroute : ∀ info backup v, Frames R F N (Roaming.routeClaimed token info backup v)) :
    Frames R F N (continueClaimed token) :=
  hK.coded.continueClaimed hread hfetch hv hpaused hroute

theorem release (hK : Keeping token R F N ok shows) (localVersion flushed : Option Nat)
    (hread : ok (.leaseRead .release) = true) (hlocal : ok .readLocal = true)
    (hwrite : ∀ base rec, ok (.leaseWrite (.release base) rec) = true) :
    Frames R F N (release token localVersion flushed) :=
  hK.coded.release localVersion flushed hread hlocal hwrite

theorem disposeRunning (hK : Keeping token R F N ok shows) (hstop : ok .stopNode = true)
    (hlocal : ok .readLocal = true) (hflush : Frames R F N (Roaming.flushTracked token))
    (hrelease : ∀ l f, Frames R F N (Roaming.release token l f)) :
    Frames R F N (disposeRunning token) :=
  hK.coded.disposeRunning hstop hlocal hflush hrelease

end Keeping

/-- A frame that holds whatever a call of the session does: its requests, the proofs it asks for, and
updates of the page that leave alone what only a fence or `dispose` latches. -/
structure Covering (token : String) (R : Contract World Request Answer Err Choice)
    (F : World → World → Prop) : Prop where
  framing : Framing R F
  ask : ∀ q, Frames R F (fun _ => True) (ask q)
  update : ∀ {f : Page → Page} {w}, (∀ p, (f p).fenced = p.fenced ∧ (f p).disposed = p.disposed) →
    F w (w.setPage token f)
  note : ∀ i w, F w (w.note (.evaluated token i))

namespace Covering

theorem keeping (hC : Covering token R F) :
    Keeping token R F (fun _ => True) (fun _ => true) fun _ => true where
  framing := hC.framing
  ask := fun q _ => hC.ask q
  view := fun _ _ _ => hC.update fun _ => ⟨rfl, rfl⟩
  stop := fun _ => hC.update fun _ => ⟨rfl, rfl⟩

theorem called (hC : Covering token R F) : Called token fun _ => Frames R F (fun _ => True) where
  closed := hC.framing.closed
  ask := fun q _ => hC.ask q
  view := fun _ _ => hC.keeping.setView rfl
  stop := hC.keeping.stopHeartbeat
  update := fun _ hf => Framing.modify fun _ => hC.update fun p => ⟨(hf p).fenced, (hf p).disposed⟩
  note := fun i => Framing.modify (hC.note i)

theorem startGuarded (hC : Covering token R F) (skipStart : Bool) :
    Frames R F (fun _ => True) (startGuarded token skipStart) :=
  hC.keeping.startGuarded skipStart (fun _ => rfl) rfl (fun _ => rfl) (fun _ => rfl) (fun _ _ => rfl) rfl
    (fun _ => rfl) rfl (hC.keeping.nowRunning rfl fun _ => hC.update fun _ => ⟨rfl, rfl⟩)

theorem continueClaimed (hC : Covering token R F) :
    Frames R F (fun _ => True) (continueClaimed token) :=
  hC.called.continueClaimed (fun _ => Framing.modify fun _ => hC.update fun _ => ⟨rfl, rfl⟩)
    (hC.startGuarded false)

theorem boot (hC : Covering token R F) : Frames R F (fun _ => True) (boot token) :=
  hC.called.boot hC.continueClaimed

theorem moveHere (hC : Covering token R F) (polls : Nat) :
    Frames R F (fun _ => True) (moveHere token polls) :=
  hC.called.moveHere hC.continueClaimed polls

theorem restoreProven (hC : Covering token R F) (envelope : Envelope) (secret : String) :
    Frames R F (fun _ => True) (restoreProven token envelope secret) := by
  have hF := hC.framing
  refine hF.bind (Framing.attempt (hC.ask _)) fun restored => ?_
  split
  · exact hC.keeping.setView rfl
  · exact hF.bind (Framing.modify fun _ => hC.update fun _ => ⟨rfl, rfl⟩) fun _ => hC.startGuarded true

theorem submitSecret (hC : Covering token R F) (secret : String) :
    Frames R F (fun _ => True) (submitSecret token secret) :=
  hC.called.submitSecret hC.restoreProven secret

theorem forceRestoreAnyway (hC : Covering token R F) :
    Frames R F (fun _ => True) (forceRestoreAnyway token) :=
  hC.called.forceRestoreAnyway hC.continueClaimed

end Covering

end

end LibreWallet.Roaming
