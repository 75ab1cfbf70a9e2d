import LibreWallet.Async.Keeps
import LibreWallet.Embed.Dispose

/-
  Embed/Heeds.lean --- what the session's code makes of a backup.

  A boot or a takeover restores nothing: it keeps the backup that it has read, for
  `submitSecret` to restore.  So no backup behind a version is restored or kept, where
  none behind it is read to go by.
-/

set_option autoImplicit false

namespace LibreWallet.Embed

open Async Controller Roaming

variable {t : String} {n : Nat} {v : Verb} {w w' : World}

/-- The page of `t` holds no backup behind `n` that it is to restore. -/
def Holds (n : Nat) (t : String) (w : World) : Prop :=
  ∀ e, (w.pages t).pendingRestoreEnvelope = some e → n ≤ e.stateVersion

abbrev Holding (n : Nat) (t : String) (w w' : World) : Prop := Holds n t w → Holds n t w'

/-- No backup behind `n` is restored, as long as none is read to go by. -/
def notBehind (v : Verb) (n : Nat) : Terms Request Answer Err where
  asks
    | .restore e _ => n ≤ e.stateVersion
    | _ => True
  answers
    | .fetchBackup, .ok (some e) => boots v = true → n ≤ e.stateVersion
    | _, _ => True

/-- Code of the page of `t` that restores no backup behind `n` and keeps none to restore, unless it
is given one. -/
abbrev Heeds (v : Verb) (n : Nat) (t : String) (α : Type) (p : Roam α) : Prop :=
  p.KeepsTo (Holding n t) (notBehind v n) fun _ => True

theorem holding_setPage {f : Page → Page}
    (hf : ∀ p, (f p).pendingRestoreEnvelope = p.pendingRestoreEnvelope ∨
      ∀ e, (f p).pendingRestoreEnvelope = some e → n ≤ e.stateVersion) :
    Holding n t w (w.setPage t f) := by
  intro h e he
  rw [World.setPage_self] at he
  rcases hf (w.pages t) with hsame | hnew
  · exact h e (hsame ▸ he)
  · exact hnew e he

theorem heeds_update {f : Page → Page}
    (hf : ∀ p, (f p).pendingRestoreEnvelope = p.pendingRestoreEnvelope ∨
      ∀ e, (f p).pendingRestoreEnvelope = some e → n ≤ e.stateVersion) :
    Heeds v n t Unit (updatePage t f) :=
  fun _ => ⟨holding_setPage hf, trivial⟩

/-- Whatever requests nothing but a restore, and updates anything but the backup to restore. -/
theorem coded_heeds : Coded t (Heeds v n t) (fun q => !restores q) fun _ => true where
  closed := Proc.KeepsTo.closed fun _ => id
  ask := fun q hq => by
    refine Proc.keepsTo_request.mpr ⟨?_, fun _ _ => trivial⟩
    cases q with
    | restore e secret => cases hq
    | _ => trivial
  view := fun _ _ => heeds_update fun _ => .inl rfl
  stop := heeds_update fun _ => .inl rfl

theorem called_heeds : Called t (Heeds v n t) where
  closed := coded_heeds.closed
  ask := coded_heeds.ask
  view := fun _ _ => coded_heeds.view _ rfl
  stop := coded_heeds.stop
  update := fun _ hf => heeds_update fun p => .inl (hf p).pending
  note := fun _ _ => ⟨id, trivial⟩

theorem nowRunning_heeds : Heeds v n t Unit (nowRunning t) :=
  coded_heeds.nowRunning rfl fun _ => ⟨holding_setPage fun _ => .inl rfl, trivial⟩

theorem startGuarded_heeds (skipStart : Bool) : Heeds v n t Unit (startGuarded t skipStart) := by
  have h := (coded_heeds (v := v) (n := n) (t := t)).closed
  refine coded_heeds.startGuarded skipStart (fun _ => rfl) rfl (fun _ => rfl) (fun _ _ => rfl) rfl
    (fun _ => rfl) rfl (fun _ => nowRunning_heeds) fun _ g hfailed hstarted => ?_
  refine h.bind (h.attempt (coded_heeds.ask .startNode rfl)) fun started => ?_
  cases started with
  | error e =>
    rw [hfailed]
    exact coded_heeds.view _ rfl
  | ok u =>
    rw [hstarted]
    exact nowRunning_heeds

/-- The backup that a boot or a takeover has read is the one it keeps to restore. -/
theorem continueClaimed_heeds (hv : boots v = true) : Heeds v n t Unit (continueClaimed t) := by
  have h := (coded_heeds (v := v) (n := n) (t := t)).closed
  have hread : ((do
      let local_ ← ask .readLocal
      let backup ← ask .fetchBackup
      pure (local_, backup)).attempt : Roam _).KeepsTo (Holding n t) (notBehind v n) fun r =>
        ∀ x, r = .ok x → ∀ y, x = .ok y → ∀ e, y.2 = some e → n ≤ e.stateVersion := by
    refine .attempt (Proc.keepsTo_bind.mpr (Proc.keepsTo_request.mpr ⟨trivial, fun r _ => ?_⟩))
    cases r with
    | error e =>
      rintro _ ⟨⟩ y hy
      cases hy
    | ok info =>
      refine Proc.keepsTo_bind.mpr (Proc.keepsTo_request.mpr ⟨trivial, fun r hr => ?_⟩)
      cases r with
      | error e =>
        rintro _ ⟨⟩ y hy
        cases hy
      | ok backup =>
        rintro _ ⟨⟩ _ ⟨⟩ e rfl
        exact hr hv
  refine .bind hread (fun read hbackup => ?_) fun _ => trivial
  cases read with
  | error e => exact coded_heeds.view _ rfl
  | ok x =>
    refine h.bind (coded_heeds.readBackupVersion _ _ fun _ _ => rfl) fun version => ?_
    exact coded_heeds.routeClaimed _ _ _ (fun _ _ => rfl) (fun _ => rfl) rfl called_heeds.note
      (heeds_update fun _ => .inr (hbackup x rfl)) (startGuarded_heeds false)

theorem restoreProven_heeds {envelope : Envelope} (he : n ≤ envelope.stateVersion) (secret : String) :
    Heeds v n t Unit (restoreProven t envelope secret) := by
  have h := (coded_heeds (v := v) (n := n) (t := t)).closed
  refine h.bind (h.attempt (Proc.keepsTo_request.mpr ⟨he, fun _ _ => trivial⟩)) fun restored => ?_
  cases restored with
  | error e => exact coded_heeds.view _ rfl
  | ok u => exact h.bind (heeds_update fun _ => .inr (by simp)) fun _ => startGuarded_heeds true

/-- A restore is of the backup that the page holds when it is asked for. -/
theorem submitSecret_heeds (hw : Holds n t w) (secret : String) :
    Holding n t w ((submitSecret t secret).advance w).1 ∧
      Heeds v n t Unit ((submitSecret t secret).advance w).2 := by
  have h := (coded_heeds (v := v) (n := n) (t := t)).closed
  simp only [submitSecret, Proc.bind_eq, Proc.advance_get_bind]
  refine Proc.KeepsTo.advance (F := Holding n t) ?_ (fun _ => id) (fun _ _ _ h₁ h₂ => h₂ ∘ h₁) w
  split
  · rename_i envelope _ hpending
    refine h.bind (coded_heeds.ask (.verifyEnvelope _ _) rfl) fun version => ?_
    split
    · refine h.bind h.get fun w => h.bind (called_heeds.note _) fun _ => ?_
      split
      · exact coded_heeds.view _ rfl
      · exact restoreProven_heeds (hw envelope hpending) secret
    · exact coded_heeds.view _ rfl
  · trivial

theorem dispose_heeds : Heeds v n t Unit (dispose t) := by
  have h := (coded_heeds (v := v) (n := n) (t := t)).closed
  refine h.bind (heeds_update fun _ => .inl rfl) fun _ => h.bind h.get fun w => ?_
  refine h.bind (h.attempt ?_) fun _ => coded_heeds.view _ rfl
  split
  · exact called_heeds.disposeRunning
  · exact called_heeds.release none none

/-- What a handler is after its synchronous code, and what that has done. -/
theorem handler_heeds {e : Event} {j : Job} {p : Roam Unit} (hh : handler e = some (j, p))
    (hw : j.verb = .submitSecret → Holds n j.token w) :
    Holding n j.token w (p.advance w).1 ∧ Heeds j.verb n j.token Unit (p.advance w).2 := by
  by_cases hsubmit : ∃ secret, e = .submitSecret j.token secret
  · obtain ⟨secret, rfl⟩ := hsubmit
    simp only [handler, Option.some.injEq, Prod.mk.injEq] at hh
    obtain ⟨hj, rfl⟩ := hh
    exact submitSecret_heeds (hw (by rw [← hj])) secret
  · have h := (coded_heeds (v := j.verb) (n := n) (t := j.token)).closed
    have hp : Heeds j.verb n j.token Unit p := by
      refine Dispose.handler_called called_heeds hh (fun _ => ⟨holding_setPage fun _ => .inl rfl, trivial⟩)
        ?_ (fun hv => continueClaimed_heeds hv) (fun secret he => absurd ⟨secret, he⟩ hsubmit)
        fun _ => dispose_heeds
      exact h.bind h.get fun w => h.bind (heeds_update fun _ => .inl rfl) fun _ => h.done _
    exact hp.advance (fun _ => id) (fun _ _ _ h₁ h₂ => h₂ ∘ h₁) w

end LibreWallet.Embed
