import LibreWallet.Roaming.Lease
import LibreWallet.Async.System

/-
  Roaming/Racing.lean --- origins that race for the lease.

  `acquire` without takeover and `confirmStillOurs`, each read and each write of the lease file a step, for any
  number of origins that boot once.  The file has no other writers, but an origin that has passed may release it.
  The clock is the same for all.
-/

set_option autoImplicit false

namespace LibreWallet.Roaming.Racing

open Async

/-! ## The boots -/

/-- Where the boot of an origin is. -/
inductive Stage where
  | idle
  /-- Its first read, at a time, found a claimable record: the state version is awaited, or the write is out. -/
  | claiming (readAt : Nat) (previous : Option RoamingLeaseRecord)
  /-- Its write has landed; it settles. -/
  | settling (wroteAt : Nat)
  | acquired (wroteAt : Nat)
  /-- Past `confirmStillOurs`. -/
  | passed (wroteAt : Nat)
  | failed
  deriving DecidableEq, Repr

/-- What is the same for a whole boot. -/
structure Origin where
  origin : String
  appName : Option String := none

structure Race where
  clock : Nat
  file : Option RoamingLeaseRecord
  stage : String → Stage
  lastWritten : String → Option RoamingLeaseRecord

inductive Action where
  | wait (ms : Nat)
  /-- The read of `acquire`, and what follows at once. -/
  | read (token : String)
  | write (token : String) (stateVersion : Nat)
  /-- The read after the settle delay. -/
  | settle (token : String)
  | confirm (token : String)
  | release (token : String) (stateVersion : Nat) (clean : Bool)
  /-- A request fails in transport. -/
  | fail (token : String)
  deriving DecidableEq, Repr

namespace Race

def setStage (s : Race) (token : String) (stage : Stage) : Race :=
  { s with stage := Function.update s.stage token stage }

/-- A write of an origin lands. -/
def put (s : Race) (token : String) (record : RoamingLeaseRecord) : Race :=
  { s with file := some record, lastWritten := Function.update s.lastWritten token (some record) }

def Passed (s : Race) (token : String) : Prop := ∃ wroteAt, s.stage token = .passed wroteAt

/-- The record of an origin has expired or was released. -/
def Over (s : Race) (token : String) : Prop :=
  ∃ record, s.lastWritten token = some record ∧ (record.phase = .released ∨ record.expiresAt ≤ s.clock)

end Race

section Steps

variable (origins : String → Origin)

/-- The record that an origin builds when its first read is answered. -/
def claim (token : String) (readAt : Nat) (previous : Option RoamingLeaseRecord) (stateVersion : Nat) :
    RoamingLeaseRecord :=
  buildLeaseRecord
    { ownerToken := token, origin := (origins token).origin, appName := (origins token).appName, now := readAt,
      previous, heartbeatStateVersion := stateVersion }

def step (action : Action) (s : Race) : Option Race :=
  match action with
  | .wait ms => some { s with clock := s.clock + ms }
  | .read token =>
    if s.stage token = .idle then
      if leaseState s.file token s.clock = .foreignLive then some (s.setStage token .failed)
      else some (s.setStage token (.claiming s.clock s.file))
    else none
  | .write token stateVersion =>
    match s.stage token with
    | .claiming readAt previous =>
      some ((s.put token (claim origins token readAt previous stateVersion)).setStage token (.settling s.clock))
    | _ => none
  | .settle token =>
    match s.stage token with
    | .settling wroteAt =>
      if s.clock < wroteAt + ACQUIRE_SETTLE_MS then none
      else if leaseState s.file token s.clock = .ours then some (s.setStage token (.acquired wroteAt))
      else some (s.setStage token .failed)
    | _ => none
  | .confirm token =>
    match s.stage token with
    | .acquired wroteAt =>
      if leaseState s.file token s.clock = .ours then some (s.setStage token (.passed wroteAt))
      else some (s.setStage token .failed)
    | _ => none
  | .release token stateVersion clean =>
    match s.stage token, s.file with
    | .passed _, some record =>
      if record.owner = token then some (s.put token (releasedRecord record clean stateVersion s.clock)) else none
    | _, _ => none
  | .fail token =>
    match s.stage token with
    | .idle => none
    | .passed _ => none
    | _ => some (s.setStage token .failed)

/-- A write of `acquire` lands less than the settle delay after its own first read. -/
def inTime (action : Action) (s : Race) : Bool :=
  match action with
  | .write token _ =>
    match s.stage token with
    | .claiming readAt _ => s.clock < readAt + ACQUIRE_SETTLE_MS
    | _ => true
  | _ => true

/-- The steps in which nothing is written. -/
inductive Moves (s : Race) (x : String) : Stage → Prop where
  | claim (h : s.stage x = .idle) (hfree : leaseState s.file x s.clock ≠ .foreignLive) :
    Moves s x (.claiming s.clock s.file)
  | settle {w : Nat} (h : s.stage x = .settling w) (hw : w + ACQUIRE_SETTLE_MS ≤ s.clock)
    (hours : leaseState s.file x s.clock = .ours) : Moves s x (.acquired w)
  | confirm {w : Nat} (h : s.stage x = .acquired w) (hours : leaseState s.file x s.clock = .ours) :
    Moves s x (.passed w)
  | fail (h : ∀ w, s.stage x ≠ .passed w) : Moves s x .failed

variable {origins} {s s' : Race} {action : Action}

theorem step_cases (h : step origins action s = some s') (htime : inTime action s = true) :
    (∃ ms, s' = { s with clock := s.clock + ms }) ∨
    (∃ x stage, Moves s x stage ∧ s' = s.setStage x stage) ∨
    (∃ x r previous stateVersion, s.stage x = .claiming r previous ∧ s.clock < r + ACQUIRE_SETTLE_MS ∧
      s' = (s.put x (claim origins x r previous stateVersion)).setStage x (.settling s.clock)) ∨
    ∃ x w record stateVersion clean, s.stage x = .passed w ∧ s.file = some record ∧ record.owner = x ∧
      s' = s.put x (releasedRecord record clean stateVersion s.clock) := by
  cases action with
  | wait ms =>
    cases h
    exact .inl ⟨ms, rfl⟩
  | read x =>
    simp only [step] at h
    split at h
    · rename_i hidle
      split at h
      · cases h
        exact .inr (.inl ⟨x, .failed, .fail (fun w hw => by rw [hidle] at hw; cases hw), rfl⟩)
      · rename_i hfree
        cases h
        exact .inr (.inl ⟨x, _, .claim hidle hfree, rfl⟩)
    · cases h
  | write x stateVersion =>
    simp only [step] at h
    split at h
    · rename_i r previous hstage
      cases h
      simp only [inTime, hstage, decide_eq_true_eq] at htime
      exact .inr (.inr (.inl ⟨x, r, previous, stateVersion, hstage, htime, rfl⟩))
    · cases h
  | settle x =>
    simp only [step] at h
    split at h
    · rename_i w hstage
      split at h
      · cases h
      · rename_i hlate
        split at h
        · rename_i hours
          cases h
          exact .inr (.inl ⟨x, _, .settle hstage (Nat.le_of_not_lt hlate) hours, rfl⟩)
        · cases h
          exact .inr (.inl ⟨x, .failed, .fail (fun w hw => by rw [hstage] at hw; cases hw), rfl⟩)
    · cases h
  | confirm x =>
    simp only [step] at h
    split at h
    · rename_i w hstage
      split at h
      · rename_i hours
        cases h
        exact .inr (.inl ⟨x, _, .confirm hstage hours, rfl⟩)
      · cases h
        exact .inr (.inl ⟨x, .failed, .fail (fun w hw => by rw [hstage] at hw; cases hw), rfl⟩)
    · cases h
  | release x stateVersion clean =>
    simp only [step] at h
    split at h
    · rename_i w record hstage hfile
      split at h
      · rename_i howner
        cases h
        exact .inr (.inr (.inr ⟨x, w, record, stateVersion, clean, hstage, hfile, howner, rfl⟩))
      · cases h
    · cases h
  | fail x =>
    simp only [step] at h
    split at h
    · cases h
    · cases h
    · rename_i hpassed
      cases h
      exact .inr (.inl ⟨x, .failed, .fail hpassed, rfl⟩)

end Steps

/-! ## What holds of the file -/

namespace Race

def Owns (s : Race) (x : String) : Prop := ∃ record, s.file = some record ∧ record.owner = x

/-- The write of an origin has landed, at a time, and it has not failed. -/
def Wrote (s : Race) (x : String) (w : Nat) : Prop :=
  s.stage x = .settling w ∨ s.stage x = .acquired w ∨ s.stage x = .passed w

end Race

/-- `late` and `held` are the argument: while a record is in force and in the file, every origin that still has
to write read before it did, so that the settle delay outlasts them all. -/
structure Inv (s : Race) : Prop where
  claiming : ∀ x r previous, s.stage x = .claiming r previous → r ≤ s.clock
  settled : ∀ x w, s.stage x = .acquired w ∨ s.stage x = .passed w → w + ACQUIRE_SETTLE_MS ≤ s.clock
  spent : ∀ x record, s.lastWritten x = some record → record.phase = .released → record.expiresAt ≤ s.clock
  kept : ∀ x w, s.Wrote x w → s.Owns x → s.file = s.lastWritten x
  late : ∀ x w y r previous, x ≠ y → s.Wrote x w → s.Owns x → ¬s.Over x →
    s.stage y = .claiming r previous → r ≤ w
  held : ∀ x w, s.stage x = .passed w → ¬s.Over x → s.Owns x

section Invariant

variable {origins : String → Origin} {s s' : Race} {x y : String} {stage : Stage} {w r : Nat}

theorem setStage_stage_self (s : Race) (x : String) (stage : Stage) : (s.setStage x stage).stage x = stage := by
  simp [Race.setStage]

theorem setStage_stage_of_ne (h : y ≠ x) (s : Race) (stage : Stage) : (s.setStage x stage).stage y = s.stage y := by
  simp [Race.setStage, h]

theorem owns_iff_ours : s.Owns x ↔ leaseState s.file x s.clock = .ours := leaseState_eq_ours_iff.symm

/-- A record that is in force blocks the others. -/
theorem foreignLive_of_kept (hxy : x ≠ y) (hfile : s.file = s.lastWritten x) (howns : s.Owns x)
    (hover : ¬s.Over x) : leaseState s.file y s.clock = .foreignLive := by
  obtain ⟨record, hrecord, howner⟩ := howns
  have hlast : s.lastWritten x = some record := hfile ▸ hrecord
  rw [leaseState_eq_foreignLive_iff]
  refine ⟨record, hrecord, by rw [howner]; exact hxy, ?_, ?_⟩
  · cases hphase : record.phase with
    | live => rfl
    | released => exact absurd ⟨record, hlast, .inl hphase⟩ hover
  · exact Nat.lt_of_not_le fun hle => hover ⟨record, hlast, .inr hle⟩

/-- Nothing is written by others while the record of an origin that has settled is in force. -/
theorem Inv.not_writes (h : Inv s) (hxy : x ≠ y) (hx : s.stage x = .acquired w ∨ s.stage x = .passed w)
    (howns : s.Owns x) (hover : ¬s.Over x) {previous : Option RoamingLeaseRecord}
    (hy : s.stage y = .claiming r previous) : ¬s.clock < r + ACQUIRE_SETTLE_MS := by
  have hsettled := h.settled x w hx
  have hlate := h.late x w y r previous hxy (.inr hx) howns hover hy
  omega

theorem Inv.wait (h : Inv s) (ms : Nat) : Inv { s with clock := s.clock + ms } where
  claiming x r previous hx := Nat.le_trans (h.claiming x r previous hx) (Nat.le_add_right _ _)
  settled x w hx := Nat.le_trans (h.settled x w hx) (Nat.le_add_right _ _)
  spent x record hx hphase := Nat.le_trans (h.spent x record hx hphase) (Nat.le_add_right _ _)
  kept := h.kept
  late x w y r previous hxy hx howns hover hy := by
    refine h.late x w y r previous hxy hx howns (fun hbefore => hover ?_) hy
    obtain ⟨record, hlast, hdone⟩ := hbefore
    exact ⟨record, hlast, hdone.imp_right fun hle => Nat.le_trans hle (Nat.le_add_right _ _)⟩
  held x w hx hover := by
    refine h.held x w hx fun hbefore => hover ?_
    obtain ⟨record, hlast, hdone⟩ := hbefore
    exact ⟨record, hlast, hdone.imp_right fun hle => Nat.le_trans hle (Nat.le_add_right _ _)⟩

/-- An origin that has written after a step had written before it, unless it writes. -/
theorem Moves.wrote (hmove : Moves s x stage) (h : (s.setStage x stage).Wrote y w) : s.Wrote y w := by
  by_cases hyx : y = x
  · subst hyx
    unfold Race.Wrote at h
    rw [setStage_stage_self] at h
    cases hmove with
    | claim hidle hfree => simp at h
    | @settle w' hstage hw hours =>
      have heq : w' = w := by simpa using h
      exact .inl (heq ▸ hstage)
    | @confirm w' hstage hours =>
      have heq : w' = w := by simpa using h
      exact .inr (.inl (heq ▸ hstage))
    | fail hpassed => simp at h
  · unfold Race.Wrote at h ⊢
    rwa [setStage_stage_of_ne hyx] at h

theorem Inv.move (h : Inv s) (hmove : Moves s x stage) : Inv (s.setStage x stage) where
  claiming y r previous hy := by
    by_cases hyx : y = x
    · subst hyx
      rw [setStage_stage_self] at hy
      subst hy
      cases hmove with
      | claim hidle hfree => exact le_rfl
    · rw [setStage_stage_of_ne hyx] at hy
      exact h.claiming y r previous hy
  settled y w hy := by
    by_cases hyx : y = x
    · subst hyx
      rw [setStage_stage_self] at hy
      cases hmove with
      | claim hidle hfree => simp at hy
      | @settle w' hstage hw hours =>
        have heq : w' = w := by simpa using hy
        exact heq ▸ hw
      | @confirm w' hstage hours =>
        have heq : w' = w := by simpa using hy
        exact heq ▸ h.settled y _ (.inl hstage)
      | fail hpassed => simp at hy
    · rw [setStage_stage_of_ne hyx] at hy
      exact h.settled y w hy
  spent := h.spent
  kept y w hy howns := h.kept y w (hmove.wrote hy) howns
  late y w z r previous hyz hy howns hover hz := by
    by_cases hzx : z = x
    · subst hzx
      rw [setStage_stage_self] at hz
      subst hz
      cases hmove with
      | claim hidle hfree =>
        have hkept := h.kept y w (Moves.wrote (.claim hidle hfree) hy) howns
        exact absurd (foreignLive_of_kept hyz hkept howns hover) hfree
    · rw [setStage_stage_of_ne hzx] at hz
      exact h.late y w z r previous hyz (hmove.wrote hy) howns hover hz
  held y w hy hover := by
    by_cases hyx : y = x
    · subst hyx
      rw [setStage_stage_self] at hy
      subst hy
      cases hmove with
      | confirm hstage hours => exact owns_iff_ours.mpr hours
    · rw [setStage_stage_of_ne hyx] at hy
      exact h.held y w hy hover

theorem claim_spec (x : String) (r : Nat) (previous : Option RoamingLeaseRecord) (stateVersion : Nat) :
    (claim origins x r previous stateVersion).owner = x ∧ (claim origins x r previous stateVersion).phase = .live :=
  ⟨rfl, rfl⟩

/-- A release does not lengthen a record. -/
theorem releasedRecord_over {record : RoamingLeaseRecord} {clean : Bool} {stateVersion now : Nat}
    (hspent : record.phase = .released → record.expiresAt ≤ now)
    (h : record.phase = .released ∨ record.expiresAt ≤ now) :
    (releasedRecord record clean stateVersion now).phase = .released ∨
      (releasedRecord record clean stateVersion now).expiresAt ≤ now := by
  cases clean with
  | true => exact .inl rfl
  | false => exact .inr (h.elim hspent id)

theorem releasedRecord_spent {record : RoamingLeaseRecord} {clean : Bool} {stateVersion now : Nat}
    (h : (releasedRecord record clean stateVersion now).phase = .released) :
    (releasedRecord record clean stateVersion now).expiresAt ≤ now := by
  cases clean with
  | true => exact Nat.le_refl now
  | false => cases h

theorem put_owns_iff (s : Race) (x : String) (record : RoamingLeaseRecord) :
    (s.put x record).Owns y ↔ record.owner = y := by
  simp [Race.Owns, Race.put]

theorem put_last_self (s : Race) (x : String) (record : RoamingLeaseRecord) :
    (s.put x record).lastWritten x = some record := by
  simp [Race.put]

theorem put_last_of_ne (h : y ≠ x) (s : Race) (record : RoamingLeaseRecord) :
    (s.put x record).lastWritten y = s.lastWritten y := by
  simp [Race.put, h]

/-- Of an origin that does not write, its record is over after a write where it was before. -/
theorem put_over (h : y ≠ x) {record : RoamingLeaseRecord} (hover : s.Over y) : (s.put x record).Over y := by
  obtain ⟨old, hlast, hdone⟩ := hover
  exact ⟨old, (put_last_of_ne h s record).trans hlast, hdone⟩

theorem Inv.write (h : Inv s) {previous : Option RoamingLeaseRecord} (hstage : s.stage x = .claiming r previous)
    (htime : s.clock < r + ACQUIRE_SETTLE_MS) (stateVersion : Nat) :
    Inv ((s.put x (claim origins x r previous stateVersion)).setStage x (.settling s.clock)) := by
  have hspec : (claim origins x r previous stateVersion).owner = x ∧
      (claim origins x r previous stateVersion).phase = .live :=
    claim_spec x r previous stateVersion
  obtain ⟨howner, hphase⟩ := hspec
  generalize hrecord : claim origins x r previous stateVersion = record at howner hphase
  -- after the write only its origin owns the file
  have hyx : ∀ {y}, (s.put x record).Owns y → y = x :=
    fun howns => ((put_owns_iff s x record).mp howns).symm.trans howner
  constructor
  · intro y r' previous' hy
    by_cases heq : y = x
    · rw [heq, setStage_stage_self] at hy
      cases hy
    · rw [setStage_stage_of_ne heq] at hy
      exact h.claiming y r' previous' hy
  · intro y w hy
    by_cases heq : y = x
    · rw [heq, setStage_stage_self] at hy
      rcases hy with hy | hy
      · cases hy
      · cases hy
    · rw [setStage_stage_of_ne heq] at hy
      exact h.settled y w hy
  · intro y old hlast hold
    by_cases heq : y = x
    · have hsame : some record = some old := (put_last_self s x record).symm.trans (heq ▸ hlast)
      rw [← Option.some.inj hsame, hphase] at hold
      cases hold
    · exact h.spent y old ((put_last_of_ne heq s record).symm.trans hlast) hold
  · intro y w _ howns
    rw [hyx howns]
    exact (put_last_self s x record).symm
  · intro y w z r' previous' hyz hy howns _ hz
    have heq := hyx howns
    subst heq
    have hclock : s.clock = w := by
      rcases hy with hy | hy | hy
      · rw [setStage_stage_self] at hy
        exact Stage.settling.inj hy
      · rw [setStage_stage_self] at hy
        cases hy
      · rw [setStage_stage_self] at hy
        cases hy
    rw [setStage_stage_of_ne (Ne.symm hyz)] at hz
    exact hclock ▸ h.claiming z r' previous' hz
  · intro y w hy hover
    by_cases heq : y = x
    · rw [heq, setStage_stage_self] at hy
      cases hy
    · -- the write would be too late
      rw [setStage_stage_of_ne heq] at hy
      have hbefore : ¬s.Over y := fun hdone => hover (put_over heq hdone)
      exact absurd htime (h.not_writes heq (.inr hy) (h.held y w hy hbefore) hbefore hstage)

theorem Inv.release (h : Inv s) {record : RoamingLeaseRecord} (hstage : s.stage x = .passed w)
    (hfile : s.file = some record) (howner : record.owner = x) (stateVersion : Nat) (clean : Bool) :
    Inv (s.put x (releasedRecord record clean stateVersion s.clock)) := by
  have hkept := h.kept x w (.inr (.inr hstage)) ⟨record, hfile, howner⟩
  have hlast : s.lastWritten x = some record := hkept ▸ hfile
  have hspent := h.spent x record hlast
  have hyx : ∀ {y}, (s.put x (releasedRecord record clean stateVersion s.clock)).Owns y → y = x :=
    fun howns => ((put_owns_iff s x _).mp howns).symm.trans howner
  -- a record that was over stays so
  have hover : ∀ {y}, s.Over y → (s.put x (releasedRecord record clean stateVersion s.clock)).Over y := by
    intro y hdone
    by_cases heq : y = x
    · subst heq
      obtain ⟨old, hold, hdone⟩ := hdone
      obtain rfl := Option.some.inj (hold.symm.trans hlast)
      exact ⟨_, put_last_self s y _, releasedRecord_over hspent hdone⟩
    · exact put_over heq hdone
  constructor
  · exact h.claiming
  · exact h.settled
  · intro y old hold hphase
    by_cases heq : y = x
    · subst heq
      obtain rfl := Option.some.inj ((put_last_self s y _).symm.trans hold)
      exact releasedRecord_spent hphase
    · exact h.spent y old ((put_last_of_ne heq s _).symm.trans hold) hphase
  · intro y w' _ howns
    rw [hyx howns]
    exact (put_last_self s x _).symm
  · intro y w' z r' previous' hyz hy howns hdone hz
    have heq := hyx howns
    subst heq
    exact h.late y w' z r' previous' hyz hy ⟨record, hfile, howner⟩ (fun hbefore => hdone (hover hbefore)) hz
  · intro y w' hy hdone
    have hbefore : ¬s.Over y := fun hb => hdone (hover hb)
    have howns := h.held y w' hy hbefore
    obtain ⟨other, hother, hyo⟩ := howns
    obtain rfl := Option.some.inj (hother.symm.trans hfile)
    exact (put_owns_iff s x _).mpr hyo

theorem Inv.step {action : Action} (h : Inv s) (htime : inTime action s = true)
    (hstep : Racing.step origins action s = some s') : Inv s' := by
  rcases step_cases hstep htime with ⟨ms, rfl⟩ | ⟨x, stage, hmove, rfl⟩ |
    ⟨x, r, previous, stateVersion, hstage, hlt, rfl⟩ | ⟨x, w, record, stateVersion, clean, hstage, hfile, howner, rfl⟩
  · exact h.wait ms
  · exact h.move hmove
  · exact h.write hstage hlt stateVersion
  · exact h.release hstage hfile howner stateVersion clean

end Invariant

/-! ## Two boots -/

namespace Race

/-- A boot that does not pass any more: it has failed, or its record is gone from the file. -/
def Out (s : Race) (x : String) : Prop :=
  s.stage x = .failed ∨ ∃ w, (s.stage x = .settling w ∨ s.stage x = .acquired w) ∧ ¬s.Owns x

/-- One has written after the other's first read, and the other has still to write. -/
def Behind (s : Race) (x y : String) : Prop :=
  ∃ w r previous, s.Wrote x w ∧ s.stage y = .claiming r previous ∧ r ≤ w

/-- Of two boots, at most one passes. -/
def Excluded (s : Race) (a b : String) : Prop :=
  s.Out a ∨ s.Out b ∨ s.Behind a b ∨ s.Behind b a ∨
    ∃ r previous r' previous', s.stage a = .claiming r previous ∧ s.stage b = .claiming r' previous'

end Race

section Exclusion

variable {origins : String → Origin} {s s' : Race} {a b x y z : String} {stage : Stage} {w r : Nat}

theorem Moves.out (hmove : Moves s x stage) (h : s.Out y) : (s.setStage x stage).Out y := by
  by_cases hyx : y = x
  · subst hyx
    have hown : leaseState s.file y s.clock = .ours →
        ¬∃ w, (s.stage y = .settling w ∨ s.stage y = .acquired w) ∧ ¬s.Owns y := by
      rintro hours ⟨w, -, hnot⟩
      exact hnot (owns_iff_ours.mpr hours)
    rcases h with h | h
    · cases hmove with
      | claim hidle hfree => cases h.symm.trans hidle
      | settle hstage hw hours => cases h.symm.trans hstage
      | confirm hstage hours => cases h.symm.trans hstage
      | fail hpassed => exact .inl (setStage_stage_self s y .failed)
    · cases hmove with
      | claim hidle hfree =>
        obtain ⟨w, hw | hw, -⟩ := h
        · cases hw.symm.trans hidle
        · cases hw.symm.trans hidle
      | settle hstage hw hours => exact absurd h (hown hours)
      | confirm hstage hours => exact absurd h (hown hours)
      | fail hpassed => exact .inl (setStage_stage_self s y .failed)
  · unfold Race.Out
    rw [setStage_stage_of_ne hyx]
    exact h

/-- What an origin has written stays written, or it fails. -/
theorem Moves.wrote_or_out (hmove : Moves s z stage) (h : s.Wrote x w) :
    (s.setStage z stage).Out x ∨ (s.setStage z stage).Wrote x w := by
  by_cases hxz : x = z
  · subst hxz
    unfold Race.Wrote at h ⊢
    rw [setStage_stage_self]
    cases hmove with
    | claim hidle hfree =>
      rw [hidle] at h
      simp at h
    | @settle w' hstage hw hours =>
      rw [hstage] at h
      have heq : w' = w := by simpa using h
      exact .inr (.inr (.inl (by rw [heq])))
    | @confirm w' hstage hours =>
      rw [hstage] at h
      have heq : w' = w := by simpa using h
      exact .inr (.inr (.inr (by rw [heq])))
    | fail hpassed => exact .inl (.inl (setStage_stage_self s x .failed))
  · unfold Race.Wrote
    rw [setStage_stage_of_ne hxz]
    exact .inr h

/-- A boot that still has to write goes on having to, or it fails. -/
theorem Moves.claiming_or_out (hmove : Moves s z stage) {previous : Option RoamingLeaseRecord}
    (h : s.stage y = .claiming r previous) :
    (s.setStage z stage).Out y ∨ (s.setStage z stage).stage y = .claiming r previous := by
  by_cases hyz : y = z
  · subst hyz
    cases hmove with
    | claim hidle hfree => cases h.symm.trans hidle
    | settle hstage hw hours => cases h.symm.trans hstage
    | confirm hstage hours => cases h.symm.trans hstage
    | fail hpassed => exact .inl (.inl (setStage_stage_self s y .failed))
  · rw [setStage_stage_of_ne hyz]
    exact .inr h

theorem Moves.behind (hmove : Moves s z stage) (h : s.Behind x y) :
    (s.setStage z stage).Out x ∨ (s.setStage z stage).Out y ∨ (s.setStage z stage).Behind x y := by
  obtain ⟨w, r, previous, hx, hy, hle⟩ := h
  rcases hmove.wrote_or_out hx with hout | hx
  · exact .inl hout
  · rcases hmove.claiming_or_out hy with hout | hy
    · exact .inr (.inl hout)
    · exact .inr (.inr ⟨w, r, previous, hx, hy, hle⟩)

theorem Moves.excluded (hmove : Moves s z stage) (h : s.Excluded a b) : (s.setStage z stage).Excluded a b := by
  rcases h with h | h | h | h | ⟨r, previous, r', previous', ha, hb⟩
  · exact .inl (hmove.out h)
  · exact .inr (.inl (hmove.out h))
  · rcases hmove.behind h with h | h | h
    · exact .inl h
    · exact .inr (.inl h)
    · exact .inr (.inr (.inl h))
  · rcases hmove.behind h with h | h | h
    · exact .inr (.inl h)
    · exact .inl h
    · exact .inr (.inr (.inr (.inl h)))
  · rcases hmove.claiming_or_out ha with h | ha
    · exact .inl h
    · rcases hmove.claiming_or_out hb with h | hb
      · exact .inr (.inl h)
      · exact .inr (.inr (.inr (.inr ⟨r, previous, r', previous', ha, hb⟩)))

section Write

variable {previous : Option RoamingLeaseRecord} {record : RoamingLeaseRecord}

/-- The state after a write of `z`. -/
theorem write_stage_of_ne (h : y ≠ z) : ((s.put z record).setStage z (.settling s.clock)).stage y = s.stage y :=
  setStage_stage_of_ne h _ _

theorem write_out (howner : record.owner = z) (hz : s.stage z = .claiming r previous) (h : s.Out y) :
    ((s.put z record).setStage z (.settling s.clock)).Out y := by
  by_cases hyz : y = z
  · subst hyz
    rcases h with h | ⟨w, hw | hw, -⟩
    · cases h.symm.trans hz
    · cases hw.symm.trans hz
    · cases hw.symm.trans hz
  · have hlost : ¬((s.put z record).setStage z (.settling s.clock)).Owns y :=
      fun howns => hyz (((put_owns_iff s z record).mp howns).symm.trans howner)
    unfold Race.Out
    rw [write_stage_of_ne hyz]
    rcases h with h | ⟨w, hw, -⟩
    · exact .inl h
    · exact .inr ⟨w, hw, hlost⟩

/-- The write of the one behind takes the file, and comes too late once the other has settled. -/
theorem Inv.write_behind (hinv : Inv s) (howner : record.owner = z) (hz : s.stage z = .claiming r previous)
    (htime : s.clock < r + ACQUIRE_SETTLE_MS) (hxy : x ≠ y) (h : s.Behind x y) :
    ((s.put z record).setStage z (.settling s.clock)).Out x ∨
      ((s.put z record).setStage z (.settling s.clock)).Behind x y := by
  obtain ⟨w, r', previous', hx, hy, hle⟩ := h
  have hxz : x ≠ z := by
    rintro rfl
    rcases hx with hx | hx | hx
    · cases hx.symm.trans hz
    · cases hx.symm.trans hz
    · cases hx.symm.trans hz
  by_cases hyz : y = z
  · subst hyz
    obtain ⟨rfl, -⟩ := Stage.claiming.inj (hy.symm.trans hz)
    rcases hx with hx | hx
    · refine .inl (.inr ⟨w, .inl ?_, fun howns => hxy ?_⟩)
      · rw [write_stage_of_ne hxz]
        exact hx
      · exact ((put_owns_iff s y record).mp howns).symm.trans howner
    · have hsettled := hinv.settled x w hx
      omega
  · refine .inr ⟨w, r', previous', ?_, ?_, hle⟩
    · unfold Race.Wrote
      rw [write_stage_of_ne hxz]
      exact hx
    · rw [write_stage_of_ne hyz]
      exact hy

theorem Inv.write_excluded (hinv : Inv s) (howner : record.owner = z) (hz : s.stage z = .claiming r previous)
    (htime : s.clock < r + ACQUIRE_SETTLE_MS) (hab : a ≠ b) (h : s.Excluded a b) :
    ((s.put z record).setStage z (.settling s.clock)).Excluded a b := by
  rcases h with h | h | h | h | ⟨r₁, previous₁, r₂, previous₂, ha, hb⟩
  · exact .inl (write_out howner hz h)
  · exact .inr (.inl (write_out howner hz h))
  · rcases hinv.write_behind howner hz htime hab h with h | h
    · exact .inl h
    · exact .inr (.inr (.inl h))
  · rcases hinv.write_behind howner hz htime (Ne.symm hab) h with h | h
    · exact .inr (.inl h)
    · exact .inr (.inr (.inr (.inl h)))
  · by_cases haz : a = z
    · subst haz
      refine .inr (.inr (.inl ⟨s.clock, r₂, previous₂, .inl (setStage_stage_self _ a _), ?_,
        hinv.claiming b r₂ previous₂ hb⟩))
      rw [write_stage_of_ne (Ne.symm hab)]
      exact hb
    · by_cases hbz : b = z
      · subst hbz
        refine .inr (.inr (.inr (.inl ⟨s.clock, r₁, previous₁, .inl (setStage_stage_self _ b _), ?_,
          hinv.claiming a r₁ previous₁ ha⟩)))
        rw [write_stage_of_ne hab]
        exact ha
      · refine .inr (.inr (.inr (.inr ⟨r₁, previous₁, r₂, previous₂, ?_, ?_⟩)))
        · rw [write_stage_of_ne haz]
          exact ha
        · rw [write_stage_of_ne hbz]
          exact hb

theorem release_out (howner : record.owner = z) (hz : s.stage z = .passed w) (h : s.Out y) :
    (s.put z record).Out y := by
  rcases h with h | ⟨w', hw', hnot⟩
  · exact .inl h
  · refine .inr ⟨w', hw', fun howns => ?_⟩
    obtain rfl := howner.symm.trans ((put_owns_iff s z record).mp howns)
    rcases hw' with hw' | hw'
    · cases hw'.symm.trans hz
    · cases hw'.symm.trans hz

end Write

theorem Inv.excluded {action : Action} (hinv : Inv s) (hab : a ≠ b) (htime : inTime action s = true)
    (hstep : Racing.step origins action s = some s') (h : s.Excluded a b) : s'.Excluded a b := by
  rcases step_cases hstep htime with ⟨ms, rfl⟩ | ⟨z, stage, hmove, rfl⟩ |
    ⟨z, r, previous, stateVersion, hz, hlt, rfl⟩ | ⟨z, w, record, stateVersion, clean, hz, hfile, howner, rfl⟩
  · exact h
  · exact hmove.excluded h
  · exact hinv.write_excluded rfl hz hlt hab h
  · rcases h with h | h | h
    · exact .inl (release_out howner hz h)
    · exact .inr (.inl (release_out howner hz h))
    · exact .inr (.inr h)

/-- Of two boots that exclude each other one has not passed. -/
theorem Race.Excluded.not_both (h : s.Excluded a b) (ha : s.Passed a) (hb : s.Passed b) : False := by
  obtain ⟨wa, ha⟩ := ha
  obtain ⟨wb, hb⟩ := hb
  have hout : ∀ {x w}, s.stage x = .passed w → ¬s.Out x := by
    rintro x w hx (h | ⟨w', h | h, -⟩)
    · cases h.symm.trans hx
    · cases h.symm.trans hx
    · cases h.symm.trans hx
  rcases h with h | h | ⟨w, r, previous, -, h, -⟩ | ⟨w, r, previous, -, h, -⟩ | ⟨r, previous, r', previous', h, -⟩
  · exact hout ha h
  · exact hout hb h
  · cases h.symm.trans hb
  · cases h.symm.trans ha
  · cases h.symm.trans ha

/-- The first read of a boot, while another has begun and its record is not over, leaves at most one to pass. -/
theorem Inv.excluded_of_read (hinv : Inv s) (hab : a ≠ b) (ha : s.stage a ≠ .idle) (hover : ¬s.Over a)
    (hread : Racing.step origins (.read b) s = some s') : s'.Excluded a b := by
  have hblocked : ∀ w, s.Wrote a w → s.Owns a → s'.Excluded a b := by
    intro w hw howns
    have hlive : leaseState s.file b s.clock = .foreignLive :=
      foreignLive_of_kept hab (hinv.kept a w hw howns) howns hover
    simp only [Racing.step, if_pos hlive] at hread
    split at hread
    · cases hread
      exact .inr (.inl (.inl (setStage_stage_self s b .failed)))
    · cases hread
  have hstage : s'.stage a = s.stage a ∧
      (∃ r previous, s'.stage b = .claiming r previous ∨ s'.stage b = .failed) ∧ (s'.Owns a → s.Owns a) := by
    simp only [Racing.step] at hread
    split at hread
    · split at hread
      · cases hread
        exact ⟨setStage_stage_of_ne hab s _, ⟨0, none, .inr (setStage_stage_self s b _)⟩, id⟩
      · cases hread
        exact ⟨setStage_stage_of_ne hab s _, ⟨_, _, .inl (setStage_stage_self s b _)⟩, id⟩
    · cases hread
  obtain ⟨hsame, ⟨r, previous, hb⟩, howns⟩ := hstage
  have hlost : ∀ w, s.stage a = .settling w ∨ s.stage a = .acquired w → s'.Excluded a b := by
    intro w hw
    by_cases hown : s.Owns a
    · exact hblocked w (hw.imp_right .inl) hown
    · exact .inl (.inr ⟨w, hsame.symm ▸ hw, fun h => hown (howns h)⟩)
  cases hsa : s.stage a with
  | idle => exact absurd hsa ha
  | claiming r' previous' =>
    rcases hb with hb | hb
    · exact .inr (.inr (.inr (.inr ⟨r', previous', r, previous, hsame.trans hsa, hb⟩)))
    · exact .inr (.inl (.inl hb))
  | settling w => exact hlost w (.inl hsa)
  | acquired w => exact hlost w (.inr hsa)
  | passed w => exact hblocked w (.inr (.inr hsa)) (hinv.held a w hsa hover)
  | failed => exact .inl (.inl (hsame.trans hsa))

end Exclusion

/-- No origin has begun. -/
def Race.Fresh (s : Race) : Prop := ∀ x, s.stage x = .idle ∧ s.lastWritten x = none

section Runs

variable {origins : String → Origin} {s₀ s s' t : Race} {a b : String}

theorem Race.Fresh.inv (h : s₀.Fresh) : Inv s₀ where
  claiming x r previous hx := by
    rw [(h x).1] at hx
    cases hx
  settled x w hx := by
    rw [(h x).1] at hx
    simp at hx
  spent x record hx := by
    rw [(h x).2] at hx
    cases hx
  kept x w hx := by
    rw [Race.Wrote, (h x).1] at hx
    simp at hx
  late x w y r previous _ hx := by
    rw [Race.Wrote, (h x).1] at hx
    simp at hx
  held x w hx := by
    rw [(h x).1] at hx
    cases hx

theorem Race.Fresh.inv_of_run (h : s₀.Fresh)
    (hrun : Steps (Racing.step origins) (fun a s => inTime a s = true) s₀ s) : Inv s :=
  hrun.invariant h.inv fun _ _ _ hinv htime hstep => hinv.step htime hstep

/-- Two origins both pass only if the later of their first reads came after the other's record had expired or been
released. -/
theorem passed_after_over (hfresh : s₀.Fresh) (hab : a ≠ b)
    (hrun : Steps (Racing.step origins) (fun a s => inTime a s = true) s₀ s) (ha : s.stage a ≠ .idle)
    (hread : Racing.step origins (.read b) s = some s')
    (hrest : Steps (Racing.step origins) (fun a s => inTime a s = true) s' t) (hpa : t.Passed a) (hpb : t.Passed b) :
    s.Over a := by
  by_contra hover
  have hinv := hfresh.inv_of_run hrun
  have hinv' : Inv s' := hinv.step rfl hread
  have hexcluded : Inv t ∧ t.Excluded a b := by
    apply hrest.invariant (I := fun u => Inv u ∧ u.Excluded a b)
    · exact ⟨hinv', hinv.excluded_of_read hab ha hover hread⟩
    · intro u action u' hboth htime hstep
      exact ⟨hboth.1.step htime hstep, hboth.1.excluded hab htime hstep hboth.2⟩
  exact Race.Excluded.not_both hexcluded.2 hpa hpb

end Runs

/-! ## Two boots, one after the other -/

def anyOrigin : String → Origin := fun token => { origin := token }

/-- No lease file. -/
def unclaimed : Race := { clock := 0, file := none, stage := fun _ => .idle, lastWritten := fun _ => none }

theorem unclaimed_fresh : unclaimed.Fresh := fun _ => ⟨rfl, rfl⟩

/-- A boot with nobody about, from its first read on. -/
def boot (token : String) : List Action :=
  [.read token, .write token 1, .wait ACQUIRE_SETTLE_MS, .settle token, .confirm token]

/-- The first boot has passed and its record has run out. -/
def lapsed : Race := (play (step anyOrigin) inTime (boot "a" ++ [.wait ROAMING_LEASE_MS]) unclaimed).getD unclaimed

def secondRead : Race := (step anyOrigin (.read "b") lapsed).getD lapsed

def bothPassed : Race := (play (step anyOrigin) inTime (boot "b").tail secondRead).getD secondRead

theorem lapsed_run : Steps (step anyOrigin) (fun a s => inTime a s = true) unclaimed lapsed := by
  have hplay : play (step anyOrigin) inTime (boot "a" ++ [.wait ROAMING_LEASE_MS]) unclaimed = some lapsed := rfl
  exact Steps.of_play hplay

theorem secondRead_step : step anyOrigin (.read "b") lapsed = some secondRead := rfl

theorem bothPassed_run : Steps (step anyOrigin) (fun a s => inTime a s = true) secondRead bothPassed := by
  have hplay : play (step anyOrigin) inTime (boot "b").tail secondRead = some bothPassed := rfl
  exact Steps.of_play hplay

theorem bothPassed_passed : bothPassed.Passed "a" ∧ bothPassed.Passed "b" :=
  ⟨⟨0, rfl⟩, ⟨ACQUIRE_SETTLE_MS + ROAMING_LEASE_MS, rfl⟩⟩

theorem bothPassed_not_over : ¬bothPassed.Over "b" := by
  rintro ⟨record, hrecord, hdone⟩
  obtain rfl := Option.some.inj hrecord
  exact absurd hdone (by decide)

theorem passed_after_over_lapsed : lapsed.Over "a" :=
  passed_after_over unclaimed_fresh (by decide) lapsed_run (by decide) secondRead_step bothPassed_run
    bothPassed_passed.1 bothPassed_passed.2

/-- An origin passes, and so has one whose first read came before the record of the first was over. -/
theorem passed_before_over : ∃ (s s' t : Race) (a b : String), s.Fresh ∧ a ≠ b ∧
    step anyOrigin (.read a) s = some s' ∧ Steps (step anyOrigin) (fun a s => inTime a s = true) s' t ∧
    t.Passed b ∧ t.Passed a ∧ ¬s.Over b ∧ ¬t.Over b := by
  refine ⟨unclaimed, (step anyOrigin (.read "a") unclaimed).getD unclaimed, bothPassed, "a", "b", unclaimed_fresh,
    by decide, rfl, ?_, bothPassed_passed.2, bothPassed_passed.1, ?_, bothPassed_not_over⟩
  · have hplay : play (step anyOrigin) inTime ((boot "a").tail ++ [.wait ROAMING_LEASE_MS])
      ((step anyOrigin (.read "a") unclaimed).getD unclaimed) = some lapsed := rfl
    have hsecond : Steps (step anyOrigin) (fun a s => inTime a s = true) lapsed bothPassed :=
      Steps.trans (.snoc .refl rfl secondRead_step) bothPassed_run
    exact (Steps.of_play hplay).trans hsecond
  · rintro ⟨record, hrecord, -⟩
    cases hrecord

end LibreWallet.Roaming.Racing
