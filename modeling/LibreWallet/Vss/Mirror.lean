import LibreWallet.Async.System
import Mathlib.Data.List.Basic

/-
  Vss/Mirror.lean --- the throttled mirror of the state to VSS.

  Mirrors `VssMirror` of `libre-listener-wallet/src/vss-mirror.ts`.  An upload exports
  the state, writes it blindly and is over; a timer starts one unless `inFlight` is set,
  a flush starts one in any case.  A state is its version; what the environment chooses is
  when a call is made, the timer fires, an export is taken, a write lands, and whether the
  upload succeeds.
-/

set_option autoImplicit false

namespace LibreWallet.Vss

open Async

inductive Caller where
  | run
  | flush
  deriving DecidableEq, Repr

inductive Stage where
  | exporting
  /-- The envelope of this version is on its way. -/
  | putting (version : Nat)
  /-- It has landed; the answer has not come yet. -/
  | stored (version : Nat)
  deriving DecidableEq, Repr

/-- What an upload has exported. -/
def Stage.version : Stage → Option Nat
  | .exporting => none
  | .putting v | .stored v => some v

def Stage.landed : Stage → Bool
  | .stored _ => true
  | _ => false

structure Upload where
  caller : Caller
  stage : Stage := .exporting
  deriving DecidableEq, Repr

structure Mirror where
  /-- The version of the local state. -/
  version : Nat := 0
  timer : Bool := false
  inFlight : Bool := false
  pendingWhileInFlight : Bool := false
  stopped : Bool := false
  uploads : List Upload := []
  /-- Calls of `run` whose upload is over and that have not gone on yet. -/
  returning : Nat := 0
  /-- What this mirror last stored on the server. -/
  server : Option Nat := none
  /-- The version at the last `schedule()`. -/
  scheduled : Nat := 0
  /-- The newest version that a completed flush exported. -/
  flushed : Nat := 0
  /-- The last upload that was over succeeded. -/
  lastSucceeded : Bool := false
  deriving DecidableEq, Repr

inductive Action where
  | advance
  | schedule
  /-- The timer fires. -/
  | fire
  | flush
  /-- Upload `k` takes its export. -/
  | takeExport (k : Nat)
  /-- The write of upload `k` lands. -/
  | land (k : Nat)
  /-- Upload `k` is over. -/
  | finish (k : Nat) (ok : Bool)
  /-- A call of `run` goes on after its upload. -/
  | resume
  | stop
  deriving DecidableEq, Repr

/-- `schedule`: an armed timer stays as it is. -/
def schedule (m : Mirror) : Mirror :=
  if m.stopped || m.timer then m else { m with timer := true }

/-- `upload` up to its first `await`. -/
def upload (caller : Caller) (m : Mirror) : Mirror :=
  { m with inFlight := true, uploads := m.uploads ++ [{ caller }] }

/-- `run` up to its upload. -/
def run (m : Mirror) : Mirror :=
  if m.stopped then m
  else if m.inFlight then { m with pendingWhileInFlight := true }
  else upload .run m

def flush (m : Mirror) : Mirror :=
  if m.stopped then m else upload .flush { m with timer := false }

def stop (m : Mirror) : Mirror := { m with stopped := true, timer := false }

/-- `run` after its upload. -/
def resumeRun (m : Mirror) : Mirror :=
  if m.pendingWhileInFlight && !m.stopped then
    schedule { m with pendingWhileInFlight := false }
  else m

def step : Action → Mirror → Option Mirror
  | .advance, m => some { m with version := m.version + 1 }
  | .schedule, m => some { schedule m with scheduled := m.version }
  | .fire, m => if m.timer then some (run { m with timer := false }) else none
  | .flush, m => some (flush m)
  | .takeExport k, m =>
    match m.uploads[k]? with
    | some ⟨caller, .exporting⟩ =>
      some { m with uploads := m.uploads.set k ⟨caller, .putting m.version⟩ }
    | _ => none
  | .land k, m =>
    match m.uploads[k]? with
    | some ⟨caller, .putting v⟩ =>
      some { m with uploads := m.uploads.set k ⟨caller, .stored v⟩, server := some v }
    | _ => none
  | .finish k ok, m =>
    match m.uploads[k]? with
    | some u =>
      if ok && !u.stage.landed then none
      else
        some { m with
          inFlight := false
          uploads := m.uploads.eraseIdx k
          lastSucceeded := ok
          returning := if u.caller = .run then m.returning + 1 else m.returning
          flushed := if u.caller = .flush then max m.flushed (u.stage.version.getD 0)
            else m.flushed }
    | none => none
  | .resume, m =>
    if 0 < m.returning then some (resumeRun { m with returning := m.returning - 1 }) else none
  | .stop, m => some (stop m)

/-- No flush begins during an upload, and the timer does not fire while a flush that has
taken its export is in flight. -/
def serial (a : Action) (m : Mirror) : Bool :=
  match a with
  | .flush => m.uploads.isEmpty
  | .fire => m.uploads.all fun u => u.caller = .run || u.stage = .exporting
  | _ => true

/-- No timer is armed and no upload is in flight, its caller included. -/
def Quiescent (m : Mirror) : Prop := m.timer = false ∧ m.uploads = [] ∧ m.returning = 0

/-- The replica is as new as what was scheduled and what was flushed. -/
def Converged (m : Mirror) : Prop :=
  ∃ v, m.server = some v ∧ m.scheduled ≤ v ∧ m.flushed ≤ v

/-! ## The invariant -/

/-- What the upload stores, if it succeeds, is at least `n`. -/
def Upload.Covers (n : Nat) (u : Upload) : Prop := ∀ v, u.stage.version = some v → n ≤ v

structure Tracked (m : Mirror) : Prop where
  flag : m.inFlight = false ↔ m.uploads = []
  single : ∀ u u' us, m.uploads ≠ u :: u' :: us
  known : m.scheduled ≤ m.version ∧ m.flushed ≤ m.version
  exported : ∀ u ∈ m.uploads, ∀ v, u.stage.version = some v → v ≤ m.version ∧ m.flushed ≤ v
  stored : ∀ u ∈ m.uploads, ∀ v, u.stage = .stored v → m.server = some v
  flushed : m.uploads = [] → m.lastSucceeded = true → ∃ v, m.server = some v ∧ m.flushed ≤ v
  covered : m.timer = true ∨
    (m.pendingWhileInFlight = true ∧ (m.returning ≠ 0 ∨ ∃ u ∈ m.uploads, u.caller = .run)) ∨
    (∃ u ∈ m.uploads, u.Covers m.scheduled) ∨
    (m.uploads = [] ∧ (m.lastSucceeded = true → ∃ v, m.server = some v ∧ m.scheduled ≤ v))

variable {m m' : Mirror}

theorem Tracked.uploads (h : Tracked m) : m.uploads = [] ∨ ∃ u, m.uploads = [u] := by
  match hu : m.uploads with
  | [] => exact .inl rfl
  | [u] => exact .inr ⟨u, rfl⟩
  | u :: u' :: us => exact absurd hu (h.single u u' us)

theorem Tracked.converged (h : Tracked m) (hq : Quiescent m) (hok : m.lastSucceeded = true) :
    Converged m := by
  obtain ⟨htimer, hnone, hret⟩ := hq
  obtain ⟨v, hv, hflushed⟩ := h.flushed hnone hok
  refine ⟨v, hv, ?_, hflushed⟩
  rcases h.covered with ht | ⟨-, hr | ⟨u, hu, -⟩⟩ | ⟨u, hu, -⟩ | ⟨-, hs⟩
  · exact absurd (htimer.symm.trans ht) (by simp)
  · exact absurd hret hr
  · rw [hnone] at hu
    cases hu
  · rw [hnone] at hu
    cases hu
  · obtain ⟨v', hv', hle⟩ := hs hok
    rw [hv] at hv'
    cases hv'
    exact hle

/-- Arming the timer changes nothing else. -/
theorem Tracked.armed (h : Tracked m) {scheduled : Nat} {pending : Bool}
    (hle : scheduled ≤ m.version) :
    Tracked { m with timer := true, scheduled, pendingWhileInFlight := pending } where
  flag := h.flag
  single := h.single
  known := ⟨hle, h.known.2⟩
  exported := h.exported
  stored := h.stored
  flushed := h.flushed
  covered := .inl rfl

/-- An upload that begins while none is in flight. -/
theorem Tracked.upload (h : Tracked m) (hnone : m.uploads = []) (caller : Caller) (timer : Bool) :
    Tracked (upload caller { m with timer }) := by
  have hup : (Vss.upload caller { m with timer }).uploads = [{ caller }] := by
    simp [Vss.upload, hnone]
  refine ⟨?_, ?_, h.known, ?_, ?_, ?_, .inr (.inr (.inl ?_))⟩
  · rw [hup]
    simp [Vss.upload]
  · rw [hup]
    intro u u' us hcons
    cases hcons
  · rw [hup]
    intro u hu v hv
    rw [List.mem_singleton.mp hu] at hv
    cases hv
  · rw [hup]
    intro u hu v hv
    rw [List.mem_singleton.mp hu] at hv
    cases hv
  · rw [hup]
    intro hcons
    cases hcons
  · rw [hup]
    refine ⟨_, List.mem_singleton_self _, fun v hv => ?_⟩
    cases hv

/-- The timer fires: its run uploads, or leaves the work to the run that is uploading. -/
theorem Tracked.fire (h : Tracked m) (hs : serial .fire m = true) (hstopped : m.stopped = false) :
    Tracked (run { m with timer := false }) := by
  unfold run
  rw [if_neg (by simp [hstopped])]
  split
  · rename_i hflight
    have hne : m.uploads ≠ [] := fun hnil => by simp [h.flag.mpr hnil] at hflight
    obtain ⟨u, hu⟩ : ∃ u, m.uploads = [u] := h.uploads.resolve_left hne
    refine ⟨h.flag, h.single, h.known, h.exported, h.stored, h.flushed, .inr ?_⟩
    simp only [serial, hu, List.all_cons, List.all_nil, Bool.and_true, Bool.or_eq_true,
      decide_eq_true_eq] at hs
    rcases hs with hrun | hexp
    · exact .inl ⟨rfl, .inr ⟨u, hu ▸ List.mem_singleton_self u, hrun⟩⟩
    · refine .inr (.inl ⟨u, hu ▸ List.mem_singleton_self u, fun v hv => ?_⟩)
      rw [hexp] at hv
      cases hv
  · rename_i hflight
    exact h.upload (h.flag.mp (Bool.not_eq_true _ ▸ hflight)) .run false

/-- The only upload goes on. -/
theorem Tracked.goOn (h : Tracked m) {u : Upload} (u' : Upload) (hu : m.uploads = [u])
    (hcaller : u'.caller = u.caller) {server : Option Nat}
    (hnew : ∀ v, u'.stage.version = some v → v ≤ m.version ∧ m.flushed ≤ v)
    (hstored : ∀ v, u'.stage = .stored v → server = some v)
    (hcovers : u.Covers m.scheduled → u'.Covers m.scheduled) :
    Tracked { m with uploads := [u'], server } := by
  refine ⟨?_, ?_, h.known, ?_, ?_, nofun, ?_⟩
  · have := h.flag
    simp only [hu] at this
    simpa using this
  · intro a b c hcons
    cases hcons
  · intro a ha
    rw [List.mem_singleton.mp ha]
    exact hnew
  · intro a ha
    rw [List.mem_singleton.mp ha]
    exact hstored
  · rcases h.covered with ht | ⟨hp, hr | ⟨a, ha, hrun⟩⟩ | ⟨a, ha, hc⟩ | ⟨hnil, -⟩
    · exact .inl ht
    · exact .inr (.inl ⟨hp, .inl hr⟩)
    · rw [hu] at ha
      rw [List.mem_singleton.mp ha] at hrun
      exact .inr (.inl ⟨hp, .inr ⟨u', List.mem_singleton_self u', hcaller.trans hrun⟩⟩)
    · rw [hu] at ha
      rw [List.mem_singleton.mp ha] at hc
      exact .inr (.inr (.inl ⟨u', List.mem_singleton_self u', hcovers hc⟩))
    · rw [hu] at hnil
      cases hnil

/-- A position in a list of one. -/
theorem getElem?_singleton_eq {u u' : Upload} {k : Nat} (h : ([u] : List Upload)[k]? = some u') :
    k = 0 ∧ u' = u := by
  cases k with
  | zero =>
    cases h
    exact ⟨rfl, rfl⟩
  | succ k => cases h

/-- The only upload is over. -/
theorem Tracked.finish (h : Tracked m) {u : Upload} {ok : Bool} (hu : m.uploads = [u])
    (hok : ok = true → ∃ v, u.stage = .stored v) :
    Tracked { m with
      inFlight := false
      uploads := []
      lastSucceeded := ok
      returning := if u.caller = .run then m.returning + 1 else m.returning
      flushed := if u.caller = .flush then max m.flushed (u.stage.version.getD 0)
        else m.flushed } := by
  have hmem : u ∈ m.uploads := hu ▸ List.mem_singleton_self u
  have hlast : ok = true → ∃ v, m.server = some v ∧ u.stage.version = some v := by
    intro h'
    obtain ⟨v, hv⟩ := hok h'
    exact ⟨v, h.stored u hmem v hv, by rw [hv]; rfl⟩
  have hflushed : ∀ n, m.flushed ≤ n → (∀ v, u.stage.version = some v → v ≤ n) →
      (if u.caller = .flush then max m.flushed (u.stage.version.getD 0) else m.flushed) ≤ n := by
    intro n hn hv
    split
    · refine Nat.max_le.mpr ⟨hn, ?_⟩
      cases hver : u.stage.version with
      | none => exact Nat.zero_le n
      | some v => exact hv v hver
    · exact hn
  refine ⟨by simp, nofun, ⟨h.known.1, ?_⟩, ?_, ?_, fun _ h' => ?_, ?_⟩
  · exact hflushed m.version h.known.2 fun v hv => (h.exported u hmem v hv).1
  · intro a ha
    cases ha
  · intro a ha
    cases ha
  · obtain ⟨v, hv, hver⟩ := hlast h'
    refine ⟨v, hv, hflushed v (h.exported u hmem v hver).2 fun v' hv' => ?_⟩
    rw [hver] at hv'
    cases hv'
    exact Nat.le_refl v
  · rcases h.covered with ht | ⟨hp, hr | ⟨a, ha, hrun⟩⟩ | ⟨a, ha, hc⟩ | ⟨hnil, -⟩
    · exact .inl ht
    · refine .inr (.inl ⟨hp, .inl ?_⟩)
      simp only
      split
      · exact Nat.succ_ne_zero _
      · exact hr
    · rw [hu] at ha
      rw [List.mem_singleton.mp ha] at hrun
      refine .inr (.inl ⟨hp, .inl ?_⟩)
      simp only [hrun, if_true]
      exact Nat.succ_ne_zero _
    · rw [hu] at ha
      rw [List.mem_singleton.mp ha] at hc
      refine .inr (.inr (.inr ⟨rfl, fun h' => ?_⟩))
      obtain ⟨v, hv, hver⟩ := hlast h'
      exact ⟨v, hv, hc v hver⟩
    · rw [hu] at hnil
      cases hnil

/-- A run goes on after its upload: the work that was left to it is scheduled. -/
theorem Tracked.resume (h : Tracked m) (hstopped : m.stopped = false) :
    Tracked (resumeRun { m with returning := m.returning - 1 }) := by
  unfold resumeRun
  split
  · unfold Vss.schedule
    split
    · rename_i ht
      simp only [hstopped, Bool.false_or] at ht
      exact ⟨h.flag, h.single, h.known, h.exported, h.stored, h.flushed, .inl ht⟩
    · exact ⟨h.flag, h.single, h.known, h.exported, h.stored, h.flushed, .inl rfl⟩
  · rename_i hp
    simp only [hstopped, Bool.not_false, Bool.and_true] at hp
    refine ⟨h.flag, h.single, h.known, h.exported, h.stored, h.flushed, ?_⟩
    rcases h.covered with ht | ⟨hp', -⟩ | hc | hd
    · exact .inl ht
    · exact absurd hp' hp
    · exact .inr (.inr (.inl hc))
    · exact .inr (.inr (.inr hd))

theorem Tracked.step {a : Action} (h : Tracked m) (hs : serial a m = true)
    (hstopped : m.stopped = false) (hm : step a m = some m') (hlive : m'.stopped = false) :
    Tracked m' := by
  cases a with
  | advance =>
    cases hm
    exact ⟨h.flag, h.single, ⟨Nat.le_succ_of_le h.known.1, Nat.le_succ_of_le h.known.2⟩,
      fun u hu v hv => ⟨Nat.le_succ_of_le (h.exported u hu v hv).1, (h.exported u hu v hv).2⟩,
      h.stored, h.flushed, h.covered⟩
  | schedule =>
    cases hm
    unfold Vss.schedule
    split
    · rename_i ht
      simp only [hstopped, Bool.false_or] at ht
      exact ⟨h.flag, h.single, ⟨Nat.le_refl _, h.known.2⟩, h.exported, h.stored, h.flushed, .inl ht⟩
    · exact h.armed (Nat.le_refl _)
  | fire =>
    simp only [Vss.step] at hm
    split at hm
    · cases hm
      exact h.fire hs hstopped
    · cases hm
  | flush =>
    cases hm
    unfold Vss.flush
    rw [if_neg (by simp [hstopped])]
    exact h.upload (List.isEmpty_iff.mp hs) .flush false
  | takeExport k =>
    simp only [Vss.step] at hm
    split at hm
    · rename_i caller hk
      cases hm
      rcases h.uploads with hnil | ⟨u, hu⟩
      · rw [hnil] at hk
        cases hk
      · rw [hu] at hk
        obtain ⟨rfl, rfl⟩ := getElem?_singleton_eq hk
        rw [hu, List.set_cons_zero]
        refine h.goOn ⟨caller, .putting m.version⟩ hu rfl ?_ nofun fun _ v hv => ?_
        · rintro v ⟨⟩
          exact ⟨Nat.le_refl _, h.known.2⟩
        · cases hv
          exact h.known.1
    · cases hm
  | land k =>
    simp only [Vss.step] at hm
    split at hm
    · rename_i caller v hk
      cases hm
      rcases h.uploads with hnil | ⟨u, hu⟩
      · rw [hnil] at hk
        cases hk
      · rw [hu] at hk
        obtain ⟨rfl, rfl⟩ := getElem?_singleton_eq hk
        rw [hu, List.set_cons_zero]
        refine h.goOn ⟨caller, .stored v⟩ hu rfl (fun v' hv => ?_) (fun v' hv => ?_) fun hc => hc
        · exact h.exported ⟨caller, .putting v⟩ (hu ▸ List.mem_singleton_self _) v' hv
        · cases hv
          rfl
    · cases hm
  | finish k ok =>
    simp only [Vss.step] at hm
    split at hm
    · rename_i u' hk
      split at hm
      · cases hm
      · rename_i hok
        cases hm
        rcases h.uploads with hnil | ⟨u, hu⟩
        · rw [hnil] at hk
          cases hk
        · rw [hu] at hk
          obtain ⟨rfl, rfl⟩ := getElem?_singleton_eq hk
          rw [hu, List.eraseIdx_cons_zero]
          refine h.finish hu fun h' => ?_
          cases hst : u'.stage with
          | stored v => exact ⟨v, rfl⟩
          | exporting => simp [h', hst, Stage.landed] at hok
          | putting v => simp [h', hst, Stage.landed] at hok
    · cases hm
  | resume =>
    simp only [Vss.step] at hm
    split at hm
    · cases hm
      exact h.resume hstopped
    · cases hm
  | stop =>
    cases hm
    cases hlive

theorem stopped_of_step {a : Action} (hm : step a m = some m') (hlive : m'.stopped = false) :
    m.stopped = false := by
  cases a with
  | stop =>
    cases hm
    cases hlive
  | _ =>
    simp only [Vss.step, Vss.schedule, run, Vss.flush, Vss.upload, resumeRun] at hm
    (repeat' split at hm) <;> simp_all <;> (subst hm; simp_all)

/-! ## Runs -/

/-- In every run with one upload at a time, the replica has caught up once the mirror is
quiescent and its last upload succeeded. -/
theorem converged_of_serial (m : Mirror)
    (hrun : Steps step (fun a t => serial a t = true) {} m) (hstopped : m.stopped = false)
    (hq : Quiescent m) (hok : m.lastSucceeded = true) : Converged m := by
  have h : m.stopped = false → Tracked m := by
    refine hrun.invariant (I := fun m => m.stopped = false → Tracked m) (fun _ => ?_)
      fun a t t' ht hs hm hlive => ?_
    · refine ⟨by simp, nofun, ⟨Nat.le_refl 0, Nat.le_refl 0⟩, ?_, ?_, nofun,
        .inr (.inr (.inr ⟨rfl, nofun⟩))⟩
      all_goals
        intro u hu
        cases hu
    · have hlive' := stopped_of_step hm hlive
      exact (ht hlive').step hs hlive' hm hlive
  exact (h hstopped).converged hq hok

/-- A state is scheduled, uploaded by the timer, and flushed once more. -/
theorem converged_of_serial_flushed : ∃ m, Steps step (fun a t => serial a t = true) {} m ∧
    m.scheduled = 1 ∧ m.flushed = 2 ∧ Converged m := by
  obtain ⟨m, hrun, hm⟩ := Steps.exists_of_play step serial {}
    [.advance, .schedule, .fire, .takeExport 0, .land 0, .finish 0 true, .resume, .advance, .flush,
      .takeExport 0, .land 0, .finish 0 true]
    (fun m => m.scheduled = 1 ∧ m.flushed = 2 ∧ m.stopped = false ∧ m.timer = false ∧
      m.uploads = [] ∧ m.returning = 0 ∧ m.lastSucceeded = true) (by decide +kernel)
  simp only [decide_eq_true_eq] at hm
  obtain ⟨hsched, hflush, hstopped, htimer, hup, hret, hok⟩ := hm
  exact ⟨m, hrun, hsched, hflush, converged_of_serial m hrun hstopped ⟨htimer, hup, hret⟩ hok⟩

/-- The timer fires while a flush is uploading an older state: the run leaves the work to a
caller that never looks at it. -/
theorem not_converged_after_flush : ∃ m, Steps step (fun _ _ => True) {} m ∧
    m.stopped = false ∧ Quiescent m ∧ m.lastSucceeded = true ∧ ¬ Converged m := by
  obtain ⟨m, hrun, hm⟩ := Steps.exists_of_play step (fun _ _ => true) {}
    [.flush, .takeExport 0, .advance, .schedule, .fire, .land 0, .finish 0 true]
    (fun m => m.stopped = false ∧ m.timer = false ∧ m.uploads = [] ∧ m.returning = 0 ∧
      m.lastSucceeded = true ∧ m.server = some 0 ∧ m.scheduled = 1) (by decide +kernel)
  simp only [decide_eq_true_eq] at hm
  obtain ⟨hstopped, htimer, hup, hret, hok, hserver, hsched⟩ := hm
  refine ⟨m, hrun.mono fun _ _ _ => trivial, hstopped, ⟨htimer, hup, hret⟩, hok, ?_⟩
  rintro ⟨v, hv, hle, -⟩
  rw [hserver] at hv
  cases hv
  rw [hsched] at hle
  exact absurd hle (by decide)

end LibreWallet.Vss
