import LibreWallet.Embed.Confirmation
import LibreWallet.Embed.Retry
import LibreWallet.Roaming.Code

/-
  Embed/Dispose.lean --- `dispose` while a call of the session is pending.

  `dispose` stops the node and the heartbeat that it finds, and marks the session; a boot, a
  takeover or a restore that is pending never asks for the mark.  It releases the lease with the
  session's own token in it, which the call's confirmation read takes for a lease it still holds.
  Nor does the controller ask for it when it tries a start again.
-/

set_option autoImplicit false

namespace LibreWallet.Embed.Dispose

open Async Controller Roaming

/-! ## The vocabulary -/

/-- No node runs in the page, no heartbeat is installed, and `running` is not shown. -/
structure Down (t : String) (w : World) : Prop where
  node : ¬ w.Runs t
  timer : (w.pages t).heartbeatTimer = none
  view : (w.pages t).view ≠ .running

/-- The controller has started the node. -/
def starts (q : Request) (r : Except Err (Answer q)) : Bool := startsNode q && r.isOk

def started (e : RoamEntry) : Bool := starts e.request e.answer

/-- The event calls a method of the session of `t` that may start its node. -/
def callsOf (t : String) : Event → Bool
  | .boot u | .moveHere u _ | .submitSecret u _ | .forceRestoreAnyway u => decide (u = t)
  | _ => false

/-- The calls of the session are made before it is disposed of. -/
def Overlapping (t : String) (l : EmbedLabel) (c : EmbedConfig) : Prop :=
  ∀ e, l = .event e → callsOf t e = true → (c.world.pages t).disposed = false

/-- Everything that the page of `t` had called has come to its end. -/
def Settled (t : String) (c : EmbedConfig) : Prop :=
  ∀ (i : Nat) (j : Job) (p : Roam Unit), c.pool[i]? = some (j, p) → j.token = t → p.Ended

/-- `dispose` comes before the start: it finds no node and does not find `running`, no pending call has
had its node started, and whatever start a pending call still asks for is refused. -/
structure BeforeStart (t : String) (l : EmbedLabel) (c : EmbedConfig) : Prop where
  early : l = .event (.dispose t) → ¬ c.world.Runs t ∧ (c.world.pages t).view ≠ .running ∧
    ∀ (i : Nat) (j : Job) (p : Roam Unit), c.pool[i]? = some (j, p) → j.token = t → ¬ p.Ended →
      ∀ e ∈ c.history i, started e = false
  refused : (c.world.pages t).disposed = true → ∀ (i : Nat) (ch : Choice) (j : Job) (q : Request)
    (r : Except Err (Answer q)) (w : World), l = .call i ch → c.awaits i = some (j, q) → j.token = t →
      exec t q ch c.world = some (r, w) → starts q r = false

/-- And so is whatever start the page's controller tries again. -/
structure StartsBefore (t : String) (m : Move) (s : Controlled) : Prop where
  embed : m.meets (BeforeStart t) s
  retried : (s.config.world.pages t).disposed = true → ∀ (ch : Choice) (r : Except Err Unit) (w : World),
    m = .retry t ch → exec t .startNode ch s.config.world = some (r, w) → r.isOk = false

/-! ## What the session's code does -/

/-- Synchronous code that leaves the mark of `dispose`, installs no heartbeat and does not show
`running`. -/
structure Lowers (t : String) (w w' : World) : Prop where
  disposed : (w'.pages t).disposed = (w.pages t).disposed
  timer : (w.pages t).heartbeatTimer = none → (w'.pages t).heartbeatTimer = none
  view : (w.pages t).view ≠ .running → (w'.pages t).view ≠ .running

/-- Synchronous code that leaves the mark of `dispose`. -/
def Latches (t : String) (w w' : World) : Prop := (w'.pages t).disposed = (w.pages t).disposed

variable {t : String} {u v w : World}

namespace Lowers

theorem refl (w : World) : Lowers t w w := ⟨rfl, id, id⟩

theorem trans (h₁ : Lowers t u v) (h₂ : Lowers t v w) : Lowers t u w :=
  ⟨h₂.disposed.trans h₁.disposed, fun ht => h₂.timer (h₁.timer ht), fun hv => h₂.view (h₁.view hv)⟩

theorem setPage {f : Page → Page} (hd : ∀ p, (f p).disposed = p.disposed)
    (ht : ∀ p, p.heartbeatTimer = none → (f p).heartbeatTimer = none)
    (hv : ∀ p, (f p).view = p.view ∨ (f p).view ≠ .running) : Lowers t w (w.setPage t f) where
  disposed := by rw [World.setPage_self, hd]
  timer := by
    rw [World.setPage_self]
    exact ht _
  view := by
    rw [World.setPage_self]
    rcases hv (w.pages t) with h | h
    · rw [h]
      exact id
    · exact fun _ => h

theorem latches (h : Lowers t v w) : Latches t v w := h.disposed

end Lowers

theorem latches_setPage {f : Page → Page} (hd : ∀ p, (f p).disposed = p.disposed) :
    Latches t w (w.setPage t f) := by
  rw [Latches, World.setPage_self, hd]

/-- Code of the page of `t` that shows `running` only once a start has succeeded. -/
abbrev Staged (t : String) (α : Type) (p : Roam α) : Prop :=
  p.Staged starts (Lowers t) (Latches t)

theorem staged_of_within {α : Type} {p : Roam α} (hp : p.Within (Lowers t)) : Staged t α p :=
  ⟨.of_within hp fun _ _ h => h.latches, hp.mono fun _ _ h => h.latches⟩

theorem staged_modify {f : World → World} (hf : ∀ w, Lowers t w (f w)) : Staged t Unit (.modify f) :=
  staged_of_within (.modify hf)

/-- What a call does before its node runs. -/
theorem called_staged : Called t (Staged t) where
  closed := Proc.Staged.closed Lowers.refl fun _ => rfl
  ask := fun q _ => ⟨.request q, .request q⟩
  view := fun _ hv => staged_modify fun _ => .setPage (fun _ => rfl) (fun _ h => h)
    fun _ => .inr (of_decide_eq_true hv)
  stop := staged_modify fun _ => .setPage (fun _ => rfl) (fun _ _ => rfl) fun _ => .inl rfl
  update := fun _ hf => staged_modify fun _ => .setPage (fun p => (hf p).disposed)
    (fun p h => (hf p).timer.trans h) fun p => (hf p).view
  note := fun _ => staged_modify fun _ => ⟨rfl, id, id⟩

/-- Whatever the session does leaves the mark of `dispose`. -/
theorem coded_latches : Coded t (fun _ p => p.Within (Latches t)) (fun _ => true) fun _ => true where
  closed := Proc.Within.closed fun _ => rfl
  ask := fun q _ => .request q
  view := fun _ _ => .modify fun _ => latches_setPage fun _ => rfl
  stop := .modify fun _ => latches_setPage fun _ => rfl

theorem nowRunning_latches : (nowRunning t).Within (Latches t) :=
  coded_latches.nowRunning rfl (.modify fun _ => latches_setPage fun _ => rfl)

theorem startGuarded_latches (skipStart : Bool) : (startGuarded t skipStart).Within (Latches t) := by
  refine coded_latches.startGuarded skipStart (fun _ => rfl) rfl (fun _ => rfl) (fun _ _ => rfl) rfl
    (fun _ => rfl) rfl (fun _ => nowRunning_latches) fun _ g hfailed hstarted => ?_
  refine (Proc.Within.request _).attempt.bind fun started => ?_
  cases started with
  | error e =>
    rw [hfailed]
    exact coded_latches.view _ rfl
  | ok u =>
    rw [hstarted]
    exact nowRunning_latches

/-- The node has to be started before the session shows that it runs. -/
theorem startGuarded_staged : Staged t Unit (startGuarded t false) := by
  refine called_staged.toCoded.startGuarded false (fun _ => rfl) rfl (fun _ => rfl) (fun _ _ => rfl) rfl
    (fun _ => rfl) rfl (fun h => by cases h) fun _ g hfailed hstarted => ?_
  have hshown : ∀ e, Staged t Unit (g (.error e)) := by
    intro e
    rw [hfailed]
    exact called_staged.setView fun h => by cases h
  have hwhole : ∀ r, (g r).Within (Latches t) := by
    intro r
    cases r with
    | error e => exact (hshown e).whole
    | ok u =>
      rw [hstarted]
      exact nowRunning_latches
  refine ⟨.request_attempt_bind (fun r hr => ?_) fun r _ => hwhole r,
    (Proc.Within.request _).attempt.bind hwhole⟩
  cases r with
  | error e => exact (hshown e).first
  | ok u => cases hr

/-- The restore has to start the node before the session goes on to show that it runs. -/
theorem restoreProven_staged (envelope : Envelope) (secret : String) :
    Staged t Unit (restoreProven t envelope secret) := by
  have hshown : ∀ e : Err, Staged t Unit (setView t (.halted .restoreFailed e.message none)) :=
    fun e => called_staged.setView fun h => by cases h
  have hgo : ((updatePage t fun p => { p with pendingRestoreEnvelope := none }).bind fun _ =>
      startGuarded t true).Within (Latches t) :=
    Proc.Within.bind (.modify fun _ => latches_setPage fun _ => rfl) fun _ => startGuarded_latches true
  refine ⟨.request_attempt_bind (fun r hr => ?_) fun r _ => ?_,
    (Proc.Within.request _).attempt.bind fun r => ?_⟩
  · cases r with
    | error e => exact (hshown e).first
    | ok u => cases hr
  · cases r with
    | error e => exact (hshown e).whole
    | ok u => exact hgo
  · cases r with
    | error e => exact (hshown e).whole
    | ok u => exact hgo

theorem noteFailure_staged : Staged t Bool (noteFailure t) := by
  refine called_staged.closed.bind called_staged.closed.get fun w => ?_
  refine called_staged.closed.bind (staged_modify fun _ => .setPage (fun _ => rfl) (fun p hp => ?_)
    fun _ => .inl rfl) fun _ => called_staged.closed.done _
  dsimp only
  split
  · rfl
  · exact hp

theorem continueClaimed_staged : Staged t Unit (continueClaimed t) :=
  called_staged.continueClaimed (fun _ => staged_modify fun _ => .setPage (fun _ => rfl) (fun _ h => h)
    fun _ => .inr fun h => by cases h) startGuarded_staged

/-! ## The hooks -/

section

variable {Φ : ∀ α : Type, Roam α → Prop}

theorem refreshLocalVersion_called (hC : Called t Φ) : Φ _ (refreshLocalVersion t) := by
  have h := hC.closed
  refine h.bind (h.attempt (hC.ask .readLocal rfl)) fun read => ?_
  split
  · exact hC.update _ fun _ => ⟨rfl, rfl, rfl, rfl, .inl rfl⟩
  · exact h.done _

theorem onControllerEvent_called (hC : Called t Φ) (harm : Φ _ (armSync t)) (changed connected : Bool) :
    Φ _ (onControllerEvent t changed connected) := by
  have h := hC.closed
  refine h.bind h.get fun w => ?_
  dsimp only
  split
  · exact h.bind harm fun _ => refreshLocalVersion_called hC
  · exact refreshLocalVersion_called hC

theorem closeSoon_called (hC : Called t Φ) : Φ _ (closeSoon t) := by
  have h := hC.closed
  refine h.bind h.get fun w => ?_
  split
  · refine h.bind (hC.update _ fun _ => ⟨rfl, rfl, rfl, rfl, .inl rfl⟩) fun _ => ?_
    refine h.bind (h.attempt (h.bind (hC.ask .readLocal rfl) fun l => ?_)) fun _ => h.done _
    refine h.bind (hC.update _ fun _ => ⟨rfl, rfl, rfl, rfl, .inl rfl⟩) fun _ => h.bind h.get fun w => ?_
    dsimp only
    split
    · refine h.bind hC.flushTracked fun _ => h.bind h.get fun w => ?_
      exact hC.release _ _
    · exact h.bind h.get fun w => hC.release _ _
  · exact h.done _

/-- Every handler, by what its call does past the claim. -/
theorem handler_called {e : Event} {j : Job} {p : Roam Unit} (hC : Called j.token Φ)
    (hh : handler e = some (j, p)) (harm : Φ _ (armSync j.token)) (hfailure : Φ _ (noteFailure j.token))
    (hcontinue : boots j.verb = true → Φ _ (continueClaimed j.token))
    (hsubmit : ∀ secret, e = .submitSecret j.token secret → Φ _ (submitSecret j.token secret))
    (hdispose : e = .dispose j.token → Φ _ (dispose j.token)) : Φ _ p := by
  have h := hC.closed
  cases e with
  | pass ms => cases hh
  | openPage t o a => cases hh
  | closePage t => cases hh
  | advance t => cases hh
  | boot t =>
    cases hh
    exact hC.boot (hcontinue rfl)
  | moveHere t polls =>
    cases hh
    exact hC.moveHere (hcontinue rfl) polls
  | submitSecret t secret =>
    cases hh
    exact hsubmit secret rfl
  | forceRestoreAnyway t =>
    cases hh
    exact hC.forceRestoreAnyway (hcontinue rfl)
  | dispose t =>
    cases hh
    exact hdispose rfl
  | hidden t =>
    cases hh
    exact closeSoon_called hC
  | pageHide t =>
    cases hh
    exact h.bind h.get fun w => hC.toCoded.releaseSyncKeepalive _ _ fun _ _ => rfl
  | heartbeat t =>
    cases hh
    exact hC.tick hfailure
  | syncFires t =>
    cases hh
    exact h.bind (h.attempt hC.flushTracked) fun _ => h.done _
  | controllerEvent t changed connected =>
    cases hh
    exact onControllerEvent_called hC harm changed connected

end

/-- Every handler but `dispose`. -/
theorem handler_staged {e : Event} {j : Job} {p : Roam Unit} (hh : handler e = some (j, p))
    (hne : e ≠ .dispose j.token) : Staged j.token Unit p :=
  handler_called called_staged hh
    (staged_modify fun _ => .setPage (fun _ => rfl) (fun _ hp => hp) fun _ => .inl rfl)
    noteFailure_staged (fun _ => continueClaimed_staged)
    (fun secret _ => called_staged.submitSecret restoreProven_staged secret) fun he => absurd he hne

/-- What `dispose` does at once. -/
def marked (t : String) (w : World) : World :=
  w.setPage t fun p => { p with disposed := true, heartbeatTimer := none }

/-- What `dispose` goes on to do. -/
def releasing (t : String) : Roam Unit := do
  let w ← .get
  let _ ← (if (w.pages t).view = .running then disposeRunning t else release t none none).attempt
  setView t .stopped

theorem dispose_advance (w : World) : (dispose t).advance w = (releasing t).advance (marked t w) := rfl

theorem releasing_staged : Staged t Unit (releasing t) := by
  have h := (called_staged (t := t)).closed
  refine h.bind h.get fun w => h.bind (h.attempt ?_) fun _ => called_staged.setView fun h => by cases h
  split
  · exact called_staged.disposeRunning
  · exact called_staged.release none none

/-! ## What a step does to the page -/

/-- A request that does not start the node leaves none running. -/
theorem runs_of_exec {q : Request} {ch : Choice} {r : Except Err (Answer q)}
    (he : exec t q ch w = some (r, v)) (hs : starts q r = false) (hr : v.Runs t) : w.Runs t := by
  rcases (exec_frame he).runs with hq | hruns
  · cases r with
    | ok a =>
      rw [starts, hq] at hs
      cases hs
    | error err =>
      cases q with
      | startNode =>
        simp only [exec, World.act, Option.some.injEq, Prod.mk.injEq] at he
        obtain ⟨hans, rfl⟩ := he
        rw [World.Runs, World.setNode_self] at hr
        cases hn : startNode (walletStart t (decide (ch = .ok))) embedFetched (w.node t) with
        | mk r n =>
          rw [hn] at hans hr
          cases r with
          | ok u => cases hans
          | error e => exact startNode_error hn hr
      | restore envelope secret =>
        simp only [exec, World.act, Option.some.injEq, Prod.mk.injEq] at he
        obtain ⟨hans, rfl⟩ := he
        rw [World.Runs, World.note_pages, World.setNode_self] at hr
        cases hn : restoreWallet (walletStart t (decide (ch = .ok))) (w.node t) envelope secret with
        | mk r n =>
          rw [hn] at hans hr
          cases r with
          | ok u => cases hans
          | error e => exact restoreWallet_error hn hr
      | _ => cases hq
  · exact hruns hr

/-- A request leaves everything of the page but its node. -/
theorem page_of_exec {u : String} {q : Request} {ch : Choice} {r : Except Err (Answer q)}
    (he : exec u q ch w = some (r, v)) :
    (v.pages t).disposed = (w.pages t).disposed ∧
      (v.pages t).heartbeatTimer = (w.pages t).heartbeatTimer ∧
      (v.pages t).view = (w.pages t).view ∧ (u ≠ t → v.pages t = w.pages t) := by
  have hf := exec_frame he
  by_cases hu : t = u
  · subst hu
    rw [hf.page]
    exact ⟨rfl, rfl, rfl, fun h => absurd rfl h⟩
  · rw [hf.others t hu]
    exact ⟨rfl, rfl, rfl, fun _ => rfl⟩

/-- An event installs no heartbeat. -/
theorem timer_of_effect {e : Event} (he : effect e w = some v)
    (ht : (w.pages t).heartbeatTimer = none) : (v.pages t).heartbeatTimer = none := by
  have hset : ∀ (u : String) (f : Page → Page), (u = t → (f (w.pages u)).heartbeatTimer = none) →
      ((w.setPage u f).pages t).heartbeatTimer = none := by
    intro u f hf
    by_cases hu : t = u
    · subst hu
      rw [World.setPage_self]
      exact hf rfl
    · rw [World.setPage_of_ne _ _ _ hu]
      exact ht
  cases e with
  | pass ms =>
    cases he
    exact ht
  | openPage u origin appName =>
    simp only [effect, Option.ite_none_right_eq_some, Option.some.injEq] at he
    rw [← he.2]
    exact hset u _ fun _ => rfl
  | closePage u =>
    simp only [effect, Option.ite_none_right_eq_some, Option.some.injEq] at he
    rw [← he.2]
    have hpages : (died w u).pages = Function.update w.pages u { w.pages u with
        status := .closed, wallet := .absent, heartbeatTimer := none, syncTimer := none } := by
      simp only [died]
      split <;> rfl
    rw [hpages]
    by_cases hu : t = u
    · rw [hu, Function.update_self]
    · rw [Function.update_of_ne hu]
      exact ht
  | heartbeat u =>
    simp only [effect] at he
    split at he
    · rename_i due hdue
      simp only [Option.ite_none_right_eq_some, Option.some.injEq] at he
      rw [← he.2]
      refine hset u _ fun hu => ?_
      rw [hu, ht] at hdue
      cases hdue
    · cases he
  | syncFires u =>
    simp only [effect] at he
    split at he
    · simp only [Option.ite_none_right_eq_some, Option.some.injEq] at he
      rw [← he.2]
      refine hset u _ fun hu => ?_
      rw [hu]
      exact ht
    · cases he
  | _ =>
    simp only [effect, Option.ite_none_right_eq_some, Option.some.injEq] at he
    rw [← he.2]
    exact ht

/-- An event leaves a page that is down as it is. -/
theorem down_of_effect {e : Event} (he : effect e w = some v) (hw : Down t w) : Down t v where
  node := fun hr => hw.node ((effect_frame he).runs t hr)
  timer := timer_of_effect he hw.timer
  view := by
    rcases (effect_frame he).page t with ⟨h, -⟩ | ⟨origin, appName, -, -, h⟩
    · rw [h]
      exact hw.view
    · rw [h]
      exact fun hv => by cases hv

/-- Only `dispose` marks the session. -/
theorem disposed_of_effect {e : Event} (he : effect e w = some v) (hd : (v.pages t).disposed = true) :
    (w.pages t).disposed = true := by
  rcases (effect_frame he).page t with ⟨h, -⟩ | ⟨origin, appName, -, -, h⟩
  · rw [h] at hd
    exact hd
  · rw [h] at hd
    cases hd

/-- Code of the page that lowers it leaves it down. -/
theorem Down.lowers (hw : Down t w) (hl : Lowers t w v) (hwallet : (v.pages t).wallet = (w.pages t).wallet) :
    Down t v where
  node := by
    rw [World.Runs, hwallet]
    exact hw.node
  timer := hl.timer hw.timer
  view := hl.view hw.view

theorem Down.of_page (hw : Down t w) (hp : v.pages t = w.pages t) : Down t v where
  node := by
    rw [World.Runs, hp]
    exact hw.node
  timer := by
    rw [hp]
    exact hw.timer
  view := by
    rw [hp]
    exact hw.view

/-! ## Every run -/

/-- The procedures of the page have not come past a start. -/
def Unstarted (t : String) (pool : List (Job × Roam Unit)) : Prop :=
  ∀ x ∈ pool, x.1.token = t → x.2.Until starts (Lowers t) (Latches t)

/-- A procedure of the page that has come past a start has had it answered. -/
def StagedPool (t : String) (c : EmbedConfig) : Prop :=
  ∀ (i : Nat) (j : Job) (p : Roam Unit), c.pool[i]? = some (j, p) → j.token = t →
    p.Within (Latches t) ∧
      (p.Until starts (Lowers t) (Latches t) ∨ ∃ e ∈ c.history i, started e = true)

/-- What holds along a run: once the session is disposed of, the page is down and none of its procedures
has come past a start. -/
structure Inv (t : String) (c : EmbedConfig) : Prop where
  staged : StagedPool t c
  down : (c.world.pages t).disposed = true → Down t c.world ∧ Unstarted t c.pool

theorem until_of_ended {p : Roam Unit} (hp : p.Ended) : p.Until starts (Lowers t) (Latches t) := by
  cases p with
  | done a => trivial
  | fail e => trivial
  | sync f k => cases hp
  | await q k => cases hp

variable {l : EmbedLabel} {c c' : EmbedConfig}

/-- Where `dispose` comes before the start. -/
theorem Inv.unstarted (hI : Inv t c)
    (hearly : ∀ (i : Nat) (j : Job) (p : Roam Unit), c.pool[i]? = some (j, p) → j.token = t → ¬ p.Ended →
      ∀ e ∈ c.history i, started e = false) : Unstarted t c.pool := by
  intro x hx htoken
  obtain ⟨i, hi⟩ := List.mem_iff_getElem?.mp hx
  by_cases hended : x.2.Ended
  · exact until_of_ended hended
  · rcases (hI.staged i x.1 x.2 hi htoken).2 with h | ⟨e, he, hs⟩
    · exact h
    · rw [hearly i x.1 x.2 hi htoken hended e he] at hs
      cases hs

/-- The code that an event calls. -/
theorem called_of_event {e : Event} {j : Job} {p : Roam Unit} {w' : World}
    (he : embed.event e w = some (w', some (j, p))) :
    effect e w = some w' ∧ handler e = some (j, p) := by
  simp only [embed, Option.map_eq_some_iff, Prod.mk.injEq] at he
  obtain ⟨w'', heff, rfl, hh⟩ := he
  exact ⟨heff, hh⟩

/-- What a handler is after its synchronous code, and what that has done. -/
theorem called_advance {e : Event} {j : Job} {p : Roam Unit} (hh : handler e = some (j, p)) (w : World) :
    ∃ w', (w' = w ∨ e = .dispose j.token ∧ w' = marked j.token w) ∧
      Lowers j.token w' (p.advance w).1 ∧ Staged j.token Unit (p.advance w).2 := by
  by_cases hne : e = .dispose j.token
  · subst hne
    simp only [handler, Option.some.injEq, Prod.mk.injEq] at hh
    obtain ⟨-, rfl⟩ := hh
    have hs : Staged j.token Unit (releasing j.token) := releasing_staged
    refine ⟨marked j.token w, .inr ⟨rfl, rfl⟩, ?_⟩
    rw [dispose_advance]
    exact ⟨(hs.first.advance Lowers.refl (fun _ _ _ => Lowers.trans) _).1,
      (hs.first.advance Lowers.refl (fun _ _ _ => Lowers.trans) _).2,
      (hs.whole.advance (fun _ => rfl) (fun _ _ _ h₁ h₂ => h₂.trans h₁) _).2⟩
  · have hs := handler_staged hh hne
    exact ⟨w, .inl rfl, (hs.first.advance Lowers.refl (fun _ _ _ => Lowers.trans) _).1,
      (hs.first.advance Lowers.refl (fun _ _ _ => Lowers.trans) _).2,
      (hs.whole.advance (fun _ => rfl) (fun _ _ _ h₁ h₂ => h₂.trans h₁) _).2⟩

/-- One step keeps where each procedure of the page stands. -/
theorem staged_step (hc : protocol.Sound c) (hI : StagedPool t c) (hd : protocol.Did l c c') :
    StagedPool t c' := by
  intro i j p hi ht
  cases hd.went hc hi with
  | stayed hold hhist =>
    rw [hhist]
    exact hI i j p hold ht
  | @answered q k r hold hhist =>
    obtain ⟨hwithin, huntil⟩ := hI i j _ hold ht
    refine ⟨hwithin r, ?_⟩
    rw [hhist]
    rcases huntil with huntil | ⟨e, he, hs⟩
    · cases ho : starts q r with
      | true => exact .inr ⟨_, List.mem_cons_self .., ho⟩
      | false =>
        have hr := huntil r
        rw [ho, if_neg Bool.false_ne_true] at hr
        exact .inl hr
    · exact .inr ⟨e, List.mem_cons_of_mem _ he, hs⟩
  | @resumed p' hold hhist =>
    obtain ⟨hwithin, huntil⟩ := hI i j _ hold ht
    refine ⟨(hwithin.advance (fun _ => rfl) (fun _ _ _ h₁ h₂ => h₂.trans h₁) _).2, ?_⟩
    rw [hhist]
    exact huntil.imp_left fun h => (h.advance Lowers.refl (fun _ _ _ => Lowers.trans) _).2
  | called hl he hhist =>
    obtain ⟨-, hh⟩ := called_of_event he
    subst ht
    obtain ⟨-, -, -, hs⟩ := called_advance hh _
    exact ⟨hs.whole, .inl hs.first⟩

/-- One step after `dispose`, and `dispose` itself. -/
theorem down_step (hI : Inv t c) (hl : BeforeStart t l c) (hd : protocol.Did l c c')
    (hdis : (c'.world.pages t).disposed = true) : Down t c'.world ∧ Unstarted t c'.pool := by
  cases hd with
  | call i ch j q k r hlabel hi _ he _ hpool _ =>
    obtain ⟨hdisposed, htimer, hview, hother⟩ := page_of_exec (t := t) he
    rw [hdisposed] at hdis
    obtain ⟨hdown, hun⟩ := hI.down hdis
    have hrefused : j.token = t → starts q r = false := fun ht =>
      hl.refused hdis i ch j q r c'.world hlabel (by simp [Config.awaits, hi]) ht (ht ▸ he)
    refine ⟨⟨?_, htimer ▸ hdown.timer, hview ▸ hdown.view⟩, ?_⟩
    · by_cases ht : j.token = t
      · subst ht
        exact fun hr => hdown.node (runs_of_exec he (hrefused rfl) hr)
      · rw [World.Runs, hother ht]
        exact hdown.node
    · rw [hpool]
      intro x hx ht
      rcases List.mem_or_eq_of_mem_set hx with hx | rfl
      · exact hun x hx ht
      · have huntil := hun _ (List.mem_of_getElem? hi) ht r
        rwa [hrefused ht, if_neg Bool.false_ne_true] at huntil
  | resume i j p hlabel hi _ hs hworld hpool _ =>
    have hmem := List.mem_of_getElem? hi
    by_cases ht : j.token = t
    · obtain ⟨hwithin, -⟩ := hI.staged i j p hi ht
      have hlatch := (hwithin.advance (fun _ => rfl) (fun _ _ _ h₁ h₂ => h₂.trans h₁) c.world).1
      rw [hworld] at hlatch
      rw [hlatch] at hdis
      obtain ⟨hdown, hun⟩ := hI.down hdis
      have hadv := (hun _ hmem ht).advance Lowers.refl (fun _ _ _ => Lowers.trans) c.world
      rw [hworld] at hadv
      refine ⟨hdown.lowers hadv.1 (hs.page_of t).2.1, ?_⟩
      rw [hpool]
      intro x hx ht'
      rcases List.mem_or_eq_of_mem_set hx with hx | rfl
      · exact hun x hx ht'
      · exact hadv.2
    · have hsame := hs.others t (Ne.symm ht)
      rw [hsame] at hdis
      obtain ⟨hdown, hun⟩ := hI.down hdis
      refine ⟨hdown.of_page hsame, ?_⟩
      rw [hpool]
      intro x hx ht'
      rcases List.mem_or_eq_of_mem_set hx with hx | rfl
      · exact hun x hx ht'
      · exact absurd ht' ht
  | event e _ he hpool _ =>
    simp only [embed, Option.map_eq_some_iff, Prod.mk.injEq] at he
    obtain ⟨w, heff, rfl, -⟩ := he
    obtain ⟨hdown, hun⟩ := hI.down (disposed_of_effect heff hdis)
    exact ⟨down_of_effect heff hdown, hpool ▸ hun⟩
  | called e w j p hlabel he hs hworld hpool _ =>
    obtain ⟨heff, hh⟩ := called_of_event he
    obtain ⟨w', hw', hlowers, hstaged⟩ := called_advance hh w
    rw [hworld] at hlowers
    have hnew : Unstarted t c.pool → Unstarted t c'.pool := by
      intro hun
      rw [hpool]
      intro x hx ht
      rcases List.mem_append.mp hx with hx | hx
      · exact hun x hx ht
      · obtain rfl := List.mem_singleton.mp hx
        subst ht
        exact hstaged.first
    by_cases ht : j.token = t
    · subst ht
      rcases hw' with rfl | ⟨rfl, rfl⟩
      · rw [hlowers.disposed] at hdis
        obtain ⟨hdown, hun⟩ := hI.down (disposed_of_effect heff hdis)
        exact ⟨(down_of_effect heff hdown).lowers hlowers (hs.page_of _).2.1, hnew hun⟩
      · -- `dispose` finds the page as it is asked to
        obtain ⟨hnode, hview, hearly⟩ := hl.early hlabel
        simp only [effect, Option.ite_none_right_eq_some, Option.some.injEq] at heff
        obtain ⟨-, rfl⟩ := heff
        have hmarked : Down j.token (marked j.token c.world) := by
          refine ⟨?_, ?_, ?_⟩
          · rw [World.Runs, marked, World.setPage_self]
            exact hnode
          · rw [marked, World.setPage_self]
          · rw [marked, World.setPage_self]
            exact hview
        refine ⟨hmarked.lowers hlowers ?_, hnew (hI.unstarted hearly)⟩
        rw [(hs.page_of _).2.1, marked, World.setPage_self]
    · have hsame := hs.others t (Ne.symm ht)
      rw [hsame] at hdis
      obtain ⟨hdown, hun⟩ := hI.down (disposed_of_effect heff hdis)
      exact ⟨(down_of_effect heff hdown).of_page hsame, hnew hun⟩

/-- A start that the controller tries again. -/
theorem retried_step {s s' : Controlled} {u : String} {ch : Choice} {r : Except Err Unit}
    (hI : Inv t s.config) (hl : StartsBefore t (.retry u ch) s)
    (he : exec u .startNode ch s.config.world = some (r, s'.config.world))
    (hpool : s'.config.pool = s.config.pool) (htrace : s'.config.trace = s.config.trace) :
    Inv t s'.config := by
  refine ⟨fun i j p hi ht => ?_, fun hdis => ?_⟩
  · rw [Protocol.history_eq htrace]
    exact hI.staged i j p (hpool ▸ hi) ht
  · obtain ⟨hdisposed, htimer, hview, hother⟩ := page_of_exec (t := t) he
    rw [hdisposed] at hdis
    obtain ⟨hdown, hun⟩ := hI.down hdis
    refine ⟨⟨?_, htimer ▸ hdown.timer, hview ▸ hdown.view⟩, hpool ▸ hun⟩
    by_cases hu : u = t
    · subst hu
      have hrefused := hl.retried hdis ch r _ rfl he
      exact fun hr => hdown.node (runs_of_exec he (by rw [starts, hrefused, Bool.and_false]) hr)
    · rw [World.Runs, hother hu]
      exact hdown.node

open Examples

/-- A step is as `BeforeStart` asks, where nobody has started a node before `dispose`. -/
def checked (t : String) (l : EmbedLabel) (c : EmbedConfig) : Bool :=
  match l with
  | .event (.dispose u) => decide (u ≠ t) || (decide (¬ c.world.Runs t) &&
      (decide ((c.world.pages t).view ≠ .running) && c.trace.all fun x => !started x.entry))
  | .call i ch => match c.awaits i with
    | some (j, q) => decide (j.token ≠ t) || (exec t q ch c.world).all fun x => !starts q x.1
    | none => true
  | _ => true

theorem beforeStart_of_checked (hl : checked t l c = true) : BeforeStart t l c where
  early := by
    rintro rfl
    simp only [checked, ne_eq, not_true_eq_false, decide_false, Bool.false_or, Bool.and_eq_true,
      decide_eq_true_eq, List.all_eq_true, Bool.not_eq_true'] at hl
    obtain ⟨hnode, hview, hnone⟩ := hl
    refine ⟨hnode, hview, fun i j p _ _ _ e he => ?_⟩
    obtain ⟨x, hx, -, rfl⟩ := Protocol.exists_of_mem_history he
    exact hnone x hx
  refused := by
    intro _ i ch j q r v hlabel hawaits ht he
    subst hlabel
    simp only [checked, hawaits, ht, ne_eq, not_true_eq_false, decide_false, Bool.false_or, he,
      Option.all_some, Bool.not_eq_true'] at hl
    exact hl

/-- The calls of the session come first. -/
def overlapping (t : String) (l : EmbedLabel) (c : EmbedConfig) : Bool :=
  match l with
  | .event e => !callsOf t e || !(c.world.pages t).disposed
  | _ => true

theorem overlapping_of_checked (hl : overlapping t l c = true) : Overlapping t l c := by
  rintro e rfl he
  simp only [overlapping, he, Bool.not_true, Bool.false_or, Bool.not_eq_true'] at hl
  exact hl

/-- Whether a procedure has come to its end. -/
def ended : Roam Unit → Bool
  | .done _ => true
  | .fail _ => true
  | _ => false

theorem ended_of_true {p : Roam Unit} (hp : ended p = true) : p.Ended := by
  cases p with
  | done a => trivial
  | fail e => trivial
  | sync f k => cases hp
  | await q k => cases hp

theorem settled_of_all (hall : (c.pool.all fun x => ended x.2) = true) : Settled t c := by
  intro i j p hi _
  exact ended_of_true (List.all_eq_true.mp hall _ (List.mem_of_getElem? hi))

/-- The page "a1" boots, and while it waits to confirm the lease it is disposed of. -/
def disposedEarly : List (Line Choice Event) :=
  [.event (.openPage "a1" "a.example" none), .event (.boot "a1"), .go 0 .ok 9, .event (.pass 2000),
   .go 0 .ok 20, .event (.dispose "a1"), .go 1 .ok 20, .event (.pass 5000), .go 0 .ok 20]

end LibreWallet.Embed.Dispose
