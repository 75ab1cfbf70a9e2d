import LibreWallet.Async.System
import LibreWallet.Embed.Runs

/-
  Embed/Retry.lean --- the start that the controller tries again.

  Mirrors `wallet-core/src/core/start-retry.ts` and the timer that the class `WalletController`
  keeps for it: a start that finds the single-node lock taken is tried again three seconds later,
  at most six times, whatever has become of the session that asked for it.  The timers of all pages
  lie beside the machine `embed`, whose steps arm and clear them; one that is due starts the node.
-/

set_option autoImplicit false

namespace LibreWallet.Embed

open Async Controller Roaming

/-! ## The timer -/

def NODE_ALREADY_RUNNING_CODE : String := "NODE_ALREADY_RUNNING"

def isNodeAlreadyRunningError (e : Err) : Bool :=
  NODE_ALREADY_RUNNING_CODE.toList <:+: e.message.toList

def NODE_LOCK_RETRY_MAX : Nat := 6

def NODE_LOCK_RETRY_DELAY_MS : Nat := 3000

/-- The delay before one more attempt, if there is to be one. -/
def nodeLockRetryPlan (nextAttempt : Nat) : Option Nat :=
  if nextAttempt ≤ NODE_LOCK_RETRY_MAX then some NODE_LOCK_RETRY_DELAY_MS else none

/-- What a controller keeps of its retries. -/
structure NodeLockRetry where
  /-- When the timer fires. -/
  timer : Option Nat := none
  attempt : Nat := 0
  deriving DecidableEq, Repr

def clearNodeLockRetry : NodeLockRetry := {}

/-- One retry is pending at a time. -/
def scheduleNodeLockRetry (now : Nat) (x : NodeLockRetry) : NodeLockRetry :=
  match x.timer, nodeLockRetryPlan (x.attempt + 1) with
  | none, some delayMs => { timer := some (now + delayMs), attempt := x.attempt + 1 }
  | _, _ => x

/-- What `startNode` makes of the outcome of `doStartNode`. -/
def startOver (now : Nat) (r : Except Err Unit) (x : NodeLockRetry) : NodeLockRetry :=
  match r with
  | .ok _ => clearNodeLockRetry
  | .error e => if isNodeAlreadyRunningError e then scheduleNodeLockRetry now x else clearNodeLockRetry

/-! ## The machine with its timers -/

/-- The embed, and the retries of the pages' controllers. -/
structure Controlled where
  config : EmbedConfig
  retries : String → NodeLockRetry

/-- A step of the embed, or a retry whose timer fires. -/
inductive Move where
  | embed (l : EmbedLabel)
  | retry (token : String) (ch : Choice)

/-- What a step of the embed does to the timers: a start arms or clears that of its page, a stop
clears it, and a page that dies takes its timer along. -/
def retriesAfter (l : EmbedLabel) (c : EmbedConfig) (x : String → NodeLockRetry) :
    String → NodeLockRetry :=
  match l with
  | .call i ch =>
    match c.awaits i with
    | some (j, .startNode) =>
      if c.world.Runs j.token then x
      else
        match exec j.token .startNode ch c.world with
        | some (r, _) => Function.update x j.token (startOver c.world.clock r (x j.token))
        | none => x
    | some (j, .stopNode) => Function.update x j.token clearNodeLockRetry
    | _ => x
  | .event (.closePage t) => Function.update x t clearNodeLockRetry
  | _ => x

/-- How the embed and its timers move. -/
def controlled : Move → Controlled → Option Controlled
  | .embed l, s =>
    (embed.step l s.config).map fun c => { config := c, retries := retriesAfter l s.config s.retries }
  | .retry t ch, s =>
    match (s.retries t).timer with
    | none => none
    | some due =>
      if Alive s.config.world t ∧ due ≤ s.config.world.clock then
        if s.config.world.Runs t then
          some { s with retries := Function.update s.retries t clearNodeLockRetry }
        else
          (exec t .startNode ch s.config.world).map fun (r, w) =>
            { config := { s.config with world := w }
              retries := Function.update s.retries t
                (startOver s.config.world.clock r { s.retries t with timer := none }) }
      else none

/-- What a start changes: its page's wallet and its origin's store, but not the version. -/
structure StartFrame (t : String) (v w : World) : Prop where
  drive : w.drive = v.drive
  log : w.log = v.log
  version : ∀ o, version w o = version v o
  others : ∀ u, u ≠ t → w.pages u = v.pages u
  page : ∀ u, w.pages u = { v.pages u with wallet := (w.pages u).wallet }

theorem startFrame_exec {t : String} {v w : World} {ch : Choice} {r : Except Err Unit}
    (he : exec t .startNode ch v = some (r, w)) : StartFrame t v w where
  drive := by
    rcases (exec_frame he).drive with h | ⟨_, _, h, -⟩ | ⟨_, h, -⟩
    · exact h
    · cases h
    · cases h
  log := by
    rcases (exec_frame he).log with h | ⟨h, -⟩ | ⟨_, _, h, -⟩
    · exact h
    · cases h
    · cases h
  version := fun o => by
    by_cases ho : o = (v.pages t).origin
    · rcases (exec_frame he).version with ⟨_, _, h⟩ | h
      · cases h
      · exact ho ▸ h
    · rw [version, version, (exec_frame he).origins o ho]
  others := (exec_frame he).others
  page := fun u => by
    by_cases hu : u = t
    · exact hu ▸ (exec_frame he).page
    · rw [(exec_frame he).others u hu]

/-- What one move can do, seen from a sound configuration. -/
inductive Moved (m : Move) (s s' : Controlled) : Prop where
  | embed (l : EmbedLabel) : m = .embed l → protocol.Did l s.config s'.config →
      s'.retries = retriesAfter l s.config s.retries → Moved m s s'
  /-- The node runs already. -/
  | needless (t : String) (ch : Choice) : m = .retry t ch → s'.config = s.config →
      s'.retries = Function.update s.retries t clearNodeLockRetry → Moved m s s'
  /-- The node is started again. -/
  | started (t : String) (ch : Choice) (r : Except Err Unit) (x : NodeLockRetry) : m = .retry t ch →
      (s.retries t).timer ≠ none → Opened s.config.world t →
      exec t .startNode ch s.config.world = some (r, s'.config.world) →
      s'.config.pool = s.config.pool → s'.config.trace = s.config.trace →
      s'.retries = Function.update s.retries t x → Moved m s s'

variable {s s' : Controlled} {m : Move}

/-- A move keeps the embed sound, and is one of these. -/
theorem moved_of_controlled (hc : protocol.Sound s.config) (h : controlled m s = some s') :
    protocol.Sound s'.config ∧ Moved m s s' := by
  cases m with
  | embed l =>
    simp only [controlled, Option.map_eq_some_iff] at h
    obtain ⟨c, hs, rfl⟩ := h
    obtain ⟨hc', hd⟩ := hc.step_cases admits hs
    exact ⟨hc', .embed l rfl hd rfl⟩
  | retry t ch =>
    simp only [controlled] at h
    split at h
    · cases h
    rename_i due hdue
    split at h
    · rename_i ha
      split at h
      · cases h
        exact ⟨hc, .needless t ch rfl rfl rfl⟩
      · simp only [Option.map_eq_some_iff, Prod.exists] at h
        obtain ⟨r, w, he, rfl⟩ := h
        have ho := opened_of_alive ha.1
        obtain ⟨hev, hinv⟩ := exec_respects hc.inv ho he
        refine ⟨hc.moved hev hinv, .started t ch r _ rfl ?_ ho he rfl rfl rfl⟩
        rw [hdue]
        nofun
    · cases h

/-- A property that holds at first and survives each of these moves holds throughout a run. -/
theorem invariant_of_moves {S : Move → Controlled → Prop} {I : Controlled → Prop}
    (hc : protocol.Sound s.config) (hI : I s)
    (hstep : ∀ m d d', protocol.Sound d.config → I d → S m d → Moved m d d' → I d')
    (hrun : Steps controlled S s s') : protocol.Sound s'.config ∧ I s' := by
  refine hrun.invariant (I := fun d => protocol.Sound d.config ∧ I d) ⟨hc, hI⟩ ?_
  intro m d d' h hS hs
  obtain ⟨hc', hmoved⟩ := moved_of_controlled h.1 hs
  exact ⟨hc', hstep m d d' h.1 h.2 hS hmoved⟩

/-- The embed before any of its controllers has a retry pending. -/
def unarmed (c : EmbedConfig) : Controlled := { config := c, retries := fun _ => clearNodeLockRetry }

/-- A condition on the steps of the embed; retries may fire at any time. -/
def Move.meets (P : EmbedLabel → EmbedConfig → Prop) (m : Move) (s : Controlled) : Prop :=
  ∀ l, m = .embed l → P l s.config

/-- A run of the embed is one in which no retry fires. -/
theorem steps_of_run {P : EmbedLabel → EmbedConfig → Prop} {c c' : EmbedConfig}
    (hrun : embed.Run P c c') (x : String → NodeLockRetry) :
    ∃ x', Steps controlled (fun m d => ∃ l, m = .embed l ∧ P l d.config)
      { config := c, retries := x } { config := c', retries := x' } := by
  induction hrun with
  | refl => exact ⟨x, .refl⟩
  | @snoc d d' l _ hP hs ih =>
    obtain ⟨x', hsteps⟩ := ih
    refine ⟨retriesAfter l d x', .snoc hsteps (a := .embed l) ⟨l, rfl, hP⟩ ?_⟩
    simp [controlled, hs]

theorem steps_of_run_meets {P : EmbedLabel → EmbedConfig → Prop} {c c' : EmbedConfig}
    (hrun : embed.Run P c c') (x : String → NodeLockRetry) :
    ∃ x', Steps controlled (Move.meets P) { config := c, retries := x }
      { config := c', retries := x' } := by
  obtain ⟨x', hsteps⟩ := steps_of_run hrun x
  refine ⟨x', hsteps.mono ?_⟩
  rintro m d ⟨l, rfl, hl⟩ _ ⟨⟩
  exact hl

end LibreWallet.Embed
