import LibreWallet.Roaming.Session

/-
  Embed/Wiring.lean --- the embed's hooks and the machine they make.

  Mirrors `wallet-embed/src/session-wiring.ts` (debounced upload, close hooks) and
  the listeners of `wallet-embed/src/index.ts` that call them.  The machine
  `embed` has every page of every origin on one Drive folder: a page's code takes
  effect request by request, its timers fire when they are due, its user acts at
  any time, and it dies at any moment.

  A request that a dead page was waiting for does not take effect; the keepalive
  write of `releaseSync` does.
-/

set_option autoImplicit false

namespace LibreWallet.Embed

open Async Controller Roaming

def DRIVE_SYNC_DEBOUNCE_MS : Nat := 5000

/-! ## The hooks -/

/-- `shouldDriveAutoSync`, outside the demo. -/
def shouldDriveAutoSync (stateChanged running driveConnected : Bool) : Bool :=
  stateChanged && running && driveConnected

/-- Arm the debounced upload. -/
def armSync (token : String) : Roam Unit :=
  .modify fun w =>
    w.setPage token fun p => { p with syncTimer := some (w.clock + DRIVE_SYNC_DEBOUNCE_MS) }

/-- Keep the version that the close path goes by. -/
def refreshLocalVersion (token : String) : Roam Unit := do
  let read ← (ask .readLocal).attempt
  match read with
  | .ok local_ => updatePage token fun p => { p with localVersion := local_.stateVersion }
  | .error _ => pure ()

/-- The controller's event listener. -/
def onControllerEvent (token : String) (stateChanged driveConnected : Bool) : Roam Unit := do
  let w ← .get
  if shouldDriveAutoSync stateChanged (w.Runs token) driveConnected ∧
      (w.pages token).view = .running then
    armSync token
  refreshLocalVersion token

/-- The debounced upload. -/
def sync (token : String) : Roam Unit := do
  let _ ← (flushTracked token).attempt
  pure ()

/-- The close hook of a page that is still alive. -/
def closeSoon (token : String) : Roam Unit := do
  let w ← .get
  if (w.pages token).view = .running then
    updatePage token fun p => { p with syncTimer := none }
    let _ ← (do
      let local_ ← ask .readLocal
      updatePage token fun p => { p with localVersion := local_.stateVersion }
      let w ← .get
      if (w.pages token).flushedVersion < local_.stateVersion then
        let _ ← flushTracked token
        pure ()
      let w ← .get
      release token (some local_.stateVersion) (some (w.pages token).flushedVersion)).attempt
    pure ()
  else pure ()

/-- The last-resort close hook. -/
def releaseSync (token : String) : Roam Unit := do
  let w ← .get
  releaseSyncKeepalive token (w.pages token).localVersion (w.pages token).flushedVersion

/-! ## Events -/

/-- What the environment does. -/
inductive Event where
  /-- Time passes. -/
  | pass (ms : Nat)
  /-- A page loads and draws a new owner token. -/
  | openPage (token origin : String) (appName : Option String)
  /-- A page dies. -/
  | closePage (token : String)
  | boot (token : String)
  | moveHere (token : String) (polls : Nat)
  | submitSecret (token secret : String)
  | forceRestoreAnyway (token : String)
  | dispose (token : String)
  /-- `visibilitychange` to hidden. -/
  | hidden (token : String)
  | pageHide (token : String)
  /-- The heartbeat interval fires. -/
  | heartbeat (token : String)
  /-- The debounced upload's timer fires. -/
  | syncFires (token : String)
  | controllerEvent (token : String) (stateChanged driveConnected : Bool)
  /-- A running node advances its state. -/
  | advance (token : String)
  deriving DecidableEq, Repr

/-- The state after the page of `token` died. -/
def died (w : World) (token : String) : World :=
  let p := w.pages token
  let s := w.store token
  let w' : World :=
    { w with
      pages := Function.update w.pages token
        { p with status := .closed, wallet := .absent, heartbeatTimer := none
                 syncTimer := none }
      origins := Function.update w.origins p.origin
        (if s.runLock = some token then { s with runLock := none } else s) }
  if w.Runs token then w'.note (.stopped token p.origin s.db.stateVersion) else w'

/-- What an origin keeps after its node advanced by one version. -/
def advanced (s : OriginStore) : OriginStore :=
  { s with
    db := { s.db with stateVersion := s.db.stateVersion + 1, createdNew := false }
    mirror := nextMirrorValue (s.db.stateVersion + 1) s.mirror }

/-- The node of a page advances. -/
def advanceNode (w : World) (token : String) : World :=
  { w with
    origins := Function.update w.origins (w.pages token).origin (advanced (w.store token)) }

theorem advanceNode_origins (w : World) (token o : String) :
    (advanceNode w token).origins o =
      if o = (w.pages token).origin then advanced (w.store token) else w.origins o := by
  simp only [advanceNode, Function.update_apply]

def Alive (w : World) (token : String) : Prop := (w.pages token).status = .alive

instance (w : World) (token : String) : Decidable (Alive w token) :=
  inferInstanceAs (Decidable (_ = _))

/-- The code that an event calls, in the page of the token. -/
def handler : Event → Option (Job × Roam Unit)
  | .boot t => some (⟨t, .boot⟩, boot t)
  | .moveHere t polls => some (⟨t, .moveHere⟩, moveHere t polls)
  | .submitSecret t secret => some (⟨t, .submitSecret⟩, submitSecret t secret)
  | .forceRestoreAnyway t => some (⟨t, .forceRestoreAnyway⟩, forceRestoreAnyway t)
  | .dispose t => some (⟨t, .dispose⟩, dispose t)
  | .hidden t => some (⟨t, .closeSoon⟩, closeSoon t)
  | .pageHide t => some (⟨t, .releaseSync⟩, releaseSync t)
  | .heartbeat t => some (⟨t, .tick⟩, tick t)
  | .syncFires t => some (⟨t, .sync⟩, sync t)
  | .controllerEvent t changed connected =>
    some (⟨t, .controllerEvent⟩, onControllerEvent t changed connected)
  | _ => none

/-- What an event does to the state, where it can happen. -/
def effect (e : Event) (w : World) : Option World :=
  match e with
  | .pass ms => some { w with clock := w.clock + ms }
  | .openPage t origin appName =>
    if (w.pages t).status = .unopened then
      some (w.setPage t fun _ => { origin, appName, status := .alive })
    else none
  | .closePage t => if Alive w t then some (died w t) else none
  | .heartbeat t =>
    match (w.pages t).heartbeatTimer with
    | some due =>
      if Alive w t ∧ due ≤ w.clock then
        some (w.setPage t fun p => { p with heartbeatTimer := some (due + ROAMING_RENEW_MS) })
      else none
    | none => none
  | .syncFires t =>
    match (w.pages t).syncTimer with
    | some due =>
      if Alive w t ∧ due ≤ w.clock then
        some (w.setPage t fun p => { p with syncTimer := none })
      else none
    | none => none
  | .advance t =>
    if Alive w t ∧ w.Runs t then some (advanceNode w t) else none
  | .boot t | .moveHere t _ | .submitSecret t _ | .forceRestoreAnyway t | .dispose t
  | .hidden t | .pageHide t | .controllerEvent t _ _ => if Alive w t then some w else none

/-- Whether the code of a page still runs. -/
def jobRuns (j : Job) (w : World) : Bool := Alive w j.token ∨ j.verb = .releaseSync

/-- Every embed page on one Drive folder. -/
def embed : Machine World Request Answer Err Choice Job Event where
  exec := fun j => exec j.token
  event := fun e w => (effect e w).map fun w' => (w', handler e)
  runs := jobRuns

abbrev EmbedConfig := Config World Request Answer Err Job

abbrev EmbedLabel := Label Choice Event

end LibreWallet.Embed
