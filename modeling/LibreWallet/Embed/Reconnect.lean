import LibreWallet.Embed.Replaced
import LibreWallet.Roaming.Moves

/-
  Embed/Reconnect.lean --- the latches of a session that is booted again.

  A fence latches the lease object (`fenced`) and `dispose` the session (`disposed`), and nothing
  releases either: a session that is booted after one of them shows `running`, while its ticks
  return at once or find that the handlers that stop the node do nothing.
-/

set_option autoImplicit false

namespace LibreWallet.Embed.Reconnect

open Async Controller Roaming
open Replaced (Call)

/-! ## The life of a session -/

/-- A latch that only a fence or `dispose` sets. -/
def Latched (token : String) (w : World) : Prop :=
  (w.pages token).fenced = true ∨ (w.pages token).disposed = true

/-- What the others leave alone: the view and the latches.  They may stop the node or the heartbeat,
but start neither. -/
structure Others (token : String) (w w' : World) : Prop where
  view : (w'.pages token).view = (w.pages token).view
  fenced : (w'.pages token).fenced = (w.pages token).fenced
  disposed : (w'.pages token).disposed = (w.pages token).disposed
  timer : (w'.pages token).heartbeatTimer.isSome = true → (w.pages token).heartbeatTimer.isSome = true
  runs : w'.Runs token → w.Runs token

/-- A handler of the session; where `S`, the controller's stops succeed. -/
def session (token : String) (S : Prop) : Contract World Request Answer Err Choice :=
  among (exec token) (Others token) fun _ q c _ => S → q = .stopNode → c = .ok

/-- The states between the handlers of a session, from its page on, whose calls find `P`. -/
inductive Life (token : String) (P : World → Prop) (S : Prop) : World → Prop where
  | opened {w : World} : (w.pages token).view = .stopped → (w.pages token).heartbeatTimer = none →
      Life token P S w
  | others {w w' : World} : Life token P S w → Others token w w' → Life token P S w'
  | call {w w' : World} {call : Call} {h : List RoamEntry} {r : Except Err Unit} :
      Life token P S w → P w → Solo (session token S) (call.code token) [] w h r w' → Life token P S w'
  | dispose {w w' : World} {h : List RoamEntry} {r : Except Err Unit} :
      Life token P S w → Solo (session token S) (dispose token) [] w h r w' → Life token P S w'
  | tick {w w' : World} {h : List RoamEntry} {r : Except Err Unit} : Life token P S w →
      (w.pages token).heartbeatTimer.isSome = true → Solo (session token S) (tick token) [] w h r w' →
      Life token P S w'

/-! ## What is asked of a tick -/

/-- A request of the tick itself that failed. -/
def failed : RoamEntry → Bool
  | ⟨.leaseRead .tick, .error _, _⟩ => true
  | ⟨.readLocal, .error _, _⟩ => true
  | ⟨.leaseWrite (.claim .tick _) _, .error _, _⟩ => true
  | _ => false

/-- The lease is rewritten with the session's token. -/
def rewrote (token : String) : RoamEntry → Bool
  | ⟨.leaseWrite (.claim .tick _) record, .ok (), _⟩ => record.owner = token
  | _ => false

/-- Another owner is found. -/
def evicted (token : String) : RoamEntry → Bool
  | ⟨.leaseRead .tick, .ok (some record), _⟩ => record.owner ≠ token
  | _ => false

/-- A tick that reaches Drive rewrites the lease, or finds another owner, stops the node and leaves
`running`; and where it decides to fence it stops the node. -/
structure Beats (token : String) (w : World) (h : List RoamEntry) (w' : World) : Prop where
  reached : (∀ e ∈ h, failed e = false) → (∃ e ∈ h, rewrote token e = true) ∨
    (∃ e ∈ h, evicted token e = true) ∧ ¬ w'.Runs token ∧ (w'.pages token).view ≠ .running
  fence : (w.pages token).fenced = false → (w'.pages token).fenced = true → ¬ w'.Runs token

/-! ## What is left alone -/

variable {token : String} {P : World → Prop} {S : Prop} {h : List RoamEntry} {s w w₁ w₂ : World}

/-- The latches stay. -/
structure Keeps (token : String) (w w' : World) : Prop where
  fenced : (w'.pages token).fenced = (w.pages token).fenced
  disposed : (w'.pages token).disposed = (w.pages token).disposed

/-- The latches stay, and neither the node nor the heartbeat is started. -/
structure Rests (token : String) (w w' : World) : Prop extends Keeps token w w' where
  timer : (w'.pages token).heartbeatTimer.isSome = true → (w.pages token).heartbeatTimer.isSome = true
  runs : w'.Runs token → w.Runs token

namespace Keeps

theorem refl (token : String) (w : World) : Keeps token w w := ⟨rfl, rfl⟩

theorem trans (h₁ : Keeps token w w₁) (h₂ : Keeps token w₁ w₂) : Keeps token w w₂ :=
  ⟨h₂.fenced.trans h₁.fenced, h₂.disposed.trans h₁.disposed⟩

theorem setPage {f : Page → Page} (hf : (f (w.pages token)).fenced = (w.pages token).fenced)
    (hd : (f (w.pages token)).disposed = (w.pages token).disposed) : Keeps token w (w.setPage token f) := by
  refine ⟨?_, ?_⟩
  all_goals
    rw [World.setPage_self]
    assumption

theorem exec {q : Request} {c : Choice} {r : Except Err (Answer q)}
    (he : exec token q c w = some (r, w₁)) : Keeps token w w₁ :=
  exec_moves he (refl token w) (fun _ _ _ => ⟨rfl, rfl⟩)
    (fun n _ => ⟨by rw [World.setNode_self], by rw [World.setNode_self]⟩)
    (fun _ _ _ hv => hv.trans ⟨rfl, rfl⟩) fun _ _ => ⟨rfl, rfl⟩

theorem not_latched (hk : Keeps token w w₁) (hl : ¬ Latched token w) : ¬ Latched token w₁ := by
  rw [Latched, hk.fenced, hk.disposed]
  exact hl

end Keeps

theorem keeps_framing : Framing (session token S) (Keeps token) where
  free := among_free _ _ _
  refl := Keeps.refl token
  trans := Keeps.trans
  rely := fun _ _ h => ⟨h.fenced, h.disposed⟩

/-- No call of the session touches the latches. -/
theorem covering : Covering token (session token S) (Keeps token) where
  framing := keeps_framing
  ask := fun _ => keeps_framing.request fun _ _ _ _ _ _ he => ⟨Keeps.exec he, trivial⟩
  update := fun hf => Keeps.setPage (hf _).1 (hf _).2
  note := fun _ _ => ⟨rfl, rfl⟩

theorem keeps_of_call {call : Call} {r : Except Err Unit}
    (run : Solo (session token S) (call.code token) [] w h r w₁) : Keeps token w w₁ := by
  have hframes : Frames (session token S) (Keeps token) (fun _ => True) (call.code token) := by
    cases call with
    | boot => exact covering.boot
    | moveHere polls => exact covering.moveHere polls
    | submitSecret secret => exact covering.submitSecret secret
    | forceRestoreAnyway => exact covering.forceRestoreAnyway
  exact (hframes.of_solo keeps_framing.free run).1

namespace Rests

theorem refl (token : String) (w : World) : Rests token w w := ⟨Keeps.refl token w, id, id⟩

theorem trans (h₁ : Rests token w w₁) (h₂ : Rests token w₁ w₂) : Rests token w w₂ where
  toKeeps := h₁.toKeeps.trans h₂.toKeeps
  timer := fun h => h₁.timer (h₂.timer h)
  runs := fun h => h₁.runs (h₂.runs h)

theorem setPage {f : Page → Page} (hf : (f (w.pages token)).fenced = (w.pages token).fenced)
    (hd : (f (w.pages token)).disposed = (w.pages token).disposed)
    (ht : (f (w.pages token)).heartbeatTimer.isSome = true → (w.pages token).heartbeatTimer.isSome = true)
    (hw : (f (w.pages token)).wallet = (w.pages token).wallet) : Rests token w (w.setPage token f) := by
  refine ⟨Keeps.setPage hf hd, ?_, ?_⟩
  · rw [World.setPage_self]
    exact ht
  · rw [World.Runs, World.setPage_self, hw]
    exact id

theorem exec {q : Request} {c : Choice} {r : Except Err (Answer q)} (he : exec token q c w = some (r, w₁))
    (hq : q.isVerb = false) : Rests token w w₁ :=
  exec_moves he (refl token w) (fun _ _ _ => ⟨⟨rfl, rfl⟩, id, id⟩)
    (fun n hv => by rw [hq] at hv; cases hv)
    (fun _ _ _ hv => hv.trans ⟨⟨rfl, rfl⟩, id, id⟩) fun _ _ => ⟨⟨rfl, rfl⟩, id, id⟩

theorem setNode {n : Node} (hn : n.wallet = .running → w.Runs token) :
    Rests token w (w.setNode token n) := by
  refine ⟨⟨?_, ?_⟩, ?_, ?_⟩
  · rw [World.setNode_self]
  · rw [World.setNode_self]
  · rw [World.setNode_self]
    exact id
  · rw [World.Runs, World.setNode_self]
    exact hn

theorem note (n : Note) : Rests token w (w.note n) := ⟨⟨rfl, rfl⟩, id, id⟩

/-- A stop starts nothing. -/
theorem stop {c : Choice} {r : Except Err Unit} (he : Roaming.exec token .stopNode c w = some (r, w₁)) :
    Rests token w w₁ := by
  have hstop : Rests token w (w.setNode token (stopNode token (c = .ok) (w.node token)).2) :=
    setNode (stopNode_runs token (c = .ok) (w.node token))
  simp only [Roaming.exec, World.act, Option.some.injEq, Prod.mk.injEq] at he
  rw [← he.2]
  exact of_noteIf hstop _ (hstop.trans (note _))

end Rests

/-- A stop that succeeds leaves nothing running. -/
theorem not_runs_of_stop {r : Except Err Unit} (he : exec token .stopNode .ok w = some (r, w₁)) :
    ¬ w₁.Runs token := by
  have hno : ¬ (w.setNode token (stopNode token true (w.node token)).2).Runs token := by
    rw [World.Runs, World.setNode_self]
    unfold stopNode
    split
    · rename_i hw
      rw [hw]
      exact fun h => by cases h
    · exact fun h => by cases h
    · exact fun h => by cases h
  simp only [exec, World.act, Option.some.injEq, Prod.mk.injEq, decide_true] at he
  rw [← he.2]
  exact of_noteIf (F := fun v => ¬ v.Runs token) hno _ hno

theorem Others.rests (ho : Others token w w₁) : Rests token w w₁ :=
  ⟨⟨ho.fenced, ho.disposed⟩, ho.timer, ho.runs⟩

theorem rests_framing : Framing (session token S) (Rests token) where
  free := among_free _ _ _
  refl := Rests.refl token
  trans := Rests.trans
  rely := fun _ _ h => h.rests

/-- Anything but a start. -/
def startless : Request → Bool
  | .startNode | .restore _ _ => false
  | _ => true

theorem rests_keeping :
    Keeping token (session token S) (Rests token) (fun _ => True) startless fun _ => true where
  framing := rests_framing
  ask := fun q hq => rests_framing.request fun _ c r w w' _ he => by
    refine ⟨?_, trivial⟩
    by_cases hstop : q = .stopNode
    · subst hstop
      exact Rests.stop he
    · refine Rests.exec he ?_
      cases q <;> first | rfl | exact absurd rfl hstop | cases hq
  view := fun _ _ _ => Rests.setPage rfl rfl id rfl
  stop := fun _ => Rests.setPage rfl rfl (fun h => by cases h) rfl

theorem frames_flushTracked :
    Frames (session token S) (Rests token) (fun _ => True) (flushTracked token) :=
  rests_keeping.flushTracked rfl rfl (fun _ => rfl) fun _ _ => Rests.setPage rfl rfl id rfl

theorem frames_flushAndAck :
    Frames (session token S) (Rests token) (fun _ => True) (flushAndAck token) :=
  rests_keeping.flushAndAck rfl rfl (fun _ _ => rfl) rfl (fun _ => rfl) rfl (fun _ _ => rfl)
    fun _ _ => Rests.setPage rfl rfl id rfl

theorem frames_release (localVersion flushed : Option Nat) :
    Frames (session token S) (Rests token) (fun _ => True) (release token localVersion flushed) :=
  rests_keeping.release _ _ rfl rfl fun _ _ => rfl

/-! ## One handler -/

/-- A session that is latched neither beats nor shows `running`. -/
def Quiet (token : String) (w : World) : Prop :=
  Latched token w → (w.pages token).heartbeatTimer = none ∧ (w.pages token).view ≠ .running

theorem quiet_of_unlatched (hl : ¬ Latched token w) : Quiet token w := fun h => absurd h hl

theorem wp_ask_session {q : Request} {Post : PostCond World Request Answer Err (Answer q)}
    (hq : startless q = true) (hk : ∀ c r w₁ w₂ w₃, Rests token w w₁ → exec token q c w₁ = some (r, w₂) →
      (S → q = .stopNode → c = .ok) → Rests token w₂ w₃ → Rests token w w₃ → Post (⟨q, r, w₁⟩ :: h) r w₃ w₃) :
    wp (session token S) (ask q) h Post s w := by
  refine rests_framing.free.wp_request fun c r w₁ w₂ w₃ h₁ ha he h₃ => ?_
  have hr : Rests token w₁ w₂ := by
    by_cases hstop : q = .stopNode
    · subst hstop
      exact Rests.stop he
    · refine Rests.exec he ?_
      cases q <;> first | rfl | exact absurd rfl hstop | cases hq
  exact hk c r w₁ w₂ w₃ h₁.rests he ha h₃.rests ((h₁.rests.trans hr).trans h₃.rests)

/-- A stop, where stops succeed. -/
theorem wp_stop {Post : PostCond World Request Answer Err (Except Err Unit)}
    (hk : ∀ h' r s' w', h ⊆ h' → Rests token w w' → ¬ w'.Runs token → Post h' (.ok r) s' w') :
    wp (session token True) (ask .stopNode).attempt h Post s w := by
  rw [wp_attempt]
  refine wp_ask_session rfl fun c r w₁ w₂ w₃ _ he hc h₃ hr => ?_
  obtain rfl := hc trivial rfl
  exact hk _ _ _ _ (List.subset_cons_self _ _) hr fun hrun => not_runs_of_stop he (h₃.runs hrun)

theorem Beats.of_failed {w' : World} {e : RoamEntry} (he : e ∈ h) (hf : failed e = true)
    (hfence : (w.pages token).fenced = false → (w'.pages token).fenced = true → ¬ w'.Runs token) :
    Beats token w h w' where
  reached := fun hall => by
    rw [hall e he] at hf
    cases hf
  fence := hfence

abbrev beats (token : String) (w : World) : PostCond World Request Answer Err Unit :=
  fun h' _ _ w' => Beats token w h' w' ∧ Quiet token w'

/-- A failure of a session that is not latched. -/
theorem wp_tickFailed (hk : Keeps token w w₁) (hl : ¬ Latched token w) {e : RoamEntry} (he : e ∈ h)
    (hf : failed e = true) :
    wp (session token True) (tickFailed token) h (beats token w) s w₁ := by
  have hl₁ := hk.not_latched hl
  obtain ⟨hlive, hopen⟩ := not_or.mp hl₁
  rw [Bool.not_eq_true] at hlive hopen
  simp only [tickFailed, noteFailure, updatePage, Proc.bind_eq, wp_bind, wp_get, wp_modify, Proc.pure_eq,
    wp_done]
  split
  · rename_i hspan
    generalize hw₂ : w₁.setPage token _ = w₂
    have htimer : (w₂.pages token).heartbeatTimer = none := by
      rw [← hw₂, World.setPage_self]
    have hopen₂ : (w₂.pages token).disposed = false := by
      rw [← hw₂, World.setPage_self]
      exact hopen
    simp only [selfFence, stopHeartbeat, setView, updatePage, Proc.bind_eq, wp_bind, wp_get]
    rw [hopen₂, if_neg Bool.false_ne_true]
    simp only [wp_bind, wp_modify]
    refine wp_stop fun h₃ r s₃ w₃ hsub hr hstopped => ?_
    have htimer₃ : (w₃.pages token).heartbeatTimer = none := by
      cases ht : (w₃.pages token).heartbeatTimer with
      | none => rfl
      | some due =>
        have := hr.timer (by rw [ht]; rfl)
        rw [World.setPage_self] at this
        cases this
    refine ⟨.of_failed (hsub he) hf fun _ _ => ?_, fun _ => ?_⟩
    · rw [World.Runs, World.setPage_self]
      exact hstopped
    · rw [World.setPage_self]
      exact ⟨htimer₃, fun hv => by cases hv⟩
  · rename_i hspan
    rw [Bool.not_eq_true] at hspan
    generalize hw₂ : w₁.setPage token _ = w₂
    have hlive₂ : (w₂.pages token).fenced = false := by
      rw [← hw₂, World.setPage_self]
      simp only [hlive, hspan, Bool.or_self]
    have hopen₂ : (w₂.pages token).disposed = false := by
      rw [← hw₂, World.setPage_self]
      exact hopen
    have hl₂ : ¬ Latched token w₂ := by simp [Latched, hlive₂, hopen₂]
    refine ⟨.of_failed he hf fun _ hfenced => ?_, quiet_of_unlatched hl₂⟩
    rw [hlive₂] at hfenced
    cases hfenced

/-- A tick of a session that is not latched. -/
theorem wp_tick (hl : ¬ Latched token w) : wp (session token True) (tick token) [] (beats token w) s w := by
  obtain ⟨hlive, hopen⟩ := not_or.mp hl
  rw [Bool.not_eq_true] at hlive hopen
  have hunfenced : ∀ {w'}, Keeps token w w' → (w'.pages token).fenced ≠ true := by
    intro w' hk
    rw [hk.fenced, hlive]
    exact Bool.false_ne_true
  simp only [tick, Proc.bind_eq, wp_bind, wp_get]
  rw [hlive, if_neg Bool.false_ne_true, wp_bind, wp_attempt]
  refine wp_ask_session rfl fun c r w₁ w₂ w₃ _ _ _ _ hr₃ => ?_
  cases r with
  | error e => exact wp_tickFailed hr₃.toKeeps hl (List.mem_singleton_self _) rfl
  | ok record =>
    dsimp only
    split
    · -- another owner
      rename_i hd
      have hforeign : evicted token ⟨.leaseRead .tick, .ok record, w₁⟩ = true := by
        unfold heartbeatDecision at hd
        split at hd
        · cases hd
        · split at hd
          · cases hd
          · rename_i r hne
            exact decide_eq_true hne
      simp only [onEvicted, stopHeartbeat, setView, updatePage, Proc.bind_eq, wp_bind, wp_get, wp_modify]
      generalize hw₄ : w₃.setPage token _ = w₄
      have hk₄ : Keeps token w w₄ := by
        rw [← hw₄]
        exact hr₃.toKeeps.trans (Keeps.setPage rfl rfl)
      rw [hk₄.disposed, hopen, if_neg Bool.false_ne_true, wp_bind]
      refine wp_stop fun h₅ r s₅ w₅ hsub hr₅ hstopped => ?_
      rw [wp_bind, wp_attempt]
      refine frames_flushAndAck _ _ _ _ fun h₆ r s₆ w₆ hr₆ ha₆ => ?_
      have hk₆ := (hk₄.trans hr₅.toKeeps).trans hr₆.toKeeps
      have hmem : (⟨.leaseRead .tick, .ok record, w₁⟩ : RoamEntry) ∈ h₆ :=
        ha₆.subset (hsub (List.mem_singleton_self _))
      refine ⟨⟨fun _ => .inr ⟨⟨_, hmem, hforeign⟩, ?_, ?_⟩, fun _ hf => ?_⟩, quiet_of_unlatched ?_⟩
      · rw [World.Runs, World.setPage_self]
        exact fun hrun => hstopped (hr₆.runs hrun)
      · rw [World.setPage_self]
        exact fun hv => by cases hv
      · rw [World.setPage_self] at hf
        exact absurd hf (hunfenced hk₆)
      · exact (hk₆.trans (Keeps.setPage rfl rfl)).not_latched hl
    · -- the session's own record
      simp only [writeOurRecord, updatePage, Proc.bind_eq, wp_bind, wp_attempt, wp_get, wp_modify]
      refine wp_ask_session rfl fun c r w₄ w₅ w₆ _ _ _ _ hr₆ => ?_
      have hk₆ := (hr₃.trans hr₆).toKeeps
      cases r with
      | error e => exact wp_tickFailed hk₆ hl (List.mem_cons_self ..) rfl
      | ok info =>
        refine wp_ask_session rfl fun c r w₇ w₈ w₉ _ _ _ _ hr₉ => ?_
        have hk₉ := hk₆.trans hr₉.toKeeps
        cases r with
        | error e => exact wp_tickFailed hk₉ hl (List.mem_cons_self ..) rfl
        | ok u =>
          generalize hw' : World.setPage _ token _ = w'
          have hk' : Keeps token w w' := by
            rw [← hw']
            exact hk₉.trans (Keeps.setPage rfl rfl)
          have hk'' : ∀ first, Keeps token w (w'.setPage token fun p => { p with firstFailureAt := first }) :=
            fun _ => hk'.trans (Keeps.setPage rfl rfl)
          refine ⟨⟨fun _ => .inl ⟨_, List.mem_cons_self .., ?_⟩, fun _ hf => ?_⟩,
            quiet_of_unlatched ((hk'' _).not_latched hl)⟩
          · exact decide_eq_true rfl
          · exact absurd hf (hunfenced (hk'' _))

/-- What `dispose` leaves. -/
theorem wp_dispose : wp (session token S) (dispose token) h (fun _ _ _ w' => Quiet token w') s w := by
  have hrun : Frames (session token S) (Rests token) (fun _ => True) (disposeRunning token) :=
    rests_keeping.disposeRunning rfl rfl frames_flushTracked frames_release
  simp only [dispose, updatePage, setView, Proc.bind_eq, wp_bind, wp_modify, wp_get]
  generalize hw₁ : w.setPage token _ = w₁
  have htimer : (w₁.pages token).heartbeatTimer = none := by
    rw [← hw₁, World.setPage_self]
  have hbody : Frames (session token S) (Rests token) (fun _ => True)
      (if (w₁.pages token).view = .running then disposeRunning token else release token none none) := by
    split
    · exact hrun
    · exact frames_release none none
  rw [wp_attempt]
  refine hbody _ _ _ _ fun h₂ r s₂ w₂ hr _ _ => ?_
  rw [World.setPage_self]
  refine ⟨?_, fun hv => by cases hv⟩
  cases ht : (w₂.pages token).heartbeatTimer with
  | none => rfl
  | some due =>
    have := hr.timer (by rw [ht]; rfl)
    rw [htimer] at this
    cases this

/-! ## Every life -/

theorem Quiet.others (hq : Quiet token w) (ho : Others token w w₁) : Quiet token w₁ := by
  intro hl
  rw [Latched, ho.fenced, ho.disposed] at hl
  obtain ⟨ht, hv⟩ := hq hl
  refine ⟨?_, by rw [ho.view]; exact hv⟩
  cases ht₁ : (w₁.pages token).heartbeatTimer with
  | none => rfl
  | some due =>
    have := ho.timer (by rw [ht₁]; rfl)
    rw [ht] at this
    cases this

/-- A heartbeat that is installed is that of a session that is not latched. -/
theorem Quiet.unlatched (hq : Quiet token w) (ht : (w.pages token).heartbeatTimer.isSome = true) :
    ¬ Latched token w := by
  intro hl
  rw [(hq hl).1] at ht
  cases ht

theorem left_of_tick {r : Except Err Unit} (hl : ¬ Latched token w)
    (run : Solo (session token True) (tick token) [] w h r w₁) : Beats token w h w₁ ∧ Quiet token w₁ := by
  obtain ⟨s', hend⟩ := run.sound (fun _ _ _ _ => trivial) (wp_tick (s := w) hl)
  exact hend

theorem Life.quiet (hw : Life token (fun w => ¬ Latched token w) True w) : Quiet token w := by
  induction hw with
  | opened hv ht => exact fun _ => ⟨ht, by rw [hv]; exact fun h => by cases h⟩
  | others _ ho ih => exact ih.others ho
  | call _ hP run ih => exact quiet_of_unlatched ((keeps_of_call run).not_latched hP)
  | @dispose w w' h r _ run ih =>
    obtain ⟨s', hend⟩ := run.sound (fun _ _ _ _ => trivial) (wp_dispose (s := w))
    exact hend
  | tick _ ht run ih => exact (left_of_tick (ih.unlatched ht) run).2

/-- In every life of a session whose calls find it neither fenced nor disposed of, and whose stops
succeed: every tick of the heartbeat that reaches Drive rewrites the lease with the session's token,
or finds another owner, stops the node and leaves `running`; and where it decides to fence it stops
the node. -/
theorem beats_of_unlatched (token : String) (w w' : World) (h : List RoamEntry) (r : Except Err Unit)
    (hw : Life token (fun w => ¬ Latched token w) True w)
    (ht : (w.pages token).heartbeatTimer.isSome = true)
    (run : Solo (session token True) (tick token) [] w h r w') : Beats token w h w' :=
  (left_of_tick (hw.quiet.unlatched ht) run).1

/-- Every request is answered, and a delay fires when it is due. -/
def answer (q : Request) (w : World) : Option (Except Err (Answer q) × World) := exec "a" q .ok w

def wait (q : Request) (w : World) : World :=
  match q with
  | .delayUntil deadline => { w with clock := max w.clock deadline }
  | _ => w

theorem solo_of_answered {p : Roam Unit} {r : Except Err Unit}
    (hp : p.record wait answer [] w = some (h, r, w₁)) : Solo (session "a" S) p [] w h r w₁ := by
  refine Proc.solo_of_record (fun w => (⟨rfl, rfl, rfl, id, id⟩ : Others "a" w w)) (fun q w => ?_)
    (fun _ _ _ _ _ he => ⟨.ok, fun _ _ => rfl, he⟩) hp
  cases q <;> exact ⟨rfl, rfl, rfl, id, id⟩

/-- "c" claims the lease. -/
def claimedByC (w : World) : World :=
  w.writeLease "c" (.claim .acquire w.drive.lease)
    { Replaced.heldByB 9 5 .live with owner := "c", origin := "https://c.example" }

theorem others_claimedByC (w : World) : Others "a" w (claimedByC w) := ⟨rfl, rfl, rfl, id, id⟩

/-- The page boots over the released lease of "b", and "c" claims the wallet from it. -/
def bootAndLose : Option World :=
  ((boot "a").record wait answer [] (Replaced.openedAfterB .released)).map fun x => claimedByC x.2.2

/-- The page boots, is disposed of, boots again, and "c" claims the wallet from it. -/
def rebootAndLose : Option World :=
  (((boot "a").record wait answer [] (Replaced.openedAfterB .released)).bind fun x =>
    (dispose "a").record wait answer [] x.2.2).bind fun y =>
      ((boot "a").record wait answer [] y.2.2).map fun z => claimedByC z.2.2

/-- The first tick finds "c". -/
theorem beats_of_unlatched_evicted : ∃ (w w' : World) (h : List RoamEntry) (r : Except Err Unit),
    (w.pages "a").view = .running ∧ Solo (session "a" True) (tick "a") [] w h r w' ∧
      h.any (evicted "a") = true ∧ Beats "a" w h w' := by
  have heval : (bootAndLose.bind fun w => ((tick "a").record wait answer [] w).map fun x => (w, x)).any
      (fun x => (x.1.pages "a").view = .running && ((x.1.pages "a").heartbeatTimer.isSome &&
        x.2.1.any (evicted "a"))) = true := by
    decide +kernel
  obtain ⟨⟨w, h, r, w'⟩, hx, hend⟩ := (Option.any_eq_true _ _).mp heval
  obtain ⟨hview, hend⟩ := Bool.and_eq_true_iff.mp hend
  obtain ⟨htimer, hforeign⟩ := Bool.and_eq_true_iff.mp hend
  obtain ⟨v, hv, hx⟩ := Option.bind_eq_some_iff.mp hx
  obtain ⟨x, hx, heq⟩ := Option.map_eq_some_iff.mp hx
  cases heq
  obtain ⟨⟨h₁, r₁, w₁⟩, hboot, rfl⟩ := Option.map_eq_some_iff.mp hv
  have hfirst : ¬ Latched "a" (Replaced.openedAfterB .released) := by
    rintro (hl | hl) <;> cases hl
  have hcall : Solo (session "a" True) (Call.boot.code "a") [] _ h₁ r₁ w₁ := solo_of_answered hboot
  have hlife : Life "a" (fun w => ¬ Latched "a" w) True (claimedByC w₁) :=
    .others (.call (.opened rfl rfl) hfirst hcall) (others_claimedByC w₁)
  have run := solo_of_answered (S := True) hx
  exact ⟨claimedByC w₁, w', h, r, of_decide_eq_true hview, run, hforeign,
    beats_of_unlatched "a" (claimedByC w₁) w' h r hlife htimer run⟩

/-- After a disconnect and a new connect the tick finds "c", and the node runs on. -/
theorem not_beats_reconnected : ¬ ∀ (w w' : World) (h : List RoamEntry) (r : Except Err Unit),
    Life "a" (fun _ => True) False w → (w.pages "a").view = .running →
      (w.pages "a").heartbeatTimer.isSome = true → Solo (session "a" False) (tick "a") [] w h r w' →
      Beats "a" w h w' := by
  intro hall
  have heval : (rebootAndLose.bind fun w => ((tick "a").record wait answer [] w).map fun x => (w, x)).any
      (fun x => (x.1.pages "a").view = .running && ((x.1.pages "a").heartbeatTimer.isSome &&
        (x.2.1.all (fun e => !failed e && !rewrote "a" e) && decide (x.2.2.2.Runs "a")))) = true := by
    decide +kernel
  obtain ⟨⟨w, h, r, w'⟩, hx, hend⟩ := (Option.any_eq_true _ _).mp heval
  obtain ⟨hview, hend⟩ := Bool.and_eq_true_iff.mp hend
  obtain ⟨htimer, hend⟩ := Bool.and_eq_true_iff.mp hend
  obtain ⟨hnone, hruns⟩ := Bool.and_eq_true_iff.mp hend
  obtain ⟨v, hv, hx⟩ := Option.bind_eq_some_iff.mp hx
  obtain ⟨x, hx, heq⟩ := Option.map_eq_some_iff.mp hx
  cases heq
  obtain ⟨⟨h₂, r₂, w₂⟩, hy, hv⟩ := Option.bind_eq_some_iff.mp hv
  obtain ⟨⟨h₁, r₁, w₁⟩, hboot, hdispose⟩ := Option.bind_eq_some_iff.mp hy
  obtain ⟨⟨h₃, r₃, w₃⟩, hreboot, rfl⟩ := Option.map_eq_some_iff.mp hv
  have hcall : Solo (session "a" False) (Call.boot.code "a") [] _ h₁ r₁ w₁ := solo_of_answered hboot
  have hagain : Solo (session "a" False) (Call.boot.code "a") [] _ h₃ r₃ w₃ := solo_of_answered hreboot
  have hlife : Life "a" (fun _ => True) False (claimedByC w₃) :=
    .others (.call (.dispose (.call (.opened rfl rfl) trivial hcall) (solo_of_answered hdispose)) trivial
      hagain) (others_claimedByC w₃)
  have hbeats := hall (claimedByC w₃) w' h r hlife (of_decide_eq_true hview) htimer (solo_of_answered hx)
  have hall' : ∀ e ∈ h, failed e = false ∧ rewrote "a" e = false := fun e he => by
    simpa using List.all_eq_true.mp hnone e he
  rcases hbeats.reached fun e he => (hall' e he).1 with ⟨e, he, hrewrote⟩ | ⟨-, hstopped, -⟩
  · rw [(hall' e he).2] at hrewrote
    cases hrewrote
  · exact hstopped (of_decide_eq_true hruns)

end LibreWallet.Embed.Reconnect
