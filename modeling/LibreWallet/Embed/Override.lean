import LibreWallet.Embed.Replaced
import LibreWallet.Roaming.Moves

/-
  Embed/Override.lean --- how far an override reaches.

  `forceRestoreAnyway` arms a flag of the session, and nothing disarms it: `boot` and `moveHere`
  put the record of a new predecessor in place of the one that the user gave up, and judge it with
  the flag that was meant for the other.
-/

set_option autoImplicit false

namespace LibreWallet.Embed.Override

open Async Controller Roaming
open Replaced (Call)

/-! ## The calls of a session -/

/-- A view with the escape hatch. -/
def overridable : View → Bool
  | .halted _ _ (some _) => true
  | _ => false

/-- Whether a call does anything. -/
def acts : Call → View → Bool
  | .boot, _ => true
  | .moveHere _, .blocked _ _ => true
  | .submitSecret _, .needSecret => true
  | .forceRestoreAnyway, v => overridable v
  | _, _ => false

/-- A claim of its own: what `submitSecret` and `forceRestoreAnyway` go on with is the claim of an
earlier call. -/
def claims : Call → Bool
  | .boot | .moveHere _ => true
  | _ => false

/-- The session halted over a predecessor that nothing vouches for. -/
def Halted (token : String) (w : World) : Prop :=
  ∃ staleOrigin, (w.pages token).view = unprovenHandoffHalt staleOrigin

/-- What the others leave alone: the record the session judges and its override; they do not call
for a proof in its place, nor halt it over one. -/
structure Others (token : String) (w w' : World) : Prop where
  preClaim : (w'.pages token).preClaimRecord = (w.pages token).preClaimRecord
  override : (w'.pages token).overrideUnprovenHandoff = (w.pages token).overrideUnprovenHandoff
  view : (w'.pages token).view = (w.pages token).view ∨ overridable (w'.pages token).view = false
  log : ∃ new, w'.log = new ++ w.log ∧ ∀ i, Note.evaluated token i ∉ new

/-- A call of the session, its requests answered in any way. -/
def session (token : String) : Contract World Request Answer Err Choice :=
  among (exec token) (Others token) fun _ _ _ _ => True

/-- A session since its page was opened: the calls that did anything, newest first. -/
inductive Life (token : String) : List Call → World → Prop where
  | opened {w : World} : (w.pages token).view = .stopped →
      (w.pages token).overrideUnprovenHandoff = false → Life token [] w
  | others {calls : List Call} {w w' : World} : Life token calls w → Others token w w' → Life token calls w'
  | call {calls : List Call} {w w' : World} {call : Call} {h : List RoamEntry} {r : Except Err Unit} :
      Life token calls w → Solo (session token) (call.code token) [] w h r w' →
      Life token (if acts call (w.pages token).view then call :: calls else calls) w'

/-- The calls of the claim that a call belongs to, itself included. -/
def ofClaim (call : Call) (calls : List Call) : List Call :=
  if claims call then [call] else call :: calls.takeWhile fun c => !claims c

/-! ## The others -/

variable {token : String} {h : List RoamEntry} {s w w₀ w₁ w₂ : World} {b : Bool}

namespace Others

theorem refl (token : String) (w : World) : Others token w w where
  preClaim := rfl
  override := rfl
  view := .inl rfl
  log := ⟨[], rfl, fun _ hi => by cases hi⟩

theorem trans (h₁ : Others token w w₁) (h₂ : Others token w₁ w₂) : Others token w w₂ where
  preClaim := h₂.preClaim.trans h₁.preClaim
  override := h₂.override.trans h₁.override
  view := by
    rcases h₂.view with hsame | hother
    · rw [hsame]
      exact h₁.view
    · exact .inr hother
  log := by
    obtain ⟨new₁, hlog₁, hno₁⟩ := h₁.log
    obtain ⟨new₂, hlog₂, hno₂⟩ := h₂.log
    refine ⟨new₂ ++ new₁, by rw [hlog₂, hlog₁, List.append_assoc], fun i hi => ?_⟩
    rcases List.mem_append.mp hi with hi | hi
    · exact hno₂ i hi
    · exact hno₁ i hi

theorem setPage {f : Page → Page}
    (hpre : (f (w.pages token)).preClaimRecord = (w.pages token).preClaimRecord)
    (ho : (f (w.pages token)).overrideUnprovenHandoff = (w.pages token).overrideUnprovenHandoff)
    (hv : (f (w.pages token)).view = (w.pages token).view ∨ overridable (f (w.pages token)).view = false) :
    Others token w (w.setPage token f) := by
  refine ⟨?_, ?_, ?_, [], rfl, fun _ hi => by cases hi⟩
  all_goals
    rw [World.setPage_self]
    assumption

theorem setNode (n : Node) : Others token w (w.setNode token n) := by
  refine ⟨?_, ?_, .inl ?_, [], rfl, fun _ hi => by cases hi⟩
  all_goals rw [World.setNode_self]

theorem note {n : Note} (hn : ∀ i, n ≠ .evaluated token i) : Others token w (w.note n) where
  preClaim := rfl
  override := rfl
  view := .inl rfl
  log := ⟨[n], rfl, fun i hi => hn i (List.mem_singleton.mp hi).symm⟩

theorem exec {q : Request} {c : Choice} {r : Except Err (Answer q)}
    (he : exec token q c w = some (r, w₁)) : Others token w w₁ :=
  exec_moves he (refl token w)
    (fun _ _ _ => ⟨rfl, rfl, .inl rfl, [], rfl, fun _ hi => by cases hi⟩)
    (fun n _ => setNode n) (fun _ _ hn hv => hv.trans (note (hn token)))
    fun _ _ => ⟨rfl, rfl, .inl rfl, [], rfl, fun _ hi => by cases hi⟩

end Others

theorem others_framing (token : String) : Framing (session token) (Others token) where
  free := among_free _ _ _
  refl := Others.refl token
  trans := Others.trans
  rely := fun _ _ h => h

/-- Code that calls for no proof and does not halt over one. -/
theorem keeping (token : String) :
    Keeping token (session token) (Others token) (fun _ => True) (fun _ => true) fun v => !overridable v where
  framing := others_framing token
  ask := fun _ _ => (others_framing token).request fun _ _ _ _ _ _ he => ⟨Others.exec he, trivial⟩
  view := fun v _ hv => Others.setPage rfl rfl (.inr (by simpa using hv))
  stop := fun _ => Others.setPage rfl rfl (.inl rfl)

theorem frames_acquire (takeover : Bool) :
    Frames (session token) (Others token) (fun _ => True) (acquire token takeover) :=
  (keeping token).acquire takeover rfl rfl rfl (fun _ => rfl) (fun _ _ => rfl)
    fun _ _ => Others.setPage rfl rfl (.inl rfl)

theorem frames_leaseFailureState (e : Err) :
    Frames (session token) (Others token) (fun _ => True) (leaseFailureState token e) :=
  (keeping token).leaseFailureState e (fun _ _ => rfl) rfl fun _ => rfl

theorem frames_startGuarded (skipStart : Bool) :
    Frames (session token) (Others token) (fun _ => True) (startGuarded token skipStart) :=
  (keeping token).startGuarded skipStart (fun _ => rfl) rfl (fun _ => rfl) (fun _ => rfl) (fun _ _ => rfl)
    rfl (fun _ => rfl) rfl ((keeping token).nowRunning rfl fun _ => Others.setPage rfl rfl (.inl rfl))

theorem frames_clearPredecessor :
    Frames (session token) (Others token) (fun _ => True) (clearPredecessor token) :=
  (keeping token).clearPredecessor rfl rfl (fun _ _ => rfl) fun _ _ => Others.setPage rfl rfl (.inl rfl)

theorem frames_restoreProven (envelope : Envelope) (secret : String) :
    Frames (session token) (Others token) (fun _ => True) (restoreProven token envelope secret) := by
  have hK := keeping token
  have hF := others_framing token
  refine hF.bind (Framing.attempt (hK.ask _ rfl)) fun restored => ?_
  split
  · exact hK.setView rfl
  · exact hF.bind (Framing.modify fun _ => Others.setPage rfl rfl (.inl rfl)) fun _ => frames_startGuarded true

/-! ## What a call leaves -/

/-- No proof was called for since `w₀`, and the override is `b`. -/
structure Quiet (token : String) (b : Bool) (w₀ w : World) : Prop where
  override : (w.pages token).overrideUnprovenHandoff = b
  log : ∃ new, w.log = new ++ w₀.log ∧ ∀ i, Note.evaluated token i ∉ new

/-- The proofs called for since `w₀` were judged with the override `b`, about the record that the
session holds, and halted it exactly where they failed. -/
structure Left (token : String) (b : Bool) (w₀ w : World) : Prop where
  override : (w.pages token).overrideUnprovenHandoff = b
  log : ∃ new, w.log = new ++ w₀.log ∧ ∀ i, Note.evaluated token i ∈ new → i.override = b ∧
    i.lease = (w.pages token).preClaimRecord ∧ ((evaluateHandoffProof i).isProven = false ↔ Halted token w)

abbrev leaves (token : String) (b : Bool) (w₀ : World) : PostCond World Request Answer Err Unit :=
  fun _ _ _ w => Left token b w₀ w

theorem Halted.overridable (hh : Halted token w) : overridable (w.pages token).view = true := by
  obtain ⟨staleOrigin, hv⟩ := hh
  rw [hv]
  rfl

theorem Quiet.left (hq : Quiet token b w₀ w) : Left token b w₀ w := by
  obtain ⟨new, hlog, hno⟩ := hq.log
  exact ⟨hq.override, new, hlog, fun i hi => absurd hi (hno i)⟩

theorem Quiet.refl (token : String) (w : World) :
    Quiet token (w.pages token).overrideUnprovenHandoff w w :=
  ⟨rfl, [], rfl, fun _ hi => by cases hi⟩

theorem Quiet.others (hq : Quiet token b w₀ w) (ho : Others token w w₁) : Quiet token b w₀ w₁ := by
  obtain ⟨new, hlog, hno⟩ := hq.log
  obtain ⟨new₁, hlog₁, hno₁⟩ := ho.log
  refine ⟨ho.override.trans hq.override, new₁ ++ new, by rw [hlog₁, hlog, List.append_assoc], fun i hi => ?_⟩
  rcases List.mem_append.mp hi with hi | hi
  · exact hno₁ i hi
  · exact hno i hi

theorem Quiet.setPage (hq : Quiet token b w₀ w) {f : Page → Page}
    (ho : (f (w.pages token)).overrideUnprovenHandoff = (w.pages token).overrideUnprovenHandoff) :
    Quiet token b w₀ (w.setPage token f) := by
  refine ⟨?_, hq.log⟩
  rw [World.setPage_self, ho]
  exact hq.override

/-- A proof, and what the session does on it. -/
theorem Quiet.evaluated (hq : Quiet token b w₀ w) {i : HandoffProofInputs} (hi : i.override = b)
    (hl : i.lease = (w.pages token).preClaimRecord) (ho : Others token (w.note (.evaluated token i)) w₁)
    (hv : (evaluateHandoffProof i).isProven = false ↔ Halted token w₁) : Left token b w₀ w₁ := by
  obtain ⟨new, hlog, hno⟩ := hq.log
  obtain ⟨new₁, hlog₁, hno₁⟩ := ho.log
  refine ⟨ho.override.trans hq.override, new₁ ++ (.evaluated token i :: new), ?_, fun i' hi' => ?_⟩
  · rw [hlog₁, World.note_log, hlog, List.append_assoc, List.cons_append]
  · rcases List.mem_append.mp hi' with hi' | hi'
    · exact absurd hi' (hno₁ i')
    · rcases List.mem_cons.mp hi' with heq | hold
      · cases heq
        exact ⟨hi, hl.trans ho.preClaim.symm, hv⟩
      · exact absurd hold (hno i')

/-- Code that calls for no proof. -/
theorem wp_quiet {p : Roam Unit} (hp : Frames (session token) (Others token) (fun _ => True) p)
    (hq : Quiet token b w₀ w) : wp (session token) p h (leaves token b w₀) s w :=
  hp h s w _ fun _ _ _ _ ho _ => (hq.others ho).left

/-- The halt over a proof that failed. -/
theorem Quiet.halt (hq : Quiet token b w₀ w) {i : HandoffProofInputs} (hi : i.override = b)
    (hl : i.lease = (w.pages token).preClaimRecord) (hproof : (evaluateHandoffProof i).isProven = false)
    (staleOrigin : String) :
    Left token b w₀ ((w.note (.evaluated token i)).setPage token
      fun p => { p with view := unprovenHandoffHalt staleOrigin }) := by
  obtain ⟨new, hlog, hno⟩ := hq.log
  refine ⟨?_, .evaluated token i :: new, ?_, fun i' hi' => ?_⟩
  · rw [World.setPage_self]
    exact hq.override
  · rw [World.setPage_log, World.note_log, hlog, List.cons_append]
  · rcases List.mem_cons.mp hi' with heq | hold
    · cases heq
      refine ⟨hi, ?_, fun _ => ⟨staleOrigin, ?_⟩, fun _ => ?_⟩
      · rw [World.setPage_self]
        exact hl
      · rw [World.setPage_self]
      · exact hproof
    · exact absurd hold (hno i')

/-- The session goes on past a proof. -/
theorem Quiet.passed (hq : Quiet token b w₀ w) {i : HandoffProofInputs} (hi : i.override = b)
    (hl : i.lease = (w.pages token).preClaimRecord) (hproof : (evaluateHandoffProof i).isProven = true)
    (ho : Others token (w.note (.evaluated token i)) w₁) (hv : overridable (w₁.pages token).view = false) :
    Left token b w₀ w₁ := by
  refine hq.evaluated hi hl ho ⟨fun hf => ?_, fun hh => ?_⟩
  · rw [hproof] at hf
    cases hf
  · rw [hh.overridable] at hv
    cases hv

/-- A start shows that it has begun, and halts over no proof. -/
theorem wp_startGuarded (skipStart : Bool) {Post : PostCond World Request Answer Err Unit}
    (hk : ∀ h' r s' w', Others token w w' → overridable (w'.pages token).view = false → Post h' r s' w') :
    wp (session token) (startGuarded token skipStart) h Post s w := by
  have hstarting : Others token w (w.setPage token fun p => { p with view := .starting }) :=
    Others.setPage rfl rfl (.inr rfl)
  have hframe := @frames_startGuarded token skipStart h s
    (w.setPage token fun p => { p with view := .starting }) Post fun h' r s' w' ho _ =>
      hk h' r s' w' (hstarting.trans ho) ?_
  · simp only [startGuarded, setView, updatePage, Proc.bind_eq, wp_bind, wp_modify,
      World.setPage_setPage] at hframe ⊢
    exact hframe
  · rcases ho.view with hsame | hother
    · rw [hsame, World.setPage_self]
      rfl
    · exact hother

/-- A claimed session that does not halt has its proof, where it asks for one. -/
theorem decision_proven {i : RoamingBootInputs} (hc : i.leaseClaimed = true) (hg : i.gateNow = true)
    (hd : ∀ staleOrigin missing, roamingBootDecision i ≠ .haltVersionGap staleOrigin missing) :
    (evaluateHandoffProof i.toHandoffProofInputs).isProven = true := by
  cases hproof : evaluateHandoffProof i.toHandoffProofInputs with
  | proven via => rfl
  | unproven staleOrigin advertised version =>
    refine absurd ?_ (hd staleOrigin (advertised - max version i.localStateVersion))
    simp only [roamingBootDecision, hc, hg, hproof, not_true_eq_false, and_false, if_false, if_true]

/-- It halts over nothing else. -/
theorem decision_halt {i : RoamingBootInputs} {staleOrigin : String} {missing : Nat}
    (hd : roamingBootDecision i = .haltVersionGap staleOrigin missing) :
    i.gateNow = true ∧ (evaluateHandoffProof i.toHandoffProofInputs).isProven = false := by
  simp only [roamingBootDecision] at hd
  split at hd
  · cases hd
  split at hd
  · rename_i hg
    refine ⟨hg, ?_⟩
    cases hproof : evaluateHandoffProof i.toHandoffProofInputs with
    | unproven o a v => rfl
    | proven via =>
      rw [hproof] at hd
      dsimp only at hd
      split at hd
      · cases hd
      split at hd <;> cases hd
  · split at hd
    · cases hd
    split at hd <;> cases hd

/-- The boot decision: the session halts where the proof fails, and nowhere else. -/
theorem wp_routeClaimed (hq : Quiet token b w₀ w) (info : LocalInfo) (backup : Option Envelope)
    (version : Option Nat) :
    wp (session token) (routeClaimed token info backup version) h (leaves token b w₀) s w := by
  simp only [routeClaimed, Proc.bind_eq, wp_bind, wp_get]
  split
  · rename_i hgate
    simp only [wp_bind, noteEvaluated, wp_modify]
    have ho := hq.override
    have hpassed : ∀ d, roamingBootDecision (bootInputs w token info backup version) = d →
        (∀ o n, d ≠ .haltVersionGap o n) →
        (evaluateHandoffProof (bootInputs w token info backup version).toHandoffProofInputs).isProven = true :=
      fun d hd hne => decision_proven rfl hgate fun o n => hd ▸ hne o n
    split
    · rename_i hd
      refine hq.passed ho rfl (hpassed _ hd fun _ _ hc => by cases hc) (Others.setPage rfl rfl (.inr rfl)) ?_
      rw [World.setPage_self]
      rfl
    · rename_i staleOrigin _ hd
      exact hq.halt ho rfl (decision_halt hd).2 staleOrigin
    · rename_i hd
      refine hq.passed ho rfl (hpassed _ hd fun _ _ hc => by cases hc) (Others.setPage rfl rfl (.inr rfl)) ?_
      rw [World.setPage_self]
      rfl
    · rename_i hd
      refine hq.passed ho rfl (hpassed _ hd fun _ _ hc => by cases hc) (Others.setPage rfl rfl (.inr rfl)) ?_
      rw [World.setPage_self]
      rfl
    · rename_i hd
      exact wp_startGuarded false fun _ _ _ _ hw hv =>
        hq.passed ho rfl (hpassed _ hd fun _ _ hc => by cases hc) hw hv
  · split
    · exact (hq.setPage rfl).left
    · exact (hq.setPage rfl).left
    · exact (hq.setPage rfl).left
    · exact (hq.setPage rfl).left
    · exact wp_quiet (frames_startGuarded false) hq

theorem wp_continueClaimed (hq : Quiet token b w₀ w) :
    wp (session token) (continueClaimed token) h (leaves token b w₀) s w := by
  have hK := keeping token
  have hF := others_framing token
  simp only [continueClaimed, Proc.bind_eq, wp_bind]
  refine Framing.attempt (hF.bind (hK.ask _ rfl) fun l => hF.bind (hK.ask _ rfl) fun x => hF.done _)
    _ _ _ _ fun h₁ r s₁ w₁ ho₁ _ => ?_
  have hq₁ := hq.others ho₁
  cases r with
  | error e => exact hq₁.left
  | ok read =>
    cases read with
    | error e => exact (hq₁.setPage rfl).left
    | ok x =>
      simp only [wp_bind]
      refine hK.readBackupVersion _ _ (fun _ _ => rfl) _ _ _ _ fun h₂ r s₂ w₂ ho₂ _ => ?_
      cases r with
      | error e => exact (hq₁.others ho₂).left
      | ok version => exact wp_routeClaimed (hq₁.others ho₂) _ _ _

/-! ## The calls -/

theorem wp_boot : wp (session token) (boot token) h
    (leaves token (w.pages token).overrideUnprovenHandoff w) s w := by
  have hK := keeping token
  simp only [boot, setView, updatePage, Proc.bind_eq, wp_bind, wp_modify]
  have hq : Quiet token (w.pages token).overrideUnprovenHandoff w
    (w.setPage token fun p => { p with view := .checking }) := (Quiet.refl token w).setPage rfl
  refine Framing.attempt (hK.peek rfl) _ _ _ _ fun h₁ r s₁ w₁ ho₁ _ => ?_
  have hq₁ := hq.others ho₁
  cases r with
  | error e => exact hq₁.left
  | ok peeked =>
    cases peeked with
    | error e => exact (hq₁.setPage rfl).left
    | ok x =>
      obtain ⟨record, state⟩ := x
      simp only [wp_bind, wp_modify]
      have hq₂ := hq₁.setPage (f := fun p => { p with preClaimRecord := record }) rfl
      split
      · exact (hq₂.setPage rfl).left
      · rw [wp_bind]
        refine Framing.attempt (frames_acquire false) _ _ _ _ fun h₂ r s₂ w₂ ho₂ _ => ?_
        have hq₃ := hq₂.others ho₂
        cases r with
        | error e => exact hq₃.left
        | ok claimed =>
          cases claimed with
          | error e => exact wp_quiet (frames_leaseFailureState e) hq₃
          | ok r => exact wp_continueClaimed hq₃

theorem wp_pollTakeover (previousOwner : String) (claimedAt polls : Nat) (hq : Quiet token b w₀ w) :
    wp (session token) (pollTakeover token previousOwner claimedAt polls) h (leaves token b w₀) s w := by
  have hK := keeping token
  induction polls generalizing h s w with
  | zero => exact hq.left
  | succ polls ih =>
    simp only [pollTakeover, setView, updatePage, Proc.bind_eq, wp_bind, wp_get, wp_modify]
    have hq₀ := hq.setPage (f := fun p => { p with view := .moving (w.clock - claimedAt) }) rfl
    refine Framing.attempt (hK.peek rfl) _ _ _ _ fun h₁ r s₁ w₁ ho₁ _ => ?_
    have hq₁ := hq₀.others ho₁
    cases r with
    | error e => exact hq₁.left
    | ok peeked =>
      dsimp only
      split
      · exact (hq₁.setPage rfl).left
      · rw [wp_bind, wp_modify]
        exact wp_continueClaimed (hq₁.setPage rfl)
      · rw [wp_bind, wp_modify]
        exact wp_continueClaimed (hq₁.setPage rfl)
      · rw [wp_bind]
        refine hK.ask _ rfl _ _ _ _ fun h₂ r s₂ w₂ ho₂ _ => ?_
        cases r with
        | error e => exact (hq₁.others ho₂).left
        | ok u => exact ih (hq₁.others ho₂)

theorem wp_moveHere (polls : Nat) : wp (session token) (moveHere token polls) h
    (leaves token (w.pages token).overrideUnprovenHandoff w) s w := by
  have hq := Quiet.refl token w
  simp only [moveHere, Proc.bind_eq, wp_bind, wp_get]
  split
  · rw [wp_bind]
    refine Framing.attempt (frames_acquire true) _ _ _ _ fun h₁ r s₁ w₁ ho₁ _ => ?_
    have hq₁ := hq.others ho₁
    cases r with
    | error e => exact hq₁.left
    | ok claimed =>
      cases claimed with
      | error e => exact wp_quiet (frames_leaseFailureState e) hq₁
      | ok r => exact wp_pollTakeover _ _ _ hq₁
  · exact hq.left

theorem wp_submitSecret (secret : String) : wp (session token) (submitSecret token secret) h
    (leaves token (w.pages token).overrideUnprovenHandoff w) s w := by
  have hK := keeping token
  have hq := Quiet.refl token w
  simp only [submitSecret, Proc.bind_eq, wp_bind, wp_get]
  split
  · rename_i envelope hview hpending
    rw [wp_bind]
    refine hK.ask _ rfl _ _ _ _ fun h₁ r s₁ w₁ ho₁ _ => ?_
    have hq₁ := hq.others ho₁
    have hshown : overridable (w₁.pages token).view = false := by
      rcases ho₁.view with hsame | hother
      · rw [hsame, hview]
        rfl
      · exact hother
    cases r with
    | error e => exact hq₁.left
    | ok v =>
      dsimp only
      split
      · simp only [wp_bind, wp_get, noteEvaluated, wp_modify]
        split
        · rename_i staleOrigin _ _ hproof
          exact hq₁.halt hq₁.override rfl (by rw [hproof]; rfl) staleOrigin
        · rename_i via hproof
          refine frames_restoreProven _ _ _ _ _ _ fun h₂ r s₂ w₂ ho₂ _ => ?_
          refine hq₁.passed hq₁.override rfl (by rw [hproof]; rfl) ho₂ ?_
          rcases ho₂.view with hsame | hother
          · rw [hsame]
            exact hshown
          · exact hother
      · exact (hq₁.setPage rfl).left
  · exact hq.left

/-- The override is armed by the call, where it does anything. -/
theorem wp_forceRestoreAnyway : wp (session token) (forceRestoreAnyway token) h
    (leaves token ((w.pages token).overrideUnprovenHandoff || overridable (w.pages token).view) w) s w := by
  have hK := keeping token
  simp only [forceRestoreAnyway, updatePage, Proc.bind_eq, wp_bind, wp_get]
  split
  · rename_i hview
    simp only [wp_bind, wp_modify]
    have hq : Quiet token ((w.pages token).overrideUnprovenHandoff || overridable (w.pages token).view) w
        (w.setPage token fun p => { p with overrideUnprovenHandoff := true }) := by
      refine ⟨?_, (Quiet.refl token w).log⟩
      rw [World.setPage_self, hview]
      simp [overridable]
    refine frames_clearPredecessor _ _ _ _ fun h₁ r s₁ w₁ ho₁ _ => ?_
    have hq₁ := hq.others ho₁
    cases r with
    | error e => exact hq₁.left
    | ok u =>
      simp only [wp_get]
      split
      · exact (hq₁.setPage rfl).left
      · exact wp_continueClaimed hq₁
  · rename_i hview
    have hno : overridable (w.pages token).view = false := by
      unfold overridable
      split
      · exact absurd ‹_› (hview _ _ _)
      · rfl
    rw [hno, Bool.or_false]
    exact (Quiet.refl token w).left

/-- The override after a call. -/
def armed (token : String) (w : World) : Call → Bool
  | .forceRestoreAnyway => (w.pages token).overrideUnprovenHandoff || overridable (w.pages token).view
  | _ => (w.pages token).overrideUnprovenHandoff

theorem wp_call (call : Call) :
    wp (session token) (call.code token) h (leaves token (armed token w call) w) s w := by
  cases call with
  | boot => exact wp_boot
  | moveHere polls => exact wp_moveHere polls
  | submitSecret secret => exact wp_submitSecret secret
  | forceRestoreAnyway => exact wp_forceRestoreAnyway

theorem left_of_solo {call : Call} {r : Except Err Unit}
    (run : Solo (session token) (call.code token) [] w h r w₁) : Left token (armed token w call) w w₁ := by
  obtain ⟨s', hl⟩ := run.sound (fun _ _ _ _ => trivial) (wp_call (s := w) call)
  exact hl

/-- The record that the session judges stays in place. -/
def SameRecord (token : String) (w w' : World) : Prop :=
  (w'.pages token).preClaimRecord = (w.pages token).preClaimRecord

theorem SameRecord.setPage {f : Page → Page}
    (hpre : (f (w.pages token)).preClaimRecord = (w.pages token).preClaimRecord) :
    SameRecord token w (w.setPage token f) := by
  rw [SameRecord, World.setPage_self]
  exact hpre

theorem record_framing (token : String) : Framing (session token) (SameRecord token) where
  free := among_free _ _ _
  refl := fun _ => rfl
  trans := fun h₁ h₂ => Eq.trans h₂ h₁
  rely := fun _ _ h => h.preClaim

theorem record_keeping (token : String) :
    Keeping token (session token) (SameRecord token) (fun _ => True) (fun _ => true) fun _ => true where
  framing := record_framing token
  ask := fun _ _ => (record_framing token).request fun _ _ _ _ _ _ he => ⟨(Others.exec he).preClaim, trivial⟩
  view := fun _ _ _ => SameRecord.setPage rfl
  stop := fun _ => SameRecord.setPage rfl

/-- A call that claims nothing goes on with the record that the session has. -/
theorem frames_record {call : Call} (hc : claims call = false) :
    Frames (session token) (SameRecord token) (fun _ => True) (call.code token) := by
  have hK := record_keeping token
  have hF := record_framing token
  have hstart : ∀ skipStart, Frames (session token) (SameRecord token) (fun _ => True)
      (startGuarded token skipStart) := fun skipStart =>
    hK.startGuarded skipStart (fun _ => rfl) rfl (fun _ => rfl) (fun _ => rfl) (fun _ _ => rfl) rfl
      (fun _ => rfl) rfl (hK.nowRunning rfl fun _ => SameRecord.setPage rfl)
  cases call with
  | boot => cases hc
  | moveHere polls => cases hc
  | submitSecret secret =>
    refine hF.bind hF.get fun w => ?_
    split
    · refine hF.bind (hK.ask _ rfl) fun v => ?_
      split
      · refine hF.bind hF.get fun w => hF.bind (Framing.modify fun _ => rfl) fun _ => ?_
        split
        · exact hK.setView rfl
        · refine hF.bind (Framing.attempt (hK.ask _ rfl)) fun restored => ?_
          split
          · exact hK.setView rfl
          · exact hF.bind (Framing.modify fun _ => SameRecord.setPage rfl) fun _ => hstart true
      · exact hK.setView rfl
    · exact hF.done _
  | forceRestoreAnyway =>
    refine hF.bind hF.get fun w => ?_
    split
    · refine hF.bind (Framing.modify fun _ => SameRecord.setPage rfl) fun _ => ?_
      refine hF.bind (hK.clearPredecessor rfl rfl (fun _ _ => rfl) fun _ _ => SameRecord.setPage rfl) fun _ => ?_
      refine hF.bind hF.get fun w => ?_
      split
      · exact hK.setView rfl
      · exact hK.continueClaimed rfl rfl (fun _ _ => rfl) rfl fun _ _ _ =>
          hK.routeClaimed _ _ _ (fun _ => rfl) (fun _ _ => rfl) (fun _ => SameRecord.setPage rfl) (hstart false)
    · exact hF.done _

theorem sameRecord_of_solo {call : Call} {r : Except Err Unit} (hc : claims call = false)
    (run : Solo (session token) (call.code token) [] w h r w₁) : SameRecord token w w₁ := by
  obtain ⟨s', hsame⟩ := run.sound (fun _ _ _ _ => trivial)
    (frames_record hc [] w w (fun _ _ _ w' => SameRecord token w w') fun _ _ _ _ hsame _ => hsame)
  exact hsame

/-! ## A session -/

/-- The override is armed where it ever was. -/
theorem Life.override {calls : List Call} (hw : Life token calls w) :
    (w.pages token).overrideUnprovenHandoff = true ↔ Call.forceRestoreAnyway ∈ calls := by
  induction hw with
  | opened _ ho => simp [ho]
  | others _ ho ih => rw [ho.override, ih]
  | @call calls w w' call h r _ run ih =>
    rw [(left_of_solo run).override]
    cases call with
    | forceRestoreAnyway =>
      cases hv : overridable (w.pages token).view with
      | true => simp [armed, acts, hv]
      | false => simp [armed, acts, hv, ih]
    | boot => simp [armed, acts, ih]
    | moveHere polls =>
      simp only [armed, ih]
      split <;> simp
    | submitSecret secret =>
      simp only [armed, ih]
      split <;> simp

/-- An armed override is a proof. -/
theorem isProven_of_override {i : HandoffProofInputs} (ho : i.override = true) :
    (evaluateHandoffProof i).isProven = true := by
  rw [evaluateHandoffProof, if_pos ho]
  rfl

/-- In every life of a session, whatever the others do: where a call asks for a proof that fails, the
session halts, or its override was armed within the same claim, exactly if the override was not armed
before that claim; and a call that claims nothing judges the record that the session halted over. -/
theorem halts_iff_confined (token : String) (calls : List Call) (w w' : World) (call : Call)
    (h : List RoamEntry) (r : Except Err Unit) (hw : Life token calls w)
    (run : Solo (session token) (call.code token) [] w h r w') (new : List Note)
    (hlog : w'.log = new ++ w.log) (i : HandoffProofInputs) (hi : .evaluated token i ∈ new)
    (hfails : (evaluateHandoffProof { i with override := false }).isProven = false) :
    ((Halted token w' ∨ .forceRestoreAnyway ∈ ofClaim call calls) ↔
      (Call.forceRestoreAnyway ∈ calls → .forceRestoreAnyway ∈ ofClaim call calls)) ∧
    (claims call = false → i.lease = (w.pages token).preClaimRecord) := by
  have hl := left_of_solo run
  obtain ⟨new', hlog', hall⟩ := hl.log
  have hsame : new' = new := List.append_cancel_right (hlog'.symm.trans hlog)
  obtain ⟨ho, hlease, hiff⟩ := hall i (hsame ▸ hi)
  refine ⟨?_, fun hc => hlease.trans (sameRecord_of_solo hc run)⟩
  by_cases hmine : Call.forceRestoreAnyway ∈ ofClaim call calls
  · exact ⟨fun _ _ => hmine, fun _ => .inr hmine⟩
  · have harmed : armed token w call = (w.pages token).overrideUnprovenHandoff := by
      cases call with
      | forceRestoreAnyway => exact absurd (by simp [ofClaim, claims]) hmine
      | _ => rfl
    simp only [hmine, or_false, imp_false, ← hw.override]
    rw [← hiff, ← harmed, ← ho]
    cases hb : i.override with
    | true => simp [isProven_of_override hb]
    | false =>
      have heq : { i with override := false } = i := by
        rw [← hb]
      rw [heq] at hfails
      simp [hfails]

/-- Every request is answered, and a delay fires when it is due. -/
def answer (token : String) (q : Request) (w : World) : Option (Except Err (Answer q) × World) :=
  exec token q .ok w

def wait (q : Request) (w : World) : World :=
  match q with
  | .delayUntil deadline => { w with clock := max w.clock deadline }
  | _ => w

theorem solo_of_answered {call : Call} {r : Except Err Unit} {w' : World}
    (hp : (call.code token).record wait (answer token) [] w = some (h, r, w')) :
    Solo (session token) (call.code token) [] w h r w' := by
  refine Proc.solo_of_record (Others.refl token) (fun q w => ?_) (fun _ _ _ _ _ he => ⟨.ok, trivial, he⟩) hp
  cases q <;> exact ⟨rfl, rfl, .inl rfl, [], rfl, fun _ hi => by cases hi⟩

/-- A page at version 5, over the expired lease of "b" at version 9. -/
def overB : World where
  clock := 200000
  drive := { firstLease := some (Replaced.heldByB 1 9 .live), firstBackup := some ⟨"seed", 5⟩ }
  origins := fun _ => { db := { seed := some "seed", stateVersion := 5, channelManager := true } }
  pages := fun _ => { origin := "https://a.example", status := .alive }

/-- "c" has held the lease since, and reached version 20. -/
def renewedByC (w : World) : World :=
  { w.writeLease "c" (.claim .acquire none)
      { Replaced.heldByB 1 20 .live with owner := "c", origin := "https://c.example" } with
    clock := w.clock + 120000 }

theorem others_renewedByC (w : World) : Others "a" w (renewedByC w) where
  preClaim := rfl
  override := rfl
  view := .inl rfl
  log := ⟨[], rfl, fun _ hi => by cases hi⟩

/-- The proofs that a call asked for, where they fail without the override. -/
def failing (token : String) (w w' : World) : List HandoffProofInputs :=
  (w'.log.take (w'.log.length - w.log.length)).filterMap fun
    | .evaluated t i =>
      if t = token ∧ (evaluateHandoffProof { i with override := false }).isProven = false then some i else none
    | _ => none

theorem of_mem_failing {i : HandoffProofInputs} (hi : i ∈ failing token w w₁) :
    Note.evaluated token i ∈ w₁.log.take (w₁.log.length - w.log.length) ∧
      (evaluateHandoffProof { i with override := false }).isProven = false := by
  obtain ⟨n, hn, hsome⟩ := List.mem_filterMap.mp hi
  cases n with
  | evaluated t i' =>
    simp only [Option.ite_none_right_eq_some, Option.some.injEq] at hsome
    obtain ⟨⟨rfl, hfails⟩, rfl⟩ := hsome
    exact ⟨hn, hfails⟩
  | stopped t o v => cases hsome
  | restore t o => cases hsome

/-- The first boot of a session halts over "b". -/
theorem halts_iff_confined_first : ∃ (h : List RoamEntry) (r : Except Err Unit) (w' : World)
    (i : HandoffProofInputs), Solo (session "a") (Call.boot.code "a") [] overB h r w' ∧
      .evaluated "a" i ∈ w'.log ∧ (Halted "a" w' ∨ Call.forceRestoreAnyway ∈ ofClaim .boot []) := by
  have heval : ((Call.boot.code "a").record wait (answer "a") [] overB).any (fun x =>
      decide (x.2.2.log.take (x.2.2.log.length - overB.log.length) = x.2.2.log) &&
      !(failing "a" overB x.2.2).isEmpty) = true := by
    decide +kernel
  obtain ⟨⟨h, r, w'⟩, hx, hsome⟩ := (Option.any_eq_true _ _).mp heval
  obtain ⟨htake, hsome⟩ := Bool.and_eq_true_iff.mp hsome
  obtain ⟨i, hi⟩ : ∃ i, i ∈ failing "a" overB w' := by
    cases hf : failing "a" overB w' with
    | nil => simp [hf] at hsome
    | cons i l => exact ⟨i, List.mem_cons_self ..⟩
  obtain ⟨hmem, hfails⟩ := of_mem_failing hi
  rw [of_decide_eq_true htake] at hmem
  have run := solo_of_answered hx
  refine ⟨h, r, w', i, run, hmem, ?_⟩
  exact (halts_iff_confined "a" [] overB w' .boot h r (.opened rfl rfl) run w'.log
    (List.append_nil _).symm i hmem hfails).1.mpr fun hc => by cases hc

/-- The session halts over "b" and is overridden; "c" claims the wallet and reaches version 20; the
next boot of the session starts over "c" at version 5. -/
theorem not_confined_next : ¬ ∀ (calls : List Call) (w w' : World) (call : Call) (h : List RoamEntry)
    (r : Except Err Unit) (new : List Note) (i : HandoffProofInputs), Life "a" calls w →
      Solo (session "a") (call.code "a") [] w h r w' → w'.log = new ++ w.log → .evaluated "a" i ∈ new →
      (evaluateHandoffProof { i with override := false }).isProven = false →
      Halted "a" w' ∨ .forceRestoreAnyway ∈ ofClaim call calls := by
  intro hall
  have heval : ((((Call.boot.code "a").record wait (answer "a") [] overB).bind fun x =>
      (Call.forceRestoreAnyway.code "a").record wait (answer "a") [] x.2.2).bind fun y =>
        ((Call.boot.code "a").record wait (answer "a") [] (renewedByC y.2.2)).map fun z =>
          (renewedByC y.2.2, z)).any (fun z =>
            decide (z.2.2.2.log = z.2.2.2.log.take (z.2.2.2.log.length - z.1.log.length) ++ z.1.log) &&
            (!(failing "a" z.1 z.2.2.2).isEmpty && !overridable (z.2.2.2.pages "a").view)) = true := by
    decide +kernel
  obtain ⟨⟨w, h, r, w'⟩, hz, hbad⟩ := (Option.any_eq_true _ _).mp heval
  obtain ⟨⟨h₂, r₂, w₂⟩, hy, hz⟩ := Option.bind_eq_some_iff.mp hz
  obtain ⟨⟨h₁, r₁, w₁⟩, hx, hy⟩ := Option.bind_eq_some_iff.mp hy
  obtain ⟨⟨h₃, r₃, w₃⟩, hz, heq⟩ := Option.map_eq_some_iff.mp hz
  cases heq
  obtain ⟨hlog, hbad⟩ := Bool.and_eq_true_iff.mp hbad
  obtain ⟨hsome, hview⟩ := Bool.and_eq_true_iff.mp hbad
  obtain ⟨i, hi⟩ : ∃ i, i ∈ failing "a" (renewedByC w₂) w' := by
    cases hf : failing "a" (renewedByC w₂) w' with
    | nil => simp [hf] at hsome
    | cons i l => exact ⟨i, List.mem_cons_self ..⟩
  obtain ⟨hmem, hfails⟩ := of_mem_failing hi
  have hopened : Life "a" [] overB := .opened rfl rfl
  have hlife := ((hopened.call (solo_of_answered hx)).call
    (solo_of_answered hy)).others (others_renewedByC w₂)
  rcases hall _ _ w' .boot h r _ i hlife (solo_of_answered hz) (of_decide_eq_true hlog) hmem hfails with
    hhalted | hmine
  · have hno : overridable (w'.pages "a").view = false := by simpa using hview
    rw [hhalted.overridable] at hno
    cases hno
  · simp [ofClaim, claims] at hmine

end LibreWallet.Embed.Override
