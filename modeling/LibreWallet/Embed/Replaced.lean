import LibreWallet.Async.Alone
import LibreWallet.Roaming.Session

/-
  Embed/Replaced.lean --- the record that a proof is asked for.

  A session peeks at the lease file, and claims it later: the claim reads the file anew, its
  write lands later still, over whatever the file holds then, and the handoff proof is asked for
  about the record of the peek.  The calls of one session follow each other in any order; between
  any two of their requests the others may do anything to the lease file (`Frame`).
-/

set_option autoImplicit false

namespace LibreWallet.Embed.Replaced

open Async Controller Roaming

/-- The last claim of `token`: the record that it read, and what was written before it landed. -/
def lastClaim (token : String) : List Written → Option (Option RoamingLeaseRecord × List Written)
  | [] => none
  | x :: earlier =>
    match x.how with
    | .claim .acquire previous =>
      if x.author = token then some (previous, earlier) else lastClaim token earlier
    | _ => lastClaim token earlier

/-- The record that the last claim of `token` read. -/
def claimRead (token : String) (w : World) : Option (Option RoamingLeaseRecord) :=
  (lastClaim token w.drive.writes).map (·.1)

/-- What the lease file held when the last claim of `token` landed. -/
def overwrote (token : String) (w : World) : Option (Option RoamingLeaseRecord) :=
  (lastClaim token w.drive.writes).map fun x => { w.drive with writes := x.2 }.lease

/-- A record that the poll of a takeover takes for a lost claim. -/
def lostTo (token : String) (record : Option RoamingLeaseRecord) : Bool :=
  record.any fun r => r.owner ≠ token ∧ r.phase ≠ .released

/-- The reads that a session keeps as its peek: boot's first, and the poll that finds a takeover
lost. -/
def noted (token : String) : RoamEntry → Option World
  | ⟨.leaseRead .bootPeek, .ok _, before⟩ => some before
  | ⟨.leaseRead .poll, .ok record, before⟩ => if lostTo token record then some before else none
  | _ => none

/-- The state that the session's last peek found. -/
def lastPeek (token : String) (h : List RoamEntry) : Option World := h.findSome? (noted token)

/-- Nobody has written the lease file since the session's last peek. -/
def Untouched (token : String) (h : List RoamEntry) (w : World) : Prop :=
  (lastPeek token h).map (·.drive.writes) = some w.drive.writes

instance (token : String) (h : List RoamEntry) (w : World) : Decidable (Untouched token h w) :=
  inferInstanceAs (Decidable (_ = _))

/-- The write of a claim. -/
def claims : Request → Bool
  | .leaseWrite (.claim .acquire _) _ => true
  | _ => false

/-- A read that a session may keep as its peek. -/
def peeks : Request → Bool
  | .leaseRead .bootPeek => true
  | .leaseRead .poll => true
  | _ => false

/-- A request that is neither. -/
def idle (q : Request) : Bool := !claims q && !peeks q

/-- A view that no proof waits behind. -/
def plain : View → Bool
  | .needSecret | .halted _ _ (some _) => false
  | _ => true

/-- Everything that is neither a call of the session nor a claim of its token: the other origins,
and the other handlers of the page. -/
structure Frame (token : String) (w w' : World) : Prop where
  preClaim : (w'.pages token).preClaimRecord = (w.pages token).preClaimRecord
  view : (w'.pages token).view = (w.pages token).view ∨ plain (w'.pages token).view = true
  lastClaim : lastClaim token w'.drive.writes = lastClaim token w.drive.writes
  firstLease : w'.drive.firstLease = w.drive.firstLease
  writes : w.drive.writes <:+ w'.drive.writes
  log : ∃ new, w'.log = new ++ w.log ∧ ∀ i, Note.evaluated token i ∉ new

variable {token : String} {P : List RoamEntry → World → Prop} {h h' : List RoamEntry}
  {s w w₀ w₁ w₂ : World}
  {α β : Type}

namespace Frame

theorem refl (token : String) (w : World) : Frame token w w where
  preClaim := rfl
  view := .inl rfl
  lastClaim := rfl
  firstLease := rfl
  writes := List.suffix_refl _
  log := ⟨[], rfl, fun _ hi => by cases hi⟩

theorem trans (h₁ : Frame token w w₁) (h₂ : Frame token w₁ w₂) : Frame token w w₂ where
  preClaim := h₂.preClaim.trans h₁.preClaim
  view := by
    rcases h₂.view with hsame | hplain
    · rw [hsame]
      exact h₁.view
    · exact .inr hplain
  lastClaim := h₂.lastClaim.trans h₁.lastClaim
  firstLease := h₂.firstLease.trans h₁.firstLease
  writes := h₁.writes.trans h₂.writes
  log := by
    obtain ⟨new₁, hlog₁, hno₁⟩ := h₁.log
    obtain ⟨new₂, hlog₂, hno₂⟩ := h₂.log
    refine ⟨new₂ ++ new₁, by rw [hlog₂, hlog₁, List.append_assoc], fun i hi => ?_⟩
    rcases List.mem_append.mp hi with hi | hi
    · exact hno₂ i hi
    · exact hno₁ i hi

/-- What leaves Drive and the page's session alone, and asks for no proof. -/
theorem of_drive (hpre : (w₁.pages token).preClaimRecord = (w.pages token).preClaimRecord)
    (hview : (w₁.pages token).view = (w.pages token).view ∨ plain (w₁.pages token).view = true)
    (hdrive : w₁.drive = w.drive) (hlog : w₁.log = w.log) : Frame token w w₁ where
  preClaim := hpre
  view := hview
  lastClaim := by rw [hdrive]
  firstLease := by rw [hdrive]
  writes := hdrive ▸ List.suffix_refl _
  log := ⟨[], hlog, fun _ hi => by cases hi⟩

/-- An update of the page that keeps the peeked record. -/
theorem setPage {f : Page → Page}
    (hpre : (f (w.pages token)).preClaimRecord = (w.pages token).preClaimRecord)
    (hview : (f (w.pages token)).view = (w.pages token).view ∨ plain (f (w.pages token)).view = true) :
    Frame token w (w.setPage token f) :=
  of_drive (by rw [World.setPage_self, hpre]) (by rw [World.setPage_self]; exact hview) rfl rfl

theorem setNode (n : Node) : Frame token w (w.setNode token n) :=
  of_drive (by rw [World.setNode_self]) (.inl (by rw [World.setNode_self])) rfl rfl

theorem note {n : Note} (hn : ∀ i, n ≠ .evaluated token i) : Frame token w (w.note n) where
  preClaim := rfl
  view := .inl rfl
  lastClaim := rfl
  firstLease := rfl
  writes := List.suffix_refl _
  log := ⟨[n], rfl, fun i hi => hn i (List.mem_singleton.mp hi).symm⟩

theorem noteIf (p : Prop) [Decidable p] {n : Note} (hn : ∀ i, n ≠ .evaluated token i) :
    Frame token w (if p then w.note n else w) := by
  split
  · exact note hn
  · exact refl token w

/-- A lease write that is no claim of the session. -/
theorem writeLease {author : String} {how : WriteKind} (rec : RoamingLeaseRecord)
    (hno : author ≠ token ∨ ∀ previous, how ≠ .claim .acquire previous) :
    Frame token w (w.writeLease author how rec) where
  preClaim := rfl
  view := .inl rfl
  lastClaim := by
    simp only [World.writeLease, Replaced.lastClaim]
    split
    · rcases hno with hne | hno
      · rw [if_neg hne]
      · exact absurd rfl (hno _)
    · rfl
  firstLease := rfl
  writes := List.suffix_cons _ _
  log := ⟨[], rfl, fun _ hi => by cases hi⟩

/-- A request that is no claim. -/
theorem exec {q : Request} {c : Choice} {r : Except Err (Answer q)}
    (he : exec token q c w = some (r, w₁))
    (hq : claims q = false) : Frame token w w₁ := by
  cases q with
  | leaseWrite how rec =>
    simp only [Roaming.exec, Option.some.injEq, Prod.mk.injEq] at he
    rw [← he.2]
    split
    · exact refl token w
    · exact writeLease rec (.inr fun previous hhow => by rw [hhow] at hq; cases hq)
  | delayUntil deadline =>
    simp only [Roaming.exec, Option.ite_none_right_eq_some, Option.some.injEq, Prod.mk.injEq] at he
    rw [← he.2.2]
    exact refl token w
  | startNode =>
    simp only [Roaming.exec, World.act, Option.some.injEq, Prod.mk.injEq] at he
    rw [← he.2]
    exact setNode _
  | stopNode =>
    simp only [Roaming.exec, World.act, Option.some.injEq, Prod.mk.injEq] at he
    rw [← he.2]
    exact (setNode _).trans (noteIf _ fun i hi => by cases hi)
  | restore envelope secret =>
    simp only [Roaming.exec, World.act, Option.some.injEq, Prod.mk.injEq] at he
    rw [← he.2]
    exact (setNode _).trans (note fun i hi => by cases hi)
  | uploadBackup envelope =>
    simp only [Roaming.exec, Option.some.injEq, Prod.mk.injEq] at he
    rw [← he.2]
    split
    · exact refl token w
    · exact ⟨rfl, .inl rfl, rfl, rfl, List.suffix_refl _, [], rfl, fun _ hi => by cases hi⟩
  | _ =>
    simp only [Roaming.exec, Option.some.injEq, Prod.mk.injEq] at he
    rw [← he.2]
    exact refl token w

end Frame

/-! ## Calls -/

/-- A call of the session, where `P` holds of its requests so far and of the state in which its
claim lands. -/
def session (token : String) (P : List RoamEntry → World → Prop) :
    Contract World Request Answer Err Choice where
  exec := exec token
  inv := fun _ => True
  rely := Frame token
  sync := fun _ _ => True
  guar := fun _ _ => True
  allow := fun h q c w => claims q = true → c ≠ .fail → P h w
  oblige := fun _ _ _ => True

/-- Code that is neither a claim nor a new peek, whatever it does otherwise. -/
def Frames (token : String) (P : List RoamEntry → World → Prop) (p : Roam α) : Prop :=
  ∀ h s w (Post : PostCond World Request Answer Err α),
    (∀ h' r s' w', Frame token w w' → lastPeek token h' = lastPeek token h → Post h' r s' w') →
      wp (session token P) p h Post s w

theorem frames_done (a : α) : Frames token P (.done a) :=
  fun _ _ w _ hk => hk _ _ _ _ (Frame.refl token w) rfl

theorem frames_fail (e : Err) : Frames token P (.fail e : Roam α) :=
  fun _ _ w _ hk => hk _ _ _ _ (Frame.refl token w) rfl

theorem frames_get : Frames token P .get :=
  fun _ _ w _ hk => hk _ _ _ _ (Frame.refl token w) rfl

theorem frames_modify {f : World → World} (hf : ∀ w, Frame token w (f w)) :
    Frames token P (.modify f) :=
  fun _ _ w _ hk => hk _ _ _ _ (hf w) rfl

theorem Frames.bind {p : Roam α} {g : α → Roam β} (hp : Frames token P p)
    (hg : ∀ a, Frames token P (g a)) : Frames token P (p.bind g) := by
  intro h s w Post hk
  rw [wp_bind]
  refine hp h s w _ fun h' r s' w' hf hpeek => ?_
  cases r with
  | ok a =>
    exact hg a h' s' w' Post fun h'' r s'' w'' hf' hpeek' =>
      hk h'' r s'' w'' (hf.trans hf') (hpeek'.trans hpeek)
  | error e => exact hk h' _ s' w' hf hpeek

theorem Frames.rescue {p : Roam α} {g : Err → Roam α} (hp : Frames token P p)
    (hg : ∀ e, Frames token P (g e)) : Frames token P (p.rescue g) := by
  intro h s w Post hk
  rw [wp_rescue]
  refine hp h s w _ fun h' r s' w' hf hpeek => ?_
  cases r with
  | ok a => exact hk h' _ s' w' hf hpeek
  | error e =>
    exact hg e h' s' w' Post fun h'' r s'' w'' hf' hpeek' =>
      hk h'' r s'' w'' (hf.trans hf') (hpeek'.trans hpeek)

theorem Frames.attempt {p : Roam α} (hp : Frames token P p) : Frames token P p.attempt := by
  intro h s w Post hk
  rw [wp_attempt]
  exact hp h s w _ fun h' r s' w' hf hpeek => hk h' (.ok r) s' w' hf hpeek

theorem wp_ask_session {q : Request} {Post : PostCond World Request Answer Err (Answer q)}
    (hk : ∀ c r w₁ w₂ w₃, Frame token w w₁ → (claims q = true → c ≠ .fail → P h w₁) →
      exec token q c w₁ = some (r, w₂) → Frame token w₂ w₃ → Post (⟨q, r, w₁⟩ :: h) r w₃ w₃) :
    wp (session token P) (ask q) h Post s w := by
  rw [ask, wp_request]
  refine ⟨trivial, trivial, fun w₁ h₁ _ c r w₂ ha he => ?_⟩
  exact ⟨trivial, trivial, trivial, fun w₃ h₃ _ => hk c r w₁ w₂ w₃ h₁ ha he h₃⟩

/-- A read that fails is no peek, nor is any other request. -/
theorem lastPeek_cons {q : Request} {r : Except Err (Answer q)}
    (hq : peeks q = false ∨ ∃ e, r = .error e) : lastPeek token (⟨q, r, w⟩ :: h) = lastPeek token h := by
  have hnone : noted token ⟨q, r, w⟩ = none := by
    unfold noted
    split
    · rename_i heq
      rcases hq with hq | ⟨e, rfl⟩
      · cases heq
        cases hq
      · cases heq
    · rename_i heq
      rcases hq with hq | ⟨e, rfl⟩
      · cases heq
        cases hq
      · cases heq
    · rfl
  simp only [lastPeek, List.findSome?_cons, hnone]

theorem frames_ask {q : Request} (hq : idle q = true) : Frames token P (ask q) := by
  intro _ _ _ _ hk
  simp only [idle, Bool.and_eq_true, Bool.not_eq_true'] at hq
  exact wp_ask_session fun _ _ _ _ _ h₁ _ he h₃ =>
    hk _ _ _ _ (h₁.trans ((Frame.exec he hq.1).trans h₃)) (lastPeek_cons (.inl hq.2))

theorem frames_updatePage {f : Page → Page} (hpre : ∀ p, (f p).preClaimRecord = p.preClaimRecord)
    (hview : ∀ p, (f p).view = p.view ∨ plain (f p).view = true) :
    Frames token P (updatePage token f) :=
  frames_modify fun _ => Frame.setPage (hpre _) (hview _)

theorem frames_setView {v : View} (hv : plain v = true) : Frames token P (setView token v) :=
  frames_updatePage (fun _ => rfl) fun _ => .inr hv

theorem frames_peek {site : ReadSite} (hsite : idle (.leaseRead site) = true) :
    Frames token P (peek token site) := by
  refine Frames.bind (Frames.rescue (frames_ask hsite) fun e => frames_fail _) fun r => ?_
  exact Frames.bind frames_get fun _ => frames_done _

theorem frames_confirmStillOurs : Frames token P (confirmStillOurs token) := by
  refine Frames.bind (frames_peek rfl) fun x => Frames.bind frames_get fun w => ?_
  split
  · exact frames_done _
  · exact frames_fail _

theorem frames_leaseFailureState (e : Err) : Frames token P (leaseFailureState token e) := by
  cases e with
  | held origin expiresAt => exact frames_setView rfl
  | unreachable cause => exact frames_setView rfl
  | other message => exact frames_setView rfl

theorem frames_selfFence : Frames token P (selfFence token) := by
  refine Frames.bind frames_get fun w => ?_
  split
  · exact frames_done _
  · refine Frames.bind (frames_updatePage (fun _ => rfl) fun _ => .inl rfl) fun _ => ?_
    refine Frames.bind (Frames.attempt (frames_ask rfl)) fun _ => ?_
    exact frames_setView rfl

theorem frames_nowRunning : Frames token P (nowRunning token) := by
  refine Frames.bind (frames_modify fun _ => Frame.setPage rfl (.inl rfl)) fun _ => ?_
  exact frames_setView rfl

theorem frames_startGuarded (skipStart : Bool) : Frames token P (startGuarded token skipStart) := by
  refine Frames.bind (frames_setView rfl) fun _ => Frames.bind frames_get fun w => ?_
  refine Frames.bind (Frames.attempt (Frames.bind (frames_ask rfl)
    fun _ => frames_confirmStillOurs)) fun confirmed => ?_
  split
  · split
    · exact frames_selfFence
    · exact frames_leaseFailureState _
  · split
    · exact frames_nowRunning
    · refine Frames.bind (Frames.attempt (frames_ask rfl)) fun started => ?_
      split
      · exact frames_setView rfl
      · exact frames_nowRunning

theorem frames_readBackupVersion (backup : Option Envelope) (secret : Option String) :
    Frames token P (readBackupVersion backup secret) := by
  unfold readBackupVersion
  split
  · exact Frames.bind (frames_ask rfl) fun v => frames_done _
  · exact frames_done _

theorem frames_restoreProven (envelope : Envelope) (secret : String) :
    Frames token P (restoreProven token envelope secret) := by
  refine Frames.bind (Frames.attempt (frames_ask rfl)) fun restored => ?_
  split
  · exact frames_setView rfl
  · exact Frames.bind (frames_updatePage (fun _ => rfl) fun _ => .inl rfl) fun _ =>
      frames_startGuarded true

/-- Clearing the predecessor writes our own record, which is no claim. -/
theorem frames_clearPredecessor : Frames token P (clearPredecessor token) := by
  refine Frames.rescue (Frames.bind (frames_ask rfl) fun record => ?_)
    fun _ => frames_done _
  split
  · exact frames_done _
  · split
    · refine Frames.bind ?_ fun _ => frames_done _
      refine Frames.bind frames_get fun w => Frames.bind (frames_ask rfl) fun l => ?_
      refine Frames.bind (frames_ask rfl) fun _ => ?_
      exact Frames.bind (frames_updatePage (fun _ => rfl) fun _ => .inl rfl) fun _ => frames_done _
    · exact frames_done _

/-! ## What the session knows -/

/-- The session holds the record that its last peek found. -/
def Known (token : String) (h : List RoamEntry) (w : World) : Prop :=
  ∀ w₀, lastPeek token h = some w₀ → w₀.drive.lease = (w.pages token).preClaimRecord ∧
    w.drive.firstLease = w₀.drive.firstLease ∧ w₀.drive.writes <:+ w.drive.writes

/-- The peeked record is the one that the last claim read, and the one that it overwrote. -/
def Matched (token : String) (w : World) : Prop :=
  claimRead token w = some (w.pages token).preClaimRecord ∧
    overwrote token w = some (w.pages token).preClaimRecord

/-- Where the session waits for its user with a proof to come, the record is the right one. -/
def Rest (token : String) (w : World) : Prop :=
  plain (w.pages token).view = false → Matched token w

/-- No proof was asked for since `w₀`. -/
def Quiet (token : String) (w₀ w : World) : Prop :=
  ∃ new, w.log = new ++ w₀.log ∧ ∀ i, Note.evaluated token i ∉ new

/-- Every proof that was asked for since `w₀` was about the record that the last claim read and
overwrote. -/
def Judged (token : String) (w₀ w : World) : Prop :=
  ∃ new, w.log = new ++ w₀.log ∧ ∀ i, Note.evaluated token i ∈ new →
    claimRead token w = some i.lease ∧ overwrote token w = some i.lease

/-- What a call leaves. -/
structure Left (token : String) (w₀ : World) (h : List RoamEntry) (w : World) : Prop where
  rest : Rest token w
  judged : Judged token w₀ w
  known : Known token h w

theorem lease_congr {d d' : Drive} (hfirst : d.firstLease = d'.firstLease)
    (hwrites : d.writes = d'.writes) : d.lease = d'.lease := by
  simp only [Drive.lease, hfirst, hwrites]

theorem Frame.claimRead (hf : Frame token w w₁) : claimRead token w₁ = claimRead token w := by
  simp only [Replaced.claimRead, hf.lastClaim]

theorem Frame.overwrote (hf : Frame token w w₁) : overwrote token w₁ = overwrote token w := by
  simp only [Replaced.overwrote, hf.lastClaim]
  refine congrArg (Option.map · _) (funext fun x => ?_)
  exact lease_congr hf.firstLease rfl

theorem Known.frame (hk : Known token h w) (hf : Frame token w w₁)
    (hpeek : lastPeek token h' = lastPeek token h) : Known token h' w₁ := by
  intro w₀ hw₀
  obtain ⟨hlease, hfirst, hwrites⟩ := hk w₀ (hpeek ▸ hw₀)
  exact ⟨hlease.trans hf.preClaim.symm, hf.firstLease.trans hfirst, hwrites.trans hf.writes⟩

/-- A new peek, once the session has noted its record. -/
theorem Known.peeked {e : RoamEntry} (he : noted token e = some w₀) (hf : Frame token w₀ w)
    {f : Page → Page} (hpre : (f (w.pages token)).preClaimRecord = w₀.drive.lease) :
    Known token (e :: h) (w.setPage token f) := by
  intro w₁ hw₁
  simp only [lastPeek, List.findSome?_cons, he, Option.some.injEq] at hw₁
  obtain rfl := hw₁
  refine ⟨?_, hf.firstLease, hf.writes⟩
  rw [World.setPage_self, hpre]

theorem Matched.frame (hm : Matched token w) (hf : Frame token w w₁) : Matched token w₁ := by
  rw [Matched, hf.claimRead, hf.overwrote, hf.preClaim]
  exact hm

theorem Rest.frame (hr : Rest token w) (hf : Frame token w w₁) : Rest token w₁ := by
  intro hview
  rcases hf.view with hsame | hplain
  · rw [hsame] at hview
    exact (hr hview).frame hf
  · rw [hplain] at hview
    cases hview

theorem Quiet.refl (token : String) (w : World) : Quiet token w w :=
  ⟨[], rfl, fun _ hi => by cases hi⟩

theorem Quiet.frame (hq : Quiet token w₀ w) (hf : Frame token w w₁) : Quiet token w₀ w₁ := by
  obtain ⟨new, hlog, hno⟩ := hq
  obtain ⟨new₁, hlog₁, hno₁⟩ := hf.log
  refine ⟨new₁ ++ new, by rw [hlog₁, hlog, List.append_assoc], fun i hi => ?_⟩
  rcases List.mem_append.mp hi with hi | hi
  · exact hno₁ i hi
  · exact hno i hi

theorem Quiet.judged (hq : Quiet token w₀ w) : Judged token w₀ w := by
  obtain ⟨new, hlog, hno⟩ := hq
  exact ⟨new, hlog, fun i hi => absurd hi (hno i)⟩

theorem Judged.frame (hj : Judged token w₀ w) (hf : Frame token w w₁) : Judged token w₀ w₁ := by
  obtain ⟨new, hlog, hall⟩ := hj
  obtain ⟨new₁, hlog₁, hno₁⟩ := hf.log
  refine ⟨new₁ ++ new, by rw [hlog₁, hlog, List.append_assoc], fun i hi => ?_⟩
  rw [hf.claimRead, hf.overwrote]
  rcases List.mem_append.mp hi with hi | hi
  · exact absurd hi (hno₁ i)
  · exact hall i hi

/-- A proof about the peeked record, while it is the one that was overwritten. -/
theorem Judged.evaluated (hj : Judged token w₀ w) (hm : Matched token w) {i : HandoffProofInputs}
    (hi : i.lease = (w.pages token).preClaimRecord) : Judged token w₀ (w.note (.evaluated token i)) := by
  obtain ⟨new, hlog, hall⟩ := hj
  refine ⟨.evaluated token i :: new, by rw [World.note_log, hlog]; rfl, fun i' hi' => ?_⟩
  rcases List.mem_cons.mp hi' with heq | hold
  · cases heq
    rw [hi]
    exact hm
  · exact hall i' hold

theorem Left.frame (hl : Left token w₀ h w) (hf : Frame token w w₁)
    (hpeek : lastPeek token h' = lastPeek token h) : Left token w₀ h' w₁ :=
  ⟨hl.rest.frame hf, hl.judged.frame hf, hl.known.frame hf hpeek⟩

theorem left_of_matched (hm : Matched token w) (hj : Judged token w₀ w) (hk : Known token h w) :
    Left token w₀ h w :=
  ⟨fun _ => hm, hj, hk⟩

/-- A view is shown while the record is the right one. -/
theorem left_of_shown (hm : Matched token w) (hj : Judged token w₀ w) (hk : Known token h w)
    {f : Page → Page} (hpre : (f (w.pages token)).preClaimRecord = (w.pages token).preClaimRecord) :
    Left token w₀ h (w.setPage token f) := by
  refine ⟨fun _ => ?_, hj, ?_⟩
  · rw [Matched, World.setPage_self, hpre]
    exact hm
  · intro w₁ hw₁
    rw [World.setPage_self, hpre]
    exact hk w₁ hw₁

/-- A view is shown that no proof waits behind. -/
theorem left_of_plain (hj : Judged token w₀ w) {f : Page → Page}
    (hk : Known token h (w.setPage token f)) (hview : plain (f (w.pages token)).view = true) :
    Left token w₀ h (w.setPage token f) := by
  refine ⟨fun hv => ?_, hj, hk⟩
  rw [World.setPage_self, hview] at hv
  cases hv

/-- A call that ends so leaves what it should. -/
abbrev leaves (token : String) (w₀ : World) : PostCond World Request Answer Err Unit :=
  fun h _ _ w => Left token w₀ h w

theorem wp_frames {p : Roam Unit} (hp : Frames token P p) (hl : Left token w₀ h w) :
    wp (session token P) p h (leaves token w₀) s w :=
  hp h s w _ fun _ _ _ _ hf hpeek => hl.frame hf hpeek

/-- What the view of a failed claim leaves. -/
theorem wp_leaseFailureState (hj : Judged token w₀ w) (hk : Known token h w) (e : Err) :
    wp (session token P) (leaseFailureState token e) h (leaves token w₀) s w := by
  have hshow : ∀ v, plain v = true → Left token w₀ h (w.setPage token fun p => { p with view := v }) :=
    fun v hv => left_of_plain hj (hk.frame (Frame.setPage rfl (.inr hv)) rfl) hv
  cases e with
  | held origin expiresAt => exact hshow _ rfl
  | unreachable cause => exact hshow _ rfl
  | other message => exact hshow _ rfl

/-! ## The calls -/

/-- The proof gate, on the record that was overwritten. -/
theorem wp_routeClaimed (hm : Matched token w) (hj : Judged token w₀ w) (hk : Known token h w)
    (local_ : LocalInfo) (backup : Option Envelope) (backupVersion : Option Nat) :
    wp (session token P) (routeClaimed token local_ backup backupVersion) h (leaves token w₀) s w := by
  simp only [routeClaimed, Proc.bind_eq, wp_bind, wp_get]
  split
  · simp only [wp_bind, noteEvaluated, wp_modify]
    have hm' : ∀ i, Matched token (w.note (.evaluated token i)) := fun _ => hm
    have hk' : ∀ i, Known token h (w.note (.evaluated token i)) := fun _ => hk
    have hj' := fun i hi => hj.evaluated hm (i := i) hi
    split
    · exact left_of_shown (hm' _) (hj' _ rfl) (hk' _) rfl
    · exact left_of_shown (hm' _) (hj' _ rfl) (hk' _) rfl
    · exact left_of_shown (hm' _) (hj' _ rfl) (hk' _) rfl
    · exact left_of_shown (hm' _) (hj' _ rfl) (hk' _) rfl
    · exact wp_frames (frames_startGuarded false) (left_of_matched (hm' _) (hj' _ rfl) (hk' _))
  · split
    · exact left_of_shown hm hj hk rfl
    · exact left_of_shown hm hj hk rfl
    · exact left_of_shown hm hj hk rfl
    · exact left_of_shown hm hj hk rfl
    · exact wp_frames (frames_startGuarded false) (left_of_matched hm hj hk)

theorem wp_continueClaimed (hm : Matched token w) (hj : Judged token w₀ w) (hk : Known token h w) :
    wp (session token P) (continueClaimed token) h (leaves token w₀) s w := by
  simp only [continueClaimed, Proc.bind_eq, wp_bind]
  refine Frames.attempt (Frames.bind (frames_ask rfl) fun l =>
    Frames.bind (frames_ask rfl) fun b => frames_done _) h s w _ fun h' r s' w' hf hpeek => ?_
  have hm' := hm.frame hf
  have hj' := hj.frame hf
  have hk' := hk.frame hf hpeek
  cases r with
  | error e => exact left_of_matched hm' hj' hk'
  | ok read =>
    cases read with
    | error e => exact left_of_shown hm' hj' hk' rfl
    | ok x =>
      simp only [wp_bind]
      refine frames_readBackupVersion _ _ h' s' w' _ fun h'' r s'' w'' hf' hpeek' => ?_
      have hk'' := hk'.frame hf' hpeek'
      cases r with
      | ok version => exact wp_routeClaimed (hm'.frame hf') (hj'.frame hf') hk'' _ _ _
      | error e => exact left_of_matched (hm'.frame hf') (hj'.frame hf') hk''

/-- An untouched file holds the peeked record, and held it whenever it was read since. -/
theorem Untouched.leases (hu : Untouched token h w) (hk : Known token h w₁) (hf : Frame token w₁ w) :
    w₁.drive.lease = (w₁.pages token).preClaimRecord ∧ w.drive.lease = (w₁.pages token).preClaimRecord := by
  obtain ⟨w₀, hw₀, hwrites⟩ := Option.map_eq_some_iff.mp hu
  obtain ⟨hlease, hfirst, hsuffix⟩ := hk w₀ hw₀
  -- the file only grows, so what it held in between is what it held at the peek
  have hsame : w₁.drive.writes = w₀.drive.writes := by
    refine (hsuffix.eq_of_length_le ?_).symm
    rw [hwrites]
    exact hf.writes.length_le
  refine ⟨(lease_congr hfirst hsame).trans hlease, ?_⟩
  exact (lease_congr (hf.firstLease.trans hfirst) hwrites.symm).trans hlease

/-- A claim that lands on an untouched file overwrites the peeked record, which is the one that it
read; `w` is the state that its read found. -/
theorem wp_claim (hq : Quiet token w₀ w₁) (hk : Known token h w) (hf : Frame token w w₁)
    {Post : PostCond World Request Answer Err RoamingLeaseRecord}
    (hok : ∀ h' rec s' w', Matched token w' → Judged token w₀ w' → Known token h' w' →
      Post h' (.ok rec) s' w')
    (herr : ∀ h' e s' w', Judged token w₀ w' → Known token h' w' → Post h' (.error e) s' w') :
    wp (session token (Untouched token)) (writeOurRecord token .acquire w.drive.lease) h Post s w₁ := by
  simp only [writeOurRecord, updatePage, Proc.bind_eq, Proc.pure_eq, wp_bind, wp_get]
  refine frames_ask rfl _ _ w₁ _ fun h₁ r s₁ w₂ hf₁ hpeek => ?_
  cases r with
  | error e => exact herr _ _ _ _ (hq.frame hf₁).judged (hk.frame (hf.trans hf₁) hpeek)
  | ok info =>
    simp only
    refine wp_ask_session fun c r w₃ w₄ w₅ h₂ ha he h₅ => ?_
    have hf₂ := hf.trans (hf₁.trans h₂)
    have hq₃ := hq.frame (hf₁.trans h₂)
    have hk₃ := hk.frame hf₂ hpeek
    simp only [exec, Option.some.injEq, Prod.mk.injEq] at he
    obtain ⟨rfl, rfl⟩ := he
    -- the write itself is no frame: the file grows by a claim of the session
    have hgrown : ∀ rec, Known token h₁
        (w₃.writeLease token (.claim .acquire w.drive.lease) rec) := fun rec w' hw' => by
      obtain ⟨hlease, hfirst, hwrites⟩ := hk₃ w' hw'
      exact ⟨hlease, hfirst, hwrites.trans (List.suffix_cons _ _)⟩
    have hquiet : ∀ rec, Quiet token w₀
        (w₃.writeLease token (.claim .acquire w.drive.lease) rec) := fun _ => hq₃
    cases c with
    | fail => exact herr _ _ _ _ (hq₃.frame h₅).judged (hk₃.frame h₅ (lastPeek_cons (.inr ⟨_, rfl⟩)))
    | lost =>
      -- the write took effect, and the claim is given up
      exact herr _ _ _ _ ((hquiet _).frame h₅).judged
        ((hgrown _).frame h₅ (lastPeek_cons (.inr ⟨_, rfl⟩)))
    | ok =>
      have hu : Untouched token h₁ w₃ := ha rfl fun h => by cases h
      obtain ⟨hread, hlanded⟩ := hu.leases (hk.frame (Frame.refl token w) hpeek) hf₂
      have hm : ∀ rec, Matched token (w₃.writeLease token (.claim .acquire w.drive.lease) rec) := by
        intro rec
        have hpre : ((w₃.writeLease token (.claim .acquire w.drive.lease) rec).pages token).preClaimRecord
            = (w.pages token).preClaimRecord := hf₂.preClaim
        simp only [Matched, claimRead, overwrote, World.writeLease, lastClaim, if_true, Option.map_some]
        exact ⟨congrArg some (hread.trans hpre.symm), congrArg some (hlanded.trans hpre.symm)⟩
      have hf₆ : ∀ rec, Frame token w₅ (w₅.setPage token fun p => { p with lastWritten := some rec }) :=
        fun _ => Frame.setPage rfl (.inl rfl)
      refine hok _ _ _ _ (((hm _).frame h₅).frame (hf₆ _)) (((hquiet _).frame h₅).frame (hf₆ _)).judged ?_
      exact (hgrown _).frame (h₅.trans (hf₆ _)) (lastPeek_cons (.inl rfl))

/-- What follows the write of a claim. -/
theorem frames_settle : Frames token P (do
    let w ← Proc.get
    ask (.delayUntil (w.clock + ACQUIRE_SETTLE_MS))
    let (after, state) ← peek token .settle
    let w ← Proc.get
    match after with
    | some r => if state = .ours then pure r else .fail (heldBy after w.clock)
    | none => .fail (heldBy none w.clock) : Roam RoamingLeaseRecord) := by
  refine Frames.bind frames_get fun w => Frames.bind (frames_ask rfl) fun _ => ?_
  refine Frames.bind (frames_peek rfl) fun x => Frames.bind frames_get fun w => ?_
  split
  · split
    · exact frames_done _
    · exact frames_fail _
  · exact frames_fail _

/-- A read of the lease file: what it holds, or an error. -/
theorem wp_peek {site : ReadSite}
    {Post : PostCond World Request Answer Err (Option RoamingLeaseRecord × RoamingLeaseState)}
    (hok : ∀ w₁ w₂, Frame token w w₁ → Frame token w₁ w₂ →
      Post (⟨.leaseRead site, .ok w₁.drive.lease, w₁⟩ :: h)
        (.ok (w₁.drive.lease, leaseState w₁.drive.lease token w₂.clock)) w₂ w₂)
    (herr : ∀ h' e w₁, Frame token w w₁ → lastPeek token h' = lastPeek token h →
      Post h' (.error e) w₁ w₁) :
    wp (session token P) (peek token site) h Post s w := by
  simp only [peek, Proc.bind_eq, Proc.pure_eq, wp_bind, wp_rescue]
  refine wp_ask_session fun c r w₁ w₂ w₃ h₁ _ he h₃ => ?_
  have hread : Frame token w₁ w₂ := Frame.exec he rfl
  simp only [exec, Option.some.injEq, Prod.mk.injEq] at he
  cases r with
  | error e => exact herr _ _ _ (h₁.trans (hread.trans h₃)) (lastPeek_cons (.inr ⟨e, rfl⟩))
  | ok record =>
    obtain ⟨he, -⟩ := he
    split at he
    · cases he
      exact hok _ _ h₁ (hread.trans h₃)
    · cases he

/-- A claim passes only after its write; what it read and what it overwrote is the peeked record
while the file is untouched. -/
theorem wp_acquire {takeover : Bool} (hq : Quiet token w₀ w) (hk : Known token h w)
    {Post : PostCond World Request Answer Err RoamingLeaseRecord}
    (hok : ∀ h' rec s' w', Matched token w' → Judged token w₀ w' → Known token h' w' →
      Post h' (.ok rec) s' w')
    (herr : ∀ h' e s' w', Judged token w₀ w' → Known token h' w' → Post h' (.error e) s' w') :
    wp (session token (Untouched token)) (acquire token takeover) h Post s w := by
  simp only [acquire, Proc.bind_eq, Proc.pure_eq, wp_bind]
  refine wp_peek (fun w₁ w₂ h₁ h₂ => ?_) fun h' e w₁ h₁ hpeek =>
    herr _ _ _ _ (hq.frame h₁).judged (hk.frame h₁ hpeek)
  have hq₂ := hq.frame (h₁.trans h₂)
  have hk₁ : Known token (⟨.leaseRead .acquire, .ok w₁.drive.lease, w₁⟩ :: h) w₁ :=
    hk.frame h₁ (lastPeek_cons (.inl rfl))
  simp only [wp_get]
  split
  · exact herr _ _ _ _ hq₂.judged (hk₁.frame h₂ rfl)
  rw [wp_bind, wp_rescue]
  refine wp_claim hq₂ hk₁ h₂ (fun h₄ rec s₄ w₄ hm₄ hj₄ hk₄ => ?_) fun h₄ e s₄ w₄ hj₄ hk₄ =>
    herr _ _ _ _ hj₄ hk₄
  refine frames_settle h₄ s₄ w₄ _ fun h₅ r s₅ w₅ hf₅ hpeek => ?_
  have hk₅ := hk₄.frame hf₅ hpeek
  cases r with
  | ok rec => exact hok _ _ _ _ (hm₄.frame hf₅) (hj₄.frame hf₅) hk₅
  | error e => exact herr _ _ _ _ (hj₄.frame hf₅) hk₅

theorem wp_boot (hk : Known token h w) :
    wp (session token (Untouched token)) (boot token) h (leaves token w) s w := by
  simp only [boot, setView, updatePage, Proc.bind_eq, wp_bind, wp_modify, wp_attempt]
  have hshow : ∀ w v, plain v = true → Frame token w (w.setPage token fun p => { p with view := v }) :=
    fun _ _ hv => Frame.setPage rfl (.inr hv)
  have hq : Quiet token w (w.setPage token fun p => { p with view := .checking }) := Quiet.refl token w
  refine wp_peek (fun w₁ w₂ h₁ h₂ => ?_) fun h' e w₁ h₁ hpeek => ?_
  · have hk₂ : ∀ f : Page → Page, (f (w₂.pages token)).preClaimRecord = w₁.drive.lease →
        Known token (⟨.leaseRead .bootPeek, .ok w₁.drive.lease, w₁⟩ :: h) (w₂.setPage token f) :=
      fun f hpre => Known.peeked rfl h₂ hpre
    have hq' : Quiet token w w₂ := hq.frame (h₁.trans h₂)
    have hq₂ : ∀ f, Quiet token w (w₂.setPage token f) := fun _ => hq'
    simp only [wp_bind, wp_modify]
    split
    · exact left_of_plain (hq₂ _).judged ((hk₂ _ rfl).frame (hshow _ _ rfl) rfl) rfl
    · rw [wp_bind, wp_attempt]
      exact wp_acquire (hq₂ _) (hk₂ _ rfl) (fun _ _ _ _ hm hj hk => wp_continueClaimed hm hj hk)
        fun _ e _ _ hj hk => wp_leaseFailureState hj hk e
  · have hk₁ := (hk.frame (hshow _ _ rfl) rfl).frame h₁ hpeek
    exact left_of_plain (hq.frame h₁).judged (hk₁.frame (hshow _ _ rfl) rfl) rfl

theorem takeoverMayProceed_lost_iff {record : Option RoamingLeaseRecord} {previousOwner : String}
    {claimedAt now waitMs : Nat} :
    takeoverMayProceed record token previousOwner claimedAt now waitMs = .lost ↔ lostTo token record = true := by
  unfold takeoverMayProceed lostTo
  split
  · rename_i hany
    exact ⟨fun _ => hany, fun _ => rfl⟩
  · rename_i hany
    refine ⟨fun h => ?_, fun h => absurd h hany⟩
    split at h
    · cases h
    · split at h <;> cases h

/-- The polls of a takeover leave the record alone until the claim is lost. -/
theorem wp_pollTakeover (previousOwner : String) (claimedAt polls : Nat) {h : List RoamEntry} {s w : World}
    (hm : Matched token w) (hj : Judged token w₀ w) (hk : Known token h w) :
    wp (session token P) (pollTakeover token previousOwner claimedAt polls) h (leaves token w₀) s w := by
  induction polls generalizing h s w with
  | zero => exact left_of_matched hm hj hk
  | succ polls ih =>
    have hshow : ∀ w v, plain v = true → Frame token w (w.setPage token fun p => { p with view := v }) :=
      fun _ _ hv => Frame.setPage rfl (.inr hv)
    have hpost : ∀ w record, Frame token w (w.setPage token fun p => { p with postClaimRecord := record }) :=
      fun _ _ => Frame.setPage rfl (.inl rfl)
    have hclaim : ∀ h' w' record, lastPeek token h' = lastPeek token h → Frame token w w' →
        wp (session token P) ((updatePage token fun p => { p with postClaimRecord := record }).bind
          fun _ => continueClaimed token) h' (leaves token w₀) w' w' := by
      intro h' w' record hpeek hf
      simp only [updatePage, wp_bind, wp_modify]
      exact wp_continueClaimed ((hm.frame hf).frame (hpost _ _)) ((hj.frame hf).frame (hpost _ _))
        ((hk.frame hf hpeek).frame (hpost _ _) rfl)
    have hwait : ∀ h' w' deadline, lastPeek token h' = lastPeek token h → Frame token w w' →
        wp (session token P) ((ask (.delayUntil deadline)).bind fun _ =>
          pollTakeover token previousOwner claimedAt polls) h' (leaves token w₀) w' w' := by
      intro h' w' deadline hpeek hf
      have hk' := hk.frame hf hpeek
      rw [wp_bind]
      refine frames_ask rfl h' w' w' _ fun h₂ r s₂ w₂ hf₂ hpeek₂ => ?_
      have hk₂ := hk'.frame hf₂ hpeek₂
      cases r with
      | error e => exact left_of_matched ((hm.frame hf).frame hf₂) ((hj.frame hf).frame hf₂) hk₂
      | ok u => exact ih ((hm.frame hf).frame hf₂) ((hj.frame hf).frame hf₂) hk₂
    simp only [pollTakeover, setView, updatePage, Proc.bind_eq, wp_bind, wp_get, wp_modify, wp_attempt]
    refine wp_peek (fun w₁ w₂ h₁ h₂ => ?_) fun h' e w₁ h₁ hpeek => ?_
    · have hf := (hshow w (.moving (w.clock - claimedAt)) rfl).trans (h₁.trans h₂)
      cases hlost : lostTo token w₁.drive.lease with
      | false =>
        -- a poll that is not lost changes nothing that the session goes by
        have hpeek : lastPeek token (⟨.leaseRead .poll, .ok w₁.drive.lease, w₁⟩ :: h) =
            lastPeek token h := by
          simp only [lastPeek, List.findSome?_cons, noted, hlost, Bool.false_eq_true, if_false]
        cases hreason : takeoverMayProceed w₁.drive.lease token previousOwner claimedAt w₂.clock
            TAKEOVER_WAIT_MS with
        | lost =>
          rw [takeoverMayProceed_lost_iff, hlost] at hreason
          cases hreason
        | acked => exact hclaim _ w₂ _ hpeek hf
        | timeout => exact hclaim _ w₂ _ hpeek hf
        | waiting => exact hwait _ w₂ _ hpeek hf
      | true =>
        -- a third origin has claimed the wallet: its record is the session's next peek
        simp only [takeoverMayProceed_lost_iff.mpr hlost]
        have hnoted : noted token ⟨.leaseRead .poll, .ok w₁.drive.lease, w₁⟩ = some w₁ := by
          simp only [noted, hlost, if_true]
        exact left_of_plain (hj.frame hf) (Known.peeked hnoted h₂ rfl) rfl
    · have hf := (hshow w (.moving (w.clock - claimedAt)) rfl).trans h₁
      cases hreason : takeoverMayProceed none token previousOwner claimedAt w₁.clock
          TAKEOVER_WAIT_MS with
      | lost =>
        rw [takeoverMayProceed_lost_iff] at hreason
        cases hreason
      | acked => exact hclaim _ w₁ _ hpeek hf
      | timeout => exact hclaim _ w₁ _ hpeek hf
      | waiting => exact hwait _ w₁ _ hpeek hf

theorem wp_moveHere (hr : Rest token w) (hk : Known token h w) (polls : Nat) :
    wp (session token (Untouched token)) (moveHere token polls) h (leaves token w) s w := by
  have hq := Quiet.refl token w
  simp only [moveHere, Proc.bind_eq, wp_bind, wp_get]
  split
  · rw [wp_bind, wp_attempt]
    exact wp_acquire hq hk (fun _ _ _ _ hm hj hk => wp_pollTakeover _ _ _ hm hj hk)
      fun _ e _ _ hj hk => wp_leaseFailureState hj hk e
  · exact ⟨hr, hq.judged, hk⟩

theorem wp_submitSecret (hr : Rest token w) (hk : Known token h w) (secret : String) :
    wp (session token P) (submitSecret token secret) h (leaves token w) s w := by
  have hj := (Quiet.refl token w).judged
  simp only [submitSecret, Proc.bind_eq, wp_bind, wp_get]
  split
  · rename_i hview _
    have hm : Matched token w := hr (by rw [hview]; rfl)
    rw [wp_bind]
    refine frames_ask rfl h s w _ fun h₁ r s₁ w₁ hf₁ hpeek => ?_
    have hm₁ := hm.frame hf₁
    have hj₁ := hj.frame hf₁
    have hk₁ := hk.frame hf₁ hpeek
    cases r with
    | error e => exact left_of_matched hm₁ hj₁ hk₁
    | ok v =>
      simp only
      split
      · simp only [noteEvaluated, wp_bind, wp_get, wp_modify]
        have hm₂ : ∀ i, Matched token (w₁.note (.evaluated token i)) := fun _ => hm₁
        have hk₂ : ∀ i, Known token h₁ (w₁.note (.evaluated token i)) := fun _ => hk₁
        split
        · exact left_of_shown (hm₂ _) (hj₁.evaluated hm₁ rfl) (hk₂ _) rfl
        · exact wp_frames (frames_restoreProven _ _)
            (left_of_matched (hm₂ _) (hj₁.evaluated hm₁ rfl) (hk₂ _))
      · exact left_of_shown hm₁ hj₁ hk₁ rfl
  · exact ⟨hr, hj, hk⟩

theorem wp_forceRestoreAnyway (hr : Rest token w) (hk : Known token h w) :
    wp (session token P) (forceRestoreAnyway token) h (leaves token w) s w := by
  have hj := (Quiet.refl token w).judged
  simp only [forceRestoreAnyway, setView, updatePage, Proc.bind_eq, wp_bind, wp_get]
  split
  · rename_i hview
    have hm : Matched token w := hr (by rw [hview]; rfl)
    simp only [wp_bind, wp_modify]
    have hf : Frame token w (w.setPage token fun p => { p with overrideUnprovenHandoff := true }) :=
      Frame.setPage rfl (.inl rfl)
    refine frames_clearPredecessor h s _ _ fun h₁ r s₁ w₁ hf₁ hpeek => ?_
    have hm₁ := hm.frame (hf.trans hf₁)
    have hj₁ := hj.frame (hf.trans hf₁)
    have hk₁ := hk.frame (hf.trans hf₁) hpeek
    cases r with
    | error e => exact left_of_matched hm₁ hj₁ hk₁
    | ok u =>
      simp only [wp_get]
      split
      · exact left_of_shown hm₁ hj₁ hk₁ rfl
      · exact wp_continueClaimed hm₁ hj₁ hk₁
  · exact ⟨hr, hj, hk⟩

/-! ## A session -/

inductive Call where
  | boot
  | moveHere (polls : Nat)
  | submitSecret (secret : String)
  | forceRestoreAnyway
  deriving DecidableEq, Repr

def Call.code (token : String) : Call → Roam Unit
  | .boot => Roaming.boot token
  | .moveHere polls => Roaming.moveHere token polls
  | .submitSecret secret => Roaming.submitSecret token secret
  | .forceRestoreAnyway => Roaming.forceRestoreAnyway token

/-- The states between the calls of a session, from its page on, each with the requests of the calls
so far. -/
inductive Reached (token : String) (P : List RoamEntry → World → Prop) :
    List RoamEntry → World → Prop where
  | opened {w : World} : (w.pages token).view = .stopped → Reached token P [] w
  | others {h : List RoamEntry} {w w' : World} : Reached token P h w → Frame token w w' →
      Reached token P h w'
  | call {w w' : World} {call : Call} {h h' : List RoamEntry} {r : Except Err Unit} :
      Reached token P h w → Solo (session token P) (call.code token) h w h' r w' →
      Reached token P h' w'

/-- Every call leaves what it should. -/
theorem left_of_solo {call : Call} {r : Except Err Unit} (hr : Rest token w) (hk : Known token h w)
    (run : Solo (session token (Untouched token)) (call.code token) h w h' r w₁) :
    Left token w h' w₁ := by
  have hwp : wp (session token (Untouched token)) (call.code token) h (leaves token w) w w := by
    cases call with
    | boot => exact wp_boot hk
    | moveHere polls => exact wp_moveHere hr hk polls
    | submitSecret secret => exact wp_submitSecret hr hk secret
    | forceRestoreAnyway => exact wp_forceRestoreAnyway hr hk
  obtain ⟨s', hl⟩ := run.sound (fun _ _ _ _ => trivial) hwp
  exact hl

theorem Reached.rest (hw : Reached token (Untouched token) h w) : Rest token w ∧ Known token h w := by
  induction hw with
  | opened hview =>
    refine ⟨fun hplain => ?_, fun w₀ hw₀ => by cases hw₀⟩
    rw [hview] at hplain
    cases hplain
  | others _ hf ih => exact ⟨ih.1.frame hf, ih.2.frame hf rfl⟩
  | call _ run ih =>
    have hl := left_of_solo ih.1 ih.2 run
    exact ⟨hl.rest, hl.known⟩

/-- In every run of a session in which nobody writes the lease file between its last peek and the
landing of its claim, each proof is asked for about the record that the session's last claim read,
and that its write replaced. -/
theorem judged_of_untouched (token : String) (w w' : World) (call : Call) (h h' : List RoamEntry)
    (r : Except Err Unit) (hw : Reached token (Untouched token) h w)
    (run : Solo (session token (Untouched token)) (call.code token) h w h' r w') (new : List Note)
    (hlog : w'.log = new ++ w.log) (i : HandoffProofInputs) (hi : .evaluated token i ∈ new) :
    claimRead token w' = some i.lease ∧ overwrote token w' = some i.lease := by
  obtain ⟨new', hlog', hall⟩ := (left_of_solo hw.rest.1 hw.rest.2 run).judged
  have hsame : new' = new := List.append_cancel_right (hlog'.symm.trans hlog)
  exact hall i (hsame ▸ hi)

/-- Every request is answered, and delays fire late; `check` has to hold where a claim lands. -/
def answer (token : String) (check : List RoamEntry → World → Bool) (h : List RoamEntry) (q : Request)
    (w : World) : Option (Except Err (Answer q) × World) :=
  if claims q = true ∧ check h w = false then none else exec token q .ok w

/-- A delay fires `late` milliseconds late, and another origin writes `renewed` before a claim reads
or before it lands. -/
def wait (late : Nat) (before : Request → Option Written) (q : Request) (w : World) : World :=
  match q, before q with
  | .delayUntil deadline, _ => { w with clock := max w.clock deadline + late }
  | _, some x => w.writeLease x.author x.how x.record
  | _, none => w

theorem frame_wait {late : Nat} {before : Request → Option Written}
    (hown : ∀ q, ∀ x ∈ before q, x.author ≠ token) (q : Request) : Frame token w (wait late before q w) := by
  unfold wait
  split
  · exact Frame.of_drive rfl (.inl rfl) rfl rfl
  · rename_i x _ hx
    exact Frame.writeLease _ (.inl (hown _ x hx))
  · exact Frame.refl token w

theorem solo_of_wait {late : Nat} {before : Request → Option Written}
    {check : List RoamEntry → World → Bool} {p : Roam Unit} {r : Except Err Unit} {w' : World}
    (hP : ∀ h w, check h w = true → P h w) (hown : ∀ q, ∀ x ∈ before q, x.author ≠ token)
    (hp : p.recordBy (wait late before) (answer token check) h w = some (h', r, w')) :
    Solo (session token P) p h w h' r w' := by
  refine Proc.solo_of_recordBy (Frame.refl token) (fun q _ => frame_wait hown q)
    (fun h q w r w' he => ⟨.ok, fun hq _ => hP _ _ ?_, ?_⟩) hp
  · unfold answer at he
    split at he
    · cases he
    · rename_i hn
      by_contra hc
      exact hn ⟨hq, Bool.eq_false_iff.mpr hc⟩
  · unfold answer at he
    split at he
    · cases he
    · exact he

/-- The record of origin "b" at a version. -/
def heldByB (seq version : Nat) (phase : Phase) : RoamingLeaseRecord where
  owner := "b"
  origin := "https://b.example"
  acquiredAt := 0
  expiresAt := 120000
  seq := seq
  heartbeatStateVersion := version
  phase := phase

/-- A page of an origin at version 5 that finds "b" at version 5, and a backup of it. -/
def openedAfterB (phase : Phase) : World where
  drive := { firstLease := some (heldByB 1 5 phase), firstBackup := some ⟨"seed", 5⟩ }
  origins := fun _ => { db := { seed := some "seed", stateVersion := 5, channelManager := true } }
  pages := fun _ => { origin := "https://a.example", status := .alive }

/-- The proofs that a page asked for, newest first. -/
def evaluated (token : String) (w : World) : List HandoffProofInputs :=
  w.log.filterMap fun
    | .evaluated t i => if t = token then some i else none
    | _ => none

theorem mem_log_of_mem_evaluated {i : HandoffProofInputs} (hi : i ∈ evaluated token w) :
    Note.evaluated token i ∈ w.log := by
  obtain ⟨n, hn, hin⟩ := List.mem_filterMap.mp hi
  split at hin
  · split at hin
    · rename_i heq
      cases hin
      exact heq ▸ hn
    · cases hin
  · cases hin

/-- The page finds the lease of "b" released, and nobody writes it until the claim. -/
theorem judged_of_untouched_released : ∃ (h : List RoamEntry) (r : Except Err Unit) (w' : World) (i : HandoffProofInputs),
    Solo (session "a" (Untouched "a")) (Call.boot.code "a") [] (openedAfterB .released) h r w' ∧
      Note.evaluated "a" i ∈ w'.log ∧ claimRead "a" w' = some i.lease ∧ overwrote "a" w' = some i.lease := by
  have heval : ((Call.boot.code "a").recordBy (wait 0 fun _ => none)
      (answer "a" fun h w => decide (Untouched "a" h w)) []
      (openedAfterB .released)).any (fun x => !(evaluated "a" x.2.2).isEmpty) = true := by
    decide +kernel
  obtain ⟨⟨h, r, w'⟩, hx, hsome⟩ := (Option.any_eq_true _ _).mp heval
  have run : Solo (session "a" (Untouched "a")) (Call.boot.code "a") [] (openedAfterB .released) h r w' :=
    solo_of_wait (fun h w hw => of_decide_eq_true hw) (fun q x hx => by cases hx) hx
  obtain ⟨i, hi⟩ : ∃ i, i ∈ evaluated "a" w' := by
    cases he : evaluated "a" w' with
    | nil => simp [he] at hsome
    | cons i l => exact ⟨i, List.mem_cons_self ..⟩
  have hmem := mem_log_of_mem_evaluated hi
  exact ⟨h, r, w', i, run, hmem, judged_of_untouched "a" (openedAfterB .released) w' .boot [] h r
    (.opened rfl) run w'.log (List.append_nil _).symm i hmem⟩

/-- What "b" writes before a claim reads: its lease renewed at version 9. -/
def renewedBeforeRead : Request → Option Written
  | .leaseRead .acquire => some ⟨"b", .claim .tick none, heldByB 2 9 .live⟩
  | _ => none

theorem renewedBeforeRead_author (q : Request) (x : Written) (hx : x ∈ renewedBeforeRead q) :
    x.author = "b" := by
  unfold renewedBeforeRead at hx
  split at hx
  · cases hx
    rfl
  · cases hx

/-- The page is blocked by "b" at version 5; "b" goes on to version 9 before the user moves the
wallet here, which is judged by version 5. -/
theorem not_judged_renewed : ¬ ∀ (w w' : World) (call : Call) (h h' : List RoamEntry) (r : Except Err Unit)
    (new : List Note) (i : HandoffProofInputs), Reached "a" (fun _ _ => True) h w →
      Solo (session "a" fun _ _ => True) (call.code "a") h w h' r w' → w'.log = new ++ w.log →
      .evaluated "a" i ∈ new → claimRead "a" w' = some i.lease ∧ overwrote "a" w' = some i.lease := by
  intro hall
  have heval : (((Call.boot.code "a").recordBy (wait 0 fun _ => none) (answer "a" fun _ _ => true) []
      (openedAfterB .live)).bind fun x =>
        if x.2.2.log = [] then
          ((Call.moveHere 2).code "a").recordBy (wait 100000 renewedBeforeRead)
            (answer "a" fun _ _ => true) x.1 x.2.2
        else none).any (fun y =>
          (evaluated "a" y.2.2).any fun i => claimRead "a" y.2.2 ≠ some i.lease) = true := by
    decide +kernel
  obtain ⟨⟨h', r', w'⟩, hy, hbad⟩ := (Option.any_eq_true _ _).mp heval
  obtain ⟨⟨h, r, w⟩, hx, hy⟩ := Option.bind_eq_some_iff.mp hy
  rw [Option.ite_none_right_eq_some] at hy
  obtain ⟨hlog, hy⟩ := hy
  have hreached : Reached "a" (fun _ _ => True) h w :=
    @Reached.call "a" (fun _ _ => True) _ _ .boot _ _ _ (.opened rfl)
      (solo_of_wait (fun _ _ _ => trivial) (fun q x hx => by cases hx) hx)
  have run : Solo (session "a" fun _ _ => True) ((Call.moveHere 2).code "a") h w h' r' w' :=
    solo_of_wait (fun _ _ _ => trivial)
      (fun q x hx => by rw [renewedBeforeRead_author q x hx]; decide) hy
  obtain ⟨i, hi, hne⟩ := List.any_eq_true.mp hbad
  refine of_decide_eq_true hne (hall w w' (.moveHere 2) h h' r' w'.log i hreached run ?_
    (mem_log_of_mem_evaluated hi)).1
  rw [hlog, List.append_nil]

end LibreWallet.Embed.Replaced
