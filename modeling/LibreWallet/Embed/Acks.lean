import LibreWallet.Embed.Replaced
import LibreWallet.Embed.Runs
import LibreWallet.Roaming.Moves
import Mathlib.Logic.Relation

/-
  Embed/Acks.lean --- how old a handoff ack can be.

  `moveHere` keeps the record that its last poll read, with the ack in it, and nothing drops it:
  a later boot of the session asks for the proof with the same record.  An ack also lives on in
  the lease file, where a `release` writes back the record that it read, perhaps before another
  session claimed the lease.
-/

set_option autoImplicit false

namespace LibreWallet.Embed.Acks

open Async Controller Roaming
open Replaced (Call plain)

/-! ## What is written to the lease file -/

/-- A claim of the session itself. -/
def isClaim (token : String) (x : Written) : Bool :=
  match x.how with
  | .claim .acquire _ => x.author = token
  | _ => false

/-- What was written since the session last claimed the lease. -/
def sinceClaim (token : String) (w : World) : List Written :=
  w.drive.writes.takeWhile fun x => !isClaim token x

/-- Its author wrote the ack since then. -/
def AckedSince (token : String) (w : World) (ack : HandoffAck) : Prop :=
  ∃ x ∈ sinceClaim token w, x.author = ack.from_ ∧ (∃ base, x.how = .ack base) ∧
    x.record.handoffAck = some ack

/-- What the lease objects write: a claim has no ack, an ack is its author's own, and a release
keeps that of its base. -/
def Genuine (x : Written) : Prop :=
  match x.how with
  | .claim _ _ => x.record.handoffAck = none
  | .ack base => ∃ version now, x.record = ackedRecord base x.author version now
  | .release base => base.owner = x.author ∧
      ∃ clean version now, x.record = releasedRecord base clean version now
  | .keepalive base => base.handoffAck = none ∧
      ∃ clean version now, x.record = releasedRecord base clean version now

/-- Every write of every run of the embeds is one of these. -/
theorem genuine_of_run {w : World} (hw : Untouched w) {c : EmbedConfig} (hrun : Reaches (initial w) c) :
    ∀ x ∈ c.world.drive.writes, Genuine x := by
  refine (Protocol.invariant_of_run admits (sound_initial hw)
    (I := fun c => ∀ x ∈ c.world.drive.writes, Genuine x) ?_ ?_ hrun).2
  · simp [initial, hw.writes]
  · intro l d d' _ _ hI _ hd x hx
    rcases writes_step hd with h | ⟨i, j, how, rec, r, he, h⟩
    · exact hI x (h ▸ hx)
    · rw [h] at hx
      rcases List.mem_cons.mp hx with rfl | hx
      · have hok : WriteOk j (d.history i) how rec d.world := he.obliged.2
        cases how with
        | claim site prev =>
          obtain ⟨_, _, _, _, _, _, _, -, rfl, -⟩ := hok
          rfl
        | ack base =>
          obtain ⟨-, -, version, now, rfl⟩ := hok
          exact ⟨version, now, rfl⟩
        | release base =>
          obtain ⟨-, clean, version, now, rfl, howner, -⟩ := hok
          exact ⟨howner, clean, version, now, rfl⟩
        | keepalive base =>
          obtain ⟨-, ⟨y, hy, -, rfl, -, site, previous, hhow⟩, clean, version, now, rfl⟩ := hok
          have hgenuine := hI y hy
          rw [Genuine, hhow] at hgenuine
          exact ⟨hgenuine, clean, version, now, rfl⟩
      · exact hI x hx

/-- A release puts back no ack from before the session's claim. -/
def ReleasedSince (token : String) (w : World) (x : Written) : Prop :=
  match x.how with
  | .release base => base.handoffAck = none ∨ ∃ y ∈ sinceClaim token w, y.record = base
  | _ => True

/-! ## The others -/

/-- A step of the others, who write what `C` allows: they leave the records that the session judges
by, call for no proof in its place, and do not claim the lease for it. -/
structure Move (token : String) (C : World → Written → Prop) (w w' : World) : Prop where
  preClaim : (w'.pages token).preClaimRecord = (w.pages token).preClaimRecord
  postClaim : (w'.pages token).postClaimRecord = (w.pages token).postClaimRecord
  view : (w'.pages token).view = (w.pages token).view ∨ plain (w'.pages token).view = true
  log : ∃ new, w'.log = new ++ w.log ∧ ∀ i, Note.evaluated token i ∉ new
  writes : w'.drive.firstLease = w.drive.firstLease ∧ w'.drive.writes = w.drive.writes ∨
    ∃ x, w'.drive.writes = x :: w.drive.writes ∧ Genuine x ∧ isClaim token x = false ∧ C w x

def Others (token : String) (C : World → Written → Prop) : World → World → Prop :=
  Relation.ReflTransGen (Move token C)

/-- A call of the session, where `P` holds of the state that the peek of a boot finds. -/
def session (token : String) (P : World → Prop) (C : World → Written → Prop) :
    Contract World Request Answer Err Choice :=
  among (exec token) (Others token C) fun _ q _ w => q = .leaseRead .bootPeek → P w

/-- The states between the calls of a session, from its page on. -/
inductive Reached (token : String) (P : World → Prop) (C : World → Written → Prop) : World → Prop where
  | opened {w : World} : (w.pages token).view = .stopped → Reached token P C w
  | others {w w' : World} : Reached token P C w → Others token C w w' → Reached token P C w'
  | call {w w' : World} {call : Call} {h : List RoamEntry} {r : Except Err Unit} :
      Reached token P C w → Solo (session token P C) (call.code token) [] w h r w' → Reached token P C w'

/-- The peek does not find a record of the owner whose ack the session still holds. -/
def NoOldAck (token : String) (w : World) : Prop :=
  ∀ r, w.drive.lease = some r → ∀ post, (w.pages token).postClaimRecord = some post →
    ∀ ack, post.handoffAck = some ack → ack.from_ ≠ r.owner

variable {token : String} {P : World → Prop} {C : World → Written → Prop} {h : List RoamEntry}
  {s w w₀ w₁ w₂ : World}

/-- What the session and the others leave alone. -/
structure Kept (token : String) (w w' : World) : Prop where
  preClaim : (w'.pages token).preClaimRecord = (w.pages token).preClaimRecord
  postClaim : (w'.pages token).postClaimRecord = (w.pages token).postClaimRecord
  view : (w'.pages token).view = (w.pages token).view ∨ plain (w'.pages token).view = true
  log : ∃ new, w'.log = new ++ w.log ∧ ∀ i, Note.evaluated token i ∉ new

/-- The same, while the session does not claim the lease. -/
structure Keeps (token : String) (w w' : World) : Prop extends Kept token w w' where
  since : ∃ new, sinceClaim token w' = new ++ sinceClaim token w

namespace Kept

theorem refl (token : String) (w : World) : Kept token w w where
  preClaim := rfl
  postClaim := rfl
  view := .inl rfl
  log := ⟨[], rfl, fun _ hi => by cases hi⟩

theorem trans (h₁ : Kept token w w₁) (h₂ : Kept token w₁ w₂) : Kept token w w₂ where
  preClaim := h₂.preClaim.trans h₁.preClaim
  postClaim := h₂.postClaim.trans h₁.postClaim
  view := by
    rcases h₂.view with hsame | hplain
    · rw [hsame]
      exact h₁.view
    · exact .inr hplain
  log := by
    obtain ⟨new₁, hlog₁, hno₁⟩ := h₁.log
    obtain ⟨new₂, hlog₂, hno₂⟩ := h₂.log
    refine ⟨new₂ ++ new₁, by rw [hlog₂, hlog₁, List.append_assoc], fun i hi => ?_⟩
    rcases List.mem_append.mp hi with hi | hi
    · exact hno₂ i hi
    · exact hno₁ i hi

theorem setPage {f : Page → Page}
    (hpre : (f (w.pages token)).preClaimRecord = (w.pages token).preClaimRecord)
    (hpost : (f (w.pages token)).postClaimRecord = (w.pages token).postClaimRecord)
    (hv : (f (w.pages token)).view = (w.pages token).view ∨ plain (f (w.pages token)).view = true) :
    Kept token w (w.setPage token f) := by
  refine ⟨?_, ?_, ?_, [], rfl, fun _ hi => by cases hi⟩
  all_goals
    rw [World.setPage_self]
    assumption

end Kept

namespace Keeps

theorem refl (token : String) (w : World) : Keeps token w w :=
  ⟨Kept.refl token w, [], rfl⟩

theorem trans (h₁ : Keeps token w w₁) (h₂ : Keeps token w₁ w₂) : Keeps token w w₂ := by
  obtain ⟨new₁, hnew₁⟩ := h₁.since
  obtain ⟨new₂, hnew₂⟩ := h₂.since
  exact ⟨h₁.toKept.trans h₂.toKept, new₂ ++ new₁, by rw [hnew₂, hnew₁, List.append_assoc]⟩

theorem setPage {f : Page → Page}
    (hpre : (f (w.pages token)).preClaimRecord = (w.pages token).preClaimRecord)
    (hpost : (f (w.pages token)).postClaimRecord = (w.pages token).postClaimRecord)
    (hv : (f (w.pages token)).view = (w.pages token).view ∨ plain (f (w.pages token)).view = true) :
    Keeps token w (w.setPage token f) :=
  ⟨Kept.setPage hpre hpost hv, [], rfl⟩

theorem writeLease {how : WriteKind} {rec : RoamingLeaseRecord} (hno : isClaim token ⟨token, how, rec⟩ = false) :
    Keeps token w (w.writeLease token how rec) where
  preClaim := rfl
  postClaim := rfl
  view := .inl rfl
  log := ⟨[], rfl, fun _ hi => by cases hi⟩
  since := ⟨[⟨token, how, rec⟩], by simp [sinceClaim, World.writeLease, hno]⟩

end Keeps

theorem Move.keeps (hm : Move token C w w₁) : Keeps token w w₁ := by
  refine ⟨⟨hm.preClaim, hm.postClaim, hm.view, hm.log⟩, ?_⟩
  rcases hm.writes with ⟨-, hsame⟩ | ⟨x, hx, -, hno, -⟩
  · exact ⟨[], by rw [sinceClaim, hsame]; rfl⟩
  · exact ⟨[x], by simp [sinceClaim, hx, hno]⟩

theorem keeps_of_others (ho : Others token C w w₁) : Keeps token w w₁ := by
  induction ho with
  | refl => exact Keeps.refl token w
  | tail _ hm ih => exact ih.trans hm.keeps

/-! ## The acks in the lease file -/

/-- Every ack that the lease file has held since the session's claim was written since. -/
structure Since (token : String) (w : World) : Prop where
  lease : ∀ r, w.drive.lease = some r → ∀ ack, r.handoffAck = some ack → AckedSince token w ack
  writes : ∀ y ∈ sinceClaim token w, ∀ ack, y.record.handoffAck = some ack → AckedSince token w ack

theorem AckedSince.keeps {ack : HandoffAck} (ha : AckedSince token w ack) (hk : Keeps token w w₁) :
    AckedSince token w₁ ack := by
  obtain ⟨x, hx, hack⟩ := ha
  obtain ⟨new, hnew⟩ := hk.since
  exact ⟨x, by rw [hnew]; exact List.mem_append_right _ hx, hack⟩

/-- One write of the others. -/
theorem Since.move (hs : Since token w) (hm : Move token (ReleasedSince token) w w₁) : Since token w₁ := by
  have hk := hm.keeps
  rcases hm.writes with ⟨hfirst, hsame⟩ | ⟨x, hx, hgenuine, hno, hC⟩
  · have hlease : w₁.drive.lease = w.drive.lease := by rw [Drive.lease, Drive.lease, hsame, hfirst]
    have hsince : sinceClaim token w₁ = sinceClaim token w := by rw [sinceClaim, sinceClaim, hsame]
    refine ⟨fun r hr ack ha => ?_, fun y hy ack ha => ?_⟩
    · exact (hs.lease r (hlease ▸ hr) ack ha).keeps hk
    · exact (hs.writes y (hsince ▸ hy) ack ha).keeps hk
  · have hlease : w₁.drive.lease = some x.record := by rw [Drive.lease, hx]
    have hsince : sinceClaim token w₁ = x :: sinceClaim token w := by
      simp [sinceClaim, hx, hno]
    have hnew : ∀ ack, x.record.handoffAck = some ack → AckedSince token w₁ ack := by
      intro ack ha
      rw [Genuine] at hgenuine
      rw [ReleasedSince] at hC
      cases hhow : x.how with
      | claim site previous =>
        rw [hhow] at hgenuine
        rw [hgenuine] at ha
        cases ha
      | ack base =>
        rw [hhow] at hgenuine
        obtain ⟨version, now, hrec⟩ := hgenuine
        have hown : ack.from_ = x.author := by
          rw [hrec] at ha
          cases ha
          rfl
        exact ⟨x, by rw [hsince]; exact List.mem_cons_self .., hown.symm, ⟨base, hhow⟩, ha⟩
      | release base =>
        rw [hhow] at hgenuine hC
        obtain ⟨-, clean, version, now, hrec⟩ := hgenuine
        have hbase : base.handoffAck = some ack := by
          rw [hrec] at ha
          exact ha
        rcases hC with hnone | ⟨y, hy, hyb⟩
        · rw [hnone] at hbase
          cases hbase
        · exact (hs.writes y hy ack (hyb ▸ hbase)).keeps hk
      | keepalive base =>
        rw [hhow] at hgenuine
        obtain ⟨hnone, clean, version, now, hrec⟩ := hgenuine
        have hbase : base.handoffAck = some ack := by
          rw [hrec] at ha
          exact ha
        rw [hnone] at hbase
        cases hbase
    refine ⟨fun r hr ack ha => ?_, fun y hy ack ha => ?_⟩
    · rw [hlease] at hr
      cases hr
      exact hnew ack ha
    · rw [hsince] at hy
      rcases List.mem_cons.mp hy with rfl | hy
      · exact hnew ack ha
      · exact (hs.writes y hy ack ha).keeps hk

theorem Since.others (hs : Since token w) (ho : Others token (ReleasedSince token) w w₁) : Since token w₁ := by
  induction ho with
  | refl => exact hs
  | tail _ hm ih => exact ih.move hm

/-- A claim of the session leaves no ack in the file. -/
theorem since_claim {previous : Option RoamingLeaseRecord} {rec : RoamingLeaseRecord}
    (hnone : rec.handoffAck = none) : Since token (w.writeLease token (.claim .acquire previous) rec) := by
  refine ⟨fun r hr ack ha => ?_, fun y hy => ?_⟩
  · simp only [Drive.lease, World.writeLease, Option.some.injEq] at hr
    rw [← hr, hnone] at ha
    cases ha
  · simp [sinceClaim, World.writeLease, isClaim] at hy

/-! ## Code that leaves them alone -/

/-- A request that writes nothing is a step of the others. -/
theorem move_exec {q : Request} {c : Choice} {r : Except Err (Answer q)} (he : exec token q c w = some (r, w₁))
    (hq : ∀ how rec, q ≠ .leaseWrite how rec) : Others token C w w₁ := by
  have hnode : ∀ {v : World} (n : Node), Move token C v (v.setNode token n) := fun n => by
    refine ⟨?_, ?_, .inl ?_, ⟨[], rfl, fun _ hi => by cases hi⟩, .inl ⟨rfl, rfl⟩⟩
    all_goals rw [World.setNode_self]
  exact exec_moves he .refl (fun how rec hw => absurd hw (hq how rec)) (fun n _ => .single (hnode n))
    (fun v n hn hv => hv.tail ⟨rfl, rfl, .inl rfl, ⟨[n], rfl, fun i hi =>
      hn token i (List.mem_singleton.mp hi).symm⟩, .inl ⟨rfl, rfl⟩⟩)
    fun _ _ => .single ⟨rfl, rfl, .inl rfl, ⟨[], rfl, fun _ hi => by cases hi⟩, .inl ⟨rfl, rfl⟩⟩

theorem move_setPage {f : Page → Page}
    (hpre : (f (w.pages token)).preClaimRecord = (w.pages token).preClaimRecord)
    (hpost : (f (w.pages token)).postClaimRecord = (w.pages token).postClaimRecord)
    (hv : (f (w.pages token)).view = (w.pages token).view ∨ plain (f (w.pages token)).view = true) :
    Others token C w (w.setPage token f) := by
  have hk := Kept.setPage hpre hpost hv
  exact .single ⟨hk.preClaim, hk.postClaim, hk.view, hk.log, .inl ⟨rfl, rfl⟩⟩

/-- A request that is no claim. -/
theorem keeps_exec {q : Request} {c : Choice} {r : Except Err (Answer q)} (he : exec token q c w = some (r, w₁))
    (hq : ∀ previous rec, q ≠ .leaseWrite (.claim .acquire previous) rec) : Keeps token w w₁ := by
  by_cases hwrite : ∃ how rec, q = .leaseWrite how rec
  · obtain ⟨how, rec, rfl⟩ := hwrite
    simp only [exec, Option.some.injEq, Prod.mk.injEq] at he
    rw [← he.2]
    split
    · exact Keeps.refl token w
    · refine Keeps.writeLease ?_
      unfold isClaim
      split
      · exact absurd (by rename_i heq; exact congrArg₂ Request.leaseWrite heq rfl) (hq _ _)
      · rfl
  · exact keeps_of_others (C := fun _ _ => True) (move_exec he fun how rec hw => hwrite ⟨how, rec, hw⟩)

theorem others_framing : Framing (session token P C) (Others token C) where
  free := among_free _ _ _
  refl := fun _ => .refl
  trans := .trans
  rely := fun _ _ h => h

theorem keeps_framing : Framing (session token P C) (Keeps token) where
  free := among_free _ _ _
  refl := Keeps.refl token
  trans := Keeps.trans
  rely := fun _ _ h => keeps_of_others h

/-- Neither the peek of a boot, which is answered under the condition, nor a write. -/
def reads : Request → Bool
  | .leaseWrite _ _ => false
  | _ => true

/-- Anything but a claim. -/
def claimless : Request → Bool
  | .leaseWrite (.claim .acquire _) _ => false
  | _ => true

theorem others_keeping :
    Keeping token (session token P C) (Others token C) (fun _ => True) reads plain where
  framing := others_framing
  ask := fun q hq => others_framing.request fun _ _ _ _ _ _ he =>
    ⟨move_exec he fun how rec hw => (by rw [hw] at hq; cases hq), trivial⟩
  view := fun _ _ hv => move_setPage rfl rfl (.inr hv)
  stop := fun _ => move_setPage rfl rfl (.inl rfl)

theorem keeps_keeping :
    Keeping token (session token P C) (Keeps token) (fun _ => True) claimless plain where
  framing := keeps_framing
  ask := fun q hq => keeps_framing.request fun _ _ _ _ _ _ he =>
    ⟨keeps_exec he fun previous rec hw => (by rw [hw] at hq; cases hq), trivial⟩
  view := fun _ _ hv => Keeps.setPage rfl rfl (.inr hv)
  stop := fun _ => Keeps.setPage rfl rfl (.inl rfl)

theorem frames_leaseFailureState (e : Err) :
    Frames (session token P C) (Keeps token) (fun _ => True) (leaseFailureState token e) :=
  keeps_keeping.leaseFailureState e (fun _ _ => rfl) rfl fun _ => rfl

theorem frames_startGuarded (skipStart : Bool) :
    Frames (session token P C) (Keeps token) (fun _ => True) (startGuarded token skipStart) :=
  keeps_keeping.startGuarded skipStart (fun _ => rfl) rfl (fun _ => rfl) (fun _ => rfl) (fun _ _ => rfl)
    rfl (fun _ => rfl) rfl (keeps_keeping.nowRunning rfl fun _ => Keeps.setPage rfl rfl (.inl rfl))

theorem frames_restoreProven (envelope : Envelope) (secret : String) :
    Frames (session token P C) (Keeps token) (fun _ => True) (restoreProven token envelope secret) := by
  refine keeps_framing.bind (Framing.attempt (keeps_keeping.ask _ rfl)) fun restored => ?_
  split
  · exact keeps_keeping.setView rfl
  · exact keeps_framing.bind (Framing.modify fun _ => Keeps.setPage rfl rfl (.inl rfl)) fun _ =>
      frames_startGuarded true

theorem frames_clearPredecessor :
    Frames (session token P C) (Keeps token) (fun _ => True) (clearPredecessor token) :=
  keeps_keeping.clearPredecessor rfl rfl (fun _ _ => rfl) fun _ _ => Keeps.setPage rfl rfl (.inl rfl)

/-! ## What the session knows -/

/-- The ack that the session holds, if it is the predecessor's, was written since the claim. -/
def Fresh (token : String) (w : World) : Prop :=
  ∀ lease, (w.pages token).preClaimRecord = some lease → ∀ post, (w.pages token).postClaimRecord = some post →
    ∀ ack, post.handoffAck = some ack → ack.from_ = lease.owner → AckedSince token w ack

/-- Where the session waits for its user with a proof to come, its ack is fresh. -/
def Rest (token : String) (w : World) : Prop := plain (w.pages token).view = false → Fresh token w

/-- A proof by an ack is by one that the predecessor wrote since the session's claim. -/
def FreshProof (token : String) (w : World) (i : HandoffProofInputs) : Prop :=
  evaluateHandoffProof i = .proven .ack → ∃ lease post ack, i.lease = some lease ∧
    i.postClaimLease = some post ∧ post.handoffAck = some ack ∧ ack.from_ = lease.owner ∧
    AckedSince token w ack

/-- No proof was asked for since `w₀`. -/
def Quiet (token : String) (w₀ w : World) : Prop :=
  ∃ new, w.log = new ++ w₀.log ∧ ∀ i, Note.evaluated token i ∉ new

/-- Every proof that was asked for since `w₀` is one. -/
def Judged (token : String) (w₀ w : World) : Prop :=
  ∃ new, w.log = new ++ w₀.log ∧ ∀ i, Note.evaluated token i ∈ new → FreshProof token w i

/-- What a call leaves. -/
def Left (token : String) (w₀ w : World) : Prop := Rest token w ∧ Judged token w₀ w

abbrev leaves (token : String) (w₀ : World) : PostCond World Request Answer Err Unit :=
  fun _ _ _ w => Left token w₀ w

/-- A proof by an ack has one that names the predecessor. -/
theorem ack_of_proven {i : HandoffProofInputs} (hp : evaluateHandoffProof i = .proven .ack) :
    ∃ lease post ack, i.lease = some lease ∧ i.postClaimLease = some post ∧ post.handoffAck = some ack ∧
      ack.from_ = lease.owner := by
  unfold evaluateHandoffProof at hp
  split at hp
  · cases hp
  cases hl : i.lease with
  | none =>
    rw [hl] at hp
    cases hp
  | some lease =>
    rw [hl] at hp
    dsimp only at hp
    split at hp
    · cases hp
    split at hp
    · rename_i hack
      unfold ackProves at hack
      split at hack
      · cases hack
      · rename_i ack hbind
        obtain ⟨post, hpost, ha⟩ := Option.bind_eq_some_iff.mp hbind
        exact ⟨lease, post, ack, rfl, hpost, ha, (of_decide_eq_true hack).1⟩
    split at hp <;> cases hp

theorem Fresh.keeps (hf : Fresh token w) (hk : Keeps token w w₁) : Fresh token w₁ := by
  intro lease hl post hp ack ha hfrom
  rw [hk.preClaim] at hl
  rw [hk.postClaim] at hp
  exact (hf lease hl post hp ack ha hfrom).keeps hk

theorem Fresh.proof (hf : Fresh token w) {i : HandoffProofInputs}
    (hl : i.lease = (w.pages token).preClaimRecord) (hp : i.postClaimLease = (w.pages token).postClaimRecord) :
    FreshProof token w i := by
  intro hproven
  obtain ⟨lease, post, ack, hlease, hpost, ha, hfrom⟩ := ack_of_proven hproven
  exact ⟨lease, post, ack, hlease, hpost, ha, hfrom,
    hf lease (hl ▸ hlease) post (hp ▸ hpost) ack ha hfrom⟩

theorem FreshProof.keeps {i : HandoffProofInputs} (hf : FreshProof token w i) (hk : Keeps token w w₁) :
    FreshProof token w₁ i := by
  intro hproven
  obtain ⟨lease, post, ack, hlease, hpost, ha, hfrom, hsince⟩ := hf hproven
  exact ⟨lease, post, ack, hlease, hpost, ha, hfrom, hsince.keeps hk⟩

theorem Quiet.refl (token : String) (w : World) : Quiet token w w :=
  ⟨[], rfl, fun _ hi => by cases hi⟩

theorem Quiet.kept (hq : Quiet token w₀ w) (hk : Kept token w w₁) : Quiet token w₀ w₁ := by
  obtain ⟨new, hlog, hno⟩ := hq
  obtain ⟨new₁, hlog₁, hno₁⟩ := hk.log
  refine ⟨new₁ ++ new, by rw [hlog₁, hlog, List.append_assoc], fun i hi => ?_⟩
  rcases List.mem_append.mp hi with hi | hi
  · exact hno₁ i hi
  · exact hno i hi

theorem Quiet.judged (hq : Quiet token w₀ w) : Judged token w₀ w := by
  obtain ⟨new, hlog, hno⟩ := hq
  exact ⟨new, hlog, fun i hi => absurd hi (hno i)⟩

theorem Judged.keeps (hj : Judged token w₀ w) (hk : Keeps token w w₁) : Judged token w₀ w₁ := by
  obtain ⟨new, hlog, hall⟩ := hj
  obtain ⟨new₁, hlog₁, hno₁⟩ := hk.log
  refine ⟨new₁ ++ new, by rw [hlog₁, hlog, List.append_assoc], fun i hi => ?_⟩
  rcases List.mem_append.mp hi with hi | hi
  · exact absurd hi (hno₁ i)
  · exact (hall i hi).keeps hk

theorem Left.keeps (hl : Left token w₀ w) (hk : Keeps token w w₁) : Left token w₀ w₁ := by
  refine ⟨fun hview => ?_, hl.2.keeps hk⟩
  rcases hk.view with hsame | hplain
  · rw [hsame] at hview
    exact (hl.1 hview).keeps hk
  · rw [hplain] at hview
    cases hview

theorem Rest.left (hr : Rest token w) : Left token w w := ⟨hr, (Quiet.refl token w).judged⟩

/-- A proof about the records that the session holds. -/
theorem Judged.evaluated (hj : Judged token w₀ w) (hf : Fresh token w) {i : HandoffProofInputs}
    (hl : i.lease = (w.pages token).preClaimRecord) (hp : i.postClaimLease = (w.pages token).postClaimRecord) :
    Judged token w₀ (w.note (.evaluated token i)) := by
  obtain ⟨new, hlog, hall⟩ := hj
  refine ⟨.evaluated token i :: new, by rw [World.note_log, hlog]; rfl, fun i' hi' => ?_⟩
  rcases List.mem_cons.mp hi' with heq | hold
  · cases heq
    exact hf.proof hl hp
  · exact hall i' hold

/-- A view is shown while the ack is fresh. -/
theorem left_of_fresh (hf : Fresh token w) (hj : Judged token w₀ w) {f : Page → Page}
    (hpre : (f (w.pages token)).preClaimRecord = (w.pages token).preClaimRecord)
    (hpost : (f (w.pages token)).postClaimRecord = (w.pages token).postClaimRecord) :
    Left token w₀ (w.setPage token f) := by
  refine ⟨fun _ lease hl post hp => ?_, hj⟩
  rw [World.setPage_self, hpre] at hl
  rw [World.setPage_self, hpost] at hp
  exact hf lease hl post hp

/-- A view is shown that no proof waits behind. -/
theorem left_of_plain (hj : Judged token w₀ w) {f : Page → Page}
    (hview : plain (f (w.pages token)).view = true) : Left token w₀ (w.setPage token f) := by
  refine ⟨fun hv => ?_, hj⟩
  rw [World.setPage_self, hview] at hv
  cases hv

theorem wp_keeps {p : Roam Unit} (hp : Frames (session token P C) (Keeps token) (fun _ => True) p)
    (hl : Left token w₀ w) : wp (session token P C) p h (leaves token w₀) s w :=
  hp h s w _ fun _ _ _ _ hk _ => hl.keeps hk

theorem wp_leaseFailureState (hj : Judged token w₀ w) (e : Err) :
    wp (session token P C) (leaseFailureState token e) h (leaves token w₀) s w := by
  cases e with
  | held origin expiresAt => exact left_of_plain hj rfl
  | unreachable cause => exact left_of_plain hj rfl
  | other message => exact left_of_plain hj rfl

/-! ## The calls -/

theorem wp_ask_session {q : Request} {Post : PostCond World Request Answer Err (Answer q)}
    (hk : ∀ c r w₁ w₂ w₃, Others token C w w₁ → (q = .leaseRead .bootPeek → P w₁) →
      exec token q c w₁ = some (r, w₂) → Others token C w₂ w₃ → Post (⟨q, r, w₁⟩ :: h) r w₃ w₃) :
    wp (session token P C) (ask q) h Post s w :=
  others_framing.free.wp_request fun c r w₁ w₂ w₃ h₁ ha he h₃ => hk c r w₁ w₂ w₃ h₁ ha he h₃

/-- What a read finds is in the file. -/
theorem lease_of_read {site : ReadSite} {c : Choice} {record : Option RoamingLeaseRecord}
    (he : exec token (.leaseRead site) c w = some (.ok record, w₁)) : record = w.drive.lease ∧ w₁ = w := by
  simp only [exec, Option.some.injEq, Prod.mk.injEq] at he
  obtain ⟨hr, rfl⟩ := he
  split at hr
  · cases hr
    exact ⟨rfl, rfl⟩
  · cases hr

/-- The proof gate, with a fresh ack. -/
theorem wp_routeClaimed (hf : Fresh token w) (hj : Judged token w₀ w) (info : LocalInfo)
    (backup : Option Envelope) (version : Option Nat) :
    wp (session token P C) (routeClaimed token info backup version) h (leaves token w₀) s w := by
  simp only [routeClaimed, Proc.bind_eq, wp_bind, wp_get]
  split
  · simp only [wp_bind, noteEvaluated, wp_modify]
    have hf' : ∀ i, Fresh token (w.note (.evaluated token i)) := fun _ => hf
    have hj' := fun i hl hp => hj.evaluated hf (i := i) hl hp
    split
    · exact left_of_fresh (hf' _) (hj' _ rfl rfl) rfl rfl
    · exact left_of_fresh (hf' _) (hj' _ rfl rfl) rfl rfl
    · exact left_of_fresh (hf' _) (hj' _ rfl rfl) rfl rfl
    · exact left_of_fresh (hf' _) (hj' _ rfl rfl) rfl rfl
    · exact wp_keeps (frames_startGuarded false) ⟨fun _ => hf' _, hj' _ rfl rfl⟩
  · split
    · exact left_of_fresh hf hj rfl rfl
    · exact left_of_fresh hf hj rfl rfl
    · exact left_of_fresh hf hj rfl rfl
    · exact left_of_fresh hf hj rfl rfl
    · exact wp_keeps (frames_startGuarded false) ⟨fun _ => hf, hj⟩

theorem wp_continueClaimed (hf : Fresh token w) (hj : Judged token w₀ w) :
    wp (session token P C) (continueClaimed token) h (leaves token w₀) s w := by
  have hK : Keeping token (session token P C) (Keeps token) (fun _ => True) claimless plain := keeps_keeping
  have hF : Framing (session token P C) (Keeps token) := keeps_framing
  simp only [continueClaimed, Proc.bind_eq, wp_bind]
  refine Framing.attempt (hF.bind (hK.ask _ rfl) fun l => hF.bind (hK.ask _ rfl) fun x => hF.done _)
    _ _ _ _ fun h₁ r s₁ w₁ hk₁ _ => ?_
  have hf₁ := hf.keeps hk₁
  have hj₁ := hj.keeps hk₁
  cases r with
  | error e => exact ⟨fun _ => hf₁, hj₁⟩
  | ok read =>
    cases read with
    | error e => exact left_of_fresh hf₁ hj₁ rfl rfl
    | ok x =>
      simp only [wp_bind]
      refine hK.readBackupVersion _ _ (fun _ _ => rfl) _ _ _ _ fun h₂ r s₂ w₂ hk₂ _ => ?_
      cases r with
      | error e => exact ⟨fun _ => hf₁.keeps hk₂, hj₁.keeps hk₂⟩
      | ok version => exact wp_routeClaimed (hf₁.keeps hk₂) (hj₁.keeps hk₂) _ _ _

/-- A claim that passes leaves no ack from before it in the file. -/
theorem wp_acquire {takeover : Bool} {Post : PostCond World Request Answer Err RoamingLeaseRecord}
    (hok : ∀ h' rec s' w', Since token w' → Kept token w w' → Post h' (.ok rec) s' w')
    (herr : ∀ h' e s' w', Kept token w w' → Post h' (.error e) s' w') :
    wp (session token P (ReleasedSince token)) (acquire token takeover) h Post s w := by
  have hK : Keeping token (session token P (ReleasedSince token)) (Others token (ReleasedSince token))
      (fun _ => True) reads plain := others_keeping
  have hF : Framing (session token P (ReleasedSince token)) (Others token (ReleasedSince token)) :=
    others_framing
  simp only [acquire, Proc.bind_eq, wp_bind]
  refine hK.peek rfl _ _ _ _ fun h₁ r s₁ w₁ ho₁ _ => ?_
  have hk₁ := (keeps_of_others ho₁).toKept
  cases r with
  | error e => exact herr _ _ _ _ hk₁
  | ok x =>
    simp only [wp_get]
    split
    · exact herr _ _ _ _ hk₁
    simp only [writeOurRecord, updatePage, Proc.bind_eq, wp_bind, wp_rescue, wp_get]
    refine hK.ask _ rfl _ _ _ _ fun h₂ r s₂ w₂ ho₂ _ => ?_
    have hk₂ := hk₁.trans (keeps_of_others ho₂).toKept
    cases r with
    | error e => exact herr _ _ _ _ hk₂
    | ok info =>
      refine wp_ask_session fun c r w₃ w₄ w₅ ho₃ _ he ho₅ => ?_
      have hk₃ := hk₂.trans (keeps_of_others ho₃).toKept
      have hwrite : ∀ how rec, Kept token w₃ (w₃.writeLease token how rec) := fun _ _ =>
        ⟨rfl, rfl, .inl rfl, [], rfl, fun _ hi => by cases hi⟩
      have hk₅ : Kept token w w₅ := by
        simp only [exec, Option.some.injEq, Prod.mk.injEq] at he
        refine (hk₃.trans ?_).trans (keeps_of_others ho₅).toKept
        rw [← he.2]
        split
        · exact Kept.refl token w₃
        · exact hwrite _ _
      cases r with
      | error e => exact herr _ _ _ _ hk₅
      | ok u =>
        -- the write landed
        have hs₅ : Since token w₅ := by
          simp only [exec, Option.some.injEq, Prod.mk.injEq] at he
          obtain ⟨hr, rfl⟩ := he
          cases c with
          | ok => exact (since_claim rfl).others ho₅
          | fail => cases hr
          | lost => cases hr
        have hlast : ∀ rec, Others token (ReleasedSince token) w₅
            (w₅.setPage token fun p => { p with lastWritten := some rec }) := fun _ =>
          move_setPage rfl rfl (.inl rfl)
        simp only [wp_modify, Proc.pure_eq, wp_done]
        refine hK.ask _ rfl _ _ _ _ fun h₆ r s₆ w₆ ho₆ _ => ?_
        have ho₆ := (hlast _).trans ho₆
        cases r with
        | error e => exact herr _ _ _ _ (hk₅.trans (keeps_of_others ho₆).toKept)
        | ok u =>
          refine hK.peek rfl _ _ _ _ fun h₇ r s₇ w₇ ho₇ _ => ?_
          have ho₇ := ho₆.trans ho₇
          have hk₇ := hk₅.trans (keeps_of_others ho₇).toKept
          cases r with
          | error e => exact herr _ _ _ _ hk₇
          | ok y =>
            dsimp only
            split
            · split
              · exact hok _ _ _ _ (hs₅.others ho₇) hk₇
              · exact herr _ _ _ _ hk₇
            · exact herr _ _ _ _ hk₇

theorem wp_peek {site : ReadSite}
    {Post : PostCond World Request Answer Err (Option RoamingLeaseRecord × RoamingLeaseState)}
    (hok : ∀ h' state s' w₁ w₂, Others token C w w₁ → (site = .bootPeek → P w₁) → Others token C w₁ w₂ →
      Post h' (.ok (w₁.drive.lease, state)) s' w₂)
    (herr : ∀ h' e s' w', Others token C w w' → Post h' (.error e) s' w') :
    wp (session token P C) (peek token site) h Post s w := by
  simp only [peek, Proc.bind_eq, Proc.pure_eq, wp_bind, wp_rescue]
  refine wp_ask_session fun c r w₁ w₂ w₃ ho₁ ha he ho₃ => ?_
  have ho : Others token C w₁ w₃ := .trans (move_exec he fun _ _ h => by cases h) ho₃
  cases r with
  | error e => exact herr _ _ _ _ (ho₁.trans ho)
  | ok record =>
    obtain ⟨rfl, -⟩ := lease_of_read he
    exact hok _ _ _ w₁ w₃ ho₁ (fun hsite => ha (hsite ▸ rfl)) ho

theorem wp_boot : wp (session token (NoOldAck token) (ReleasedSince token)) (boot token) h
    (leaves token w) s w := by
  have hq : Quiet token w (w.setPage token fun p => { p with view := .checking }) := Quiet.refl token w
  simp only [boot, setView, updatePage, Proc.bind_eq, wp_bind, wp_modify, wp_attempt]
  refine wp_peek (fun h₁ state s₁ w₁ w₂ ho₁ ha ho₂ => ?_) fun h₁ e s₁ w₁ ho₁ => ?_
  · have hk₂ := (keeps_of_others ho₂).toKept
    have hq₂ := (hq.kept (keeps_of_others ho₁).toKept).kept hk₂
    have hq₃ : Quiet token w (w₂.setPage token fun p => { p with preClaimRecord := w₁.drive.lease }) := hq₂
    simp only [wp_bind, wp_modify]
    split
    · exact left_of_plain hq₃.judged rfl
    · rw [wp_bind, wp_attempt]
      have hfresh : ∀ w', Kept token (w₂.setPage token fun p => { p with preClaimRecord := w₁.drive.lease }) w' →
          Fresh token w' := by
        intro w' hk lease hl post hpc ack hack hfrom
        rw [hk.preClaim, World.setPage_self] at hl
        rw [hk.postClaim, World.setPage_self] at hpc
        exact absurd hfrom (ha rfl lease hl post (hk₂.postClaim ▸ hpc) ack hack)
      refine wp_acquire (fun h' rec s' w' _ hk => ?_) fun h' e s' w' hk => ?_
      · exact wp_continueClaimed (hfresh w' hk) (hq₃.kept hk).judged
      · exact wp_leaseFailureState (hq₃.kept hk).judged e
  · exact left_of_plain (hq.kept (keeps_of_others ho₁).toKept).judged rfl

/-- A view that no proof waits behind stays one. -/
theorem Kept.shown (hk : Kept token w w₁) (hv : plain (w.pages token).view = true) :
    plain (w₁.pages token).view = true := by
  rcases hk.view with hsame | hplain
  · rw [hsame]
    exact hv
  · exact hplain

theorem Quiet.left (hq : Quiet token w₀ w) (hv : plain (w.pages token).view = true) : Left token w₀ w := by
  refine ⟨fun hw => ?_, hq.judged⟩
  rw [hv] at hw
  cases hw

/-- What a poll's verdict leads to, whichever record it saw. -/
theorem wp_polled {reason : TakeoverReason} {record : Option RoamingLeaseRecord} {deadline : Nat}
    {wait : Roam Unit} (hq : Quiet token w₀ w) (hv : plain (w.pages token).view = true)
    (hread : ∀ r, record = some r → ∀ ack, r.handoffAck = some ack → AckedSince token w ack)
    (hwait : ∀ {h' s' w'}, Others token C w w' → wp (session token P C) wait h' (leaves token w₀) s' w') :
    wp (session token P C)
      (match reason with
        | .lost =>
          updatePage token fun p =>
            { p with
              preClaimRecord := record
              view := .blocked ((record.map (·.origin)).getD "another origin")
                ((record.map (·.expiresAt)).getD w.clock) }
        | .acked | .timeout =>
          (updatePage token fun p => { p with postClaimRecord := record }).bind fun _ =>
            continueClaimed token
        | .waiting => (ask (.delayUntil deadline)).bind fun _ => wait) h (leaves token w₀) s w := by
  have proceed : wp (session token P C)
      ((updatePage token fun p => { p with postClaimRecord := record }).bind fun _ =>
        continueClaimed token) h (leaves token w₀) s w := by
    simp only [updatePage, wp_bind, wp_modify]
    have hj : Judged token w₀ (w.setPage token fun p => { p with postClaimRecord := record }) := hq.judged
    refine wp_continueClaimed (fun lease _ post hpost ack hack _ => ?_) hj
    rw [World.setPage_self] at hpost
    exact hread post hpost ack hack
  cases reason with
  | lost => exact left_of_plain hq.judged rfl
  | acked => exact proceed
  | timeout => exact proceed
  | waiting =>
    simp only [wp_bind]
    refine others_keeping.ask _ rfl _ _ _ _ fun h₁ r s₁ w₁ ho₁ _ => ?_
    have hk₁ := (keeps_of_others ho₁).toKept
    cases r with
    | error e => exact (hq.kept hk₁).left (hk₁.shown hv)
    | ok u => exact hwait ho₁

/-- The polls of a takeover read only acks that were written since the claim. -/
theorem wp_pollTakeover (previousOwner : String) (claimedAt polls : Nat) {h : List RoamEntry} {s w : World}
    (hs : Since token w) (hq : Quiet token w₀ w) (hv : plain (w.pages token).view = true) :
    wp (session token P (ReleasedSince token)) (pollTakeover token previousOwner claimedAt polls) h
      (leaves token w₀) s w := by
  induction polls generalizing h s w with
  | zero => exact hq.left hv
  | succ polls ih =>
    simp only [pollTakeover, setView, updatePage, Proc.bind_eq, wp_bind, wp_get, wp_modify, wp_attempt]
    have hmoving : Others token (ReleasedSince token) w
        (w.setPage token fun p => { p with view := .moving (w.clock - claimedAt) }) :=
      move_setPage rfl rfl (.inr rfl)
    have hgoes : ∀ {w'}, Others token (ReleasedSince token) w w' → ∀ {h'' s'' w''},
        Others token (ReleasedSince token) w' w'' →
        wp (session token P (ReleasedSince token)) (pollTakeover token previousOwner claimedAt polls) h''
          (leaves token w₀) s'' w'' := by
      intro w' ho h'' s'' w'' ho'
      have hk := (keeps_of_others (ho.trans ho')).toKept
      exact ih (hs.others (ho.trans ho')) (hq.kept hk) (hk.shown hv)
    refine wp_peek (fun h₁ state s₁ w₁ w₂ ho₁ _ ho₂ => ?_) fun h₁ e s₁ w₁ ho₁ => ?_
    · have ho₁ := hmoving.trans ho₁
      have hk := (keeps_of_others (ho₁.trans ho₂)).toKept
      exact wp_polled (hq.kept hk) (hk.shown hv)
        (fun r hr ack hack => ((hs.others ho₁).lease r hr ack hack).keeps (keeps_of_others ho₂))
        (hgoes (ho₁.trans ho₂))
    · have ho := hmoving.trans ho₁
      have hk := (keeps_of_others ho).toKept
      exact wp_polled (hq.kept hk) (hk.shown hv) (fun r hr => by cases hr) (hgoes ho)

theorem wp_moveHere (hr : Rest token w) (polls : Nat) :
    wp (session token P (ReleasedSince token)) (moveHere token polls) h (leaves token w) s w := by
  have hq := Quiet.refl token w
  simp only [moveHere, Proc.bind_eq, wp_bind, wp_get]
  split
  · rename_i origin expiresAt hview
    have hv : plain (w.pages token).view = true := by rw [hview]; rfl
    rw [wp_bind, wp_attempt]
    refine wp_acquire (fun h' rec s' w' hs hk => ?_) fun h' e s' w' hk => ?_
    · exact wp_pollTakeover _ _ _ hs (hq.kept hk) (hk.shown hv)
    · exact wp_leaseFailureState (hq.kept hk).judged e
  · exact hr.left

theorem wp_submitSecret (hr : Rest token w) (secret : String) :
    wp (session token P C) (submitSecret token secret) h (leaves token w) s w := by
  simp only [submitSecret, Proc.bind_eq, wp_bind, wp_get]
  split
  · rename_i hview _
    have hf : Fresh token w := hr (by rw [hview]; rfl)
    have hj := (Quiet.refl token w).judged
    rw [wp_bind]
    refine keeps_keeping.ask _ rfl _ _ _ _ fun h₁ r s₁ w₁ hk₁ _ => ?_
    have hf₁ := hf.keeps hk₁
    have hj₁ := hj.keeps hk₁
    cases r with
    | error e => exact ⟨fun _ => hf₁, hj₁⟩
    | ok v =>
      dsimp only
      split
      · simp only [noteEvaluated, wp_bind, wp_get, wp_modify]
        have hf₂ : ∀ i, Fresh token (w₁.note (.evaluated token i)) := fun _ => hf₁
        split
        · exact left_of_fresh (hf₂ _) (hj₁.evaluated hf₁ rfl rfl) rfl rfl
        · exact wp_keeps (frames_restoreProven _ _) ⟨fun _ => hf₂ _, hj₁.evaluated hf₁ rfl rfl⟩
      · exact left_of_fresh hf₁ hj₁ rfl rfl
  · exact hr.left

theorem wp_forceRestoreAnyway (hr : Rest token w) :
    wp (session token P C) (forceRestoreAnyway token) h (leaves token w) s w := by
  simp only [forceRestoreAnyway, setView, updatePage, Proc.bind_eq, wp_bind, wp_get]
  split
  · rename_i hview
    have hf : Fresh token w := hr (by rw [hview]; rfl)
    simp only [wp_bind, wp_modify]
    have hk : Keeps token w (w.setPage token fun p => { p with overrideUnprovenHandoff := true }) :=
      Keeps.setPage rfl rfl (.inl rfl)
    refine frames_clearPredecessor _ _ _ _ fun h₁ r s₁ w₁ hk₁ _ => ?_
    have hf₁ := hf.keeps (hk.trans hk₁)
    have hj₁ := (Quiet.refl token w).judged.keeps (hk.trans hk₁)
    cases r with
    | error e => exact ⟨fun _ => hf₁, hj₁⟩
    | ok u =>
      simp only [wp_get]
      split
      · exact left_of_fresh hf₁ hj₁ rfl rfl
      · exact wp_continueClaimed hf₁ hj₁
  · exact hr.left

/-! ## A session -/

theorem left_of_solo {call : Call} {r : Except Err Unit} (hr : Rest token w)
    (run : Solo (session token (NoOldAck token) (ReleasedSince token)) (call.code token) [] w h r w₁) :
    Left token w w₁ := by
  have hwp : wp (session token (NoOldAck token) (ReleasedSince token)) (call.code token) []
      (leaves token w) w w := by
    cases call with
    | boot => exact wp_boot
    | moveHere polls => exact wp_moveHere hr polls
    | submitSecret secret => exact wp_submitSecret hr secret
    | forceRestoreAnyway => exact wp_forceRestoreAnyway hr
  obtain ⟨s', hl⟩ := run.sound (fun _ _ _ _ => trivial) hwp
  exact hl

theorem Reached.rest (hw : Reached token (NoOldAck token) (ReleasedSince token) w) : Rest token w := by
  induction hw with
  | opened hview =>
    intro hplain
    rw [hview] at hplain
    cases hplain
  | others _ ho ih => exact (ih.left.keeps (keeps_of_others ho)).1
  | call _ run ih => exact (left_of_solo ih run).1

/-- In every run of a session among any others: where no boot finds a record of the owner whose ack the
session still holds, and no release puts back an ack from before the session's claim, every proof by an
ack is by one that the owner of the pre-claim record wrote since the session's last claim. -/
theorem acked_since_claim (token : String) (w w' : World) (call : Call) (h : List RoamEntry)
    (r : Except Err Unit) (hw : Reached token (NoOldAck token) (ReleasedSince token) w)
    (run : Solo (session token (NoOldAck token) (ReleasedSince token)) (call.code token) [] w h r w')
    (new : List Note) (hlog : w'.log = new ++ w.log) (i : HandoffProofInputs)
    (hi : .evaluated token i ∈ new) (hproven : evaluateHandoffProof i = .proven .ack) :
    ∃ lease post ack, i.lease = some lease ∧ i.postClaimLease = some post ∧ post.handoffAck = some ack ∧
      ack.from_ = lease.owner ∧ AckedSince token w' ack := by
  obtain ⟨new', hlog', hall⟩ := (left_of_solo hw.rest run).2
  have hsame : new' = new := List.append_cancel_right (hlog'.symm.trans hlog)
  exact hall i (hsame ▸ hi) hproven

/-- Every request is answered; `check` has to hold where a boot peeks. -/
def answer (token : String) (check : World → Bool) (q : Request) (w : World) :
    Option (Except Err (Answer q) × World) :=
  if q = .leaseRead .bootPeek ∧ check w = false then none else exec token q .ok w

/-- "b" acks the record that it finds. -/
def ackedByB (w : World) : World :=
  match w.drive.lease with
  | some r => w.writeLease "b" (.ack r) (ackedRecord r "b" 5 w.clock)
  | none => w

/-- A delay fires when it is due, and "b" acks before a poll reads. -/
def wait (q : Request) (w : World) : World :=
  match q with
  | .delayUntil deadline => { w with clock := max w.clock deadline }
  | .leaseRead .poll => ackedByB w
  | _ => w

theorem others_wait (hC : ∀ w r, C w ⟨"b", .ack r, ackedRecord r "b" 5 w.clock⟩) (q : Request) (w : World) :
    Others "a" C w (wait q w) := by
  unfold wait
  split
  · exact .single ⟨rfl, rfl, .inl rfl, ⟨[], rfl, fun _ hi => by cases hi⟩, .inl ⟨rfl, rfl⟩⟩
  · unfold ackedByB
    split
    · exact .single ⟨rfl, rfl, .inl rfl, ⟨[], rfl, fun _ hi => by cases hi⟩,
        .inr ⟨_, rfl, ⟨5, w.clock, rfl⟩, rfl, hC w _⟩⟩
    · exact .refl
  · exact .refl

theorem solo_of_answered {check : World → Bool} {call : Call} {r : Except Err Unit} {w' : World}
    (hC : ∀ w r, C w ⟨"b", .ack r, ackedRecord r "b" 5 w.clock⟩) (hP : ∀ w, check w = true → P w)
    (hp : (call.code "a").record wait (answer "a" check) [] w = some (h, r, w')) :
    Solo (session "a" P C) (call.code "a") [] w h r w' := by
  refine Proc.solo_of_record (fun _ => Relation.ReflTransGen.refl) (others_wait hC) (fun _ q w r w' he => ⟨.ok, fun hq => hP _ ?_, ?_⟩) hp
  · unfold answer at he
    split at he
    · cases he
    · rename_i hn
      by_contra hc
      exact hn ⟨hq, Bool.eq_false_iff.mpr hc⟩
  · unfold answer at he
    split at he
    · cases he
    · exact he

/-- The session holds no ack yet. -/
def ackless (w : World) : Bool := (w.pages "a").postClaimRecord.isNone

theorem noOldAck_of_ackless (hw : ackless w = true) : NoOldAck "a" w := by
  intro r _ post hpost
  rw [ackless, hpost] at hw
  cases hw

/-- The proofs by an ack that a page asked for. -/
def byAck (w : World) : List HandoffProofInputs :=
  (Replaced.evaluated "a" w).filter fun i => evaluateHandoffProof i = .proven .ack

theorem of_mem_byAck {i : HandoffProofInputs} (hi : i ∈ byAck w) :
    Note.evaluated "a" i ∈ w.log ∧ evaluateHandoffProof i = .proven .ack := by
  obtain ⟨hmem, hproven⟩ := List.mem_filter.mp hi
  exact ⟨Replaced.mem_log_of_mem_evaluated hmem, of_decide_eq_true hproven⟩

/-- The page is blocked by "b", which acks its takeover. -/
def takenOver (check : World → Bool) : Option (World × List RoamEntry × Except Err Unit × World) :=
  ((Call.boot.code "a").record wait (answer "a" check) [] (Replaced.openedAfterB .live)).bind fun x =>
    (((Call.moveHere 2).code "a").record wait (answer "a" check) [] x.2.2).map fun y => (x.2.2, y)

theorem of_takenOver {check : World → Bool} {r : Except Err Unit} {w' : World}
    (hC : ∀ w r, C w ⟨"b", .ack r, ackedRecord r "b" 5 w.clock⟩) (hP : ∀ w, check w = true → P w)
    (hp : takenOver check = some (w, h, r, w')) :
    Reached "a" P C w ∧ Solo (session "a" P C) ((Call.moveHere 2).code "a") [] w h r w' := by
  obtain ⟨⟨h₁, r₁, w₁⟩, hx, hy⟩ := Option.bind_eq_some_iff.mp hp
  obtain ⟨y, hy, heq⟩ := Option.map_eq_some_iff.mp hy
  cases heq
  have hboot : Solo (session "a" P C) (Call.boot.code "a") [] _ _ _ _ := solo_of_answered hC hP hx
  exact ⟨.call (.opened rfl) hboot, solo_of_answered hC hP hy⟩

/-- The takeover is proven by the ack of "b". -/
theorem acked_since_claim_takeover : ∃ (h : List RoamEntry) (r : Except Err Unit) (w w' : World)
    (i : HandoffProofInputs) (ack : HandoffAck),
    Solo (session "a" (NoOldAck "a") (ReleasedSince "a")) ((Call.moveHere 2).code "a") [] w h r w' ∧
      evaluateHandoffProof i = .proven .ack ∧ AckedSince "a" w' ack := by
  have heval : (takenOver ackless).any (fun x =>
      decide (x.1.log = []) && !(byAck x.2.2.2).isEmpty) = true := by
    decide +kernel
  obtain ⟨⟨w, h, r, w'⟩, hx, hsome⟩ := (Option.any_eq_true _ _).mp heval
  obtain ⟨hlog, hsome⟩ := Bool.and_eq_true_iff.mp hsome
  obtain ⟨hw, run⟩ := of_takenOver (C := ReleasedSince "a") (fun _ _ => trivial)
    (fun _ => noOldAck_of_ackless) hx
  obtain ⟨i, hi⟩ : ∃ i, i ∈ byAck w' := by
    cases hl : byAck w' with
    | nil => simp [hl] at hsome
    | cons i l => exact ⟨i, List.mem_cons_self ..⟩
  obtain ⟨hmem, hproven⟩ := of_mem_byAck hi
  have hlog' : w'.log = w'.log ++ w.log := by rw [of_decide_eq_true hlog, List.append_nil]
  obtain ⟨lease, post, ack, -, -, -, -, hsince⟩ :=
    acked_since_claim "a" w w' (.moveHere 2) h r hw run w'.log hlog' i hmem hproven
  exact ⟨h, r, w, w', i, ack, run, hproven, hsince⟩

/-- "b" has moved the wallet back since, and reached version 20. -/
def movedBack (w : World) : World :=
  let w := w.writeLease "b" (.claim .acquire w.drive.lease) (Replaced.heldByB 9 20 .live)
  { w.setPage "a" fun p => { p with view := .movedAway "https://b.example", wallet := .absent } with
    clock := w.clock + 200000 }

theorem others_movedBack (w : World) : Others "a" (fun _ _ => True) w (movedBack w) := by
  refine .single ⟨?_, ?_, .inr ?_, ⟨[], rfl, fun _ hi => by cases hi⟩, .inr ⟨_, rfl, rfl, rfl, trivial⟩⟩
  all_goals simp [movedBack, World.setPage, World.writeLease, plain]

/-- The ack of the first takeover proves the boot over "b" at version 20. -/
theorem not_acked_since_claim : ¬ ∀ (w w' : World) (call : Call) (h : List RoamEntry) (r : Except Err Unit)
    (new : List Note) (i : HandoffProofInputs), Reached "a" (fun _ => True) (fun _ _ => True) w →
      Solo (session "a" (fun _ => True) fun _ _ => True) (call.code "a") [] w h r w' →
      w'.log = new ++ w.log → .evaluated "a" i ∈ new → evaluateHandoffProof i = .proven .ack →
      ∃ ack, AckedSince "a" w' ack := by
  intro hall
  have heval : ((takenOver fun _ => true).bind fun x =>
      ((Call.boot.code "a").record wait (answer "a" fun _ => true) [] (movedBack x.2.2.2)).map fun y =>
        (x.2.2.2, y)).any (fun y =>
          decide (y.2.2.2.log = y.2.2.2.log.take (y.2.2.2.log.length - y.1.log.length) ++ y.1.log) &&
          ((byAck { y.2.2.2 with log := y.2.2.2.log.take (y.2.2.2.log.length - y.1.log.length) }).length == 1 &&
            (sinceClaim "a" y.2.2.2).isEmpty)) = true := by
    decide +kernel
  obtain ⟨⟨w, h, r, w'⟩, hy, hbad⟩ := (Option.any_eq_true _ _).mp heval
  obtain ⟨⟨w₁, h₁, r₁, w₂⟩, hx, hy⟩ := Option.bind_eq_some_iff.mp hy
  obtain ⟨y, hy, heq⟩ := Option.map_eq_some_iff.mp hy
  cases heq
  obtain ⟨hlog, hbad⟩ := Bool.and_eq_true_iff.mp hbad
  obtain ⟨hsome, hnone⟩ := Bool.and_eq_true_iff.mp hbad
  obtain ⟨hw, run⟩ := of_takenOver (P := fun _ => True) (C := fun _ _ => True) (fun _ _ => trivial)
    (fun _ _ => trivial) hx
  obtain ⟨i, hi⟩ := List.exists_mem_of_length_pos (by rw [beq_iff_eq.mp hsome]; exact Nat.one_pos)
  obtain ⟨hmem, hproven⟩ := of_mem_byAck hi
  obtain ⟨ack, x, hmine, -⟩ := hall (movedBack w₂) w' .boot h r _ i ((hw.call run).others (others_movedBack w₂))
    (solo_of_answered (fun _ _ => trivial) (fun _ _ => trivial) hy) (of_decide_eq_true hlog) hmem hproven
  rw [List.isEmpty_iff.mp hnone] at hmine
  cases hmine

end LibreWallet.Embed.Acks
