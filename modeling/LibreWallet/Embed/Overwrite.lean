import LibreWallet.Embed.Eviction
import LibreWallet.Async.Frames

/-
  Embed/Overwrite.lean --- an evicted origin and the backup of its successor.

  `onEvicted` of the session and `fence` of the PWA upload only where the local state is
  ahead of what they read from the backup.  The others upload what they like, at any
  time, and leave only the node of the page alone; every request may fail, and a backup
  may fail to decrypt.  A create beside a file counts as its replacement: either may be
  the one that a query returns.
-/

set_option autoImplicit false

namespace LibreWallet.Embed.Overwrite

open Async Controller Roaming Eviction

/-! ## The handlers and what they are answered -/

/-- What runs when an origin finds itself evicted. -/
inductive Handler where
  | onEvicted (claimant : Option RoamingLeaseRecord)
  | fence
  deriving DecidableEq, Repr

def Handler.code (token : String) : Handler → Roam Unit
  | onEvicted claimant => Roaming.onEvicted token claimant
  | fence => Eviction.fence token

/-- The upload landed, but its answer did not arrive. -/
def noAnswer : Err := .other "no answer from Drive"

/-- As `exec`, except that a backup may fail to decrypt, and that an upload without an answer is
told from one that failed. -/
def reply (token : String) :
    (q : Request) → Choice → World → Option (Except Err (Answer q) × World)
  | .verifyEnvelope envelope secret, c, w =>
    some (.ok (if c = .ok then verifyBackupEnvelope envelope secret
      else { ok := false, stateVersion := none }), w)
  | .uploadBackup envelope, .lost, w => some (.error noAnswer, w.upload envelope)
  | q, c, w => exec token q c w

/-- The others leave the node of the page alone. -/
def Others (token : String) (w w' : World) : Prop :=
  (w'.pages token).wallet = (w.pages token).wallet

/-- The handler among the others. -/
def evicted (token : String) : Contract World Request Answer Err Choice :=
  among (reply token) (Others token) fun _ _ _ _ => True

/-- A request and its answer. -/
abbrev Reply := Σ q : Request, Except Err (Answer q)

def answers (h : List RoamEntry) : List Reply := h.map fun e => ⟨e.request, e.answer⟩

/-! ## What is asked of them -/

/-- An upload that landed found no backup of its wallet that was as new. -/
def Spares (h : List RoamEntry) : Prop :=
  ∀ e r w₁ b, ⟨.uploadBackup e, r, w₁⟩ ∈ h → r ≠ .error driveError → w₁.drive.backup = some b →
    b.seedHex = e.seedHex → b.stateVersion < e.stateVersion

/-- No backup was decrypted. -/
def Unread (as : List Reply) : Prop := ∀ envelope secret r, ⟨.verifyEnvelope envelope secret, r⟩ ∉ as

/-- The version that the reads of a backup come to, 0 where none was decrypted. -/
inductive Seen (as : List Reply) : Nat → Prop where
  | verified {envelope : Envelope} {secret : String} {v : Verification} :
      ⟨.verifyEnvelope envelope secret, .ok v⟩ ∈ as → Seen as ((if v.ok then v.stateVersion else none).getD 0)
  | unread : Unread as → Seen as 0

/-- The reads say that the local state is ahead of the backup. -/
def Ahead (as : List Reply) : Prop :=
  ∃ info version, ⟨.readLocal, .ok info⟩ ∈ as ∧ Seen as version ∧ version < info.stateVersion

/-- The stop failed, the backup reads as behind, and neither the export nor Drive fails. -/
structure Uploads (as : List Reply) : Prop where
  stopFailed : ∃ e, ⟨.stopNode, .error e⟩ ∈ as
  ahead : Ahead as
  exported : ∃ envelope, ⟨.exportBackup, .ok envelope⟩ ∈ as
  landed : ∀ envelope, ⟨.uploadBackup envelope, .error driveError⟩ ∉ as

/-! ## Requests -/

variable {α : Type} {token : String} {h h₁ k : List RoamEntry} {s w w' w₁ w₂ : World} {q : Request}
  {r₀ : Except Err Unit} {as : List Reply}

@[simp] theorem answers_cons (r : Except Err (Answer q)) :
    answers (⟨q, r, w⟩ :: h) = ⟨q, r⟩ :: answers h := rfl

theorem mem_answers {r : Except Err (Answer q)} (he : ⟨q, r, w⟩ ∈ h) : ⟨q, r⟩ ∈ answers h :=
  List.mem_map.mpr ⟨_, he, rfl⟩

theorem evicted_free (token : String) : (evicted token).Free :=
  among_free _ _ _

theorem evicted_framing (token : String) : Framing (evicted token) fun _ _ => True where
  free := evicted_free token
  refl := fun _ => trivial
  trans := fun _ _ => trivial
  rely := fun _ _ _ => trivial

/-- The requests that only look. -/
def looks : Request → Bool
  | .readLocal | .fetchBackup | .verifyEnvelope _ _ | .exportBackup => true
  | _ => false

theorem reply_looks {c : Choice} {r : Except Err (Answer q)} (hq : looks q = true)
    (he : reply token q c w = some (r, w')) : w' = w := by
  cases q <;> cases hq <;>
    simp only [reply, exec, Option.some.injEq, Prod.mk.injEq] at he <;> exact he.2.symm

/-- A look leaves the node as it was. -/
theorem wp_look {Post : PostCond World Request Answer Err (Answer q)} (hq : looks q = true)
    (hk : ∀ c r w₁ w₂, Others token w w₁ → reply token q c w₁ = some (r, w₁) → Others token w w₂ →
      Post (⟨q, r, w₁⟩ :: h) r w₂ w₂) :
    wp (evicted token) (ask q) h Post s w := by
  refine (evicted_free token).wp_request fun c r w₁ w₂ w₃ h₁ _ he h₃ => ?_
  have hsame := reply_looks hq he
  subst hsame
  exact hk c r w₂ w₃ h₁ he (h₃.trans h₁)

/-! ## What a handler was answered -/

/-- The one upload of a handler, and what it comes after. -/
structure Uploaded (as : List Reply) (envelope : Envelope) (r : Except Err Unit) : Prop where
  stopFailed : ∃ e, ⟨.stopNode, .error e⟩ ∈ as
  ahead : Ahead as
  exported : ⟨.exportBackup, .ok envelope⟩ ∈ as
  mem : ⟨.uploadBackup envelope, r⟩ ∈ as
  only : ∀ envelope' r', ⟨.uploadBackup envelope', r'⟩ ∈ as → r' = r

/-- Nothing was exported. -/
structure Dry (as : List Reply) : Prop where
  export_ : ∀ envelope, ⟨.exportBackup, .ok envelope⟩ ∉ as
  upload : ∀ envelope r, ⟨.uploadBackup envelope, r⟩ ∉ as

def Outcome (as : List Reply) : Prop := Dry as ∨ ∃ envelope r, Uploaded as envelope r

/-- The requests for the lease file. -/
def ofLease : Request → Bool
  | .leaseRead _ | .leaseWrite _ _ => true
  | _ => false

def verifies : Request → Bool
  | .verifyEnvelope _ _ => true
  | _ => false

theorem Unread.cons (hno : Unread as) (hq : verifies q = false) (r : Except Err (Answer q)) :
    Unread (⟨q, r⟩ :: as) := by
  intro envelope secret r' hr
  rcases List.mem_cons.mp hr with heq | hr
  · cases heq
    cases hq
  · exact hno _ _ _ hr

theorem Seen.cons {n : Nat} (hs : Seen as n) (hq : verifies q = false) (r : Except Err (Answer q)) :
    Seen (⟨q, r⟩ :: as) n := by
  cases hs with
  | verified hv => exact .verified (List.mem_cons_of_mem _ hv)
  | unread hno => exact .unread (hno.cons hq r)

theorem Ahead.cons (ha : Ahead as) (hq : verifies q = false) (r : Except Err (Answer q)) :
    Ahead (⟨q, r⟩ :: as) := by
  obtain ⟨info, version, hinfo, hseen, hlt⟩ := ha
  exact ⟨info, version, List.mem_cons_of_mem _ hinfo, hseen.cons hq r, hlt⟩

theorem Outcome.lease (ho : Outcome as) {r : Except Err (Answer q)} (hq : ofLease q = true) :
    Outcome (⟨q, r⟩ :: as) := by
  have hno : verifies q = false := by
    cases q <;> first | rfl | cases hq
  have hexport : ∀ x : Reply, x.1 = .exportBackup → x ∈ ⟨q, r⟩ :: as → x ∈ as := by
    intro x hx hmem
    rcases List.mem_cons.mp hmem with rfl | hmem
    · cases hx
      cases hq
    · exact hmem
  have hupload : ∀ (x : Reply) (envelope : Envelope), x.1 = .uploadBackup envelope →
      x ∈ ⟨q, r⟩ :: as → x ∈ as := by
    intro x envelope hx hmem
    rcases List.mem_cons.mp hmem with rfl | hmem
    · cases hx
      cases hq
    · exact hmem
  rcases ho with hdry | ⟨envelope, r', hup⟩
  · exact .inl ⟨fun envelope he => hdry.export_ _ (hexport _ rfl he),
      fun envelope r he => hdry.upload _ _ (hupload _ _ rfl he)⟩
  · obtain ⟨e, he⟩ := hup.stopFailed
    exact .inr ⟨envelope, r', ⟨e, List.mem_cons_of_mem _ he⟩, hup.ahead.cons hno r,
      List.mem_cons_of_mem _ hup.exported, List.mem_cons_of_mem _ hup.mem,
      fun envelope' r' he => hup.only _ _ (hupload _ _ rfl he)⟩

theorem Outcome.adds (ho : Outcome (answers h))
    (hadds : Adds (fun e => ofLease e.request = true) h h₁) : Outcome (answers h₁) := by
  obtain ⟨new, rfl, hnew⟩ := hadds
  induction new with
  | nil => exact ho
  | cons e new ih =>
    exact Outcome.lease (ih fun x hx => hnew x (List.mem_cons_of_mem _ hx)) (hnew e (List.mem_cons_self ..))

/-- The ack asks for the lease file alone. -/
theorem frames_writeHandoffAck (n : Nat) :
    Frames (evicted token) (fun _ _ => True) (fun e => ofLease e.request = true) (writeHandoffAck token n) := by
  have hF := evicted_framing token
  have hask : ∀ q, ofLease q = true →
      Frames (evicted token) (fun _ _ => True) (fun e => ofLease e.request = true) (ask q) :=
    fun q hq => hF.request fun _ _ _ _ _ _ _ => ⟨trivial, hq⟩
  refine hF.rescue (hF.bind (hask _ rfl) fun record => ?_) fun _ => hF.done _
  cases record with
  | none => exact hF.done _
  | some base => exact hF.bind hF.get fun _ => hask _ rfl

theorem wp_writeHandoffAck {n : Nat} {Post : PostCond World Request Answer Err Unit}
    (ho : Outcome (answers h)) (hk : ∀ h' r s' w', Outcome (answers h') → Post h' r s' w') :
    wp (evicted token) (writeHandoffAck token n) h Post s w :=
  frames_writeHandoffAck n h s w Post fun h' r s' w' _ hadds => hk h' r s' w' (ho.adds hadds)

/-! ## The handlers -/

/-- Until a handler exports: it has been told of the stop, and a node that stopped stays stopped. -/
structure Before (token : String) (r₀ : Except Err Unit) (as : List Reply) (w : World) : Prop where
  stop : ⟨.stopNode, r₀⟩ ∈ as
  stopped : r₀ = .ok () → ¬ w.Runs token
  dry : Dry as

theorem not_runs (ho : Others token w w₁) (hw : ¬ w.Runs token) : ¬ w₁.Runs token := by
  intro hr
  exact hw (ho.symm.trans hr)

theorem Dry.cons (hd : Dry as) {r : Except Err (Answer q)}
    (hexport : ∀ envelope, (⟨q, r⟩ : Reply) ≠ ⟨.exportBackup, .ok envelope⟩)
    (hupload : ∀ envelope, q ≠ .uploadBackup envelope) : Dry (⟨q, r⟩ :: as) := by
  refine ⟨fun envelope he => ?_, fun envelope r' he => ?_⟩
  · rcases List.mem_cons.mp he with heq | he
    · exact hexport envelope heq.symm
    · exact hd.export_ envelope he
  · rcases List.mem_cons.mp he with heq | he
    · cases heq
      exact hupload envelope rfl
    · exact hd.upload envelope r' he

/-- The reads of a handler: of the local state, and of the backup. -/
def reads : Request → Bool
  | .readLocal | .fetchBackup | .verifyEnvelope _ _ => true
  | _ => false

theorem Before.read (hb : Before token r₀ as w) (ho : Others token w w₁) (hq : reads q = true)
    (r : Except Err (Answer q)) : Before token r₀ (⟨q, r⟩ :: as) w₁ where
  stop := List.mem_cons_of_mem _ hb.stop
  stopped := fun hr => not_runs ho (hb.stopped hr)
  dry := by
    refine hb.dry.cons (fun _ he => ?_) fun _ he => ?_
    · cases he
      cases hq
    · cases he
      cases hq

/-- Only a node that runs exports. -/
theorem runs_of_exported {c : Choice} {envelope : Envelope}
    (he : reply token .exportBackup c w = some (.ok envelope, w)) : w.Runs token := by
  by_contra hno
  have hstopped : (w.node token).wallet ≠ .running := hno
  simp only [reply, exec, exportBackup_of_not_running hstopped, Option.some.injEq, Prod.mk.injEq, and_true] at he
  split at he <;> cases he

/-- Once it has exported: the stop had failed, and nothing was uploaded yet. -/
structure Exported (as : List Reply) (envelope : Envelope) : Prop where
  stopFailed : ∃ e, ⟨.stopNode, .error e⟩ ∈ as
  ahead : Ahead as
  mem : ⟨.exportBackup, .ok envelope⟩ ∈ as
  upload : ∀ envelope r, ⟨.uploadBackup envelope, r⟩ ∉ as

theorem wp_exportBackup {Post : PostCond World Request Answer Err Envelope}
    (hb : Before token r₀ (answers h) w) (ha : Ahead (answers h))
    (herr : ∀ h' e s' w', Dry (answers h') → Post h' (.error e) s' w')
    (hk : ∀ h' envelope s' w', Exported (answers h') envelope → Post h' (.ok envelope) s' w') :
    wp (evicted token) (ask .exportBackup) h Post s w := by
  refine wp_look rfl fun c r w₁ w₂ ho he _ => ?_
  cases r with
  | error e =>
    refine herr _ _ _ _ (hb.dry.cons (fun _ heq => ?_) fun _ heq => ?_)
    · cases heq
    · cases heq
  | ok envelope =>
    cases r₀ with
    | ok u => exact absurd (runs_of_exported he) (not_runs ho (hb.stopped rfl))
    | error e =>
      refine hk _ _ _ _ ⟨⟨e, List.mem_cons_of_mem _ hb.stop⟩, ha.cons rfl _, List.mem_cons_self ..,
        fun envelope' r' hr => ?_⟩
      rcases List.mem_cons.mp hr with heq | hr
      · cases heq
      · exact hb.dry.upload _ _ hr

theorem Exported.upload_cons {envelope : Envelope} (hx : Exported as envelope) (r : Except Err Unit) :
    Uploaded (⟨.uploadBackup envelope, r⟩ :: as) envelope r := by
  obtain ⟨e, he⟩ := hx.stopFailed
  refine ⟨⟨e, List.mem_cons_of_mem _ he⟩, hx.ahead.cons rfl _, List.mem_cons_of_mem _ hx.mem,
    List.mem_cons_self .., fun envelope' r' hr => ?_⟩
  rcases List.mem_cons.mp hr with heq | hr
  · cases heq
    rfl
  · exact absurd hr (hx.upload _ _)

theorem wp_uploadBackup {envelope : Envelope} {Post : PostCond World Request Answer Err Unit}
    (hx : Exported (answers h) envelope) (hk : ∀ h' r s' w', Outcome (answers h') → Post h' r s' w') :
    wp (evicted token) (ask (.uploadBackup envelope)) h Post s w :=
  (evicted_free token).wp_request fun _ r _ _ _ _ _ _ _ => hk _ _ _ _ (.inr ⟨envelope, r, hx.upload_cons r⟩)

/-- A read leaves the handler before its export. -/
theorem wp_read {Post : PostCond World Request Answer Err (Answer q)} (hb : Before token r₀ (answers h) w)
    (hq : reads q = true)
    (hk : ∀ r w₁ w₂, Before token r₀ (⟨q, r⟩ :: answers h) w₂ → Post (⟨q, r, w₁⟩ :: h) r w₂ w₂) :
    wp (evicted token) (ask q) h Post s w := by
  refine wp_look ?_ fun c r w₁ w₂ _ _ ho => hk r w₁ w₂ (hb.read ho hq r)
  cases q <;> first | rfl | cases hq

/-- The backup's version, as far as it can be read. -/
theorem wp_readBackupVersion {backup : Option Envelope} {secret : Option String}
    {Post : PostCond World Request Answer Err (Option Nat)} (hb : Before token r₀ (answers h) w)
    (hno : Unread (answers h))
    (hk : ∀ h' version s' w', answers h ⊆ answers h' → Before token r₀ (answers h') w' →
      Seen (answers h') (version.getD 0) → Post h' (.ok version) s' w') :
    wp (evicted token) (readBackupVersion backup secret) h Post s w := by
  cases backup with
  | none => exact hk _ _ _ _ (fun _ hx => hx) hb (.unread hno)
  | some envelope =>
    cases secret with
    | none => exact hk _ _ _ _ (fun _ hx => hx) hb (.unread hno)
    | some secret =>
      simp only [readBackupVersion, Proc.bind_eq, Proc.pure_eq, wp_bind]
      refine wp_look rfl fun c r w₁ w₂ _ he ho => ?_
      simp only [reply, Option.some.injEq, Prod.mk.injEq, and_true] at he
      subst he
      exact hk _ _ _ _ (fun _ hx => List.mem_cons_of_mem _ hx) (hb.read ho rfl _)
        (.verified (List.mem_cons_self ..))

theorem wp_flushAndAck {Post : PostCond World Request Answer Err Unit} (hb : Before token r₀ (answers h) w)
    (hno : Unread (answers h)) (hk : ∀ h' r s' w', Outcome (answers h') → Post h' r s' w') :
    wp (evicted token) (flushAndAck token) h Post s w := by
  simp only [flushAndAck, flushTracked, updatePage, Proc.bind_eq, wp_bind]
  refine wp_read hb rfl fun r w₁ w₂ hb₂ => ?_
  cases r with
  | error e => exact hk _ _ _ _ (.inl hb₂.dry)
  | ok info =>
    refine wp_read hb₂ rfl fun r w₃ w₄ hb₄ => ?_
    cases r with
    | error e => exact hk _ _ _ _ (.inl hb₄.dry)
    | ok backup =>
      refine wp_readBackupVersion hb₄ ((hno.cons rfl _).cons rfl _)
        fun h₅ version s₅ w₅ hsub hb₅ hseen => ?_
      dsimp only
      split
      · -- local is ahead
        rename_i hlt
        have hahead : Ahead (answers h₅) := ⟨info, _, hsub (by simp), hseen, hlt⟩
        simp only [wp_bind]
        refine wp_read hb₅ rfl fun r w₆ w₇ hb₇ => ?_
        cases r with
        | error e => exact hk _ _ _ _ (.inl hb₇.dry)
        | ok info' =>
          refine wp_exportBackup hb₇ (hahead.cons rfl _) (fun h' e s' w' hdry => hk _ _ _ _ (.inl hdry))
            fun h₈ envelope s₈ w₈ hx => wp_uploadBackup hx fun h₉ r s₉ w₉ hout => ?_
          cases r with
          | error e => exact hk _ _ _ _ hout
          | ok u => exact wp_writeHandoffAck hout hk
      · exact wp_writeHandoffAck (.inl hb₅.dry) hk

theorem wp_localStateVersion {Post : PostCond World Request Answer Err Nat}
    (hb : Before token r₀ (answers h) w) (hno : Unread (answers h))
    (hk : ∀ h' version s' w', Before token r₀ (answers h') w' → Unread (answers h') →
      (0 < version → ∃ info, ⟨.readLocal, .ok info⟩ ∈ answers h' ∧ info.stateVersion = version) →
      Post h' (.ok version) s' w') :
    wp (evicted token) localStateVersion h Post s w := by
  simp only [localStateVersion, Proc.bind_eq, Proc.pure_eq, wp_bind, wp_attempt]
  refine wp_read hb rfl fun r w₁ w₂ hb₂ => ?_
  cases r with
  | error e => exact hk _ _ _ _ hb₂ (hno.cons rfl _) fun h => by cases h
  | ok info => exact hk _ _ _ _ hb₂ (hno.cons rfl _) fun _ => ⟨info, by simp, rfl⟩

/-- Whatever fails, the PWA goes on with 0. -/
theorem wp_driveBackupVersion {Post : PostCond World Request Answer Err Nat}
    (hb : Before token r₀ (answers h) w) (hno : Unread (answers h))
    (hk : ∀ h' version s' w', answers h ⊆ answers h' → Before token r₀ (answers h') w' →
      Seen (answers h') version → Post h' (.ok version) s' w') :
    wp (evicted token) driveBackupVersion h Post s w := by
  simp only [driveBackupVersion, Proc.bind_eq, Proc.pure_eq, wp_bind, wp_attempt]
  refine wp_read hb rfl fun r w₁ w₂ hb₂ => ?_
  have hno₂ : Unread (⟨.readLocal, r⟩ :: answers h) := hno.cons rfl _
  have hsub₂ : answers h ⊆ ⟨.readLocal, r⟩ :: answers h := fun _ hx => List.mem_cons_of_mem _ hx
  cases r with
  | error e => exact hk _ _ _ _ hsub₂ hb₂ (.unread hno₂)
  | ok info =>
    dsimp only
    cases info.seedHex with
    | none => exact hk _ _ _ _ hsub₂ hb₂ (.unread hno₂)
    | some seed =>
      refine wp_read hb₂ rfl fun r w₃ w₄ hb₄ => ?_
      have hno₄ : Unread (⟨.fetchBackup, r⟩ :: ⟨.readLocal, .ok info⟩ :: answers h) := hno₂.cons rfl _
      have hsub₄ : answers h ⊆ ⟨.fetchBackup, r⟩ :: ⟨.readLocal, .ok info⟩ :: answers h :=
        fun _ hx => List.mem_cons_of_mem _ (hsub₂ hx)
      cases r with
      | error e => exact hk _ _ _ _ hsub₄ hb₄ (.unread hno₄)
      | ok backup =>
        refine wp_readBackupVersion hb₄ hno₄ fun h₅ version s₅ w₅ hsub hb₅ hseen => ?_
        exact hk _ _ _ _ (fun _ hx => hsub (hsub₄ hx)) hb₅ hseen

theorem wp_flushAndAckPwa {Post : PostCond World Request Answer Err Unit}
    (hb : Before token r₀ (answers h) w) (hno : Unread (answers h))
    (hk : ∀ h' r s' w', Outcome (answers h') → Post h' r s' w') :
    wp (evicted token) (flushAndAckPwa token) h Post s w := by
  simp only [flushAndAckPwa, Proc.bind_eq, wp_bind]
  refine wp_localStateVersion hb hno fun h₁ version s₁ w₁ hb₁ hno₁ hlocal =>
    wp_driveBackupVersion hb₁ hno₁ fun h₂ backupVersion s₂ w₂ hsub hb₂ hseen => ?_
  dsimp only
  split
  · -- local is ahead
    rename_i hlt
    obtain ⟨info, hinfo, rfl⟩ := hlocal (Nat.zero_lt_of_lt hlt)
    have hahead : Ahead (answers h₂) := ⟨info, _, hsub hinfo, hseen, hlt⟩
    simp only [wp_bind]
    refine wp_exportBackup hb₂ hahead (fun h' e s' w' hdry => hk _ _ _ _ (.inl hdry))
      fun h₃ envelope s₃ w₃ hx => wp_uploadBackup hx fun h₄ r s₄ w₄ hout => ?_
    cases r with
    | error e => exact hk _ _ _ _ hout
    | ok u => exact wp_writeHandoffAck hout hk
  · exact wp_writeHandoffAck (.inl hb₂.dry) hk

theorem wp_stopNode {Post : PostCond World Request Answer Err Unit}
    (hk : ∀ r w₁ w₂, Before token r [⟨.stopNode, r⟩] w₂ → Post [⟨.stopNode, r, w₁⟩] r w₂ w₂) :
    wp (evicted token) (ask .stopNode) [] Post s w := by
  refine (evicted_free token).wp_request fun c r w₁ w₂ w₃ _ _ he h₃ => hk r w₁ w₃ ?_
  refine ⟨List.mem_singleton_self _, fun hr => ?_, ⟨fun _ h => ?_, fun _ _ h => ?_⟩⟩
  · subst hr
    have habsent : (w₂.pages token).wallet = .absent := stopped_wallet he
    refine not_runs h₃ fun hrun => ?_
    rw [World.Runs, habsent] at hrun
    cases hrun
  · cases List.mem_singleton.mp h
  · cases List.mem_singleton.mp h

theorem unread_stop (r : Except Err Unit) : Unread [⟨.stopNode, r⟩] := by
  intro envelope secret r' hr
  cases List.mem_singleton.mp hr

theorem wp_handler (a : Handler) :
    wp (evicted token) (a.code token) [] (fun h' _ _ _ => Outcome (answers h')) s w := by
  cases a with
  | onEvicted claimant =>
    simp only [Handler.code, onEvicted, setView, updatePage, Proc.bind_eq, Proc.pure_eq, wp_bind, wp_get]
    split
    · exact .inl ⟨fun _ h => (by cases h), fun _ _ h => by cases h⟩
    · simp only [wp_bind, wp_attempt]
      refine wp_stopNode fun r w₁ w₂ hb => ?_
      exact wp_flushAndAck hb (unread_stop r) fun _ _ _ _ ho => ho
  | fence =>
    simp only [Handler.code, fence, Proc.bind_eq, Proc.pure_eq, wp_bind, wp_attempt]
    refine wp_stopNode fun r w₁ w₂ hb => ?_
    exact wp_flushAndAckPwa hb (unread_stop r) fun _ _ _ _ ho => ho

/-! ## Another upload just before -/

/-- A handler goes on from its answers alone. -/
theorem solo_of_answers {p : Roam α} {r : Except Err α} (run : Solo (evicted token) p h w h₁ r w')
    (hk : answers k = answers h) : ∃ k₁, Solo (evicted token) p k w k₁ r w' ∧ answers k₁ = answers h₁ ∧ k ⊆ k₁ := by
  induction run generalizing k with
  | done => exact ⟨k, .done, hk, fun _ hx => hx⟩
  | fail => exact ⟨k, .fail, hk, fun _ hx => hx⟩
  | sync _ ih =>
    obtain ⟨k₁, hrun, hans, hsub⟩ := ih hk
    exact ⟨k₁, .sync hrun, hans, hsub⟩
  | @await q _ h₀ _ _ v _ _ _ _ a _ h₁ ha he h₃ _ ih =>
    obtain ⟨k₁, hrun, hans, hsub⟩ := ih (k := ⟨q, a, v⟩ :: k) (by simp [hk])
    exact ⟨k₁, .await h₁ trivial he h₃ hrun, hans, fun x hx => hsub (List.mem_cons_of_mem _ hx)⟩

/-- A backup of anyone's may come before the upload, and the handler is answered the same. -/
theorem reply_upload {envelope : Envelope} {c : Choice} {r : Except Err Unit} (backup : Envelope)
    (he : reply token (.uploadBackup envelope) c w = some (r, w₁)) :
    w₁.pages = w.pages ∧ ∃ w₂, reply token (.uploadBackup envelope) c (w.upload backup) = some (r, w₂) ∧
      w₂.pages = w.pages := by
  cases c <;>
    simp only [reply, exec, if_true, if_false, reduceCtorEq, Option.some.injEq, Prod.mk.injEq] at he ⊢ <;>
    obtain ⟨rfl, rfl⟩ := he <;> exact ⟨rfl, _, ⟨rfl, rfl⟩, rfl⟩

theorem exists_upload_over {p : Roam α} {r : Except Err α} {envelope : Envelope} {a : Except Err Unit}
    (run : Solo (evicted token) p h w h₁ r w') (hnew : ⟨.uploadBackup envelope, a⟩ ∈ answers h₁)
    (hold : ⟨.uploadBackup envelope, a⟩ ∉ answers h) (backup : Envelope) :
    ∃ k v, Solo (evicted token) p h w k r w' ∧ answers k = answers h₁ ∧
      ⟨.uploadBackup envelope, a, v⟩ ∈ k ∧ v.drive.backup = some backup := by
  induction run with
  | done => exact absurd hnew hold
  | fail => exact absurd hnew hold
  | sync _ ih =>
    obtain ⟨k, v, hrun, hk⟩ := ih hnew hold
    exact ⟨k, v, .sync hrun, hk⟩
  | @await q next h₀ h₂ w₀ w₁ w₂ w₃ w₄ c a₀ r₀ hr₁ ha he hr₃ run ih =>
    by_cases hthis : (⟨q, a₀⟩ : Reply) = ⟨.uploadBackup envelope, a⟩
    · cases hthis
      obtain ⟨hpages, w₅, he', hpages'⟩ := reply_upload backup he
      obtain ⟨k, hrun, hans, hsub⟩ := solo_of_answers (k := ⟨.uploadBackup envelope, a, w₁.upload backup⟩ :: h₀) run rfl
      refine ⟨k, w₁.upload backup, .await ?_ trivial he' ?_ hrun, hans, hsub (List.mem_cons_self ..), rfl⟩
      · exact hr₁
      · have hsame : (w₃.pages token).wallet = (w₂.pages token).wallet := hr₃
        rw [hpages, ← hpages'] at hsame
        exact hsame
    · obtain ⟨k, v, hrun, hk⟩ := ih hnew fun hmem => by
        rcases List.mem_cons.mp hmem with heq | hmem
        · exact hthis heq.symm
        · exact hold hmem
      exact ⟨k, v, .await hr₁ ha he hr₃ hrun, hk⟩

/-! ## Whatever the new owner uploads -/

theorem outcome (a : Handler) {r : Except Err Unit} (run : Solo (evicted token) (a.code token) [] w h r w') :
    Outcome (answers h) := by
  obtain ⟨-, ho⟩ := run.sound (fun _ _ _ _ => trivial) (wp_handler (s := w) a)
  exact ho

/-- With these answers an evicted origin never overwrites a backup of its wallet that is as new as
its own, whatever the others upload, exactly when it does not both fail to stop and read the
backup as behind (or when its export or Drive fails). -/
theorem spares_iff_not_uploads (token : String) (a : Handler) (w w' : World) (h : List RoamEntry)
    (r : Except Err Unit) (run : Solo (evicted token) (a.code token) [] w h r w') :
    (∀ (h₁ : List RoamEntry) (r₁ : Except Err Unit) (w₁ : World),
      Solo (evicted token) (a.code token) [] w h₁ r₁ w₁ → answers h₁ = answers h → Spares h₁) ↔
      ¬ Uploads (answers h) := by
  constructor
  · intro hall hup
    rcases outcome a run with hdry | ⟨envelope, r₁, hone⟩
    · obtain ⟨envelope, he⟩ := hup.exported
      exact hdry.export_ _ he
    · obtain ⟨k, v, hrun, hans, hmem, hv⟩ := exists_upload_over run hone.mem (by simp [answers]) envelope
      have hlanded : r₁ ≠ .error driveError := by
        rintro rfl
        exact hup.landed _ hone.mem
      have hlt := hall k r w' hrun hans envelope r₁ v envelope hmem hlanded hv rfl
      exact Nat.lt_irrefl _ hlt
  · intro hno h₁ r₁ w₁ hrun hans envelope a₁ v b hmem hlanded _ _
    refine absurd ?_ hno
    rw [← hans]
    rcases outcome a hrun with hdry | ⟨envelope', r', hone⟩
    · exact absurd (mem_answers hmem) (hdry.upload _ _)
    · refine ⟨hone.stopFailed, hone.ahead, ⟨_, hone.exported⟩, fun e he => hlanded ?_⟩
      rw [hone.only _ _ he]
      exact hone.only _ _ (mem_answers hmem)

/-! ## Runs -/

/-- The stop fails, and the reads of Drive as told. -/
def answer (fetched : Choice) (q : Request) (w : World) : Option (Except Err (Answer q) × World) :=
  match q with
  | .stopNode => reply "a" .stopNode .fail w
  | .fetchBackup => reply "a" .fetchBackup fetched w
  | q => reply "a" q .ok w

theorem solo_of_answered {fetched : Choice} {p : Roam Unit} {r : Except Err Unit}
    (hp : p.record (fun _ w => w) (answer fetched) [] w = some (h, r, w')) : Solo (evicted "a") p [] w h r w' := by
  refine Proc.solo_of_record (fun _ => rfl) (fun _ _ => rfl) (fun _ q w r w' he => ?_) hp
  cases q with
  | stopNode => exact ⟨.fail, trivial, he⟩
  | fetchBackup => exact ⟨fetched, trivial, he⟩
  | _ => exact ⟨.ok, trivial, he⟩

/-- Of an own state at version 5 nothing is uploaded over the backup of version 9. -/
theorem spares_iff_not_uploads_read : ∃ h r w',
    Solo (evicted "a") (Handler.fence.code "a") [] (evictedOver 9) h r w' ∧
      ((∀ (h₁ : List RoamEntry) (r₁ : Except Err Unit) (w₁ : World),
        Solo (evicted "a") (Handler.fence.code "a") [] (evictedOver 9) h₁ r₁ w₁ → answers h₁ = answers h →
          Spares h₁) ↔ ¬ Uploads (answers h)) := by
  have heval : (((Handler.fence.code "a").record (fun _ w => w) (answer .ok) [] (evictedOver 9)).any
      fun x => decide (x.2.2.drive.uploads = [])) = true := by decide +kernel
  obtain ⟨⟨h, r, w'⟩, hx, -⟩ := (Option.any_eq_true _ _).mp heval
  have run := solo_of_answered hx
  exact ⟨h, r, w', run, spares_iff_not_uploads "a" .fence (evictedOver 9) w' h r run⟩

/-- The handler overwrote a backup of its wallet that was as new. -/
def overwrote : RoamEntry → Bool
  | ⟨.uploadBackup e, .ok _, w₁⟩ =>
    w₁.drive.backup.any fun b => decide (b.seedHex = e.seedHex) && decide (e.stateVersion ≤ b.stateVersion)
  | _ => false

theorem not_spares_of_overwrote {e : RoamEntry} (he : e ∈ h) (ho : overwrote e = true) : ¬ Spares h := by
  intro hs
  obtain ⟨q, a, w₁⟩ := e
  cases q with
  | uploadBackup envelope =>
    cases a with
    | error e => cases ho
    | ok u =>
      obtain ⟨b, hb, hand⟩ := (Option.any_eq_true _ _).mp ho
      obtain ⟨hseed, hle⟩ := Bool.and_eq_true_iff.mp hand
      have hlt := hs envelope (.ok u) w₁ b he (fun h => by cases h) hb (of_decide_eq_true hseed)
      exact Nat.not_lt_of_le (of_decide_eq_true hle) hlt
  | _ => cases ho

/-- The stop fails and the backup cannot be fetched: version 5 is uploaded over version 9. -/
theorem not_spares_unread : ¬ ∀ (a : Handler) (w w' : World) (h : List RoamEntry) (r : Except Err Unit),
    Solo (evicted "a") (a.code "a") [] w h r w' → Spares h := by
  intro hall
  have heval : (((Handler.fence.code "a").record (fun _ w => w) (answer .fail) [] (evictedOver 9)).any
      fun x => x.1.any overwrote) = true := by decide +kernel
  obtain ⟨⟨h, r, w'⟩, hx, hover⟩ := (Option.any_eq_true _ _).mp heval
  obtain ⟨e, he, ho⟩ := List.any_eq_true.mp hover
  exact not_spares_of_overwrote he ho (hall .fence (evictedOver 9) w' h r (solo_of_answered hx))

end LibreWallet.Embed.Overwrite
