import LibreWallet.Async.Keeps
import LibreWallet.Embed.OverrideCrash

/-
  Embed/OwnClaim.lean --- what an origin finds of a claim of its own that started nothing.

  The record that was absent or released when an origin claimed is a live one afterwards, with no ack
  and at the version of the origin's own wallet.  As long as nothing is started, an origin with a
  wallet goes on having a proof against it, and an origin without one has none.
-/

set_option autoImplicit false

namespace LibreWallet.Embed.OwnClaim

open Async Controller Roaming

/-! ## Runs that start nothing -/

/-- The controller refuses the verb and leaves the wallet as it was. -/
def refused (w : World) (t : String) (q : Request) (ch : Choice) : Bool :=
  match exec t q ch w with
  | some (.error _, w') => (w'.store t).db = (w.store t).db
  | _ => false

/-- Only pages of `o` are opened, each with a token drawn anew, and nothing is started or restored. -/
def unstarted (o : String) (l : EmbedLabel) (c : EmbedConfig) : Bool :=
  match l with
  | .event (.openPage t origin _) =>
    origin = o && !(c.world.drive.firstLease.bind (·.handoffAck)).any (·.from_ = t)
  | .call i ch =>
    match c.awaits i with
    | some (j, q) => !startsNode q || refused c.world j.token q ch
    | none => true
  | _ => true

/-! ## The records -/

/-- The ack `a` of the first record was not for the owner token. -/
def Drawn (a : Option HandoffAck) (t : String) : Prop := ∀ x, a = some x → x.from_ ≠ t

/-- A record that is released, or a claim at `v` or below; no ack is on it but the first record's. -/
structure Own (v : Nat) (a : Option HandoffAck) (r : RoamingLeaseRecord) : Prop where
  ack : ∀ x, r.handoffAck = some x → a = some x
  live : r.phase = .live → advertisedVersionOf r ≤ v ∧ Drawn a r.owner

section Records

variable {v : Nat} {a : Option HandoffAck} {r : RoamingLeaseRecord}

/-- What is carried from a record of one's own is at `v` or below. -/
theorem carried_le {previous : Option RoamingLeaseRecord} (h : ∀ r, previous = some r → Own v a r)
    (t : String) (now : Nat) :
    ((carryPredecessor previous t now).map (·.advertisedVersion)).getD 0 ≤ v := by
  cases previous with
  | none => exact Nat.zero_le v
  | some p =>
    cases hp : p.phase with
    | released => simp [carryPredecessor, hp]
    | live =>
      have hle := ((h p rfl).live hp).1
      by_cases ho : p.owner = t
      · simp only [carryPredecessor, hp, ho, if_true, reduceCtorEq, if_false]
        exact Nat.le_trans (Nat.le_max_right _ _) hle
      · simpa [carryPredecessor, hp, ho] using hle

/-- A claim over a record of one's own. -/
theorem Own.build {opts : BuildOpts} (h : ∀ r, opts.previous = some r → Own v a r)
    (hv : opts.heartbeatStateVersion ≤ v) (ht : Drawn a opts.ownerToken) :
    Own v a (buildLeaseRecord opts) where
  ack := fun x hx => by cases hx
  live := fun _ => by
    refine ⟨Nat.max_le.mpr ⟨hv, ?_⟩, ht⟩
    cases hc : opts.clearPredecessor with
    | true => simp [buildLeaseRecord, hc]
    | false =>
      simp only [buildLeaseRecord, hc, Bool.false_eq_true, if_false]
      exact carried_le h opts.ownerToken opts.now

/-- A release of a record of one's own, also one that is not clean. -/
theorem Own.releasedRecord (h : Own v a r) {clean : Bool} {n : Nat} (now : Nat)
    (hlive : clean = false → r.phase = .live ∧ n ≤ v) :
    Own v a (releasedRecord r clean n now) where
  ack := h.ack
  live := fun hp => by
    cases clean with
    | true => cases hp
    | false =>
      obtain ⟨hphase, hn⟩ := hlive rfl
      obtain ⟨hle, ht⟩ := h.live hphase
      exact ⟨Nat.max_le.mpr ⟨hn, Nat.le_trans (Nat.le_max_right _ _) hle⟩, ht⟩

end Records

/-! ## What stays -/

/-- A proof that was asked for about a record of one's own, with the wallet `db`. -/
structure Asked (db : LocalDb) (a : Option HandoffAck) (i : HandoffProofInputs) : Prop where
  lease : ∀ r, i.lease = some r → Own db.stateVersion a r
  postClaim : ∀ r, i.postClaimLease = some r → Own db.stateVersion a r
  seed : i.localSeedPresent = db.seed.isSome
  version : i.localSeedPresent = true → i.localStateVersion = db.stateVersion

/-- A page that has started nothing. -/
structure Idle (db : LocalDb) (a : Option HandoffAck) (p : Page) : Prop where
  preClaim : ∀ r, p.preClaimRecord = some r → Own db.stateVersion a r
  postClaim : ∀ r, p.postClaimRecord = some r → Own db.stateVersion a r
  lastWritten : ∀ r, p.lastWritten = some r → Own db.stateVersion a r ∧ r.phase = .live
  localVersion : p.localVersion ≤ db.stateVersion
  wallet : p.wallet ≠ .running
  view : p.view ≠ .running
  heartbeat : p.heartbeatTimer = none
  sync : p.syncTimer = none
  needSecret : p.view = .needSecret → db.seed = none
  pending : p.pendingRestoreEnvelope.isSome = true → db.seed = none

theorem Idle.fresh {db : LocalDb} {a : Option HandoffAck} (origin : String) (appName : Option String)
    (status : PageStatus) : Idle db a { origin, appName, status } where
  preClaim := fun r hr => by cases hr
  postClaim := fun r hr => by cases hr
  lastWritten := fun r hr => by cases hr
  localVersion := Nat.zero_le _
  wallet := by simp
  view := by simp
  heartbeat := rfl
  sync := rfl
  needSecret := fun hv => by cases hv
  pending := fun hp => by cases hp

/-- The origin `o` has kept its wallet `db`, and nothing but its pages has written the lease. -/
structure Unstarted (o : String) (db : LocalDb) (a : Option HandoffAck) (w : World) : Prop where
  wallet : (w.origins o).db = db
  first : w.drive.firstLease.bind (·.handoffAck) = a
  lease : ∀ r, w.drive.lease = some r → Own db.stateVersion a r
  opened : ∀ t, Opened w t → (w.pages t).origin = o ∧ Drawn a t
  pages : ∀ t, Idle db a (w.pages t)
  asked : ∀ t i, Note.evaluated t i ∈ w.log → Asked db a i

/-- Where the wallet is the one of `db`, the verdict on a claim of one's own is that it has a seed. -/
theorem Asked.isProven_iff {db : LocalDb} {a : Option HandoffAck} {i : HandoffProofInputs}
    (h : Asked db a i) : (evaluateHandoffProof i).isProven = true ↔
      i.override = true ∨ (∀ r, i.lease = some r → r.phase = .released) ∨ db.seed.isSome = true := by
  cases ho : i.override with
  | true => simp [evaluateHandoffProof, ho, HandoffProof.isProven]
  | false =>
    cases hl : i.lease with
    | none => simp [evaluateHandoffProof, ho, hl, HandoffProof.isProven]
    | some r =>
      cases hp : r.phase with
      | released => simp [evaluateHandoffProof, ho, hl, hp, HandoffProof.isProven]
      | live =>
        obtain ⟨hle, ht⟩ := (h.lease r hl).live hp
        have hack : ackProves i r = false := by
          rw [ackProves]
          split
          · rfl
          · rename_i x hx
            obtain ⟨r', hr', hx⟩ := Option.bind_eq_some_iff.mp hx
            have hne := ht x ((h.postClaim r' hr').ack x hx)
            simp [hne]
        cases hs : i.localSeedPresent with
        | true =>
          rw [← h.version hs] at hle
          simp [evaluateHandoffProof, ho, hl, hp, hack, hs, hle, HandoffProof.isProven, ← h.seed]
        | false =>
          simp [evaluateHandoffProof, ho, hl, hp, hack, hs, HandoffProof.isProven, ← h.seed]

namespace Unstarted

variable {o t : String} {db : LocalDb} {a : Option HandoffAck} {w w' : World}

theorem note (h : Unstarted o db a w) {n : Note} (hn : ∀ t i, n = .evaluated t i → Asked db a i) :
    Unstarted o db a (w.note n) :=
  { h with
    asked := fun t i hi => by
      rcases List.mem_cons.mp hi with heq | hi
      · exact hn t i heq.symm
      · exact h.asked t i hi }

/-- An update of a page. -/
theorem setPage (h : Unstarted o db a w) {f : Page → Page} (hf : Idle db a (f (w.pages t)))
    (ho : (f (w.pages t)).status ≠ .unopened → (f (w.pages t)).origin = o ∧ Drawn a t) :
    Unstarted o db a (w.setPage t f) :=
  { h with
    opened := fun u hu => by
      by_cases hut : u = t
      · subst hut
        rw [Opened, World.setPage_self] at hu
        rw [World.setPage_self]
        exact ho hu
      · rw [Opened, World.setPage_of_ne _ _ _ hut] at hu
        rw [World.setPage_of_ne _ _ _ hut]
        exact h.opened u hu
    pages := fun u => by
      by_cases hut : u = t
      · subst hut
        rw [World.setPage_self]
        exact hf
      · rw [World.setPage_of_ne _ _ _ hut]
        exact h.pages u }

theorem store (h : Unstarted o db a w) (ht : Opened w t) : (w.store t).db = db := by
  rw [World.store, (h.opened t ht).1]
  exact h.wallet

/-- What a verb of the controller leaves, where it leaves the wallet. -/
theorem setNode (h : Unstarted o db a w) (ht : Opened w t) {n : Node} (hdb : n.store.db = db)
    (hn : n.wallet = .running → (w.pages t).wallet = .running) : Unstarted o db a (w.setNode t n) where
  wallet := by
    rw [OverrideCrash.setNode_db (hdb.trans (h.store ht).symm)]
    exact h.wallet
  first := h.first
  lease := h.lease
  opened := fun u hu => by
    by_cases hut : u = t
    · subst hut
      rw [World.setNode_self]
      exact h.opened u ht
    · rw [Opened, World.setNode_of_ne _ _ _ hut] at hu
      rw [World.setNode_of_ne _ _ _ hut]
      exact h.opened u hu
  pages := fun u => by
    by_cases hut : u = t
    · subst hut
      rw [World.setNode_self]
      exact { h.pages u with wallet := fun hr => (h.pages u).wallet (hn hr) }
    · rw [World.setNode_of_ne _ _ _ hut]
      exact h.pages u
  asked := h.asked

end Unstarted

/-! ## Requests -/

/-- A page writes records of its own, and is answered from what stays. -/
def terms (db : LocalDb) (a : Option HandoffAck) : Async.Terms Request Answer Err where
  asks
    | .leaseWrite _ r => Own db.stateVersion a r
    | _ => True
  answers
    | .leaseRead _, .ok record => ∀ r, record = some r → Own db.stateVersion a r
    | .readLocal, .ok info => info = localInfo db
    | .startNode, .ok _ => False
    | .restore _ _, .ok _ => False
    | _, _ => True

variable {o t : String} {db : LocalDb} {a : Option HandoffAck} {w w' : World}

/-- A verb that is refused has thrown, and left the wallet. -/
theorem of_refused {q : Request} {ch : Choice} {r : Except Err (Answer q)}
    (h : refused w t q ch = true) (he : exec t q ch w = some (r, w')) :
    (∃ e, r = .error e) ∧ (w'.store t).db = (w.store t).db := by
  rw [refused, he] at h
  cases r with
  | ok x => cases h
  | error e => exact ⟨⟨e, rfl⟩, of_decide_eq_true h⟩

theorem store_setNode (w : World) (t : String) (n : Node) : (w.setNode t n).store t = n.store := by
  rw [World.store, World.setNode_self, World.setNode_origins, if_pos rfl]

theorem error_of_mapError {r : Except String Unit × Node} {e : Err}
    (h : r.1.mapError Err.other = .error e) : ∃ m, r = (.error m, r.2) := by
  obtain ⟨x, n⟩ := r
  cases x with
  | ok u => cases h
  | error m => exact ⟨m, rfl⟩

/-- A request that takes effect starts nothing, and is answered from what stays. -/
theorem Unstarted.exec (h : Unstarted o db a w) (ht : Opened w t) {q : Request} {ch : Choice}
    {r : Except Err (Answer q)} (hasks : (terms db a).asks q)
    (href : startsNode q = true → refused w t q ch = true)
    (he : exec t q ch w = some (r, w')) : Unstarted o db a w' ∧ (terms db a).answers q r := by
  cases q with
  | leaseRead site =>
    simp only [Roaming.exec, Option.some.injEq, Prod.mk.injEq] at he
    obtain ⟨hr, rfl⟩ := he
    refine ⟨h, ?_⟩
    rcases ite_eq_iff.mp hr with ⟨-, rfl⟩ | ⟨-, rfl⟩
    · exact h.lease
    · trivial
  | leaseWrite how record =>
    simp only [Roaming.exec, Option.some.injEq, Prod.mk.injEq] at he
    refine ⟨?_, trivial⟩
    rcases ite_eq_iff.mp he.2 with ⟨-, rfl⟩ | ⟨-, rfl⟩
    · exact h
    · exact { h with lease := fun r hr => by cases hr; exact hasks }
  | readLocal =>
    simp only [Roaming.exec, Option.some.injEq, Prod.mk.injEq] at he
    obtain ⟨hr, rfl⟩ := he
    refine ⟨h, ?_⟩
    rcases ite_eq_iff.mp hr with ⟨-, rfl⟩ | ⟨-, rfl⟩
    · exact congrArg localInfo (h.store ht)
    · trivial
  | startNode =>
    obtain ⟨⟨e, rfl⟩, hdb⟩ := of_refused (href rfl) he
    simp only [Roaming.exec, World.act, Option.some.injEq, Prod.mk.injEq] at he
    obtain ⟨hr, rfl⟩ := he
    obtain ⟨m, hm⟩ := error_of_mapError hr
    rw [store_setNode] at hdb
    exact ⟨h.setNode ht (hdb.trans (h.store ht)) (startNode_error hm), trivial⟩
  | restore envelope secret =>
    obtain ⟨⟨e, rfl⟩, hdb⟩ := of_refused (href rfl) he
    simp only [Roaming.exec, World.act, Option.some.injEq, Prod.mk.injEq] at he
    obtain ⟨hr, rfl⟩ := he
    obtain ⟨m, hm⟩ := error_of_mapError hr
    have hstore := (congrArg OriginStore.db (store_setNode w t _)).symm.trans hdb
    have hnode := h.setNode ht (hstore.trans (h.store ht)) (restoreWallet_error hm)
    exact ⟨hnode.note (fun _ _ hn => by cases hn), trivial⟩
  | stopNode =>
    simp only [Roaming.exec, World.act, Option.some.injEq, Prod.mk.injEq] at he
    have hnode : Unstarted o db a (w.setNode t (stopNode t (decide (ch = .ok)) (w.node t)).2) :=
      h.setNode ht ((stopNode_db _ _ _).1.trans (h.store ht)) (stopNode_runs _ _ _)
    refine ⟨?_, trivial⟩
    rcases ite_eq_iff.mp he.2 with ⟨-, rfl⟩ | ⟨-, rfl⟩
    · exact hnode.note fun _ _ hn => by cases hn
    · exact hnode
  | delayUntil deadline =>
    simp only [Roaming.exec, Option.ite_none_right_eq_some, Option.some.injEq, Prod.mk.injEq] at he
    exact ⟨he.2.2 ▸ h, trivial⟩
  | uploadBackup envelope =>
    simp only [Roaming.exec, Option.some.injEq, Prod.mk.injEq] at he
    refine ⟨?_, trivial⟩
    rcases ite_eq_iff.mp he.2 with ⟨-, rfl⟩ | ⟨-, rfl⟩
    · exact h
    · exact { h with }
  | fetchBackup | verifyEnvelope | exportBackup =>
    simp only [Roaming.exec, Option.some.injEq, Prod.mk.injEq] at he
    exact ⟨he.2 ▸ h, trivial⟩

/-! ## The code of a page -/

section Code

variable {α : Type}

/-- Code that starts nothing as long as what it asks for starts nothing. -/
abbrev Abides (o : String) (db : LocalDb) (a : Option HandoffAck) (p : Roam α)
    (post : Except Err α → Prop) : Prop :=
  p.Keeps (Unstarted o db a) (terms db a) post

theorem abides_updatePage {f : Page → Page} {post : Except Err Unit → Prop}
    (hf : ∀ p, Idle db a p → Idle db a (f p))
    (hs : ∀ p, (f p).status = p.status ∧ (f p).origin = p.origin) (h : post (.ok ())) :
    Abides o db a (updatePage t f) post := by
  intro w hw
  refine ⟨hw.setPage (hf _ (hw.pages t)) fun hopen => ?_, h⟩
  obtain ⟨hstatus, horigin⟩ := hs (w.pages t)
  rw [hstatus] at hopen
  rw [horigin]
  exact hw.opened t hopen

theorem abides_needSecret {post : Except Err Unit → Prop} (hs : db.seed = none) (h : post (.ok ())) :
    Abides o db a (setView t .needSecret) post :=
  abides_updatePage (fun _ hp => { hp with view := by simp, needSecret := fun _ => hs })
    (fun _ => ⟨rfl, rfl⟩) h

/-- A view that neither runs nor asks for the secret. -/
theorem abides_setView {v : View} {post : Except Err Unit → Prop} (hr : v ≠ .running)
    (hs : v ≠ .needSecret) (h : post (.ok ())) : Abides o db a (setView t v) post :=
  abides_updatePage (fun _ hp => { hp with view := hr, needSecret := fun hv => absurd hv hs })
    (fun _ => ⟨rfl, rfl⟩) h

theorem abides_halt (staleOrigin : String) :
    Abides o db a (setView t (unprovenHandoffHalt staleOrigin)) fun _ => True :=
  abides_setView (by simp [unprovenHandoffHalt]) (by simp [unprovenHandoffHalt]) trivial

theorem abides_stopHeartbeat {post : Except Err Unit → Prop} (h : post (.ok ())) :
    Abides o db a (stopHeartbeat t) post :=
  abides_updatePage (fun _ hp => { hp with heartbeat := rfl }) (fun _ => ⟨rfl, rfl⟩) h

theorem abides_leaseFailureState (e : Err) :
    Abides o db a (leaseFailureState t e) fun _ => True := by
  cases e with
  | held origin expiresAt => exact abides_setView (by simp) (by simp) trivial
  | unreachable cause => exact abides_setView (by simp) (by simp) trivial
  | other message => exact abides_setView (by simp) (by simp) trivial

theorem abides_peek {site : ReadSite}
    {post : Except Err (Option RoamingLeaseRecord × RoamingLeaseState) → Prop}
    (hok : ∀ record state, (∀ r, record = some r → Own db.stateVersion a r) → post (.ok (record, state)))
    (herr : ∀ e, post (.error e)) : Abides o db a (peek t site) post := by
  simp only [Abides, peek, ask, Proc.bind_eq, Proc.keeps_bind, Proc.keeps_rescue,
    Proc.keeps_request, Proc.keeps_fail, Proc.keeps_get]
  refine ⟨trivial, fun r hr => ?_⟩
  cases r with
  | ok record => exact fun w _ => hok record _ hr
  | error e => exact herr _

/-- A page with a token drawn anew writes a claim of its own. -/
theorem abides_writeOurRecord {site : ReadSite} {previous : Option RoamingLeaseRecord}
    {post : Except Err RoamingLeaseRecord → Prop} (ht : Drawn a t)
    (hprevious : ∀ r, previous = some r → Own db.stateVersion a r)
    (hok : ∀ r, post (.ok r)) (herr : ∀ e, post (.error e)) :
    Abides o db a (writeOurRecord t site previous) post := by
  simp only [Abides, writeOurRecord, ask, Proc.bind_eq, Proc.keeps_bind, Proc.keeps_get,
    Proc.keeps_request]
  refine fun w _ => ⟨trivial, fun r hr => ?_⟩
  cases r with
  | error e => exact herr e
  | ok info =>
    have hinfo : info = localInfo db := hr
    have hown : Own db.stateVersion a (buildLeaseRecord
        { ownerToken := t, origin := (w.pages t).origin, appName := (w.pages t).appName
          now := w.clock, previous, heartbeatStateVersion := info.stateVersion
          clearPredecessor := site = .clear }) :=
      .build hprevious (Nat.le_of_eq (congrArg LocalInfo.stateVersion hinfo)) ht
    refine ⟨hown, fun r _ => ?_⟩
    cases r with
    | error e => exact herr e
    | ok u =>
      exact abides_updatePage
        (fun _ hp => { hp with lastWritten := fun r hr => by cases hr; exact ⟨hown, rfl⟩ })
        (fun _ => ⟨rfl, rfl⟩) (hok _)

theorem abides_clearPredecessor {post : Except Err Unit → Prop} (ht : Drawn a t)
    (h : post (.ok ())) : Abides o db a (clearPredecessor t) post := by
  simp only [Abides, clearPredecessor, ask, Proc.bind_eq, Proc.keeps_rescue, Proc.keeps_bind,
    Proc.keeps_request]
  refine ⟨trivial, fun r hr => ?_⟩
  cases r with
  | error e => exact h
  | ok record =>
    cases record with
    | none => exact h
    | some r =>
      dsimp only
      split
      · rw [Proc.keeps_bind]
        exact abides_writeOurRecord ht hr (fun _ => h) fun _ => h
      · exact h

theorem abides_acquire {takeover : Bool} {post : Except Err RoamingLeaseRecord → Prop}
    (ht : Drawn a t) (hok : ∀ r, post (.ok r)) (herr : ∀ e, post (.error e)) :
    Abides o db a (acquire t takeover) post := by
  rw [acquire, Proc.bind_eq, Abides, Proc.keeps_bind]
  refine abides_peek (fun record state hrecord => ?_) herr
  simp only [Proc.bind_eq, Proc.keeps_bind, Proc.keeps_get]
  intro w _
  split
  · exact herr _
  · rw [Proc.keeps_bind, Proc.keeps_rescue]
    refine abides_writeOurRecord ht hrecord (fun _ => ?_) fun _ => herr _
    simp only [ask, Proc.keeps_bind, Proc.keeps_get, Proc.keeps_request]
    refine fun w _ => ⟨trivial, fun r _ => ?_⟩
    cases r with
    | error e => exact herr e
    | ok u =>
      refine abides_peek (fun after state _ => ?_) herr
      intro w _
      cases after with
      | none => exact herr _
      | some r =>
        dsimp only
        split
        · exact hok r
        · exact herr _

theorem abides_confirmStillOurs {post : Except Err Unit → Prop} (hok : post (.ok ()))
    (herr : ∀ e, post (.error e)) : Abides o db a (confirmStillOurs t) post := by
  rw [confirmStillOurs, Proc.bind_eq, Abides, Proc.keeps_bind]
  refine abides_peek (fun record state _ => ?_) herr
  simp only [Proc.bind_eq, Proc.keeps_bind, Proc.keeps_get]
  intro w _
  split
  · exact hok
  · exact herr _

/-- Nothing was flushed and nothing is pending: the release is clean. -/
theorem abides_release {post : Except Err Unit → Prop} (h : post (.ok ())) :
    Abides o db a (release t none none) post := by
  rw [release, Proc.bind_eq, Abides, Proc.keeps_bind]
  refine abides_stopHeartbeat ?_
  simp only [releaseVersion, ask, Proc.bind_eq, Proc.keeps_rescue, Proc.keeps_bind, Proc.keeps_request]
  refine ⟨trivial, fun r hr => ?_⟩
  cases r with
  | error e => exact h
  | ok record =>
    cases record with
    | none => exact h
    | some r =>
      dsimp only
      split
      · simp only [Proc.pure_eq, Proc.keeps_bind, Proc.keeps_request, Proc.keeps_get, Proc.keeps_done]
        refine ⟨trivial, fun x _ => ?_⟩
        cases x with
        | error e => exact h
        | ok info =>
          refine fun w _ => ⟨(hr r rfl).releasedRecord _ fun hc => ?_, fun y _ => ?_⟩
          · simp at hc
          · cases y with
            | error e => exact h
            | ok u => exact h
      · exact h

theorem abides_releaseSync : Abides o db a (releaseSync t) fun _ => True := by
  simp only [Abides, releaseSync, releaseSyncKeepalive, Proc.bind_eq, Proc.keeps_bind, Proc.keeps_get]
  intro w hw
  refine abides_stopHeartbeat fun w' hw' => ?_
  cases hl : (w'.pages t).lastWritten with
  | none => trivial
  | some last =>
    obtain ⟨hown, hlive⟩ := (hw'.pages t).lastWritten last hl
    rw [Proc.keeps_rescue]
    refine ⟨hown.releasedRecord _ fun _ => ⟨hlive, (hw.pages t).localVersion⟩, fun r _ => ?_⟩
    cases r with
    | ok u => trivial
    | error e => trivial

/-- The start is refused. -/
theorem abides_startGuarded : Abides o db a (startGuarded t false) fun _ => True := by
  rw [startGuarded, Proc.bind_eq, Abides, Proc.keeps_bind]
  refine abides_setView (by simp) (by simp) fun w _ => ⟨‹_›, ?_⟩
  simp only [Proc.bind_eq, Proc.keeps_bind, Proc.keeps_attempt, ask, Proc.keeps_request]
  refine ⟨trivial, fun r _ => ?_⟩
  cases r with
  | error e => exact abides_leaseFailureState e
  | ok u =>
    refine abides_confirmStillOurs ?_ fun e => abides_leaseFailureState e
    simp only [Bool.false_eq_true, if_false, Proc.keeps_bind, Proc.keeps_attempt, Proc.keeps_request]
    refine ⟨trivial, fun r hr => ?_⟩
    cases r with
    | ok u => exact hr.elim
    | error e => exact abides_setView (by simp) (by simp) trivial

/-- The inputs of a boot decision, with the wallet as it was read. -/
theorem Unstarted.bootInputs (h : Unstarted o db a w) (t : String) (backup : Option Envelope)
    (n : Option Nat) :
    Asked db a (bootInputs w t (localInfo db) backup n).toHandoffProofInputs where
  lease := (h.pages t).preClaim
  postClaim := (h.pages t).postClaim
  seed := rfl
  version := fun _ => rfl

theorem abides_noteEvaluated {i : HandoffProofInputs} {post : Except Err Unit → Prop}
    (hi : Asked db a i) (h : post (.ok ())) : Abides o db a (noteEvaluated t i) post :=
  fun w hw => ⟨hw.note fun t' i' hn => by cases hn; exact hi, h⟩

/-- Only without a wallet is the secret asked for. -/
theorem seed_of_restoreIntoEmpty {i : RoamingBootInputs}
    (h : roamingBootDecision i = .restoreIntoEmpty) : i.localSeedPresent = false := by
  cases hs : i.localSeedPresent with
  | false => rfl
  | true =>
    simp only [roamingBootDecision, hs, if_true] at h
    split at h
    · cases h
    · split at h
      · split at h <;> cases h
      · cases h

theorem abides_routeClaimed (backup : Option Envelope) (n : Option Nat) :
    Abides o db a (routeClaimed t (localInfo db) backup n) fun _ => True := by
  have shown : ∀ v : View, v ≠ .running → v ≠ .needSecret →
      Abides o db a (setView t v) fun _ => True := fun v hr hs => abides_setView hr hs trivial
  have pending : ∀ {i : RoamingBootInputs}, i.localSeedPresent = db.seed.isSome →
      roamingBootDecision i = .restoreIntoEmpty →
      Abides o db a (updatePage t fun p =>
        { p with pendingRestoreEnvelope := backup, view := .needSecret }) fun _ => True := by
    intro i hi hd
    have hseed : db.seed = none := by
      rw [seed_of_restoreIntoEmpty hd] at hi
      simpa using hi.symm
    exact abides_updatePage
      (fun _ hp => { hp with view := by simp, needSecret := fun _ => hseed, pending := fun _ => hseed })
      (fun _ => ⟨rfl, rfl⟩) trivial
  simp only [Abides, routeClaimed, Proc.bind_eq, Proc.keeps_bind, Proc.keeps_get]
  intro w hw
  split
  · rw [Proc.keeps_bind]
    refine abides_noteEvaluated (hw.bootInputs t backup n) ?_
    dsimp only
    split
    · exact shown _ (by simp) (by simp)
    · exact abides_halt _
    · exact shown _ (by simp) (by simp)
    · exact pending rfl ‹_›
    · exact abides_startGuarded
  · split
    · exact shown _ (by simp) (by simp)
    · exact abides_halt _
    · exact shown _ (by simp) (by simp)
    · exact pending rfl ‹_›
    · exact abides_startGuarded

theorem abides_readBackupVersion (backup : Option Envelope) (secret : Option String)
    {post : Except Err (Option Nat) → Prop} (hok : ∀ n, post (.ok n)) (herr : ∀ e, post (.error e)) :
    Abides o db a (readBackupVersion backup secret) post := by
  rw [readBackupVersion.eq_def]
  split
  · simp only [Abides, ask, Proc.bind_eq, Proc.keeps_bind, Proc.keeps_request, Proc.pure_eq,
      Proc.keeps_done]
    refine ⟨trivial, fun r _ => ?_⟩
    cases r with
    | ok v => exact hok _
    | error e => exact herr e
  · exact hok none

theorem abides_continueClaimed : Abides o db a (continueClaimed t) fun _ => True := by
  simp only [Abides, continueClaimed, ask, Proc.bind_eq, Proc.keeps_bind, Proc.keeps_attempt,
    Proc.keeps_request, Proc.pure_eq, Proc.keeps_done]
  have paused : Abides o db a (setView t .paused) fun _ => True :=
    abides_setView (by simp) (by simp) trivial
  refine ⟨trivial, fun r hr => ?_⟩
  cases r with
  | error e => exact paused
  | ok info =>
    have hinfo : info = localInfo db := hr
    subst hinfo
    refine ⟨trivial, fun r _ => ?_⟩
    cases r with
    | error e => exact paused
    | ok backup =>
      exact abides_readBackupVersion backup _ (fun n => abides_routeClaimed backup n) fun _ => trivial

theorem abides_boot (ht : Drawn a t) : Abides o db a (boot t) fun _ => True := by
  rw [boot, Proc.bind_eq, Abides, Proc.keeps_bind]
  refine abides_setView (by simp) (by simp) ?_
  rw [Proc.bind_eq, Proc.keeps_bind, Proc.keeps_attempt]
  refine abides_peek (fun record state hrecord => ?_)
    fun _ => abides_setView (by simp) (by simp) trivial
  dsimp only
  rw [Proc.bind_eq, Proc.keeps_bind]
  refine abides_updatePage (fun _ hp => { hp with preClaim := hrecord }) (fun _ => ⟨rfl, rfl⟩) ?_
  dsimp only
  split
  · exact abides_setView (by simp) (by simp) trivial
  · rw [Proc.bind_eq, Proc.keeps_bind, Proc.keeps_attempt]
    exact abides_acquire ht (fun _ => abides_continueClaimed) fun e => abides_leaseFailureState e

theorem abides_pollTakeover (previousOwner : String) (claimedAt polls : Nat) :
    Abides o db a (pollTakeover t previousOwner claimedAt polls) fun _ => True := by
  induction polls with
  | zero => trivial
  | succ polls ih =>
    have lost : ∀ (record : Option RoamingLeaseRecord) (origin : String) (expiresAt : Nat),
        (∀ r, record = some r → Own db.stateVersion a r) → Abides o db a (updatePage t fun p =>
          { p with preClaimRecord := record, view := .blocked origin expiresAt }) fun _ => True := by
      intro record origin expiresAt hrecord
      exact abides_updatePage
        (fun _ hp => { hp with
          preClaim := hrecord, view := by simp, needSecret := fun hv => by cases hv })
        (fun _ => ⟨rfl, rfl⟩) trivial
    have proceeds : ∀ record : Option RoamingLeaseRecord,
        (∀ r, record = some r → Own db.stateVersion a r) →
        Abides o db a ((updatePage t fun p => { p with postClaimRecord := record }).bind
          fun _ => continueClaimed t) fun _ => True := by
      intro record hrecord
      rw [Abides, Proc.keeps_bind]
      exact abides_updatePage (fun _ hp => { hp with postClaim := hrecord }) (fun _ => ⟨rfl, rfl⟩)
        abides_continueClaimed
    have waits : ∀ deadline, Abides o db a ((ask (.delayUntil deadline)).bind
        fun _ => pollTakeover t previousOwner claimedAt polls) fun _ => True := by
      intro deadline
      simp only [Abides, ask, Proc.keeps_bind, Proc.keeps_request]
      refine ⟨trivial, fun r _ => ?_⟩
      cases r with
      | ok u => exact ih
      | error e => trivial
    simp only [Abides, pollTakeover, Proc.bind_eq, Proc.keeps_bind, Proc.keeps_get]
    intro w _
    refine abides_setView (by simp) (by simp) ?_
    rw [Proc.keeps_attempt]
    refine abides_peek (fun record state hrecord => ?_) fun e => ?_
    · intro w _
      dsimp only
      split
      · exact lost record _ _ hrecord
      · exact proceeds record hrecord
      · exact proceeds record hrecord
      · exact waits _
    · have hnone : ∀ r, (none : Option RoamingLeaseRecord) = some r → Own db.stateVersion a r :=
        fun r hr => by cases hr
      intro w _
      dsimp only
      split
      · exact lost none _ _ hnone
      · exact proceeds none hnone
      · exact proceeds none hnone
      · exact waits _

theorem abides_moveHere (ht : Drawn a t) (polls : Nat) :
    Abides o db a (moveHere t polls) fun _ => True := by
  simp only [Abides, moveHere, Proc.bind_eq, Proc.keeps_bind, Proc.keeps_get]
  intro w _
  split
  · rw [Proc.keeps_bind, Proc.keeps_attempt]
    exact abides_acquire ht (fun _ => abides_pollTakeover _ _ _) fun e => abides_leaseFailureState e
  · trivial

/-- The restore is refused. -/
theorem abides_restoreProven (envelope : Envelope) (secret : String) :
    Abides o db a (restoreProven t envelope secret) fun _ => True := by
  simp only [Abides, restoreProven, ask, Proc.bind_eq, Proc.keeps_bind, Proc.keeps_attempt,
    Proc.keeps_request]
  refine ⟨trivial, fun r hr => ?_⟩
  cases r with
  | ok u => exact hr.elim
  | error e => exact abides_setView (by simp) (by simp) trivial

theorem Unstarted.secretInputs (h : Unstarted o db a w) (t : String) (v : Verification)
    (hseed : db.seed = none) : Asked db a (secretInputs w t v) where
  lease := (h.pages t).preClaim
  postClaim := (h.pages t).postClaim
  seed := by rw [hseed]; rfl
  version := fun hs => by cases hs

/-- The secret is asked for where there is no wallet, and so there is none when it is submitted. -/
theorem abides_submitSecret (secret : String) :
    Abides o db a (submitSecret t secret) fun _ => True := by
  simp only [Abides, submitSecret, Proc.bind_eq, Proc.keeps_bind, Proc.keeps_get]
  intro w hw
  split
  · rename_i envelope hview _
    have hseed : db.seed = none := (hw.pages t).needSecret hview
    simp only [ask, Proc.keeps_bind, Proc.keeps_request]
    refine ⟨trivial, fun r _ => ?_⟩
    cases r with
    | error e => trivial
    | ok v =>
      dsimp only
      split
      · simp only [Proc.keeps_bind, Proc.keeps_get]
        intro w' hw'
        refine abides_noteEvaluated (hw'.secretInputs t v hseed) ?_
        dsimp only
        split
        · exact abides_halt _
        · exact abides_restoreProven envelope secret
      · exact abides_needSecret hseed trivial
  · trivial

theorem abides_forceRestoreAnyway (ht : Drawn a t) :
    Abides o db a (forceRestoreAnyway t) fun _ => True := by
  simp only [Abides, forceRestoreAnyway, Proc.bind_eq, Proc.keeps_bind, Proc.keeps_get]
  intro w _
  split
  · rw [Proc.keeps_bind]
    refine abides_updatePage (fun _ hp => { hp with }) (fun _ => ⟨rfl, rfl⟩) ?_
    rw [Proc.keeps_bind]
    refine abides_clearPredecessor ht ?_
    simp only [Proc.keeps_bind, Proc.keeps_get]
    intro w' hw'
    split
    · rename_i hpending
      exact abides_needSecret ((hw'.pages t).pending hpending) trivial
    · exact abides_continueClaimed
  · trivial

/-- A session that did not run only releases the lease. -/
theorem abides_dispose : Abides o db a (dispose t) fun _ => True := by
  rw [dispose, Proc.bind_eq, Abides, Proc.keeps_bind]
  refine abides_updatePage (fun _ hp => { hp with heartbeat := rfl }) (fun _ => ⟨rfl, rfl⟩) ?_
  simp only [Proc.bind_eq, Proc.keeps_bind, Proc.keeps_get, Proc.keeps_attempt]
  intro w hw
  rw [if_neg (hw.pages t).view]
  exact abides_release (abides_setView (by simp) (by simp) trivial)

theorem abides_closeSoon : Abides o db a (closeSoon t) fun _ => True := by
  simp only [Abides, closeSoon, Proc.bind_eq, Proc.keeps_bind, Proc.keeps_get]
  intro w hw
  rw [if_neg (hw.pages t).view]
  trivial

theorem abides_onControllerEvent (changed connected : Bool) :
    Abides o db a (onControllerEvent t changed connected) fun _ => True := by
  have refresh : Abides o db a (refreshLocalVersion t) fun _ => True := by
    simp only [Abides, refreshLocalVersion, ask, Proc.bind_eq, Proc.keeps_bind, Proc.keeps_attempt,
      Proc.keeps_request]
    refine ⟨trivial, fun r hr => ?_⟩
    cases r with
    | error e => trivial
    | ok info =>
      have hinfo : info = localInfo db := hr
      subst hinfo
      exact abides_updatePage (fun _ hp => { hp with localVersion := Nat.le_refl _ })
        (fun _ => ⟨rfl, rfl⟩) trivial
  simp only [Abides, onControllerEvent, Proc.bind_eq, Proc.keeps_bind, Proc.keeps_get]
  intro w hw
  rw [if_neg fun hc => (hw.pages t).view hc.2]
  exact refresh

end Code

/-! ## Events -/

/-- What the death of a page leaves. -/
theorem Unstarted.died (h : Unstarted o db a w) (ht : Opened w t) : Unstarted o db a (died w t) := by
  have hstop : ¬ w.Runs t := (h.pages t).wallet
  have hpage := h.setPage (t := t) (f := fun p =>
      { p with status := .closed, wallet := .absent, heartbeatTimer := none, syncTimer := none })
    { h.pages t with wallet := by simp, heartbeat := rfl, sync := rfl } fun _ => h.opened t ht
  have hdb : ((Embed.died w t).origins o).db = db := (died_db w t o).trans h.wallet
  rw [Embed.died, if_neg hstop] at hdb ⊢
  exact { hpage with wallet := hdb }

/-- An event leaves the wallet, and the code that it calls starts nothing. -/
theorem Unstarted.event (h : Unstarted o db a w) {e : Event} (he : effect e w = some w')
    (hopen : ∀ t origin appName, e = .openPage t origin appName → origin = o ∧ Drawn a t) :
    Unstarted o db a w' ∧ ∀ j p, handler e = some (j, p) → Abides o db a p fun _ => True := by
  have alive : ∀ t, (if Alive w t then some w else none) = some w' →
      Unstarted o db a w' ∧ Drawn a t := by
    intro t ht
    simp only [Option.ite_none_right_eq_some, Option.some.injEq] at ht
    obtain ⟨ha, rfl⟩ := ht
    exact ⟨h, (h.opened t (opened_of_alive ha)).2⟩
  cases e with
  | pass ms =>
    cases he
    exact ⟨{ h with }, fun j p hj => by cases hj⟩
  | openPage t origin appName =>
    simp only [effect, Option.ite_none_right_eq_some, Option.some.injEq] at he
    obtain ⟨-, rfl⟩ := he
    refine ⟨h.setPage (.fresh origin appName .alive) fun _ => hopen t origin appName rfl, ?_⟩
    exact fun j p hj => by cases hj
  | closePage t =>
    simp only [effect, Option.ite_none_right_eq_some, Option.some.injEq] at he
    obtain ⟨ha, rfl⟩ := he
    exact ⟨h.died (opened_of_alive ha), fun j p hj => by cases hj⟩
  | heartbeat t => simp [effect, (h.pages t).heartbeat] at he
  | syncFires t => simp [effect, (h.pages t).sync] at he
  | advance t =>
    simp only [effect, Option.ite_none_right_eq_some] at he
    exact absurd he.1.2 (h.pages t).wallet
  | boot t =>
    obtain ⟨hw, ht⟩ := alive t he
    exact ⟨hw, fun j p hj => by cases hj; exact abides_boot ht⟩
  | moveHere t polls =>
    obtain ⟨hw, ht⟩ := alive t he
    exact ⟨hw, fun j p hj => by cases hj; exact abides_moveHere ht polls⟩
  | submitSecret t secret =>
    obtain ⟨hw, -⟩ := alive t he
    exact ⟨hw, fun j p hj => by cases hj; exact abides_submitSecret secret⟩
  | forceRestoreAnyway t =>
    obtain ⟨hw, ht⟩ := alive t he
    exact ⟨hw, fun j p hj => by cases hj; exact abides_forceRestoreAnyway ht⟩
  | dispose t =>
    obtain ⟨hw, -⟩ := alive t he
    exact ⟨hw, fun j p hj => by cases hj; exact abides_dispose⟩
  | hidden t =>
    obtain ⟨hw, -⟩ := alive t he
    exact ⟨hw, fun j p hj => by cases hj; exact abides_closeSoon⟩
  | pageHide t =>
    obtain ⟨hw, -⟩ := alive t he
    exact ⟨hw, fun j p hj => by cases hj; exact abides_releaseSync⟩
  | controllerEvent t changed connected =>
    obtain ⟨hw, -⟩ := alive t he
    exact ⟨hw, fun j p hj => by cases hj; exact abides_onControllerEvent changed connected⟩

/-! ## Main results -/

variable {c c' : EmbedConfig} {l : EmbedLabel}

/-- A step that starts nothing. -/
theorem kept_step (hd : protocol.Did l c c') (h : c.Kept (Unstarted o db a) (terms db a))
    (hl : unstarted o l c = true) : c'.Kept (Unstarted o db a) (terms db a) := by
  refine hd.kept h (fun i ch j q r w hli hi ho hasks he => ?_) fun e w called hle he => ?_
  · subst hli
    refine h.world.exec ho.1 hasks (fun hq => ?_) he
    simpa [unstarted, hi, hq] using hl
  · subst hle
    simp only [embed, Option.map_eq_some_iff, Prod.mk.injEq] at he
    obtain ⟨w', heff, rfl, rfl⟩ := he
    refine h.world.event heff fun t origin appName heq => ?_
    subst heq
    simp only [unstarted, h.world.first, Bool.and_eq_true, decide_eq_true_eq, Bool.not_eq_true',
      Option.any_eq_false, decide_eq_false_iff_not] at hl
    exact hl

/-- An origin claims over a record that is absent or released, any number of times, and nothing is
started.  Whatever of that it finds, the verdict on it is proven if it holds a wallet, and otherwise
only by an override or while the record is still absent or released. -/
theorem proven_iff {w : World} (hw : Untouched w)
    (hlease : ∀ r, w.drive.firstLease = some r → r.phase = .released)
    (hrun : embed.Run (fun l d => unstarted o l d = true) (initial w) c) :
    ∀ t i, Note.evaluated t i ∈ c.world.log →
      ((evaluateHandoffProof i).isProven = true ↔
        i.override = true ∨ (∀ r, i.lease = some r → r.phase = .released) ∨
          (w.origins o).db.seed.isSome = true) := by
  have hkept : (initial w).Kept (Unstarted o (w.origins o).db (w.drive.firstLease.bind (·.handoffAck)))
      (terms (w.origins o).db (w.drive.firstLease.bind (·.handoffAck))) := by
    refine ⟨⟨rfl, rfl, fun r hr => ?_, fun t ht => ?_, fun t => ?_, fun t i hi => ?_⟩, ?_⟩
    · simp only [initial, Drive.lease, hw.writes] at hr
      refine ⟨fun x hx => ?_, fun hp => ?_⟩
      · rw [hr]
        exact hx
      · rw [hlease r hr] at hp
        cases hp
    · simp [Opened, initial, hw.pages] at ht
    · rw [initial, hw.pages]
      exact .fresh "" none .unopened
    · simp [initial, hw.log] at hi
    · simp [initial]
  obtain ⟨-, hkept'⟩ := Protocol.invariant_of_run admits (sound_initial hw) hkept
    (fun l d d' _ _ h hl hd => kept_step hd h hl) hrun
  exact fun t i hi => (hkept'.world.asked t i hi).isProven_iff

/-! ## A clean handoff -/

/-- The last holder released the lease at 3, which is backed up.  `a.example` has a wallet at 3, and
every other origin is empty. -/
def cleanHandoff : World where
  clock := 200000
  drive :=
    { firstLease := some
        { owner := "p", origin := "p.example", acquiredAt := 0, expiresAt := 100000, seq := 4
          heartbeatStateVersion := 3, phase := .released }
      firstBackup := some { seedHex := "seed", stateVersion := 3 } }
  origins := fun o =>
    if o = "a.example" then
      { db := { seed := some "seed", stateVersion := 3, channelManager := true }, mirror := 3 }
    else { db := { seed := none, stateVersion := 0, channelManager := false } }
  pages := fun _ => {}

theorem untouched_cleanHandoff : Untouched cleanHandoff := ⟨fun _ => rfl, rfl, rfl, rfl⟩

theorem released_cleanHandoff (r : RoamingLeaseRecord) (h : cleanHandoff.drive.firstLease = some r) :
    r.phase = .released := by
  cases h
  rfl

/-- A wallet claims, is about to start when its page is reloaded, and comes back when that claim has
expired. -/
def reload : List (Line Choice Event) :=
  [.event (.openPage "a1" "a.example" none), .event (.boot "a1"), .go 0 .ok 9,
   .event (.pass 2000), .go 0 .ok 20, .event (.closePage "a1"), .event (.pass 120000),
   .event (.openPage "a2" "a.example" none), .event (.boot "a2"), .go 1 .ok 9,
   .event (.pass 2000), .go 1 .ok 20]

/-- An empty origin claims, is waiting for the secret when its page is reloaded, and is given the
secret when that claim has expired. -/
def reloadEmpty : List (Line Choice Event) :=
  [.event (.openPage "b1" "b.example" none), .event (.boot "b1"), .go 0 .ok 9,
   .event (.pass 2000), .go 0 .ok 20, .event (.closePage "b1"), .event (.pass 120000),
   .event (.openPage "b2" "b.example" none), .event (.boot "b2"), .go 1 .ok 9,
   .event (.pass 2000), .go 1 .ok 20, .event (.submitSecret "b2" "seed"), .go 2 .ok 9]

/-- Whether the note is of a verdict on a live record, with no override, that came out as `proven`. -/
def onLive (proven : Bool) : Note → Bool
  | .evaluated _ i =>
    !i.override && i.lease.any (·.phase = .live) && (evaluateHandoffProof i).isProven == proven
  | _ => false

/-- A wallet that is reloaded before it starts has a proof against its own claim. -/
theorem proven_iff_reloaded :
    ∃ c, embed.Run (fun l d => unstarted "a.example" l d = true) (initial cleanHandoff) c ∧
      c.world.log.any (onLive true) = true ∧
      ∀ t i, Note.evaluated t i ∈ c.world.log →
        ((evaluateHandoffProof i).isProven = true ↔
          i.override = true ∨ (∀ r, i.lease = some r → r.phase = .released) ∨
            (cleanHandoff.origins "a.example").db.seed.isSome = true) := by
  obtain ⟨c, hrun, hf⟩ := Machine.Run.exists_of_play (M := embed) (g := unstarted "a.example")
    (c := initial cleanHandoff) (s := reload) (f := fun c => c.world.log.any (onLive true))
    (by decide +kernel)
  exact ⟨c, hrun, hf, proven_iff untouched_cleanHandoff released_cleanHandoff hrun⟩

/-- An empty origin that is reloaded before it restores is halted by its own claim, which it is told to
open itself for. -/
theorem not_proven_reloaded :
    ∃ (w : World) (o : String) (c : EmbedConfig), Untouched w ∧
      (∀ r, w.drive.firstLease = some r → r.phase = .released) ∧
      embed.Run (fun l d => unstarted o l d = true) (initial w) c ∧
      (c.world.pages "b2").view = unprovenHandoffHalt o ∧
      ∃ t i r, Note.evaluated t i ∈ c.world.log ∧ i.override = false ∧ i.lease = some r ∧
        r.phase = .live ∧ (evaluateHandoffProof i).isProven = false := by
  obtain ⟨c, hrun, hf⟩ := Machine.Run.exists_of_play (M := embed) (g := unstarted "b.example")
    (c := initial cleanHandoff) (s := reloadEmpty)
    (f := fun c => decide ((c.world.pages "b2").view = unprovenHandoffHalt "b.example") &&
      c.world.log.any (onLive false)) (by decide +kernel)
  simp only [Bool.and_eq_true, decide_eq_true_eq, List.any_eq_true] at hf
  obtain ⟨hview, n, hn, hlive⟩ := hf
  refine ⟨cleanHandoff, "b.example", c, untouched_cleanHandoff, released_cleanHandoff, hrun, hview, ?_⟩
  cases n with
  | evaluated t i =>
    simp only [onLive, Bool.and_eq_true, Bool.not_eq_true', Option.any_eq_true, decide_eq_true_eq,
      beq_iff_eq] at hlive
    obtain ⟨⟨hov, r, hr, hphase⟩, hnot⟩ := hlive
    exact ⟨t, i, r, hn, hov, hr, hphase, hnot⟩
  | stopped | restore => cases hlive

end LibreWallet.Embed.OwnClaim
