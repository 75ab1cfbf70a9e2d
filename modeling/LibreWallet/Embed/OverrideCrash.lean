import LibreWallet.Embed.Laundering
import LibreWallet.Embed.LowerBound

/-
  Embed/OverrideCrash.lean --- what is left of an override whose page dies.

  `clearPredecessor` drops the record of the predecessor, so that all the next boots find is what
  the overriding session wrote for itself: live, with no ack, and at the version that session's own
  database was at.  An origin that holds a wallet at that version or above has a proof against it,
  whatever the predecessor had advertised.
-/

set_option autoImplicit false

namespace LibreWallet.Embed.OverrideCrash

open Async Controller Roaming

/-! ## The crash -/

/-- The writes of the lease file end in the clear of `S`, which dropped `u`, and the renewals of
what it left. -/
inductive ClearedBy (S : String) (u : UnprovenPredecessor) : List Written → Prop where
  | clear {x : Written} {ws : List Written} {q : RoamingLeaseRecord} : x.author = S →
      x.how = .claim .clear (some q) → q.unprovenPredecessor = some u → ClearedBy S u (x :: ws)
  | renewed {x : Written} {ws : List Written} {site : ReadSite} {q : RoamingLeaseRecord} :
      ClearedBy S u ws → x.author = S → x.how = .claim site (some q) → q.owner = S →
      q.unprovenPredecessor = none → ClearedBy S u (x :: ws)

/-- A run that ends in the death of the page that overrode `u`: every page is gone, and the lease
file holds `r`. -/
structure Crashed (S : String) (u : UnprovenPredecessor) (c : EmbedConfig) (r : RoamingLeaseRecord) :
    Prop where
  reached : ∃ w, Untouched w ∧ Reaches (initial w) c
  cleared : ClearedBy S u c.world.drive.writes
  gone : ∀ t, ¬ Alive c.world t
  left : c.world.drive.lease = some r

/-- What the next page loads find: the two Drive files and what each origin keeps. -/
def afterlife (w : World) : World where
  clock := w.clock
  drive := { firstLease := w.drive.lease, firstBackup := w.drive.backup }
  origins := fun o => { w.origins o with runLock := none }
  pages := fun _ => {}

/-- The wallet of an origin is at `L`, if it has one at `v` or above. -/
def AtLeast (v L : Nat) (db : LocalDb) : Prop :=
  db.seed.isSome = true → v ≤ db.stateVersion → L ≤ db.stateVersion

theorem untouched_afterlife (w : World) : Untouched (afterlife w) := ⟨fun _ => rfl, rfl, rfl, rfl⟩

/-! ## What the override leaves -/

variable {S : String} {u : UnprovenPredecessor} {r : RoamingLeaseRecord} {c c' d : EmbedConfig}
  {l : EmbedLabel}

/-- A live record of `S` that carries nobody. -/
structure Bare (S : String) (r : RoamingLeaseRecord) : Prop where
  owner : r.owner = S
  live : r.phase = .live
  unacked : r.handoffAck = none
  predecessor : r.unprovenPredecessor = none

theorem bare_of_clearedBy {ws : List Written} (hs : ∀ x ∈ ws, Shaped x) (h : ClearedBy S u ws) :
    ∃ x rest, ws = x :: rest ∧ Bare S x.record := by
  cases h with
  | @clear x ws q hauthor hhow =>
    have hx := hs x (.head _)
    rw [Shaped, hhow] at hx
    obtain ⟨opts, hrec, howner, -, hclear⟩ := hx
    refine ⟨x, ws, rfl, ?_⟩
    rw [hrec]
    exact ⟨howner.trans hauthor, rfl, rfl, by simp [buildLeaseRecord, hclear]⟩
  | @renewed x ws site q _ hauthor hhow hq hnone =>
    have hx := hs x (.head _)
    rw [Shaped, hhow] at hx
    obtain ⟨opts, hrec, howner, hprev, -⟩ := hx
    have hown : q.owner = opts.ownerToken := by rw [hq, howner, hauthor]
    have hcarry : carryPredecessor (some q) opts.ownerToken opts.now = none := by
      simp only [carryPredecessor, hown, if_true, hnone]
      split <;> rfl
    refine ⟨x, ws, rfl, ?_⟩
    rw [hrec]
    refine ⟨howner.trans hauthor, rfl, rfl, ?_⟩
    rw [buildLeaseRecord, hprev, hcarry, ite_self]

theorem Crashed.bare (h : Crashed S u c r) : Bare S r := by
  obtain ⟨w, hw, hrun⟩ := h.reached
  obtain ⟨x, rest, hws, hbare⟩ := bare_of_clearedBy (shaped_of_run hw hrun) h.cleared
  have hleft := h.left
  rw [Drive.lease, hws, Option.some.injEq] at hleft
  exact hleft ▸ hbare

/-- The version it was at when it last wrote is all that a later boot is compared with. -/
theorem Crashed.advertised (h : Crashed S u c r) : advertisedVersionOf r = r.heartbeatStateVersion := by
  rw [advertisedVersionOf, h.bare.predecessor, Option.map_none, Option.getD_none, Nat.max_zero]

theorem Crashed.predecessor (h : Crashed S u c r) : Predecessor r (afterlife c.world) where
  untouched := untouched_afterlife c.world
  lease := h.left
  live := h.bare.live
  unacked := h.bare.unacked

/-! ## What the later pages do to a wallet -/

theorem setNode_db {w : World} {t : String} {n : Node} (h : n.store.db = (w.store t).db) (o : String) :
    ((w.setNode t n).origins o).db = (w.origins o).db := by
  rw [World.setNode_origins]
  split
  · rename_i ho
    rw [h, World.store, ho]
  · rfl

/-- A request that starts no node leaves every wallet. -/
theorem exec_db {t : String} {q : Request} {ch : Choice} {w w' : World} {a : Except Err (Answer q)}
    (he : exec t q ch w = some (a, w')) (hq : startsNode q = false) (o : String) :
    (w'.origins o).db = (w.origins o).db := by
  cases q with
  | startNode | restore => cases hq
  | delayUntil deadline =>
    simp only [exec, Option.ite_none_right_eq_some, Option.some.injEq, Prod.mk.injEq] at he
    rw [← he.2.2]
  | stopNode =>
    simp only [exec, World.act, Option.some.injEq, Prod.mk.injEq] at he
    have hdb := setNode_db (stopNode_db t (decide (ch = .ok)) (w.node t)).1 o
    rcases ite_eq_iff.mp he.2 with ⟨-, rfl⟩ | ⟨-, rfl⟩
    · exact hdb
    · exact hdb
  | leaseWrite | uploadBackup =>
    simp only [exec, Option.some.injEq, Prod.mk.injEq] at he
    rw [← he.2]
    split <;> rfl
  | _ =>
    simp only [exec, Option.some.injEq, Prod.mk.injEq] at he
    rw [← he.2]

/-- An event changes a wallet only by advancing its node. -/
theorem effect_db {e : Event} {w w' : World} (he : effect e w = some w') (o : String) :
    (w'.origins o).db = (w.origins o).db ∨
      ∃ t, w.Runs t ∧ (w.pages t).origin = o ∧
        (w.origins o).db.stateVersion ≤ (w'.origins o).db.stateVersion := by
  rcases (effect_frame he).origins with h | ⟨t, rfl | rfl⟩
  · exact .inl (by rw [h])
  · simp only [effect, Option.ite_none_right_eq_some, Option.some.injEq] at he
    obtain ⟨-, rfl⟩ := he
    exact .inl (died_db w t o)
  · simp only [effect, Option.ite_none_right_eq_some, Option.some.injEq] at he
    obtain ⟨⟨-, hr⟩, rfl⟩ := he
    rw [advanceNode_origins]
    split
    · rename_i ho
      subst ho
      exact .inr ⟨t, hr, rfl, Nat.le_succ _⟩
    · exact .inl rfl

/-- A wallet changes when its node advances, or starts. -/
theorem db_step (hd : protocol.Did l c c') (o : String) :
    (c'.world.origins o).db = (c.world.origins o).db ∨
      (∃ t, c.world.Runs t ∧ (c.world.pages t).origin = o ∧
        (c.world.origins o).db.stateVersion ≤ (c'.world.origins o).db.stateVersion) ∨
      ∃ i j q a, Effected l c c' i j q a ∧ startsNode q = true ∧ (c.world.pages j.token).origin = o := by
  have event : ∀ {e : Event} {w : World}, effect e c.world = some w →
      (w.origins o).db = (c'.world.origins o).db →
      (c'.world.origins o).db = (c.world.origins o).db ∨ ∃ t, c.world.Runs t ∧
        (c.world.pages t).origin = o ∧
        (c.world.origins o).db.stateVersion ≤ (c'.world.origins o).db.stateVersion := by
    intro e w he hw
    rcases effect_db he o with h | ⟨t, hr, ho, hle⟩
    · exact .inl (hw.symm.trans h)
    · exact .inr ⟨t, hr, ho, hw ▸ hle⟩
  cases hd with
  | call i ch j q k a hl hi _ he ho _ htr =>
    cases hq : startsNode q with
    | false => exact .inl (exec_db (t := j.token) he hq o)
    | true =>
      by_cases hj : o = (c.world.pages j.token).origin
      · exact .inr (.inr ⟨i, j, q, a, ⟨⟨ch, hl, he⟩, ⟨k, hi⟩, ho, htr⟩, hq, hj.symm⟩)
      · exact .inl (by rw [(exec_frame (t := j.token) he).origins o hj])
  | resume i j p _ _ _ hs _ _ _ => exact .inl (by rw [hs.origins])
  | event e hl he _ _ =>
    simp only [embed, Option.map_eq_some_iff, Prod.mk.injEq] at he
    obtain ⟨w, heff, rfl, -⟩ := he
    exact (event heff rfl).imp_right .inl
  | called e w j p hl he hs _ _ _ =>
    simp only [embed, Option.map_eq_some_iff, Prod.mk.injEq] at he
    obtain ⟨w', heff, rfl, -⟩ := he
    exact (event heff (by rw [hs.origins])).imp_right .inl

/-! ## Who starts -/

/-- Every wallet is as it was at the crash, or at `L`; what runs and what was started is at `L`. -/
structure Grown (L : Nat) (w₀ : World) (c : EmbedConfig) : Prop where
  stores : ∀ o, (c.world.origins o).db = (w₀.origins o).db ∨ L ≤ version c.world o
  runs : ∀ t, c.world.Runs t → L ≤ version c.world (c.world.pages t).origin
  starts : NoStaleStart L c

namespace Grown

variable {L : Nat} {w₀ : World} {i : Nat} {j : Job} {q : Request} {a : Except Err (Answer q)}

theorem initial : Grown L (afterlife w₀) (initial (afterlife w₀)) where
  stores := fun _ => .inl rfl
  runs := fun t ht => by cases ht
  starts := fun x hx => by cases hx

/-- A start is a holder's of the version that was left, whose wallet is then at `L`. -/
theorem start (h : Grown L (afterlife w₀) c) (hc : protocol.Sound c) (hI : ClaimStands r c)
    (hP : Predecessor r (afterlife w₀))
    (hbehind : ∀ o, AtLeast (advertisedVersionOf r) L (w₀.origins o).db)
    (he : Effected l c c' i j q a) (hq : startsNode q = true) :
    q = .startNode ∧ Holder L c.world j.token := by
  cases q with
  | restore e k => exact (hI.not_restore hP he).elim
  | startNode =>
    obtain ⟨hseed, hle⟩ := hI.start_holds hc hP he
    refine ⟨rfl, hseed, ?_⟩
    rcases h.stores (c.world.pages j.token).origin with hdb | hL
    · have hold := hbehind (c.world.pages j.token).origin
      rw [World.store, hdb] at hseed hle ⊢
      exact hold hseed hle
    · exact hL
  | _ => cases hq

theorem step (h : Grown L (afterlife w₀) c) (hc : protocol.Sound c) (hI : ClaimStands r c)
    (hP : Predecessor r (afterlife w₀))
    (hbehind : ∀ o, AtLeast (advertisedVersionOf r) L (w₀.origins o).db)
    (hd : protocol.Did l c c') : Grown L (afterlife w₀) c' := by
  have hstart : ∀ {i j q a}, Effected l c c' i j q a → startsNode q = true →
      q = .startNode ∧ Holder L c.world j.token := fun he hq => h.start hc hI hP hbehind he hq
  have hgrows : ∀ o, version c.world o ≤ version c'.world o := by
    intro o
    rcases db_step hd o with hdb | ⟨t, -, -, hle⟩ | ⟨i, j, q, a, he, hq, -⟩
    · rw [version, version, hdb]
    · exact hle
    · obtain ⟨rfl, -⟩ := hstart he hq
      obtain ⟨ch, -, hex⟩ := he.label
      have hf := exec_frame hex
      by_cases ho : o = (c.world.pages j.token).origin
      · rcases hf.version with ⟨e, k, hcon⟩ | hv
        · cases hcon
        · exact Nat.le_of_eq (ho ▸ hv.symm)
      · rw [version, version, hf.origins o ho]
  refine ⟨fun o => ?_, fun t ht => ?_, ?_⟩
  · rcases db_step hd o with hdb | ⟨t, hr, rfl, -⟩ | ⟨i, j, q, a, he, hq, rfl⟩
    · rcases h.stores o with hsame | hL
      · exact .inl (hdb.trans hsame)
      · exact .inr (Nat.le_trans hL (hgrows o))
    · exact .inr (Nat.le_trans (h.runs t hr) (hgrows _))
    · exact .inr (Nat.le_trans (hstart he hq).2.2 (hgrows _))
  · rcases runs_step hd ht with hr | ⟨i, j, q, a, he, rfl, hq⟩
    · have hopen : Opened c.world t := fun hs => by
        have hwallet := congrArg Page.wallet ((hc.inv t).unopened hs)
        rw [World.Runs, hwallet] at hr
        cases hr
      rw [origin_step hd hopen]
      exact Nat.le_trans (h.runs t hr) (hgrows _)
    · rw [origin_step hd he.obliged.1]
      exact Nat.le_trans (hstart he hq).2.2 (hgrows _)
  · refine trace_forall hd h.starts fun i j q a he hq => ?_
    exact (hstart he hq).2

end Grown

/-! ## Main results -/

/-- The page that overrode `u` dies.  Where no wallet is at the version it had last written, or above,
without being at the version that `u` advertised, no later page starts a wallet below that version:
the next boot has no proof but a wallet at the version that the overriding session had written. -/
theorem halts_again (hcrash : Crashed S u c r)
    (hbehind : ∀ o, AtLeast r.heartbeatStateVersion u.advertisedVersion (c.world.origins o).db)
    (hrun : embed.Run (fun l d => leavesClaim r l d = true) (initial (afterlife c.world)) c') :
    NoStaleStart u.advertisedVersion c' ∧
      ∀ i : HandoffProofInputs, i.lease = some r → i.override = false →
        i.postClaimLease.bind (·.handoffAck) = none →
        ((evaluateHandoffProof i).isProven = true ↔
          i.localSeedPresent = true ∧ r.heartbeatStateVersion ≤ i.localStateVersion) := by
  have hP := hcrash.predecessor
  have hI₀ : ClaimStands r (initial (afterlife c.world)) := .initial hP
  have hstep : ∀ l d d', protocol.Sound d → protocol.Sound d' →
      (ClaimStands r d ∧ Grown u.advertisedVersion (afterlife c.world) d) →
      leavesClaim r l d = true → protocol.Did l d d' →
      ClaimStands r d' ∧ Grown u.advertisedVersion (afterlife c.world) d' := by
    intro l d d' hd _ h hl hdid
    refine ⟨h.1.step hd hP hl hdid, h.2.step hd h.1 hP (fun o => ?_) hdid⟩
    rw [hcrash.advertised]
    exact hbehind o
  obtain ⟨-, -, hgrown⟩ := Protocol.invariant_of_run admits (sound_initial hP.untouched)
    ⟨hI₀, .initial⟩ hstep hrun
  refine ⟨hgrown.starts, fun i hi hov hack => ?_⟩
  rw [← hcrash.advertised]
  exact evaluateHandoffProof_of_live hov hi hcrash.bare.live hack

/-! ## Two crashes -/

open Embed.Examples (afterDeath deadRecord predecessor)

/-- P died at version 9, `a.example` has an old wallet at 5, and nothing is backed up. -/
def oldWallet : World where
  clock := 200000
  drive := { firstLease := some { deadRecord with heartbeatStateVersion := 9 }, firstBackup := none }
  origins := fun o =>
    if o = "a.example" then
      { db := { seed := some "seed", stateVersion := 5, channelManager := true }, mirror := 5 }
    else { db := { seed := none, stateVersion := 0, channelManager := false } }
  pages := fun _ => {}

/-- The old wallet halts, is forced, and its page dies once the clear has landed. -/
def forceAndDie : List (Line Choice Event) :=
  [.event (.openPage "a1" "a.example" none), .event (.boot "a1"), .go 0 .ok 9,
   .event (.pass 2000), .go 0 .ok 20, .event (.forceRestoreAnyway "a1"), .go 1 .ok 4,
   .event (.closePage "a1")]

/-- It is loaded again when the lease has expired. -/
def bootAgain : List (Line Choice Event) :=
  [.event (.pass 120000), .event (.openPage "a2" "a.example" none), .event (.boot "a2"),
   .go 0 .ok 9, .event (.pass 2000), .go 0 .ok 20, .event (.pass 5000), .go 0 .ok 20]

/-- An empty origin halts when the secret is submitted, is forced, and its page dies. -/
def forceEmptyAndDie : List (Line Choice Event) :=
  [.event (.openPage "b1" "b.example" none), .event (.boot "b1"), .go 0 .ok 9,
   .event (.pass 2000), .go 0 .ok 20, .event (.submitSecret "b1" "seed"), .go 1 .ok 9,
   .event (.forceRestoreAnyway "b1"), .go 2 .ok 9, .event (.closePage "b1")]

/-- It is loaded again, and the secret is submitted again. -/
def submitAgain : List (Line Choice Event) :=
  [.event (.pass 120000), .event (.openPage "b2" "b.example" none), .event (.boot "b2"),
   .go 0 .ok 9, .event (.pass 2000), .go 0 .ok 20, .event (.submitSecret "b2" "seed"), .go 1 .ok 9]

/-- Only the page of `S` is opened. -/
def only (S : String) (l : EmbedLabel) (_ : EmbedConfig) : Bool :=
  match l with
  | .event (.openPage t _ _) => t = S
  | _ => true

/-- The page of `S` is gone, and its last write is the clear of a predecessor at `n`. -/
def clearedAt (S : String) (n : Nat) (c : EmbedConfig) : Bool :=
  !decide (Alive c.world S) &&
    match c.world.drive.writes with
    | ⟨author, .claim .clear (some q), _⟩ :: _ =>
      author = S && q.unprovenPredecessor.any (·.advertisedVersion = n)
    | _ => false

/-- The later pages, as `ls` says, leave what was left alone and come to `f`. -/
def thenPlay (ls : List (Line Choice Event)) (f : EmbedConfig → Bool) (c : EmbedConfig) : Bool :=
  c.world.drive.lease.any fun r =>
    (embed.play (leavesClaim r) ls (initial (afterlife c.world))).any f

/-- Some page asked for a start at a version below `n`. -/
def startedBelow (n : Nat) (c : EmbedConfig) : Bool :=
  c.trace.any fun x => startsNode x.entry.request &&
    decide ((x.entry.before.store x.job.token).db.stateVersion < n)

/-- The page of `t` shows the halt. -/
def halted (t : String) (c : EmbedConfig) : Bool :=
  match (c.world.pages t).view with
  | .halted .versionGap _ (some _) => true
  | _ => false

theorem opened_only {w : World} (hw : Untouched w)
    (hrun : embed.Run (fun l d => only S l d = true) (initial w) c) :
    ∀ t, Opened c.world t → t = S := by
  refine (Protocol.invariant_of_run admits (sound_initial hw)
    (I := fun c => ∀ t, Opened c.world t → t = S) ?_ ?_ hrun).2
  · intro t ht
    simp [Opened, initial, hw.pages] at ht
  · intro l d d' _ _ hI hl hd t ht
    rcases opened_step hd t with h | ⟨origin, appName, rfl, -⟩
    · exact hI t (h.mp ht)
    · exact of_decide_eq_true hl

theorem of_clearedAt {w : World} {n : Nat} (hw : Untouched w)
    (hrun : embed.Run (fun l d => only S l d = true) (initial w) c) (h : clearedAt S n c = true) :
    ∃ u r, Crashed S u c r ∧ u.advertisedVersion = n := by
  simp only [clearedAt, Bool.and_eq_true, Bool.not_eq_true', decide_eq_false_iff_not] at h
  obtain ⟨hdead, hclear⟩ := h
  split at hclear
  · rename_i author q rec ws hws
    simp only [Bool.and_eq_true, decide_eq_true_eq, Option.any_eq_true] at hclear
    obtain ⟨hauthor, u, hu, hn⟩ := hclear
    refine ⟨u, rec, ⟨⟨w, hw, hrun.mono fun _ _ _ => trivial⟩, ?_, ?_, ?_⟩, hn⟩
    · rw [hws]
      exact .clear hauthor rfl hu
    · exact fun t ht => hdead (opened_only hw hrun t (opened_of_alive ht) ▸ ht)
    · rw [Drive.lease, hws]
  · cases hclear

/-- Where nothing was started, every wallet is as it was at first. -/
theorem db_of_unstarted {w : World} (hw : Untouched w)
    (hrun : embed.Run (fun l d => only S l d = true) (initial w) c)
    (h : (c.trace.all fun x => !startsNode x.entry.request) = true) (o : String) :
    (c.world.origins o).db = (w.origins o).db := by
  refine ((Protocol.invariant_of_run admits (sound_initial hw)
    (I := fun c => (c.trace.all fun x => !startsNode x.entry.request) = true →
      (∀ o, (c.world.origins o).db = (w.origins o).db) ∧ ∀ t, ¬ c.world.Runs t) ?_ ?_ hrun).2 h).1 o
  · intro _
    exact ⟨fun _ => rfl, fun t ht => by simp [World.Runs, initial, hw.pages] at ht⟩
  · intro l d d' _ _ hI _ hd hall
    have hnone : ∀ {i j q a}, Effected l d d' i j q a → startsNode q = true → False := by
      intro i j q a he hq
      rw [he.trace] at hall
      simp [hq] at hall
    have hbefore : (d.trace.all fun x => !startsNode x.entry.request) = true := by
      rcases trace_step hd with htr | ⟨i, j, q, a, he⟩
      · exact htr ▸ hall
      · rw [he.trace, List.all_cons, Bool.and_eq_true] at hall
        exact hall.2
    obtain ⟨hdb, hruns⟩ := hI hbefore
    refine ⟨fun o => ?_, fun t ht => ?_⟩
    · rcases db_step hd o with hsame | ⟨t, hr, -⟩ | ⟨i, j, q, a, he, hq, -⟩
      · exact hsame.trans (hdb o)
      · exact absurd hr (hruns t)
      · exact (hnone he hq).elim
    · rcases runs_step hd ht with hr | ⟨i, j, q, a, he, -, hq⟩
      · exact hruns t hr
      · exact hnone he hq

/-- An empty origin that was forced and died before it restored anything halts again. -/
theorem halts_again_empty :
    ∃ S u c r c', Crashed S u c r ∧
      embed.Run (fun l d => leavesClaim r l d = true) (initial (afterlife c.world)) c' ∧
      halted "b2" c' = true ∧ NoStaleStart u.advertisedVersion c' ∧
      ∀ i : HandoffProofInputs, i.lease = some r → i.override = false →
        i.postClaimLease.bind (·.handoffAck) = none →
        ((evaluateHandoffProof i).isProven = true ↔
          i.localSeedPresent = true ∧ r.heartbeatStateVersion ≤ i.localStateVersion) := by
  have hw : Untouched afterDeath := predecessor.untouched
  obtain ⟨c, hrun, hf⟩ := Machine.Run.exists_of_play (M := embed) (g := only "b1")
    (c := initial afterDeath) (s := forceEmptyAndDie)
    (f := fun c => clearedAt "b1" 7 c && ((c.trace.all fun x => !startsNode x.entry.request) &&
      thenPlay submitAgain (halted "b2") c)) (by decide +kernel)
  simp only [Bool.and_eq_true] at hf
  obtain ⟨hclear, hunstarted, hthen⟩ := hf
  obtain ⟨u, r, hcrash, hn⟩ := of_clearedAt hw hrun hclear
  rw [thenPlay, hcrash.left, Option.any_some] at hthen
  obtain ⟨c', hrun', hf'⟩ := Machine.Run.exists_of_play hthen
  have hbehind : ∀ o, AtLeast r.heartbeatStateVersion u.advertisedVersion (c.world.origins o).db := by
    intro o hseed _
    rw [db_of_unstarted hw hrun hunstarted] at hseed ⊢
    rw [hn]
    by_cases ho : o = "a.example"
    · simp [afterDeath, ho]
    · simp [afterDeath, ho] at hseed
  exact ⟨"b1", u, c, r, c', hcrash, hrun', hf', halts_again hcrash hbehind hrun'⟩

/-- An old wallet that was forced and died, before it was even started, starts at the next boot with
a new owner token, at version 5 where the predecessor had advertised 9. -/
theorem not_halts_again : ∃ S u c r c', Crashed S u c r ∧ c.world.drive.uploads = [] ∧
    embed.Run (fun l d => leavesClaim r l d = true) (initial (afterlife c.world)) c' ∧
    ¬ NoStaleStart u.advertisedVersion c' := by
  have hw : Untouched oldWallet := ⟨fun _ => rfl, rfl, rfl, rfl⟩
  obtain ⟨c, hrun, hf⟩ := Machine.Run.exists_of_play (M := embed) (g := only "a1")
    (c := initial oldWallet) (s := forceAndDie)
    (f := fun c => clearedAt "a1" 9 c && (c.world.drive.uploads.isEmpty &&
      thenPlay bootAgain (startedBelow 9) c)) (by decide +kernel)
  simp only [Bool.and_eq_true, List.isEmpty_iff] at hf
  obtain ⟨hclear, huploads, hthen⟩ := hf
  obtain ⟨u, r, hcrash, hn⟩ := of_clearedAt hw hrun hclear
  rw [thenPlay, hcrash.left, Option.any_some] at hthen
  obtain ⟨c', hrun', hf'⟩ := Machine.Run.exists_of_play hthen
  refine ⟨"a1", u, c, r, c', hcrash, huploads, hrun', fun hno => ?_⟩
  simp only [startedBelow, List.any_eq_true, Bool.and_eq_true, decide_eq_true_eq] at hf'
  obtain ⟨x, hx, hstart, hbelow⟩ := hf'
  have hle := (hno x hx hstart).2
  rw [hn] at hle
  omega

end LibreWallet.Embed.OverrideCrash
