import LibreWallet.Embed.Runs

/-
  Embed/Laundering.lean --- can a halt be laundered away?

  A predecessor P left a live, un-acked lease record and never acts again.  Other
  origins boot, take over, restore, close and reload in any order.  As long as no
  close path stamps `released` (or an ack) on a record that carries P, every
  record the lease file ever holds still carries P's advertised version, and only a
  session that has a seed and at least that version gets to start.  A session that
  never ran, but owns the lease, does stamp `released` when it is disposed, and
  that is how a stale origin gets in.
-/

set_option autoImplicit false

namespace LibreWallet.Embed

open Async Controller Roaming

/-- The predecessor's record: neither released nor acked. -/
structure Predecessor (P : RoamingLeaseRecord) (w : World) : Prop where
  untouched : Untouched w
  lease : w.drive.firstLease = some P
  live : P.phase = .live
  unacked : P.handoffAck = none

/-- The session has a local seed and state at `L` or above. -/
def Holder (L : Nat) (w : World) (token : String) : Prop :=
  (w.store token).db.seed.isSome = true ∧ L ≤ (w.store token).db.stateVersion

/-- Whoever asked for a restore or a start held state at `L` or above. -/
def NoStaleStart (L : Nat) (c : EmbedConfig) : Prop :=
  ∀ x ∈ c.trace, startsNode x.entry.request = true → Holder L x.entry.before x.job.token

/-- No proof can be made of what the lease file holds by a session that is behind
`L` or has no seed. -/
def NothingToProve (L : Nat) (c : EmbedConfig) : Prop :=
  ∀ i : HandoffProofInputs, i.lease = c.world.drive.lease →
    (∀ r, i.postClaimLease = some r → c.world.drive.Held (some r)) → i.override = false →
    i.localSeedPresent = false ∨ i.localStateVersion < L →
    (evaluateHandoffProof i).isProven = false

/-- What the other origins may do at all: P does not come back, and nobody forces a
restore. -/
def roams (P : RoamingLeaseRecord) (l : EmbedLabel) (_ : EmbedConfig) : Bool :=
  match l with
  | .event (.openPage t _ _) => t ≠ P.owner
  | .event (.forceRestoreAnyway _) => false
  | _ => true

/-- When a close path leaves P's claim alone: `release` does not find the lease its
own, nobody acks, a pagehide has nothing to write or something unflushed, and a
backup that a boot reads is one that its seed decrypts. -/
def leavesClaim (P : RoamingLeaseRecord) (l : EmbedLabel) (c : EmbedConfig) : Bool :=
  roams P l c &&
    match l with
    | .event (.pageHide t) =>
      let p := c.world.pages t
      p.lastWritten.isNone || p.flushedVersion < p.localVersion
    | .call i _ =>
      match c.awaits i with
      | some (j, .leaseRead .release) => !c.world.drive.lease.any (·.owner = j.token)
      | some (_, .leaseRead .ack) => false
      | some (j, .verifyEnvelope envelope secret) =>
        j.verb = .submitSecret || secret = envelope.seedHex
      | _ => true
    | _ => true

/-! ## What the lease file holds -/

/-- A live record that carries a predecessor at `L` or above. -/
structure Carries (L : Nat) (r : RoamingLeaseRecord) : Prop where
  live : r.phase = .live
  unacked : r.handoffAck = none
  carried : ∃ u, r.unprovenPredecessor = some u ∧ L ≤ u.advertisedVersion

theorem Carries.advertised {L : Nat} {r : RoamingLeaseRecord} (h : Carries L r) :
    L ≤ advertisedVersionOf r := by
  obtain ⟨u, hu, hL⟩ := h.carried
  simp only [advertisedVersionOf, hu, Option.map_some, Option.getD_some]
  exact Nat.le_trans hL (Nat.le_max_right _ _)

/-- A claim over a record that carries P, or over P's own, carries P. -/
theorem carries_claim {L : Nat} {P r : RoamingLeaseRecord} {opts : BuildOpts}
    (hprev : opts.previous = some r) (hL : L = advertisedVersionOf P) (hP : P.phase = .live)
    (hr : r = P ∨ Carries L r) (hne : opts.ownerToken ≠ P.owner)
    (hclear : opts.clearPredecessor = false) : Carries L (buildLeaseRecord opts) where
  live := rfl
  unacked := rfl
  carried := by
    have hlive : r.phase ≠ .released := by
      rcases hr with rfl | hr
      · rw [hP]
        decide
      · rw [hr.live]
        decide
    simp only [buildLeaseRecord, hclear, hprev, carryPredecessor, hlive]
    by_cases howner : r.owner = opts.ownerToken
    · rcases hr with rfl | hr
      · exact absurd howner.symm hne
      · simpa [howner] using hr.carried
    · refine ⟨⟨r.owner, r.origin, advertisedVersionOf r, opts.now⟩, by simp [howner], ?_⟩
      rcases hr with rfl | hr
      · exact Nat.le_of_eq hL
      · exact hr.advertised

/-- Against such a record only a holder has a proof. -/
theorem proven_of_carries {L : Nat} {P r : RoamingLeaseRecord} {i : HandoffProofInputs}
    (hi : i.lease = some r) (hL : L = advertisedVersionOf P) (hP : P.phase = .live)
    (hr : r = P ∨ Carries L r) (hov : i.override = false)
    (hack : i.postClaimLease.bind (·.handoffAck) = none)
    (hproof : (evaluateHandoffProof i).isProven = true) :
    i.localSeedPresent = true ∧ L ≤ i.localStateVersion := by
  have hlive : r.phase = .live := by
    rcases hr with rfl | hr
    · exact hP
    · exact hr.live
  obtain ⟨hs, hv⟩ := (evaluateHandoffProof_of_live hov hi hlive hack).mp hproof
  refine ⟨hs, Nat.le_trans ?_ hv⟩
  rcases hr with rfl | hr
  · exact Nat.le_of_eq hL
  · exact hr.advertised

/-! ## The keepalive write -/

/-- A `releaseSync` has either ended or awaits a write that leaves the record live. -/
def Quiet (p : Roam Unit) : Prop :=
  p = .done () ∨ ∃ base clean local_ now,
    p = .await (.leaseWrite (.keepalive base) (releasedRecord base clean local_ now))
      (fun _ => .done ()) ∧ clean = false

/-! ## The invariant -/

/-- What holds throughout a run that leaves P's claim alone. -/
structure ClaimStands (P : RoamingLeaseRecord) (c : EmbedConfig) : Prop where
  unforced : Unforced c
  openedThen : OpenedThen c
  gone : ¬ Opened c.world P.owner
  firstLease : c.world.drive.firstLease = some P
  carried : ∀ x ∈ c.world.drive.writes, Carries (advertisedVersionOf P) x.record
  unrestored : ∀ o, ¬ Restored c.world o
  notOurs : ∀ x ∈ c.trace, ∀ r w, x.entry = ⟨.leaseRead .release, .ok (some r), w⟩ →
    r.owner ≠ x.job.token
  notAcked : ∀ x ∈ c.trace, x.entry.request ≠ .leaseRead .ack
  decrypts : ∀ x ∈ c.trace, ∀ e k, x.entry.request = .verifyEnvelope e k →
    x.job.verb = .submitSecret ∨ k = e.seedHex
  quiet : ∀ (i : Nat) t p, c.pool[i]? = some (⟨t, .releaseSync⟩, p) → Quiet p
  starts : NoStaleStart (advertisedVersionOf P) c

namespace ClaimStands

variable {P : RoamingLeaseRecord} {c c' : EmbedConfig} {l : EmbedLabel} {w₀ : World}

/-- Every record that the file has held is P's or carries P. -/
theorem held (hI : ClaimStands P c) {r : Option RoamingLeaseRecord}
    (hr : c.world.drive.Held r) :
    ∃ rec, r = some rec ∧ (rec = P ∨ Carries (advertisedVersionOf P) rec) := by
  rcases hr with rfl | ⟨x, hx, rfl⟩
  · exact ⟨P, hI.firstLease, .inl rfl⟩
  · exact ⟨x.record, rfl, .inr (hI.carried x hx)⟩

/-- A proof on such records is a local wallet at P's version. -/
theorem proven (hI : ClaimStands P c) (hP : P.phase = .live) (hack : P.handoffAck = none)
    {i : HandoffProofInputs} (hj : Judged c.world.drive i) (hov : i.override = false)
    (hproof : (evaluateHandoffProof i).isProven = true) :
    i.localSeedPresent = true ∧ advertisedVersionOf P ≤ i.localStateVersion := by
  obtain ⟨r, hr, hcar⟩ := hI.held hj.lease
  refine proven_of_carries hr rfl hP hcar hov ?_ hproof
  cases hp : i.postClaimLease with
  | none => rfl
  | some q =>
    obtain ⟨_, hq, hcar'⟩ := hI.held (hj.postClaim q hp)
    cases hq
    rcases hcar' with rfl | hcar'
    · exact hack
    · exact hcar'.unacked

/-- The next write carries P, too. -/
theorem carried_step (hc : protocol.Sound c) (hI : ClaimStands P c) (hP : P.phase = .live)
    (hd : protocol.Did l c c') : ∀ x ∈ c'.world.drive.writes,
      Carries (advertisedVersionOf P) x.record := by
  rcases writes_step hd with h | ⟨i, j, how, rec, r, he, h⟩
  · exact h ▸ hI.carried
  intro x hx
  rw [h] at hx
  rcases List.mem_cons.mp hx with rfl | hx
  swap
  · exact hI.carried x hx
  obtain ⟨k, hpool⟩ := he.pool
  obtain ⟨hopen, hok⟩ := he.obliged
  have hgone : j.token ≠ P.owner := fun heq => hI.gone (heq ▸ hopen)
  cases how with
  | claim site prev =>
    obtain ⟨info, w₀, w₁, earlier, origin, appName, now, hh, rfl, -, -, hsite⟩ := hok
    obtain ⟨y, hy, -, hye⟩ := hc.of_mem_history hpool
      (e := ⟨.leaseRead site, .ok prev, w₀⟩) (by simp [hh])
    obtain ⟨q, rfl, hq⟩ := hI.held (held_of_read hc hy hye)
    refine carries_claim rfl rfl hP hq hgone (decide_eq_false ?_)
    rintro rfl
    have hj : j = ⟨j.token, .forceRestoreAnyway⟩ := by rw [← hsite.1]
    rw [hj] at hpool
    exact hI.unforced.pool _ _ _ hpool
  | ack base =>
    obtain ⟨-, ⟨w₀, earlier, hh⟩, -⟩ := hok
    obtain ⟨y, hy, -, hye⟩ := hc.of_mem_history hpool
      (e := ⟨.leaseRead .ack, .ok (some base), w₀⟩) (by simp [hh])
    exact absurd (by rw [hye]) (hI.notAcked y hy)
  | release base =>
    obtain ⟨⟨w₀, hread⟩, clean, v, now, -, hown, -⟩ := hok
    obtain ⟨y, hy, hyj, hye⟩ := hc.of_mem_history hpool hread
    exact absurd (hyj ▸ hown) (hI.notOurs y hy base w₀ hye)
  | keepalive base =>
    obtain ⟨hverb, ⟨y, hy, -, rfl, -, -⟩, -⟩ := hok
    have hj : j = ⟨j.token, .releaseSync⟩ := by rw [← hverb]
    rw [hj] at hpool
    rcases hI.quiet _ _ _ hpool with hq | ⟨_, _, _, _, hq, rfl⟩
    · cases hq
    · cases hq
      exact { hI.carried y hy with live := rfl }

/-- Nobody restores: without a seed there is no proof. -/
theorem not_restore (hI : ClaimStands P c) (hP : Predecessor P w₀) {i : Nat} {j : Job}
    {e : Envelope} {k : String} {r : Except Err Unit}
    (he : Effected l c c' i j (.restore e k) r) : False := by
  obtain ⟨-, -, -, v, w₁, i, -, hproof, hseed, hj, hov⟩ := he.obliged
  have hno : i.override = false := by
    rw [← Bool.not_eq_true]
    exact fun h => by simp [hI.unforced.override] at hov; simp [hov] at h
  simp [(hI.proven hP.live hP.unacked hj hno hproof).1] at hseed

/-- A start is a holder's. -/
theorem start_holds (hc : protocol.Sound c) (hI : ClaimStands P c) (hP : Predecessor P w₀)
    {i : Nat} {j : Job} {r : Except Err Unit} (he : Effected l c c' i j .startNode r) :
    Holder (advertisedVersionOf P) c.world j.token := by
  obtain ⟨k, hpool⟩ := he.pool
  obtain ⟨-, -, -, hverb, i, info, hstart, hj, hov, hload, hseed, hver, hgate⟩ := he.obliged
  have hno : i.override = false := by
    rw [← Bool.not_eq_true]
    exact fun h => by simp [hI.unforced.override] at hov; simp [hov] at h
  obtain ⟨-, hproof⟩ := roamingBootDecision_start hstart
  have hproven : i.localSeedPresent = true ∧ advertisedVersionOf P ≤ i.localStateVersion := by
    rcases hgate with hg | ⟨e, key, v, w₁, hmem, hok⟩
    · exact hI.proven hP.live hP.unacked hj hno (hproof hg)
    · -- the gate was not deferred: the backup decrypts
      obtain ⟨y, hy, rfl, hye⟩ := hc.of_mem_history hpool hmem
      have hv := verification_of_read hc hy hye
      rcases hI.decrypts y hy e key (by rw [hye]) with h | rfl
      · simp [h, boots] at hverb
      · simp [hv, verifyBackupEnvelope] at hok
  obtain ⟨w, hread⟩ := hload.mem
  obtain ⟨y, hy, rfl, hye⟩ := hc.of_mem_history hpool hread
  have hinfo := info_of_read hc hy hye
  have hpast : Evolves y.entry.before c.world := hc.past y hy
  have hopen := hI.openedThen y hy
  rw [hye] at hpast hopen
  obtain ⟨hversion, hseeds⟩ := store_grows hpast hopen (hI.unrestored _)
  rw [hseed, hver, hinfo] at hproven
  exact ⟨hseeds hproven.1, Nat.le_trans hproven.2 hversion⟩

/-- A `releaseSync` stays quiet. -/
theorem quiet_step (hc : protocol.Sound c) (hI : ClaimStands P c) (hd : protocol.Did l c c')
    (hl : leavesClaim P l c = true) :
    ∀ (i : Nat) t p, c'.pool[i]? = some (⟨t, .releaseSync⟩, p) → Quiet p := by
  intro i t p hp
  cases hd.went hc hp with
  | stayed hi _ => exact hI.quiet i t p hi
  | answered hi _ =>
    rcases hI.quiet i t _ hi with hq | ⟨_, _, _, _, hq, -⟩
    · cases hq
    · cases hq
      exact .inl rfl
  | resumed hi _ =>
    rcases hI.quiet i t _ hi with rfl | ⟨_, _, _, _, rfl, rfl⟩
    · exact .inl rfl
    · exact .inr ⟨_, _, _, _, rfl, rfl⟩
  | @called e w p' hl' he _ =>
    simp only [embed, Option.map_eq_some_iff, Prod.mk.injEq] at he
    obtain ⟨w', heff, rfl, hh⟩ := he
    cases e <;> simp [handler] at hh
    obtain ⟨rfl, rfl⟩ := hh
    simp only [effect] at heff
    split at heff
    · cases heff
      rw [releaseSync_advance]
      subst hl'
      simp only [leavesClaim, Bool.and_eq_true, Bool.or_eq_true, Option.isNone_iff_eq_none,
        decide_eq_true_eq] at hl
      cases hlw : (c.world.pages _).lastWritten with
      | none => exact .inl rfl
      | some last =>
        refine .inr ⟨_, _, _, _, rfl, ?_⟩
        rcases hl.2 with h | h
        · simp [hlw] at h
        · simpa using h
    · cases heff

/-- Before anybody else has done anything. -/
theorem initial (hP : Predecessor P w₀) : ClaimStands P (initial w₀) where
  unforced := .initial hP.untouched
  openedThen := by simp [OpenedThen, Embed.initial]
  gone := by simp [Opened, Embed.initial, hP.untouched.pages]
  firstLease := hP.lease
  carried := by simp [Embed.initial, hP.untouched.writes]
  unrestored := by simp [Restored, Embed.initial, hP.untouched.log]
  notOurs := by simp [Embed.initial]
  notAcked := by simp [Embed.initial]
  decrypts := by simp [Embed.initial]
  quiet := by simp [Embed.initial]
  starts := by simp [NoStaleStart, Embed.initial]

/-- One step of such a run. -/
theorem step (hc : protocol.Sound c) (hP : Predecessor P w₀)
    (hI : ClaimStands P c) (hl : leavesClaim P l c = true) (hd : protocol.Did l c c') :
    ClaimStands P c' where
  unforced := hI.unforced.step hd hc fun t h => by
    subst h
    simp [leavesClaim, roams] at hl
  openedThen := openedThen_step hd hI.openedThen
  gone := fun h => by
    rcases opened_step hd P.owner with h' | ⟨origin, appName, rfl, -⟩
    · exact hI.gone (h'.mp h)
    · simp [leavesClaim, roams] at hl
  firstLease := (first_step hd).1.trans hI.firstLease
  carried := hI.carried_step hc hP.live hd
  unrestored := by
    rintro o ⟨t, ht⟩
    rcases log_step hd ht with h | h
    · exact hI.unrestored o ⟨t, h⟩
    · cases h with
      | restore he => exact hI.not_restore hP he
  notOurs := by
    refine trace_forall hd hI.notOurs fun i j q r he rec w hx => ?_
    cases hx
    obtain ⟨ch, rfl, hex⟩ := he.label
    simp only [exec, Option.some.injEq, Prod.mk.injEq] at hex
    have hlease : c.world.drive.lease = some rec := by
      cases ch <;> simp at hex
      exact hex.1
    simp only [leavesClaim, he.awaits, hlease, Option.any_some, Bool.and_eq_true,
      Bool.not_eq_true', decide_eq_false_iff_not] at hl
    exact hl.2
  notAcked := by
    refine trace_forall hd hI.notAcked fun i j q r he hq => ?_
    subst hq
    obtain ⟨ch, rfl, -⟩ := he.label
    simp [leavesClaim, he.awaits] at hl
  decrypts := by
    refine trace_forall hd hI.decrypts fun i j q r he e k hq => ?_
    subst hq
    obtain ⟨ch, rfl, -⟩ := he.label
    simp only [leavesClaim, he.awaits, Bool.and_eq_true, Bool.or_eq_true, decide_eq_true_eq] at hl
    exact hl.2
  quiet := hI.quiet_step hc hd hl
  starts := by
    refine trace_forall hd hI.starts fun i j q r he hstart => ?_
    cases q <;> simp only [startsNode, reduceCtorEq] at hstart
    · exact hI.start_holds hc hP he
    · exact (hI.not_restore hP he).elim

end ClaimStands

/-! ## Main results -/

/-- Where every step leaves P's claim alone, only a holder ever restores or starts, and
what the lease file holds is no proof for anyone else. -/
theorem no_stale_start_of_leavesClaim {w : World} {P : RoamingLeaseRecord}
    (hP : Predecessor P w) {c : EmbedConfig}
    (hrun : embed.Run (fun l d => leavesClaim P l d = true) (initial w) c) :
    NoStaleStart (advertisedVersionOf P) c ∧ NothingToProve (advertisedVersionOf P) c := by
  obtain ⟨-, hI⟩ := Protocol.invariant_of_run admits (sound_initial hP.untouched)
    (ClaimStands.initial hP)
    (fun l d d' hd _ hI hl hdid => hI.step hd hP hl hdid) hrun
  refine ⟨hI.starts, fun i hlease hpost hov hstale => ?_⟩
  rw [← Bool.not_eq_true]
  intro hproof
  have hj : Judged c.world.drive i := ⟨hlease ▸ c.world.drive.held_lease, hpost⟩
  obtain ⟨hseed, hver⟩ := hI.proven hP.live hP.unacked hj hov hproof
  rcases hstale with h | h
  · simp [hseed] at h
  · omega

namespace Examples

/-- P died at version 7 or above. -/
def deadRecord : RoamingLeaseRecord :=
  { owner := "p", origin := "p.example", acquiredAt := 0, expiresAt := 120000, seq := 4
    heartbeatStateVersion := 7, phase := .live }

/-- `a.example` was at version 9 once, every other origin is empty, and the backup is
at version 3. -/
def afterDeath : World where
  clock := 200000
  drive := { firstLease := some deadRecord
             firstBackup := some { seedHex := "seed", stateVersion := 3 } }
  origins := fun o =>
    if o = "a.example" then
      { db := { seed := some "seed", stateVersion := 9, channelManager := true }, mirror := 9 }
    else { db := { seed := none, stateVersion := 0, channelManager := false } }
  pages := fun _ => {}

theorem predecessor : Predecessor deadRecord afterDeath where
  untouched := ⟨fun _ => rfl, rfl, rfl, rfl⟩
  lease := rfl
  live := rfl
  unacked := rfl

/-- An empty origin boots, is halted on P's claim, and dies. -/
def haltAndDie : List (Line Choice Event) :=
  [.event (.openPage "b1" "b.example" none), .event (.boot "b1"), .go 0 .ok 9,
   .event (.pass 2000), .go 0 .ok 20,
   .event (.submitSecret "b1" "seed"), .go 1 .ok 9, .event (.closePage "b1")]

/-- The holder boots once that lease has expired, and starts its node. -/
def holderComes : List (Line Choice Event) :=
  [.event (.pass 120000), .event (.openPage "a1" "a.example" none), .event (.boot "a1"),
   .go 2 .ok 9, .event (.pass 2000), .go 2 .ok 20, .event (.pass 5000), .go 2 .ok 20]

/-- The same empty origin is disposed of before it dies, and comes back. -/
def haltAndDispose : List (Line Choice Event) :=
  [.event (.openPage "b1" "b.example" none), .event (.boot "b1"), .go 0 .ok 9,
   .event (.pass 2000), .go 0 .ok 20,
   .event (.submitSecret "b1" "seed"), .go 1 .ok 9,
   .event (.dispose "b1"), .go 2 .ok 9, .event (.closePage "b1"),
   .event (.openPage "b2" "b.example" none), .event (.boot "b2"), .go 3 .ok 9,
   .event (.pass 2000), .go 3 .ok 20,
   .event (.submitSecret "b2" "seed"), .go 4 .ok 9]

/-- Some page asked for a start or a restore, with a seed or without. -/
def startedWith (seed : Bool) (c : EmbedConfig) : Bool :=
  c.trace.any fun x =>
    startsNode x.entry.request &&
      (x.entry.before.store x.job.token).db.seed.isSome == seed

end Examples

open Examples in
/-- In a run where an empty origin halts and dies, the holder still gets to start. -/
theorem no_stale_start_of_leavesClaim_run :
    ∃ c, embed.Run (fun l d => leavesClaim deadRecord l d = true) (initial afterDeath) c ∧
      startedWith true c = true ∧ NoStaleStart 7 c ∧ NothingToProve 7 c := by
  obtain ⟨c, hrun, hf⟩ := Machine.Run.exists_of_play (M := embed)
    (g := leavesClaim deadRecord) (c := initial afterDeath) (s := haltAndDie ++ holderComes)
    (f := startedWith true) (by decide +kernel)
  exact ⟨c, hrun, hf, no_stale_start_of_leavesClaim predecessor hrun⟩

open Examples in
/-- Nobody forces a restore, and yet an origin without a seed restores: the session
that halted owns the lease, so its `dispose` stamps `released` over P's claim. -/
theorem halt_laundered :
    ∃ (w : World) (P : RoamingLeaseRecord) (c : EmbedConfig), Predecessor P w ∧
      embed.Run (fun l d => roams P l d = true) (initial w) c ∧
      ¬ NoStaleStart (advertisedVersionOf P) c := by
  obtain ⟨c, hrun, hf⟩ := Machine.Run.exists_of_play (M := embed)
    (g := roams deadRecord) (c := initial afterDeath) (s := haltAndDispose)
    (f := startedWith false) (by decide +kernel)
  refine ⟨afterDeath, deadRecord, c, predecessor, hrun, fun h => ?_⟩
  simp only [startedWith, List.any_eq_true, Bool.and_eq_true, beq_iff_eq] at hf
  obtain ⟨x, hx, hstart, hseed⟩ := hf
  simp [(h x hx hstart).1] at hseed

end LibreWallet.Embed
