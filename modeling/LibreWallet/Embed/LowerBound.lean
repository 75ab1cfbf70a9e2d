import LibreWallet.Embed.Runs

/-
  Embed/LowerBound.lean --- what a comparison with the advertised version proves.

  A lease record says what version its writer was at when it wrote.  The writer goes
  on, and may die before it writes again, so the record is a lower bound on where it
  stopped.  `via: "local-state"` compares with that bound: it is sound exactly as far
  as every holder behind the judged record stopped at what its record said.
-/

set_option autoImplicit false

namespace LibreWallet.Embed

open Async Controller Roaming

/-! ## The chain of holders -/

/-- `q` was taken over, live, somewhere in the chain of records behind `r`: what each
record was built from is followed back, until a released record or a forced clear
cuts the chain. -/
inductive TakenOver (d : Drive) : RoamingLeaseRecord → RoamingLeaseRecord → Prop where
  | claimed {x : Written} {site : ReadSite} {q : RoamingLeaseRecord} :
      x ∈ d.writes → x.how = .claim site (some q) → site ≠ .clear → q.phase = .live →
      q.owner ≠ x.author → TakenOver d x.record q
  | before {x : Written} {site : ReadSite} {p q : RoamingLeaseRecord} :
      x ∈ d.writes → x.how = .claim site (some p) → site ≠ .clear → p.phase = .live →
      TakenOver d p q → TakenOver d x.record q
  | copied {x : Written} {base q : RoamingLeaseRecord} :
      x ∈ d.writes → x.how = .ack base ∨ x.how = .release base ∨ x.how = .keepalive base →
      TakenOver d base q → TakenOver d x.record q

/-- The last record of each holder recorded in the chain of `r`. -/
def InChain (d : Drive) (r q : RoamingLeaseRecord) : Prop := q = r ∨ TakenOver d r q

/-- A node of the page of `t` stopped at version `n`. -/
def StoppedAt (w : World) (t : String) (n : Nat) : Prop := ∃ o, Note.stopped t o n ∈ w.log

/-- The local-state proof is sound: who was proven by it is at least where each
holder in the chain stopped. -/
def LocalStateSound (c : EmbedConfig) : Prop :=
  ∀ t i r, Note.evaluated t i ∈ c.world.log → evaluateHandoffProof i = .proven .localState →
    i.lease = some r → ∀ q, InChain c.world.drive r q →
    ∀ n, StoppedAt c.world q.owner n → n ≤ i.localStateVersion

/-- Where a live record was judged by a local wallet at its version, whoever stands in
its chain stopped at no more than that record, or the one it was taken over at, says. -/
def StoppedAsAdvertised (c : EmbedConfig) : Prop :=
  ∀ t i r, Note.evaluated t i ∈ c.world.log → i.lease = some r → r.phase = .live →
    i.localSeedPresent = true → advertisedVersionOf r ≤ i.localStateVersion →
    ∀ q, InChain c.world.drive r q →
    ∀ n, StoppedAt c.world q.owner n → n ≤ q.heartbeatStateVersion

/-! ## How records are built -/

/-- A record is built from what it says it was built from. -/
def Shaped (x : Written) : Prop :=
  match x.how with
  | .claim site prev => ∃ opts : BuildOpts,
      x.record = buildLeaseRecord opts ∧ opts.ownerToken = x.author ∧ opts.previous = prev ∧
        opts.clearPredecessor = decide (site = .clear)
  | .ack base | .release base | .keepalive base =>
      x.record.unprovenPredecessor = base.unprovenPredecessor

theorem shaped_of_writeOk {j : Job} {h : List RoamEntry} {how : WriteKind}
    {rec : RoamingLeaseRecord} {w : World} (hok : WriteOk j h how rec w) :
    Shaped ⟨j.token, how, rec⟩ := by
  cases how with
  | claim site prev =>
    obtain ⟨info, w₀, w₁, earlier, origin, appName, now, -, rfl, -⟩ := hok
    exact ⟨_, rfl, rfl, rfl, rfl⟩
  | ack base =>
    obtain ⟨-, -, v, now, rfl⟩ := hok
    rfl
  | release base =>
    obtain ⟨-, clean, v, now, rfl, -⟩ := hok
    rfl
  | keepalive base =>
    obtain ⟨-, -, clean, v, now, rfl⟩ := hok
    rfl

/-- Every record in the file's history is. -/
theorem shaped_of_run {w : World} (hw : Untouched w) {c : EmbedConfig}
    (hrun : Reaches (initial w) c) :
    ∀ x ∈ c.world.drive.writes, Shaped x := by
  refine (Protocol.invariant_of_run admits (sound_initial hw)
    (I := fun c => ∀ x ∈ c.world.drive.writes, Shaped x) ?_ ?_ hrun).2
  · simp [initial, hw.writes]
  · intro l d d' _ _ hI _ hd x hx
    rcases writes_step hd with h | ⟨i, j, how, rec, r, he, h⟩
    · exact hI x (h ▸ hx)
    · rw [h] at hx
      rcases List.mem_cons.mp hx with rfl | hx
      · exact shaped_of_writeOk he.obliged.2
      · exact hI x hx

/-! ## What a record carries -/

/-- What a claim over a live record carries bounds what that record did. -/
theorem advertised_le_of_claim {x : Written} {site : ReadSite} {p : RoamingLeaseRecord}
    (hx : Shaped x) (hhow : x.how = .claim site (some p)) (hsite : site ≠ .clear)
    (hp : p.phase = .live) :
    (p.owner ≠ x.author → ∃ u, x.record.unprovenPredecessor = some u ∧
        u.advertisedVersion = advertisedVersionOf p) ∧
      (p.owner = x.author → x.record.unprovenPredecessor = p.unprovenPredecessor) := by
  rw [Shaped, hhow] at hx
  obtain ⟨opts, hrec, hauthor, hprev, hclear⟩ := hx
  rw [hrec]
  simp only [buildLeaseRecord, hclear, hsite, decide_false, Bool.false_eq_true, if_false, hprev,
    carryPredecessor, hp, reduceCtorEq, hauthor]
  constructor
  · intro hne
    exact ⟨_, if_neg hne, rfl⟩
  · intro heq
    exact if_pos heq

/-- Whoever was taken over in the chain of a record is bounded by what the record
carries, as far as its own record bounds it. -/
theorem carried_of_takenOver {d : Drive} (hd : ∀ x ∈ d.writes, Shaped x)
    {r q : RoamingLeaseRecord} (h : TakenOver d r q) :
    ∃ u, r.unprovenPredecessor = some u ∧ q.heartbeatStateVersion ≤ u.advertisedVersion := by
  induction h with
  | claimed hx hhow hsite hq hne =>
    obtain ⟨u, hu, hadv⟩ := (advertised_le_of_claim (hd _ hx) hhow hsite hq).1 hne
    exact ⟨u, hu, hadv ▸ Nat.le_max_left _ _⟩
  | @before x site p q hx hhow hsite hp _ ih =>
    obtain ⟨u, hu, hle⟩ := ih
    obtain ⟨htaken, hrenewed⟩ := advertised_le_of_claim (hd _ hx) hhow hsite hp
    by_cases howner : p.owner = x.author
    · exact ⟨u, (hrenewed howner).trans hu, hle⟩
    · obtain ⟨v, hv, hadv⟩ := htaken howner
      refine ⟨v, hv, Nat.le_trans hle ?_⟩
      rw [hadv, advertisedVersionOf, hu]
      exact Nat.le_max_right _ _
  | @copied x base q hx hhow _ ih =>
    have hshape := hd _ hx
    rw [Shaped] at hshape
    rcases hhow with h | h | h <;> rw [h] at hshape <;> rw [hshape] <;> exact ih

theorem advertised_of_inChain {d : Drive} (hd : ∀ x ∈ d.writes, Shaped x)
    {r q : RoamingLeaseRecord} (h : InChain d r q) :
    q.heartbeatStateVersion ≤ advertisedVersionOf r := by
  rcases h with rfl | h
  · exact Nat.le_max_left _ _
  · obtain ⟨u, hu, hle⟩ := carried_of_takenOver hd h
    rw [advertisedVersionOf, hu]
    exact Nat.le_trans hle (Nat.le_max_right _ _)

/-! ## Main results -/

/-- Where every holder in the chain stopped as advertised, the comparison is sound. -/
theorem localState_sound {w : World} (hw : Untouched w) {c : EmbedConfig}
    (hrun : Reaches (initial w) c) (hstop : StoppedAsAdvertised c) : LocalStateSound c := by
  intro t i r hnote hproof hlease q hq n hn
  obtain ⟨r', hr', hlive, hseed, hle⟩ := evaluateHandoffProof_localState hproof
  cases hlease.symm.trans hr'
  calc n ≤ q.heartbeatStateVersion := hstop t i r hnote hlease hlive hseed hle q hq n hn
    _ ≤ advertisedVersionOf r := advertised_of_inChain (shaped_of_run hw hrun) hq
    _ ≤ i.localStateVersion := hle

/-- Who was taken over is named by the claim that did it. -/
theorem takenOver_mem {d : Drive} {r q : RoamingLeaseRecord} (h : TakenOver d r q) :
    ∃ x ∈ d.writes, ∃ site, x.how = .claim site (some q) ∧ q.owner ≠ x.author := by
  induction h with
  | claimed hx hhow _ _ hne => exact ⟨_, hx, _, hhow, hne⟩
  | before _ _ _ _ _ ih => exact ih
  | copied _ _ _ ih => exact ih

namespace Examples

/-- `a.example` is at version 5, every other origin at `v`; nothing is on Drive. -/
def twoOrigins (v : Nat) : World where
  clock := 200000
  drive := { firstLease := none, firstBackup := none }
  origins := fun o =>
    let n := if o = "a.example" then 5 else v
    { db := { seed := some "seed", stateVersion := n, channelManager := true }, mirror := n }
  pages := fun _ => {}

theorem untouched_twoOrigins (v : Nat) : Untouched (twoOrigins v) :=
  ⟨fun _ => rfl, rfl, rfl, rfl⟩

/-- `a.example` boots, starts its node, and advances to version 6. -/
def runToSix : List (Line Choice Event) :=
  [.event (.openPage "a1" "a.example" none), .event (.boot "a1"), .go 0 .ok 9,
   .event (.pass 2000), .go 0 .ok 20, .event (.pass 5000), .go 0 .ok 20, .event (.advance "a1")]

/-- It renews its lease before it dies. -/
def renew : List (Line Choice Event) :=
  [.event (.pass 40000), .event (.heartbeat "a1"), .go 1 .ok 20]

/-- It dies, and `b.example` boots after the lease has expired; `i` is its procedure. -/
def dieAndBoot (i : Nat) : List (Line Choice Event) :=
  [.event (.closePage "a1"), .event (.pass 120000), .event (.openPage "b1" "b.example" none),
   .event (.boot "b1"), .go i .ok 9, .event (.pass 2000), .go i .ok 20]

/-- Every node of `t` stopped at `v` or below. -/
def stoppedBy (w : World) (t : String) (v : Nat) : Bool :=
  w.log.all fun
    | .stopped u _ n => u ≠ t || n ≤ v
    | _ => true

theorem stoppedBy_iff {w : World} {t : String} {v : Nat} :
    stoppedBy w t v = true ↔ ∀ n, StoppedAt w t n → n ≤ v := by
  simp only [stoppedBy, List.all_eq_true, StoppedAt]
  constructor
  · rintro h n ⟨o, hn⟩
    simpa using h _ hn
  · intro h n hn
    cases n with
    | stopped u o n =>
      by_cases hu : u = t
      · subst hu
        simpa using h n ⟨o, hn⟩
      · simp [hu]
    | _ => rfl

/-- Some session was proven by local state, on inputs and a record with `p`. -/
def provenLocally (c : EmbedConfig) (p : HandoffProofInputs → RoamingLeaseRecord → Bool) : Bool :=
  c.world.log.any fun
    | .evaluated _ i =>
      evaluateHandoffProof i = .proven .localState && i.lease.any (p i)
    | _ => false

theorem of_provenLocally {c : EmbedConfig} {p : HandoffProofInputs → RoamingLeaseRecord → Bool}
    (h : provenLocally c p = true) : ∃ t i r, Note.evaluated t i ∈ c.world.log ∧
      evaluateHandoffProof i = .proven .localState ∧ i.lease = some r ∧ p i r = true := by
  simp only [provenLocally, List.any_eq_true] at h
  obtain ⟨n, hn, h⟩ := h
  cases n with
  | evaluated t i =>
    simp only [Bool.and_eq_true, decide_eq_true_eq] at h
    obtain ⟨r, hr⟩ := Option.isSome_iff_exists.mp (Option.isSome_of_any h.2)
    simp only [hr, Option.any_some] at h
    exact ⟨t, i, r, hn, h.1, hr, h.2⟩
  | _ => cases h

/-- The owner of every record that was judged or taken over stopped as that record
says. -/
def ownersAsAdvertised (c : EmbedConfig) : Bool :=
  (c.world.log.all fun
    | .evaluated _ i => i.lease.all fun r => stoppedBy c.world r.owner r.heartbeatStateVersion
    | _ => true) &&
  c.world.drive.writes.all fun x =>
    match x.how with
    | .claim _ (some q) =>
      q.owner = x.author || stoppedBy c.world q.owner q.heartbeatStateVersion
    | _ => true

theorem of_ownersAsAdvertised {c : EmbedConfig} (h : ownersAsAdvertised c = true) :
    StoppedAsAdvertised c := by
  simp only [ownersAsAdvertised, Bool.and_eq_true, List.all_eq_true] at h
  obtain ⟨hjudged, htaken⟩ := h
  rintro t i r hnote hlease - - - q (rfl | hq)
  · have hi := hjudged _ hnote
    simp only [hlease, Option.all_some] at hi
    exact stoppedBy_iff.mp hi
  · obtain ⟨x, hx, site, hhow, hne⟩ := takenOver_mem hq
    have hi := htaken x hx
    simp only [hhow, hne, decide_false, Bool.false_or] at hi
    exact stoppedBy_iff.mp hi

end Examples

open Examples in
/-- The old database of an origin that is where the dead holder stopped is proven. -/
theorem localState_sound_run :
    ∃ c, Reaches (initial (twoOrigins 6)) c ∧
      provenLocally c (fun i r => r.owner = "a1" && i.localStateVersion = 6) = true ∧
      LocalStateSound c := by
  obtain ⟨c, hrun, hf⟩ := Reaches.exists_of_play
    (c := initial (twoOrigins 6)) (s := runToSix ++ renew ++ dieAndBoot 2)
    (f := fun c => ownersAsAdvertised c &&
      provenLocally c fun i r => r.owner = "a1" && i.localStateVersion = 6) (by decide +kernel)
  rw [Bool.and_eq_true] at hf
  exact ⟨c, hrun, hf.2,
    localState_sound (untouched_twoOrigins 6) hrun (of_ownersAsAdvertised hf.1)⟩

open Examples in
/-- A holder advances after its last write and dies; an origin at the version it last
advertised is proven. -/
theorem localState_unsound :
    ∃ (w : World) (c : EmbedConfig), Untouched w ∧
      Reaches (initial w) c ∧ ¬ LocalStateSound c := by
  obtain ⟨c, hrun, hf⟩ := Reaches.exists_of_play
    (c := initial (twoOrigins 5)) (s := runToSix ++ dieAndBoot 1)
    (f := fun c => provenLocally c fun i r => !stoppedBy c.world r.owner i.localStateVersion)
    (by decide +kernel)
  refine ⟨twoOrigins 5, c, untouched_twoOrigins 5, hrun, fun h => ?_⟩
  obtain ⟨t, i, r, hnote, hproof, hlease, habove⟩ := of_provenLocally hf
  have hbelow := stoppedBy_iff.mpr (h t i r hnote hproof hlease r (.inl rfl))
  rw [hbelow] at habove
  cases habove

end LibreWallet.Embed
