import LibreWallet.Embed.Confirmation

/-
  Embed/Retake.lean --- what an evicted lease object still writes.

  A lease object that has read another owner goes on writing: the ack of its handoff, a renewal
  that was already under way, a release, and the write of a page that dies.  Only the ack is built
  from a record that need not be its own, and only as far as nobody has claimed the file between
  the ack's read and its write; the write of a dying page is built from the record it wrote last.
-/

set_option autoImplicit false

namespace LibreWallet.Embed.Retake

open Async Controller Roaming

/-! ## The vocabulary -/

/-- The lease object of `t` has read another owner's record, and has neither been asked to acquire
the lease since nor claimed it. -/
def evicted (t : String) : List EmbedEffect → Bool
  | [] => false
  | x :: earlier =>
    if x.job.token = t then
      match x.entry with
      | ⟨.leaseRead .acquire, .ok (some r), _⟩ => decide (r.owner ≠ t)
      | ⟨.leaseRead .acquire, _, _⟩ => false
      | ⟨.leaseRead _, .ok (some r), _⟩ => decide (r.owner ≠ t) || evicted t earlier
      | ⟨.leaseWrite (.claim .acquire _) _, .ok (), _⟩ => false
      | _ => evicted t earlier
    else evicted t earlier

/-- The write is that of an `acquire`. -/
def acquires : WriteKind → Bool
  | .claim .acquire _ => true
  | _ => false

/-- The owner, the expiry, the phase, the version and the predecessor are the same. -/
structure SameClaim (r r' : RoamingLeaseRecord) : Prop where
  owner : r.owner = r'.owner
  expiry : r.expiresAt = r'.expiresAt
  phase : r.phase = r'.phase
  version : r.heartbeatStateVersion = r'.heartbeatStateVersion
  predecessor : r.unprovenPredecessor = r'.unprovenPredecessor

/-- A write of `t` that finds `w`: it does not leave the file with the token of `t`, and what another
claimant has written stays. -/
structure Yields (t : String) (w : World) (record : RoamingLeaseRecord) : Prop where
  foreign : record.owner ≠ t
  kept : ∀ r, w.drive.lease = some r → r.owner ≠ t → SameClaim record r

/-- No write of a lease object that was evicted takes the lease back. -/
def NeverRetakes (c : EmbedConfig) (x : Written) : Prop :=
  evicted x.author c.trace = true → acquires x.how = false → Yields x.author c.world x.record

/-- An ack that has read another owner's record, and finds that claim unchanged in the file when it
writes: nobody else has claimed, renewed or released the lease between the two. -/
def Merges (t : String) (w : World) : WriteKind → Prop
  | .ack base => base.owner ≠ t ∧ ∀ r, w.drive.lease = some r → r.owner ≠ t → SameClaim base r
  | _ => False

/-- Of a lease object that was evicted only such an ack lands. -/
def OnlyMerges (c : EmbedConfig) (x : Written) : Prop :=
  evicted x.author c.trace = true → acquires x.how = false → Merges x.author c.world x.how

/-! ## What each write leaves -/

variable {t : String} {w : World} {j : Job} {h : List RoamEntry} {record base : RoamingLeaseRecord}

/-- A write with the token of `t` takes the lease back. -/
theorem not_yields_of_owner (ho : record.owner = t) : ¬ Yields t w record :=
  fun hy => hy.foreign ho

/-- A renewal, or the write of `clearPredecessor`, carries the page's own token. -/
theorem owner_of_claim {site : ReadSite} {previous : Option RoamingLeaseRecord}
    (hw : WriteOk j h (.claim site previous) record w) : record.owner = j.token := by
  obtain ⟨info, w₀, w₁, earlier, origin, appName, now, -, rfl, -⟩ := hw
  rfl

/-- A release is made over the page's own record. -/
theorem owner_of_release (hw : WriteOk j h (.release base) record w) : record.owner = j.token := by
  obtain ⟨-, clean, local_, now, rfl, hbase, -⟩ := hw
  exact hbase

/-- A page that dies writes over the record that it wrote last. -/
theorem owner_of_keepalive (hw : WriteOk j h (.keepalive base) record w) : record.owner = j.token := by
  obtain ⟨-, ⟨x, -, -, -, hbase, -⟩, clean, local_, now, rfl⟩ := hw
  exact hbase

/-- An ack keeps the claim of the record that it has read. -/
theorem sameClaim_of_ack (hw : WriteOk j h (.ack base) record w) : SameClaim record base := by
  obtain ⟨-, -, flushedVersion, now, rfl⟩ := hw
  exact ⟨rfl, rfl, rfl, rfl, rfl⟩

theorem SameClaim.symm {r r' : RoamingLeaseRecord} (hr : SameClaim r r') : SameClaim r' r :=
  ⟨hr.owner.symm, hr.expiry.symm, hr.phase.symm, hr.version.symm, hr.predecessor.symm⟩

theorem SameClaim.trans {r r' r'' : RoamingLeaseRecord} (hr : SameClaim r r') (hr' : SameClaim r' r'') :
    SameClaim r r'' :=
  ⟨hr.owner.trans hr'.owner, hr.expiry.trans hr'.expiry, hr.phase.trans hr'.phase,
    hr.version.trans hr'.version, hr.predecessor.trans hr'.predecessor⟩

/-- A write that is not an `acquire`'s yields exactly when it is an ack that merges. -/
theorem yields_iff_merges {how : WriteKind} (hw : WriteOk j h how record w) :
    Yields j.token w record ↔ Merges j.token w how := by
  cases how with
  | claim site previous => exact iff_of_false (not_yields_of_owner (owner_of_claim hw)) id
  | release base => exact iff_of_false (not_yields_of_owner (owner_of_release hw)) id
  | keepalive base => exact iff_of_false (not_yields_of_owner (owner_of_keepalive hw)) id
  | ack base =>
    have hsame := sameClaim_of_ack hw
    constructor
    · rintro ⟨hforeign, hkept⟩
      refine ⟨?_, fun r hr ho => ?_⟩
      · rwa [← hsame.owner]
      · exact hsame.symm.trans (hkept r hr ho)
    · rintro ⟨hforeign, hkept⟩
      refine ⟨?_, fun r hr ho => ?_⟩
      · rwa [hsame.owner]
      · exact hsame.trans (hkept r hr ho)

/-! ## Every run -/

/-- Whoever adds to the lease file was obliged to. -/
theorem writeOk_of_landed {c c' : EmbedConfig} {l : EmbedLabel} {x : Written} (hd : protocol.Did l c c')
    (hx : c'.world.drive.writes = x :: c.world.drive.writes) :
    ∃ i j, j.token = x.author ∧ WriteOk j (c.history i) x.how x.record c.world := by
  rcases writes_step hd with hsame | ⟨i, j, how, record, r, he, hwrites⟩
  · have hlen := congrArg List.length (hsame.symm.trans hx)
    rw [List.length_cons] at hlen
    omega
  · rw [hwrites] at hx
    obtain ⟨rfl, -⟩ := List.cons.inj hx
    exact ⟨i, j, rfl, he.obliged.2⟩

/-- In every run, a write of a lease object that has read another owner, and was not asked to acquire
the lease since, leaves the file without its token and what another claimant has written as it is,
exactly when it is an ack, the ack has read another owner's record, and where the file now holds
another owner's record, that is the claim which the ack has read. -/
theorem neverRetakes_iff {w : World} (hw : Untouched w) {c c' : EmbedConfig} {l : EmbedLabel} {x : Written}
    (hrun : Reaches (initial w) c) (hs : embed.step l c = some c')
    (hx : c'.world.drive.writes = x :: c.world.drive.writes) : NeverRetakes c x ↔ OnlyMerges c x := by
  obtain ⟨hc, -⟩ := obligedThen_of_run hw hrun
  obtain ⟨-, hd⟩ := hc.step_cases admits hs
  obtain ⟨i, j, hauthor, hok⟩ := writeOk_of_landed hd hx
  rw [NeverRetakes, OnlyMerges, ← hauthor]
  exact imp_congr_right fun _ => imp_congr_right fun _ => yields_iff_merges hok

/-! ## Two runs -/

open Examples

/-- "b1" takes the wallet over from the page "a1" that runs, and the next tick of "a1" is due. -/
def takenOver : List (Line Choice Event) :=
  bootAlone 0 "a1" "a.example" 20 ++
    [.event (.openPage "b1" "b.example" none), .event (.boot "b1"), .go 1 .ok 9,
     .event (.moveHere "b1" 2), .go 2 .ok 9, .event (.pass 40000), .event (.heartbeat "a1")]

/-- The write that procedure `i` awaits lands, and is as `p` says. -/
def lands (i : Nat) (p : EmbedConfig → Written → Bool) (c : EmbedConfig) : Bool :=
  (embed.step (.call i .ok) c).any fun c' =>
    match c'.world.drive.writes with
    | [] => false
    | x :: earlier => decide (earlier = c.world.drive.writes) && p c x

theorem exists_of_lands {i : Nat} {p : EmbedConfig → Written → Bool} {c : EmbedConfig}
    (hl : lands i p c = true) : ∃ c' x, embed.step (.call i .ok) c = some c' ∧
      c'.world.drive.writes = x :: c.world.drive.writes ∧ p c x = true := by
  obtain ⟨c', hs, hp⟩ := (Option.any_eq_true _ _).mp hl
  split at hp
  · cases hp
  · rename_i x earlier hwrites
    obtain ⟨hsame, hp⟩ := Bool.and_eq_true_iff.mp hp
    exact ⟨c', x, hs, by rw [hwrites, of_decide_eq_true hsame], hp⟩

/-- Of a lease object that was evicted, over the claim that it has read. -/
def mergesClean (c : EmbedConfig) (x : Written) : Bool :=
  match x.how with
  | .ack base => evicted x.author c.trace && (decide (base.owner ≠ x.author) &&
      decide (c.world.drive.lease = some base))
  | _ => false

/-- Of a lease object that was evicted, and with its token. -/
def retakes (c : EmbedConfig) (x : Written) : Bool :=
  evicted x.author c.trace && (!acquires x.how && decide (x.record.owner = x.author))

/-- The tick of "a1" finds "b1", and its ack leaves the claim as it is. -/
theorem neverRetakes_iff_acked : ∃ (c c' : EmbedConfig) (x : Written),
    Reaches (initial oneBackup) c ∧ embed.step (.call 3 .ok) c = some c' ∧
      c'.world.drive.writes = x :: c.world.drive.writes ∧ evicted x.author c.trace = true ∧
      acquires x.how = false ∧ (NeverRetakes c x ↔ OnlyMerges c x) ∧ NeverRetakes c x := by
  obtain ⟨c, hrun, hl⟩ := Reaches.exists_of_play (c := initial oneBackup)
    (s := takenOver ++ [.go 3 .ok 8]) (f := lands 3 mergesClean) (by decide +kernel)
  obtain ⟨c', x, hs, hx, hp⟩ := exists_of_lands hl
  have hiff := neverRetakes_iff untouched_oneBackup hrun hs hx
  unfold mergesClean at hp
  split at hp
  · rename_i base hhow
    obtain ⟨hevicted, hp⟩ := Bool.and_eq_true_iff.mp hp
    obtain ⟨hforeign, hlease⟩ := Bool.and_eq_true_iff.mp hp
    have hmerges : OnlyMerges c x := by
      intro _ _
      rw [hhow]
      refine ⟨of_decide_eq_true hforeign, fun r hr _ => ?_⟩
      obtain rfl := Option.some.inj ((of_decide_eq_true hlease).symm.trans hr)
      exact ⟨rfl, rfl, rfl, rfl, rfl⟩
    exact ⟨c, c', x, hrun, hs, hx, hevicted, by rw [hhow]; rfl, hiff, hiff.mpr hmerges⟩
  · cases hp

/-- The tick of "a1" finds "b1"; while its node stops the page is hidden for good, and its last write
is its own record. -/
theorem not_neverRetakes_hidden : ¬ ∀ (w : World) (c c' : EmbedConfig) (l : EmbedLabel) (x : Written),
    Untouched w → Reaches (initial w) c → embed.step l c = some c' →
      c'.world.drive.writes = x :: c.world.drive.writes → NeverRetakes c x := by
  intro hall
  obtain ⟨c, hrun, hl⟩ := Reaches.exists_of_play (c := initial oneBackup)
    (s := takenOver ++ [.go 3 .ok 1, .event (.pageHide "a1")]) (f := lands 4 retakes) (by decide +kernel)
  obtain ⟨c', x, hs, hx, hp⟩ := exists_of_lands hl
  obtain ⟨hevicted, hp⟩ := Bool.and_eq_true_iff.mp hp
  obtain ⟨hother, howner⟩ := Bool.and_eq_true_iff.mp hp
  have hyields := hall oneBackup c c' _ x untouched_oneBackup hrun hs hx hevicted (by simpa using hother)
  exact hyields.foreign (of_decide_eq_true howner)

end LibreWallet.Embed.Retake
