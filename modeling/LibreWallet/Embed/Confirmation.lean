import LibreWallet.Embed.Runs

/-
  Embed/Confirmation.lean --- what a session has read when its node starts.

  A node starts in two ways: `startNode`, which comes right after a second lease
  read, and `restore`, which starts the node itself and comes right after the secret
  was entered.  Only the first is confirmed, and only as far as that read found a
  record that had not expired: classification looks at the owner alone.
-/

set_option autoImplicit false

namespace LibreWallet.Embed

open Async Controller Roaming

abbrev EmbedEffect := Effect World Request Answer Err Job

/-! ## The vocabulary -/

/-- The session of `t` has claimed the lease. -/
def claimedBy (t : String) (w : World) : Bool :=
  w.drive.writes.any fun y =>
    y.author = t &&
      match y.how with
      | .claim _ _ => true
      | _ => false

/-- The last thing that the procedure of `x` awaited, after whatever the user last did,
was a lease read that came after the session's claim and found its own record,
unexpired. -/
def freshlyConfirmed (x : EmbedEffect) (earlier : List EmbedEffect) : Bool :=
  match past earlier x.proc with
  | ⟨.leaseRead _, .ok (some r), w⟩ :: _ =>
    r.owner = x.job.token && decide (w.clock < r.expiresAt) && claimedBy x.job.token w
  | _ => false

/-- The record in the lease file has not expired. -/
def leaseUnexpired (w : World) : Bool :=
  w.drive.lease.any fun r => decide (w.clock < r.expiresAt)

/-- The start is `startNode`, and what the lease file held when the procedure last
awaited something had not expired. -/
def startsOnLiveLease (x : EmbedEffect) (earlier : List EmbedEffect) : Bool :=
  decide (x.entry.request = .startNode) &&
    (past earlier x.proc).head?.any fun e => leaseUnexpired e.before

/-- Who has written a record of its own has claimed. -/
theorem claimedBy_of_lastWritten {t : String} {w : World} (hi : Inv w)
    (h : (w.pages t).lastWritten.isSome = true) : claimedBy t w = true := by
  obtain ⟨r, hr⟩ := Option.isSome_iff_exists.mp h
  obtain ⟨x, hx, hauthor, -, -, site, previous, hhow⟩ := (hi t).lastWritten r hr
  simp only [claimedBy, List.any_eq_true, Bool.and_eq_true, decide_eq_true_eq]
  exact ⟨x, hx, hauthor, by rw [hhow]⟩

/-- The confirmation read before a `startNode`: it was the last thing awaited, it came
after the claim, and it returned our own record. -/
theorem confirm_of_startNode {c : EmbedConfig} (hc : protocol.Sound c) (hob : ObligedThen c)
    {later earlier : List EmbedEffect} {x : EmbedEffect} (hx : c.trace = later ++ x :: earlier)
    (hq : x.entry.request = .startNode) :
    ∃ rec w rest, past earlier x.proc = ⟨.leaseRead .confirm, .ok (some rec), w⟩ :: rest ∧
      rec.owner = x.job.token ∧ w.drive.lease = some rec ∧
      claimedBy x.job.token w = true := by
  have hob' := (hob later x earlier hx).1
  rw [hq] at hob'
  obtain ⟨-, ⟨rec, w, deadline, w₂, rest, hpast, howner⟩, -⟩ := hob'
  obtain ⟨l, y, r, hy, hproc, hentry⟩ := split_of_mem_past (i := x.proc)
    (e := ⟨.leaseRead .confirm, .ok (some rec), w⟩)
    (show _ ∈ past earlier x.proc by rw [hpast]; exact List.mem_cons_self)
  have hy' : c.trace = (later ++ x :: l) ++ y :: r := by
    rw [hx, hy]
    simp
  have hmem : y ∈ c.trace := by simp [hy']
  have hjob : y.job = x.job := job_eq_of_proc_eq hc (by simp [hx]) hmem hproc
  obtain ⟨hoby, hinv⟩ := hob _ y r hy'
  rw [hentry] at hoby hinv
  refine ⟨rec, w, _, hpast, howner, lease_of_read hc hmem hentry, ?_⟩
  rw [← hjob]
  exact claimedBy_of_lastWritten hinv hoby.2.1

/-! ## Main results -/

/-- In every run, a start is freshly confirmed exactly when it is `startNode` on a lease
that had not expired. -/
theorem freshlyConfirmed_iff {w : World} (hw : Untouched w) {c : EmbedConfig}
    (hrun : Reaches (initial w) c) {later earlier : List EmbedEffect} {x : EmbedEffect}
    (hx : c.trace = later ++ x :: earlier) (hs : startsNode x.entry.request = true) :
    freshlyConfirmed x earlier = true ↔ startsOnLiveLease x earlier = true := by
  obtain ⟨hc, hob⟩ := obligedThen_of_run hw hrun
  cases hq : x.entry.request with
  | startNode =>
    obtain ⟨rec, v, rest, hpast, howner, hlease, hclaimed⟩ := confirm_of_startNode hc hob hx hq
    simp [freshlyConfirmed, startsOnLiveLease, leaseUnexpired, hpast, hq, howner, hlease, hclaimed]
  | restore envelope secret =>
    -- the last thing awaited is the verification of the secret
    have hob' := (hob later x earlier hx).1
    rw [hq] at hob'
    obtain ⟨-, -, -, v, w₁, i, hpast, -⟩ := hob'
    simp [freshlyConfirmed, startsOnLiveLease, hpast, hq]
  | _ =>
    rw [hq] at hs
    cases hs

namespace Examples

/-- `a.example` is at version 5, every other origin is empty; the backup is at
version 5, and nobody holds the lease. -/
def oneBackup : World where
  clock := 200000
  drive := { firstLease := none, firstBackup := some { seedHex := "seed", stateVersion := 5 } }
  origins := fun o =>
    if o = "a.example" then
      { db := { seed := some "seed", stateVersion := 5, channelManager := true }, mirror := 5 }
    else { db := { seed := none, stateVersion := 0, channelManager := false } }
  pages := fun _ => {}

theorem untouched_oneBackup : Untouched oneBackup := ⟨fun _ => rfl, rfl, rfl, rfl⟩

/-- The page `t` of the origin `o` loads, boots by procedure `i`, and gets as far as it
gets without its user. -/
def bootAlone (i : Nat) (t o : String) (n : Nat) : List (Line Choice Event) :=
  [.event (.openPage t o none), .event (.boot t), .go i .ok 9, .event (.pass 2000),
   .go i .ok 20, .event (.pass 5000), .go i .ok n]

/-- The newest effect and what came before it. -/
def newest (c : EmbedConfig) (p : EmbedEffect → List EmbedEffect → Bool) : Bool :=
  match c.trace with
  | x :: earlier => p x earlier
  | [] => false

theorem of_newest {c : EmbedConfig} {p : EmbedEffect → List EmbedEffect → Bool}
    (h : newest c p = true) : ∃ x earlier, c.trace = [] ++ x :: earlier ∧ p x earlier = true := by
  simp only [newest] at h
  split at h
  · rename_i x earlier htrace
    exact ⟨x, earlier, htrace, h⟩
  · cases h

end Examples

open Examples in
/-- A populated origin boots on a free lease and starts, confirmed. -/
theorem freshlyConfirmed_iff_run :
    ∃ (c : EmbedConfig) (x : EmbedEffect) (earlier : List EmbedEffect),
      Reaches (initial oneBackup) c ∧ c.trace = [] ++ x :: earlier ∧
      startsNode x.entry.request = true ∧ startsOnLiveLease x earlier = true ∧
      (freshlyConfirmed x earlier = true ↔ startsOnLiveLease x earlier = true) := by
  obtain ⟨c, hrun, hf⟩ := Reaches.exists_of_play (c := initial oneBackup)
    (s := bootAlone 0 "a1" "a.example" 4)
    (f := fun c => newest c fun x earlier =>
      startsNode x.entry.request && startsOnLiveLease x earlier) (by decide +kernel)
  obtain ⟨x, earlier, htrace, hx⟩ := of_newest hf
  rw [Bool.and_eq_true] at hx
  exact ⟨c, x, earlier, hrun, htrace, hx.1, hx.2,
    freshlyConfirmed_iff untouched_oneBackup hrun htrace hx.1⟩

open Examples in
/-- An empty origin claims the lease and waits for its user until the lease is long
expired; another origin takes it over and runs; the user enters the seed, and the
restore starts a second node without another read. -/
theorem start_unconfirmed :
    ∃ (w : World) (c : EmbedConfig) (later earlier : List EmbedEffect) (x : EmbedEffect),
      Untouched w ∧ Reaches (initial w) c ∧ c.trace = later ++ x :: earlier ∧
      startsNode x.entry.request = true ∧ x.entry.before.Runs "a1" ∧
      c.world.Runs "a1" ∧ c.world.Runs x.job.token ∧ x.job.token = "b1" ∧
      freshlyConfirmed x earlier = false := by
  obtain ⟨c, hrun, hf⟩ := Reaches.exists_of_play (c := initial oneBackup)
    (s := bootAlone 0 "b1" "b.example" 20 ++ [.event (.pass 120000)] ++
      bootAlone 1 "a1" "a.example" 20 ++ [.event (.submitSecret "b1" "seed"), .go 2 .ok 3])
    (f := fun c => newest c fun x earlier =>
      startsNode x.entry.request && decide (x.entry.before.Runs "a1") &&
        decide (c.world.Runs "a1") && decide (c.world.Runs x.job.token) &&
        decide (x.job.token = "b1") && !freshlyConfirmed x earlier) (by decide +kernel)
  obtain ⟨x, earlier, htrace, hx⟩ := of_newest hf
  simp only [Bool.and_eq_true, decide_eq_true_eq, Bool.not_eq_true'] at hx
  obtain ⟨⟨⟨⟨⟨hs, hbefore⟩, ha⟩, hb⟩, htoken⟩, hno⟩ := hx
  exact ⟨oneBackup, c, [], earlier, x, untouched_oneBackup, hrun, htrace, hs, hbefore, ha, hb,
    htoken, hno⟩

end LibreWallet.Embed
