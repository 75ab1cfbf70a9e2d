import LibreWallet.Persist.Protocol

/-
  Persist/Ack.lean --- what is durable when a monitor update is acknowledged.

  The argument is in the protocol: the flush of an update waits for everything the
  cache tracks at that time, which includes all that the update's own callback
  issued, and it begins only after a channel manager that was serialized after the
  callback has committed.
-/

set_option autoImplicit false

namespace LibreWallet.Persist

open Async

variable {χ M : Type}

/-- Every configuration that a run reaches is sound. -/
theorem sound_of_run {entries : List (Key × Value χ M)} {c : NodeConfig χ M}
    (hrun : Reaches (initial entries) c) : (protocol χ M).Sound c :=
  (Protocol.invariant_of_run (I := fun _ => True) admits (.initial (inv_initial entries)) trivial
    (fun _ _ _ _ _ _ _ _ => trivial) hrun).1

/-- What the storage holds for an update that was handed over. -/
structure DurableUpdate (w : Node χ M) (h : Handed χ M) : Prop where
  /-- Every value that the persister wrote for it has committed. -/
  value : ∀ name v, KvCall.write name v ∈ h.calls → ∃ x ∈ w.committed,
    x.Tracked h.session h.first h.last ∧ x.key = .kv name ∧ x.value = some v
  /-- So has an index that lists its key, and every index write issued until then. -/
  index : (∀ name v, KvCall.write name v ∈ h.calls → Listed w.committed name) ∧
    ∀ x ∈ w.issued, x.tracked = true → x.session = h.session → x.serial < h.last → x ∈ w.committed
  /-- So has a channel manager that was serialized after the hand-over. -/
  manager : ∃ y ∈ w.committed, y.key = .channelManager ∧ (∃ m, y.value = some (.manager m)) ∧
    h.last ≤ y.serial

/-- Nothing tracked that was issued before the end of the hand-over was rejected. -/
def NothingRejected (w : Node χ M) (h : Handed χ M) : Prop :=
  ∀ x ∈ w.rejected, x.tracked = true → x.session = h.session → h.last ≤ x.serial

/-! ## Main results -/

/-- In every run, whatever the provider commits and rejects in whatever order: an update
that was handed over once the channel manager existed is acknowledged only when it is
durable, and never when a tracked write up to it was rejected. -/
theorem durable_of_acked (entries : List (Key × Value χ M)) {c : NodeConfig χ M}
    (hrun : Reaches (initial entries) c) {h : Handed χ M} (hh : h ∈ c.world.acked)
    (hm : h.managed = true) : DurableUpdate c.world h ∧ NothingRejected c.world h := by
  have hi : Inv c.world := (sound_of_run hrun).inv
  have hack := hi.acked h hh
  refine ⟨⟨fun name v hv => (hack.values name v hv).1,
    ⟨fun name v hv => (hack.values name v hv).2, hack.settled⟩, hack.manager hm⟩, ?_⟩
  intro x hx ht hs
  by_contra hlt
  obtain ⟨hissued, hnot⟩ := hi.rejected x hx
  exact hnot (hack.settled x hissued ht hs (Nat.lt_of_not_le hlt))

namespace Examples

/-- Managers that are the update ids they know. -/
abbrev Ids := List (String × Nat)

abbrev ExampleConfig := NodeConfig String Ids

/-- A node starts on an empty storage. -/
def startUp : List (Line Bool (Event String Ids)) :=
  [.event (.load "seed"), .event (.settle 0 true), .event (.ready []), .event .started]

/-- The channel `c` is at update `n`, and its monitor is handed over. -/
def handOverUpdate (n : Nat) : List (Line Bool (Event String Ids)) :=
  [.event (.ldk [("c", n)]),
    .event (.persist "c" none n [.write "monitors/c" (.monitor "c" n "")] false)]

/-- The provider commits operations, one after the other. -/
def commits (serials : List Nat) : List (Line Bool (Event String Ids)) :=
  serials.map fun n => .event (.settle n true)

end Examples

open Examples in
/-- A new channel's monitor is handed over, everything commits, and it is acknowledged. -/
theorem durable_of_acked_run :
    ∃ (c : ExampleConfig) (h : Handed String Ids), Reaches (initial []) c ∧ h ∈ c.world.acked ∧
      h.channel = "c" ∧ h.updateId = 1 ∧ h.managed = true ∧
      DurableUpdate c.world h ∧ NothingRejected c.world h := by
  obtain ⟨c, hrun, hf⟩ := Machine.Run.exists_of_play (M := node String Ids)
    (g := fun _ _ => true) (c := initial [])
    (s := startUp ++ handOverUpdate 1 ++ [.go 0 true 9] ++ commits [1, 3, 2] ++ [.go 0 true 9])
    (f := fun c => c.world.acked.any fun h =>
      decide (h.channel = "c") && decide (h.updateId = 1) && h.managed) (by decide +kernel)
  simp only [List.any_eq_true, Bool.and_eq_true, decide_eq_true_eq] at hf
  obtain ⟨h, hh, ⟨hc, hid⟩, hm⟩ := hf
  have hrun' : Reaches (initial []) c := hrun.mono fun _ _ _ => trivial
  exact ⟨c, h, hrun', hh, hc, hid, hm, durable_of_acked [] hrun' hh hm⟩

end LibreWallet.Persist
