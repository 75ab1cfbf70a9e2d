import LibreWallet.Persist.Snapshots

/-
  Persist/Stale.lean --- whether a crash leaves a manager older than its monitors.

  A monitor is issued in LDK's callback, the manager that knows it in a later
  microtask, in an operation of its own.  A crash between the two commits leaves the
  storage with the monitor and without that manager.  Everywhere else the stored
  manager knows every stored monitor.
-/

set_option autoImplicit false

namespace LibreWallet.Persist

open Async

variable {χ M : Type}

/-! ## The vocabulary -/

/-- Every stored monitor is at an update id that the stored channel manager knows. -/
def NotStale (L : Ldk χ M) (committed : List (Write χ M)) : Prop :=
  ∀ x, StillStored committed x → ∀ ch id, x.monitorId = some (ch, id) →
    ∃ m, stored committed .channelManager = some (.manager m) ∧ id ≤ L.knows m ch

/-- The monitor `x` was issued before the manager `y`, or persists once more an update id
that was, in the session of `y`. -/
def HandedBefore (w : Node χ M) (x y : Write χ M) : Prop :=
  x.serial < y.serial ∨ ∃ x' ∈ w.issued, x'.serial < y.serial ∧ x'.session = y.session ∧
    ∃ ch id id', x.monitorId = some (ch, id) ∧ x'.monitorId = some (ch, id') ∧ id ≤ id'

/-- What survives a crash now: every monitor was handed over before the manager that
survives with it was issued. -/
def CaughtUp (w : Node χ M) : Prop :=
  ∀ x, StillStored w.committed x → x.monitorId.isSome = true →
    ∃ y, storedWrite w.committed .channelManager = some y ∧ HandedBefore w x y

/-- The provider commits operations in the order they were issued. -/
def inOrder [DecidableEq χ] [DecidableEq M] (l : NodeLabel χ M) (c : NodeConfig χ M) : Bool :=
  match l with
  | .event (.settle serial ok) => ok && decide (c.world.queue.head?.map (·.serial) = some serial)
  | _ => true

/-- A manager knows what was handed over before it was serialized. -/
theorem knows_of_handedBefore {L : Ldk χ M} {w : Node χ M} (hl : Lawful L w)
    {x y : Write χ M} (hx : StillStored w.committed x) (hy : y ∈ w.committed)
    (hkey : y.key = .channelManager) (hb : HandedBefore w x y) {ch : χ} {id : Nat}
    (hid : x.monitorId = some (ch, id)) : ∃ m, y.value = some (.manager m) ∧ id ≤ L.knows m ch := by
  obtain ⟨name, hname⟩ := hx
  have hxi : x ∈ w.issued := hl.committed x (List.mem_of_find?_eq_some hname)
  have hyi : y ∈ w.issued := hl.committed y hy
  obtain ⟨m, hval, hsnap⟩ := hl.snapshots y hyi hkey
  refine ⟨m, hval, ?_⟩
  rcases hb with hlt | ⟨x', hx', hlt, hs, ch', id₁, id₂, h₁, h₂, hle⟩
  · exact hsnap x hxi hlt ch id hid (.inr ⟨name, hname⟩)
  · rw [hid] at h₁
    cases h₁
    exact Nat.le_trans hle (hsnap x' hx' hlt ch id₂ h₂ (.inl hs))

/-! ## Main results -/

section

variable [DecidableEq χ] [DecidableEq M]

end

namespace Examples

/-- The update id that a manager knows. -/
def idOf (m : Ids) (ch : String) : Nat := (m.lookup ch).getD 0

/-- Managers that are the update ids they know. -/
def idsLdk : Ldk String Ids where
  knows := idOf
  grows := fun m m' => m.all fun e => decide (e.2 ≤ idOf m' e.1)
  knows_mono := by
    intro m m' ch h
    simp only [List.all_eq_true, decide_eq_true_eq] at h
    cases hm : m.lookup ch with
    | none => simp [idOf, hm]
    | some id =>
      have hmem : (ch, id) ∈ m := by
        obtain ⟨l₁, l₂, rfl, -⟩ := List.lookup_eq_some_iff.mp hm
        simp
      simpa [idOf, hm] using h _ hmem

/-- A step of a lawful run over a storage that commits in order. -/
def lawfulInOrder (l : NodeLabel String Ids) (c : ExampleConfig) : Bool :=
  lawful idsLdk l c && inOrder l c

/-- Update 1 of the channel `c` is durable; update 2 is handed over, and its monitor
commits. -/
def secondUpdate : List (Line Bool (Event String Ids)) :=
  startUp ++ handOverUpdate 1 ++ [.go 0 true 1] ++ commits [1, 2, 3] ++ handOverUpdate 2 ++
    [.go 1 true 1] ++ commits [4]

/-- The monitor that is stored for the channel `c`, and the manager that is stored. -/
def storedIds (c : ExampleConfig) : Option (Option (String × Nat) × Option (Value String Ids)) :=
  (storedWrite c.world.committed (.kv "monitors/c")).map fun x =>
    (x.monitorId, stored c.world.committed .channelManager)

/-- The stored monitor was issued before the stored manager. -/
def issuedBefore (c : ExampleConfig) : Bool :=
  c.world.committed.all fun x => x.monitorId.isNone ||
    (storedWrite c.world.committed .channelManager).any fun y => decide (x.serial < y.serial)

theorem caughtUp_of_issuedBefore {c : ExampleConfig} (h : issuedBefore c = true) :
    CaughtUp c.world := by
  rintro x ⟨name, hx⟩ hid
  simp only [issuedBefore, List.all_eq_true, Bool.or_eq_true] at h
  rcases h x (List.mem_of_find?_eq_some hx) with h | h
  · cases hm : x.monitorId <;> simp_all
  · simp only [Option.any_eq_true, decide_eq_true_eq] at h
    obtain ⟨y, hy, hlt⟩ := h
    exact ⟨y, hy, .inl hlt⟩

end Examples

end LibreWallet.Persist
