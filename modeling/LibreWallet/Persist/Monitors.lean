import LibreWallet.Async.System
import LibreWallet.Persist.Marks

/-
  Persist/Monitors.lean --- the high-water marks against the stored monitors.

  The regression guard of `start`, `recordDurableHighwater` and the acknowledgement of
  `durable-persist.ts`, over a provider that commits what is issued in order, of which a crash keeps a
  prefix.  LDK and its `MonitorUpdatingPersister` are the environment: a monitor is stored whole, or as
  updates that are replayed on the last whole one.  Only the keys of monitors and of the marks are here.
-/

set_option autoImplicit false

namespace LibreWallet.Persist.Monitors

open Async

/-! ## The disk -/

inductive Key (χ : Type) where
  | monitor (c : χ)
  /-- An update by its id. -/
  | update (c : χ) (n : Nat)
  deriving DecidableEq, Repr

def Key.channel {χ : Type} : Key χ → χ
  | .monitor c => c
  | .update c _ => c

/-- A value is the update id of what is stored. -/
structure Disk (χ : Type) where
  value : Key χ → Option Nat := fun _ => none
  /-- `ldk_keys_index` -/
  index : List (Key χ) := []
  /-- `monitor_update_highwater` -/
  marks : Option (Marker χ) := none

inductive Op (χ : Type) where
  | setIndex (keys : List (Key χ))
  | setItem (k : Key χ) (id : Nat)
  | removeItem (k : Key χ)
  | setMarks (marks : Marker χ)

/-- `flush` waits for it. -/
def Op.tracked {χ : Type} : Op χ → Bool
  | .setMarks _ => false
  | _ => true

section Code

variable {χ : Type} [DecidableEq χ]

namespace Disk

def apply (d : Disk χ) : Op χ → Disk χ
  | .setIndex keys => { d with index := keys }
  | .setItem k id => { d with value := Function.update d.value k (some id) }
  | .removeItem k => { d with value := Function.update d.value k none }
  | .setMarks marks => { d with marks := some marks }

def applyAll (d : Disk χ) (ops : List (Op χ)) : Disk χ := ops.foldl apply d

/-- What the cache serves after a load. -/
def served (d : Disk χ) (k : Key χ) : Option Nat := if k ∈ d.index then d.value k else none

/-- The updates are replayed from `n` on, as far as they follow one another. -/
def climb (d : Disk χ) (c : χ) : Nat → Nat → Nat
  | 0, n => n
  | fuel + 1, n => if (d.served (.update c (n + 1))).isSome then d.climb c fuel (n + 1) else n

/-- The update id of the stored monitor. -/
def stored (d : Disk χ) (c : χ) : Option Nat :=
  (d.served (.monitor c)).map (d.climb c d.index.length)

/-- `read_all_channel_monitors_with_updates` -/
def loaded (d : Disk χ) : List (χ × Nat) :=
  (d.index.map Key.channel).dedup.filterMap fun c => (d.stored c).map (c, ·)

end Disk

/-! ## The process -/

/-- A monitor update that has been handed over; `flushing` is how many operations were issued when its
flush began. -/
structure Ack (χ : Type) where
  channel : χ
  updateId : Nat
  flushing : Option Nat := none

/-- `start` between the registration of the monitors and the guard. -/
structure Starting (χ : Type) where
  storedHighwater : Highwater χ
  monitors : List (χ × Nat)

inductive Phase (χ : Type) where
  | off
  | starting (st : Starting χ)
  | halted
  | running

structure State (χ : Type) where
  disk : Disk χ := {}
  /-- Issued and not committed, oldest first. -/
  queue : List (Op χ) := []
  committed : Nat := 0
  /-- Every channel there has been. -/
  known : List χ := []
  -- the process
  phase : Phase χ := .off
  chainMonitor : Bool := false
  /-- The update ids of the monitors in LDK's memory. -/
  live : χ → Option Nat := fun _ => none
  keys : List (Key χ) := []
  monitorHighwater : Highwater χ := .empty
  monitorChannelIds : List χ := []
  acks : List (Ack χ) := []

namespace State

/-- What a read that is issued now will see. -/
def view (s : State χ) : Disk χ := s.disk.applyAll s.queue

def issue (s : State χ) (x : Op χ) : State χ := { s with queue := s.queue ++ [x] }

/-- `StorageCache.write` -/
def write (s : State χ) (k : Key χ) (id : Nat) : State χ :=
  let s := if k ∈ s.keys then s
    else { s with keys := s.keys ++ [k] }.issue (.setIndex (s.keys ++ [k]))
  s.issue (.setItem k id)

/-- `StorageCache.remove` -/
def remove (s : State χ) (k : Key χ) : State χ :=
  let s := if k ∈ s.keys then
      { s with keys := s.keys.filter (· ≠ k) }.issue (.setIndex (s.keys.filter (· ≠ k)))
    else s
  s.issue (.removeItem k)

/-- `scheduleDurableAck` -/
def schedule (s : State χ) (c : χ) (updateId : Nat) : State χ :=
  { s with acks := s.acks ++ [{ channel := c, updateId }] }

/-- `watch_channel` of a loaded monitor persists it anew. -/
def watch (s : State χ) (e : χ × Nat) : State χ := (s.write (.monitor e.1) e.2).schedule e.1 e.2

def summaries (monitors : List (χ × Nat)) : List (MonitorSummary χ) :=
  monitors.map fun e => ⟨e.1, e.2⟩

/-- `start`, up to the read of the marks; the monitors may fail to be read. -/
def start (s : State χ) (read : Bool) : State χ :=
  let monitors := if read then s.view.loaded else []
  let s := monitors.foldl watch { s with
    keys := s.view.index.dedup
    chainMonitor := true
    live := fun c => monitors.lookup c }
  { s with phase := .starting ⟨parseHighwater s.view.marks, monitors⟩ }

/-- The regression guard. -/
def guard (s : State χ) (st : Starting χ) : State χ :=
  match findRegression (summaries st.monitors) st.storedHighwater with
  | some _ => { s with phase := .halted }
  | none =>
    let monitorHighwater := mergeHighwater st.storedHighwater (summaries st.monitors)
    { s with phase := .running, monitorHighwater }.issue (.setMarks (serializeHighwater monitorHighwater))

/-- `recordDurableHighwater`; a channel that LDK lists is remembered. -/
def recordDurableHighwater (s : State χ) (c : χ) (updateId : Nat) : State χ :=
  if c ∈ s.monitorChannelIds ∨ (s.live c).isSome then
    let s := { s with monitorChannelIds := c :: s.monitorChannelIds }
    if (s.monitorHighwater.get c).any fun cur => (updateId : ℤ) ≤ cur then s
    else
      let monitorHighwater := s.monitorHighwater.set c updateId
      { s with monitorHighwater }.issue (.setMarks (serializeHighwater monitorHighwater))
  else s

/-- `ackDurable` -/
def ackDurable (s : State χ) (a : Ack χ) : State χ :=
  if s.chainMonitor then s.recordDurableHighwater a.channel a.updateId else s

/-- The process dies; the provider keeps what it has committed. -/
def crash (s : State χ) : State χ :=
  { disk := s.disk, known := s.known, committed := s.committed }

/-- `teardownRuntime` -/
def stop (s : State χ) : State χ :=
  { s with phase := .off, chainMonitor := false, live := fun _ => none, monitorChannelIds := [] }

end State

inductive Action (χ : Type) where
  | start (read : Bool)
  | guard
  /-- A channel is opened, with a monitor at this update id. -/
  | openChannel (c : χ) (n : Nat)
  /-- A monitor is stored whole, at a later update id or again at its own. -/
  | whole (c : χ) (n : Nat)
  /-- A monitor advances, and the update is stored. -/
  | update (c : χ)
  /-- An update that the whole monitor covers is removed. -/
  | cleanup (c : χ) (n : Nat)
  | archive (c : χ)
  | flushBegin (i : Nat)
  | ack (i : Nat)
  | commit
  | crash
  | stop

def step (a : Action χ) (s : State χ) : Option (State χ) :=
  match a, s.phase with
  | .start read, .off => some (s.start read)
  | .guard, .starting st => some (s.guard st)
  | .openChannel c n, .running =>
    if c ∈ s.known then none
    else
      let s := { s with known := c :: s.known }.write (.monitor c) n
      some ({ s with live := Function.update s.live c (some n) }.schedule c n)
  | .whole c n, .running =>
    if (s.live c).any (· ≤ n) then
      let s := s.write (.monitor c) n
      some ({ s with live := Function.update s.live c (some n) }.schedule c n)
    else none
  | .update c, .running =>
    (s.live c).map fun n =>
      let s := s.write (.update c (n + 1)) (n + 1)
      { s with live := Function.update s.live c (some (n + 1)) }.schedule c (n + 1)
  | .cleanup c n, .running =>
    if (s.live c).isSome ∧ (s.view.value (.monitor c)).any (n ≤ ·) then some (s.remove (.update c n)) else none
  | .archive c, .running =>
    if (s.live c).isSome then some ({ s with live := Function.update s.live c none }.remove (.monitor c)) else none
  | .flushBegin i, _ =>
    (s.acks[i]?).map fun a =>
      { s with acks := s.acks.set i { a with flushing := some (s.committed + s.queue.length) } }
  | .ack i, _ =>
    (s.acks[i]?).bind fun a => a.flushing.bind fun issued =>
      if (s.queue.take (issued - s.committed)).any Op.tracked then none
      else some ({ s with acks := s.acks.eraseIdx i }.ackDurable a)
  | .commit, _ =>
    match s.queue with
    | [] => none
    | x :: queue => some { s with disk := s.disk.apply x, queue, committed := s.committed + 1 }
  | .crash, _ => some s.crash
  | .stop, _ => some s.stop
  | _, _ => none

/-! ## What is stored of a channel -/

/-- The stored monitor can be replayed up to `n`. -/
def Reaches (d : Disk χ) (c : χ) (n : Nat) : Prop :=
  ∃ b, d.served (.monitor c) = some b ∧ ∀ i, b < i → i ≤ n → (d.served (.update c i)).isSome = true

section Reaches

variable {d d' : Disk χ} {c : χ} {m n : Nat}

theorem Reaches.le (h : Reaches d c n) (hle : m ≤ n) : Reaches d c m := by
  obtain ⟨b, hb, hu⟩ := h
  exact ⟨b, hb, fun i hi him => hu i hi (him.trans hle)⟩

theorem Reaches.served (h : Reaches d c n) : (d.served (.monitor c)).isSome = true := by
  obtain ⟨b, hb, -⟩ := h
  rw [hb]
  rfl

/-- What is served of the channel is what counts. -/
theorem Reaches.congr (h : Reaches d c n) (heq : ∀ k : Key χ, k.channel = c → d'.served k = d.served k) :
    Reaches d' c n := by
  obtain ⟨b, hb, hu⟩ := h
  refine ⟨b, (heq _ rfl).trans hb, fun i hi hin => ?_⟩
  rw [heq (.update c i) rfl]
  exact hu i hi hin

theorem climb_spec (d : Disk χ) (c : χ) (fuel n : Nat) : n ≤ d.climb c fuel n ∧
    ∀ i, n < i → i ≤ d.climb c fuel n → (d.served (.update c i)).isSome = true := by
  induction fuel generalizing n with
  | zero => exact ⟨le_rfl, fun i hi hin => absurd hin (by rw [Disk.climb]; omega)⟩
  | succ fuel ih =>
    rw [Disk.climb]
    split
    · rename_i hserved
      obtain ⟨hle, hu⟩ := ih (n + 1)
      refine ⟨by omega, fun i hi hin => ?_⟩
      rcases Nat.lt_or_ge (n + 1) i with hlt | hge
      · exact hu i hlt hin
      · obtain rfl : i = n + 1 := by omega
        exact hserved
    · exact ⟨le_rfl, fun i hi hin => absurd hin (by omega)⟩

theorem le_climb (d : Disk χ) (c : χ) {fuel n m : Nat} (hfuel : m ≤ n + fuel)
    (hu : ∀ i, n < i → i ≤ m → (d.served (.update c i)).isSome = true) : m ≤ d.climb c fuel n := by
  induction fuel generalizing n with
  | zero => exact hfuel
  | succ fuel ih =>
    rw [Disk.climb]
    split
    · exact ih (by omega) fun i hi him => hu i (by omega) him
    · rename_i hserved
      by_contra hlt
      exact hserved (hu (n + 1) (by omega) (by omega))

/-- Served updates are listed, so there are not more of them than the index is long. -/
theorem sub_le_length {b : Nat} (hu : ∀ i, b < i → i ≤ n → (d.served (.update c i)).isSome = true) :
    n - b ≤ d.index.length := by
  have hnodup : ((List.range' (b + 1) (n - b)).map (Key.update c)).Nodup :=
    (List.nodup_range' : (List.range' (b + 1) (n - b)).Nodup).map fun i j hij => by cases hij; rfl
  have hsubset : (List.range' (b + 1) (n - b)).map (Key.update c) ⊆ d.index := by
    intro k hk
    obtain ⟨i, hi, rfl⟩ := List.mem_map.mp hk
    have hrange := List.mem_range'_1.mp hi
    have hserved := hu i (by omega) (by omega)
    rw [Disk.served] at hserved
    split at hserved
    · assumption
    · cases hserved
  simpa using (List.subperm_of_subset hnodup hsubset).length_le

/-- The update id of the stored monitor is the last that can be replayed. -/
theorem reaches_iff (h : d.stored c = some n) : Reaches d c m ↔ m ≤ n := by
  obtain ⟨b, hb, rfl⟩ := Option.map_eq_some_iff.mp h
  obtain ⟨hle, hu⟩ := climb_spec d c d.index.length b
  constructor
  · rintro ⟨b', hb', hu'⟩
    obtain rfl : b = b' := Option.some.inj (hb.symm.trans hb')
    have hlen := sub_le_length hu'
    exact le_climb d c (by omega) hu'
  · intro hm
    exact ⟨b, hb, fun i hi him => hu i hi (him.trans hm)⟩

theorem stored_isSome_iff : (d.stored c).isSome = true ↔ (d.served (.monitor c)).isSome = true := by
  rw [Disk.stored, Option.isSome_map]

end Reaches

/-- The marks of a disk are those of channels there have been, and not ahead of the stored monitors. -/
structure Good (known : List χ) (d : Disk χ) : Prop where
  marks : ∀ c v, (parseHighwater d.marks).get c = some v →
    c ∈ known ∧ ((d.served (.monitor c)).isSome = true → Reaches d c v.toNat)
  keys : ∀ k, (d.value k ≠ none ∨ k ∈ d.index) → k.channel ∈ known

/-- A mark is not ahead of the monitor that has been issued, nor of the one in memory. -/
def Fine (s : State χ) (c : χ) (v : ℤ) : Prop :=
  c ∈ s.known ∧ ((s.view.served (.monitor c)).isSome = true → Reaches s.view c v.toNat) ∧
    ∀ n, s.live c = some n → v ≤ n

/-- Where marks come from. -/
inductive Source (s : State χ) (c : χ) (v : ℤ) : Prop where
  | highwater (h : s.monitorHighwater.get c = some v)
  | ack (a : Ack χ) (ha : a ∈ s.acks) (hc : a.channel = c) (hv : (a.updateId : ℤ) = v)
  | stored (st : Starting χ) (hst : s.phase = .starting st) (h : st.storedHighwater.get c = some v)
  | view (h : (parseHighwater s.view.marks).get c = some v)

structure Inv (s : State χ) : Prop where
  prefixes : ∀ p, p <+: s.queue → Good s.known (s.disk.applyAll p)
  sources : ∀ c v, Source s c v → Fine s c v
  live : ∀ c n, s.live c = some n → c ∈ s.known ∧ Reaches s.view c n
  off : s.phase = .off → ∀ c, s.live c = none
  keys : s.phase ≠ .off → ∀ k, k ∈ s.keys ↔ k ∈ s.view.index
  starting : ∀ st, s.phase = .starting st → ∀ e ∈ st.monitors, s.live e.1 = some e.2

/-! ## One operation -/

section Op

variable {s : State χ} {x : Op χ} {c : χ} {k : Key χ} {n i id : Nat}

@[simp] theorem view_issue (s : State χ) (x : Op χ) : (s.issue x).view = s.view.apply x := by
  rw [State.view, State.issue, Disk.applyAll, List.foldl_append]
  rfl

theorem Source.congr {s' : State χ} {v : ℤ} (h : Source s' c v) (hhighwater : s'.monitorHighwater = s.monitorHighwater)
    (hacks : s'.acks = s.acks) (hphase : s'.phase = s.phase) (hmarks : s'.view.marks = s.view.marks) :
    Source s c v := by
  cases h with
  | highwater hh => exact .highwater (hhighwater ▸ hh)
  | ack a ha hc hv => exact .ack a (hacks ▸ ha) hc hv
  | stored st hst hh => exact .stored st (hphase ▸ hst) hh
  | view hh => exact .view (hmarks ▸ hh)

/-- An operation on the keys of one channel, after which its marks and its monitor in memory are not
ahead of what is stored of it. -/
theorem Inv.op (h : Inv s) (hmarks : (s.view.apply x).marks = s.view.marks) (hknown : c ∈ s.known)
    (hother : ∀ k : Key χ, k.channel ≠ c → (s.view.apply x).served k = s.view.served k)
    (hkey : ∀ k, ((s.view.apply x).value k ≠ none ∨ k ∈ (s.view.apply x).index) →
      (s.view.value k ≠ none ∨ k ∈ s.view.index) ∨ k.channel = c)
    (hsource : ∀ v, Source s c v → ((s.view.apply x).served (.monitor c)).isSome = true →
      Reaches (s.view.apply x) c v.toNat)
    (hlive : ∀ n, s.live c = some n → Reaches (s.view.apply x) c n)
    {keys : List (Key χ)} (hkeys : s.phase ≠ .off → ∀ k, k ∈ keys ↔ k ∈ (s.view.apply x).index) :
    Inv ({ s with keys }.issue x) := by
  have hview : ({ s with keys }.issue x).view = s.view.apply x := view_issue _ _
  have hold : ∀ {c' v}, Source ({ s with keys }.issue x) c' v → Source s c' v :=
    fun hs => hs.congr rfl rfl rfl ((congrArg Disk.marks hview).trans hmarks)
  -- What is fine before is fine after.
  have hfine : ∀ {c' v}, Source s c' v → ((s.view.apply x).served (.monitor c')).isSome = true →
      Reaches (s.view.apply x) c' v.toNat := by
    intro c' v hs hserved
    by_cases hc : c' = c
    · subst hc
      exact hsource v hs hserved
    · have hc' : ∀ k : Key χ, k.channel = c' → (s.view.apply x).served k = s.view.served k :=
        fun k hk => hother k (hk.symm ▸ hc)
      rw [hc' (.monitor c') rfl] at hserved
      exact ((h.sources c' v hs).2.1 hserved).congr hc'
  refine ⟨?_, ?_, ?_, h.off, ?_, h.starting⟩
  · intro p hp
    rcases List.prefix_concat_iff.mp hp with rfl | hp
    · have happly : s.disk.applyAll (s.queue ++ [x]) = s.view.apply x := hview
      refine happly ▸ ⟨fun c' v hv => ?_, fun k hk => ?_⟩
      · rw [hmarks] at hv
        exact ⟨(h.sources c' v (.view hv)).1, hfine (.view hv)⟩
      · rcases hkey k hk with hbefore | rfl
        · exact (h.prefixes s.queue List.prefix_rfl).keys k hbefore
        · exact hknown
    · exact h.prefixes p hp
  · intro c' v hs
    obtain ⟨hk, -, hl⟩ := h.sources c' v (hold hs)
    exact ⟨hk, fun hserved => hview.symm ▸ hfine (hold hs) (hview ▸ hserved), hl⟩
  · intro c' m hm
    refine ⟨(h.live c' m hm).1, ?_⟩
    rw [hview]
    by_cases hc : c' = c
    · subst hc
      exact hlive m hm
    · exact (h.live c' m hm).2.congr fun k hk => hother k (hk.symm ▸ hc)
  · intro hphase k
    rw [hview]
    exact hkeys hphase k

theorem Inv.source_le (h : Inv s) (hl : s.live c = some n) : ∀ v, Source s c v → v ≤ n :=
  fun v hv => (h.sources c v hv).2.2 n hl

end Op

/-! ## Calls of the cache -/

section Calls

variable {s : State χ} {c : χ} {k : Key χ} {n i id : Nat}

theorem served_setItem (d : Disk χ) (k : Key χ) (id : Nat) (k' : Key χ) :
    (d.apply (.setItem k id)).served k' =
      if k' = k then (if k ∈ d.index then some id else none) else d.served k' := by
  by_cases hk : k' = k
  · subst hk
    simp [Disk.apply, Disk.served]
  · simp [Disk.apply, Disk.served, hk]

theorem served_removeItem (d : Disk χ) (k k' : Key χ) : (d.apply (.removeItem k)).served k' =
    if k' = k then none else d.served k' := by
  by_cases hk : k' = k
  · subst hk
    simp [Disk.apply, Disk.served]
  · simp [Disk.apply, Disk.served, hk]

/-- One key more is listed. -/
theorem served_list (hkeys : ∀ k, k ∈ s.keys ↔ k ∈ s.view.index) (k k' : Key χ) :
    (s.view.apply (.setIndex (s.keys ++ [k]))).served k' =
      if k' = k then s.view.value k else s.view.served k' := by
  by_cases hk : k' = k
  · subst hk
    simp [Disk.apply, Disk.served]
  · simp [Disk.apply, Disk.served, hk, hkeys]

/-- One key less is. -/
theorem served_unlist (hkeys : ∀ k, k ∈ s.keys ↔ k ∈ s.view.index) (k k' : Key χ) :
    (s.view.apply (.setIndex (s.keys.filter (· ≠ k)))).served k' =
      if k' = k then none else s.view.served k' := by
  by_cases hk : k' = k
  · subst hk
    simp [Disk.apply, Disk.served]
  · simp [Disk.apply, Disk.served, hk, hkeys]

theorem value_of_served {d : Disk χ} {k : Key χ} (h : (d.served k).isSome = true) :
    k ∈ d.index ∧ d.value k = d.served k := by
  rw [Disk.served] at h ⊢
  split at h
  · rename_i hmem
    exact ⟨hmem, (if_pos hmem).symm⟩
  · cases h

theorem Reaches.mono {d d' : Disk χ} (h : Reaches d c n) (hm : d'.served (.monitor c) = d.served (.monitor c))
    (hu : ∀ i, (d.served (.update c i)).isSome = true → (d'.served (.update c i)).isSome = true) :
    Reaches d' c n := by
  obtain ⟨b, hb, hi⟩ := h
  exact ⟨b, hm.trans hb, fun i hbi hin => hu i (hi i hbi hin)⟩

/-- A key of the channel is listed; `hsource` and `hlive` are those of `op`. -/
theorem Inv.listOp (h : Inv s) (hphase : s.phase ≠ .off) (hknown : c ∈ s.known) (hk : k.channel = c)
    (hsource : ∀ v, Source s c v →
      ((s.view.apply (.setIndex (s.keys ++ [k]))).served (.monitor c)).isSome = true →
      Reaches (s.view.apply (.setIndex (s.keys ++ [k]))) c v.toNat)
    (hlive : ∀ n, s.live c = some n → Reaches (s.view.apply (.setIndex (s.keys ++ [k]))) c n) :
    Inv ({ s with keys := s.keys ++ [k] }.issue (.setIndex (s.keys ++ [k]))) := by
  have hkeys := h.keys hphase
  refine h.op rfl hknown ?_ ?_ hsource hlive fun _ k' => Iff.rfl
  · intro k' hk'
    exact (served_list hkeys k k').trans (if_neg fun heq : k' = k => hk' (heq ▸ hk))
  · rintro k' (hk' | hk')
    · exact .inl (.inl hk')
    · rcases List.mem_append.mp hk' with hk' | hk'
      · exact .inl (.inr ((hkeys k').mp hk'))
      · exact .inr (List.mem_singleton.mp hk' ▸ hk)

/-- And stored. -/
theorem Inv.setOp (h : Inv s) (hknown : c ∈ s.known) (hk : k.channel = c)
    (hsource : ∀ v, Source s c v → ((s.view.apply (.setItem k id)).served (.monitor c)).isSome = true →
      Reaches (s.view.apply (.setItem k id)) c v.toNat)
    (hlive : ∀ n, s.live c = some n → Reaches (s.view.apply (.setItem k id)) c n) :
    Inv (s.issue (.setItem k id)) := by
  refine h.op rfl hknown ?_ ?_ hsource hlive h.keys
  · intro k' hk'
    exact (served_setItem s.view k id k').trans (if_neg fun heq : k' = k => hk' (heq ▸ hk))
  · rintro k' (hk' | hk')
    · by_cases heq : k' = k
      · exact .inr (heq ▸ hk)
      · exact .inl (.inl (by simpa [Disk.apply, Function.update_of_ne heq] using hk'))
    · exact .inl (.inr hk')

/-- What reaches the monitor in memory is enough for both. -/
theorem Inv.enough (h : Inv s) (hl : s.live c = some n) {d : Disk χ} (hreach : Reaches d c n) :
    (∀ v, Source s c v → (d.served (.monitor c)).isSome = true → Reaches d c v.toNat) ∧
      ∀ m, s.live c = some m → Reaches d c m := by
  refine ⟨fun v hv _ => ?_, fun m hm => ?_⟩
  · have hle := h.source_le hl v hv
    exact hreach.le (by omega)
  · obtain rfl : n = m := Option.some.inj (hl.symm.trans hm)
    exact hreach

/-- A key of a channel in memory is listed. -/
theorem Inv.list (h : Inv s) (hphase : s.phase ≠ .off) (hl : s.live c = some n) (hk : k.channel = c) :
    Inv ({ s with keys := s.keys ++ [k] }.issue (.setIndex (s.keys ++ [k]))) := by
  -- What was served is.
  have hkept : ∀ k', (s.view.served k').isSome = true →
      (s.view.apply (.setIndex (s.keys ++ [k]))).served k' = s.view.served k' := by
    intro k' hk'
    rw [served_list (h.keys hphase)]
    split
    · rename_i heq
      exact heq ▸ (value_of_served hk').2
    · rfl
  obtain ⟨hknown, hreach⟩ := h.live c n hl
  have hreach' : Reaches (s.view.apply (.setIndex (s.keys ++ [k]))) c n := by
    refine hreach.mono (hkept _ hreach.served) fun i hi => ?_
    rw [hkept _ hi]
    exact hi
  obtain ⟨hsource, hlive⟩ := h.enough hl hreach'
  exact h.listOp hphase hknown hk hsource hlive

/-- It is stored, the monitor not below the one in memory. -/
theorem Inv.set (h : Inv s) (hl : s.live c = some n) (hk : k.channel = c) (hid : k = .monitor c → n ≤ id) :
    Inv (s.issue (.setItem k id)) := by
  have hserved := served_setItem s.view k id
  -- What was served is, if not with its old value.
  have hkept : ∀ k', (s.view.served k').isSome = true →
      ((s.view.apply (.setItem k id)).served k').isSome = true := by
    intro k' hk'
    rw [hserved]
    split
    · rename_i heq
      rw [if_pos (heq ▸ (value_of_served hk').1)]
      rfl
    · exact hk'
  obtain ⟨hknown, b, hb, hu⟩ := h.live c n hl
  have hreach' : Reaches (s.view.apply (.setItem k id)) c n := by
    by_cases hmonitor : k = .monitor c
    · subst hmonitor
      have hmem := (value_of_served (hb ▸ rfl : (s.view.served (.monitor c)).isSome = true)).1
      have hnew : (s.view.apply (.setItem (.monitor c) id)).served (.monitor c) = some id := by
        rw [hserved, if_pos rfl, if_pos hmem]
      have hle := hid rfl
      exact ⟨id, hnew, fun i hi hin => by omega⟩
    · refine ⟨b, ?_, fun i hi hin => hkept _ (hu i hi hin)⟩
      rw [hserved, if_neg (Ne.symm hmonitor)]
      exact hb
  obtain ⟨hsource, hlive⟩ := h.enough hl hreach'
  exact h.setOp hknown hk hsource hlive

/-- A call of the cache changes the keys in memory and the queue. -/
theorem write_eq (s : State χ) (k : Key χ) (id : Nat) : ∃ keys queue, s.write k id = { s with keys, queue } := by
  unfold State.write
  split
  · exact ⟨_, _, rfl⟩
  · exact ⟨_, _, rfl⟩

@[simp] theorem write_phase (s : State χ) (k : Key χ) (id : Nat) : (s.write k id).phase = s.phase := by
  obtain ⟨keys, queue, heq⟩ := write_eq s k id
  rw [heq]

@[simp] theorem write_known (s : State χ) (k : Key χ) (id : Nat) : (s.write k id).known = s.known := by
  obtain ⟨keys, queue, heq⟩ := write_eq s k id
  rw [heq]

@[simp] theorem write_live (s : State χ) (k : Key χ) (id : Nat) : (s.write k id).live = s.live := by
  obtain ⟨keys, queue, heq⟩ := write_eq s k id
  rw [heq]

theorem Inv.write (h : Inv s) (hphase : s.phase ≠ .off) (hl : s.live c = some n) (hk : k.channel = c)
    (hid : k = .monitor c → n ≤ id) : Inv (s.write k id) := by
  unfold State.write
  split
  · exact h.set hl hk hid
  · exact (h.list hphase hl hk).set hl hk hid

/-- A monitor of which there is no mark and nothing stored. -/
theorem Inv.writeNew (h : Inv s) (hphase : s.phase ≠ .off) (hknown : c ∈ s.known) (hsource : ∀ v, ¬ Source s c v)
    (hl : s.live c = none) (hk : k.channel = c) : Inv (s.write k id) := by
  have hlive : ∀ {d : Disk χ} {n}, s.live c = some n → Reaches d c n := fun hn => by rw [hl] at hn; cases hn
  unfold State.write
  split
  · exact h.setOp hknown hk (fun v hv => absurd hv (hsource v)) fun _ => hlive
  · have h' := h.listOp hphase hknown hk (fun v hv => absurd hv (hsource v)) fun _ => hlive
    have hold : ∀ v, ¬ Source ({ s with keys := s.keys ++ [k] }.issue (.setIndex (s.keys ++ [k]))) c v :=
      fun v hv => hsource v (hv.congr rfl rfl rfl (by rw [view_issue]; rfl))
    exact h'.setOp hknown hk (fun v hv => absurd hv (hold v)) fun _ => hlive

/-- What is written is served. -/
theorem served_write (hkeys : ∀ k, k ∈ s.keys ↔ k ∈ s.view.index) (k k' : Key χ) (id : Nat) :
    (s.write k id).view.served k' = if k' = k then some id else s.view.served k' := by
  unfold State.write
  by_cases hmem : k ∈ s.keys
  · rw [if_pos hmem, view_issue, served_setItem, if_pos ((hkeys k).mp hmem)]
  · have hlisted : k ∈ (s.view.apply (.setIndex (s.keys ++ [k]))).index :=
      List.mem_append_right _ List.mem_cons_self
    have hview : ({ s with keys := s.keys ++ [k] }.issue (.setIndex (s.keys ++ [k]))).view =
        s.view.apply (.setIndex (s.keys ++ [k])) := view_issue _ _
    rw [if_neg hmem, view_issue, hview, served_setItem, if_pos hlisted, served_list hkeys]
    split
    · rfl
    · rfl

/-- A key of the channel is taken off the list; `hsource` and `hlive` are those of `op`. -/
theorem Inv.unlist (h : Inv s) (hphase : s.phase ≠ .off) (hknown : c ∈ s.known) (hk : k.channel = c)
    (hsource : ∀ v, Source s c v →
      ((s.view.apply (.setIndex (s.keys.filter (· ≠ k)))).served (.monitor c)).isSome = true →
      Reaches (s.view.apply (.setIndex (s.keys.filter (· ≠ k)))) c v.toNat)
    (hlive : ∀ n, s.live c = some n → Reaches (s.view.apply (.setIndex (s.keys.filter (· ≠ k)))) c n) :
    Inv ({ s with keys := s.keys.filter (· ≠ k) }.issue (.setIndex (s.keys.filter (· ≠ k)))) := by
  have hkeys := h.keys hphase
  refine h.op rfl hknown ?_ ?_ hsource hlive fun _ k' => Iff.rfl
  · intro k' hk'
    exact (served_unlist hkeys k k').trans (if_neg fun heq : k' = k => hk' (heq ▸ hk))
  · rintro k' (hk' | hk')
    · exact .inl (.inl hk')
    · exact .inl (.inr ((hkeys k').mp (List.mem_of_mem_filter hk')))

/-- And its value is removed. -/
theorem Inv.unset (h : Inv s) (hknown : c ∈ s.known) (hk : k.channel = c)
    (hsource : ∀ v, Source s c v → ((s.view.apply (.removeItem k)).served (.monitor c)).isSome = true →
      Reaches (s.view.apply (.removeItem k)) c v.toNat)
    (hlive : ∀ n, s.live c = some n → Reaches (s.view.apply (.removeItem k)) c n) :
    Inv (s.issue (.removeItem k)) := by
  refine h.op rfl hknown ?_ ?_ hsource hlive h.keys
  · intro k' hk'
    exact (served_removeItem s.view k k').trans (if_neg fun heq : k' = k => hk' (heq ▸ hk))
  · rintro k' (hk' | hk')
    · refine .inl (.inl fun hnone => hk' ?_)
      by_cases heq : k' = k
      · subst heq
        simp [Disk.apply]
      · simpa [Disk.apply, Function.update_of_ne heq] using hnone
    · exact .inl (.inr hk')

/-- An update that the whole monitor covers is not needed. -/
theorem Reaches.without {d d' : Disk χ} (h : Reaches d c n) (hcovered : (d.value (.monitor c)).any (i ≤ ·) = true)
    (heq : ∀ k', k' ≠ .update c i → d'.served k' = d.served k') : Reaches d' c n := by
  obtain ⟨b, hb, hu⟩ := h
  have hvalue := (value_of_served (hb ▸ rfl : (d.served (.monitor c)).isSome = true)).2
  have hle : i ≤ b := by simpa [hvalue, hb] using hcovered
  refine ⟨b, (heq _ (by simp)).trans hb, fun j hj hjn => ?_⟩
  rw [heq _ (by simp; omega)]
  exact hu j hj hjn

theorem Inv.cleanup (h : Inv s) (hphase : s.phase ≠ .off) (hl : s.live c = some n)
    (hcovered : (s.view.value (.monitor c)).any (i ≤ ·) = true) : Inv (s.remove (.update c i)) := by
  obtain ⟨hknown, hreach⟩ := h.live c n hl
  unfold State.remove
  split
  · have hunlisted := hreach.without hcovered fun k' hk' =>
      (served_unlist (h.keys hphase) (.update c i) k').trans (if_neg hk')
    obtain ⟨hsource, hlive⟩ := h.enough hl hunlisted
    have h' := h.unlist hphase hknown rfl hsource hlive
    have hunset := (h'.live c n hl).2.without (i := i) (by rw [view_issue]; exact hcovered) fun k' hk' =>
      (served_removeItem _ (.update c i) k').trans (if_neg hk')
    obtain ⟨hsource', hlive'⟩ := h'.enough hl hunset
    exact h'.unset hknown rfl hsource' hlive'
  · have hunset := hreach.without hcovered fun k' hk' =>
      (served_removeItem s.view (.update c i) k').trans (if_neg hk')
    obtain ⟨hsource, hlive⟩ := h.enough hl hunset
    exact h.unset hknown rfl hsource hlive

/-- Of a channel that is not in memory, the monitor can be removed. -/
theorem Inv.archive (h : Inv s) (hphase : s.phase ≠ .off) (hknown : c ∈ s.known) (hl : s.live c = none) :
    Inv (s.remove (.monitor c)) := by
  have hgone : ∀ {d : Disk χ} {v : ℤ}, d.served (.monitor c) = none → (d.served (.monitor c)).isSome = true →
      Reaches d c v.toNat := fun hnone hserved => by rw [hnone] at hserved; cases hserved
  have hlive : ∀ {d : Disk χ} {n}, s.live c = some n → Reaches d c n := fun hn => by rw [hl] at hn; cases hn
  have hnone : ∀ d : Disk χ, (d.apply (.removeItem (.monitor c))).served (.monitor c) = none :=
    fun d => (served_removeItem d _ _).trans (if_pos rfl)
  unfold State.remove
  split
  · have hunlisted := (served_unlist (h.keys hphase) (.monitor c) (.monitor c)).trans (if_pos rfl)
    have h' := h.unlist hphase hknown rfl (fun _ _ => hgone hunlisted) fun _ => hlive
    exact h'.unset hknown rfl (fun _ _ => hgone (hnone _)) fun _ => hlive
  · exact h.unset hknown rfl (fun _ _ => hgone (hnone _)) fun _ => hlive

theorem write_marks (s : State χ) (k : Key χ) (id : Nat) : (s.write k id).view.marks = s.view.marks := by
  unfold State.write
  split
  · rw [view_issue]
    rfl
  · rw [view_issue, Disk.apply, view_issue]
    rfl

theorem Source.of_write {v : ℤ} (h : Source (s.write k id) c v) : Source s c v := by
  obtain ⟨keys, queue, heq⟩ := write_eq s k id
  have hmarks := write_marks s k id
  rw [heq] at h hmarks
  exact h.congr rfl rfl rfl hmarks

end Calls

/-! ## Marks and monitors in memory -/

section Memory

variable {s : State χ} {c : χ} {n : Nat} {v : ℤ}

/-- A mark of the stored text, of one that is written, and of the memory: each is fine. -/
theorem Inv.setMarks (h : Inv s) {hw : Highwater χ} (hfine : ∀ c v, hw.get c = some v → Fine s c v) :
    Inv ({ s with monitorHighwater := hw }.issue (.setMarks (serializeHighwater hw))) := by
  have hview : ({ s with monitorHighwater := hw }.issue (.setMarks (serializeHighwater hw))).view =
      { s.view with marks := some (serializeHighwater hw) } := view_issue _ _
  have hreach : ∀ {c n}, Reaches s.view c n →
      Reaches { s.view with marks := some (serializeHighwater hw) } c n := fun hr => hr.congr fun _ _ => rfl
  have hmarks : ∀ c v, (parseHighwater (some (serializeHighwater hw))).get c = some v → Fine s c v :=
    fun c v hv => hfine c v (parse_serialize hw c ▸ hv)
  have hlast := h.prefixes s.queue List.prefix_rfl
  refine ⟨?_, ?_, ?_, h.off, ?_, h.starting⟩
  · intro p hp
    rcases List.prefix_concat_iff.mp hp with rfl | hp
    · have happly : s.disk.applyAll (s.queue ++ [.setMarks (serializeHighwater hw)]) = _ := hview
      refine happly ▸ ⟨fun c v hv => ?_, hlast.keys⟩
      obtain ⟨hk, hserved, -⟩ := hmarks c v hv
      exact ⟨hk, fun hs => hreach (hserved hs)⟩
    · exact h.prefixes p hp
  · intro c v hs
    have hold : Fine s c v := by
      cases hs with
      | highwater hh => exact hfine c v hh
      | ack a ha hc hv => exact h.sources c v (.ack a ha hc hv)
      | stored st hst hh => exact h.sources c v (.stored st hst hh)
      | view hh =>
        rw [hview] at hh
        exact hmarks c v hh
    obtain ⟨hk, hserved, hl⟩ := hold
    refine ⟨hk, fun hs => ?_, hl⟩
    rw [hview] at hs ⊢
    exact hreach (hserved hs)
  · intro c n hn
    rw [hview]
    exact ⟨(h.live c n hn).1, hreach (h.live c n hn).2⟩
  · intro hphase k
    rw [hview]
    exact h.keys hphase k

/-- The monitor in memory is at an update id that what is stored reaches. -/
theorem Inv.advance (h : Inv s) (hphase : s.phase = .running) (hknown : c ∈ s.known) (hreach : Reaches s.view c n)
    (hle : ∀ v, Source s c v → v ≤ n) : Inv { s with live := Function.update s.live c (some n) } := by
  refine ⟨h.prefixes, ?_, ?_, ?_, h.keys, ?_⟩
  · intro d v hs
    have hold : Source s d v := hs.congr rfl rfl rfl rfl
    obtain ⟨hk, hserved, hl⟩ := h.sources d v hold
    refine ⟨hk, hserved, fun m hm => ?_⟩
    by_cases hd : d = c
    · subst hd
      obtain rfl : n = m := by simpa using hm
      exact hle v hold
    · exact hl m (by simpa [Function.update_of_ne hd] using hm)
  · intro d m hm
    by_cases hd : d = c
    · subst hd
      obtain rfl : n = m := by simpa using hm
      exact ⟨hknown, hreach⟩
    · exact h.live d m (by simpa [Function.update_of_ne hd] using hm)
  · intro hoff
    cases hphase.symm.trans hoff
  · intro st hst
    cases hphase.symm.trans hst

theorem Inv.forget (h : Inv s) (hphase : s.phase = .running) :
    Inv { s with live := Function.update s.live c none } := by
  have hlive : ∀ {d m}, Function.update s.live c none d = some m → s.live d = some m := by
    intro d m hm
    by_cases hd : d = c
    · subst hd
      simp at hm
    · simpa [Function.update_of_ne hd] using hm
  refine ⟨h.prefixes, ?_, fun d m hm => h.live d m (hlive hm), ?_, h.keys, ?_⟩
  · intro d v hs
    have hold : Source s d v := hs.congr rfl rfl rfl rfl
    obtain ⟨hk, hserved, hl⟩ := h.sources d v hold
    exact ⟨hk, hserved, fun m hm => hl m (hlive hm)⟩
  · intro hoff
    cases hphase.symm.trans hoff
  · intro st hst
    cases hphase.symm.trans hst

/-- The acknowledgement of the monitor in memory is scheduled. -/
theorem Inv.schedule (h : Inv s) (hl : s.live c = some n) : Inv (s.schedule c n) := by
  refine ⟨h.prefixes, ?_, h.live, h.off, h.keys, h.starting⟩
  intro d v hs
  cases hs with
  | highwater hh => exact h.sources d v (.highwater hh)
  | stored st hst hh => exact h.sources d v (.stored st hst hh)
  | view hh => exact h.sources d v (.view hh)
  | ack a ha hc hv =>
    rcases List.mem_append.mp ha with ha | ha
    · exact h.sources d v (.ack a ha hc hv)
    · obtain rfl := List.mem_singleton.mp ha
      subst hc
      obtain ⟨hknown, hreach⟩ := h.live c n hl
      refine ⟨hknown, fun _ => hreach.le ?_, fun m hm => ?_⟩
      · have hv : (n : ℤ) = v := hv
        omega
      · obtain rfl : n = m := Option.some.inj (hl.symm.trans hm)
        exact le_of_eq hv.symm

end Memory

/-! ## Starts -/

section Start

variable {s : State χ} {c : χ} {n : Nat} {monitors : List (χ × Nat)}

theorem mem_loaded {d : Disk χ} {e : χ × Nat} (h : e ∈ d.loaded) : d.stored e.1 = some e.2 := by
  obtain ⟨c, -, hc⟩ := List.mem_filterMap.mp h
  obtain ⟨n, hn, rfl⟩ := Option.map_eq_some_iff.mp hc
  exact hn

/-- The loaded monitors are those in memory. -/
theorem lookup_of_mem_loaded {d : Disk χ} {e : χ × Nat} (h : e ∈ d.loaded) : d.loaded.lookup e.1 = some e.2 := by
  cases hlookup : d.loaded.lookup e.1 with
  | none =>
    have hne := List.lookup_eq_none_iff.mp hlookup e h
    simp at hne
  | some n => exact (mem_loaded (Async.Records.mem_of_lookup hlookup)).symm.trans (mem_loaded h)

/-- `watch_channel` changes the keys in memory, the queue and what is to be acknowledged. -/
theorem watch_eq (s : State χ) (e : χ × Nat) :
    ∃ keys queue acks, s.watch e = { s with keys, queue, acks } := by
  obtain ⟨keys, queue, heq⟩ := write_eq s (.monitor e.1) e.2
  exact ⟨keys, queue, s.acks ++ [{ channel := e.1, updateId := e.2 }], by rw [State.watch, heq]; rfl⟩

theorem watch_phase (s : State χ) (e : χ × Nat) (p : Phase χ) :
    { s with phase := p }.watch e = { s.watch e with phase := p } := by
  unfold State.watch State.write
  split
  · rfl
  · rfl

theorem foldl_watch_marks (monitors : List (χ × Nat)) (s : State χ) :
    (monitors.foldl State.watch s).view.marks = s.view.marks := by
  induction monitors generalizing s with
  | nil => rfl
  | cons e monitors ih => exact (ih (s.watch e)).trans (write_marks s (.monitor e.1) e.2)

theorem foldl_watch_phase (monitors : List (χ × Nat)) (s : State χ) (p : Phase χ) :
    monitors.foldl State.watch { s with phase := p } = { monitors.foldl State.watch s with phase := p } := by
  induction monitors generalizing s with
  | nil => rfl
  | cons e monitors ih => rw [List.foldl_cons, List.foldl_cons, watch_phase, ih]

theorem Inv.watch (h : Inv s) (hphase : s.phase ≠ .off) (hl : s.live c = some n) : Inv (s.watch (c, n)) := by
  have hwrite := h.write hphase hl (k := .monitor c) rfl fun _ => le_rfl
  exact hwrite.schedule ((congrFun (write_live s _ n) c).trans hl)

theorem Inv.watchAll (h : Inv s) (hphase : s.phase ≠ .off) (hl : ∀ e ∈ monitors, s.live e.1 = some e.2) :
    Inv (monitors.foldl State.watch s) ∧ (monitors.foldl State.watch s).phase = s.phase := by
  induction monitors generalizing s with
  | nil => exact ⟨h, rfl⟩
  | cons e monitors ih =>
    obtain ⟨keys, queue, acks, heq⟩ := watch_eq s e
    have hwatch := h.watch hphase (hl e List.mem_cons_self)
    have hnext := ih hwatch (by rw [heq]; exact hphase)
      (by rw [heq]; exact fun e he => hl e (List.mem_cons_of_mem _ he))
    refine ⟨hnext.1, hnext.2.trans ?_⟩
    rw [heq]

/-- The monitors are loaded, and no mark is ahead of them. -/
theorem Inv.load (h : Inv s) (hmonitors : monitors = s.view.loaded ∨ monitors = []) :
    Inv { s with
      keys := s.view.index.dedup
      chainMonitor := true
      live := fun c => monitors.lookup c
      phase := .starting ⟨.empty, monitors⟩ } := by
  have hstored : ∀ {c n}, monitors.lookup c = some n → s.view.stored c = some n := by
    intro c n hn
    rcases hmonitors with rfl | rfl
    · exact mem_loaded (Async.Records.mem_of_lookup hn)
    · cases hn
  refine ⟨h.prefixes, ?_, ?_, ?_, ?_, ?_⟩
  · intro c v hs
    have hold : Source s c v := by
      cases hs with
      | highwater hh => exact .highwater hh
      | ack a ha hc hv => exact .ack a ha hc hv
      | view hh => exact .view hh
      | stored st hst hh =>
        obtain rfl := Phase.starting.inj hst
        cases hh
    obtain ⟨hk, hserved, -⟩ := h.sources c v hold
    refine ⟨hk, hserved, fun n hn => ?_⟩
    have hn := hstored hn
    have hle := (reaches_iff hn).mp (hserved (stored_isSome_iff.mp (hn ▸ rfl)))
    omega
  · intro c n hn
    have hreach := (reaches_iff (hstored hn)).mpr le_rfl
    exact ⟨(h.prefixes s.queue List.prefix_rfl).keys (.monitor c) (.inr (value_of_served hreach.served).1), hreach⟩
  · intro hoff
    cases hoff
  · exact fun _ k => List.mem_dedup
  · intro st hst e he
    obtain rfl := Phase.starting.inj hst
    rcases hmonitors with rfl | rfl
    · exact lookup_of_mem_loaded he
    · cases he

/-- The marks are read. -/
theorem Inv.readMarks (h : Inv { s with phase := .starting ⟨.empty, monitors⟩ }) :
    Inv { s with phase := .starting ⟨parseHighwater s.view.marks, monitors⟩ } := by
  refine ⟨h.prefixes, ?_, h.live, ?_, fun _ => h.keys (by simp), ?_⟩
  · intro c v hs
    cases hs with
    | highwater hh => exact h.sources c v (.highwater hh)
    | ack a ha hc hv => exact h.sources c v (.ack a ha hc hv)
    | view hh => exact h.sources c v (.view hh)
    | stored st hst hh =>
      obtain rfl := Phase.starting.inj hst
      exact h.sources c v (.view hh)
  · intro hoff
    cases hoff
  · intro st hst
    obtain rfl := Phase.starting.inj hst
    exact h.starting ⟨.empty, monitors⟩ rfl

theorem Inv.start (h : Inv s) (read : Bool) : Inv (s.start read) := by
  have hcases : (if read then s.view.loaded else []) = s.view.loaded ∨ (if read then s.view.loaded else []) = [] := by
    cases read with
    | true => exact .inl rfl
    | false => exact .inr rfl
  have hload := h.load hcases
  have hwatched := (hload.watchAll (by simp) (hload.starting _ rfl)).1
  rw [State.start]
  -- The phase is set after the monitors are watched; that is the same.
  refine Inv.readMarks ?_
  rw [← foldl_watch_phase]
  exact hwatched

/-- What a start without a regression, or a halted one, goes on to. -/
theorem Inv.rephase (h : Inv s) (hphase : s.phase ≠ .off) {p : Phase χ} (hoff : p ≠ .off)
    (hst : ∀ st, p ≠ .starting st) : Inv { s with phase := p } := by
  refine ⟨h.prefixes, ?_, h.live, fun hp => absurd hp hoff, fun _ => h.keys hphase, fun st hp => absurd hp (hst st)⟩
  intro c v hs
  cases hs with
  | highwater hh => exact h.sources c v (.highwater hh)
  | ack a ha hc hv => exact h.sources c v (.ack a ha hc hv)
  | view hh => exact h.sources c v (.view hh)
  | stored st hp hh => exact absurd hp (hst st)

/-- No loaded monitor is below its channel's mark. -/
theorem Inv.findRegression_eq_none (h : Inv s) {st : Starting χ} (hst : s.phase = .starting st) :
    findRegression (State.summaries st.monitors) st.storedHighwater = none := by
  rw [← Option.not_isSome_iff_eq_none, findRegression_isSome_iff]
  rintro ⟨m, hm, hw, hget, hlt⟩
  obtain ⟨e, he, rfl⟩ := List.mem_map.mp hm
  have hle := (h.sources e.1 hw (.stored st hst hget)).2.2 e.2 (h.starting st hst e he)
  exact absurd hlt (not_lt.mpr hle)

theorem Inv.guard (h : Inv s) {st : Starting χ} (hst : s.phase = .starting st) : Inv (s.guard st) := by
  have hphase : s.phase ≠ .off := by simp [hst]
  rw [State.guard, h.findRegression_eq_none hst]
  have hrunning := h.rephase hphase (p := .running) (by simp) (by simp)
  refine hrunning.setMarks fun c v hv => ?_
  rcases get_merge hv with hstored | ⟨m, hm, rfl, rfl⟩
  · exact h.sources c v (.stored st hst hstored)
  · obtain ⟨e, he, rfl⟩ := List.mem_map.mp hm
    have hl := h.starting st hst e he
    obtain ⟨hknown, hreach⟩ := h.live e.1 e.2 hl
    refine ⟨hknown, fun _ => hreach, fun n hn => ?_⟩
    obtain rfl := Option.some.inj (hl.symm.trans hn)
    exact le_rfl

theorem guard_phase_eq_halted_iff (s : State χ) (st : Starting χ) : (s.guard st).phase = .halted ↔
    ∃ e ∈ st.monitors, ∃ hw, st.storedHighwater.get e.1 = some hw ∧ (e.2 : ℤ) < hw := by
  have hiff : (s.guard st).phase = .halted ↔
      (findRegression (State.summaries st.monitors) st.storedHighwater).isSome = true := by
    rw [State.guard]
    split
    · rename_i hfound
      simp [hfound]
    · rename_i hnone
      simp [hnone, State.issue]
  rw [hiff, findRegression_isSome_iff]
  constructor
  · rintro ⟨m, hm, hw, hget, hlt⟩
    obtain ⟨e, he, rfl⟩ := List.mem_map.mp hm
    exact ⟨e, he, hw, hget, hlt⟩
  · rintro ⟨e, he, hw, hget, hlt⟩
    exact ⟨_, List.mem_map_of_mem he, hw, hget, hlt⟩

end Start

/-! ## Steps -/

section Step

variable {s s' : State χ} {c : χ} {n : Nat}

/-- A channel that there has not been has no marks, no monitor and nothing stored. -/
theorem Inv.fresh (h : Inv s) (hknown : c ∉ s.known) : (∀ v, ¬ Source s c v) ∧ s.live c = none := by
  refine ⟨fun v hv => hknown (h.sources c v hv).1, ?_⟩
  cases hl : s.live c with
  | none => rfl
  | some n => exact absurd (h.live c n hl).1 hknown

theorem Inv.know (h : Inv s) (c : χ) : Inv { s with known := c :: s.known } := by
  refine ⟨fun p hp => ?_, fun d v hs => ?_, fun d m hm => ?_, h.off, h.keys, h.starting⟩
  · have hgood := h.prefixes p hp
    exact ⟨fun d v hv => ⟨List.mem_cons_of_mem _ (hgood.marks d v hv).1, (hgood.marks d v hv).2⟩,
      fun k hk => List.mem_cons_of_mem _ (hgood.keys k hk)⟩
  · obtain ⟨hk, hrest⟩ := h.sources d v (hs.congr rfl rfl rfl rfl)
    exact ⟨List.mem_cons_of_mem _ hk, hrest⟩
  · exact ⟨List.mem_cons_of_mem _ (h.live d m hm).1, (h.live d m hm).2⟩

/-- A monitor of a channel has been written; the memory follows, and the acknowledgement is scheduled. -/
theorem Inv.follow (h : Inv s) (hphase : s.phase = .running) (hknown : c ∈ s.known) (hreach : Reaches s.view c n)
    (hle : ∀ v, Source s c v → v ≤ n) :
    Inv ({ s with live := Function.update s.live c (some n) }.schedule c n) :=
  (h.advance hphase hknown hreach hle).schedule (Function.update_self ..)

theorem Inv.openChannel (h : Inv s) (hphase : s.phase = .running) (hknown : c ∉ s.known) (n : Nat) :
    let t := { s with known := c :: s.known }.write (.monitor c) n
    Inv ({ t with live := Function.update t.live c (some n) }.schedule c n) := by
  intro t
  obtain ⟨hsource, hl⟩ := h.fresh hknown
  have hknow := h.know c
  have hoff : s.phase ≠ .off := by simp [hphase]
  have hsource' : ∀ v, ¬ Source { s with known := c :: s.known } c v :=
    fun v hv => hsource v (hv.congr rfl rfl rfl rfl)
  have ht : Inv t := hknow.writeNew hoff List.mem_cons_self hsource' hl rfl
  have hserved : t.view.served (.monitor c) = some n := by
    rw [served_write (hknow.keys hoff), if_pos rfl]
  have htknown : t.known = c :: s.known := write_known _ _ _
  refine ht.follow ((write_phase _ _ _).trans hphase) (htknown ▸ List.mem_cons_self) ?_ ?_
  · exact ⟨n, hserved, fun i hi hin => by omega⟩
  · exact fun v hv => absurd hv.of_write (hsource' v)

theorem Inv.whole (h : Inv s) (hphase : s.phase = .running) {m : Nat} (hl : s.live c = some m) (hle : m ≤ n) :
    let t := s.write (.monitor c) n
    Inv ({ t with live := Function.update t.live c (some n) }.schedule c n) := by
  intro t
  have hoff : s.phase ≠ .off := by simp [hphase]
  have ht : Inv t := h.write hoff hl rfl fun _ => hle
  have hserved : t.view.served (.monitor c) = some n := by rw [served_write (h.keys hoff), if_pos rfl]
  have htknown : t.known = s.known := write_known _ _ _
  refine ht.follow ((write_phase _ _ _).trans hphase) (htknown ▸ (h.live c m hl).1) ?_ ?_
  · exact ⟨n, hserved, fun i hi hin => by omega⟩
  · intro v hv
    have hv := h.source_le hl v hv.of_write
    omega

theorem Inv.update (h : Inv s) (hphase : s.phase = .running) (hl : s.live c = some n) :
    let t := s.write (.update c (n + 1)) (n + 1)
    Inv ({ t with live := Function.update t.live c (some (n + 1)) }.schedule c (n + 1)) := by
  intro t
  have hoff : s.phase ≠ .off := by simp [hphase]
  have ht : Inv t := h.write hoff hl rfl (by simp)
  have hserved := fun k' => served_write (h.keys hoff) (.update c (n + 1)) k' (n + 1)
  obtain ⟨hknown, b, hb, hu⟩ := h.live c n hl
  have htknown : t.known = s.known := write_known _ _ _
  refine ht.follow ((write_phase _ _ _).trans hphase) (htknown ▸ hknown) ?_ ?_
  · -- The new update stands after those that reach `n`.
    refine ⟨b, ?_, fun i hi hin => ?_⟩
    · rw [hserved, if_neg (by simp)]
      exact hb
    · rw [hserved]
      split
      · rfl
      · rename_i hne
        have hi' : i ≠ n + 1 := fun heq => hne (by rw [heq])
        exact hu i hi (by omega)
  · intro v hv
    have hv := h.source_le hl v hv.of_write
    omega

/-- A mark that comes with an acknowledgement. -/
theorem Inv.recordDurableHighwater (h : Inv s) (hfine : Fine s c n) : Inv (s.recordDurableHighwater c n) := by
  have hremember : Inv { s with monitorChannelIds := c :: s.monitorChannelIds } :=
    ⟨h.prefixes, fun d v hs => h.sources d v (hs.congr rfl rfl rfl rfl), h.live, h.off, h.keys, h.starting⟩
  unfold State.recordDurableHighwater
  split
  · dsimp only
    split
    · exact hremember
    · refine hremember.setMarks fun d v hv => ?_
      rw [Highwater.get_set] at hv
      split at hv
      · rename_i hd
        obtain rfl := Option.some.inj hv
        exact hd ▸ hfine
      · exact h.sources d v (.highwater hv)
  · exact h

theorem Inv.acks (h : Inv s) {acks : List (Ack χ)}
    (hacks : ∀ a ∈ acks, ∃ a' ∈ s.acks, a'.channel = a.channel ∧ a'.updateId = a.updateId) :
    Inv { s with acks } := by
  refine ⟨h.prefixes, fun c v hs => ?_, h.live, h.off, h.keys, h.starting⟩
  cases hs with
  | highwater hh => exact h.sources c v (.highwater hh)
  | stored st hst hh => exact h.sources c v (.stored st hst hh)
  | view hh => exact h.sources c v (.view hh)
  | ack a ha hc hv =>
    obtain ⟨a', ha', hchannel, hid⟩ := hacks a ha
    exact h.sources c v (.ack a' ha' (hchannel.trans hc) (by rw [hid]; exact hv))

theorem Inv.ack (h : Inv s) {i : Nat} {a : Ack χ} (ha : s.acks[i]? = some a) :
    Inv ({ s with acks := s.acks.eraseIdx i }.ackDurable a) := by
  have hfine : Fine s a.channel a.updateId :=
    h.sources a.channel a.updateId (.ack a (List.mem_of_getElem? ha) rfl rfl)
  have herased : Inv { s with acks := s.acks.eraseIdx i } :=
    h.acks fun a ha => ⟨a, List.mem_of_mem_eraseIdx ha, rfl, rfl⟩
  unfold State.ackDurable
  split
  · exact herased.recordDurableHighwater hfine
  · exact herased

theorem Inv.commit (h : Inv s) {x : Op χ} {queue : List (Op χ)} (hqueue : s.queue = x :: queue) :
    Inv { s with disk := s.disk.apply x, queue, committed := s.committed + 1 } := by
  have hview : State.view { s with disk := s.disk.apply x, queue, committed := s.committed + 1 } = s.view := by
    rw [State.view, State.view, hqueue]
    rfl
  refine ⟨fun p hp => ?_, fun c v hs => ?_, fun c n hn => ?_, h.off, fun hphase k => ?_, h.starting⟩
  · have hpre : x :: p <+: s.queue := by
      rw [hqueue]
      exact (List.prefix_cons_inj x).mpr hp
    exact h.prefixes (x :: p) hpre
  · obtain ⟨hk, hserved, hl⟩ := h.sources c v (hs.congr rfl rfl rfl (by rw [hview]))
    refine ⟨hk, fun hs => ?_, hl⟩
    rw [hview] at hs ⊢
    exact hserved hs
  · rw [hview]
    exact h.live c n hn
  · rw [hview]
    exact h.keys hphase k

/-- Without a process there is what is stored. -/
theorem inv_off {disk : Disk χ} {known : List χ} (hgood : Good known disk) (committed : Nat) :
    Inv { disk, known, committed } := by
  refine ⟨fun p hp => ?_, fun c v hs => ?_, ?_, fun _ _ => rfl, fun hphase => absurd rfl hphase, ?_⟩
  · obtain rfl := List.prefix_nil.mp hp
    exact hgood
  · cases hs with
    | highwater hh => cases hh
    | stored st hst hh => cases hst
    | ack a ha hc hv => cases ha
    | view hh =>
      obtain ⟨hk, hserved⟩ := hgood.marks c v hh
      exact ⟨hk, hserved, fun n hn => by cases hn⟩
  · intro c n hn
    cases hn
  · intro st hst
    cases hst

theorem Inv.crash (h : Inv s) : Inv s.crash := inv_off (h.prefixes [] List.nil_prefix) s.committed

theorem Inv.stop (h : Inv s) : Inv s.stop := by
  refine ⟨h.prefixes, fun c v hs => ?_, ?_, fun _ _ => rfl, fun hphase => absurd rfl hphase, ?_⟩
  · have hold : Source s c v := by
      cases hs with
      | highwater hh => exact .highwater hh
      | ack a ha hc hv => exact .ack a ha hc hv
      | view hh => exact .view hh
      | stored st hst hh => cases hst
    obtain ⟨hk, hserved, -⟩ := h.sources c v hold
    exact ⟨hk, hserved, fun n hn => by cases hn⟩
  · intro c n hn
    cases hn
  · intro st hst
    cases hst

/-- One case for each branch of `step`. -/
theorem Inv.step (h : Inv s) {a : Action χ} (hs : step a s = some s') : Inv s' := by
  unfold Monitors.step at hs
  split at hs
  · exact Option.some.inj hs ▸ h.start _
  · rename_i st hp
    exact Option.some.inj hs ▸ h.guard hp
  · rename_i c n hp
    split at hs
    · cases hs
    · rename_i hknown
      exact Option.some.inj hs ▸ h.openChannel hp hknown n
  · rename_i c n hp
    split at hs
    · rename_i hany
      obtain ⟨m, hl, hle⟩ := (Option.any_eq_true _ _).mp hany
      exact Option.some.inj hs ▸ h.whole hp hl (of_decide_eq_true hle)
    · cases hs
  · rename_i c hp
    obtain ⟨n, hl, rfl⟩ := Option.map_eq_some_iff.mp hs
    exact h.update hp hl
  · rename_i c n hp
    split at hs
    · rename_i hcond
      obtain ⟨m, hl⟩ := Option.isSome_iff_exists.mp hcond.1
      exact Option.some.inj hs ▸ h.cleanup (by simp [hp]) hl hcond.2
    · cases hs
  · rename_i c hp
    split at hs
    · rename_i hsome
      obtain ⟨n, hl⟩ := Option.isSome_iff_exists.mp hsome
      have hforget := h.forget (c := c) hp
      exact Option.some.inj hs ▸ hforget.archive (by simp [hp]) (h.live c n hl).1 (Function.update_self ..)
    · cases hs
  · rename_i i
    obtain ⟨a, ha, rfl⟩ := Option.map_eq_some_iff.mp hs
    refine h.acks fun b hb => ?_
    rcases List.mem_or_eq_of_mem_set hb with hb | rfl
    · exact ⟨b, hb, rfl, rfl⟩
    · exact ⟨a, List.mem_of_getElem? ha, rfl, rfl⟩
  · rename_i i
    obtain ⟨a, ha, hs⟩ := Option.bind_eq_some_iff.mp hs
    obtain ⟨issued, -, hs⟩ := Option.bind_eq_some_iff.mp hs
    split at hs
    · cases hs
    · exact Option.some.inj hs ▸ h.ack ha
  · split at hs
    · cases hs
    · rename_i x queue hq
      exact Option.some.inj hs ▸ h.commit hq
  · exact Option.some.inj hs ▸ h.crash
  · exact Option.some.inj hs ▸ h.stop
  · cases hs

end Step

/-! ## Runs -/

section Run

variable {s t : State χ} {c : χ} {n : Nat}

theorem inv_of_run (hrun : Steps step (fun _ _ => True) ({} : State χ) s) : Inv s := by
  refine hrun.invariant (inv_off ⟨fun c v hv => ?_, fun k hk => ?_⟩ 0) fun _ _ _ h _ hs => h.step hs
  · cases hv
  · rcases hk with hk | hk
    · exact absurd rfl hk
    · cases hk

theorem remove_phase (s : State χ) (k : Key χ) : (s.remove k).phase = s.phase := by
  unfold State.remove
  split
  · rfl
  · rfl

theorem ackDurable_phase (s : State χ) (a : Ack χ) : (s.ackDurable a).phase = s.phase := by
  unfold State.ackDurable State.recordDurableHighwater
  split
  · split
    · dsimp only
      split
      · rfl
      · rfl
    · rfl
  · rfl

/-- Only the guard halts. -/
theorem halted_of_step {a : Action χ} (hs : step a s = some t) (ht : t.phase = .halted) :
    s.phase = .halted ∨ ∃ st, s.phase = .starting st ∧ t = s.guard st := by
  unfold step at hs
  split at hs
  · obtain rfl := Option.some.inj hs
    cases ht
  · rename_i st hp
    exact .inr ⟨st, hp, (Option.some.inj hs).symm⟩
  · split at hs
    · cases hs
    · obtain rfl := Option.some.inj hs
      simp only [State.schedule, write_phase] at ht
      exact .inl ht
  · split at hs
    · obtain rfl := Option.some.inj hs
      simp only [State.schedule, write_phase] at ht
      exact .inl ht
    · cases hs
  · obtain ⟨n, -, rfl⟩ := Option.map_eq_some_iff.mp hs
    simp only [State.schedule, write_phase] at ht
    exact .inl ht
  · split at hs
    · obtain rfl := Option.some.inj hs
      rw [remove_phase] at ht
      exact .inl ht
    · cases hs
  · split at hs
    · obtain rfl := Option.some.inj hs
      rw [remove_phase] at ht
      exact .inl ht
    · cases hs
  · obtain ⟨a, -, rfl⟩ := Option.map_eq_some_iff.mp hs
    exact .inl ht
  · obtain ⟨a, -, hs⟩ := Option.bind_eq_some_iff.mp hs
    obtain ⟨issued, -, hs⟩ := Option.bind_eq_some_iff.mp hs
    split at hs
    · cases hs
    · obtain rfl := Option.some.inj hs
      rw [ackDurable_phase] at ht
      exact .inl ht
  · split at hs
    · cases hs
    · obtain rfl := Option.some.inj hs
      exact .inl ht
  · obtain rfl := Option.some.inj hs
    cases ht
  · obtain rfl := Option.some.inj hs
    cases ht
  · cases hs

theorem phase_ne_halted (hrun : Steps step (fun _ _ => True) ({} : State χ) s) : s.phase ≠ .halted := by
  induction hrun with
  | refl => exact fun h => by cases h
  | snoc hrun _ hs ih =>
    intro ht
    rcases halted_of_step hs ht with hp | ⟨st, hp, rfl⟩
    · exact ih hp
    · obtain ⟨e, he, hw, hget, hlt⟩ := (guard_phase_eq_halted_iff _ st).mp ht
      have hinv := inv_of_run hrun
      have hle := (hinv.sources e.1 hw (.stored st hp hget)).2.2 e.2 (hinv.starting st hp e he)
      exact absurd hlt (not_lt.mpr hle)

theorem mem_loaded_iff {d : Disk χ} : (c, n) ∈ d.loaded ↔ d.stored c = some n := by
  refine ⟨mem_loaded, fun h => List.mem_filterMap.mpr ⟨c, ?_, by rw [h]; rfl⟩⟩
  have hserved : (d.served (.monitor c)).isSome = true := stored_isSome_iff.mp (by rw [h]; rfl)
  exact List.mem_dedup.mpr (List.mem_map.mpr ⟨.monitor c, (value_of_served hserved).1, rfl⟩)

theorem eq_of_step_start {read : Bool} (hs : step (.start read) s = some t) : t = s.start read := by
  cases hp : s.phase with
  | off => simpa [step, hp] using hs.symm
  | starting st => simp [step, hp] at hs
  | halted => simp [step, hp] at hs
  | running => simp [step, hp] at hs

theorem eq_of_step_guard (hs : step .guard s = some t) : ∃ st, s.phase = .starting st ∧ t = s.guard st := by
  cases hp : s.phase with
  | off => simp [step, hp] at hs
  | starting st => exact ⟨st, rfl, by simpa [step, hp] using hs.symm⟩
  | halted => simp [step, hp] at hs
  | running => simp [step, hp] at hs

/-- What the guard of a start finds, over all that may be stored. -/
theorem guard_start_halted_iff {t t' : State χ} (ht : step (.start true) s = some t) (ht' : step .guard t = some t') :
    t'.phase = .halted ↔
      ∃ c n v, s.view.stored c = some n ∧ (parseHighwater s.view.marks).get c = some v ∧ (n : ℤ) < v := by
  obtain rfl := eq_of_step_start ht
  obtain ⟨st, hst, rfl⟩ := eq_of_step_guard ht'
  have hmarks := foldl_watch_marks s.view.loaded
    { s with keys := s.view.index.dedup, chainMonitor := true, live := fun c => s.view.loaded.lookup c }
  have hst := Phase.starting.inj hst
  rw [if_pos rfl, hmarks] at hst
  subst hst
  rw [guard_phase_eq_halted_iff]
  constructor
  · rintro ⟨e, he, v, hv, hlt⟩
    exact ⟨e.1, e.2, v, mem_loaded he, hv, hlt⟩
  · rintro ⟨c, n, v, hn, hv, hlt⟩
    exact ⟨(c, n), mem_loaded_iff.mpr hn, v, hv, hlt⟩

/-- In every state of a run, and so at every crash, no mark is ahead of the stored monitor; a start
refuses exactly when one is. -/
theorem highwater_sound (hrun : Steps step (fun _ _ => True) ({} : State χ) s) :
    (∀ c v n, (parseHighwater s.disk.marks).get c = some v → s.disk.stored c = some n → v ≤ n) ∧
      s.phase ≠ .halted ∧
      ∀ t t' t'' : State χ, step (.start true) t = some t' → step .guard t' = some t'' →
        (t''.phase = .halted ↔
          ∃ c n v, t.view.stored c = some n ∧ (parseHighwater t.view.marks).get c = some v ∧ (n : ℤ) < v) := by
  refine ⟨fun c v n hv hn => ?_, phase_ne_halted hrun, fun t t' t'' => guard_start_halted_iff⟩
  have hgood := (inv_of_run hrun).prefixes [] List.nil_prefix
  have hserved := stored_isSome_iff.mp (hn ▸ rfl : (s.disk.stored c).isSome = true)
  have hle := (reaches_iff hn).mp ((hgood.marks c v hv).2 hserved)
  omega

end Run

end Code

/-- A channel is opened, is acknowledged once its monitor is stored, and advances; the process dies before
the advance is committed. -/
def openedRun : List (Action Nat) :=
  [.start true, .guard, .openChannel 7 3, .flushBegin 0, .commit, .commit, .commit, .ack 0, .commit, .update 7, .crash]

theorem highwater_sound_opened : ∃ s : State Nat, s.disk.stored 7 = some 3 ∧
    (parseHighwater s.disk.marks).get 7 = some 3 ∧ s.phase ≠ .halted := by
  have hplay : (play step (fun _ _ => true) openedRun {}).any (fun s =>
      s.disk.stored 7 = some 3 ∧ (parseHighwater s.disk.marks).get 7 = some 3) = true := by decide
  obtain ⟨s, hs, hfinal⟩ := (Option.any_eq_true _ _).mp hplay
  have hrun := (Steps.of_play hs).mono fun _ _ _ => trivial
  obtain ⟨-, hphase, -⟩ := highwater_sound hrun
  obtain ⟨hstored, hmark⟩ := of_decide_eq_true hfinal
  exact ⟨s, hstored, hmark, hphase⟩

end LibreWallet.Persist.Monitors
