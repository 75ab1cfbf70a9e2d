import LibreWallet.Persist.Export

/-
  Persist/Clock.lean --- whether `state_version` tells channel states apart.

  The rollback mirror, the backup-ahead guard and the handoff proof compare nothing
  but this number.  It is stored by an operation of its own, on two of the paths
  that write channel state, so it tells two states apart only where no commit of the
  run changed the channel state at all.
-/

set_option autoImplicit false

namespace LibreWallet.Persist

open Async

variable {χ M : Type}

/-! ## The vocabulary -/

/-- What a durable state holds of the channels: the manager, and what is stored under
each key of the index. -/
def channelState (get : Key → Option (Value χ M)) :
    Option (Value χ M) × List (String × Option (Value χ M)) :=
  (get .channelManager, (parseIndex (get .ldkKeysIndex)).map fun n => (n, get (.kv n)))

/-- The durable states of a run, as what they hold under each key: the disk at any
moment since the first start, and the envelopes. -/
inductive DurableState (entries : List (Key × Value χ M)) (w : Node χ M) :
    (Key → Option (Value χ M)) → Prop
  | disk (s : List (Write χ M)) (hb : before entries <:+ s) (hs : s <:+ w.committed) :
      DurableState entries w (stored s)
  | envelope (es : List (Key × Value χ M)) (he : es ∈ w.exports) :
      DurableState entries w (entryOf es)

/-- Durable states of one wallet with one version hold the same channel state. -/
def Faithful (entries : List (Key × Value χ M)) (w : Node χ M) : Prop :=
  ∀ s s', DurableState entries w s → DurableState entries w s' → s .ldkSeed = s' .ldkSeed →
    parseVersion (s .stateVersion) = parseVersion (s' .stateVersion) →
    channelState s = channelState s'

/-- A commit leaves the channel state as it was. -/
def Idle (x : Write χ M) (s : List (Write χ M)) : Prop :=
  channelState (stored (x :: s)) = channelState (stored s)

/-- No commit of the run changed the channel state. -/
def Unchanged (entries : List (Key × Value χ M)) (w : Node χ M) : Prop :=
  ∀ x s, before entries <:+ s → x :: s <:+ w.committed → Idle x s

/-! ## Disks -/

/-- A commit that is not of a channel key changes nothing. -/
theorem idle_of_key {x : Write χ M} {s : List (Write χ M)} (hm : x.key ≠ .channelManager)
    (hi : x.key ≠ .ldkKeysIndex) (hk : ∀ n, x.key ≠ .kv n) : Idle x s := by
  simp [Idle, channelState, hm, hi, hk]

/-- A commit changes one key: with the channel state it leaves the seed and the version. -/
theorem idle_of_faithful {entries : List (Key × Value χ M)} {w : Node χ M}
    (h : Faithful entries w) {x : Write χ M} {s : List (Write χ M)} (hb : before entries <:+ s)
    (hs : x :: s <:+ w.committed) : Idle x s := by
  by_cases hx : x.key = .ldkSeed ∨ x.key = .stateVersion
  · apply idle_of_key
    · rintro he
      simp [he] at hx
    · rintro he
      simp [he] at hx
    · rintro n he
      simp [he] at hx
  · obtain ⟨hseed, hversion⟩ := not_or.mp hx
    apply h _ _ (.disk _ (hb.trans (List.suffix_cons x s)) hs)
      (.disk _ hb ((List.suffix_cons x s).trans hs))
    · rw [stored_cons, if_neg hseed]
    · rw [stored_cons, if_neg hversion]

/-- Every disk holds what the first one did. -/
theorem channelState_of_unchanged {entries : List (Key × Value χ M)} {w : Node χ M}
    (h : Unchanged entries w) {s : List (Write χ M)} (hb : before entries <:+ s)
    (hs : s <:+ w.committed) :
    channelState (stored s) = channelState (stored (before entries)) := by
  obtain ⟨p, rfl⟩ := hb
  induction p with
  | nil => rfl
  | cons x p ih =>
    have hx : Idle x (p ++ before entries) := h _ _ (List.suffix_append _ _) hs
    exact hx.trans (ih ((List.suffix_cons _ _).trans hs))

/-! ## Envelopes -/

/-- Reads that all find what `f` says make the entries that `f` says. -/
theorem ReadBlock.agrees {v : Node χ M} {ks : List Key} {block : List (PersistEntry χ M)}
    {entries : List (Key × Value χ M)} {f : Key → Option (Value χ M)}
    (hb : ReadBlock v ks block entries)
    (hf : ∀ e ∈ block, ∀ k ∈ ks, stored e.before.committed k = f k) :
    ∀ k ∈ ks, entryOf entries k = f k := by
  induction ks generalizing v block entries with
  | nil =>
    intro k hk
    cases hk
  | cons k' ks ih =>
    obtain ⟨a, w₁, rest, entries', -, rfl, rfl, hrest, rfl⟩ := hb
    have hfirst : stored w₁.committed k' = f k' :=
      hf _ (List.mem_append_right _ List.mem_cons_self) k' List.mem_cons_self
    have hothers : ∀ k ∈ ks, entryOf entries' k = f k :=
      ih hrest fun e he k hk => hf e (List.mem_append_left _ he) k (List.mem_cons_of_mem _ hk)
    intro k hk
    rw [entryOf_addEntry, hfirst]
    by_cases hkk : k' = k
    · subst hkk
      rw [if_pos rfl]
      cases hv : f k' with
      | some x => rfl
      | none =>
        rw [Option.none_or]
        cases he : entryOf entries' k' with
        | none => rfl
        | some x =>
          have hmem := (hrest.read_of_mem (mem_of_entryOf he)).1
          rw [hothers k' hmem, hv] at he
          cases he
    · rw [if_neg hkk]
      exact hothers k ((List.mem_cons.mp hk).resolve_left fun h => hkk h.symm)

/-- An envelope that was read from disks that all hold one channel state holds it too. -/
theorem channelState_of_assembled {h : List (PersistEntry χ M)} {es : List (Key × Value χ M)}
    {f : Key → Option (Value χ M)} (ha : Assembled h es)
    (hf : ∀ e ∈ h, channelState (stored e.before.committed) = channelState f) :
    channelState (entryOf es) = channelState f := by
  obtain ⟨v, v', direct, listed, first, second, pre, rfl, rfl, hd, -, hl⟩ := ha
  obtain ⟨wm, wi, wv, a, b, -, -, hem, hei, -, hfirst, -, a₁, a₂, ha⟩ := direct_of_block hd
  have hwm := hf ⟨.getItem .channelManager, .ok (stored wm.committed .channelManager), wm⟩
    (by simp [hfirst])
  have hwi := hf ⟨.getItem .ldkKeysIndex, .ok (stored wi.committed .ldkKeysIndex), wi⟩
    (by simp [hfirst, ha])
  have hmanager : entryOf direct .channelManager = f .channelManager :=
    hem.trans (congrArg Prod.fst hwm)
  have names : ∀ {g : Key → Option (Value χ M)}, channelState g = channelState f →
      parseIndex (g .ldkKeysIndex) = parseIndex (f .ldkKeysIndex) := by
    intro g hg
    have := congrArg (fun p => p.2.map Prod.fst) hg
    simpa [channelState, Function.comp_def] using this
  have hindex : indexEntry direct = parseIndex (f .ldkKeysIndex) := hei.trans (names hwi)
  have hnot : ∀ {k : Key}, k ∈ BACKUP_DIRECT_KEYS → entryOf listed k = none := by
    intro k hk
    cases he : entryOf listed k with
    | none => rfl
    | some x =>
      obtain ⟨name, -, rfl⟩ := List.mem_map.mp (hl.read_of_mem (mem_of_entryOf he)).1
      simp [BACKUP_DIRECT_KEYS] at hk
  have hlisted : ∀ k ∈ (indexEntry direct).map Key.kv, entryOf listed k = f k := by
    apply hl.agrees
    intro e he k hk
    obtain ⟨name, hname, rfl⟩ := List.mem_map.mp hk
    have hce := hf e (List.mem_append_left _ he)
    have hvalues := congrArg Prod.snd hce
    simp only [channelState, names hce, ← hindex] at hvalues
    have := List.map_inj_left.mp hvalues name hname
    exact congrArg Prod.snd this
  simp only [channelState, entryOf_append, hnot (k := .channelManager) (by decide),
    hnot (k := .ldkKeysIndex) (by decide), Option.or_none, hmanager, Prod.mk.injEq, true_and]
  rw [show parseIndex (entryOf direct .ldkKeysIndex) = indexEntry direct from rfl, hindex]
  refine List.map_inj_left.mpr fun name hname => ?_
  have hdirect : entryOf direct (.kv name) = none := by
    cases he : entryOf direct (.kv name) with
    | none => rfl
    | some x =>
      have hmem := (hd.read_of_mem (mem_of_entryOf he)).1
      simp [BACKUP_DIRECT_KEYS] at hmem
  rw [hdirect, Option.none_or, hlisted _ (List.mem_map_of_mem (hindex ▸ hname))]

/-- Every envelope was assembled from disks of the run. -/
structure ReadFromRun (entries : List (Key × Value χ M)) (c : NodeConfig χ M) : Prop where
  grown : before entries <:+ c.world.committed
  effects : ∀ x ∈ c.trace, before entries <:+ x.entry.before.committed
  envelopes : ∀ es ∈ c.world.exports, ∃ h, Assembled h es ∧
    ∀ e ∈ h, before entries <:+ e.before.committed ∧ e.before.committed <:+ c.world.committed

theorem readFromRun_step {entries : List (Key × Value χ M)} {l : NodeLabel χ M}
    {c c' : NodeConfig χ M} (hc : (protocol χ M).Sound c) (hI : ReadFromRun entries c)
    (hd : (protocol χ M).Did l c c') : ReadFromRun entries c' := by
  have hev := evolves_of_did hc hd
  refine ⟨hI.grown.trans hev.committed, ?_, fun es hes => ?_⟩
  · intro x hx
    cases hd with
    | call i ch j q k r _ _ _ _ _ _ htr =>
      rw [htr] at hx
      rcases List.mem_cons.mp hx with rfl | hx
      · exact hI.grown
      · exact hI.effects x hx
    | resume _ _ _ _ _ _ _ _ _ htr => exact hI.effects x (htr ▸ hx)
    | event _ _ _ _ htr => exact hI.effects x (htr ▸ hx)
    | called _ _ _ _ _ _ _ _ _ htr => exact hI.effects x (htr ▸ hx)
  · rcases exports_step hc hd hes with hold | ⟨i, j, p, hi, -, ha⟩
    · obtain ⟨h, ha, hread⟩ := hI.envelopes es hold
      exact ⟨h, ha, fun e he => ⟨(hread e he).1, (hread e he).2.trans hev.committed⟩⟩
    · refine ⟨_, ha, fun e he => ?_⟩
      obtain ⟨x, hx, -, rfl⟩ := hc.of_mem_history hi he
      exact ⟨hI.effects x hx, (hc.past x hx).committed.trans hev.committed⟩

theorem readFromRun_of_run {entries : List (Key × Value χ M)} {c : NodeConfig χ M}
    (hrun : Reaches (initial entries) c) : ReadFromRun entries c := by
  refine (Protocol.invariant_of_run admits (.initial (inv_initial entries)) ?_ ?_ hrun).2
  · refine ⟨List.suffix_rfl, fun x hx => ?_, fun es hes => ?_⟩
    · cases hx
    · cases hes
  · intro l d d' hd _ hI _ hdid
    exact readFromRun_step hd hI hdid

/-! ## Main results -/

/-- Over every run, `state_version` tells the channel states apart exactly where none of
its commits changed the channel state. -/
theorem faithful_iff_unchanged (entries : List (Key × Value χ M)) {c : NodeConfig χ M}
    (hrun : Reaches (initial entries) c) :
    Faithful entries c.world ↔ Unchanged entries c.world := by
  constructor
  · intro h x s hb hs
    exact idle_of_faithful h hb hs
  · intro h
    have base : ∀ s, DurableState entries c.world s →
        channelState s = channelState (stored (before entries)) := by
      rintro _ (⟨s, hb, hs⟩ | ⟨es, hes⟩)
      · exact channelState_of_unchanged h hb hs
      · obtain ⟨history, ha, hread⟩ := (readFromRun_of_run hrun).envelopes es hes
        exact channelState_of_assembled ha fun e he =>
          channelState_of_unchanged h (hread e he).1 (hread e he).2
    intro s s' hs hs' _ _
    rw [base s hs, base s' hs']

namespace Examples

/-- No channel key has committed. -/
def channelless (l : List (Write String Ids)) : Bool :=
  l.all fun x => match x.key with
    | .channelManager | .ldkKeysIndex | .kv _ => false
    | _ => true

theorem unchanged_of_channelless {c : ExampleConfig} (h : channelless c.world.committed = true) :
    Unchanged [] c.world := by
  intro x s _ hs
  have hx := List.all_eq_true.mp h x (hs.subset List.mem_cons_self)
  apply idle_of_key
  · intro he
    simp [he] at hx
  · intro he
    simp [he] at hx
  · intro n he
    simp [he] at hx

/-- Update 1 of the channel `c` is durable and in an event tick's version; then a durable
batch brings update 2. -/
def batchAfterTick : List (Line Bool (Event String Ids)) :=
  startUp ++ handOverUpdate 1 ++ [.go 0 true 9] ++ commits [1, 2, 3] ++
    [.event .eventTick] ++ commits [4, 5] ++ handOverUpdate 2 ++ [.go 1 true 9] ++ commits [6, 7]

/-- The version, the manager and the monitor of the channel `c` on a disk. -/
def onDisk (l : List (Write String Ids)) : Nat × Option (Value String Ids) × Option (Value String Ids) :=
  (versionOf l, stored l .channelManager, stored l (.kv "monitors/c"))

end Examples

open Examples in
/-- A version is bumped, and no channel state is written. -/
theorem faithful_iff_unchanged_run :
    ∃ c : ExampleConfig, Reaches (initial []) c ∧ versionOf c.world.committed = 1 ∧
      Unchanged [] c.world ∧ Faithful [] c.world := by
  obtain ⟨c, hrun, hf⟩ := Machine.Run.exists_of_play (M := node String Ids)
    (g := fun _ _ => true) (c := initial []) (s := startUp ++ [.event .channelClosed] ++ commits [1])
    (f := fun c => channelless c.world.committed && decide (versionOf c.world.committed = 1))
    (by decide +kernel)
  rw [Bool.and_eq_true, decide_eq_true_eq] at hf
  have hrun' : Reaches (initial []) c := hrun.mono fun _ _ _ => trivial
  have hu := unchanged_of_channelless hf.1
  exact ⟨c, hrun', hf.2, hu, (faithful_iff_unchanged [] hrun').mpr hu⟩

open Examples in
/-- A durable batch commits its monitor and its manager, and the version stays: two disks
of one wallet at version 1, the channel at update 1 and at update 2. -/
theorem batch_keeps_version :
    ∃ (c : ExampleConfig) (s s' : Key → Option (Value String Ids)), Reaches (initial []) c ∧
      DurableState [] c.world s ∧ DurableState [] c.world s' ∧
      s .ldkSeed = s' .ldkSeed ∧ s .stateVersion = s' .stateVersion ∧
      s .channelManager ≠ s' .channelManager ∧ s (.kv "monitors/c") ≠ s' (.kv "monitors/c") ∧
      ¬ Faithful [] c.world := by
  obtain ⟨c, hrun, hf⟩ := Machine.Run.exists_of_play (M := node String Ids)
    (g := fun _ _ => true) (c := initial []) (s := batchAfterTick)
    (f := fun c => decide (onDisk c.world.committed =
        (1, some (.manager [("c", 2)]), some (.monitor "c" 2 ""))) &&
      decide (onDisk (c.world.committed.drop 2) =
        (1, some (.manager [("c", 1)]), some (.monitor "c" 1 ""))) &&
      decide (stored c.world.committed .ldkSeed = stored (c.world.committed.drop 2) .ldkSeed) &&
      decide (stored c.world.committed .stateVersion =
        stored (c.world.committed.drop 2) .stateVersion))
    (by decide +kernel)
  simp only [Bool.and_eq_true, decide_eq_true_eq, onDisk, Prod.mk.injEq] at hf
  obtain ⟨⟨⟨⟨-, hm', hk'⟩, -, hm, hk⟩, hseed⟩, hversion⟩ := hf
  have hnew : DurableState [] c.world (stored c.world.committed) :=
    .disk _ List.nil_suffix List.suffix_rfl
  have hold : DurableState [] c.world (stored (c.world.committed.drop 2)) :=
    .disk _ List.nil_suffix (List.drop_suffix 2 _)
  have hne : stored (c.world.committed.drop 2) .channelManager ≠
      stored c.world.committed .channelManager := by
    rw [hm, hm']
    decide
  refine ⟨c, _, _, hrun.mono fun _ _ _ => trivial, hold, hnew, hseed.symm, hversion.symm, hne, ?_,
    fun h => hne ?_⟩
  · rw [hk, hk']
    decide
  · exact congrArg Prod.fst (h _ _ hold hnew hseed.symm (by rw [hversion]))

end LibreWallet.Persist
