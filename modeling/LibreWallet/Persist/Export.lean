import LibreWallet.Persist.Stale

/-
  Persist/Export.lean --- whether an export is one consistent snapshot.

  `exportState` reads the manager, the index, the version and the monitors one after
  the other, and nothing stops the node between the reads.  An envelope is
  consistent when what it reads after the manager is no newer than that manager.
-/

set_option autoImplicit false

namespace LibreWallet.Persist

open Async

variable {χ M : Type}

/-! ## Entries -/

theorem entryOf_append (a b : List (Key × Value χ M)) (k : Key) :
    entryOf (a ++ b) k = (entryOf a k).or (entryOf b k) := by
  simp only [entryOf, List.find?_append, Option.map_or]

theorem entryOf_addEntry (k k' : Key) (entries : List (Key × Value χ M)) (a : Option (Value χ M)) :
    entryOf (addEntry k entries a) k' = if k = k' then a.or (entryOf entries k')
      else entryOf entries k' := by
  cases a with
  | none => simp [addEntry]
  | some v => by_cases h : k = k' <;> simp [addEntry, entryOf, h]

theorem mem_of_entryOf {entries : List (Key × Value χ M)} {k : Key} {v : Value χ M}
    (h : entryOf entries k = some v) : (k, v) ∈ entries := by
  simp only [entryOf, Option.map_eq_some_iff] at h
  obtain ⟨e, he, rfl⟩ := h
  have hk : e.1 = k := by simpa using List.find?_some he
  rw [← hk]
  exact List.mem_of_find?_eq_some he

/-- Every entry comes from a read, the newest reads first. -/
theorem ReadBlock.read_of_mem {v : Node χ M} {ks : List Key} {block : List (PersistEntry χ M)}
    {entries : List (Key × Value χ M)} (hb : ReadBlock v ks block entries) {k : Key}
    {x : Value χ M} (hx : (k, x) ∈ entries) :
    k ∈ ks ∧ ∃ w a b, Evolves v w ∧ stored w.committed k = some x ∧
      block = a ++ ⟨.getItem k, .ok (some x), w⟩ :: b := by
  induction ks generalizing v block entries with
  | nil =>
    rw [hb.2] at hx
    cases hx
  | cons k' ks ih =>
    obtain ⟨a, w₁, rest, entries', hev, ha, rfl, hrest, rfl⟩ := hb
    have tail : (k, x) ∈ entries' → k ∈ k' :: ks ∧ ∃ w b c, Evolves v w ∧
        stored w.committed k = some x ∧
        rest ++ [⟨.getItem k', .ok a, w₁⟩] = b ++ ⟨.getItem k, .ok (some x), w⟩ :: c := by
      intro hmem
      obtain ⟨hin, w, b, c, hw, hs, rfl⟩ := ih hrest hmem
      exact ⟨List.mem_cons_of_mem _ hin, w, b, c ++ [⟨.getItem k', .ok a, w₁⟩],
        hev.trans _ _ _ hw, hs, by simp⟩
    cases a with
    | none => exact tail hx
    | some y =>
      rcases List.mem_cons.mp hx with h | h
      · cases h
        exact ⟨List.mem_cons_self, w₁, rest, [], hev, ha.symm, rfl⟩
      · exact tail h

/-- What a block of reads has of a key that it reads once. -/
theorem ReadBlock.entry {v : Node χ M} {ks : List Key} {block : List (PersistEntry χ M)}
    {entries : List (Key × Value χ M)} (hb : ReadBlock v ks block entries) (hn : ks.Nodup)
    {k : Key} (hk : k ∈ ks) :
    ∃ w a b, Evolves v w ∧ entryOf entries k = stored w.committed k ∧
      block = a ++ ⟨.getItem k, .ok (stored w.committed k), w⟩ :: b := by
  induction ks generalizing v block entries with
  | nil => cases hk
  | cons k' ks ih =>
    obtain ⟨a, w₁, rest, entries', hev, ha, rfl, hrest, rfl⟩ := hb
    rw [List.nodup_cons] at hn
    rw [entryOf_addEntry]
    rcases List.mem_cons.mp hk with rfl | hk
    · have hnone : entryOf entries' k = none := by
        cases h : entryOf entries' k with
        | none => rfl
        | some x => exact absurd (hrest.read_of_mem (mem_of_entryOf h)).1 hn.1
      exact ⟨w₁, rest, [], hev, by rw [if_pos rfl, hnone, Option.or_none, ha], by rw [ha]⟩
    · obtain ⟨w, b, c, hw, he, rfl⟩ := ih hrest hn.2 hk
      have hne : k' ≠ k := fun h => hn.1 (h ▸ hk)
      exact ⟨w, b, c ++ [⟨.getItem k', .ok a, w₁⟩], hev.trans _ _ _ hw, by rw [if_neg hne, he],
        by simp⟩

/-- The direct keys of an envelope: the manager is read first, then the index and the
version, each once. -/
theorem direct_of_block {v : Node χ M} {block : List (PersistEntry χ M)}
    {direct : List (Key × Value χ M)} (hb : ReadBlock v BACKUP_DIRECT_KEYS block direct) :
    ∃ wm wi wv a b, Evolves v wm ∧ Evolves wm wv ∧
      entryOf direct .channelManager = stored wm.committed .channelManager ∧
      indexEntry direct = indexOf wi.committed ∧
      entryOf direct .stateVersion = stored wv.committed .stateVersion ∧
      block = a ++ ⟨.getItem .channelManager, .ok (stored wm.committed .channelManager), wm⟩ :: b ∧
      (∃ a₁ a₂, a = a₁ ++ ⟨.getItem .stateVersion, .ok (stored wv.committed .stateVersion), wv⟩ :: a₂) ∧
      ∃ a₁ a₂, a = a₁ ++ ⟨.getItem .ldkKeysIndex, .ok (stored wi.committed .ldkKeysIndex), wi⟩ :: a₂ := by
  obtain ⟨a₀, w₀, r₀, e₀, hev₀, ha₀, rfl, hb, rfl⟩ := hb
  obtain ⟨a₁, wm, r₁, e₁, hev₁, rfl, rfl, hb, rfl⟩ := hb
  have hn : ([.ldkKeysIndex, .stateVersion, .other "peer_addresses", .other "node_alias",
      .other "nwc_wallet_private_key", .other "nwc_connections"] : List Key).Nodup := by decide
  have hnone : entryOf e₁ .channelManager = none := by
    cases h : entryOf e₁ .channelManager with
    | none => rfl
    | some x => exact absurd (hb.read_of_mem (mem_of_entryOf h)).1 (by decide)
  obtain ⟨wv, b₁, b₂, hwv, hev, hbv⟩ := hb.entry hn (k := .stateVersion) (by decide)
  obtain ⟨wi, d₁, d₂, -, hei, hbi⟩ := hb.entry hn (k := .ldkKeysIndex) (by decide)
  refine ⟨wm, wi, wv, r₁, [⟨.getItem .ldkSeed, .ok a₀, w₀⟩], hev₀.trans _ _ _ hev₁, hwv, ?_, ?_, ?_,
    by simp, ⟨b₁, b₂, hbv⟩, d₁, d₂, hbi⟩
  · simp [entryOf_addEntry, hnone]
  · have h : entryOf (addEntry .ldkSeed (addEntry .channelManager e₁
        (stored wm.committed .channelManager)) a₀) .ldkKeysIndex =
        stored wi.committed .ldkKeysIndex := by
      simp [entryOf_addEntry, hei]
    rw [indexEntry, h, indexOf]
  · simp only [entryOf_addEntry, hev]
    simp

/-- The newest operation on a key, and all that is older, decides its value. -/
theorem stored_between {l t : List (Write χ M)} {k : Key} (hl : t <:+ l)
    (ht : l.dropWhile (fun x => decide (x.key ≠ k)) <:+ t) : stored t k = stored l k := by
  obtain ⟨p, rfl⟩ := hl
  induction p with
  | nil => rfl
  | cons x p ih =>
    by_cases hx : x.key = k
    · have hlen := ht.length_le
      rw [List.cons_append, List.dropWhile_cons_of_neg (by simp [hx]), List.length_cons,
        List.length_append] at hlen
      omega
    · simp only [List.cons_append, List.dropWhile_cons, hx, ne_eq, not_false_eq_true, decide_true,
        if_true] at ht
      rw [List.cons_append, stored_cons, if_neg hx, ih ht]

/-! ## The vocabulary -/

/-- An envelope is one snapshot: its manager knows each of its monitors, and its version
does not exceed one that was stored together with its manager. -/
structure Consistent (L : Ldk χ M) (committed : List (Write χ M))
    (entries : List (Key × Value χ M)) : Prop where
  monitors : ∀ name ch id b, (.kv name, .monitor ch id b) ∈ entries →
    ∃ m, entryOf entries .channelManager = some (.manager m) ∧ id ≤ L.knows m ch
  version : ∃ s, s <:+ committed ∧ stored s .channelManager = entryOf entries .channelManager ∧
    parseVersion (entryOf entries .stateVersion) ≤ versionOf s

/-- A read of an export is in step with the manager that it has read: a monitor was
handed over before that manager was issued; the version committed before that manager
was, or while it was stored. -/
def InStep (w : Node χ M) (h : List (PersistEntry χ M)) (q : Request χ M) : Prop :=
  ∀ a wm, ⟨.getItem .channelManager, .ok a, wm⟩ ∈ h →
    match q with
    | .getItem (.kv name) => ∀ x, storedWrite w.committed (.kv name) = some x →
        x.monitorId.isSome = true →
        ∃ y, storedWrite wm.committed .channelManager = some y ∧ HandedBefore w x y
    | .getItem .stateVersion =>
      w.committed.dropWhile (fun x => decide (x.key ≠ .stateVersion)) <:+ wm.committed ∨
        stored (w.committed.dropWhile fun x => decide (x.key ≠ .stateVersion)) .channelManager =
          stored wm.committed .channelManager
    | _ => True

/-- Every step of an export is in step. -/
def exportsInStep (l : NodeLabel χ M) (c : NodeConfig χ M) : Prop :=
  ∀ i ok s q k, l = .call i ok → c.pool[i]? = some (⟨s, .exportState⟩, .await q k) →
    InStep c.world (c.history i) q

/-- The effects of exports in a trace were in step. -/
def WereInStep (L : Ldk χ M) (c : NodeConfig χ M) : Prop :=
  ∀ later x earlier, c.trace = later ++ x :: earlier → x.job.verb = .exportState →
    InStep x.entry.before (Protocol.entriesOf earlier x.proc) x.entry.request ∧
      Lawful L x.entry.before

/-! ## Main results -/

theorem Consistent.mono {L : Ldk χ M} {l l' : List (Write χ M)} {entries : List (Key × Value χ M)}
    (h : Consistent L l entries) (hl : l <:+ l') : Consistent L l' entries := by
  obtain ⟨hm, s, hs, hrest⟩ := h
  exact ⟨hm, s, hs.trans hl, hrest⟩

/-- An envelope that was assembled in step is consistent. -/
theorem consistent_of_inStep {L : Ldk χ M} {c : NodeConfig χ M} (hc : (protocol χ M).Sound c)
    (hstep : WereInStep L c) {i : Nat} {j : Task χ M} {p : Persisting χ M Unit}
    (hi : c.pool[i]? = some (j, p)) (hj : j.verb = .exportState)
    {entries : List (Key × Value χ M)} (ha : Assembled (c.history i) entries) :
    Consistent L c.world.committed entries := by
  obtain ⟨v, v', direct, listed, first, second, pre, rfl, hh, hd, hpast, hl⟩ := ha
  obtain ⟨wm, wi, wv, a, b, -, hmv, hem, -, hev, hfirst, ⟨a₁, a₂, ha⟩, -⟩ := direct_of_block hd
  obtain ⟨mgr, hmgr⟩ : ∃ e : PersistEntry χ M,
      e = ⟨.getItem .channelManager, .ok (stored wm.committed .channelManager), wm⟩ := ⟨_, rfl⟩
  rw [← hmgr] at hfirst
  subst hfirst
  -- the effects of this export are in the trace, in the order of its history
  have place : ∀ {e : PersistEntry χ M} {before after : List (PersistEntry χ M)},
      c.history i = after ++ e :: before → InStep e.before before e.request ∧ Lawful L e.before ∧
        Evolves e.before c.world := by
    intro e before after heq
    obtain ⟨later, x, earlier, htrace, hproc, rfl, hbefore⟩ := Protocol.split_of_history heq
    have hx : x ∈ c.trace := by
      rw [htrace]
      simp
    have hjob : x.job = j := by
      obtain ⟨q, hq⟩ := hc.owned x hx
      rw [hproc, hi] at hq
      cases hq
      rfl
    obtain ⟨h₁, h₂⟩ := hstep later x earlier htrace (by rw [hjob, hj])
    rw [hproc, hbefore] at h₁
    exact ⟨h₁, h₂, hc.past x hx⟩
  have hnot : ∀ {k : Key}, k ∈ BACKUP_DIRECT_KEYS → entryOf listed k = none := by
    intro k hk
    cases h : entryOf listed k with
    | none => rfl
    | some x =>
      obtain ⟨name, -, rfl⟩ := List.mem_map.mp (hl.read_of_mem (mem_of_entryOf h)).1
      simp [BACKUP_DIRECT_KEYS] at hk
  have hentry : entryOf (direct ++ listed) .channelManager =
      stored wm.committed .channelManager := by
    rw [entryOf_append, hnot (by decide), Option.or_none, hem]
  refine ⟨fun name ch id bytes hmem => ?_, ?_⟩
  · rw [hentry]
    rcases List.mem_append.mp hmem with hmem | hmem
    · have h := (hd.read_of_mem hmem).1
      simp [BACKUP_DIRECT_KEYS] at h
    · obtain ⟨-, w, c₁, c₂, hw, hs, rfl⟩ := hl.read_of_mem hmem
      have heq : c.history i = c₁ ++ ⟨.getItem (.kv name), .ok (some (.monitor ch id bytes)), w⟩ ::
          (c₂ ++ ((a ++ mgr :: b) ++ pre)) := by
        rw [hh]
        simp
      obtain ⟨hin, hlaw, -⟩ := place heq
      obtain ⟨x, -, -, hval, hx⟩ := mem_of_stored hs
      have hid : x.monitorId = some (ch, id) := Write.monitorId_eq_some_iff.mpr ⟨bytes, hval⟩
      obtain ⟨y, hy, hb⟩ := hin _ wm (hmgr ▸ (by simp : mgr ∈ _)) x hx (by rw [hid]; rfl)
      have hyw : y ∈ w.committed := by
        have hev : Evolves wm w := (hmgr ▸ hpast mgr (by simp)).trans _ _ _ hw
        exact hev.committed.subset (List.mem_of_find?_eq_some hy)
      obtain ⟨m, hm, hle⟩ := knows_of_handedBefore hlaw ⟨name, hx⟩ hyw
        (by simpa using List.find?_some hy) hb hid
      exact ⟨m, by rw [stored, hy]; exact hm, hle⟩
  · rw [hentry, entryOf_append, hnot (by decide), Option.or_none, hev]
    subst ha
    have heq : c.history i = (second ++ a₁) ++
        ⟨.getItem .stateVersion, .ok (stored wv.committed .stateVersion), wv⟩ ::
          (a₂ ++ mgr :: (b ++ pre)) := by
      rw [hh]
      simp
    obtain ⟨hin, -, hnow⟩ := place heq
    rcases hin _ wm (hmgr ▸ (by simp : mgr ∈ _)) with hs | hs
    · -- the version was there when the manager was read
      refine ⟨wm.committed, hmv.committed.trans hnow.committed, rfl, Nat.le_of_eq ?_⟩
      rw [versionOf, stored_between hmv.committed hs]
    · refine ⟨_, (List.dropWhile_suffix _).trans hnow.committed, hs, Nat.le_of_eq ?_⟩
      rw [versionOf, stored_between (List.dropWhile_suffix _) List.suffix_rfl]

/-- Only an export makes envelopes. -/
theorem exec_exports {w w' : Node χ M} {q : Request χ M} {ok : Bool}
    {r : Except String (Answer q)} (he : exec q ok w = some (r, w')) :
    w'.exports = w.exports ∨ ∃ entries, q = .envelope entries ∧ w'.exports = entries :: w.exports := by
  cases q with
  | writeManager =>
    simp only [exec] at he
    split at he <;> cases he <;> exact .inl rfl
  | settled n | allSettled ns =>
    simp only [exec] at he
    split at he
    · cases he
    · cases he
      exact .inl rfl
  | channelMonitorUpdated u =>
    simp only [exec, Option.some.injEq, Prod.mk.injEq] at he
    obtain ⟨-, rfl⟩ := he
    split <;> exact .inl rfl
  | envelope entries =>
    cases he
    exact .inr ⟨entries, rfl, rfl⟩
  | _ =>
    cases he
    exact .inl rfl

theorem effect_exports {w w' : Node χ M} (hi : Inv w) {e : Event χ M}
    {called : Option (Task χ M × Persisting χ M Unit)} (he : effect e w = some (w', called)) :
    w'.exports = w.exports := by
  cases e with
  | persist channel update latest calls unrecoverable =>
    simp only [effect] at he
    split at he
    · cases he
      exact (callAll_respects hi calls).1.frame.exports
    · cases he
  | archive calls =>
    simp only [effect] at he
    split at he
    · cases he
      exact (callAll_respects hi calls).1.frame.exports
    · cases he
  | load seedHex =>
    simp only [effect, Node.ensureSeed] at he
    split at he
    · cases he
      split <;> rfl
    · cases he
  | eventTick =>
    simp only [effect, Option.map_eq_some_iff] at he
    obtain ⟨m, -, he⟩ := he
    cases he
    rfl
  | settle serial ok =>
    simp only [effect, Node.settle, Option.map_eq_some_iff] at he
    obtain ⟨w₁, ⟨x, -, rfl⟩, he⟩ := he
    cases he
    rfl
  | react serial =>
    simp only [effect, Node.react, Option.map_eq_some_iff] at he
    obtain ⟨w₁, hw, he⟩ := he
    cases he
    split at hw
    · cases hw
      rfl
    · cases hw
  | stop | exportState | importState entries | crash =>
    cases he
    rfl
  | _ =>
    simp only [effect] at he
    split at he
    · cases he
      rfl
    · cases he

/-- An envelope of a step's end was there before, or was assembled by this step. -/
theorem exports_step {l : NodeLabel χ M} {c c' : NodeConfig χ M} (hc : (protocol χ M).Sound c)
    (hd : (protocol χ M).Did l c c') {entries : List (Key × Value χ M)}
    (he : entries ∈ c'.world.exports) : entries ∈ c.world.exports ∨
      ∃ (i : Nat) (j : Task χ M) (p : Persisting χ M Unit), c.pool[i]? = some (j, p) ∧
        j.verb = .exportState ∧ Assembled (c.history i) entries := by
  cases hd with
  | call i ch j q k r _ hi _ hex hob _ _ =>
    change execTask j q ch c.world = some (r, c'.world) at hex
    simp only [execTask] at hex
    split at hex
    · rcases exec_exports hex with h | ⟨es, rfl, h⟩
      · exact .inl (h ▸ he)
      · rw [h] at he
        rcases List.mem_cons.mp he with rfl | he
        · exact .inr ⟨i, j, _, hi, hob.1, hob.2⟩
        · exact .inl he
    · cases hex
  | resume i j p _ _ _ hsync _ _ _ =>
    have : c'.world = c.world := hsync
    exact .inl (this ▸ he)
  | event e _ hev _ _ => exact .inl (effect_exports hc.inv hev ▸ he)
  | called e w j p _ hev hsync _ _ _ =>
    have : c'.world = w := hsync
    rw [this, effect_exports hc.inv hev] at he
    exact .inl he

/-- A step leaves the node later than it was. -/
theorem evolves_of_did {l : NodeLabel χ M} {c c' : NodeConfig χ M} (hc : (protocol χ M).Sound c)
    (hd : (protocol χ M).Did l c c') : Evolves c.world c'.world := by
  cases hd with
  | call i ch j q k r _ _ _ hex hob _ _ =>
    change execTask j q ch c.world = some (r, c'.world) at hex
    simp only [execTask] at hex
    split at hex
    · exact (exec_respects hc.inv hob hex).1
    · cases hex
  | resume i j p _ _ _ hsync _ _ _ =>
    have : c'.world = c.world := hsync
    exact this ▸ Evolves.refl _
  | event e _ hev _ _ => exact (admits e _ _ _ hc.inv hev).1
  | called e w j p _ hev hsync _ _ _ =>
    have : c'.world = w := hsync
    exact this ▸ (admits e _ _ _ hc.inv hev).1

theorem wereInStep_step {L : Ldk χ M} {c c' : NodeConfig χ M} {l : NodeLabel χ M}
    (hl : Lawful L c.world) (hI : WereInStep L c)
    (hstep : exportsInStep l c) (hd : (protocol χ M).Did l c c') : WereInStep L c' := by
  intro later x earlier htrace hverb
  cases hd with
  | call i ch j q k r hlab hi _ _ _ _ htr =>
    rw [htr] at htrace
    cases later with
    | nil =>
      simp only [List.nil_append, List.cons.injEq] at htrace
      obtain ⟨rfl, rfl⟩ := htrace
      obtain ⟨s, verb⟩ := j
      cases hverb
      exact ⟨hstep i ch s q k hlab hi, hl⟩
    | cons y later =>
      simp only [List.cons_append, List.cons.injEq] at htrace
      exact hI later x earlier htrace.2 hverb
  | resume _ _ _ _ _ _ _ _ _ htr => exact hI later x earlier (htr ▸ htrace) hverb
  | event _ _ _ _ htr => exact hI later x earlier (htr ▸ htrace) hverb
  | called _ _ _ _ _ _ _ _ _ htr => exact hI later x earlier (htr ▸ htrace) hverb

section

variable [DecidableEq χ] [DecidableEq M]

end

namespace Examples

/-- Nothing has committed since this history read the manager. -/
def quietSince (w : Node String Ids) (h : List (PersistEntry String Ids)) : Bool :=
  h.all fun e =>
    match e.request with
    | .getItem .channelManager => decide (e.before.committed = w.committed)
    | _ => true

/-- Nothing commits during an export, and what is stored was issued before the stored
manager. -/
def quietExports (l : NodeLabel String Ids) (c : ExampleConfig) : Bool :=
  match l with
  | .call i _ =>
    match c.pool[i]? with
    | some (⟨_, .exportState⟩, .await (.getItem _) _) => issuedBefore c && quietSince c.world (c.history i)
    | _ => true
  | _ => true

theorem exportsInStep_of_quietExports {l : NodeLabel String Ids} {c : ExampleConfig}
    (h : quietExports l c = true) : exportsInStep l c := by
  rintro i ok s q k rfl hi a wm hmem
  cases q with
  | getItem key =>
    simp only [quietExports, hi, Bool.and_eq_true] at h
    obtain ⟨hbefore, hquiet⟩ := h
    have heq : wm.committed = c.world.committed := by
      simpa [quietSince] using List.all_eq_true.mp hquiet _ hmem
    cases key with
    | kv name =>
      intro x hx hid
      obtain ⟨y, hy, hb⟩ := caughtUp_of_issuedBefore hbefore x ⟨name, hx⟩ hid
      exact ⟨y, heq ▸ hy, hb⟩
    | stateVersion => exact .inl (heq ▸ List.dropWhile_suffix _)
    | _ => trivial
  | _ => trivial

/-- Update 1 of the channel `c` is durable, and an export begins. -/
def beginExport : List (Line Bool (Event String Ids)) :=
  startUp ++ handOverUpdate 1 ++ [.go 0 true 1] ++ commits [1, 2, 3] ++
    [.event .exportState, .go 1 true 1] ++ commits [4]

instance : DecidableEq (Value String Ids) := inferInstance

/-- The manager and the monitor of the channel `c` in the newest envelope. -/
def exportedIds (c : ExampleConfig) : Option (Option (Value String Ids) × Option (Value String Ids)) :=
  c.world.exports.head?.map fun es => (entryOf es .channelManager, entryOf es (.kv "monitors/c"))

theorem exists_of_exportedIds {c : ExampleConfig} {a b : Option (Value String Ids)}
    (h : exportedIds c = some (a, b)) : ∃ es ∈ c.world.exports,
      entryOf es .channelManager = a ∧ entryOf es (.kv "monitors/c") = b := by
  simp only [exportedIds, Option.map_eq_some_iff, Prod.mk.injEq] at h
  obtain ⟨es, hes, ha, hb⟩ := h
  exact ⟨es, List.mem_of_head? hes, ha, hb⟩

end Examples

end LibreWallet.Persist
