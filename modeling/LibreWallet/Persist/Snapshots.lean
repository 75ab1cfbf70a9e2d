import LibreWallet.Persist.Ack

/-
  Persist/Snapshots.lean --- what a serialized channel manager knows.

  LDK hands a monitor update over only once its channel manager knows it, so a
  manager knows every update that was handed over before it was serialized.  This
  is what the storage's consistency rests on; whether what is *stored* is
  consistent depends on which operations have committed, see `Stale` and `Export`.
-/

set_option autoImplicit false

namespace LibreWallet.Persist

open Async

variable {χ M : Type}

/-! ## LDK -/

/-- What LDK documents of its channel managers: the update id that a manager knows for
each channel, and that a manager never forgets. -/
structure Ldk (χ M : Type) where
  knows : M → χ → Nat
  /-- The second came from the first. -/
  grows : M → M → Bool
  knows_mono : ∀ m m' ch, grows m m' = true → knows m ch ≤ knows m' ch

/-- The channel and update id of a monitor value. -/
def Write.monitorId (x : Write χ M) : Option (χ × Nat) :=
  match x.value with
  | some (.monitor ch id _) => some (ch, id)
  | _ => none

theorem Write.monitorId_eq_some_iff {x : Write χ M} {ch : χ} {id : Nat} :
    x.monitorId = some (ch, id) ↔ ∃ b, x.value = some (.monitor ch id b) := by
  simp only [Write.monitorId]
  constructor
  · intro h
    split at h
    · simp_all
    · cases h
  · rintro ⟨b, h⟩
    rw [h]

/-- `x` is what the storage holds for a key of LDK's. -/
def StillStored (committed : List (Write χ M)) (x : Write χ M) : Prop :=
  ∃ name, storedWrite committed (.kv name) = some x

section Contract

variable [DecidableEq χ] [DecidableEq M] (L : Ldk χ M)

/-- The monitor value of a call. -/
def KvCall.monitorId : KvCall χ M → Option (χ × Nat)
  | .write _ (.monitor ch id _) => some (ch, id)
  | _ => none

/-- The running manager knows the monitors that a callback writes. -/
def knowsCalls (w : Node χ M) (calls : List (KvCall χ M)) : Bool :=
  calls.all fun c =>
    match w.phase.channelManager, c.monitorId with
    | some m, some (ch, id) => decide (id ≤ L.knows m ch)
    | _, _ => true

/-- The storage or this session's start holds `x`. -/
def loaded (w : Node χ M) (x : Write χ M) : Bool :=
  decide (x.session = w.session) ||
    match x.key with
    | .kv name => decide (storedWrite w.committed (.kv name) = some x)
    | _ => false

/-- A run of the node as LDK makes it: managers grow, monitors are handed over once their
manager knows them, and a manager that was loaded knows the monitors it was loaded with.
Nothing is imported meanwhile. -/
def lawful (l : NodeLabel χ M) (c : NodeConfig χ M) : Bool :=
  match l with
  | .event (.ldk m') => c.world.phase.channelManager.all fun m => L.grows m m'
  | .event (.persist _ _ _ calls _) => knowsCalls L c.world calls
  | .event (.archive calls) => knowsCalls L c.world calls
  | .event (.ready m) => c.world.issued.all fun x =>
      !loaded c.world x || x.monitorId.all fun (ch, id) => decide (id ≤ L.knows m ch)
  | .event (.importState _) => false
  | _ => true

end Contract

/-! ## The invariant -/

/-- What a session's manager has met: what the session handed over, and what is stored
from before. -/
def Met (committed : List (Write χ M)) (session : Nat) (x : Write χ M) : Prop :=
  x.session = session ∨ StillStored committed x

/-- The invariant of lawful runs. -/
structure Lawful (L : Ldk χ M) (w : Node χ M) : Prop where
  committed : ∀ x ∈ w.committed, x ∈ w.issued
  sessions : ∀ x ∈ w.issued, ∀ y ∈ w.issued, x.serial < y.serial → x.session ≤ y.session
  /-- The manager in memory knows every monitor it has met. -/
  memory : ∀ m, w.phase = .running m → ∀ x ∈ w.issued, ∀ ch id, x.monitorId = some (ch, id) →
    Met w.committed w.session x → id ≤ L.knows m ch
  /-- A manager that was written knows every monitor that its session had met. -/
  snapshots : ∀ y ∈ w.issued, y.key = .channelManager → ∃ m, y.value = some (.manager m) ∧
    ∀ x ∈ w.issued, x.serial < y.serial → ∀ ch id, x.monitorId = some (ch, id) →
      Met w.committed y.session x → id ≤ L.knows m ch

/-- A step that issues operations. -/
structure Adds (L : Ldk χ M) (w w' : Node χ M) : Prop where
  session : w'.session = w.session
  phase : w'.phase = w.phase
  committed : w'.committed = w.committed
  issued : ∃ l, w'.issued = l ++ w.issued ∧ ∀ x ∈ l, x.session = w.session ∧
    w.issued.length ≤ x.serial ∧
    (x.key = .channelManager → ∃ m, w.phase = .running m ∧ x.value = some (.manager m)) ∧
    ∀ ch id, x.monitorId = some (ch, id) → ∀ m, w.phase = .running m → id ≤ L.knows m ch

variable {L : Ldk χ M} {w w' : Node χ M}

theorem Adds.refl (w : Node χ M) : Adds L w w := ⟨rfl, rfl, rfl, [], rfl, by simp⟩

theorem Adds.trans {u v w : Node χ M} (h : Adds L u v) (h' : Adds L v w) : Adds L u w where
  session := h'.session.trans h.session
  phase := h'.phase.trans h.phase
  committed := h'.committed.trans h.committed
  issued := by
    obtain ⟨l, hl, hnew⟩ := h.issued
    obtain ⟨l', hl', hnew'⟩ := h'.issued
    refine ⟨l' ++ l, by rw [hl', hl, List.append_assoc], fun x hx => ?_⟩
    rcases List.mem_append.mp hx with hx | hx
    · obtain ⟨h₁, h₂, h₃, h₄⟩ := hnew' x hx
      rw [h.session] at h₁
      rw [h.phase] at h₃ h₄
      have hlen : u.issued.length ≤ v.issued.length := by
        rw [hl, List.length_append]
        omega
      exact ⟨h₁, Nat.le_trans hlen h₂, h₃, h₄⟩
    · exact hnew x hx

/-- One operation, that is a snapshot of the manager if it writes the manager, and that
the manager knows if it writes a monitor. -/
theorem adds_issue (w : Node χ M) (ks : List String) (t : Bool) (k : Key) (v : Option (Value χ M))
    (hm : k = .channelManager → ∃ m, w.phase = .running m ∧ v = some (.manager m))
    (hv : ∀ ch id b, v = some (.monitor ch id b) → ∀ m, w.phase = .running m → id ≤ L.knows m ch) :
    Adds L w (({ w with keys := ks } : Node χ M).issue t k v) where
  session := rfl
  phase := rfl
  committed := rfl
  issued := by
    refine ⟨[_], rfl, fun x hx => ?_⟩
    rw [List.mem_singleton.mp hx]
    refine ⟨rfl, Nat.le_refl _, hm, fun ch id h => ?_⟩
    obtain ⟨b, hb⟩ := Write.monitorId_eq_some_iff.mp h
    exact hv ch id b hb

/-- What the cache writes for LDK, if LDK's manager knows it. -/
theorem adds_call (w : Node χ M) (c : KvCall χ M)
    (hc : ∀ ch id, c.monitorId = some (ch, id) → ∀ m, w.phase = .running m → id ≤ L.knows m ch) :
    Adds L w (w.call c) := by
  have index : ∀ ks, Adds L w ({ w with keys := ks } : Node χ M).persistIndex := fun ks =>
    adds_issue w ks true .ldkKeysIndex _ (by simp) (by simp)
  cases c with
  | write name v =>
    have hv : ∀ ch id b, some v = some (.monitor ch id b) → ∀ m, w.phase = .running m →
        id ≤ L.knows m ch := by
      intro ch id b h
      cases h
      exact hc ch id rfl
    simp only [Node.call, Node.write]
    split
    · split
      · exact adds_issue w w.keys true (.kv name) (some v) (by simp) hv
      · exact (index _).trans (adds_issue _ _ true (.kv name) (some v) (by simp) hv)
    · exact .refl w
  | remove name =>
    simp only [Node.call, Node.remove]
    split
    · split
      · exact (index _).trans (adds_issue _ _ true (.kv name) none (by simp) (by simp))
      · exact adds_issue w w.keys true (.kv name) none (by simp) (by simp)
    · exact .refl w

theorem adds_callAll [DecidableEq χ] [DecidableEq M] (w : Node χ M) (calls : List (KvCall χ M))
    (hc : knowsCalls L w calls = true) : Adds L w (w.callAll calls) := by
  induction calls generalizing w with
  | nil => exact .refl w
  | cons c calls ih =>
    simp only [knowsCalls, List.all_cons, Bool.and_eq_true] at hc
    obtain ⟨hhead, htail⟩ := hc
    have h : Adds L w (w.call c) := by
      refine adds_call w c fun ch id hid m hm => ?_
      simpa [hid, hm, Phase.channelManager] using hhead
    refine h.trans (ih (w.call c) ?_)
    rw [knowsCalls, h.phase]
    exact htail

theorem adds_notifyStateChanged (w : Node χ M) : Adds L w w.notifyStateChanged := by
  have h := adds_issue (L := L) ({ w with stateVersion := w.stateVersion + 1 } : Node χ M) w.keys
    false .stateVersion (some (.version (w.stateVersion + 1))) (by simp) (by simp)
  exact ⟨h.session, h.phase, h.committed, h.issued⟩

theorem adds_eventTick (w : Node χ M) {m : M} (hm : w.phase = .running m) :
    Adds L w (w.eventTick m) :=
  (adds_issue w w.keys false .channelManager (some (.manager m)) (fun _ => ⟨m, hm, rfl⟩)
    (by simp)).trans (adds_notifyStateChanged _)

/-- Issuing keeps the invariant. -/
theorem Lawful.adds (hi : Inv w) (hl : Lawful L w) (h : Adds L w w') : Lawful L w' := by
  obtain ⟨l, hiss, hnew⟩ := h.issued
  have hold : ∀ {x : Write χ M}, x ∈ w'.issued → x ∈ l ∨ x ∈ w.issued := fun hx => by
    rw [hiss] at hx
    exact List.mem_append.mp hx
  have hlt : ∀ {x y : Write χ M}, x ∈ w'.issued → y ∈ w.issued → x.serial < y.serial →
      x ∈ w.issued := by
    intro x y hx hy hxy
    refine (hold hx).resolve_left fun hxl => ?_
    have h₁ := (hnew x hxl).2.1
    have h₂ := hi.serial_lt hy
    omega
  -- what the present manager knows, of the old operations and of the new
  have hknown : ∀ m, w.phase = .running m → ∀ x ∈ w'.issued, ∀ ch id,
      x.monitorId = some (ch, id) → Met w.committed w.session x → id ≤ L.knows m ch := by
    intro m hm x hx ch id hid hmet
    rcases hold hx with hxl | hx
    · exact (hnew x hxl).2.2.2 ch id hid m hm
    · exact hl.memory m hm x hx ch id hid hmet
  refine ⟨fun x hx => ?_, fun x hx y hy hxy => ?_, fun m hm => ?_, fun y hy hk => ?_⟩
  · rw [hiss]
    exact List.mem_append_right _ (hl.committed x (h.committed ▸ hx))
  · rcases hold hy with hyl | hy
    · rw [(hnew y hyl).1]
      rcases hold hx with hxl | hx
      · exact Nat.le_of_eq (hnew x hxl).1
      · exact (hi.session x hx).2
    · exact hl.sessions x (hlt hx hy hxy) y hy hxy
  · rw [h.committed, h.session]
    exact hknown m (h.phase ▸ hm)
  · rw [h.committed]
    rcases hold hy with hyl | hy
    · obtain ⟨hs, -, hmgr, -⟩ := hnew y hyl
      obtain ⟨m, hm, hval⟩ := hmgr hk
      rw [hs]
      exact ⟨m, hval, fun x hx _ => hknown m hm x hx⟩
    · obtain ⟨m, hval, hsnap⟩ := hl.snapshots y hy hk
      exact ⟨m, hval, fun x hx hxy => hsnap x (hlt hx hy hxy) hxy⟩

/-- Committing an operation of the session keeps the invariant. -/
theorem Lawful.settle (hi : Inv w) (hl : Lawful L w) {serial : Nat} {ok : Bool}
    (hw : w.settle serial ok = some w') : Lawful L w' := by
  simp only [Node.settle, Option.map_eq_some_iff] at hw
  obtain ⟨x, hfind, rfl⟩ := hw
  obtain ⟨hxi, hxs, -, -⟩ := hi.queue x (List.mem_of_find?_eq_some hfind)
  have hstored : ∀ z, StillStored (if ok then x :: w.committed else w.committed) z →
      StillStored w.committed z ∨ z = x := by
    rintro z ⟨name, hz⟩
    cases ok with
    | false => exact .inl ⟨name, hz⟩
    | true =>
      simp only [if_true, storedWrite_cons] at hz
      split at hz
      · cases hz
        exact .inr rfl
      · exact .inl ⟨name, hz⟩
  refine ⟨fun z hz => ?_, hl.sessions, fun m hm z hz ch id hid hmet => ?_, fun y hy hk => ?_⟩
  · cases ok with
    | false => exact hl.committed z hz
    | true =>
      rcases List.mem_cons.mp hz with rfl | hz
      · exact hxi
      · exact hl.committed z hz
  · refine hl.memory m hm z hz ch id hid ?_
    rcases hmet with hs | hs
    · exact .inl hs
    · exact (hstored z hs).elim .inr fun h => .inl (h ▸ hxs)
  · obtain ⟨m, hval, hsnap⟩ := hl.snapshots y hy hk
    refine ⟨m, hval, fun z hz hzy ch id hid hmet => hsnap z hz hzy ch id hid ?_⟩
    rcases hmet with hs | hs
    · exact .inl hs
    · rcases hstored z hs with h | rfl
      · exact .inr h
      · -- it commits now, so the later write is of the same session
        have h₁ := hl.sessions z hz y hy hzy
        have h₂ := (hi.session y hy).2
        exact .inl (by omega)

/-! ## Lawful runs -/

section Runs

variable [DecidableEq χ] [DecidableEq M] (L : Ldk χ M)

/-- Nothing is imported. -/
def NoImport (c : NodeConfig χ M) : Prop :=
  ∀ (i s : Nat) (p : Persisting χ M Unit), c.pool[i]? ≠ some (⟨s, .importState⟩, p)

variable {L} {l : NodeLabel χ M} {c c' : NodeConfig χ M}

/-- A loaded operation is one that the session has met. -/
theorem loaded_of_met {x : Write χ M} (h : Met w.committed w.session x) : loaded w x = true := by
  rcases h with h | ⟨name, h⟩
  · simp [loaded, h]
  · have hk : x.key = .kv name := by simpa using List.find?_some h
    simp [loaded, hk, h]

omit [DecidableEq χ] [DecidableEq M] in
/-- A step that issues and commits nothing. -/
theorem Lawful.same (hl : Lawful L w) (h₁ : w'.issued = w.issued)
    (h₂ : w'.committed = w.committed)
    (h₃ : ∀ m, w'.phase = .running m → ∀ x ∈ w.issued, ∀ ch id, x.monitorId = some (ch, id) →
      Met w.committed w'.session x → id ≤ L.knows m ch) : Lawful L w' where
  committed := by
    rw [h₁, h₂]
    exact hl.committed
  sessions := by
    rw [h₁]
    exact hl.sessions
  memory := by
    rw [h₁, h₂]
    exact h₃
  snapshots := by
    rw [h₁, h₂]
    exact hl.snapshots

omit [DecidableEq χ] [DecidableEq M] in
theorem Lawful.exec (hi : Inv w) (hl : Lawful L w) {j : Task χ M} {q : Request χ M}
    {h : List (PersistEntry χ M)} {ok : Bool} {r : Except String (Answer q)}
    (hob : Obliged j h q w) (hj : j.verb ≠ .importState) (he : exec q ok w = some (r, w')) :
    Lawful L w' := by
  have other : ∀ name (v : Option (Value χ M)), (∀ ch id b, v ≠ some (.monitor ch id b)) →
      Lawful L (w.issue false (.other name) v) := fun name v hv =>
    hl.adds hi (adds_issue w w.keys false (.other name) v (by simp)
      fun ch id b h => absurd h (hv ch id b))
  cases q with
  | writeManager =>
    simp only [Persist.exec] at he
    split at he
    · cases he
      exact hl
    · rename_i m hm
      cases he
      have hrun : w.phase = .running m := by
        cases hw : w.phase <;> simp_all [Phase.channelManager]
      exact hl.adds hi (adds_issue w w.keys false .channelManager _ (fun _ => ⟨m, hrun, rfl⟩)
        (by simp))
  | setItem k v =>
    cases he
    obtain ⟨⟨name, rfl⟩, t, rfl⟩ := hob.resolve_right hj
    exact other name _ (by simp)
  | removeItem k =>
    cases he
    obtain ⟨name, rfl⟩ := hob
    exact other name none (by simp)
  | settled n =>
    simp only [Persist.exec] at he
    split at he
    · cases he
    · cases he
      exact hl
  | flushBegin | getItem k =>
    cases he
    exact hl
  | allSettled ns =>
    simp only [Persist.exec] at he
    split at he
    · cases he
    · cases he
      exact hl
  | channelMonitorUpdated u =>
    simp only [Persist.exec, Option.some.injEq, Prod.mk.injEq] at he
    obtain ⟨-, rfl⟩ := he
    split
    · exact hl.same rfl rfl hl.memory
    · exact hl
  | envelope es =>
    cases he
    exact hl.same rfl rfl hl.memory
  | tearDown =>
    cases he
    exact hl.same rfl rfl fun m h => by cases h

theorem Lawful.event (hi : Inv c.world) (hl : Lawful L c.world) {e : Event χ M}
    {called : Option (Task χ M × Persisting χ M Unit)} (hs : lawful L (.event e) c = true)
    (he : effect e c.world = some (w', called)) : Lawful L w' := by
  cases e with
  | load seedHex =>
    simp only [effect] at he
    split at he
    · rename_i hd
      cases he
      have h : Lawful L c.world.load := hl.same rfl rfl fun m h => by cases h
      have hi' := (load_respects hi (by cases hw : c.world.phase <;> simp_all)).2
      simp only [Node.ensureSeed]
      split
      · exact h
      · exact h.adds hi' (adds_issue c.world.load c.world.load.keys false .ldkSeed _ (by simp)
          (by simp))
    · cases he
  | ready m =>
    simp only [effect] at he
    split at he
    · cases he
      refine hl.same rfl rfl fun m' hm x hx ch id hid hmet => ?_
      cases hm
      simp only [lawful, List.all_eq_true, Bool.or_eq_true, Bool.not_eq_true'] at hs
      have h := (hs x hx).resolve_left (by simp [loaded_of_met hmet])
      simpa [hid] using h
    · cases he
  | ldk m' =>
    simp only [effect] at he
    split at he
    · rename_i hr
      cases he
      refine hl.same rfl rfl fun m'' hm x hx ch id hid hmet => ?_
      cases hm
      cases hp : c.world.phase with
      | running m =>
        have hg : L.grows m m' = true := by simpa [lawful, hp, Phase.channelManager] using hs
        exact Nat.le_trans (hl.memory m hp x hx ch id hid hmet) (L.knows_mono m m' ch hg)
      | _ =>
        rw [hp] at hr
        cases hr
    · cases he
  | started =>
    simp only [effect] at he
    split at he
    · cases he
      exact hl.same rfl rfl hl.memory
    · cases he
  | persist channel update latest calls unrecoverable =>
    simp only [effect] at he
    split at he
    · cases he
      have h := hl.adds hi (adds_callAll c.world calls hs)
      exact h.same rfl rfl h.memory
    · cases he
  | archive calls =>
    simp only [effect] at he
    split at he
    · cases he
      exact hl.adds hi (adds_callAll c.world calls hs)
    · cases he
  | eventTick =>
    simp only [effect, Option.map_eq_some_iff] at he
    obtain ⟨m, hm, he⟩ := he
    cases he
    have hrun : c.world.phase = .running m := by
      cases hw : c.world.phase <;> simp_all [Phase.channelManager]
    exact hl.adds hi (adds_eventTick c.world hrun)
  | channelClosed =>
    simp only [effect] at he
    split at he
    · cases he
      exact hl.adds hi (adds_notifyStateChanged c.world)
    · cases he
  | stop | exportState =>
    cases he
    exact hl
  | importState entries => cases hs
  | settle serial ok =>
    simp only [effect, Option.map_eq_some_iff] at he
    obtain ⟨w₁, hw, he⟩ := he
    cases he
    exact hl.settle hi hw
  | react serial =>
    simp only [effect, Option.map_eq_some_iff, Node.react] at he
    obtain ⟨w₁, hw, he⟩ := he
    cases he
    split at hw
    · cases hw
      exact hl.same rfl rfl hl.memory
    · cases hw
  | crash =>
    cases he
    exact hl.same rfl rfl fun m h => by cases h

theorem lawful_step (hd : (protocol χ M).Sound c) (hl : Lawful L c.world) (hno : NoImport c)
    (hs : lawful L l c = true) (hdid : (protocol χ M).Did l c c') :
    Lawful L c'.world ∧ NoImport c' := by
  have hno' : NoImport c' := by
    intro i s p hp
    rcases hdid.job_mem hd hp with ⟨p', h⟩ | ⟨e, w, p', rfl, h⟩
    · exact hno i s p' h
    · change effect e c.world = _ at h
      cases e with
      | importState entries => cases hs
      | stop | exportState => cases h
      | persist channel update latest calls unrecoverable =>
        simp only [effect] at h
        split at h
        · cases unrecoverable <;> cases h
        · cases h
      | eventTick | settle serial ok | react serial =>
        simp [effect] at h
      | _ =>
        simp only [effect] at h
        first
        | cases h
        | (split at h <;> cases h)
  refine ⟨?_, hno'⟩
  cases hdid with
  | call i ch j q k r _ hi _ he hob _ _ =>
    change execTask j q ch c.world = some (r, c'.world) at he
    simp only [execTask] at he
    split at he
    · exact hl.exec hd.inv hob (fun hj => hno i j.session _ (by rw [hi, ← hj])) he
    · cases he
  | resume i j p _ _ _ hsync _ _ _ =>
    have : c'.world = c.world := hsync
    rwa [this]
  | event e hl' he _ _ =>
    subst hl'
    exact hl.event hd.inv hs he
  | called e w j p hl' he hsync _ _ _ =>
    subst hl'
    have : c'.world = w := hsync
    rw [this]
    exact hl.event hd.inv hs he

omit [DecidableEq χ] [DecidableEq M] in
theorem lawful_initial : Lawful L (initial []).world ∧ NoImport (initial ([] : List (Key × Value χ M))) := by
  refine ⟨⟨?_, ?_, ?_, ?_⟩, ?_⟩ <;> simp [initial, before, NoImport]

/-- Every configuration of a lawful run: what it holds, and that nothing is imported. -/
theorem lawful_of_run (hrun : (node χ M).Run (fun l c => lawful L l c = true) (initial []) c) :
    (protocol χ M).Sound c ∧ Lawful L c.world ∧ NoImport c :=
  Protocol.invariant_of_run (I := fun c => Lawful L c.world ∧ NoImport c) admits
    (.initial (inv_initial [])) lawful_initial
    (fun _ _ _ hd _ hI hs hdid => lawful_step hd hI.1 hI.2 hs hdid) hrun

end Runs

end LibreWallet.Persist
