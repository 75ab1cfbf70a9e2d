import LibreWallet.Persist.Steps

/-
  Persist/Protocol.lean --- one specification for each procedure of the node.

  Synchronous code does nothing to the node by itself: what it does is part of the
  requests, which take effect in later microtasks.
-/

set_option autoImplicit false

namespace LibreWallet.Persist

open Async

variable {χ M : Type} {v w w' : Node χ M}

/-! ## Requests -/

/-- The reads of a list of keys, newest first, from a state on, and their entries. -/
def ReadBlock : Node χ M → List Key → List (PersistEntry χ M) → List (Key × Value χ M) → Prop
  | _, [], block, entries => block = [] ∧ entries = []
  | v, k :: ks, block, entries =>
    ∃ (a : Option (Value χ M)) (w₁ : Node χ M) (rest : List (PersistEntry χ M))
      (entries' : List (Key × Value χ M)),
      Evolves v w₁ ∧ a = stored w₁.committed k ∧ block = rest ++ [⟨.getItem k, .ok a, w₁⟩] ∧
      ReadBlock w₁ ks rest entries' ∧
      entries = addEntry k entries' a

/-- What `exportState` has read when it makes the envelope. -/
def Assembled (h : List (PersistEntry χ M)) (entries : List (Key × Value χ M)) : Prop :=
  ∃ (v v' : Node χ M) (direct listed : List (Key × Value χ M))
    (first second pre : List (PersistEntry χ M)),
    entries = direct ++ listed ∧ h = second ++ (first ++ pre) ∧
    ReadBlock v BACKUP_DIRECT_KEYS first direct ∧
    (∀ e ∈ first, Evolves e.before v') ∧
    ReadBlock v' ((indexEntry direct).map .kv) second listed

/-- What has to hold when a request takes effect. -/
def Obliged (j : Task χ M) (h : List (PersistEntry χ M)) (q : Request χ M) (w : Node χ M) : Prop :=
  match q with
  | .setItem k v => ((∃ name, k = .other name) ∧ ∃ t, v = .text t) ∨ j.verb = .importState
  | .removeItem k => ∃ name, k = .other name
  | .channelMonitorUpdated u =>
    w.phase.hasChainMonitor = true → AckOk w.issued w.committed u
  | .envelope entries => j.verb = .exportState ∧ Assembled h entries
  | _ => True

theorem exec_respects (hi : Inv w) {j : Task χ M} {h : List (PersistEntry χ M)} {q : Request χ M}
    {ok : Bool}
    {r : Except String (Answer q)} (hob : Obliged j h q w) (he : exec q ok w = some (r, w')) :
    Evolves w w' ∧ Inv w' := by
  cases q with
  | writeManager =>
    simp only [exec] at he
    split at he
    · cases he
      exact ⟨.refl w, hi⟩
    · cases he
      obtain ⟨hs, hi'⟩ := issue_respects hi false .channelManager _
      exact ⟨hs.evolves hi, hi'⟩
  | setItem k v =>
    cases he
    obtain ⟨hs, hi'⟩ := issue_respects hi false k (some v)
    exact ⟨hs.evolves hi, hi'⟩
  | removeItem k =>
    cases he
    obtain ⟨hs, hi'⟩ := issue_respects hi false k none
    exact ⟨hs.evolves hi, hi'⟩
  | settled n =>
    simp only [exec] at he
    split at he
    · cases he
    · cases he
      exact ⟨.refl w, hi⟩
  | flushBegin | getItem k =>
    cases he
    exact ⟨.refl w, hi⟩
  | allSettled ns =>
    simp only [exec] at he
    split at he
    · cases he
    · cases he
      exact ⟨.refl w, hi⟩
  | channelMonitorUpdated u =>
    simp only [exec, Option.some.injEq, Prod.mk.injEq] at he
    obtain ⟨-, rfl⟩ := he
    split
    · rename_i hc
      refine ⟨{ Evolves.refl w with }, { hi with acked := fun h hh => ?_ }⟩
      rcases List.mem_cons.mp hh with rfl | hh
      · exact hob hc
      · exact hi.acked h hh
    · exact ⟨.refl w, hi⟩
  | envelope es =>
    cases he
    exact ⟨{ Evolves.refl w with }, { hi with }⟩
  | tearDown =>
    cases he
    exact ⟨{ Evolves.refl w with running := fun _ _ => .inr rfl, stopped := fun _ _ => rfl },
      { hi with }⟩

/-- The rely-guarantee protocol of the node. -/
def protocol (χ M : Type) : Protocol (node χ M) where
  inv := Inv
  rely := Evolves
  sync := fun _ v w => w = v
  oblige := Obliged
  rely_refl := Evolves.refl
  rely_trans := Evolves.trans
  sync_refl := fun _ _ => rfl
  sync_rely := fun _ _ _ h => h ▸ Evolves.refl _

abbrev contract (j : Task χ M) := (protocol χ M).contract j

section Rules

variable {j : Task χ M} {h : List (PersistEntry χ M)}

/-- The rule for one request: it takes effect in the session of its task. -/
theorem wp_ask {q : Request χ M}
    {Post : PostCond (Node χ M) (Request χ M) Answer String (Answer q)} (hi : Inv w)
    (hob : ∀ w₁, Evolves w w₁ → Inv w₁ → j.session = w₁.session → Obliged j h q w₁)
    (hk : ∀ ok r w₁ w₂ w₃, Evolves w w₁ → Inv w₁ → j.session = w₁.session →
      exec q ok w₁ = some (r, w₂) → Inv w₂ → Evolves w₁ w₂ → Evolves w₂ w₃ → Inv w₃ →
      Post (⟨q, r, w₁⟩ :: h) r w₃ w₃) :
    wp (contract j) (ask q) h Post w w := by
  rw [ask, wp_request]
  refine ⟨rfl, hi, fun w₁ hr₁ hi₁ c r w₂ _ he => ?_⟩
  change execTask j q c w₁ = some (r, w₂) at he
  simp only [execTask] at he
  split at he
  · rename_i hses
    have hob₁ := hob w₁ hr₁ hi₁ hses
    obtain ⟨hev, hi₂⟩ := exec_respects hi₁ hob₁ he
    exact ⟨hob₁, hev, hi₂, fun w₃ hr₃ hi₃ => hk c r w₁ w₂ w₃ hr₁ hi₁ hses he hi₂ hev hr₃ hi₃⟩
  · cases he

/-- The rule for a request that owes nothing and of which only the end matters. -/
theorem wp_ask_free {q : Request χ M}
    {Post : PostCond (Node χ M) (Request χ M) Answer String (Answer q)} (hi : Inv w)
    (hob : ∀ w₁, Obliged j h q w₁)
    (hk : ∀ r w₁ w₃, Evolves w w₃ → Inv w₃ → Post (⟨q, r, w₁⟩ :: h) r w₃ w₃) :
    wp (contract j) (ask q) h Post w w :=
  wp_ask hi (fun w₁ _ _ _ => hob w₁) fun _ r w₁ _ w₃ h₁ _ _ _ _ h₂ h₃ hi₃ =>
    hk r w₁ w₃ (h₁.trans _ _ _ (h₂.trans _ _ _ h₃)) hi₃

/-- Any end will do. -/
def AnyEnd {α : Type} (w : Node χ M) (h : List (PersistEntry χ M))
    (Post : PostCond (Node χ M) (Request χ M) Answer String α) : Prop :=
  ∀ h' r w₃, h <:+ h' → Evolves w w₃ → Inv w₃ → Post h' r w₃ w₃

/-- A channel manager that was serialized after `v`, as committed. -/
def ManagerAfter (v w : Node χ M) : Prop :=
  ∃ y ∈ w.committed, y.key = .channelManager ∧ (∃ m, y.value = some (.manager m)) ∧
    v.issued.length ≤ y.serial

/-- The node was without a channel manager at some time between. -/
def Unmanaged (j : Task χ M) (v w : Node χ M) : Prop :=
  ∃ u, Evolves v u ∧ j.session = u.session ∧ u.phase.channelManager = none ∧ Evolves u w

/-- An operation of this session that is settled and was not rejected has committed. -/
theorem committed_of_settled (hi : Inv w) {n : Nat} {ok : Bool}
    (he : exec (.settled n) ok w = some (.ok (), w')) {y : Write χ M} (hy : y ∈ w.issued)
    (hs : y.session = w.session) (hn : y.serial = n) : y ∈ w.committed := by
  simp only [exec] at he
  split at he
  · cases he
  · rename_i hq
    simp only [Option.some.injEq, Prod.mk.injEq] at he
    obtain ⟨hr, -⟩ := he
    split at hr
    · cases hr
    · rename_i hrej
      simp only [List.any_eq_true, decide_eq_true_eq, not_exists, not_and] at hq hrej
      rcases hi.outcome y hy hs with h | h | h
      · exact absurd hn (hq y h)
      · exact h
      · exact absurd hn (hrej y h)

theorem wp_writeChannelManagerForDurableBatch
    {Post : PostCond (Node χ M) (Request χ M) Answer String Unit} (hi : Inv w)
    (hok : ∀ h' w₃, h <:+ h' → Evolves w w₃ → Inv w₃ → ManagerAfter w w₃ ∨ Unmanaged j w w₃ →
      Post h' (.ok ()) w₃ w₃)
    (herr : ∀ h' e w₃, h <:+ h' → Evolves w w₃ → Inv w₃ → Post h' (.error e) w₃ w₃) :
    wp (contract j) writeChannelManagerForDurableBatch h Post w w := by
  simp only [writeChannelManagerForDurableBatch, Proc.bind_eq, wp_bind]
  refine wp_ask hi (fun _ _ _ _ => trivial) fun ok r w₁ w₂ w₃ h₁ hi₁ hs₁ he hi₂ h₂ h₃ hi₃ => ?_
  simp only [exec] at he
  split at he
  · rename_i hnone
    simp only [Option.some.injEq, Prod.mk.injEq] at he
    obtain ⟨rfl, rfl⟩ := he
    exact hok _ w₃ (List.suffix_cons _ _) (h₁.trans _ _ _ h₃) hi₃
      (.inr ⟨w₁, h₁, hs₁, hnone, h₃⟩)
  · rename_i m _
    simp only [Option.some.injEq, Prod.mk.injEq] at he
    obtain ⟨rfl, rfl⟩ := he
    simp only
    have hev₃ := h₁.trans _ _ _ (h₂.trans _ _ _ h₃)
    refine wp_ask hi₃ (fun _ _ _ _ => trivial) fun ok' r' w₄ w₅ w₆ h₄ hi₄ hs₄ he' _ h₅ h₆ hi₆ => ?_
    have hev := hev₃.trans _ _ _ (h₄.trans _ _ _ (h₅.trans _ _ _ h₆))
    have hsuf : h <:+ ⟨.settled w₁.issued.length, r', w₄⟩ ::
        ⟨.writeManager, .ok (some w₁.issued.length), w₁⟩ :: h := ⟨[_, _], rfl⟩
    cases r' with
    | error e => exact herr _ e w₆ hsuf hev hi₆
    | ok u =>
      refine hok _ w₆ hsuf hev hi₆ (.inl ?_)
      have hy := committed_of_settled hi₄ he'
        (y := ⟨w₁.issued.length, w₁.session, false, .channelManager, some (.manager m)⟩)
        ((h₃.trans _ _ _ h₄).issued.subset (List.mem_cons_self)) (hs₁.symm.trans hs₄) rfl
      exact ⟨_, (h₅.trans _ _ _ h₆).committed.subset hy, rfl, ⟨m, rfl⟩, h₁.issued.length_le⟩

/-- A flush that passes has committed what was tracked when it began, and the cache was
healthy. -/
theorem wp_flush {Post : PostCond (Node χ M) (Request χ M) Answer String Unit} (hi : Inv w)
    (hok : ∀ h' w₃, h <:+ h' → Evolves w w₃ → Inv w₃ →
      (w.session = j.session → w.persistenceHealthy = true ∧
        ∀ x ∈ w.issued, x.tracked = true → x.session = j.session → x ∈ w₃.committed) →
      Post h' (.ok ()) w₃ w₃)
    (herr : ∀ h' e w₃, h <:+ h' → Evolves w w₃ → Inv w₃ → Post h' (.error e) w₃ w₃) :
    wp (contract j) flush h Post w w := by
  simp only [flush, Proc.bind_eq, wp_bind]
  refine wp_ask hi (fun _ _ _ _ => trivial) fun ok r w₁ w₂ w₃ h₁ hi₁ hs₁ he _ h₂ h₃ hi₃ => ?_
  have hev₃ := h₁.trans _ _ _ (h₂.trans _ _ _ h₃)
  simp only [exec, Option.some.injEq, Prod.mk.injEq] at he
  obtain ⟨hr, rfl⟩ := he
  cases r with
  | error e => exact herr _ e w₃ (List.suffix_cons _ _) hev₃ hi₃
  | ok snapshot =>
    have hp : w₁.persistenceHealthy = true ∧ snapshot = w₁.pending := by
      split at hr
      · rename_i hp
        cases hr
        exact ⟨hp, rfl⟩
      · cases hr
    obtain ⟨hp, rfl⟩ := hp
    simp only
    refine wp_ask hi₃ (fun _ _ _ _ => trivial) fun ok' r' w₄ w₅ w₆ h₄ hi₄ hs₄ he' _ h₅ h₆ hi₆ => ?_
    have hev := hev₃.trans _ _ _ (h₄.trans _ _ _ (h₅.trans _ _ _ h₆))
    have hsuf : h <:+ ⟨.allSettled w₁.pending, r', w₄⟩ :: ⟨.flushBegin, .ok w₁.pending, w₁⟩ :: h :=
      ⟨[_, _], rfl⟩
    cases r' with
    | error e => exact herr _ e w₆ hsuf hev hi₆
    | ok u =>
      refine hok _ w₆ hsuf hev hi₆ fun hses => ⟨h₁.healthy (hs₁.symm.trans hses.symm) hp, ?_⟩
      intro x hx ht hxs
      refine (h₅.trans _ _ _ h₆).committed.subset ?_
      simp only [exec] at he'
      split at he'
      · cases he'
      · rename_i hq
        simp only [Option.some.injEq, Prod.mk.injEq] at he'
        obtain ⟨hr', -⟩ := he'
        split at hr'
        · rename_i hrej
          simp only [List.any_eq_true, decide_eq_true_eq, not_exists, not_and] at hq hrej
          exact committed_of_flushed hi₁ hi₄ (h₃.trans _ _ _ h₄) (hs₄.symm.trans hs₁) hp hq
            hrej.2 (h₁.issued.subset hx) ht (hxs.trans hs₁)
        · cases hr'

/-- The acknowledgement of an update that was handed over. -/
theorem wp_scheduleDurableAck {u : Handed χ M}
    {Post : PostCond (Node χ M) (Request χ M) Answer String Unit} (hi : Inv w)
    (hu : u ∈ w.handed) (hj : j.session = u.session) (hw : w.session = u.session)
    (hm : u.managed = true → w.phase.channelManager.isSome = true) (hk : AnyEnd w h Post) :
    wp (contract j) (scheduleDurableAck u) h Post w w := by
  obtain ⟨-, -, hlast, hrec⟩ := hi.handed u hu
  have hsame : ∀ {v : Node χ M}, Evolves w v → (∃ v', Evolves v v' ∧ j.session = v'.session) →
      v.session = u.session := by
    intro v hv ⟨v', hv', hs⟩
    have h₁ := hv.session
    have h₂ := hv'.session
    omega
  simp only [scheduleDurableAck, durableFlush, Proc.bind_eq, wp_rescue, wp_bind]
  refine wp_writeChannelManagerForDurableBatch hi (fun h₁ w₁ hs₁ hev₁ hi₁ hman => ?_)
    fun h₁ e w₁ hs₁ hev₁ hi₁ => hk _ _ _ hs₁ hev₁ hi₁
  refine wp_flush hi₁ (fun h₂ w₂ hs₂ hev₂ hi₂ hflush => ?_)
    fun h₂ e w₂ hs₂ hev₂ hi₂ => hk _ _ _ (hs₁.trans hs₂) (hev₁.trans _ _ _ hev₂) hi₂
  refine wp_ask hi₂ (fun w₃ hev₃ hi₃ hs₃ hchain => ?_) fun ok r w₃ w₄ w₅ h₃ _ _ _ _ h₄ h₅ hi₅ => ?_
  · -- the session is still that of the hand-over, so the flush speaks of it
    have hev := (hev₁.trans _ _ _ hev₂).trans _ _ _ hev₃
    have hses₁ := hsame hev₁ ⟨w₃, hev₂.trans _ _ _ hev₃, hs₃⟩
    have hses₃ := hsame hev ⟨w₃, .refl w₃, hs₃⟩
    obtain ⟨hhealthy, hcom⟩ := hflush (hses₁.trans hj.symm)
    have hcom' : ∀ x ∈ w₃.issued, x.tracked = true → x.session = u.session → x.serial < u.last →
        x ∈ w₃.committed := by
      intro x hx ht hxs hlt
      have hxw := hi₃.mem_of_serial_lt (hev₁.trans _ _ _ (hev₂.trans _ _ _ hev₃)).issued hx
        (Nat.lt_of_lt_of_le hlt hlast)
      exact hev₃.committed.subset (hcom x (hev₁.issued.subset hxw) ht (hxs.trans hj.symm))
    have hrec' := hrec hw.symm (hev₁.healthy (hses₁.trans hw.symm) hhealthy)
    refine ⟨Nat.le_trans hlast hev.issued.length_le, hcom', fun name v hv => ?_, fun hmanaged => ?_⟩
    · obtain ⟨⟨x, hx, ht, hrest⟩, hl⟩ := hrec' name v hv
      refine ⟨⟨x, hcom' x (hev.issued.subset hx) ht.tracked ht.session ht.last, ht, hrest⟩, ?_⟩
      rcases hl with ⟨z, hz, hrest'⟩ | hl
      · simp only [List.mem_filter, Bool.and_eq_true, decide_eq_true_eq] at hz
        exact ⟨z, hcom' z (hev.issued.subset hz.1) hz.2.1.1 hz.2.1.2 hz.2.2, hrest'⟩
      · exact hl.mono hev.committed.subset
    · rcases hman with ⟨y, hy, hkey, hval, hser⟩ | ⟨v, hv, hvs, hnone, hv₁⟩
      · exact ⟨y, (hev₂.trans _ _ _ hev₃).committed.subset hy, hkey, hval, Nat.le_trans hlast hser⟩
      · -- without a manager the node was torn down, and nothing is acknowledged
        have hvses : v.session = w.session := (hvs.symm.trans hj).trans hw.symm
        have hstop : v.phase = .stopped := by
          rcases hv.running hvses (hm hmanaged) with h | h
          · rw [hnone] at h
            cases h
          · exact h
        have hstop₃ := (hv₁.trans _ _ _ (hev₂.trans _ _ _ hev₃)).stopped
          (hs₃.symm.trans hvs) hstop
        rw [hstop₃] at hchain
        cases hchain
  · have hev := (hev₁.trans _ _ _ hev₂).trans _ _ _ (h₃.trans _ _ _ (h₄.trans _ _ _ h₅))
    cases r with
    | ok _ => exact hk _ _ _ ((hs₁.trans hs₂).trans (List.suffix_cons _ _)) hev hi₅
    | error e => exact hk _ _ _ ((hs₁.trans hs₂).trans (List.suffix_cons _ _)) hev hi₅

/-! ## Stop, export, import -/

theorem wp_setItem {k : Key} {x : Value χ M}
    {Post : PostCond (Node χ M) (Request χ M) Answer String Unit} (hi : Inv w)
    (hkey : ((∃ name, k = .other name) ∧ ∃ t, x = .text t) ∨ j.verb = .importState) (hk : AnyEnd w h Post) : wp (contract j) (setItem k x) h Post w w := by
  simp only [setItem, Proc.bind_eq, wp_bind]
  refine wp_ask_free hi (fun _ => hkey) fun r w₁ w₂ hev hi₂ => ?_
  cases r with
  | error e => exact hk _ _ _ (List.suffix_cons _ _) hev hi₂
  | ok n =>
    refine wp_ask_free hi₂ (fun _ => trivial) fun r' w₃ w₄ hev' hi₄ => ?_
    exact hk _ _ _ ⟨[_, _], rfl⟩ (hev.trans _ _ _ hev') hi₄

theorem wp_removeItem {k : Key}
    {Post : PostCond (Node χ M) (Request χ M) Answer String Unit} (hi : Inv w)
    (hkey : ∃ name, k = .other name) (hk : AnyEnd w h Post) : wp (contract j) (removeItem k) h Post w w := by
  simp only [removeItem, Proc.bind_eq, wp_bind]
  refine wp_ask_free hi (fun _ => hkey) fun r w₁ w₂ hev hi₂ => ?_
  cases r with
  | error e => exact hk _ _ _ (List.suffix_cons _ _) hev hi₂
  | ok n =>
    refine wp_ask_free hi₂ (fun _ => trivial) fun r' w₃ w₄ hev' hi₄ => ?_
    exact hk _ _ _ ⟨[_, _], rfl⟩ (hev.trans _ _ _ hev') hi₄

theorem AnyEnd.after {α : Type} {h₁ : List (PersistEntry χ M)}
    {Post : PostCond (Node χ M) (Request χ M) Answer String α} (hk : AnyEnd w h Post)
    (hs : h <:+ h₁) (hev : Evolves w w') : AnyEnd w' h₁ Post :=
  fun h' r w₃ hs' hev' hi => hk h' r w₃ (hs.trans hs') (hev.trans _ _ _ hev') hi

/-- Two procedures that end anyhow, one after the other. -/
theorem wp_andThen {p q : Persisting χ M Unit}
    {Post : PostCond (Node χ M) (Request χ M) Answer String Unit} (hk : AnyEnd w h Post)
    (hp : ∀ Post', AnyEnd w h Post' → wp (contract j) p h Post' w w)
    (hq : ∀ h' w', h <:+ h' → Evolves w w' → Inv w' → AnyEnd w' h' Post →
      wp (contract j) q h' Post w' w') :
    wp (contract j) (p.bind fun _ => q) h Post w w := by
  rw [wp_bind]
  refine hp _ fun h' r w₃ hs hev hi₃ => ?_
  cases r with
  | error e => exact hk _ _ _ hs hev hi₃
  | ok u => exact hq h' w₃ hs hev hi₃ (hk.after hs hev)

theorem wp_writeManager {Post : PostCond (Node χ M) (Request χ M) Answer String Unit}
    (hi : Inv w) (hk : AnyEnd w h Post) :
    wp (contract j) writeChannelManagerForDurableBatch h Post w w :=
  wp_writeChannelManagerForDurableBatch hi (fun h' w₃ hs hev hi₃ _ => hk h' _ w₃ hs hev hi₃)
    fun h' _ w₃ hs hev hi₃ => hk h' _ w₃ hs hev hi₃

/-- Catching everything. -/
theorem wp_rescueAll {p : Persisting χ M Unit}
    {Post : PostCond (Node χ M) (Request χ M) Answer String Unit} (hk : AnyEnd w h Post)
    (hp : ∀ Post', AnyEnd w h Post' → wp (contract j) p h Post' w w) :
    wp (contract j) (p.rescue fun _ => .done ()) h Post w w := by
  rw [wp_rescue]
  refine hp _ fun h' r w₃ hs hev hi₃ => ?_
  cases r with
  | ok u => exact hk _ _ _ hs hev hi₃
  | error e => exact hk _ _ _ hs hev hi₃

theorem wp_persistManagerState {Post : PostCond (Node χ M) (Request χ M) Answer String Unit}
    (hi : Inv w) (hk : AnyEnd w h Post) :
    wp (contract j) persistManagerState h Post w w := by
  simp only [persistManagerState, Proc.bind_eq]
  refine wp_rescueAll hk fun Post' hk' => ?_
  refine wp_andThen hk' (fun _ hk₁ => wp_writeManager hi hk₁) fun h₁ w₁ _ _ hi₁ hk₁ => ?_
  exact wp_andThen hk₁ (fun _ hk₂ => wp_setItem hi₁ (.inl ⟨⟨_, rfl⟩, _, rfl⟩) hk₂)
    fun h₂ w₂ _ _ hi₂ hk₂ => wp_setItem hi₂ (.inl ⟨⟨_, rfl⟩, _, rfl⟩) hk₂

theorem wp_stop {Post : PostCond (Node χ M) (Request χ M) Answer String Unit} (hi : Inv w)
    (hk : AnyEnd w h Post) : wp (contract j) stop h Post w w := by
  simp only [stop, Proc.bind_eq, Proc.pure_eq, wp_bind, wp_get]
  split
  · refine wp_andThen hk (fun _ hk₁ => wp_persistManagerState hi hk₁) fun h₁ w₁ _ _ hi₁ hk₁ => ?_
    exact wp_ask_free hi₁ (fun _ => trivial) fun r _ w₂ hev hi₂ =>
      hk₁ _ _ _ (List.suffix_cons _ _) hev hi₂
  · exact hk _ _ _ List.suffix_rfl (.refl w) hi

/-- Reading keys: the block of reads and its entries, or an error. -/
theorem wp_readAll {ks : List Key}
    {Post : PostCond (Node χ M) (Request χ M) Answer String (List (Key × Value χ M))} (hi : Inv w)
    (hok : ∀ block entries w₃, ReadBlock w ks block entries → (∀ e ∈ block, Evolves e.before w₃) →
      Evolves w w₃ → Inv w₃ → Post (block ++ h) (.ok entries) w₃ w₃)
    (herr : ∀ h' e w₃, h <:+ h' → Evolves w w₃ → Inv w₃ → Post h' (.error e) w₃ w₃) :
    wp (contract j) (readAll ks) h Post w w := by
  induction ks generalizing h w Post with
  | nil => exact hok [] [] w ⟨rfl, rfl⟩ (by simp) (.refl w) hi
  | cons k ks ih =>
    simp only [readAll, Proc.bind_eq, wp_bind]
    refine wp_ask hi (fun _ _ _ _ => trivial) fun ok r w₁ w₂ w₃ h₁ hi₁ _ he _ h₂ h₃ hi₃ => ?_
    have hev₃ := h₁.trans _ _ _ (h₂.trans _ _ _ h₃)
    simp only [exec, Option.some.injEq, Prod.mk.injEq] at he
    obtain ⟨hr, rfl⟩ := he
    cases r with
    | error e => exact herr _ e w₃ (List.suffix_cons _ _) hev₃ hi₃
    | ok a =>
      have ha : a = stored w₁.committed k := by
        split at hr
        · simpa using hr.symm
        · cases hr
      simp only
      refine ih hi₃ (fun block entries w₄ hb hpast hev hi₄ => ?_) fun h' e w₄ hs hev hi₄ =>
        herr h' e w₄ ((List.suffix_cons _ _).trans hs) (hev₃.trans _ _ _ hev) hi₄
      have hb' : ReadBlock w₁ ks block entries := by
        cases ks with
        | nil => exact hb
        | cons k' ks =>
          obtain ⟨a', u, rest, es, hu, hrest⟩ := hb
          exact ⟨a', u, rest, es, h₃.trans _ _ _ hu, hrest⟩
      have := hok (block ++ [⟨.getItem k, .ok a, w₁⟩])
        (addEntry k entries a) w₄
        ⟨a, w₁, block, entries, h₁, ha, rfl, hb', rfl⟩ (fun e he => ?_)
        (hev₃.trans _ _ _ hev) hi₄
      · simp only [List.append_assoc, List.cons_append, List.nil_append] at this
        exact this
      · rcases List.mem_append.mp he with he | he
        · exact hpast e he
        · rw [List.mem_singleton.mp he]
          exact h₃.trans _ _ _ hev

theorem wp_readEntries {Post : PostCond (Node χ M) (Request χ M) Answer String Unit} (hi : Inv w)
    (hj : j.verb = .exportState) (hk : AnyEnd w h Post) : wp (contract j) readEntries h Post w w := by
  simp only [readEntries, Proc.bind_eq, wp_bind]
  refine wp_ask_free hi (fun _ => trivial) fun r w₁ w₂ hev hi₂ => ?_
  have hs₁ := List.suffix_cons (⟨.getItem .ldkSeed, r, w₁⟩ : PersistEntry χ M) h
  cases r with
  | error e => exact hk _ _ _ hs₁ hev hi₂
  | ok seed =>
    cases seed with
    | none => exact hk _ _ _ hs₁ hev hi₂
    | some seed =>
      simp only [wp_bind]
      refine wp_readAll hi₂ (fun first direct w₃ hfirst hpast hev₃ hi₃ => ?_)
        fun h' e w₃ hs hev₃ hi₃ => hk _ _ _ (hs₁.trans hs) (hev.trans _ _ _ hev₃) hi₃
      refine wp_readAll hi₃ (fun second listed w₄ hsecond _ hev₄ hi₄ => ?_)
        fun h' e w₄ hs hev₄ hi₄ => hk _ _ _ ((hs₁.trans ⟨first, rfl⟩).trans hs)
          (hev.trans _ _ _ (hev₃.trans _ _ _ hev₄)) hi₄
      refine wp_ask_free hi₄ (fun _ => ?_) fun r' _ w₅ hev₅ hi₅ => ?_
      · exact ⟨hj, w₂, w₃, direct, listed, first, second, _, rfl, rfl, hfirst, hpast, hsecond⟩
      · refine hk _ _ _ (((hs₁.trans ⟨first, rfl⟩).trans ⟨second, rfl⟩).trans
          (List.suffix_cons _ _)) ?_ hi₅
        exact hev.trans _ _ _ (hev₃.trans _ _ _ (hev₄.trans _ _ _ hev₅))

theorem wp_exportState {Post : PostCond (Node χ M) (Request χ M) Answer String Unit} (hi : Inv w)
    (hj : j.verb = .exportState) (hk : AnyEnd w h Post) : wp (contract j) exportState h Post w w := by
  simp only [exportState, flushForExport, Proc.bind_eq, wp_bind, wp_get]
  split
  · refine wp_andThen hk (fun Post' hk₁ => ?_) fun h₁ w₁ _ _ hi₁ hk₁ => wp_readEntries hi₁ hj hk₁
    refine wp_andThen hk₁ (fun _ hk₂ => wp_rescueAll hk₂ fun _ hk₃ => wp_writeManager hi hk₃)
      fun h₂ w₂ _ _ hi₂ hk₂ => wp_rescueAll hk₂ fun _ hk₃ => ?_
    exact wp_flush hi₂ (fun h' w₃ hs hev hi₃ _ => hk₃ h' _ w₃ hs hev hi₃)
      fun h' _ w₃ hs hev hi₃ => hk₃ h' _ w₃ hs hev hi₃
  · exact wp_readEntries hi hj hk

theorem wp_writeEntries {entries : List (Key × Value χ M)}
    {Post : PostCond (Node χ M) (Request χ M) Answer String Unit} (hi : Inv w)
    (hj : j.verb = .importState) (hk : AnyEnd w h Post) : wp (contract j) (writeEntries entries) h Post w w := by
  induction entries generalizing h w with
  | nil => exact hk _ _ _ List.suffix_rfl (.refl w) hi
  | cons e entries ih =>
    obtain ⟨k, x⟩ := e
    simp only [writeEntries, Proc.bind_eq]
    exact wp_andThen hk (fun _ hk₁ => wp_setItem hi (.inr hj) hk₁) fun _ _ _ _ hi₁ hk₁ => ih hi₁ hk₁

theorem wp_importState {entries : List (Key × Value χ M)}
    {Post : PostCond (Node χ M) (Request χ M) Answer String Unit} (hi : Inv w)
    (hj : j.verb = .importState) (hk : AnyEnd w h Post) : wp (contract j) (importState entries) h Post w w := by
  simp only [importState, Proc.bind_eq, wp_bind, wp_get]
  split
  · exact hk _ _ _ List.suffix_rfl (.refl w) hi
  · refine wp_andThen hk (fun _ hk₁ => wp_removeItem hi ⟨_, rfl⟩ hk₁) fun _ _ _ _ hi₁ hk₁ => ?_
    exact wp_andThen hk₁ (fun _ hk₂ => wp_writeEntries hi₁ hj hk₂) fun _ _ _ _ hi₂ hk₂ =>
      wp_writeEntries hi₂ hj hk₂

end Rules

/-! ## Every event -/

theorem admits (e : Event χ M) : (protocol χ M).Admits e := by
  intro w w' called hi he
  replace hi : Inv w := hi
  have anyEnd : ∀ {j : Task χ M} {v : Node χ M}, AnyEnd v [] ((protocol χ M).ends j) :=
    fun _ _ _ _ _ hi => ⟨rfl, hi⟩
  change effect e w = some (w', called) at he
  cases e with
  | load seedHex =>
    simp only [effect] at he
    split at he
    · rename_i hd
      cases he
      obtain ⟨hev, hi'⟩ := load_respects hi (by cases hw : w.phase <;> simp_all)
      obtain ⟨hev', hi''⟩ := ensureSeed_respects hi' seedHex
      exact ⟨hev.trans _ _ _ hev', hi''⟩
    · cases he
  | ready m =>
    simp only [effect] at he
    split at he
    · rename_i hd
      cases he
      have hph : w.phase = .starting := by cases hw : w.phase <;> simp_all
      exact ⟨{ Evolves.refl w with
        running := fun _ _ => .inl rfl
        stopped := fun _ h => by rw [hph] at h; cases h }, { hi with }⟩
    · cases he
  | started =>
    simp only [effect] at he
    split at he
    · cases he
      exact ⟨{ Evolves.refl w with }, { hi with }⟩
    · cases he
  | ldk m =>
    simp only [effect] at he
    split at he
    · rename_i hr
      cases he
      exact ⟨{ Evolves.refl w with
        running := fun _ _ => .inl rfl
        stopped := fun _ h => by rw [h] at hr; cases hr }, { hi with }⟩
    · cases he
  | persist channel update latest calls unrecoverable =>
    simp only [effect] at he
    split at he
    · cases he
      obtain ⟨hev, hi'⟩ := handOver_respects hi channel (pickUpdateId update latest) calls
      refine ⟨hev, ?_⟩
      cases unrecoverable
      · refine wp_scheduleDurableAck hi' List.mem_cons_self rfl ?_ (fun hm => ?_) anyEnd
        · exact (callAll_respects hi calls).1.frame.session
        · have hph : (w.callAll calls).phase = w.phase := (callAll_respects hi calls).1.frame.phase
          change (w.callAll calls).phase.channelManager.isSome = true
          rw [hph]
          exact hm
      · exact hi'
    · cases he
  | archive calls =>
    simp only [effect] at he
    split at he
    · cases he
      obtain ⟨hs, hi'⟩ := callAll_respects hi calls
      exact ⟨hs.evolves hi, hi'⟩
    · cases he
  | eventTick =>
    simp only [effect, Option.map_eq_some_iff] at he
    obtain ⟨m, -, he⟩ := he
    cases he
    exact eventTick_respects hi m
  | channelClosed =>
    simp only [effect] at he
    split at he
    · cases he
      exact notifyStateChanged_respects hi
    · cases he
  | stop =>
    cases he
    exact ⟨.refl _, wp_stop hi anyEnd⟩
  | exportState =>
    cases he
    exact ⟨.refl _, wp_exportState hi rfl anyEnd⟩
  | importState entries =>
    cases he
    exact ⟨.refl _, wp_importState hi rfl anyEnd⟩
  | settle serial ok =>
    simp only [effect, Option.map_eq_some_iff] at he
    obtain ⟨w₁, hw, he⟩ := he
    cases he
    exact settle_respects hi hw
  | react serial =>
    simp only [effect, Option.map_eq_some_iff] at he
    obtain ⟨w₁, hw, he⟩ := he
    cases he
    exact react_respects hi hw
  | crash =>
    cases he
    exact crash_respects hi

theorem inv_initial (entries : List (Key × Value χ M)) : Inv (initial entries).world where
  alive := Nat.one_pos
  serial := fun later x earlier h => by cases later <;> simp [initial] at h
  session := fun x hx => by simp [initial] at hx
  queue := fun x hx => by simp [initial] at hx
  committed := fun x hx => by
    simp only [initial, before, List.mem_map] at hx
    obtain ⟨e, -, rfl⟩ := hx
    exact .inr rfl
  rejected := fun x hx => by simp [initial] at hx
  outcome := fun x hx => by simp [initial] at hx
  pending := fun x hx => by simp [initial] at hx
  health := fun x hx => by simp [initial] at hx
  keys := fun x hx => by simp [initial] at hx
  handed := fun x hx => by simp [initial] at hx
  acked := fun x hx => by simp [initial] at hx

/-- Any run at all. -/
def Reaches (c c' : NodeConfig χ M) : Prop := (node χ M).Run (fun _ _ => True) c c'

end LibreWallet.Persist
