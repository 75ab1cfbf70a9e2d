import LibreWallet.Lifecycle.Guards
import LibreWallet.Lifecycle.Ownership

/-
  Lifecycle/Binding.lean --- the stored seed is the seed of what runs.

  Requests that take effect meet `seedKept` where they write no seed over one in use; every
  other step of every method, of a start and of a running node keeps seed and state together.
  Which calls lead to such requests only is the subject of `Lifecycle/Custody.lean`.
-/

set_option autoImplicit false

namespace LibreWallet.Lifecycle

open Async Controller

/-! ## Seeds in use -/

/-- The seed of an instance that starts, runs or stops. -/
def Wallet.inUse (x : Wallet) : Option Seed :=
  if x.managed || x.isRunning || x.releaseRunLock then x.seed else none

/-- The seed of a node that was started: its channel manager exists. -/
def Wallet.keys (x : Wallet) : Option Seed :=
  if x.managed || x.isRunning then x.seed else none

/-- The seed that a stored manager was made with. -/
def managerSeed : Option Value → Option Seed
  | some (.manager s _) => some s
  | _ => none

/-- The seeds from which nodes were started, as the requests of the run found them. -/
def startedSeeds (trace : List (Effect Page Request Answer String Task)) : List Seed :=
  trace.flatMap fun x => x.entry.before.wallets.filterMap Wallet.keys

/-- The seed that a request stored as `createWallet` does. -/
def storedSeed (e : Entry Page Request Answer String) : Option Seed :=
  match e.request, e.answer.isOk with
  | .setItem .ldkSeed (.seed s), true => some s
  | _, _ => none

def Verb.creates : Verb → Bool
  | .createWallet _ _ => true
  | _ => false

/-- Call `n` is a `createWallet` that has not ended. -/
def creating (c : PageConfig) (n : Nat) : Bool :=
  match c.pool[n]? with
  | some (_, .done _) | some (_, .fail _) | none => false
  | some (j, _) => j.session = c.world.session && j.verb.creates

/-- The seeds that such calls have stored. -/
def createdSeeds (c : PageConfig) : List Seed :=
  (List.range c.pool.length).flatMap fun n =>
    if creating c n then (c.history n).filterMap storedSeed else []

/-- The seeds of the instances that start, run or stop. -/
def liveSeeds (c : PageConfig) : List Seed := c.world.wallets.filterMap Wallet.inUse

def seedsInUse (c : PageConfig) : List Seed :=
  liveSeeds c ++ createdSeeds c ++ (managerSeed (c.world.db .channelManager)).toList ++
    startedSeeds c.trace

/-- No write of `ldk_seed` replaces a seed that is in use by another, no import stores a
channel manager next to a foreign seed, and the database is not cleared under a node or
under a `createWallet`. -/
def seedKept (lab : PageLabel) (c : PageConfig) : Bool :=
  match lab with
  | .call n ch =>
    !ch.ok ||
      match c.awaits n with
      | some (_, .setItem .ldkSeed (.seed s)) => (seedsInUse c).all (· = s)
      | some (_, .storeSeed _ s) => (seedsInUse c).all (· = s)
      | some (_, .setItem .channelManager (.manager s _)) =>
        (parseSeed (c.world.db .ldkSeed)).all (· = s)
      | some (_, .clear) => (liveSeeds c).isEmpty && (createdSeeds c).isEmpty
      | _ => true
  | _ => true

/-- A database whose manager was made with the stored seed. -/
def Consistent (db : Db) : Prop :=
  ∀ s s' bytes, db .channelManager = some (.manager s bytes) → db .ldkSeed = some (.seed s') → s = s'

/-- Seed and state are bound. -/
structure Bound (c : PageConfig) : Prop where
  running : ∀ i, (c.world.instances i).isRunning = true →
    ∃ s, (c.world.instances i).seed = some s ∧ c.world.db .ldkSeed = some (.seed s)
  manager : Consistent c.world.db
  resolved : ∀ n j s i, c.awaits n = some (j, .resolved s i) → j.session = c.world.session →
    c.world.db .ldkSeed = some (.seed s) ∧ (c.world.instances i).seed = some s
  started : ∀ s ∈ startedSeeds c.trace, ∀ s', c.world.db .ldkSeed = some (.seed s') → s' = s

/-! ## The invariant -/

/-- What a control state says of seeds. -/
structure Seeded (l : Local) (w : Page) : Prop where
  wrote : ∀ s, l.wrote = some s → w.db .ldkSeed = some (.seed s)
  result : ∀ s i, l.wrote = some s → l.result = some i → (w.instances i).seed = some s
  waiting : ∀ s p i, l.wrote = some s → l.waiting = some p → w.settled.lookup p = some (.ok i) →
    (w.instances i).seed = some s

/-- What the page and the trace say of seeds. -/
structure Keyed (t : List (Effect Page Request Answer String Task)) (w : Page) : Prop where
  stored : ∀ i s, (w.instances i).inUse = some s → w.db .ldkSeed = some (.seed s)
  keyed : ∀ i, (w.instances i).managed = true ∨ (w.instances i).isRunning = true →
    (w.instances i).seed ≠ none
  manager : Consistent w.db
  started : ∀ s ∈ startedSeeds t, ∀ s', w.db .ldkSeed = some (.seed s') → s' = s
  unsettled : ∀ p, w.startingPromise = some p → w.settled.lookup p = none ∧ p < w.promises
  settled : ∀ p, w.promises ≤ p → w.settled.lookup p = none

structure Binding (t : List (Effect Page Request Answer String Task)) (w : Page)
    (locals : Nat → Local) : Prop where
  owned : Owned w locals
  keyed : Keyed t w
  seeded : ∀ n, Seeded (locals n) w

variable {l l' : Local} {w w' : Page} {t : List (Effect Page Request Answer String Task)}

theorem Wallet.inUse_of_lock {x : Wallet} {s : Seed} (hs : x.seed = some s)
    (h : x.managed = true ∨ x.isRunning = true ∨ x.releaseRunLock = true) : x.inUse = some s := by
  rw [Wallet.inUse, if_pos, hs]
  simpa [or_assoc] using h

theorem Wallet.seed_of_inUse {x : Wallet} {s : Seed} (h : x.inUse = some s) : x.seed = some s := by
  rw [Wallet.inUse] at h
  split at h
  · exact h
  · cases h

/-- A running or managed instance has the stored seed. -/
theorem Keyed.seed (h : Keyed t w) {i : Nat}
    (hi : (w.instances i).managed = true ∨ (w.instances i).isRunning = true) :
    ∃ s, (w.instances i).seed = some s ∧ w.db .ldkSeed = some (.seed s) := by
  obtain ⟨s, hs⟩ := Option.ne_none_iff_exists'.mp (h.keyed i hi)
  refine ⟨s, hs, h.stored i s (Wallet.inUse_of_lock hs ?_)⟩
  rcases hi with hi | hi
  · exact .inl hi
  · exact .inr (.inl hi)

theorem Keyed.unique {s s' : Seed} (h : w.db .ldkSeed = some (.seed s))
    (h' : w.db .ldkSeed = some (.seed s')) : s = s' := by
  rw [h] at h'
  cases h'
  rfl

/-! ## Synchronous code -/

/-- An update of one instance that keeps its seed, and under which it is no more in use than
it was. -/
theorem Keyed.setWallet (h : Keyed t w) {i : Nat} {f : Wallet → Wallet}
    (hseed : (f (w.instances i)).seed = (w.instances i).seed)
    (hkeyed : (f (w.instances i)).managed = true ∨ (f (w.instances i)).isRunning = true →
      (w.instances i).seed ≠ none)
    (huse : ∀ s, (f (w.instances i)).inUse = some s → (w.instances i).inUse = some s) :
    Keyed t (w.setWallet i f) := by
  refine ⟨fun i' s hs => ?_, fun i' hi => ?_, h.manager, h.started, h.unsettled, h.settled⟩
  · rcases w.instances_setWallet_cases i i' f with heq | ⟨heq, rfl⟩
    · exact h.stored i' s (heq ▸ hs)
    · exact h.stored i s (huse s (heq ▸ hs))
  · rcases w.instances_setWallet_cases i i' f with heq | ⟨heq, rfl⟩
    · rw [heq] at hi ⊢
      exact h.keyed i' hi
    · rw [heq] at hi ⊢
      rw [hseed]
      exact hkeyed hi

/-- A change that leaves instances, database and starts as they are. -/
theorem Keyed.of_eq (h : Keyed t w) (hw : w'.wallets = w.wallets) (hdb : w'.db = w.db)
    (hp : w'.startingPromise = w.startingPromise ∨ w'.startingPromise = none)
    (hc : w'.promises = w.promises) (hs : w'.settled = w.settled) : Keyed t w' := by
  have hi := Page.instances_of_wallets hw
  refine ⟨?_, ?_, ?_, ?_, fun p hp' => ?_, ?_⟩
  · rw [hi, hdb]
    exact h.stored
  · rw [hi]
    exact h.keyed
  · rw [hdb]
    exact h.manager
  · rw [hdb]
    exact h.started
  · rw [hc, hs]
    rcases hp with hp | hp
    · exact h.unsettled p (hp ▸ hp')
    · rw [hp] at hp'
      cases hp'
  · rw [hc, hs]
    exact h.settled

theorem Keyed.append (h : Keyed t w) : Keyed t { w with wallets := w.wallets ++ [{}] } := by
  refine ⟨?_, ?_, h.manager, h.started, h.unsettled, h.settled⟩
  all_goals
    intro i
    rw [Page.instances_append]
  · exact h.stored i
  · exact h.keyed i

/-- What synchronous code does keeps the seeds bound. -/
theorem Sync.keyed (hs : Sync l w l' w') (hl : Mine l w) (h : Keyed t w) : Keyed t w' := by
  cases hs with
  | stay => exact h
  | found _ _ => exact h
  | build _ => exact h.append
  | assign _ _ => exact h.of_eq rfl rfl (.inl rfl) rfl rfl
  | unassign _ _ _ => exact h.of_eq rfl rfl (.inl rfl) rfl rfl
  | @manage i s hn =>
    have hseed := hl.loaded i s hn
    have hlock := (hl.starting i _ hn rfl).2
    refine h.setWallet rfl (fun _ => by simp [hseed]) fun s' hs' => ?_
    have := Wallet.seed_of_inUse hs'
    exact Wallet.inUse_of_lock this (.inr (.inr hlock))
  | @run i s hn =>
    have hseed := hl.loaded i s hn
    have hlock := (hl.starting i _ hn rfl).2
    refine h.setWallet rfl (fun _ => by simp [hseed]) fun s' hs' => ?_
    have := Wallet.seed_of_inUse hs'
    exact Wallet.inUse_of_lock this (.inr (.inr hlock))
  | @tearDown i st hn _ =>
    refine Keyed.of_eq (w := w.setWallet i fun x =>
      { x with managed := false, isRunning := false, releaseRunLock := false })
      (h.setWallet rfl ?_ ?_) rfl rfl (.inl rfl) rfl rfl
    · rintro (hi | hi) <;> cases hi
    · intro s hs
      cases hs
  | record => exact h.of_eq rfl rfl (.inl rfl) rfl rfl
  | beginStart _ _ _ =>
    refine ⟨h.stored, h.keyed, h.manager, h.started, ?_, fun p hp => h.settled p (by
      simp only at hp
      omega)⟩
    rintro p ⟨⟩
    exact ⟨h.settled _ (Nat.le_refl _), Nat.lt_succ_self _⟩
  | @settle p r hp _ _ _ =>
    have hlt := (h.unsettled p (hl.promise p hp)).2
    refine ⟨h.stored, h.keyed, h.manager, h.started, nofun, fun p' hp' => ?_⟩
    have hne : (p' == p) = false := by
      simp only at hp'
      simp only [beq_eq_false_iff_ne]
      omega
    rw [List.lookup_cons, hne]
    exact h.settled p' hp'
  | beginRestore _ _ _ => exact h.of_eq rfl rfl (.inl rfl) rfl rfl
  | endRestore _ _ _ => exact h.of_eq rfl rfl (.inl rfl) rfl rfl
  | @beginStop i _ _ _ hrun =>
    refine h.setWallet rfl (fun _ => h.keyed i (.inr hrun)) fun s hs => ?_
    have hseed := Wallet.seed_of_inUse hs
    exact Wallet.inUse_of_lock hseed (.inr (.inl hrun))
  | @endStop i lock _ _ =>
    refine Keyed.of_eq (w := w.setWallet i fun x => { x with managed := false, isRunning := false })
      (h.setWallet rfl ?_ fun s hs => ?_) rfl rfl (.inl rfl) rfl rfl
    · rintro (hi | hi) <;> cases hi
    · have hseed := Wallet.seed_of_inUse hs
      refine Wallet.inUse_of_lock hseed (.inr (.inr ?_))
      simp only [Wallet.inUse, Bool.or_self, Bool.false_or, Option.ite_none_right_eq_some] at hs
      exact hs.1
  | leave _ _ _ => exact h.of_eq rfl rfl (.inl rfl) rfl rfl

/-- A control state keeps what it knows of seeds while the instances keep theirs. -/
theorem Seeded.of_eq (h : Seeded l w) (hdb : w'.db .ldkSeed = w.db .ldkSeed)
    (hi : ∀ i s, (w.instances i).seed = some s → (w'.instances i).seed = some s)
    (hs : w'.settled = w.settled) : Seeded l w' := by
  refine ⟨fun s hl => ?_, fun s i hl hr => hi i s (h.result s i hl hr), fun s p i hl hp hlook => ?_⟩
  · rw [hdb]
    exact h.wrote s hl
  · rw [hs] at hlook
    exact hi i s (h.waiting s p i hl hp hlook)

theorem Seeded.of_local (h : Seeded l w) (hw : l'.wrote = l.wrote) (hr : l'.result = l.result)
    (hp : l'.waiting = l.waiting) : Seeded l' w :=
  ⟨hw ▸ h.wrote, hw ▸ hr ▸ h.result, hw ▸ hp ▸ h.waiting⟩

/-- An update of an instance that keeps its seed. -/
theorem seed_setWallet {i : Nat} {f : Wallet → Wallet} (hf : ∀ x, (f x).seed = x.seed) (i' : Nat) :
    ((w.setWallet i f).instances i').seed = (w.instances i').seed := by
  rcases w.instances_setWallet_cases i i' f with heq | ⟨heq, -⟩
  · rw [heq]
  · rw [heq, hf]

theorem Sync.seeds (hs : Sync l w l' w') :
    w'.db = w.db ∧ ∀ i, (w'.instances i).seed = (w.instances i).seed := by
  cases hs with
  | build _ => exact ⟨rfl, fun i => by rw [Page.instances_append]⟩
  | manage _ | run _ | tearDown _ _ | beginStop _ _ _ _ | endStop _ _ =>
    exact ⟨rfl, seed_setWallet fun _ => rfl⟩
  | _ => exact ⟨rfl, fun _ => rfl⟩

/-- What synchronous code does keeps what any call knows of seeds. -/
theorem Sync.seeded_others {o : Local} (hs : Sync l w l' w') (h : Seeded o w) (hk : Keyed t w) :
    Seeded o w' := by
  obtain ⟨hdb, hi⟩ := hs.seeds
  cases hs with
  | @settle p r hp _ _ hr =>
    refine ⟨h.wrote, h.result, fun s p' i hl hp' hlook => ?_⟩
    rw [List.lookup_cons] at hlook
    split at hlook
    · cases hlook
      obtain ⟨s', hseed, hst⟩ := hk.seed (.inr (hr i rfl))
      exact (congrArg some (Keyed.unique hst (h.wrote s hl))) ▸ hseed
    · exact h.waiting s p' i hl hp' hlook
  | _ =>
    refine h.of_eq (congrFun hdb _) (fun i s hs => ?_) rfl
    rw [hi]
    exact hs

theorem Sync.seeded (hs : Sync l w l' w') (h : Seeded l w) (hk : Keyed t w) :
    Seeded l' w' := by
  have h' := hs.seeded_others h hk
  cases hs with
  | @found i hw hrun =>
    refine ⟨h.wrote, ?_, h.waiting⟩
    rintro s i' hl ⟨⟩
    obtain ⟨s', hseed, hst⟩ := hk.seed (.inr hrun)
    rw [hseed, Keyed.unique hst (h.wrote s hl)]
  | _ => exact h'.of_local rfl rfl rfl

/-- Each control state keeps what it knows when those of the others and the page change. -/
theorem seeded_update {locals : Nat → Local} {n : Nat} (h : ∀ m, Seeded (locals m) w)
    (hl : Seeded l' w') (ho : ∀ o, Seeded o w → Seeded o w') (m : Nat) :
    Seeded (Function.update locals n l' m) w' := by
  by_cases hm : m = n
  · rw [hm, Function.update_self]
    exact hl
  · rw [Function.update_of_ne hm]
    exact ho _ (h m)

theorem Binding.sync {locals : Nat → Local} {n : Nat} (h : Binding t w locals)
    (hs : Sync (locals n) w l' w') : Binding t w' (Function.update locals n l') where
  owned := h.owned.sync hs
  keyed := hs.keyed (h.owned.mine n) h.keyed
  seeded := seeded_update h.seeded (hs.seeded (h.seeded n) h.keyed)
    fun _ ho => hs.seeded_others ho h.keyed

theorem Binding.arrive {locals : Nat → Local} {n : Nat} (h : Binding t w locals)
    (ha : Arrive (locals n) w l') : Binding t w (Function.update locals n l') where
  owned := h.owned.arrive ha
  keyed := h.keyed
  seeded := by
    refine seeded_update h.seeded ?_ fun _ ho => ho
    have hn := h.seeded n
    cases ha with
    | @wait p _ hp =>
      refine ⟨hn.wrote, hn.result, ?_⟩
      rintro s p' i - ⟨⟩ hlook
      rw [(h.keyed.unsettled p hp).1] at hlook
      cases hlook
    | finish _ => exact ⟨nofun, nofun, nofun⟩
    | _ => exact hn.of_local rfl rfl rfl

/-! ## Requests -/

section Requests

variable {fe : Frontend} {hasFetcher : Bool} {c : PageConfig} {locals : Nat → Local}

theorem mem_liveSeeds {i : Nat} {s : Seed} (h : (c.world.instances i).inUse = some s) :
    s ∈ liveSeeds c := by
  rw [liveSeeds, List.mem_filterMap]
  refine ⟨c.world.instances i, ?_, h⟩
  rw [Page.instances, List.getD_eq_getElem?_getD]
  cases hi : c.world.wallets[i]? with
  | none =>
    rw [Page.instances, List.getD_eq_getElem?_getD, hi] at h
    cases h
  | some x => exact List.mem_of_getElem? hi

theorem storedSeed_eq {e : Entry Page Request Answer String} {s : Seed}
    (hq : e.request = .setItem .ldkSeed (.seed s)) (hok : e.answer.isOk = true) :
    storedSeed e = some s := by
  obtain ⟨q, r, w⟩ := e
  cases hq
  simp only at hok
  simp only [storedSeed, hok]

/-- What a call stored is in use until the call ends. -/
theorem mem_createdSeeds (hc : (control fe hasFetcher).Stands c locals) {n : Nat} {s : Seed}
    (hs : (locals n).wrote = some s) : s ∈ createdSeeds c := by
  have hne : locals n ≠ {} := by
    intro h
    rw [h] at hs
    cases hs
  have hlen : n < c.pool.length :=
    Nat.lt_of_not_le fun h => hne (hc.uncalled n h)
  obtain ⟨⟨j, p⟩, hn⟩ : ∃ x, c.pool[n]? = some x := ⟨_, List.getElem?_eq_getElem hlen⟩
  have hj : j.session = c.world.session := by
    rcases Nat.lt_or_eq_of_le (hc.birth n j p hn) with hlt | heq
    · exact absurd (hc.dead n j p hn hlt) hne
    · exact heq
  have hst := hc.standing n j p hn hj
  have hfit : Fit j (c.history n) (locals n) ∧ creating c n = true := by
    cases p with
    | done a => exact absurd hst hne
    | fail e => exact absurd hst hne
    | await q k | sync f k =>
      have hfit : Fit j (c.history n) (locals n) := hst.1.fit
      obtain ⟨⟨opts, drawn, hverb⟩, -⟩ := hfit.wrote s hs
      refine ⟨hfit, ?_⟩
      simp [creating, hn, hj, hverb, Verb.creates]
  obtain ⟨-, e, he, hq, hok⟩ := hfit.1.wrote s hs
  rw [createdSeeds, List.mem_flatMap]
  refine ⟨n, List.mem_range.mpr hlen, ?_⟩
  rw [if_pos hfit.2, List.mem_filterMap]
  exact ⟨e, he, storedSeed_eq hq hok⟩

/-- What a request does to the stored seed. -/
inductive SeedStep (c : PageConfig) (w : Page) : Prop where
  | kept (h : w.db .ldkSeed = c.world.db .ldkSeed)
  | stored (s : Seed) (h : w.db .ldkSeed = some (.seed s)) (hs : ∀ s' ∈ seedsInUse c, s' = s)
  | cleared (h : w.db .ldkSeed = none) (hlive : liveSeeds c = []) (hcreated : createdSeeds c = [])

/-- A request keeps a seed that an instance or a `createWallet` uses. -/
theorem SeedStep.keeps (h : SeedStep c w) {s : Seed} (hs : s ∈ liveSeeds c ∨ s ∈ createdSeeds c)
    (hst : c.world.db .ldkSeed = some (.seed s)) : w.db .ldkSeed = some (.seed s) := by
  cases h with
  | kept h => rw [h, hst]
  | stored s' h hall =>
    rw [h, hall s]
    simp only [seedsInUse, List.mem_append]
    exact .inl (.inl hs)
  | cleared _ hlive hcreated =>
    rw [hlive, hcreated] at hs
    rcases hs with hs | hs <;> cases hs

/-- A request stores no other seed than one that is in use. -/
theorem SeedStep.agrees (h : SeedStep c w) {s : Seed} (hs : s ∈ seedsInUse c)
    (hst : ∀ s', c.world.db .ldkSeed = some (.seed s') → s' = s) :
    ∀ s', w.db .ldkSeed = some (.seed s') → s' = s := by
  intro s' hs'
  cases h with
  | kept h => exact hst s' (h ▸ hs')
  | stored s'' h hall => exact (Keyed.unique hs' h).trans (hall s hs).symm
  | cleared h _ _ =>
    rw [h] at hs'
    cases hs'

theorem exec_db {q : Request} {ch : Choice} {r : Except String (Answer q)}
    (he : exec q ch w = some (r, w')) (k : Key) :
    w'.db k = w.db k ∨ ch.ok = true ∧
      ((∃ v, q = .setItem k v ∧ w'.db k = some v) ∨ q = .removeItem k ∧ w'.db k = none ∨
        q = .clear ∧ w'.db k = none ∨
        (∃ i s, q = .storeSeed i s ∧ k = .ldkSeed ∧ w'.db k = some (.seed s)) ∨
        ∃ i, q = .persistManager i ∧ k = .channelManager ∧ (w.instances i).managed = true ∧
          w'.db k = some (managerOf (w.instances i) ch.bytes)) := by
  have hstore : ∀ (k₀ : Key) (v : Option Value),
      (w.store k₀ v).db k = w.db k ∨ k = k₀ ∧ (w.store k₀ v).db k = v := by
    intro k₀ v
    by_cases hk : k = k₀
    · subst hk
      exact .inr ⟨rfl, Function.update_self ..⟩
    · exact .inl (Function.update_of_ne hk ..)
  cases q with
  | started p =>
    simp only [exec, Option.map_eq_some_iff] at he
    obtain ⟨_, -, he⟩ := he
    cases he
    exact .inl rfl
  | setItem k₀ v =>
    simp only [exec, Option.some.injEq] at he
    split at he <;> cases he
    · rename_i hok
      rcases hstore k₀ (some v) with h | ⟨rfl, h⟩
      · exact .inl h
      · exact .inr ⟨hok, .inl ⟨v, rfl, h⟩⟩
    · exact .inl rfl
  | removeItem k₀ =>
    simp only [exec, Option.some.injEq] at he
    split at he <;> cases he
    · rename_i hok
      rcases hstore k₀ none with h | ⟨rfl, h⟩
      · exact .inl h
      · exact .inr ⟨hok, .inr (.inl ⟨rfl, h⟩)⟩
    · exact .inl rfl
  | clear =>
    simp only [exec, Option.some.injEq] at he
    split at he <;> cases he
    · rename_i hok
      exact .inr ⟨hok, .inr (.inr (.inl ⟨rfl, rfl⟩))⟩
    · exact .inl rfl
  | storeSeed i s =>
    simp only [exec, Option.some.injEq] at he
    split at he <;> cases he
    · rename_i hok
      rcases hstore .ldkSeed (some (.seed s)) with h | ⟨rfl, h⟩
      · exact .inl h
      · exact .inr ⟨hok, .inr (.inr (.inr (.inl ⟨i, s, rfl, rfl, h⟩)))⟩
    · exact .inl rfl
  | persistManager i =>
    simp only [exec, Option.some.injEq] at he
    split at he
    · cases he
      exact .inl rfl
    · rename_i hmanaged
      split at he <;> cases he
      · rename_i hok
        rcases hstore .channelManager (some (managerOf (w.instances i) ch.bytes)) with h | ⟨rfl, h⟩
        · exact .inl h
        · exact .inr ⟨hok, .inr (.inr (.inr (.inr ⟨i, rfl, rfl, by simpa using hmanaged, h⟩)))⟩
      · exact .inl rfl
  | _ =>
    simp only [exec, Option.some.injEq] at he
    (repeat' split at he) <;> cases he <;> exact .inl rfl

/-- What a step that passes the check does to the stored seed. -/
theorem seedStep {n : Nat} {j : Task} {q : Request} {ch : Choice} {r : Except String (Answer q)}
    {k : Except String (Answer q) → Code Unit} (hn : c.pool[n]? = some (j, .await q k))
    (hat : At j l q) (hkept : seedKept (.call n ch) c = true)
    (he : exec q ch c.world = some (r, w')) : SeedStep c w' := by
  have hawaits : c.awaits n = some (j, q) := by rw [Config.awaits, hn]
  simp only [seedKept, hawaits] at hkept
  rcases exec_db he .ldkSeed with h | ⟨hok, h⟩
  · exact .kept h
  simp only [hok, Bool.not_true, Bool.false_or] at hkept
  rcases h with ⟨v, rfl, h⟩ | ⟨rfl, -⟩ | ⟨rfl, h⟩ | ⟨i, s, rfl, -, h⟩ | ⟨i, -, hk, -⟩
  · obtain ⟨⟨s, rfl⟩, -⟩ := hat
    exact .stored s h (by simpa using hkept)
  · cases hat
  · simp only [Bool.and_eq_true, List.isEmpty_iff] at hkept
    exact .cleared h hkept.1 hkept.2
  · exact .stored s h (by simpa using hkept)
  · cases hk

/-- A manager that a request stores was made with the stored seed. -/
theorem consistent_act {n : Nat} {j : Task} {q : Request} {ch : Choice}
    {r : Except String (Answer q)} {k : Except String (Answer q) → Code Unit}
    (hn : c.pool[n]? = some (j, .await q k)) (hat : At j l q)
    (hkept : seedKept (.call n ch) c = true) (he : exec q ch c.world = some (r, w'))
    (h : Keyed c.trace c.world) : Consistent w'.db := by
  have hstep := seedStep hn hat hkept he
  have hawaits : c.awaits n = some (j, q) := by rw [Config.awaits, hn]
  simp only [seedKept, hawaits] at hkept
  intro s s' bytes hm hs'
  rcases exec_db he .channelManager with hdb | ⟨hok, hdb⟩
  · rw [hdb] at hm
    have hmem : s ∈ seedsInUse c := by simp [seedsInUse, hm, managerSeed]
    exact (hstep.agrees hmem (fun s₁ hs₁ => (h.manager s s₁ bytes hm hs₁).symm) s' hs').symm
  simp only [hok, Bool.not_true, Bool.false_or] at hkept
  rcases hdb with ⟨v, rfl, hdb⟩ | ⟨rfl, -⟩ | ⟨rfl, hdb⟩ | ⟨i, s₁, rfl, hk, -⟩ | ⟨i, rfl, -, hi, hdb⟩
  · obtain ⟨⟨s₁, b₁, rfl⟩, -⟩ := hat
    rw [hdb] at hm
    cases hm
    have hseed : w'.db .ldkSeed = c.world.db .ldkSeed := by
      rcases exec_db he .ldkSeed with hseed | ⟨-, hseed⟩
      · exact hseed
      · simp at hseed
    rw [hseed] at hs'
    simpa [hs', parseSeed, eq_comm] using hkept
  · cases hat
  · rw [hdb] at hm
    cases hm
  · cases hk
  · obtain ⟨s₁, hseed, hst⟩ := h.seed (.inl hi)
    rw [hdb, managerOf, hseed] at hm
    cases hm
    have hlive := mem_liveSeeds (Wallet.inUse_of_lock hseed (.inl hi))
    exact Keyed.unique (hstep.keeps (.inl hlive) hst) hs'

/-- A request changes an instance only while that has no seed, and gives it the stored one. -/
theorem exec_instances {j : Task} {q : Request} {ch : Choice} {r : Except String (Answer q)}
    (hat : At j l q) (hl : Mine l w) (he : exec q ch w = some (r, w')) (i : Nat) :
    w'.instances i = w.instances i ∨ (w.instances i).seed = none ∧
      (w'.instances i).managed = (w.instances i).managed ∧
      (w'.instances i).isRunning = (w.instances i).isRunning ∧
      ∀ s, (w'.instances i).seed = some s → w'.db .ldkSeed = some (.seed s) := by
  have hsame : q.instance = none → w'.instances i = w.instances i := by
    intro hq
    rw [Page.instances, Page.instances, (exec_kept he).2.2.2.2.2 hq]
  cases q with
  | acquireRunLock i₀ =>
    have hfresh := hl.fresh i₀ _ hat (.inr rfl)
    rcases exec_acquireRunLock he with ⟨rfl, rfl⟩ | ⟨rfl, lock, rfl⟩
    · exact .inl rfl
    · rcases w.instances_setWallet_cases i₀ i fun x => { x with releaseRunLock := true } with
        heq | ⟨heq, rfl⟩
      · exact .inl heq
      · refine .inr ⟨by rw [hfresh], (congrArg Wallet.managed heq :),
          (congrArg Wallet.isRunning heq :), ?_⟩
        intro s hs
        have := (congrArg Wallet.seed heq).symm.trans hs
        rw [hfresh] at this
        cases this
  | loadSeed i₀ =>
    have hseed := hl.unseeded i₀ _ hat (.inl rfl)
    rcases exec_loadSeed he with ⟨e, rfl, rfl⟩ | ⟨rfl, rfl⟩
    · exact .inl rfl
    · rcases w.instances_setWallet_cases i₀ i fun x => { x with seed := parseSeed (w.db .ldkSeed) }
        with heq | ⟨heq, rfl⟩
      · exact .inl heq
      · refine .inr ⟨hseed, (congrArg Wallet.managed heq :),
          (congrArg Wallet.isRunning heq :), ?_⟩
        intro s hs
        have hparse : parseSeed (w.db .ldkSeed) = some s := (congrArg Wallet.seed heq).symm.trans hs
        exact parseSeed_eq hparse
  | storeSeed i₀ s₀ =>
    have hseed := hl.unseeded i₀ _ hat (.inr rfl)
    rcases exec_storeSeed he with ⟨e, rfl, rfl⟩ | ⟨rfl, rfl⟩
    · exact .inl rfl
    · rcases (w.store .ldkSeed (some (.seed s₀))).instances_setWallet_cases i₀ i
        fun x => { x with seed := some s₀ } with heq | ⟨heq, rfl⟩
      · exact .inl heq
      · refine .inr ⟨hseed, (congrArg Wallet.managed heq :),
          (congrArg Wallet.isRunning heq :), ?_⟩
        intro s hs
        have : some s₀ = some s := (congrArg Wallet.seed heq).symm.trans hs
        cases this
        simp
  | _ => exact .inl (hsame rfl)

/-- The seeds that one more request has seen. -/
theorem mem_startedSeeds_cons {x : Effect Page Request Answer String Task} {s : Seed} :
    s ∈ startedSeeds (x :: t) ↔
      s ∈ x.entry.before.wallets.filterMap Wallet.keys ∨ s ∈ startedSeeds t := by
  simp only [startedSeeds, List.flatMap_cons, List.mem_append]

theorem Wallet.inUse_of_keys {x : Wallet} {s : Seed} (h : x.keys = some s) : x.inUse = some s := by
  rw [Wallet.keys] at h
  split at h
  · rename_i hx
    refine Wallet.inUse_of_lock h ?_
    simp only [Bool.or_eq_true] at hx
    rcases hx with hx | hx
    · exact .inl hx
    · exact .inr (.inl hx)
  · cases h

/-- Every element of the list is an instance. -/
theorem Page.exists_instance {x : Wallet} (hx : x ∈ w.wallets) : ∃ i, w.instances i = x := by
  obtain ⟨i, hi⟩ := List.getElem?_of_mem hx
  refine ⟨i, ?_⟩
  rw [Page.instances, List.getD_eq_getElem?_getD, hi]
  rfl

theorem Keyed.act {n : Nat} {j : Task} {q : Request} {ch : Choice} {r : Except String (Answer q)}
    {k : Except String (Answer q) → Code Unit} (h : Keyed c.trace c.world)
    (hl : Mine l c.world) (hn : c.pool[n]? = some (j, .await q k)) (hat : At j l q)
    (hkept : seedKept (.call n ch) c = true) (he : exec q ch c.world = some (r, w')) :
    Keyed (⟨n, j, ⟨q, r, c.world⟩⟩ :: c.trace) w' := by
  have hstep := seedStep hn hat hkept he
  obtain ⟨hp, -, -, hs, hc, -⟩ := exec_kept he
  refine ⟨fun i s hi => ?_, fun i hi => ?_, consistent_act hn hat hkept he h, ?_, ?_, ?_⟩
  · rcases exec_instances hat hl he i with heq | ⟨-, -, -, hnew⟩
    · rw [heq] at hi
      exact hstep.keeps (.inl (mem_liveSeeds hi)) (h.stored i s hi)
    · exact hnew s (Wallet.seed_of_inUse hi)
  · rcases exec_instances hat hl he i with heq | ⟨hnone, hm, hr, -⟩
    · rw [heq] at hi ⊢
      exact h.keyed i hi
    · rw [hm, hr] at hi
      exact absurd hnone (h.keyed i hi)
  · intro s hs'
    rcases mem_startedSeeds_cons.mp hs' with hx | ht
    · obtain ⟨x, hx, hkeys⟩ := List.mem_filterMap.mp hx
      obtain ⟨i, rfl⟩ := Page.exists_instance hx
      have huse := Wallet.inUse_of_keys hkeys
      have hst := hstep.keeps (.inl (mem_liveSeeds huse)) (h.stored i s huse)
      exact fun s' hs' => Keyed.unique hs' hst
    · refine hstep.agrees ?_ (h.started s ht)
      simp only [seedsInUse, List.mem_append]
      exact .inr ht
  · rw [hp, hs, hc]
    exact h.unsettled
  · rw [hs, hc]
    exact h.settled

/-- A request keeps what any call knows of seeds. -/
theorem Seeded.others {m n : Nat} {j : Task} {q : Request} {ch : Choice}
    {r : Except String (Answer q)} {k : Except String (Answer q) → Code Unit}
    (hc : (control fe hasFetcher).Stands c locals) (h : Seeded (locals m) c.world)
    (hl : Mine l c.world) (hn : c.pool[n]? = some (j, .await q k)) (hat : At j l q)
    (hkept : seedKept (.call n ch) c = true) (he : exec q ch c.world = some (r, w')) :
    Seeded (locals m) w' := by
  have hstep := seedStep hn hat hkept he
  have hseed : ∀ i s, (c.world.instances i).seed = some s → (w'.instances i).seed = some s := by
    intro i s hs
    rcases exec_instances hat hl he i with heq | ⟨hnone, -⟩
    · rw [heq, hs]
    · rw [hnone] at hs
      cases hs
  refine ⟨fun s hs => ?_, fun s i hs hr => hseed i s (h.result s i hs hr), fun s p i hs hp hlook => ?_⟩
  · exact hstep.keeps (.inr (mem_createdSeeds hc hs)) (h.wrote s hs)
  · rw [(exec_kept he).2.2.2.1] at hlook
    exact hseed i s (h.waiting s p i hs hp hlook)

/-- A request keeps what its own call knows. -/
theorem Seeded.act {j : Task} {q : Request} {ch : Choice} {r : Except String (Answer q)}
    (h' : Seeded l w') (hat : At j l q) (he : exec q ch w = some (r, w')) :
    Seeded (after l q r) w' := by
  cases q with
  | setItem k v =>
    cases k with
    | ldkSeed =>
      cases r with
      | error e => exact h'
      | ok a =>
        by_cases hrestore : l.restore = true
        · simpa only [after, hrestore, if_true] using h'
        · simp only [after, hrestore, Bool.false_eq_true, if_false]
          refine ⟨fun s hs => ?_, (fun _ _ _ hi => by cases hi), fun _ _ _ _ hw => by cases hw⟩
          rw [← parseSeed_eq hs]
          simp only [exec, Option.some.injEq] at he
          split at he <;> cases he
          simp
    | _ => exact h'
  | removeItem k =>
    cases k with
    | monitorHighwater => exact h'.of_local rfl rfl rfl
    | _ => exact h'
  | acquireRunLock i =>
    rcases exec_acquireRunLock he with ⟨rfl, -⟩ | ⟨rfl, -⟩
    · exact h'
    · exact h'.of_local rfl rfl rfl
  | loadSeed i | storeSeed i s =>
    cases r with
    | error e => exact h'
    | ok a => exact h'.of_local rfl rfl rfl
  | started p =>
    simp only [exec, Option.map_eq_some_iff] at he
    obtain ⟨_, hlook, he⟩ := he
    cases he
    cases r with
    | error e => exact ⟨h'.wrote, h'.result, fun _ _ _ _ hw => by cases hw⟩
    | ok i =>
      refine ⟨h'.wrote, ?_, fun _ _ _ _ hw => by cases hw⟩
      rintro s i' hs ⟨⟩
      exact h'.waiting s p i hs hat.1 hlook
  | _ => exact h'

theorem Binding.act {n : Nat} {j : Task} {q : Request} {ch : Choice}
    {r : Except String (Answer q)} {k : Except String (Answer q) → Code Unit}
    (hc : (control fe hasFetcher).Stands c locals) (h : Binding c.trace c.world locals)
    (hn : c.pool[n]? = some (j, .await q k)) (hat : At j (locals n) q)
    (hkept : seedKept (.call n ch) c = true) (he : exec q ch c.world = some (r, w')) :
    Binding (⟨n, j, ⟨q, r, c.world⟩⟩ :: c.trace) w'
      (Function.update locals n (after (locals n) q r)) where
  owned := h.owned.act hat he
  keyed := h.keyed.act (h.owned.mine n) hn hat hkept he
  seeded := by
    have hothers : ∀ m, Seeded (locals m) w' := fun m =>
      Seeded.others hc (h.seeded m) (h.owned.mine n) hn hat hkept he
    exact seeded_update hothers (Seeded.act (hothers n) hat he) fun _ ho => ho

/-! ## Events -/

/-- What a node persists keeps seed and state together. -/
theorem Keyed.persist (h : Keyed t w) {i : Nat} {k : Key} {v : Value} {bytes : String}
    {version : Nat} (hi : (w.instances i).managed = true)
    (hv : nodeValue (w.instances i) bytes version k = some v) :
    Keyed t (w.store k (some v)) ∧ (w.store k (some v)).db .ldkSeed = w.db .ldkSeed := by
  have hseed : (w.store k (some v)).db .ldkSeed = w.db .ldkSeed := by
    refine Function.update_of_ne ?_ _ _
    rintro rfl
    cases hv
  refine ⟨⟨fun i' s hs => ?_, h.keyed, ?_, fun s hs s' hs' => ?_, h.unsettled, h.settled⟩, hseed⟩
  · rw [hseed]
    exact h.stored i' s hs
  · intro s s' b hm hs'
    rw [hseed] at hs'
    by_cases hk : k = .channelManager
    · subst hk
      obtain ⟨s₁, hs₁, hst⟩ := h.seed (.inl hi)
      rw [Page.store_db, Function.update_self] at hm
      rw [nodeValue, managerOf, hs₁] at hv
      cases hv
      cases hm
      exact Keyed.unique hst hs'
    · rw [Page.store_db, Function.update_of_ne (Ne.symm hk)] at hm
      exact h.manager s s' b hm hs'
  · rw [hseed] at hs'
    exact h.started s hs s' hs'

/-- A page that was loaded again has only its storage. -/
theorem Binding.reload (h : Keyed t w) : Binding t (reloaded w) fun _ => {} where
  owned := Owned.initial _
  keyed := by
    refine ⟨nofun, fun i hi => ?_, h.manager, h.started, nofun, fun _ _ => rfl⟩
    rcases hi with hi | hi <;> cases hi
  seeded := fun _ => ⟨nofun, nofun, nofun⟩

/-- Every step that passes the check keeps seeds and state bound. -/
theorem binding_preserves (fe : Frontend) (hasFetcher : Bool) :
    (control fe hasFetcher).Preserves (fun lab c => seedKept lab c = true) Binding where
  know := fun n h => (h.owned.mine n).fresh
  sync := fun h hs => h.sync hs
  act := by
    intro c locals n ch j q k r l' w' hc h hS hn hj he hl
    subst hl
    exact h.act hc hn ((hc.standing n j _ hn hj).1.asks q rfl) hS he
  arrive := fun _ _ _ h _ ha => h.arrive ha
  event := by
    intro c locals e w' called hc h _ he hage
    cases e with
    | call verb random =>
      cases he
      exact ⟨⟨fun n => (h.owned.mine n).of_eq rfl (.inl rfl) (.inl rfl), h.owned.apart⟩,
        h.keyed.of_eq rfl rfl (.inl rfl) rfl rfl,
        fun n => (h.seeded n).of_eq rfl (fun _ _ hs => hs) rfl⟩
    | persist i k bytes version =>
      simp only [lifecycle, effect] at he
      split at he
      · rename_i hi
        simp only [Option.map_eq_some_iff] at he
        obtain ⟨v, hv, he⟩ := he
        cases he
        obtain ⟨hkeyed, hseed⟩ := h.keyed.persist hi hv
        exact ⟨⟨fun n => (h.owned.mine n).of_eq rfl (.inl rfl) (.inl rfl), h.owned.apart⟩, hkeyed,
          fun n => (h.seeded n).of_eq hseed (fun _ _ hs => hs) rfl⟩
      · cases he
    | reload =>
      cases he
      exact absurd hage (Nat.succ_ne_self _)
  reload := by
    intro c locals e w' called hc h _ he hage
    cases e with
    | call verb random =>
      cases he
      exact absurd hage (Nat.lt_irrefl _)
    | persist i k bytes version =>
      simp only [lifecycle, effect] at he
      split at he
      · simp only [Option.map_eq_some_iff] at he
        obtain ⟨v, -, he⟩ := he
        cases he
        exact absurd hage (Nat.lt_irrefl _)
      · cases he
    | reload =>
      cases he
      exact .reload h.keyed

end Requests

/-! ## Runs -/

theorem Binding.opened {db : Db} {mirror : Nat} (h : Consistent db) :
    Binding [] (opened db mirror).world fun _ => {} where
  owned := Owned.initial _
  keyed := by
    refine ⟨nofun, fun i hi => ?_, h, ?_, nofun, fun _ _ => rfl⟩
    · rcases hi with hi | hi <;> cases hi
    · intro s hs
      cases hs
  seeded := fun _ => ⟨nofun, nofun, nofun⟩

theorem Binding.bound {fe : Frontend} {hasFetcher : Bool} {c : PageConfig} {locals : Nat → Local}
    (h : Binding c.trace c.world locals) (hc : (control fe hasFetcher).Stands c locals) : Bound c := by
  refine ⟨fun i hi => h.keyed.seed (.inr hi), h.keyed.manager, fun n j s i hawaits hj => ?_,
    h.keyed.started⟩
  rw [Config.awaits] at hawaits
  split at hawaits
  · rename_i j' q k hn
    cases hawaits
    obtain ⟨hwrote, hresult⟩ := (hc.standing n j _ hn hj).1.asks _ rfl
    exact ⟨(h.seeded n).wrote s hwrote, (h.seeded n).result s i hwrote hresult⟩
  · cases hawaits

end LibreWallet.Lifecycle
