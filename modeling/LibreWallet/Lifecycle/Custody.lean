import LibreWallet.Lifecycle.Binding
import LibreWallet.Lifecycle.Exclusion

/-
  Lifecycle/Custody.lean --- which calls leave the stored seed alone.

  `createWallet` refuses to overwrite a stored channel manager, and nothing else: the manager appears
  well after the seed is stored and the node is started, and a second `createWallet` in between stores
  another seed; so does an import over a seed that has no manager yet.  `admitted` speaks of the calls:
  where a seed is known and no manager is stored, none brings another seed.  Where a manager is stored
  the guards of the methods do the rest, and the seed that is known stays the only one.
-/

set_option autoImplicit false

namespace LibreWallet.Lifecycle

open Async Controller

/-! ## The vocabulary -/

/-- The seeds that are stored, or were when a request took effect. -/
def knownSeeds (c : PageConfig) : List Seed :=
  (parseSeed (c.world.db .ldkSeed)).toList ++
    c.trace.filterMap fun x => parseSeed (x.entry.before.db .ldkSeed)

/-- The method brings a seed of its own. -/
def Verb.brings (verb : Verb) : Bool := verb.creates || verb.restores

/-- A call of such a method on this page has not ended. -/
def anyUnderWay (c : PageConfig) (p : Verb → Bool) : Bool :=
  (List.range c.pool.length).any fun n => (underWay c n).any fun j => p j.verb

/-- The seed opens the backup only if it is the backup's: no other wallet has it as passphrase. -/
def Envelope.own (env : Envelope) (s : Seed) : Bool := !env.opens s || env.seedHex = s

/-- A call that brings a seed finds a channel manager stored, or no other seed known, and none that
is still bringing one; a restore that is refused at once may be called anyhow.  A backup that is given
or fetched is opened by no foreign seed that is known, and a start finds a seed. -/
def admitted (lab : PageLabel) (c : PageConfig) : Bool :=
  match lab with
  | .event (.call (.createWallet opts drawn) _) =>
    if (c.world.db .channelManager).isSome then !anyUnderWay c Verb.restores
    else !anyUnderWay c Verb.brings &&
      (Verb.createWallet opts drawn).draws.all fun s => (knownSeeds c).all (· = s)
  | .event (.call (.restoreWallet env _) _) =>
    (restoreBlockReason c.world.wallet.isSome c.world.restoring false).isSome ||
      !anyUnderWay c Verb.brings &&
        if (c.world.db .channelManager).isSome then (knownSeeds c).all env.own
        else (knownSeeds c).all (· = env.seedHex)
  | .call n ch =>
    match c.awaits n with
    | some (_, .fetchBackup) => ch.backup.all fun env => (knownSeeds c).all env.own
    | some (_, .loadSeed _) => !ch.ok || (parseSeed (c.world.db .ldkSeed)).isSome
    | _ => true
  | _ => true

/-- Starts, stops and restores are apart, and no wallet is being created during a restore. -/
def separate (c : PageConfig) : Bool :=
  orderly c && (!c.world.restoring || !anyUnderWay c Verb.creates)

/-! ## The invariant -/

/-- Call `n` will be refused: a manager is stored, and it has not found none. -/
def Barred (c : PageConfig) (n : Nat) : Prop :=
  (c.world.db .channelManager).isSome = true ∧ ¬ FoundNone (c.history n)

/-- `s` is the only seed that is known, or that a call under way can bring. -/
structure Custody (s : Seed) (c : PageConfig) : Prop where
  known : ∀ x ∈ knownSeeds c, x = s
  manager : ∀ x bytes, c.world.db .channelManager = some (.manager x bytes) → x = s
  started : ∀ x ∈ startedSeeds c.trace, x ∈ knownSeeds c
  wrote : ∀ x ∈ c.trace, ∀ s', storedSeed x.entry = some s' → s' ∈ knownSeeds c
  fetched : ∀ x ∈ c.trace, ∀ env, fetchedBackup x.entry = some env →
    s ∈ knownSeeds c ∧ env.own s = true
  loaded : ∀ x ∈ c.trace, (∃ i, x.entry.request = .loadSeed i) → x.entry.answer.isOk = true →
    x.entry.before.db .ldkSeed ≠ none
  creates : ∀ n j x, underWay c n = some j → j.verb.draws = some x → x = s ∨ Barred c n
  restores : ∀ n j env secret, underWay c n = some j → j.verb = .restoreWallet env secret →
    env.seedHex = s ∨
      Barred c n ∧ ¬ FoundOurs env (c.history n) ∧ ∀ x ∈ knownSeeds c, env.own x = true
  alone : ∀ n m j j', underWay c n = some j → underWay c m = some j' → j.verb.restores = true →
    j'.verb.brings = true → n = m

section Custody

variable {fe : Frontend} {hasFetcher : Bool} {c c' : PageConfig} {locals : Nat → Local} {n m : Nat}
  {j j' : Task} {q : Request} {ch : Choice} {r : Except String (Answer q)} {w : Page} {s x : Seed}
  {k : Except String (Answer q) → Code Unit} {env : Envelope}

/-! ### Calls under way -/

theorem underWay_of {p : Code Unit} (hn : c.pool[n]? = some (j, p)) (hj : j.session = c.world.session)
    (hd : ∀ a, p ≠ .done a) (hf : ∀ e, p ≠ .fail e) : underWay c n = some j := by
  cases p with
  | done a => exact absurd rfl (hd a)
  | fail e => exact absurd rfl (hf e)
  | sync f k | await q k => simp [underWay, hn, hj]

theorem underWay_of_await (hn : c.pool[n]? = some (j, .await q k))
    (hj : j.session = c.world.session) : underWay c n = some j :=
  underWay_of hn hj (by simp) (by simp)

/-- A step of a call under way calls no other. -/
theorem underWay_of_set {p : Code Unit} {t : List (Effect Page Request Answer String Task)}
    (hn : underWay c n = some j) (hw : w.session = c.world.session)
    (h : underWay { world := w, pool := c.pool.set n (j, p), trace := t } m = some j') :
    underWay c m = some j' := by
  obtain ⟨p', hm, hj', hd, hf⟩ := underWay_cases h
  obtain ⟨p₀, hn₀, -⟩ := underWay_cases hn
  have hlen : n < c.pool.length := (List.getElem?_eq_some_iff.mp hn₀).1
  by_cases hmn : m = n
  · subst hmn
    rw [List.getElem?_set_self hlen] at hm
    cases hm
    exact hn
  · rw [List.getElem?_set_ne (Ne.symm hmn)] at hm
    exact underWay_of hm (hj'.trans hw) hd hf

theorem anyUnderWay_eq_false {p : Verb → Bool} :
    anyUnderWay c p = false ↔ ∀ n j, underWay c n = some j → p j.verb = false := by
  rw [anyUnderWay, List.any_eq_false]
  constructor
  · intro h n j hj
    obtain ⟨p', hn, -⟩ := underWay_cases hj
    have := h n (List.mem_range.mpr (List.getElem?_eq_some_iff.mp hn).1)
    rw [hj, Option.any_some] at this
    simpa using this
  · intro h n _
    cases hj : underWay c n with
    | none => simp
    | some j => simp [h n j hj]

theorem creates_of_draws {verb : Verb} (h : verb.draws = some x) : verb.creates = true := by
  cases verb with
  | createWallet opts drawn => rfl
  | _ => cases h

/-! ### What is known -/

theorem mem_trace_of_history {e : Entry Page Request Answer String} (he : e ∈ c.history n) :
    ∃ x ∈ c.trace, x.entry = e := by
  obtain ⟨x, hx, rfl⟩ := List.mem_map.mp he
  exact ⟨x, List.mem_of_mem_filter hx, rfl⟩

theorem mem_knownSeeds : x ∈ knownSeeds c ↔ c.world.db .ldkSeed = some (.seed x) ∨
    ∃ e ∈ c.trace, e.entry.before.db .ldkSeed = some (.seed x) := by
  have hparse : ∀ v, parseSeed v = some x ↔ v = some (.seed x) :=
    fun v => ⟨parseSeed_eq, fun h => h ▸ rfl⟩
  simp only [knownSeeds, List.mem_append, Option.mem_toList, List.mem_filterMap, hparse]

theorem known_of_stored (h : c.world.db .ldkSeed = some (.seed x)) : x ∈ knownSeeds c :=
  mem_knownSeeds.mpr (.inl h)

theorem known_of_found (h : FoundSeed x (c.history n)) : x ∈ knownSeeds c := by
  obtain ⟨e, he, -, hdb⟩ := h
  obtain ⟨y, hy, rfl⟩ := mem_trace_of_history he
  exact mem_knownSeeds.mpr (.inr ⟨y, hy, hdb⟩)

/-- One request later. -/
theorem mem_knownSeeds_cons {p : List (Task × Code Unit)} :
    x ∈ knownSeeds { world := w, pool := p, trace := ⟨n, j, ⟨q, r, c.world⟩⟩ :: c.trace } ↔
      w.db .ldkSeed = some (.seed x) ∨ x ∈ knownSeeds c := by
  simp only [mem_knownSeeds, List.mem_cons, exists_eq_or_imp]

theorem Envelope.seedHex_of_own (h : env.own s = true) (ho : env.opens s = true) : env.seedHex = s := by
  simpa [Envelope.own, ho] using h

namespace Custody

/-- A backup whose restore is past its guards is the seed's. -/
theorem cleared (h : Custody s c) (hj : underWay c n = some j) (hc : Cleared j (c.history n) env) :
    env.seedHex = s := by
  rcases hc with ⟨⟨secret, hverb⟩, hfound⟩ | ⟨-, ⟨e, he, hfetched⟩, y, hseed, hopens⟩
  · rcases h.restores n j env secret hj hverb with heq | ⟨⟨-, hnone⟩, hours, -⟩
    · exact heq
    · exact (hfound.elim hnone hours).elim
  · obtain ⟨z, hz, rfl⟩ := mem_trace_of_history he
    obtain rfl := h.known y (known_of_found hseed)
    exact Envelope.seedHex_of_own (h.fetched z hz env hfetched).2 hopens

/-- A seed that a guarded call stores is the one that is known. -/
theorem written (h : Custody s c) (hj : underWay c n = some j) {v : Value}
    (hg : Guarded j (c.history n) (.setItem .ldkSeed v)) : v = .seed s := by
  obtain ⟨y, rfl, ⟨hdraws, hnone⟩ | ⟨env, rfl, hc⟩⟩ := hg
  · rcases h.creates n j y hj hdraws with rfl | ⟨-, hbar⟩
    · rfl
    · exact absurd hnone hbar
  · rw [h.cleared hj hc]

/-- Every seed in use is the one that is known. -/
theorem inUse (h : Custody s c) (hk : Keyed c.trace c.world) : ∀ x ∈ seedsInUse c, x = s := by
  intro x hx
  simp only [seedsInUse, List.mem_append] at hx
  rcases hx with ((hlive | hcreated) | hmanager) | hstarted
  · obtain ⟨y, hy, huse⟩ := List.mem_filterMap.mp hlive
    obtain ⟨i, rfl⟩ := Page.exists_instance hy
    exact h.known x (known_of_stored (hk.stored i x huse))
  · obtain ⟨n, -, hn⟩ := List.mem_flatMap.mp hcreated
    split at hn
    · obtain ⟨e, he, hstored⟩ := List.mem_filterMap.mp hn
      obtain ⟨y, hy, rfl⟩ := mem_trace_of_history he
      exact h.known x (h.wrote y hy x hstored)
    · cases hn
  · unfold managerSeed at hmanager
    split at hmanager
    · rename_i y bytes hdb
      obtain rfl : x = y := by simpa using hmanager
      exact h.manager x bytes hdb
    · cases hmanager
  · exact h.known x (h.started x hstarted)

end Custody

/-! ### A request -/

/-- What the invariants say of a request that takes effect. -/
structure Asked (fe : Frontend) (hasFetcher : Bool) (c : PageConfig) (locals : Nat → Local) (n : Nat)
    (j : Task) (q : Request) : Prop where
  stands : (control fe hasFetcher).Stands c locals
  excluded : Excluded c.world locals
  keyed : Keyed c.trace c.world
  separate : separate c = true
  underWay : underWay c n = some j
  at_ : At j (locals n) q
  fit : Fit j (c.history n) (locals n)
  guarded : Guarded j (c.history n) q

namespace Asked

/-- The database is cleared only by a call that restores. -/
theorem restores_of_clear (ha : Asked fe hasFetcher c locals n j .clear) :
    (∀ m j', Lifecycle.underWay c m = some j' → j'.verb.creates = false) ∧
      ∀ m j', Lifecycle.underWay c m = some j' → j'.verb.restores = true →
        (∀ m j j', Lifecycle.underWay c m = some j → Lifecycle.underWay c n = some j' →
          j.verb.restores = true → j'.verb.brings = true → m = n) → m = n := by
  have himp : (locals n).Importing := ha.at_
  have hrestoring := (ha.excluded.owned.mine n).restoring himp.1
  have hsep := ha.separate
  simp only [Lifecycle.separate, hrestoring, Bool.not_true, Bool.false_or, Bool.and_eq_true,
    Bool.not_eq_true'] at hsep
  refine ⟨anyUnderWay_eq_false.mp hsep.2, fun m j' hm hverb halone => ?_⟩
  by_cases hp : (locals n).promise = none
  · obtain ⟨env, secret, hn⟩ := ha.fit.restoring himp.1 hp
    exact halone m j' j hm ha.underWay hverb (by rw [hn]; rfl)
  · -- the restore of a start: the restore of call `m` is no orderly one
    obtain ⟨p, hp⟩ := Option.ne_none_iff_exists'.mp hp
    have hstarting := (ha.excluded.owned.mine n).promise p hp
    have horder := orderlyCall_of_orderly hsep.1 hm
    cases hv : j'.verb with
    | restoreWallet env secret => simp [orderlyCall, hm, hv, hstarting] at horder
    | _ => rw [hv] at hverb; cases hverb

/-- What the request finds keeps the seeds of those who use them. -/
theorem seedKept (ha : Asked fe hasFetcher c locals n j q) (h : Custody s c)
    (hn : c.pool[n]? = some (j, .await q k)) : seedKept (.call n ch) c = true := by
  have hawaits : c.awaits n = some (j, q) := by rw [Config.awaits, hn]
  have hall : (seedsInUse c).all (· = s) = true :=
    List.all_eq_true.mpr fun x hx => decide_eq_true (h.inUse ha.keyed x hx)
  simp only [Lifecycle.seedKept, hawaits]
  rw [Bool.or_eq_true]
  refine .inr ?_
  cases q with
  | setItem key v =>
    cases key with
    | ldkSeed =>
      obtain rfl := h.written ha.underWay ha.guarded
      exact hall
    | channelManager =>
      obtain ⟨y, bytes, rfl, env, rfl, hc⟩ := ha.guarded
      have hseed := h.cleared ha.underWay hc
      dsimp only
      cases hp : parseSeed (c.world.db .ldkSeed) with
      | none => rfl
      | some z =>
        have hz := h.known z (known_of_stored (parseSeed_eq hp))
        simp [hz, hseed]
    | _ => cases v <;> rfl
  | storeSeed i y =>
    obtain ⟨e, he, hload, hok, hnone⟩ := ha.guarded
    obtain ⟨z, hz, rfl⟩ := mem_trace_of_history he
    exact absurd hnone (h.loaded z hz hload hok)
  | clear =>
    have himp : (locals n).Importing := ha.at_
    have hlive : liveSeeds c = [] := by
      rw [liveSeeds, List.filterMap_eq_nil_iff]
      intro y hy
      obtain ⟨i, rfl⟩ := Page.exists_instance hy
      obtain ⟨i', hnode⟩ := himp.2.2
      have hact := (ha.excluded.calls.mine n).blank himp.2.1 (unstarted_of hnode) i
      simp only [Wallet.active, Bool.or_eq_false_iff] at hact
      simp [Wallet.inUse, hact.1.1, hact.1.2, hact.2]
    have hcreated : createdSeeds c = [] := by
      rw [createdSeeds, List.flatMap_eq_nil_iff]
      intro m _
      rw [if_neg]
      intro hcreating
      unfold creating at hcreating
      split at hcreating
      · cases hcreating
      · cases hcreating
      · cases hcreating
      · rename_i j' p hd hf hm
        simp only [Bool.and_eq_true, decide_eq_true_eq] at hcreating
        have hno := ha.restores_of_clear.1 m j' (underWay_of hm hcreating.1 (fun a h => hd a (h ▸ rfl))
          fun e h => hf e (h ▸ rfl))
        exact absurd (hno.symm.trans hcreating.2) Bool.false_ne_true
    simp [hlive, hcreated]
  | _ => rfl

end Asked

/-! ### A request takes effect -/

/-- The configuration after a request has taken effect. -/
abbrev answered (c : PageConfig) (n : Nat) (j : Task) (p : Code Unit) (q : Request)
    (r : Except String (Answer q)) (w : Page) : PageConfig :=
  { world := w, pool := c.pool.set n (j, p), trace := ⟨n, j, ⟨q, r, c.world⟩⟩ :: c.trace }

theorem mem_history_answered {p : Code Unit} {e : Entry Page Request Answer String}
    (he : e ∈ (answered c n j p q r w).history m) :
    m = n ∧ e = ⟨q, r, c.world⟩ ∨ e ∈ c.history m := by
  by_cases hm : m = n
  · subst hm
    rw [Protocol.history_cons_self] at he
    rcases List.mem_cons.mp he with rfl | he
    · exact .inl ⟨rfl, rfl⟩
    · exact .inr he
  · rw [Protocol.history_cons_ne hm] at he
    exact .inr he

theorem fetchedBackup_eq (h : fetchedBackup ⟨q, r, w⟩ = some env) :
    ∃ hq : q = .fetchBackup, hq ▸ r = .ok (some env) := by
  cases q with
  | fetchBackup =>
    cases r with
    | error e => cases h
    | ok backup => exact ⟨rfl, congrArg Except.ok h⟩
  | _ => cases h

namespace Custody

variable {p : Code Unit}

/-- A seed that a request leaves in the storage was known, or is the one that it has written. -/
theorem stored (h : Custody s c) (ha : Asked fe hasFetcher c locals n j q)
    (he : exec q ch c.world = some (r, w)) (hx : w.db .ldkSeed = some (.seed x)) :
    x ∈ knownSeeds c ∨ q = .setItem .ldkSeed (.seed s) ∧ x = s := by
  rcases exec_db he .ldkSeed with heq | ⟨-, hdb⟩
  · exact .inl (known_of_stored (heq ▸ hx))
  rcases hdb with ⟨v, rfl, hdb⟩ | ⟨-, hdb⟩ | ⟨-, hdb⟩ | ⟨i, y, rfl, -, -⟩ | ⟨i, -, hk, -⟩
  · obtain rfl := h.written ha.underWay ha.guarded
    rw [hdb] at hx
    cases hx
    exact .inr ⟨rfl, rfl⟩
  · rw [hdb] at hx
    cases hx
  · rw [hdb] at hx
    cases hx
  · obtain ⟨e, he', hload, hok, hnone⟩ := ha.guarded
    obtain ⟨z, hz, rfl⟩ := mem_trace_of_history he'
    exact absurd hnone (h.loaded z hz hload hok)
  · cases hk

/-- A manager that a request leaves in the storage is the seed's. -/
theorem managed (h : Custody s c) (ha : Asked fe hasFetcher c locals n j q)
    (he : exec q ch c.world = some (r, w)) {bytes : String}
    (hx : w.db .channelManager = some (.manager x bytes)) : x = s := by
  rcases exec_db he .channelManager with heq | ⟨-, hdb⟩
  · exact h.manager x bytes (heq ▸ hx)
  rcases hdb with ⟨v, rfl, hdb⟩ | ⟨-, hdb⟩ | ⟨-, hdb⟩ | ⟨i, y, -, hk, -⟩ | ⟨i, -, -, hman, hdb⟩
  · obtain ⟨y, b, rfl, env, rfl, hc⟩ := ha.guarded
    rw [hdb] at hx
    cases hx
    exact h.cleared ha.underWay hc
  · rw [hdb] at hx
    cases hx
  · rw [hdb] at hx
    cases hx
  · cases hk
  · -- the node that serializes its manager has loaded the stored seed
    obtain ⟨y, hseed, hst⟩ := ha.keyed.seed (.inl hman)
    rw [hdb, managerOf, hseed] at hx
    cases hx
    exact h.known y (known_of_stored hst)

/-- Only clearing the database lifts a bar. -/
theorem barred (ha : Asked fe hasFetcher c locals n j q) (hq : q ≠ .clear)
    (he : exec q ch c.world = some (r, w)) (hb : Barred c m) : Barred (answered c n j p q r w) m := by
  obtain ⟨hman, hnone⟩ := hb
  refine ⟨?_, ?_⟩
  · rcases exec_db he .channelManager with heq | ⟨-, hdb⟩
    · exact heq ▸ hman
    rcases hdb with ⟨v, -, hdb⟩ | ⟨rfl, -⟩ | ⟨rfl, -⟩ | ⟨i, y, -, hk, -⟩ | ⟨i, -, -, -, hdb⟩
    · rw [hdb]
      rfl
    · cases ha.at_
    · exact absurd rfl hq
    · cases hk
    · rw [hdb]
      rfl
  · rintro ⟨e, hmem, hreq, hdb⟩
    rcases mem_history_answered hmem with ⟨-, rfl⟩ | hmem
    · rw [hdb] at hman
      cases hman
    · exact hnone ⟨e, hmem, hreq, hdb⟩

/-- Another restore under way is refused still, or its backup is the seed's. -/
theorem restoring (h : Custody s c) (ha : Asked fe hasFetcher c locals n j q)
    (he : exec q ch c.world = some (r, w)) {secret : String} (hm : underWay c m = some j')
    (hverb : j'.verb = .restoreWallet env secret) :
    env.seedHex = s ∨ Barred (answered c n j p q r w) m ∧
      ¬ FoundOurs env ((answered c n j p q r w).history m) ∧
        ∀ x ∈ knownSeeds (answered c n j p q r w), env.own x = true := by
  rcases h.restores m j' env secret hm hverb with heq | ⟨hbar, hours, hown⟩
  · exact .inl heq
  have hrestores : j'.verb.restores = true := by rw [hverb]; rfl
  by_cases hq : q = .clear
  · -- the restore that clears has passed its guards, and there is no other
    subst hq
    obtain rfl := ha.restores_of_clear.2 m j' hm hrestores fun m j j' => h.alone m n j j'
    obtain rfl := Option.some.inj (ha.underWay.symm.trans hm)
    obtain ⟨env', hc⟩ := ha.guarded
    have hseed := h.cleared ha.underWay hc
    rcases hc with ⟨⟨secret', hverb'⟩, -⟩ | ⟨hno, -⟩
    · rw [hverb] at hverb'
      cases hverb'
      exact .inl hseed
    · rw [hrestores] at hno
      cases hno
  by_cases hseed : env.seedHex = s
  · exact .inl hseed
  refine .inr ⟨barred ha hq he hbar, ?_, fun x hx => ?_⟩
  · rintro ⟨y, ⟨e, hmem, hreq, hdb⟩, hopens⟩
    rcases mem_history_answered hmem with ⟨-, rfl⟩ | hmem
    · have hy := known_of_stored hdb
      exact hseed ((Envelope.seedHex_of_own (hown y hy) hopens).trans (h.known y hy))
    · exact hours ⟨y, ⟨e, hmem, hreq, hdb⟩, hopens⟩
  · rcases mem_knownSeeds_cons.mp hx with hst | hx
    · rcases h.stored ha he hst with hx | ⟨rfl, rfl⟩
      · exact hown x hx
      · -- a seed that was not known is written by its own `createWallet` or restore
        obtain ⟨y, hy, hwrites⟩ := ha.guarded
        cases hy
        rcases hwrites with ⟨hdraws, -⟩ | ⟨env', heq, hc⟩
        · have hbrings : j.verb.brings = true := by simp [Verb.brings, creates_of_draws hdraws]
          obtain rfl := h.alone m n j' j hm ha.underWay hrestores hbrings
          obtain rfl := Option.some.inj (ha.underWay.symm.trans hm)
          rw [hverb] at hdraws
          cases hdraws
        · rcases hc with ⟨⟨secret', hverb'⟩, -⟩ | ⟨-, ⟨e, hmem, hfetched⟩, -⟩
          · have hbrings : j.verb.brings = true := by rw [hverb']; rfl
            obtain rfl := h.alone m n j' j hm ha.underWay hrestores hbrings
            obtain rfl := Option.some.inj (ha.underWay.symm.trans hm)
            rw [hverb] at hverb'
            cases hverb'
            exact absurd heq hseed
          · obtain ⟨z, hz, rfl⟩ := mem_trace_of_history hmem
            exact hown _ (h.fetched z hz env' hfetched).1
    · exact hown x hx

/-- A request that takes effect keeps the seed. -/
theorem act (h : Custody s c) (ha : Asked fe hasFetcher c locals n j q)
    (hn : c.pool[n]? = some (j, .await q k)) (hadm : admitted (.call n ch) c = true)
    (he : exec q ch c.world = some (r, w)) : Custody s (answered c n j p q r w) := by
  have hawaits : c.awaits n = some (j, q) := by rw [Config.awaits, hn]
  have hway : ∀ m j', underWay (answered c n j p q r w) m = some j' → underWay c m = some j' :=
    fun m j' => underWay_of_set ha.underWay (session_exec he)
  have hknown : ∀ x ∈ knownSeeds c, x ∈ knownSeeds (answered c n j p q r w) :=
    fun x hx => mem_knownSeeds_cons.mpr (.inr hx)
  simp only [admitted, hawaits] at hadm
  refine ⟨fun x hx => ?_, fun x bytes hm => h.managed ha he hm, fun x hx => ?_, fun y hy s' hs' => ?_,
    fun y hy env hf => ?_, fun y hy hload hok => ?_, fun m j' x hm hdraws => ?_,
    fun m j' env secret hm hverb => h.restoring ha he (hway m j' hm) hverb,
    fun m m' j₁ j₂ h₁ h₂ => h.alone m m' j₁ j₂ (hway m j₁ h₁) (hway m' j₂ h₂)⟩
  · rcases mem_knownSeeds_cons.mp hx with hst | hx
    · rcases h.stored ha he hst with hx | ⟨-, rfl⟩
      · exact h.known x hx
      · rfl
    · exact h.known x hx
  · rcases mem_startedSeeds_cons.mp hx with hkeys | hx
    · obtain ⟨y, hy, hkeys⟩ := List.mem_filterMap.mp hkeys
      obtain ⟨i, rfl⟩ := Page.exists_instance hy
      exact hknown x (known_of_stored (ha.keyed.stored i x (Wallet.inUse_of_keys hkeys)))
    · exact hknown x (h.started x hx)
  · rcases List.mem_cons.mp hy with rfl | hy
    · refine mem_knownSeeds_cons.mpr (.inl ?_)
      unfold storedSeed at hs'
      split at hs'
      · rename_i y hreq hok
        cases hs'
        dsimp only at hreq hok
        subst hreq
        simp only [exec, Option.some.injEq] at he
        split at he <;> cases he
        · simp
        · cases hok
      · cases hs'
    · exact hknown s' (h.wrote y hy s' hs')
  · rcases List.mem_cons.mp hy with rfl | hy
    · obtain ⟨rfl, hr⟩ := fetchedBackup_eq hf
      dsimp only at hr
      subst hr
      obtain ⟨x, hfound⟩ := ha.guarded
      have hx := known_of_found hfound
      obtain rfl := h.known x hx
      simp only [exec, Option.some.injEq] at he
      split at he
      · have hbackup : ch.backup = some env := Except.ok.inj (congrArg Prod.fst he)
        rw [hbackup] at hadm
        exact ⟨hknown x hx, List.all_eq_true.mp hadm x hx⟩
      · cases congrArg Prod.fst he
    · obtain ⟨hs, hown⟩ := h.fetched y hy env hf
      exact ⟨hknown s hs, hown⟩
  · rcases List.mem_cons.mp hy with rfl | hy
    · obtain ⟨i, hreq⟩ := hload
      dsimp only at hreq hok
      subst hreq
      rcases exec_loadSeed he with ⟨e, rfl, -⟩ | ⟨rfl, -⟩
      · cases hok
      · intro hnone
        have hchosen : ch.ok = true := by
          simp only [exec, Option.some.injEq] at he
          split at he
          · assumption
          · cases congrArg Prod.fst he
        dsimp only at hnone
        simp [hchosen, hnone, parseSeed] at hadm
    · exact h.loaded y hy hload hok
  · have hold := hway m j' hm
    rcases h.creates m j' x hold hdraws with heq | hbar
    · exact .inl heq
    · refine .inr (barred ha ?_ he hbar)
      rintro rfl
      have hno := ha.restores_of_clear.1 m j' hold
      exact absurd (hno.symm.trans (creates_of_draws hdraws)) Bool.false_ne_true

/-! ### Steps that make no request -/

/-- A step that leaves database and requests as they are, and calls nothing. -/
theorem of_eq (h : Custody s c) (hdb : c'.world.db = c.world.db) (ht : c'.trace = c.trace)
    (hway : ∀ m j, underWay c' m = some j → underWay c m = some j) : Custody s c' := by
  have hknown : knownSeeds c' = knownSeeds c := by rw [knownSeeds, knownSeeds, hdb, ht]
  have hhist : ∀ m, c'.history m = c.history m := fun m => by rw [Config.history, Config.history, ht]
  have hbarred : ∀ m, Barred c' m ↔ Barred c m := fun m => by rw [Barred, Barred, hdb, hhist]
  refine ⟨?_, ?_, ?_, ?_, ?_, ?_, fun m j x hm => ?_, fun m j env secret hm => ?_,
    fun m m' j j' hm hm' => h.alone m m' j j' (hway m j hm) (hway m' j' hm')⟩
  · rw [hknown]
    exact h.known
  · rw [hdb]
    exact h.manager
  · rw [hknown, ht]
    exact h.started
  · rw [hknown, ht]
    exact h.wrote
  · rw [hknown, ht]
    exact h.fetched
  · rw [ht]
    exact h.loaded
  · rw [hbarred]
    exact h.creates m j x (hway m j hm)
  · rw [hbarred, hhist, hknown]
    exact h.restores m j env secret (hway m j hm)

/-- What a node persists. -/
theorem persist (h : Custody s c) (hk : Keyed c.trace c.world) {i : Nat} {key : Key} {v : Value}
    {bytes : String} {version : Nat} (hi : (c.world.instances i).managed = true)
    (hv : nodeValue (c.world.instances i) bytes version key = some v) :
    Custody s { c with world := c.world.store key (some v) } := by
  have hseed : (c.world.store key (some v)).db .ldkSeed = c.world.db .ldkSeed := by
    refine Function.update_of_ne ?_ _ _
    rintro rfl
    cases hv
  have hknown : knownSeeds { c with world := c.world.store key (some v) } = knownSeeds c := by
    rw [knownSeeds, knownSeeds, hseed]
  have hbarred : ∀ m, Barred c m → Barred { c with world := c.world.store key (some v) } m := by
    rintro m ⟨hman, hnone⟩
    refine ⟨?_, hnone⟩
    by_cases hkey : key = .channelManager
    · rw [hkey, Page.store_db, Function.update_self]
      rfl
    · rw [Page.store_db, Function.update_of_ne (Ne.symm hkey)]
      exact hman
  refine ⟨?_, fun x b hm => ?_, ?_, ?_, ?_, h.loaded, fun m j x hm hdraws => ?_,
    fun m j env secret hm hverb => ?_, h.alone⟩
  · rw [hknown]
    exact h.known
  · by_cases hkey : key = .channelManager
    · subst hkey
      obtain ⟨y, hy, hst⟩ := hk.seed (.inl hi)
      rw [Page.store_db, Function.update_self] at hm
      rw [nodeValue, managerOf, hy] at hv
      cases hv
      cases hm
      exact h.known _ (known_of_stored hst)
    · rw [Page.store_db, Function.update_of_ne (Ne.symm hkey)] at hm
      exact h.manager x b hm
  · rw [hknown]
    exact h.started
  · rw [hknown]
    exact h.wrote
  · rw [hknown]
    exact h.fetched
  · exact (h.creates m j x hm hdraws).imp_right (hbarred m)
  · rw [hknown]
    exact (h.restores m j env secret hm hverb).imp_right fun hr => ⟨hbarred m hr.1, hr.2⟩

end Custody

/-! ### A call -/

/-- A call that joins the others. -/
abbrev joined (c : PageConfig) (w : Page) (j : Task) (p : Code Unit) : PageConfig :=
  { c with world := w, pool := c.pool ++ [(j, p)] }

theorem underWay_joined {p : Code Unit} (hw : w.session = c.world.session)
    (h : underWay (joined c w j p) m = some j') :
    (m = c.pool.length ∧ j' = j ∧ ∀ e, p ≠ .fail e) ∨ underWay c m = some j' := by
  obtain ⟨p', hm, hj', hd, hf⟩ := underWay_cases h
  rcases Nat.lt_trichotomy m c.pool.length with hlt | rfl | hgt
  · rw [List.getElem?_append_left hlt] at hm
    exact .inr (underWay_of hm (hj'.trans hw) hd hf)
  · rw [List.getElem?_append_right (Nat.le_refl _), Nat.sub_self] at hm
    cases hm
    exact .inl ⟨rfl, rfl, hf⟩
  · rw [List.getElem?_eq_none (by simp; omega)] at hm
    cases hm

namespace Custody

variable {p : Code Unit}

/-- A call that brings no seed, or the seed that is known, or will be refused. -/
theorem join (h : Custody s c) (hw : w.session = c.world.session) (hdb : w.db = c.world.db)
    (hcreates : ∀ x, j.verb.draws = some x → x = s ∨ Barred c c.pool.length)
    (hrestores : ∀ env secret, j.verb = .restoreWallet env secret → env.seedHex = s ∨
      Barred c c.pool.length ∧ ¬ FoundOurs env (c.history c.pool.length) ∧
        ∀ x ∈ knownSeeds c, env.own x = true)
    (halone : ∀ m j', underWay c m = some j' →
      (j.verb.restores = true → j'.verb.brings = false) ∧
        (j.verb.brings = true → j'.verb.restores = false)) : Custody s (joined c w j p) := by
  have hknown : knownSeeds (joined c w j p) = knownSeeds c := by rw [knownSeeds, knownSeeds, hdb]
  have hbarred : ∀ m, Barred (joined c w j p) m ↔ Barred c m := fun m => by
    rw [Barred, Barred, hdb]
    rfl
  refine ⟨?_, ?_, ?_, ?_, ?_, h.loaded, fun m j' x hm hdraws => ?_,
    fun m j' env secret hm hverb => ?_, fun m m' j₁ j₂ h₁ h₂ hr hb => ?_⟩
  · rw [hknown]
    exact h.known
  · rw [hdb]
    exact h.manager
  · rw [hknown]
    exact h.started
  · rw [hknown]
    exact h.wrote
  · rw [hknown]
    exact h.fetched
  · rw [hbarred]
    rcases underWay_joined hw hm with ⟨rfl, rfl, -⟩ | hm
    · exact hcreates x hdraws
    · exact h.creates m j' x hm hdraws
  · rw [hbarred, hknown]
    rcases underWay_joined hw hm with ⟨rfl, rfl, -⟩ | hm
    · exact hrestores env secret hverb
    · exact h.restores m j' env secret hm hverb
  · rcases underWay_joined hw h₁ with ⟨hm, hj, -⟩ | hold
    · rcases underWay_joined hw h₂ with ⟨hm', -⟩ | hold'
      · rw [hm, hm']
      · exact absurd (((halone m' j₂ hold').1 (hj ▸ hr)).symm.trans hb) Bool.false_ne_true
    · rcases underWay_joined hw h₂ with ⟨-, hj, -⟩ | hold'
      · exact absurd (((halone m j₁ hold).2 (hj ▸ hb)).symm.trans hr) Bool.false_ne_true
      · exact h.alone m m' j₁ j₂ hold hold' hr hb

/-- Where no manager is stored and no other seed is known or on its way, any seed may be brought. -/
theorem renew (h : Custody s c) {s' : Seed} (hman : c.world.db .channelManager = none)
    (hknown : ∀ x ∈ knownSeeds c, x = s') (hnone : anyUnderWay c Verb.brings = false) :
    Custody s' c := by
  have hno : ∀ m j, underWay c m = some j → j.verb.brings = true → False := fun m j hm hb =>
    absurd ((anyUnderWay_eq_false.mp hnone m j hm).symm.trans hb) Bool.false_ne_true
  refine ⟨hknown, fun x bytes hm => ?_, h.started, h.wrote, fun x hx env hf => ?_, h.loaded,
    fun m j x hm hdraws => ?_, fun m j env secret hm hverb => ?_, h.alone⟩
  · rw [hman] at hm
    cases hm
  · obtain ⟨hs, hown⟩ := h.fetched x hx env hf
    obtain rfl := hknown s hs
    exact ⟨hs, hown⟩
  · exact (hno m j hm (by simp [Verb.brings, creates_of_draws hdraws])).elim
  · exact (hno m j hm (by rw [hverb]; rfl)).elim

/-- A restore that is refused ends at once. -/
theorem advance_refused {random : Seed} {secret : String}
    (hblock : (restoreBlockReason w.wallet.isSome w.restoring false).isSome = true) :
    ∃ e, ((code fe hasFetcher random (.restoreWallet env secret)).advance w).2 = .fail e := by
  obtain ⟨reason, hreason⟩ := Option.isSome_iff_exists.mp hblock
  refine ⟨reason, ?_⟩
  simp [code, restoreWallet, Proc.get, Proc.advance, Proc.bind, hreason]

/-- An admitted call brings no other seed than the one that is known. -/
theorem call (h : Custody s c) {verb : Verb} {random : Seed} {p : Code Unit}
    (hfresh : c.history c.pool.length = [])
    (hadm : admitted (.event (.call verb random)) c = true) (hj : j.verb = verb)
    (hw : w.session = c.world.session) (hdb : w.db = c.world.db)
    (hrefused : ∀ env secret, verb = .restoreWallet env secret →
      (restoreBlockReason c.world.wallet.isSome c.world.restoring false).isSome = true →
        ∃ e, p = .fail e) : ∃ s', Custody s' (joined c w j p) := by
  subst hj
  have hbar : (c.world.db .channelManager).isSome = true → Barred c c.pool.length := by
    refine fun hman => ⟨hman, ?_⟩
    rw [hfresh]
    rintro ⟨e, he, -⟩
    cases he
  cases hverb : j.verb with
  | createWallet opts drawn =>
    simp only [hverb, admitted] at hadm
    split at hadm
    · rename_i hman
      rw [Bool.not_eq_true'] at hadm
      refine ⟨s, h.join hw hdb (fun x _ => .inr (hbar hman)) (fun env secret hr => ?_)
        fun m j' hm => ⟨fun hr => ?_, fun _ => anyUnderWay_eq_false.mp hadm m j' hm⟩⟩
      all_goals
        rw [hverb] at hr
        cases hr
    · rename_i hman
      simp only [Bool.and_eq_true, Bool.not_eq_true'] at hadm
      obtain ⟨hnone, hall⟩ := hadm
      have hman : c.world.db .channelManager = none := by simpa using hman
      have hquiet : ∀ m j', underWay c m = some j' → j'.verb.brings = false :=
        anyUnderWay_eq_false.mp hnone
      have hrest : ∀ env secret, j.verb ≠ .restoreWallet env secret := by
        intro env secret hr
        rw [hverb] at hr
        cases hr
      have halone : ∀ m j', underWay c m = some j' →
          (j.verb.restores = true → j'.verb.brings = false) ∧
            (j.verb.brings = true → j'.verb.restores = false) := by
        refine fun m j' hm => ⟨fun _ => hquiet m j' hm, fun _ => ?_⟩
        have := hquiet m j' hm
        simp only [Verb.brings, Bool.or_eq_false_iff] at this
        exact this.2
      cases hdraws : (Verb.createWallet opts drawn).draws with
      | none =>
        refine ⟨s, h.join hw hdb (fun x hx => ?_) (fun env secret hr => absurd hr (hrest env secret))
          halone⟩
        rw [hverb, hdraws] at hx
        cases hx
      | some s' =>
        rw [hdraws, Option.all_some, List.all_eq_true] at hall
        have hrenew := h.renew hman (fun x hx => of_decide_eq_true (hall x hx)) hnone
        refine ⟨s', hrenew.join hw hdb (fun x hx => ?_)
          (fun env secret hr => absurd hr (hrest env secret)) halone⟩
        rw [hverb, hdraws] at hx
        exact .inl (Option.some.inj hx).symm
  | restoreWallet env secret =>
    simp only [hverb, admitted, Bool.or_eq_true] at hadm
    rcases hadm with hblock | hadm
    · obtain ⟨e, rfl⟩ := hrefused env secret hverb hblock
      refine ⟨s, h.of_eq hdb rfl fun m j' hm => ?_⟩
      rcases underWay_joined hw hm with ⟨-, -, hf⟩ | hm
      · exact absurd rfl (hf e)
      · exact hm
    · rw [Bool.and_eq_true, Bool.not_eq_true'] at hadm
      obtain ⟨hnone, hadm⟩ := hadm
      have hquiet : ∀ m j', underWay c m = some j' → j'.verb.brings = false :=
        anyUnderWay_eq_false.mp hnone
      have hdraws : ∀ x, j.verb.draws = some x → False := by
        intro x hx
        rw [hverb] at hx
        cases hx
      have halone : ∀ m j', underWay c m = some j' →
          (j.verb.restores = true → j'.verb.brings = false) ∧
            (j.verb.brings = true → j'.verb.restores = false) := by
        refine fun m j' hm => ⟨fun _ => hquiet m j' hm, fun _ => ?_⟩
        have := hquiet m j' hm
        simp only [Verb.brings, Bool.or_eq_false_iff] at this
        exact this.2
      split at hadm
      · rename_i hman
        refine ⟨s, h.join hw hdb (fun x hx => (hdraws x hx).elim) (fun env' secret' hr => ?_) halone⟩
        rw [hverb] at hr
        cases hr
        refine .inr ⟨hbar hman, ?_, List.all_eq_true.mp hadm⟩
        rw [hfresh]
        rintro ⟨y, ⟨e, he, -⟩, -⟩
        cases he
      · rename_i hman
        have hman : c.world.db .channelManager = none := by simpa using hman
        have hrenew := h.renew hman
          (fun x hx => of_decide_eq_true (List.all_eq_true.mp hadm x hx)) hnone
        refine ⟨env.seedHex, hrenew.join hw hdb (fun x hx => (hdraws x hx).elim)
          (fun env' secret' hr => ?_) halone⟩
        rw [hverb] at hr
        cases hr
        exact .inl rfl
  | startNode | autoStart _ _ | stopNode | onStateChanged =>
    refine ⟨s, h.join hw hdb (fun x hx => ?_) (fun env secret hr => ?_) fun m j' hm =>
      ⟨fun hr => ?_, fun hr => ?_⟩⟩
    all_goals
      rw [hverb] at *
      cases ‹_ = _›

end Custody

/-! ## Runs -/

/-- Exclusion, binding and custody together. -/
structure Kept (fe : Frontend) (hasFetcher : Bool) (c : PageConfig) : Prop where
  calls : ∃ locals, (control fe hasFetcher).Stands c locals ∧ Excluded c.world locals ∧
    Binding c.trace c.world locals
  guarded : ∃ units, (guards fe hasFetcher).Stands c units
  custody : ∃ s, Custody s c

/-- What is known of a request that takes effect. -/
theorem Kept.asked (hc : (control fe hasFetcher).Stands c locals) (hex : Excluded c.world locals)
    (hbind : Binding c.trace c.world locals) {units : Nat → Unit}
    (hg : (guards fe hasFetcher).Stands c units) (hsep : separate c = true)
    (hn : c.pool[n]? = some (j, .await q k)) (hj : j.session = c.world.session) :
    Asked fe hasFetcher c locals n j q where
  stands := hc
  excluded := hex
  keyed := hbind.keyed
  separate := hsep
  underWay := underWay_of_await hn hj
  at_ := (hc.standing n j _ hn hj).1.asks q rfl
  fit := (hc.standing n j _ hn hj).1.fit
  guarded := (hg.standing n j _ hn hj).1 q rfl

/-- One admitted step. -/
theorem Kept.step {lab : PageLabel} (h : Kept fe hasFetcher c) (hadm : admitted lab c = true)
    (hsep : separate c = true) (hs : (lifecycle fe hasFetcher).step lab c = some c')
    (hsep' : separate c' = true) : Kept fe hasFetcher c' := by
  obtain ⟨⟨locals, hc, hex, hbind⟩, ⟨units, hg⟩, s, hcus⟩ := h
  have horder : orderly c' = true := by
    simp only [separate, Bool.and_eq_true] at hsep'
    exact hsep'.1
  have hkept : seedKept lab c = true := by
    cases lab with
    | call n ch =>
      obtain ⟨j, q, k, r, w, hn, hruns, -, -⟩ := Machine.step_call hs
      exact (Kept.asked hc hex hbind hg hsep hn (of_decide_eq_true hruns)).seedKept hcus hn
    | _ => rfl
  obtain ⟨locals', hc', hex', hbind'⟩ := ((excluded_preserves fe hasFetcher).and
    (binding_preserves fe hasFetcher)).step admits hc ⟨hex, hbind⟩
      ⟨fun d hd => Option.some.inj (hs.symm.trans hd) ▸ horder, hkept⟩ hs
  obtain ⟨units', hg', -⟩ := (guards_preserves fe hasFetcher).step Guards.admits hg trivial trivial hs
  refine ⟨⟨locals', hc', hex', hbind'⟩, ⟨units', hg'⟩, ?_⟩
  cases lab with
  | call n ch =>
    obtain ⟨j, q, k, r, w, hn, hruns, he, rfl⟩ := Machine.step_call hs
    exact ⟨s, hcus.act (Kept.asked hc hex hbind hg hsep hn (of_decide_eq_true hruns)) hn hadm he⟩
  | resume n =>
    obtain ⟨j, f, k, hn, hruns, rfl⟩ := Machine.step_resume hs
    have hj := of_decide_eq_true hruns
    obtain ⟨hsession, hdb⟩ := Guards.kept_advance ((hg.standing n j _ hn hj).2 _ trivial)
    exact ⟨s, hcus.of_eq hdb rfl fun m j' =>
      underWay_of_set (underWay_of hn hj (by simp) (by simp)) hsession⟩
  | event e =>
    cases e with
    | call verb random =>
      rcases Machine.step_event hs with ⟨w, he, -⟩ | ⟨w, j, p, he, rfl⟩
      · cases he
      · cases he
        have hadmits : (guards fe hasFetcher).Admits := Guards.admits
        obtain ⟨hsession, hdb⟩ := Guards.kept_advance
          (((hadmits (.call verb random) c.world _ _ rfl).2 _ _ rfl).2 _ trivial)
        refine hcus.call (hc.fresh _ (Nat.le_refl _)) hadm rfl hsession hdb ?_
        rintro env secret rfl hblock
        exact Custody.advance_refused hblock
    | persist i key bytes version =>
      rcases Machine.step_event hs with ⟨w, he, rfl⟩ | ⟨w, j, p, he, -⟩
      · simp only [lifecycle, effect] at he
        split at he
        · rename_i hi
          simp only [Option.map_eq_some_iff] at he
          obtain ⟨v, hv, he⟩ := he
          cases he
          exact ⟨s, hcus.persist hbind.keyed hi hv⟩
        · cases he
      · simp only [lifecycle, effect] at he
        split at he
        · simp at he
        · cases he
    | reload =>
      rcases Machine.step_event hs with ⟨w, he, rfl⟩ | ⟨w, j, p, he, -⟩
      · cases he
        refine ⟨s, hcus.of_eq rfl rfl fun m j hm => ?_⟩
        -- no call is older than its page
        obtain ⟨p, hm, hj, -⟩ := underWay_cases hm
        have hbirth : j.session ≤ c.world.session := hc.birth m j p hm
        have hreborn : j.session = c.world.session + 1 := hj
        omega
      · cases he

/-- A page over a database whose manager goes with its seed. -/
theorem Kept.opened {db : Db} {mirror : Nat} (hdb : Consistent db) :
    Kept fe hasFetcher (opened db mirror) := by
  refine ⟨⟨fun _ => {}, Control.stands_initial, .initial rfl, .opened hdb⟩,
    ⟨fun _ => (), Control.stands_initial⟩,
    (parseSeed (db .ldkSeed)).getD ((managerSeed (db .channelManager)).getD ""), ?_⟩
  have hcall : ∀ m, underWay (Lifecycle.opened db mirror) m = none := fun m => by
    simp [underWay, Lifecycle.opened]
  have hknown : ∀ x ∈ knownSeeds (Lifecycle.opened db mirror), parseSeed (db .ldkSeed) = some x := by
    intro x hx
    simpa [knownSeeds, Lifecycle.opened] using hx
  refine ⟨fun x hx => ?_, fun x bytes hm => ?_, fun x hx => ?_, fun x hx => ?_, fun x hx => ?_,
    fun x hx => ?_, fun m j x hm => ?_, fun m j env secret hm => ?_, fun m m' j j' hm => ?_⟩
  · rw [hknown x hx]
    rfl
  · have hm : db .channelManager = some (.manager x bytes) := hm
    cases hp : parseSeed (db .ldkSeed) with
    | none =>
      rw [hm]
      rfl
    | some y => exact hdb x y bytes hm (parseSeed_eq hp)
  · simp [startedSeeds, Lifecycle.opened] at hx
  · cases hx
  · cases hx
  · cases hx
  all_goals
    rw [hcall] at hm
    cases hm

theorem kept_of_run {db : Db} {mirror : Nat} (hdb : Consistent db)
    (hrun : (lifecycle fe hasFetcher).Run (fun lab d => (admitted lab d && separate d) = true)
      (opened db mirror) c) (hc : separate c = true) : Kept fe hasFetcher c := by
  induction hrun with
  | refl => exact .opened hdb
  | snoc _ hP hs ih =>
    rw [Bool.and_eq_true] at hP
    exact (ih hP.2).step hP.1 hP.2 hs hc

end Custody

/-- In every run whose calls are admitted, and in which restores, starts and stops are apart, seed and
state stay bound. -/
theorem bound_of_admitted (fe : Frontend) (hasFetcher : Bool) (db : Db) (mirror : Nat)
    (hdb : Consistent db) (c : PageConfig)
    (hrun : (lifecycle fe hasFetcher).Run (fun lab d => (admitted lab d && separate d) = true)
      (opened db mirror) c) (hc : separate c = true) : Bound c := by
  obtain ⟨locals, hstands, -, hbind⟩ := (kept_of_run hdb hrun hc).calls
  exact hbind.bound hstands

/-! ## Two wallets -/

/-- A wallet is created and its node started. -/
def createdScript : List (Line Choice Event) :=
  [.event (.call (.createWallet .absent "5eed01") "f00d"), .go 0 {} 80]

/-- The new node persists its manager, and the caller has its seed; a second `createWallet` is
refused. -/
theorem bound_of_admitted_created : ∃ c,
    (lifecycle .pwa false).Run (fun lab d => (admitted lab d && separate d) = true)
        (opened (fun _ => none) 0) c ∧
      (c.world.instances 0).isRunning = true ∧ Bound c := by
  obtain ⟨c, hrun, hf⟩ := Machine.Run.exists_of_play (M := lifecycle .pwa false)
    (g := fun lab d => admitted lab d && separate d)
    (s := createdScript ++ [.event (.persist 0 .channelManager "m" 1),
      .event (.call (.createWallet .absent "5eed02") "f00d"), .go 1 {} 80])
    (c := opened (fun _ => none) 0) (f := fun c => (c.world.instances 0).isRunning && separate c)
    (by decide +kernel)
  rw [Bool.and_eq_true] at hf
  exact ⟨c, hrun, hf.1, bound_of_admitted .pwa false _ 0 (fun _ _ _ h => by cases h) c hrun hf.2⟩

/-- A second wallet is created before the node of the first has stored its manager: its
seed replaces the one that runs. -/
theorem not_bound_after_second_createWallet : ∃ c,
    (lifecycle .pwa false).Run (fun _ _ => True) (opened (fun _ => none) 0) c ∧ ¬ Bound c := by
  obtain ⟨c, hrun, hf⟩ := Machine.Run.exists_of_play (M := lifecycle .pwa false)
    (g := fun _ _ => true) (c := opened (fun _ => none) 0)
    (s := createdScript ++
      [.event (.call (.createWallet .absent "5eed02") "f00d"), .go 1 {} 3])
    (f := fun c => (c.world.instances 0).isRunning && (c.world.instances 0).seed = some "5eed01" &&
      c.world.db .ldkSeed = some (.seed "5eed02"))
    (by decide +kernel)
  refine ⟨c, hrun.mono fun _ _ _ => trivial, fun h => ?_⟩
  simp only [Bool.and_eq_true, decide_eq_true_eq] at hf
  obtain ⟨s, hseed, hst⟩ := h.running 0 hf.1.1
  rw [hf.1.2] at hseed
  rw [hf.2] at hst
  cases hseed
  exact absurd hst (by decide)

end LibreWallet.Lifecycle
