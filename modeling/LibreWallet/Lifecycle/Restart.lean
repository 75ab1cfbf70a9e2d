import LibreWallet.Async.Alone
import LibreWallet.Lifecycle.Verbs
import Mathlib.Data.List.Nodup

/-
  Lifecycle/Restart.lean --- whether a restore that was interrupted can be repeated.

  A restore into an empty database is cut off by a crash, or ends with an error of the
  storage or of the node's start; then the same restore is called again.  The import
  writes the channel manager before the seed, and the guards refuse any database with
  a channel manager that the stored seed does not date.
-/

set_option autoImplicit false

namespace LibreWallet.Lifecycle

open Async Controller

variable {env : Envelope} {secret random : String} {w w' : Page}

/-! ## The vocabulary -/

/-- The run in which nothing fails. -/
def fair (q : Request) (w : Page) : Option (Except String (Answer q) × Page) := exec q {} w

/-- Every entry of the envelope is stored. -/
def Imported (env : Envelope) (db : Db) : Prop := ∀ e ∈ env.entries, db e.1 = some e.2

/-- A page that was just loaded, over an empty database. -/
def emptyPage (mirror : Nat) : Page := { mirror }

/-- Where a restore into an empty database was interrupted: its call ended with an
error, or the page died and was loaded again. -/
inductive Interrupted (env : Envelope) (secret : String) (random : Seed) (mirror : Nat) :
    Page → Prop where
  | failed {msg : String} {w : Page} :
      Alone exec (restoreWallet .pwa env secret random) (emptyPage mirror) (.fail msg) w →
      Interrupted env secret random mirror w
  | crashed {p : Code Nat} {w : Page} :
      Alone exec (restoreWallet .pwa env secret random) (emptyPage mirror) p w →
      Interrupted env secret random mirror (reloaded w)

/-- The guards' refusals. -/
def refusals : List String := [RESTORE_RUNNING_MSG, RESTORE_IN_PROGRESS_MSG, RESTORE_FUNDED_MSG]

/-- The restore from `w` is not refused, succeeds if an uninterrupted one does, and
leaves the same database. -/
def Restartable (env : Envelope) (secret : String) (mirror : Nat) (w : Page) : Prop :=
  ∀ random random', ∃ r₁ w₁ r₂ w₂,
    (restoreWallet .pwa env secret random).eval fair (emptyPage mirror) = some (r₁, w₁) ∧
    (restoreWallet .pwa env secret random').eval fair w = some (r₂, w₂) ∧
    (∀ msg ∈ refusals, r₂ ≠ .error msg) ∧ r₂.isOk = r₁.isOk ∧ w₂.db = w₁.db

/-- A start, manual or automatic. -/
def Starts (verb : Verb) : Prop :=
  verb = .startNode ∨ ∃ flag unreachable, verb = .autoStart flag unreachable

/-- While an import is incomplete no start brings a node up. -/
def NeverStarted (env : Envelope) (w : Page) : Prop :=
  ¬ Imported env w.db → ∀ hasFetcher random verb p w', Starts verb →
    Alone exec (code .pwa hasFetcher random verb) w p w' →
    ∀ i, (w'.instances i).isRunning = false

/-! ## What an interrupted restore leaves -/

/-- During a restore into an empty database. -/
structure Importing (env : Envelope) (secret : String) (w : Page) : Prop where
  opened : ∀ k v, w.db k = some v → env.opens secret = true
  entries : ∀ k v, w.db k = some v → (k, v) ∈ env.entries
  /-- The seed is written last. -/
  seedLast : w.db .ldkSeed ≠ none → Imported env w.db
  assigned : w.wallet ≠ none → Imported env w.db
  unlocked : w.wallet = none → w.runLock = none
  idle : w.startingPromise = none
  stopped : w.wallet = none → ∀ i, (w.instances i).isRunning = false

/-- Two entries of one key are one entry. -/
theorem Envelope.eq_of_mem {k : Key} {v v' : Value} (h : (k, v) ∈ env.entries)
    (h' : (k, v') ∈ env.entries) : v = v' := by
  have := List.inj_on_of_nodup_map env.nodup h h' rfl
  exact congrArg Prod.snd this

theorem Envelope.entry_eq_some {k : Key} {v : Value} :
    env.entry k = some v ↔ (k, v) ∈ env.entries := by
  simp only [Envelope.entry, Option.map_eq_some_iff]
  constructor
  · rintro ⟨⟨k', v'⟩, he, rfl⟩
    have hk : k' = k := by simpa using List.find?_some he
    exact hk ▸ List.mem_of_find?_eq_some he
  · intro h
    cases hf : env.entries.find? fun x => decide (x.1 = k) with
    | none =>
      have := List.find?_eq_none.mp hf (k, v) h
      simp at this
    | some x =>
      have hx := List.mem_of_find?_eq_some hf
      have hk : x.1 = k := by simpa using List.find?_some hf
      obtain ⟨k', v'⟩ := x
      cases hk
      exact ⟨_, rfl, Envelope.eq_of_mem hx h⟩

/-- A backup holds no device-local key. -/
theorem Importing.none_of_local (h : Importing env secret w) {k : Key} (hk : k.carried = false) :
    w.db k = none := by
  cases hv : w.db k with
  | none => rfl
  | some v =>
    have := env.carried _ (h.entries k v hv)
    rw [hk] at this
    cases this

/-- What an imported database holds: the entries and nothing else. -/
theorem Importing.db_eq (h : Importing env secret w) (hi : Imported env w.db) (k : Key) :
    w.db k = env.entry k := by
  cases hv : w.db k with
  | some v => exact (Envelope.entry_eq_some.mpr (h.entries k v hv)).symm
  | none =>
    cases he : env.entry k with
    | none => rfl
    | some v =>
      have := hi _ (Envelope.entry_eq_some.mp he)
      rw [hv] at this
      cases this

/-- Storing an entry keeps what is stored of the others. -/
theorem stored_of_store {k k' : Key} {v v' : Value} (hmem : (k, v) ∈ env.entries)
    (h : w.db k' = some v') (hmem' : (k', v') ∈ env.entries) :
    (w.store k (some v)).db k' = some v' := by
  rw [Page.store_db, Function.update_apply]
  split
  · rename_i heq
    cases heq
    rw [Envelope.eq_of_mem hmem hmem']
  · exact h

/-- The import stores an entry. -/
theorem Importing.store {k : Key} {v : Value} (h : Importing env secret w)
    (hopen : env.opens secret = true) (hmem : (k, v) ∈ env.entries)
    (hseed : k = .ldkSeed → ∀ e ∈ env.entries, e.1 ≠ .ldkSeed → w.db e.1 = some e.2) :
    Importing env secret (w.store k (some v)) := by
  have keep : Imported env w.db → Imported env (w.store k (some v)).db :=
    fun hi e he => stored_of_store hmem (hi e he) he
  refine ⟨fun _ _ _ => hopen, ?_, ?_, fun hw => keep (h.assigned hw), h.unlocked, h.idle, h.stopped⟩
  · intro k' v' hv
    rw [Page.store_db, Function.update_apply] at hv
    split at hv
    · rename_i heq
      cases heq
      cases hv
      exact hmem
    · exact h.entries k' v' hv
  · intro hne
    by_cases hk : k = .ldkSeed
    · intro e he
      by_cases hek : e.1 = .ldkSeed
      · have : e.2 = v := Envelope.eq_of_mem (k := .ldkSeed) (hek ▸ he) (hk ▸ hmem)
        rw [Page.store_db, hek, hk, Function.update_self, this]
      · exact stored_of_store hmem (hseed hk e he hek) he
    · rw [Page.store_db, Function.update_of_ne (Ne.symm hk)] at hne
      exact keep (h.seedLast hne)

/-! ## The interrupted restore -/

section Rules

abbrev Trace := List (Entry Page Request Answer String)

variable {α : Type} {h : Trace} {s : Page}

/-- One that succeeds or fails, and changes nothing. -/
theorem wp_turn {I : Page → Prop} {mayFail : Bool} {Post : PostCond Page Request Answer String Unit}
    (hi : I w) (hk : ∀ h' r, Post h' r w w) :
    wp (aloneContract exec I) (ask (.turn mayFail)) h Post s w := by
  refine wp_ask_alone hi fun c r w₂ he => ?_
  cases he
  exact ⟨hi, hk _ _⟩

/-- A read. -/
theorem wp_getItem {I : Page → Prop} {k : Key}
    {Post : PostCond Page Request Answer String (Option Value)}
    (hi : I w) (hok : ∀ h', Post h' (.ok (w.db k)) w w) (herr : ∀ h' e, Post h' (.error e) w w) :
    wp (aloneContract exec I) (ask (.getItem k)) h Post s w := by
  refine wp_ask_alone hi fun c r w₂ he => ?_
  simp only [exec, Option.some.injEq, Prod.mk.injEq] at he
  obtain ⟨rfl, rfl⟩ := he
  refine ⟨hi, ?_⟩
  split
  · exact hok _
  · exact herr _ _

/-- Without a config there is no alias to move. -/
theorem wp_buildWallet {I : Page → Prop} {Post : PostCond Page Request Answer String Nat} (hi : I w)
    (hc : w.db .ldkConfig = none)
    (hok : ∀ h' s', Post h' (.ok w.wallets.length) s' { w with wallets := w.wallets ++ [{}] })
    (herr : ∀ h' s' e, Post h' (.error e) s' w) :
    wp (aloneContract exec I) (buildWallet .pwa) h Post s w := by
  simp only [buildWallet, getConfig, Proc.bind_eq, Proc.pure_eq, wp_bind]
  refine wp_turn hi fun h₁ r => ?_
  cases r with
  | error e => exact herr _ _ _
  | ok _ =>
    simp only
    refine wp_getItem hi (fun h₂ => ?_) fun h₂ e => herr _ _ _
    rw [hc]
    simp only
    refine wp_getItem hi (fun h₃ => ?_) fun h₃ e => herr _ _ _
    cases w.db .nodeAlias <;> exact hok _ _

/-- The database moves from one moment of the import to another. -/
structure Advanced (env : Envelope) (secret : String) (w w' : Page) : Prop where
  importing : Importing env secret w'
  rest : ∃ db, w' = { w with db }
  kept : ∀ e ∈ env.entries, w.db e.1 = some e.2 → w'.db e.1 = some e.2

theorem Advanced.refl (hi : Importing env secret w) : Advanced env secret w w :=
  ⟨hi, ⟨w.db, rfl⟩, fun _ _ h => h⟩

theorem Advanced.trans {u : Page} (h : Advanced env secret u w) (h' : Advanced env secret w w') :
    Advanced env secret u w' := by
  obtain ⟨db, rfl⟩ := h.rest
  obtain ⟨db', rfl⟩ := h'.rest
  exact ⟨h'.importing, ⟨db', rfl⟩, fun e he hs => h'.kept e he (h.kept e he hs)⟩

theorem wp_writeEntries {l : List (Key × Value)} {Post : PostCond Page Request Answer String Unit}
    (hi : Importing env secret w) (hopen : env.opens secret = true) (hl : ∀ e ∈ l, e ∈ env.entries)
    (hseed : ∀ e ∈ l, e.1 = .ldkSeed → ∀ e' ∈ env.entries, e'.1 ≠ .ldkSeed → w.db e'.1 = some e'.2)
    (hok : ∀ h' s' w', Advanced env secret w w' → (∀ e ∈ l, w'.db e.1 = some e.2) →
      Post h' (.ok ()) s' w')
    (herr : ∀ h' s' w' e, Advanced env secret w w' → Post h' (.error e) s' w') :
    wp (aloneContract exec (Importing env secret)) (writeEntries l) h Post s w := by
  induction l generalizing h s w with
  | nil => exact hok _ _ _ (.refl hi) (by simp)
  | cons e l ih =>
    obtain ⟨k, v⟩ := e
    have hmem : (k, v) ∈ env.entries := hl _ List.mem_cons_self
    simp only [writeEntries, Proc.bind_eq, wp_bind]
    refine wp_ask_alone hi fun c r w₂ he => ?_
    simp only [exec, Option.some.injEq] at he
    split at he
    · cases he
      have hadv : Advanced env secret w (w.store k (some v)) :=
        ⟨hi.store hopen hmem (hseed _ List.mem_cons_self), ⟨_, rfl⟩,
          fun e he hs => stored_of_store hmem hs he⟩
      refine ⟨hadv.importing, ih hadv.importing (fun e he => hl e (List.mem_cons_of_mem _ he)) ?_ ?_
        fun h' s' w' e h => herr h' s' w' e (hadv.trans h)⟩
      · exact fun e he hk e' he' hne =>
          hadv.kept e' he' (hseed e (List.mem_cons_of_mem _ he) hk e' he' hne)
      · intro h' s' w' hw' hstored
        refine hok h' s' w' (hadv.trans hw') fun e he => ?_
        rcases List.mem_cons.mp he with rfl | he
        · exact hw'.kept _ hmem (by simp)
        · exact hstored e he
    · cases he
      exact ⟨hi, herr _ _ _ _ (.refl hi)⟩

theorem wp_importState {i : Nat} {Post : PostCond Page Request Answer String Unit}
    (hi : Importing env secret w)
    (hok : ∀ h' s' w', Advanced env secret w w' → Imported env w'.db → Post h' (.ok ()) s' w')
    (herr : ∀ h' s' w' e, Advanced env secret w w' → Post h' (.error e) s' w') :
    wp (aloneContract exec (Importing env secret)) (importState i env secret) h Post s w := by
  have hrefl : Advanced env secret w w := .refl hi
  simp only [importState, Proc.bind_eq, wp_bind, wp_get]
  by_cases hrun : (w.instances i).isRunning = true
  · rw [if_pos hrun]
    exact herr _ _ _ _ hrefl
  rw [if_neg hrun, wp_bind]
  refine wp_turn hi fun h₁ r => ?_
  cases r with
  | error e => exact herr _ _ _ _ hrefl
  | ok _ =>
    by_cases hopen : env.opens secret = true
    · simp only [hopen, Bool.not_true, Bool.false_eq_true, if_false, wp_bind]
      refine wp_ask_alone hi fun c r w₂ he => ?_
      simp only [exec, Option.some.injEq] at he
      split at he
      · cases he
        -- there is no high-water mark to drop
        have hnone : w.db .monitorHighwater = none := hi.none_of_local rfl
        have hsame : w.store .monitorHighwater none = w := by
          simp [Page.store, ← hnone]
        rw [hsame]
        refine ⟨hi, wp_writeEntries hi hopen (by simp +contextual) ?_
          (fun h₂ s₂ w₂ h₂' hstored => ?_) fun h₂ s₂ w₂ e h => herr _ _ _ _ h⟩
        · intro e he hk
          simp [hk] at he
        · refine wp_writeEntries h₂'.importing hopen (by simp +contextual) ?_
            (fun h₃ s₃ w₃ h₃' hseed => ?_) fun h₃ s₃ w₃ e h => herr _ _ _ _ (h₂'.trans h)
          · exact fun _ _ _ e he hne => hstored e (by simp [he, hne])
          · refine hok _ _ _ (h₂'.trans h₃') fun e he => ?_
            by_cases hk : e.1 = .ldkSeed
            · exact hseed e (by simp [he, hk])
            · exact h₃'.kept e he (hstored e (by simp [he, hk]))
      · cases he
        exact ⟨hi, herr _ _ _ _ hrefl⟩
    · simp only [hopen, Bool.not_false, if_true, wp_bind, wp_fail]
      exact herr _ _ _ _ hrefl

theorem Importing.append (hi : Importing env secret w) :
    Importing env secret { w with wallets := w.wallets ++ [{}] } where
  opened := hi.opened
  entries := hi.entries
  seedLast := hi.seedLast
  assigned := hi.assigned
  unlocked := hi.unlocked
  idle := hi.idle
  stopped := fun hw i => by
    rw [Page.instances_append]
    exact hi.stopped hw i

theorem Importing.setRestoring (hi : Importing env secret w) (b : Bool) :
    Importing env secret { w with restoring := b } where
  opened := hi.opened
  entries := hi.entries
  seedLast := hi.seedLast
  assigned := hi.assigned
  unlocked := hi.unlocked
  idle := hi.idle
  stopped := hi.stopped

theorem wp_restoreImport {Post : PostCond Page Request Answer String Nat}
    (hi : Importing env secret w)
    (hm : w.db .channelManager = none)
    (hok : ∀ h' s' w' i, Importing env secret w' → Imported env w'.db → Post h' (.ok i) s' w')
    (herr : ∀ h' s' w' e, Importing env secret w' → Post h' (.error e) s' w') :
    wp (aloneContract exec (Importing env secret)) (restoreImport .pwa env secret) h Post s w := by
  simp only [restoreImport, Proc.bind_eq, Proc.pure_eq, wp_bind]
  refine wp_buildWallet hi (hi.none_of_local rfl) (fun h₁ s₁ => ?_) fun h₁ s₁ e => herr _ _ _ _ hi
  have hi₁ := hi.append
  refine wp_turn hi₁ fun h₂ r => ?_
  cases r with
  | error e => exact herr _ _ _ _ hi₁
  | ok _ =>
    by_cases hopen : env.opens secret = true
    · simp only [hopen, Bool.not_true, Bool.false_eq_true, if_false, wp_bind]
      refine wp_getItem hi₁ (fun h₃ => ?_) fun h₃ e => herr _ _ _ _ hi₁
      simp only [hm, Option.isSome_none, Bool.false_eq_true, if_false, wp_done, Bool.false_and,
        restoreBlockReason, wp_bind]
      refine wp_turn hi₁ fun h₄ r => ?_
      cases r with
      | error e => exact herr _ _ _ _ hi₁
      | ok _ =>
        simp only
        refine wp_buildWallet hi₁ (hi.none_of_local rfl) (fun h₅ s₅ => ?_)
          fun h₅ s₅ e => herr _ _ _ _ hi₁
        exact wp_importState hi₁.append
          (fun h₆ s₆ w₆ hadv himp => hok _ _ _ _ hadv.importing himp)
          fun h₆ s₆ w₆ e hadv => herr _ _ _ _ hadv.importing
    · simp only [hopen, Bool.not_false, if_true, wp_bind, wp_fail]
      exact herr _ _ _ _ hi₁

/-- The node starts over an imported database, and stores nothing. -/
structure Held (db : Db) (w : Page) : Prop where
  db : w.db = db
  assigned : w.wallet ≠ none
  idle : w.startingPromise = none

theorem Held.importing (hd : Importing env secret w) (hi : Imported env w.db)
    (h : Held w.db w') : Importing env secret w' where
  opened := fun k v hv => hd.opened k v (h.db ▸ hv)
  entries := fun k v hv => hd.entries k v (h.db ▸ hv)
  seedLast := fun _ => h.db ▸ hi
  assigned := fun _ => h.db ▸ hi
  unlocked := fun hw => absurd hw h.assigned
  idle := h.idle
  stopped := fun hw => absurd hw h.assigned

/-- Any end will do, over the imported database. -/
def HeldEnd (db : Db) (Post : PostCond Page Request Answer String α) : Prop :=
  ∀ h' r s' w', Held db w' → Post h' r s' w'

variable {u : Page}

theorem wp_ask_held {q : Request} {Post : PostCond Page Request Answer String (Answer q)}
    (hd : Importing env secret u) (hi : Imported env u.db) (hw : Held u.db w)
    (hq : q.writes = false)
    (hk : ∀ h' r w₂, Held u.db w₂ → (∃ c, exec q c w = some (r, w₂)) → Post h' r w₂ w₂) :
    wp (aloneContract exec (Importing env secret)) (ask q) h Post s w := by
  refine wp_ask_alone (hw.importing hd hi) fun c r w₂ he => ?_
  obtain ⟨hdb, hwallet, hidle, -⟩ := exec_reads hq he
  have hw₂ : Held u.db w₂ := ⟨hdb.trans hw.db, hwallet ▸ hw.assigned, hidle.trans hw.idle⟩
  exact ⟨hw₂.importing hd hi, hk _ _ _ hw₂ ⟨c, he⟩⟩

/-- One after the other, with any end. -/
theorem wp_andThen_held {p : Code α} {β : Type} {g : α → Code β}
    {Post : PostCond Page Request Answer String β} (hk : HeldEnd u.db Post)
    (hp : ∀ Post', HeldEnd u.db Post' →
      wp (aloneContract exec (Importing env secret)) p h Post' s w)
    (hg : ∀ a h' s' w', Held u.db w' →
      wp (aloneContract exec (Importing env secret)) (g a) h' Post s' w') :
    wp (aloneContract exec (Importing env secret)) (p.bind g) h Post s w := by
  rw [wp_bind]
  refine hp _ fun h' r s' w' hw => ?_
  cases r with
  | error e => exact hk _ _ _ _ hw
  | ok a => exact hg a _ _ _ hw

theorem wp_quietly_held {p : Code α} {Post : PostCond Page Request Answer String Unit}
    (hk : HeldEnd u.db Post)
    (hp : ∀ Post', HeldEnd u.db Post' →
      wp (aloneContract exec (Importing env secret)) p h Post' s w) :
    wp (aloneContract exec (Importing env secret)) (quietly p) h Post s w := by
  simp only [quietly, Proc.bind_eq, Proc.pure_eq, wp_bind, wp_attempt]
  exact hp _ fun h' r s' w' hw => hk _ _ _ _ hw

theorem wp_rescue_held {p : Code α} {g : String → Code α}
    {Post : PostCond Page Request Answer String α} (hk : HeldEnd u.db Post)
    (hp : ∀ Post', HeldEnd u.db Post' →
      wp (aloneContract exec (Importing env secret)) p h Post' s w)
    (hg : ∀ e h' s' w', Held u.db w' →
      wp (aloneContract exec (Importing env secret)) (g e) h' Post s' w') :
    wp (aloneContract exec (Importing env secret)) (p.rescue g) h Post s w := by
  rw [wp_rescue]
  refine hp _ fun h' r s' w' hw => ?_
  cases r with
  | ok a => exact hk _ _ _ _ hw
  | error e => exact hg e _ _ _ hw

theorem wp_turn_held {mayFail : Bool} {Post : PostCond Page Request Answer String Unit}
    (hd : Importing env secret u) (hi : Imported env u.db) (hw : Held u.db w)
    (hk : HeldEnd u.db Post) :
    wp (aloneContract exec (Importing env secret)) (ask (.turn mayFail)) h Post s w :=
  wp_ask_held hd hi hw rfl fun _ _ _ hw₂ _ => hk _ _ _ _ hw₂

theorem wp_loadState_held {i : Nat} {Post : PostCond Page Request Answer String Unit}
    (hd : Importing env secret u) (hi : Imported env u.db) (hw : Held u.db w)
    (hk : HeldEnd u.db Post) :
    wp (aloneContract exec (Importing env secret)) (loadState i random) h Post s w := by
  have hseed : u.db .ldkSeed = some (.seed env.seedHex) := hi _ ((env.seed _).mpr rfl)
  simp only [loadState, Proc.bind_eq]
  refine wp_andThen_held hk (fun _ hk' => wp_turn_held hd hi hw hk') fun _ h₁ s₁ w₁ hw₁ => ?_
  refine wp_andThen_held hk (fun _ hk' => wp_ask_held hd hi hw₁ rfl fun _ _ _ hw' _ =>
    hk' _ _ _ _ hw') fun _ h₂ s₂ w₂ hw₂ => ?_
  refine wp_andThen_held hk (fun _ hk' => wp_turn_held hd hi hw₂ hk') fun _ h₃ s₃ w₃ hw₃ => ?_
  refine wp_andThen_held hk (fun _ hk' => wp_ask_held hd hi hw₃ rfl fun _ _ _ hw' _ =>
    hk' _ _ _ _ hw') fun _ h₄ s₄ w₄ hw₄ => ?_
  rw [wp_bind]
  refine wp_ask_held hd hi hw₄ rfl fun h₅ r w₅ hw₅ he => ?_
  obtain ⟨c, he⟩ := he
  simp only [exec, Option.some.injEq] at he
  split at he
  · simp only [hw₄.db, hseed, Prod.mk.injEq] at he
    obtain ⟨rfl, -⟩ := he
    -- the seed is stored: none is drawn
    simp only [Proc.bind]
    refine wp_andThen_held hk (fun _ hk' => wp_turn_held hd hi hw₅ hk') fun _ h₆ s₆ w₆ hw₆ => ?_
    refine wp_andThen_held hk (fun _ hk' => wp_ask_held hd hi hw₆ rfl fun _ _ _ hw' _ =>
      hk' _ _ _ _ hw') fun _ h₇ s₇ w₇ hw₇ => ?_
    simp only [wp_bind, wp_get]
    split
    · exact hk _ _ _ _ hw₇
    · exact wp_turn_held hd hi hw₇ hk
  · cases he
    exact hk _ _ _ _ hw₅

theorem wp_start_held {i : Nat} {Post : PostCond Page Request Answer String Unit}
    (hd : Importing env secret u) (hi : Imported env u.db) (hw : Held u.db w)
    (hk : HeldEnd u.db Post) :
    wp (aloneContract exec (Importing env secret)) (start i random) h Post s w := by
  have locked : ∀ {h' s' w'}, Held u.db w' → wp (aloneContract exec (Importing env secret))
      ((startLocked i random).rescue fun e =>
        (quietly (ask (.turn true))).bind fun _ =>
          (Proc.modify (tornDown i)).bind fun _ => .fail e) h' Post s' w' := by
    intro h' s' w' hw'
    refine wp_rescue_held hk (fun Post' hk₁ => ?_) fun e h₁ s₁ w₁ hw₁ => ?_
    · simp only [startLocked, Proc.bind_eq]
      refine wp_andThen_held hk₁ (fun _ hk' => wp_loadState_held hd hi hw' hk')
        fun _ h₁ s₁ w₁ hw₁ => ?_
      rw [wp_bind, wp_modify]
      refine wp_andThen_held hk₁ (fun _ hk' => wp_turn_held hd hi
        ⟨hw₁.db, hw₁.assigned, hw₁.idle⟩ hk') fun _ h₂ s₂ w₂ hw₂ => ?_
      rw [wp_bind, wp_modify]
      exact wp_turn_held hd hi ⟨hw₂.db, hw₂.assigned, hw₂.idle⟩ hk₁
    · refine wp_andThen_held hk (fun _ hk' => wp_quietly_held hk' fun _ hk'' =>
        wp_turn_held hd hi hw₁ hk'') fun _ h₂ s₂ w₂ hw₂ => ?_
      exact hk _ _ _ _ ⟨hw₂.db, hw₂.assigned, hw₂.idle⟩
  simp only [start, Proc.bind_eq, Proc.pure_eq, wp_bind, wp_get]
  split
  · exact hk _ _ _ _ hw
  · split
    · rw [wp_bind]
      refine wp_ask_held hd hi hw rfl fun h₁ r w₁ hw₁ _ => ?_
      cases r with
      | error e => exact hk _ _ _ _ hw₁
      | ok release =>
        cases release with
        | true => exact locked hw₁
        | false => exact hk _ _ _ _ hw₁
    · exact locked hw

theorem wp_restoreBody {Post : PostCond Page Request Answer String Nat}
    (hi : Importing env secret w)
    (hm : w.db .channelManager = none)
    (hk : ∀ h' r s' w', Importing env secret w' → Post h' r s' w') :
    wp (aloneContract exec (Importing env secret)) (restoreBody .pwa env secret random) h
      Post s w := by
  simp only [restoreBody, Proc.bind_eq, if_true]
  rw [wp_bind]
  refine wp_restoreImport hi hm (fun h₁ s₁ w₁ i hd himp => ?_)
    fun h₁ s₁ w₁ e hd => hk _ _ _ _ hd
  simp only [wp_bind (p := .modify _), wp_modify]
  have hk' : HeldEnd w₁.db Post := fun h' r s' w' hw => hk _ _ _ _ (hw.importing hd himp)
  have hw₁ : Held w₁.db { w₁ with wallet := some i, mirror := 0 } := ⟨rfl, by simp, hd.idle⟩
  refine wp_andThen_held hk' (fun _ hk₁ => wp_start_held hd himp hw₁ hk₁) fun _ h₂ s₂ w₂ hw₂ => ?_
  refine wp_andThen_held hk' (fun _ hk₁ => ?_) fun _ h₃ s₃ w₃ hw₃ => ?_
  · refine wp_quietly_held hk₁ fun _ hk₂ => ?_
    exact wp_andThen_held hk₂ (fun _ hk₃ => wp_turn_held hd himp hw₂ hk₃)
      fun _ h₃ s₃ w₃ hw₃ => wp_ask_held hd himp hw₃ rfl fun _ _ _ hw' _ => hk₂ _ _ _ _ hw'
  refine wp_andThen_held hk' (fun _ hk₁ => wp_quietly_held hk₁ fun _ hk₂ =>
    wp_turn_held hd himp hw₃ hk₂) fun _ h₄ s₄ w₄ hw₄ => ?_
  simp only [currentNode, Proc.bind_eq, wp_bind, wp_get]
  split
  · split <;> exact hk' _ _ _ _ hw₄
  · exact hk' _ _ _ _ hw₄

/-- The whole restore, into an empty database. -/
theorem wp_restoreWallet {Post : PostCond Page Request Answer String Nat}
    (hi : Importing env secret w)
    (hm : w.db .channelManager = none) (hw : w.wallet = none) (hr : w.restoring = false)
    (hk : ∀ h' r s' w', Importing env secret w' → w'.restoring = false → Post h' r s' w') :
    wp (aloneContract exec (Importing env secret)) (restoreWallet .pwa env secret random) h
      Post s w := by
  have hblock : restoreBlockReason w.wallet.isSome w.restoring false = none := by
    rw [hw, hr]
    rfl
  simp only [restoreWallet, finally_, Proc.bind_eq, wp_bind, wp_get, hblock, wp_modify, wp_attempt]
  refine wp_restoreBody (hi.setRestoring true) hm
    fun h₁ r s₁ w₁ hi₁ => ?_
  simp only [wp_ofExcept]
  exact hk _ _ _ _ (hi₁.setRestoring false) rfl

/-! ## Starts in between -/

/-- Nothing to start: no seed, not created here, and no node. -/
structure Seedless (w : Page) : Prop where
  seed : w.db .ldkSeed = none
  createdNew : w.db .walletCreatedNew = none
  wallet : w.wallet = none
  stopped : ∀ i, (w.instances i).isRunning = false

theorem wp_doStartNode_seedless {hasFetcher : Bool}
    {Post : PostCond Page Request Answer String Nat} (hw : Seedless w)
    (hk : ∀ h' s' e, Post h' (.error e) s' w) :
    wp (aloneContract exec Seedless) (doStartNode .pwa hasFetcher random) h Post s w := by
  simp only [doStartNode, Proc.bind_eq, Proc.pure_eq, wp_bind]
  refine wp_turn hw fun h₁ r => ?_
  cases r with
  | error e => exact hk _ _ _
  | ok _ =>
    refine wp_getItem hw (fun h₂ => ?_) fun _ _ => hk _ _ _
    simp only
    refine wp_getItem hw (fun h₃ => ?_) fun _ _ => hk _ _ _
    simp only
    refine wp_getItem hw (fun h₄ => ?_) fun _ _ => hk _ _ _
    simp only [hw.seed, hw.createdNew, Option.isNone_none, Bool.and_self, if_true, wp_bind, wp_fail]
    exact hk _ _ _

theorem wp_startNode_seedless {hasFetcher : Bool}
    {Post : PostCond Page Request Answer String Nat} (hw : Seedless w)
    (hk : ∀ h' r s' w', Seedless w' → Post h' r s' w') :
    wp (aloneContract exec Seedless) (startNode .pwa hasFetcher random) h Post s w := by
  simp only [startNode, Proc.bind_eq, wp_bind, wp_get]
  cases w.startingPromise with
  | some p =>
    refine wp_ask_alone hw fun c r w₂ he => ?_
    simp only [exec, Option.map_eq_some_iff] at he
    obtain ⟨_, -, he⟩ := he
    cases he
    exact ⟨hw, hk _ _ _ _ hw⟩
  | none =>
    have hrun : w.isRunning = false := by simp [Page.isRunning, hw.wallet]
    simp only [hrun, Bool.false_eq_true, if_false, wp_bind, wp_modify, wp_attempt]
    refine wp_doStartNode_seedless ⟨hw.seed, hw.createdNew, hw.wallet, hw.stopped⟩
      fun h₁ s₁ e => ?_
    exact hk _ _ _ _ ⟨hw.seed, hw.createdNew, hw.wallet, hw.stopped⟩

theorem wp_autoStart_seedless {flag hasFetcher unreachable : Bool}
    {Post : PostCond Page Request Answer String Unit} (hw : Seedless w)
    (hk : ∀ h' r s' w', Seedless w' → Post h' r s' w') :
    wp (aloneContract exec Seedless) (autoStart .pwa flag hasFetcher unreachable random) h Post s w
    := by
  simp only [autoStart, quietly, Proc.bind_eq, Proc.pure_eq, wp_bind, wp_attempt]
  refine wp_turn hw fun h₁ r => ?_
  cases r with
  | error e => exact hk _ _ _ _ hw
  | ok _ =>
    refine wp_getItem hw (fun h₂ => ?_) fun _ _ => hk _ _ _ _ hw
    simp only
    refine wp_getItem hw (fun h₃ => ?_) fun _ _ => hk _ _ _ _ hw
    simp only
    refine wp_getItem hw (fun h₄ => ?_) fun _ _ => hk _ _ _ _ hw
    simp only [hw.seed, Option.isSome_none, Bool.and_false, Bool.false_and, Bool.false_eq_true,
      if_false, wp_done]
    exact hk _ _ _ _ hw

end Rules

/-- A database without a seed is not started. -/
theorem neverStarted_of_importing (hi : Importing env secret w) : NeverStarted env w := by
  intro hnot hasFetcher random verb p w' hverb run i
  have hw : Seedless w := by
    refine ⟨by_contra fun h => hnot (hi.seedLast h), hi.none_of_local rfl, ?_, ?_⟩
    · exact by_contra fun h => hnot (hi.assigned h)
    · exact hi.stopped (by_contra fun h => hnot (hi.assigned h))
  have hwp : wp (aloneContract exec Seedless) (code .pwa hasFetcher random verb) []
      (fun _ _ _ w => Seedless w) w w := by
    rcases hverb with rfl | ⟨flag, unreachable, rfl⟩
    · simp only [code, Proc.bind_eq, Proc.pure_eq, wp_bind]
      refine wp_startNode_seedless hw fun h' r s' w' hw' => ?_
      cases r <;> exact hw'
    · exact wp_autoStart_seedless hw fun _ _ _ _ hw' => hw'
  rcases run.sound hwp with ⟨_, _, -, h⟩ | ⟨_, _, _, -, h⟩ | ⟨_, _, _, -, h⟩ <;> exact h.stopped i

theorem importing_emptyPage (mirror : Nat) : Importing env secret (emptyPage mirror) := by
  refine ⟨?_, ?_, ?_, ?_, ?_, rfl, ?_⟩ <;> simp [emptyPage, Page.instances]

/-- What an interruption leaves. -/
theorem Interrupted.importing {mirror : Nat} (h : Interrupted env secret random mirror w) :
    Importing env secret w ∧ w.restoring = false := by
  have hempty : Importing env secret (emptyPage mirror) := importing_emptyPage mirror
  have hrun : ∀ {p w'}, Alone exec (restoreWallet .pwa env secret random) (emptyPage mirror) p w' →
      Importing env secret w' ∧ (∀ msg, p = .fail msg → w'.restoring = false) := by
    intro p w' run
    have hwp : wp (aloneContract exec (Importing env secret))
        (restoreWallet .pwa env secret random) []
        (fun _ _ _ w => Importing env secret w ∧ w.restoring = false) (emptyPage mirror)
        (emptyPage mirror) :=
      wp_restoreWallet hempty rfl rfl rfl fun _ _ _ _ hi hr => ⟨hi, hr⟩
    rcases run.sound hwp with ⟨q, k, rfl, hi⟩ | ⟨a, _, _, rfl, hi, hr⟩ | ⟨e, _, _, rfl, hi, hr⟩
    · exact ⟨hi, fun _ h => by cases h⟩
    · exact ⟨hi, fun _ h => by cases h⟩
    · exact ⟨hi, fun _ _ => hr⟩
  cases h with
  | failed run => exact ⟨(hrun run).1, (hrun run).2 _ rfl⟩
  | crashed run =>
    obtain ⟨hi, -⟩ := hrun run
    refine ⟨⟨hi.opened, hi.entries, hi.seedLast, ?_, ?_, rfl, ?_⟩, rfl⟩ <;>
      simp [reloaded, Page.instances]

/-! ## The restore that is called again -/

theorem eval_turn {mayFail : Bool} : (ask (.turn mayFail)).eval fair w = some (.ok (), w) := by
  cases mayFail <;> rfl

theorem eval_getItem (k : Key) : (ask (.getItem k)).eval fair w = some (.ok (w.db k), w) := rfl

theorem eval_quietly {α : Type} {p : Code α} {r : Except String α}
    (h : p.eval fair w = some (r, w')) : (quietly p).eval fair w = some (.ok (), w') :=
  Proc.eval_bind_ok (Proc.eval_attempt h)

theorem eval_buildWallet (hc : w.db .ldkConfig = none) :
    (buildWallet .pwa).eval fair w =
      some (.ok w.wallets.length, { w with wallets := w.wallets ++ [{}] }) := by
  have hconfig : (getConfig .pwa).eval fair w = some (.ok (), w) := by
    refine (Proc.eval_bind_ok eval_turn).trans ((Proc.eval_bind_ok (eval_getItem _)).trans ?_)
    rw [hc]
    refine (Proc.eval_bind_ok (eval_getItem _)).trans ?_
    cases w.db .nodeAlias <;> rfl
  exact Proc.eval_bind_ok hconfig

/-- The database after entries were written one by one. -/
def applyEntries (l : List (Key × Value)) (db : Db) : Db :=
  l.foldl (fun db e => Function.update db e.1 (some e.2)) db

theorem applyEntries_of_not_mem {l : List (Key × Value)} {db : Db} {k : Key}
    (h : ∀ e ∈ l, e.1 ≠ k) : applyEntries l db k = db k := by
  induction l generalizing db with
  | nil => rfl
  | cons e l ih =>
    rw [applyEntries, List.foldl_cons]
    exact (ih fun x hx => h x (List.mem_cons_of_mem _ hx)).trans
      (Function.update_of_ne (h e List.mem_cons_self).symm _ _)

theorem applyEntries_of_mem {l : List (Key × Value)} {db : Db} {e : Key × Value}
    (hn : ∀ x ∈ l, x.1 = e.1 → x = e) (h : e ∈ l) : applyEntries l db e.1 = some e.2 := by
  induction l generalizing db with
  | nil => cases h
  | cons x l ih =>
    rw [applyEntries, List.foldl_cons]
    by_cases hl : e ∈ l
    · exact ih (fun y hy => hn y (List.mem_cons_of_mem _ hy)) hl
    · have hx : x = e := ((List.mem_cons.mp h).resolve_right hl).symm
      subst hx
      refine (applyEntries_of_not_mem fun y hy hk => hl ?_).trans (Function.update_self _ _ _)
      exact hn y (List.mem_cons_of_mem _ hy) hk ▸ hy

theorem eval_writeEntries (l : List (Key × Value)) :
    (writeEntries l).eval fair w = some (.ok (), { w with db := applyEntries l w.db }) := by
  induction l generalizing w with
  | nil => rfl
  | cons e l ih => exact (Proc.eval_bind_ok (Proc.eval_request rfl)).trans ih

/-- The database after an import. -/
def importDb (env : Envelope) (db : Db) : Db :=
  applyEntries (env.entries.filter fun e => decide (e.1 = .ldkSeed))
    (applyEntries (env.entries.filter fun e => decide (e.1 ≠ .ldkSeed))
      (Function.update db .monitorHighwater none))

theorem eval_importState {i : Nat} (hrun : (w.instances i).isRunning = false)
    (hopen : env.opens secret = true) :
    (importState i env secret).eval fair w = some (.ok (), { w with db := importDb env w.db }) := by
  simp only [importState, Proc.bind_eq]
  rw [Proc.eval_bind_ok Proc.eval_get]
  simp only [hrun, Bool.false_eq_true, if_false]
  rw [Proc.eval_bind_ok eval_turn]
  simp only [hopen, Bool.not_true, Bool.false_eq_true, if_false]
  refine (Proc.eval_bind_ok (Proc.eval_request rfl)).trans ?_
  exact (Proc.eval_bind_ok (eval_writeEntries _)).trans (eval_writeEntries _)

/-- An import over what an earlier one has left, or over nothing, makes the same database. -/
theorem importDb_eq (hi : Importing env secret w) : importDb env w.db = env.entry := by
  funext k
  have huniq : ∀ {x e : Key × Value}, x ∈ env.entries → e ∈ env.entries → x.1 = e.1 → x = e := by
    intro x e hx he hk
    exact List.inj_on_of_nodup_map env.nodup hx he hk
  cases hv : env.entry k with
  | some v =>
    have hmem := Envelope.entry_eq_some.mp hv
    by_cases hk : k = .ldkSeed
    · exact applyEntries_of_mem (e := (k, v))
        (fun x hx => huniq (List.mem_of_mem_filter hx) hmem)
        (List.mem_filter.mpr ⟨hmem, by simp [hk]⟩)
    · refine (applyEntries_of_not_mem fun e he hek => ?_).trans
        (applyEntries_of_mem (e := (k, v)) (fun x hx => huniq (List.mem_of_mem_filter hx) hmem)
          (by simp [hmem, hk]))
      simp [hek, hk] at he
  | none =>
    have hnot : ∀ e ∈ env.entries, e.1 ≠ k := by
      rintro ⟨k', v⟩ he rfl
      have := Envelope.entry_eq_some.mpr he
      rw [hv] at this
      cases this
    have hdb : w.db k = none := by
      cases hw : w.db k with
      | none => rfl
      | some v => exact absurd rfl (hnot _ (hi.entries k v hw))
    refine (applyEntries_of_not_mem fun e he => hnot e (List.mem_of_mem_filter he)).trans
      ((applyEntries_of_not_mem fun e he => hnot e (List.mem_of_mem_filter he)).trans ?_)
    rw [Function.update_apply]
    split
    · rfl
    · exact hdb

/-- A start over a database whose manager belongs to its seed. -/
theorem eval_start (random : Seed) {i : Nat} {seed : Seed} (hi : i < w.wallets.length)
    (hidle : w.instances i = {}) (hlock : w.runLock = none)
    (hseed : w.db .ldkSeed = some (.seed seed))
    (hm : ∀ v, w.db .channelManager = some v → ∃ bytes, v = .manager seed bytes) :
    ∃ w', (start i random).eval fair w = some (.ok (), w') ∧ w'.db = w.db ∧ w'.wallet = w.wallet ∧
      (w'.instances i).isRunning = true := by
  -- the lock is taken, and the seed loaded
  obtain ⟨w₁, hw₁⟩ : ∃ w₁ : Page, w₁ =
      { w.setWallet i fun x => { x with releaseRunLock := true } with
      runLock := some i } := ⟨_, rfl⟩
  obtain ⟨w₂, hw₂⟩ : ∃ w₂ : Page, w₂ = w₁.setWallet i fun x => { x with seed := some seed } :=
    ⟨_, rfl⟩
  have hlen₁ : i < w₁.wallets.length := by
    rw [hw₁]
    simpa [Page.setWallet] using hi
  have hdb₂ : w₂.db = w.db := by rw [hw₂, hw₁]; rfl
  have hseed₂ : (w₂.instances i).seed = some seed := by
    rw [hw₂, Page.instances_setWallet _ _ _ _ hlen₁, if_pos rfl]
  have hacquire : (ask (.acquireRunLock i)).eval fair w = some (.ok true, w₁) := by
    refine Proc.eval_request ?_
    simp [fair, exec, hlock, hw₁]
  have hload : (ask (.loadSeed i)).eval fair w₁ = some (.ok (some (.seed seed)), w₂) := by
    refine Proc.eval_request ?_
    have hdb₁ : w₁.db .ldkSeed = some (.seed seed) := by rw [hw₁]; exact hseed
    simp [fair, exec, hdb₁, hw₂, parseSeed]
  have hstate : (loadState i random).eval fair w₁ = some (.ok (), w₂) := by
    simp only [loadState, Proc.bind_eq]
    rw [Proc.eval_bind_ok eval_turn, Proc.eval_bind_ok (eval_getItem _), Proc.eval_bind_ok eval_turn,
      Proc.eval_bind_ok (eval_getItem _), Proc.eval_bind_ok hload]
    simp only [Proc.bind]
    rw [Proc.eval_bind_ok eval_turn, Proc.eval_bind_ok (eval_getItem _),
      Proc.eval_bind_ok Proc.eval_get]
    have hkeys : keyMismatched (w₂.instances i) (w₂.db .channelManager) = false := by
      rw [hdb₂]
      cases hv : w.db .channelManager with
      | none => rfl
      | some v =>
        obtain ⟨bytes, rfl⟩ := hm v hv
        simp [keyMismatched, hseed₂]
    simp only [hkeys, Bool.false_eq_true, if_false]
    exact eval_turn
  have hstart : (w.instances i).isRunning = false ∧ (w.instances i).releaseRunLock = false := by
    rw [hidle]
    exact ⟨rfl, rfl⟩
  obtain ⟨w₃, hw₃⟩ : ∃ w₃ : Page, w₃ = (w₂.setWallet i fun x => { x with managed := true }).setWallet i
      fun x => { x with isRunning := true } := ⟨_, rfl⟩
  refine ⟨w₃, ?_, ?_, ?_, ?_⟩
  · simp only [start, Proc.bind_eq]
    rw [Proc.eval_bind_ok Proc.eval_get]
    simp only [hstart.1, hstart.2, Bool.false_eq_true, Bool.not_false, if_true, if_false]
    rw [Proc.eval_bind_ok hacquire]
    simp only [Bool.not_true, Bool.false_eq_true, if_false]
    refine Proc.eval_rescue_ok ?_
    simp only [startLocked, Proc.bind_eq]
    rw [Proc.eval_bind_ok hstate, Proc.eval_bind_ok (Proc.eval_modify _), Proc.eval_bind_ok eval_turn,
      Proc.eval_bind_ok (Proc.eval_modify _), hw₃]
    exact eval_turn
  · rw [hw₃]
    exact hdb₂
  · rw [hw₃, hw₂, hw₁]
    rfl
  · have hlen₂ : i < (w₂.setWallet i fun x => { x with managed := true }).wallets.length := by
      rw [hw₂]
      simpa [Page.setWallet] using hlen₁
    rw [hw₃, Page.instances_setWallet _ _ _ _ hlen₂, if_pos rfl]

/-- A restore that nothing blocks. -/
theorem eval_restoreWallet (random : Seed) (hi : Importing env secret w) (hwallet : w.wallet = none)
    (hr : w.restoring = false) (hm : w.db .channelManager = none) (hopen : env.opens secret = true) :
    ∃ i w', (restoreWallet .pwa env secret random).eval fair w = some (.ok i, w') ∧
      w'.db = env.entry := by
  have hblock : restoreBlockReason w.wallet.isSome w.restoring false = none := by
    rw [hwallet, hr]
    rfl
  obtain ⟨i, hidef⟩ : ∃ i, i = w.wallets.length + 1 := ⟨_, rfl⟩
  -- the page when the node starts
  obtain ⟨u, hu⟩ : ∃ u : Page, u = { w with
      restoring := true, wallets := (w.wallets ++ [{}]) ++ [{}], db := env.entry, wallet := some i
      mirror := 0 } := ⟨_, rfl⟩
  have himport : (restoreImport .pwa env secret).eval fair { w with restoring := true } =
      some (.ok i, { w with
        restoring := true, wallets := (w.wallets ++ [{}]) ++ [{}], db := env.entry }) := by
    have hconfig : w.db .ldkConfig = none := hi.none_of_local rfl
    simp only [restoreImport, Proc.bind_eq]
    refine (Proc.eval_bind_ok (eval_buildWallet ?_)).trans ?_
    · exact hconfig
    refine (Proc.eval_bind_ok eval_turn).trans ?_
    simp only [hopen, Bool.not_true, Bool.false_eq_true, if_false]
    refine (Proc.eval_bind_ok (eval_getItem _)).trans ?_
    simp only [hm, Option.isSome_none, Bool.false_eq_true, if_false, Proc.pure_eq, Proc.bind,
      Bool.false_and, restoreBlockReason]
    refine (Proc.eval_bind_ok eval_turn).trans ?_
    refine (Proc.eval_bind_ok (eval_buildWallet ?_)).trans ?_
    · exact hconfig
    refine (Proc.eval_bind_ok (eval_importState ?_ hopen)).trans ?_
    · exact (hi.setRestoring true).append.append.stopped hwallet _
    · simp [hidef, importDb_eq hi]
  have hinst : u.instances i = {} := by
    rw [hu]
    simp [Page.instances, hidef]
  have hlen : i < u.wallets.length := by
    rw [hu]
    simp [hidef]
  have hdb : u.db = env.entry := by rw [hu]
  have hseed : u.db .ldkSeed = some (.seed env.seedHex) := by
    rw [hdb]
    exact Envelope.entry_eq_some.mpr ((env.seed _).mpr rfl)
  obtain ⟨w₁, hstart, hdb₁, hwallet₁, hrun₁⟩ := eval_start random hlen hinst
    (by rw [hu]; exact hi.unlocked hwallet) hseed
    (fun v hv => env.manager v (Envelope.entry_eq_some.mp (hdb ▸ hv)))
  have hsweep : applySweepAddress.eval fair w₁ = some (.ok (), w₁) := by
    refine eval_quietly (r := .ok (w₁.db .sweepAddress)) ?_
    exact (Proc.eval_bind_ok eval_turn).trans (eval_getItem _)
  have hnode : currentNode.eval fair w₁ = some (.ok i, w₁) := by
    simp only [currentNode, Proc.bind_eq]
    rw [Proc.eval_bind_ok Proc.eval_get]
    have hw : w₁.wallet = some i := by rw [hwallet₁, hu]
    simp [hw, hrun₁]
  have hbody : (restoreBody .pwa env secret random).eval fair { w with restoring := true } =
      some (.ok i, w₁) := by
    simp only [restoreBody, Proc.bind_eq, if_true]
    rw [Proc.eval_bind_ok himport, Proc.eval_bind_ok (Proc.eval_modify _)]
    rw [hu] at hstart
    rw [Proc.eval_bind_ok hstart, Proc.eval_bind_ok hsweep,
      Proc.eval_bind_ok (eval_quietly eval_turn), hnode]
  refine ⟨i, { w₁ with restoring := false }, ?_, hdb₁.trans hdb⟩
  simp only [restoreWallet, finally_, Proc.bind_eq]
  rw [Proc.eval_bind_ok Proc.eval_get, hblock]
  simp only
  rw [Proc.eval_bind_ok (Proc.eval_modify _), Proc.eval_bind_ok (Proc.eval_attempt hbody),
    Proc.eval_bind_ok (Proc.eval_modify _)]
  rfl

theorem eval_restoreWallet_running (random : Seed) (hw : w.wallet ≠ none) :
    (restoreWallet .pwa env secret random).eval fair w = some (.error RESTORE_RUNNING_MSG, w) := by
  obtain ⟨i, hi⟩ := Option.ne_none_iff_exists'.mp hw
  simp only [restoreWallet, Proc.bind_eq]
  rw [Proc.eval_bind_ok Proc.eval_get]
  simp [hi, restoreBlockReason]

/-- A restore that its guard refuses, or its secret does not open, once the guard at the
entry has passed. -/
theorem eval_restoreWallet_error {random : Seed} {msg : String} (w₁ : Page)
    (hwallet : w.wallet = none)
    (hr : w.restoring = false)
    (h : (restoreImport .pwa env secret).eval fair { w with restoring := true } =
      some (.error msg, w₁)) :
    (restoreWallet .pwa env secret random).eval fair w =
      some (.error msg, { w₁ with restoring := false }) := by
  have hblock : restoreBlockReason w.wallet.isSome w.restoring false = none := by
    rw [hwallet, hr]
    rfl
  have hbody : (restoreBody .pwa env secret random).eval fair { w with restoring := true } =
      some (.error msg, w₁) := Proc.eval_bind_error h
  simp only [restoreWallet, finally_, Proc.bind_eq]
  rw [Proc.eval_bind_ok Proc.eval_get, hblock]
  simp only
  rw [Proc.eval_bind_ok (Proc.eval_modify _), Proc.eval_bind_ok (Proc.eval_attempt hbody),
    Proc.eval_bind_ok (Proc.eval_modify _)]
  rfl

theorem eval_restoreWallet_undecrypted (random : Seed) (hi : Importing env secret w)
    (hwallet : w.wallet = none)
    (hr : w.restoring = false) (hopen : env.opens secret = false) :
    ∃ w', (restoreWallet .pwa env secret random).eval fair w = some (.error NOT_DECRYPTED_MSG, w') ∧
      w'.db = w.db := by
  have hconfig : w.db .ldkConfig = none := hi.none_of_local rfl
  refine ⟨_, eval_restoreWallet_error { w with restoring := true, wallets := w.wallets ++ [{}] }
    hwallet hr ?_, rfl⟩
  simp only [restoreImport, Proc.bind_eq]
  refine (Proc.eval_bind_ok (eval_buildWallet ?_)).trans ?_
  · exact hconfig
  refine (Proc.eval_bind_ok eval_turn).trans ?_
  simp only [hopen, Bool.not_false, if_true]
  rfl

/-- What an interrupted import stored is dated by its own seed, or by none: it counts as
another wallet's. -/
theorem eval_mayOverwrite (hi : Importing env secret w) :
    (mayOverwrite .pwa env).eval fair w = some (.ok false, w) := by
  simp only [mayOverwrite, Proc.bind_eq, Proc.pure_eq]
  rw [Proc.eval_bind_ok (eval_getItem _)]
  cases hs : w.db .ldkSeed with
  | none =>
    simp only [parseSeed]
    rw [Proc.eval_bind_ok (eval_getItem _)]
    simp [mayOverwriteStaleLocal]
  | some v =>
    obtain rfl : v = .seed env.seedHex := (env.seed v).mp (hi.entries _ _ hs)
    have hdb : w.db .stateVersion = env.entry .stateVersion :=
      hi.db_eq (hi.seedLast (by rw [hs]; simp)) _
    simp only [parseSeed]
    rw [Proc.eval_bind_ok eval_turn, Proc.eval_bind_ok (eval_getItem _)]
    simp [mayOverwriteStaleLocal, hdb, Envelope.stateVersion, Controller.backupAheadOfLocal,
      Envelope.opens]

theorem eval_restoreWallet_funded (random : Seed) (hi : Importing env secret w)
    (hwallet : w.wallet = none)
    (hr : w.restoring = false) (hm : w.db .channelManager ≠ none) :
    ∃ w', (restoreWallet .pwa env secret random).eval fair w =
      some (.error RESTORE_FUNDED_MSG, w') := by
  obtain ⟨v, hv⟩ := Option.ne_none_iff_exists'.mp hm
  have hconfig : w.db .ldkConfig = none := hi.none_of_local rfl
  refine ⟨_, eval_restoreWallet_error { w with restoring := true, wallets := w.wallets ++ [{}] }
    hwallet hr ?_⟩
  simp only [restoreImport, Proc.bind_eq]
  refine (Proc.eval_bind_ok (eval_buildWallet ?_)).trans ?_
  · exact hconfig
  refine (Proc.eval_bind_ok eval_turn).trans ?_
  simp only [hi.opened _ _ hv, Bool.not_true, Bool.false_eq_true, if_false]
  refine (Proc.eval_bind_ok (eval_getItem _)).trans ?_
  simp only [hv, Option.isSome_some, if_true]
  refine (Proc.eval_bind_ok (eval_mayOverwrite (hi.setRestoring true).append)).trans ?_
  rfl

/-! ## Main results -/

/-- After every interruption: a repeated restore ends as an uninterrupted one, and nothing
incomplete is started before it, exactly where no wallet is assigned on the page and no
channel manager has been stored. -/
theorem restartable_iff {mirror : Nat} (h : Interrupted env secret random mirror w) :
    Restartable env secret mirror w ∧ NeverStarted env w ↔
      w.wallet = none ∧ w.db .channelManager = none := by
  obtain ⟨hi, hr⟩ := h.importing
  have hempty : Importing env secret (emptyPage mirror) := importing_emptyPage mirror
  constructor
  · rintro ⟨hrestart, -⟩
    obtain ⟨r₁, w₁, r₂, w₂, -, he, hrefused, -⟩ := hrestart random random
    refine ⟨by_contra fun hw => ?_, by_contra fun hm => ?_⟩
    · rw [eval_restoreWallet_running random hw] at he
      cases he
      exact hrefused _ (by simp [refusals]) rfl
    · by_cases hw : w.wallet = none
      · obtain ⟨w', hf⟩ := eval_restoreWallet_funded random hi hw hr hm
        rw [hf] at he
        cases he
        exact hrefused _ (by simp [refusals]) rfl
      · rw [eval_restoreWallet_running random hw] at he
        cases he
        exact hrefused _ (by simp [refusals]) rfl
  · rintro ⟨hw, hm⟩
    refine ⟨fun r r' => ?_, neverStarted_of_importing hi⟩
    cases hopen : env.opens secret with
    | true =>
      obtain ⟨i₁, w₁, h₁, hdb₁⟩ := eval_restoreWallet r hempty rfl rfl rfl hopen
      obtain ⟨i₂, w₂, h₂, hdb₂⟩ := eval_restoreWallet r' hi hw hr hm hopen
      refine ⟨_, _, _, _, h₁, h₂, fun msg _ h => ?_, rfl, hdb₂.trans hdb₁.symm⟩
      cases h
    | false =>
      -- nothing was stored, and nothing will be
      have hdb : w.db = (emptyPage mirror).db := by
        funext k
        cases hv : w.db k with
        | none => rfl
        | some v =>
          have := hi.opened k v hv
          rw [hopen] at this
          cases this
      obtain ⟨w₁, h₁, hdb₁⟩ := eval_restoreWallet_undecrypted r hempty rfl rfl hopen
      obtain ⟨w₂, h₂, hdb₂⟩ := eval_restoreWallet_undecrypted r' hi hw hr hopen
      refine ⟨_, _, _, _, h₁, h₂, fun msg hmsg h => ?_, rfl, hdb₂.trans (hdb.trans hdb₁.symm)⟩
      cases h
      exact absurd hmsg (by decide)

/-- A backup of a funded wallet. -/
def fundedBackup : Envelope where
  seedHex := "5eed"
  passphrase := none
  entries := [(.channelManager, .manager "5eed" "channels"), (.stateVersion, .version 7),
    (.ldkSeed, .seed "5eed")]
  nodup := by decide
  carried := by decide
  seed := by simp
  manager := by simp

theorem restartable_iff_crashed_at_once :
    (Restartable fundedBackup "5eed" 0 (reloaded (emptyPage 0)) ∧
      NeverStarted fundedBackup (reloaded (emptyPage 0))) ∧
      (reloaded (emptyPage 0)).db .channelManager = none :=
    have crashed : Interrupted fundedBackup "5eed" "" 0
      (reloaded ((restoreWallet .pwa fundedBackup "5eed" "").advance (emptyPage 0)).1) :=
    .crashed .start
  ⟨(restartable_iff crashed).mpr ⟨rfl, rfl⟩, rfl⟩

/-- The restore up to the moment when its channel manager is stored. -/
def managerStored : Option (Code Nat × Page) :=
  walk exec (List.replicate 12 {})
    (((restoreWallet .pwa fundedBackup "5eed" "").advance (emptyPage 0)).2,
      ((restoreWallet .pwa fundedBackup "5eed" "").advance (emptyPage 0)).1)

/-- The page dies there.  Every later restore of the same backup is refused: a wallet
exists already. -/
theorem refused_after_crash : ∃ w, Interrupted fundedBackup "5eed" "" 0 w ∧
    ¬ Restartable fundedBackup "5eed" 0 w := by
  have hsome : managerStored.isSome = true := rfl
  obtain ⟨y, hy⟩ := Option.isSome_iff_exists.mp hsome
  refine ⟨reloaded y.2, .crashed (Alone.start.walk hy), fun hrestart => ?_⟩
  obtain ⟨r₁, w₁, r₂, w₂, -, he, hrefused, -⟩ := hrestart "" ""
  have hr : (managerStored.bind fun x =>
      ((restoreWallet .pwa fundedBackup "5eed" "").eval fair (reloaded x.2)).map Prod.fst) =
        some (.error RESTORE_FUNDED_MSG) := rfl
  rw [hy, Option.bind_some, he] at hr
  cases hr
  exact hrefused _ (by simp [refusals]) rfl

end LibreWallet.Lifecycle
