import LibreWallet.Lifecycle.Follows

/-
  Lifecycle/Guards.lean --- what a call has found before it writes.

  `createWallet` looks for a stored channel manager, and so does a restore, which may overwrite one
  only with a backup that the stored seed opens; a start recovers only from such a backup.  Seen from
  the requests that a call has made: behind each of its writes stands what its guard has found.  When
  it found that is another matter, and what the interleavings are about.
-/

set_option autoImplicit false

namespace LibreWallet.Lifecycle

open Async Controller

/-! ## Evidence -/

/-- The seed that a `createWallet` stores. -/
def Verb.draws : Verb → Option Seed
  | .createWallet .absent drawn => some drawn
  | .createWallet (.given s) _ => some s
  | _ => none

/-- A call has found no channel manager. -/
def FoundNone (h : History) : Prop :=
  ∃ e ∈ h, e.request = .getItem .channelManager ∧ e.before.db .channelManager = none

/-- A call has read a seed. -/
def FoundSeed (s : Seed) (h : History) : Prop :=
  ∃ e ∈ h, e.request = .getItem .ldkSeed ∧ e.before.db .ldkSeed = some (.seed s)

/-- A call has read a seed that opens the backup. -/
def FoundOurs (env : Envelope) (h : History) : Prop := ∃ s, FoundSeed s h ∧ env.opens s = true

/-- The backup that a request has fetched. -/
def fetchedBackup : Entry Page Request Answer String → Option Envelope
  | ⟨.fetchBackup, .ok backup, _⟩ => backup
  | _ => none

/-- A call has fetched the backup. -/
def Fetched (env : Envelope) (h : History) : Prop := ∃ e ∈ h, fetchedBackup e = some env

/-- The method is `restoreWallet`. -/
def Verb.restores : Verb → Bool
  | .restoreWallet _ _ => true
  | _ => false

/-- A restore of the backup is past its guards: the caller's own, or that of a start. -/
def Cleared (j : Task) (h : History) (env : Envelope) : Prop :=
  (∃ secret, j.verb = .restoreWallet env secret) ∧ (FoundNone h ∨ FoundOurs env h) ∨
    j.verb.restores = false ∧ Fetched env h ∧ FoundOurs env h

/-- What a call has found before a request. -/
def Guarded (j : Task) (h : History) : Request → Prop
  | .setItem .ldkSeed v => ∃ s, v = .seed s ∧
      (j.verb.draws = some s ∧ FoundNone h ∨ ∃ env, env.seedHex = s ∧ Cleared j h env)
  | .setItem .channelManager v =>
      ∃ s bytes, v = .manager s bytes ∧ ∃ env, env.seedHex = s ∧ Cleared j h env
  | .clear => ∃ env, Cleared j h env
  | .storeSeed _ _ =>
      ∃ e ∈ h, (∃ i, e.request = .loadSeed i) ∧ e.answer.isOk = true ∧ e.before.db .ldkSeed = none
  | .fetchBackup => ∃ s, FoundSeed s h
  | _ => True

variable {h h' : History} {env : Envelope} {j : Task}

theorem FoundNone.mono (hf : FoundNone h) (hs : h ⊆ h') : FoundNone h' := by
  obtain ⟨e, he, hfound⟩ := hf
  exact ⟨e, hs he, hfound⟩

theorem FoundSeed.mono {s : Seed} (hf : FoundSeed s h) (hs : h ⊆ h') : FoundSeed s h' := by
  obtain ⟨e, he, hfound⟩ := hf
  exact ⟨e, hs he, hfound⟩

theorem FoundOurs.mono (hf : FoundOurs env h) (hs : h ⊆ h') : FoundOurs env h' := by
  obtain ⟨s, hseed, hopens⟩ := hf
  exact ⟨s, hseed.mono hs, hopens⟩

theorem Cleared.mono (hc : Cleared j h env) (hs : h ⊆ h') : Cleared j h' env := by
  rcases hc with ⟨hverb, hnone | hours⟩ | ⟨hverb, ⟨e, he, hfetched⟩, hours⟩
  · exact .inl ⟨hverb, .inl (hnone.mono hs)⟩
  · exact .inl ⟨hverb, .inr (hours.mono hs)⟩
  · exact .inr ⟨hverb, ⟨e, hs he, hfetched⟩, hours.mono hs⟩

theorem parseSeed_eq {v : Option Value} {s : Seed} (h : parseSeed v = some s) :
    v = some (.seed s) := by
  unfold parseSeed at h
  split at h
  · cases h
    rfl
  · cases h

/-! ## The control -/

/-- Calls, seen from their requests: synchronous code stores nothing. -/
def guards (fe : Frontend) (hasFetcher : Bool) : Control (lifecycle fe hasFetcher) Unit where
  idle := ()
  know := fun _ _ => True
  sync := fun _ _ w _ w' => w'.session = w.session ∧ w'.db = w.db
  act := fun _ _ _ _ _ _ _ => True
  arrive := fun _ _ _ _ => True
  stand := fun j h _ q => ∀ r, q = some r → Guarded j h r
  sync_refl := fun _ _ _ => ⟨rfl, rfl⟩
  age := Page.session
  birth := Task.session
  runs_iff := runs_iff fe hasFetcher
  age_exec := session_exec
  age_sync := And.left

namespace Guards

section Rules

variable {fe : Frontend} {hasFetcher : Bool} {α β : Type} {w : Page}

/-- Whatever the page, the code keeps to its guards, and leaves `Post`. -/
def Follows (fe : Frontend) (hasFetcher : Bool) (j : Task) (h : History) (p : Code α)
    (Post : History → Except String α → Prop) : Prop :=
  ∀ w, (guards fe hasFetcher).follows j p h (fun h' r _ _ => Post h' r) () w

/-- The call has only made more requests. -/
abbrev Grows (h : History) : History → Except String α → Prop := fun h' _ => h ⊆ h'

variable {R : History → Except String α → Prop} {Post : History → Except String β → Prop}

theorem done {Post : History → Except String α → Prop} {a : α} (hp : Post h (.ok a)) :
    Follows fe hasFetcher j h (.done a) Post :=
  fun _ => hp

theorem fail {Post : History → Except String α → Prop} {e : String} (hp : Post h (.error e)) :
    Follows fe hasFetcher j h (.fail e) Post :=
  fun _ => hp

theorem ask {q : Request} {Post : History → Except String (Answer q) → Prop} (hq : Guarded j h q)
    (hp : ∀ w c r w', exec q c w = some (r, w') → Post (⟨q, r, w⟩ :: h) r) :
    Follows fe hasFetcher j h (Lifecycle.ask q) Post := by
  refine fun w => ⟨(), trivial, ?_, fun w₁ c r w₂ _ he => ⟨(), trivial, by rintro _ ⟨⟩, fun _ _ => ?_⟩⟩
  · rintro _ ⟨⟩
    exact hq
  · exact Control.follows_ofExcept.mpr (hp _ _ _ _ he)

theorem get {g : Page → Code β} (hg : ∀ w, Follows fe hasFetcher j h (g w) Post) :
    Follows fe hasFetcher j h (.bind .get g) Post :=
  fun w => Control.follows_get (hg w w)

theorem modify {f : Page → Page} {g : Unit → Code β} (hf : ∀ w, (f w).session = w.session ∧ (f w).db = w.db)
    (hg : Follows fe hasFetcher j h (g ()) Post) :
    Follows fe hasFetcher j h (.bind (.modify f) g) Post :=
  fun w => ⟨(), hf w, hg (f w)⟩

theorem bind {p : Code α} {g : α → Code β} (hp : Follows fe hasFetcher j h p R)
    (hok : ∀ h' a, R h' (.ok a) → Follows fe hasFetcher j h' (g a) Post)
    (herr : ∀ h' e, R h' (.error e) → Post h' (.error e)) :
    Follows fe hasFetcher j h (p.bind g) Post :=
  fun w => (hp w).bind (fun h' a _ w' hr => hok h' a hr w') fun h' e _ _ hr => herr h' e hr

theorem rescue {Post : History → Except String α → Prop} {p : Code α} {g : String → Code α}
    (hp : Follows fe hasFetcher j h p R) (hok : ∀ h' a, R h' (.ok a) → Post h' (.ok a))
    (herr : ∀ h' e, R h' (.error e) → Follows fe hasFetcher j h' (g e) Post) :
    Follows fe hasFetcher j h (p.rescue g) Post :=
  fun w => (hp w).rescue (fun h' a _ _ hr => hok h' a hr) fun h' e _ w' hr => herr h' e hr w'

theorem mono {R' : History → Except String α → Prop} {p : Code α} (hp : Follows fe hasFetcher j h p R)
    (hr : ∀ h' r, R h' r → R' h' r) : Follows fe hasFetcher j h p R' :=
  fun w => (hp w).mono fun h' r _ _ => hr h' r

/-! ### Code that only makes requests -/

/-- From a history that has grown. -/
theorem since {p : Code α} (hs : h ⊆ h') (hp : Follows fe hasFetcher j h' p (Grows h')) :
    Follows fe hasFetcher j h' p (Grows h) :=
  mono hp fun _ _ => List.Subset.trans hs

/-- Code that makes requests, and then more code. -/
theorem andThen {p : Code α} {g : α → Code β} (hp : Follows fe hasFetcher j h p (Grows h))
    (hg : ∀ h' a, h ⊆ h' → Follows fe hasFetcher j h' (g a) (Grows h')) :
    Follows fe hasFetcher j h (p.bind g) (Grows h) :=
  bind hp (fun h' a hs => since hs (hg h' a hs)) fun _ _ hs => hs

theorem andCatch {p : Code α} {g : String → Code α} (hp : Follows fe hasFetcher j h p (Grows h))
    (hg : ∀ h' e, h ⊆ h' → Follows fe hasFetcher j h' (g e) (Grows h')) :
    Follows fe hasFetcher j h (p.rescue g) (Grows h) :=
  rescue hp (fun _ _ hs => hs) fun h' e hs => since hs (hg h' e hs)

theorem attempted {p : Code α} (hp : Follows fe hasFetcher j h p (Grows h)) :
    Follows fe hasFetcher j h p.attempt (Grows h) :=
  andCatch (andThen hp fun _ _ _ => done (List.Subset.refl _)) fun _ _ _ => done (List.Subset.refl _)

theorem quiet {p : Code α} (hp : Follows fe hasFetcher j h p (Grows h)) :
    Follows fe hasFetcher j h (quietly p) (Grows h) :=
  andThen (attempted hp) fun _ _ _ => done (List.Subset.refl _)

theorem stop {a : α} : Follows fe hasFetcher j h (.done a) (Grows h) := done (List.Subset.refl _)

theorem throw {e : String} : Follows fe hasFetcher j h (.fail e : Code α) (Grows h) :=
  fail (List.Subset.refl _)

theorem plain {q : Request} (hq : Guarded j h q) : Follows fe hasFetcher j h (Lifecycle.ask q) (Grows h) :=
  ask hq fun _ _ _ _ _ => List.subset_cons_self _ _

/-- A read, and what it says of the database. -/
theorem read {k : Key} :
    Follows fe hasFetcher j h (Lifecycle.ask (.getItem k)) fun h' r => h ⊆ h' ∧
      ∀ v, r = .ok v → ∃ e ∈ h', e.request = .getItem k ∧ e.before.db k = v := by
  refine ask trivial fun w c r w' he => ⟨List.subset_cons_self _ _, fun v hr => ?_⟩
  subst hr
  refine ⟨_, List.mem_cons_self, rfl, ?_⟩
  simp only [exec, Option.some.injEq, Prod.mk.injEq] at he
  split at he
  · exact Except.ok.inj he.1
  · cases he.1

end Rules

/-! ## The methods -/

section Methods

variable {fe : Frontend} {hasFetcher : Bool} {secret : String} {random : Seed} {i : Nat}

theorem getConfig : Follows fe hasFetcher j h (Lifecycle.getConfig fe) (Grows h) := by
  simp only [Lifecycle.getConfig, Proc.bind_eq, Proc.pure_eq]
  refine andThen (plain trivial) fun h₁ _ _ => andThen (plain trivial) fun h₂ cfg _ => ?_
  cases fe with
  | extension => exact stop
  | pwa =>
    refine andThen (plain trivial) fun h₃ dedicated _ => ?_
    cases configAlias cfg with
    | none => exact stop
    | some a =>
      cases dedicated with
      | none => exact quiet (plain trivial)
      | some _ => exact stop

theorem buildWallet : Follows fe hasFetcher j h (Lifecycle.buildWallet fe) (Grows h) := by
  simp only [Lifecycle.buildWallet, Proc.bind_eq, Proc.pure_eq]
  exact andThen getConfig fun _ _ _ => get fun _ => modify (fun _ => ⟨rfl, rfl⟩) stop

theorem currentNode : Follows fe hasFetcher j h Lifecycle.currentNode (Grows h) := by
  simp only [Lifecycle.currentNode, Proc.bind_eq, Proc.pure_eq]
  refine get fun w => ?_
  cases w.wallet with
  | none => exact throw
  | some i =>
    dsimp only
    split
    · exact stop
    · exact throw

theorem applySweepAddress : Follows fe hasFetcher j h Lifecycle.applySweepAddress (Grows h) := by
  simp only [Lifecycle.applySweepAddress, Proc.bind_eq]
  exact quiet (andThen (plain trivial) fun _ _ _ => plain trivial)

theorem recordStateVersionMirror :
    Follows fe hasFetcher j h Lifecycle.recordStateVersionMirror (Grows h) := by
  simp only [Lifecycle.recordStateVersionMirror, Proc.bind_eq, Proc.pure_eq]
  refine quiet (andThen (plain trivial) fun h₁ raw _ => ?_)
  cases raw with
  | none => exact stop
  | some v => exact fun w => ⟨(), ⟨rfl, rfl⟩, List.Subset.refl _⟩

/-! ### Starting -/

/-- A start stores a seed only where it has found none. -/
theorem loadState : Follows fe hasFetcher j h (Lifecycle.loadState i random) (Grows h) := by
  simp only [Lifecycle.loadState, Proc.bind_eq]
  refine andThen (plain trivial) fun h₁ _ _ => andThen (plain trivial) fun h₂ _ _ =>
    andThen (plain trivial) fun h₃ _ _ => andThen (plain trivial) fun h₄ _ _ => ?_
  have hcheck : ∀ h', Follows fe hasFetcher j h' (do
      Lifecycle.ask (.turn true)
      let manager : Option Value ← Lifecycle.ask (.getItem .channelManager)
      let w ← .get
      if keyMismatched (w.instances i) manager then .fail DECODE_MSG
      Lifecycle.ask (.turn true)) (Grows h') := by
    intro h'
    simp only [Proc.bind_eq]
    refine andThen (plain trivial) fun _ _ _ => andThen (plain trivial) fun _ _ _ => get fun w => ?_
    split
    · exact throw
    · exact plain trivial
  have hload : Follows fe hasFetcher j h₄ (Lifecycle.ask (.loadSeed i)) fun h' r => h₄ ⊆ h' ∧
      (r = .ok none → Guarded j h' (.storeSeed i random)) := by
    refine ask trivial fun w c r w' he => ⟨List.subset_cons_self _ _, fun hr => ?_⟩
    subst hr
    refine ⟨_, List.mem_cons_self, ⟨i, rfl⟩, rfl, ?_⟩
    simp only [exec, Option.some.injEq] at he
    split at he
    · exact Except.ok.inj (congrArg Prod.fst he)
    · cases congrArg Prod.fst he
  refine bind hload (fun h₅ stored hr => since hr.1 ?_) fun _ _ hr => hr.1
  cases stored with
  | none => exact andThen (plain (hr.2 rfl)) fun _ _ _ => hcheck _
  | some v =>
    cases v with
    | seed s => exact hcheck _
    | _ => exact throw

theorem startLocked : Follows fe hasFetcher j h (Lifecycle.startLocked i random) (Grows h) := by
  simp only [Lifecycle.startLocked, Proc.bind_eq]
  exact andThen loadState fun _ _ _ => modify (fun _ => ⟨rfl, rfl⟩)
    (andThen (plain trivial) fun _ _ _ => modify (fun _ => ⟨rfl, rfl⟩) (plain trivial))

theorem start : Follows fe hasFetcher j h (Lifecycle.start i random) (Grows h) := by
  simp only [Lifecycle.start, Proc.bind_eq, Proc.pure_eq]
  have hlocked : ∀ h', Follows fe hasFetcher j h' ((Lifecycle.startLocked i random).rescue fun e =>
      (quietly (Lifecycle.ask (.turn true))).bind fun _ =>
        (Proc.modify (tornDown i)).bind fun _ => .fail e) (Grows h') :=
    fun h' => andCatch startLocked fun _ _ _ => andThen (quiet (plain trivial)) fun _ _ _ =>
      modify (fun _ => ⟨rfl, rfl⟩) throw
  refine get fun w => ?_
  split
  · exact stop
  · split
    · refine andThen (plain trivial) fun _ release _ => ?_
      split
      · exact throw
      · exact hlocked _
    · exact hlocked _

/-! ### Restoring -/

theorem writeEntries {entries : List (Key × Value)} (hsub : ∀ e ∈ entries, e ∈ env.entries)
    (hc : Cleared j h env) : Follows fe hasFetcher j h (Lifecycle.writeEntries entries) (Grows h) := by
  induction entries generalizing h with
  | nil => exact stop
  | cons e entries ih =>
    obtain ⟨k, v⟩ := e
    have hmem := hsub _ List.mem_cons_self
    simp only [Lifecycle.writeEntries, Proc.bind_eq]
    refine andThen (plain ?_) fun h' _ hs =>
      ih (fun e he => hsub e (List.mem_cons_of_mem _ he)) (hc.mono hs)
    cases k with
    | ldkSeed => exact ⟨env.seedHex, (env.seed v).mp hmem, .inr ⟨env, rfl, hc⟩⟩
    | channelManager =>
      obtain ⟨bytes, hv⟩ := env.manager v hmem
      exact ⟨env.seedHex, bytes, hv, env, rfl, hc⟩
    | _ => exact trivial

theorem importState (hc : Cleared j h env) :
    Follows fe hasFetcher j h (Lifecycle.importState i env secret) (Grows h) := by
  simp only [Lifecycle.importState, Proc.bind_eq]
  refine get fun w => ?_
  split
  · exact throw
  refine andThen (plain trivial) fun h₁ _ hs₁ => ?_
  split
  · exact throw
  refine andThen (plain trivial) fun h₂ _ hs₂ => ?_
  have hc₂ := (hc.mono hs₁).mono hs₂
  exact andThen (writeEntries (fun _ he => List.mem_of_mem_filter he) hc₂) fun _ _ hs =>
    writeEntries (fun _ he => List.mem_of_mem_filter he) (hc₂.mono hs)

/-- Only a backup that the stored seed opens may overwrite. -/
theorem mayOverwrite : Follows fe hasFetcher j h (Lifecycle.mayOverwrite fe env) fun h' r =>
    h ⊆ h' ∧ (r = .ok true → FoundOurs env h') := by
  cases fe with
  | extension => exact done ⟨List.Subset.refl _, by simp⟩
  | pwa =>
    simp only [Lifecycle.mayOverwrite, Proc.bind_eq, Proc.pure_eq]
    refine bind read (fun h₁ localSeed hr => ?_) fun _ _ hr => ⟨hr.1, by simp⟩
    obtain ⟨hs₁, hread⟩ := hr
    obtain ⟨e, he, hreq, hdb⟩ := hread _ rfl
    have hrest : ∀ h', h₁ ⊆ h' → Follows .pwa hasFetcher j h'
        ((Lifecycle.ask (.getItem .stateVersion)).bind fun localRaw =>
          .done (mayOverwriteStaleLocal true ((parseSeed localSeed).any env.opens) (parseVersion localRaw)
            (if (parseSeed localSeed).any env.opens then some env.stateVersion else none)))
        fun h' r => h ⊆ h' ∧ (r = .ok true → FoundOurs env h') := by
      intro h' hs
      refine bind (plain trivial) (fun h₂ localRaw hs₂ => ?_) fun _ _ hs₂ =>
        ⟨List.Subset.trans hs₁ (List.Subset.trans hs hs₂), by simp⟩
      refine done ⟨List.Subset.trans hs₁ (List.Subset.trans hs hs₂), fun hr => ?_⟩
      have hmay := Except.ok.inj hr
      simp only [mayOverwriteStaleLocal, Bool.true_and, Bool.and_eq_true] at hmay
      obtain ⟨s, hs', hopens⟩ := (Option.any_eq_true _ _).mp hmay.1
      exact ⟨s, ⟨e, hs₂ (hs he), hreq, hdb.trans (parseSeed_eq hs')⟩, hopens⟩
    split
    · refine bind (plain trivial) (fun h₂ _ hs₂ => ?_) fun _ _ hs₂ => ⟨List.Subset.trans hs₁ hs₂, by simp⟩
      exact hrest h₂ hs₂
    · exact hrest h₁ (List.Subset.refl _)

theorem putSweepBack (sweep : Option Value) : Follows fe hasFetcher j h
    (match sweep with
    | some v => Lifecycle.ask (.setItem .sweepAddress v)
    | none => .done ()) (Grows h) := by
  cases sweep with
  | none => exact stop
  | some v => exact plain trivial

theorem clearStale (hc : Cleared j h env) : Follows fe hasFetcher j h Lifecycle.clearStale (Grows h) := by
  simp only [Lifecycle.clearStale, Proc.bind_eq, Proc.pure_eq]
  refine andThen (plain trivial) fun h₁ config hs₁ => andThen (plain trivial) fun h₂ sweep hs₂ =>
    andThen (plain ⟨env, (hc.mono hs₁).mono hs₂⟩) fun h₃ _ _ => ?_
  cases config with
  | none => exact putSweepBack sweep
  | some v => exact andThen (plain trivial) fun _ _ _ => putSweepBack sweep

/-- Past its guard a restore clears, where it may overwrite, and imports. -/
theorem importOrBlock {target : Option Value} {overwrite : Bool}
    (hc : restoreBlockReason false false (target.isSome && !overwrite) = none → Cleared j h env) :
    Follows fe hasFetcher j h
      (match restoreBlockReason false false (target.isSome && !overwrite) with
      | some funded => .fail funded
      | none => if overwrite then (Lifecycle.clearStale).bind fun _ => (Lifecycle.ask (.turn true)).bind
            fun _ => (Lifecycle.buildWallet fe).bind fun i => (Lifecycle.importState i env secret).bind
              fun _ => .done i
          else (Lifecycle.ask (.turn true)).bind fun _ => (Lifecycle.buildWallet fe).bind fun i =>
            (Lifecycle.importState i env secret).bind fun _ => .done i) (Grows h) := by
  have himport : ∀ h', Cleared j h' env → Follows fe hasFetcher j h'
      ((Lifecycle.ask (.turn true)).bind fun _ => (Lifecycle.buildWallet fe).bind fun i =>
        (Lifecycle.importState i env secret).bind fun _ => .done i) (Grows h') := by
    intro h' hc'
    exact andThen (plain trivial) fun _ _ hs₄ => andThen buildWallet fun _ _ hs₅ =>
      andThen (importState ((hc'.mono hs₄).mono hs₅)) fun _ _ _ => stop
  cases hblock : restoreBlockReason false false (target.isSome && !overwrite) with
  | some funded => exact throw
  | none =>
    cases overwrite with
    | true => exact andThen (clearStale (hc hblock)) fun _ _ hs => himport _ ((hc hblock).mono hs)
    | false => exact himport _ (hc hblock)

/-- An import has its guard behind it. -/
theorem restoreImport (hc : ∀ h', h ⊆ h' → FoundNone h' ∨ FoundOurs env h' → Cleared j h' env) :
    Follows fe hasFetcher j h (Lifecycle.restoreImport fe env secret) (Grows h) := by
  simp only [Lifecycle.restoreImport, Proc.bind_eq, Proc.pure_eq]
  refine andThen buildWallet fun h₁ _ hs₁ => andThen (plain trivial) fun h₂ _ hs₂ => ?_
  split
  · exact throw
  refine bind read (fun h₃ target hr => since hr.1 ?_) fun _ _ hr => hr.1
  obtain ⟨hs₃, hread⟩ := hr
  obtain ⟨e, he, hreq, hdb⟩ := hread _ rfl
  have hs : h ⊆ h₃ := List.Subset.trans hs₁ (List.Subset.trans hs₂ hs₃)
  have hcleared : ∀ h' (b : Bool), h₃ ⊆ h' → (b = true → FoundOurs env h') →
      restoreBlockReason false false (target.isSome && !b) = none → Cleared j h' env := by
    intro h' b hs' hours hblock
    cases b with
    | true => exact hc h' (List.Subset.trans hs hs') (.inr (hours rfl))
    | false =>
      cases target with
      | none => exact hc h' (List.Subset.trans hs hs') (.inl ⟨e, hs' he, hreq, hdb⟩)
      | some v => cases hblock
  split
  · exact bind mayOverwrite (fun h' b hr => since hr.1 (importOrBlock (hcleared h' b hr.1 fun hb => hr.2 (by rw [hb]))))
      fun _ _ hr => hr.1
  · exact importOrBlock (hcleared h₃ false (List.Subset.refl _) (by simp))

theorem restoreBody (hc : ∀ h', h ⊆ h' → FoundNone h' ∨ FoundOurs env h' → Cleared j h' env) :
    Follows fe hasFetcher j h (Lifecycle.restoreBody fe env secret random) (Grows h) := by
  simp only [Lifecycle.restoreBody, Proc.bind_eq]
  refine andThen (restoreImport hc) fun _ _ _ => modify (fun _ => ⟨rfl, rfl⟩)
    (andThen start fun _ _ _ => andThen applySweepAddress fun _ _ _ => ?_)
  cases fe with
  | pwa => exact andThen (quiet (plain trivial)) fun _ _ _ => currentNode
  | extension => exact currentNode

theorem restoreWallet (hc : ∀ h', h ⊆ h' → FoundNone h' ∨ FoundOurs env h' → Cleared j h' env) :
    Follows fe hasFetcher j h (Lifecycle.restoreWallet fe env secret random) (Grows h) := by
  simp only [Lifecycle.restoreWallet, Proc.bind_eq]
  refine get fun w => ?_
  cases restoreBlockReason w.wallet.isSome w.restoring false with
  | some reason => exact throw
  | none =>
    refine modify (fun _ => ⟨rfl, rfl⟩) (andThen (attempted (restoreBody hc)) fun h' r _ => ?_)
    refine modify (fun _ => ⟨rfl, rfl⟩) ?_
    cases r with
    | ok i => exact stop
    | error e => exact throw

/-- A start recovers only from a readable backup. -/
theorem recovering (random : Seed) {localSeed localRaw : Option Value} {mirror : Nat} {fetched : Option Envelope}
    (hc : ∀ envelope s, fetched = some envelope → parseSeed localSeed = some s →
      envelope.opens s = true → Cleared j h envelope) : Follows fe hasFetcher j h
      (match recoveryDecision (parseVersion localRaw) mirror
          ((fetched.filter fun e => (parseSeed localSeed).any e.opens).map (·.stateVersion)) with
      | .proceed => .done none
      | .recover =>
        match fetched.filter fun e => (parseSeed localSeed).any e.opens, parseSeed localSeed with
        | some envelope, some s =>
          ((Lifecycle.restoreWallet fe envelope s random).rescue fun _ =>
            .fail (backupAheadErrorMsg (parseVersion localRaw) envelope.stateVersion)).bind
              fun node => .done (some node)
        | _, _ => .fail (stateRollbackErrorMsg (parseVersion localRaw) mirror)
      | .halt => .fail (stateRollbackErrorMsg (parseVersion localRaw) mirror)) (Grows h) := by
  split
  · exact stop
  · split
    · rename_i envelope s hreadable hseed
      obtain ⟨hfetch, hopens⟩ := Option.filter_eq_some_iff.mp hreadable
      rw [hseed, Option.any_some] at hopens
      have hcleared := hc envelope s hfetch hseed hopens
      exact andThen (andCatch (restoreWallet fun _ hs _ => hcleared.mono hs) fun _ _ _ => throw)
        fun _ _ _ => stop
    · exact throw
  · exact throw

/-- A start recovers only from a backup that it has fetched, and that the seed opens which it has read. -/
theorem recoverOrHalt (hj : j.verb.restores = false) :
    Follows fe hasFetcher j h (Lifecycle.recoverOrHalt fe hasFetcher random) (Grows h) := by
  simp only [Lifecycle.recoverOrHalt, Proc.bind_eq, Proc.pure_eq]
  refine bind read (fun h₁ localSeed hr => since hr.1 ?_) fun _ _ hr => hr.1
  obtain ⟨e, he, hreq, hdb⟩ := hr.2 _ rfl
  refine andThen (plain trivial) fun h₂ localRaw hs₂ => get fun w => ?_
  have hcleared : ∀ h' (fetched : Option Envelope), h₂ ⊆ h' →
      (∀ env, fetched = some env → Fetched env h') → ∀ envelope s, fetched = some envelope →
        parseSeed localSeed = some s → envelope.opens s = true → Cleared j h' envelope := by
    intro h' fetched hs' hfetched envelope s hfetch hseed hopens
    exact .inr ⟨hj, hfetched _ hfetch, s, ⟨e, hs' (hs₂ he), hreq, hdb.trans (parseSeed_eq hseed)⟩, hopens⟩
  split
  · rename_i s hseed
    have hfetch : Follows fe true j h₂ ((Lifecycle.ask .fetchBackup).rescue fun _ => .done none) fun h' r =>
        h₂ ⊆ h' ∧ ∀ env, r = .ok (some env) → Fetched env h' := by
      have hask : Follows fe true j h₂ (Lifecycle.ask .fetchBackup) fun h' r =>
          h₂ ⊆ h' ∧ ∀ env, r = .ok (some env) → Fetched env h' := by
        refine ask ⟨s, e, hs₂ he, hreq, hdb.trans (parseSeed_eq hseed)⟩ fun w c r w' _ => ?_
        refine ⟨List.subset_cons_self _ _, fun env hr => ⟨_, List.mem_cons_self, ?_⟩⟩
        rw [hr]
        rfl
      exact rescue hask (fun _ _ hr => hr) fun _ _ hr => done ⟨hr.1, by simp⟩
    refine bind hfetch (fun h₃ fetched hr => since hr.1 ?_) fun _ _ hr => hr.1
    cases fetched with
    | none => exact recovering random (hcleared h₃ none hr.1 (by simp))
    | some env =>
      refine andThen (plain trivial) fun h₄ _ hs₄ =>
        recovering random (hcleared h₄ (some env) (List.Subset.trans hr.1 hs₄) ?_)
      rintro _ ⟨⟩
      obtain ⟨x, hx, hfetched⟩ := hr.2 env rfl
      exact ⟨x, hs₄ hx, hfetched⟩
  · exact recovering random (hcleared h₂ none (List.Subset.refl _) (by simp))

/-! ### Starting, once more -/

theorem startBuilt : Follows fe hasFetcher j h (Lifecycle.startBuilt fe i random) (Grows h) := by
  simp only [Lifecycle.startBuilt, Proc.bind_eq]
  refine modify (fun _ => ⟨rfl, rfl⟩) (andThen (andCatch start fun _ _ _ =>
    modify (fun _ => ⟨rfl, rfl⟩) throw) fun _ _ _ => andThen applySweepAddress fun _ _ _ => ?_)
  cases fe with
  | pwa =>
    exact andThen recordStateVersionMirror fun _ _ _ => andThen (quiet (plain trivial)) fun _ _ _ =>
      currentNode
  | extension => exact currentNode

theorem unlessRecovered (recovered : Option Nat) : Follows fe hasFetcher j h
    (match recovered with
    | some node => .done node
    | none => Lifecycle.startBuilt fe i random) (Grows h) := by
  cases recovered with
  | some node => exact stop
  | none => exact startBuilt

theorem doStartNode (hj : j.verb.restores = false) :
    Follows fe hasFetcher j h (Lifecycle.doStartNode fe hasFetcher random) (Grows h) := by
  simp only [Lifecycle.doStartNode, Proc.bind_eq, Proc.pure_eq]
  refine andThen (plain trivial) fun _ _ _ => andThen (plain trivial) fun _ _ _ =>
    andThen (plain trivial) fun _ _ _ => andThen (plain trivial) fun _ _ _ => ?_
  split
  · exact throw
  split
  · exact throw
  refine andThen buildWallet fun _ i _ => ?_
  cases fe with
  | pwa => exact andThen (recoverOrHalt hj) fun _ recovered _ => unlessRecovered recovered
  | extension => exact unlessRecovered none

theorem startNode (hj : j.verb.restores = false) :
    Follows fe hasFetcher j h (Lifecycle.startNode fe hasFetcher random) (Grows h) := by
  simp only [Lifecycle.startNode, Proc.bind_eq]
  refine get fun w => ?_
  cases w.startingPromise with
  | some p => exact plain trivial
  | none =>
    dsimp only
    split
    · exact currentNode
    · refine modify (fun _ => ⟨rfl, rfl⟩) (andThen (attempted (doStartNode hj)) fun _ r _ => ?_)
      refine modify (fun _ => ⟨rfl, rfl⟩) ?_
      cases r with
      | ok i => exact stop
      | error e => exact throw

theorem autoStart {flag unreachable : Bool} (hj : j.verb.restores = false) :
    Follows fe hasFetcher j h (Lifecycle.autoStart fe flag hasFetcher unreachable random) (Grows h) := by
  simp only [Lifecycle.autoStart, Proc.bind_eq, Proc.pure_eq]
  refine quiet (andThen (plain trivial) fun _ _ _ => andThen (plain trivial) fun _ _ _ =>
    andThen (plain trivial) fun _ _ _ => andThen (plain trivial) fun _ _ _ => ?_)
  have hgo : ∀ h' (deferred : Bool), Follows fe hasFetcher j h'
      (if !deferred then (Lifecycle.startNode fe hasFetcher random).bind fun _ => Lifecycle.ask (.turn true)
        else .done ()) (Grows h') := by
    intro h' deferred
    split
    · exact andThen (startNode hj) fun _ _ _ => plain trivial
    · exact stop
  split
  · cases fe with
    | extension => exact hgo _ false
    | pwa => exact andThen (plain trivial) fun _ _ _ => get fun w => hgo _ _
  · exact stop

/-! ### The other methods -/

theorem stopping : Follows fe hasFetcher j h (Lifecycle.stop i) (Grows h) := by
  simp only [Lifecycle.stop, Proc.bind_eq, Proc.pure_eq]
  refine get fun w => ?_
  split
  · exact stop
  · refine modify (fun _ => ⟨rfl, rfl⟩) (andThen (quiet (plain trivial)) fun _ _ _ =>
      andThen (quiet (plain trivial)) fun _ _ _ => andThen (quiet (plain trivial)) fun _ _ _ => ?_)
    exact fun w => ⟨(), ⟨rfl, rfl⟩, List.Subset.refl _⟩

theorem stopBuilt : Follows fe hasFetcher j h
    (do
      let w ← .get
      match w.wallet with
      | none => pure ()
      | some _ =>
        quietly (Lifecycle.ask (.turn true))
        let w ← .get
        match w.wallet with
        | none => .fail "Cannot read properties of undefined"
        | some i =>
          Lifecycle.stop i
          .modify fun w => { w with wallet := none }) (Grows h) := by
  simp only [Proc.bind_eq, Proc.pure_eq]
  refine get fun w => ?_
  cases w.wallet with
  | none => exact stop
  | some _ =>
    refine andThen (quiet (plain trivial)) fun _ _ _ => get fun w => ?_
    cases w.wallet with
    | none => exact throw
    | some i => exact andThen stopping fun _ _ _ w => ⟨(), ⟨rfl, rfl⟩, List.Subset.refl _⟩

theorem stopNode : Follows fe hasFetcher j h Lifecycle.stopNode (Grows h) := by
  simp only [Lifecycle.stopNode, Proc.bind_eq]
  refine get fun w => ?_
  cases w.startingPromise with
  | none => exact stopBuilt
  | some p => exact andThen (quiet (plain trivial)) fun _ _ _ => stopBuilt

/-- `createWallet` stores its seed only where it has found no manager. -/
theorem createWallet {opts : SeedOption} {drawn : Seed} (hverb : j.verb = .createWallet opts drawn) :
    Follows fe hasFetcher j h (Lifecycle.createWallet fe opts drawn hasFetcher random) (Grows h) := by
  have hj : j.verb.restores = false := by rw [hverb]; rfl
  simp only [Lifecycle.createWallet, Proc.bind_eq]
  refine andThen (plain trivial) fun h₁ _ _ => bind read (fun h₂ manager hr => since hr.1 ?_) fun _ _ hr => hr.1
  obtain ⟨e, he, hreq, hdb⟩ := hr.2 _ rfl
  have hcreate : ∀ s, j.verb.draws = some s → FoundNone h₂ → Follows fe hasFetcher j h₂ (do
      Lifecycle.ask (.setItem .ldkSeed (.seed s))
      Lifecycle.ask (.setItem .walletCreatedNew (.text "1"))
      let node ← Lifecycle.startNode fe hasFetcher random
      Lifecycle.ask (.resolved s node)) (Grows h₂) := by
    intro s hs hnone
    simp only [Proc.bind_eq]
    exact andThen (plain ⟨s, rfl, .inl ⟨hs, hnone⟩⟩) fun _ _ _ => andThen (plain trivial) fun _ _ _ =>
      andThen (startNode hj) fun _ _ _ => plain trivial
  cases manager with
  | some v => exact throw
  | none =>
    have hnone : FoundNone h₂ := ⟨e, he, hreq, hdb⟩
    cases opts with
    | malformed => exact throw
    | absent => exact hcreate _ (by rw [hverb]; rfl) hnone
    | given s => exact hcreate _ (by rw [hverb]; rfl) hnone

theorem mirroring : Follows fe hasFetcher j h
    (match fe with
    | .pwa => Lifecycle.recordStateVersionMirror
    | .extension => .done ()) (Grows h) := by
  cases fe with
  | pwa => exact recordStateVersionMirror
  | extension => exact stop

theorem onStateChanged : Follows fe hasFetcher j h (Lifecycle.onStateChanged fe) (Grows h) := by
  simp only [Lifecycle.onStateChanged, Proc.bind_eq, Proc.pure_eq]
  refine andThen (plain trivial) fun _ manager _ => ?_
  split
  · exact andThen (plain trivial) fun _ _ _ => mirroring
  · exact mirroring

/-- Every method keeps to its guards. -/
theorem code : Follows fe hasFetcher j [] (Lifecycle.code fe hasFetcher random j.verb) (Grows []) := by
  cases hverb : j.verb with
  | createWallet opts drawn => exact createWallet hverb
  | startNode => exact andThen (startNode (by rw [hverb]; rfl)) fun _ _ _ => stop
  | autoStart flag unreachable => exact autoStart (by rw [hverb]; rfl)
  | stopNode => exact stopNode
  | restoreWallet env secret =>
    exact andThen (restoreWallet fun _ _ hfound => .inl ⟨⟨secret, hverb⟩, hfound⟩) fun _ _ _ => stop
  | onStateChanged => exact onStateChanged

theorem admits : (guards fe hasFetcher).Admits := by
  intro e w w' called he
  cases e with
  | call verb random =>
    simp only [lifecycle, effect, Option.some.injEq, Prod.mk.injEq] at he
    obtain ⟨rfl, rfl⟩ := he
    refine ⟨Nat.le_refl _, fun j p hjp => ?_⟩
    cases hjp
    exact ⟨rfl, fun w'' _ => (code w'').mono fun _ _ _ _ _ => trivial⟩
  | persist i k bytes version =>
    simp only [lifecycle, effect] at he
    split at he
    · simp only [Option.map_eq_some_iff, Prod.mk.injEq] at he
      obtain ⟨v, -, rfl, rfl⟩ := he
      exact ⟨Nat.le_refl _, by simp⟩
    · cases he
  | reload =>
    cases he
    exact ⟨Nat.le_succ _, by simp⟩

/-- Synchronous code stores nothing. -/
theorem kept_advance {w : Page} {p : Code Unit}
    (hp : (guards fe hasFetcher).follows j p h ((guards fe hasFetcher).ends j) () w) :
    (p.advance w).1.session = w.session ∧ (p.advance w).1.db = w.db := by
  obtain ⟨l₁, l₂, hpath, -, -⟩ := Control.follows_advance hp
  suffices H : ∀ y, (guards fe hasFetcher).Path j ((), w) y →
      y.2.session = w.session ∧ y.2.db = w.db from H _ hpath
  intro y hy
  induction hy with
  | refl => exact ⟨rfl, rfl⟩
  | tail _ hs ih => exact ⟨hs.1.trans ih.1, hs.2.trans ih.2⟩

end Methods

end Guards

/-- The guards need no invariant. -/
theorem guards_preserves (fe : Frontend) (hasFetcher : Bool) :
    (guards fe hasFetcher).Preserves (fun _ _ => True) fun _ _ _ => True where
  know := fun _ _ => trivial
  sync := fun _ _ => trivial
  act := fun _ _ _ _ _ _ _ => trivial
  arrive := fun _ _ _ _ _ _ => trivial
  event := fun _ _ _ _ _ => trivial
  reload := fun _ _ _ _ _ => trivial

end LibreWallet.Lifecycle
