import LibreWallet.Lifecycle.Control

/-
  Lifecycle/Follows.lean --- every method keeps to the control.

  One specification for each method and for each piece that two of them share: from
  which control state it may begin, and which one it leaves with its result and with
  its error.  The page is arbitrary at every resume.
-/

set_option autoImplicit false

namespace LibreWallet.Lifecycle

open Async Controller

section Follows

variable {fe : Frontend} {hasFetcher : Bool} {j : Task} {h : History} {l : Local} {w : Page}

/-! ## The SDK -/

theorem follows_getConfig {l' : Local} (ha : Arrive l w l') (hfit : Fit j h l')
    (hread : MayRead j l') (hi : l'.imported = false) :
    (control fe hasFetcher).follows j (getConfig fe) h (Keeps Unit j l') l w := by
  simp only [getConfig, Proc.bind_eq, Proc.pure_eq]
  refine keeps_bind (follows_turn ha hfit) (fun h₁ _ w₁ hfit₁ _ => ?_)
    fun _ _ _ hfit hw => leaves_error hfit hw rfl
  have hstay : ∀ w, Arrive l' w l' := fun _ => .stay hfit.closed
  refine keeps_bind (follows_getItem (hstay _) hfit₁ hread)
    (fun h₂ cfg w₂ hfit₂ hw₂ => ?_) fun _ _ _ hfit hw => leaves_error hfit hw rfl
  cases fe with
  | extension => exact follows_done hfit₂ hw₂ rfl
  | pwa =>
    refine keeps_bind (follows_getItem (hstay _) hfit₂ hread)
      (fun h₃ dedicated w₃ hfit₃ hw₃ => ?_) fun _ _ _ hfit hw => leaves_error hfit hw rfl
    cases configAlias cfg with
    | none => exact follows_done hfit₃ hw₃ rfl
    | some a =>
      cases dedicated with
      | some _ => exact follows_done hfit₃ hw₃ rfl
      | none =>
        refine keeps_quietly (follows_plain (hstay _) hfit₃ ?_ nofun fun r => ?_)
        · exact fun himp => absurd himp (by simp [hi])
        · cases r <;> rfl

/-- Fitting depends on what the method and the requests can tell. -/
theorem Fit.node (hfit : Fit j h l) (node : Option (Nat × Stage)) : Fit j h { l with node } where
  closed := hfit.closed
  restoring := hfit.restoring
  stopping := hfit.stopping
  wrote := hfit.wrote
  imported := hfit.imported

theorem follows_buildWallet {l' : Local} (ha : Arrive l w l') (hfit : Fit j h l')
    (hread : MayRead j l') (hi : l'.imported = false) (hnew : l'.Unstarted) :
    (control fe hasFetcher).follows j (buildWallet fe) h
      (Leaves j (fun i l₁ _ => l₁ = { l' with node := some (i, .built) }) fun l₁ _ => l₁ = l') l w := by
  simp only [buildWallet, Proc.bind_eq, Proc.pure_eq]
  refine keeps_bind (follows_getConfig ha hfit hread hi) (fun h₁ _ w₁ hfit₁ hw₁ => ?_)
    fun _ _ _ hfit hw => leaves_error hfit hw rfl
  refine Control.follows_get (Control.follows_modify (.build hnew) ?_)
  refine follows_done (hfit₁.node _) ?_ rfl
  intro i st hn _
  simp only [Option.some.injEq, Prod.mk.injEq] at hn
  rw [Page.instances_append, ← hn.1]
  simp [Page.instances]

/-! ### Starting -/

/-- After the loading: the seed of the keys is known, or the start ends. -/
abbrev Loads (j : Task) (i : Nat) (l : Local) : Ends Unit :=
  Leaves j (fun _ l' _ => ∃ s, l' = { l with node := some (i, .loaded s) }) fun l' _ =>
    ∃ st, st.starting = true ∧ l' = { l with node := some (i, st) }

/-- Once the seed is loaded the stored manager must be of the same keys. -/
theorem follows_checkManager {i : Nat} {s : Seed}
    (hfit : Fit j h { l with node := some (i, .loaded s) }) (hread : MayRead j l) :
    (control fe hasFetcher).follows j (do
        ask (.turn true)
        let manager : Option Value ← ask (.getItem .channelManager)
        let w ← .get
        if keyMismatched (w.instances i) manager then .fail DECODE_MSG
        ask (.turn true)) h (Loads j i l) { l with node := some (i, .loaded s) } w := by
  have herr : ∀ h' e w', Fit j h' { l with node := some (i, .loaded s) } →
      Knows { l with node := some (i, .loaded s) } w' →
      Loads j i l h' (.error e) { l with node := some (i, .loaded s) } w' :=
    fun _ _ _ hfit hw => leaves_error hfit hw ⟨_, rfl, rfl⟩
  simp only [Proc.bind_eq]
  refine keeps_bind (follows_turn (.stay hfit.closed) hfit)
    (fun h₁ _ w₁ hfit₁ _ => ?_) herr
  refine keeps_bind (follows_getItem (.stay hfit.closed) hfit₁ hread)
    (fun h₂ manager w₂ hfit₂ hw₂ => ?_) herr
  refine Control.follows_get ?_
  split
  · exact follows_fail hfit₂ hw₂ ⟨_, rfl, rfl⟩
  · exact keeps_leaves (follows_turn (.stay hfit.closed) hfit₂)
      (fun _ _ => ⟨s, rfl⟩) fun _ => ⟨_, rfl, rfl⟩

theorem follows_loadState {i : Nat} {random : Seed} (hfit : Fit j h l) (hread : MayRead j l)
    (hn : l.node = some (i, .locked)) :
    (control fe hasFetcher).follows j (loadState i random) h (Loads j i l) l w := by
  have hsame : l = { l with node := some (i, .locked) } := by rw [← hn]
  have herr : ∀ h' e w', Fit j h' l → Knows l w' → Loads j i l h' (.error e) l w' :=
    fun _ _ _ hfit hw => leaves_error hfit hw ⟨_, rfl, hsame⟩
  simp only [loadState, Proc.bind_eq]
  refine keeps_bind (follows_turn (.stay hfit.closed) hfit)
    (fun h₁ _ w₁ hfit₁ _ => ?_) herr
  refine keeps_bind (follows_getItem (.stay hfit.closed) hfit₁ hread)
    (fun h₂ _ w₂ hfit₂ _ => ?_) herr
  refine keeps_bind (follows_turn (.stay hfit.closed) hfit₂)
    (fun h₃ _ w₃ hfit₃ _ => ?_) herr
  refine keeps_bind (follows_getItem (.stay hfit.closed) hfit₃ hread)
    (fun h₄ _ w₄ hfit₄ _ => ?_) herr
  have hload : (control fe hasFetcher).follows j (ask (.loadSeed i)) h₄
      (Leaves j (fun v l' _ => l' = { l with node := some (i, stageOf (parseSeed v)) })
        fun l' _ => l' = l) l w₄ := by
    refine follows_ask (.stay hfit.closed) hfit₄ hn (fun _ => hread h₄)
      fun h' r w' hfit' hw' => ?_
    cases r with
    | ok v => exact leaves_ok hfit' hw' rfl
    | error e => exact leaves_error hfit' hw' rfl
  refine leaves_bind hload (fun h₅ stored l₅ w₅ hfit₅ hw₅ hl₅ => ?_)
    fun _ _ _ _ hfit hw hl => leaves_error hfit hw ⟨_, rfl, hl.trans hsame⟩
  subst hl₅
  cases stored with
  | none =>
    have hstore : (control fe hasFetcher).follows j (ask (.storeSeed i random)) h₅
        (Leaves j (fun _ l' _ => l' = { l with node := some (i, .loaded random) })
          fun l' _ => l' = { l with node := some (i, .blank) })
        { l with node := some (i, .blank) } w₅ := by
      refine follows_ask (.stay hfit.closed) hfit₅ rfl nofun fun h' r w' hfit' hw' => ?_
      cases r with
      | ok _ => exact leaves_ok hfit' hw' rfl
      | error e => exact leaves_error hfit' hw' rfl
    refine leaves_bind hstore (fun h₆ _ l₆ w₆ hfit₆ hw₆ hl₆ => ?_)
      fun _ _ _ _ hfit hw hl => leaves_error hfit hw ⟨_, rfl, hl⟩
    subst hl₆
    exact follows_checkManager hfit₆ hread
  | some v =>
    cases v with
    | seed s => exact follows_checkManager hfit₅ hread
    | _ => exact follows_fail hfit₅ hw₅ ⟨.blank, rfl, rfl⟩

theorem knows_of_node {l' : Local} {w' : Page} {i : Nat} {st : Stage}
    (hn : l'.node = some (i, st)) (hb : st ≠ .built) (ha : st ≠ .assigned) : Knows l' w' := by
  intro i' st' hn' hst
  rw [hn] at hn'
  cases hn'
  rcases hst with rfl | rfl
  · exact absurd rfl hb
  · exact absurd rfl ha

/-- An error in a start that holds the lock. -/
abbrev StartsLocked (j : Task) (i : Nat) (l : Local) : Ends Unit :=
  Leaves j (fun _ l' _ => l' = { l with node := some (i, .up) }) fun l' _ =>
    ∃ st, (st.starting = true ∨ st = .up) ∧ l' = { l with node := some (i, st) }

theorem follows_startLocked {i : Nat} {random : Seed} (hfit : Fit j h l) (hread : MayRead j l)
    (hn : l.node = some (i, .locked)) :
    (control fe hasFetcher).follows j (startLocked i random) h (StartsLocked j i l) l w := by
  simp only [startLocked, Proc.bind_eq]
  refine leaves_bind (follows_loadState hfit hread hn) (fun h₁ _ l₁ w₁ hfit₁ _ hl₁ => ?_)
    fun h' e l' w' hfit hw hl => ?_
  · obtain ⟨s, rfl⟩ := hl₁
    refine Control.follows_modify (.manage rfl) ?_
    refine keeps_bind (follows_turn (.stay hfit₁.closed) hfit₁)
      (fun h₂ _ w₂ hfit₂ _ => ?_) fun h' e w' hfit hw =>
        leaves_error hfit hw ⟨.loaded s, .inl rfl, rfl⟩
    refine Control.follows_modify (.run rfl) ?_
    exact keeps_leaves (follows_turn (.stay hfit.closed) (hfit₂.node _))
      (fun _ _ => rfl) fun _ => ⟨.up, .inr rfl, rfl⟩
  · obtain ⟨st, hst, rfl⟩ := hl
    exact leaves_error hfit hw ⟨st, .inl hst, rfl⟩

/-- What a start leaves of its instance. -/
abbrev Started (j : Task) (i : Nat) (l : Local) : Ends Unit :=
  Leaves j (fun _ l' _ => l' = { l with node := some (i, .up) }) fun l' _ =>
    ∃ st, (st = .assigned ∨ st = .finished) ∧ l' = { l with node := some (i, st) }

theorem follows_start {i : Nat} {random : Seed} (hfit : Fit j h l) (hread : MayRead j l)
    (hn : l.node = some (i, .assigned)) (hw : Knows l w) :
    (control fe hasFetcher).follows j (start i random) h (Started j i l) l w := by
  have hfresh : w.instances i = {} := hw i .assigned hn (.inr rfl)
  have hsame : l = { l with node := some (i, .assigned) } := by rw [← hn]
  simp only [start, Proc.bind_eq]
  refine Control.follows_get ?_
  simp only [hfresh, Bool.false_eq_true, if_false, Bool.not_false, if_true]
  have hlock : (control fe hasFetcher).follows j (ask (.acquireRunLock i)) h
      (Leaves j (fun release l' _ =>
        l' = { l with node := some (i, if release then .locked else .assigned) })
        fun l' _ => l' = l) l w := by
    refine follows_ask (.stay hfit.closed) hfit hn nofun fun h' r w' hfit' hw' => ?_
    cases r with
    | ok release =>
      cases release with
      | true => exact leaves_ok hfit' hw' rfl
      | false => exact leaves_ok hfit' hw' hsame
    | error e => exact leaves_error hfit' hw' rfl
  refine leaves_bind hlock (fun h₁ release l₁ w₁ hfit₁ hw₁ hl₁ => ?_)
    fun _ _ _ _ hfit hw hl => leaves_error hfit hw ⟨_, .inl rfl, hl.trans hsame⟩
  subst hl₁
  cases release with
  | false => exact follows_fail hfit₁ hw₁ ⟨_, .inl rfl, rfl⟩
  | true =>
    refine leaves_rescue (follows_startLocked hfit₁ hread rfl)
      (fun _ _ _ _ hfit hw hl => leaves_ok hfit hw hl) fun h₂ e l₂ w₂ hfit₂ hw₂ hl₂ => ?_
    obtain ⟨st, hst, rfl⟩ := hl₂
    refine quietly_bind (follows_turn (.stay hfit₂.closed) hfit₂)
      fun h₃ w₃ hfit₃ _ => ?_
    refine Control.follows_modify (.tearDown rfl hst) ?_
    exact follows_fail (hfit₃.node _) (knows_of_node rfl (by simp) (by simp)) ⟨_, .inr rfl, rfl⟩

/-! ### Importing -/

/-- What a backup holds under a key. -/
def Entry.Sound (e : Key × Value) : Prop :=
  (e.1 = .ldkSeed → ∃ s, e.2 = .seed s) ∧ (e.1 = .channelManager → ∃ s bytes, e.2 = .manager s bytes)

theorem Envelope.sound {env : Envelope} {e : Key × Value} (he : e ∈ env.entries) :
    Entry.Sound e := by
  obtain ⟨k, v⟩ := e
  refine ⟨fun hk => ?_, fun hk => ?_⟩
  · cases hk
    exact ⟨_, (env.seed v).mp he⟩
  · cases hk
    exact ⟨_, env.manager v he⟩

theorem follows_writeEntries {entries : List (Key × Value)} (hfit : Fit j h l)
    (hw : Knows l w) (himp : l.Importing) (he : ∀ e ∈ entries, Entry.Sound e) :
    (control fe hasFetcher).follows j (writeEntries entries) h (Keeps Unit j l) l w := by
  induction entries generalizing h w with
  | nil => exact follows_done hfit hw rfl
  | cons e entries ih =>
    obtain ⟨k, v⟩ := e
    have hsound := he _ List.mem_cons_self
    simp only [writeEntries, Proc.bind_eq]
    refine keeps_bind (follows_plain (.stay hfit.closed) hfit ?_ nofun fun r => ?_)
      (fun h' _ w' hfit' hw' => ih hfit' hw' fun e h => he e (List.mem_cons_of_mem _ h))
      fun _ _ _ hfit hw => leaves_error hfit hw rfl
    · cases k with
      | ldkSeed => exact ⟨hsound.1 rfl, .inl himp⟩
      | channelManager => exact ⟨hsound.2 rfl, himp⟩
      | _ => exact fun _ => himp
    · cases k with
      | ldkSeed =>
        cases r with
        | ok _ => exact if_pos himp.1
        | error e => rfl
      | _ => rfl

theorem follows_importState {i : Nat} {env : Envelope} {secret : String} (hfit : Fit j h l)
    (hw : Knows l w) (himp : l.Importing) :
    (control fe hasFetcher).follows j (importState i env secret) h
      (Leaves j (fun _ l' _ => l' = { l with imported := true }) fun l' _ =>
        l' = l ∨ l' = { l with imported := true }) l w := by
  simp only [importState, Proc.bind_eq]
  refine Control.follows_get ?_
  split
  · exact follows_fail hfit hw (.inl rfl)
  refine keeps_bind (follows_turn (.stay hfit.closed) hfit)
    (fun h₁ _ w₁ hfit₁ hw₁ => ?_) fun _ _ _ hfit hw => leaves_error hfit hw (.inl rfl)
  split
  · exact follows_fail hfit₁ hw₁ (.inl rfl)
  have hremove : (control fe hasFetcher).follows j (ask (.removeItem .monitorHighwater)) h₁
      (Keeps Unit j { l with imported := true }) l w₁ := by
    refine follows_ask (.stay hfit.closed) hfit₁ himp nofun fun h' r w' hfit' hw' => ?_
    exact ⟨hfit', hw', fun _ _ => rfl, fun _ _ => rfl⟩
  refine keeps_bind hremove (fun h₂ _ w₂ hfit₂ hw₂ => ?_)
    fun _ _ _ hfit hw => leaves_error hfit hw (.inr rfl)
  have hfrom : ∀ (p : Key × Value → Bool), ∀ e ∈ env.entries.filter p, Entry.Sound e :=
    fun p e he => Envelope.sound (List.mem_of_mem_filter he)
  refine keeps_bind (follows_writeEntries hfit₂ hw₂ himp (hfrom _))
    (fun h₃ _ w₃ hfit₃ hw₃ => ?_) fun _ _ _ hfit hw => leaves_error hfit hw (.inr rfl)
  exact keeps_leaves (follows_writeEntries hfit₃ hw₃ himp (hfrom _)) (fun _ _ => rfl)
    fun _ => .inr rfl

/-! ## The controller -/

theorem follows_applySweepAddress (hfit : Fit j h l) (hread : MayRead j l) :
    (control fe hasFetcher).follows j applySweepAddress h (Keeps Unit j l) l w := by
  refine keeps_quietly ?_
  simp only [Proc.bind_eq]
  refine keeps_bind (follows_turn (.stay hfit.closed) hfit)
    (fun h₁ _ w₁ hfit₁ _ => ?_) fun _ _ _ hfit hw => leaves_error hfit hw rfl
  exact follows_getItem (.stay hfit.closed) hfit₁ hread

/-- `currentNode` finds a node that runs. -/
theorem follows_currentNode (hfit : Fit j h l) (hw : Knows l w) :
    (control fe hasFetcher).follows j currentNode h
      (Leaves j (fun i l' w' => l' = { l with result := some i } ∧
        (w'.instances i).isRunning = true) fun l' _ => l' = l) l w := by
  simp only [currentNode, Proc.bind_eq, Proc.pure_eq]
  cases hwallet : w.wallet with
  | none =>
    refine Control.follows_get ?_
    rw [hwallet]
    exact follows_fail hfit hw rfl
  | some i =>
    by_cases hrun : (w.instances i).isRunning = true
    · -- the result is noted where the page is read
      refine Control.follows_note (.found hwallet hrun) ?_
      simp only [hwallet, hrun, if_true]
      exact follows_done ⟨hfit.closed, hfit.restoring, hfit.stopping, hfit.wrote, hfit.imported⟩ hw
        ⟨rfl, hrun⟩
    · refine Control.follows_get ?_
      simp only [hwallet]
      rw [if_neg hrun]
      exact follows_fail hfit hw rfl

theorem follows_mayOverwrite {env : Envelope} (hfit : Fit j h l) (hw : Knows l w)
    (hread : MayRead j l) :
    (control fe hasFetcher).follows j (mayOverwrite fe env) h (Keeps Bool j l) l w := by
  cases fe with
  | extension => exact follows_done hfit hw rfl
  | pwa =>
    simp only [mayOverwrite, Proc.bind_eq, Proc.pure_eq]
    refine keeps_bind (follows_getItem (.stay hfit.closed) hfit hread)
      (fun h₁ localSeed w₁ hfit₁ hw₁ => ?_) fun _ _ _ hfit hw => leaves_error hfit hw rfl
    have hrest : ∀ h' w' (g : Option Value → Bool), Fit j h' l →
        (control .pwa hasFetcher).follows j
          ((ask (.getItem .stateVersion)).bind fun r => .done (g r)) h' (Keeps Bool j l) l w' :=
      fun h' w' g hfit' => keeps_bind (follows_getItem (.stay hfit.closed) hfit' hread)
        (fun _ _ _ hfit hw => follows_done hfit hw rfl)
        fun _ _ _ hfit hw => leaves_error hfit hw rfl
    cases parseSeed localSeed with
    | none => exact hrest _ _ _ hfit₁
    | some s =>
      refine keeps_bind (follows_turn (.stay hfit.closed) hfit₁)
        (fun h₂ _ w₂ hfit₂ _ => ?_) fun _ _ _ hfit hw => leaves_error hfit hw rfl
      exact hrest _ _ _ hfit₂

/-- The sweep address is put back. -/
theorem follows_putBack {sweep : Option Value} (hfit : Fit j h l) (hw : Knows l w)
    (hno : l.imported = true → l.Importing) :
    (control fe hasFetcher).follows j
      (match sweep with
      | some v => ask (.setItem .sweepAddress v)
      | none => .done ()) h (Keeps Unit j l) l w := by
  cases sweep with
  | none => exact follows_done hfit hw rfl
  | some v => exact follows_plain (.stay hfit.closed) hfit hno nofun fun _ => rfl

theorem follows_clearStale (hfit : Fit j h l) (hread : MayRead j l) (himp : l.Importing)
    (hi : l.imported = false) :
    (control fe hasFetcher).follows j clearStale h (Keeps Unit j l) l w := by
  simp only [clearStale, Proc.bind_eq, Proc.pure_eq]
  refine keeps_bind (follows_getItem (.stay hfit.closed) hfit hread)
    (fun h₁ config w₁ hfit₁ _ => ?_) fun _ _ _ hfit hw => leaves_error hfit hw rfl
  refine keeps_bind (follows_getItem (.stay hfit.closed) hfit₁ hread)
    (fun h₂ sweep w₂ hfit₂ _ => ?_) fun _ _ _ hfit hw => leaves_error hfit hw rfl
  refine keeps_bind (follows_plain (.stay hfit.closed) hfit₂ himp nofun fun _ => rfl)
    (fun h₃ _ w₃ hfit₃ hw₃ => ?_) fun _ _ _ hfit hw => leaves_error hfit hw rfl
  have hno : l.imported = true → l.Importing := fun h => absurd h (by simp [hi])
  cases config with
  | none => exact follows_putBack hfit₃ hw₃ hno
  | some v =>
    exact keeps_bind (follows_plain (.stay hfit.closed) hfit₃ hno nofun fun _ => rfl)
      (fun _ _ _ hfit hw => follows_putBack hfit hw hno) fun _ _ _ hfit hw => leaves_error hfit hw rfl

/-! ### Restoring -/

/-- A restore that has ended before its node ran: the rest of the call is as it was. -/
def Undone (l' : Local) (l : Local) : Prop :=
  ∃ node imported, l = { l' with node, imported } ∧ l.Calm

theorem calm_of {i : Nat} {st : Stage} (hn : l.node = some (i, st)) (hst : st.starting = false) :
    l.Calm := by
  intro i' st' h'
  rw [hn] at h'
  cases h'
  exact hst

theorem unstarted_of {i : Nat} (hn : l.node = some (i, .built)) : l.Unstarted := by
  intro i' st' h'
  rw [hn] at h'
  cases h'
  rfl

/-- What a restore leaves up to its import. -/
abbrev Imports (j : Task) (l' : Local) : Ends Nat :=
  Leaves j (fun i l₁ _ => l₁ = { l' with node := some (i, .built), imported := true })
    fun l₁ _ => Undone l' l₁

/-- The import goes on if nothing is in its way, or what is may be overwritten. -/
theorem follows_choice {m : Code Nat} {Post : Ends Nat} {funded : Bool} (hfit : Fit j h l)
    (hw : Knows l w) (hread : MayRead j l) (himp : l.Importing) (hi : l.imported = false)
    (herr : ∀ h' e w', Fit j h' l → Knows l w' → Post h' (.error e) l w')
    (hm : ∀ h' w', Fit j h' l → (control fe hasFetcher).follows j m h' Post l w') (b : Bool) :
    (control fe hasFetcher).follows j
      (match restoreBlockReason false false (funded && !b) with
      | some funded => .fail funded
      | none => if b then clearStale.bind fun _ => m else m) h Post l w := by
  cases restoreBlockReason false false (funded && !b) with
  | some funded => exact herr _ _ _ hfit hw
  | none =>
    cases b with
    | true =>
      exact keeps_bind (follows_clearStale hfit hread himp hi) (fun h₄ _ w₄ hfit₄ _ => hm h₄ w₄ hfit₄) herr
    | false => exact hm h w hfit

theorem follows_restoreImport {env : Envelope} {secret : String} {l' : Local} (ha : Arrive l w l')
    (hfit : Fit j h l') (hr : l'.restore = true) (ho : l'.opened = true)
    (hi : l'.imported = false) (hnew : l'.Unstarted) :
    (control fe hasFetcher).follows j (restoreImport fe env secret) h (Imports j l') l w := by
  have hundone : Undone l' l' := ⟨_, _, rfl, hnew.calm⟩
  simp only [restoreImport, Proc.bind_eq, Proc.pure_eq]
  refine leaves_bind (follows_buildWallet ha hfit (fun _ _ => ho) hi hnew)
    (fun h₁ i₁ l₁ w₁ hfit₁ hw₁ hl₁ => ?_)
    fun _ _ _ _ hfit hw hl => leaves_error hfit hw (hl ▸ hundone)
  have hnew₁ : l₁.Unstarted := unstarted_of (by rw [hl₁])
  have hundone₁ : Undone l' l₁ := ⟨some (i₁, .built), l'.imported, hl₁, hnew₁.calm⟩
  have hread : MayRead j l₁ := fun _ _ => hl₁ ▸ ho
  have hi₁ : l₁.imported = false := hl₁ ▸ hi
  have himp₁ : l₁.Importing := ⟨hl₁ ▸ hr, hl₁ ▸ ho, i₁, hl₁ ▸ rfl⟩
  have herr : ∀ h' e w', Fit j h' l₁ → Knows l₁ w' → Imports j l' h' (.error e) l₁ w' :=
    fun _ _ _ hfit hw => leaves_error hfit hw hundone₁
  refine keeps_bind (follows_turn (.stay hfit₁.closed) hfit₁)
    (fun h₂ _ w₂ hfit₂ hw₂ => ?_) herr
  split
  · exact follows_fail hfit₂ hw₂ hundone₁
  refine keeps_bind (follows_getItem (.stay hfit₁.closed) hfit₂ hread)
    (fun h₃ target w₃ hfit₃ hw₃ => ?_) herr
  have himport : ∀ h' w', Fit j h' l₁ → (control fe hasFetcher).follows j
      ((ask (.turn true)).bind fun _ => (buildWallet fe).bind fun i =>
        (importState i env secret).bind fun _ => .done i) h' (Imports j l') l₁ w' := by
    intro h' w' hfit'
    refine keeps_bind (follows_turn (.stay hfit₁.closed) hfit')
      (fun h₄ _ w₄ hfit₄ _ => ?_) herr
    refine leaves_bind (follows_buildWallet (.stay hfit₁.closed) hfit₄ hread hi₁ hnew₁)
      (fun h₅ i l₅ w₅ hfit₅ hw₅ hl₅ => ?_)
      fun _ _ _ _ hfit hw hl => leaves_error hfit hw (hl ▸ hundone₁)
    have hl₅' : l₅ = { l' with node := some (i, .built) } := by rw [hl₅, hl₁]
    have himp : l₅.Importing := ⟨hl₅' ▸ hr, hl₅' ▸ ho, i, hl₅' ▸ rfl⟩
    refine leaves_bind (follows_importState hfit₅ hw₅ himp)
      (fun _ _ _ _ hfit hw hl => follows_done hfit hw (by rw [hl, hl₅']))
      fun _ _ _ _ hfit hw hl => leaves_error hfit hw ?_
    rcases hl with rfl | rfl
    · exact ⟨some (i, .built), l'.imported, hl₅', calm_of (by rw [hl₅']) rfl⟩
    · exact ⟨some (i, .built), true, by rw [hl₅'], calm_of (by rw [hl₅']) rfl⟩
  split
  · exact keeps_bind (follows_mayOverwrite hfit₃ hw₃ hread)
      (fun _ b _ hfit hw => follows_choice hfit hw hread himp₁ hi₁ herr himport b) herr
  · exact follows_choice hfit₃ hw₃ hread himp₁ hi₁ herr himport false


/-- The tail of a restore and of a start: the node that runs is returned. -/
theorem follows_finishStart (tail : Code Unit) (hfit : Fit j h l) (hread : MayRead j l)
    (htail : ∀ h' w', Fit j h' l → Knows l w' →
      (control fe hasFetcher).follows j tail h' (Keeps Unit j l) l w') :
    (control fe hasFetcher).follows j
      (applySweepAddress.bind fun _ => tail.bind fun _ => currentNode) h
      (Leaves j (fun i l' w' => l' = { l with result := some i } ∧
        (w'.instances i).isRunning = true) fun l' _ => l' = l) l w :=
  keeps_bind (follows_applySweepAddress hfit hread)
    (fun _ _ _ hfit₁ hw₁ => keeps_bind (htail _ _ hfit₁ hw₁)
      (fun _ _ _ hfit₂ hw₂ => follows_currentNode hfit₂ hw₂)
      fun _ _ _ hfit hw => leaves_error hfit hw rfl)
    fun _ _ _ hfit hw => leaves_error hfit hw rfl

/-- What a restore leaves. -/
abbrev Restores (j : Task) (l' : Local) : Ends Nat :=
  Leaves j (fun i l₁ w₁ => (w₁.instances i).isRunning = true ∧
      ∃ i', l₁ = { l' with node := some (i', .up), imported := true, result := some i })
    fun l₁ _ => Undone l' l₁

theorem follows_restoreBody {env : Envelope} {secret : String} {random : Seed} {l' : Local}
    (ha : Arrive l w l') (hfit : Fit j h l') (hr : l'.restore = true) (ho : l'.opened = true)
    (hi : l'.imported = false) (hnew : l'.Unstarted) :
    (control fe hasFetcher).follows j (restoreBody fe env secret random) h (Restores j l') l w := by
  simp only [restoreBody, Proc.bind_eq]
  refine leaves_bind (follows_restoreImport ha hfit hr ho hi hnew)
    (fun h₁ i l₁ w₁ hfit₁ hw₁ hl₁ => ?_) fun _ _ _ _ hfit hw hl => leaves_error hfit hw hl
  subst hl₁
  refine Control.follows_modify (.assign rfl ho) ?_
  have hfresh : w₁.instances i = {} := hw₁ i .built rfl (.inl rfl)
  refine leaves_bind (follows_start (hfit₁.node _) (fun _ _ => ho) rfl ?_)
    (fun h₂ _ l₂ w₂ hfit₂ hw₂ hl₂ => ?_)
    fun _ _ _ _ hfit hw hl => leaves_error hfit hw ?_
  · intro i' st hn _
    cases hn
    exact hfresh
  · subst hl₂
    have hrestored : ∀ {tail}, (∀ h' w', Fit j h' { l' with node := some (i, .up), imported := true } →
        Knows { l' with node := some (i, .up), imported := true } w' →
        (control fe hasFetcher).follows j tail h'
          (Keeps Unit j { l' with node := some (i, .up), imported := true })
          { l' with node := some (i, .up), imported := true } w') →
        (control fe hasFetcher).follows j
          (applySweepAddress.bind fun _ => tail.bind fun _ => currentNode) h₂ (Restores j l')
          { l' with node := some (i, .up), imported := true } w₂ := by
      intro tail htail
      refine (follows_finishStart tail hfit₂ (fun _ _ => ho) htail).mono fun h' r l₃ w₃ hr =>
        ⟨hr.1, hr.2.1, fun i' h => ?_, fun e h => ?_⟩
      · obtain ⟨rfl, hrun⟩ := hr.2.2.1 i' h
        exact ⟨hrun, i, rfl⟩
      · exact ⟨some (i, .up), true, hr.2.2.2 e h, hr.2.2.2 e h ▸ calm_of rfl rfl⟩
    cases fe with
    | pwa =>
      exact hrestored fun _ _ hfit' _ =>
        keeps_quietly (follows_turn (.stay hfit'.closed) hfit')
    | extension => exact @hrestored (.done ()) fun _ _ hfit' hw' => follows_done hfit' hw' rfl
  · obtain ⟨st, hst, rfl⟩ := hl
    refine ⟨some (i, st), true, rfl, calm_of rfl ?_⟩
    rcases hst with rfl | rfl <;> rfl

/-- A call may restore: it has done no restore yet, and is in its own start or in none. -/
structure MayRestore (j : Task) (l : Local) : Prop where
  restore : l.restore = false
  imported : l.imported = false
  unstarted : l.Unstarted
  opened : l.opened = l.promise.isSome
  outside : l.promise = none → l.node = none ∧ ∃ env secret, j.verb = .restoreWallet env secret

/-- What a restore leaves of the call around it. -/
structure Back (l l₁ : Local) : Prop where
  promise : l₁.promise = l.promise
  restore : l₁.restore = false
  opened : l₁.opened = l.opened
  stopping : l₁.stopping = l.stopping
  wrote : l₁.wrote = l.wrote
  calm : l₁.Calm
  node : l.promise = none → l₁.node = none

theorem Fit.endRestore {l' : Local} (hfit : Fit j h l') :
    Fit j h { l' with
      restore := false
      opened := l'.promise.isSome
      node := if l'.promise.isSome then l'.node else none } where
  closed := by
    rintro (hp | hr)
    · exact Option.isSome_iff_ne_none.mpr hp
    · cases hr
  restoring := nofun
  stopping := hfit.stopping
  wrote := hfit.wrote
  imported := hfit.imported

/-- The call around a restore when `restoring` is cleared. -/
theorem Back.endRestore {l' : Local} (hp : l'.promise = l.promise) (ho : l.opened = l.promise.isSome)
    (hs : l'.stopping = l.stopping) (hwr : l'.wrote = l.wrote) (hc : l'.Calm) :
    Back l { l' with
      restore := false
      opened := l'.promise.isSome
      node := if l'.promise.isSome then l'.node else none } where
  promise := hp
  restore := rfl
  opened := by rw [ho, hp]
  stopping := hs
  wrote := hwr
  calm := by
    intro i st hn
    simp only at hn
    split at hn
    · exact hc i st hn
    · cases hn
  node := fun h => by simp [hp, h]

theorem Knows.endRestore {l' : Local} (hw : Knows l' w) :
    Knows { l' with
      restore := false
      opened := l'.promise.isSome
      node := if l'.promise.isSome then l'.node else none } { w with restoring := false } := by
  intro i st hn hst
  simp only at hn
  split at hn
  · exact hw i st hn hst
  · cases hn

theorem follows_restoreWallet {env : Envelope} {secret : String} {random : Seed}
    (hfit : Fit j h l) (hw : Knows l w) (hl : MayRestore j l) :
    (control fe hasFetcher).follows j (restoreWallet fe env secret random) h
      (Leaves j (fun i l₁ w₁ => Back l l₁ ∧ l₁.result = some i ∧
        (w₁.instances i).isRunning = true) fun l₁ _ => Back l l₁) l w := by
  have hback : Back l l := ⟨rfl, hl.restore, rfl, rfl, rfl, hl.unstarted.calm, fun hp => (hl.outside hp).1⟩
  simp only [restoreWallet, Proc.bind_eq]
  refine Control.follows_get ?_
  cases hblock : restoreBlockReason w.wallet.isSome w.restoring false with
  | some reason => exact follows_fail hfit hw hback
  | none =>
    have hwallet : w.wallet = none := by
      cases hwallet : w.wallet with
      | none => rfl
      | some i => simp [hwallet, restoreBlockReason] at hblock
    have hrestoring : w.restoring = false := by
      cases hr : w.restoring with
      | false => rfl
      | true => simp [hwallet, hr, restoreBlockReason] at hblock
    refine Control.follows_modify (.beginRestore hwallet hrestoring hl.restore) ?_
    have ha : Arrive { l with restore := true } { w with restoring := true }
        { l with restore := true, opened := true } := by
      by_cases hp : l.promise = none
      · exact .openRestore rfl hp hwallet (hl.outside hp).1
      · have ho : l.opened = true := hl.opened.trans (Option.isSome_iff_ne_none.mpr hp)
        have hopen : { l with restore := true, opened := true } = { l with restore := true } := by
          rw [← ho]
        rw [hopen]
        exact .stay fun _ => ho
    have hfit' : Fit j h { l with restore := true, opened := true } :=
      ⟨fun _ => rfl, fun _ hp => (hl.outside hp).2, hfit.stopping, hfit.wrote, hfit.imported⟩
    have hbody : (control fe hasFetcher).follows j (restoreBody fe env secret random) h
        (Restores j { l with restore := true, opened := true }) { l with restore := true }
        { w with restoring := true } :=
      follows_restoreBody ha hfit' rfl rfl hl.imported hl.unstarted
    refine Control.follows_bind.mpr (Control.follows_attempt.mpr (hbody.mono fun h₁ r l₁ w₁ hr => ?_))
    obtain ⟨hfit₁, hw₁, hok, herr⟩ := hr
    have hend : Back l { l₁ with
        restore := false
        opened := l₁.promise.isSome
        node := if l₁.promise.isSome then l₁.node else none } ∧ l₁.restore = true ∧
          l₁.opened = true ∧ l₁.Calm := by
      cases r with
      | ok i =>
        obtain ⟨-, i', rfl⟩ := hok i rfl
        have hc : Local.Calm { l with
            restore := true, opened := true, node := some (i', .up), imported := true
            result := some i } := calm_of rfl rfl
        exact ⟨.endRestore rfl hl.opened rfl rfl hc, rfl, rfl, hc⟩
      | error e =>
        obtain ⟨node, imported, rfl, hc⟩ := herr e rfl
        exact ⟨.endRestore rfl hl.opened rfl rfl hc, rfl, rfl, hc⟩
    obtain ⟨hback₁, hr₁, ho₁, hc₁⟩ := hend
    refine Control.follows_modify (.endRestore hr₁ ho₁ hc₁) ?_
    cases r with
    | ok i =>
      obtain ⟨hrun, i', hl₁⟩ := hok i rfl
      exact follows_done hfit₁.endRestore hw₁.endRestore ⟨hback₁, by rw [hl₁], hrun⟩
    | error e => exact follows_fail hfit₁.endRestore hw₁.endRestore hback₁

/-! ### Starting -/

theorem follows_recordStateVersionMirror (hfit : Fit j h l) (hread : MayRead j l) :
    (control fe hasFetcher).follows j recordStateVersionMirror h (Keeps Unit j l) l w := by
  refine keeps_quietly ?_
  simp only [Proc.bind_eq, Proc.pure_eq]
  refine keeps_bind (follows_getItem (.stay hfit.closed) hfit hread)
    (fun h₁ raw w₁ hfit₁ hw₁ => ?_) fun _ _ _ hfit hw => leaves_error hfit hw rfl
  cases raw with
  | none => exact follows_done hfit₁ hw₁ rfl
  | some v =>
    have hkeeps : Keeps Unit j l h₁ (.ok ()) l
        { w₁ with mirror := nextMirrorValue (parseVersion (some v)) w₁.mirror } :=
      leaves_ok hfit₁ hw₁ rfl
    exact ⟨l, .record, hkeeps⟩

/-- What the recovery of a start leaves. -/
abbrev Recovers (j : Task) (l : Local) : Ends (Option Nat) :=
  Leaves j (fun recovered l₁ w₁ => (recovered = none → l₁ = l) ∧ ∀ i, recovered = some i →
      Back l l₁ ∧ l₁.result = some i ∧ (w₁.instances i).isRunning = true)
    fun l₁ _ => Back l l₁

theorem MayRestore.back (hl : MayRestore j l) : Back l l :=
  ⟨rfl, hl.restore, rfl, rfl, rfl, hl.unstarted.calm, fun hp => (hl.outside hp).1⟩

theorem follows_recovered {random : Seed} {envelope : Envelope} {s : Seed} {ahead : String}
    (hfit : Fit j h l) (hw : Knows l w) (hl : MayRestore j l) :
    (control fe hasFetcher).follows j
      (((restoreWallet fe envelope s random).rescue fun _ => .fail ahead).bind
        fun node => .done (some node)) h (Recovers j l) l w := by
  have hrestore : (control fe hasFetcher).follows j
      ((restoreWallet fe envelope s random).rescue fun _ => .fail ahead) h
      (Leaves j (fun i l₁ w₁ => Back l l₁ ∧ l₁.result = some i ∧
        (w₁.instances i).isRunning = true) fun l₁ _ => Back l l₁) l w :=
    leaves_rescue (follows_restoreWallet hfit hw hl)
      (fun _ _ _ _ hfit hw h => leaves_ok hfit hw h)
      fun _ _ _ _ hfit hw h => follows_fail hfit hw h
  refine leaves_bind hrestore (fun _ i l₁ w₁ hfit₁ hw₁ hl₁ => ?_)
    fun _ _ _ _ hfit hw h => leaves_error hfit hw h
  refine follows_done hfit₁ hw₁ ⟨nofun, ?_⟩
  rintro _ ⟨⟩
  exact hl₁

/-- What the decision leads to, whatever was fetched. -/
theorem follows_decision {version mirror : Nat} {seed : Option Value} (hfit : Fit j h l)
    (hw : Knows l w) (hl : MayRestore j l) (random : Seed) (fetched : Option Envelope) :
    (control fe hasFetcher).follows j (do
      let readable := fetched.filter fun e => (parseSeed seed).any e.opens
      match recoveryDecision version mirror (readable.map (·.stateVersion)) with
      | .proceed => pure none
      | .recover =>
        match readable, parseSeed seed with
        | some envelope, some s =>
          let node ← (restoreWallet fe envelope s random).rescue fun _ =>
            .fail (backupAheadErrorMsg version envelope.stateVersion)
          pure (some node)
        | _, _ => .fail (stateRollbackErrorMsg version mirror)
      | .halt => .fail (stateRollbackErrorMsg version mirror))
      h (Recovers j l) l w := by
  simp only
  split
  · exact follows_done hfit hw ⟨fun _ => rfl, fun _ hi => by cases hi⟩
  · split
    · exact follows_recovered hfit hw hl
    · exact follows_fail hfit hw hl.back
  · exact follows_fail hfit hw hl.back

theorem follows_recoverOrHalt {random : Seed} (hfit : Fit j h l) (hread : MayRead j l)
    (hl : MayRestore j l) :
    (control fe hasFetcher).follows j (recoverOrHalt fe hasFetcher random) h (Recovers j l) l w := by
  have hback : Back l l := hl.back
  simp only [recoverOrHalt, Proc.bind_eq, Proc.pure_eq]
  refine keeps_bind (follows_getItem (.stay hfit.closed) hfit hread)
    (fun h₁ localSeed w₁ hfit₁ _ => ?_) fun _ _ _ hfit hw => leaves_error hfit hw hback
  refine keeps_bind (follows_getItem (.stay hfit.closed) hfit₁ hread)
    (fun h₂ localRaw w₂ hfit₂ hw₂ => ?_) fun _ _ _ hfit hw => leaves_error hfit hw hback
  refine Control.follows_get ?_
  split
  · have hfetch : (control fe true).follows j
        ((ask .fetchBackup).rescue fun _ => .done none) h₂ (Keeps (Option Envelope) j l) l w₂ :=
      leaves_rescue (follows_plain (.stay hfit.closed) hfit₂ trivial nofun fun _ => rfl)
        (fun _ _ _ _ hfit hw h => leaves_ok hfit hw h)
        fun _ _ _ _ hfit hw h => follows_done hfit hw h
    refine keeps_bind hfetch (fun h₃ fetched w₃ hfit₃ hw₃ => ?_)
      fun _ _ _ hfit hw => leaves_error hfit hw hback
    cases fetched with
    | none => exact follows_decision hfit₃ hw₃ hl random none
    | some e =>
      exact keeps_bind (follows_turn (.stay hfit.closed) hfit₃)
        (fun _ _ _ hfit hw => follows_decision hfit hw hl random (some e))
        fun _ _ _ hfit hw => leaves_error hfit hw hback
  · exact follows_decision hfit₂ hw₂ hl random none

/-- What a start leaves of the call around it. -/
abbrev Runs (j : Task) (l : Local) : Ends Nat :=
  Leaves j (fun i l₁ w₁ => Back l l₁ ∧ l₁.result = some i ∧ (w₁.instances i).isRunning = true)
    fun l₁ _ => Back l l₁

theorem follows_startBuilt {i : Nat} {random : Seed}
    (hfit : Fit j h { l with node := some (i, .built) })
    (hw : Knows { l with node := some (i, .built) } w) (ho : l.opened = true)
    (hl : MayRestore j l) (hp : l.promise ≠ none) :
    (control fe hasFetcher).follows j (startBuilt fe i random) h (Runs j l)
      { l with node := some (i, .built) } w := by
  have hback : ∀ {node result}, Local.Calm { l with node, result } → Back l { l with node, result } :=
    fun hc => ⟨rfl, hl.restore, rfl, rfl, rfl, hc, fun h => absurd h hp⟩
  simp only [startBuilt, Proc.bind_eq]
  refine Control.follows_modify (.assign (m := w.mirror) rfl ho) ?_
  have hstart : (control fe hasFetcher).follows j
      ((start i random).rescue fun e =>
        (Proc.modify fun w => { w with wallet := none }).bind fun _ => .fail e) h
      (Leaves j (fun _ l₁ _ => l₁ = { l with node := some (i, .up) }) fun l₁ _ => Back l l₁)
      { l with node := some (i, .assigned) } { w with wallet := some i } := by
    refine leaves_rescue (follows_start (hfit.node _) (fun _ _ => ho) rfl ?_)
      (fun _ _ _ _ hfit hw hl => leaves_ok hfit hw hl) fun h₁ e l₁ w₁ hfit₁ hw₁ hl₁ => ?_
    · intro i' st hn _
      cases hn
      exact hw i .built rfl (.inl rfl)
    · obtain ⟨st, hst, rfl⟩ := hl₁
      refine Control.follows_modify (.unassign rfl hst ho) ?_
      exact follows_fail (hfit₁.node _) nofun (hback nofun)
  refine leaves_bind hstart (fun h₁ _ l₁ w₁ hfit₁ hw₁ hl₁ => ?_)
    fun _ _ _ _ hfit hw hl => leaves_error hfit hw hl
  subst hl₁
  have hfinish : ∀ {tail}, (∀ h' w', Fit j h' { l with node := some (i, .up) } →
      Knows { l with node := some (i, .up) } w' →
      (control fe hasFetcher).follows j tail h' (Keeps Unit j { l with node := some (i, .up) })
        { l with node := some (i, .up) } w') →
      (control fe hasFetcher).follows j
        (applySweepAddress.bind fun _ => tail.bind fun _ => currentNode) h₁ (Runs j l)
        { l with node := some (i, .up) } w₁ := by
    intro tail htail
    refine (follows_finishStart tail hfit₁ (fun _ _ => ho) htail).mono fun h' r l₃ w₃ hr =>
      ⟨hr.1, hr.2.1, fun i' h => ?_, fun e h => ?_⟩
    · obtain ⟨rfl, hrun⟩ := hr.2.2.1 i' h
      exact ⟨hback (calm_of rfl rfl), rfl, hrun⟩
    · exact hr.2.2.2 e h ▸ hback (calm_of rfl rfl)
  cases fe with
  | extension => exact @hfinish (.done ()) fun _ _ hfit' hw' => follows_done hfit' hw' rfl
  | pwa =>
    have htail := @hfinish (recordStateVersionMirror.bind fun _ => quietly (ask (.turn true)))
      fun h' w' hfit' hw' => keeps_bind (follows_recordStateVersionMirror hfit' fun _ _ => ho)
        (fun _ _ _ hfit'' _ =>
          keeps_quietly (follows_turn (.stay hfit'.closed) hfit''))
        fun _ _ _ hfit hw => leaves_error hfit hw rfl
    simpa only [Proc.bind_assoc] using htail

theorem follows_doStartNode {random : Seed} {l' : Local} (ha : Arrive l w l') (hfit : Fit j h l')
    (hl : MayRestore j l') (hp : l'.promise ≠ none) :
    (control fe hasFetcher).follows j (doStartNode fe hasFetcher random) h (Runs j l') l w := by
  have ho : l'.opened = true := hl.opened.trans (Option.isSome_iff_ne_none.mpr hp)
  have hread : MayRead j l' := fun _ _ => ho
  have hback : Back l' l' := hl.back
  have herr : ∀ h' e w', Fit j h' l' → Knows l' w' → Runs j l' h' (.error e) l' w' :=
    fun _ _ _ hfit hw => leaves_error hfit hw hback
  simp only [doStartNode, Proc.bind_eq, Proc.pure_eq]
  refine keeps_bind (follows_turn ha hfit) (fun h₁ _ w₁ hfit₁ _ => ?_) herr
  refine keeps_bind (follows_getItem (.stay hfit.closed) hfit₁ hread)
    (fun h₂ seed w₂ hfit₂ _ => ?_) herr
  refine keeps_bind (follows_getItem (.stay hfit.closed) hfit₂ hread)
    (fun h₃ manager w₃ hfit₃ _ => ?_) herr
  refine keeps_bind (follows_getItem (.stay hfit.closed) hfit₃ hread)
    (fun h₄ createdNew w₄ hfit₄ hw₄ => ?_) herr
  split
  · exact follows_fail hfit₄ hw₄ hback
  split
  · exact follows_fail hfit₄ hw₄ hback
  refine leaves_bind (follows_buildWallet (.stay hfit.closed) hfit₄ hread hl.imported hl.unstarted)
    (fun h₅ i l₅ w₅ hfit₅ hw₅ hl₅ => ?_) fun _ _ _ _ hfit hw hl => leaves_error hfit hw (hl ▸ hback)
  subst hl₅
  have hl₅ : MayRestore j { l' with node := some (i, .built) } :=
    ⟨hl.restore, hl.imported, unstarted_of rfl, hl.opened, fun h => absurd h hp⟩
  have hout : ∀ {l₁}, Back { l' with node := some (i, .built) } l₁ → Back l' l₁ :=
    fun h => ⟨h.promise, h.restore, h.opened, h.stopping, h.wrote, h.calm, fun h' => absurd h' hp⟩
  cases fe with
  | extension => exact follows_startBuilt hfit₅ hw₅ ho hl hp
  | pwa =>
    refine leaves_bind (follows_recoverOrHalt hfit₅ hread hl₅) (fun h₆ recovered l₆ w₆ hfit₆ hw₆ hl₆ => ?_)
      fun _ _ _ _ hfit hw hl => leaves_error hfit hw (hout hl)
    cases recovered with
    | some node =>
      obtain ⟨hb, hres, hrun⟩ := hl₆.2 node rfl
      exact follows_done hfit₆ hw₆ ⟨hout hb, hres, hrun⟩
    | none =>
      obtain rfl := hl₆.1 rfl
      exact follows_startBuilt hfit₆ hw₆ ho hl hp

/-- What a method that starts leaves. -/
structure Rested (l l₁ : Local) : Prop where
  quiet : l₁.Quiet
  stopping : l₁.stopping = l.stopping
  wrote : l₁.wrote = l.wrote

theorem follows_startNode {random : Seed} (hfit : Fit j h l) (hw : Knows l w) (hq : l.Quiet)
    (hi : l.imported = false) (hs : l.stopping = none) :
    (control fe hasFetcher).follows j (startNode fe hasFetcher random) h
      (Leaves j (fun i l₁ _ => Rested l l₁ ∧ l₁.result = some i) fun l₁ _ => Rested l l₁) l w := by
  have hrested : Rested l l := ⟨hq, rfl, rfl⟩
  simp only [startNode, Proc.bind_eq]
  refine Control.follows_get ?_
  cases hp : w.startingPromise with
  | some p =>
    refine follows_ask (.wait hq hp) ⟨hfit.closed, hfit.restoring, hfit.stopping, hfit.wrote,
      hfit.imported⟩ ⟨rfl, hs⟩ nofun fun h' r w₃ hfit' hw' => ?_
    have hq' : ∀ {waiting result}, Rested l { l with waiting, result } :=
      ⟨⟨hq.promise, hq.restore, hq.opened, hq.node⟩, rfl, rfl⟩
    cases r with
    | ok i => exact leaves_ok hfit' hw' ⟨hq', rfl⟩
    | error e => exact leaves_error hfit' hw' hq'
  | none =>
    simp only
    split
    · refine (follows_currentNode hfit hw).mono fun h' r l₁ w₁ hr =>
        ⟨hr.1, hr.2.1, fun i h => ?_, fun e h => ?_⟩
      · obtain ⟨rfl, -⟩ := hr.2.2.1 i h
        exact ⟨⟨⟨hq.promise, hq.restore, hq.opened, hq.node⟩, rfl, rfl⟩, rfl⟩
      · exact hr.2.2.2 e h ▸ hrested
    · rename_i hrun
      have hrun : w.isRunning = false := by simpa using hrun
      refine Control.follows_modify (.beginStart hp hrun hq) ?_
      have ha : Arrive { l with promise := some w.promises }
          { w with startingPromise := some w.promises, promises := w.promises + 1 }
          { l with promise := some w.promises, opened := true } :=
        .openStart (Option.some_ne_none _) hq.restore hrun hq.node
      have hfit' : Fit j h { l with promise := some w.promises, opened := true } :=
        ⟨fun _ => rfl, nofun, hfit.stopping, hfit.wrote, hfit.imported⟩
      have hmay : MayRestore j { l with promise := some w.promises, opened := true } := by
        refine ⟨hq.restore, hi, fun i st hn => ?_, rfl, nofun⟩
        have : some (i, st) = none := hn.symm.trans hq.node
        cases this
      refine Control.follows_bind.mpr (Control.follows_attempt.mpr
        ((follows_doStartNode ha hfit' hmay (Option.some_ne_none _)).mono fun h₁ r l₁ w₁ hr => ?_))
      obtain ⟨hfit₁, hw₁, hok, herr⟩ := hr
      have hback : Back { l with promise := some w.promises, opened := true } l₁ := by
        cases r with
        | ok i => exact (hok i rfl).1
        | error e => exact herr e rfl
      have hsettle : Sync l₁ w₁ { l₁ with promise := none, opened := false, node := none }
          { w₁ with startingPromise := none, settled := (w.promises, r) :: w₁.settled } := by
        refine .settle hback.promise hback.restore hback.calm fun i hri => ?_
        subst hri
        exact (hok i rfl).2.2
      refine Control.follows_modify hsettle ?_
      have hrested : Rested l { l₁ with promise := none, opened := false, node := none } :=
        ⟨⟨rfl, hback.restore, rfl, rfl⟩, hback.stopping, hback.wrote⟩
      have hfit₂ : Fit j h₁ { l₁ with promise := none, opened := false, node := none } := by
        refine ⟨?_, fun hr => ?_, hfit₁.stopping, hfit₁.wrote, hfit₁.imported⟩
        · rintro (hp | hr)
          · exact absurd rfl hp
          · exact absurd (hback.restore.symm.trans hr) Bool.false_ne_true
        · exact absurd (hback.restore.symm.trans hr) Bool.false_ne_true
      cases r with
      | ok i => exact follows_done hfit₂ nofun ⟨hrested, (hok i rfl).2.1⟩
      | error e => exact follows_fail hfit₂ nofun hrested

theorem follows_autoStart {flag unreachable : Bool} {random : Seed} (hfit : Fit j [] l)
    (hq : l.Quiet) (hi : l.imported = false) (hs : l.stopping = none)
    (hverb : j.verb = .autoStart flag unreachable) :
    (control fe hasFetcher).follows j (autoStart fe flag hasFetcher unreachable random) []
      (Leaves j (fun _ l₁ _ => l₁.Quiet) fun l₁ _ => l₁.Quiet) l w := by
  have herr : ∀ {β : Type} {ok : β → Local → Page → Prop} h' e w', Fit j h' l → Knows l w' →
      Leaves j ok (fun l₁ _ => l₁.Quiet) h' (.error e) l w' :=
    fun _ _ _ hfit hw => leaves_error hfit hw hq
  have hearly : ∀ {h' : History}, h'.length < 5 → ¬ Begun j h' := by
    intro h' hlen hbegun
    simp only [Begun, hverb] at hbegun
    omega
  refine leaves_quietly ?_
  simp only [Proc.bind_eq, Proc.pure_eq]
  refine early_bind hfit trivial (fun _ => rfl) (hearly (by simp)) (fun e₁ _ w₁ hfit₁ _ => ?_) herr
  refine early_bind hfit₁ trivial (fun _ => rfl) (hearly (by simp)) (fun e₂ manager w₂ hfit₂ _ => ?_) herr
  refine early_bind hfit₂ trivial (fun _ => rfl) (hearly (by simp)) (fun e₃ seed w₃ hfit₃ _ => ?_) herr
  refine early_bind hfit₃ trivial (fun _ => rfl) (hearly (by simp))
    (fun e₄ createdNew w₄ hfit₄ hw₄ => ?_) herr
  have hstart : ∀ h' w' (deferred : Bool), Fit j h' l → Knows l w' →
      (control fe hasFetcher).follows j
        (if !deferred then (startNode fe hasFetcher random).bind fun _ => ask (.turn true)
          else .done ()) h' (Leaves j (fun _ l₁ _ => l₁.Quiet) fun l₁ _ => l₁.Quiet) l w' := by
    intro h' w' deferred hfit' hw'
    split
    · refine leaves_bind (follows_startNode hfit' hw' hq hi hs) (fun h₅ _ l₅ w₅ hfit₅ _ hl₅ => ?_)
        fun _ _ _ _ hfit hw hl => leaves_error hfit hw hl.quiet
      have hquiet := hl₅.1.quiet
      exact keeps_leaves (follows_turn (.stay hfit₅.closed) hfit₅)
        (fun _ _ => hquiet) fun _ => hquiet
    · exact follows_done hfit' hw' hq
  split
  · cases fe with
    | extension => exact hstart _ _ false hfit₄ hw₄
    | pwa =>
      refine early_bind hfit₄ trivial (fun _ => rfl) (hearly (by simp))
        (fun e₅ localRaw w₅ hfit₅ hw₅ => ?_) herr
      exact Control.follows_get (hstart _ _ _ hfit₅ hw₅)
  · exact follows_done hfit₄ hw₄ hq

/-! ### The other methods -/

/-- Code that ends by clearing `this.wallet`. -/
theorem follows_leave {i : Nat} (hfit : Fit j h l) (hq : l.Quiet)
    (hs : l.stopping = some (some i) ∨ l.stopping = some none ∧ w.wallet = some i)
    (hrun : (w.instances i).isRunning = false) :
    (control fe hasFetcher).follows j (.modify fun w => { w with wallet := none }) h
      (Leaves j (fun _ l₁ _ => l₁.Quiet) fun l₁ _ => l₁.Quiet) l w := by
  have hw : Knows l { w with wallet := none } := by
    intro i st hn
    rw [hq.node] at hn
    cases hn
  have hend : Leaves j (fun (_ : Unit) l₁ _ => l₁.Quiet) (fun l₁ _ => l₁.Quiet) h (.ok ()) l
      { w with wallet := none } := leaves_ok hfit hw hq
  exact ⟨l, .leave hq hs hrun, hend⟩

theorem isRunning_setWallet {i : Nat} {f : Wallet → Wallet} (hf : ∀ x, (f x).isRunning = false) :
    ((w.setWallet i f).instances i).isRunning = false := by
  by_cases hi : i < w.wallets.length
  · rw [Page.instances_setWallet w i i f hi, if_pos rfl]
    exact hf _
  · simp [Page.instances, Page.setWallet, List.getD_eq_getElem?_getD,
      List.getElem?_eq_none (Nat.not_lt.mp hi)]

theorem follows_stop {i : Nat} (hfit : Fit j h l) (hq : l.Quiet) (hs : l.stopping = some none)
    (hwallet : w.wallet = some i) :
    (control fe hasFetcher).follows j
      ((stop i).bind fun _ => .modify fun w => { w with wallet := none }) h
      (Leaves j (fun _ l₁ _ => l₁.Quiet) fun l₁ _ => l₁.Quiet) l w := by
  simp only [stop, Proc.bind_eq, Proc.pure_eq, Proc.bind_assoc]
  refine Control.follows_get ?_
  by_cases hrun : (w.instances i).isRunning = true
  · simp only [hrun, Bool.not_true, Bool.false_eq_true, if_false, Proc.bind_assoc]
    refine Control.follows_modify (.beginStop hq hs hwallet hrun) ?_
    have hq' : Local.Quiet { l with stopping := some (some i) } :=
      ⟨hq.promise, hq.restore, hq.opened, hq.node⟩
    have hfit' : Fit j h { l with stopping := some (some i) } :=
      ⟨hfit.closed, hfit.restoring, fun _ => hfit.stopping (by simp [hs]), hfit.wrote, hfit.imported⟩
    refine quietly_bind (follows_turn (.stay hfit'.closed) hfit')
      fun h₁ w₁ hfit₁ _ => ?_
    refine quietly_bind (follows_plain (.stay hfit'.closed) hfit₁ rfl nofun fun _ => rfl)
      fun h₂ w₂ hfit₂ _ => ?_
    refine quietly_bind (follows_turn (.stay hfit'.closed) hfit₂)
      fun h₃ w₃ hfit₃ _ => ?_
    refine Control.follows_modify (.endStop hq' rfl) ?_
    exact follows_leave hfit₃ hq' (.inl rfl) (isRunning_setWallet fun _ => rfl)
  · have hrun : (w.instances i).isRunning = false := by simpa using hrun
    simp only [hrun, Bool.not_false, if_true, Proc.bind]
    exact follows_leave hfit hq (.inr ⟨hs, hwallet⟩) hrun

/-- `stopNode` from its check on. -/
theorem follows_check (hfit : Fit j h l) (hw : Knows l w) (hq : l.Quiet)
    (hverb : j.verb = .stopNode) :
    (control fe hasFetcher).follows j (do
      let w ← .get
      match w.wallet with
      | none => pure ()
      | some _ =>
        quietly (ask (.turn true))
        let w ← .get
        match w.wallet with
        | none => .fail "Cannot read properties of undefined"
        | some i =>
          stop i
          .modify fun w => { w with wallet := none }) h
      (Leaves j (fun _ l₁ _ => l₁.Quiet) fun l₁ _ => l₁.Quiet) l w := by
  simp only [Proc.bind_eq, Proc.pure_eq]
  refine Control.follows_get ?_
  cases w.wallet with
  | none => exact follows_done hfit hw hq
  | some i₀ =>
    have hq' : Local.Quiet { l with stopping := some none } :=
      ⟨hq.promise, hq.restore, hq.opened, hq.node⟩
    have hfit' : Fit j h { l with stopping := some none } :=
      ⟨hfit.closed, hfit.restoring, fun _ => hverb, hfit.wrote, hfit.imported⟩
    refine quietly_bind (follows_turn (.check hq) hfit')
      fun h₁ w₁ hfit₁ hw₁ => ?_
    refine Control.follows_get ?_
    cases hwallet : w₁.wallet with
    | none => exact follows_fail hfit₁ hw₁ hq'
    | some i => exact follows_stop hfit₁ hq' rfl hwallet

theorem follows_stopNode (hfit : Fit j h l) (hw : Knows l w) (hq : l.Quiet)
    (hs : l.stopping = none) (hverb : j.verb = .stopNode) :
    (control fe hasFetcher).follows j stopNode h
      (Leaves j (fun _ l₁ _ => l₁.Quiet) fun l₁ _ => l₁.Quiet) l w := by
  simp only [stopNode, Proc.bind_eq]
  refine Control.follows_get ?_
  cases hp : w.startingPromise with
  | none => exact follows_check hfit hw hq hverb
  | some p =>
    have hwait : (control fe hasFetcher).follows j (ask (.started p)) h
        (Leaves j (fun _ l₁ _ => l₁.Quiet) fun l₁ _ => l₁.Quiet) l w := by
      refine follows_ask (.wait hq hp) ⟨hfit.closed, hfit.restoring, hfit.stopping, hfit.wrote,
        hfit.imported⟩ ⟨rfl, hs⟩ nofun fun h' r w₃ hfit' hw' => ?_
      have hq' : ∀ {waiting result}, Local.Quiet { l with waiting, result } :=
        ⟨hq.promise, hq.restore, hq.opened, hq.node⟩
      cases r with
      | ok i => exact leaves_ok hfit' hw' hq'
      | error e => exact leaves_error hfit' hw' hq'
    exact leaves_bind (leaves_quietly hwait)
      (fun _ _ _ _ hfit hw hq => follows_check hfit hw hq hverb)
      fun _ _ _ _ hfit hw hq => leaves_error hfit hw hq

theorem follows_createWallet {opts : SeedOption} {drawn random : Seed} (hfit : Fit j [] l)
    (hq : l.Quiet) (hi : l.imported = false) (hs : l.stopping = none)
    (hverb : j.verb = .createWallet opts drawn) :
    (control fe hasFetcher).follows j (createWallet fe opts drawn hasFetcher random) []
      (Leaves j (fun _ l₁ _ => l₁.Quiet) fun l₁ _ => l₁.Quiet) l w := by
  have herr : ∀ h' e w', Fit j h' l → Knows l w' →
      Leaves j (fun (_ : Unit) l₁ _ => l₁.Quiet) (fun l₁ _ => l₁.Quiet) h' (.error e) l w' :=
    fun _ _ _ hfit hw => leaves_error hfit hw hq
  have hcreate : ∀ h' w' s, Fit j h' l → (control fe hasFetcher).follows j (do
      ask (.setItem .ldkSeed (.seed s))
      ask (.setItem .walletCreatedNew (.text "1"))
      let node ← startNode fe hasFetcher random
      ask (.resolved s node)) h'
      (Leaves j (fun _ l₁ _ => l₁.Quiet) fun l₁ _ => l₁.Quiet) l w' := by
    intro h' w' s hfit'
    simp only [Proc.bind_eq]
    have hseed : (control fe hasFetcher).follows j (ask (.setItem .ldkSeed (.seed s))) h'
        (Leaves j (fun _ l₁ _ => l₁ = { l with wrote := some s, waiting := none, result := none })
          fun l₁ _ => l₁ = l) l w' := by
      refine follows_ask (.stay hfit.closed) hfit' ⟨⟨s, rfl⟩, .inr ⟨hi, hq.restore, _, _, hverb⟩⟩
        nofun fun h₁ r w₁ hfit₁ hw₁ => ?_
      cases r with
      | ok _ =>
        refine leaves_ok hfit₁ hw₁ (if_neg ?_)
        rw [hq.restore]
        exact Bool.false_ne_true
      | error e => exact leaves_error hfit₁ hw₁ rfl
    refine leaves_bind hseed (fun h₁ _ l₁ w₁ hfit₁ _ hl₁ => ?_)
      fun _ _ _ _ hfit hw hl => leaves_error hfit hw (hl ▸ hq)
    subst hl₁
    have hq₁ : Local.Quiet { l with wrote := some s, waiting := none, result := none } :=
      ⟨hq.promise, hq.restore, hq.opened, hq.node⟩
    have hnew : At j { l with wrote := some s, waiting := none, result := none }
        (.setItem .walletCreatedNew (.text "1")) :=
      fun h => absurd (hi.symm.trans h) Bool.false_ne_true
    refine keeps_bind (follows_plain (.stay hfit₁.closed) hfit₁ hnew nofun fun _ => rfl)
      (fun h₂ _ w₂ hfit₂ hw₂ => ?_) fun _ _ _ hfit hw => leaves_error hfit hw hq₁
    refine leaves_bind (follows_startNode hfit₂ hw₂ hq₁ hi hs) (fun h₃ i l₃ w₃ hfit₃ _ hl₃ => ?_)
      fun _ _ _ _ hfit hw hl => leaves_error hfit hw hl.quiet
    have hquiet := hl₃.1.quiet
    exact keeps_leaves (follows_plain (.stay hfit₃.closed) hfit₃ ⟨hl₃.1.wrote, hl₃.2⟩ nofun fun _ => rfl)
      (fun _ _ => hquiet) fun _ => hquiet
  have hearly : ∀ {h' : History}, h'.length < 5 → ¬ Begun j h' := by
    intro h' hlen hbegun
    simp only [Begun, hverb] at hbegun
    omega
  simp only [createWallet, Proc.bind_eq]
  refine early_bind hfit trivial (fun _ => rfl) (hearly (by simp)) (fun e₁ _ w₁ hfit₁ _ => ?_) herr
  refine early_bind hfit₁ trivial (fun _ => rfl) (hearly (by simp))
    (fun e₂ manager w₂ hfit₂ hw₂ => ?_) herr
  split
  · exact follows_fail hfit₂ hw₂ hq
  cases opts with
  | malformed => exact follows_fail hfit₂ hw₂ hq
  | absent => exact hcreate _ _ _ hfit₂
  | given s => exact hcreate _ _ _ hfit₂

theorem follows_mirror (hfit : Fit j h l) (hw : Knows l w) (hread : MayRead j l) :
    (control fe hasFetcher).follows j
      (match fe with
      | .pwa => recordStateVersionMirror
      | .extension => .done ()) h (Keeps Unit j l) l w := by
  cases fe with
  | pwa => exact follows_recordStateVersionMirror hfit hread
  | extension => exact follows_done hfit hw rfl

theorem follows_onStateChanged (hfit : Fit j h l) (hread : MayRead j l) :
    (control fe hasFetcher).follows j (onStateChanged fe) h (Keeps Unit j l) l w := by
  simp only [onStateChanged, Proc.bind_eq, Proc.pure_eq]
  refine keeps_bind (follows_getItem (.stay hfit.closed) hfit hread)
    (fun h₁ manager w₁ hfit₁ hw₁ => ?_) fun _ _ _ hfit hw => leaves_error hfit hw rfl
  split
  · exact keeps_bind (follows_plain (.stay hfit.closed) hfit₁ rfl nofun fun _ => rfl)
      (fun _ _ _ hfit hw => follows_mirror hfit hw hread) fun _ _ _ hfit hw => leaves_error hfit hw rfl
  · exact follows_mirror hfit₁ hw₁ hread

/-- Every method follows the control. -/
theorem follows_code {random : Seed} (hw : Knows {} w) :
    (control fe hasFetcher).follows j (code fe hasFetcher random j.verb) []
      ((control fe hasFetcher).ends j) {} w := by
  have hfit : Fit j [] {} := by
    refine ⟨?_, nofun, fun h => absurd rfl h, nofun, by simp⟩
    rintro (h | h)
    · exact absurd rfl h
    · cases h
  have hq : Local.Quiet {} := ⟨rfl, rfl, rfl, rfl⟩
  have hends : ∀ {p : Code Unit}, (control fe hasFetcher).follows j p []
      (Leaves j (fun _ l₁ _ => l₁.Quiet) fun l₁ _ => l₁.Quiet) {} w →
      (control fe hasFetcher).follows j p [] ((control fe hasFetcher).ends j) {} w := by
    intro p hp
    refine hp.mono fun h' r l' w' hr => ?_
    have hquiet : l'.Quiet := by
      cases r with
      | ok a => exact hr.2.2.1 a rfl
      | error e => exact hr.2.2.2 e rfl
    exact Arrive.finish hquiet
  cases hverb : j.verb with
  | createWallet opts drawn =>
    simp only [code]
    exact hends (follows_createWallet hfit hq rfl rfl hverb)
  | startNode =>
    simp only [code, Proc.bind_eq, Proc.pure_eq]
    refine hends ?_
    exact leaves_bind (follows_startNode hfit hw hq rfl rfl)
      (fun _ _ _ _ hfit hw hl => follows_done hfit hw hl.1.quiet)
      fun _ _ _ _ hfit hw hl => leaves_error hfit hw hl.quiet
  | autoStart flag unreachable =>
    simp only [code]
    exact hends (follows_autoStart hfit hq rfl rfl hverb)
  | stopNode =>
    simp only [code]
    exact hends (follows_stopNode hfit hw hq rfl hverb)
  | restoreWallet envelope secret =>
    have hquiet : ∀ {l₁}, Back {} l₁ → l₁.Quiet := fun h => ⟨h.promise, h.restore, h.opened, h.node rfl⟩
    have hmay : MayRestore j {} := ⟨rfl, rfl, nofun, rfl, fun _ => ⟨rfl, _, _, hverb⟩⟩
    simp only [code, Proc.bind_eq, Proc.pure_eq]
    refine hends ?_
    exact leaves_bind (follows_restoreWallet hfit hw hmay)
      (fun _ _ _ _ hfit hw hl => follows_done hfit hw (hquiet hl.1))
      fun _ _ _ _ hfit hw hl => leaves_error hfit hw (hquiet hl)
  | onStateChanged =>
    simp only [code]
    have hread : MayRead j {} := by
      intro h' hbegun
      simp only [Begun, hverb] at hbegun
    exact hends (keeps_leaves (follows_onStateChanged hfit hread) (fun _ _ => hq) fun _ => hq)

theorem admits : (control fe hasFetcher).Admits := by
  intro e w w' called he
  cases e with
  | call verb random =>
    simp only [lifecycle, effect, Option.some.injEq, Prod.mk.injEq] at he
    obtain ⟨rfl, rfl⟩ := he
    refine ⟨Nat.le_refl _, fun j p hjp => ?_⟩
    cases hjp
    exact ⟨rfl, fun w'' hw => follows_code hw⟩
  | persist i k bytes version =>
    simp only [lifecycle, effect] at he
    split at he
    · simp only [Option.map_eq_some_iff, Prod.mk.injEq] at he
      obtain ⟨v, -, rfl, rfl⟩ := he
      exact ⟨Nat.le_refl _, nofun⟩
    · cases he
  | reload =>
    cases he
    exact ⟨Nat.le_succ _, nofun⟩

end Follows

end LibreWallet.Lifecycle
