import LibreWallet.Async.Control
import LibreWallet.Lifecycle.Verbs

/-
  Lifecycle/Control.lean --- what a call knows while it runs.

  Which instance it built and how far its start has come, whether it set
  `startingPromise` or `restoring`, whether it is past the check of `stopNode`, and which
  seed it stored.  The control says how each piece of synchronous code and each request
  may change this together with the page, and the rules of one request say what a call
  has to show for it.
-/

set_option autoImplicit false

namespace LibreWallet.Lifecycle

open Async Controller

/-! ## Control states -/

/-- How far the instance of a call has come. -/
inductive Stage where
  | built
  /-- `this.wallet` refers to it. -/
  | assigned
  /-- Its start holds the lock. -/
  | locked
  /-- Its start has found no seed. -/
  | blank
  | loaded (s : Seed)
  /-- It has been running. -/
  | up
  /-- Its start failed and was torn down. -/
  | finished
  deriving DecidableEq

/-- Between taking the lock and running. -/
def Stage.starting : Stage → Bool
  | .locked | .blank | .loaded _ => true
  | _ => false

structure Local where
  node : Option (Nat × Stage) := none
  /-- The start that the call made. -/
  promise : Option Nat := none
  /-- It set `restoring`. -/
  restore : Bool := false
  /-- It stands at an `await` of its start or of its restore. -/
  opened : Bool := false
  /-- The start that it waits for. -/
  waiting : Option Nat := none
  /-- It is past the check of `stopNode`, and stops an instance. -/
  stopping : Option (Option Nat) := none
  /-- The seed that `createWallet` stored. -/
  wrote : Option Seed := none
  /-- `importState` has begun. -/
  imported : Bool := false
  /-- The node that its start returned. -/
  result : Option Nat := none

namespace Local

/-- Its instance is not between taking the lock and running. -/
def Calm (l : Local) : Prop := ∀ i st, l.node = some (i, st) → st.starting = false

/-- It has no instance, or one that is not started yet. -/
def Unstarted (l : Local) : Prop := ∀ i st, l.node = some (i, st) → st = .built

theorem Unstarted.calm {l : Local} (h : l.Unstarted) : l.Calm := by
  intro i st hn
  obtain rfl := h i st hn
  rfl

/-- Its start and its restore are open once it stands. -/
def Closed (l : Local) : Prop := l.promise ≠ none ∨ l.restore = true → l.opened = true

/-- It is in no start and no restore. -/
structure Quiet (l : Local) : Prop where
  promise : l.promise = none
  restore : l.restore = false
  opened : l.opened = false
  node : l.node = none

end Local

/-- An instance that its call has not started yet is untouched. -/
def Knows (l : Local) (w : Page) : Prop :=
  ∀ i st, l.node = some (i, st) → st = .built ∨ st = .assigned → w.instances i = {}

/-! ## What synchronous code does -/

inductive Sync : Local → Page → Local → Page → Prop where
  | stay {l : Local} {w : Page} : Sync l w l w
  /-- `currentNode` -/
  | found {l : Local} {w : Page} {i : Nat} : w.wallet = some i →
      (w.instances i).isRunning = true → Sync l w { l with result := some i } w
  | build {l : Local} {w : Page} : l.Unstarted →
      Sync l w { l with node := some (w.wallets.length, .built) }
        { w with wallets := w.wallets ++ [{}] }
  | assign {l : Local} {w : Page} {i m : Nat} : l.node = some (i, .built) → l.opened = true →
      Sync l w { l with node := some (i, .assigned) } { w with wallet := some i, mirror := m }
  | unassign {l : Local} {w : Page} {i : Nat} {st : Stage} : l.node = some (i, st) →
      st = .assigned ∨ st = .finished → l.opened = true →
      Sync l w { l with node := none } { w with wallet := none }
  | manage {l : Local} {w : Page} {i : Nat} {s : Seed} : l.node = some (i, .loaded s) →
      Sync l w l (w.setWallet i fun x => { x with managed := true })
  | run {l : Local} {w : Page} {i : Nat} {s : Seed} : l.node = some (i, .loaded s) →
      Sync l w { l with node := some (i, .up) }
        (w.setWallet i fun x => { x with isRunning := true })
  | tearDown {l : Local} {w : Page} {i : Nat} {st : Stage} : l.node = some (i, st) →
      st.starting = true ∨ st = .up → Sync l w { l with node := some (i, .finished) } (tornDown i w)
  | record {l : Local} {w : Page} {m : Nat} : Sync l w l { w with mirror := m }
  | beginStart {l : Local} {w : Page} : w.startingPromise = none → w.isRunning = false →
      l.Quiet →
      Sync l w { l with promise := some w.promises }
        { w with startingPromise := some w.promises, promises := w.promises + 1 }
  | settle {l : Local} {w : Page} {p : Nat} {r : Except String Nat} : l.promise = some p →
      l.restore = false → l.Calm → (∀ i, r = .ok i → (w.instances i).isRunning = true) →
      Sync l w { l with promise := none, opened := false, node := none }
        { w with startingPromise := none, settled := (p, r) :: w.settled }
  | beginRestore {l : Local} {w : Page} : w.wallet = none → w.restoring = false →
      l.restore = false → Sync l w { l with restore := true } { w with restoring := true }
  | endRestore {l : Local} {w : Page} : l.restore = true → l.opened = true → l.Calm →
      Sync l w
        { l with
          restore := false
          opened := l.promise.isSome
          node := if l.promise.isSome then l.node else none }
        { w with restoring := false }
  | beginStop {l : Local} {w : Page} {i : Nat} : l.Quiet → l.stopping = some none →
      w.wallet = some i → (w.instances i).isRunning = true →
      Sync l w { l with stopping := some (some i) }
        (w.setWallet i fun x => { x with releaseRunLock := false })
  | endStop {l : Local} {w : Page} {i : Nat} {lock : Option Nat} : l.Quiet →
      l.stopping = some (some i) →
      Sync l w l
        { w.setWallet i fun x => { x with managed := false, isRunning := false } with
          runLock := lock }
  | leave {l : Local} {w : Page} {i : Nat} : l.Quiet →
      l.stopping = some (some i) ∨ l.stopping = some none ∧ w.wallet = some i →
      (w.instances i).isRunning = false → Sync l w l { w with wallet := none }

/-- Where synchronous code ends. -/
inductive Arrive : Local → Page → Local → Prop where
  | stay {l : Local} {w : Page} : l.Closed → Arrive l w l
  | openStart {l : Local} {w : Page} : l.promise ≠ none → l.restore = false →
      w.isRunning = false → l.node = none → Arrive l w { l with opened := true }
  | openRestore {l : Local} {w : Page} : l.restore = true → l.promise = none →
      w.wallet = none → l.node = none → Arrive l w { l with opened := true }
  | wait {l : Local} {w : Page} {p : Nat} : l.Quiet → w.startingPromise = some p →
      Arrive l w { l with waiting := some p }
  | check {l : Local} {w : Page} : l.Quiet → Arrive l w { l with stopping := some none }
  | finish {l : Local} {w : Page} : l.Quiet → Arrive l w {}

/-! ## What requests do -/

/-- The stage after the stored seed was read. -/
def stageOf : Option Seed → Stage
  | some s => .loaded s
  | none => .blank

/-- The control state after a request. -/
def after (l : Local) : (q : Request) → Except String (Answer q) → Local
  | .setItem .ldkSeed v, .ok _ =>
    if l.restore then l else { l with wrote := parseSeed (some v), waiting := none, result := none }
  | .removeItem .monitorHighwater, _ => { l with imported := true }
  | .acquireRunLock i, .ok true => { l with node := some (i, .locked) }
  | .loadSeed i, .ok v => { l with node := some (i, stageOf (parseSeed v)) }
  | .storeSeed i s, .ok _ => { l with node := some (i, .loaded s) }
  | .started _, .ok i => { l with waiting := none, result := some i }
  | .started _, .error _ => { l with waiting := none }
  | _, _ => l

/-- An import is under way: its restore is open, and its instance not started. -/
def Local.Importing (l : Local) : Prop :=
  l.restore = true ∧ l.opened = true ∧ ∃ i, l.node = some (i, .built)

/-- Which requests a call can stand at. -/
def At (j : Task) (l : Local) : Request → Prop
  | .setItem .ldkSeed v => (∃ s, v = .seed s) ∧
      (l.Importing ∨ l.imported = false ∧ l.restore = false ∧
        ∃ opts drawn, j.verb = .createWallet opts drawn)
  | .setItem .channelManager v => (∃ s bytes, v = .manager s bytes) ∧ l.Importing
  | .setItem _ _ => l.imported = true → l.Importing
  | .removeItem .monitorHighwater => l.Importing
  | .removeItem k => k = .walletCreatedNew
  | .clear => l.Importing
  | .started p => l.waiting = some p ∧ l.stopping = none
  | .acquireRunLock i => l.node = some (i, .assigned)
  | .loadSeed i => l.node = some (i, .locked)
  | .storeSeed i _ => l.node = some (i, .blank)
  | .persistManager i => l.stopping = some (some i)
  | .resolved s i => l.wrote = some s ∧ l.result = some i
  | _ => True

abbrev History := List (Entry Page Request Answer String)

/-- What the method and the requests of a call say of its control state. -/
structure Fit (j : Task) (h : History) (l : Local) : Prop where
  closed : l.Closed
  restoring : l.restore = true → l.promise = none → ∃ env secret, j.verb = .restoreWallet env secret
  stopping : l.stopping ≠ none → j.verb = .stopNode
  wrote : ∀ s, l.wrote = some s → (∃ opts drawn, j.verb = .createWallet opts drawn) ∧
    ∃ e ∈ h, e.request = .setItem .ldkSeed (.seed s) ∧ e.answer.isOk = true
  imported : l.imported = false → ∀ e ∈ h, e.request ≠ .removeItem .monitorHighwater

/-- A call of `stopNode` has found a wallet: it made, or makes, another request than to
wait for a start. -/
def PastCheck (h : History) (q : Option Request) : Prop :=
  (∃ e ∈ h, ∀ p, e.request ≠ .started p) ∨ ∃ r, q = some r ∧ ∀ p, r ≠ .started p

/-- A read of the network's database. -/
def Request.reads : Request → Bool
  | .getItem _ | .loadSeed _ => true
  | _ => false

/-- What a call reads now, it reads in a start: `createWallet` and `autoStart` have made
five requests before a start of theirs reads. -/
def Begun (j : Task) (h : History) : Prop :=
  match j.verb with
  | .startNode => True
  | .createWallet _ _ | .autoStart _ _ => 5 ≤ h.length
  | _ => False

/-- Where a call stands. -/
structure Stand (j : Task) (h : History) (l : Local) (q : Option Request) : Prop where
  fit : Fit j h l
  asks : ∀ r, q = some r → At j l r
  past : l.stopping ≠ none → PastCheck h q
  reads : ∀ r, q = some r → r.reads = true → Begun j h → l.opened = true

/-! ## The control -/

theorem session_exec {q : Request} {c : Choice} {w w' : Page} {r : Except String (Answer q)}
    (he : exec q c w = some (r, w')) : w'.session = w.session := by
  cases q with
  | started p =>
    simp only [exec, Option.map_eq_some_iff] at he
    obtain ⟨_, -, he⟩ := he
    cases he
    rfl
  | _ =>
    simp only [exec, Option.some.injEq] at he
    (repeat' split at he) <;> cases he <;> rfl

theorem session_sync {l l' : Local} {w w' : Page} (hs : Sync l w l' w') :
    w'.session = w.session := by
  cases hs <;> rfl

theorem runs_iff (fe : Frontend) (hasFetcher : Bool) (j : Task) (w : Page) :
    (lifecycle fe hasFetcher).runs j w = true ↔ j.session = w.session :=
  decide_eq_true_iff

/-- What the calls on a page do. -/
def control (fe : Frontend) (hasFetcher : Bool) : Control (lifecycle fe hasFetcher) Local where
  idle := {}
  know := Knows
  sync := fun _ => Sync
  act := fun _ l q r _ l' _ => l' = after l q r
  arrive := fun _ => Arrive
  stand := Stand
  sync_refl := fun _ _ _ => .stay
  age := Page.session
  birth := Task.session
  runs_iff := runs_iff fe hasFetcher
  age_exec := session_exec
  age_sync := session_sync

/-! ## The rules of one request -/

section Follows

variable {fe : Frontend} {hasFetcher : Bool} {j : Task} {h : History} {l : Local} {w : Page}
  {α β : Type}

abbrev Ends (α : Type) := History → Except String α → Local → Page → Prop

/-- A request leaves alone what only synchronous code changes. -/
theorem after_kept (l : Local) (q : Request) (r : Except String (Answer q)) :
    (after l q r).promise = l.promise ∧ (after l q r).restore = l.restore ∧
      (after l q r).opened = l.opened ∧ (after l q r).stopping = l.stopping := by
  unfold after
  split <;> try split
  all_goals exact ⟨rfl, rfl, rfl, rfl⟩

theorem after_wrote {q : Request} {r : Except String (Answer q)} {s : Seed}
    (hs : (after l q r).wrote = some s) :
    l.wrote = some s ∨
      (∃ v, q = .setItem .ldkSeed v ∧ parseSeed (some v) = some s) ∧ r.isOk = true ∧
        l.restore = false := by
  unfold after at hs
  split at hs
  · rename_i v _
    split at hs
    · exact .inl hs
    · rename_i hrestore
      exact .inr ⟨⟨v, rfl, hs⟩, rfl, by simpa using hrestore⟩
  all_goals exact .inl hs

theorem after_imported {q : Request} {r : Except String (Answer q)}
    (hi : (after l q r).imported = false) :
    l.imported = false ∧ q ≠ .removeItem .monitorHighwater := by
  unfold after at hi
  split at hi
  · split at hi <;> exact ⟨hi, by simp⟩
  · cases hi
  · exact ⟨hi, by simp⟩
  · exact ⟨hi, by simp⟩
  · exact ⟨hi, by simp⟩
  · exact ⟨hi, by simp⟩
  · exact ⟨hi, by simp⟩
  · rename_i hne _ _ _ _ _
    refine ⟨hi, ?_⟩
    rintro rfl
    exact hne _ rfl HEq.rfl

theorem Fit.after {q : Request} {r : Except String (Answer q)} (hfit : Fit j h l) (hat : At j l q)
    (w₁ : Page) : Fit j (⟨q, r, w₁⟩ :: h) (after l q r) := by
  obtain ⟨hp, hr, ho, hst⟩ := after_kept l q r
  refine ⟨?_, ?_, ?_, fun s hs => ?_, fun hi => ?_⟩
  · rw [Local.Closed, hp, hr, ho]
    exact hfit.closed
  · rw [hp, hr]
    exact hfit.restoring
  · rw [hst]
    exact hfit.stopping
  · rcases after_wrote hs with hs | ⟨⟨v, rfl, hv⟩, hok, hrestore⟩
    · obtain ⟨hverb, e, he, hreq⟩ := hfit.wrote s hs
      exact ⟨hverb, e, List.mem_cons_of_mem _ he, hreq⟩
    · obtain ⟨⟨s', rfl⟩, himp | ⟨-, -, hverb⟩⟩ := hat
      · rw [himp.1] at hrestore
        cases hrestore
      · cases hv
        exact ⟨hverb, _, List.mem_cons_self, rfl, hok⟩
  · obtain ⟨hi, hne⟩ := after_imported hi
    rintro e (_ | ⟨_, he⟩)
    · exact hne
    · exact hfit.imported hi e he

/-- A call that is past its check waits for no start. -/
theorem ne_started_of_at {q : Request} (hat : At j l q) (hs : l.stopping ≠ none) :
    ∀ p, q ≠ .started p := by
  rintro p rfl
  exact hs hat.2

/-- A request from a control state that the call keeps until then. -/
theorem follows_asked {q : Request} {l' : Local} {Post : Ends (Answer q)} (ha : Arrive l w l')
    (hfit : Fit j h l') (hat : At j l' q) (hread : q.reads = true → Begun j h → l'.opened = true)
    (hk : ∀ r w₁ w₃, Fit j (⟨q, r, w₁⟩ :: h) (after l' q r) → Knows (after l' q r) w₃ →
      Post (⟨q, r, w₁⟩ :: h) r (after l' q r) w₃) :
    (control fe hasFetcher).follows j (ask q) h Post l w := by
  refine Control.follows_request ha ⟨hfit, ?_, fun hs => .inr ⟨q, rfl, ne_started_of_at hat hs⟩, ?_⟩
    fun w₁ c r w₂ hw he => ?_
  · rintro _ ⟨⟩
    exact hat
  · rintro _ ⟨⟩
    exact hread
  · refine ⟨_, rfl, ⟨hfit.after hat w₁, by simp, fun hs => .inl ⟨_, List.mem_cons_self, ?_⟩, nofun⟩,
      fun w₃ hw₃ => hk _ _ _ (hfit.after hat w₁) hw₃⟩
    exact ne_started_of_at hat ((after_kept l' q r).2.2.2 ▸ hs)

theorem follows_ask {q : Request} {l' : Local} {Post : Ends (Answer q)} (ha : Arrive l w l')
    (hfit : Fit j h l') (hat : At j l' q) (hread : q.reads = true → Begun j h → l'.opened = true)
    (hk : ∀ h' r w₃, Fit j h' (after l' q r) → Knows (after l' q r) w₃ →
      Post h' r (after l' q r) w₃) :
    (control fe hasFetcher).follows j (ask q) h Post l w :=
  follows_asked ha hfit hat hread fun r _ w₃ => hk _ r w₃

/-- What a piece of code leaves: `ok` of its result, or `err`. -/
def Leaves (j : Task) (ok : α → Local → Page → Prop) (err : Local → Page → Prop) : Ends α :=
  fun h r l w => Fit j h l ∧ Knows l w ∧ (∀ a, r = .ok a → ok a l w) ∧ ∀ e, r = .error e → err l w

/-- It leaves the control state `l`. -/
abbrev Keeps (α : Type) (j : Task) (l : Local) : Ends α :=
  Leaves j (fun _ l' _ => l' = l) fun l' _ => l' = l

theorem leaves_bind {p : Code α} {g : α → Code β} {ok : α → Local → Page → Prop}
    {err : Local → Page → Prop} {Post : Ends β}
    (hp : (control fe hasFetcher).follows j p h (Leaves j ok err) l w)
    (hok : ∀ h' a l' w', Fit j h' l' → Knows l' w' → ok a l' w' →
      (control fe hasFetcher).follows j (g a) h' Post l' w')
    (herr : ∀ h' e l' w', Fit j h' l' → Knows l' w' → err l' w' → Post h' (.error e) l' w') :
    (control fe hasFetcher).follows j (p.bind g) h Post l w :=
  hp.bind (fun h' a l' w' hr => hok h' a l' w' hr.1 hr.2.1 (hr.2.2.1 a rfl))
    fun h' e l' w' hr => herr h' e l' w' hr.1 hr.2.1 (hr.2.2.2 e rfl)

theorem leaves_rescue {p : Code α} {g : String → Code α} {ok : α → Local → Page → Prop}
    {err : Local → Page → Prop} {Post : Ends α}
    (hp : (control fe hasFetcher).follows j p h (Leaves j ok err) l w)
    (hok : ∀ h' a l' w', Fit j h' l' → Knows l' w' → ok a l' w' → Post h' (.ok a) l' w')
    (herr : ∀ h' e l' w', Fit j h' l' → Knows l' w' → err l' w' →
      (control fe hasFetcher).follows j (g e) h' Post l' w') :
    (control fe hasFetcher).follows j (p.rescue g) h Post l w :=
  hp.rescue (fun h' a l' w' hr => hok h' a l' w' hr.1 hr.2.1 (hr.2.2.1 a rfl))
    fun h' e l' w' hr => herr h' e l' w' hr.1 hr.2.1 (hr.2.2.2 e rfl)

theorem leaves_ok {a : α} {ok : α → Local → Page → Prop} {err : Local → Page → Prop}
    (hfit : Fit j h l) (hw : Knows l w) (h' : ok a l w) : Leaves j ok err h (.ok a) l w :=
  ⟨hfit, hw, fun _ heq => Except.ok.inj heq ▸ h', nofun⟩

theorem leaves_error {e : String} {ok : α → Local → Page → Prop} {err : Local → Page → Prop}
    (hfit : Fit j h l) (hw : Knows l w) (h' : err l w) : Leaves j ok err h (.error e) l w :=
  ⟨hfit, hw, nofun, fun _ _ => h'⟩

theorem follows_done {a : α} {ok : α → Local → Page → Prop} {err : Local → Page → Prop}
    (hfit : Fit j h l) (hw : Knows l w) (h' : ok a l w) :
    (control fe hasFetcher).follows j (.done a) h (Leaves j ok err) l w :=
  leaves_ok hfit hw h'

theorem follows_fail {e : String} {ok : α → Local → Page → Prop} {err : Local → Page → Prop}
    (hfit : Fit j h l) (hw : Knows l w) (h' : err l w) :
    (control fe hasFetcher).follows j (.fail e) h (Leaves j ok err) l w :=
  leaves_error hfit hw h'

/-- A request that says nothing about the call. -/
theorem follows_plain {q : Request} {l' : Local} (ha : Arrive l w l') (hfit : Fit j h l')
    (hat : At j l' q) (hread : q.reads = true → Begun j h → l'.opened = true)
    (hafter : ∀ r, after l' q r = l') :
    (control fe hasFetcher).follows j (ask q) h (Keeps (Answer q) j l') l w := by
  refine follows_ask ha hfit hat hread fun h' r w₃ hfit' hw => ?_
  rw [hafter r] at hfit' hw ⊢
  exact ⟨hfit', hw, fun _ _ => rfl, fun _ _ => rfl⟩

theorem follows_turn {mayFail : Bool} {l' : Local} (ha : Arrive l w l') (hfit : Fit j h l') :
    (control fe hasFetcher).follows j (ask (.turn mayFail)) h (Keeps Unit j l') l w :=
  follows_plain ha hfit trivial nofun fun _ => rfl

/-- Whatever the call has requested, it may read now. -/
def MayRead (j : Task) (l : Local) : Prop := ∀ h, Begun j h → l.opened = true

/-- A read of one key. -/
theorem follows_getItem {k : Key} {l' : Local} (ha : Arrive l w l') (hfit : Fit j h l')
    (hread : MayRead j l') :
    (control fe hasFetcher).follows j (ask (.getItem k)) h (Keeps (Option Value) j l') l w :=
  follows_plain ha hfit trivial (fun _ => hread h) fun _ => rfl

/-- A piece of code that keeps the control state, and then more code. -/
theorem keeps_bind {p : Code α} {g : α → Code β} {l' : Local} {Post : Ends β}
    (hp : (control fe hasFetcher).follows j p h (Keeps α j l') l w)
    (hok : ∀ h' a w', Fit j h' l' → Knows l' w' →
      (control fe hasFetcher).follows j (g a) h' Post l' w')
    (herr : ∀ h' e w', Fit j h' l' → Knows l' w' → Post h' (.error e) l' w') :
    (control fe hasFetcher).follows j (p.bind g) h Post l w :=
  leaves_bind hp (fun h' a l₁ w' hfit hw hl => by subst hl; exact hok h' a w' hfit hw)
    fun h' e l₁ w' hfit hw hl => by subst hl; exact herr h' e w' hfit hw

/-- A request that a call makes before a start of its own, and then more code. -/
theorem early_bind {q : Request} {g : Answer q → Code β} {Post : Ends β} (hfit : Fit j h l)
    (hat : At j l q) (hafter : ∀ r, after l q r = l) (hearly : ¬ Begun j h)
    (hok : ∀ entry a w', Fit j (entry :: h) l → Knows l w' →
      (control fe hasFetcher).follows j (g a) (entry :: h) Post l w')
    (herr : ∀ h' e w', Fit j h' l → Knows l w' → Post h' (.error e) l w') :
    (control fe hasFetcher).follows j ((ask q).bind g) h Post l w := by
  refine Control.follows_bind.mpr (follows_asked (.stay hfit.closed) hfit hat
    (fun _ hbegun => absurd hbegun hearly) fun r w₁ w₃ hfit' hw' => ?_)
  rw [hafter r] at hfit' hw' ⊢
  cases r with
  | ok a => exact hok _ a w₃ hfit' hw'
  | error e => exact herr _ e w₃ hfit' hw'

/-- A piece of code that keeps the control state, at the end. -/
theorem keeps_leaves {p : Code α} {l' : Local} {ok : α → Local → Page → Prop}
    {err : Local → Page → Prop}
    (hp : (control fe hasFetcher).follows j p h (Keeps α j l') l w)
    (hok : ∀ a w', ok a l' w') (herr : ∀ w', err l' w') :
    (control fe hasFetcher).follows j p h (Leaves j ok err) l w := by
  refine hp.mono fun h' r l₁ w' hr => ⟨hr.1, hr.2.1, fun a ha => ?_, fun e he => ?_⟩
  · exact hr.2.2.1 a ha ▸ hok a w'
  · exact hr.2.2.2 e he ▸ herr w'

/-- Code whose errors are only logged, and then more code. -/
theorem quietly_bind {p : Code α} {g : Unit → Code β} {l' : Local} {Post : Ends β}
    (hp : (control fe hasFetcher).follows j p h (Keeps α j l') l w)
    (hok : ∀ h' w', Fit j h' l' → Knows l' w' →
      (control fe hasFetcher).follows j (g ()) h' Post l' w') :
    (control fe hasFetcher).follows j ((quietly p).bind g) h Post l w := by
  simp only [quietly, Proc.bind_eq, Proc.pure_eq]
  refine Control.follows_bind.mpr (Control.follows_bind.mpr (Control.follows_attempt.mpr
    (hp.mono fun h' r l₁ w' hr => ?_)))
  obtain ⟨hfit, hw, ha, he⟩ := hr
  have hl : l₁ = l' := by
    cases r with
    | ok a => exact ha a rfl
    | error e => exact he e rfl
  subst hl
  exact hok h' w' hfit hw

theorem leaves_quietly {p : Code α} {K : Local → Prop}
    (hp : (control fe hasFetcher).follows j p h
      (Leaves j (fun _ l' _ => K l') fun l' _ => K l') l w) :
    (control fe hasFetcher).follows j (quietly p) h
      (Leaves j (fun _ l' _ => K l') fun l' _ => K l') l w := by
  refine Control.follows_bind.mpr (Control.follows_attempt.mpr (hp.mono fun h' r l₁ w' hr => ?_))
  obtain ⟨hfit, hw, hok, herr⟩ := hr
  refine follows_done hfit hw ?_
  cases r with
  | ok a => exact hok a rfl
  | error e => exact herr e rfl

theorem keeps_quietly {p : Code α} {l' : Local}
    (hp : (control fe hasFetcher).follows j p h (Keeps α j l') l w) :
    (control fe hasFetcher).follows j (quietly p) h (Keeps Unit j l') l w :=
  leaves_quietly hp

end Follows

end LibreWallet.Lifecycle
