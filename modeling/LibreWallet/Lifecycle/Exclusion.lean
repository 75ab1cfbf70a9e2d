import LibreWallet.Lifecycle.Ownership

/-
  Lifecycle/Exclusion.lean --- starts and restores exclude each other.

  Three fields keep them apart, and no method looks at all three: `restoreWallet` checks
  `this.wallet` and `restoring` but not `startingPromise`, `startNode` does not check
  `restoring`, and `stopNode` waits for a start but not for a restore.  Where the calls
  are orderly none of this shows; where a restore meets a start before `this.wallet` is
  assigned, the import overwrites what the start has read.
-/

set_option autoImplicit false

namespace LibreWallet.Lifecycle

open Async Controller

/-! ## The vocabulary -/

/-- The instance holds its lock, has a channel manager or runs. -/
def Wallet.active (x : Wallet) : Bool := x.releaseRunLock || x.managed || x.isRunning

/-- The task of a call on this page that has not ended. -/
def underWay (c : PageConfig) (n : Nat) : Option Task :=
  match c.pool[n]? with
  | some (_, .done _) | some (_, .fail _) | none => none
  | some (j, _) => if j.session = c.world.session then some j else none

/-- The request that a call on this page awaits. -/
def asks (c : PageConfig) (n : Nat) : Option Request :=
  if (underWay c n).isSome then (c.awaits n).map Prod.snd else none

/-- Instance `i` is starting, which begins with its lock, or running. -/
def Active (c : PageConfig) (i : Nat) : Prop :=
  (c.world.instances i).active = true ∨ ∃ n, asks c n = some (.acquireRunLock i)

/-- Call `n` is in `importState`, from its first write to its last. -/
def WritesImport (c : PageConfig) (n : Nat) : Prop :=
  asks c n = some (.removeItem .monitorHighwater) ∨
    (∃ k v, asks c n = some (.setItem k v)) ∧
      ∃ e ∈ c.history n, e.request = .removeItem .monitorHighwater

/-- Call `n` reads the database in a start of its own. -/
def ReadsInStart (c : PageConfig) (n : Nat) : Prop :=
  ∃ j q, underWay c n = some j ∧ asks c n = some q ∧ q.reads = true ∧ Begun j (c.history n)

/-- Starts and restores exclude each other, and `stopNode` reaches what runs. -/
structure Exclusive (c : PageConfig) : Prop where
  alone : ∀ n, WritesImport c n → ∀ i, ¬ Active c i
  unread : ∀ n, WritesImport c n → ∀ m, ¬ ReadsInStart c m
  referred : ∀ i, Active c i → c.world.wallet = some i

/-- A request to wait for a start. -/
def Request.waits : Request → Bool
  | .started _ => true
  | _ => false

/-- Call `n`, of `stopNode`, is past its wait: it has found a wallet. -/
def pastCheck (c : PageConfig) (n : Nat) : Bool :=
  ((c.history n).any fun e => !e.request.waits) || (c.awaits n).any fun x => !x.2.waits

/-- What call `n` allows: a `restoreWallet` no start, a `stopNode` that has found a wallet
neither a start nor a restore. -/
def orderlyCall (c : PageConfig) (n : Nat) : Bool :=
  match (underWay c n).map Task.verb with
  | some (.restoreWallet _ _) => c.world.startingPromise.isNone
  | some .stopNode =>
    !pastCheck c n || (c.world.startingPromise.isNone && !c.world.restoring)
  | _ => true

/-- No restore overlaps a start, and no stop either. -/
def orderly (c : PageConfig) : Bool := (List.range c.pool.length).all (orderlyCall c)

/-! ## What exclusion says of the calls -/

/-- Of one call. -/
structure Holds (l : Local) (w : Page) : Prop where
  opens : l.opened = true → l.promise ≠ none ∨ l.restore = true
  node : ∀ i st, l.node = some (i, st) → st ≠ .built → l.opened = true ∧ w.wallet = some i
  up : ∀ i, l.node = some (i, .up) → (w.instances i).isRunning = true
  finished : ∀ i, l.node = some (i, .finished) → (w.instances i).active = false
  /-- Before its instance is started no other is. -/
  blank : l.opened = true → l.Unstarted → ∀ i, (w.instances i).active = false
  closed : l.stopping ≠ none → l.opened = false
  stopped : ∀ i, l.stopping = some (some i) →
    (w.wallet = some i ∨ w.wallet = none) ∧ (w.instances i).releaseRunLock = false

/-- Of two calls. -/
structure Excludes (l o : Local) : Prop where
  opened : l.opened = true → o.opened = false
  stopping : l.stopping ≠ none → o.opened = false

/-- In every configuration of an orderly run. -/
structure Excluded (w : Page) (locals : Nat → Local) : Prop where
  owned : Owned w locals
  calls : Control.Together Holds Excludes w locals
  referred : ∀ i, (w.instances i).active = true → w.wallet = some i
  /-- Outside of starts and restores only a running instance is active. -/
  idle : (∀ n, (locals n).opened = false) → ∀ i, (w.instances i).active = true →
    (w.instances i).isRunning = true

variable {l l' o : Local} {w w' : Page} {locals : Nat → Local} {n i : Nat}

theorem Wallet.active_of_isRunning {x : Wallet} (h : x.isRunning = true) : x.active = true := by
  simp [Wallet.active, h]

theorem Holds.of_eq (h : Holds o w) (hi : w'.instances = w.instances) (hw : w'.wallet = w.wallet) :
    Holds o w' :=
  ⟨h.opens, hw ▸ h.node, hi ▸ h.up, hi ▸ h.finished, hi ▸ h.blank, h.closed, hi ▸ hw ▸ h.stopped⟩

/-- `Holds` speaks of five fields only. -/
theorem Holds.of_local (h : Holds l w) (hn : l'.node = l.node) (hp : l'.promise = l.promise)
    (hr : l'.restore = l.restore) (ho : l'.opened = l.opened) (hs : l'.stopping = l.stopping) :
    Holds l' w := by
  have hun : l'.Unstarted → l.Unstarted := fun hu i st hi => hu i st (hn.trans hi)
  refine ⟨?_, ?_, hn ▸ h.up, hn ▸ h.finished, ?_, ?_, hs ▸ h.stopped⟩
  · rw [ho, hp, hr]
    exact h.opens
  · rw [hn, ho]
    exact h.node
  · rw [ho]
    exact fun hopen hu => h.blank hopen (hun hu)
  · rw [hs, ho]
    exact h.closed

/-- A call outside of its start and its restore has no instance that is started. -/
theorem Holds.unstarted (h : Holds l w) (ho : l.opened = false) : l.Unstarted := by
  intro i st hn
  by_contra hst
  rw [(h.node i st hn hst).1] at ho
  cases ho

/-- Such a call depends on little of the page. -/
theorem Holds.of_closed (ho : l.opened = false) (hn : l.Unstarted)
    (hs : ∀ i, l.stopping = some (some i) →
      (w.wallet = some i ∨ w.wallet = none) ∧ (w.instances i).releaseRunLock = false) : Holds l w where
  opens := fun h => absurd (ho.symm.trans h) Bool.false_ne_true
  node := fun i st h hst => absurd (hn i st h) hst
  up := fun i h => absurd (hn i _ h) nofun
  finished := fun i h => absurd (hn i _ h) nofun
  blank := fun h => absurd (ho.symm.trans h) Bool.false_ne_true
  closed := fun _ => ho
  stopped := hs

/-- A call in its start or restore whose instance is not started. -/
theorem Holds.of_unstarted (ho : l.promise ≠ none ∨ l.restore = true) (hn : l.Unstarted)
    (hblank : ∀ i, (w.instances i).active = false) (hs : l.stopping = none) : Holds l w where
  opens := fun _ => ho
  node := fun i st h hst => absurd (hn i st h) hst
  up := fun i h => absurd (hn i _ h) nofun
  finished := fun i h => absurd (hn i _ h) nofun
  blank := fun _ _ => hblank
  closed := fun h => absurd hs h
  stopped := fun _ h => absurd (hs.symm.trans h) nofun

/-- A call in its start or restore whose instance is started. -/
theorem Holds.of_started {st : Stage} (ho : l.promise ≠ none ∨ l.restore = true)
    (hopened : l.opened = true) (hn : l.node = some (i, st)) (hst : st ≠ .built)
    (hw : w.wallet = some i) (hup : st = .up → (w.instances i).isRunning = true)
    (hover : st = .finished → (w.instances i).active = false) (hs : l.stopping = none) : Holds l w where
  opens := fun _ => ho
  node := by
    intro i' st' h _
    rw [hn] at h
    cases h
    exact ⟨hopened, hw⟩
  up := by
    intro i' h
    rw [hn] at h
    cases h
    exact hup rfl
  finished := by
    intro i' h
    rw [hn] at h
    cases h
    exact hover rfl
  blank := fun _ h => absurd (h i st hn) hst
  closed := fun h => absurd hs h
  stopped := fun _ h => absurd (hs.symm.trans h) nofun

namespace Excluded

/-- In a start or a restore no other call is in one, and none stops. -/
theorem stopping_of_opened (h : Excluded w locals) (ho : (locals n).opened = true) :
    (locals n).stopping = none := by
  by_contra hs
  rw [(h.calls.mine n).closed hs] at ho
  cases ho

/-- Whoever stops, no call is in a start or a restore. -/
theorem opened_of_stopping (h : Excluded w locals) (hs : (locals n).stopping ≠ none) (m : Nat) :
    (locals m).opened = false := by
  by_cases hm : m = n
  · rw [hm]
    exact (h.calls.mine n).closed hs
  · exact (h.calls.apart n m (Ne.symm hm)).stopping hs

/-- A step that leaves the instances and `this.wallet`, and what the call is in. -/
theorem kept (h : Excluded w locals) (howned : Owned w' (Function.update locals n l'))
    (hmine : Holds l' w') (ho : l'.opened = (locals n).opened)
    (hs : l'.stopping = (locals n).stopping) (hi : w'.instances = w.instances)
    (hw : w'.wallet = w.wallet) : Excluded w' (Function.update locals n l') where
  owned := howned
  calls := h.calls.update n hmine fun o hmine' hno hon =>
    ⟨hmine'.of_eq hi hw, ⟨ho ▸ hno.opened, hs ▸ hno.stopping⟩, ⟨ho ▸ hon.opened, ho ▸ hon.stopping⟩⟩
  referred := by
    rw [hi, hw]
    exact h.referred
  idle := by
    intro hall
    rw [hi]
    refine h.idle fun m => ?_
    have := hall m
    by_cases hm : m = n
    · subst hm
      rwa [Function.update_self, ho] at this
    · rwa [Function.update_of_ne hm] at this

/-- A step of the call that is in its start or its restore. -/
theorem move (h : Excluded w locals) (ho : (locals n).opened = true)
    (howned : Owned w' (Function.update locals n l')) (hmine : Holds l' w') (ho' : l'.opened = true)
    (href : ∀ i, (w'.instances i).active = true → w'.wallet = some i) :
    Excluded w' (Function.update locals n l') where
  owned := howned
  calls := h.calls.update n hmine fun o hmine' hno hon => by
    have hclosed : o.opened = false := hno.opened ho
    have hstop : o.stopping = none := by
      by_contra hs
      exact absurd ((hon.stopping hs).symm.trans ho) Bool.false_ne_true
    refine ⟨.of_closed hclosed (hmine'.unstarted hclosed) fun i hi => ?_, ⟨fun _ => hclosed, fun _ => hclosed⟩,
      ⟨fun h' => ?_, fun hs => absurd hstop hs⟩⟩
    · exact absurd (hstop.symm.trans hi) nofun
    · exact absurd (hclosed.symm.trans h') Bool.false_ne_true
  referred := href
  idle := fun hall => by
    have := hall n
    rw [Function.update_self, ho'] at this
    cases this

/-- A step of a call that stops. -/
theorem stop (h : Excluded w locals) (hs : (locals n).stopping ≠ none)
    (howned : Owned w' (Function.update locals n l')) (hmine : Holds l' w') (ho : l'.opened = false)
    (hothers : ∀ o i, Holds o w → o.stopping = some (some i) →
      (w'.wallet = some i ∨ w'.wallet = none) ∧ (w'.instances i).releaseRunLock = false)
    (href : ∀ i, (w'.instances i).active = true → w'.wallet = some i)
    (hidle : ∀ i, (w'.instances i).active = true → (w'.instances i).isRunning = true) :
    Excluded w' (Function.update locals n l') where
  owned := howned
  calls := h.calls.update n hmine fun o hmine' hno hon => by
    have hclosed : o.opened = false := hno.stopping hs
    refine ⟨.of_closed hclosed (hmine'.unstarted hclosed) fun i hi => hothers o i hmine' hi,
      ⟨fun _ => hclosed, fun _ => hclosed⟩, ⟨fun _ => ho, fun _ => ho⟩⟩
  referred := href
  idle := fun _ => hidle

/-- A start or a restore ends. -/
theorem shut (h : Excluded w locals) (howned : Owned w' (Function.update locals n l'))
    (hn : l'.node = none) (ho : l'.opened = false) (hs : l'.stopping = (locals n).stopping)
    (hc : (locals n).Calm) (hi : w'.instances = w.instances) (hw : w'.wallet = w.wallet) :
    Excluded w' (Function.update locals n l') where
  owned := howned
  calls := by
    have hmine : Holds l' w' := by
      refine .of_closed ho (fun i st hn' => absurd (hn.symm.trans hn') nofun) ?_
      rw [hi, hw, hs]
      exact (h.calls.mine n).stopped
    exact h.calls.update n hmine fun o hmine' hno hon =>
      ⟨hmine'.of_eq hi hw, ⟨fun h' => absurd (ho.symm.trans h') Bool.false_ne_true, hs ▸ hno.stopping⟩,
        ⟨fun _ => ho, fun _ => ho⟩⟩
  referred := by
    rw [hi, hw]
    exact h.referred
  idle := by
    intro hall i hact
    rw [hi] at hact ⊢
    have hothers : ∀ m, m ≠ n → (locals m).opened = false := by
      intro m hm
      have := hall m
      rwa [Function.update_of_ne hm] at this
    cases hopen : (locals n).opened with
    | false =>
      refine h.idle (fun m => ?_) i hact
      by_cases hm : m = n
      · rw [hm, hopen]
      · exact hothers m hm
    | true =>
      -- what is active is the instance of this call, and its start is over
      cases hnode : (locals n).node with
      | none =>
        have hun : (locals n).Unstarted := fun i st hn' => absurd (hnode.symm.trans hn') nofun
        rw [(h.calls.mine n).blank hopen hun i] at hact
        cases hact
      | some x =>
        obtain ⟨i', st⟩ := x
        by_cases hst : st = .built
        · have hun : (locals n).Unstarted := by
            intro i₁ st₁ hn'
            rw [hnode] at hn'
            cases hn'
            exact hst
          rw [(h.calls.mine n).blank hopen hun i] at hact
          cases hact
        · have hwallet := ((h.calls.mine n).node i' st hnode hst).2
          obtain rfl : i = i' := Option.some.inj ((h.referred i hact).symm.trans hwallet)
          have hcalm := hc i st hnode
          cases st with
          | built => exact absurd rfl hst
          | assigned =>
            rw [(h.owned.mine n).fresh i _ hnode (.inr rfl)] at hact
            cases hact
          | up => exact (h.calls.mine n).up i hnode
          | finished =>
            rw [(h.calls.mine n).finished i hnode] at hact
            cases hact
          | _ => cases hcalm

/-- While an instance is being started, the active ones are that one. -/
theorem active_eq (h : Excluded w locals) {st : Stage} (hn : (locals n).node = some (i, st))
    (hst : st ≠ .built) {i' : Nat} (hact : (w.instances i').active = true) : i' = i := by
  have hwallet := ((h.calls.mine n).node i st hn hst).2
  exact Option.some.inj ((h.referred i' hact).symm.trans hwallet)

/-- A start that has not begun, or is over, leaves nothing active. -/
theorem inactive (h : Excluded w locals) {st : Stage} (hn : (locals n).node = some (i, st))
    (hst : st = .assigned ∨ st = .finished) (i' : Nat) : (w.instances i').active = false := by
  cases hact : (w.instances i').active with
  | false => rfl
  | true =>
    have hne : st ≠ .built := by rcases hst with rfl | rfl <;> nofun
    rw [h.active_eq hn hne hact] at hact
    rcases hst with rfl | rfl
    · rw [(h.owned.mine n).fresh i _ hn (.inr rfl)] at hact
      cases hact
    · rw [(h.calls.mine n).finished i hn] at hact
      cases hact

/-- The instance of a call that is in its start goes on. -/
theorem moveNode (h : Excluded w locals) {st st' : Stage} (hn : (locals n).node = some (i, st))
    (hst : st ≠ .built) (hst' : st' ≠ .built) (hnode : l'.node = some (i, st'))
    (hp : l'.promise = (locals n).promise) (hr : l'.restore = (locals n).restore)
    (hopened : l'.opened = (locals n).opened) (hs : l'.stopping = (locals n).stopping)
    (howned : Owned w' (Function.update locals n l')) (hw : w'.wallet = w.wallet)
    (hothers : ∀ i', i ≠ i' → w'.instances i' = w.instances i')
    (hup : st' = .up → (w'.instances i).isRunning = true)
    (hover : st' = .finished → (w'.instances i).active = false) :
    Excluded w' (Function.update locals n l') := by
  obtain ⟨ho, hwallet⟩ := (h.calls.mine n).node i st hn hst
  have hopens : l'.promise ≠ none ∨ l'.restore = true := by
    rw [hp, hr]
    exact (h.calls.mine n).opens ho
  refine h.move ho howned (.of_started hopens (hopened.trans ho) hnode hst' (hw.trans hwallet) hup hover
    (hs.trans (h.stopping_of_opened ho))) (hopened.trans ho) fun i' hact => ?_
  by_cases hi : i = i'
  · rw [hw, hwallet, hi]
  · rw [hothers i' hi] at hact
    rw [hw]
    exact h.referred i' hact

/-- What synchronous code does keeps to exclusion. -/
theorem sync (h : Excluded w locals) (hs : Sync (locals n) w l' w') :
    Excluded w' (Function.update locals n l') := by
  have howned := h.owned.sync hs
  have hmine := h.calls.mine n
  generalize hl : locals n = l at hs hmine
  cases hs with
  | stay => exact h.kept howned hmine (by rw [hl]) (by rw [hl]) rfl rfl
  | found _ _ =>
    exact h.kept howned ⟨hmine.opens, hmine.node, hmine.up, hmine.finished, hmine.blank, hmine.closed,
      hmine.stopped⟩ (by rw [hl]) (by rw [hl]) rfl rfl
  | build hnew =>
    have hi : ({ w with wallets := w.wallets ++ [{}] } : Page).instances = w.instances :=
      funext fun i => Page.instances_append w i
    have hun : Local.Unstarted { l with node := some (w.wallets.length, .built) } := by
      rintro i st ⟨⟩
      rfl
    refine h.kept howned ?_ (by rw [hl]) (by rw [hl]) hi rfl
    by_cases ho : l.opened = true
    · refine .of_unstarted (hmine.opens ho) hun (fun i => ?_) (hl ▸ h.stopping_of_opened (hl ▸ ho))
      rw [Page.instances_append]
      exact hmine.blank ho hnew i
    · refine .of_closed (Bool.eq_false_iff.mpr ho) hun fun i hs => ?_
      rw [Page.instances_append]
      exact hmine.stopped i hs
  | @assign i m hn ho =>
    have hun : l.Unstarted := by
      intro i' st hn'
      rw [hn] at hn'
      cases hn'
      rfl
    have hblank := hmine.blank ho hun
    have hstop : l.stopping = none := hl ▸ h.stopping_of_opened (hl ▸ ho)
    refine h.move (hl ▸ ho) howned ?_ ho fun i' hact => ?_
    · exact .of_started (hmine.opens ho) ho rfl nofun rfl nofun nofun hstop
    · exact absurd ((hblank i').symm.trans hact) Bool.false_ne_true
  | @unassign i st hn hst ho =>
    have hblank := h.inactive (hl ▸ hn) hst
    have hstop : l.stopping = none := hl ▸ h.stopping_of_opened (hl ▸ ho)
    refine h.move (hl ▸ ho) howned ?_ ho fun i' hact => ?_
    · exact .of_unstarted (hmine.opens ho) nofun hblank hstop
    · exact absurd ((hblank i').symm.trans hact) Bool.false_ne_true
  | @manage i s hn =>
    subst hl
    exact h.moveNode hn (by simp) (by simp) hn rfl rfl rfl rfl howned rfl
      (fun i' hi => w.instances_setWallet_of_ne _ hi) nofun nofun
  | @run i s hn =>
    subst hl
    refine h.moveNode hn (by simp) (by simp) rfl rfl rfl rfl rfl howned rfl
      (fun i' hi => w.instances_setWallet_of_ne _ hi) (fun _ => ?_) nofun
    rw [(h.owned.mine n).own hn]
  | @tearDown i st hn hst =>
    have hne : st ≠ .built := by
      rintro rfl
      rcases hst with hst | hst <;> cases hst
    subst hl
    have hown : (tornDown i w).instances i =
        { w.instances i with managed := false, isRunning := false, releaseRunLock := false } :=
      (h.owned.mine n).own hn
    refine h.moveNode hn hne (by simp) rfl rfl rfl rfl rfl howned rfl
      (fun i' hi => w.instances_setWallet_of_ne _ hi) nofun fun _ => ?_
    rw [hown]
    rfl
  | record =>
    exact h.kept howned (hmine.of_eq rfl rfl) (by rw [hl]) (by rw [hl]) rfl rfl
  | beginStart _ _ hq =>
    have hun : l.Unstarted := fun i st hn => absurd (hq.node.symm.trans hn) nofun
    exact h.kept howned (.of_closed hq.opened hun hmine.stopped) (by rw [hl]) (by rw [hl]) rfl rfl
  | settle _ _ hc _ => exact h.shut howned rfl rfl (by rw [hl]) (hl ▸ hc) rfl rfl
  | beginRestore _ _ _ =>
    exact h.kept howned ⟨fun _ => .inr rfl, hmine.node, hmine.up, hmine.finished, hmine.blank, hmine.closed,
      hmine.stopped⟩ (by rw [hl]) (by rw [hl]) rfl rfl
  | endRestore _ ho hc =>
    cases hp : l.promise with
    | none =>
      simp only [hp, Option.isSome_none, Bool.false_eq_true, if_false] at howned ⊢
      exact h.shut howned rfl rfl (by rw [hl]) (hl ▸ hc) rfl rfl
    | some p =>
      simp only [hp, Option.isSome_some, if_true] at howned ⊢
      refine h.kept howned ⟨fun _ => .inl nofun, fun i st hn hst => ?_, hmine.up, hmine.finished,
        fun _ => hmine.blank ho, fun hs => ?_, hmine.stopped⟩ (by rw [hl, ho]) (by rw [hl]) rfl rfl
      · exact ⟨rfl, (hmine.node i st hn hst).2⟩
      · exact absurd ((hmine.closed hs).symm.trans ho) Bool.false_ne_true
  | @beginStop i hq hs hwallet hrun =>
    have hun : l.Unstarted := fun i st hn => absurd (hq.node.symm.trans hn) nofun
    have hstop : l.stopping ≠ none := by
      rw [hs]
      nofun
    have hown : (w.setWallet i fun x => { x with releaseRunLock := false }).instances i =
        { w.instances i with releaseRunLock := false } := by
      rw [Page.instances_setWallet w i i _ (lt_length_of_running hrun), if_pos rfl]
    have hkeep := fun i' => w.instances_setWallet_cases i i' fun x => { x with releaseRunLock := false }
    have hstopped : ∀ o i', Holds o w → o.stopping = some (some i') →
        (w.wallet = some i' ∨ w.wallet = none) ∧
          ((w.setWallet i fun x => { x with releaseRunLock := false }).instances i').releaseRunLock = false := by
      intro o i' ho hs'
      refine ⟨(ho.stopped i' hs').1, ?_⟩
      rcases hkeep i' with hi | ⟨-, rfl⟩
      · rw [hi]
        exact (ho.stopped i' hs').2
      · rw [hown]
    refine h.stop (hl ▸ hstop) howned ?_ hq.opened hstopped (fun i' hact => ?_) fun i' hact => ?_
    · refine .of_closed hq.opened hun ?_
      rintro i' ⟨⟩
      exact ⟨.inl hwallet, by rw [hown]⟩
    · rcases hkeep i' with hi | ⟨-, rfl⟩
      · rw [hi] at hact
        exact h.referred i' hact
      · exact hwallet
    · rcases hkeep i' with hi | ⟨-, rfl⟩
      · rw [hi] at hact ⊢
        exact h.idle (h.opened_of_stopping (hl ▸ hstop)) i' hact
      · rw [hown]
        exact hrun
  | @endStop i lock hq hs =>
    subst hl
    have hun : (locals n).Unstarted := fun i st hn => absurd (hq.node.symm.trans hn) nofun
    have hstop : (locals n).stopping ≠ none := by
      rw [hs]
      nofun
    have hbound := (h.owned.mine n).stops i hs
    have hown : (w.setWallet i fun x => { x with managed := false, isRunning := false }).instances i =
        { w.instances i with managed := false, isRunning := false } := by
      rw [Page.instances_setWallet w i i _ hbound, if_pos rfl]
    have hreleased := (hmine.stopped i hs).2
    have hkeep := fun i' =>
      w.instances_setWallet_cases i i' fun x => { x with managed := false, isRunning := false }
    have hinactive :
        ((w.setWallet i fun x => { x with managed := false, isRunning := false }).instances i).active =
          false := by
      rw [hown]
      simp [Wallet.active, hreleased]
    have hstopped : ∀ o i', Holds o w → o.stopping = some (some i') →
        (w.wallet = some i' ∨ w.wallet = none) ∧
          ((w.setWallet i fun x => { x with managed := false, isRunning := false }).instances
            i').releaseRunLock = false := by
      intro o i' ho hs'
      refine ⟨(ho.stopped i' hs').1, ?_⟩
      rcases hkeep i' with hi | ⟨-, rfl⟩
      · rw [hi]
        exact (ho.stopped i' hs').2
      · rw [hown]
        exact hreleased
    refine h.stop hstop howned (.of_closed hq.opened hun (hstopped _ · hmine)) hq.opened hstopped
      (fun i' hact => ?_) fun i' hact => ?_
    · rcases hkeep i' with hi | ⟨-, rfl⟩
      · exact h.referred i' (hi ▸ hact)
      · exact absurd (hinactive.symm.trans hact) Bool.false_ne_true
    · rcases hkeep i' with hi | ⟨-, rfl⟩
      · exact hi ▸ h.idle (h.opened_of_stopping hstop) i' (hi ▸ hact)
      · exact absurd (hinactive.symm.trans hact) Bool.false_ne_true
  | @leave i hq hs hrun =>
    subst hl
    have hun : (locals n).Unstarted := fun i st hn => absurd (hq.node.symm.trans hn) nofun
    have hstop : (locals n).stopping ≠ none := by
      rcases hs with hs | ⟨hs, -⟩
      · rw [hs]
        nofun
      · rw [hs]
        nofun
    have hwallet : w.wallet = some i ∨ w.wallet = none := by
      rcases hs with hs | ⟨-, hw⟩
      · exact (hmine.stopped i hs).1
      · exact .inl hw
    -- only the instance that `this.wallet` refers to can be active, and it does not run
    have hblank : ∀ i', (w.instances i').active = false := by
      intro i'
      cases hact : (w.instances i').active with
      | false => rfl
      | true =>
        have href := h.referred i' hact
        have hidle := h.idle (h.opened_of_stopping hstop) i' hact
        rcases hwallet with hw | hw
        · obtain rfl : i' = i := Option.some.inj (href.symm.trans hw)
          exact absurd (hrun.symm.trans hidle) Bool.false_ne_true
        · exact absurd (href.symm.trans hw) nofun
    refine h.stop hstop howned (.of_closed hq.opened hun fun i' hs' => ?_) hq.opened
      (fun o i' ho hs' => ?_) (fun i' hact => ?_) fun i' hact => ?_
    · exact ⟨.inr rfl, (hmine.stopped i' hs').2⟩
    · exact ⟨.inr rfl, (ho.stopped i' hs').2⟩
    · exact absurd ((hblank i').symm.trans hact) Bool.false_ne_true
    · exact absurd ((hblank i').symm.trans hact) Bool.false_ne_true

/-- A request keeps to exclusion. -/
theorem act {j : Task} {q : Request} {ch : Choice} {r : Except String (Answer q)}
    (h : Excluded w locals) (hat : At j (locals n) q) (he : exec q ch w = some (r, w')) :
    Excluded w' (Function.update locals n (after (locals n) q r)) := by
  have howned := h.owned.act hat he
  obtain ⟨hp, hr, ho, hs⟩ := after_kept (locals n) q r
  obtain ⟨-, -, hw, -, -, hww⟩ := exec_kept he
  cases q with
  | acquireRunLock i =>
    have hn : (locals n).node = some (i, .assigned) := hat
    rcases exec_acquireRunLock he with ⟨rfl, rfl⟩ | ⟨rfl, lock, rfl⟩
    · exact h.kept howned (h.calls.mine n) rfl rfl rfl rfl
    · exact h.moveNode hn (by simp) (by simp) rfl hp hr ho hs howned hw
        (fun i' hi => w.instances_setWallet_of_ne _ hi) nofun nofun
  | loadSeed i =>
    have hn : (locals n).node = some (i, .locked) := hat
    rcases exec_loadSeed he with ⟨e, rfl, rfl⟩ | ⟨rfl, rfl⟩
    · exact h.kept howned (h.calls.mine n) rfl rfl rfl rfl
    · have hstage : (stageOf (parseSeed (w.db .ldkSeed))).starting = true := by
        cases parseSeed (w.db .ldkSeed) <;> rfl
      refine h.moveNode hn (by simp) (fun hst => ?_) rfl hp hr ho hs howned hw
        (fun i' hi => w.instances_setWallet_of_ne _ hi) (fun hst => ?_) fun hst => ?_
      all_goals
        rw [hst] at hstage
        cases hstage
  | storeSeed i s =>
    have hn : (locals n).node = some (i, .blank) := hat
    rcases exec_storeSeed he with ⟨e, rfl, rfl⟩ | ⟨rfl, rfl⟩
    · exact h.kept howned (h.calls.mine n) rfl rfl rfl rfl
    · exact h.moveNode hn (by simp) (by simp) rfl hp hr ho hs howned hw
        (fun i' hi => w.instances_setWallet_of_ne _ hi) nofun nofun
  | _ =>
    have hi := Page.instances_of_wallets (hww rfl)
    exact h.kept howned (((h.calls.mine n).of_local (after_node rfl) hp hr ho hs).of_eq hi hw) ho hs hi hw

/-- A change of the page that no call speaks of. -/
theorem of_eq (h : Excluded w locals) (hww : w'.wallets = w.wallets) (hw : w'.wallet = w.wallet)
    (hp : w'.startingPromise = w.startingPromise) (hr : w'.restoring = w.restoring) :
    Excluded w' locals := by
  have hi := Page.instances_of_wallets hww
  refine ⟨⟨fun n => (h.owned.mine n).of_eq hww (.inl hp) (.inl hr), h.owned.apart⟩,
    ⟨fun n => (h.calls.mine n).of_eq hi hw, h.calls.apart⟩, ?_, ?_⟩
  · rw [hi, hw]
    exact h.referred
  · rw [hi]
    exact h.idle

/-- A page that was just loaded. -/
theorem initial (hw : w.wallets = []) : Excluded w fun _ => {} := by
  have hblank : ∀ i, (w.instances i).active = false := by
    intro i
    rw [Page.instances, hw]
    rfl
  have hidle : Holds {} w := by
    refine .of_closed rfl ?_ ?_
    · intro i st hn
      cases hn
    · intro i hs
      cases hs
  have hapart : Excludes {} {} := by
    refine ⟨?_, fun h => absurd rfl h⟩
    intro ho
    cases ho
  refine ⟨Owned.initial w, ⟨fun _ => hidle, fun _ _ _ => hapart⟩, fun i hact => ?_, fun _ i hact => ?_⟩
  · exact absurd ((hblank i).symm.trans hact) Bool.false_ne_true
  · exact absurd ((hblank i).symm.trans hact) Bool.false_ne_true

end Excluded

/-! ## Orderly configurations -/

section Orderly

variable {fe : Frontend} {hasFetcher : Bool} {c : PageConfig} {j : Task}

theorem underWay_cases (h : underWay c n = some j) : ∃ p, c.pool[n]? = some (j, p) ∧
    j.session = c.world.session ∧ (∀ a, p ≠ .done a) ∧ ∀ e, p ≠ .fail e := by
  rw [underWay] at h
  split at h
  · cases h
  · cases h
  · cases h
  · rename_i j' p hdone hfail hn
    split at h
    · rename_i hj
      cases h
      exact ⟨p, hn, hj, hdone, hfail⟩
    · cases h

/-- A call that has not ended stands where its control state says. -/
theorem stand_of_underWay (hc : (control fe hasFetcher).Stands c locals) (h : underWay c n = some j) :
    Stand j (c.history n) (locals n) ((c.awaits n).map Prod.snd) := by
  obtain ⟨p, hn, hj, hdone, hfail⟩ := underWay_cases h
  have hst := hc.standing n j p hn hj
  cases p with
  | done a => exact absurd rfl (hdone a)
  | fail e => exact absurd rfl (hfail e)
  | await q k =>
    have ha : (c.awaits n).map Prod.snd = some q := by simp [Config.awaits, hn]
    rw [ha]
    exact hst.1
  | sync f k =>
    have ha : (c.awaits n).map Prod.snd = none := by simp [Config.awaits, hn]
    rw [ha]
    exact hst.1

theorem stand_of_asks (hc : (control fe hasFetcher).Stands c locals) {q : Request}
    (h : asks c n = some q) :
    ∃ j, underWay c n = some j ∧ Stand j (c.history n) (locals n) (some q) := by
  rw [asks] at h
  split at h
  · rename_i hsome
    obtain ⟨j, hj⟩ := Option.isSome_iff_exists.mp hsome
    exact ⟨j, hj, h ▸ stand_of_underWay hc hj⟩
  · cases h

/-- Only a call that has not ended has a control state of its own. -/
theorem underWay_of_ne (hc : (control fe hasFetcher).Stands c locals) (hne : locals n ≠ {}) :
    ∃ j, underWay c n = some j := by
  have hlen : n < c.pool.length := Nat.lt_of_not_le fun h => hne (hc.uncalled n h)
  obtain ⟨⟨j, p⟩, hn⟩ : ∃ x, c.pool[n]? = some x := ⟨_, List.getElem?_eq_getElem hlen⟩
  have hj : j.session = c.world.session := by
    rcases Nat.lt_or_eq_of_le (hc.birth n j p hn) with hlt | heq
    · exact absurd (hc.dead n j p hn hlt) hne
    · exact heq
  have hst := hc.standing n j p hn hj
  cases p with
  | done a => exact absurd hst hne
  | fail e => exact absurd hst hne
  | await q k | sync f k => exact ⟨j, by simp [underWay, hn, hj]⟩

theorem orderlyCall_of_orderly (ho : orderly c = true) (h : underWay c n = some j) :
    orderlyCall c n = true := by
  obtain ⟨p, hn, -⟩ := underWay_cases h
  exact List.all_eq_true.mp ho n (List.mem_range.mpr (List.getElem?_eq_some_iff.mp hn).1)

/-- During a restore that is no start's there is no start. -/
theorem startingPromise_of_restore (hc : (control fe hasFetcher).Stands c locals)
    (ho : orderly c = true) (hr : (locals n).restore = true) (hp : (locals n).promise = none) :
    c.world.startingPromise = none := by
  have hne : locals n ≠ {} := by
    intro h
    rw [h] at hr
    cases hr
  obtain ⟨j, hj⟩ := underWay_of_ne hc hne
  obtain ⟨env, secret, hverb⟩ := (stand_of_underWay hc hj).fit.restoring hr hp
  have := orderlyCall_of_orderly ho hj
  simpa [orderlyCall, hj, hverb] using this

theorem waits_eq_false {q : Request} (h : ∀ p, q ≠ .started p) : q.waits = false := by
  cases q with
  | started p => exact absurd rfl (h p)
  | _ => rfl

theorem pastCheck_of (h : PastCheck (c.history n) ((c.awaits n).map Prod.snd)) :
    pastCheck c n = true := by
  rw [pastCheck, Bool.or_eq_true]
  rcases h with ⟨e, he, hne⟩ | ⟨q, hq, hne⟩
  · refine .inl (List.any_eq_true.mpr ⟨e, he, ?_⟩)
    rw [waits_eq_false hne]
    rfl
  · obtain ⟨x, hx, rfl⟩ := Option.map_eq_some_iff.mp hq
    rw [hx, Option.any_some, waits_eq_false hne]
    exact .inr rfl

/-- While a call stops what it has found there is no start and no restore. -/
theorem flags_of_stopping (hc : (control fe hasFetcher).Stands c locals) (ho : orderly c = true)
    (hs : (locals n).stopping ≠ none) :
    c.world.startingPromise = none ∧ c.world.restoring = false := by
  have hne : locals n ≠ {} := by
    intro h
    rw [h] at hs
    exact hs rfl
  obtain ⟨j, hj⟩ := underWay_of_ne hc hne
  have hst := stand_of_underWay hc hj
  have := orderlyCall_of_orderly ho hj
  simpa [orderlyCall, hj, hst.fit.stopping hs, pastCheck_of (hst.past hs)] using this

/-! ## Arrivals -/

theorem Arrive.opens (ha : Arrive l w l') (h : l.opened = true → l.promise ≠ none ∨ l.restore = true)
    (ho : l'.opened = true) : l'.promise ≠ none ∨ l'.restore = true := by
  cases ha with
  | stay _ => exact h ho
  | openStart hp _ _ _ => exact .inl hp
  | openRestore hr _ _ _ => exact .inr hr
  | wait hq _ => exact absurd (hq.opened.symm.trans ho) Bool.false_ne_true
  | check hq => exact absurd (hq.opened.symm.trans ho) Bool.false_ne_true
  | finish _ => cases ho

theorem Arrive.closes (ha : Arrive l w l') (ho : l'.opened = false) : l.opened = false := by
  cases ha with
  | stay _ => exact ho
  | openStart _ _ _ _ => cases ho
  | openRestore _ _ _ _ => cases ho
  | wait hq _ => exact hq.opened
  | check hq => exact hq.opened
  | finish hq => exact hq.opened

/-- Two calls are not in starts or restores at once. -/
theorem opened_unique (hc : (control fe hasFetcher).Stands c locals) (ho : orderly c = true)
    (howned : Owned c.world locals)
    (hopens : ∀ m, (locals m).opened = true → (locals m).promise ≠ none ∨ (locals m).restore = true)
    {m k : Nat} (hmk : m ≠ k) (hm : (locals m).opened = true) : (locals k).opened = false := by
  have hpromise : ∀ a b, a ≠ b → (locals a).promise ≠ none → (locals b).opened = false := by
    intro a b hab ha
    by_contra hb
    have hnone : (locals b).promise = none := (howned.apart a b hab).promise ha
    have hr := (hopens b (by simpa using hb)).resolve_left (fun h => h hnone)
    obtain ⟨p, hp⟩ := Option.ne_none_iff_exists'.mp ha
    have := (howned.mine a).promise p hp
    rw [startingPromise_of_restore hc ho hr hnone] at this
    cases this
  by_cases hp : (locals m).promise = none
  · have hr := (hopens m hm).resolve_left (fun h => h hp)
    by_contra hk
    rcases hopens k (by simpa using hk) with hk' | hk'
    · exact absurd ((hpromise k m (Ne.symm hmk) hk').symm.trans hm) Bool.false_ne_true
    · exact absurd (((howned.apart m k hmk).restore hr).symm.trans hk') Bool.false_ne_true
  · exact hpromise m k hmk hp

theorem opened_of_flags (howned : Owned c.world locals)
    (hopens : ∀ m, (locals m).opened = true → (locals m).promise ≠ none ∨ (locals m).restore = true)
    (hp : c.world.startingPromise = none) (hr : c.world.restoring = false) (k : Nat) :
    (locals k).opened = false := by
  by_contra hk
  rcases hopens k (by simpa using hk) with hk' | hk'
  · obtain ⟨p, hp'⟩ := Option.ne_none_iff_exists'.mp hk'
    exact absurd (hp.symm.trans ((howned.mine k).promise p hp')) nofun
  · exact absurd (hr.symm.trans ((howned.mine k).restoring hk')) Bool.false_ne_true

/-- Where a call comes to stand in an orderly configuration. -/
theorem Excluded.arrive (h : Excluded c.world locals)
    (hc : (control fe hasFetcher).Stands c (Function.update locals n l')) (ho : orderly c = true)
    (ha : Arrive (locals n) c.world l') : Excluded c.world (Function.update locals n l') := by
  have howned := h.owned.arrive ha
  have hopens : ∀ m, (Function.update locals n l' m).opened = true →
      (Function.update locals n l' m).promise ≠ none ∨
        (Function.update locals n l' m).restore = true := by
    intro m
    by_cases hm : m = n
    · rw [hm, Function.update_self]
      exact ha.opens (h.calls.mine n).opens
    · rw [Function.update_of_ne hm]
      exact (h.calls.mine m).opens
  have hunique := fun m k (hmk : m ≠ k) => opened_unique hc ho howned hopens hmk
  have hflags : ∀ m, (Function.update locals n l' m).stopping ≠ none →
      ∀ k, (Function.update locals n l' k).opened = false := by
    intro m hs
    obtain ⟨hp, hr⟩ := flags_of_stopping hc ho hs
    exact opened_of_flags howned hopens hp hr
  have hstop : l'.opened = true → l'.stopping = none := by
    intro hopen
    by_contra hs
    have := hflags n (by rwa [Function.update_self]) n
    rw [Function.update_self, hopen] at this
    cases this
  have hothers : l'.opened = true → ∀ m, m ≠ n → (locals m).opened = false := by
    intro hopen m hm
    have := hunique n m (Ne.symm hm) (by rwa [Function.update_self])
    rwa [Function.update_of_ne hm] at this
  have hmine : Holds l' c.world := by
    have hl := h.calls.mine n
    generalize hlocal : locals n = l at ha hl
    cases ha with
    | stay _ => exact hl
    | openStart hp hr hrun hn =>
      have hun : Local.Unstarted { l with opened := true } := fun i st hn' =>
        absurd (hn.symm.trans hn') nofun
      refine .of_unstarted (.inl hp) hun (fun i => ?_) (hstop rfl)
      cases hact : (c.world.instances i).active with
      | false => rfl
      | true =>
        by_cases hopen : l.opened = true
        · rw [hl.blank hopen hun i] at hact
          cases hact
        · -- nothing else is in a start or a restore, so what is active runs
          have hidle := h.idle (fun m => ?_) i hact
          · have hrunning : c.world.isRunning = true := by
              rw [Page.isRunning, h.referred i hact]
              exact hidle
            exact absurd (hrun.symm.trans hrunning) Bool.false_ne_true
          · by_cases hm : m = n
            · rw [hm, hlocal]
              exact Bool.eq_false_iff.mpr hopen
            · exact hothers rfl m hm
    | openRestore hr hp hwallet hn =>
      have hun : Local.Unstarted { l with opened := true } := fun i st hn' =>
        absurd (hn.symm.trans hn') nofun
      refine .of_unstarted (.inr hr) hun (fun i => ?_) (hstop rfl)
      cases hact : (c.world.instances i).active with
      | false => rfl
      | true => exact absurd (hwallet.symm.trans (h.referred i hact)) nofun
    | wait hq hp => exact hl.of_local rfl rfl rfl rfl rfl
    | check hq =>
      exact .of_closed hq.opened (fun i st hn => absurd (hq.node.symm.trans hn) nofun) nofun
    | finish hq => exact .of_closed rfl nofun nofun
  refine ⟨howned, ⟨fun m => ?_, fun m k hmk => ⟨hunique m k hmk, fun hs => hflags m hs k⟩⟩, h.referred,
    fun hall => h.idle fun m => ?_⟩
  · by_cases hm : m = n
    · rw [hm, Function.update_self]
      exact hmine
    · rw [Function.update_of_ne hm]
      exact h.calls.mine m
  · have := hall m
    by_cases hm : m = n
    · rw [hm, Function.update_self] at this
      rw [hm]
      exact ha.closes this
    · rwa [Function.update_of_ne hm] at this

/-- Every step into an orderly configuration keeps starts and restores apart. -/
theorem excluded_preserves (fe : Frontend) (hasFetcher : Bool) :
    (control fe hasFetcher).Preserves
      (fun lab c => ∀ c', (lifecycle fe hasFetcher).step lab c = some c' → orderly c' = true)
      fun _ => Excluded where
  know := fun n h => (h.owned.mine n).fresh
  sync := fun h hs => h.sync hs
  act := by
    intro c locals n ch j q k r l' w' hc h _ hn hj he hl
    subst hl
    exact h.act ((hc.standing n j _ hn hj).1.asks q rfl) he
  arrive := fun hS hstep hc h _ ha => h.arrive hc (hS _ hstep) ha
  event := by
    intro c locals e w' called _ h _ he hage
    cases e with
    | call verb random =>
      cases he
      exact h.of_eq rfl rfl rfl rfl
    | persist i k bytes version =>
      simp only [lifecycle, effect] at he
      split at he
      · simp only [Option.map_eq_some_iff] at he
        obtain ⟨v, -, he⟩ := he
        cases he
        exact h.of_eq rfl rfl rfl rfl
      · cases he
    | reload =>
      cases he
      exact absurd hage (Nat.succ_ne_self _)
  reload := by
    intro c locals e w' called _ _ _ he hage
    cases e with
    | call verb random =>
      cases he
      exact absurd hage (Nat.lt_irrefl _)
    | persist i k bytes version =>
      simp only [lifecycle, effect] at he
      split at he
      · simp only [Option.map_eq_some_iff] at he
        obtain ⟨v, -, he⟩ := he
        cases he
        exact absurd hage (Nat.lt_irrefl _)
      · cases he
    | reload =>
      cases he
      exact .initial rfl

/-! ## What exclusion says of a configuration -/

/-- An import's writer is in its restore, with an instance that is not started. -/
theorem importing_of_writes (hc : (control fe hasFetcher).Stands c locals) (h : WritesImport c n) :
    (locals n).Importing := by
  rcases h with h | ⟨⟨k, v, h⟩, e, he, hreq⟩
  · obtain ⟨j, -, hst⟩ := stand_of_asks hc h
    exact hst.asks _ rfl
  · obtain ⟨j, -, hst⟩ := stand_of_asks hc h
    have himported : (locals n).imported = true := by
      by_contra hi
      exact hst.fit.imported (by simpa using hi) e he hreq
    have hat := hst.asks _ rfl
    cases k with
    | ldkSeed => exact hat.2.resolve_right fun hno => absurd (himported.symm.trans hno.1) nofun
    | channelManager => exact hat.2
    | _ => exact hat himported

/-- The lock is requested for an instance that `this.wallet` refers to. -/
theorem node_of_acquires (hc : (control fe hasFetcher).Stands c locals)
    (h : asks c n = some (.acquireRunLock i)) : (locals n).node = some (i, .assigned) := by
  obtain ⟨j, -, hst⟩ := stand_of_asks hc h
  exact hst.asks _ rfl

theorem Excluded.exclusive (h : Excluded c.world locals)
    (hc : (control fe hasFetcher).Stands c locals) : Exclusive c where
  alone := by
    intro n hn i hact
    obtain ⟨-, hopen, i', hnode⟩ := importing_of_writes hc hn
    rcases hact with hact | ⟨m, hm⟩
    · rw [(h.calls.mine n).blank hopen (unstarted_of hnode) i] at hact
      cases hact
    · have hnode' := node_of_acquires hc hm
      have hopen' := ((h.calls.mine m).node i _ hnode' nofun).1
      by_cases hmn : n = m
      · rw [hmn, hnode'] at hnode
        cases hnode
      · exact absurd (((h.calls.apart n m hmn).opened hopen).symm.trans hopen') Bool.false_ne_true
  unread := by
    rintro n hn m ⟨j, q, hj, hq, hread, hbegun⟩
    obtain ⟨-, hopen, -⟩ := importing_of_writes hc hn
    obtain ⟨j', hj', hst⟩ := stand_of_asks hc hq
    obtain rfl := Option.some.inj (hj.symm.trans hj')
    have hopen' := hst.reads q rfl hread hbegun
    by_cases hmn : n = m
    · subst hmn
      rcases hn with hn | ⟨⟨k, v, hn⟩, -⟩
      all_goals
        rw [hn] at hq
        cases hq
        cases hread
    · exact absurd (((h.calls.apart n m hmn).opened hopen).symm.trans hopen') Bool.false_ne_true
  referred := by
    rintro i (hact | ⟨m, hm⟩)
    · exact h.referred i hact
    · exact ((h.calls.mine m).node i _ (node_of_acquires hc hm) nofun).2

end Orderly

/-! ## Runs -/

/-- A run through orderly configurations, seen from its steps. -/
theorem run_into_orderly {fe : Frontend} {hasFetcher : Bool} {c₀ c : PageConfig}
    (hrun : (lifecycle fe hasFetcher).Run (fun _ d => orderly d = true) c₀ c)
    (hc : orderly c = true) :
    (lifecycle fe hasFetcher).Run
      (fun lab d => ∀ d', (lifecycle fe hasFetcher).step lab d = some d' → orderly d' = true) c₀ c := by
  induction hrun with
  | refl => exact .refl
  | @snoc c' c'' lab _ ho hs ih =>
    refine .snoc (ih ho) (fun d' hd' => ?_) hs
    obtain rfl : c'' = d' := Option.some.inj (hs.symm.trans hd')
    exact hc

/-- Starts and restores exclude each other throughout an orderly run. -/
theorem exclusive_of_orderly (fe : Frontend) (hasFetcher : Bool) (db : Db) (mirror : Nat)
    (c : PageConfig)
    (hrun : (lifecycle fe hasFetcher).Run (fun _ d => orderly d = true) (opened db mirror) c)
    (hc : orderly c = true) : Exclusive c := by
  obtain ⟨locals, hstands, h⟩ := (excluded_preserves fe hasFetcher).invariant_of_run admits
    Control.stands_initial (Excluded.initial rfl) (run_into_orderly hrun hc)
  exact h.exclusive hstands

/-- A backup of another wallet. -/
def savedWallet : Envelope where
  seedHex := "5eed02"
  passphrase := none
  entries := [(.channelManager, .manager "5eed02" "channels"), (.ldkSeed, .seed "5eed02")]
  nodup := by decide
  carried := by decide
  seed := by simp
  manager := by simp

/-- Alone, a restore imports without harm. -/
theorem exclusive_of_orderly_restored : ∃ c,
    (lifecycle .pwa false).Run (fun _ d => orderly d = true) (opened (fun _ => none) 0) c ∧
      WritesImport c 0 ∧ Exclusive c := by
  obtain ⟨c, hrun, hf⟩ := Machine.Run.exists_of_play (M := lifecycle .pwa false)
    (g := fun _ d => orderly d) (c := opened (fun _ => none) 0)
    (s := [.event (.call (.restoreWallet savedWallet "5eed02") "f00d"), .go 0 {} 12])
    (f := fun c => orderly c && asks c 0 = some (.removeItem .monitorHighwater))
    (by decide +kernel)
  simp only [Bool.and_eq_true, decide_eq_true_eq] at hf
  exact ⟨c, hrun, .inl hf.2, exclusive_of_orderly .pwa false _ 0 c hrun hf.1⟩

/-- A wallet that was created and has no channel manager yet. -/
def createdDb : Db
  | .ldkSeed => some (.seed "5eed01")
  | .walletCreatedNew => some (.text "1")
  | _ => none

/-- A restore is called while a start has not assigned `this.wallet`: it imports while the
started node runs.  A stop is called while the node of a restore starts: the node runs and
no field refers to it. -/
theorem not_exclusive_overlapping :
    (∃ c, (lifecycle .pwa false).Run (fun _ _ => True) (opened createdDb 0) c ∧
      WritesImport c 1 ∧ (c.world.instances 0).isRunning = true ∧ ¬ Exclusive c) ∧
    ∃ c, (lifecycle .extension false).Run (fun _ _ => True) (opened (fun _ => none) 0) c ∧
      (c.world.instances 1).isRunning = true ∧ c.world.wallet = none ∧ ¬ Exclusive c := by
  constructor
  · obtain ⟨c, hrun, hf⟩ := Machine.Run.exists_of_play (M := lifecycle .pwa false)
      (g := fun _ _ => true) (c := opened createdDb 0)
      (s := [.event (.call .startNode "f00d"), .go 0 {} 6,
        .event (.call (.restoreWallet savedWallet "5eed02") "f00d"), .go 0 {} 80, .go 1 {} 12])
      (f := fun c => (c.world.instances 0).isRunning && asks c 1 = some (.removeItem .monitorHighwater))
      (by decide +kernel)
    simp only [Bool.and_eq_true, decide_eq_true_eq] at hf
    refine ⟨c, hrun.mono fun _ _ _ => trivial, .inl hf.2, hf.1, fun h => ?_⟩
    exact h.alone 1 (.inl hf.2) 0 (.inl (Wallet.active_of_isRunning hf.1))
  · obtain ⟨c, hrun, hf⟩ := Machine.Run.exists_of_play (M := lifecycle .extension false)
      (g := fun _ _ => true) (c := opened (fun _ => none) 0)
      (s := [.event (.call (.restoreWallet savedWallet "5eed02") "f00d"), .go 0 {} 18,
        .event (.call .stopNode "f00d"), .go 1 {} 20, .go 0 {} 60])
      (f := fun c => (c.world.instances 1).isRunning && c.world.wallet = none)
      (by decide +kernel)
    simp only [Bool.and_eq_true, decide_eq_true_eq] at hf
    refine ⟨c, hrun.mono fun _ _ _ => trivial, hf.1, hf.2, fun h => ?_⟩
    have href := h.referred 1 (.inl (Wallet.active_of_isRunning hf.1))
    exact absurd (hf.2.symm.trans href) nofun

end LibreWallet.Lifecycle
