import LibreWallet.Lifecycle.Follows

/-
  Lifecycle/Ownership.lean --- what belongs to a call.

  An instance is started by the call that built it, and by no other; `startingPromise`
  and `restoring` are cleared by the call that set them.  This holds in every run: it
  needs nothing of how the calls interleave.
-/

set_option autoImplicit false

namespace LibreWallet.Lifecycle

open Async Controller

/-- What a control state says of the page. -/
structure Mine (l : Local) (w : Page) : Prop where
  bound : ∀ i st, l.node = some (i, st) → i < w.wallets.length
  fresh : ∀ i st, l.node = some (i, st) → st = .built ∨ st = .assigned → w.instances i = {}
  starting : ∀ i st, l.node = some (i, st) → st.starting = true →
    (w.instances i).isRunning = false ∧ (w.instances i).releaseRunLock = true
  unseeded : ∀ i st, l.node = some (i, st) → st = .locked ∨ st = .blank →
    (w.instances i).seed = none
  loaded : ∀ i s, l.node = some (i, .loaded s) → (w.instances i).seed = some s
  promise : ∀ p, l.promise = some p → w.startingPromise = some p
  restoring : l.restore = true → w.restoring = true
  stops : ∀ i, l.stopping = some (some i) → i < w.wallets.length

/-- What two control states have to themselves. -/
structure Apart (l o : Local) : Prop where
  node : ∀ i st st', l.node = some (i, st) → o.node ≠ some (i, st')
  promise : l.promise ≠ none → o.promise = none
  restore : l.restore = true → o.restore = false
  stopping : ∀ i st, l.stopping = some (some i) → o.node = some (i, st) → st = .up ∨ st = .finished

variable {l l' o : Local} {w w' : Page}

/-- A change of one instance whose start is over for this control state. -/
theorem Mine.setWallet {i : Nat} {f : Wallet → Wallet} (ho : Mine o w)
    (hi : ∀ st, o.node = some (i, st) → st = .up ∨ st = .finished) : Mine o (w.setWallet i f) := by
  have hsame : ∀ i' st, o.node = some (i', st) → st ≠ .up → st ≠ .finished →
      (w.setWallet i f).instances i' = w.instances i' := by
    intro i' st hn hup hover
    rw [Page.instances_setWallet w i i' f (ho.bound i' st hn), if_neg]
    rintro rfl
    rcases hi st hn with rfl | rfl
    · exact hup rfl
    · exact hover rfl
  refine ⟨?_, ?_, ?_, ?_, ?_, ho.promise, ho.restoring, ?_⟩
  · intro i' st hn
    simpa [Page.setWallet] using ho.bound i' st hn
  · intro i' st hn hst
    rw [hsame i' st hn (by rcases hst with rfl | rfl <;> simp) (by rcases hst with rfl | rfl <;> simp)]
    exact ho.fresh i' st hn hst
  · intro i' st hn hst
    rw [hsame i' st hn (by rintro rfl; cases hst) (by rintro rfl; cases hst)]
    exact ho.starting i' st hn hst
  · intro i' st hn hst
    rw [hsame i' st hn (by rcases hst with rfl | rfl <;> simp) (by rcases hst with rfl | rfl <;> simp)]
    exact ho.unseeded i' st hn hst
  · intro i' s hn
    rw [hsame i' _ hn (by simp) (by simp)]
    exact ho.loaded i' s hn
  · intro i' hs
    simpa [Page.setWallet] using ho.stops i' hs

/-- A change of the database and of fields that the control state does not speak of. -/
theorem Mine.of_eq (ho : Mine o w) (hw : w'.wallets = w.wallets)
    (hp : w'.startingPromise = w.startingPromise ∨ o.promise = none)
    (hr : w'.restoring = w.restoring ∨ o.restore = false) : Mine o w' := by
  have hi := Page.instances_of_wallets hw
  refine ⟨hw ▸ ho.bound, hi ▸ ho.fresh, hi ▸ ho.starting, hi ▸ ho.unseeded, hi ▸ ho.loaded, ?_, ?_,
    hw ▸ ho.stops⟩
  · intro p h
    rcases hp with hp | hp
    · rw [hp]
      exact ho.promise p h
    · rw [hp] at h
      cases h
  · intro h
    rcases hr with hr | hr
    · rw [hr]
      exact ho.restoring h
    · rw [hr] at h
      cases h

/-- A new instance changes nothing for those that are there. -/
theorem Mine.append (ho : Mine o w) : Mine o { w with wallets := w.wallets ++ [{}] } := by
  have hlen : ∀ {i}, i < w.wallets.length → i < (w.wallets ++ [({} : Wallet)]).length := by
    intro i hi
    rw [List.length_append]
    omega
  refine ⟨fun i st hn => hlen (ho.bound i st hn), ?_, ?_, ?_, ?_, ho.promise, ho.restoring,
    fun i hs => hlen (ho.stops i hs)⟩
  all_goals
    intro i
    rw [Page.instances_append]
  · exact ho.fresh i
  · exact ho.starting i
  · exact ho.unseeded i
  · exact ho.loaded i

/-- The instance of a call, after an update of its own. -/
theorem Mine.own {i : Nat} {st : Stage} {f : Wallet → Wallet} (h : Mine l w)
    (hn : l.node = some (i, st)) : (w.setWallet i f).instances i = f (w.instances i) := by
  rw [Page.instances_setWallet w i i f (h.bound i st hn), if_pos rfl]

/-- An instance that runs is no call's to start. -/
theorem Mine.up_or_over (h : Mine l w) {i : Nat} {st : Stage} (hn : l.node = some (i, st))
    (hrun : (w.instances i).isRunning = true) : st = .up ∨ st = .finished := by
  cases st with
  | up => exact .inl rfl
  | finished => exact .inr rfl
  | built | assigned =>
    rw [h.fresh i _ hn (by simp)] at hrun
    cases hrun
  | locked | blank | loaded s =>
    rw [(h.starting i _ hn rfl).1] at hrun
    cases hrun

/-- A control state whose instance is not in a start. -/
theorem Mine.of_node (h : Mine l w) (node : Option (Nat × Stage))
    (hb : ∀ i st, node = some (i, st) → i < w.wallets.length ∧ (st = .up ∨ st = .finished)) :
    Mine { l with node } w := by
  refine ⟨fun i st hn => (hb i st hn).1, ?_, ?_, ?_, ?_, h.promise, h.restoring, h.stops⟩
  · intro i st hn hst
    rcases (hb i st hn).2 with rfl | rfl <;> simp at hst
  · intro i st hn hst
    rcases (hb i st hn).2 with rfl | rfl <;> cases hst
  · intro i st hn hst
    rcases (hb i st hn).2 with rfl | rfl <;> simp at hst
  · intro i s hn
    have := (hb i _ hn).2
    simp at this

theorem lt_length_of_running {i : Nat} (hrun : (w.instances i).isRunning = true) :
    i < w.wallets.length := by
  refine Nat.lt_of_not_le fun hi => ?_
  rw [Page.instances, List.getD_eq_getElem?_getD, List.getElem?_eq_none hi] at hrun
  cases hrun

/-- The instance of a call goes on. -/
theorem Apart.move (h : Apart l o) {i : Nat} {st : Stage} (hn : l.node = some (i, st))
    (st' : Stage) : Apart { l with node := some (i, st') } o where
  node := by
    rintro i' st₁ st₂ ⟨⟩
    exact h.node i st st₂ hn
  promise := h.promise
  restore := h.restore
  stopping := h.stopping

theorem Apart.moved (h : Apart o l) {i : Nat} {st st' : Stage} (hn : l.node = some (i, st))
    (hst : st = .up ∨ st = .finished → st' = .up ∨ st' = .finished) :
    Apart o { l with node := some (i, st') } where
  node := by
    rintro i' st₁ st₂ ho ⟨⟩
    exact h.node i st₁ st ho hn
  promise := h.promise
  restore := h.restore
  stopping := by
    rintro i' st₁ hs ⟨⟩
    exact hst (h.stopping i st hs hn)

/-- What synchronous code does keeps its own call in order. -/
theorem Sync.mine (hs : Sync l w l' w') (h : Mine l w) : Mine l' w' := by
  cases hs with
  | stay => exact h
  | found _ _ =>
    exact ⟨h.bound, h.fresh, h.starting, h.unseeded, h.loaded, h.promise, h.restoring, h.stops⟩
  | build hc =>
    refine ⟨?_, ?_, ?_, ?_, ?_, h.promise, h.restoring, h.append.stops⟩
    · rintro i st ⟨⟩
      simp
    · rintro i st ⟨⟩ -
      rw [Page.instances_append]
      simp [Page.instances]
    · rintro i st ⟨⟩ hst
      cases hst
    · rintro i st ⟨⟩ hst
      simp at hst
    · rintro i s ⟨⟩
  | @assign i m hn ho =>
    have hfresh := h.fresh i .built hn (.inl rfl)
    have hbound := h.bound i .built hn
    refine ⟨?_, ?_, ?_, ?_, ?_, h.promise, h.restoring, h.stops⟩
    · rintro i' st ⟨⟩
      exact hbound
    · rintro i' st ⟨⟩ -
      exact hfresh
    · rintro i' st ⟨⟩ hst
      cases hst
    · rintro i' st ⟨⟩ hst
      simp at hst
    · rintro i' s ⟨⟩
  | unassign _ _ _ => exact (h.of_node none fun _ _ hn => by cases hn).of_eq rfl (.inl rfl) (.inl rfl)
  | manage hn =>
    obtain ⟨hidle, hlock⟩ := h.starting _ _ hn rfl
    refine ⟨?_, ?_, ?_, ?_, ?_, h.promise, h.restoring, fun i hs => ?_⟩
    · intro i st hn'
      simpa [Page.setWallet] using h.bound i st hn'
    rotate_right
    · simpa [Page.setWallet] using h.stops i hs
    all_goals
      intro i st hn'
      rw [hn] at hn'
      cases hn'
      try rw [h.own hn]
    · simp
    · exact fun _ => ⟨hidle, hlock⟩
    · simp
    · exact h.loaded _ _ hn
  | run hn =>
    have hbound := h.bound _ _ hn
    refine (h.of_node (some (_, .up)) ?_).setWallet ?_
    · rintro i st ⟨⟩
      exact ⟨hbound, .inl rfl⟩
    · rintro st ⟨⟩
      exact .inl rfl
  | tearDown hn hst =>
    have hbound := h.bound _ _ hn
    refine Mine.of_eq ((h.of_node (some (_, .finished)) ?_).setWallet ?_) rfl (.inl rfl) (.inl rfl)
    · rintro i st ⟨⟩
      exact ⟨hbound, .inr rfl⟩
    · rintro st ⟨⟩
      exact .inr rfl
  | record => exact h.of_eq rfl (.inl rfl) (.inl rfl)
  | beginStart _ _ hq =>
    refine ⟨h.bound, h.fresh, h.starting, h.unseeded, h.loaded, ?_, h.restoring, h.stops⟩
    rintro p ⟨⟩
    rfl
  | settle _ _ _ _ =>
    refine ⟨?_, ?_, ?_, ?_, ?_, ?_, h.restoring, h.stops⟩
    · intro i st hn
      cases hn
    · intro i st hn
      cases hn
    · intro i st hn
      cases hn
    · intro i st hn
      cases hn
    · intro i s hn
      cases hn
    · intro p hp
      cases hp
  | beginRestore _ _ _ =>
    exact ⟨h.bound, h.fresh, h.starting, h.unseeded, h.loaded, h.promise, fun _ => rfl, h.stops⟩
  | endRestore _ _ _ =>
    refine ⟨?_, ?_, ?_, ?_, ?_, h.promise, (fun hr => by cases hr), h.stops⟩
    all_goals
      intro i st hn
      simp only at hn
      split at hn
      · first
        | exact h.bound i st hn
        | exact h.fresh i st hn
        | exact h.starting i st hn
        | exact h.unseeded i st hn
        | exact h.loaded i st hn
      · cases hn
  | @beginStop i hq _ _ hrun =>
    have h' : Mine { l with stopping := some (some i) } w := by
      refine ⟨h.bound, h.fresh, h.starting, h.unseeded, h.loaded, h.promise, h.restoring, ?_⟩
      rintro _ ⟨⟩
      exact lt_length_of_running hrun
    exact h'.setWallet fun st hn => absurd (hq.node.symm.trans hn) (by simp)
  | endStop hq _ =>
    exact (h.setWallet fun st hn => absurd (hq.node.symm.trans hn) (by simp)).of_eq rfl (.inl rfl)
      (.inl rfl)
  | leave _ _ _ => exact h.of_eq rfl (.inl rfl) (.inl rfl)

/-- What synchronous code does keeps every other call in order. -/
theorem Sync.others (hs : Sync l w l' w') (ho : Mine o w) (hlo : Apart l o)
    (hol : Apart o l) : Mine o w' ∧ Apart l' o ∧ Apart o l' := by
  cases hs with
  | stay => exact ⟨ho, hlo, hol⟩
  | found _ _ =>
    exact ⟨ho, ⟨hlo.node, hlo.promise, hlo.restore, hlo.stopping⟩,
      ⟨hol.node, hol.promise, hol.restore, hol.stopping⟩⟩
  | build _ =>
    refine ⟨ho.append, ⟨?_, hlo.promise, hlo.restore, hlo.stopping⟩,
      ⟨?_, hol.promise, hol.restore, ?_⟩⟩
    · rintro i st st' ⟨⟩ hn
      exact absurd (ho.bound _ _ hn) (Nat.lt_irrefl _)
    · rintro i st st' hn ⟨⟩
      exact absurd (ho.bound _ _ hn) (Nat.lt_irrefl _)
    · rintro i st hs ⟨⟩
      exact absurd (ho.stops _ hs) (Nat.lt_irrefl _)
  | @assign i m hn _ =>
    exact ⟨ho.of_eq rfl (.inl rfl) (.inl rfl), hlo.move hn _, hol.moved hn (by simp)⟩
  | unassign _ _ _ =>
    exact ⟨ho.of_eq rfl (.inl rfl) (.inl rfl), ⟨nofun, hlo.promise, hlo.restore, hlo.stopping⟩,
      ⟨fun _ _ _ _ => nofun, hol.promise, hol.restore, fun _ _ _ => nofun⟩⟩
  | manage hn => exact ⟨ho.setWallet fun st hn' => absurd hn' (hlo.node _ _ st hn), hlo, hol⟩
  | run hn =>
    exact ⟨ho.setWallet fun st hn' => absurd hn' (hlo.node _ _ st hn), hlo.move hn _,
      hol.moved hn fun _ => .inl rfl⟩
  | tearDown hn _ =>
    exact ⟨(ho.setWallet fun st hn' => absurd hn' (hlo.node _ _ st hn)).of_eq rfl (.inl rfl) (.inl rfl),
      hlo.move hn _, hol.moved hn fun _ => .inr rfl⟩
  | record => exact ⟨ho.of_eq rfl (.inl rfl) (.inl rfl), hlo, hol⟩
  | beginStart hp _ hq =>
    have hnone : o.promise = none := by
      cases hop : o.promise with
      | none => rfl
      | some p => exact absurd ((ho.promise p hop).symm.trans hp) (by simp)
    exact ⟨ho.of_eq rfl (.inr hnone) (.inl rfl), ⟨hlo.node, fun _ => hnone, hlo.restore, hlo.stopping⟩,
      ⟨hol.node, fun h => absurd hnone h, hol.restore, hol.stopping⟩⟩
  | settle hp _ _ _ =>
    have hnone : o.promise = none := hlo.promise (by simp [hp])
    exact ⟨ho.of_eq rfl (.inr hnone) (.inl rfl), ⟨nofun, fun h => absurd rfl h, hlo.restore, hlo.stopping⟩,
      ⟨fun _ _ _ _ => nofun, fun _ => rfl, hol.restore, fun _ _ _ => nofun⟩⟩
  | beginRestore _ hr _ =>
    have hnone : o.restore = false := by
      cases hor : o.restore with
      | false => rfl
      | true => exact absurd ((ho.restoring hor).symm.trans hr) (by simp)
    exact ⟨ho.of_eq rfl (.inl rfl) (.inr hnone), ⟨hlo.node, hlo.promise, fun _ => hnone, hlo.stopping⟩,
      ⟨hol.node, hol.promise, fun h => absurd (hnone.symm.trans h) (by simp), hol.stopping⟩⟩
  | endRestore hr _ _ =>
    have hnone : o.restore = false := hlo.restore hr
    refine ⟨ho.of_eq rfl (.inl rfl) (.inr hnone), ⟨?_, hlo.promise, nofun, hlo.stopping⟩,
      ⟨?_, hol.promise, fun _ => rfl, ?_⟩⟩
    · intro i st st' hn
      simp only at hn
      split at hn
      · exact hlo.node i st st' hn
      · cases hn
    · intro i st st' hn hn'
      simp only at hn'
      split at hn'
      · exact hol.node i st st' hn hn'
      · cases hn'
    · intro i st hs hn
      simp only at hn
      split at hn
      · exact hol.stopping i st hs hn
      · cases hn
  | beginStop hq _ _ hrun =>
    refine ⟨ho.setWallet fun st hn => ho.up_or_over hn hrun, ⟨hlo.node, hlo.promise, hlo.restore, ?_⟩,
      ⟨hol.node, hol.promise, hol.restore, hol.stopping⟩⟩
    rintro i st ⟨⟩ hn
    exact ho.up_or_over hn hrun
  | endStop _ hs =>
    exact ⟨(ho.setWallet fun st hn => hlo.stopping _ st hs hn).of_eq rfl (.inl rfl) (.inl rfl), hlo, hol⟩
  | leave _ _ _ => exact ⟨ho.of_eq rfl (.inl rfl) (.inl rfl), hlo, hol⟩

/-! ## Requests -/

/-- The instance that a request changes. -/
def Request.instance : Request → Option Nat
  | .acquireRunLock i | .loadSeed i | .storeSeed i _ => some i
  | _ => none

section Requests

variable {c : Choice}

/-- What no request changes. -/
theorem exec_kept {q : Request} {r : Except String (Answer q)} (he : exec q c w = some (r, w')) :
    w'.startingPromise = w.startingPromise ∧ w'.restoring = w.restoring ∧ w'.wallet = w.wallet ∧
      w'.settled = w.settled ∧ w'.promises = w.promises ∧
      (q.instance = none → w'.wallets = w.wallets) := by
  cases q with
  | started p =>
    simp only [exec, Option.map_eq_some_iff] at he
    obtain ⟨_, -, he⟩ := he
    cases he
    exact ⟨rfl, rfl, rfl, rfl, rfl, fun _ => rfl⟩
  | acquireRunLock i | loadSeed i | storeSeed i s =>
    simp only [exec, Option.some.injEq] at he
    (repeat' split at he) <;> cases he <;> exact ⟨rfl, rfl, rfl, rfl, rfl, fun hi => by cases hi⟩
  | _ =>
    simp only [exec, Option.some.injEq] at he
    (repeat' split at he) <;> cases he <;> exact ⟨rfl, rfl, rfl, rfl, rfl, fun _ => rfl⟩

theorem exec_acquireRunLock {i : Nat} {r : Except String (Answer (.acquireRunLock i))}
    (he : exec (.acquireRunLock i) c w = some (r, w')) :
    r = .ok false ∧ w' = w ∨ r = .ok true ∧ ∃ lock, w' =
      { w.setWallet i fun x => { x with releaseRunLock := true } with runLock := lock } := by
  simp only [exec, Option.some.injEq] at he
  split at he
  · cases he
    exact .inr ⟨rfl, w.runLock, rfl⟩
  · split at he
    · cases he
      exact .inr ⟨rfl, some i, rfl⟩
    · cases he
      exact .inl ⟨rfl, rfl⟩

theorem exec_loadSeed {i : Nat} {r : Except String (Answer (.loadSeed i))}
    (he : exec (.loadSeed i) c w = some (r, w')) :
    (∃ e, r = .error e ∧ w' = w) ∨ r = .ok (w.db .ldkSeed) ∧
      w' = w.setWallet i fun x => { x with seed := parseSeed (w.db .ldkSeed) } := by
  simp only [exec, Option.some.injEq] at he
  split at he
  · cases he
    exact .inr ⟨rfl, rfl⟩
  · cases he
    exact .inl ⟨_, rfl, rfl⟩

theorem exec_storeSeed {i : Nat} {s : Seed} {r : Except String (Answer (.storeSeed i s))}
    (he : exec (.storeSeed i s) c w = some (r, w')) :
    (∃ e, r = .error e ∧ w' = w) ∨ r = .ok () ∧
      w' = (w.store .ldkSeed (some (.seed s))).setWallet i fun x => { x with seed := some s } := by
  simp only [exec, Option.some.injEq] at he
  split at he
  · cases he
    exact .inr ⟨rfl, rfl⟩
  · cases he
    exact .inl ⟨_, rfl, rfl⟩

/-- A request about no instance leaves the instance of its call as it is. -/
theorem after_node {q : Request} {r : Except String (Answer q)} (hq : q.instance = none) :
    (after l q r).node = l.node := by
  unfold after
  split <;> try split
  all_goals first
    | rfl
    | cases hq

/-- `Mine` speaks of four fields only. -/
theorem Mine.of_local (h : Mine l w) (hn : l'.node = l.node) (hp : l'.promise = l.promise)
    (hr : l'.restore = l.restore) (hs : l'.stopping = l.stopping) : Mine l' w :=
  ⟨hn ▸ h.bound, hn ▸ h.fresh, hn ▸ h.starting, hn ▸ h.unseeded, hn ▸ h.loaded, hp ▸ h.promise,
    hr ▸ h.restoring, hs ▸ h.stops⟩

theorem Apart.of_local (h : Apart l o) (hn : l'.node = l.node) (hp : l'.promise = l.promise)
    (hr : l'.restore = l.restore) (hs : l'.stopping = l.stopping) : Apart l' o :=
  ⟨hn ▸ h.node, hp ▸ h.promise, hr ▸ h.restore, hs ▸ h.stopping⟩

theorem Apart.of_local' (h : Apart o l) (hn : l'.node = l.node) (hp : l'.promise = l.promise)
    (hr : l'.restore = l.restore) : Apart o l' :=
  ⟨hn ▸ h.node, hp ▸ h.promise, hr ▸ h.restore, hn ▸ h.stopping⟩

/-- A request keeps its own call in order. -/
theorem after_mine {j : Task} {q : Request} {r : Except String (Answer q)} (hat : At j l q)
    (he : exec q c w = some (r, w')) (h : Mine l w) : Mine (after l q r) w' := by
  obtain ⟨hp, hr, -, hs⟩ := after_kept l q r
  obtain ⟨hwp, hwr, -, -, -, hww⟩ := exec_kept he
  cases q with
  | acquireRunLock i =>
    have hn : l.node = some (i, .assigned) := hat
    rcases exec_acquireRunLock he with ⟨rfl, rfl⟩ | ⟨rfl, lock, rfl⟩
    · exact h
    · have hfresh := h.fresh i _ hn (.inr rfl)
      refine Mine.of_eq (w := w.setWallet i fun x => { x with releaseRunLock := true }) ?_ rfl
        (.inl rfl) (.inl rfl)
      refine ⟨?_, ?_, ?_, ?_, ?_, h.promise, h.restoring, fun i hs => ?_⟩
      rotate_right
      · simpa [Page.setWallet] using h.stops i hs
      all_goals
        rintro i st ⟨⟩
        try rw [h.own hn, hfresh]
      · simpa [Page.setWallet] using h.bound _ _ hn
      · rintro (h | h) <;> cases h
      · exact fun _ => ⟨rfl, rfl⟩
      · exact fun _ => rfl
  | loadSeed i =>
    have hn : l.node = some (i, .locked) := hat
    rcases exec_loadSeed he with ⟨e, rfl, rfl⟩ | ⟨rfl, rfl⟩
    · exact h
    · obtain ⟨hidle, hlock⟩ := h.starting i _ hn rfl
      refine ⟨?_, ?_, ?_, ?_, ?_, h.promise, h.restoring, fun i hs => ?_⟩
      rotate_right
      · simpa [Page.setWallet] using h.stops i hs
      all_goals
        intro i' st hn'
        simp only [after, Option.some.injEq, Prod.mk.injEq] at hn'
        obtain ⟨rfl, hst⟩ := hn'
        try rw [h.own hn]
      · simpa [Page.setWallet] using h.bound _ _ hn
      · cases hs : parseSeed (w.db .ldkSeed) <;> simp [stageOf, hs] at hst <;> simp [← hst]
      · exact fun _ => ⟨hidle, hlock⟩
      · cases hs : parseSeed (w.db .ldkSeed) <;> simp [stageOf, hs] at hst <;> simp [← hst]
      · cases hs : parseSeed (w.db .ldkSeed) <;> simp [stageOf, hs] at hst
        simp [← hst]
  | storeSeed i s =>
    have hn : l.node = some (i, .blank) := hat
    rcases exec_storeSeed he with ⟨e, rfl, rfl⟩ | ⟨rfl, rfl⟩
    · exact h
    · obtain ⟨hidle, hlock⟩ := h.starting i _ hn rfl
      have h' : Mine l (w.store .ldkSeed (some (.seed s))) := h.of_eq rfl (.inl rfl) (.inl rfl)
      refine ⟨?_, ?_, ?_, ?_, ?_, h.promise, h.restoring, fun i hs => ?_⟩
      rotate_right
      · simpa [Page.setWallet] using h'.stops i hs
      all_goals
        rintro i' st ⟨⟩
        try rw [h'.own hn]
      · simpa [Page.setWallet] using h'.bound _ _ hn
      · simp
      · exact fun _ => ⟨hidle, hlock⟩
      · simp
  | _ => exact (h.of_local (after_node rfl) hp hr hs).of_eq (hww rfl) (.inl hwp) (.inl hwr)

/-- A request keeps every other call in order. -/
theorem after_others {j : Task} {q : Request} {r : Except String (Answer q)} (hat : At j l q)
    (he : exec q c w = some (r, w')) (ho : Mine o w) (hlo : Apart l o) (hol : Apart o l) :
    Mine o w' ∧ Apart (after l q r) o ∧ Apart o (after l q r) := by
  obtain ⟨hp, hr, -, hs⟩ := after_kept l q r
  obtain ⟨hwp, hwr, -, -, -, hww⟩ := exec_kept he
  cases q with
  | acquireRunLock i =>
    have hn : l.node = some (i, .assigned) := hat
    rcases exec_acquireRunLock he with ⟨rfl, rfl⟩ | ⟨rfl, lock, rfl⟩
    · exact ⟨ho, hlo, hol⟩
    · exact ⟨(ho.setWallet fun st hn' => absurd hn' (hlo.node _ _ st hn)).of_eq rfl (.inl rfl)
        (.inl rfl), hlo.move hn _, hol.moved hn (by simp)⟩
  | loadSeed i =>
    have hn : l.node = some (i, .locked) := hat
    rcases exec_loadSeed he with ⟨e, rfl, rfl⟩ | ⟨rfl, rfl⟩
    · exact ⟨ho, hlo, hol⟩
    · exact ⟨ho.setWallet fun st hn' => absurd hn' (hlo.node _ _ st hn), hlo.move hn _,
        hol.moved hn (by simp)⟩
  | storeSeed i s =>
    have hn : l.node = some (i, .blank) := hat
    rcases exec_storeSeed he with ⟨e, rfl, rfl⟩ | ⟨rfl, rfl⟩
    · exact ⟨ho, hlo, hol⟩
    · have ho' : Mine o (w.store .ldkSeed (some (.seed s))) := ho.of_eq rfl (.inl rfl) (.inl rfl)
      exact ⟨ho'.setWallet fun st hn' => absurd hn' (hlo.node _ _ st hn), hlo.move hn _,
        hol.moved hn (by simp)⟩
  | _ =>
    exact ⟨ho.of_eq (hww rfl) (.inl hwp) (.inl hwr), hlo.of_local (after_node rfl) hp hr hs,
      hol.of_local' (after_node rfl) hp hr⟩

/-! ## Arrivals and events -/

theorem Arrive.kept (ha : Arrive l w l') :
    l'.node = l.node ∧ l'.promise = l.promise ∧ l'.restore = l.restore ∧
      (l'.stopping = l.stopping ∨ l'.stopping = some none ∨ l'.stopping = none) := by
  cases ha with
  | stay _ | openStart _ _ _ _ | openRestore _ _ _ _ | wait _ _ =>
    exact ⟨rfl, rfl, rfl, .inl rfl⟩
  | check _ => exact ⟨rfl, rfl, rfl, .inr (.inl rfl)⟩
  | finish hq => exact ⟨hq.node.symm, hq.promise.symm, hq.restore.symm, .inr (.inr rfl)⟩

theorem Arrive.mine (ha : Arrive l w l') (h : Mine l w) : Mine l' w := by
  obtain ⟨hn, hp, hr, hs⟩ := ha.kept
  refine ⟨hn ▸ h.bound, hn ▸ h.fresh, hn ▸ h.starting, hn ▸ h.unseeded, hn ▸ h.loaded, hp ▸ h.promise,
    hr ▸ h.restoring, fun i hi => ?_⟩
  rcases hs with hs | hs | hs
  · exact h.stops i (hs ▸ hi)
  · rw [hs] at hi
    cases hi
  · rw [hs] at hi
    cases hi

theorem Arrive.others (ha : Arrive l w l') (hlo : Apart l o) (hol : Apart o l) :
    Apart l' o ∧ Apart o l' := by
  obtain ⟨hn, hp, hr, hs⟩ := ha.kept
  refine ⟨⟨hn ▸ hlo.node, hp ▸ hlo.promise, hr ▸ hlo.restore, fun i st hi => ?_⟩, hol.of_local' hn hp hr⟩
  rcases hs with hs | hs | hs
  · exact hlo.stopping i st (hs ▸ hi)
  · rw [hs] at hi
    cases hi
  · rw [hs] at hi
    cases hi

end Requests

/-- What belongs to a call, in every configuration. -/
abbrev Owned : Page → (Nat → Local) → Prop := Control.Together Mine Apart

theorem Owned.sync {locals : Nat → Local} {n : Nat} (h : Owned w locals)
    (hs : Sync (locals n) w l' w') : Owned w' (Function.update locals n l') :=
  h.update n (hs.mine (h.mine n)) fun _ ho hlo hol => hs.others ho hlo hol

theorem Owned.act {locals : Nat → Local} {n : Nat} {j : Task} {q : Request} {c : Choice}
    {r : Except String (Answer q)} (h : Owned w locals) (hat : At j (locals n) q)
    (he : exec q c w = some (r, w')) : Owned w' (Function.update locals n (after (locals n) q r)) :=
  h.update n (after_mine hat he (h.mine n)) fun _ ho hlo hol => after_others hat he ho hlo hol

theorem Owned.arrive {locals : Nat → Local} {n : Nat} (h : Owned w locals)
    (ha : Arrive (locals n) w l') : Owned w (Function.update locals n l') :=
  h.update n (ha.mine (h.mine n)) fun _ ho hlo hol => ⟨ho, ha.others hlo hol⟩

theorem Owned.initial (w : Page) : Owned w fun _ => {} where
  mine := fun _ => ⟨nofun, nofun, nofun, nofun, nofun, nofun, nofun, nofun⟩
  apart := fun _ _ _ => ⟨nofun, fun h => absurd rfl h, nofun, nofun⟩

end LibreWallet.Lifecycle
