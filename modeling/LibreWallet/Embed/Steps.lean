import LibreWallet.Embed.Contract

/-
  Embed/Steps.lean --- requests and events keep the invariant.

  The protocol of the embed machine, and one lemma for each kind of step: a request
  that takes effect, an event, and one more update of a page by its own code.
-/

set_option autoImplicit false

namespace LibreWallet.Embed

open Async Controller Roaming

/-! ## Page invariants -/

/-- Two pages that differ in timers and counters only. -/
structure SameCore (p q : Page) : Prop where
  origin : q.origin = p.origin
  status : q.status = p.status
  wallet : q.wallet = p.wallet
  lastWritten : q.lastWritten = p.lastWritten
  view : q.view = p.view
  preClaim : q.preClaimRecord = p.preClaimRecord
  postClaim : q.postClaimRecord = p.postClaimRecord
  override : q.overrideUnprovenHandoff = p.overrideUnprovenHandoff
  flushed : q.flushedVersion = p.flushedVersion

theorem SameCore.pageStep {d : Drive} {verb : Verb} {p q : Page} (h : SameCore p q) :
    PageStep d verb p q where
  origin := h.origin
  status := h.status
  wallet := h.wallet
  preClaim := fun hp => by rwa [h.preClaim]
  override := fun hp => by rwa [h.override]
  overrideBy := fun hp => .inl (by rwa [h.override] at hp)
  flushed := Nat.le_of_eq h.flushed.symm
  lastWritten := fun hp => by rwa [h.lastWritten]

namespace PageInv

variable {d d' : Drive} {R R' : Prop} {t : String} {p : Page}

theorem core {q : Page} (h : PageInv d R t p) (hq : SameCore p q)
    (ho : p.status ≠ .unopened) : PageInv d R t q where
  unopened := fun hs => absurd (hq.status ▸ hs) ho
  postClaim := by rw [hq.postClaim]; exact h.postClaim
  lastWritten := by rw [hq.lastWritten]; exact h.lastWritten
  blocked := by rw [hq.view, hq.preClaim]; exact h.blocked
  needSecret := by rw [hq.view, hq.preClaim, hq.lastWritten]; exact h.needSecret
  halted := by rw [hq.view, hq.preClaim, hq.lastWritten]; exact h.halted
  flushed := by rw [hq.flushed]; exact h.flushed

theorem mono (h : PageInv d R t p) (hf : d'.firstLease = d.firstLease)
    (hw : d.writes <:+ d'.writes) (hu : d.uploads <:+ d'.uploads) (hR : R → R') :
    PageInv d' R' t p where
  unopened := h.unopened
  postClaim := fun r hr => held_mono (h.postClaim r hr) hf hw
  lastWritten := fun r hr => by
    obtain ⟨x, hx, hrest⟩ := h.lastWritten r hr
    exact ⟨x, hw.subset hx, hrest⟩
  blocked := fun o e hv => held_mono (h.blocked o e hv) hf hw
  needSecret := fun hv => ⟨held_mono (h.needSecret hv).1 hf hw, (h.needSecret hv).2⟩
  halted := fun r m o hv => ⟨held_mono (h.halted r m o hv).1 hf hw, (h.halted r m o hv).2⟩
  flushed := by
    rcases h.flushed with hr | h0 | ⟨e, he, hle⟩
    · exact .inl (hR hr)
    · exact .inr (.inl h0)
    · exact .inr (.inr ⟨e, hu.subset he, hle⟩)

/-- A fresh page. -/
theorem fresh (origin : String) (appName : Option String) (status : PageStatus)
    (hs : status ≠ .unopened) : PageInv d R t { origin, appName, status } where
  unopened := fun h => absurd h hs
  postClaim := by simp
  lastWritten := by simp
  blocked := by simp
  needSecret := by simp
  halted := by simp
  flushed := .inr (.inl rfl)

end PageInv

/-! ## Requests -/

/-- The controller's verbs act on their own origin and page only. -/
theorem setNode_evolves {w : World} {t : String} {n : Node} {l : List Note}
    (hs : (w.store t).db.seed.isSome = true → n.store.db.seed.isSome = true)
    (hv : (∃ u, Note.restore u (w.pages t).origin ∈ l) ∨
      (w.store t).db.stateVersion ≤ n.store.db.stateVersion) :
    Evolves w { w.setNode t n with log := l ++ w.log } := by
  have page : ∀ u, (w.setNode t n).pages u = w.pages u ∨
      (u = t ∧ (w.setNode t n).pages u = { w.pages u with wallet := n.wallet }) := by
    intro u
    by_cases hu : u = t
    · exact .inr ⟨hu, by rw [hu, World.setNode_self]⟩
    · exact .inl (World.setNode_of_ne _ _ _ hu)
  refine
    { clock := Nat.le_refl _
      firstLease := rfl
      writes := List.suffix_rfl
      firstBackup := rfl
      uploads := List.suffix_rfl
      log := ⟨l, rfl⟩
      opened := fun u hu => ?_
      origin := fun u _ => ?_
      preClaim := fun u hu => ?_
      override := fun u hu => ?_
      flushed := fun u => ?_
      lastWritten := fun u hu => ?_
      seed := fun o ho => ?_
      version := fun o => ?_ }
  · rcases page u with h | ⟨-, h⟩ <;> simpa [Opened, h] using hu
  · rcases page u with h | ⟨-, h⟩ <;> simp [h]
  · rcases page u with h | ⟨-, h⟩ <;> simpa [h] using hu
  · rcases page u with h | ⟨-, h⟩ <;> simpa [h] using hu
  · rcases page u with h | ⟨-, h⟩ <;> simp [h]
  · rcases page u with h | ⟨-, h⟩ <;> simpa [h] using hu
  · change ((w.setNode t n).origins o).db.seed.isSome = true
    rw [World.setNode_origins]
    split
    · rename_i heq
      exact hs (by rwa [World.store, ← heq])
    · exact ho
  · have key : version w o ≤ (if o = (w.pages t).origin then n.store else w.origins o).db.stateVersion ∨
        o = (w.pages t).origin ∧ ∃ u, Note.restore u (w.pages t).origin ∈ l := by
      split
      · rename_i heq
        exact hv.symm.imp (by rw [version, heq]; exact id) (⟨heq, ·⟩)
      · exact .inl (Nat.le_refl _)
    rcases key with hle | ⟨rfl, u, hu⟩
    · refine .inr ?_
      change version w o ≤ ((w.setNode t n).origins o).db.stateVersion
      rwa [World.setNode_origins]
    · exact .inl ⟨u, List.mem_append_left _ hu⟩

theorem setNode_inv {w : World} {t : String} {n : Node} {l : List Note} (hi : Inv w)
    (ho : Opened w t) : Inv { w.setNode t n with log := l ++ w.log } := by
  intro u
  have h : PageInv w.drive
      (Restored { w.setNode t n with log := l ++ w.log } (w.pages u).origin) u (w.pages u) :=
    (hi u).mono rfl List.suffix_rfl List.suffix_rfl
      fun ⟨v, hv⟩ => ⟨v, List.mem_append_right _ hv⟩
  change PageInv w.drive (Restored _ ((w.setNode t n).pages u).origin) u ((w.setNode t n).pages u)
  by_cases hu : u = t
  · subst hu
    rw [World.setNode_self]
    exact { h with unopened := fun hs => absurd hs ho }
  · rwa [World.setNode_of_ne _ _ _ hu]

theorem writeLease_respects {w : World} (t : String) (how : WriteKind)
    (rec : RoamingLeaseRecord) (hi : Inv w) :
    Evolves w (w.writeLease t how rec) ∧ Inv (w.writeLease t how rec) := by
  have hw : w.drive.writes <:+ (w.writeLease t how rec).drive.writes := ⟨[_], rfl⟩
  refine ⟨?_, fun u => (hi u).mono rfl hw List.suffix_rfl id⟩
  exact { Evolves.refl w with
    writes := hw
    preClaim := fun u hu => held_mono hu rfl hw }

theorem upload_respects {w : World} (e : Envelope) (hi : Inv w) :
    Evolves w (w.upload e) ∧ Inv (w.upload e) := by
  have hu : w.drive.uploads <:+ (w.upload e).drive.uploads := ⟨[_], rfl⟩
  refine ⟨?_, fun u => (hi u).mono rfl List.suffix_rfl hu id⟩
  exact { Evolves.refl w with
    uploads := hu
    preClaim := fun u hu => held_mono hu rfl List.suffix_rfl }

/-- A request that takes effect keeps the invariant and is a step for the others. -/
theorem exec_respects {t : String} {q : Request} {c : Choice} {w w' : World}
    {r : Except Err (Answer q)} (hi : Inv w) (ho : Opened w t)
    (he : exec t q c w = some (r, w')) : Evolves w w' ∧ Inv w' := by
  have stay : w' = w → Evolves w w' ∧ Inv w' := by
    rintro rfl
    exact ⟨Evolves.refl _, hi⟩
  cases q with
  | leaseRead site | readLocal | fetchBackup | verifyEnvelope | exportBackup =>
    simp only [exec, Option.some.injEq, Prod.mk.injEq] at he
    exact stay he.2.symm
  | delayUntil deadline =>
    simp only [exec] at he
    split at he
    · simp only [Option.some.injEq, Prod.mk.injEq] at he
      exact stay he.2.symm
    · cases he
  | leaseWrite how rec =>
    simp only [exec, Option.some.injEq, Prod.mk.injEq] at he
    by_cases hc : c = .fail
    · rw [if_pos hc] at he
      exact stay he.2.symm
    · rw [if_neg hc] at he
      exact he.2 ▸ writeLease_respects t how rec hi
  | uploadBackup e =>
    simp only [exec, Option.some.injEq, Prod.mk.injEq] at he
    by_cases hc : c = .fail
    · rw [if_pos hc] at he
      exact stay he.2.symm
    · rw [if_neg hc] at he
      exact he.2 ▸ upload_respects e hi
  | startNode =>
    simp only [exec, World.act, Option.some.injEq, Prod.mk.injEq] at he
    obtain ⟨-, rfl⟩ := he
    obtain ⟨hv, hs⟩ := startNode_none t (decide (c = .ok)) (w.node t)
    exact ⟨setNode_evolves (l := []) (fun h => by rw [embedFetched, hs h]; exact h)
      (.inr (Nat.le_of_eq hv.symm)), setNode_inv (l := []) hi ho⟩
  | restore envelope secret =>
    simp only [exec, World.act, Option.some.injEq, Prod.mk.injEq] at he
    obtain ⟨-, rfl⟩ := he
    have hs := restoreWallet_seed t (decide (c = .ok)) (w.node t) envelope secret
    exact ⟨setNode_evolves (l := [.restore t (w.pages t).origin]) hs (.inl ⟨t, by simp⟩),
      setNode_inv (l := [.restore t (w.pages t).origin]) hi ho⟩
  | stopNode =>
    simp only [exec, World.act, Option.some.injEq, Prod.mk.injEq] at he
    obtain ⟨-, he⟩ := he
    obtain ⟨hdb, -⟩ := stopNode_db t (decide (c = .ok)) (w.node t)
    have hs : (w.store t).db.seed.isSome = true →
        (stopNode t (decide (c = .ok)) (w.node t)).2.store.db.seed.isSome = true := by
      rw [hdb]
      exact id
    have hv : (w.store t).db.stateVersion ≤
        (stopNode t (decide (c = .ok)) (w.node t)).2.store.db.stateVersion := by
      rw [hdb]
      exact Nat.le_refl _
    rcases ite_eq_iff.mp he with ⟨-, rfl⟩ | ⟨-, rfl⟩
    · exact ⟨setNode_evolves (l := [_]) hs (.inr hv), setNode_inv (l := [_]) hi ho⟩
    · exact ⟨setNode_evolves (l := []) hs (.inr hv), setNode_inv (l := []) hi ho⟩

/-! ## Events -/

/-- A page that is replaced by one which keeps what the others rely on. -/
theorem setPage_respects {w : World} {t : String} {f : Page → Page} (hi : Inv w)
    (ho : Opened w t → Opened (w.setPage t f) t ∧ (f (w.pages t)).origin = (w.pages t).origin)
    (hp : PageInv w.drive (Restored w (f (w.pages t)).origin) t (f (w.pages t)))
    (hpre : w.drive.Held (w.pages t).preClaimRecord → w.drive.Held (f (w.pages t)).preClaimRecord)
    (hov : (w.pages t).overrideUnprovenHandoff = true →
      (f (w.pages t)).overrideUnprovenHandoff = true)
    (hfl : (w.pages t).flushedVersion ≤ (f (w.pages t)).flushedVersion)
    (hlw : (w.pages t).lastWritten.isSome = true → (f (w.pages t)).lastWritten.isSome = true) :
    Evolves w (w.setPage t f) ∧ Inv (w.setPage t f) := by
  have page : ∀ u, (u ≠ t ∧ (w.setPage t f).pages u = w.pages u) ∨
      (u = t ∧ (w.setPage t f).pages u = f (w.pages t)) := by
    intro u
    by_cases hu : u = t
    · exact .inr ⟨hu, by rw [hu, World.setPage_self]⟩
    · exact .inl ⟨hu, World.setPage_of_ne _ _ _ hu⟩
  constructor
  · refine { Evolves.refl w with
      opened := fun u hu => ?_
      origin := fun u hu => ?_
      preClaim := fun u hu => ?_
      override := fun u hu => ?_
      flushed := fun u => ?_
      lastWritten := fun u hu => ?_ }
    · rcases page u with ⟨-, h⟩ | ⟨rfl, -⟩
      · simpa [Opened, h] using hu
      · exact (ho hu).1
    · rcases page u with ⟨-, h⟩ | ⟨rfl, h⟩
      · rw [h]
      · rw [h]
        exact (ho hu).2
    · rcases page u with ⟨-, h⟩ | ⟨rfl, h⟩ <;> rw [h]
      · exact hu
      · exact hpre hu
    · rcases page u with ⟨-, h⟩ | ⟨rfl, h⟩ <;> rw [h]
      · exact hu
      · exact hov hu
    · rcases page u with ⟨-, h⟩ | ⟨rfl, h⟩ <;> rw [h]
      exact hfl
    · rcases page u with ⟨-, h⟩ | ⟨rfl, h⟩ <;> rw [h]
      · exact hu
      · exact hlw hu
  · intro u
    rcases page u with ⟨-, h⟩ | ⟨rfl, h⟩ <;> rw [h]
    · exact hi u
    · exact hp

/-- The death of a page frees the lock of its origin. -/
theorem died_db (w : World) (t o : String) : ((died w t).origins o).db = (w.origins o).db := by
  have key : (Function.update w.origins (w.pages t).origin
      (if (w.store t).runLock = some t then { w.store t with runLock := none }
        else w.store t) o).db = (w.origins o).db := by
    by_cases h : o = (w.pages t).origin
    · subst h
      rw [Function.update_self]
      split <;> rfl
    · rw [Function.update_of_ne h]
  simp only [died]
  split <;> exact key

/-- What the death of a page leaves. -/
theorem died_respects {w : World} {t : String} (hi : Inv w) (ho : Opened w t) :
    Evolves w (died w t) ∧ Inv (died w t) := by
  have hlock := died_db w t
  have hpages : (died w t).pages = Function.update w.pages t
      { w.pages t with status := .closed, wallet := .absent, heartbeatTimer := none
                       syncTimer := none } := by
    simp only [died]
    split <;> rfl
  have hdrive : (died w t).drive = w.drive := by
    simp only [died]
    split <;> rfl
  have hclock : (died w t).clock = w.clock := by
    simp only [died]
    split <;> rfl
  have hlog : w.log <:+ (died w t).log := by
    simp only [died]
    split
    · exact ⟨[_], rfl⟩
    · exact List.suffix_rfl
  have page : ∀ u, (died w t).pages u = w.pages u ∨ (u = t ∧ (died w t).pages u =
      { w.pages u with status := .closed, wallet := .absent, heartbeatTimer := none
                       syncTimer := none }) := by
    intro u
    rw [hpages]
    by_cases hu : u = t
    · exact .inr ⟨hu, by rw [hu, Function.update_self]⟩
    · exact .inl (Function.update_of_ne hu _ _)
  constructor
  · refine
      { clock := Nat.le_of_eq hclock.symm
        firstLease := by rw [hdrive]
        writes := by rw [hdrive]
        firstBackup := by rw [hdrive]
        uploads := by rw [hdrive]
        log := hlog
        opened := fun u hu => ?_
        origin := fun u _ => ?_
        preClaim := fun u hu => ?_
        override := fun u hu => ?_
        flushed := fun u => ?_
        lastWritten := fun u hu => ?_
        seed := fun o ho => by rwa [hlock]
        version := fun o => .inr (by rw [version, version, hlock]) }
    · rcases page u with h | ⟨-, h⟩ <;> simp [Opened, h]
      exact hu
    · rcases page u with h | ⟨-, h⟩ <;> rw [h]
    · rw [hdrive]
      rcases page u with h | ⟨-, h⟩ <;> rwa [h]
    · rcases page u with h | ⟨-, h⟩ <;> rwa [h]
    · rcases page u with h | ⟨-, h⟩ <;> rw [h]
    · rcases page u with h | ⟨-, h⟩ <;> rwa [h]
  · intro u
    rw [hdrive]
    have h : PageInv w.drive (Restored (died w t) (w.pages u).origin) u (w.pages u) :=
      (hi u).mono rfl List.suffix_rfl List.suffix_rfl fun hr => hr.mono hlog
    rcases page u with hp | ⟨rfl, hp⟩
    · rwa [hp]
    · rw [hp]
      exact { h with unopened := fun hs => by cases hs }

/-- A node that advances. -/
theorem advanceNode_respects {w : World} (t : String) (hi : Inv w) :
    Evolves w (advanceNode w t) ∧ Inv (advanceNode w t) := by
  refine ⟨{ Evolves.refl w with seed := fun o ho => ?_, version := fun o => .inr ?_ }, hi⟩
  · rw [advanceNode_origins]
    split
    · rename_i h
      subst h
      exact ho
    · exact ho
  · rw [version, version, advanceNode_origins]
    split
    · rename_i h
      subst h
      exact Nat.le_succ _
    · exact Nat.le_refl _

theorem opened_of_alive {w : World} {t : String} (h : Alive w t) : Opened w t := by
  rw [Opened, h]
  decide

/-- An event keeps the invariant and is a step for everyone; the code that it calls
belongs to a page that was opened. -/
theorem effect_respects {e : Event} {w w' : World} (hi : Inv w) (he : effect e w = some w') :
    Evolves w w' ∧ Inv w' ∧ ∀ j p, handler e = some (j, p) → Opened w' j.token := by
  have stay : ∀ t, (if Alive w t then some w else none) = some w' →
      Evolves w w' ∧ Inv w' ∧ Opened w' t := by
    intro t h
    split at h
    · rename_i ha
      cases h
      exact ⟨Evolves.refl w, hi, opened_of_alive ha⟩
    · cases h
  -- a timer that fires is rearmed or cleared
  have timer : ∀ t (f : Page → Page), some (w.setPage t f) = some w' → Alive w t →
      (∀ p, SameCore p (f p)) → Evolves w w' ∧ Inv w' ∧ Opened w' t := by
    intro t f hw ha hf
    cases hw
    have hcore := hf (w.pages t)
    have ho : Opened (w.setPage t f) t := by
      rw [Opened, World.setPage_self, hcore.status]
      exact opened_of_alive ha
    have hstep : PageStep w.drive .tick (w.pages t) (f (w.pages t)) := hcore.pageStep
    obtain ⟨hev, hinv⟩ := setPage_respects hi (fun _ => ⟨ho, hcore.origin⟩)
      (hcore.origin ▸ (hi t).core hcore (opened_of_alive ha)) hstep.preClaim hstep.override hstep.flushed
      hstep.lastWritten
    exact ⟨hev, hinv, ho⟩
  cases e with
  | pass ms =>
    simp only [effect, Option.some.injEq] at he
    subst he
    exact ⟨{ Evolves.refl w with clock := Nat.le_add_right _ _ }, hi,
      fun j p hj => by cases hj⟩
  | openPage t origin appName =>
    simp only [effect] at he
    split at he
    · rename_i hs
      cases he
      have hdef := (hi t).unopened hs
      obtain ⟨hev, hinv⟩ := setPage_respects (f := fun _ => { origin, appName, status := .alive })
        hi (fun ho => absurd hs ho) (PageInv.fresh _ _ _ (by decide)) (by rw [hdef]; exact id)
        (by rw [hdef]; exact id) (by rw [hdef]) (by rw [hdef]; exact id)
      exact ⟨hev, hinv, fun j p hj => by cases hj⟩
    · cases he
  | closePage t =>
    simp only [effect] at he
    split at he
    · rename_i ha
      cases he
      obtain ⟨hev, hinv⟩ := died_respects hi (opened_of_alive ha)
      exact ⟨hev, hinv, fun j p hj => by cases hj⟩
    · cases he
  | advance t =>
    simp only [effect] at he
    split at he
    · cases he
      obtain ⟨hev, hinv⟩ := advanceNode_respects t hi
      exact ⟨hev, hinv, fun j p hj => by cases hj⟩
    · cases he
  | heartbeat t =>
    simp only [effect] at he
    split at he
    · split at he
      · rename_i ha
        obtain ⟨hev, hinv, ho⟩ := timer t _ he ha.1
          fun p => ⟨rfl, rfl, rfl, rfl, rfl, rfl, rfl, rfl, rfl⟩
        exact ⟨hev, hinv, fun j p hj => by cases hj; exact ho⟩
      · cases he
    · cases he
  | syncFires t =>
    simp only [effect] at he
    split at he
    · split at he
      · rename_i ha
        obtain ⟨hev, hinv, ho⟩ := timer t _ he ha.1
          fun p => ⟨rfl, rfl, rfl, rfl, rfl, rfl, rfl, rfl, rfl⟩
        exact ⟨hev, hinv, fun j p hj => by cases hj; exact ho⟩
      · cases he
    · cases he
  | boot t | moveHere t _ | submitSecret t _ | forceRestoreAnyway t | dispose t | hidden t
  | pageHide t | controllerEvent t _ _ =>
    obtain ⟨hev, hinv, ho⟩ := stay t he
    exact ⟨hev, hinv, fun j p hj => by cases hj; exact ho⟩

/-! ## The protocol -/

/-- What the embed machine keeps. -/
def protocol : Protocol embed where
  inv := Inv
  rely := Evolves
  sync := SyncStep
  oblige := Obliged
  rely_refl := Evolves.refl
  rely_trans := Evolves.trans
  sync_refl := SyncStep.refl
  sync_rely := fun _ _ _ h => h.evolves

/-- The contract of a job. -/
abbrev contract (j : Job) : Contract World Request Answer Err Choice := protocol.contract j

end LibreWallet.Embed
