import LibreWallet.Async.Machine

/-
  Async/Logic.lean --- a rely-guarantee logic for asynchronous procedures.

  `wp R p h Post s w` is the weakest precondition of a procedure that resumed at
  the state `s`, has reached the state `w`, and has already made the requests
  `h` (newest first).  At every `await` the procedure owes the invariant and what
  its synchronous code promises (`sync`); everyone else may then move by `rely`;
  when the request takes effect, `oblige` has to hold of it, of the state it finds
  and of the procedure's own earlier requests, and the effect is within `guar`.

  Two adequacy theorems connect it to executions: `Solo.sound`, for one procedure
  that runs to its end while others interfere, and `Protocol.invariant_of_run`, for
  every configuration that a machine reaches.  `Protocol.step_cases` then says
  once what a step of the machine can do; the invariants of particular runs are
  derived from it.
-/

set_option autoImplicit false

namespace LibreWallet.Async

variable {W Q : Type} {A : Q → Type} {ε C J E α β : Type}

/-- What one procedure relies on, guarantees and has to establish. -/
structure Contract (W Q : Type) (A : Q → Type) (ε C : Type) where
  exec : (q : Q) → C → W → Option (Except ε (A q) × W)
  /-- Holds between any two steps. -/
  inv : W → Prop
  /-- What the others may do between two steps of the procedure. -/
  rely : W → W → Prop
  /-- What its synchronous code does, from a resume to the next `await`. -/
  sync : W → W → Prop
  /-- What its requests do. -/
  guar : W → W → Prop
  /-- The effects that the environment lets happen. -/
  allow : List (Entry W Q A ε) → Q → C → W → Prop
  /-- What has to hold when a request takes effect. -/
  oblige : List (Entry W Q A ε) → Q → W → Prop

/-- A postcondition: the requests made, the result, the state of the last resume
and the present state. -/
abbrev PostCond (W Q : Type) (A : Q → Type) (ε α : Type) : Type :=
  List (Entry W Q A ε) → Except ε α → W → W → Prop

/-- Weakest precondition. -/
def wp (R : Contract W Q A ε C) :
    Proc W Q A ε α → List (Entry W Q A ε) → PostCond W Q A ε α → W → W → Prop
  | .done a, h, Post, s, w => Post h (.ok a) s w
  | .fail e, h, Post, s, w => Post h (.error e) s w
  | .sync f k, h, Post, s, w => wp R (k w) h Post s (f w)
  | .await q k, h, Post, s, w =>
      R.sync s w ∧ R.inv w ∧
      ∀ w₁, R.rely w w₁ → R.inv w₁ →
      ∀ c r w₂, R.allow h q c w₁ → R.exec q c w₁ = some (r, w₂) →
        R.oblige h q w₁ ∧ R.guar w₁ w₂ ∧ R.inv w₂ ∧
        ∀ w₃, R.rely w₂ w₃ → R.inv w₃ →
          wp R (k r) (⟨q, r, w₁⟩ :: h) Post w₃ w₃

section Rules

variable {R : Contract W Q A ε C} {h : List (Entry W Q A ε)} {s w : W}

@[simp] theorem wp_done {a : α} {Post : PostCond W Q A ε α} :
    wp R (.done a) h Post s w ↔ Post h (.ok a) s w := Iff.rfl

@[simp] theorem wp_fail {e : ε} {Post : PostCond W Q A ε α} :
    wp R (.fail e) h Post s w ↔ Post h (.error e) s w := Iff.rfl

@[simp] theorem wp_ofExcept {r : Except ε α} {Post : PostCond W Q A ε α} :
    wp R (.ofExcept r) h Post s w ↔ Post h r s w := by
  cases r <;> rfl

@[simp] theorem wp_get {Post : PostCond W Q A ε W} :
    wp R .get h Post s w ↔ Post h (.ok w) s w := Iff.rfl

@[simp] theorem wp_modify {f : W → W} {Post : PostCond W Q A ε Unit} :
    wp R (.modify f) h Post s w ↔ Post h (.ok ()) s (f w) := Iff.rfl

/-- A request: pay at the `await`, then go on from the answer or the rejection. -/
theorem wp_request {q : Q} {Post : PostCond W Q A ε (A q)} :
    wp R (.request q) h Post s w ↔
      R.sync s w ∧ R.inv w ∧
      ∀ w₁, R.rely w w₁ → R.inv w₁ →
      ∀ c r w₂, R.allow h q c w₁ → R.exec q c w₁ = some (r, w₂) →
        R.oblige h q w₁ ∧ R.guar w₁ w₂ ∧ R.inv w₂ ∧
        ∀ w₃, R.rely w₂ w₃ → R.inv w₃ → Post (⟨q, r, w₁⟩ :: h) r w₃ w₃ := by
  simp only [Proc.request, wp, wp_ofExcept]

/-- Sequencing: an error skips the rest. -/
@[simp] theorem wp_bind {p : Proc W Q A ε α} {g : α → Proc W Q A ε β}
    {Post : PostCond W Q A ε β} :
    wp R (p.bind g) h Post s w ↔
      wp R p h (fun h' r s' w' =>
        match r with
        | .ok a => wp R (g a) h' Post s' w'
        | .error e => Post h' (.error e) s' w') s w := by
  induction p generalizing h s w with
  | done a => rfl
  | fail e => rfl
  | sync f k ih => exact ih w
  | await q k ih =>
    simp only [Proc.bind, wp, ih]

/-- Catching: the handler takes an error, a value passes. -/
@[simp] theorem wp_rescue {p : Proc W Q A ε α} {g : ε → Proc W Q A ε α}
    {Post : PostCond W Q A ε α} :
    wp R (p.rescue g) h Post s w ↔
      wp R p h (fun h' r s' w' =>
        match r with
        | .ok a => Post h' (.ok a) s' w'
        | .error e => wp R (g e) h' Post s' w') s w := by
  induction p generalizing h s w with
  | done a => rfl
  | fail e => rfl
  | sync f k ih => exact ih w
  | await q k ih =>
    simp only [Proc.rescue, wp, ih]

@[simp] theorem wp_attempt {p : Proc W Q A ε α} {Post : PostCond W Q A ε (Except ε α)} :
    wp R p.attempt h Post s w ↔ wp R p h (fun h' r s' w' => Post h' (.ok r) s' w') s w := by
  induction p generalizing h s w with
  | done a => rfl
  | fail e => rfl
  | sync f k ih => exact ih w
  | await q k ih =>
    have key : ∀ r h' s' w',
        wp R (((k r).bind fun a => .done (.ok a)).rescue fun e => .done (.error e)) h' Post s' w' ↔
          wp R (k r) h' (fun h'' r' s'' w'' => Post h'' (.ok r') s'' w'') s' w' :=
      fun r h' s' w' => ih r
    simp only [Proc.attempt, Proc.bind, Proc.rescue, wp, key]

/-- Consequence. -/
theorem wp.mono {p : Proc W Q A ε α} {Post Post' : PostCond W Q A ε α}
    (hp : wp R p h Post s w)
    (hPost : ∀ h' r s' w', Post h' r s' w' → Post' h' r s' w') :
    wp R p h Post' s w := by
  induction p generalizing h s w with
  | done a => exact hPost _ _ _ _ hp
  | fail e => exact hPost _ _ _ _ hp
  | sync f k ih => exact ih w hp
  | await q k ih =>
    refine ⟨hp.1, hp.2.1, fun w₁ hr hi c r w₂ ha he => ?_⟩
    obtain ⟨ho, hg, hi₂, hk⟩ := hp.2.2 w₁ hr hi c r w₂ ha he
    exact ⟨ho, hg, hi₂, fun w₃ hr₃ hi₃ => ih r (hk w₃ hr₃ hi₃)⟩

/-- Synchronous code keeps its own precondition until it next stops. -/
theorem wp_advance {p : Proc W Q A ε α} {Post : PostCond W Q A ε α}
    (hp : wp R p h Post s w) :
    wp R (p.advance w).2 h Post s (p.advance w).1 := by
  induction p generalizing w with
  | done a => exact hp
  | fail e => exact hp
  | sync f k ih => exact ih w hp
  | await q k _ => exact hp

end Rules

/-! ## One procedure among interfering others -/

/-- `Solo R p h w h' r w'`: the procedure `p`, standing at `w` with the requests
`h` behind it, ends with the result `r` at `w'` and the requests `h'`; before
each of its steps the others may move by `R.rely`. -/
inductive Solo (R : Contract W Q A ε C) :
    Proc W Q A ε α → List (Entry W Q A ε) → W →
      List (Entry W Q A ε) → Except ε α → W → Prop where
  | done {a : α} {h : List (Entry W Q A ε)} {w : W} : Solo R (.done a) h w h (.ok a) w
  | fail {e : ε} {h : List (Entry W Q A ε)} {w : W} : Solo R (.fail e) h w h (.error e) w
  | sync {f : W → W} {k : W → Proc W Q A ε α} {h h' : List (Entry W Q A ε)} {w w' : W}
      {r : Except ε α} : Solo R (k w) h (f w) h' r w' → Solo R (.sync f k) h w h' r w'
  | await {q : Q} {k : Except ε (A q) → Proc W Q A ε α} {h h' : List (Entry W Q A ε)}
      {w w₁ w₂ w₃ w' : W} {c : C} {a : Except ε (A q)} {r : Except ε α} :
      R.rely w w₁ → R.allow h q c w₁ → R.exec q c w₁ = some (a, w₂) → R.rely w₂ w₃ →
      Solo R (k a) (⟨q, a, w₁⟩ :: h) w₃ h' r w' → Solo R (.await q k) h w h' r w'

/-- Adequacy for one procedure: the postcondition holds when it ends.  The
invariant has to survive the interference. -/
theorem Solo.sound {R : Contract W Q A ε C}
    (hrely : ∀ w w', R.rely w w' → R.inv w → R.inv w')
    {p : Proc W Q A ε α} {h h' : List (Entry W Q A ε)} {w w' : W} {r : Except ε α}
    (run : Solo R p h w h' r w') {Post : PostCond W Q A ε α} {s : W}
    (hp : wp R p h Post s w) : ∃ s', Post h' r s' w' := by
  induction run generalizing s with
  | done => exact ⟨s, hp⟩
  | fail => exact ⟨s, hp⟩
  | sync _ ih => exact ih hp
  | @await q k h₀ h₁ w₀ w₁ w₂ w₃ w₄ c a r₀ hr₁ ha he hr₂ _ ih =>
    obtain ⟨-, hi, hk⟩ := hp
    have hi₁ : R.inv w₁ := hrely _ _ hr₁ hi
    obtain ⟨-, -, hi₂, hk⟩ := hk w₁ hr₁ hi₁ c a w₂ ha he
    exact ih (hk w₃ hr₂ (hrely _ _ hr₂ hi₂))

/-! ## Every configuration of a machine -/

/-- An invariant, a relation that every step respects, and what each caller's
procedures do and have to establish. -/
structure Protocol (M : Machine W Q A ε C J E) where
  inv : W → Prop
  rely : W → W → Prop
  sync : J → W → W → Prop
  oblige : J → List (Entry W Q A ε) → Q → W → Prop
  rely_refl : ∀ w, rely w w
  rely_trans : ∀ u v w, rely u v → rely v w → rely u w
  sync_refl : ∀ j w, sync j w w
  sync_rely : ∀ j v w, sync j v w → rely v w

namespace Protocol

variable {M : Machine W Q A ε C J E} (P : Protocol M)

/-- The contract of one caller's procedures. -/
def contract (j : J) : Contract W Q A ε C where
  exec := M.exec j
  inv := P.inv
  rely := P.rely
  sync := P.sync j
  guar := P.rely
  allow := fun _ _ _ _ => True
  oblige := P.oblige j

/-- What a procedure leaves at its end. -/
def ends (j : J) : PostCond W Q A ε Unit :=
  fun _ _ s w => P.sync j s w ∧ P.inv w

/-- A procedure that stands still is fit to go on after any interference. -/
def Parked (j : J) (p : Proc W Q A ε Unit) (h : List (Entry W Q A ε)) (w : W) : Prop :=
  ∀ w', P.rely w w' → P.inv w' → wp (P.contract j) p h (P.ends j) w' w'

/-- The invariant of configurations. -/
structure Sound (c : Config W Q A ε J) : Prop where
  inv : P.inv c.world
  parked : ∀ i j p, c.pool[i]? = some (j, p) → P.Parked j p (c.history i) c.world
  fresh : ∀ i, c.pool.length ≤ i → c.history i = []
  owned : ∀ x ∈ c.trace, ∃ p, c.pool[x.proc]? = some (x.job, p)
  past : ∀ x ∈ c.trace, P.rely x.entry.before c.world
  answered : ∀ x ∈ c.trace, ∃ ch w,
    M.exec x.job x.entry.request ch x.entry.before = some (x.entry.answer, w)

/-- What an event has to respect: the invariant, the others, and the contract of
the procedure it calls. -/
def Admits (e : E) : Prop :=
  ∀ w w' called, P.inv w → M.event e w = some (w', called) →
    P.rely w w' ∧
    match called with
    | none => P.inv w'
    | some (j, p) => wp (P.contract j) p [] (P.ends j) w' w'

variable {P}

theorem Parked.rely {j : J} {p : Proc W Q A ε Unit} {h : List (Entry W Q A ε)} {w w' : W}
    (hp : P.Parked j p h w) (hr : P.rely w w') : P.Parked j p h w' :=
  fun w'' hr' hi => hp w'' (P.rely_trans _ _ _ hr hr') hi

/-- Where a procedure stops it is parked, its synchronous code kept its promise,
and the invariant holds. -/
theorem parked_of_wp {j : J} {p : Proc W Q A ε Unit} {h : List (Entry W Q A ε)}
    {s w : W} (hp : wp (P.contract j) p h (P.ends j) s w) (hns : ∀ f k, p ≠ .sync f k) :
    P.Parked j p h w ∧ P.sync j s w ∧ P.inv w := by
  cases p with
  | done a =>
    exact ⟨fun w' _ hi => ⟨P.sync_refl j w', hi⟩, hp.1, hp.2⟩
  | fail e =>
    exact ⟨fun w' _ hi => ⟨P.sync_refl j w', hi⟩, hp.1, hp.2⟩
  | sync f k => exact absurd rfl (hns f k)
  | await q k =>
    obtain ⟨hs, hi, hk⟩ := hp
    refine ⟨fun w' hr hi' => ⟨P.sync_refl j w', hi', fun w₁ hr₁ => ?_⟩, hs, hi⟩
    exact hk w₁ (P.rely_trans _ _ _ hr hr₁)

theorem exists_of_mem_history {c : Config W Q A ε J} {i : Nat} {e : Entry W Q A ε}
    (h : e ∈ c.history i) : ∃ x ∈ c.trace, x.proc = i ∧ x.entry = e := by
  simp only [Config.history, List.mem_map, List.mem_filter, decide_eq_true_eq] at h
  obtain ⟨x, ⟨hx, hi⟩, rfl⟩ := h
  exact ⟨x, hx, hi, rfl⟩

theorem history_cons_self {c : Config W Q A ε J} {i : Nat} {j : J} {e : Entry W Q A ε}
    {w : W} {pool : List (J × Proc W Q A ε Unit)} :
    Config.history { world := w, pool := pool, trace := ⟨i, j, e⟩ :: c.trace } i =
      e :: c.history i := by
  simp [Config.history]

theorem history_cons_ne {c : Config W Q A ε J} {i i' : Nat} {j : J} {e : Entry W Q A ε}
    {w : W} {pool : List (J × Proc W Q A ε Unit)} (hne : i' ≠ i) :
    Config.history { world := w, pool := pool, trace := ⟨i, j, e⟩ :: c.trace } i' =
      c.history i' := by
  simp [Config.history, Ne.symm hne]

/-- A step by procedure `i` that moves the world within the rely keeps the others
parked. -/
theorem parked_set {c : Config W Q A ε J} (hc : P.Sound c) {i : Nat} {j : J}
    {p : Proc W Q A ε Unit} {w : W} (hrely : P.rely c.world w)
    {h : Nat → List (Entry W Q A ε)} (hp : P.Parked j p (h i) w)
    (hne : ∀ i', i' ≠ i → h i' = c.history i') :
    ∀ i' j' p', (c.pool.set i (j, p))[i']? = some (j', p') → P.Parked j' p' (h i') w := by
  intro i' j' p' hi'
  rw [List.getElem?_set] at hi'
  split at hi'
  · rename_i heq
    split at hi'
    · cases hi'
      exact heq ▸ hp
    · cases hi'
  · rename_i hneq
    rw [hne i' (fun heq => hneq heq.symm)]
    exact (hc.parked i' j' p' hi').rely hrely

/-- A step by procedure `i` leaves every procedure with its job. -/
theorem job_set {pool : List (J × Proc W Q A ε Unit)} {i i' : Nat} {j j' : J}
    {p₀ p : Proc W Q A ε Unit} (hi : pool[i]? = some (j, p₀))
    (h : ∃ q, pool[i']? = some (j', q)) : ∃ q, (pool.set i (j, p))[i']? = some (j', q) := by
  obtain ⟨q, hq⟩ := h
  by_cases heq : i = i'
  · subst heq
    rw [hi] at hq
    cases hq
    exact ⟨p, by rw [List.getElem?_set_self (List.getElem?_eq_some_iff.mp hi).1]⟩
  · exact ⟨q, by rw [List.getElem?_set_ne heq]; exact hq⟩

/-- A procedure that an event adds to the pool joins the others. -/
theorem parked_append {c : Config W Q A ε J} (hc : P.Sound c) {j : J}
    {p : Proc W Q A ε Unit} {w : W} (hrely : P.rely c.world w) (hp : P.Parked j p [] w) :
    ∀ i' j' p', (c.pool ++ [(j, p)])[i']? = some (j', p') →
      P.Parked j' p' (c.history i') w := by
  intro i' j' p' hi'
  rw [List.getElem?_append] at hi'
  split at hi'
  · exact (hc.parked i' j' p' hi').rely hrely
  · rename_i hlen
    have hnil : c.history i' = [] := hc.fresh i' (by omega)
    cases hsub : i' - c.pool.length with
    | zero =>
      rw [hsub] at hi'
      simp only [List.getElem?_cons_zero, Option.some.injEq, Prod.mk.injEq] at hi'
      obtain ⟨rfl, rfl⟩ := hi'
      rw [hnil]
      exact hp
    | succ n =>
      rw [hsub] at hi'
      simp at hi'

/-- The effects of procedure `i` in a trace. -/
def entriesOf (trace : List (Effect W Q A ε J)) (i : Nat) : List (Entry W Q A ε) :=
  (trace.filter (·.proc = i)).map (·.entry)

/-- An entry of a procedure's history, with what came before it, and its place in the
trace. -/
theorem split_of_history {trace : List (Effect W Q A ε J)} {i : Nat}
    {a b : List (Entry W Q A ε)} {e : Entry W Q A ε} (h : entriesOf trace i = a ++ e :: b) :
    ∃ later x earlier, trace = later ++ x :: earlier ∧ x.proc = i ∧ x.entry = e ∧
      entriesOf earlier i = b := by
  induction trace generalizing a with
  | nil => cases a <;> cases h
  | cons x trace ih =>
    by_cases hx : x.proc = i
    · have hcons : entriesOf (x :: trace) i = x.entry :: entriesOf trace i := by
        simp [entriesOf, hx]
      rw [hcons] at h
      cases a with
      | nil =>
        simp only [List.nil_append, List.cons.injEq] at h
        exact ⟨[], x, trace, rfl, hx, h.1, h.2⟩
      | cons y a =>
        simp only [List.cons_append, List.cons.injEq] at h
        obtain ⟨later, z, earlier, rfl, hrest⟩ := ih h.2
        exact ⟨x :: later, z, earlier, rfl, hrest⟩
    · have hskip : entriesOf (x :: trace) i = entriesOf trace i := by
        simp [entriesOf, hx]
      rw [hskip] at h
      obtain ⟨later, z, earlier, rfl, hrest⟩ := ih h
      exact ⟨x :: later, z, earlier, rfl, hrest⟩

/-- A procedure's earlier requests are effects of its own job. -/
theorem Sound.of_mem_history {c : Config W Q A ε J} (hc : P.Sound c) {i : Nat} {j : J}
    {p : Proc W Q A ε Unit} (hi : c.pool[i]? = some (j, p)) {e : Entry W Q A ε}
    (he : e ∈ c.history i) : ∃ x ∈ c.trace, x.job = j ∧ x.entry = e := by
  obtain ⟨x, hx, rfl, hxe⟩ := exists_of_mem_history he
  obtain ⟨q, hq⟩ := hc.owned x hx
  rw [hi] at hq
  cases hq
  exact ⟨x, hx, rfl, hxe⟩

/-- The state may move as any other lets it move. -/
theorem Sound.moved {c : Config W Q A ε J} (hc : P.Sound c) {w : W} (hr : P.rely c.world w)
    (hw : P.inv w) : P.Sound { c with world := w } where
  inv := hw
  parked := fun i j p hi => (hc.parked i j p hi).rely hr
  fresh := hc.fresh
  owned := hc.owned
  past := fun x hx => P.rely_trans _ _ _ (hc.past x hx) hr
  answered := hc.answered

/-- What one step of the machine can do, seen from a sound configuration. -/
inductive Did (P : Protocol M) (l : Label C E) (c c' : Config W Q A ε J) : Prop where
  /-- A request took effect, as its procedure is obliged. -/
  | call (i : Nat) (ch : C) (j : J) (q : Q) (k : Except ε (A q) → Proc W Q A ε Unit)
      (r : Except ε (A q)) :
      l = .call i ch → c.pool[i]? = some (j, .await q k) → M.runs j c.world = true →
      M.exec j q ch c.world = some (r, c'.world) → P.oblige j (c.history i) q c.world →
      c'.pool = c.pool.set i (j, k r) → c'.trace = ⟨i, j, ⟨q, r, c.world⟩⟩ :: c.trace →
      Did P l c c'
  /-- A procedure ran its synchronous code. -/
  | resume (i : Nat) (j : J) (p : Proc W Q A ε Unit) :
      l = .resume i → c.pool[i]? = some (j, p) → M.runs j c.world = true →
      P.sync j c.world c'.world → (p.advance c.world).1 = c'.world →
      c'.pool = c.pool.set i (j, (p.advance c.world).2) → c'.trace = c.trace → Did P l c c'
  /-- The environment changed the state. -/
  | event (e : E) :
      l = .event e → M.event e c.world = some (c'.world, none) → c'.pool = c.pool →
      c'.trace = c.trace → Did P l c c'
  /-- The environment changed the state and called a procedure. -/
  | called (e : E) (w : W) (j : J) (p : Proc W Q A ε Unit) :
      l = .event e → M.event e c.world = some (w, some (j, p)) → P.sync j w c'.world →
      (p.advance w).1 = c'.world → c'.pool = c.pool ++ [(j, (p.advance w).2)] →
      c'.trace = c.trace → Did P l c c'

/-- What a step made of procedure `i` of `j`. -/
inductive Went (M : Machine W Q A ε C J E) (l : Label C E) (c c' : Config W Q A ε J) (i : Nat)
    (j : J) : Proc W Q A ε Unit → Prop where
  | stayed {p : Proc W Q A ε Unit} :
      c.pool[i]? = some (j, p) → c'.history i = c.history i → Went M l c c' i j p
  | answered {q : Q} {k : Except ε (A q) → Proc W Q A ε Unit} {r : Except ε (A q)} :
      c.pool[i]? = some (j, .await q k) → c'.history i = ⟨q, r, c.world⟩ :: c.history i →
      Went M l c c' i j (k r)
  | resumed {p : Proc W Q A ε Unit} :
      c.pool[i]? = some (j, p) → c'.history i = c.history i →
      Went M l c c' i j (p.advance c.world).2
  | called {e : E} {w : W} {p : Proc W Q A ε Unit} :
      l = .event e → M.event e c.world = some (w, some (j, p)) → c'.history i = [] →
      Went M l c c' i j (p.advance w).2

theorem history_eq {c c' : Config W Q A ε J} (h : c'.trace = c.trace) (i : Nat) :
    c'.history i = c.history i := by
  rw [Config.history, Config.history, h]

/-- Where a procedure stands after a step. -/
theorem Did.went {l : Label C E} {c c' : Config W Q A ε J} (hc : P.Sound c) (hd : P.Did l c c')
    {i : Nat} {j : J} {p : Proc W Q A ε Unit} (hi : c'.pool[i]? = some (j, p)) :
    Went M l c c' i j p := by
  cases hd with
  | call i' ch j' q k r _ hi' _ _ _ hpool htrace =>
    rw [hpool, List.getElem?_set] at hi
    split at hi
    · rename_i heq
      subst heq
      split at hi
      · cases hi
        refine .answered hi' ?_
        simp [Config.history, htrace]
      · cases hi
    · rename_i hne
      refine .stayed hi ?_
      simp [Config.history, htrace, hne]
  | resume i' j' p' _ hi' _ _ _ hpool htrace =>
    rw [hpool, List.getElem?_set] at hi
    split at hi
    · rename_i heq
      subst heq
      split at hi
      · cases hi
        exact .resumed hi' (history_eq htrace _)
      · cases hi
    · exact .stayed hi (history_eq htrace _)
  | event e _ _ hpool htrace => exact .stayed (hpool ▸ hi) (history_eq htrace _)
  | called e w j' p' hl he _ _ hpool htrace =>
    rw [hpool, List.getElem?_append] at hi
    split at hi
    · exact .stayed hi (history_eq htrace _)
    · rename_i hlen
      cases hsub : i - c.pool.length with
      | zero =>
        rw [hsub] at hi
        simp only [List.getElem?_cons_zero, Option.some.injEq, Prod.mk.injEq] at hi
        obtain ⟨rfl, rfl⟩ := hi
        exact .called hl he ((history_eq htrace _).trans (hc.fresh i (by omega)))
      | succ n =>
        rw [hsub] at hi
        simp at hi

/-- Only an event adds a job to the pool. -/
theorem Did.job_mem {l : Label C E} {c c' : Config W Q A ε J} (hc : P.Sound c)
    (hd : P.Did l c c') {i : Nat} {j : J} {p : Proc W Q A ε Unit} (hi : c'.pool[i]? = some (j, p)) :
    (∃ p', c.pool[i]? = some (j, p')) ∨
      ∃ e w p', l = .event e ∧ M.event e c.world = some (w, some (j, p')) := by
  cases hd.went hc hi with
  | stayed h _ => exact .inl ⟨_, h⟩
  | answered h _ => exact .inl ⟨_, h⟩
  | resumed h _ => exact .inl ⟨_, h⟩
  | called hl h _ => exact .inr ⟨_, _, _, hl, h⟩

/-- One step keeps the invariant of configurations, and is one of the above. -/
theorem Sound.step_cases {l : Label C E} {c c' : Config W Q A ε J} (hP : ∀ e, P.Admits e)
    (hc : P.Sound c) (hs : M.step l c = some c') : P.Sound c' ∧ P.Did l c c' := by
  cases l with
  | call i ch =>
    obtain ⟨j, q, k, r, w, hi, hruns, he, rfl⟩ := Machine.step_call hs
    obtain ⟨-, -, hk⟩ := hc.parked i j _ hi c.world (P.rely_refl _) hc.inv
    obtain ⟨hob, hg, hi₂, hk⟩ := hk c.world (P.rely_refl _) hc.inv ch r w trivial he
    refine ⟨⟨hi₂, ?_, ?_, ?_, ?_, ?_⟩, .call i ch j q k r rfl hi hruns he hob rfl rfl⟩
    · refine parked_set hc hg ?_ fun i' hne => history_cons_ne hne
      rw [history_cons_self]
      exact fun w' hr hi' => hk w' hr hi'
    · intro i' hlen
      rw [List.length_set] at hlen
      have hlt : i < c.pool.length := (List.getElem?_eq_some_iff.mp hi).1
      rw [history_cons_ne (by omega)]
      exact hc.fresh i' hlen
    · intro x hx
      refine job_set hi ?_
      rcases List.mem_cons.mp hx with rfl | hx
      · exact ⟨_, hi⟩
      · exact hc.owned x hx
    · intro x hx
      rcases List.mem_cons.mp hx with rfl | hx
      · exact hg
      · exact P.rely_trans _ _ _ (hc.past x hx) hg
    · intro x hx
      rcases List.mem_cons.mp hx with rfl | hx
      · exact ⟨ch, w, he⟩
      · exact hc.answered x hx
  | resume i =>
    obtain ⟨j, f, k, hi, hruns, rfl⟩ := Machine.step_resume hs
    have hwp := hc.parked i j _ hi c.world (P.rely_refl _) hc.inv
    obtain ⟨hpark, hsync, hinv⟩ :=
      parked_of_wp (wp_advance hwp) (fun g k' => Proc.advance_ne_sync _ _ g k')
    have hrely := P.sync_rely j _ _ hsync
    refine ⟨⟨hinv, parked_set hc hrely hpark fun _ _ => rfl, ?_,
      fun x hx => job_set hi (hc.owned x hx), ?_, hc.answered⟩,
      .resume i j _ rfl hi hruns hsync rfl rfl rfl⟩
    · intro i' hlen
      rw [List.length_set] at hlen
      exact hc.fresh i' hlen
    · exact fun x hx => P.rely_trans _ _ _ (hc.past x hx) hrely
  | event e =>
    rcases Machine.step_event hs with ⟨w, he, rfl⟩ | ⟨w, j, p, he, rfl⟩
    · obtain ⟨hrely, hinv⟩ := hP e c.world w none hc.inv he
      exact ⟨hc.moved hrely hinv, .event e rfl he rfl rfl⟩
    · obtain ⟨hrely, hwp⟩ := hP e c.world w _ hc.inv he
      obtain ⟨hpark, hsync, hinv⟩ :=
        parked_of_wp (wp_advance hwp) (fun g k' => Proc.advance_ne_sync _ _ g k')
      have hrely' := P.rely_trans _ _ _ hrely (P.sync_rely j _ _ hsync)
      refine ⟨⟨hinv, parked_append hc hrely' hpark, ?_, ?_, ?_, hc.answered⟩,
        .called e w j p rfl he hsync rfl rfl rfl⟩
      · intro i' hlen
        simp only [List.length_append, List.length_cons, List.length_nil] at hlen
        exact hc.fresh i' (by omega)
      · intro x hx
        obtain ⟨q, hq⟩ := hc.owned x hx
        exact ⟨q, by rw [List.getElem?_append_left (List.getElem?_eq_some_iff.mp hq).1, hq]⟩
      · exact fun x hx => P.rely_trans _ _ _ (hc.past x hx) hrely'

/-- A configuration without procedures is sound when its state is. -/
theorem Sound.initial {w : W} (hw : P.inv w) :
    P.Sound { world := w, pool := [], trace := [] } where
  inv := hw
  parked := by simp
  fresh := by simp [Config.history]
  owned := by simp
  past := by simp
  answered := by simp

/-- Adequacy for machines: every configuration that a run reaches is sound, and has
every property that holds at first and survives each of the steps described above. -/
theorem invariant_of_run {S : Label C E → Config W Q A ε J → Prop} (hP : ∀ e, P.Admits e)
    {I : Config W Q A ε J → Prop} {c c' : Config W Q A ε J} (hc : P.Sound c) (hI : I c)
    (hstep : ∀ l d d', P.Sound d → P.Sound d' → I d → S l d → P.Did l d d' → I d')
    (hrun : M.Run S c c') : P.Sound c' ∧ I c' := by
  induction hrun with
  | refl => exact ⟨hc, hI⟩
  | snoc _ hS hs ih =>
    obtain ⟨hsound, hdid⟩ := ih.1.step_cases hP hs
    exact ⟨hsound, hstep _ _ _ ih.1 hsound ih.2 hS hdid⟩

end Protocol

end LibreWallet.Async
