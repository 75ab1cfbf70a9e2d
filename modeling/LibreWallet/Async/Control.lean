import LibreWallet.Async.Logic
import Mathlib.Logic.Relation

/-
  Async/Control.lean --- what procedures do, seen through control states.

  Where one procedure's next step depends on what it alone knows (the instance that it
  built, the flag that it set), each procedure of the pool gets a control state `L`.
  A `Control` says how synchronous code, a request and the arrival at the next request
  may move the pair of a control state and the shared state.  `follows` checks a
  procedure against it, with the shared state arbitrary at each resume; `Preserves`
  collects what an invariant over the shared state and all control states has to
  survive; `Preserves.invariant_of_run` connects both to the runs of a machine.

  The invariant may speak of several procedures at once, which the relations of
  `Async/Logic.lean` cannot.
-/

set_option autoImplicit false

namespace LibreWallet.Async

variable {W Q : Type} {A : Q → Type} {ε C J E L α β : Type}

/-- How the control state of a procedure goes with what it does. -/
structure Control (M : Machine W Q A ε C J E) (L : Type) where
  /-- Before the first step and after the last. -/
  idle : L
  /-- What a control state says of the shared state. -/
  know : L → W → Prop
  /-- Synchronous code updates the shared state. -/
  sync : J → L → W → L → W → Prop
  /-- A request takes effect. -/
  act : J → L → (q : Q) → Except ε (A q) → W → L → W → Prop
  /-- Synchronous code comes to its next `await`, or to its end. -/
  arrive : J → L → W → L → Prop
  /-- Where a procedure stands, after its own requests: at a request, or behind one. -/
  stand : J → List (Entry W Q A ε) → L → Option Q → Prop
  sync_refl : ∀ j l w, sync j l w l w
  /-- Callers die when the age changes. -/
  age : W → Nat
  birth : J → Nat
  runs_iff : ∀ j w, M.runs j w = true ↔ birth j = age w
  age_exec : ∀ {j q c w r w'}, M.exec j q c w = some (r, w') → age w' = age w
  age_sync : ∀ {j l w l' w'}, sync j l w l' w' → age w' = age w

namespace Control

variable {M : Machine W Q A ε C J E} (F : Control M L)

/-- A procedure keeps to the control, from the control state `l` and the state `w`. -/
def follows (j : J) :
    Proc W Q A ε α → List (Entry W Q A ε) →
      (List (Entry W Q A ε) → Except ε α → L → W → Prop) → L → W → Prop
  | .done a, h, Post, l, w => Post h (.ok a) l w
  | .fail e, h, Post, l, w => Post h (.error e) l w
  | .sync f k, h, Post, l, w => ∃ l', F.sync j l w l' (f w) ∧ follows j (k w) h Post l' (f w)
  | .await q k, h, Post, l, w =>
      ∃ l', F.arrive j l w l' ∧ F.stand j h l' (some q) ∧
      ∀ w₁ c r w₂, F.know l' w₁ → M.exec j q c w₁ = some (r, w₂) →
        ∃ l'', F.act j l' q r w₁ l'' w₂ ∧ F.stand j (⟨q, r, w₁⟩ :: h) l'' none ∧
          ∀ w₃, F.know l'' w₃ → follows j (k r) (⟨q, r, w₁⟩ :: h) Post l'' w₃

/-- What a procedure leaves at its end. -/
def ends (j : J) : List (Entry W Q A ε) → Except ε Unit → L → W → Prop :=
  fun _ _ l w => F.arrive j l w F.idle

section Rules

variable {F} {j : J} {h : List (Entry W Q A ε)} {l : L} {w : W}

/-- Reading the state may be noted in the control state. -/
theorem follows_note {g : W → Proc W Q A ε α} {l' : L}
    {Post : List (Entry W Q A ε) → Except ε α → L → W → Prop} (hs : F.sync j l w l' w)
    (hp : F.follows j (g w) h Post l' w) : F.follows j (.bind .get g) h Post l w :=
  ⟨l', hs, hp⟩

theorem follows_get {g : W → Proc W Q A ε α}
    {Post : List (Entry W Q A ε) → Except ε α → L → W → Prop} (hp : F.follows j (g w) h Post l w) :
    F.follows j (.bind .get g) h Post l w :=
  follows_note (F.sync_refl j l w) hp

theorem follows_modify {f : W → W} {l' : L} {g : Unit → Proc W Q A ε α}
    {Post : List (Entry W Q A ε) → Except ε α → L → W → Prop}
    (hs : F.sync j l w l' (f w)) (hp : F.follows j (g ()) h Post l' (f w)) :
    F.follows j (.bind (.modify f) g) h Post l w :=
  ⟨l', hs, hp⟩

@[simp] theorem follows_ofExcept {r : Except ε α}
    {Post : List (Entry W Q A ε) → Except ε α → L → W → Prop} :
    F.follows j (.ofExcept r) h Post l w ↔ Post h r l w := by
  cases r <;> rfl

theorem follows_request {q : Q} {l' : L}
    {Post : List (Entry W Q A ε) → Except ε (A q) → L → W → Prop}
    (ha : F.arrive j l w l') (hs : F.stand j h l' (some q))
    (hk : ∀ w₁ c r w₂, F.know l' w₁ → M.exec j q c w₁ = some (r, w₂) →
      ∃ l'', F.act j l' q r w₁ l'' w₂ ∧ F.stand j (⟨q, r, w₁⟩ :: h) l'' none ∧
        ∀ w₃, F.know l'' w₃ → Post (⟨q, r, w₁⟩ :: h) r l'' w₃) :
    F.follows j (.request q) h Post l w := by
  refine ⟨l', ha, hs, fun w₁ c r w₂ hw he => ?_⟩
  obtain ⟨l'', hact, hst, hk⟩ := hk w₁ c r w₂ hw he
  exact ⟨l'', hact, hst, fun w₃ hw₃ => follows_ofExcept.mpr (hk w₃ hw₃)⟩

/-- Sequencing: an error skips the rest. -/
theorem follows_bind {p : Proc W Q A ε α} {g : α → Proc W Q A ε β}
    {Post : List (Entry W Q A ε) → Except ε β → L → W → Prop} :
    F.follows j (p.bind g) h Post l w ↔
      F.follows j p h (fun h' r l' w' =>
        match r with
        | .ok a => F.follows j (g a) h' Post l' w'
        | .error e => Post h' (.error e) l' w') l w := by
  induction p generalizing h l w with
  | done a => rfl
  | fail e => rfl
  | sync f k ih => simp only [Proc.bind, follows, ih]
  | await q k ih => simp only [Proc.bind, follows, ih]

/-- Catching: the handler takes an error, a value passes. -/
theorem follows_rescue {p : Proc W Q A ε α} {g : ε → Proc W Q A ε α}
    {Post : List (Entry W Q A ε) → Except ε α → L → W → Prop} :
    F.follows j (p.rescue g) h Post l w ↔
      F.follows j p h (fun h' r l' w' =>
        match r with
        | .ok a => Post h' (.ok a) l' w'
        | .error e => F.follows j (g e) h' Post l' w') l w := by
  induction p generalizing h l w with
  | done a => rfl
  | fail e => rfl
  | sync f k ih => simp only [Proc.rescue, follows, ih]
  | await q k ih => simp only [Proc.rescue, follows, ih]

theorem follows_attempt {p : Proc W Q A ε α}
    {Post : List (Entry W Q A ε) → Except ε (Except ε α) → L → W → Prop} :
    F.follows j p.attempt h Post l w ↔
      F.follows j p h (fun h' r l' w' => Post h' (.ok r) l' w') l w := by
  rw [Proc.attempt, follows_rescue, follows_bind]
  constructor
  all_goals
    intro hp
    refine Eq.mp ?_ hp
    congr 1
    funext h' r l' w'
    cases r <;> rfl

/-- Consequence. -/
theorem follows.mono {p : Proc W Q A ε α}
    {Post Post' : List (Entry W Q A ε) → Except ε α → L → W → Prop}
    (hp : F.follows j p h Post l w)
    (hPost : ∀ h' r l' w', Post h' r l' w' → Post' h' r l' w') :
    F.follows j p h Post' l w := by
  induction p generalizing h l w with
  | done a => exact hPost _ _ _ _ hp
  | fail e => exact hPost _ _ _ _ hp
  | sync f k ih =>
    obtain ⟨l', hs, hp⟩ := hp
    exact ⟨l', hs, ih w hp⟩
  | await q k ih =>
    obtain ⟨l', ha, hst, hk⟩ := hp
    refine ⟨l', ha, hst, fun w₁ c r w₂ hw he => ?_⟩
    obtain ⟨l'', hact, hst', hk⟩ := hk w₁ c r w₂ hw he
    exact ⟨l'', hact, hst', fun w₃ hw₃ => ih r (hk w₃ hw₃)⟩

/-- Sequencing, from what the first part leaves. -/
theorem follows.bind {p : Proc W Q A ε α} {g : α → Proc W Q A ε β}
    {R : List (Entry W Q A ε) → Except ε α → L → W → Prop}
    {Post : List (Entry W Q A ε) → Except ε β → L → W → Prop}
    (hp : F.follows j p h R l w)
    (hok : ∀ h' a l' w', R h' (.ok a) l' w' → F.follows j (g a) h' Post l' w')
    (herr : ∀ h' e l' w', R h' (.error e) l' w' → Post h' (.error e) l' w') :
    F.follows j (p.bind g) h Post l w := by
  refine follows_bind.mpr (hp.mono fun h' r l' w' hr => ?_)
  cases r with
  | ok a => exact hok _ _ _ _ hr
  | error e => exact herr _ _ _ _ hr

/-- Catching, from what the guarded part leaves. -/
theorem follows.rescue {p : Proc W Q A ε α} {g : ε → Proc W Q A ε α}
    {R Post : List (Entry W Q A ε) → Except ε α → L → W → Prop} (hp : F.follows j p h R l w)
    (hok : ∀ h' a l' w', R h' (.ok a) l' w' → Post h' (.ok a) l' w')
    (herr : ∀ h' e l' w', R h' (.error e) l' w' → F.follows j (g e) h' Post l' w') :
    F.follows j (p.rescue g) h Post l w := by
  refine follows_rescue.mpr (hp.mono fun h' r l' w' hr => ?_)
  cases r with
  | ok a => exact hok _ _ _ _ hr
  | error e => exact herr _ _ _ _ hr

end Rules

/-! ## Configurations -/

/-- Some updates by synchronous code, one after another. -/
def Path (j : J) : L × W → L × W → Prop :=
  Relation.ReflTransGen fun x y => F.sync j x.1 x.2 y.1 y.2

/-- A procedure that stands still, in its control state. -/
def Standing (j : J) (h : List (Entry W Q A ε)) (l : L) : Proc W Q A ε Unit → Prop
  | .done _ | .fail _ => l = F.idle
  | .await q k =>
      F.stand j h l (some q) ∧
      ∀ w₁ c r w₂, F.know l w₁ → M.exec j q c w₁ = some (r, w₂) →
        ∃ l'', F.act j l q r w₁ l'' w₂ ∧ F.stand j (⟨q, r, w₁⟩ :: h) l'' none ∧
          ∀ w₃, F.know l'' w₃ → F.follows j (k r) (⟨q, r, w₁⟩ :: h) (F.ends j) l'' w₃
  | .sync f k =>
      F.stand j h l none ∧ ∀ w, F.know l w → F.follows j (.sync f k) h (F.ends j) l w

/-- Every procedure of the pool stands where its control state says; those that are not
called yet, or dead, have none. -/
structure Stands (c : Config W Q A ε J) (locals : Nat → L) : Prop where
  birth : ∀ (n : Nat) (j : J) p, c.pool[n]? = some (j, p) → F.birth j ≤ F.age c.world
  standing : ∀ (n : Nat) (j : J) p, c.pool[n]? = some (j, p) → F.birth j = F.age c.world →
    F.Standing j (c.history n) (locals n) p
  dead : ∀ (n : Nat) (j : J) p, c.pool[n]? = some (j, p) → F.birth j < F.age c.world → locals n = F.idle
  uncalled : ∀ n, c.pool.length ≤ n → locals n = F.idle
  fresh : ∀ n, c.pool.length ≤ n → c.history n = []

/-- What an invariant over the trace, the shared state and the control states survives. -/
structure Preserves (S : Label C E → Config W Q A ε J → Prop)
    (I : List (Effect W Q A ε J) → W → (Nat → L) → Prop) : Prop where
  know : ∀ {t w locals} n, I t w locals → F.know (locals n) w
  sync : ∀ {t w locals n j l' w'}, I t w locals → F.sync j (locals n) w l' w' →
    I t w' (Function.update locals n l')
  act : ∀ {c locals n ch j q k r l' w'}, F.Stands c locals → I c.trace c.world locals →
    S (.call n ch) c → c.pool[n]? = some (j, .await q k) → F.birth j = F.age c.world →
    M.exec j q ch c.world = some (r, w') → F.act j (locals n) q r c.world l' w' →
    I (⟨n, j, ⟨q, r, c.world⟩⟩ :: c.trace) w' (Function.update locals n l')
  arrive : ∀ {lab c c' locals n j l'}, S lab c → M.step lab c = some c' →
    F.Stands c' (Function.update locals n l') → I c'.trace c'.world locals →
    (∃ p, c'.pool[n]? = some (j, p)) → F.arrive j (locals n) c'.world l' →
    I c'.trace c'.world (Function.update locals n l')
  event : ∀ {c locals e w' called}, F.Stands c locals → I c.trace c.world locals →
    S (.event e) c → M.event e c.world = some (w', called) → F.age w' = F.age c.world →
    I c.trace w' locals
  reload : ∀ {c locals e w' called}, F.Stands c locals → I c.trace c.world locals →
    S (.event e) c → M.event e c.world = some (w', called) → F.age c.world < F.age w' →
    I c.trace w' fun _ => F.idle

/-- What the events of the machine keep to: the age never falls, and a procedure that is
called follows the control. -/
def Admits : Prop :=
  ∀ e w w' called, M.event e w = some (w', called) → F.age w ≤ F.age w' ∧
    ∀ j p, called = some (j, p) → F.birth j = F.age w' ∧
      ∀ w'', F.know F.idle w'' → F.follows j p [] (F.ends j) F.idle w''

variable {F}

theorem Path.age {j : J} {x y : L × W} (h : F.Path j x y) : F.age y.2 = F.age x.2 := by
  induction h with
  | refl => rfl
  | tail _ hs ih => exact (F.age_sync hs).trans ih

/-- Synchronous code runs along a path, and then arrives where it stands. -/
theorem follows_advance {j : J} {p : Proc W Q A ε Unit} {h : List (Entry W Q A ε)} {l : L} {w : W}
    (hp : F.follows j p h (F.ends j) l w) :
    ∃ l₁ l₂, F.Path j (l, w) (l₁, (p.advance w).1) ∧ F.arrive j l₁ (p.advance w).1 l₂ ∧
      F.Standing j h l₂ (p.advance w).2 := by
  induction p generalizing l w with
  | done a => exact ⟨l, F.idle, .refl, hp, rfl⟩
  | fail e => exact ⟨l, F.idle, .refl, hp, rfl⟩
  | sync f k ih =>
    obtain ⟨l', hs, hp⟩ := hp
    obtain ⟨l₁, l₂, hpath, ha, hst⟩ := ih w hp
    exact ⟨l₁, l₂, .head hs hpath, ha, hst⟩
  | await q k _ =>
    obtain ⟨l', ha, hst, hk⟩ := hp
    exact ⟨l, l', .refl, ha, hst, hk⟩

section Run

variable {S : Label C E → Config W Q A ε J → Prop}
  {I : List (Effect W Q A ε J) → W → (Nat → L) → Prop}

/-- A path of one procedure preserves the invariant. -/
theorem Preserves.path (hI : F.Preserves S I) {t : List (Effect W Q A ε J)} {locals : Nat → L}
    {n : Nat} {j : J} {l₁ : L} {w w₁ : W} (h : I t w locals)
    (hp : F.Path j (locals n, w) (l₁, w₁)) : I t w₁ (Function.update locals n l₁) := by
  suffices H : ∀ y, F.Path j (locals n, w) y → I t y.2 (Function.update locals n y.1) from H _ hp
  intro y hy
  induction hy with
  | refl => simpa using h
  | @tail x y _ hs ih =>
    have := hI.sync (n := n) ih (by simpa using hs)
    simpa using this

/-- The step of one procedure leaves the others where they stand. -/
theorem stands_set {c : Config W Q A ε J} {locals : Nat → L} (hc : F.Stands c locals) {n : Nat}
    {j : J} {p₀ p : Proc W Q A ε Unit} {w : W} {l : L} {trace : List (Effect W Q A ε J)}
    (hn : c.pool[n]? = some (j, p₀)) (hj : F.birth j = F.age c.world)
    (hage : F.age w = F.age c.world)
    (hp : F.Standing j (Config.history { world := w, pool := [], trace := trace } n) l p)
    (htrace : ∀ m, m ≠ n →
      Config.history { world := w, pool := [], trace := trace } m = c.history m) :
    F.Stands { world := w, pool := c.pool.set n (j, p), trace := trace }
      (Function.update locals n l) := by
  have hlen : n < c.pool.length := (List.getElem?_eq_some_iff.mp hn).1
  have hcases : ∀ m j' p', (c.pool.set n (j, p))[m]? = some (j', p') →
      (m = n ∧ j' = j ∧ p' = p) ∨ (m ≠ n ∧ c.pool[m]? = some (j', p')) := by
    intro m j' p' hm
    by_cases hmn : m = n
    · subst hmn
      rw [List.getElem?_set_self hlen] at hm
      cases hm
      exact .inl ⟨rfl, rfl, rfl⟩
    · rw [List.getElem?_set_ne (Ne.symm hmn)] at hm
      exact .inr ⟨hmn, hm⟩
  constructor
  · intro m j' p' hm
    rw [hage]
    rcases hcases m j' p' hm with ⟨-, rfl, -⟩ | ⟨-, hm⟩
    · exact Nat.le_of_eq hj
    · exact hc.birth m j' p' hm
  · intro m j' p' hm hb
    rcases hcases m j' p' hm with ⟨rfl, rfl, rfl⟩ | ⟨hne, hm⟩
    · rw [Function.update_self]
      exact hp
    · rw [Function.update_of_ne hne]
      have := hc.standing m j' p' hm (hb.trans hage)
      rw [← htrace m hne] at this
      exact this
  · intro m j' p' hm hb
    rcases hcases m j' p' hm with ⟨rfl, rfl, rfl⟩ | ⟨hne, hm⟩
    · exact absurd (hj.trans hage.symm) (Nat.ne_of_lt hb)
    · rw [Function.update_of_ne hne]
      exact hc.dead m j' p' hm (hage ▸ hb)
  · intro m hm
    rw [List.length_set] at hm
    rw [Function.update_of_ne (by omega)]
    exact hc.uncalled m hm
  · intro m hm
    rw [List.length_set] at hm
    exact (htrace m (by omega)).trans (hc.fresh m hm)

/-- Synchronous code comes to stand where its control state says. -/
theorem Preserves.standing {j : J} {p : Proc W Q A ε Unit} {h : List (Entry W Q A ε)} {l : L}
    {w : W} (hI : F.Preserves S I) {t : List (Effect W Q A ε J)} {locals : Nat → L} {n : Nat}
    (hi : I t w locals) (hl : locals n = l) (hp : F.follows j p h (F.ends j) l w) :
    ∃ l₁ l₂, I t (p.advance w).1 (Function.update locals n l₁) ∧
      F.age (p.advance w).1 = F.age w ∧ F.arrive j l₁ (p.advance w).1 l₂ ∧
      F.Standing j h l₂ (p.advance w).2 := by
  obtain ⟨l₁, l₂, hpath, ha, hst⟩ := follows_advance hp
  subst hl
  exact ⟨l₁, l₂, hI.path hi hpath, hpath.age, ha, hst⟩

theorem update_stands {c : Config W Q A ε J} {locals : Nat → L} {n : Nat} {l₁ l₂ : L}
    (h : F.Stands c (Function.update locals n l₂)) :
    F.Stands c (Function.update (Function.update locals n l₁) n l₂) := by
  rwa [Function.update_idem]

/-- An event leaves everyone where it stands, or kills everyone. -/
theorem Preserves.event_cases (hI : F.Preserves S I) (hF : F.Admits) {e : E}
    {c : Config W Q A ε J} {locals : Nat → L} {w : W} {called : Option (J × Proc W Q A ε Unit)}
    (hc : F.Stands c locals) (hi : I c.trace c.world locals) (hS : S (.event e) c)
    (he : M.event e c.world = some (w, called)) :
    ∃ locals', F.Stands { c with world := w } locals' ∧ I c.trace w locals' := by
  obtain ⟨hage, -⟩ := hF e _ _ _ he
  rcases Nat.lt_or_eq_of_le hage with hlt | heq
  · refine ⟨fun _ => F.idle, ⟨fun n j p hn => ?_, fun n j p hn hb => ?_, fun _ _ _ _ _ => rfl,
      fun _ _ => rfl, hc.fresh⟩, hI.reload hc hi hS he hlt⟩
    · exact Nat.le_trans (hc.birth n j p hn) (Nat.le_of_lt hlt)
    · exact absurd hb (Nat.ne_of_lt (Nat.lt_of_le_of_lt (hc.birth n j p hn) hlt))
  · refine ⟨locals, ⟨fun n j p hn => ?_, fun n j p hn hb => ?_, fun n j p hn hb => ?_,
      hc.uncalled, hc.fresh⟩, hI.event hc hi hS he heq.symm⟩
    · exact heq ▸ hc.birth n j p hn
    · exact hc.standing n j p hn (hb.trans heq.symm)
    · exact hc.dead n j p hn (by rw [heq]; exact hb)

/-- A procedure that was called joins the others. -/
theorem stands_append {c : Config W Q A ε J} {locals : Nat → L} (hc : F.Stands c locals) {j : J}
    {p : Proc W Q A ε Unit} {w : W} {l : L} (hj : F.birth j = F.age c.world)
    (hage : F.age w = F.age c.world) (hp : F.Standing j [] l p) :
    F.Stands { c with world := w, pool := c.pool ++ [(j, p)] }
      (Function.update locals c.pool.length l) := by
  have hcases : ∀ m j' p', (c.pool ++ [(j, p)])[m]? = some (j', p') →
      (m = c.pool.length ∧ j' = j ∧ p' = p) ∨ (m ≠ c.pool.length ∧ c.pool[m]? = some (j', p')) := by
    intro m j' p' hm
    rcases Nat.lt_trichotomy m c.pool.length with hlt | rfl | hgt
    · rw [List.getElem?_append_left hlt] at hm
      exact .inr ⟨Nat.ne_of_lt hlt, hm⟩
    · rw [List.getElem?_append_right (Nat.le_refl _), Nat.sub_self] at hm
      cases hm
      exact .inl ⟨rfl, rfl, rfl⟩
    · rw [List.getElem?_eq_none (by simp; omega)] at hm
      cases hm
  have hfresh := hc.fresh c.pool.length (Nat.le_refl _)
  constructor
  · intro m j' p' hm
    rw [hage]
    rcases hcases m j' p' hm with ⟨-, rfl, -⟩ | ⟨-, hm⟩
    · exact Nat.le_of_eq hj
    · exact hc.birth m j' p' hm
  · intro m j' p' hm hb
    rcases hcases m j' p' hm with ⟨rfl, rfl, rfl⟩ | ⟨hne, hm⟩
    · rw [Function.update_self]
      exact hfresh ▸ hp
    · rw [Function.update_of_ne hne]
      exact hc.standing m j' p' hm (hb.trans hage)
  · intro m j' p' hm hb
    rcases hcases m j' p' hm with ⟨rfl, rfl, rfl⟩ | ⟨hne, hm⟩
    · exact absurd (hj.trans hage.symm) (Nat.ne_of_lt hb)
    · rw [Function.update_of_ne hne]
      exact hc.dead m j' p' hm (hage ▸ hb)
  · intro m hm
    simp only [List.length_append, List.length_singleton] at hm
    rw [Function.update_of_ne (by omega)]
    exact hc.uncalled m (by omega)
  · intro m hm
    simp only [List.length_append, List.length_singleton] at hm
    exact hc.fresh m (by omega)

/-- One step keeps control states for which the invariant holds. -/
theorem Preserves.step (hI : F.Preserves S I) (hF : F.Admits) {lab : Label C E}
    {c c' : Config W Q A ε J} {locals : Nat → L} (hc : F.Stands c locals)
    (hi : I c.trace c.world locals) (hS : S lab c) (hs : M.step lab c = some c') :
    ∃ locals', F.Stands c' locals' ∧ I c'.trace c'.world locals' := by
  have hs' := hs
  cases lab with
  | call n ch =>
    obtain ⟨j, q, k, r, w, hn, hruns, he, rfl⟩ := Machine.step_call hs
    have hj := (F.runs_iff j c.world).mp hruns
    obtain ⟨-, hk⟩ := hc.standing n j _ hn hj
    obtain ⟨l'', hact, hst, hk⟩ := hk _ _ _ _ (hI.know n hi) he
    have hi' := hI.act hc hi hS hn hj he hact
    have hage := F.age_exec he
    have hhist : ∀ m, m ≠ n → Config.history
        { world := w, pool := [], trace := ⟨n, j, ⟨q, r, c.world⟩⟩ :: c.trace } m = c.history m :=
      fun m hm => Protocol.history_cons_ne hm
    have hself : Config.history
        { world := w, pool := [], trace := ⟨n, j, ⟨q, r, c.world⟩⟩ :: c.trace } n =
          ⟨q, r, c.world⟩ :: c.history n := Protocol.history_cons_self
    have hknow : F.know l'' w := by simpa using hI.know n hi'
    have hfollows := hk w hknow
    by_cases hsync : ∃ f k', k r = .sync f k'
    · -- the synchronous code runs later
      obtain ⟨f, k', hkr⟩ := hsync
      refine ⟨_, stands_set hc hn hj hage ?_ hhist, hi'⟩
      rw [hself, hkr]
      exact ⟨hst, fun w₃ hw₃ => hkr ▸ hk w₃ hw₃⟩
    · have hadv : (k r).advance w = (w, k r) := by
        cases hkr : k r with
        | sync f k' => exact absurd ⟨f, k', hkr⟩ hsync
        | _ => rfl
      obtain ⟨l₁, l₂, hi₁, -, ha, hstand⟩ :=
        hI.standing hi' (Function.update_self n l'' locals) hfollows
      rw [hadv] at hi₁ ha hstand
      have hstands := stands_set (p := k r) (l := l₂) hc hn hj hage
        (by rw [hself]; exact hstand) hhist
      refine ⟨_, hstands, ?_⟩
      rw [Function.update_idem] at hi₁
      have := hI.arrive (n := n) (j := j) hS hs' (update_stands hstands) hi₁
        ⟨k r, List.getElem?_set_self (List.getElem?_eq_some_iff.mp hn).1⟩
        (show F.arrive j _ _ l₂ by rwa [Function.update_self])
      rwa [Function.update_idem] at this
  | resume n =>
    obtain ⟨j, f, k, hn, hruns, rfl⟩ := Machine.step_resume hs
    have hj := (F.runs_iff j c.world).mp hruns
    obtain ⟨-, hk⟩ := hc.standing n j _ hn hj
    obtain ⟨l₁, l₂, hi₁, hage, ha, hstand⟩ := hI.standing hi rfl (hk _ (hI.know n hi))
    have hstands := stands_set (l := l₂) hc hn hj hage hstand fun _ _ => rfl
    refine ⟨_, hstands, ?_⟩
    have := hI.arrive (n := n) (j := j) hS hs' (update_stands hstands) hi₁
      ⟨_, List.getElem?_set_self (List.getElem?_eq_some_iff.mp hn).1⟩
      (show F.arrive j _ _ l₂ by rwa [Function.update_self])
    rwa [Function.update_idem] at this
  | event e =>
    rcases Machine.step_event hs with ⟨w, he, rfl⟩ | ⟨w, j, p, he, rfl⟩
    · exact hI.event_cases hF hc hi hS he
    · obtain ⟨locals', hc', hi'⟩ := hI.event_cases hF hc hi hS he
      obtain ⟨hj, hp⟩ := (hF e _ _ _ he).2 j p rfl
      have hidle := hc'.uncalled c.pool.length (Nat.le_refl _)
      have hknow : F.know F.idle w := hidle ▸ hI.know c.pool.length hi'
      obtain ⟨l₁, l₂, hi₁, hage, ha, hstand⟩ := hI.standing hi' hidle (hp w hknow)
      have hstands := stands_append hc' hj hage hstand
      refine ⟨_, hstands, ?_⟩
      have := hI.arrive (n := c.pool.length) (j := j) hS hs' (update_stands hstands) hi₁
        ⟨(p.advance w).2, by simp⟩ (show F.arrive j _ _ l₂ by rwa [Function.update_self])
      rwa [Function.update_idem] at this

/-- A configuration without procedures stands. -/
theorem stands_initial {w : W} :
    F.Stands { world := w, pool := [], trace := [] } fun _ => F.idle := by
  constructor <;> simp [Config.history]

/-- Two invariants together. -/
theorem Preserves.and {S' : Label C E → Config W Q A ε J → Prop}
    {I' : List (Effect W Q A ε J) → W → (Nat → L) → Prop} (hI : F.Preserves S I)
    (hI' : F.Preserves S' I') :
    F.Preserves (fun lab c => S lab c ∧ S' lab c) fun t w locals => I t w locals ∧ I' t w locals where
  know := fun n h => hI.know n h.1
  sync := fun h hs => ⟨hI.sync h.1 hs, hI'.sync h.2 hs⟩
  act := fun hc h hS hn hj he ha =>
    ⟨hI.act hc h.1 hS.1 hn hj he ha, hI'.act hc h.2 hS.2 hn hj he ha⟩
  arrive := fun hS hs hc h hp ha =>
    ⟨hI.arrive hS.1 hs hc h.1 hp ha, hI'.arrive hS.2 hs hc h.2 hp ha⟩
  event := fun hc h hS he hage => ⟨hI.event hc h.1 hS.1 he hage, hI'.event hc h.2 hS.2 he hage⟩
  reload := fun hc h hS he hage => ⟨hI.reload hc h.1 hS.1 he hage, hI'.reload hc h.2 hS.2 he hage⟩

/-- Adequacy: every configuration that a run reaches has control states for which the
invariant holds. -/
theorem Preserves.invariant_of_run (hI : F.Preserves S I) (hF : F.Admits)
    {c c' : Config W Q A ε J} {locals : Nat → L} (hc : F.Stands c locals)
    (hi : I c.trace c.world locals) (hrun : M.Run S c c') :
    ∃ locals', F.Stands c' locals' ∧ I c'.trace c'.world locals' := by
  induction hrun with
  | refl => exact ⟨locals, hc, hi⟩
  | snoc _ hS hs ih =>
    obtain ⟨locals', hc', hi'⟩ := ih
    exact hI.step hF hc' hi' hS hs

end Run

/-! ## Invariants of one control state and of two -/

/-- Each control state goes with the shared state, and any two go together. -/
structure Together (mine : L → W → Prop) (apart : L → L → Prop) (w : W) (locals : Nat → L) :
    Prop where
  mine : ∀ n, mine (locals n) w
  apart : ∀ n m, n ≠ m → apart (locals n) (locals m)

/-- A step of one procedure: its own control state goes with the new state, and every
other still does. -/
theorem Together.update {mine : L → W → Prop} {apart : L → L → Prop} {w w' : W}
    {locals : Nat → L} (h : Together mine apart w locals) (n : Nat) {l' : L} (hl : mine l' w')
    (ho : ∀ o, mine o w → apart (locals n) o → apart o (locals n) →
      mine o w' ∧ apart l' o ∧ apart o l') :
    Together mine apart w' (Function.update locals n l') where
  mine := by
    intro m
    by_cases hm : m = n
    · rw [hm, Function.update_self]
      exact hl
    · rw [Function.update_of_ne hm]
      exact (ho _ (h.mine m) (h.apart n m (Ne.symm hm)) (h.apart m n hm)).1
  apart := by
    intro m k hmk
    by_cases hm : m = n
    · have hk : k ≠ n := fun hk => hmk (hm.trans hk.symm)
      rw [hm, Function.update_self, Function.update_of_ne hk]
      exact (ho _ (h.mine k) (h.apart n k (Ne.symm hk)) (h.apart k n hk)).2.1
    · rw [Function.update_of_ne hm]
      by_cases hk : k = n
      · rw [hk, Function.update_self]
        exact (ho _ (h.mine m) (h.apart n m (Ne.symm hm)) (h.apart m n hm)).2.2
      · rw [Function.update_of_ne hk]
        exact h.apart m k hmk

end Control

end LibreWallet.Async
