import LibreWallet.Async.Logic
import LibreWallet.Async.Stages

/-
  Async/Keeps.lean --- an invariant under procedures that keep to terms.

  `p.Keeps I T post`: every piece of the synchronous code of `p` preserves `I`, what `p` asks for is
  within the terms `T`, and it ends in `post`, as long as its requests are answered within the terms
  too.  The others may do whatever preserves `I`.  A machine whose requests and events preserve `I`
  keeps it, and everything in its pool keeps to the terms.  `p.KeepsTo F T post` says as much of a
  relation `F` that every piece respects, wherever the others have moved the state.

  Nothing here names a particular program.
-/

set_option autoImplicit false

namespace LibreWallet.Async

variable {W Q : Type} {A : Q → Type} {ε C J E α β : Type}

/-- What a procedure may ask for, and how it may be answered. -/
structure Terms (Q : Type) (A : Q → Type) (ε : Type) where
  asks : Q → Prop
  answers : (q : Q) → Except ε (A q) → Prop

namespace Proc

def Keeps (I : W → Prop) (T : Terms Q A ε) : Proc W Q A ε α → (Except ε α → Prop) → Prop
  | done a, post => post (.ok a)
  | fail e, post => post (.error e)
  | sync f k, post => ∀ w, I w → I (f w) ∧ (k w).Keeps I T post
  | await q k, post => T.asks q ∧ ∀ r, T.answers q r → (k r).Keeps I T post

variable {I : W → Prop} {T : Terms Q A ε}

@[simp] theorem keeps_done {a : α} {post : Except ε α → Prop} :
    (done a : Proc W Q A ε α).Keeps I T post ↔ post (.ok a) := Iff.rfl

@[simp] theorem keeps_fail {e : ε} {post : Except ε α → Prop} :
    (fail e : Proc W Q A ε α).Keeps I T post ↔ post (.error e) := Iff.rfl

@[simp] theorem keeps_ofExcept {r : Except ε α} {post : Except ε α → Prop} :
    (ofExcept r : Proc W Q A ε α).Keeps I T post ↔ post r := by
  cases r <;> rfl

@[simp] theorem keeps_get {post : Except ε W → Prop} :
    (get : Proc W Q A ε W).Keeps I T post ↔ ∀ w, I w → post (.ok w) := by
  constructor
  · intro h w hw
    exact (h w hw).2
  · intro h w hw
    exact ⟨hw, h w hw⟩

@[simp] theorem keeps_modify {f : W → W} {post : Except ε Unit → Prop} :
    (modify f : Proc W Q A ε Unit).Keeps I T post ↔ ∀ w, I w → I (f w) ∧ post (.ok ()) := Iff.rfl

@[simp] theorem keeps_request {q : Q} {post : Except ε (A q) → Prop} :
    (request q : Proc W Q A ε (A q)).Keeps I T post ↔
      T.asks q ∧ ∀ r, T.answers q r → post r := by
  simp only [request, Keeps, keeps_ofExcept]

/-- Sequencing: an error skips the rest. -/
@[simp] theorem keeps_bind {p : Proc W Q A ε α} {g : α → Proc W Q A ε β}
    {post : Except ε β → Prop} :
    (p.bind g).Keeps I T post ↔ p.Keeps I T fun r =>
      match r with
      | .ok a => (g a).Keeps I T post
      | .error e => post (.error e) := by
  induction p with
  | done a => rfl
  | fail e => rfl
  | sync f k ih => simp only [bind, Keeps, ih]
  | await q k ih => simp only [bind, Keeps, ih]

/-- Catching: the handler takes an error, a value passes. -/
@[simp] theorem keeps_rescue {p : Proc W Q A ε α} {g : ε → Proc W Q A ε α}
    {post : Except ε α → Prop} :
    (p.rescue g).Keeps I T post ↔ p.Keeps I T fun r =>
      match r with
      | .ok a => post (.ok a)
      | .error e => (g e).Keeps I T post := by
  induction p with
  | done a => rfl
  | fail e => rfl
  | sync f k ih => simp only [rescue, Keeps, ih]
  | await q k ih => simp only [rescue, Keeps, ih]

/-- Consequence. -/
theorem Keeps.mono {p : Proc W Q A ε α} {post post' : Except ε α → Prop} (hp : p.Keeps I T post)
    (hpost : ∀ r, post r → post' r) : p.Keeps I T post' := by
  induction p with
  | done a => exact hpost _ hp
  | fail e => exact hpost _ hp
  | sync f k ih => exact fun w hw => ⟨(hp w hw).1, ih w (hp w hw).2⟩
  | await q k ih => exact ⟨hp.1, fun r hr => ih r (hp.2 r hr)⟩

/-- What follows a procedure needs only what that procedure ends in. -/
theorem Keeps.bind {p : Proc W Q A ε α} {g : α → Proc W Q A ε β} {mid : α → Prop}
    {post : Except ε β → Prop} (hp : p.Keeps I T fun r => ∀ a, r = .ok a → mid a)
    (hg : ∀ a, mid a → (g a).Keeps I T post) (he : ∀ e, post (.error e)) :
    (p.bind g).Keeps I T post := by
  rw [keeps_bind]
  refine hp.mono fun r hr => ?_
  cases r with
  | ok a => exact hg a (hr a rfl)
  | error e => exact he e

@[simp] theorem keeps_attempt {p : Proc W Q A ε α} {post : Except ε (Except ε α) → Prop} :
    p.attempt.Keeps I T post ↔ p.Keeps I T fun r => post (.ok r) := by
  rw [attempt, keeps_rescue, keeps_bind]
  constructor
  · intro h
    refine h.mono fun r hr => ?_
    cases r with
    | ok a => exact hr
    | error e => exact hr
  · intro h
    refine h.mono fun r hr => ?_
    cases r with
    | ok a => exact hr
    | error e => exact hr

/-- The synchronous code up to the next `await`. -/
theorem Keeps.advance {p : Proc W Q A ε α} {post : Except ε α → Prop} (hp : p.Keeps I T post)
    {w : W} (hw : I w) : I (p.advance w).1 ∧ (p.advance w).2.Keeps I T post := by
  induction p generalizing w with
  | done a => exact ⟨hw, hp⟩
  | fail e => exact ⟨hw, hp⟩
  | sync f k ih =>
    obtain ⟨hmove, hrest⟩ := hp w hw
    exact ih w hrest hmove
  | await q k ih => exact ⟨hw, hp⟩

end Proc

/-! ## Wherever the others have moved the state -/

namespace Proc

/-- Every piece of the synchronous code of `p` moves the state within `F`, what `p` asks for is within
the terms `T`, and it ends in `post`, as long as its requests are answered within the terms too. -/
def KeepsTo (F : W → W → Prop) (T : Terms Q A ε) : Proc W Q A ε α → (Except ε α → Prop) → Prop
  | done a, post => post (.ok a)
  | fail e, post => post (.error e)
  | sync f k, post => ∀ w, F w (f w) ∧ (k w).KeepsTo F T post
  | await q k, post => T.asks q ∧ ∀ r, T.answers q r → (k r).KeepsTo F T post

variable {F : W → W → Prop} {T : Terms Q A ε}

@[simp] theorem keepsTo_done {a : α} {post : Except ε α → Prop} :
    (done a : Proc W Q A ε α).KeepsTo F T post ↔ post (.ok a) := Iff.rfl

@[simp] theorem keepsTo_fail {e : ε} {post : Except ε α → Prop} :
    (fail e : Proc W Q A ε α).KeepsTo F T post ↔ post (.error e) := Iff.rfl

@[simp] theorem keepsTo_ofExcept {r : Except ε α} {post : Except ε α → Prop} :
    (ofExcept r : Proc W Q A ε α).KeepsTo F T post ↔ post r := by
  cases r <;> rfl

@[simp] theorem keepsTo_modify {f : W → W} {post : Except ε Unit → Prop} :
    (modify f : Proc W Q A ε Unit).KeepsTo F T post ↔ ∀ w, F w (f w) ∧ post (.ok ()) := Iff.rfl

@[simp] theorem keepsTo_request {q : Q} {post : Except ε (A q) → Prop} :
    (request q : Proc W Q A ε (A q)).KeepsTo F T post ↔
      T.asks q ∧ ∀ r, T.answers q r → post r := by
  simp only [request, KeepsTo, keepsTo_ofExcept]

/-- Sequencing: an error skips the rest. -/
@[simp] theorem keepsTo_bind {p : Proc W Q A ε α} {g : α → Proc W Q A ε β}
    {post : Except ε β → Prop} :
    (p.bind g).KeepsTo F T post ↔ p.KeepsTo F T fun r =>
      match r with
      | .ok a => (g a).KeepsTo F T post
      | .error e => post (.error e) := by
  induction p with
  | done a => rfl
  | fail e => rfl
  | sync f k ih => simp only [bind, KeepsTo, ih]
  | await q k ih => simp only [bind, KeepsTo, ih]

/-- Catching: the handler takes an error, a value passes. -/
@[simp] theorem keepsTo_rescue {p : Proc W Q A ε α} {g : ε → Proc W Q A ε α}
    {post : Except ε α → Prop} :
    (p.rescue g).KeepsTo F T post ↔ p.KeepsTo F T fun r =>
      match r with
      | .ok a => post (.ok a)
      | .error e => (g e).KeepsTo F T post := by
  induction p with
  | done a => rfl
  | fail e => rfl
  | sync f k ih => simp only [rescue, KeepsTo, ih]
  | await q k ih => simp only [rescue, KeepsTo, ih]

namespace KeepsTo

/-- Consequence. -/
theorem mono {p : Proc W Q A ε α} {post post' : Except ε α → Prop} (hp : p.KeepsTo F T post)
    (hpost : ∀ r, post r → post' r) : p.KeepsTo F T post' := by
  induction p with
  | done a => exact hpost _ hp
  | fail e => exact hpost _ hp
  | sync f k ih => exact fun w => ⟨(hp w).1, ih w (hp w).2⟩
  | await q k ih => exact ⟨hp.1, fun r hr => ih r (hp.2 r hr)⟩

/-- What follows a procedure needs only what that procedure ends in. -/
theorem bind {p : Proc W Q A ε α} {g : α → Proc W Q A ε β} {mid : α → Prop}
    {post : Except ε β → Prop} (hp : p.KeepsTo F T fun r => ∀ a, r = .ok a → mid a)
    (hg : ∀ a, mid a → (g a).KeepsTo F T post) (he : ∀ e, post (.error e)) :
    (p.bind g).KeepsTo F T post := by
  rw [keepsTo_bind]
  refine hp.mono fun r hr => ?_
  cases r with
  | ok a => exact hg a (hr a rfl)
  | error e => exact he e

theorem attempt {p : Proc W Q A ε α} {post : Except ε (Except ε α) → Prop}
    (hp : p.KeepsTo F T fun r => post (.ok r)) : p.attempt.KeepsTo F T post := by
  rw [Proc.attempt, keepsTo_rescue, keepsTo_bind]
  refine hp.mono fun r hr => ?_
  cases r with
  | ok a => exact hr
  | error e => exact hr

/-- A preorder that holds each piece holds the code up to the next `await`. -/
theorem advance {p : Proc W Q A ε α} {post : Except ε α → Prop} (hp : p.KeepsTo F T post)
    (hrefl : ∀ w, F w w) (htrans : ∀ u v w, F u v → F v w → F u w) (w : W) :
    F w (p.advance w).1 ∧ (p.advance w).2.KeepsTo F T post := by
  induction p generalizing w with
  | done a => exact ⟨hrefl w, hp⟩
  | fail e => exact ⟨hrefl w, hp⟩
  | sync f k ih =>
    obtain ⟨hmove, hrest⟩ := ih w (hp w).2 (f w)
    exact ⟨htrans _ _ _ (hp w).1 hmove, hrest⟩
  | await q k ih => exact ⟨hrefl w, hp⟩

theorem of_ended {p : Proc W Q A ε α} (hp : p.Ended) : p.KeepsTo F T fun _ => True := by
  cases p with
  | done a => trivial
  | fail e => trivial
  | sync f k => cases hp
  | await q k => cases hp

theorem closed (hrefl : ∀ w, F w w) :
    Closed (fun α (p : Proc W Q A ε α) => p.KeepsTo F T fun _ => True) where
  done := fun _ => trivial
  fail := fun _ => trivial
  get := fun w => ⟨hrefl w, trivial⟩
  bind := fun hp hg => keepsTo_bind.mpr (hp.mono fun r _ => by
    cases r with
    | ok a => exact hg a
    | error e => trivial)
  rescue := fun hp hg => keepsTo_rescue.mpr (hp.mono fun r _ => by
    cases r with
    | ok a => trivial
    | error e => exact hg e)
  attempt := fun hp => .attempt hp

end KeepsTo

end Proc

/-! ## A machine -/

/-- The state satisfies `I`, and so it does whatever the procedures of the pool go on to do. -/
structure Config.Kept (I : W → Prop) (T : Terms Q A ε) (c : Config W Q A ε J) : Prop where
  world : I c.world
  pool : ∀ x ∈ c.pool, x.2.Keeps I T fun _ => True

namespace Protocol

variable {M : Machine W Q A ε C J E} {P : Protocol M} {I : W → Prop} {T : Terms Q A ε}
  {l : Label C E} {c c' : Config W Q A ε J}

/-- What one step has to preserve: a request that takes effect preserves `I` and is answered within
the terms, and an event preserves `I` and calls code that keeps to them. -/
theorem Did.kept (hd : P.Did l c c') (h : c.Kept I T)
    (hcall : ∀ i ch j q r w, l = .call i ch → c.awaits i = some (j, q) →
      P.oblige j (c.history i) q c.world → T.asks q → M.exec j q ch c.world = some (r, w) →
      I w ∧ T.answers q r)
    (hevent : ∀ e w called, l = .event e → M.event e c.world = some (w, called) →
      I w ∧ ∀ j p, called = some (j, p) → p.Keeps I T fun _ => True) : c'.Kept I T := by
  have placed : ∀ {i : Nat} {j : J} {p : Proc W Q A ε Unit} (p' : Proc W Q A ε Unit), c.pool[i]? = some (j, p) →
      (p.Keeps I T fun _ => True) ∧ ∀ x ∈ c.pool.set i (j, p'),
        (p'.Keeps I T fun _ => True) → x.2.Keeps I T fun _ => True := by
    intro i j p p' hi
    refine ⟨h.pool _ (List.mem_of_getElem? hi), fun x hx hp => ?_⟩
    rcases List.mem_or_eq_of_mem_set hx with hx | rfl
    · exact h.pool x hx
    · exact hp
  cases hd with
  | call i ch j q k r hl hi _ he ho hpool _ =>
    obtain ⟨hp, hset⟩ := placed (k r) hi
    obtain ⟨hw, hr⟩ := hcall i ch j q r _ hl (by simp [Config.awaits, hi]) ho hp.1 he
    refine ⟨hw, fun x hx => hset x (hpool ▸ hx) (hp.2 r hr)⟩
  | resume i j p _ hi _ _ hadv hpool _ =>
    obtain ⟨hp, hset⟩ := placed (p.advance c.world).2 hi
    obtain ⟨hw, hp'⟩ := hp.advance h.world
    exact ⟨hadv ▸ hw, fun x hx => hset x (hpool ▸ hx) hp'⟩
  | event e hl he hpool _ => exact ⟨(hevent e _ none hl he).1, hpool ▸ h.pool⟩
  | called e w j p hl he _ hadv hpool _ =>
    obtain ⟨hw, hp⟩ := hevent e w _ hl he
    obtain ⟨hw', hp'⟩ := (hp j p rfl).advance hw
    refine ⟨hadv ▸ hw', fun x hx => ?_⟩
    rw [hpool] at hx
    rcases List.mem_append.mp hx with hx | hx
    · exact h.pool x hx
    · rw [List.mem_singleton.mp hx]
      exact hp'

end Protocol

end LibreWallet.Async
