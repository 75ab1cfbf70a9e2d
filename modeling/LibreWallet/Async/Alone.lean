import LibreWallet.Async.Logic

/-
  Async/Alone.lean --- one procedure with nothing else moving.

  `Alone exec p w p' w'`: a procedure that starts at the state `w` can stand at `w'`
  with `p'` left to do, whatever the environment answered on the way.  It may be cut
  off there: `Alone.sound` gives what the invariant of the logic says of that moment.
  `eval` is the run with given answers.
-/

set_option autoImplicit false

namespace LibreWallet.Async

variable {W Q : Type} {A : Q → Type} {ε C α β : Type}

/-- How far a procedure can have come. -/
inductive Alone (exec : (q : Q) → C → W → Option (Except ε (A q) × W)) (p : Proc W Q A ε α)
    (w : W) : Proc W Q A ε α → W → Prop where
  | start : Alone exec p w (p.advance w).2 (p.advance w).1
  | step {q : Q} {k : Except ε (A q) → Proc W Q A ε α} {w₁ w₂ : W} {c : C}
      {r : Except ε (A q)} :
      Alone exec p w (.await q k) w₁ → exec q c w₁ = some (r, w₂) →
      Alone exec p w ((k r).advance w₂).2 ((k r).advance w₂).1

/-- The contract of a procedure that nothing interferes with. -/
def aloneContract (exec : (q : Q) → C → W → Option (Except ε (A q) × W)) (I : W → Prop) :
    Contract W Q A ε C where
  exec := exec
  inv := I
  rely := Eq
  sync := fun _ _ => True
  guar := fun _ _ => True
  allow := fun _ _ _ _ => True
  oblige := fun _ _ _ => True

section

variable {exec : (q : Q) → C → W → Option (Except ε (A q) × W)} {I : W → Prop}
  {h : List (Entry W Q A ε)} {s w : W}

theorem wp_ask_alone {q : Q} {Post : PostCond W Q A ε (A q)} (hi : I w)
    (hk : ∀ c r w₂, exec q c w = some (r, w₂) → I w₂ ∧ Post (⟨q, r, w⟩ :: h) r w₂ w₂) :
    wp (aloneContract exec I) (.request q) h Post s w := by
  rw [wp_request]
  refine ⟨trivial, hi, ?_⟩
  rintro w₁ rfl _ c r w₂ - he
  obtain ⟨hi₂, hp⟩ := hk c r w₂ he
  refine ⟨trivial, trivial, hi₂, ?_⟩
  rintro w₃ rfl _
  exact hp

/-- Synchronous code never stands still. -/
theorem Alone.ne_sync {p p' : Proc W Q A ε α} {w' : W} (run : Alone exec p w p' w') :
    ∀ f k, p' ≠ .sync f k := by
  cases run with
  | start => exact fun f k => Proc.advance_ne_sync _ _ f k
  | step _ _ => exact fun f k => Proc.advance_ne_sync _ _ f k

/-- Wherever the procedure stands, it is fit to go on. -/
theorem Alone.wp {p p' : Proc W Q A ε α} {w' : W} (run : Alone exec p w p' w')
    {Post : PostCond W Q A ε α} (hp : Async.wp (aloneContract exec I) p h Post s w) :
    ∃ h' s', Async.wp (aloneContract exec I) p' h' Post s' w' := by
  induction run with
  | start => exact ⟨h, s, wp_advance hp⟩
  | step _ he ih =>
    obtain ⟨h', s', -, hi, hk⟩ := ih
    obtain ⟨-, -, hi₂, hk⟩ := hk _ rfl hi _ _ _ trivial he
    exact ⟨_, _, wp_advance (hk _ rfl hi₂)⟩

/-- Where it is cut off the invariant holds, or its postcondition. -/
theorem Alone.sound {p p' : Proc W Q A ε α} {w' : W} (run : Alone exec p w p' w')
    {Post : PostCond W Q A ε α} (hp : Async.wp (aloneContract exec I) p h Post s w) :
    (∃ q k, p' = .await q k ∧ I w') ∨ (∃ a h' s', p' = .done a ∧ Post h' (.ok a) s' w') ∨
      ∃ e h' s', p' = .fail e ∧ Post h' (.error e) s' w' := by
  obtain ⟨h', s', hp'⟩ := run.wp hp
  cases p' with
  | done a => exact .inr (.inl ⟨a, h', s', rfl, hp'⟩)
  | fail e => exact .inr (.inr ⟨e, h', s', rfl, hp'⟩)
  | await q k => exact .inl ⟨q, k, rfl, hp'.2.1⟩
  | sync f k => exact absurd rfl (run.ne_sync f k)

/-- One request after another, with what the environment chooses for each. -/
def walk (exec : (q : Q) → C → W → Option (Except ε (A q) × W)) :
    List C → Proc W Q A ε α × W → Option (Proc W Q A ε α × W)
  | [], x => some x
  | c :: cs, (.await q k, w) =>
    match exec q c w with
    | some (r, w') => walk exec cs (((k r).advance w').2, ((k r).advance w').1)
    | none => none
  | _ :: _, _ => none

theorem Alone.walk {p : Proc W Q A ε α} {cs : List C} {x y : Proc W Q A ε α × W}
    (run : Alone exec p w x.1 x.2) (hy : Async.walk exec cs x = some y) :
    Alone exec p w y.1 y.2 := by
  induction cs generalizing x with
  | nil =>
    cases hy
    exact run
  | cons c cs ih =>
    obtain ⟨p', w'⟩ := x
    cases p' with
    | await q k =>
      simp only [Async.walk] at hy
      cases he : exec q c w' with
      | none =>
        rw [he] at hy
        cases hy
      | some z =>
        rw [he] at hy
        exact ih (run.step he) hy
    | _ => cases hy

end

/-! ## Given answers -/

namespace Proc

/-- The run in which every request takes effect as `exec` says. -/
def eval (exec : (q : Q) → W → Option (Except ε (A q) × W)) :
    Proc W Q A ε α → W → Option (Except ε α × W)
  | done a, w => some (.ok a, w)
  | fail e, w => some (.error e, w)
  | sync f k, w => (k w).eval exec (f w)
  | await q k, w =>
    match exec q w with
    | some (r, w') => (k r).eval exec w'
    | none => none

variable {exec : (q : Q) → W → Option (Except ε (A q) × W)} {w w' : W}

@[simp] theorem eval_done (a : α) : (done a : Proc W Q A ε α).eval exec w = some (.ok a, w) := rfl

@[simp] theorem eval_fail (e : ε) :
    (fail e : Proc W Q A ε α).eval exec w = some (.error e, w) := rfl

@[simp] theorem eval_get : (get : Proc W Q A ε W).eval exec w = some (.ok w, w) := rfl

@[simp] theorem eval_modify (f : W → W) :
    (modify f : Proc W Q A ε Unit).eval exec w = some (.ok (), f w) := rfl

@[simp] theorem eval_ofExcept (r : Except ε α) :
    (ofExcept r : Proc W Q A ε α).eval exec w = some (r, w) := by
  cases r <;> rfl

theorem eval_request {q : Q} {r : Except ε (A q)} (he : exec q w = some (r, w')) :
    (request q : Proc W Q A ε (A q)).eval exec w = some (r, w') := by
  simp only [request, eval, he, eval_ofExcept]

theorem eval_bind (p : Proc W Q A ε α) (g : α → Proc W Q A ε β) :
    (p.bind g).eval exec w =
      match p.eval exec w with
      | some (.ok a, w') => (g a).eval exec w'
      | some (.error e, w') => some (.error e, w')
      | none => none := by
  induction p generalizing w with
  | done a => rfl
  | fail e => rfl
  | sync f k ih => exact ih w
  | await q k ih =>
    simp only [bind, eval]
    cases exec q w with
    | none => rfl
    | some x => exact ih x.1

theorem eval_rescue (p : Proc W Q A ε α) (g : ε → Proc W Q A ε α) :
    (p.rescue g).eval exec w =
      match p.eval exec w with
      | some (.ok a, w') => some (.ok a, w')
      | some (.error e, w') => (g e).eval exec w'
      | none => none := by
  induction p generalizing w with
  | done a => rfl
  | fail e => rfl
  | sync f k ih => exact ih w
  | await q k ih =>
    simp only [rescue, eval]
    cases exec q w with
    | none => rfl
    | some x => exact ih x.1

/-- Sequencing after a result. -/
theorem eval_bind_ok {p : Proc W Q A ε α} {g : α → Proc W Q A ε β} {a : α}
    (h : p.eval exec w = some (.ok a, w')) : (p.bind g).eval exec w = (g a).eval exec w' := by
  rw [eval_bind, h]

/-- Sequencing after an error. -/
theorem eval_bind_error {p : Proc W Q A ε α} {g : α → Proc W Q A ε β} {e : ε}
    (h : p.eval exec w = some (.error e, w')) :
    (p.bind g).eval exec w = some (.error e, w') := by
  rw [eval_bind, h]

theorem eval_rescue_ok {p : Proc W Q A ε α} {g : ε → Proc W Q A ε α} {a : α}
    (h : p.eval exec w = some (.ok a, w')) : (p.rescue g).eval exec w = some (.ok a, w') := by
  rw [eval_rescue, h]

theorem eval_attempt {p : Proc W Q A ε α} {r : Except ε α}
    (h : p.eval exec w = some (r, w')) : p.attempt.eval exec w = some (.ok r, w') := by
  simp only [attempt, eval_rescue, eval_bind, h]
  cases r <;> rfl

/-! ## A given run among others -/

/-- The run in which the others move by `wait` before each request, which takes effect as `exec` says
of the requests before it; with the requests it makes. -/
def recordBy (wait : Q → W → W)
    (exec : List (Entry W Q A ε) → (q : Q) → W → Option (Except ε (A q) × W)) :
    Proc W Q A ε α → List (Entry W Q A ε) → W →
      Option (List (Entry W Q A ε) × Except ε α × W)
  | done a, h, w => some (h, .ok a, w)
  | fail e, h, w => some (h, .error e, w)
  | sync f k, h, w => (k w).recordBy wait exec h (f w)
  | await q k, h, w =>
    match exec h q (wait q w) with
    | some (r, w') => (k r).recordBy wait exec (⟨q, r, wait q w⟩ :: h) w'
    | none => none

/-- The same, where the requests before do not matter. -/
abbrev record (wait : Q → W → W) (exec : (q : Q) → W → Option (Except ε (A q) × W))
    (p : Proc W Q A ε α) (h : List (Entry W Q A ε)) (w : W) :
    Option (List (Entry W Q A ε) × Except ε α × W) :=
  p.recordBy wait (fun _ => exec) h w

/-- It is one of the runs of the logic. -/
theorem solo_of_recordBy {R : Contract W Q A ε C} {wait : Q → W → W}
    {exec : List (Entry W Q A ε) → (q : Q) → W → Option (Except ε (A q) × W)}
    (hrefl : ∀ w, R.rely w w) (hwait : ∀ q w, R.rely w (wait q w))
    (hexec : ∀ h q w r w', exec h q (wait q w) = some (r, w') →
      ∃ c, R.allow h q c (wait q w) ∧ R.exec q c (wait q w) = some (r, w'))
    {p : Proc W Q A ε α} {h h' : List (Entry W Q A ε)} {r : Except ε α}
    (hp : p.recordBy wait exec h w = some (h', r, w')) : Solo R p h w h' r w' := by
  induction p generalizing h w with
  | done a =>
    cases hp
    exact .done
  | fail e =>
    cases hp
    exact .fail
  | sync f k ih => exact .sync (ih w hp)
  | await q k ih =>
    simp only [recordBy] at hp
    split at hp
    · rename_i a w₁ he
      obtain ⟨c, ha, hc⟩ := hexec h q w a w₁ he
      exact .await (hwait q w) ha hc (hrefl w₁) (ih a hp)
    · cases hp

theorem solo_of_record {R : Contract W Q A ε C} {wait : Q → W → W} (hrefl : ∀ w, R.rely w w)
    (hwait : ∀ q w, R.rely w (wait q w))
    (hexec : ∀ h q w r w', exec q (wait q w) = some (r, w') →
      ∃ c, R.allow h q c (wait q w) ∧ R.exec q c (wait q w) = some (r, w'))
    {p : Proc W Q A ε α} {h h' : List (Entry W Q A ε)} {r : Except ε α}
    (hp : p.record wait exec h w = some (h', r, w')) : Solo R p h w h' r w' :=
  solo_of_recordBy hrefl hwait hexec hp

end Proc

end LibreWallet.Async
