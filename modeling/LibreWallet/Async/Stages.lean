import LibreWallet.Async.Machine

/-
  Async/Stages.lean --- what the synchronous code of a procedure does, stage by stage.

  `Within F p`: every piece of synchronous code of `p` moves the state within `F`, whatever is
  answered and wherever the others have moved the state meanwhile.  `Until opens F G p`: the same,
  until a request is answered as `opens` says, and within `G` from there on.  Both are about the
  tree alone; a machine keeps them of every procedure in its pool.

  Nothing here names a particular program.
-/

set_option autoImplicit false

namespace LibreWallet.Async

variable {W Q : Type} {A : Q → Type} {ε C J E α β : Type}

/-- A property of code that its constructors keep. -/
structure Closed (Φ : ∀ α : Type, Proc W Q A ε α → Prop) : Prop where
  done : ∀ {α : Type} (a : α), Φ α (.done a)
  fail : ∀ {α : Type} (e : ε), Φ α (.fail e)
  get : Φ W .get
  bind : ∀ {α β : Type} {p : Proc W Q A ε α} {g : α → Proc W Q A ε β},
    Φ α p → (∀ a, Φ β (g a)) → Φ β (p.bind g)
  rescue : ∀ {α : Type} {p : Proc W Q A ε α} {g : ε → Proc W Q A ε α},
    Φ α p → (∀ e, Φ α (g e)) → Φ α (p.rescue g)
  attempt : ∀ {α : Type} {p : Proc W Q A ε α}, Φ α p → Φ (Except ε α) p.attempt

namespace Proc

/-- The synchronous code of a procedure moves the state within `F`. -/
def Within (F : W → W → Prop) : Proc W Q A ε α → Prop
  | done _ => True
  | fail _ => True
  | sync f k => ∀ w, F w (f w) ∧ (k w).Within F
  | await _ k => ∀ r, (k r).Within F

/-- The synchronous code of a procedure moves the state within `F` until a request is answered as
`opens` says, and within `G` from there on. -/
def Until (opens : (q : Q) → Except ε (A q) → Bool) (F G : W → W → Prop) : Proc W Q A ε α → Prop
  | done _ => True
  | fail _ => True
  | sync f k => ∀ w, F w (f w) ∧ (k w).Until opens F G
  | await q k => ∀ r, if opens q r then (k r).Within G else (k r).Until opens F G

/-- Code of two stages: within `F` in the first, and within `G` throughout. -/
structure Staged (opens : (q : Q) → Except ε (A q) → Bool) (F G : W → W → Prop) (p : Proc W Q A ε α) :
    Prop where
  first : p.Until opens F G
  whole : p.Within G

/-- A procedure that has come to its end. -/
def Ended : Proc W Q A ε α → Prop
  | done _ => True
  | fail _ => True
  | _ => False

section

variable {opens : (q : Q) → Except ε (A q) → Bool} {F G : W → W → Prop}

namespace Within

theorem bind {p : Proc W Q A ε α} {g : α → Proc W Q A ε β} (hp : p.Within F)
    (hg : ∀ a, (g a).Within F) : (p.bind g).Within F := by
  induction p with
  | done a => exact hg a
  | fail e => trivial
  | sync f k ih => exact fun w => ⟨(hp w).1, ih w (hp w).2⟩
  | await q k ih => exact fun r => ih r (hp r)

theorem rescue {p : Proc W Q A ε α} {g : ε → Proc W Q A ε α} (hp : p.Within F)
    (hg : ∀ e, (g e).Within F) : (p.rescue g).Within F := by
  induction p with
  | done a => trivial
  | fail e => exact hg e
  | sync f k ih => exact fun w => ⟨(hp w).1, ih w (hp w).2⟩
  | await q k ih => exact fun r => ih r (hp r)

theorem attempt {p : Proc W Q A ε α} (hp : p.Within F) : p.attempt.Within F := by
  have hbind : (p.bind fun a => done (.ok a) : Proc W Q A ε (Except ε α)).Within F :=
    hp.bind fun _ => trivial
  exact hbind.rescue fun _ => trivial

theorem modify {f : W → W} (hf : ∀ w, F w (f w)) : (modify f : Proc W Q A ε Unit).Within F :=
  fun w => ⟨hf w, trivial⟩

theorem request (q : Q) : (request q : Proc W Q A ε (A q)).Within F := by
  intro r
  cases r <;> trivial

theorem mono {p : Proc W Q A ε α} (hp : p.Within F) (hFG : ∀ v w, F v w → G v w) : p.Within G := by
  induction p with
  | done a => trivial
  | fail e => trivial
  | sync f k ih => exact fun w => ⟨hFG _ _ (hp w).1, ih w (hp w).2⟩
  | await q k ih => exact fun r => ih r (hp r)

/-- A preorder that holds each piece holds the code up to the next `await`. -/
theorem advance {p : Proc W Q A ε α} (hp : p.Within F) (hrefl : ∀ w, F w w)
    (htrans : ∀ u v w, F u v → F v w → F u w) (w : W) :
    F w (p.advance w).1 ∧ (p.advance w).2.Within F := by
  induction p generalizing w with
  | done a => exact ⟨hrefl w, trivial⟩
  | fail e => exact ⟨hrefl w, trivial⟩
  | sync f k ih =>
    obtain ⟨hmove, hrest⟩ := ih w (hp w).2 (f w)
    exact ⟨htrans _ _ _ (hp w).1 hmove, hrest⟩
  | await q k ih => exact ⟨hrefl w, hp⟩

theorem closed (hrefl : ∀ w, F w w) :
    Closed (fun α (p : Proc W Q A ε α) => p.Within F) where
  done := fun _ => trivial
  fail := fun _ => trivial
  get := fun w => ⟨hrefl w, trivial⟩
  bind := fun hp hg => hp.bind hg
  rescue := fun hp hg => hp.rescue hg
  attempt := fun hp => hp.attempt

end Within

namespace Until

/-- Code that never leaves `F`. -/
theorem of_within {p : Proc W Q A ε α} (hp : p.Within F) (hFG : ∀ v w, F v w → G v w) :
    p.Until opens F G := by
  induction p with
  | done a => trivial
  | fail e => trivial
  | sync f k ih => exact fun w => ⟨(hp w).1, ih w (hp w).2⟩
  | await q k ih =>
    intro r
    split
    · exact (hp r).mono hFG
    · exact ih r (hp r)

theorem bind {p : Proc W Q A ε α} {g : α → Proc W Q A ε β} (hp : p.Until opens F G)
    (hg : ∀ a, (g a).Until opens F G) (hG : ∀ a, (g a).Within G) : (p.bind g).Until opens F G := by
  induction p with
  | done a => exact hg a
  | fail e => trivial
  | sync f k ih => exact fun w => ⟨(hp w).1, ih w (hp w).2⟩
  | await q k ih =>
    intro r
    have hr := hp r
    split at hr
    · rename_i ho
      rw [if_pos ho]
      exact hr.bind hG
    · rename_i ho
      rw [if_neg ho]
      exact ih r hr

theorem rescue {p : Proc W Q A ε α} {g : ε → Proc W Q A ε α} (hp : p.Until opens F G)
    (hg : ∀ e, (g e).Until opens F G) (hG : ∀ e, (g e).Within G) : (p.rescue g).Until opens F G := by
  induction p with
  | done a => trivial
  | fail e => exact hg e
  | sync f k ih => exact fun w => ⟨(hp w).1, ih w (hp w).2⟩
  | await q k ih =>
    intro r
    have hr := hp r
    split at hr
    · rename_i ho
      rw [if_pos ho]
      exact hr.rescue hG
    · rename_i ho
      rw [if_neg ho]
      exact ih r hr

theorem attempt {p : Proc W Q A ε α} (hp : p.Until opens F G) : p.attempt.Until opens F G := by
  have hbind : (p.bind fun a => done (.ok a) : Proc W Q A ε (Except ε α)).Until opens F G :=
    hp.bind (fun _ => trivial) fun _ => trivial
  exact hbind.rescue (fun _ => trivial) fun _ => trivial

theorem request (q : Q) : (request q : Proc W Q A ε (A q)).Until opens F G := by
  intro r
  split <;> cases r <;> trivial

/-- A request that may open the second stage, and what is made of its answer. -/
theorem request_attempt_bind {q : Q} {g : Except ε (A q) → Proc W Q A ε β}
    (hclosed : ∀ r, opens q r = false → (g r).Until opens F G)
    (hopen : ∀ r, opens q r = true → (g r).Within G) :
    ((Proc.request q).attempt.bind g).Until opens F G := by
  intro r
  split
  · rename_i ho
    cases r <;> exact hopen _ ho
  · rename_i ho
    cases r <;> exact hclosed _ (Bool.eq_false_iff.mpr ho)

theorem advance {p : Proc W Q A ε α} (hp : p.Until opens F G) (hrefl : ∀ w, F w w)
    (htrans : ∀ u v w, F u v → F v w → F u w) (w : W) :
    F w (p.advance w).1 ∧ (p.advance w).2.Until opens F G := by
  induction p generalizing w with
  | done a => exact ⟨hrefl w, trivial⟩
  | fail e => exact ⟨hrefl w, trivial⟩
  | sync f k ih =>
    obtain ⟨hmove, hrest⟩ := ih w (hp w).2 (f w)
    exact ⟨htrans _ _ _ (hp w).1 hmove, hrest⟩
  | await q k ih => exact ⟨hrefl w, hp⟩

end Until

theorem Staged.closed (hF : ∀ w, F w w) (hG : ∀ w, G w w) :
    Closed (fun α (p : Proc W Q A ε α) => p.Staged opens F G) where
  done := fun _ => ⟨trivial, trivial⟩
  fail := fun _ => ⟨trivial, trivial⟩
  get := ⟨fun w => ⟨hF w, trivial⟩, fun w => ⟨hG w, trivial⟩⟩
  bind := fun hp hg => ⟨hp.first.bind (fun a => (hg a).first) fun a => (hg a).whole,
    hp.whole.bind fun a => (hg a).whole⟩
  rescue := fun hp hg => ⟨hp.first.rescue (fun e => (hg e).first) fun e => (hg e).whole,
    hp.whole.rescue fun e => (hg e).whole⟩
  attempt := fun hp => ⟨hp.first.attempt, hp.whole.attempt⟩

end

end Proc

end LibreWallet.Async
