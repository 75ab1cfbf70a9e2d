import LibreWallet.Async.Proc

/-
  Async/Faults.lean --- one procedure that may be cut off at any request.

  A procedure runs alone.  Each request is answered, or rejected without an effect, or the
  process dies before it.  A straight procedure takes a list of steps, one for each of its
  requests; what it leaves behind are the steps before the first request that is not answered.

  Nothing here names a particular program.
-/

set_option autoImplicit false

namespace LibreWallet.Async

inductive Fate (ε : Type) where
  | answered
  | rejected (e : ε)
  | crashed
  deriving DecidableEq, Repr

/-- How a procedure ended. -/
inductive End (ε α : Type) where
  | returned (a : α)
  | threw (e : ε)
  | crashed
  deriving DecidableEq, Repr

variable {W Q : Type} {A : Q → Type} {ε α β : Type}

namespace Proc

/-- A run with a fate for each request; requests beyond the list are answered. -/
def execute (serve : (q : Q) → W → W × A q) :
    Proc W Q A ε α → List (Fate ε) → W → W × End ε α × List (Fate ε)
  | done a, fates, w => (w, .returned a, fates)
  | fail e, fates, w => (w, .threw e, fates)
  | sync f k, fates, w => (k w).execute serve fates (f w)
  | await q k, [], w => (k (.ok (serve q w).2)).execute serve [] (serve q w).1
  | await q k, .answered :: fates, w => (k (.ok (serve q w).2)).execute serve fates (serve q w).1
  | await _ k, .rejected e :: fates, w => (k (.error e)).execute serve fates w
  | await _ _, .crashed :: fates, w => (w, .crashed, fates)

variable {serve : (q : Q) → W → W × A q}

theorem execute_bind (p : Proc W Q A ε α) (g : α → Proc W Q A ε β) (fates : List (Fate ε)) (w : W) :
    (p.bind g).execute serve fates w =
      match p.execute serve fates w with
      | (w', .returned a, fates') => (g a).execute serve fates' w'
      | (w', .threw e, fates') => (w', .threw e, fates')
      | (w', .crashed, fates') => (w', .crashed, fates') := by
  induction p generalizing fates w with
  | done a => rfl
  | fail e => rfl
  | sync f k ih => exact ih w fates (f w)
  | await q k ih =>
    cases fates with
    | nil => exact ih _ _ _
    | cons fate fates =>
      cases fate with
      | answered => exact ih _ _ _
      | rejected e => exact ih _ _ _
      | crashed => rfl

theorem execute_rescue (p : Proc W Q A ε α) (h : ε → Proc W Q A ε α) (fates : List (Fate ε)) (w : W) :
    (p.rescue h).execute serve fates w =
      match p.execute serve fates w with
      | (w', .returned a, fates') => (w', .returned a, fates')
      | (w', .threw e, fates') => (h e).execute serve fates' w'
      | (w', .crashed, fates') => (w', .crashed, fates') := by
  induction p generalizing fates w with
  | done a => rfl
  | fail e => rfl
  | sync f k ih => exact ih w fates (f w)
  | await q k ih =>
    cases fates with
    | nil => exact ih _ _ _
    | cons fate fates =>
      cases fate with
      | answered => exact ih _ _ _
      | rejected e => exact ih _ _ _
      | crashed => rfl

/-! ## How far it gets -/

variable {M : Type} {apply : M → W → W}

/-- A list of steps, one for each request, and the end that is reached when all are answered. -/
def runSteps (apply : M → W → W) (last : End ε α) :
    List M → List (Fate ε) → W → W × End ε α × List (Fate ε)
  | [], fates, w => (w, last, fates)
  | m :: steps, [], w => runSteps apply last steps [] (apply m w)
  | m :: steps, .answered :: fates, w => runSteps apply last steps fates (apply m w)
  | _ :: _, .rejected e :: fates, w => (w, .threw e, fates)
  | _ :: _, .crashed :: fates, w => (w, .crashed, fates)

/-- How many of the next `n` requests are answered before one is not. -/
def answered : List (Fate ε) → Nat → Nat
  | [], n => n
  | .answered :: fates, n + 1 => answered fates n + 1
  | _, _ => 0

/-- The first of the next `n` requests that is not answered is rejected. -/
def rejects : List (Fate ε) → Nat → Bool
  | .answered :: fates, n + 1 => rejects fates n
  | .rejected _ :: _, _ + 1 => true
  | _, _ => false

/-- The first of the next `n` requests that is not answered finds the process dead. -/
def crashes : List (Fate ε) → Nat → Bool
  | .answered :: fates, n + 1 => crashes fates n
  | .crashed :: _, _ + 1 => true
  | _, _ => false

theorem answered_le (fates : List (Fate ε)) (n : Nat) : answered fates n ≤ n := by
  induction n generalizing fates with
  | zero => rcases fates with - | ⟨- | - | -, fates⟩ <;> exact Nat.le_refl 0
  | succ n ih =>
    rcases fates with - | ⟨- | - | -, fates⟩
    · exact Nat.le_refl _
    · exact Nat.succ_le_succ (ih fates)
    · exact Nat.zero_le _
    · exact Nat.zero_le _

/-- The first steps are made, and no others. -/
theorem runSteps_fst (last : End ε α) (steps : List M) (fates : List (Fate ε)) (w : W) :
    (runSteps apply last steps fates w).1 =
      (steps.take (answered fates steps.length)).foldl (fun w m => apply m w) w := by
  induction steps generalizing fates w with
  | nil => rw [List.take_nil]; rfl
  | cons m steps ih =>
    rcases fates with - | ⟨- | - | -, fates⟩
    · have := ih [] (apply m w)
      rwa [answered, List.take_length] at this ⊢
    · exact ih fates (apply m w)
    · rfl
    · rfl

/-- An error is the one of the first request that is not answered. -/
theorem runSteps_threw {last : End ε α} (hlast : ∀ e, last ≠ .threw e) (steps : List M)
    (fates : List (Fate ε)) (w : W) :
    (∃ e, (runSteps apply last steps fates w).2.1 = .threw e) ↔ rejects fates steps.length = true := by
  induction steps generalizing fates w with
  | nil =>
    have hno : rejects fates 0 = false := by rcases fates with - | ⟨- | - | -, fates⟩ <;> rfl
    rw [List.length_nil, hno]
    exact iff_of_false (fun ⟨e, h⟩ => hlast e h) Bool.false_ne_true
  | cons m steps ih =>
    rcases fates with - | ⟨- | ⟨e⟩ | -, fates⟩
    · have hno : rejects ([] : List (Fate ε)) steps.length = false := rfl
      have := ih [] (apply m w)
      rwa [hno] at this
    · exact ih fates (apply m w)
    · exact iff_of_true ⟨e, rfl⟩ rfl
    · exact iff_of_false nofun nofun

theorem runSteps_crashed {last : End ε α} (hlast : last ≠ .crashed) (steps : List M)
    (fates : List (Fate ε)) (w : W) :
    (runSteps apply last steps fates w).2.1 = .crashed ↔ crashes fates steps.length = true := by
  induction steps generalizing fates w with
  | nil =>
    have hno : crashes fates 0 = false := by rcases fates with - | ⟨- | - | -, fates⟩ <;> rfl
    rw [List.length_nil, hno]
    exact iff_of_false hlast Bool.false_ne_true
  | cons m steps ih =>
    rcases fates with - | ⟨- | - | -, fates⟩
    · have hno : crashes ([] : List (Fate ε)) steps.length = false := rfl
      have := ih [] (apply m w)
      rwa [hno] at this
    · exact ih fates (apply m w)
    · exact iff_of_false nofun nofun
    · exact iff_of_true rfl rfl

/-- A run that returns was answered throughout. -/
theorem answered_of_runSteps_returned {last : End ε α} {a : α} {steps : List M} {fates : List (Fate ε)}
    {w : W} (h : (runSteps apply last steps fates w).2.1 = .returned a) :
    answered fates steps.length = steps.length := by
  induction steps generalizing fates w with
  | nil => exact Nat.le_zero.mp (answered_le fates 0)
  | cons m steps ih =>
    rcases fates with - | ⟨- | ⟨e⟩ | -, fates⟩
    · rfl
    · exact congrArg Nat.succ (ih h)
    · cases h
    · cases h

/-- A run that returns has returned what it should. -/
theorem eq_of_runSteps_returned {a b : α} {steps : List M} {fates fates' : List (Fate ε)} {w w' : W}
    (h : runSteps apply (.returned a) steps fates w = (w', .returned b, fates')) : b = a := by
  induction steps generalizing fates w with
  | nil =>
    cases h
    rfl
  | cons m steps ih =>
    rcases fates with - | ⟨- | ⟨e⟩ | -, fates⟩
    · exact ih h
    · exact ih h
    · simp [runSteps] at h
    · simp [runSteps] at h

theorem runSteps_append (a : α) (last : End ε β) (steps steps' : List M) (fates : List (Fate ε)) (w : W) :
    runSteps apply last (steps ++ steps') fates w =
      match runSteps apply (.returned a) steps fates w with
      | (w', .returned _, fates') => runSteps apply last steps' fates' w'
      | (w', .threw e, fates') => (w', .threw e, fates')
      | (w', .crashed, fates') => (w', .crashed, fates') := by
  induction steps generalizing fates w with
  | nil => rfl
  | cons m steps ih =>
    rcases fates with - | ⟨- | - | -, fates⟩
    · exact ih [] (apply m w)
    · exact ih fates (apply m w)
    · rfl
    · rfl

/-- First one procedure, then the other. -/
theorem execute_bind_steps {p : Proc W Q A ε α} {g : α → Proc W Q A ε β} {a : α} {last : End ε β}
    {steps steps' : List M} {fates : List (Fate ε)} {w : W}
    (hp : p.execute serve fates w = runSteps apply (.returned a) steps fates w)
    (hg : ∀ fates w, (g a).execute serve fates w = runSteps apply last steps' fates w) :
    (p.bind g).execute serve fates w = runSteps apply last (steps ++ steps') fates w := by
  rw [execute_bind, runSteps_append a, hp]
  match he : runSteps apply (.returned a : End ε α) steps fates w with
  | (w', .returned b, fates') =>
    rw [eq_of_runSteps_returned he]
    exact hg fates' w'
  | (w', .threw e, fates') => rfl
  | (w', .crashed, fates') => rfl

/-- One request, and what follows its answer. -/
theorem execute_request_steps {q : Q} {g : A q → Proc W Q A ε β} {m : M} {last : End ε β}
    {steps : List M} {w : W} (hq : (serve q w).1 = apply m w)
    (hg : ∀ fates, (g (serve q w).2).execute serve fates (apply m w) =
      runSteps apply last steps fates (apply m w))
    (fates : List (Fate ε)) :
    ((request q).bind g).execute serve fates w = runSteps apply last (m :: steps) fates w := by
  have hgo : ∀ fates, (g (serve q w).2).execute serve fates (serve q w).1 =
      runSteps apply last steps fates (apply m w) := by
    intro fates
    rw [hq]
    exact hg fates
  rcases fates with - | ⟨- | - | -, fates⟩
  · exact hgo []
  · exact hgo fates
  · rfl
  · rfl

end Proc

end LibreWallet.Async
