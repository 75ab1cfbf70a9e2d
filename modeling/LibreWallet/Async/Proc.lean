/-
  Async/Proc.lean --- asynchronous procedures over a shared state.

  A procedure is what an `async` function of a single-threaded event loop does:
  synchronous code, which runs to its next `await` without interruption, and
  awaited requests, each of which takes effect at some later moment, is answered
  (or rejected) by its environment, and lets any other procedure run meanwhile.

  The type is a tree: every answer of every request has its continuation, so a
  procedure is finite along each path and everything below is by structural
  recursion.  A loop of the modelled program takes a bound and is quantified
  over it.

  Nothing here names a particular program: the state `W`, the requests `Q`, their
  answers `A` and the errors `ε` are parameters.
-/
import Mathlib.Logic.Function.Basic

set_option autoImplicit false

namespace LibreWallet.Async

/-- An asynchronous procedure that returns an `α` or throws an `ε`. -/
inductive Proc (W Q : Type) (A : Q → Type) (ε α : Type) where
  /-- `return a` -/
  | done (a : α)
  /-- `throw e` -/
  | fail (e : ε)
  /-- Synchronous code: update the state, go on with the state before the update. -/
  | sync (f : W → W) (k : W → Proc W Q A ε α)
  /-- `await` a request; its rejection reaches the continuation as an error. -/
  | await (q : Q) (k : Except ε (A q) → Proc W Q A ε α)

namespace Proc

variable {W Q : Type} {A : Q → Type} {ε α β γ : Type}

/-- Sequencing; an uncaught error ends the procedure. -/
def bind : Proc W Q A ε α → (α → Proc W Q A ε β) → Proc W Q A ε β
  | done a, g => g a
  | fail e, _ => fail e
  | sync f k, g => sync f (fun w => (k w).bind g)
  | await q k, g => await q (fun r => (k r).bind g)

instance : Monad (Proc W Q A ε) where
  pure := done
  bind := bind

/-- `try { x } catch (e) { h(e) }`. -/
def rescue : Proc W Q A ε α → (ε → Proc W Q A ε α) → Proc W Q A ε α
  | done a, _ => done a
  | fail e, h => h e
  | sync f k, h => sync f (fun w => (k w).rescue h)
  | await q k, h => await q (fun r => (k r).rescue h)

/-- Return a value or throw an error. -/
def ofExcept : Except ε α → Proc W Q A ε α
  | .ok a => done a
  | .error e => fail e

/-- Await a request and throw its rejection. -/
def request (q : Q) : Proc W Q A ε (A q) := await q ofExcept

/-- `try` without a `catch` clause of its own: the error becomes a value. -/
def attempt (p : Proc W Q A ε α) : Proc W Q A ε (Except ε α) :=
  (p.bind fun a => done (.ok a)).rescue fun e => done (.error e)

/-- Read the state. -/
def get : Proc W Q A ε W := sync id done

/-- Update the state. -/
def modify (f : W → W) : Proc W Q A ε Unit := sync f (fun _ => done ())

/-- Run the synchronous code up to the next `await` or to the end. -/
def advance : Proc W Q A ε α → W → W × Proc W Q A ε α
  | done a, w => (w, done a)
  | fail e, w => (w, fail e)
  | sync f k, w => (k w).advance (f w)
  | await q k, w => (w, await q k)

@[simp] theorem pure_eq (a : α) : (pure a : Proc W Q A ε α) = done a := rfl

@[simp] theorem bind_eq (x : Proc W Q A ε α) (g : α → Proc W Q A ε β) :
    (x >>= g) = x.bind g := rfl

theorem bind_assoc (p : Proc W Q A ε α) (f : α → Proc W Q A ε β) (g : β → Proc W Q A ε γ) :
    (p.bind f).bind g = p.bind fun a => (f a).bind g := by
  induction p with
  | done a => rfl
  | fail e => rfl
  | sync u k ih => simp only [bind, ih]
  | await q k ih => simp only [bind, ih]

@[simp] theorem advance_await (q : Q) (k : Except ε (A q) → Proc W Q A ε α) (w : W) :
    (await q k).advance w = (w, await q k) := rfl

@[simp] theorem advance_get_bind (g : W → Proc W Q A ε α) (w : W) :
    (get.bind g).advance w = (g w).advance w := rfl

@[simp] theorem advance_modify_bind (f : W → W) (g : Unit → Proc W Q A ε α) (w : W) :
    ((modify f).bind g).advance w = (g ()).advance (f w) := rfl

/-- Synchronous code stops at an `await` or at the end, never inside itself. -/
theorem advance_ne_sync (p : Proc W Q A ε α) (w : W) (f : W → W)
    (k : W → Proc W Q A ε α) : (p.advance w).2 ≠ sync f k := by
  induction p generalizing w with
  | done a => exact fun h => by cases h
  | fail e => exact fun h => by cases h
  | sync g k' ih => exact ih w (g w)
  | await q k' _ => exact fun h => by cases h

end Proc

end LibreWallet.Async
