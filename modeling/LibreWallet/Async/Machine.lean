import LibreWallet.Async.Proc
import Mathlib.Data.List.Basic

/-
  Async/Machine.lean --- many asynchronous procedures on one shared state.

  A machine says how an awaited request takes effect (`exec`, with a choice `C`
  that the environment makes: answered, rejected, lost), and which events the
  environment can cause (`event`: a change of the state and, possibly, a call of
  one procedure).  A configuration is a state, the pool of procedures called so
  far, and the trace of every request that has taken effect.

  Steps are the finest a single-threaded event loop allows: one request takes
  effect, one procedure runs its synchronous code up to its next `await`, or one
  event happens.  Everything else, in any order, may happen in between.
-/

set_option autoImplicit false

namespace LibreWallet.Async

/-- A request that took effect: what was asked, what was answered, and the state
it found. -/
structure Entry (W Q : Type) (A : Q → Type) (ε : Type) where
  request : Q
  answer : Except ε (A request)
  before : W

/-- How requests take effect for a caller `J` and which events there are. -/
structure Machine (W Q : Type) (A : Q → Type) (ε C J E : Type) where
  /-- The effect of a request and its answer, under the environment's choice;
  `none` while the request cannot take effect yet. -/
  exec : J → (q : Q) → C → W → Option (Except ε (A q) × W)
  /-- The effect of an event and the procedure it calls, if it can happen. -/
  event : E → W → Option (W × Option (J × Proc W Q A ε Unit))
  /-- Whether the caller's procedures still run. -/
  runs : J → W → Bool

variable {W Q : Type} {A : Q → Type} {ε C J E : Type}

/-- One effect in the trace of a run, with the procedure (its place in the pool)
and the caller it belongs to. -/
structure Effect (W Q : Type) (A : Q → Type) (ε J : Type) where
  proc : Nat
  job : J
  entry : Entry W Q A ε

/-- The state, the procedures called so far (each where it stands now), and the
trace of effects, newest first. -/
structure Config (W Q : Type) (A : Q → Type) (ε J : Type) where
  world : W
  pool : List (J × Proc W Q A ε Unit)
  trace : List (Effect W Q A ε J)

/-- A step of the machine. -/
inductive Label (C E : Type) where
  /-- The request that procedure `i` awaits takes effect. -/
  | call (i : Nat) (c : C)
  /-- Procedure `i` goes on with its synchronous code. -/
  | resume (i : Nat)
  /-- The environment causes an event. -/
  | event (e : E)

/-- A line of a script: an event, or a procedure that goes on by itself. -/
inductive Line (C E : Type) where
  | event (e : E)
  | go (i : Nat) (ch : C) (n : Nat)

namespace Config

/-- The effects of procedure `i`, newest first. -/
def history (c : Config W Q A ε J) (i : Nat) : List (Entry W Q A ε) :=
  (c.trace.filter (·.proc = i)).map (·.entry)

/-- The request that procedure `i` awaits. -/
def awaits (c : Config W Q A ε J) (i : Nat) : Option (J × Q) :=
  match c.pool[i]? with
  | some (j, .await q _) => some (j, q)
  | _ => none

end Config

namespace Machine

variable (M : Machine W Q A ε C J E)

/-- One step; `none` when the label is not enabled. -/
def step (l : Label C E) (c : Config W Q A ε J) : Option (Config W Q A ε J) :=
  match l with
  | .call i ch =>
    match c.pool[i]? with
    | some (j, .await q k) =>
      if M.runs j c.world then
        (M.exec j q ch c.world).map fun (r, w) =>
          { world := w
            pool := c.pool.set i (j, k r)
            trace := ⟨i, j, ⟨q, r, c.world⟩⟩ :: c.trace }
      else none
    | _ => none
  | .resume i =>
    match c.pool[i]? with
    | some (j, .sync f k) =>
      if M.runs j c.world then
        let (w, p) := (Proc.sync f k).advance c.world
        some { c with world := w, pool := c.pool.set i (j, p) }
      else none
    | _ => none
  | .event e =>
    (M.event e c.world).map fun (w, called) =>
      match called with
      | none => { c with world := w }
      | some (j, p) =>
        let (w', p') := p.advance w
        { c with world := w', pool := c.pool ++ [(j, p')] }

/-- The label by which procedure `i` goes on. -/
def next (i : Nat) (ch : C) (c : Config W Q A ε J) : Option (Label C E) :=
  match c.pool[i]? with
  | some (_, .await _ _) => some (.call i ch)
  | some (_, .sync _ _) => some (.resume i)
  | _ => none

/-- Let procedure `i` go on by itself, for at most `n` steps that pass the check, its
requests answered as `ch` says. -/
def go (ok : Label C E → Config W Q A ε J → Bool) (i : Nat) (ch : C) :
    Nat → Config W Q A ε J → Config W Q A ε J
  | 0, c => c
  | n + 1, c =>
    match next i ch c with
    | none => c
    | some l =>
      match (if ok l c then M.step l c else none) with
      | none => c
      | some c' => go ok i ch n c'

/-- Play a script; its events must be enabled and pass the check. -/
def play (ok : Label C E → Config W Q A ε J → Bool) :
    List (Line C E) → Config W Q A ε J → Option (Config W Q A ε J)
  | [], c => some c
  | .event e :: ls, c =>
    if ok (.event e) c then (M.step (.event e) c).bind (play ok ls) else none
  | .go i ch n :: ls, c => play ok ls (M.go ok i ch n c)

/-- A run from `c` every step of which, seen from the configuration it is taken
in, satisfies `P`. -/
inductive Run (P : Label C E → Config W Q A ε J → Prop) (c : Config W Q A ε J) :
    Config W Q A ε J → Prop where
  | refl : Run P c c
  | snoc {c' c'' : Config W Q A ε J} {l : Label C E} :
      Run P c c' → P l c' → M.step l c' = some c'' → Run P c c''

variable {M}

/-- What a `call` label does. -/
theorem step_call {i : Nat} {ch : C} {c c' : Config W Q A ε J}
    (h : M.step (.call i ch) c = some c') :
    ∃ j q k r w, c.pool[i]? = some (j, .await q k) ∧ M.runs j c.world = true ∧
      M.exec j q ch c.world = some (r, w) ∧
      c' = { world := w
             pool := c.pool.set i (j, k r)
             trace := ⟨i, j, ⟨q, r, c.world⟩⟩ :: c.trace } := by
  simp only [step] at h
  split at h
  · rename_i j q k hi
    split at h
    · rename_i hr
      simp only [Option.map_eq_some_iff, Prod.exists] at h
      obtain ⟨r, w, he, rfl⟩ := h
      exact ⟨j, q, k, r, w, hi, hr, he, rfl⟩
    · cases h
  · cases h

/-- What a `resume` label does. -/
theorem step_resume {i : Nat} {c c' : Config W Q A ε J}
    (h : M.step (.resume i) c = some c') :
    ∃ j f k, c.pool[i]? = some (j, .sync f k) ∧ M.runs j c.world = true ∧
      c' = { c with
        world := ((Proc.sync f k).advance c.world).1
        pool := c.pool.set i (j, ((Proc.sync f k).advance c.world).2) } := by
  simp only [step] at h
  split at h
  · rename_i j f k hi
    split at h
    · rename_i hr
      exact ⟨j, f, k, hi, hr, by simpa using h.symm⟩
    · cases h
  · cases h

/-- What an `event` label does. -/
theorem step_event {e : E} {c c' : Config W Q A ε J}
    (h : M.step (.event e) c = some c') :
    (∃ w, M.event e c.world = some (w, none) ∧ c' = { c with world := w }) ∨
    (∃ w j p, M.event e c.world = some (w, some (j, p)) ∧
      c' = { c with
        world := (p.advance w).1
        pool := c.pool ++ [(j, (p.advance w).2)] }) := by
  simp only [step, Option.map_eq_some_iff, Prod.exists] at h
  obtain ⟨w, called, he, rfl⟩ := h
  cases called with
  | none => exact .inl ⟨w, he, rfl⟩
  | some jp =>
    obtain ⟨j, p⟩ := jp
    exact .inr ⟨w, j, p, he, rfl⟩

/-- What a procedure does by itself is a run. -/
theorem Run.go {ok : Label C E → Config W Q A ε J → Bool} {c c' : Config W Q A ε J} {i : Nat}
    {ch : C} {n : Nat} (h : Run M (fun l d => ok l d = true) c c') :
    Run M (fun l d => ok l d = true) c (M.go ok i ch n c') := by
  induction n generalizing c' with
  | zero => exact h
  | succ n ih =>
    simp only [Machine.go]
    split
    · exact h
    · split
      · exact h
      · rename_i l _ d hd
        split at hd
        · rename_i hok
          exact ih (.snoc h hok hd)
        · cases hd

/-- A script that plays to its end is a run. -/
theorem Run.of_play {ok : Label C E → Config W Q A ε J → Bool}
    {c c' c'' : Config W Q A ε J} {ls : List (Line C E)}
    (h₀ : Run M (fun l d => ok l d = true) c c') (h : M.play ok ls c' = some c'') :
    Run M (fun l d => ok l d = true) c c'' := by
  induction ls generalizing c' with
  | nil =>
    simp only [play, Option.some.injEq] at h
    exact h ▸ h₀
  | cons line ls ih =>
    cases line with
    | event e =>
      simp only [play] at h
      split at h
      · rename_i hok
        simp only [Option.bind_eq_some_iff] at h
        obtain ⟨d, hd, hrest⟩ := h
        exact ih (.snoc h₀ hok hd) hrest
      · cases h
    | go i ch n => exact ih h₀.go h

/-- A run that a script computes, to a configuration with a property that can be
evaluated. -/
theorem Run.exists_of_play {g : Label C E → Config W Q A ε J → Bool}
    {c : Config W Q A ε J} {s : List (Line C E)} {f : Config W Q A ε J → Bool}
    (h : (M.play g s c).any f = true) :
    ∃ c', Run M (fun l d => g l d = true) c c' ∧ f c' = true := by
  cases hr : M.play g s c with
  | none => simp [hr] at h
  | some c' =>
    simp only [hr, Option.any_some] at h
    exact ⟨c', .of_play .refl hr, h⟩

/-- Weakening what the steps of a run satisfy. -/
theorem Run.mono {P P' : Label C E → Config W Q A ε J → Prop}
    {c c' : Config W Q A ε J} (hPP : ∀ l d, P l d → P' l d) (h : Run M P c c') :
    Run M P' c c' := by
  induction h with
  | refl => exact .refl
  | snoc _ hP hs ih => exact .snoc ih (hPP _ _ hP) hs

end Machine

end LibreWallet.Async
