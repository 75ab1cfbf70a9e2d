/-
  Async/System.lean --- runs of a step function.

  A system that takes one action after another: the actions are the calls, events and
  answers that its environment chooses, and `step` is what each does, or `none` where it
  cannot happen.  `Steps` are its runs whose actions all meet a condition on the state
  they find.

  Nothing here names a particular program.
-/

set_option autoImplicit false

namespace LibreWallet.Async

variable {S A : Type}

/-- A run from `s` every action of which meets `P` in the state it finds. -/
inductive Steps (step : A → S → Option S) (P : A → S → Prop) (s : S) : S → Prop where
  | refl : Steps step P s s
  | snoc {s' s'' : S} {a : A} : Steps step P s s' → P a s' → step a s' = some s'' →
      Steps step P s s''

/-- The actions of a list, one after another, each of which must pass the check. -/
def play (step : A → S → Option S) (ok : A → S → Bool) : List A → S → Option S
  | [], s => some s
  | a :: as, s => if ok a s then (step a s).bind (play step ok as) else none

namespace Steps

variable {step : A → S → Option S} {P P' : A → S → Prop} {s s' s'' : S}

/-- What holds at first and is kept by every step holds in every state of a run. -/
theorem invariant {I : S → Prop} (h₀ : I s)
    (hstep : ∀ a t t', I t → P a t → step a t = some t' → I t') (hrun : Steps step P s s') :
    I s' := by
  induction hrun with
  | refl => exact h₀
  | snoc _ hP hs ih => exact hstep _ _ _ ih hP hs

theorem mono (hPP : ∀ a t, P a t → P' a t) (hrun : Steps step P s s') : Steps step P' s s' := by
  induction hrun with
  | refl => exact .refl
  | snoc _ hP hs ih => exact .snoc ih (hPP _ _ hP) hs

theorem trans (h : Steps step P s s') (h' : Steps step P s' s'') : Steps step P s s'' := by
  induction h' with
  | refl => exact h
  | snoc _ hP hs ih => exact .snoc ih hP hs

/-- A list that plays to its end is a run. -/
theorem of_play {ok : A → S → Bool} {as : List A} (h : play step ok as s = some s') :
    Steps step (fun a t => ok a t = true) s s' := by
  suffices H : ∀ {t}, Steps step (fun a t => ok a t = true) s t → play step ok as t = some s' →
      Steps step (fun a t => ok a t = true) s s' from H .refl h
  intro t ht hplay
  clear h
  induction as generalizing t with
  | nil =>
    simp only [play, Option.some.injEq] at hplay
    exact hplay ▸ ht
  | cons a as ih =>
    simp only [play] at hplay
    split at hplay
    · rename_i hok
      simp only [Option.bind_eq_some_iff] at hplay
      obtain ⟨t', hs, hrest⟩ := hplay
      exact ih (.snoc ht hok hs) hrest
    · cases hplay

/-- A run that a list of actions computes, to a state with a property that can be
evaluated. -/
theorem exists_of_play (step : A → S → Option S) (ok : A → S → Bool) (s : S) (as : List A)
    (f : S → Bool) (h : (play step ok as s).any f = true) :
    ∃ s', Steps step (fun a t => ok a t = true) s s' ∧ f s' = true := by
  cases hp : play step ok as s with
  | none =>
    rw [hp] at h
    cases h
  | some s' =>
    rw [hp] at h
    exact ⟨s', of_play hp, h⟩

end Steps

/-! ## A bounded queue -/

/-- Remember one more of the last `n`: the oldest is forgotten. -/
def remember {α : Type} (n : Nat) (queue : List α) (x : α) : List α :=
  if n < (queue ++ [x]).length then (queue ++ [x]).tail else queue ++ [x]

/-- The queue holds the last `n`, oldest first. -/
theorem remember_take {α : Type} {n : Nat} (hn : 0 < n) (log : List α) (x : α) :
    remember n (log.take n).reverse x = ((x :: log).take n).reverse := by
  obtain ⟨m, rfl⟩ : ∃ m, n = m + 1 := ⟨n - 1, by omega⟩
  rw [remember, List.take_succ_cons, List.reverse_cons]
  split
  · rename_i hlt
    simp only [List.length_append, List.length_reverse, List.length_take, List.length_singleton] at hlt
    have hlen : m < log.length := by omega
    rw [List.take_succ_eq_append_getElem hlen, List.reverse_append]
    rfl
  · rename_i hle
    simp only [List.length_append, List.length_reverse, List.length_take, List.length_singleton] at hle
    rw [List.take_of_length_le (by omega), List.take_of_length_le (by omega)]

end LibreWallet.Async
