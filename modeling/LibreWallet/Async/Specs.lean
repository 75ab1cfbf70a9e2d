import LibreWallet.Async.Logic

/-
  Async/Specs.lean --- specifications over states that only grow.

  Where every step of a machine, whoever takes it, respects one preorder on the states, a
  procedure is specified by what it finds and what it leaves: `Spec` says that it keeps the
  invariant, respects the order, owes what its requests need, and establishes a postcondition
  on its result.  The rules follow the constructors of `Proc`.

  Nothing here names a particular program.
-/

set_option autoImplicit false

namespace LibreWallet.Async

variable {W Q : Type} {A : Q → Type} {ε C J E α β : Type}

/-- A procedure that awaits a request. -/
theorem exists_of_awaits {c : Config W Q A ε J} {i : Nat} {j : J} {q : Q}
    (h : c.awaits i = some (j, q)) : ∃ k, c.pool[i]? = some (j, .await q k) := by
  unfold Config.awaits at h
  split at h
  · rename_i j' q' k hi
    cases h
    exact ⟨k, hi⟩
  · cases h

/-- An invariant, a preorder that every step respects, and what a caller's request needs. -/
structure Discipline (W Q J : Type) where
  inv : W → Prop
  grows : W → W → Prop
  owes : J → Q → W → Prop
  refl : ∀ w, grows w w
  trans : ∀ u v w, grows u v → grows v w → grows u w

namespace Discipline

variable (D : Discipline W Q J) (M : Machine W Q A ε C J E)

/-- Everyone relies on the order and respects it. -/
def protocol : Protocol M where
  inv := D.inv
  rely := D.grows
  sync := fun _ => D.grows
  oblige := fun j _ q w => D.owes j q w
  rely_refl := D.refl
  rely_trans := D.trans
  sync_refl := fun _ => D.refl
  sync_rely := fun _ _ _ h => h

/-- The state grew, and the invariant holds of it. -/
def Keeps (w w' : W) : Prop := D.grows w w' ∧ D.inv w'

/-- From state `w` the procedure keeps the invariant, owes what its requests need, and leaves
`Post` of its result. -/
def Spec (j : J) (p : Proc W Q A ε α) (w : W) (Post : Except ε α → W → Prop) : Prop :=
  ∀ h s, D.grows s w → wp ((D.protocol M).contract j) p h
    (fun _ r s' w' => D.grows s' w' ∧ D.Keeps w w' ∧ Post r w') s w

section Rules

variable {D M} {j : J} {w : W} {Post : Except ε α → W → Prop}

theorem Keeps.trans {u v w : W} (h : D.Keeps u v) (h' : D.Keeps v w) : D.Keeps u w :=
  ⟨D.trans _ _ _ h.1 h'.1, h'.2⟩

theorem Keeps.refl {w : W} (h : D.inv w) : D.Keeps w w := ⟨D.refl w, h⟩

theorem spec_done {a : α} (hi : D.inv w) (h : Post (.ok a) w) : D.Spec M j (.done a) w Post :=
  fun _ _ hs => ⟨hs, .refl hi, h⟩

theorem spec_fail {e : ε} (hi : D.inv w) (h : Post (.error e) w) : D.Spec M j (.fail e) w Post :=
  fun _ _ hs => ⟨hs, .refl hi, h⟩

/-- A weaker postcondition, and what was there before the procedure. -/
theorem Spec.mono {p : Proc W Q A ε α} {Post' : Except ε α → W → Prop} (hp : D.Spec M j p w Post)
    (h : ∀ r w', D.Keeps w w' → Post r w' → Post' r w') : D.Spec M j p w Post' :=
  fun _ _ hs => (hp _ _ hs).mono fun _ r _ w' hw => ⟨hw.1, hw.2.1, h r w' hw.2.1 hw.2.2⟩

theorem Spec.bind {p : Proc W Q A ε α} {g : α → Proc W Q A ε β} {Mid : Except ε α → W → Prop}
    {Post : Except ε β → W → Prop} (hp : D.Spec M j p w Mid)
    (hok : ∀ a w', D.Keeps w w' → Mid (.ok a) w' → D.Spec M j (g a) w' Post)
    (herr : ∀ e w', D.Keeps w w' → Mid (.error e) w' → Post (.error e) w') :
    D.Spec M j (p.bind g) w Post := by
  intro h s hs
  rw [wp_bind]
  refine (hp h s hs).mono fun h' r s' w' ⟨hsync, hkeeps, hmid⟩ => ?_
  cases r with
  | ok a =>
    refine (hok a w' hkeeps hmid h' s' hsync).mono fun _ r' _ w'' ⟨hsync', hkeeps', hpost⟩ => ?_
    exact ⟨hsync', hkeeps.trans hkeeps', hpost⟩
  | error e => exact ⟨hsync, hkeeps, herr e w' hkeeps hmid⟩

theorem Spec.rescue {p : Proc W Q A ε α} {g : ε → Proc W Q A ε α} {Mid Post : Except ε α → W → Prop}
    (hp : D.Spec M j p w Mid) (hok : ∀ a w', D.Keeps w w' → Mid (.ok a) w' → Post (.ok a) w')
    (herr : ∀ e w', D.Keeps w w' → Mid (.error e) w' → D.Spec M j (g e) w' Post) :
    D.Spec M j (p.rescue g) w Post := by
  intro h s hs
  rw [wp_rescue]
  refine (hp h s hs).mono fun h' r s' w' ⟨hsync, hkeeps, hmid⟩ => ?_
  cases r with
  | ok a => exact ⟨hsync, hkeeps, hok a w' hkeeps hmid⟩
  | error e =>
    refine (herr e w' hkeeps hmid h' s' hsync).mono fun _ r' _ w'' ⟨hsync', hkeeps', hpost⟩ => ?_
    exact ⟨hsync', hkeeps.trans hkeeps', hpost⟩

theorem Spec.attempt {p : Proc W Q A ε α} {Post : Except ε (Except ε α) → W → Prop}
    (hp : D.Spec M j p w fun r w' => Post (.ok r) w') : D.Spec M j p.attempt w Post := by
  intro h s hs
  rw [wp_attempt]
  exact hp h s hs

/-- Reading the state: the rest goes on in the same turn. -/
theorem spec_get {g : W → Proc W Q A ε α} (h : D.Spec M j (g w) w Post) :
    D.Spec M j (Proc.get.bind g) w Post := by
  intro h' s hs
  rw [wp_bind, wp_get]
  exact h h' s hs

/-- Updating the state, within the order. -/
theorem spec_modify {f : W → W} {g : Unit → Proc W Q A ε α} (hf : D.Keeps w (f w))
    (h : D.Spec M j (g ()) (f w) Post) : D.Spec M j ((Proc.modify f).bind g) w Post := by
  intro h' s hs
  rw [wp_bind, wp_modify]
  refine (h h' s (D.trans _ _ _ hs hf.1)).mono fun _ r _ w' ⟨hsync, hkeeps, hpost⟩ => ?_
  exact ⟨hsync, hf.trans hkeeps, hpost⟩

/-- The last update of a procedure. -/
theorem spec_modify_last {f : W → W} {Post : Except ε Unit → W → Prop} (hf : D.Keeps w (f w))
    (h : Post (.ok ()) (f w)) : D.Spec M j (Proc.modify f) w Post := by
  intro h' s hs
  rw [wp_modify]
  exact ⟨D.trans _ _ _ hs hf.1, hf, h⟩

/-- A request: what it needs when it takes effect, what its effect keeps, and what the answer
says from then on. -/
theorem spec_request {q : Q} {Post : Except ε (A q) → W → Prop} (hi : D.inv w)
    (h : ∀ w₁, D.Keeps w w₁ → ∀ c r w₂, M.exec j q c w₁ = some (r, w₂) →
      D.owes j q w₁ ∧ D.Keeps w₁ w₂ ∧ ∀ w₃, D.Keeps w₂ w₃ → Post r w₃) :
    D.Spec M j (.request q) w Post := by
  intro h' s hs
  rw [wp_request]
  refine ⟨hs, hi, fun w₁ hr₁ hi₁ c r w₂ _ he => ?_⟩
  obtain ⟨howes, hkeeps, hpost⟩ := h w₁ ⟨hr₁, hi₁⟩ c r w₂ he
  refine ⟨howes, hkeeps.1, hkeeps.2, fun w₃ hr₃ hi₃ => ?_⟩
  have hall : D.Keeps w w₃ := ⟨D.trans _ _ _ hr₁ (D.trans _ _ _ hkeeps.1 hr₃), hi₃⟩
  exact ⟨D.refl w₃, hall, hpost w₃ ⟨hr₃, hi₃⟩⟩

/-- A procedure that an event calls. -/
theorem Spec.called {p : Proc W Q A ε Unit} {Post : Except ε Unit → W → Prop}
    (hp : D.Spec M j p w Post) :
    wp ((D.protocol M).contract j) p [] ((D.protocol M).ends j) w w :=
  (hp [] w (D.refl w)).mono fun _ _ _ _ ⟨hsync, hkeeps, _⟩ => ⟨hsync, hkeeps.2⟩

/-- A procedure that awaits a request owes what it needs in every state, from now on, in which
the request can take effect. -/
theorem owes_of_parked {q : Q} {k : Except ε (A q) → Proc W Q A ε Unit} {h : List (Entry W Q A ε)}
    (hp : (D.protocol M).Parked j (.await q k) h w) {w' : W} (hkeeps : D.Keeps w w')
    (hexec : ∃ c r w'', M.exec j q c w' = some (r, w'')) : D.owes j q w' := by
  obtain ⟨c, r, w'', he⟩ := hexec
  have hwp := hp w' hkeeps.1 hkeeps.2
  exact (hwp.2.2 w' (D.refl w') hkeeps.2 c r w'' trivial he).1

end Rules

/-- What is owed holds of every effect of a run. -/
theorem owed_of_run {D : Discipline W Q J} {M : Machine W Q A ε C J E}
    {S : Label C E → Config W Q A ε J → Prop} (hadmits : ∀ e, (D.protocol M).Admits e) {w : W}
    (hw : D.inv w) {c : Config W Q A ε J} (hrun : M.Run S ⟨w, [], []⟩ c) :
    (D.protocol M).Sound c ∧ ∀ x ∈ c.trace, D.owes x.job x.entry.request x.entry.before := by
  refine Protocol.invariant_of_run hadmits (.initial hw)
    (I := fun c => ∀ x ∈ c.trace, D.owes x.job x.entry.request x.entry.before)
    (fun x hx => by cases hx) (fun l d d' _ _ hI _ hdid => ?_) hrun
  cases hdid with
  | call i ch j q k r _ _ _ _ howes _ htrace =>
    rw [htrace]
    intro x hx
    rcases List.mem_cons.mp hx with rfl | hold
    · exact howes
    · exact hI x hold
  | resume _ _ _ _ _ _ _ _ _ htrace => exact htrace ▸ hI
  | event _ _ _ _ htrace => exact htrace ▸ hI
  | called _ _ _ _ _ _ _ _ _ htrace => exact htrace ▸ hI

end Discipline

end LibreWallet.Async
