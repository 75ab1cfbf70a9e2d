import LibreWallet.Async.Logic
import LibreWallet.Async.Stages

/-
  Async/Frames.lean --- code that changes no more than a relation allows.

  `Frames R F N p`: whatever the others do and however its requests are answered, `p` moves
  the state within the preorder `F`, and the requests that it adds to its history all meet
  `N`.  The contracts are those of a procedure that nothing is asked of (`Contract.Free`).

  Nothing here names a particular program.
-/

set_option autoImplicit false

namespace LibreWallet.Async

variable {W Q : Type} {A : Q → Type} {ε C α β : Type}

/-- A contract that says how the others move and how requests are answered, and asks for
nothing. -/
structure Contract.Free (R : Contract W Q A ε C) : Prop where
  inv : ∀ w, R.inv w
  sync : ∀ s w, R.sync s w
  guar : ∀ v w, R.guar v w
  oblige : ∀ h q w, R.oblige h q w

/-- The contract of a procedure among others that move by `rely`, its requests answered within
`allow`. -/
def among (exec : (q : Q) → C → W → Option (Except ε (A q) × W)) (rely : W → W → Prop)
    (allow : List (Entry W Q A ε) → Q → C → W → Prop) : Contract W Q A ε C where
  exec := exec
  inv := fun _ => True
  rely := rely
  sync := fun _ _ => True
  guar := fun _ _ => True
  allow := allow
  oblige := fun _ _ _ => True

theorem among_free (exec : (q : Q) → C → W → Option (Except ε (A q) × W)) (rely : W → W → Prop)
    (allow : List (Entry W Q A ε) → Q → C → W → Prop) : (among exec rely allow).Free where
  inv := fun _ => trivial
  sync := fun _ _ => trivial
  guar := fun _ _ => trivial
  oblige := fun _ _ _ => trivial

/-- A preorder that holds the moves of the others. -/
structure Framing (R : Contract W Q A ε C) (F : W → W → Prop) : Prop where
  free : R.Free
  refl : ∀ w, F w w
  trans : ∀ {u v w}, F u v → F v w → F u w
  rely : ∀ v w, R.rely v w → F v w

/-- One history goes on to another with requests that meet `N`. -/
def Adds (N : Entry W Q A ε → Prop) (h h' : List (Entry W Q A ε)) : Prop :=
  ∃ new, h' = new ++ h ∧ ∀ e ∈ new, N e

def Frames (R : Contract W Q A ε C) (F : W → W → Prop) (N : Entry W Q A ε → Prop)
    (p : Proc W Q A ε α) : Prop :=
  ∀ h s w (Post : PostCond W Q A ε α),
    (∀ h' r s' w', F w w' → Adds N h h' → Post h' r s' w') → wp R p h Post s w

section

variable {R : Contract W Q A ε C} {F : W → W → Prop} {N : Entry W Q A ε → Prop}
  {h h' h'' : List (Entry W Q A ε)} {s w : W}

theorem Adds.refl (h : List (Entry W Q A ε)) : Adds N h h :=
  ⟨[], rfl, fun _ he => by cases he⟩

theorem Adds.trans (h₁ : Adds N h h') (h₂ : Adds N h' h'') : Adds N h h'' := by
  obtain ⟨new₁, rfl, hn₁⟩ := h₁
  obtain ⟨new₂, rfl, hn₂⟩ := h₂
  refine ⟨new₂ ++ new₁, by rw [List.append_assoc], fun e he => ?_⟩
  rcases List.mem_append.mp he with he | he
  · exact hn₂ e he
  · exact hn₁ e he

theorem Adds.cons (hg : Adds N h h') {e : Entry W Q A ε} (he : N e) : Adds N h (e :: h') := by
  obtain ⟨new, rfl, hn⟩ := hg
  refine ⟨e :: new, rfl, fun x hx => ?_⟩
  rcases List.mem_cons.mp hx with rfl | hx
  · exact he
  · exact hn x hx

theorem Adds.mono {N' : Entry W Q A ε → Prop} (hg : Adds N h h') (hN : ∀ e, N e → N' e) :
    Adds N' h h' := by
  obtain ⟨new, rfl, hn⟩ := hg
  exact ⟨new, rfl, fun e he => hN e (hn e he)⟩

theorem Adds.mem (hg : Adds N h h') {e : Entry W Q A ε} (he : e ∈ h') : e ∈ h ∨ N e := by
  obtain ⟨new, rfl, hn⟩ := hg
  rcases List.mem_append.mp he with he | he
  · exact .inr (hn e he)
  · exact .inl he

theorem Adds.subset (hg : Adds N h h') : h ⊆ h' := by
  obtain ⟨new, rfl, -⟩ := hg
  exact List.subset_append_right _ _

/-- A request of a procedure that nothing is asked of. -/
theorem Contract.Free.wp_request (hR : R.Free) {q : Q} {Post : PostCond W Q A ε (A q)}
    (hk : ∀ c r w₁ w₂ w₃, R.rely w w₁ → R.allow h q c w₁ → R.exec q c w₁ = some (r, w₂) →
      R.rely w₂ w₃ → Post (⟨q, r, w₁⟩ :: h) r w₃ w₃) :
    wp R (.request q) h Post s w := by
  rw [Async.wp_request]
  refine ⟨hR.sync _ _, hR.inv _, fun w₁ h₁ _ c r w₂ ha he => ?_⟩
  exact ⟨hR.oblige _ _ _, hR.guar _ _, hR.inv _, fun w₃ h₃ _ => hk c r w₁ w₂ w₃ h₁ ha he h₃⟩

/-- What code does that keeps within a frame, once it has run. -/
theorem Frames.of_solo (hR : R.Free) {p : Proc W Q A ε α} (hp : Frames R F N p) {r : Except ε α} {w' : W}
    (run : Solo R p h w h' r w') : F w w' ∧ Adds N h h' := by
  obtain ⟨s', hend⟩ := run.sound (fun _ w _ _ => hR.inv w)
    (hp h w w (fun h' _ _ w' => F w w' ∧ Adds N h h') fun _ _ _ _ hf hn => ⟨hf, hn⟩)
  exact hend

namespace Framing

theorem done (hF : Framing R F) (a : α) : Frames R F N (.done a) :=
  fun h _ w _ hk => hk _ _ _ _ (hF.refl w) (Adds.refl h)

theorem fail (hF : Framing R F) (e : ε) : Frames R F N (.fail e : Proc W Q A ε α) :=
  fun h _ w _ hk => hk _ _ _ _ (hF.refl w) (Adds.refl h)

theorem get (hF : Framing R F) : Frames R F N .get :=
  fun h _ w _ hk => hk _ _ _ _ (hF.refl w) (Adds.refl h)

theorem modify {f : W → W} (hf : ∀ w, F w (f w)) : Frames R F N (.modify f) :=
  fun h _ w _ hk => hk _ _ _ _ (hf w) (Adds.refl h)

theorem bind (hF : Framing R F) {p : Proc W Q A ε α} {g : α → Proc W Q A ε β}
    (hp : Frames R F N p) (hg : ∀ a, Frames R F N (g a)) : Frames R F N (p.bind g) := by
  intro h s w Post hk
  rw [wp_bind]
  refine hp h s w _ fun h' r s' w' hf hn => ?_
  cases r with
  | ok a =>
    exact hg a h' s' w' Post fun h'' r s'' w'' hf' hn' => hk h'' r s'' w'' (hF.trans hf hf') (hn.trans hn')
  | error e => exact hk h' _ s' w' hf hn

theorem rescue (hF : Framing R F) {p : Proc W Q A ε α} {g : ε → Proc W Q A ε α}
    (hp : Frames R F N p) (hg : ∀ e, Frames R F N (g e)) : Frames R F N (p.rescue g) := by
  intro h s w Post hk
  rw [wp_rescue]
  refine hp h s w _ fun h' r s' w' hf hn => ?_
  cases r with
  | ok a => exact hk h' _ s' w' hf hn
  | error e =>
    exact hg e h' s' w' Post fun h'' r s'' w'' hf' hn' => hk h'' r s'' w'' (hF.trans hf hf') (hn.trans hn')

theorem attempt {p : Proc W Q A ε α} (hp : Frames R F N p) : Frames R F N p.attempt := by
  intro h s w Post hk
  rw [wp_attempt]
  exact hp h s w _ fun h' r s' w' hf hn => hk h' (.ok r) s' w' hf hn

/-- A request whose effect stays within the frame. -/
theorem request (hF : Framing R F) {q : Q}
    (hq : ∀ h c r w w', R.allow h q c w → R.exec q c w = some (r, w') → F w w' ∧ N ⟨q, r, w⟩) :
    Frames R F N (.request q) := by
  intro h s w Post hk
  refine hF.free.wp_request fun c r w₁ w₂ w₃ h₁ ha he h₃ => ?_
  obtain ⟨hf, hn⟩ := hq h c r w₁ w₂ ha he
  exact hk _ _ _ _ (hF.trans (hF.trans (hF.rely _ _ h₁) hf) (hF.rely _ _ h₃)) ((Adds.refl h).cons hn)

theorem closed (hF : Framing R F) : Closed (fun α (p : Proc W Q A ε α) => Frames R F N p) where
  done := hF.done
  fail := hF.fail
  get := hF.get
  bind := hF.bind
  rescue := hF.rescue
  attempt := attempt

end Framing

end

end LibreWallet.Async
