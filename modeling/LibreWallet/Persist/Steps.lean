import LibreWallet.Persist.Invariants

/-
  Persist/Steps.lean --- every event and every request of the node.
-/

set_option autoImplicit false

namespace LibreWallet.Persist

open Async

variable {χ M : Type} {v w w' : Node χ M}

/-! ## Events -/

/-- After a write of the cache the value is issued and its key is among the keys. -/
theorem write_issued (w : Node χ M) (hp : w.persistenceHealthy = true) (name : String)
    (v : Value χ M) :
    name ∈ (w.write name v).keys ∧ ∃ x ∈ (w.write name v).issued,
      x.Tracked w.session w.issued.length (w.write name v).issued.length ∧
      x.key = .kv name ∧ x.value = some v := by
  simp only [Node.write, hp, if_true]
  split
  · rename_i hin
    refine ⟨hin, _, List.mem_cons_self, ⟨rfl, rfl, Nat.le_refl _, ?_⟩, rfl, rfl⟩
    simp [Node.issue]
  · refine ⟨?_, _, List.mem_cons_self, ⟨rfl, rfl, ?_, ?_⟩, rfl, rfl⟩
    · simp [Node.issue, Node.persistIndex]
    · simp [Node.issue, Node.persistIndex]
    · simp [Node.issue, Node.persistIndex]

/-- What the calls of a callback issued. -/
theorem recorded_of_callAll (hi : Inv w) (hp : w.persistenceHealthy = true)
    (calls : List (KvCall χ M)) {name : String} {v : Value χ M}
    (hc : KvCall.write name v ∈ calls) :
    (∃ x ∈ (w.callAll calls).issued,
      x.Tracked w.session w.issued.length (w.callAll calls).issued.length ∧
      x.key = .kv name ∧ x.value = some v) ∧
    (Listed ((w.callAll calls).issued.filter fun x =>
      x.tracked && decide (x.session = w.session)) name ∨ Listed (w.callAll calls).committed name) := by
  induction calls generalizing w with
  | nil => cases hc
  | cons c calls ih =>
    obtain ⟨hs, hi'⟩ := call_respects hi c
    obtain ⟨hs', -⟩ := callAll_respects hi' calls
    rcases List.mem_cons.mp hc with rfl | hc
    · obtain ⟨hkey, x, hx, ht, hrest⟩ := write_issued w hp name v
      have hlen : (w.write name v).issued.length ≤
          ((w.write name v).callAll calls).issued.length := hs'.issued.length_le
      refine ⟨⟨x, hs'.issued.subset hx, { ht with last := Nat.lt_of_lt_of_le ht.last hlen },
        hrest⟩, ?_⟩
      have hses : (w.write name v).session = w.session := hs.frame.session
      refine (hi'.keys name hkey).imp (fun hl => ?_) fun hl => ?_
      · simp only [Node.call, hses] at hl
        exact hl.mono (hs'.issued.sublist.filter _).subset
      · exact hl.mono (hs'.frame.committed ▸ List.Subset.refl _)
    · obtain ⟨⟨x, hx, ht, hrest⟩, hl⟩ := ih hi' (by rw [hs.frame.healthy]; exact hp) hc
      refine ⟨⟨x, hx, { ht with session := ?_, first := ?_ }, hrest⟩, ?_⟩
      · exact ht.session.trans hs.frame.session
      · exact Nat.le_trans hs.issued.length_le ht.first
      · rwa [hs.frame.session] at hl

/-- The handed updates of a state with another one on top. -/
theorem handOver_respects (hi : Inv w) (channel : χ) (updateId : Nat)
    (calls : List (KvCall χ M)) :
    Evolves w (handOver w (handedOf w channel updateId calls)) ∧
      Inv (handOver w (handedOf w channel updateId calls)) := by
  obtain ⟨hs, hi'⟩ := callAll_respects hi calls
  refine ⟨{ hs.evolves hi with handed := List.suffix_cons _ _ }, { hi' with
    handed := fun h hh => ?_, acked := hi'.acked }⟩
  rcases List.mem_cons.mp hh with rfl | hh
  · refine ⟨hi.alive, Nat.le_of_eq hs.frame.session.symm, Nat.le_refl _, fun _ hp name v hv => ?_⟩
    have hp' : w.persistenceHealthy = true := hs.frame.healthy ▸ hp
    obtain ⟨hx, hl⟩ := recorded_of_callAll hi hp' calls hv
    refine ⟨hx, hl.imp_left fun ⟨z, hz, hrest⟩ => ⟨z, ?_, hrest⟩⟩
    simp only [List.mem_filter, Bool.and_eq_true, decide_eq_true_eq] at hz ⊢
    exact ⟨hz.1, hz.2, hi'.serial_lt hz.1⟩
  · exact hi'.handed h (hs.frame.handed ▸ hh)

theorem settle_respects (hi : Inv w) {serial : Nat} {ok : Bool}
    (hw : w.settle serial ok = some w') : Evolves w w' ∧ Inv w' := by
  simp only [Node.settle, Option.map_eq_some_iff] at hw
  obtain ⟨x, hfind, rfl⟩ := hw
  have hxq : x ∈ w.queue := List.mem_of_find?_eq_some hfind
  have hxs : x.serial = serial := by simpa using List.find?_some hfind
  obtain ⟨hxi, hxses, hxc, hxr⟩ := hi.queue x hxq
  have hmem : ∀ y, y ∈ w.queue.filter (fun y => decide (y.serial ≠ serial)) ↔
      y ∈ w.queue ∧ y ≠ x := by
    intro y
    simp only [List.mem_filter, decide_eq_true_eq]
    refine and_congr_right fun hy => not_congr ⟨fun h => ?_, fun h => h ▸ hxs⟩
    exact hi.eq_of_serial (hi.queue y hy).1 hxi (h.trans hxs.symm)
  have hcom : ∀ y, y ∈ (if ok then x :: w.committed else w.committed) ↔
      y ∈ w.committed ∨ (ok = true ∧ y = x) := by
    intro y
    cases ok <;> simp [or_comm]
  have hrej : ∀ y, y ∈ (if ok then w.rejected else x :: w.rejected) ↔
      y ∈ w.rejected ∨ (ok = false ∧ y = x) := by
    intro y
    cases ok <;> simp [or_comm]
  have hgrow : w.committed ⊆ if ok then x :: w.committed else w.committed := fun y hy =>
    (hcom y).mpr (.inl hy)
  refine ⟨{ Evolves.refl w with committed := ?_, rejected := ?_, queue := ?_ }, { hi with
    queue := ?_, committed := ?_, rejected := ?_, outcome := ?_, pending := ?_, health := ?_
    keys := ?_, handed := ?_, acked := ?_ }⟩
  · cases ok
    · exact List.suffix_rfl
    · exact List.suffix_cons _ _
  · cases ok
    · exact List.suffix_cons _ _
    · exact List.suffix_rfl
  · exact fun y _ hy => ((hmem y).mp hy).1
  · intro y hy
    obtain ⟨hyq, hne⟩ := (hmem y).mp hy
    obtain ⟨h₁, h₂, h₃, h₄⟩ := hi.queue y hyq
    refine ⟨h₁, h₂, fun hc => ?_, fun hr => ?_⟩
    · exact ((hcom y).mp hc).elim h₃ fun h => hne h.2
    · exact ((hrej y).mp hr).elim h₄ fun h => hne h.2
  · intro y hy
    rcases (hcom y).mp hy with hy | ⟨-, rfl⟩
    · exact hi.committed y hy
    · exact .inl hxi
  · intro y hy
    rcases (hrej y).mp hy with hold | ⟨hok, rfl⟩
    · refine ⟨(hi.rejected y hold).1, fun hc => ?_⟩
      rcases (hcom y).mp hc with hc | ⟨-, rfl⟩
      · exact (hi.rejected y hold).2 hc
      · exact hxr hold
    · refine ⟨hxi, fun hc => ?_⟩
      rcases (hcom y).mp hc with hc | ⟨hok', -⟩
      · exact hxc hc
      · rw [hok] at hok'
        cases hok'
  · intro y hy hs
    rcases hi.outcome y hy hs with h | h | h
    · by_cases hyx : y = x
      · subst hyx
        cases ok
        · exact .inr (.inr List.mem_cons_self)
        · exact .inr (.inl List.mem_cons_self)
      · exact .inl ((hmem y).mpr ⟨h, hyx⟩)
    · exact .inr (.inl ((hcom y).mpr (.inl h)))
    · exact .inr (.inr ((hrej y).mpr (.inl h)))
  · exact fun y hy => hi.pending y ((hmem y).mp hy).1
  · intro y hy ht hs
    rcases (hrej y).mp hy with hy | ⟨-, rfl⟩
    · exact hi.health y hy ht hs
    · exact .inl (hi.pending y hxq ht)
  · exact fun name hn => (hi.keys name hn).imp_right fun hl => hl.mono hgrow
  · intro h hh
    obtain ⟨h₁, h₂, h₃, h₄⟩ := hi.handed h hh
    refine ⟨h₁, h₂, h₃, fun hs hp name v hv => ?_⟩
    exact (h₄ hs hp name v hv).imp id fun hl => hl.imp_right fun hl => hl.mono hgrow
  · intro h hh
    have ha := hi.acked h hh
    exact
      { bound := ha.bound
        settled := fun y hy ht hs hlt => hgrow (ha.settled y hy ht hs hlt)
        values := fun name v hv => by
          obtain ⟨⟨y, hy, hrest⟩, hl⟩ := ha.values name v hv
          exact ⟨⟨y, hgrow hy, hrest⟩, hl.mono hgrow⟩
        manager := fun hm => by
          obtain ⟨y, hy, hrest⟩ := ha.manager hm
          exact ⟨y, hgrow hy, hrest⟩ }

theorem react_respects (hi : Inv w) {serial : Nat} (hw : w.react serial = some w') :
    Evolves w w' ∧ Inv w' := by
  simp only [Node.react] at hw
  split at hw
  · rename_i hcond
    cases hw
    refine ⟨{ Evolves.refl w with healthy := fun _ h => (Bool.and_eq_true _ _ ▸ h).1 }, { hi with
      pending := fun x hx ht => ?_, health := fun x hx ht hs => ?_, handed := fun h hh => ?_ }⟩
    · simp only [List.mem_filter, decide_eq_true_eq]
      exact ⟨hi.pending x hx ht, hcond.2 x hx⟩
    · by_cases hxs : x.serial = serial
      · refine .inr ?_
        have hany : (w.rejected.any fun y => decide (y.serial = serial)) = true :=
          List.any_eq_true.mpr ⟨x, hx, decide_eq_true hxs⟩
        simp [hany]
      · refine (hi.health x hx ht hs).imp (fun hp => ?_) fun hp => by simp [hp]
        simp only [List.mem_filter, decide_eq_true_eq]
        exact ⟨hp, hxs⟩
    · obtain ⟨h₁, h₂, h₃, h₄⟩ := hi.handed h hh
      exact ⟨h₁, h₂, h₃, fun hs hp => h₄ hs (Bool.and_eq_true _ _ ▸ hp).1⟩
  · cases hw

theorem crash_respects (hi : Inv w) : Evolves w w.crash ∧ Inv w.crash := by
  have hlt : w.session < w.crash.session := Nat.lt_succ_self _
  have hne : ∀ {s : Nat}, s ≤ w.session → s ≠ w.crash.session := fun h heq => by omega
  refine ⟨{ Evolves.refl w with
      session := Nat.le_of_lt hlt
      queue := fun x _ hx => by cases hx
      healthy := fun h => absurd h.symm (hne (Nat.le_refl _))
      running := fun h => absurd h.symm (hne (Nat.le_refl _))
      stopped := fun h => absurd h.symm (hne (Nat.le_refl _)) },
    { hi with
      alive := Nat.succ_pos _
      session := fun x hx => ⟨(hi.session x hx).1, Nat.le_of_lt (Nat.lt_of_le_of_lt (hi.session x hx).2 hlt)⟩
      queue := fun x hx => by cases hx
      outcome := fun x hx h => absurd h (hne (hi.session x hx).2)
      pending := fun x hx => by cases hx
      health := fun x hx _ h => absurd h (hne (hi.session x (hi.rejected x hx).1).2)
      keys := fun name hn => by cases hn
      handed := fun h hh => ?_ }⟩
  obtain ⟨h₁, h₂, h₃, -⟩ := hi.handed h hh
  exact ⟨h₁, Nat.le_of_lt (Nat.lt_of_le_of_lt h₂ hlt), h₃, fun hs => absurd hs (hne h₂)⟩

theorem load_respects (hi : Inv w) (hd : w.phase = .down) : Evolves w w.load ∧ Inv w.load := by
  refine ⟨{ Evolves.refl w with
      running := fun _ h => by rw [hd] at h; cases h
      stopped := fun _ h => by rw [hd] at h; cases h }, { hi with keys := fun name hn => .inr ?_ }⟩
  change name ∈ parseIndex (stored w.committed .ldkKeysIndex) at hn
  cases hs : stored w.committed .ldkKeysIndex with
  | none => simp [hs, parseIndex] at hn
  | some v =>
    obtain ⟨x, hx, hk, hv, -⟩ := mem_of_stored hs
    cases v with
    | index ks => exact ⟨x, hx, hk, ks, hv, by simpa [hs, parseIndex] using hn⟩
    | _ => simp [hs, parseIndex] at hn

theorem ensureSeed_respects (hi : Inv w) (seedHex : String) :
    Evolves w (w.ensureSeed seedHex) ∧ Inv (w.ensureSeed seedHex) := by
  simp only [Node.ensureSeed]
  split
  · exact ⟨.refl w, hi⟩
  · obtain ⟨hs, hi'⟩ := issue_respects hi false .ldkSeed (some (.text seedHex))
    exact ⟨hs.evolves hi, hi'⟩

theorem notifyStateChanged_respects (hi : Inv w) :
    Evolves w w.notifyStateChanged ∧ Inv w.notifyStateChanged := by
  have hi' : Inv ({ w with stateVersion := w.stateVersion + 1 } : Node χ M) := { hi with }
  obtain ⟨hs, hi''⟩ := issue_respects hi' false .stateVersion (some (.version (w.stateVersion + 1)))
  exact ⟨{ hs.evolves hi' with }, hi''⟩

theorem eventTick_respects (hi : Inv w) (m : M) : Evolves w (w.eventTick m) ∧ Inv (w.eventTick m) := by
  obtain ⟨hs, hi'⟩ := issue_respects hi false .channelManager (some (.manager m))
  obtain ⟨hev, hi''⟩ := notifyStateChanged_respects hi'
  exact ⟨(hs.evolves hi).trans _ _ _ hev, hi''⟩

end LibreWallet.Persist
