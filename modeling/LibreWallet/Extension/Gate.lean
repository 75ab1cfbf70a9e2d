import LibreWallet.Extension.Provenance

/-
  Extension/Gate.lean --- what the procedures of the background do, and its runs.

  Each procedure has one specification; the events call procedures that meet theirs.  From
  that every run of the extension keeps the invariant, and every request that took effect was
  owed.
-/

set_option autoImplicit false

namespace LibreWallet.Extension

open Async
open Webln (Op Grants)

variable {O : Type} [DecidableEq O] {G : O → Nat → Prop} {j : Job O} {w : World O} {o : O} {m : Method}

/-- The specification of a procedure of the background. -/
abbrev Spec {α : Type} (G : O → Nat → Prop) (j : Job O) (p : Code O α) (w : World O)
    (Post : Except Failure α → World O → Prop) : Prop :=
  (background G).Spec machine j p w Post

/-! ## Requests -/

/-- An answer that an origin is enabled means that the user gave it a limit. -/
theorem spec_callStore (h : Inv G w) {op : Op O}
    (hop : ∀ o limit, op = .grant o limit → Consented G w o limit) :
    Spec G j (callStore op) w fun r w' =>
      ∀ o, op = .isEnabled o → r = .ok true → ∃ limit, Consented G w' o limit := by
  unfold callStore
  refine Discipline.spec_get (Discipline.spec_modify (kept_begun h hop) ?_)
  refine Discipline.spec_request (kept_begun h hop).2 fun w₁ hw₁ c r w₂ he => ?_
  simp only [machine, exec] at he
  split at he
  · obtain ⟨b, hb, heq⟩ := Option.map_eq_some_iff.mp he
    cases heq
    refine ⟨trivial, Discipline.Keeps.refl hw₁.2, fun w₃ hw₃ o hop' hr => ?_⟩
    cases hr
    have hk : (begun op w).ops[w.store.calls.length]? = some op := by
      simp [World.ops, begun]
    obtain ⟨rest, hrest⟩ := hw₁.1.ops
    have hk₁ : w₁.ops[w.store.calls.length]? = some op := by
      rw [← hrest, List.getElem?_append_left (List.getElem?_eq_some_iff.mp hk).1, hk]
    rw [hop'] at hk₁
    obtain ⟨limit, hc⟩ := hw₁.2.enabled _ o hk₁ hb
    exact ⟨limit, hc.grows hw₃.1⟩
  · cases he

/-- A page waits for the decision of a prompt of its own origin, and an approval is a grant. -/
theorem spec_decisionOf (h : Inv G w) (hcause : j.cause = .webln o m) {id l : Nat}
    (hl : j.life ≤ l) (hid : w.asked id = some (o, l)) :
    Spec G j (decisionOf id) w fun r w' =>
      ∀ d, r = .ok d → d.approved = true → ∃ limit, Consented G w' o limit := by
  refine Discipline.spec_request h fun w₁ hw₁ c r w₂ he => ?_
  simp only [machine, exec] at he
  obtain ⟨d, hd, heq⟩ := Option.map_eq_some_iff.mp he
  cases heq
  have hid₁ := hw₁.1.asked id _ hid
  refine ⟨fun o' m' hc => ?_, Discipline.Keeps.refl hw₁.2, fun w₃ hw₃ d' hr happ => ?_⟩
  · rw [hcause] at hc
    cases hc
    exact ⟨l, hl, hid₁⟩
  · cases hr
    obtain ⟨o', l', limit, hid', hc⟩ := hw₁.2.decided id d hd happ
    rw [hid₁] at hid'
    cases hid'
    exact ⟨limit, hc.grows hw₃.1⟩

theorem spec_approvalPosition (h : Inv G w) :
    Spec G j approvalPosition w fun _ _ => True := by
  refine Discipline.spec_request h fun w₁ hw₁ c r w₂ he => ?_
  cases he
  exact ⟨trivial, Discipline.Keeps.refl hw₁.2, fun _ _ => trivial⟩

theorem spec_createWindow (h : Inv G w) {id : Nat} (hid : ∃ l, w.asked id = some (o, l)) :
    Spec G j (createWindow id o) w fun _ _ => True := by
  refine Discipline.spec_request h fun w₁ hw₁ c r w₂ he => ?_
  obtain ⟨l, hl⟩ := hid
  cases c with
  | none =>
    cases he
    exact ⟨trivial, kept_opened hw₁.2 ⟨l, hw₁.1.asked id _ hl⟩, fun _ _ => trivial⟩
  | some e =>
    cases he
    exact ⟨trivial, Discipline.Keeps.refl hw₁.2, fun _ _ => trivial⟩

/-- The wallet host is asked only what the call owes. -/
theorem spec_callOffscreen (h : Inv G w) {rpc : Rpc} (howes : ∀ w', Grows w w' → Owes G j (.rpc rpc) w') :
    Spec G j (callOffscreen rpc) w fun _ _ => True := by
  refine Discipline.spec_request h fun w₁ hw₁ c r w₂ he => ?_
  cases c with
  | none =>
    cases he
    exact ⟨howes w₁ hw₁.1, Discipline.Keeps.refl hw₁.2, fun _ _ => trivial⟩
  | some e =>
    cases he
    exact ⟨howes w₁ hw₁.1, Discipline.Keeps.refl hw₁.2, fun _ _ => trivial⟩

/-! ## The calls of a page -/

theorem spec_requestApproval (h : Inv G w) (hcause : j.cause = .webln o m) (hlife : j.life ≤ w.life) :
    Spec G j (requestApproval o) w fun r w' =>
      ∀ d, r = .ok d → d.approved = true → ∃ limit, Consented G w' o limit := by
  unfold requestApproval
  refine Discipline.spec_get ?_
  split
  · -- a prompt of this origin is open already
    rename_i id p hfind
    have hmem := List.mem_of_find?_eq_some hfind
    have horigin : p.origin = o := by simpa using List.find?_some hfind
    have hid := h.pending _ hmem
    rw [horigin] at hid
    exact spec_decisionOf h hcause hlife hid
  · rename_i hnone
    have hminted := kept_minted h hnone
    have hid : (minted o w).asked w.nextId = some (o, w.life) := by
      simp [minted]
    refine Discipline.spec_modify hminted ?_
    refine Discipline.Spec.bind (spec_approvalPosition hminted.2) (fun _ w₁ hw₁ _ => ?_)
      fun e _ _ _ d hd => by cases hd
    have hid₁ := hw₁.1.asked _ _ hid
    refine Discipline.Spec.bind (spec_createWindow hw₁.2 ⟨_, hid₁⟩) (fun windowId w₂ hw₂ _ => ?_)
      fun e _ _ _ d hd => by cases hd
    have hwindow := kept_withWindow hw₂.2 w.nextId windowId
    refine Discipline.spec_modify hwindow ?_
    exact spec_decisionOf hwindow.2 hcause hlife (hwindow.1.asked _ _ (hw₂.1.asked _ _ hid₁))

theorem spec_ensureEnabled (h : Inv G w) (hcause : j.cause = .webln o m) (hlife : j.life ≤ w.life) :
    Spec G j (ensureEnabled o) w fun r w' => r = .ok () → ∃ limit, Consented G w' o limit := by
  unfold ensureEnabled
  refine Discipline.Spec.bind (spec_callStore h fun _ _ hop => by cases hop)
    (fun b w₁ hw₁ hb => ?_) fun e _ _ _ hr => by cases hr
  cases b with
  | true => exact Discipline.spec_done hw₁.2 fun _ => hb o rfl rfl
  | false =>
    refine Discipline.Spec.bind (spec_requestApproval hw₁.2 hcause (hlife.trans hw₁.1.life))
      (fun d w₂ hw₂ hd => ?_) fun e _ _ _ hr => by cases hr
    split
    · rename_i happ
      exact Discipline.spec_done hw₂.2 fun _ => hd d rfl happ
    · exact Discipline.spec_fail hw₂.2 fun hr => by cases hr

omit [DecidableEq O] in
/-- What a page's call owes when it reaches the wallet host. -/
theorem owes_rpc (hcause : j.cause = .webln o m) (hm : m.reachesWallet = true)
    (hpost : (o, m) ∈ w.posts) (hc : ∃ limit, Consented G w o limit) {w' : World O}
    (hw : Grows w w') : Owes G j (.rpc (.webln m)) w' := by
  obtain ⟨limit, hc⟩ := hc
  unfold Owes
  dsimp only
  rw [hcause]
  exact ⟨rfl, hm, hw.posts _ hpost, limit, hc.grows hw⟩

theorem spec_spend (h : Inv G w) (hcause : j.cause = .webln o m) (hm : m.reachesWallet = true)
    (hpost : (o, m) ∈ w.posts) (hc : ∃ limit, Consented G w o limit) (amountSats : Nat) :
    Spec G j (spend o m amountSats) w fun _ _ => True := by
  unfold spend
  refine Discipline.Spec.bind (spec_callStore h fun _ _ hop => by cases hop)
    (fun b w₁ hw₁ _ => ?_) fun _ _ _ _ => trivial
  cases b with
  | true =>
    obtain ⟨limit, hc⟩ := hc
    have howes : ∀ w', Grows w₁ w' → Owes G j (.rpc (.webln m)) w' := fun w' hw' =>
      owes_rpc hcause hm (hw₁.1.posts _ hpost) ⟨limit, hc.grows hw₁.1⟩ hw'
    have hcall : Spec G j ((callOffscreen (.webln m)).bind fun _ => pure true) w₁ fun _ _ => True :=
      Discipline.Spec.bind (spec_callOffscreen hw₁.2 howes)
        (fun _ w₂ hw₂ _ => Discipline.spec_done hw₂.2 trivial) fun _ _ _ _ => trivial
    refine Discipline.Spec.rescue hcall (fun _ _ _ _ => trivial) fun e w₂ hw₂ _ => ?_
    split
    · exact Discipline.spec_fail hw₂.2 trivial
    · exact Discipline.Spec.bind (spec_callStore hw₂.2 fun _ _ hop => by cases hop)
        (fun _ w₃ hw₃ _ => Discipline.spec_fail hw₃.2 trivial) fun _ _ _ _ => trivial
  | false => exact Discipline.spec_fail hw₁.2 trivial

/-- A page's call of a wallet method, once the gate found its origin enabled. -/
theorem spec_walletMethod (h : Inv G w) (hcause : j.cause = .webln o m) (hm : m.reachesWallet = true)
    (hpost : (o, m) ∈ w.posts) (hc : ∃ limit, Consented G w o limit) (params : Params) :
    Spec G j (walletMethod o m params) w fun _ _ => True := by
  have hrpc : Spec G j ((callOffscreen (.webln m)).bind fun _ => pure true) w fun _ _ => True :=
    Discipline.Spec.bind (spec_callOffscreen h fun _ hw' => owes_rpc hcause hm hpost hc hw')
      (fun _ w₁ hw₁ _ => Discipline.spec_done hw₁.2 trivial) fun _ _ _ _ => trivial
  unfold walletMethod
  split
  · split
    · exact Discipline.spec_fail h trivial
    · exact spec_spend h hcause hm hpost hc _
  · split
    · exact Discipline.spec_fail h trivial
    · exact spec_spend h hcause hm hpost hc _
  · exact hrpc

theorem spec_handleWebln (h : Inv G w) (hcause : j.cause = .webln o m) (hlife : j.life ≤ w.life)
    (hpost : (o, m) ∈ w.posts) (params : Params) :
    Spec G j (handleWebln o m params) w fun r w' =>
      (∃ b, r = .ok b) → m = .enable → ∃ limit, Consented G w' o limit := by
  unfold handleWebln
  split
  · exact Discipline.spec_fail h fun ⟨_, hb⟩ => by cases hb
  · rename_i hallowed
    split
    · refine Discipline.Spec.bind (spec_ensureEnabled h hcause hlife)
        (fun _ w₁ hw₁ hc => Discipline.spec_done hw₁.2 fun _ _ => hc rfl)
        fun e _ _ _ ⟨_, hb⟩ => by cases hb
    · exact (spec_callStore h fun _ _ hop => by cases hop).mono fun _ _ _ _ _ hm => by cases hm
    · rename_i henable hisEnabled
      have hm : m.reachesWallet = true := by
        cases m with
        | enable => exact absurd rfl henable
        | isEnabled => exact absurd rfl hisEnabled
        | other name => exact absurd rfl hallowed
        | getInfo | makeInvoice | sendPayment | keysend => rfl
      refine Discipline.Spec.bind (spec_callStore h fun _ _ hop => by cases hop)
        (fun b w₁ hw₁ hb => ?_) fun e _ _ _ ⟨_, hb⟩ => by cases hb
      cases b with
      | false => exact Discipline.spec_fail hw₁.2 fun _ heq => absurd heq henable
      | true =>
        exact (spec_walletMethod hw₁.2 hcause hm (hw₁.1.posts _ hpost) (hb o rfl rfl) params).mono
          fun _ _ _ _ _ heq => absurd heq henable

theorem spec_answerWebln (h : Inv G w) (hcause : j.cause = .webln o m) (hlife : j.life ≤ w.life)
    (hpost : (o, m) ∈ w.posts) (params : Params) :
    Spec G j (answerWebln o m params) w fun _ _ => True := by
  have hattempt : Spec G j (handleWebln o m params).attempt w fun r w' =>
      ∀ x, r = .ok x → (∃ b, x = .ok b) → m = .enable → ∃ limit, Consented G w' o limit := by
    refine Discipline.Spec.attempt ((spec_handleWebln h hcause hlife hpost params).mono ?_)
    intro r w' _ hr x hx
    cases hx
    exact hr
  unfold answerWebln
  refine Discipline.Spec.bind hattempt (fun r w₁ hw₁ hr => ?_) fun _ _ _ _ => trivial
  refine Discipline.spec_modify_last (kept_replied hw₁.2 _ fun hok hm => ?_) trivial
  cases r with
  | ok b => exact hr _ rfl ⟨b, rfl⟩ hm
  | error e => cases hok

/-! ## Decisions and commands -/

omit [DecidableEq O] in
/-- A prompt that is pending was made for the origin that its window names. -/
theorem resolveGrantOrigin_eq (h : Inv G w) {id : Nat} {origin : O} {l : Nat}
    (hid : w.asked id = some (origin, l)) :
    resolveGrantOrigin (w.pendingOrigin id) (some origin) = some origin := by
  unfold resolveGrantOrigin
  cases hpending : w.pendingOrigin id with
  | none => rfl
  | some target =>
    obtain ⟨x, hfind, rfl⟩ := Option.map_eq_some_iff.mp hpending
    have hkey : x.1 = id := by simpa using List.find?_some hfind
    have hasked := h.pending x (List.mem_of_find?_eq_some hfind)
    rw [hkey, hid] at hasked
    cases hasked
    rfl

/-- The prompt's promise is resolved if the prompt is still there. -/
theorem spec_settle (h : Inv G w) {id : Nat} {d : Decision}
    (hd : d.approved = true → ∃ o l limit, w.asked id = some (o, l) ∧ Consented G w o limit) :
    Spec G j (.modify fun w => if (w.pendingOrigin id).isSome then settled id d w else w) w
      fun _ _ => True := by
  refine Discipline.spec_modify_last ?_ trivial
  split
  · exact kept_settled h id hd
  · exact Discipline.Keeps.refl h

/-- A decision that an approval window sent: the origin is its prompt's, and what it approves
the user gave. -/
theorem spec_finish (h : Inv G w) {id : Nat} {origin : O} {l : Nat}
    (hid : w.asked id = some (origin, l)) {approved : Bool} {spendingLimitSats : List Nat}
    (hgiven : approved = true → ∀ limit, Spending.resolveGrantLimitSats spendingLimitSats = some limit →
      Consented G w origin limit) :
    Spec G j (finish id (some origin) approved spendingLimitSats) w fun _ _ => True := by
  unfold finish
  refine Discipline.spec_get ?_
  rw [resolveGrantOrigin_eq h hid]
  cases hlimit : (if approved then Spending.resolveGrantLimitSats spendingLimitSats else none) with
  | none => exact spec_settle h fun happ => by cases happ
  | some limit =>
    have hc : Consented G w origin limit := by
      cases approved with
      | true => exact hgiven rfl limit hlimit
      | false => cases hlimit
    refine Discipline.Spec.bind (spec_callStore h fun o n hop => ?_) (fun _ w₁ hw₁ _ => ?_)
      fun _ _ _ _ => trivial
    · cases hop
      exact hc
    · exact spec_settle hw₁.2 fun _ =>
        ⟨origin, l, limit, hw₁.1.asked _ _ hid, hc.grows hw₁.1⟩

theorem spec_handleCommand (h : Inv G w) (hcause : j.cause = .command) {command : Command O}
    (hgiven : ∀ x ∈ consentOf (.walletCommand command), x ∈ w.consents) :
    Spec G j (handleCommand command) w fun _ _ => True := by
  have hhost : ∀ name w', Owes G j (.rpc (.host name)) w' := fun name w' => by
    unfold Owes
    dsimp only
    rw [hcause]
    exact ⟨name, rfl⟩
  cases command with
  | listGrants => exact Discipline.spec_done h trivial
  | revokeGrant origin =>
    exact Discipline.Spec.bind (spec_callStore h fun _ _ hop => by cases hop)
      (fun _ w₁ hw₁ _ => Discipline.spec_done hw₁.2 trivial) fun _ _ _ _ => trivial
  | setGrantLimit origin spendingLimitSats =>
    unfold handleCommand
    dsimp only
    split
    · exact Discipline.spec_fail h trivial
    · rename_i limit hlimit
      have hc : (origin, limit) ∈ w.consents := hgiven _ (by simp [consentOf, hlimit])
      refine Discipline.Spec.bind (spec_callStore h fun o n hop => ?_)
        (fun _ w₁ hw₁ _ => Discipline.spec_done hw₁.2 trivial) fun _ _ _ _ => trivial
      cases hop
      exact .inr hc
  | driveBackupNow =>
    exact Discipline.Spec.bind (spec_callOffscreen h fun w' _ => hhost _ w')
      (fun _ w₁ hw₁ _ => spec_callOffscreen hw₁.2 fun w' _ => hhost _ w') fun _ _ _ _ => trivial
  | driveRestore => exact spec_callOffscreen h fun w' _ => hhost _ w'
  | setting name => exact Discipline.spec_done h trivial
  | host name => exact spec_callOffscreen h fun w' _ => hhost _ w'

end LibreWallet.Extension
