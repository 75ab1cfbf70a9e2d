import LibreWallet.Extension.Gate

/-
  Extension/Consent.lean --- the runs of the background.

  Every event keeps the invariant and calls a procedure that meets its specification, so the
  invariant holds in every state of every run, and every request that took effect was owed.
-/

set_option autoImplicit false

namespace LibreWallet.Extension

open Async Text
open Webln (Op Grants OriginGrant)

variable {O : Type} {G : O → Nat → Prop} {w : World O}

/-! ## What the events keep -/

/-- A page asks for something. -/
theorem kept_posted (h : Inv G w) (posts : List (O × Method)) :
    Kept G w { w with posts := posts ++ w.posts } :=
  ⟨⟨Nat.le_refl _, fun _ _ h => h, fun _ h => h, fun _ hx => List.mem_append_right _ hx,
    List.prefix_rfl⟩, { h with }⟩

/-- Windows are closed, and decisions arrive. -/
theorem kept_fewer (h : Inv G w) {windows : List (Prompt O)} {inFlight : List (Sent O)}
    (hwindows : windows ⊆ w.windows) (hsent : inFlight ⊆ w.inFlight) :
    Kept G w { w with windows, inFlight } :=
  ⟨⟨Nat.le_refl _, fun _ _ h => h, fun _ h => h, fun _ h => h, List.prefix_rfl⟩,
    { h with
      windows := fun p hp => h.windows p (hwindows hp)
      sent := fun d hd => h.sent d (hsent hd) }⟩

variable [DecidableEq O]

/-- The events keep the invariant, and call what meets its specification. -/
theorem admits_of_spec {e : Event O} (h : ∀ w w' called, Inv G w → event e w = some (w', called) →
      Kept G w w' ∧ ∀ j p, called = some (j, p) → Spec G j p w' fun _ _ => True) :
    ((background G).protocol (machine (O := O))).Admits e := by
  intro w w' called hinv hevent
  obtain ⟨hkept, hcalled⟩ := h w w' called hinv hevent
  refine ⟨hkept.1, ?_⟩
  cases called with
  | none => exact hkept.2
  | some jp => exact (hcalled jp.1 jp.2 rfl).called

/-- A page's request meets its specification. -/
theorem spec_received_post (h : Inv G w) {origin : O} {method : Method} {params : Params}
    (hpost : (origin, method) ∈ w.posts) {w' : World O} {called : Option (Job O × Code O Unit)}
    (hr : received contentScript (.weblnRequest origin method params) w = (w', called)) :
    w' = w ∧ ∀ j p, called = some (j, p) → Spec G j p w' fun _ _ => True := by
  cases hr
  refine ⟨rfl, fun j p hjp => ?_⟩
  cases hjp
  exact spec_answerWebln h rfl (Nat.le_refl _) hpost params

/-- A command, or a message that is refused. -/
theorem spec_received_message (h : Inv G w) {sender : Sender} {m : Message O}
    (hspeaks : m.speaks sender = true)
    (hgiven : sender.isFromExtensionContext = true → ∀ x ∈ consentOf m, x ∈ w.consents)
    {w' : World O} {called : Option (Job O × Code O Unit)} (hr : received sender m w = (w', called)) :
    w' = w ∧ ∀ j p, called = some (j, p) → Spec G j p w' fun _ _ => True := by
  cases hr
  refine ⟨rfl, fun j p hjp => ?_⟩
  obtain ⟨⟨cause, q⟩, hroute, heq⟩ := Option.map_eq_some_iff.mp hjp
  cases heq
  cases m with
  | weblnRequest origin method params =>
    have hsender : sender.fromExtension = false := by simpa [Message.speaks] using hspeaks
    unfold route at hroute
    rw [hsender] at hroute
    cases hroute
  | walletCommand command =>
    simp only [route] at hroute
    split at hroute
    · rename_i hsender
      cases hroute
      exact spec_handleCommand h rfl (hgiven hsender)
    · cases hroute
  | approvalDecision id origin approved spendingLimitSats =>
    have hsender : sender.isFromExtensionContext = false := by simpa [Message.speaks] using hspeaks
    unfold route at hroute
    rw [hsender] at hroute
    cases hroute
  | other => cases hroute

/-- A decision that an approval window sent arrives. -/
theorem spec_received_sent (h : Inv G w) {d : Sent O} (hid : ∃ l, w.asked d.id = some (d.origin, l))
    (hd : d.approved = true → (d.origin, d.spendingLimitSats) ∈ w.consents) {w' : World O}
    {called : Option (Job O × Code O Unit)}
    (hr : received ⟨true, true⟩ (.approvalDecision d.id (some d.origin) d.approved
      (numeral 10 d.spendingLimitSats)) w = (w', called)) :
    w' = w ∧ ∀ j p, called = some (j, p) → Spec G j p w' fun _ _ => True := by
  cases hr
  refine ⟨rfl, fun j p hjp => ?_⟩
  cases hjp
  obtain ⟨l, hl⟩ := hid
  refine spec_finish h hl fun happ limit hlimit => .inr ?_
  rw [Spending.eq_of_resolves hlimit]
  exact hd happ

theorem admits_post (origin : O) (post : PagePost) :
    ((background G).protocol (machine (O := O))).Admits (.post origin post) := by
  refine admits_of_spec fun w w' called h hevent => ?_
  obtain ⟨m, hrelay, hr⟩ := Option.map_eq_some_iff.mp hevent
  unfold relay at hrelay
  split at hrelay
  · cases hrelay
    have hkept := kept_posted h [(origin, post.method)]
    obtain ⟨rfl, hspec⟩ := spec_received_post hkept.2 List.mem_cons_self hr
    exact ⟨hkept, hspec⟩
  · cases hrelay

theorem admits_message (sender : Sender) (m : Message O) :
    ((background G).protocol (machine (O := O))).Admits (.message sender m) := by
  refine admits_of_spec fun w w' called h hevent => ?_
  simp only [event] at hevent
  split at hevent
  · rename_i hspeaks
    have hkept := kept_heard h (if sender.isFromExtensionContext then consentOf m else [])
    obtain ⟨rfl, hspec⟩ := spec_received_message hkept.2 hspeaks
      (fun hsender x hx => List.mem_append_left _ (by rw [if_pos hsender]; exact hx))
      (Option.some.inj hevent)
    exact ⟨hkept, hspec⟩
  · cases hevent

theorem admits_click (windowId : Nat) (approved unlimited : Bool) (cap : List Nat) :
    ((background G).protocol (machine (O := O))).Admits (.click windowId approved unlimited cap) := by
  refine admits_of_spec fun w w' called h hevent => ?_
  obtain ⟨p, hfind, hp⟩ := Option.bind_eq_some_iff.mp hevent
  have hid := h.windows p (List.mem_of_find?_eq_some hfind)
  split at hp
  · obtain ⟨limit, -, heq⟩ := Option.map_eq_some_iff.mp hp
    cases heq
    have hheard := kept_heard h [(p.origin, limit)]
    have hsent := kept_sent (d := ⟨p.id, p.origin, true, limit⟩) hheard.2 hid
      fun _ => List.mem_cons_self
    exact ⟨hheard.trans hsent, fun _ _ hjp => by cases hjp⟩
  · cases hp
    have hsent := kept_sent (d := ⟨p.id, p.origin, false, 0⟩) h hid fun happ => by cases happ
    exact ⟨hsent, fun _ _ hjp => by cases hjp⟩

theorem admits_deliver (n : Nat) :
    ((background G).protocol (machine (O := O))).Admits (.deliver n) := by
  refine admits_of_spec fun w w' called h hevent => ?_
  obtain ⟨d, hd, hr⟩ := Option.map_eq_some_iff.mp hevent
  have hmem := List.mem_of_getElem? hd
  have hkept : Kept G w { w with inFlight := w.inFlight.eraseIdx n } :=
    kept_fewer h (List.Subset.refl _) (List.eraseIdx_subset)
  obtain ⟨rfl, hspec⟩ := spec_received_sent hkept.2 (h.sent d hmem).1 (h.sent d hmem).2 hr
  exact ⟨hkept, hspec⟩

/-- What every event keeps. -/
theorem admits (G : O → Nat → Prop) (e : Event O) :
    ((background G).protocol (machine (O := O))).Admits e := by
  cases e with
  | store a =>
    refine admits_of_spec fun w w' called h hevent => ?_
    obtain ⟨w₁, hs, heq⟩ := Option.map_eq_some_iff.mp hevent
    cases heq
    exact ⟨kept_storeStep h hs, fun _ _ hjp => by cases hjp⟩
  | readGrants origin =>
    refine admits_of_spec fun w w' called h hevent => ?_
    cases hevent
    have hkept : Kept G w (begun (.getGrant origin) w) := kept_begun h fun _ _ hop => by cases hop
    exact ⟨hkept, fun _ _ hjp => by cases hjp⟩
  | post origin post => exact admits_post origin post
  | message sender m => exact admits_message sender m
  | click windowId approved unlimited cap => exact admits_click windowId approved unlimited cap
  | deliver n => exact admits_deliver n
  | close windowId =>
    refine admits_of_spec fun w w' called h hevent => ?_
    cases hevent
    have hclosed : Kept G w { w with windows := w.windows.filter (·.windowId ≠ windowId) } :=
      kept_fewer h (List.filter_subset_self _) (List.Subset.refl _)
    exact ⟨hclosed.trans (kept_onRemoved hclosed.2 windowId), fun _ _ hjp => by cases hjp⟩
  | internal name =>
    refine admits_of_spec fun w w' called h hevent => ?_
    cases hevent
    refine ⟨Discipline.Keeps.refl h, fun j p hjp => ?_⟩
    cases hjp
    exact spec_callOffscreen h fun _ _ => ⟨name, rfl⟩
  | reap =>
    refine admits_of_spec fun w w' called h hevent => ?_
    cases hevent
    exact ⟨kept_reaped h, fun _ _ hjp => by cases hjp⟩

/-! ## Runs -/

/-- A configuration of the background. -/
abbrev Config (O : Type) := Async.Config (World O) (Request O) Request.Answer Failure (Job O)

/-- The extension is loaded with what is stored. -/
def start (stored : Option (Grants O)) : Config O := ⟨initial stored, [], []⟩

omit [DecidableEq O] in
theorem inv_initial (stored : Option (Grants O)) : Inv (given stored) (initial stored) where
  store :=
    { maps := by
        intro grants hknown
        cases hknown with
        | stored hs => exact fun o g hg hen => .inl ⟨grants, g, hs, hg, hen, rfl⟩
        | heap hs => cases hs
        | written k hs => cases hs
        | got op hs => cases hs
      asked := fun c hc => by cases hc }
  unanswered := fun _ _ => rfl
  enabled := fun k o hk => by cases hk
  fresh := fun _ _ => rfl
  lives := fun _ _ _ hx => by cases hx
  pending := fun x hx => by cases hx
  single := List.nodup_nil
  waits := fun _ _ hx => by cases hx
  windows := fun _ hp => by cases hp
  sent := fun _ hd => by cases hd
  decided := fun _ _ hd => by cases hd
  replies := fun _ hr => by cases hr

variable {stored : Option (Grants O)}
  {S : Label (Option Failure) (Event O) → Config O → Prop} {c : Config O}

/-- Every run is sound, and every request that took effect was owed. -/
theorem owed (hrun : machine.Run S (start stored) c) :
    ((background (given stored)).protocol machine).Sound c ∧
      ∀ x ∈ c.trace, Owes (given stored) x.job x.entry.request x.entry.before :=
  Discipline.owed_of_run (admits (given stored)) (inv_initial stored) hrun

/-- Whatever pages, content scripts and other extensions send, and however often the worker is
reaped: a grant in force, in the map that is stored, in one that is about to be, or in one that
the store goes on with, is one that the user gave to this origin with this limit. -/
theorem grants_consented (hrun : machine.Run S (start stored) c) {grants : Grants O}
    (hknown : Known c.world.store grants) {o : O} {g : OriginGrant} (hg : grants o = some g)
    (henabled : g.enabled = true) :
    given stored o g.spendingLimitSats ∨ (o, g.spendingLimitSats) ∈ c.world.consents :=
  (owed hrun).1.inv.store.maps grants hknown o g hg henabled

/-- The wallet host is asked for a page only a WebLN method that a page of this origin asked
for, when the user has given the origin a grant; every other command comes from the pages of
the extension or from the background itself.  A page that is told that it is enabled has a
grant. -/
theorem pages_gated (hrun : machine.Run S (start stored) c) :
    (∀ x ∈ c.trace, ∀ rpc, x.entry.request = .rpc rpc →
      (∃ o m, x.job.cause = .webln o m ∧ rpc = .webln m ∧ m.reachesWallet = true ∧
          (o, m) ∈ x.entry.before.posts ∧
          ∃ limit, given stored o limit ∨ (o, limit) ∈ x.entry.before.consents) ∨
        (x.job.cause = .command ∨ x.job.cause = .internal) ∧ ∃ name, rpc = .host name) ∧
    ∀ r ∈ c.world.replies, r.ok = true → r.method = .enable →
      ∃ limit, given stored r.origin limit ∨ (r.origin, limit) ∈ c.world.consents := by
  refine ⟨fun x hx rpc hrpc => ?_, (owed hrun).1.inv.replies⟩
  have howes := (owed hrun).2 x hx
  rw [hrpc] at howes
  change Warranted (given stored) x.entry.before rpc x.job.cause at howes
  cases hcause : x.job.cause with
  | webln o m =>
    rw [hcause] at howes
    exact .inl ⟨o, m, rfl, howes⟩
  | command =>
    rw [hcause] at howes
    exact .inr ⟨.inl rfl, howes⟩
  | internal =>
    rw [hcause] at howes
    exact .inr ⟨.inr rfl, howes⟩
  | decision =>
    rw [hcause] at howes
    exact howes.elim

/-- An origin has one prompt at most, and a page that waits for a decision waits for that of a
prompt of its own origin, which is still asked or decided. -/
theorem waits_for_own_prompt (hrun : machine.Run S (start stored) c) :
    (c.world.pendingApprovals.map (·.2.origin)).Nodup ∧
      ∀ i o m id, c.awaits i = some (⟨c.world.life, .webln o m⟩, .decision id) →
        (∃ p, (id, p) ∈ c.world.pendingApprovals ∧ p.origin = o) ∨ c.world.decided id ≠ none := by
  have hsound := (owed hrun).1
  have hinv : Inv (given stored) c.world := hsound.inv
  refine ⟨hinv.single, fun i o m id hawaits => ?_⟩
  obtain ⟨k, hpool⟩ := exists_of_awaits hawaits
  -- what the call owes once its prompt is decided
  have hkept := kept_settled hinv id (d := ⟨false, 0⟩) fun happ => by cases happ
  have hexec : ∃ ch r w, (machine (O := O)).exec ⟨c.world.life, .webln o m⟩ (.decision id) ch
      (settled id ⟨false, 0⟩ c.world) = some (r, w) := by
    refine ⟨none, .ok ⟨false, 0⟩, settled id ⟨false, 0⟩ c.world, ?_⟩
    change (Function.update c.world.decided id (some ⟨false, 0⟩) id).map _ = _
    rw [Function.update_self]
    rfl
  obtain ⟨l, hle, hasked⟩ :=
    Discipline.owes_of_parked (hsound.parked i _ _ hpool) hkept hexec o m rfl
  have hasked' : c.world.asked id = some (o, l) := hasked
  have hl : l = c.world.life := Nat.le_antisymm (hinv.lives id o l hasked') hle
  rw [hl] at hasked'
  rcases hinv.waits id o hasked' with hmem | hdecided
  · obtain ⟨⟨id', p⟩, hp, rfl⟩ := List.mem_map.mp hmem
    refine .inl ⟨p, hp, ?_⟩
    have hpending := hinv.pending _ hp
    rw [hasked'] at hpending
    cases hpending
    rfl
  · exact .inr hdecided

/-! ## A payment -/

namespace Examples

abbrev Script := List (Line (Option Failure) (Event Nat))

def asks (method : Method) (amountSats : Option Nat) : Script :=
  [.event (.post 7 ⟨true, true, method, ⟨amountSats⟩⟩)]

/-- A call of the store finds the cache. -/
def finds (k : Nat) : Script := [.event (.store (.load k)), .event (.store (.resume k))]

/-- Page 7 asks to be enabled, and its approval window opens. -/
def enables : Script :=
  List.flatten [asks .enable none, [.event (.store (.load 0)), .event (.store (.read 0)),
    .event (.store (.install 0)), .event (.store (.resume 0)), .go 0 none 9]]

/-- The user approves with a limit of 100. -/
def approves : Script := [.event (.click 0 true false [49, 48, 48]), .event (.deliver 0)]

def lands (i : Nat) : Script := [.event (.store .land), .go i none 9]

/-- The page is enabled, and pays 5. -/
def pays : Script :=
  List.flatten [enables, approves, finds 1, lands 1, [.go 0 none 9], asks .sendPayment (some 5), finds 2,
    [.go 2 none 9], finds 3, lands 2]

def isPayment : Request Nat → Bool
  | .rpc rpc => rpc = .webln .sendPayment
  | _ => false

/-- The stored grant of page 7 is in force, and its payment reached the wallet host. -/
def paid (c : Config Nat) : Bool :=
  (c.world.store.stored.bind (· 7)).any (·.enabled) && c.trace.any fun x => isPayment x.entry.request

/-- The first call waits for the decision of the first prompt. -/
def waiting (c : Config Nat) : Bool :=
  match c.awaits 0 with
  | some (⟨life, .webln 7 .enable⟩, .decision 0) => life = c.world.life
  | _ => false

theorem eq_of_isPayment {q : Request Nat} (h : isPayment q = true) :
    q = .rpc (.webln .sendPayment) := by
  cases q with
  | rpc rpc => exact congrArg _ (of_decide_eq_true h)
  | store k => cases h
  | position => cases h
  | createWindow id origin => cases h
  | decision id => cases h

theorem awaits_of_waiting {c : Config Nat} (h : waiting c = true) :
    c.awaits 0 = some (⟨c.world.life, .webln 7 .enable⟩, .decision 0) := by
  unfold waiting at h
  split at h
  · rename_i life heq
    rw [heq, of_decide_eq_true h]
  · cases h

theorem exists_paid : ∃ c : Config Nat,
    machine.Run (fun _ _ => true = true) (start none) c ∧ paid c = true :=
  Machine.Run.exists_of_play (M := machine) (g := fun _ _ => true) (c := start none) (s := pays)
    (by decide +kernel)

theorem exists_waiting : ∃ c : Config Nat,
    machine.Run (fun _ _ => true = true) (start none) c ∧ waiting c = true :=
  Machine.Run.exists_of_play (M := machine) (g := fun _ _ => true) (c := start none) (s := enables)
    (by decide +kernel)

end Examples

open Examples

/-- Nothing was stored at first: the limit of page 7 is one that the user gave. -/
theorem grants_consented_run : ∃ (c : Config Nat) (g : OriginGrant), g.enabled = true ∧
    (c.world.store.stored.bind (· 7)) = some g ∧ (7, g.spendingLimitSats) ∈ c.world.consents := by
  obtain ⟨c, hrun, hpaid⟩ := exists_paid
  unfold paid at hpaid
  rw [Bool.and_eq_true] at hpaid
  obtain ⟨g, hg, henabled⟩ := (Option.any_eq_true _ _).mp hpaid.1
  obtain ⟨grants, hstored, h7⟩ := Option.bind_eq_some_iff.mp hg
  refine ⟨c, g, henabled, hg, ?_⟩
  rcases grants_consented hrun (.stored hstored) h7 henabled with ⟨_, _, hnone, _⟩ | hconsent
  · cases hnone
  · exact hconsent

/-- The payment of page 7 has a consent of the user before it. -/
theorem pages_gated_run : ∃ (c : Config Nat) (o limit : Nat),
    (∃ x ∈ c.trace, x.entry.request = .rpc (.webln .sendPayment)) ∧ (o, limit) ∈ c.world.consents := by
  obtain ⟨c, hrun, hpaid⟩ := exists_paid
  unfold paid at hpaid
  rw [Bool.and_eq_true] at hpaid
  obtain ⟨x, hx, hpayment⟩ := List.any_eq_true.mp hpaid.2
  have hrequest := eq_of_isPayment hpayment
  have hpast := (owed hrun).1.past x hx
  rcases (pages_gated hrun).1 x hx _ hrequest with ⟨o, m, -, -, -, -, limit, hc⟩ | ⟨-, name, hhost⟩
  · rcases hc with ⟨_, _, hnone, _⟩ | hconsent
    · cases hnone
    · exact ⟨c, o, limit, ⟨x, hx, hrequest⟩, hpast.consents _ hconsent⟩
  · cases hhost

/-- The first call waits, and its prompt is there. -/
theorem waits_for_own_prompt_run : ∃ c : Config Nat,
    c.awaits 0 = some (⟨c.world.life, .webln 7 .enable⟩, .decision 0) ∧
      ((∃ p, (0, p) ∈ c.world.pendingApprovals ∧ p.origin = 7) ∨ c.world.decided 0 ≠ none) := by
  obtain ⟨c, hrun, hwaiting⟩ := exists_waiting
  have hawaits := awaits_of_waiting hwaiting
  exact ⟨c, hawaits, (waits_for_own_prompt hrun).2 0 7 .enable 0 hawaits⟩

end LibreWallet.Extension
