import LibreWallet.Async.Specs
import LibreWallet.Extension.Background

/-
  Extension/Provenance.lean --- no page reaches the wallet without the user.

  Whatever pages, content scripts and other extensions send, and however often the worker is
  reaped: a grant in force is one that the user gave to that origin with that limit, and a
  call that the wallet host gets for a page is a WebLN method that this page asked for, of
  an origin to which the user gave a grant.
-/

set_option autoImplicit false

namespace LibreWallet.Extension

open Async
open Webln (Op Grants OriginGrant)

variable {O : Type} {G G' : O → Nat → Prop}

/-! ## The permission store -/

/-- Every grant in force of a map is one of `G`. -/
def Within (G : O → Nat → Prop) (grants : Grants O) : Prop :=
  ∀ o g, grants o = some g → g.enabled = true → G o g.spendingLimitSats

/-- A map that the store has, keeps or is about to write. -/
inductive Known (s : Webln.State O) (grants : Grants O) : Prop where
  | stored : s.stored = some grants → Known s grants
  | heap : grants ∈ s.heap → Known s grants
  | written (k : Nat) : (k, grants) ∈ s.writes → Known s grants
  | got (op : Op O) : ⟨op, .got (some grants)⟩ ∈ s.calls → Known s grants

/-- The maps of the store and the grants that are asked for are of `G`. -/
structure StoreInv (G : O → Nat → Prop) (s : Webln.State O) : Prop where
  maps : ∀ grants, Known s grants → Within G grants
  asked : ∀ c ∈ s.calls, ∀ o limit, c.op = .grant o limit → G o limit

theorem Within.mono {grants : Grants O} (h : Within G grants) (hG : ∀ o n, G o n → G' o n) :
    Within G' grants :=
  fun o g hg hen => hG _ _ (h o g hg hen)

/-- The clock and the ledger hold no maps. -/
theorem StoreInv.frame {s s' : Webln.State O} (h : StoreInv G s) (hstored : s'.stored = s.stored)
    (hheap : s'.heap = s.heap) (hwrites : s'.writes = s.writes) (hcalls : s'.calls = s.calls) :
    StoreInv G s' where
  maps := by
    intro grants hknown
    cases hknown with
    | stored hs => exact h.maps _ (.stored (hstored ▸ hs))
    | heap hs => exact h.maps _ (.heap (hheap ▸ hs))
    | written k hs => exact h.maps _ (.written k (hwrites ▸ hs))
    | got op hs => exact h.maps _ (.got op (hcalls ▸ hs))
  asked := fun c hc => h.asked c (hcalls ▸ hc)

theorem StoreInv.mono {s : Webln.State O} (h : StoreInv G s) (hG : ∀ o n, G o n → G' o n) :
    StoreInv G' s where
  maps := fun grants hk => (h.maps grants hk).mono hG
  asked := fun c hc o limit hop => hG _ _ (h.asked c hc o limit hop)

theorem within_empty : Within G (fun _ => none : Grants O) := by
  intro o g hg
  cases hg

theorem within_getD {raw : Option (Grants O)} (h : ∀ grants, raw = some grants → Within G grants) :
    Within G (raw.getD fun _ => none) := by
  cases raw with
  | none => exact within_empty
  | some grants => exact h grants rfl

/-! ### Calls -/

section Store

variable {s s' : Webln.State O} {k : Nat} {op : Op O}

theorem mem_calls_set {c d : Webln.Call O} (h : d ∈ s.calls.set k c) : d = c ∨ d ∈ s.calls :=
  (List.mem_or_eq_of_mem_set h).symm

/-- A call goes on to a stage that holds no map of its own. -/
theorem StoreInv.goOn (h : StoreInv G s) (hk : ∃ stage, s.calls[k]? = some ⟨op, stage⟩)
    {stage : Webln.Stage O} (hstage : ∀ grants, stage = .got (some grants) → Known s grants) :
    StoreInv G (s.goOn k op stage) where
  maps := by
    intro grants hknown
    cases hknown with
    | stored hs => exact h.maps _ (.stored hs)
    | heap hs => exact h.maps _ (.heap hs)
    | written j hs => exact h.maps _ (.written j hs)
    | got op' hs =>
      rcases mem_calls_set hs with heq | hmem
      · injection heq with _ hst
        exact h.maps _ (hstage grants hst.symm)
      · exact h.maps _ (.got op' hmem)
  asked := by
    intro c hc o limit hop
    obtain ⟨st, hst⟩ := hk
    rcases mem_calls_set hc with rfl | hmem
    · exact h.asked _ (List.mem_of_getElem? hst) o limit hop
    · exact h.asked c hmem o limit hop

theorem StoreInv.install (h : StoreInv G s) {raw : Option (Grants O)}
    (hk : s.calls[k]? = some ⟨op, .got raw⟩) (i : Nat) :
    StoreInv G ({ s with heap := s.heap ++ [raw.getD fun _ => none], cache := some i }.goOn k op
      (.loaded i)) := by
  have hraw : Within G (raw.getD fun _ => none) := by
    refine within_getD fun grants hg => h.maps _ (.got op ?_)
    subst hg
    exact List.mem_of_getElem? hk
  have hstep : StoreInv G { s with heap := s.heap ++ [raw.getD fun _ => none], cache := some i } := by
    refine ⟨fun grants hknown => ?_, h.asked⟩
    cases hknown with
    | stored hs => exact h.maps _ (.stored hs)
    | heap hs =>
      rcases List.mem_append.mp hs with hold | hnew
      · exact h.maps _ (.heap hold)
      · rw [List.mem_singleton.mp hnew]
        exact hraw
    | written j hs => exact h.maps _ (.written j hs)
    | got op' hs => exact h.maps _ (.got op' hs)
  exact hstep.goOn ⟨_, hk⟩ fun grants hst => by cases hst

theorem StoreInv.persist (h : StoreInv G s) (hk : ∃ stage, s.calls[k]? = some ⟨op, stage⟩) {i : Nat}
    {grants : Grants O} (hg : Within G grants) (l : Webln.Ledger O) :
    StoreInv G (s.persist k i op grants l) := by
  have hheap : ∀ m ∈ s.heap.set i grants, Within G m := fun m hm => by
    rcases List.mem_or_eq_of_mem_set hm with hold | rfl
    · exact h.maps _ (.heap hold)
    · exact hg
  refine ⟨fun m hknown => ?_, fun c hc o limit hop => ?_⟩
  · cases hknown with
    | stored hs => exact h.maps _ (.stored hs)
    | heap hs => exact hheap m hs
    | written j hs =>
      rcases List.mem_append.mp hs with hold | hnew
      · exact h.maps _ (.written j hold)
      · cases List.mem_singleton.mp hnew
        refine within_getD fun m' hm' => hheap m' ?_
        obtain ⟨n, -, hn⟩ := Option.bind_eq_some_iff.mp hm'
        exact List.mem_of_getElem? hn
    | got op' hs =>
      rcases mem_calls_set hs with heq | hmem
      · cases heq
      · exact h.maps _ (.got op' hmem)
  · obtain ⟨st, hst⟩ := hk
    rcases mem_calls_set hc with rfl | hmem
    · exact h.asked _ (List.mem_of_getElem? hst) o limit hop
    · exact h.asked c hmem o limit hop

/-- A call that goes on keeps its operation. -/
theorem map_op_set {stage : Webln.Stage O} (hk : s.calls[k]? = some ⟨op, stage⟩)
    (stage' : Webln.Stage O) : (s.calls.set k ⟨op, stage'⟩).map (·.op) = s.calls.map (·.op) := by
  refine List.ext_getElem? fun i => ?_
  rw [List.map_set, List.getElem?_set, List.length_map, List.getElem?_map]
  split
  · rename_i hi
    subst hi
    rw [if_pos (List.getElem?_eq_some_iff.mp hk).1, hk]
    rfl
  · rfl

variable [DecidableEq O]

theorem Within.update {grants : Grants O} (h : Within G grants) (o : O) {v : Option OriginGrant}
    (hv : ∀ g, v = some g → g.enabled = true → G o g.spendingLimitSats) :
    Within G (Function.update grants o v) := by
  intro o' g hg hen
  rw [Function.update_apply] at hg
  split at hg
  · rename_i ho
    subst ho
    exact hv g hg hen
  · exact h o' g hg hen

theorem resetIfNewDay_limit (now : Nat) (g : OriginGrant) :
    (Webln.resetIfNewDay now g).spendingLimitSats = g.spendingLimitSats := by
  unfold Webln.resetIfNewDay
  split <;> rfl

/-- An operation leaves the limits alone, except a grant, which sets its own. -/
theorem Within.perform {grants grants' : Grants O} {l l' : Webln.Ledger O} (h : Within G grants)
    (now : Nat) {op : Op O} (hop : ∀ o limit, op = .grant o limit → G o limit)
    (hp : Webln.perform now grants l op = (some grants', l')) : Within G grants' := by
  cases op with
  | chargeIfWithinCap o amount =>
    simp only [Webln.perform, Webln.chargeIfWithinCap] at hp
    split at hp
    · cases hp
    · rename_i g hg
      split at hp
      · rename_i hen
        have hlimit : G o g.spendingLimitSats := h o g hg hen
        have hreset : G o (Webln.resetIfNewDay now g).spendingLimitSats := by
          rw [resetIfNewDay_limit]
          exact hlimit
        split at hp
        · cases hp
          refine h.update o fun g' hg' _ => ?_
          cases hg'
          exact hreset
        · cases hp
          refine h.update o fun g' hg' _ => ?_
          cases hg'
          exact hreset
      · cases hp
  | refund o amount charge =>
    simp only [Webln.perform, Webln.refund] at hp
    split at hp
    · cases hp
    · rename_i g hg
      cases hp
      refine h.update o fun g' hg' hen => ?_
      cases hg'
      exact h o g hg hen
  | grant o limit =>
    simp only [Webln.perform, Webln.grant] at hp
    cases hp
    refine h.update o fun g' hg' _ => ?_
    have hgrant := hop o limit rfl
    split at hg'
    · cases hg'
      exact hgrant
    · cases hg'
      exact hgrant
  | revoke o =>
    simp only [Webln.perform, Webln.revoke] at hp
    split at hp
    · cases hp
      exact h.update o fun g' hg' => by cases hg'
    · cases hp
  | isEnabled o => cases hp
  | getGrant o => cases hp

omit [DecidableEq O] in
/-- A call begins with its own operation. -/
theorem StoreInv.begin (h : StoreInv G s) (hop : ∀ o limit, op = .grant o limit → G o limit) :
    StoreInv G { s with calls := s.calls ++ [{ op }] } := by
  refine ⟨fun m hm => ?_, fun c hc o limit hc' => ?_⟩
  · cases hm with
    | stored hs => exact h.maps _ (.stored hs)
    | heap hs => exact h.maps _ (.heap hs)
    | written j hs => exact h.maps _ (.written j hs)
    | got op' hs =>
      rcases List.mem_append.mp hs with hold | hnew
      · exact h.maps _ (.got op' hold)
      · cases List.mem_singleton.mp hnew
  · rcases List.mem_append.mp hc with hold | hnew
    · exact h.asked c hold o limit hc'
    · rw [List.mem_singleton.mp hnew] at hc'
      exact hop o limit hc'

/-- What a step of the store keeps; a call that begins brings its own operation. -/
theorem StoreInv.step {a : Webln.Action O} (h : StoreInv G s)
    (hbegin : ∀ op, a = .begin op → ∀ o limit, op = .grant o limit → G o limit)
    (hs : Webln.step a s = some s') : StoreInv G s' := by
  cases a with
  | tick now =>
    cases hs
    exact h.frame rfl rfl rfl rfl
  | begin op =>
    cases hs
    exact h.begin (hbegin op rfl)
  | load k =>
    simp only [Webln.step] at hs
    split at hs
    · rename_i op hk
      split at hs
      · split at hs
        · cases hs
          exact h.goOn ⟨_, hk⟩ fun m hm => by cases hm
        · cases hs
          exact h.goOn ⟨_, hk⟩ fun m hm => by cases hm
      · cases hs
    · cases hs
  | read k =>
    simp only [Webln.step] at hs
    split at hs
    · rename_i op hk
      cases hs
      refine h.goOn ⟨_, hk⟩ fun m hm => .stored ?_
      injection hm
    · cases hs
  | install k =>
    simp only [Webln.step] at hs
    split at hs
    · rename_i op raw hk
      cases hs
      exact h.install hk s.heap.length
    · cases hs
  | resume k =>
    simp only [Webln.step] at hs
    split at hs
    · rename_i op i hk
      split at hs
      · rename_i grants hg
        have hmap : Within G grants := h.maps _ (.heap (List.mem_of_getElem? hg))
        have hop := h.asked _ (List.mem_of_getElem? hk)
        split at hs
        · rename_i grants' l hp
          cases hs
          exact h.persist ⟨_, hk⟩ (hmap.perform s.now hop hp) l
        · cases hs
          have hgo : StoreInv G (s.goOn k op .finished) := h.goOn ⟨_, hk⟩ fun m hm => by cases hm
          exact hgo.frame rfl rfl rfl rfl
      · cases hs
    · cases hs
  | land =>
    simp only [Webln.step] at hs
    split at hs
    · rename_i j grants writes hw
      cases hs
      refine ⟨fun m hm => ?_, fun c hc o limit hop => ?_⟩
      · cases hm with
        | stored hs =>
          cases hs
          exact h.maps _ (.written j (by rw [hw]; exact List.mem_cons_self))
        | heap hs => exact h.maps _ (.heap hs)
        | written i hs => exact h.maps _ (.written i (by rw [hw]; exact List.mem_cons_of_mem _ hs))
        | got op hs =>
          obtain ⟨i, hi⟩ := List.mem_iff_getElem?.mp hs
          simp only [List.getElem?_modify, Option.map_eq_map, Option.map_eq_some_iff] at hi
          obtain ⟨d, hd, hdc⟩ := hi
          split at hdc
          · cases hdc
          · subst hdc
            exact h.maps _ (.got op (List.mem_of_getElem? hd))
      · obtain ⟨i, hi⟩ := List.mem_iff_getElem?.mp hc
        simp only [List.getElem?_modify, Option.map_eq_map, Option.map_eq_some_iff] at hi
        obtain ⟨d, hd, rfl⟩ := hi
        refine h.asked d (List.mem_of_getElem? hd) o limit ?_
        split at hop <;> exact hop
    · cases hs

/-- Only a call that begins adds an operation. -/
theorem step_ops {a : Webln.Action O} (ha : ∀ op, a ≠ .begin op) (hs : Webln.step a s = some s') :
    s'.calls.map (·.op) = s.calls.map (·.op) := by
  cases a with
  | tick now =>
    cases hs
    rfl
  | begin op => exact absurd rfl (ha op)
  | load k =>
    simp only [Webln.step] at hs
    split at hs
    · rename_i op hk
      split at hs
      · split at hs
        · cases hs
          exact map_op_set hk _
        · cases hs
          exact map_op_set hk _
      · cases hs
    · cases hs
  | read k =>
    simp only [Webln.step] at hs
    split at hs
    · rename_i op hk
      cases hs
      exact map_op_set hk _
    · cases hs
  | install k =>
    simp only [Webln.step] at hs
    split at hs
    · rename_i op raw hk
      cases hs
      exact map_op_set hk _
    · cases hs
  | resume k =>
    simp only [Webln.step] at hs
    split at hs
    · rename_i op i hk
      split at hs
      · split at hs
        · cases hs
          exact map_op_set hk _
        · cases hs
          exact map_op_set hk _
      · cases hs
    · cases hs
  | land =>
    simp only [Webln.step] at hs
    split at hs
    · rename_i k grants writes hw
      cases hs
      refine List.ext_getElem? fun i => ?_
      simp only [List.getElem?_map, List.getElem?_modify, Option.map_eq_map, Option.map_map]
      congr 1
      funext c
      simp only [Function.comp_apply]
      split <;> rfl
    · cases hs

end Store

/-! ## The background -/

/-- The operations of the calls of the store that were begun, oldest first. -/
def World.ops (w : World O) : List (Op O) := w.store.calls.map (·.op)

/-- What is stored at first. -/
def given (stored : Option (Grants O)) (o : O) (limit : Nat) : Prop :=
  ∃ grants g, stored = some grants ∧ grants o = some g ∧ g.enabled = true ∧ g.spendingLimitSats = limit

/-- The user gave the origin this limit, or it was stored at first. -/
def Consented (G : O → Nat → Prop) (w : World O) (o : O) (limit : Nat) : Prop :=
  G o limit ∨ (o, limit) ∈ w.consents

/-- What no step takes back. -/
structure Grows (w w' : World O) : Prop where
  life : w.life ≤ w'.life
  asked : ∀ id x, w.asked id = some x → w'.asked id = some x
  consents : ∀ x ∈ w.consents, x ∈ w'.consents
  posts : ∀ x ∈ w.posts, x ∈ w'.posts
  ops : w.ops <+: w'.ops

/-- The prompts, and what they lead to. -/
structure Inv (G : O → Nat → Prop) (w : World O) : Prop where
  store : StoreInv (Consented G w) w.store
  /-- An answer is of a call that was made. -/
  unanswered : ∀ k, w.ops.length ≤ k → w.answers k = none
  enabled : ∀ k o, w.ops[k]? = some (.isEnabled o) → w.answers k = some true →
    ∃ limit, Consented G w o limit
  fresh : ∀ id, w.nextId ≤ id → w.asked id = none
  lives : ∀ id o l, w.asked id = some (o, l) → l ≤ w.life
  pending : ∀ x ∈ w.pendingApprovals, w.asked x.1 = some (x.2.origin, w.life)
  single : (w.pendingApprovals.map (·.2.origin)).Nodup
  waits : ∀ id o, w.asked id = some (o, w.life) →
    id ∈ w.pendingApprovals.map Prod.fst ∨ w.decided id ≠ none
  windows : ∀ p ∈ w.windows, ∃ l, w.asked p.id = some (p.origin, l)
  sent : ∀ d ∈ w.inFlight, (∃ l, w.asked d.id = some (d.origin, l)) ∧
    (d.approved = true → (d.origin, d.spendingLimitSats) ∈ w.consents)
  decided : ∀ id d, w.decided id = some d → d.approved = true →
    ∃ o l limit, w.asked id = some (o, l) ∧ Consented G w o limit
  replies : ∀ r ∈ w.replies, r.ok = true → r.method = .enable → ∃ limit, Consented G w r.origin limit

theorem Grows.refl (w : World O) : Grows w w :=
  ⟨Nat.le_refl _, fun _ _ h => h, fun _ h => h, fun _ h => h, List.prefix_rfl⟩

theorem Grows.trans {u v w : World O} (h : Grows u v) (h' : Grows v w) : Grows u w where
  life := h.life.trans h'.life
  asked := fun id x hx => h'.asked id x (h.asked id x hx)
  consents := fun x hx => h'.consents x (h.consents x hx)
  posts := fun x hx => h'.posts x (h.posts x hx)
  ops := h.ops.trans h'.ops

theorem Consented.grows {w w' : World O} {o : O} {limit : Nat} (h : Consented G w o limit)
    (hg : Grows w w') : Consented G w' o limit :=
  h.imp id (hg.consents _)

/-- What a state keeps that leaves the prompts alone. -/
theorem Inv.frame {w w' : World O} (h : Inv G w) (hg : Grows w w')
    (hstore : StoreInv (Consented G w') w'.store)
    (hunanswered : ∀ k, w'.ops.length ≤ k → w'.answers k = none)
    (henabled : ∀ k o, w'.ops[k]? = some (.isEnabled o) → w'.answers k = some true →
      ∃ limit, Consented G w' o limit)
    (hasked : w'.asked = w.asked) (hnext : w'.nextId = w.nextId) (hlife : w'.life = w.life)
    (hpending : w'.pendingApprovals = w.pendingApprovals) (hwindows : w'.windows = w.windows)
    (hsent : w'.inFlight = w.inFlight) (hdecided : w'.decided = w.decided)
    (hreplies : w'.replies = w.replies) : Inv G w' where
  store := hstore
  unanswered := hunanswered
  enabled := henabled
  fresh := by rw [hasked, hnext]; exact h.fresh
  lives := by rw [hasked, hlife]; exact h.lives
  pending := by rw [hasked, hlife, hpending]; exact h.pending
  single := by rw [hpending]; exact h.single
  waits := by rw [hasked, hlife, hpending, hdecided]; exact h.waits
  windows := by rw [hasked, hwindows]; exact h.windows
  sent := by
    rw [hasked, hsent]
    exact fun d hd => ⟨(h.sent d hd).1, fun ha => hg.consents _ ((h.sent d hd).2 ha)⟩
  decided := by
    rw [hasked, hdecided]
    intro id d hd ha
    obtain ⟨o, l, limit, hid, hc⟩ := h.decided id d hd ha
    exact ⟨o, l, limit, hid, hc.grows hg⟩
  replies := by
    rw [hreplies]
    intro r hr hok hm
    obtain ⟨limit, hc⟩ := h.replies r hr hok hm
    exact ⟨limit, hc.grows hg⟩

/-! ### What the steps keep -/

section Steps

variable {w w' : World O}

/-- Why the wallet host may be asked: for a page only a WebLN method that it asked for, of an
origin that has a grant. -/
def Warranted (G : O → Nat → Prop) (w : World O) (rpc : Rpc) : Cause O → Prop
  | .webln o m =>
    rpc = .webln m ∧ m.reachesWallet = true ∧ (o, m) ∈ w.posts ∧ ∃ limit, Consented G w o limit
  | .command | .internal => ∃ name, rpc = .host name
  | .decision => False

/-- What a call owes when a request of it takes effect; a page waits for a prompt of its own
origin, made in the life of the worker that the page reached. -/
def Owes (G : O → Nat → Prop) (j : Job O) (q : Request O) (w : World O) : Prop :=
  match q with
  | .rpc rpc => Warranted G w rpc j.cause
  | .decision id => ∀ o m, j.cause = .webln o m → ∃ l, j.life ≤ l ∧ w.asked id = some (o, l)
  | _ => True

/-- The state only grows, and the invariant is kept. -/
def background (G : O → Nat → Prop) : Discipline (World O) (Request O) (Job O) where
  inv := Inv G
  grows := Grows
  owes := Owes G
  refl := Grows.refl
  trans := fun _ _ _ => Grows.trans

abbrev Kept (G : O → Nat → Prop) : World O → World O → Prop := (background G).Keeps

/-- A call of the store begins; a grant is one that the user gave. -/
theorem kept_begun (h : Inv G w) {op : Op O}
    (hop : ∀ o limit, op = .grant o limit → Consented G w o limit) : Kept G w (begun op w) := by
  have hops : (begun op w).ops = w.ops ++ [op] := by
    simp [World.ops, begun]
  have hgrows : Grows w (begun op w) :=
    ⟨Nat.le_refl _, fun _ _ h => h, fun _ h => h, fun _ h => h, hops ▸ List.prefix_append _ _⟩
  refine ⟨hgrows, { h with store := ?_, unanswered := ?_, enabled := ?_ }⟩
  · exact h.store.begin hop
  · intro k hk
    rw [hops, List.length_append] at hk
    exact h.unanswered k (by omega)
  · intro k o hk hans
    rcases Nat.lt_or_ge k w.ops.length with hlt | hge
    · rw [hops, List.getElem?_append_left hlt] at hk
      exact h.enabled k o hk hans
    · have hnone := h.unanswered k hge
      rw [show (begun op w).answers k = w.answers k from rfl, hnone] at hans
      cases hans

/-- The promise of a prompt is resolved. -/
theorem kept_settled (h : Inv G w) (id : Nat) {d : Decision}
    (hd : d.approved = true → ∃ o l limit, w.asked id = some (o, l) ∧ Consented G w o limit) :
    Kept G w (settled id d w) := by
  have hgrows : Grows w (settled id d w) :=
    ⟨Nat.le_refl _, fun _ _ h => h, fun _ h => h, fun _ h => h, List.prefix_rfl⟩
  refine ⟨hgrows, { h with pending := ?_, single := ?_, waits := ?_, decided := ?_ }⟩
  · exact fun x hx => h.pending x (List.mem_of_mem_filter hx)
  · exact h.single.sublist (List.filter_sublist.map _)
  · intro id' o hid
    rcases h.waits id' o hid with hmem | hdec
    · by_cases heq : id' = id
      · subst heq
        exact .inr (by simp [settled])
      · obtain ⟨x, hx, rfl⟩ := List.mem_map.mp hmem
        exact .inl (List.mem_map_of_mem (List.mem_filter.mpr ⟨hx, by simpa using heq⟩))
    · refine .inr ?_
      simp only [settled, Function.update_apply]
      split
      · exact Option.some_ne_none _
      · exact hdec
  · intro id' d' hdec happ
    simp only [settled, Function.update_apply] at hdec
    split at hdec
    · rename_i heq
      subst heq
      cases hdec
      exact hd happ
    · exact h.decided id' d' hdec happ

theorem kept_withWindow (h : Inv G w) (id windowId : Nat) : Kept G w (withWindow id windowId w) := by
  have hkeys : ∀ x : Nat × PendingApproval O,
      let y := if x.1 = id then (x.1, { x.2 with windowId := some windowId }) else (x.1, x.2)
      y.1 = x.1 ∧ y.2.origin = x.2.origin := by
    intro x
    dsimp only
    split <;> exact ⟨rfl, rfl⟩
  have hgrows : Grows w (withWindow id windowId w) :=
    ⟨Nat.le_refl _, fun _ _ h => h, fun _ h => h, fun _ h => h, List.prefix_rfl⟩
  refine ⟨hgrows, { h with pending := ?_, single := ?_, waits := ?_ }⟩
  · intro y hy
    obtain ⟨x, hx, rfl⟩ := List.mem_map.mp hy
    rw [(hkeys x).1, (hkeys x).2]
    exact h.pending x hx
  · have hmap : (withWindow id windowId w).pendingApprovals.map (·.2.origin) =
        w.pendingApprovals.map (·.2.origin) := by
      simp only [withWindow, List.map_map]
      exact List.map_congr_left fun x _ => (hkeys x).2
    rw [hmap]
    exact h.single
  · intro id' o hid
    have hmap : (withWindow id windowId w).pendingApprovals.map Prod.fst =
        w.pendingApprovals.map Prod.fst := by
      simp only [withWindow, List.map_map]
      exact List.map_congr_left fun x _ => (hkeys x).1
    rw [hmap]
    exact h.waits id' o hid

theorem kept_onRemoved (h : Inv G w) (closedId : Nat) : Kept G w (onRemoved closedId w) := by
  unfold onRemoved
  generalize w.pendingApprovals.filter (·.2.windowId = some closedId) = closed
  induction closed generalizing w with
  | nil => exact Discipline.Keeps.refl h
  | cons x closed ih =>
    have hkept := kept_settled h x.1 (d := ⟨false, 0⟩) fun happ => by cases happ
    exact hkept.trans (ih hkept.2)

/-- An answer is recorded. -/
theorem kept_replied (h : Inv G w) (r : Reply O)
    (hr : r.ok = true → r.method = .enable → ∃ limit, Consented G w r.origin limit) :
    Kept G w { w with replies := r :: w.replies } := by
  refine ⟨⟨Nat.le_refl _, fun _ _ h => h, fun _ h => h, fun _ h => h, List.prefix_rfl⟩,
    { h with replies := ?_ }⟩
  intro r' hr' hok hm
  rcases List.mem_cons.mp hr' with rfl | hold
  · exact hr hok hm
  · exact h.replies r' hold hok hm

/-- An approval window is opened for the origin that its prompt was made for. -/
theorem kept_opened (h : Inv G w) {id : Nat} {origin : O} (hid : ∃ l, w.asked id = some (origin, l)) :
    Kept G w { w with
      windows := ⟨w.nextWindowId, id, origin⟩ :: w.windows
      nextWindowId := w.nextWindowId + 1 } := by
  refine ⟨⟨Nat.le_refl _, fun _ _ h => h, fun _ h => h, fun _ h => h, List.prefix_rfl⟩,
    { h with windows := ?_ }⟩
  intro p hp
  rcases List.mem_cons.mp hp with rfl | hold
  · exact hid
  · exact h.windows p hold

theorem loadedMap_some {k : Nat} {op : Op O} {grants : Grants O}
    (h : loadedMap w.store k = some (op, grants)) :
    w.ops[k]? = some op ∧ grants ∈ w.store.heap := by
  unfold loadedMap at h
  split at h
  · rename_i op' i hk
    obtain ⟨m, hm, heq⟩ := Option.map_eq_some_iff.mp h
    cases heq
    refine ⟨?_, List.mem_of_getElem? hm⟩
    rw [World.ops, List.getElem?_map, hk]
    rfl
  · cases h

/-- The worker is reaped: no prompt of it is left. -/
theorem kept_reaped (h : Inv G w) : Kept G w (reaped w) := by
  have hops : (reaped w).ops = w.ops := by
    simp [World.ops, reaped, Function.comp_def]
  refine ⟨⟨Nat.le_succ _, fun _ _ h => h, fun _ h => h, fun _ h => h, by rw [hops]⟩,
    { h with
      store := ?_, unanswered := ?_, enabled := ?_, lives := ?_, pending := ?_, single := ?_, waits := ?_ }⟩
  · refine ⟨fun grants hknown => ?_, fun c hc o limit hop => ?_⟩
    · cases hknown with
      | stored hs => exact h.store.maps _ (.stored hs)
      | heap hs => exact h.store.maps _ (.heap hs)
      | written k hs => exact h.store.maps _ (.written k hs)
      | got op hs =>
        obtain ⟨c, -, hc⟩ := List.mem_map.mp hs
        cases hc
    · obtain ⟨d, hd, rfl⟩ := List.mem_map.mp hc
      exact h.store.asked d hd o limit hop
  · rw [hops]
    exact h.unanswered
  · rw [hops]
    exact h.enabled
  · exact fun id o l hx => (h.lives id o l hx).trans (Nat.le_succ _)
  · exact fun x hx => by cases hx
  · exact List.nodup_nil
  · intro id o hx
    have := h.lives id o _ hx
    exact absurd this (Nat.not_succ_le_self _)

theorem Consented.mono {o : O} {limit : Nat} {consents : List (O × Nat)} (h : Consented G w o limit) :
    Consented G { w with consents := consents ++ w.consents } o limit :=
  h.imp (fun hG => hG) fun hc => List.mem_append_right _ hc

/-- The user gives more. -/
theorem kept_heard (h : Inv G w) (consents : List (O × Nat)) :
    Kept G w { w with consents := consents ++ w.consents } := by
  have hgrows : Grows w { w with consents := consents ++ w.consents } :=
    ⟨Nat.le_refl _, fun _ _ h => h, fun _ hx => List.mem_append_right _ hx, fun _ h => h,
      List.prefix_rfl⟩
  refine ⟨hgrows, h.frame hgrows (h.store.mono fun o n hc => hc.mono) h.unanswered ?_
    rfl rfl rfl rfl rfl rfl rfl rfl⟩
  intro k o hk hans
  obtain ⟨limit, hc⟩ := h.enabled k o hk hans
  exact ⟨limit, hc.mono⟩

/-- An approval window sends what the user clicked. -/
theorem kept_sent (h : Inv G w) {d : Sent O} (hid : ∃ l, w.asked d.id = some (d.origin, l))
    (hd : d.approved = true → (d.origin, d.spendingLimitSats) ∈ w.consents) :
    Kept G w { w with inFlight := d :: w.inFlight } := by
  refine ⟨⟨Nat.le_refl _, fun _ _ h => h, fun _ h => h, fun _ h => h, List.prefix_rfl⟩,
    { h with sent := ?_ }⟩
  intro d' hd'
  rcases List.mem_cons.mp hd' with rfl | hold
  · exact ⟨hid, hd⟩
  · exact h.sent d' hold

section Prompts

variable [DecidableEq O]

/-- A prompt is made for an origin that has none. -/
theorem kept_minted (h : Inv G w) {origin : O}
    (hnone : w.pendingApprovals.find? (·.2.origin = origin) = none) : Kept G w (minted origin w) := by
  have hfresh : w.asked w.nextId = none := h.fresh _ (Nat.le_refl _)
  have hasked : ∀ id x, w.asked id = some x →
      (minted origin w).asked id = some x := by
    intro id x hx
    have hne : id ≠ w.nextId := fun heq => by
      rw [heq, hfresh] at hx
      cases hx
    simp only [minted, Function.update_of_ne hne]
    exact hx
  have hself : (minted origin w).asked w.nextId = some (origin, w.life) := by
    simp only [minted, Function.update_self]
  have hcases : ∀ id x, (minted origin w).asked id = some x →
      w.asked id = some x ∨ id = w.nextId ∧ x = (origin, w.life) := by
    intro id x hx
    simp only [minted, Function.update_apply] at hx
    split at hx
    · rename_i heq
      exact .inr ⟨heq, (Option.some.inj hx).symm⟩
    · exact .inl hx
  have hgrows : Grows w (minted origin w) :=
    ⟨Nat.le_refl _, hasked, fun _ h => h, fun _ h => h, List.prefix_rfl⟩
  refine ⟨hgrows, { h with
    fresh := ?_, lives := ?_, pending := ?_, single := ?_, waits := ?_, windows := ?_, sent := ?_,
    decided := ?_ }⟩
  · intro id hle
    have hne : id ≠ w.nextId := by
      have : w.nextId + 1 ≤ id := hle
      omega
    have hold := h.fresh id (Nat.le_of_succ_le hle)
    simp only [minted, Function.update_of_ne hne]
    exact hold
  · intro id o l hx
    rcases hcases id _ hx with hold | ⟨-, hnew⟩
    · exact h.lives id o l hold
    · cases hnew
      exact Nat.le_refl _
  · intro x hx
    rcases List.mem_append.mp hx with hold | hnew
    · exact hasked _ _ (h.pending x hold)
    · rw [List.mem_singleton.mp hnew]
      exact hself
  · have hmem : origin ∉ w.pendingApprovals.map (·.2.origin) := by
      intro hin
      obtain ⟨x, hx, hxo⟩ := List.mem_map.mp hin
      have := List.find?_eq_none.mp hnone x hx
      exact this (by simpa using hxo)
    simp only [minted, List.map_append, List.map_cons, List.map_nil]
    rw [← List.concat_eq_append]
    exact h.single.concat hmem
  · intro id o hx
    simp only [minted, List.map_append, List.mem_append]
    rcases hcases id _ hx with hold | ⟨rfl, -⟩
    · exact (h.waits id o hold).imp .inl fun hdec => hdec
    · exact .inl (.inr (by simp))
  · intro p hp
    obtain ⟨l, hl⟩ := h.windows p hp
    exact ⟨l, hasked _ _ hl⟩
  · intro d hd
    obtain ⟨⟨l, hl⟩, hc⟩ := h.sent d hd
    exact ⟨⟨l, hasked _ _ hl⟩, hc⟩
  · intro id d hdec happ
    obtain ⟨o, l, limit, hid, hc⟩ := h.decided id d hdec happ
    exact ⟨o, l, limit, hasked _ _ hid, hc⟩

/-- What a step of the permission store leaves of the state. -/
theorem storeStep_cases {a : Webln.Action O} (hs : storeStep a w = some w') :
    (∀ op, a ≠ .begin op) ∧ ∃ store answers, Webln.step a w.store = some store ∧
      w' = { w with store, answers } ∧
      ∀ k, answers k = w.answers k ∨ answers k =
        (loadedMap w.store k).map fun x => verdict w.store.now x.2 x.1 := by
  have same : ∀ {a : Webln.Action O}, (Webln.step a w.store).map (fun store => { w with store }) = some w' →
      ∃ store answers, Webln.step a w.store = some store ∧ w' = { w with store, answers } ∧
        ∀ k, answers k = w.answers k ∨ answers k =
          (loadedMap w.store k).map fun x => verdict w.store.now x.2 x.1 := by
    intro a h
    obtain ⟨store, hstep, rfl⟩ := Option.map_eq_some_iff.mp h
    exact ⟨store, w.answers, hstep, rfl, fun k => .inl rfl⟩
  cases a with
  | tick now => exact ⟨fun _ hop => (by cases hop), same (a := .tick now) hs⟩
  | begin op => cases hs
  | load k => exact ⟨fun _ hop => (by cases hop), same (a := .load k) hs⟩
  | read k => exact ⟨fun _ hop => (by cases hop), same (a := .read k) hs⟩
  | install k => exact ⟨fun _ hop => (by cases hop), same (a := .install k) hs⟩
  | resume k =>
    refine ⟨fun _ hop => (by cases hop), ?_⟩
    obtain ⟨store, hstep, rfl⟩ := Option.map_eq_some_iff.mp hs
    refine ⟨store, _, hstep, rfl, fun k' => ?_⟩
    rw [Function.update_apply]
    split
    · rename_i heq
      subst heq
      exact .inr rfl
    · exact .inl rfl
  | land => exact ⟨fun _ hop => (by cases hop), same (a := .land) hs⟩

theorem kept_storeStep (h : Inv G w) {a : Webln.Action O} (hs : storeStep a w = some w') :
    Kept G w w' := by
  obtain ⟨hbegin, store, answers, hstep, rfl, hanswers⟩ := storeStep_cases hs
  have hops : ({ w with store, answers } : World O).ops = w.ops := step_ops hbegin hstep
  refine ⟨⟨Nat.le_refl _, fun _ _ h => h, fun _ h => h, fun _ h => h, by rw [hops]⟩,
    { h with store := ?_, unanswered := ?_, enabled := ?_ }⟩
  · exact h.store.step (fun op hop => absurd hop (hbegin op)) hstep
  · intro k hk
    rw [hops] at hk
    rcases hanswers k with hold | hnew
    · exact hold.trans (h.unanswered k hk)
    · refine hnew.trans (Option.map_eq_none_iff.mpr ?_)
      cases hloaded : loadedMap w.store k with
      | none => rfl
      | some x =>
        have hop := (loadedMap_some hloaded).1
        rw [List.getElem?_eq_none hk] at hop
        cases hop
  · intro k o hk hans
    rw [hops] at hk
    rcases hanswers k with hold | hnew
    · exact h.enabled k o hk (hold ▸ hans)
    · -- the answer of this step: the map has the grant
      rw [show ({ w with store, answers } : World O).answers k = answers k from rfl, hnew] at hans
      obtain ⟨⟨op, grants⟩, hloaded, hverdict⟩ := Option.map_eq_some_iff.mp hans
      obtain ⟨hop, hheap⟩ := loadedMap_some hloaded
      rw [hk] at hop
      cases hop
      obtain ⟨g, hg, hen⟩ := (Option.any_eq_true _ _).mp hverdict
      exact ⟨g.spendingLimitSats, h.store.maps grants (.heap hheap) o g hg hen⟩

end Prompts

end Steps

end LibreWallet.Extension
