import LibreWallet.Async.System
import LibreWallet.Webln.Ledger

/-
  Webln/PermissionStore.lean --- the grants and spending caps of the page origins.

  Mirrors `PermissionStore` of `wallet-core/src/webln/permission-store.ts`.  Every method
  loads the map, then runs to its end in one turn: it changes the map it was handed and
  starts a write of the map that is the cache by then.  Maps are objects: `heap` holds them,
  a method keeps the number of its own.  The store carries out its writes in the order in
  which they were started.
-/

set_option autoImplicit false

namespace LibreWallet.Webln

open Async

structure OriginGrant where
  enabled : Bool
  spendingLimitSats : Nat
  spentTodaySats : Nat
  lastSpentTimestamp : Nat
  createdAt : Nat
  deriving DecidableEq, Repr

def ONE_DAY_MS : Nat := 24 * 60 * 60 * 1000

/-- `Record<string, OriginGrant>` -/
abbrev Grants (O : Type) := O → Option OriginGrant

inductive Op (O : Type) where
  | chargeIfWithinCap (origin : O) (amountSats : Nat)
  /-- `charge` is the charge that is refunded, if it is one. -/
  | refund (origin : O) (amountSats : Nat) (charge : Option Nat)
  | grant (origin : O) (spendingLimitSats : Nat)
  | revoke (origin : O)
  | isEnabled (origin : O)
  | getGrant (origin : O)
  deriving DecidableEq, Repr

variable {O : Type}

/-- The chain an operation is serialized on. -/
def Op.chain : Op O → Option O
  | .chargeIfWithinCap origin _ | .refund origin _ _ => some origin
  | _ => none

def Op.mutates : Op O → Bool
  | .isEnabled _ | .getGrant _ => false
  | _ => true

inductive Stage (O : Type) where
  /-- The operation has not asked for the map yet. -/
  | waiting
  /-- `kv.get` is on its way. -/
  | reading
  | got (raw : Option (Grants O))
  /-- `load` returns map `i`. -/
  | loaded (i : Nat)
  /-- `kv.set` is on its way. -/
  | persisting
  | finished

structure Call (O : Type) where
  op : Op O
  stage : Stage O := .waiting

def Call.isOver (c : Call O) : Bool :=
  match c.stage with
  | .finished => true
  | _ => false

def Call.holds (c : Call O) (i : Nat) : Bool :=
  match c.stage with
  | .loaded i' => i' = i
  | _ => false

structure State (O : Type) where
  now : Nat := 0
  stored : Option (Grants O)
  heap : List (Grants O) := []
  cache : Option Nat := none
  calls : List (Call O) := []
  writes : List (Nat × Grants O) := []
  ledger : Ledger O

inductive Action (O : Type) where
  | tick (now : Nat)
  | begin (op : Op O)
  | load (k : Nat)
  /-- `kv.get` of call `k` takes effect. -/
  | read (k : Nat)
  /-- Its answer arrives: the map becomes the cache. -/
  | install (k : Nat)
  /-- Call `k` goes on after `load`. -/
  | resume (k : Nat)
  /-- The oldest write lands, and its call is over. -/
  | land

/-! ## The operations on a map -/

def resetIfNewDay (now : Nat) (g : OriginGrant) : OriginGrant :=
  if ONE_DAY_MS ≤ now - g.lastSpentTimestamp then
    { g with spentTodaySats := 0, lastSpentTimestamp := now }
  else g

variable [DecidableEq O]

/-- The ledger after `resetIfNewDay`. -/
def Ledger.resetIfNewDay (l : Ledger O) (origin : O) (now : Nat) (g : OriginGrant) : Ledger O :=
  if ONE_DAY_MS ≤ now - g.lastSpentTimestamp then l.reset origin else l

def chargeIfWithinCap (now : Nat) (origin : O) (amountSats : Nat) (grants : Grants O) (l : Ledger O) :
    Option (Grants O) × Ledger O :=
  match grants origin with
  | none => (none, l)
  | some g =>
    if g.enabled then
      let l' := l.resetIfNewDay origin now g
      let g' := resetIfNewDay now g
      if 0 < g'.spendingLimitSats ∧ g'.spendingLimitSats < g'.spentTodaySats + amountSats then
        (some (Function.update grants origin (some g')), l')
      else
        (some (Function.update grants origin
          (some { g' with spentTodaySats := g'.spentTodaySats + amountSats, lastSpentTimestamp := now })),
          l'.charge origin amountSats)
    else (none, l)

def refund (origin : O) (amountSats : Nat) (charge : Option Nat) (grants : Grants O) (l : Ledger O) :
    Option (Grants O) × Ledger O :=
  match grants origin with
  | none => (none, l)
  | some g =>
    (some (Function.update grants origin
      (some { g with spentTodaySats := g.spentTodaySats - amountSats })), charge.elim l l.refund)

def grant (now : Nat) (origin : O) (spendingLimitSats : Nat) (grants : Grants O) (l : Ledger O) :
    Option (Grants O) × Ledger O :=
  let g := match grants origin with
    | some existing => { existing with enabled := true, spendingLimitSats }
    | none => ⟨true, spendingLimitSats, 0, now, now⟩
  (some (Function.update grants origin (some g)), l.grant origin spendingLimitSats)

def revoke (origin : O) (grants : Grants O) (l : Ledger O) : Option (Grants O) × Ledger O :=
  match grants origin with
  | some _ => (some (Function.update grants origin none), l.revoke origin)
  | none => (none, l.revoke origin)

/-- What an operation does to the map it was handed, if it persists, and to the ledger. -/
def perform (now : Nat) (grants : Grants O) (l : Ledger O) : Op O → Option (Grants O) × Ledger O
  | .chargeIfWithinCap origin amountSats => chargeIfWithinCap now origin amountSats grants l
  | .refund origin amountSats charge => refund origin amountSats charge grants l
  | .grant origin spendingLimitSats => grant now origin spendingLimitSats grants l
  | .revoke origin => revoke origin grants l
  | .isEnabled _ | .getGrant _ => (none, l)

/-! ## Steps -/

def State.goOn (s : State O) (k : Nat) (op : Op O) (stage : Stage O) : State O :=
  { s with calls := s.calls.set k ⟨op, stage⟩ }

/-- `serialize`: the earlier operations of the chain are over. -/
def State.turn (s : State O) (k : Nat) (op : Op O) : Bool :=
  op.chain.isNone || (s.calls.take k).all fun c => c.op.chain ≠ op.chain || c.isOver

/-- `persist`, after map `i` was changed to `grants`. -/
def State.persist (s : State O) (k i : Nat) (op : Op O) (grants : Grants O) (ledger : Ledger O) :
    State O :=
  let heap := s.heap.set i grants
  { s with
    heap
    writes := s.writes ++ [(k, (s.cache.bind (heap[·]?)).getD fun _ => none)]
    calls := s.calls.set k ⟨op, .persisting⟩
    ledger }

def step : Action O → State O → Option (State O)
  | .tick now, s => some { s with now }
  | .begin op, s => some { s with calls := s.calls ++ [{ op }] }
  | .load k, s =>
    match s.calls[k]? with
    | some ⟨op, .waiting⟩ =>
      if s.turn k op then
        match s.cache with
        | some i => some (s.goOn k op (.loaded i))
        | none => some (s.goOn k op .reading)
      else none
    | _ => none
  | .read k, s =>
    match s.calls[k]? with
    | some ⟨op, .reading⟩ => some (s.goOn k op (.got s.stored))
    | _ => none
  | .install k, s =>
    match s.calls[k]? with
    | some ⟨op, .got raw⟩ =>
      some ({ s with
        heap := s.heap ++ [raw.getD fun _ => none]
        cache := some s.heap.length }.goOn k op (.loaded s.heap.length))
    | _ => none
  | .resume k, s =>
    match s.calls[k]? with
    | some ⟨op, .loaded i⟩ =>
      match s.heap[i]? with
      | some grants =>
        match perform s.now grants s.ledger op with
        | (some grants', ledger) => some (s.persist k i op grants' ledger)
        | (none, ledger) => some { s.goOn k op .finished with ledger }
      | none => none
    | _ => none
  | .land, s =>
    match s.writes with
    | (k, grants) :: writes =>
      some { s with
        stored := some grants
        writes
        calls := s.calls.modify k fun c => { c with stage := .finished } }
    | [] => none

def OriginGrant.inForce (g : OriginGrant) : Option Nat :=
  if g.enabled then some g.spendingLimitSats else none

/-- A cold cache over what is stored. -/
def initial (stored : Option (Grants O)) : State O :=
  { stored, ledger := { granted := fun o => ((stored.getD fun _ => none) o).bind OriginGrant.inForce } }

/-- What is persisted once the writes on their way have landed. -/
def State.persisted (s : State O) : Grants O :=
  ((s.writes.getLast?.map Prod.snd).or s.stored).getD fun _ => none

/-- A refund is of a charge of this window that was not refunded before; a new grant is not for
an origin that has charges in this window. -/
def allowed (grants : Grants O) (l : Ledger O) : Op O → Bool
  | .refund origin amountSats charge =>
    (grants origin).isNone ||
      charge.any fun j => l.charges[j]? = some ⟨origin, amountSats, l.epoch origin, false⟩
  | .grant origin _ => (grants origin).isSome || l.net origin = 0
  | _ => true

/-- A map that becomes the cache while there is one equals it, and no operation that will
change the old one still holds it. -/
def Replaces (s : State O) (raw : Option (Grants O)) (i : Nat) : Prop :=
  s.heap[i]? = some (raw.getD fun _ => none) ∧ ∀ c ∈ s.calls, c.op.mutates = true → c.holds i = false

/-- The condition on a step. -/
def InStep (a : Action O) (s : State O) : Prop :=
  match a with
  | .install k => ∀ op raw i, s.calls[k]? = some ⟨op, .got raw⟩ → s.cache = some i → Replaces s raw i
  | .resume k => ∀ op i grants, s.calls[k]? = some ⟨op, .loaded i⟩ → s.heap[i]? = some grants →
      allowed grants s.ledger op = true
  | _ => True

/-- A map has the grant, and what was charged. -/
def Has (l : Ledger O) (grants : Grants O) : Prop :=
  ∀ o limit, l.granted o = some limit → ∃ g, grants o = some g ∧ g.enabled = true ∧
    g.spendingLimitSats = limit ∧ l.net o ≤ g.spentTodaySats

/-- No grant and no debit is lost, and every charge was within its cap. -/
structure Kept (s : State O) : Prop where
  persisted : Has s.ledger s.persisted
  cache : ∀ i, s.cache = some i → ∃ grants, s.heap[i]? = some grants ∧ Has s.ledger grants
  capped : ∀ a ∈ s.ledger.admissions, a.WithinCap

/-! ## What an operation keeps -/

/-- A map agrees with the ledger. -/
structure Agrees (l : Ledger O) (grants : Grants O) : Prop where
  granted : ∀ o, l.granted o = (grants o).bind OriginGrant.inForce
  covered : ∀ o g, grants o = some g → l.net o ≤ g.spentTodaySats
  timely : l.Timely
  capped : ∀ a ∈ l.admissions, a.WithinCap

variable {l l' : Ledger O} {grants grants' : Grants O} {now : Nat} {o : O} {g : OriginGrant}

theorem Agrees.has (h : Agrees l grants) : Has l grants := by
  intro o limit hl
  rw [h.granted o] at hl
  obtain ⟨g, hg, hin⟩ := Option.bind_eq_some_iff.mp hl
  unfold OriginGrant.inForce at hin
  split at hin
  · rename_i hen
    cases hin
    exact ⟨g, hg, hen, rfl, h.covered o g hg⟩
  · cases hin

/-- One origin's grant changes, and the ledger of that origin. -/
theorem Agrees.update (h : Agrees l grants) (o : O) (g' : Option OriginGrant)
    (hgranted : l'.granted = Function.update l.granted o (g'.bind OriginGrant.inForce))
    (hcovered : ∀ g, g' = some g → l'.net o ≤ g.spentTodaySats)
    (hother : ∀ o', o' ≠ o → l'.net o' ≤ l.net o')
    (htimely : l'.Timely) (hcapped : ∀ a ∈ l'.admissions, a.WithinCap) :
    Agrees l' (Function.update grants o g') where
  granted := by
    intro o'
    rw [hgranted]
    by_cases ho : o' = o
    · subst ho
      rw [Function.update_self, Function.update_self]
    · rw [Function.update_of_ne ho, Function.update_of_ne ho]
      exact h.granted o'
  covered := by
    intro o' g hg
    by_cases ho : o' = o
    · subst ho
      rw [Function.update_self] at hg
      exact hcovered g hg
    · rw [Function.update_of_ne ho] at hg
      exact Nat.le_trans (hother o' ho) (h.covered o' g hg)
  timely := htimely
  capped := hcapped

/-- A grant in the map is the one in force. -/
theorem Agrees.granted_self (h : Agrees l grants) (hg : grants o = some g) (g' : OriginGrant)
    (hin : g'.inForce = g.inForce) :
    l.granted = Function.update l.granted o ((some g').bind OriginGrant.inForce) := by
  have := h.granted o
  rw [hg, Option.bind_some] at this
  rw [Option.bind_some, hin, ← this, Function.update_eq_self]

theorem Agrees.reset (h : Agrees l grants) (hg : grants o = some g) (now : Nat) :
    Agrees (l.resetIfNewDay o now g) (Function.update grants o (some (resetIfNewDay now g))) := by
  unfold Ledger.resetIfNewDay resetIfNewDay
  split
  · refine h.update o _ (h.granted_self hg _ rfl) ?_ ?_ (h.timely.reset o) h.capped
    · rintro g' ⟨⟩
      exact Nat.le_of_eq (Ledger.net_reset_self h.timely o)
    · intro o' ho
      exact Nat.le_of_eq (Ledger.net_reset_ne ho)
  · rw [Function.update_eq_self_iff.mpr hg.symm]
    exact h

theorem Agrees.charge (h : Agrees l grants) (hg : grants o = some g) (hen : g.enabled = true)
    (amount now : Nat)
    (hcap : ¬(0 < g.spendingLimitSats ∧ g.spendingLimitSats < g.spentTodaySats + amount)) :
    Agrees (l.charge o amount) (Function.update grants o
      (some { g with spentTodaySats := g.spentTodaySats + amount, lastSpentTimestamp := now })) := by
  have hnet := Ledger.net_charge_self l o amount
  have hcov := h.covered o g hg
  refine h.update o _ (h.granted_self hg _ rfl) ?_ ?_ (h.timely.charge o amount) fun a ha => ?_
  · rintro g' ⟨⟩
    rw [hnet]
    exact Nat.add_le_add_right hcov amount
  · intro o' ho
    exact Nat.le_of_eq (Ledger.net_charge_ne ho amount)
  · rcases List.mem_append.mp ha with hold | hnew
    · exact h.capped a hold
    · rw [List.mem_singleton.mp hnew]
      refine ⟨g.spendingLimitSats, ?_, ?_⟩
      · have := h.granted o
        rw [hg, Option.bind_some, OriginGrant.inForce, if_pos hen] at this
        exact this
      · have hn : Ledger.net { l with
            charges := l.charges ++ [{ origin := o, amount, epoch := l.epoch o }] } o =
              l.net o + amount := hnet
        simp only [hn]
        omega

theorem Agrees.chargeIfWithinCap (h : Agrees l grants) (now amount : Nat) (o : O) :
    Agrees (chargeIfWithinCap now o amount grants l).2
      ((chargeIfWithinCap now o amount grants l).1.getD grants) := by
  unfold Webln.chargeIfWithinCap
  split
  · exact h
  · rename_i g hg
    split
    · rename_i hen
      have hr := h.reset hg now
      have hself : (Function.update grants o (some (resetIfNewDay now g))) o =
          some (resetIfNewDay now g) := Function.update_self ..
      simp only
      split
      · exact hr
      · rename_i hcap
        have hen' : (resetIfNewDay now g).enabled = true := by
          unfold resetIfNewDay
          split <;> exact hen
        have hc := hr.charge hself hen' amount now hcap
        rw [Function.update_idem] at hc
        exact hc
    · exact h

theorem Agrees.refund (h : Agrees l grants) (amount : Nat) (charge : Option Nat)
    (hallowed : allowed grants l (.refund o amount charge) = true) :
    Agrees (refund o amount charge grants l).2 ((refund o amount charge grants l).1.getD grants) := by
  unfold Webln.refund
  split
  · exact h
  · rename_i g hg
    simp only [allowed, hg, Option.isNone_some, Bool.false_or, Option.any_eq_true,
      decide_eq_true_eq] at hallowed
    obtain ⟨j, rfl, hj⟩ := hallowed
    have hnet := Ledger.net_refund hj
    have hcov := h.covered o g hg
    refine h.update o _ (h.granted_self hg _ rfl) ?_ ?_ (h.timely.refund j) h.capped
    · rintro g' ⟨⟩
      simp only [Option.elim_some]
      omega
    · intro o' _
      exact Ledger.net_refund_le l j o'

theorem Agrees.grant (h : Agrees l grants) (now limit : Nat)
    (hallowed : allowed grants l (.grant o limit) = true) :
    Agrees (grant now o limit grants l).2 ((grant now o limit grants l).1.getD grants) := by
  refine h.update o _ ?_ ?_ (fun o' _ => Nat.le_refl _) h.timely h.capped
  · cases grants o <;> rfl
  · rintro g' hg'
    cases hg : grants o with
    | none =>
      simp only [allowed, hg, Option.isSome_none, Bool.false_or, decide_eq_true_eq] at hallowed
      exact Nat.le_trans (Nat.le_of_eq hallowed) (Nat.zero_le _)
    | some g =>
      rw [hg] at hg'
      cases hg'
      exact h.covered o g hg

theorem Agrees.revoke (h : Agrees l grants) (o : O) :
    Agrees (revoke o grants l).2 ((revoke o grants l).1.getD grants) := by
  have hr : Agrees (l.revoke o) (Function.update grants o none) :=
    h.update o _ rfl nofun (fun o' _ => Nat.le_refl _) h.timely h.capped
  unfold Webln.revoke
  split
  · exact hr
  · rename_i hg
    rw [Function.update_eq_self_iff.mpr hg.symm] at hr
    exact hr

theorem Agrees.perform (h : Agrees l grants) (now : Nat) (op : Op O)
    (hallowed : allowed grants l op = true) :
    Agrees (perform now grants l op).2 ((perform now grants l op).1.getD grants) := by
  cases op with
  | chargeIfWithinCap origin amountSats => exact h.chargeIfWithinCap now amountSats origin
  | refund origin amountSats charge => exact h.refund amountSats charge hallowed
  | grant origin limit => exact h.grant now limit hallowed
  | revoke origin => exact h.revoke origin
  | isEnabled origin => exact h
  | getGrant origin => exact h

/-! ## The invariant -/

structure Inv (s : State O) : Prop where
  agrees : Agrees s.ledger s.persisted
  cache : ∀ i, s.cache = some i → s.heap[i]? = some s.persisted
  holders : ∀ c ∈ s.calls, c.op.mutates = true → ∀ i, c.stage = .loaded i → s.cache = some i
  cold : s.cache = none → s.writes = [] ∧ ∀ c ∈ s.calls, ∀ raw, c.stage = .got raw → raw = s.stored

variable {s s' : State O} {k : Nat} {op : Op O}

/-- A call goes on, and nothing else changes. -/
theorem Inv.goOn (h : Inv s) {stage : Stage O}
    (hholds : op.mutates = true → ∀ i, stage = .loaded i → s.cache = some i)
    (hgot : s.cache = none → ∀ raw, stage = .got raw → raw = s.stored) :
    Inv (s.goOn k op stage) where
  agrees := h.agrees
  cache := h.cache
  holders := by
    intro c hc hm i hi
    rcases List.mem_or_eq_of_mem_set hc with hold | rfl
    · exact h.holders c hold hm i hi
    · exact hholds hm i hi
  cold := by
    intro hnone
    refine ⟨(h.cold hnone).1, fun c hc raw hraw => ?_⟩
    rcases List.mem_or_eq_of_mem_set hc with hold | rfl
    · exact (h.cold hnone).2 c hold raw hraw
    · exact hgot hnone raw hraw

omit [DecidableEq O] in
theorem holds_of_loaded {c : Call O} {i : Nat} (h : c.stage = .loaded i) : c.holds i = true := by
  unfold Call.holds
  rw [h]
  simp

/-- A map becomes the cache. -/
theorem Inv.install (h : Inv s) {raw : Option (Grants O)} (hk : s.calls[k]? = some ⟨op, .got raw⟩)
    (hin : InStep (.install k) s) :
    Inv ({ s with
      heap := s.heap ++ [raw.getD fun _ => none]
      cache := some s.heap.length }.goOn k op (.loaded s.heap.length)) := by
  have hmem : (⟨op, .got raw⟩ : Call O) ∈ s.calls := List.mem_of_getElem? hk
  have hsame : (raw.getD fun _ => none) = s.persisted := by
    cases hc : s.cache with
    | none =>
      obtain ⟨hw, hraw⟩ := h.cold hc
      rw [hraw _ hmem raw rfl]
      unfold State.persisted
      rw [hw]
      rfl
    | some i =>
      have hr := (hin op raw i hk hc).1
      rw [h.cache i hc] at hr
      exact (Option.some.inj hr).symm
  have hfree : ∀ c ∈ s.calls, c.op.mutates = true → ∀ i, c.stage ≠ .loaded i := by
    intro c hc hm i hi
    have hcache := h.holders c hc hm i hi
    have hno := (hin op raw i hk hcache).2 c hc hm
    rw [holds_of_loaded hi] at hno
    cases hno
  refine ⟨h.agrees, ?_, ?_, nofun⟩
  · rintro i ⟨⟩
    rw [hsame]
    exact List.getElem?_concat_length ..
  · intro c hc hm i hi
    rcases List.mem_or_eq_of_mem_set hc with hold | rfl
    · exact absurd hi (hfree c hold hm i)
    · cases hi
      rfl

omit [DecidableEq O] in
/-- What is persisted after one more write. -/
theorem persisted_persist (op : Op O) (hc : s.cache = some k) (hk : k < s.heap.length) (j : Nat)
    (grants : Grants O) (ledger : Ledger O) : (s.persist j k op grants ledger).persisted = grants := by
  simp [State.persisted, State.persist, hc, hk]

/-- A call runs to its end on the map it was handed. -/
theorem Inv.resume (h : Inv s) {i : Nat} {grants : Grants O}
    (hk : s.calls[k]? = some ⟨op, .loaded i⟩) (hi : s.heap[i]? = some grants)
    (hin : InStep (.resume k) s) (hs : step (.resume k) s = some s') : Inv s' := by
  have hallowed := hin op i grants hk hi
  have hover : Inv (s.goOn k op .finished) := h.goOn (fun _ _ hst => nomatch hst) fun _ _ hst => nomatch hst
  simp only [step, hk, hi] at hs
  cases hm : op.mutates with
  | false =>
    have hp : perform s.now grants s.ledger op = (none, s.ledger) := by
      cases op <;> first | rfl | cases hm
    rw [hp] at hs
    cases hs
    exact hover
  | true =>
    have hcache := h.holders _ (List.mem_of_getElem? hk) hm i rfl
    have hgrants : grants = s.persisted := by
      have := h.cache i hcache
      rw [hi] at this
      exact Option.some.inj this
    have ha := (hgrants ▸ h.agrees : Agrees s.ledger grants).perform s.now op hallowed
    split at hs
    · rename_i grants' ledger hp
      cases hs
      rw [hp] at ha
      have hlt : i < s.heap.length := (List.getElem?_eq_some_iff.mp hi).1
      have hpers := persisted_persist op hcache hlt k grants' ledger
      refine ⟨by rw [hpers]; exact ha, ?_, ?_, ?_⟩
      · intro i' hi'
        have hii : i' = i := Option.some.inj (hi'.symm.trans hcache)
        subst hii
        rw [hpers]
        exact List.getElem?_set_self hlt
      · intro c hc hm' i' hi'
        rcases List.mem_or_eq_of_mem_set hc with hold | rfl
        · exact h.holders c hold hm' i' hi'
        · cases hi'
      · intro hnone
        exact nomatch hnone.symm.trans hcache
    · rename_i ledger hp
      cases hs
      rw [hp] at ha
      refine ⟨?_, hover.cache, hover.holders, hover.cold⟩
      rw [hgrants] at ha
      exact ha

/-- The oldest write lands. -/
theorem Inv.land (h : Inv s) {j : Nat} {grants : Grants O} {writes : List (Nat × Grants O)}
    (hw : s.writes = (j, grants) :: writes) :
    Inv { s with
      stored := some grants
      writes
      calls := s.calls.modify j fun c => { c with stage := .finished } } := by
  have hpers : State.persisted { s with
      stored := some grants
      writes
      calls := s.calls.modify j fun c => { c with stage := .finished } } = s.persisted := by
    unfold State.persisted
    rw [hw]
    cases writes with
    | nil => rfl
    | cons w ws =>
      rw [List.getLast?_cons_cons]
      obtain ⟨x, hx⟩ : ∃ x, (w :: ws).getLast? = some x := ⟨_, List.getLast?_cons⟩
      rw [hx]
      rfl
  have hcalls : ∀ c ∈ s.calls.modify j fun c => { c with stage := .finished },
      c ∈ s.calls ∨ c.stage = .finished := by
    intro c hc
    obtain ⟨i, hi⟩ := List.mem_iff_getElem?.mp hc
    rw [List.getElem?_modify] at hi
    obtain ⟨d, hd, rfl⟩ := Option.map_eq_some_iff.mp hi
    split
    · exact .inr rfl
    · exact .inl (List.mem_of_getElem? hd)
  refine ⟨by rw [hpers]; exact h.agrees, fun i hi => by rw [hpers]; exact h.cache i hi, ?_, ?_⟩
  · intro c hc hm i hi
    rcases hcalls c hc with hold | hover
    · exact h.holders c hold hm i hi
    · rw [hover] at hi
      cases hi
  · intro hnone
    have := (h.cold hnone).1
    rw [hw] at this
    cases this

theorem Inv.step {a : Action O} (h : Inv s) (hin : InStep a s) (hs : step a s = some s') :
    Inv s' := by
  cases a with
  | tick now =>
    cases hs
    exact ⟨h.agrees, h.cache, h.holders, h.cold⟩
  | begin op =>
    cases hs
    refine ⟨h.agrees, h.cache, fun c hc hm i hi => ?_, fun hnone => ⟨(h.cold hnone).1, ?_⟩⟩
    · rcases List.mem_append.mp hc with hold | hnew
      · exact h.holders c hold hm i hi
      · rw [List.mem_singleton.mp hnew] at hi
        cases hi
    · intro c hc raw hraw
      rcases List.mem_append.mp hc with hold | hnew
      · exact (h.cold hnone).2 c hold raw hraw
      · rw [List.mem_singleton.mp hnew] at hraw
        cases hraw
  | load k =>
    simp only [Webln.step] at hs
    split at hs
    · split at hs
      · split at hs
        · rename_i i hc
          cases hs
          exact h.goOn (fun _ i' hi' => by cases hi'; exact hc) fun _ _ hst => nomatch hst
        · cases hs
          exact h.goOn (fun _ _ hst => nomatch hst) fun _ _ hst => nomatch hst
      · cases hs
    · cases hs
  | read k =>
    simp only [Webln.step] at hs
    split at hs
    · cases hs
      exact h.goOn (fun _ _ hst => nomatch hst) fun _ raw hraw => by cases hraw; rfl
    · cases hs
  | install k =>
    simp only [Webln.step] at hs
    split at hs
    · rename_i op raw hk
      cases hs
      exact h.install hk hin
    · cases hs
  | resume k =>
    have hs' := hs
    simp only [Webln.step] at hs
    split at hs
    · rename_i op i hk
      split at hs
      · rename_i grants hi
        exact h.resume hk hi hin hs'
      · cases hs
    · cases hs
  | land =>
    simp only [Webln.step] at hs
    split at hs
    · rename_i j grants writes hw
      cases hs
      exact h.land hw
    · cases hs

theorem Inv.kept (h : Inv s) : Kept s :=
  ⟨h.agrees.has, fun i hi => ⟨s.persisted, h.cache i hi, h.agrees.has⟩, h.agrees.capped⟩

theorem Inv.initial (stored : Option (Grants O)) : Inv (initial stored) where
  agrees := ⟨fun _ => rfl, fun _ _ _ => Nat.zero_le _, nofun, nofun⟩
  cache := nofun
  holders := nofun
  cold := fun _ => ⟨rfl, nofun⟩

/-! ## Runs -/

/-- In every run from a cold cache in which no load replaces a map that is in use and every
refund is of a charge of the same window, nothing is lost and the caps hold. -/
theorem kept_of_inStep (stored : Option (Grants O)) (s : State O)
    (hrun : Steps step InStep (initial stored) s) : Kept s :=
  (hrun.invariant (I := Inv) (.initial stored) fun _ _ _ h hin hs => h.step hin hs).kept

/-- A condition that can be evaluated: no map is installed over another. -/
def coldStep (a : Action O) (s : State O) : Bool :=
  match a with
  | .install _ => s.cache.isNone
  | .resume k =>
    match s.calls[k]? with
    | some ⟨op, .loaded i⟩ => (s.heap[i]?).all fun grants => allowed grants s.ledger op
    | _ => true
  | _ => true

theorem inStep_of_coldStep {a : Action O} {s : State O} (h : coldStep a s = true) : InStep a s := by
  cases a with
  | install k =>
    intro op raw i _ hc
    simp only [coldStep, hc] at h
    cases h
  | resume k =>
    intro op i grants hk hi
    simpa only [coldStep, hk, hi, Option.all_some] using h
  | _ => trivial

/-- The grant of the one origin in the examples below. -/
def hundred : Grants Nat := fun o => if o = 0 then some ⟨true, 100, 0, 0, 0⟩ else none

/-- A charge, one that exceeds the cap, a refund, and a lower cap. -/
theorem kept_of_inStep_charged : ∃ s : State Nat, Steps step InStep (initial (some hundred)) s ∧
    s.ledger.net 0 = 0 ∧ s.ledger.admissions = [⟨60, some 100⟩] ∧ Kept s := by
  obtain ⟨s, hrun, hs⟩ := Steps.exists_of_play step coldStep (initial (some hundred))
    [.begin (.chargeIfWithinCap 0 60), .begin (.chargeIfWithinCap 0 50), .begin (.isEnabled 0), .load 0,
      .read 0, .install 0, .resume 0, .land, .load 1, .load 2, .resume 2, .resume 1, .land,
      .begin (.refund 0 60 (some 0)), .load 3, .resume 3, .land, .begin (.grant 0 40), .load 4,
      .resume 4, .land]
    (fun s => s.ledger.net 0 = 0 ∧ s.ledger.admissions = [⟨60, some 100⟩]) (by decide +kernel)
  simp only [decide_eq_true_eq] at hs
  have hrun' : Steps step InStep (initial (some hundred)) s :=
    hrun.mono fun _ _ h => inStep_of_coldStep h
  exact ⟨s, hrun', hs.1, hs.2, kept_of_inStep _ s hrun'⟩

/-- Two calls are inside the cold load: the second replaces the map that was charged. -/
theorem not_kept_cold : ∃ s : State Nat, Steps step (fun _ _ => True) (initial (some hundred)) s ∧
    ¬ Kept s := by
  obtain ⟨s, hrun, hs⟩ := Steps.exists_of_play step (fun _ _ => true) (initial (some hundred))
    [.begin (.chargeIfWithinCap 0 60), .begin (.isEnabled 0), .load 0, .load 1, .read 0, .read 1,
      .install 0, .resume 0, .land, .install 1, .resume 1, .begin (.chargeIfWithinCap 0 60), .load 2,
      .resume 2, .land]
    (fun s => s.ledger.admissions = [⟨60, some 100⟩, ⟨120, some 100⟩]) (by decide +kernel)
  simp only [decide_eq_true_eq] at hs
  refine ⟨s, hrun.mono fun _ _ _ => trivial, fun h => ?_⟩
  obtain ⟨cap, hcap, hle⟩ := h.capped ⟨120, some 100⟩ (by rw [hs]; simp)
  cases hcap
  exact absurd hle (by decide)

end LibreWallet.Webln
