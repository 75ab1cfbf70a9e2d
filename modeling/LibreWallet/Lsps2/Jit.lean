import LibreWallet.Async.System
import Mathlib.Logic.Function.Basic

/-
  Lsps2/Jit.lean --- the opening fee of just-in-time channels.

  Mirrors `JitStore`, `decideIntercept`, `computeOpeningFeeMsat`, `findZeroConfAlias` and
  `LndLspBackend` of `libre-lsps2-server/src`.  lnd holds an HTLC until it has an answer of the
  interceptor and delivers it again when the stream was lost before; what it forwards is settled by the
  client or fails downstream.  The amounts and the fee parameters are unsigned.
-/

set_option autoImplicit false

namespace LibreWallet.Lsps2

open Async

/-- A text of hexadecimal digits. -/
abbrev Hex := List Char

def toLowerCase (h : Hex) : Hex := h.map Char.toLower

/-! ## The fee -/

structure JitFeeParams where
  minFeeMsat : Nat
  proportionalPpm : Nat
  deriving DecidableEq, Repr

/-- max(min_fee_msat, ceil(payment_msat * proportional_ppm / 1_000_000)) -/
def computeOpeningFeeMsat (paymentMsat : Nat) (p : JitFeeParams) : Nat :=
  let proportional := (paymentMsat * p.proportionalPpm + 999999) / 1000000
  if proportional > p.minFeeMsat then proportional else p.minFeeMsat

/-! ## The store -/

structure JitEntry where
  clientNodeId : Hex
  paymentHash : Hex
  feeParams : JitFeeParams
  feeSkimmed : Bool
  deriving DecidableEq, Repr

/-- The entries by scid. -/
abbrev JitStore := String → Option JitEntry

def register (store : JitStore) (clientNodeId paymentHash : Hex) (scid : String) (feeParams : JitFeeParams) :
    JitStore :=
  Function.update store scid (some
    { clientNodeId, paymentHash := toLowerCase paymentHash, feeParams, feeSkimmed := false })

def markSkimmed (store : JitStore) (scid : String) : JitStore :=
  match store scid with
  | some e => Function.update store scid (some { e with feeSkimmed := true })
  | none => store

/-! ## The interceptor -/

structure InterceptRequest where
  outgoingRequestedChanId : String
  paymentHash : Hex
  outgoingAmountMsat : Nat
  deriving DecidableEq, Repr

inductive InterceptDecision where
  | resume
  | resumeModified (outAmountMsat : Nat)
  | fail
  deriving DecidableEq, Repr

def decideIntercept (req : InterceptRequest) (store : JitStore) : InterceptDecision × JitStore :=
  match store req.outgoingRequestedChanId with
  -- not a scid that was promised
  | none => (.resume, store)
  | some entry =>
    if entry.paymentHash ≠ toLowerCase req.paymentHash then (.resume, store)
    else if entry.feeSkimmed then (.resume, store)
    else
      let fee := computeOpeningFeeMsat req.outgoingAmountMsat entry.feeParams
      if req.outgoingAmountMsat ≤ fee then (.fail, store)
      else
        (.resumeModified (req.outgoingAmountMsat - fee), markSkimmed store req.outgoingRequestedChanId)

/-! ## The alias -/

/-- A channel as lnd lists it; `alias_scids` need not be an array. -/
structure Channel where
  remotePubkey : Hex
  aliasScids : Option (List String)
  peerScidAlias : Option String
  deriving DecidableEq, Repr

/-- `alias_scids[0] || peer_scid_alias`, unless that is empty or zero. -/
def Channel.alias (c : Channel) : Option String :=
  let own := (c.aliasScids.bind (·.head?)).filter (· ≠ "")
  (own.or (c.peerScidAlias.filter (· ≠ ""))).filter (· ≠ "0")

/-- `findZeroConfAlias`, on what lnd lists at each poll: at most 21 of them. -/
def findZeroConfAlias (nodePubkeyHex : Hex) (polls : List (List Channel)) : Option String :=
  (polls.take 21).findSome? fun channels =>
    (channels.filter (·.remotePubkey = nodePubkeyHex)).findSome? Channel.alias

/-! ## The server and lnd -/

inductive Fate where
  /-- lnd holds it for the interceptor. -/
  | held
  | forwarded
  | settled
  | failed
  deriving DecidableEq, Repr

/-- An HTLC, with the last answer of the interceptor. -/
structure Htlc where
  req : InterceptRequest
  decision : Option InterceptDecision := none
  fate : Fate := .held
  deriving DecidableEq, Repr

/-- A buy that has succeeded. -/
structure Bought where
  clientNodeId : Hex
  /-- In lower case. -/
  paymentHash : Hex
  scid : String
  deriving DecidableEq, Repr

structure State where
  store : JitStore := fun _ => none
  bought : List Bought := []
  htlcs : List Htlc := []

namespace Htlc

def payment (h : Htlc) : Hex := toLowerCase h.req.paymentHash

/-- The amount that is forwarded. -/
def out (h : Htlc) : Option Nat :=
  match h.decision with
  | some .resume => some h.req.outgoingAmountMsat
  | some (.resumeModified outAmountMsat) => some outAmountMsat
  | _ => none

/-- The fee is withheld from it. -/
def bears (h : Htlc) : Bool :=
  match h.decision with
  | some (.resumeModified _) => true
  | _ => false

def stands (h : Htlc) : Bool := h.fate ≠ .failed

end Htlc

inductive Action where
  /-- A buy finds an alias in what lnd lists, and registers. -/
  | buy (clientNodeId paymentHash : Hex) (polls : List (List Channel))
  /-- An HTLC reaches lnd. -/
  | offer (req : InterceptRequest)
  /-- A held HTLC is delivered to the interceptor, for the first time or again. -/
  | intercept (k : Nat)
  /-- lnd takes the answer. -/
  | resolve (k : Nat)
  | settle (k : Nat)
  /-- An HTLC fails downstream, or lnd gives it up. -/
  | fail (k : Nat)

section Step

variable (feeParams : JitFeeParams)

/-- `LndLspBackend.buy` -/
def State.buy (s : State) (clientNodeId paymentHash : Hex) (polls : List (List Channel)) : Option State :=
  (findZeroConfAlias clientNodeId polls).map fun scid =>
    { s with
      store := register s.store clientNodeId paymentHash scid feeParams
      bought := s.bought ++ [⟨clientNodeId, toLowerCase paymentHash, scid⟩] }

/-- `handleIntercept` -/
def State.handleIntercept (s : State) (k : Nat) (h : Htlc) : State :=
  let decided := decideIntercept h.req s.store
  { s with store := decided.2, htlcs := s.htlcs.set k { h with decision := some decided.1 } }

def State.become (s : State) (k : Nat) (h : Htlc) (fate : Fate) : State :=
  { s with htlcs := s.htlcs.set k { h with fate } }

def step (a : Action) (s : State) : Option State :=
  match a with
  | .buy clientNodeId paymentHash polls => s.buy feeParams clientNodeId paymentHash polls
  | .offer req => if 0 < req.outgoingAmountMsat then some { s with htlcs := s.htlcs ++ [{ req }] } else none
  | .intercept k =>
    (s.htlcs[k]?).bind fun h => if h.fate = .held then some (s.handleIntercept k h) else none
  | .resolve k =>
    (s.htlcs[k]?).bind fun h =>
      if h.fate = .held ∧ h.decision ≠ none then
        some (s.become k h (if h.out.isSome then .forwarded else .failed))
      else none
  | .settle k =>
    (s.htlcs[k]?).bind fun h => if h.fate = .forwarded then some (s.become k h .settled) else none
  | .fail k =>
    (s.htlcs[k]?).bind fun h =>
      if h.fate = .held ∨ h.fate = .forwarded then some (s.become k h .failed) else none

end Step

/-! ## The fee of a bought payment -/

section Property

variable (s : State)

def Known (hash : Hex) : Prop := ∃ b ∈ s.bought, b.paymentHash = hash

/-- An HTLC of the payment has settled. -/
def Paid (hash : Hex) : Prop := ∃ h ∈ s.htlcs, h.payment = hash ∧ h.fate = .settled

/-- The fee is withheld from an HTLC of the payment that stands. -/
def Bearer (hash : Hex) (j : Nat) (h : Htlc) : Prop :=
  s.htlcs[j]? = some h ∧ h.payment = hash ∧ h.bears = true ∧ h.stands = true

/-- No HTLC of the payment is held or forwarded. -/
def Over (hash : Hex) : Prop := ∀ h ∈ s.htlcs, h.payment = hash → h.fate = .settled ∨ h.fate = .failed

/-- The opening fee is withheld exactly once, an outstanding registration stays, and amounts are right. -/
structure FeeOnce (feeParams : JitFeeParams) : Prop where
  once : ∀ b ∈ s.bought, Paid s b.paymentHash → Over s b.paymentHash →
    (s.htlcs.countP fun h => h.payment = b.paymentHash && h.fate = .settled && h.bears) = 1
  registered : ∀ b ∈ s.bought, ¬ Paid s b.paymentHash → ∃ e, s.store b.scid = some e ∧
    e.clientNodeId = b.clientNodeId ∧ e.paymentHash = b.paymentHash ∧ e.feeParams = feeParams ∧
      ((∃ h ∈ s.htlcs, h.payment = b.paymentHash ∧ h.bears = true) → e.feeSkimmed = true)
  amounts : ∀ b ∈ s.bought, ∀ h ∈ s.htlcs, h.payment = b.paymentHash → h.fate = .forwarded ∨ h.fate = .settled →
    ∃ out, h.out = some out ∧ 0 < out ∧
      out + (if h.bears then computeOpeningFeeMsat h.req.outgoingAmountMsat feeParams else 0) =
        h.req.outgoingAmountMsat

instance (hash : Hex) : Decidable (Known s hash) := inferInstanceAs (Decidable (∃ b ∈ s.bought, _))

instance (hash : Hex) : Decidable (Paid s hash) := inferInstanceAs (Decidable (∃ h ∈ s.htlcs, _ ∧ _))

/-- An HTLC of the payment, not at `k`, has the fee withheld and stands. -/
def borneBut (hash : Hex) (k : Nat) : Bool :=
  (List.range s.htlcs.length).any fun j =>
    j ≠ k && (s.htlcs[j]?).any fun h => h.payment = hash && h.bears && h.stands

/-- An entry of the payment from which no fee has been taken. -/
def JitEntry.fresh (e : JitEntry) (hash : Hex) : Bool := e.paymentHash = hash && !e.feeSkimmed

/-- The alias is free for a buy: nothing is registered there but a payment that is over, or this very
one; and the payment has not been bought elsewhere or been paid. -/
def free (clientNodeId hash : Hex) (scid : String) : Bool :=
  !decide (Paid s hash) &&
    match s.store scid with
    | none => !decide (Known s hash)
    | some e => (e.clientNodeId = clientNodeId && e.fresh hash) || (decide (Paid s e.paymentHash) && !decide (Known s hash))

/-- What a step may not do. -/
def fit (a : Action) (s : State) : Bool :=
  match a with
  | .buy clientNodeId paymentHash polls =>
    (findZeroConfAlias clientNodeId polls).all fun scid => free s clientNodeId (toLowerCase paymentHash) scid
  -- Its registration has not taken the fee, or another HTLC has.
  | .intercept k => (s.htlcs[k]?).all fun h => !decide (Known s h.payment) ||
      (s.store h.req.outgoingRequestedChanId).any (·.fresh h.payment) || borneBut s h.payment k
  | .settle k => (s.htlcs[k]?).all fun h => !decide (Known s h.payment) || borneBut s h.payment s.htlcs.length
  | .fail k => (s.htlcs[k]?).all fun h => !h.bears || !decide (Paid s h.payment)
  | _ => true

end Property

theorem borneBut_iff {s : State} {hash : Hex} {k : Nat} :
    borneBut s hash k = true ↔ ∃ j h, j ≠ k ∧ Bearer s hash j h := by
  simp only [borneBut, Bearer, List.any_eq_true, List.mem_range, Bool.and_eq_true, decide_eq_true_eq,
    Option.any_eq_true]
  constructor
  · rintro ⟨j, -, hne, h, hj, ⟨hp, hb⟩, hs⟩
    exact ⟨j, h, hne, hj, hp, hb, hs⟩
  · rintro ⟨j, h, hne, hj, hp, hb, hs⟩
    exact ⟨j, (List.getElem?_eq_some_iff.mp hj).1, hne, h, hj, ⟨hp, hb⟩, hs⟩

/-! ## What the interceptor decides -/

theorem decideIntercept_cases (req : InterceptRequest) (store : JitStore) :
    (∃ d, decideIntercept req store = (d, store) ∧ ∀ out, d ≠ .resumeModified out) ∨
      ∃ e, store req.outgoingRequestedChanId = some e ∧ e.fresh (toLowerCase req.paymentHash) = true ∧
        computeOpeningFeeMsat req.outgoingAmountMsat e.feeParams < req.outgoingAmountMsat ∧
        decideIntercept req store =
          (.resumeModified (req.outgoingAmountMsat - computeOpeningFeeMsat req.outgoingAmountMsat e.feeParams),
            Function.update store req.outgoingRequestedChanId (some { e with feeSkimmed := true })) := by
  rw [decideIntercept]
  split
  · exact .inl ⟨.resume, rfl, by simp⟩
  · rename_i e he
    split
    · exact .inl ⟨.resume, rfl, by simp⟩
    · rename_i hhash
      split
      · exact .inl ⟨.resume, rfl, by simp⟩
      · rename_i hskimmed
        dsimp only
        split
        · exact .inl ⟨.fail, rfl, by simp⟩
        · rename_i hfee
          refine .inr ⟨e, he, ?_, Nat.not_le.mp hfee, ?_⟩
          · simp only [JitEntry.fresh, Bool.and_eq_true, decide_eq_true_eq, Bool.not_eq_true']
            exact ⟨not_not.mp hhash, Bool.eq_false_iff.mpr hskimmed⟩
          · rw [markSkimmed, he]

theorem bears_iff {h : Htlc} : h.bears = true ↔ ∃ out, h.decision = some (.resumeModified out) := by
  rw [Htlc.bears]
  split
  · rename_i out hd
    simp [hd]
  · rename_i hd
    simp only [Bool.false_eq_true, false_iff, not_exists]
    exact hd

/-! ## What holds in every run -/

structure Inv (feeParams : JitFeeParams) (s : State) : Prop where
  registered : ∀ b ∈ s.bought, ¬ Paid s b.paymentHash → ∃ e, s.store b.scid = some e ∧
    e.clientNodeId = b.clientNodeId ∧ e.paymentHash = b.paymentHash
  entries : ∀ scid e, s.store scid = some e → e.feeParams = feeParams ∧
    ∃ b ∈ s.bought, b.paymentHash = e.paymentHash ∧ b.scid = scid
  scids : ∀ b ∈ s.bought, ∀ b' ∈ s.bought, b.paymentHash = b'.paymentHash → b.scid = b'.scid
  /-- An entry that has not taken the fee has never done. -/
  fresh : ∀ scid e, s.store scid = some e → ∀ h ∈ s.htlcs, e.fresh h.payment = true → h.bears = false
  known : ∀ h ∈ s.htlcs, h.bears = true → Known s h.payment
  unique : ∀ hash i j h h', Bearer s hash i h → Bearer s hash j h' → i = j
  withheld : ∀ b ∈ s.bought, Paid s b.paymentHash → ∃ j h, Bearer s b.paymentHash j h
  amounts : ∀ h ∈ s.htlcs, 0 < h.req.outgoingAmountMsat ∧ ∀ out, h.decision = some (.resumeModified out) →
    out + computeOpeningFeeMsat h.req.outgoingAmountMsat feeParams = h.req.outgoingAmountMsat ∧ 0 < out
  decided : ∀ h ∈ s.htlcs, h.fate = .forwarded ∨ h.fate = .settled → h.out.isSome = true

section Steps

variable {feeParams : JitFeeParams} {s s' : State} {k : Nat} {h : Htlc}

theorem JitEntry.fresh_iff {e : JitEntry} {hash : Hex} :
    e.fresh hash = true ↔ e.paymentHash = hash ∧ e.feeSkimmed = false := by
  simp [JitEntry.fresh]

theorem inv_init : Inv feeParams {} where
  registered := by simp
  entries := by simp
  scids := by simp
  fresh := by simp
  known := by simp
  unique := by simp [Bearer]
  withheld := by simp
  amounts := by simp
  decided := by simp

/-- What may be registered under an alias that is free. -/
theorem of_free {clientNodeId hash : Hex} {scid : String} (hfree : free s clientNodeId hash scid = true) :
    ¬ Paid s hash ∧ (s.store scid = none → ¬ Known s hash) ∧ ∀ e, s.store scid = some e →
      (e.clientNodeId = clientNodeId ∧ e.fresh hash = true) ∨ (Paid s e.paymentHash ∧ ¬ Known s hash) := by
  simp only [free, Bool.and_eq_true, Bool.not_eq_true', decide_eq_false_iff_not] at hfree
  obtain ⟨hunpaid, hentry⟩ := hfree
  refine ⟨hunpaid, fun hnone => ?_, fun e he => ?_⟩
  · rw [hnone] at hentry
    simpa using hentry
  · rw [he] at hentry
    simpa using hentry

theorem Inv.buy (hi : Inv feeParams s) {clientNodeId paymentHash : Hex} {scid : String}
    (hfree : free s clientNodeId (toLowerCase paymentHash) scid = true) :
    Inv feeParams { s with
      store := register s.store clientNodeId paymentHash scid feeParams
      bought := s.bought ++ [⟨clientNodeId, toLowerCase paymentHash, scid⟩] } := by
  obtain ⟨hunpaid, hnone, hentry⟩ := of_free hfree
  rw [register]
  generalize toLowerCase paymentHash = hash at *
  have hmem : ∀ {b : Bought}, b ∈ s.bought ++ [⟨clientNodeId, hash, scid⟩] →
      b ∈ s.bought ∨ b = ⟨clientNodeId, hash, scid⟩ := fun hb =>
    (List.mem_append.mp hb).imp_right List.mem_singleton.mp
  have hnew : (⟨clientNodeId, hash, scid⟩ : Bought) ∈ s.bought ++ [⟨clientNodeId, hash, scid⟩] := by simp
  -- An earlier buy of this payment is registered under this alias.
  have hsame : ∀ b ∈ s.bought, b.paymentHash = hash → b.scid = scid := by
    intro b hb hp
    have hknown : Known s hash := ⟨b, hb, hp⟩
    cases hs : s.store scid with
    | none => exact absurd hknown (hnone hs)
    | some e =>
      rcases hentry e hs with ⟨-, hfresh⟩ | ⟨-, hunknown⟩
      · obtain ⟨-, b', hb', hp', rfl⟩ := hi.entries scid e hs
        exact hi.scids b hb b' hb' (hp.trans ((JitEntry.fresh_iff.mp hfresh).1.symm.trans hp'.symm))
      · exact absurd hknown hunknown
  refine ⟨?_, ?_, ?_, ?_, ?_, hi.unique, ?_, hi.amounts, hi.decided⟩
  · intro b hb hout
    rcases hmem hb with hb | rfl
    · obtain ⟨e, he, hc, hp⟩ := hi.registered b hb hout
      by_cases hs : b.scid = scid
      · subst hs
        refine ⟨_, Function.update_self .., ?_⟩
        rcases hentry e he with ⟨hc', hfresh⟩ | ⟨hpaid, -⟩
        · exact ⟨hc'.symm.trans hc, (JitEntry.fresh_iff.mp hfresh).1.symm.trans hp⟩
        · exact absurd (hp ▸ hpaid) hout
      · exact ⟨e, (Function.update_of_ne hs _ _).trans he, hc, hp⟩
    · exact ⟨_, Function.update_self .., rfl, rfl⟩
  · intro scid' e he
    by_cases hs : scid' = scid
    · subst hs
      simp only [Function.update_self, Option.some.injEq] at he
      subst he
      exact ⟨rfl, _, hnew, rfl, rfl⟩
    · simp only [Function.update_of_ne hs] at he
      obtain ⟨hf, b, hb, hp⟩ := hi.entries scid' e he
      exact ⟨hf, b, List.mem_append_left _ hb, hp⟩
  · intro b hb b' hb' hp
    rcases hmem hb with hb | rfl
    · rcases hmem hb' with hb' | rfl
      · exact hi.scids b hb b' hb' hp
      · exact hsame b hb hp
    · rcases hmem hb' with hb' | rfl
      · exact (hsame b' hb' hp.symm).symm
      · rfl
  · intro scid' e he h hh hfresh
    by_cases hs : scid' = scid
    · subst hs
      simp only [Function.update_self, Option.some.injEq] at he
      subst he
      have hp : hash = h.payment := (JitEntry.fresh_iff.mp hfresh).1
      cases hold : s.store scid' with
      | none =>
        refine Bool.eq_false_iff.mpr fun hb => hnone hold ?_
        exact hp ▸ hi.known h hh hb
      | some e =>
        rcases hentry e hold with ⟨-, hfresh'⟩ | ⟨-, hunknown⟩
        · exact hi.fresh scid' e hold h hh (hp ▸ hfresh')
        · exact Bool.eq_false_iff.mpr fun hb => hunknown (hp ▸ hi.known h hh hb)
    · simp only [Function.update_of_ne hs] at he
      exact hi.fresh scid' e he h hh hfresh
  · intro h hh hb
    obtain ⟨b, hmemb, hp⟩ := hi.known h hh hb
    exact ⟨b, List.mem_append_left _ hmemb, hp⟩
  · intro b hb hpaid
    rcases hmem hb with hb | rfl
    · exact hi.withheld b hb hpaid
    · exact absurd hpaid hunpaid

theorem Inv.offer (hi : Inv feeParams s) {req : InterceptRequest} (hpos : 0 < req.outgoingAmountMsat) :
    Inv feeParams { s with htlcs := s.htlcs ++ [{ req }] } := by
  have hmem : ∀ {h : Htlc}, h ∈ s.htlcs ++ [({ req } : Htlc)] → h ∈ s.htlcs ∨ h = ({ req } : Htlc) := fun hh =>
    (List.mem_append.mp hh).imp_right List.mem_singleton.mp
  have hpaid : ∀ {hash}, Paid { s with htlcs := s.htlcs ++ [{ req }] } hash → Paid s hash := by
    rintro hash ⟨h, hh, hp, hfate⟩
    rcases hmem hh with hh | rfl
    · exact ⟨h, hh, hp, hfate⟩
    · cases hfate
  have hbearer : ∀ {hash j h}, Bearer { s with htlcs := s.htlcs ++ [{ req }] } hash j h → Bearer s hash j h := by
    rintro hash j h ⟨hj, hp, hb, hs⟩
    refine ⟨?_, hp, hb, hs⟩
    rcases Nat.lt_trichotomy j s.htlcs.length with hlt | rfl | hgt
    · exact (List.getElem?_append_left hlt).symm.trans hj
    · simp only [List.getElem?_concat_length, Option.some.injEq] at hj
      subst hj
      cases hb
    · rw [List.getElem?_eq_none (by rw [List.length_append, List.length_singleton]; omega)] at hj
      cases hj
  refine ⟨fun b hb hout => hi.registered b hb fun hpd => hout ?_, hi.entries, hi.scids, ?_, ?_, ?_, ?_, ?_, ?_⟩
  · obtain ⟨h, hh, hp⟩ := hpd
    exact ⟨h, List.mem_append_left _ hh, hp⟩
  · intro scid e he h hh hfresh
    rcases hmem hh with hh | rfl
    · exact hi.fresh scid e he h hh hfresh
    · rfl
  · intro h hh hb
    rcases hmem hh with hh | rfl
    · exact hi.known h hh hb
    · cases hb
  · exact fun hash i j h h' hh hh' => hi.unique hash i j h h' (hbearer hh) (hbearer hh')
  · intro b hb hpd
    obtain ⟨j, h, hj, hrest⟩ := hi.withheld b hb (hpaid hpd)
    exact ⟨j, h, (List.getElem?_append_left (List.getElem?_eq_some_iff.mp hj).1).trans hj, hrest⟩
  · intro h hh
    rcases hmem hh with hh | rfl
    · exact hi.amounts h hh
    · exact ⟨hpos, by simp⟩
  · intro h hh hfate
    rcases hmem hh with hh | rfl
    · exact hi.decided h hh hfate
    · simp at hfate

/-! ## One HTLC changes -/

section Set

variable {h' : Htlc} {store : JitStore} {hash : Hex} {j : Nat} {x : Htlc}

theorem bearer_set_ne (hne : j ≠ k) :
    Bearer { s with store, htlcs := s.htlcs.set k h' } hash j x ↔ Bearer s hash j x := by
  simp only [Bearer, List.getElem?_set_ne (Ne.symm hne)]

theorem bearer_set_self (hk : s.htlcs[k]? = some h) :
    Bearer { s with store, htlcs := s.htlcs.set k h' } hash k x ↔
      x = h' ∧ h'.payment = hash ∧ h'.bears = true ∧ h'.stands = true := by
  simp only [Bearer, List.getElem?_set_self (List.getElem?_eq_some_iff.mp hk).1, Option.some.injEq]
  constructor
  · rintro ⟨rfl, hrest⟩
    exact ⟨rfl, hrest⟩
  · rintro ⟨rfl, hrest⟩
    exact ⟨rfl, hrest⟩

/-- What has been paid is still, and a payment is newly paid by the HTLC only. -/
theorem paid_set (hk : s.htlcs[k]? = some h) (hfate : h.fate ≠ .settled) :
    Paid { s with store, htlcs := s.htlcs.set k h' } hash ↔
      Paid s hash ∨ (h'.payment = hash ∧ h'.fate = .settled) := by
  constructor
  · rintro ⟨x, hx, hp, hs⟩
    rcases List.mem_or_eq_of_mem_set hx with hx | rfl
    · exact .inl ⟨x, hx, hp, hs⟩
    · exact .inr ⟨hp, hs⟩
  · rintro (⟨x, hx, hp, hs⟩ | ⟨hp, hs⟩)
    · obtain ⟨j, hj⟩ := List.mem_iff_getElem?.mp hx
      have hne : k ≠ j := by
        rintro rfl
        rw [hk] at hj
        cases hj
        exact hfate hs
      exact ⟨x, List.mem_of_getElem? ((List.getElem?_set_ne hne).trans hj), hp, hs⟩
    · exact ⟨h', List.mem_set (List.getElem?_eq_some_iff.mp hk).1 _, hp, hs⟩

/-- An HTLC goes on without the fee being taken anew; its own payment, if it is paid, has a bearer. -/
theorem Inv.set (hi : Inv feeParams s) (hk : s.htlcs[k]? = some h) (hfate : h.fate ≠ .settled)
    (hreq : h'.req = h.req) (hbears : h'.bears = true → h.bears = true ∧ h'.decision = h.decision)
    (hstands : h'.stands = true → h.stands = true)
    (hdecided : h'.fate = .forwarded ∨ h'.fate = .settled → h'.out.isSome = true)
    (hwithheld : Known s h.payment → Paid { s with htlcs := s.htlcs.set k h' } h.payment →
      (h'.bears = true ∧ h'.stands = true) ∨ ∃ j x, j ≠ k ∧ Bearer s h.payment j x) :
    Inv feeParams { s with htlcs := s.htlcs.set k h' } := by
  have hpay : h'.payment = h.payment := congrArg (fun r : InterceptRequest => toLowerCase r.paymentHash) hreq
  have hh := List.mem_of_getElem? hk
  have hold : ∀ {hash j x}, Bearer { s with htlcs := s.htlcs.set k h' } hash j x → ∃ x, Bearer s hash j x := by
    intro hash j x hx
    by_cases hjk : j = k
    · subst hjk
      obtain ⟨rfl, hp, hb, hst⟩ := (bearer_set_self hk).mp hx
      exact ⟨h, hk, hpay ▸ hp, (hbears hb).1, hstands hst⟩
    · exact ⟨x, (bearer_set_ne hjk).mp hx⟩
  refine ⟨?_, hi.entries, hi.scids, ?_, ?_, ?_, ?_, ?_, ?_⟩
  · exact fun b hb hout => hi.registered b hb fun hpd => hout ((paid_set hk hfate).mpr (.inl hpd))
  · intro scid e he x hx hfresh
    rcases List.mem_or_eq_of_mem_set hx with hx | rfl
    · exact hi.fresh scid e he x hx hfresh
    · have hno := hi.fresh scid e he h hh (hpay ▸ hfresh)
      exact Bool.eq_false_iff.mpr fun hb => Bool.eq_false_iff.mp hno (hbears hb).1
  · intro x hx hb
    rcases List.mem_or_eq_of_mem_set hx with hx | rfl
    · exact hi.known x hx hb
    · exact hpay ▸ hi.known h hh (hbears hb).1
  · intro hash i j x y hx hy
    obtain ⟨x', hx'⟩ := hold hx
    obtain ⟨y', hy'⟩ := hold hy
    exact hi.unique hash i j x' y' hx' hy'
  · intro b hb hpd
    by_cases hp : b.paymentHash = h.payment
    · rw [hp] at hpd ⊢
      rcases hwithheld ⟨b, hb, hp⟩ hpd with ⟨hbr, hst⟩ | ⟨j, x, hjk, hx⟩
      · exact ⟨k, h', (bearer_set_self hk).mpr ⟨rfl, hpay, hbr, hst⟩⟩
      · exact ⟨j, x, (bearer_set_ne hjk).mpr hx⟩
    · obtain ⟨j, x, hx⟩ := hi.withheld b hb (((paid_set hk hfate).mp hpd).resolve_right fun hnew =>
        hp (hnew.1.symm.trans hpay))
      refine ⟨j, x, (bearer_set_ne ?_).mpr hx⟩
      rintro rfl
      obtain ⟨hj, hpx, -⟩ := hx
      rw [hk] at hj
      cases hj
      exact hp hpx.symm
  · intro x hx
    rcases List.mem_or_eq_of_mem_set hx with hx | rfl
    · exact hi.amounts x hx
    · rw [hreq]
      refine ⟨(hi.amounts h hh).1, fun out hout => (hi.amounts h hh).2 out ?_⟩
      exact (hbears (bears_iff.mpr ⟨out, hout⟩)).2 ▸ hout
  · intro x hx hf
    rcases List.mem_or_eq_of_mem_set hx with hx | rfl
    · exact hi.decided x hx hf
    · exact hdecided hf

end Set

/-- The interceptor takes the fee from an HTLC. -/
theorem Inv.skim (hi : Inv feeParams s) (hk : s.htlcs[k]? = some h) (hheld : h.fate = .held) {e : JitEntry}
    (he : s.store h.req.outgoingRequestedChanId = some e) (hfresh : e.fresh h.payment = true) {out : Nat}
    (hout : out + computeOpeningFeeMsat h.req.outgoingAmountMsat feeParams = h.req.outgoingAmountMsat)
    (hpos : 0 < out) :
    Inv feeParams { s with
      store := Function.update s.store h.req.outgoingRequestedChanId (some { e with feeSkimmed := true })
      htlcs := s.htlcs.set k { h with decision := some (.resumeModified out) } } := by
  have hfate : h.fate ≠ .settled := by simp [hheld]
  have hh := List.mem_of_getElem? hk
  obtain ⟨hparams, b, hb, hp, hs⟩ := hi.entries _ e he
  have hpe := (JitEntry.fresh_iff.mp hfresh).1
  -- No HTLC of the payment has had the fee withheld.
  have hnone : ∀ {j x}, ¬ Bearer s h.payment j x := fun hx => by
    obtain ⟨hj, hpx, hbx, -⟩ := hx
    have hno := hi.fresh _ e he _ (List.mem_of_getElem? hj) (hpx.symm ▸ hfresh)
    rw [hbx] at hno
    cases hno
  have hpaid : ∀ {hash}, Paid { s with
      store := Function.update s.store h.req.outgoingRequestedChanId (some { e with feeSkimmed := true })
      htlcs := s.htlcs.set k { h with decision := some (.resumeModified out) } } hash ↔ Paid s hash :=
    (paid_set hk hfate).trans (or_iff_left fun hnew => hfate hnew.2)
  refine ⟨?_, ?_, hi.scids, ?_, ?_, ?_, ?_, ?_, ?_⟩
  · intro b' hb' hout
    obtain ⟨e', he', hc, hp'⟩ := hi.registered b' hb' fun hpd => hout (hpaid.mpr hpd)
    by_cases hsc : b'.scid = h.req.outgoingRequestedChanId
    · rw [hsc, he] at he'
      cases he'
      refine ⟨{ e with feeSkimmed := true }, ?_, hc, hp'⟩
      rw [hsc]
      exact Function.update_self ..
    · exact ⟨e', (Function.update_of_ne hsc _ _).trans he', hc, hp'⟩
  · intro scid e' he'
    by_cases hsc : scid = h.req.outgoingRequestedChanId
    · subst hsc
      simp only [Function.update_self, Option.some.injEq] at he'
      subst he'
      exact ⟨hparams, b, hb, hp, hs⟩
    · simp only [Function.update_of_ne hsc] at he'
      exact hi.entries scid e' he'
  · intro scid e' he' x hx hfresh'
    by_cases hsc : scid = h.req.outgoingRequestedChanId
    · subst hsc
      simp only [Function.update_self, Option.some.injEq] at he'
      subst he'
      cases (JitEntry.fresh_iff.mp hfresh').2
    · simp only [Function.update_of_ne hsc] at he'
      rcases List.mem_or_eq_of_mem_set hx with hx | rfl
      · exact hi.fresh scid e' he' x hx hfresh'
      · -- The payment has one alias.
        obtain ⟨-, b', hb', hp', hs'⟩ := hi.entries scid e' he'
        have hsame : b.paymentHash = b'.paymentHash :=
          hp.trans (hpe.trans ((JitEntry.fresh_iff.mp hfresh').1.symm.trans hp'.symm))
        exact absurd (hs'.symm.trans ((hi.scids b hb b' hb' hsame).symm.trans hs)) hsc
  · intro x hx hbx
    rcases List.mem_or_eq_of_mem_set hx with hx | rfl
    · exact hi.known x hx hbx
    · exact ⟨b, hb, hp.trans hpe⟩
  · intro hash i j x y hx hy
    have hself : ∀ {l z}, l ≠ k → Bearer { s with
        store := Function.update s.store h.req.outgoingRequestedChanId (some { e with feeSkimmed := true })
        htlcs := s.htlcs.set k { h with decision := some (.resumeModified out) } } hash l z →
        Bearer s hash l z ∧ hash ≠ h.payment := by
      intro l z hl hz
      have hold := (bearer_set_ne hl).mp hz
      refine ⟨hold, ?_⟩
      rintro rfl
      exact hnone hold
    by_cases hik : i = k
    · by_cases hjk : j = k
      · rw [hik, hjk]
      · subst hik
        exact absurd ((bearer_set_self hk).mp hx).2.1.symm (hself hjk hy).2
    · by_cases hjk : j = k
      · subst hjk
        exact absurd ((bearer_set_self hk).mp hy).2.1.symm (hself hik hx).2
      · exact hi.unique hash i j x y (hself hik hx).1 (hself hjk hy).1
  · intro b' hb' hpd
    obtain ⟨j, x, hx⟩ := hi.withheld b' hb' (hpaid.mp hpd)
    refine ⟨j, x, (bearer_set_ne ?_).mpr hx⟩
    rintro rfl
    have hjp : h.payment = b'.paymentHash := by
      obtain ⟨hj, hpx, -⟩ := hx
      rw [hk] at hj
      cases hj
      exact hpx
    exact hnone (hjp ▸ hx)
  · intro x hx
    rcases List.mem_or_eq_of_mem_set hx with hx | rfl
    · exact hi.amounts x hx
    · refine ⟨(hi.amounts h hh).1, fun out' hout' => ?_⟩
      cases hout'
      exact ⟨hout, hpos⟩
  · intro x hx hf
    rcases List.mem_or_eq_of_mem_set hx with hx | rfl
    · exact hi.decided x hx hf
    · rfl

/-- A held HTLC is delivered to the interceptor. -/
theorem Inv.handleIntercept (hi : Inv feeParams s) (hk : s.htlcs[k]? = some h) (hheld : h.fate = .held)
    (hfit : fit (.intercept k) s = true) : Inv feeParams (s.handleIntercept k h) := by
  have hfate : h.fate ≠ .settled := by simp [hheld]
  have hh := List.mem_of_getElem? hk
  simp only [fit, hk, Option.all_some, Bool.or_eq_true, Bool.not_eq_true', decide_eq_false_iff_not,
    Option.any_eq_true, borneBut_iff] at hfit
  rw [State.handleIntercept]
  rcases decideIntercept_cases h.req s.store with ⟨d, hd, hno⟩ | ⟨e, he, hfresh, hfee, hd⟩
  · rw [hd]
    refine hi.set hk hfate rfl ?_ id ?_ ?_
    · intro hb
      obtain ⟨out, hout⟩ := bears_iff.mp hb
      exact absurd (Option.some.inj hout) (hno out)
    · simp [hheld]
    · intro hknown hpd
      right
      obtain ⟨b, hb, hp⟩ := hknown
      have hpaid := ((paid_set hk hfate).mp hpd).resolve_right fun hnew => hfate hnew.2
      obtain ⟨j, x, hx⟩ := hi.withheld b hb (hp ▸ hpaid)
      rw [hp] at hx
      by_cases hjk : j = k
      · subst hjk
        rcases hfit with (hunknown | ⟨e, he, hfresh⟩) | hother
        · exact absurd ⟨b, hb, hp⟩ hunknown
        · obtain ⟨hj, -, hbx, -⟩ := hx
          rw [hk] at hj
          cases hj
          rw [hi.fresh _ e he h hh hfresh] at hbx
          cases hbx
        · exact hother
      · exact ⟨j, x, hjk, hx⟩
  · rw [hd]
    have hsum : h.req.outgoingAmountMsat - computeOpeningFeeMsat h.req.outgoingAmountMsat e.feeParams +
        computeOpeningFeeMsat h.req.outgoingAmountMsat feeParams = h.req.outgoingAmountMsat := by
      rw [(hi.entries _ e he).1] at hfee ⊢
      exact Nat.sub_add_cancel (Nat.le_of_lt hfee)
    exact hi.skim hk hheld he hfresh hsum (Nat.sub_pos_of_lt hfee)

/-- lnd takes an answer. -/
theorem Inv.resolve (hi : Inv feeParams s) (hk : s.htlcs[k]? = some h) (hheld : h.fate = .held) :
    Inv feeParams (s.become k h (if h.out.isSome then .forwarded else .failed)) := by
  have hfate : h.fate ≠ .settled := by simp [hheld]
  refine hi.set hk hfate rfl (fun hb => ⟨hb, rfl⟩) (fun _ => by simp [Htlc.stands, hheld]) ?_ ?_
  · intro hf
    cases hout : h.out.isSome with
    | true => exact hout
    | false => simp [hout] at hf
  · intro ⟨b, hb, hp⟩ hpd
    have hpaid := ((paid_set hk hfate).mp hpd).resolve_right fun hnew => by
      have hsettled := hnew.2
      simp only at hsettled
      split at hsettled
      · cases hsettled
      · cases hsettled
    obtain ⟨j, x, hx⟩ := hi.withheld b hb (hp ▸ hpaid)
    rw [hp] at hx
    by_cases hjk : j = k
    · subst hjk
      obtain ⟨hj, -, hbx, -⟩ := hx
      rw [hk] at hj
      cases hj
      obtain ⟨out, hout⟩ := bears_iff.mp hbx
      have hsome : h.out.isSome = true := by simp [Htlc.out, hout]
      exact .inl ⟨hbx, by simp [Htlc.stands, hsome]⟩
    · exact .inr ⟨j, x, hjk, hx⟩

theorem Inv.settle (hi : Inv feeParams s) (hk : s.htlcs[k]? = some h) (hfwd : h.fate = .forwarded)
    (hfit : fit (.settle k) s = true) : Inv feeParams (s.become k h .settled) := by
  have hfate : h.fate ≠ .settled := by simp [hfwd]
  simp only [fit, hk, Option.all_some, Bool.or_eq_true, Bool.not_eq_true', decide_eq_false_iff_not,
    borneBut_iff] at hfit
  refine hi.set hk hfate rfl (fun hb => ⟨hb, rfl⟩) (fun _ => by simp [Htlc.stands, hfwd])
    (fun _ => hi.decided h (List.mem_of_getElem? hk) (.inl hfwd)) fun hknown _ => ?_
  rcases hfit with hunknown | ⟨j, x, -, hx⟩
  · exact absurd hknown hunknown
  · by_cases hjk : j = k
    · subst hjk
      obtain ⟨hj, -, hbx, -⟩ := hx
      rw [hk] at hj
      cases hj
      exact .inl ⟨hbx, rfl⟩
    · exact .inr ⟨j, x, hjk, hx⟩

theorem Inv.fail (hi : Inv feeParams s) (hk : s.htlcs[k]? = some h) (hfate : h.fate = .held ∨ h.fate = .forwarded)
    (hfit : fit (.fail k) s = true) : Inv feeParams (s.become k h .failed) := by
  have hne : h.fate ≠ .settled := by
    rcases hfate with hf | hf
    · simp [hf]
    · simp [hf]
  simp only [fit, hk, Option.all_some, Bool.or_eq_true, Bool.not_eq_true', decide_eq_false_iff_not] at hfit
  refine hi.set hk hne rfl (fun hb => ⟨hb, rfl⟩) (fun hst => by cases hst) (by simp) ?_
  intro ⟨b, hb, hp⟩ hpd
  have hpaid := ((paid_set hk hne).mp hpd).resolve_right fun hnew => by cases hnew.2
  obtain ⟨j, x, hx⟩ := hi.withheld b hb (hp ▸ hpaid)
  rw [hp] at hx
  refine .inr ⟨j, x, ?_, hx⟩
  rintro rfl
  obtain ⟨hj, -, hbx, -⟩ := hx
  rw [hk] at hj
  cases hj
  rcases hfit with hno | hunpaid
  · rw [hbx] at hno
    cases hno
  · exact hunpaid hpaid

theorem Inv.step {a : Action} (hi : Inv feeParams s) (hfit : fit a s = true)
    (hs : step feeParams a s = some s') : Inv feeParams s' := by
  cases a with
  | buy clientNodeId paymentHash polls =>
    obtain ⟨scid, hscid, rfl⟩ := Option.map_eq_some_iff.mp hs
    simp only [fit, hscid, Option.all_some] at hfit
    exact hi.buy hfit
  | offer req =>
    simp only [Lsps2.step, Option.ite_none_right_eq_some, Option.some.injEq] at hs
    obtain ⟨hpos, rfl⟩ := hs
    exact hi.offer hpos
  | intercept k =>
    simp only [Lsps2.step, Option.bind_eq_some_iff, Option.ite_none_right_eq_some, Option.some.injEq] at hs
    obtain ⟨h, hk, hheld, rfl⟩ := hs
    exact hi.handleIntercept hk hheld hfit
  | resolve k =>
    simp only [Lsps2.step, Option.bind_eq_some_iff, Option.ite_none_right_eq_some, Option.some.injEq] at hs
    obtain ⟨h, hk, ⟨hheld, -⟩, rfl⟩ := hs
    exact hi.resolve hk hheld
  | settle k =>
    simp only [Lsps2.step, Option.bind_eq_some_iff, Option.ite_none_right_eq_some, Option.some.injEq] at hs
    obtain ⟨h, hk, hfwd, rfl⟩ := hs
    exact hi.settle hk hfwd hfit
  | fail k =>
    simp only [Lsps2.step, Option.bind_eq_some_iff, Option.ite_none_right_eq_some, Option.some.injEq] at hs
    obtain ⟨h, hk, hfate, rfl⟩ := hs
    exact hi.fail hk hfate hfit

/-! ## The fee is withheld once -/

/-- What holds at one place only is counted once. -/
theorem countP_eq_one {α : Type} {l : List α} {p : α → Bool} {i : Nat} {x : α} (hi : l[i]? = some x)
    (hx : p x = true) (huniq : ∀ j y, l[j]? = some y → p y = true → j = i) : l.countP p = 1 := by
  obtain ⟨hlt, rfl⟩ := List.getElem?_eq_some_iff.mp hi
  have hbefore : (l.take i).countP p = 0 := by
    refine List.countP_eq_zero.mpr fun y hy hp => ?_
    obtain ⟨j, hj, rfl⟩ := List.mem_take_iff_getElem.mp hy
    have hji := huniq j _ (List.getElem?_eq_getElem (by omega)) hp
    omega
  have hafter : (l.drop (i + 1)).countP p = 0 := by
    refine List.countP_eq_zero.mpr fun y hy hp => ?_
    obtain ⟨j, hj, rfl⟩ := List.mem_drop_iff_getElem.mp hy
    have hji := huniq (i + 1 + j) _ (List.getElem?_eq_getElem (by omega)) hp
    omega
  calc l.countP p = (l.take i ++ l[i] :: l.drop (i + 1)).countP p := by
        rw [← List.drop_eq_getElem_cons hlt, List.take_append_drop]
    _ = 1 := by rw [List.countP_append, List.countP_cons_of_pos hx, hbefore, hafter]

/-- Where no fee is withheld, the amount offered is forwarded. -/
theorem out_of_not_bears (hout : h.out.isSome = true) (hb : h.bears = false) :
    h.out = some h.req.outgoingAmountMsat := by
  unfold Htlc.out Htlc.bears at *
  cases hd : h.decision with
  | none => simp [hd] at hout
  | some d =>
    cases d with
    | resume => rfl
    | resumeModified out => simp [hd] at hb
    | fail => simp [hd] at hout

theorem Inv.feeOnce (hi : Inv feeParams s) : FeeOnce s feeParams where
  once := by
    intro b hb hpaid hover
    obtain ⟨j, h, hj, hp, hbr, hst⟩ := hi.withheld b hb hpaid
    have hsettled : h.fate = .settled := by
      refine (hover h (List.mem_of_getElem? hj) hp).resolve_right fun hf => ?_
      simp [Htlc.stands, hf] at hst
    refine countP_eq_one hj (by simp [hp, hsettled, hbr]) fun i x hx hpx => ?_
    simp only [Bool.and_eq_true, decide_eq_true_eq] at hpx
    have hstx : x.stands = true := by simp [Htlc.stands, hpx.1.2]
    exact hi.unique b.paymentHash i j x h ⟨hx, hpx.1.1, hpx.2, hstx⟩ ⟨hj, hp, hbr, hst⟩
  registered := by
    intro b hb hout
    obtain ⟨e, he, hc, hp⟩ := hi.registered b hb hout
    refine ⟨e, he, hc, hp, (hi.entries _ e he).1, ?_⟩
    rintro ⟨h, hh, hph, hbr⟩
    by_contra hskimmed
    have hfresh : e.fresh h.payment = true :=
      JitEntry.fresh_iff.mpr ⟨hp.trans hph.symm, Bool.eq_false_iff.mpr hskimmed⟩
    rw [hi.fresh _ e he h hh hfresh] at hbr
    cases hbr
  amounts := by
    intro b hb h hh _ hfate
    have hsome := hi.decided h hh hfate
    obtain ⟨hpos, hmod⟩ := hi.amounts h hh
    cases hbr : h.bears with
    | false => exact ⟨_, out_of_not_bears hsome hbr, hpos, by simp⟩
    | true =>
      obtain ⟨out, hout⟩ := bears_iff.mp hbr
      obtain ⟨hsum, hpos'⟩ := hmod out hout
      exact ⟨out, by simp [Htlc.out, hout], hpos', by simpa using hsum⟩

end Steps

/-- The fee of the regtest server. -/
def devFee : JitFeeParams := { minFeeMsat := 250000, proportionalPpm := 1000 }

/-- What lnd lists of a client `"c"` with one channel. -/
def listed : List (List Channel) := [[⟨['c'], some ["1"], none⟩]]

def payment : InterceptRequest :=
  { outgoingRequestedChanId := "1", paymentHash := ['a'], outgoingAmountMsat := 20000000 }

end LibreWallet.Lsps2
