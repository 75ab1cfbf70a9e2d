import LibreWallet.Bolt11.Hex

/-
  Bolt11/HintSelection.lean --- the channels that an invoice advertises.

  Mirrors `libre-listener-wallet/src/hint-selection.ts`, and the part of `buildInvoice` in `index.ts`
  that has the hints appended to the invoice LDK made.
-/

set_option autoImplicit false

namespace LibreWallet.Bolt11

open Numbers Text

/-! ## Channels -/

/-- `CounterpartyForwardingInfo` of LDK: without a pointer it is a wrapper of nothing. -/
structure LdkForwardingInfo where
  ptr : Option Nat
  feeBaseMsat : UInt32
  feeProportionalMillionths : UInt32
  cltvExpiryDelta : UInt16

structure ForwardingInfo where
  feeBaseMsat : UInt32
  feeProportionalMillionths : UInt32
  cltvExpiryDelta : UInt16

def forwardingInfoFromLdk (fwd : Option LdkForwardingInfo) : Option ForwardingInfo :=
  fwd.bind fun fwd =>
    if fwd.ptr = none ∨ fwd.ptr = some 0 then none
    else if fwd.cltvExpiryDelta = 0 then none
    else some ⟨fwd.feeBaseMsat, fwd.feeProportionalMillionths, fwd.cltvExpiryDelta⟩

/-- What LDK says of a channel. -/
structure ChannelDetails where
  isUsable : Bool
  nodeId : List UInt8
  nodeId_length : nodeId.length = 33
  inboundPaymentScid : Option UInt64
  shortChannelId : Option UInt64
  inboundCapacityMsat : UInt64
  forwardingInfo : Option LdkForwardingInfo

structure HintableChannel where
  isUsable : Bool
  counterpartyNodeId : List Nat
  inboundPaymentScid : Option UInt64
  shortChannelId : Option UInt64
  inboundCapacityMsat : UInt64
  forwardingInfo : Option ForwardingInfo

def hintable (ch : ChannelDetails) : HintableChannel where
  isUsable := ch.isUsable
  counterpartyNodeId := bytesToHex ch.nodeId
  inboundPaymentScid := ch.inboundPaymentScid
  shortChannelId := ch.shortChannelId
  inboundCapacityMsat := ch.inboundCapacityMsat
  forwardingInfo := forwardingInfoFromLdk ch.forwardingInfo

def hintableChannels (channels : List ChannelDetails) : List HintableChannel := channels.map hintable

/-! ## Selection -/

def MAX_HINTS : Nat := 3

/-- `c.inboundPaymentScid ?? c.shortChannelId` -/
def HintableChannel.scid (c : HintableChannel) : Option UInt64 := c.inboundPaymentScid <|> c.shortChannelId

def HintableChannel.eligible (c : HintableChannel) : Bool :=
  c.isUsable && c.forwardingInfo.isSome && c.scid.isSome

/-- The hint of a channel that has what it takes. -/
def HintableChannel.hint (c : HintableChannel) : HintHop where
  srcNodeId := c.counterpartyNodeId
  scid := (c.scid.getD 0).toNat
  feeBaseMsat := .integer ((c.forwardingInfo.map ForwardingInfo.feeBaseMsat).getD 0).toNat
  feeProportionalMillionths := .integer ((c.forwardingInfo.map ForwardingInfo.feeProportionalMillionths).getD 0).toNat
  cltvExpiryDelta := .integer ((c.forwardingInfo.map ForwardingInfo.cltvExpiryDelta).getD 0).toNat

/-- The comparison of the sort, which is stable. -/
def largerFirst (a b : HintableChannel) : Bool := b.inboundCapacityMsat ≤ a.inboundCapacityMsat

def selectHintChannels (channels : List HintableChannel) : List HintHop :=
  (((channels.filter HintableChannel.eligible).mergeSort largerFirst).take MAX_HINTS).map HintableChannel.hint

def prioritizeHints (priority : Option HintHop) (channels : List HintableChannel) : List HintHop :=
  let capacityHints := selectHintChannels channels
  match priority with
  | none => capacityHints
  | some priority => (priority :: capacityHints.filter fun h => h.scid ≠ priority.scid).take MAX_HINTS

section Code

variable (im : Imports)

/-- The invoice that goes out.  A failure is logged, and the invoice goes out as LDK made it. -/
def finalInvoice (invoice : List Nat) (priorityHint : Option HintHop) (channels : List ChannelDetails)
    (nodeSecretKey : List UInt8) : List Nat :=
  let hinted : Except Failure (List Nat) := do
    if priorityHint.isSome then
      let hints := prioritizeHints priorityHint (hintableChannels channels)
      if hints.length ≠ 0 then appendRouteHints im invoice hints nodeSecretKey else .ok invoice
    else if !(← hasRouteHint im invoice) then
      let hints := selectHintChannels (hintableChannels channels)
      if hints.length ≠ 0 then appendRouteHints im invoice hints nodeSecretKey else .ok invoice
    else .ok invoice
  match hinted with
  | .ok text => text
  | .error _ => invoice

end Code

/-! ## The largest of a list -/

section Largest

variable {α : Type}

/-- `chosen` are the `k` of `l` with the largest keys, the largest first. -/
structure Largest (key : α → UInt64) (k : Nat) (l chosen : List α) : Prop where
  count : chosen.length = min k l.length
  sorted : chosen.Pairwise fun a b => key b ≤ key a
  rest : ∃ rest, (chosen ++ rest).Perm l ∧ ∀ c ∈ chosen, ∀ r ∈ rest, key r ≤ key c

theorem largest_of_sort (key : α → UInt64) (k : Nat) (l : List α) :
    Largest key k l ((l.mergeSort fun a b => decide (key b ≤ key a)).take k) := by
  have hsorted : (l.mergeSort fun a b => decide (key b ≤ key a)).Pairwise fun a b => key b ≤ key a := by
    refine (List.pairwise_mergeSort ?_ ?_ l).imp fun h => of_decide_eq_true h
    · intro a b c hab hbc
      rw [decide_eq_true_eq] at hab hbc ⊢
      exact UInt64.le_trans hbc hab
    · intro a b
      rw [Bool.or_eq_true, decide_eq_true_eq, decide_eq_true_eq]
      exact UInt64.le_total _ _
  have hsplit := List.take_append_drop k (l.mergeSort fun a b => decide (key b ≤ key a))
  refine ⟨?_, hsorted.sublist (List.take_sublist _ _),
    (l.mergeSort fun a b => decide (key b ≤ key a)).drop k, ?_, ?_⟩
  · rw [List.length_take, List.length_mergeSort]
  · rw [hsplit]
    exact List.mergeSort_perm _ _
  · rw [← hsplit, List.pairwise_append] at hsorted
    exact fun c hc r hr => hsorted.2.2 c hc r hr

end Largest

/-! ## What goes out -/

section Invoice

variable {im : Imports}

theorem hint_inRange (ch : ChannelDetails) : (hintable ch).hint.InRange := by
  obtain ⟨hlen, hhex⟩ := bytesToHex_digits ch.nodeId
  rw [ch.nodeId_length] at hlen
  exact ⟨⟨hlen, hhex⟩, ⟨_, UInt64.toNat_lt _, rfl⟩, ⟨_, UInt32.toNat_lt _, rfl⟩, ⟨_, UInt32.toNat_lt _, rfl⟩,
    ⟨_, UInt16.toNat_lt _, rfl⟩⟩

/-- The hints that an invoice is given: of the usable channels with a known policy those that can take
the most in, at most three, after the one that must be there. -/
def Advertises (priorityHint : Option HintHop) (hinted : Bool) (channels : List ChannelDetails)
    (hints : List HintHop) : Prop :=
  ∃ chosen, Largest (·.inboundCapacityMsat) MAX_HINTS ((hintableChannels channels).filter (·.eligible)) chosen ∧
    hints = match priorityHint with
      | some p => (p :: (chosen.map (·.hint)).filter fun h => h.scid ≠ p.scid).take MAX_HINTS
      | none => if hinted then [] else chosen.map (·.hint)

/-- The hints that the code takes are such, and each of a channel has its place in a hop. -/
theorem advertises_selected (priorityHint : Option HintHop) (channels : List ChannelDetails) :
    let hints := prioritizeHints priorityHint (hintableChannels channels)
    Advertises priorityHint false channels hints ∧ hints.length ≤ MAX_HINTS ∧
      ((∀ p ∈ priorityHint, p.InRange) → ∀ hint ∈ hints, hint.InRange) := by
  have hlargest := largest_of_sort (fun c : HintableChannel => c.inboundCapacityMsat) MAX_HINTS
    ((hintableChannels channels).filter HintableChannel.eligible)
  have hselected : ∀ hint ∈ selectHintChannels (hintableChannels channels), hint.InRange := by
    intro hint hmem
    obtain ⟨c, hc, rfl⟩ := List.mem_map.mp hmem
    have hc := List.mem_of_mem_filter (List.mem_mergeSort.mp (List.mem_of_mem_take hc))
    obtain ⟨ch, -, rfl⟩ := List.mem_map.mp hc
    exact hint_inRange ch
  refine ⟨⟨_, hlargest, ?_⟩, ?_, ?_⟩
  · cases priorityHint <;> rfl
  · cases priorityHint with
    | none =>
      show ((_ : List HintableChannel).map _).length ≤ _
      rw [List.length_map]
      exact List.length_take_le _ _
    | some p => exact List.length_take_le _ _
  · intro hpriority hint hmem
    cases priorityHint with
    | none => exact hselected hint hmem
    | some p =>
      rcases List.mem_cons.mp (List.mem_of_mem_take hmem) with rfl | hmem
      · exact hpriority hint rfl
      · exact hselected hint (List.mem_of_mem_filter hmem)

/-- Without a hint to append, an invoice goes out as it was. -/
theorem finalInvoice_of_none {text : List Nat} {inv : Invoice} {secret : List UInt8}
    (hread : readInvoice im text = some inv) {channels : List ChannelDetails}
    (h : inv.hinted = true ∨ selectHintChannels (hintableChannels channels) = []) :
    finalInvoice im text none channels secret = text := by
  unfold finalInvoice
  rw [hasRouteHint_of_read hread]
  rcases h with h | h
  · simp [h, bind, Except.bind]
  · cases inv.hinted <;> simp [h, bind, Except.bind]

/-- With hints to append that are appended, the result goes out. -/
theorem finalInvoice_of_append {text result : List Nat} {inv : Invoice} {secret : List UInt8}
    (hread : readInvoice im text = some inv) {priorityHint : Option HintHop} {channels : List ChannelDetails}
    (h : priorityHint = none → inv.hinted = false)
    (hne : prioritizeHints priorityHint (hintableChannels channels) ≠ [])
    (hresult : appendRouteHints im text (prioritizeHints priorityHint (hintableChannels channels)) secret = .ok result) :
    finalInvoice im text priorityHint channels secret = result := by
  unfold finalInvoice
  cases priorityHint with
  | some p =>
    rw [Option.isSome_some, if_pos rfl]
    dsimp only
    rw [if_pos (mt List.length_eq_zero_iff.mp hne), hresult]
  | none =>
    have hresult : appendRouteHints im text (selectHintChannels (hintableChannels channels)) secret = .ok result :=
      hresult
    have hne : (selectHintChannels (hintableChannels channels)).length ≠ 0 := mt List.length_eq_zero_iff.mp hne
    rw [hasRouteHint_of_read hread, h rfl, Option.isSome_none, if_neg Bool.false_ne_true]
    simp only [bind, Except.bind, Bool.not_false, if_true, if_pos hne, hresult]

/-- An invoice of the wallet's own goes out as it was where it has no hint to be given; else, where the hints
have their places and the result is not too long, with its parts as they were, the hints after its fields, and
signed by the same key. -/
theorem invoice_hinted (laws : im.Lawful) {text : List Nat} {inv : Invoice} {secret key : List UInt8}
    (hread : readInvoice im text = some inv) (hkey : im.getPublicKey secret = some key)
    (hpayee : payee im text = .ok (bytesToHex key)) (priorityHint : Option HintHop)
    (channels : List ChannelDetails) :
    ∃ hints, Advertises priorityHint inv.hinted channels hints ∧ hints.length ≤ MAX_HINTS ∧
      (hints = [] → finalInvoice im text priorityHint channels secret = text) ∧
      (hints ≠ [] → (∀ p ∈ priorityHint, p.InRange) → inv.length + 85 * hints.length ≤ LIMIT →
        ∃ routes signature,
          readInvoice im (finalInvoice im text priorityHint channels secret) =
            some { inv with fields := inv.fields ++ routes, signature } ∧
          List.Forall₂ (Carries im) routes hints ∧
          payee im (finalInvoice im text priorityHint channels secret) = .ok (bytesToHex key)) := by
  obtain ⟨hadvertises, hcount, hrange⟩ := advertises_selected priorityHint channels
  by_cases hleft : priorityHint = none ∧ inv.hinted = true
  · -- it has a hint, and none must be there
    obtain ⟨rfl, hhinted⟩ := hleft
    obtain ⟨chosen, hlargest, -⟩ := hadvertises
    refine ⟨[], ⟨chosen, hlargest, ?_⟩, Nat.zero_le _, fun _ => finalInvoice_of_none hread (.inl hhinted),
      fun hne => absurd rfl hne⟩
    rw [hhinted]
    rfl
  · have hneeds : priorityHint = none → inv.hinted = false := fun hnone =>
      Bool.not_eq_true _ ▸ not_and.mp hleft hnone
    refine ⟨_, ?_, hcount, fun hnil => ?_, fun hne hpriority hfits => ?_⟩
    · cases priorityHint with
      | some p => exact hadvertises
      | none => exact hneeds rfl ▸ hadvertises
    · cases priorityHint with
      | some p => cases hnil
      | none => exact finalInvoice_of_none hread (.inr hnil)
    · obtain ⟨result, routes, signature, hresult, hread', hcarries, hpayee', -⟩ :=
        appendRouteHints_of_own laws hread hkey hpayee hne (hrange hpriority) hfits
      rw [finalInvoice_of_append hread hneeds hne hresult]
      exact ⟨routes, signature, hread', hcarries, hpayee'⟩

end Invoice

/-- The channel of the hint that the sample invoice is given. -/
def sampleChannel : ChannelDetails where
  isUsable := true
  nodeId := bigEndian 33 0x029e03a901b85534ff1e92c43c74431f7ce72046060fcf7a95c37e148f78c77255
  nodeId_length := length_bigEndian 33 _
  inboundPaymentScid := some 72623859790382856
  shortChannelId := none
  inboundCapacityMsat := 5000000
  forwardingInfo := some ⟨some 8, 1, 20, 3⟩

/-- The sample invoice is given the hint of the channel, and goes out as it was without a channel. -/
theorem invoice_hinted_sample :
    ∃ inv hints routes signature, readInvoice sampleImports sampleInvoice = some inv ∧
      Advertises none false [sampleChannel] hints ∧ hints = [(hintable sampleChannel).hint] ∧
      readInvoice sampleImports (finalInvoice sampleImports sampleInvoice none [sampleChannel] ownSecret) =
        some { inv with fields := inv.fields ++ routes, signature } ∧
      List.Forall₂ (Carries sampleImports) routes hints ∧
      payee sampleImports (finalInvoice sampleImports sampleInvoice none [sampleChannel] ownSecret) =
        .ok (bytesToHex ownKey) ∧
      finalInvoice sampleImports sampleInvoice none [] ownSecret = sampleInvoice := by
  have hread : (readInvoice sampleImports sampleInvoice).any
      (fun inv => inv.length + 85 ≤ LIMIT && !inv.hinted) = true := by
    decide +kernel
  obtain ⟨inv, hinv, hsample⟩ := (Option.any_eq_true _ _).mp hread
  rw [Bool.and_eq_true, decide_eq_true_eq, Bool.not_eq_true'] at hsample
  have hpayee : payee sampleImports sampleInvoice = .ok (bytesToHex ownKey) := by decide +kernel
  have hown : sampleImports.getPublicKey ownSecret = some ownKey := by decide +kernel
  obtain ⟨hints, hadvertises, -, -, happended⟩ :=
    invoice_hinted sampleImports_lawful hinv hown hpayee none [sampleChannel]
  obtain ⟨none', hnone, -, hleft, -⟩ := invoice_hinted sampleImports_lawful hinv hown hpayee none []
  rw [hsample.2] at hadvertises hnone
  have hhints : hints = [(hintable sampleChannel).hint] := by
    obtain ⟨chosen, hlargest, rfl⟩ := hadvertises
    obtain ⟨rest, hperm, -⟩ := hlargest.rest
    have hcount : chosen.length = 1 := hlargest.count
    have hall : chosen ++ rest = [hintable sampleChannel] := List.perm_singleton.mp hperm
    obtain ⟨c, rfl⟩ := List.length_eq_one_iff.mp hcount
    cases hall
    rfl
  have hempty : none' = [] := by
    obtain ⟨chosen, hlargest, rfl⟩ := hnone
    have hcount : chosen.length = 0 := hlargest.count
    rw [List.length_eq_zero_iff.mp hcount]
    rfl
  obtain ⟨routes, signature, h⟩ := happended (by rw [hhints]; exact List.cons_ne_nil _ _) (by simp)
    (by rw [hhints]; exact hsample.1)
  exact ⟨inv, hints, routes, signature, hinv, hadvertises, hhints, h.1, h.2.1, h.2.2, hleft hempty⟩

end LibreWallet.Bolt11
