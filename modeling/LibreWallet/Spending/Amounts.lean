import LibreWallet.Text.Words

/-
  Spending/Amounts.lean --- what a payment is charged, and what it moves.

  Three places derive the satoshis that a cap or a budget is debited: the prefix of a
  bolt11 string, decoded by `wallet-core/src/webln/bolt11-amount.ts` for the gates of the
  extension and of the embed; the amount that LDK reads from an invoice, divided in
  `nwc-manager.ts`; and a number that the page or the client supplies.  What is handed to
  LDK is the invoice's own amount, or 1000 times the supplied satoshis.

  A text is the list of its UTF-16 code units.  Numbers are JavaScript's: an integer that is not representable is rounded to the nearest
  double, ties to even.
-/

set_option autoImplicit false

namespace LibreWallet.Spending

open Text

/-! ## Numbers -/

/-- The place of the last bit that a double keeps of `n`. -/
def ulp (n : Nat) : Nat := 2 ^ (Nat.log2 n - 52)

/-- Whether rounding to a double makes `n` larger. -/
def roundsUp (n : Nat) : Bool :=
  ulp n < 2 * (n % ulp n) || (2 * (n % ulp n) = ulp n && n / ulp n % 2 = 1)

/-- `Number(n)` of a big integer, and any product of two integers. -/
def double (n : Nat) : Nat := (n / ulp n + if roundsUp n then 1 else 0) * ulp n

theorem ulp_pos (n : Nat) : 0 < ulp n := Nat.two_pow_pos _

/-- Rounding makes a number larger or leaves at most itself. -/
theorem double_le_iff (n : Nat) : double n ≤ n ↔ roundsUp n = false := by
  have hpos := ulp_pos n
  have hdiv := Nat.div_add_mod n (ulp n)
  have hlt := Nat.mod_lt n hpos
  unfold double
  cases h : roundsUp n with
  | false =>
    simp only [Bool.false_eq_true, if_false, Nat.add_zero, iff_true]
    exact Nat.div_mul_le_self n (ulp n)
  | true =>
    simp only [if_true, Bool.true_eq_false, iff_false, Nat.not_le]
    calc n = ulp n * (n / ulp n) + n % ulp n := hdiv.symm
      _ < ulp n * (n / ulp n) + ulp n := Nat.add_lt_add_left hlt _
      _ = (n / ulp n + 1) * ulp n := by ring

/-- Integers below 2^53 are doubles. -/
theorem double_eq_self {n : Nat} (h : n < 2 ^ 53) : double n = n := by
  have hlog : Nat.log2 n - 52 = 0 := by
    rcases Nat.eq_zero_or_pos n with rfl | hpos
    · simp
    · have := (Nat.log2_lt (Nat.ne_of_gt hpos)).mpr h
      omega
  have hulp : ulp n = 1 := by rw [ulp, hlog, Nat.pow_zero]
  have hup : roundsUp n = false := by simp [roundsUp, hulp, Nat.mod_one]
  rw [double, hup, hulp]
  simp

/-! ## The prefix of a bolt11 string -/

inductive Multiplier where
  | whole
  | milli
  | micro
  | nano
  | pico
  deriving DecidableEq, Repr

namespace Multiplier

/-- `num / den` millisatoshis for each unit. -/
def num : Multiplier → Nat
  | whole => 100000000000
  | milli => 100000000
  | micro => 100000
  | nano => 100
  | pico => 100000000000

def den : Multiplier → Nat
  | pico => 1000000000000
  | _ => 1

theorem den_pos (m : Multiplier) : 0 < m.den := by
  cases m <;> decide

/-- The multiplier that a suffix stands for. -/
def ofSuffix (t : List Nat) : Option Multiplier :=
  if t = [] then some whole
  else if t = codes "m" then some milli
  else if t = codes "u" then some micro
  else if t = codes "n" then some nano
  else if t = codes "p" then some pico
  else none

end Multiplier

/-- What stands before the last `1`, if there is one. -/
def beforeSeparator (s : List Nat) : Option (List Nat) :=
  match s.reverse.dropWhile (fun c => c ≠ 49) with
  | [] => none
  | _ :: rest => some rest.reverse

def currencies : List (List Nat) := [codes "bcrt", codes "tbs", codes "bc", codes "tb", codes "sb"]

/-- The amount in the prefix: digits and a multiplier, or none.  `unicode` is how texts beyond
ASCII are lowered. -/
def parseAmount (unicode : List Nat → List Nat) (bolt11 : List Nat) :
    Except String (Option (Nat × Multiplier)) := do
  let s := toLowerCase unicode (trim bolt11)
  if !begins (literal "ln") s then throw "Not a BOLT11 invoice"
  match beforeSeparator s with
  | none => throw "Malformed BOLT11 (no separator)"
  | some hrp =>
    let afterLn := hrp.drop 2
    match currencies.find? fun c => c.isPrefixOf afterLn with
    | none => throw "Unknown BOLT11 currency prefix"
    | some currency =>
      match afterLn.drop currency.length with
      | [] => return none
      | amountPart =>
        let digits := amountPart.takeWhile digit
        match Multiplier.ofSuffix (amountPart.dropWhile digit) with
        | some m =>
          if digits.isEmpty then throw "Malformed BOLT11 amount"
          else return some (valueOf 10 digits, m)
        | none => throw "Malformed BOLT11 amount"

/-- `digits * num / den` millisatoshis in satoshis, rounded to the nearest. -/
def roundedSats (digits : Nat) (m : Multiplier) : Nat :=
  (digits * m.num + m.den * 1000 / 2) / (m.den * 1000)

def invoiceAmountSats (unicode : List Nat → List Nat) (bolt11 : List Nat) :
    Except String (Option Nat) := do
  let amount ← parseAmount unicode bolt11
  return amount.map fun (digits, m) => double (roundedSats digits m)

/-! ## Payments -/

/-- Which WebLN gate a page talks to. -/
inductive Gate where
  | extension
  | embed
  deriving DecidableEq, Repr

inductive Payment where
  | sendPayment (gate : Gate) (bolt11 : List Nat)
  /-- `keysend` with a positive integer number of satoshis. -/
  | keysend (gate : Gate) (amountSats : Nat)
  | payInvoice (bolt11 : List Nat)
  /-- `pay_keysend` with a positive integer number of millisatoshis. -/
  | payKeysend (amountMsat : Nat)
  deriving DecidableEq, Repr

/-- What LDK reads: `amount_milli_satoshis` of the invoices that parse and have one. -/
abbrev Ldk := List Nat → Option Nat

/-- LDK reads the amount that the prefix states, and its pico-bitcoins fit 64 bits. -/
structure ReadsPrefix (unicode : List Nat → List Nat) (ldk : Ldk) : Prop where
  amount : ∀ bolt11 msat, ldk bolt11 = some msat → ∃ digits m,
    parseAmount unicode bolt11 = .ok (some (digits, m)) ∧ digits * m.num = msat * m.den
  bound : ∀ bolt11 msat, ldk bolt11 = some msat → 10 * msat < 2 ^ 64

/-- `BigInt(amountSats * 1000)`: it throws when the product is not finite. -/
def principalMsat (amountSats : Nat) : Option Nat :=
  if double (1000 * amountSats) < 2 ^ 1024 then some (double (1000 * amountSats)) else none

/-- The satoshis that a gate or a budget debits, if it lets the payment pass. -/
def charged (unicode : List Nat → List Nat) (ldk : Ldk) : Payment → Option Nat
  | .sendPayment .extension bolt11 =>
    match invoiceAmountSats unicode (trim bolt11) with
    | .ok amt => amt
    | .error _ => none
  | .sendPayment .embed bolt11 =>
    match invoiceAmountSats unicode (trim bolt11) with
    | .ok (some amt) => if amt = 0 then none else some amt
    | _ => none
  | .keysend _ amountSats => if amountSats = 0 then none else some amountSats
  | .payInvoice bolt11 => (ldk bolt11).map fun msat => double (msat / 1000)
  | .payKeysend amountMsat => if amountMsat = 0 then none else some (double (amountMsat / 1000))

/-- The principal that is handed to LDK. -/
def moved (ldk : Ldk) : Payment → Option Nat
  | .sendPayment .extension bolt11 => ldk (trim bolt11)
  | .sendPayment .embed bolt11 => (ldk (trim bolt11)).filter fun msat => decide (0 < msat)
  | .keysend _ amountSats => principalMsat amountSats
  | .payInvoice bolt11 => ldk bolt11
  | .payKeysend amountMsat => principalMsat (double (amountMsat / 1000))

/-- When a payment is charged at least what it moves: a sub-satoshi remainder of an
invoice is none, or is rounded up by the gate; and the product by 1000 is not rounded up. -/
def Covered (ldk : Ldk) : Payment → Prop
  | .sendPayment _ bolt11 =>
    ∀ msat, ldk (trim bolt11) = some msat → msat % 1000 = 0 ∨ 500 ≤ msat % 1000
  | .keysend _ amountSats => roundsUp (1000 * amountSats) = false
  | .payInvoice bolt11 => ∀ msat, ldk bolt11 = some msat → msat % 1000 = 0
  | .payKeysend amountMsat => roundsUp (1000 * double (amountMsat / 1000)) = false

/-- A payment that passes and is handed to LDK: its charge and its principal. -/
def admitted (unicode : List Nat → List Nat) (ldk : Ldk) (p : Payment) : Option (Nat × Nat) :=
  match charged unicode ldk p, moved ldk p with
  | some c, some m => some (c, m)
  | _, _ => none

section Coverage

variable {unicode : List Nat → List Nat} {ldk : Ldk} {p : Payment}

theorem admitted_eq {c m : Nat} (h : admitted unicode ldk p = some (c, m)) :
    charged unicode ldk p = some c ∧ moved ldk p = some m := by
  unfold admitted at h
  split at h
  · rename_i hc hm
    cases h
    exact ⟨hc, hm⟩
  · cases h

/-! ## What is charged covers what is moved -/

/-- The satoshis of the prefix are the invoice's millisatoshis, rounded to the nearest. -/
theorem roundedSats_eq {digits msat : Nat} {m : Multiplier}
    (h : digits * m.num = msat * m.den) : roundedSats digits m = (msat + 500) / 1000 := by
  have hhalf : m.den * 1000 / 2 = m.den * 500 := by omega
  rw [roundedSats, h, hhalf]
  calc (msat * m.den + m.den * 500) / (m.den * 1000)
      = (m.den * (msat + 500)) / (m.den * 1000) := by ring_nf
    _ = (msat + 500) / 1000 := Nat.mul_div_mul_left _ _ m.den_pos

/-- What the gates read from an invoice that LDK pays. -/
theorem invoiceAmountSats_eq (hldk : ReadsPrefix unicode ldk) {bolt11 : List Nat} {msat : Nat}
    (h : ldk bolt11 = some msat) :
    invoiceAmountSats unicode bolt11 = .ok (some ((msat + 500) / 1000)) := by
  obtain ⟨digits, m, hparse, hnum⟩ := hldk.amount bolt11 msat h
  have hbound := hldk.bound bolt11 msat h
  have hsmall : (msat + 500) / 1000 < 2 ^ 53 := by omega
  rw [invoiceAmountSats, hparse]
  change Except.ok (some (double (roundedSats digits m))) = _
  rw [roundedSats_eq hnum, double_eq_self hsmall]

theorem charged_sendPayment (hldk : ReadsPrefix unicode ldk) {gate : Gate} {bolt11 : List Nat}
    {c m : Nat} (hc : charged unicode ldk (.sendPayment gate bolt11) = some c)
    (hm : moved ldk (.sendPayment gate bolt11) = some m) :
    ldk (trim bolt11) = some m ∧ c = (m + 500) / 1000 := by
  have hread : ldk (trim bolt11) = some m := by
    cases gate with
    | extension => exact hm
    | embed => exact (Option.filter_eq_some_iff.mp hm).1
  have hsats := invoiceAmountSats_eq hldk hread
  refine ⟨hread, ?_⟩
  cases gate with
  | extension =>
    simp only [charged, hsats, Option.some.injEq] at hc
    exact hc.symm
  | embed =>
    simp only [charged, hsats] at hc
    split at hc
    · cases hc
    · cases hc
      rfl

theorem moved_keysend {s m : Nat} (h : principalMsat s = some m) :
    m ≤ 1000 * s ↔ roundsUp (1000 * s) = false := by
  rw [principalMsat] at h
  split at h
  · cases h
    exact double_le_iff (1000 * s)
  · cases h

/-- The charge of one payment covers its principal exactly when its amount rounds that way. -/
theorem covers_iff (hldk : ReadsPrefix unicode ldk) {c m : Nat}
    (h : admitted unicode ldk p = some (c, m)) : m ≤ 1000 * c ↔ Covered ldk p := by
  obtain ⟨hc, hm⟩ := admitted_eq h
  cases p with
  | sendPayment gate bolt11 =>
    obtain ⟨hread, rfl⟩ := charged_sendPayment hldk hc hm
    simp only [Covered, hread, Option.some.injEq, forall_eq']
    omega
  | keysend gate s =>
    simp only [charged] at hc
    split at hc
    · cases hc
    · cases hc
      exact moved_keysend hm
  | payInvoice bolt11 =>
    have hread : ldk bolt11 = some m := hm
    have hbound := hldk.bound bolt11 m hread
    have hsmall : m / 1000 < 2 ^ 53 := by omega
    simp only [charged, hread, Option.map_some, double_eq_self hsmall, Option.some.injEq] at hc
    simp only [Covered, hread, Option.some.injEq, forall_eq']
    omega
  | payKeysend n =>
    simp only [charged] at hc
    split at hc
    · cases hc
    · cases hc
      exact moved_keysend hm

/-- The charges and the principals of a sequence of payments. -/
def totals (unicode : List Nat → List Nat) (ldk : Ldk) (ps : List Payment) : Nat × Nat :=
  let amounts := ps.filterMap (admitted unicode ldk)
  ((amounts.map Prod.fst).sum, (amounts.map Prod.snd).sum)

theorem totals_cons {ps : List Payment} :
    totals unicode ldk (p :: ps) =
      ((admitted unicode ldk p).elim 0 Prod.fst + (totals unicode ldk ps).1,
        (admitted unicode ldk p).elim 0 Prod.snd + (totals unicode ldk ps).2) := by
  cases h : admitted unicode ldk p with
  | none => simp [totals, h]
  | some x => simp [totals, h]

/-- The charges of payments that are covered cover everything that they move. -/
theorem totals_covered (hldk : ReadsPrefix unicode ldk) {ps : List Payment}
    (h : ∀ p ∈ ps, Covered ldk p) :
    (totals unicode ldk ps).2 ≤ 1000 * (totals unicode ldk ps).1 := by
  induction ps with
  | nil => exact Nat.le_refl 0
  | cons p ps ih =>
    have hps := ih fun q hq => h q (List.mem_cons_of_mem _ hq)
    rw [totals_cons]
    cases hp : admitted unicode ldk p with
    | none => simpa [hp] using hps
    | some x =>
      obtain ⟨c, m⟩ := x
      have hcm := (covers_iff hldk hp).mpr (h p List.mem_cons_self)
      simp only [Option.elim_some]
      omega

end Coverage

/-- A payment is charged at least what it moves exactly when it is covered; and a cap of
`cap` satoshis bounds what covered payments move together. -/
theorem charged_covers_moved (unicode : List Nat → List Nat) (ldk : Ldk)
    (hldk : ReadsPrefix unicode ldk) :
    (∀ p c m, admitted unicode ldk p = some (c, m) → (m ≤ 1000 * c ↔ Covered ldk p)) ∧
      ∀ ps cap, (∀ p ∈ ps, Covered ldk p) → (totals unicode ldk ps).1 ≤ cap →
        (totals unicode ldk ps).2 ≤ 1000 * cap := by
  refine ⟨fun p c m h => covers_iff hldk h, fun ps cap h hcap => ?_⟩
  have htotal := totals_covered hldk h
  omega

/-- A signed invoice of 15 nano-bitcoins. -/
def invoice1500 : List Nat :=
  codes "lnbc15n1pvjluezpp5qqqsyqcyq5rqwzqfqq" ++ codes "qsyqcyq5rqwzqfqqqsyqcyq5rqwzqfqypqsp" ++
    codes "5zyg3zyg3zyg3zyg3zyg3zyg3zyg3zyg3zyg" ++ codes "3zyg3zyg3zyg3zygsdqq9qrsgqs8s27eyjr7" ++
    codes "7nklhm8e6palrtxymrgxc0jwuvlhs5umgpy7" ++ codes "hc7fsqhwge24n75lme2v4ufjk9wzxfvjx73e" ++
    codes "yyuuwlmfxy5ayrpsynq5gpcqjvwy"

/-- A signed invoice of 4 nano-bitcoins. -/
def invoice400 : List Nat :=
  codes "lnbc4n1pvjluezpp5qqqsyqcyq5rqwzqfqqq" ++ codes "syqcyq5rqwzqfqqqsyqcyq5rqwzqfqypqsp5" ++
    codes "zyg3zyg3zyg3zyg3zyg3zyg3zyg3zyg3zyg3" ++ codes "zyg3zyg3zyg3zygsdqq9qrsgqs3k0en8ngyy" ++
    codes "vlh7h2ll6p7wtdpe3gaury92hzsdmzcft3g8" ++ codes "49lfp9h8qfpzxx5g57a9um6pf8hwrwne5hg3" ++
    codes "y9vxwl5xtlcd8ssa7eusp57lhqr"

/-- LDK, as far as these two invoices go. -/
def sampleLdk : Ldk := fun bolt11 =>
  if bolt11 = invoice1500 then some 1500 else if bolt11 = invoice400 then some 400 else none

theorem sampleLdk_reads : ReadsPrefix id sampleLdk := by
  constructor
  · intro bolt11 msat h
    unfold sampleLdk at h
    split at h
    · rename_i hinvoice
      cases h
      exact ⟨15, .nano, by rw [hinvoice]; decide +kernel, rfl⟩
    · split at h
      · rename_i hinvoice
        cases h
        exact ⟨4, .nano, by rw [hinvoice]; decide +kernel, rfl⟩
      · cases h
  · intro bolt11 msat h
    unfold sampleLdk at h
    split at h
    · cases h
      decide
    · split at h <;> cases h
      decide

/-- An invoice of 1500 msat is charged two satoshis by the gate of the extension, also after a
no-break space. -/
theorem charged_covers_moved_sample :
    1500 ≤ 1000 * 2 ↔ Covered sampleLdk (.sendPayment .extension (0xa0 :: invoice1500)) :=
  (charged_covers_moved id sampleLdk sampleLdk_reads).1 _ 2 1500 (by decide +kernel)

/-- The extension charges nothing for an invoice of 400 msat, and pays it. -/
theorem uncharged_invoice : ∃ (unicode : List Nat → List Nat) (ldk : Ldk) (p : Payment) (c m : Nat),
    ReadsPrefix unicode ldk ∧ admitted unicode ldk p = some (c, m) ∧ ¬ m ≤ 1000 * c :=
  ⟨id, sampleLdk, .sendPayment .extension invoice400, 0, 400, sampleLdk_reads, by decide +kernel,
    by decide⟩

end LibreWallet.Spending
