import LibreWallet.Numbers.Doubles
import LibreWallet.Text.Words

/-
  Spending/StrictInt.lean --- the texts that are read as a number of satoshis.

  Mirrors `parseStrictInt` of `shared/src/strict-int.ts`, `parseCapInput` of
  `wallet-core/src/webln/cap-input.ts`, `resolveGrantLimitSats` of
  `wallet-core/src/webln/approval-grant.ts` and `approve` of
  `browser-extension/src/approval/approval.ts`.  `Number` of digits is the nearest double.
-/

set_option autoImplicit false

namespace LibreWallet.Spending

open Text Numbers

/-- `Number(trimmed)` must be a safe integer and print as the text that was read. -/
def parseStrictInt (raw : List Nat) : Option Nat :=
  let trimmed := trim raw
  if trimmed ≠ [] ∧ trimmed.all digit = true then
    match round (valueOf 10 trimmed) with
    | .fin value => if value < 2 ^ 53 ∧ numeral 10 value = trimmed then some value else none
    | _ => none
  else none

def parseCapInput (raw : List Nat) : Option Nat := (parseStrictInt raw).filter (0 < ·)

/-- The argument is `String(raw ?? "")`; `none` where it throws.  Zero is no limit. -/
def resolveGrantLimitSats (raw : List Nat) : Option Nat :=
  let s := trim raw
  if s = [48] then some 0 else parseCapInput s

/-- What the approval window sends, if it sends anything. -/
def approve (unlimited : Bool) (cap : List Nat) : Option Nat :=
  if unlimited then some 0 else parseCapInput cap

section Reading

variable {n : Nat} {raw : List Nat}

theorem trim_numeral (n : Nat) : trim (numeral 10 n) = numeral 10 n := by
  refine trim_of_not_white fun c hc => ?_
  have hrange := mem_numeral_ten hc
  exact isWhite_of_ge (by omega) (by omega)

/-- Different numbers are printed differently. -/
theorem eq_of_numeral_eq {m : Nat} (h : numeral 10 m = numeral 10 n) : m = n := by
  have hvalue := congrArg (valueOf 10) h
  rwa [valueOf_numeral (by omega) (by omega), valueOf_numeral (by omega) (by omega)] at hvalue

/-- Exactly the printed safe integers are read, with white space around them or not. -/
theorem parseStrictInt_iff :
    parseStrictInt raw = some n ↔ n < 2 ^ 53 ∧ trim raw = numeral 10 n := by
  constructor
  · intro h
    unfold parseStrictInt at h
    dsimp only at h
    split at h
    · split at h
      · rename_i value _
        split at h
        · rename_i hsafe
          obtain rfl := Option.some.inj h
          exact ⟨hsafe.1, hsafe.2.symm⟩
        · cases h
      · cases h
    · cases h
  · rintro ⟨hsafe, htrim⟩
    have hdigits : (numeral 10 n).all digit = true := by
      rw [List.all_eq_true]
      intro c hc
      exact (digit_iff c).mpr (mem_numeral_ten hc)
    have hvalue : valueOf 10 (numeral 10 n) = n := valueOf_numeral (by omega) (by omega)
    unfold parseStrictInt
    simp only [htrim, hdigits, hvalue, round_of_lt hsafe, numeral_ne_nil, ne_eq, not_false_eq_true,
      and_self, if_true, hsafe]

theorem parseCapInput_iff :
    parseCapInput raw = some n ↔ 0 < n ∧ n < 2 ^ 53 ∧ trim raw = numeral 10 n := by
  rw [parseCapInput, Option.filter_eq_some_iff, parseStrictInt_iff]
  simp only [decide_eq_true_eq]
  exact and_comm

theorem trim_trim (raw : List Nat) : trim (trim raw) = trim raw := Words.trim_trim raw

/-- Zero is read from its own text and from no other. -/
theorem resolveGrantLimitSats_iff :
    resolveGrantLimitSats raw = some n ↔ n < 2 ^ 53 ∧ trim raw = numeral 10 n := by
  have hzero : numeral 10 0 = [48] := rfl
  unfold resolveGrantLimitSats
  dsimp only
  split
  · rename_i htext
    rw [htext]
    constructor
    · intro h
      obtain rfl := Option.some.inj h
      exact ⟨by norm_num, hzero.symm⟩
    · rintro ⟨-, h⟩
      exact congrArg some (eq_of_numeral_eq (hzero.trans h))
  · rename_i htext
    rw [parseCapInput_iff, trim_trim]
    refine ⟨fun h => h.2, fun h => ⟨Nat.pos_of_ne_zero ?_, h⟩⟩
    rintro rfl
    exact htext (h.2.trans hzero)

/-- A printed limit is read back as itself. -/
theorem eq_of_resolves {k : Nat} (h : resolveGrantLimitSats (numeral 10 n) = some k) : k = n := by
  obtain ⟨-, htext⟩ := resolveGrantLimitSats_iff.mp h
  rw [trim_numeral] at htext
  exact (eq_of_numeral_eq htext).symm

end Reading

/-! ## From the approval window to the grant -/

/-- The background grants the limit that the window sent, for every field the user left: no limit
exactly where the box was ticked, and else the positive number whose digits were typed. -/
theorem approve_resolves (unlimited : Bool) (cap : List Nat) (sent : Nat) :
    approve unlimited cap = some sent ↔
      resolveGrantLimitSats (numeral 10 sent) = some sent ∧
        (if unlimited then sent = 0 else 0 < sent ∧ trim cap = numeral 10 sent) := by
  have hresolves : resolveGrantLimitSats (numeral 10 sent) = some sent ↔ sent < 2 ^ 53 := by
    rw [resolveGrantLimitSats_iff, trim_numeral, and_iff_left rfl]
  rw [hresolves, approve]
  cases unlimited with
  | true =>
    simp only [if_true, Option.some.injEq]
    exact ⟨fun h => ⟨h ▸ by norm_num, h.symm⟩, fun h => h.2.symm⟩
  | false =>
    simp only [Bool.false_eq_true, if_false, parseCapInput_iff]
    exact and_left_comm

end LibreWallet.Spending
