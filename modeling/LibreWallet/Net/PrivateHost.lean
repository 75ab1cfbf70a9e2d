import LibreWallet.Text.Words

/-
  Net/PrivateHost.lean --- the two filters against private hosts.

  Mirrors `isPrivateHost` of `libre-nwc-push-gateway/src/index.ts` and of
  `ws-bridge/src/allowlist.ts`, which are kept in sync by hand: `mappedIpv4` is the same text in
  both, and the rules on an IPv4 text are not.  A host is the list of its UTF-16 code units.
-/

set_option autoImplicit false

namespace LibreWallet.Net

open Text

/-! ## What both filters do -/

/-- `replace(/^\[|\]$/g, "")` -/
def stripBrackets (t : List Nat) : List Nat :=
  let inner := if t.head? = some 91 then t.tail else t
  if inner.getLast? = some 93 then inner.dropLast else inner

/-- The text that a filter looks at. -/
def bare (unicode : List Nat → List Nat) (host : List Nat) : List Nat :=
  stripBrackets (toLowerCase unicode host)

/-- `${a}.${b}.${c}.${d}` -/
def dotted (a b c d : Nat) : List Nat :=
  numeral 10 a ++ 46 :: (numeral 10 b ++ 46 :: (numeral 10 c ++ 46 :: numeral 10 d))

/-- `^(\d{1,3}\.\d{1,3}\.\d{1,3}\.\d{1,3})$` -/
def isDotted (t : List Nat) : Bool :=
  let parts := t.splitOn 46
  parts.length == 4 && parts.all fun p => 1 ≤ p.length && p.length ≤ 3 && p.all digit

/-- `^([0-9a-f]{1,4}):([0-9a-f]{1,4})$` -/
def hexPair (t : List Nat) : Option (Nat × Nat) :=
  match t.splitOn 58 with
  | [hi, lo] =>
    if [hi, lo].all fun p => 1 ≤ p.length && p.length ≤ 4 && p.all hexDigit then
      some (valueOf 16 hi, valueOf 16 lo)
    else none
  | _ => none

/-- `mappedIpv4` -/
def mappedIpv4 (h : List Nat) : Option (List Nat) :=
  if begins (literal "::ffff:") h then
    if isDotted (h.drop 7) then some (h.drop 7)
    else (hexPair (h.drop 7)).map fun (hi, lo) =>
      dotted (hi >>> 8 &&& 0xff) (hi &&& 0xff) (lo >>> 8 &&& 0xff) (lo &&& 0xff)
  else none

/-- `/^f[cd][0-9a-f]{2}:/` -/
def uniqueLocal : List CharClass := [exactly 102, between 99 100, hexDigit, hexDigit, exactly 58]

/-- The rules on a text that is neither IPv4 nor a mapped form. -/
def privateIpv6 (h : List Nat) : Bool := begins uniqueLocal h || begins (literal "fe80:") h

/-- The names that are private as they are. -/
def privateName (h : List Nat) : Bool :=
  h = codes "localhost" || h = codes "::1" || h = codes "::"

/-! ## The push gateway's -/

namespace Gateway

/-- `ip.match(/^172\.(\d+)\./)`, and what is in the parentheses. -/
def octetAfter172 (ip : List Nat) : Option (List Nat) :=
  let octet := (ip.drop 4).takeWhile digit
  if begins (literal "172.") ip ∧ octet ≠ [] ∧ ((ip.drop 4).dropWhile digit).head? = some 46 then
    some octet
  else none

def isPrivateIpv4 (ip : List Nat) : Bool :=
  ip = codes "0.0.0.0" ||
    (begins (literal "127.") ip || begins (literal "10.") ip || begins (literal "169.254.") ip) ||
    begins (literal "192.168.") ip ||
    (octetAfter172 ip).any fun m => 16 ≤ valueOf 10 m && valueOf 10 m ≤ 31

def isPrivateHost (unicode : List Nat → List Nat) (host : List Nat) : Bool :=
  let h := bare unicode host
  if privateName h then true
  else
    match mappedIpv4 h with
    | some mapped => isPrivateIpv4 mapped
    | none => isPrivateIpv4 h || privateIpv6 h

end Gateway

/-! ## The bridge's -/

namespace Bridge

/-- The alternatives of `PRIVATE_V4`. -/
def PRIVATE_V4 : List (List CharClass) :=
  [literal "127.", literal "10.", literal "192.168.", literal "169.254.", literal "0.",
    literal "172." ++ [exactly 49, between 54 57, exactly 46],
    literal "172." ++ [exactly 50, digit, exactly 46],
    literal "172." ++ [exactly 51, between 48 49, exactly 46],
    [exactly 50, exactly 50, between 52 57, exactly 46],
    [exactly 50, exactly 51, digit, exactly 46]]

def isPrivateIpv4 (ip : List Nat) : Bool := PRIVATE_V4.any fun re => begins re ip

def isPrivateHost (unicode : List Nat → List Nat) (host : List Nat) : Bool :=
  let h := bare unicode host
  if privateName h then true
  else
    match mappedIpv4 h with
    | some mapped => isPrivateIpv4 mapped
    | none => privateIpv6 h || isPrivateIpv4 h

end Bridge

example : Gateway.isPrivateHost id (codes "[::ffff:7f00:1]") = true := by decide

/-! ## Where the rules on an IPv4 text differ -/

/-- A first octet of 0, without being `0.0.0.0`. -/
def zeroNet (ip : List Nat) : Bool := begins (literal "0.") ip && ip ≠ codes "0.0.0.0"

/-- 224 to 239. -/
def multicast (ip : List Nat) : Bool :=
  begins [exactly 50, exactly 50, between 52 57, exactly 46] ip ||
    begins [exactly 50, exactly 51, digit, exactly 46] ip

/-- A second octet of 16 to 31 after 172 that is written with leading zeros. -/
def padded172 (ip : List Nat) : Bool :=
  (Gateway.octetAfter172 ip).any fun m => m.length ≠ 2 && (16 ≤ valueOf 10 m && valueOf 10 m ≤ 31)

/-- The rules on an IPv4 text that only one of the filters has. -/
def differ (ip : List Nat) : Bool := zeroNet ip || multicast ip || padded172 ip

section Ipv4

variable {ip t : List Nat}

theorem eq_append_of_begins {s : String} (h : begins (literal s) ip = true) :
    ip = codes s ++ ip.drop (codes s).length := by
  obtain ⟨t, rfl⟩ := begins_literal.mp h
  rw [List.drop_left]

/-- Two digits after `172.` that make 16 to 31. -/
theorem begins_two_iff : ([[exactly 49, between 54 57, exactly 46], [exactly 50, digit, exactly 46],
      [exactly 51, between 48 49, exactly 46]].any fun re => begins re t) = true ↔
    ∃ m, m = t.takeWhile digit ∧ (t.dropWhile digit).head? = some 46 ∧ m.length = 2 ∧
      16 ≤ valueOf 10 m ∧ valueOf 10 m ≤ 31 := by
  constructor
  · intro h
    obtain ⟨x, y, rest, rfl, hx, hy, hv⟩ : ∃ x y rest, t = x :: y :: 46 :: rest ∧
        digit x = true ∧ digit y = true ∧ 16 ≤ (x - 48) * 10 + (y - 48) ∧ (x - 48) * 10 + (y - 48) ≤ 31 := by
      rcases t with _ | ⟨x, _ | ⟨y, _ | ⟨z, rest⟩⟩⟩
      · simp at h
      · simp at h
      · simp at h
      · simp [between] at h
        refine ⟨x, y, rest, ?_, ?_, ?_, ?_⟩
        · simp; omega
        · simp; omega
        · simp; omega
        · omega
    have hdot : digit 46 = false := rfl
    have hlt : x < 58 ∧ y < 58 := by
      simp at hx hy
      omega
    refine ⟨[x, y], by simp [hx, hy, hdot], by simp [hx, hy, hdot],
      rfl, ?_⟩
    simpa [valueOf, digitValue, hlt.1, hlt.2] using hv
  · rintro ⟨m, hm, hdot, hlen, hlo, hhi⟩
    obtain ⟨x, y, rfl⟩ := List.length_eq_two.mp hlen
    have ht : t = x :: y :: t.dropWhile digit := by
      conv_lhs => rw [← List.takeWhile_append_dropWhile (p := digit) (l := t), ← hm]
      rfl
    have hdig : ∀ c ∈ [x, y], digit c = true := fun c hc => List.mem_takeWhile_imp (hm ▸ hc)
    have hx := hdig x (by simp)
    have hy := hdig y (by simp)
    cases hd : t.dropWhile digit with
    | nil => simp [hd] at hdot
    | cons z rest =>
      simp only [hd, List.head?_cons, Option.some.injEq] at hdot
      subst hdot
      rw [ht, hd]
      simp only [digit_iff] at hx hy
      have hlt : x < 58 ∧ y < 58 := by omega
      simp [valueOf, digitValue, hlt.1, hlt.2] at hlo hhi
      simp [between]
      omega

/-- The octet after `172.`, for a text that begins so. -/
theorem octetAfter172_append (t : List Nat) : Gateway.octetAfter172 (codes "172." ++ t) =
    if t.takeWhile digit ≠ [] ∧ (t.dropWhile digit).head? = some 46 then some (t.takeWhile digit)
    else none := by
  have hdrop : (codes "172." ++ t).drop 4 = t := rfl
  rw [Gateway.octetAfter172, hdrop, begins_literal.mpr (List.prefix_append _ _)]
  simp

/-- After `172.` the gateway goes by the number, and the bridge by two digits. -/
theorem isPrivateIpv4_eq_iff_of_172 (t : List Nat) :
    Gateway.isPrivateIpv4 (codes "172." ++ t) = Bridge.isPrivateIpv4 (codes "172." ++ t) ↔
      differ (codes "172." ++ t) = false := by
  have htwo := begins_two_iff (t := t)
  have hgateway : Gateway.isPrivateIpv4 (codes "172." ++ t) =
      (Gateway.octetAfter172 (codes "172." ++ t)).any fun m =>
        16 ≤ valueOf 10 m && valueOf 10 m ≤ 31 := by
    simp [Gateway.isPrivateIpv4, literal, codes]
  have hbridge : Bridge.isPrivateIpv4 (codes "172." ++ t) =
      [[exactly 49, between 54 57, exactly 46], [exactly 50, digit, exactly 46],
        [exactly 51, between 48 49, exactly 46]].any fun re => begins re t := by
    simp [Bridge.isPrivateIpv4, Bridge.PRIVATE_V4, literal, codes]
  have hdiffer : differ (codes "172." ++ t) = padded172 (codes "172." ++ t) := by
    simp [differ, zeroNet, multicast, literal, codes]
  rw [hgateway, hbridge, hdiffer, padded172, octetAfter172_append, Bool.eq_iff_iff, htwo]
  generalize t.takeWhile digit = m
  by_cases hdot : (t.dropWhile digit).head? = some 46
  · by_cases hlen : m.length = 2
    · have hne : m ≠ [] := by
        rintro rfl
        cases hlen
      simp [hdot, hlen, hne]
    · by_cases hne : m = []
      · simp [hne]
      · simp [hdot, hlen, hne]
  · simp [hdot]

/-- A rule fails where it fails on a literal that it begins with. -/
theorem begins_literal_append_eq_false {s : String} (h : begins (literal s) ip = false)
    (qs : List CharClass) : begins (literal s ++ qs) ip = false := by
  have key : ∀ (ps : List CharClass) (t : List Nat), begins ps t = false → begins (ps ++ qs) t = false := by
    intro ps
    induction ps with
    | nil => simp
    | cons p ps ih =>
      intro t ht
      cases t with
      | nil => rfl
      | cons c t =>
        rw [begins_cons_cons, Bool.and_eq_false_iff] at ht
        rw [List.cons_append, begins_cons_cons, Bool.and_eq_false_iff]
        exact ht.imp id (ih t)
  exact key _ _ h

/-- What is left of the gateway's rules elsewhere. -/
theorem gateway_of_not_172 (h : begins (literal "172.") ip = false) :
    Gateway.isPrivateIpv4 ip = (ip = codes "0.0.0.0" || (begins (literal "127.") ip ||
      begins (literal "10.") ip || begins (literal "169.254.") ip || begins (literal "192.168.") ip)) := by
  have hnone : Gateway.octetAfter172 ip = none := by
    rw [Gateway.octetAfter172, h]
    simp
  simp [Gateway.isPrivateIpv4, hnone, Bool.or_assoc]

/-- What is left of the bridge's. -/
theorem bridge_of_not_172 (h : begins (literal "172.") ip = false) :
    Bridge.isPrivateIpv4 ip = (begins (literal "127.") ip || begins (literal "10.") ip ||
      begins (literal "169.254.") ip || begins (literal "192.168.") ip || begins (literal "0.") ip ||
      multicast ip) := by
  have h172 := begins_literal_append_eq_false h
  rw [Bridge.isPrivateIpv4, Bridge.PRIVATE_V4]
  simp only [List.any_cons, List.any_nil, h172, multicast, Bool.or_false, Bool.false_or]
  ac_rfl

/-- Elsewhere the bridge has two rules more, and the gateway the text `0.0.0.0`. -/
theorem isPrivateIpv4_eq_iff_of_not_172 (h : begins (literal "172.") ip = false) :
    Gateway.isPrivateIpv4 ip = Bridge.isPrivateIpv4 ip ↔ differ ip = false := by
  have hpadded : padded172 ip = false := by
    rw [padded172, Gateway.octetAfter172, h]
    simp
  rw [gateway_of_not_172 h, bridge_of_not_172 h, differ, zeroNet, hpadded, Bool.or_false]
  -- The four rules that both have ask for a first digit 1, and those of one of them for another.
  by_cases hfour : (begins (literal "127.") ip || begins (literal "10.") ip ||
      begins (literal "169.254.") ip || begins (literal "192.168.") ip) = true
  · obtain ⟨t, rfl⟩ : ∃ t, ip = 49 :: t := by
      simp only [Bool.or_eq_true, begins_literal] at hfour
      rcases hfour with ((⟨t, rfl⟩ | ⟨t, rfl⟩) | ⟨t, rfl⟩) | ⟨t, rfl⟩
      all_goals exact ⟨_, rfl⟩
    have hzero : begins (literal "0.") (49 :: t) = false := rfl
    have hmulticast : multicast (49 :: t) = false := rfl
    simp [hfour, hzero, hmulticast]
  · have hnot := Bool.eq_false_iff.mpr hfour
    by_cases hall : ip = codes "0.0.0.0"
    · subst hall
      decide
    · simp [hnot, hall]

theorem isPrivateIpv4_eq_iff (ip : List Nat) :
    Gateway.isPrivateIpv4 ip = Bridge.isPrivateIpv4 ip ↔ differ ip = false := by
  cases h : begins (literal "172.") ip with
  | false => exact isPrivateIpv4_eq_iff_of_not_172 h
  | true =>
    rw [eq_append_of_begins h]
    exact isPrivateIpv4_eq_iff_of_172 _

end Ipv4

/-! ## Where the two filters agree -/

/-- The text whose beginning decides: the IPv4 address of a mapped form, and else all of it. -/
def judged (h : List Nat) : List Nat := (mappedIpv4 h).getD h

theorem differ_of_privateName {h : List Nat} (hn : privateName h = true) : differ (judged h) = false := by
  simp only [privateName, Bool.or_eq_true, decide_eq_true_eq] at hn
  rcases hn with (rfl | rfl) | rfl
  · decide
  · decide
  · decide

/-- The rules on IPv6 texts ask for an `f`, those that differ for a digit. -/
theorem differ_of_privateIpv6 {h : List Nat} (hp : privateIpv6 h = true) : differ h = false := by
  obtain ⟨t, rfl⟩ : ∃ t, h = 102 :: t := by
    cases h with
    | nil => cases hp
    | cons c t =>
      refine ⟨t, ?_⟩
      simp only [privateIpv6, uniqueLocal, literal, codes] at hp
      simp at hp
      rcases hp with hp | hp
      · rw [hp.1]
      · rw [hp.1]
  rfl

/-- The two filters give the same answer on a host exactly when the rules on IPv4 texts agree on the
text that is judged. -/
theorem isPrivateHost_eq_iff (unicode : List Nat → List Nat) (host : List Nat) :
    Gateway.isPrivateHost unicode host = Bridge.isPrivateHost unicode host ↔
      differ (judged (bare unicode host)) = false := by
  rw [Gateway.isPrivateHost, Bridge.isPrivateHost]
  generalize bare unicode host = h
  cases hname : privateName h with
  | true => simp [differ_of_privateName hname]
  | false =>
    cases hmapped : mappedIpv4 h with
    | some m => simp [judged, hmapped, isPrivateIpv4_eq_iff]
    | none =>
      cases hsix : privateIpv6 h with
      | true => simp [judged, hmapped, differ_of_privateIpv6 hsix]
      | false => simp [judged, hmapped, isPrivateIpv4_eq_iff]

/-- A multicast address is private for the bridge alone. -/
theorem isPrivateHost_ne_of_multicast : ¬ ∀ (unicode : List Nat → List Nat) (host : List Nat),
    Gateway.isPrivateHost unicode host = Bridge.isPrivateHost unicode host := by
  intro h
  have hm := h id (codes "224.0.0.1")
  revert hm
  decide

end LibreWallet.Net
