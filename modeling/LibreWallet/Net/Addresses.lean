import LibreWallet.Net.PrivateHost

/-
  Net/Addresses.lean --- the two filters against private hosts, over all addresses.

  An address is a number and a range is a block of a prefix length; the host is what the URL parser
  serializes it to.
-/

set_option autoImplicit false

namespace LibreWallet.Net

open Text

/-! ## Addresses and ranges -/

structure Ipv4 where
  val : Nat
  lt : val < 2 ^ 32

structure Ipv6 where
  val : Nat
  lt : val < 2 ^ 128

inductive Address where
  | v4 (x : Ipv4)
  | v6 (x : Ipv6)

/-- `base/len`, for numbers of `width` bits. -/
def inBlock (width len base x : Nat) : Bool := x / 2 ^ (width - len) == base / 2 ^ (width - len)

def quad (a b c d : Nat) : Nat := ((a * 256 + b) * 256 + c) * 256 + d

/-- The IPv4 ranges that both filters name. -/
def namedIpv4 (x : Nat) : Bool :=
  x == 0 || inBlock 32 8 (quad 127 0 0 0) x || inBlock 32 8 (quad 10 0 0 0) x ||
    inBlock 32 12 (quad 172 16 0 0) x || inBlock 32 16 (quad 192 168 0 0) x ||
    inBlock 32 16 (quad 169 254 0 0) x

/-- `fe80::/10` -/
def linkLocal (x : Nat) : Bool := inBlock 128 10 (0xfe80 * 2 ^ 112) x

/-- The IPv6 ranges that both filters name. -/
def namedIpv6 (x : Nat) : Bool :=
  x == 0 || x == 1 || inBlock 128 7 (0xfc00 * 2 ^ 112) x || linkLocal x ||
    (inBlock 128 96 (0xffff * 2 ^ 32) x && namedIpv4 (x % 2 ^ 32))

def Address.named : Address → Bool
  | .v4 x => namedIpv4 x.val
  | .v6 x => namedIpv6 x.val

/-! ## The URL parser's texts -/

def Ipv4.serialize (x : Ipv4) : List Nat :=
  dotted (x.val / 2 ^ 24) (x.val / 2 ^ 16 % 256) (x.val / 2 ^ 8 % 256) (x.val % 256)

/-- The eight pieces. -/
def pieces (x : Nat) : List Nat :=
  [x / 2 ^ 112, x / 2 ^ 96 % 65536, x / 2 ^ 80 % 65536, x / 2 ^ 64 % 65536, x / 2 ^ 48 % 65536,
    x / 2 ^ 32 % 65536, x / 2 ^ 16 % 65536, x % 65536]

/-- The length of the run of zero pieces at an index. -/
def zerosFrom (ps : List Nat) (i : Nat) : Nat := ((ps.drop i).takeWhile (· == 0)).length

/-- The first longest run of more than one zero piece. -/
def compressIndex (ps : List Nat) : Option Nat :=
  let longest := ((List.range ps.length).map (zerosFrom ps)).foldl max 0
  if longest ≤ 1 then none else (List.range ps.length).find? fun i => zerosFrom ps i == longest

/-- The pieces from an index on; `ignore0` says that a compressed run goes on. -/
def serializePieces (compress : Option Nat) : Nat → Bool → List Nat → List Nat
  | _, _, [] => []
  | i, ignore0, p :: ps =>
    if ignore0 ∧ p = 0 then serializePieces compress (i + 1) true ps
    else if compress = some i then
      codes (if i = 0 then "::" else ":") ++ serializePieces compress (i + 1) true ps
    else numeral 16 p ++ (codes (if ps = [] then "" else ":") ++ serializePieces compress (i + 1) false ps)

def Ipv6.serialize (x : Ipv6) : List Nat :=
  serializePieces (compressIndex (pieces x.val)) 0 false (pieces x.val)

/-- `hostname` -/
def Address.host : Address → List Nat
  | .v4 x => x.serialize
  | .v6 x => 91 :: (x.serialize ++ [93])

example : (Address.v6 ⟨0xfe80 * 2 ^ 112 + 0xa * 2 ^ 32 + 1, by decide⟩).host = codes "[fe80::a:0:1]" := by
  decide

/-! ## A filter sees the serialization -/

/-- Neither an upper-case letter nor a bracket. -/
def Plain (c : Nat) : Prop := hexDigit c = true ∨ c = 46 ∨ c = 58

section Bare

variable {b n : Nat} {t : List Nat}

theorem plain_of_mem_numeral (hb : 1 < b) (hb' : b ≤ 16) {c : Nat} (hc : c ∈ numeral b n) : Plain c := by
  obtain ⟨d, hd, rfl⟩ := mem_numeral hb hc
  have hrange := digitCode_range (hd.trans_le hb')
  left
  simp [hexDigit, between]
  omega

theorem Plain.lt {c : Nat} (h : Plain c) : c < 128 ∧ ¬(65 ≤ c ∧ c ≤ 90) ∧ c ≠ 91 ∧ c ≠ 93 := by
  simp [Plain, hexDigit, between] at h
  omega

/-- Without brackets, the text is as it was. -/
theorem bare_of_plain (unicode : List Nat → List Nat) (h : ∀ c ∈ t, Plain c) : bare unicode t = t := by
  have hhead : t.head? ≠ some 91 := fun hc => (h 91 (List.mem_of_mem_head? hc)).lt.2.2.1 rfl
  have hlast : t.getLast? ≠ some 93 := fun hc => (h 93 (List.mem_of_getLast? hc)).lt.2.2.2 rfl
  rw [bare, toLowerCase_of_lower unicode fun c hc => ⟨(h c hc).lt.1, (h c hc).lt.2.1⟩]
  simp [stripBrackets, hhead, hlast]

/-- The brackets come off. -/
theorem bare_brackets (unicode : List Nat → List Nat) (h : ∀ c ∈ t, Plain c) :
    bare unicode (91 :: (t ++ [93])) = t := by
  rw [bare, toLowerCase_of_lower]
  · simp [stripBrackets]
  · intro c hc
    simp only [List.mem_cons, List.mem_append, List.not_mem_nil, or_false] at hc
    rcases hc with rfl | hc | rfl
    · omega
    · exact ⟨(h c hc).lt.1, (h c hc).lt.2.1⟩
    · omega

end Bare

theorem plain_dotted (a b c d : Nat) : ∀ x ∈ dotted a b c d, Plain x := by
  intro x hx
  simp only [dotted, List.mem_append, List.mem_cons] at hx
  rcases hx with hx | rfl | hx | rfl | hx | rfl | hx
  · exact plain_of_mem_numeral (by decide) (by decide) hx
  · exact .inr (.inl rfl)
  · exact plain_of_mem_numeral (by decide) (by decide) hx
  · exact .inr (.inl rfl)
  · exact plain_of_mem_numeral (by decide) (by decide) hx
  · exact .inr (.inl rfl)
  · exact plain_of_mem_numeral (by decide) (by decide) hx

theorem plain_serializePieces (compress : Option Nat) (i : Nat) (ignore0 : Bool) (ps : List Nat) :
    ∀ x ∈ serializePieces compress i ignore0 ps, Plain x := by
  have hcolons : ∀ c ∈ codes "::", Plain c := by
    intro c hc
    simp [codes] at hc
    exact .inr (.inr hc)
  have hcolon : ∀ c ∈ codes ":", Plain c := by
    intro c hc
    simp [codes] at hc
    exact .inr (.inr hc)
  induction ps generalizing i ignore0 with
  | nil => simp [serializePieces]
  | cons p ps ih =>
    intro x hx
    rw [serializePieces] at hx
    split at hx
    · exact ih _ _ x hx
    · split at hx
      · rcases List.mem_append.mp hx with hx | hx
        · split at hx
          · exact hcolons x hx
          · exact hcolon x hx
        · exact ih _ _ x hx
      · rcases List.mem_append.mp hx with hx | hx
        · exact plain_of_mem_numeral (by decide) (by decide) hx
        · rcases List.mem_append.mp hx with hx | hx
          · split at hx
            · cases hx
            · exact hcolon x hx
          · exact ih _ _ x hx

theorem bare_host (unicode : List Nat → List Nat) (x : Address) : bare unicode x.host =
    match x with
    | .v4 x => x.serialize
    | .v6 x => x.serialize := by
  cases x with
  | v4 x => exact bare_of_plain unicode (plain_dotted _ _ _ _)
  | v6 x => exact bare_brackets unicode (plain_serializePieces _ _ _ _)

/-! ## IPv4 texts -/

section Ipv4

variable {a b c d : Nat}

theorem takeWhile_numeral (n : Nat) (t : List Nat) :
    (numeral 10 n ++ 46 :: t).takeWhile digit = numeral 10 n ∧
      (numeral 10 n ++ 46 :: t).dropWhile digit = 46 :: t := by
  have hall : ∀ c ∈ numeral 10 n, digit c = true := by
    intro c hc
    obtain ⟨d, hd, rfl⟩ := mem_numeral (by decide) hc
    exact (digit_iff _).mpr (digitCode_range_ten hd)
  constructor
  · rw [List.takeWhile_append_of_pos hall]
    simp [digit, between]
  · rw [List.dropWhile_append_of_pos hall]
    simp [digit, between]

theorem isPrivateIpv4_of_172 (hlo : 16 ≤ b) (hhi : b ≤ 31) :
    Gateway.isPrivateIpv4 (dotted 172 b c d) = true ∧ Bridge.isPrivateIpv4 (dotted 172 b c d) = true := by
  obtain ⟨htake, hdrop⟩ := takeWhile_numeral b (numeral 10 c ++ 46 :: numeral 10 d)
  have hlen : (numeral 10 b).length = 2 := by
    rw [numeral_of_le (by decide) (by omega), numeral_of_lt (by omega)]
    rfl
  have hvalue := valueOf_numeral (b := 10) (n := b) (by decide) (by decide)
  have htext : dotted 172 b c d = codes "172." ++ (numeral 10 b ++ 46 :: (numeral 10 c ++ 46 :: numeral 10 d)) := by
    rfl
  have hgateway : Gateway.isPrivateIpv4 (dotted 172 b c d) = true := by
    rw [htext, Gateway.isPrivateIpv4, octetAfter172_append, htake, hdrop]
    simp [numeral_ne_nil, hvalue, hlo, hhi]
  have hagree := (isPrivateIpv4_eq_iff (dotted 172 b c d)).mpr (by
    rw [htext]
    have hzero : zeroNet (codes "172." ++ (numeral 10 b ++ 46 :: (numeral 10 c ++ 46 :: numeral 10 d))) = false := rfl
    have hmulticast : multicast (codes "172." ++ (numeral 10 b ++ 46 :: (numeral 10 c ++ 46 :: numeral 10 d))) = false := rfl
    rw [differ, hzero, hmulticast, padded172, octetAfter172_append, htake, hdrop]
    simp [numeral_ne_nil, hlen])
  exact ⟨hgateway, hagree ▸ hgateway⟩

/-- A dotted text is not a mapped form. -/
theorem mappedIpv4_dotted : mappedIpv4 (dotted a b c d) = none := by
  obtain ⟨x, t, ht⟩ := List.exists_cons_of_ne_nil (numeral_ne_nil (b := 10) (n := a))
  have hx : 48 ≤ x ∧ x ≤ 57 := by
    obtain ⟨e, he, rfl⟩ := mem_numeral (b := 10) (n := a) (c := x) (by decide) (ht ▸ List.mem_cons_self)
    exact digitCode_range_ten he
  have hnot : begins (literal "::ffff:") (dotted a b c d) = false := by
    have hcolon : exactly 58 x = false := beq_eq_false_iff_ne.mpr (by omega)
    have hrule : literal "::ffff:" = exactly 58 :: literal ":ffff:" := rfl
    rw [dotted, ht, List.cons_append, hrule, begins_cons_cons, hcolon, Bool.false_and]
  rw [mappedIpv4, hnot]
  rfl

/-- On the ranges that both name, both filters say so. -/
theorem isPrivateIpv4_of_named {x : Ipv4} (h : namedIpv4 x.val = true) :
    Gateway.isPrivateIpv4 x.serialize = true ∧ Bridge.isPrivateIpv4 x.serialize = true := by
  have hlt := x.lt
  simp only [namedIpv4, inBlock, quad, Bool.or_eq_true, beq_iff_eq] at h
  rw [Ipv4.serialize]
  rcases h with ((((h | h) | h) | h) | h) | h
  · rw [h]
    decide
  · have h0 : x.val / 2 ^ 24 = 127 := by omega
    rw [h0]
    exact ⟨rfl, rfl⟩
  · have h0 : x.val / 2 ^ 24 = 10 := by omega
    rw [h0]
    exact ⟨rfl, rfl⟩
  · have h0 : x.val / 2 ^ 24 = 172 := by omega
    rw [h0]
    exact isPrivateIpv4_of_172 (by omega) (by omega)
  · have h0 : x.val / 2 ^ 24 = 192 := by omega
    have h1 : x.val / 2 ^ 16 % 256 = 168 := by omega
    rw [h0, h1]
    exact ⟨rfl, rfl⟩
  · have h0 : x.val / 2 ^ 24 = 169 := by omega
    have h1 : x.val / 2 ^ 16 % 256 = 254 := by omega
    rw [h0, h1]
    exact ⟨rfl, rfl⟩

end Ipv4

/-! ## IPv6 texts -/

section Ipv6

variable {p : Nat} {t : List Nat}

/-- A first piece that is not zero is written out. -/
theorem serialize_of_head {x : Ipv6} (h : x.val / 2 ^ 112 ≠ 0) :
    ∃ t, x.serialize = numeral 16 (x.val / 2 ^ 112) ++ 58 :: t := by
  have hzeros : zerosFrom (pieces x.val) 0 = 0 := by
    have hne : (x.val / 2 ^ 112 == 0) = false := beq_eq_false_iff_ne.mpr h
    simp only [zerosFrom, pieces, List.drop_zero, List.takeWhile_cons, hne]
    rfl
  have hcompress : compressIndex (pieces x.val) ≠ some 0 := by
    rw [compressIndex]
    split
    · simp
    · rename_i hlongest
      intro hfind
      have hat := List.find?_some hfind
      simp only [hzeros, beq_iff_eq] at hat
      omega
  refine ⟨serializePieces (compressIndex (pieces x.val)) 1 false (pieces x.val).tail, ?_⟩
  rw [Ipv6.serialize]
  generalize compressIndex (pieces x.val) = compress at hcompress
  rw [pieces, serializePieces, if_neg (by simp), if_neg hcompress, if_neg (List.cons_ne_nil _ _)]
  rfl

/-- A piece of four digits. -/
theorem numeral_four (hlo : 4096 ≤ p) (hhi : p < 65536) : numeral 16 p =
    [digitCode (p / 4096), digitCode (p / 256 % 16), digitCode (p / 16 % 16), digitCode (p % 16)] := by
  rw [numeral_of_le (by decide) (by omega), numeral_of_le (by decide) (by omega),
    numeral_of_le (by decide) (by omega), numeral_of_lt (by omega)]
  simp [Nat.div_div_eq_div_mul]

/-- A text that begins with `f` is private for the IPv6 rules only. -/
theorem isPrivateHost_of_f {unicode : List Nat → List Nat} {host : List Nat}
    (h : bare unicode host = 102 :: t) :
    Gateway.isPrivateHost unicode host = privateIpv6 (102 :: t) ∧
      Bridge.isPrivateHost unicode host = privateIpv6 (102 :: t) := by
  have hname : privateName (102 :: t) = false := rfl
  have hmapped : mappedIpv4 (102 :: t) = none := rfl
  have hgateway : Gateway.isPrivateIpv4 (102 :: t) = false := rfl
  have hbridge : Bridge.isPrivateIpv4 (102 :: t) = false := rfl
  rw [Gateway.isPrivateHost, Bridge.isPrivateHost, h]
  simp [hname, hmapped, hgateway, hbridge]

theorem digitCode_eq_iff {d e : Nat} (hd : d < 16) (he : e < 16) : digitCode d = digitCode e ↔ d = e := by
  refine ⟨fun h => ?_, congrArg _⟩
  rw [← digitValue_digitCode hd, h, digitValue_digitCode he]

theorem hexDigit_digitCode {d : Nat} (h : d < 16) : hexDigit (digitCode d) = true := by
  have hrange := digitCode_range h
  simp [hexDigit, between]
  omega

/-- A first piece from `fc00` on: only `fe81` to `febf` of the ranges is missed. -/
theorem privateIpv6_of_piece (hlo : 0xfc00 ≤ p) (hhi : p ≤ 0xfebf) (hnot : p < 0xfe00 ∨ 0xfe80 ≤ p) :
    privateIpv6 (numeral 16 p ++ 58 :: t) = true ↔ p ≤ 0xfe80 := by
  rw [numeral_four (by omega) (by omega), privateIpv6]
  have h15 : p / 4096 = 15 := by omega
  rw [h15]
  rcases Nat.lt_or_ge p 0xfe00 with hlocal | hlink
  · have hcd : p / 256 % 16 = 12 ∨ p / 256 % 16 = 13 := by omega
    have h16 := hexDigit_digitCode (d := p / 16 % 16) (by omega)
    have h1 := hexDigit_digitCode (d := p % 16) (by omega)
    have hc : between 99 100 (digitCode (p / 256 % 16)) = true := by
      rcases hcd with hcd | hcd
      · rw [hcd]
        rfl
      · rw [hcd]
        rfl
    have hf : exactly 102 (digitCode 15) = true := rfl
    simp only [uniqueLocal, List.cons_append, List.nil_append, begins_cons_cons, begins_nil, hf, hc, h16, h1]
    simp
    omega
  · have h14 : p / 256 % 16 = 14 := by omega
    have hcd : between 99 100 (digitCode 14) = false := rfl
    have h8 := digitCode_eq_iff (d := p / 16 % 16) (e := 8) (by omega) (by omega)
    have h0 := digitCode_eq_iff (d := p % 16) (e := 0) (by omega) (by omega)
    have hfe : exactly 102 (digitCode 15) = true ∧ exactly 101 (digitCode 14) = true := ⟨rfl, rfl⟩
    have hrule : literal "fe80:" = [exactly 102, exactly 101, exactly (digitCode 8), exactly (digitCode 0), exactly 58] := rfl
    rw [h14]
    simp only [uniqueLocal, hrule, List.cons_append, List.nil_append, begins_cons_cons, begins_nil, hcd, hfe.1,
      hfe.2, exactly_apply]
    simp [h8, h0]
    omega

/-- An IPv4-mapped address is written with its last two pieces. -/
theorem serialize_of_mapped {x : Ipv6} (h : x.val / 2 ^ 32 = 0xffff) :
    x.serialize = codes "::ffff:" ++ (numeral 16 (x.val / 2 ^ 16 % 65536) ++
      58 :: numeral 16 (x.val % 65536)) := by
  have hpieces : pieces x.val = [0, 0, 0, 0, 0, 0xffff, x.val / 2 ^ 16 % 65536, x.val % 65536] := by
    rw [pieces]
    congr 1
    · omega
    · congr 1
      · omega
      · congr 1
        · omega
        · congr 1
          · omega
          · congr 1
            · omega
            · congr 1
              omega
  have hcompress : ∀ hi lo : Nat, compressIndex [0, 0, 0, 0, 0, 0xffff, hi, lo] = some 0 := by
    intro hi lo
    by_cases hhi : hi = 0
    · by_cases hlo : lo = 0
      · simp [compressIndex, zerosFrom, List.range_succ, hhi, hlo]
      · simp [compressIndex, zerosFrom, List.range_succ, hhi, hlo]
    · by_cases hlo : lo = 0
      · simp [compressIndex, zerosFrom, List.range_succ, hhi, hlo]
      · simp [compressIndex, zerosFrom, List.range_succ, hhi, hlo]
  have hffff : numeral 16 0xffff = codes "ffff" := by decide
  rw [Ipv6.serialize, hpieces, hcompress]
  simp [serializePieces, hffff, codes]

theorem numeral_hex_mem {c : Nat} (h : c ∈ numeral 16 p) : hexDigit c = true ∧ c ≠ 46 ∧ c ≠ 58 := by
  obtain ⟨d, hd, rfl⟩ := mem_numeral (by decide) h
  have hrange := digitCode_range hd
  exact ⟨hexDigit_digitCode hd, by omega, by omega⟩

/-- The IPv4 address of a mapped form is read back. -/
theorem mappedIpv4_pieces (hi lo : Nat) (hhi : hi < 65536) (hlo : lo < 65536) :
    mappedIpv4 (codes "::ffff:" ++ (numeral 16 hi ++ 58 :: numeral 16 lo)) =
      some (dotted (hi / 256) (hi % 256) (lo / 256) (lo % 256)) := by
  have hsplit : (numeral 16 hi ++ 58 :: numeral 16 lo).splitOn 58 = [numeral 16 hi, numeral 16 lo] := by
    refine (congrArg _ ?_).trans (List.splitOn_intercalate 58 ?_ (List.cons_ne_nil _ _))
    · simp [List.intercalate]
    · intro l hl hc
      simp only [List.mem_cons, List.not_mem_nil, or_false] at hl
      rcases hl with rfl | rfl
      · exact (numeral_hex_mem hc).2.2 rfl
      · exact (numeral_hex_mem hc).2.2 rfl
  have hdots : (numeral 16 hi ++ 58 :: numeral 16 lo).splitOn 46 = [numeral 16 hi ++ 58 :: numeral 16 lo] := by
    refine (congrArg _ ?_).trans (List.splitOn_intercalate 46 ?_ (List.cons_ne_nil _ _))
    · simp [List.intercalate]
    · intro l hl hc
      rw [List.mem_singleton] at hl
      subst hl
      rcases List.mem_append.mp hc with hc | hc
      · exact (numeral_hex_mem hc).2.1 rfl
      · rcases List.mem_cons.mp hc with hc | hc
        · cases hc
        · exact (numeral_hex_mem hc).2.1 rfl
  have hgroup : ∀ n < 65536, (1 ≤ (numeral 16 n).length && (numeral 16 n).length ≤ 4 &&
      (numeral 16 n).all hexDigit) = true := by
    intro n hn
    have hpos : 1 ≤ (numeral 16 n).length := List.length_pos_iff.mpr numeral_ne_nil
    have hle : (numeral 16 n).length ≤ 4 := length_numeral_le (by decide) (by decide) hn
    have hall : (numeral 16 n).all hexDigit = true :=
      List.all_eq_true.mpr fun c hc => (numeral_hex_mem hc).1
    simp [hpos, hle, hall]
  have hbits : ∀ n < 65536, n >>> 8 &&& 0xff = n / 256 ∧ n &&& 0xff = n % 256 := by
    intro n hn
    rw [Nat.shiftRight_eq_div_pow, Nat.and_two_pow_sub_one_eq_mod _ 8, Nat.and_two_pow_sub_one_eq_mod _ 8]
    omega
  have hdrop : (codes "::ffff:" ++ (numeral 16 hi ++ 58 :: numeral 16 lo)).drop 7 =
      numeral 16 hi ++ 58 :: numeral 16 lo := rfl
  rw [mappedIpv4, if_pos (begins_literal.mpr (List.prefix_append _ _)), hdrop, isDotted, hdots, hexPair, hsplit]
  have hvalue : ∀ n, valueOf 16 (numeral 16 n) = n := fun n => valueOf_numeral (by decide) (by decide)
  have hnot : ([numeral 16 hi ++ 58 :: numeral 16 lo].length == 4 &&
      [numeral 16 hi ++ 58 :: numeral 16 lo].all fun p => 1 ≤ p.length && p.length ≤ 3 && p.all digit) = false := rfl
  rw [if_neg (Bool.eq_false_iff.mp hnot)]
  simp only [List.all_cons, hgroup hi hhi, hgroup lo hlo, List.all_nil, Bool.and_true, if_true, Option.map_some,
    hvalue, hbits hi hhi, hbits lo hlo]

/-- A text that stands for an IPv4 address is judged by the IPv4 rules. -/
theorem isPrivateHost_of_mapped {unicode : List Nat → List Nat} {host m : List Nat}
    (hm : mappedIpv4 (bare unicode host) = some m) (hg : Gateway.isPrivateIpv4 m = true)
    (hb : Bridge.isPrivateIpv4 m = true) :
    Gateway.isPrivateHost unicode host = true ∧ Bridge.isPrivateHost unicode host = true := by
  rw [Gateway.isPrivateHost, Bridge.isPrivateHost, hm]
  simp [hg, hb]

end Ipv6

/-! ## Soundness over all addresses -/

/-- The link-local addresses past `fe80::/16`. -/
def pastFe80 : Address → Bool
  | .v4 _ => false
  | .v6 x => linkLocal x.val && !inBlock 128 16 (0xfe80 * 2 ^ 112) x.val

section Sound

variable (unicode : List Nat → List Nat)

theorem isPrivateHost_of_v4 {x : Ipv4} (h : namedIpv4 x.val = true) :
    Gateway.isPrivateHost unicode (Address.v4 x).host = true ∧
      Bridge.isPrivateHost unicode (Address.v4 x).host = true := by
  obtain ⟨hg, hb⟩ := isPrivateIpv4_of_named h
  have hbare := bare_host unicode (.v4 x)
  simp only at hbare
  rw [Gateway.isPrivateHost, Bridge.isPrivateHost, hbare]
  have hmapped : mappedIpv4 x.serialize = none := mappedIpv4_dotted
  simp [hmapped, hg, hb]

/-- An address of `fc00::/7` or `fe80::/10`. -/
theorem isPrivateHost_of_head {x : Ipv6}
    (h : (inBlock 128 7 (0xfc00 * 2 ^ 112) x.val || linkLocal x.val) = true) :
    (Gateway.isPrivateHost unicode (Address.v6 x).host = true ∧
      Bridge.isPrivateHost unicode (Address.v6 x).host = true) ↔ pastFe80 (.v6 x) = false := by
  have hlt := x.lt
  simp only [linkLocal, inBlock, Bool.or_eq_true, beq_iff_eq] at h
  obtain ⟨t, ht⟩ := serialize_of_head (x := x) (by omega)
  have hpiece := privateIpv6_of_piece (p := x.val / 2 ^ 112) (t := t) (by omega) (by omega) (by omega)
  have hfour := numeral_four (p := x.val / 2 ^ 112) (by omega) (by omega)
  have h15 : x.val / 2 ^ 112 / 4096 = 15 := by omega
  have hf : digitCode 15 = 102 := rfl
  rw [h15, hf] at hfour
  have hbare := bare_host unicode (.v6 x)
  simp only at hbare
  rw [ht, hfour] at hbare
  obtain ⟨hg, hb⟩ := isPrivateHost_of_f hbare
  rw [hfour] at hpiece
  rw [hg, hb, and_self]
  refine hpiece.trans ?_
  simp only [pastFe80, linkLocal, inBlock, Bool.and_eq_false_iff, beq_eq_false_iff_ne, Bool.not_eq_false',
    beq_iff_eq]
  omega

theorem isPrivateHost_of_name {x : Ipv6} {t : List Nat} (ht : x.serialize = t) (hname : privateName t = true) :
    Gateway.isPrivateHost unicode (Address.v6 x).host = true ∧
      Bridge.isPrivateHost unicode (Address.v6 x).host = true := by
  have hbare := bare_host unicode (.v6 x)
  simp only [ht] at hbare
  rw [Gateway.isPrivateHost, Bridge.isPrivateHost, hbare]
  simp [hname]

/-- A mapped form of a named IPv4 address. -/
theorem isPrivateHost_of_v6_mapped {x : Ipv6} (hblock : inBlock 128 96 (0xffff * 2 ^ 32) x.val = true)
    (hnamed : namedIpv4 (x.val % 2 ^ 32) = true) :
    Gateway.isPrivateHost unicode (Address.v6 x).host = true ∧
      Bridge.isPrivateHost unicode (Address.v6 x).host = true := by
  have hpre : x.val / 2 ^ 32 = 0xffff := by
    simp only [inBlock, beq_iff_eq] at hblock
    omega
  obtain ⟨hg, hb⟩ := isPrivateIpv4_of_named (x := ⟨x.val % 2 ^ 32, Nat.mod_lt _ (by decide)⟩) hnamed
  have hbare := bare_host unicode (.v6 x)
  simp only at hbare
  rw [serialize_of_mapped hpre] at hbare
  have hm := mappedIpv4_pieces (x.val / 2 ^ 16 % 65536) (x.val % 65536) (by omega) (by omega)
  rw [← hbare] at hm
  have hoctets : dotted (x.val / 2 ^ 16 % 65536 / 256) (x.val / 2 ^ 16 % 65536 % 256) (x.val % 65536 / 256)
      (x.val % 65536 % 256) = Ipv4.serialize ⟨x.val % 2 ^ 32, Nat.mod_lt _ (by decide)⟩ := by
    have ha : x.val / 2 ^ 16 % 65536 / 256 = x.val % 2 ^ 32 / 2 ^ 24 := by omega
    have hb : x.val / 2 ^ 16 % 65536 % 256 = x.val % 2 ^ 32 / 2 ^ 16 % 256 := by omega
    have hc : x.val % 65536 / 256 = x.val % 2 ^ 32 / 2 ^ 8 % 256 := by omega
    have hd : x.val % 65536 % 256 = x.val % 2 ^ 32 % 256 := by omega
    rw [Ipv4.serialize, ha, hb, hc, hd]
  rw [hoctets] at hm
  exact isPrivateHost_of_mapped hm hg hb

/-- An address of a range that both filters name is private for both, exactly when it is not one of the
link-local addresses past `fe80::/16`. -/
theorem isPrivateHost_of_named_iff (x : Address) :
    (x.named = true → Gateway.isPrivateHost unicode x.host = true ∧
      Bridge.isPrivateHost unicode x.host = true) ↔ pastFe80 x = false := by
  cases x with
  | v4 x =>
    exact iff_of_true (isPrivateHost_of_v4 unicode) rfl
  | v6 x =>
    by_cases hhead : (inBlock 128 7 (0xfc00 * 2 ^ 112) x.val || linkLocal x.val) = true
    · have hnamed : (Address.v6 x).named = true := by
        simp only [Bool.or_eq_true] at hhead
        simp only [Address.named, namedIpv6, Bool.or_eq_true]
        tauto
      rw [← isPrivateHost_of_head unicode hhead]
      exact ⟨fun h => h hnamed, fun h _ => h⟩
    · rw [Bool.or_eq_true, not_or] at hhead
      refine iff_of_true (fun hnamed => ?_) (by simp [pastFe80, hhead.2])
      simp only [Address.named, namedIpv6, Bool.or_eq_true, Bool.and_eq_true, beq_iff_eq] at hnamed
      rcases hnamed with (((hzero | hone) | hlocal) | hlink) | hmapped
      · have htext : x.serialize = codes "::" := by
          rw [Ipv6.serialize, hzero]
          decide
        exact isPrivateHost_of_name unicode htext rfl
      · have htext : x.serialize = codes "::1" := by
          rw [Ipv6.serialize, hone]
          decide
        exact isPrivateHost_of_name unicode htext rfl
      · exact absurd hlocal hhead.1
      · exact absurd hlink hhead.2
      · exact isPrivateHost_of_v6_mapped unicode hmapped.1 hmapped.2

end Sound

/-- `fe90::1` is link-local, and both filters let it through. -/
theorem not_isPrivateHost_fe90 : ¬ ∀ (unicode : List Nat → List Nat) (x : Address), x.named = true →
    Gateway.isPrivateHost unicode x.host = true ∧ Bridge.isPrivateHost unicode x.host = true := by
  intro h
  have hx := h id (.v6 ⟨0xfe90 * 2 ^ 112 + 1, by decide⟩)
  revert hx
  decide

end LibreWallet.Net
