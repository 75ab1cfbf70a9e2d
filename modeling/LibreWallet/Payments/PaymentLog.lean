import Mathlib.Logic.Function.Basic
import Mathlib.Data.List.Basic

/-
  Payments/PaymentLog.lean --- the payment history.

  Mirrors `PaymentLogger` of `libre-listener-wallet/src/payment-log.ts`: four calls that
  each put one record under its payment hash.  The records are those in memory; writing
  them to storage changes none of them.
-/

set_option autoImplicit false

namespace LibreWallet.Payments

inductive PaymentDirection where
  | sent
  | received
  deriving DecidableEq, Repr

inductive PaymentStatus where
  | pending
  | settled
  | failed
  deriving DecidableEq, Repr

inductive PaymentType where
  | keysend
  | bolt11
  deriving DecidableEq, Repr

structure PaymentRecord where
  /-- The payment hash. -/
  id : String
  direction : PaymentDirection
  status : PaymentStatus
  /-- 0 when unknown. -/
  amountSats : Rat
  feeSats : Option Rat := none
  timestamp : Nat
  settledAt : Option Nat := none
  counterparty : Option String := none
  type : Option PaymentType := none
  note : Option String := none
  preimage : Option String := none
  deriving DecidableEq, Repr

/-- `records` -/
abbrev Log := String → Option PaymentRecord

namespace Log

def upsert (l : Log) (rec : PaymentRecord) : Log := Function.update l rec.id (some rec)

/-- `notePending` -/
def notePending (l : Log) (rec : PaymentRecord) : Log :=
  match l rec.id with
  | some existing => if existing.status ≠ .pending then l else l.upsert rec
  | none => l.upsert rec

/-- `...(preimageHex ? { preimage: preimageHex } : {})` -/
def withPreimage (rec : PaymentRecord) (preimageHex : Option String) : PaymentRecord :=
  if preimageHex.getD "" = "" then rec else { rec with preimage := preimageHex }

/-- `recordSent`: the amount of a send that was not noted is unknown. -/
def recordSent (l : Log) (hashHex : String) (feeSats : Rat) (preimageHex : Option String)
    (now : Nat) : Log :=
  match l hashHex with
  | some existing =>
    l.upsert { withPreimage existing preimageHex with
      status := .settled, feeSats := some feeSats, settledAt := some now }
  | none =>
    l.upsert (withPreimage
      { id := hashHex, direction := .sent, status := .settled, amountSats := 0,
        feeSats := some feeSats, timestamp := now, settledAt := some now } preimageHex)

/-- `recordFailed`: of whatever status the record is. -/
def recordFailed (l : Log) (hashHex : String) : Log :=
  match l hashHex with
  | some existing => l.upsert { existing with status := .failed }
  | none => l

/-- `recordReceived` -/
def recordReceived (l : Log) (hashHex : String) (amountSats : Rat) (now : Nat) : Log :=
  l.upsert
    { id := hashHex, direction := .received, status := .settled, amountSats,
      timestamp := ((l hashHex).map (·.timestamp)).getD now, settledAt := some now }

end Log

inductive Call where
  | notePending (rec : PaymentRecord)
  | recordSent (hashHex : String) (feeSats : Rat) (preimageHex : Option String) (now : Nat)
  | recordFailed (hashHex : String)
  | recordReceived (hashHex : String) (amountSats : Rat) (now : Nat)
  deriving DecidableEq, Repr

/-- The payment hash that a call is about. -/
def Call.hash : Call → String
  | notePending rec => rec.id
  | recordSent h _ _ _ | recordFailed h | recordReceived h _ _ => h

def step (l : Log) : Call → Log
  | .notePending rec => l.notePending rec
  | .recordSent h fee preimage now => l.recordSent h fee preimage now
  | .recordFailed h => l.recordFailed h
  | .recordReceived h amount now => l.recordReceived h amount now

def run (l : Log) (calls : List Call) : Log := calls.foldl step l

/-! ## What must not be lost -/

/-- An amount of a sent payment that is known. -/
def PaymentRecord.Known (r : PaymentRecord) : Prop := r.direction = .sent ∧ r.amountSats ≠ 0

/-- One that is not. -/
def PaymentRecord.Unknown (r : PaymentRecord) : Prop := r.direction = .sent ∧ r.amountSats = 0

/-- What was settled is settled, and an amount that was known is not unknown. -/
def Retains (l l' : Log) : Prop :=
  ∀ h r, l h = some r → ∃ r', l' h = some r' ∧
    (r.status = .settled → r'.status = .settled) ∧ (r.Known → ¬ r'.Unknown)

/-- From any moment of the calls to any later one. -/
def Monotone (l : Log) (calls : List Call) : Prop :=
  ∀ before between, before ++ between <+: calls →
    Retains (run l before) (run l (before ++ between))

/-- A failure finds no settled record, and a note without an amount no pending one that
has it. -/
def Harmless (l : Log) : Call → Prop
  | .recordFailed h => ∀ r, l h = some r → r.status ≠ .settled
  | .notePending rec => ∀ r, l rec.id = some r → r.status = .pending → r.Known → rec.amountSats ≠ 0
  | _ => True

/-- Each call is harmless in the log that it finds. -/
def Careful : Log → List Call → Prop
  | _, [] => True
  | l, c :: calls => Harmless l c ∧ Careful (step l c) calls

/-- Payments are noted when they are sent. -/
def Outbound : Call → Prop
  | .notePending rec => rec.direction = .sent
  | _ => True

/-! ## What a call does to a record -/

variable {l l' : Log} {c : Call} {calls : List Call} {h : String} {r r' : PaymentRecord}

/-- Records are kept under their hash, and a pending one was noted. -/
structure WellKept (l : Log) : Prop where
  keyed : ∀ h r, l h = some r → r.id = h
  pending : ∀ h r, l h = some r → r.status = .pending → r.direction = .sent

/-- What becomes of the record that a call is about. -/
inductive Changes (r : PaymentRecord) : Call → PaymentRecord → Prop where
  | ignored (rec : PaymentRecord) (hr : r.status ≠ .pending) : Changes r (.notePending rec) r
  | noted (rec : PaymentRecord) (hr : r.status = .pending) : Changes r (.notePending rec) rec
  | sent (h : String) (fee : Rat) (preimage : Option String) (now : Nat) (r' : PaymentRecord)
      (hstatus : r'.status = .settled) (hdirection : r'.direction = r.direction)
      (hamount : r'.amountSats = r.amountSats) : Changes r (.recordSent h fee preimage now) r'
  | failed (h : String) : Changes r (.recordFailed h) { r with status := .failed }
  | received (h : String) (amount : Rat) (now : Nat) (r' : PaymentRecord)
      (hstatus : r'.status = .settled) (hdirection : r'.direction = .received) :
      Changes r (.recordReceived h amount now) r'

@[simp] theorem upsert_self (rec : PaymentRecord) : l.upsert rec rec.id = some rec :=
  Function.update_self ..

theorem upsert_of_ne {rec : PaymentRecord} (hne : h ≠ rec.id) : l.upsert rec h = l h :=
  Function.update_of_ne hne ..

@[simp] theorem withPreimage_id (preimage : Option String) :
    (Log.withPreimage r preimage).id = r.id := by
  unfold Log.withPreimage
  split <;> rfl

@[simp] theorem withPreimage_direction (preimage : Option String) :
    (Log.withPreimage r preimage).direction = r.direction := by
  unfold Log.withPreimage
  split <;> rfl

@[simp] theorem withPreimage_amountSats (preimage : Option String) :
    (Log.withPreimage r preimage).amountSats = r.amountSats := by
  unfold Log.withPreimage
  split <;> rfl

@[simp] theorem withPreimage_status (preimage : Option String) :
    (Log.withPreimage r preimage).status = r.status := by
  unfold Log.withPreimage
  split <;> rfl

/-- A call leaves the log as it is, or puts one record under the hash it is about. -/
theorem step_cases (hl : WellKept l) (c : Call) :
    (step l c = l ∧ ∀ r, l c.hash = some r → Changes r c r) ∨
      ∃ r', step l c = l.upsert r' ∧ r'.id = c.hash ∧
        (Outbound c → r'.status = .pending → r'.direction = .sent) ∧
        ∀ r, l c.hash = some r → Changes r c r' := by
  cases c with
  | notePending rec =>
    cases hex : l rec.id with
    | none =>
      exact .inr ⟨rec, by simp [step, Log.notePending, hex], rfl, fun ho _ => ho,
        fun r hr => absurd (hex.symm.trans hr) nofun⟩
    | some existing =>
      by_cases hstatus : existing.status = .pending
      · refine .inr ⟨rec, by simp [step, Log.notePending, hex, hstatus], rfl, fun ho _ => ho,
          fun r hr => ?_⟩
        cases hex.symm.trans hr
        exact .noted rec hstatus
      · refine .inl ⟨by simp [step, Log.notePending, hex, hstatus], fun r hr => ?_⟩
        cases hex.symm.trans hr
        exact .ignored rec hstatus
  | recordSent hash fee preimage now =>
    cases hex : l hash with
    | none =>
      exact .inr ⟨_, by simp only [step, Log.recordSent, hex]; rfl, withPreimage_id _,
        fun _ hp => by simp at hp, fun r hr => absurd (hex.symm.trans hr) nofun⟩
    | some existing =>
      refine .inr ⟨{ Log.withPreimage existing preimage with
          status := .settled, feeSats := some fee, settledAt := some now },
        by simp only [step, Log.recordSent, hex], ?_, fun _ => nofun, fun r hr => ?_⟩
      · exact (withPreimage_id _).trans (hl.keyed _ _ hex)
      · cases hex.symm.trans hr
        exact .sent hash fee preimage now _ rfl (withPreimage_direction _) (withPreimage_amountSats _)
  | recordFailed hash =>
    cases hex : l hash with
    | none =>
      exact .inl ⟨by simp [step, Log.recordFailed, hex],
        fun r hr => absurd (hex.symm.trans hr) nofun⟩
    | some existing =>
      refine .inr ⟨{ existing with status := .failed }, by simp only [step, Log.recordFailed, hex],
        hl.keyed hash existing hex, fun _ => nofun, fun r hr => ?_⟩
      cases hex.symm.trans hr
      exact .failed hash
  | recordReceived hash amount now =>
    exact .inr ⟨_, rfl, rfl, fun _ => nofun, fun r _ => .received hash amount now _ rfl rfl⟩

theorem WellKept.step (hl : WellKept l) (ho : Outbound c) : WellKept (step l c) := by
  rcases step_cases hl c with ⟨hs, -⟩ | ⟨r', hs, hid, hpending, -⟩
  · rw [hs]
    exact hl
  · rw [hs]
    refine ⟨fun h r hr => ?_, fun h r hr => ?_⟩
    all_goals
      by_cases hh : h = r'.id
      · subst hh
        rw [upsert_self, Option.some.injEq] at hr
        subst hr
        first | rfl | exact hpending ho
      · rw [upsert_of_ne hh] at hr
        first | exact hl.keyed h r hr | exact hl.pending h r hr

theorem WellKept.run (hl : WellKept l) (ho : ∀ c ∈ calls, Outbound c) : WellKept (run l calls) := by
  induction calls generalizing l with
  | nil => exact hl
  | cons c calls ih => exact ih (hl.step (ho c (.head _))) fun d hd => ho d (.tail _ hd)

/-- What a call does to a record that is there. -/
theorem step_record (hl : WellKept l) (hr : l h = some r) :
    step l c h = some r ∧ h ≠ c.hash ∨
      h = c.hash ∧ ∃ r', step l c h = some r' ∧ Changes r c r' := by
  by_cases hh : h = c.hash
  · subst hh
    rcases step_cases hl c with ⟨hs, hch⟩ | ⟨r', hs, hid, -, hch⟩
    · exact .inr ⟨rfl, r, by rw [hs, hr], hch r hr⟩
    · exact .inr ⟨rfl, r', by rw [hs, ← hid, upsert_self], hch r hr⟩
  · refine .inl ⟨?_, hh⟩
    rcases step_cases hl c with ⟨hs, -⟩ | ⟨r', hs, hid, -, -⟩
    · rw [hs, hr]
    · rw [hs, upsert_of_ne (hid ▸ hh), hr]

/-! ## When nothing is lost -/

/-- A record whose amount no harmless call makes unknown. -/
def PaymentRecord.Safe (r : PaymentRecord) : Prop :=
  r.Known ∨ r.direction = .received ∧ r.status ≠ .pending

theorem PaymentRecord.Safe.not_unknown (hr : r.Safe) : ¬ r.Unknown := by
  rintro ⟨hsent, hzero⟩
  rcases hr with ⟨-, hne⟩ | ⟨hrec, -⟩
  · exact hne hzero
  · rw [hsent] at hrec
    cases hrec

/-- Every record of the one is there in the other, as settled and as safe. -/
def Holds (l l' : Log) : Prop :=
  ∀ h r, l h = some r → ∃ r', l' h = some r' ∧
    (r.status = .settled → r'.status = .settled) ∧ (r.Safe → r'.Safe)

theorem Holds.refl (l : Log) : Holds l l := fun _ r hr => ⟨r, hr, id, id⟩

theorem Holds.trans {l'' : Log} (h₁ : Holds l l') (h₂ : Holds l' l'') : Holds l l'' := by
  intro h r hr
  obtain ⟨r', hr', hsettled, hsafe⟩ := h₁ h r hr
  obtain ⟨r'', hr'', hsettled', hsafe'⟩ := h₂ h r' hr'
  exact ⟨r'', hr'', hsettled' ∘ hsettled, hsafe' ∘ hsafe⟩

theorem Holds.retains (hh : Holds l l') : Retains l l' := by
  intro h r hr
  obtain ⟨r', hr', hsettled, hsafe⟩ := hh h r hr
  exact ⟨r', hr', hsettled, fun hknown => (hsafe (.inl hknown)).not_unknown⟩

/-- A harmless call takes nothing back. -/
theorem holds_step (hl : WellKept l) (ho : Outbound c) (hc : Harmless l c) : Holds l (step l c) := by
  intro h r hr
  rcases step_record (c := c) hl hr with ⟨hs, -⟩ | ⟨rfl, r', hs, hch⟩
  · exact ⟨r, hs, id, id⟩
  · refine ⟨r', hs, ?_⟩
    cases hch with
    | ignored rec hstatus => exact ⟨id, id⟩
    | noted rec hstatus =>
      refine ⟨fun hset => absurd (hstatus.symm.trans hset) nofun, fun hsafe => ?_⟩
      have hknown : r.Known := hsafe.resolve_right fun hrec => hrec.2 hstatus
      exact .inl ⟨ho, hc r hr hstatus hknown⟩
    | sent hash fee preimage now r' hstatus hdirection hamount =>
      refine ⟨fun _ => hstatus, fun hsafe => ?_⟩
      rcases hsafe with ⟨hsent, hne⟩ | ⟨hrec, -⟩
      · exact .inl ⟨hdirection.trans hsent, hamount.trans_ne hne⟩
      · exact .inr ⟨hdirection.trans hrec, fun hp => absurd (hstatus.symm.trans hp) nofun⟩
    | failed hash =>
      refine ⟨fun hset => absurd hset (hc r hr), fun hsafe => ?_⟩
      rcases hsafe with hknown | ⟨hrec, -⟩
      · exact .inl hknown
      · exact .inr ⟨hrec, nofun⟩
    | received hash amount now r' hstatus hdirection =>
      exact ⟨fun _ => hstatus,
        fun _ => .inr ⟨hdirection, fun hp => absurd (hstatus.symm.trans hp) nofun⟩⟩

/-- A call that takes nothing back is harmless. -/
theorem harmless_of_retains (hl : WellKept l) (ho : Outbound c) (hret : Retains l (step l c)) :
    Harmless l c := by
  cases c with
  | notePending rec =>
    intro r hr hstatus hknown hzero
    obtain ⟨r', hr', -, hamount⟩ := hret _ r hr
    rcases step_record (c := .notePending rec) hl hr with ⟨-, hne⟩ | ⟨-, r'', hs, hch⟩
    · exact hne rfl
    · rw [hs, Option.some.injEq] at hr'
      subst hr'
      cases hch with
      | ignored rec hne => exact hne hstatus
      | noted rec hstatus => exact hamount hknown ⟨ho, hzero⟩
  | recordFailed hash =>
    intro r hr hset
    obtain ⟨r', hr', hsettled, -⟩ := hret _ r hr
    rcases step_record (c := .recordFailed hash) hl hr with ⟨-, hne⟩ | ⟨-, r'', hs, hch⟩
    · exact hne rfl
    · rw [hs, Option.some.injEq] at hr'
      subst hr'
      cases hch
      exact absurd (hsettled hset) nofun
  | recordSent => trivial
  | recordReceived => trivial

theorem run_append {before between : List Call} :
    run l (before ++ between) = run (run l before) between := List.foldl_append

theorem careful_append {before between : List Call} :
    Careful l (before ++ between) ↔ Careful l before ∧ Careful (run l before) between := by
  induction before generalizing l with
  | nil => exact ⟨fun h => ⟨trivial, h⟩, And.right⟩
  | cons c before ih =>
    rw [List.cons_append, Careful, ih, Careful, and_assoc]
    rfl

theorem holds_run (hl : WellKept l) (ho : ∀ c ∈ calls, Outbound c) (hc : Careful l calls) :
    Holds l (run l calls) := by
  induction calls generalizing l with
  | nil => exact .refl l
  | cons c calls ih =>
    have hoc : Outbound c := ho c (.head _)
    exact (holds_step hl hoc hc.1).trans (ih (hl.step hoc) (fun d hd => ho d (.tail _ hd)) hc.2)

/-- Calls that take nothing back from one to the next are careful. -/
theorem careful_of_retains (hl : WellKept l) (ho : ∀ c ∈ calls, Outbound c)
    (hret : ∀ before c, before ++ [c] <+: calls →
      Retains (run l before) (step (run l before) c)) : Careful l calls := by
  induction calls generalizing l with
  | nil => trivial
  | cons c calls ih =>
    have hoc : Outbound c := ho c (.head _)
    refine ⟨harmless_of_retains hl hoc (hret [] c (by simp)), ?_⟩
    refine ih (hl.step hoc) (fun d hd => ho d (.tail _ hd)) fun before d hd => ?_
    exact hret (c :: before) d (List.cons_prefix_cons.mpr ⟨rfl, hd⟩)

/-- The log is monotone along the calls if and only if each of them is harmless where it
comes. -/
theorem monotone_iff (hl : WellKept l) (ho : ∀ c ∈ calls, Outbound c) :
    Monotone l calls ↔ Careful l calls := by
  constructor
  · intro hmono
    refine careful_of_retains hl ho fun before c hp => ?_
    have hret := hmono before [c] hp
    rwa [run_append] at hret
  · rintro hc before between ⟨after, rfl⟩
    rw [List.append_assoc, careful_append, careful_append] at hc
    have hbefore : WellKept (run l before) := hl.run fun c hcb => ho c (by simp [hcb])
    rw [run_append]
    exact (holds_run hbefore (fun c hcb => ho c (by simp [hcb])) hc.2.1).retains

/-! ## A paid invoice that is paid again -/

/-- The note of a payment of 100 sats. -/
def hundredSats : PaymentRecord :=
  { id := "aa", direction := .sent, status := .pending, amountSats := 100, timestamp := 1,
    type := some .bolt11 }

/-- It settles; a retry is noted, and refused. -/
def retried : List Call :=
  [.notePending hundredSats, .recordSent "aa" 1 (some "bb") 2, .notePending hundredSats,
    .recordFailed "aa"]

theorem wellKept_empty : WellKept fun _ => none where
  keyed _ _ hr := nomatch hr
  pending _ _ hr := nomatch hr

/-- The first payment alone is monotone. -/
theorem monotone_sent : Monotone (fun _ => none) (retried.take 2) := by
  have ho : ∀ c ∈ retried.take 2, Outbound c := by
    intro c hc
    rcases List.mem_pair.mp hc with rfl | rfl
    · rfl
    · trivial
  refine (monotone_iff wellKept_empty ho).mpr ⟨?_, trivial, trivial⟩
  intro r hr
  cases hr

/-- A payment that settled is recorded as failed. -/
theorem not_monotone_retried : ¬ Monotone (fun _ => none) retried := by
  intro h
  obtain ⟨r', hr', hsettled, -⟩ := h (retried.take 2) (retried.drop 2) (by simp) "aa" _ rfl
  cases hr'
  exact absurd (hsettled rfl) nofun

end LibreWallet.Payments
