import LibreWallet.Async.Alone
import LibreWallet.Roaming.Moves

/-
  Embed/Outage.lean --- when a holder that cannot reach its lease file stops.

  The ticks of one heartbeat (`tick`, `noteFailure` and `shouldSelfFenceOnOutage`), each at one
  clock value: time passes and the others move between them.  A tick that fails is measured from
  the first failure, and the lease from its last write.
-/

set_option autoImplicit false

namespace LibreWallet.Embed.Outage

open Async Controller Roaming

/-! ## Ticks -/

/-- What the others leave alone: the lease object of the page, and the time. -/
structure Still (token : String) (w w' : World) : Prop where
  clock : w'.clock = w.clock
  firstFailureAt : (w'.pages token).firstFailureAt = (w.pages token).firstFailureAt
  fenced : (w'.pages token).fenced = (w.pages token).fenced
  lastWritten : (w'.pages token).lastWritten = (w.pages token).lastWritten

/-- Between two ticks time passes. -/
structure Between (token : String) (w w' : World) : Prop where
  clock : w.clock ≤ w'.clock
  soon : w'.clock ≤ w.clock + ROAMING_RENEW_MS
  firstFailureAt : (w'.pages token).firstFailureAt = (w.pages token).firstFailureAt
  fenced : (w'.pages token).fenced = (w.pages token).fenced
  lastWritten : (w'.pages token).lastWritten = (w.pages token).lastWritten

/-- A tick, its requests answered in any way. -/
def still (token : String) : Contract World Request Answer Err Choice :=
  among (exec token) (Still token) fun _ _ _ _ => True

/-- A tick that was taken: its requests, and the states it found and left. -/
structure Ticked where
  requests : List RoamEntry
  before : World
  after : World

/-- The ticks of one heartbeat, one after another. -/
inductive Ticks (token : String) : World → List Ticked → World → Prop where
  | stop {w : World} : Ticks token w [] w
  | tick {ticks : List Ticked} {w w₁ w₂ w' : World} {h : List RoamEntry} {r : Except Err Unit} :
      Between token w w₁ → Solo (still token) (tick token) [] w₁ h r w₂ → Ticks token w₂ ticks w' →
      Ticks token w (⟨h, w₁, w₂⟩ :: ticks) w'

inductive Outcome where
  | renewed
  | failed
  | evicted
  deriving DecidableEq, Repr

/-- What a tick's read of the lease file was answered. -/
def tickReadOf : RoamEntry → Option (Except Err (Option RoamingLeaseRecord))
  | ⟨.leaseRead .tick, r, _⟩ => some r
  | _ => none

def tickRead (h : List RoamEntry) : Option (Except Err (Option RoamingLeaseRecord)) :=
  h.findSome? tickReadOf

/-- A renewal that was answered. -/
def wrote : RoamEntry → Bool
  | ⟨.leaseWrite (.claim .tick _) _, .ok (), _⟩ => true
  | _ => false

/-- How a tick went; `none` where it was over at once. -/
def outcome (token : String) (h : List RoamEntry) : Option Outcome :=
  match tickRead h with
  | none => none
  | some (.error _) => some .failed
  | some (.ok record) =>
    match heartbeatDecision record token with
    | .evicted => some .evicted
    | .renew => if h.any wrote then some .renewed else some .failed

/-! ## What is asked for -/

/-- The tick has neither fenced the session nor found another owner. -/
def Keeps (token : String) (t : Ticked) : Prop :=
  (t.after.pages token).fenced = false ∧ outcome token t.requests ≠ some .evicted

/-- The last record that the session wrote has not expired. -/
def Unexpired (token : String) (w : World) : Prop :=
  ∃ r, (w.pages token).lastWritten = some r ∧ w.clock ≤ r.expiresAt

/-- What the ticks so far say: the expiry of the last record written, and the first of the failures
since. -/
structure Watch where
  expiresAt : Nat
  failingSince : Option Nat
  deriving DecidableEq, Repr

def Watch.tick (s : Watch) (now : Nat) : Option Outcome → Watch
  | some .renewed => ⟨now + ROAMING_LEASE_MS, none⟩
  | some .failed => { s with failingSince := some (s.failingSince.getD now) }
  | some .evicted | none => s

/-- Every failed tick comes before the last record expires, or when the failures have spanned the
lease window. -/
def InTime : Watch → List (Nat × Option Outcome) → Prop
  | _, [] => True
  | s, (now, o) :: rest =>
    (o = some .failed → now ≤ s.expiresAt ∨ s.failingSince.getD now + ROAMING_LEASE_MS < now) ∧
      InTime (s.tick now o) rest

instance InTime.decidable : (s : Watch) → (ticks : List (Nat × Option Outcome)) → Decidable (InTime s ticks)
  | _, [] => .isTrue trivial
  | s, (now, o) :: rest =>
    have := InTime.decidable (s.tick now o) rest
    inferInstanceAs (Decidable (_ ∧ _))

/-- When the ticks came and how they went. -/
def timeline (token : String) (ticks : List Ticked) : List (Nat × Option Outcome) :=
  ticks.map fun t => (t.before.clock, outcome token t.requests)

/-! ## One tick -/

variable {token : String} {h : List RoamEntry} {s w w₁ : World} {α : Type}

namespace Still

theorem refl (token : String) (w : World) : Still token w w := ⟨rfl, rfl, rfl, rfl⟩

theorem trans {w₂ : World} (h₁ : Still token w w₁) (h₂ : Still token w₁ w₂) : Still token w w₂ where
  clock := h₂.clock.trans h₁.clock
  firstFailureAt := h₂.firstFailureAt.trans h₁.firstFailureAt
  fenced := h₂.fenced.trans h₁.fenced
  lastWritten := h₂.lastWritten.trans h₁.lastWritten

/-- An update of the page that leaves its lease object alone. -/
theorem setPage {f : Page → Page} (hf : (f (w.pages token)).firstFailureAt = (w.pages token).firstFailureAt)
    (hd : (f (w.pages token)).fenced = (w.pages token).fenced)
    (hl : (f (w.pages token)).lastWritten = (w.pages token).lastWritten) :
    Still token w (w.setPage token f) := by
  refine ⟨rfl, ?_, ?_, ?_⟩
  all_goals
    rw [World.setPage_self]
    assumption

theorem setNode (n : Node) : Still token w (w.setNode token n) := by
  refine ⟨rfl, ?_, ?_, ?_⟩
  all_goals rw [World.setNode_self]

theorem note (n : Note) : Still token w (w.note n) := ⟨rfl, rfl, rfl, rfl⟩

/-- No request touches the lease object. -/
theorem exec {q : Request} {c : Choice} {r : Except Err (Answer q)}
    (he : exec token q c w = some (r, w₁)) : Still token w w₁ :=
  exec_moves he (refl token w) (fun _ _ _ => ⟨rfl, rfl, rfl, rfl⟩) (fun n _ => setNode n)
    (fun _ n _ hv => hv.trans (note n)) fun _ _ => ⟨rfl, rfl, rfl, rfl⟩

end Still

theorem still_framing (token : String) : Framing (still token) (Still token) where
  free := among_free _ _ _
  refl := Still.refl token
  trans := Still.trans
  rely := fun _ _ h => h

/-- The tick's own read of the lease file and its renewal. -/
def ofTick : Request → Bool
  | .leaseRead .tick | .leaseWrite (.claim .tick _) _ => true
  | _ => false

/-- Requests other than those. -/
def Other (e : RoamEntry) : Prop := ofTick e.request = false

/-- Code that leaves the lease object alone. -/
theorem still_keeping (token : String) :
    Keeping token (still token) (Still token) Other (fun q => !ofTick q) fun _ => true where
  framing := still_framing token
  ask := fun q hq => (still_framing token).request fun _ _ _ _ _ _ he =>
    ⟨Still.exec he, by simpa [Other] using hq⟩
  view := fun _ _ _ => Still.setPage rfl rfl rfl
  stop := fun _ => Still.setPage rfl rfl rfl

theorem wp_ask_still {q : Request} {Post : PostCond World Request Answer Err (Answer q)}
    (hk : ∀ r w₁ w₂, Still token w w₂ → Post (⟨q, r, w₁⟩ :: h) r w₂ w₂) :
    wp (still token) (ask q) h Post s w := by
  refine (still_framing token).free.wp_request fun c r w₁ w₂ w₃ h₁ _ he h₃ => ?_
  exact hk r w₁ w₃ (h₁.trans ((Still.exec he).trans h₃))

theorem frames_onEvicted (claimant : Option RoamingLeaseRecord) :
    Frames (still token) (Still token) Other (onEvicted token claimant) :=
  (still_keeping token).onEvicted claimant rfl
    ((still_keeping token).flushAndAck rfl rfl (fun _ _ => rfl) rfl (fun _ => rfl) rfl (fun _ _ => rfl)
      fun _ _ => Still.setPage rfl rfl rfl)
    fun _ => rfl

theorem Other.tickReadOf {e : RoamEntry} (he : Other e) : tickReadOf e = none := by
  unfold Outage.tickReadOf
  split
  · cases he
  · rfl

theorem Other.wrote {e : RoamEntry} (he : Other e) : wrote e = false := by
  unfold Outage.wrote
  split
  · cases he
  · rfl

/-- What is asked for besides does not change how a tick went. -/
theorem outcome_of_adds {h' : List RoamEntry} (hg : Adds Other h h') : outcome token h' = outcome token h := by
  obtain ⟨new, rfl, hn⟩ := hg
  have hread : tickRead (new ++ h) = tickRead h := by
    rw [tickRead, List.findSome?_append, List.findSome?_eq_none_iff.mpr fun e he => (hn e he).tickReadOf]
    rfl
  have hany : (new ++ h).any wrote = h.any wrote := by
    rw [List.any_append, List.any_eq_false.mpr fun e he => by simp [(hn e he).wrote], Bool.false_or]
  simp only [outcome, hread, hany]

theorem outcome_evicted {record : Option RoamingLeaseRecord} (hr : tickRead h = some (.ok record))
    (hd : heartbeatDecision record token = .evicted) : outcome token h = some .evicted := by
  simp only [outcome, hr, hd]

theorem outcome_renew {record : Option RoamingLeaseRecord} (hr : tickRead h = some (.ok record))
    (hd : heartbeatDecision record token = .renew) :
    outcome token h = if h.any wrote then some .renewed else some .failed := by
  simp only [outcome, hr, hd]

/-- What a tick of a session that is not fenced leaves of its lease object. -/
def Went (token : String) (w : World) (o : Option Outcome) (w' : World) : Prop :=
  match o with
  | none => False
  | some .renewed =>
    (∃ r, (w'.pages token).lastWritten = some r ∧ r.expiresAt = w.clock + ROAMING_LEASE_MS) ∧
      (w'.pages token).firstFailureAt = none ∧ (w'.pages token).fenced = false
  | some .failed =>
    (w'.pages token).lastWritten = (w.pages token).lastWritten ∧
      (w'.pages token).firstFailureAt = some (((w.pages token).firstFailureAt).getD w.clock) ∧
      (w'.pages token).fenced =
        decide (ROAMING_LEASE_MS < w.clock - ((w.pages token).firstFailureAt).getD w.clock)
  | some .evicted => Still token w w'

/-- What a tick leaves. -/
structure Left (token : String) (w : World) (h' : List RoamEntry) (w' : World) : Prop where
  clock : w'.clock = w.clock
  fenced : (w.pages token).fenced = true → outcome token h' = none ∧ Still token w w'
  went : (w.pages token).fenced = false → Went token w (outcome token h') w'

/-- A failure: the first one is noted, and the session fenced when they span the window. -/
theorem wp_tickFailed (hs : Still token w w₁) (hlive : (w.pages token).fenced = false)
    (hout : outcome token h = some .failed) :
    wp (still token) (tickFailed token) h (fun h' _ _ w' => Left token w h' w') s w₁ := by
  simp only [tickFailed, noteFailure, updatePage, Proc.bind_eq, wp_bind, wp_get, wp_modify]
  generalize hw₂ : w₁.setPage token _ = w₂
  have hclock : w₂.clock = w.clock := by
    rw [← hw₂]
    exact hs.clock
  have hwent : Went token w (some .failed) w₂ := by
    rw [← hw₂]
    refine ⟨?_, ?_, ?_⟩
    · rw [World.setPage_self]
      exact hs.lastWritten
    · rw [World.setPage_self]
      simp only [hs.firstFailureAt, hs.clock]
    · rw [World.setPage_self]
      simp only [hs.firstFailureAt, hs.clock, hs.fenced, hlive, shouldSelfFenceOnOutage, Bool.false_or]
  have hend : ∀ h' w', Still token w₂ w' → Adds Other h h' → Left token w h' w' := by
    intro h' w' hs' hg
    refine ⟨hs'.clock.trans hclock, fun hf => ?_, fun _ => ?_⟩
    · rw [hlive] at hf
      cases hf
    · rw [outcome_of_adds hg, hout]
      obtain ⟨hl, hf, hd⟩ := hwent
      exact ⟨hs'.lastWritten.trans hl, hs'.firstFailureAt.trans hf, hs'.fenced.trans hd⟩
  rw [Proc.pure_eq, wp_done]
  dsimp only
  split
  · exact (still_keeping token).selfFence rfl rfl h s w₂ _ fun h' _ _ w' hs' hg => hend h' w' hs' hg
  · exact hend h w₂ (Still.refl token w₂) (Adds.refl h)

/-- A tick, step by step. -/
theorem wp_tick : wp (still token) (tick token) [] (fun h' _ _ w' => Left token w h' w') s w := by
  simp only [tick, Proc.bind_eq, wp_bind, wp_get]
  split
  · rename_i hf
    refine ⟨rfl, fun _ => ⟨rfl, Still.refl token w⟩, fun hlive => ?_⟩
    rw [hf] at hlive
    cases hlive
  · rename_i hlive
    rw [Bool.not_eq_true] at hlive
    rw [wp_bind, wp_attempt]
    refine wp_ask_still fun r w₁ w₂ hs => ?_
    cases r with
    | error e => exact wp_tickFailed hs hlive rfl
    | ok record =>
      dsimp only
      split
      · -- another owner
        rename_i hd
        refine ((still_framing token).bind (still_keeping token).stopHeartbeat fun _ => frames_onEvicted record) _ _ w₂ _
          fun h₃ r s₃ w₃ hs₃ hg₃ => ?_
        refine ⟨hs₃.clock.trans hs.clock, fun hf => absurd hf (by simp [hlive]), fun _ => ?_⟩
        rw [outcome_of_adds hg₃, outcome_evicted rfl hd]
        exact hs.trans hs₃
      · rename_i hd
        simp only [writeOurRecord, updatePage, Proc.bind_eq, wp_bind, wp_attempt, wp_get, wp_modify]
        refine wp_ask_still fun r w₃ w₄ hs₄ => ?_
        cases r with
        | error e => exact wp_tickFailed (hs.trans hs₄) hlive (outcome_renew rfl hd)
        | ok info =>
          refine wp_ask_still fun r w₅ w₆ hs₆ => ?_
          have hs' := (hs.trans hs₄).trans hs₆
          cases r with
          | error e => exact wp_tickFailed hs' hlive (outcome_renew rfl hd)
          | ok u =>
            refine ⟨hs'.clock, fun hf => absurd hf (by simp [hlive]), fun _ => ?_⟩
            rw [outcome_renew rfl hd]
            simp only [Went, List.any, wrote, Bool.true_or, if_true, World.setPage_self]
            exact ⟨⟨_, rfl, by simp only [buildLeaseRecord, hs.clock]⟩, trivial, hs'.fenced.trans hlive⟩

/-! ## All ticks -/

/-- What the ticks so far say is what the lease object holds. -/
structure Agrees (token : String) (x : Watch) (w : World) : Prop where
  written : ∃ r, (w.pages token).lastWritten = some r ∧ r.expiresAt = x.expiresAt
  failing : (w.pages token).fenced = false → (w.pages token).firstFailureAt = x.failingSince

theorem Agrees.between {x : Watch} (ha : Agrees token x w) (hb : Between token w w₁) : Agrees token x w₁ := by
  refine ⟨by rw [hb.lastWritten]; exact ha.written, fun hf => ?_⟩
  rw [hb.firstFailureAt]
  exact ha.failing (hb.fenced ▸ hf)

theorem Agrees.still {x : Watch} (ha : Agrees token x w) (hs : Still token w w₁) : Agrees token x w₁ := by
  refine ⟨by rw [hs.lastWritten]; exact ha.written, fun hf => ?_⟩
  rw [hs.firstFailureAt]
  exact ha.failing (hs.fenced ▸ hf)

/-- After one more tick they still agree. -/
theorem Agrees.tick {x : Watch} (ha : Agrees token x w) (hl : Left token w h w₁) :
    Agrees token (x.tick w.clock (outcome token h)) w₁ := by
  cases hf : (w.pages token).fenced with
  | true =>
    obtain ⟨ho, hs⟩ := hl.fenced hf
    rw [ho]
    exact ha.still hs
  | false =>
    have hwent := hl.went hf
    cases ho : outcome token h with
    | none =>
      rw [ho] at hwent
      exact absurd hwent id
    | some o =>
      rw [ho] at hwent
      cases o with
      | renewed =>
        obtain ⟨hwritten, hfirst, -⟩ := hwent
        exact ⟨hwritten, fun _ => hfirst⟩
      | failed =>
        obtain ⟨hwritten, hfirst, -⟩ := hwent
        refine ⟨by rw [hwritten]; exact ha.written, fun _ => ?_⟩
        rw [hfirst, ha.failing hf]
        rfl
      | evicted => exact ha.still hwent

/-- A tick that goes on finds the last record unexpired exactly when it comes in time. -/
theorem Agrees.inTime {x : Watch} (ha : Agrees token x w) (hl : Left token w h w₁) :
    (Keeps token ⟨h, w, w₁⟩ → Unexpired token w₁) ↔
      (outcome token h = some .failed →
        w.clock ≤ x.expiresAt ∨ x.failingSince.getD w.clock + ROAMING_LEASE_MS < w.clock) := by
  cases hf : (w.pages token).fenced with
  | true =>
    obtain ⟨ho, hs⟩ := hl.fenced hf
    refine ⟨fun _ hfail => ?_, fun _ hk => ?_⟩
    · rw [ho] at hfail
      cases hfail
    · have hlive := hk.1
      rw [hs.fenced, hf] at hlive
      cases hlive
  | false =>
    have hwent := hl.went hf
    cases ho : outcome token h with
    | none =>
      rw [ho] at hwent
      exact absurd hwent id
    | some o =>
      rw [ho] at hwent
      cases o with
      | renewed =>
        obtain ⟨⟨r, hr, he⟩, -⟩ := hwent
        refine ⟨fun _ hfail => ?_, fun _ _ => ⟨r, hr, ?_⟩⟩
        · cases hfail
        · rw [hl.clock, he]
          exact Nat.le_add_right _ _
      | failed =>
        obtain ⟨hwritten, -, hfence⟩ := hwent
        rw [ha.failing hf] at hfence
        obtain ⟨r, hr, he⟩ := ha.written
        have hun : Unexpired token w₁ ↔ w.clock ≤ x.expiresAt := by
          simp only [Unexpired, hwritten, hr, hl.clock, Option.some.injEq, exists_eq_left', he]
        have hkeep : Keeps token ⟨h, w, w₁⟩ ↔ ¬ ROAMING_LEASE_MS < w.clock - x.failingSince.getD w.clock := by
          simp only [Keeps, ho, hfence, decide_eq_false_iff_not, ne_eq, Option.some.injEq, reduceCtorEq,
            not_false_eq_true, and_true]
        rw [hun, hkeep]
        refine ⟨fun hk _ => ?_, fun hc hk => ?_⟩
        · by_cases hspan : ROAMING_LEASE_MS < w.clock - x.failingSince.getD w.clock
          · exact .inr (by omega)
          · exact .inl (hk hspan)
        · rcases hc rfl with hle | hspan
          · exact hle
          · exact absurd (by omega) hk
      | evicted =>
        refine ⟨fun _ hfail => ?_, fun _ hk => ?_⟩
        · cases hfail
        · exact absurd ho hk.2

/-- Over every sequence of ticks: whenever one leaves the session going, the last record it wrote
has not expired, exactly when no failed tick comes after that expiry and within the lease window
of the first failure. -/
theorem unexpired_iff_inTime (token : String) (ticks : List Ticked) (w w' : World)
    (r : RoamingLeaseRecord) (hr : (w.pages token).lastWritten = some r) (run : Ticks token w ticks w') :
    (∀ t ∈ ticks, Keeps token t → Unexpired token t.after) ↔
      InTime ⟨r.expiresAt, (w.pages token).firstFailureAt⟩ (timeline token ticks) := by
  have ha : Agrees token ⟨r.expiresAt, (w.pages token).firstFailureAt⟩ w := ⟨⟨r, hr, rfl⟩, fun _ => rfl⟩
  generalize (⟨r.expiresAt, (w.pages token).firstFailureAt⟩ : Watch) = x at ha
  clear hr
  induction run generalizing x with
  | stop => exact ⟨fun _ => trivial, fun _ t ht => by cases ht⟩
  | tick hb htick _ ih =>
    obtain ⟨s', hl⟩ := htick.sound (fun _ _ _ _ => trivial) (wp_tick (s := w))
    have ha₁ := ha.between hb
    have hone := ha₁.inTime hl
    have hrest := ih _ (ha₁.tick hl)
    exact List.forall_mem_cons.trans (and_congr hone hrest)

/-- Ticks at given times, each with every request answered or every request failing. -/
def ticking (token : String) : List (Nat × Choice) → World → Option (List Ticked × World)
  | [], w => some ([], w)
  | (now, c) :: rest, w =>
    let w₁ := { w with clock := now }
    if w.clock ≤ now ∧ now ≤ w.clock + ROAMING_RENEW_MS then
      ((tick token).record (fun _ w => w) (fun q w => exec token q c w) [] w₁).bind fun x =>
        (ticking token rest x.2.2).map fun y => (⟨x.1, w₁, x.2.2⟩ :: y.1, y.2)
    else none

theorem ticks_of_ticking {times : List (Nat × Choice)} {ticks : List Ticked} {w' : World}
    (hp : ticking token times w = some (ticks, w')) : Ticks token w ticks w' := by
  induction times generalizing w ticks with
  | nil =>
    cases hp
    exact .stop
  | cons x rest ih =>
    obtain ⟨now, c⟩ := x
    simp only [ticking, Option.ite_none_right_eq_some, Option.bind_eq_some_iff, Option.map_eq_some_iff] at hp
    obtain ⟨⟨hle, hsoon⟩, ⟨h, r, w₂⟩, hx, ⟨ticks', w''⟩, hy, heq⟩ := hp
    cases heq
    have hb : Between token w { w with clock := now } := ⟨hle, hsoon, rfl, rfl, rfl⟩
    refine .tick hb (Proc.solo_of_record (Still.refl token) (fun _ => Still.refl token) ?_ hx) (ih hy)
    exact fun _ q w r w' he => ⟨c, trivial, he⟩

/-- A running holder whose record expires at 120 s. -/
def holding : World where
  drive := { firstLease := some (held 0), firstBackup := none }
  origins := fun _ => { db := { seed := some "seed", stateVersion := 5, channelManager := true } }
  pages := fun _ => {
    origin := "https://a.example", status := .alive, wallet := .running, view := .running
    lastWritten := some (held 0) }
where
  held (now : Nat) : RoamingLeaseRecord := {
    owner := "a", origin := "https://a.example", acquiredAt := now, expiresAt := now + 120000
    seq := 1, heartbeatStateVersion := 5, phase := .live }

/-- A renewal at 40 s, failures from 70 s on, and the fence at 190.001 s. -/
theorem unexpired_iff_inTime_fenced : ∃ ticks w', Ticks "a" holding ticks w' ∧
    (w'.pages "a").fenced = true ∧ ∀ t ∈ ticks, Keeps "a" t → Unexpired "a" t.after := by
  have heval : ((ticking "a" [(40000, .ok), (70000, .fail), (110000, .fail), (150000, .fail), (160000, .fail),
      (190001, .fail)] holding).any fun x =>
        decide (timeline "a" x.1 = [(40000, some .renewed), (70000, some .failed), (110000, some .failed),
          (150000, some .failed), (160000, some .failed), (190001, some .failed)]) &&
        (x.2.pages "a").fenced) = true := by
    decide +kernel
  obtain ⟨⟨ticks, w'⟩, hx, hend⟩ := (Option.any_eq_true _ _).mp heval
  obtain ⟨htimes, hfenced⟩ := Bool.and_eq_true_iff.mp hend
  have run := ticks_of_ticking hx
  refine ⟨ticks, w', run, hfenced, (unexpired_iff_inTime "a" ticks holding w' (holding.held 0) rfl run).mpr ?_⟩
  rw [of_decide_eq_true htimes]
  decide

/-- A tick every 40 s, all of which fail: the session still goes on at 160 s. -/
theorem not_unexpired_outage : ¬ ∀ (ticks : List Ticked) (w w' : World),
    (w.pages "a").lastWritten.isSome = true → Ticks "a" w ticks w' →
      ∀ t ∈ ticks, Keeps "a" t → Unexpired "a" t.after := by
  intro hall
  have heval : ((ticking "a" [(40000, .fail), (80000, .fail), (120000, .fail), (160000, .fail)] holding).any
      fun x => x.1.any fun t => !(t.after.pages "a").fenced &&
        decide (outcome "a" t.requests = some .failed) &&
        (t.after.pages "a").lastWritten.all fun r => decide (r.expiresAt < t.after.clock)) = true := by
    decide +kernel
  obtain ⟨⟨ticks, w'⟩, hx, hend⟩ := (Option.any_eq_true _ _).mp heval
  obtain ⟨t, ht, hbad⟩ := List.any_eq_true.mp hend
  simp only [Bool.and_eq_true, Bool.not_eq_true', decide_eq_true_eq] at hbad
  obtain ⟨⟨hlive, hfailed⟩, hexpired⟩ := hbad
  obtain ⟨r, hr, hle⟩ := hall ticks holding w' rfl (ticks_of_ticking hx) t ht ⟨hlive, by rw [hfailed]; nofun⟩
  rw [hr, Option.all_some, decide_eq_true_eq] at hexpired
  omega

end LibreWallet.Embed.Outage
