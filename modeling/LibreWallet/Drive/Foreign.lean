import LibreWallet.Async.System
import LibreWallet.Drive.Files

/-
  Drive/Foreign.lean --- whose backup an upload replaces.

  Several wallets share one Drive account and network, so one backup file name.  The paths
  that upload are `driveBackupNow` of `wallet-pwa/src/drive-integration.ts`, `fence` of
  `wallet-pwa/src/core/pwa-lease.ts`, `flushTracked` of
  `wallet-embed/src/session-wiring.ts` and `driveBackupNow` of
  `browser-extension/src/background.ts`; only the first looks at what it replaces.  An
  envelope is the seed that it opens with.
-/

set_option autoImplicit false

namespace LibreWallet.Drive.Foreign

open Async

inductive Frontend where
  | pwa
  | embed
  | extension
  deriving DecidableEq, Repr

inductive Flow where
  | driveBackupNow
  /-- The final flush of an evicted PWA. -/
  | fence
  /-- Automatic, on close, and of an evicted embed. -/
  | flushTracked
  /-- The extension's, automatic or by hand. -/
  | extensionBackupNow
  deriving DecidableEq, Repr

def Flow.frontend : Flow → Frontend
  | .driveBackupNow | .fence => .pwa
  | .flushTracked => .embed
  | .extensionBackupNow => .extension

/-- A page, or the extension, with its wallet. -/
structure Origin where
  frontend : Frontend
  seedHex : Nat
  confirmedOwnBackup : Option Nat := none
  deriving DecidableEq, Repr

inductive Stage where
  | begun
  /-- `driveBackupNow` has its envelope. -/
  | exported (envelope : Nat)
  /-- It downloads the existing backup `id`. -/
  | checking (envelope seedHex : Nat) (id : Option Nat)
  /-- `uploadBackup` is called. -/
  | cleared (envelope : Nat)
  | listed (envelope : Nat) (id : Option Nat)
  | ended
  deriving DecidableEq, Repr

structure Upload where
  origin : Nat
  flow : Flow
  stage : Stage := .begun
  deriving DecidableEq, Repr

/-- An upload wrote `envelope` over `existing`. -/
structure Replaced where
  existing : Nat
  envelope : Nat
  deriving DecidableEq, Repr

structure World where
  origins : List Origin
  files : List Nat
  uploads : List Upload := []
  replaced : List Replaced := []
  deriving DecidableEq, Repr

inductive Action where
  /-- A wallet is created or restored. -/
  | setSeed (o : Nat) (seedHex : Nat)
  | begin (o : Nat) (flow : Flow)
  | exportBackup (k : Nat)
  | check (k : Nat)
  | download (k : Nat)
  | list (k : Nat)
  /-- The request after the list query takes effect. -/
  | act (k : Nat)
  /-- A request or the export fails. -/
  | fail (k : Nat)
  deriving DecidableEq, Repr

def World.goOn (w : World) (k : Nat) (u : Upload) (stage : Stage) : World :=
  { w with uploads := w.uploads.set k { u with stage } }

def World.confirm (w : World) (u : Upload) (o : Origin) (seedHex : Nat) : World :=
  { w with origins := w.origins.set u.origin { o with confirmedOwnBackup := some seedHex } }

/-- The ownership check of `driveBackupNow` has its answer; `backupIsOurs` tries the seed of
now. -/
def checked (w : World) (k : Nat) (u : Upload) (o : Origin) (envelope seedHex : Nat) :
    Option (Http Nat) → World
  | some (.download id) =>
    match w.files[id]? with
    | some existing =>
      if existing = o.seedHex then (w.confirm u o seedHex).goOn k u (.cleared envelope)
      else w.goOn k u .ended
    | none => w.goOn k u .ended
  | _ => (w.confirm u o seedHex).goOn k u (.cleared envelope)

/-- A request takes effect. -/
def World.request (w : World) : Http Nat → World
  | .update id envelope =>
    { w with
      files := w.files.set id envelope
      replaced := w.replaced ++ (w.files[id]?.map fun existing => { existing, envelope }).toList }
  | .create envelope => { w with files := w.files ++ [envelope] }
  | .download _ => w

def uploadStep (rank : Nat → Nat) (a : Action) (k : Nat) (u : Upload) (o : Origin) (w : World) :
    Option World :=
  match a, u.stage with
  | .exportBackup _, .begun =>
    some (w.goOn k u (match u.flow with
      | .driveBackupNow => .exported o.seedHex
      | .fence | .flushTracked | .extensionBackupNow => .cleared o.seedHex))
  | .check _, .exported envelope =>
    some (w.goOn k u (
      if o.confirmedOwnBackup = some o.seedHex then .cleared envelope
      else .checking envelope o.seedHex (first rank w.files.length)))
  | .download _, .checking envelope seedHex id =>
    some (checked w k u o envelope seedHex (downloadBackup id))
  | .list _, .cleared envelope => some (w.goOn k u (.listed envelope (first rank w.files.length)))
  | .act _, .listed envelope id => some ((w.request (uploadBackup envelope id)).goOn k u .ended)
  | .fail _, .ended => none
  | .fail _, _ => some (w.goOn k u .ended)
  | _, _ => none

def Action.upload : Action → Option Nat
  | .exportBackup k | .check k | .download k | .list k | .act k | .fail k => some k
  | .setSeed _ _ | .begin _ _ => none

def step (rank : Nat → Nat) (a : Action) (w : World) : Option World :=
  match a with
  | .setSeed i seedHex =>
    w.origins[i]?.map fun o => { w with origins := w.origins.set i { o with seedHex } }
  | .begin i flow =>
    w.origins[i]?.bind fun o =>
      if flow.frontend = o.frontend then some { w with uploads := w.uploads ++ [{ origin := i, flow }] }
      else none
  | a =>
    a.upload.bind fun k => w.uploads[k]?.bind fun u => w.origins[u.origin]?.bind fun o =>
      uploadStep rank a k u o w

/-- No backup of another wallet was replaced. -/
def ForeignKept (w : World) : Prop := ∀ r ∈ w.replaced, r.existing = r.envelope

/-! ## The condition -/

/-- The envelope of an upload that is on its way. -/
def Stage.envelope : Stage → Option Nat
  | .exported envelope | .checking envelope _ _ | .cleared envelope | .listed envelope _ =>
    some envelope
  | .begun | .ended => none

/-- The envelope of an upload that has looked, or will not look, at the existing backup. -/
def Stage.sending : Stage → Option Nat
  | .checking envelope _ _ | .cleared envelope | .listed envelope _ => some envelope
  | .begun | .exported _ | .ended => none

/-- The backup that a query finds is one's own. -/
def World.ownOrNone (rank : Nat → Nat) (w : World) (seedHex : Nat) : Bool :=
  match first rank w.files.length with
  | some i => w.files[i]? = some seedHex
  | none => true

/-- An upload that does not look at the existing backup goes ahead only when it is its own or there
is none; a first backup is created only while no other wallet's upload is past its own look; and the
wallet of an origin changes only while no upload of it is on its way. -/
def guarded (rank : Nat → Nat) (a : Action) (w : World) : Bool :=
  match a with
  | .setSeed i _ => w.uploads.all fun u => u.origin ≠ i || u.stage.envelope = none
  | .exportBackup k =>
    match w.uploads[k]?, w.uploads[k]?.bind fun u => w.origins[u.origin]? with
    | some u, some o => u.flow = .driveBackupNow || w.ownOrNone rank o.seedHex
    | _, _ => true
  | .check k =>
    match w.uploads[k]?.bind fun u => w.origins[u.origin]? with
    | some o => o.confirmedOwnBackup ≠ some o.seedHex || w.ownOrNone rank o.seedHex
    | none => true
  | .act k =>
    match w.uploads[k]? with
    | some { stage := .listed envelope none, .. } =>
      w.uploads.all fun u => u.stage.sending = none || u.stage.sending = some envelope
    | _ => true
  | _ => true

/-! ## The invariant -/

/-- The query finds nothing that is not of this seed. -/
def Own (rank : Nat → Nat) (files : List Nat) (seedHex : Nat) : Prop :=
  ∀ i, first rank files.length = some i → files[i]? = some seedHex

/-- What an upload knows of the files. -/
def Stage.Sound (rank : Nat → Nat) (files : List Nat) : Stage → Prop
  | .checking envelope _ id => first rank files.length = id ∨ Own rank files envelope
  | .cleared envelope => Own rank files envelope
  | .listed envelope (some i) => files[i]? = some envelope
  | _ => True

structure Inv (rank : Nat → Nat) (w : World) : Prop where
  kept : ForeignKept w
  sound : ∀ u ∈ w.uploads, u.stage.Sound rank w.files
  seed : ∀ u ∈ w.uploads, ∀ e, u.stage.envelope = some e →
    ∃ o, w.origins[u.origin]? = some o ∧ o.seedHex = e

variable {rank : Nat → Nat} {w w' : World} {k : Nat} {u : Upload} {o : Origin}

theorem own_of_ownOrNone {seedHex : Nat} (h : w.ownOrNone rank seedHex = true) :
    Own rank w.files seedHex := by
  intro i hi
  unfold World.ownOrNone at h
  rw [hi] at h
  exact of_decide_eq_true h

/-- One more file of a wallet leaves the first one its own. -/
theorem Own.create {files : List Nat} {seedHex : Nat} (h : Own rank files seedHex) :
    Own rank (files ++ [seedHex]) seedHex := by
  intro i hi
  rw [List.length_append, List.length_singleton] at hi
  rcases first_succ rank files.length with hn | ⟨hn, -⟩
  · rw [hn] at hi
    cases hi
    exact List.getElem?_concat_length
  · rw [hn] at hi
    rw [List.getElem?_append_left (first_lt hi)]
    exact h i hi

/-- What an upload knows stays when one of the same wallet creates a file. -/
theorem Stage.Sound.create {files : List Nat} {seedHex : Nat} {st : Stage} (h : st.Sound rank files)
    (hsame : ∀ e, st.sending = some e → e = seedHex) : st.Sound rank (files ++ [seedHex]) := by
  cases st with
  | checking envelope s id =>
    obtain rfl := hsame envelope rfl
    rcases h with hfirst | hown
    · rcases first_succ rank files.length with hn | ⟨hn, -⟩
      · -- the new file comes first
        refine .inr fun i hi => ?_
        rw [List.length_append, List.length_singleton, hn] at hi
        cases hi
        exact List.getElem?_concat_length
      · refine .inl ?_
        rw [List.length_append, List.length_singleton, hn]
        exact hfirst
    · exact .inr hown.create
  | cleared envelope =>
    obtain rfl := hsame envelope rfl
    exact Own.create h
  | listed envelope id =>
    cases id with
    | none => trivial
    | some i =>
      have hi : files[i]? = some envelope := h
      change (files ++ [seedHex])[i]? = some envelope
      rw [List.getElem?_append_left (List.getElem?_eq_some_iff.mp hi).1]
      exact hi
  | begun | exported _ | ended => trivial

/-- An upload goes on, and writes nothing. -/
theorem Inv.goOn (h : Inv rank w) {st : Stage}
    (hsound : st.Sound rank w.files)
    (hseed : ∀ e, st.envelope = some e → ∃ o, w.origins[u.origin]? = some o ∧ o.seedHex = e) :
    Inv rank (w.goOn k u st) := by
  refine ⟨h.kept, fun x hx => ?_, fun x hx => ?_⟩
  · rcases List.mem_or_eq_of_mem_set hx with hold | rfl
    · exact h.sound x hold
    · exact hsound
  · rcases List.mem_or_eq_of_mem_set hx with hold | rfl
    · exact h.seed x hold
    · exact hseed

/-- What `confirmedOwnBackup` says changes no seed. -/
theorem Inv.confirm (h : Inv rank w) (ho : w.origins[u.origin]? = some o) (seedHex : Nat) :
    Inv rank (w.confirm u o seedHex) := by
  refine ⟨h.kept, h.sound, fun x hx e he => ?_⟩
  obtain ⟨o', ho', hs⟩ := h.seed x hx e he
  by_cases heq : u.origin = x.origin
  · rw [← heq, ho] at ho'
    cases ho'
    refine ⟨{ o with confirmedOwnBackup := some seedHex }, ?_, hs⟩
    rw [← heq]
    exact List.getElem?_set_self (List.getElem?_eq_some_iff.mp ho).1
  · refine ⟨o', ?_, hs⟩
    change (w.origins.set _ _)[x.origin]? = some o'
    rw [List.getElem?_set_ne heq]
    exact ho'

/-- An upload whose check has passed. -/
theorem Inv.clear (h : Inv rank w) (ho : w.origins[u.origin]? = some o) {envelope : Nat}
    (seedHex : Nat) (hs : o.seedHex = envelope) (hown : Own rank w.files envelope) :
    Inv rank ((w.confirm u o seedHex).goOn k u (.cleared envelope)) := by
  have hc := h.confirm ho seedHex
  refine hc.goOn hown ?_
  rintro e ⟨⟩
  refine ⟨{ o with confirmedOwnBackup := some seedHex }, ?_, hs⟩
  exact List.getElem?_set_self (List.getElem?_eq_some_iff.mp ho).1

theorem Inv.ended (h : Inv rank w) : Inv rank (w.goOn k u .ended) :=
  h.goOn trivial fun e he => by cases he

/-- The ownership check clears the upload only over its own backup, or none. -/
theorem Inv.checked (h : Inv rank w) (hk : w.uploads[k]? = some u)
    (ho : w.origins[u.origin]? = some o) {envelope seedHex : Nat} {id : Option Nat}
    (hst : u.stage = .checking envelope seedHex id) :
    Inv rank (checked w k u o envelope seedHex (downloadBackup id)) := by
  have hu : u ∈ w.uploads := List.mem_of_getElem? hk
  have hsound := h.sound u hu
  rw [hst] at hsound
  have hs : o.seedHex = envelope := by
    obtain ⟨o', ho', hs⟩ := h.seed u hu envelope (by rw [hst]; rfl)
    rw [ho] at ho'
    cases ho'
    exact hs
  cases id with
  | none =>
    refine h.clear ho seedHex hs ?_
    rcases hsound with hnone | hown
    · intro i hi
      rw [hnone] at hi
      cases hi
    · exact hown
  | some i =>
    simp only [downloadBackup, Foreign.checked]
    split
    · rename_i existing hi
      split
      · rename_i hours
        refine h.clear ho seedHex hs ?_
        rcases hsound with hfirst | hown
        · intro j hj
          rw [hfirst] at hj
          cases hj
          rw [hi, hours, hs]
        · exact hown
      · exact h.ended
    · exact h.ended

/-- A request that takes effect replaces nothing of another wallet. -/
theorem Inv.request (h : Inv rank w) {envelope : Nat} {id : Option Nat}
    (hown : ∀ i, id = some i → w.files[i]? = some envelope)
    (hfirst : id = none → ∀ u ∈ w.uploads, ∀ e, u.stage.sending = some e → e = envelope) :
    Inv rank (w.request (uploadBackup envelope id)) := by
  cases id with
  | some i =>
    have hi := hown i rfl
    have hset : w.files.set i envelope = w.files := by
      apply List.ext_getElem?
      intro j
      by_cases hij : i = j
      · subst hij
        rw [List.getElem?_set_self (List.getElem?_eq_some_iff.mp hi).1, hi]
      · exact List.getElem?_set_ne hij
    simp only [uploadBackup, World.request, hset, hi]
    refine ⟨fun r hr => ?_, h.sound, h.seed⟩
    rcases List.mem_append.mp hr with hold | hnew
    · exact h.kept r hold
    · simp only [Option.map_some, Option.toList_some, List.mem_singleton] at hnew
      rw [hnew]
  | none => exact ⟨h.kept, fun u hu => (h.sound u hu).create (hfirst rfl u hu), h.seed⟩

/-- A step of one upload. -/
theorem Inv.upload {a : Action} (h : Inv rank w) (hk : w.uploads[k]? = some u)
    (ho : w.origins[u.origin]? = some o) (hg : guarded rank a w = true) (hkey : a.upload = some k)
    (hw : uploadStep rank a k u o w = some w') : Inv rank w' := by
  have hu : u ∈ w.uploads := List.mem_of_getElem? hk
  have hseed : ∀ e, u.stage.envelope = some e → o.seedHex = e := by
    intro e he
    obtain ⟨o', ho', hs⟩ := h.seed u hu e he
    rw [ho] at ho'
    cases ho'
    exact hs
  unfold uploadStep at hw
  split at hw
  · -- the export
    cases hkey
    cases hw
    simp only [guarded, hk, Option.bind_some, ho, Bool.or_eq_true, decide_eq_true_eq] at hg
    have hstage : ∀ st : Stage, st.Sound rank w.files → st.envelope = some o.seedHex →
        Inv rank (w.goOn k u st) := by
      intro st hsound hst
      refine h.goOn hsound fun e he => ⟨o, ho, ?_⟩
      rw [hst] at he
      exact Option.some.inj he
    cases hflow : u.flow with
    | driveBackupNow => exact hstage _ trivial rfl
    | fence | flushTracked | extensionBackupNow =>
      have hown := hg.resolve_left fun hd => by rw [hflow] at hd; cases hd
      exact hstage (.cleared o.seedHex) (own_of_ownOrNone hown) rfl
  · -- the look at `confirmedOwnBackup`
    rename_i envelope hst
    cases hkey
    cases hw
    have hs := hseed envelope (by rw [hst]; rfl)
    simp only [guarded, hk, Option.bind_some, ho, Bool.or_eq_true, decide_eq_true_eq] at hg
    split
    · rename_i hcached
      have hown := own_of_ownOrNone (hg.resolve_left fun hne => hne hcached)
      rw [hs] at hown
      exact h.goOn hown fun e he => ⟨o, ho, by cases he; exact hs⟩
    · exact h.goOn (.inl rfl) fun e he => ⟨o, ho, by cases he; exact hs⟩
  · rename_i envelope seedHex id hst
    cases hw
    exact h.checked hk ho hst
  · -- the list query
    rename_i envelope hst
    cases hw
    have hown := h.sound u hu
    rw [hst] at hown
    refine h.goOn ?_ fun e he => ⟨o, ho, by cases he; exact hseed _ (by rw [hst]; rfl)⟩
    cases hfirst : first rank w.files.length with
    | none => trivial
    | some i => exact hown i hfirst
  · -- the write
    rename_i envelope id hst
    cases hkey
    cases hw
    have hsound := h.sound u hu
    rw [hst] at hsound
    refine Inv.ended (Inv.request h ?_ ?_)
    · rintro i rfl
      exact hsound
    · rintro rfl x hx e he
      obtain ⟨origin, flow, stage⟩ := u
      subst hst
      simp only [guarded, hk, List.all_eq_true, Bool.or_eq_true, decide_eq_true_eq] at hg
      rcases hg x hx with hno | hsame
      · rw [hno] at he
        cases he
      · rw [hsame] at he
        exact (Option.some.inj he).symm
  · cases hw
  · cases hw
    exact h.ended
  · cases hw

theorem Inv.step {a : Action} (h : Inv rank w) (hg : guarded rank a w = true)
    (hw : step rank a w = some w') : Inv rank w' := by
  have hone : ∀ b : Action, guarded rank b w = true →
      (b.upload.bind fun k => w.uploads[k]?.bind fun u => w.origins[u.origin]?.bind fun o =>
        uploadStep rank b k u o w) = some w' → Inv rank w' := by
    intro b hb hw'
    simp only [Option.bind_eq_some_iff] at hw'
    obtain ⟨k, hkey, u, hk, o, ho, hu⟩ := hw'
    exact h.upload hk ho hb hkey hu
  cases a with
  | setSeed i seedHex =>
    simp only [Foreign.step, Option.map_eq_some_iff] at hw
    obtain ⟨o, ho, rfl⟩ := hw
    simp only [guarded, List.all_eq_true, Bool.or_eq_true, decide_eq_true_eq] at hg
    refine ⟨h.kept, h.sound, fun u hu e he => ?_⟩
    obtain ⟨o', ho', hs⟩ := h.seed u hu e he
    have hne : u.origin ≠ i := by
      rcases hg u hu with hne | hnone
      · exact hne
      · rw [hnone] at he
        cases he
    refine ⟨o', ?_, hs⟩
    change (w.origins.set i _)[u.origin]? = some o'
    rw [List.getElem?_set_ne (Ne.symm hne)]
    exact ho'
  | begin i flow =>
    simp only [Foreign.step, Option.bind_eq_some_iff, Option.ite_none_right_eq_some,
      Option.some.injEq] at hw
    obtain ⟨o, -, -, rfl⟩ := hw
    refine ⟨h.kept, fun u hu => ?_, fun u hu e he => ?_⟩
    · rcases List.mem_append.mp hu with hold | hnew
      · exact h.sound u hold
      · rw [List.mem_singleton.mp hnew]
        trivial
    · rcases List.mem_append.mp hu with hold | hnew
      · exact h.seed u hold e he
      · rw [List.mem_singleton.mp hnew] at he
        cases he
  | exportBackup k => exact hone _ hg hw
  | check k => exact hone _ hg hw
  | download k => exact hone _ hg hw
  | list k => exact hone _ hg hw
  | act k => exact hone _ hg hw
  | fail k => exact hone _ hg hw

/-! ## Runs -/

/-- In every run whose steps meet the condition, no backup of another wallet is replaced. -/
theorem foreignKept_of_guarded (rank : Nat → Nat) (origins : List Origin) (files : List Nat)
    (w : World)
    (hrun : Steps (step rank) (fun a t => guarded rank a t = true) { origins, files } w) :
    ForeignKept w := by
  have h₀ : Inv rank { origins, files } :=
    ⟨fun r hr => (List.not_mem_nil hr).elim, fun u hu => (List.not_mem_nil hu).elim,
      fun u hu => (List.not_mem_nil hu).elim⟩
  exact (hrun.invariant h₀ fun _ _ _ ht hP hw => ht.step hP hw).kept

/-- The PWA looks, replaces its own backup, and an embed with the same wallet replaces it again;
another wallet's PWA is refused. -/
theorem foreignKept_of_guarded_shared : ∃ w,
    Steps (step id) (fun a t => guarded id a t = true)
      { origins := [⟨.pwa, 7, none⟩, ⟨.embed, 7, none⟩, ⟨.pwa, 8, none⟩], files := [7] } w ∧
      decide (w.replaced.length = 2 ∧ w.uploads.map (·.stage) = [.ended, .ended, .ended]) = true ∧
      ForeignKept w := by
  obtain ⟨w, hrun, hw⟩ := Steps.exists_of_play (step id) (guarded id)
    { origins := [⟨.pwa, 7, none⟩, ⟨.embed, 7, none⟩, ⟨.pwa, 8, none⟩], files := [7] }
    [.begin 0 .driveBackupNow, .exportBackup 0, .check 0, .begin 1 .flushTracked, .exportBackup 1,
      .list 1, .download 0, .list 0, .act 1, .act 0, .begin 2 .driveBackupNow, .exportBackup 2,
      .check 2, .download 2]
    (fun w => decide (w.replaced.length = 2 ∧ w.uploads.map (·.stage) = [.ended, .ended, .ended]))
    (by decide +kernel)
  exact ⟨w, hrun, hw, foreignKept_of_guarded id _ _ w hrun⟩

/-- The extension has a new wallet, and backs it up over the one of another. -/
theorem not_foreignKept_extension : ¬ ∀ (origins : List Origin) (files : List Nat) (w : World),
    Steps (step id) (fun _ _ => True) { origins, files } w → ForeignKept w := by
  intro h
  obtain ⟨w, hrun, hw⟩ := Steps.exists_of_play (step id) (fun _ _ => true)
    { origins := [⟨.extension, 8, none⟩], files := [7] }
    [.begin 0 .extensionBackupNow, .exportBackup 0, .list 0, .act 0]
    (fun w => w.replaced.any fun r => r.existing ≠ r.envelope) (by decide +kernel)
  obtain ⟨r, hr, hne⟩ := List.any_eq_true.mp hw
  exact of_decide_eq_true hne (h _ _ w (hrun.mono fun _ _ _ => trivial) r hr)

end LibreWallet.Drive.Foreign
