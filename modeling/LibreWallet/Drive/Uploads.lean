import LibreWallet.Async.System
import LibreWallet.Drive.Files

/-
  Drive/Uploads.lean --- the Drive backup uploads of one origin.

  An upload takes its export, looks for the file and writes it, and several of one origin
  can overlap: `flushTracked` of `wallet-embed/src/session-wiring.ts` (the debounced one, the
  one on close and the one of an eviction) and `driveBackupNow` of
  `wallet-pwa/src/drive-integration.ts` (automatic, retried, or by hand).  What the
  environment chooses is when each begins and how their steps interleave.
-/

set_option autoImplicit false

namespace LibreWallet.Drive.Uploads

open Async

/-- A backup: the `state_version` it holds, and whether it opens with this wallet's seed. -/
structure Envelope where
  version : Nat
  ours : Bool
  deriving DecidableEq, Repr

inductive Flow where
  | flushTracked
  | driveBackupNow
  deriving DecidableEq, Repr

inductive Stage where
  | begun
  /-- `flushTracked` has read the version it may record. -/
  | versionRead
  /-- `driveBackupNow` has its envelope. -/
  | exported
  /-- It downloads the existing backup `id` to see whose it is. -/
  | checking (id : Option Nat)
  /-- `uploadBackup` is called. -/
  | cleared
  | listed (id : Option Nat)
  /-- The request has taken effect. -/
  | answered
  | completed
  | failed
  deriving DecidableEq, Repr

structure Upload where
  flow : Flow
  stage : Stage := .begun
  read : Option Nat := none
  exported : Option Nat := none
  landed : Bool := false
  deriving DecidableEq, Repr

structure World where
  /-- The `state_version` in local storage. -/
  version : Nat := 0
  files : List Envelope
  uploads : List Upload := []
  flushedVersion : Nat := 0
  /-- `confirmedOwnBackup` holds this wallet's seed. -/
  confirmedOwnBackup : Bool := false
  deriving DecidableEq, Repr

inductive Action where
  /-- The state advances. -/
  | advance
  | begin (flow : Flow)
  | readLocal (k : Nat)
  | exportBackup (k : Nat)
  | check (k : Nat)
  | download (k : Nat)
  | list (k : Nat)
  /-- The request after the list query takes effect. -/
  | act (k : Nat)
  | finish (k : Nat)
  /-- A request or the export fails, or its answer is lost. -/
  | fail (k : Nat)
  deriving DecidableEq, Repr

def World.goOn (w : World) (k : Nat) (u : Upload) : World :=
  { w with uploads := w.uploads.set k u }

/-- The ownership check has its answer. -/
def checked (w : World) (k : Nat) (u : Upload) : Option (Http Envelope) → World
  | some (.download id) =>
    match w.files[id]? with
    | some existing =>
      if existing.ours then { w with confirmedOwnBackup := true }.goOn k { u with stage := .cleared }
      else w.goOn k { u with stage := .failed }
    | none => w.goOn k { u with stage := .failed }
  | _ => { w with confirmedOwnBackup := true }.goOn k { u with stage := .cleared }

/-- What the request does, and the file it writes. -/
def written (files : List Envelope) : Http Envelope → List Envelope × Nat
  | .update id contents => (files.set id contents, id)
  | .create contents => (files ++ [contents], files.length)
  | .download id => (files, id)

/-- The envelope of an upload. -/
def Upload.envelope (u : Upload) : Envelope := ⟨u.exported.getD 0, true⟩

/-- `flushTracked` records the version it read before its export. -/
def finished (w : World) (k : Nat) (u : Upload) : World :=
  match u.flow with
  | .flushTracked =>
    { w with flushedVersion := max w.flushedVersion (u.read.getD 0) }.goOn k
      { u with stage := .completed }
  | .driveBackupNow => w.goOn k { u with stage := .completed }

def uploadStep (rank : Nat → Nat) (a : Action) (k : Nat) (u : Upload) (w : World) : Option World :=
  match a, u.flow, u.stage with
  | .readLocal _, .flushTracked, .begun =>
    some (w.goOn k { u with stage := .versionRead, read := some w.version })
  | .exportBackup _, .flushTracked, .versionRead =>
    some (w.goOn k { u with stage := .cleared, exported := some w.version })
  | .exportBackup _, .driveBackupNow, .begun =>
    some (w.goOn k { u with stage := .exported, exported := some w.version })
  | .check _, _, .exported =>
    some (w.goOn k { u with
      stage := if w.confirmedOwnBackup then .cleared else .checking (first rank w.files.length) })
  | .download _, _, .checking id => some (checked w k u (downloadBackup id))
  | .list _, _, .cleared =>
    some (w.goOn k { u with stage := .listed (first rank w.files.length) })
  | .act _, _, .listed id =>
    some ({ w with files := (written w.files (uploadBackup u.envelope id)).1 }.goOn k
      { u with stage := .answered, landed := true })
  | .finish _, _, .answered => some (finished w k u)
  | .fail _, _, .completed => none
  | .fail _, _, _ => some (w.goOn k { u with stage := .failed })
  | _, _, _ => none

def Action.upload : Action → Option Nat
  | .readLocal k | .exportBackup k | .check k | .download k | .list k | .act k | .finish k | .fail k =>
    some k
  | .advance | .begin _ => none

def step (rank : Nat → Nat) (a : Action) (w : World) : Option World :=
  match a with
  | .advance => some { w with version := w.version + 1 }
  | .begin flow => some { w with uploads := w.uploads ++ [{ flow }] }
  | a => a.upload.bind fun k => w.uploads[k]?.bind fun u => uploadStep rank a k u w

/-- The envelope that a download gets. -/
def World.left (rank : Nat → Nat) (w : World) : Option Envelope :=
  (first rank w.files.length).bind fun id => w.files[id]?

/-- The write of an upload takes effect before that of any newer export, and on the file that
the next query finds. -/
def inOrder (rank : Nat → Nat) (a : Action) (w : World) : Bool :=
  match a with
  | .act k =>
    match w.uploads[k]? with
    | some u =>
      match u.stage with
      | .listed id =>
        (w.uploads.all fun u' => !u'.landed || u'.exported.getD 0 ≤ u.exported.getD 0) &&
          first rank (written w.files (uploadBackup u.envelope id)).1.length =
            some (written w.files (uploadBackup u.envelope id)).2
      | _ => true
    | none => true
  | _ => true

/-- The backup is the newest of those that were exported, and nothing newer is recorded. -/
def Newest (rank : Nat → Nat) (w : World) : Prop :=
  ∃ e, w.left rank = some e ∧ (∃ u ∈ w.uploads, u.exported = some e.version) ∧
    (∀ u ∈ w.uploads, ∀ v, u.exported = some v → v ≤ e.version) ∧ w.flushedVersion ≤ e.version

/-! ## The invariant -/

def Stage.hasExported : Stage → Bool
  | .exported | .checking _ | .cleared | .listed _ => true
  | _ => false

def Stage.hasLanded : Stage → Bool
  | .answered | .completed => true
  | _ => false

/-- An upload while the local version is `n`. -/
structure Upload.Sound (n : Nat) (u : Upload) : Prop where
  read : ∀ r, u.read = some r → r ≤ n ∧ ∀ v, u.exported = some v → r ≤ v
  exported : u.landed = true ∨ u.stage.hasExported = true → u.exported ≠ none
  landed : u.stage.hasLanded = true → u.landed = true
  fresh : u.stage = .begun ∨ u.stage = .versionRead → u.exported = none ∧ u.landed = false

/-- The backup is the newest of those that were written. -/
structure Holds (uploads : List Upload) (e : Envelope) : Prop where
  source : ∃ u ∈ uploads, u.landed = true ∧ u.exported = some e.version
  newest : ∀ u ∈ uploads, u.landed = true → ∀ v, u.exported = some v → v ≤ e.version

structure Inv (rank : Nat → Nat) (w : World) : Prop where
  sound : ∀ u ∈ w.uploads, u.Sound w.version
  left : (∃ u ∈ w.uploads, u.landed = true) → ∃ e, w.left rank = some e ∧ Holds w.uploads e
  flushed : w.flushedVersion ≠ 0 →
    ∃ u ∈ w.uploads, u.landed = true ∧ ∃ v, u.exported = some v ∧ w.flushedVersion ≤ v

variable {rank : Nat → Nat} {w w' : World} {k : Nat} {u u' : Upload}

theorem Upload.Sound.mono {n m : Nat} (h : u.Sound n) (hle : n ≤ m) : u.Sound m :=
  ⟨fun r hr => ⟨Nat.le_trans (h.read r hr).1 hle, (h.read r hr).2⟩, h.exported, h.landed, h.fresh⟩

/-- An upload that goes on keeps what it exported and what it wrote. -/
theorem exists_set {P : Upload → Prop} (hk : w.uploads[k]? = some u) (hP : P u → P u')
    (h : ∃ x ∈ w.uploads, P x) : ∃ x ∈ w.uploads.set k u', P x := by
  obtain ⟨x, hx, hPx⟩ := h
  obtain ⟨i, hi⟩ := List.mem_iff_getElem?.mp hx
  by_cases hik : i = k
  · subst hik
    rw [hk] at hi
    cases hi
    exact ⟨u', List.mem_of_getElem? (List.getElem?_set_self (List.getElem?_eq_some_iff.mp hk).1),
      hP hPx⟩
  · refine ⟨x, List.mem_of_getElem? (i := i) ?_, hPx⟩
    rw [List.getElem?_set_ne (Ne.symm hik)]
    exact hi

/-- A step of one upload that writes nothing. -/
theorem Inv.goOn (h : Inv rank w) (hk : w.uploads[k]? = some u) (confirmed : Bool)
    (hsound : u'.Sound w.version) (hlanded : u'.landed = u.landed)
    (hexported : u.landed = true → u'.exported = u.exported) :
    Inv rank ({ w with confirmedOwnBackup := confirmed }.goOn k u') := by
  have hu : u ∈ w.uploads := List.mem_of_getElem? hk
  refine ⟨fun x hx => ?_, fun hex => ?_, fun hf => ?_⟩
  · rcases List.mem_or_eq_of_mem_set hx with hold | rfl
    · exact h.sound x hold
    · exact hsound
  · have hex' : ∃ x ∈ w.uploads, x.landed = true := by
      obtain ⟨x, hx, hl⟩ := hex
      rcases List.mem_or_eq_of_mem_set hx with hold | rfl
      · exact ⟨x, hold, hl⟩
      · exact ⟨u, hu, hlanded ▸ hl⟩
    obtain ⟨e, he, hsource, hnewest⟩ := h.left hex'
    refine ⟨e, he, exists_set hk ?_ hsource, fun x hx hl v hv => ?_⟩
    · rintro ⟨hl, hv⟩
      exact ⟨hlanded.trans hl, (hexported hl).trans hv⟩
    · rcases List.mem_or_eq_of_mem_set hx with hold | rfl
      · exact hnewest x hold hl v hv
      · rw [hlanded] at hl
        exact hnewest u hu hl v ((hexported hl).symm.trans hv)
  · refine exists_set hk ?_ (h.flushed hf)
    rintro ⟨hl, v, hv, hle⟩
    exact ⟨hlanded.trans hl, v, (hexported hl).trans hv, hle⟩

/-- The file that the next query finds has the new contents. -/
theorem left_written (w : World) (u : Upload) (id : Option Nat)
    (hlt : ∀ i, id = some i → i < w.files.length)
    (hfirst : first rank (written w.files (uploadBackup u.envelope id)).1.length =
      some (written w.files (uploadBackup u.envelope id)).2) :
    ({ w with files := (written w.files (uploadBackup u.envelope id)).1 } : World).left rank =
      some u.envelope := by
  unfold World.left
  rw [hfirst]
  cases id with
  | none => simp [written, uploadBackup]
  | some i => simp [written, uploadBackup, hlt i rfl]

/-- The write of an upload takes effect in order. -/
theorem Inv.act (h : Inv rank w) (hk : w.uploads[k]? = some u) {id : Option Nat}
    (hst : u.stage = .listed id) (files : List Envelope)
    (hleft : ({ w with files } : World).left rank = some u.envelope)
    (horder : ∀ x ∈ w.uploads, x.landed = true → x.exported.getD 0 ≤ u.exported.getD 0) :
    Inv rank ({ w with files }.goOn k { u with stage := .answered, landed := true }) := by
  have hu : u ∈ w.uploads := List.mem_of_getElem? hk
  have hs := h.sound u hu
  obtain ⟨v, hv⟩ : ∃ v, u.exported = some v := by
    refine Option.ne_none_iff_exists'.mp (hs.exported (.inr ?_))
    rw [hst]
    rfl
  have hmem : ({ u with stage := .answered, landed := true } : Upload) ∈
      w.uploads.set k { u with stage := .answered, landed := true } :=
    List.mem_of_getElem? (List.getElem?_set_self (List.getElem?_eq_some_iff.mp hk).1)
  refine ⟨fun x hx => ?_, fun _ => ⟨u.envelope, hleft, ⟨_, hmem, rfl, ?_⟩, fun x hx hl v' hv' => ?_⟩,
    fun hf => ?_⟩
  · rcases List.mem_or_eq_of_mem_set hx with hold | rfl
    · exact h.sound x hold
    · refine ⟨hs.read, fun _ => ?_, fun _ => rfl, nofun⟩
      simp [hv]
  · simp [Upload.envelope, hv]
  · simp only [Upload.envelope]
    rcases List.mem_or_eq_of_mem_set hx with hold | rfl
    · have := horder x hold hl
      rwa [hv'] at this
    · simp only at hv'
      rw [hv']
      exact Nat.le_refl _
  · refine exists_set hk ?_ (h.flushed hf)
    rintro ⟨-, hrest⟩
    exact ⟨rfl, hrest⟩

/-- An upload completes: what it records it has exported before. -/
theorem Inv.finish (h : Inv rank w) (hk : w.uploads[k]? = some u) (hst : u.stage = .answered) :
    Inv rank (finished w k u) := by
  have hu : u ∈ w.uploads := List.mem_of_getElem? hk
  have hs := h.sound u hu
  have hl : u.landed = true := hs.landed (by rw [hst]; rfl)
  have hdone : Inv rank (w.goOn k { u with stage := .completed }) :=
    h.goOn hk w.confirmedOwnBackup ⟨hs.read, fun _ => hs.exported (.inl hl), fun _ => hl, nofun⟩ rfl
      fun _ => rfl
  unfold finished
  split
  · refine ⟨hdone.sound, hdone.left, fun hf => ?_⟩
    by_cases hle : u.read.getD 0 ≤ w.flushedVersion
    · have hmax : max w.flushedVersion (u.read.getD 0) = w.flushedVersion := Nat.max_eq_left hle
      simp only [World.goOn, hmax] at hf ⊢
      exact hdone.flushed hf
    · have hmax : max w.flushedVersion (u.read.getD 0) = u.read.getD 0 :=
        Nat.max_eq_right (Nat.le_of_not_le hle)
      simp only [World.goOn, hmax]
      obtain ⟨v, hv⟩ := Option.ne_none_iff_exists'.mp (hs.exported (.inl hl))
      refine ⟨_, List.mem_of_getElem? (List.getElem?_set_self (List.getElem?_eq_some_iff.mp hk).1),
        hl, v, hv, ?_⟩
      cases hr : u.read with
      | none => exact Nat.zero_le v
      | some r => exact (hs.read r hr).2 v hv
  · exact hdone

/-- An upload goes on without an effect of its own. -/
theorem Inv.stay (h : Inv rank w) (hk : w.uploads[k]? = some u) (confirmed : Bool) (st : Stage)
    (hl : st.hasLanded = false) (he : st.hasExported = true → u.stage.hasExported = true)
    (hf : st ≠ .begun ∧ st ≠ .versionRead) :
    Inv rank ({ w with confirmedOwnBackup := confirmed }.goOn k { u with stage := st }) := by
  have hs := h.sound u (List.mem_of_getElem? hk)
  refine h.goOn hk confirmed ⟨hs.read, fun hor => hs.exported (hor.imp_right he), ?_, ?_⟩ rfl
    fun _ => rfl
  · intro hl'
    rw [hl] at hl'
    cases hl'
  · intro hor
    exact absurd hor (not_or.mpr hf)

/-- The ownership check clears the upload or fails it. -/
theorem Inv.checked (h : Inv rank w) (hk : w.uploads[k]? = some u) {id : Option Nat}
    (hst : u.stage = .checking id) (http : Option (Http Envelope)) :
    Inv rank (checked w k u http) := by
  have he : u.stage.hasExported = true := by rw [hst]; rfl
  have hcleared : Inv rank ({ w with confirmedOwnBackup := true }.goOn k { u with stage := .cleared }) :=
    h.stay hk true .cleared rfl (fun _ => he) ⟨nofun, nofun⟩
  have hfailed : Inv rank (w.goOn k { u with stage := .failed }) :=
    h.stay hk w.confirmedOwnBackup .failed rfl nofun ⟨nofun, nofun⟩
  unfold Uploads.checked
  split
  · split
    · split
      · exact hcleared
      · exact hfailed
    · exact hfailed
  · exact hcleared

/-- An upload takes its export, of the state as it is now. -/
theorem Inv.takeExport (h : Inv rank w) (hk : w.uploads[k]? = some u)
    (hst : u.stage = .begun ∨ u.stage = .versionRead) (st : Stage) (hl : st.hasLanded = false)
    (hf : st ≠ .begun ∧ st ≠ .versionRead) :
    Inv rank (w.goOn k { u with stage := st, exported := some w.version }) := by
  have hs := h.sound u (List.mem_of_getElem? hk)
  obtain ⟨-, hland⟩ := hs.fresh hst
  refine h.goOn hk w.confirmedOwnBackup ⟨?_, fun _ => nofun, ?_, ?_⟩ rfl ?_
  · intro r hr
    refine ⟨(hs.read r hr).1, ?_⟩
    rintro v ⟨⟩
    exact (hs.read r hr).1
  · intro hl'
    rw [hl] at hl'
    cases hl'
  · intro hor
    exact absurd hor (not_or.mpr hf)
  · intro hl'
    rw [hland] at hl'
    cases hl'

/-- A step of one upload. -/
theorem Inv.upload {a : Action} (h : Inv rank w) (hk : w.uploads[k]? = some u)
    (horder : inOrder rank a w = true) (hkey : a.upload = some k)
    (hw : uploadStep rank a k u w = some w') : Inv rank w' := by
  have hs := h.sound u (List.mem_of_getElem? hk)
  unfold uploadStep at hw
  split at hw
  · -- `readLocal`
    rename_i hst
    cases hw
    obtain ⟨hexp, hland⟩ := hs.fresh (.inl hst)
    refine h.goOn hk w.confirmedOwnBackup ⟨?_, ?_, nofun, fun _ => ⟨hexp, hland⟩⟩ rfl fun _ => rfl
    · rintro r ⟨⟩
      refine ⟨Nat.le_refl _, fun v hv => ?_⟩
      rw [hexp] at hv
      cases hv
    · exact fun hor => hs.exported (hor.imp_right fun hx => by cases hx)
  · rename_i hst
    cases hw
    exact h.takeExport hk (.inr hst) .cleared rfl ⟨nofun, nofun⟩
  · rename_i hst
    cases hw
    exact h.takeExport hk (.inl hst) .exported rfl ⟨nofun, nofun⟩
  · rename_i hst
    cases hw
    have he : u.stage.hasExported = true := by rw [hst]; rfl
    cases hc : w.confirmedOwnBackup with
    | true => exact h.stay hk w.confirmedOwnBackup .cleared rfl (fun _ => he) ⟨nofun, nofun⟩
    | false =>
      exact h.stay hk w.confirmedOwnBackup (.checking _) rfl (fun _ => he) ⟨nofun, nofun⟩
  · rename_i id hst
    cases hw
    exact h.checked hk hst _
  · rename_i hst
    cases hw
    exact h.stay hk w.confirmedOwnBackup (.listed _) rfl (fun _ => by rw [hst]; rfl) ⟨nofun, nofun⟩
  · -- the write
    rename_i i id hst
    cases hkey
    cases hw
    simp only [inOrder, hk, hst, Bool.and_eq_true, List.all_eq_true, Bool.or_eq_true,
      Bool.not_eq_true', decide_eq_true_eq] at horder
    obtain ⟨hnewest, hfirst⟩ := horder
    refine h.act hk hst _ (left_written w u id ?_ hfirst) fun x hx hl => ?_
    · rintro i rfl
      have := first_lt hfirst
      simpa [written, uploadBackup] using this
    · rcases hnewest x hx with hno | hle
      · rw [hl] at hno
        cases hno
      · exact hle
  · rename_i hst
    cases hw
    exact h.finish hk hst
  · cases hw
  · cases hw
    exact h.stay hk w.confirmedOwnBackup .failed rfl nofun ⟨nofun, nofun⟩
  · cases hw

theorem Inv.step {a : Action} (h : Inv rank w) (horder : inOrder rank a w = true)
    (hw : step rank a w = some w') : Inv rank w' := by
  have hone : ∀ b : Action, inOrder rank b w = true →
      (b.upload.bind fun k => w.uploads[k]?.bind fun u => uploadStep rank b k u w) = some w' →
      Inv rank w' := by
    intro b hb hw'
    simp only [Option.bind_eq_some_iff] at hw'
    obtain ⟨k, hkey, u, hk, hu⟩ := hw'
    exact h.upload hk hb hkey hu
  cases a with
  | advance =>
    cases hw
    exact ⟨fun u hu => (h.sound u hu).mono (Nat.le_succ _), h.left, h.flushed⟩
  | begin flow =>
    cases hw
    refine ⟨fun u hu => ?_, fun hex => ?_, fun hf => ?_⟩
    · rcases List.mem_append.mp hu with hold | hnew
      · exact h.sound u hold
      · rw [List.mem_singleton.mp hnew]
        refine ⟨nofun, fun hor => ?_, nofun, fun _ => ⟨rfl, rfl⟩⟩
        rcases hor with hx | hx <;> cases hx
    · have hnot : ∀ u ∈ w.uploads ++ [({ flow } : Upload)], u.landed = true → u ∈ w.uploads := by
        intro u hu hl
        rcases List.mem_append.mp hu with hold | hnew
        · exact hold
        · rw [List.mem_singleton.mp hnew] at hl
          cases hl
      obtain ⟨u, hu, hl⟩ := hex
      obtain ⟨e, he, ⟨x, hx, hxl⟩, hnewest⟩ := h.left ⟨u, hnot u hu hl, hl⟩
      exact ⟨e, he, ⟨x, List.mem_append_left _ hx, hxl⟩,
        fun y hy hyl => hnewest y (hnot y hy hyl) hyl⟩
    · obtain ⟨u, hu, hrest⟩ := h.flushed hf
      exact ⟨u, List.mem_append_left _ hu, hrest⟩
  | _ => exact hone _ horder hw

/-! ## Runs -/

/-- In every run whose writes take effect in order, the backup is the newest once every upload
has completed. -/
theorem newest_of_inOrder (rank : Nat → Nat) (files : List Envelope) (w : World)
    (hrun : Steps (step rank) (fun a t => inOrder rank a t = true) { files } w)
    (hall : ∀ u ∈ w.uploads, u.stage = .completed) (hne : w.uploads ≠ []) : Newest rank w := by
  have h : Inv rank w := by
    refine hrun.invariant (I := Inv rank) ⟨fun _ hu => (List.not_mem_nil hu).elim, ?_, fun hf => absurd rfl hf⟩
      fun _ _ _ ht hP hw => ht.step hP hw
    rintro ⟨u, hu, -⟩
    cases hu
  have hland : ∀ u ∈ w.uploads, u.landed = true :=
    fun u hu => (h.sound u hu).landed (by rw [hall u hu]; rfl)
  obtain ⟨u, hu⟩ := List.exists_mem_of_ne_nil _ hne
  obtain ⟨e, he, ⟨x, hx, -, hv⟩, hnewest⟩ := h.left ⟨u, hu, hland u hu⟩
  refine ⟨e, he, ⟨x, hx, hv⟩, fun y hy v hyv => hnewest y hy (hland y hy) v hyv, ?_⟩
  by_cases hf : w.flushedVersion = 0
  · omega
  · obtain ⟨y, hy, hyl, v, hyv, hle⟩ := h.flushed hf
    exact Nat.le_trans hle (hnewest y hy hyl v hyv)

/-- Two uploads overlap, and the older lands first. -/
theorem newest_of_inOrder_overlapping : ∃ w,
    Steps (step id) (fun a t => inOrder id a t = true) { files := [⟨9, true⟩] } w ∧
      w.uploads.length = 2 ∧ w.flushedVersion = 1 ∧ Newest id w := by
  obtain ⟨w, hrun, hw⟩ := Steps.exists_of_play (step id) (inOrder id) { files := [⟨9, true⟩] }
    [.begin .flushTracked, .readLocal 0, .exportBackup 0, .advance, .begin .flushTracked,
      .readLocal 1, .exportBackup 1, .list 1, .list 0, .act 0, .finish 0, .act 1, .finish 1]
    (fun w => w.uploads.length = 2 ∧ w.flushedVersion = 1 ∧ w.uploads.all fun u => u.stage = .completed)
    (by decide +kernel)
  simp only [decide_eq_true_eq, List.all_eq_true] at hw
  obtain ⟨hlen, hflushed, hall⟩ := hw
  refine ⟨w, hrun, hlen, hflushed, newest_of_inOrder id _ w hrun hall ?_⟩
  intro hnil
  rw [hnil] at hlen
  cases hlen

/-- The older upload is slow and lands last: the backup is older than what is recorded as
flushed. -/
theorem not_newest_overtaken : ∃ w, Steps (step id) (fun _ _ => True) { files := [⟨9, true⟩] } w ∧
    (∀ u ∈ w.uploads, u.stage = .completed) ∧ w.uploads ≠ [] ∧ ¬ Newest id w := by
  obtain ⟨w, hrun, hw⟩ := Steps.exists_of_play (step id) (fun _ _ => true) { files := [⟨9, true⟩] }
    [.begin .flushTracked, .readLocal 0, .exportBackup 0, .advance, .begin .flushTracked,
      .readLocal 1, .exportBackup 1, .list 0, .list 1, .act 1, .finish 1, .act 0, .finish 0]
    (fun w => w.uploads.length = 2 ∧ w.left id = some ⟨0, true⟩ ∧ w.flushedVersion = 1 ∧
      w.uploads.all fun u => u.stage = .completed)
    (by decide +kernel)
  simp only [decide_eq_true_eq, List.all_eq_true] at hw
  obtain ⟨hlen, hleft, hflushed, hall⟩ := hw
  refine ⟨w, hrun.mono fun _ _ _ => trivial, hall, ?_, ?_⟩
  · intro hnil
    rw [hnil] at hlen
    cases hlen
  · rintro ⟨e, he, -, -, hle⟩
    rw [hleft] at he
    cases he
    rw [hflushed] at hle
    exact absurd hle (by decide)

end LibreWallet.Drive.Uploads
