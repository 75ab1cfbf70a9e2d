import LibreWallet.Async.System
import LibreWallet.Drive.Files

/-
  Drive/Register.lean --- the file verbs implement a register.

  Any number of clients call the verbs on one name, and the steps of their calls
  interleave: the list query, the request that follows, the return.  A call may stop
  anywhere, before or after its request took effect.  Writes may create several files;
  the order of the list query is what makes later calls agree on one.
-/

set_option autoImplicit false

namespace LibreWallet.Drive

open Async

variable {C : Type}

/-! ## Calls -/

/-- The contents of a file: which call wrote them, and when. -/
structure Stored (C : Type) where
  contents : C
  writer : Option Nat
  time : Nat
  deriving DecidableEq, Repr

inductive Stage (C : Type) where
  | begun
  /-- The query found `seen` files, and the code took `id`. -/
  | listed (seen : Nat) (id : Option Nat)
  /-- The write has taken effect on `file`. -/
  | landed (seen file time : Nat)
  /-- The read has its answer. -/
  | got (result : Option (Stored C))
  deriving DecidableEq, Repr

structure Call (C : Type) where
  verb : Verb C
  began : Nat
  stage : Stage C := .begun
  completed : Option Nat := none
  deriving DecidableEq, Repr

structure World (C : Type) where
  clock : Nat := 1
  files : List (Stored C)
  calls : List (Call C) := []
  deriving DecidableEq, Repr

inductive Action (C : Type) where
  | begin (verb : Verb C)
  | list (k : Nat)
  /-- The request after the list query takes effect, or there is none. -/
  | act (k : Nat)
  /-- The call returns to its caller. -/
  | complete (k : Nat)
  deriving DecidableEq, Repr

/-- A call goes on to a stage, and time passes. -/
def World.goOn (w : World C) (k : Nat) (c : Call C) (stage : Stage C) (files : List (Stored C)) :
    World C :=
  { clock := w.clock + 1, files, calls := w.calls.set k { c with stage } }

/-- What a request does for call `k`. -/
def request (w : World C) (k : Nat) (c : Call C) (seen : Nat) : Option (Http C) → Option (World C)
  | some (.update id contents) =>
    if id < w.files.length then
      some (w.goOn k c (.landed seen id w.clock) (w.files.set id ⟨contents, some k, w.clock⟩))
    else none
  | some (.create contents) =>
    some (w.goOn k c (.landed seen w.files.length w.clock)
      (w.files ++ [⟨contents, some k, w.clock⟩]))
  | some (.download id) => some (w.goOn k c (.got w.files[id]?) w.files)
  | none => some (w.goOn k c (.got none) w.files)

def step (rank : Nat → Nat) : Action C → World C → Option (World C)
  | .begin verb, w =>
    some { w with clock := w.clock + 1, calls := w.calls ++ [{ verb, began := w.clock }] }
  | .list k, w =>
    match w.calls[k]? with
    | some ⟨verb, began, .begun, completed⟩ =>
      some (w.goOn k ⟨verb, began, .begun, completed⟩
        (.listed w.files.length (first rank w.files.length)) w.files)
    | _ => none
  | .act k, w =>
    match w.calls[k]? with
    | some ⟨verb, began, .listed seen id, completed⟩ =>
      request w k ⟨verb, began, .listed seen id, completed⟩ seen (verb.next id)
    | _ => none
  | .complete k, w =>
    match w.calls[k]? with
    | some ⟨verb, began, .landed seen file time, none⟩ =>
      some { w with
        clock := w.clock + 1
        calls := w.calls.set k ⟨verb, began, .landed seen file time, some w.clock⟩ }
    | some ⟨verb, began, .got result, none⟩ =>
      some { w with
        clock := w.clock + 1
        calls := w.calls.set k ⟨verb, began, .got result, some w.clock⟩ }
    | _ => none

/-- The name is absent, or present, even several times. -/
def initial (contents : List C) : World C :=
  { files := contents.map fun c => ⟨c, none, 0⟩ }

/-- `c` had returned before the time `t`. -/
def Call.completedBefore (c : Call C) (t : Nat) : Prop := ∃ t', c.completed = some t' ∧ t' < t

/-! ## The invariant -/

/-- What a call knows of the files. -/
structure Knows (rank : Nat → Nat) (w : World C) (c : Call C) : Prop where
  began : 0 < c.began ∧ c.began < w.clock
  completed : ∀ t, c.completed = some t → t < w.clock ∧
    ((∃ seen file time, c.stage = .landed seen file time ∧ time < t) ∨ ∃ r, c.stage = .got r)
  listed : ∀ seen id, c.stage = .listed seen id → id = first rank seen ∧ seen ≤ w.files.length ∧
    ∀ (g : Nat) (s : Stored C), seen ≤ g → w.files[g]? = some s → c.began ≤ s.time
  landed : ∀ seen file time, c.stage = .landed seen file time →
    file < w.files.length ∧ seen ≤ w.files.length ∧ (first rank seen = some file ∨ seen = 0) ∧
      time < w.clock ∧ ∀ (g : Nat) (s : Stored C), g = file ∨ seen ≤ g → w.files[g]? = some s → c.began ≤ s.time
  write : c.verb.contents ≠ none → ∀ r, c.stage ≠ .got r

/-- What a call knows of a write that had returned when it began. -/
structure Fresh (w : World C) (r c : Call C) : Prop where
  listed : ∀ seen id, r.stage = .listed seen id →
    ∃ i, id = some i ∧ ∀ s, w.files[i]? = some s → c.began ≤ s.time
  got : ∀ result, r.stage = .got result → ∃ s, result = some s ∧ c.began ≤ s.time

/-- Stored contents are those of the write that is said to have written them. -/
structure Written (w : World C) (s : Stored C) : Prop where
  time : s.time < w.clock
  first : s.writer = none → s.time = 0
  writer : ∀ k, s.writer = some k → ∃ c, w.calls[k]? = some c ∧ c.verb.contents = some s.contents ∧
    ∃ seen file, c.stage = .landed seen file s.time

structure Inv (rank : Nat → Nat) (w : World C) : Prop where
  knows : ∀ (k : Nat) (c : Call C), w.calls[k]? = some c → Knows rank w c
  fresh : ∀ (k : Nat) (r : Call C) (j : Nat) (c : Call C), w.calls[k]? = some r → w.calls[j]? = some c → c.verb.contents ≠ none →
    c.completedBefore r.began → Fresh w r c
  stored : ∀ (g : Nat) (s : Stored C), w.files[g]? = some s → Written w s
  results : ∀ (k : Nat) (c : Call C) (s : Stored C), w.calls[k]? = some c → c.stage = .got (some s) → Written w s

/-- Time passes: files stay, and what is new in them is as new as the step. -/
structure Later (w w' : World C) : Prop where
  clock : w.clock < w'.clock
  length : w.files.length ≤ w'.files.length
  files : ∀ (g : Nat) (s : Stored C), w'.files[g]? = some s → w.files[g]? = some s ∨ s.time = w.clock

variable {rank : Nat → Nat} {w w' : World C} {c c' r : Call C}

/-- What was written since a time before the step still is. -/
theorem Later.since (hl : Later w w') {g : Nat} {t : Nat} (ht : t < w.clock)
    (h : ∀ s, w.files[g]? = some s → t ≤ s.time) : ∀ s, w'.files[g]? = some s → t ≤ s.time := by
  intro s hs
  rcases hl.files g s hs with hold | hnew
  · exact h s hold
  · omega

theorem Knows.later (h : Knows rank w c) (hl : Later w w') : Knows rank w' c where
  began := ⟨h.began.1, Nat.lt_trans h.began.2 hl.clock⟩
  completed := fun t ht => ⟨Nat.lt_trans (h.completed t ht).1 hl.clock, (h.completed t ht).2⟩
  listed := by
    intro seen id hst
    obtain ⟨hid, hle, hsince⟩ := h.listed seen id hst
    exact ⟨hid, Nat.le_trans hle hl.length,
      fun g s hg => hl.since h.began.2 (fun s hs => hsince g s hg hs) s⟩
  landed := by
    intro seen file time hst
    obtain ⟨hlt, hle, hfirst, htime, hsince⟩ := h.landed seen file time hst
    exact ⟨Nat.lt_of_lt_of_le hlt hl.length, Nat.le_trans hle hl.length, hfirst,
      Nat.lt_trans htime hl.clock,
      fun g s hg => hl.since h.began.2 (fun s hs => hsince g s hg hs) s⟩
  write := h.write

theorem Fresh.later (h : Fresh w r c) (hc : c.began < w.clock) (hl : Later w w') : Fresh w' r c where
  listed := by
    intro seen id hst
    obtain ⟨i, hid, hsince⟩ := h.listed seen id hst
    exact ⟨i, hid, hl.since hc hsince⟩
  got := h.got

/-- A write that has returned has taken effect. -/
theorem Knows.landed_of_completed (h : Knows rank w c) (hw : c.verb.contents ≠ none) {t : Nat}
    (ht : c.completed = some t) : ∃ seen file time, c.stage = .landed seen file time ∧ time < t := by
  rcases (h.completed t ht).2 with hl | ⟨r, hr⟩
  · exact hl
  · exact absurd hr (h.write hw r)

/-- What a list query finds was written since any write that has returned began. -/
theorem Knows.first_since (h : Knows rank w c) (hw : c.verb.contents ≠ none) {t : Nat}
    (ht : c.completed = some t) : ∃ i, first rank w.files.length = some i ∧
      ∀ s, w.files[i]? = some s → c.began ≤ s.time := by
  obtain ⟨seen, file, time, hst, -⟩ := h.landed_of_completed hw ht
  obtain ⟨hlt, hle, hfirst, -, hsince⟩ := h.landed seen file time hst
  obtain ⟨i, hi⟩ := first_isSome rank (Nat.lt_of_le_of_lt (Nat.zero_le _) hlt)
  refine ⟨i, hi, fun s hs => hsince i s ?_ hs⟩
  rcases first_of_le hle hi with hnew | hsame
  · exact .inr hnew
  · rcases hfirst with hf | rfl
    · rw [hsame] at hf
      cases hf
      exact .inl rfl
    · cases hsame

/-- The calls after one of them has moved. -/
theorem getElem?_set_cases {calls : List (Call C)} {k i : Nat} {d : Call C}
    (h : (calls.set k c')[i]? = some d) : (i = k ∧ d = c') ∨ (i ≠ k ∧ calls[i]? = some d) := by
  by_cases hik : i = k
  · subst hik
    rw [List.getElem?_set] at h
    simp only [if_true] at h
    split at h
    · cases h
      exact .inl ⟨rfl, rfl⟩
    · cases h
  · rw [List.getElem?_set_ne (Ne.symm hik)] at h
    exact .inr ⟨hik, h⟩

/-- What a call has written it has written. -/
theorem Written.later {s : Stored C} (h : Written w s) {k : Nat} (hk : w.calls[k]? = some c)
    (hl : w.clock < w'.clock) (hcalls : w'.calls = w.calls.set k c') (hverb : c'.verb = c.verb)
    (hlanded : ∀ seen file time, c.stage = .landed seen file time →
      c'.stage = .landed seen file time) : Written w' s := by
  refine ⟨Nat.lt_trans h.time hl, h.first, fun i hi => ?_⟩
  obtain ⟨d, hd, hcontents, seen, file, hst⟩ := h.writer i hi
  rw [hcalls]
  by_cases hik : i = k
  · subst hik
    rw [hk] at hd
    cases hd
    refine ⟨c', List.getElem?_set_self (List.getElem?_eq_some_iff.mp hk).1, ?_, seen, file,
      hlanded _ _ _ hst⟩
    rw [hverb]
    exact hcontents
  · exact ⟨d, by rw [List.getElem?_set_ne (Ne.symm hik)]; exact hd, hcontents, seen, file, hst⟩

/-- A step of one call. -/
theorem Inv.move (h : Inv rank w) {k : Nat} (hk : w.calls[k]? = some c) (hl : Later w w')
    (hcalls : w'.calls = w.calls.set k c') (hverb : c'.verb = c.verb) (hbegan : c'.began = c.began)
    (hcompleted : c'.completed = c.completed ∨ c'.completed = some w.clock)
    (hlanded : ∀ seen file time, c.stage = .landed seen file time →
      c'.stage = .landed seen file time)
    (hknows : Knows rank w' c')
    (hfresh : ∀ (j : Nat) (d : Call C), w.calls[j]? = some d → d.verb.contents ≠ none → d.completedBefore c.began →
      Fresh w' c' d)
    (hfiles : ∀ (g : Nat) (s : Stored C), w'.files[g]? = some s → w.files[g]? = some s ∨ Written w' s)
    (hresult : ∀ s, c'.stage = .got (some s) → Written w' s) : Inv rank w' := by
  have hcb : ∀ t, t ≤ w.clock → c'.completedBefore t → c.completedBefore t := by
    rintro t ht ⟨t', ht', hlt⟩
    rcases hcompleted with heq | heq
    · exact ⟨t', heq ▸ ht', hlt⟩
    · rw [heq] at ht'
      cases ht'
      omega
  have hfresh' : ∀ (i : Nat) (r : Call C), w.calls[i]? = some r →
      ∀ (j : Nat) (d : Call C), w.calls[j]? = some d →
      d.verb.contents ≠ none → d.completedBefore r.began → Fresh w' r d :=
    fun i r hr j d hd hw hb => (h.fresh i r j d hr hd hw hb).later (h.knows j d hd).began.2 hl
  have hch : ∀ r, Fresh w' r c → Fresh w' r c' :=
    fun r hf => ⟨fun seen id hst => hbegan ▸ hf.listed seen id hst,
      fun result hst => hbegan ▸ hf.got result hst⟩
  refine ⟨fun i d hd => ?_, fun i r j d hr hd hw hb => ?_, fun g s hs => ?_, fun i d s hd hst => ?_⟩
  · rw [hcalls] at hd
    rcases getElem?_set_cases hd with ⟨rfl, rfl⟩ | ⟨-, hd⟩
    · exact hknows
    · exact (h.knows i d hd).later hl
  · rw [hcalls] at hr hd
    rcases getElem?_set_cases hr with ⟨rfl, rfl⟩ | ⟨-, hr'⟩
    · rw [hbegan] at hb
      rcases getElem?_set_cases hd with ⟨rfl, rfl⟩ | ⟨-, hd⟩
      · -- its own earlier return
        have hb' := hcb _ (Nat.le_of_lt (h.knows _ c hk).began.2) hb
        have hf := hfresh _ c hk (hverb ▸ hw) hb'
        exact ⟨fun seen id hst => hbegan ▸ hf.listed seen id hst,
          fun result hst => hbegan ▸ hf.got result hst⟩
      · exact hfresh j d hd hw hb
    · rcases getElem?_set_cases hd with ⟨rfl, rfl⟩ | ⟨-, hd⟩
      · have hb' := hcb _ (Nat.le_of_lt (h.knows i r hr').began.2) hb
        exact hch r (hfresh' i r hr' _ c hk (hverb ▸ hw) hb')
      · exact hfresh' i r hr' j d hd hw hb
  · rcases hfiles g s hs with hold | hnew
    · exact (h.stored g s hold).later hk hl.clock hcalls hverb hlanded
    · exact hnew
  · rw [hcalls] at hd
    rcases getElem?_set_cases hd with ⟨rfl, rfl⟩ | ⟨-, hd⟩
    · exact hresult s hst
    · exact (h.results i d s hd hst).later hk hl.clock hcalls hverb hlanded

/-! ## Steps -/

theorem Later.same (hclock : w.clock < w'.clock) (hfiles : w'.files = w.files) : Later w w' :=
  ⟨hclock, Nat.le_of_eq (by rw [hfiles]), fun g s hs => .inl (hfiles ▸ hs)⟩

theorem Inv.begin (h : Inv rank w) (hpos : 0 < w.clock) (verb : Verb C) :
    Inv rank { w with clock := w.clock + 1, calls := w.calls ++ [{ verb, began := w.clock }] } := by
  have hl : Later w { w with clock := w.clock + 1, calls := w.calls ++ [{ verb, began := w.clock }] } :=
    .same (Nat.lt_succ_self _) rfl
  have hcases : ∀ (i : Nat) (d : Call C), (w.calls ++ [{ verb, began := w.clock }])[i]? = some d →
      w.calls[i]? = some d ∨ d = { verb, began := w.clock } := by
    intro i d hd
    rw [List.getElem?_append] at hd
    split at hd
    · exact .inl hd
    · exact .inr (List.mem_singleton.mp (List.mem_of_getElem? hd))
  have hwritten : ∀ s, Written w s → Written
      { w with clock := w.clock + 1, calls := w.calls ++ [{ verb, began := w.clock }] } s := by
    intro s hs
    refine ⟨Nat.lt_succ_of_lt hs.time, hs.first, fun k hk => ?_⟩
    obtain ⟨d, hd, hrest⟩ := hs.writer k hk
    refine ⟨d, ?_, hrest⟩
    rw [List.getElem?_append_left (List.getElem?_eq_some_iff.mp hd).1]
    exact hd
  refine ⟨fun i d hd => ?_, fun i r j d hr hd hw hb => ?_, fun g s hs => hwritten s (h.stored g s hs),
    fun i d s hd hst => ?_⟩
  · rcases hcases i d hd with hold | rfl
    · exact (h.knows i d hold).later hl
    · exact ⟨⟨hpos, Nat.lt_succ_self _⟩, nofun, nofun, nofun, fun _ _ => nofun⟩
  · rcases hcases i r hr with hr' | rfl
    · rcases hcases j d hd with hd' | rfl
      · exact (h.fresh i r j d hr' hd' hw hb).later (h.knows j d hd').began.2 hl
      · obtain ⟨t, ht, -⟩ := hb
        cases ht
    · exact ⟨nofun, nofun⟩
  · rcases hcases i d hd with hold | rfl
    · exact hwritten s (h.results i d s hold hst)
    · cases hst

/-- The list query of a call. -/
theorem Inv.list (h : Inv rank w) {k : Nat} (hk : w.calls[k]? = some c) (hst : c.stage = .begun)
    (hnone : c.completed = none) :
    Inv rank (w.goOn k c (.listed w.files.length (first rank w.files.length)) w.files) := by
  have hc := h.knows k c hk
  have hl : Later w (w.goOn k c (.listed w.files.length (first rank w.files.length)) w.files) :=
    .same (Nat.lt_succ_self _) rfl
  refine h.move hk hl rfl rfl rfl (.inl rfl) ?_ ?_ ?_ (fun g s hs => .inl hs) nofun
  · intro seen file time hst'
    rw [hst] at hst'
    cases hst'
  · refine ⟨⟨hc.began.1, Nat.lt_succ_of_lt hc.began.2⟩, ?_, ?_, nofun, fun _ _ => nofun⟩
    · intro t ht
      rw [hnone] at ht
      cases ht
    · rintro seen id ⟨⟩
      refine ⟨rfl, Nat.le_refl _, fun g s hg hs => ?_⟩
      change w.files[g]? = some s at hs
      rw [List.getElem?_eq_none hg] at hs
      cases hs
  · rintro j d hd hw ⟨t, ht, -⟩
    have hd' := h.knows j d hd
    obtain ⟨i, hi, hsince⟩ := hd'.first_since hw ht
    refine ⟨?_, nofun⟩
    rintro seen id ⟨⟩
    exact ⟨i, hi, hsince⟩

/-- A write takes effect on a file that the list query found, or on a new one. -/
theorem Inv.land (h : Inv rank w) {k seen file : Nat} {id : Option Nat} {contents : C}
    {files : List (Stored C)} (hk : w.calls[k]? = some c) (hst : c.stage = .listed seen id)
    (hnone : c.completed = none) (hverb : c.verb.contents = some contents)
    (hlen : w.files.length ≤ files.length) (hfile : file < files.length)
    (hfirst : first rank seen = some file ∨ seen = 0)
    (hnew : ∀ (g : Nat) (s : Stored C), files[g]? = some s →
      w.files[g]? = some s ∧ g ≠ file ∨ s = ⟨contents, some k, w.clock⟩) :
    Inv rank (w.goOn k c (.landed seen file w.clock) files) := by
  have hc := h.knows k c hk
  obtain ⟨-, hle, hsince⟩ := hc.listed seen id hst
  have hl : Later w (w.goOn k c (.landed seen file w.clock) files) := by
    refine ⟨Nat.lt_succ_self _, hlen, fun g s hs => ?_⟩
    rcases hnew g s hs with ⟨hold, -⟩ | rfl
    · exact .inl hold
    · exact .inr rfl
  refine h.move hk hl rfl rfl rfl (.inl rfl) ?_ ?_ ?_ (fun g s hs => ?_) nofun
  · intro seen' file' time' hst'
    rw [hst] at hst'
    cases hst'
  · refine ⟨⟨hc.began.1, Nat.lt_succ_of_lt hc.began.2⟩, ?_, nofun, ?_, fun _ _ => nofun⟩
    · intro t ht
      rw [hnone] at ht
      cases ht
    · rintro seen' file' time' ⟨⟩
      refine ⟨hfile, Nat.le_trans hle hlen, hfirst, Nat.lt_succ_self _, fun g s hg hs => ?_⟩
      rcases hnew g s hs with ⟨hold, hne⟩ | rfl
      · exact hsince g s (hg.resolve_left hne) hold
      · exact Nat.le_of_lt hc.began.2
  · intro j d _ _ _
    exact ⟨nofun, nofun⟩
  · rcases hnew g s hs with ⟨hold, -⟩ | rfl
    · exact .inl hold
    · refine .inr ⟨Nat.lt_succ_self _, nofun, ?_⟩
      rintro k' ⟨⟩
      exact ⟨_, List.getElem?_set_self (List.getElem?_eq_some_iff.mp hk).1, hverb, seen, file, rfl⟩

/-- A read has its answer. -/
theorem Inv.get (h : Inv rank w) {k seen : Nat} {id : Option Nat} (hk : w.calls[k]? = some c)
    (hst : c.stage = .listed seen id) (hnone : c.completed = none) (hverb : c.verb.contents = none) :
    Inv rank (w.goOn k c (.got (id.bind fun i => w.files[i]?)) w.files) := by
  have hc := h.knows k c hk
  obtain ⟨hid, hle, -⟩ := hc.listed seen id hst
  have hl : Later w (w.goOn k c (.got (id.bind fun i => w.files[i]?)) w.files) :=
    .same (Nat.lt_succ_self _) rfl
  have hlanded : ∀ seen' file time, c.stage = .landed seen' file time →
      Stage.got (id.bind fun i => w.files[i]?) = .landed seen' file time := by
    intro seen' file time hst'
    rw [hst] at hst'
    cases hst'
  refine h.move hk hl rfl rfl rfl (.inl rfl) hlanded ?_ ?_ (fun g s hs => .inl hs) ?_
  · refine ⟨⟨hc.began.1, Nat.lt_succ_of_lt hc.began.2⟩, ?_, nofun, nofun, ?_⟩
    · intro t ht
      rw [hnone] at ht
      cases ht
    · exact fun hw => absurd hverb hw
  · intro j d hd hw hb
    obtain ⟨i, rfl, hsince⟩ := (h.fresh k c j d hk hd hw hb).listed seen id hst
    refine ⟨nofun, ?_⟩
    rintro result ⟨⟩
    have hi : i < w.files.length := Nat.lt_of_lt_of_le (first_lt hid.symm) hle
    exact ⟨w.files[i], by simp [hi], hsince _ (List.getElem?_eq_getElem hi)⟩
  · intro s hs
    simp only [Stage.got.injEq, Option.bind_eq_some_iff] at hs
    obtain ⟨i, -, hi⟩ := hs
    exact (h.stored i s hi).later hk (Nat.lt_succ_self _) rfl rfl hlanded

/-- A call returns. -/
theorem Inv.complete (h : Inv rank w) {k : Nat} (hk : w.calls[k]? = some c)
    (hst : (∃ seen file time, c.stage = .landed seen file time) ∨ ∃ r, c.stage = .got r) :
    Inv rank { w with
      clock := w.clock + 1
      calls := w.calls.set k { c with completed := some w.clock } } := by
  have hc := h.knows k c hk
  have hl : Later w { w with
      clock := w.clock + 1, calls := w.calls.set k { c with completed := some w.clock } } :=
    .same (Nat.lt_succ_self _) rfl
  refine h.move hk hl rfl rfl rfl (.inr rfl) (fun _ _ _ hst' => hst') ?_ ?_
    (fun g s hs => .inl hs) ?_
  · have hlater := hc.later hl
    refine ⟨hlater.began, ?_, hlater.listed, hlater.landed, hlater.write⟩
    rintro t ⟨⟩
    refine ⟨Nat.lt_succ_self _, ?_⟩
    rcases hst with ⟨seen, file, time, hst⟩ | hgot
    · exact .inl ⟨seen, file, time, hst, (hc.landed seen file time hst).2.2.2.1⟩
    · exact .inr hgot
  · intro j d hd hw hb
    have hf := (h.fresh k c j d hk hd hw hb).later (h.knows j d hd).began.2 hl
    exact ⟨hf.listed, hf.got⟩
  · intro s hs
    exact (h.results k c s hk hs).later hk (Nat.lt_succ_self _) rfl rfl fun _ _ _ hst' => hst'

/-- A call that is still going on has not returned. -/
theorem Knows.going (h : Knows rank w c)
    (hst : c.stage = .begun ∨ ∃ seen id, c.stage = .listed seen id) : c.completed = none := by
  cases hc : c.completed with
  | none => rfl
  | some t =>
    rcases (h.completed t hc).2 with ⟨seen, file, time, hl, -⟩ | ⟨r, hr⟩
    · rcases hst with hst | ⟨seen', id, hst⟩ <;> (rw [hst] at hl; cases hl)
    · rcases hst with hst | ⟨seen', id, hst⟩ <;> (rw [hst] at hr; cases hr)

/-- The request of a call. -/
theorem Inv.act (h : Inv rank w) {k seen : Nat} {id : Option Nat} (hk : w.calls[k]? = some c)
    (hst : c.stage = .listed seen id) (hw : request w k c seen (c.verb.next id) = some w') :
    Inv rank w' := by
  have hc := h.knows k c hk
  have hnone := hc.going (.inr ⟨seen, id, hst⟩)
  obtain ⟨hid, -, -⟩ := hc.listed seen id hst
  cases hverb : c.verb.contents with
  | none =>
    have hget := h.get hk hst hnone hverb
    rw [Verb.next_read hverb] at hw
    cases id with
    | none =>
      cases hw
      exact hget
    | some i =>
      cases hw
      exact hget
  | some contents =>
    rw [Verb.next_write hverb] at hw
    cases id with
    | none =>
      -- no file was found: a new one is made
      cases hw
      refine h.land hk hst hnone hverb (by simp) (by simp) (.inr ?_) fun g s hs => ?_
      · cases seen with
        | zero => rfl
        | succ n =>
          obtain ⟨i, hi⟩ := first_isSome rank (Nat.succ_pos n)
          rw [hi] at hid
          cases hid
      · rw [List.getElem?_append] at hs
        split at hs
        · rename_i hlt
          exact .inl ⟨hs, Nat.ne_of_lt hlt⟩
        · exact .inr (List.mem_singleton.mp (List.mem_of_getElem? hs))
    | some i =>
      simp only [request] at hw
      split at hw
      · rename_i hlt
        cases hw
        refine h.land hk hst hnone hverb (by simp) (by simpa using hlt) (.inl hid.symm)
          fun g s hs => ?_
        rw [List.getElem?_set] at hs
        split at hs
        · cases hs
          exact .inr rfl
        · rename_i hne
          exact .inl ⟨hs, Ne.symm hne⟩
      · cases hw

theorem Inv.step {a : Action C} (h : Inv rank w) (hpos : 0 < w.clock)
    (hw : step rank a w = some w') : Inv rank w' ∧ 0 < w'.clock := by
  cases a with
  | begin verb =>
    cases hw
    exact ⟨h.begin hpos verb, Nat.succ_pos _⟩
  | list k =>
    simp only [Drive.step] at hw
    split at hw
    · rename_i verb began completed hk
      cases hw
      exact ⟨h.list hk rfl ((h.knows k _ hk).going (.inl rfl)), Nat.succ_pos _⟩
    · cases hw
  | act k =>
    simp only [Drive.step] at hw
    split at hw
    · rename_i verb began seen id completed hk
      refine ⟨h.act hk rfl hw, ?_⟩
      have hclock : w'.clock = w.clock + 1 := by
        revert hw
        generalize verb.next id = http
        intro hw
        cases http with
        | none =>
          cases hw
          rfl
        | some http =>
          cases http with
          | update i contents =>
            simp only [request] at hw
            split at hw <;> cases hw
            rfl
          | create contents =>
            cases hw
            rfl
          | download i =>
            cases hw
            rfl
      omega
    · cases hw
  | complete k =>
    simp only [Drive.step] at hw
    split at hw
    · rename_i verb began seen file time hk
      cases hw
      exact ⟨h.complete hk (.inl ⟨seen, file, time, rfl⟩), Nat.succ_pos _⟩
    · rename_i verb began result hk
      cases hw
      exact ⟨h.complete hk (.inr ⟨result, rfl⟩), Nat.succ_pos _⟩
    · cases hw

theorem Inv.initial (rank : Nat → Nat) (contents : List C) : Inv rank (initial contents) := by
  refine ⟨nofun, nofun, fun g s hs => ?_, nofun⟩
  obtain ⟨c, -, rfl⟩ := List.mem_map.mp (List.mem_of_getElem? hs)
  exact ⟨Nat.one_pos, fun _ => rfl, nofun⟩

/-! ## The register -/

/-- In every run, a read that began after a write had returned has the contents of a write
that had not returned when that write began: of that write, or of one that did not
complete before it. -/
theorem read_of_completed (rank : Nat → Nat) (contents : List C) (w : World C)
    (hrun : Steps (step rank) (fun _ _ => True) (initial contents) w) (k j : Nat) (r c : Call C)
    (result : Option (Stored C)) (hr : w.calls[k]? = some r) (hgot : r.stage = .got result)
    (hc : w.calls[j]? = some c) (hwrite : c.verb.contents ≠ none)
    (hbefore : c.completedBefore r.began) :
    ∃ (i : Nat) (d : Call C) (s : Stored C), w.calls[i]? = some d ∧ result = some s ∧ d.verb.contents = some s.contents ∧
      ¬ d.completedBefore c.began := by
  obtain ⟨hinv, -⟩ : Inv rank w ∧ 0 < w.clock :=
    hrun.invariant (I := fun w => Inv rank w ∧ 0 < w.clock) ⟨.initial rank contents, Nat.one_pos⟩
      fun _ _ _ h _ hw => h.1.step h.2 hw
  obtain ⟨s, rfl, hsince⟩ := (hinv.fresh k r j c hr hc hwrite hbefore).got result hgot
  have hs := hinv.results k r s hr hgot
  have hpos := (hinv.knows j c hc).began.1
  cases hwr : s.writer with
  | none =>
    have := hs.first hwr
    omega
  | some i =>
    obtain ⟨d, hd, hcontents, seen, file, hst⟩ := hs.writer i hwr
    refine ⟨i, d, s, hd, rfl, hcontents, ?_⟩
    -- a write that has returned took effect before it returned
    rintro ⟨t, ht, hlt⟩
    rcases ((hinv.knows i d hd).completed t ht).2 with ⟨_, _, time, hl, htime⟩ | ⟨r', hr'⟩
    · rw [hst] at hl
      cases hl
      omega
    · rw [hst] at hr'
      cases hr'

/-- Two first writes overlap and make a file each; a read that follows the first of them
has the contents of the other. -/
theorem read_of_completed_overlapping : ∃ (w : World Nat) (r c : Call Nat) (i : Nat) (d : Call Nat)
    (s : Stored Nat), Steps (step fun n => 1 - n) (fun _ _ => True) (initial []) w ∧
      w.calls[2]? = some r ∧ r.stage = .got (some s) ∧ w.calls[0]? = some c ∧
      c.completedBefore r.began ∧ w.calls[i]? = some d ∧ d.verb.contents = some s.contents ∧
      ¬ d.completedBefore c.began := by
  obtain ⟨w, hrun, hw⟩ := Steps.exists_of_play (step fun n => 1 - n) (fun _ _ => true) (initial [])
    [.begin (.writeAppDataFile 7), .begin (.writeAppDataFile 8), .list 0, .list 1, .act 0,
      .complete 0, .act 1, .begin .readAppDataFile, .list 2, .act 2, .complete 2]
    (fun w => w.calls.take 1 = [⟨.writeAppDataFile 7, 1, .landed 0 0 5, some 6⟩] ∧
      w.calls[2]? = some ⟨.readAppDataFile, 8, .got (some ⟨8, some 1, 7⟩), some 11⟩)
    (by decide +kernel)
  simp only [decide_eq_true_eq] at hw
  obtain ⟨h0, h2⟩ := hw
  have hc : w.calls[0]? = some ⟨.writeAppDataFile 7, 1, .landed 0 0 5, some 6⟩ := by
    have := congrArg (fun l => l[0]?) h0
    simpa using this
  have hrun' : Steps (step fun n => 1 - n) (fun _ _ => True) (initial []) w :=
    hrun.mono fun _ _ _ => trivial
  have hbefore : Call.completedBefore (⟨.writeAppDataFile 7, 1, .landed 0 0 5, some 6⟩ : Call Nat) 8 :=
    ⟨6, rfl, by decide⟩
  obtain ⟨i, d, s, hd, hs, hcontents, hnot⟩ := read_of_completed (fun n => 1 - n) [] w hrun' 2 0
    _ _ _ h2 rfl hc (by decide) hbefore
  exact ⟨w, _, _, i, d, s, hrun', h2, by rw [hs], hc, hbefore, hd, hcontents, hnot⟩

end LibreWallet.Drive
