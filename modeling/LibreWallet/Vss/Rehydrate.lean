import LibreWallet.Async.Faults
import LibreWallet.Persist.Storage
import Mathlib.Data.List.Nodup

/-
  Vss/Rehydrate.lean --- the state is restored from the VSS replica, and cut off.

  Mirrors `maybeRestoreStateFromVss` and `importState` of
  `libre-listener-wallet/src/index.ts`, which run inside `start` before anything else uses
  the storage.  The seed is there and the channel manager is not; the envelope's entries
  are written in their order, the seed last.  Decryption is a parameter: it fails on a bad
  envelope.  The start goes on after a failure: with the cache that it had loaded before, and
  where no channel manager is stored with a fresh one, which it stores in its turn.
-/

set_option autoImplicit false

namespace LibreWallet.Vss.Rehydrate

open Async Persist

/-- `MONITOR_HIGHWATER_KEY` -/
def monitorHighwater : Key := .other "monitor_update_highwater"

/-- A decrypted backup: the entries of an object have different keys, and the high-water mark is
never exported. -/
structure Payload where
  network : String
  entries : List (Key × String)
  nodup : (entries.map Prod.fst).Nodup
  noMark : monitorHighwater ∉ entries.map Prod.fst

abbrev Disk := Key → Option String

structure World where
  disk : Disk
  /-- The envelope on the server. -/
  replica : Option String

inductive Request where
  | getItem (key : Key)
  | setItem (key : Key) (value : String)
  | removeItem (key : Key)
  | getObject
  deriving DecidableEq, Repr

def Request.Answer : Request → Type
  | getItem _ | getObject => Option String
  | setItem _ _ | removeItem _ => Unit

/-- A change of one key. -/
def World.change (m : Key × Option String) (w : World) : World :=
  { w with disk := Function.update w.disk m.1 m.2 }

def serve : (q : Request) → World → World × q.Answer
  | .getItem key, w => (w, w.disk key)
  | .setItem key value, w => (w.change (key, some value), ())
  | .removeItem key, w => (w.change (key, none), ())
  | .getObject, w => (w, w.replica)

abbrev P (α : Type) := Proc World Request Request.Answer String α

def getItem (key : Key) : P (Option String) := Proc.request (Request.getItem key)

def setItem (key : Key) (value : String) : P Unit := Proc.request (Request.setItem key value)

def removeItem (key : Key) : P Unit := Proc.request (Request.removeItem key)

def getObject : P (Option String) := Proc.request Request.getObject

section

variable (decryptAndParse : String → String → Option Payload) (network : String)

/-- The entries one after another. -/
def setItems : List (Key × String) → P Unit
  | [] => .done ()
  | (key, value) :: entries => (setItem key value).bind fun _ => setItems entries

/-- `importState`; the wallet is not running. -/
def importState (envelope secret : String) : P Unit :=
  match decryptAndParse envelope secret with
  | none => .fail "backup does not decrypt"
  | some payload =>
    if payload.network ≠ network then .fail "Backup network mismatch"
    else
      (removeItem monitorHighwater).bind fun _ =>
        (setItems (payload.entries.filter fun e => e.1 ≠ .ldkSeed)).bind fun _ =>
          setItems (payload.entries.filter fun e => e.1 = .ldkSeed)

/-- Put the mark back that was there before. -/
def restoreMark : Option String → P Unit
  | some mark => setItem monitorHighwater mark
  | none => .done ()

/-- The body of the `try` of `maybeRestoreStateFromVss`. -/
def tryRestore (seedHex : String) : P Bool :=
  (getItem .channelManager).bind fun manager =>
    if manager.isSome then .done false
    else
      getObject.bind fun obj =>
        match obj with
        | none => .done false
        | some envelope =>
          (getItem monitorHighwater).bind fun retainedHighwater =>
            (importState decryptAndParse network envelope seedHex).bind fun _ =>
              (restoreMark retainedHighwater).bind fun _ => .done true

def maybeRestoreStateFromVss (seedHex : String) : P Bool :=
  (tryRestore decryptAndParse network seedHex).rescue fun _ => .done false

end

/-! ## The steps of a re-hydration -/

/-- The entries in the order of their writes. -/
def Payload.writes (payload : Payload) : List (Key × String) :=
  payload.entries.filter (fun e => e.1 ≠ .ldkSeed) ++ payload.entries.filter fun e => e.1 = .ldkSeed

/-- The entries as changes. -/
abbrev asChanges (entries : List (Key × String)) : List (Key × Option String) :=
  entries.map fun e => (e.1, some e.2)

/-- Every change of a re-hydration. -/
def changes (payload : Payload) (retained : Option String) : List (Key × Option String) :=
  (monitorHighwater, none) :: asChanges payload.writes ++
    retained.toList.map fun mark => (monitorHighwater, some mark)

/-- A step changes a key or, as a read, nothing. -/
def applyStep : Option (Key × Option String) → World → World
  | some m, w => w.change m
  | none, w => w

/-- Three reads, and the changes. -/
def steps (payload : Payload) (retained : Option String) : List (Option (Key × Option String)) :=
  none :: none :: none :: (changes payload retained).map some

variable {decryptAndParse : String → String → Option Payload} {network : String} {w : World}

theorem execute_setItems (entries : List (Key × String)) (fates : List (Fate String)) (w : World) :
    (setItems entries).execute serve fates w =
      Proc.runSteps applyStep (.returned ()) ((asChanges entries).map some) fates w := by
  induction entries generalizing fates w with
  | nil => rfl
  | cons e entries ih =>
    exact Proc.execute_request_steps (q := Request.setItem e.1 e.2) rfl (fun fates => ih fates _) fates

theorem execute_restoreMark (retained : Option String) (fates : List (Fate String)) (w : World) :
    ((restoreMark retained).bind fun _ => (.done true : P Bool)).execute serve fates w =
      Proc.runSteps applyStep (.returned true)
        ((retained.toList.map fun mark => (monitorHighwater, some mark)).map some) fates w := by
  cases retained with
  | none => rfl
  | some mark =>
    exact Proc.execute_request_steps (q := Request.setItem monitorHighwater mark) rfl
      (fun _ => rfl) fates

theorem execute_importState {envelope seedHex : String} {payload : Payload}
    (hp : decryptAndParse envelope seedHex = some payload) (hn : payload.network = network)
    (fates : List (Fate String)) (w : World) :
    (importState decryptAndParse network envelope seedHex).execute serve fates w =
      Proc.runSteps applyStep (.returned ())
        (((monitorHighwater, none) :: asChanges payload.writes).map some) fates w := by
  unfold importState
  simp only [hp, hn, ne_eq, not_true_eq_false, if_false]
  refine Proc.execute_request_steps (q := Request.removeItem monitorHighwater) rfl (fun fates => ?_) fates
  rw [Payload.writes, asChanges, List.map_append, List.map_append]
  exact Proc.execute_bind_steps (execute_setItems _ fates _) fun fates w => execute_setItems _ fates w

/-- The envelope on the server, if it opens and is of this network. -/
def replicaPayload (decryptAndParse : String → String → Option Payload) (network seedHex : String)
    (w : World) : Option Payload :=
  w.replica.bind fun envelope => (decryptAndParse envelope seedHex).filter fun p => p.network = network

theorem execute_tryRestore {seedHex : String} {payload : Payload} (hnone : w.disk .channelManager = none)
    (hp : replicaPayload decryptAndParse network seedHex w = some payload) (fates : List (Fate String)) :
    (tryRestore decryptAndParse network seedHex).execute serve fates w =
      Proc.runSteps applyStep (.returned true) (steps payload (w.disk monitorHighwater)) fates w := by
  obtain ⟨envelope, hr, hf⟩ := Option.bind_eq_some_iff.mp hp
  rw [Option.filter_eq_some_iff] at hf
  obtain ⟨hd, hn⟩ := hf
  refine Proc.execute_request_steps (q := Request.getItem .channelManager) (m := none) rfl
    (fun fates => ?_) fates
  simp only [serve, hnone, Option.isSome_none, Bool.false_eq_true, if_false]
  refine Proc.execute_request_steps (q := Request.getObject) (m := none) rfl (fun fates => ?_) fates
  simp only [serve, applyStep, hr]
  refine Proc.execute_request_steps (q := Request.getItem monitorHighwater) (m := none) rfl
    (fun fates => ?_) fates
  rw [changes, List.map_append]
  exact Proc.execute_bind_steps (execute_importState hd (by simpa using hn) fates w) fun fates w' =>
    execute_restoreMark _ fates w'

/-- Without a good envelope there are only reads. -/
theorem execute_tryRestore_none {seedHex : String} (hnone : w.disk .channelManager = none)
    (hp : replicaPayload decryptAndParse network seedHex w = none) (fates : List (Fate String)) :
    ∃ last n, last ≠ .crashed ∧ (w.replica ≠ none → n = 3) ∧
      (tryRestore decryptAndParse network seedHex).execute serve fates w =
        Proc.runSteps applyStep last (List.replicate n none) fates w := by
  have hbad : ∀ envelope, w.replica = some envelope →
      ∃ e, importState decryptAndParse network envelope seedHex = .fail e := by
    intro envelope hr
    rw [replicaPayload, hr, Option.bind_some] at hp
    unfold importState
    cases hd : decryptAndParse envelope seedHex with
    | none => exact ⟨_, rfl⟩
    | some payload =>
      rw [hd, Option.filter_eq_none_iff] at hp
      have hne : payload.network ≠ network := by simpa using hp payload rfl
      exact ⟨_, if_pos hne⟩
  cases hr : w.replica with
  | none =>
    refine ⟨.returned false, 2, nofun, fun h => absurd rfl h, ?_⟩
    refine Proc.execute_request_steps (q := Request.getItem .channelManager) (m := none) rfl
      (fun fates => ?_) fates
    simp only [serve, hnone, Option.isSome_none, Bool.false_eq_true, if_false]
    refine Proc.execute_request_steps (q := Request.getObject) (m := none) rfl (fun fates => ?_) fates
    simp only [serve, applyStep, hr]
    rfl
  | some envelope =>
    obtain ⟨e, he⟩ := hbad envelope hr
    refine ⟨.threw e, 3, nofun, fun _ => rfl, ?_⟩
    refine Proc.execute_request_steps (q := Request.getItem .channelManager) (m := none) rfl
      (fun fates => ?_) fates
    simp only [serve, hnone, Option.isSome_none, Bool.false_eq_true, if_false]
    refine Proc.execute_request_steps (q := Request.getObject) (m := none) rfl (fun fates => ?_) fates
    simp only [serve, applyStep, hr]
    refine Proc.execute_request_steps (q := Request.getItem monitorHighwater) (m := none) rfl
      (fun fates => ?_) fates
    rw [he]
    rfl

/-- An error is caught, and answered with false. -/
def caught : End String Bool → End String Bool
  | .threw _ => .returned false
  | ended => ended

theorem caught_crashed {ended : End String Bool} : caught ended = .crashed ↔ ended = .crashed := by
  cases ended <;> simp [caught]

theorem execute_rescue_false (p : P Bool) (fates : List (Fate String)) (w : World) :
    ((p.rescue fun _ => .done false).execute serve fates w).1 = (p.execute serve fates w).1 ∧
      ((p.rescue fun _ => .done false).execute serve fates w).2.1 =
        caught (p.execute serve fates w).2.1 := by
  rw [Proc.execute_rescue]
  match p.execute serve fates w with
  | (w', .returned a, fates') => exact ⟨rfl, rfl⟩
  | (w', .threw e, fates') => exact ⟨rfl, rfl⟩
  | (w', .crashed, fates') => exact ⟨rfl, rfl⟩

/-! ## The storage after some of the changes -/

/-- A disk after changes of keys. -/
def applyAll (ms : List (Key × Option String)) (d : Disk) : Disk :=
  ms.foldl (fun d m => Function.update d m.1 m.2) d

variable {ms ms' : List (Key × Option String)} {d d' : Disk} {k : Key}

theorem applyAll_append (ms ms' : List (Key × Option String)) (d : Disk) :
    applyAll (ms ++ ms') d = applyAll ms' (applyAll ms d) := List.foldl_append ..

theorem applyAll_of_notMem (h : k ∉ ms.map Prod.fst) : applyAll ms d k = d k := by
  induction ms generalizing d with
  | nil => rfl
  | cons m ms ih =>
    simp only [List.map_cons, List.mem_cons, not_or] at h
    exact (ih h.2).trans (Function.update_of_ne h.1 _ _)

theorem applyAll_of_mem {v : Option String} (hnd : (ms.map Prod.fst).Nodup) (h : (k, v) ∈ ms) :
    applyAll ms d k = v := by
  induction ms generalizing d with
  | nil => cases h
  | cons m ms ih =>
    rw [List.map_cons, List.nodup_cons] at hnd
    rcases List.mem_cons.mp h with rfl | h
    · exact (applyAll_of_notMem hnd.1).trans (Function.update_self ..)
    · exact ih hnd.2 h

theorem foldl_applyStep (ms : List (Option (Key × Option String))) (w : World) :
    (ms.foldl (fun w m => applyStep m w) w).disk = applyAll (ms.filterMap id) w.disk := by
  induction ms generalizing w with
  | nil => rfl
  | cons m ms ih =>
    cases m with
    | none => exact ih w
    | some m => exact ih (w.change m)

theorem foldl_reads (n : Nat) (w : World) :
    (List.replicate n none).foldl (fun w m => applyStep m w) w = w := by
  induction n with
  | zero => rfl
  | succ n ih => exact ih

/-- After `n` requests. -/
theorem disk_steps (payload : Payload) (retained : Option String) (n : Nat) (w : World) :
    (((steps payload retained).take n).foldl (fun w m => applyStep m w) w).disk =
      applyAll ((changes payload retained).take (n - 3)) w.disk := by
  rw [foldl_applyStep]
  rcases n with - | - | - | n
  · rfl
  · rfl
  · rfl
  · congr 1
    simp only [steps, List.take_succ_cons, List.filterMap_cons, id_eq, ← List.map_take,
      List.filterMap_map]
    exact List.filterMap_some

/-- The keys that are written. -/
theorem Payload.mem_writes {payload : Payload} {e : Key × String} :
    e ∈ payload.writes ↔ e ∈ payload.entries := by
  simp only [writes, List.mem_append, List.mem_filter, decide_eq_true_eq]
  constructor
  · rintro (⟨h, -⟩ | ⟨h, -⟩) <;> exact h
  · intro h
    by_cases hs : e.1 = .ldkSeed
    · exact .inr ⟨h, hs⟩
    · exact .inl ⟨h, hs⟩

theorem Payload.writes_nodup (payload : Payload) : (payload.writes.map Prod.fst).Nodup := by
  have hperm : payload.writes.Perm payload.entries := by
    have h := List.filter_append_perm (fun e : Key × String => decide (e.1 ≠ .ldkSeed)) payload.entries
    simpa [writes] using h
  exact (hperm.map Prod.fst).nodup_iff.mpr payload.nodup

theorem applyAll_congr (h : d k = d' k) : applyAll ms d k = applyAll ms d' k := by
  induction ms generalizing d d' with
  | nil => exact h
  | cons m ms ih =>
    refine ih ?_
    simp only [Function.update_apply]
    split
    · rfl
    · exact h

theorem keys_asChanges (entries : List (Key × String)) :
    (asChanges entries).map Prod.fst = entries.map Prod.fst := by
  rw [List.map_map]
  rfl

/-- Any other key than the mark's, after `i` changes. -/
theorem disk_entry (payload : Payload) (retained : Option String) (i : Nat) (hk : k ≠ monitorHighwater) :
    applyAll ((changes payload retained).take i) d k =
      applyAll (asChanges (payload.writes.take (i - 1))) d k := by
  cases i with
  | zero => rfl
  | succ j =>
    rw [changes, List.cons_append, List.take_succ_cons, List.take_append, ← List.map_take]
    change applyAll (_ ++ _) (Function.update d monitorHighwater none) k = _
    rw [applyAll_append, applyAll_of_notMem]
    · exact applyAll_congr (Function.update_of_ne hk _ _)
    · intro hmem
      obtain ⟨m, hm, rfl⟩ := List.mem_map.mp hmem
      obtain ⟨mark, -, rfl⟩ := List.mem_map.mp (List.mem_of_mem_take hm)
      exact hk rfl

/-- The mark is gone after the first change, and back after the last. -/
theorem disk_mark (payload : Payload) (mark : String) {i : Nat}
    (hi : i ≤ (changes payload (some mark)).length) (hd : d monitorHighwater = some mark) :
    applyAll ((changes payload (some mark)).take i) d monitorHighwater = some mark ↔
      i = 0 ∨ i = (changes payload (some mark)).length := by
  have hlen : (changes payload (some mark)).length = payload.writes.length + 2 := by
    simp [changes]
  cases i with
  | zero => simpa [applyAll] using hd
  | succ j =>
    have hno : ∀ n, monitorHighwater ∉ (asChanges (payload.writes.take n)).map Prod.fst := by
      intro n hmem
      rw [keys_asChanges] at hmem
      obtain ⟨e, he, hkey⟩ := List.mem_map.mp hmem
      exact payload.noMark (List.mem_map.mpr ⟨e, Payload.mem_writes.mp (List.mem_of_mem_take he), hkey⟩)
    rw [hlen] at hi ⊢
    rw [changes, List.cons_append, List.take_succ_cons, List.take_append, ← List.map_take,
      List.length_map]
    change applyAll (_ ++ _) (Function.update d monitorHighwater none) monitorHighwater = _ ↔ _
    rw [applyAll_append]
    rcases Nat.lt_or_ge payload.writes.length j with hlt | hge
    · have hj : j - payload.writes.length = 1 := by omega
      rw [hj]
      have hback : applyAll [(monitorHighwater, some mark)]
          (applyAll (asChanges (payload.writes.take j)) (Function.update d monitorHighwater none))
          monitorHighwater = some mark := by
        simp [applyAll]
      refine iff_of_true hback (.inr ?_)
      omega
    · have hj : j - payload.writes.length = 0 := by omega
      rw [hj, List.take_zero]
      have hgone : applyAll (asChanges (payload.writes.take j))
          (Function.update d monitorHighwater none) monitorHighwater = none := by
        rw [applyAll_of_notMem (hno j)]
        exact Function.update_self ..
      refine iff_of_false ?_ (by omega)
      change applyAll (asChanges (payload.writes.take j))
          (Function.update d monitorHighwater none) monitorHighwater ≠ some mark
      rw [hgone]
      nofun

/-! ## The next start -/

/-- All that the envelope holds is on the disk. -/
def Complete (payload : Payload) (disk : Disk) : Prop := ∀ e ∈ payload.entries, disk e.1 = some e.2

/-- A key that LDK reads through the storage cache, as it reads the monitors. -/
def isKv : Key → Bool
  | .kv _ => true
  | _ => false

/-- A start runs on all that the envelope holds: it is on the disk, and the monitors are in the
cache. -/
def RunsOn (payload : Payload) (cache disk : Disk) : Prop :=
  Complete payload disk ∧ ∀ e ∈ payload.entries, isKv e.1 = true → cache e.1 = some e.2

/-- The cache with which the start goes on: it is read anew after a re-hydration only. -/
def cacheAfter (cache : Disk) (w : World) : End String Bool → Disk
  | .returned true => w.disk
  | _ => cache

/-- After a re-hydration that ran in `w₀`, with `cache` loaded before it, and ended in `w`: the
mark is in force; a start on this storage re-hydrates again, or has all of the envelope; and the
start that goes on, if it gets so far (`proceeds`: past the lease, the regression guard and the
reading of the manager), runs on all of the envelope, unless there was none.  It does not
re-hydrate: a manager that it does not find it makes, and stores. -/
structure Safe (payload : Option Payload) (w₀ : World) (cache : Disk) (proceeds : Bool) (w : World)
    (ended : End String Bool) : Prop where
  mark : ∀ mark, w₀.disk monitorHighwater = some mark → w.disk monitorHighwater = some mark
  next : w.disk .channelManager = none ∨ ∃ p, payload = some p ∧ Complete p w.disk
  ongoing : proceeds = true → ended ≠ .crashed → w₀.replica = none ∨
    ∃ p, payload = some p ∧ RunsOn p (cacheAfter cache w ended) w.disk

/-- The changes before the first request that is not answered. -/
def made (p : Payload) (w₀ : World) (fates : List (Fate String)) : Nat :=
  Proc.answered fates (steps p (w₀.disk monitorHighwater)).length - 3

/-- Where a re-hydration may be cut off: there was no mark, or it is untouched or back; the
channel manager is not written, or what is not written was on the disk before; and where the start
goes on after a failure, what is not written was on the disk before, and the cache had the
monitors. -/
structure CutSafely (p : Payload) (w₀ : World) (cache : Disk) (proceeds : Bool)
    (fates : List (Fate String)) : Prop where
  mark : w₀.disk monitorHighwater = none ∨ made p w₀ fates = 0 ∨
    made p w₀ fates = (changes p (w₀.disk monitorHighwater)).length
  next : .channelManager ∉ (p.writes.take (made p w₀ fates - 1)).map Prod.fst ∨
    ∀ e ∈ p.writes.drop (made p w₀ fates - 1), w₀.disk e.1 = some e.2
  ongoing : proceeds = true → Proc.rejects fates (steps p (w₀.disk monitorHighwater)).length = true →
    (∀ e ∈ p.writes.drop (made p w₀ fates - 1), w₀.disk e.1 = some e.2) ∧
      ∀ e ∈ p.entries, isKv e.1 = true → cache e.1 = some e.2

/-- There is no envelope, or one that is bad: then the process dies before it is opened, or the
start does not get far. -/
def SkippedSafely (w₀ : World) (proceeds : Bool) (fates : List (Fate String)) : Prop :=
  w₀.replica = none ∨ proceeds = false ∨ Proc.crashes fates 3 = true

/-- The manager is on the disk as soon as it is written. -/
theorem manager_none_iff (p : Payload) (retained : Option String) (i : Nat)
    (hnone : d .channelManager = none) :
    applyAll ((changes p retained).take i) d .channelManager = none ↔
      .channelManager ∉ (p.writes.take (i - 1)).map Prod.fst := by
  rw [disk_entry p retained i (by decide)]
  have hnd : ((asChanges (p.writes.take (i - 1))).map Prod.fst).Nodup := by
    rw [keys_asChanges, List.map_take]
    exact p.writes_nodup.sublist (List.take_sublist _ _)
  constructor
  · intro h hmem
    obtain ⟨e, he, hkey⟩ := List.mem_map.mp hmem
    have := applyAll_of_mem (d := d) hnd (List.mem_map.mpr ⟨e, he, rfl⟩)
    rw [hkey, h] at this
    cases this
  · intro h
    rw [applyAll_of_notMem (by rwa [keys_asChanges])]
    exact hnone

/-- The disk is complete when what is not written was there before. -/
theorem complete_iff (p : Payload) (retained : Option String) (i : Nat) :
    Complete p (applyAll ((changes p retained).take i) d) ↔
      ∀ e ∈ p.writes.drop (i - 1), d e.1 = some e.2 := by
  have hmark : ∀ e ∈ p.writes, e.1 ≠ monitorHighwater := by
    intro e he heq
    exact p.noMark (List.mem_map.mpr ⟨e, Payload.mem_writes.mp he, heq⟩)
  have hsplit : p.writes.take (i - 1) ++ p.writes.drop (i - 1) = p.writes := List.take_append_drop ..
  have hnd := p.writes_nodup
  rw [← hsplit, List.map_append, List.nodup_append] at hnd
  obtain ⟨hfirst, -, hdisj⟩ := hnd
  have hlater : ∀ e ∈ p.writes.drop (i - 1),
      applyAll ((changes p retained).take i) d e.1 = d e.1 := by
    intro e he
    rw [disk_entry p retained i (hmark e (List.mem_of_mem_drop he)), applyAll_of_notMem]
    rw [keys_asChanges]
    intro hmem
    exact hdisj _ hmem _ (List.mem_map.mpr ⟨e, he, rfl⟩) rfl
  constructor
  · intro h e he
    rw [← hlater e he]
    exact h e (Payload.mem_writes.mp (List.mem_of_mem_drop he))
  · intro h e he
    have hmem := Payload.mem_writes.mpr he
    have hne := hmark e hmem
    rw [← hsplit] at hmem
    rcases List.mem_append.mp hmem with htake | hdrop
    · rw [disk_entry p retained i hne]
      exact applyAll_of_mem (by rwa [keys_asChanges]) (List.mem_map.mpr ⟨e, htake, rfl⟩)
    · rw [hlater e hdrop]
      exact h e hdrop

/-- The mark is in force when there was none, or it is untouched or back. -/
theorem mark_iff (p : Payload) {i : Nat} (hi : i ≤ (changes p (d monitorHighwater)).length) :
    (∀ mark, d monitorHighwater = some mark →
      applyAll ((changes p (d monitorHighwater)).take i) d monitorHighwater = some mark) ↔
        d monitorHighwater = none ∨ i = 0 ∨ i = (changes p (d monitorHighwater)).length := by
  cases hm : d monitorHighwater with
  | none => exact iff_of_true nofun (.inl rfl)
  | some mark =>
    rw [hm] at hi
    have hback := disk_mark p mark hi hm
    constructor
    · intro h
      exact .inr (hback.mp (h mark rfl))
    · rintro (h | h) mark' ⟨⟩
      · cases h
      · exact hback.mpr h

/-- An envelope that is not imported changes nothing, and the start goes on without it. -/
theorem safe_iff_skipped {seedHex : String} (cache : Disk) (proceeds : Bool) (fates : List (Fate String))
    (hnone : w.disk .channelManager = none)
    (hp : replicaPayload decryptAndParse network seedHex w = none) :
    Safe none w cache proceeds
        ((maybeRestoreStateFromVss decryptAndParse network seedHex).execute serve fates w).1
        ((maybeRestoreStateFromVss decryptAndParse network seedHex).execute serve fates w).2.1 ↔
      SkippedSafely w proceeds fates := by
  obtain ⟨hw, hended⟩ := execute_rescue_false (tryRestore decryptAndParse network seedHex) fates w
  rw [maybeRestoreStateFromVss, hw, hended]
  obtain ⟨last, n, hlast, hn, hrun⟩ := execute_tryRestore_none hnone hp fates
  have hsame : ((tryRestore decryptAndParse network seedHex).execute serve fates w).1 = w := by
    rw [hrun, Proc.runSteps_fst, List.take_replicate]
    exact foldl_reads _ w
  have hcrashed : (Proc.runSteps applyStep last (List.replicate n none) fates w).2.1 = .crashed ↔ _ :=
    Proc.runSteps_crashed hlast (List.replicate n none) fates w
  rw [← hrun, List.length_replicate] at hcrashed
  rw [hsame]
  constructor
  · intro h
    cases hproceeds : proceeds with
    | false => exact .inr (.inl rfl)
    | true =>
      by_cases hc : ((tryRestore decryptAndParse network seedHex).execute serve fates w).2.1 = .crashed
      · by_cases hr : w.replica = none
        · exact .inl hr
        · exact .inr (.inr (hn hr ▸ hcrashed.mp hc))
      · have hne : caught ((tryRestore decryptAndParse network seedHex).execute serve fates w).2.1 ≠
            .crashed := fun h => hc (caught_crashed.mp h)
        rcases h.ongoing hproceeds hne with hr | ⟨p, hp, -⟩
        · exact .inl hr
        · cases hp
  · intro h
    refine ⟨fun _ hm => hm, .inl hnone, fun hproceeds hne => ?_⟩
    rcases h with hr | hno | hc
    · exact .inl hr
    · rw [hno] at hproceeds
      cases hproceeds
    · by_cases hr : w.replica = none
      · exact .inl hr
      · exact absurd (caught_crashed.mpr (hcrashed.mpr (hn hr ▸ hc))) hne

/-- An envelope that is imported, as far as the run gets. -/
theorem safe_iff_cut {seedHex : String} {p : Payload} (cache : Disk) (proceeds : Bool)
    (fates : List (Fate String)) (hnone : w.disk .channelManager = none)
    (hp : replicaPayload decryptAndParse network seedHex w = some p) :
    Safe (some p) w cache proceeds
        ((maybeRestoreStateFromVss decryptAndParse network seedHex).execute serve fates w).1
        ((maybeRestoreStateFromVss decryptAndParse network seedHex).execute serve fates w).2.1 ↔
      CutSafely p w cache proceeds fates := by
  obtain ⟨hw, hended⟩ := execute_rescue_false (tryRestore decryptAndParse network seedHex) fates w
  rw [maybeRestoreStateFromVss, hw, hended]
  have hrun := execute_tryRestore hnone hp fates
  have hreplica : w.replica ≠ none := by
    obtain ⟨envelope, hr, -⟩ := Option.bind_eq_some_iff.mp hp
    rw [hr]
    nofun
  have hdisk : ((tryRestore decryptAndParse network seedHex).execute serve fates w).1.disk =
      applyAll ((changes p (w.disk monitorHighwater)).take (made p w fates)) w.disk := by
    rw [hrun, Proc.runSteps_fst, disk_steps, made]
  have hrejects : (∃ e, ((tryRestore decryptAndParse network seedHex).execute serve fates w).2.1 = .threw e) ↔
      Proc.rejects fates (steps p (w.disk monitorHighwater)).length = true := by
    rw [hrun]
    exact Proc.runSteps_threw nofun _ fates w
  have hreturns : ∀ b, ((tryRestore decryptAndParse network seedHex).execute serve fates w).2.1 = .returned b →
      b = true ∧ made p w fates = (changes p (w.disk monitorHighwater)).length := by
    intro b h
    rw [hrun] at h
    refine ⟨Proc.eq_of_runSteps_returned (Prod.ext rfl (Prod.ext h rfl)), ?_⟩
    rw [made, Proc.answered_of_runSteps_returned h]
    simp only [steps, List.length_cons, List.length_map]
    rfl
  have hmade : made p w fates ≤ (changes p (w.disk monitorHighwater)).length := by
    have := Proc.answered_le fates (steps p (w.disk monitorHighwater)).length
    rw [made]
    simp only [steps, List.length_cons, List.length_map] at this ⊢
    omega
  have hmanager := manager_none_iff p (w.disk monitorHighwater) (made p w fates) hnone
  have hcomplete := complete_iff (d := w.disk) p (w.disk monitorHighwater) (made p w fates)
  have hmark := mark_iff p hmade
  rw [← hdisk] at hmanager hcomplete hmark
  have hnext : (∃ p', some p = some p' ∧
      Complete p' ((tryRestore decryptAndParse network seedHex).execute serve fates w).1.disk) ↔
        ∀ e ∈ p.writes.drop (made p w fates - 1), w.disk e.1 = some e.2 := by
    refine ⟨?_, fun h => ⟨p, rfl, hcomplete.mpr h⟩⟩
    rintro ⟨p', ⟨⟩, hc⟩
    exact hcomplete.mp hc
  constructor
  · intro h
    refine ⟨hmark.mp h.mark, h.next.imp hmanager.mp hnext.mp, fun hproceeds hthrew => ?_⟩
    obtain ⟨e, he⟩ := hrejects.mpr hthrew
    have hne : caught ((tryRestore decryptAndParse network seedHex).execute serve fates w).2.1 ≠
        .crashed := by
      rw [he]
      nofun
    rcases h.ongoing hproceeds hne with hr | ⟨p', hp', hall, hcache⟩
    · exact absurd hr hreplica
    · cases hp'
      rw [he] at hcache
      exact ⟨hcomplete.mp hall, hcache⟩
  · intro h
    refine ⟨hmark.mpr h.mark, h.next.imp hmanager.mpr hnext.mpr, fun hproceeds hne => .inr ⟨p, rfl, ?_⟩⟩
    cases hend : ((tryRestore decryptAndParse network seedHex).execute serve fates w).2.1 with
    | crashed => exact absurd (congrArg caught hend) hne
    | threw e =>
      obtain ⟨hall, hcache⟩ := h.ongoing hproceeds (hrejects.mp ⟨e, hend⟩)
      exact ⟨hcomplete.mpr hall, hcache⟩
    | returned b =>
      -- nothing was cut off: the disk has everything, and the cache is read from it
      obtain ⟨rfl, hlast⟩ := hreturns b hend
      have hall : Complete p ((tryRestore decryptAndParse network seedHex).execute serve fates w).1.disk := by
        refine hcomplete.mpr fun e he => ?_
        rw [List.drop_eq_nil_of_le] at he
        · cases he
        · simp [hlast, changes]
      exact ⟨hall, fun e he _ => hall e he⟩

/-- A re-hydration that is cut off, by a crash, by a storage operation that fails or by a bad
envelope, leaves the wallet safe if and only if it is cut off safely. -/
theorem safe_iff_cutSafely (decryptAndParse : String → String → Option Payload)
    (network seedHex : String) (w : World) (cache : Disk) (proceeds : Bool) (fates : List (Fate String))
    (hnone : w.disk .channelManager = none) :
    Safe (replicaPayload decryptAndParse network seedHex w) w cache proceeds
        ((maybeRestoreStateFromVss decryptAndParse network seedHex).execute serve fates w).1
        ((maybeRestoreStateFromVss decryptAndParse network seedHex).execute serve fates w).2.1 ↔
      match replicaPayload decryptAndParse network seedHex w with
      | some p => CutSafely p w cache proceeds fates
      | none => SkippedSafely w proceeds fates := by
  cases hp : replicaPayload decryptAndParse network seedHex w with
  | none => exact safe_iff_skipped cache proceeds fates hnone hp
  | some p => exact safe_iff_cut cache proceeds fates hnone hp

/-- An envelope with a manager and one monitor. -/
def smallPayload : Payload where
  network := "regtest"
  entries := [(.ldkSeed, "s"), (.channelManager, "m"), (.kv "monitors/a", "x")]
  nodup := by decide
  noMark := by decide

/-- The storage has the seed and the mark, and the server the envelope. -/
def lost : World where
  disk := fun k => if k = .ldkSeed then some "s" else if k = monitorHighwater then some "7" else none
  replica := some "e"

/-- A re-hydration that is not cut off. -/
theorem safe_iff_cutSafely_whole : Safe (some smallPayload) lost (fun _ => none) true
    ((maybeRestoreStateFromVss (fun _ _ => some smallPayload) "regtest" "s").execute serve [] lost).1
    ((maybeRestoreStateFromVss (fun _ _ => some smallPayload) "regtest" "s").execute serve [] lost).2.1 := by
  refine (safe_iff_cutSafely (fun _ _ => some smallPayload) "regtest" "s" lost (fun _ => none) true []
    rfl).mpr ?_
  exact ⟨.inr (.inr (by decide)), .inr (by decide), nofun⟩

/-- The process dies between the manager and its monitor: the mark is gone, and the next start
finds the manager. -/
theorem not_safe_crashed : ¬ ∀ fates, Safe (some smallPayload) lost (fun _ => none) true
    ((maybeRestoreStateFromVss (fun _ _ => some smallPayload) "regtest" "s").execute serve fates lost).1
    ((maybeRestoreStateFromVss (fun _ _ => some smallPayload) "regtest" "s").execute serve fates lost).2.1 := by
  intro h
  have hcut := h [.answered, .answered, .answered, .answered, .answered, .crashed]
  rcases hcut.next with hnone | ⟨p, ⟨⟩, hall⟩
  · cases hnone
  · cases hall (.kv "monitors/a", "x") (by decide)

end LibreWallet.Vss.Rehydrate
