import Mathlib.Data.List.Basic

/-
  Drive/Files.lean --- the files of one name in the app folder of a Drive.

  Names are not unique: a create always makes a new file, an update replaces the
  contents of the file it names.  A list query returns every file of the name, in an order
  that nobody chose but that does not change; the code takes the first.  A file is known
  by its number of creation, and `rank` is its place in that order.

  The verbs are those of `wallet-core/src/drive-backup.ts`: each asks for the list, and
  then makes one more request or none.
-/

set_option autoImplicit false

namespace LibreWallet.Drive

/-! ## The list query -/

/-- The first of the files numbered below `n`. -/
def first (rank : Nat → Nat) : Nat → Option Nat
  | 0 => none
  | n + 1 =>
    match first rank n with
    | none => some n
    | some i => if rank n < rank i then some n else some i

variable {rank : Nat → Nat} {n m i j : Nat}

/-- One more file is the first, or the first stays. -/
theorem first_succ (rank : Nat → Nat) (n : Nat) :
    first rank (n + 1) = some n ∨ first rank (n + 1) = first rank n ∧ 0 < n := by
  cases n with
  | zero => exact .inl rfl
  | succ n =>
    rw [first]
    split
    · exact .inl rfl
    · split
      · exact .inl rfl
      · rename_i h _
        exact .inr ⟨h.symm, Nat.succ_pos n⟩

theorem first_lt (h : first rank n = some i) : i < n := by
  induction n with
  | zero => cases h
  | succ n ih =>
    rcases first_succ rank n with hn | ⟨hn, -⟩
    · rw [hn] at h
      cases h
      exact Nat.lt_succ_self _
    · rw [hn] at h
      exact Nat.lt_succ_of_lt (ih h)

theorem first_isSome (rank : Nat → Nat) (h : 0 < n) : ∃ i, first rank n = some i := by
  induction n with
  | zero => cases h
  | succ n ih =>
    rcases first_succ rank n with hn | ⟨hn, hpos⟩
    · exact ⟨n, hn⟩
    · obtain ⟨i, hi⟩ := ih hpos
      exact ⟨i, hn.trans hi⟩

/-- When there are more files, the first is the same or a new one. -/
theorem first_of_le (hnm : n ≤ m) (h : first rank m = some j) :
    n ≤ j ∨ first rank n = some j := by
  induction m with
  | zero => cases h
  | succ m ih =>
    rcases Nat.lt_or_eq_of_le hnm with hlt | rfl
    · rcases first_succ rank m with hm | ⟨hm, -⟩
      · rw [hm] at h
        cases h
        exact .inl (Nat.le_of_lt_succ hlt)
      · exact ih (Nat.le_of_lt_succ hlt) (hm ▸ h)
    · exact .inr h

/-! ## The verbs -/

/-- The request that follows the list query. -/
inductive Http (C : Type) where
  | update (id : Nat) (contents : C)
  | create (contents : C)
  | download (id : Nat)
  deriving DecidableEq, Repr

variable {C : Type}

/-- `writeAppDataFile`, once `findAppDataFileId` has answered. -/
def writeAppDataFile (contents : C) : Option Nat → Http C
  | some existingId => .update existingId contents
  | none => .create contents

/-- `readAppDataFile`; without a file it returns null at once. -/
def readAppDataFile : Option Nat → Option (Http C)
  | some id => some (.download id)
  | none => none

/-- `uploadBackup`, once `findBackupFileId` has answered. -/
def uploadBackup (contents : C) : Option Nat → Http C
  | some existingId => .update existingId contents
  | none => .create contents

/-- `downloadBackup`; without a file it returns null at once. -/
def downloadBackup : Option Nat → Option (Http C)
  | some id => some (.download id)
  | none => none

/-- A call of one of the verbs. -/
inductive Verb (C : Type) where
  | writeAppDataFile (contents : C)
  | readAppDataFile
  | uploadBackup (contents : C)
  | downloadBackup
  deriving DecidableEq, Repr

namespace Verb

/-- What a call does after its list query. -/
def next : Verb C → Option Nat → Option (Http C)
  | writeAppDataFile contents, id => some (Drive.writeAppDataFile contents id)
  | readAppDataFile, id => Drive.readAppDataFile id
  | uploadBackup contents, id => some (Drive.uploadBackup contents id)
  | downloadBackup, id => Drive.downloadBackup id

/-- What a write writes. -/
def contents : Verb C → Option C
  | writeAppDataFile c | uploadBackup c => some c
  | _ => none

/-- A write updates the file it found, or creates one. -/
theorem next_write {v : Verb C} {c : C} (h : v.contents = some c) (id : Option Nat) :
    v.next id = some (match id with
      | some i => .update i c
      | none => .create c) := by
  cases v <;> cases h <;> cases id <;> rfl

/-- A read downloads the file it found. -/
theorem next_read {v : Verb C} (h : v.contents = none) (id : Option Nat) :
    v.next id = id.map .download := by
  cases v with
  | writeAppDataFile c | uploadBackup c => cases h
  | readAppDataFile | downloadBackup => cases id <;> rfl

end Verb

end LibreWallet.Drive
