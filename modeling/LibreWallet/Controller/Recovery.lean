import Mathlib.Data.Option.Basic
import Mathlib.Data.Nat.Basic

/-
  Controller/Recovery.lean --- the pure guards of the wallet controller.

  Mirrors `wallet-core/src/core/backup-ahead.ts`, `restore-guard.ts` and
  `state-version-mirror.ts`: when the cloud backup is ahead, when a restore is
  refused, and what a start does about storage that was rolled back.  Versions are
  `Nat`, so the coercions of unparseable or negative values have nothing to do.
-/

set_option autoImplicit false

namespace LibreWallet.Controller

/-- The backup's state_version is strictly greater than local. -/
def backupAheadOfLocal (localVersion backupVersion : Nat) : Bool :=
  localVersion < backupVersion

/-- The message of `BackupAheadError`. -/
def backupAheadErrorMsg (localVersion backupVersion : Nat) : String :=
  s!"Your cloud backup is newer than this device's wallet data (backup v{backupVersion} " ++
    s!"vs local v{localVersion}). This device's storage was rolled back — starting now " ++
    "would force-close your channel. Restore from your backup to continue. [BACKUP_AHEAD]"

/-- The message of `StateRollbackError`. -/
def stateRollbackErrorMsg (localVersion mirrorVersion : Nat) : String :=
  s!"This device's wallet storage was rolled back (on-disk v{localVersion} is behind this " ++
    s!"device's own record v{mirrorVersion}). Starting now would force-close your channel. " ++
    "Restore from your backup to continue. [STATE_ROLLBACK]"

def RESTORE_RUNNING_MSG : String := "Stop the node before restoring from a backup."
def RESTORE_IN_PROGRESS_MSG : String := "A restore is already in progress."
def RESTORE_FUNDED_MSG : String :=
  "A funded wallet already exists on this network. Restoring would overwrite it."

/-- The reason that blocks a restore, if any. -/
def restoreBlockReason (running restoring targetHasChannelState : Bool) : Option String :=
  if running then some RESTORE_RUNNING_MSG
  else if restoring then some RESTORE_IN_PROGRESS_MSG
  else if targetHasChannelState then some RESTORE_FUNDED_MSG
  else none

/-- Existing channel state may be overwritten only by a strictly newer backup of the
same wallet. -/
def mayOverwriteStaleLocal (hasLocalChannelState backupDecryptsWithLocalSeed : Bool)
    (localStateVersion : Nat) (backupStateVersion : Option Nat) : Bool :=
  hasLocalChannelState && backupDecryptsWithLocalSeed &&
    backupStateVersion.any (backupAheadOfLocal localStateVersion)

/-- The high-water value to persist next. -/
def nextMirrorValue (current mirror : Nat) : Nat := max current mirror

/-- The mirror is strictly ahead of the state_version on disk. -/
def localStateRolledBack (localVersion mirrorVersion : Nat) : Bool :=
  localVersion < mirrorVersion

inductive RecoveryAction where
  | proceed
  | recover
  | halt
  deriving DecidableEq, Repr

/-- What a start does, given the backup's version where it could be read. -/
def recoveryDecision (localVersion mirrorVersion : Nat) (backupVersion : Option Nat) :
    RecoveryAction :=
  let mirrorAhead := localStateRolledBack localVersion mirrorVersion
  let backupAhead := backupVersion.any (backupAheadOfLocal localVersion)
  if !mirrorAhead && !backupAhead then .proceed
  else if backupAhead then .recover
  else .halt

/-- A start proceeds only on local state that no readable witness is ahead of. -/
theorem recoveryDecision_proceed {localVersion mirrorVersion : Nat} {backupVersion : Option Nat}
    (h : recoveryDecision localVersion mirrorVersion backupVersion = .proceed) :
    mirrorVersion ≤ localVersion ∧ ∀ b ∈ backupVersion, b ≤ localVersion := by
  cases hm : localStateRolledBack localVersion mirrorVersion with
  | true =>
    cases hb : backupVersion.any (backupAheadOfLocal localVersion) <;>
      simp [recoveryDecision, hm, hb] at h
  | false =>
    cases hb : backupVersion.any (backupAheadOfLocal localVersion) with
    | true => simp [recoveryDecision, hm, hb] at h
    | false =>
      refine ⟨by simpa [localStateRolledBack] using hm, fun b hmem => ?_⟩
      cases hmem
      simpa [backupAheadOfLocal] using hb

/-- A start recovers only from a backup that is newer than the local state. -/
theorem recoveryDecision_recover {localVersion mirrorVersion backupVersion : Nat}
    (h : recoveryDecision localVersion mirrorVersion (some backupVersion) = .recover) :
    localVersion < backupVersion := by
  by_cases hb : localVersion < backupVersion
  · exact hb
  · cases hm : localStateRolledBack localVersion mirrorVersion <;>
      simp [recoveryDecision, hm, backupAheadOfLocal, hb] at h

end LibreWallet.Controller
