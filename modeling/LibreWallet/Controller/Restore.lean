import LibreWallet.Controller.WalletController
import LibreWallet.Numbers.Doubles
import LibreWallet.Text.Words

/-
  Controller/Restore.lean --- what a restore reads, clears and writes.

  Mirrors `restoreWallet` of `wallet-core/src/wallet-controller.ts` as far as the import, over every database
  of the origin, with `getConfig`, `core/restore-guard.ts`, `core/backup-ahead.ts` and the decryption of
  `libre-listener-wallet/src/state-backup.ts`.  WebCrypto, BIP39 and `JSON.parse` are parameters; the
  databases answer every request.
-/

set_option autoImplicit false

namespace LibreWallet.Controller.Restore

open Text Numbers

/-! ## Databases -/

/-- Code units. -/
abbrev Chars := List Nat

/-- The databases of the origin, by name, and their keys. -/
abbrev Databases := Chars → Chars → Option Chars

namespace Databases

def setItem (db : Databases) (name key value : Chars) : Databases :=
  Function.update db name (Function.update (db name) key (some value))

def removeItem (db : Databases) (name key : Chars) : Databases :=
  Function.update db name (Function.update (db name) key none)

def clear (db : Databases) (name : Chars) : Databases := Function.update db name fun _ => none

end Databases

def CHANNEL_MANAGER_KEY : Chars := codes "channel_manager"
def SEED_KEY : Chars := codes "ldk_seed"
def STATE_VERSION_KEY : Chars := codes "state_version"
def SWEEP_ADDRESS_KEY : Chars := codes "libre_sweep_address"
def CONFIG_KEY : Chars := codes "ldk_config"
def NODE_ALIAS_KEY : Chars := codes "node_alias"
def MONITOR_HIGHWATER_KEY : Chars := codes "monitor_update_highwater"
def META_DB_NAME : Chars := codes "libre-wallet-meta"
def ACTIVE_NETWORK_KEY : Chars := codes "active_network"

def dbNameForNetwork (network : Chars) : Chars := codes "libre-wallet-" ++ network

/-- A text is falsy where it is empty. -/
def truthy (raw : Option Chars) : Bool := raw.any (· ≠ [])

/-- `resolveActiveNetwork` -/
def resolveActiveNetwork (raw : Option Chars) : Chars :=
  match raw with
  | some t => if trim t ≠ [] then trim t else codes "mainnet"
  | none => codes "mainnet"

def activeNetwork (db : Databases) : Chars := resolveActiveNetwork (db META_DB_NAME ACTIVE_NETWORK_KEY)

/-! ## Versions -/

/-- `parseInt(t, 10) || 0`; no digits make zero. -/
def parseIntOrZero (t : Chars) : Whole :=
  let t := t.dropWhile isWhite
  let digits := (if begins [fun c => c == 43 || c == 45] t then t.drop 1 else t).takeWhile digit
  toDouble (if begins [exactly 45] t then -(valueOf 10 digits : ℤ) else valueOf 10 digits)

/-- `raw ? parseInt(raw, 10) || 0 : 0` -/
def readVersion (raw : Option Chars) : Whole :=
  match raw with
  | some t => if t ≠ [] then parseIntOrZero t else .integer 0
  | none => .integer 0

/-- What `backupAheadOfLocal` makes of a version: what is not finite and positive reads as zero. -/
def coerced : Whole → Nat
  | .integer v => v.toNat
  | .infinite => 0

/-! ## Backups -/

inductive RecipientType where
  | passphrase
  | seed
  deriving DecidableEq, Repr

/-- `RecipientV2`; `data` is what unwraps the key. -/
structure Recipient (ρ : Type) where
  type : RecipientType
  data : ρ

/-- What `JSON.parse` makes of an envelope; `ct` is the payload's ciphertext with its IV. -/
inductive BackupEnvelope (ρ κ : Type) where
  | invalid
  | unsupported
  | v1 (ct : κ)
  | v2 (recipients : List (Recipient ρ)) (ct : κ)

structure BackupPayload where
  network : Option Chars
  entries : List (Chars × Chars)
  deriving DecidableEq, Repr

/-- What is not of the repository. -/
structure Environment (ρ κ δ : Type) where
  /-- `normalizeBackupSecret`: a recovery phrase becomes its seed. -/
  normalizeBackupSecret : Chars → Chars
  /-- Derives a key from the secret and unwraps the payload's key. -/
  unwrapDek : RecipientType → Chars → ρ → Option δ
  /-- Decrypts the payload and parses it. -/
  decrypt : δ → κ → Option BackupPayload
  /-- The same with the key that a seed derives. -/
  decryptV1 : Chars → κ → Option BackupPayload
  /-- The `nodeAlias` of what `JSON.parse` makes of a stored configuration, where it is a text. -/
  nodeAlias : Chars → Option Chars

/-- `BackupVerification` of an envelope that was decrypted. -/
structure BackupVerification where
  network : Option Chars
  hasSeed : Bool
  seedMatches : Option Bool
  entryKeys : List Chars
  stateVersion : Whole

section Code

variable {ρ κ δ : Type} (env : Environment ρ κ δ)

/-- `/^[0-9a-fA-F]{64}$/` -/
def isHex (secret : Chars) : Bool :=
  decide (secret.length = 64) && secret.all fun c => hexDigit c || between 65 70 c

def toLowerCase (t : Chars) : Chars := t.map fun c => if 65 ≤ c ∧ c ≤ 90 then c + 32 else c

/-- The first recipient of a type that the secret unwraps; a wrong secret goes on to the next type. -/
def decryptV2 (recipients : List (Recipient ρ)) (ct : κ) (secret : Chars) : Option BackupPayload :=
  let order := if isHex secret then [RecipientType.seed, .passphrase] else [.passphrase, .seed]
  let dek := order.findSome? fun t =>
    (recipients.find? (·.type = t)).bind fun r => env.unwrapDek t secret r.data
  dek.bind fun dek => env.decrypt dek ct

/-- `none` where it throws. -/
def decryptAndParse (envelope : BackupEnvelope ρ κ) (secret : Chars) : Option BackupPayload :=
  let secret := env.normalizeBackupSecret secret
  match envelope with
  | .v2 recipients ct => decryptV2 env recipients ct secret
  | .v1 ct => env.decryptV1 secret ct
  | _ => none

/-- `none` where `ok` is false. -/
def verifyBackupEnvelope (envelope : BackupEnvelope ρ κ) (secret : Chars) : Option BackupVerification :=
  (decryptAndParse env envelope secret).map fun payload =>
    let seedInBackup := payload.entries.lookup SEED_KEY
    let resolvedSecret := env.normalizeBackupSecret secret
    { network := payload.network
      hasSeed := truthy seedInBackup
      seedMatches := if isHex resolvedSecret then
          some (seedInBackup.map toLowerCase = some (toLowerCase resolvedSecret)) else none
      entryKeys := payload.entries.map Prod.fst
      stateVersion := readVersion (payload.entries.lookup STATE_VERSION_KEY) }

/-! ## The configuration -/

/-- `nodeAlias` of `parseConfig`. -/
def legacyAlias (rawJson : Option Chars) : Option Chars :=
  (rawJson.filter (· ≠ [])).bind env.nodeAlias |>.filter (trim · ≠ [])

def resolveNodeAlias (dedicated legacy : Option Chars) : Option Chars :=
  let d := (dedicated.map trim).getD []
  let l := (legacy.map trim).getD []
  if d ≠ [] then some d else if l ≠ [] then some l else none

/-- An alias without its own key is written to it. -/
def resolveAndMigrateAlias (db : Databases) (name : Chars) : Databases :=
  let dedicated := db name NODE_ALIAS_KEY
  match resolveNodeAlias dedicated (legacyAlias env (db name CONFIG_KEY)) with
  | some alias_ => if dedicated = none then db.setItem name NODE_ALIAS_KEY alias_ else db
  | none => db

/-- The network of the configuration. -/
def getConfig (db : Databases) : Chars × Databases :=
  (activeNetwork db, resolveAndMigrateAlias env db (dbNameForNetwork (activeNetwork db)))

/-! ## Restoring -/

/-- `importState` of a wallet that is configured for a network: the seed comes last. -/
def importState (db : Databases) (network : Chars) (envelope : BackupEnvelope ρ κ) (secret : Chars) :
    Option Databases :=
  (decryptAndParse env envelope secret).bind fun payload =>
    if payload.network = some network then
      let name := dbNameForNetwork network
      let db := (payload.entries.filter (·.1 ≠ SEED_KEY)).foldl (fun db e => db.setItem name e.1 e.2)
        (db.removeItem name MONITOR_HIGHWATER_KEY)
      some (match payload.entries.lookup SEED_KEY with
        | some seed => db.setItem name SEED_KEY seed
        | none => db)
    else none

def targetNetwork (db : Databases) (verified : BackupVerification) : Chars :=
  if truthy verified.network then verified.network.getD [] else activeNetwork db

def hasChannelState (db : Databases) (target : Chars) : Bool :=
  truthy (db (dbNameForNetwork target) CHANNEL_MANAGER_KEY)

def canOverwriteStale (db : Databases) (target : Chars) (envelope : BackupEnvelope ρ κ) : Bool :=
  if hasChannelState db target then
    let localSeed := (db (dbNameForNetwork target) SEED_KEY).filter (· ≠ [])
    let ours := localSeed.bind (verifyBackupEnvelope env envelope)
    let localStateVersion := readVersion (db (dbNameForNetwork target) STATE_VERSION_KEY)
    mayOverwriteStaleLocal (hasChannelState db target) ours.isSome (coerced localStateVersion)
      (ours.map fun v => coerced v.stateVersion)
  else false

/-- Only the configuration of the device is kept. -/
def clearStale (db : Databases) (name : Chars) : Databases :=
  let keep (key : Chars) (next : Databases) : Databases :=
    match db name key with
    | some v => next.setItem name key v
    | none => next
  keep SWEEP_ADDRESS_KEY (keep CONFIG_KEY (db.clear name))

inductive Outcome where
  | refused (message : String)
  /-- `importState` threw. -/
  | importFailed
  | imported
  deriving DecidableEq, Repr

structure Restored where
  outcome : Outcome
  db : Databases
  /-- The database that was cleared. -/
  cleared : Option Chars := none

/-- `restoreWallet`, up to the start of the imported wallet. -/
def restoreWallet (running restoring : Bool) (db : Databases) (envelope : BackupEnvelope ρ κ) (secret : Chars) :
    Restored :=
  match restoreBlockReason running restoring false with
  | some early => { outcome := .refused early, db }
  | none =>
    let (_, db) := getConfig env db
    match verifyBackupEnvelope env envelope secret with
    | none => { outcome := .refused NOT_DECRYPTED_MSG, db }
    | some verified =>
      let target := targetNetwork db verified
      let stale := canOverwriteStale env db target envelope
      match restoreBlockReason false false (hasChannelState db target && !stale) with
      | some funded => { outcome := .refused funded, db }
      | none =>
        let db := if stale then clearStale db (dbNameForNetwork target) else db
        let cleared := if stale then some (dbNameForNetwork target) else none
        let db := if truthy verified.network then
            db.setItem META_DB_NAME ACTIVE_NETWORK_KEY (verified.network.getD []) else db
        let (network, db) := getConfig env db
        match importState env db network envelope secret with
        | some db => { outcome := .imported, db, cleared }
        | none => { outcome := .importFailed, db, cleared }

/-! ## What a restore may do -/

/-- The envelope decrypts under the seed that is stored for the network, and what it holds is strictly newer
than what is stored. -/
def Supersedes (db : Databases) (target : Chars) (envelope : BackupEnvelope ρ κ) : Prop :=
  ∃ localSeed payload, db (dbNameForNetwork target) SEED_KEY = some localSeed ∧ localSeed ≠ [] ∧
    decryptAndParse env envelope localSeed = some payload ∧
    coerced (readVersion (db (dbNameForNetwork target) STATE_VERSION_KEY)) <
      coerced (readVersion (payload.entries.lookup STATE_VERSION_KEY))

/-- The alias of the active network's configuration has been copied to a key of its own. -/
structure AliasMigrated (db db' : Databases) (name key : Chars) : Prop where
  name_eq : name = dbNameForNetwork (activeNetwork db)
  key_eq : key = NODE_ALIAS_KEY
  absent : db name key = none
  copied : ∃ legacy, legacyAlias env (db name CONFIG_KEY) = some legacy ∧ db' name key = some (trim legacy)

section Guards

variable {env} {db : Databases} {target name key secret : Chars} {envelope : BackupEnvelope ρ κ}
  {running restoring : Bool} {message : String}

theorem resolveNodeAlias_none {legacy : Option Chars} {alias_ : Chars} (h : resolveNodeAlias none legacy = some alias_) :
    ∃ t, legacy = some t ∧ alias_ = trim t := by
  cases legacy with
  | none => simp [resolveNodeAlias] at h
  | some t =>
    by_cases ht : trim t = []
    · simp [resolveNodeAlias, ht] at h
    · exact ⟨t, rfl, by simpa [resolveNodeAlias, ht] using h.symm⟩

theorem setItem_of_ne {value : Chars} {k : Chars} (h : ¬(name = target ∧ k = key)) :
    db.setItem target key value name k = db name k := by
  by_cases hname : name = target
  · subst hname
    have hkey : k ≠ key := fun hk => h ⟨rfl, hk⟩
    simp [Databases.setItem, Function.update_of_ne hkey]
  · simp [Databases.setItem, Function.update_of_ne hname]

/-- Reading the configuration writes at most the alias. -/
theorem getConfig_db (db : Databases) (name key : Chars) :
    (getConfig env db).2 name key = db name key ∨ AliasMigrated env db (getConfig env db).2 name key := by
  rw [getConfig]
  dsimp only
  cases halias : resolveNodeAlias (db (dbNameForNetwork (activeNetwork db)) NODE_ALIAS_KEY)
      (legacyAlias env (db (dbNameForNetwork (activeNetwork db)) CONFIG_KEY)) with
  | none => exact .inl (by simp only [resolveAndMigrateAlias, halias])
  | some alias_ =>
    by_cases habsent : db (dbNameForNetwork (activeNetwork db)) NODE_ALIAS_KEY = none
    · have hdb : resolveAndMigrateAlias env db (dbNameForNetwork (activeNetwork db)) =
          db.setItem (dbNameForNetwork (activeNetwork db)) NODE_ALIAS_KEY alias_ := by
        simp only [resolveAndMigrateAlias, halias, if_pos habsent]
      rw [hdb]
      by_cases hat : name = dbNameForNetwork (activeNetwork db) ∧ key = NODE_ALIAS_KEY
      · obtain ⟨rfl, rfl⟩ := hat
        rw [habsent] at halias
        obtain ⟨t, ht, rfl⟩ := resolveNodeAlias_none halias
        exact .inr ⟨rfl, rfl, habsent, t, ht, by simp [Databases.setItem]⟩
      · exact .inl (setItem_of_ne hat)
    · exact .inl (by simp only [resolveAndMigrateAlias, halias, if_neg habsent])

theorem getConfig_db_of_ne (hkey : key ≠ NODE_ALIAS_KEY) : (getConfig env db).2 name key = db name key := by
  rcases (getConfig_db db name key : (getConfig env db).2 name key = _ ∨ _) with h | h
  · exact h
  · exact absurd h.key_eq hkey

theorem hasChannelState_getConfig : hasChannelState (getConfig env db).2 target = hasChannelState db target := by
  rw [hasChannelState, hasChannelState, getConfig_db_of_ne (by decide)]

theorem supersedes_getConfig : Supersedes env (getConfig env db).2 target envelope ↔ Supersedes env db target envelope := by
  rw [Supersedes, Supersedes, getConfig_db_of_ne (by decide), getConfig_db_of_ne (by decide)]

theorem activeNetwork_getConfig : activeNetwork (getConfig env db).2 = activeNetwork db := by
  rw [activeNetwork, activeNetwork, getConfig_db_of_ne (by decide)]

theorem mayOverwriteStaleLocal_iff {hasState decrypts : Bool} {localVersion : Nat} {backupVersion : Option Nat} :
    mayOverwriteStaleLocal hasState decrypts localVersion backupVersion = true ↔
      hasState = true ∧ decrypts = true ∧ ∃ v, backupVersion = some v ∧ localVersion < v := by
  cases backupVersion with
  | none => simp [mayOverwriteStaleLocal]
  | some v => simp [mayOverwriteStaleLocal, backupAheadOfLocal, and_assoc]

theorem canOverwriteStale_iff : canOverwriteStale env db target envelope = true ↔
    hasChannelState db target = true ∧ Supersedes env db target envelope := by
  unfold canOverwriteStale
  split
  · rename_i hstate
    dsimp only
    rw [mayOverwriteStaleLocal_iff]
    refine and_congr_right fun _ => ?_
    constructor
    · rintro ⟨-, v, hv, hlt⟩
      obtain ⟨verification, hours, rfl⟩ := Option.map_eq_some_iff.mp hv
      obtain ⟨localSeed, hseed, hverify⟩ := Option.bind_eq_some_iff.mp hours
      obtain ⟨payload, hpayload, rfl⟩ := Option.map_eq_some_iff.mp hverify
      obtain ⟨hstored, hne⟩ := Option.filter_eq_some_iff.mp hseed
      exact ⟨localSeed, payload, hstored, by simpa using hne, hpayload, hlt⟩
    · rintro ⟨localSeed, payload, hstored, hne, hpayload, hlt⟩
      have hours : ((db (dbNameForNetwork target) SEED_KEY).filter (· ≠ [])).bind (verifyBackupEnvelope env envelope) =
          verifyBackupEnvelope env envelope localSeed := by
        rw [hstored, Option.filter_some, if_pos (by simpa using hne)]
        rfl
      rw [hours, verifyBackupEnvelope, hpayload]
      exact ⟨rfl, _, rfl, hlt⟩
  · rename_i hstate
    simp [hstate]

/-- How a restore ends: refused before anything is touched, refused after the configuration was read, or
past the guards. -/
theorem restoreWallet_cases (running restoring : Bool) (db : Databases) (envelope : BackupEnvelope ρ κ) (secret : Chars) :
    (∃ m, restoreWallet env running restoring db envelope secret = { outcome := .refused m, db }) ∨
    (∃ m, restoreWallet env running restoring db envelope secret =
      { outcome := .refused m, db := (getConfig env db).2 }) ∨
    ∃ verified, verifyBackupEnvelope env envelope secret = some verified ∧
      (hasChannelState (getConfig env db).2 (targetNetwork (getConfig env db).2 verified) = true →
        canOverwriteStale env (getConfig env db).2 (targetNetwork (getConfig env db).2 verified) envelope = true) ∧
      (restoreWallet env running restoring db envelope secret).cleared =
        (if canOverwriteStale env (getConfig env db).2 (targetNetwork (getConfig env db).2 verified) envelope then
          some (dbNameForNetwork (targetNetwork (getConfig env db).2 verified)) else none) ∧
      ∀ m, (restoreWallet env running restoring db envelope secret).outcome ≠ .refused m := by
  unfold restoreWallet
  split
  · exact .inl ⟨_, rfl⟩
  · refine .inr ?_
    dsimp only
    split
    · exact .inl ⟨_, rfl⟩
    · rename_i verified hverified
      split
      · exact .inl ⟨_, rfl⟩
      · rename_i hfunded
        refine .inr ⟨verified, hverified, fun hstate => ?_, ?_⟩
        · by_contra hstale
          simp [restoreBlockReason, hstate, hstale] at hfunded
        · split
          · exact ⟨rfl, fun m => by simp⟩
          · exact ⟨rfl, fun m => by simp⟩

theorem targetNetwork_getConfig (verified : BackupVerification) :
    targetNetwork (getConfig env db).2 verified = targetNetwork db verified := by
  rw [targetNetwork, targetNetwork, activeNetwork_getConfig]

/-- An import that is reached fails only on a network that no export writes. -/
theorem network_of_importFailed
    (h : (restoreWallet env running restoring db envelope secret).outcome = .importFailed) :
    ∃ payload, decryptAndParse env envelope secret = some payload ∧
      ∀ n, payload.network = some n → n = [] ∨ trim n ≠ n := by
  unfold restoreWallet at h
  split at h
  · cases h
  · dsimp only at h
    split at h
    · cases h
    · rename_i verified hverified
      split at h
      · cases h
      · split at h
        · cases h
        · rename_i himport
          obtain ⟨payload, hpayload, rfl⟩ := Option.map_eq_some_iff.mp hverified
          refine ⟨payload, hpayload, fun n hn => ?_⟩
          by_contra hplain
          obtain ⟨hne, htrim⟩ := not_or.mp hplain
          -- The pointer has been set to the network of the backup.
          refine absurd himport ?_
          simp only [importState, hpayload, Option.bind_some, getConfig, activeNetwork, hn]
          simp [truthy, hne, Databases.setItem, resolveActiveNetwork, not_not.mp htrim]

end Guards

/-- A restore clears channel state only for a newer backup of the wallet that is stored, and one that gets
past its guards finds none or such a backup; one that refuses leaves the databases and the active network,
but for the alias that reading the configuration copies. -/
theorem restoreWallet_guarded (running restoring : Bool) (db : Databases) (envelope : BackupEnvelope ρ κ)
    (secret : Chars) :
    (∀ name, (restoreWallet env running restoring db envelope secret).cleared = some name →
      ∃ verified, verifyBackupEnvelope env envelope secret = some verified ∧
        name = dbNameForNetwork (targetNetwork db verified) ∧
        hasChannelState db (targetNetwork db verified) = true ∧
        Supersedes env db (targetNetwork db verified) envelope) ∧
    (∀ verified, verifyBackupEnvelope env envelope secret = some verified →
      hasChannelState db (targetNetwork db verified) = true →
      (∀ m, (restoreWallet env running restoring db envelope secret).outcome ≠ .refused m) →
      Supersedes env db (targetNetwork db verified) envelope) ∧
    ∀ m, (restoreWallet env running restoring db envelope secret).outcome = .refused m →
      (∀ name key, (restoreWallet env running restoring db envelope secret).db name key = db name key ∨
        AliasMigrated env db (restoreWallet env running restoring db envelope secret).db name key) ∧
      (restoreWallet env running restoring db envelope secret).db META_DB_NAME ACTIVE_NETWORK_KEY =
        db META_DB_NAME ACTIVE_NETWORK_KEY := by
  rcases @restoreWallet_cases _ _ _ env running restoring db envelope secret with
    ⟨m, hr⟩ | ⟨m, hr⟩ | ⟨verified, hverified, hstate, hcleared, hpast⟩
  · rw [hr]
    exact ⟨fun _ h => (Option.some_ne_none _ h.symm).elim, fun _ _ _ h => absurd rfl (h m),
      fun _ _ => ⟨fun _ _ => .inl rfl, rfl⟩⟩
  · rw [hr]
    exact ⟨fun _ h => (Option.some_ne_none _ h.symm).elim, fun _ _ _ h => absurd rfl (h m),
      fun _ _ => ⟨getConfig_db db, getConfig_db_of_ne (by decide)⟩⟩
  · rw [targetNetwork_getConfig] at hstate hcleared
    refine ⟨fun name hname => ?_, fun verified' hverified' hstate' _ => ?_, fun m hm => absurd hm (hpast m)⟩
    · rw [hcleared] at hname
      split at hname
      · rename_i hstale
        obtain ⟨hs, hnewer⟩ := canOverwriteStale_iff.mp hstale
        rw [hasChannelState_getConfig] at hs
        exact ⟨verified, hverified, (Option.some.inj hname).symm, hs, supersedes_getConfig.mp hnewer⟩
      · cases hname
    · obtain rfl : verified = verified' := Option.some.inj (hverified.symm.trans hverified')
      rw [hasChannelState_getConfig] at hstate
      exact supersedes_getConfig.mp (canOverwriteStale_iff.mp (hstate hstate')).2

end Code

/-! ## One restore of each kind -/

/-- The payload's key is wrapped to whoever is named. -/
def namedKeys (configured : Chars) (alias_ : Option Chars) : Environment Chars BackupPayload Unit where
  normalizeBackupSecret := id
  unwrapDek := fun _ secret recipient => if secret = recipient then some () else none
  decrypt := fun _ payload => some payload
  decryptV1 := fun _ _ => none
  nodeAlias := fun t => if t = configured then alias_ else none

def mainnetDb : Chars := dbNameForNetwork (codes "mainnet")

def rolledBack : Databases := fun name key =>
  if name ≠ mainnetDb then none
  else if key = CHANNEL_MANAGER_KEY then some (codes "00")
  else if key = SEED_KEY then some (codes "seed")
  else if key = STATE_VERSION_KEY then some (codes "3")
  else none

def newerBackup : BackupEnvelope Chars BackupPayload :=
  .v2 [⟨.passphrase, codes "pass"⟩, ⟨.seed, codes "seed"⟩]
    { network := some (codes "mainnet"), entries := [(STATE_VERSION_KEY, codes "5"), (SEED_KEY, codes "seed")] }

theorem restoreWallet_guarded_newer :
    (restoreWallet (namedKeys [] none) false false rolledBack newerBackup (codes "pass")).cleared = some mainnetDb ∧
      ∃ target, Supersedes (namedKeys [] none) rolledBack target newerBackup := by
  have hcleared : (restoreWallet (namedKeys [] none) false false rolledBack newerBackup (codes "pass")).cleared =
      some mainnetDb := by decide
  obtain ⟨verified, -, -, -, hnewer⟩ :=
    (restoreWallet_guarded (namedKeys [] none) false false rolledBack newerBackup (codes "pass")).1 mainnetDb hcleared
  exact ⟨hcleared, _, hnewer⟩

def configuredText : Chars := codes "\x7b\"network\":\"mainnet\",\"nodeAlias\":\"Ann\"\x7d"

def aliased : Databases := fun name key =>
  if name = mainnetDb ∧ key = CONFIG_KEY then some configuredText else none

/-- A restore that is refused has written the alias. -/
theorem restoreWallet_refused_alias :
    (restoreWallet (namedKeys configuredText (some (codes "Ann"))) false false aliased .invalid (codes "pass")).outcome =
        .refused NOT_DECRYPTED_MSG ∧
      aliased mainnetDb NODE_ALIAS_KEY = none ∧
      (restoreWallet (namedKeys configuredText (some (codes "Ann"))) false false aliased .invalid (codes "pass")).db
        mainnetDb NODE_ALIAS_KEY = some (codes "Ann") := by
  decide

end LibreWallet.Controller.Restore
