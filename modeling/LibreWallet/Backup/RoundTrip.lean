import LibreWallet.Async.Records
import LibreWallet.Backup.Envelope

/-
  Backup/RoundTrip.lean --- a backup of one device, restored on another.

  Mirrors `exportState` of `libre-listener-wallet/src/index.ts` for a wallet that is stopped, with
  `backup-keys.ts`.  What it sealed is restored, as `restoreWallet` does, on a device without
  channel state.
-/

set_option autoImplicit false

namespace LibreWallet.Backup

open Text
open Async.Records
open Bolt11 (Failure)
open Controller (restoreBlockReason)
open Controller.Restore

/-! ## Exporting -/

def BACKUP_DIRECT_KEYS : List Chars :=
  [SEED_KEY, CHANNEL_MANAGER_KEY, codes "ldk_keys_index", STATE_VERSION_KEY, codes "peer_addresses",
    NODE_ALIAS_KEY, codes "nwc_wallet_private_key", codes "nwc_connections"]

def TX_KEY_PREFIX : Chars := codes "tx_"

/-- What a wallet reads of its database: `keys` where its provider lists them, and the index as
`JSON.parse` reads it or the message with which it throws. -/
structure Device where
  stored : Chars → Option Chars
  keys : Option (List Chars)
  parseIndex : Chars → Except String (List Chars)

section Code

variable {K : Type} (pf : Platform K) (d : Device)

/-- The keys of the index, if it is there. -/
def indexedKeys (entries : List (Chars × Chars)) : Except Failure (List Chars) :=
  match (entries.lookup (codes "ldk_keys_index")).filter (· ≠ []) with
  | none => .ok []
  | some index =>
    match d.parseIndex index with
    | .ok keys => .ok keys
    | .error message => .error (.thrown ("Cannot export: ldk_keys_index is malformed — " ++ message))

def historyKeys : List Chars := (d.keys.getD []).filter fun key => TX_KEY_PREFIX.isPrefixOf key

/-- The entries of a backup. -/
def exportEntries : Except Failure (List (Chars × Chars)) := do
  let direct := collect d.stored BACKUP_DIRECT_KEYS []
  let indexed ← indexedKeys d direct
  .ok (collect d.stored (historyKeys d) (collect d.stored indexed direct))

def exportState (network : Chars) (passphrase : Option Chars) (draws : Draws) : Except Failure Envelope :=
  match (d.stored SEED_KEY).filter (· ≠ []) with
  | none => .error (.thrown "Cannot export: no wallet seed found in storage")
  | some seedHex => do
    let entries ← exportEntries d
    Bolt11.returned (encryptBackup pf ⟨some network, entries⟩ passphrase seedHex draws)

end Code

section Exporting

variable {K : Type} {pf : Platform K} {d : Device} {entries : List (Chars × Chars)}

/-- What a backup holds. -/
def BackedUp (d : Device) (key : Chars) : Prop :=
  key ∈ BACKUP_DIRECT_KEYS ∨ key ∈ historyKeys d ∨
    ∃ keys, indexedKeys d (collect d.stored BACKUP_DIRECT_KEYS []) = .ok keys ∧ key ∈ keys

theorem exportEntries_spec (h : exportEntries d = .ok entries) :
    (entries.map Prod.fst).Nodup ∧ Faithful d.stored entries ∧
      ∀ key, BackedUp d key → entries.lookup key = d.stored key := by
  unfold exportEntries at h
  dsimp only at h
  cases hindexed : indexedKeys d (collect d.stored BACKUP_DIRECT_KEYS []) with
  | error e =>
    rw [hindexed] at h
    cases h
  | ok indexed =>
    rw [hindexed] at h
    cases h
    have hdirect : Faithful d.stored (collect d.stored BACKUP_DIRECT_KEYS []) :=
      faithful_collect fun k v hv => by cases hv
    have hall : Faithful d.stored (collect d.stored indexed (collect d.stored BACKUP_DIRECT_KEYS [])) :=
      faithful_collect hdirect
    refine ⟨nodup_collect (nodup_collect (nodup_collect List.nodup_nil)), faithful_collect hall,
      fun key hkey => ?_⟩
    rw [lookup_collect hall, lookup_collect hdirect, lookup_collect fun k v hv => by cases hv]
    rcases hkey with hmem | hmem | ⟨keys, hkeys, hmem⟩
    · rw [if_pos hmem, ite_self, ite_self]
    · rw [if_pos hmem]
    · rw [hindexed] at hkeys
      cases hkeys
      rw [if_pos hmem, ite_self]

end Exporting

/-! ## Restoring -/

section Restoring

variable {K : Type} {pf : Platform K} {bip : Bip39} {nodeAlias : Chars → Option Chars} {d : Device}
  {network name key : Chars} {passphrase : Option Chars} {draws : Draws} {envelope : Envelope}
  {entries : List (Chars × Chars)}

theorem setItem_apply (db : Databases) (name key value k : Chars) :
    db.setItem name key value name k = if k = key then some value else db name k := by
  unfold Databases.setItem
  rw [Function.update_self, Function.update_apply]

theorem foldl_setItem (db : Databases) (name : Chars) (h : (entries.map Prod.fst).Nodup) (k : Chars) :
    entries.foldl (fun db e => db.setItem name e.1 e.2) db name k = (entries.lookup k).or (db name k) := by
  induction entries generalizing db with
  | nil => rfl
  | cons e entries ih =>
    obtain ⟨key, value⟩ := e
    rw [List.map_cons, List.nodup_cons] at h
    rw [List.foldl_cons, ih _ h.2, setItem_apply, lookup_cons_eq]
    split
    · rename_i hk
      subst hk
      have hnone : entries.lookup k = none := by
        rw [List.lookup_eq_none_iff]
        intro e he
        rw [bne_iff_ne]
        intro heq
        rw [heq] at h
        exact h.1 (List.mem_map.mpr ⟨e, he, rfl⟩)
      rw [hnone]
      rfl
    · rfl

theorem lookup_filter_ne {k : Chars} (hk : k ≠ key) :
    (entries.filter (·.1 ≠ key)).lookup k = entries.lookup k := by
  induction entries with
  | nil => rfl
  | cons e entries ih =>
    obtain ⟨k', v'⟩ := e
    rw [List.filter_cons]
    split
    · rw [lookup_cons_eq, lookup_cons_eq, ih]
    · rename_i heq
      have hkey : k' = key := by simpa using heq
      rw [lookup_cons_eq, if_neg (fun h => hk (h.trans hkey)), ih]

/-- An import writes every entry of what it decrypts. -/
theorem importState_entries {ρ κ δ : Type} {env : Environment ρ κ δ} {envelope : BackupEnvelope ρ κ}
    {secret : Chars} (db : Databases) (hnodup : (entries.map Prod.fst).Nodup)
    (hopen : decryptAndParse env envelope secret = some ⟨some network, entries⟩) :
    ∃ db', importState env db network envelope secret = some db' ∧
      ∀ k v, entries.lookup k = some v → db' (dbNameForNetwork network) k = some v := by
  have hwritten : ∀ k v, k ≠ SEED_KEY → entries.lookup k = some v →
      (entries.filter (·.1 ≠ SEED_KEY)).foldl (fun db e => db.setItem (dbNameForNetwork network) e.1 e.2)
        (db.removeItem (dbNameForNetwork network) MONITOR_HIGHWATER_KEY) (dbNameForNetwork network) k =
          some v := by
    intro k v hk hv
    rw [foldl_setItem _ _ (hnodup.sublist (List.filter_sublist.map _)), lookup_filter_ne hk, hv]
    rfl
  unfold importState
  rw [hopen, Option.bind_some, if_pos rfl]
  refine ⟨_, rfl, fun k v hv => ?_⟩
  dsimp only
  cases hseed : entries.lookup SEED_KEY with
  | none =>
    refine hwritten k v (fun hk => ?_) hv
    rw [hk, hseed] at hv
    cases hv
  | some seed =>
    dsimp only
    rw [setItem_apply]
    split
    · rename_i hk
      rw [hk, hseed] at hv
      exact hv
    · rename_i hk
      exact hwritten k v hk hv

/-- A restore onto a device without channel state for the network of the backup is imported. -/
theorem restoreWallet_fresh {ρ κ δ : Type} {env : Environment ρ κ δ} {envelope : BackupEnvelope ρ κ}
    {secret : Chars} (db : Databases) (hnodup : (entries.map Prod.fst).Nodup)
    (hopen : decryptAndParse env envelope secret = some ⟨some network, entries⟩)
    (hne : network ≠ []) (htrim : trim network = network)
    (hfresh : hasChannelState db network = false) :
    (restoreWallet env false false db envelope secret).outcome = .imported ∧
      ∀ k v, entries.lookup k = some v →
        (restoreWallet env false false db envelope secret).db (dbNameForNetwork network) k = some v := by
  have hearly : restoreBlockReason false false false = none := rfl
  have hverified : ∃ verified, verifyBackupEnvelope env envelope secret = some verified ∧
      verified.network = some network := by
    unfold verifyBackupEnvelope
    rw [hopen]
    exact ⟨_, rfl, rfl⟩
  obtain ⟨verified, hverify, hnetwork⟩ := hverified
  have htruthy : truthy verified.network = true := by
    rw [hnetwork]
    exact decide_eq_true hne
  have htarget : targetNetwork (getConfig env db).2 verified = network := by
    unfold targetNetwork
    rw [if_pos htruthy, hnetwork]
    rfl
  have hstate : hasChannelState (getConfig env db).2 network = false := by
    rw [hasChannelState_getConfig, hfresh]
  have hstale : canOverwriteStale env (getConfig env db).2 network envelope = false := by
    unfold canOverwriteStale
    rw [hstate]
    rfl
  -- the network of the backup is the active one when it is imported
  have hactive : (getConfig env ((getConfig env db).2.setItem META_DB_NAME ACTIVE_NETWORK_KEY network)).1 =
      network := by
    rw [getConfig]
    dsimp only
    unfold activeNetwork
    rw [setItem_apply, if_pos rfl]
    unfold resolveActiveNetwork
    dsimp only
    rw [htrim, if_pos hne]
  obtain ⟨db', himport, hentries⟩ := importState_entries
    (getConfig env ((getConfig env db).2.setItem META_DB_NAME ACTIVE_NETWORK_KEY network)).2 hnodup hopen
  have hrestored : restoreWallet env false false db envelope secret = { outcome := .imported, db := db' } := by
    unfold restoreWallet
    rw [hearly]
    dsimp only
    rw [hverify]
    dsimp only
    rw [htarget, hstate, hstale, htruthy, hnetwork, Bool.false_and, hearly]
    simp only [if_true, Bool.false_eq_true, if_false, Option.getD_some]
    rw [hactive, himport]
  rw [hrestored]
  exact ⟨rfl, hentries⟩

/-- What a stopped wallet exported comes back on any device that has no channel state for its
network, under any secret of its owner: the restore imports it, and every key that a backup
holds reads as it did on the first device. -/
theorem restore_of_export (hpf : pf.Documented) (hdoc : bip.Documented)
    (hjson : ∀ entries, exportEntries d = .ok entries →
      pf.parse (pf.stringify ⟨some network, entries⟩) = some ⟨some network, entries⟩)
    {seedHex : Chars} (hseed : d.stored SEED_KEY = some seedHex) (hhex : isHex seedHex = true)
    (hexport : exportState pf d network passphrase draws = .ok envelope) (hne : network ≠ [])
    (htrim : trim network = network) {secret : Chars} (hsecret : OwnSecret bip passphrase seedHex secret)
    (db : Databases) (hfresh : hasChannelState db network = false) :
    (restoreWallet (environment pf bip nodeAlias) false false db envelope secret).outcome = .imported ∧
      ∀ key value, BackedUp d key → d.stored key = some value →
        (restoreWallet (environment pf bip nodeAlias) false false db envelope secret).db
          (dbNameForNetwork network) key = some value := by
  have hnonempty : (d.stored SEED_KEY).filter (· ≠ []) = some seedHex := by
    rw [hseed, Option.filter_some, if_pos]
    refine decide_eq_true fun hnil => ?_
    rw [hnil] at hhex
    cases hhex
  unfold exportState at hexport
  rw [hnonempty] at hexport
  dsimp only at hexport
  cases hentries : exportEntries d with
  | error e =>
    rw [hentries] at hexport
    cases hexport
  | ok entries =>
    rw [hentries] at hexport
    obtain ⟨hnodup, -, hbacked⟩ := exportEntries_spec hentries
    have hreturned : Bolt11.returned (encryptBackup pf ⟨some network, entries⟩ passphrase seedHex draws) =
        .ok envelope := hexport
    have hopen : decryptAndParse (environment pf bip nodeAlias) envelope secret =
        some ⟨some network, entries⟩ := by
      cases hsealed : encryptBackup pf ⟨some network, entries⟩ passphrase seedHex draws with
      | none =>
        rw [hsealed] at hreturned
        cases hreturned
      | some envelope' =>
        rw [hsealed] at hreturned
        cases hreturned
        exact (backup_opens hpf hdoc (hjson _ hentries) hhex hsealed).1 secret hsecret
    obtain ⟨himported, hread⟩ := restoreWallet_fresh db hnodup hopen hne htrim hfresh
    exact ⟨himported, fun key value hkey hvalue => hread key value ((hbacked key hkey).trans hvalue)⟩

end Restoring

open Examples

namespace Examples

/-- A wallet with one channel and one payment, whose provider lists its keys. -/
def device : Device where
  stored := fun key => savings.entries.lookup key
  keys := some (savings.entries.map Prod.fst)
  parseIndex := fun index =>
    if index = codes "[\"monitors/" ++ channel ++ codes "\"]" then .ok [codes "monitors/" ++ channel]
    else .error "Unexpected token"

/-- The keys that the device is asked for first, and the index among them. -/
theorem collect_device : collect device.stored BACKUP_DIRECT_KEYS [] = savings.entries.take 4 ∧
    indexedKeys device (savings.entries.take 4) = .ok [codes "monitors/" ++ channel] := by
  have hindex : ((savings.entries.take 4).lookup (codes "ldk_keys_index")).filter (· ≠ []) =
      some (codes "[\"monitors/" ++ channel ++ codes "\"]") := by
    decide +kernel
  refine ⟨by decide +kernel, ?_⟩
  unfold indexedKeys
  rw [hindex]
  dsimp only [device]
  rw [if_pos rfl]

theorem exportEntries_device : exportEntries device = .ok savings.entries := by
  obtain ⟨hdirect, hindexed⟩ := collect_device
  have hall : collect device.stored (historyKeys device)
      (collect device.stored [codes "monitors/" ++ channel] (savings.entries.take 4)) = savings.entries := by
    decide +kernel
  unfold exportEntries
  dsimp only
  rw [hdirect, hindexed]
  exact congrArg Except.ok hall

theorem exportState_device :
    exportState platform device (codes "mainnet") (some passphrase) draws = .ok envelope := by
  have hseed : (device.stored SEED_KEY).filter (· ≠ []) = some zeros := by decide +kernel
  unfold exportState
  rw [hseed, exportEntries_device]
  exact congrArg Bolt11.returned encryptBackup_savings

/-- All that the device has is in a backup. -/
theorem backedUp_device {e : Chars × Chars} (he : e ∈ savings.entries) :
    BackedUp device e.1 ∧ device.stored e.1 = some e.2 := by
  have hkeys : ∀ e ∈ savings.entries, e.1 ∈ BACKUP_DIRECT_KEYS ∨ e.1 ∈ historyKeys device ∨
      e.1 ∈ [codes "monitors/" ++ channel] := by
    decide +kernel
  have hstored : ∀ e ∈ savings.entries, device.stored e.1 = some e.2 := by decide +kernel
  obtain ⟨hdirect, hindexed⟩ := collect_device
  refine ⟨(hkeys e he).imp_right (Or.imp_right fun h => ⟨_, ?_, h⟩), hstored e he⟩
  rw [hdirect, hindexed]

end Examples

/-- On an empty device, with the phrase typed, the seed, the channel, its monitor and the payment come
back. -/
theorem restore_of_export_channel :
    (restoreWallet (environment platform bip fun _ => none) false false (fun _ _ => none) envelope
        typed).outcome = .imported ∧
      ∀ e ∈ savings.entries, (restoreWallet (environment platform bip fun _ => none) false false
        (fun _ _ => none) envelope typed).db (dbNameForNetwork (codes "mainnet")) e.1 = some e.2 := by
  have hsecret : OwnSecret bip (some passphrase) zeros typed :=
    .phrase phrase typed seedHexToMnemonic_zeros words_typed
  obtain ⟨himported, hread⟩ := restore_of_export platform_documented documented
    (fun entries _ => parse_stringify ⟨some (codes "mainnet"), entries⟩) (by decide +kernel) (by decide)
    exportState_device (by decide) (by decide) hsecret (fun _ _ => none) rfl
  exact ⟨himported, fun e he => hread e.1 e.2 (backedUp_device he).1 (backedUp_device he).2⟩

end LibreWallet.Backup
