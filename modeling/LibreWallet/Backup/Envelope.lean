import LibreWallet.Backup.SeedPhrase
import LibreWallet.Bolt11.Invoice
import LibreWallet.Text.Base64

/-
  Backup/Envelope.lean --- sealing a backup, and who can open it.

  Mirrors the encryption of `libre-listener-wallet/src/state-backup.ts` with its two formats, and
  its decryption as an instance of the restore's environment.  WebCrypto and `JSON` are parameters.
-/

set_option autoImplicit false

namespace LibreWallet.Backup

open Text
open Bolt11 (Failure hexToBytes)
open Controller.Restore (BackupEnvelope BackupPayload Chars Environment Recipient RecipientType
  decryptAndParse decryptV2 isHex)

/-- WebCrypto, and `JSON` with the text codec.  Where one throws it is `none`. -/
structure Platform (K : Type) where
  /-- PBKDF2 of a passphrase, with a salt and a number of iterations. -/
  pbkdf2 : Chars → List UInt8 → Nat → K
  /-- HKDF without a salt, of bytes and an info. -/
  hkdf : List UInt8 → Chars → K
  importKey : List UInt8 → Option K
  /-- AES-GCM with an IV. -/
  encrypt : K → List UInt8 → List UInt8 → List UInt8
  decrypt : K → List UInt8 → List UInt8 → Option (List UInt8)
  stringify : BackupPayload → List UInt8
  parse : List UInt8 → Option BackupPayload

/-- What the platform documents: AES-GCM opens under the key that sealed, and under no other. -/
structure Platform.Documented {K : Type} (pf : Platform K) : Prop where
  opens : ∀ k iv plain, pf.decrypt k iv (pf.encrypt k iv plain) = some plain
  authentic : ∀ k k' iv iv' plain plain', pf.decrypt k' iv' (pf.encrypt k iv plain) = some plain' → k' = k
  imports : ∀ bytes, bytes.length = 32 → ∃ k, pf.importKey bytes = some k

/-- `RecipientV2` without its type and the name of its key derivation. -/
structure Wrapping where
  iter : Option Nat
  salt : Option Chars
  info : Option Chars
  iv : Chars
  wrap : Chars

/-- The `iv` and `ct` of an envelope. -/
structure Sealed where
  iv : Chars
  ct : Chars

abbrev Envelope := BackupEnvelope Wrapping Sealed

def HKDF_INFO_V1 : Chars := codes "libre-wallet-backup-v1"
def SEED_KEK_INFO : Chars := codes "libre-wallet-backup-kek-v2"
def PBKDF2_ITER : Nat := 600000

def bytesToBase64 (bytes : List UInt8) : Chars := Base64.btoa bytes

/-- `none` where it throws. -/
def base64ToBytes (b64 : Chars) : Option (List UInt8) := Base64.atob b64

section Code

variable {K : Type} (pf : Platform K)

def deriveKekFromPassphrase (passphrase : Chars) (salt : List UInt8) (iter : Nat) : K :=
  pf.pbkdf2 passphrase salt iter

def deriveKekFromSeed (seedHex : Chars) : K := pf.hkdf (hexToBytes seedHex) SEED_KEK_INFO

def deriveAesKeyV1 (seedHex : Chars) : K := pf.hkdf (hexToBytes seedHex) HKDF_INFO_V1

/-- The IV and the wrap. -/
def wrapDek (kek : K) (iv dek : List UInt8) : Chars × Chars :=
  (bytesToBase64 iv, bytesToBase64 (pf.encrypt kek iv dek))

def unwrapDek (kek : K) (ivB64 wrapB64 : Chars) : Option (List UInt8) :=
  (base64ToBytes ivB64).bind fun iv => (base64ToBytes wrapB64).bind fun wrap => pf.decrypt kek iv wrap

/-- What is drawn at random, in the order in which it is drawn. -/
structure Draws where
  dek : List UInt8
  iv : List UInt8
  salt : List UInt8
  passIv : List UInt8
  seedIv : List UInt8

/-- `none` where it throws. -/
def serializeAndEncrypt (payload : BackupPayload) (passphrase seedHex : Chars) (draws : Draws) :
    Option Envelope :=
  (pf.importKey draws.dek).map fun dekKey =>
    let passKek := deriveKekFromPassphrase pf passphrase draws.salt PBKDF2_ITER
    let passWrap := wrapDek pf passKek draws.passIv draws.dek
    let seedKek := deriveKekFromSeed pf seedHex
    let seedWrap := wrapDek pf seedKek draws.seedIv draws.dek
    .v2
      [⟨.passphrase, ⟨some PBKDF2_ITER, some (bytesToBase64 draws.salt), none, passWrap.1, passWrap.2⟩⟩,
        ⟨.seed, ⟨none, none, some SEED_KEK_INFO, seedWrap.1, seedWrap.2⟩⟩]
      ⟨bytesToBase64 draws.iv, bytesToBase64 (pf.encrypt dekKey draws.iv (pf.stringify payload))⟩

def serializeAndEncryptV1 (payload : BackupPayload) (seedHex : Chars) (iv : List UInt8) : Envelope :=
  .v1 ⟨bytesToBase64 iv, bytesToBase64 (pf.encrypt (deriveAesKeyV1 pf seedHex) iv (pf.stringify payload))⟩

/-- The end of `exportState`: both recipients where a passphrase is given, and else the seed. -/
def encryptBackup (payload : BackupPayload) (passphrase : Option Chars) (seedHex : Chars) (draws : Draws) :
    Option Envelope :=
  match passphrase.filter (· ≠ []) with
  | some passphrase => serializeAndEncrypt pf payload passphrase seedHex draws
  | none => some (serializeAndEncryptV1 pf payload seedHex draws.iv)

/-- The key that a secret derives for a recipient. -/
def kekOf (type : RecipientType) (secret : Chars) (r : Wrapping) : Option K :=
  match type with
  | .passphrase => r.salt.bind fun salt => r.iter.bind fun iter =>
      (base64ToBytes salt).map fun salt => deriveKekFromPassphrase pf secret salt iter
  | .seed => some (deriveKekFromSeed pf secret)

/-- Opens what a key sealed. -/
def openSealed (key : K) (s : Sealed) : Option BackupPayload :=
  (unwrapDek pf key s.iv s.ct).bind pf.parse

/-- What a restore reads backups with. -/
def environment (bip : Bip39) (nodeAlias : Chars → Option Chars) :
    Environment Wrapping Sealed (List UInt8) where
  normalizeBackupSecret := fun secret =>
    match normalizeBackupSecret bip secret with
    | .ok r => r
    | .error _ => secret
  unwrapDek := fun type secret r => (kekOf pf type secret r).bind fun kek => unwrapDek pf kek r.iv r.wrap
  decrypt := fun dek s => (pf.importKey dek).bind fun key => openSealed pf key s
  decryptV1 := fun secret s => openSealed pf (deriveAesKeyV1 pf secret) s
  nodeAlias

end Code

/-! ## Who can open it -/

section Opening

variable {K : Type} {pf : Platform K} {bip : Bip39} {nodeAlias : Chars → Option Chars}
  {payload : BackupPayload} {passphrase seedHex secret s : Chars} {draws : Draws} {envelope : Envelope}

theorem base64ToBytes_bytesToBase64 (bytes : List UInt8) : base64ToBytes (bytesToBase64 bytes) = some bytes :=
  Base64.atob_btoa bytes

theorem unwrapDek_wrapDek (hpf : pf.Documented) (kek : K) (iv dek : List UInt8) :
    unwrapDek pf kek (wrapDek pf kek iv dek).1 (wrapDek pf kek iv dek).2 = some dek := by
  unfold unwrapDek wrapDek
  dsimp only
  rw [base64ToBytes_bytesToBase64, base64ToBytes_bytesToBase64]
  exact hpf.opens kek iv dek

/-- A key that unwraps is the key that wrapped. -/
theorem unwrapDek_cases (hpf : pf.Documented) (kek kek' : K) (iv dek : List UInt8) :
    unwrapDek pf kek' (wrapDek pf kek iv dek).1 (wrapDek pf kek iv dek).2 = some dek ∧ kek' = kek ∨
      unwrapDek pf kek' (wrapDek pf kek iv dek).1 (wrapDek pf kek iv dek).2 = none ∧ kek' ≠ kek := by
  by_cases heq : kek' = kek
  · subst heq
    exact .inl ⟨unwrapDek_wrapDek hpf kek' iv dek, rfl⟩
  · refine .inr ⟨?_, heq⟩
    unfold unwrapDek wrapDek
    dsimp only
    rw [base64ToBytes_bytesToBase64, base64ToBytes_bytesToBase64, Option.bind_some, Option.bind_some, Option.eq_none_iff_forall_ne_some]
    intro plain h
    exact heq (hpf.authentic kek kek' iv iv dek plain h)

theorem unwrapDek_passphrase (pf : Platform K) (bip : Bip39) (nodeAlias : Chars → Option Chars)
    (s : Chars) (salt : List UInt8) (iter : Nat) (x : Chars × Chars) :
    (environment pf bip nodeAlias).unwrapDek .passphrase s
        ⟨some iter, some (bytesToBase64 salt), none, x.1, x.2⟩ =
      unwrapDek pf (deriveKekFromPassphrase pf s salt iter) x.1 x.2 := by
  simp only [environment, kekOf, Option.bind_some, base64ToBytes_bytesToBase64, Option.map_some]

theorem unwrapDek_seed (pf : Platform K) (bip : Bip39) (nodeAlias : Chars → Option Chars) (s : Chars)
    (x : Chars × Chars) :
    (environment pf bip nodeAlias).unwrapDek .seed s ⟨none, none, some SEED_KEK_INFO, x.1, x.2⟩ =
      unwrapDek pf (deriveKekFromSeed pf s) x.1 x.2 := rfl

/-- The secret derives the key that the passphrase derived, or the one that the seed did. -/
def Derives (pf : Platform K) (passphrase seedHex : Chars) (draws : Draws) (s : Chars) : Prop :=
  deriveKekFromPassphrase pf s draws.salt PBKDF2_ITER =
      deriveKekFromPassphrase pf passphrase draws.salt PBKDF2_ITER ∨
    deriveKekFromSeed pf s = deriveKekFromSeed pf seedHex

/-- Two recipients that wrap one key: it is found by either, whichever is tried first. -/
theorem decryptV2_pair {ρ κ δ : Type} (env : Environment ρ κ δ) {rp rs : ρ} {ct : κ} {a b : Option δ}
    (ha : env.unwrapDek .passphrase s rp = a) (hb : env.unwrapDek .seed s rs = b)
    (hab : ∀ x ∈ a, ∀ y ∈ b, x = y) :
    decryptV2 env [⟨.passphrase, rp⟩, ⟨.seed, rs⟩] ct s = (a.or b).bind fun dek => env.decrypt dek ct := by
  have hpass : [(⟨.passphrase, rp⟩ : Recipient ρ), ⟨.seed, rs⟩].find? (·.type = .passphrase) =
      some ⟨.passphrase, rp⟩ := rfl
  have hseed : [(⟨.passphrase, rp⟩ : Recipient ρ), ⟨.seed, rs⟩].find? (·.type = .seed) =
      some ⟨.seed, rs⟩ := rfl
  unfold decryptV2
  dsimp only
  congr 1
  split
  · rw [List.findSome?_cons, List.findSome?_cons, hpass, hseed, Option.bind_some, Option.bind_some, ha, hb]
    cases b with
    | none => cases a <;> rfl
    | some y =>
      cases a with
      | none => rfl
      | some x => exact congrArg some (hab x rfl y rfl).symm
  · rw [List.findSome?_cons, List.findSome?_cons, hpass, hseed, Option.bind_some, Option.bind_some, ha, hb]
    cases a with
    | none => cases b <;> rfl
    | some x => rfl

theorem openSealed_encrypt (hpf : pf.Documented) (hjson : pf.parse (pf.stringify payload) = some payload)
    (key : K) (iv : List UInt8) :
    openSealed pf key ⟨bytesToBase64 iv, bytesToBase64 (pf.encrypt key iv (pf.stringify payload))⟩ = some payload := by
  have hunwrap := unwrapDek_wrapDek hpf key iv (pf.stringify payload)
  dsimp only [wrapDek] at hunwrap
  unfold openSealed
  rw [hunwrap]
  exact hjson

/-- What a secret in its normal form opens. -/
theorem decryptV2_serialized (hpf : pf.Documented) (hjson : pf.parse (pf.stringify payload) = some payload)
    {recipients : List (Recipient Wrapping)} {ct : Sealed}
    (h : serializeAndEncrypt pf payload passphrase seedHex draws = some (.v2 recipients ct)) :
    (Derives pf passphrase seedHex draws s →
      decryptV2 (environment pf bip nodeAlias) recipients ct s = some payload) ∧
    (¬Derives pf passphrase seedHex draws s →
      decryptV2 (environment pf bip nodeAlias) recipients ct s = none) := by
  obtain ⟨dekKey, hkey, heq⟩ := Option.map_eq_some_iff.mp h
  cases heq
  have hdecrypt : (environment pf bip nodeAlias).decrypt draws.dek
      ⟨bytesToBase64 draws.iv, bytesToBase64 (pf.encrypt dekKey draws.iv (pf.stringify payload))⟩ = some payload := by
    simp only [environment, hkey, Option.bind_some]
    exact openSealed_encrypt hpf hjson dekKey draws.iv
  have hpass := unwrapDek_passphrase pf bip nodeAlias s draws.salt PBKDF2_ITER
    (wrapDek pf (deriveKekFromPassphrase pf passphrase draws.salt PBKDF2_ITER) draws.passIv draws.dek)
  have hseed := unwrapDek_seed pf bip nodeAlias s
    (wrapDek pf (deriveKekFromSeed pf seedHex) draws.seedIv draws.dek)
  have hp := unwrapDek_cases hpf (deriveKekFromPassphrase pf passphrase draws.salt PBKDF2_ITER)
    (deriveKekFromPassphrase pf s draws.salt PBKDF2_ITER) draws.passIv draws.dek
  have hs := unwrapDek_cases hpf (deriveKekFromSeed pf seedHex) (deriveKekFromSeed pf s) draws.seedIv draws.dek
  rcases hp with ⟨hp, hpeq⟩ | ⟨hp, hpne⟩
  · rcases hs with ⟨hs, -⟩ | ⟨hs, -⟩
    · rw [decryptV2_pair _ (hpass.trans hp) (hseed.trans hs) fun x hx y hy => by cases hx; cases hy; rfl]
      exact ⟨fun _ => hdecrypt, fun hno => absurd (.inl hpeq) hno⟩
    · rw [decryptV2_pair _ (hpass.trans hp) (hseed.trans hs) fun x hx y hy => by cases hy]
      exact ⟨fun _ => hdecrypt, fun hno => absurd (.inl hpeq) hno⟩
  · rcases hs with ⟨hs, hseq⟩ | ⟨hs, hsne⟩
    · rw [decryptV2_pair _ (hpass.trans hp) (hseed.trans hs) fun x hx => by cases hx]
      exact ⟨fun _ => hdecrypt, fun hno => absurd (.inr hseq) hno⟩
    · rw [decryptV2_pair _ (hpass.trans hp) (hseed.trans hs) fun x hx => by cases hx]
      exact ⟨fun hd => absurd hd (not_or.mpr ⟨hpne, hsne⟩), fun _ => rfl⟩

theorem openSealed_of_ne (hpf : pf.Documented) {key key' : K} (hne : key' ≠ key) (iv plain : List UInt8) :
    openSealed pf key' ⟨bytesToBase64 iv, bytesToBase64 (pf.encrypt key iv plain)⟩ = none := by
  rcases unwrapDek_cases hpf key key' iv plain with ⟨-, heq⟩ | ⟨hnone, -⟩
  · exact absurd heq hne
  · unfold openSealed
    dsimp only [wrapDek] at hnone
    rw [hnone]
    rfl

/-- The secret, in its normal form, derives a key that the backup was sealed with. -/
def Unlocks (pf : Platform K) (passphrase : Option Chars) (seedHex : Chars) (draws : Draws) (r : Chars) : Prop :=
  match passphrase.filter (· ≠ []) with
  | some passphrase => Derives pf passphrase seedHex draws r
  | none => deriveAesKeyV1 pf r = deriveAesKeyV1 pf seedHex

theorem environment_normalize {r : Chars} (hr : normalizeBackupSecret bip secret = .ok r) :
    (environment pf bip nodeAlias).normalizeBackupSecret secret = r := by
  unfold environment
  dsimp only
  rw [hr]

/-- A backup opens under a secret exactly if the secret derives a key that it was sealed with, and
what it opens to is what was sealed. -/
theorem decryptAndParse_sealed (hpf : pf.Documented) (hjson : pf.parse (pf.stringify payload) = some payload)
    {passphrase : Option Chars} (h : encryptBackup pf payload passphrase seedHex draws = some envelope)
    {r : Chars} (hr : normalizeBackupSecret bip secret = .ok r) :
    (Unlocks pf passphrase seedHex draws r →
      decryptAndParse (environment pf bip nodeAlias) envelope secret = some payload) ∧
    (¬Unlocks pf passphrase seedHex draws r →
      decryptAndParse (environment pf bip nodeAlias) envelope secret = none) := by
  unfold decryptAndParse Unlocks
  unfold encryptBackup at h
  dsimp only
  rw [environment_normalize hr]
  split at h
  · rename_i passphrase hpass
    have hv2 := h
    obtain ⟨dekKey, -, heq⟩ := Option.map_eq_some_iff.mp h
    subst heq
    exact decryptV2_serialized hpf hjson hv2
  · cases h
    constructor
    · intro hkey
      have hopen := openSealed_encrypt hpf hjson (deriveAesKeyV1 pf seedHex) draws.iv
      rw [← hkey] at hopen
      have hsealed : (environment pf bip nodeAlias).decryptV1 r
          ⟨bytesToBase64 draws.iv, bytesToBase64 (pf.encrypt (deriveAesKeyV1 pf seedHex) draws.iv (pf.stringify payload))⟩ =
            some payload := by
        rw [← hkey]
        exact hopen
      exact hsealed
    · intro hne
      exact openSealed_of_ne hpf hne draws.iv (pf.stringify payload)

/-- What the owner of a backup has: the seed in either case, its recovery phrase however it is
typed, or the passphrase, unless that is a recovery phrase itself. -/
inductive OwnSecret (bip : Bip39) (passphrase : Option Chars) (seedHex : Chars) : Chars → Prop where
  | seed (s : Chars) : Controller.Restore.toLowerCase s = Controller.Restore.toLowerCase seedHex →
      OwnSecret bip passphrase seedHex s
  | phrase (phrase typed : Chars) : seedHexToMnemonic bip seedHex = .ok phrase →
      (Words.words isWhite typed).map Controller.Restore.toLowerCase =
        Words.words isWhite phrase → OwnSecret bip passphrase seedHex typed
  | passphrase (p : Chars) : passphrase = some p → p ≠ [] → isValidSeedMnemonic bip p = false →
      OwnSecret bip passphrase seedHex p

theorem OwnSecret.unlocks (hdoc : bip.Documented) (hhex : isHex seedHex = true)
    {passphrase : Option Chars} (h : OwnSecret bip passphrase seedHex s) :
    ∃ r, normalizeBackupSecret bip s = .ok r ∧ Unlocks pf passphrase seedHex draws r := by
  have hseed : ∀ t, Controller.Restore.toLowerCase t = Controller.Restore.toLowerCase seedHex →
      Unlocks pf passphrase seedHex draws t := by
    intro t ht
    obtain ⟨-, hbytes⟩ := hexToBytes_of_lower_eq hhex ht
    unfold Unlocks Derives deriveKekFromSeed deriveAesKeyV1
    rw [hbytes]
    split
    · exact .inr rfl
    · rfl
  cases h with
  | seed _ hs =>
    refine ⟨s, ?_, hseed s hs⟩
    rw [normalizeBackupSecret, isValidSeedMnemonic_of_isHex bip (hexToBytes_of_lower_eq hhex hs).1]
    rfl
  | phrase phrase _ hphrase htyped =>
    refine ⟨_, (phrase_reads_back hdoc hphrase htyped).2.2, hseed _ ?_⟩
    unfold Controller.Restore.toLowerCase
    rw [List.map_map]
    refine List.map_congr_left fun c _ => ?_
    simp only [Function.comp_apply]
    split
    · rw [if_neg (by omega)]
    · rfl
  | passphrase _ hp hne hvalid =>
    have hsome : passphrase.filter (· ≠ []) = some s := by
      rw [hp, Option.filter_some, if_pos (by simpa using hne)]
    refine ⟨s, ?_, ?_⟩
    · rw [normalizeBackupSecret, hvalid]
      rfl
    · unfold Unlocks
      rw [hsome]
      exact .inl rfl

/-- Every secret of its owner opens a backup; what opens is always what was sealed, and a secret
that derives none of its keys opens nothing. -/
theorem backup_opens (hpf : pf.Documented) (hdoc : bip.Documented)
    (hjson : pf.parse (pf.stringify payload) = some payload) (hhex : isHex seedHex = true)
    {passphrase : Option Chars} (h : encryptBackup pf payload passphrase seedHex draws = some envelope) :
    (∀ s, OwnSecret bip passphrase seedHex s →
      decryptAndParse (environment pf bip nodeAlias) envelope s = some payload) ∧
    ∀ s, ∃ r, normalizeBackupSecret bip s = .ok r ∧
      ∀ p, decryptAndParse (environment pf bip nodeAlias) envelope s = some p ↔
        Unlocks pf passphrase seedHex draws r ∧ p = payload := by
  refine ⟨fun s hs => ?_, fun s => ?_⟩
  · obtain ⟨r, hr, hunlocks⟩ := hs.unlocks hdoc hhex
    exact (decryptAndParse_sealed hpf hjson h hr).1 hunlocks
  · obtain ⟨r, hr, -, -⟩ := normalizeBackupSecret_ok hdoc s
    have hyes : Unlocks pf passphrase seedHex draws r →
        decryptAndParse (environment pf bip nodeAlias) envelope s = some payload :=
      (decryptAndParse_sealed hpf hjson h hr).1
    have hno : ¬Unlocks pf passphrase seedHex draws r →
        decryptAndParse (environment pf bip nodeAlias) envelope s = none :=
      (decryptAndParse_sealed hpf hjson h hr).2
    refine ⟨r, hr, fun p => ⟨fun hp => ?_, fun hp => ?_⟩⟩
    · by_cases hu : Unlocks pf passphrase seedHex draws r
      · rw [hyes hu] at hp
        exact ⟨hu, (Option.some.inj hp).symm⟩
      · rw [hno hu] at hp
        cases hp
    · rw [hp.2]
      exact hyes hp.1

end Opening

/-! ## A backup of one channel and one payment -/

namespace Examples

open Async.Records (Code)
open Bolt11 (bigEndian)

def draws : Draws where
  dek := bigEndian 32 0x24400004dc6ef1610dec22ebe2eb7159adf23bd154cbc7e30c30c9db0aa37868
  iv := bigEndian 12 0x0ab306823035661bb8dba21c
  salt := bigEndian 16 0x63479ad69a090b258277ec8fba6f9941
  passIv := bigEndian 12 0xdd17d77ba01bdd9f26413188
  seedIv := bigEndian 12 0xda2335cd7216368aed922210

def passphrase : Chars := codes "correct horse"

/-- What PBKDF2 derives of the passphrase and the salt, and HKDF of the seed of zeros. -/
def passKek : List UInt8 := bigEndian 32 0x023f5a10277c24f8f506daac6fc9b710e0871eaf19a7a20cc00a204f998f9d2f
def seedKek : List UInt8 := bigEndian 32 0x7ed38a02378270de3a94bdbe8bc844ac361bfc3ee82c63318f31fd5d6c3989b3

def channel : Chars := codes "2514e1475addffb378fdb07e9a109217" ++ codes "6c09dbfbd129ebcaacd0099818d2534c_0"
def payment : Chars := codes "040ffd5925d40e11c67b7238a7fc9957" ++ codes "850b8b9a46e9729fab88c24d6a98aff2"

def savings : BackupPayload where
  network := some (codes "mainnet")
  entries :=
    [(codes "ldk_seed", zeros), (codes "channel_manager", codes "0101000000000000"),
      (codes "ldk_keys_index", codes "[\"monitors/" ++ channel ++ codes "\"]"),
      (codes "state_version", codes "7"), (codes "monitors/" ++ channel, codes "0101ff"),
      (codes "tx_" ++ payment, codes "\x7b\"id\":\"" ++ payment ++
        codes "\",\"direction\":\"received\",\"status\":" ++
        codes "\"settled\",\"amountSats\":21," ++ codes "\"timestamp\":1700000000000\x7d")]

/-- The payload as JSON, exported at 1700000000000. -/
def json : List UInt8 :=
  bigEndian 44 0x7b2276657273696f6e223a312c226e6574776f726b223a226d61696e6e6574222c226578706f727465644174 ++
  bigEndian 44 0x223a313730303030303030303030302c22656e7472696573223a7b226c646b5f73656564223a223030303030 ++
  bigEndian 44 0x3030303030303030303030303030303030303030303030303030303030303030303030303030303030303030 ++
  bigEndian 44 0x303030303030303030303030303030222c226368616e6e656c5f6d616e61676572223a223031303130303030 ++
  bigEndian 44 0x3030303030303030222c226c646b5f6b6579735f696e646578223a225b5c226d6f6e69746f72732f32353134 ++
  bigEndian 44 0x6531343735616464666662333738666462303765396131303932313736633039646266626431323965626361 ++
  bigEndian 44 0x616364303039393831386432353334635f305c225d222c2273746174655f76657273696f6e223a2237222c22 ++
  bigEndian 44 0x6d6f6e69746f72732f3235313465313437356164646666623337386664623037653961313039323137366330 ++
  bigEndian 44 0x39646266626431323965626361616364303039393831386432353334635f30223a22303130316666222c2274 ++
  bigEndian 44 0x785f303430666664353932356434306531316336376237323338613766633939353738353062386239613436 ++
  bigEndian 44 0x65393732396661623838633234643661393861666632223a227b5c2269645c223a5c22303430666664353932 ++
  bigEndian 44 0x3564343065313163363762373233386137666339393537383530623862396134366539373239666162383863 ++
  bigEndian 44 0x32346436613938616666325c222c5c22646972656374696f6e5c223a5c2272656365697665645c222c5c2273 ++
  bigEndian 44 0x74617475735c223a5c22736574746c65645c222c5c22616d6f756e74536174735c223a32312c5c2274696d65 ++
  bigEndian 25 0x7374616d705c223a313730303030303030303030307d227d7d

/-- The data key under each of the two, and the payload under the data key. -/
def passWrap : List UInt8 :=
  bigEndian 44 0xe65502bc4658ccf084ef03001407c8eb863da245d624042146b1d244c4b3e4f700980a3af0469e19b74aa8cb ++
  bigEndian 4 0xdfb9ca5e
def seedWrap : List UInt8 :=
  bigEndian 44 0x06a1140c764c1efd3363999aaee04ae8b36c9acc108673f25dc83ec47f1a5ac9e547c92b746a5f99d9f457dd ++
  bigEndian 4 0x3cb6628f
def ct : List UInt8 :=
  bigEndian 44 0x0ca5088e3db007d3f23d202fec582c8acccf60cee71166dae9212c0433ad24b91b8bffb9f7c2dafae8b7615b ++
  bigEndian 44 0x27d141e69cdefb9dc77988dbbd7f930ccb75502e0f8a41dab632b7744633b6c355836f5a8ae909c8bf158431 ++
  bigEndian 44 0xb7ec3e0f31e338cc4da3bf985a8b1a57a12763ad00ad0ba328383a2331948eb124641d5607720d2576bc4324 ++
  bigEndian 44 0xaefb071fdf07ba25643ef74ba5e1630478170d7b57fcaa2b3a4bbdf20634c1486de120fdcf14fd06f740245f ++
  bigEndian 44 0x01c0a84384ffb6bf7adbd42979d18c311d0fbdb8eb7f0b676eb52c0cf2746eb3ed43c8a51161a1a4b317e4c7 ++
  bigEndian 44 0xff73492d5470559adab797625fdd872ebe3fe6d2a8a39cbff55e5b2c7e23fdfc5ebd5625d94b475469176d3f ++
  bigEndian 44 0x524bfac1ee201a28d865ffe35b7ae3c1263e58b43d2bc2bdca9889ac71d81968c8ba304606aa18999a2472c6 ++
  bigEndian 44 0xfba4734dc8402f742ba88552de8f15d08f15f38493d582e257ed94a48b4121b81415837a6ec853470c604ff3 ++
  bigEndian 44 0x2d0d7c856f399dc52f45b0e7c25e7271150168db7454450086d3ee636845781b744eb9dfb36b4272b01c22b8 ++
  bigEndian 44 0xc633692030d3ddd515b512d253168272ace057fbbe1008aa348cf8e4fee8ad6afbc2f60059f15d45405344ce ++
  bigEndian 44 0xae89711cd134d9313f0986b728e69e19c71bf69416b01f2b01600e4dce1120b0e953a1e3f651fce12b12be8b ++
  bigEndian 44 0xc1471b88f703497f2fc79d5f81ad333b681e6907ff64071fbc3d69d56084c98b17d24818f4da5caf5f38f594 ++
  bigEndian 44 0x6a56f2f577fa4e74a4ef24640c045635034d69dbef83994503ff5bec268e3a56f668b5823bdb3aa0417894bd ++
  bigEndian 44 0x2b666b6d10edd8a0faeee164a7075b2b800b32f41cec5062c94317fb5b14a35090fb879ad6f7e236cd26e061 ++
  bigEndian 41 0x44a16f946bc4b38de777097ca41a4028201176a5524b48b361eacad11f9579b2afb52805b08d1ac21a

abbrev Plain := List UInt8 × List UInt8 × List UInt8

/-- AES-GCM of these, and a code of zeros for all others. -/
def gcm : Code Plain (List UInt8) where
  listed := [((passKek, draws.passIv, draws.dek), passWrap), ((seedKek, draws.seedIv, draws.dek), seedWrap),
    ((draws.dek, draws.iv, json), ct)]
  write := fun (key, iv, plain) =>
    List.replicate (Encodable.encode (key.map UInt8.toNat, iv.map UInt8.toNat, plain.map UInt8.toNat)) 0
  read := fun ct =>
    (Encodable.decode ct.length : Option (List Nat × List Nat × List Nat)).map fun (key, iv, plain) =>
      (key.map UInt8.ofNat, iv.map UInt8.ofNat, plain.map UInt8.ofNat)

/-- JSON of this payload, and a code of zeros for all others. -/
def texts : Code (Option Chars × List (Chars × Chars)) (List UInt8) where
  listed := [((savings.network, savings.entries), json)]
  write := fun payload => List.replicate (Encodable.encode payload) 0
  read := fun bytes => Encodable.decode bytes.length

/-- AES takes a key of 16, 24 or 32 bytes. -/
def platform : Platform (List UInt8) where
  pbkdf2 := fun secret salt iter =>
    if secret = passphrase ∧ salt = draws.salt ∧ iter = PBKDF2_ITER then passKek else []
  hkdf := fun bytes info => if bytes = List.replicate 32 0 ∧ info = SEED_KEK_INFO then seedKek else []
  importKey := fun bytes =>
    if bytes.length = 16 ∨ bytes.length = 24 ∨ bytes.length = 32 then some bytes else none
  encrypt := fun key iv plain => gcm.encode (key, iv, plain)
  decrypt := fun key iv ct => (gcm.decode ct).bind fun (key', iv', plain) =>
    if key' = key ∧ iv' = iv then some plain else none
  stringify := fun payload => texts.encode (payload.network, payload.entries)
  parse := fun bytes => (texts.decode bytes).map fun (network, entries) => ⟨network, entries⟩

theorem ofNat_toNat (bytes : List UInt8) : (bytes.map UInt8.toNat).map UInt8.ofNat = bytes := by
  rw [List.map_map]
  exact (List.map_congr_left fun b _ => UInt8.ofNat_toNat).trans (List.map_id bytes)

/-- What starts with another byte is not written in zeros. -/
theorem ne_zeros {bytes : List UInt8} {n : Nat} (h : bytes.headD 0 ≠ 0) : bytes ≠ List.replicate n 0 := by
  rintro rfl
  cases n with
  | zero => exact h rfl
  | succ n => exact h rfl

theorem gcm_lawful : gcm.Lawful where
  distinct := by decide +kernel
  apart := by
    have hheads : ∀ e ∈ gcm.listed, e.2.headD 0 ≠ 0 := by decide +kernel
    exact fun a e he => ne_zeros (hheads e he)
  reads := by
    rintro ⟨key, iv, plain⟩
    simp only [gcm, List.length_replicate, Encodable.encodek, Option.map_some, ofNat_toNat]

theorem texts_lawful : texts.Lawful where
  distinct := List.nodup_singleton _
  apart := by
    have hheads : ∀ e ∈ texts.listed, e.2.headD 0 ≠ 0 := by decide +kernel
    exact fun a e he => ne_zeros (hheads e he)
  reads := by
    intro payload
    simp only [texts, List.length_replicate, Encodable.encodek]

theorem platform_documented : platform.Documented where
  opens := by
    intro key iv plain
    simp only [platform]
    rw [Code.decode_encode gcm_lawful, Option.bind_some, if_pos ⟨rfl, rfl⟩]
  authentic := by
    intro key key' iv iv' plain plain' h
    simp only [platform] at h
    rw [Code.decode_encode gcm_lawful, Option.bind_some] at h
    dsimp only at h
    split at h
    · rename_i heq
      exact heq.1.symm
    · cases h
  imports := fun bytes hlen => ⟨bytes, if_pos (.inr (.inr hlen))⟩

theorem parse_stringify (payload : BackupPayload) :
    platform.parse (platform.stringify payload) = some payload := by
  simp only [platform]
  rw [Code.decode_encode texts_lawful]
  rfl

/-- The envelope, with what WebCrypto gives. -/
def envelope : Envelope :=
  .v2
    [⟨.passphrase, ⟨some 600000, some (bytesToBase64 draws.salt), none, bytesToBase64 draws.passIv,
        bytesToBase64 passWrap⟩⟩,
      ⟨.seed, ⟨none, none, some SEED_KEK_INFO, bytesToBase64 draws.seedIv, bytesToBase64 seedWrap⟩⟩]
    ⟨bytesToBase64 draws.iv, bytesToBase64 ct⟩

theorem encryptBackup_savings : encryptBackup platform savings (some passphrase) zeros draws = some envelope := by
  have hpassKek : deriveKekFromPassphrase platform passphrase draws.salt PBKDF2_ITER = passKek := by
    decide +kernel
  have hseedKek : deriveKekFromSeed platform zeros = seedKek := by decide +kernel
  have hkey : platform.importKey draws.dek = some draws.dek := by decide +kernel
  have hpass : platform.encrypt passKek draws.passIv draws.dek = passWrap := by decide +kernel
  have hseed : platform.encrypt seedKek draws.seedIv draws.dek = seedWrap := by decide +kernel
  have hjson : platform.stringify savings = json := by decide +kernel
  have hct : platform.encrypt draws.dek draws.iv json = ct := by decide +kernel
  have hpassphrase : (some passphrase).filter (· ≠ []) = some passphrase := by decide
  unfold encryptBackup
  rw [hpassphrase]
  unfold serializeAndEncrypt wrapDek
  dsimp only
  rw [hkey, Option.map_some, hpassKek, hseedKek, hjson, hpass, hseed, hct]
  rfl

end Examples

open Examples

/-- The seed opens a backup with a passphrase, and so do its phrase and the passphrase. -/
theorem backup_opens_both :
    decryptAndParse (environment platform bip fun _ => none) envelope zeros = some savings ∧
      decryptAndParse (environment platform bip fun _ => none) envelope typed = some savings ∧
      decryptAndParse (environment platform bip fun _ => none) envelope passphrase = some savings := by
  have hopens : ∀ s, OwnSecret bip (some passphrase) zeros s →
      decryptAndParse (environment platform bip fun _ => none) envelope s = some savings :=
    (backup_opens platform_documented documented (parse_stringify savings) (by decide) encryptBackup_savings).1
  have hpass : isValidSeedMnemonic bip passphrase = false := by decide +kernel
  exact ⟨hopens zeros (.seed zeros rfl), hopens typed (.phrase phrase typed seedHexToMnemonic_zeros words_typed),
    hopens passphrase (.passphrase passphrase rfl (by decide) hpass)⟩

end LibreWallet.Backup
