import LibreWallet.Bolt11.Hints
import LibreWallet.Net.PrivateHost

/-
  PushGateway/Subscriptions.lean --- who may have a wallet's pushes sent where.

  Mirrors the requests that `libre-nwc-push-gateway/src/index.ts` serves, its relay listeners as the
  list of their URLs, and `shared/src/gateway-auth.ts`.  A handler runs in one turn; between the
  sending of a push and its outcome anything may happen.
-/

set_option autoImplicit false

namespace LibreWallet.PushGateway.Http

open Bolt11 (bind_eq_ok)
open Text

abbrev Chars : Type := List Nat

/-! ## Request bodies -/

/-- What `JSON.parse` makes of a text.  A field stands once. -/
inductive Json where
  | null
  | bool (b : Bool)
  | num (v : ℚ)
  /-- A number that is too large. -/
  | infinite
  | str (t : Chars)
  | arr (items : List Json)
  | obj (fields : List (Chars × Json))

namespace Json

/-- `v.name`, for names that no array or text has. -/
def get (name : String) : Json → Option Json
  | obj fields => fields.lookup (codes name)
  | _ => none

/-- Whether a value counts as true. -/
def truthy : Option Json → Bool
  | none | some null => false
  | some (bool b) => b
  | some (num v) => v ≠ 0
  | some (str t) => t ≠ []
  | some infinite | some (arr _) | some (obj _) => true

/-- `===`; two objects are never the same. -/
def same : Json → Json → Bool
  | null, null => true
  | bool a, bool b => a = b
  | num a, num b => a = b
  | infinite, infinite => true
  | str a, str b => a = b
  | _, _ => false

/-- `typeof v === "object"`, where `v` is not null. -/
def isObject : Json → Bool
  | arr _ | obj _ => true
  | _ => false

def text : Option Json → Option Chars
  | some (str t) => some t
  | _ => none

/-- A number, where it is not too large. -/
def number : Option Json → Option ℚ
  | some (num v) => some v
  | _ => none

/-- `Array.isArray(v) ? v : []` -/
def items : Option Json → List Json
  | some (arr l) => l
  | _ => []

end Json

structure Url where
  protocol : Chars
  hostname : Chars

/-- `new URL`, conversion to text, `verifyEvent` of `nostr-tools`, the binding of values by
`better-sqlite3` and the tables of Unicode.  Where one throws it is `none`, or false. -/
structure Platform where
  parseUrl : Chars → Option Url
  toText : Json → Option Chars
  verifyEvent : Json → Bool
  toSql : Json → Option Chars
  unicode : Chars → Chars

/-! ## Push auth -/

def GATEWAY_AUTH_KIND : ℤ := 27235
def GATEWAY_AUTH_MAX_AGE_SEC : ℤ := 300
def GATEWAY_AUTH_CONTENT : Chars := codes "libre-push-auth"

inductive GatewayAuthAction where
  | register
  | unregister
  deriving DecidableEq

def GatewayAuthAction.text : GatewayAuthAction → Chars
  | register => codes "register"
  | unregister => codes "unregister"

structure GatewayAuthEventTemplate where
  kind : ℤ
  created_at : ℤ
  tags : List (List Chars)
  content : Chars

def buildGatewayAuthTemplate (action : GatewayAuthAction) (relayUrl : Chars) (endpoint : Option Chars) (nowSec : ℤ) :
    GatewayAuthEventTemplate where
  kind := GATEWAY_AUTH_KIND
  created_at := nowSec
  tags := [[codes "action", action.text], [codes "relay", relayUrl]] ++
    match endpoint.filter (· ≠ []) with
    | some endpoint => [[codes "endpoint", endpoint]]
    | none => []
  content := GATEWAY_AUTH_CONTENT

/-- Whether a tag has a name. -/
def named (name : Chars) : Json → Bool
  | .arr (first :: _) => first.same (.str name)
  | _ => false

/-- What stands second in the first tag of a name. -/
def tagVal (tags : List Json) (name : String) : Option Json :=
  match tags.find? (named (codes name)) with
  | some (.arr (_ :: v :: _)) => some v
  | _ => none

/-- The last arguments are of `opts`. -/
def verifyGatewayAuth (pf : Platform) (auth : Option Json) (walletPubkey : Json) (action : GatewayAuthAction)
    (relayUrl : Json) (endpoint : Option Chars) (now : ℤ) : Bool :=
  auth.any fun ev =>
    let tags := Json.items (ev.get "tags")
    ev.isObject &&
    (ev.get "kind").any (·.same (.num GATEWAY_AUTH_KIND)) &&
    (Json.text (ev.get "pubkey")).any (fun p => (Json.str p).same walletPubkey) &&
    (Json.number (ev.get "created_at")).any (fun t => |(now : ℚ) - t| ≤ GATEWAY_AUTH_MAX_AGE_SEC) &&
    (tagVal tags "action").any (·.same (.str action.text)) &&
    (tagVal tags "relay").any (·.same relayUrl) &&
    (action ≠ .register ||
      (endpoint.filter (· ≠ [])).any fun e => (tagVal tags "endpoint").any (·.same (.str e))) &&
    pf.verifyEvent ev

/-! ## The gateway -/

structure GatewayConfig where
  relayUrl : Option Chars := none
  allowPrivateRelays : Bool := false
  maxRelayListeners : Nat := 64
  maxSubscriptions : Nat := 50000
  requirePushAuth : Bool := true

def MAX_ENDPOINT_LEN : Nat := 2048
def MAX_KEY_LEN : Nat := 512

/-- A row of `subscriptions`; its primary key are the pubkey and the relay URL. -/
structure Row where
  walletPubkey : Chars
  relayUrl : Chars
  endpoint : Chars
  p256dh : Chars
  auth : Chars
  createdAt : Nat
  deriving DecidableEq

def Row.key (r : Row) : Chars × Chars := (r.walletPubkey, r.relayUrl)

structure Gateway where
  rows : List Row := []
  /-- The relays that have a listener. -/
  listeners : List Chars := []
  /-- The notifications that are under way, as the rows they were read from. -/
  pushes : List Row := []

structure Answer where
  status : Nat
  error : Option String := none
  deriving DecidableEq

section Code

variable (pf : Platform) (cfg : GatewayConfig)

def isSafeRelayUrl (raw : Chars) (allowPrivate : Bool) : Bool :=
  match pf.parseUrl raw with
  | none => false
  | some u =>
    if allowPrivate then u.protocol = codes "ws:" || u.protocol = codes "wss:"
    else u.protocol = codes "wss:" && u.hostname ≠ [] && !Net.Gateway.isPrivateHost pf.unicode u.hostname

def isSafePushEndpoint (raw : Json) (allowPrivate : Bool) : Bool :=
  let text := match raw with
    | .str t => some t
    | v => pf.toText v
  match text.bind pf.parseUrl with
  | none => false
  | some u =>
    u.protocol = codes "https:" &&
      (allowPrivate || u.hostname ≠ [] && !Net.Gateway.isPrivateHost pf.unicode u.hostname)

/-- `/^[0-9a-f]{64,66}$/i` -/
def isKey (t : Chars) : Bool := 64 ≤ t.length && t.length ≤ 66 && t.all Bolt11.anyHexDigit

def ensureRelayListener (relayUrl : Chars) (g : Gateway) : Gateway :=
  if g.listeners.contains relayUrl then g
  else if !isSafeRelayUrl pf relayUrl cfg.allowPrivateRelays then g
  else if cfg.maxRelayListeners ≤ g.listeners.length then g
  else { g with listeners := g.listeners ++ [relayUrl] }

/-- `INSERT OR REPLACE` -/
def insert (r : Row) (g : Gateway) : Gateway :=
  { g with rows := g.rows.filter (fun x => x.key ≠ r.key) ++ [r] }

/-- What a handler goes on with, or the answer it gives instead. -/
def orAnswer {α : Type} (a : Answer) : Option α → Except Answer α
  | some v => .ok v
  | none => .error a

def check (a : Answer) (b : Bool) : Except Answer Unit := if b then .ok () else .error a

/-- What `POST /api/register` stores, where it does.  The second is read before the time that is
stored. -/
def admission (nowSec : ℤ) (createdAt : Nat) (body : Option Json) (g : Gateway) : Except Answer Row := do
  let body ← orAnswer { status := 500, error := some "internal error" } body
  let subscription := body.get "subscription"
  let endpoint := subscription.bind (Json.get "endpoint")
  let keys := subscription.bind (Json.get "keys")
  let p256dh := keys.bind (Json.get "p256dh")
  let auth := keys.bind (Json.get "auth")
  check { status := 400, error := some "Missing required parameters" }
    (Json.truthy (body.get "walletPubkey") && Json.truthy (body.get "relayUrl") && Json.truthy subscription)
  let walletPubkey ← orAnswer { status := 400, error := some "walletPubkey must be a hex-encoded key" }
    ((Json.text (body.get "walletPubkey")).filter isKey)
  let relayUrl ← orAnswer { status := 400, error := some "relayUrl must be a wss:// URL to a public host" }
    ((Json.text (body.get "relayUrl")).filter fun u => isSafeRelayUrl pf u cfg.allowPrivateRelays)
  check { status := 400, error := some "subscription must have an https endpoint and keys" }
    (Json.truthy endpoint && Json.truthy p256dh && Json.truthy auth &&
      endpoint.any fun e => isSafePushEndpoint pf e cfg.allowPrivateRelays)
  let tooLong : Answer := { status := 400, error := some "subscription field exceeds maximum length" }
  let endpoint ← orAnswer tooLong ((Json.text endpoint).filter fun t => t.length ≤ MAX_ENDPOINT_LEN)
  let p256dh ← orAnswer tooLong ((Json.text p256dh).filter fun t => t.length ≤ MAX_KEY_LEN)
  let auth ← orAnswer tooLong ((Json.text auth).filter fun t => t.length ≤ MAX_KEY_LEN)
  check { status := 401, error := some "missing or invalid auth signature" }
    (!cfg.requirePushAuth || verifyGatewayAuth pf (body.get "auth") (.str walletPubkey) .register (.str relayUrl)
      (some endpoint) nowSec)
  check { status := 429, error := some "relay listener capacity reached" }
    (g.listeners.contains relayUrl || g.listeners.length < cfg.maxRelayListeners)
  check { status := 429, error := some "subscription capacity reached" }
    (g.rows.any (fun x => x.key = (walletPubkey, relayUrl)) || g.rows.length < cfg.maxSubscriptions)
  .ok { walletPubkey, relayUrl, endpoint, p256dh, auth, createdAt }

/-- `POST /api/register` -/
def register (nowSec : ℤ) (createdAt : Nat) (body : Option Json) (g : Gateway) : Gateway × Answer :=
  match admission pf cfg nowSec createdAt body g with
  | .ok r => (ensureRelayListener pf cfg r.relayUrl (insert r g), { status := 200 })
  | .error a => (g, a)

/-- A value that is bound to a statement. -/
def sqlText : Json → Option Chars
  | .str t => some t
  | v => pf.toSql v

/-- The key of the row that `POST /api/unregister` deletes. -/
def admitRemoval (nowSec : ℤ) (body : Option Json) : Except Answer (Chars × Chars) := do
  let body ← orAnswer { status := 500, error := some "internal error" } body
  let missing : Answer := { status := 400, error := some "Missing parameters" }
  let walletPubkey ← orAnswer missing ((body.get "walletPubkey").filter fun v => Json.truthy (some v))
  let relayUrl ← orAnswer missing ((body.get "relayUrl").filter fun v => Json.truthy (some v))
  check { status := 401, error := some "missing or invalid auth signature" }
    (!cfg.requirePushAuth || verifyGatewayAuth pf (body.get "auth") walletPubkey .unregister relayUrl none nowSec)
  let p ← orAnswer { status := 500, error := some "internal error" } (sqlText pf walletPubkey)
  let u ← orAnswer { status := 500, error := some "internal error" } (sqlText pf relayUrl)
  .ok (p, u)

/-- `POST /api/unregister` -/
def unregister (nowSec : ℤ) (body : Option Json) (g : Gateway) : Gateway × Answer :=
  match admitRemoval pf cfg nowSec body with
  | .ok key => ({ g with rows := g.rows.filter fun x => x.key ≠ key }, { status := 200 })
  | .error a => (g, a)

/-- `handleNwcEvent` up to the sending. -/
def handleNwcEvent (tags : List (List Chars)) (relayUrl : Chars) (g : Gateway) : Gateway :=
  match tags.find? fun t => t.head? = some (codes "p") with
  | some (_ :: walletPubkey :: _) =>
    if walletPubkey = [] then g
    else { g with pushes := g.pushes ++ g.rows.filter fun x => x.key = (walletPubkey, relayUrl) }
  | _ => g

/-- A push comes back, with the status of what was thrown. -/
def pushed (k : Nat) (statusCode : Option Nat) (g : Gateway) : Gateway :=
  match g.pushes[k]? with
  | none => g
  | some row =>
    let g := { g with pushes := g.pushes.eraseIdx k }
    if statusCode = some 410 ∨ statusCode = some 404 then
      { g with rows := g.rows.filter fun x => !(x.key = row.key && x.endpoint = row.endpoint) }
    else g

/-- The process starts with the rows that are stored. -/
def start (rows : List Row) : Gateway :=
  let g := (rows.map (·.relayUrl)).dedup.foldl (fun g url => ensureRelayListener pf cfg url g) { rows }
  match cfg.relayUrl.filter (· ≠ []) with
  | some url => ensureRelayListener pf cfg url g
  | none => g

inductive Action where
  | register (nowSec : ℤ) (createdAt : Nat) (body : Option Json)
  | unregister (nowSec : ℤ) (body : Option Json)
  | nwcEvent (tags : List (List Chars)) (relayUrl : Chars)
  | pushed (k : Nat) (statusCode : Option Nat)
  | restart

def step (g : Gateway) : Action → Gateway
  | .register nowSec createdAt body => (register pf cfg nowSec createdAt body g).1
  | .unregister nowSec body => (unregister pf cfg nowSec body g).1
  | .nwcEvent tags relayUrl => handleNwcEvent tags relayUrl g
  | .pushed k statusCode => pushed k statusCode g
  | .restart => start pf cfg g.rows

/-- From the first start, with an empty table. -/
def run (as : List Action) : Gateway := as.foldl (step pf cfg) (start pf cfg [])

end Code

/-! ## What an event proves -/

section Auth

variable {pf : Platform} {ev : Json} {p : Chars} {action : GatewayAuthAction} {relayUrl : Json} {now : ℤ}

/-- An event by which the owner of a pubkey asks for an action at a relay, at a second. -/
structure Proves (pf : Platform) (ev : Json) (p : Chars) (action : GatewayAuthAction) (relayUrl : Json) (now : ℤ) :
    Prop where
  signed : pf.verifyEvent ev = true
  kind : ev.get "kind" = some (.num GATEWAY_AUTH_KIND)
  owner : ev.get "pubkey" = some (.str p)
  fresh : ∃ t, ev.get "created_at" = some (.num t) ∧ |(now : ℚ) - t| ≤ GATEWAY_AUTH_MAX_AGE_SEC
  asked : tagVal (Json.items (ev.get "tags")) "action" = some (.str action.text)
  relay : tagVal (Json.items (ev.get "tags")) "relay" = some relayUrl

theorem eq_of_same {a b : Json} (h : a.same b = true) : a = b := by
  cases a <;> cases b <;> first | rfl | cases h | exact congrArg _ (of_decide_eq_true h)

theorem same_str (a b : Chars) : (Json.str a).same (.str b) = decide (a = b) := rfl

theorem eq_of_any_same {o : Option Json} {b : Json} (h : o.any (·.same b) = true) : o = some b := by
  obtain ⟨a, ha, hsame⟩ := (Option.any_eq_true _ _).mp h
  rw [ha, eq_of_same hsame]

theorem text_eq_some {o : Option Json} {t : Chars} : Json.text o = some t ↔ o = some (.str t) := by
  constructor
  · intro h
    unfold Json.text at h
    split at h
    · cases h
      rfl
    · cases h
  · rintro rfl
    rfl

theorem number_eq_some {o : Option Json} {v : ℚ} (h : Json.number o = some v) : o = some (.num v) := by
  unfold Json.number at h
  split at h
  · cases h
    rfl
  · cases h

/-- What is verified was signed by the owner, for this and no other use. -/
theorem proves_of_verify {auth : Option Json} {walletPubkey : Json} {endpoint : Option Chars}
    (h : verifyGatewayAuth pf auth walletPubkey action relayUrl endpoint now = true) :
    ∃ ev p, auth = some ev ∧ walletPubkey = .str p ∧ Proves pf ev p action relayUrl now ∧
      (action = .register → ∃ e, endpoint = some e ∧
        tagVal (Json.items (ev.get "tags")) "endpoint" = some (.str e)) := by
  unfold verifyGatewayAuth at h
  obtain ⟨ev, rfl, hev⟩ := (Option.any_eq_true _ _).mp h
  dsimp only at hev
  simp only [Bool.and_eq_true] at hev
  obtain ⟨⟨⟨⟨⟨⟨⟨-, hkind⟩, howner⟩, hfresh⟩, haction⟩, hrelay⟩, hendpoint⟩, hsigned⟩ := hev
  obtain ⟨p, hp, howner⟩ := (Option.any_eq_true _ _).mp howner
  obtain ⟨t, ht, hfresh⟩ := (Option.any_eq_true _ _).mp hfresh
  refine ⟨ev, p, rfl, (eq_of_same howner).symm,
    ⟨hsigned, eq_of_any_same hkind, text_eq_some.mp hp, ⟨t, number_eq_some ht, of_decide_eq_true hfresh⟩,
      eq_of_any_same haction, eq_of_any_same hrelay⟩, fun hregister => ?_⟩
  rw [Bool.or_eq_true, decide_eq_true_eq] at hendpoint
  obtain ⟨e, he, hsame⟩ := (Option.any_eq_true _ _).mp (hendpoint.resolve_left (not_not.mpr hregister))
  exact ⟨e, (Option.filter_eq_some_iff.mp he).1, eq_of_any_same hsame⟩

/-- What `finalizeEvent` of `nostr-tools` makes of a template with the key of a pubkey. -/
structure Finalizes (pf : Platform) (p : Chars) (finalizeEvent : GatewayAuthEventTemplate → Json) : Prop where
  isObject : ∀ t, (finalizeEvent t).isObject = true
  kind : ∀ t, (finalizeEvent t).get "kind" = some (.num t.kind)
  created_at : ∀ t, (finalizeEvent t).get "created_at" = some (.num t.created_at)
  tags : ∀ t, (finalizeEvent t).get "tags" = some (.arr (t.tags.map fun tag => .arr (tag.map .str)))
  pubkey : ∀ t, (finalizeEvent t).get "pubkey" = some (.str p)
  signed : ∀ t, pf.verifyEvent (finalizeEvent t) = true

theorem text_injective {a b : GatewayAuthAction} (h : a.text = b.text) : a = b := by
  have hlen := congrArg List.length h
  cases a <;> cases b <;> first | rfl | exact absurd hlen (by decide)

/-- The tags of a template, as they are read back. -/
theorem tagVal_build (action : GatewayAuthAction) (relayUrl : Chars) (endpoint : Option Chars) (nowSec : ℤ) :
    let tags := (buildGatewayAuthTemplate action relayUrl endpoint nowSec).tags.map fun tag =>
      Json.arr (tag.map .str)
    tagVal tags "action" = some (.str action.text) ∧ tagVal tags "relay" = some (.str relayUrl) ∧
      tagVal tags "endpoint" = (endpoint.filter (· ≠ [])).map .str := by
  unfold buildGatewayAuthTemplate tagVal
  refine ⟨rfl, rfl, ?_⟩
  cases endpoint.filter (· ≠ []) with
  | none => rfl
  | some e => rfl

/-- What a wallet signs is taken at its gateway for the action, the relay and the endpoint that it was
signed for, within five minutes of its time, and for nothing else. -/
theorem gateway_auth_binds {finalizeEvent : GatewayAuthEventTemplate → Json} (hf : Finalizes pf p finalizeEvent)
    (action : GatewayAuthAction) (relayUrl : Chars) (endpoint : Option Chars) (nowSec : ℤ) (q : Chars)
    (action' : GatewayAuthAction) (relayUrl' : Chars) (endpoint' : Option Chars) (now : ℤ) :
    verifyGatewayAuth pf (some (finalizeEvent (buildGatewayAuthTemplate action relayUrl endpoint nowSec))) (.str q)
        action' (.str relayUrl') endpoint' now = true ↔
      q = p ∧ action' = action ∧ relayUrl' = relayUrl ∧ |now - nowSec| ≤ 300 ∧
        (action = .register → ∃ e, e ≠ [] ∧ endpoint = some e ∧ endpoint' = some e) := by
  obtain ⟨haction, hrelay, hendpoint⟩ := tagVal_build action relayUrl endpoint nowSec
  have htags := hf.tags (buildGatewayAuthTemplate action relayUrl endpoint nowSec)
  have hitems : Json.items ((finalizeEvent (buildGatewayAuthTemplate action relayUrl endpoint nowSec)).get "tags") =
      (buildGatewayAuthTemplate action relayUrl endpoint nowSec).tags.map fun tag => Json.arr (tag.map .str) := by
    rw [htags]
    rfl
  constructor
  · intro h
    obtain ⟨ev, q', hev, hq, hproves, hregister⟩ := proves_of_verify h
    cases hev
    cases hq
    have hown := hproves.owner
    have hasked := hproves.asked
    have hat := hproves.relay
    obtain ⟨t, ht, hfresh⟩ := hproves.fresh
    rw [hf.pubkey] at hown
    rw [hitems, haction] at hasked
    rw [hitems, hrelay] at hat
    rw [hf.created_at] at ht
    cases hown
    cases hat
    cases ht
    have htext : action.text = action'.text := Json.str.inj (Option.some.inj hasked)
    obtain rfl := text_injective htext
    refine ⟨rfl, rfl, rfl, ?_, fun hregister' => ?_⟩
    · exact_mod_cast hfresh
    · obtain ⟨e, he, htag⟩ := hregister hregister'
      rw [hitems, hendpoint] at htag
      obtain ⟨e', he', heq⟩ := Option.map_eq_some_iff.mp htag
      cases heq
      obtain ⟨hsome, hne⟩ := Option.filter_eq_some_iff.mp he'
      exact ⟨e, of_decide_eq_true hne, hsome, he⟩
  · rintro ⟨rfl, rfl, rfl, hfresh, hregister⟩
    unfold verifyGatewayAuth
    rw [Option.any_some]
    dsimp only
    rw [hitems, hf.isObject, hf.kind, hf.pubkey, hf.created_at, haction, hrelay, hf.signed]
    have hage : |(now : ℚ) - nowSec| ≤ GATEWAY_AUTH_MAX_AGE_SEC := by exact_mod_cast hfresh
    have hthird : (decide (action' ≠ .register) || (endpoint'.filter (· ≠ [])).any fun e =>
        (tagVal ((buildGatewayAuthTemplate action' relayUrl' endpoint nowSec).tags.map fun tag =>
          Json.arr (tag.map .str)) "endpoint").any (·.same (.str e))) = true := by
      rw [Bool.or_eq_true, decide_eq_true_eq, or_iff_not_imp_left, not_not]
      intro hreg
      obtain ⟨e, hne, rfl, rfl⟩ := hregister hreg
      rw [hendpoint, Option.filter_some, if_pos (decide_eq_true hne), Option.any_some, Option.map_some,
        Option.any_some, same_str, decide_eq_true rfl]
    rw [hthird]
    have hkind : (Json.num (buildGatewayAuthTemplate action' relayUrl' endpoint nowSec).kind).same
        (.num GATEWAY_AUTH_KIND) = true := by
      unfold Json.same
      exact decide_eq_true rfl
    have htime : decide (|(now : ℚ) - (buildGatewayAuthTemplate action' relayUrl' endpoint nowSec).created_at| ≤
        GATEWAY_AUTH_MAX_AGE_SEC) = true := decide_eq_true hage
    simp only [Option.any_some, Json.text, Json.number, same_str, Bool.and_true, hkind, htime, decide_true]

end Auth

/-! ## What one request does -/

section Requests

variable {pf : Platform} {cfg : GatewayConfig} {g : Gateway} {r : Row} {nowSec : ℤ} {createdAt : Nat}

theorem orAnswer_eq_ok {α : Type} {a : Answer} {o : Option α} {v : α} (h : orAnswer a o = .ok v) : o = some v := by
  cases o with
  | none => cases h
  | some w =>
    cases h
    rfl

theorem check_eq_ok {a : Answer} {b : Bool} {u : Unit} (h : check a b = .ok u) : b = true := by
  cases b with
  | false => cases h
  | true => rfl

/-- What every row meets: the pushes go to a public host, and nothing in it is long. -/
structure Row.Valid (pf : Platform) (cfg : GatewayConfig) (r : Row) : Prop where
  key : isKey r.walletPubkey = true
  relay : isSafeRelayUrl pf r.relayUrl cfg.allowPrivateRelays = true
  endpoint : isSafePushEndpoint pf (.str r.endpoint) cfg.allowPrivateRelays = true
  endpointLen : r.endpoint.length ≤ MAX_ENDPOINT_LEN
  p256dhLen : r.p256dh.length ≤ MAX_KEY_LEN
  authLen : r.auth.length ≤ MAX_KEY_LEN

/-- The body of a registration carries an event of the row's owner for the row's relay and endpoint. -/
def Granted (pf : Platform) (nowSec : ℤ) (body : Option Json) (r : Row) : Prop :=
  ∃ b ev, body = some b ∧ b.get "auth" = some ev ∧
    Proves pf ev r.walletPubkey .register (.str r.relayUrl) nowSec ∧
    tagVal (Json.items (ev.get "tags")) "endpoint" = some (.str r.endpoint)

/-- A row that is let in. -/
structure Admitted (pf : Platform) (cfg : GatewayConfig) (nowSec : ℤ) (createdAt : Nat) (body : Option Json)
    (g : Gateway) (r : Row) : Prop where
  valid : r.Valid pf cfg
  created : r.createdAt = createdAt
  granted : cfg.requirePushAuth = true → Granted pf nowSec body r
  listeners : r.relayUrl ∈ g.listeners ∨ g.listeners.length < cfg.maxRelayListeners
  rows : (∃ x ∈ g.rows, x.key = r.key) ∨ g.rows.length < cfg.maxSubscriptions

theorem admission_ok {body : Option Json} (h : admission pf cfg nowSec createdAt body g = .ok r) :
    Admitted pf cfg nowSec createdAt body g r := by
  unfold admission at h
  obtain ⟨b, hbody, h⟩ := bind_eq_ok h
  dsimp only at h
  obtain ⟨_, -, h⟩ := bind_eq_ok h
  obtain ⟨walletPubkey, hkey, h⟩ := bind_eq_ok h
  obtain ⟨relayUrl, hrelay, h⟩ := bind_eq_ok h
  obtain ⟨_, hfields, h⟩ := bind_eq_ok h
  obtain ⟨endpoint, hendpoint, h⟩ := bind_eq_ok h
  obtain ⟨p256dh, hp256dh, h⟩ := bind_eq_ok h
  obtain ⟨auth, hauth, h⟩ := bind_eq_ok h
  obtain ⟨_, hverify, h⟩ := bind_eq_ok h
  obtain ⟨_, hlisteners, h⟩ := bind_eq_ok h
  obtain ⟨_, hrows, h⟩ := bind_eq_ok h
  cases h
  have hbody := orAnswer_eq_ok hbody
  have hkey := (Option.filter_eq_some_iff.mp (orAnswer_eq_ok hkey)).2
  have hrelay := (Option.filter_eq_some_iff.mp (orAnswer_eq_ok hrelay)).2
  have hfields := check_eq_ok hfields
  obtain ⟨htext, hlong⟩ := Option.filter_eq_some_iff.mp (orAnswer_eq_ok hendpoint)
  have hp256dh := (Option.filter_eq_some_iff.mp (orAnswer_eq_ok hp256dh)).2
  have hauth := (Option.filter_eq_some_iff.mp (orAnswer_eq_ok hauth)).2
  have hverify := check_eq_ok hverify
  have hlisteners := check_eq_ok hlisteners
  have hrows := check_eq_ok hrows
  simp only [Bool.and_eq_true, text_eq_some.mp htext, Option.any_some] at hfields
  refine ⟨⟨hkey, hrelay, hfields.2, of_decide_eq_true hlong, of_decide_eq_true hp256dh, of_decide_eq_true hauth⟩,
    rfl, fun hrequire => ?_, ?_, ?_⟩
  · rw [hrequire, Bool.not_true, Bool.false_or] at hverify
    obtain ⟨ev, p, hev, hp, hproves, hregister⟩ := proves_of_verify hverify
    cases hp
    obtain ⟨e, he, htag⟩ := hregister rfl
    cases he
    exact ⟨b, ev, hbody, hev, hproves, htag⟩
  · rwa [Bool.or_eq_true, List.contains_iff_mem, decide_eq_true_eq] at hlisteners
  · rw [Bool.or_eq_true, List.any_eq_true, decide_eq_true_eq] at hrows
    refine hrows.imp_left ?_
    rintro ⟨x, hx, heq⟩
    exact ⟨x, hx, of_decide_eq_true heq⟩

/-- A removal that is let in was asked for by the row's owner. -/
theorem admitRemoval_ok {body : Option Json} {key : Chars × Chars} (h : admitRemoval pf cfg nowSec body = .ok key)
    (hrequire : cfg.requirePushAuth = true) :
    ∃ b ev relayUrl, body = some b ∧ b.get "auth" = some ev ∧ Proves pf ev key.1 .unregister relayUrl nowSec ∧
      sqlText pf relayUrl = some key.2 := by
  unfold admitRemoval at h
  obtain ⟨b, hbody, h⟩ := bind_eq_ok h
  dsimp only at h
  obtain ⟨walletPubkey, -, h⟩ := bind_eq_ok h
  obtain ⟨relayUrl, -, h⟩ := bind_eq_ok h
  obtain ⟨_, hverify, h⟩ := bind_eq_ok h
  obtain ⟨p, hp, h⟩ := bind_eq_ok h
  obtain ⟨u, hu, h⟩ := bind_eq_ok h
  cases h
  have hverify := check_eq_ok hverify
  rw [hrequire, Bool.not_true, Bool.false_or] at hverify
  obtain ⟨ev, q, hev, hq, hproves, -⟩ := proves_of_verify hverify
  rw [hq] at hp
  cases orAnswer_eq_ok hp
  exact ⟨b, ev, relayUrl, orAnswer_eq_ok hbody, hev, hproves, orAnswer_eq_ok hu⟩

variable (pf cfg) in
/-- A listener is opened for a safe relay while there are fewer than the cap, and nothing else changes. -/
theorem ensureRelayListener_cases (relayUrl : Chars) (g : Gateway) :
    ensureRelayListener pf cfg relayUrl g = g ∨
      (relayUrl ∉ g.listeners ∧ isSafeRelayUrl pf relayUrl cfg.allowPrivateRelays = true ∧
        g.listeners.length < cfg.maxRelayListeners ∧
        ensureRelayListener pf cfg relayUrl g = { g with listeners := g.listeners ++ [relayUrl] }) := by
  unfold ensureRelayListener
  split
  · exact .inl rfl
  rename_i hnew
  split
  · exact .inl rfl
  rename_i hsafe
  split
  · exact .inl rfl
  rename_i hroom
  rw [List.contains_iff_mem] at hnew
  rw [Bool.not_eq_true', Bool.not_eq_false] at hsafe
  exact .inr ⟨hnew, hsafe, Nat.lt_of_not_le hroom, rfl⟩

@[simp] theorem ensureRelayListener_rows (relayUrl : Chars) (g : Gateway) :
    (ensureRelayListener pf cfg relayUrl g).rows = g.rows := by
  rcases ensureRelayListener_cases pf cfg relayUrl g with h | ⟨-, -, -, h⟩ <;> rw [h]

@[simp] theorem ensureRelayListener_pushes (relayUrl : Chars) (g : Gateway) :
    (ensureRelayListener pf cfg relayUrl g).pushes = g.pushes := by
  rcases ensureRelayListener_cases pf cfg relayUrl g with h | ⟨-, -, -, h⟩ <;> rw [h]

variable (pf cfg) in
theorem foldl_ensure_rows (urls : List Chars) (g : Gateway) :
    (urls.foldl (fun g url => ensureRelayListener pf cfg url g) g).rows = g.rows ∧
      (urls.foldl (fun g url => ensureRelayListener pf cfg url g) g).pushes = g.pushes := by
  induction urls generalizing g with
  | nil => exact ⟨rfl, rfl⟩
  | cons url urls ih =>
    rw [List.foldl_cons, (ih _).1, (ih _).2, ensureRelayListener_rows, ensureRelayListener_pushes]
    exact ⟨rfl, rfl⟩

theorem start_rows (rows : List Row) : (start pf cfg rows).rows = rows ∧ (start pf cfg rows).pushes = [] := by
  have h := foldl_ensure_rows pf cfg (rows.map (·.relayUrl)).dedup { rows }
  unfold start
  dsimp only
  split
  · rw [ensureRelayListener_rows, ensureRelayListener_pushes, h.1, h.2]
    exact ⟨rfl, rfl⟩
  · exact h

end Requests

/-! ## Runs -/

section Runs

variable {pf : Platform} {cfg : GatewayConfig} {g : Gateway} {r : Row}

/-- A row after a request was there before, or the request brought it. -/
theorem mem_step_rows {a : Action} (h : r ∈ (step pf cfg g a).rows) :
    r ∈ g.rows ∨ ∃ nowSec body, a = .register nowSec r.createdAt body ∧
      Admitted pf cfg nowSec r.createdAt body g r := by
  cases a with
  | register nowSec createdAt body =>
    dsimp only [step] at h
    unfold register at h
    split at h
    · rename_i r' hadmit
      rw [ensureRelayListener_rows, insert, List.mem_append, List.mem_singleton] at h
      rcases h with h | rfl
      · exact .inl (List.mem_filter.mp h).1
      · have hadmitted := admission_ok hadmit
        obtain rfl := hadmitted.created
        exact .inr ⟨nowSec, body, rfl, hadmitted⟩
    · exact .inl h
  | unregister nowSec body =>
    dsimp only [step] at h
    unfold unregister at h
    split at h
    · exact .inl (List.mem_filter.mp h).1
    · exact .inl h
  | nwcEvent tags relayUrl =>
    dsimp only [step] at h
    unfold handleNwcEvent at h
    split at h
    · split at h <;> exact .inl h
    · exact .inl h
  | pushed k statusCode =>
    dsimp only [step] at h
    unfold pushed at h
    split at h
    · exact .inl h
    · dsimp only at h
      split at h
      · exact .inl (List.mem_filter.mp h).1
      · exact .inl h
  | restart =>
    dsimp only [step] at h
    rw [(start_rows g.rows).1] at h
    exact .inl h

/-- What may take a row away: a registration of its owner in its place, its owner, or the push service
that does not know its endpoint any more. -/
def Allows (pf : Platform) (g : Gateway) (r : Row) : Action → Prop
  | .register nowSec _ body => ∃ r', r'.key = r.key ∧ Granted pf nowSec body r'
  | .unregister nowSec body => ∃ b ev relayUrl, body = some b ∧ b.get "auth" = some ev ∧
      Proves pf ev r.walletPubkey .unregister relayUrl nowSec ∧ sqlText pf relayUrl = some r.relayUrl
  | .pushed k statusCode => (statusCode = some 410 ∨ statusCode = some 404) ∧
      ∃ push, g.pushes[k]? = some push ∧ push.key = r.key ∧ push.endpoint = r.endpoint
  | .nwcEvent _ _ | .restart => False

theorem allows_of_removed (hrequire : cfg.requirePushAuth = true) {a : Action} (hr : r ∈ g.rows)
    (h : r ∉ (step pf cfg g a).rows) : Allows pf g r a := by
  cases a with
  | register nowSec createdAt body =>
    dsimp only [step] at h
    unfold register at h
    split at h
    · rename_i r' hadmit
      rw [ensureRelayListener_rows, insert, List.mem_append, List.mem_filter, not_or, not_and] at h
      have hkey := of_not_not (mt decide_eq_true (h.1 hr))
      exact ⟨r', hkey.symm, (admission_ok hadmit).granted hrequire⟩
    · exact absurd hr h
  | unregister nowSec body =>
    dsimp only [step] at h
    unfold unregister at h
    split at h
    · rename_i key hadmit
      rw [List.mem_filter, not_and] at h
      have hkey := of_not_not (mt decide_eq_true (h hr))
      obtain ⟨b, ev, relayUrl, hbody, hev, hproves, hsql⟩ := admitRemoval_ok hadmit hrequire
      rw [← hkey] at hproves hsql
      exact ⟨b, ev, relayUrl, hbody, hev, hproves, hsql⟩
    · exact absurd hr h
  | nwcEvent tags relayUrl =>
    dsimp only [step] at h
    unfold handleNwcEvent at h
    split at h
    · split at h <;> exact absurd hr h
    · exact absurd hr h
  | pushed k statusCode =>
    dsimp only [step] at h
    unfold pushed at h
    split at h
    · exact absurd hr h
    · rename_i push hpush
      dsimp only at h
      split at h
      · rename_i hgone
        rw [List.mem_filter, not_and, Bool.not_eq_true', Bool.not_eq_false, Bool.and_eq_true, decide_eq_true_eq,
          decide_eq_true_eq] at h
        obtain ⟨hkey, hendpoint⟩ := h hr
        exact ⟨hgone, push, hpush, hkey.symm, hendpoint.symm⟩
      · exact absurd hr h
  | restart =>
    dsimp only [step] at h
    rw [(start_rows g.rows).1] at h
    exact absurd hr h

theorem run_snoc (as : List Action) (a : Action) : run pf cfg (as ++ [a]) = step pf cfg (run pf cfg as) a := by
  unfold run
  rw [List.foldl_append]
  rfl

/-- Whoever sends requests, and in whatever order: a wallet's pushes go where an event that the wallet
signed says, and only such an event or the push service takes a subscription away. -/
theorem subscriptions_authorised (hrequire : cfg.requirePushAuth = true) (as : List Action) :
    (∀ r ∈ (run pf cfg as).rows, ∃ nowSec body, Action.register nowSec r.createdAt body ∈ as ∧
      Granted pf nowSec body r) ∧
    ∀ a, ∀ r ∈ (run pf cfg as).rows, r ∉ (step pf cfg (run pf cfg as) a).rows → Allows pf (run pf cfg as) r a := by
  refine ⟨?_, fun a r hr h => allows_of_removed hrequire hr h⟩
  induction as using List.reverseRecOn with
  | nil =>
    intro r hr
    unfold run at hr
    rw [List.foldl_nil, (start_rows []).1] at hr
    exact absurd hr List.not_mem_nil
  | append_singleton as a ih =>
    intro r hr
    rw [run_snoc] at hr
    rcases mem_step_rows hr with hr | ⟨nowSec, body, rfl, hadmitted⟩
    · obtain ⟨nowSec, body, hmem, hgranted⟩ := ih r hr
      exact ⟨nowSec, body, List.mem_append_left _ hmem, hgranted⟩
    · exact ⟨nowSec, body, List.mem_append_right _ List.mem_cons_self, hadmitted.granted hrequire⟩

/-- What the gateway holds and whom it calls. -/
structure Bounded (pf : Platform) (cfg : GatewayConfig) (g : Gateway) : Prop where
  rows : g.rows.length ≤ cfg.maxSubscriptions
  keys : (g.rows.map Row.key).Nodup
  listeners : g.listeners.length ≤ cfg.maxRelayListeners
  once : g.listeners.Nodup
  relays : ∀ url ∈ g.listeners, isSafeRelayUrl pf url cfg.allowPrivateRelays = true
  valid : ∀ r ∈ g.rows ++ g.pushes, r.Valid pf cfg

theorem Bounded.ensure (h : Bounded pf cfg g) (relayUrl : Chars) :
    Bounded pf cfg (ensureRelayListener pf cfg relayUrl g) := by
  rcases ensureRelayListener_cases pf cfg relayUrl g with heq | ⟨hnew, hsafe, hroom, heq⟩
  · rwa [heq]
  · rw [heq]
    refine ⟨h.rows, h.keys, ?_, ?_, ?_, h.valid⟩
    · rw [List.length_append]
      exact hroom
    · exact List.nodup_append.mpr ⟨h.once, List.nodup_singleton _, fun x hx y hy => by
        rw [List.mem_singleton.mp hy]
        rintro rfl
        exact hnew hx⟩
    · intro url hurl
      rcases List.mem_append.mp hurl with hurl | hurl
      · exact h.relays url hurl
      · rw [List.mem_singleton.mp hurl]
        exact hsafe

/-- Fewer rows of those that there were. -/
theorem Bounded.sub (h : Bounded pf cfg g) {rows pushes : List Row} (hrows : rows.Sublist g.rows)
    (hpushes : ∀ r ∈ pushes, r ∈ g.rows ++ g.pushes) : Bounded pf cfg { g with rows, pushes } := by
  refine ⟨le_trans hrows.length_le h.rows, h.keys.sublist (hrows.map _), h.listeners, h.once, h.relays, ?_⟩
  intro r hr
  rcases List.mem_append.mp hr with hr | hr
  · exact h.valid r (List.mem_append_left _ (hrows.subset hr))
  · exact h.valid r (hpushes r hr)

theorem Bounded.insert (h : Bounded pf cfg g) {nowSec : ℤ} {createdAt : Nat} {body : Option Json}
    (hr : Admitted pf cfg nowSec createdAt body g r) : Bounded pf cfg (Http.insert r g) := by
  have hsub : (g.rows.filter fun x => decide (x.key ≠ r.key)).Sublist g.rows := List.filter_sublist
  refine ⟨?_, ?_, h.listeners, h.once, h.relays, ?_⟩
  · unfold Http.insert
    rw [List.length_append, List.length_singleton]
    rcases hr.rows with ⟨x, hx, hkey⟩ | hroom
    · have hlt : (g.rows.filter fun x => decide (x.key ≠ r.key)).length < g.rows.length := by
        refine List.length_filter_lt_length_iff_exists.mpr ⟨x, hx, ?_⟩
        rw [hkey, decide_eq_true_eq]
        exact fun hne => hne rfl
      exact le_trans hlt h.rows
    · exact le_trans (Nat.succ_le_succ hsub.length_le) hroom
  · unfold Http.insert
    rw [List.map_append]
    refine List.nodup_append.mpr ⟨h.keys.sublist (hsub.map _), List.nodup_singleton _, fun k hk k' hk' => ?_⟩
    obtain ⟨x, hx, rfl⟩ := List.mem_map.mp hk
    rw [List.mem_singleton.mp hk']
    exact of_decide_eq_true (List.mem_filter.mp hx).2
  · intro x hx
    unfold Http.insert at hx
    dsimp only at hx
    rw [List.mem_append, List.mem_append, List.mem_singleton] at hx
    rcases hx with (hx | rfl) | hx
    · exact h.valid x (List.mem_append_left _ (hsub.subset hx))
    · exact hr.valid
    · exact h.valid x (List.mem_append_right _ hx)

theorem Bounded.start {rows : List Row} (h : Bounded pf cfg { rows }) : Bounded pf cfg (start pf cfg rows) := by
  have hfold : ∀ (urls : List Chars) (g : Gateway), Bounded pf cfg g →
      Bounded pf cfg (urls.foldl (fun g url => ensureRelayListener pf cfg url g) g) := by
    intro urls
    induction urls with
    | nil => exact fun _ hg => hg
    | cons url urls ih => exact fun g hg => ih _ (hg.ensure url)
  unfold Http.start
  dsimp only
  split
  · exact (hfold _ _ h).ensure _
  · exact hfold _ _ h

theorem Bounded.step (h : Bounded pf cfg g) (a : Action) : Bounded pf cfg (step pf cfg g a) := by
  cases a with
  | register nowSec createdAt body =>
    dsimp only [Http.step]
    unfold register
    split
    · rename_i r hadmit
      exact (h.insert (admission_ok hadmit)).ensure _
    · exact h
  | unregister nowSec body =>
    dsimp only [Http.step]
    unfold unregister
    split
    · exact h.sub List.filter_sublist fun r hr => List.mem_append_right _ hr
    · exact h
  | nwcEvent tags relayUrl =>
    dsimp only [Http.step]
    unfold handleNwcEvent
    split
    · split
      · exact h
      · refine h.sub (List.Sublist.refl _) fun r hr => ?_
        rcases List.mem_append.mp hr with hr | hr
        · exact List.mem_append_right _ hr
        · exact List.mem_append_left _ (List.mem_filter.mp hr).1
    · exact h
  | pushed k statusCode =>
    dsimp only [Http.step]
    unfold pushed
    have hpushes : ∀ r ∈ g.pushes.eraseIdx k, r ∈ g.rows ++ g.pushes := fun r hr =>
      List.mem_append_right _ ((List.eraseIdx_sublist _ _).subset hr)
    split
    · exact h
    · dsimp only
      split
      · exact h.sub List.filter_sublist hpushes
      · exact h.sub (List.Sublist.refl _) hpushes
  | restart =>
    refine Bounded.start ⟨h.rows, h.keys, Nat.zero_le _, .nil, fun url hurl => absurd hurl List.not_mem_nil, ?_⟩
    intro r hr
    rw [List.append_nil] at hr
    exact h.valid r (List.mem_append_left _ hr)

end Runs

/-! ## One registration -/

section Sample

def samplePubkey : Chars := codes "e7156ae33b0a208d0744199163177e909e80176e55d97a2f221ede0f934dd9ad"
def sampleRelay : Chars := codes "wss://relay.example.com"
def sampleEndpoint : Chars := codes "https://push.example.com/abc"

def sampleSig : Chars := codes "d91acbf2489888c4f7b36fa9c2f8d847ae2d6fa075c044665d9600dba4668787c33ba5bed3d471ea344e49bb0a900c75ccca2f5d492c999b125fd1c29da9821d"

/-- By table, what the platform makes of the registration. -/
def samplePlatform : Platform where
  parseUrl t :=
    if t = sampleRelay then some ⟨codes "wss:", codes "relay.example.com"⟩
    else if t = sampleEndpoint then some ⟨codes "https:", codes "push.example.com"⟩ else none
  toText _ := none
  verifyEvent ev := Json.text (ev.get "sig") = some sampleSig
  toSql _ := none
  unicode := id

/-- The id and the signature are those of the registration. -/
def sampleFinalize (t : GatewayAuthEventTemplate) : Json :=
  .obj [(codes "kind", .num t.kind), (codes "created_at", .num t.created_at),
    (codes "tags", .arr (t.tags.map fun tag => .arr (tag.map .str))), (codes "content", .str t.content),
    (codes "pubkey", .str samplePubkey),
    (codes "id", .str (codes "4b81b782fb3901aefea130be0c79eb8eb5a4bd362616f9d49f49f42b388613f2")),
    (codes "sig", .str sampleSig)]

def sampleAuth : Json :=
  sampleFinalize (buildGatewayAuthTemplate .register sampleRelay (some sampleEndpoint) 1700000000)

def sampleBody : Json :=
  .obj [(codes "walletPubkey", .str samplePubkey), (codes "relayUrl", .str sampleRelay),
    (codes "subscription", .obj [(codes "endpoint", .str sampleEndpoint),
      (codes "keys", .obj [(codes "p256dh", .str (codes "BNc")), (codes "auth", .str (codes "tBH"))])]),
    (codes "auth", sampleAuth)]

def sampleRow : Row where
  walletPubkey := samplePubkey
  relayUrl := sampleRelay
  endpoint := sampleEndpoint
  p256dh := codes "BNc"
  auth := codes "tBH"
  createdAt := 1700000002000

theorem sampleFinalize_finalizes : Finalizes samplePlatform samplePubkey sampleFinalize where
  isObject _ := rfl
  kind _ := rfl
  created_at _ := rfl
  tags _ := rfl
  pubkey _ := rfl
  signed t := by
    have hsig : (sampleFinalize t).get "sig" = some (.str sampleSig) := rfl
    unfold samplePlatform
    dsimp only
    rw [hsig, Json.text]
    exact decide_eq_true rfl

theorem gateway_auth_binds_sample :
    verifyGatewayAuth samplePlatform (some sampleAuth) (.str samplePubkey) .register (.str sampleRelay)
      (some sampleEndpoint) 1700000002 = true :=
  (gateway_auth_binds sampleFinalize_finalizes .register sampleRelay (some sampleEndpoint) 1700000000 samplePubkey
    .register sampleRelay (some sampleEndpoint) 1700000002).mpr
    ⟨rfl, rfl, rfl, by decide, fun _ => ⟨sampleEndpoint, by decide, rfl, rfl⟩⟩

theorem subscriptions_authorised_sample :
    sampleRow ∈ (run samplePlatform {} [.register 1700000002 1700000002000 (some sampleBody)]).rows ∧
      ∃ nowSec body, Granted samplePlatform nowSec body sampleRow := by
  have hrows : (run samplePlatform {} [.register 1700000002 1700000002000 (some sampleBody)]).rows = [sampleRow] := by
    decide +kernel
  have hmem : sampleRow ∈ (run samplePlatform {} [.register 1700000002 1700000002000 (some sampleBody)]).rows := by
    rw [hrows]
    exact List.mem_cons_self
  have hrequire : ({} : GatewayConfig).requirePushAuth = true := rfl
  obtain ⟨nowSec, body, -, hgranted⟩ := (subscriptions_authorised hrequire _).1 sampleRow hmem
  exact ⟨hmem, nowSec, body, hgranted⟩

end Sample

end LibreWallet.PushGateway.Http
