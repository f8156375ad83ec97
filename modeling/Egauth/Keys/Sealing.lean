import Egauth.Core.Uuid
import Egauth.Data.Map
import Egauth.Semantics.Result
import Mathlib.Data.List.Infix

/-! Secrets that are sealed for one purpose, tenant and row.

AES-GCM and HKDF are given by what is assumed of them. A nonce is given to the
call that draws it, none when the random source fails.
-/

set_option autoImplicit false

namespace Egauth.Sealing
open Egauth.Core

inductive Kind where
  | totp
  | oauthClientSecret
  | signingKey
  | dataKey
  deriving DecidableEq, Repr

def Kind.name : Kind → Bytes
  | .totp => ascii "totp"
  | .oauthClientSecret => ascii "oauth-client-secret"
  | .signingKey => ascii "signing-key"
  | .dataKey => ascii "deployment"

inductive Cause where
  | invalidRef
  | aadRequired
  | invalidKey
  | malformed
  | unknownKey
  | openFailed
  | nonce
  | policy (why : String)
  | currentKey
  | previousKey (i : Nat)
  | duplicate (i : Nat)
  | sealing (k : Kind)
  | opening (k : Kind)
  deriving DecidableEq, Repr

abbrev Failure := List Cause

structure Ref where
  kind : Option Kind
  tenant : TenantID
  id : Bytes
  deriving DecidableEq

def maxIDLen : Nat := 256

def totpSecret (s : Subject) : Except Failure Ref :=
  if s.user = .nil then .error [.invalidRef] else .ok ⟨some .totp, s.tenant, s.user.string⟩

def checked (k : Kind) (t : TenantID) (id : Bytes) : Except Failure Ref :=
  if id = [] ∨ id.length > maxIDLen ∨ 0 ∈ id then .error [.invalidRef] else .ok ⟨some k, t, id⟩

def oauthClientSecret (t : TenantID) (provider : Bytes) : Except Failure Ref := checked .oauthClientSecret t provider

def signingKey (t : TenantID) (kid : Bytes) : Except Failure Ref := checked .signingKey t kid

def dataKey : Ref := ⟨some .dataKey, .zero, ascii "datakey"⟩

def Ref.aad (r : Ref) : Bytes :=
  match r.kind with
  | none => []
  | some k =>
    ascii "egauth/" ++ k.name ++ ascii "/v1" ++ 0 :: ((if k ≠ .dataKey then r.tenant.id ++ [0] else []) ++ r.id)

/-- The constructors are the only source of references. -/
inductive Ref.Built : Ref → Prop where
  | totp {s : Subject} {r : Ref} : totpSecret s = .ok r → Built r
  | oauth {t : TenantID} {provider : Bytes} {r : Ref} : oauthClientSecret t provider = .ok r → Built r
  | signing {t : TenantID} {kid : Bytes} {r : Ref} : signingKey t kid = .ok r → Built r
  | data : Built dataKey

def gcmNonceSize : Nat := 12

def gcmTagSize : Nat := 16

def maxKeyIDLen : Nat := 64

def keyLength : Nat := 32

def minDistinct : Nat := 8

def publishedKeys : List String :=
  ["replace-with-a-32-byte-minimum-secret-in-production!",
    "super-secret-32-byte-key-here!!!",
    "a-high-entropy-secret-kept-out-of-source-control",
    "super-secret-key-change-me-in-production",
    "a-32-byte-minimum-hs256-signing-secret!!",
    "very-secure-32-byte-secret-key!!",
    "kek-fixture-0123456789abcdefghij"]

/-- In hexadecimal. -/
def committedKeys : List String :=
  ["f09ac7b6cd027f80845be0a80d7e630f397dd301d4c883233d1eae95a02d1d57",
    "8721a837f508549ef011da2bcd23828d631c2b4f90cd28df3e45aef15344f330",
    "eae742403e28066311c48d555ae1c2657f15e5f1c7459aba87abe1c626389c0e",
    "130546ee34877be01b76a4fa208e33aa7bf535fedc51a11191b09e8b99618f20",
    "72bdc7164df1e5a5728f6779fef377eefdcd8563c3631557eadfbc134f1db230",
    "3751339ea50726222c92091f660d088033581afae80c89f3b6d448f49c8ac9f6",
    "29d431921b20436542c65645d4f13100d11d6491a5909b020a95ea54148635a8",
    "bbc9e5cdbdc21a35d4960524b4af0714b8839389f84ef1015345886054eb7a4b",
    "c3469082c7824464836825027036f4b02716fd8f0e762f6655a2e191a60b5bdf",
    "86642898dd030295e132b7f67980d945562bcd767cd50efc408ef12b8684f478",
    "4a425357593344504548504b335058504a425357593344504548504b33505850",
    "02507154933166867c21b0da53f65f95b8cdc9434a1b51a173f1a2a69a95968e",
    "1cab18f6c032b810ff7cfbd713b7889bdfd960a6889b09adb312627e96353aeb",
    "a3ed98077850c0aa0933937b797977a8efd606948a045fe22735232fd9884685",
    "f4c82ee01d7f60e407f586442870fe6d57f2347771f31cc5cec2d8007d76d39d"]

def publishedMarkers : List String := ["minimum-hs256-signing-secret"]

def distinctBytes (key : Bytes) : Nat := key.dedup.length

def published (key : Bytes) : Bool :=
  publishedKeys.any (ascii · = key) || publishedMarkers.any (ascii · <:+: key)

def checkLegacyKey (key : Bytes) : Except Failure Unit :=
  if key.length ≠ keyLength then .error [.policy "key must be exactly 32 bytes"]
  else if distinctBytes key < 2 then
    .error [.policy "key is trivially guessable (all-zero or a single repeated byte)"]
  else if published key then
    .error [.policy "key is a credential published in egauth's examples or docs; generate it with crypto/rand"]
  else .ok ()

def checkKey (key : Bytes) : Except Failure Unit := do
  checkLegacyKey key
  if distinctBytes key < minDistinct then
    .error [.policy "key is trivially guessable; generate it with crypto/rand"]
  else if committedKeys.any (ascii · = UUID.hex key) then
    .error [.policy "key is committed to egauth's public repository; generate it with crypto/rand"]
  else .ok ()

/-- The id and the subkey of a key, and AES-GCM: it opens what it sealed, and nothing else. -/
structure Library where
  keyID : Bytes → Bytes
  subKey : Bytes → Bytes
  gcmSeal : (key nonce pt ad : Bytes) → Bytes
  gcmOpen : (key nonce ct ad : Bytes) → Option Bytes
  length_keyID (key : Bytes) : (keyID key).length = 16
  length_seal (key nonce pt ad : Bytes) : gcmTagSize ≤ (gcmSeal key nonce pt ad).length
  opens {key nonce ct ad pt : Bytes} : gcmOpen key nonce ct ad = some pt ↔ ct = gcmSeal key nonce pt ad
  binds {key nonce pt pt' ad ad' : Bytes} : gcmSeal key nonce pt ad = gcmSeal key nonce pt' ad' → ad = ad'

structure LocalKey where
  id : Bytes
  sub : Bytes

structure Local where
  current : LocalKey
  byID : Map Bytes LocalKey

variable (lib : Library)

def localKey (key : Bytes) : LocalKey := ⟨lib.keyID key, lib.subKey key⟩

def newLocalKey (key : Bytes) : Except Failure LocalKey := do
  checkKey key
  .ok (localKey lib key)

/-- The loop of `NewLocal` over the previous keys. -/
def addKeys : Nat → Map Bytes LocalKey → List Bytes → Except Failure (Map Bytes LocalKey)
  | _, byID, [] => .ok byID
  | i, byID, raw :: rest => do
    let k ← (newLocalKey lib raw).mapError ([.invalidKey, .previousKey i] ++ ·)
    if (byID.lookup k.id).isSome then .error [.invalidKey, .duplicate i] else addKeys (i + 1) (byID.insert k.id k) rest

def newLocal (current : Bytes) (previous : List Bytes) : Except Failure Local := do
  let cur ← (newLocalKey lib current).mapError ([.invalidKey, .currentKey] ++ ·)
  let byID ← addKeys lib 0 ((∅ : Map Bytes LocalKey).insert cur.id cur) previous
  .ok ⟨cur, byID⟩

def parseHeader : Bytes → Except Failure (Bytes × Nat)
  | 1 :: n :: rest =>
    if n = 0 ∨ n.toNat > maxKeyIDLen ∨ rest.length < n.toNat then .error [.malformed]
    else .ok (rest.take n.toNat, 2 + n.toNat)
  | _ => .error [.malformed]

def keyIDOf (ct : Bytes) : Except Failure Bytes := (parseHeader ct).map Prod.fst

namespace Local

def header (l : Local) : Bytes := 1 :: l.current.id.length.toUInt8 :: l.current.id

def sealBytes (l : Local) (nonce : Option Bytes) (pt aad : Bytes) : Except Failure Bytes :=
  if aad = [] then .error [.aadRequired]
  else
    match nonce with
    | none => .error [.nonce]
    | some nonce => .ok (l.header ++ (nonce ++ lib.gcmSeal l.current.sub nonce pt (l.header ++ aad)))

def openBytes (l : Local) (ct aad : Bytes) : Except Failure Bytes :=
  if aad = [] then .error [.aadRequired]
  else do
    let (id, headerLen) ← parseHeader ct
    match l.byID.lookup id with
    | none => .error [.unknownKey]
    | some k =>
      let body := ct.drop headerLen
      if body.length < gcmNonceSize + gcmTagSize then .error [.malformed]
      else
        match lib.gcmOpen k.sub (body.take gcmNonceSize) (body.drop gcmNonceSize) (ct.take headerLen ++ aad) with
        | none => .error [.openFailed]
        | some pt => .ok pt

end Local

structure Opened where
  plaintext : Bytes
  stale : Bool
  deriving DecidableEq

def sealSecret (l : Local) (r : Ref) (nonce : Option Bytes) (pt : Bytes) : Except Failure Bytes :=
  match r.kind with
  | none => .error [.invalidRef]
  | some k => (l.sealBytes lib nonce pt r.aad).mapError (.sealing k :: ·)

def openSecret (l : Local) (r : Ref) (ct : Bytes) : Except Failure Opened :=
  match r.kind with
  | none => .error [.invalidRef]
  | some k =>
    Except.mapError (.opening k :: ·) do
      let pt ← l.openBytes lib ct r.aad
      let id ← keyIDOf ct
      .ok ⟨pt, id ≠ l.current.id⟩

/-- What the associated data is made of. -/
theorem Ref.Built.parts {r : Ref} (built : r.Built) : ∃ k, r.kind = some k ∧ 0 ∉ r.id ∧
    (k = .dataKey → r = dataKey) := by
  have of_checked {k : Kind} {t : TenantID} {id : Bytes} (other : k ≠ .dataKey) (ok : checked k t id = .ok r) :
      ∃ k, r.kind = some k ∧ 0 ∉ r.id ∧ (k = .dataKey → r = dataKey) := by
    obtain ⟨fine, same⟩ := ite_error_eq_ok.mp ok
    cases same
    exact ⟨k, rfl, fun zero => fine (.inr (.inr zero)), fun same => absurd same other⟩
  cases built with
  | totp ok =>
    obtain ⟨-, same⟩ := ite_error_eq_ok.mp ok
    cases same
    exact ⟨.totp, rfl, fun zero => absurd (UUID.string_ascii _ 0 zero).1 (by decide), nofun⟩
  | oauth ok => exact of_checked (by decide : Kind.oauthClientSecret ≠ .dataKey) ok
  | signing ok => exact of_checked (by decide : Kind.signingKey ≠ .dataKey) ok
  | data => exact ⟨.dataKey, rfl, by decide +kernel, fun _ => rfl⟩

theorem tenant_plain (t : TenantID) : 0 ∉ t.id := by
  intro zero
  rcases t.parsed with empty | accepted
  · simp [empty] at zero
  · simp only [checkTenant] at accepted
    split_ifs at accepted with _ bytes
    exact absurd (List.all_eq_true.mp bytes 0 zero) (by decide)

/-- The parts between the zero bytes. -/
theorem splitOn_aad {r : Ref} {k : Kind} (kind : r.kind = some k) (plain : 0 ∉ r.id) :
    r.aad.splitOn 0 = (ascii "egauth/" ++ k.name ++ ascii "/v1") ::
      (if k ≠ .dataKey then [r.tenant.id, r.id] else [r.id]) := by
  have head : 0 ∉ ascii "egauth/" ++ k.name ++ ascii "/v1" := by cases k <;> decide +kernel
  simp only [Ref.aad, kind]
  rw [List.splitOn_append_cons_self_of_not_mem head]
  split
  · have tail : r.tenant.id ++ [0] ++ r.id = r.tenant.id ++ 0 :: r.id := by simp
    rw [tail, List.splitOn_append_cons_self_of_not_mem (tenant_plain _), List.splitOn_eq_singleton plain]
  · rw [List.nil_append, List.splitOn_eq_singleton plain]

theorem Ref.Built.aad_ne_nil {r : Ref} (built : r.Built) : r.aad ≠ [] := by
  obtain ⟨k, kind, -⟩ := built.parts
  simp [Ref.aad, kind]

theorem aad_injective {r r' : Ref} (built : r.Built) (built' : r'.Built) (same : r.aad = r'.aad) : r = r' := by
  obtain ⟨k, kind, plain, data⟩ := built.parts
  obtain ⟨k', kind', plain', data'⟩ := built'.parts
  have parts := congrArg (List.splitOn 0) same
  rw [splitOn_aad kind plain, splitOn_aad kind' plain', List.cons.injEq] at parts
  have names : ∀ k k' : Kind, ascii "egauth/" ++ k.name ++ ascii "/v1" = ascii "egauth/" ++ k'.name ++ ascii "/v1" →
      k = k' := by
    intro k k'
    cases k <;> cases k' <;> decide +kernel
  obtain rfl := names k k' parts.1
  by_cases deployment : k = .dataKey
  · rw [data deployment, data' deployment]
  · obtain ⟨_, tenant, id⟩ := r
    obtain ⟨_, tenant', id'⟩ := r'
    rw [if_pos deployment, if_pos deployment] at parts
    simp only [List.cons.injEq, and_true] at parts
    have tenants : tenant = tenant' := by
      cases tenant
      cases tenant'
      simpa using parts.2.1
    simp only [Ref.mk.injEq]
    exact ⟨kind.trans kind'.symm, tenants, parts.2.2⟩

section
variable {lib} {current : Bytes} {previous : List Bytes} {l : Local}

theorem newLocalKey_ok {raw : Bytes} {k : LocalKey} {wrap : Failure → Failure}
    (ok : (newLocalKey lib raw).mapError wrap = .ok k) : k = localKey lib raw := by
  obtain ⟨_, -, made⟩ := bind_eq_ok.mp (mapError_eq_ok.mp ok)
  exact (Except.ok.inj made).symm

theorem addKeys_ok {i : Nat} {byID out : Map Bytes LocalKey} {raws : List Bytes} (ok : addKeys lib i byID raws = .ok out)
    (id : Bytes) (k : LocalKey) : out.lookup id = some k ↔
      byID.lookup id = some k ∨ ∃ raw ∈ raws, id = lib.keyID raw ∧ k = localKey lib raw := by
  induction raws generalizing i byID with
  | nil =>
    cases ok
    simp
  | cons raw raws ih =>
    rw [addKeys] at ok
    obtain ⟨_, made, ok⟩ := bind_eq_ok.mp ok
    obtain rfl := newLocalKey_ok made
    obtain ⟨free, ok⟩ := ite_error_eq_ok.mp ok
    have unknown : byID.lookup (lib.keyID raw) = none := by simpa [localKey] using free
    rw [ih ok, Map.lookup_insert_eq, List.exists_mem_cons_iff, ← or_assoc]
    refine or_congr_left ?_
    split
    next same =>
      obtain rfl : id = lib.keyID raw := same
      simp [unknown, eq_comm]
    next other => simp [show id ≠ lib.keyID raw from other]

theorem newLocal_ok (ok : newLocal lib current previous = .ok l) : l.current = localKey lib current ∧
    ∀ id k, l.byID.lookup id = some k ↔ ∃ raw ∈ current :: previous, id = lib.keyID raw ∧ k = localKey lib raw := by
  obtain ⟨_, made, ok⟩ := bind_eq_ok.mp ok
  obtain rfl := newLocalKey_ok made
  obtain ⟨byID, added, same⟩ := bind_eq_ok.mp ok
  cases same
  refine ⟨rfl, fun id k => ?_⟩
  rw [addKeys_ok added, Map.lookup_insert_eq, List.exists_mem_cons_iff]
  refine or_congr_left ?_
  split
  next same =>
    obtain rfl : id = lib.keyID current := same
    simp [eq_comm]
  next other => simp [show id ≠ lib.keyID current from other]

/-- The keys of a KEK are known by their ids. -/
theorem lookup_keyID (ok : newLocal lib current previous = .ok l) {raw : Bytes}
    (distinct : ∀ other ∈ current :: previous, lib.keyID other = lib.keyID raw → other = raw) :
    l.byID.lookup (lib.keyID raw) = if raw ∈ current :: previous then some (localKey lib raw) else none := by
  split
  next held => exact ((newLocal_ok ok).2 _ _).mpr ⟨raw, held, rfl, rfl⟩
  next foreign =>
    refine Option.eq_none_iff_forall_ne_some.mpr fun k found => ?_
    obtain ⟨other, held, same, -⟩ := ((newLocal_ok ok).2 _ _).mp found
    exact foreign (distinct other held same.symm ▸ held)

def headerOf (lib : Library) (raw : Bytes) : Bytes := 1 :: 16 :: lib.keyID raw

theorem parseHeader_sealed (raw rest : Bytes) : parseHeader (headerOf lib raw ++ rest) = .ok (lib.keyID raw, 18) := by
  have size := lib.length_keyID raw
  have room : ¬ ((16 : UInt8) = 0 ∨ (16 : UInt8).toNat > maxKeyIDLen ∨ (lib.keyID raw ++ rest).length < (16 : UInt8).toNat) := by
    simp [maxKeyIDLen, size]
  have front : (lib.keyID raw ++ rest).take 16 = lib.keyID raw := List.take_left' size
  simp only [headerOf, List.cons_append, parseHeader, if_neg room]
  simp [front]

theorem gcmOpen_gcmSeal (lib : Library) (key nonce pt pt' ad ad' : Bytes) :
    lib.gcmOpen key nonce (lib.gcmSeal key nonce pt ad) ad' = some pt' ↔ ad' = ad ∧ pt' = pt := by
  constructor
  · intro opened
    obtain rfl := lib.binds (lib.opens.mp opened)
    rw [lib.opens.mpr rfl] at opened
    exact ⟨rfl, (Option.some.inj opened).symm⟩
  · rintro ⟨rfl, rfl⟩
    exact lib.opens.mpr rfl

/-- A ciphertext opens with the key that it names, if that is held, for the associated data it was sealed with. -/
theorem openBytes_sealed (ok : newLocal lib current previous = .ok l) {raw nonce : Bytes}
    (distinct : ∀ other ∈ current :: previous, lib.keyID other = lib.keyID raw → other = raw)
    (size : nonce.length = gcmNonceSize) (pt aad : Bytes) {aad' : Bytes} (given : aad' ≠ []) (pt' : Bytes) :
    l.openBytes lib (headerOf lib raw ++ (nonce ++ lib.gcmSeal (lib.subKey raw) nonce pt (headerOf lib raw ++ aad)))
      aad' = .ok pt' ↔ raw ∈ current :: previous ∧ aad' = aad ∧ pt' = pt := by
  have header : (headerOf lib raw).length = 18 := by simp [headerOf, lib.length_keyID]
  have enough : ¬ (nonce ++ lib.gcmSeal (lib.subKey raw) nonce pt (headerOf lib raw ++ aad)).length <
      gcmNonceSize + gcmTagSize := by
    have tag := lib.length_seal (lib.subKey raw) nonce pt (headerOf lib raw ++ aad)
    rw [List.length_append]
    omega
  have opened (ad : Bytes) := gcmOpen_gcmSeal lib (lib.subKey raw) nonce pt pt' (headerOf lib raw ++ aad) ad
  rw [Local.openBytes, if_neg given, parseHeader_sealed]
  simp only [bind, Except.bind, lookup_keyID ok distinct]
  by_cases held : raw ∈ current :: previous
  · simp only [if_pos held, List.drop_left' header, List.take_left' header, if_neg enough, List.take_left' size,
      List.drop_left' size, localKey]
    rw [and_iff_right held, ← List.append_cancel_left_eq (headerOf lib raw), ← opened]
    split
    next failed => simp [failed]
    next read => simp [read]
  · simp [held]

theorem openBytes_ok {ct aad pt : Bytes} (opened : l.openBytes lib ct aad = .ok pt) :
    ∃ id n k, parseHeader ct = .ok (id, n) ∧ l.byID.lookup id = some k ∧
      lib.gcmOpen k.sub ((ct.drop n).take gcmNonceSize) ((ct.drop n).drop gcmNonceSize) (ct.take n ++ aad) = some pt := by
  obtain ⟨-, opened⟩ := ite_error_eq_ok.mp opened
  obtain ⟨⟨id, n⟩, parsed, opened⟩ := bind_eq_ok.mp opened
  dsimp only at opened
  split at opened
  · cases opened
  next k found =>
    obtain ⟨-, opened⟩ := ite_error_eq_ok.mp opened
    split at opened
    · cases opened
    next pt' read =>
      cases opened
      exact ⟨id, n, k, parsed, found, read⟩

end

/-- A sealed secret opens as itself with a KEK that holds its key, and as nothing else; the key that opens a
ciphertext is the one that it names. -/
theorem sealed_opens_as_itself (lib : Library) {current current' : Bytes} {previous previous' : List Bytes}
    {l l' : Local} (ok : newLocal lib current previous = .ok l) (ok' : newLocal lib current' previous' = .ok l')
    (distinct : ∀ raw ∈ current' :: previous', lib.keyID raw = lib.keyID current → raw = current)
    {r r' : Ref} (built : r.Built) (built' : r'.Built) {nonce : Bytes} (size : nonce.length = gcmNonceSize) (pt : Bytes) :
    (∃ ct, sealSecret lib l r (some nonce) pt = .ok ct ∧
      (r' = r ∧ current ∈ current' :: previous' → openSecret lib l' r' ct = .ok ⟨pt, current ≠ current'⟩) ∧
      (¬ (r' = r ∧ current ∈ current' :: previous') → ∀ opened, openSecret lib l' r' ct ≠ .ok opened)) ∧
    ∀ ct aad pt, l'.openBytes lib ct aad = .ok pt → ∃ raw ∈ current' :: previous', keyIDOf ct = .ok (lib.keyID raw) ∧
      ∃ n, lib.gcmOpen (lib.subKey raw) ((ct.drop n).take gcmNonceSize) ((ct.drop n).drop gcmNonceSize)
        (ct.take n ++ aad) = some pt := by
  constructor
  · obtain ⟨k, kind, -⟩ := built.parts
    obtain ⟨k', kind', -⟩ := built'.parts
    obtain ⟨key, -⟩ := newLocal_ok ok
    obtain ⟨key', -⟩ := newLocal_ok ok'
    have header : l.header = headerOf lib current := by
      simp [Local.header, headerOf, key, localKey, lib.length_keyID]
    refine ⟨headerOf lib current ++ (nonce ++ lib.gcmSeal (lib.subKey current) nonce pt (headerOf lib current ++ r.aad)),
      ?_, ?_, ?_⟩
    · simp only [sealSecret, kind, Local.sealBytes, if_neg built.aad_ne_nil, header, key]
      rfl
    · rintro ⟨rfl, held⟩
      have opened := (openBytes_sealed ok' distinct size pt r'.aad built.aad_ne_nil pt).mpr ⟨held, rfl, rfl⟩
      have stale : lib.keyID current = l'.current.id ↔ current = current' := by
        rw [key']
        exact ⟨fun same => (distinct current' (by simp) same.symm).symm, congrArg _⟩
      simp only [openSecret, kind, opened, keyIDOf, parseHeader_sealed]
      simp [bind, Except.bind, Except.map, Except.mapError, stale]
    · intro other opened success
      refine other ?_
      simp only [openSecret, kind'] at success
      obtain ⟨pt', opens, -⟩ := bind_eq_ok.mp (mapError_eq_ok.mp success)
      obtain ⟨held, same, -⟩ := (openBytes_sealed ok' distinct size pt r.aad built'.aad_ne_nil pt').mp opens
      exact ⟨aad_injective built' built same, held⟩
  · intro ct aad pt opened
    obtain ⟨id, n, key, parsed, found, read⟩ := openBytes_ok opened
    obtain ⟨raw, held, rfl, rfl⟩ := ((newLocal_ok ok').2 id key).mp found
    exact ⟨raw, held, by simp [keyIDOf, parsed, Except.map], n, read⟩

/-- The associated data, with each byte marked, before the plaintext. -/
def plainBox (ad pt : Bytes) : Bytes := List.replicate 16 0 ++ ad.flatMap ([1, ·]) ++ [0] ++ pt

theorem plainBox_binds {ad ad' pt pt' : Bytes} (same : plainBox ad pt = plainBox ad' pt') : ad = ad' ∧ pt = pt' := by
  simp only [plainBox, List.append_assoc, List.append_cancel_left_eq] at same
  induction ad generalizing ad' with
  | nil =>
    cases ad' with
    | nil => simpa using same
    | cons c ad' => simp at same
  | cons c ad ih =>
    cases ad' with
    | nil => simp at same
    | cons c' ad' =>
      simp only [List.flatMap_cons, List.cons_append, List.nil_append, List.cons.injEq, true_and] at same
      obtain ⟨rfl, rfl⟩ := ih same.2
      exact ⟨by rw [same.1], rfl⟩

def plainLibrary : Library where
  keyID key := (key ++ List.replicate 16 0).take 16
  subKey key := key
  gcmSeal _ _ pt ad := plainBox ad pt
  gcmOpen _ _ ct ad := (plainBox ad []).isPrefixOf? ct
  length_keyID key := by simp
  length_seal key nonce pt ad := by simp [plainBox, gcmTagSize]
  opens {key nonce ct ad pt} := by
    rw [List.isPrefixOf?_eq_some_iff_append_eq, eq_comm, plainBox, List.append_nil, plainBox]
  binds same := (plainBox_binds same).1

def sampleKey (n : Nat) : Bytes := (List.range keyLength).map fun i => (i + n).toUInt8

theorem checkKey_sampleKey : checkKey (sampleKey 1) = .ok () ∧ checkKey (sampleKey 2) = .ok () := by decide +kernel

theorem sealed_opens_as_itself_rotated : ∃ l l' ct, newLocal plainLibrary (sampleKey 1) [] = .ok l ∧
    newLocal plainLibrary (sampleKey 2) [sampleKey 1] = .ok l' ∧
      sealSecret plainLibrary l dataKey (some (List.replicate 12 0)) [7] = .ok ct ∧
      openSecret plainLibrary l' dataKey ct = .ok ⟨[7], true⟩ := by
  obtain ⟨old, new⟩ := checkKey_sampleKey
  have first : ∃ l, newLocal plainLibrary (sampleKey 1) [] = .ok l := by
    rw [newLocal, newLocalKey, old]
    exact ⟨_, rfl⟩
  have second : ∃ l, newLocal plainLibrary (sampleKey 2) [sampleKey 1] = .ok l := by
    rw [newLocal, newLocalKey, new]
    simp only [addKeys, newLocalKey, old]
    exact ⟨_, rfl⟩
  obtain ⟨l, first⟩ := first
  obtain ⟨l', second⟩ := second
  obtain ⟨⟨ct, stored, opened, -⟩, -⟩ := sealed_opens_as_itself plainLibrary first second (by decide +kernel) .data .data
    (rfl : List.length (List.replicate 12 0 : Bytes) = 12) [7]
  exact ⟨l, l', ct, first, second, stored, opened (by decide +kernel)⟩

end Egauth.Sealing
