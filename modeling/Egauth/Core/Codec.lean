import Egauth.Core.Session
import Egauth.Data.Wire

/-! Codec v1: the sealed form of session attributes and of a Pending.

A version byte and a type tag, then length-prefixed fields in a fixed order.
The decoder of the source keeps its first error and reads zero values after it;
here it stops, which leaves the same result. Only a time can make the encoder
fail, so the encoder of a time is the only one that returns an error.
-/

set_option autoImplicit false

namespace Egauth.Core

def maxSealedLen : Nat := 16 * 1024

def tagAttrs : UInt8 := 65
def tagPending : UInt8 := 80

def unixEpoch : Time := 62135596800 * Duration.second

def minUnixNano : Time := unixEpoch - 2 ^ 63
def maxUnixNano : Time := unixEpoch + 2 ^ 63 - 1

def unixNano (t : Time) : Int64 := Int64.ofInt (t - unixEpoch)

/-- The number of a transport; an undeclared one is refused before it is sealed. -/
def transportByte : Option Transport → UInt8
  | some .cookies => 1
  | some .bearer => 2
  | none => 0

def transportOf (b : UInt8) : Option Transport :=
  if b = 1 then some .cookies else if b = 2 then some .bearer else none

namespace Encoder

def count (n : Nat) : Bytes := Wire.appendUvarint n

def bytes (p : Bytes) : Bytes := count p.length ++ p

def u64 (v : UInt64) : Bytes := bytes (Wire.bigEndian 8 v.toNat)

def bool (v : Bool) : Bytes := bytes [if v then 1 else 0]

def uuid (u : UUID) : Bytes := bytes u.bytes

def time (t : Time) : Except Err Bytes :=
  if t = 0 then .ok (bytes [])
  else if t < minUnixNano ∨ maxUnixNano < t then .error (.join .malformed (.text "time out of codec range"))
  else .ok (u64 (unixNano t).toUInt64)

def subjectTenant (t : TenantID) (user : UUID) : Bytes := bytes t.id ++ uuid user

def factors (fs : List Factor) : Bytes := count fs.length ++ fs.flatMap fun f => bytes f.code

def transport (t : Option Transport) : Bytes := bytes [transportByte t]

def credentialUse (u : CredentialUse) : Bytes := bytes u.factor.code ++ bytes u.id

def attrs (a : SessionAttrs) : Except Err Bytes := do
  let primaryAt ← time a.primaryAt
  let secondAt ← time a.secondAt
  let createdAt ← time a.createdAt
  let claimsFetchedAt ← time a.claimsFetchedAt
  pure (uuid a.lineage ++ (subjectTenant a.subject.tenant a.subject.user ++ (factors a.factors ++
    (count a.credentialIDs.length ++ (a.credentialIDs.flatMap credentialUse ++
    (primaryAt ++ (secondAt ++ (u64 a.epoch ++ (bool a.mustChange ++ (bool a.remember ++ (bytes a.returnTo ++
    (transport a.transport ++ (bytes a.provider ++ (createdAt ++ claimsFetchedAt))))))))))))))

def verified (v : Verified) : Except Err Bytes := do
  let verifiedAt ← time v.verifiedAt
  pure (factors v.factors ++ (bytes v.credentialID ++ (bool v.identifies ++ (bytes v.provider ++ verifiedAt))))

def pending (p : Pending) : Except Err Bytes := do
  let verified ← p.verified.mapM verified
  let expiresAt ← time p.expiresAt
  pure (subjectTenant p.tenant p.subject.user ++ (u64 p.epochAtBind ++
    (count p.verified.length ++ (verified.flatten ++ (bool p.remember ++ (bytes p.returnTo ++
    (transport p.transport ++ (bytes p.provider ++ (uuid p.reauthOf ++ (bytes p.bindHash ++ expiresAt))))))))))

/-- `newEncoder` and `finish` around the fields. -/
def finish (tag : UInt8) (fields : Bytes) : Except Err Sealed :=
  let b := [codecVersion, tag] ++ fields
  if b.length > maxSealedLen then .error (.join .malformed (.text "sealed value too large"))
  else .ok ⟨b⟩

end Encoder

namespace Decoder
open Wire (Reader)

def fail {A : Type} (msg : String) : Reader Err A := Reader.fail (.join .malformed (.text msg))

def count : Reader Err Nat := fun b =>
  match Wire.uvarint b with
  | none => fail "bad length" b
  | some (n, rest) => if n > rest.length then fail "bad length" b else .ok (n, rest)

/-- The next bytes of the input; `count` has checked that they are there. -/
def take (n : Nat) : Reader Err Bytes := fun b => .ok (b.take n, b.drop n)

def bytes : Reader Err Bytes := count >>= take

def fixed (size : Nat) : Reader Err Bytes := do
  let p ← bytes
  if p.length ≠ size then fail "bad fixed field size" else pure p

def u64 : Reader Err UInt64 := do
  let p ← fixed 8
  pure (UInt64.ofNat (Wire.ofBigEndian p))

def bool : Reader Err Bool := do
  let p ← fixed 1
  if p.headD 0 > 1 then fail "bad bool" else pure (p.headD 0 == 1)

def uuid : Reader Err UUID := do
  let p ← bytes
  if size : p.length = 16 then pure ⟨p, size⟩ else fail "bad fixed field size"

def time : Reader Err Time := do
  let p ← bytes
  if p = [] then pure 0
  else if p.length ≠ 8 then fail "bad time"
  else pure (unixEpoch + (UInt64.ofNat (Wire.ofBigEndian p)).toInt64.toInt)

def transport : Reader Err (Option Transport) := do
  let p ← fixed 1
  pure (transportOf (p.headD 0))

def subject : Reader Err Subject := do
  let raw ← bytes
  let user ← uuid
  if raw = [] then pure ⟨.zero, user⟩
  else match parseTenantID raw with
    | .ok t => pure ⟨t, user⟩
    | .error _ => fail "bad tenant"

def factor : Reader Err Factor := do
  let code ← bytes
  match factorByCode code with
  | .ok f => pure f
  | .error _ => fail "unknown factor"

/-- The loop of `factors`, which refuses a code that is not above the one before it. -/
def factorsLoop : Nat → List Factor → Reader Err (List Factor)
  | 0, out => pure out
  | n + 1, out => do
    let f ← factor
    if out.getLast?.any fun last => f.code ≤ last.code then fail "factors not in canonical order"
    else factorsLoop n (out ++ [f])

def factors : Reader Err (List Factor) := do
  let n ← count
  factorsLoop n []

def credentialUse : Reader Err CredentialUse := do
  let f ← factor
  let id ← bytes
  pure ⟨f, id⟩

def attrs : Reader Err SessionAttrs := do
  let lineage ← uuid
  let subject ← subject
  let factors ← factors
  let n ← count
  let credentialIDs ← Reader.many credentialUse n
  let primaryAt ← time
  let secondAt ← time
  let epoch ← u64
  let mustChange ← bool
  let remember ← bool
  let returnTo ← bytes
  let transport ← transport
  let provider ← bytes
  let createdAt ← time
  let claimsFetchedAt ← time
  pure ⟨codecVersion, lineage, subject, factors, credentialIDs, primaryAt, secondAt, epoch, mustChange, remember,
    returnTo, transport, provider, createdAt, claimsFetchedAt⟩

/-- The subject of a verification is not stored; it is the subject of the Pending. -/
def verified (subject : Subject) : Reader Err Verified := do
  let factors ← factors
  let credentialID ← bytes
  let identifies ← bool
  let provider ← bytes
  let verifiedAt ← time
  pure ⟨subject, factors, credentialID, identifies, provider, verifiedAt⟩

def pending : Reader Err Pending := do
  let bound ← subject
  let subject := if bound.isZero then .zero else bound
  let epochAtBind ← u64
  let n ← count
  let verified ← Reader.many (verified subject) n
  let remember ← bool
  let returnTo ← bytes
  let transport ← transport
  let provider ← bytes
  let reauthOf ← uuid
  let bindHash ← bytes
  let expiresAt ← time
  pure ⟨codecVersion, bound.tenant, subject, epochAtBind, verified, remember, returnTo, transport, provider,
    reauthOf, bindHash, expiresAt⟩

def done : Reader Err Unit := fun b =>
  if b ≠ [] then fail "trailing bytes" b else .ok ((), b)

/-- `newDecoder`: the fields after the version and the tag. -/
def new (b : Bytes) (tag : UInt8) : Except Err Bytes :=
  if b.length < 2 ∨ b.length > maxSealedLen then .error (.join .malformed (.text "length"))
  else if b.headD 0 ≠ codecVersion then .error (.join .malformed (.text "unsupported version"))
  else if b.tail.headD 0 ≠ tag then .error (.join .malformed (.text "wrong type tag"))
  else .ok (b.drop 2)

def whole {A : Type} (fields : Reader Err A) (b : Bytes) : Except Err A := do
  let (a, rest) ← fields b
  let _ ← done rest
  pure a

end Decoder

def checkAttrs (a : SessionAttrs) : Option Err :=
  if a.lineage = .nil ∨ a.subject.isZero ∨ hasRole a.factors .primary = false ∨ a.transport = none then
    some (.text "invalid attributes")
  else if ∃ u ∈ a.credentialIDs,
      (u.factor ≠ .passkey ∧ u.factor ≠ .passkeyStepUp) ∨ u.id = [] ∨ u.factor ∉ a.factors then
    some (.text "invalid credential use")
  else none

def checkVerified (v : Verified) : Option Err :=
  if v.verifiedAt = 0 then some (.text "invalid verified")
  else (checkVerifiedShape v.factors v.credentialID v.identifies v.provider).map (.join (.text "invalid verified"))

def checkPending (p : Pending) : Option Err :=
  if p.transport = none ∨ p.expiresAt = 0 ∨ (p.verified ≠ [] ∧ p.bound = false) then some (.text "invalid pending")
  else p.verified.findSome? checkVerified

def sealAttrs (a : SessionAttrs) : Except Err Sealed :=
  if a.version = 0 then .error .invalidArgument
  else match checkAttrs a with
    | some err => .error (.join .invalidArgument err)
    | none => Encoder.attrs a >>= Encoder.finish tagAttrs

def sealPending (p : Pending) : Except Err Sealed :=
  if p.version = 0 then .error .invalidArgument
  else match checkPending p with
    | some err => .error (.join .invalidArgument err)
    | none => Encoder.pending p >>= Encoder.finish tagPending

/-- The canonical encoding is the one that sealing gives back. -/
def canonical (b : Bytes) (reseal : Except Err Sealed) : Option Err :=
  match reseal with
  | .error err => some (.join .malformed err)
  | .ok out => if out.bytes ≠ b then some (.join .malformed (.text "non-canonical encoding")) else none

def accept {A : Type} (a : A) (check : Option Err) (b : Bytes) (reseal : Except Err Sealed) : Except Err A :=
  match check with
  | some err => .error (.join .malformed err)
  | none => match canonical b reseal with
    | some err => .error err
    | none => .ok a

def unsealAttrs (s : Sealed) : Except Err SessionAttrs := do
  let fields ← Decoder.new s.bytes tagAttrs
  let a ← Decoder.whole Decoder.attrs fields
  accept a (checkAttrs a) s.bytes (sealAttrs a)

def unsealPending (s : Sealed) : Except Err Pending := do
  let fields ← Decoder.new s.bytes tagPending
  let p ← Decoder.whole Decoder.pending fields
  accept p (checkPending p) s.bytes (sealPending p)

end Egauth.Core
