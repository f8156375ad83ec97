import Egauth.Core.Codec
import Egauth.Core.Uuid
import Egauth.Jwt.Claims
import Egauth.Tokens.Record
import Mathlib.Data.List.Infix

/-! The access-token codec.

A token is a header, a claim set and a signature of both, in base64 with dots
between them. What `encode` puts into a claim set and what `check` asks of one
are separate functions of the source and are kept apart here; signing and
looking up a key are left to the programs that call them.
-/

set_option autoImplicit false

namespace Egauth.Jwt
open Egauth.Core

/-- What errors are joined from; `errors.Is` looks for one of them. -/
inductive Cause where
  | noCredential
  | transportMismatch
  | ambiguousTransport
  | lifetimeExceeded
  | corrupt
  | audience
  | invalidToken
  | expired
  | tenantMismatch
  | handleMismatch
  | unavailable
  | malformedClaims
  | unknownSubject
  | malformedRefresh
  | recordLifetimeExceeded
  | revokeUnavailable
  | notLive
  | staleEpoch
  | invalidSignature
  | core (err : Core.Err)
  | tokens (err : Tokens.Err)
  | tenant (err : TenantErr)
  | text (message : String)
  | other
  deriving DecidableEq

abbrev Failure := List Cause

def tokenType : Bytes := ascii "at+jwt"
def version : Int := 2
def maxIssuedAtSkew : Duration := 30 * Duration.second
def maxTokenLen : Nat := 8192
def maxFingerprint : Nat := 128
def maxUnixSeconds : Int := 2 ^ 40
def tenantMarker : Bytes := ascii "\x7btenant\x7d"

def invalid (reason : String) : Failure := [.invalidToken, .text ("jwt: " ++ reason)]

def claimsFailure : ClaimsErr → Failure
  | .malformed => [.malformedClaims]
  | .tooLarge n => [.core .claimsTooLarge, .text ("session: " ++ toString n ++ " bytes of application claims")]

def unix (t : Time) : Int := (t - unixEpoch) / Duration.second

def ofUnix (n : Int) : Time := unixEpoch + n * Duration.second

/-- What `NewCodec` accepts; the form of the origin is the operator's concern. -/
structure Codec where
  origin : Bytes
  fingerprint : Bytes
  recheck : Duration
  named : fingerprint ≠ [] ∧ fingerprint.length ≤ maxFingerprint
  lasting : Duration.second ≤ recheck

def dnsLabel (s : Bytes) : Bool :=
  !(s.isEmpty || decide (63 < s.length) || s.headD 0 == 45 || s.getLastD 0 == 45) &&
    s.all fun c => (97 ≤ c && c ≤ 122) || (48 ≤ c && c ≤ 57) || c == 45

def replaceFirst (old new : Bytes) : Bytes → Bytes
  | [] => []
  | c :: rest => if old <+: c :: rest then new ++ (c :: rest).drop old.length else c :: replaceFirst old new rest

def Codec.issuer (c : Codec) (t : TenantID) : Except Failure Bytes :=
  if ¬ tenantMarker <:+: c.origin then .ok c.origin
  else if dnsLabel t.id = false then .error [.invalidToken, .text "jwt: tenant is not a host label"]
  else .ok (replaceFirst tenantMarker t.id c.origin)

structure Mint where
  audience : Bytes := []
  family : UUID
  issuedAt : Time
  lifetime : Duration
  attrs : SessionAttrs
  claims : Bytes

structure Token where
  issuer : Bytes
  audience : Bytes
  family : UUID
  issuedAt : Time
  expiresAt : Time
  attrs : SessionAttrs
  claims : Bytes
  deriving DecidableEq

def amr : Factor → Bytes
  | .zero => []
  | .password => ascii "pwd"
  | .emailLink => ascii "email"
  | .emailCode | .totp => ascii "otp"
  | .smsCode => ascii "sms"
  | .federated => ascii "fed"
  | .external => ascii "ext"
  | .passkey | .passkeyStepUp => ascii "hwk"
  | .userVerification => ascii "user"
  | .recoveryCode => ascii "rc"

def amrOf (fs : List Factor) : List Bytes :=
  let out := fs.foldl (fun out f => if amr f ≠ [] ∧ amr f ∉ out then out ++ [amr f] else out) []
  if multiFactor fs then out ++ [ascii "mfa"] else out

def Codec.claimSet (lib : Library) (c : Codec) (m : Mint) : Except Failure (ClaimSet × Token) := do
  if m.attrs.version = 0 ∨ m.family = .nil ∨ m.lifetime < Duration.second ∨ m.lifetime > c.recheck then
    .error [.core .invalidArgument, .text "jwt: token to mint"]
  else
    let iss ← c.issuer m.attrs.subject.tenant
    let aud := if m.audience = [] then iss else m.audience
    let stored ← (sealAttrs m.attrs).mapError fun err => [.core err]
    let claims ← (compactClaims lib m.claims).mapError claimsFailure
    let iat := unix m.issuedAt
    let exp := iat + m.lifetime / Duration.second
    pure ({
      iss := iss, aud := aud, sub := m.attrs.subject.user.string, tid := m.attrs.subject.tenant.id,
      sid := m.family.string, iat := iat, exp := exp, typ := tokenType, egv := version, egc := c.fingerprint,
      att := Base64.encode stored.bytes, apc := claims, amr := amrOf m.attrs.factors,
      authTime := unix m.attrs.primaryAt }, {
      issuer := iss, audience := aud, family := m.family, issuedAt := ofUnix iat, expiresAt := ofUnix exp,
      attrs := m.attrs, claims := claims })

def signingInput (lib : Library) (h : Header) (cs : ClaimSet) : Bytes :=
  Base64.encode (lib.header h) ++ ascii "." ++ Base64.encode (lib.claims cs)

def parseTenant (s : Bytes) : Except Failure TenantID :=
  if s = [] then .ok .zero else (parseTenantID s).mapError fun err => [.tenant err]

def canonicalUUID (s : Bytes) : Option UUID := (UUID.parse s).filter fun u => u ≠ .nil ∧ s = u.string

/-- What `check` asks of a claim set, and whether the token has expired at an instant. -/
def Codec.check (lib : Library) (c : Codec) (now : Time) (cs : ClaimSet) (tenant : TenantID) (audience : Bytes) :
    Except Failure (Token × Bool) := do
  if cs.typ ≠ tokenType ∨ cs.egv ≠ version then .error (invalid "token format version")
  else if cs.egc ≠ c.fingerprint then .error (invalid "claims fingerprint")
  else
    let iss ← (c.issuer tenant).mapError fun _ => invalid "issuer"
    if cs.iss ≠ iss then .error (invalid "issuer")
    else if cs.aud ≠ (if audience = [] then iss else audience) ∨ (audience ≠ [] ∧ cs.aud = iss) then
      .error (invalid "audience")
    else if cs.iat ≤ 0 ∨ cs.exp ≤ cs.iat ∨ cs.exp > maxUnixSeconds ∨ cs.exp - cs.iat > c.recheck / Duration.second then
      .error (invalid "lifetime")
    else if ofUnix cs.iat > now + maxIssuedAtSkew then .error (invalid "issued in the future")
    else
      let family ← (canonicalUUID cs.sid).elim (.error (invalid "sid")) .ok
      let user ← (canonicalUUID cs.sub).elim (.error (invalid "sub")) .ok
      let stored ← (Base64.decode cs.att).elim (.error (invalid "att encoding")) .ok
      let attrs ← (unsealAttrs ⟨stored⟩).mapError fun err => [.invalidToken, .core err]
      if attrs.subject ≠ ⟨tenant, user⟩ then .error (invalid "sub and tid disagree with att")
      else
        let claims ← (compactClaims lib cs.apc).mapError fun _ => invalid "apc"
        if claims ≠ cs.apc then .error (invalid "apc")
        else
          pure (⟨cs.iss, cs.aud, family, ofUnix cs.iat, ofUnix cs.exp, attrs, claims⟩, decide (¬ now < ofUnix cs.exp))

structure Parts where
  header : Header
  claims : ClaimSet
  input : Bytes
  signature : Bytes

def parseToken (lib : Library) (raw : Bytes) : Except Failure Parts := do
  if raw = [] ∨ raw.length > maxTokenLen then .error (invalid "token length")
  else
    match raw.splitOn 46 with
    | [first, second, third] =>
      let hb ← (Base64.decode first).elim (.error (invalid "header encoding")) .ok
      let header ← (lib.readHeader hb).elim (.error (invalid "header")) .ok
      if header.typ ≠ tokenType ∨ header.alg = [] ∨ header.kid = [] then .error (invalid "header")
      else
        let pb ← (Base64.decode second).elim (.error (invalid "payload encoding")) .ok
        let signature ← (Base64.decode third).elim (.error (invalid "signature encoding")) .ok
        let claims ← (lib.readClaims pb).elim (.error (invalid "claim set")) .ok
        pure ⟨header, claims, first ++ ascii "." ++ second, signature⟩
    | _ => .error (invalid "not a compact JWS")

end Egauth.Jwt
