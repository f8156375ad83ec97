import Egauth.Core.Lineage
import Egauth.Jwt.Calls

/-! The session backend.

A session is a refresh family in the store and an access token that lives at
most `RecheckEvery`. Every operation is a program of its calls. The credentials
that a request presents are given as `read` finds them; the fingerprint of the
client is the digest that the source takes of its headers.
-/

set_option autoImplicit false

namespace Egauth.Jwt
open Egauth.Core

/-- What `Lifetimes.Validate` accepts; a Duration has 64 bits. -/
structure Lifetimes where
  idleTimeout : Duration
  maxLifetime : Duration
  recheckEvery : Duration
  positive : 0 < idleTimeout ∧ 0 < maxLifetime ∧ 0 < recheckEvery
  ordered : idleTimeout ≤ maxLifetime
  range : maxLifetime ≤ Duration.maxDuration

/-- What `New` accepts; no origin is empty, so no audience is. -/
structure Backend where
  lib : Library
  codec : Codec
  life : Lifetimes
  accessCookie : Bytes
  refreshCookie : Bytes
  audiences : List Bytes
  agrees : codec.recheck = life.recheckEvery
  origins : [] ∉ audiences

structure RefreshSpec where
  tokenHash : Bytes
  family : UUID
  attrs : SessionAttrs
  appClaims : Bytes
  clientFingerprint : Bytes
  idleTTL : Duration
  maxLifetime : Duration
  now : Time

def maxClockSkew : Duration := Duration.minute

def invalidRecord (why : String) : Failure := [.tokens (.invalidRecord (some why))]

def newRefreshRecord (s : RefreshSpec) : Except Failure Tokens.RefreshRecord :=
  if s.attrs.version = 0 ∨ s.attrs.createdAt = 0 then .error (invalidRecord "session attributes are not set")
  else if s.idleTTL ≤ 0 ∨ s.maxLifetime ≤ 0 ∨ s.now = 0 then
    .error (invalidRecord "lifetimes and issuing time are required")
  else if s.now < s.attrs.createdAt - maxClockSkew then
    .error (invalidRecord "issuing time precedes the lineage admission")
  else if ¬ s.now < s.attrs.createdAt + s.maxLifetime then .error [.recordLifetimeExceeded]
  else
    match sealAttrs s.attrs with
    | .error err => .error [.tokens (.invalidRecord none), .core err]
    | .ok stored =>
      (Tokens.restoreRefreshRecord {
        tokenHash := s.tokenHash, family := s.family, subject := s.attrs.subject, lineage := s.attrs.lineage,
        sealedAttrs := stored, appClaims := s.appClaims, securityEpoch := s.attrs.epoch,
        clientFingerprint := s.clientFingerprint,
        idleExpiresAt := min (s.now + s.idleTTL) (s.attrs.createdAt + s.maxLifetime),
        familyExpiresAt := s.attrs.createdAt + s.maxLifetime, createdAt := s.now }).mapError fun err => [.tokens err]

def newRefresh (lib : Library) (t : TenantID) : Program (Bytes × Bytes) := do
  let h ← ask .random >>= demand
  pure (Base64.encode h.1 ++ (if t.id = [] then [] else ascii "." ++ t.id), lib.sha256 h.1)

/-- The tenant and the digest of a presented refresh token; what follows the first dot is the tenant. -/
def parseRefresh (lib : Library) (v : Bytes) : Except Failure (TenantID × Bytes) :=
  match Base64.decode (v.takeWhile (· ≠ 46)) with
  | none => .error [.malformedRefresh]
  | some h =>
    if h.length ≠ handleLen then .error [.malformedRefresh]
    else if 46 ∈ v then
      match parseTenantID ((v.dropWhile (· ≠ 46)).drop 1) with
      | .error err => .error [.malformedRefresh, .tenant err]
      | .ok t => .ok (t, lib.sha256 h)
    else .ok (.zero, lib.sha256 h)

/-- `errors.Join(httpx.ErrUnavailable, err)`, once. -/
def unavailable (err : Failure) : Failure := if .unavailable ∈ err then err else .unavailable :: err

def claimsOutage (err : Failure) : Failure := if .core .claimsTooLarge ∈ err then unavailable err else err

inductive Fetched where
  | claims (c : Bytes)
  | unknown (err : Failure)
  | tooLarge (err : Failure)
  | failed (err : Failure)

/-- The compact claims, or why there are none; malformed claims are a failure of the source. -/
def fetched (lib : Library) (reply : Except Failure Bytes) : Fetched :=
  match reply with
  | .error err => if .unknownSubject ∈ err then .unknown err else .failed err
  | .ok raw =>
    match compactClaims lib raw with
    | .ok c => .claims c
    | .error .malformed => .failed (claimsFailure .malformed)
    | .error (.tooLarge n) => .tooLarge (claimsFailure (.tooLarge n))

def fetchClaims (lib : Library) (s : Subject) : Program Bytes := do
  let reply ← ask (.claimsFor s)
  match fetched lib reply with
  | .claims c => pure c
  | .unknown err => .fail (.core .claimsSubjectUnknown :: err)
  | .tooLarge err =>
    ask (.emit .claimsTooLarge s "admission")
    .fail err
  | .failed err =>
    ask (.emit .claimsUnavailable s "admission")
    .fail (.core .claimsUnavailable :: err)

/-- `renewalClaims`: what becomes of the claims at a renewal, the claims, and the cause of a failure. -/
def renewalClaims (recheck : Duration) (a : SessionAttrs) (current : Bytes) (now : Time) :
    Fetched → ClaimsOutcome × Bytes × Failure
  | .claims c => (.refreshed, c, [])
  | .unknown err => (.subjectUnknown, [], err)
  | .tooLarge err => (.tooLarge, [], err)
  | .failed err => if now.sub a.claimsFetchedAt ≤ recheck then (.keptStale, current, err) else (.unavailable, [], err)

/-- `Renewer.Renew`. -/
def renewSession (b : Backend) (a : SessionAttrs) (current : Bytes) : Program (SessionAttrs × Bytes) := do
  if a.version = 0 then .fail [.core .invalidArgument]
  else
    let st ← (ask (.accountState a.subject) >>= demand).refail (.text "session: account state" :: ·)
    let mfa ← (ask (.mfaDecision a.subject) >>= demand).refail (.text "session: MFA decision" :: ·)
    let now ← ask .now
    let reply ← ask (.claimsFor a.subject)
    let (outcome, claims, cause) := renewalClaims b.life.recheckEvery a current now (fetched b.lib reply)
    match Core.renew a st mfa (some outcome) now with
    | .error .claimsUnavailable =>
      ask (.emit .claimsUnavailable a.subject "renewal")
      .fail (.core .claimsUnavailable :: cause)
    | .error .claimsTooLarge =>
      ask (.emit .claimsTooLarge a.subject "renewal")
      .fail (.core .claimsTooLarge :: cause)
    | .error err => .fail [.core err]
    | .ok n =>
      if outcome = .keptStale then ask (.emit .claimsStale a.subject "renewal")
      pure (n, claims)

def absoluteEnd (b : Backend) (a : SessionAttrs) : Time := a.createdAt + b.life.maxLifetime

def truncateSecond (d : Duration) : Duration := d - d.tmod Duration.second

def tokenLifetime (b : Backend) (a : SessionAttrs) (now : Time) (limit : Duration) : Except Failure Duration :=
  let left := truncateSecond ((absoluteEnd b a).sub now)
  if left < Duration.second then .error [.lifetimeExceeded] else .ok (min left limit)

def encode (b : Backend) (k : Key) (m : Mint) : Program (Bytes × Token) := do
  let (cs, token) ← demand (b.codec.claimSet b.lib m)
  let input := signingInput b.lib ⟨k.alg.name, k.kid, tokenType⟩ cs
  let signature ← ask (.sign k input) >>= demand
  pure (input ++ ascii "." ++ Base64.encode signature, token)

def maxCookieBytes : Nat := 4096

def fits (b : Backend) (a : SessionAttrs) (access refresh : Bytes) : Except Failure Unit :=
  if a.transport ≠ some .cookies then .ok ()
  else if b.accessCookie.length + 1 + access.length ≥ maxCookieBytes ∨
      b.refreshCookie.length + 1 + refresh.length ≥ maxCookieBytes then
    .error [.core .claimsTooLarge, .text "jwt: the session would not fit a browser cookie"]
  else .ok ()

structure Issue where
  family : UUID
  attrs : SessionAttrs
  claims : Bytes
  fp : Bytes := []
  now : Time

structure Issued where
  access : Bytes
  refresh : Bytes
  record : Tokens.RefreshRecord
  token : Token

def recordFailure (err : Failure) : Failure :=
  if .recordLifetimeExceeded ∈ err then .lifetimeExceeded :: err else err

def prepare (b : Backend) (i : Issue) : Program Issued := do
  let life ← demand (tokenLifetime b i.attrs i.now b.life.recheckEvery)
  let (refresh, hash) ← newRefresh b.lib i.attrs.subject.tenant
  let record ← (demand (newRefreshRecord {
    tokenHash := hash, family := i.family, attrs := i.attrs, appClaims := i.claims, clientFingerprint := i.fp,
    idleTTL := b.life.idleTimeout, maxLifetime := b.life.maxLifetime, now := i.now })).refail recordFailure
  let k ← (ask (.signer i.attrs.subject.tenant) >>= demand).refail unavailable
  let (access, token) ← encode b k
    { family := i.family, issuedAt := i.now, lifetime := life, attrs := i.attrs, claims := i.claims }
  match fits b i.attrs access refresh with
  | .error err =>
    ask (.emit .claimsTooLarge i.attrs.subject "cookie_size")
    .fail err
  | .ok () => pure ⟨access, refresh, record, token⟩

def write (a : SessionAttrs) (access refresh : Bytes) (record : Tokens.RefreshRecord) : Program Unit := do
  match a.transport with
  | some .cookies =>
    let now ← ask .now
    let maxAge := truncateSecond (record.row.idleExpiresAt.sub now + Duration.second - 1)
    ask (.setCookie .accessToken access a.remember maxAge) >>= demand
    ask (.setCookie .refreshToken refresh a.remember maxAge) >>= demand
  | some .bearer => ask (.setHeaders access refresh)
  | none => .fail [.core .invalidArgument, .text "jwt: session transport"]

def checkStartable (a : SessionAttrs) : Except Failure Unit :=
  if a.version = 0 ∨ a.subject.isZero ∨ a.transport = none then
    .error [.core .invalidArgument, .text "jwt: session attributes"]
  else .ok ()

def start (b : Backend) (a : SessionAttrs) (c : Bytes) : Program Unit := do
  demand (checkStartable a)
  match compactClaims b.lib c with
  | .error (.tooLarge n) =>
    ask (.emit .claimsTooLarge a.subject "start")
    .fail (claimsFailure (.tooLarge n))
  | .error .malformed => .fail (claimsFailure .malformed)
  | .ok claims =>
    let family ← ask .newFamily
    let now ← ask .now
    let out ← prepare b { family := family, attrs := a, claims := claims, now := now }
    (ask (.create out.record) >>= demand).refail unavailable
    write a out.access out.refresh out.record

structure Handle where
  subject : Subject
  lineage : UUID
  id : UUID
  deriving DecidableEq

structure Resumed where
  attrs : SessionAttrs
  claims : Bytes
  handle : Handle

/-- `NewHandle` and `NewResumed`; the handle is made from the same attributes. -/
def resumed (a : SessionAttrs) (claims : Bytes) (family : UUID) : Except Failure Resumed :=
  if a.version = 0 ∨ a.subject.isZero ∨ a.lineage = .nil ∨ family = .nil then .error [.handleMismatch]
  else .ok ⟨a, claims, ⟨a.subject, a.lineage, family⟩⟩

def classifyRevoke (err : Failure) : Failure := if .revokeUnavailable ∈ err then unavailable err else err

def resumeLive (b : Backend) (family : UUID) (a : SessionAttrs) (claims : Bytes) : Program Resumed := do
  let now ← ask .now
  if ¬ now < absoluteEnd b a then .fail [.lifetimeExceeded]
  else
    (ask (.live a.subject family a.lineage) >>= demand).refail classifyRevoke
    (ask (.checkEpoch a.subject a.epoch) >>= demand).refail classifyRevoke
    demand (resumed a claims family)

def verifierFailure (err : Failure) : Failure :=
  if .revokeUnavailable ∈ err then .unavailable :: err else .invalidToken :: err

def verify (b : Backend) (raw audience : Bytes) (want : Option TenantID) : Program (Token × Bool) := do
  let parts ← demand (parseToken b.lib raw)
  let tenant ← demand ((parseTenant parts.claims.tid).mapError fun _ => invalid "tenant")
  if want.any (· ≠ tenant) then .fail [.invalidToken, .tenantMismatch]
  else
    let now ← ask .now
    let (token, expired) ← demand (b.codec.check b.lib now parts.claims tenant audience)
    let k ← (ask (.verifier tenant parts.header.kid) >>= demand).refail verifierFailure
    (ask (.verifySignature k ⟨parts.header.alg, parts.header.kid, parts.input, parts.signature⟩) >>= demand).refail
      (.invalidToken :: ·)
    pure (token, expired)

def revokeUnknown (s : Subject) (family : UUID) (cause : Failure) : Program Unit := do
  (ask (.revokeFamily s.tenant family) >>= demand).refail fun err => unavailable (cause ++ err)
  ask (.emit .tokenFamilyRevoked s "claims_subject_unknown")
  .fail cause

def getFailure (err : Failure) : Failure :=
  if .tokens .notFound ∈ err ∨ .tokens .revoked ∈ err then err else unavailable err

def load (b : Backend) (refresh : Bytes) : Program (Tokens.RefreshRecord × SessionAttrs × Bytes) := do
  let (t, hash) ← demand (parseRefresh b.lib refresh)
  let record ← (ask (.get t hash) >>= demand).refail getFailure
  let a ← demand ((unsealAttrs record.row.sealedAttrs).mapError fun err => [.corrupt, .core err])
  if record.row.subject ≠ a.subject ∨ record.row.lineage ≠ a.lineage ∨ record.row.securityEpoch ≠ a.epoch ∨
      record.tenant ≠ t then .fail [.corrupt]
  else pure (record, a, hash)

structure Presented where
  transport : Transport
  access : Bytes
  refresh : Bytes
  ambiguous : Bool := false

def rotationFailed (s : Subject) (err : Failure) : Program Resumed := do
  if .tokens .reused ∈ err then
    ask (.emit .refreshReuseDetected s "refresh_reuse")
    .fail err
  else if .tokens .revoked ∈ err ∨ .tokens .notFound ∈ err ∨ .tokens .conflict ∈ err then .fail err
  else .fail (unavailable err)

/-- What the error of `Renew` does at a renewal. -/
def renewFailed (s : Subject) (family : UUID) (err : Failure) : Program Unit := do
  if .core .claimsSubjectUnknown ∈ err then revokeUnknown s family err
  else if .core .claimsUnavailable ∈ err ∨ .core .claimsTooLarge ∈ err then .fail (unavailable err)
  else .fail err

def rotate (b : Backend) (s : Subject) (record : Tokens.RefreshRecord) (hash : Bytes) (prior : Option Token)
    (renewed : SessionAttrs) (claims : Bytes) (out : Issued) : Program Resumed := do
  let rotation : Except Failure Tokens.Rotation ← ask (.consumeForRotation ⟨hash, out.record⟩)
  match rotation with
  | .error err =>
    if .tokens .concurrent ∈ err then
      if prior.isSome then resumeLive b record.row.family renewed claims else .fail (unavailable err)
    else rotationFailed s err
  | .ok _ =>
    write renewed out.access out.refresh out.record
    demand (resumed renewed out.token.claims record.row.family)

def renew (b : Backend) (fp : Bytes) (p : Presented) (prior : Option Token) (tenant : TenantID) : Program Resumed := do
  let (record, a, hash) ← load b p.refresh
  if record.tenant ≠ tenant ∨ a.subject.tenant ≠ tenant then .fail [.tenantMismatch]
  else if a.transport ≠ some p.transport then .fail [.transportMismatch]
  else if prior.any fun token => decide (token.family ≠ record.row.family ∨ token.attrs.lineage ≠ a.lineage) then
    .fail [.invalidToken, .text "jwt: access and refresh tokens of different sessions"]
  else
    let now ← ask .now
    if ¬ now < absoluteEnd b a then .fail [.lifetimeExceeded]
    else
      let renewal ← (renewSession b a record.row.appClaims).attempt
      match renewal with
      | .error err =>
        renewFailed a.subject record.row.family err
        .fail err
      | .ok (renewed, claims) =>
        let out ← (prepare b
          { family := record.row.family, attrs := renewed, claims := claims, fp := fp, now := now }).refail claimsOutage
        rotate b a.subject record hash prior renewed claims out

inductive Access where
  | live (token : Token)
  | renewal (prior : Option Token)

def readAccess (b : Backend) (p : Presented) (tenant : TenantID) : Program Access := do
  if p.access = [] then pure (.renewal none)
  else
    let verified ← (verify b p.access [] (some tenant)).attempt
    match verified with
    | .error err =>
      if .unavailable ∈ err then .fail err
      else if .tenantMismatch ∈ err then .fail [.tenantMismatch]
      else if p.refresh = [] then .fail err
      else pure (.renewal none)
    | .ok (token, expired) =>
      if token.attrs.subject.tenant ≠ tenant then .fail [.tenantMismatch]
      else if token.attrs.transport ≠ some p.transport then .fail [.transportMismatch]
      else pure (if expired then .renewal (some token) else .live token)

def resume (b : Backend) (fp : Bytes) (p : Presented) (tenant : TenantID) : Program Resumed := do
  if p.ambiguous then .fail [.ambiguousTransport]
  else if p.access = [] ∧ p.refresh = [] then .fail [.noCredential]
  else
    let access ← readAccess b p tenant
    match access with
    | .live token => resumeLive b token.family token.attrs token.claims
    | .renewal prior => if p.refresh = [] then .fail [.expired] else renew b fp p prior tenant

def reissueFailure (err : Failure) : Failure := if .tokens .conflict ∈ err then err else unavailable err

def reissue (b : Backend) (cur : Handle) (a : SessionAttrs) : Program Unit := do
  demand (checkStartable a)
  if cur.id = .nil ∨ cur.subject ≠ a.subject ∨ cur.lineage ≠ a.lineage then .fail [.handleMismatch]
  else
    let claims ← (fetchClaims b.lib a.subject).attempt
    match claims with
    | .error err =>
      if .core .claimsSubjectUnknown ∈ err then revokeUnknown a.subject cur.id err
      else .fail (unavailable err)
    | .ok claims =>
      let family ← ask .newFamily
      let now ← ask .now
      let out ← (prepare b { family := family, attrs := a, claims := claims, now := now }).refail claimsOutage
      (ask (.reissue ⟨cur.id, out.record⟩) >>= demand).refail reissueFailure
      write a out.access out.refresh out.record

def mintResource (b : Backend) (res : Resumed) (audience : Bytes) (lifetime : Duration) : Program (Bytes × Time) := do
  let a := res.attrs
  if a.version = 0 ∨ res.handle.id = .nil then .fail [.core .invalidArgument, .text "jwt: resumed session"]
  else if lifetime < Duration.second ∨ lifetime > b.life.recheckEvery then
    .fail [.core .invalidArgument, .text "jwt: resource token lifetime"]
  else
    let iss ← demand (b.codec.issuer a.subject.tenant)
    if audience = iss ∨ audience ∉ b.audiences then .fail [.audience]
    else
      let _ ← resumeLive b res.handle.id a res.claims
      let now ← ask .now
      let life ← demand (tokenLifetime b a now lifetime)
      let k ← (ask (.signer a.subject.tenant) >>= demand).refail unavailable
      let (raw, token) ← encode b k
        { audience := audience, family := res.handle.id, issuedAt := now, lifetime := life, attrs := a,
          claims := res.claims }
      pure (raw, token.expiresAt)

inductive Transition where
  | reauthenticate (j : Lineage.Journey) (st : AccountState) (mfa : MFADecision) (now : Time)
  | factorEnrolled (f : Factor) (st : AccountState)
  | passwordChanged (st : AccountState) (now : Time)

def Transition.event : Transition → Lineage.Event
  | .reauthenticate j st mfa now => .reauthenticated j st mfa now
  | .factorEnrolled f st => .enrolled f st
  | .passwordChanged st now => .passwordChanged st now

def Transition.apply (a : SessionAttrs) : Transition → Except Core.Err SessionAttrs
  | .reauthenticate j st mfa now => Core.reauthenticate a j.pending st mfa now
  | .factorEnrolled f st => Core.factorEnrolled a f st
  | .passwordChanged st now => Core.passwordChanged a st now

/-- A login that is admitted and started, or a request that is resumed, with what it goes on to do. -/
inductive Request where
  | start (origin : Lineage.Journey) (st : AccountState) (mfa : MFADecision) (now : Time) (lineage : UUID) (claims : Bytes)
  | resume (fp : Bytes) (p : Presented) (tenant : TenantID)
  | reissue (fp : Bytes) (p : Presented) (tenant : TenantID) (t : Transition)
  | mintResource (fp : Bytes) (p : Presented) (tenant : TenantID) (audience : Bytes) (lifetime : Duration)

def admittedAttrs (origin : Lineage.Journey) (st : AccountState) (mfa : MFADecision) (now : Time) (lineage : UUID) :
    Except Failure SessionAttrs :=
  match admitPending origin.pending st mfa now lineage with
  | .error err => .error [.core err]
  | .ok (.needsFactor _ _) => .error [.other]
  | .ok (.session a) => .ok a

/-- The program of a request; what `Resume` returned is its result where nothing else follows. -/
def Request.program (b : Backend) : Request → Program (Option Resumed)
  | .start origin st mfa now lineage claims => do
    let a ← demand (admittedAttrs origin st mfa now lineage)
    Jwt.start b a claims
    pure none
  | .resume fp p tenant => do
    let res ← Jwt.resume b fp p tenant
    pure (some res)
  | .reissue fp p tenant t => do
    let res ← Jwt.resume b fp p tenant
    let a ← demand ((t.apply res.attrs).mapError fun err => [.core err])
    Jwt.reissue b res.handle a
    pure none
  | .mintResource fp p tenant audience lifetime => do
    let res ← Jwt.resume b fp p tenant
    let _ ← Jwt.mintResource b res audience lifetime
    pure none

namespace Sample

def codec : Codec where
  origin := ascii "https://accounts.test"
  fingerprint := ascii "claims-v1"
  recheck := Duration.minute
  named := by decide
  lasting := by decide

def lifetimes : Lifetimes where
  idleTimeout := Duration.hour
  maxLifetime := 2 * Duration.hour
  recheckEvery := Duration.minute
  positive := by decide
  ordered := by decide
  range := by decide

def backend : Backend where
  lib := Framed.library
  codec := codec
  life := lifetimes
  accessCookie := ascii "access"
  refreshCookie := ascii "refresh"
  audiences := [ascii "https://api.test"]
  agrees := rfl
  origins := by decide

def key : Key := ⟨.es256, ascii "key-1", [1], by decide⟩

def turn (clk : Time) (n : UInt8) (source : Except Failure Bytes) : Turn where
  clk := clk
  family := ⟨List.replicate 16 n, rfl⟩
  handle := .ok ⟨List.replicate 32 n, rfl⟩
  fault _ := none
  live := .ok ()
  epoch := .ok ()
  account := .ok ⟨true, false, false, false, false, 7⟩
  mfa := .ok (.new [])
  claims := source
  signer := .ok key
  signature := .ok [n]
  verifier := .ok key
  cookie := .ok ()

end Sample
end Egauth.Jwt
