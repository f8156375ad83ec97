import Egauth.Core.Pending
import Egauth.Identity.Record

/-! Ceremony kinds and the records they are stored in.

A digest is the term of what it is taken of: two digests are equal only if
their inputs are. A record keeps the Pending in place of its sealed bytes, and
a payload is the value its codec encodes, under the kind of the codec. The
number of an undeclared kind is not represented: no call of the library passes
one.
-/

set_option autoImplicit false

namespace Egauth.Ceremony
open Egauth.Core

inductive Kind where
  | mfaFlow
  | passkeyRegistration
  | mfaPasskey
  | magicLink
  | emailCode
  | smsCode
  | phoneVerification
  | passwordReset
  | pendingRegistration
  | emailVerification
  | emailChange
  | recoveryEmail
  | securityRevert
  | exchange
  | discoverablePasskey
  | usernameFirstPasskey
  | oauthState
  | externalLogin
  | passwordResetCode
  deriving DecidableEq, Repr

/-- What a kind's records are grouped and capped by. -/
inductive ScopeClass where
  | subject
  | identifier
  | anonymous
  deriving DecidableEq, Repr

namespace Kind

def admitsSession : Kind → Bool
  | .mfaFlow | .mfaPasskey | .magicLink | .emailCode | .smsCode | .pendingRegistration | .exchange
  | .discoverablePasskey | .usernameFirstPasskey | .oauthState | .externalLogin => true
  | .passkeyRegistration | .phoneVerification | .passwordReset | .emailVerification | .emailChange
  | .recoveryEmail | .securityRevert | .passwordResetCode => false

def ttl : Kind → Duration
  | .mfaFlow | .passkeyRegistration | .mfaPasskey | .discoverablePasskey | .usernameFirstPasskey
  | .externalLogin => 5 * Duration.minute
  | .phoneVerification | .passwordResetCode => 10 * Duration.minute
  | .magicLink | .emailCode | .smsCode | .pendingRegistration => pendingTTL - 5 * Duration.minute
  | .oauthState => pendingTTL - Duration.minute - 5 * Duration.minute
  | .passwordReset | .emailChange | .recoveryEmail => Duration.hour
  | .emailVerification => 24 * Duration.hour
  | .securityRevert => 7 * 24 * Duration.hour
  | .exchange => Duration.minute

def maxLivePerScope : Kind → Nat
  | .mfaFlow | .passkeyRegistration | .mfaPasskey | .securityRevert | .exchange => 5
  | .magicLink | .emailCode | .smsCode | .phoneVerification | .passwordReset | .pendingRegistration
  | .emailVerification | .emailChange | .recoveryEmail | .passwordResetCode => 3
  | .discoverablePasskey | .usernameFirstPasskey | .oauthState | .externalLogin => 0

/-- Zero for no ceiling. -/
def maxLivePerTenant : Kind → Nat
  | .pendingRegistration => 10000
  | _ => 0

def maxAttempts : Kind → Int
  | .emailCode | .smsCode | .phoneVerification | .mfaFlow | .mfaPasskey | .passwordResetCode => 5
  | .passkeyRegistration | .magicLink | .passwordReset | .pendingRegistration | .emailVerification
  | .emailChange | .recoveryEmail | .securityRevert | .exchange => 3
  | .discoverablePasskey | .usernameFirstPasskey | .oauthState | .externalLogin => 0

def scope : Kind → ScopeClass
  | .mfaFlow | .passkeyRegistration | .mfaPasskey | .phoneVerification | .passwordReset | .emailVerification
  | .emailChange | .recoveryEmail | .exchange | .passwordResetCode => .subject
  | .magicLink | .emailCode | .smsCode | .pendingRegistration | .securityRevert => .identifier
  | .discoverablePasskey | .usernameFirstPasskey | .oauthState | .externalLogin => .anonymous

def stateless (k : Kind) : Bool := k.scope == .anonymous

/-- A session-admitting artefact never outlives its Pending. -/
def expiresAt (k : Kind) (pendingEnd now : Time) : Time :=
  let ends := now + k.ttl
  if k.admitsSession ∧ pendingEnd < ends then pendingEnd else ends

end Kind

/-- The bookkeeping of security reverts, by the label of its keys. -/
inductive Label where
  | revertAnchor
  | revertSpan
  | revertTenure
  | revertLock
  deriving DecidableEq, Repr

/-- The id of a notice, a name-based UUID of its outbox row. -/
structure DeliveryID where
  subject : Subject
  row : Int
  component : Identity.Component
  deriving DecidableEq

inductive Digest where
  | keyed (label : Label) (sub : Subject) (parts : List Bytes)
  | link (id : DeliveryID)
  | identifier (kind : Identity.IdentifierKind) (value : Bytes)
  | user (id : UUID)
  | handle (raw : Bytes)
  deriving DecidableEq

/-- A user id is its sixteen bytes, the others are SHA-256 digests. -/
def Digest.length : Digest → Nat
  | .user _ => 16
  | _ => 32

inductive Body where
  | empty
  | webAuthn (session : Bytes)
  | code (digest : Bytes)
  | phoneCode (digest phone : Bytes)
  | registration (email passwordHash : Bytes)
  | address (address : Bytes)
  | revert (address : Bytes) (event : UInt16)
  deriving DecidableEq

structure Payload where
  kind : Kind
  body : Body
  deriving DecidableEq

/-- The errors of the store and of its records, joined with the reason where the source joins one. -/
inductive Err where
  | context
  | notFound
  | conflict
  | handleTooShort
  | statelessKind
  | storedKind
  | scopeMismatch
  | expired
  | invalidRecord (why : String)
  deriving DecidableEq, Repr

def handleHashLen : Nat := 32

def maxHandleHashLen : Nat := 64

def identifierScopeLen : Nat := 32

structure Scope where
  cls : Option ScopeClass
  tenant : TenantID
  hash : Digest
  deriving DecidableEq

def subjectScope (s : Subject) : Scope :=
  if s.isZero then ⟨none, .zero, .user .nil⟩ else ⟨some .subject, s.tenant, .user s.user⟩

def identifierScope (mac : Digest) : Except Err Scope :=
  if mac.length ≠ identifierScopeLen then .error .scopeMismatch else .ok ⟨some .identifier, .zero, mac⟩

structure Row where
  tenant : TenantID
  kind : Kind
  handleHash : Digest
  scopeHash : Digest
  pending : Pending
  payload : Payload
  attempts : Int
  expiresAt : Time
  createdAt : Time
  deriving DecidableEq

def scopeHashFits (c : ScopeClass) (h : Digest) : Bool :=
  match c, h with
  | .subject, .user id => id ≠ .nil
  | .identifier, h => h.length = identifierScopeLen
  | _, _ => false

/-- What is wrong with a row. A sealed Pending is never empty, and an encoded payload stays below the bound
of a record. -/
def checkRow (r : Row) : Option Err :=
  if r.kind.stateless then some .statelessKind
  else if r.handleHash.length < handleHashLen then some .handleTooShort
  else if !scopeHashFits r.kind.scope r.scopeHash then some .scopeMismatch
  else if r.handleHash.length > maxHandleHashLen then some (.invalidRecord "handle hash is too long")
  else if r.attempts < 0 ∨ r.attempts ≥ r.kind.maxAttempts then
    some (.invalidRecord "attempts are outside the kind's bound")
  else if r.createdAt = 0 ∨ ¬ r.expiresAt > r.createdAt then some (.invalidRecord "expiry must fall after creation")
  else if r.expiresAt > r.createdAt + r.kind.ttl then some (.invalidRecord "expiry exceeds the kind's lifetime")
  else none

/-- A record is a row that `NewRecord` could have produced. -/
structure Record where
  row : Row
  valid : checkRow row = none
  deriving DecidableEq

def restore (r : Row) : Except Err Record :=
  match accepted : checkRow r with
  | none => .ok ⟨r, accepted⟩
  | some err => .error err

theorem restore_ok {r : Row} {rec : Record} (ok : restore r = .ok rec) : rec.row = r := by
  unfold restore at ok
  split at ok
  · cases ok
    rfl
  · cases ok

/-- What a Pending binds a record to; its subject is zero while it is unbound. -/
def bindingFits (s : Scope) (p : Pending) : Bool :=
  if !p.subject.isZero && p.subject.tenant ≠ p.tenant then false
  else if s.cls ≠ some .subject then true
  else if s.tenant ≠ p.tenant then false
  else p.subject.isZero || s.hash = .user p.subject.user

structure Spec where
  kind : Kind
  handleHash : Digest
  scope : Scope
  pending : Pending
  payload : Payload
  now : Time

def newRecord (s : Spec) : Except Err Record :=
  let ends := s.kind.expiresAt s.pending.expiresAt s.now
  if s.kind.stateless then .error .statelessKind
  else if s.scope.cls ≠ some s.kind.scope || !bindingFits s.scope s.pending then .error .scopeMismatch
  else if s.now = 0 ∨ s.pending.expiresAt = 0 then
    .error (.invalidRecord "writing time and pending expiry are required")
  else if ¬ s.pending.expiresAt > s.now ∨ ¬ ends > s.now then .error .expired
  else
    restore
      { tenant := s.pending.tenant, kind := s.kind, handleHash := s.handleHash, scopeHash := s.scope.hash
        pending := s.pending, payload := s.payload, attempts := 0, expiresAt := ends, createdAt := s.now }

def Record.scopedTo (r : Record) (s : Scope) : Bool :=
  if s.cls ≠ some r.row.kind.scope || s.hash ≠ r.row.scopeHash then false
  else s.cls ≠ some .subject || s.tenant = r.row.tenant

def maxSessionBytes : Nat := 2048

def maxAddressLen : Nat := 320

def maxNameLen : Nat := 128

def maxHashLen : Nat := 512

def nonEmpty (v : Bytes) (max : Nat) : Bool := decide (v ≠ [] ∧ v.length ≤ max)

def Body.valid : Body → Bool
  | .empty => true
  | .webAuthn session => nonEmpty session maxSessionBytes
  | .code digest => digest.length = 32
  | .phoneCode digest phone => digest.length = 32 && nonEmpty phone maxNameLen
  | .registration email hash => nonEmpty email maxAddressLen && nonEmpty hash maxHashLen
  | .address addr => nonEmpty addr maxAddressLen
  | .revert addr event => event ≠ 0 && nonEmpty addr maxAddressLen

/-- `Encode` of the codec of a kind; none for a malformed payload. -/
def encode (k : Kind) (b : Body) : Option Payload := if b.valid then some ⟨k, b⟩ else none

/-- `Decode` of the codec of a kind; none for a payload of another kind or a malformed one. -/
def decode (k : Kind) (p : Payload) : Option Body := if p.kind = k ∧ p.body.valid then some p.body else none

end Egauth.Ceremony
