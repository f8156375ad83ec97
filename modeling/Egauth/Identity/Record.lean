import Egauth.Core.Principal
import Egauth.Semantics.Time

/-! Accounts and the mutations that write them.

A zero instant means "not set". An enumeration field that may hold an
undeclared number is an `Option`, `none` for every such number. The `String`,
`GoString` and `LogValue` methods, which redact hashes, are left out.
-/

set_option autoImplicit false

namespace Egauth.Identity
open Egauth.Core

/-- The errors of the store, joined with the reason where the source joins one. -/
inductive Err where
  | context
  | notFound
  | conflict (why : String)
  | invalidIdentifier (why : String)
  | invalidMutation (why : String)
  | identifierTaken
  | notTombstoned
  | tombstoned
  | userID
  deriving DecidableEq, Repr

inductive IdentifierKind where
  | email
  | phone
  | recoveryEmail
  deriving DecidableEq, Repr

/-- A contact identifier; the zero Identifier means "none". -/
structure Identifier where
  kind : Option IdentifierKind
  value : Bytes
  built : kind = none → value = []
  deriving DecidableEq

def Identifier.zero : Identifier := ⟨none, [], fun _ => rfl⟩

def Identifier.sample : Identifier := ⟨some .email, ascii "user@example.com", nofun⟩

def Identifier.isZero (i : Identifier) : Bool := i.kind.isNone

structure User where
  subject : Subject
  email : Identifier
  emailVerifiedAt : Time
  phone : Identifier := .zero
  phoneVerifiedAt : Time := 0
  recoveryEmail : Identifier := .zero
  recoveryEmailVerifiedAt : Time := 0
  disabledAt : Time := 0
  deletedAt : Time := 0
  mustChange : Bool := false
  securityEpoch : UInt64 := 0
  createdAt : Time
  deriving DecidableEq

/-- An encoded password hash; the empty string is no hash. -/
structure PasswordHash where
  phc : Bytes
  deriving DecidableEq

def PasswordHash.isZero (h : PasswordHash) : Bool := h.phc.isEmpty

structure PasswordCredential where
  subject : Subject
  phc : PasswordHash
  changedAt : Time
  failedAttempts : Int
  lockedUntil : Time
  deriving DecidableEq

structure LockoutPolicy where
  threshold : Int
  window : Duration
  deriving DecidableEq

structure Lockout where
  failedAttempts : Int
  lockedUntil : Time
  justLocked : Bool
  deriving DecidableEq

structure FederatedIdentity where
  provider : Bytes
  providerSubject : Bytes
  authority : Bytes
  providerEmail : Identifier
  providerEmailVerified : Bool
  deriving DecidableEq

def FederatedIdentity.zero : FederatedIdentity := ⟨[], [], [], .zero, false⟩

structure FederatedLink where
  subject : Subject
  identity : FederatedIdentity
  linkedAt : Time
  deriving DecidableEq

inductive Event where
  | credentialRotated
  | factorsChanged
  | identifierChanged
  | disable
  | enable
  | delete
  deriving DecidableEq, Repr

inductive RotationReason where
  | passwordChanged
  | passwordReset
  | temporaryPassword
  | securityRevert
  deriving DecidableEq, Repr

def RotationReason.forcesChange (r : RotationReason) : Bool := r == .temporaryPassword

inductive FactorChange where
  | totpEnrolled
  | totpRemoved
  | recoveryCodesRegenerated
  | passkeyAdded
  | passkeyRemoved
  | federatedLinked
  | federatedUnlinked
  deriving DecidableEq, Repr

inductive Component where
  | sessions
  | apiKeys
  | ceremonies
  | mfa
  | passkeys
  | federation
  | notices
  | keys
  | hooks
  | identity
  deriving DecidableEq, Repr

def components : List Component :=
  [.sessions, .apiKeys, .ceremonies, .mfa, .passkeys, .federation, .notices, .keys, .hooks, .identity]

structure OutboxItem where
  id : Int := 0
  component : Component := .sessions
  event : Event
  subject : Subject
  keep : UUID := .nil
  rotation : Option RotationReason := none
  change : Option FactorChange := none
  identifier : Option IdentifierKind := none
  old : Identifier := .zero
  attempts : Int := 0
  nextAttemptAt : Time := 0
  createdAt : Time := 0
  deriving DecidableEq

structure EpochChange where
  subject : Subject
  newEpoch : UInt64
  reason : Option Event
  deriving DecidableEq

structure Applied where
  subject : Subject
  newEpoch : UInt64
  outbox : List OutboxItem
  deriving DecidableEq

def maxPHCLen : Nat := 1024

def maxProviderLen : Nat := 255

/-- The twelve value types of the package; `foreign` is any other value of the interface. -/
inductive Mutation where
  | setPassword (subject : Subject) (phc : PasswordHash) (reason : Option RotationReason) (keep : UUID)
  | markEmailVerified (subject : Subject) (phc : PasswordHash)
  | changeEmail (subject : Subject) (email : Identifier)
  | setPhone (subject : Subject) (phone : Identifier)
  | setRecoveryEmail (subject : Subject) (recoveryEmail : Identifier)
  | setDisabledState (subject : Subject) (disable : Bool)
  | setMustChange (subject : Subject) (mustChange : Bool)
  | tombstone (subject : Subject)
  | bumpEpoch (subject : Subject) (keep : UUID) (change : Option FactorChange)
  | createVerified (tenant : TenantID) (email : Identifier) (phc : PasswordHash) (mustChange : Bool)
      (federated : FederatedIdentity)
  | linkFederated (subject : Subject) (identity : FederatedIdentity) (keep : UUID)
  | unlinkFederated (subject : Subject) (provider providerSubject : Bytes) (keep : UUID)
  | foreign

def errNoSubject : String := "subject is required"

def checkFederatedKey (provider subject : Bytes) : Option String :=
  if provider = [] ∨ provider.length > maxProviderLen then some "provider is required and bounded"
  else if subject = [] ∨ subject.length > maxProviderLen then some "provider subject is required and bounded"
  else none

def checkFederated (f : FederatedIdentity) : Option String :=
  match checkFederatedKey f.provider f.providerSubject with
  | some why => some why
  | none =>
    if f.authority = [] ∨ f.authority.length > maxProviderLen then some "authority is required and bounded"
    else if !f.providerEmail.isZero && f.providerEmail.kind ≠ some .email then
      some "provider email must be an email identifier"
    else if f.providerEmailVerified && f.providerEmail.isZero then some "a verified provider email needs an email"
    else none

/-- What is wrong with a mutation, if anything. -/
def Mutation.check : Mutation → Option String
  | .setPassword subject phc reason keep =>
    if subject.isZero then some errNoSubject
    else if phc.isZero || phc.phc.length > maxPHCLen then some "password hash is required and bounded"
    else if reason = none then some "invalid rotation reason"
    else if keep ≠ .nil ∧ reason ≠ some .passwordChanged then some "only a password change keeps a session"
    else none
  | .markEmailVerified subject phc =>
    if subject.isZero then some errNoSubject
    else if phc.phc.length > maxPHCLen then some "password hash is too long"
    else none
  | .changeEmail subject email =>
    if subject.isZero then some errNoSubject
    else if email.kind ≠ some .email then some "email identifier is required"
    else none
  | .setPhone subject phone =>
    if subject.isZero then some errNoSubject
    else if !phone.isZero && phone.kind ≠ some .phone then some "phone identifier expected"
    else none
  | .setRecoveryEmail subject recoveryEmail =>
    if subject.isZero then some errNoSubject
    else if !recoveryEmail.isZero && recoveryEmail.kind ≠ some .recoveryEmail then
      some "recovery email identifier expected"
    else none
  | .setDisabledState subject _ => if subject.isZero then some errNoSubject else none
  | .setMustChange subject _ => if subject.isZero then some errNoSubject else none
  | .tombstone subject => if subject.isZero then some errNoSubject else none
  | .bumpEpoch subject _ change =>
    if subject.isZero then some errNoSubject
    else if change = none then some "invalid factor change"
    else if change = some .federatedLinked ∨ change = some .federatedUnlinked then
      some "federated changes use LinkFederated or UnlinkFederated"
    else none
  | .createVerified _ email phc mustChange federated =>
    if email.kind ≠ some .email then some "email identifier is required"
    else if phc.phc.length > maxPHCLen then some "password hash is too long"
    else if mustChange && phc.isZero then some "must change requires a password"
    else if federated ≠ .zero then checkFederated federated
    else none
  | .linkFederated subject identity _ =>
    if subject.isZero then some errNoSubject else checkFederated identity
  | .unlinkFederated subject provider providerSubject _ =>
    if subject.isZero then some errNoSubject else checkFederatedKey provider providerSubject
  | .foreign => some "not a mutation of this package"

def validate (m : Mutation) : Except Err Unit :=
  match m.check with
  | some why => .error (.invalidMutation why)
  | none => .ok ()

structure Effects where
  bumpsEpoch : Bool := false
  event : Option Event := none
  deriving DecidableEq

def effectsOf : Mutation → Effects
  | .setPassword .. => { bumpsEpoch := true, event := some .credentialRotated }
  | .markEmailVerified .. | .changeEmail .. | .setPhone .. | .setRecoveryEmail .. =>
    { bumpsEpoch := true, event := some .identifierChanged }
  | .setDisabledState _ disable =>
    if disable then { bumpsEpoch := true, event := some .disable } else { event := some .enable }
  | .tombstone _ => { bumpsEpoch := true, event := some .delete }
  | .bumpEpoch .. | .linkFederated .. | .unlinkFederated .. =>
    { bumpsEpoch := true, event := some .factorsChanged }
  | .setMustChange .. | .createVerified .. | .foreign => {}

/-- The row of a mutation before it is addressed to a component. -/
def outboxTemplate (m : Mutation) (event : Event) (s : Subject) (old : Identifier) : OutboxItem :=
  let tmpl : OutboxItem := { event := event, subject := s }
  match m with
  | .setPassword _ _ reason keep => { tmpl with keep := keep, rotation := reason }
  | .bumpEpoch _ keep change => { tmpl with keep := keep, change := change }
  | .linkFederated _ _ keep => { tmpl with keep := keep, change := some .federatedLinked }
  | .unlinkFederated _ _ _ keep => { tmpl with keep := keep, change := some .federatedUnlinked }
  | .changeEmail .. => { tmpl with identifier := some .email, old := old }
  | .setPhone .. => { tmpl with identifier := some .phone, old := old }
  | .setRecoveryEmail .. => { tmpl with identifier := some .recoveryEmail, old := old }
  | .markEmailVerified .. => { tmpl with identifier := some .email }
  | .setDisabledState .. | .setMustChange .. | .tombstone .. | .createVerified .. | .foreign => tmpl

def outboxFor (m : Mutation) (s : Subject) (old : Identifier) : List OutboxItem :=
  match (effectsOf m).event with
  | none => []
  | some event => components.map fun c => { outboxTemplate m event s old with component := c }

end Egauth.Identity
