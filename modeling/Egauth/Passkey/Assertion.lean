import Egauth.Core.Pending
import Egauth.Passkey.Memory
import Egauth.Semantics.Discipline

/-! The requests that assert or rename a passkey.

A request is a program of calls of the store. The check of the signature, of
the session data and of the relying party is one call whose answer is
arbitrary, and so are the ceremony store, the account and the clock. The lock
of a credential is one of its process; several processes share the store, so
that it excludes nothing here. The audit events and the responses are left out.
-/

set_option autoImplicit false

namespace Egauth.Passkey
open Egauth.Core

/-- What the requests read of `protocol.ParsedCredentialAssertionData`. -/
structure Assertion where
  rawID : Bytes
  userHandle : Bytes
  counter : UInt32
  userPresent : Bool
  userVerified : Bool
  backupState : Bool
  deriving DecidableEq

inductive Call where
  | get (t : TenantID) (id : Bytes)
  | updateSignCount (sub : Subject) (id : Bytes) (next : UInt32)
  | suspend (sub : Subject) (id : Bytes) (at' : Time)
  | update (c : Credential)
  | validate (c : Credential) (a : Assertion)
  | markConsumed
  | accountState (sub : Subject)
  | now

abbrev Reply : Call → Type
  | .get .. => Except Err Credential
  | .updateSignCount .. | .markConsumed => Except Err Bool
  | .suspend .. | .update _ => Except Err Unit
  | .validate .. => Bool
  | .accountState _ => Except Err AccountState
  | .now => Time

abbrev Event := (c : Call) × Reply c

inductive Problem where
  | passkeyRejected
  | credentialNotFound
  | serviceUnavailable
  | userPresenceRequired
  | userVerificationRequired
  | credentialSuspended
  | missingCredentialID
  | verified (err : Core.Err)

abbrev Program (A : Type) := Prog Call Reply Problem A

abbrev ask (c : Call) : Program (Reply c) := Prog.perform c

structure Turn where
  now : Time
  fault : Bool
  valid : Bool
  first : Bool
  account : AccountState

section
variable (o : Turn) (s : Store)

def exec : (c : Call) → Reply c × Store
  | .get t id => performed o.fault .context s (s, s.get t id)
  | .updateSignCount sub id next => performed o.fault .context s (s.updateSignCount sub id next)
  | .suspend sub id at' => performed o.fault .context s (s.suspend sub id at')
  | .update c => performed o.fault .context s (s.update c)
  | .validate _ _ => (o.valid, s)
  | .markConsumed => performed o.fault .context s (s, .ok o.first)
  | .accountState _ => performed o.fault .context s (s, .ok o.account)
  | .now => (o.now, s)

end

def unavailable (_ : Err) : Problem := .serviceUnavailable

def lookupProblem (gone : Problem) (err : Err) : Problem := if err = .notFound then gone else .serviceUnavailable

structure PasskeyCredential where
  owner : Subject
  id : Bytes
  suspended : Bool

def factorCredential (c : Credential) : PasskeyCredential := ⟨c.subject, c.id, !c.active⟩

def checkPasskey (cred : PasskeyCredential) (a : Assertion) : Option Problem :=
  if !a.userPresent then some .userPresenceRequired
  else if !a.userVerified then some .userVerificationRequired
  else if cred.suspended then some .credentialSuspended
  else if cred.id.length = 0 then some .missingCredentialID
  else none

/-- `factors.Passkey`, and `factors.PasskeyStepUp` for a step-up. -/
def mint (stepUp : Bool) (cred : PasskeyCredential) (a : Assertion) (now : Time) : Except Problem Verified :=
  match checkPasskey cred a with
  | some err => .error err
  | none =>
    let factors := if stepUp then [Factor.passkeyStepUp] else [Factor.passkey, Factor.userVerification]
    (newVerified ⟨cred.owner, factors, cred.id, !stepUp, [], now⟩).mapError .verified

/-- The time of the verification is read where it is minted. -/
def minted (stepUp : Bool) (cred : Credential) (a : Assertion) : Program Verified := do
  let now ← ask .now
  Prog.ofExcept (fun _ => .passkeyRejected) (mint stepUp (factorCredential cred) a now)

def activeCredential (t : TenantID) (rawID : Bytes) : Program Credential :=
  if rawID.length = 0 ∨ rawID.length > maxCredentialIDLen then .fail .passkeyRejected
  else do
    let cred ← Prog.ofExcept (lookupProblem .passkeyRejected) (← ask (.get t rawID))
    if !cred.active ∨ cred.subject.tenant ≠ t then .fail .passkeyRejected else pure cred

def used (c : Credential) (a : Assertion) (now : Time) : Credential :=
  { c with lastUsedAt := some now, backupState := if c.backupEligible then a.backupState else c.backupState }

def recordUse (cred : Credential) (a : Assertion) : Program Unit := do
  let ok ← Prog.ofExcept unavailable (← ask (.updateSignCount cred.subject cred.id a.counter))
  let now ← ask .now
  if !ok then
    Prog.ofExcept unavailable (← ask (.suspend cred.subject cred.id now))
    .fail .passkeyRejected
  else
    let fresh ← Prog.ofExcept (lookupProblem .passkeyRejected) (← ask (.get cred.subject.tenant cred.id))
    if fresh.subject ≠ cred.subject then .fail .passkeyRejected
    else Prog.ofExcept (lookupProblem .passkeyRejected) (← ask (.update (used fresh a now)))

inductive Entry where
  | discoverable
  | usernameFirst (bound : Option Subject)

def Entry.owns (e : Entry) (cred : Credential) (a : Assertion) : Bool :=
  match e with
  | .discoverable => a.rawID = cred.id ∧ a.userHandle = cred.subject.user.bytes
  | .usernameFirst bound => bound = some cred.subject

def verifyLogin (t : TenantID) (e : Entry) (a : Assertion) : Program Verified := do
  let cred ← activeCredential t a.rawID
  let valid ← ask (.validate cred a)
  if !e.owns cred a ∨ !valid then .fail .passkeyRejected
  else
    let first ← Prog.ofExcept unavailable (← ask .markConsumed)
    if !first then .fail .passkeyRejected
    else
      recordUse cred a
      let st ← Prog.ofExcept unavailable (← ask (.accountState cred.subject))
      if !st.usable ∨ !st.emailVerified then .fail .passkeyRejected else minted false cred a

/-- `verifySubjectAssertion`, for a step-up or a reauthentication. -/
def verifySubjectAssertion (sub : Subject) (stepUp : Bool) (a : Assertion) : Program Verified := do
  let cred ← activeCredential sub.tenant a.rawID
  if cred.subject ≠ sub then .fail .passkeyRejected
  else
    let valid ← ask (.validate cred a)
    if !valid then .fail .passkeyRejected
    else
      recordUse cred a
      minted stepUp cred a

def renameCredential (sub : Subject) (id nickname : Bytes) : Program Unit := do
  let c ← Prog.ofExcept (lookupProblem .credentialNotFound) (← ask (.get sub.tenant id))
  if c.subject ≠ sub then .fail .credentialNotFound
  else Prog.ofExcept (lookupProblem .credentialNotFound) (← ask (.update { c with nickname := nickname }))

inductive Request where
  | login (t : TenantID) (e : Entry) (a : Assertion)
  | stepUp (sub : Subject) (a : Assertion)
  | reauth (sub : Subject) (a : Assertion)
  | rename (sub : Subject) (id nickname : Bytes)

def Request.program : Request → Program (Option Verified)
  | .login t e a => do
    let v ← verifyLogin t e a
    pure (some v)
  | .stepUp sub a => do
    let v ← verifySubjectAssertion sub true a
    pure (some v)
  | .reauth sub a => do
    let v ← verifySubjectAssertion sub false a
    pure (some v)
  | .rename sub id nickname => do
    renameCredential sub id nickname
    pure none

end Egauth.Passkey
