import Egauth.Revert.Mark

/-! The endpoints that act on a bound ceremony.

Each opens the ceremony, reads the account, compares its epoch with the one the
ceremony was bound at, and applies a mutation. A handle that does not parse is
`none`. Audit events, responses and the reissue of the session are left out.
-/

set_option autoImplicit false

namespace Egauth.Service
open Egauth.Core Identity Revert

def applyMutation (m : Mutation) (problem : Identity.Err → Problem) : Program Unit := do
  let _ ← value problem (← ask (.apply m))

def resetPassword (t : TenantID) (handle : Option Ceremony.Digest) : Program Unit := do
  let hash ← required .invalidToken handle
  let rec ← value ceremonyProblem (← ask (.peek t .passwordReset hash))
  let _ ← value id (openReset rec t)
  let phc ← required .invalidPassword (← ask .hashPassword)
  let rec ← value ceremonyProblem (← ask (.consume t .passwordReset hash))
  let (p, sub) ← value id (openReset rec t)
  let st ← accountState sub
  if !st.usable ∨ st.epoch ≠ p.epochAtBind then .fail .invalidToken
  else applyMutation (.setPassword sub phc (some .passwordReset) .nil) mutationProblem

structure Consumed where
  pending : Pending
  subject : Subject
  record : Ceremony.Record
  user : User

def liveBinding (p : Pending) (sub : Subject) (rec : Ceremony.Record) : Program Consumed := do
  let u ← readUser sub
  if !(stateOf u).usable ∨ (stateOf u).epoch ≠ p.epochAtBind then .fail .invalidToken else pure ⟨p, sub, rec, u⟩

def consumeBound (t : TenantID) (k : Ceremony.Kind) (handle : Option Ceremony.Digest) : Program Consumed := do
  let hash ← required .invalidToken handle
  let rec ← value ceremonyProblem (← ask (.peek t k hash))
  let _ ← value id (openReset rec t)
  let rec ← value ceremonyProblem (← ask (.consume t k hash))
  let (p, sub) ← value id (openReset rec t)
  liveBinding p sub rec

def addressIn (k : Ceremony.Kind) (rec : Ceremony.Record) : Option Bytes :=
  match Ceremony.decode k rec.row.payload with
  | some (.address addr) => some addr
  | _ => none

def stillUnverified (sub : Subject) (epoch : UInt64) : Program Unit := do
  let u ← value .identity (← ask (.getUser sub))
  if u.deletedAt ≠ 0 then .fail (.identity .tombstoned)
  else if u.emailVerifiedAt ≠ 0 ∨ epoch ≠ 0 ∧ u.securityEpoch ≠ epoch then .fail (.identity (.conflict ""))
  else pure ()

/-- The account still has the epoch of the own bump before the factors are deleted. -/
def wipe (sub : Subject) (change : FactorChange) (del : Program Unit) : Program Unit := do
  let a ← value .identity (← ask (.apply (.bumpEpoch sub .nil (some change))))
  stillUnverified sub a.newEpoch
  del

def deleteAllPasskeys (sub : Subject) : Program Unit := do value .passkey (← ask (.deletePasskeys sub))

def deleteAllMFA (sub : Subject) : Program Unit := do value .mfa (← ask (.mfa sub .deleteForSubject))

/-- The caller has compared the epoch; the account is read again here, and its epoch is not looked at. -/
def verifyEmailOwnership (sub : Subject) (phc : PasswordHash) : Program Applied := do
  stillUnverified sub 0
  wipe sub .passkeyRemoved (deleteAllPasskeys sub)
  wipe sub .totpRemoved (deleteAllMFA sub)
  value .identity (← ask (.apply (.markEmailVerified sub phc)))

def ownershipProblem : Problem → Problem
  | .identity (.conflict _) | .identity .tombstoned | .identity .notFound => .invalidToken
  | _ => .serviceUnavailable

def verifyEmail (t : TenantID) (handle : Option Ceremony.Digest) : Program Unit := do
  let c ← consumeBound t .emailVerification handle
  let addr ← required .invalidToken (addressIn .emailVerification c.record)
  if c.user.email.value ≠ addr ∨ c.user.emailVerifiedAt ≠ 0 then .fail .invalidToken
  else
    let _ ← (verifyEmailOwnership c.subject ⟨[]⟩).refail ownershipProblem

def confirmEmailChange (cfg : Config) (t : TenantID) (handle : Option Ceremony.Digest) : Program Unit := do
  let c ← consumeBound t .emailChange handle
  let addr ← required .invalidToken (addressIn .emailChange c.record)
  let email ← required .invalidToken (newIdentifier cfg .email addr)
  if c.user.emailVerifiedAt = 0 then .fail .emailUnverified
  else
    let _ ← (changeEmail cfg c.user email).refail fun
      | .identity err => identifierProblem err
      | err => err

def confirmRecoveryEmail (cfg : Config) (t : TenantID) (handle : Option Ceremony.Digest) : Program Unit := do
  let c ← consumeBound t .recoveryEmail handle
  let addr ← required .invalidToken (addressIn .recoveryEmail c.record)
  let email ← required .invalidToken (newIdentifier cfg .recoveryEmail addr)
  applyMutation (.setRecoveryEmail c.subject email) identifierProblem

def currentAccount (a : SessionAttrs) : Program User := do
  match ← ask (.getUser a.subject) with
  | .error .notFound => .fail .unauthenticated
  | .error _ => .fail .serviceUnavailable
  | .ok u => if !(stateOf u).usable ∨ (stateOf u).epoch ≠ a.epoch then .fail .unauthenticated else pure u

def phoneIn (rec : Ceremony.Record) : Option (Bytes × Bytes) :=
  match Ceremony.decode .phoneVerification rec.row.payload with
  | some (.phoneCode digest phone) => some (digest, phone)
  | _ => none

def openedFor (rec : Ceremony.Record) (t : TenantID) (sub : Subject) : Option Pending :=
  match openReset rec t with
  | .ok (p, bound) => if bound = sub then some p else none
  | .error _ => none

theorem openedFor_some {rec : Ceremony.Record} {t : TenantID} {sub : Subject} {p : Pending}
    (found : openedFor rec t sub = some p) : p = rec.row.pending ∧ rec.row.pending.subject = sub := by
  unfold openedFor at found
  split at found
  next p' bound ok =>
    cases openReset_ok ok
    split at found
    next same => exact ⟨(Option.some.inj found).symm, same⟩
    next => cases found
  · cases found

def consumeChecked (t : TenantID) (hash : Ceremony.Digest) (rec : Ceremony.Record) (remaining : Int) :
    Program Ceremony.Record :=
  if remaining > 0 then do value ceremonyProblem (← ask (.consume t .phoneVerification hash)) else pure rec

def checkPhoneCode (cfg : Config) (t : TenantID) (handle : Option Ceremony.Digest) (code : Bytes) (sub : Subject) :
    Program (Identifier × Pending) := do
  let hash ← required .invalidToken handle
  let rec ← value ceremonyProblem (← ask (.peek t .phoneVerification hash))
  let _ ← required .invalidToken (if rec.scopedTo (Ceremony.subjectScope sub) then openedFor rec t sub else none)
  let (digest, _) ← required .invalidToken (phoneIn rec)
  let remaining ← value ceremonyProblem (← ask (.recordFailure t .phoneVerification hash))
  if !cfg.codeMatches digest code then .fail .invalidCode
  else
    let rec ← consumeChecked t hash rec remaining
    let p ← required .invalidToken (openedFor rec t sub)
    let (_, number) ← required .invalidToken (phoneIn rec)
    let phone ← required .invalidToken (newIdentifier cfg .phone number)
    pure (phone, p)

def verifyPhone (cfg : Config) (a : SessionAttrs) (t : TenantID) (handle : Option Ceremony.Digest) (code : Bytes) :
    Program Unit := do
  let u ← currentAccount a
  let (phone, p) ← checkPhoneCode cfg t handle code u.subject
  if p.epochAtBind ≠ (stateOf u).epoch then .fail .invalidToken
  else applyMutation (.setPhone u.subject phone) identifierProblem

def consumeSubjectCeremony (t : TenantID) (k : Ceremony.Kind) (handle : Option Ceremony.Digest) (invalid : Problem) :
    Program (Pending × Bytes) := do
  let hash ← required invalid handle
  let rec ← value (fun err => if err = .notFound then invalid else .serviceUnavailable) (← ask (.consume t k hash))
  match openReset rec t, Ceremony.decode k rec.row.payload with
  | .ok (p, _), some (.webAuthn session) => pure (p, session)
  | _, _ => .fail invalid

def verifyRegistration (sub : Subject) (handle : Option Ceremony.Digest) (nickname : Bytes) :
    Program Passkey.Credential := do
  let (p, _) ← consumeSubjectCeremony sub.tenant .passkeyRegistration handle .registrationFailed
  if p.subject ≠ sub then .fail .registrationFailed
  else
    let st ← accountState sub
    if !st.usable ∨ st.epoch ≠ p.epochAtBind then .fail .registrationFailed
    else
      let c ← required .registrationFailed (← ask .attest)
      let now ← ask .now
      pure { c with subject := sub, createdAt := now, nickname := nickname, lastUsedAt := none, suspendedAt := none }

def saveProblem : Passkey.Err → Problem
  | .conflict => .alreadyRegistered
  | _ => .serviceUnavailable

def registerFinish (a : SessionAttrs) (handle : Option Ceremony.Digest) (nickname : Bytes) : Program Unit := do
  let c ← verifyRegistration a.subject handle nickname
  match ← ask (.getPasskey a.subject.tenant c.id) with
  | .ok _ => .fail .alreadyRegistered
  | .error .notFound =>
    applyMutation (.bumpEpoch a.subject a.lineage (some .passkeyAdded)) fun _ => .serviceUnavailable
    value saveProblem (← ask (.savePasskey c))
  | .error _ => .fail .serviceUnavailable

/-- The link of an identity in the tenant, none when there is none. -/
def linked (t : TenantID) (identity : FederatedIdentity) : Program (Option FederatedLink) := do
  match ← ask (.findFederated t identity.provider identity.providerSubject) with
  | .error .notFound => pure none
  | .error _ => .fail .serviceUnavailable
  | .ok l =>
    if l.subject.tenant ≠ t ∨ l.subject.isZero ∨ l.isOf identity.provider identity.providerSubject = false then
      .fail .serviceUnavailable
    else pure (some l)

def attach (sub : Subject) (epoch : UInt64) (identity : FederatedIdentity) : Program Unit := do
  let st ← accountState sub
  if !st.usable ∨ st.epoch ≠ epoch then .fail .unauthenticated
  else if !st.emailVerified then .fail .emailUnverified
  else
    applyMutation (.linkFederated sub identity .nil) fun err =>
      if err = .identifierTaken then .identityLinked else .serviceUnavailable

/-- `Directory.Link` of a subject that a request sealed at an epoch; `valid` is the check of the identity. -/
def link (sub : Subject) (epoch : UInt64) (identity : FederatedIdentity) (valid : Bool) : Program Unit :=
  if !valid then .fail .invalidIdentity
  else do
    match ← linked sub.tenant identity with
    | none => attach sub epoch identity
    | some l =>
      if l.subject ≠ sub then .fail .identityLinked
      else if l.identity.authority = identity.authority then pure ()
      else attach sub epoch identity

end Egauth.Service
