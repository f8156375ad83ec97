import Egauth.Core.Session
import Egauth.Identity.Memory

/-! The password login, from the request to the session.

Each phase ends where the handler calls the account store, so that other
requests can run between two phases. What the handler is told from elsewhere,
the clock, the enrollment stores, the claims source and the session backend, is
an argument of the step. Audit events and the texts of responses are left out.
-/

set_option autoImplicit false

namespace Egauth.Login
open Egauth.Core Identity

/-- The problem a refused request is answered with, and the refusal of the core where there is one. -/
inductive Problem where
  | invalidCredentials
  | serviceUnavailable
  | authUnavailable
  | claimsUnavailable
  | internal (cause : Core.Err)
  | unauthenticated (cause : Core.Err)
  deriving DecidableEq

/-- The outcome of one key derivation; `interrupted` when the context ended during it. -/
inductive Comparison where
  | equal
  | different
  | interrupted
  deriving DecidableEq

structure Service where
  canonical : Bytes → Bytes
  compare : PasswordHash → Bytes → Bool
  decoyUser : UUID
  decoyPHC : PasswordHash
  remember : Option RememberMePolicy

/-- The fields of the request; the identifier is normalised, none where `Normalize` refuses it, and the
return target has been parsed. -/
structure Request where
  tenant : TenantID
  identifier : Option Identifier
  password : Bytes
  remember : RememberIntent
  returnTo : Bytes
  transport : Option Transport

structure Outside where
  now : Time
  fault : Bool
  interrupted : Bytes → Bool
  totp : Option Bool
  passkey : Option Bool
  lineage : UUID
  start : Option Problem

def lockoutPolicy : LockoutPolicy := ⟨5, 15 * Duration.minute⟩

/-- Where the handler is; `phc` is the hash that the password was compared with. -/
inductive Phase where
  | idle
  | begun (p : Pending)
  | found (p : Pending) (id : Identifier) (known : Option User)
  | read (p : Pending) (id : Identifier) (u : User) (cred : PasswordCredential)
  | verified (p : Pending) (sub : Subject) (phc : PasswordHash)
  | stated (p : Pending) (st : AccountState) (phc : PasswordHash)
  | issued (a : SessionAttrs) (phc : PasswordHash)
  | parked (p : Pending) (needs : List Factor)
  | refused (why : Problem)
  deriving DecidableEq

section
variable (svc : Service) (req : Request) (o : Outside) (s : Store)

def derive (phc : PasswordHash) (form : Bytes) : Comparison :=
  if o.interrupted form then .interrupted else if svc.compare phc form then .equal else .different

/-- `matches`: the canonical form of the password, then the form as it was typed; none for an error. -/
def matchesHash (phc : PasswordHash) (password : Bytes) : Option Bool :=
  let canon := svc.canonical password
  -- Both forms are derived even when the first is equal, so that they take the same time.
  let tried := if canon ≠ password then [derive svc o phc canon, derive svc o phc password] else [derive svc o phc canon]
  if tried.contains .equal then some true
  else if tried.contains .interrupted then none
  else some false

def decoySub : Subject := ⟨req.tenant, svc.decoyUser⟩

def chargeDecoy : Store := (s.recordPasswordFailure o.now (decoySub svc req) lockoutPolicy).1

def loginAllowed (u : User) (id : Identifier) : Bool :=
  if u.disabledAt ≠ 0 ∨ u.deletedAt ≠ 0 ∨ u.emailVerifiedAt = 0 then false
  else id.kind ≠ some .phone ∨ u.phoneVerifiedAt ≠ 0

def begin : Phase :=
  match Pending.new req.tenant (some req.remember) req.returnTo req.transport svc.remember o.now with
  | .ok p => .begun p
  | .error err => .refused (.internal err)

def findUser (p : Pending) : Phase :=
  match req.identifier with
  | none =>
    match matchesHash svc o svc.decoyPHC req.password with
    | none => .refused .serviceUnavailable
    | some _ => .refused .invalidCredentials
  | some id =>
    if o.fault then .refused .serviceUnavailable
    else match s.findUser req.tenant id with
      | .ok u => .found p id (some u)
      | .error .notFound => .found p id none
      | .error _ => .refused .serviceUnavailable

/-- An unknown user, or one without a password, costs the same as a known one. -/
def getPassword (p : Pending) (id : Identifier) (known : Option User) : Store × Phase :=
  let sub := (known.map User.subject).getD (decoySub svc req)
  if o.fault then (s, .refused .serviceUnavailable)
  else match s.getPassword sub, known with
    | .ok cred, some u => (s, .read p id u cred)
    | _, _ =>
      match matchesHash svc o svc.decoyPHC req.password with
      | none => (s, .refused .serviceUnavailable)
      | some _ => (chargeDecoy svc req o s, .refused .invalidCredentials)

def comparePassword (p : Pending) (id : Identifier) (u : User) (cred : PasswordCredential) : Store × Phase :=
  match matchesHash svc o cred.phc req.password with
  | none => (s, .refused .serviceUnavailable)
  | some ok =>
    -- A barred or locked account is answered like a wrong password, after the same work.
    if loginAllowed u id = false ∨ cred.lockedUntil > o.now then
      (chargeDecoy svc req o s, .refused .invalidCredentials)
    else if ok = false then
      ((s.recordPasswordFailure o.now u.subject lockoutPolicy).1, .refused .invalidCredentials)
    else if cred.failedAttempts > 0 then
      if o.fault then (s, .refused .serviceUnavailable)
      else match s.resetPasswordFailures u.subject with
        | (s', .ok ()) => (s', .verified p u.subject cred.phc)
        | (s', .error _) => (s', .refused .serviceUnavailable)
    else (s, .verified p u.subject cred.phc)

def passwordFactor (sub : Subject) (now : Time) : Except Core.Err Verified :=
  newVerified ⟨sub, [.password], [], true, [], now⟩

def stateOf (u : User) : AccountState :=
  ⟨true, u.disabledAt ≠ 0, u.deletedAt ≠ 0, u.mustChange, u.emailVerifiedAt ≠ 0, u.securityEpoch⟩

/-- An unknown subject yields the zero state, which every transition refuses. -/
def accountState (sub : Subject) : AccountState :=
  match s.getUser sub with
  | .ok u => stateOf u
  | .error _ => ⟨false, false, false, false, false, 0⟩

/-- `Complete` up to the enrollment reads: the account state is read here, and the Pending is bound to it. -/
def readState (p : Pending) (sub : Subject) (phc : PasswordHash) : Phase :=
  match passwordFactor sub o.now with
  | .error err => .refused (.internal err)
  | .ok v =>
    if p.tenant ≠ req.tenant ∨ v.subject.tenant ≠ req.tenant then .refused (.unauthenticated .tenantMismatch)
    else if o.fault then .refused .serviceUnavailable
    else
      let st := accountState s sub
      match p.add v st with
      | .error err => .refused (.unauthenticated err)
      | .ok bound => .stated bound st phc

/-- The decision of the enrollment stores, none when one of them cannot be read. -/
def enrolled (totp passkey : Option Bool) : Option MFADecision :=
  match totp, passkey with
  | some totp, some passkey =>
    let fs := (if totp then [Factor.totp] else []) ++ (if passkey then [.passkeyStepUp] else [])
    some (.new (if fs = [] then [] else fs ++ [.recoveryCode]))
  | _, _ => none

/-- The rest of `Complete`: admission, then the session backend. -/
def complete (p : Pending) (st : AccountState) (phc : PasswordHash) : Phase :=
  match enrolled o.totp o.passkey with
  | none => .refused .authUnavailable
  | some d =>
    -- The account is not read again: `st` is what `readState` saw.
    match admitPending p st d o.now o.lineage with
    | .error err => .refused (.unauthenticated err)
    | .ok (.needsFactor parked needs) => .parked parked needs
    | .ok (.session a) =>
      match o.start with
      | some problem => .refused problem
      | none => .issued a phc

def next : Phase → Store × Phase
  | .idle => (s, begin svc req o)
  | .begun p => (s, findUser svc req o s p)
  | .found p id known => getPassword svc req o s p id known
  | .read p id u cred => comparePassword svc req o s p id u cred
  | .verified p sub phc => (s, readState req o s p sub phc)
  | .stated p st phc => (s, complete o p st phc)
  | done => (s, done)

end
end Egauth.Login
