import Egauth.Ceremony.Memory
import Egauth.Identity.Apply
import Egauth.Login.Handler
import Egauth.Mfa.Requests
import Egauth.Passkey.Memory

/-! The stores behind the service, and the calls that requests make of them.

A request is a program of these calls. A call reads the clock, which never goes
back, and may fail without effect. What comes from neither the stores nor the
clock, a hash, an attested credential, a fresh id, is told by the turn. Rows of
the outbox are handed to their subscribers later, by requests of their own.
-/

set_option autoImplicit false

namespace Egauth.Service
open Egauth.Core Identity

/-- The kind of change that a security notice reports. -/
inductive SecurityEvent where
  | credentialRotated
  | factorsChanged
  | identifierChanged
  deriving DecidableEq, Repr

def SecurityEvent.code : SecurityEvent → UInt16
  | .credentialRotated => 1
  | .factorsChanged => 2
  | .identifierChanged => 3

inductive Call where
  | now
  | getUser (sub : Subject)
  | apply (m : Mutation)
  | findFederated (t : TenantID) (provider subject : Bytes)
  | peek (t : TenantID) (k : Ceremony.Kind) (h : Ceremony.Digest)
  | consume (t : TenantID) (k : Ceremony.Kind) (h : Ceremony.Digest)
  | put (r : Ceremony.Record)
  | recordFailure (t : TenantID) (k : Ceremony.Kind) (h : Ceremony.Digest)
  | mfa (sub : Subject) (c : Mfa.Call)
  | getPasskey (t : TenantID) (id : Bytes)
  | hasActivePasskey (sub : Subject)
  | savePasskey (c : Passkey.Credential)
  | deletePasskeys (sub : Subject)
  | startSession (a : SessionAttrs)
  | revokeSessions (sub : Subject) (keep : UUID)
  | hashPassword
  | attest

abbrev Reply : Call → Type
  | .now => Time
  | .getUser _ => Except Identity.Err User
  | .apply .. => Except Identity.Err Applied
  | .findFederated .. => Except Identity.Err FederatedLink
  | .peek .. | .consume .. => Except Ceremony.Err Ceremony.Record
  | .put _ => Except Ceremony.Err Nat
  | .recordFailure .. => Except Ceremony.Err Int
  | .mfa _ c => Mfa.Reply c
  | .getPasskey .. => Except Passkey.Err Passkey.Credential
  | .hasActivePasskey _ => Except Passkey.Err Bool
  | .savePasskey _ | .deletePasskeys _ => Except Passkey.Err Unit
  | .startSession _ | .revokeSessions .. => Bool
  | .hashPassword => Option PasswordHash
  | .attest => Option Passkey.Credential

abbrev Event := (c : Call) × Reply c

/-- The error a request ends with; the cause joined to a problem is left out. -/
inductive Problem where
  | identity (err : Identity.Err)
  | ceremony (err : Ceremony.Err)
  | mfa (err : Mfa.Err)
  | passkey (err : Passkey.Err)
  | core (err : Core.Err)
  | payload
  | anchorContended
  | invalidToken
  | unauthenticated
  | serviceUnavailable
  | internal
  | emailUnverified
  | accountExists
  | invalidCode
  | invalidPassword
  | identityLinked
  | invalidIdentity
  | registrationFailed
  | alreadyRegistered
  | factor (problem : Mfa.Problem)
  | authUnavailable
  deriving DecidableEq

abbrev Program (A : Type) := Prog Call Reply Problem A

abbrev ask (c : Call) : Program (Reply c) := Prog.perform c

def value {E A : Type} (wrap : E → Problem) : Except E A → Program A
  | .ok a => pure a
  | .error err => .fail (wrap err)

def required {A : Type} (err : Problem) : Option A → Program A
  | some a => pure a
  | none => .fail err

/-- What a call learns from elsewhere. `ctx` is how many looks at the context of `Apply` find it alive; `factors`,
`bytes` and `codes` are what the key-encryption key and the random source answer to a call about a second factor. -/
structure Turn where
  now : Time
  fault : Bool
  ctx : Nat
  newID : Option UUID
  hash : Option PasswordHash
  credential : Option Passkey.Credential
  factors : Mfa.Config
  bytes : Option Bytes
  codes : Option (List Bytes)
  done : Bool

/-- The clock has passed the zero Time. -/
structure World where
  identity : Identity.Store
  ceremonies : Ceremony.Store
  mfa : Mfa.Store
  passkeys : Passkey.Store
  sessions : List SessionAttrs
  clock : Time
  set : 0 < clock.truncate

def World.tick (w : World) (o : Turn) : World :=
  { w with clock := max w.clock o.now, set := w.set.trans_le (Time.truncate_mono (le_max_left _ _)) }

/-- Ids that `uuid.NewV7` picks are not those of stored accounts. -/
def freshID (s : Identity.Store) (newID : Option UUID) (m : Mutation) : Option UUID :=
  match newID, m with
  | some id, .createVerified tenant .. => if (s.accounts.lookup ⟨tenant, id⟩).isSome then none else some id
  | newID, _ => newID

/-- A hash of the bounded size that the service accepts from its hasher. -/
def usableHash (h : PasswordHash) : Bool := decide (h.phc ≠ [] ∧ h.phc.length ≤ maxPHCLen)

/-- The sessions that end when the rows of a mutation are delivered. -/
def keptSessions (sessions : List SessionAttrs) (sub : Subject) (keep : UUID) : List SessionAttrs :=
  sessions.filter fun a => a.subject ≠ sub ∨ (keep ≠ .nil ∧ a.lineage = keep)

section
variable (o : Turn) (w : World)

def faulty {E A : Type} (err : E) (x : Except E A) : Except E A := if o.fault then .error err else x

def reads {A : Type} (x : World → A) : A × World := (x (w.tick o), w.tick o)

def writes {A S : Type} (failed : A) (x : World → S × A) (set : World → S → World) : A × World :=
  if o.fault then (failed, w.tick o) else ((x (w.tick o)).2, set (w.tick o) (x (w.tick o)).1)

def exec : (c : Call) → Reply c × World
  | .now => reads o w fun w => w.clock
  | .getUser sub => reads o w fun w => faulty o .context (w.identity.getUser sub)
  | .apply m =>
    writes o w (.error .context) (fun w => w.identity.apply w.clock o.ctx (freshID w.identity o.newID m) m)
      fun w s => { w with identity := s }
  | .findFederated t provider subject =>
    -- The federation store hides the links of some provider configurations.
    reads o w fun w =>
      faulty o .context (if o.done then w.identity.findFederated t provider subject else .error .notFound)
  | .peek t k h => reads o w fun w => faulty o .context (w.ceremonies.peek w.clock t k h)
  | .consume t k h =>
    writes o w (.error .context) (fun w => w.ceremonies.consume w.clock t k h) fun w s => { w with ceremonies := s }
  | .put r => writes o w (.error .context) (fun w => w.ceremonies.put w.clock r) fun w s => { w with ceremonies := s }
  | .recordFailure t k h =>
    writes o w (.error .context) (fun w => w.ceremonies.recordFailure w.clock t k h)
      fun w s => { w with ceremonies := s }
  | .mfa sub c =>
    let w := w.tick o
    let turn : Mfa.Turn := ⟨w.clock, o.fault, o.bytes, o.codes, w.passkeys.hasActive sub⟩
    let (r, s) := Mfa.exec { o.factors with subject := sub } turn w.mfa c
    (r, { w with mfa := s })
  | .getPasskey t id => reads o w fun w => faulty o .context (w.passkeys.get t id)
  | .hasActivePasskey sub => reads o w fun w => faulty o .context (.ok (w.passkeys.hasActive sub))
  | .savePasskey c => writes o w (.error .context) (fun w => w.passkeys.save c) fun w s => { w with passkeys := s }
  | .deletePasskeys sub =>
    writes o w (.error .context) (fun w => (w.passkeys.deleteForSubject sub, .ok ()))
      fun w s => { w with passkeys := s }
  | .startSession a => writes o w false (fun w => (w.sessions ++ [a], true)) fun w s => { w with sessions := s }
  | .revokeSessions sub keep =>
    writes o w false (fun w => (keptSessions w.sessions sub keep, true)) fun w s => { w with sessions := s }
  | .hashPassword => reads o w fun _ => o.hash.filter usableHash
  | .attest => reads o w fun _ => o.credential

end

/-- `valid` is the canonical form that `NewIdentifier` asks of a kind. -/
structure Config where
  remember : RememberMePolicy
  valid : IdentifierKind → Bytes → Bool
  codeMatches : Bytes → Bytes → Bool

def maxIdentifierLen : Nat := 320

def newIdentifier (cfg : Config) (k : IdentifierKind) (v : Bytes) : Option Identifier :=
  if v = [] ∨ v.length > maxIdentifierLen ∨ cfg.valid k v = false then none else some ⟨some k, v, nofun⟩

def ceremonyProblem : Ceremony.Err → Problem
  | .notFound => .invalidToken
  | _ => .serviceUnavailable

def mutationProblem : Identity.Err → Problem
  | .notFound | .tombstoned => .invalidToken
  | _ => .serviceUnavailable

def identifierProblem : Identity.Err → Problem
  | .identifierTaken => .accountExists
  | err => mutationProblem err

def stateOf (u : User) : AccountState := Login.stateOf u

/-- An unknown subject yields the zero state. -/
def accountState (sub : Subject) : Program AccountState := do
  match ← ask (.getUser sub) with
  | .ok u => pure (stateOf u)
  | .error .notFound => pure ⟨false, false, false, false, false, 0⟩
  | .error _ => .fail .serviceUnavailable

def readUser (sub : Subject) : Program User := do
  match ← ask (.getUser sub) with
  | .ok u => pure u
  | .error .notFound => .fail .invalidToken
  | .error _ => .fail .serviceUnavailable

def detached (cfg : Config) (t : TenantID) : Program Pending := do
  let now ← ask .now
  value (fun _ => .internal) (Pending.new t (some .declined) [] (some .cookies) (some cfg.remember) now)

def openReset (rec : Ceremony.Record) (t : TenantID) : Except Problem (Pending × Subject) :=
  let p := rec.row.pending
  if !p.bound then .error .invalidToken
  else if p.tenant ≠ t ∨ rec.row.tenant ≠ t ∨ p.subject.tenant ≠ t then .error .unauthenticated
  else .ok (p, p.subject)

theorem openReset_ok {rec : Ceremony.Record} {t : TenantID} {opened : Pending × Subject}
    (ok : openReset rec t = .ok opened) : opened = (rec.row.pending, rec.row.pending.subject) := by
  unfold openReset at ok
  dsimp only at ok
  split at ok
  · cases ok
  split at ok
  · cases ok
  · cases ok
    rfl

end Egauth.Service
