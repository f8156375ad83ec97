import Egauth.Codes.Check
import Egauth.Passkey.Assertion

/-! The requests that complete a parked login.

A login that needs a second factor is parked as an MFAFlow record. A request is
a program of calls of the ceremony store, of the stores of second factors and
of `Complete`, which ends the login. A record holds a Pending in place of its
sealed bytes; the two determine each other, so that comparing the bytes is
comparing Pendings. Cookies, audit events and responses are left out.
-/

set_option autoImplicit false

namespace Egauth.Flow
open Egauth.Core Ceremony

/-- A completion names the record it is made for. -/
inductive Call where
  | store (c : Codes.Call)
  | mfa (sub : Subject) (c : Mfa.Call)
  | passkey (c : Passkey.Call)
  | complete (record : Key) (p : Pending) (v : Verified)

/-- `Complete` answers whether it returned no error. -/
abbrev Reply : Call → Type
  | .store c => Codes.Reply c
  | .mfa _ c => Mfa.Reply c
  | .passkey c => Passkey.Reply c
  | .complete .. => Bool

abbrev Event := (c : Call) × Reply c

inductive Problem where
  | invalidFactor
  | invalidFlow
  | serviceUnavailable
  | second (problem : Mfa.Problem)
  | stepUp (problem : Passkey.Problem)
  | verified (err : Core.Err)
  | incomplete

abbrev Program (A : Type) := Prog Call Reply Problem A

abbrev ask (c : Call) : Program (Reply c) := Prog.perform c

/-- The subject of `mfa` is set anew for each request. -/
structure Config where
  codes : Codes.Config
  mfa : Mfa.Config

structure World where
  ceremonies : Store
  mfa : Mfa.Store
  passkeys : Passkey.Store

structure Turn where
  store : Codes.Turn
  mfa : Mfa.Turn
  passkey : Passkey.Turn
  completes : Bool

def exec (cfg : Config) (o : Turn) (w : World) : (c : Call) → Reply c × World
  | .store c =>
    ((Codes.exec cfg.codes o.store w.ceremonies c).1,
      { w with ceremonies := (Codes.exec cfg.codes o.store w.ceremonies c).2 })
  | .mfa sub c =>
    ((Mfa.exec { cfg.mfa with subject := sub } o.mfa w.mfa c).1,
      { w with mfa := (Mfa.exec { cfg.mfa with subject := sub } o.mfa w.mfa c).2 })
  | .passkey c =>
    ((Passkey.exec o.passkey w.passkeys c).1, { w with passkeys := (Passkey.exec o.passkey w.passkeys c).2 })
  | .complete .. => (o.completes, w)

/-- The handle as a field of the request and in the flow cookie: absent, or what `ParseHandle` leads to. -/
structure Presented where
  tenant : TenantID
  field : Option (Option Digest)
  cookie : Option (Option Digest)

/-- The hash of the handle, and whether it came in the cookie. -/
def presented (r : Presented) : Except Problem (Digest × Bool) :=
  match r.field, r.cookie with
  | some (some h), _ => .ok (h, false)
  | some none, _ => .error .invalidFlow
  | none, some (some h) => .ok (h, true)
  | none, _ => .error .invalidFlow

structure Parked where
  record : Key
  pending : Pending
  fromCookie : Bool

def lookupProblem : Ceremony.Err → Problem
  | .notFound => .invalidFlow
  | _ => .serviceUnavailable

def openFlow (r : Presented) : Program Parked := do
  let (h, fromCookie) ← Prog.ofExcept id (presented r)
  let rec ← Prog.ofExcept lookupProblem (← ask (.store (.peek r.tenant .mfaFlow h)))
  let p := rec.row.pending
  if !p.bound ∨ p.reauthOf ≠ .nil ∨ p.tenant ≠ r.tenant ∨ rec.row.tenant ≠ r.tenant ∨
      !rec.scopedTo (subjectScope p.subject) then .fail .invalidFlow
  else if decide (p.transport = some .cookies) ≠ fromCookie then .fail .invalidFlow
  else pure ⟨⟨r.tenant, .mfaFlow, h⟩, p, fromCookie⟩

/-- The failure of a charge is not one of the request. -/
def charge (f : Parked) : Program Unit := do
  let _ ← ask (.store (.recordFailure f.record.tenant f.record.kind f.record.handle))

def finish (f : Parked) (v : Verified) : Program Unit := do
  let rec ← Prog.ofExcept lookupProblem (← ask (.store (.consume f.record.tenant f.record.kind f.record.handle)))
  if rec.row.pending ≠ f.pending then .fail .invalidFlow
  else
    let done ← ask (.complete f.record f.pending v)
    if done then pure () else .fail .incomplete

def factorOf : Mfa.Counted → Factor
  | .totp => .totp
  | .recovery => .recoveryCode

def second (sub : Subject) (f : Mfa.Counted) (now : Time) : Except Core.Err Verified :=
  newVerified ⟨sub, [factorOf f], [], false, [], now⟩

/-- The factor is none where `ParseFactor` refuses it; the code is trimmed. -/
structure Challenge where
  flow : Presented
  factor : Option Mfa.Counted
  code : Bytes

def refused (f : Parked) (problem : Mfa.Problem) : Program Unit := do
  if problem = .invalidCode ∨ problem = .tooManyAttempts then charge f
  .fail (.second problem)

def challenge (cfg : Config) (r : Challenge) : Program Unit := do
  let factor ← Prog.ofOption .invalidFactor r.factor
  let f ← openFlow r.flow
  let sub := f.pending.subject
  match ← (Mfa.verify { cfg.mfa with subject := sub } factor r.code).embed (Call.mfa sub) (fun _ r => r) with
  | .error problem => refused f problem
  | .ok now =>
    let v ← Prog.ofExcept .verified (second sub factor now)
    finish f v

/-- The Pending and the subject that an MFAPasskey record was begun for. -/
def consumeSubjectCeremony (t : TenantID) (handle : Option Digest) :
    Program (Except Passkey.Problem (Pending × Subject)) :=
  match handle with
  | none => pure (.error .passkeyRejected)
  | some h => do
    match ← ask (.store (.consume t .mfaPasskey h)) with
    | .error .notFound => pure (.error .passkeyRejected)
    | .error _ => pure (.error .serviceUnavailable)
    | .ok rec =>
      let p := rec.row.pending
      if !p.bound ∨ p.tenant ≠ t ∨ rec.row.tenant ≠ t ∨ p.subject.tenant ≠ t then pure (.error .passkeyRejected)
      else if decode .mfaPasskey rec.row.payload = none then pure (.error .passkeyRejected)
      else pure (.ok (p, p.subject))

/-- The assertion is none where it cannot be parsed. -/
structure StepUp where
  flow : Presented
  handle : Option Digest
  assertion : Option Passkey.Assertion

def verifyAssertion (sub : Subject) (assertion : Option Passkey.Assertion) :
    Program (Except Passkey.Problem Verified) :=
  match assertion with
  | none => pure (.error .passkeyRejected)
  | some a => (Passkey.verifySubjectAssertion sub true a).embed Call.passkey fun _ r => r

def finishStepUp (r : StepUp) : Program (Except Passkey.Problem (Pending × Verified)) := do
  match ← consumeSubjectCeremony r.flow.tenant r.handle with
  | .error problem => pure (.error problem)
  | .ok (p, sub) =>
    if p.reauthOf ≠ .nil then pure (.error .passkeyRejected)
    else
      let result ← verifyAssertion sub r.assertion
      pure (result.map fun v => (p, v))

def rejected (f : Parked) (problem : Passkey.Problem) : Program Unit := do
  match problem with
  | .passkeyRejected => charge f
  | _ => pure ()
  .fail (.stepUp problem)

def passkeyFinish (r : StepUp) : Program Unit := do
  let f ← openFlow r.flow
  match ← finishStepUp r with
  | .error problem => rejected f problem
  | .ok (p, v) => if p ≠ f.pending then .fail .invalidFlow else finish f v

inductive Request where
  | challenge (r : Challenge)
  | passkeyFinish (r : StepUp)
  | other (c : Call)

def Request.program (cfg : Config) : Request → Program Unit
  | .challenge r => Flow.challenge cfg r
  | .passkeyFinish r => Flow.passkeyFinish r
  | .other c => do
    let _ ← ask c

end Egauth.Flow
