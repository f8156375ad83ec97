import Egauth.Core.Codec
import Egauth.Mfa.Memory
import Egauth.Semantics.Discipline

/-! The requests that verify, enroll, confirm and remove a second factor of one subject.

A request is a program of calls. A comparison is a call of its own, and a call
of `MarkTOTPUsed` names the secret that the code matched, which the store does
not see. What the key-encryption key, the random source, the identity store and
the passkey store answer is arbitrary; a value that was sealed opens to what it
was sealed from. The audit events and the responses are left out.
-/

set_option autoImplicit false

namespace Egauth.Mfa
open Egauth.Core

def maxAttempts : Int := 5

def lockoutDuration : Duration := 15 * Duration.minute

def totpDigits : Nat := 6

def totpPeriod : Int := 30

def totpSkew : Int := 1

def maxRecoveryInput : Nat := 64

inductive Counted where
  | totp
  | recovery
  deriving DecidableEq, Repr

inductive Call where
  | getTOTP
  | hasConfirmedTOTP
  | hasActivePasskey
  | now
  | reserve (f : Counted)
  | openSealed (value : Bytes)
  | sealSecret (secret : Bytes)
  | replaceSealed (old fresh : Bytes)
  | compare (secret code : Bytes)
  | markTOTPUsed (secret : Bytes) (step : Int)
  | consumeRecoveryCode (hash : Bytes)
  | resetRecoveryAttempts
  | bumpEpoch
  | newSecret
  | newRecoveryCodes
  | saveTOTP (e : Enrollment)
  | confirmEnrollment (e : Enrollment) (hashes : List Bytes)
  | deleteTOTP
  | deleteRecoveryCodes
  | replaceRecoveryCodes (hashes : List Bytes)
  | deleteForSubject
  | eraseTenant

/-- A reservation answers with the clock reading it was made at. -/
abbrev Reply : Call → Type
  | .getTOTP => Except Err Enrollment
  | .hasConfirmedTOTP | .hasActivePasskey | .markTOTPUsed .. | .replaceSealed .. => Except Err Bool
  | .now => Time
  | .reserve _ => Time × Except Err Int
  | .openSealed _ => Option (Bytes × Bool)
  | .sealSecret _ | .newSecret => Option Bytes
  | .newRecoveryCodes => Option (List Bytes)
  | .compare .. => Option Int
  | .consumeRecoveryCode _ | .resetRecoveryAttempts | .bumpEpoch | .saveTOTP _ | .confirmEnrollment ..
  | .deleteTOTP | .deleteRecoveryCodes | .replaceRecoveryCodes _ | .deleteForSubject | .eraseTenant => Except Err Unit

abbrev Event := (c : Call) × Reply c

inductive Problem where
  | invalidCode
  | tooManyAttempts
  | serviceUnavailable
  | alreadyEnrolled
  | noPendingEnrollment
  | notEnrolled
  | noSecondFactor
  | internal
  deriving DecidableEq, Repr

abbrev Program (A : Type) := Prog Call Reply Problem A

abbrev ask (c : Call) : Program (Reply c) := Prog.perform c

/-- `secret` is what a sealed value opens to, and `stale` whether it is sealed again then. -/
structure Config where
  subject : Subject
  secret : Bytes → Option Bytes
  stale : Bytes → Bool
  decodeSecret : Bytes → Option Bytes
  hotp : Bytes → Nat → Bytes
  normalizeRecoveryCode : Bytes → Bytes
  hashRecoveryCode : Bytes → Bytes

/-- What a call learns from elsewhere: the clock, whether it fails without effect, random or sealed bytes, the
hashes of drawn recovery codes, and whether the subject has an active passkey. -/
structure Turn where
  now : Time
  fault : Bool
  bytes : Option Bytes
  hashes : Option (List Bytes)
  active : Bool

/-- `matchTOTP`: the first of the steps around now whose code it is. -/
def matchTOTP (hotp : Bytes → Nat → Bytes) (key code : Bytes) (now : Time) : Option Int :=
  let step := ((now - unixEpoch) / Duration.second).tdiv totpPeriod
  [step - totpSkew, step, step + totpSkew].find? fun c => 0 ≤ c ∧ hotp key c.toNat = code

section
variable (cfg : Config) (o : Turn) (s : Store)

def lockout (now : Time) : Lockout := ⟨cfg.subject, now, maxAttempts, lockoutDuration⟩

def reserved (f : Counted) : Store × Except Err Int :=
  match f with
  | .totp => s.incrementTOTPAttempts (lockout cfg o.now)
  | .recovery => s.incrementRecoveryAttempts (lockout cfg o.now)

def exec : (c : Call) → Reply c × Store
  | .getTOTP => performed o.fault .context s (s, s.getTOTP cfg.subject)
  | .hasConfirmedTOTP => performed o.fault .context s (s, .ok (s.hasConfirmedTOTP cfg.subject))
  | .hasActivePasskey => performed o.fault .context s (s, .ok o.active)
  | .now => (o.now, s)
  | .reserve f =>
    let (r, s') := performed o.fault .context s (reserved cfg o s f)
    ((o.now, r), s')
  | .openSealed value => (if o.fault then none else (cfg.secret value).map fun secret => (secret, cfg.stale value), s)
  | .sealSecret secret => (o.bytes.filter fun value => cfg.secret value = some secret, s)
  | .replaceSealed old fresh => performed o.fault .context s (s.replaceSealed cfg.subject old fresh)
  | .compare secret code => ((cfg.decodeSecret secret).bind fun key => matchTOTP cfg.hotp key code o.now, s)
  | .markTOTPUsed _ step =>
    performed o.fault .context s ((s.markTOTPUsed cfg.subject step).1, .ok (s.markTOTPUsed cfg.subject step).2)
  | .consumeRecoveryCode hash => performed o.fault .context s (s.consumeRecoveryCode cfg.subject hash)
  | .resetRecoveryAttempts => performed o.fault .context s (s.resetRecoveryAttempts cfg.subject, .ok ())
  | .bumpEpoch => performed o.fault .context s (s, .ok ())
  | .newSecret => (o.bytes, s)
  | .newRecoveryCodes => (o.hashes, s)
  | .saveTOTP e => performed o.fault .context s (s.saveTOTP o.now e)
  | .confirmEnrollment e hashes => performed o.fault .context s (s.confirmEnrollment o.now e hashes)
  | .deleteTOTP => performed o.fault .context s (s.deleteTOTP cfg.subject, .ok ())
  | .deleteRecoveryCodes => performed o.fault .context s (s.deleteRecoveryCodes cfg.subject, .ok ())
  | .replaceRecoveryCodes hashes => performed o.fault .context s (s.replaceRecoveryCodes cfg.subject hashes)
  | .deleteForSubject => performed o.fault .context s (s.deleteForSubject cfg.subject, .ok ())
  | .eraseTenant => performed o.fault .context s (s.eraseTenant cfg.subject.tenant, .ok ())

end

def wellFormedTOTP (code : Bytes) : Bool := code.length == totpDigits && code.all fun c => 48 ≤ c && c ≤ 57

def unavailable (_ : Err) : Problem := .serviceUnavailable

def lookupProblem : Err → Problem
  | .notFound => .invalidCode
  | _ => .serviceUnavailable

/-- A failure to seal again is not one of the request. -/
def reseal (old plaintext : Bytes) : Program Unit := do
  match ← ask (.sealSecret plaintext) with
  | none => pure ()
  | some fresh =>
    let _ ← ask (.replaceSealed old fresh)

def resealWhen (stale : Bool) (old plaintext : Bytes) : Program Unit := if stale then reseal old plaintext else pure ()

def openSecret (cfg : Config) (value : Bytes) : Program Bytes := do
  let (secret, stale) ← Prog.ofOption .serviceUnavailable (← ask (.openSealed value))
  resealWhen stale value secret
  let _ ← Prog.ofOption .serviceUnavailable (cfg.decodeSecret secret)
  pure secret

/-- The code is trimmed. Answers with the enrollment that it matched, and the step. -/
def verifyTOTP (cfg : Config) (code : Bytes) (confirmed : Bool) : Program (Enrollment × Int) :=
  if !wellFormedTOTP code then .fail .invalidCode
  else do
    let e ← Prog.ofExcept lookupProblem (← ask .getTOTP)
    if e.confirmed ≠ confirmed then .fail .invalidCode
    else
      let n ← Prog.ofExcept lookupProblem (← ask (.reserve .totp)).2
      if n > maxAttempts then .fail .tooManyAttempts
      else
        let secret ← openSecret cfg e.sealedSecret
        let step ← Prog.ofOption .invalidCode (← ask (.compare secret code))
        let fresh ← Prog.ofExcept unavailable (← ask (.markTOTPUsed secret step))
        if !fresh then .fail .invalidCode else pure (e, step)

def hasSecondFactor : Program Bool := do
  let totp ← Prog.ofExcept unavailable (← ask .hasConfirmedTOTP)
  if totp then pure true else Prog.ofExcept unavailable (← ask .hasActivePasskey)

def verifyRecovery (cfg : Config) (code : Bytes) : Program Unit :=
  let norm := cfg.normalizeRecoveryCode code
  if norm = [] ∨ code.length > maxRecoveryInput then .fail .invalidCode
  else do
    let has ← hasSecondFactor
    if !has then .fail .invalidCode
    else
      let n ← Prog.ofExcept unavailable (← ask (.reserve .recovery)).2
      if n > maxAttempts then .fail .tooManyAttempts
      else
        Prog.ofExcept lookupProblem (← ask (.consumeRecoveryCode (cfg.hashRecoveryCode norm)))
        let _ ← ask .resetRecoveryAttempts

def verify (cfg : Config) (f : Counted) (code : Bytes) : Program Time :=
  if cfg.subject.isZero then .fail .invalidCode
  else
    match f with
    | .totp => do
      let _ ← verifyTOTP cfg code true
      ask .now
    | .recovery => do
      verifyRecovery cfg code
      ask .now

def previous : Except Err Enrollment → Program (Option Enrollment)
  | .error .notFound => pure none
  | .error _ => .fail .serviceUnavailable
  | .ok prev => if prev.confirmed then .fail .alreadyEnrolled else pure (some prev)

def enroll (cfg : Config) : Program Unit := do
  let prev ← previous (← ask .getTOTP)
  let secret ← Prog.ofOption .internal (← ask .newSecret)
  let value ← Prog.ofOption .serviceUnavailable (← ask (.sealSecret secret))
  let now ← ask .now
  Prog.ofExcept unavailable (← ask (.saveTOTP
    { subject := cfg.subject, sealedSecret := value, aadVersion := aadVersionCurrent, confirmedAt := none
      lastUsedStep := (prev.map Enrollment.lastUsedStep).getD 0
      failedAttempts := (prev.map Enrollment.failedAttempts).getD 0
      lastAttemptAt := (prev.map Enrollment.lastAttemptAt).getD 0, createdAt := now }))

def confirm (cfg : Config) (code : Bytes) : Program Unit := do
  let pending ← Prog.ofExcept (fun err => if err = .notFound then .noPendingEnrollment else .serviceUnavailable)
    (← ask .getTOTP)
  if pending.confirmed then .fail .noPendingEnrollment
  else
    let (e, step) ← verifyTOTP cfg code false
    let hashes ← Prog.ofOption .internal (← ask .newRecoveryCodes)
    Prog.ofExcept unavailable (← ask .bumpEpoch)
    let now ← ask .now
    let e := { e with confirmedAt := some now, lastUsedStep := max e.lastUsedStep step, failedAttempts := 0 }
    Prog.ofExcept unavailable (← ask (.confirmEnrollment e hashes))

def removeTOTP (codes : Bool) : Program Unit := do
  Prog.ofExcept unavailable (← ask .bumpEpoch)
  Prog.ofExcept unavailable (← ask .deleteTOTP)
  if codes then Prog.ofExcept unavailable (← ask .deleteRecoveryCodes) else pure ()

def disable (cfg : Config) (f : Counted) (code : Bytes) : Program Unit := do
  let confirmed ← Prog.ofExcept unavailable (← ask .hasConfirmedTOTP)
  if !confirmed then .fail .notEnrolled
  else
    let _ ← verify cfg f code
    let passkey ← Prog.ofExcept unavailable (← ask .hasActivePasskey)
    removeTOTP (!passkey)

def regenerate : Program Unit := do
  let has ← hasSecondFactor
  if !has then .fail .noSecondFactor
  else
    let hashes ← Prog.ofOption .internal (← ask .newRecoveryCodes)
    Prog.ofExcept unavailable (← ask .bumpEpoch)
    Prog.ofExcept unavailable (← ask (.replaceRecoveryCodes hashes))

inductive Removal where
  | subject
  | tenant

inductive Request where
  | verify (f : Counted) (code : Bytes)
  | enroll
  | confirm (code : Bytes)
  | disable (f : Counted) (code : Bytes)
  | regenerate
  | erase (r : Removal)

def Request.program (cfg : Config) : Request → Program Unit
  | .verify f code => do
    let _ ← Mfa.verify cfg f code
  | .enroll => Mfa.enroll cfg
  | .confirm code => Mfa.confirm cfg code
  | .disable f code => Mfa.disable cfg f code
  | .regenerate => Mfa.regenerate
  | .erase .subject => do
    let _ ← ask .deleteForSubject
  | .erase .tenant => do
    let _ ← ask .eraseTenant

end Egauth.Mfa
