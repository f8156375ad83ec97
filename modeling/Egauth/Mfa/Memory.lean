import Egauth.Core.Principal
import Egauth.Data.Map
import Egauth.Semantics.Time

/-! The in-process store of TOTP enrollments and recovery codes.

Every operation runs under the store's mutex, so it is one function on the
state; `clk` is what the clock reads where the operation reads it. A call whose
context has already ended returns before it reads anything and is not modelled.
The position of a row, the listing of legacy rows and the counts over all
tenants serve the startup checks; they are left out.
-/

set_option autoImplicit false

namespace Egauth.Mfa
open Egauth.Core

def aadVersionCurrent : UInt8 := 1

inductive Err where
  | context
  | notFound
  | invalidSubject
  | invalidEnrollment
  | invalidLockout
  | invalidCodeHashes
  | legacyAADVersion
  | invalidReseal
  deriving DecidableEq, Repr

structure Enrollment where
  subject : Subject
  sealedSecret : Bytes
  aadVersion : UInt8
  confirmedAt : Option Time
  lastUsedStep : Int
  failedAttempts : Int
  lastAttemptAt : Time
  createdAt : Time
  deriving DecidableEq

def Enrollment.confirmed (e : Enrollment) : Bool := e.confirmedAt.isSome

structure Lockout where
  subject : Subject
  now : Time
  max : Int
  duration : Duration
  deriving DecidableEq

structure Counter where
  failed : Int
  last : Time
  deriving DecidableEq

/-- `codes` holds whether each hash has been used. -/
structure Store where
  totp : Map Subject Enrollment
  codes : Map Subject (Map Bytes Bool)
  recovery : Map Subject Counter

def checkEnrollment (e : Enrollment) : Option Err :=
  if e.subject.isZero then some .invalidSubject
  else if e.aadVersion ≠ aadVersionCurrent then some .legacyAADVersion
  else if e.sealedSecret.length = 0 ∨ e.failedAttempts < 0 then some .invalidEnrollment
  else none

def checkHashes (hashes : List Bytes) : Option Err :=
  if [] ∈ hashes ∨ ¬ hashes.Nodup then some .invalidCodeHashes else none

def checkLockout (l : Lockout) : Option Err :=
  if l.subject.isZero then some .invalidSubject
  else if l.max < 1 ∨ l.duration < 0 ∨ l.now = 0 then some .invalidLockout
  else none

def bump (c : Counter) (l : Lockout) : Counter × Int :=
  let now := l.now.truncate
  if c.failed < l.max then (⟨c.failed + 1, now⟩, c.failed + 1)
  else if l.duration > 0 ∧ c.last ≠ 0 ∧ now.sub c.last > l.duration then (⟨1, now⟩, 1)
  else (c, l.max + 1)

namespace Store

def new : Store := ⟨∅, ∅, ∅⟩

def eraseTenant (s : Store) (t : TenantID) : Store where
  totp := s.totp.eraseWhere fun sub => sub.tenant = t
  codes := s.codes.eraseWhere fun sub => sub.tenant = t
  recovery := s.recovery.eraseWhere fun sub => sub.tenant = t

/-- An enrollment as it is kept; `clk` dates one that has no date. -/
def kept (clk : Time) (e : Enrollment) : Enrollment :=
  { e with
    confirmedAt := e.confirmedAt.map Time.truncate
    createdAt := if e.createdAt = 0 then clk.truncate else e.createdAt.truncate
    lastAttemptAt := if e.lastAttemptAt ≠ 0 then e.lastAttemptAt.truncate else e.lastAttemptAt }

def putTOTP (s : Store) (clk : Time) (e : Enrollment) : Store :=
  { s with totp := s.totp.insert e.subject (kept clk e) }

def saveTOTP (s : Store) (clk : Time) (e : Enrollment) : Store × Except Err Unit :=
  match checkEnrollment e with
  | some err => (s, .error err)
  | none => (s.putTOTP clk e, .ok ())

def getTOTP (s : Store) (sub : Subject) : Except Err Enrollment :=
  match s.totp.lookup sub with
  | none => .error .notFound
  | some e => .ok e

def deleteTOTP (s : Store) (sub : Subject) : Store := { s with totp := s.totp.erase sub }

def hasConfirmedTOTP (s : Store) (sub : Subject) : Bool :=
  match s.totp.lookup sub with
  | none => false
  | some e => e.confirmed

/-- False for a replay. -/
def markTOTPUsed (s : Store) (sub : Subject) (step : Int) : Store × Bool :=
  match s.totp.lookup sub with
  | none => (s, false)
  | some e =>
    if step ≤ e.lastUsedStep then (s, false)
    else
      let e := { e with lastUsedStep := step, failedAttempts := 0, lastAttemptAt := 0 }
      ({ s with totp := s.totp.insert sub e }, true)

def incrementTOTPAttempts (s : Store) (l : Lockout) : Store × Except Err Int :=
  match checkLockout l with
  | some err => (s, .error err)
  | none =>
    match s.totp.lookup l.subject with
    | none => (s, .error .notFound)
    | some e =>
      let (next, n) := bump ⟨e.failedAttempts, e.lastAttemptAt⟩ l
      ({ s with
        totp := s.totp.insert l.subject { e with failedAttempts := next.failed, lastAttemptAt := next.last } }, .ok n)

def resetTOTPAttempts (s : Store) (sub : Subject) : Store :=
  match s.totp.lookup sub with
  | none => s
  | some e => { s with totp := s.totp.insert sub { e with failedAttempts := 0, lastAttemptAt := 0 } }

def replaceCodes (s : Store) (sub : Subject) (hashes : List Bytes) : Store :=
  let codes := s.codes.erase sub
  { s with
    recovery := s.recovery.erase sub
    codes := if hashes.length = 0 then codes else codes.insert sub (hashes.foldl (fun set h => set.insert h false) ∅) }

def carryOver (s : Store) (e : Enrollment) : Enrollment :=
  match s.totp.lookup e.subject with
  | none => e
  | some cur =>
    { e with
      lastUsedStep := max e.lastUsedStep cur.lastUsedStep
      failedAttempts := cur.failedAttempts
      lastAttemptAt := cur.lastAttemptAt
      createdAt := if e.createdAt = 0 then cur.createdAt else e.createdAt }

def confirmEnrollment (s : Store) (clk : Time) (e : Enrollment) (hashes : List Bytes) : Store × Except Err Unit :=
  match checkEnrollment e with
  | some err => (s, .error err)
  | none =>
    if e.confirmedAt = none then (s, .error .invalidEnrollment)
    else
      match checkHashes hashes with
      | some err => (s, .error err)
      | none => ((s.putTOTP clk (s.carryOver e)).replaceCodes e.subject hashes, .ok ())

def replaceRecoveryCodes (s : Store) (sub : Subject) (hashes : List Bytes) : Store × Except Err Unit :=
  if sub.isZero then (s, .error .invalidSubject)
  else
    match checkHashes hashes with
    | some err => (s, .error err)
    | none => (s.replaceCodes sub hashes, .ok ())

def consumeRecoveryCode (s : Store) (sub : Subject) (hash : Bytes) : Store × Except Err Unit :=
  let set := (s.codes.lookup sub).getD ∅
  match set.lookup hash with
  | some false =>
    let s := { s with codes := s.codes.insert sub (set.insert hash true) }.resetTOTPAttempts sub
    ({ s with recovery := s.recovery.erase sub }, .ok ())
  | _ => (s, .error .notFound)

def deleteRecoveryCodes (s : Store) (sub : Subject) : Store := s.replaceCodes sub []

def incrementRecoveryAttempts (s : Store) (l : Lockout) : Store × Except Err Int :=
  match checkLockout l with
  | some err => (s, .error err)
  | none =>
    let (next, n) := bump ((s.recovery.lookup l.subject).getD ⟨0, 0⟩) l
    ({ s with recovery := s.recovery.insert l.subject next }, .ok n)

def resetRecoveryAttempts (s : Store) (sub : Subject) : Store := { s with recovery := s.recovery.erase sub }

def deleteForSubject (s : Store) (sub : Subject) : Store where
  totp := s.totp.erase sub
  codes := s.codes.erase sub
  recovery := s.recovery.erase sub

def replaceSealed (s : Store) (sub : Subject) (old fresh : Bytes) : Store × Except Err Bool :=
  if sub.isZero ∨ old.length = 0 ∨ fresh.length = 0 then (s, .error .invalidReseal)
  else
    match s.totp.lookup sub with
    | none => (s, .ok false)
    | some e =>
      if e.sealedSecret ≠ old then (s, .ok false)
      else
        let e := { e with sealedSecret := fresh, aadVersion := aadVersionCurrent }
        ({ s with totp := s.totp.insert sub e }, .ok true)

def Keyed (s : Store) : Prop := ∀ sub e, s.totp.lookup sub = some e → e.subject = sub

variable {s : Store} {sub : Subject}

theorem Keyed.insert (keyed : s.Keyed) {e : Enrollment} (named : e.subject = sub) :
    Keyed { s with totp := s.totp.insert sub e } := by
  intro sub' e' found
  rw [Map.lookup_insert_eq] at found
  split at found
  next same =>
    cases found
    exact named.trans same.symm
  next => exact keyed sub' e' found

theorem subject_carryOver (s : Store) (e : Enrollment) : (s.carryOver e).subject = e.subject := by
  unfold carryOver
  split <;> rfl

theorem confirmed_carryOver (s : Store) (e : Enrollment) : (s.carryOver e).confirmedAt = e.confirmedAt := by
  unfold carryOver
  split <;> rfl

theorem confirmEnrollment_cases (s : Store) (clk : Time) (e : Enrollment) (hashes : List Bytes) :
    (∃ err, s.confirmEnrollment clk e hashes = (s, .error err)) ∨
      checkEnrollment e = none ∧ e.confirmedAt.isSome = true ∧
        s.confirmEnrollment clk e hashes = ((s.putTOTP clk (s.carryOver e)).replaceCodes e.subject hashes, .ok ()) := by
  unfold confirmEnrollment
  split
  · exact .inl ⟨_, rfl⟩
  next valid =>
    split
    · exact .inl ⟨_, rfl⟩
    next confirmed =>
      split
      · exact .inl ⟨_, rfl⟩
      · exact .inr ⟨valid, Option.isSome_iff_ne_none.mpr confirmed, rfl⟩

theorem hasConfirmedTOTP_confirmEnrollment {clk : Time} {e : Enrollment} {hashes : List Bytes} {s' : Store}
    (confirms : s.confirmEnrollment clk e hashes = (s', .ok ())) : s'.hasConfirmedTOTP e.subject = true := by
  rcases confirmEnrollment_cases s clk e hashes with ⟨err, same⟩ | ⟨-, confirmed, same⟩
  · rw [same] at confirms
    cases confirms
  · rw [same] at confirms
    cases confirms
    simp [hasConfirmedTOTP, replaceCodes, putTOTP, subject_carryOver, Enrollment.confirmed, kept, confirmed_carryOver,
      confirmed]

end Store
end Egauth.Mfa
