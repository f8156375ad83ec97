import Egauth.Service.Endpoints

/-! The requests that check a short code against its ceremony record.

A request is a program of calls of the ceremony store, in which the comparison
of the presented code with a stored digest is a call of its own. Every call
reads the clock anew; the readings are arbitrary. A call may fail without
effect. The requests that only write other records, and what reaps, evicts and
erases them, run beside as single calls.
-/

set_option autoImplicit false

namespace Egauth.Codes
open Egauth.Core Ceremony
open Service (Problem)

/-- A comparison names the record it is made against, none for the decoy. -/
inductive Call where
  | peek (t : TenantID) (k : Kind) (h : Digest)
  | recordFailure (t : TenantID) (k : Kind) (h : Digest)
  | consume (t : TenantID) (k : Kind) (h : Digest)
  | compare (against : Option Key) (digest code : Bytes)
  | put (r : Record)
  | deleteForScope (t : TenantID) (scope : Digest) (kinds : List Kind)
  | eraseTenant (t : TenantID)
  | reapExpired

abbrev Reply : Call → Type
  | .peek .. | .consume .. => Except Ceremony.Err Record
  | .recordFailure .. => Except Ceremony.Err Int
  | .compare .. => Bool
  | .put _ | .deleteForScope .. | .reapExpired => Except Ceremony.Err Nat
  | .eraseTenant _ => Except Ceremony.Err Unit

abbrev Program (A : Type) := Prog Call Reply Problem A

abbrev ask (c : Call) : Program (Reply c) := Prog.perform c

structure Turn where
  clk : Time
  fault : Bool

/-- `emailCodes` and `smsCodes` say which kinds are offered; the decoy is checked where no record is found. -/
structure Config where
  base : Service.Config
  emailCodes : Bool
  smsCodes : Bool
  decoyHandle : Digest
  decoyCode : Bytes
  verifyBind : Bytes → Bytes → Bool

section
variable (cfg : Config) (o : Turn) (s : Store)

def exec : (c : Call) → Reply c × Store
  | .peek t k h => performed o.fault .context s (s, s.peek o.clk t k h)
  | .recordFailure t k h => performed o.fault .context s (s.recordFailure o.clk t k h)
  | .consume t k h => performed o.fault .context s (s.consume o.clk t k h)
  | .compare _ digest code => (cfg.base.codeMatches digest code, s)
  | .put r => performed o.fault .context s (s.put o.clk r)
  | .deleteForScope t scope kinds =>
    performed o.fault .context s ((s.deleteForScope t scope kinds).1, .ok (s.deleteForScope t scope kinds).2)
  | .eraseTenant t => performed o.fault .context s (s.eraseTenant t, .ok ())
  | .reapExpired => performed o.fault .context s ((s.reapExpired o.clk).1, .ok (s.reapExpired o.clk).2)

end

def codeDigits : Nat := 6

def wellFormedCode (code : Bytes) : Bool := code.length = codeDigits && code.all fun c => 48 ≤ c && c ≤ 57

def codeKinds (cfg : Config) : List Kind :=
  (if cfg.emailCodes then [.emailCode] else []) ++ if cfg.smsCodes then [.smsCode] else []

/-- The handle is the hash that `ParseHandle` leads to, and the code is trimmed. -/
structure CodeRequest where
  tenant : TenantID
  handle : Option Digest
  code : Bytes
  bindField : Bytes
  bindCookie : Bytes

def presentedBind (cfg : Config) (r : CodeRequest) (p : Pending) : Bool :=
  cfg.verifyBind (if p.transport = some .bearer then r.bindField else r.bindCookie) p.bindHash

def openBound (rec : Record) (t : TenantID) (invalid : Problem) : Except Problem (Pending × Subject) :=
  let p := rec.row.pending
  if !p.bound then .error invalid
  else if p.tenant ≠ t ∨ rec.row.tenant ≠ t ∨ p.subject.tenant ≠ t then .error .unauthenticated
  else .ok (p, p.subject)

def lookupProblem (invalid : Problem) : Ceremony.Err → Problem
  | .notFound => invalid
  | _ => .serviceUnavailable

/-- The loop of `find`: every kind is looked up, the first record that is found counts. -/
def findLoop (t : TenantID) (h : Digest) : List Kind → Option (Record × Kind) → Program (Option (Record × Kind))
  | [], found => pure found
  | k :: kinds, found => do
    match ← ask (.peek t k h) with
    | .ok rec => findLoop t h kinds (found.or (some (rec, k)))
    | .error .notFound => findLoop t h kinds found
    | .error _ => .fail .serviceUnavailable

def decoyCheck (cfg : Config) (t : TenantID) (code : Bytes) : Program Unit :=
  match codeKinds cfg with
  | [] => pure ()
  | k :: _ => do
    let _ ← ask (.recordFailure t k cfg.decoyHandle)
    let _ ← ask (.compare none cfg.decoyCode code)

/-- The digest in the payload of a code record. -/
def codeIn (k : Kind) (rec : Record) : Option Bytes :=
  match decode (if k = .smsCode then .smsCode else .emailCode) rec.row.payload with
  | some (.code digest) => some digest
  | _ => none

/-- The attempt is charged before the comparison; the last one has removed the record already. -/
def redeem (t : TenantID) (k : Kind) (hash : Digest) (digest code : Bytes) (p : Pending) (sub : Subject) :
    Program (Pending × Subject × Kind) := do
  let remaining ← Prog.ofExcept (lookupProblem .invalidCode) (← ask (.recordFailure t k hash))
  if !(← ask (.compare (some ⟨t, k, hash⟩) digest code)) then .fail .invalidCode
  else if remaining = 0 then pure (p, sub, k)
  else
    let rec ← Prog.ofExcept (lookupProblem .invalidCode) (← ask (.consume t k hash))
    let (p, sub) ← Prog.ofExcept id (openBound rec t .invalidCode)
    pure (p, sub, k)

def checkCode (cfg : Config) (r : CodeRequest) : Program (Pending × Subject × Kind) := do
  let hash ← Prog.ofOption .invalidCode r.handle
  if !wellFormedCode r.code then .fail .invalidCode
  else
    match ← findLoop r.tenant hash (codeKinds cfg) none with
    | none =>
      decoyCheck cfg r.tenant r.code
      .fail .invalidCode
    | some (rec, k) =>
      let (p, sub) ← Prog.ofExcept id (openBound rec r.tenant .invalidCode)
      if !presentedBind cfg r p then
        decoyCheck cfg r.tenant r.code
        .fail .invalidCode
      else
        let digest ← Prog.ofOption .invalidCode (codeIn k rec)
        redeem r.tenant k hash digest r.code p sub

structure PhoneRequest where
  tenant : TenantID
  handle : Option Digest
  code : Bytes
  subject : Subject

def consumeChecked (t : TenantID) (hash : Digest) (rec : Record) (remaining : Int) : Program Record :=
  if remaining > 0 then do Prog.ofExcept Service.ceremonyProblem (← ask (.consume t .phoneVerification hash))
  else pure rec

open Service in
def checkPhoneCode (cfg : Config) (r : PhoneRequest) : Codes.Program (Identity.Identifier × Pending) := do
  let hash ← Prog.ofOption .invalidToken r.handle
  let rec ← Prog.ofExcept ceremonyProblem (← Codes.ask (.peek r.tenant .phoneVerification hash))
  let _ ← Prog.ofOption .invalidToken
    (if rec.scopedTo (subjectScope r.subject) then openedFor rec r.tenant r.subject else none)
  let (digest, _) ← Prog.ofOption .invalidToken (phoneIn rec)
  let remaining ← Prog.ofExcept ceremonyProblem (← Codes.ask (.recordFailure r.tenant .phoneVerification hash))
  if !(← Codes.ask (.compare (some ⟨r.tenant, .phoneVerification, hash⟩) digest r.code)) then .fail .invalidCode
  else
    let rec ← Codes.consumeChecked r.tenant hash rec remaining
    let p ← Prog.ofOption .invalidToken (openedFor rec r.tenant r.subject)
    let (_, number) ← Prog.ofOption .invalidToken (phoneIn rec)
    let phone ← Prog.ofOption .invalidToken (newIdentifier cfg.base .phone number)
    pure (phone, p)

end Egauth.Codes
