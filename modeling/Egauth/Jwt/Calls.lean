import Egauth.Jwt.Codec
import Egauth.Semantics.Program
import Egauth.Tokens.Memory

/-! What the session backend calls, and what replies.

Each call is one step, and between two of them anything may run. The refresh
families are those of the in-process store. What a call learns from elsewhere
is told by its turn: the clock, a random handle, the answers of the revocation
caches, of the account authority, of the claims source and of the key manager.
A signature verifies if the key has signed that very text.
-/

set_option autoImplicit false

namespace Egauth.Jwt
open Egauth.Core

inductive Alg where
  | edDSA
  | es256
  | rs256
  | hs256
  deriving DecidableEq, Repr

def Alg.name : Alg → Bytes
  | .edDSA => ascii "EdDSA"
  | .es256 => ascii "ES256"
  | .rs256 => ascii "RS256"
  | .hs256 => ascii "HS256"

def keyIDByte (c : UInt8) : Bool :=
  (97 ≤ c && c ≤ 122) || (65 ≤ c && c ≤ 90) || (48 ≤ c && c ≤ 57) || c == 46 || c == 95 || c == 45 || c == 58

/-- A key is bound to one algorithm and one key id, which `checkKeyID` has accepted. -/
structure Key where
  alg : Alg
  kid : Bytes
  material : Bytes
  named : kid ≠ [] ∧ kid.all keyIDByte = true
  deriving DecidableEq

structure Signed where
  algorithm : Bytes
  keyID : Bytes
  input : Bytes
  signature : Bytes

/-- An Ed25519 key has a second name for its algorithm. -/
def Key.accepts (k : Key) (s : Signed) : Bool :=
  (s.algorithm == k.alg.name || (k.alg == .edDSA && s.algorithm == ascii "Ed25519")) && s.keyID == k.kid

inductive EventType where
  | claimsTooLarge
  | claimsUnavailable
  | claimsStale
  | refreshReuseDetected
  | tokenFamilyRevoked
  deriving DecidableEq, Repr

inductive CookieName where
  | accessToken
  | refreshToken
  deriving DecidableEq, Repr

def handleLen : Nat := 32

inductive Call where
  | now
  | newFamily
  | random
  | create (r : Tokens.RefreshRecord)
  | get (t : TenantID) (tokenHash : Bytes)
  | consumeForRotation (req : Tokens.RotationRequest)
  | reissue (req : Tokens.ReissueRequest)
  | revokeFamily (t : TenantID) (family : UUID)
  | live (s : Subject) (family lineage : UUID)
  | checkEpoch (s : Subject) (epoch : UInt64)
  | accountState (s : Subject)
  | mfaDecision (s : Subject)
  | claimsFor (s : Subject)
  | signer (t : TenantID)
  | sign (k : Key) (input : Bytes)
  | verifier (t : TenantID) (kid : Bytes)
  | verifySignature (k : Key) (s : Signed)
  | emit (event : EventType) (s : Subject) (reason : String)
  | setCookie (name : CookieName) (value : Bytes) (remember : Bool) (maxAge : Duration)
  | setHeaders (access refresh : Bytes)

abbrev Reply : Call → Type
  | .now => Time
  | .newFamily => UUID
  | .random => Except Failure (Subtype fun b : Bytes => b.length = handleLen)
  | .create _ | .reissue _ | .revokeFamily .. | .live .. | .checkEpoch .. | .verifySignature .. | .setCookie .. =>
    Except Failure Unit
  | .get .. => Except Failure Tokens.RefreshRecord
  | .consumeForRotation _ => Except Failure Tokens.Rotation
  | .accountState _ => Except Failure AccountState
  | .mfaDecision _ => Except Failure MFADecision
  | .claimsFor _ => Except Failure Bytes
  | .signer _ | .verifier .. => Except Failure Key
  | .sign .. => Except Failure Bytes
  | .emit .. | .setHeaders .. => Unit

abbrev Program (A : Type) := Prog Call Reply Failure A

abbrev ask (c : Call) : Program (Reply c) := Prog.perform c

def demand {A : Type} (reply : Except Failure A) : Program A := Prog.ofExcept id reply

@[simp] theorem demand_ok {A : Type} (a : A) : demand (.ok a) = .ret a := rfl

@[simp] theorem demand_error {A : Type} (err : Failure) : (demand (.error err) : Program A) = .fail err := rfl

/-- The credentials that a client has been given last. -/
structure Credentials where
  access : Bytes := []
  refresh : Bytes := []
  deriving DecidableEq

structure World where
  tokens : Tokens.Store
  signed : List (Key × Bytes × Bytes)
  client : Credentials

def World.new : World := ⟨.new, [], {}⟩

structure Turn where
  clk : Time
  family : UUID
  handle : Except Failure (Subtype fun b : Bytes => b.length = handleLen)
  /-- The error of a call of the store, and whether it took effect all the same. -/
  fault : Call → Option (Bool × Failure)
  live : Except Failure Unit
  epoch : Except Failure Unit
  account : Except Failure AccountState
  mfa : Except Failure MFADecision
  claims : Except Failure Bytes
  signer : Except Failure Key
  signature : Except Failure Bytes
  verifier : Except Failure Key
  cookie : Except Failure Unit

def World.reach {A : Type} (w : World) (o : Turn) (c : Call) (result : Tokens.Store × Except Tokens.Err A) :
    Except Failure A × World :=
  match o.fault c with
  | none => (result.2.mapError fun err => [.tokens err], { w with tokens := result.1 })
  | some (happened, err) => (.error err, if happened then { w with tokens := result.1 } else w)

def World.put (w : World) (name : CookieName) (value : Bytes) : World :=
  match name with
  | .accessToken => { w with client.access := value }
  | .refreshToken => { w with client.refresh := value }

def exec (o : Turn) (w : World) : (c : Call) → Reply c × World
  | .now => (o.clk, w)
  | .newFamily => (o.family, w)
  | .random => (o.handle, w)
  | .create r => w.reach o (.create r) (w.tokens.create r)
  | .get t hash => w.reach o (.get t hash) (w.tokens, w.tokens.get o.clk t hash)
  | .consumeForRotation req => w.reach o (.consumeForRotation req) (w.tokens.consumeForRotation o.clk req)
  | .reissue req => w.reach o (.reissue req) (w.tokens.reissue o.clk req)
  | .revokeFamily t family => w.reach o (.revokeFamily t family) (w.tokens.revokeFamily o.clk t family, .ok ())
  | .live .. => (o.live, w)
  | .checkEpoch .. => (o.epoch, w)
  | .accountState _ => (o.account, w)
  | .mfaDecision _ => (o.mfa, w)
  | .claimsFor _ => (o.claims, w)
  | .signer _ => (o.signer, w)
  | .sign k input =>
    match o.signature with
    | .error err => (.error err, w)
    | .ok signature => (.ok signature, { w with signed := (k, input, signature) :: w.signed })
  | .verifier .. => (o.verifier, w)
  | .verifySignature k s =>
    (if k.accepts s ∧ (k, s.input, s.signature) ∈ w.signed then .ok () else .error [.invalidSignature], w)
  | .emit .. => ((), w)
  | .setCookie name value _ _ => (o.cookie, if o.cookie.isOk then w.put name value else w)
  | .setHeaders access refresh => ((), { w with client := ⟨access, refresh⟩ })

end Egauth.Jwt
