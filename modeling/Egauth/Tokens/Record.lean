import Egauth.Core.Principal
import Egauth.Semantics.Result
import Egauth.Semantics.Time

/-! Refresh records, API keys and the requests of the refresh-family store. -/

set_option autoImplicit false

namespace Egauth.Tokens
open Egauth.Core

def hashLen : Nat := 32
def maxFingerprintLen : Nat := 64
def maxAppClaimsLen : Nat := 16 * 1024
def maxAPIKeyLabelLen : Nat := 128

/-- How long after its consumption the same client may present a token again. -/
def reuseGrace : Duration := 10 * Duration.second

inductive Err where
  | notFound
  | conflict
  | invalidRecord (why : Option String)
  | reused
  | concurrent
  | revoked
  deriving DecidableEq, Repr

structure RefreshRow where
  tokenHash : Bytes
  family : UUID
  subject : Subject
  lineage : UUID
  sealedAttrs : Sealed
  appClaims : Bytes
  securityEpoch : UInt64
  clientFingerprint : Bytes
  idleExpiresAt : Time
  familyExpiresAt : Time
  createdAt : Time
  deriving DecidableEq

def RefreshRow.zero : RefreshRow :=
  ⟨[], .nil, .zero, .nil, ⟨[]⟩, [], 0, [], 0, 0, 0⟩

def checkRefreshRow (r : RefreshRow) : Option String :=
  if r.tokenHash.length ≠ hashLen then some "token hash must be a SHA-256 digest"
  else if r.family = .nil ∨ r.lineage = .nil then some "family and lineage are required"
  else if r.subject.isZero then some "subject is required"
  else if r.sealedAttrs.isZero then some "sealed session attributes are required"
  else if r.appClaims.length > maxAppClaimsLen then some "application claims are too large"
  else if r.clientFingerprint.length > maxFingerprintLen then some "client fingerprint is too long"
  else if r.createdAt = 0 ∨ r.idleExpiresAt = 0 ∨ r.familyExpiresAt = 0 then
    some "creation and expiry times are required"
  else if ¬ r.idleExpiresAt > r.createdAt ∨ r.idleExpiresAt > r.familyExpiresAt then
    some "idle expiry must fall after creation and within the family lifetime"
  else none

/-- A record is the zero value or was accepted by `RestoreRefreshRecord`, through
which `NewRefreshRecord` goes too. -/
structure RefreshRecord where
  row : RefreshRow
  built : row = .zero ∨ checkRefreshRow row = none

def restoreRefreshRecord (r : RefreshRow) : Except Err RefreshRecord :=
  match accepted : checkRefreshRow r with
  | none => .ok ⟨r, .inr accepted⟩
  | some why => .error (.invalidRecord (some why))

def RefreshRecord.isZero (r : RefreshRecord) : Bool := r.row.tokenHash.isEmpty

def RefreshRecord.tenant (r : RefreshRecord) : TenantID := r.row.subject.tenant

/-- What an accepted row guarantees to the code that reads it back. -/
structure RefreshRow.Valid (r : RefreshRow) : Prop where
  hash : r.tokenHash.length = hashLen
  idle : r.idleExpiresAt ≤ r.familyExpiresAt

theorem checkRefreshRow_valid {r : RefreshRow} (accepted : checkRefreshRow r = none) : r.Valid := by
  simp only [checkRefreshRow, ite_some_eq_none, not_or, not_not, gt_iff_lt, not_lt] at accepted
  obtain ⟨hash, -, -, -, -, -, -, ⟨-, order⟩, -⟩ := accepted
  exact ⟨hash, order⟩

theorem restoreRefreshRecord_ok {r : RefreshRow} {record : RefreshRecord}
    (restored : restoreRefreshRecord r = .ok record) : checkRefreshRow r = none ∧ record.row = r := by
  unfold restoreRefreshRecord at restored
  split at restored <;> try contradiction
  next accepted =>
  cases restored
  exact ⟨accepted, rfl⟩

structure RotationRequest where
  presented : Bytes
  next : RefreshRecord

structure Rotation where
  family : UUID
  consumedAt : Time
  deriving DecidableEq

structure ReissueRequest where
  family : UUID
  next : RefreshRecord

structure FamilyState where
  subject : Subject
  lineage : UUID
  revoked : Bool
  expiresAt : Time
  deriving DecidableEq

def FamilyState.live (f : FamilyState) (now : Time) : Bool := !f.revoked && decide (now < f.expiresAt)

structure Revocation where
  tenant : TenantID
  family : UUID
  instant : Time
  deriving DecidableEq

structure APIKey where
  id : UUID
  owner : Subject
  kind : Bytes
  name : Bytes
  keyHash : Bytes
  appClaims : Bytes
  createdEpoch : UInt64
  createdAt : Time
  expiresAt : Time
  revokedAt : Time
  deriving DecidableEq

def APIKey.validate (k : APIKey) : Option Err :=
  if k.id = .nil then some (.invalidRecord (some "id is required"))
  else if k.owner.isZero then some (.invalidRecord (some "owner is required"))
  else if k.kind = [] ∨ k.kind.length > maxAPIKeyLabelLen ∨ k.name.length > maxAPIKeyLabelLen then
    some (.invalidRecord (some "kind is required and labels are bounded"))
  else if k.keyHash.length ≠ hashLen then
    some (.invalidRecord (some "key hash must be a SHA-256 digest"))
  else if k.appClaims.length > maxAppClaimsLen then
    some (.invalidRecord (some "application claims are too large"))
  else if k.createdAt = 0 then some (.invalidRecord (some "creation time is required"))
  else if k.expiresAt ≠ 0 ∧ ¬ k.expiresAt > k.createdAt then
    some (.invalidRecord (some "expiry must fall after creation"))
  else none

end Egauth.Tokens
