import Egauth.Core.Principal
import Egauth.Data.Map
import Egauth.Semantics.Time
import Mathlib.Data.List.Sort

/-! The in-process store of tenant signing keys.

Every operation runs under the store's mutex, so it is one function on the
state; `clk` is what the clock reads during the call. A call whose context has
already ended returns before it reads anything and is not modelled. The
positions, shared by rows and feed entries, are natural numbers in place of a
64-bit counter. A pointer to a row is the row itself, known by its position.
-/

set_option autoImplicit false

namespace Egauth.Keys
open Egauth.Core

def aadVersionCurrent : UInt8 := 1

def feedRetention : Duration := 24 * Duration.hour

/-- The errors of the writing methods, joined with the reason where the source joins one. -/
inductive Err where
  | tenantTombstoned
  | invalidRotation (why : Option String)
  | legacyAADVersion
  | invalidKey
  | conflict (why : Option String)
  deriving DecidableEq, Repr

structure Key where
  tenant : TenantID
  keyID : Bytes
  alg : Bytes
  sealedKey : Bytes
  aadVersion : UInt8
  createdAt : Time
  notAfter : Time
  retiredAt : Option Time
  deriving DecidableEq

namespace Key

def isExpired (k : Key) (now : Time) : Bool := decide (k.notAfter ≠ 0 ∧ ¬ now < k.notAfter)

def isActive (k : Key) (now : Time) : Bool := k.retiredAt.isNone && !k.isExpired now

def verifies (k : Key) (now : Time) : Bool :=
  if k.retiredAt.isSome ∧ k.notAfter = 0 then false else !k.isExpired now

end Key

structure Rotation where
  previous : Bytes
  next : Key
  retiredAt : Time
  overlapUntil : Time
  deriving DecidableEq

def Rotation.valid (r : Rotation) : Bool :=
  if r.previous = [] ∨ r.next.keyID = [] ∨ r.next.keyID = r.previous ∨ r.next.aadVersion ≠ aadVersionCurrent then
    false
  else if r.next.retiredAt.isSome ∨ r.retiredAt = 0 ∨ r.overlapUntil = 0 then false
  else decide (¬ r.overlapUntil < r.retiredAt) && r.next.isActive r.retiredAt

structure Row where
  key : Key
  seq : Nat
  deriving DecidableEq

structure Change where
  seq : Nat
  tenant : TenantID
  instant : Time
  deriving DecidableEq

structure Store where
  rows : Map TenantID (List Row)
  tombstones : Map TenantID Unit
  feed : List Change
  pruned : Nat
  seq : Nat

def cloneKey (k : Key) : Key :=
  { k with
    createdAt := k.createdAt.truncate
    notAfter := k.notAfter.truncate
    retiredAt := k.retiredAt.map Time.truncate }

def checkKey (clk : Time) (k : Key) : Except Err Key :=
  if k.aadVersion ≠ aadVersionCurrent then .error .legacyAADVersion
  else if k.keyID = [] ∨ k.alg = [] ∨ k.sealedKey.length = 0 then .error .invalidKey
  else
    let k := cloneKey k
    .ok (if k.createdAt = 0 then { k with createdAt := clk.truncate } else k)

/-- Less when `a` comes first: the later one, then the larger id. -/
def newest (a b : Key) : Ordering := (compare b.createdAt a.createdAt).then (compare b.keyID a.keyID)

namespace Store

def new : Store := ⟨∅, ∅, [], 0, 0⟩

def rowsOf (s : Store) (t : TenantID) : List Row := (s.rows.lookup t).getD []

def isTombstoned (s : Store) (t : TenantID) : Bool := (s.tombstones.lookup t).isSome

def record (s : Store) (t : TenantID) (now : Time) : Store :=
  { s with seq := s.seq + 1, feed := s.feed ++ [⟨s.seq + 1, t, now⟩] }

def find (s : Store) (t : TenantID) (id : Bytes) : Option Row := (s.rowsOf t).find? fun r => r.key.keyID = id

def insert (s : Store) (k : Key) : Store :=
  { s with seq := s.seq + 1, rows := s.rows.insert k.tenant (s.rowsOf k.tenant ++ [⟨k, s.seq + 1⟩]) }

def createTenant (s : Store) (clk : Time) (initial : Key) : Store × Except Err Unit :=
  match checkKey clk initial with
  | .error err => (s, .error err)
  | .ok k =>
    if s.isTombstoned k.tenant then (s, .error .tenantTombstoned)
    else if (s.rowsOf k.tenant).length > 0 then (s, .error (.conflict none))
    else ((s.insert k).record k.tenant clk.truncate, .ok ())

def putKey (s : Store) (clk : Time) (key : Key) : Store × Except Err Unit :=
  match checkKey clk key with
  | .error err => (s, .error err)
  | .ok k =>
    if s.isTombstoned k.tenant then (s, .error .tenantTombstoned)
    else if (s.find k.tenant k.keyID).isSome then (s, .error (.conflict none))
    else ((s.insert k).record k.tenant clk.truncate, .ok ())

def signer (s : Store) (t : TenantID) (now : Time) : Option Row :=
  (s.rowsOf t).foldl
    (fun best r =>
      match best with
      | none => if r.key.isActive now then some r else none
      | some b => if r.key.isActive now && newest r.key b.key == .lt then some r else best) none

def becomesSigner (s : Store) (next : Key) (prev : Row) (now : Time) : Bool :=
  next.isActive now &&
    !(s.rowsOf next.tenant).any fun r => r.seq != prev.seq && r.key.isActive now && newest next r.key == .gt

/-- The previous signer, retired: it verifies until the end of the overlap at the latest. -/
def retire (prev : Row) (retiredAt overlapUntil : Time) : Row :=
  let retired := retiredAt.truncate
  let until' := overlapUntil.truncate
  let notAfter := if prev.key.notAfter = 0 ∨ prev.key.notAfter > until' then until' else prev.key.notAfter
  { prev with key := { prev.key with retiredAt := some retired, notAfter := notAfter } }

def rotate (s : Store) (clk : Time) (r : Rotation) : Store × Except Err Unit :=
  if !r.valid then (s, .error (.invalidRotation none))
  else
    match checkKey clk r.next with
    | .error .legacyAADVersion =>
      (s, .error (.invalidRotation (some "keys: new key material must use AADVersionCurrent")))
    | .error _ => (s, .error (.invalidRotation (some "keys: invalid key")))
    | .ok next =>
      if s.isTombstoned next.tenant then (s, .error .tenantTombstoned)
      else
        let now := clk.truncate
        match s.signer next.tenant now with
        | none => (s, .error (.conflict (some "keys: previous key is not the tenant's active signer")))
        | some signer =>
          if signer.key.keyID ≠ r.previous then
            (s, .error (.conflict (some "keys: previous key is not the tenant's active signer")))
          else if (s.find next.tenant next.keyID).isSome then
            (s, .error (.conflict (some "keys: key id exists in the tenant")))
          else if !s.becomesSigner next signer now then
            (s, .error (.conflict (some "keys: next key would not become the tenant's active signer")))
          else
            let rows := (s.rowsOf next.tenant).map fun row =>
              if row.seq = signer.seq then retire row r.retiredAt r.overlapUntil else row
            let s := { s with rows := s.rows.insert next.tenant rows }
            ((s.insert next).record next.tenant now, .ok ())

def wipe (s : Store) (t : TenantID) : Store × Bool :=
  ({ s with rows := s.rows.erase t }, decide ((s.rowsOf t).length > 0))

def revokeTenantKeys (s : Store) (clk : Time) (t : TenantID) : Store :=
  let (s, had) := s.wipe t
  if had then s.record t clk.truncate else s

def tombstone (s : Store) (clk : Time) (t : TenantID) : Store :=
  let (s, changed) := s.wipe t
  let dead := s.isTombstoned t
  let s := if dead then s else { s with tombstones := s.tombstones.insert t () }
  if changed || !dead then s.record t clk.truncate else s

def eraseTenant (s : Store) (clk : Time) (t : TenantID) : Store := s.tombstone clk t

def reapTenant (s : Store) (now : Time) (t : TenantID) : Store × Nat :=
  let kept := (s.rowsOf t).filter fun r => r.key.verifies now
  let removed := (s.rowsOf t).length - kept.length
  if removed = 0 then (s, 0)
  else
    let rows := if kept.length = 0 then s.rows.erase t else s.rows.insert t kept
    ({ s with rows := rows }.record t now, removed)

/-- Feed entries past their retention, and the position up to which they were dropped. -/
def prune (s : Store) (now : Time) : Store :=
  { s with
    feed := s.feed.filter fun c => now.sub c.instant < feedRetention
    pruned := (s.feed.filter fun c => ¬ now.sub c.instant < feedRetention).foldl (fun p c => max p c.seq) s.pruned }

def reapExpired (s : Store) (clk : Time) : Store × Nat :=
  let now := clk.truncate
  let tenants := s.rows.keys.insertionSort fun a b => ¬ b.id < a.id
  let (s, n) := tenants.foldl
    (fun acc t =>
      let (s, removed) := acc.1.reapTenant now t
      (s, acc.2 + removed)) (s, 0)
  (s.prune now, n)

/-- A cursor that the retained feed no longer reaches; the zero cursor is exempt. -/
def gap (s : Store) (cursor : Nat) : Bool := decide (cursor ≠ 0 ∧ cursor < s.pruned)

/-- The tenants that changed past the cursor, each once; `none` for a feed gap. -/
def changesSince (s : Store) (cursor : Nat) : Option (List TenantID × Nat) :=
  if s.gap cursor then none
  else
    let changes := s.feed.filter fun c => cursor < c.seq
    some (changes.foldl (fun out c => if c.tenant ∈ out then out else out ++ [c.tenant]) [],
      (changes.getLast?.map Change.seq).getD cursor)

end Store
end Egauth.Keys
