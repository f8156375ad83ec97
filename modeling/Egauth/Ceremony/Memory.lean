import Egauth.Ceremony.Record
import Egauth.Data.Map

/-! The in-process ceremony store.

Every operation runs under the store's mutex and reads the clock once, so it is
one function on the state; `clk` is that reading. A call whose context has
already ended returns before it reads anything and is not modelled here. The
rows of a bucket are the rows of the store under the same keys: the source
keeps one pointer in both maps. The sequence counter is a natural number in
place of a 64-bit one.
-/

set_option autoImplicit false

namespace Egauth.Ceremony
open Egauth.Core

structure Key where
  tenant : TenantID
  kind : Kind
  handle : Digest
  deriving DecidableEq

structure BucketKey where
  tenant : TenantID
  kind : Kind
  deriving DecidableEq

structure ScopeKey where
  bucket : BucketKey
  scope : Digest
  deriving DecidableEq

def Key.bucket (k : Key) : BucketKey := ⟨k.tenant, k.kind⟩

structure Entry where
  row : Row
  seq : Nat
  deriving DecidableEq

structure Store where
  seq : Nat
  rows : Map Key Entry
  buckets : Map BucketKey (Map Key Entry)
  scopes : Map ScopeKey Int
  consumed : Map Key Time

/-- Whether `a` comes before `b`: the later one, then the one with the larger number. -/
def newer (a b : Entry) : Prop := b.row.createdAt < a.row.createdAt ∨ b.row.createdAt = a.row.createdAt ∧ b.seq ≤ a.seq

instance (a b : Entry) : Decidable (newer a b) := inferInstanceAs (Decidable (_ ∨ _))

def Row.key (r : Row) : Key := ⟨r.tenant, r.kind, r.handleHash⟩

/-- The persisted form of a record, with its instants to the microsecond. -/
def Row.stored (r : Row) : Row := { r with expiresAt := r.expiresAt.truncate, createdAt := r.createdAt.truncate }

namespace Store

def new : Store := ⟨0, ∅, ∅, ∅, ∅⟩

/-- `s.buckets[bk]`, nil when absent. -/
def bucketOf (s : Store) (bk : BucketKey) : Map Key Entry := (s.buckets.lookup bk).getD ∅

def insert (s : Store) (k : Key) (e : Entry) : Store :=
  let sk : ScopeKey := ⟨k.bucket, e.row.scopeHash⟩
  { s with
    rows := s.rows.insert k e
    buckets := s.buckets.insert k.bucket ((s.bucketOf k.bucket).insert k e)
    scopes := s.scopes.insert sk ((s.scopes.lookup sk).getD 0 + 1) }

def remove (s : Store) (k : Key) : Store :=
  match s.rows.lookup k with
  | none => s
  | some e =>
    let bucket := (s.bucketOf k.bucket).erase k
    let sk : ScopeKey := ⟨k.bucket, e.row.scopeHash⟩
    let count := (s.scopes.lookup sk).getD 0 - 1
    { s with
      rows := s.rows.erase k
      buckets := if bucket.entries.length = 0 then s.buckets.erase k.bucket else s.buckets.insert k.bucket bucket
      scopes := if count ≤ 0 then s.scopes.erase sk else s.scopes.insert sk count }

def others (s : Store) (keep : Key) (now : Time) (same : Entry → Bool) : List ((_ : Key) × Entry) :=
  (s.bucketOf keep.bucket).entries.filter fun c => c.1 ≠ keep ∧ c.2.row.expiresAt > now ∧ same c.2

def ranked (s : Store) (keep : Key) (now : Time) (same : Entry → Bool) : List ((_ : Key) × Entry) :=
  (s.others keep now same).insertionSort fun a b => newer a.2 b.2

def evict (s : Store) (keep : Key) (now : Time) (same : Entry → Bool) (limit : Nat) : Store × Nat :=
  if limit ≤ 0 then (s, 0)
  else if (s.others keep now same).length < limit then (s, 0)
  else
    let victims := (s.ranked keep now same).drop (limit - 1)
    (victims.foldl (fun s v => s.remove v.1) s, victims.length)

def capScope (s : Store) (k : Key) (now : Time) (scope : Digest) : Store × Nat :=
  if (s.scopes.lookup ⟨k.bucket, scope⟩).getD 0 > k.kind.maxLivePerScope then
    s.evict k now (fun e => e.row.scopeHash = scope) k.kind.maxLivePerScope
  else (s, 0)

def capTenant (s : Store) (k : Key) (now : Time) : Store × Nat :=
  if k.kind.maxLivePerTenant > 0 ∧ (s.bucketOf k.bucket).entries.length > k.kind.maxLivePerTenant then
    s.evict k now (fun _ => true) k.kind.maxLivePerTenant
  else (s, 0)

def live (s : Store) (k : Key) (now : Time) : Option Entry :=
  match s.rows.lookup k with
  | none => none
  | some e => if e.row.expiresAt > now then some e else none

/-- `Put` once no live row has the handle. -/
def write (s : Store) (clk : Time) (r : Record) : Store × Nat :=
  let k := r.row.key
  let s := s.remove k
  let s := { s with seq := s.seq + 1 }.insert k ⟨r.row.stored, s.seq + 1⟩
  let (s, ofScope) := s.capScope k clk r.row.scopeHash
  let (s, ofTenant) := s.capTenant k clk
  (s, ofScope + ofTenant)

def put (s : Store) (clk : Time) (r : Record) : Store × Except Err Nat :=
  match s.live r.row.key clk with
  | some _ => (s, .error .conflict)
  | none => ((s.write clk r).1, .ok (s.write clk r).2)

def lookupKey (t : TenantID) (k : Kind) (handle : Digest) : Except Err Key :=
  if handle.length < handleHashLen then .error .handleTooShort else .ok ⟨t, k, handle⟩

def peek (s : Store) (clk : Time) (t : TenantID) (k : Kind) (handle : Digest) : Except Err Record := do
  let kk ← lookupKey t k handle
  match s.live kk clk with
  | none => .error .notFound
  | some e => restore e.row

theorem peek_live {s : Store} {clk : Time} {t : TenantID} {k : Kind} {handle : Digest} {kk : Key}
    (found : lookupKey t k handle = .ok kk) :
    s.peek clk t k handle = (s.live kk clk).elim (.error .notFound) fun e => restore e.row := by
  rw [peek, found]
  cases alive : s.live kk clk <;> simp only [bind, Except.bind, alive, Option.elim_none, Option.elim_some]

def consume (s : Store) (clk : Time) (t : TenantID) (k : Kind) (handle : Digest) : Store × Except Err Record :=
  match lookupKey t k handle with
  | .error err => (s, .error err)
  | .ok kk =>
    match s.live kk clk with
    | none => (s, .error .notFound)
    | some e => (s.remove kk, restore e.row)

def recordFailure (s : Store) (clk : Time) (t : TenantID) (k : Kind) (handle : Digest) : Store × Except Err Int :=
  match lookupKey t k handle with
  | .error err => (s, .error err)
  | .ok kk =>
    match s.live kk clk with
    | none => (s, .error .notFound)
    | some e =>
      let remaining := k.maxAttempts - e.row.attempts - 1
      if remaining ≤ 0 then (s.remove kk, .ok 0)
      else
        let e := { e with row.attempts := e.row.attempts + 1 }
        ({ s with
          rows := s.rows.insert kk e
          buckets := s.buckets.insert kk.bucket ((s.bucketOf kk.bucket).insert kk e) }, .ok remaining)

/-- Answers whether this call was the first. -/
def markConsumed (s : Store) (clk : Time) (t : TenantID) (k : Kind) (handle : Digest) (until' : Time) :
    Store × Except Err Bool :=
  if !k.stateless then (s, .error .storedKind)
  else
    match lookupKey t k handle with
    | .error err => (s, .error err)
    | .ok kk =>
      match s.consumed.lookup kk with
      | some prev =>
        if prev > clk then (s, .ok false) else ({ s with consumed := s.consumed.insert kk until'.truncate }, .ok true)
      | none => ({ s with consumed := s.consumed.insert kk until'.truncate }, .ok true)

def removeWhere (s : Store) (drop : Key → Entry → Bool) : Store × Nat :=
  let doomed := s.rows.entries.filter fun c => drop c.1 c.2
  (doomed.foldl (fun s c => s.remove c.1) s, doomed.length)

/-- Restricted to the kinds when any are given. -/
def deleteForScope (s : Store) (t : TenantID) (scope : Digest) (kinds : List Kind) : Store × Nat :=
  s.removeWhere fun k e => k.tenant = t ∧ e.row.scopeHash = scope ∧ (kinds = [] ∨ k.kind ∈ kinds)

def eraseTenant (s : Store) (t : TenantID) : Store :=
  let (s, _) := s.removeWhere fun k _ => k.tenant = t
  { s with consumed := s.consumed.eraseWhere fun k => k.tenant = t }

def reapExpired (s : Store) (clk : Time) : Store × Nat :=
  let (s, n) := s.removeWhere fun _ e => ¬ e.row.expiresAt > clk
  let ended := s.consumed.entries.filter fun c => ¬ c.2 > clk
  (({ s with consumed := ended.foldl (fun m c => m.erase c.1) s.consumed }), n + ended.length)

end Store
end Egauth.Ceremony
