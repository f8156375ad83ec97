import Egauth.Data.Map
import Egauth.Tokens.Record
import Mathlib.Data.List.Sort

/-! The in-process refresh-family store.

Every operation runs under the store's mutex, so it is one function on the
state. `clk` is what the clock reads during the call; the store keeps instants
to the microsecond. A call whose context has already ended returns before it
reads anything and is not modelled. The feed positions are natural numbers in
place of a 64-bit counter.

A pointer in `tokens` is the entry itself: assigning through it inserts the
changed entry under the same hash. Where the source would dereference a listed
hash that is not stored, the model skips it; `Store.Indexed` excludes the case.
-/

set_option autoImplicit false

namespace Egauth.Tokens
open Egauth.Core

structure FamilyKey where
  tenant : TenantID
  family : UUID
  deriving DecidableEq

structure KeyRef where
  tenant : TenantID
  hash : Bytes
  deriving DecidableEq

structure Refresh where
  row : RefreshRow
  consumedAt : Time := 0
  consumedBy : Bytes := []
  revoked : Bool := false
  deriving DecidableEq

def RefreshRow.key (r : RefreshRow) : FamilyKey := ⟨r.subject.tenant, r.family⟩

def Refresh.key (r : Refresh) : FamilyKey := r.row.key

def Refresh.consume (r : Refresh) (now : Time) (fingerprint : Bytes) : Refresh :=
  { r with consumedAt := now, consumedBy := fingerprint }

/-- Past its idle or its family expiry: what the reaper removes. -/
def Refresh.expired (r : Refresh) (now : Time) : Bool :=
  decide (¬ now < r.row.idleExpiresAt ∨ ¬ now < r.row.familyExpiresAt)

structure Announcement where
  seq : Nat
  rev : Revocation
  expires : Time
  deriving DecidableEq

structure Store where
  tokens : Map Bytes Refresh
  families : Map FamilyKey (List Bytes)
  feed : List Announcement
  seq : Nat
  keys : Map KeyRef APIKey
  keyIDs : Map UUID KeyRef

def Store.new : Store := ⟨∅, ∅, [], 0, ∅, ∅⟩

def maxTime (a b : Time) : Time := if b > a then b else a

namespace Store

def hashesOf (s : Store) (fk : FamilyKey) : List Bytes := (s.families.lookup fk).getD []

def dropToken (s : Store) (h : Bytes) : Store :=
  match s.tokens.lookup h with
  | none => s
  | some r =>
    let kept := (s.hashesOf r.key).filter (· ≠ h)
    let families := s.families.insert r.key kept
    { s with
      tokens := s.tokens.erase h
      families := if kept.length = 0 then families.erase r.key else families }

def dropFamily (s : Store) (fk : FamilyKey) : Store := (s.hashesOf fk).foldl dropToken s

def dropKey (s : Store) (ref : KeyRef) (id : UUID) : Store :=
  { s with keys := s.keys.erase ref, keyIDs := s.keyIDs.erase id }

/-- The loop of `revoke`: the tokens, the latest family expiry seen so far and
whether a token was still unrevoked. -/
def markRevoked (acc : Map Bytes Refresh × Time × Bool) (h : Bytes) : Map Bytes Refresh × Time × Bool :=
  match acc.1.lookup h with
  | none => acc
  | some r =>
    let expires := maxTime acc.2.1 r.row.familyExpiresAt
    if r.revoked then (acc.1, expires, acc.2.2)
    else (acc.1.insert h { r with revoked := true }, expires, true)

def revoke (s : Store) (fk : FamilyKey) (now : Time) : Store :=
  let marked := (s.hashesOf fk).foldl markRevoked (s.tokens, 0, false)
  -- A family whose tokens were all revoked before is not announced again.
  if marked.2.2 then
    { s with
      tokens := marked.1
      seq := s.seq + 1
      feed := s.feed ++ [⟨s.seq + 1, ⟨fk.tenant, fk.family, now⟩, marked.2.1⟩] }
  else { s with tokens := marked.1 }

/-- `order` is the order in which the call ranges over `families`. -/
def eraseTenant (s : Store) (clk : Time) (t : TenantID) (order : List FamilyKey) : Store :=
  let now := clk.truncate
  let erased := order.foldl (fun s fk => if fk.tenant = t then (s.revoke fk now).dropFamily fk else s) s
  erased.keys.entries.foldl (fun s k => if k.1.tenant = t then s.dropKey k.1 k.2.id else s) erased

def reapTokens (s : Store) (now : Time) : Store × Nat :=
  s.tokens.entries.foldl
    (fun acc e => if e.2.expired now then (acc.1.dropToken e.1, acc.2 + 1) else acc) (s, 0)

def reapKeys (s : Store) (now : Time) : Store × Nat :=
  s.keys.entries.foldl
    (fun acc e => if e.2.expiresAt ≠ 0 ∧ ¬ now < e.2.expiresAt then (acc.1.dropKey e.1 e.2.id, acc.2 + 1)
      else acc) (s, 0)

def reapExpired (s : Store) (clk : Time) : Store × Nat :=
  let now := clk.truncate
  let (s, dropped) := s.reapTokens now
  let (s, keys) := s.reapKeys now
  let kept := s.feed.filter fun r => decide (now < r.expires)
  ({ s with feed := kept }, dropped + keys + (s.feed.length - kept.length))

end Store

def rowOf (r : RefreshRecord) : RefreshRow :=
  { r.row with
    idleExpiresAt := r.row.idleExpiresAt.truncate
    familyExpiresAt := r.row.familyExpiresAt.truncate
    createdAt := r.row.createdAt.truncate }

def usable (r : Refresh) (now : Time) : Option Err :=
  if r.revoked ∨ ¬ now < r.row.familyExpiresAt then some .revoked
  else if ¬ now < r.row.idleExpiresAt then some .notFound
  else none

def replayable (r : Refresh) (now : Time) : Option Err :=
  match usable r now with
  | some err => if r.consumedAt = 0 ∨ err ≠ .notFound then some err else none
  | none => none

def continues (r : RefreshRow) (next : RefreshRecord) : Bool :=
  r.subject == next.row.subject && r.lineage == next.row.lineage && r.family == next.row.family

def state (first : Refresh) (rows : List Refresh) : FamilyState :=
  rows.foldl
    (fun st r => { st with
      revoked := st.revoked || r.revoked
      expiresAt := maxTime st.expiresAt r.row.familyExpiresAt })
    ⟨first.row.subject, first.row.lineage, false, 0⟩

namespace Store

def insert (s : Store) (r : RefreshRecord) : Except Err Store :=
  let row := rowOf r
  match restoreRefreshRecord row with
  | .error err => .error err
  | .ok _ =>
    let h := row.tokenHash
    if (s.tokens.lookup h).isSome then .error .conflict
    else
      .ok { s with
        tokens := s.tokens.insert h { row := row }
        families := s.families.insert row.key (s.hashesOf row.key ++ [h]) }

def create (s : Store) (r : RefreshRecord) : Store × Except Err Unit :=
  if r.isZero then (s, .error (.invalidRecord none))
  else if (s.families.lookup ⟨r.tenant, r.row.family⟩).isSome then (s, .error .conflict)
  else
    match s.insert r with
    | .error err => (s, .error err)
    | .ok inserted => (inserted, .ok ())

def lookup (s : Store) (t : TenantID) (tokenHash : Bytes) : Option Refresh :=
  match s.tokens.lookup tokenHash with
  | none => none
  | some r => if r.row.subject.tenant = t then some r else none

def get (s : Store) (clk : Time) (t : TenantID) (tokenHash : Bytes) : Except Err RefreshRecord :=
  match s.lookup t tokenHash with
  | none => .error .notFound
  | some r =>
    match replayable r clk.truncate with
    | some err => .error err
    | none => restoreRefreshRecord r.row

def consumeForRotation (s : Store) (clk : Time) (req : RotationRequest) : Store × Except Err Rotation :=
  if req.next.isZero ∨ req.presented.length ≠ hashLen then
    (s, .error (.invalidRecord (some "a presented digest and a next record are required")))
  else
    let now := clk.truncate
    match s.lookup req.next.tenant req.presented with
    | none => (s, .error .notFound)
    | some r =>
      match replayable r now with
      | some err => (s, .error err)
      | none =>
        if !continues r.row req.next then (s, .error .conflict)
        else if r.consumedAt ≠ 0 then
          -- The same client may have lost the answer to its rotation; any other use is a theft.
          if now.sub r.consumedAt < reuseGrace ∧ r.consumedBy.length > 0 ∧
              r.consumedBy = req.next.row.clientFingerprint then
            (s, .error .concurrent)
          else (s.revoke r.key now, .error .reused)
        else if req.next.row.familyExpiresAt.truncate > r.row.familyExpiresAt then (s, .error .conflict)
        else
          match s.insert req.next with
          | .error err => (s, .error err)
          | .ok inserted =>
            let consumed := r.consume now req.next.row.clientFingerprint
            ({ inserted with tokens := inserted.tokens.insert req.presented consumed },
              .ok ⟨r.row.family, now⟩)

def familyRows (s : Store) (fk : FamilyKey) : List Refresh := (s.hashesOf fk).filterMap s.tokens.lookup

def reissue (s : Store) (clk : Time) (req : ReissueRequest) : Store × Except Err Unit :=
  if req.next.isZero then (s, .error (.invalidRecord none))
  else
    let now := clk.truncate
    let fk : FamilyKey := ⟨req.next.tenant, req.family⟩
    match s.familyRows fk with
    | [] => (s, .error .conflict)
    | first :: rest =>
      if req.next.row.family = req.family then (s, .error .conflict)
      else if (s.families.lookup ⟨req.next.tenant, req.next.row.family⟩).isSome then (s, .error .conflict)
      else if (s.tokens.lookup req.next.row.tokenHash).isSome then (s, .error .conflict)
      else
        -- The first row stands for the family, and the others are compared with it.
        let st := state first (first :: rest)
        if st.revoked ∨ ¬ st.live now ∨ st.subject ≠ req.next.row.subject ∨
            st.lineage ≠ req.next.row.lineage then (s, .error .conflict)
        else if (first :: rest).any fun r => r.row.subject != st.subject || r.row.lineage != st.lineage then
          (s, .error .conflict)
        else
          match s.insert req.next with
          | .error err => (s, .error err)
          | .ok inserted => (inserted.revoke fk now, .ok ())

def familyState (s : Store) (t : TenantID) (family : UUID) : Except Err FamilyState :=
  match s.familyRows ⟨t, family⟩ with
  | [] => .error .notFound
  | first :: rest => .ok (state first (first :: rest))

def revokeFamily (s : Store) (clk : Time) (t : TenantID) (family : UUID) : Store :=
  s.revoke ⟨t, family⟩ clk.truncate

def subjectFamilies (s : Store) (sub : Subject) (keep : RefreshRow → Bool) : List FamilyKey :=
  let out := s.families.entries.filterMap fun e =>
    if e.1.tenant ≠ sub.tenant then none
    else
      match e.2.head?.bind s.tokens.lookup with
      | none => none
      | some r => if r.row.subject = sub ∧ keep r.row = false then some e.1 else none
  out.insertionSort fun a b => ¬ b.family.string < a.family.string

def revokeForSubject (s : Store) (clk : Time) (sub : Subject) (exceptLineage : UUID) : Store :=
  let keep (r : RefreshRow) : Bool := exceptLineage != .nil && r.lineage == exceptLineage
  (s.subjectFamilies sub keep).foldl (fun s fk => s.revoke fk clk.truncate) s

/-- The feed is sorted by position, so the binary search of the source finds the
first entry past the cursor. -/
def revocationsSince (s : Store) (cursor : Nat) : List Revocation × Nat :=
  let page := s.feed.dropWhile fun r => decide (r.seq < cursor + 1)
  (page.map Announcement.rev, (page.getLast?.map Announcement.seq).getD cursor)

def deleteForSubject (s : Store) (clk : Time) (sub : Subject) : Store :=
  let deleted := (s.subjectFamilies sub fun _ => false).foldl
    (fun s fk => (s.revoke fk clk.truncate).dropFamily fk) s
  deleted.keys.entries.foldl (fun s k => if k.2.owner = sub then s.dropKey k.1 k.2.id else s) deleted

def cloneKey (k : APIKey) : APIKey :=
  { k with
    createdAt := k.createdAt.truncate
    expiresAt := if k.expiresAt = 0 then k.expiresAt else k.expiresAt.truncate
    revokedAt := if k.revokedAt = 0 then k.revokedAt else k.revokedAt.truncate }

def createAPIKey (s : Store) (k : APIKey) : Store × Except Err Unit :=
  match k.validate with
  | some err => (s, .error err)
  | none =>
    let ref : KeyRef := ⟨k.owner.tenant, k.keyHash⟩
    if (s.keys.lookup ref).isSome then (s, .error .conflict)
    else if (s.keyIDs.lookup k.id).isSome then (s, .error .conflict)
    else ({ s with keys := s.keys.insert ref (cloneKey k), keyIDs := s.keyIDs.insert k.id ref }, .ok ())

def revokeAPIKey (s : Store) (clk : Time) (owner : Subject) (id : UUID) : Store × Except Err Unit :=
  match s.keyIDs.lookup id with
  | none => (s, .error .notFound)
  | some ref =>
    match s.keys.lookup ref with
    | none => (s, .error .notFound)
    | some k =>
      if k.owner ≠ owner then (s, .error .notFound)
      else if k.revokedAt = 0 then
        ({ s with keys := s.keys.insert ref { k with revokedAt := clk.truncate } }, .ok ())
      else (s, .ok ())

end Store

/-- The calls that write the store. Ranging over a Go map visits every key once, in
no fixed order; `EraseTenant` announces the families in that order. -/
inductive Op where
  | create (r : RefreshRecord)
  | consumeForRotation (req : RotationRequest)
  | reissue (req : ReissueRequest)
  | revokeFamily (t : TenantID) (family : UUID)
  | revokeForSubject (sub : Subject) (exceptLineage : UUID)
  | deleteForSubject (sub : Subject)
  | eraseTenant (t : TenantID) (order : List FamilyKey)
  | reapExpired
  | createAPIKey (k : APIKey)
  | revokeAPIKey (owner : Subject) (id : UUID)

structure Call where
  clk : Time
  op : Op

def Store.apply (s : Store) (call : Call) : Store :=
  match call.op with
  | .create r => (s.create r).1
  | .consumeForRotation req => (s.consumeForRotation call.clk req).1
  | .reissue req => (s.reissue call.clk req).1
  | .revokeFamily t family => s.revokeFamily call.clk t family
  | .revokeForSubject sub exceptLineage => s.revokeForSubject call.clk sub exceptLineage
  | .deleteForSubject sub => s.deleteForSubject call.clk sub
  | .eraseTenant t order => s.eraseTenant call.clk t order
  | .reapExpired => (s.reapExpired call.clk).1
  | .createAPIKey k => (s.createAPIKey k).1
  | .revokeAPIKey owner id => (s.revokeAPIKey call.clk owner id).1

def Call.Admissible (s : Store) (call : Call) : Prop :=
  match call.op with
  | .eraseTenant _ order => order.Perm s.families.keys
  | _ => True

def Step (s : Store) (call : Call) (t : Store) : Prop := call.Admissible s ∧ t = s.apply call

end Egauth.Tokens
