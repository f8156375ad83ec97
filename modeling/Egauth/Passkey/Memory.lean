import Egauth.Core.Principal
import Egauth.Data.Map
import Egauth.Semantics.Time
import Mathlib.Data.List.Sort

/-! The in-process store of passkeys.

Every operation runs under the store's mutex, so it is one function on the
state. A call whose context has already ended returns before it reads anything
and is not modelled. A credential whose discoverable state is an undeclared
number has none here. The counts over all tenants serve the startup checks
only and are left out.
-/

set_option autoImplicit false

namespace Egauth.Passkey
open Egauth.Core

def maxCredentialIDLen : Nat := 1023

inductive Err where
  | context
  | notFound
  | conflict
  | invalid (what : String)
  deriving DecidableEq, Repr

inductive Discoverable where
  | legacy
  | confirmed
  | inferred
  deriving DecidableEq, Repr

structure Credential where
  subject : Subject
  id : Bytes
  publicKey : Bytes
  signCount : UInt32
  data : Bytes
  createdAt : Time
  nickname : Bytes
  lastUsedAt : Option Time
  transports : List Bytes
  backupEligible : Bool
  backupState : Bool
  discoverable : Option Discoverable
  suspendedAt : Option Time
  deriving DecidableEq

namespace Credential

def active (c : Credential) : Bool := c.suspendedAt.isNone

def acceptsSignCount (c : Credential) (next : UInt32) : Bool :=
  decide (next > c.signCount ∨ c.signCount = 0 ∧ next = 0)

def clone (c : Credential) : Credential :=
  { c with
    createdAt := c.createdAt.truncate
    lastUsedAt := c.lastUsedAt.map Time.truncate
    suspendedAt := c.suspendedAt.map Time.truncate }

end Credential

structure Key where
  tenant : TenantID
  id : Bytes
  deriving DecidableEq

structure Store where
  creds : Map Key Credential

def checkCredential (c : Credential) : Option Err :=
  if c.subject.isZero then some (.invalid "subject")
  else if c.id.length = 0 ∨ c.id.length > maxCredentialIDLen then some (.invalid "credential id")
  else if c.publicKey.length = 0 then some (.invalid "public key")
  else if c.discoverable = none ∨ c.discoverable = some .legacy then some (.invalid "discoverable state")
  else none

namespace Store

def new : Store := ⟨∅⟩

def save (s : Store) (c : Credential) : Store × Except Err Unit :=
  match checkCredential c with
  | some err => (s, .error err)
  | none =>
    let k : Key := ⟨c.subject.tenant, c.id⟩
    if (s.creds.lookup k).isSome then (s, .error .conflict) else (⟨s.creds.insert k c.clone⟩, .ok ())

def get (s : Store) (t : TenantID) (id : Bytes) : Except Err Credential :=
  match s.creds.lookup ⟨t, id⟩ with
  | none => .error .notFound
  | some c => .ok c.clone

def owned (s : Store) (sub : Subject) (id : Bytes) : Option Credential :=
  match s.creds.lookup ⟨sub.tenant, id⟩ with
  | none => none
  | some c => if c.subject ≠ sub then none else some c

def amend (s : Store) (sub : Subject) (id : Bytes) (c : Credential) : Store := ⟨s.creds.insert ⟨sub.tenant, id⟩ c⟩

def update (s : Store) (c : Credential) : Store × Except Err Unit :=
  if c.discoverable = none then (s, .error (.invalid "discoverable state"))
  else
    match s.owned c.subject c.id with
    | none => (s, .error .notFound)
    | some cur =>
      (s.amend c.subject c.id
        { cur with
          nickname := c.nickname
          lastUsedAt := c.clone.lastUsedAt
          transports := c.transports
          backupEligible := c.backupEligible
          backupState := c.backupState
          discoverable := if c.discoverable ≠ some .legacy then c.discoverable else cur.discoverable }, .ok ())

/-- False is the signal of a clone. -/
def updateSignCount (s : Store) (sub : Subject) (id : Bytes) (next : UInt32) : Store × Except Err Bool :=
  match s.owned sub id with
  | none => (s, .error .notFound)
  | some cur =>
    if !cur.acceptsSignCount next then (s, .ok false)
    else (s.amend sub id { cur with signCount := next }, .ok true)

def suspend (s : Store) (sub : Subject) (id : Bytes) (at' : Time) : Store × Except Err Unit :=
  match s.owned sub id with
  | none => (s, .error .notFound)
  | some cur =>
    if cur.suspendedAt = none then (s.amend sub id { cur with suspendedAt := some at'.truncate }, .ok ()) else (s, .ok ())

def hasActive (s : Store) (sub : Subject) : Bool :=
  s.creds.entries.any fun e => e.2.subject = sub && e.2.active

def deleteForSubject (s : Store) (sub : Subject) : Store :=
  ⟨(s.creds.entries.filter fun e => e.2.subject = sub).foldl (fun m e => m.erase e.1) s.creds⟩

variable {c : Credential}

theorem hasActive_save {s s' : Store} (saves : s.save c = (s', .ok ())) (active : c.active = true) :
    s'.hasActive c.subject = true := by
  unfold save at saves
  split at saves
  · cases saves
  · dsimp only at saves
    split at saves
    · cases saves
    · cases saves
      have stored : ⟨⟨c.subject.tenant, c.id⟩, c.clone⟩ ∈ (s.creds.insert ⟨c.subject.tenant, c.id⟩ c.clone).entries :=
        Map.mem_entries.mpr (by simp)
      refine List.any_eq_true.mpr ⟨_, stored, ?_⟩
      simpa [Credential.clone, Credential.active] using active

theorem lookup_deleteForSubject {s : Store} {sub : Subject} {k : Key}
    (found : (s.deleteForSubject sub).creds.lookup k = some c) : s.creds.lookup k = some c ∧ c.subject ≠ sub := by
  unfold deleteForSubject at found
  dsimp only at found
  rw [Map.lookup_foldl_erase_entries] at found
  split at found
  · cases found
  next kept =>
    refine ⟨found, fun named => kept ?_⟩
    have member := Map.mem_entries.mpr found
    exact List.mem_map.mpr ⟨⟨k, c⟩, List.mem_filter.mpr ⟨member, by simp [named]⟩, rfl⟩

theorem lookup_save {s : Store} {new : Credential} {k : Key} (found : (s.save new).1.creds.lookup k = some c) :
    s.creds.lookup k = some c ∨ (s.save new).2 = .ok () ∧ c = new.clone := by
  unfold save at found ⊢
  split at found
  · exact .inl found
  dsimp only at found ⊢
  split at found
  · exact .inl found
  next absent =>
    rw [Map.lookup_insert_eq] at found
    split at found
    · cases found
      exact .inr ⟨by rw [if_neg absent], rfl⟩
    · exact .inl found

end Store
end Egauth.Passkey
