import Egauth.Data.Map
import Egauth.Identity.Record

/-! The in-process account store.

Every operation runs under the store's mutex, so it is one function on the
state. `clk` is what the clock reads during the call, kept to the microsecond.
`Apply` looks at its context several times on the way; `ctx` is how many of
these looks still find it alive. A call of any other method whose context has
already ended returns before it reads anything and is not modelled.

The sequence counters are natural numbers in place of 64-bit counters; the
security epoch is the 64-bit one. Ranging over `accounts` looks for an account
that is the only one of its kind, so the order of the entries stands for any.
-/

set_option autoImplicit false

namespace Egauth.Identity
open Egauth.Core

def retention : Duration := 7 * 24 * Duration.hour

def passwordProvider : Bytes := ascii "password"

def feedPage : Nat := 1000

structure Password where
  phc : PasswordHash
  changedAt : Time
  failed : Int := 0
  lockedUntil : Time := 0
  lastFailure : Time := 0
  mustChange : Bool := false
  deriving DecidableEq

/-- Failures older than the window, or than the end of a lock, no longer count. -/
def Password.decay (pw : Password) (now : Time) (window : Duration) : Password :=
  if pw.lockedUntil ≠ 0 ∧ ¬ pw.lockedUntil > now then { pw with failed := 0, lockedUntil := 0 }
  else if pw.lockedUntil = 0 ∧ pw.lastFailure ≠ 0 ∧ ¬ pw.lastFailure + window > now then { pw with failed := 0 }
  else pw

def FederatedLink.isOf (l : FederatedLink) (provider subject : Bytes) : Bool :=
  l.identity.provider == provider && l.identity.providerSubject == subject

structure Account where
  user : User
  password : Option Password := none
  links : List FederatedLink := []
  deriving DecidableEq

def Account.view (a : Account) : User := { a.user with mustChange := (a.password.map Password.mustChange).getD false }

structure EpochRow where
  seq : Nat
  change : EpochChange
  instant : Time
  deriving DecidableEq

structure OutboxRow where
  item : OutboxItem
  done : Time := 0
  deriving DecidableEq

structure Store where
  accounts : Map Subject Account
  epochSeq : Nat
  epochs : List EpochRow
  outboxSeq : Nat
  outbox : List OutboxRow

namespace Store

def new : Store := ⟨∅, 0, [], 0, []⟩

def eraseTenant (s : Store) (t : TenantID) : Store :=
  { s with
    accounts := s.accounts.eraseWhere fun k => k.tenant = t
    epochs := s.epochs.filter fun r => r.change.subject.tenant ≠ t
    outbox := s.outbox.filter fun r => r.item.subject.tenant ≠ t }

def cutoff (clk : Time) : Time := clk.truncate - retention

def reapExpired (s : Store) (clk : Time) : Store × Nat :=
  let epochs := s.epochs.filter fun r => ¬ r.instant < cutoff clk
  let outbox := s.outbox.filter fun r => ¬ (r.done ≠ 0 ∧ r.done < cutoff clk)
  ({ s with epochs := epochs, outbox := outbox },
    s.epochs.length + s.outbox.length - epochs.length - outbox.length)

def existing (s : Store) (sub : Subject) : Except Err Account :=
  match s.accounts.lookup sub with
  | none => .error .notFound
  | some a => .ok a

def getUser (s : Store) (sub : Subject) : Except Err User := Account.view <$> s.existing sub

def owner (s : Store) (t : TenantID) (id : Identifier) (except : UUID) : Option Account :=
  (s.accounts.entries.find? fun e =>
    decide (e.1.tenant = t) && decide (e.1.user ≠ except) && decide (e.2.user.deletedAt = (0 : Time)) &&
      match id.kind with
      | some .email => decide (e.2.user.email = id)
      | some .phone => decide (e.2.user.phone = id)
      | _ => false).map Sigma.snd

def findUser (s : Store) (t : TenantID) (id : Identifier) : Except Err User :=
  if id.kind ≠ some .email ∧ id.kind ≠ some .phone then
    .error (.invalidIdentifier "only an email or a phone finds an account")
  else
    match s.owner t id .nil with
    | some a => .ok a.view
    | none => .error .notFound

def linkOwner (s : Store) (t : TenantID) (provider subject : Bytes) : Option Account :=
  (s.accounts.entries.find? fun e =>
    decide (e.1.tenant = t) && e.2.links.any fun l => l.isOf provider subject).map Sigma.snd

/-- A link of a tombstoned account is not found. -/
def findFederated (s : Store) (t : TenantID) (provider subject : Bytes) : Except Err FederatedLink :=
  match s.linkOwner t provider subject with
  | none => .error .notFound
  | some a =>
    if a.user.deletedAt ≠ 0 then .error .notFound
    else
      match a.links.find? fun l => l.isOf provider subject with
      | none => .error .notFound
      | some l => .ok l

def getPassword (s : Store) (sub : Subject) : Except Err PasswordCredential :=
  match s.existing sub with
  | .error err => .error err
  | .ok a =>
    match a.password with
    | none => .error .notFound
    | some p => .ok ⟨sub, p.phc, p.changedAt, p.failed, p.lockedUntil⟩

def checkPolicy (p : LockoutPolicy) : Except Err Unit :=
  if p.threshold ≤ 0 ∨ p.window ≤ 0 then
    .error (.invalidMutation "lockout threshold and window must be positive")
  else .ok ()

def recordPasswordFailure (s : Store) (clk : Time) (sub : Subject) (p : LockoutPolicy) :
    Store × Except Err Lockout :=
  match checkPolicy p with
  | .error err => (s, .error err)
  | .ok () =>
    match s.existing sub with
    | .error err => (s, .error err)
    | .ok a =>
      match a.password with
      | none => (s, .error .notFound)
      | some pw =>
        let now := clk.truncate
        let pw := pw.decay now p.window
        let pw := { pw with failed := pw.failed + 1, lastFailure := now }
        let just := decide (pw.lockedUntil = 0 ∧ pw.failed ≥ p.threshold)
        let pw := if just then { pw with lockedUntil := (now + p.window).truncate } else pw
        ({ s with accounts := s.accounts.insert sub { a with password := some pw } },
          .ok ⟨pw.failed, pw.lockedUntil, just⟩)

def resetPasswordFailures (s : Store) (sub : Subject) : Store × Except Err Unit :=
  match s.existing sub with
  | .error err => (s, .error err)
  | .ok a =>
    match a.password with
    | none => (s, .error .notFound)
    | some pw =>
      let pw := { pw with failed := 0, lockedUntil := 0, lastFailure := 0 }
      ({ s with accounts := s.accounts.insert sub { a with password := some pw } }, .ok ())

def currentEpoch (s : Store) (sub : Subject) : Except Err UInt64 :=
  match s.existing sub with
  | .error err => .error err
  | .ok a => .ok a.user.securityEpoch

def epochsChangedSince (s : Store) (cursor : Nat) : List EpochChange × Nat :=
  let page := (s.epochs.filter fun r => cursor < r.seq).take feedPage
  (page.map EpochRow.change, (page.getLast?.map EpochRow.seq).getD cursor)

/-- Rows are looked up by their ids, which are in increasing order. -/
def row (s : Store) (id : Int) : Option OutboxRow := s.outbox.find? fun r => r.item.id = id

def setRow (s : Store) (id : Int) (set : OutboxRow → OutboxRow) : Store :=
  { s with outbox := s.outbox.map fun r => if r.item.id = id then set r else r }

def ackOutbox (s : Store) (clk : Time) (id : Int) : Store × Except Err Unit :=
  match s.row id with
  | none => (s, .error .notFound)
  | some r => if r.done = 0 then (s.setRow id ({ · with done := clk.truncate }), .ok ()) else (s, .ok ())

def failOutbox (s : Store) (id : Int) (next : Time) : Store × Except Err Unit :=
  match s.row id with
  | none => (s, .error .notFound)
  | some r =>
    if r.done ≠ 0 then (s, .ok ())
    else
      (s.setRow id fun r =>
        { r with item := { r.item with attempts := r.item.attempts + 1, nextAttemptAt := next.truncate } }, .ok ())

def eraseUser (s : Store) (sub : Subject) : Store × Except Err Unit :=
  match s.existing sub with
  | .error err => (s, .error err)
  | .ok a =>
    if a.user.deletedAt = 0 then (s, .error .notTombstoned)
    else if s.outbox.any fun r => r.item.subject = sub ∧ r.done = 0 ∧ r.item.component ≠ .identity then
      (s, .error (.conflict "identity: an outbox row of the subject is not done"))
    else ({ s with accounts := s.accounts.erase sub }, .ok ())

end Store
end Egauth.Identity
