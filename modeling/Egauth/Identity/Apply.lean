import Egauth.Identity.Memory

/-! `Apply`: one mutation, its epoch bump and its outbox rows, committed together.

The transaction works on a copy of the account and writes nothing to the store
before the commit. `acc` is the account being written; every path through
`mutate` sets it, with `subject`, before it is read.
-/

set_option autoImplicit false

namespace Egauth.Identity
open Egauth.Core

def errReservedProvider : String := "federated provider \"password\" is reserved for the password credential"

def reserved (m : Mutation) : Except Err Unit :=
  match m with
  | .linkFederated _ identity _ =>
    if identity.provider = passwordProvider then .error (.invalidMutation errReservedProvider) else .ok ()
  | .createVerified _ _ _ _ federated =>
    if federated.provider = passwordProvider then .error (.invalidMutation errReservedProvider) else .ok ()
  | .unlinkFederated _ provider _ _ =>
    if provider = passwordProvider then .error (.invalidMutation errReservedProvider) else .ok ()
  | _ => .ok ()

/-- The zero Subject for a mutation that names none. -/
def subjectOf : Mutation → Subject
  | .setPassword sub .. | .markEmailVerified sub _ | .changeEmail sub _ | .setPhone sub _
  | .setRecoveryEmail sub _ | .setDisabledState sub _ | .setMustChange sub _ | .tombstone sub
  | .bumpEpoch sub _ _ | .linkFederated sub _ _ | .unlinkFederated sub _ _ _ => sub
  | .createVerified .. | .foreign => .zero

/-- `ctx` counts the looks at the context that still find it alive. -/
structure Txn where
  ctx : Nat
  now : Time
  subject : Subject
  acc : Account
  evicted : Option Account
  epochs : List EpochRow
  outbox : List OutboxRow
  epochSeq : Nat
  outboxSeq : Nat

namespace Txn

def start (s : Store) (ctx : Nat) (now : Time) : Txn where
  ctx := ctx
  now := now
  subject := .zero
  acc := { user := { subject := .zero, email := .zero, emailVerifiedAt := 0, createdAt := 0 } }
  evicted := none
  epochs := []
  outbox := []
  epochSeq := s.epochSeq
  outboxSeq := s.outboxSeq

def step (tx : Txn) : Except Err Txn :=
  match tx.ctx with
  | 0 => .error .context
  | ctx + 1 => .ok { tx with ctx := ctx }

def load (tx : Txn) (s : Store) (sub : Subject) : Except Err Txn := do
  let tx ← tx.step
  match s.accounts.lookup sub with
  | none => .error .notFound
  | some a => if a.user.deletedAt ≠ 0 then .error .tombstoned else .ok { tx with subject := sub, acc := a }

def rebind (tx : Txn) (f : FederatedIdentity) : Except Err Txn :=
  match tx.acc.links.findIdx? fun l => l.isOf f.provider f.providerSubject with
  | none => .error (.conflict "identity: provider account already linked to this subject")
  | some i =>
    if (tx.acc.links[i]?.map fun l => l.identity.authority) = some f.authority then
      .error (.conflict "identity: provider account already linked to this subject")
    else .ok { tx with acc := { tx.acc with links := tx.acc.links.set i ⟨tx.subject, f, tx.now⟩ } }

/-- A link of a tombstoned account is taken over. -/
def link (tx : Txn) (s : Store) (f : FederatedIdentity) : Except Err Txn :=
  let add (tx : Txn) : Txn :=
    { tx with acc := { tx.acc with links := tx.acc.links ++ [⟨tx.subject, f, tx.now⟩] } }
  match s.linkOwner tx.subject.tenant f.provider f.providerSubject with
  | none => .ok (add tx)
  | some owner =>
    if owner.user.subject = tx.subject then tx.rebind f
    else if owner.user.deletedAt = 0 then .error .identifierTaken
    else
      -- The tombstoned owner loses the link when the transaction commits.
      .ok (add { tx with
        evicted := some { owner with
          links := owner.links.filter fun l => !l.isOf f.provider f.providerSubject } })

/-- `newID` is what `uuid.NewV7` answers, `none` for its failure. -/
def create (tx : Txn) (s : Store) (newID : Option UUID) (tenant : TenantID) (email : Identifier)
    (phc : PasswordHash) (mustChange : Bool) (federated : FederatedIdentity) : Except Err Txn := do
  let tx ← tx.step
  if (s.owner tenant email .nil).isSome then .error .identifierTaken
  else
    match newID with
    | none => .error .userID
    | some id =>
      let subject : Subject := ⟨tenant, id⟩
      let user : User := { subject := subject, email := email, emailVerifiedAt := tx.now, createdAt := tx.now }
      let password : Option Password :=
        if phc.isZero then none else some { phc := phc, changedAt := tx.now, mustChange := mustChange }
      let tx ← { tx with subject := subject, acc := { user := user, password := password } }.step
      if federated ≠ .zero then tx.link s federated else .ok tx

def verifiedAt (id : Identifier) (now : Time) : Time := if id.isZero then 0 else now

/-- What a mutation of a loaded account writes, and the identifier it replaced. -/
def amend (tx : Txn) (s : Store) (m : Mutation) : Except Err (Txn × Identifier) :=
  let user := tx.acc.user
  match m with
  | .setPassword _ phc reason _ =>
    let mustChange := (reason.map RotationReason.forcesChange).getD false
    .ok ({ tx with acc.password := some { phc := phc, changedAt := tx.now, mustChange := mustChange } }, .zero)
  | .markEmailVerified _ phc =>
    if user.emailVerifiedAt ≠ 0 then .error (.conflict "identity: email is already verified")
    else
      -- Whoever verifies the address replaces every credential set before: the links go too.
      let password : Option Password := if phc.isZero then none else some { phc := phc, changedAt := tx.now }
      .ok ({ tx with acc := { user := { user with emailVerifiedAt := tx.now }, password := password } }, .zero)
  | .changeEmail _ email =>
    if (s.owner tx.subject.tenant email tx.subject.user).isSome then .error .identifierTaken
    else .ok ({ tx with acc.user := { user with email := email, emailVerifiedAt := tx.now } }, user.email)
  | .setPhone _ phone =>
    if !phone.isZero && (s.owner tx.subject.tenant phone tx.subject.user).isSome then .error .identifierTaken
    else
      let verified := verifiedAt phone tx.now
      .ok ({ tx with acc.user := { user with phone := phone, phoneVerifiedAt := verified } }, user.phone)
  | .setRecoveryEmail _ email =>
    let verified := verifiedAt email tx.now
    .ok ({ tx with acc.user := { user with recoveryEmail := email, recoveryEmailVerifiedAt := verified } },
      user.recoveryEmail)
  | .setDisabledState _ disable =>
    if !disable then .ok ({ tx with acc.user.disabledAt := 0 }, .zero)
    else if user.disabledAt = 0 then .ok ({ tx with acc.user.disabledAt := tx.now }, .zero)
    else .ok (tx, .zero)
  | .setMustChange _ mustChange =>
    match tx.acc.password with
    | none => if mustChange then .error (.invalidMutation "must change requires a password") else .ok (tx, .zero)
    | some pw => .ok ({ tx with acc.password := some { pw with mustChange := mustChange } }, .zero)
  | .tombstone _ => .ok ({ tx with acc.user.deletedAt := tx.now }, .zero)
  | .linkFederated _ identity _ => do
    let tx ← tx.link s identity
    .ok (tx, .zero)
  | .unlinkFederated _ provider providerSubject _ =>
    match tx.acc.links.findIdx? fun l => l.isOf provider providerSubject with
    | none => .error .notFound
    | some i => .ok ({ tx with acc.links := tx.acc.links.eraseIdx i }, .zero)
  | .bumpEpoch .. | .createVerified .. | .foreign => .ok (tx, .zero)

def mutate (tx : Txn) (s : Store) (newID : Option UUID) (m : Mutation) : Except Err (Txn × Identifier) :=
  match m with
  | .createVerified tenant email phc mustChange federated => do
    let tx ← tx.create s newID tenant email phc mustChange federated
    .ok (tx, .zero)
  | m => do
    let tx ← tx.load s (subjectOf m)
    let tx ← tx.step
    tx.amend s m

def bump (tx : Txn) (fx : Effects) : Except Err Txn :=
  if fx.bumpsEpoch then do
    let tx ← tx.step
    let epoch := tx.acc.user.securityEpoch + 1
    let row : EpochRow := ⟨tx.epochSeq + 1, ⟨tx.subject, epoch, fx.event⟩, tx.now⟩
    .ok { tx with
      acc.user.securityEpoch := epoch
      epochSeq := tx.epochSeq + 1
      epochs := tx.epochs ++ [row] }
  else .ok tx

def queue (tx : Txn) : List OutboxItem → Except Err (Txn × List OutboxItem)
  | [] => .ok (tx, [])
  | item :: items => do
    let tx ← tx.step
    let item := { item with id := tx.outboxSeq + 1, nextAttemptAt := tx.now, createdAt := tx.now }
    let next : Txn := { tx with outboxSeq := tx.outboxSeq + 1, outbox := tx.outbox ++ [{ item := item }] }
    let (tx, queued) ← next.queue items
    .ok (tx, item :: queued)

def effects (tx : Txn) (m : Mutation) (old : Identifier) : Except Err (Txn × Applied) := do
  let tx ← tx.bump (effectsOf m)
  let (tx, items) ← tx.queue (outboxFor m tx.subject old)
  .ok (tx, ⟨tx.subject, tx.acc.user.securityEpoch, items⟩)

def commit (tx : Txn) (s : Store) : Store :=
  let accounts := s.accounts.insert tx.subject tx.acc
  { accounts := match tx.evicted with
      | none => accounts
      | some a => accounts.insert a.user.subject a
    epochs := s.epochs ++ tx.epochs
    outbox := s.outbox ++ tx.outbox
    epochSeq := tx.epochSeq
    outboxSeq := tx.outboxSeq }

end Txn

namespace Store

def transact (s : Store) (clk : Time) (ctx : Nat) (newID : Option UUID) (m : Mutation) :
    Except Err (Txn × Applied) := do
  let tx ← (Txn.start s ctx clk.truncate).step
  validate m
  reserved m
  let (tx, old) ← tx.mutate s newID m
  let (tx, applied) ← tx.effects m old
  let tx ← tx.step
  .ok (tx, applied)

def apply (s : Store) (clk : Time) (ctx : Nat) (newID : Option UUID) (m : Mutation) : Store × Except Err Applied :=
  match s.transact clk ctx newID m with
  | .error err => (s, .error err)
  | .ok (tx, applied) => (tx.commit s, .ok applied)

end Store
end Egauth.Identity
