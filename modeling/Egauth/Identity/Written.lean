import Egauth.Identity.Apply
import Egauth.Semantics.Result

/-! The account that a mutation writes, with the guards it has passed.

The account is given before and after, without the bump of its epoch. A link
that another account held comes from a tombstoned one, which is written too.
Each function of the transaction has one lemma for its success.
-/

set_option autoImplicit false

namespace Egauth.Identity
open Egauth.Core

def FederatedLink.pair (l : FederatedLink) : Bytes × Bytes := (l.identity.provider, l.identity.providerSubject)

def FederatedIdentity.pair (f : FederatedIdentity) : Bytes × Bytes := (f.provider, f.providerSubject)

theorem FederatedLink.isOf_iff {l : FederatedLink} {provider subject : Bytes} :
    l.isOf provider subject = true ↔ l.pair = (provider, subject) := by
  simp [isOf, pair]

def Account.without (a : Account) (f : FederatedIdentity) : Account :=
  { a with links := a.links.filter fun l => !l.isOf f.provider f.providerSubject }

def Account.Holds (a : Account) (pair : Bytes × Bytes) : Prop := ∃ l ∈ a.links, l.pair = pair

/-- The account that a mutation leaves, before the bump; a new federated link apart. -/
def rewritten (now : Time) (m : Mutation) (a : Account) : Account :=
  match m with
  | .setPassword _ phc reason _ =>
    { a with
      password := some { phc := phc, changedAt := now, mustChange := (reason.map RotationReason.forcesChange).getD false } }
  | .markEmailVerified _ phc =>
    { user := { a.user with emailVerifiedAt := now }
      password := if phc.isZero then none else some { phc := phc, changedAt := now } }
  | .changeEmail _ email => { a with user := { a.user with email := email, emailVerifiedAt := now } }
  | .setPhone _ phone => { a with user := { a.user with phone := phone, phoneVerifiedAt := Txn.verifiedAt phone now } }
  | .setRecoveryEmail _ email =>
    { a with user := { a.user with recoveryEmail := email, recoveryEmailVerifiedAt := Txn.verifiedAt email now } }
  | .setDisabledState _ disable =>
    if !disable then { a with user := { a.user with disabledAt := 0 } }
    else if a.user.disabledAt = 0 then { a with user := { a.user with disabledAt := now } }
    else a
  | .setMustChange _ mustChange => { a with password := a.password.map ({ · with mustChange := mustChange }) }
  | .tombstone _ => { a with user := { a.user with deletedAt := now } }
  | .unlinkFederated _ provider subject _ => { a with links := a.links.eraseP fun l => l.isOf provider subject }
  | .bumpEpoch .. | .createVerified .. | .linkFederated .. | .foreign => a

def replaced (m : Mutation) (a : Account) : Identifier :=
  match m with
  | .changeEmail .. => a.user.email
  | .setPhone .. => a.user.phone
  | .setRecoveryEmail .. => a.user.recoveryEmail
  | _ => .zero

theorem epoch_rewritten (now : Time) (m : Mutation) (a : Account) :
    (rewritten now m a).user.securityEpoch = a.user.securityEpoch := by
  cases m with
  | setDisabledState sub disable =>
    dsimp only [rewritten]
    split
    · rfl
    · split <;> rfl
  | _ => rfl

theorem subject_rewritten (now : Time) (m : Mutation) (a : Account) :
    (rewritten now m a).user.subject = a.user.subject := by
  cases m with
  | setDisabledState sub disable =>
    dsimp only [rewritten]
    split
    · rfl
    · split <;> rfl
  | _ => rfl

def Mutation.loads : Mutation → Bool
  | .createVerified .. | .foreign => false
  | _ => true

def Mutation.adds : Mutation → Bool
  | .linkFederated .. => true
  | _ => false

namespace Store

/-- Nothing but a tombstoned account of another subject, with fewer links. -/
def Evicts (s : Store) (sub : Subject) (evicted : Option Account) : Prop :=
  ∀ a, evicted = some a → ∃ k owner, s.accounts.lookup k = some owner ∧ owner.user.subject ≠ sub ∧
    owner.user.deletedAt ≠ 0 ∧ a.user = owner.user ∧ a.password = owner.password ∧ a.links.Sublist owner.links

def Keyed (s : Store) : Prop := ∀ k a, s.accounts.lookup k = some a → a.user.subject = k

/-- Where the written account comes from: its subject and the epoch it had. -/
inductive Begins (s : Store) (newID : Option UUID) : Mutation → Subject → UInt64 → Prop where
  | loaded {m : Mutation} {sub : Subject} {a : Account} (named : subjectOf m = sub)
      (found : s.accounts.lookup sub = some a) (kept : a.user.deletedAt = 0) :
      Begins s newID m sub a.user.securityEpoch
  | created {tenant : TenantID} {email : Identifier} {phc : PasswordHash} {mustChange : Bool}
      {federated : FederatedIdentity} {id : UUID} (picked : newID = some id) :
      Begins s newID (.createVerified tenant email phc mustChange federated) ⟨tenant, id⟩ 0

inductive Links (s : Store) (now : Time) (sub : Subject) (f : FederatedIdentity) (before : List FederatedLink) :
    List FederatedLink → Option Account → Prop where
  | added (free : s.linkOwner sub.tenant f.provider f.providerSubject = none) :
      Links s now sub f before (before ++ [⟨sub, f, now⟩]) none
  | rebound {owner : Account} {i : Nat} (found : s.linkOwner sub.tenant f.provider f.providerSubject = some owner)
      (own : owner.user.subject = sub)
      (position : before.findIdx? (fun l => l.isOf f.provider f.providerSubject) = some i) :
      Links s now sub f before (before.set i ⟨sub, f, now⟩) none
  | taken {owner : Account} (found : s.linkOwner sub.tenant f.provider f.providerSubject = some owner)
      (other : owner.user.subject ≠ sub) (deleted : owner.user.deletedAt ≠ 0) :
      Links s now sub f before (before ++ [⟨sub, f, now⟩]) (some (owner.without f))

def Frees (s : Store) : Mutation → Prop
  | .changeEmail sub email => s.owner sub.tenant email sub.user = none
  | .setPhone sub phone => phone.isZero = true ∨ s.owner sub.tenant phone sub.user = none
  | _ => True

/-- The subject that a mutation writes, its account before and after, and the account that lost a link. -/
inductive Writes (s : Store) (now : Time) (newID : Option UUID) :
    Mutation → Subject → Option Account → Account → Option Account → Prop where
  | amended {m : Mutation} {a : Account} (plain : m.loads = true ∧ m.adds = false)
      (found : s.accounts.lookup (subjectOf m) = some a) (kept : a.user.deletedAt = 0) (frees : s.Frees m) :
      Writes s now newID m (subjectOf m) (some a) (rewritten now m a) none
  | linked {sub : Subject} {identity : FederatedIdentity} {keep : UUID} {a : Account} {links : List FederatedLink}
      {evicted : Option Account} (found : s.accounts.lookup sub = some a) (kept : a.user.deletedAt = 0)
      (joins : s.Links now sub identity a.links links evicted) :
      Writes s now newID (.linkFederated sub identity keep) sub (some a) { a with links := links } evicted
  | created {tenant : TenantID} {email : Identifier} {phc : PasswordHash} {mustChange : Bool}
      {federated : FederatedIdentity} {id : UUID} {a : Account} {evicted : Option Account} (picked : newID = some id)
      (frees : s.owner tenant email .nil = none)
      (user : a.user = { subject := ⟨tenant, id⟩, email := email, emailVerifiedAt := now, createdAt := now })
      (joins : federated = .zero ∧ a.links = [] ∧ evicted = none ∨
        s.Links now ⟨tenant, id⟩ federated [] a.links evicted) :
      Writes s now newID (.createVerified tenant email phc mustChange federated) ⟨tenant, id⟩ none a evicted

theorem links_test {a : Account} {provider subject : Bytes} :
    (a.links.any fun l => l.isOf provider subject) = true ↔ a.Holds (provider, subject) := by
  simp [Account.Holds, FederatedLink.isOf_iff]

theorem linkOwner_eq_some {s : Store} {tenant : TenantID} {a : Account} {provider subject : Bytes}
    (found : s.linkOwner tenant provider subject = some a) :
    ∃ k, s.accounts.lookup k = some a ∧ k.tenant = tenant ∧ a.Holds (provider, subject) := by
  obtain ⟨⟨k, a⟩, first, rfl⟩ := Option.map_eq_some_iff.mp found
  have meets := List.find?_some first
  simp only [Bool.and_eq_true, decide_eq_true_eq, links_test] at meets
  exact ⟨k, Map.mem_entries.mp (List.mem_of_find?_eq_some first), meets⟩

end Store

namespace Txn
variable {tx tx' : Txn} {s : Store}

theorem step_ok (ok : tx.step = .ok tx') : ∃ ctx, tx' = { tx with ctx := ctx } := by
  unfold step at ok
  split at ok
  · cases ok
  next ctx _ =>
    cases ok
    exact ⟨ctx, rfl⟩

theorem load_ok {sub : Subject} (ok : tx.load s sub = .ok tx') :
    ∃ ctx a, s.accounts.lookup sub = some a ∧ a.user.deletedAt = 0 ∧
      tx' = { tx with ctx := ctx, subject := sub, acc := a } := by
  obtain ⟨tx₁, stepped, ok⟩ := bind_eq_ok.mp ok
  obtain ⟨ctx, rfl⟩ := step_ok stepped
  split at ok
  · cases ok
  next a found =>
    split at ok
    · cases ok
    next kept =>
      cases ok
      exact ⟨ctx, a, found, not_not.mp kept, rfl⟩

theorem link_ok {f : FederatedIdentity} (ok : tx.link s f = .ok tx') (none : tx.evicted = none) :
    ∃ links evicted, tx' = { tx with acc.links := links, evicted := evicted } ∧
      s.Links tx.now tx.subject f tx.acc.links links evicted := by
  dsimp only [link] at ok
  split at ok
  next free =>
    cases ok
    exact ⟨_, _, rfl, none ▸ .added free⟩
  next owner found =>
    split at ok
    next own =>
      unfold rebind at ok
      split at ok
      · cases ok
      next i position =>
        split at ok
        · cases ok
        · cases ok
          exact ⟨_, _, rfl, none ▸ .rebound found own position⟩
    next other =>
      split at ok
      · cases ok
      next deleted =>
        cases ok
        exact ⟨_, _, rfl, .taken found other deleted⟩

/-- What a mutation leaves of the account that it loaded; only a new link can take one from another account. -/
theorem amend_ok {m : Mutation} {old : Identifier} (ok : tx.amend s m = .ok (tx', old))
    (untaken : tx.evicted = none) (own : tx.subject = subjectOf m) :
    old = replaced m tx.acc ∧ (m.adds = false ∧ s.Frees m ∧ tx' = { tx with acc := rewritten tx.now m tx.acc } ∨
      ∃ sub identity keep links evicted, m = .linkFederated sub identity keep ∧
        s.Links tx.now sub identity tx.acc.links links evicted ∧
        tx' = { tx with acc.links := links, evicted := evicted }) := by
  cases m with
  | linkFederated sub identity keep =>
    obtain ⟨tx₁, linked, ok⟩ := bind_eq_ok.mp ok
    obtain ⟨links, evicted, rfl, joins⟩ := link_ok linked untaken
    cases ok
    rw [own] at joins
    exact ⟨rfl, .inr ⟨sub, identity, keep, links, evicted, rfl, joins, rfl⟩⟩
  | setPassword | setRecoveryEmail | tombstone | bumpEpoch | createVerified | foreign =>
    cases ok
    exact ⟨rfl, .inl ⟨rfl, trivial, rfl⟩⟩
  | markEmailVerified =>
    dsimp only [amend] at ok
    split at ok
    · cases ok
    · cases ok
      exact ⟨rfl, .inl ⟨rfl, trivial, rfl⟩⟩
  | changeEmail sub email =>
    dsimp only [amend] at ok
    split at ok
    · cases ok
    next free =>
      cases ok
      rw [own] at free
      exact ⟨rfl, .inl ⟨rfl, Option.not_isSome_iff_eq_none.mp free, rfl⟩⟩
  | setPhone sub phone =>
    dsimp only [amend] at ok
    split at ok
    · cases ok
    next free =>
      cases ok
      rw [own] at free
      refine ⟨rfl, .inl ⟨rfl, ?_, rfl⟩⟩
      cases zero : phone.isZero with
      | true => exact .inl zero
      | false => exact .inr (by simpa [zero, subjectOf] using free)
  | setDisabledState sub disable =>
    dsimp only [amend, rewritten] at ok ⊢
    split at ok
    next enable =>
      cases ok
      exact ⟨rfl, .inl ⟨rfl, trivial, by rw [if_pos enable]⟩⟩
    next disabling =>
      rw [if_neg disabling]
      split at ok
      next first =>
        cases ok
        exact ⟨rfl, .inl ⟨rfl, trivial, by rw [if_pos first]⟩⟩
      next again =>
        cases ok
        exact ⟨rfl, .inl ⟨rfl, trivial, by rw [if_neg again]⟩⟩
  | setMustChange sub mustChange =>
    dsimp only [amend] at ok
    split at ok
    next bare =>
      split at ok
      · cases ok
      · cases ok
        have same : tx.acc.password.map ({ · with mustChange := mustChange }) = tx.acc.password := by rw [bare]; rfl
        exact ⟨rfl, .inl ⟨rfl, trivial, by rw [rewritten, same]⟩⟩
    next pw stored =>
      cases ok
      exact ⟨rfl, .inl ⟨rfl, trivial, by simp [rewritten, stored]⟩⟩
  | unlinkFederated sub provider subject keep =>
    dsimp only [amend] at ok
    split at ok
    · cases ok
    next i found =>
      cases ok
      refine ⟨rfl, .inl ⟨rfl, trivial, ?_⟩⟩
      simp only [rewritten, List.eraseP_eq_eraseIdx, found]

theorem create_ok {newID : Option UUID} {tenant : TenantID} {email : Identifier} {phc : PasswordHash}
    {mustChange : Bool} {federated : FederatedIdentity} (untaken : tx.evicted = none)
    (ok : tx.create s newID tenant email phc mustChange federated = .ok tx') :
    s.Writes tx.now newID (.createVerified tenant email phc mustChange federated) tx'.subject none tx'.acc tx'.evicted ∧
      tx'.acc.password = (if phc.isZero then none
        else some { phc := phc, changedAt := tx.now, mustChange := mustChange }) ∧
      ∃ ctx, tx' = { tx with ctx := ctx, subject := tx'.subject, acc := tx'.acc, evicted := tx'.evicted } := by
  obtain ⟨tx₁, stepped, ok⟩ := bind_eq_ok.mp ok
  obtain ⟨ctx, rfl⟩ := step_ok stepped
  split at ok
  · cases ok
  next taken =>
    have frees := Option.not_isSome_iff_eq_none.mp taken
    cases newID with
    | none => cases ok
    | some id =>
      obtain ⟨tx₂, stepped, ok⟩ := bind_eq_ok.mp ok
      obtain ⟨ctx, rfl⟩ := step_ok stepped
      split at ok
      · obtain ⟨links, evicted, rfl, joins⟩ := link_ok ok untaken
        exact ⟨.created rfl frees rfl (.inr joins), rfl, ctx, rfl⟩
      next bare =>
        cases ok
        exact ⟨.created rfl frees rfl (.inl ⟨not_not.mp bare, rfl, untaken⟩), rfl, ctx, rfl⟩

theorem mutate_ok {newID : Option UUID} {m : Mutation} {old : Identifier} (valid : m.check = none)
    (untaken : tx.evicted = none) (ok : tx.mutate s newID m = .ok (tx', old)) :
    ∃ before ctx, s.Writes tx.now newID m tx'.subject before tx'.acc tx'.evicted ∧
      old = (before.map (replaced m)).getD .zero ∧
      tx' = { tx with ctx := ctx, subject := tx'.subject, acc := tx'.acc, evicted := tx'.evicted } := by
  unfold mutate at ok
  split at ok
  · obtain ⟨tx₁, made, ok⟩ := bind_eq_ok.mp ok
    cases ok
    obtain ⟨writes, -, ctx, same⟩ := create_ok untaken made
    exact ⟨_, ctx, writes, rfl, same⟩
  next other =>
    obtain ⟨tx₁, loaded, ok⟩ := bind_eq_ok.mp ok
    obtain ⟨_, a, found, kept, rfl⟩ := load_ok loaded
    obtain ⟨tx₂, stepped, ok⟩ := bind_eq_ok.mp ok
    obtain ⟨ctx, rfl⟩ := step_ok stepped
    obtain ⟨same, ⟨plain, frees, rfl⟩ | ⟨sub, identity, keep, links, evicted, rfl, joins, rfl⟩⟩ :=
      amend_ok ok untaken rfl
    · have loads : m.loads = true := by
        cases m with
        | createVerified tenant email phc mustChange federated => exact absurd rfl (other _ _ _ _ _)
        | foreign => cases valid
        | _ => rfl
      exact ⟨some a, ctx, untaken ▸ .amended ⟨loads, plain⟩ found kept frees, same, rfl⟩
    · exact ⟨some a, ctx, .linked found kept joins, same, rfl⟩

end Txn

namespace Store
variable {s : Store} {now : Time} {newID : Option UUID} {m : Mutation} {sub : Subject} {before : Option Account}
  {after : Account} {evicted : Option Account}

theorem Links.evicts {f : FederatedIdentity} {old links : List FederatedLink}
    (joins : s.Links now sub f old links evicted) : s.Evicts sub evicted := by
  cases joins with
  | added | rebound => exact fun _ absent => nomatch absent
  | @taken owner found other deleted =>
    rintro a ⟨⟩
    obtain ⟨k, stored, -⟩ := linkOwner_eq_some found
    exact ⟨k, owner, stored, other, deleted, rfl, rfl, List.filter_sublist⟩

theorem Writes.evicts (writes : s.Writes now newID m sub before after evicted) : s.Evicts sub evicted := by
  cases writes with
  | amended => exact fun _ absent => nomatch absent
  | linked found kept joins => exact joins.evicts
  | created picked frees user joins =>
    rcases joins with ⟨-, -, rfl⟩ | joins
    · exact fun _ absent => nomatch absent
    · exact joins.evicts

theorem Writes.started (keyed : s.Keyed) (writes : s.Writes now newID m sub before after evicted) :
    after.user.subject = sub ∧ s.Begins newID m sub after.user.securityEpoch := by
  cases writes with
  | amended plain found kept frees =>
    rw [epoch_rewritten, subject_rewritten]
    exact ⟨keyed _ _ found, .loaded rfl found kept⟩
  | @linked sub identity keep a links evicted found kept joins =>
    have loaded : s.Begins newID (.linkFederated sub identity keep) sub a.user.securityEpoch := .loaded rfl found kept
    exact ⟨keyed sub a found, loaded⟩
  | created picked frees user joins =>
    rw [user]
    exact ⟨rfl, .created picked⟩

end Store
end Egauth.Identity
