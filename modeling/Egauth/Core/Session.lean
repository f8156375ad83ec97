import Egauth.Core.Pending

/-! Established sessions and the transitions that produce them.

`Admit` takes the lineage that `uuid.New` returned to it as an argument.
-/

set_option autoImplicit false

namespace Egauth.Core

inductive ClaimsOutcome where
  | refreshed
  | keptStale
  | unavailable
  | subjectUnknown
  | tooLarge
  deriving DecidableEq, Repr

/-- The zero value has version zero; every transition refuses it. -/
structure SessionAttrs where
  version : UInt8
  lineage : UUID
  subject : Subject
  factors : List Factor
  credentialIDs : List CredentialUse
  primaryAt : Time
  secondAt : Time
  epoch : UInt64
  mustChange : Bool
  remember : Bool
  returnTo : Bytes
  transport : Option Transport
  provider : Bytes
  createdAt : Time
  claimsFetchedAt : Time
  deriving DecidableEq

/-- `FreshWithin`: the primary factor must be recent, and so must the second once there is one. -/
def SessionAttrs.freshWithin (a : SessionAttrs) (d : Duration) (now : Time) : Bool :=
  if d ≤ 0 ∨ a.primaryAt = 0 ∨ now.sub a.primaryAt > d then false
  else if hasRole a.factors .second || multiFactor a.factors then
    decide (a.secondAt ≠ 0 ∧ now.sub a.secondAt ≤ d)
  else true

def pendingForReauth (a : SessionAttrs) (now : Time) : Pending :=
  if a.version = 0 then .zero
  else { Pending.zero with
    version := codecVersion, tenant := a.subject.tenant, subject := a.subject, epochAtBind := a.epoch,
    remember := a.remember, transport := a.transport, reauthOf := a.lineage, expiresAt := now + pendingTTL }

inductive Admission where
  | session (attrs : SessionAttrs)
  | needsFactor (pending : Pending) (needs : List Factor)
  deriving DecidableEq

def admitPending (p : Pending) (st : AccountState) (mfa : MFADecision) (now : Time) (lineage : UUID) :
    Except Err Admission :=
  if p.version = 0 ∨ p.transport = none ∨ mfa.isZero ∨ now = 0 then .error .invalidArgument
  else if ¬now < p.expiresAt then .error .pendingExpired
  else if p.bound = false then .error .notBound
  else if p.reauthOf ≠ .nil then .error .reauthPending
  else if hasRole p.factorSet .primary = false then .error .noPrimary
  else if st.usable = false then .error .accountUnusable
  else if st.epoch ≠ p.epochAtBind then .error .epochStale
  else if mfa.required ∧ multiFactor p.factorSet = false then .ok (.needsFactor p mfa.enrolled)
  else .ok (.session {
    version := codecVersion, lineage := lineage, subject := p.subject, factors := p.factorSet,
    credentialIDs := p.credentialUses, primaryAt := p.primaryAt, secondAt := p.secondAt, epoch := st.epoch,
    mustChange := st.mustChange, remember := p.remember, returnTo := p.returnTo, transport := p.transport,
    provider := p.provider, createdAt := now, claimsFetchedAt := now })

/-- The loop of `Reauthenticate` over the credentials of the Pending. -/
def appendCredentials (uses new : List CredentialUse) : List CredentialUse :=
  new.foldl (fun out u => if out.contains u then out else out ++ [u]) uses

def reauthenticate (a : SessionAttrs) (p : Pending) (st : AccountState) (mfa : MFADecision) (now : Time) :
    Except Err SessionAttrs :=
  if a.version = 0 ∨ p.version = 0 ∨ mfa.isZero ∨ now = 0 then .error .invalidArgument
  else if p.reauthOf = .nil ∨ p.reauthOf ≠ a.lineage then .error .lineageMismatch
  else if p.subject ≠ a.subject then .error .subjectMismatch
  else if ¬now < p.expiresAt then .error .pendingExpired
  else if hasRole p.factorSet .primary = false then .error .noPrimary
  else if st.usable = false then .error .accountUnusable
  else if st.epoch ≠ a.epoch ∨ st.epoch ≠ p.epochAtBind then .error .epochStale
  else if mfa.required ∧ multiFactor p.factorSet = false then .error .factorRequired
  else .ok { a with
    factors := unionFactors a.factors p.factorSet,
    credentialIDs := appendCredentials a.credentialIDs p.credentialUses,
    primaryAt := p.primaryAt,
    secondAt := if p.secondAt = 0 then a.secondAt else p.secondAt,
    mustChange := a.mustChange || st.mustChange }

def checkBumped (a : SessionAttrs) (st : AccountState) : Option Err :=
  if st.usable = false then some .accountUnusable
  else if st.epoch ≠ a.epoch + 1 then some .epochStale
  else none

/-- The session enrolled a second factor; `secondAt` is left unchanged. -/
def factorEnrolled (a : SessionAttrs) (f : Factor) (st : AccountState) : Except Err SessionAttrs :=
  if a.version = 0 then .error .invalidArgument
  else if f.role ≠ some .second then .error .invalidFactor
  else match checkBumped a st with
    | some err => .error err
    | none => .ok { a with
      factors := unionFactors a.factors [f], epoch := st.epoch, mustChange := a.mustChange || st.mustChange }

def passwordChanged (a : SessionAttrs) (st : AccountState) (now : Time) : Except Err SessionAttrs :=
  if a.version = 0 ∨ now = 0 then .error .invalidArgument
  else match checkBumped a st with
    | some err => .error err
    | none => .ok { a with
      factors := unionFactors a.factors [.password], primaryAt := now, mustChange := false, epoch := st.epoch }

def renew (a : SessionAttrs) (st : AccountState) (mfa : MFADecision) (claims : Option ClaimsOutcome) (now : Time) :
    Except Err SessionAttrs :=
  if a.version = 0 ∨ mfa.isZero ∨ now = 0 then .error .invalidArgument
  else if st.usable = false then .error .accountUnusable
  else if a.epoch ≠ st.epoch then .error .epochStale
  else if mfa.required ∧ multiFactor a.factors = false then .error .reauthRequired
  else match claims with
    | some .refreshed => .ok { a with claimsFetchedAt := now, mustChange := a.mustChange || st.mustChange }
    | some .keptStale => .ok { a with mustChange := a.mustChange || st.mustChange }
    | some .unavailable => .error .claimsUnavailable
    | some .subjectUnknown => .error .claimsSubjectUnknown
    | some .tooLarge => .error .claimsTooLarge
    | none => .error (.join .invalidArgument (.text "claims outcome"))

/-- What `Admit` and `Reauthenticate` both ask of a Pending before it counts. -/
structure Completes (p : Pending) (st : AccountState) (mfa : MFADecision) : Prop where
  primary : hasRole p.factorSet .primary = true
  usable : st.usable = true
  epoch : st.epoch = p.epochAtBind
  multi : mfa.required = true → multiFactor p.factorSet = true

section
variable {a a' : SessionAttrs} {p : Pending} {st : AccountState} {mfa : MFADecision} {now : Time}

theorem admitPending_session {lineage : UUID} (ok : admitPending p st mfa now lineage = .ok (.session a)) :
    p.version ≠ 0 ∧ p.bound = true ∧ Completes p st mfa ∧ a = {
      version := codecVersion, lineage := lineage, subject := p.subject, factors := p.factorSet,
      credentialIDs := p.credentialUses, primaryAt := p.primaryAt, secondAt := p.secondAt, epoch := st.epoch,
      mustChange := st.mustChange, remember := p.remember, returnTo := p.returnTo, transport := p.transport,
      provider := p.provider, createdAt := now, claimsFetchedAt := now } := by
  simp only [admitPending, ite_error_eq_ok, Bool.not_eq_false, not_not] at ok
  obtain ⟨valid, -, bound, -, primary, usable, epoch, ok⟩ := ok
  split at ok
  · cases ok
  next multi =>
    cases ok
    have met : mfa.required = true → multiFactor p.factorSet = true := by simpa using multi
    exact ⟨fun zero => valid (.inl zero), bound, ⟨primary, usable, epoch, met⟩, rfl⟩

theorem reauthenticate_ok (ok : reauthenticate a p st mfa now = .ok a') :
    p.reauthOf = a.lineage ∧ p.subject = a.subject ∧ Completes p st mfa ∧ a' = { a with
      factors := unionFactors a.factors p.factorSet,
      credentialIDs := appendCredentials a.credentialIDs p.credentialUses,
      primaryAt := p.primaryAt,
      secondAt := if p.secondAt = 0 then a.secondAt else p.secondAt,
      mustChange := a.mustChange || st.mustChange } := by
  simp only [reauthenticate, ite_error_eq_ok, Bool.not_eq_false, not_not, not_or, not_and] at ok
  obtain ⟨-, lineage, subject, -, primary, usable, epoch, multi, ok⟩ := ok
  cases ok
  exact ⟨lineage.2, subject, ⟨primary, usable, epoch.2, multi⟩, rfl⟩

theorem checkBumped_eq_none (ok : checkBumped a st = none) : st.epoch = a.epoch + 1 := by
  unfold checkBumped at ok
  split at ok
  · cases ok
  split at ok
  · cases ok
  next epoch => exact not_not.mp epoch

theorem factorEnrolled_ok {f : Factor} (ok : factorEnrolled a f st = .ok a') :
    f.role = some .second ∧ a' = { a with
      factors := unionFactors a.factors [f], epoch := a.epoch + 1, mustChange := a.mustChange || st.mustChange } := by
  simp only [factorEnrolled, ite_error_eq_ok, not_not] at ok
  obtain ⟨-, role, ok⟩ := ok
  split at ok
  · cases ok
  next bumped =>
    cases ok
    rw [checkBumped_eq_none bumped]
    exact ⟨role, rfl⟩

theorem passwordChanged_ok (ok : passwordChanged a st now = .ok a') :
    a' = { a with
      factors := unionFactors a.factors [.password], primaryAt := now, mustChange := false,
      epoch := a.epoch + 1 } := by
  simp only [passwordChanged, ite_error_eq_ok] at ok
  obtain ⟨-, ok⟩ := ok
  split at ok
  · cases ok
  next bumped =>
    cases ok
    rw [checkBumped_eq_none bumped]

theorem renew_ok {claims : Option ClaimsOutcome} (ok : renew a st mfa claims now = .ok a') :
    ∃ fetched, a' = { a with claimsFetchedAt := fetched, mustChange := a.mustChange || st.mustChange } := by
  simp only [renew, ite_error_eq_ok] at ok
  obtain ⟨-, -, -, -, ok⟩ := ok
  split at ok
  · cases ok
    exact ⟨now, rfl⟩
  · cases ok
    exact ⟨a.claimsFetchedAt, rfl⟩
  all_goals cases ok

end
end Egauth.Core
