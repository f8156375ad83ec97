import Egauth.Core.Factor
import Egauth.Semantics.Result
import Egauth.Semantics.Time

/-! The pre-session state of one login or reauthentication.

A Pending accumulates verifications until it is admitted. Instants carry no
location or monotonic reading here, so `canonTime` and the clones of the source
leave no trace.
-/

set_option autoImplicit false

namespace Egauth.Core

def codecVersion : UInt8 := 1

/-- Enumerations whose zero or undeclared values matter are passed as options, none for such a value. -/
inductive Transport where
  | cookies
  | bearer
  deriving DecidableEq, Repr

inductive RememberIntent where
  | declined
  | requested
  deriving DecidableEq, Repr

inductive RememberMePolicy where
  | userChoice
  | always
  | never
  deriving DecidableEq, Repr

/-- The authoritative account state; its zero value is an account that does not exist. -/
structure AccountState where
  «exists» : Bool
  disabled : Bool
  deleted : Bool
  mustChange : Bool
  emailVerified : Bool
  epoch : UInt64
  deriving DecidableEq, Repr

def AccountState.usable (st : AccountState) : Bool := st.exists && !st.disabled && !st.deleted

structure MFADecision where
  loaded : Bool
  enrolled : List Factor
  deriving DecidableEq, Repr

namespace MFADecision

def new (enrolled : List Factor) : MFADecision := ⟨true, sortFactors (distinct enrolled)⟩

def isZero (d : MFADecision) : Bool := !d.loaded

def required (d : MFADecision) : Bool := !d.loaded || !d.enrolled.isEmpty

end MFADecision

structure CredentialUse where
  factor : Factor
  id : Bytes
  deriving DecidableEq, Repr

def credentialClash (existing : List CredentialUse) (f : Factor) (id : Bytes) : Bool :=
  match f with
  | .passkey => existing.any fun u => u.factor == .passkeyStepUp && u.id == id
  | .passkeyStepUp => existing.any fun u => u.factor == .passkey && u.id == id
  | _ => false

structure Verified where
  subject : Subject
  factors : List Factor
  credentialID : Bytes
  identifies : Bool
  provider : Bytes
  verifiedAt : Time
  deriving DecidableEq

structure VerifiedSpec where
  subject : Subject
  factors : List Factor
  credentialID : Bytes
  identifies : Bool
  provider : Bytes
  verifiedAt : Time
  deriving DecidableEq

/-- One second factor alone, or one primary factor with user verification exactly when it is a passkey. -/
def checkVerifiedShape (fs : List Factor) (credentialID : Bytes) (identifies : Bool) (provider : Bytes) :
    Option Err :=
  let primary := fs.countP fun f => f.role == some .primary
  let second := fs.countP fun f => f.role == some .second
  let uv := fs.countP fun f => f.role == some .qualifier
  let hasPK := fs.contains .passkey
  let needsCred := hasPK || fs.contains .passkeyStepUp
  let needsProvider := fs.contains .federated || fs.contains .external
  if fs = [] then some (.text "no factor")
  else if ¬(fs.all Factor.valid ∧ fs.Nodup) then some .invalidFactor
  else if second = 1 ∧ primary = 0 ∧ uv = 0 ∧ identifies = true then some (.text "second factors do not identify")
  else if ¬(second = 1 ∧ primary = 0 ∧ uv = 0) ∧ ¬(primary = 1 ∧ second = 0 ∧ (uv = 1 ↔ hasPK = true)) then
    some (.text "invalid factor combination")
  else if ¬(needsCred = true ↔ credentialID ≠ []) then some (.text "credential id mismatch")
  else if ¬(needsProvider = true ↔ provider ≠ []) then some (.text "provider mismatch")
  else none

def newVerified (s : VerifiedSpec) : Except Err Verified :=
  if s.subject.isZero ∨ s.verifiedAt = 0 then .error .invalidVerified
  else match checkVerifiedShape s.factors s.credentialID s.identifies s.provider with
    | some err => .error (.join .invalidVerified err)
    | none => .ok ⟨s.subject, sortFactors s.factors, s.credentialID, s.identifies, s.provider, s.verifiedAt⟩

def pendingTTL : Duration := 15 * Duration.minute

def bindHashLen : Nat := 32

/-- The zero value has version zero; every step refuses it. -/
structure Pending where
  version : UInt8
  tenant : TenantID
  subject : Subject
  epochAtBind : UInt64
  verified : List Verified
  remember : Bool
  returnTo : Bytes
  transport : Option Transport
  provider : Bytes
  reauthOf : UUID
  bindHash : Bytes
  expiresAt : Time
  deriving DecidableEq

namespace Pending

def zero : Pending := ⟨0, .zero, .zero, 0, [], false, [], none, [], .nil, [], 0⟩

/-- `NewPending`, the only place the remember-me policy is applied. -/
def new (t : TenantID) (remember : Option RememberIntent) (returnTo : Bytes) (tr : Option Transport)
    (pol : Option RememberMePolicy) (now : Time) : Except Err Pending :=
  match remember with
  | none => .error (.join .invalidArgument (.text "remember intent"))
  | some intent =>
    if tr = none then .error (.join .invalidArgument (.text "transport"))
    else match pol with
      | none => .error (.join .invalidArgument (.text "remember-me policy"))
      | some policy =>
        let rem := match policy with
          | .userChoice => intent == .requested
          | .always => true
          | .never => false
        if now = 0 then .error (.join .invalidArgument (.text "time"))
        else .ok { zero with
          version := codecVersion, tenant := t, remember := rem, returnTo := returnTo, transport := tr,
          expiresAt := now + pendingTTL }

def bound (p : Pending) : Bool := !p.subject.isZero

def bind (p : Pending) (s : Subject) (st : AccountState) : Except Err Pending :=
  if p.version = 0 ∨ s.isZero then .error .invalidArgument
  else if s.tenant ≠ p.tenant then .error .tenantMismatch
  else if p.bound then .error .alreadyBound
  else .ok { p with subject := s, epochAtBind := st.epoch }

def withBindHash (p : Pending) (h : Bytes) : Except Err Pending :=
  if p.version = 0 ∨ h.length ≠ bindHashLen ∨ p.bindHash ≠ [] then .error .invalidArgument
  else .ok { p with bindHash := h }

def factorSet (p : Pending) : List Factor := p.verified.foldl (fun out v => unionFactors out v.factors) []

def credentialUses (p : Pending) : List CredentialUse :=
  p.verified.flatMap fun v =>
    if v.credentialID = [] then []
    else (v.factors.filter fun f => f == .passkey || f == .passkeyStepUp).map fun f => ⟨f, v.credentialID⟩

/-- What `Add` asks of the account: an unbound Pending is bound by an identifying primary
verification, a bound one takes verifications of its subject at its epoch. -/
def accept (p : Pending) (v : Verified) (st : AccountState) : Except Err Pending :=
  if p.bound then
    if v.subject ≠ p.subject then .error .subjectMismatch
    else if st.epoch ≠ p.epochAtBind then .error .epochStale
    else .ok p
  else if hasRole v.factors .second then .error .notBound
  else if v.identifies = false then .error .notIdentifying
  else .ok { p with subject := v.subject, epochAtBind := st.epoch }

def add (p : Pending) (v : Verified) (st : AccountState) : Except Err Pending :=
  if p.version = 0 ∨ v.factors = [] then .error .invalidArgument
  else if v.subject.tenant ≠ p.tenant then .error .tenantMismatch
  else if ¬v.verifiedAt < p.expiresAt then .error .pendingExpired
  else do
    let n ← p.accept v st
    if v.factors.any fun f => credentialClash p.credentialUses f v.credentialID then .error .sameCredential
    else if v.provider ≠ [] ∧ p.provider ≠ [] ∧ p.provider ≠ v.provider then .error .providerMismatch
    else .ok { n with
      provider := if v.provider = [] then p.provider else v.provider,
      verified := p.verified ++ [v] }

def latest (p : Pending) (select : Verified → Bool) : Time :=
  p.verified.foldl (fun t v => if select v && decide (t < v.verifiedAt) then v.verifiedAt else t) 0

def primaryAt (p : Pending) : Time := p.latest fun v => hasRole v.factors .primary

def secondAt (p : Pending) : Time := p.latest fun v => hasRole v.factors .second || multiFactor v.factors

end Pending

section
variable {fs gs : List Factor} {credentialID provider : Bytes} {identifies : Bool}

theorem checkVerifiedShape_perm (same : fs.Perm gs) :
    checkVerifiedShape fs credentialID identifies provider =
      checkVerifiedShape gs credentialID identifies provider := by
  have empty : fs = [] ↔ gs = [] := ⟨fun nil => (nil ▸ same).nil_eq.symm, fun nil => (nil ▸ same).eq_nil⟩
  have holds (f : Factor) : fs.contains f = gs.contains f := by
    rw [Bool.eq_iff_iff, List.contains_iff_mem, List.contains_iff_mem, same.mem_iff]
  simp only [checkVerifiedShape, empty, holds, same.all_eq, same.nodup_iff, same.countP_eq]

structure Shape (fs : List Factor) (credentialID : Bytes) (identifies : Bool) : Prop where
  valid : ∀ f ∈ fs, f.valid = true
  once : fs.Nodup
  apart : hasRole fs .primary = true → hasRole fs .second = false
  identifying : identifies = true → hasRole fs .second = false
  verification : .passkey ∈ fs → .userVerification ∈ fs
  credential : credentialID ≠ [] ↔ .passkey ∈ fs ∨ .passkeyStepUp ∈ fs

theorem countP_role_eq_zero {r : FactorRole} :
    (fs.countP fun f => f.role == some r) = 0 ↔ hasRole fs r = false := by
  simp [hasRole, List.countP_eq_zero]

theorem Shape.of_check (ok : checkVerifiedShape fs credentialID identifies provider = none) :
    Shape fs credentialID identifies := by
  simp only [checkVerifiedShape, ite_some_eq_none, not_not] at ok
  obtain ⟨-, ⟨valid, once⟩, alone, combination, credential, -⟩ := ok
  -- Two combinations pass: a second factor alone, or one primary factor.
  have allowed := not_and_or.mp combination
  simp only [not_not, countP_role_eq_zero] at alone allowed
  refine ⟨List.all_eq_true.mp valid, once, ?_, ?_, ?_, ?_⟩
  · intro primary
    rcases allowed with ⟨-, none, -⟩ | ⟨-, none, -⟩
    · rw [primary] at none
      cases none
    · exact none
  · intro identifying
    rcases allowed with ⟨one, none, bare⟩ | ⟨-, none, -⟩
    · exact absurd ⟨one, none, bare, identifying⟩ alone
    · exact none
  · intro passkey
    have primary : hasRole fs .primary = true := hasRole_iff.mpr ⟨_, passkey, rfl⟩
    rcases allowed with ⟨-, none, -⟩ | ⟨-, -, paired⟩
    · rw [primary] at none
      cases none
    · have one := paired.mpr (List.contains_iff_mem.mpr passkey)
      have found : 0 < fs.countP fun f => f.role == some .qualifier := by omega
      -- User verification is the only qualifier.
      obtain ⟨f, member, role⟩ := List.countP_pos_iff.mp found
      cases f with
      | userVerification => exact member
      | _ => cases role
  · simpa using credential.symm

end

/-- What every verification that `NewVerified` builds satisfies. -/
structure Verified.Formed (v : Verified) : Prop where
  subject : v.subject.isZero = false
  dated : v.verifiedAt ≠ 0
  ordered : Ordered v.factors
  shape : checkVerifiedShape v.factors v.credentialID v.identifies v.provider = none

theorem newVerified_ok {s : VerifiedSpec} {v : Verified} (ok : newVerified s = .ok v) : v.Formed := by
  simp only [newVerified, ite_error_eq_ok, not_or, Bool.not_eq_true] at ok
  obtain ⟨⟨subject, dated⟩, ok⟩ := ok
  split at ok
  · cases ok
  next shape =>
    cases ok
    have sorted : (sortFactors s.factors).Perm s.factors := List.perm_insertionSort _ _
    exact ⟨subject, dated, ordered_sortFactors (Shape.of_check shape).once,
      (checkVerifiedShape_perm sorted).trans shape⟩

theorem credentialClash_iff {uses : List CredentialUse} {f : Factor} {id : Bytes} :
    credentialClash uses f id = true ↔
      f = .passkey ∧ ⟨.passkeyStepUp, id⟩ ∈ uses ∨ f = .passkeyStepUp ∧ ⟨.passkey, id⟩ ∈ uses := by
  have found (g : Factor) : (uses.any fun u => u.factor == g && u.id == id) = true ↔ ⟨g, id⟩ ∈ uses := by
    simp only [List.any_eq_true, Bool.and_eq_true, beq_iff_eq]
    constructor
    · rintro ⟨⟨_, _⟩, member, rfl, rfl⟩
      exact member
    · exact fun member => ⟨_, member, rfl, rfl⟩
  cases f <;> simp [credentialClash, found]

namespace Pending

section
variable {p p' : Pending}

theorem new_ok {t : TenantID} {remember : Option RememberIntent} {returnTo : Bytes} {tr : Option Transport}
    {pol : Option RememberMePolicy} {now : Time} (ok : new t remember returnTo tr pol now = .ok p) :
    ∃ rem, p = { zero with
      version := codecVersion, tenant := t, remember := rem, returnTo := returnTo, transport := tr,
      expiresAt := now + pendingTTL } := by
  unfold new at ok
  split at ok
  · cases ok
  rw [ite_error_eq_ok] at ok
  obtain ⟨-, ok⟩ := ok
  split at ok
  · cases ok
  dsimp only at ok
  rw [ite_error_eq_ok] at ok
  obtain ⟨-, ok⟩ := ok
  cases ok
  exact ⟨_, rfl⟩

/-- Everything `Add` checks and changes; a bound Pending keeps its subject and epoch, since they agree. -/
structure Added (p : Pending) (v : Verified) (st : AccountState) (p' : Pending) : Prop where
  version : p.version ≠ 0
  tenant : v.subject.tenant = p.tenant
  before : v.verifiedAt < p.expiresAt
  bound : p.bound = true → v.subject = p.subject ∧ st.epoch = p.epochAtBind
  unbound : p.bound = false → v.identifies = true
  apart : ∀ f ∈ v.factors, credentialClash p.credentialUses f v.credentialID = false
  result : p' = { p with
    subject := v.subject, epochAtBind := st.epoch,
    provider := if v.provider = [] then p.provider else v.provider,
    verified := p.verified ++ [v] }

theorem accept_ok {v : Verified} {st : AccountState} (ok : p.accept v st = .ok p') :
    (p.bound = true → v.subject = p.subject ∧ st.epoch = p.epochAtBind) ∧
      (p.bound = false → v.identifies = true) ∧
      p' = { p with subject := v.subject, epochAtBind := st.epoch } := by
  unfold accept at ok
  split at ok
  next bound =>
    simp only [ite_error_eq_ok, not_not] at ok
    obtain ⟨subject, epoch, ok⟩ := ok
    cases ok
    refine ⟨fun _ => ⟨subject, epoch⟩, fun unbound => ?_, ?_⟩
    · rw [bound] at unbound
      cases unbound
    · -- A bound Pending is left as it is: its subject and epoch are those given.
      rw [subject, epoch]
  next unbound =>
    simp only [ite_error_eq_ok, Bool.not_eq_false] at ok
    obtain ⟨-, identifies, ok⟩ := ok
    cases ok
    exact ⟨fun bound => absurd bound unbound, fun _ => identifies, rfl⟩

theorem add_ok {v : Verified} {st : AccountState} (ok : p.add v st = .ok p') : Added p v st p' := by
  simp only [add, ite_error_eq_ok, not_or, not_not, bind_eq_ok, Bool.not_eq_true] at ok
  obtain ⟨valid, tenant, before, n, accepted, apart, -, ok⟩ := ok
  obtain ⟨bound, unbound, rfl⟩ := accept_ok accepted
  cases ok
  refine ⟨valid.1, tenant, before, bound, unbound, fun f member => ?_, rfl⟩
  exact Bool.eq_false_iff.mpr fun clash => List.any_eq_false.mp apart f member clash

theorem factorSet_loop {vs : List Verified} {out : List Factor} (ordered : Ordered out) :
    Ordered (vs.foldl (fun out v => unionFactors out v.factors) out) ∧
      ∀ f, f ∈ vs.foldl (fun out v => unionFactors out v.factors) out ↔ f ∈ out ∨ ∃ v ∈ vs, f ∈ v.factors := by
  induction vs generalizing out with
  | nil => exact ⟨ordered, by simp⟩
  | cons v vs ih =>
    have joined : Ordered (unionFactors out v.factors) := ordered_unionFactors
    obtain ⟨sorted, members⟩ := ih joined
    refine ⟨sorted, fun f => ?_⟩
    rw [List.foldl_cons, members]
    simp [or_assoc]

theorem ordered_factorSet : Ordered p.factorSet := (factorSet_loop List.Pairwise.nil).1

@[simp] theorem mem_factorSet {f : Factor} : f ∈ p.factorSet ↔ ∃ v ∈ p.verified, f ∈ v.factors := by
  rw [factorSet, (factorSet_loop List.Pairwise.nil).2]
  simp

theorem mem_credentialUses {u : CredentialUse} :
    u ∈ p.credentialUses ↔
      (u.factor = .passkey ∨ u.factor = .passkeyStepUp) ∧
        ∃ v ∈ p.verified, v.credentialID ≠ [] ∧ u.factor ∈ v.factors ∧ u.id = v.credentialID := by
  obtain ⟨factor, id⟩ := u
  simp only [credentialUses, List.mem_flatMap]
  constructor
  · rintro ⟨v, member, use⟩
    split at use
    · cases use
    next made =>
      obtain ⟨f, used, same⟩ := List.mem_map.mp use
      obtain ⟨held, kind⟩ := List.mem_filter.mp used
      cases same
      exact ⟨by simpa using kind, v, member, made, held, rfl⟩
  · rintro ⟨kind, v, member, made, held, rfl⟩
    refine ⟨v, member, ?_⟩
    rw [if_neg made]
    exact List.mem_map.mpr ⟨factor, List.mem_filter.mpr ⟨held, by simpa using kind⟩, rfl⟩

theorem latest_loop {select : Verified → Bool} {vs : List Verified} (t : Time) :
    let last := vs.foldl (fun t v => if select v && decide (t < v.verifiedAt) then v.verifiedAt else t) t
    last = t ∨ ∃ v ∈ vs, select v = true ∧ v.verifiedAt = last := by
  induction vs generalizing t with
  | nil => exact .inl rfl
  | cons v vs ih =>
    -- Either a later verification moves the result, or it is what the first one leaves.
    rcases ih (if select v && decide (t < v.verifiedAt) then v.verifiedAt else t) with kept | ⟨w, member, facts⟩
    · by_cases later : (select v && decide (t < v.verifiedAt)) = true
      · rw [if_pos later] at kept
        simp only [List.foldl_cons, if_pos later]
        exact .inr ⟨v, by simp, (Bool.and_eq_true_iff.mp later).1, kept.symm⟩
      · rw [if_neg later] at kept
        simp only [List.foldl_cons, if_neg later]
        exact .inl kept
    · exact .inr ⟨w, List.mem_cons_of_mem _ member, facts⟩

theorem latest_eq {select : Verified → Bool} (nonzero : p.latest select ≠ 0) :
    ∃ v ∈ p.verified, select v = true ∧ v.verifiedAt = p.latest select :=
  (latest_loop 0).resolve_left nonzero

end
end Pending
end Egauth.Core
