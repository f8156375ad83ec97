import Egauth.Core.Principal
import Mathlib.Data.List.Sort

/-! Authentication factors.

The closed set of factors, each with its persisted code and its role, and the
sets of factors as the source keeps them: lists ordered by code.
-/

set_option autoImplicit false

namespace Egauth.Core

/-- The errors of the package; `join` is `errors.Join` and `text` is `errors.New` at the point of use. -/
inductive Err where
  | invalidTenant
  | invalidFactor
  | invalidVerified
  | invalidArgument
  | tenantMismatch
  | subjectMismatch
  | notBound
  | alreadyBound
  | notIdentifying
  | sameCredential
  | providerMismatch
  | noPrimary
  | pendingExpired
  | reauthPending
  | lineageMismatch
  | accountUnusable
  | epochStale
  | reauthRequired
  | factorRequired
  | claimsUnavailable
  | claimsSubjectUnknown
  | claimsTooLarge
  | malformed
  | text (message : String)
  | join (first second : Err)
  deriving DecidableEq, Repr

inductive FactorRole where
  | primary
  | second
  | qualifier
  deriving DecidableEq, Repr

/-- `zero` is the zero Factor, the only value outside the closed set. -/
inductive Factor where
  | zero
  | password
  | emailLink
  | emailCode
  | smsCode
  | federated
  | external
  | passkey
  | userVerification
  | totp
  | recoveryCode
  | passkeyStepUp
  deriving DecidableEq, Repr

namespace Factor

def code : Factor → Bytes
  | zero => []
  | password => ascii "pwd"
  | emailLink => ascii "email_link"
  | emailCode => ascii "email_code"
  | smsCode => ascii "sms_code"
  | federated => ascii "fed"
  | external => ascii "ext"
  | passkey => ascii "pk"
  | userVerification => ascii "uv"
  | totp => ascii "totp"
  | recoveryCode => ascii "rc"
  | passkeyStepUp => ascii "pk_stepup"

def valid (f : Factor) : Bool := f != zero

def role : Factor → Option FactorRole
  | zero => none
  | password | emailLink | emailCode | smsCode | federated | external | passkey => some .primary
  | userVerification => some .qualifier
  | totp | recoveryCode | passkeyStepUp => some .second

end Factor

def factorTable : List Factor :=
  [.password, .emailLink, .emailCode, .smsCode, .federated, .external, .passkey, .userVerification, .totp,
    .recoveryCode, .passkeyStepUp]

def factorByCode (code : Bytes) : Except Err Factor :=
  match factorTable.find? fun f => f.code == code with
  | some f => .ok f
  | none => .error .invalidFactor

def sortFactors (fs : List Factor) : List Factor := fs.insertionSort fun a b => a.code ≤ b.code

/-- The loop that keeps the first of equal factors. -/
def distinct (fs : List Factor) : List Factor :=
  fs.foldl (fun out f => if out.contains f then out else out ++ [f]) []

def unionFactors (a b : List Factor) : List Factor := sortFactors (distinct (a ++ b))

def hasRole (fs : List Factor) (r : FactorRole) : Bool := fs.any fun f => f.role == some r

def multiFactor (fs : List Factor) : Bool :=
  (hasRole fs .primary && hasRole fs .second) || (fs.contains .passkey && fs.contains .userVerification)

def Ordered (fs : List Factor) : Prop := fs.Pairwise fun a b => a.code < b.code

theorem Factor.code_injective {a b : Factor} (same : a.code = b.code) : a = b := by
  cases a <;> cases b <;> first | rfl | exact absurd same (by decide)

theorem factorByCode_code {f : Factor} (valid : f.valid = true) : factorByCode f.code = .ok f := by
  cases f with
  | zero => cases valid
  | _ => rfl

@[simp] theorem hasRole_iff {fs : List Factor} {r : FactorRole} :
    hasRole fs r = true ↔ ∃ f ∈ fs, f.role = some r := by
  simp [hasRole]

theorem multiFactor_iff {fs : List Factor} :
    multiFactor fs = true ↔
      hasRole fs .primary = true ∧ hasRole fs .second = true ∨ .passkey ∈ fs ∧ .userVerification ∈ fs := by
  simp only [multiFactor, Bool.or_eq_true, Bool.and_eq_true, List.contains_iff_mem]

section
variable {a b fs : List Factor} {f : Factor}

theorem mem_distinct_loop (out : List Factor) :
    f ∈ fs.foldl (fun out f => if out.contains f then out else out ++ [f]) out ↔ f ∈ out ∨ f ∈ fs := by
  induction fs generalizing out with
  | nil => simp
  | cons g fs ih =>
    simp only [List.foldl_cons, ih]
    by_cases kept : g ∈ out
    · -- A factor that is skipped is in the result already.
      simp only [List.contains_iff_mem, kept, ↓reduceIte, List.mem_cons]
      refine or_congr_right' fun absent => ⟨.inr, fun found => found.resolve_left ?_⟩
      rintro rfl
      exact absent kept
    · simp [kept, or_assoc]

theorem nodup_distinct_loop {out : List Factor} (once : out.Nodup) :
    (fs.foldl (fun out f => if out.contains f then out else out ++ [f]) out).Nodup := by
  induction fs generalizing out with
  | nil => exact once
  | cons g fs ih =>
    simp only [List.foldl_cons]
    apply ih
    split
    · exact once
    next absent =>
      simp only [List.contains_iff_mem] at absent
      exact List.nodup_append.mpr ⟨once, List.nodup_singleton g, by
        rintro x member y single rfl
        exact absent (List.mem_singleton.mp single ▸ member)⟩

@[simp] theorem mem_distinct : f ∈ distinct fs ↔ f ∈ fs := by
  rw [distinct, mem_distinct_loop]
  simp

theorem nodup_distinct : (distinct fs).Nodup := nodup_distinct_loop List.nodup_nil

@[simp] theorem mem_sortFactors : f ∈ sortFactors fs ↔ f ∈ fs := List.mem_insertionSort _

theorem ordered_sortFactors (once : fs.Nodup) : Ordered (sortFactors fs) := by
  have total : Std.Total fun a b : Factor => a.code ≤ b.code := ⟨fun a b => List.le_total a.code b.code⟩
  have trans : IsTrans Factor fun a b => a.code ≤ b.code := ⟨fun _ _ _ => List.le_trans⟩
  have weakly := List.pairwise_insertionSort (fun a b : Factor => a.code ≤ b.code) fs
  have apart : (sortFactors fs).Pairwise (· ≠ ·) := (List.perm_insertionSort _ fs).nodup_iff.mpr once
  refine (weakly.and apart).imp fun ⟨le, ne⟩ => Std.lt_of_le_of_ne le fun same => ne (Factor.code_injective same)

@[simp] theorem mem_unionFactors : f ∈ unionFactors a b ↔ f ∈ a ∨ f ∈ b := by
  simp [unionFactors]

theorem ordered_unionFactors : Ordered (unionFactors a b) := ordered_sortFactors nodup_distinct

theorem Ordered.nodup (ordered : Ordered fs) : fs.Nodup := by
  refine List.Pairwise.imp (fun {a b} less same => ?_) ordered
  rw [same] at less
  exact List.lt_irrefl _ less

end

end Egauth.Core
