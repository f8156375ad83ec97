import Egauth.Mfa.Requests

/-! What the requests of one subject do in which order.

A comparison follows a reservation of the request's own that was granted, and
is made with the secret of the enrollment that was read last. A step is marked
for a secret that matched, and an enrollment is confirmed for one whose step
was accepted; an enrollment is saved over none or over one that was read
unconfirmed.
-/

set_option autoImplicit false

namespace Egauth.Mfa
open Egauth.Core Prog

def grants (f : Counted) : Event → Bool
  | ⟨.reserve f', (_, .ok n)⟩ => decide (f' = f ∧ n ≤ maxAttempts)
  | _ => false

theorem grants_other {f f' : Counted} (other : f' ≠ f) (r : Reply (.reserve f')) : grants f ⟨.reserve f', r⟩ = false := by
  rcases r with ⟨now, err | n⟩ <;> simp [grants, other]

def compares (f : Counted) : Call → Bool
  | .compare .. => f = .totp
  | .consumeRecoveryCode _ => f = .recovery
  | _ => false

/-- What a request was told: the enrollment it read last, or that there was none; whether it may compare a code of
a factor; the secret that matched and at which step, and the one whose step was accepted. `presents` is the code of a
confirmation. -/
structure Note where
  read : Option (Option Enrollment)
  granted : Counted → Bool
  matched : Option (Bytes × Int)
  accepted : Option Bytes
  presents : Option Bytes

def Note.start (presents : Option Bytes) : Note := ⟨none, fun _ => false, none, none, presents⟩

def Note.Holds (cfg : Config) (g : Note) (secret : Bytes) : Prop :=
  ∃ e, g.read = some (some e) ∧ cfg.secret e.sealedSecret = some secret

def order (cfg : Config) : Discipline Call Reply Note where
  track g c r :=
    match c, r with
    | .getTOTP, .ok e => { g with read := some (some e) }
    | .getTOTP, .error .notFound => { g with read := some none }
    | .getTOTP, .error _ => { g with read := none }
    | .reserve f, (_, .ok n) => { g with granted := Function.update g.granted f (decide (n ≤ maxAttempts)) }
    | .compare secret _, r =>
      { g with granted := Function.update g.granted .totp false, matched := r.map fun step => (secret, step) }
    | .consumeRecoveryCode _, _ => { g with granted := Function.update g.granted .recovery false }
    | .markTOTPUsed secret _, .ok true => { g with accepted := some secret }
    | _, _ => g
  learns _ c r :=
    match c, r with
    | .getTOTP, .ok e => e.subject = cfg.subject
    | .openSealed value, some (secret, _) => cfg.secret value = some secret
    | .sealSecret secret, some value => cfg.secret value = some secret
    | _, _ => True
  allows g c :=
    match c with
    | .compare secret code => g.granted .totp = true ∧ g.Holds cfg secret ∧ ∀ c, g.presents = some c → code = c
    | .consumeRecoveryCode _ => g.granted .recovery = true
    | .markTOTPUsed secret step => g.Holds cfg secret ∧ g.matched = some (secret, step)
    | .replaceSealed old fresh => cfg.secret fresh = cfg.secret old
    | .saveTOTP e => e.subject = cfg.subject ∧ e.confirmedAt = none ∧
      ∃ prev, g.read = some prev ∧ ∀ p, prev = some p → p.confirmed = false
    | .confirmEnrollment e _ => e.subject = cfg.subject ∧ g.presents.isSome = true ∧
      ∃ p secret, g.read = some (some p) ∧ p.confirmed = false ∧ p.sealedSecret = e.sealedSecret ∧
        cfg.secret e.sealedSecret = some secret ∧ g.accepted = some secret
    | _ => True

section
variable {cfg : Config} {g : Note} {code : Bytes}

theorem yields_resealWhen {stale : Bool} {value secret : Bytes} (opened : cfg.secret value = some secret) :
    Yields (order cfg) g (resealWhen stale value secret) fun g' _ => g' = g := by
  unfold resealWhen
  split
  · refine yields_perform.mpr ⟨trivial, fun reply learned => ?_⟩
    cases reply with
    | none => exact yields_ret.mpr rfl
    | some fresh =>
      have holds : cfg.secret fresh = some secret := learned
      exact yields_perform.mpr ⟨holds.trans opened.symm, fun _ _ => yields_ret.mpr rfl⟩
  · exact yields_ret.mpr rfl

theorem yields_openSecret (value : Bytes) : Yields (order cfg) g (openSecret cfg value) fun g' secret =>
    g' = g ∧ cfg.secret value = some secret := by
  refine yields_perform.mpr ⟨trivial, fun reply learned => yields_ofOption fun opened replied => ?_⟩
  subst replied
  have holds : cfg.secret value = some opened.1 := learned
  refine Yields.bind (yields_resealWhen holds) fun g' _ same => yields_ofOption fun key _ => ?_
  exact yields_ret.mpr ⟨same, holds⟩

def Accepted (cfg : Config) (presents : Option Bytes) (g : Note) (e : Enrollment) : Prop :=
  g.read = some (some e) ∧ e.subject = cfg.subject ∧ g.presents = presents ∧
    ∃ secret, cfg.secret e.sealedSecret = some secret ∧ g.accepted = some secret

theorem yields_verifyTOTP (confirmed : Bool) (own : ∀ c, g.presents = some c → code = c) :
    Yields (order cfg) g (verifyTOTP cfg code confirmed) fun g' result =>
      result.1.confirmed = confirmed ∧ Accepted cfg g.presents g' result.1 := by
  unfold verifyTOTP
  split
  · exact yields_fail
  refine yields_perform.mpr ⟨trivial, fun reply learned => yields_ofExcept fun e read => ?_⟩
  subst read
  have named : e.subject = cfg.subject := learned
  split
  · exact yields_fail
  next state =>
  refine yields_perform.mpr ⟨trivial, fun reply _ => yields_ofExcept fun n counted => ?_⟩
  obtain ⟨now, result⟩ := reply
  subst counted
  split
  · exact yields_fail
  next few =>
  refine Yields.bind (yields_openSecret e.sealedSecret) fun g' secret => ?_
  rintro ⟨rfl, opened⟩
  have room : n ≤ maxAttempts := not_lt.mp few
  refine yields_perform.mpr ⟨⟨?_, ⟨e, rfl, opened⟩, own⟩, fun reply _ => yields_ofOption fun step hit => ?_⟩
  · simp [order, room]
  subst hit
  refine yields_perform.mpr ⟨⟨⟨e, rfl, opened⟩, rfl⟩, fun reply _ => yields_ofExcept fun fresh marked => ?_⟩
  subst marked
  cases fresh with
  | false => exact yields_fail
  | true => exact yields_ret.mpr ⟨not_not.mp state, rfl, named, rfl, secret, opened, rfl⟩

theorem yields_hasSecondFactor : Yields (order cfg) g hasSecondFactor fun g' _ => g' = g := by
  refine yields_perform.mpr ⟨trivial, fun _ _ => yields_ofExcept fun totp _ => ?_⟩
  split
  · exact yields_ret.mpr rfl
  · exact yields_perform.mpr ⟨trivial, fun _ _ => yields_reply fun _ _ => rfl⟩

theorem yields_verifyRecovery (code : Bytes) : Yields (order cfg) g (verifyRecovery cfg code) fun _ _ => True := by
  unfold verifyRecovery
  dsimp only
  split
  · exact yields_fail
  refine Yields.bind yields_hasSecondFactor fun g' has _ => ?_
  split
  · exact yields_fail
  refine yields_perform.mpr ⟨trivial, fun reply _ => yields_ofExcept fun n counted => ?_⟩
  obtain ⟨now, result⟩ := reply
  subst counted
  split
  · exact yields_fail
  next few =>
  have room : n ≤ maxAttempts := not_lt.mp few
  refine yields_perform.mpr ⟨?_, fun _ _ => yields_ofExcept fun _ _ => ?_⟩
  · simp [order, room]
  · exact yields_perform.mpr ⟨trivial, fun _ _ => yields_ret.mpr trivial⟩

theorem yields_verify (f : Counted) (own : ∀ c, g.presents = some c → code = c) :
    Yields (order cfg) g (verify cfg f code) fun _ _ => True := by
  unfold verify
  split
  · exact yields_fail
  cases f with
  | totp =>
    refine Yields.bind (yields_verifyTOTP true own) fun _ _ _ => ?_
    exact yields_perform.mpr ⟨trivial, fun _ _ => yields_ret.mpr trivial⟩
  | recovery =>
    refine Yields.bind (yields_verifyRecovery code) fun _ _ _ => ?_
    exact yields_perform.mpr ⟨trivial, fun _ _ => yields_ret.mpr trivial⟩

theorem yields_enroll : Yields (order cfg) g (enroll cfg) fun _ _ => True := by
  refine yields_perform.mpr ⟨trivial, fun reply _ => ?_⟩
  refine Yields.bind (?_ : Yields _ _ _ fun (g' : Note) (_ : Option Enrollment) =>
    ∃ prev, g'.read = some prev ∧ ∀ p, prev = some p → p.confirmed = false) fun g' prev unconfirmed => ?_
  · cases reply with
    | error err =>
      cases err with
      | notFound => exact yields_ret.mpr ⟨none, rfl, by simp⟩
      | _ => exact yields_fail
    | ok e =>
      unfold previous
      dsimp only
      split
      · exact yields_fail
      next state =>
        refine yields_ret.mpr ⟨some e, rfl, fun p same => ?_⟩
        cases same
        exact Bool.eq_false_iff.mpr state
  refine yields_perform.mpr ⟨trivial, fun _ _ => yields_ofOption fun secret _ => ?_⟩
  refine yields_perform.mpr ⟨trivial, fun _ _ => yields_ofOption fun value _ => ?_⟩
  refine yields_perform.mpr ⟨trivial, fun now _ => ?_⟩
  exact yields_perform.mpr ⟨⟨rfl, rfl, unconfirmed⟩, fun _ _ => yields_reply fun _ _ => trivial⟩

theorem yields_confirm (own : g.presents = some code) :
    Yields (order cfg) g (confirm cfg code) fun _ _ => True := by
  refine yields_perform.mpr ⟨trivial, fun reply _ => yields_ofExcept fun pending read => ?_⟩
  subst read
  split
  · exact yields_fail
  refine Yields.bind (yields_verifyTOTP false fun c same => ?_) fun g' result => ?_
  · exact Option.some.inj (own.symm.trans same)
  rintro ⟨state, read, named, presents, secret, opened, accepted⟩
  refine yields_perform.mpr ⟨trivial, fun _ _ => yields_ofOption fun hashes _ => ?_⟩
  refine yields_perform.mpr ⟨trivial, fun _ _ => yields_ofExcept fun _ _ => ?_⟩
  refine yields_perform.mpr ⟨trivial, fun now _ => ?_⟩
  have same : g'.presents = some code := presents.trans own
  refine yields_perform.mpr ⟨⟨named, Option.isSome_of_eq_some same, ?_⟩, fun _ _ => yields_reply fun _ _ => trivial⟩
  exact ⟨result.1, secret, read, state, rfl, opened, accepted⟩

theorem yields_removeTOTP (codes : Bool) : Yields (order cfg) g (removeTOTP codes) fun _ _ => True := by
  refine yields_perform.mpr ⟨trivial, fun _ _ => yields_ofExcept fun _ _ => ?_⟩
  refine yields_perform.mpr ⟨trivial, fun _ _ => yields_ofExcept fun _ _ => ?_⟩
  split
  · exact yields_perform.mpr ⟨trivial, fun _ _ => yields_reply fun _ _ => trivial⟩
  · exact yields_ret.mpr trivial

theorem yields_disable (f : Counted) (own : ∀ c, g.presents = some c → code = c) :
    Yields (order cfg) g (disable cfg f code) fun _ _ => True := by
  refine yields_perform.mpr ⟨trivial, fun _ _ => yields_ofExcept fun confirmed _ => ?_⟩
  split
  · exact yields_fail
  refine Yields.bind (yields_verify f own) fun _ _ _ => ?_
  refine yields_perform.mpr ⟨trivial, fun _ _ => yields_ofExcept fun passkey _ => ?_⟩
  exact yields_removeTOTP _

theorem yields_regenerate : Yields (order cfg) g regenerate fun _ _ => True := by
  refine Yields.bind yields_hasSecondFactor fun _ has _ => ?_
  split
  · exact yields_fail
  refine yields_perform.mpr ⟨trivial, fun _ _ => yields_ofOption fun hashes _ => ?_⟩
  refine yields_perform.mpr ⟨trivial, fun _ _ => yields_ofExcept fun _ _ => ?_⟩
  exact yields_perform.mpr ⟨trivial, fun _ _ => yields_reply fun _ _ => trivial⟩

def Request.presents : Request → Option Bytes
  | .confirm code => some code
  | _ => none

theorem yields_program (cfg : Config) (request : Request) :
    Yields (order cfg) (.start request.presents) (request.program cfg) fun _ _ => True := by
  cases request with
  | verify f code =>
    have none : ∀ c, (Note.start (Request.verify f code).presents).presents = some c → code = c := nofun
    exact Yields.bind (yields_verify f none) fun _ _ _ => yields_ret.mpr trivial
  | enroll => exact yields_enroll
  | confirm code => exact yields_confirm rfl
  | disable f code => exact yields_disable f nofun
  | regenerate => exact yields_regenerate
  | erase removal => cases removal <;> exact yields_perform.mpr ⟨trivial, fun _ _ => yields_ret.mpr trivial⟩

end

/-- How far a confirmation is. -/
inductive Confirming where
  | checking
  | accepted
  | bumped
  | written
  deriving DecidableEq, Repr

/-- The code is accepted, the epoch bumped and the enrollment written, in this order and each of them once. -/
def confirmation (cfg : Config) : Discipline Call Reply Confirming where
  track g c r :=
    match c, r with
    | .markTOTPUsed .., .ok true => .accepted
    | .bumpEpoch, .ok _ => .bumped
    | .confirmEnrollment .., .ok _ => .written
    | _, _ => g
  learns _ c r :=
    match c, r with
    | .getTOTP, .ok e => e.subject = cfg.subject
    | _, _ => True
  allows g c :=
    match c with
    | .getTOTP | .openSealed _ | .sealSecret _ | .compare .. | .newRecoveryCodes | .now => True
    | .reserve _ | .replaceSealed .. | .markTOTPUsed .. => g = .checking
    | .bumpEpoch => g = .accepted
    | .confirmEnrollment e _ => g = .bumped ∧ e.subject = cfg.subject
    | _ => False

namespace Confirming
variable {cfg : Config} {code : Bytes}

theorem yields_openSecret (value : Bytes) :
    Yields (confirmation cfg) .checking (openSecret cfg value) fun g _ => g = .checking := by
  refine yields_perform.mpr ⟨trivial, fun reply _ => yields_ofOption fun opened _ => ?_⟩
  have kept : Yields (confirmation cfg) .checking (resealWhen opened.2 value opened.1) fun g _ => g = .checking := by
    unfold resealWhen
    split
    · refine yields_perform.mpr ⟨trivial, fun reply _ => ?_⟩
      cases reply with
      | none => exact yields_ret.mpr rfl
      | some fresh => exact yields_perform.mpr ⟨rfl, fun _ _ => yields_ret.mpr rfl⟩
    · exact yields_ret.mpr rfl
  refine kept.bind ?_
  rintro _ _ rfl
  exact yields_ofOption fun key _ => yields_ret.mpr rfl

theorem yields_verifyTOTP (confirmed : Bool) : Yields (confirmation cfg) .checking (verifyTOTP cfg code confirmed)
    fun g result => g = .accepted ∧ result.1.subject = cfg.subject := by
  unfold verifyTOTP
  split
  · exact yields_fail
  refine yields_perform.mpr ⟨trivial, fun reply learned => yields_ofExcept fun e read => ?_⟩
  subst read
  have named : e.subject = cfg.subject := learned
  split
  · exact yields_fail
  refine yields_perform.mpr ⟨rfl, fun reply _ => yields_ofExcept fun n _ => ?_⟩
  split
  · exact yields_fail
  refine (yields_openSecret e.sealedSecret).bind ?_
  rintro _ secret rfl
  refine yields_perform.mpr ⟨trivial, fun reply _ => yields_ofOption fun step _ => ?_⟩
  refine yields_perform.mpr ⟨rfl, fun reply _ => yields_ofExcept fun fresh marked => ?_⟩
  subst marked
  cases fresh with
  | false => exact yields_fail
  | true => exact yields_ret.mpr ⟨rfl, named⟩

theorem yields_confirm (cfg : Config) (code : Bytes) :
    Yields (confirmation cfg) .checking (confirm cfg code) fun g _ => g = .written := by
  refine yields_perform.mpr ⟨trivial, fun reply _ => yields_ofExcept fun pending _ => ?_⟩
  split
  · exact yields_fail
  refine (yields_verifyTOTP false).bind ?_
  rintro _ result ⟨rfl, named⟩
  refine yields_perform.mpr ⟨trivial, fun _ _ => yields_ofOption fun hashes _ => ?_⟩
  refine yields_perform.mpr ⟨rfl, fun _ _ => yields_ofExcept fun _ bumped => ?_⟩
  subst bumped
  refine yields_perform.mpr ⟨trivial, fun now _ => yields_perform.mpr ⟨⟨rfl, named⟩, fun reply _ => ?_⟩⟩
  cases reply with
  | ok done => exact yields_ret.mpr rfl
  | error err => exact yields_fail

end Confirming
end Egauth.Mfa
