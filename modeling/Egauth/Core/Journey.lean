import Egauth.Core.RoundTrip
import Egauth.Semantics.Run

/-! The journey of a Pending from its start to its admission.

What is admitted was proved for one account, at one epoch, by distinct
credentials, in whatever order the Pending was bound, extended and stored.
-/

set_option autoImplicit false

namespace Egauth.Core.Pending

/-- What can happen to a Pending; storing it is a round trip through the codec. -/
inductive Event where
  | bound (s : Subject) (st : AccountState)
  | hashed (h : Bytes)
  | added (v : Verified) (st : AccountState)
  | resealed
  deriving DecidableEq

def Event.epoch : Event → Option UInt64
  | .bound _ st => some st.epoch
  | .added _ st => some st.epoch
  | _ => none

def Step (p : Pending) : Event → Pending → Prop
  | .bound s st, p' => p.bind s st = .ok p'
  | .hashed h, p' => p.withBindHash h = .ok p'
  | .added v st, p' => (∃ spec, newVerified spec = .ok v) ∧ p.add v st = .ok p'
  | .resealed, p' => ∃ s, sealPending p = .ok s ∧ unsealPending s = .ok p'

/-- A login starts with `NewPending`, a reauthentication with the attributes of a session, which have a
subject unless they are zero. -/
inductive Starts : Pending → Prop where
  | login {t : TenantID} {remember : Option RememberIntent} {returnTo : Bytes} {tr : Option Transport}
      {pol : Option RememberMePolicy} {now : Time} {p : Pending} :
      new t remember returnTo tr pol now = .ok p → Starts p
  | reauth {a : SessionAttrs} {now : Time} :
      (a.version ≠ 0 → a.subject.isZero = false) → Starts (pendingForReauth a now)

structure Inv (events : List Event) (p : Pending) : Prop where
  version : p.version ≠ 0 → p.version = codecVersion
  tenant : p.bound = true → p.subject.tenant = p.tenant
  unbound : p.bound = false → p.subject = .zero
  held : ∀ v ∈ p.verified, v.Formed ∧ v.subject = p.subject ∧ v.verifiedAt < p.expiresAt
  recorded : ∀ v ∈ p.verified, ∃ st, .added v st ∈ events
  epochs : ∀ e ∈ events, ∀ epoch, e.epoch = some epoch → p.bound = true ∧ epoch = p.epochAtBind
  apart : ∀ v ∈ p.verified, ∀ w ∈ p.verified, .passkey ∈ v.factors → .passkeyStepUp ∈ w.factors →
    v.credentialID ≠ w.credentialID

section
variable {events : List Event} {p p' : Pending}

theorem Inv.of_empty (version : p.version ≠ 0 → p.version = codecVersion)
    (tenant : p.bound = true → p.subject.tenant = p.tenant) (unbound : p.bound = false → p.subject = .zero)
    (empty : p.verified = []) : Inv [] p := by
  refine ⟨version, tenant, unbound, ?_, ?_, ?_, ?_⟩ <;> simp [empty]

theorem Starts.inv (start : Starts p) : Inv [] p := by
  cases start with
  | login ok =>
    obtain ⟨rem, rfl⟩ := new_ok ok
    exact .of_empty (fun _ => rfl) nofun (fun _ => rfl) rfl
  | @reauth a now owned =>
    unfold pendingForReauth
    split
    · exact .of_empty (fun nonzero => absurd rfl nonzero) nofun (fun _ => rfl) rfl
    next nonzero =>
      refine .of_empty (fun _ => rfl) (fun _ => rfl) (fun unbound => ?_) rfl
      have bound : (!a.subject.isZero) = false := unbound
      rw [owned nonzero] at bound
      cases bound

theorem Inv.formed (inv : Inv events p) : p.Formed :=
  ⟨inv.version, inv.tenant, inv.unbound, fun v member => (inv.held v member).2.1,
    fun v member => (inv.held v member).1.ordered⟩

theorem Inv.bound_of_mem (inv : Inv events p) {v : Verified} (member : v ∈ p.verified) : p.bound = true := by
  obtain ⟨st, added⟩ := inv.recorded v member
  exact (inv.epochs _ added _ rfl).1

/-- An event that gives no epoch and leaves the binding and the verifications alone. -/
theorem Inv.quiet (inv : Inv events p) {e : Event} (silent : e.epoch = none)
    (same : p' = { p with bindHash := p'.bindHash }) : Inv (events ++ [e]) p' := by
  rw [same]
  refine ⟨inv.version, inv.tenant, inv.unbound, inv.held, fun v member => ?_, fun e' member epoch given => ?_, inv.apart⟩
  · obtain ⟨st, added⟩ := inv.recorded v member
    exact ⟨st, List.mem_append_left _ added⟩
  · rcases List.mem_append.mp member with earlier | now
    · exact inv.epochs e' earlier epoch given
    · rw [List.mem_singleton.mp now, silent] at given
      cases given

theorem Inv.bind (inv : Inv events p) {s : Subject} {st : AccountState} (ok : p.bind s st = .ok p') :
    Inv (events ++ [.bound s st]) p' := by
  simp only [Pending.bind, ite_error_eq_ok, not_or, not_not, Bool.not_eq_true] at ok
  obtain ⟨⟨-, nonzero⟩, tenant, unbound, ok⟩ := ok
  cases ok
  -- An unbound Pending has taken no epoch, so it holds no verification.
  have empty (v : Verified) : v ∉ p.verified := fun member => by
    have bound := inv.bound_of_mem member
    rw [unbound] at bound
    cases bound
  have bound : (!s.isZero) = true := by rw [nonzero]; rfl
  refine ⟨inv.version, fun _ => tenant, fun free => ?_, fun v member => absurd member (empty v),
    fun v member => absurd member (empty v), fun e member epoch given => ?_, fun v member => absurd member (empty v)⟩
  · have absent : (!s.isZero) = false := free
    rw [bound] at absent
    cases absent
  · rcases List.mem_append.mp member with earlier | now
    · have taken := (inv.epochs e earlier epoch given).1
      rw [unbound] at taken
      cases taken
    · rw [List.mem_singleton.mp now] at given
      cases given
      exact ⟨bound, rfl⟩

theorem Inv.no_clash (inv : Inv events p) {v w : Verified}
    (apart : ∀ f ∈ v.factors, credentialClash p.credentialUses f v.credentialID = false) (member : w ∈ p.verified)
    (clash : .passkey ∈ v.factors ∧ .passkeyStepUp ∈ w.factors ∨ .passkeyStepUp ∈ v.factors ∧ .passkey ∈ w.factors) :
    v.credentialID ≠ w.credentialID := by
  intro same
  have used : ∀ g ∈ w.factors, g = .passkey ∨ g = .passkeyStepUp → ⟨g, v.credentialID⟩ ∈ p.credentialUses := by
    intro g holds kind
    -- A passkey always comes with its credential, so its use is on record.
    have shape := Shape.of_check (inv.held w member).1.shape
    have made : w.credentialID ≠ [] := shape.credential.mpr (by rcases kind with rfl | rfl <;> simp [holds])
    exact mem_credentialUses.mpr ⟨kind, w, member, made, holds, same⟩
  rcases clash with ⟨primary, second⟩ | ⟨second, primary⟩
  · have found := credentialClash_iff.mpr (.inl ⟨rfl, used _ second (.inr rfl)⟩)
    rw [apart _ primary] at found
    cases found
  · have found := credentialClash_iff.mpr (.inr ⟨rfl, used _ primary (.inl rfl)⟩)
    rw [apart _ second] at found
    cases found

theorem Inv.add (inv : Inv events p) {v : Verified} {st : AccountState} (formed : v.Formed)
    (ok : p.add v st = .ok p') : Inv (events ++ [.added v st]) p' := by
  obtain ⟨-, tenant, before, bound, unbound, apart, rfl⟩ := add_ok ok
  have nowBound : (!v.subject.isZero) = true := by rw [formed.subject]; rfl
  have kept (w : Verified) (member : w ∈ p.verified) : w.subject = v.subject :=
    (inv.held w member).2.1.trans (bound (inv.bound_of_mem member)).1.symm
  have shape := Shape.of_check formed.shape
  refine ⟨inv.version, fun _ => tenant, fun free => ?_, fun w member => ?_, fun w member => ?_,
    fun e member epoch given => ?_, fun w member x member' passkey stepUp => ?_⟩
  · have absent : (!v.subject.isZero) = false := free
    rw [nowBound] at absent
    cases absent
  · rcases List.mem_append.mp member with earlier | new
    · exact ⟨(inv.held w earlier).1, kept w earlier, (inv.held w earlier).2.2⟩
    · rw [List.mem_singleton.mp new]
      exact ⟨formed, rfl, before⟩
  · rcases List.mem_append.mp member with earlier | new
    · obtain ⟨st', added⟩ := inv.recorded w earlier
      exact ⟨st', List.mem_append_left _ added⟩
    · rw [List.mem_singleton.mp new]
      exact ⟨st, by simp⟩
  · rcases List.mem_append.mp member with earlier | new
    · obtain ⟨was, same⟩ := inv.epochs e earlier epoch given
      exact ⟨nowBound, same.trans (bound was).2.symm⟩
    · rw [List.mem_singleton.mp new] at given
      cases given
      exact ⟨nowBound, rfl⟩
  · -- The new verification is compared with every one held, and it is not of both kinds itself.
    rcases List.mem_append.mp member with earlier | new <;> rcases List.mem_append.mp member' with earlier' | new'
    · exact inv.apart w earlier x earlier' passkey stepUp
    · rw [List.mem_singleton.mp new'] at stepUp ⊢
      exact (inv.no_clash apart earlier (.inr ⟨stepUp, passkey⟩)).symm
    · rw [List.mem_singleton.mp new] at passkey ⊢
      exact inv.no_clash apart earlier' (.inl ⟨passkey, stepUp⟩)
    · rw [List.mem_singleton.mp new] at passkey
      rw [List.mem_singleton.mp new'] at stepUp
      have none := shape.apart (hasRole_iff.mpr ⟨_, passkey, rfl⟩)
      rw [hasRole_iff.mpr ⟨_, stepUp, rfl⟩] at none
      cases none

theorem Inv.step (inv : Inv events p) {e : Event} (step : Step p e p') : Inv (events ++ [e]) p' := by
  cases e with
  | bound s st => exact inv.bind step
  | hashed h =>
    simp only [Step, withBindHash, ite_error_eq_ok] at step
    obtain ⟨-, ok⟩ := step
    cases ok
    exact inv.quiet rfl rfl
  | added v st =>
    obtain ⟨⟨spec, built⟩, ok⟩ := step
    exact inv.add (newVerified_ok built) ok
  | resealed =>
    obtain ⟨s, stored, loaded⟩ := step
    rw [unsealPending_sealPending inv.formed stored] at loaded
    cases loaded
    exact inv.quiet rfl rfl

theorem Inv.run {start : Pending} (starts : Starts start) (run : Run Step start events p) : Inv events p := by
  induction run with
  | nil => exact starts.inv
  | snoc _ last ih => exact ih.step last

theorem hasRole_factorSet {r : FactorRole} :
    hasRole p.factorSet r = true ↔ ∃ v ∈ p.verified, hasRole v.factors r = true := by
  simp only [hasRole_iff, mem_factorSet]
  constructor
  · rintro ⟨f, ⟨v, member, holds⟩, role⟩
    exact ⟨v, member, f, holds, role⟩
  · rintro ⟨v, member, f, holds, role⟩
    exact ⟨f, ⟨v, member, holds⟩, role⟩

/-- A multi-factor union comes from one passkey with user verification, or from two verifications that
were not made with one credential. -/
theorem Inv.multiFactor (inv : Inv events p) (multi : multiFactor p.factorSet = true) :
    (∃ v ∈ p.verified, .passkey ∈ v.factors ∧ .userVerification ∈ v.factors) ∨
      ∃ v ∈ p.verified, ∃ w ∈ p.verified, v ≠ w ∧ hasRole v.factors .primary = true ∧
        hasRole w.factors .second = true ∧ (v.credentialID = w.credentialID → v.credentialID = []) := by
  rcases multiFactor_iff.mp multi with ⟨primary, second⟩ | ⟨passkey, -⟩
  · obtain ⟨v, member, primary⟩ := hasRole_factorSet.mp primary
    obtain ⟨w, member', second⟩ := hasRole_factorSet.mp second
    have shape := Shape.of_check (inv.held v member).1.shape
    have shape' := Shape.of_check (inv.held w member').1.shape
    have notSecond := shape.apart primary
    have notPrimary : hasRole w.factors .primary = false := by
      refine Bool.eq_false_iff.mpr fun primary => ?_
      rw [shape'.apart primary] at second
      cases second
    refine .inr ⟨v, member, w, member', ?_, primary, second, fun same => ?_⟩
    · rintro rfl
      rw [primary] at notPrimary
      cases notPrimary
    · -- Two verifications with one credential would be a passkey and a step-up with it.
      by_contra made
      have passkey : .passkey ∈ v.factors := (shape.credential.mp made).resolve_right fun stepUp => by
        rw [hasRole_iff.mpr ⟨_, stepUp, rfl⟩] at notSecond
        cases notSecond
      have stepUp : .passkeyStepUp ∈ w.factors := (shape'.credential.mp (same ▸ made)).resolve_left fun passkey => by
        rw [hasRole_iff.mpr ⟨_, passkey, rfl⟩] at notPrimary
        cases notPrimary
      exact inv.apart v member w member' passkey stepUp same
  · obtain ⟨v, member, holds⟩ := mem_factorSet.mp passkey
    exact .inl ⟨v, member, holds, (Shape.of_check (inv.held v member).1.shape).verification holds⟩

/-- What admits a session was proved for one account, at one epoch, by distinct credentials. -/
theorem proved_for_one_account {start : Pending} (starts : Starts start) (run : Run Step start events p) :
    (∀ v ∈ p.verified, p.bound = true ∧ v.subject = p.subject ∧ v.subject.tenant = p.tenant ∧
      v.verifiedAt < p.expiresAt) ∧
    (∀ s st, .bound s st ∈ events → st.epoch = p.epochAtBind) ∧
    (∀ v st, .added v st ∈ events → st.epoch = p.epochAtBind) ∧
    (∀ v ∈ p.verified, v.identifies = false → ∃ st, .added v st ∈ events) ∧
    (∀ before v st after, events = before ++ .added v st :: after → v.identifies = false →
      ∃ q, Run Step start before q ∧ q.bound = true) ∧
    (∀ v ∈ p.verified, ∀ w ∈ p.verified, .passkey ∈ v.factors → .passkeyStepUp ∈ w.factors →
      v.credentialID ≠ w.credentialID) ∧
    (∀ st mfa now,
      ((∃ lineage a, admitPending p st mfa now lineage = .ok (.session a)) ∨
        ∃ a a', reauthenticate a p st mfa now = .ok a') →
      (∃ v ∈ p.verified, hasRole v.factors .primary = true) ∧ st.epoch = p.epochAtBind ∧
      (mfa.required = true →
        (∃ v ∈ p.verified, .passkey ∈ v.factors ∧ .userVerification ∈ v.factors) ∨
        ∃ v ∈ p.verified, ∃ w ∈ p.verified, v ≠ w ∧ hasRole v.factors .primary = true ∧
          hasRole w.factors .second = true ∧ (v.credentialID = w.credentialID → v.credentialID = []))) := by
  have inv := Inv.run starts run
  refine ⟨fun v member => ?_, fun s st taken => (inv.epochs _ taken _ rfl).2,
    fun v st taken => (inv.epochs _ taken _ rfl).2, fun v member _ => inv.recorded v member, ?_, inv.apart, ?_⟩
  · obtain ⟨-, subject, before⟩ := inv.held v member
    have bound := inv.bound_of_mem member
    exact ⟨bound, subject, subject ▸ inv.tenant bound, before⟩
  · intro before v st after position silent
    -- Adding to an unbound Pending takes an identifying verification.
    obtain ⟨q, _, reached, ⟨-, added⟩, -⟩ := run.split position
    refine ⟨q, reached, ?_⟩
    by_contra free
    have identifies := (add_ok added).unbound (Bool.eq_false_iff.mpr free)
    rw [silent] at identifies
    cases identifies
  · intro st mfa now completed
    have complete : Completes p st mfa := by
      rcases completed with ⟨lineage, a, ok⟩ | ⟨a, a', ok⟩
      · exact (admitPending_session ok).2.2.1
      · exact (reauthenticate_ok ok).2.2.1
    exact ⟨hasRole_factorSet.mp complete.primary, complete.epoch, fun required =>
      inv.multiFactor (complete.multi required)⟩

end

def twoFactorSubject : Subject := .sample

def usableAt (epoch : UInt64) : AccountState := ⟨true, false, false, false, false, epoch⟩

def passwordVerified : Verified := ⟨twoFactorSubject, [.password], [], true, [], unixEpoch + 1⟩

def totpVerified : Verified := ⟨twoFactorSubject, [.totp], [], false, [], unixEpoch + 2⟩

def twoFactorStart : Pending :=
  { zero with version := codecVersion, transport := some .cookies, expiresAt := unixEpoch + pendingTTL }

def twoFactorEvents : List Event :=
  [.added passwordVerified (usableAt 7), .resealed, .added totpVerified (usableAt 7)]

def onePassword : Pending :=
  { twoFactorStart with subject := twoFactorSubject, epochAtBind := 7, verified := [passwordVerified] }

def twoFactorPending : Pending := { onePassword with verified := [passwordVerified, totpVerified] }

theorem twoFactor_run : Run Step twoFactorStart twoFactorEvents twoFactorPending := by
  have password : Step twoFactorStart (.added passwordVerified (usableAt 7)) onePassword :=
    ⟨⟨⟨twoFactorSubject, [.password], [], true, [], unixEpoch + 1⟩, by rfl⟩, by rfl⟩
  have stored : Step onePassword .resealed onePassword := ⟨_, by rfl, by rfl⟩
  have totp : Step onePassword (.added totpVerified (usableAt 7)) twoFactorPending :=
    ⟨⟨⟨twoFactorSubject, [.totp], [], false, [], unixEpoch + 2⟩, by rfl⟩, by rfl⟩
  exact ((Run.single password).snoc stored).snoc totp

theorem proved_for_one_account_twoFactor :
    (∃ v ∈ twoFactorPending.verified, .passkey ∈ v.factors ∧ .userVerification ∈ v.factors) ∨
      ∃ v ∈ twoFactorPending.verified, ∃ w ∈ twoFactorPending.verified, v ≠ w ∧
        hasRole v.factors .primary = true ∧ hasRole w.factors .second = true ∧
        (v.credentialID = w.credentialID → v.credentialID = []) := by
  have login : new .zero (some .declined) [] (some .cookies) (some .never) unixEpoch = .ok twoFactorStart := by rfl
  obtain ⟨-, -, -, -, -, -, completed⟩ := proved_for_one_account (.login login) twoFactor_run
  have session : ∃ a, admitPending twoFactorPending (usableAt 7) (.new [.totp]) (unixEpoch + 3)
      twoFactorSubject.user = .ok (.session a) := ⟨_, by rfl⟩
  exact (completed (usableAt 7) (.new [.totp]) (unixEpoch + 3) (.inl ⟨_, session⟩)).2.2 rfl

end Egauth.Core.Pending
