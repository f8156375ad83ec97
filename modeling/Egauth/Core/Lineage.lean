import Egauth.Core.Journey

/-! The life of a session from its admission on.

A session proves only what was verified for it: every factor and every date it
carries comes from an event of its own history.
-/

set_option autoImplicit false

namespace Egauth.Core.Lineage

structure Journey where
  start : Pending
  events : List Pending.Event
  pending : Pending
  starts : Pending.Starts start
  run : Run Pending.Step start events pending

def Journey.Added (j : Journey) (v : Verified) : Prop := ∃ st, .added v st ∈ j.events

inductive Event where
  | reauthenticated (j : Journey) (st : AccountState) (mfa : MFADecision) (now : Time)
  | enrolled (f : Factor) (st : AccountState)
  | passwordChanged (st : AccountState) (now : Time)
  | renewed (st : AccountState) (mfa : MFADecision) (claims : Option ClaimsOutcome) (now : Time)
  | resealed

def Event.bumps : Event → Bool
  | .enrolled _ _ => true
  | .passwordChanged _ _ => true
  | _ => false

/-- The events that verify no second factor: at most a password. -/
def Event.PasswordOnly : Event → Prop
  | .reauthenticated j _ _ _ => ∀ v ∈ j.pending.verified, v.factors = [.password]
  | _ => True

def Step (a : SessionAttrs) : Event → SessionAttrs → Prop
  | .reauthenticated j st mfa now, a' => reauthenticate a j.pending st mfa now = .ok a'
  | .enrolled f st, a' => factorEnrolled a f st = .ok a'
  | .passwordChanged st now, a' => Core.passwordChanged a st now = .ok a'
  | .renewed st mfa claims now, a' => renew a st mfa claims now = .ok a'
  | .resealed, a' => ∃ s, sealAttrs a = .ok s ∧ unsealAttrs s = .ok a'

/-- What admission settles for the life of the session; the tenant is that of the subject. -/
structure Fixed where
  lineage : UUID
  subject : Subject
  transport : Option Transport
  remember : Bool
  returnTo : Bytes
  provider : Bytes
  createdAt : Time

def fixed (a : SessionAttrs) : Fixed :=
  ⟨a.lineage, a.subject, a.transport, a.remember, a.returnTo, a.provider, a.createdAt⟩

def Verifies (origin : Journey) (events : List Event) (v : Verified) : Prop :=
  ∃ j : Journey, (j = origin ∨ ∃ st mfa now, .reauthenticated j st mfa now ∈ events) ∧ j.Added v

inductive Source (origin : Journey) (events : List Event) (subject : Subject) (f : Factor) : Prop where
  | verified (v : Verified) : Verifies origin events v → v.subject = subject → f ∈ v.factors →
      Source origin events subject f
  | enrolled (st : AccountState) : .enrolled f st ∈ events → f.role = some .second → Source origin events subject f
  | changed (st : AccountState) (now : Time) : .passwordChanged st now ∈ events → f = .password →
      Source origin events subject f

def Strong (v : Verified) : Prop :=
  hasRole v.factors .second = true ∨ .passkey ∈ v.factors ∧ .userVerification ∈ v.factors

/-- The instants of the session are those of its history. -/
structure Dated (origin : Journey) (events : List Event) (a : SessionAttrs) : Prop where
  primary : a.primaryAt ≠ 0 →
    (∃ v, Verifies origin events v ∧ v.subject = a.subject ∧ hasRole v.factors .primary = true ∧
      v.verifiedAt = a.primaryAt) ∨
    ∃ st, .passwordChanged st a.primaryAt ∈ events
  second : a.secondAt ≠ 0 →
    ∃ v, Verifies origin events v ∧ v.subject = a.subject ∧ Strong v ∧ v.verifiedAt = a.secondAt

structure Inv (origin : Journey) (events : List Event) (a : SessionAttrs) : Prop where
  formed : a.Formed
  factors : ∀ f ∈ a.factors, Source origin events a.subject f
  dated : Dated origin events a

section
variable {origin : Journey} {events : List Event} {e : Event} {a a' : SessionAttrs} {v : Verified}

theorem Journey.mem (j : Journey) (member : v ∈ j.pending.verified) :
    j.Added v ∧ v.subject = j.pending.subject ∧ v.Formed := by
  have inv := Pending.Inv.run j.starts j.run
  obtain ⟨formed, subject, -⟩ := inv.held v member
  exact ⟨inv.recorded v member, subject, formed⟩

theorem Verifies.mono (verifies : Verifies origin events v) : Verifies origin (events ++ [e]) v := by
  obtain ⟨j, part, added⟩ := verifies
  refine ⟨j, part.imp id ?_, added⟩
  rintro ⟨st, mfa, now, member⟩
  exact ⟨st, mfa, now, List.mem_append_left _ member⟩

theorem Source.mono {subject : Subject} {f : Factor} (source : Source origin events subject f) :
    Source origin (events ++ [e]) subject f := by
  cases source with
  | verified v verifies own holds => exact .verified v verifies.mono own holds
  | enrolled st member role => exact .enrolled st (List.mem_append_left _ member) role
  | changed st now member same => exact .changed st now (List.mem_append_left _ member) same

theorem Dated.mono (dated : Dated origin events a) (primary : a'.primaryAt = a.primaryAt)
    (second : a'.secondAt = a.secondAt) (subject : a'.subject = a.subject) : Dated origin (events ++ [e]) a' := by
  refine ⟨fun nonzero => ?_, fun nonzero => ?_⟩
  · rw [primary] at nonzero ⊢
    rw [subject]
    rcases dated.primary nonzero with ⟨v, verifies, facts⟩ | ⟨st, member⟩
    · exact .inl ⟨v, verifies.mono, facts⟩
    · exact .inr ⟨st, List.mem_append_left _ member⟩
  · rw [second] at nonzero ⊢
    rw [subject]
    obtain ⟨v, verifies, facts⟩ := dated.second nonzero
    exact ⟨v, verifies.mono, facts⟩

theorem strong_of_select (select : (hasRole v.factors .second || multiFactor v.factors) = true) :
    Strong v := by
  rcases Bool.or_eq_true_iff.mp select with second | multi
  · exact .inl second
  · rcases multiFactor_iff.mp multi with ⟨-, second⟩ | passkey
    · exact .inl second
    · exact .inr passkey

/-- What a Pending contributes when it is completed into the lineage. -/
theorem contributes (j : Journey) (part : ∀ v, j.Added v → Verifies origin events v) :
    (∀ f ∈ j.pending.factorSet, f.valid = true ∧ Source origin events j.pending.subject f) ∧
    (j.pending.primaryAt ≠ 0 → ∃ v, Verifies origin events v ∧ v.subject = j.pending.subject ∧
      hasRole v.factors .primary = true ∧ v.verifiedAt = j.pending.primaryAt) ∧
    (j.pending.secondAt ≠ 0 → ∃ v, Verifies origin events v ∧ v.subject = j.pending.subject ∧ Strong v ∧
      v.verifiedAt = j.pending.secondAt) := by
  refine ⟨fun f holds => ?_, fun nonzero => ?_, fun nonzero => ?_⟩
  · obtain ⟨v, member, holds⟩ := Pending.mem_factorSet.mp holds
    obtain ⟨added, subject, formed⟩ := j.mem member
    exact ⟨(Shape.of_check formed.shape).valid f holds, .verified v (part v added) subject holds⟩
  · obtain ⟨v, member, primary, date⟩ := Pending.latest_eq nonzero
    obtain ⟨added, subject, -⟩ := j.mem member
    exact ⟨v, part v added, subject, primary, date⟩
  · obtain ⟨v, member, select, date⟩ := Pending.latest_eq nonzero
    obtain ⟨added, subject, -⟩ := j.mem member
    exact ⟨v, part v added, subject, strong_of_select select, date⟩

theorem Inv.admitted {st : AccountState} {mfa : MFADecision} {now : Time} {lineage : UUID}
    (ok : admitPending origin.pending st mfa now lineage = .ok (.session a)) : Inv origin [] a := by
  obtain ⟨-, -, -, rfl⟩ := admitPending_session ok
  have part : ∀ v, origin.Added v → Verifies origin [] v := fun v added => ⟨origin, .inl rfl, added⟩
  obtain ⟨factors, primary, second⟩ := contributes origin part
  exact ⟨⟨rfl, Pending.ordered_factorSet, fun f holds => (factors f holds).1⟩, fun f holds => (factors f holds).2,
    ⟨fun nonzero => .inl (primary nonzero), second⟩⟩

theorem Step.resealed (formed : a.Formed) (step : Step a .resealed a') : a' = a := by
  obtain ⟨s, stored, loaded⟩ := step
  rw [unsealAttrs_sealAttrs formed stored] at loaded
  cases loaded
  rfl

theorem Inv.join (inv : Inv origin events a) {fs : List Factor} (version : a'.version = a.version)
    (subject : a'.subject = a.subject) (factors : a'.factors = unionFactors a.factors fs)
    (new : ∀ f ∈ fs, f.valid = true ∧ Source origin (events ++ [e]) a.subject f)
    (dated : Dated origin (events ++ [e]) a') : Inv origin (events ++ [e]) a' := by
  refine ⟨⟨version.trans inv.formed.version, factors ▸ ordered_unionFactors, fun f holds => ?_⟩, fun f holds => ?_,
    dated⟩
  · rw [factors] at holds
    exact (mem_unionFactors.mp holds).elim (inv.formed.valid f) fun added => (new f added).1
  · rw [factors] at holds
    rw [subject]
    exact (mem_unionFactors.mp holds).elim (fun old => (inv.factors f old).mono) fun added => (new f added).2

theorem Inv.step (inv : Inv origin events a) (step : Step a e a') : Inv origin (events ++ [e]) a' := by
  cases e with
  | reauthenticated j st mfa now =>
    obtain ⟨-, subject, -, rfl⟩ := reauthenticate_ok step
    have part : ∀ v, j.Added v → Verifies origin (events ++ [.reauthenticated j st mfa now]) v :=
      fun v added => ⟨j, .inr ⟨st, mfa, now, by simp⟩, added⟩
    obtain ⟨factors, primary, second⟩ := contributes j part
    rw [subject] at factors primary second
    refine inv.join rfl rfl rfl factors ⟨fun nonzero => .inl (primary nonzero), fun nonzero => ?_⟩
    -- Without a second factor in the Pending the date stays.
    dsimp only at nonzero ⊢
    split at nonzero
    next none =>
      rw [if_pos none]
      obtain ⟨v, verifies, facts⟩ := inv.dated.second nonzero
      exact ⟨v, verifies.mono, facts⟩
    next some =>
      rw [if_neg some]
      exact second some
  | enrolled f st =>
    obtain ⟨role, rfl⟩ := factorEnrolled_ok step
    have valid : f.valid = true := by
      cases f with
      | zero => cases role
      | _ => rfl
    refine inv.join rfl rfl rfl (fun g single => ?_) (inv.dated.mono rfl rfl rfl)
    rw [List.mem_singleton.mp single]
    exact ⟨valid, .enrolled st (by simp) role⟩
  | passwordChanged st now =>
    cases passwordChanged_ok step
    have dated : Dated origin (events ++ [.passwordChanged st now]) a := inv.dated.mono rfl rfl rfl
    refine inv.join rfl rfl rfl (fun g single => ?_) ⟨fun _ => .inr ⟨st, by simp⟩, dated.second⟩
    rw [List.mem_singleton.mp single]
    exact ⟨rfl, .changed st now (by simp) rfl⟩
  | renewed st mfa claims now =>
    obtain ⟨fetched, rfl⟩ := renew_ok step
    exact ⟨⟨inv.formed.version, inv.formed.ordered, inv.formed.valid⟩, fun f holds => (inv.factors f holds).mono,
      inv.dated.mono rfl rfl rfl⟩
  | resealed =>
    rw [step.resealed inv.formed]
    exact ⟨inv.formed, fun f holds => (inv.factors f holds).mono, inv.dated.mono rfl rfl rfl⟩

structure Carries (a : SessionAttrs) (e : Event) (a' : SessionAttrs) : Prop where
  fixed : fixed a' = fixed a
  factors : a.factors ⊆ a'.factors
  mustChange : a.mustChange = true → a'.mustChange = true ∨ ∃ st now, e = .passwordChanged st now
  epoch : a'.epoch = a.epoch + if e.bumps then 1 else 0
  second : e.PasswordOnly → a'.secondAt = a.secondAt

theorem secondAt_eq_zero {p : Pending} (only : ∀ v ∈ p.verified, v.factors = [.password]) : p.secondAt = 0 := by
  by_contra nonzero
  obtain ⟨v, member, select, -⟩ := Pending.latest_eq nonzero
  rw [only v member] at select
  cases select

theorem Step.carries (formed : a.Formed) (step : Step a e a') : Carries a e a' := by
  cases e with
  | reauthenticated j st mfa now =>
    obtain ⟨-, -, -, rfl⟩ := reauthenticate_ok step
    refine ⟨rfl, fun f old => mem_unionFactors.mpr (.inl old), fun must => .inl ?_, ?_, fun only => ?_⟩
    · simp [must]
    · simp [Event.bumps]
    · exact if_pos (secondAt_eq_zero only)
  | enrolled f st =>
    obtain ⟨-, rfl⟩ := factorEnrolled_ok step
    refine ⟨rfl, fun f old => mem_unionFactors.mpr (.inl old), fun must => .inl ?_, rfl, fun _ => rfl⟩
    simp [must]
  | passwordChanged st now =>
    cases passwordChanged_ok step
    exact ⟨rfl, fun f old => mem_unionFactors.mpr (.inl old), fun _ => .inr ⟨st, now, rfl⟩, rfl, fun _ => rfl⟩
  | renewed st mfa claims now =>
    obtain ⟨fetched, rfl⟩ := renew_ok step
    refine ⟨rfl, fun f old => old, fun must => .inl ?_, ?_, fun _ => rfl⟩
    · simp [must]
    · simp [Event.bumps]
  | resealed =>
    rw [step.resealed formed]
    exact ⟨rfl, fun f old => old, .inl, by simp [Event.bumps], fun _ => rfl⟩

theorem Inv.run {before : List Event} (inv : Inv origin before a) (run : Run Step a events a') :
    Inv origin (before ++ events) a' := by
  induction run with
  | nil => rwa [List.append_nil]
  | snoc _ last ih =>
    rw [← List.append_assoc]
    exact ih.step last

theorem run_carries {before : List Event} (inv : Inv origin before a) (run : Run Step a events a') :
    fixed a' = fixed a ∧ a.factors ⊆ a'.factors ∧
      (a.mustChange = true → a'.mustChange = true ∨ ∃ st now, .passwordChanged st now ∈ events) ∧
      a'.epoch = a.epoch + UInt64.ofNat (events.countP Event.bumps) := by
  induction run with
  | nil => exact ⟨rfl, fun f old => old, .inl, by simp⟩
  | @snoc b c labels e first last ih =>
    have step := last.carries (inv.run first).formed
    obtain ⟨fixed, factors, mustChange, epoch⟩ := ih
    refine ⟨step.fixed.trans fixed, fun f old => step.factors (factors old), fun must => ?_, ?_⟩
    · rcases mustChange must with still | ⟨st, now, member⟩
      · refine (step.mustChange still).imp id ?_
        rintro ⟨st, now, rfl⟩
        exact ⟨st, now, by simp⟩
      · exact .inr ⟨st, now, List.mem_append_left _ member⟩
    · -- The bumps add up modulo 2^64, as the epochs do.
      rw [step.epoch, epoch, List.countP_append, UInt64.ofNat_add, UInt64.add_assoc]
      congr 2
      cases bumps : e.bumps <;> simp [bumps]

/-- A session proves only what was verified: between any two points of its history. -/
theorem session_proves_only_verified {st : AccountState} {mfa : MFADecision} {now : Time} {lineage : UUID}
    {admitted : SessionAttrs} (ok : admitPending origin.pending st mfa now lineage = .ok (.session admitted))
    {before after : List Event} (first : Run Step admitted before a) (second : Run Step a after a') :
    fixed a' = fixed a ∧ a.factors ⊆ a'.factors ∧ Ordered a'.factors ∧ a'.factors.Nodup ∧
      (∀ f ∈ a'.factors, Source origin (before ++ after) a'.subject f) ∧
      (a.mustChange = true → a'.mustChange = false → ∃ st now, .passwordChanged st now ∈ after) ∧
      a'.epoch = a.epoch + UInt64.ofNat (after.countP Event.bumps) := by
  have inv : Inv origin before a := (Inv.admitted ok).run first
  have inv' := inv.run second
  obtain ⟨fixed, factors, mustChange, epoch⟩ := run_carries inv second
  refine ⟨fixed, factors, inv'.formed.ordered, inv'.formed.ordered.nodup, inv'.factors, fun must cleared => ?_, epoch⟩
  refine (mustChange must).resolve_left fun still => ?_
  rw [cleared] at still
  cases still

open Pending in
def twoFactorLogin : Journey :=
  ⟨twoFactorStart, twoFactorEvents, twoFactorPending,
    .login (show new .zero (some .declined) [] (some .cookies) (some .never) unixEpoch = .ok twoFactorStart by rfl),
    twoFactor_run⟩

def twoFactorSession : SessionAttrs where
  version := codecVersion
  lineage := ⟨List.replicate 16 2, rfl⟩
  subject := Pending.twoFactorSubject
  factors := [.password, .totp]
  credentialIDs := []
  primaryAt := unixEpoch + 1
  secondAt := unixEpoch + 2
  epoch := 7
  mustChange := false
  remember := false
  returnTo := []
  transport := some .cookies
  provider := []
  createdAt := unixEpoch + 3
  claimsFetchedAt := unixEpoch + 3

theorem twoFactorSession_admitted :
    admitPending twoFactorLogin.pending (Pending.usableAt 7) (.new [.totp]) (unixEpoch + 3)
      twoFactorSession.lineage = .ok (.session twoFactorSession) := by rfl

def strengthenedSession : SessionAttrs :=
  { twoFactorSession with factors := [.password, .recoveryCode, .totp], epoch := 8 }

def changedSession : SessionAttrs := { strengthenedSession with primaryAt := unixEpoch + 5, epoch := 9 }

/-- The session enrolls recovery codes, is stored, and changes its password. -/
theorem session_proves_only_verified_passwordChanged :
    changedSession.epoch = 8 + 1 ∧ Source twoFactorLogin
      ([.enrolled .recoveryCode (Pending.usableAt 8)] ++
        [.resealed, .passwordChanged (Pending.usableAt 9) (unixEpoch + 5)]) changedSession.subject .recoveryCode := by
  have enrolled : factorEnrolled twoFactorSession .recoveryCode (Pending.usableAt 8) = .ok strengthenedSession := by
    decide +kernel
  have stored : Step strengthenedSession .resealed strengthenedSession := ⟨_, by rfl, by rfl⟩
  have changed : passwordChanged strengthenedSession (Pending.usableAt 9) (unixEpoch + 5) = .ok changedSession := by
    decide +kernel
  have first : Step twoFactorSession (.enrolled .recoveryCode (Pending.usableAt 8)) strengthenedSession := enrolled
  have last : Step strengthenedSession (.passwordChanged (Pending.usableAt 9) (unixEpoch + 5)) changedSession := changed
  obtain ⟨-, -, -, -, sources, -, epoch⟩ :=
    session_proves_only_verified twoFactorSession_admitted (.single first) ((Run.single stored).snoc last)
  exact ⟨epoch, sources .recoveryCode (by decide)⟩

/-- Below the largest Duration, what `FreshWithin` asks of the two instants. -/
theorem instants_of_freshWithin {d : Duration} {now : Time} (bounded : d < Duration.maxDuration)
    (fresh : a.freshWithin d now = true) :
    (a.primaryAt ≠ 0 ∧ now - d ≤ a.primaryAt) ∧
      (multiFactor a.factors = true → a.secondAt ≠ 0 ∧ now - d ≤ a.secondAt) := by
  unfold SessionAttrs.freshWithin at fresh
  split at fresh
  · cases fresh
  next recent =>
    simp only [not_or, not_le, gt_iff_lt, not_lt] at recent
    obtain ⟨positive, nonzero, within⟩ := recent
    have least : Duration.minDuration ≤ d := le_trans (by decide) positive.le
    rw [Time.sub_le_iff least bounded] at within
    refine ⟨⟨nonzero, by linarith⟩, fun multi => ?_⟩
    rw [if_pos (by rw [multi, Bool.or_true])] at fresh
    obtain ⟨nonzero, within⟩ := of_decide_eq_true fresh
    rw [Time.sub_le_iff least bounded] at within
    exact ⟨nonzero, by linarith⟩

/-- Freshness is earned by verification, for every bound below the largest Duration. -/
theorem fresh_by_verification {st : AccountState} {mfa : MFADecision} {admission : Time} {lineage : UUID}
    {admitted : SessionAttrs} (ok : admitPending origin.pending st mfa admission lineage = .ok (.session admitted))
    (run : Run Step admitted events a) {d : Duration} (bounded : d < Duration.maxDuration) (now : Time) :
    (a.freshWithin d now = true →
      ((∃ v, Verifies origin events v ∧ v.subject = a.subject ∧ hasRole v.factors .primary = true ∧
          now - d ≤ v.verifiedAt) ∨
        ∃ st t, .passwordChanged st t ∈ events ∧ now - d ≤ t) ∧
      (multiFactor a.factors = true →
        ∃ v, Verifies origin events v ∧ v.subject = a.subject ∧ Strong v ∧ now - d ≤ v.verifiedAt)) ∧
    (∀ e a', Step a e a' → e.PasswordOnly → multiFactor a'.factors = true → a'.freshWithin d now = true →
      a.secondAt ≠ 0 ∧ now - d ≤ a.secondAt) := by
  have inv : Inv origin events a := (Inv.admitted ok).run run
  refine ⟨fun fresh => ?_, fun e a' step only multi fresh => ?_⟩
  · obtain ⟨⟨nonzero, recent⟩, second⟩ := instants_of_freshWithin bounded fresh
    refine ⟨?_, fun multi => ?_⟩
    · rcases inv.dated.primary nonzero with ⟨v, verifies, own, primary, date⟩ | ⟨st, changed⟩
      · exact .inl ⟨v, verifies, own, primary, date ▸ recent⟩
      · exact .inr ⟨st, a.primaryAt, changed, recent⟩
    · obtain ⟨nonzero, recent⟩ := second multi
      obtain ⟨v, verifies, own, strong, date⟩ := inv.dated.second nonzero
      exact ⟨v, verifies, own, strong, date ▸ recent⟩
  · -- A step without a second factor has left its date alone.
    have second := (instants_of_freshWithin bounded fresh).2 multi
    rwa [(step.carries inv.formed).second only] at second

theorem fresh_by_verification_twoFactor :
    ∃ v, Verifies twoFactorLogin [] v ∧ v.subject = Pending.twoFactorSubject ∧ Strong v ∧
      unixEpoch + 10 - Duration.minute ≤ v.verifiedAt := by
  have within : Duration.minute < Duration.maxDuration := by decide
  have fresh : twoFactorSession.freshWithin Duration.minute (unixEpoch + 10) = true := by rfl
  exact ((fresh_by_verification twoFactorSession_admitted .nil within (unixEpoch + 10)).1 fresh).2 rfl

/-- The difference of two instants saturates at the largest Duration, which no session exceeds. -/
theorem fresh_without_verification :
    ∃ now, twoFactorSession.freshWithin Duration.maxDuration now = true ∧
      ¬((∃ v, Verifies twoFactorLogin [] v ∧ v.subject = twoFactorSession.subject ∧
          hasRole v.factors .primary = true ∧ now - Duration.maxDuration ≤ v.verifiedAt) ∨
        ∃ st t, .passwordChanged st t ∈ ([] : List Event) ∧ now - Duration.maxDuration ≤ t) := by
  refine ⟨unixEpoch + 10 + Duration.maxDuration, by rfl, ?_⟩
  rintro (⟨v, ⟨j, rfl | ⟨_, _, _, member⟩, st, added⟩, -, -, recent⟩ | ⟨_, _, member, _⟩)
  · -- The journey verified two factors, both earlier.
    rw [add_sub_cancel_right] at recent
    change .added v st ∈ Pending.twoFactorEvents at added
    simp only [Pending.twoFactorEvents, List.mem_cons, List.not_mem_nil, or_false, reduceCtorEq, false_or,
      Pending.Event.added.injEq] at added
    rcases added with ⟨rfl, -⟩ | ⟨rfl, -⟩
    · exact absurd recent (by decide)
    · exact absurd recent (by decide)
  · cases member
  · cases member

end
end Egauth.Core.Lineage
