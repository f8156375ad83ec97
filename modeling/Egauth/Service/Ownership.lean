import Egauth.Ceremony.Index
import Egauth.Service.Upgrade

/-! What the first proof of an email address leaves of the credentials set before it.

A proof deletes the factors of each kind behind a bump of its own and marks the
address then; the mark drops the password and the links itself. An enrollment
that has passed its checks writes its factor whatever happened since, so what
counts is that none is between its checks and its write when the proof deletes.
-/

set_option autoImplicit false

namespace Egauth.Service.Ownership
open Egauth.Core Identity Prog

/-- A proof of the address, with the password it sets, or an enrollment. -/
inductive Party where
  | proof (phc : PasswordHash)
  | enroll (a : SessionAttrs) (k : Enrolling)

def Party.program (sub : Subject) : Party → Program Unit
  | .proof phc => do
    let _ ← verifyEmailOwnership sub phc
  | .enroll a k => k.program a

def Party.Of (sub : Subject) : Party → Prop
  | .proof _ => True
  | .enroll a _ => a.subject = sub

def Party.passes : Party → Option PasswordHash
  | .proof phc => some phc
  | .enroll .. => none

inductive FactorKind where
  | passkey
  | totp
  deriving DecidableEq, Repr

namespace FactorKind

def wipes (k : FactorKind) (sub : Subject) : Event → Bool
  | ⟨.deletePasskeys s, .ok _⟩ => k = .passkey && s = sub
  | ⟨.mfa s .deleteForSubject, .ok _⟩ => k = .totp && s = sub
  | _ => false

def writes (k : FactorKind) (sub : Subject) : Event → Bool
  | ⟨.savePasskey c, .ok _⟩ => k = .passkey && c.subject = sub
  | ⟨.mfa _ (.confirmEnrollment e _), .ok _⟩ => k = .totp && e.subject = sub
  | _ => false

/-- The check that an enrollment of the kind makes last: the epoch of the account, and the step of the code. -/
def checks (k : FactorKind) (sub : Subject) : Event → Bool
  | ⟨.getUser s, .ok _⟩ => k = .passkey && s = sub
  | ⟨.mfa s (.markTOTPUsed ..), .ok true⟩ => k = .totp && s = sub
  | _ => false

/-- The check is passed by an enrollment that was bound at the epoch. -/
def passed (k : FactorKind) (sub : Subject) (bound : Option UInt64) (event : Event) : Bool :=
  k.checks sub event &&
    match event with
    | ⟨.getUser _, .ok u⟩ => bound = some u.securityEpoch
    | _ => true

def Has (k : FactorKind) (w : World) (sub : Subject) : Prop :=
  match k with
  | .passkey => ∃ key c, w.passkeys.creds.lookup key = some c ∧ c.subject = sub
  | .totp => w.mfa.totp.lookup sub ≠ none

end FactorKind

def marks (sub : Subject) (phc : PasswordHash) : Event → Bool
  | ⟨.apply (.markEmailVerified s p), .ok _⟩ => s = sub && p = phc
  | _ => false

variable {sub : Subject}

theorem eq_of_marks {phc : PasswordHash} {event : Event} (marked : marks sub phc event = true) :
    ∃ ap, event = ⟨.apply (.markEmailVerified sub phc), .ok ap⟩ := by
  unfold marks at marked
  split at marked
  next s p ap =>
    obtain ⟨rfl, rfl⟩ : s = sub ∧ p = phc := by simpa using marked
    exact ⟨ap, rfl⟩
  · cases marked

/-- No enrollment of the kind is between its last check and its write when the proof deletes the factors. -/
def Apart {I : Type} (k : FactorKind) (sub : Subject) (i : I) (labels : List (I × Event)) : Prop :=
  ∀ n : Fin labels.length, (labels.get n).1 = i → k.wipes sub (labels.get n).2 = true →
    ∀ check ∈ labels.take n, k.checks sub check.2 = true →
      ∀ write ∈ labels.drop (n + 1), write.1 = check.1 → k.writes sub write.2 = false

instance {I : Type} [DecidableEq I] (k : FactorKind) (sub : Subject) (i : I) (labels : List (I × Event)) :
    Decidable (Apart k sub i labels) :=
  inferInstanceAs (Decidable (∀ n : Fin labels.length, (labels.get n).1 = i → k.wipes sub (labels.get n).2 = true →
    ∀ check ∈ labels.take n, k.checks sub check.2 = true →
      ∀ write ∈ labels.drop (n + 1), write.1 = check.1 → k.writes sub write.2 = false))

theorem Apart.at {I : Type} {k : FactorKind} {label : I × Event} {earlier later : List (I × Event)}
    (apart : Apart k sub label.1 (earlier ++ label :: later)) (wiped : k.wipes sub label.2 = true) :
    ∀ check ∈ earlier, k.checks sub check.2 = true → ∀ write ∈ later, write.1 = check.1 →
      k.writes sub write.2 = false := by
  have position : earlier.length < (earlier ++ label :: later).length := by simp
  simpa [wiped] using apart ⟨earlier.length, position⟩

inductive Milestone where
  | bumped
  | passed (k : FactorKind)
  | wiped (k : FactorKind)
  deriving DecidableEq, Repr

def Milestone.reachedBy (m : Milestone) (sub : Subject) (bound : Option UInt64) (event : Event) : Bool :=
  match m with
  | .bumped => bumps sub event
  | .passed k => k.passed sub bound event
  | .wiped k => k.wipes sub event

/-- The password a proof passes on, the epoch a registration was bound at, and what has been reached. -/
structure Progress where
  passes : Option PasswordHash
  bound : Option UInt64
  reached : Milestone → Bool

def Progress.start (passes : Option PasswordHash) : Progress := ⟨passes, none, fun _ => false⟩

/-- Registrations are bound at the epoch `first` at the latest. -/
def proves (sub : Subject) (first : UInt64) : Discipline Call Reply Progress where
  track g c r :=
    { g with
      bound := match c, r with
        | .consume .., .ok rec => some rec.row.pending.epochAtBind
        | _, _ => g.bound
      reached := fun m => g.reached m || m.reachedBy sub g.bound ⟨c, r⟩ }
  learns _ c r :=
    match c, r with
    | .mfa s .getTOTP, .ok e => e.subject = s
    | .consume .., .ok rec => rec.row.pending.epochAtBind ≤ first
    | _, _ => True
  allows g c :=
    match c with
    | .apply (.bumpEpoch s _ _) => s = sub
    | .apply (.markEmailVerified s phc) =>
      s = sub ∧ g.passes = some phc ∧ ∀ k, g.reached (.wiped k) = true
    | .apply _ => False
    | .deletePasskeys s | .mfa s .deleteForSubject => s = sub ∧ g.reached .bumped = true
    | .savePasskey c => c.subject = sub ∧ g.reached (.passed .passkey) = true
    | .mfa _ (.confirmEnrollment e _) => e.subject = sub ∧ g.reached (.passed .totp) = true
    | .mfa _ (.saveTOTP _) => False
    | .consume _ k _ => k = .passkeyRegistration
    | .put _ | .recordFailure .. => False
    | _ => True

structure Progress.Extends (g g' : Progress) : Prop where
  passes : g'.passes = g.passes
  reached : ∀ m, g.reached m = true → g'.reached m = true

theorem Progress.Extends.trans {g g' g'' : Progress} (first : g.Extends g') (second : g'.Extends g'') : g.Extends g'' :=
  ⟨second.passes.trans first.passes, fun m held => second.reached m (first.reached m held)⟩

section
variable {sub : Subject} {first : UInt64} {g : Progress}

theorem extends_track (g : Progress) (c : Call) (r : Reply c) : g.Extends ((proves sub first).track g c r) :=
  ⟨rfl, fun m held => by simp [proves, held]⟩

theorem yields_stillUnverified (epoch : UInt64) :
    Yields (proves sub first) g (stillUnverified sub epoch) fun g' _ => g.Extends g' := by
  refine yields_perform.mpr ⟨trivial, fun r _ => yields_value fun u _ => ?_⟩
  split
  · exact yields_fail
  split
  · exact yields_fail
  · exact yields_ret.mpr (extends_track g _ _)

theorem yields_deletes {k : FactorKind} {del : Program Unit} (bumped : g.reached .bumped = true)
    (deletes : k = .passkey ∧ del = deleteAllPasskeys sub ∨ k = .totp ∧ del = deleteAllMFA sub) :
    Yields (proves sub first) g del fun g' _ => g.Extends g' ∧ g'.reached (.wiped k) = true := by
  rcases deletes with ⟨rfl, rfl⟩ | ⟨rfl, rfl⟩
  all_goals
    refine yields_perform.mpr ⟨⟨rfl, bumped⟩, fun r _ => ?_⟩
    cases r with
    | error err => exact yields_fail
    | ok done =>
      exact yields_ret.mpr ⟨extends_track g _ _, by simp [proves, Milestone.reachedBy, FactorKind.wipes]⟩

theorem yields_wipe {k : FactorKind} {del : Program Unit} (change : FactorChange)
    (deletes : k = .passkey ∧ del = deleteAllPasskeys sub ∨ k = .totp ∧ del = deleteAllMFA sub) :
    Yields (proves sub first) g (wipe sub change del) fun g' _ => g.Extends g' ∧ g'.reached (.wiped k) = true := by
  refine yields_perform.mpr ⟨rfl, fun r _ => ?_⟩
  cases r with
  | error err => exact yields_fail
  | ok ap =>
    refine (yields_stillUnverified ap.newEpoch).bind fun g' _ kept => ?_
    have bumped : g'.reached .bumped = true := by
      refine kept.reached .bumped ?_
      simp [proves, Milestone.reachedBy, bumps, effectsOf, subjectOf]
    exact (yields_deletes bumped deletes).mono fun _ _ ends => ⟨((extends_track g _ _).trans kept).trans ends.1, ends.2⟩

theorem yields_verifyEmailOwnership {phc : PasswordHash} (passes : g.passes = some phc) :
    Yields (proves sub first) g (verifyEmailOwnership sub phc) fun _ _ => True := by
  refine (yields_stillUnverified 0).bind fun g₁ _ unverified => ?_
  refine (yields_wipe .passkeyRemoved (.inl ⟨rfl, rfl⟩)).bind fun g₂ _ passkeys => ?_
  refine (yields_wipe .totpRemoved (.inr ⟨rfl, rfl⟩)).bind fun g₃ _ totp => ?_
  refine yields_perform.mpr ⟨⟨rfl, ?_, fun k => ?_⟩, fun r _ => ?_⟩
  · exact ((unverified.trans passkeys.1).trans totp.1).passes.trans passes
  · cases k with
    | passkey => exact totp.1.reached _ passkeys.2
    | totp => exact totp.2
  · cases r with
    | error err => exact yields_fail
    | ok ap => exact yields_ret.mpr trivial

theorem yields_confirm {a : SessionAttrs} (own : a.subject = sub) (factors : Mfa.Config) (code : Bytes) :
    Yields (proves sub first) g (confirm a factors code) fun _ _ => True := by
  subst own
  refine ((Mfa.Confirming.yields_confirm { factors with subject := a.subject } code).embed
    (fun far g => far ≠ .checking → g.reached (.passed .totp) = true) (fun far => absurd rfl far) ?_).bind
    fun _ result _ => ?_
  · intro far g c passed allowed
    cases c with
    | bumpEpoch =>
      have accepted : far = .accepted := allowed
      refine ⟨rfl, fun r _ => ⟨trivial, fun _ => (extends_track g _ _).reached _ (passed ?_)⟩⟩
      simp [accepted]
    | confirmEnrollment e hashes =>
      obtain ⟨bumped, named⟩ := allowed
      have held := passed (by simp [bumped])
      exact ⟨⟨named, held⟩, fun r _ => ⟨trivial, fun _ => (extends_track g _ _).reached _ held⟩⟩
    | markTOTPUsed secret step =>
      refine ⟨trivial, fun r _ => ⟨trivial, fun far' => ?_⟩⟩
      rcases r with err | _ | _
      · exact (extends_track g _ _).reached _ (passed far')
      · exact (extends_track g _ _).reached _ (passed far')
      · have accepted : FactorKind.totp.passed a.subject g.bound ⟨.mfa a.subject (.markTOTPUsed secret step), .ok true⟩ =
            true := by simp [FactorKind.passed, FactorKind.checks]
        exact Bool.or_eq_true_iff.mpr (.inr accepted)
    | getTOTP =>
      refine ⟨trivial, fun r learned => ?_⟩
      cases r with
      | error err => exact ⟨trivial, fun far' => (extends_track g _ _).reached _ (passed far')⟩
      | ok e => exact ⟨learned, fun far' => (extends_track g _ _).reached _ (passed far')⟩
    | reserve | replaceSealed | openSealed | sealSecret | compare | newRecoveryCodes | now =>
      exact ⟨trivial, fun r _ => ⟨trivial, fun far' => (extends_track g _ _).reached _ (passed far')⟩⟩
    | _ => cases allowed
  · cases result with
    | error problem => exact yields_fail
    | ok done => exact yields_ret.mpr trivial

theorem yields_consumeSubjectCeremony (handle : Option Ceremony.Digest) :
    Yields (proves sub first) g (consumeSubjectCeremony sub.tenant .passkeyRegistration handle .registrationFailed)
      fun g' opened => g'.bound = some opened.1.epochAtBind := by
  refine yields_required fun hash _ => yields_perform.mpr ⟨rfl, fun r _ => yields_value fun rec read => ?_⟩
  subst read
  split
  next p _ session opened decoded =>
    refine yields_ret.mpr ?_
    cases openReset_ok opened
    rfl
  · exact yields_fail

theorem yields_accountState {bound : UInt64} (held : g.bound = some bound) :
    Yields (proves sub first) g (accountState sub) fun g' st =>
      st.usable = true → st.epoch = bound → g'.reached (.passed .passkey) = true := by
  refine yields_perform.mpr ⟨trivial, fun r _ => ?_⟩
  split
  next u _ =>
    refine yields_ret.mpr fun _ same => ?_
    have epoch : u.securityEpoch = bound := same
    simp [proves, Milestone.reachedBy, FactorKind.passed, FactorKind.checks, held, epoch]
  · exact yields_ret.mpr nofun
  · exact yields_fail

theorem yields_verifyRegistration (handle : Option Ceremony.Digest) (nickname : Bytes) :
    Yields (proves sub first) g (verifyRegistration sub handle nickname) fun g' c =>
      g'.reached (.passed .passkey) = true ∧ c.subject = sub := by
  refine (yields_consumeSubjectCeremony handle).bind fun g' opened bound => ?_
  dsimp only
  split
  · exact yields_fail
  refine (yields_accountState bound).bind fun g'' st read => ?_
  split
  · exact yields_fail
  next live =>
    rw [not_or, not_not, Bool.not_eq_true', Bool.not_eq_false] at live
    refine yields_perform.mpr ⟨trivial, fun r _ => yields_required fun c _ => ?_⟩
    refine yields_perform.mpr ⟨trivial, fun now _ => yields_ret.mpr ⟨?_, rfl⟩⟩
    exact (extends_track _ _ _).reached _ ((extends_track g'' _ _).reached _ (read live.1 live.2))

theorem yields_registerFinish {a : SessionAttrs} (own : a.subject = sub) (handle : Option Ceremony.Digest)
    (nickname : Bytes) : Yields (proves sub first) g (registerFinish a handle nickname) fun _ _ => True := by
  unfold registerFinish
  rw [own]
  refine (yields_verifyRegistration handle nickname).bind fun g' c passed => ?_
  refine yields_perform.mpr ⟨trivial, fun r _ => ?_⟩
  split
  · exact yields_fail
  · refine Yields.bind (?_ : Yields _ _ _ fun (g'' : Progress) (_ : Unit) => g'.Extends g'') fun g'' _ kept => ?_
    · refine yields_perform.mpr ⟨rfl, fun r _ => yields_value fun _ _ => yields_ret.mpr ?_⟩
      exact (extends_track g' _ _).trans (extends_track _ _ _)
    · refine yields_perform.mpr ⟨⟨passed.2, kept.reached _ passed.1⟩, fun r _ => ?_⟩
      cases r with
      | error err => exact yields_fail
      | ok done => exact yields_ret.mpr trivial
  · exact yields_fail

theorem yields_party {party : Party} (own : party.Of sub) :
    Yields (proves sub first) (.start party.passes) (party.program sub) fun _ _ => True := by
  cases party with
  | proof phc => exact (yields_verifyEmailOwnership rfl).bind fun _ _ _ => yields_ret.mpr trivial
  | enroll a k =>
    cases k with
    | totp factors code => exact yields_confirm own factors code
    | passkey handle nickname => exact yields_registerFinish own handle nickname

end

section
variable {sub : Subject} {first : UInt64} {g : Progress}

theorem reached_of_follow {m : Milestone} {events : List Event} (learned : Learned (proves sub first) g events)
    (bounded : ∀ e, g.bound = some e → e ≤ first) (now : (follow (proves sub first) g events).reached m = true)
    (before : g.reached m = false) :
    ∃ event ∈ events, ∃ bound, (∀ e, bound = some e → e ≤ first) ∧ m.reachedBy sub bound event = true := by
  induction events generalizing g with
  | nil => cases before.symm.trans now
  | cons event events ih =>
    cases here : m.reachedBy sub g.bound event with
    | true => exact ⟨event, by simp, g.bound, bounded, here⟩
    | false =>
      obtain ⟨possible, rest⟩ := learned
      have next : ∀ e, ((proves sub first).track g event.1 event.2).bound = some e → e ≤ first := by
        obtain ⟨c, r⟩ := event
        cases c with
        | consume t k h =>
          cases r with
          | error err => exact bounded
          | ok rec =>
            intro e same
            cases same
            exact possible
        | _ => exact bounded
      obtain ⟨found, member, reached⟩ := ih rest next now (by simp [proves, before, here])
      exact ⟨found, List.mem_cons_of_mem _ member, reached⟩

def Registered (first : UInt64) (s : Ceremony.Store) : Prop :=
  ∀ k e, s.rows.lookup k = some e → k.kind = .passkeyRegistration → e.row.pending.epochAtBind ≤ first

structure Settled (first : UInt64) (w : World) : Prop where
  accounts : w.identity.Keyed
  enrollments : w.mfa.Keyed
  registered : Registered first w.ceremonies

theorem Settled.exec {o : Turn} {w w' : World} {c : Call} {r : Reply c} (settled : Settled first w)
    (allowed : (proves sub first).allows g c) (replied : exec o w c = (r, w')) : Settled first w' := by
  refine ⟨keyed_exec settled.accounts replied, mfa_keyed_exec settled.enrollments replied, ?_⟩
  by_cases touches : c.part = some .ceremonies
  · cases c with
    | consume t k h =>
      rcases consume_exec replied with ⟨-, same⟩ | done
      · rw [same]
        exact settled.registered
      · intro kk e found kind
        have rows := w.ceremonies.rows_consume w'.clock t k h kk
        rw [done] at rows
        rcases rows with same | ⟨-, gone⟩
        · exact settled.registered kk e (same ▸ found) kind
        · cases gone.symm.trans found
    | put | recordFailure => cases allowed
    | mfa => cases part_mfa touches
    | _ => cases touches
  · rw [(frame_exec replied).ceremonies touches]
    exact settled.registered

theorem Settled.learns {o : Turn} {w w' : World} {c : Call} {r : Reply c} (settled : Settled first w)
    (allowed : (proves sub first).allows g c) (replied : Service.exec o w c = (r, w')) :
    (proves sub first).learns g c r := by
  cases c with
  | mfa s c =>
    cases c with
    | getTOTP =>
      cases r with
      | error err => trivial
      | ok e => exact getTOTP_exec settled.enrollments replied
    | _ => trivial
  | consume t k h =>
    rcases consume_exec replied with ⟨failed, -⟩ | done
    · subst failed
      trivial
    · cases r with
      | error err => trivial
      | ok rec =>
        obtain ⟨e, found, same⟩ := Ceremony.Store.consume_row done
        have bound := settled.registered _ e found allowed
        rwa [← same] at bound
  | _ => trivial

end

section
variable {I : Type} [DecidableEq I] {sub : Subject} {first : UInt64} {parties : I → Party} {w : World}
  {labels : List (I × Event)} {y z : World × (I → Program Unit)}

def progress (sub : Subject) (first : UInt64) (parties : I → Party) (labels : List (I × Event)) (i : I) : Progress :=
  follow (proves sub first) (.start (parties i).passes) (own i labels)

variable (all : ∀ i, (parties i).Of sub) (settled : Settled first w)
  (run : Run (Interleave exec) (w, fun i => (parties i).program sub) labels y)
include all settled run

theorem settled_of_run : Settled first y.1 ∧ ∀ i, Learned (proves sub first) (.start (parties i).passes) (own i labels) := by
  have yields (i : I) : Yields (proves sub first) (.start (parties i).passes) ((parties i).program sub) fun _ _ => True :=
    yields_party (all i)
  exact learned_of_allowed (Settled first) run yields settled
    (fun _ _ _ _ allowed settled => settled.exec allowed rfl) fun _ _ _ _ allowed settled => settled.learns allowed rfl

theorem allows_party {label : I × Event} (step : Interleave exec y label z) :
    (proves sub first).allows (progress sub first parties labels label.1) label.2.1 := by
  have yields : Yields (proves sub first) (.start (parties label.1).passes) ((parties label.1).program sub) fun _ _ => True :=
    yields_party (all label.1)
  exact allows_of_run run step yields ((settled_of_run all settled run).2 label.1)

theorem reached_of_run {i : I} {m : Milestone} (reached : (progress sub first parties labels i).reached m = true) :
    ∃ event, (i, event) ∈ labels ∧ ∃ bound, (∀ e, bound = some e → e ≤ first) ∧ m.reachedBy sub bound event = true := by
  obtain ⟨event, member, found⟩ := reached_of_follow ((settled_of_run all settled run).2 i) nofun reached rfl
  exact ⟨event, mem_own.mp member, found⟩

end

section
variable {k : FactorKind} {sub : Subject} {o : Turn} {w w' : World} {c : Call} {r : Reply c}

theorem not_has_of_wipes (replied : exec o w c = (r, w')) (wiped : k.wipes sub ⟨c, r⟩ = true) : ¬ k.Has w' sub := by
  cases c with
  | deletePasskeys s =>
    cases r with
    | error err => cases wiped
    | ok done =>
      obtain ⟨rfl, rfl⟩ : k = .passkey ∧ s = sub := by simpa [FactorKind.wipes] using wiped
      dsimp only [exec, writes] at replied
      split at replied
      · cases replied
      · cases replied
        rintro ⟨key, c, found, named⟩
        exact (Passkey.Store.lookup_deleteForSubject found).2 named
  | mfa s c =>
    cases c with
    | deleteForSubject =>
      cases r with
      | error err => cases wiped
      | ok done =>
        obtain ⟨rfl, rfl⟩ : k = .totp ∧ s = sub := by simpa [FactorKind.wipes] using wiped
        dsimp only [exec, Mfa.exec, performed] at replied
        split at replied
        · cases replied
        · cases replied
          intro found
          exact found (by simp [Mfa.Store.deleteForSubject])
    | _ => cases wiped
  | _ => cases wiped

variable {first : UInt64} {g : Progress}

theorem writes_of_puts {s : Subject} {c : Mfa.Call} {r : Mfa.Reply c}
    (allowed : (proves sub first).allows g (.mfa s c)) (put : Mfa.puts sub ⟨c, r⟩ = true) :
    FactorKind.totp.writes sub ⟨.mfa s c, r⟩ = true := by
  cases c with
  | saveTOTP e => cases allowed
  | confirmEnrollment e hashes =>
    cases r with
    | error err => cases put
    | ok done => simpa [FactorKind.writes, Mfa.puts] using put
  | _ => cases put

theorem has_exec (allowed : (proves sub first).allows g c)
    (replied : exec o w c = (r, w')) (present : k.Has w' sub) :
    k.Has w sub ∨ k.writes sub ⟨c, r⟩ = true := by
  cases k with
  | passkey =>
    obtain ⟨key, cred, found, named⟩ := present
    by_cases touches : c.part = some .passkeys
    · cases c with
      | savePasskey new =>
        dsimp only [exec, writes] at replied
        split at replied
        · cases replied
          exact .inl ⟨key, cred, found, named⟩
        · obtain ⟨result, rfl⟩ := Prod.mk.inj replied
          rcases Passkey.Store.lookup_save found with before | ⟨ok, rfl⟩
          · exact .inl ⟨key, cred, before, named⟩
          · cases result.symm.trans ok
            exact .inr (by simpa [FactorKind.writes, Passkey.Credential.clone] using named)
      | deletePasskeys s =>
        dsimp only [exec, writes] at replied
        split at replied
        · cases replied
          exact .inl ⟨key, cred, found, named⟩
        · cases replied
          exact .inl ⟨key, cred, (Passkey.Store.lookup_deleteForSubject found).1, named⟩
      | mfa => cases part_mfa touches
      | _ => cases touches
    · rw [(frame_exec replied).passkeys touches] at found
      exact .inl ⟨key, cred, found, named⟩
  | totp =>
    by_cases touches : c.part = some .mfa
    · by_contra neither
      rw [not_or] at neither
      obtain ⟨before, unwritten⟩ := neither
      have absent : w.mfa.totp.lookup sub = none := not_not.mp before
      cases c with
      | mfa s c =>
        cases replied
        refine present (Mfa.absent_exec absent (Bool.eq_false_iff.mpr fun put => ?_))
        exact unwritten (writes_of_puts allowed put)
      | _ => cases touches
    · have same := (frame_exec replied).mfa touches
      refine .inl ?_
      unfold FactorKind.Has at present ⊢
      rwa [same] at present

/-- A code is accepted for an enrollment that is there, and a registration for the epoch of the account. -/
theorem passed_exec {bound : Option UInt64} (replied : exec o w c = (r, w')) (passed : k.passed sub bound ⟨c, r⟩ = true) :
    match k with
    | .passkey => bound = w.identity.epoch sub
    | .totp => k.Has w sub := by
  obtain ⟨checked, same⟩ := Bool.and_eq_true_iff.mp passed
  cases c with
  | getUser s =>
    cases r with
    | error err => cases checked
    | ok u =>
      obtain ⟨rfl, rfl⟩ : k = .passkey ∧ s = sub := by simpa [FactorKind.checks] using checked
      have epoch := Store.getUser_ok (getUser_exec replied)
      exact (of_decide_eq_true same).trans epoch.symm
  | mfa s c =>
    cases c with
    | markTOTPUsed secret step =>
      rcases r with err | _ | _
      · cases checked
      · cases checked
      · obtain ⟨rfl, rfl⟩ : k = .totp ∧ s = sub := by simpa [FactorKind.checks] using checked
        dsimp only [exec, Mfa.exec, performed] at replied
        split at replied
        · cases replied
        · obtain ⟨result, -⟩ := Prod.mk.inj replied
          intro absent
          have refused : (w.tick o).mfa.markTOTPUsed s step = ((w.tick o).mfa, false) := by
            unfold Mfa.Store.markTOTPUsed
            have here : (w.tick o).mfa.totp.lookup s = none := absent
            rw [here]
          rw [refused] at result
          cases result
    | _ => cases checked
  | _ => cases checked

theorem checks_of_wipes {event : Event} (wiped : k.wipes sub event = true) : k.checks sub event = false := by
  unfold FactorKind.wipes at wiped
  split at wiped
  · rfl
  · rfl
  · cases wiped

theorem bumped_of_wipes (allowed : (proves sub first).allows g c)
    (wiped : k.wipes sub ⟨c, r⟩ = true) : g.reached .bumped = true := by
  cases c with
  | deletePasskeys s => exact allowed.2
  | mfa s c =>
    cases c with
    | deleteForSubject => exact allowed.2
    | _ => cases wiped
  | _ => cases wiped

theorem passed_of_writes (allowed : (proves sub first).allows g c)
    (written : k.writes sub ⟨c, r⟩ = true) : g.reached (.passed k) = true := by
  cases c with
  | savePasskey c =>
    cases r with
    | error err => cases written
    | ok done =>
      obtain ⟨rfl, -⟩ : k = .passkey ∧ c.subject = sub := by simpa [FactorKind.writes] using written
      exact allowed.2
  | mfa s c =>
    cases c with
    | confirmEnrollment e hashes =>
      cases r with
      | error err => cases written
      | ok done =>
        obtain ⟨rfl, -⟩ : k = .totp ∧ e.subject = sub := by simpa [FactorKind.writes] using written
        exact allowed.2
    | _ => cases written
  | _ => cases written

end

section
variable {I : Type} [DecidableEq I] {sub : Subject} {first : UInt64} {parties : I → Party} {w : World}
  {labels : List (I × Event)} {y z : World × (I → Program Unit)}

/-- After a bump the epoch is above the one at the start, until it wraps. -/
theorem first_lt_epoch (settled : Settled first w) (current : w.identity.epoch sub = some first)
    (run : Run (Interleave exec) (w, fun i => (parties i).program sub) labels y)
    (fits : first.toNat + labels.length < 2 ^ 64) {label : I × Event} (member : label ∈ labels)
    (bumped : bumps sub label.2 = true) {e : UInt64} (now : y.1.identity.epoch sub = some e) : first < e := by
  have moved := epoch_of_run run settled.accounts current
  rw [now, Option.some.injEq] at moved
  have some' : 0 < labels.countP fun label => bumps sub label.2 := List.countP_pos_iff.mpr ⟨label, member, bumped⟩
  have few : (labels.countP fun label => bumps sub label.2) ≤ labels.length := List.countP_le_length
  generalize (labels.countP fun label => bumps sub label.2) = count at moved some' few
  have small : count < UInt64.size := by
    change count < 2 ^ 64
    omega
  rw [moved, UInt64.lt_iff_toNat_lt, UInt64.toNat_add, UInt64.toNat_ofNat_of_lt' small]
  omega

/-- Once the proof has deleted the factors of a kind there is none, as long as no enrollment was in between. -/
theorem gone_of_run (all : ∀ i, (parties i).Of sub) (settled : Settled first w)
    (current : w.identity.epoch sub = some first)
    (run : Run (Interleave exec) (w, fun i => (parties i).program sub) labels y)
    (fits : first.toNat + labels.length < 2 ^ 64) {k : FactorKind} {earlier later : List (I × Event)}
    {label : I × Event} (split : labels = earlier ++ label :: later) (wiped : k.wipes sub label.2 = true)
    (apart : ∀ check ∈ earlier, k.checks sub check.2 = true → ∀ write ∈ later, write.1 = check.1 →
      k.writes sub write.2 = false) : ¬ k.Has y.1 sub := by
  obtain ⟨_, _, start, deletes, -⟩ := run.split split
  have stood := bumped_of_wipes (allows_party all settled start deletes) wiped
  obtain ⟨bump, bumpedBefore, _, -, bumped⟩ := reached_of_run all settled start stood
  -- No enrollment of the kind has passed its last check since.
  suffices ¬ k.Has y.1 sub ∧ ∀ l ∈ later, ∀ bound, (∀ e, bound = some e → e ≤ first) → k.passed sub bound l.2 = false from
    this.1
  refine run.since (fun later t => (∀ check ∈ earlier, k.checks sub check.2 = true → ∀ write ∈ later,
    write.1 = check.1 → k.writes sub write.2 = false) → ¬ k.Has t.1 sub ∧ ∀ l ∈ later, ∀ bound,
      (∀ e, bound = some e → e ≤ first) → k.passed sub bound l.2 = false) split ?_ ?_ apart
  · intro t t' before step _
    obtain ⟨o, -, -, replied, -⟩ := step
    exact ⟨not_has_of_wipes replied wiped, by simp⟩
  · intro since l rest t t' position before step ih apart'
    obtain ⟨absent, unpassed⟩ := ih fun check member checked write past =>
      apart' check member checked write (List.mem_append_left _ past)
    have allowed := allows_party all settled before step
    obtain ⟨o, -, -, replied, -⟩ := step
    have failed (bound : Option UInt64) (bounded : ∀ e, bound = some e → e ≤ first) :
        k.passed sub bound l.2 = false := by
      by_contra passed
      have told := passed_exec replied (Bool.not_eq_false _ ▸ passed)
      cases k with
      | totp => exact absent told
      | passkey =>
        have now := epoch_of_run before settled.accounts current
        have shorter : first.toNat + (earlier ++ label :: since).length < 2 ^ 64 := by
          have lengths := congrArg List.length (split.trans (congrArg (earlier ++ label :: ·) position))
          simp only [List.length_append, List.length_cons] at lengths ⊢
          omega
        have above := first_lt_epoch settled current before shorter (List.mem_append_left _ bumpedBefore) bumped now
        exact absurd (bounded _ (told.trans now)) (UInt64.not_le.mpr above)
    refine ⟨fun present => ?_, fun l' member bound bounded => ?_⟩
    · rcases has_exec allowed replied present with still | written
      · exact absent still
      obtain ⟨check, member, bound, bounded, passed⟩ := reached_of_run all settled before (passed_of_writes allowed written)
      have checked : k.checks sub check = true := (Bool.and_eq_true_iff.mp passed).1
      rcases List.mem_append.mp member with past | onward
      · cases (apart' _ past checked l (by simp) rfl).symm.trans written
      rcases List.mem_cons.mp onward with now | since'
      · rw [← now] at wiped
        cases (checks_of_wipes wiped).symm.trans checked
      · cases (unpassed _ since' bound bounded).symm.trans passed
    · rcases List.mem_append.mp member with past | now
      · exact unpassed l' past bound bounded
      · cases List.mem_singleton.mp now
        exact failed bound bounded

end

theorem proof_of_passes {I : Type} [DecidableEq I] {first : UInt64} {parties : I → Party}
    {labels : List (I × Event)} {i : I} {phc : PasswordHash}
    (passes : (progress sub first parties labels i).passes = some phc) : parties i = .proof phc := by
  have kept (g : Progress) (events : List Event) : (follow (proves sub first) g events).passes = g.passes := by
    induction events generalizing g with
    | nil => rfl
    | cons event events ih => exact (ih _).trans rfl
  rw [progress, kept] at passes
  cases party : parties i with
  | proof other =>
    rw [party] at passes
    cases passes
    rfl
  | enroll a k =>
    rw [party] at passes
    cases passes

/-- When the proof marks the address, the account has the password that was passed and no federated link; and no
passkey and no TOTP enrollment, as long as no enrollment was between its last check and its write when the proof
deleted the factors of the kind. -/
theorem email_proof_leaves_no_credential {I : Type} [DecidableEq I] (sub : Subject) (parties : I → Party)
    (all : ∀ i, (parties i).Of sub) {w : World} {first : UInt64} (settled : Settled first w)
    (current : w.identity.epoch sub = some first) {labels : List (I × Event)} {y z : World × (I → Program Unit)}
    (run : Run (Interleave exec) (w, fun i => (parties i).program sub) labels y) {i : I} {event : Event}
    (last : Interleave exec y (i, event) z) {phc : PasswordHash} (marked : marks sub phc event = true) :
    (∃ a, parties i = .proof phc ∧ z.1.identity.accounts.lookup sub = some a ∧
      a.password.map Password.phc = (if phc.isZero then none else some phc) ∧ a.links = []) ∧
    (first.toNat + labels.length < 2 ^ 64 → (∀ k, Apart k sub i labels) → ∀ k : FactorKind, ¬ k.Has z.1 sub) := by
  obtain ⟨ap, rfl⟩ := eq_of_marks marked
  obtain ⟨-, passes, wiped⟩ : sub = sub ∧ (progress sub first parties labels i).passes = some phc ∧
    ∀ k, (progress sub first parties labels i).reached (.wiped k) = true := allows_party all settled run last
  obtain ⟨o, -, -, replied, -⟩ := last
  have frame := frame_exec replied
  refine ⟨?_, fun fits apart k => ?_⟩
  · rcases apply_exec replied with ⟨-, err, failed⟩ | ⟨ap', newID, -, -, applied⟩
    · cases failed
    obtain ⟨a, a', applies⟩ := Store.apply_loaded (settled_of_run all settled run).1.accounts rfl applied
    refine ⟨a', proof_of_passes passes, applies.left, ?_, applies.links rfl⟩
    rw [applies.password]
    dsimp only [rewritten]
    split <;> rfl
  · obtain ⟨event, member, _, -, deleted⟩ := reached_of_run all settled run (wiped k)
    obtain ⟨earlier, later, split⟩ := List.append_of_mem member
    have clear := apart k
    rw [split] at clear
    have gone := gone_of_run all settled current run fits split deleted (clear.at deleted)
    cases k with
    | passkey =>
      unfold FactorKind.Has at gone ⊢
      rw [frame.passkeys nofun]
      exact gone
    | totp =>
      unfold FactorKind.Has at gone ⊢
      rw [frame.mfa nofun]
      exact gone

namespace Sample
open Service.Sample

def account : Account :=
  { user := { subject := subject, email := email, emailVerifiedAt := 0, createdAt := day 30 }
    password := some { phc := ⟨ascii "old"⟩, changedAt := day 30 } }

def world : World :=
  { enrollWorld with
    identity := { identity with accounts := identity.accounts.insert subject account }
    ceremonies := .new }

theorem world_settled : Settled 0 world := by
  refine ⟨fun k a found => ?_, enrollWorld_keyed, fun _ _ found _ => nomatch found⟩
  · have here : (identity.accounts.insert subject account).lookup k = some a := found
    rw [Map.lookup_insert_eq] at here
    split at here
    next same =>
      cases here
      exact same.symm
    next => exact identity_keyed k a here

/-- A proof, and an enrollment of a session from before. -/
def parties (enrolls : Bool) : Party := if enrolls then .enroll enrolling totp else .proof ⟨ascii "new"⟩

theorem parties_of (enrolls : Bool) : (parties enrolls).Of subject := by
  cases enrolls with
  | true => rfl
  | false => trivial

def proving (turns : List (Bool × Nat)) : List (Bool × Event) × World × (Bool → Program Unit) :=
  schedule exec (world, fun i => (parties i).program subject)
    (turns.flatMap fun part => List.replicate part.2 (part.1, turn noon))

theorem run_proving (turns : List (Bool × Nat)) :
    Run (Interleave exec) (world, fun i => (parties i).program subject) (proving turns).1 (proving turns).2 :=
  run_schedule exec (world, fun i => (parties i).program subject) _

/-- The next turn of the proof marks the address. -/
def marksNext (turns : List (Bool × Nat)) (p : World → Bool) : Bool :=
  (Prog.turn exec (proving turns).2 false (turn noon)).any fun taken =>
    taken.1.1 = false && marks subject ⟨ascii "new"⟩ taken.1.2 && p taken.2.1

theorem marks_of_marksNext {turns : List (Bool × Nat)} {p : World → Bool} (next : marksNext turns p = true) :
    ∃ event z, Interleave exec (proving turns).2 (false, event) z ∧ marks subject ⟨ascii "new"⟩ event = true ∧
      p z.1 = true := by
  obtain ⟨⟨⟨i, event⟩, z⟩, taken, good⟩ := (Option.any_eq_true _ _).mp next
  simp only [Bool.and_eq_true, decide_eq_true_eq] at good
  obtain ⟨⟨rfl, marked⟩, holds⟩ := good
  exact ⟨event, z, interleave_of_turn taken, marked, holds⟩

end Sample

open Service.Ownership.Sample
open Service.Sample (subject)

/-- The enrollment is written before the proof begins, and wiped. -/
theorem email_proof_leaves_no_credential_in_turn : ∃ labels y z i event,
    Run (Interleave exec) (world, fun i => (parties i).program subject) labels y ∧
      Interleave exec y (i, event) z ∧ marks subject ⟨ascii "new"⟩ event = true ∧
      (∃ label ∈ labels, FactorKind.totp.writes subject label.2 = true) ∧
      (∃ a, parties i = .proof ⟨ascii "new"⟩ ∧ z.1.identity.accounts.lookup subject = some a ∧
        a.password.map Password.phc = some ⟨ascii "new"⟩ ∧ a.links = []) ∧
      ∀ k : FactorKind, ¬ k.Has z.1 subject := by
  have run := run_proving [(true, 10), (false, 7)]
  have next : marksNext [(true, 10), (false, 7)] (fun _ => true) = true := by decide +kernel
  obtain ⟨event, z, last, marked, -⟩ := marks_of_marksNext next
  obtain ⟨account, gone⟩ := email_proof_leaves_no_credential subject parties parties_of
    world_settled (by decide +kernel) run last marked
  refine ⟨_, _, z, false, event, run, last, marked, by decide +kernel, account, gone (by decide +kernel) fun k => ?_⟩
  cases k <;> decide +kernel

/-- The enrollment has passed its checks and bumped the epoch when the proof begins; it writes its factor between the
deletion and the mark. -/
theorem email_proof_leaves_totp : ∃ labels y z i event,
    Run (Interleave exec) (world, fun i => (parties i).program subject) labels y ∧
      Interleave exec y (i, event) z ∧ marks subject ⟨ascii "new"⟩ event = true ∧
      z.1.mfa.hasConfirmedTOTP subject = true ∧ FactorKind.totp.Has z.1 subject := by
  have next : marksNext [(true, 9), (false, 7), (true, 1)]
      (fun w => w.mfa.hasConfirmedTOTP subject) = true := by decide +kernel
  obtain ⟨event, z, last, marked, confirmed⟩ := marks_of_marksNext next
  refine ⟨_, _, z, false, event, run_proving _, last, marked, confirmed, fun absent => ?_⟩
  unfold Mfa.Store.hasConfirmedTOTP at confirmed
  rw [absent] at confirmed
  cases confirmed

end Egauth.Service.Ownership
