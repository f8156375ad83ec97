import Egauth.Service.Bound

/-! Enrolling a second factor, and the logins of the same subject.

The enrollment bumps the epoch, keeping its own lineage, and then writes the
factor; a login reads the account and then, one after the other, the two
enrollment stores. What a login is given, its Pending, its verification and the
lineage of its session, is arbitrary; the flow that an incomplete login is
parked in is left out, as is the reissue of the enrolling session.
-/

set_option autoImplicit false

namespace Egauth.Service
open Egauth.Core Identity Prog

/-- The epoch of the account is bumped where a confirmation asks for it; its other calls are those of the store. -/
def confirmCall (a : SessionAttrs) : Mfa.Call → Call
  | .bumpEpoch => .apply (.bumpEpoch a.subject a.lineage (some .totpEnrolled))
  | c => .mfa a.subject c

def confirmReply (a : SessionAttrs) : (c : Mfa.Call) → Reply (confirmCall a c) → Mfa.Reply c
  | .bumpEpoch => fun r => (r.mapError fun _ => .context).map fun _ => ()
  | .getTOTP | .hasConfirmedTOTP | .hasActivePasskey | .now | .reserve _ | .openSealed _ | .sealSecret _
  | .replaceSealed .. | .compare .. | .markTOTPUsed .. | .consumeRecoveryCode _ | .resetRecoveryAttempts | .newSecret
  | .newRecoveryCodes | .saveTOTP _ | .confirmEnrollment .. | .deleteTOTP | .deleteRecoveryCodes
  | .replaceRecoveryCodes _ | .deleteForSubject | .eraseTenant => fun r => r

def confirm (a : SessionAttrs) (factors : Mfa.Config) (code : Bytes) : Program Unit := do
  let cfg := { factors with subject := a.subject }
  value .factor (← (Mfa.confirm cfg code).embed (confirmCall a) (confirmReply a))

/-- The two reads of the enrollment stores. -/
def enrolled (sub : Subject) : Program MFADecision := do
  let totp ← value (fun _ => .authUnavailable) (← ask (.mfa sub .hasConfirmedTOTP))
  let passkey ← value (fun _ => .authUnavailable) (← ask (.hasActivePasskey sub))
  let fs := (if totp then [Factor.totp] else []) ++ (if passkey then [.passkeyStepUp] else [])
  pure (.new (if fs = [] then [] else fs ++ [.recoveryCode]))

def complete (t : TenantID) (p : Pending) (v : Verified) (lineage : UUID) : Program Unit :=
  if p.tenant ≠ t ∨ v.subject.tenant ≠ t then .fail .unauthenticated
  else do
    let st ← accountState v.subject
    let bound ← value (fun _ => .unauthenticated) (p.add v st)
    let d ← enrolled v.subject
    let now ← ask .now
    match ← value (fun _ => .unauthenticated) (admitPending bound st d now lineage) with
    | .needsFactor .. => pure ()
    | .session a => if ← ask (.startSession a) then pure () else .fail .serviceUnavailable

def revokeOthers (sub : Subject) (keep : UUID) : Program Unit := do
  if ← ask (.revokeSessions sub keep) then pure () else .fail .serviceUnavailable

inductive Enrolling where
  | totp (factors : Mfa.Config) (code : Bytes)
  | passkey (handle : Option Ceremony.Digest) (nickname : Bytes)

def Enrolling.program (a : SessionAttrs) : Enrolling → Program Unit
  | .totp factors code => confirm a factors code
  | .passkey handle nickname => registerFinish a handle nickname

inductive Beside where
  | login (t : TenantID) (p : Pending) (v : Verified) (lineage : UUID)
  | delivery (sub : Subject) (keep : UUID)

def Beside.program : Beside → Program Unit
  | .login t p v lineage => complete t p v lineage
  | .delivery sub keep => revokeOthers sub keep

/-- The account that was read, and then the enrollments that were. -/
structure Seen where
  account : Option (Subject × UInt64)
  totp : Option (Subject × Bool)
  passkey : Option (Subject × Bool)

def Seen.nothing : Seen := ⟨none, none, none⟩

/-- A session is of the subject and the epoch that were read, and multi-factor if an enrollment was seen. -/
def Seen.admits (g : Seen) (a : SessionAttrs) : Prop :=
  ∃ totp passkey, g = ⟨some (a.subject, a.epoch), some (a.subject, totp), some (a.subject, passkey)⟩ ∧
    (totp = true ∨ passkey = true → multiFactor a.factors = true)

def logsIn : Discipline Call Reply Seen where
  track g c r :=
    match c, r with
    | .getUser sub, .ok u => ⟨some (sub, u.securityEpoch), none, none⟩
    | .getUser _, .error _ => .nothing
    | .mfa sub .hasConfirmedTOTP, .ok enrolled => { g with totp := some (sub, enrolled) }
    | .hasActivePasskey sub, .ok enrolled => { g with passkey := some (sub, enrolled) }
    | _, _ => g
  learns _ _ _ := True
  allows g c :=
    match c with
    | .startSession a => g.admits a
    | .getUser _ | .mfa _ .hasConfirmedTOTP | .hasActivePasskey _ | .now | .revokeSessions .. => True
    | _ => False

theorem required_new {fs : List Factor} (nonempty : fs ≠ []) : (MFADecision.new fs).required = true := by
  obtain ⟨f, member⟩ := List.exists_mem_of_ne_nil fs nonempty
  have kept : f ∈ sortFactors (distinct fs) := by simpa using member
  cases listed : sortFactors (distinct fs) with
  | nil => simp [listed] at kept
  | cons f rest => simp [MFADecision.new, MFADecision.required, listed]

theorem yields_enrolled {g : Seen} {sub : Subject} : Yields logsIn g (enrolled sub) fun g' d => ∃ totp passkey,
    g' = ⟨g.account, some (sub, totp), some (sub, passkey)⟩ ∧ (totp = true ∨ passkey = true → d.required = true) := by
  refine yields_perform.mpr ⟨trivial, fun r _ => ?_⟩
  cases r with
  | error err => exact yields_fail
  | ok totp =>
    refine yields_perform.mpr ⟨trivial, fun r _ => ?_⟩
    cases r with
    | error err => exact yields_fail
    | ok passkey =>
      refine yields_ret.mpr ⟨totp, passkey, rfl, fun either => ?_⟩
      have some' : (if totp then [Factor.totp] else []) ++ (if passkey then [.passkeyStepUp] else []) ≠ [] := by
        rcases either with rfl | rfl <;> simp
      rw [if_neg some']
      exact required_new (by simp)

theorem yields_complete {g : Seen} {t : TenantID} {p : Pending} {v : Verified} {lineage : UUID} :
    Yields logsIn g (complete t p v lineage) fun _ _ => True := by
  unfold complete
  split
  · exact yields_fail
  have stated : Yields logsIn g (accountState v.subject) fun g st =>
      st.usable = true → g.account = some (v.subject, st.epoch) := by
    refine yields_perform.mpr ⟨trivial, fun r _ => ?_⟩
    split
    · exact yields_ret.mpr fun _ => rfl
    · exact yields_ret.mpr nofun
    · exact yields_fail
  refine stated.bind fun g st read => ?_
  refine yields_value fun bound added => yields_enrolled.bind fun g' d seen => ?_
  refine yields_perform.mpr ⟨trivial, fun now _ => yields_value fun admission admitted => ?_⟩
  split
  · exact yields_ret.mpr trivial
  next a =>
    refine yields_perform.mpr ⟨?_, fun r _ => ?_⟩
    · obtain ⟨-, -, completes, rfl⟩ := admitPending_session admitted
      obtain ⟨totp, passkey, same, multi⟩ := seen
      have subject : bound.subject = v.subject := by rw [(Pending.add_ok added).result]
      refine ⟨totp, passkey, ?_, fun either => completes.multi (multi either)⟩
      show g' = _
      rw [same, read completes.usable, subject]
    · split
      · exact yields_ret.mpr trivial
      · exact yields_fail

theorem yields_beside (b : Beside) : Yields logsIn .nothing b.program fun _ _ => True := by
  cases b with
  | login t p v lineage => exact yields_complete
  | delivery sub keep =>
    refine yields_perform.mpr ⟨trivial, fun r _ => ?_⟩
    cases r with
    | true => exact yields_ret.mpr trivial
    | false => exact yields_fail

inductive Stage where
  | fresh
  | bumped
  | written
  deriving DecidableEq

def Enrolling.writes (k : Enrolling) (sub : Subject) : Event → Bool
  | ⟨.mfa _ (.confirmEnrollment e _), .ok _⟩ => match k with
    | .totp .. => e.subject = sub
    | .passkey .. => false
  | ⟨.savePasskey c, .ok _⟩ => match k with
    | .totp .. => false
    | .passkey .. => c.subject = sub
  | _ => false

/-- The epoch is bumped first and the factor written then, each of them once. -/
def enrolls (k : Enrolling) (sub : Subject) : Discipline Call Reply Stage where
  track g c r :=
    match c, r with
    | .apply .., .ok _ => .bumped
    | .mfa _ (.confirmEnrollment ..), .ok _ => .written
    | .savePasskey _, .ok _ => .written
    | _, _ => g
  learns _ c r :=
    match c, r with
    | .mfa sub .getTOTP, .ok e => e.subject = sub
    | _, _ => True
  allows g c :=
    match c with
    | .apply m => g = .fresh ∧ subjectOf m = sub ∧ (effectsOf m).bumpsEpoch = true
    | .mfa s (.confirmEnrollment e hashes) => g = .bumped ∧ k.writes sub ⟨.mfa s (.confirmEnrollment e hashes), .ok ()⟩ = true
    | .mfa _ c => c.writes = true → g = .fresh
    | .savePasskey c => g = .bumped ∧ k.writes sub ⟨.savePasskey c, .ok ()⟩ = true ∧ c.active = true
    | .deletePasskeys _ | .startSession _ | .revokeSessions .. => False
    | _ => True

section
variable {A : Type} {k : Enrolling} {sub : Subject} {g : Stage} {p : Program A}

theorem yields_check {c : Call} {f : Reply c → Program A} {met : Stage → A → Prop}
    (checks : c.part = none ∨ c.part = some .ceremonies)
    (onward : ∀ r, (enrolls k sub).learns .fresh c r → Yields (enrolls k sub) .fresh (f r) met) :
    Yields (enrolls k sub) .fresh (ask c >>= f) met := by
  have stays : (enrolls k sub).allows .fresh c ∧ ∀ r, (enrolls k sub).track .fresh c r = .fresh := by
    cases c with
    | apply | savePasskey | deletePasskeys | startSession | revokeSessions => simp [Call.part] at checks
    | mfa s c =>
      cases c with
      | confirmEnrollment => simp [Call.part, Mfa.Call.writes] at checks
      | _ => exact ⟨fun _ => rfl, fun _ => rfl⟩
    | _ => exact ⟨trivial, fun _ => rfl⟩
  refine yields_perform.mpr ⟨stays.1, fun r possible => ?_⟩
  rw [stays.2 r]
  exact onward r possible

theorem yields_bump {keep : UUID} {change : FactorChange} {problem : Identity.Err → Problem}
    {f : Applied → Program A} {met : Stage → A → Prop} (onward : ∀ ap, Yields (enrolls k sub) .bumped (f ap) met) :
    Yields (enrolls k sub) .fresh (do
      let ap ← value problem (← ask (.apply (.bumpEpoch sub keep (some change))))
      f ap) met := by
  refine yields_perform.mpr ⟨⟨rfl, rfl, rfl⟩, fun r _ => ?_⟩
  cases r with
  | ok ap => exact onward ap
  | error err => exact yields_fail

/-- How far an enrollment is when its confirmation is that far. -/
def stageOf : Mfa.Confirming → Stage
  | .checking | .accepted => .fresh
  | .bumped => .bumped
  | .written => .written

theorem yields_confirm {a : SessionAttrs} {factors : Mfa.Config} {code : Bytes} :
    Yields (enrolls (.totp factors code) a.subject) .fresh (confirm a factors code) fun g _ => g = .written := by
  refine ((Mfa.Confirming.yields_confirm { factors with subject := a.subject } code).embed
    (fun g stage => stage = stageOf g) rfl ?_).bind ?_
  · rintro g _ c rfl allowed
    cases c with
    | bumpEpoch =>
      have accepted : g = .accepted := allowed
      subst accepted
      refine ⟨⟨rfl, rfl, rfl⟩, fun r _ => ?_⟩
      cases r <;> exact ⟨trivial, rfl⟩
    | confirmEnrollment e hashes =>
      obtain ⟨rfl, named⟩ := allowed
      refine ⟨⟨rfl, decide_eq_true named⟩, fun r _ => ?_⟩
      cases r <;> exact ⟨trivial, rfl⟩
    | markTOTPUsed secret step =>
      have checking : g = .checking := allowed
      subst checking
      refine ⟨fun _ => rfl, fun r _ => ⟨trivial, ?_⟩⟩
      rcases r with err | _ | _ <;> rfl
    | reserve | replaceSealed =>
      have checking : g = .checking := allowed
      subst checking
      exact ⟨fun _ => rfl, fun r _ => ⟨trivial, rfl⟩⟩
    | getTOTP =>
      refine ⟨nofun, fun r learned => ?_⟩
      cases r with
      | error err => exact ⟨trivial, rfl⟩
      | ok e => exact ⟨learned, rfl⟩
    | openSealed | sealSecret | compare | newRecoveryCodes | now => exact ⟨nofun, fun r _ => ⟨trivial, rfl⟩⟩
    | _ => cases allowed
  · rintro _ result ⟨g, rfl, written⟩
    cases result with
    | error problem => exact yields_fail
    | ok done =>
      cases written done rfl
      exact yields_ret.mpr rfl

theorem yields_registration {handle : Option Ceremony.Digest} {nickname : Bytes} :
    Yields (enrolls k sub) .fresh (verifyRegistration sub handle nickname) fun g c =>
      g = .fresh ∧ c.subject = sub ∧ c.active = true := by
  have opens : Yields (enrolls k sub) .fresh
      (consumeSubjectCeremony sub.tenant .passkeyRegistration handle .registrationFailed) fun g _ => g = .fresh := by
    refine yields_required fun hash _ => yields_check (.inr rfl) fun r _ => yields_value fun rec _ => ?_
    split
    · exact yields_ret.mpr rfl
    · exact yields_fail
  refine opens.bind ?_
  rintro _ ⟨p, session⟩ rfl
  dsimp only
  split
  · exact yields_fail
  have reads : Yields (enrolls k sub) .fresh (accountState sub) fun g _ => g = .fresh := by
    refine yields_check (.inl rfl) fun r _ => ?_
    split
    · exact yields_ret.mpr rfl
    · exact yields_ret.mpr rfl
    · exact yields_fail
  refine reads.bind ?_
  rintro _ st rfl
  split
  · exact yields_fail
  refine yields_check (.inl rfl) fun r _ => yields_required fun c _ => yields_check (.inl rfl) fun now _ => ?_
  exact yields_ret.mpr ⟨rfl, rfl, rfl⟩

theorem yields_registers {a : SessionAttrs} {handle : Option Ceremony.Digest} {nickname : Bytes} :
    Yields (enrolls (.passkey handle nickname) a.subject) .fresh (registerFinish a handle nickname)
      fun g _ => g = .written := by
  refine yields_registration.bind ?_
  rintro _ c ⟨rfl, named, active⟩
  refine yields_check (.inl rfl) fun r _ => ?_
  split
  · exact yields_fail
  · have bumped : Yields (enrolls (.passkey handle nickname) a.subject) .fresh
        (applyMutation (.bumpEpoch a.subject a.lineage (some .passkeyAdded)) fun _ => .serviceUnavailable)
        fun g _ => g = .bumped := yields_bump fun _ => yields_ret.mpr rfl
    refine bumped.bind ?_
    rintro _ _ rfl
    refine yields_perform.mpr ⟨⟨rfl, decide_eq_true named, active⟩, fun r _ => ?_⟩
    cases r with
    | ok done => exact yields_ret.mpr rfl
    | error err => exact yields_fail
  · exact yields_fail

theorem yields_enrolling (k : Enrolling) (a : SessionAttrs) :
    Yields (enrolls k a.subject) .fresh (k.program a) fun g _ => g = .written := by
  cases k with
  | totp factors code => exact yields_confirm
  | passkey handle nickname => exact yields_registers

end

end Egauth.Service
