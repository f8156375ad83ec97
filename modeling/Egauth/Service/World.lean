import Egauth.Identity.Effects
import Egauth.Mfa.Row
import Egauth.Service.Calls

/-! What a call leaves of the stores it does not write, and the rules of the
programs that only look at a reply.
-/

set_option autoImplicit false

namespace Egauth.Service
open Egauth.Core Identity Prog

section
variable {A G : Type} {d : Discipline Call Reply G} {g : G} {met : G → A → Prop}

theorem only_value {P : Call → Prop} {E A : Type} {wrap : E → Problem} {x : Except E A} :
    Only P (value wrap x) fun result => ∀ a, result = .ok a → x = .ok a := by
  cases x with
  | ok a =>
    rintro b ⟨⟩
    rfl
  | error err => nofun

theorem yields_value {E B : Type} {wrap : E → Problem} {x : Except E B} {f : B → Program A}
    (onward : ∀ b, x = .ok b → Yields d g (f b) met) : Yields d g (value wrap x >>= f) met := by
  cases x with
  | ok b => exact onward b rfl
  | error err => exact yields_fail

theorem yields_required {B : Type} {err : Problem} {x : Option B} {f : B → Program A}
    (onward : ∀ b, x = some b → Yields d g (f b) met) : Yields d g (required err x >>= f) met := by
  cases x with
  | some b => exact onward b rfl
  | none => exact yields_fail

end

variable {o : Turn} {w w' : World} {c : Call} {r : Reply c} {sub : Subject}

theorem clock_exec (replied : exec o w c = (r, w')) : w'.clock = max w.clock o.now := by
  cases c with
  | now | getUser | findFederated | peek | mfa | getPasskey | hasActivePasskey | hashPassword | attest =>
    cases replied
    rfl
  | apply | consume | put | recordFailure | savePasskey | deletePasskeys | startSession | revokeSessions =>
    dsimp only [exec, writes] at replied
    split at replied
    all_goals
      cases replied
      rfl

inductive Part where
  | identity
  | ceremonies
  | mfa
  | passkeys
  | sessions
  deriving DecidableEq, Repr

def Call.part : Call → Option Part
  | .apply .. => some .identity
  | .consume .. | .put _ | .recordFailure .. => some .ceremonies
  | .mfa _ c => if c.writes then some .mfa else none
  | .savePasskey _ | .deletePasskeys _ => some .passkeys
  | .startSession _ | .revokeSessions .. => some .sessions
  | .now | .getUser _ | .findFederated .. | .peek .. | .getPasskey .. | .hasActivePasskey _ | .hashPassword
  | .attest => none

theorem part_mfa {c : Mfa.Call} {part : Part} (touches : (Call.mfa sub c).part = some part) : part = .mfa := by
  have either : (if c.writes then some Part.mfa else none) = some part := touches
  split at either
  · exact (Option.some.inj either).symm
  · cases either

/-- Every other part is left as it was. -/
structure Frame (c : Call) (w w' : World) : Prop where
  identity : c.part ≠ some .identity → w'.identity = w.identity
  ceremonies : c.part ≠ some .ceremonies → w'.ceremonies = w.ceremonies
  mfa : c.part ≠ some .mfa → w'.mfa = w.mfa
  passkeys : c.part ≠ some .passkeys → w'.passkeys = w.passkeys
  sessions : c.part ≠ some .sessions → w'.sessions = w.sessions

theorem frame_exec (replied : exec o w c = (r, w')) : Frame c w w' := by
  cases c with
  | now | getUser | findFederated | peek | getPasskey | hasActivePasskey | hashPassword | attest =>
    cases replied
    exact ⟨fun _ => rfl, fun _ => rfl, fun _ => rfl, fun _ => rfl, fun _ => rfl⟩
  | mfa sub c =>
    cases replied
    refine ⟨fun _ => rfl, fun _ => rfl, fun other => Mfa.exec_reads ?_, fun _ => rfl, fun _ => rfl⟩
    cases writes : c.writes with
    | true => exact absurd (if_pos writes) other
    | false => rfl
  | apply | consume | put | recordFailure | savePasskey | deletePasskeys | startSession | revokeSessions =>
    dsimp only [exec, writes] at replied
    split at replied
    · cases replied
      exact ⟨fun _ => rfl, fun _ => rfl, fun _ => rfl, fun _ => rfl, fun _ => rfl⟩
    · cases replied
      constructor
      all_goals
        intro other
        first
        | rfl
        | exact absurd rfl other

theorem freshID_picks (s : Identity.Store) (newID : Option UUID) (m : Mutation) : s.Picks (freshID s newID m) m := by
  unfold freshID
  split
  next id tenant email phc mustChange federated =>
    split
    · trivial
    next absent => exact Option.not_isSome_iff_eq_none.mp absent
  next plain =>
    unfold Store.Picks
    split
    next id tenant email phc mustChange federated => exact absurd rfl (plain id tenant email phc mustChange federated rfl)
    next => trivial

/-- A write that fails does nothing but take its time. -/
theorem writes_cases {A S : Type} {failed a : A} {x : World → S × A} {set : World → S → World}
    (replied : writes o w failed x set = (a, w')) :
    a = failed ∧ w' = w.tick o ∨ ∃ s, x (w.tick o) = (s, a) ∧ w' = set (w.tick o) s := by
  unfold writes at replied
  split at replied
  · cases replied
    exact .inl ⟨rfl, rfl⟩
  · cases replied
    exact .inr ⟨_, rfl, rfl⟩

theorem apply_exec {m : Mutation} {r : Except Identity.Err Applied}
    (replied : exec o w (.apply m) = (r, w')) :
    w'.identity = w.identity ∧ (∃ err, r = .error err) ∨ ∃ ap newID, r = .ok ap ∧ w.identity.Picks newID m ∧
      w.identity.apply w'.clock o.ctx newID m = (w'.identity, .ok ap) := by
  dsimp only [exec] at replied
  rcases writes_cases replied with ⟨rfl, rfl⟩ | ⟨s, step, rfl⟩
  · exact .inl ⟨rfl, _, rfl⟩
  · cases r with
    | ok ap => exact .inr ⟨ap, _, rfl, freshID_picks _ _ _, step⟩
    | error err => exact .inl ⟨Store.apply_error step, err, rfl⟩

theorem getUser_exec {u : User} (replied : exec o w (.getUser sub) = (.ok u, w')) :
    w.identity.getUser sub = .ok u := by
  dsimp only [exec, reads, faulty] at replied
  split at replied
  · cases replied
  · exact congrArg Prod.fst replied

theorem confirmEnrollment_exec {e : Mfa.Enrollment} {hashes : List Bytes} {done : Unit}
    (replied : exec o w (.mfa sub (.confirmEnrollment e hashes)) = (.ok done, w')) :
    w.mfa.confirmEnrollment w'.clock e hashes = (w'.mfa, .ok done) := by
  dsimp only [exec, Mfa.exec, performed] at replied
  split at replied
  · cases replied
  · obtain ⟨result, rfl⟩ := Prod.mk.inj replied
    exact Prod.ext rfl result

theorem savePasskey_exec {c : Passkey.Credential} {done : Unit}
    (replied : exec o w (.savePasskey c) = (.ok done, w')) : w.passkeys.save c = (w'.passkeys, .ok done) := by
  dsimp only [exec] at replied
  rcases writes_cases replied with ⟨failed, -⟩ | ⟨s, step, rfl⟩
  · cases failed
  · exact step

theorem hasConfirmedTOTP_exec {enrolled : Bool}
    (replied : exec o w (.mfa sub .hasConfirmedTOTP) = (.ok enrolled, w')) : enrolled = w.mfa.hasConfirmedTOTP sub := by
  dsimp only [exec, Mfa.exec, performed] at replied
  split at replied <;> cases replied
  rfl

theorem getTOTP_exec {e : Mfa.Enrollment} (keyed : w.mfa.Keyed)
    (replied : exec o w (.mfa sub .getTOTP) = (.ok e, w')) : e.subject = sub := by
  dsimp only [exec, Mfa.exec, performed, Mfa.Store.getTOTP] at replied
  split at replied
  · cases replied
  split at replied
  · cases replied
  next found =>
    cases replied
    exact keyed _ _ found

theorem hasActivePasskey_exec {enrolled : Bool}
    (replied : exec o w (.hasActivePasskey sub) = (.ok enrolled, w')) : enrolled = w.passkeys.hasActive sub := by
  dsimp only [exec, reads, faulty] at replied
  split at replied <;> cases replied
  rfl

theorem startSession_exec {s : SessionAttrs} {started : Bool}
    (replied : exec o w (.startSession s) = (started, w')) :
    started = false ∧ w'.sessions = w.sessions ∨ started = true ∧ w'.sessions = w.sessions ++ [s] := by
  dsimp only [exec] at replied
  rcases writes_cases replied with ⟨rfl, rfl⟩ | ⟨s, step, rfl⟩
  · exact .inl ⟨rfl, rfl⟩
  · cases step
    exact .inr ⟨rfl, rfl⟩

theorem revokeSessions_exec {keep : UUID} {done : Bool}
    (replied : exec o w (.revokeSessions sub keep) = (done, w')) :
    done = false ∧ w'.sessions = w.sessions ∨ done = true ∧ w'.sessions = keptSessions w.sessions sub keep := by
  dsimp only [exec] at replied
  rcases writes_cases replied with ⟨rfl, rfl⟩ | ⟨s, step, rfl⟩
  · exact .inl ⟨rfl, rfl⟩
  · cases step
    exact .inr ⟨rfl, rfl⟩

/-! The calls of the ceremony store fail without effect, or are the store's own. -/

theorem peek_exec {t : TenantID} {k : Ceremony.Kind} {h : Ceremony.Digest} {r : Except Ceremony.Err Ceremony.Record}
    (replied : exec o w (.peek t k h) = (r, w')) :
    o.fault = true ∧ r = .error .context ∨ w.ceremonies.peek w'.clock t k h = r := by
  dsimp only [exec, reads, faulty] at replied
  split at replied
  next fault =>
    cases replied
    exact .inl ⟨fault, rfl⟩
  next =>
    cases replied
    exact .inr rfl

theorem put_exec {rec : Ceremony.Record} {r : Except Ceremony.Err Nat} (replied : exec o w (.put rec) = (r, w')) :
    r = .error .context ∧ w'.ceremonies = w.ceremonies ∨ w.ceremonies.put w'.clock rec = (w'.ceremonies, r) := by
  dsimp only [exec] at replied
  rcases writes_cases replied with ⟨rfl, rfl⟩ | ⟨s, step, rfl⟩
  · exact .inl ⟨rfl, rfl⟩
  · exact .inr step

theorem consume_exec {t : TenantID} {k : Ceremony.Kind} {h : Ceremony.Digest}
    {r : Except Ceremony.Err Ceremony.Record} (replied : exec o w (.consume t k h) = (r, w')) :
    r = .error .context ∧ w'.ceremonies = w.ceremonies ∨
      w.ceremonies.consume w'.clock t k h = (w'.ceremonies, r) := by
  dsimp only [exec] at replied
  rcases writes_cases replied with ⟨rfl, rfl⟩ | ⟨s, step, rfl⟩
  · exact .inl ⟨rfl, rfl⟩
  · exact .inr step

theorem mfa_keyed_exec (keyed : w.mfa.Keyed) (replied : exec o w c = (r, w')) :
    w'.mfa.Keyed := by
  by_cases touches : c.part = some .mfa
  · cases c with
    | mfa sub c =>
      cases replied
      exact Mfa.keyed_exec keyed c
    | _ => cases touches
  · rw [(frame_exec replied).mfa touches]
    exact keyed

theorem keyed_exec (keyed : w.identity.Keyed) (replied : exec o w c = (r, w')) : w'.identity.Keyed := by
  by_cases applies : c.part = some .identity
  · cases c with
    | apply m =>
      rcases apply_exec replied with ⟨same, -⟩ | ⟨ap, newID, -, -, applied⟩
      · rw [same]
        exact keyed
      · exact Store.keyed_apply keyed applied
    | mfa => cases part_mfa applies
    | _ => cases applies
  · rw [(frame_exec replied).identity applies]
    exact keyed

def bumps (sub : Subject) : Event → Bool
  | ⟨.apply m, .ok _⟩ => (effectsOf m).bumpsEpoch && decide (subjectOf m = sub)
  | _ => false

/-- The epoch of a stored account moves with those events only. -/
theorem epoch_exec (keyed : w.identity.Keyed) (replied : exec o w c = (r, w')) {e : UInt64}
    (current : w.identity.epoch sub = some e) :
    w'.identity.epoch sub = some (e + if bumps sub ⟨c, r⟩ then 1 else 0) := by
  by_cases applies : c.part = some .identity
  · cases c with
    | apply m =>
      rcases apply_exec replied with ⟨same, err, rfl⟩ | ⟨ap, newID, rfl, picks, applied⟩
      · rw [same, current]
        simp [bumps]
      · rw [Store.epoch_apply keyed picks applied current]
        simp [bumps]
    | mfa => cases part_mfa applies
    | _ => cases applies
  · have quiet : bumps sub ⟨c, r⟩ = false := by
      cases c with
      | apply => exact absurd rfl applies
      | _ => rfl
    rw [(frame_exec replied).identity applies, quiet, current]
    simp

end Egauth.Service
