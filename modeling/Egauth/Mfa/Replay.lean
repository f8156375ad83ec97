import Egauth.Mfa.Guess
import Egauth.Mfa.Reading

/-! A TOTP step is accepted once, for the secret that is enrolled.

A verification matches a secret that it read earlier and marks the step on the
row that is there then. As long as no enrollment is saved or removed between
the read and what relies on it, the row holds that secret, its last step only
grows, and a secret that is gone does not come back.
-/

set_option autoImplicit false

namespace Egauth.Mfa
open Egauth.Core Prog

def reliesOnSecret (event : Event) : Bool := (accepts event).isSome || confirming event

section
variable {I : Type} [DecidableEq I] {cfg : Config} {requests : I → Request} {start : Store} {labels : List (I × Event)}
  {y : Store × (I → Program Unit)} {steps : List (Bytes × Int)} {event : Event} {known : List Bytes}
  {v : Option View}

theorem steady_confirming {events : List (I × Event)} (calm : steady reliesOnSecret replaces events = true) :
    steady confirming replaces events = true :=
  steady_mono (fun _ confirmed => by simpa [reliesOnSecret] using Or.inr confirmed) calm

def acceptedSteps (labels : List (I × Event)) : List (Bytes × Int) := labels.filterMap fun label => accepts label.2

def savedSecret (cfg : Config) (event : Event) : Option Bytes := (saves event).bind fun e => cfg.secret e.sealedSecret

def secrets (cfg : Config) (start : Store) (labels : List (I × Event)) : List Bytes :=
  (stored cfg start).toList ++ labels.filterMap fun label => savedSecret cfg label.2

/-- The last step of a row is at least every step that was accepted for its secret. -/
structure Recorded (known : List Bytes) (steps : List (Bytes × Int)) (v : Option View) : Prop where
  current : ∀ w secret, v = some w → w.secret = some secret → secret ∈ known
  old : ∀ secret step, (secret, step) ∈ steps → secret ∈ known
  grown : ∀ w secret step, v = some w → w.secret = some secret → (secret, step) ∈ steps → step ≤ w.lastUsed

/-- An event that saves nothing and accepts nothing, and leaves the secret and the last step or raises it. -/
theorem Recorded.keep {v' : Option View} (recorded : Recorded known steps v)
    (kept : ∀ w', v' = some w' → ∃ w, v = some w ∧ w'.secret = w.secret ∧ w.lastUsed ≤ w'.lastUsed) :
    Recorded known steps v' where
  current w' secret found holds := by
    obtain ⟨w, before, same, -⟩ := kept w' found
    exact recorded.current w secret before (same ▸ holds)
  old := recorded.old
  grown w' secret step found holds member := by
    obtain ⟨w, before, same, later⟩ := kept w' found
    exact le_trans (recorded.grown w secret step before (same ▸ holds) member) later

theorem Recorded.accept {w : View} {secret : Bytes} {step : Int}
    (recorded : Recorded known steps (some w)) (holds : w.secret = some secret) (later : w.lastUsed < step) :
    Recorded known (steps ++ [(secret, step)]) (some { w with lastUsed := step }) where
  current w' other found same := by
    cases found
    exact recorded.current w other rfl same
  old other step' member := by
    rcases List.mem_append.mp member with before | now
    · exact recorded.old other step' before
    · cases List.mem_singleton.mp now
      exact recorded.current w secret rfl holds
  grown w' other step' found same member := by
    cases found
    rcases List.mem_append.mp member with before | now
    · exact (lt_of_le_of_lt (recorded.grown w other step' rfl same before) later).le
    · cases List.mem_singleton.mp now
      exact le_refl _

theorem Recorded.save {w : View} (recorded : Recorded known steps v) (distinct : (known ++ w.secret.toList).Nodup) :
    Recorded (known ++ w.secret.toList) steps (some w) where
  current w' secret found holds := by
    cases found
    simp [holds]
  old secret step member := List.mem_append_left _ (recorded.old secret step member)
  grown w' secret step found holds member := by
    cases found
    -- The secret is new, so no step was accepted for it.
    rw [holds] at distinct
    have fresh := List.disjoint_of_nodup_append distinct (recorded.old secret step member)
    exact absurd (by simp) fresh

omit [DecidableEq I] in
theorem secrets_snoc (label : I × Event) :
    secrets cfg start (labels ++ [label]) = secrets cfg start labels ++ (savedSecret cfg label.2).toList := by
  unfold secrets
  rw [List.filterMap_append, List.append_assoc]
  cases saved : savedSecret cfg label.2 <;> simp [saved]

omit [DecidableEq I] in
theorem acceptedSteps_snoc (label : I × Event) :
    acceptedSteps (labels ++ [label]) = acceptedSteps labels ++ (accepts label.2).toList := by
  unfold acceptedSteps
  rw [List.filterMap_append]
  cases taken : accepts label.2 <;> simp [taken]

/-! An event is of one kind. -/

theorem saves_of_accepts {taken : Bytes × Int} (accepted : accepts event = some taken) : saves event = none := by
  unfold accepts at accepted
  split at accepted
  · rfl
  · cases accepted

theorem accepts_of_saves {e : Enrollment} (saved : saves event = some e) : accepts event = none := by
  unfold saves at saved
  split at saved
  · rfl
  · cases saved

theorem silent_of_confirms {e : Enrollment} (confirmed : confirms event = some e) :
    accepts event = none ∧ saves event = none ∧ removes event = false := by
  unfold confirms at confirmed
  split at confirmed
  · exact ⟨rfl, rfl, rfl⟩
  · cases confirmed

theorem silent_of_removes (removed : removes event = true) : accepts event = none ∧ saves event = none := by
  unfold removes at removed
  split at removed
  · exact ⟨rfl, rfl⟩
  · exact ⟨rfl, rfl⟩
  · exact ⟨rfl, rfl⟩
  · cases removed

theorem Recorded.moves {v' : Option View} (recorded : Recorded known steps v) (moves : Moves cfg v event v')
    (distinct : (known ++ (savedSecret cfg event).toList).Nodup)
    (onAccept : ∀ secret step, accepts event = some (secret, step) → ∃ w, v = some w ∧ w.secret = some secret)
    (onConfirm : ∀ e, confirms event = some e → ∃ w, v = some w ∧ w.secret = cfg.secret e.sealedSecret) :
    Recorded (known ++ (savedSecret cfg event).toList) (steps ++ (accepts event).toList) v' := by
  cases moves with
  | quiet quiet =>
    obtain ⟨notAccepted, notSaved, -⟩ := quiet
    simpa [savedSecret, notAccepted, notSaved] using recorded
  | accepted found taken later =>
    obtain ⟨w, again, holds⟩ := onAccept _ _ taken
    cases found.symm.trans again
    have notSaved : saves event = none := saves_of_accepts taken
    rw [found] at recorded
    simpa [savedSecret, taken, notSaved] using recorded.accept holds later
  | @saved e saved =>
    have fresh : savedSecret cfg event = cfg.secret e.sealedSecret := by rw [savedSecret, saved, Option.bind_some]
    rw [fresh] at distinct ⊢
    rw [accepts_of_saves saved, Option.toList_none, List.append_nil]
    exact recorded.save (w := ⟨cfg.subject, cfg.secret e.sealedSecret, false, e.lastUsedStep⟩) distinct
  | @confirmed e confirmed =>
    obtain ⟨w, found, holds⟩ := onConfirm e confirmed
    obtain ⟨notAccepted, notSaved, -⟩ := silent_of_confirms confirmed
    rw [notAccepted, savedSecret, notSaved, Option.bind_none, Option.toList_none, List.append_nil, Option.toList_none,
      List.append_nil]
    refine recorded.keep fun w' same => ?_
    cases same
    refine ⟨w, found, holds.symm, ?_⟩
    rw [found]
    exact le_max_right ..
  | removed removed =>
    obtain ⟨notAccepted, notSaved⟩ := silent_of_removes removed
    have gone : Recorded known steps none := recorded.keep nofun
    simpa [savedSecret, notAccepted, notSaved] using gone

theorem recorded_of_run (named : Named cfg start)
    (run : Run (Interleave (exec cfg)) (start, fun i => (requests i).program cfg) labels y)
    (calm : steady reliesOnSecret replaces labels.reverse = true) (distinct : (secrets cfg start labels).Nodup) :
    Recorded (secrets cfg start labels) (acceptedSteps labels) (viewed cfg y.1) := by
  induction run with
  | nil =>
    refine ⟨fun w secret found holds => ?_, nofun, nofun⟩
    simp [secrets, stored, found, holds]
  | snoc before last ih =>
    rename_i middle after earlier label
    rw [List.reverse_append] at calm
    obtain ⟨calmBefore, relied⟩ := Bool.and_eq_true_iff.mp calm
    rw [secrets_snoc] at distinct ⊢
    rw [acceptedSteps_snoc]
    have recorded := ih calmBefore (List.Nodup.of_append_left distinct)
    have stands := sameSecret_of_run named before (steady_confirming calmBefore)
    obtain ⟨allowed, moves⟩ := step_of_run named before last
    refine recorded.moves moves distinct (fun secret step taken => ?_) fun e confirmed => ?_
    · obtain ⟨⟨p, read, holds⟩, -⟩ := allows_accepts allowed taken
      obtain ⟨w, found, same⟩ := stands label.1 (some p) (by simpa [reliesOnSecret, taken] using relied) read p rfl
      exact ⟨w, found, same.trans holds⟩
    · obtain ⟨-, p, secret, read, -, same, -⟩ := allows_confirms allowed confirmed
      obtain ⟨w, found, holds⟩ := stands label.1 (some p) (by simpa [reliesOnSecret, confirming, confirmed] using relied) read p rfl
      exact ⟨w, found, by rw [holds, same]⟩

theorem Moves.of_accepts {v' : Option View} {secret : Bytes} {step : Int}
    (moves : Moves cfg v event v') (taken : accepts event = some (secret, step)) :
    ∃ w, v = some w ∧ w.lastUsed < step ∧ v' = some { w with lastUsed := step } := by
  cases moves with
  | quiet quiet => cases taken.symm.trans quiet.1
  | accepted found again later =>
    cases taken.symm.trans again
    exact ⟨_, found, later, rfl⟩
  | saved saved => cases taken.symm.trans (accepts_of_saves saved)
  | confirmed confirmed => cases taken.symm.trans (silent_of_confirms confirmed).1
  | removed removed => cases taken.symm.trans (silent_of_removes removed).1

/-- As long as no enrollment is saved or removed between a request's read of it and the step or the confirmation that
relies on the read, and enrollments have different secrets: an accepted code was compared by its request with the
secret that is stored, and matched it at a step above all that were accepted for it. -/
theorem totp_step_accepted_once {I : Type} [DecidableEq I] (cfg : Config) {start : Store} (named : Named cfg start)
    (requests : I → Request) {labels : List (I × Event)} {y z : Store × (I → Program Unit)}
    (run : Run (Interleave (exec cfg)) (start, fun i => (requests i).program cfg) labels y) {i : I} {event : Event}
    (last : Interleave (exec cfg) y (i, event) z) {secret : Bytes} {step : Int}
    (taken : accepts event = some (secret, step))
    (calm : steady reliesOnSecret replaces ((i, event) :: labels.reverse) = true)
    (distinct : (secrets cfg start labels).Nodup) :
    Matched requests labels i secret step ∧ stored cfg z.1 = some secret ∧
      ∀ step', (secret, step') ∈ acceptedSteps labels → step' < step := by
  obtain ⟨calmBefore, relied⟩ := Bool.and_eq_true_iff.mp calm
  have recorded := recorded_of_run named run calmBefore distinct
  obtain ⟨allowed, moves⟩ := step_of_run named run last
  obtain ⟨⟨p, read, opened⟩, hit⟩ := allows_accepts allowed taken
  have stands := sameSecret_of_run named run (steady_confirming calmBefore)
  obtain ⟨w, found, same⟩ := stands i (some p) (by simpa [reliesOnSecret, taken] using relied) read p rfl
  have holds : w.secret = some secret := same.trans opened
  obtain ⟨w', again, later, after⟩ := moves.of_accepts taken
  cases found.symm.trans again
  refine ⟨matched_of_run named run hit, ?_, fun step' member => ?_⟩
  · rw [stored, after]
    exact holds
  · exact lt_of_le_of_lt (recorded.grown w secret step' found holds member) later

end

namespace Sample

def noon : Time := unixEpoch + day 31

/-- Two verifications with one code, a removal of the factor, and an enrollment. -/
def replaying : Nat → Request
  | 0 | 1 => .verify .totp (ascii "123456")
  | 2 => .disable .recovery (ascii "GOOD")
  | _ => .enroll

def drawing (secret : Bytes) (now : Time) : Turn := ⟨now, false, some secret, none, false⟩

/-- The first is accepted; the second has compared its code a minute later. -/
def apart : List (Nat × Turn) :=
  List.replicate 5 (0, turn noon) ++ List.replicate 4 (1, turn (noon + Duration.minute))

/-- Both have compared the code before the first is accepted, the factor is removed and another is enrolled. -/
def crossing : List (Nat × Turn) :=
  List.replicate 4 (1, turn noon) ++ List.replicate 5 (0, turn noon) ++ List.replicate 9 (2, turn noon) ++
    List.replicate 5 (3, drawing (ascii "654321") noon)

def replayed (turns : List (Nat × Turn)) : List (Nat × Event) × Store × (Nat → Program Unit) :=
  schedule (exec config) (start, fun i => (replaying i).program config) turns

def again (turns : List (Nat × Turn)) : Option ((Nat × Event) × Store × (Nat → Program Unit)) :=
  Prog.turn (exec config) (replayed turns).2 1 (turn noon)

def pending : Store where
  totp := AList.insert .sample ⟨.sample, ascii "123456", aadVersionCurrent, none, 0, 0, 0, day 30⟩ ∅
  codes := ∅
  recovery := ∅

theorem pending_named : Named config pending := by
  intro v found
  cases found
  rfl

/-- Two confirmations of one secret, an enrollment, and a verification. -/
def reviving : Nat → Request
  | 0 | 1 => .confirm (ascii "123456")
  | 2 => .enroll
  | _ => .verify .totp (ascii "123456")

def supplied (now : Time) : Turn := ⟨now, false, some (ascii "654321"), some [ascii "GOOD"], false⟩

/-- The enrollment has read the row before a step is accepted and saves after the second. The first confirmation then
writes back its secret, with its own step. -/
def revived : List (Nat × Event) × Store × (Nat → Program Unit) :=
  schedule (exec config) (pending, fun i => (reviving i).program config)
    (List.replicate 4 (2, supplied noon) ++ List.replicate 9 (0, supplied noon) ++
      List.replicate 6 (1, supplied (noon + Duration.minute)) ++ [(2, supplied noon), (0, supplied noon)] ++
        List.replicate 4 (3, turn (noon + Duration.minute)))

end Sample

open Sample

/-- Two codes of one secret, a minute apart. -/
theorem totp_step_accepted_once_apart : ∃ labels y z i event step,
    Run (Interleave (exec config)) (start, fun i => (replaying i).program config) labels y ∧
      Interleave (exec config) y (i, event) z ∧ accepts event = some (ascii "123456", step) ∧
      (∃ step', (ascii "123456", step') ∈ acceptedSteps labels) ∧
      steady reliesOnSecret replaces ((i, event) :: labels.reverse) = true ∧
      (secrets config start labels).Nodup ∧
      Matched replaying labels i (ascii "123456") step ∧ stored config z.1 = some (ascii "123456") ∧
      ∀ step', (ascii "123456", step') ∈ acceptedSteps labels → step' < step := by
  have run := run_schedule (exec config) (start, fun i => (replaying i).program config) apart
  have checked : (again apart).any (fun taken => decide (
      accepts taken.1.2 = some (ascii "123456", 89281) ∧
      steady reliesOnSecret replaces (taken.1 :: (replayed apart).1.reverse) = true)) = true := by
    decide +kernel
  obtain ⟨⟨⟨i, event⟩, z⟩, taken, good⟩ := (Option.any_eq_true _ _).mp checked
  obtain ⟨accepted, calm⟩ := of_decide_eq_true good
  have last := interleave_of_turn taken
  have distinct : (secrets config start (replayed apart).1).Nodup := by decide +kernel
  exact ⟨_, _, z, i, event, 89281, run, last, accepted, ⟨89279, by decide +kernel⟩, calm, distinct,
    totp_step_accepted_once config start_named replaying run last accepted calm distinct⟩

/-- A verification read the enrollment before it was removed and another saved: its code was accepted already, and
the stored secret is another. And a confirmation brings back a secret whose row was replaced since it was read, without
the step that was accepted for it last. -/
theorem totp_step_accepted_twice :
    (∃ labels y z i event step,
      Run (Interleave (exec config)) (start, fun i => (replaying i).program config) labels y ∧
      Interleave (exec config) y (i, event) z ∧ (secrets config start labels).Nodup ∧
      accepts event = some (ascii "123456", step) ∧ (ascii "123456", step) ∈ acceptedSteps labels ∧
      stored config z.1 = some (ascii "654321")) ∧
    ∃ labels y z i event step,
      Run (Interleave (exec config)) (pending, fun i => (reviving i).program config) labels y ∧
      Interleave (exec config) y (i, event) z ∧ (secrets config pending labels).Nodup ∧
      steady (fun event => (accepts event).isSome) replaces ((i, event) :: labels.reverse) = true ∧
      accepts event = some (ascii "123456", step) ∧ (ascii "123456", step) ∈ acceptedSteps labels := by
  constructor
  · have run := run_schedule (exec config) (start, fun i => (replaying i).program config) crossing
    have checked : (again crossing).any (fun taken => decide (
        accepts taken.1.2 = some (ascii "123456", 89279) ∧
        stored config taken.2.1 = some (ascii "654321"))) = true := by
      decide +kernel
    obtain ⟨⟨⟨i, event⟩, z⟩, taken, good⟩ := (Option.any_eq_true _ _).mp checked
    obtain ⟨accepted, other⟩ := of_decide_eq_true good
    have distinct : (secrets config start (replayed crossing).1).Nodup := by decide +kernel
    exact ⟨_, _, z, i, event, 89279, run, interleave_of_turn taken, distinct, accepted, by decide +kernel, other⟩
  · have checked : (Prog.turn (exec config) revived.2 3 (turn (noon + Duration.minute))).any (fun taken => decide (
        accepts taken.1.2 = some (ascii "123456", 89281) ∧
        steady (fun event => (accepts event).isSome) replaces (taken.1 :: revived.1.reverse) = true)) = true := by
      decide +kernel
    obtain ⟨⟨⟨i, event⟩, z⟩, taken, good⟩ := (Option.any_eq_true _ _).mp checked
    obtain ⟨accepted, calm⟩ := of_decide_eq_true good
    have distinct : (secrets config pending revived.1).Nodup := by decide +kernel
    exact ⟨_, _, z, i, event, 89281, run_schedule _ _ _, interleave_of_turn taken, distinct, calm, accepted,
      by decide +kernel⟩

end Egauth.Mfa
