import Egauth.Codes.Redeem
import Egauth.Service.Bound

/-! An emailed link or a registration acts at most once.

Whatever requests race for the record of a handle, one of them takes it out of
the store, and a request writes elsewhere only after it has taken it.
-/

set_option autoImplicit false

namespace Egauth.Service
open Egauth.Core Prog

/-- The record that a request presents the handle of. -/
def Request.presented : Request → Option Ceremony.Key
  | .resetPassword t handle => handle.map (⟨t, .passwordReset, ·⟩)
  | .verifyEmail t handle => handle.map (⟨t, .emailVerification, ·⟩)
  | .confirmEmailChange t handle => handle.map (⟨t, .emailChange, ·⟩)
  | .confirmRecoveryEmail t handle => handle.map (⟨t, .recoveryEmail, ·⟩)
  | .registerFinish a handle _ => handle.map (⟨a.subject.tenant, .passkeyRegistration, ·⟩)
  | _ => none

def takes (kk : Ceremony.Key) : Event → Bool
  | ⟨.consume t k h, r⟩ => Codes.takes kk ⟨.consume t k h, r⟩
  | _ => false

def present (kk : Ceremony.Key) (w : World) : Nat := if (w.ceremonies.rows.lookup kk).isSome then 1 else 0

def renews (kk : Ceremony.Key) : Call → Bool
  | .put rec => rec.row.key = kk
  | _ => false

/-- The call writes outside the ceremony store. -/
def acts (c : Call) : Bool := c.part.any (· ≠ .ceremonies)

/-- The note says whether the record was taken; nothing else is written before. -/
def spending (kk : Ceremony.Key) : Discipline Call Reply Bool where
  track g c r := g || takes kk ⟨c, r⟩
  learns _ _ _ := True
  allows g c := acts c → g = true

section
variable {kk : Ceremony.Key} {o : Turn} {w w' : World} {c : Call} {r : Reply c}

theorem takes_exec (replied : exec o w c = (r, w')) (spares : renews kk c = false) :
    (if takes kk ⟨c, r⟩ then 1 else 0) + present kk w' ≤ present kk w := by
  have of_rows (quiet : takes kk ⟨c, r⟩ = false) (rows : w'.ceremonies.rows.lookup kk = w.ceremonies.rows.lookup kk ∨
      w'.ceremonies.rows.lookup kk = none) : (if takes kk ⟨c, r⟩ then 1 else 0) + present kk w' ≤ present kk w := by
    rcases rows with kept | gone
    · simp [quiet, present, kept]
    · simp [quiet, present, gone]
  by_cases touches : c.part = some .ceremonies
  · cases c with
    | consume t k h =>
      rcases consume_exec replied with ⟨rfl, same⟩ | done
      · exact of_rows rfl (.inl (by rw [same]))
      · have treats : Codes.Treats kk w.ceremonies _ _ := Codes.treats_consume w'.clock t k h
        rw [done] at treats
        exact treats.present
    | put rec =>
      rcases put_exec replied with ⟨-, same⟩ | done
      · exact of_rows rfl (.inl (by rw [same]))
      · have rows := Codes.rows_put_other (s := w.ceremonies) (of_decide_eq_false spares) w'.clock
        rw [done] at rows
        exact of_rows rfl rows
    | recordFailure t k h =>
      dsimp only [exec, writes] at replied
      split at replied
      · cases replied
        exact of_rows rfl (.inl rfl)
      · cases replied
        exact (Nat.add_le_add_right (Nat.zero_le _) _).trans (Codes.treats_recordFailure (w.tick o).clock t k h).present
    | mfa => cases part_mfa touches
    | _ => cases touches
  · refine of_rows ?_ (.inl (by rw [(frame_exec replied).ceremonies touches]))
    cases c <;> first | rfl | exact absurd rfl touches

end

section
variable {A : Type} {kk : Ceremony.Key} {g : Bool} {t : TenantID} {k : Ceremony.Kind} {h : Ceremony.Digest}

theorem yields_spent (p : Program A) : Yields (spending kk) true p fun g _ => g = true := by
  induction p with
  | ret a => exact yields_ret.mpr rfl
  | fail err => exact yields_fail
  | call c next ih => exact ⟨fun _ => rfl, fun r _ => ih r⟩

theorem Yields.spent {B : Type} {p : Program B} {f : B → Program A}
    (first : Yields (spending kk) g p fun g _ => g = true) : Yields (spending kk) g (p >>= f) fun g _ => g = true := by
  refine first.bind fun g _ spent => ?_
  subst spent
  exact yields_spent _

theorem yields_take {wrap : Ceremony.Err → Problem} {f : Ceremony.Record → Program A} :
    Yields (spending ⟨t, k, h⟩) g (ask (.consume t k h) >>= fun r => value wrap r >>= f) fun g _ => g = true := by
  refine yields_perform.mpr ⟨nofun, fun r _ => yields_value fun rec taken => ?_⟩
  subst taken
  have spent : (spending ⟨t, k, h⟩).track g (.consume t k h) (.ok rec) = true := by simp [spending, takes, Codes.takes]
  rw [spent]
  exact yields_spent _

theorem yields_consumed : Yields (spending ⟨t, k, h⟩) g (consumeBound t k (some h)) fun g _ => g = true := by
  refine yields_required fun hash same => yields_perform.mpr ⟨nofun, fun _ _ => yields_value fun _ _ => ?_⟩
  cases same
  exact yields_value fun _ _ => yields_take

theorem yields_presented (cfg : Config) {request : Request} (presents : request.presented = some kk) :
    Yields (spending kk) g (request.program cfg) fun g _ => g = true := by
  cases request with
  | resetPassword t handle =>
    obtain ⟨h, rfl, rfl⟩ := Option.map_eq_some_iff.mp presents
    refine yields_required fun hash same => yields_perform.mpr ⟨nofun, fun _ _ => yields_value fun _ _ => ?_⟩
    cases same
    exact yields_value fun _ _ => yields_perform.mpr ⟨nofun, fun _ _ => yields_required fun _ _ => yields_take⟩
  | verifyEmail t handle | confirmEmailChange t handle | confirmRecoveryEmail t handle =>
    obtain ⟨h, rfl, rfl⟩ := Option.map_eq_some_iff.mp presents
    exact Yields.spent yields_consumed
  | registerFinish a handle nickname =>
    obtain ⟨h, rfl, rfl⟩ := Option.map_eq_some_iff.mp presents
    refine Yields.spent (Yields.spent (yields_required fun hash same => ?_))
    cases same
    exact yields_take
  | _ => cases presents

theorem takes_of_permitted {events : List Event} (permitted : Permitted (spending kk) g events)
    (acted : ∃ event ∈ events, acts event.1) : g = true ∨ 0 < events.countP (takes kk) := by
  induction events generalizing g with
  | nil => simp at acted
  | cons event events ih =>
    obtain ⟨allowed, later⟩ := permitted
    obtain ⟨acting, member, writes⟩ := acted
    rcases List.mem_cons.mp member with rfl | rest
    · exact .inl (allowed writes)
    · rcases ih later ⟨acting, rest, writes⟩ with told | some'
      · rcases Bool.or_eq_true_iff.mp told with before | now
        · exact .inl before
        · exact .inr (List.countP_pos_iff.mpr ⟨event, List.mem_cons_self, now⟩)
      · exact .inr (some'.trans_le ((List.sublist_cons_self event events).countP_le))

end

section
variable {I : Type} [DecidableEq I] {labels : List (I × Event)} {x y : World × (I → Program Unit)} {kk : Ceremony.Key}

theorem takes_le_present (run : Run (Interleave exec) x labels y)
    (unrenewed : ∀ label ∈ labels, renews kk label.2.1 = false) :
    (labels.countP fun label => takes kk label.2) + present kk y.1 ≤ present kk x.1 := by
  induction run with
  | nil => simp
  | @snoc mid _ _ label _ last ih =>
    obtain ⟨o, -, -, replied, -⟩ := last
    have before := ih fun label member => unrenewed label (List.mem_append_left _ member)
    have now : (if takes kk label.2 then 1 else 0) + _ ≤ _ := takes_exec replied (unrenewed label (by simp))
    rw [List.countP_append, List.countP_singleton]
    omega

/-- In every interleaving of the requests, of those that present one handle at most one writes anything but
ceremonies, as long as no other record is put under the handle. -/
theorem link_acts_once (cfg : Config) (requests : I → Request) (w : World)
    (run : Run (Interleave exec) (w, fun i => (requests i).program cfg) labels y)
    (unrenewed : ∀ label ∈ labels, renews kk label.2.1 = false) {i j : I} (apart : i ≠ j)
    (mine : (requests i).presented = some kk) (other : (requests j).presented = some kk) :
    (∀ event ∈ own i labels, ¬ acts event.1) ∨ ∀ event ∈ own j labels, ¬ acts event.1 := by
  have taken (i : I) (presents : (requests i).presented = some kk) (acted : ∃ event ∈ own i labels, acts event.1) :
      0 < (own i labels).countP (takes kk) := by
    have learned := (learned_of_run (d := spending kk) (fun _ => True) run trivial (fun _ _ _ _ => trivial)
      (fun _ _ _ _ _ => trivial) false i).2
    have permitted := (yields_presented cfg presents).permitted (path_of_run run i) learned
    exact (takes_of_permitted permitted acted).resolve_left nofun
  by_contra both
  push Not at both
  have first := taken i mine both.1
  have second := taken j other both.2
  have two : _ ≤ labels.countP fun label => takes kk label.2 := countP_own_add_le (takes kk) labels apart
  have bound : _ + _ ≤ present kk w := takes_le_present run unrenewed
  have one : present kk w ≤ 1 := by
    unfold present
    split <;> omega
  omega

end

/-- Two requests read the record of one link; the second one finds it taken. -/
theorem link_acts_once_race : ∃ labels y,
    Run (Interleave exec) (Sample.world, fun _ : Bool => (Sample.resetRequests false).program Sample.config) labels y ∧
      (∃ event ∈ own false labels, acts event.1) ∧ ∀ event ∈ own true labels, ¬ acts event.1 := by
  have run := run_schedule exec
    (Sample.world, fun _ : Bool => (Sample.resetRequests false).program Sample.config)
    (Sample.resetTurns true 1 ++ Sample.resetTurns false 4 ++ Sample.resetTurns true 2 ++ Sample.resetTurns false 1)
  refine ⟨_, _, run, by decide +kernel, ?_⟩
  refine Or.resolve_left (link_acts_once Sample.config (fun _ => Sample.resetRequests false) Sample.world run
    (?_ : ∀ label : Bool × Event, label ∈ _ → renews (Sample.resetRow 0).key label.2.1 = false)
    Bool.false_ne_true rfl rfl) ?_
  · decide +kernel
  · decide +kernel

end Egauth.Service
