import Egauth.Ceremony.Handle
import Egauth.Ceremony.Index
import Egauth.Semantics.Discipline

/-! A stateless handle is used at most once, while its mark lasts.

A request opens the handle and then marks it consumed; the store keeps the mark
until the expiry, cut to the microsecond. The clock never goes back. Between
the two steps of a request anything may happen, so a request that opened the
handle in time may mark it when the mark of another has ended.
-/

set_option autoImplicit false

namespace Egauth.Ceremony
open Egauth.Core Prog

namespace Store

theorem consumed_remove (s : Store) (k : Key) : (s.remove k).consumed = s.consumed := by
  unfold remove
  split <;> rfl

theorem consumed_removeWhere (s : Store) (drop : Key → Entry → Bool) :
    (s.removeWhere drop).1.consumed = s.consumed := by
  unfold removeWhere
  generalize s.rows.entries.filter (fun c => drop c.1 c.2) = doomed
  induction doomed generalizing s with
  | nil => rfl
  | cons first doomed ih => exact (ih (s.remove first.1)).trans (consumed_remove s first.1)

theorem consumed_reapExpired {s : Store} {kk : Key} {ends clk : Time} (held : s.consumed.lookup kk = some ends)
    (lasts : clk < ends) : (s.reapExpired clk).1.consumed.lookup kk = some ends := by
  unfold reapExpired
  dsimp only
  rw [Map.lookup_foldl_erase_entries, consumed_removeWhere, if_neg, held]
  intro doomed
  obtain ⟨⟨k, other⟩, member, rfl⟩ := List.mem_map.mp doomed
  obtain ⟨entry, ended⟩ := List.mem_filter.mp member
  cases held.symm.trans (Map.mem_entries.mp entry)
  exact of_decide_eq_true ended lasts

/-- A call of `MarkConsumed` changes nothing, or it is the first and writes the mark over one that has ended. -/
theorem markConsumed_cases (s : Store) (clk : Time) (t : TenantID) (k : Kind) (h : Digest) (ends : Time) :
    ((s.markConsumed clk t k h ends).1 = s ∧ (s.markConsumed clk t k h ends).2 ≠ .ok true) ∨
      ((s.markConsumed clk t k h ends).1 = { s with consumed := s.consumed.insert ⟨t, k, h⟩ ends.truncate } ∧
        ∀ prev, s.consumed.lookup ⟨t, k, h⟩ = some prev → prev ≤ clk) := by
  unfold markConsumed
  split
  · exact .inl ⟨rfl, nofun⟩
  split
  · exact .inl ⟨rfl, nofun⟩
  next looked =>
    unfold lookupKey at looked
    rw [ite_error_eq_ok] at looked
    cases looked.2
    split
    next prev found =>
      split
      · exact .inl ⟨rfl, nofun⟩
      next ended =>
        refine .inr ⟨rfl, fun other same => ?_⟩
        cases found.symm.trans same
        exact not_lt.mp ended
    next absent =>
      refine .inr ⟨rfl, fun other same => ?_⟩
      cases absent.symm.trans same

end Store

namespace Once

inductive Call where
  | now
  | mark (t : TenantID) (k : Kind) (h : Digest) (ends : Time)
  | reapExpired

abbrev Reply : Call → Type
  | .now => Time
  | .mark .. => Except Err Bool
  | .reapExpired => Except Err Nat

inductive Problem where
  | handle (err : HandleErr)
  | store (err : Err)

abbrev Program (A : Type) := Prog Call Reply Problem A

abbrev ask (c : Call) : Program (Reply c) := Prog.perform c

structure World where
  store : Store
  clock : Time

/-- How long it is until the call reads the clock, and whether it fails without effect. -/
structure Turn where
  wait : Nat
  fault : Bool

def exec (o : Turn) (w : World) : (c : Call) → Reply c × World
  | .now => (w.clock + o.wait, { w with clock := w.clock + o.wait })
  | .mark t k h ends =>
    let clk := w.clock + o.wait
    if o.fault then (.error .context, ⟨w.store, clk⟩)
    else ((w.store.markConsumed clk t k h ends).2, ⟨(w.store.markConsumed clk t k h ends).1, clk⟩)
  | .reapExpired =>
    let clk := w.clock + o.wait
    if o.fault then (.error .context, ⟨w.store, clk⟩)
    else (.ok (w.store.reapExpired clk).2, ⟨(w.store.reapExpired clk).1, clk⟩)

/-- A request that presents a handle, or a call of the store that runs beside. -/
inductive Request where
  | present (t : TenantID) (handle : Bytes)
  | other (c : Call)

def Request.program {P : Type} (c : Codec P) (s : Sealer) : Request → Program (Option (Opened P × Bool))
  | .present t handle => do
    let now ← ask .now
    let o ← Prog.ofExcept .handle (c.openHandle s t handle now)
    let first ← Prog.ofExcept .store (← ask (.mark t c.kind o.handleHash o.expiresAt))
    pure (some (o, first))
  | .other upkeep => do
    let _ ← ask upkeep
    pure none

abbrev Event := (c : Call) × Reply c

section
variable (kk : Key)

def marks : Event → Bool
  | ⟨.mark t k h _, _⟩ => decide (Key.mk t k h = kk)
  | _ => false

def grants : Event → Bool
  | ⟨.mark t k h _, .ok true⟩ => decide (Key.mk t k h = kk)
  | _ => false

/-- Whoever marks the handle does so until its expiry. -/
def Agrees (ends : Time) : Call → Prop
  | .mark t k h until' => Key.mk t k h = kk → until' = ends
  | _ => True

/-- A call of a run in which the handle is marked before the mark of it would end. -/
def Timely {I A : Type} [DecidableEq I] (ends : Time) (x : World × (I → Program A)) (label : I × Event)
    (y : World × (I → Program A)) : Prop :=
  Interleave exec x label y ∧ (marks kk label.2 = true → y.1.clock < ends.truncate)

/-- After a first mark the handle stays marked until the mark ends. -/
def Held (ends : Time) (w : World) : Prop := w.store.consumed.lookup kk = some ends.truncate ∨ ends.truncate ≤ w.clock

end

section
variable {kk : Key} {ends : Time}

theorem grants_mark {t : TenantID} {k : Kind} {h : Digest} {until' : Time} {r : Except Err Bool} :
    grants kk ⟨.mark t k h until', r⟩ = true ↔ r = .ok true ∧ Key.mk t k h = kk := by
  rcases r with err | _ | _ <;> simp [grants]

theorem clock_exec (o : Turn) (w : World) (c : Call) : (exec o w c).2.clock = w.clock + o.wait := by
  cases c <;> unfold exec <;> dsimp only <;> split <;> rfl

theorem held_exec (o : Turn) {w : World} {c : Call} (held : Held kk ends w)
    (timely : marks kk ⟨c, (exec o w c).1⟩ = true → (exec o w c).2.clock < ends.truncate) :
    Held kk ends (exec o w c).2 ∧ grants kk ⟨c, (exec o w c).1⟩ = false := by
  rw [clock_exec] at timely
  by_cases over' : ends.truncate ≤ w.clock + o.wait
  · -- Once the mark has ended, nobody may mark the handle.
    refine ⟨.inr (by rwa [clock_exec]), Bool.eq_false_iff.mpr fun granted => ?_⟩
    cases c with
    | mark t k h until' => exact absurd (timely (decide_eq_true (grants_mark.mp granted).2)) (not_lt.mpr over')
    | _ => cases granted
  have marked := held.resolve_right fun ended => over' (by lia)
  have lasts := not_le.mp over'
  cases c with
  | now => exact ⟨.inl marked, rfl⟩
  | reapExpired =>
    unfold exec
    dsimp only
    split
    · exact ⟨.inl marked, rfl⟩
    · exact ⟨.inl (Store.consumed_reapExpired marked lasts), rfl⟩
  | mark t k h until' =>
    unfold exec
    dsimp only
    split
    · exact ⟨.inl marked, rfl⟩
    rcases w.store.markConsumed_cases (w.clock + o.wait) t k h until' with ⟨same, refused⟩ | ⟨written, ended⟩
    · refine ⟨.inl (by rw [same, marked]), Bool.eq_false_iff.mpr fun granted => ?_⟩
      exact refused (grants_mark.mp granted).1
    · have other : Key.mk t k h ≠ kk := by
        rintro rfl
        exact absurd (ended _ marked) (not_le.mpr lasts)
      refine ⟨.inl ?_, Bool.eq_false_iff.mpr fun granted => other (grants_mark.mp granted).2⟩
      rw [written]
      change (w.store.consumed.insert _ _).lookup kk = _
      rw [Map.lookup_insert_eq, if_neg (Ne.symm other), marked]

theorem held_of_grants (o : Turn) {w : World} {c : Call} (agrees : Agrees kk ends c)
    (granted : grants kk ⟨c, (exec o w c).1⟩ = true) : Held kk ends (exec o w c).2 := by
  cases c with
  | mark t k h until' =>
    obtain ⟨first, rfl⟩ := grants_mark.mp granted
    cases agrees rfl
    unfold exec at first ⊢
    dsimp only at first ⊢
    split at first
    · cases first
    next fine =>
    rw [if_neg fine]
    rcases w.store.markConsumed_cases (w.clock + o.wait) t k h ends with ⟨-, refused⟩ | ⟨written, -⟩
    · exact absurd first refused
    · refine .inl ?_
      rw [written]
      change (w.store.consumed.insert _ _).lookup _ = _
      rw [Map.lookup_insert_eq, if_pos rfl]
  | _ => cases granted

theorem granted_once {I A : Type} [DecidableEq I] {x y : World × (I → Program A)} {labels : List (I × Event)}
    (run : Run (Timely kk ends) x labels y) (agrees : ∀ label ∈ labels, Agrees kk ends label.2.1) :
    (labels.countP fun label => grants kk label.2) ≤ 1 ∧
      (0 < labels.countP (fun label => grants kk label.2) → Held kk ends y.1) := by
  induction run with
  | nil => exact ⟨Nat.zero_le _, fun none => absurd none (Nat.lt_irrefl 0)⟩
  | snoc _ last ih =>
    rename_i middle after earlier label _
    obtain ⟨few, held⟩ := ih fun label member => agrees label (List.mem_append_left _ member)
    obtain ⟨⟨o, -, -, replied, -⟩, timely⟩ := last
    obtain ⟨i, c, r⟩ := label
    have reply : (exec o middle.1 c).1 = r := congrArg Prod.fst replied
    have world : (exec o middle.1 c).2 = after.1 := congrArg Prod.snd replied
    rw [List.countP_append, List.countP_singleton]
    by_cases before : 0 < earlier.countP fun label => grants kk label.2
    · have step := held_exec o (held before) (c := c) (by rw [reply, world]; exact timely)
      rw [reply, world] at step
      simp only [step.2, Bool.false_eq_true, if_false, Nat.add_zero]
      exact ⟨few, fun _ => step.1⟩
    · have none : earlier.countP (fun label => grants kk label.2) = 0 := by omega
      rw [none]
      by_cases granted : grants kk ⟨c, r⟩ = true
      · have now : Held kk ends (exec o middle.1 c).2 :=
          held_of_grants o (agrees (i, ⟨c, r⟩) (by simp)) (by rw [reply]; exact granted)
        rw [world] at now
        exact ⟨by simp [granted], fun _ => now⟩
      · simp [granted]

/-- A run that ends before the mark would is one in which the handle is marked in time. -/
theorem timely_of_run {I A : Type} [DecidableEq I] {x y : World × (I → Program A)} {labels : List (I × Event)}
    (run : Run (Interleave exec) x labels y) (early : y.1.clock < ends.truncate) :
    Run (Timely kk ends) x labels y := by
  induction run with
  | nil => exact .nil
  | snoc _ last ih =>
    obtain ⟨o, -, -, replied, -⟩ := id last
    rename_i middle after _ label _
    have world : (exec o middle.1 label.2.1).2 = after.1 := congrArg Prod.snd replied
    have later := clock_exec o middle.1 label.2.1
    rw [world] at later
    exact (ih (by lia)).snoc ⟨last, fun _ => early⟩

def presents (kk : Key) (ends : Time) : Discipline Call Reply Bool where
  track g c r := g || grants kk ⟨c, r⟩
  learns _ _ _ := True
  allows _ c := Agrees kk ends c

theorem granted_of_follow {events : List Event} {g : Bool} (granted : follow (presents kk ends) g events = true) :
    g = true ∨ 0 < events.countP (grants kk) := by
  induction events generalizing g with
  | nil => exact .inl granted
  | cons event events ih =>
    rw [List.countP_cons]
    rcases ih granted with before | later
    · rcases Bool.or_eq_true_iff.mp before with before | now
      · exact .inl before
      · have here : grants kk event = true := now
        exact .inr (by simp [here])
    · exact .inr (by omega)

end

section
variable {P : Type} (c : Codec P) (s : Sealer)

/-- The request presents a spelling of these bytes, or leaves the marks of the handle alone. -/
def Request.Presents (kk : Key) (raw : Bytes) : Request → Prop
  | .present _ handle => s.decodeText handle = some raw
  | .other (.mark t k h _) => Key.mk t k h ≠ kk
  | .other _ => True

theorem yields_program {nonce : Nonce} {sealedAt : Time} {p : Pending} {payload : P} {issued : Issued}
    (stored : c.sealHandle s nonce sealedAt p payload = .ok issued) {raw : Bytes}
    (bytes : s.decodeText issued.handle = some raw) {request : Request}
    (presents' : request.Presents s ⟨p.tenant, c.kind, .handle raw⟩ raw) :
    Yields (presents ⟨p.tenant, c.kind, .handle raw⟩ issued.sealedExpiry) false (request.program c s)
      fun g result => ∀ o, result = some (o, true) → g = true := by
  cases request with
  | present t handle =>
    refine yields_perform.mpr ⟨trivial, fun now _ => yields_ofExcept fun o opened => ?_⟩
    obtain ⟨rfl, ends, hash, -⟩ := Codec.openHandle_of_sealHandle stored bytes presents' opened
    refine yields_perform.mpr ⟨fun _ => ends, fun reply _ => yields_ofExcept fun first replied => ?_⟩
    subst replied
    refine yields_ret.mpr fun o' same => ?_
    cases same
    simp [presents, grants, hash]
  | other call =>
    refine yields_perform.mpr ⟨?_, fun _ _ => yields_ret.mpr (by simp)⟩
    cases call with
    | mark t k h until' => exact fun same => absurd same presents'
    | _ => trivial

end

/-- However the requests interleave, one of them at most is told that it is the first, as long as none marks the
handle when the mark of it would have ended. -/
theorem stateless_handle_once {P I : Type} [DecidableEq I] (c : Codec P) (s : Sealer) {nonce : Nonce} {sealedAt : Time}
    {p : Pending} {payload : P} {issued : Issued} (stored : c.sealHandle s nonce sealedAt p payload = .ok issued)
    {raw : Bytes} (bytes : s.decodeText issued.handle = some raw) (requests : I → Request)
    (present : ∀ i, (requests i).Presents s ⟨p.tenant, c.kind, .handle raw⟩ raw) (start : World)
    {labels : List (I × Event)} {y : World × (I → Program (Option (Opened P × Bool)))}
    (run : Run (Timely ⟨p.tenant, c.kind, .handle raw⟩ issued.sealedExpiry)
      (start, fun i => (requests i).program c s) labels y) {i j : I} {o o' : Opened P}
    (first : y.2 i = .ret (some (o, true))) (second : y.2 j = .ret (some (o', true))) : i = j := by
  by_contra apart
  have plain := run.mono fun _ _ _ step => step.1
  have yields (i : I) := yields_program c s stored bytes (present i)
  have learned (i : I) :
      Learned (presents ⟨p.tenant, c.kind, .handle raw⟩ issued.sealedExpiry) false (own i labels) :=
    (learned_of_run (fun _ => True) plain trivial (fun _ _ _ _ => trivial) (fun _ _ _ _ _ => trivial) false i).2
  have agrees (label : I × Event) (member : label ∈ labels) :
      Agrees ⟨p.tenant, c.kind, .handle raw⟩ issued.sealedExpiry label.2.1 := by
    obtain ⟨_, allowed⟩ := allowed_of_run plain yields learned label member
    exact allowed
  have granted {i : I} {o : Opened P} (returned : y.2 i = .ret (some (o, true))) :
      0 < (own i labels).countP (grants ⟨p.tenant, c.kind, .handle raw⟩) := by
    have ended := (yields i).follow (path_of_run plain i) (learned i)
    rw [returned] at ended
    exact (granted_of_follow (yields_ret.mp ended o rfl)).resolve_left nofun
  have few : (labels.countP fun label => grants ⟨p.tenant, c.kind, .handle raw⟩ label.2) ≤ 1 :=
    (granted_once run agrees).1
  have both := le_trans (countP_own_add_le (grants ⟨p.tenant, c.kind, .handle raw⟩) labels apart) few
  have one := granted first
  have other := granted second
  omega

namespace Sample

def codec : Codec Unit := ⟨.oauthState, fun _ => true, fun _ => [], fun _ => some ()⟩

def sealer : Sealer where
  encodeText := id
  decodeText := some
  sealBox _ pt := List.replicate overhead 0 ++ pt
  openBox _ b := some (b.drop overhead)
  text _ := rfl
  nonempty _ filled := filled
  box _ pt := by rw [List.drop_left' (by rw [List.length_replicate])]
  longer _ pt := by rw [List.length_append, List.length_replicate, Nat.add_comm]

def nonce : Nonce := ⟨List.replicate nonceSize 7, List.length_replicate⟩

def pending : Pending :=
  { Pending.zero with version := codecVersion, transport := some .cookies, expiresAt := unixEpoch + pendingTTL }

def handle : Bytes := (codec.sealHandle sealer nonce unixEpoch pending ()).toOption.elim [] Issued.handle

theorem sealed_handle : ∃ issued, codec.sealHandle sealer nonce unixEpoch pending () = .ok issued ∧
    issued.handle = handle ∧ issued.sealedExpiry.truncate = unixEpoch + 9 * Duration.minute := by
  have sealed' : (codec.sealHandle sealer nonce unixEpoch pending ()).toOption.isSome = true := by decide +kernel
  cases outcome : codec.sealHandle sealer nonce unixEpoch pending () with
  | error err =>
    rw [outcome] at sealed'
    cases sealed'
  | ok issued =>
    obtain ⟨-, -, expiry, -⟩ := Codec.sealHandle_ok outcome
    refine ⟨issued, rfl, by rw [handle, outcome]; rfl, ?_⟩
    unfold Issued.sealedExpiry
    rw [expiry]
    decide +kernel

def start : World × (Bool → Program (Option (Opened Unit × Bool))) :=
  (⟨.new, unixEpoch⟩, fun _ => Request.program codec sealer (.present .zero handle))

def turns (wait : Nat) : List (Bool × Turn) :=
  [(false, ⟨1, false⟩), (true, ⟨1, false⟩), (false, ⟨1, false⟩), (true, ⟨wait, false⟩)]

def answers (wait : Nat) (second : Bool) : Option Bool :=
  ((Prog.schedule exec start (turns wait)).2.2 second).returned.bind fun result => result.map Prod.snd

end Sample

open Ceremony.Once.Sample

/-- While the mark of the first lasts, the second request is refused. -/
theorem stateless_handle_once_in_time : ∃ issued labels y,
    codec.sealHandle sealer nonce unixEpoch pending () = .ok issued ∧
      Run (Interleave exec) start labels y ∧ (∃ o, y.2 false = .ret (some (o, true))) ∧
      ∀ o, y.2 true ≠ .ret (some (o, true)) := by
  have run := run_schedule exec start (turns 1)
  obtain ⟨issued, stored, text, ends⟩ := sealed_handle
  have answered : answers 1 false = some true := by decide +kernel
  obtain ⟨result, returned, first⟩ := Option.bind_eq_some_iff.mp answered
  obtain ⟨⟨o, _⟩, rfl, rfl⟩ := Option.map_eq_some_iff.mp first
  have won := eq_ret_of_returned returned
  refine ⟨issued, _, _, stored, run, ⟨o, won⟩, fun o' again => ?_⟩
  have bytes : sealer.decodeText issued.handle = some issued.handle := rfl
  have present (_ : Bool) : (Request.present .zero handle).Presents sealer
      ⟨pending.tenant, codec.kind, .handle issued.handle⟩ issued.handle := by
    rw [text]
    rfl
  have timely : Run (Timely ⟨pending.tenant, codec.kind, .handle issued.handle⟩ issued.sealedExpiry) _ _ _ :=
    timely_of_run run (by rw [ends]; decide +kernel)
  cases stateless_handle_once codec sealer stored bytes _ present _ timely won again

/-- The second request opened the handle in time and marks it when the mark of the first has ended. -/
theorem handle_used_twice : ∃ issued labels y,
    codec.sealHandle sealer nonce unixEpoch pending () = .ok issued ∧
      sealer.decodeText handle = sealer.decodeText issued.handle ∧
      Run (Interleave exec) start labels y ∧
      ∀ i, ∃ o, y.2 i = .ret (some (o, true)) := by
  have run := run_schedule exec start (turns (9 * 60 * 1000000000))
  have answered (i : Bool) : answers (9 * 60 * 1000000000) i = some true := by
    cases i <;> decide +kernel
  obtain ⟨issued, stored, text, -⟩ := sealed_handle
  refine ⟨issued, _, _, stored, by rw [text], run, fun i => ?_⟩
  obtain ⟨result, returned, first⟩ := Option.bind_eq_some_iff.mp (answered i)
  obtain ⟨⟨o, _⟩, rfl, rfl⟩ := Option.map_eq_some_iff.mp first
  exact ⟨o, eq_ret_of_returned returned⟩

end Once
end Egauth.Ceremony
