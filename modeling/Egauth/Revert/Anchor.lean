import Egauth.Revert.Family
import Egauth.Service.Bound

/-! Whether the anchor of an address keeps what it was given.

`holdAnchor` reads both slots, writes a wider mark into the free one and only
then consumes the old one; where both are taken it consumes one of them before
it writes. Two calls that overlap can each consume the other's mark. What is
covered stays so as long as no call goes on from what it has read once another
has written, and none consumes before it has written.
-/

set_option autoImplicit false

namespace Egauth.Revert
open Egauth.Core Identity Service Prog

local instance slots_ne_zero : NeZero 2 := ⟨two_ne_zero⟩

def anchors (sub : Subject) (addr : Identifier) : Family 2 where
  tenant := sub.tenant
  scope := anchorScope sub addr
  key := anchorKey sub addr
  distinct i j same := by
    simp only [anchorKey, Ceremony.Digest.keyed.injEq, List.cons.injEq, and_true, true_and] at same
    exact Slot.byte_injective (by decide) same
  sized _ := rfl
  few := by decide

abbrev Ranges := Slot 2 → Option (Time × Time)

def Anchor.tell (a : Anchor) (i : Slot 2) : Option (Time × Time) → Anchor
  | .none => a
  | some (first, last) =>
    { first := if a.first = 0 ∨ first < a.first then first else a.first
      last := if last > a.last then last else a.last
      live := Function.update a.live i true }

def told (m : Ranges) : Anchor := (List.finRange 2).foldl (fun a i => a.tell i (m i)) .none

theorem told_eq (m : Ranges) : told m = (Anchor.none.tell 0 (m 0)).tell 1 (m 1) := rfl

structure Tells (ends : Time) (range : Time × Time) (row : Ceremony.Row) : Prop where
  armed : Armed row (noteFrom range.1) range.2
  whole : Duration.microsecond ∣ range.1 ∧ Duration.microsecond ∣ range.2
  ordered : range.1 ≤ range.2
  lasts : ends ≤ range.2 + Ceremony.Kind.ttl .securityRevert

/-- The slots hold these ranges, until an instant that has not come. -/
structure Holds (sub : Subject) (addr : Identifier) (ends : Time) (m : Ranges) (w : World) : Prop where
  sound : (anchors sub addr).Sound w
  early : w.clock < ends
  rows : ∀ i, Option.Rel (Tells ends) (m i) ((anchors sub addr).rowAt w i)

section
variable {sub : Subject} {addr : Identifier} {ends : Time} {m : Ranges} {w w' : World} {o : Turn}

theorem Holds.live (holds : Holds sub addr ends m w) {clk : Time} (early : clk < ends) (i : Slot 2) :
    Option.Rel (Tells ends) (m i) ((anchors sub addr).liveAt w clk i) := by
  have row := holds.rows i
  unfold Family.liveAt
  generalize (anchors sub addr).rowAt w i = stored, m i = range at row ⊢
  cases row with
  | none => exact .none
  | some tells =>
    have lasts := tells.lasts
    rw [← tells.armed.expiresAt] at lasts
    rw [Option.filter_some, if_pos (decide_eq_true (lt_of_lt_of_le early lasts))]
    exact .some tells

variable {c : Service.Call}

theorem Holds.clock (holds : Holds sub addr ends m w) {r : Reply c} (early : o.now < ends)
    (replied : exec o w c = (r, w')) : w'.clock < ends := by
  rw [clock_exec replied]
  exact max_lt holds.early early

theorem Holds.unchanged (holds : Holds sub addr ends m w) {r : Reply c} (early : o.now < ends)
    (replied : exec o w c = (r, w')) (sound : (anchors sub addr).Sound w')
    (rows : (anchors sub addr).rowAt w' = (anchors sub addr).rowAt w) : Holds sub addr ends m w' := by
  refine ⟨sound, holds.clock early replied, fun i => ?_⟩
  rw [rows]
  exact holds.rows i

theorem Holds.update (holds : Holds sub addr ends m w) {r : Reply c} (early : o.now < ends)
    (replied : exec o w c = (r, w')) (sound : (anchors sub addr).Sound w') {i : Slot 2} {range : Option (Time × Time)}
    {row : Option Ceremony.Row} (rows : (anchors sub addr).rowAt w' = Function.update ((anchors sub addr).rowAt w) i row)
    (tells : Option.Rel (Tells ends) range row) : Holds sub addr ends (Function.update m i range) w' := by
  refine ⟨sound, holds.clock early replied, fun j => ?_⟩
  rw [rows]
  by_cases same : j = i
  · subst same
    rwa [Function.update_self, Function.update_self]
  · rw [Function.update_of_ne same, Function.update_of_ne same]
    exact holds.rows j

theorem Holds.apart (holds : Holds sub addr ends m w) {r : Reply c} (early : o.now < ends)
    (replied : exec o w c = (r, w')) (apart : c.part ≠ some .ceremonies) : Holds sub addr ends m w' := by
  obtain ⟨sound, rows⟩ := holds.sound.unchanged ((frame_exec replied).ceremonies apart)
  exact holds.unchanged early replied sound rows

/-- From the beginning in the note of a mark to its date. -/
def markRange (rec : Ceremony.Record) : Time × Time :=
  (match markedFrom rec with
    | some marked => if marked < rec.row.createdAt then marked else rec.row.createdAt
    | none => rec.row.createdAt, rec.row.createdAt)

theorem Anchor.add_eq (a : Anchor) (i : Slot 2) (rec : Option Ceremony.Record) :
    a.add i rec = a.tell i (rec.map markRange) := by
  cases rec <;> rfl

theorem Tells.markRange {range : Time × Time} {row : Ceremony.Row} (tells : Tells ends range row) :
    markRange ⟨row, tells.armed.valid⟩ = range := by
  have first : (if range.1 < range.2 then range.1 else range.2) = range.1 := by
    split
    · rfl
    next later => exact le_antisymm (not_lt.mp later) tells.ordered
  simp only [Revert.markRange, tells.armed.markedFrom tells.whole.1, tells.armed.createdAt, first]

variable {r : Except Ceremony.Err Ceremony.Record}

theorem Holds.peek (holds : Holds sub addr ends m w) {i : Slot 2}
    (early : o.now < ends) (replied : exec o w (.peek sub.tenant .securityRevert (anchorKey sub addr i)) = (r, w')) :
    o.fault = true ∧ r = .error .context ∨ m i = none ∧ r = .error .notFound ∨
      ∃ rec, m i = some (markRange rec) ∧ r = .ok rec := by
  have row := holds.live (holds.clock early replied) i
  rcases Family.peek_mark (f := anchors sub addr) replied with failed | ⟨absent, rfl⟩ | ⟨row', alive, rfl⟩
  · exact .inl failed
  · rw [absent] at row
    generalize m i = range at row ⊢
    cases row
    exact .inr (.inl ⟨rfl, rfl⟩)
  · rw [alive] at row
    generalize m i = range at row ⊢
    cases row with
    | some tells => exact .inr (.inr ⟨_, congrArg some tells.markRange.symm, restore_eq tells.armed.valid⟩)

theorem Holds.consume (holds : Holds sub addr ends m w) {i : Slot 2}
    (early : o.now < ends) (replied : exec o w (.consume sub.tenant .securityRevert (anchorKey sub addr i)) = (r, w')) :
    r = .error .context ∧ Holds sub addr ends m w' ∨ m i = none ∧ r = .error .notFound ∨
      (∃ rec, r = .ok rec) ∧ Holds sub addr ends (Function.update m i none) w' := by
  have row := holds.live (holds.clock early replied) i
  obtain ⟨sound, consumed⟩ := Family.consume_mark (f := anchors sub addr) holds.sound replied
  rcases consumed with ⟨rfl, rows⟩ | ⟨absent, rfl, -⟩ | ⟨row', alive, rfl, rows⟩
  · exact .inl ⟨rfl, holds.unchanged early replied sound rows⟩
  · rw [absent] at row
    generalize m i = range at row ⊢
    cases row
    exact .inr (.inl ⟨rfl, rfl⟩)
  · rw [alive] at row
    generalize m i = range at row
    cases row with
    | some tells => exact .inr (.inr ⟨⟨_, restore_eq tells.armed.valid⟩, holds.update early replied sound rows .none⟩)

end

def Covers (m : Ranges) (t : Time) : Prop := (told m).held = true ∧ (told m).first ≤ t ∧ t ≤ (told m).last

def Ranges.free : Ranges := fun _ => none

def Ranges.one (i : Slot 2) (range : Time × Time) : Ranges := Function.update Ranges.free i (some range)

theorem slot_cases (i : Slot 2) : i = 0 ∨ i = 1 := by
  revert i
  decide

theorem told_one (i : Slot 2) (first last : Time) : told (Ranges.one i (first, last)) =
    ⟨first, max 0 last, Function.update (fun _ => false) i true⟩ := by
  have larger : (if last > 0 then last else 0) = max 0 last := by
    split
    next positive => exact (max_eq_right positive.le).symm
    next negative => exact (max_eq_left (not_lt.mp negative)).symm
  rcases slot_cases i with rfl | rfl
  · simp [told_eq, Ranges.one, Ranges.free, Anchor.tell, Anchor.none, larger]
  · simp [told_eq, Ranges.one, Ranges.free, Anchor.tell, Anchor.none, larger]

theorem held_one (i : Slot 2) (range : Time × Time) : (told (Ranges.one i range)).held = true := by
  rw [told_one]
  rcases slot_cases i with rfl | rfl <;> rfl

variable {t : Time}

theorem covers_one {i : Slot 2} {range : Time × Time} :
    Covers (Ranges.one i range) t ↔ range.1 ≤ t ∧ t ≤ max 0 range.2 := by
  unfold Covers
  rw [held_one, told_one]
  simp

theorem not_covers_free : ¬ Covers Ranges.free t := by
  rintro ⟨held, -⟩
  cases held

variable {m : Ranges}

theorem told_both (zeroth first : Time × Time) (taken : m 0 = some zeroth) (also' : m 1 = some first) :
    told m = (Anchor.none.tell 0 (some zeroth)).tell 1 (some first) := by
  rw [told_eq, taken, also']

theorem covers_both {i : Slot 2} {old new : Time × Time} (starts : new.1 ≤ old.1) (ends : max 0 old.2 ≤ new.2)
    (covers : Covers (Ranges.one i old) t) :
    Covers (Function.update (Ranges.one i old) (1 - i) (some new)) t := by
  obtain ⟨first, last⟩ := covers_one.mp covers
  obtain ⟨positive, later⟩ := max_le_iff.mp ends
  have below := last.trans ends
  unfold Covers
  rcases slot_cases i with rfl | rfl
  · rw [told_both old new rfl rfl]
    refine ⟨rfl, ?_, ?_⟩
    · dsimp only [Anchor.tell]
      split_ifs <;> lia
    · dsimp only [Anchor.tell]
      split_ifs <;> lia
  · rw [told_both new old rfl rfl]
    refine ⟨rfl, ?_, ?_⟩
    · dsimp only [Anchor.tell]
      split_ifs <;> lia
    · dsimp only [Anchor.tell]
      split_ifs <;> lia

theorem minTime_le (a b : Time) : minTime a b ≤ a ∧ minTime a b ≤ b := by
  unfold minTime
  split <;> lia

theorem le_maxTime (a b : Time) : a ≤ maxTime a b ∧ b ≤ maxTime a b := by
  unfold maxTime
  split <;> lia

theorem update_both (m : Ranges) (i : Slot 2) (range : Time × Time) :
    Function.update (Function.update m i (some range)) (1 - i) none = Ranges.one i range := by
  funext j
  rcases slot_cases i with rfl | rfl
  · rcases slot_cases j with rfl | rfl <;> rfl
  · rcases slot_cases j with rfl | rfl <;> rfl

def target (m : Ranges) : Slot 2 := if (told m).live 0 then 1 else 0

def widen (m : Ranges) (t : Time) : Time × Time :=
  (if (told m).held then minTime (told m).first t else t, if (told m).held then maxTime (told m).last t else t)

theorem live_told (m : Ranges) (i : Slot 2) : (told m).live i = (m i).isSome := by
  rw [told_eq]
  rcases slot_cases i with rfl | rfl
  · cases m 0 <;> cases m 1 <;> rfl
  · cases m 0 <;> cases m 1 <;> rfl

theorem ranges_ext {m' : Ranges} (zeroth : m 0 = m' 0) (first : m 1 = m' 1) : m = m' := by
  funext i
  rcases slot_cases i with rfl | rfl
  · exact zeroth
  · exact first

/-- A free target leaves at most the other slot taken. -/
theorem target_free (free : m (target m) = none) :
    m = Ranges.free ∧ target m = 0 ∨ ∃ i range, m = Ranges.one i range ∧ target m = 1 - i := by
  unfold target at free ⊢
  rw [live_told] at free ⊢
  cases zeroth : m 0 with
  | none =>
    cases first : m 1 with
    | none => exact .inl ⟨ranges_ext zeroth first, rfl⟩
    | some range => exact .inr ⟨1, range, ranges_ext zeroth first, rfl⟩
  | some range =>
    rw [zeroth] at free
    exact .inr ⟨0, range, ranges_ext zeroth free, rfl⟩

theorem widen_one (i : Slot 2) (range : Time × Time) (t : Time) :
    widen (Ranges.one i range) t = (minTime range.1 t, maxTime (max 0 range.2) t) := by
  unfold widen
  rw [held_one, told_one]
  rfl

theorem mem_widen (free : m (target m) = none) (t : Time) : (widen m t).1 ≤ t ∧ t ≤ (widen m t).2 := by
  rcases target_free free with ⟨rfl, -⟩ | ⟨i, range, rfl, -⟩
  · exact ⟨le_rfl, le_rfl⟩
  · rw [widen_one]
    exact ⟨(minTime_le _ t).2, (le_maxTime _ t).2⟩

theorem covers_put (free : m (target m) = none) {s : Time} (t : Time) (covers : Covers m s) :
    Covers (Function.update m (target m) (some (widen m t))) s := by
  rcases target_free free with ⟨rfl, -⟩ | ⟨i, range, rfl, slot⟩
  · exact (not_covers_free covers).elim
  · rw [slot, widen_one]
    exact covers_both (minTime_le _ t).1 (le_maxTime _ t).1 covers

/-- The new mark alone covers what both cover. -/
theorem covers_consumed (free : m (target m) = none) {s : Time}
    (covers : Covers (Function.update m (target m) (some (widen m t))) s) :
    Covers (Ranges.one (target m) (widen m t)) s := by
  rcases target_free free with ⟨rfl, slot⟩ | ⟨i, range, rfl, slot⟩
  · rw [slot] at covers ⊢
    exact covers
  · rw [slot, widen_one] at covers ⊢
    rw [covers_one]
    have starts := (minTime_le range.1 t).1
    have reaches := max_le_iff.mp (le_maxTime (max 0 range.2) t).1
    obtain ⟨-, first, last⟩ := covers
    rcases slot_cases i with rfl | rfl
    · rw [told_both range _ rfl rfl] at first last
      dsimp only [Anchor.tell, Anchor.none] at first last ⊢
      refine ⟨?_, ?_⟩
      · split_ifs at first <;> lia
      · split_ifs at last <;> lia
    · rw [told_both _ range rfl rfl] at first last
      dsimp only [Anchor.tell, Anchor.none] at first last ⊢
      refine ⟨?_, ?_⟩
      · split_ifs at first <;> lia
      · split_ifs at last <;> lia

/-- How far a round of a call has come, with what it has read of the slots. -/
inductive Phase where
  | out
  | half (zeroth : Option (Time × Time))
  | read (m : Ranges)
  | took (m : Ranges)
  | put (m : Ranges)
  | done (m : Ranges)

/-- The range that a peek tells of, unless it failed. -/
def marked : Except Ceremony.Err Ceremony.Record → Option (Option (Time × Time))
  | .ok rec => some (some (markRange rec))
  | .error .notFound => some none
  | .error _ => none

theorem Holds.marked {sub : Subject} {addr : Identifier} {ends : Time} {w w' : World} {o : Turn} {i : Slot 2}
    {r : Except Ceremony.Err Ceremony.Record} (holds : Holds sub addr ends m w) (early : o.now < ends)
    (replied : exec o w (.peek sub.tenant .securityRevert (anchorKey sub addr i)) = (r, w')) :
    marked r = none ∨ marked r = some (m i) := by
  rcases holds.peek early replied with ⟨-, rfl⟩ | ⟨absent, rfl⟩ | ⟨rec, here, rfl⟩
  · exact .inl rfl
  · exact .inr (congrArg some absent.symm)
  · exact .inr (congrArg some here.symm)

def Phase.peeked (first : Bool) (g : Phase) (range : Option (Time × Time)) : Phase :=
  if first then .half range
  else
    match g with
    | .half zeroth => .read fun i => if i = 0 then zeroth else range
    | _ => .out

def Phase.wrote : Phase → Phase
  | .read m | .took m => .put m
  | _ => .out

def Phase.consumed : Phase → Phase
  | .read m => .took m
  | .put m => .done m
  | _ => .out

section
variable (u : User) (addr : Identifier) (t : Time)

/-- What a call may do next in a round, and what it knows then. -/
def rounds : Discipline Service.Call Reply Phase where
  track g c r :=
    match c, r with
    | .peek _ _ h, r => (marked r).elim .out (g.peeked (h = anchorKey u.subject addr 0))
    | .put _, .ok _ => g.wrote
    | .consume .., .ok _ | .consume .., .error .notFound => g.consumed
    | _, _ => g
  learns _ _ _ := True
  allows g c :=
    match c with
    | .peek tenant k h => tenant = u.subject.tenant ∧ k = .securityRevert ∧
      (h = anchorKey u.subject addr 0 ∨ h = anchorKey u.subject addr 1 ∧ ∃ zeroth, g = .half zeroth)
    | .now => ∃ m, (g = .read m ∨ g = .took m) ∧ ¬ Covers m t
    | .put rec => ∃ m, (g = .read m ∧ m (target m) = none ∨ g = .took m) ∧ ¬ Covers m t ∧
      Arms u (anchorScope u.subject addr) (anchorKey u.subject addr (target m)) (markBody (noteFrom (widen m t).1))
        (widen m t).2 rec
    | .consume tenant k h => tenant = u.subject.tenant ∧ k = .securityRevert ∧ ∃ m,
      g = .read m ∧ m (target m) ≠ none ∧ h = anchorKey u.subject addr (target m) ∧ ¬ Covers m t ∨
        g = .put m ∧ m (1 - target m) ≠ none ∧ h = anchorKey u.subject addr (1 - target m)
    | _ => False

/-- A call returns where what it has read covers its instant, or after its mark was the only one or has replaced the other. -/
def Phase.Ends : Phase → Prop
  | .read m => Covers m t
  | .put m => m (1 - target m) = none
  | .done _ => True
  | _ => False

end

section
variable {u : User} {addr : Identifier} {t : Time} {g : Phase} {m : Ranges} {cfg : Config}

theorem anchorKey_one_ne (sub : Subject) : anchorKey sub addr 1 ≠ anchorKey sub addr 0 := fun same =>
  absurd ((anchors sub addr).distinct same) (by decide)

theorem yields_anchor : Yields (rounds u addr t) g (anchor u.subject addr) fun g a => ∃ m, g = .read m ∧ a = told m := by
  have zeroth : Yields (rounds u addr t) g (peekMark u.subject.tenant (anchorKey u.subject addr 0)) fun g rec =>
      g = .half (rec.map markRange) := by
    refine yields_perform.mpr ⟨⟨rfl, rfl, .inl rfl⟩, fun r _ => ?_⟩
    split
    · exact yields_ret.mpr (by simp [rounds, marked, Phase.peeked])
    · exact yields_ret.mpr (by simp [rounds, marked, Phase.peeked])
    · exact yields_fail
  refine zeroth.bind ?_
  rintro _ zeroth rfl
  refine Yields.bind (?_ : Yields _ _ _ fun g rec =>
    g = .read fun i => if i = 0 then zeroth.map markRange else rec.map markRange) ?_
  · refine yields_perform.mpr ⟨⟨rfl, rfl, .inr ⟨rfl, _, rfl⟩⟩, fun r _ => ?_⟩
    split
    · exact yields_ret.mpr (by simp [rounds, marked, Phase.peeked, anchorKey_one_ne])
    · exact yields_ret.mpr (by simp [rounds, marked, Phase.peeked, anchorKey_one_ne])
    · exact yields_fail
  · rintro _ first rfl
    refine yields_ret.mpr ⟨_, rfl, ?_⟩
    rw [told_eq, Anchor.add_eq, Anchor.add_eq]
    rfl

theorem obeys_putMark (reads : g = .read m ∧ m (target m) = none ∨ g = .took m) (uncovered : ¬ Covers m t) :
    Obeys (rounds u addr t) g (putMark cfg u (anchorScope u.subject addr) (anchorKey u.subject addr (target m))
      (noteFrom (widen m t).1) (widen m t).2) fun g' result =>
        result = .ok () ∧ g' = .put m ∨ (∃ err, result = .error err) ∧ g' = g := by
  unfold putMark
  cases named : Ceremony.identifierScope (anchorScope u.subject addr) with
  | error err => exact .inr ⟨⟨_, rfl⟩, rfl⟩
  | ok scope =>
    have same : scope.hash = anchorScope u.subject addr := by
      simp only [Ceremony.identifierScope, ite_error_eq_ok] at named
      cases named.2
      rfl
    refine ((only_revertRecord (P := fun c => c = .now) rfl).obeys (fun g' => g' = g) rfl ?_).bind ?_ ?_
    · rintro _ _ rfl rfl
      exact ⟨⟨m, reads.imp_left And.left, uncovered⟩, fun _ _ => rfl⟩
    · rintro _ rec ⟨rfl, arms⟩
      refine obeys_perform.mpr ⟨⟨m, reads, uncovered, same ▸ arms rec rfl⟩, fun r _ => ?_⟩
      cases r with
      | error err => exact .inr ⟨⟨_, rfl⟩, rfl⟩
      | ok evicted => rcases reads with ⟨rfl, -⟩ | rfl <;> exact .inl ⟨rfl, rfl⟩
    · rintro _ err ⟨rfl, -⟩
      exact .inr ⟨⟨_, rfl⟩, rfl⟩

theorem yields_consumeLive {live : Bool} {h : Ceremony.Digest} {met : Phase → Unit → Prop} (idle : live = false → met g ())
    (allowed : live = true → (rounds u addr t).allows g (.consume u.subject.tenant .securityRevert h))
    (consumed : live = true → met g.consumed ()) :
    Yields (rounds u addr t) g (consumeLive live u.subject.tenant h) met := by
  unfold consumeLive
  split
  next taken =>
    refine yields_perform.mpr ⟨allowed taken, fun r _ => ?_⟩
    split
    · exact yields_ret.mpr (consumed taken)
    · exact yields_ret.mpr (consumed taken)
    · exact yields_fail
  next free => exact yields_ret.mpr (idle (Bool.eq_false_iff.mpr free))

theorem yields_holdRounds (cfg : Config) (left : Nat) :
    Yields (rounds u addr t) g (holdRounds cfg u addr t left) fun g _ => g.Ends t := by
  induction left generalizing g with
  | zero => exact yields_fail
  | succ left ih =>
    refine yields_anchor.bind ?_
    rintro _ _ ⟨m, rfl, rfl⟩
    dsimp only
    split
    next covered => exact yields_ret.mpr ⟨covered.1, not_lt.mp covered.2.1, not_lt.mp covered.2.2⟩
    next uncovered =>
      have uncovered : ¬ Covers m t := fun covers =>
        uncovered ⟨covers.1, not_lt.mpr covers.2.1, not_lt.mpr covers.2.2⟩
      have free {i : Slot 2} : (told m).live i = false ↔ m i = none := by simp [live_told]
      have taken {i : Slot 2} : (told m).live i = true ↔ m i ≠ none := by simp [live_told, Option.isSome_iff_ne_none]
      refine Yields.bind (?_ : Yields _ _ _ fun g _ => g = .read m ∧ m (target m) = none ∨ g = .took m) ?_
      · exact yields_consumeLive (fun none => .inl ⟨rfl, free.mp none⟩)
          (fun some' => ⟨rfl, rfl, m, .inl ⟨rfl, taken.mp some', rfl, uncovered⟩⟩) fun _ => .inr rfl
      intro g _ reads
      have put : Yields (rounds u addr t) g (putMark cfg u (anchorScope u.subject addr)
          (anchorKey u.subject addr (target m)) (noteFrom (widen m t).1) (widen m t).2).attempt fun g' result =>
            result = .ok () ∧ g' = .put m ∨ (∃ err, result = .error err) ∧ g' = g := by
        refine obeys_attempt.mpr ((obeys_putMark reads uncovered).mono fun g' result ends a same => ?_)
        cases same
        exact ends
      refine put.bind ?_
      rintro _ _ (⟨rfl, rfl⟩ | ⟨⟨err, rfl⟩, rfl⟩)
      · exact yields_consumeLive (fun none => free.mp none)
          (fun some' => ⟨rfl, rfl, m, .inr ⟨rfl, taken.mp some', rfl⟩⟩) fun _ => trivial
      · split
        · exact ih
        · exact yields_fail
        next impossible => cases impossible

end

/-- What a call that nothing has disturbed has read is what the slots hold, but for the mark that it has put. -/
def Phase.Agrees (t : Time) (m : Ranges) : Phase → Prop
  | .half zeroth => zeroth = m 0
  | .read r => r = m
  | .took _ => False
  | .put r => r (target r) = none ∧ m = Function.update r (target r) (some (widen r t))
  | .out | .done _ => True

/-- It has put its mark in this round. -/
def Phase.late : Phase → Bool
  | .half _ | .read _ | .took _ => false
  | _ => true

section
variable (sub : Subject) (addr : Identifier)

def begins : Service.Event → Bool
  | ⟨.peek _ _ h, _⟩ => h = anchorKey sub addr 0
  | _ => false

def puts : Service.Event → Bool
  | ⟨.put _, .ok _⟩ => true
  | _ => false

def takes : Service.Event → Bool
  | ⟨.consume .., .ok _⟩ => true
  | _ => false

/-- The rest of a reading, a mark that is put, and every consumption: they rely on what was read before. -/
def relies : Service.Event → Bool
  | ⟨.peek _ _ h, _⟩ => h ≠ anchorKey sub addr 0
  | ⟨.put _, .ok _⟩ | ⟨.consume .., _⟩ => true
  | _ => false

variable {I : Type} [DecidableEq I]

/-- No other call has written since the call began to read the slots; the latest label comes first. -/
def undisturbed (i : I) : List (I × Service.Event) → Bool
  | [] => false
  | label :: earlier =>
    if label.1 = i then begins sub addr label.2 || undisturbed i earlier
    else !(puts label.2 || takes label.2) && undisturbed i earlier

/-- The call has put its mark since it began to read the slots. -/
def written (i : I) : List (I × Service.Event) → Bool
  | [] => false
  | label :: earlier =>
    if label.1 = i then puts label.2 || !begins sub addr label.2 && written i earlier else written i earlier

/-- No call relies on what it has read once another has written, and none consumes before it has written. -/
def uncrossed : List (I × Service.Event) → Bool
  | [] => true
  | label :: earlier => uncrossed earlier && (!relies sub addr label.2 || undisturbed sub addr label.1 earlier) &&
    (!takes label.2 || written sub addr label.1 earlier)

end

/-- What a call does to the marks and to what is known of them. -/
structure Replaces (sub : Subject) (addr : Identifier) (t : Time) (m m' : Ranges) (event : Service.Event) (g g' : Phase) :
    Prop where
  still : (puts event || takes event) = false → m' = m
  covers : ∀ s, Covers m s → Covers m' s
  agrees : begins sub addr event = true ∨ g.Agrees t m → g'.Agrees t m'
  ends : g'.Ends t → Covers m' t

section
variable {u : User} {addr : Identifier} {ends t : Time} {m : Ranges} {w w' : World} {o : Turn} {g : Phase}

theorem Replaces.idle {sub : Subject} {event : Service.Event} (goes : begins sub addr event = false)
    (unended : ¬ g.Ends t) : Replaces sub addr t m m event g g where
  still _ := rfl
  covers _ covers := covers
  agrees agrees := agrees.resolve_left (Bool.eq_false_iff.mp goes)
  ends ended := absurd ended unended

variable {r : Except Ceremony.Err Ceremony.Record}

theorem replaces_peek {tenant : TenantID} {k : Ceremony.Kind} {h : Ceremony.Digest}
    (holds : Holds u.subject addr ends m w) (early : o.now < ends)
    (replied : exec o w (.peek tenant k h) = (r, w')) (allowed : (rounds u addr t).allows g (.peek tenant k h))
    (agrees : relies u.subject addr ⟨.peek tenant k h, r⟩ = true → g.Agrees t m) :
    Replaces u.subject addr t m m ⟨.peek tenant k h, r⟩ g ((rounds u addr t).track g (.peek tenant k h) r) := by
  have failed (failed : marked r = none) :
      Replaces u.subject addr t m m ⟨.peek tenant k h, r⟩ g ((rounds u addr t).track g (.peek tenant k h) r) := by
    simp only [rounds, failed]
    exact ⟨fun _ => rfl, fun _ => id, fun _ => trivial, nofun⟩
  obtain ⟨rfl, rfl, rfl | ⟨rfl, zeroth, rfl⟩⟩ := allowed
  · rcases holds.marked early replied with none | told
    · exact failed none
    · simp only [rounds, told]
      exact ⟨fun _ => rfl, fun _ => id, fun _ => rfl, nofun⟩
  · rcases holds.marked early replied with none | told
    · exact failed none
    · have same : zeroth = m 0 := agrees (by simp [relies, anchorKey_one_ne])
      have whole : (fun i : Slot 2 => if i = 0 then zeroth else m 1) = m := ranges_ext same rfl
      simp only [rounds, told, Phase.peeked, anchorKey_one_ne, decide_false, Option.elim_some, Bool.false_eq_true,
        if_false, whole]
      exact ⟨fun _ => rfl, fun _ => id, fun _ => rfl, id⟩

theorem Holds.widen_whole (holds : Holds u.subject addr ends m w) (free : m (target m) = none)
    (whole : Duration.microsecond ∣ t) : Duration.microsecond ∣ (widen m t).1 ∧ Duration.microsecond ∣ (widen m t).2 := by
  rcases target_free free with ⟨rfl, -⟩ | ⟨i, ⟨first, last⟩, rfl, -⟩
  · exact ⟨whole, whole⟩
  · have tells := holds.rows i
    rw [Ranges.one, Function.update_self] at tells
    obtain ⟨from', to'⟩ : Duration.microsecond ∣ first ∧ Duration.microsecond ∣ last := by
      generalize (anchors u.subject addr).rowAt w i = stored at tells
      cases tells with
      | some tells => exact tells.whole
    rw [widen_one]
    refine ⟨?_, ?_⟩
    · unfold minTime
      split <;> assumption
    · unfold maxTime
      split
      · exact (le_total 0 last).elim (fun le => (max_eq_right le).symm ▸ to')
          fun le => (max_eq_left le).symm ▸ dvd_zero _
      · exact whole

theorem replaces_put {rec : Ceremony.Record} {r : Except Ceremony.Err Nat} (holds : Holds u.subject addr ends m w)
    (early : o.now < ends) (replied : exec o w (.put rec) = (r, w')) (allowed : (rounds u addr t).allows g (.put rec))
    (whole : Duration.microsecond ∣ t) (lasts : ends ≤ t + Ceremony.Kind.ttl .securityRevert)
    (agrees : relies u.subject addr ⟨.put rec, r⟩ = true → g.Agrees t m) : ∃ m', Holds u.subject addr ends m' w' ∧
      Replaces u.subject addr t m m' ⟨.put rec, r⟩ g ((rounds u addr t).track g (.put rec) r) := by
  obtain ⟨read, reads, uncovered, arms⟩ := allowed
  have key : rec.row.key = (anchors u.subject addr).keyAt (target read) := arms.key
  obtain ⟨sound, written⟩ := Family.put_mark holds.sound key arms.scope replied
  cases r with
  | error err =>
    have rows : (anchors u.subject addr).rowAt w' = (anchors u.subject addr).rowAt w := by
      rcases written with ⟨-, same⟩ | ⟨-, -, same⟩ | ⟨-, ⟨evicted, impossible⟩, -⟩
      · exact same
      · exact same
      · cases impossible
    refine ⟨m, holds.unchanged early replied sound rows, .idle rfl ?_⟩
    rcases reads with ⟨rfl, -⟩ | rfl
    · exact uncovered
    · exact id
  | ok evicted =>
    have agrees := agrees rfl
    rcases reads with ⟨rfl, free⟩ | rfl
    · obtain rfl : read = m := agrees
      rcases written with ⟨impossible, -⟩ | ⟨-, impossible, -⟩ | ⟨-, -, rows⟩
      · cases impossible
      · cases impossible
      have within := mem_widen free t
      have whole := holds.widen_whole free whole
      have tells : Tells ends (widen read t) rec.row.stored :=
        ⟨arms.armed whole.2, whole, within.1.trans within.2, lasts.trans (Int.add_le_add_right within.2 _)⟩
      refine ⟨_, holds.update early replied sound rows (.some tells), nofun, fun s => covers_put free t,
        fun _ => ⟨free, rfl⟩, fun single => ?_⟩
      rcases target_free free with ⟨rfl, slot⟩ | ⟨i, range, rfl, slot⟩
      · rw [slot]
        exact covers_one.mpr ⟨within.1, within.2.trans (le_max_right _ _)⟩
      · have taken : Ranges.one i range (1 - target (Ranges.one i range)) = none := single
        rw [slot] at taken
        rcases slot_cases i with rfl | rfl <;> cases taken
    · exact agrees.elim

theorem replaces_consume {tenant : TenantID} {k : Ceremony.Kind} {h : Ceremony.Digest}
    (holds : Holds u.subject addr ends m w) (early : o.now < ends)
    (replied : exec o w (.consume tenant k h) = (r, w')) (allowed : (rounds u addr t).allows g (.consume tenant k h))
    (agrees : g.Agrees t m) (late : takes ⟨.consume tenant k h, r⟩ = true → g.late = true) :
    ∃ m', Holds u.subject addr ends m' w' ∧ Replaces u.subject addr t m m' ⟨.consume tenant k h, r⟩ g
      ((rounds u addr t).track g (.consume tenant k h) r) := by
  obtain ⟨rfl, rfl, read, ⟨rfl, taken, rfl, uncovered⟩ | ⟨rfl, taken, rfl⟩⟩ := allowed
  · -- It makes room in the slot it is about to write: a mark that is consumed there comes before its own.
    obtain rfl : read = m := agrees
    rcases holds.consume early replied with ⟨rfl, still⟩ | ⟨absent, -⟩ | ⟨⟨rec, rfl⟩, -⟩
    · exact ⟨read, still, .idle rfl uncovered⟩
    · exact absurd absent taken
    · cases late rfl
  · -- Its own mark covers what the old one did.
    obtain ⟨free, rfl⟩ := agrees
    have other : (1 - target read : Slot 2) ≠ target read := by
      rcases slot_cases (target read) with same | same <;> rw [same] <;> decide
    rcases holds.consume early replied with ⟨rfl, still⟩ | ⟨absent, -⟩ | ⟨⟨rec, rfl⟩, next⟩
    · exact ⟨_, still, .idle rfl taken⟩
    · rw [Function.update_of_ne other] at absent
      exact absurd absent taken
    · rw [update_both] at next
      have within := mem_widen free t
      exact ⟨_, next, nofun, fun s => covers_consumed free, fun _ => trivial,
        fun _ => covers_one.mpr ⟨within.1, within.2.trans (le_max_right _ _)⟩⟩

theorem replaces_exec {c : Service.Call} {r : Reply c} (holds : Holds u.subject addr ends m w) (early : o.now < ends)
    (replied : exec o w c = (r, w')) (allowed : (rounds u addr t).allows g c) (whole : Duration.microsecond ∣ t)
    (lasts : ends ≤ t + Ceremony.Kind.ttl .securityRevert)
    (agrees : relies u.subject addr ⟨c, r⟩ = true → g.Agrees t m) (late : takes ⟨c, r⟩ = true → g.late = true) :
    ∃ m', Holds u.subject addr ends m' w' ∧
      Replaces u.subject addr t m m' ⟨c, r⟩ g ((rounds u addr t).track g c r) := by
  cases c with
  | now =>
    refine ⟨m, holds.apart early replied nofun, .idle rfl ?_⟩
    obtain ⟨read, rfl | rfl, uncovered⟩ := allowed
    · exact uncovered
    · exact id
  | peek tenant k h => exact ⟨m, holds.apart early replied nofun, replaces_peek holds early replied allowed agrees⟩
  | put rec => exact replaces_put holds early replied allowed whole lasts agrees
  | consume tenant k h => exact replaces_consume holds early replied allowed (agrees rfl) late
  | _ => exact allowed.elim

theorem late_track {sub : Subject} {event : Service.Event} {before : Bool} (late : before = true → g.late = true)
    (named : u.subject = sub) (now : (puts event || !begins sub addr event && before) = true) :
    ((rounds u addr t).track g event.1 event.2).late = true := by
  subst named
  obtain ⟨c, r⟩ := event
  cases c with
  | put rec =>
    cases r with
    | error err => exact late now
    | ok evicted => cases g <;> rfl
  | peek tenant k h =>
    obtain ⟨later, earlier⟩ := Bool.and_eq_true_iff.mp now
    have other : decide (h = anchorKey u.subject addr 0) = false := Bool.not_eq_true' _ ▸ later
    have was := late earlier
    simp only [rounds, other]
    cases marked r with
    | none => rfl
    | some range => cases g <;> first | rfl | cases was
  | consume tenant k h =>
    have was := late now
    cases r with
    | ok rec => cases g <;> first | rfl | cases was
    | error err => cases err <;> first | exact was | (cases g <;> first | rfl | cases was)
  | _ => exact late now

end

section
variable {I : Type} [DecidableEq I] {cfg : Config} {sub : Subject} {addr : Identifier} {ends : Time}
  {calls : I → User × Time} {w : World} {y : World × (I → Program Unit)} {labels : List (I × Service.Event)}

def holding (cfg : Config) (addr : Identifier) (calls : I → User × Time) (i : I) : Program Unit :=
  holdAnchor cfg (calls i).1 addr (calls i).2

def phase (addr : Identifier) (calls : I → User × Time) (labels : List (I × Service.Event)) (i : I) : Phase :=
  follow (rounds (calls i).1 addr (calls i).2.truncate) .out (own i labels)

/-- What holds of the marks after some steps of the calls. -/
structure Kept (sub : Subject) (addr : Identifier) (ends : Time) (calls : I → User × Time)
    (labels : List (I × Service.Event)) (y : World × (I → Program Unit)) (m : Ranges) : Prop where
  holds : Holds sub addr ends m y.1
  returned : ∀ i, y.2 i = .ret () → Covers m (calls i).2.truncate
  agrees : ∀ i, undisturbed sub addr i labels.reverse = true → (phase addr calls labels i).Agrees (calls i).2.truncate m
  late : ∀ i, written sub addr i labels.reverse = true → (phase addr calls labels i).late = true

theorem holdAnchor_ne_ret (cfg : Config) (u : User) (addr : Identifier) (t : Time) :
    holdAnchor cfg u addr t ≠ .ret () := by
  intro same
  have started := congrArg Prog.returned same
  cases started

theorem obeys_phase (run : Run (Interleave exec) (w, holding cfg addr calls) labels y) (i : I) :
    Learned (rounds (calls i).1 addr (calls i).2.truncate) .out (own i labels) ∧
      Yields (rounds (calls i).1 addr (calls i).2.truncate) (phase addr calls labels i) (y.2 i)
        fun g _ => g.Ends (calls i).2.truncate := by
  have learned := (learned_of_run (d := rounds (calls i).1 addr (calls i).2.truncate) (fun _ => True) run trivial
    (fun _ _ _ _ => trivial) (fun _ _ _ _ _ => trivial) .out i).2
  exact ⟨learned, (yields_holdRounds cfg 3).follow (path_of_run run i) learned⟩

theorem uncrossed_snoc {j : I} {event : Service.Event} (calm : uncrossed sub addr (labels ++ [(j, event)]).reverse = true) :
    uncrossed sub addr labels.reverse = true ∧
      (relies sub addr event = true → undisturbed sub addr j labels.reverse = true) ∧
        (takes event = true → written sub addr j labels.reverse = true) := by
  rw [List.reverse_concat'] at calm
  simpa [uncrossed, and_assoc, Bool.or_eq_true, imp_iff_not_or] using calm

/-- The call that takes the step ends with what it covers; the others still agree unless it has written. -/
theorem Kept.snoc {mid : World × (I → Program Unit)} {m m' : Ranges} {j : I} {c : Service.Call} {r : Reply c}
    (kept : Kept sub addr ends calls labels mid m) (named : (calls j).1.subject = sub)
    (run : Run (Interleave exec) (w, holding cfg addr calls) (labels ++ [(j, ⟨c, r⟩)]) y) {next : Program Unit}
    (rest : y.2 = Function.update mid.2 j next) (holds : Holds sub addr ends m' y.1)
    (replaces : Replaces sub addr (calls j).2.truncate m m' ⟨c, r⟩ (phase addr calls labels j)
      ((rounds (calls j).1 addr (calls j).2.truncate).track (phase addr calls labels j) c r)) :
    Kept sub addr ends calls (labels ++ [(j, ⟨c, r⟩)]) y m' := by
  have phases (i : I) : phase addr calls (labels ++ [(j, ⟨c, r⟩)]) i = if j = i then
      (rounds (calls i).1 addr (calls i).2.truncate).track (phase addr calls labels i) c r else phase addr calls labels i :=
    follow_own_snoc i
  refine ⟨holds, fun i ended => ?_, fun i => ?_, fun i => ?_⟩
  · by_cases same : j = i
    · subst same
      have ends := (obeys_phase run j).2
      rw [ended, phases, if_pos rfl] at ends
      exact replaces.ends (ends () rfl)
    · rw [rest, Function.update_of_ne (Ne.symm same)] at ended
      exact replaces.covers _ (kept.returned i ended)
  · rw [List.reverse_concat', phases, undisturbed]
    split
    next same =>
      subst same
      intro calm
      exact replaces.agrees ((Bool.or_eq_true_iff.mp calm).imp_right (kept.agrees j))
    next =>
      intro calm
      obtain ⟨silent, calm⟩ := Bool.and_eq_true_iff.mp calm
      rw [replaces.still (Bool.not_eq_true' _ ▸ silent)]
      exact kept.agrees i calm
  · rw [List.reverse_concat', phases, written]
    split
    next same =>
      subst same
      exact late_track (kept.late j) named
    next => exact kept.late i

/-- The marks of a run that is not crossed: by induction over the steps, each of which keeps what is covered. -/
theorem kept_of_run (named : ∀ i, (calls i).1.subject = sub) (sound : (anchors sub addr).Sound w)
    (empty : ∀ i, (anchors sub addr).rowAt w i = none)
    (run : Run (Interleave exec) (w, holding cfg addr calls) labels y)
    (calm : uncrossed sub addr labels.reverse = true) (early : y.1.clock < ends)
    (lasting : ∀ label ∈ labels, ends ≤ (calls label.1).2.truncate + Ceremony.Kind.ttl .securityRevert) :
    ∃ m, Kept sub addr ends calls labels y m := by
  induction run with
  | nil =>
    refine ⟨Ranges.free, ⟨sound, early, fun i => ?_⟩, fun i ended => (holdAnchor_ne_ret _ _ _ _ ended).elim, nofun, nofun⟩
    rw [empty i]
    exact .none
  | @snoc mid after labels label before last ih =>
    have run := before.snoc last
    obtain ⟨j, c, r⟩ := label
    obtain ⟨calm, relied, taken⟩ := uncrossed_snoc calm
    have allowed := allows_of_run before last (yields_holdRounds cfg 3) (obeys_phase before j).1
    obtain ⟨o, next, head, replied, rest⟩ := last
    rw [clock_exec replied, max_lt_iff] at early
    obtain ⟨m, kept⟩ := ih calm early.1 fun label member => lasting label (List.mem_append_left _ member)
    have mine := named j
    subst mine
    obtain ⟨m', holds, replaces⟩ := replaces_exec kept.holds early.2 replied allowed (Time.microsecond_dvd_truncate _)
      (lasting _ (by simp)) (fun relies => kept.agrees j (relied relies)) fun takes => kept.late j (taken takes)
    exact ⟨m', kept.snoc rfl run rest holds replaces⟩

theorem peekMark_told {m : Ranges} {o : Turn} (holds : Holds sub addr ends m w) (faultless : o.fault = false)
    (early : o.now < ends) (i : Slot 2) : ∃ rec w', (peekMark sub.tenant (anchorKey sub addr i)).alone exec o w =
      (.ok rec, w') ∧ Holds sub addr ends m w' ∧ rec.map markRange = m i := by
  cases replied : exec o w (.peek sub.tenant .securityRevert (anchorKey sub addr i)) with
  | mk r w' =>
    have kept := holds.apart early replied nofun
    unfold peekMark
    rw [perform_bind, alone_call, replied]
    rcases holds.peek early replied with ⟨fault, -⟩ | ⟨absent, rfl⟩ | ⟨rec, here, rfl⟩
    · rw [faultless] at fault
      cases fault
    · exact ⟨none, w', rfl, kept, absent.symm⟩
    · exact ⟨some rec, w', rfl, kept, here.symm⟩

theorem anchor_told {m : Ranges} {o : Turn} (holds : Holds sub addr ends m w) (faultless : o.fault = false)
    (early : o.now < ends) : ∃ w', (anchor sub addr).alone exec o w = (.ok (told m), w') := by
  obtain ⟨zeroth, w₁, read, holds, same⟩ := peekMark_told holds faultless early 0
  obtain ⟨first, w₂, read', -, same'⟩ := peekMark_told holds faultless early 1
  refine ⟨w₂, ?_⟩
  unfold anchor
  rw [alone_bind_ok read, alone_bind_ok read', Anchor.add_eq, Anchor.add_eq, same, same']
  rfl

/-- For any number of calls of `holdAnchor` for one address, in any interleaving and with any failures: where no call
relies on what it has read once another has written, and none consumes before it has written, the anchor covers the
time of every call that has returned, as long as nothing expires. -/
theorem held_anchor_covers (cfg : Config) (sub : Subject) (addr : Identifier) (calls : I → User × Time)
    (own : ∀ i, (calls i).1.subject = sub) (w : World) (sound : (anchors sub addr).Sound w)
    (empty : ∀ i, (anchors sub addr).rowAt w i = none)
    (run : Run (Interleave exec) (w, holding cfg addr calls) labels y)
    (calm : uncrossed sub addr labels.reverse = true) (ends : Time) (early : y.1.clock < ends)
    (lasting : ∀ label ∈ labels, ends ≤ (calls label.1).2.truncate + Ceremony.Kind.ttl .securityRevert) :
    ∀ i, y.2 i = .ret () → ∀ o : Turn, o.fault = false → o.now < ends →
      ∃ a w', (anchor sub addr).alone exec o y.1 = (.ok a, w') ∧ a.held = true ∧
        a.first ≤ (calls i).2.truncate ∧ (calls i).2.truncate ≤ a.last := by
  intro i ended o faultless now
  obtain ⟨m, kept⟩ := kept_of_run own sound empty run calm early lasting
  obtain ⟨held, first, last⟩ := kept.returned i ended
  obtain ⟨w', read⟩ := anchor_told kept.holds faultless now
  exact ⟨told m, w', read, held, first, last⟩

end

namespace Sample
open Service.Sample

def holder : User := { subject := subject, email := email, emailVerifiedAt := day 30, createdAt := day 30 }

def second (n : Nat) : Time := day 31 + n * Duration.second

def quiet : World := { world with ceremonies := .new }

theorem anchors_sound : (anchors subject email).Sound quiet where
  indexed := Ceremony.Store.Indexed.new
  own _ _ found := nomatch found
  inside _ _ found := nomatch found

/-- Two changes, and a third one between them in the second pool. -/
def twice (later : Bool) : User × Time := (holder, second (if later then 9 else 5))

def thrice (i : Nat) : User × Time := (holder, second (5 + 2 * i))

def takes {I : Type} (i : I) (count : Nat) : List (I × Turn) := List.replicate count (i, turn (day 31))

def overlapping : List (Bool × Turn) := takes false 2 ++ takes true 2 ++ takes false 2 ++ takes true 7

/-- The last call reads both marks and consumes one of them, before the second call consumes the other. -/
def crossing : List (Nat × Turn) := takes 0 4 ++ takes 1 4 ++ takes 2 3 ++ takes 1 1

end Sample

open Sample Service.Sample

/-- The second call has read the empty slots when the first one writes; its put is refused, and it reads again. -/
theorem held_anchor_covers_retried : ∃ labels y,
    Run (Interleave exec) (quiet, holding config email twice) labels y ∧
      y.2 false = .ret () ∧ y.2 true = .ret () ∧ ∀ i, y.2 i = .ret () → ∀ o : Turn, o.fault = false →
        o.now < second 60 → ∃ a w', (anchor subject email).alone exec o y.1 =
          (.ok a, w') ∧ a.held = true ∧ a.first ≤ (twice i).2.truncate ∧ (twice i).2.truncate ≤ a.last := by
  have run := run_schedule exec (quiet, holding config email twice) overlapping
  refine ⟨_, _, run, eq_ret_of_returned (by decide +kernel), eq_ret_of_returned (by decide +kernel), ?_⟩
  refine held_anchor_covers config subject email twice (fun _ => rfl)
    quiet anchors_sound (fun _ => rfl) run (by decide +kernel) (second 60) (by decide +kernel) ?_
  intro label _
  cases label.1 <;> decide +kernel

theorem crossing_calls_lose_anchor : ∃ labels y,
    Run (Interleave exec) (quiet, holding config email thrice) labels y ∧
      y.2 0 = .ret () ∧ y.2 1 = .ret () ∧ (∀ label ∈ labels, y.1.clock < (thrice label.1).2.truncate +
        Ceremony.Kind.ttl .securityRevert) ∧
      ((anchor subject email).alone exec (turn (day 31))
        y.1).1.toOption.map Anchor.held = some false := by
  have run := run_schedule exec (quiet, holding config email thrice) crossing
  exact ⟨_, _, run, eq_ret_of_returned (by decide +kernel), eq_ret_of_returned (by decide +kernel), by decide +kernel,
    by decide +kernel⟩

end Egauth.Revert
