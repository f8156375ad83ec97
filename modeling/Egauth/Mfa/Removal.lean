import Egauth.Mfa.Replay

/-! A confirmed enrollment goes by removal only, and a removed one stays away.

A confirmed row is overwritten by an enrollment that read it before it was
confirmed, and a removed one comes back by a confirmation that read it before
the removal. Without these, a confirmation holds until a removal, and after
one an enrollment is saved before another confirmation.
-/

set_option autoImplicit false

namespace Egauth.Mfa
open Egauth.Core Prog

def saving (event : Event) : Bool := (saves event).isSome

section
variable {cfg : Config} {g : Note} {event : Event} {v v' : Option View}

def Confirmed (v : Option View) : Prop := ∃ w, v = some w ∧ w.confirmed = true

theorem confirmed_viewed (s : Store) : s.hasConfirmedTOTP cfg.subject = true ↔ Confirmed (viewed cfg s) := by
  unfold Store.hasConfirmedTOTP Confirmed viewed
  cases s.totp.lookup cfg.subject <;> simp [View.of]

theorem allows_saves {e : Enrollment} (allowed : (order cfg).allows g event.1) (saved : saves event = some e) :
    ∃ prev, g.read = some prev ∧ ∀ p, prev = some p → p.confirmed = false := by
  unfold saves at saved
  split at saved
  · exact allowed.2.2
  · cases saved

def Unconfirmed (prev : Option Enrollment) (v : Option View) : Prop :=
  (∀ p, prev = some p → p.confirmed = false) → ∀ w, v = some w → w.confirmed = false

theorem Moves.unconfirmed (moves : Moves cfg v event v') (kept : confirming event = false)
    (before : ∀ w, v = some w → w.confirmed = false) : ∀ w, v' = some w → w.confirmed = false := by
  intro w found
  cases moves with
  | quiet => exact before w found
  | accepted same =>
    cases found
    have unconfirmed := before _ same
    exact unconfirmed
  | saved =>
    cases found
    rfl
  | confirmed confirmed => simp [confirming, confirmed] at kept
  | removed => cases found

theorem Moves.confirmed_of_confirming (moves : Moves cfg v event v') (confirmed : confirming event = true) :
    Confirmed v' := by
  obtain ⟨e, same⟩ := Option.isSome_iff_exists.mp confirmed
  cases moves with
  | quiet quiet => cases same.symm.trans quiet.2.2.1
  | accepted _ taken => cases taken.symm.trans (silent_of_confirms same).1
  | saved saved => cases saved.symm.trans (silent_of_confirms same).2.1
  | confirmed => exact ⟨_, rfl, rfl⟩
  | removed removed => cases removed.symm.trans (silent_of_confirms same).2.2

theorem Moves.none_of_removes (moves : Moves cfg v event v') (removed : removes event = true) : v' = none := by
  cases moves with
  | quiet quiet => cases removed.symm.trans quiet.2.2.2
  | accepted _ taken => cases taken.symm.trans (silent_of_removes removed).1
  | saved saved => cases saved.symm.trans (silent_of_removes removed).2
  | confirmed confirmed => cases removed.symm.trans (silent_of_confirms confirmed).2.2
  | removed => rfl

theorem Moves.confirmed_kept (moves : Moves cfg v event v') (before : Confirmed v) (notSaved : saves event = none)
    (notRemoved : removes event = false) : Confirmed v' := by
  obtain ⟨w, found, confirmed⟩ := before
  cases moves with
  | quiet => exact ⟨w, found, confirmed⟩
  | accepted same =>
    cases found.symm.trans same
    exact ⟨_, rfl, confirmed⟩
  | saved saved => cases saved.symm.trans notSaved
  | confirmed => exact ⟨_, rfl, rfl⟩
  | removed removed => cases removed.symm.trans notRemoved

end

section
variable {I : Type} [DecidableEq I] {cfg : Config} {requests : I → Request} {start : Store} {labels later : List (I × Event)}
  {y : Store × (I → Program Unit)} {label : I × Event} {secret : Option Bytes}

def SavedIn (cfg : Config) (labels : List (I × Event)) (secret : Option Bytes) : Prop :=
  ∃ label ∈ labels, ∃ e, saves label.2 = some e ∧ cfg.secret e.sealedSecret = secret

/-- An enrollment with the secret is confirmed by a confirmation request, after one was saved. -/
def ConfirmedIn (cfg : Config) (requests : I → Request) (labels : List (I × Event)) (secret : Option Bytes) : Prop :=
  ∃ earlier label later e code, labels = earlier ++ label :: later ∧ requests label.1 = .confirm code ∧
    confirms label.2 = some e ∧ cfg.secret e.sealedSecret = secret ∧ SavedIn cfg earlier secret

omit [DecidableEq I] in
theorem SavedIn.snoc (saved : SavedIn cfg labels secret) (label : I × Event) :
    SavedIn cfg (labels ++ [label]) secret := by
  obtain ⟨other, member, found⟩ := saved
  exact ⟨other, List.mem_append_left _ member, found⟩

omit [DecidableEq I] in
theorem ConfirmedIn.snoc (confirmed : ConfirmedIn cfg requests labels secret)
    (label : I × Event) : ConfirmedIn cfg requests (labels ++ [label]) secret := by
  obtain ⟨earlier, other, later, e, code, split, found⟩ := confirmed
  exact ⟨earlier, other, later ++ [label], e, code, by simp [split], found⟩

theorem eq_confirm_of_presents {request : Request} (presents : request.presents.isSome = true) :
    ∃ code, request = .confirm code := by
  cases request with
  | confirm code => exact ⟨code, rfl⟩
  | _ => cases presents

def Since (cfg : Config) (requests : I → Request) (later : List (I × Event)) (v : Option View) : Prop :=
  ∀ w, v = some w → SavedIn cfg later w.secret ∧ (w.confirmed = true → ConfirmedIn cfg requests later w.secret)

/-- An enrollment that was read and not removed since is one that was saved lately. -/
def ReadSince (cfg : Config) (requests : I → Request) (past later : List (I × Event)) : Prop :=
  ∀ i p, undisturbed removes i (past ++ later).reverse = true →
    (noteOf cfg requests (past ++ later) i).read = some (some p) → SavedIn cfg later (cfg.secret p.sealedSecret)

omit [DecidableEq I] in
theorem Since.moves {v v' : Option View} (since : Since cfg requests later v) (moves : Moves cfg v label.2 v')
    (onConfirm : ∀ e, confirms label.2 = some e →
      (∃ code, requests label.1 = .confirm code) ∧ SavedIn cfg later (cfg.secret e.sealedSecret)) :
    Since cfg requests (later ++ [label]) v' := by
  intro w found
  cases moves with
  | quiet =>
    obtain ⟨saved, confirmed⟩ := since w found
    exact ⟨saved.snoc label, fun state => (confirmed state).snoc label⟩
  | accepted before =>
    cases found
    obtain ⟨saved, confirmed⟩ := since _ before
    exact ⟨saved.snoc label, fun state => (confirmed state).snoc label⟩
  | saved saved =>
    cases found
    exact ⟨⟨label, by simp, _, saved, rfl⟩, nofun⟩
  | confirmed confirmed =>
    cases found
    obtain ⟨⟨code, request⟩, saved⟩ := onConfirm _ confirmed
    exact ⟨saved.snoc label, fun _ => ⟨later, label, [], _, code, rfl, request, confirmed, rfl, saved⟩⟩
  | removed => cases found

theorem reads_of_removes {event : Event} (removed : removes event = true) : reads event = false := by
  unfold removes at removed
  split at removed
  · rfl
  · rfl
  · rfl
  · cases removed

theorem readSince_removed (past : List (I × Event)) (gone : removes label.2 = true) :
    ReadSince cfg requests (past ++ [label]) [] := by
  intro i p fresh
  rw [List.append_nil, List.reverse_append] at fresh
  have unread : ¬ (label.1 = i ∧ reads label.2 = true) := by simp [reads_of_removes gone]
  have disturbed : undisturbed removes i ([label].reverse ++ past.reverse) = false := by
    simp [undisturbed, unread, gone]
  cases disturbed.symm.trans fresh

theorem ReadSince.step {past : List (I × Event)} {z : Store × (I → Program Unit)}
    (known : ReadSince cfg requests past later) (since : Since cfg requests later (viewed cfg y.1))
    (last : Interleave (exec cfg) y label z) : ReadSince cfg requests past (later ++ [label]) := by
  intro i p fresh read
  rw [← List.append_assoc] at fresh read
  rw [List.reverse_append] at fresh
  rw [noteOf_snoc] at read
  by_cases here : label.1 = i ∧ reads label.2 = true
  · obtain ⟨mine, reading⟩ := here
    rw [if_pos mine] at read
    have row := viewed_of_read last reading read
    rw [kept_of_read last reading] at row
    exact (since _ row).1.snoc label
  · have rest : (!removes label.2 && undisturbed removes i (past ++ later).reverse) = true := (if_neg here).symm.trans fresh
    refine (known i p (Bool.and_eq_true_iff.mp rest).2 ?_).snoc label
    split at read
    next mine =>
      have other : reads label.2 = false := Bool.eq_false_iff.mpr fun reading => here ⟨mine, reading⟩
      rwa [(track_kept _ _ _).2.1 other] at read
    next => exact read

def Proven (cfg : Config) (requests : I → Request) (start : Store) (labels : List (I × Event)) (secret : Option Bytes) :
    Prop :=
  (start.hasConfirmedTOTP cfg.subject = true ∧ stored cfg start = secret) ∨
    ∃ i code step known, requests i = .confirm code ∧
      ((i, ⟨.compare known code, some step⟩) : I × Event) ∈ labels ∧ secret = some known

omit [DecidableEq I] in
theorem Proven.snoc (proven : Proven cfg requests start labels secret) (label : I × Event) :
    Proven cfg requests start (labels ++ [label]) secret := by
  rcases proven with first | ⟨i, code, step, known, request, member, same⟩
  · exact .inl first
  · exact .inr ⟨i, code, step, known, request, List.mem_append_left _ member, same⟩

variable (named : Named cfg start) (run : Run (Interleave (exec cfg)) (start, fun i => (requests i).program cfg) labels y)
include named run

theorem unconfirmed_of_run : Stands confirming Unconfirmed cfg requests labels y.1 := by
  have calm : steady (fun _ => false) confirming labels.reverse = true := steady_never labels.reverse
  refine stands_of_run named run calm (fun prev unconfirmed w => ?_)
    fun _ moves kept _ prev agrees unconfirmed => moves.unconfirmed kept (agrees unconfirmed)
  cases prev with
  | none => nofun
  | some e =>
    intro found
    cases found
    exact unconfirmed e rfl

theorem confirmed_step {z : Store × (I → Program Unit)} (step : Interleave (exec cfg) y label z)
    (undisturbed' : saving label.2 = true → undisturbed confirming label.1 labels.reverse = true)
    (before : Confirmed (viewed cfg y.1)) (notRemoved : removes label.2 = false) : Confirmed (viewed cfg z.1) := by
  obtain ⟨allowed, moves⟩ := step_of_run named run step
  refine moves.confirmed_kept before (Option.eq_none_iff_forall_ne_some.mpr fun e saved => ?_) notRemoved
  obtain ⟨w, found, confirmed⟩ := before
  obtain ⟨prev, read, unconfirmed⟩ := allows_saves allowed saved
  have quiet := undisturbed' (by rw [saving, saved]; rfl)
  have open' := unconfirmed_of_run named run label.1 prev quiet read unconfirmed w found
  cases confirmed.symm.trans open'

theorem confirmed_of_run (calm : steady saving confirming labels.reverse = true) {earlier : List (I × Event)}
    (split : labels = earlier ++ label :: later) (confirmed : confirming label.2 = true)
    (kept : ∀ other ∈ later, removes other.2 = false) : Confirmed (viewed cfg y.1) := by
  refine run.since (fun later t => (∀ other ∈ later, removes other.2 = false) → Confirmed (viewed cfg t.1)) split
    (fun t t' before step _ => ?_) (fun since l rest t t' position before step held kept' => ?_) kept
  · obtain ⟨-, moves⟩ := step_of_run named before step
    exact moves.confirmed_of_confirming confirmed
  · rw [split, position, ← List.cons_append, ← List.append_assoc] at calm
    obtain ⟨-, undisturbed'⟩ := steady_at calm
    refine confirmed_step named before step undisturbed' (held fun other member => ?_) (kept' l (by simp))
    exact kept' other (List.mem_append_left _ member)

theorem since_of_run (calm : steady confirming removes labels.reverse = true) {earlier : List (I × Event)}
    (split : labels = earlier ++ label :: later) (gone : removes label.2 = true) :
    Since cfg requests later (viewed cfg y.1) := by
  refine (run.since (fun later t => Since cfg requests later (viewed cfg t.1) ∧
    ReadSince cfg requests (earlier ++ [label]) later) split
    (fun t t' before step => ⟨fun w found => ?_, readSince_removed earlier gone⟩)
    (fun since l rest t t' position before step held => ?_)).1
  · obtain ⟨-, moves⟩ := step_of_run named before step
    cases (moves.none_of_removes gone).symm.trans found
  · rw [split, position, ← List.cons_append, ← List.append_assoc] at calm
    obtain ⟨-, here⟩ := steady_at calm
    obtain ⟨allowed, moves⟩ := step_of_run named before step
    obtain ⟨recent, known⟩ := held
    refine ⟨recent.moves moves fun e confirmed => ?_, known.step recent step⟩
    obtain ⟨presents, p, secret, read, -, sealing, -⟩ := allows_confirms allowed confirmed
    rw [presents_noteOf] at presents
    refine ⟨eq_confirm_of_presents presents, ?_⟩
    rw [← List.singleton_append, ← List.append_assoc] at here read
    rw [← sealing]
    exact known l.1 p (here (by rw [confirming, confirmed]; rfl)) read

theorem accepted_of_run {i : I} {secret : Bytes} (accepted : (noteOf cfg requests labels i).accepted = some secret) :
    ∃ step, Matched requests labels i secret step := by
  induction run with
  | nil => cases accepted
  | snoc before last ih =>
    rename_i middle after earlier label
    obtain ⟨allowed, -⟩ := step_of_run named before last
    rw [noteOf_snoc] at accepted
    split at accepted
    next mine =>
      subst mine
      rcases accepted_track allowed accepted with known | ⟨step, matched⟩
      · obtain ⟨step, hit⟩ := ih known
        exact ⟨step, hit.snoc label⟩
      · exact ⟨step, (matched_of_run named before matched).snoc label⟩
    next =>
      obtain ⟨step, hit⟩ := ih accepted
      exact ⟨step, hit.snoc label⟩

theorem proven_of_run {w : View} (found : viewed cfg y.1 = some w) (confirmed : w.confirmed = true) :
    Proven cfg requests start labels w.secret := by
  induction run generalizing w with
  | nil =>
    exact .inl ⟨(confirmed_viewed start).mpr ⟨w, found, confirmed⟩, by rw [stored, found]; rfl⟩
  | snoc before last ih =>
    rename_i middle after earlier label
    obtain ⟨allowed, moves⟩ := step_of_run named before last
    rw [found] at moves
    generalize shape : some w = v' at moves
    cases moves with
    | quiet => exact (ih shape.symm confirmed).snoc label
    | accepted same =>
      cases shape
      exact (ih same confirmed).snoc label
    | saved =>
      cases shape
      cases confirmed
    | confirmed confirms' =>
      cases shape
      obtain ⟨presents, p, secret, -, -, -, opened, accepted⟩ := allows_confirms allowed confirms'
      rw [presents_noteOf] at presents
      obtain ⟨code, request⟩ := eq_confirm_of_presents presents
      obtain ⟨step, code', member, given⟩ := accepted_of_run named before accepted
      rw [request] at given
      cases given code rfl
      exact .inr ⟨label.1, _, step, secret, request, List.mem_append_left _ member, opened⟩
    | removed => cases shape

end

/-- A confirmation holds until a removal as long as no enrollment is saved on a read from before a confirmation. After
a removal the factor is confirmed again only by a request that confirms what was saved since, as long as nothing
removes the row between the read of a confirmation and its write. A confirmed secret is one that a code given to a
confirmation matched. -/
theorem confirmed_until_removed {I : Type} [DecidableEq I] (cfg : Config) {start : Store} (named : Named cfg start)
    (requests : I → Request) {labels : List (I × Event)} {y : Store × (I → Program Unit)}
    (run : Run (Interleave (exec cfg)) (start, fun i => (requests i).program cfg) labels y) :
    (steady saving confirming labels.reverse = true → ∀ earlier label later, labels = earlier ++ label :: later →
      confirming label.2 = true → (∀ other ∈ later, removes other.2 = false) →
      y.1.hasConfirmedTOTP cfg.subject = true) ∧
    (steady confirming removes labels.reverse = true → ∀ earlier label later, labels = earlier ++ label :: later →
      removes label.2 = true → y.1.hasConfirmedTOTP cfg.subject = true →
      ConfirmedIn cfg requests later (stored cfg y.1)) ∧
    (y.1.hasConfirmedTOTP cfg.subject = true → Proven cfg requests start labels (stored cfg y.1)) := by
  refine ⟨fun calm earlier label later split confirmed kept => ?_, fun calm earlier label later split gone state => ?_,
    fun state => ?_⟩
  · exact (confirmed_viewed y.1).mpr (confirmed_of_run named run calm split confirmed kept)
  · obtain ⟨w, found, confirmed⟩ := (confirmed_viewed y.1).mp state
    rw [stored, found]
    exact (since_of_run named run calm split gone w found).2 confirmed
  · obtain ⟨w, found, confirmed⟩ := (confirmed_viewed y.1).mp state
    rw [stored, found]
    exact proven_of_run named run found confirmed

namespace Sample

/-- Two confirmations of one secret, a removal, a confirmation of another secret, and an enrollment. -/
def changing : Nat → Request
  | 0 | 1 => .confirm (ascii "123456")
  | 2 => .disable .recovery (ascii "GOOD")
  | 3 => .confirm (ascii "654321")
  | _ => .enroll

def changed (turns : List (Nat × Turn)) : List (Nat × Event) × Store × (Nat → Program Unit) :=
  schedule (exec config) (pending, fun i => (changing i).program config) turns

def inTurn : List (Nat × Turn) :=
  List.replicate 10 (0, supplied noon) ++ List.replicate 9 (2, supplied noon) ++ List.replicate 5 (4, supplied noon) ++
    List.replicate 10 (3, supplied (noon + Duration.minute))

/-- The enrollment reads the row before the confirmation and saves after it. -/
def overwriting : List (Nat × Turn) :=
  List.replicate 4 (4, supplied noon) ++ List.replicate 10 (0, supplied noon) ++ [(4, supplied noon)]

/-- A confirmation is about to write when another one is made and the factor is removed. -/
def restoring : List (Nat × Turn) :=
  List.replicate 9 (1, supplied noon) ++ List.replicate 10 (0, supplied (noon + Duration.minute)) ++
    List.replicate 9 (2, supplied (noon + Duration.minute)) ++ [(1, supplied (noon + Duration.minute))]

theorem run_changed (turns : List (Nat × Turn)) :
    Run (Interleave (exec config)) (pending, fun i => (changing i).program config) (changed turns).1 (changed turns).2 :=
  run_schedule (exec config) (pending, fun i => (changing i).program config) turns

end Sample

open Sample

/-- A factor is confirmed, removed, enrolled and confirmed again. -/
theorem confirmed_until_removed_in_turn : ∃ labels y earlier label later,
    Run (Interleave (exec config)) (pending, fun i => (changing i).program config) labels y ∧
      steady saving confirming labels.reverse = true ∧ steady confirming removes labels.reverse = true ∧
      labels = earlier ++ label :: later ∧ removes label.2 = true ∧ y.1.hasConfirmedTOTP .sample = true ∧
      ConfirmedIn config changing later (stored config y.1) ∧
      Proven config changing pending labels (stored config y.1) := by
  have run := run_changed inTurn
  obtain ⟨holds, back, proven⟩ := confirmed_until_removed config pending_named changing run
  have calm : steady confirming removes (changed inTurn).1.reverse = true := by decide +kernel
  have calm' : steady saving confirming (changed inTurn).1.reverse = true := by decide +kernel
  obtain ⟨last, atEnd, confirmed⟩ := split_at (changed inTurn).1 33
    (fun label => confirming label.2) (by decide +kernel)
  obtain ⟨label, split, removed⟩ := split_at (changed inTurn).1 18
    (fun label => removes label.2) (by decide +kernel)
  have state := holds calm' _ _ _ atEnd confirmed (by decide +kernel)
  exact ⟨_, _, _, label, _, run, calm', calm, split, removed, state, back calm _ _ _ split removed state, proven state⟩

/-- An enrollment saves over a row that was confirmed after it read it; a confirmation brings back a row that was
removed after it read it. -/
theorem confirmation_and_removal_undone :
    (∃ labels y earlier label later,
      Run (Interleave (exec config)) (pending, fun i => (changing i).program config) labels y ∧
      labels = earlier ++ label :: later ∧ confirming label.2 = true ∧ (∀ other ∈ later, removes other.2 = false) ∧
      y.1.hasConfirmedTOTP .sample = false) ∧
    ∃ labels y earlier label later,
      Run (Interleave (exec config)) (pending, fun i => (changing i).program config) labels y ∧
      labels = earlier ++ label :: later ∧ removes label.2 = true ∧ (∀ other ∈ later, saving other.2 = false) ∧
      y.1.hasConfirmedTOTP .sample = true := by
  constructor
  · obtain ⟨label, split, confirmed⟩ := split_at (changed overwriting).1 13
      (fun label => confirming label.2) (by decide +kernel)
    exact ⟨_, _, _, label, _, run_changed overwriting, split, confirmed, by decide +kernel,
      by decide +kernel⟩
  · obtain ⟨label, split, removed⟩ := split_at (changed restoring).1 27
      (fun label => removes label.2) (by decide +kernel)
    exact ⟨_, _, _, label, _, run_changed restoring, split, removed, by decide +kernel,
      by decide +kernel⟩

end Egauth.Mfa
