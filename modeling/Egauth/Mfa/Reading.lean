import Egauth.Mfa.Row

/-! What a request read of the enrollment, and what happened since.

A request decides on a row that it read earlier and writes to the one that is
there then. A fact about the row that was read carries over to the write as
long as nothing that clashes with the fact comes between.
-/

set_option autoImplicit false

namespace Egauth.Mfa
open Egauth.Core Prog

def reads : Event → Bool
  | ⟨.getTOTP, _⟩ => true
  | _ => false

def replaces (event : Event) : Bool := (saves event).isSome || removes event

def confirming (event : Event) : Bool := (confirms event).isSome

section
variable {I : Type} [DecidableEq I] {clashes : Event → Bool}

/-- Nothing of a kind has happened since the request read the enrollment last. The newest event comes first. -/
def undisturbed (clashes : Event → Bool) (i : I) : List (I × Event) → Bool
  | [] => true
  | label :: earlier => if label.1 = i ∧ reads label.2 then true else !clashes label.2 && undisturbed clashes i earlier

/-- Whatever relies on a read was undisturbed since then. -/
def steady (relies clashes : Event → Bool) : List (I × Event) → Bool
  | [] => true
  | label :: earlier =>
    steady relies clashes earlier && (!relies label.2 || undisturbed clashes label.1 earlier)

theorem steady_mono {relies relies' : Event → Bool} {events : List (I × Event)}
    (fewer : ∀ event, relies' event = true → relies event = true) (calm : steady relies clashes events = true) :
    steady relies' clashes events = true := by
  induction events with
  | nil => rfl
  | cons label earlier ih =>
    obtain ⟨before, here⟩ := Bool.and_eq_true_iff.mp calm
    refine Bool.and_eq_true_iff.mpr ⟨ih before, ?_⟩
    cases relied : relies' label.2 with
    | false => rfl
    | true => simpa [fewer _ relied] using here

theorem steady_at {relies : Event → Bool} {earlier later : List (I × Event)} {label : I × Event}
    (calm : steady relies clashes (earlier ++ label :: later).reverse = true) :
    steady relies clashes earlier.reverse = true ∧
      (relies label.2 = true → undisturbed clashes label.1 earlier.reverse = true) := by
  rw [List.reverse_append, List.reverse_cons, List.append_assoc] at calm
  generalize later.reverse = newer at calm
  induction newer with
  | nil =>
    obtain ⟨before, here⟩ := Bool.and_eq_true_iff.mp calm
    exact ⟨before, fun relied => by simpa [relied] using here⟩
  | cons newest past ih => exact ih (Bool.and_eq_true_iff.mp calm).1

theorem steady_never (events : List (I × Event)) : steady (fun _ => false) clashes events = true := by
  induction events with
  | nil => rfl
  | cons label earlier ih => simp [steady, ih]

end

def noteOf {I : Type} [DecidableEq I] (cfg : Config) (requests : I → Request) (labels : List (I × Event)) (i : I) : Note :=
  follow (order cfg) (.start (requests i).presents) (own i labels)

section
variable {I : Type} [DecidableEq I] {cfg : Config} {requests : I → Request} {start : Store} {labels : List (I × Event)}
  {y : Store × (I → Program Unit)} {event : Event} {g : Note}

/-- What a request presents stays, and each of the rest is told by one call only. -/
theorem track_kept (g : Note) (c : Call) (r : Reply c) : ((order cfg).track g c r).presents = g.presents ∧
    (reads ⟨c, r⟩ = false → ((order cfg).track g c r).read = g.read) ∧
    (((order cfg).track g c r).matched = g.matched ∨ ∃ secret code, c = .compare secret code) ∧
    (((order cfg).track g c r).accepted = g.accepted ∨ ∃ secret step, c = .markTOTPUsed secret step) := by
  cases c with
  | getTOTP => rcases r with (_ | _) | _ <;> exact ⟨rfl, nofun, .inl rfl, .inl rfl⟩
  | reserve f => rcases r with ⟨_, _ | _⟩ <;> exact ⟨rfl, fun _ => rfl, .inl rfl, .inl rfl⟩
  | compare secret code => exact ⟨rfl, fun _ => rfl, .inr ⟨_, _, rfl⟩, .inl rfl⟩
  | markTOTPUsed secret step => rcases r with _ | _ | _ <;> exact ⟨rfl, fun _ => rfl, .inl rfl, .inr ⟨_, _, rfl⟩⟩
  | _ => exact ⟨rfl, fun _ => rfl, .inl rfl, .inl rfl⟩

theorem noteOf_snoc (label : I × Event) (i : I) : noteOf cfg requests (labels ++ [label]) i =
    if label.1 = i then (order cfg).track (noteOf cfg requests labels i) label.2.1 label.2.2
    else noteOf cfg requests labels i := by
  unfold noteOf
  rw [own_append, follow_append]
  split
  next mine =>
    subst mine
    simp [own, follow]
  next other =>
    rw [own_cons_other other]
    rfl

variable {z : Store × (I → Program Unit)}

/-- Each step of a run is one the request may make after what it was told, and moves the view. -/
theorem step_of_run (named : Named cfg start) {label : I × Event}
    (run : Run (Interleave (exec cfg)) (start, fun i => (requests i).program cfg) labels y)
    (step : Interleave (exec cfg) y label z) :
    (order cfg).allows (noteOf cfg requests labels label.1) label.2.1 ∧
      Moves cfg (viewed cfg y.1) label.2 (viewed cfg z.1) := by
  have yields (i : I) : Yields (order cfg) (.start (requests i).presents) ((requests i).program cfg) fun _ _ => True :=
    yields_program cfg (requests i)
  obtain ⟨-, learned⟩ := learned_of_requests named requests run
  have allowed := allows_of_run run step (yields label.1) (learned label.1)
  obtain ⟨o, -, -, replied, -⟩ := step
  have moves := moves_exec (s := y.1) o allowed
  rw [replied] at moves
  exact ⟨allowed, moves⟩

theorem kept_of_read {label : I} (step : Interleave (exec cfg) y (label, event) z)
    (reading : reads event = true) : z.1 = y.1 := by
  obtain ⟨o, -, -, replied, -⟩ := step
  obtain ⟨c, r⟩ := event
  cases c with
  | getTOTP => exact (congrArg Prod.snd replied).symm.trans (exec_reads rfl)
  | _ => cases reading

theorem viewed_of_read {label : I}
    (step : Interleave (exec cfg) y (label, event) z) {prev : Option Enrollment} (reading : reads event = true)
    (told : ((order cfg).track g event.1 event.2).read = some prev) : viewed cfg z.1 = prev.map (View.of cfg) := by
  rw [kept_of_read step reading, viewed]
  obtain ⟨o, -, -, replied, -⟩ := step
  obtain ⟨c, r⟩ := event
  cases c with
  | getTOTP =>
    unfold exec performed Store.getTOTP at replied
    dsimp only at replied
    split at replied
    · cases congrArg Prod.fst replied
      cases told
    split at replied
    next found =>
      cases congrArg Prod.fst replied
      cases told
      rw [found]
    next e found =>
      cases congrArg Prod.fst replied
      cases told
      rw [found]
  | _ => cases reading

/-- What a request read last agrees with the row, while nothing that clashes has happened since. -/
def Stands (clashes : Event → Bool) (agrees : Option Enrollment → Option View → Prop) (cfg : Config)
    (requests : I → Request) (labels : List (I × Event)) (s : Store) : Prop :=
  ∀ i prev, undisturbed clashes i labels.reverse = true → (noteOf cfg requests labels i).read = some prev →
    agrees prev (viewed cfg s)

/-- The agreement stands along a run when every event that does not clash keeps it. Such an event may rely on its own
request's reading. -/
theorem stands_of_run {relies clashes : Event → Bool} {agrees : Option Enrollment → Option View → Prop}
    (named : Named cfg start)
    (run : Run (Interleave (exec cfg)) (start, fun i => (requests i).program cfg) labels y)
    (calm : steady relies clashes labels.reverse = true) (same : ∀ prev, agrees prev (prev.map (View.of cfg)))
    (kept : ∀ {g : Note} {event : Event} {v v' : Option View}, (order cfg).allows g event.1 → Moves cfg v event v' →
      clashes event = false → (relies event = true → ∀ prev, g.read = some prev → agrees prev v) →
      ∀ prev, agrees prev v → agrees prev v') : Stands clashes agrees cfg requests labels y.1 := by
  induction run with
  | nil =>
    intro i prev _ read
    cases read
  | snoc before last ih =>
    rename_i middle after earlier label
    rw [List.reverse_append] at calm
    obtain ⟨calmBefore, relied⟩ := Bool.and_eq_true_iff.mp calm
    have stands := ih calmBefore
    obtain ⟨allowed, moves⟩ := step_of_run named before last
    intro i prev fresh read
    rw [List.reverse_append] at fresh
    rw [noteOf_snoc] at read
    by_cases here : label.1 = i ∧ reads label.2 = true
    · -- The request reads the row itself.
      obtain ⟨mine, reading⟩ := here
      rw [if_pos mine] at read
      rw [viewed_of_read last reading read]
      exact same prev
    · have split : clashes label.2 = false ∧ undisturbed clashes i earlier.reverse = true := by
        have rest : (!clashes label.2 && undisturbed clashes i earlier.reverse) = true := (if_neg here).symm.trans fresh
        simpa using rest
      have told : (noteOf cfg requests earlier i).read = some prev := by
        split at read
        next mine =>
          have other : reads label.2 = false := Bool.eq_false_iff.mpr fun reading => here ⟨mine, reading⟩
          rwa [(track_kept _ _ _).2.1 other] at read
        next => exact read
      refine kept allowed moves split.1 (fun relying prev' own => ?_) prev (stands i prev split.2 told)
      exact stands label.1 prev' (by simpa [relying] using relied) own

def SameSecret (cfg : Config) (prev : Option Enrollment) (v : Option View) : Prop :=
  ∀ e, prev = some e → ∃ w, v = some w ∧ w.secret = cfg.secret e.sealedSecret

theorem allows_confirms {e : Enrollment} (allowed : (order cfg).allows g event.1)
    (confirmed : confirms event = some e) : g.presents.isSome = true ∧ ∃ p secret, g.read = some (some p) ∧
      p.confirmed = false ∧ p.sealedSecret = e.sealedSecret ∧ cfg.secret e.sealedSecret = some secret ∧
      g.accepted = some secret := by
  obtain ⟨c, r⟩ := event
  cases c with
  | confirmEnrollment e' hashes =>
    cases r with
    | error err => cases confirmed
    | ok _ =>
      cases confirmed
      exact allowed.2
  | _ => cases confirmed

variable {secret : Bytes} {step : Int}

theorem allows_accepts (allowed : (order cfg).allows g event.1) (accepted : accepts event = some (secret, step)) :
    g.Holds cfg secret ∧ g.matched = some (secret, step) := by
  obtain ⟨c, r⟩ := event
  cases c with
  | markTOTPUsed secret' step' =>
    rcases r with err | _ | _
    · cases accepted
    · cases accepted
    · cases accepted
      exact allowed
  | _ => cases accepted

theorem presents_noteOf (labels : List (I × Event)) (i : I) :
    (noteOf cfg requests labels i).presents = (requests i).presents := by
  induction labels using List.reverseRecOn with
  | nil => rfl
  | append_singleton labels label ih =>
    rw [noteOf_snoc]
    split
    · rw [(track_kept _ _ _).1, ih]
    · exact ih

/-- A comparison of the request hit the secret at the step. A confirmation compares the code it was given. -/
def Matched (requests : I → Request) (labels : List (I × Event)) (i : I) (secret : Bytes) (step : Int) : Prop :=
  ∃ code, ((i, ⟨.compare secret code, some step⟩) : I × Event) ∈ labels ∧
    ∀ given, (requests i).presents = some given → code = given

omit [DecidableEq I] in
theorem Matched.snoc {i : I} (matched : Matched requests labels i secret step)
    (label : I × Event) : Matched requests (labels ++ [label]) i secret step := by
  obtain ⟨code, member, given⟩ := matched
  exact ⟨code, List.mem_append_left _ member, given⟩

theorem matched_track (allowed : (order cfg).allows g event.1)
    (told : ((order cfg).track g event.1 event.2).matched = some (secret, step)) :
    g.matched = some (secret, step) ∨
      ∃ code, event = ⟨.compare secret code, some step⟩ ∧ ∀ given, g.presents = some given → code = given := by
  obtain ⟨c, r⟩ := event
  obtain ⟨-, -, same | ⟨other, code, rfl⟩, -⟩ := track_kept g c r
  · exact .inl (same.symm.trans told)
  · obtain ⟨step', found, same⟩ := Option.map_eq_some_iff.mp told
    have reply : r = some step' := found
    cases same
    subst reply
    exact .inr ⟨code, rfl, allowed.2.2⟩

theorem accepted_track (allowed : (order cfg).allows g event.1)
    (told : ((order cfg).track g event.1 event.2).accepted = some secret) :
    g.accepted = some secret ∨ ∃ step, g.matched = some (secret, step) := by
  obtain ⟨c, r⟩ := event
  obtain ⟨-, -, -, same | ⟨other, step, rfl⟩⟩ := track_kept g c r
  · exact .inl (same.symm.trans told)
  · rcases r with err | _ | _
    · exact .inl told
    · exact .inl told
    · cases told
      exact .inr ⟨step, allowed.2⟩

theorem matched_of_run (named : Named cfg start)
    (run : Run (Interleave (exec cfg)) (start, fun i => (requests i).program cfg) labels y) {i : I}
    (told : (noteOf cfg requests labels i).matched = some (secret, step)) :
    Matched requests labels i secret step := by
  induction run with
  | nil => cases told
  | snoc before last ih =>
    rename_i middle after earlier label
    obtain ⟨allowed, -⟩ := step_of_run named before last
    rw [noteOf_snoc] at told
    split at told
    next mine =>
      subst mine
      rcases matched_track allowed told with known | ⟨code, compared, given⟩
      · exact (ih known).snoc label
      · rw [presents_noteOf] at given
        exact ⟨code, by simp [← compared], given⟩
    next => exact (ih told).snoc label

theorem secret_moves {v' : Option View} {v : View} (allowed : (order cfg).allows g event.1)
    (moves : Moves cfg (some v) event v') (kept : replaces event = false)
    (relied : confirming event = true → ∀ prev, g.read = some prev → SameSecret cfg prev (some v)) :
    ∃ w, v' = some w ∧ w.secret = v.secret := by
  cases moves with
  | quiet => exact ⟨v, rfl, rfl⟩
  | accepted same =>
    cases same
    exact ⟨_, rfl, rfl⟩
  | saved saved => simp [replaces, saved] at kept
  | removed removed => simp [replaces, removed] at kept
  | confirmed confirmed =>
    -- The request confirms the secret it read.
    obtain ⟨-, p, secret, read, -, same, -⟩ := allows_confirms allowed confirmed
    obtain ⟨w, again, holds⟩ := relied (by rw [confirming, confirmed]; rfl) (some p) read p rfl
    cases again
    exact ⟨_, rfl, by rw [holds, same]⟩

/-- As long as nothing replaces the row between a confirmation and its read, what was read has the secret of the row
while nothing replaces it. -/
theorem sameSecret_of_run (named : Named cfg start)
    (run : Run (Interleave (exec cfg)) (start, fun i => (requests i).program cfg) labels y)
    (calm : steady confirming replaces labels.reverse = true) :
    Stands replaces (SameSecret cfg) cfg requests labels y.1 := by
  refine stands_of_run named run calm (fun prev e read => ?_) fun allowed moves kept relied prev agrees e read => ?_
  · exact ⟨.of cfg e, by rw [read]; rfl, rfl⟩
  · obtain ⟨v, found, holds⟩ := agrees e read
    subst found
    obtain ⟨w, after, same⟩ := secret_moves allowed moves kept relied
    exact ⟨w, after, same.trans holds⟩

end
end Egauth.Mfa
