import Egauth.Semantics.Program

/-! Disciplines: which calls a program makes, given what it was told before.

A discipline keeps a note of a program's own calls and their replies. It says
which replies are possible and which calls are allowed then. That a program
obeys is a fact about its tree alone; a system of programs whose replies are
the possible ones sees only allowed calls.
-/

set_option autoImplicit false

namespace Egauth

structure Discipline (C : Type) (R : C → Type) (G : Type) where
  track : G → (c : C) → R c → G
  learns : G → (c : C) → R c → Prop
  allows : G → C → Prop

namespace Prog
variable {C : Type} {R : C → Type} {E A B G : Type} (d : Discipline C R G)

/-- The program makes allowed calls only, and ends as `post` says, whatever the possible replies. -/
def Obeys : G → Prog C R E A → (G → Except E A → Prop) → Prop
  | g, ret a, post => post g (.ok a)
  | g, fail err, post => post g (.error err)
  | g, call c next, post => d.allows g c ∧ ∀ r, d.learns g c r → Obeys (d.track g c r) (next r) post

def andThen (f : A → Prog C R E B) (post : G → Except E B → Prop) : G → Except E A → Prop
  | g, .ok a => Obeys d g (f a) post
  | g, .error err => post g (.error err)

variable {d} {g : G} {p : Prog C R E A} {post : G → Except E A → Prop} {events : List ((c : C) × R c)}

@[simp] theorem obeys_call {c : C} {next : R c → Prog C R E A} : Obeys d g (call c next) post ↔
      d.allows g c ∧ ∀ r, d.learns g c r → Obeys d (d.track g c r) (next r) post := Iff.rfl

theorem Obeys.mono {post post' : G → Except E A → Prop} (obeys : Obeys d g p post)
    (weaker : ∀ g result, post g result → post' g result) : Obeys d g p post' := by
  induction p generalizing g with
  | ret a => exact weaker g _ obeys
  | fail err => exact weaker g _ obeys
  | call c next ih => exact ⟨obeys.1, fun r possible => ih r (obeys.2 r possible)⟩

theorem obeys_bind {f : A → Prog C R E B} {post : G → Except E B → Prop} :
    Obeys d g (p >>= f) post ↔ Obeys d g p (andThen d f post) := by
  induction p generalizing g with
  | ret a => exact Iff.rfl
  | fail err => exact Iff.rfl
  | call c next ih =>
    simp only [call_bind, obeys_call]
    exact and_congr_right fun _ => forall_congr' fun r => imp_congr_right fun _ => ih r

theorem obeys_perform {c : C} {f : R c → Prog C R E A} :
    Obeys d g (perform c >>= f) post ↔ d.allows g c ∧ ∀ r, d.learns g c r → Obeys d (d.track g c r) (f r) post :=
  Iff.rfl

/-- The rule of sequences: what the first program ends with is what the second needs. -/
theorem Obeys.bind {f : A → Prog C R E B} {mid : G → Except E A → Prop} {post : G → Except E B → Prop}
    (first : Obeys d g p mid) (onward : ∀ g a, mid g (.ok a) → Obeys d g (f a) post)
    (failed : ∀ g err, mid g (.error err) → post g (.error err)) : Obeys d g (p >>= f) post := by
  refine obeys_bind.mpr (first.mono fun g result ends => ?_)
  cases result with
  | ok a => exact onward g a ends
  | error err => exact failed g err ends

theorem obeys_attempt {post : G → Except E (Except E A) → Prop} :
    Obeys d g p.attempt post ↔ Obeys d g p fun g result => post g (.ok result) := by
  induction p generalizing g with
  | ret a => exact Iff.rfl
  | fail err => exact Iff.rfl
  | call c next ih =>
    simp only [attempt_call, obeys_call]
    exact and_congr_right fun _ => forall_congr' fun r => imp_congr_right fun _ => ih r

theorem obeys_refail {f : E → E} :
    Obeys d g (p.refail f) post ↔ Obeys d g p fun g result => post g (result.mapError f) := by
  induction p generalizing g with
  | ret a => exact Iff.rfl
  | fail err => exact Iff.rfl
  | call c next ih =>
    simp only [refail_call, obeys_call]
    exact and_congr_right fun _ => forall_congr' fun r => imp_congr_right fun _ => ih r

/-- A note that is part of another one: what is allowed with the larger is allowed with the part. -/
theorem Obeys.project {G' : Type} {d' : Discipline C R G'} (part : G → G') (obeys : Obeys d g p post)
    (tracks : ∀ g c r, part (d.track g c r) = d'.track (part g) c r)
    (learns : ∀ g c r, d'.learns (part g) c r → d.learns g c r) (allows : ∀ g c, d.allows g c → d'.allows (part g) c) :
    Obeys d' (part g) p fun g' result => ∃ g, part g = g' ∧ post g result := by
  induction p generalizing g with
  | ret a => exact ⟨g, rfl, obeys⟩
  | fail err => exact ⟨g, rfl, obeys⟩
  | call c next ih =>
    refine ⟨allows g c obeys.1, fun r possible => ?_⟩
    rw [← tracks]
    exact ih r (obeys.2 r (learns g c r possible))

/-- What no call can undo is still so at the end. -/
theorem Obeys.stable {holds : G → Prop} (obeys : Obeys d g p post)
    (stable : ∀ g c r, holds g → holds (d.track g c r)) (start : holds g) :
    Obeys d g p fun g result => holds g ∧ post g result := by
  induction p generalizing g with
  | ret a => exact ⟨start, obeys⟩
  | fail err => exact ⟨start, obeys⟩
  | call c next ih => exact ⟨obeys.1, fun r possible => ih r (obeys.2 r possible) (stable g c r start)⟩

/-- The program obeys, and meets `met` where it returns. -/
def Yields (d : Discipline C R G) (g : G) (p : Prog C R E A) (met : G → A → Prop) : Prop :=
  Obeys d g p fun g result => ∀ a, result = .ok a → met g a

section
variable {met : G → A → Prop} {f : A → Prog C R E B} {met' : G → B → Prop}

theorem yields_ret {a : A} : Yields d g (ret a : Prog C R E A) met ↔ met g a :=
  ⟨fun yields => yields a rfl, fun holds _ same => Except.ok.inj same ▸ holds⟩

theorem yields_fail {err : E} : Yields d g (fail err : Prog C R E A) met := fun _ impossible => nomatch impossible

theorem yields_perform {c : C} {f : R c → Prog C R E A} : Yields d g (perform c >>= f) met ↔
    d.allows g c ∧ ∀ r, d.learns g c r → Yields d (d.track g c r) (f r) met := Iff.rfl

theorem Yields.bind (first : Yields d g p met)
    (onward : ∀ g a, met g a → Yields d g (f a) met') : Yields d g (p >>= f) met' :=
  Obeys.bind first (fun g a holds => onward g a (holds a rfl)) fun _ _ _ _ impossible => nomatch impossible

theorem Yields.then (first : Yields d g p fun _ _ => True)
    (onward : ∀ g a, Yields d g (f a) met') : Yields d g (p >>= f) met' := first.bind fun g a _ => onward g a

theorem yields_ofExcept {F : Type} {wrap : F → E} {x : Except F A}
    (onward : ∀ a, x = .ok a → Yields d g (f a) met') : Yields d g (ofExcept wrap x >>= f) met' := by
  cases x with
  | ok a => exact onward a rfl
  | error err => exact yields_fail

theorem yields_reply {F : Type} {wrap : F → E} {x : Except F A} (holds : ∀ a, x = .ok a → met g a) :
    Yields d g (ofExcept wrap x : Prog C R E A) met := by
  cases x with
  | ok a => exact yields_ret.mpr (holds a rfl)
  | error err => exact yields_fail

theorem yields_ofOption {err : E} {x : Option A}
    (onward : ∀ a, x = some a → Yields d g (f a) met') : Yields d g (ofOption err x >>= f) met' := by
  cases x with
  | some a => exact onward a rfl
  | none => exact yields_fail

theorem Yields.mono {met' : G → A → Prop} (yields : Yields d g p met) (weaker : ∀ g a, met g a → met' g a) :
    Yields d g p met' := Obeys.mono yields fun g _ holds a returned => weaker g a (holds a returned)

theorem yields_refail {f : E → E} : Yields d g (p.refail f) met ↔ Yields d g p met := by
  refine obeys_refail.trans ⟨fun obeys => Obeys.mono obeys ?_, fun obeys => Obeys.mono obeys ?_⟩
  · rintro g result holds a rfl
    exact holds a rfl
  · rintro g (err | b) holds a returned
    · cases returned
    · exact holds a returned

theorem Yields.stable {holds : G → Prop} (yields : Yields d g p met)
    (stable : ∀ g c r, holds g → holds (d.track g c r)) (start : holds g) :
    Yields d g p fun g a => holds g ∧ met g a :=
  (Obeys.stable yields stable start).mono fun _ _ ends a returned => ⟨ends.1, ends.2 a returned⟩

theorem Yields.of_obeys {post : G → Except E A → Prop} (obeys : Obeys d g p post)
    (weaker : ∀ g a, post g (.ok a) → met g a) : Yields d g p met :=
  obeys.mono fun g _ ends a returned => weaker g a (returned ▸ ends)

end

/-- The discipline that keeps no note and allows some calls after any replies. -/
def only (P : C → Prop) : Discipline C R Unit where
  track _ _ _ := ()
  learns _ _ _ := True
  allows _ c := P c

/-- Every call in the tree is one of these, and every end is as `post` says. -/
def Only (P : C → Prop) (p : Prog C R E A) (post : Except E A → Prop) : Prop :=
  Obeys (only P) () p fun _ result => post result

section
variable {P : C → Prop} {post : Except E A → Prop} {f : A → Prog C R E B}

@[simp] theorem only_ret {a : A} : Only P (ret a : Prog C R E A) post ↔ post (.ok a) := Iff.rfl

@[simp] theorem only_fail {err : E} : Only P (fail err : Prog C R E A) post ↔ post (.error err) := Iff.rfl

@[simp] theorem only_call {c : C} {next : R c → Prog C R E A} :
    Only P (call c next) post ↔ P c ∧ ∀ r, Only P (next r) post :=
  and_congr_right fun _ => forall_congr' fun _ => true_imp_iff

theorem only_perform {c : C} {f : R c → Prog C R E A} :
    Only P (perform c >>= f) post ↔ P c ∧ ∀ r, Only P (f r) post := only_call

theorem only_attempt {post : Except E (Except E A) → Prop} :
    Only P p.attempt post ↔ Only P p fun result => post (.ok result) := obeys_attempt

theorem only_refail {f : E → E} : Only P (p.refail f) post ↔ Only P p fun result => post (result.mapError f) :=
  obeys_refail

theorem Only.mono {post' : Except E A → Prop} (made : Only P p post) (weaker : ∀ result, post result → post' result) :
    Only P p post' := Obeys.mono made fun _ => weaker

theorem Only.bind {mid : Except E A → Prop} {post : Except E B → Prop}
    (first : Only P p mid) (onward : ∀ a, mid (.ok a) → Only P (f a) post)
    (failed : ∀ err, mid (.error err) → post (.error err)) : Only P (p >>= f) post :=
  Obeys.bind first (fun _ => onward) fun _ => failed

/-- A sequence of which something is asked only where it returns. -/
theorem Only.bindOk {mid : A → Prop} {post : B → Prop} (first : Only P p fun result => ∀ a, result = .ok a → mid a)
    (onward : ∀ a, mid a → Only P (f a) fun result => ∀ b, result = .ok b → post b) :
    Only P (p >>= f) fun result => ∀ b, result = .ok b → post b :=
  first.bind (fun a met => onward a (met a rfl)) fun _ _ _ impossible => nomatch impossible

theorem Only.then (first : Only P p fun _ => True)
    (onward : ∀ a, Only P (f a) fun _ => True) : Only P (p >>= f) fun _ => True :=
  first.bind (fun a _ => onward a) fun _ _ => trivial

/-- Calls that are allowed wherever the note meets an invariant, and keep it. -/
theorem Only.obeys (made : Only P p post) (holds : G → Prop) (start : holds g)
    (allowed : ∀ g c, holds g → P c → d.allows g c ∧ ∀ r, d.learns g c r → holds (d.track g c r)) :
    Obeys d g p fun g result => holds g ∧ post result := by
  induction p generalizing g with
  | ret a => exact ⟨start, made⟩
  | fail err => exact ⟨start, made⟩
  | call c next ih =>
    obtain ⟨now, later⟩ := allowed g c start made.1
    exact ⟨now, fun r possible => ih r (made.2 r trivial) (later r possible)⟩

theorem only_any (p : Prog C R E A) : Only (fun _ => True) p fun _ => True := by
  induction p with
  | ret a => trivial
  | fail err => trivial
  | call c next ih => exact ⟨trivial, fun r _ => ih r⟩

/-- An embedded program makes the calls it is given, and ends as it does. -/
theorem Only.embed {C' : Type} {R' : C' → Type} {E' : Type} {P' : C' → Prop} {f : C → C'}
    {reply : (c : C) → R' (f c) → R c} (made : Only P p post) (calls : ∀ c, P c → P' (f c)) :
    Only P' (p.embed f reply : Prog C' R' E' (Except E A)) fun result => ∃ x, result = .ok x ∧ post x := by
  induction p with
  | ret a => exact ⟨_, rfl, made⟩
  | fail err => exact ⟨_, rfl, made⟩
  | call c next ih => exact ⟨calls c made.1, fun r _ => ih _ (made.2 _ trivial)⟩

/-- An embedded program obeys the other discipline where each of its calls is allowed there, and keeps the notes
in step. -/
theorem Yields.embed {C' : Type} {R' : C' → Type} {E' G' : Type} {d' : Discipline C' R' G'} {f : C → C'}
    {reply : (c : C) → R' (f c) → R c} {met : G → A → Prop} {g' : G'} (agree : G → G' → Prop) (yields : Yields d g p met)
    (start : agree g g') (calls : ∀ g g' c, agree g g' → d.allows g c → d'.allows g' (f c) ∧ ∀ r, d'.learns g' (f c) r →
      d.learns g c (reply c r) ∧ agree (d.track g c (reply c r)) (d'.track g' (f c) r)) :
    Yields d' g' (p.embed f reply : Prog C' R' E' (Except E A)) fun g' result =>
      ∃ g, agree g g' ∧ ∀ a, result = .ok a → met g a := by
  induction p generalizing g g' with
  | ret a => exact yields_ret.mpr ⟨g, start, yields⟩
  | fail err => exact yields_ret.mpr ⟨g, start, nofun⟩
  | call c next ih =>
    obtain ⟨allowed, onward⟩ := calls g g' c start yields.1
    refine ⟨allowed, fun r possible => ?_⟩
    obtain ⟨learned, kept⟩ := onward r possible
    exact ih _ (yields.2 _ learned) kept

end

def follow (d : Discipline C R G) (g : G) (events : List ((c : C) × R c)) : G :=
  events.foldl (fun g event => d.track g event.1 event.2) g

def Learned (d : Discipline C R G) : G → List ((c : C) × R c) → Prop
  | _, [] => True
  | g, event :: events => d.learns g event.1 event.2 ∧ Learned d (d.track g event.1 event.2) events

theorem follow_append (g : G) (events events' : List ((c : C) × R c)) :
    follow d g (events ++ events') = follow d (follow d g events) events' := List.foldl_append

theorem learned_append {events' : List ((c : C) × R c)} :
    Learned d g (events ++ events') ↔ Learned d g events ∧ Learned d (follow d g events) events' := by
  induction events generalizing g with
  | nil => simp [Learned, follow]
  | cons event events ih =>
    simp only [List.cons_append, Learned, ih, and_assoc]
    exact Iff.rfl

theorem Obeys.follow {q : Prog C R E A}
    (obeys : Obeys d g p post) (path : Path p events q) (learned : Learned d g events) :
    Obeys d (follow d g events) q post := by
  induction path generalizing g with
  | nil => exact obeys
  | cons _ ih => exact ih (obeys.2 _ learned.1) learned.2

def Permitted (d : Discipline C R G) : G → List ((c : C) × R c) → Prop
  | _, [] => True
  | g, event :: events => d.allows g event.1 ∧ Permitted d (d.track g event.1 event.2) events

theorem Obeys.permitted {q : Prog C R E A}
    (obeys : Obeys d g p post) (path : Path p events q) (learned : Learned d g events) : Permitted d g events := by
  induction path generalizing g with
  | nil => trivial
  | cons _ ih => exact ⟨obeys.1, ih (obeys.2 _ learned.1) learned.2⟩

theorem permitted_append {events' : List ((c : C) × R c)} :
    Permitted d g (events ++ events') ↔ Permitted d g events ∧ Permitted d (follow d g events) events' := by
  induction events generalizing g with
  | nil => simp [Permitted, follow]
  | cons event events ih =>
    simp only [List.cons_append, Permitted, ih, and_assoc]
    exact Iff.rfl

theorem Permitted.allowed (permitted : Permitted d g events) : ∀ event ∈ events, ∃ g, d.allows g event.1 := by
  induction events generalizing g with
  | nil => simp
  | cons event events ih =>
    intro other member
    rcases List.mem_cons.mp member with rfl | later
    · exact ⟨g, permitted.1⟩
    · exact ih permitted.2 other later

section
variable {S O I : Type} [DecidableEq I] {exec : O → S → (c : C) → R c × S} {x y : S × (I → Prog C R E A)}
  {labels : List (I × (c : C) × R c)} {label : I × (c : C) × R c}

theorem learned_snoc {i : I} (learned : Learned d g (own i labels))
    (told : label.1 = i → d.learns (follow d g (own i labels)) label.2.1 label.2.2) :
    Learned d g (own i (labels ++ [label])) := by
  rw [own_append]
  refine learned_append.mpr ⟨learned, ?_⟩
  by_cases mine : label.1 = i
  · have last := told mine
    subst mine
    simpa [own, Learned] using last
  · rw [own_cons_other mine]
    trivial

/-- An invariant of the state under which every reply is a possible one. -/
theorem learned_of_run (holds : S → Prop) (run : Run (Interleave exec) x labels y) (start : holds x.1)
    (kept : ∀ o s c, holds s → holds (exec o s c).2)
    (possible : ∀ o s c g, holds s → d.learns g c (exec o s c).1) (g : G) (i : I) :
    holds y.1 ∧ Learned d g (own i labels) := by
  induction run with
  | nil => exact ⟨start, trivial⟩
  | snoc _ last ih =>
    obtain ⟨o, -, -, replied, -⟩ := last
    rename_i label _
    obtain ⟨now, learned⟩ := ih
    have holdsNext := kept o _ label.2.1 now
    have told := fun g => possible o _ label.2.1 g now
    rw [replied] at holdsNext told
    exact ⟨holdsNext, learned_snoc learned fun _ => told _⟩

/-- The next call of any of the programs is allowed. -/
theorem allows_of_run (run : Run (Interleave exec) x labels y) {z : S × (I → Prog C R E A)}
    (step : Interleave exec y label z) {post : G → Except E A → Prop} (obeys : Obeys d g (x.2 label.1) post)
    (learned : Learned d g (own label.1 labels)) : d.allows (follow d g (own label.1 labels)) label.2.1 := by
  obtain ⟨-, next, head, -, -⟩ := step
  have rest := obeys.follow (path_of_run run label.1) learned
  rw [head] at rest
  exact rest.1

/-- An invariant that every allowed call keeps, where every reply to an allowed call is a possible one. -/
theorem learned_of_allowed (holds : S → Prop) (run : Run (Interleave exec) x labels y) {g : I → G}
    {post : I → G → Except E A → Prop} (obeys : ∀ i, Obeys d (g i) (x.2 i) (post i)) (start : holds x.1)
    (kept : ∀ o s c g, d.allows g c → holds s → holds (exec o s c).2)
    (possible : ∀ o s c g, d.allows g c → holds s → d.learns g c (exec o s c).1) :
    holds y.1 ∧ ∀ i, Learned d (g i) (own i labels) := by
  induction run with
  | nil => exact ⟨start, fun _ => trivial⟩
  | snoc before last ih =>
    obtain ⟨now, learned⟩ := ih
    rename_i label
    have allowed := allows_of_run before last (obeys label.1) (learned label.1)
    obtain ⟨o, -, -, replied, -⟩ := last
    have holdsNext := kept o _ label.2.1 _ allowed now
    have told := possible o _ label.2.1 _ allowed now
    rw [replied] at holdsNext told
    refine ⟨holdsNext, fun i => learned_snoc (learned i) ?_⟩
    rintro rfl
    exact told

/-- Every call of the run was allowed after what its program had done. -/
theorem allowed_of_run (run : Run (Interleave exec) x labels y) {g : I → G} {post : I → G → Except E A → Prop}
    (obeys : ∀ i, Obeys d (g i) (x.2 i) (post i)) (learned : ∀ i, Learned d (g i) (own i labels)) :
    ∀ label ∈ labels, ∃ g, d.allows g label.2.1 := by
  intro label member
  have permitted := (obeys label.1).permitted (path_of_run run label.1) (learned label.1)
  exact permitted.allowed label.2 (mem_own.mpr member)

theorem follow_own_snoc {labels : List (I × (c : C) × R c)} (i : I) : follow d g (own i (labels ++ [label])) =
      if label.1 = i then d.track (follow d g (own i labels)) label.2.1 label.2.2 else follow d g (own i labels) := by
  rw [own_append, follow_append]
  split
  next mine =>
    subst mine
    simp [own, follow]
  next other =>
    rw [own_cons_other other]
    rfl

/-- An invariant of the state and of all notes, each program with a discipline of its own. Only the states
that can still lead to the last one are looked at. -/
theorem joint_of_run {d : I → Discipline C R G} (J : S → (I → G) → Prop) (bound : S → Prop)
    (earlier : ∀ o s c, bound (exec o s c).2 → bound s) (run : Run (Interleave exec) x labels y) {g : I → G}
    {post : I → G → Except E A → Prop} (obeys : ∀ i, Obeys (d i) (g i) (x.2 i) (post i)) (start : J x.1 g)
    (possible : ∀ o s n i c, J s n → (d i).allows (n i) c → bound (exec o s c).2 → (d i).learns (n i) c (exec o s c).1)
    (kept : ∀ o s n i c, J s n → (d i).allows (n i) c → bound (exec o s c).2 →
      J (exec o s c).2 (Function.update n i ((d i).track (n i) c (exec o s c).1)))
    (within : bound y.1) :
    J y.1 (fun i => follow (d i) (g i) (own i labels)) ∧
      ∀ i, Obeys (d i) (follow (d i) (g i) (own i labels)) (y.2 i) (post i) := by
  have both : J y.1 (fun i => follow (d i) (g i) (own i labels)) ∧ ∀ i, Learned (d i) (g i) (own i labels) := by
    induction run with
    | nil => exact ⟨start, fun _ => trivial⟩
    | @snoc mid _ labels label before last ih =>
      obtain ⟨o, next, head, replied, -⟩ := last
      have inside := earlier o _ label.2.1 (by rw [replied]; exact within)
      obtain ⟨holds, learned⟩ := ih inside
      have rest := (obeys label.1).follow (path_of_run before label.1) (learned label.1)
      rw [head] at rest
      have told := possible o _ _ label.1 label.2.1 holds rest.1 (by rw [replied]; exact within)
      have holdsNext := kept o _ _ label.1 label.2.1 holds rest.1 (by rw [replied]; exact within)
      rw [replied] at told holdsNext
      refine ⟨?_, fun i => learned_snoc (learned i) ?_⟩
      · have notes : (fun i => follow (d i) (g i) (own i (labels ++ [label]))) =
            Function.update (fun i => follow (d i) (g i) (own i labels)) label.1
              ((d label.1).track (follow (d label.1) (g label.1) (own label.1 labels)) label.2.1 label.2.2) := by
          funext i
          rw [follow_own_snoc, Function.update_apply]
          by_cases mine : label.1 = i
          · subst mine
            simp
          · simp [mine, Ne.symm mine]
        rw [notes]
        exact holdsNext
      · rintro rfl
        exact told
  exact ⟨both.1, fun i => (obeys i).follow (path_of_run run i) (both.2 i)⟩

end
end Prog
end Egauth
