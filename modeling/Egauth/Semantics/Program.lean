import Egauth.Semantics.Run
import Mathlib.Algebra.BigOperators.Group.Finset.Piecewise
import Mathlib.Algebra.Order.BigOperators.Group.Finset
import Mathlib.Logic.Function.Basic

/-! Programs that call stores.

A program is the tree of its calls: a result, a failure, or a call with what
follows each reply. What replies is an arbitrary function of the state and of a
turn, which stands for everything the call learns from elsewhere. Programs that
run side by side take turns call by call.
-/

set_option autoImplicit false

namespace Egauth

inductive Prog (C : Type) (R : C → Type) (E A : Type) where
  | ret (a : A)
  | fail (err : E)
  | call (c : C) (next : R c → Prog C R E A)

/-- The reply of a store and what it leaves, or a call that failed before it did anything. -/
def performed {S E A : Type} (fault : Bool) (err : E) (s : S) (x : S × Except E A) : Except E A × S :=
  if fault then (.error err, s) else (x.2, x.1)

namespace Prog
variable {C : Type} {R : C → Type} {E A B S O I : Type} {events : List ((c : C) × R c)} {p : Prog C R E A}
  {f : A → Prog C R E B}

def bind : Prog C R E A → (A → Prog C R E B) → Prog C R E B
  | ret a, f => f a
  | fail err, _ => fail err
  | call c next, f => call c fun r => (next r).bind f

instance : Monad (Prog C R E) where
  pure := ret
  bind := bind

@[simp] theorem pure_eq (a : A) : (pure a : Prog C R E A) = ret a := rfl

@[simp] theorem ret_bind (a : A) (f : A → Prog C R E B) : ret a >>= f = f a := rfl

@[simp] theorem fail_bind (err : E) (f : A → Prog C R E B) : fail err >>= f = fail err := rfl

@[simp] theorem call_bind (c : C) (next : R c → Prog C R E A) (f : A → Prog C R E B) :
    call c next >>= f = call c fun r => next r >>= f := rfl

def perform (c : C) : Prog C R E (R c) := call c ret

@[simp] theorem perform_bind (c : C) (f : R c → Prog C R E B) : perform c >>= f = call c f := rfl

/-- The value of a reply, or the end of the program with its error. -/
def ofExcept {F : Type} (wrap : F → E) : Except F A → Prog C R E A
  | .ok a => ret a
  | .error err => fail (wrap err)

def ofOption (err : E) : Option A → Prog C R E A
  | some a => ret a
  | none => fail err

/-- A program whose failure is a result, for a caller that looks at it. -/
def attempt : Prog C R E A → Prog C R E (Except E A)
  | ret a => ret (.ok a)
  | fail err => ret (.error err)
  | call c next => call c fun r => (next r).attempt

@[simp] theorem attempt_call (c : C) (next : R c → Prog C R E A) :
    (call c next).attempt = call c fun r => (next r).attempt := rfl

/-- A program inside one of another kind: its calls are some of the other's, and its failure is a result. -/
def embed {C' : Type} {R' : C' → Type} {E' : Type} (f : C → C') (reply : (c : C) → R' (f c) → R c) :
    Prog C R E A → Prog C' R' E' (Except E A)
  | ret a => ret (.ok a)
  | fail err => ret (.error err)
  | call c next => call (f c) fun r => (next (reply c r)).embed f reply

/-- A program whose failures are renamed. -/
def refail (f : E → E) : Prog C R E A → Prog C R E A
  | ret a => ret a
  | fail err => fail (f err)
  | call c next => call c fun r => (next r).refail f

@[simp] theorem refail_ret (f : E → E) (a : A) : (ret a : Prog C R E A).refail f = ret a := rfl

@[simp] theorem refail_fail (f : E → E) (err : E) : (fail err : Prog C R E A).refail f = fail (f err) := rfl

@[simp] theorem refail_call (f : E → E) (c : C) (next : R c → Prog C R E A) :
    (call c next).refail f = call c fun r => (next r).refail f := rfl

def returned : Prog C R E A → Option A
  | ret a => some a
  | _ => none

variable {a : A}

theorem eq_ret_of_returned (result : p.returned = some a) : p = ret a := by
  cases p with
  | ret b => rw [Option.some.inj result]
  | fail err => cases result
  | call c next => cases result

/-- A program that runs to its end undisturbed, with the same turn at each call. -/
def alone (exec : O → S → (c : C) → R c × S) (o : O) : Prog C R E A → S → Except E A × S
  | ret a, s => (.ok a, s)
  | fail err, s => (.error err, s)
  | call c next, s => (next (exec o s c).1).alone exec o (exec o s c).2

@[simp] theorem alone_ret (exec : O → S → (c : C) → R c × S) (o : O) (a : A) (s : S) :
    (ret a : Prog C R E A).alone exec o s = (.ok a, s) := rfl

@[simp] theorem alone_fail (exec : O → S → (c : C) → R c × S) (o : O) (err : E) (s : S) :
    (fail err : Prog C R E A).alone exec o s = (.error err, s) := rfl

@[simp] theorem alone_call (exec : O → S → (c : C) → R c × S) (o : O) (c : C) (next : R c → Prog C R E A) (s : S) :
    (call c next).alone exec o s = (next (exec o s c).1).alone exec o (exec o s c).2 := rfl

theorem alone_bind_ok {exec : O → S → (c : C) → R c × S} {o : O} {s s' : S}
    (first : p.alone exec o s = (.ok a, s')) : (p >>= f).alone exec o s = (f a).alone exec o s' := by
  induction p generalizing s with
  | ret b =>
    cases first
    rfl
  | fail err => cases first
  | call c next ih => exact ih _ first

/-- What remains of a program after the replies to its first calls. -/
inductive Path : Prog C R E A → List ((c : C) × R c) → Prog C R E A → Prop where
  | nil {p : Prog C R E A} : Path p [] p
  | cons {c : C} {r : R c} {next : R c → Prog C R E A} {events : List ((c : C) × R c)} {q : Prog C R E A} :
      Path (next r) events q → Path (call c next) (⟨c, r⟩ :: events) q

theorem Path.snoc {c : C} {next : R c → Prog C R E A} {r : R c}
    (path : Path p events (call c next)) : Path p (events ++ [⟨c, r⟩]) (next r) := by
  generalize reached : call c next = q at path
  induction path with
  | nil =>
    subst reached
    exact .cons .nil
  | cons _ ih => exact .cons (ih reached)

theorem Path.eq_of_nil {q : Prog C R E A} (path : Path p [] q) : q = p := by
  generalize none : [] = events at path
  cases path with
  | nil => rfl
  | cons rest => cases none

theorem Path.of_perform {c : C} {f : R c → Prog C R E A} (path : Path (perform c >>= f) events (ret a)) :
    ∃ r rest, events = ⟨c, r⟩ :: rest ∧ Path (f r) rest (ret a) := by
  cases path with
  | cons rest => exact ⟨_, _, rfl, rest⟩

theorem Path.of_bind {b : B} (path : Path (p >>= f) events (ret b)) :
    ∃ a first rest, events = first ++ rest ∧ Path p first (ret a) ∧ Path (f a) rest (ret b) := by
  induction p generalizing events with
  | ret a => exact ⟨a, [], events, rfl, .nil, path⟩
  | fail err => cases path
  | call c next ih =>
    cases path with
    | cons rest =>
      obtain ⟨a, first, last, rfl, reached, onward⟩ := ih _ rest
      exact ⟨a, _ :: first, last, rfl, .cons reached, onward⟩

theorem Path.of_ofExcept {F : Type} {wrap : F → E} {x : Except F A}
    {b : B} (path : Path (ofExcept wrap x >>= f) events (ret b)) : ∃ a, x = .ok a ∧ Path (f a) events (ret b) := by
  cases x with
  | error err => cases path
  | ok a => exact ⟨a, rfl, path⟩

theorem Path.of_refail {f : E → E} (path : Path (p.refail f) events (ret a)) : Path p events (ret a) := by
  induction p generalizing events with
  | ret b =>
    cases path
    exact .nil
  | fail err => cases path
  | call c next ih =>
    cases path with
    | cons rest => exact .cons (ih _ rest)

def trace (exec : O → S → (c : C) → R c × S) (o : O) : Prog C R E A → S → List ((c : C) × R c)
  | call c next, s => ⟨c, (exec o s c).1⟩ :: (next (exec o s c).1).trace exec o (exec o s c).2
  | _, _ => []

theorem path_trace {exec : O → S → (c : C) → R c × S} {o : O} {s : S}
    (returns : (p.alone exec o s).1 = .ok a) : Path p (p.trace exec o s) (ret a) := by
  induction p generalizing s with
  | ret b =>
    cases returns
    exact .nil
  | fail err => cases returns
  | call c next ih => exact .cons (ih _ returns)

/-- The program ends after at most so many calls, whatever the replies. -/
def Ends : Nat → Prog C R E A → Prop
  | 0, call _ _ => False
  | n + 1, call _ next => ∀ r, Ends n (next r)
  | _, _ => True

theorem Ends.mono {p : Prog C R E A} {m n : Nat} (ends : p.Ends m) (le : m ≤ n) : p.Ends n := by
  induction p generalizing m n with
  | ret a => cases n <;> trivial
  | fail err => cases n <;> trivial
  | call c next ih =>
    cases m with
    | zero => exact ends.elim
    | succ m =>
      cases n with
      | zero => omega
      | succ n => exact fun r => ih r (ends r) (by omega)

theorem Ends.bind {m n : Nat} (first : p.Ends m) (onward : ∀ a, (f a).Ends n) : (p >>= f).Ends (m + n) := by
  induction p generalizing m with
  | ret a => exact (onward a).mono (by omega)
  | fail err => cases h : m + n <;> trivial
  | call c next ih =>
    cases m with
    | zero => exact first.elim
    | succ m =>
      rw [Nat.succ_add]
      exact fun r => ih r (first r)

theorem Path.lt_of_ends {c : C} {next : R c → Prog C R E A} {n : Nat}
    (path : Path p events (call c next)) (ends : p.Ends n) : events.length < n := by
  generalize reached : call c next = q at path
  induction path generalizing n with
  | nil =>
    subst reached
    cases n with
    | zero => exact ends.elim
    | succ n => simp
  | cons _ ih =>
    cases n with
    | zero => exact ends.elim
    | succ n =>
      have shorter := ih (ends _) reached
      simpa using shorter

section
variable [DecidableEq I] (exec : O → S → (c : C) → R c × S) {label : I × (c : C) × R c}

/-- One call of one of the programs; the label names the program, its call and the reply. -/
def Interleave (x : S × (I → Prog C R E A)) (label : I × (c : C) × R c) (y : S × (I → Prog C R E A)) : Prop :=
  ∃ o next, x.2 label.1 = call label.2.1 next ∧ exec o x.1 label.2.1 = (label.2.2, y.1) ∧
    y.2 = Function.update x.2 label.1 (next label.2.2)

def Replies (s : S) (label : I × (c : C) × R c) (t : S) : Prop := ∃ o, exec o s label.2.1 = (label.2.2, t)

def own (i : I) (labels : List (I × (c : C) × R c)) : List ((c : C) × R c) :=
  labels.filterMap fun label => if label.1 = i then some label.2 else none

theorem own_append (i : I) (labels labels' : List (I × (c : C) × R c)) :
    own i (labels ++ labels') = own i labels ++ own i labels' := List.filterMap_append

@[simp] theorem own_cons_self (i : I) (event : (c : C) × R c) (labels : List (I × (c : C) × R c)) :
    own i ((i, event) :: labels) = event :: own i labels := by
  simp [own]

variable {i : I}

theorem own_cons_other (other : label.1 ≠ i)
    (labels : List (I × (c : C) × R c)) : own i (label :: labels) = own i labels := by
  simp [own, other]

theorem mem_own {labels : List (I × (c : C) × R c)} {event : (c : C) × R c} :
    event ∈ own i labels ↔ (i, event) ∈ labels := by
  unfold own
  rw [List.mem_filterMap]
  constructor
  · rintro ⟨⟨j, event'⟩, member, same⟩
    split at same
    next mine =>
      cases same
      cases mine
      exact member
    next => cases same
  · intro member
    exact ⟨_, member, if_pos rfl⟩

/-- Where one of a program's own events stands among all of them. -/
theorem own_eq_append_cons {labels : List (I × (c : C) × R c)} (before : List ((c : C) × R c))
    {after : List ((c : C) × R c)} {event : (c : C) × R c} (found : own i labels = before ++ event :: after) :
    ∃ earlier later, labels = earlier ++ (i, event) :: later ∧ own i earlier = before ∧ own i later = after := by
  obtain ⟨earlier, rest, rfl, first, second⟩ := List.filterMap_eq_append_iff.mp found
  obtain ⟨skipped, label, later, rfl, others, same, last⟩ := List.filterMap_eq_cons_iff.mp second
  split at same
  next mine =>
    cases same
    subst mine
    refine ⟨earlier ++ skipped, later, by simp, ?_, last⟩
    -- What stands between is of other programs.
    have none : own label.1 skipped = [] := List.filterMap_eq_nil_iff.mpr others
    rw [own_append, none, List.append_nil]
    exact first
  next => cases same

/-- The events of a kind are those of the programs, counted one program after the other. -/
theorem sum_countP_own (P : ((c : C) × R c) → Bool) (labels : List (I × (c : C) × R c)) (programs : Finset I)
    (all : ∀ label ∈ labels, label.1 ∈ programs) :
    ∑ i ∈ programs, (own i labels).countP P = labels.countP fun label => P label.2 := by
  induction labels with
  | nil => simp [own]
  | cons label labels ih =>
    have rest := ih fun label member => all label (List.mem_cons_of_mem _ member)
    have split (i : I) : (own i (label :: labels)).countP P =
        (own i labels).countP P + if label.1 = i then (if P label.2 then 1 else 0) else 0 := by
      by_cases mine : label.1 = i
      · subst mine
        rw [if_pos rfl, own_cons_self, List.countP_cons]
      · rw [own_cons_other mine, if_neg mine, Nat.add_zero]
    simp only [split, Finset.sum_add_distrib, rest, Finset.sum_ite_eq, all label List.mem_cons_self, ↓reduceIte,
      List.countP_cons]

/-- What no program does more often than something else, all of them together do not. -/
theorem countP_le_of_own {P Q : ((c : C) × R c) → Bool} {labels : List (I × (c : C) × R c)}
    (each : ∀ i, (own i labels).countP P ≤ (own i labels).countP Q) :
    (labels.countP fun label => P label.2) ≤ labels.countP fun label => Q label.2 := by
  have all : ∀ label ∈ labels, label.1 ∈ (labels.map Prod.fst).toFinset := fun label member =>
    List.mem_toFinset.mpr (List.mem_map_of_mem member)
  rw [← sum_countP_own P labels _ all, ← sum_countP_own Q labels _ all]
  exact Finset.sum_le_sum fun i _ => each i

/-- Two programs do not count an event twice. -/
theorem countP_own_add_le (P : ((c : C) × R c) → Bool) (labels : List (I × (c : C) × R c)) {j : I} (apart : i ≠ j) :
    (own i labels).countP P + (own j labels).countP P ≤ labels.countP fun label => P label.2 := by
  have all : ∀ label ∈ labels, label.1 ∈ (labels.map Prod.fst).toFinset ∪ {i, j} := fun label member =>
    Finset.mem_union_left _ (List.mem_toFinset.mpr (List.mem_map_of_mem member))
  have pair := Finset.sum_pair (f := fun i => (own i labels).countP P) apart
  rw [← sum_countP_own P labels _ all, ← pair]
  exact Finset.sum_le_sum_of_subset Finset.subset_union_right

variable {exec} {x y : S × (I → Prog C R E A)} {labels : List (I × (c : C) × R c)}

theorem Interleave.replies (step : Interleave exec x label y) : Replies exec x.1 label y.1 := by
  obtain ⟨o, next, -, replied, -⟩ := step
  exact ⟨o, replied⟩

/-- The state goes through the replies, whatever the programs do with them. -/
theorem replies_of_run (run : Run (Interleave exec) x labels y) : Run (Replies exec) x.1 labels y.1 := by
  induction run with
  | nil => exact .nil
  | snoc _ last ih => exact ih.snoc last.replies

/-- Each program follows its own events. -/
theorem path_of_run (run : Run (Interleave exec) x labels y) (i : I) : Path (x.2 i) (own i labels) (y.2 i) := by
  induction run with
  | nil => exact .nil
  | snoc _ last ih =>
    obtain ⟨o, next, head, -, rest⟩ := last
    rename_i label _
    rw [own_append, rest]
    by_cases mine : label.1 = i
    · subst mine
      rw [head] at ih
      simpa [own] using ih.snoc
    · rw [own_cons_other mine, Function.update_of_ne (Ne.symm mine)]
      simpa [own] using ih

def turn (exec : O → S → (c : C) → R c × S) (x : S × (I → Prog C R E A)) (i : I) (o : O) :
    Option ((I × (c : C) × R c) × S × (I → Prog C R E A)) :=
  match x.2 i with
  | call c next =>
    let (r, s) := exec o x.1 c
    some ((i, ⟨c, r⟩), s, Function.update x.2 i (next r))
  | _ => none

theorem interleave_of_turn {o : O} (taken : turn exec x i o = some (label, y)) :
    Interleave exec x label y := by
  unfold turn at taken
  split at taken
  next c next head =>
    cases taken
    exact ⟨o, next, head, rfl, rfl⟩
  next => cases taken

/-- The calls of the programs in the order of the turns; a turn of a finished program ends the run. -/
def schedule (exec : O → S → (c : C) → R c × S) (x : S × (I → Prog C R E A)) :
    List (I × O) → List (I × (c : C) × R c) × S × (I → Prog C R E A)
  | [] => ([], x)
  | (i, o) :: turns =>
    match turn exec x i o with
    | none => ([], x)
    | some (label, y) =>
      let (labels, z) := schedule exec y turns
      (label :: labels, z)

variable (exec) in
theorem run_schedule (x : S × (I → Prog C R E A)) (turns : List (I × O)) :
    Run (Interleave exec) x (schedule exec x turns).1 (schedule exec x turns).2 := by
  induction turns generalizing x with
  | nil => exact .nil
  | cons first turns ih =>
    obtain ⟨i, o⟩ := first
    unfold schedule
    split
    · exact .nil
    next label y taken => simpa using (Run.single (interleave_of_turn taken)).append (ih y)

theorem split_at {L : Type} (labels : List L) (n : Nat) (p : L → Bool) (found : labels[n]?.any p = true) :
    ∃ label, labels = labels.take n ++ label :: labels.drop (n + 1) ∧ p label = true := by
  obtain ⟨label, here, holds⟩ := (Option.any_eq_true _ _).mp found
  obtain ⟨bound, same⟩ := List.getElem?_eq_some_iff.mp here
  have rest := List.drop_eq_getElem_cons bound
  rw [same] at rest
  exact ⟨label, by rw [← rest, List.take_append_drop], holds⟩

end
end Prog
end Egauth
