import Egauth.Revoke.Epochs
import Egauth.Semantics.Discipline

/-! Checks of a current epoch under concurrent use.

Checks, reads, polls and forgets are programs of the cache's critical sections
and of their calls of the source; between two of these anything may run. The
source is given by its answers over instants, and any call may come at a later
instant than the one before. What the feed tells is arbitrary. The mutex that
makes polls wait for each other is left out, which only adds interleavings.
-/

set_option autoImplicit false

namespace Egauth.Revoke.Checks
open Egauth.Core Prog Epochs

/-- What the first critical section of `get` finds: a hit, or the capture of cursor and generation. -/
structure Reading where
  fresh : Bool
  hit : Option UInt64
  since : Nat
  gen : Nat

inductive Call where
  | read (s : Subject)
  | lookup (s : Subject)
  | put (since gen : Nat) (s : Subject) (epoch : UInt64)
  | forget (s : Subject)
  | forgetWhere (drop : Subject → UInt64 → Bool)
  | now
  | cursor
  | feed (cur : Nat)
  | restart
  | applyPage (cur : Nat) (changed : List Subject) (next : Nat)
  | markFresh (began : Time)

abbrev Reply : Call → Type
  | .read _ => Reading
  | .lookup _ => Except ReadErr UInt64
  | .now => Time
  | .cursor => Nat
  | .feed _ => Except ReadErr (List Subject × Nat)
  | _ => Unit

abbrev Program (A : Type) := Prog Call Reply CheckErr A

abbrev ask (c : Call) : Program (Reply c) := Prog.perform c

def get (s : Subject) : Program (Except Revoke.Err UInt64) := do
  let reading ← ask (.read s)
  match reading.hit with
  | some epoch => pure (.ok epoch)
  | none =>
    let answer : Except ReadErr UInt64 ← ask (.lookup s)
    match answer with
    | .error .notFound => pure (.error .notFound)
    | .error .failed => pure (.error .unavailable)
    | .ok epoch =>
      if reading.fresh then ask (.put reading.since reading.gen s epoch)
      pure (.ok epoch)

def judge (sealedEpoch : UInt64) : Except Revoke.Err UInt64 → Program Unit
  | .error err => .fail (refuse err)
  | .ok cur => Prog.ofExcept id (Epochs.compare cur sealedEpoch)

/-- A read that is older than the sealed epoch is made again, without the cached entry. -/
def settle (s : Subject) (sealedEpoch : UInt64) : Except Revoke.Err UInt64 → Program Unit
  | .error err => judge sealedEpoch (.error err)
  | .ok cur => do
    if cur < sealedEpoch then
      ask (.forget s)
      let second ← get s
      judge sealedEpoch second
    else judge sealedEpoch (.ok cur)

def check (s : Subject) (sealedEpoch : UInt64) : Program Unit := do
  let first ← get s
  settle s sealedEpoch first

/-- The loop of `Poll` with `pages` reads left. -/
def pollLoop (began : Time) : Nat → Nat → Bool → Program Unit
  | 0, _, _ => .fail (.failed .backlog)
  | pages + 1, cur, reset => do
    let page : Except ReadErr (List Subject × Nat) ← ask (.feed cur)
    match page with
    | .error err =>
      if err = .notFound ∧ cur ≠ 0 ∧ reset = false then
        ask .restart
        pollLoop began pages 0 true
      else .fail (.failed .unavailable)
    | .ok (changed, next) =>
      ask (.applyPage cur changed next)
      if changed.length = 0 ∨ ¬ next > cur then ask (.markFresh began) else pollLoop began pages next reset

def poll : Program Unit := do
  let began ← ask .now
  let cur ← ask .cursor
  pollLoop began maxPagesPerPoll cur false

inductive Request where
  | check (s : Subject) (sealedEpoch : UInt64)
  | current (s : Subject)
  | poll
  | forget (s : Subject)
  | forgetWhere (drop : Subject → UInt64 → Bool)

def Request.program : Request → Program Unit
  | .check s sealedEpoch => Checks.check s sealedEpoch
  | .current s => do
    match ← get s with
    | .error err => .fail (.failed err)
    | .ok _ => pure ()
  | .poll => Checks.poll
  | .forget s => ask (.forget s)
  | .forgetWhere drop => ask (.forgetWhere drop)

structure World where
  now : Nat
  cache : Cache

def World.new (capacity : Nat) : World := ⟨0, .new capacity⟩

/-- How much later the call comes, what the clock reads, whether the store fails, and what the feed tells. -/
structure Turn where
  later : Nat := 0
  clk : Time := 0
  down : Bool := false
  page : Except ReadErr (List Subject × Nat) := .ok ([], 0)

def exec (answers : Nat → Subject → Except ReadErr UInt64) (o : Turn) (w : World) : (c : Call) → Reply c × World
  | .read s =>
    let (cache, fresh, hit) := w.cache.fastRead o.clk s
    (⟨fresh, hit, cache.cursor, cache.gen⟩, ⟨w.now + o.later, cache⟩)
  | .lookup s => (if o.down then .error .failed else answers (w.now + o.later) s, ⟨w.now + o.later, w.cache⟩)
  | .put since gen s epoch => ((), ⟨w.now + o.later, w.cache.conditionalPut o.clk true since gen s epoch⟩)
  | .forget s => ((), ⟨w.now + o.later, w.cache.forget s⟩)
  | .forgetWhere drop => ((), ⟨w.now + o.later, w.cache.forgetWhere drop⟩)
  | .now => (o.clk, ⟨w.now + o.later, w.cache⟩)
  | .cursor => (w.cache.cursor, ⟨w.now + o.later, w.cache⟩)
  | .feed _ => (o.page, ⟨w.now + o.later, w.cache⟩)
  | .restart => ((), ⟨w.now + o.later, w.cache.restart⟩)
  | .applyPage cur changed next => ((), ⟨w.now + o.later, w.cache.applyPage cur changed next⟩)
  | .markFresh began => ((), ⟨w.now + o.later, w.cache.markFresh began⟩)

section
variable (answers : Nat → Subject → Except ReadErr UInt64) (o : Turn) (w : World)

@[simp] theorem exec_now (c : Call) : (exec answers o w c).2.now = w.now + o.later := by
  cases c <;> rfl

theorem exec_gen (c : Call) : w.cache.gen ≤ (exec answers o w c).2.cache.gen := by
  cases c with
  | read s => exact (Follower.fastRead_frame rfl).2.1.ge
  | put since gen s epoch => exact (Follower.conditionalPut_frame ..).2.1.ge
  | forget s => exact Nat.le_succ _
  | forgetWhere drop => exact Nat.le_succ _
  | restart => exact Nat.le_succ _
  | applyPage cur changed next => exact Nat.le_succ _
  | _ => exact le_rfl

/-- An entry was there before, or is put while the generation is that of its capture. -/
theorem exec_entries (c : Call) {entry : Subject × UInt64}
    (member : entry ∈ (exec answers o w c).2.cache.entries.items) :
    entry ∈ w.cache.entries.items ∨ ∃ since, c = .put since w.cache.gen entry.1 entry.2 := by
  cases c with
  | read s => exact .inl ((Follower.fastRead_frame rfl).2.2.2.2 entry member)
  | put since gen s epoch =>
    rcases Follower.mem_conditionalPut member with kept | ⟨rfl, rfl, -, -⟩
    · exact .inl kept
    · exact .inr ⟨since, rfl⟩
  | forget s => exact .inl (Lru.mem_remove.mp member).1
  | forgetWhere drop => exact .inl (Lru.mem_removeWhere.mp member).1
  | restart => cases member
  | applyPage cur changed next => exact .inl (Follower.mem_applyPage.mp member).1
  | _ => exact .inl member

theorem exec_forget (s : Subject) (epoch : UInt64) : (s, epoch) ∉ (exec answers o w (.forget s)).2.cache.entries.items :=
  fun member => (Lru.mem_remove.mp member).2 rfl

theorem exec_read_gen (s : Subject) : (exec answers o w (.read s)).1.gen = w.cache.gen :=
  (Follower.fastRead_frame rfl).2.1

theorem exec_read_hit {s : Subject} {epoch : UInt64} (hit : (exec answers o w (.read s)).1.hit = some epoch) :
    (s, epoch) ∈ w.cache.entries.items := by
  have read : w.cache.fastRead o.clk s =
      ((w.cache.fastRead o.clk s).1, (w.cache.fastRead o.clk s).2.1, some epoch) := by
    rw [← hit]
    rfl
  exact (Follower.fastRead_hit read).2

end

/-- What a program has done: the generation of its last capture, the answer since, whether it has
forgotten an entry, and whether the store has failed it. -/
structure Note where
  captured : Nat := 0
  answer : Option (Subject × UInt64) := none
  forgot : Bool := false
  failed : Bool := false

def note (n : Note) : (c : Call) → Reply c → Note
  | .read _, reading => { n with captured := reading.gen, answer := none }
  | .lookup s, .ok epoch => { n with answer := some (s, epoch) }
  | .lookup _, .error err => { n with failed := n.failed || err == .failed }
  | .forget _, _ => { n with forgot := true }
  | _, _ => n

/-- Only an answer is put, under the generation of the capture before it. A check of the current epoch `e` forgets
its own entry only; it is told nothing later than `e`, and after its `forget` nothing else. -/
def caching (s : Subject) (e : UInt64) (mine : Bool) : Discipline Call Reply Note where
  track := note
  learns n c r := mine = true →
    match c, r with
    | .read s', reading => s' = s → ∀ epoch, reading.hit = some epoch → epoch ≤ e ∧ (n.forgot = true → epoch = e)
    | .lookup s', answer => s' = s → answer = .ok e ∨ answer = .error .failed
    | _, _ => True
  allows n c :=
    match c with
    | .put _ gen s epoch => n.captured = gen ∧ n.answer = some (s, epoch)
    | .forget s' => mine = true → s' = s
    | _ => True

section
variable {s : Subject} {e : UInt64} {mine : Bool} {n : Note}

theorem obeys_get (s' : Subject) : Obeys (caching s e mine) n (get s') fun _ _ => True := by
  refine obeys_perform.mpr ⟨trivial, fun reading _ => ?_⟩
  dsimp only
  split
  · trivial
  · refine obeys_perform.mpr ⟨trivial, fun answer _ => ?_⟩
    cases answer with
    | error err => cases err <;> trivial
    | ok epoch =>
      dsimp only
      split
      · exact obeys_perform.mpr ⟨⟨rfl, rfl⟩, fun _ _ => trivial⟩
      · trivial

theorem obeys_pollLoop (began : Time) (pages cur : Nat) (reset : Bool) :
    Obeys (caching s e mine) n (pollLoop began pages cur reset) fun _ _ => True := by
  induction pages generalizing n cur reset with
  | zero => trivial
  | succ pages ih =>
    refine obeys_perform.mpr ⟨trivial, fun page _ => ?_⟩
    cases page with
    | error err =>
      dsimp only
      split
      · exact obeys_perform.mpr ⟨trivial, fun _ _ => ih 0 true⟩
      · trivial
    | ok page =>
      refine obeys_perform.mpr ⟨trivial, fun _ _ => ?_⟩
      split
      · exact ⟨trivial, fun _ _ => trivial⟩
      · exact ih page.2 reset

theorem obeys_judge (epoch : UInt64) (read : Except Revoke.Err UInt64) :
    Obeys (caching s e mine) n (judge epoch read) fun _ _ => True := by
  cases read with
  | error err => trivial
  | ok cur =>
    change Obeys _ _ (Prog.ofExcept id (Epochs.compare cur epoch)) _
    cases Epochs.compare cur epoch <;> trivial

theorem obeys_settle {s' : Subject} (epoch : UInt64) (read : Except Revoke.Err UInt64) (own : mine = true → s' = s) :
    Obeys (caching s e mine) n (settle s' epoch read) fun _ _ => True := by
  cases read with
  | error err => trivial
  | ok cur =>
    change Obeys _ _ (if cur < epoch then _ else _) _
    split
    · refine obeys_perform.mpr ⟨own, fun _ _ => ?_⟩
      exact (obeys_get s').bind (fun n second _ => obeys_judge epoch second) fun _ _ _ => trivial
    · exact obeys_judge epoch (.ok cur)

theorem obeys_request (request : Request) : Obeys (caching s e false) n request.program fun _ _ => True := by
  cases request with
  | check s' sealedEpoch =>
    exact (obeys_get s').bind (fun n first _ => obeys_settle sealedEpoch first nofun) fun _ _ _ => trivial
  | current s' =>
    refine (obeys_get s').bind (fun n first _ => ?_) fun _ _ _ => trivial
    cases first <;> trivial
  | poll =>
    refine obeys_perform.mpr ⟨trivial, fun began _ => obeys_perform.mpr ⟨trivial, fun cur _ => ?_⟩⟩
    exact obeys_pollLoop began _ cur false
  | forget s' => exact ⟨nofun, fun _ _ => trivial⟩
  | forgetWhere drop => exact ⟨trivial, fun _ _ => trivial⟩

/-- A read of the check is served an epoch no later than `e`, and `e` itself after a `forget`. -/
theorem obeys_get_own : Obeys (caching s e true) n (get s) fun n' result =>
    n'.failed = true ∨ (n'.forgot = n.forgot ∧ ∃ epoch, result = .ok (.ok epoch) ∧ epoch ≤ e ∧
      (n.forgot = true → epoch = e)) := by
  refine obeys_perform.mpr ⟨trivial, fun reading told => ?_⟩
  cases hit : reading.hit with
  | some epoch => exact .inr ⟨rfl, epoch, rfl, told rfl rfl epoch hit⟩
  | none =>
    refine obeys_perform.mpr ⟨trivial, fun answer answered => ?_⟩
    rcases answered rfl rfl with rfl | rfl
    · dsimp only
      split
      · exact obeys_perform.mpr ⟨⟨rfl, rfl⟩, fun _ _ => .inr ⟨rfl, e, rfl, UInt64.le_refl e, fun _ => rfl⟩⟩
      · exact .inr ⟨rfl, e, rfl, UInt64.le_refl e, fun _ => rfl⟩
    · exact .inl (by simp [caching, note])

theorem Note.failed_stable (n : Note) (c : Call) (r : Reply c) (failed : n.failed = true) : (note n c r).failed = true := by
  cases c with
  | lookup s =>
    cases r with
    | error err => simp [note, failed]
    | ok epoch => exact failed
  | _ => exact failed

/-- A check of the current epoch fails only where the store does. -/
theorem obeys_check : Obeys (caching s e true) n (check s e) fun n' result => n'.failed = true ∨ result = .ok () := by
  have lost {p : Program Unit} {n : Note} (obeys : Obeys (caching s e true) n p fun _ _ => True)
      (failed : n.failed = true) : Obeys (caching s e true) n p fun n' result => n'.failed = true ∨ result = .ok () :=
    (obeys.stable Note.failed_stable failed).mono fun _ _ ends => .inl ends.1
  have passes (n : Note) : Obeys (caching s e true) n (judge e (.ok e)) fun n' result =>
      n'.failed = true ∨ result = .ok () := by
    have same : Epochs.compare e e = .ok () := if_neg (not_not.mpr rfl)
    change Obeys _ _ (Prog.ofExcept id (Epochs.compare e e)) _
    rw [same]
    exact .inr rfl
  have again (n : Note) (forgot : n.forgot = true) : Obeys (caching s e true) n (get s >>= judge e) fun n' result =>
      n'.failed = true ∨ result = .ok () := by
    refine obeys_get_own.bind ?_ ?_
    · rintro n' second (failed | ⟨-, epoch, same, -, current⟩)
      · exact lost (obeys_judge e second) failed
      · cases same
        rw [current forgot]
        exact passes n'
    · rintro n' err (failed | ⟨-, epoch, impossible, -⟩)
      · exact .inl failed
      · cases impossible
  refine obeys_get_own.bind ?_ ?_
  · rintro n' first (failed | ⟨-, epoch, same, older, -⟩)
    · exact lost (obeys_settle e first fun _ => rfl) failed
    · cases same
      change Obeys _ _ (if epoch < e then _ else _) _
      split
      · exact obeys_perform.mpr ⟨fun _ => rfl, fun _ _ => again _ rfl⟩
      next current =>
        have newest : epoch = e := UInt64.le_antisymm older (UInt64.not_lt.mp current)
        rw [newest]
        exact passes n'
  · rintro n' err (failed | ⟨-, epoch, impossible, -⟩)
    · exact .inl failed
    · cases impossible

end

theorem ends_get (s : Subject) : (get s).Ends 3 := by
  intro reading
  cases reading with
  | mk fresh hit since gen =>
    cases hit with
    | some epoch => trivial
    | none =>
      intro answer
      cases answer with
      | error err => cases err <;> trivial
      | ok epoch =>
        cases fresh with
        | false => trivial
        | true => exact fun _ => trivial

theorem ends_judge (epoch : UInt64) (read : Except Revoke.Err UInt64) : (judge epoch read).Ends 0 := by
  cases read with
  | error err => trivial
  | ok cur =>
    change (Prog.ofExcept id (Epochs.compare cur epoch)).Ends 0
    cases Epochs.compare cur epoch <;> trivial

theorem ends_check (s : Subject) (epoch : UInt64) : (check s epoch).Ends 7 := by
  have settled (first : Except Revoke.Err UInt64) : (settle s epoch first).Ends 4 := by
    cases first with
    | error err => trivial
    | ok cur =>
      change (if cur < epoch then _ else _ : Program Unit).Ends 4
      split
      · exact fun _ => (ends_get s).bind fun second => ends_judge epoch second
      · exact (ends_judge epoch (.ok cur)).mono (by omega)
  exact (ends_get s).bind settled

section
variable {I : Type} [DecidableEq I] (answers : Nat → Subject → Except ReadErr UInt64) (s : Subject)

def Answered (now : Nat) (epoch : UInt64) : Prop := ∃ m ≤ now, answers m s = .ok epoch

/-- What is cached, and what may yet be put, was answered. -/
structure Known (w : World) (n : I → Note) : Prop where
  captured : ∀ i, (n i).captured ≤ w.cache.gen
  cached : ∀ epoch, (s, epoch) ∈ w.cache.entries.items → Answered answers s w.now epoch
  pending : ∀ i epoch, (n i).answer = some (s, epoch) → Answered answers s w.now epoch

/-- Since a check has forgotten the entry: what is cached, and what may be put under the present generation,
is the epoch that it checks. -/
def Renewed (e : UInt64) (w : World) (n : I → Note) : Prop :=
  ∃ gen ≤ w.cache.gen, (∀ epoch, (s, epoch) ∈ w.cache.entries.items → epoch = e) ∧
    ∀ i epoch, (n i).answer = some (s, epoch) → epoch = e ∨ (n i).captured < gen

end

section
variable {I : Type} [DecidableEq I] {answers : Nat → Subject → Except ReadErr UInt64} {s : Subject} {e : UInt64}
  {w : World} {n : I → Note} {o : Turn} {i : I} {c : Call}

theorem Answered.later {now later : Nat} {epoch : UInt64} (answered : Answered answers s now epoch) (le : now ≤ later) :
    Answered answers s later epoch := by
  obtain ⟨m, before, answer⟩ := answered
  exact ⟨m, before.trans le, answer⟩

theorem note_answer {n : Note} {c : Call} (o : Turn) (w : World) {epoch : UInt64}
    (noted : (note n c (exec answers o w c).1).answer = some (s, epoch)) :
    (n.answer = some (s, epoch) ∧ (note n c (exec answers o w c).1).captured = n.captured) ∨
      answers (w.now + o.later) s = .ok epoch := by
  cases c with
  | read s' => cases noted
  | lookup s' =>
    by_cases down : o.down = true
    · simp only [exec, down, ↓reduceIte, note] at noted
      exact .inl ⟨noted, by simp only [exec, down, ↓reduceIte, note]⟩
    · simp only [exec, down, Bool.false_eq_true, ↓reduceIte] at noted ⊢
      cases answer : answers (w.now + o.later) s' with
      | error err =>
        rw [answer] at noted
        exact .inl ⟨noted, rfl⟩
      | ok epoch' =>
        rw [answer] at noted
        cases noted
        exact .inr answer
  | _ => exact .inl ⟨noted, rfl⟩

theorem note_captured {n : Note} {c : Call} (o : Turn) (w : World) (before : n.captured ≤ w.cache.gen) :
    (note n c (exec answers o w c).1).captured ≤ w.cache.gen := by
  cases c with
  | read s' => exact (exec_read_gen answers o w s').le
  | lookup s' => cases told : (exec answers o w (.lookup s')).1 <;> exact before
  | _ => exact before

theorem Known.kept {mine : Bool} (known : Known answers s w n) (allowed : (caching s e mine).allows (n i) c) :
    Known answers s (exec answers o w c).2 (Function.update n i (note (n i) c (exec answers o w c).1)) := by
  have passed : w.now ≤ (exec answers o w c).2.now := by
    rw [exec_now]
    exact Nat.le_add_right _ _
  refine ⟨fun j => ?_, fun epoch member => ?_, fun j epoch noted => ?_⟩
  · refine le_trans ?_ (exec_gen answers o w c)
    rw [Function.update_apply]
    split
    · exact note_captured o w (known.captured i)
    · exact known.captured j
  · rcases exec_entries answers o w c member with old | ⟨since, rfl⟩
    · exact (known.cached epoch old).later passed
    · exact (known.pending i epoch allowed.2).later passed
  · rw [Function.update_apply] at noted
    split at noted
    · rcases note_answer o w noted with ⟨old, -⟩ | answer
      · exact (known.pending i epoch old).later passed
      · exact ⟨w.now + o.later, (exec_now answers o w c).ge, answer⟩
    · exact (known.pending j epoch noted).later passed

/-- No get that began before the entry was forgotten puts anything. -/
theorem Known.forget (known : Known answers s w n) :
    Renewed s e (exec answers o w (.forget s)).2 (Function.update n i (note (n i) (.forget s) ())) := by
  refine ⟨w.cache.gen + 1, le_rfl, fun epoch member => ?_, fun j epoch _ => .inr ?_⟩
  · exact absurd member (exec_forget answers o w s epoch)
  · refine Nat.lt_succ_of_le ?_
    rw [Function.update_apply]
    split
    · exact known.captured i
    · exact known.captured j

theorem Renewed.kept {mine : Bool} (renewed : Renewed s e w n) (allowed : (caching s e mine).allows (n i) c)
    (current : answers (w.now + o.later) s = .ok e) :
    Renewed s e (exec answers o w c).2 (Function.update n i (note (n i) c (exec answers o w c).1)) := by
  obtain ⟨gen, le, cached, pending⟩ := renewed
  refine ⟨gen, le.trans (exec_gen answers o w c), fun epoch member => ?_, fun j epoch noted => ?_⟩
  · rcases exec_entries answers o w c member with old | ⟨since, rfl⟩
    · exact cached epoch old
    · -- The entry is put under the present generation, so its get began after the entry was forgotten.
      obtain ⟨capture, answer⟩ := allowed
      refine (pending i epoch answer).resolve_right fun before => ?_
      rw [capture] at before
      exact absurd before (not_lt.mpr le)
  · rw [Function.update_apply] at noted ⊢
    split at noted
    next same =>
      rw [if_pos same]
      rcases note_answer o w noted with ⟨old, capture⟩ | answer
      · rw [capture]
        exact pending i epoch old
      · rw [current] at answer
        exact .inl (Except.ok.inj answer).symm
    next other =>
      rw [if_neg other]
      exact pending j epoch noted

theorem failed_of_follow {mine : Bool} {g : Note} {events : List ((c : Call) × Reply c)}
    (failed : (follow (caching s e mine) g events).failed = true) (start : g.failed = false) :
    ∃ s', ⟨.lookup s', .error .failed⟩ ∈ events := by
  induction events generalizing g with
  | nil =>
    rw [show follow (caching s e mine) g [] = g from rfl, start] at failed
    cases failed
  | cons event events ih =>
    obtain ⟨c, r⟩ := event
    cases noted : (note g c r).failed with
    | false =>
      obtain ⟨s', member⟩ := ih failed noted
      exact ⟨s', List.mem_cons_of_mem _ member⟩
    | true =>
      cases c with
      | lookup s' =>
        cases r with
        | ok epoch =>
          rw [show (note g (.lookup s') (.ok epoch)).failed = g.failed from rfl, start] at noted
          cases noted
        | error err =>
          cases err with
          | failed => exact ⟨s', List.mem_cons_self⟩
          | notFound => simp [note, start] at noted
      | _ =>
        simp [note, start] at noted

end

/-- A check of an epoch that stays current passes, whatever the cache held and whatever runs beside it. -/
theorem check_passes {I : Type} [DecidableEq I] {answers : Nat → Subject → Except ReadErr UInt64}
    (increases : ∀ m n s a b, m ≤ n → answers m s = .ok a → answers n s = .ok b → a ≤ b)
    {requests : I → Request} {capacity : Nat} {earlier labels : List (I × (c : Call) × Reply c)}
    {x y : World × (I → Program Unit)}
    (before : Run (Interleave (exec answers)) (.new capacity, fun i => (requests i).program) earlier x)
    (run : Run (Interleave (exec answers)) x labels y) {i : I} {s : Subject} {e : UInt64}
    (request : requests i = .check s e) (begins : own i earlier = [])
    (current : ∀ n, x.1.now ≤ n → n ≤ y.1.now → answers n s = .ok e)
    (responds : ∀ s', (i, ⟨.lookup s', .error .failed⟩) ∉ labels) :
    y.2 i = .ret () ∨ (∃ c next, y.2 i = .call c next) ∧ (own i labels).length < 7 := by
  -- Up to the first call of the check: whatever is cached or may be put was answered.
  obtain ⟨known, others⟩ := joint_of_run (d := fun _ => caching s e false) (Known answers s) (fun _ => True)
    (fun _ _ _ _ => trivial) before (g := fun _ => {}) (fun j => obeys_request (requests j))
    ⟨fun _ => le_rfl, fun _ member => (nomatch member), fun _ _ impossible => (nomatch impossible)⟩
    (fun _ _ _ _ _ _ _ _ impossible => nomatch impossible) (fun _ _ _ _ _ holds allowed _ => holds.kept allowed) trivial
  have fresh : follow (caching s e false) {} (own i earlier) = {} := by
    rw [begins]
    rfl
  have whole : x.2 i = check s e := by
    have path := path_of_run before i
    rw [begins] at path
    rw [path.eq_of_nil]
    exact congrArg Request.program request
  have obeys (j : I) : Obeys (caching s e (decide (j = i))) (follow (caching s e false) {} (own j earlier)) (x.2 j)
      fun n result => j = i → n.failed = true ∨ result = .ok () := by
    by_cases same : j = i
    · subst same
      rw [decide_eq_true rfl, whole]
      exact obeys_check.mono fun _ _ ends _ => ends
    · rw [decide_eq_false same]
      exact (others j).mono fun _ _ _ impossible => absurd impossible same
  have last : Obeys (caching s e (decide (i = i))) (follow (caching s e (decide (i = i)))
      (follow (caching s e false) {} (own i earlier)) (own i labels)) (y.2 i)
      fun n result => i = i → n.failed = true ∨ result = .ok () := by
    refine (joint_of_run (d := fun j => caching s e (decide (j = i)))
      (fun w n => Known answers s w n ∧ x.1.now ≤ w.now ∧ ((n i).forgot = true → Renewed s e w n))
      (fun w => w.now ≤ y.1.now) (fun o w c later => by rw [exec_now] at later; omega) run obeys
      ⟨known, le_rfl, by simp [fresh]⟩ ?possible ?kept le_rfl).2 i
    case possible =>
      rintro o w n j c ⟨known, since, renewed⟩ - within mine
      obtain rfl : j = i := by simpa using mine
      rw [exec_now] at within
      have now := current (w.now + o.later) (by omega) within
      cases c with
      | read s' =>
        rintro rfl epoch hit
        have member := exec_read_hit answers o w hit
        obtain ⟨m, past, answer⟩ := known.cached epoch member
        refine ⟨increases m _ s' epoch e (by omega) answer now, fun forgot => ?_⟩
        obtain ⟨-, -, cached, -⟩ := renewed forgot
        exact cached epoch member
      | lookup s' =>
        rintro rfl
        cases down : o.down <;> simp [exec, down, now]
      | _ => trivial
    case kept =>
      rintro o w n j c ⟨known, since, renewed⟩ allowed within
      rw [exec_now] at within
      have now := current (w.now + o.later) (by omega) within
      refine ⟨known.kept allowed, by rw [exec_now]; omega, fun forgot => ?_⟩
      by_cases before : (n i).forgot = true
      · exact (renewed before).kept allowed now
      · -- The check has just forgotten the entry.
        obtain rfl : j = i := by
          by_contra other
          rw [Function.update_of_ne (Ne.symm other)] at forgot
          exact before forgot
        rw [Function.update_self] at forgot
        cases c with
        | forget s' =>
          obtain rfl : s' = s := allowed (decide_eq_true rfl)
          exact known.forget
        | lookup s' =>
          cases told : (exec answers o w (.lookup s')).1 <;> (rw [told] at forgot; exact absurd forgot before)
        | _ => exact absurd forgot before
  cases remains : y.2 i with
  | ret a => exact .inl rfl
  | fail err =>
    rw [remains, decide_eq_true rfl, fresh] at last
    rcases last rfl with failed | impossible
    · obtain ⟨s', member⟩ := failed_of_follow failed rfl
      exact absurd (mem_own.mp member) (responds s')
    · cases impossible
  | call c next =>
    have path := path_of_run run i
    rw [whole, remains] at path
    exact .inr ⟨⟨c, next, rfl⟩, path.lt_of_ends (ends_check s e)⟩

namespace Sample

def subject : Subject := .sample

def answers (now : Nat) (_ : Subject) : Except ReadErr UInt64 := .ok (if now < 1 then 7 else 8)

def requests : Nat → Request
  | 0 => .poll
  | 1 => .current subject
  | _ => .check subject 8

/-- The read has looked up the old epoch and puts it after the bump. -/
def before := schedule (exec answers) (.new 0, fun i => (requests i).program)
  [(0, { clk := 5 }), (0, {}), (0, {}), (0, {}), (0, {}), (1, { clk := 6 }), (1, {}), (1, { clk := 7, later := 1 })]

def during := schedule (exec answers) before.2 [(2, { clk := 8 }), (2, {}), (2, { clk := 9 }), (2, {}), (2, { clk := 9 })]

def failing : (Nat × (c : Call) × Reply c) → Bool
  | (_, ⟨.lookup _, .error .failed⟩) => true
  | _ => false

end Sample

open Sample

theorem check_passes_stale_entry :
    before.2.1.cache.entries.items = [(subject, 7)] ∧ before.2.1.now = 1 ∧ during.2.2 2 = .ret () := by
  refine ⟨by decide +kernel, by decide +kernel, ?_⟩
  have earlier : Run (Interleave (exec answers)) (.new 0, fun i => (requests i).program) before.1 before.2 :=
    run_schedule _ _ _
  have run : Run (Interleave (exec answers)) before.2 during.1 during.2 := run_schedule _ _ _
  have increases (m n : Nat) (s : Subject) (a b : UInt64) (le : m ≤ n) (first : answers m s = .ok a)
      (second : answers n s = .ok b) : a ≤ b := by
    cases first
    cases second
    split
    · split <;> decide
    next late =>
      rw [if_neg (by omega)]
      exact UInt64.le_refl 8
  have begins : (own 2 before.1).isEmpty = true := by decide +kernel
  have silent : during.1.any failing = false := by decide +kernel
  have now : before.2.1.now = 1 := by decide +kernel
  have finished : (during.2.2 2).returned.isSome = true := by decide +kernel
  have current (n : Nat) (since : before.2.1.now ≤ n) : answers n subject = .ok 8 := by
    rw [now] at since
    simp only [answers, if_neg (Nat.not_lt.mpr since)]
  have passed := check_passes increases earlier run rfl (List.isEmpty_iff.mp begins) (fun n since _ => current n since)
    fun s member => absurd rfl (List.any_eq_false.mp silent _ member)
  rcases passed with passed | ⟨⟨c, next, waits⟩, -⟩
  · exact passed
  · rw [waits] at finished
    cases finished

end Egauth.Revoke.Checks
