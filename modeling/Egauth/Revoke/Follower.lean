import Egauth.Revoke.Lru
import Egauth.Semantics.Time

/-! The revocation cache: a bounded map that follows a change feed.

The critical sections of `get`, `Poll`, `forget` and `forgetWhere` are functions
of their own, so that they can be interleaved one by one; `get` and `poll` put
them together for a caller that nothing interrupts. A cursor is a feed
position, zero at the beginning. The generation is a natural number in place of
a 64-bit counter. Audit events are left out: they do not reach the cache.
-/

set_option autoImplicit false

namespace Egauth.Revoke

def pollInterval : Duration := 2 * Duration.second

/-- The age past which the last successful poll no longer vouches for cached entries. -/
def pollBound : Duration := 3 * pollInterval

def defaultCapacity : Nat := 10000

def maxPagesPerPoll : Nat := 256

/-- What a store read reports: `store.ErrNotFound`, or any other error. -/
inductive ReadErr where
  | notFound
  | failed
  deriving DecidableEq, Repr

inductive Err where
  | notFound
  | unavailable
  | backlog
  deriving DecidableEq, Repr

structure Follower (K V : Type) where
  cursor : Nat
  gen : Nat
  polled : Bool
  lastPoll : Time
  entries : Lru K V

namespace Follower
variable {K V : Type} {f : Follower K V} {now : Time}

def new (capacity : Nat) : Follower K V :=
  ⟨0, 0, false, 0, .new (if capacity = 0 then defaultCapacity else capacity)⟩

def freshLocked (f : Follower K V) (now : Time) : Bool :=
  f.polled && !decide (now < f.lastPoll) && decide (now.sub f.lastPoll < pollBound)

theorem freshLocked_iff : f.freshLocked now = true ↔
    f.polled = true ∧ f.lastPoll ≤ now ∧ now - f.lastPoll < pollBound := by
  have elapsed := @Time.sub_lt_iff now f.lastPoll pollBound (by decide) (by decide)
  simp [freshLocked, elapsed, and_assoc]

def forgetWhere (f : Follower K V) (drop : K → V → Bool) : Follower K V :=
  { f with entries := f.entries.removeWhere drop, gen := f.gen + 1 }

/-- A cursor that the store no longer retains restarts the cache. -/
def restart (f : Follower K V) : Follower K V :=
  { f with entries := f.entries.clear, cursor := 0, gen := f.gen + 1 }

def markFresh (f : Follower K V) (began : Time) : Follower K V :=
  { f with polled := true, lastPoll := began }

variable [DecidableEq K] {f' : Follower K V}

/-- The first critical section of `get`: whether the cache was fresh, and the hit. -/
def fastRead (f : Follower K V) (now : Time) (k : K) : Follower K V × Bool × Option V :=
  let fresh := f.freshLocked now
  if fresh then
    match f.entries.get k with
    | some (v, entries) => ({ f with entries := entries }, fresh, some v)
    | none => (f, fresh, none)
  else (f, fresh, none)

/-- The second critical section of `get`, after a successful lookup. -/
def conditionalPut (f : Follower K V) (now : Time) (fresh : Bool) (since gen : Nat) (k : K) (v : V) :
    Follower K V :=
  if fresh && (f.gen == gen && f.cursor == since && f.freshLocked now) then
    { f with entries := f.entries.put k v }
  else f

def forget (f : Follower K V) (k : K) : Follower K V :=
  { f with entries := f.entries.remove k, gen := f.gen + 1 }

/-- The critical section of `Poll` for one page read from `cur`. -/
def applyPage (f : Follower K V) (cur : Nat) (changed : List K) (next : Nat) : Follower K V :=
  { f with
    entries := changed.foldl Lru.remove f.entries
    cursor := if next > cur then next else f.cursor
    gen := f.gen + 1 }

def get (f : Follower K V) (now : Time) (lookup : K → Except ReadErr V) (k : K) :
    Follower K V × Except Err V :=
  match f.fastRead now k with
  | (f, _, some v) => (f, .ok v)
  | (f, fresh, none) =>
    match lookup k with
    | .error .notFound => (f, .error .notFound)
    | .error .failed => (f, .error .unavailable)
    | .ok v => (f.conditionalPut now fresh f.cursor f.gen k v, .ok v)

def pollLoop (feed : Nat → Except ReadErr (List K × Nat)) (began : Time) :
    Nat → Nat → Bool → Follower K V → Follower K V × Except Err Unit
  | 0, _, _, f => (f, .error .backlog)
  | pages + 1, cur, reset, f =>
    match feed cur with
    | .error err =>
      if err = .notFound ∧ cur ≠ 0 ∧ reset = false then pollLoop feed began pages 0 true f.restart
      else (f, .error .unavailable)
    | .ok (changed, next) =>
      let applied := f.applyPage cur changed next
      if changed.length = 0 ∨ ¬ next > cur then (applied.markFresh began, .ok ())
      else pollLoop feed began pages next reset applied

def poll (f : Follower K V) (now : Time) (feed : Nat → Except ReadErr (List K × Nat)) :
    Follower K V × Except Err Unit :=
  pollLoop feed now maxPagesPerPoll f.cursor false f

theorem mem_foldl_remove {changed : List K} {l : Lru K V} {e : K × V} :
    e ∈ (changed.foldl Lru.remove l).items ↔ e ∈ l.items ∧ e.1 ∉ changed := by
  induction changed generalizing l with
  | nil => simp
  | cons k changed ih =>
    rw [List.foldl_cons, ih, Lru.mem_remove]
    simp [and_assoc]

/-- Apart from the recency of its entries a read leaves the cache as it was. -/
theorem fastRead_frame {k : K} {fresh : Bool} {hit : Option V} (read : f.fastRead now k = (f', fresh, hit)) :
    f'.cursor = f.cursor ∧ f'.gen = f.gen ∧ f'.polled = f.polled ∧ f'.lastPoll = f.lastPoll ∧
      ∀ e ∈ f'.entries.items, e ∈ f.entries.items := by
  dsimp only [fastRead] at read
  split at read
  · split at read
    next found =>
      cases read
      exact ⟨rfl, rfl, rfl, rfl, fun e => Lru.mem_get found⟩
    next =>
      cases read
      exact ⟨rfl, rfl, rfl, rfl, fun _ => id⟩
  · cases read
    exact ⟨rfl, rfl, rfl, rfl, fun _ => id⟩

theorem fastRead_hit {k : K} {fresh : Bool} {v : V} (read : f.fastRead now k = (f', fresh, some v)) :
    f.freshLocked now = true ∧ (k, v) ∈ f.entries.items := by
  dsimp only [fastRead] at read
  split at read
  next fresh =>
    split at read
    next found =>
      cases read
      exact ⟨fresh, Lru.mem_of_get found⟩
    next => cases read
  next => cases read

theorem conditionalPut_frame (f : Follower K V) (now : Time) (fresh : Bool) (since gen : Nat) (k : K) (v : V) :
    (f.conditionalPut now fresh since gen k v).cursor = f.cursor ∧
      (f.conditionalPut now fresh since gen k v).gen = f.gen ∧
      (f.conditionalPut now fresh since gen k v).polled = f.polled ∧
      (f.conditionalPut now fresh since gen k v).lastPoll = f.lastPoll := by
  unfold conditionalPut
  split <;> exact ⟨rfl, rfl, rfl, rfl⟩

theorem mem_conditionalPut {fresh : Bool} {since gen : Nat} {k : K} {v : V}
    {e : K × V} (member : e ∈ (f.conditionalPut now fresh since gen k v).entries.items) :
    e ∈ f.entries.items ∨ (e = (k, v) ∧ gen = f.gen ∧ since = f.cursor ∧ f.freshLocked now = true) := by
  unfold conditionalPut at member
  split at member
  next put =>
    simp only [Bool.and_eq_true, beq_iff_eq] at put
    obtain ⟨-, ⟨gen, since⟩, fresh⟩ := put
    exact (Lru.mem_put member).symm.imp_right fun same => ⟨same, gen.symm, since.symm, fresh⟩
  next => exact .inl member

/-- What a get returns was cached and fresh, or is the answer of its own lookup. -/
theorem get_ok {lookup : K → Except ReadErr V} {k : K} {v : V} (got : f.get now lookup k = (f', .ok v)) :
    (f.freshLocked now = true ∧ (k, v) ∈ f.entries.items) ∨ lookup k = .ok v := by
  unfold get at got
  split at got
  next read =>
    cases got
    exact .inl (fastRead_hit read)
  next read =>
    split at got
    · cases got
    · cases got
    next found =>
      cases got
      exact .inr found

/-- A get caches nothing but the answer of its own lookup, and that only while fresh. -/
theorem get_frame (f : Follower K V) (now : Time) (lookup : K → Except ReadErr V) (k : K) :
    (f.get now lookup k).1.cursor = f.cursor ∧ (f.get now lookup k).1.polled = f.polled ∧
      (f.get now lookup k).1.lastPoll = f.lastPoll ∧
      ∀ e ∈ (f.get now lookup k).1.entries.items, e ∈ f.entries.items ∨
        (lookup e.1 = .ok e.2 ∧ f.freshLocked now = true) := by
  unfold get
  split
  next read =>
    obtain ⟨cursor, -, polled, lastPoll, entries⟩ := fastRead_frame read
    exact ⟨cursor, polled, lastPoll, fun e member => .inl (entries e member)⟩
  next f' fresh read =>
    obtain ⟨cursor, -, polled, lastPoll, entries⟩ := fastRead_frame read
    split
    · exact ⟨cursor, polled, lastPoll, fun e member => .inl (entries e member)⟩
    · exact ⟨cursor, polled, lastPoll, fun e member => .inl (entries e member)⟩
    next v found =>
      obtain ⟨cursor', -, polled', lastPoll'⟩ := f'.conditionalPut_frame now fresh f'.cursor f'.gen k v
      refine ⟨cursor'.trans cursor, polled'.trans polled, lastPoll'.trans lastPoll, fun e member => ?_⟩
      rcases mem_conditionalPut member with kept | ⟨rfl, -, -, fresh⟩
      · exact .inl (entries e kept)
      · simp only [freshLocked, polled, lastPoll] at fresh
        exact .inr ⟨found, fresh⟩

/-! ### A poll that nothing interrupts

`Named c k v` says that the feed names `k` past the position `c`, as the store stands
during the poll; what is cached for it may enter. -/

/-- Reading from `c` yields every key named past it, or leaves it named past a later
position; the page that ends the poll leaves none. -/
def Names (feed : Nat → Except ReadErr (List K × Nat)) (Named : Nat → K → V → Prop) : Prop :=
  ∀ c changed next, feed c = .ok (changed, next) → ∀ k v, Named c k v →
    k ∈ changed ∨ (changed.length ≠ 0 ∧ next > c ∧ Named next k v)

theorem mem_applyPage {cur next : Nat} {changed : List K} {e : K × V} :
    e ∈ (f.applyPage cur changed next).entries.items ↔ e ∈ f.entries.items ∧ e.1 ∉ changed :=
  mem_foldl_remove

/-- What a poll makes of a cache, with its result: the entries stay good or named past the
cursor, and a poll that succeeds leaves only good ones. -/
structure Polled (Q : K → V → Prop) (Named : Nat → K → V → Prop) (Valid : Nat → Prop) (began : Time)
    (f : Follower K V) (result : Follower K V × Except Err Unit) : Prop where
  cursor : Valid result.1.cursor
  entries : ∀ e ∈ result.1.entries.items, e ∈ f.entries.items ∧ (Q e.1 e.2 ∨ Named result.1.cursor e.1 e.2)
  failed : ∀ err, result.2 = .error err → result.1.polled = f.polled ∧ result.1.lastPoll = f.lastPoll
  fresh : result.2 = .ok () → result.1.polled = true ∧ result.1.lastPoll = began ∧
    ∀ e ∈ result.1.entries.items, Q e.1 e.2

section Poll
variable {feed : Nat → Except ReadErr (List K × Nat)} {Named : Nat → K → V → Prop} {began : Time}
  {Q : K → V → Prop} {Valid : Nat → Prop}

omit [DecidableEq K] in
theorem Polled.after {f f' : Follower K V} {result : Follower K V × Except Err Unit}
    (polled : Polled Q Named Valid began f' result) (entries : ∀ e ∈ f'.entries.items, e ∈ f.entries.items)
    (same : f'.polled = f.polled) (last : f'.lastPoll = f.lastPoll) : Polled Q Named Valid began f result where
  cursor := polled.cursor
  entries e member := (polled.entries e member).imp_left (entries e)
  failed := by
    rw [← same, ← last]
    exact polled.failed
  fresh := polled.fresh

omit [DecidableEq K] in
theorem Polled.stop {f : Follower K V} {err : Err} (ok : Valid f.cursor)
    (good : ∀ e ∈ f.entries.items, Q e.1 e.2 ∨ Named f.cursor e.1 e.2) :
    Polled Q Named Valid began f (f, .error err) :=
  ⟨ok, fun e member => ⟨member, good e member⟩, fun _ _ => ⟨rfl, rfl⟩, nofun⟩

theorem pollLoop_polled (names : Names feed Named) (origin : Valid 0)
    (valid : ∀ c changed next, feed c = .ok (changed, next) → next > c → Valid next) (pages : Nat) :
    ∀ (reset : Bool) (f : Follower K V), Valid f.cursor →
      (∀ e ∈ f.entries.items, Q e.1 e.2 ∨ Named f.cursor e.1 e.2) →
      Polled Q Named Valid began f (pollLoop feed began pages f.cursor reset f) := by
  induction pages with
  | zero => exact fun reset f ok good => .stop ok good
  | succ pages ih =>
    intro reset f ok good
    simp only [pollLoop]
    split
    next err failed =>
      split
      · -- A restarted cache is empty: there is nothing to vouch for.
        have again := ih true f.restart origin fun e member => (nomatch member)
        exact again.after (fun e member => (nomatch member)) rfl rfl
      · exact .stop ok good
    next changed next read =>
      -- The page evicts what it names; what stays is good, or named past the end of the page.
      have kept : ∀ e ∈ (f.applyPage f.cursor changed next).entries.items, e ∈ f.entries.items ∧
          (Q e.1 e.2 ∨ (changed.length ≠ 0 ∧ next > f.cursor ∧ Named next e.1 e.2)) := by
        intro e member
        obtain ⟨member, unnamed⟩ := mem_applyPage.mp member
        exact ⟨member, (good e member).imp_right fun named =>
          (names f.cursor changed next read e.1 e.2 named).resolve_left unnamed⟩
      split
      next last =>
        have good' : ∀ e ∈ (f.applyPage f.cursor changed next).entries.items, Q e.1 e.2 := by
          intro e member
          refine (kept e member).2.resolve_right fun ⟨nonempty, advanced, _⟩ => ?_
          exact last.elim nonempty fun behind => behind advanced
        refine ⟨?_, fun e member => ⟨(kept e member).1, .inl (good' e member)⟩, nofun, fun _ => ⟨rfl, rfl, good'⟩⟩
        simp only [markFresh, applyPage]
        split
        next advanced => exact valid f.cursor changed next read advanced
        next => exact ok
      next more =>
        have advanced : next > f.cursor := by
          by_contra behind
          exact more (.inr behind)
        have moved : (f.applyPage f.cursor changed next).cursor = next := if_pos advanced
        have rest := ih reset (f.applyPage f.cursor changed next)
        rw [moved] at rest
        replace rest := rest (valid f.cursor changed next read advanced)
          fun e member => (kept e member).2.imp_right fun named => named.2.2
        exact rest.after (fun e member => (kept e member).1) rfl rfl

theorem poll_polled (names : Names feed Named) (origin : Valid 0)
    (valid : ∀ c changed next, feed c = .ok (changed, next) → next > c → Valid next)
    {f : Follower K V} (ok : Valid f.cursor) (good : ∀ e ∈ f.entries.items, Q e.1 e.2 ∨ Named f.cursor e.1 e.2) :
    Polled Q Named Valid began f (f.poll began feed) :=
  pollLoop_polled names origin valid maxPagesPerPoll false f ok good

end Poll

end Follower
end Egauth.Revoke
