import Egauth.Revoke.Follower
import Egauth.Semantics.Run
import Mathlib.Data.Int.ConditionallyCompleteOrder
import Mathlib.Logic.Function.Basic
import Mathlib.Order.Monotone.Defs

/-! Bounded staleness of a revocation cache under concurrent use.

The source is given by its history over instants: what a lookup answers at each
instant, what the clock reads then, and the positions of the feed. Any number of
gets run step by step against one poll at a time; between two of their steps the
source may move to later instants, and entries may be forgotten. The source holds
one lock from the fast read to the capture of cursor and generation; here they are
two steps, which only adds interleavings.
-/

set_option autoImplicit false

namespace Egauth.Revoke

/-- A source whose feed is complete: a change of an answer appends its key at a later
position, at the same instant, and positions keep their key. -/
structure Source (K V : Type) where
  answer : Nat → K → Option V
  clock : Nat → Time
  top : Nat → Nat
  entry : Nat → Option K
  top_mono : ∀ n, top n ≤ top (n + 1)
  complete : ∀ n k, answer (n + 1) k ≠ answer n k → ∃ p, top n < p ∧ p ≤ top (n + 1) ∧ entry p = some k

variable {K V : Type}

/-- A page of the feed read at instant `n` from `cur`: in order, every key up to the page
end `next`, and an empty page only at the end of the feed. -/
structure Source.Page (src : Source K V) (n cur : Nat) (changed : List K) (next : Nat) : Prop where
  keys : changed = (List.range' (cur + 1) (next - cur)).filterMap src.entry
  bounded : next ≤ max cur (src.top n)
  caughtUp : changed = [] → ∀ p, cur < p → p ≤ src.top n → src.entry p = none

/-- A get in progress; `start` is the instant of its call. -/
inductive Getting (K V : Type) where
  | called (k : K) (start : Nat)
  | missed (k : K) (start : Nat) (fresh : Bool)
  | captured (k : K) (start : Nat) (fresh : Bool) (since gen : Nat)
  | answered (k : K) (start : Nat) (fresh : Bool) (since gen : Nat) (v : V)

/-- A poll in progress; `start` is the instant at which it read the clock. -/
inductive Polling (K : Type) where
  | began (start : Nat)
  | reading (start cur : Nat) (reset : Bool) (pages : Nat)
  | gap (start pages : Nat)
  | page (start cur : Nat) (changed : List K) (next : Nat) (reset : Bool) (pages : Nat)
  | caughtUp (start : Nat)

/-- `lastStart` is the instant at which the last successful poll began. The cache itself
only keeps what the clock read then. -/
structure World (K V : Type) where
  now : Nat
  cache : Follower K V
  gets : Nat → Option (Getting K V)
  poll : Option (Polling K)
  lastStart : Option Nat

inductive Label (K V : Type) where
  | internal
  | returned (k : K) (start : Nat) (v : V)

namespace World

def init (capacity : Nat) : World K V := ⟨0, .new capacity, fun _ => none, none, none⟩

def setGet (w : World K V) (cache : Follower K V) (tid : Nat) (g : Option (Getting K V)) : World K V :=
  { w with cache := cache, gets := Function.update w.gets tid g }

theorem gets_setGet (w : World K V) (cache : Follower K V) (tid tid' : Nat) (g : Option (Getting K V)) :
    (w.setGet cache tid g).gets tid' = if tid' = tid then g else w.gets tid' :=
  Function.update_apply _ _ _ _

def setPoll (w : World K V) (cache : Follower K V) (p : Option (Polling K)) : World K V :=
  { w with cache := cache, poll := p }

section Steps
variable [DecidableEq K]

inductive Step (src : Source K V) (w : World K V) : Label K V → World K V → Prop where
  | tick : Step src w .internal { w with now := w.now + 1 }
  | call (tid : Nat) (k : K) : w.gets tid = none →
      Step src w .internal (w.setGet w.cache tid (some (.called k w.now)))
  | hit (tid : Nat) {k : K} {start : Nat} {v : V} {f : Follower K V} {fresh : Bool} :
      w.gets tid = some (.called k start) →
      w.cache.fastRead (src.clock w.now) k = (f, fresh, some v) →
      Step src w (.returned k start v) (w.setGet f tid none)
  | miss (tid : Nat) {k : K} {start : Nat} {f : Follower K V} {fresh : Bool} :
      w.gets tid = some (.called k start) →
      w.cache.fastRead (src.clock w.now) k = (f, fresh, none) →
      Step src w .internal (w.setGet f tid (some (.missed k start fresh)))
  | capture (tid : Nat) {k : K} {start : Nat} {fresh : Bool} :
      w.gets tid = some (.missed k start fresh) →
      Step src w .internal (w.setGet w.cache tid (some (.captured k start fresh w.cache.cursor w.cache.gen)))
  | lookup (tid : Nat) {k : K} {start since gen : Nat} {fresh : Bool} {v : V} :
      w.gets tid = some (.captured k start fresh since gen) → src.answer w.now k = some v →
      Step src w .internal (w.setGet w.cache tid (some (.answered k start fresh since gen v)))
  | notFound (tid : Nat) {k : K} {start since gen : Nat} {fresh : Bool} :
      w.gets tid = some (.captured k start fresh since gen) → src.answer w.now k = none →
      Step src w .internal (w.setGet w.cache tid none)
  | unavailable (tid : Nat) {k : K} {start since gen : Nat} {fresh : Bool} :
      w.gets tid = some (.captured k start fresh since gen) →
      Step src w .internal (w.setGet w.cache tid none)
  | put (tid : Nat) {k : K} {start since gen : Nat} {fresh : Bool} {v : V} :
      w.gets tid = some (.answered k start fresh since gen v) →
      Step src w (.returned k start v)
        (w.setGet (w.cache.conditionalPut (src.clock w.now) fresh since gen k v) tid none)
  | forget (k : K) : Step src w .internal { w with cache := w.cache.forget k }
  | forgetWhere (drop : K → V → Bool) : Step src w .internal { w with cache := w.cache.forgetWhere drop }
  | pollBegin : w.poll = none → Step src w .internal (w.setPoll w.cache (some (.began w.now)))
  | pollCursor {start : Nat} : w.poll = some (.began start) →
      Step src w .internal (w.setPoll w.cache (some (.reading start w.cache.cursor false maxPagesPerPoll)))
  | readPage {start cur next pages : Nat} {reset : Bool} {changed : List K} :
      w.poll = some (.reading start cur reset (pages + 1)) → src.Page w.now cur changed next →
      Step src w .internal (w.setPoll w.cache (some (.page start cur changed next reset pages)))
  | readGap {start cur pages : Nat} : w.poll = some (.reading start cur false (pages + 1)) → cur ≠ 0 →
      Step src w .internal (w.setPoll w.cache (some (.gap start pages)))
  | readFail {start cur pages : Nat} {reset : Bool} : w.poll = some (.reading start cur reset (pages + 1)) →
      Step src w .internal (w.setPoll w.cache none)
  | backlog {start cur : Nat} {reset : Bool} : w.poll = some (.reading start cur reset 0) →
      Step src w .internal (w.setPoll w.cache none)
  | restart {start pages : Nat} : w.poll = some (.gap start pages) →
      Step src w .internal (w.setPoll w.cache.restart (some (.reading start 0 true pages)))
  | applyPage {start cur next pages : Nat} {reset : Bool} {changed : List K} :
      w.poll = some (.page start cur changed next reset pages) → changed ≠ [] → next > cur →
      Step src w .internal
        (w.setPoll (w.cache.applyPage cur changed next) (some (.reading start next reset pages)))
  | applyLast {start cur next pages : Nat} {reset : Bool} {changed : List K} :
      w.poll = some (.page start cur changed next reset pages) → changed = [] ∨ ¬ next > cur →
      Step src w .internal (w.setPoll (w.cache.applyPage cur changed next) (some (.caughtUp start)))
  | mark {start : Nat} : w.poll = some (.caughtUp start) →
      Step src w .internal
        { w with cache := w.cache.markFresh (src.clock start), poll := none, lastStart := some start }

end Steps

section Invariant
variable (src : Source K V)

/-- The pair is cached, or a get may still put it: its lookup is answered and nothing
was applied since its capture. -/
def Held (w : World K V) (k : K) (v : V) : Prop :=
  (k, v) ∈ w.cache.entries.items ∨
    ∃ tid start fresh, w.gets tid = some (.answered k start fresh w.cache.cursor w.cache.gen v)

def Pending (cursor bound : Nat) (k : K) : Prop := ∃ p, cursor < p ∧ p ≤ bound ∧ src.entry p = some k

def AnsweredSince (n b : Nat) (k : K) (v : V) : Prop := ∃ j, b ≤ j ∧ j ≤ n ∧ src.answer j k = some v

/-- During a poll that began at `b`: what is held was the answer since, or the feed
already named it when the poll began and has yet to be read. -/
def Followed (w : World K V) (b : Nat) : Prop :=
  ∀ k v, w.Held k v → AnsweredSince src w.now b k v ∨ Pending src w.cache.cursor (src.top b) k

def GetOk (w : World K V) : Getting K V → Prop
  | .called _ start | .missed _ start _ => start ≤ w.now
  | .captured _ start _ _ gen => start ≤ w.now ∧ gen ≤ w.cache.gen
  | .answered k start _ _ gen v => AnsweredSince src w.now start k v ∧ gen ≤ w.cache.gen

def PollOk (w : World K V) : Polling K → Prop
  | .began b | .gap b _ => b ≤ w.now ∧ Followed src w b
  | .reading b cur _ _ => b ≤ w.now ∧ cur = w.cache.cursor ∧ Followed src w b
  | .page b cur changed next _ _ =>
    (∃ n, b ≤ n ∧ n ≤ w.now ∧ src.Page n cur changed next) ∧ cur = w.cache.cursor ∧ Followed src w b
  | .caughtUp b => b ≤ w.now ∧ ∀ k v, w.Held k v → AnsweredSince src w.now b k v

structure Inv (w : World K V) : Prop where
  cursor : w.cache.cursor ≤ src.top w.now
  polled : w.cache.polled = true → ∃ b, w.lastStart = some b ∧ w.cache.lastPoll = src.clock b
  current : ∀ k v, w.Held k v →
    src.answer w.now k = some v ∨ Pending src w.cache.cursor (src.top w.now) k
  vouched : ∀ b, w.lastStart = some b → b ≤ w.now ∧ ∀ k v, w.Held k v → AnsweredSince src w.now b k v
  gets : ∀ tid g, w.gets tid = some g → GetOk src w g
  poll : ∀ p, w.poll = some p → PollOk src w p

end Invariant

variable {src : Source K V} {w w' : World K V} {f : Follower K V} {p : Option (Polling K)}

theorem top_le_top {m n : Nat} (le : m ≤ n) : src.top m ≤ src.top n :=
  monotone_nat_of_le_succ src.top_mono le

theorem AnsweredSince.mono {n n' b : Nat} {k : K} {v : V} (answered : AnsweredSince src n b k v)
    (le : n ≤ n') : AnsweredSince src n' b k v := by
  obtain ⟨j, from_b, to_n, answer⟩ := answered
  exact ⟨j, from_b, to_n.trans le, answer⟩

/-- A step that moves neither the source nor the cursor nor the poll, and holds nothing
new but current answers. -/
theorem Inv.quiet (inv : Inv src w) (now : w'.now = w.now) (cursor : w'.cache.cursor = w.cache.cursor)
    (polled : w'.cache.polled = w.cache.polled) (lastPoll : w'.cache.lastPoll = w.cache.lastPoll)
    (lastStart : w'.lastStart = w.lastStart) (poll : w'.poll = w.poll)
    (held : ∀ k v, w'.Held k v → w.Held k v ∨ src.answer w.now k = some v)
    (gets : ∀ tid g, w'.gets tid = some g → GetOk src w' g) : Inv src w' := by
  have answered : ∀ {b}, b ≤ w.now → (∀ k v, w.Held k v → AnsweredSince src w.now b k v) →
      ∀ k v, w'.Held k v → AnsweredSince src w'.now b k v := by
    intro b le all k v held'
    rw [now]
    exact (held k v held').elim (all k v) fun answer => ⟨w.now, le, le_rfl, answer⟩
  have followed : ∀ {b}, b ≤ w.now → Followed src w b → Followed src w' b := by
    intro b le all k v held'
    rw [now, cursor]
    exact (held k v held').elim (all k v) fun answer => .inl ⟨w.now, le, le_rfl, answer⟩
  refine ⟨by rw [now, cursor]; exact inv.cursor, ?_, ?_, ?_, gets, ?_⟩
  · rw [polled, lastPoll, lastStart]
    exact inv.polled
  · intro k v held'
    rw [now, cursor]
    exact (held k v held').elim (inv.current k v) .inl
  · intro b start
    rw [lastStart] at start
    obtain ⟨le, all⟩ := inv.vouched b start
    exact ⟨now ▸ le, answered le all⟩
  · intro p running
    rw [poll] at running
    have ok := inv.poll p running
    cases p with
    | began b => exact ⟨now ▸ ok.1, followed ok.1 ok.2⟩
    | gap b => exact ⟨now ▸ ok.1, followed ok.1 ok.2⟩
    | reading b cur => exact ⟨now ▸ ok.1, cursor ▸ ok.2.1, followed ok.1 ok.2.2⟩
    | page b cur changed next =>
      obtain ⟨⟨n, from_b, to_now, page⟩, same, all⟩ := ok
      exact ⟨⟨n, from_b, now ▸ to_now, page⟩, cursor ▸ same, followed (from_b.trans to_now) all⟩
    | caughtUp b => exact ⟨now ▸ ok.1, answered ok.1 ok.2⟩

theorem Inv.init (src : Source K V) (capacity : Nat) : Inv src (init capacity) := by
  have nothing : ∀ k v, ¬ (World.init capacity : World K V).Held k v := by
    rintro k v (cached | ⟨tid, start, fresh, running⟩)
    · cases cached
    · cases running
  exact ⟨Nat.zero_le _, nofun, fun k v held => absurd held (nothing k v), nofun, nofun, nofun⟩

theorem Inv.setGet (inv : Inv src w) {tid : Nat} {g : Option (Getting K V)}
    (cursor : f.cursor = w.cache.cursor) (gen : f.gen = w.cache.gen)
    (polled : f.polled = w.cache.polled) (lastPoll : f.lastPoll = w.cache.lastPoll)
    (entries : ∀ e ∈ f.entries.items, w.Held e.1 e.2) (ok : ∀ g', g = some g' → GetOk src w g')
    (answered : ∀ {k start fresh since gen v}, g = some (.answered k start fresh since gen v) →
      src.answer w.now k = some v) : Inv src (w.setGet f tid g) := by
  refine inv.quiet rfl cursor polled lastPoll rfl rfl ?_ ?_
  · rintro k v (cached | ⟨tid', start, fresh, running⟩)
    · exact .inl (entries _ cached)
    · rw [gets_setGet] at running
      split at running
      next => exact .inr (answered running)
      next =>
        simp only [World.setGet, cursor, gen] at running
        exact .inl (.inr ⟨tid', start, fresh, running⟩)
  · have congr : ∀ g', GetOk src w g' → GetOk src (w.setGet f tid g) g' := by
      intro g' ok
      cases g' with
      | called | missed => exact ok
      | captured | answered => exact ⟨ok.1, gen ▸ ok.2⟩
    intro tid' g' running
    rw [gets_setGet] at running
    split at running
    next => exact congr g' (ok g' running)
    next => exact congr g' (inv.gets tid' g' running)

/-- Once the generation has moved, no answer in flight can be put. -/
theorem Inv.held_of_bump (inv : Inv src w) (gen : f.gen = w.cache.gen + 1)
    {k : K} {v : V} (held : (w.setPoll f p).Held k v) : (k, v) ∈ f.entries.items := by
  rcases held with cached | ⟨tid, start, fresh, running⟩
  · exact cached
  · have ticket := (inv.gets tid _ running).2
    simp only [World.setPoll, gen] at ticket
    omega

theorem Inv.gets_of_bump (inv : Inv src w) (gen : f.gen = w.cache.gen + 1)
    (tid : Nat) (g : Getting K V) (running : w.gets tid = some g) : GetOk src (w.setPoll f p) g := by
  have ok := inv.gets tid g running
  cases g with
  | called | missed => exact ok
  | captured | answered => exact ⟨ok.1, gen ▸ Nat.le_succ_of_le ok.2⟩

theorem Inv.tick (inv : Inv src w) : Inv src { w with now := w.now + 1 } := by
  have grows : src.top w.now ≤ src.top (w.now + 1) := src.top_mono w.now
  have later : ∀ {b}, (∀ k v, w.Held k v → AnsweredSince src w.now b k v) →
      ∀ k v, w.Held k v → AnsweredSince src (w.now + 1) b k v :=
    fun all k v held => (all k v held).mono (Nat.le_succ _)
  have followed : ∀ {b}, Followed src w b → Followed src { w with now := w.now + 1 } b :=
    fun all k v held => (all k v held).imp_left fun answered => answered.mono (Nat.le_succ _)
  refine ⟨inv.cursor.trans grows, inv.polled, fun k v held => ?_, fun b start => ?_, fun tid g running => ?_,
    fun p running => ?_⟩
  · -- Either nothing changed for the key, or the change is in the feed past the cursor.
    by_cases changed : src.answer (w.now + 1) k = src.answer w.now k
    · exact (inv.current k v held).imp changed.trans fun ⟨p, after, bound, named⟩ =>
        ⟨p, after, bound.trans grows, named⟩
    · obtain ⟨p, after, bound, named⟩ := src.complete w.now k changed
      exact .inr ⟨p, lt_of_le_of_lt inv.cursor after, bound, named⟩
  · obtain ⟨le, all⟩ := inv.vouched b start
    exact ⟨Nat.le_succ_of_le le, later all⟩
  · have ok := inv.gets tid g running
    cases g with
    | called | missed => exact Nat.le_succ_of_le ok
    | captured => exact ⟨Nat.le_succ_of_le ok.1, ok.2⟩
    | answered => exact ⟨ok.1.mono (Nat.le_succ _), ok.2⟩
  · have ok := inv.poll p running
    cases p with
    | began | gap => exact ⟨Nat.le_succ_of_le ok.1, followed ok.2⟩
    | reading => exact ⟨Nat.le_succ_of_le ok.1, ok.2.1, followed ok.2.2⟩
    | page =>
      obtain ⟨⟨n, from_b, to_now, page⟩, same, all⟩ := ok
      exact ⟨⟨n, from_b, Nat.le_succ_of_le to_now, page⟩, same, followed all⟩
    | caughtUp => exact ⟨Nat.le_succ_of_le ok.1, later ok.2⟩

theorem Inv.drop (inv : Inv src w) (gen : f.gen = w.cache.gen + 1)
    (cursor : f.cursor = w.cache.cursor) (polled : f.polled = w.cache.polled)
    (lastPoll : f.lastPoll = w.cache.lastPoll)
    (entries : ∀ e ∈ f.entries.items, e ∈ w.cache.entries.items) : Inv src (w.setPoll f w.poll) :=
  inv.quiet rfl cursor polled lastPoll rfl rfl
    (fun _ _ held => .inl (.inl (entries _ (inv.held_of_bump gen held)))) (inv.gets_of_bump gen)

theorem Inv.setPoll (inv : Inv src w) (ok : ∀ p', p = some p' → PollOk src w p') : Inv src (w.setPoll w.cache p) :=
  ⟨inv.cursor, inv.polled, inv.current, inv.vouched, inv.gets, ok⟩

/-- Before the first page a poll has everything still to read. -/
theorem Inv.followed_now (inv : Inv src w) : Followed src w w.now := fun k v held =>
  (inv.current k v held).imp_left fun answer => ⟨w.now, le_rfl, le_rfl, answer⟩

theorem Inv.restart (inv : Inv src w) {b pages : Nat} (running : w.poll = some (.gap b pages)) :
    Inv src (w.setPoll w.cache.restart (some (.reading b 0 true pages))) := by
  have nothing : ∀ k v, ¬ (w.setPoll w.cache.restart (some (.reading b 0 true pages))).Held k v :=
    fun k v held => nomatch inv.held_of_bump rfl held
  refine ⟨Nat.zero_le _, inv.polled, fun k v held => absurd held (nothing k v), fun b start => ?_,
    inv.gets_of_bump rfl, ?_⟩
  · exact ⟨(inv.vouched b start).1, fun k v held => absurd held (nothing k v)⟩
  · rintro _ ⟨⟩
    exact ⟨(inv.poll _ running).1, rfl, fun k v held => absurd held (nothing k v)⟩

theorem Page.mem {n cur next : Nat} {changed : List K} (page : src.Page n cur changed next) {p : Nat} {k : K}
    (after : cur < p) (bound : p ≤ next) (named : src.entry p = some k) : k ∈ changed := by
  rw [page.keys]
  exact List.mem_filterMap.mpr ⟨p, by rw [List.mem_range'_1]; omega, named⟩

variable [DecidableEq K]

/-- What survives the eviction of a page is not named in it: a pending position lies past
its end. -/
theorem pending_applyPage {n next bound : Nat} {changed : List K}
    (page : src.Page n w.cache.cursor changed next) {k : K} (unnamed : k ∉ changed)
    (pending : Pending src w.cache.cursor bound k) :
    Pending src (w.cache.applyPage w.cache.cursor changed next).cursor bound k := by
  obtain ⟨p, after, bound, named⟩ := pending
  refine ⟨p, ?_, bound, named⟩
  simp only [Follower.applyPage]
  split
  · by_contra inside
    exact unnamed (Page.mem page after (by omega) named)
  · exact after

section Page
variable (inv : Inv src w) {b n next : Nat} {changed : List K} {p : Option (Polling K)}
  (page : src.Page n w.cache.cursor changed next)
include inv

theorem kept_applyPage {k : K} {v : V}
    (held : (w.setPoll (w.cache.applyPage w.cache.cursor changed next) p).Held k v) :
    w.Held k v ∧ k ∉ changed := by
  obtain ⟨cached, unnamed⟩ := Follower.mem_foldl_remove.mp (inv.held_of_bump rfl held)
  exact ⟨.inl cached, unnamed⟩

include page

theorem Followed.applyPage (followed : Followed src w b) :
    Followed src (w.setPoll (w.cache.applyPage w.cache.cursor changed next) p) b := by
  intro k v held
  obtain ⟨held, unnamed⟩ := kept_applyPage inv held
  exact (followed k v held).imp_right (pending_applyPage page unnamed)

/-- The last page of a poll is empty, so nothing named before the poll is left. -/
theorem Followed.applyLast (followed : Followed src w b) (from_b : b ≤ n)
    (last : changed = [] ∨ ¬ next > w.cache.cursor) :
    ∀ k v, (w.setPoll (w.cache.applyPage w.cache.cursor changed next) p).Held k v →
      AnsweredSince src w.now b k v := by
  intro k v held
  refine (followed k v (kept_applyPage inv held).1).resolve_right ?_
  rintro ⟨p, after, bound, named⟩
  have empty : changed = [] := by
    rcases last with empty | behind
    · exact empty
    · -- A page that does not advance covers no position.
      rw [page.keys, Nat.sub_eq_zero_of_le (not_lt.mp behind)]
      rfl
  have grows : src.top b ≤ src.top n := top_le_top from_b
  rw [page.caughtUp empty p after (bound.trans grows)] at named
  cases named

theorem Inv.applyPage (to_now : n ≤ w.now)
    (ok : ∀ p', p = some p' → PollOk src (w.setPoll (w.cache.applyPage w.cache.cursor changed next) p) p') :
    Inv src (w.setPoll (w.cache.applyPage w.cache.cursor changed next) p) := by
  refine ⟨?_, inv.polled, fun k v held => ?_, fun b start => ?_, inv.gets_of_bump rfl, ok⟩
  · simp only [World.setPoll, Follower.applyPage]
    have bounded := page.bounded
    have grows : src.top n ≤ src.top w.now := top_le_top to_now
    have within := inv.cursor
    split <;> omega
  · obtain ⟨held, unnamed⟩ := kept_applyPage inv held
    exact (inv.current k v held).imp_right (pending_applyPage page unnamed)
  · obtain ⟨le, all⟩ := inv.vouched b start
    exact ⟨le, fun k v held => all k v (kept_applyPage inv held).1⟩

end Page

omit [DecidableEq K] in
theorem Inv.mark (inv : Inv src w) {b : Nat} (running : w.poll = some (.caughtUp b)) :
    Inv src { w with cache := w.cache.markFresh (src.clock b), poll := none, lastStart := some b } := by
  obtain ⟨le, all⟩ := inv.poll _ running
  refine ⟨inv.cursor, fun _ => ⟨b, rfl, rfl⟩, inv.current, ?_, inv.gets, nofun⟩
  rintro _ ⟨⟩
  exact ⟨le, all⟩

theorem Inv.step (inv : Inv src w) {label : Label K V} (step : Step src w label w') : Inv src w' := by
  have cached : ∀ e ∈ w.cache.entries.items, w.Held e.1 e.2 := fun _ => .inl
  cases step with
  | tick => exact inv.tick
  | call tid k idle =>
    refine inv.setGet rfl rfl rfl rfl cached ?_ nofun
    rintro _ ⟨⟩
    exact le_rfl
  | hit tid running read =>
    obtain ⟨cursor, gen, polled, lastPoll, entries⟩ := Follower.fastRead_frame read
    exact inv.setGet cursor gen polled lastPoll (fun e member => cached e (entries e member)) nofun nofun
  | miss tid running read =>
    obtain ⟨cursor, gen, polled, lastPoll, entries⟩ := Follower.fastRead_frame read
    have ok := inv.gets tid _ running
    refine inv.setGet cursor gen polled lastPoll (fun e member => cached e (entries e member)) ?_ nofun
    rintro _ ⟨⟩
    exact ok
  | capture tid running =>
    refine inv.setGet rfl rfl rfl rfl cached ?_ nofun
    rintro _ ⟨⟩
    exact ⟨inv.gets tid _ running, le_rfl⟩
  | lookup tid running answer =>
    have ok := inv.gets tid _ running
    refine inv.setGet rfl rfl rfl rfl cached ?_ ?_
    · rintro _ ⟨⟩
      exact ⟨⟨w.now, ok.1, le_rfl, answer⟩, ok.2⟩
    · rintro _ _ _ _ _ _ ⟨⟩
      exact answer
  | notFound tid | unavailable tid => exact inv.setGet rfl rfl rfl rfl cached nofun nofun
  | @put tid k start since gen fresh v running =>
    obtain ⟨cursor, gen', polled, lastPoll⟩ :=
      w.cache.conditionalPut_frame (src.clock w.now) fresh since gen k v
    refine inv.setGet cursor gen' polled lastPoll (fun e member => ?_) nofun nofun
    rcases Follower.mem_conditionalPut member with kept | ⟨rfl, rfl, rfl, -⟩
    · exact cached e kept
    · exact .inr ⟨tid, start, fresh, running⟩
  | forget k => exact inv.drop rfl rfl rfl rfl fun e member => (Lru.mem_remove.mp member).1
  | forgetWhere drop => exact inv.drop rfl rfl rfl rfl fun e member => (Lru.mem_removeWhere.mp member).1
  | pollBegin =>
    refine inv.setPoll ?_
    rintro _ ⟨⟩
    exact ⟨le_rfl, inv.followed_now⟩
  | pollCursor running =>
    refine inv.setPoll ?_
    rintro _ ⟨⟩
    obtain ⟨le, followed⟩ := inv.poll _ running
    exact ⟨le, rfl, followed⟩
  | readPage running page =>
    refine inv.setPoll ?_
    rintro _ ⟨⟩
    obtain ⟨le, same, followed⟩ := inv.poll _ running
    exact ⟨⟨w.now, le, le_rfl, page⟩, same, followed⟩
  | readGap running =>
    refine inv.setPoll ?_
    rintro _ ⟨⟩
    obtain ⟨le, -, followed⟩ := inv.poll _ running
    exact ⟨le, followed⟩
  | readFail | backlog => exact inv.setPoll nofun
  | restart running => exact inv.restart running
  | applyPage running _ advanced =>
    obtain ⟨⟨n, from_b, to_now, page⟩, rfl, followed⟩ := inv.poll _ running
    refine inv.applyPage page to_now ?_
    rintro _ ⟨⟩
    exact ⟨from_b.trans to_now, (if_pos advanced).symm, followed.applyPage inv page⟩
  | applyLast running last =>
    obtain ⟨⟨n, from_b, to_now, page⟩, rfl, followed⟩ := inv.poll _ running
    refine inv.applyPage page to_now ?_
    rintro _ ⟨⟩
    exact ⟨from_b.trans to_now, followed.applyLast inv page from_b last⟩
  | mark running => exact inv.mark running

/-- A served value was the answer since the last successful poll began, which was less
than the bound ago, or during the get itself. -/
theorem Inv.returned (inv : Inv src w) {k : K} {start : Nat} {v : V} (step : Step src w (.returned k start v) w') :
    ∃ j, j ≤ w.now ∧ src.answer j k = some v ∧ (start ≤ j ∨ ∃ b, w.lastStart = some b ∧ b ≤ j ∧
      start ≤ w.now ∧ src.clock w.now - src.clock b < pollBound) := by
  cases step with
  | hit tid running read =>
    obtain ⟨fresh, cached⟩ := Follower.fastRead_hit read
    obtain ⟨polled, -, recent⟩ := Follower.freshLocked_iff.mp fresh
    -- A hit rests on the last successful poll, which is recent.
    obtain ⟨b, last, began⟩ := inv.polled polled
    obtain ⟨j, from_b, to_now, answer⟩ := (inv.vouched b last).2 k v (.inl cached)
    have called := inv.gets tid _ running
    exact ⟨j, to_now, answer, .inr ⟨b, last, from_b, called, began ▸ recent⟩⟩
  | put tid running =>
    -- A miss rests on its own lookup.
    obtain ⟨⟨j, from_start, to_now, answer⟩, -⟩ := inv.gets tid _ running
    exact ⟨j, to_now, answer, .inl from_start⟩

theorem Inv.run {capacity : Nat} {labels : List (Label K V)}
    (run : Run (Step src) (World.init capacity) labels w) : Inv src w :=
  run.invariant (Inv src) (fun inv step => inv.step step) (.init src capacity)

/-- In any interleaving of gets, polls, forgets and source changes, a get returns an answer
of the source since the last successful poll began or since its own start. Under a
non-decreasing clock it comes after every instant more than the bound before the start. -/
theorem get_bounded_staleness {capacity : Nat} {labels : List (Label K V)}
    (run : Run (Step src) (init capacity) labels w) {k : K} {start : Nat} {v : V}
    (step : Step src w (.returned k start v) w') :
    ∃ j, j ≤ w.now ∧ src.answer j k = some v ∧ (start ≤ j ∨ ∃ b, w.lastStart = some b ∧ b ≤ j) ∧
      (Monotone src.clock → ∀ m, src.clock m + pollBound < src.clock start → m < j) := by
  obtain ⟨j, to_now, answer, since⟩ := (Inv.run run).returned step
  refine ⟨j, to_now, answer, since.imp_right fun ⟨b, last, from_b, _⟩ => ⟨b, last, from_b⟩, ?_⟩
  intro mono m early
  have bound : (0 : Duration) < pollBound := by decide
  rcases since with from_start | ⟨b, -, from_b, called, recent⟩
  · refine lt_of_lt_of_le (mono.reflect_lt ?_) from_start
    linarith
  · have later := mono called
    refine lt_of_lt_of_le (mono.reflect_lt ?_) from_b
    linarith

/-- One key changes at the second instant; two poll intervals lie between two instants. -/
def changingSource : Source Nat Nat where
  answer n k := some (if k = 5 ∧ 2 ≤ n then 8 else 7)
  clock n := n * (2 * pollInterval)
  top n := if 2 ≤ n then 1 else 0
  entry p := if p = 1 then some 5 else none
  top_mono n := by split_ifs <;> omega
  complete n k changed := by
    have own : k = 5 := by
      by_contra other
      simp [other] at changed
    have turns : n = 1 := by
      by_contra other
      refine changed ?_
      simp only [show (2 ≤ n + 1 ↔ 2 ≤ n) by omega]
    subst own turns
    exact ⟨1, by decide, by decide, rfl⟩

theorem changingSource_clock : Monotone changingSource.clock := by
  refine monotone_nat_of_le_succ fun n => ?_
  have positive : (0 : Duration) ≤ 2 * pollInterval := by decide
  change (n : Int) * (2 * pollInterval) ≤ (n + 1 : Nat) * (2 * pollInterval)
  gcongr
  omega

theorem changingSource_page : changingSource.Page 1 0 [] 0 :=
  ⟨rfl, le_rfl, fun _ _ past upTo => absurd (past.trans_le upTo) (by decide)⟩

-- The cache polls and a first get puts the answer of the first instant. It has changed when a second get hits it.
theorem get_bounded_staleness_changed : changingSource.answer 2 5 = some 8 ∧
    ∃ j, 0 < j ∧ j ≤ 2 ∧ changingSource.answer j 5 = some 7 ∧ (2 ≤ j ∨ ∃ b, some 1 = some b ∧ b ≤ j) := by
  have began : Run (Step changingSource) (init 1) _ _ := (Run.single .tick).snoc (.pollBegin rfl)
  have polled : Run (Step changingSource) (init 1) _
      ⟨1, ⟨0, 1, true, changingSource.clock 1, .new 1⟩, fun _ => none, none, some 1⟩ :=
    (((began.snoc (.pollCursor rfl)).snoc (.readPage rfl changingSource_page)).snoc
      (.applyLast rfl (.inl rfl))).snoc (.mark rfl)
  have miss : (⟨0, 1, true, changingSource.clock 1, .new 1⟩ : Follower Nat Nat).fastRead (changingSource.clock 1) 5 =
      (⟨0, 1, true, changingSource.clock 1, .new 1⟩, true, none) := rfl
  have missed := ((polled.snoc (.call 0 5 rfl)).snoc (.miss 0 rfl miss)).snoc (.capture 0 rfl)
  have cached := ((missed.snoc (.lookup 0 rfl rfl)).snoc (.put 0 rfl)).snoc .tick
  have hit : (⟨0, 1, true, changingSource.clock 1, ⟨1, [(5, 7)], by decide⟩⟩ : Follower Nat Nat).fastRead
      (changingSource.clock 2) 5 = (⟨0, 1, true, changingSource.clock 1, ⟨1, [(5, 7)], by decide⟩⟩, true, some 7) := rfl
  obtain ⟨j, past, answer, since, bound⟩ := get_bounded_staleness (cached.snoc (.call 1 5 rfl)) (.hit 1 rfl hit)
  exact ⟨rfl, j, bound changingSource_clock 0 (by decide), past, answer, since⟩

end World
end Egauth.Revoke
