import Egauth.Revoke.Follower

/-! A cache over a source that changes between its calls.

The source is in some state and has a clock; a get, a poll and a change of the
source each run on their own. `Good` says what a cached entry has to mean to the
source, `Named` that the feed still names it past a position, and `Valid` that a
position is one the source has issued. If the source keeps its entries good or
named, then whatever a get serves was good less than the bound ago.
-/

set_option autoImplicit false

namespace Egauth.Revoke

structure Cached (S K V : Type) where
  clock : Time
  source : S
  cache : Follower K V

variable {S K V : Type}

/-- Every entry is good or still named, and was good at an instant since the last
successful poll. `past` holds the earlier states. -/
structure Vouched (Good : Time → S → K → V → Prop) (Named : S → Nat → K → V → Prop) (Valid : S → Nat → Prop)
    (past : List (Cached S K V)) (w : Cached S K V) : Prop where
  cursor : Valid w.source w.cache.cursor
  known : ∀ e ∈ w.cache.entries.items,
    Good w.clock w.source e.1 e.2 ∨ Named w.source w.cache.cursor e.1 e.2
  vouched : ∀ e ∈ w.cache.entries.items, ∃ w₀ ∈ w :: past,
    w.cache.lastPoll ≤ w₀.clock ∧ Good w₀.clock w₀.source e.1 e.2
  order : ∀ w₀ ∈ past, w₀.clock ≤ w.clock

namespace Vouched
variable {Good : Time → S → K → V → Prop} {Named : S → Nat → K → V → Prop} {Valid : S → Nat → Prop}
  {past : List (Cached S K V)} {w : Cached S K V}

theorem order_cons (vouched : Vouched Good Named Valid past w) {clock : Time} (later : w.clock ≤ clock) :
    ∀ w₀ ∈ w :: past, w₀.clock ≤ clock := by
  intro w₀ member
  rcases List.mem_cons.mp member with rfl | earlier
  · exact later
  · exact (vouched.order w₀ earlier).trans later

theorem new (source : S) (clock : Time) (capacity : Nat) (valid : Valid source 0) :
    Vouched Good Named Valid [] ⟨clock, source, .new capacity⟩ :=
  ⟨valid, nofun, nofun, nofun⟩

theorem move (vouched : Vouched Good Named Valid past w) {clock : Time} {source : S}
    (later : w.clock ≤ clock) (cursor : Valid source w.cache.cursor)
    (known : ∀ e ∈ w.cache.entries.items,
      Good w.clock w.source e.1 e.2 ∨ Named w.source w.cache.cursor e.1 e.2 →
      Good clock source e.1 e.2 ∨ Named source w.cache.cursor e.1 e.2) :
    Vouched Good Named Valid (w :: past) ⟨clock, source, w.cache⟩ where
  cursor := cursor
  known e member := known e member (vouched.known e member)
  vouched e member := by
    obtain ⟨w₀, earlier, facts⟩ := vouched.vouched e member
    exact ⟨w₀, List.mem_cons_of_mem _ earlier, facts⟩
  order := vouched.order_cons later

/-- The cache changes, keeping its cursor and its last poll, and caches nothing but good
answers of the moment. -/
theorem recache (vouched : Vouched Good Named Valid past w) {f : Follower K V}
    (cursor : f.cursor = w.cache.cursor) (lastPoll : f.lastPoll = w.cache.lastPoll)
    (entries : ∀ e ∈ f.entries.items, e ∈ w.cache.entries.items ∨
      (Good w.clock w.source e.1 e.2 ∧ w.cache.lastPoll ≤ w.clock)) :
    Vouched Good Named Valid (w :: past) { w with cache := f } where
  cursor := by
    rw [cursor]
    exact vouched.cursor
  known e member := by
    rw [cursor]
    exact (entries e member).elim (vouched.known e) fun answer => .inl answer.1
  vouched e member := by
    rw [lastPoll]
    rcases entries e member with cached | answer
    · obtain ⟨w₀, earlier, facts⟩ := vouched.vouched e cached
      exact ⟨w₀, List.mem_cons_of_mem _ earlier, facts⟩
    · exact ⟨w, List.mem_cons_of_mem _ List.mem_cons_self, answer.2, answer.1⟩
  order := vouched.order_cons le_rfl

variable [DecidableEq K]

theorem get (vouched : Vouched Good Named Valid past w) (lookup : K → Except ReadErr V)
    (answers : ∀ k v, lookup k = .ok v → Good w.clock w.source k v) (k : K) :
    Vouched Good Named Valid (w :: past) { w with cache := (w.cache.get w.clock lookup k).1 } := by
  obtain ⟨cursor, -, lastPoll, entries⟩ := w.cache.get_frame w.clock lookup k
  refine vouched.recache cursor lastPoll fun e member => (entries e member).imp_right fun answer => ?_
  exact ⟨answers e.1 e.2 answer.1, (Follower.freshLocked_iff.mp answer.2).2.1⟩

variable {feed : Nat → Except ReadErr (List K × Nat)}

theorem polled (vouched : Vouched Good Named Valid past w)
    (names : Follower.Names feed (Named w.source)) (origin : Valid w.source 0)
    (valid : ∀ c changed next, feed c = .ok (changed, next) → next > c → Valid w.source next) :
    Follower.Polled (Good w.clock w.source) (Named w.source) (Valid w.source) w.clock w.cache
      (w.cache.poll w.clock feed) :=
  Follower.poll_polled names origin valid vouched.cursor vouched.known

theorem poll (vouched : Vouched Good Named Valid past w)
    (names : Follower.Names feed (Named w.source)) (origin : Valid w.source 0)
    (valid : ∀ c changed next, feed c = .ok (changed, next) → next > c → Valid w.source next) :
    Vouched Good Named Valid (w :: past) { w with cache := (w.cache.poll w.clock feed).1 } := by
  have polled := vouched.polled names origin valid
  refine ⟨polled.cursor, fun e member => (polled.entries e member).2, fun e member => ?_,
    vouched.order_cons le_rfl⟩
  cases result : (w.cache.poll w.clock feed).2 with
  | error err =>
    obtain ⟨w₀, earlier, recent, answer⟩ := vouched.vouched e (polled.entries e member).1
    exact ⟨w₀, List.mem_cons_of_mem _ earlier, by rw [(polled.failed err result).2]; exact recent, answer⟩
  | ok done =>
    obtain ⟨-, last, good⟩ := polled.fresh result
    exact ⟨w, List.mem_cons_of_mem _ List.mem_cons_self, by rw [last], good e member⟩

/-- Whatever a get serves was good less than the bound ago. -/
theorem served (vouched : Vouched Good Named Valid past w) {lookup : K → Except ReadErr V} {k : K} {v : V}
    {f : Follower K V} (answers : lookup k = .ok v → Good w.clock w.source k v)
    (got : w.cache.get w.clock lookup k = (f, .ok v)) :
    ∃ w₀ ∈ w :: past, w.clock - pollBound < w₀.clock ∧ w₀.clock ≤ w.clock ∧ Good w₀.clock w₀.source k v := by
  rcases Follower.get_ok got with ⟨fresh, cached⟩ | found
  · obtain ⟨-, -, recent⟩ := Follower.freshLocked_iff.mp fresh
    obtain ⟨w₀, earlier, since, good⟩ := vouched.vouched (k, v) cached
    exact ⟨w₀, earlier, by linarith, vouched.order_cons le_rfl w₀ earlier, good⟩
  · have positive : (0 : Duration) < pollBound := by decide
    exact ⟨w, List.mem_cons_self, by linarith, le_rfl, answers found⟩

end Vouched
end Egauth.Revoke
