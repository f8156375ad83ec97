import Egauth.Keys.Feed
import Egauth.Revoke.Vouched

/-! The keyset cache over the in-process key store.

A keyset is whatever `load` makes of the keys a tenant has, at the clock of the
lookup. The store tells a cursor that it fell behind the pruned feed, unless the
cursor is zero: a cache that has never read an entry is not told.
-/

set_option autoImplicit false

namespace Egauth.Revoke.Keysets
open Egauth.Core Keys

section
variable {V : Type} (load : Time → List Key → Except ReadErr V)

def feed (src : Store) (cursor : Nat) : Except ReadErr (List TenantID × Nat) :=
  match src.changesSince cursor with
  | none => .error .notFound
  | some page => .ok page

def lookup (now : Time) (src : Store) (t : TenantID) : Except ReadErr V := load now (src.held t)

abbrev World (V : Type) := Cached Store TenantID V

inductive Action where
  | advance (t : Time)
  | call (op : Op)
  | poll
  | get (t : TenantID)
  | forget (t : TenantID)

namespace World

def init (capacity : Nat) (t₀ : Time) : World V := ⟨t₀, .new, .new capacity⟩

def apply (w : World V) : Action → World V
  | .advance t => { w with clock := t }
  | .call op => { w with source := w.source.perform ⟨w.clock, op⟩ }
  | .poll => { w with cache := (w.cache.poll w.clock (feed w.source)).1 }
  | .get t => { w with cache := (w.cache.get w.clock (lookup load w.clock w.source) t).1 }
  | .forget t => { w with cache := w.cache.forget t }

def Admits (w : World V) : Action → Prop
  | .advance t => w.clock ≤ t
  | _ => True

def Step (w : World V) (action : Action) (w' : World V) : Prop := w.Admits action ∧ w' = w.apply load action

/-- The keyset is one of the keys the store holds. -/
def Good (clock : Time) (src : Store) (t : TenantID) (v : V) : Prop :=
  ∃ read, read ≤ clock ∧ load read (src.held t) = .ok v

/-- While the cursor is zero, the reaper leaves an entry of every tenant whose cached keyset
is not one of the keys it holds. -/
def Covers (w : World V) : Action → Prop
  | .call .reapExpired => w.cache.cursor = 0 → ∀ e ∈ w.cache.entries.items,
      Good load w.clock w.source e.1 e.2 ∨
        ∃ c ∈ w.source.feed, w.cache.cursor < c.seq ∧ c.tenant = e.1 ∧
          w.clock.truncate.sub c.instant < feedRetention
  | _ => True

/-- The feed names the tenant past the cursor, or reports that it fell behind. -/
def Named (src : Store) (cursor : Nat) (t : TenantID) (_v : V) : Prop :=
  src.Names cursor t ∨ src.gap cursor = true

def Valid (src : Store) (cursor : Nat) : Prop := cursor ≤ src.seq

variable {load} {past : List (World V)} {src : Store} {cursor : Nat}

theorem names (src : Store) : Follower.Names (feed src) (Named (V := V) src) := by
  intro c changed next read t v named
  unfold feed at read
  split at read
  · cases read
  next page found =>
    cases read
    obtain ⟨within, listed, -⟩ := Store.changesSince_eq_some found
    refine .inl ((listed t).mpr (named.resolve_right ?_))
    rw [within]
    exact Bool.false_ne_true

theorem feed_valid (bounded : src.Bounded) (c : Nat) (changed : List TenantID) (next : Nat)
    (read : feed src c = .ok (changed, next)) (advanced : next > c) : Valid src next := by
  unfold feed at read
  split at read
  · cases read
  next page found =>
    cases read
    exact Store.changesSince_le bounded found advanced

theorem gap_of_lt (nonzero : cursor ≠ 0) (behind : cursor < src.pruned) :
    src.gap cursor = true := decide_eq_true ⟨nonzero, behind⟩

/-- A call that prunes nothing keeps an entry good or named. -/
theorem known_advances {clock now : Time} {src' : Store} (advances : src.Advances now src')
    (behind : cursor ≤ src.seq) {t : TenantID} {v : V}
    (known : Good load clock src t v ∨ Named src cursor t v) :
    Good load clock src' t v ∨ Named src' cursor t v := by
  rcases known with ⟨read, earlier, loaded⟩ | ⟨c, member, facts⟩ | behind
  · rcases advances.named t with same | ⟨c, member, new, own, -⟩
    · exact .inl ⟨read, earlier, by rw [same]; exact loaded⟩
    · exact .inr (.inl ⟨c, member, lt_of_le_of_lt behind new, own⟩)
  · exact .inr (.inl ⟨c, advances.kept c member, facts⟩)
  · exact .inr (.inr (by rw [Store.gap, advances.pruned]; exact behind))

/-- Past the zero cursor, pruning leaves an entry named or the cursor behind. -/
theorem known_prune {clock now : Time} (nonzero : cursor ≠ 0) {t : TenantID} {v : V}
    (known : Good load clock src t v ∨ Named src cursor t v) :
    Good load clock (src.prune now) t v ∨ Named (src.prune now) cursor t v := by
  rcases known with good | ⟨c, member, after, own⟩ | behind
  · exact .inl good
  · rcases Store.mem_prune member now with kept | pruned
    · exact .inr (.inl ⟨c, kept, after, own⟩)
    · exact .inr (.inr (gap_of_lt nonzero (lt_of_lt_of_le after pruned)))
  · have before := (of_decide_eq_true behind).2
    exact .inr (.inr (gap_of_lt nonzero (lt_of_lt_of_le before (src.pruned_le_prune now))))

/-- At the zero cursor, what keeps an entry named is one that is retained. -/
theorem known_reap {clock now : Time} {src' : Store} (advances : src.Advances now src')
    (behind : cursor ≤ src.seq) {t : TenantID} {v : V}
    (covered : Good load clock src t v ∨
      ∃ c ∈ src.feed, cursor < c.seq ∧ c.tenant = t ∧ now.sub c.instant < feedRetention) :
    Good load clock (src'.prune now) t v ∨ Named (src'.prune now) cursor t v := by
  have retained : ∀ c ∈ src'.feed, now.sub c.instant < feedRetention → c ∈ (src'.prune now).feed :=
    fun c member recent => List.mem_filter.mpr ⟨member, decide_eq_true recent⟩
  rcases covered with ⟨read, earlier, loaded⟩ | ⟨c, member, after, own, recent⟩
  · rcases advances.named t with same | ⟨c, member, new, own, rfl⟩
    · exact .inl ⟨read, earlier, by rw [← same] at loaded; exact loaded⟩
    · -- The reaper changed the rows itself; its entry is as young as can be.
      have recent : c.instant.sub c.instant < feedRetention := by
        rw [Time.sub_lt_iff (by decide) (by decide), sub_self]
        decide
      exact .inr (.inl ⟨c, retained c member recent, lt_of_le_of_lt behind new, own⟩)
  · exact .inr (.inl ⟨c, retained c (advances.kept c member) recent, after, own⟩)

structure Inv (load : Time → List Key → Except ReadErr V) (past : List (World V)) (w : World V) : Prop where
  bounded : w.source.Bounded
  vouched : Vouched (Good load) Named Valid past w

theorem Inv.init (capacity : Nat) (t₀ : Time) : Inv load [] (World.init capacity t₀) :=
  ⟨nofun, .new _ _ _ (Nat.zero_le _)⟩

theorem Inv.reap {w : World V} (inv : Inv load past w)
    (covers : w.Covers load (.call .reapExpired)) : Inv load (w :: past) (w.apply load (.call .reapExpired)) := by
  obtain ⟨bounded, vouched⟩ := inv
  obtain ⟨t, advances, result⟩ := w.source.reapExpired_prunes w.clock
  have performed : w.source.perform ⟨w.clock, .reapExpired⟩ = t.prune w.clock.truncate := result
  simp only [World.apply, performed]
  refine ⟨fun c member => advances.bounded bounded c (List.mem_of_mem_filter member),
    vouched.move le_rfl (vouched.cursor.trans advances.seq) fun e member known => ?_⟩
  -- The zero cursor is told of no gap, so its entries must still be in the feed.
  by_cases zero : w.cache.cursor = 0
  · exact known_reap advances vouched.cursor (covers zero e member)
  · exact known_prune zero (known_advances advances vouched.cursor known)

theorem Inv.step {w w' : World V} {action : Action} (inv : Inv load past w)
    (step : Restrict (Covers load) (Step load) w action w') : Inv load (w :: past) w' := by
  obtain ⟨covers, admits, rfl⟩ := step
  by_cases reap : action = .call .reapExpired
  · subst reap
    exact inv.reap covers
  obtain ⟨bounded, vouched⟩ := inv
  cases action with
  | advance t =>
    refine ⟨bounded, vouched.move admits vouched.cursor fun e _ => Or.imp_left ?_⟩
    rintro ⟨read, earlier, loaded⟩
    exact ⟨read, earlier.trans admits, loaded⟩
  | call op =>
    have advances : w.source.Advances _ (w.source.perform ⟨w.clock, op⟩) :=
      Store.perform_advances w.source fun same => reap (congrArg Action.call same)
    exact ⟨advances.bounded bounded, vouched.move le_rfl (vouched.cursor.trans advances.seq)
      fun e _ => known_advances advances vouched.cursor⟩
  | poll => exact ⟨bounded, vouched.poll (names w.source) (Nat.zero_le _) (feed_valid bounded)⟩
  | get t =>
    exact ⟨bounded, vouched.get (lookup load w.clock w.source) (fun t v loaded => ⟨w.clock, le_rfl, loaded⟩) t⟩
  | forget t => exact ⟨bounded, vouched.recache rfl rfl fun e member => .inl (Lru.mem_remove.mp member).1⟩

theorem Inv.history {capacity : Nat} {t₀ : Time} {w : World V}
    (history : History (Restrict (Covers load) (Step load)) (World.init capacity t₀) past w) : Inv load past w :=
  history.invariant (Inv load) (.init capacity t₀) Inv.step

/-- A keyset that is served is one of the keys that the store held at some instant less than
the bound ago, and a poll that succeeds leaves no keyset but those of the keys held then. -/
theorem get_of_covered_history {capacity : Nat} {t₀ : Time} {past : List (World V)} {w : World V}
    (history : History (Restrict (Covers load) (Step load)) (World.init capacity t₀) past w) :
    (∀ t v f, w.cache.get w.clock (lookup load w.clock w.source) t = (f, .ok v) →
      ∃ w₀ ∈ w :: past, w.clock - pollBound < w₀.clock ∧
        ∃ read, read ≤ w₀.clock ∧ load read (w₀.source.held t) = .ok v) ∧
    (∀ f, w.cache.poll w.clock (feed w.source) = (f, .ok ()) →
      ∀ e ∈ f.entries.items, ∃ read, read ≤ w.clock ∧ load read (w.source.held e.1) = .ok e.2) := by
  obtain ⟨bounded, vouched⟩ := Inv.history history
  constructor
  · intro t v f got
    obtain ⟨w₀, earlier, recent, -, good⟩ := vouched.served (fun loaded => ⟨w.clock, le_rfl, loaded⟩) got
    exact ⟨w₀, earlier, recent, good⟩
  · intro f polled
    have result := vouched.polled (names w.source) (Nat.zero_le _) (feed_valid bounded)
    rw [polled] at result
    exact (result.fresh rfl).2.2

end World
end

namespace World
namespace Sample

def load (_now : Time) (keys : List Key) : Except ReadErr (List Key) := .ok keys

def tenant : TenantID := .zero

def key : Key := ⟨tenant, [1], [2], [3], aadVersionCurrent, 5000, 0, none⟩

def created : World (List Key) := (init 1 1000000000).apply load (.call (.createTenant key))

def pruned : World (List Key) := (created.apply load (.advance 100000000000000)).apply load (.call .reapExpired)

def polled : World (List Key) := pruned.apply load .poll

def cached : World (List Key) := polled.apply load (.get tenant)

def cachedPast : List (World (List Key)) :=
  [polled, pruned, created.apply load (.advance 100000000000000), created, init 1 1000000000]

theorem cached_history : History (Restrict (Covers load) (Step load)) (init 1 1000000000) cachedPast cached := by
  have creates : Restrict (Covers load) (Step load) (init 1 1000000000) (.call (.createTenant key)) created :=
    ⟨trivial, trivial, rfl⟩
  have waits : Restrict (Covers load) (Step load) created (.advance 100000000000000) _ :=
    ⟨trivial, (by decide : created.clock ≤ _), rfl⟩
  have reaps : Restrict (Covers load) (Step load) _ (.call .reapExpired) pruned :=
    ⟨fun _ _ cached => (List.not_mem_nil cached).elim, trivial, rfl⟩
  have polls : Restrict (Covers load) (Step load) pruned .poll polled := ⟨trivial, trivial, rfl⟩
  have gets : Restrict (Covers load) (Step load) polled (.get tenant) cached := ⟨trivial, trivial, rfl⟩
  exact ((((History.start.next creates).next waits).next reaps).next polls).next gets

def revoked : World (List Key) := cached.apply load (.call (.revokeTenantKeys tenant))

/-- The reaper leaves the entry of the revocation, which the cache has yet to read. -/
def reaped : World (List Key) := revoked.apply load (.call .reapExpired)

theorem reaped_history : History (Restrict (Covers load) (Step load)) (init 1 1000000000)
    (revoked :: cached :: cachedPast) reaped := by
  have revokes : Restrict (Covers load) (Step load) cached (.call (.revokeTenantKeys tenant)) revoked :=
    ⟨trivial, trivial, rfl⟩
  have reaps : Restrict (Covers load) (Step load) revoked (.call .reapExpired) reaped := by
    refine ⟨fun _ e member => .inr ⟨_, List.mem_cons_self, by decide, ?_, by decide⟩, trivial, rfl⟩
    rw [List.mem_singleton.mp (show e ∈ [(tenant, [key])] from member)]
  exact (cached_history.next revokes).next reaps

end Sample

open Sample

theorem get_of_covered_history_revoked : reaped.source.held tenant = [] ∧
    ∃ w₀ ∈ reaped :: revoked :: cached :: cachedPast,
      reaped.clock - pollBound < w₀.clock ∧
        ∃ read, read ≤ w₀.clock ∧ load read (w₀.source.held tenant) = .ok [key] := by
  have got : reaped.cache.get reaped.clock (lookup load reaped.clock reaped.source) tenant = (_, .ok [key]) := rfl
  exact ⟨rfl, (get_of_covered_history reaped_history).1 _ _ _ got⟩

namespace Sample

/-- Nothing polls for another day, in which the entry of the revocation is pruned. -/
def later : World (List Key) := revoked.apply load (.advance 200000000000000)

def forgotten : World (List Key) := later.apply load (.call .reapExpired)

def resumed : World (List Key) := forgotten.apply load .poll

theorem resumed_history : History (Step load) (init 1 1000000000)
    (forgotten :: later :: revoked :: cached :: cachedPast) resumed := by
  have revokes : Step load cached (.call (.revokeTenantKeys tenant)) revoked := ⟨trivial, rfl⟩
  have waits : Step load revoked (.advance 200000000000000) later := ⟨(by decide : revoked.clock ≤ _), rfl⟩
  have reaps : Step load later (.call .reapExpired) forgotten := ⟨trivial, rfl⟩
  have polls : Step load forgotten .poll resumed := ⟨trivial, rfl⟩
  exact (((cached_history.unrestrict.next revokes).next waits).next reaps).next polls

end Sample

/-- A keyset is served more than a day after the tenant's keys were deleted: the zero cursor is
not told of the gap, and the poll counts as fresh. -/
theorem get_after_pruned_revocation : ∃ past w t v f,
    History (Step load) (init 1 1000000000) past w ∧
      w.cache.get w.clock (lookup load w.clock w.source) t = (f, .ok v) ∧
      ∀ w₀ ∈ w :: past, w.clock - pollBound < w₀.clock → w₀.source.held t ≠ v := by
  refine ⟨_, resumed, tenant, [key], _, resumed_history, rfl, ?_⟩
  have empty : later.source.held tenant = [] := rfl
  have reaped : forgotten.source.held tenant = [] := rfl
  have stale : ∀ w₀ ∈ revoked :: cached :: cachedPast,
      ¬ resumed.clock - pollBound < w₀.clock := by
    simp only [cachedPast, List.forall_mem_cons]
    decide
  intro w₀ member recent holds
  rcases List.mem_cons.mp member with rfl | member
  · cases reaped.symm.trans holds
  rcases List.mem_cons.mp member with rfl | member
  · cases reaped.symm.trans holds
  rcases List.mem_cons.mp member with rfl | member
  · cases empty.symm.trans holds
  · exact stale w₀ member recent

end World
end Egauth.Revoke.Keysets
