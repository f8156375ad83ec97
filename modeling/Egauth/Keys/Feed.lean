import Egauth.Keys.Memory
import Egauth.Semantics.Run

/-! The change feed of the key store.

Every call that changes the rows of a tenant appends an entry that names it. The
reaper prunes the entries past their retention and remembers how far it went.
-/

set_option autoImplicit false

namespace Egauth.Keys
open Egauth.Core

inductive Op where
  | createTenant (initial : Key)
  | putKey (key : Key)
  | rotate (r : Rotation)
  | revokeTenantKeys (t : TenantID)
  | tombstone (t : TenantID)
  | eraseTenant (t : TenantID)
  | reapExpired

structure Call where
  clk : Time
  op : Op

namespace Store

def perform (s : Store) (call : Call) : Store :=
  match call.op with
  | .createTenant initial => (s.createTenant call.clk initial).1
  | .putKey key => (s.putKey call.clk key).1
  | .rotate r => (s.rotate call.clk r).1
  | .revokeTenantKeys t => s.revokeTenantKeys call.clk t
  | .tombstone t => s.tombstone call.clk t
  | .eraseTenant t => s.eraseTenant call.clk t
  | .reapExpired => (s.reapExpired call.clk).1

def held (s : Store) (t : TenantID) : List Key := (s.rowsOf t).map Row.key

def Bounded (s : Store) : Prop := ∀ c ∈ s.feed, c.seq ≤ s.seq

def Names (s : Store) (cursor : Nat) (t : TenantID) : Prop := ∃ c ∈ s.feed, cursor < c.seq ∧ c.tenant = t

/-- What a call does that prunes nothing: a tenant whose keys change is named past every
position issued before, at the time of the call. -/
structure Advances (now : Time) (s t : Store) : Prop where
  bounded : s.Bounded → t.Bounded
  seq : s.seq ≤ t.seq
  pruned : t.pruned = s.pruned
  kept : ∀ c ∈ s.feed, c ∈ t.feed
  named : ∀ k, t.held k = s.held k ∨ ∃ c ∈ t.feed, s.seq < c.seq ∧ c.tenant = k ∧ c.instant = now

variable {s t u : Store} {now : Time} {k : TenantID}

theorem Advances.refl (s : Store) : s.Advances now s :=
  ⟨id, le_rfl, rfl, fun _ => id, fun _ => .inl rfl⟩

theorem Advances.trans (first : s.Advances now t) (second : t.Advances now u) : s.Advances now u where
  bounded := second.bounded ∘ first.bounded
  seq := first.seq.trans second.seq
  pruned := second.pruned.trans first.pruned
  kept c member := second.kept c (first.kept c member)
  named k := by
    rcases second.named k with same | ⟨c, member, new, facts⟩
    · rw [same]
      exact (first.named k).imp_right fun ⟨c, member, facts⟩ => ⟨c, second.kept c member, facts⟩
    · exact .inr ⟨c, member, lt_of_le_of_lt first.seq new, facts⟩

theorem Advances.write {rows : Map TenantID (List Row)} {tombstones : Map TenantID Unit} {seq : Nat}
    (later : s.seq ≤ seq) (others : ∀ t, t ≠ k → rows.lookup t = s.rows.lookup t) :
    s.Advances now (record { s with rows := rows, tombstones := tombstones, seq := seq } k now) where
  bounded bounded c member := by
    rcases List.mem_append.mp member with old | new
    · exact (bounded c old).trans (later.trans (Nat.le_succ _))
    · rw [List.mem_singleton.mp new]
      exact le_rfl
  seq := later.trans (Nat.le_succ _)
  pruned := rfl
  kept c member := List.mem_append_left _ member
  named t := by
    by_cases own : t = k
    · refine .inr ⟨_, List.mem_append_right _ (List.mem_singleton_self _), Nat.lt_succ_of_le later, own.symm, rfl⟩
    · refine .inl ?_
      simp only [held, rowsOf, record, others t own]

theorem Advances.insert (k : Key) : s.Advances now ((s.insert k).record k.tenant now) :=
  .write (Nat.le_succ _) fun _ other => AList.lookup_insert_ne other

theorem createTenant_advances (s : Store) (clk : Time) (initial : Key) :
    s.Advances clk.truncate (s.createTenant clk initial).1 := by
  unfold createTenant
  split
  · exact .refl s
  split
  · exact .refl s
  split
  · exact .refl s
  · exact .insert _

theorem putKey_advances (s : Store) (clk : Time) (key : Key) : s.Advances clk.truncate (s.putKey clk key).1 := by
  unfold putKey
  split
  · exact .refl s
  split
  · exact .refl s
  split
  · exact .refl s
  · exact .insert _

theorem rotate_advances (s : Store) (clk : Time) (r : Rotation) : s.Advances clk.truncate (s.rotate clk r).1 := by
  dsimp only [rotate]
  split
  · exact .refl s
  split
  · exact .refl s
  · exact .refl s
  next next checked =>
    split
    · exact .refl s
    split
    · exact .refl s
    split
    · exact .refl s
    split
    · exact .refl s
    split
    · exact .refl s
    · refine .write (Nat.le_succ _) fun t other => ?_
      rw [AList.lookup_insert_ne other, AList.lookup_insert_ne other]

theorem held_wipe (empty : (s.wipe k).2 = false) (t : TenantID) : (s.wipe k).1.held t = s.held t := by
  simp only [wipe, decide_eq_false_iff_not, gt_iff_lt, Nat.not_lt, Nat.le_zero, List.length_eq_zero_iff] at empty
  by_cases own : t = k
  · subst own
    rw [held, held, empty]
    simp [rowsOf, wipe]
  · simp [held, rowsOf, wipe, AList.lookup_erase_ne own]

theorem Advances.wiped (empty : (s.wipe k).2 = false) : s.Advances now (s.wipe k).1 :=
  ⟨id, le_rfl, rfl, fun _ => id, fun t => .inl (held_wipe empty t)⟩

theorem Advances.wipe_record {tombstones : Map TenantID Unit} :
    s.Advances now (record { (s.wipe k).1 with tombstones := tombstones } k now) :=
  .write le_rfl fun _ other => AList.lookup_erase_ne other

theorem revokeTenantKeys_advances (s : Store) (clk : Time) (k : TenantID) :
    s.Advances clk.truncate (s.revokeTenantKeys clk k) := by
  dsimp only [revokeTenantKeys]
  split
  · exact .wipe_record
  next empty => exact .wiped (eq_false_of_ne_true empty)

theorem tombstone_advances (s : Store) (clk : Time) (k : TenantID) :
    s.Advances clk.truncate (s.tombstone clk k) := by
  dsimp only [tombstone]
  split
  · split
    · exact .wipe_record
    · exact .wipe_record
  next quiet =>
    simp only [Bool.or_eq_true, Bool.not_eq_true', not_or, Bool.not_eq_true, Bool.not_eq_false] at quiet
    rw [if_pos quiet.2]
    exact .wiped quiet.1

theorem reapTenant_advances (s : Store) (now : Time) (k : TenantID) : s.Advances now (s.reapTenant now k).1 := by
  dsimp only [reapTenant]
  split
  · exact .refl s
  · refine .write le_rfl fun t other => ?_
    split
    · exact AList.lookup_erase_ne other
    · exact AList.lookup_insert_ne other

theorem reapTenants_advances (tenants : List TenantID) (acc : Store × Nat) :
    acc.1.Advances now (tenants.foldl
      (fun acc t =>
        let (s, removed) := acc.1.reapTenant now t
        (s, acc.2 + removed)) acc).1 := by
  induction tenants generalizing acc with
  | nil => exact .refl _
  | cons t tenants ih =>
    exact (reapTenant_advances acc.1 now t).trans (ih ((acc.1.reapTenant now t).1, acc.2 + (acc.1.reapTenant now t).2))

/-- The reaper is a call that prunes nothing, and then prunes. -/
theorem reapExpired_prunes (s : Store) (clk : Time) :
    ∃ t, s.Advances clk.truncate t ∧ (s.reapExpired clk).1 = t.prune clk.truncate :=
  ⟨_, reapTenants_advances _ (s, 0), rfl⟩

theorem perform_advances (s : Store) {call : Call} (other : call.op ≠ .reapExpired) :
    s.Advances call.clk.truncate (s.perform call) := by
  obtain ⟨clk, op⟩ := call
  cases op with
  | createTenant initial => exact createTenant_advances s clk initial
  | putKey key => exact putKey_advances s clk key
  | rotate r => exact rotate_advances s clk r
  | revokeTenantKeys t => exact revokeTenantKeys_advances s clk t
  | tombstone t => exact tombstone_advances s clk t
  | eraseTenant t => exact tombstone_advances s clk t
  | reapExpired => exact absurd rfl other

theorem le_foldl_max (l : List Change) (p : Nat) :
    p ≤ l.foldl (fun p c => max p c.seq) p ∧ ∀ c ∈ l, c.seq ≤ l.foldl (fun p c => max p c.seq) p := by
  induction l generalizing p with
  | nil => simp
  | cons first l ih =>
    obtain ⟨grows, covers⟩ := ih (max p first.seq)
    refine ⟨(le_max_left _ _).trans grows, fun c member => ?_⟩
    rcases List.mem_cons.mp member with rfl | member
    · exact (le_max_right _ _).trans grows
    · exact covers c member

theorem mem_prune {c : Change} (member : c ∈ s.feed) (now : Time) :
    c ∈ (s.prune now).feed ∨ c.seq ≤ (s.prune now).pruned := by
  by_cases retained : now.sub c.instant < feedRetention
  · exact .inl (List.mem_filter.mpr ⟨member, decide_eq_true retained⟩)
  · exact .inr ((le_foldl_max _ _).2 c (List.mem_filter.mpr ⟨member, by simpa using retained⟩))

theorem pruned_le_prune (s : Store) (now : Time) : s.pruned ≤ (s.prune now).pruned := (le_foldl_max _ _).1

theorem mem_foldl_tenants (changes : List Change) (out : List TenantID) (t : TenantID) :
    t ∈ changes.foldl (fun out c => if c.tenant ∈ out then out else out ++ [c.tenant]) out ↔
      t ∈ out ∨ ∃ c ∈ changes, c.tenant = t := by
  induction changes generalizing out with
  | nil => simp
  | cons first changes ih =>
    rw [List.foldl_cons, ih]
    by_cases seen : first.tenant ∈ out
    · rw [if_pos seen]
      constructor
      · rintro (old | ⟨c, member, own⟩)
        · exact .inl old
        · exact .inr ⟨c, List.mem_cons_of_mem _ member, own⟩
      · rintro (old | ⟨c, member, rfl⟩)
        · exact .inl old
        · rcases List.mem_cons.mp member with rfl | member
          · exact .inl seen
          · exact .inr ⟨c, member, rfl⟩
    · rw [if_neg seen]
      simp [or_assoc, eq_comm]

theorem changesSince_eq_some {cursor next : Nat} {changed : List TenantID}
    (read : s.changesSince cursor = some (changed, next)) :
    s.gap cursor = false ∧ (∀ t, t ∈ changed ↔ s.Names cursor t) ∧
      next = ((s.feed.filter fun c => cursor < c.seq).getLast?.map Change.seq).getD cursor := by
  unfold changesSince at read
  split at read
  · cases read
  next within =>
    cases read
    refine ⟨eq_false_of_ne_true within, fun t => ?_, rfl⟩
    rw [mem_foldl_tenants]
    simp [Names, and_assoc]

theorem changesSince_le (bounded : s.Bounded) {cursor next : Nat} {changed : List TenantID}
    (read : s.changesSince cursor = some (changed, next)) (advanced : next > cursor) : next ≤ s.seq := by
  obtain ⟨-, -, rfl⟩ := changesSince_eq_some read
  cases last : (s.feed.filter fun c => cursor < c.seq).getLast? with
  | none => simp [last] at advanced
  | some c => exact bounded c (List.mem_of_mem_filter (List.mem_of_getLast? last))

end Store
end Egauth.Keys
