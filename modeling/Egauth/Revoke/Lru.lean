import Mathlib.Data.List.Nodup

/-! The bounded map behind a revocation cache, as its recency list: the most
recently used entry first, the keys distinct.
-/

set_option autoImplicit false

namespace Egauth.Revoke

structure Lru (K V : Type) where
  capacity : Nat
  items : List (K × V)
  distinct : (items.map Prod.fst).Nodup

namespace Lru
variable {K V : Type} {l : Lru K V}

def new (capacity : Nat) : Lru K V := ⟨capacity, [], List.nodup_nil⟩

def clear (l : Lru K V) : Lru K V := ⟨l.capacity, [], List.nodup_nil⟩

def removeWhere (l : Lru K V) (drop : K → V → Bool) : Lru K V where
  capacity := l.capacity
  items := l.items.filter fun e => !drop e.1 e.2
  distinct := l.distinct.sublist (List.filter_sublist.map _)

variable {e : K × V}

theorem mem_removeWhere {drop : K → V → Bool} :
    e ∈ (l.removeWhere drop).items ↔ e ∈ l.items ∧ drop e.1 e.2 = false := by
  simp [removeWhere]

variable [DecidableEq K]

def remove (l : Lru K V) (k : K) : Lru K V := l.removeWhere fun k' _ => k' = k

def pushFront (l : Lru K V) (k : K) (v : V) (fresh : k ∉ l.items.map Prod.fst) : Lru K V where
  capacity := l.capacity
  items := (k, v) :: l.items
  distinct := List.nodup_cons.mpr ⟨fresh, l.distinct⟩

variable {k : K}

theorem mem_remove : e ∈ (l.remove k).items ↔ e ∈ l.items ∧ e.1 ≠ k := by
  simp [remove, mem_removeWhere]

theorem not_mem_remove (l : Lru K V) (k : K) : k ∉ (l.remove k).items.map Prod.fst := by
  intro member
  obtain ⟨e, kept, rfl⟩ := List.mem_map.mp member
  exact (mem_remove.mp kept).2 rfl

def get (l : Lru K V) (k : K) : Option (V × Lru K V) :=
  match l.items.lookup k with
  | none => none
  | some v => some (v, (l.remove k).pushFront k v (l.not_mem_remove k))

/-- Drop entries from the back until the capacity is met. -/
def trim (l : Lru K V) : Lru K V where
  capacity := l.capacity
  items := l.items.take l.capacity
  distinct := l.distinct.sublist ((List.take_sublist _ _).map _)

def put (l : Lru K V) (k : K) (v : V) : Lru K V :=
  if known : k ∈ l.items.map Prod.fst then (l.remove k).pushFront k v (l.not_mem_remove k)
  else (l.pushFront k v known).trim

theorem mem_of_lookup {items : List (K × V)} {v : V} (found : items.lookup k = some v) :
    (k, v) ∈ items := by
  induction items with
  | nil => cases found
  | cons e items ih =>
    rw [List.lookup_cons] at found
    split at found
    next same =>
      cases found
      rw [beq_iff_eq.mp same]
      exact List.mem_cons_self
    next => exact List.mem_cons_of_mem _ (ih found)

theorem mem_of_get {l' : Lru K V} {v : V} (hit : l.get k = some (v, l')) : (k, v) ∈ l.items := by
  unfold get at hit
  split at hit <;> try contradiction
  next found =>
  cases hit
  exact mem_of_lookup found

theorem mem_get {l' : Lru K V} {v : V} (hit : l.get k = some (v, l'))
    (member : e ∈ l'.items) : e ∈ l.items := by
  have cached := mem_of_get hit
  unfold get at hit
  split at hit <;> try contradiction
  cases hit
  rcases List.mem_cons.mp member with rfl | member
  · exact cached
  · exact (mem_remove.mp member).1

theorem mem_put {v : V} (member : e ∈ (l.put k v).items) : e = (k, v) ∨ e ∈ l.items := by
  unfold put at member
  split at member
  · exact (List.mem_cons.mp member).imp_right fun kept => (mem_remove.mp kept).1
  · exact List.mem_cons.mp (List.mem_of_mem_take member)

end Lru
end Egauth.Revoke
