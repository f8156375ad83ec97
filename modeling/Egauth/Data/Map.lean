import Mathlib.Data.List.AList

/-! Finite maps with decidable keys, as association lists without repeated keys.

The order of the entries stands for one iteration order of the map. Every
statement about contents goes through `lookup`, which does not see it.
-/

set_option autoImplicit false

namespace Egauth

abbrev Map (K V : Type) := AList (fun _ : K => V)

namespace Map
variable {K V : Type} [DecidableEq K]

theorem lookup_insert_eq (m : Map K V) (k k' : K) (v : V) :
    (m.insert k v).lookup k' = if k' = k then some v else m.lookup k' := by
  by_cases same : k' = k
  · subst same
    simp
  · rw [AList.lookup_insert_ne same, if_neg same]

theorem lookup_erase_eq (m : Map K V) (k k' : K) :
    (m.erase k).lookup k' = if k' = k then none else m.lookup k' := by
  by_cases same : k' = k
  · subst same
    simp
  · rw [AList.lookup_erase_ne same, if_neg same]

/-- Ranging over the keys and deleting those that meet a condition. -/
def eraseWhere (m : Map K V) (drop : K → Bool) : Map K V :=
  m.keys.foldl (fun m k => if drop k then m.erase k else m) m

theorem lookup_foldl_erase (drop : K → Bool) (keys : List K) (m : Map K V) (k : K) :
    (keys.foldl (fun m k => if drop k then m.erase k else m) m).lookup k =
      if k ∈ keys ∧ drop k = true then none else m.lookup k := by
  induction keys generalizing m with
  | nil => simp
  | cons first keys ih =>
    rw [List.foldl_cons, ih]
    by_cases same : k = first
    · subst same
      by_cases doomed : drop k = true <;> simp [doomed]
    · by_cases doomed : drop first = true <;> simp [doomed, same, AList.lookup_erase_ne]

theorem lookup_eraseWhere (m : Map K V) (drop : K → Bool) (k : K) :
    (m.eraseWhere drop).lookup k = if drop k then none else m.lookup k := by
  rw [eraseWhere, lookup_foldl_erase]
  by_cases doomed : drop k = true
  · by_cases member : k ∈ m.keys
    · simp [doomed, member]
    · have absent : m.lookup k = none := AList.lookup_eq_none.mpr (mt AList.mem_keys.mp member)
      simp [doomed, member, absent]
  · simp [doomed]

theorem lookup_foldl_erase_entries (entries : List ((_ : K) × V)) (m : Map K V) (k : K) :
    (entries.foldl (fun m c => m.erase c.1) m).lookup k =
      if k ∈ entries.map Sigma.fst then none else m.lookup k := by
  induction entries generalizing m with
  | nil => simp
  | cons first entries ih =>
    rw [List.foldl_cons, ih, lookup_erase_eq, List.map_cons]
    by_cases same : k = first.1
    · rw [if_pos same, if_pos (List.mem_cons.mpr (.inl same)), ite_self]
    · simp only [List.mem_cons, same, false_or, if_false]

theorem mem_entries {m : Map K V} {k : K} {v : V} : ⟨k, v⟩ ∈ m.entries ↔ m.lookup k = some v :=
  (AList.mem_lookup_iff (s := m) (a := k) (b := v)).symm

end Map
end Egauth
