import Egauth.Data.Map
import Mathlib.Data.List.Perm.Subperm

/-! Counting the entries of a finite map. -/

set_option autoImplicit false

namespace Egauth.Map
variable {K V : Type} [DecidableEq K] {m m' : Map K V} {P P' : K → V → Bool} {k : K} {v : V}

omit [DecidableEq K] in
def count (m : Map K V) (P : K → V → Bool) : Nat := m.entries.countP fun c => P c.1 c.2

theorem count_insert (m : Map K V) (k : K) (v : V) (P : K → V → Bool) :
    count (m.insert k v) P = count (m.erase k) P + if P k v then 1 else 0 := by
  unfold count
  rw [AList.entries_insert, List.countP_cons]
  rfl

theorem count_insert_new (absent : m.lookup k = none) : count (m.insert k v) P = m.count P + if P k v then 1 else 0 := by
  rw [count_insert]
  unfold count
  congr 1
  exact congrArg (List.countP _) (List.kerase_of_notMem_keys (AList.lookup_eq_none.mp absent))

theorem count_erase (found : m.lookup k = some v) : m.count P = count (m.erase k) P + if P k v then 1 else 0 := by
  have member := mem_entries.mpr found
  obtain ⟨v', before, after, -, whole, rest⟩ := List.exists_of_kerase (List.mem_keys_of_mem member)
  have same : v' = v := by
    have listed : (⟨k, v'⟩ : (_ : K) × V) ∈ m.entries := by simp [whole]
    rw [mem_entries, found] at listed
    exact (Option.some.inj listed).symm
  subst same
  have erased : (m.erase k).entries = before ++ after := rest
  unfold count
  rw [erased, whole, List.countP_append, List.countP_append, List.countP_cons]
  dsimp only
  omega

theorem count_le {l : List ((_ : K) × V)} (covered : ∀ k v, m.lookup k = some v → P k v = true → ⟨k, v⟩ ∈ l) :
    m.count P ≤ l.length := by
  unfold count
  rw [List.countP_eq_length_filter]
  refine (List.Nodup.subperm (m.nodupKeys.nodup.filter _) fun c member => ?_).length_le
  obtain ⟨stored, meets⟩ := List.mem_filter.mp member
  exact covered c.1 c.2 (mem_entries.mp stored) meets

theorem count_mono (sub : ∀ k v, m'.lookup k = some v → P' k v = true → m.lookup k = some v ∧ P k v = true) :
    m'.count P' ≤ m.count P := by
  unfold count
  rw [List.countP_eq_length_filter, List.countP_eq_length_filter]
  refine (List.Nodup.subperm (m'.nodupKeys.nodup.filter _) fun c member => ?_).length_le
  obtain ⟨stored, meets⟩ := List.mem_filter.mp member
  obtain ⟨before, met⟩ := sub c.1 c.2 (mem_entries.mp stored) meets
  exact List.mem_filter.mpr ⟨mem_entries.mpr before, met⟩

theorem count_update {w : V} (found : m.lookup k = some v) (alike : P k w = P k v) :
    count (m.insert k w) P = m.count P := by
  rw [count_insert, count_erase found, alike]

end Egauth.Map
