import Mathlib.Data.List.TakeWhile
import Mathlib.Data.List.Basic

/-! Reading an ordered log by pages.

Rows have increasing positions. A page is a bounded number of the rows past a
cursor, and the next cursor is the position of its last row, or the cursor
itself when there is none.
-/

set_option autoImplicit false

namespace Egauth.Paging
variable {α : Type} (seq : α → Nat)

def after (cursor : Nat) (rows : List α) : List α := rows.filter fun r => cursor < seq r

def between (first last : Nat) (rows : List α) : List α := rows.filter fun r => first < seq r ∧ seq r ≤ last

def next (cursor : Nat) (page : List α) : Nat := (page.getLast?.map seq).getD cursor

variable {seq} {rows : List α} {cursor : Nat}

theorem between_eq_nil {first last : Nat} (none : ∀ r ∈ rows, ¬ (first < seq r ∧ seq r ≤ last)) :
    between seq first last rows = [] := by
  rw [between, List.filter_eq_nil_iff]
  simpa using none

theorem between_append (first last : Nat) (rows more : List α) :
    between seq first last (rows ++ more) = between seq first last rows ++ between seq first last more :=
  List.filter_append _ _

theorem mem_after {r : α} : r ∈ after seq cursor rows ↔ r ∈ rows ∧ cursor < seq r := by simp [after]

theorem after_sorted (sorted : rows.Pairwise fun a b => seq a < seq b) :
    (after seq cursor rows).Pairwise fun a b => seq a < seq b :=
  sorted.sublist List.filter_sublist

/-- In an ordered list the rows past the cursor follow those that are not. -/
theorem dropWhile_eq_after (sorted : rows.Pairwise fun a b => seq a < seq b) (cursor : Nat) :
    (rows.dropWhile fun r => decide (seq r < cursor + 1)) = after seq cursor rows := by
  induction rows with
  | nil => rfl
  | cons x rows ih =>
    rw [List.pairwise_cons] at sorted
    by_cases behind : seq x < cursor + 1
    · have early : ¬ cursor < seq x := by omega
      rw [List.dropWhile_cons_of_pos (by simpa using behind), ih sorted.2]
      simp [after, early]
    · rw [List.dropWhile_cons_of_neg (by simpa using behind), after, List.filter_eq_self.mpr]
      intro r member
      have ahead : seq x ≤ seq r := by
        rcases List.mem_cons.mp member with rfl | later
        · exact le_rfl
        · exact (sorted.1 r later).le
      simp
      omega

/-- In an ordered list the last of the first rows separates them from the rest. -/
theorem take_split (sorted : rows.Pairwise fun a b => seq a < seq b) {n : Nat} {last : α}
    (ends : (rows.take n).getLast? = some last) :
    (∀ r ∈ rows.take n, seq r ≤ seq last) ∧ ∀ r ∈ rows.drop n, seq last < seq r := by
  have member := List.mem_of_getLast? ends
  rw [← List.take_append_drop n rows, List.pairwise_append] at sorted
  refine ⟨fun r listed => ?_, fun r left => sorted.2.2 last member r left⟩
  obtain ⟨init, same⟩ := List.getLast?_eq_some_iff.mp ends
  rw [same, List.mem_append, List.mem_singleton] at listed
  rcases listed with before | rfl
  · have first := sorted.1
    rw [same, List.pairwise_append] at first
    exact (first.2.2 r before last (List.mem_singleton_self _)).le
  · exact le_rfl

/-- A page holds the rows between the two cursors, and the next one begins where it ends. -/
theorem page_eq (sorted : rows.Pairwise fun a b => seq a < seq b) (n : Nat) :
    (after seq cursor rows).take n = between seq cursor (next seq cursor ((after seq cursor rows).take n)) rows ∧
      after seq (next seq cursor ((after seq cursor rows).take n)) rows = (after seq cursor rows).drop n ∧
      cursor ≤ next seq cursor ((after seq cursor rows).take n) := by
  have pending : (after seq cursor rows).Pairwise fun a b => seq a < seq b := after_sorted sorted
  have past : ∀ r ∈ after seq cursor rows, cursor < seq r := fun r member => (mem_after.mp member).2
  have twice (bound : Nat) :
      between seq cursor bound rows = (after seq cursor rows).filter fun r => seq r ≤ bound := by
    simp [between, after, List.filter_filter, Bool.and_comm]
  have beyond (bound : Nat) (later : cursor ≤ bound) : after seq bound rows =
      (after seq cursor rows).filter fun r => bound < seq r := by
    simp only [after, List.filter_filter]
    refine List.filter_congr fun r _ => ?_
    simp only [← Bool.decide_and, decide_eq_decide]
    omega
  rw [twice]
  generalize after seq cursor rows = pend at pending past beyond
  cases ends : (pend.take n).getLast? with
  | none =>
    -- An empty page leaves the cursor where it is.
    have empty := List.getLast?_eq_none_iff.mp ends
    simp only [next, empty, List.getLast?_nil, Option.map_none, Option.getD_none]
    refine ⟨?_, ?_, le_rfl⟩
    · symm
      rw [List.filter_eq_nil_iff]
      intro r member
      have := past r member
      simp
      omega
    · rw [beyond cursor le_rfl]
      rcases List.take_eq_nil_iff.mp empty with rfl | rfl
      · rw [List.drop_zero, List.filter_eq_self]
        intro r member
        simpa using past r member
      · simp
  | some last =>
    obtain ⟨first, rest⟩ := take_split pending ends
    have later : cursor ≤ seq last := (past last (List.mem_of_mem_take (List.mem_of_getLast? ends))).le
    simp only [next, ends, Option.map_some, Option.getD_some]
    rw [beyond (seq last) later]
    refine ⟨?_, ?_, later⟩
    · conv_rhs => rw [← List.take_append_drop n pend]
      rw [List.filter_append, List.filter_eq_self.mpr (by simpa using first), List.filter_eq_nil_iff.mpr, List.append_nil]
      intro r left
      have := rest r left
      simp
      omega
    · conv_lhs => rw [← List.take_append_drop n pend]
      rw [List.filter_append, List.filter_eq_nil_iff.mpr, List.filter_eq_self.mpr, List.nil_append]
      · intro r left
        simpa using rest r left
      · intro r listed
        have := first r listed
        simp
        omega

theorem between_trans (sorted : rows.Pairwise fun a b => seq a < seq b) {first middle last : Nat}
    (low : first ≤ middle) (high : middle ≤ last) :
    between seq first last rows = between seq first middle rows ++ between seq middle last rows := by
  induction rows with
  | nil => rfl
  | cons x rows ih =>
    rw [List.pairwise_cons] at sorted
    have rest := ih sorted.2
    have cons (first last : Nat) : between seq first last (x :: rows) =
        if first < seq x ∧ seq x ≤ last then x :: between seq first last rows else between seq first last rows := by
      simp only [between, List.filter_cons, decide_eq_true_eq]
    rw [cons first last, cons first middle, cons middle last]
    by_cases small : seq x ≤ middle
    · have early : ¬ (middle < seq x ∧ seq x ≤ last) := by omega
      by_cases listed : first < seq x
      · rw [if_pos ⟨listed, small.trans high⟩, if_pos ⟨listed, small⟩, if_neg early, rest, List.cons_append]
      · rw [if_neg (fun h => listed h.1), if_neg (fun h => listed h.1), if_neg early, rest]
    · -- Everything from here on is past the middle.
      have none : between seq first middle rows = [] := by
        refine between_eq_nil fun r member => ?_
        have := sorted.1 r member
        omega
      have late : ¬ (first < seq x ∧ seq x ≤ middle) := fun h => small h.2
      have same : (first < seq x ∧ seq x ≤ last) ↔ (middle < seq x ∧ seq x ≤ last) := by omega
      rw [if_neg late, none, List.nil_append, rest, none, List.nil_append]
      simp only [same]

end Egauth.Paging
