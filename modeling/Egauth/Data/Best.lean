import Mathlib.Data.List.Induction

/-! The loop that keeps the best element it has met.

An element may be unusable, and is then passed over. The comparison is any
transitive one under which nothing is better than itself.
-/

set_option autoImplicit false

namespace Egauth

variable {A : Type} (usable : A → Bool) (better : A → A → Bool)

def keepBest : Option A → A → Option A
  | none, a => if usable a then some a else none
  | some b, a => if usable a && better a b then some a else some b

def best (l : List A) : Option A := l.foldl (keepBest usable better) none

variable {usable better}

@[simp] theorem best_append (l : List A) (a : A) :
    best usable better (l ++ [a]) = keepBest usable better (best usable better l) a := by
  simp [best]

theorem best_eq_none {l : List A} : best usable better l = none ↔ ∀ a ∈ l, usable a = false := by
  induction l using List.reverseRecOn with
  | nil => simp [best]
  | append_singleton l a ih =>
    rw [best_append, List.forall_mem_append, ← ih, List.forall_mem_singleton]
    cases best usable better l with
    | none => cases used : usable a <;> simp [keepBest, used]
    | some b => cases used : usable a && better a b <;> simp [keepBest, used]

section
variable (trans : ∀ a b c, better a b = true → better b c = true → better a c = true)
  (irrefl : ∀ a, better a a = false)
include trans irrefl

/-- What is kept was met, and nothing usable that was met is better. -/
theorem best_eq_some {l : List A} {b : A} (kept : best usable better l = some b) :
    b ∈ l ∧ usable b = true ∧ ∀ a ∈ l, usable a = true → better a b = false := by
  induction l using List.reverseRecOn generalizing b with
  | nil => cases kept
  | append_singleton l a ih =>
    rw [best_append] at kept
    cases before : best usable better l with
    | none =>
      simp only [before, keepBest, Option.ite_none_right_eq_some, Option.some.injEq] at kept
      obtain ⟨used, rfl⟩ := kept
      refine ⟨by simp, used, fun x member usedX => ?_⟩
      rcases List.mem_append.mp member with earlier | last
      · rw [best_eq_none.mp before x earlier] at usedX
        cases usedX
      · rw [List.mem_singleton.mp last]
        exact irrefl a
    | some c =>
      obtain ⟨member, usedC, least⟩ := ih before
      cases replaces : usable a && better a c with
      | false =>
        simp only [before, keepBest, replaces, Bool.false_eq_true, ↓reduceIte, Option.some.injEq] at kept
        obtain rfl := kept
        refine ⟨List.mem_append_left _ member, usedC, fun x memberX usedX => ?_⟩
        rcases List.mem_append.mp memberX with earlier | last
        · exact least x earlier usedX
        · obtain rfl := List.mem_singleton.mp last
          simpa [usedX] using replaces
      | true =>
        simp only [before, keepBest, replaces, ↓reduceIte, Option.some.injEq] at kept
        obtain rfl := kept
        obtain ⟨used, beats⟩ := Bool.and_eq_true_iff.mp replaces
        refine ⟨by simp, used, fun x memberX usedX => ?_⟩
        rcases List.mem_append.mp memberX with earlier | last
        · -- What beats the new one would have beaten the one it replaces.
          by_contra better'
          have beaten := trans x a c (eq_true_of_ne_false better') beats
          rw [least x earlier usedX] at beaten
          cases beaten
        · rw [List.mem_singleton.mp last]
          exact irrefl a

theorem best_eq_some_of {l : List A} {b : A} (member : b ∈ l) (used : usable b = true)
    (beats : ∀ a ∈ l, usable a = true → a ≠ b → better b a = true) : best usable better l = some b := by
  cases kept : best usable better l with
  | none => simp [best_eq_none.mp kept b member] at used
  | some c =>
    obtain ⟨memberC, usedC, least⟩ := best_eq_some trans irrefl kept
    by_contra other
    have beaten := beats c memberC usedC fun same => other (congrArg some same)
    rw [least b member used] at beaten
    cases beaten

end
end Egauth
