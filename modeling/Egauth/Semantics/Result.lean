import Mathlib.Data.List.Forall2

/-! Computations that can fail, taken apart from their result. -/

set_option autoImplicit false

namespace Egauth

theorem bind_eq_ok {E A B : Type} {x : Except E A} {f : A → Except E B} {b : B} :
    x >>= f = .ok b ↔ ∃ a, x = .ok a ∧ f a = .ok b := by
  cases x with
  | error err => exact ⟨nofun, fun ⟨_, failed, _⟩ => nomatch failed⟩
  | ok a => exact ⟨fun result => ⟨a, rfl, result⟩, fun ⟨_, found, result⟩ => Except.ok.inj found ▸ result⟩

theorem bind_eq_error {E A B : Type} {x : Except E A} {f : A → Except E B} {err : E} :
    x >>= f = .error err ↔ x = .error err ∨ ∃ a, x = .ok a ∧ f a = .error err := by
  cases x with
  | error failed =>
    constructor
    · intro same
      cases same
      exact .inl rfl
    · rintro (same | ⟨_, found, _⟩)
      · cases same
        rfl
      · cases found
  | ok a =>
    constructor
    · exact fun later => .inr ⟨a, rfl, later⟩
    · rintro (found | ⟨_, found, later⟩)
      · cases found
      · cases found
        exact later

theorem mapError_eq_ok {E F A : Type} {f : E → F} {x : Except E A} {a : A} : x.mapError f = .ok a ↔ x = .ok a := by
  cases x <;> simp [Except.mapError]

theorem forall₂_of_mapM {E A B : Type} {f : A → Except E B} {as : List A} {bs : List B}
    (ok : as.mapM f = .ok bs) : List.Forall₂ (fun b a => a ∈ as ∧ f a = .ok b) bs as := by
  induction as generalizing bs with
  | nil =>
    cases ok
    exact .nil
  | cons a as ih =>
    simp only [List.mapM_cons, bind_eq_ok] at ok
    obtain ⟨b, first, rest, others, ok⟩ := ok
    cases ok
    exact .cons ⟨by simp, first⟩ ((ih others).imp fun _ _ ⟨member, result⟩ => ⟨List.mem_cons_of_mem _ member, result⟩)

theorem ite_error_eq_ok {E A : Type} {c : Prop} [Decidable c] {err : E} {x : Except E A} {a : A} :
    (if c then .error err else x) = .ok a ↔ ¬c ∧ x = .ok a := by
  split
  next failed => exact ⟨nofun, fun ⟨passed, _⟩ => absurd failed passed⟩
  next passed => exact ⟨fun result => ⟨passed, result⟩, fun ⟨_, result⟩ => result⟩

theorem ite_some_eq_none {A : Type} {c : Prop} [Decidable c] {a : A} {x : Option A} :
    (if c then some a else x) = none ↔ ¬c ∧ x = none := by
  split
  next failed => exact ⟨nofun, fun ⟨passed, _⟩ => absurd failed passed⟩
  next passed => exact ⟨fun result => ⟨passed, result⟩, fun ⟨_, result⟩ => result⟩

end Egauth
