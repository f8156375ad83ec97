import Mathlib.Data.List.Basic

/-! Runs of a labelled transition system.

A run is given by its labels, a history by the states it went through. The
step relation is arbitrary; a condition on the steps of a run is imposed by
restricting the relation, so that one induction serves every invariant.
-/

set_option autoImplicit false

namespace Egauth

variable {S L : Type} {step : S → L → S → Prop} {labels before after : List L} {s : S}

/-- Finite runs, with the labels oldest first. -/
inductive Run (step : S → L → S → Prop) : S → List L → S → Prop where
  | nil {s : S} : Run step s [] s
  | snoc {s t u : S} {labels : List L} {label : L} :
      Run step s labels t → step t label u → Run step s (labels ++ [label]) u

/-- Finite runs, with the states that were left, newest first. -/
inductive History (step : S → L → S → Prop) (initial : S) : List S → S → Prop where
  | start : History step initial [] initial
  | next {past : List S} {s t : S} {label : L} :
      History step initial past s → step s label t → History step initial (s :: past) t

/-- The steps of a relation that meet a condition on the state before and the label. -/
def Restrict (condition : S → L → Prop) (step : S → L → S → Prop) (s : S) (label : L) (t : S) : Prop :=
  condition s label ∧ step s label t

/-- What one step keeps, a whole run keeps. -/
theorem Run.invariant (kept : S → Prop) (keep : ∀ {s label t}, kept s → step s label t → kept t)
    {t : S} (run : Run step s labels t) (start : kept s) : kept t := by
  induction run with
  | nil => exact start
  | snoc _ last ih => exact keep ih last

/-- Invariants that relate a state to the states before it. -/
theorem History.invariant {initial : S} (kept : List S → S → Prop) (start : kept [] initial)
    (keep : ∀ {past s label t}, kept past s → step s label t → kept (s :: past) t)
    {past : List S} (history : History step initial past s) : kept past s := by
  induction history with
  | start => exact start
  | next _ last ih => exact keep ih last

theorem Run.append {t u : S} {labels' : List L}
    (first : Run step s labels t) (second : Run step t labels' u) : Run step s (labels ++ labels') u := by
  induction second with
  | nil => simpa using first
  | snoc _ last ih => simpa using ih.snoc last

theorem Run.single {t : S} {label : L} (only : step s label t) : Run step s [label] t := Run.snoc .nil only

theorem Run.split {u : S} (run : Run step s labels u) {label : L} (position : labels = before ++ label :: after) :
    ∃ t t', Run step s before t ∧ step t label t' ∧ Run step t' after u := by
  induction run generalizing after with
  | nil => simp at position
  | @snoc t u labels last first final ih =>
    -- Either the label is the last one, or it was met in the run before it.
    rcases List.eq_nil_or_concat after with rfl | ⟨rest, final', rfl⟩
    · obtain ⟨rfl, same⟩ := List.append_inj' position rfl
      cases same
      exact ⟨t, u, first, final, .nil⟩
    · rw [List.concat_eq_append, ← List.cons_append, ← List.append_assoc] at position
      obtain ⟨earlier, same⟩ := List.append_inj' position rfl
      cases same
      obtain ⟨v, v', reached, taken, onward⟩ := ih earlier
      exact ⟨v, v', reached, taken, by simpa using onward.snoc final⟩

/-- What holds right after a label of a run and is kept by every later step, told what has come since. -/
theorem Run.since {u : S} {label : L} (P : List L → S → Prop)
    (run : Run step s labels u) (position : labels = before ++ label :: after)
    (base : ∀ t t', Run step s before t → step t label t' → P [] t')
    (next : ∀ later l rest t t', after = later ++ l :: rest → Run step s (before ++ label :: later) t → step t l t' →
      P later t → P (later ++ [l]) t') : P after u := by
  obtain ⟨t, t', first, taken, onward⟩ := run.split position
  have reached (later rest : List L) (v : S) (prefix' : after = later ++ rest) (onward : Run step t' later v) :
      P later v := by
    induction onward generalizing rest with
    | nil => exact base t t' first taken
    | snoc earlier last ih =>
      rename_i middle final later l
      rw [List.append_assoc] at prefix'
      refine next later l rest middle final prefix' ?_ last (ih ([l] ++ rest) prefix')
      simpa using (first.snoc taken).append earlier
  exact reached after [] u (by simp) onward

theorem Run.split_append {u : S}
    (run : Run step s (before ++ after) u) : ∃ t, Run step s before t ∧ Run step t after u := by
  cases after with
  | nil =>
    rw [List.append_nil] at run
    exact ⟨u, run, .nil⟩
  | cons label after =>
    obtain ⟨t, t', first, taken, last⟩ := run.split rfl
    exact ⟨t, first, (Run.single taken).append last⟩

/-- Two positions of a run: one comes before the other, or they are the same. -/
theorem positions_cases {before' after' : List L} {label label' : L}
    (same : before ++ label :: after = before' ++ label' :: after') :
    (∃ between, before' = before ++ label :: between ∧ after = between ++ label' :: after') ∨
      (before = before' ∧ label = label' ∧ after = after') ∨
      ∃ between, before = before' ++ label' :: between ∧ after' = between ++ label :: after := by
  rcases List.append_eq_append_iff.mp same with ⟨gap, rfl, rest⟩ | ⟨gap, rfl, rest⟩
  · cases gap with
    | nil =>
      cases rest
      exact .inr (.inl ⟨by simp, rfl, rfl⟩)
    | cons first between =>
      cases rest
      exact .inl ⟨between, rfl, rfl⟩
  · cases gap with
    | nil =>
      cases rest
      exact .inr (.inl ⟨by simp, rfl, rfl⟩)
    | cons first between =>
      cases rest
      exact .inr (.inr ⟨between, rfl, rfl⟩)

theorem Run.foldl {next : S → L → S} (labels : List L)
    (each : ∀ s, ∀ label ∈ labels, step s label (next s label)) (s : S) :
    Run step s labels (labels.foldl next s) := by
  induction labels generalizing s with
  | nil => exact .nil
  | cons label labels ih =>
    have rest := ih (fun s label member => each s label (List.mem_cons_of_mem _ member)) (next s label)
    simpa using (Run.single (each s label (by simp))).append rest

theorem Run.mono {step step' : S → L → S → Prop} {s t : S} {labels : List L} (run : Run step s labels t)
    (weaker : ∀ s label t, step s label t → step' s label t) : Run step' s labels t := by
  induction run with
  | nil => exact .nil
  | snoc _ last ih => exact ih.snoc (weaker _ _ _ last)

theorem Run.restrict {condition : S → L → Prop} {t : S}
    (run : Run step s labels t) (met : ∀ s, ∀ label ∈ labels, condition s label) :
    Run (Restrict condition step) s labels t := by
  induction run with
  | nil => exact .nil
  | snoc _ last ih =>
    refine .snoc (ih fun s label member => met s label (by simp [member])) ⟨met _ _ (by simp), last⟩

theorem History.unrestrict {condition : S → L → Prop} {initial : S} {past : List S}
    (history : History (Restrict condition step) initial past s) : History step initial past s := by
  induction history with
  | start => exact .start
  | next _ last ih => exact ih.next last.2

end Egauth
