import Egauth.Lifecycle.Dispatch

/-! What the programs of a dispatcher have been told when they call.

A subscriber is called for a row that was read, a row is acknowledged once its
subscriber has returned, it is no longer tracked once it is acknowledged, and
the rows that are forgotten are compared with those of the pass.
-/

set_option autoImplicit false

namespace Egauth.Lifecycle
open Egauth.Core Identity Prog

section
variable {D : Type}

/-- The items that a program has been told, and those whose subscribers have returned to it. -/
structure Note where
  known : List OutboxItem := []
  returned : List OutboxItem := []

def Note.track (g : Note) : (c : Call D) → Reply c → Note
  | .apply .., .ok ap => { g with known := g.known ++ ap.outbox }
  | .pendingOutbox _, .ok items => { g with known := g.known ++ items }
  | .subscriber item, .returned => { g with returned := item :: g.returned }
  | _, _ => g

/-- A subscriber is called for a row that was read, and a row is acknowledged after its subscriber has returned. -/
def Note.allows (g : Note) : Call D → Prop
  | .subscriber item => item ∈ g.known
  | .ackOutbox id => ∃ item ∈ g.known, item ∈ g.returned ∧ item.id = id
  | _ => True

def custody : Discipline (Call D) Reply Note where
  track := Note.track
  learns _ _ _ := True
  allows := Note.allows

/-- With the rows that were acknowledged, and the batch of the pass. -/
structure Books where
  note : Note := {}
  acked : List Int := []
  items : List OutboxItem := []

namespace Books

def track (g : Books) (c : Call D) (r : Reply c) : Books where
  note := g.note.track c r
  acked :=
    match c, r with
    | .ackOutbox id, .ok _ => id :: g.acked
    | _, _ => g.acked
  items :=
    match c, r with
    | .pendingOutbox _, .ok items => items
    | _, _ => g.items

def allows (g : Books) (c : Call D) : Prop :=
  g.note.allows c ∧
    match c with
    | .track _ item _ | .watch _ item _ => item ∈ g.note.known
    | .untrack _ id => id ∈ g.acked
    | .forgetDone _ seen now horizon => seen = g.items.map OutboxItem.id ∧
      horizon = if g.items.length ≥ retryBatch then (g.items.getLast?.map (createdAt · now)).getD 0 else 0
    | _ => True

def Keeps (g g' : Books) : Prop := g.note.known ⊆ g'.note.known ∧ g'.items = g.items

theorem Keeps.refl (g : Books) : g.Keeps g := ⟨List.Subset.refl _, rfl⟩

theorem Keeps.trans {g g' g'' : Books} (first : g.Keeps g') (second : g'.Keeps g'') : g.Keeps g'' :=
  ⟨List.Subset.trans first.1 second.1, second.2.trans first.2⟩

end Books

def bookkeeping : Discipline (Call D) Reply Books where
  track := Books.track
  learns _ _ _ := True
  allows := Books.allows

theorem conclude_keeps (d : D) (item : OutboxItem) (now : Time) (result : Except Failure Unit) {g : Books}
    (known : item ∈ g.note.known) (delivered : result = .ok () → item ∈ g.note.returned) :
    Obeys bookkeeping g (conclude d item now result) fun g' _ => g.Keeps g' := by
  cases result with
  | ok u =>
    refine ⟨⟨⟨item, known, delivered rfl, rfl⟩, trivial⟩, fun acked _ => ?_⟩
    cases acked with
    | error err => exact ⟨⟨trivial, known⟩, fun _ _ => ⟨⟨trivial, trivial⟩, fun _ _ => .refl g⟩⟩
    | ok u => exact ⟨⟨trivial, List.mem_cons_self⟩, fun _ _ => .refl g⟩
  | error err =>
    refine ⟨⟨trivial, known⟩, fun _ _ => ⟨⟨trivial, trivial⟩, fun deferred _ => ?_⟩⟩
    cases deferred with
    | error failed => exact ⟨⟨trivial, trivial⟩, fun _ _ => .refl g⟩
    | ok u =>
      simp only []
      split
      · exact .refl g
      · exact ⟨⟨trivial, trivial⟩, fun _ _ => .refl g⟩

theorem process_keeps (d : D) (item : OutboxItem) {g : Books} (known : item ∈ g.note.known) :
    Obeys bookkeeping g (process d item) fun g' _ => g.Keeps g' := by
  refine ⟨⟨trivial, trivial⟩, fun free _ => ?_⟩
  cases free with
  | false => exact .refl g
  | true =>
    refine ⟨⟨known, trivial⟩, fun outcome _ => ⟨⟨trivial, trivial⟩, fun now _ => ?_⟩⟩
    have told : g.Keeps (g.track (.subscriber item : Call D) outcome) ∧ (called item.component outcome = .ok () →
        item ∈ (g.track (.subscriber item : Call D) outcome).note.returned) := by
      cases outcome with
      | returned => exact ⟨.refl g, fun _ => List.mem_cons_self⟩
      | failed err => exact ⟨.refl g, nofun⟩
      | panicked => exact ⟨.refl g, nofun⟩
    refine (conclude_keeps d item now _ (told.1.1 known) told.2).bind (fun g' _ later => ?_) fun _ _ later => ?_
    · exact ⟨⟨trivial, trivial⟩, fun _ _ => told.1.trans later⟩
    · exact told.1.trans later

theorem dispatchOutbox_keeps (d : D) (items : List OutboxItem) {g : Books} (known : items ⊆ g.note.known) :
    Obeys bookkeeping g (dispatchOutbox d items) fun _ _ => True := by
  induction items generalizing g with
  | nil => trivial
  | cons item items ih =>
    refine ⟨⟨trivial, trivial⟩, fun ended _ => ?_⟩
    cases ended with
    | true => trivial
    | false =>
      refine (process_keeps d item (known List.mem_cons_self)).bind (fun g' _ later => ih ?_) fun _ _ _ => trivial
      exact List.Subset.trans (List.subset_of_cons_subset known) later.1

theorem retryRows_keeps (d : D) (now : Time) (items : List OutboxItem) {g : Books} (known : items ⊆ g.note.known) :
    Obeys bookkeeping g (retryRows d now items) fun g' _ => g.Keeps g' := by
  induction items generalizing g with
  | nil => exact .refl g
  | cons item items ih =>
    have rest := List.subset_of_cons_subset known
    have row : Obeys bookkeeping g (if item.attempts = 0 ∧ now.sub (createdAt item now) < fastPathGrace then
        retryRows d now items
      else do
        if ← ask .ended then pure false
        else
          process d item
          retryRows d now items) fun g' _ => g.Keeps g' := by
      split
      · exact ih rest
      · refine ⟨⟨trivial, trivial⟩, fun ended _ => ?_⟩
        cases ended with
        | true => exact .refl g
        | false =>
          refine (process_keeps d item (known List.mem_cons_self)).bind (fun g' _ later => ?_) fun _ _ later => later
          exact (ih (List.Subset.trans rest later.1)).mono fun _ _ => later.trans
    simp only [retryRows]
    split
    · exact ⟨⟨trivial, known List.mem_cons_self⟩, fun _ _ => row⟩
    · exact row

theorem Job.keeps (job : Job D) (g : Books) : Obeys bookkeeping g job.program fun _ _ => True := by
  cases job with
  | mutation d ctx newID m =>
    refine ⟨⟨trivial, trivial⟩, fun applied _ => ?_⟩
    cases applied with
    | error err => trivial
    | ok ap => exact dispatchOutbox_keeps d ap.outbox (List.subset_append_right _ _)
  | retry d =>
    refine ⟨⟨trivial, trivial⟩, fun pending _ => ?_⟩
    cases pending with
    | error err => trivial
    | ok items =>
      refine ⟨⟨trivial, trivial⟩, fun now _ => ?_⟩
      refine (retryRows_keeps d now items (List.subset_append_right _ _)).bind (fun g' through later => ?_)
        fun _ _ _ => trivial
      cases through with
      | false => trivial
      | true =>
        have batch : g'.items = items := later.2
        refine ⟨⟨trivial, ?_⟩, fun _ _ => trivial⟩
        rw [batch]
        exact ⟨rfl, rfl⟩
  | outside op => exact ⟨⟨trivial, trivial⟩, fun _ _ => trivial⟩

theorem Job.obeys (job : Job D) : Obeys custody {} job.program fun _ _ => True :=
  ((job.keeps {}).project Books.note (fun _ _ _ => rfl) (fun _ _ _ _ => trivial) fun _ _ => And.left).mono
    fun _ _ _ => trivial

end
end Egauth.Lifecycle
