import Mathlib.Data.List.Basic
import Mathlib.Logic.Function.Basic

/-! Doubly linked lists in a heap.

A cell is reached by its address. `Segment` says which cells lie between two
neighbours, from either end; a chain is a segment without neighbours whose ends
are known.
-/

set_option autoImplicit false

namespace Egauth.Linked

abbrev Addr := Nat

structure Cell (A : Type) where
  val : A
  prev : Option Addr
  next : Option Addr

abbrev Heap (A : Type) := Addr → Option (Cell A)

variable {A : Type}

def modify (h : Heap A) (a : Addr) (f : Cell A → Cell A) : Heap A := Function.update h a ((h a).map f)

def setPrev (h : Heap A) (a : Addr) (p : Option Addr) : Heap A := modify h a fun cell => { cell with prev := p }

def setNext (h : Heap A) (a : Addr) (n : Option Addr) : Heap A := modify h a fun cell => { cell with next := n }

def setLinks (h : Heap A) (a : Addr) (p n : Option Addr) : Heap A :=
  modify h a fun cell => { cell with prev := p, next := n }

def val (h : Heap A) (a : Addr) : Option A := (h a).map Cell.val

theorem modify_other (h : Heap A) {a b : Addr} (f : Cell A → Cell A) (other : b ≠ a) : modify h a f b = h b :=
  Function.update_of_ne other _ _

theorem modify_self (h : Heap A) (a : Addr) (f : Cell A → Cell A) : modify h a f a = (h a).map f :=
  Function.update_self a _ _

theorem val_modify (h : Heap A) (a b : Addr) {f : Cell A → Cell A} (keeps : ∀ cell, (f cell).val = cell.val) :
    val (modify h a f) b = val h b := by
  by_cases own : b = a
  · subst own
    rw [val, modify_self, Option.map_map]
    exact congrArg (Option.map · (h b)) (funext keeps)
  · rw [val, modify_other h f own, val]

@[simp] theorem val_setPrev (h : Heap A) (a b : Addr) (p : Option Addr) : val (setPrev h a p) b = val h b :=
  val_modify h a b fun _ => rfl

@[simp] theorem val_setNext (h : Heap A) (a b : Addr) (n : Option Addr) : val (setNext h a n) b = val h b :=
  val_modify h a b fun _ => rfl

@[simp] theorem val_setLinks (h : Heap A) (a b : Addr) (p n : Option Addr) : val (setLinks h a p n) b = val h b :=
  val_modify h a b fun _ => rfl

/-- The cells at these addresses follow each other, between a cell before and a cell after them. -/
def Segment (h : Heap A) : Option Addr → List Addr → Option Addr → Prop
  | _, [], _ => True
  | before, a :: rest, after => (∃ v, h a = some ⟨v, before, rest.head?.or after⟩) ∧ Segment h (some a) rest after

variable {h : Heap A} {before after : Option Addr} {addrs rest : List Addr}

theorem segment_append : Segment h before (addrs ++ rest) after ↔
    Segment h before addrs (rest.head?.or after) ∧ Segment h (addrs.getLast?.or before) rest after := by
  induction addrs generalizing before with
  | nil => simp [Segment]
  | cons a addrs ih =>
    have last : (a :: addrs).getLast?.or before = addrs.getLast?.or (some a) := by
      rw [List.getLast?_cons]
      cases addrs.getLast? <;> rfl
    have next : (addrs ++ rest).head?.or after = addrs.head?.or (rest.head?.or after) := by
      cases addrs <;> simp
    rw [List.cons_append, Segment, Segment, ih, last, next, and_assoc]

theorem Segment.frame {h' : Heap A} (segment : Segment h before addrs after) (same : ∀ a ∈ addrs, h' a = h a) :
    Segment h' before addrs after := by
  induction addrs generalizing before with
  | nil => trivial
  | cons a addrs ih =>
    obtain ⟨⟨v, cell⟩, tail⟩ := segment
    exact ⟨⟨v, (same a List.mem_cons_self).trans cell⟩, ih tail fun b member => same b (List.mem_cons_of_mem a member)⟩

theorem Segment.modify {a : Addr} {f : Cell A → Cell A} (segment : Segment h before addrs after) (other : a ∉ addrs) :
    Segment (modify h a f) before addrs after :=
  segment.frame fun _ member => modify_other h f fun same => other (same ▸ member)

theorem Segment.setNext {a : Addr} (segment : Segment h before (addrs ++ [a]) after) (fresh : a ∉ addrs)
    (after' : Option Addr) : Segment (setNext h a after') before (addrs ++ [a]) after' := by
  obtain ⟨first, ⟨v, cell⟩, -⟩ := segment_append.mp segment
  refine segment_append.mpr ⟨first.modify fresh, ⟨v, ?_⟩, trivial⟩
  rw [Linked.setNext, modify_self, cell]
  rfl

theorem Segment.write {a : Addr} (segment : Segment h before addrs after) (f : A → A) :
    Segment (Linked.modify h a fun cell => { cell with val := f cell.val }) before addrs after := by
  induction addrs generalizing before with
  | nil => trivial
  | cons b addrs ih =>
    obtain ⟨⟨v, cell⟩, tail⟩ := segment
    refine ⟨?_, ih tail⟩
    by_cases own : b = a
    · subst own
      refine ⟨f v, ?_⟩
      rw [modify_self, cell]
      rfl
    · exact ⟨v, (modify_other h _ own).trans cell⟩

theorem Segment.setPrev {a : Addr} (segment : Segment h before (a :: addrs) after) (fresh : a ∉ addrs)
    (before' : Option Addr) : Segment (setPrev h a before') before' (a :: addrs) after := by
  obtain ⟨⟨v, cell⟩, tail⟩ := segment
  refine ⟨⟨v, ?_⟩, tail.modify fresh⟩
  rw [Linked.setPrev, modify_self, cell]
  rfl

structure Chain (A : Type) where
  heap : Heap A
  head : Option Addr
  tail : Option Addr

namespace Chain

def pushFront (c : Chain A) (a : Addr) : Chain A where
  heap :=
    match c.head with
    | some first => setPrev (setLinks c.heap a none c.head) first (some a)
    | none => setLinks c.heap a none c.head
  head := some a
  tail :=
    match c.tail with
    | none => some a
    | some last => some last

def unlinkPrev (c : Chain A) (a : Addr) : Chain A :=
  match (c.heap a).bind Cell.prev with
  | some p => { c with heap := setNext c.heap p ((c.heap a).bind Cell.next) }
  | none => { c with head := (c.heap a).bind Cell.next }

def unlinkNext (c : Chain A) (a : Addr) : Chain A :=
  match (c.heap a).bind Cell.next with
  | some n => { c with heap := setPrev c.heap n ((c.heap a).bind Cell.prev) }
  | none => { c with tail := (c.heap a).bind Cell.prev }

def unlink (c : Chain A) (a : Addr) : Chain A :=
  let c := (c.unlinkPrev a).unlinkNext a
  { c with heap := setLinks c.heap a none none }

def allocate (c : Chain A) (a : Addr) (v : A) : Chain A :=
  { c with heap := Function.update c.heap a (some ⟨v, none, none⟩) }

def write (c : Chain A) (a : Addr) (f : A → A) : Chain A :=
  { c with heap := modify c.heap a fun cell => { cell with val := f cell.val } }

structure Holds (c : Chain A) (addrs : List Addr) : Prop where
  cells : Segment c.heap none addrs none
  head : c.head = addrs.head?
  tail : c.tail = addrs.getLast?
  nodup : addrs.Nodup

@[simp] theorem val_pushFront (c : Chain A) (a b : Addr) : val (c.pushFront a).heap b = val c.heap b := by
  unfold pushFront
  cases c.head <;> simp

@[simp] theorem val_unlinkPrev (c : Chain A) (a b : Addr) : val (c.unlinkPrev a).heap b = val c.heap b := by
  unfold unlinkPrev
  split <;> simp

@[simp] theorem val_unlinkNext (c : Chain A) (a b : Addr) : val (c.unlinkNext a).heap b = val c.heap b := by
  unfold unlinkNext
  split <;> simp

@[simp] theorem val_unlink (c : Chain A) (a b : Addr) : val (c.unlink a).heap b = val c.heap b := by
  simp [unlink]

theorem val_allocate (c : Chain A) (a b : Addr) (v : A) :
    val (c.allocate a v).heap b = if b = a then some v else val c.heap b := by
  unfold allocate val
  by_cases own : b = a
  · subst own
    simp
  · simp [own]

theorem val_write (c : Chain A) (a b : Addr) (f : A → A) :
    val (c.write a f).heap b = if b = a then (val c.heap b).map f else val c.heap b := by
  unfold write val
  by_cases own : b = a
  · subst own
    simp [modify_self, Function.comp_def]
  · simp [own, modify_other]

variable {c : Chain A} {a : Addr}

theorem Holds.allocate (holds : c.Holds addrs) (fresh : a ∉ addrs) (v : A) : (c.allocate a v).Holds addrs := by
  refine { holds with cells := holds.cells.frame fun b member => ?_ }
  have other : b ≠ a := fun same => fresh (same ▸ member)
  exact Function.update_of_ne other _ _

theorem Holds.write (holds : c.Holds addrs) (f : A → A) : (c.write a f).Holds addrs :=
  { holds with cells := holds.cells.write f }

theorem Holds.pushFront (holds : c.Holds addrs) (fresh : a ∉ addrs) (allocated : (val c.heap a).isSome = true) :
    (c.pushFront a).Holds (a :: addrs) := by
  rw [val, Option.isSome_map] at allocated
  obtain ⟨cell, found⟩ := Option.isSome_iff_exists.mp allocated
  have own : setLinks c.heap a none c.head a = some ⟨cell.val, none, addrs.head?⟩ := by
    rw [setLinks, modify_self, found, ← holds.head]
    rfl
  refine ⟨?_, rfl, ?_, List.nodup_cons.mpr ⟨fresh, holds.nodup⟩⟩
  · have kept : Segment (setLinks c.heap a none c.head) none addrs none := holds.cells.modify fresh
    unfold Chain.pushFront
    rw [holds.head] at own kept ⊢
    cases addrs with
    | nil => exact ⟨⟨cell.val, own⟩, trivial⟩
    | cons first rest =>
      have other : a ≠ first := fun same => fresh (same ▸ List.mem_cons_self)
      exact ⟨⟨cell.val, (modify_other _ _ other).trans own⟩, kept.setPrev (List.nodup_cons.mp holds.nodup).1 _⟩
  · unfold Chain.pushFront
    rw [holds.tail, List.getLast?_cons]
    cases addrs.getLast? <;> rfl

structure Between (c : Chain A) (first : List Addr) (a : Addr) (rest : List Addr) (next : Option Addr)
    (prev : Option Addr) : Prop where
  cell : ∃ v, c.heap a = some ⟨v, first.getLast?, rest.head?⟩
  first : Segment c.heap none first next
  rest : Segment c.heap prev rest none

variable {first : List Addr}

theorem Between.unlinkPrev {prev : Option Addr} (between : c.Between first a rest (some a) prev)
    (nodup : (first ++ a :: rest).Nodup) (head : c.head = (first ++ a :: rest).head?) :
    (c.unlinkPrev a).Between first a rest rest.head? prev ∧ (c.unlinkPrev a).head = (first ++ rest).head? ∧
      (c.unlinkPrev a).tail = c.tail := by
  obtain ⟨v, cell⟩ := between.cell
  have prev' : (c.heap a).bind Cell.prev = first.getLast? := by rw [cell]; rfl
  have next' : (c.heap a).bind Cell.next = rest.head? := by rw [cell]; rfl
  unfold Chain.unlinkPrev
  rw [prev', next']
  rcases first.eq_nil_or_concat' with rfl | ⟨front, p, rfl⟩
  · exact ⟨⟨between.cell, trivial, between.rest⟩, rfl, rfl⟩
  · have other : a ≠ p := by grind
    have fresh : p ∉ front := by grind
    have away : p ∉ rest := by grind
    rw [List.getLast?_concat]
    refine ⟨⟨⟨v, ?_⟩, between.first.setNext fresh _, between.rest.modify away⟩, ?_, rfl⟩
    · exact (modify_other _ _ other).trans cell
    · rw [head]
      cases front <;> rfl

theorem Between.unlinkNext (between : c.Between first a rest rest.head? (some a))
    (nodup : (first ++ a :: rest).Nodup) (tail : c.tail = (first ++ a :: rest).getLast?) :
    (c.unlinkNext a).Between first a rest rest.head? first.getLast? ∧ (c.unlinkNext a).head = c.head ∧
      (c.unlinkNext a).tail = (first ++ rest).getLast? := by
  obtain ⟨v, cell⟩ := between.cell
  have prev' : (c.heap a).bind Cell.prev = first.getLast? := by rw [cell]; rfl
  have next' : (c.heap a).bind Cell.next = rest.head? := by rw [cell]; rfl
  unfold Chain.unlinkNext
  rw [prev', next']
  cases rest with
  | nil => exact ⟨⟨between.cell, between.first, trivial⟩, rfl, by simp⟩
  | cons n rest =>
    have other : a ≠ n := by grind
    have fresh : n ∉ rest := by grind
    have away : n ∉ first := by grind
    refine ⟨⟨⟨v, ?_⟩, between.first.modify away, between.rest.setPrev fresh _⟩, rfl, ?_⟩
    · exact (modify_other _ _ other).trans cell
    · rw [tail]
      simp [List.getLast?_append, List.getLast?_cons]

theorem Holds.unlink (holds : c.Holds (first ++ a :: rest)) : (c.unlink a).Holds (first ++ rest) := by
  have nodup := holds.nodup
  obtain ⟨front, ⟨v, cell⟩, back⟩ := segment_append.mp holds.cells
  have between : c.Between first a rest (some a) (some a) := ⟨⟨v, by simpa using cell⟩, front, back⟩
  obtain ⟨between, head, tail⟩ := between.unlinkPrev nodup holds.head
  obtain ⟨between, head', tail⟩ := between.unlinkNext nodup (tail.trans holds.tail)
  have outside : a ∉ first ++ rest := by grind
  refine ⟨Segment.modify ?_ outside, head'.trans head, tail, ?_⟩
  · refine segment_append.mpr ⟨?_, ?_⟩
    · simpa using between.first
    · simpa using between.rest
  · grind

end Chain
end Egauth.Linked
