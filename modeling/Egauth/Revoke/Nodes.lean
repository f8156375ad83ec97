import Egauth.Data.Linked
import Egauth.Data.Map
import Egauth.Revoke.Lru
import Egauth.Semantics.Run
import Mathlib.Data.List.Induction

/-! The bounded map behind a revocation cache, as the code keeps it: nodes that
are linked both ways, and a map to them.

Addresses are never given out twice. A range over the map visits its keys in any
order.
-/

set_option autoImplicit false

namespace Egauth.Revoke
open Linked

structure Nodes (K V : Type) where
  capacity : Nat
  items : Map K Addr
  chain : Chain (K × V)
  fresh : Addr

namespace Nodes
variable {K V : Type} [DecidableEq K]

omit [DecidableEq K] in
def new (capacity : Nat) : Nodes K V := ⟨capacity, ∅, ⟨fun _ => none, none, none⟩, 0⟩

omit [DecidableEq K] in
def len (l : Nodes K V) : Nat := l.items.entries.length

omit [DecidableEq K] in
def refresh (l : Nodes K V) (a : Addr) : Nodes K V := { l with chain := (l.chain.unlink a).pushFront a }

def get (l : Nodes K V) (k : K) : Option V × Nodes K V :=
  match l.items.lookup k with
  | none => (none, l)
  | some a => ((val (l.refresh a).chain.heap a).map Prod.snd, l.refresh a)

def drop (l : Nodes K V) (a : Addr) (k : K) : Nodes K V :=
  { l with chain := l.chain.unlink a, items := l.items.erase k }

def evict : Nat → Nodes K V → Nodes K V
  | 0, l => l
  | fuel + 1, l =>
    if l.len > l.capacity then
      match l.chain.tail with
      | none => l
      | some old =>
        match val l.chain.heap old with
        | none => l
        | some e => evict fuel (l.drop old e.1)
    else l

def insert (l : Nodes K V) (k : K) (v : V) : Nodes K V :=
  { l with
    items := l.items.insert k l.fresh
    chain := (l.chain.allocate l.fresh (k, v)).pushFront l.fresh
    fresh := l.fresh + 1 }

def put (l : Nodes K V) (k : K) (v : V) : Nodes K V :=
  match l.items.lookup k with
  | some a => refresh { l with chain := l.chain.write a fun e => (e.1, v) } a
  | none => evict ((l.insert k v).len) (l.insert k v)

def remove (l : Nodes K V) (k : K) : Nodes K V :=
  match l.items.lookup k with
  | none => l
  | some a => l.drop a k

def removeIf (drop : K → V → Bool) (l : Nodes K V) (k : K) : Nodes K V :=
  match l.items.lookup k with
  | none => l
  | some a =>
    match val l.chain.heap a with
    | none => l
    | some e => if drop k e.2 then l.drop a k else l

def removeWhere (l : Nodes K V) (order : List K) (drop : K → V → Bool) : Nodes K V := order.foldl (removeIf drop) l

omit [DecidableEq K] in
def clear (l : Nodes K V) : Nodes K V := { l with items := ∅, chain := { l.chain with head := none, tail := none } }

omit [DecidableEq K] in
/-- The nodes from the front to the back, with their addresses. -/
structure Stores [DecidableEq K] (l : Nodes K V) (cells : List (Addr × K × V)) : Prop where
  chain : l.chain.Holds (cells.map Prod.fst)
  vals : ∀ c ∈ cells, val l.chain.heap c.1 = some c.2
  index : ∀ k a, l.items.lookup k = some a ↔ ∃ v, (a, k, v) ∈ cells
  fresh : ∀ c ∈ cells, c.1 < l.fresh

variable {l : Nodes K V} {cells front back : List (Addr × K × V)} {a : Addr} {k : K} {v : V}

theorem Stores.split (stores : l.Stores cells) (found : l.items.lookup k = some a) :
    ∃ front v back, cells = front ++ (a, k, v) :: back := by
  obtain ⟨v, member⟩ := (stores.index k a).mp found
  obtain ⟨front, back, same⟩ := List.append_of_mem member
  exact ⟨front, v, back, same⟩

theorem Stores.fst_notMem (stores : l.Stores (front ++ (a, k, v) :: back)) : a ∉ (front ++ back).map Prod.fst := by
  have nodup := stores.chain.nodup
  rw [List.map_append, List.map_cons, List.nodup_middle] at nodup
  rw [List.map_append]
  exact (List.nodup_cons.mp nodup).1

theorem Stores.key_ne (stores : l.Stores (front ++ (a, k, v) :: back)) :
    ∀ c ∈ front ++ back, c.2.1 ≠ k := by
  rintro ⟨b, k', v'⟩ member rfl
  have first : l.items.lookup k' = some a := (stores.index k' a).mpr ⟨v, by simp⟩
  have second : l.items.lookup k' = some b := (stores.index k' b).mpr ⟨v', by grind⟩
  rw [first] at second
  cases second
  exact stores.fst_notMem (List.mem_map_of_mem member)

theorem Stores.unlink (stores : l.Stores (front ++ (a, k, v) :: back)) :
    (l.chain.unlink a).Holds ((front ++ back).map Prod.fst) := by
  have holds := stores.chain
  rw [List.map_append, List.map_cons] at holds
  rw [List.map_append]
  exact holds.unlink

theorem Stores.drop (stores : l.Stores (front ++ (a, k, v) :: back)) : (l.drop a k).Stores (front ++ back) where
  chain := stores.unlink
  vals c member := by
    rw [Nodes.drop, Chain.val_unlink]
    exact stores.vals c (by grind)
  index k' b := by
    rw [Nodes.drop, Map.lookup_erase_eq]
    have apart := stores.key_ne
    split
    next same =>
      subst same
      refine ⟨nofun, fun ⟨v', member⟩ => absurd rfl (apart _ member)⟩
    next other =>
      rw [stores.index]
      refine exists_congr fun v' => ?_
      grind
  fresh c member := stores.fresh c (by grind)

theorem Stores.refresh (stores : l.Stores (front ++ (a, k, v) :: back)) :
    (l.refresh a).Stores ((a, k, v) :: (front ++ back)) where
  chain := by
    have known : val l.chain.heap a = some (k, v) := stores.vals (a, k, v) (by simp)
    exact stores.unlink.pushFront stores.fst_notMem (by rw [Chain.val_unlink, known]; rfl)
  vals c member := by
    rw [Nodes.refresh, Chain.val_pushFront, Chain.val_unlink]
    exact stores.vals c (by grind)
  index k' b := by
    rw [Nodes.refresh, stores.index]
    refine exists_congr fun v' => ?_
    grind
  fresh c member := stores.fresh c (by grind)

theorem Stores.write (stores : l.Stores (front ++ (a, k, v) :: back)) (v' : V) :
    Stores { l with chain := l.chain.write a fun e => (e.1, v') } (front ++ (a, k, v') :: back) where
  chain := by
    have holds := stores.chain
    rw [List.map_append, List.map_cons] at holds ⊢
    have written : (l.chain.write a fun e => (e.1, v')).Holds _ := holds.write _
    exact written
  vals c member := by
    have known : val l.chain.heap a = some (k, v) := stores.vals (a, k, v) (by simp)
    have away := stores.fst_notMem
    rw [Chain.val_write]
    split
    next own =>
      have same : c = (a, k, v') := by
        by_contra other
        exact away (own ▸ List.mem_map_of_mem (by grind))
      rw [same, known]
      rfl
    next other => exact stores.vals c (by grind)
  index k' b := by
    rw [stores.index]
    simp only [List.mem_append, List.mem_cons, Prod.mk.injEq]
    grind
  fresh c member := by
    rcases List.mem_append.mp member with early | late
    · exact stores.fresh c (List.mem_append_left _ early)
    · rcases List.mem_cons.mp late with rfl | late
      · exact stores.fresh (a, k, v) (by simp)
      · exact stores.fresh c (by simp [late])

theorem Stores.insert (stores : l.Stores cells) (absent : l.items.lookup k = none) :
    (l.insert k v).Stores ((l.fresh, k, v) :: cells) := by
  have away : l.fresh ∉ cells.map Prod.fst := by
    intro member
    obtain ⟨c, member, same⟩ := List.mem_map.mp member
    exact absurd (stores.fresh c member) (Nat.not_lt.mpr (Nat.le_of_eq same.symm))
  constructor
  · exact (stores.chain.allocate away _).pushFront away (by simp [Chain.val_allocate])
  · intro c member
    rw [Nodes.insert, Chain.val_pushFront, Chain.val_allocate]
    rcases List.mem_cons.mp member with rfl | member
    · rw [if_pos rfl]
    · have other : c.1 ≠ l.fresh := fun same => away (same ▸ List.mem_map_of_mem member)
      rw [if_neg other]
      exact stores.vals c member
  · intro k' b
    rw [Nodes.insert, Map.lookup_insert_eq]
    have index := stores.index
    split
    next same =>
      subst same
      have none : ∀ v', (b, k', v') ∉ cells := fun v' member => by simp [(index k' b).mpr ⟨v', member⟩] at absent
      grind
    next other => grind
  · intro c member
    have bound := stores.fresh
    change c.1 < l.fresh + 1
    rcases List.mem_cons.mp member with rfl | member
    · exact Nat.lt_succ_self _
    · exact Nat.lt_succ_of_lt (bound c member)

theorem Stores.eq_of_key (stores : l.Stores cells) {c c' : Addr × K × V} (member : c ∈ cells) (member' : c' ∈ cells)
    (same : c.2.1 = c'.2.1) : c = c' := by
  obtain ⟨b, k, v⟩ := c
  obtain ⟨b', k', v'⟩ := c'
  obtain rfl : k = k' := same
  have first := (stores.index k b).mpr ⟨v, member⟩
  have second := (stores.index k b').mpr ⟨v', member'⟩
  rw [first] at second
  exact List.inj_on_of_nodup_map stores.chain.nodup member member' (Option.some.inj second)

theorem Stores.keys (stores : l.Stores cells) : l.items.keys.Perm (cells.map fun c => c.2.1) := by
  have nodup : (cells.map fun c => c.2.1).Nodup :=
    List.Nodup.map_on (fun _ member _ member' same => stores.eq_of_key member member' same)
      (List.Nodup.of_map _ stores.chain.nodup)
  refine (List.perm_ext_iff_of_nodup l.items.keys_nodup nodup).mpr fun k => ?_
  rw [← AList.mem_keys, ← AList.lookup_isSome, Option.isSome_iff_exists, List.mem_map]
  constructor
  · rintro ⟨a, found⟩
    obtain ⟨v, member⟩ := (stores.index k a).mp found
    exact ⟨_, member, rfl⟩
  · rintro ⟨⟨a, k, v⟩, member, rfl⟩
    exact ⟨a, (stores.index k a).mpr ⟨v, member⟩⟩

theorem Stores.len (stores : l.Stores cells) : l.len = cells.length := by
  have lengths := stores.keys.length_eq
  rw [List.length_map] at lengths
  exact (List.length_map ..).symm.trans lengths

/-- Evicting stops when the capacity is met. -/
theorem Stores.evict (fuel : Nat) (stores : l.Stores cells) (enough : cells.length ≤ fuel) :
    (Nodes.evict fuel l).Stores (cells.take l.capacity) ∧ (Nodes.evict fuel l).capacity = l.capacity := by
  induction fuel generalizing l cells with
  | zero =>
    obtain rfl := List.length_eq_zero_iff.mp (Nat.le_zero.mp enough)
    exact ⟨by simpa [Nodes.evict] using stores, rfl⟩
  | succ fuel ih =>
    rw [Nodes.evict, stores.len]
    split
    next full =>
      rcases cells.eq_nil_or_concat' with rfl | ⟨front, ⟨old, k, v⟩, rfl⟩
      · exact absurd full (Nat.not_lt_zero _)
      · have tail : l.chain.tail = some old := by simpa using stores.chain.tail
        have known : val l.chain.heap old = some (k, v) := stores.vals (old, k, v) (by simp)
        have dropped : (l.drop old k).Stores (front ++ []) := stores.drop
        rw [List.append_nil] at dropped
        rw [List.length_append, List.length_singleton] at full enough
        have next := ih dropped (by omega)
        rw [tail]
        dsimp only
        rw [known, List.take_append_of_le_length (by omega)]
        exact next
    next within => exact ⟨by rwa [List.take_of_length_le (by omega)], rfl⟩

theorem Stores.removeWhere (drop : K → V → Bool) (order : List K) (stores : l.Stores cells) :
    (l.removeWhere order drop).Stores (cells.filter fun c => !(decide (c.2.1 ∈ order) && drop c.2.1 c.2.2)) ∧
      (l.removeWhere order drop).capacity = l.capacity := by
  induction order generalizing l cells with
  | nil => exact ⟨by simpa [Nodes.removeWhere] using stores, rfl⟩
  | cons k order ih =>
    -- One round takes out the node of the key, where there is one to take out.
    have round : (removeIf drop l k).Stores (cells.filter fun c => !(decide (c.2.1 = k) && drop c.2.1 c.2.2)) ∧
        (removeIf drop l k).capacity = l.capacity := by
      unfold removeIf
      cases found : l.items.lookup k with
      | none =>
        have all : (cells.filter fun c => !(decide (c.2.1 = k) && drop c.2.1 c.2.2)) = cells := by
          refine List.filter_eq_self.mpr fun ⟨a, k', v⟩ member => ?_
          have other : k' ≠ k := by
            rintro rfl
            rw [(stores.index k' a).mpr ⟨v, member⟩] at found
            cases found
          simp [other]
        rw [all]
        exact ⟨stores, rfl⟩
      | some a =>
        obtain ⟨front, v, back, rfl⟩ := stores.split found
        have known : val l.chain.heap a = some (k, v) := stores.vals (a, k, v) (by simp)
        have others {part : List (Addr × K × V)} (sub : part ⊆ front ++ back) :
            (part.filter fun c => !(decide (c.2.1 = k) && drop c.2.1 c.2.2)) = part := by
          refine List.filter_eq_self.mpr fun c member => ?_
          simp [stores.key_ne c (sub member)]
        dsimp only
        rw [known, List.filter_append, List.filter_cons, others (List.subset_append_left _ _),
          others (List.subset_append_right _ _)]
        by_cases dropped : drop k v = true
        · simp only [dropped, if_true, decide_true, Bool.and_self, Bool.not_true, Bool.false_eq_true, if_false]
          exact ⟨stores.drop, rfl⟩
        · simp only [dropped, Bool.false_eq_true, if_false, Bool.and_false, Bool.not_false, if_true]
          exact ⟨stores, trivial⟩
    obtain ⟨rest, same⟩ := ih round.1
    rw [List.filter_filter] at rest
    refine ⟨?_, same.trans round.2⟩
    have merged : (fun c : Addr × K × V => !(decide (c.2.1 ∈ k :: order) && drop c.2.1 c.2.2)) = fun c =>
        (!(decide (c.2.1 ∈ order) && drop c.2.1 c.2.2)) && !(decide (c.2.1 = k) && drop c.2.1 c.2.2) := by
      funext c
      simp only [List.mem_cons, Bool.decide_or]
      cases drop c.2.1 c.2.2 <;> simp [Bool.and_comm]
    rw [merged]
    exact rest

omit [DecidableEq K] in
theorem Stores.clear [DecidableEq K] (l : Nodes K V) : l.clear.Stores [] where
  chain := ⟨trivial, rfl, rfl, List.nodup_nil⟩
  vals := nofun
  index k a := by simp [Nodes.clear]
  fresh := nofun

end Nodes

inductive CacheOp (K V : Type) where
  | get (k : K)
  | put (k : K) (v : V)
  | remove (k : K)
  | removeWhere (drop : K → V → Bool)
  | clear

section
variable {K V : Type} [DecidableEq K] {items : List (K × V)}

def recent (capacity : Nat) (items : List (K × V)) : CacheOp K V → List (K × V)
  | .get k =>
    match items.lookup k with
    | some v => (k, v) :: items.filter fun e => !decide (e.1 = k)
    | none => items
  | .put k v => ((k, v) :: items.filter fun e => !decide (e.1 = k)).take capacity
  | .remove k => items.filter fun e => !decide (e.1 = k)
  | .removeWhere drop => items.filter fun e => !drop e.1 e.2
  | .clear => []

def reply (items : List (K × V)) : CacheOp K V → Option V
  | .get k => items.lookup k
  | _ => none

def entries (capacity : Nat) (ops : List (CacheOp K V)) : List (K × V) := ops.foldl (recent capacity) []

theorem entries_snoc (capacity : Nat) (ops : List (CacheOp K V)) (op : CacheOp K V) :
    entries capacity (ops ++ [op]) = recent capacity (entries capacity ops) op := List.foldl_concat ..

theorem filter_unknown {k : K} (unknown : k ∉ items.map Prod.fst) :
    (items.filter fun e => !decide (e.1 = k)) = items := by
  refine List.filter_eq_self.mpr fun e member => ?_
  have other : e.1 ≠ k := fun same => unknown (same ▸ List.mem_map_of_mem member)
  simp [other]

/-- One operation of the code, with what it answers. -/
inductive Nodes.Step (l : Nodes K V) : CacheOp K V × Option V → Nodes K V → Prop
  | get (k : K) : Step l (.get k, (l.get k).1) (l.get k).2
  | put (k : K) (v : V) : Step l (.put k v, none) (l.put k v)
  | remove (k : K) : Step l (.remove k, none) (l.remove k)
  | removeWhere (drop : K → V → Bool) {order : List K} (ranged : order.Perm l.items.keys) :
      Step l (.removeWhere drop, none) (l.removeWhere order drop)
  | clear : Step l (.clear, none) l.clear

/-- The nodes of the entries of a recency list, no more than there is room for. -/
structure Nodes.Represents (l : Nodes K V) (items : List (K × V)) (cells : List (Linked.Addr × K × V)) : Prop where
  stores : l.Stores cells
  items : items = cells.map Prod.snd
  within : cells.length ≤ l.capacity

section
variable {l l' : Nodes K V} {items : List (K × V)} {cells front back : List (Linked.Addr × K × V)} {a : Linked.Addr}
  {k : K} {v : V}

theorem Nodes.Stores.filter_ne (stores : l.Stores (front ++ (a, k, v) :: back)) :
    (((front ++ (a, k, v) :: back).map Prod.snd).filter fun e => !decide (e.1 = k)) = (front ++ back).map Prod.snd := by
  have others (e : K × V) (member : e ∈ (front ++ back).map Prod.snd) : e.1 ≠ k := by
    obtain ⟨c, held, rfl⟩ := List.mem_map.mp member
    exact stores.key_ne c held
  rw [List.map_append] at others
  rw [List.map_append, List.map_append, List.map_cons, List.filter_append, List.filter_cons]
  simp only [decide_true, Bool.not_true, Bool.false_eq_true, if_false]
  rw [← List.filter_append]
  exact List.filter_eq_self.mpr fun e member => by simp [others e member]

theorem Nodes.Stores.lookup (stores : l.Stores (front ++ (a, k, v) :: back)) :
    ((front ++ (a, k, v) :: back).map Prod.snd).lookup k = some v := by
  have away : ∀ c ∈ front, c.2.1 ≠ k := fun c member => stores.key_ne c (List.mem_append_left _ member)
  clear stores
  induction front with
  | nil => simp
  | cons c front ih =>
    have other := away c List.mem_cons_self
    rw [List.cons_append, List.map_cons, List.lookup_cons, beq_eq_false_iff_ne.mpr other.symm]
    exact ih fun c member => away c (List.mem_cons_of_mem _ member)

theorem Nodes.Stores.absent (stores : l.Stores cells) (absent : l.items.lookup k = none) :
    (cells.map Prod.snd).lookup k = none ∧ ((cells.map Prod.snd).filter fun e => !decide (e.1 = k)) = cells.map Prod.snd := by
  have unknown : k ∉ (cells.map Prod.snd).map Prod.fst := by
    rw [List.map_map]
    exact fun member => AList.lookup_eq_none.mp absent (AList.mem_keys.mpr (stores.keys.mem_iff.mpr member))
  refine ⟨?_, filter_unknown unknown⟩
  rw [List.lookup_eq_none_iff]
  exact fun e member => bne_iff_ne.mpr fun same => unknown (same ▸ List.mem_map_of_mem member)

/-- An operation of the code answers and leaves what it does on the recency list. -/
theorem Nodes.Represents.step (represents : l.Represents items cells) {label : CacheOp K V × Option V}
    (step : l.Step label l') :
    label.2 = reply items label.1 ∧ l'.capacity = l.capacity ∧
      ∃ cells', l'.Represents (recent l.capacity items label.1) cells' := by
  obtain ⟨stores, rfl, within⟩ := represents
  have others {front back : List (Linked.Addr × K × V)} {c : Linked.Addr × K × V}
      (within : (front ++ c :: back).length ≤ l.capacity) : (front ++ back).length + 1 ≤ l.capacity := by
    simp only [List.length_append, List.length_cons] at within ⊢
    omega
  cases step with
  | get k =>
    unfold Nodes.get
    cases found : l.items.lookup k with
    | none =>
      have absent := (stores.absent found).1
      exact ⟨absent.symm, rfl, cells, stores, by simp [recent, absent], within⟩
    | some a =>
      obtain ⟨front, v, back, rfl⟩ := stores.split found
      have moved := stores.refresh
      have known : Linked.val (l.refresh a).chain.heap a = some (k, v) := moved.vals (a, k, v) List.mem_cons_self
      refine ⟨?_, rfl, _, moved, ?_, others within⟩
      · rw [reply, stores.lookup]
        exact congrArg (Option.map Prod.snd) known
      · simp only [recent, stores.lookup, stores.filter_ne, List.map_cons]
  | put k v =>
    refine ⟨rfl, ?_⟩
    unfold Nodes.put
    cases found : l.items.lookup k with
    | some a =>
      obtain ⟨front, v', back, rfl⟩ := stores.split found
      have moved := (stores.write v).refresh
      refine ⟨rfl, _, moved, ?_, others within⟩
      have short : ((k, v) :: (front ++ back).map Prod.snd).length ≤ l.capacity := by
        rw [List.length_cons, List.length_map]
        exact others within
      rw [recent, stores.filter_ne, List.take_of_length_le short, List.map_cons]
    | none =>
      have inserted : (l.insert k v).Stores ((l.fresh, k, v) :: cells) := stores.insert found
      obtain ⟨kept, capacity⟩ := inserted.evict _ (Nat.le_of_eq inserted.len.symm)
      refine ⟨capacity, _, kept, ?_, ?_⟩
      · rw [recent, (stores.absent found).2, List.map_take, List.map_cons]
        rfl
      · rw [capacity]
        exact List.length_take_le _ _
  | remove k =>
    refine ⟨rfl, ?_⟩
    unfold Nodes.remove
    cases found : l.items.lookup k with
    | none => exact ⟨rfl, cells, stores, (stores.absent found).2, within⟩
    | some a =>
      obtain ⟨front, v, back, rfl⟩ := stores.split found
      exact ⟨rfl, _, stores.drop, stores.filter_ne, Nat.le_of_succ_le (others within)⟩
  | removeWhere drop ranged =>
    obtain ⟨kept, capacity⟩ := stores.removeWhere drop _
    refine ⟨rfl, capacity, _, kept, ?_, ?_⟩
    · rw [recent, List.filter_map]
      refine congrArg (List.map Prod.snd) (List.filter_congr fun c member => ?_)
      have visited := (ranged.trans stores.keys).mem_iff.mpr (List.mem_map_of_mem member)
      simp [visited]
    · rw [capacity]
      exact Nat.le_trans (List.length_filter_le _ _) within
  | clear => exact ⟨rfl, rfl, [], Nodes.Stores.clear l, rfl, Nat.zero_le _⟩

theorem Nodes.represents_of_run {capacity : Nat} {labels : List (CacheOp K V × Option V)}
    (run : Run Nodes.Step (Nodes.new capacity) labels l) :
    l.capacity = capacity ∧ (∃ cells, l.Represents (entries capacity (labels.map Prod.fst)) cells) ∧
      ∀ before label after, labels = before ++ label :: after →
        label.2 = reply (entries capacity (before.map Prod.fst)) label.1 := by
  induction run with
  | nil =>
    refine ⟨rfl, ⟨[], ⟨⟨trivial, rfl, rfl, List.nodup_nil⟩, nofun, by simp [Nodes.new], nofun⟩, rfl, Nat.zero_le _⟩, ?_⟩
    intro before label after split
    cases before <;> cases split
  | @snoc mid after labels label _ last ih =>
    obtain ⟨capacity', ⟨cells, represents⟩, replies⟩ := ih
    obtain ⟨answer, same, next⟩ := represents.step last
    rw [capacity'] at same next
    refine ⟨same, by simpa [entries_snoc] using next, fun before label' rest split => ?_⟩
    rcases rest.eq_nil_or_concat' with rfl | ⟨rest, final, rfl⟩
    · obtain ⟨rfl, one⟩ := List.append_inj' split rfl
      cases one
      exact answer
    · have tail : labels ++ [label] = (before ++ label' :: rest) ++ [final] := by simpa using split
      exact replies before label' rest (List.append_inj' tail rfl).1

end

section
variable {capacity : Nat} {items : List (K × V)} {ops : List (CacheOp K V)} {k : K} {v : V}

theorem mem_recent {op : CacheOp K V} (member : (k, v) ∈ recent capacity items op) :
    op = .put k v ∨ (∀ w, op ≠ .put k w) ∧ (k, v) ∈ items := by
  cases op with
  | get k' =>
    refine .inr ⟨fun _ => nofun, ?_⟩
    rw [recent] at member
    cases found : items.lookup k' with
    | none =>
      rw [found] at member
      exact member
    | some v' =>
      rw [found] at member
      rcases List.mem_cons.mp member with same | kept
      · cases same
        exact Lru.mem_of_lookup found
      · exact List.mem_of_mem_filter kept
  | put k' v' =>
    rcases List.mem_cons.mp (List.mem_of_mem_take member) with same | kept
    · cases same
      exact .inl rfl
    · have other := (List.mem_filter.mp kept).2
      refine .inr ⟨?_, List.mem_of_mem_filter kept⟩
      rintro w ⟨⟩
      simp at other
  | remove k' => exact .inr ⟨fun _ => nofun, List.mem_of_mem_filter member⟩
  | removeWhere drop => exact .inr ⟨fun _ => nofun, List.mem_of_mem_filter member⟩
  | clear => cases member

theorem recent_nodup (nodup : (items.map Prod.fst).Nodup) (op : CacheOp K V) :
    ((recent capacity items op).map Prod.fst).Nodup := by
  have fewer {part : List (K × V)} (sub : part.Sublist items) : (part.map Prod.fst).Nodup :=
    nodup.sublist (sub.map Prod.fst)
  have front (k : K) (v : V) : (((k, v) :: items.filter fun e => !decide (e.1 = k)).map Prod.fst).Nodup := by
    refine List.nodup_cons.mpr ⟨fun member => ?_, fewer List.filter_sublist⟩
    obtain ⟨e, kept, same⟩ := List.mem_map.mp member
    have other := (List.mem_filter.mp kept).2
    simp [same] at other
  cases op with
  | get k =>
    rw [recent]
    cases items.lookup k with
    | none => exact nodup
    | some v => exact front k v
  | put k v => exact (front k v).sublist ((List.take_sublist _ _).map _)
  | remove k => exact fewer List.filter_sublist
  | removeWhere drop => exact fewer List.filter_sublist
  | clear => exact List.nodup_nil

theorem entries_nodup (ops : List (CacheOp K V)) : ((entries capacity ops).map Prod.fst).Nodup := by
  induction ops using List.reverseRecOn with
  | nil => exact List.nodup_nil
  | append_singleton ops op ih =>
    rw [entries_snoc]
    exact recent_nodup ih op

/-- The cache knows the value that was last put for a key, as long as the key was neither removed nor evicted. -/
theorem mem_entries_iff (room : 1 ≤ capacity) : (k, v) ∈ entries capacity ops ↔
    ∃ before after, ops = before ++ .put k v :: after ∧ (∀ w, .put k w ∉ after) ∧
      ∀ mid, mid <+: after → k ∈ (entries capacity (before ++ .put k v :: mid)).map Prod.fst := by
  induction ops using List.reverseRecOn with
  | nil =>
    refine ⟨nofun, ?_⟩
    rintro ⟨before, after, split, -⟩
    simp at split
  | append_singleton ops op ih =>
    rw [entries_snoc]
    constructor
    · intro member
      have whole : k ∈ (entries capacity (ops ++ [op])).map Prod.fst := by
        rw [entries_snoc]
        exact List.mem_map_of_mem member
      rcases mem_recent member with rfl | ⟨other, kept⟩
      · refine ⟨ops, [], rfl, nofun, fun mid initial => ?_⟩
        rw [List.prefix_nil.mp initial]
        exact whole
      · obtain ⟨before, after, rfl, last, stays⟩ := ih.mp kept
        refine ⟨before, after ++ [op], by simp, fun w member => ?_, fun mid initial => ?_⟩
        · rcases List.mem_append.mp member with early | late
          · exact last w early
          · exact other w (List.mem_singleton.mp late).symm
        · rcases List.prefix_concat_iff.mp initial with rfl | early
          · simpa using whole
          · exact stays mid early
    · rintro ⟨before, after, split, last, stays⟩
      rcases after.eq_nil_or_concat' with rfl | ⟨after, final, rfl⟩
      · obtain ⟨rfl, one⟩ := List.append_inj' split rfl
        cases one
        rw [recent, ← Nat.succ_pred_eq_of_pos room, List.take_succ_cons]
        exact List.mem_cons_self
      · have tail : ops ++ [op] = (before ++ .put k v :: after) ++ [final] := by simpa using split
        obtain ⟨rfl, one⟩ := List.append_inj' tail rfl
        cases one
        have kept : (k, v) ∈ entries capacity (before ++ .put k v :: after) :=
          ih.mpr ⟨before, after, rfl, fun w member => last w (List.mem_append_left _ member),
            fun mid initial => stays mid (initial.trans (List.prefix_append _ _))⟩
        -- The key is still there, and an operation that does not put it leaves its value.
        have here := stays _ List.prefix_rfl
        rw [← List.cons_append, ← List.append_assoc, entries_snoc] at here
        obtain ⟨⟨k', w⟩, member, rfl⟩ := List.mem_map.mp here
        rcases mem_recent member with rfl | ⟨-, known⟩
        · exact absurd (List.mem_append_right _ List.mem_cons_self) (last w)
        · have same := List.inj_on_of_nodup_map (entries_nodup _) known kept rfl
          rwa [same] at member

/-- A new key is put in front, and the last one is evicted where there is no room. -/
theorem recent_put_new (within : items.length ≤ capacity) (room : 1 ≤ capacity) (unknown : k ∉ items.map Prod.fst) (v : V) :
    recent capacity items (.put k v) = (k, v) :: if items.length < capacity then items else items.dropLast := by
  obtain ⟨rest, rfl⟩ := Nat.exists_eq_add_of_le' room
  rw [recent, filter_unknown unknown, List.take_succ_cons, List.dropLast_eq_take]
  split
  · rw [List.take_of_length_le (by omega)]
  · rw [show items.length - 1 = rest by omega]

end

def Lru.perform (r : Lru K V) : CacheOp K V → Lru K V
  | .get k => ((r.get k).map Prod.snd).getD r
  | .put k v => r.put k v
  | .remove k => r.remove k
  | .removeWhere drop => r.removeWhere drop
  | .clear => r.clear

theorem filter_known {e : K × V} (member : e ∈ items) :
    (items.filter fun e' => !decide (e'.1 = e.1)).length < items.length :=
  List.length_filter_lt_length_iff_exists.mpr ⟨e, member, by simp⟩

theorem Lru.perform_items {r : Lru K V} (within : r.items.length ≤ r.capacity) (op : CacheOp K V) :
    (r.perform op).items = recent r.capacity r.items op ∧ (r.perform op).capacity = r.capacity := by
  cases op with
  | get k =>
    rw [Lru.perform, recent, Lru.get]
    cases r.items.lookup k with
    | none => exact ⟨rfl, rfl⟩
    | some v => exact ⟨rfl, rfl⟩
  | put k v =>
    rw [Lru.perform, Lru.put]
    split
    next known =>
      obtain ⟨e, member, rfl⟩ := List.mem_map.mp known
      have fewer := filter_known member
      refine ⟨?_, rfl⟩
      rw [recent, List.take_of_length_le (by rw [List.length_cons]; omega)]
      rfl
    next unknown =>
      refine ⟨?_, rfl⟩
      rw [recent, filter_unknown unknown]
      rfl
  | remove k => exact ⟨rfl, rfl⟩
  | removeWhere drop => exact ⟨rfl, rfl⟩
  | clear => exact ⟨rfl, rfl⟩

theorem recent_length {capacity : Nat} (within : items.length ≤ capacity) (op : CacheOp K V) :
    (recent capacity items op).length ≤ capacity := by
  cases op with
  | get k =>
    rw [recent]
    cases found : items.lookup k with
    | none => exact within
    | some v =>
      have fewer : (items.filter fun e => !decide (e.1 = k)).length < items.length :=
        filter_known (Lru.mem_of_lookup found)
      rw [List.length_cons]
      omega
  | put k v => exact List.length_take_le _ _
  | remove k => exact Nat.le_trans (List.length_filter_le _ _) within
  | removeWhere drop => exact Nat.le_trans (List.length_filter_le _ _) within
  | clear => exact Nat.zero_le _

theorem Lru.after_items (capacity : Nat) (ops : List (CacheOp K V)) :
    (ops.foldl Lru.perform (Lru.new capacity)).items = entries capacity ops ∧
      (ops.foldl Lru.perform (Lru.new capacity)).capacity = capacity ∧ (entries capacity ops).length ≤ capacity := by
  induction ops using List.reverseRecOn with
  | nil => exact ⟨rfl, rfl, Nat.zero_le _⟩
  | append_singleton ops op ih =>
    obtain ⟨items, same, within⟩ := ih
    rw [List.foldl_concat, entries_snoc]
    have bounded : (ops.foldl Lru.perform (Lru.new capacity)).items.length ≤
        (ops.foldl Lru.perform (Lru.new capacity)).capacity := by
      rw [items, same]
      exact within
    have next := Lru.perform_items bounded op
    rw [items, same] at next
    exact ⟨next.1, next.2, recent_length within op⟩

end

/-- The code's cache is a recency list. What an operation answers is what the list has; the nodes are the entries of
the list in its order, linked both ways, and the map leads to them and to nothing else. The list has the value that
was last put for a key that was neither removed nor evicted since, and a new key evicts the last entry alone. -/
theorem lru_recency_list {K V : Type} [DecidableEq K] (capacity : Nat) (room : 1 ≤ capacity)
    {labels : List (CacheOp K V × Option V)} {l : Nodes K V} (run : Run Nodes.Step (Nodes.new capacity) labels l) :
    let items := entries capacity (labels.map Prod.fst)
    (∀ before label after, labels = before ++ label :: after →
        label.2 = reply (entries capacity (before.map Prod.fst)) label.1) ∧
      (∃ addrs, l.chain.Holds addrs ∧ addrs.map (Linked.val l.chain.heap) = items.map some ∧
        ∀ k a, l.items.lookup k = some a ↔ ∃ v, a ∈ addrs ∧ Linked.val l.chain.heap a = some (k, v)) ∧
      l.items.keys.Perm (items.map Prod.fst) ∧ l.len ≤ capacity ∧
      ((labels.map Prod.fst).foldl Lru.perform (Lru.new capacity)).items = items ∧
      (∀ k v, (k, v) ∈ items ↔ ∃ before after, labels.map Prod.fst = before ++ .put k v :: after ∧
        (∀ w, .put k w ∉ after) ∧
          ∀ mid, mid <+: after → k ∈ (entries capacity (before ++ .put k v :: mid)).map Prod.fst) ∧
      ∀ k v, k ∉ items.map Prod.fst →
        recent capacity items (.put k v) = (k, v) :: if items.length < capacity then items else items.dropLast := by
  obtain ⟨same, ⟨cells, stores, items, within⟩, replies⟩ := Nodes.represents_of_run run
  have list := Lru.after_items capacity (labels.map Prod.fst)
  refine ⟨replies, ⟨cells.map Prod.fst, stores.chain, ?_, fun k a => ?_⟩, ?_, ?_, list.1,
    fun k v => mem_entries_iff room, fun k v unknown => recent_put_new list.2.2 room unknown v⟩
  · rw [items, List.map_map, List.map_map]
    exact List.map_congr_left fun c member => stores.vals c member
  · rw [stores.index]
    refine exists_congr fun v => ⟨fun member => ?_, fun ⟨member, known⟩ => ?_⟩
    · exact ⟨List.mem_map_of_mem member, stores.vals _ member⟩
    · obtain ⟨⟨b, e⟩, held, rfl⟩ := List.mem_map.mp member
      have same := stores.vals _ held
      rw [known] at same
      cases same
      exact held
  · rw [items, List.map_map]
    exact stores.keys
  · rw [stores.len, ← same]
    exact within

/-- Room for two: the key that was read stays, and the one that was not is evicted. -/
theorem lru_recency_list_two : ∃ labels, ∃ l : Nodes Nat Bool, Run Nodes.Step (Nodes.new 2) labels l ∧
    labels.map Prod.fst = [.put 1 true, .put 2 true, .get 1, .put 3 false] ∧
      labels.map Prod.snd = [none, none, some true, none] ∧ l.items.keys.Perm [3, 1] := by
  have run : Run Nodes.Step (Nodes.new 2 : Nodes Nat Bool) _ _ :=
    .snoc (.snoc (.snoc (.snoc .nil (.put 1 true)) (.put 2 true)) (.get 1)) (.put 3 false)
  obtain ⟨-, -, keys, -⟩ := lru_recency_list 2 (by decide) run
  exact ⟨_, _, run, rfl, by decide +kernel, keys⟩

end Egauth.Revoke
