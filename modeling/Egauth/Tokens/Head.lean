import Egauth.Tokens.Refinement

/-! The head of a refresh family.

A family has at most one token that can still be rotated. The argument is the
coherence of the ledger; what remains is to read it off the store's own maps.
-/

set_option autoImplicit false

namespace Egauth.Tokens
open Egauth.Core

/-- What holds of every family between two calls. `count` says that a stored hash is
listed exactly once, under its own tenant and family, and nowhere else. -/
structure Store.Uniform (s : Store) : Prop where
  uniform : ∀ {h r h' r'}, s.tokens.lookup h = some r → s.tokens.lookup h' = some r' → r.key = r'.key →
    r.revoked = r'.revoked ∧ r.row.subject = r'.row.subject ∧ r.row.lineage = r'.row.lineage
  count : ∀ {h r}, s.tokens.lookup h = some r →
    ∀ fk, (s.hashesOf fk).count h = if fk = r.key then 1 else 0
  listed : ∀ {fk h}, h ∈ s.hashesOf fk → (s.tokens.lookup h).isSome = true

structure Store.SingleHead (s : Store) : Prop extends s.Uniform where
  head : ∀ {h r h' r'}, s.tokens.lookup h = some r → s.tokens.lookup h' = some r' → r.key = r'.key →
    r.consumedAt = 0 → r.revoked = false → r'.consumedAt = 0 → r'.revoked = false → h = h'

theorem Store.Indexed.count {s : Store} (indexed : s.Indexed) {h : Bytes} {r : Refresh}
    (stored : s.tokens.lookup h = some r) (fk : FamilyKey) :
    (s.hashesOf fk).count h = if fk = r.key then 1 else 0 := by
  split
  next own =>
    have member : h ∈ s.hashesOf fk := indexed.listed.mpr ⟨r, stored, own.symm⟩
    exact List.count_eq_one_of_mem (indexed.nodup fk) member
  next other =>
    refine List.count_eq_zero.mpr fun member => other ?_
    obtain ⟨r', stored', rfl⟩ := indexed.listed.mp member
    rw [stored] at stored'
    rw [Option.some.inj stored']

/-- A rotation at the zero Time would not record that the presented token was consumed. -/
def Call.Dated (call : Call) : Prop :=
  match call.op with
  | .consumeForRotation _ => call.clk.truncate ≠ 0
  | _ => True

theorem Call.Dated.rotated {call : Call} (dated : call.Dated) {now : Time} (allowed : call.Allows (.rotated now)) :
    now ≠ 0 := by
  obtain ⟨⟨req, rotation⟩, rfl⟩ := allowed
  unfold Dated at dated
  rw [rotation] at dated
  exact dated

/-- A sound store whose families each have one head. -/
structure Store.Headed (s : Store) : Prop where
  sound : s.Sound
  ranked : s.ledger.Related Ledger.Ranked

theorem Store.Headed.new : Store.Headed .new := ⟨.new, fun _ _ _ _ stored => (nomatch stored)⟩

theorem Store.Headed.apply {s : Store} (headed : s.Headed) {call : Call} (dated : call.Dated) :
    (s.apply call).Headed := by
  refine ⟨headed.sound.apply call, ?_⟩
  refine headed.sound.indexed.apply_invariant call (Ledger.Related Ledger.Ranked) ?_ headed.ranked
  intro l event m ranked permitted step
  refine ranked.step step ?_
  rintro now rfl
  exact dated.rotated permitted

theorem Store.Sound.uniform {s : Store} (sound : s.Sound) : s.Uniform where
  uniform stored stored' same :=
    have agree := sound.coherent.agree stored stored' same
    ⟨agree.revoked, agree.subject, agree.lineage⟩
  count stored := sound.indexed.count stored
  listed member := by
    obtain ⟨r, stored, -⟩ := sound.indexed.listed.mp member
    rw [stored, Option.isSome_some]

theorem Store.Headed.singleHead {s : Store} (headed : s.Headed) : s.SingleHead where
  toUniform := headed.sound.uniform
  head stored stored' same unconsumed _ unconsumed' _ :=
    (headed.ranked stored stored' same).single unconsumed unconsumed'

theorem Store.Headed.run {calls : List Call} {s t : Store} (headed : s.Headed)
    (run : Run (Restrict (fun _ call => call.Dated) Step) s calls t) : t.Headed := by
  refine run.invariant Store.Headed (fun {s call t} headed step => ?_) headed
  obtain ⟨dated, -, rfl⟩ := step
  exact headed.apply dated

/-- In every state reached by calls with arbitrary arguments and clock readings; a family has one head as
long as no rotation reads the zero Time. -/
theorem single_head_of_dated_run {calls : List Call} {s : Store} (run : Run Step .new calls s) :
    s.Uniform ∧ ((∀ call ∈ calls, call.Dated) → s.SingleHead) := by
  constructor
  · refine Store.Sound.uniform (run.invariant Store.Sound ?_ .new)
    rintro s call t sound ⟨-, rfl⟩
    exact sound.apply call
  · intro dated
    exact (Store.Headed.new.run (run.restrict fun _ call member => dated call member)).singleHead

namespace Sample

def uuid (n : UInt8) : UUID := ⟨List.replicate 16 n, by simp⟩

def subject : Subject := ⟨.zero, uuid 1⟩

def row (n : UInt8) (idle family : Time) : RefreshRow where
  tokenHash := List.replicate hashLen n
  family := uuid 2
  subject := subject
  lineage := uuid 3
  sealedAttrs := ⟨[1]⟩
  appClaims := []
  securityEpoch := 0
  clientFingerprint := [7]
  idleExpiresAt := idle
  familyExpiresAt := family
  createdAt := -1000

def record (n : UInt8) (idle family : Time) (accepted : checkRefreshRow (row n idle family) = none) :
    RefreshRecord := ⟨row n idle family, .inr accepted⟩

def rotation (clk : Time) : List Call :=
  [⟨clk, .create (record 1 1000000 2000000 (by decide))⟩,
    ⟨clk, .consumeForRotation ⟨List.replicate hashLen 1, record 2 1000000 2000000 (by decide)⟩⟩]

/-- Neither call of `rotation` ranges over a map, so each is a step from any state. -/
theorem rotation_run (clk : Time) : Run Step .new (rotation clk) ((rotation clk).foldl Store.apply .new) := by
  refine .foldl _ (fun s call member => ?_) _
  simp only [rotation, List.mem_cons, List.not_mem_nil, or_false] at member
  rcases member with rfl | rfl <;> exact ⟨trivial, rfl⟩

end Sample

theorem single_head_after_rotation : ((Sample.rotation 1000).foldl Store.apply .new).SingleHead := by
  have dated : ∀ call ∈ Sample.rotation 1000, call.Dated := by
    simp only [Sample.rotation, List.mem_cons, List.not_mem_nil, or_false, forall_eq_or_imp, forall_eq]
    exact ⟨trivial, (by decide : (1000 : Time).truncate ≠ 0)⟩
  exact (single_head_of_dated_run (Sample.rotation_run 1000)).2 dated

/-- A rotation at the zero Time forks the family: both tokens stay unconsumed. -/
theorem zero_time_rotation_forks : ∃ calls s, Run Step .new calls s ∧ ¬ s.SingleHead := by
  refine ⟨Sample.rotation 0, _, Sample.rotation_run 0, fun single => ?_⟩
  have presented : ((Sample.rotation 0).foldl Store.apply .new).tokens.lookup (List.replicate hashLen 1) =
      some { row := Sample.row 1 1000000 2000000, consumedBy := [7] } := by decide
  have next : ((Sample.rotation 0).foldl Store.apply .new).tokens.lookup (List.replicate hashLen 2) =
      some { row := Sample.row 2 1000000 2000000 } := by decide
  exact absurd (single.head presented next rfl rfl rfl rfl rfl) (by decide)

end Egauth.Tokens
