import Egauth.Semantics.Run
import Egauth.Tokens.Memory
import Mathlib.Logic.Function.Basic

/-! The refresh families as one ledger: the tokens by hash and the feed of
revocations, with no index. Five kinds of event change it. The coherence of the
families is preserved by each of them, and so along every run.
-/

set_option autoImplicit false

namespace Egauth.Tokens

@[ext] structure Ledger where
  tokens : Bytes → Option Refresh
  feed : List Announcement
  seq : Nat

inductive Event where
  | issued (fk : FamilyKey)
  | rotated (now : Time)
  | revoked (fk : FamilyKey)
  | forgotten (fk : FamilyKey)
  | expired (now : Time)

def Refresh.revokeIn (fk : FamilyKey) (r : Refresh) : Refresh :=
  if r.key = fk then { r with revoked := true } else r

@[simp] theorem Refresh.row_revokeIn (fk : FamilyKey) (r : Refresh) : (r.revokeIn fk).row = r.row := by
  unfold revokeIn
  split <;> rfl

@[simp] theorem Refresh.consumedAt_revokeIn (fk : FamilyKey) (r : Refresh) :
    (r.revokeIn fk).consumedAt = r.consumedAt := by
  unfold revokeIn
  split <;> rfl

@[simp] theorem Refresh.revoked_revokeIn (fk : FamilyKey) (r : Refresh) :
    (r.revokeIn fk).revoked = (r.revoked || decide (r.key = fk)) := by
  unfold revokeIn
  split <;> simp [*]

@[simp] theorem Refresh.key_revokeIn (fk : FamilyKey) (r : Refresh) : (r.revokeIn fk).key = r.key := by
  simp [key]

theorem Refresh.revokeIn_of_ne {fk : FamilyKey} {r : Refresh} (other : r.key ≠ fk) : r.revokeIn fk = r :=
  if_neg other

theorem Refresh.revokeIn_of_revoked {fk : FamilyKey} {r : Refresh} (revoked : r.revoked = true) :
    r.revokeIn fk = r := by
  unfold revokeIn
  split
  · rw [← revoked]
  · rfl

namespace Ledger

def set (l : Ledger) (h : Bytes) (r : Refresh) : Ledger :=
  { l with tokens := Function.update l.tokens h (some r) }

def Holds (l : Ledger) (fk : FamilyKey) (h : Bytes) (r : Refresh) : Prop := l.tokens h = some r ∧ r.key = fk

/-- What a single event does. Only a revoked family is forgotten. -/
inductive Step : Ledger → Event → Ledger → Prop where
  | issue {l : Ledger} {row : RefreshRow} (fresh : l.tokens row.tokenHash = none)
      (first : ∀ h r, ¬ l.Holds row.key h r) (valid : row.Valid) :
      Step l (.issued row.key) (l.set row.tokenHash { row := row })
  | rotate {l : Ledger} {h by' : Bytes} {r : Refresh} {next : RefreshRow} (now : Time)
      (stored : l.tokens h = some r) (unconsumed : r.consumedAt = 0) (unrevoked : r.revoked = false)
      (fresh : l.tokens next.tokenHash = none) (valid : next.Valid)
      (subject : r.row.subject = next.subject) (lineage : r.row.lineage = next.lineage)
      (family : r.row.family = next.family) (within : next.familyExpiresAt ≤ r.row.familyExpiresAt) :
      Step l (.rotated now) ((l.set h (r.consume now by')).set next.tokenHash { row := next })
  | revoke {l : Ledger} (fk : FamilyKey) (now : Time) {expires : Time}
      (unrevoked : ∃ h r, l.Holds fk h r ∧ r.revoked = false)
      (covers : ∀ h r, l.Holds fk h r → r.row.familyExpiresAt ≤ expires) :
      Step l (.revoked fk)
        { tokens := fun h => (l.tokens h).map (Refresh.revokeIn fk)
          feed := l.feed ++ [⟨l.seq + 1, ⟨fk.tenant, fk.family, now⟩, expires⟩]
          seq := l.seq + 1 }
  | forget {l : Ledger} (fk : FamilyKey) (revoked : ∀ h r, l.Holds fk h r → r.revoked = true) :
      Step l (.forgotten fk) { l with tokens := fun h => (l.tokens h).filter fun r => decide (r.key ≠ fk) }
  | expire {l : Ledger} (now : Time) :
      Step l (.expired now)
        { l with
          tokens := fun h => (l.tokens h).filter fun r => !r.expired now
          feed := l.feed.filter fun a => decide (now < a.expires) }

variable {l : Ledger}

theorem set_tokens {h h' : Bytes} {r r' : Refresh} :
    (l.set h r).tokens h' = some r' ↔ (h' = h ∧ r' = r) ∨ (h' ≠ h ∧ l.tokens h' = some r') := by
  unfold set
  by_cases same : h' = h
  · subst same
    simp [eq_comm]
  · simp [Function.update_of_ne, same]

theorem ne_of_fresh {h h' : Bytes} {r : Refresh} (stored : l.tokens h = some r)
    (fresh : l.tokens h' = none) : h ≠ h' := by
  rintro rfl
  rw [fresh] at stored
  cases stored

def Related (R : Bytes → Refresh → Bytes → Refresh → Prop) (l : Ledger) : Prop :=
  ∀ ⦃h r h' r'⦄, l.tokens h = some r → l.tokens h' = some r' → r.key = r'.key → R h r h' r'

section Related
variable {R : Bytes → Refresh → Bytes → Refresh → Prop} {l m : Ledger}

theorem Related.sub (related : l.Related R) (sub : ∀ {h r}, m.tokens h = some r → l.tokens h = some r) :
    m.Related R :=
  fun _ _ _ _ stored stored' => related (sub stored) (sub stored')

/-- A written token has to be related to itself and to the others of its family. -/
theorem Related.set (related : l.Related R) {h : Bytes} {r : Refresh} (self : R h r h r)
    (others : ∀ {h' r'}, h' ≠ h → l.tokens h' = some r' → r.key = r'.key → R h r h' r' ∧ R h' r' h r) :
    (l.set h r).Related R := by
  intro h₁ r₁ h₂ r₂ found found' same
  rcases set_tokens.mp found with ⟨rfl, rfl⟩ | ⟨other, stored⟩ <;>
    rcases set_tokens.mp found' with ⟨rfl, rfl⟩ | ⟨other', stored'⟩
  · exact self
  · exact (others other' stored' same).1
  · exact (others other stored same.symm).2
  · exact related stored stored' same

end Related

structure Agree (_h : Bytes) (r : Refresh) (_h' : Bytes) (r' : Refresh) : Prop where
  revoked : r.revoked = r'.revoked
  subject : r.row.subject = r'.row.subject
  lineage : r.row.lineage = r'.row.lineage

structure Coherent (l : Ledger) : Prop where
  row : ∀ {h r}, l.tokens h = some r → r.row.tokenHash = h ∧ r.row.Valid
  agree : l.Related Agree

theorem coherent_empty {feed : List Announcement} {seq : Nat} : Coherent ⟨fun _ => none, feed, seq⟩ :=
  ⟨fun stored => (nomatch stored), fun _ _ _ _ stored => (nomatch stored)⟩

theorem Coherent.sub {m : Ledger} (coherent : l.Coherent)
    (sub : ∀ {h r}, m.tokens h = some r → l.tokens h = some r) : m.Coherent :=
  ⟨fun stored => coherent.row (sub stored), coherent.agree.sub sub⟩

theorem Coherent.set (coherent : l.Coherent) {h : Bytes} {r : Refresh} (row : r.row.tokenHash = h ∧ r.row.Valid)
    (others : ∀ {h' r'}, h' ≠ h → l.tokens h' = some r' → r.key = r'.key → Agree h r h' r') :
    (l.set h r).Coherent := by
  refine ⟨fun found => ?_, coherent.agree.set ⟨rfl, rfl, rfl⟩ fun other stored same => ?_⟩
  · rcases set_tokens.mp found with ⟨rfl, rfl⟩ | ⟨-, stored⟩
    · exact row
    · exact coherent.row stored
  · have agree := others other stored same
    exact ⟨agree, agree.revoked.symm, agree.subject.symm, agree.lineage.symm⟩

theorem key_eq_of_continues {r : RefreshRow} {next : RefreshRow} (subject : r.subject = next.subject)
    (family : r.family = next.family) : r.key = next.key := by
  rw [RefreshRow.key, RefreshRow.key, subject, family]

theorem Coherent.step {m : Ledger} {event : Event} (coherent : l.Coherent) (step : Step l event m) :
    m.Coherent := by
  cases step with
  | issue fresh first valid =>
    refine coherent.set ⟨rfl, valid⟩ fun _ stored same => ?_
    exact absurd ⟨stored, same.symm⟩ (first _ _)
  | @rotate h by' r next now stored _ unrevoked _ valid subject lineage family _ =>
    have consumed : (l.set h (r.consume now by')).Coherent := by
      have row := coherent.row stored
      refine coherent.set row fun _ stored' same => ?_
      have agree := coherent.agree stored stored' same
      exact ⟨agree.revoked, agree.subject, agree.lineage⟩
    have presented : (l.set h (r.consume now by')).tokens h = some (r.consume now by') :=
      set_tokens.mpr (.inl ⟨rfl, rfl⟩)
    -- The next token has in common with the presented one what the family has.
    refine consumed.set ⟨rfl, valid⟩ fun _ stored' same => ?_
    have agree := consumed.agree presented stored' ((key_eq_of_continues subject family).trans same)
    exact ⟨unrevoked.symm.trans agree.revoked, subject.symm.trans agree.subject,
      lineage.symm.trans agree.lineage⟩
  | revoke fk =>
    refine ⟨fun found => ?_, fun _ _ _ _ found found' same => ?_⟩
    · obtain ⟨r, stored, rfl⟩ := Option.map_eq_some_iff.mp found
      simpa using coherent.row stored
    · obtain ⟨r, stored, rfl⟩ := Option.map_eq_some_iff.mp found
      obtain ⟨r', stored', rfl⟩ := Option.map_eq_some_iff.mp found'
      simp only [Refresh.key_revokeIn] at same
      have agree := coherent.agree stored stored' same
      exact ⟨by simp [agree.revoked, same], by simp [agree.subject], by simp [agree.lineage]⟩
  | forget => exact coherent.sub fun stored => (Option.filter_eq_some_iff.mp stored).1
  | expire => exact coherent.sub fun stored => (Option.filter_eq_some_iff.mp stored).1

/-- A family has one unconsumed token at most, and that one does not outlive a consumed one. -/
structure Ranked (h : Bytes) (r : Refresh) (h' : Bytes) (r' : Refresh) : Prop where
  single : r.consumedAt = 0 → r'.consumedAt = 0 → h = h'
  within : r.consumedAt ≠ 0 → r'.consumedAt = 0 → r'.row.familyExpiresAt ≤ r.row.familyExpiresAt

/-- Consuming the head of a family leaves it with consumed tokens only, and the next
head does not outlive any of them. At the zero Time the token would stay unconsumed. -/
theorem Related.rotate (ranked : l.Related Ranked) {h by' : Bytes} {r : Refresh}
    {next : RefreshRow} {now : Time} (stored : l.tokens h = some r) (unconsumed : r.consumedAt = 0)
    (subject : r.row.subject = next.subject) (family : r.row.family = next.family)
    (within : next.familyExpiresAt ≤ r.row.familyExpiresAt) (dated : now ≠ 0) :
    ((l.set h (r.consume now by')).set next.tokenHash { row := next }).Related Ranked := by
  -- The presented token was the only unconsumed one of its family.
  have others : ∀ {h' r'}, h' ≠ h → l.tokens h' = some r' → r.key = r'.key → r'.consumedAt ≠ 0 :=
    fun other stored' same unconsumed' =>
      other ((ranked stored stored' same).single unconsumed unconsumed').symm
  have consumed : (l.set h (r.consume now by')).Related Ranked := by
    refine ranked.set ⟨fun _ _ => rfl, fun _ zero => absurd zero dated⟩ fun other stored' same => ?_
    have used := others other stored' same
    exact ⟨⟨fun zero => absurd zero dated, fun _ zero => absurd zero used⟩,
      ⟨fun zero => absurd zero used, fun _ zero => absurd zero dated⟩⟩
  refine consumed.set ⟨fun _ _ => rfl, fun zero => absurd rfl zero⟩ fun {h' r'} _ stored' same => ?_
  have key : r.key = r'.key := (key_eq_of_continues subject family).trans same
  have facts : r'.consumedAt ≠ 0 ∧ next.familyExpiresAt ≤ r'.row.familyExpiresAt := by
    rcases set_tokens.mp stored' with ⟨rfl, rfl⟩ | ⟨other, stored'⟩
    · exact ⟨dated, within⟩
    · have used := others other stored' key
      exact ⟨used, within.trans ((ranked stored' stored key.symm).within used unconsumed)⟩
  exact ⟨⟨fun _ zero => absurd zero facts.1, fun zero => absurd rfl zero⟩,
    ⟨fun zero => absurd zero facts.1, fun _ _ => facts.2⟩⟩

theorem Related.step {m : Ledger} {event : Event} (ranked : l.Related Ranked) (step : Step l event m)
    (dated : ∀ now, event = .rotated now → now ≠ 0) : m.Related Ranked := by
  cases step with
  | issue fresh first valid =>
    refine ranked.set ⟨fun _ _ => rfl, fun zero => absurd rfl zero⟩ fun _ stored same => ?_
    exact absurd ⟨stored, same.symm⟩ (first _ _)
  | rotate now stored unconsumed _ _ _ subject _ family within =>
    exact ranked.rotate stored unconsumed subject family within (dated now rfl)
  | revoke fk =>
    intro h r h' r' found found' same
    obtain ⟨r, stored, rfl⟩ := Option.map_eq_some_iff.mp found
    obtain ⟨r', stored', rfl⟩ := Option.map_eq_some_iff.mp found'
    simp only [Refresh.key_revokeIn] at same
    have rank := ranked stored stored' same
    exact ⟨by simpa using rank.single, by simpa using rank.within⟩
  | forget => exact ranked.sub fun stored => (Option.filter_eq_some_iff.mp stored).1
  | expire => exact ranked.sub fun stored => (Option.filter_eq_some_iff.mp stored).1

end Ledger
end Egauth.Tokens
