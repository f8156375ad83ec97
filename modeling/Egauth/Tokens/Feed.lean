import Egauth.Tokens.Refinement
import Mathlib.Data.List.TakeWhile

/-! The revocation feed.

A family is announced when its tokens are revoked, with the latest expiry among
them, and the announcement is kept until then. Deleting a family revokes it
first, so it is announced too.
-/

set_option autoImplicit false

namespace Egauth.Tokens

def Announcement.key (a : Announcement) : FamilyKey := ⟨a.rev.tenant, a.rev.family⟩

namespace Ledger

/-- The feed names the family past the cursor and keeps it at least until `expires`. -/
def Announced (l : Ledger) (fk : FamilyKey) (cursor : Nat) (expires : Time) : Prop :=
  ∃ a ∈ l.feed, cursor < a.seq ∧ a.key = fk ∧ expires ≤ a.expires

/-- Whatever revokes the family will announce it until `expires`, or already has. -/
def Covered (l : Ledger) (fk : FamilyKey) (cursor : Nat) (expires : Time) : Prop :=
  (∃ h r, l.Holds fk h r ∧ r.revoked = false ∧ expires ≤ r.row.familyExpiresAt) ∨
    l.Announced fk cursor expires

def Ended (l : Ledger) (fk : FamilyKey) : Prop := ∀ h r, l.Holds fk h r → r.revoked = true

def Bounded (l : Ledger) : Prop := ∀ a ∈ l.feed, a.seq ≤ l.seq

variable {l m : Ledger} {event : Event} {fk : FamilyKey}

theorem Step.seq_le (step : Step l event m) : l.seq ≤ m.seq := by
  cases step with
  | revoke => exact Nat.le_succ _
  | issue | rotate | forget | expire => exact le_rfl

theorem Bounded.step (bounded : l.Bounded) (step : Step l event m) : m.Bounded := by
  cases step with
  | issue | rotate | forget => exact bounded
  | revoke =>
    intro a member
    rcases List.mem_append.mp member with old | new
    · exact Nat.le_succ_of_le (bounded a old)
    · rw [List.mem_singleton.mp new]
  | expire => exact fun a member => bounded a (List.mem_of_mem_filter member)

variable {expires : Time}

theorem Announced.step {cursor : Nat} (announced : l.Announced fk cursor expires) (step : Step l event m)
    (lasting : ∀ now, event ≠ .expired now) : m.Announced fk cursor expires := by
  obtain ⟨a, member, facts⟩ := announced
  cases step with
  | issue | rotate | forget => exact ⟨a, member, facts⟩
  | revoke => exact ⟨a, List.mem_append_left _ member, facts⟩
  | expire now => exact absurd rfl (lasting now)

/-- The reaper drops an announcement only once it is over. -/
theorem Announced.expire {cursor : Nat} {now : Time}
    (announced : l.Announced fk cursor expires) (step : Step l (.expired now) m) (later : now < expires) :
    m.Announced fk cursor expires := by
  obtain ⟨a, member, after, key, kept⟩ := announced
  cases step with
  | expire =>
    exact ⟨a, List.mem_filter.mpr ⟨member, decide_eq_true (lt_of_lt_of_le later kept)⟩, after, key, kept⟩

theorem Covered.step {cursor : Nat} (covered : l.Covered fk cursor expires)
    (behind : cursor ≤ l.seq) (step : Step l event m) (lasting : ∀ now, event ≠ .expired now) :
    m.Covered fk cursor expires := by
  rcases covered with ⟨h, r, ⟨stored, own⟩, unrevoked, within⟩ | announced
  · cases step with
    | issue fresh =>
      exact .inl ⟨h, r, ⟨set_tokens.mpr (.inr ⟨ne_of_fresh stored fresh, stored⟩), own⟩, unrevoked, within⟩
    | @rotate h' by' r' next now presented _ _ fresh =>
      have other := ne_of_fresh stored fresh
      by_cases same : h = h'
      · -- The presented token stays in the family, with its own expiry.
        subst same
        rw [presented] at stored
        cases stored
        exact .inl ⟨h, r.consume now by', ⟨set_tokens.mpr (.inr ⟨other, set_tokens.mpr (.inl ⟨rfl, rfl⟩)⟩), own⟩,
          unrevoked, within⟩
      · exact .inl ⟨h, r, ⟨set_tokens.mpr (.inr ⟨other, set_tokens.mpr (.inr ⟨same, stored⟩)⟩), own⟩,
          unrevoked, within⟩
    | revoke fk' now unrevoked' covers =>
      by_cases same : r.key = fk'
      · -- The announcement covers the latest expiry of the family, this token's included.
        refine .inr ⟨_, List.mem_append_right _ (List.mem_singleton_self _), Nat.lt_succ_of_le behind, ?_,
          within.trans (covers h r ⟨stored, same⟩)⟩
        rw [Announcement.key, ← own, same]
      · refine .inl ⟨h, r, ⟨?_, own⟩, unrevoked, within⟩
        simp [stored, Refresh.revokeIn_of_ne same]
    | forget fk' revoked =>
      refine .inl ⟨h, r, ⟨?_, own⟩, unrevoked, within⟩
      -- Only a family without unrevoked tokens is forgotten.
      have other : r.key ≠ fk' := by
        intro same
        rw [revoked h r ⟨stored, same⟩] at unrevoked
        cases unrevoked
      simp [stored, Option.filter_some, other]
    | expire now => exact absurd rfl (lasting now)
  · exact .inr (announced.step step lasting)

/-- What holds of every token of a family holds after an event that does not start it, if
it survives revoking and consuming and passes on to the next token. -/
theorem Step.family {P : Refresh → Prop} (step : Step l event m) (fresh : event ≠ .issued fk)
    (revoked : ∀ r, P r → P (r.revokeIn fk)) (consumed : ∀ r now by', P r → P (r.consume now by'))
    (rotated : ∀ r (next : RefreshRow), P r → r.revoked = false → r.row.subject = next.subject →
      r.row.lineage = next.lineage → P { row := next })
    (each : ∀ h r, l.Holds fk h r → P r) : ∀ h r, m.Holds fk h r → P r := by
  rintro h r ⟨found, own⟩
  cases step with
  | issue =>
    rcases set_tokens.mp found with ⟨rfl, rfl⟩ | ⟨-, stored⟩
    · exact absurd (congrArg Event.issued own) fresh
    · exact each h r ⟨stored, own⟩
  | rotate now presented _ unrevoked _ _ subject lineage family =>
    rcases set_tokens.mp found with ⟨rfl, rfl⟩ | ⟨-, found⟩
    · have same := (key_eq_of_continues subject family).trans own
      exact rotated _ _ (each _ _ ⟨presented, same⟩) unrevoked subject lineage
    · rcases set_tokens.mp found with ⟨rfl, rfl⟩ | ⟨-, stored⟩
      · exact consumed _ _ _ (each _ _ ⟨presented, own⟩)
      · exact each h r ⟨stored, own⟩
  | revoke fk' =>
    obtain ⟨r, stored, rfl⟩ := Option.map_eq_some_iff.mp found
    rw [Refresh.key_revokeIn] at own
    by_cases same : r.key = fk'
    · obtain rfl : fk' = fk := same.symm.trans own
      exact revoked r (each h r ⟨stored, own⟩)
    · rw [Refresh.revokeIn_of_ne same]
      exact each h r ⟨stored, own⟩
  | forget => exact each h r ⟨(Option.filter_eq_some_iff.mp found).1, own⟩
  | expire => exact each h r ⟨(Option.filter_eq_some_iff.mp found).1, own⟩

theorem Step.empty (step : Step l event m) (fresh : event ≠ .issued fk)
    (empty : ∀ h r, ¬ l.Holds fk h r) : ∀ h r, ¬ m.Holds fk h r :=
  step.family fresh (fun _ => id) (fun _ _ _ => id) (fun _ _ impossible => impossible.elim) empty

/-- A revoked family gets no unrevoked token unless it is started again. -/
theorem Ended.step (ended : l.Ended fk) (step : Step l event m) (fresh : event ≠ .issued fk) : m.Ended fk := by
  refine step.family fresh (fun r revoked => by simp [revoked]) (fun _ _ _ revoked => revoked) ?_ ended
  intro r next revoked unrevoked
  rw [unrevoked] at revoked
  cases revoked

end Ledger

namespace Store

def Ends (fk : FamilyKey) (s : Store) (call : Call) : Prop :=
  (∃ h r, (s.apply call).ledger.Holds fk h r ∧ r.revoked = true) ∨
    (call.op ≠ .reapExpired ∧ (s.families.lookup fk).isSome ∧ (s.apply call).families.lookup fk = none)

theorem mem_revocationsSince {s : Store} {cursor : Nat} {a : Announcement} (member : a ∈ s.feed)
    (after : cursor < a.seq) : a.rev ∈ (s.revocationsSince cursor).1 := by
  refine List.mem_map.mpr ⟨a, ?_, rfl⟩
  have split := List.takeWhile_append_dropWhile (p := fun r : Announcement => decide (r.seq < cursor + 1))
    (l := s.feed)
  rw [← split] at member
  refine (List.mem_append.mp member).resolve_left fun early => ?_
  have before := List.mem_takeWhile_imp early
  simp only [decide_eq_true_eq] at before
  omega

theorem revocationsSince_le {s : Store} (bounded : s.ledger.Bounded) {cursor : Nat}
    (advanced : (s.revocationsSince cursor).2 > cursor) : (s.revocationsSince cursor).2 ≤ s.seq := by
  unfold revocationsSince at advanced ⊢
  dsimp only at advanced ⊢
  cases last : (s.feed.dropWhile fun r => decide (r.seq < cursor + 1)).getLast? with
  | none =>
    rw [last] at advanced
    exact absurd advanced (lt_irrefl _)
  | some a =>
    have member := (List.dropWhile_sublist _).subset (List.mem_of_getLast? last)
    exact bounded a member

variable {s : Store} {fk : FamilyKey} {cursor : Nat} {expires : Time}

theorem Indexed.apply_bounded (indexed : s.Indexed) (bounded : s.ledger.Bounded) (call : Call) :
    (s.apply call).ledger.Bounded :=
  indexed.apply_invariant call Ledger.Bounded (fun ok _ step => ok.step step) bounded

theorem Indexed.apply_seq_le (indexed : s.Indexed) (call : Call) : s.seq ≤ (s.apply call).seq :=
  indexed.apply_invariant call (fun l => s.seq ≤ l.seq) (fun ok _ step => ok.trans step.seq_le) le_rfl

variable {call : Call}

theorem lasting_of_allows (other : call.op ≠ .reapExpired) {event : Event}
    (permitted : call.Allows event) (now : Time) : event ≠ .expired now := by
  rintro rfl
  exact other permitted.1

theorem Indexed.apply_covered (indexed : s.Indexed) (other : call.op ≠ .reapExpired)
    (behind : cursor ≤ s.seq) (covered : s.ledger.Covered fk cursor expires) :
    (s.apply call).ledger.Covered fk cursor expires := by
  refine (indexed.apply_invariant call (fun l => l.Covered fk cursor expires ∧ cursor ≤ l.seq) ?_
    ⟨covered, behind⟩).1
  intro l event m ok permitted step
  exact ⟨ok.1.step ok.2 step (lasting_of_allows other permitted), ok.2.trans step.seq_le⟩

/-- An announcement is dropped by a reaping at or past its end only. -/
theorem Indexed.apply_announced (indexed : s.Indexed)
    (later : call.op = .reapExpired → call.clk.truncate < expires)
    (announced : s.ledger.Announced fk cursor expires) :
    (s.apply call).ledger.Announced fk cursor expires := by
  refine indexed.apply_invariant call (fun l => l.Announced fk cursor expires) ?_ announced
  intro l event m ok permitted step
  cases event with
  | expired now =>
    obtain ⟨reap, rfl⟩ := permitted
    exact ok.expire step (later reap)
  | issued | rotated | revoked | forgotten => exact ok.step step nofun

theorem Indexed.apply_ended (indexed : s.Indexed) (fresh : call.op.starts ≠ some fk)
    (ended : s.ledger.Ended fk) : (s.apply call).ledger.Ended fk := by
  refine indexed.apply_invariant call (fun l => l.Ended fk) ?_ ended
  rintro l event m ok permitted step
  refine ok.step step ?_
  rintro rfl
  exact fresh permitted

theorem Indexed.reap_sub (indexed : s.Indexed) {clk : Time} {h : Bytes} {r : Refresh}
    (left : (s.apply ⟨clk, .reapExpired⟩).ledger.tokens h = some r) : s.ledger.tokens h = some r := by
  refine indexed.apply_invariant ⟨clk, .reapExpired⟩
    (fun l => ∀ h r, l.tokens h = some r → s.ledger.tokens h = some r) ?_ (fun _ _ => id) h r left
  intro l event m ok permitted step h r found
  cases step with
  | expire => exact ok h r (Option.filter_eq_some_iff.mp found).1
  | issue => cases permitted
  | rotate => exact nomatch permitted.1.choose_spec
  | revoke => exact absurd rfl permitted
  | forget => cases permitted

theorem state_revoked (first : Refresh) (rows : List Refresh) :
    (state first rows).revoked = rows.any Refresh.revoked := by
  have fold : ∀ (st : FamilyState), (rows.foldl (fun st r => { st with
      revoked := st.revoked || r.revoked
      expiresAt := maxTime st.expiresAt r.row.familyExpiresAt }) st).revoked =
        (st.revoked || rows.any Refresh.revoked) := by
    induction rows with
    | nil => simp
    | cons r rows ih => simp [ih, Bool.or_assoc]
  simp [state, fold]

theorem familyState_unrevoked (indexed : s.Indexed) {st : FamilyState}
    (found : s.familyState fk.tenant fk.family = .ok st) (unrevoked : st.revoked = false) :
    ∃ h r, s.ledger.Holds fk h r ∧ r.revoked = false := by
  unfold familyState at found
  split at found
  · cases found
  next first rest rows =>
    cases found
    have member : first ∈ s.familyRows fk := rows ▸ List.mem_cons_self
    obtain ⟨h, listed, stored⟩ := List.mem_filterMap.mp member
    obtain ⟨r, stored', own⟩ := indexed.listed.mp listed
    rw [stored'] at stored
    cases stored
    refine ⟨h, first, ⟨stored', own⟩, ?_⟩
    rw [state_revoked, List.any_cons] at unrevoked
    exact (Bool.or_eq_false_iff.mp unrevoked).1

end Store
end Egauth.Tokens
