import Egauth.Tokens.Feed

/-! The owner of a family, and the calls that revoke families by owner.

Every token of a family has the subject and the lineage of its first. A call that
names a family, its subject or its tenant leaves no unrevoked token of it, however
many families it ranges over.
-/

set_option autoImplicit false

namespace Egauth.Tokens
open Egauth.Core

structure Owner where
  subject : Subject
  lineage : UUID
  deriving DecidableEq

def Refresh.owner (r : Refresh) : Owner := ⟨r.row.subject, r.row.lineage⟩

def Op.Targets : Op → FamilyKey → Owner → Prop
  | .revokeFamily t family, fk, _ => fk = ⟨t, family⟩
  | .revokeForSubject sub exceptLineage, _, o =>
    o.subject = sub ∧ (exceptLineage = .nil ∨ o.lineage ≠ exceptLineage)
  | .deleteForSubject sub, _, o => o.subject = sub
  | .eraseTenant t _, fk, _ => fk.tenant = t
  | _, _, _ => False

def Ledger.OwnedBy (l : Ledger) (fk : FamilyKey) (o : Owner) : Prop := ∀ h r, l.Holds fk h r → r.owner = o

theorem Ledger.OwnedBy.step {l m : Ledger} {event : Event} {fk : FamilyKey} {o : Owner} (owned : l.OwnedBy fk o)
    (step : Step l event m) (fresh : event ≠ .issued fk) : m.OwnedBy fk o := by
  refine step.family fresh (fun r own => ?_) (fun _ _ _ own => own) ?_ owned
  · rw [← own, Refresh.owner, Refresh.row_revokeIn, Refresh.owner]
  · rintro r next rfl - subject lineage
    rw [Refresh.owner, Refresh.owner, subject, lineage]

namespace Store
variable {s : Store} {fk : FamilyKey} {o : Owner}

theorem Indexed.apply_owned (indexed : s.Indexed) {call : Call} (fresh : call.op.starts ≠ some fk)
    (owned : s.ledger.OwnedBy fk o) : (s.apply call).ledger.OwnedBy fk o := by
  refine indexed.apply_invariant call (fun l => l.OwnedBy fk o) ?_ owned
  rintro l event m ok permitted step
  refine ok.step step ?_
  rintro rfl
  exact fresh permitted

def owner (s : Store) (fk : FamilyKey) : Option Owner := (s.familyRows fk).head?.map Refresh.owner

theorem mem_familyRows (indexed : s.Indexed) {r : Refresh} : r ∈ s.familyRows fk ↔ ∃ h, s.ledger.Holds fk h r := by
  simp only [familyRows, List.mem_filterMap, indexed.listed, Ledger.Holds, ledger]
  constructor
  · rintro ⟨h, ⟨r', stored', own⟩, stored⟩
    rw [stored] at stored'
    cases stored'
    exact ⟨h, stored, own⟩
  · rintro ⟨h, stored, own⟩
    exact ⟨h, ⟨r, stored, own⟩, stored⟩

theorem owner_eq_none (indexed : s.Indexed) : s.owner fk = none ↔ ∀ h r, ¬ s.ledger.Holds fk h r := by
  rw [owner, Option.map_eq_none_iff, List.head?_eq_none_iff, List.eq_nil_iff_forall_not_mem]
  simp only [mem_familyRows indexed, not_exists]
  exact forall_comm

theorem Sound.owned (sound : s.Sound) (owner : s.owner fk = some o) : s.ledger.OwnedBy fk o := by
  obtain ⟨first, head, rfl⟩ := Option.map_eq_some_iff.mp owner
  obtain ⟨h₀, stored₀, own₀⟩ := (mem_familyRows sound.indexed).mp (List.mem_of_mem_head? head)
  rintro h r ⟨stored, own⟩
  have agree := sound.coherent.agree stored stored₀ (own.trans own₀.symm)
  rw [Refresh.owner, agree.subject, agree.lineage, Refresh.owner]

/-- No event starts a family. -/
def Barren (event : Event) : Prop := ∀ fk, event ≠ .issued fk

theorem Refines.ended {t : Store} (refines : s.Refines Barren t) (indexed : s.Indexed)
    (ended : s.ledger.Ended fk) : t.ledger.Ended fk := by
  obtain ⟨-, events, run, barren⟩ := refines indexed
  refine (run.restrict fun _ event => barren event).invariant (Ledger.Ended · fk) ?_ ended
  exact fun ok ⟨barren, step⟩ => ok.step step (barren fk)

theorem ended_revoke (indexed : s.Indexed) (now : Time) : (s.revoke fk now).ledger.Ended fk :=
  fun _ _ held => revoked_of_holds_revoke indexed held

theorem ended_revoke_dropFamily (indexed : s.Indexed) (now : Time) :
    ((s.revoke fk now).dropFamily fk).ledger.Ended fk := by
  have ended : (s.revoke fk now).ledger.Ended fk := ended_revoke indexed now
  exact ended.step (dropFamily_step (indexed.revoke fk now) ended) nofun

theorem ended_foldl {A : Type} (body : Store → A → Store) {items : List A} {a : A} (member : a ∈ items)
    (each : ∀ (s : Store) a, s.Refines Barren (body s a))
    (ends : ∀ s : Store, s.Indexed → (body s a).ledger.Ended fk) (indexed : s.Indexed) :
    (items.foldl body s).Indexed ∧ (items.foldl body s).ledger.Ended fk := by
  refine ⟨(Refines.foldl each items s indexed).1, ?_⟩
  induction items generalizing s with
  | nil => cases member
  | cons first items ih =>
    have kept := (each s first indexed).1
    rcases List.mem_cons.mp member with rfl | member
    · -- No later item starts the family again.
      exact (Refines.foldl each items _).ended kept (ends s indexed)
    · exact ih member kept

theorem mem_subjectFamilies (indexed : s.Indexed) (owned : s.ledger.OwnedBy fk o)
    (present : ∃ h r, s.ledger.Holds fk h r) (keep : RefreshRow → Bool)
    (left : ∀ r : Refresh, r.owner = o → keep r.row = false) : fk ∈ s.subjectFamilies o.subject keep := by
  rw [subjectFamilies, List.mem_insertionSort, List.mem_filterMap]
  cases found : s.families.lookup fk with
  | none =>
    obtain ⟨h, r, held⟩ := present
    exact absurd held (indexed.absent_iff.mp found h r)
  | some hashes =>
    cases hashes with
    | nil => exact absurd found (indexed.occupied fk)
    | cons h rest =>
      have listed : h ∈ s.hashesOf fk := by simp [hashesOf, found]
      obtain ⟨r, stored, own⟩ := indexed.listed.mp listed
      have owner := owned h r ⟨stored, own⟩
      have subject : r.row.subject = o.subject := congrArg Owner.subject owner
      have tenant : fk.tenant = o.subject.tenant := by
        rw [← own, ← subject]
        rfl
      refine ⟨⟨fk, h :: rest⟩, Map.mem_entries.mpr found, ?_⟩
      simp [tenant, stored, subject, left r owner]

theorem ended_revokeForSubject (indexed : s.Indexed) (owned : s.ledger.OwnedBy fk o)
    (present : ∃ h r, s.ledger.Holds fk h r) (clk : Time) {exceptLineage : UUID}
    (lineage : exceptLineage = .nil ∨ o.lineage ≠ exceptLineage) :
    (s.revokeForSubject clk o.subject exceptLineage).ledger.Ended fk := by
  have listed := mem_subjectFamilies indexed owned present
    (fun r => exceptLineage != .nil && r.lineage == exceptLineage) (by
      rintro r rfl
      rcases lineage with rfl | other
      · rfl
      · simp [show r.row.lineage ≠ exceptLineage from other])
  exact (ended_foldl (fun s fk => s.revoke fk clk.truncate) listed (fun s fk => revoke_refines nofun s _)
    (fun s indexed => ended_revoke indexed _) indexed).2

theorem ended_deleteForSubject (indexed : s.Indexed) (owned : s.ledger.OwnedBy fk o)
    (present : ∃ h r, s.ledger.Holds fk h r) (clk : Time) :
    (s.deleteForSubject clk o.subject).ledger.Ended fk := by
  have listed := mem_subjectFamilies indexed owned present (fun _ => false) fun _ _ => rfl
  obtain ⟨indexed, ended⟩ := ended_foldl (fun s fk => (s.revoke fk clk.truncate).dropFamily fk) listed
    (fun s fk => revoke_dropFamily_refines nofun nofun s _)
    (fun s indexed => ended_revoke_dropFamily indexed _) indexed
  exact (dropKeys_refines (fun _ k => k.owner = o.subject) _ _).ended indexed ended

theorem ended_eraseTenant (indexed : s.Indexed) (present : ∃ h r, s.ledger.Holds fk h r) (clk : Time)
    {order : List FamilyKey} (complete : order.Perm s.families.keys) :
    (s.eraseTenant clk fk.tenant order).ledger.Ended fk := by
  have listed : fk ∈ order := by
    -- The range visits every indexed family, in whatever order.
    refine complete.mem_iff.mpr (AList.mem_keys.mpr (AList.lookup_isSome.mp ?_))
    obtain ⟨h, r, held⟩ := present
    refine Option.isSome_iff_ne_none.mpr fun absent => ?_
    exact indexed.absent_iff.mp absent h r held
  obtain ⟨indexed, ended⟩ := ended_foldl _ listed
    (eraseFamily_refines (fun _ => nofun) (fun _ => nofun) fk.tenant clk.truncate)
    (fun s indexed => by simpa using ended_revoke_dropFamily indexed _) indexed
  exact (dropKeys_refines (fun ref _ => ref.tenant = fk.tenant) _ _).ended indexed ended

/-- A call ends every family it names, its owner's and its tenant's. -/
theorem Indexed.apply_targets (indexed : s.Indexed) (owned : s.ledger.OwnedBy fk o) {call : Call}
    (admissible : call.Admissible s) (targets : call.op.Targets fk o) : (s.apply call).ledger.Ended fk := by
  obtain ⟨clk, op⟩ := call
  by_cases present : ∃ h r, s.ledger.Holds fk h r
  · cases op with
    | revokeFamily t family =>
      obtain rfl : fk = ⟨t, family⟩ := targets
      exact ended_revoke indexed _
    | revokeForSubject sub exceptLineage =>
      obtain ⟨rfl, lineage⟩ := targets
      exact ended_revokeForSubject indexed owned present clk lineage
    | deleteForSubject sub =>
      obtain rfl : o.subject = sub := targets
      exact ended_deleteForSubject indexed owned present clk
    | eraseTenant t order =>
      obtain rfl : fk.tenant = t := targets
      exact ended_eraseTenant indexed present clk admissible
    | create | consumeForRotation | reissue | reapExpired | createAPIKey | revokeAPIKey => cases targets
  · -- Nothing is left of the family, and a call with targets starts none.
    have fresh : op.starts ≠ some fk := by
      cases op with
      | create | reissue => cases targets
      | _ => exact nofun
    exact indexed.apply_ended fresh fun h r held => absurd ⟨h, r, held⟩ present

end Store
end Egauth.Tokens
