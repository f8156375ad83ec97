import Egauth.Tokens.Refinement

/-! The rows that are stored are the rows that were passed in. -/

set_option autoImplicit false

namespace Egauth.Tokens.Store
open Egauth.Core

def Rows (P : RefreshRow → Prop) (s : Store) : Prop := ∀ h r, s.tokens.lookup h = some r → P r.row

section
variable {P : RefreshRow → Prop} {s t : Store}

theorem Rows.new : Rows P .new := fun _ _ found => nomatch found

theorem Rows.revoke (rows : s.Rows P) (fk : FamilyKey) (now : Time) : (s.revoke fk now).Rows P := by
  intro h r found
  rw [lookup_revoke] at found
  split at found
  · obtain ⟨old, stored, rfl⟩ := Option.map_eq_some_iff.mp found
    exact rows h old stored
  · exact rows h r found

theorem Rows.insert (rows : s.Rows P) {next : RefreshRecord} (new : P (rowOf next)) (inserted : s.insert next = .ok t) :
    t.Rows P := by
  obtain ⟨-, -, rfl⟩ := insert_ok inserted
  intro h r found
  rw [Map.lookup_insert_eq] at found
  split at found
  · cases found
    exact new
  · exact rows h r found

theorem Rows.create (rows : s.Rows P) {next : RefreshRecord} (new : P (rowOf next)) : (s.create next).1.Rows P := by
  unfold Store.create
  split
  · exact rows
  split
  · exact rows
  split
  · exact rows
  next inserted => exact rows.insert new inserted

theorem Rows.consumeForRotation (rows : s.Rows P) (clk : Time) {req : RotationRequest} (new : P (rowOf req.next)) :
    (s.consumeForRotation clk req).1.Rows P := by
  rcases s.consumeForRotation_cases clk req with
    ⟨err, result, -⟩ | ⟨r, -, -, result⟩ | ⟨r, t, found, -, -, -, -, inserted, result⟩
  · rw [result]
    exact rows
  · rw [result]
    exact rows.revoke _ _
  · rw [result]
    obtain ⟨stored, -⟩ := lookup_eq_some.mp found
    intro h q held
    rw [Map.lookup_insert_eq] at held
    split at held
    · cases held
      exact rows _ r stored
    · exact rows.insert new inserted h q held

theorem Rows.reissue (rows : s.Rows P) (clk : Time) {req : ReissueRequest} (new : P (rowOf req.next)) :
    (s.reissue clk req).1.Rows P := by
  rcases s.reissue_cases clk req with ⟨err, result, -⟩ | ⟨t, -, -, -, -, -, -, -, -, inserted, result⟩
  · rw [result]
    exact rows
  · rw [result]
    exact (rows.insert new inserted).revoke _ _

theorem Rows.get (rows : s.Rows P) {clk : Time} {t : TenantID} {hash : Bytes} {record : RefreshRecord}
    (ok : s.get clk t hash = .ok record) : P record.row := by
  unfold Store.get at ok
  split at ok
  · cases ok
  next r found =>
    split at ok
    · cases ok
    · rw [(restoreRefreshRecord_ok ok).2]
      exact rows hash r (lookup_eq_some.mp found).1

end
end Egauth.Tokens.Store
