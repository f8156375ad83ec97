import Egauth.Core.Principal
import Mathlib.Tactic.IntervalCases

/-! The text of a UUID read back.

`uuid.Parse` takes four forms: the text of `String`, the same after `urn:uuid:`
or within two more bytes, and thirty-two digits without hyphens.
-/

set_option autoImplicit false

namespace Egauth.Core.UUID

def unhex (c : UInt8) : Option UInt8 :=
  if 48 ≤ c ∧ c ≤ 57 then some (c - 48)
  else if 97 ≤ c ∧ c ≤ 102 then some (c - 87)
  else if 65 ≤ c ∧ c ≤ 70 then some (c - 55)
  else none

def unhexAll : Bytes → Option Bytes
  | [] => some []
  | [_] => none
  | x :: y :: rest => do
    let high ← unhex x
    let low ← unhex y
    let bytes ← unhexAll rest
    pure ((high * 16 + low) :: bytes)

def ofDigits (digits : Bytes) : Option UUID :=
  (unhexAll digits).bind fun b => if size : b.length = 16 then some ⟨b, size⟩ else none

def hyphened (s : Bytes) : Option UUID :=
  if s.getD 8 0 ≠ 45 ∨ s.getD 13 0 ≠ 45 ∨ s.getD 18 0 ≠ 45 ∨ s.getD 23 0 ≠ 45 then none
  else ofDigits (s.take 8 ++ (s.drop 9).take 4 ++ (s.drop 14).take 4 ++ (s.drop 19).take 4 ++ (s.drop 24).take 12)

def lower (c : UInt8) : UInt8 := if 65 ≤ c ∧ c ≤ 90 then c + 32 else c

def parse (s : Bytes) : Option UUID :=
  if s.length = 36 then hyphened s
  else if s.length = 45 then
    if (s.take 9).map lower = ascii "urn:uuid:" then hyphened (s.drop 9) else none
  else if s.length = 38 then hyphened (s.drop 1)
  else if s.length = 32 then ofDigits s
  else none

theorem unhex_hexDigit {n : UInt8} (small : n < 16) : unhex (hexDigit n) = some n := by
  have bound : n.toNat < 16 := small
  have value : n = n.toNat.toUInt8 := UInt8.ofNat_toNat.symm
  rw [value]
  generalize n.toNat = j at bound ⊢
  interval_cases j <;> rfl

theorem high_low (b : UInt8) : b / 16 < 16 ∧ b % 16 < 16 ∧ b / 16 * 16 + b % 16 = b := by
  have bound := b.toNat_lt
  refine ⟨?_, ?_, UInt8.toNat_inj.mp ?_⟩
  · rw [UInt8.lt_iff_toNat_lt, UInt8.toNat_div]
    simp
    omega
  · rw [UInt8.lt_iff_toNat_lt, UInt8.toNat_mod]
    simp
    omega
  · simp only [UInt8.toNat_add, UInt8.toNat_mul, UInt8.toNat_div, UInt8.toNat_mod, UInt8.reduceToNat]
    omega

theorem hexDigit_ascii {n : UInt8} (small : n < 16) : 0 < hexDigit n ∧ hexDigit n < 128 := by
  have bound : n.toNat < 16 := small
  have value : n = n.toNat.toUInt8 := UInt8.ofNat_toNat.symm
  rw [value]
  generalize n.toNat = j at bound ⊢
  interval_cases j <;> decide

theorem hex_ascii {b : Bytes} : ∀ c ∈ hex b, 0 < c ∧ c < 128 := by
  intro c member
  obtain ⟨a, -, digit⟩ := List.mem_flatMap.mp member
  obtain ⟨first, second, -⟩ := high_low a
  rcases List.mem_pair.mp digit with rfl | rfl
  · exact hexDigit_ascii first
  · exact hexDigit_ascii second

theorem string_ascii (u : UUID) : ∀ c ∈ u.string, 0 < c ∧ c < 128 := by
  have hyphen : ∀ c ∈ ascii "-", 0 < c ∧ c < 128 := by decide +kernel
  simp only [string, List.mem_append]
  grind [hex_ascii]

theorem unhexAll_hex (b : Bytes) : unhexAll (hex b) = some b := by
  induction b with
  | nil => rfl
  | cons a b ih =>
    obtain ⟨first, second, whole⟩ := high_low a
    have rest : unhexAll (b.flatMap fun b => [hexDigit (b / 16), hexDigit (b % 16)]) = some b := ih
    simp [hex, unhexAll, unhex_hexDigit first, unhex_hexDigit second, whole, rest]

theorem ofDigits_hex (u : UUID) : ofDigits (hex u.bytes) = some u := by
  rw [ofDigits, unhexAll_hex, Option.bind_some, dif_pos u.size]

theorem parse_string (u : UUID) : parse u.string = some u := by
  have read := ofDigits_hex u
  obtain ⟨bytes, size⟩ := u
  match bytes, size with
  | [a, b, c, d, e, f, g, h, i, j, k, l, m, n, o, p], _ =>
    simp [parse, hyphened, string, hex, ascii] at read ⊢
    exact read

end Egauth.Core.UUID
