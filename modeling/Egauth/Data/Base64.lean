import Mathlib.Data.List.Basic
import Mathlib.Tactic.IntervalCases

/-! Unpadded base64 with the URL alphabet, decoded strictly.

Bytes are cut into groups of six bits and each group is written as one digit.
Line breaks are skipped by the decoder wherever they stand; every other byte
outside the alphabet, a lone last digit and non-zero bits after the last byte
are refused.
-/

set_option autoImplicit false

namespace Egauth.Base64

def digit (n : Nat) : UInt8 :=
  if n < 26 then (65 + n).toUInt8
  else if n < 52 then (71 + n).toUInt8
  else if n < 62 then (n - 4).toUInt8
  else if n = 62 then 45
  else 95

def value (c : UInt8) : Option Nat :=
  if 65 ≤ c ∧ c ≤ 90 then some (c.toNat - 65)
  else if 97 ≤ c ∧ c ≤ 122 then some (c.toNat - 71)
  else if 48 ≤ c ∧ c ≤ 57 then some (c.toNat + 4)
  else if c = 45 then some 62
  else if c = 95 then some 63
  else none

def sextets : List UInt8 → List Nat
  | [] => []
  | [a] => [a.toNat / 4, a.toNat % 4 * 16]
  | [a, b] => [a.toNat / 4, a.toNat % 4 * 16 + b.toNat / 16, b.toNat % 16 * 4]
  | a :: b :: c :: rest =>
    a.toNat / 4 :: (a.toNat % 4 * 16 + b.toNat / 16) :: (b.toNat % 16 * 4 + c.toNat / 64) :: c.toNat % 64 :: sextets rest

def bytesOf : List Nat → Option (List UInt8)
  | [] => some []
  | [_] => none
  | [x, y] => if y % 16 = 0 then some [(x * 4 + y / 16).toUInt8] else none
  | [x, y, z] => if z % 4 = 0 then some [(x * 4 + y / 16).toUInt8, (y % 16 * 16 + z / 4).toUInt8] else none
  | x :: y :: z :: w :: rest => (bytesOf rest).map fun b =>
    (x * 4 + y / 16).toUInt8 :: (y % 16 * 16 + z / 4).toUInt8 :: (z % 4 * 64 + w).toUInt8 :: b

def encode (b : List UInt8) : List UInt8 := (sextets b).map digit

def decode (text : List UInt8) : Option (List UInt8) :=
  ((text.filter fun c => c != 10 && c != 13).mapM value).bind bytesOf

theorem sextets_lt {b : List UInt8} {n : Nat} (member : n ∈ sextets b) : n < 64 := by
  induction b using sextets.induct with
  | case1 => cases member
  | case2 a =>
    have small := a.toNat_lt
    simp [sextets] at member
    omega
  | case3 a b =>
    have small := a.toNat_lt
    have small' := b.toNat_lt
    simp [sextets] at member
    omega
  | case4 a b c rest ih =>
    have small := a.toNat_lt
    have small' := b.toNat_lt
    simp only [sextets, List.mem_cons] at member
    rcases member with first | second | third | fourth | later
    · omega
    · omega
    · have small'' := c.toNat_lt
      omega
    · omega
    · exact ih later

theorem toUInt8_eq {n : Nat} {a : UInt8} (same : n = a.toNat) : n.toUInt8 = a := by
  rw [same]
  exact UInt8.ofNat_toNat

theorem bytesOf_sextets (b : List UInt8) : bytesOf (sextets b) = some b := by
  induction b using sextets.induct with
  | case1 => rfl
  | case2 a =>
    have first : (a.toNat / 4 * 4 + a.toNat % 4 * 16 / 16).toUInt8 = a := toUInt8_eq (by omega)
    have spare : a.toNat % 4 * 16 % 16 = 0 := by omega
    simp only [sextets, bytesOf, spare, first, ↓reduceIte]
  | case3 a b =>
    have small := b.toNat_lt
    have first : (a.toNat / 4 * 4 + (a.toNat % 4 * 16 + b.toNat / 16) / 16).toUInt8 = a := toUInt8_eq (by omega)
    have second : ((a.toNat % 4 * 16 + b.toNat / 16) % 16 * 16 + b.toNat % 16 * 4 / 4).toUInt8 = b :=
      toUInt8_eq (by omega)
    have spare : b.toNat % 16 * 4 % 4 = 0 := by omega
    simp only [sextets, bytesOf, spare, first, second, ↓reduceIte]
  | case4 a b c rest ih =>
    have small := b.toNat_lt
    have small' := c.toNat_lt
    have first : (a.toNat / 4 * 4 + (a.toNat % 4 * 16 + b.toNat / 16) / 16).toUInt8 = a := toUInt8_eq (by omega)
    have second : ((a.toNat % 4 * 16 + b.toNat / 16) % 16 * 16 + (b.toNat % 16 * 4 + c.toNat / 64) / 4).toUInt8 = b :=
      toUInt8_eq (by omega)
    have third : ((b.toNat % 16 * 4 + c.toNat / 64) % 4 * 64 + c.toNat % 64).toUInt8 = c := toUInt8_eq (by omega)
    simp only [sextets, bytesOf, ih, Option.map_some, first, second, third]

theorem length_sextets (b : List UInt8) : (sextets b).length = (4 * b.length + 2) / 3 := by
  induction b using sextets.induct with
  | case1 => rfl
  | case2 a => simp [sextets]
  | case3 a b => simp [sextets]
  | case4 a b c rest ih =>
    simp only [sextets, List.length_cons, ih]
    omega

@[simp] theorem length_encode (b : List UInt8) : (encode b).length = (4 * b.length + 2) / 3 := by
  rw [encode, List.length_map, length_sextets]

theorem value_digit {n : Nat} (small : n < 64) : value (digit n) = some n := by
  interval_cases n <;> rfl

theorem digit_plain {n : Nat} (small : n < 64) :
    (digit n != 10 && digit n != 13) = true ∧ digit n ≠ 46 ∧ digit n < 128 := by
  interval_cases n <;> decide

theorem mem_encode {b : List UInt8} {c : UInt8} (member : c ∈ encode b) :
    (c != 10 && c != 13) = true ∧ c ≠ 46 ∧ c < 128 := by
  obtain ⟨n, digit, rfl⟩ := List.mem_map.mp member
  exact digit_plain (sextets_lt digit)

theorem mapM_value {ns : List Nat} (small : ∀ n ∈ ns, n < 64) : (ns.map digit).mapM value = some ns := by
  induction ns with
  | nil => rfl
  | cons n ns ih =>
    have rest := ih fun m member => small m (List.mem_cons_of_mem _ member)
    simp [List.mapM_cons, value_digit (small n List.mem_cons_self), rest]

@[simp] theorem decode_encode (b : List UInt8) : decode (encode b) = some b := by
  have plain : (encode b).filter (fun c => c != 10 && c != 13) = encode b :=
    List.filter_eq_self.mpr fun c member => (mem_encode member).1
  rw [decode, plain, encode, mapM_value fun n member => sextets_lt member]
  exact bytesOf_sextets b

example : encode [77, 97, 110] = [84, 87, 70, 117] := by decide

end Egauth.Base64
