import Mathlib.Data.Nat.Digits.Lemmas

/-! Decimal texts of integers.

`format` and `parse` are `strconv.FormatInt` and `strconv.ParseInt` in base ten.
Integers are unbounded in place of 64-bit ones. -/

set_option autoImplicit false

namespace Egauth.Decimal

def digits (n : Nat) : List UInt8 :=
  if n = 0 then [48] else ((Nat.digits 10 n).reverse).map fun d => (48 + d).toUInt8

def format (n : Int) : List UInt8 := if n < 0 then 45 :: digits n.natAbs else digits n.natAbs

def isDigit (b : UInt8) : Bool := decide (48 ≤ b.toNat ∧ b.toNat ≤ 57)

def value (bs : List UInt8) : Nat := bs.foldl (fun n b => 10 * n + (b.toNat - 48)) 0

/-- None for an empty text or one with another byte in it. -/
def unsigned (bs : List UInt8) : Option Nat := if bs ≠ [] ∧ bs.all isDigit then some (value bs) else none

def parse : List UInt8 → Option Int
  | 43 :: rest => (unsigned rest).map Int.ofNat
  | 45 :: rest => (unsigned rest).map fun n => -Int.ofNat n
  | bs => (unsigned bs).map Int.ofNat

theorem toNat_digit {d : Nat} (small : d < 10) : (48 + d).toUInt8.toNat = 48 + d := by
  simp [Nat.mod_eq_of_lt (show 48 + d < 256 by omega)]

theorem isDigit_of_mem {n : Nat} {b : UInt8} (mem : b ∈ digits n) : isDigit b = true := by
  unfold digits at mem
  split at mem
  · rw [List.mem_singleton.mp mem]
    rfl
  · obtain ⟨d, found, rfl⟩ := List.mem_map.mp mem
    have small : d < 10 := Nat.digits_lt_base (by decide) (List.mem_reverse.mp found)
    unfold isDigit
    rw [toNat_digit small, decide_eq_true_eq]
    omega

theorem digits_ne_nil (n : Nat) : digits n ≠ [] := by
  unfold digits
  split
  · simp
  next nonzero => simpa [Nat.digits_eq_nil_iff_eq_zero] using nonzero

theorem value_digits (n : Nat) : value (digits n) = n := by
  unfold digits value
  split
  next zero => simp [zero]
  · rw [List.foldl_map, List.foldl_reverse]
    -- The digits, lowest first, fold to the number they are of.
    have folds : ∀ ds : List Nat, (∀ d ∈ ds, d < 10) →
        ds.foldr (fun d n => 10 * n + ((48 + d).toUInt8.toNat - 48)) 0 = Nat.ofDigits 10 ds := by
      intro ds small
      induction ds with
      | nil => rfl
      | cons d ds ih =>
        have rest := ih fun d' mem => small d' (List.mem_cons_of_mem d mem)
        rw [List.foldr_cons, rest, toNat_digit (small d List.mem_cons_self), Nat.ofDigits_cons]
        omega
    rw [folds _ fun d mem => Nat.digits_lt_base (by decide) mem, Nat.ofDigits_digits]

theorem unsigned_digits (n : Nat) : unsigned (digits n) = some n := by
  unfold unsigned
  rw [if_pos ⟨digits_ne_nil n, List.all_eq_true.mpr fun b mem => isDigit_of_mem mem⟩, value_digits]

theorem parse_format (n : Int) : parse (format n) = some n := by
  unfold format
  split
  next negative =>
    change (unsigned (digits n.natAbs)).map (fun m => -Int.ofNat m) = some n
    have same : Int.ofNat n.natAbs = -n := Int.ofNat_natAbs_of_nonpos negative.le
    rw [unsigned_digits, Option.map_some, same, Int.neg_neg]
  next nonneg =>
    have plain : parse (digits n.natAbs) = (unsigned (digits n.natAbs)).map Int.ofNat := by
      -- No digit is a sign.
      unfold parse
      split
      next rest eq =>
        have sign := isDigit_of_mem (n := n.natAbs) (eq ▸ List.mem_cons_self : (43 : UInt8) ∈ digits n.natAbs)
        exact absurd sign (by decide)
      next rest eq =>
        have sign := isDigit_of_mem (n := n.natAbs) (eq ▸ List.mem_cons_self : (45 : UInt8) ∈ digits n.natAbs)
        exact absurd sign (by decide)
      next => rfl
    have same : Int.ofNat n.natAbs = n := Int.natAbs_of_nonneg (not_lt.mp nonneg)
    rw [plain, unsigned_digits, Option.map_some, same]

end Egauth.Decimal
