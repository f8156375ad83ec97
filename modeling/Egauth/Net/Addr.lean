import Egauth.Core.Principal

/-! Addresses and prefixes of `net/netip`.

An address is a word of 32 or 128 bits, an IPv6 one with a zone. A prefix has no
zone, and its length is that of its address at most; the prefixes that are not
valid are one case.
-/

set_option autoImplicit false

namespace Egauth.Net

inductive Addr where
  | invalid
  | v4 (bits : BitVec 32)
  | v6 (bits : BitVec 128) (zone : Bytes)
  deriving DecidableEq, Repr

inductive Prefix where
  | invalid
  | v4 (base : BitVec 32) (len : Fin 33)
  | v6 (base : BitVec 128) (len : Fin 129)
  deriving DecidableEq, Repr

def ipv4 (a b c d : BitVec 8) : BitVec 32 := a ++ b ++ c ++ d

def ipv6 (a b c d e f g h : BitVec 16) : BitVec 128 := a ++ b ++ c ++ d ++ e ++ f ++ g ++ h

section
variable {w : Nat} {x y z : BitVec w} {n m : Nat}

def Agree (n : Nat) (x y : BitVec w) : Prop := (x ^^^ y) >>> (w - n) = 0

instance : Decidable (Agree n x y) := inferInstanceAs (Decidable (_ = _))

theorem agree_iff : Agree n x y ↔ x >>> (w - n) = y >>> (w - n) := by
  rw [Agree, BitVec.ushiftRight_xor_distrib]
  exact BitVec.xor_eq_zero_iff

theorem Agree.symm (same : Agree n x y) : Agree n y x := agree_iff.mpr (agree_iff.mp same).symm

theorem Agree.trans (first : Agree n x y) (second : Agree n y z) : Agree n x z :=
  agree_iff.mpr ((agree_iff.mp first).trans (agree_iff.mp second))

theorem Agree.mono (same : Agree n x y) (fewer : m ≤ n) : Agree m x y := by
  have split : w - m = (w - n) + (w - m - (w - n)) := by omega
  rw [agree_iff] at same ⊢
  rw [split, BitVec.shiftRight_add, BitVec.shiftRight_add, same]

def mask (n : Nat) (x : BitVec w) : BitVec w := (x >>> (w - n)) <<< (w - n)

theorem agree_mask (n : Nat) (x : BitVec w) : Agree n (mask n x) x := by
  rw [agree_iff, mask]
  ext i bound
  simp only [BitVec.getElem_ushiftRight, BitVec.getLsbD_shiftLeft, BitVec.getLsbD_ushiftRight]
  by_cases inside : w - n + i < w
  · simp [inside]
  · simp [inside, BitVec.getLsbD_of_ge x _ (Nat.le_of_not_lt inside)]

end

namespace Addr

def isValid : Addr → Bool
  | .invalid => false
  | _ => true

/-- The last four bytes of an IPv4-mapped address follow ten zero bytes and two of all ones. -/
def mapped (bits : BitVec 128) : Bool := bits >>> 32 == 0xffff

def is4 : Addr → Bool
  | .v4 _ => true
  | _ => false

def is6 : Addr → Bool
  | .v6 .. => true
  | _ => false

def as16 : Addr → BitVec 128
  | .invalid => 0
  | .v4 bits => (0xffff : BitVec 96) ++ bits
  | .v6 bits _ => bits

def is4In6 : Addr → Bool
  | .v6 bits _ => mapped bits
  | _ => false

def unmap : Addr → Addr
  | .v6 bits zone => if mapped bits then .v4 (bits.truncate 32) else .v6 bits zone
  | a => a

def withoutZone : Addr → Addr
  | .v6 bits _ => .v6 bits []
  | a => a

def isUnspecified (a : Addr) : Bool := a == .v4 0 || a == .v6 0 []

end Addr

namespace Prefix

def isValid : Prefix → Bool
  | .invalid => false
  | _ => true

def addr : Prefix → Addr
  | .invalid => .invalid
  | .v4 base _ => .v4 base
  | .v6 base _ => .v6 base []

def bits : Prefix → Int
  | .invalid => -1
  | .v4 _ len => len.val
  | .v6 _ len => len.val

def masked : Prefix → Prefix
  | .v4 base len => .v4 (mask len base) len
  | .v6 base len => .v6 (mask len base) len
  | .invalid => .invalid

/-- An address with a zone is in no prefix, and one of the other family is not either. -/
def Contains : Prefix → Addr → Prop
  | .v4 base len, .v4 bits => Agree len bits base
  | .v6 base len, .v6 bits zone => zone = [] ∧ Agree len bits base
  | _, _ => False

instance (p : Prefix) (a : Addr) : Decidable (p.Contains a) :=
  match p, a with
  | .v4 base len, .v4 bits => inferInstanceAs (Decidable (Agree len bits base))
  | .v6 base len, .v6 bits zone => inferInstanceAs (Decidable (zone = [] ∧ Agree len bits base))
  | .v4 .., .v6 .. | .v6 .., .v4 .. | .invalid, _ | .v4 .., .invalid | .v6 .., .invalid =>
    inferInstanceAs (Decidable False)

def Overlaps : Prefix → Prefix → Prop
  | .v4 base len, .v4 base' len' => Agree (min len.val len'.val) base base'
  | .v6 base len, .v6 base' len' => Agree (min len.val len'.val) base base'
  | _, _ => False

instance (p q : Prefix) : Decidable (p.Overlaps q) :=
  match p, q with
  | .v4 base len, .v4 base' len' => inferInstanceAs (Decidable (Agree (min len.val len'.val) base base'))
  | .v6 base len, .v6 base' len' => inferInstanceAs (Decidable (Agree (min len.val len'.val) base base'))
  | .v4 .., .v6 .. | .v6 .., .v4 .. | .invalid, _ | .v4 .., .invalid | .v6 .., .invalid =>
    inferInstanceAs (Decidable False)

variable {p q : Prefix} {a : Addr}

theorem contains_masked : p.masked.Contains a ↔ p.Contains a := by
  cases p <;> cases a <;> simp only [masked, Contains]
  · exact ⟨fun h => h.trans (agree_mask ..), fun h => h.trans (agree_mask ..).symm⟩
  · exact and_congr_right fun _ => ⟨fun h => h.trans (agree_mask ..), fun h => h.trans (agree_mask ..).symm⟩

theorem Contains.overlaps (first : p.Contains a) (second : q.Contains a) : p.Overlaps q := by
  cases p with
  | invalid => exact first.elim
  | v4 base len =>
    cases a with
    | v4 bits =>
      cases q with
      | v4 base' len' => exact (first.mono (Nat.min_le_left _ _)).symm.trans (second.mono (Nat.min_le_right _ _))
      | _ => exact second.elim
    | _ => exact first.elim
  | v6 base len =>
    cases a with
    | v6 bits zone =>
      cases q with
      | v6 base' len' => exact (first.2.mono (Nat.min_le_left _ _)).symm.trans (second.2.mono (Nat.min_le_right _ _))
      | _ => exact second.elim
    | _ => exact first.elim

end Prefix
end Egauth.Net
