import Mathlib.Data.List.Basic

/-! UTF-8 read byte by byte: a byte that starts no character is a character of its own.

Text that is written again after such a reading is UTF-8, and is the same bytes
only if they were UTF-8 before.
-/

set_option autoImplicit false

namespace Egauth.Utf8

def replacement : Char := Char.ofNat 0xFFFD

def decodeRune (b : List UInt8) : Char × Nat :=
  (b.toByteArray.utf8DecodeChar? 0).elim (replacement, 1) fun c => (c, c.utf8Size)

def runes : Nat → List UInt8 → List Char
  | 0, _ => []
  | _ + 1, [] => []
  | n + 1, c :: rest => (decodeRune (c :: rest)).1 :: runes n ((c :: rest).drop (decodeRune (c :: rest)).2)

def encode (cs : List Char) : List UInt8 := cs.flatMap String.utf8EncodeChar

def replaced (b : List UInt8) : List UInt8 := encode (runes b.length b)

def Valid (b : List UInt8) : Prop := ∃ cs : List Char, b = encode cs

theorem decodeRune_encode (c : Char) (rest : List UInt8) :
    decodeRune (String.utf8EncodeChar c ++ rest) = (c, c.utf8Size) := by
  have first : (String.utf8EncodeChar c ++ rest).toByteArray.utf8DecodeChar? 0 = some c := by
    rw [List.toByteArray_append]
    exact ByteArray.utf8DecodeChar?_utf8EncodeChar_append
  rw [decodeRune, first]
  rfl

theorem runes_encode (cs : List Char) (n : Nat) (enough : (encode cs).length ≤ n) : runes n (encode cs) = cs := by
  induction cs generalizing n with
  | nil => cases n <;> rfl
  | cons c cs ih =>
    have split : encode (c :: cs) = String.utf8EncodeChar c ++ encode cs := rfl
    have size : (String.utf8EncodeChar c).length = c.utf8Size := String.length_utf8EncodeChar c
    have positive := c.utf8Size_pos
    rw [split, List.length_append] at enough
    obtain ⟨m, rfl⟩ : ∃ m, n = m + 1 := ⟨n - 1, by omega⟩
    have filled : String.utf8EncodeChar c ++ encode cs ≠ [] := by
      intro empty
      have none := congrArg List.length empty
      simp only [List.length_append, List.length_nil] at none
      omega
    obtain ⟨x, rest, cut⟩ := List.exists_cons_of_ne_nil filled
    rw [split, cut, runes, ← cut, decodeRune_encode, List.drop_left' size, ih m (by omega)]

theorem replaced_encode (cs : List Char) : replaced (encode cs) = encode cs := by
  rw [replaced, runes_encode cs _ (Nat.le_refl _)]

theorem replaced_eq_self {b : List UInt8} : replaced b = b ↔ Valid b := by
  constructor
  · intro same
    exact ⟨runes b.length b, same.symm⟩
  · rintro ⟨cs, rfl⟩
    exact replaced_encode cs

end Egauth.Utf8
