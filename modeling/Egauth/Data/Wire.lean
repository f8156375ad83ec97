import Mathlib.Data.List.Induction
import Mathlib.Data.List.Forall2
import Mathlib.Tactic.Ring

/-! Byte formats: variable-length and big-endian numbers, and readers.

A reader consumes bytes from the front of its input and stops at its first
error. `Reads` says that a reader takes back what was written, whatever
follows; a reader that checks a count against the input that is left asks for
some of it to follow. `Yields` says what a reader returns if it does. Inputs are shorter than 64-bit lengths can tell.
-/

set_option autoImplicit false

namespace Egauth.Wire

/-- The bytes of a number by seven bits, lowest first, with at most `more` bytes before the last. -/
def putUvarint : Nat → Nat → List UInt8
  | 0, n => [n.toUInt8]
  | more + 1, n => if n < 128 then [n.toUInt8] else (n % 128 + 128).toUInt8 :: putUvarint more (n / 128)

/-- `binary.AppendUvarint`; ten bytes hold 64 bits. -/
def appendUvarint (n : Nat) : List UInt8 := putUvarint 9 n

/-- The loop of `binary.Uvarint` at byte `i`, with the bits read so far. -/
def uvarintLoop (i x : Nat) : List UInt8 → Option (Nat × List UInt8)
  | [] => none
  | b :: rest =>
    if i = 10 then none
    else if b.toNat < 128 then
      if i = 9 ∧ 1 < b.toNat then none else some (x + b.toNat * 128 ^ i, rest)
    else uvarintLoop (i + 1) (x + (b.toNat - 128) * 128 ^ i) rest

/-- `binary.Uvarint` with the input after the number; none where the source returns no positive length. -/
def uvarint (b : List UInt8) : Option (Nat × List UInt8) := uvarintLoop 0 0 b

def bigEndian : Nat → Nat → List UInt8
  | 0, _ => []
  | width + 1, n => bigEndian width (n / 256) ++ [(n % 256).toUInt8]

def ofBigEndian (b : List UInt8) : Nat := b.foldl (fun x byte => x * 256 + byte.toNat) 0

theorem toNat_toUInt8 {n : Nat} (small : n < 256) : n.toUInt8.toNat = n := by
  simp [Nat.mod_eq_of_lt small]

/-- The index of the loop and the bytes still to come add up to the last byte. -/
theorem uvarintLoop_putUvarint {more i n : Nat} (x : Nat) (place : i + more = 9) (small : n < 2 * 128 ^ more)
    (rest : List UInt8) :
    uvarintLoop i x (putUvarint more n ++ rest) = some (x + n * 128 ^ i, rest) := by
  induction more generalizing i n x with
  | zero =>
    have byte := toNat_toUInt8 (by omega : n < 256)
    -- The tenth byte holds the one bit that is left.
    have last : ¬(i = 9 ∧ 1 < n) := by omega
    simp [putUvarint, uvarintLoop, byte, show i ≠ 10 by omega, show n < 128 by omega, last]
  | succ more ih =>
    rw [putUvarint]
    split
    next single =>
      have byte := toNat_toUInt8 (by omega : n < 256)
      simp [uvarintLoop, byte, show i ≠ 10 by omega, show i ≠ 9 by omega, single]
    · have byte := toNat_toUInt8 (by omega : n % 128 + 128 < 256)
      have fewer : n / 128 < 2 * 128 ^ more := by
        rw [Nat.div_lt_iff_lt_mul (by decide)]
        rw [pow_succ] at small
        omega
      have next : i + 1 + more = 9 := by omega
      simp only [List.cons_append, uvarintLoop, byte, show i ≠ 10 by omega, ↓reduceIte,
        show ¬(n % 128 + 128 < 128) by omega, Nat.add_sub_cancel, ih _ next fewer]
      have value : x + n % 128 * 128 ^ i + n / 128 * 128 ^ (i + 1) = x + n * 128 ^ i := by
        calc x + n % 128 * 128 ^ i + n / 128 * 128 ^ (i + 1)
            = x + (n % 128 + 128 * (n / 128)) * 128 ^ i := by ring
          _ = x + n * 128 ^ i := by rw [Nat.mod_add_div]
      rw [value]

theorem uvarint_appendUvarint {n : Nat} (small : n < 2 ^ 64) (rest : List UInt8) :
    uvarint (appendUvarint n ++ rest) = some (n, rest) := by
  have read : uvarintLoop 0 0 (putUvarint 9 n ++ rest) = some (0 + n * 128 ^ 0, rest) :=
    uvarintLoop_putUvarint 0 rfl (by simpa using small) rest
  simpa [uvarint, appendUvarint] using read

theorem appendUvarint_ne_nil (n : Nat) : appendUvarint n ≠ [] := by
  unfold appendUvarint putUvarint
  split <;> simp

@[simp] theorem length_bigEndian (width n : Nat) : (bigEndian width n).length = width := by
  induction width generalizing n with
  | zero => rfl
  | succ width ih => simp [bigEndian, ih]

theorem ofBigEndian_bigEndian {width n : Nat} (small : n < 256 ^ width) :
    ofBigEndian (bigEndian width n) = n := by
  induction width generalizing n with
  | zero => simp at small; simp [bigEndian, ofBigEndian, small]
  | succ width ih =>
    have fewer : n / 256 < 256 ^ width := by
      rw [Nat.div_lt_iff_lt_mul (by decide)]
      simpa [pow_succ] using small
    have byte := toNat_toUInt8 (Nat.mod_lt n (by decide : 0 < 256))
    have high : (bigEndian width (n / 256)).foldl (fun x byte => x * 256 + byte.toNat) 0 = n / 256 := ih fewer
    simp only [bigEndian, ofBigEndian, List.foldl_append, List.foldl_cons, List.foldl_nil, high, byte]
    omega

@[simp] theorem ofBigEndian_append (b : List UInt8) (byte : UInt8) :
    ofBigEndian (b ++ [byte]) = ofBigEndian b * 256 + byte.toNat := by
  simp [ofBigEndian]

theorem ofBigEndian_lt (b : List UInt8) : ofBigEndian b < 256 ^ b.length := by
  induction b using List.reverseRecOn with
  | nil => simp [ofBigEndian]
  | append_singleton b byte ih =>
    have small := byte.toNat_lt
    rw [ofBigEndian_append, List.length_append, List.length_singleton, pow_succ]
    omega

theorem bigEndian_ofBigEndian (b : List UInt8) : bigEndian b.length (ofBigEndian b) = b := by
  induction b using List.reverseRecOn with
  | nil => rfl
  | append_singleton b byte ih =>
    have small := byte.toNat_lt
    have high : (ofBigEndian b * 256 + byte.toNat) / 256 = ofBigEndian b := by omega
    have low : (ofBigEndian b * 256 + byte.toNat) % 256 = byte.toNat := by omega
    rw [ofBigEndian_append, List.length_append, List.length_singleton, bigEndian, high, low, ih]
    simp

section
variable {E A B : Type}

/-- A reader returns a value with the input after it, or its first error. -/
abbrev Reader (E A : Type) := StateT (List UInt8) (Except E) A

namespace Reader

def fail (err : E) : Reader E A := fun _ => .error err

def many (item : Reader E A) : Nat → Reader E (List A)
  | 0 => pure []
  | n + 1 => do
    let a ← item
    let rest ← many item n
    pure (a :: rest)

end Reader

/-- Given `least` bytes after it, the reader takes `bytes` for `a`. -/
def Reads (least : Nat) (reader : Reader E A) (bytes : List UInt8) (a : A) : Prop :=
  ∀ rest, least ≤ rest.length → (bytes ++ rest).length < 2 ^ 64 → reader (bytes ++ rest) = .ok (a, rest)

namespace Reads

theorem pure (a : A) : Reads (E := E) 0 (pure a) [] a := fun _ _ _ => rfl

variable {next : A → Reader E B} {reader : Reader E A} {bytes : List UInt8}

/-- Readers in sequence take the bytes in sequence; what follows the first includes the second. -/
theorem bind {least least' : Nat} {bytes' : List UInt8}
    {a : A} {b : B} (first : Reads least reader bytes a) (second : Reads least' (next a) bytes' b)
    (enough : least ≤ bytes'.length + least') : Reads least' (reader >>= next) (bytes ++ bytes') b := by
  intro rest long short
  rw [List.append_assoc] at short ⊢
  -- What the first reader needs after it, the second one's bytes and the rest provide.
  have more : least ≤ (bytes' ++ rest).length := by
    rw [List.length_append]
    omega
  have taken : (reader >>= next) (bytes ++ (bytes' ++ rest)) = next a (bytes' ++ rest) := by
    change (reader (bytes ++ (bytes' ++ rest)) >>= fun p => next p.1 p.2) = _
    rw [first _ more short]
    rfl
  rw [taken]
  refine second rest long ?_
  simp only [List.length_append] at short ⊢
  omega

theorem seq {least : Nat} {bytes' : List UInt8} {a : A} {b : B}
    (first : Reads 0 reader bytes a) (second : Reads least (next a) bytes' b) :
    Reads least (reader >>= next) (bytes ++ bytes') b := first.bind second (Nat.zero_le _)

theorem last {a : A} {b : B}
    (only : Reads 0 reader bytes a) (result : next a = Pure.pure b) : Reads 0 (reader >>= next) bytes b := by
  have read : Reads 0 (reader >>= next) (bytes ++ []) b := only.seq (result ▸ Reads.pure b)
  rwa [List.append_nil] at read

theorem many {item : Reader E A} {encoded : List (List UInt8)} {as : List A}
    (each : List.Forall₂ (Reads 0 item) encoded as) :
    Reads 0 (Reader.many item as.length) encoded.flatten as := by
  induction each with
  | nil => exact Reads.pure []
  | cons first _ ih => exact first.seq (ih.last rfl)

end Reads

/-- What the reader returns has the property, whatever its input. -/
def Yields (reader : Reader E A) (P : A → Prop) : Prop := ∀ b a rest, reader b = .ok (a, rest) → P a

namespace Yields
variable {P : A → Prop} {Q : B → Prop} {reader : Reader E A} {next : A → Reader E B}

theorem pure {a : A} (holds : P a) : Yields (E := E) (pure a) P := by
  intro b x rest ok
  cases ok
  exact holds

theorem fail (err : E) : Yields (Reader.fail err) P := fun _ _ _ => nofun

theorem bind (first : Yields reader P) (after : ∀ a, P a → Yields (next a) Q) : Yields (reader >>= next) Q := by
  intro b x rest ok
  change (reader b >>= fun p => next p.1 p.2) = _ at ok
  cases read : reader b with
  | error err =>
    rw [read] at ok
    cases ok
  | ok p =>
    rw [read] at ok
    exact after p.1 (first b p.1 p.2 read) p.2 x rest ok

theorem skip (each : ∀ a, Yields (next a) Q) : Yields (reader >>= next) Q :=
  bind (P := fun _ => True) (fun _ _ _ _ => trivial) fun a _ => each a

end Yields
end

theorem length_le_flatten {A : Type} {encoded : List (List UInt8)} {as : List A}
    (nonempty : List.Forall₂ (fun b _ => b ≠ []) encoded as) : as.length ≤ encoded.flatten.length := by
  induction nonempty with
  | nil => simp
  | cons here _ ih =>
    have positive := List.length_pos_of_ne_nil here
    simp only [List.length_cons, List.flatten_cons, List.length_append]
    omega

end Egauth.Wire
