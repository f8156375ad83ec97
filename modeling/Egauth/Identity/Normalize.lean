import Egauth.Identity.Record

/-! The normaliser of identifiers.

A string is read as Go ranges over it. The tables of Unicode and of IDNA are
parameters; white space and control characters, which are few, are written out.
-/

set_option autoImplicit false

namespace Egauth.Identity

/-- A rune of a string, or a byte that is part of none. -/
inductive Rune where
  | char (c : Char)
  | stray (b : UInt8)
  deriving DecidableEq

abbrev Text := List Rune

def text (s : String) : Text := s.toList.map .char

namespace Rune

/-- What `range` yields; a stray byte is read as the replacement character. -/
def value : Rune → Char
  | .char c => c
  | .stray _ => Char.ofNat 0xFFFD

def size : Rune → Nat
  | .char c => c.utf8Size
  | .stray _ => 1

def valid : Rune → Bool
  | .char _ => true
  | .stray _ => false

def atSign : Rune := .char '@'

def dot : Rune := .char '.'

def ascii : Rune → Bool
  | .char c => c.toNat < 0x80
  | .stray _ => false

end Rune

namespace Text

def len (s : Text) : Nat := (s.map Rune.size).sum

def valid (s : Text) : Bool := s.all Rune.valid

end Text

def isSpace (c : Char) : Bool :=
  let n := c.toNat
  (0x09 ≤ n && n ≤ 0x0D) || n == 0x20 || n == 0x85 || n == 0xA0 || n == 0x1680 || (0x2000 ≤ n && n ≤ 0x200A) ||
    n == 0x2028 || n == 0x2029 || n == 0x202F || n == 0x205F || n == 0x3000

def isControl (c : Char) : Bool := c.toNat < 0x20 || (0x7F ≤ c.toNat && c.toNat < 0xA0)

def isASCIIAlnum (c : Char) : Bool :=
  ('a' ≤ c && c ≤ 'z') || ('A' ≤ c && c ≤ 'Z') || ('0' ≤ c && c ≤ '9')

def isASCIIDigit (c : Char) : Bool := '0' ≤ c && c ≤ '9'

structure Unicode where
  nfkc : Text → Text
  lower : Char → Char
  upper : Char → Bool
  letter : Char → Bool
  digit : Char → Bool
  mark : Char → Bool
  /-- `idna.Lookup.ToASCII`. -/
  toASCII : Text → Option Text

def maxLocalPart : Nat := 64

def maxDomain : Nat := 253

def maxLabel : Nat := 63

def maxIdentifierLen : Nat := 320

def atext : List Char := "!#$%&'*+-/=?^_`\x7b|\x7d~".toList

def phoneMarks : List Char := " -.()".toList

structure Canonical where
  kind : IdentifierKind
  value : Text
  deriving DecidableEq

def invalid {α : Type} (why : String) : Except Err α := .error (.invalidIdentifier why)

def trimSpace (s : Text) : Text :=
  ((s.dropWhile fun r => isSpace r.value).reverse.dropWhile fun r => isSpace r.value).reverse

def cutLast : Text → Option (Text × Text)
  | [] => none
  | r :: rest =>
    match cutLast rest with
    | some (before, after) => some (r :: before, after)
    | none => if r = .atSign then some ([], rest) else none

def doubled : Text → Bool
  | a :: b :: rest => (a == .dot && b == .dot) || doubled (b :: rest)
  | _ => false

def canonicalPhone : Text → Bool
  | .char '+' :: digits =>
    8 ≤ Text.len digits && Text.len digits ≤ 15 && digits.head? != some (.char '0') && digits.all fun r => isASCIIDigit r.value
  | _ => false

def hostname (d : Text) : Bool :=
  !d.isEmpty && d.len ≤ maxDomain && (d.splitOn .dot).all fun label =>
    !label.isEmpty && Text.len label ≤ maxLabel && label.head? != some (.char '-') && label.getLast? != some (.char '-') &&
      label.all fun r => (r.value == '-' || isASCIIAlnum r.value) && !('A' ≤ r.value && r.value ≤ 'Z')

def phoneDigits : Text → Option Text
  | [] => some []
  | r :: rest =>
    if isASCIIDigit r.value then (phoneDigits rest).map (r :: ·)
    else if r.value ∈ phoneMarks then phoneDigits rest
    else none

namespace Unicode
variable (u : Unicode)

def toLower (s : Text) : Text := s.map fun r => .char (u.lower r.value)

def canonicalEmail (s : Text) : Bool :=
  s.contains .atSign && !(s.takeWhile (· ≠ .atSign)).isEmpty &&
    !((s.dropWhile (· ≠ .atSign)).drop 1).isEmpty && !((s.dropWhile (· ≠ .atSign)).drop 1).contains .atSign &&
    s.all fun r => !(isSpace r.value || isControl r.value || u.upper r.value)

def newIdentifier (k : IdentifierKind) (normalized : Text) : Except Err Canonical :=
  if normalized.isEmpty || normalized.len > maxIdentifierLen || !normalized.valid then invalid ""
  else if k = .phone then
    if canonicalPhone normalized then .ok ⟨k, normalized⟩ else invalid "phone must be in E.164 form"
  else if u.canonicalEmail normalized then .ok ⟨k, normalized⟩ else invalid "email is not in canonical form"

def word (c : Char) : Bool :=
  if c.toNat < 0x80 then isASCIIAlnum c || c ∈ atext else u.letter c || u.digit c || u.mark c

def dotAtom (l : Text) : Bool :=
  !(l.isEmpty || l.len > maxLocalPart || l.head? == some .dot || l.getLast? == some .dot || doubled l) &&
    l.all fun r => r == .dot || u.word r.value

def normalizeEmail (k : IdentifierKind) (s : Text) : Except Err Canonical :=
  if s.len > maxIdentifierLen || !s.valid then invalid ""
  else
    match cutLast s with
    | none => invalid ""
    | some (before, domain) =>
      if !u.dotAtom before then invalid ""
      else
        match u.toASCII domain with
        | none => invalid ""
        | some ascii =>
          if !hostname ascii then invalid "" else u.newIdentifier k (u.toLower before ++ .atSign :: ascii)

def normalizePhone (s : Text) : Except Err Canonical :=
  if s.len > maxIdentifierLen then invalid ""
  else
    match s with
    | .char '+' :: digits =>
      match phoneDigits digits with
      | none => invalid ""
      | some kept => u.newIdentifier .phone (.char '+' :: kept)
    | _ => invalid ""

def normalize (raw : Text) : Except Err Canonical :=
  let s := trimSpace (u.nfkc raw)
  if s.contains .atSign then u.normalizeEmail .email s
  else if s.head? = some (.char '+') then u.normalizePhone s
  else invalid ""

/-- An undeclared kind is `none`. -/
def normalizeAs (k : Option IdentifierKind) (raw : Text) : Except Err Canonical :=
  let s := trimSpace (u.nfkc raw)
  match k with
  | some .email => u.normalizeEmail .email s
  | some .recoveryEmail => u.normalizeEmail .recoveryEmail s
  | some .phone => u.normalizePhone s
  | none => invalid ""

end Unicode
end Egauth.Identity
