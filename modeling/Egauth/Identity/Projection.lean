import Egauth.Identity.Normalize
import Mathlib.Data.List.Chain
import Mathlib.Data.List.DropRight

/-! When normalising twice is normalising once.

The local part is lower-cased after it was composed and after its length was
checked. The identifier is a fixed point of the normaliser just where the result
is still composed and short enough; a phone number always is one.
-/

set_option autoImplicit false

namespace Egauth.Identity

namespace Unicode

/-- What is assumed of the tables: composed text stays as it is, and so does every part of it; an ASCII character
neither decomposes nor joins what stands before it; lower-casing is done once and for all, leaves the characters of a
local part among themselves, and leaves nothing to lower-case when its result is composed; an A-label form is its own. -/
structure Lawful (u : Unicode) : Prop where
  nfkc_nil : u.nfkc [] = []
  nfkc_nfkc : ∀ x, u.nfkc (u.nfkc x) = u.nfkc x
  nfkc_part : ∀ x y : Text, x <:+: y → u.nfkc y = y → u.nfkc x = x
  nfkc_ascii : ∀ x y : Text, (∀ r ∈ y, r.ascii = true) → u.nfkc (x ++ y) = u.nfkc x ++ y
  lower_lower : ∀ c, u.lower (u.lower c) = u.lower c
  lower_dot : ∀ c, u.lower c = '.' ↔ c = '.'
  lower_word : ∀ c, u.word c = true → u.word (u.lower c) = true
  lower_nfkc : ∀ x, u.nfkc x = x → u.toLower (u.nfkc (u.toLower x)) = u.nfkc (u.toLower x)
  toASCII_label : ∀ d a, u.toASCII d = some a → u.toASCII a = some a

def address (u : Unicode) (raw : Text) : Option (Text × Text) := cutLast (trimSpace (u.nfkc raw))

/-- The lower-cased local part is composed, and is no longer than a local part may be. -/
def Settled (u : Unicode) (raw : Text) : Prop :=
  ∀ l d, u.address raw = some (l, d) → u.nfkc (u.toLower l) = u.toLower l ∧ (u.toLower l).len ≤ maxLocalPart

end Unicode

theorem cutLast_append (l d : Text) (plain : Rune.atSign ∉ d) : cutLast (l ++ .atSign :: d) = some (l, d) := by
  induction l with
  | nil =>
    have rest : cutLast d = none := by
      induction d with
      | nil => rfl
      | cons r d ih =>
        have other : r ≠ .atSign := fun same => plain (by simp [same])
        simp [cutLast, ih fun member => plain (by simp [member]), other]
    simp [cutLast, rest]
  | cons r l ih => simp [cutLast, ih]

theorem cutLast_eq {s l d : Text} (cut : cutLast s = some (l, d)) : s = l ++ .atSign :: d := by
  induction s generalizing l d with
  | nil => cases cut
  | cons r s ih =>
    simp only [cutLast] at cut
    split at cut
    next before after found =>
      cases cut
      rw [ih found]
      rfl
    next =>
      split at cut
      next same =>
        cases cut
        rw [same]
        rfl
      next => cases cut

theorem trimSpace_eq {s : Text} (solid : ∀ r ∈ s, isSpace r.value = false) : trimSpace s = s := by
  have whole (t : Text) (solid : ∀ r ∈ t, isSpace r.value = false) : (t.dropWhile fun r => isSpace r.value) = t := by
    cases t with
    | nil => rfl
    | cons r t => simp [solid r (by simp)]
  unfold trimSpace
  rw [whole s solid, whole s.reverse (by simpa using solid), List.reverse_reverse]

theorem trimSpace_part (s : Text) : trimSpace s <:+: s := by
  have front : trimSpace s <+: s.dropWhile fun r => isSpace r.value := List.rdropWhile_prefix _ _
  exact front.isInfix.trans (List.dropWhile_suffix _).isInfix

/-- Only the front of an address is trimmed when no space is behind the at sign. -/
theorem trimSpace_address (s : Text) {a : Text} (solid : ∀ r ∈ a, isSpace r.value = false) :
    trimSpace (s ++ .atSign :: a) = (s.dropWhile fun r => isSpace r.value) ++ .atSign :: a := by
  have front : ((s ++ .atSign :: a).dropWhile fun r => isSpace r.value) =
      (s.dropWhile fun r => isSpace r.value) ++ .atSign :: a := by
    rw [List.dropWhile_append]
    split
    next gone =>
      rw [List.isEmpty_iff.mp gone]
      rfl
    next => rfl
  have back : ∀ r ∈ (Rune.atSign :: a).reverse.head?, isSpace r.value = false := by
    intro r last
    rcases List.mem_cons.mp (List.mem_reverse.mp (List.mem_of_mem_head? last)) with rfl | member
    · rfl
    · exact solid r member
  unfold trimSpace
  rw [front, List.reverse_append]
  cases reversed : (Rune.atSign :: a).reverse with
  | nil => simp at reversed
  | cons r rest =>
    rw [reversed] at back
    rw [List.cons_append, List.dropWhile_cons_of_neg (by simp [back r rfl]), ← List.cons_append, ← reversed,
      ← List.reverse_append, List.reverse_reverse]

def labelled (r : Rune) : Bool :=
  r == .dot || ((r.value == '-' || isASCIIAlnum r.value) && !('A' ≤ r.value && r.value ≤ 'Z'))

theorem mem_splitOn {d : Text} {r : Rune} (member : r ∈ d) : r = .dot ∨ ∃ label ∈ d.splitOn .dot, r ∈ label := by
  have whole : [Rune.dot].intercalate (d.splitOn .dot) = d := List.intercalate_splitOn _
  rw [← whole] at member
  generalize d.splitOn .dot = labels at member
  induction labels with
  | nil => simp at member
  | cons label labels ih =>
    cases labels with
    | nil => exact .inr ⟨label, by simp, by simpa using member⟩
    | cons next labels =>
      rw [List.intercalate_cons_cons, List.mem_append, List.mem_append, List.mem_singleton] at member
      rcases member with (here | same) | later
      · exact .inr ⟨label, by simp, here⟩
      · exact .inl same
      · rcases ih later with same | ⟨label', listed, here⟩
        · exact .inl same
        · exact .inr ⟨label', List.mem_cons_of_mem _ listed, here⟩

theorem labelled_of_hostname {d : Text} (host : hostname d = true) {r : Rune} (member : r ∈ d) : labelled r = true := by
  unfold labelled
  rcases mem_splitOn member with rfl | ⟨label, listed, here⟩
  · rfl
  · simp only [hostname, Bool.and_eq_true, List.all_eq_true] at host
    have each := (host.2 label listed).2 r here
    rw [each.1, each.2, Bool.and_self, Bool.or_true]

theorem alnum_lt {c : Char} (alnum : isASCIIAlnum c = true) : c.toNat < 0x80 := by
  simp only [isASCIIAlnum, Bool.or_eq_true, Bool.and_eq_true, decide_eq_true_eq, Char.le_def, UInt32.le_iff_toNat_le] at alnum
  have : 'z'.val.toNat = 122 := rfl
  have : 'Z'.val.toNat = 90 := rfl
  have : '9'.val.toNat = 57 := rfl
  change c.val.toNat < 128
  omega

theorem ascii_of_labelled {r : Rune} (label : labelled r = true) : r.ascii = true ∧ r ≠ .atSign := by
  constructor
  · cases r with
    | stray b => exact absurd label (by simp [labelled, Rune.dot, Rune.value]; decide)
    | char c =>
      simp only [labelled, Rune.value, Rune.dot, Bool.or_eq_true, Bool.and_eq_true, beq_iff_eq] at label
      simp only [Rune.ascii, decide_eq_true_eq]
      rcases label with same | ⟨rfl | alnum, -⟩
      · cases same
        decide
      · decide
      · exact alnum_lt alnum
  · rintro rfl
    exact absurd label (by decide)

namespace Unicode
variable {u : Unicode} {id : Canonical} {k : IdentifierKind} {s raw l : Text}

theorem newIdentifier_ok {v : Text} (ok : u.newIdentifier k v = .ok id) :
    id = ⟨k, v⟩ ∧ v.len ≤ maxIdentifierLen ∧ v.valid = true ∧
      (k = .phone → canonicalPhone v = true) ∧ (k ≠ .phone → u.canonicalEmail v = true) := by
  unfold newIdentifier at ok
  split at ok
  · cases ok
  next bounds =>
    simp only [Bool.or_eq_true, decide_eq_true_eq, not_or, Bool.not_eq_true, Bool.not_eq_false', Nat.not_lt] at bounds
    split at ok
    next phone =>
      split at ok
      next canonical =>
        cases ok
        exact ⟨rfl, bounds.1.2, by simpa using bounds.2, fun _ => canonical, fun other => absurd phone other⟩
      next => cases ok
    next email =>
      split at ok
      next canonical =>
        cases ok
        exact ⟨rfl, bounds.1.2, by simpa using bounds.2, fun same => absurd same email, fun _ => canonical⟩
      next => cases ok

structure Reads (u : Unicode) (k : IdentifierKind) (s l d a : Text) (id : Canonical) : Prop where
  cut : cutLast s = some (l, d)
  atom : u.dotAtom l = true
  label : u.toASCII d = some a
  host : hostname a = true
  made : u.newIdentifier k (u.toLower l ++ .atSign :: a) = .ok id

theorem normalizeEmail_ok (ok : u.normalizeEmail k s = .ok id) : ∃ l d a, u.Reads k s l d a id := by
  unfold normalizeEmail at ok
  split at ok
  · cases ok
  split at ok
  · cases ok
  next l d cut =>
    split at ok
    · cases ok
    next atom =>
      split at ok
      · cases ok
      next a label =>
        split at ok
        · cases ok
        next host => exact ⟨l, d, a, cut, by simpa using atom, label, by simpa using host, ok⟩

variable {d : Text}

theorem Reads.normalizeEmail {a : Text} (reads : u.Reads k s l d a id)
    (short : s.len ≤ maxIdentifierLen) (valid : s.valid = true) : u.normalizeEmail k s = .ok id := by
  unfold Unicode.normalizeEmail
  rw [if_neg (by simp [short, valid]), reads.cut]
  dsimp only
  rw [if_neg (by simp [reads.atom]), reads.label]
  dsimp only
  rw [if_neg (by simp [reads.host])]
  exact reads.made

theorem toLower_toLower (lawful : u.Lawful) (l : Text) : u.toLower (u.toLower l) = u.toLower l := by
  simp only [toLower, List.map_map]
  refine List.map_congr_left fun r _ => ?_
  simp [Rune.value, lawful.lower_lower]

theorem lower_eq_dot (lawful : u.Lawful) (r : Rune) : Rune.char (u.lower r.value) = .dot ↔ r = .dot := by
  cases r with
  | char c => simp [Rune.value, Rune.dot, lawful.lower_dot]
  | stray b =>
    simp only [Rune.value, Rune.dot, Rune.char.injEq, lawful.lower_dot, reduceCtorEq, iff_false]
    decide

theorem doubled_toLower (lawful : u.Lawful) (l : Text) : doubled (u.toLower l) = doubled l := by
  induction l with
  | nil => rfl
  | cons a l ih =>
    cases l with
    | nil => rfl
    | cons b l =>
      have dots (r : Rune) : (Rune.char (u.lower r.value) == Rune.dot) = (r == Rune.dot) := by
        rw [Bool.eq_iff_iff, beq_iff_eq, beq_iff_eq, lower_eq_dot lawful]
      simp only [toLower, List.map_cons, doubled, dots] at ih ⊢
      rw [ih]

/-- A local part stays one, unless it grows too long. -/
theorem dotAtom_toLower (lawful : u.Lawful) (atom : u.dotAtom l = true)
    (short : (u.toLower l).len ≤ maxLocalPart) : u.dotAtom (u.toLower l) = true := by
  have ends (end' : Option Rune) :
      (end'.map fun r => Rune.char (u.lower r.value)) = some .dot ↔ end' = some .dot := by
    cases end' with
    | none => simp
    | some r => simp [lower_eq_dot lawful]
  simp only [dotAtom, Bool.and_eq_true, Bool.not_eq_true', Bool.or_eq_false_iff, List.isEmpty_eq_false_iff,
    decide_eq_false_iff_not, beq_eq_false_iff_ne, List.all_eq_true, Bool.or_eq_true, beq_iff_eq] at atom ⊢
  obtain ⟨⟨⟨⟨⟨some', -⟩, first⟩, last⟩, apart⟩, each⟩ := atom
  refine ⟨⟨⟨⟨⟨by simpa [toLower] using some', Nat.not_lt.mpr short⟩, ?_⟩, ?_⟩, ?_⟩, ?_⟩
  · simpa only [toLower, List.head?_map, ne_eq, ends] using first
  · simpa only [toLower, List.getLast?_map, ne_eq, ends] using last
  · rw [doubled_toLower lawful, apart]
  · intro r member
    obtain ⟨r, listed, rfl⟩ := List.mem_map.mp member
    rcases each r listed with rfl | word
    · exact .inl ((lower_eq_dot lawful _).mpr rfl)
    · exact .inr (lawful.lower_word r.value word)

theorem solid_of_canonicalEmail (canonical : u.canonicalEmail s = true) {r : Rune} (member : r ∈ s) :
    isSpace r.value = false := by
  simp only [canonicalEmail, Bool.and_eq_true, List.all_eq_true] at canonical
  have each := canonical.2 r member
  simp only [Bool.not_eq_true', Bool.or_eq_false_iff] at each
  exact each.1.1

theorem nfkc_address (lawful : u.Lawful) {a : Text} (host : hostname a = true) :
    u.nfkc (l ++ .atSign :: a) = u.nfkc l ++ .atSign :: a := by
  refine lawful.nfkc_ascii _ _ fun r member => ?_
  rcases List.mem_cons.mp member with rfl | listed
  · decide
  · exact (ascii_of_labelled (labelled_of_hostname host listed)).1

theorem Reads.again (lawful : u.Lawful) {a : Text}
    (reads : u.Reads k s l d a id) (email : k ≠ .phone) (composed : u.nfkc (u.toLower l) = u.toLower l)
    (short : (u.toLower l).len ≤ maxLocalPart) :
    trimSpace (u.nfkc id.value) = id.value ∧ u.normalizeEmail k id.value = .ok id ∧ Rune.atSign ∈ id.value := by
  obtain ⟨rfl, bounded, valid, -, canonical⟩ := newIdentifier_ok reads.made
  have plain (r : Rune) (member : r ∈ a) : r.ascii = true ∧ r ≠ .atSign :=
    ascii_of_labelled (labelled_of_hostname reads.host member)
  have fixed : u.nfkc (u.toLower l ++ .atSign :: a) = u.toLower l ++ .atSign :: a := by
    rw [nfkc_address lawful reads.host, composed]
  refine ⟨?_, ?_, by simp⟩
  · rw [fixed]
    exact trimSpace_eq fun r member => solid_of_canonicalEmail (canonical email) member
  · have once : u.Reads k (u.toLower l ++ .atSign :: a) (u.toLower l) a a ⟨k, u.toLower l ++ .atSign :: a⟩ :=
      { cut := cutLast_append _ _ fun member => (plain _ member).2 rfl
        atom := dotAtom_toLower lawful reads.atom short
        label := lawful.toASCII_label d a reads.label
        host := reads.host
        made := by rw [toLower_toLower lawful]; exact reads.made }
    exact once.normalizeEmail bounded valid

theorem toLower_suffix {x y : Text} (suffix : y <:+ x) (lower : u.toLower x = x) : u.toLower y = y := by
  obtain ⟨front, rfl⟩ := suffix
  rw [toLower, List.map_append] at lower
  exact (List.append_inj lower (List.length_map _)).2

/-- An identifier that normalises to itself was made of a local part that stays composed and short. -/
theorem settled_of_again (lawful : u.Lawful) (email : k ≠ .phone)
    (ok : u.normalizeEmail k (trimSpace (u.nfkc raw)) = .ok id)
    (again : u.normalizeEmail k (trimSpace (u.nfkc id.value)) = .ok id) : u.Settled raw := by
  obtain ⟨l, d, a, reads⟩ := normalizeEmail_ok ok
  obtain ⟨l', d', a', reads'⟩ := normalizeEmail_ok again
  obtain ⟨rfl, -, -, -, canonical⟩ := newIdentifier_ok reads.made
  have plain (r : Rune) (member : r ∈ a) := ascii_of_labelled (labelled_of_hostname reads.host member)
  have solid (r : Rune) (member : r ∈ a) : isSpace r.value = false :=
    solid_of_canonicalEmail (canonical email) (by simp [member])
  -- The second local part is what trimming leaves of the composed form.
  have cut := reads'.cut
  rw [nfkc_address lawful reads.host, trimSpace_address _ solid, cutLast_append _ _ fun member => (plain _ member).2 rfl]
    at cut
  obtain ⟨rfl, rfl⟩ := Prod.mk.inj (Option.some.inj cut)
  obtain rfl := Option.some.inj (reads'.label.symm.trans (lawful.toASCII_label d a reads.label))
  have suffix := List.dropWhile_suffix (l := u.nfkc (u.toLower l)) fun r => isSpace r.value
  have whole : u.nfkc l = l := by
    refine lawful.nfkc_part l (u.nfkc raw) (List.IsInfix.trans ?_ (trimSpace_part _)) (lawful.nfkc_nfkc raw)
    rw [cutLast_eq reads.cut]
    exact (List.prefix_append _ _).isInfix
  have lower := toLower_suffix suffix (lawful.lower_nfkc l whole)
  have value := congrArg Canonical.value (newIdentifier_ok reads'.made).1
  have same : u.toLower l = _ := (List.append_cancel_right value).trans lower
  have composed := lawful.nfkc_part _ _ suffix.isInfix (lawful.nfkc_nfkc (u.toLower l))
  have short := reads'.atom
  rw [← same] at composed short
  intro l₁ d₁ address
  cases reads.cut.symm.trans address
  simp only [dotAtom, Bool.and_eq_true, Bool.not_eq_true', Bool.or_eq_false_iff, decide_eq_false_iff_not] at short
  exact ⟨composed, Nat.not_lt.mp short.1.1.1.1.2⟩

theorem phoneDigits_digits {kept : Text} (read : phoneDigits s = some kept) :
    ∀ r ∈ kept, isASCIIDigit r.value = true := by
  induction s generalizing kept with
  | nil =>
    cases read
    simp
  | cons r s ih =>
    simp only [phoneDigits] at read
    split at read
    next digit =>
      obtain ⟨rest, found, rfl⟩ := Option.map_eq_some_iff.mp read
      intro r' member
      rcases List.mem_cons.mp member with rfl | listed
      · exact digit
      · exact ih found r' listed
    next =>
      split at read
      · exact ih read
      · cases read

theorem phoneDigits_plain {kept : Text} (member : Rune.atSign ∈ s) : phoneDigits s ≠ some kept := by
  induction s generalizing kept with
  | nil => cases member
  | cons r s ih =>
    intro read
    simp only [phoneDigits] at read
    split at read
    next digit =>
      obtain ⟨rest, found, -⟩ := Option.map_eq_some_iff.mp read
      rcases List.mem_cons.mp member with rfl | later
      · exact absurd digit (by decide)
      · exact ih later found
    next =>
      split at read
      next mark =>
        rcases List.mem_cons.mp member with rfl | later
        · exact absurd mark (by decide)
        · exact ih later read
      next => cases read

theorem phoneDigits_of_digits (digits : ∀ r ∈ s, isASCIIDigit r.value = true) : phoneDigits s = some s := by
  induction s with
  | nil => rfl
  | cons r s ih => simp [phoneDigits, digits r (by simp), ih fun r' member => digits r' (by simp [member])]

theorem not_space_of_digit {c : Char} (low : 48 ≤ c.toNat) (high : c.toNat ≤ 57) : isSpace c = false := by
  unfold isSpace
  generalize c.toNat = n at low high
  simp
  omega

theorem plain_of_digit {r : Rune} (digit : isASCIIDigit r.value = true) :
    r.ascii = true ∧ isSpace r.value = false ∧ r ≠ .atSign := by
  cases r with
  | stray b => exact absurd digit (by simp [isASCIIDigit, Rune.value])
  | char c =>
    have low : '0'.val.toNat = 48 := rfl
    have high : '9'.val.toNat = 57 := rfl
    simp only [isASCIIDigit, Rune.value, Bool.and_eq_true, decide_eq_true_eq, Char.le_def,
      UInt32.le_iff_toNat_le, low, high] at digit
    have number : c.toNat = c.val.toNat := rfl
    refine ⟨?_, ?_, ?_⟩
    · simp only [Rune.ascii, decide_eq_true_eq]
      omega
    · rw [Rune.value]
      exact not_space_of_digit (by omega) (by omega)
    · rintro ⟨⟩
      have : '@'.val.toNat = 64 := rfl
      omega

theorem normalizePhone_again (lawful : u.Lawful) (ok : u.normalizePhone s = .ok id) :
    trimSpace (u.nfkc id.value) = id.value ∧ u.normalizePhone id.value = .ok id ∧ Rune.atSign ∉ id.value ∧
      id.value.head? = some (.char '+') := by
  unfold normalizePhone at ok
  split at ok
  · cases ok
  split at ok
  next digits =>
    split at ok
    · cases ok
    next kept read =>
      obtain ⟨rfl, bounded, -, -, -⟩ := newIdentifier_ok ok
      have digits := phoneDigits_digits read
      have plain (r : Rune) (member : r ∈ Rune.char '+' :: kept) :
          r.ascii = true ∧ isSpace r.value = false ∧ r ≠ .atSign := by
        rcases List.mem_cons.mp member with rfl | listed
        · decide
        · exact plain_of_digit (digits r listed)
      have fixed : u.nfkc (Rune.char '+' :: kept) = Rune.char '+' :: kept := by
        have split := lawful.nfkc_ascii [] (Rune.char '+' :: kept) fun r member => (plain r member).1
        rwa [lawful.nfkc_nil, List.nil_append] at split
      refine ⟨?_, ?_, fun member => (plain _ member).2.2 rfl, rfl⟩
      · rw [fixed]
        exact trimSpace_eq fun r member => (plain r member).2.1
      · unfold normalizePhone
        rw [if_neg (Nat.not_lt.mpr bounded)]
        simp only [phoneDigits_of_digits digits]
        exact ok
  next => cases ok

theorem email_again (lawful : u.Lawful) (email : k ≠ .phone)
    (settled : u.Settled raw) (ok : u.normalizeEmail k (trimSpace (u.nfkc raw)) = .ok id) :
    trimSpace (u.nfkc id.value) = id.value ∧ u.normalizeEmail k id.value = .ok id ∧ Rune.atSign ∈ id.value := by
  obtain ⟨l, d, a, reads⟩ := normalizeEmail_ok ok
  obtain ⟨composed, short⟩ := settled l d reads.cut
  exact reads.again lawful email composed short

/-- Two addresses of one domain are given one identifier where their local parts differ in case only. -/
theorem email_eq_iff {raw' l' : Text} {id' : Canonical} (ok : u.normalizeEmail k (trimSpace (u.nfkc raw)) = .ok id)
    (ok' : u.normalizeEmail k (trimSpace (u.nfkc raw')) = .ok id') (address : u.address raw = some (l, d))
    (address' : u.address raw' = some (l', d)) : id = id' ↔ u.toLower l = u.toLower l' := by
  obtain ⟨l₁, d₁, a₁, reads⟩ := normalizeEmail_ok ok
  obtain ⟨l₂, d₂, a₂, reads'⟩ := normalizeEmail_ok ok'
  cases address.symm.trans reads.cut
  cases address'.symm.trans reads'.cut
  obtain rfl : a₁ = a₂ := Option.some.inj (reads.label.symm.trans reads'.label)
  obtain ⟨rfl, -⟩ := newIdentifier_ok reads.made
  obtain ⟨rfl, -⟩ := newIdentifier_ok reads'.made
  rw [Canonical.mk.injEq, List.append_left_inj]
  exact and_iff_right rfl

/-- Equal addresses are given one identifier. -/
theorem email_unique {raw' l' : Text} {id' : Canonical} (ok : u.normalizeEmail k (trimSpace (u.nfkc raw)) = .ok id)
    (ok' : u.normalizeEmail k (trimSpace (u.nfkc raw')) = .ok id') (address : u.address raw = some (l, d))
    (address' : u.address raw' = some (l', d)) (same : u.nfkc (u.toLower l) = u.nfkc (u.toLower l')) :
    (id = id' ↔ u.toLower l = u.toLower l') ∧ (u.Settled raw → u.Settled raw' → id = id') := by
  have equal := email_eq_iff ok ok' address address'
  refine ⟨equal, fun settled settled' => equal.mpr ?_⟩
  rwa [(settled l d address).1, (settled' l' d address').1] at same

theorem normalizeAs_ok {k : Option IdentifierKind} (ok : u.normalizeAs k raw = .ok id) :
    (∃ k', k = some k' ∧ k' ≠ .phone ∧ (∀ raw, u.normalizeAs k raw = u.normalizeEmail k' (trimSpace (u.nfkc raw)))) ∨
      k = some .phone := by
  cases k with
  | none => cases ok
  | some k =>
    cases k with
    | email => exact .inl ⟨.email, rfl, nofun, fun _ => rfl⟩
    | phone => exact .inr rfl
    | recoveryEmail => exact .inl ⟨.recoveryEmail, rfl, nofun, fun _ => rfl⟩

theorem atSign_mem (address : u.address raw = some (l, d)) : Rune.atSign ∈ trimSpace (u.nfkc raw) := by
  rw [cutLast_eq address]
  simp

theorem normalize_eq_email (address : u.address raw = some (l, d)) :
    u.normalize raw = u.normalizeEmail .email (trimSpace (u.nfkc raw)) := by
  rw [normalize, if_pos (by simpa using atSign_mem address)]

theorem normalize_ok (ok : u.normalize raw = .ok id) :
    Rune.atSign ∈ trimSpace (u.nfkc raw) ∧ u.normalizeEmail .email (trimSpace (u.nfkc raw)) = .ok id ∨
      Rune.atSign ∉ trimSpace (u.nfkc raw) ∧ u.normalizePhone (trimSpace (u.nfkc raw)) = .ok id := by
  unfold normalize at ok
  dsimp only at ok
  split at ok
  next present => exact .inl ⟨by simpa using present, ok⟩
  next absent =>
    split at ok
    · exact .inr ⟨by simpa using absent, ok⟩
    · cases ok

theorem normalizePhone_plain (ok : u.normalizePhone s = .ok id) : Rune.atSign ∉ s := by
  unfold normalizePhone at ok
  split at ok
  · cases ok
  split at ok
  next digits =>
    split at ok
    · cases ok
    next kept read =>
      intro member
      rcases List.mem_cons.mp member with same | member
      · cases same
      · exact phoneDigits_plain member read
  next => cases ok

theorem settled_of_phone (ok : u.normalizePhone (trimSpace (u.nfkc raw)) = .ok id) : u.Settled raw :=
  fun _ _ address => absurd (atSign_mem address) (normalizePhone_plain ok)

/-- An accepted identifier normalises to itself just where the lower-cased local part is composed and short enough.
Addresses that differ in case and composition only are given the same one there, and elsewhere if they differ in case
only. -/
theorem normalize_projection (lawful : u.Lawful) :
    (∀ raw id, u.normalize raw = .ok id → (u.normalize id.value = .ok id ↔ u.Settled raw)) ∧
    (∀ raw raw' l l' d id id', u.normalize raw = .ok id → u.normalize raw' = .ok id' →
      u.address raw = some (l, d) → u.address raw' = some (l', d) → u.nfkc (u.toLower l) = u.nfkc (u.toLower l') →
        (id = id' ↔ u.toLower l = u.toLower l') ∧ (u.Settled raw → u.Settled raw' → id = id')) ∧
    (∀ k raw id, u.normalizeAs k raw = .ok id → (u.normalizeAs k id.value = .ok id ↔ u.Settled raw)) ∧
    ∀ k raw raw' l l' d id id', u.normalizeAs k raw = .ok id → u.normalizeAs k raw' = .ok id' →
      u.address raw = some (l, d) → u.address raw' = some (l', d) → u.nfkc (u.toLower l) = u.nfkc (u.toLower l') →
        (id = id' ↔ u.toLower l = u.toLower l') ∧ (u.Settled raw → u.Settled raw' → id = id') := by
  refine ⟨fun raw id ok => ⟨fun again => ?_, fun settled => ?_⟩, ?_, fun k raw id ok => ⟨fun again => ?_, fun settled => ?_⟩, ?_⟩
  · rcases normalize_ok ok with ⟨-, ok⟩ | ⟨-, ok⟩
    · rcases normalize_ok again with ⟨-, again⟩ | ⟨-, again⟩
      · exact settled_of_again lawful (by decide) ok again
      · obtain ⟨l, d, a, reads⟩ := normalizeEmail_ok ok
        obtain ⟨rfl, -⟩ := newIdentifier_ok reads.made
        exact absurd (by simp) (normalizePhone_again lawful again).2.2.1
    · exact settled_of_phone ok
  · rcases normalize_ok ok with ⟨-, ok⟩ | ⟨-, ok⟩
    · obtain ⟨fixed, again, present⟩ := email_again lawful (by decide) settled ok
      rw [normalize, fixed, if_pos (by simpa using present)]
      exact again
    · obtain ⟨fixed, again, absent, first⟩ := normalizePhone_again lawful ok
      rw [normalize, fixed, if_neg (by simpa using absent), if_pos first]
      exact again
  · intro raw raw' l l' d id id' ok ok' address address' same
    rw [normalize_eq_email address] at ok
    rw [normalize_eq_email address'] at ok'
    exact email_unique ok ok' address address' same
  · rcases normalizeAs_ok ok with ⟨k', rfl, email, reads⟩ | rfl
    · rw [reads] at ok again
      exact settled_of_again lawful email ok again
    · exact settled_of_phone ok
  · rcases normalizeAs_ok ok with ⟨k', rfl, email, reads⟩ | rfl
    · rw [reads] at ok ⊢
      obtain ⟨fixed, again, -⟩ := email_again lawful email settled ok
      rw [fixed]
      exact again
    · obtain ⟨fixed, again, -⟩ := normalizePhone_again lawful ok
      rw [normalizeAs, fixed]
      exact again
  · intro k raw raw' l l' d id id' ok ok' address address' same
    rcases normalizeAs_ok ok with ⟨k', rfl, email, reads⟩ | rfl
    · rw [reads] at ok ok'
      exact email_unique ok ok' address address' same
    · exact absurd (atSign_mem address) (normalizePhone_plain ok)

end Unicode

/-! ### Latin letters with a caron

The part of the tables that concerns ASCII, the combining caron and the letters it joins, and one capital letter whose
small one takes more bytes. -/

namespace Caron

def mark : Char := Char.ofNat 0x30C

/-- The letters that a caron joins. There is no capital J with a caron. -/
def joined : List (Char × Char) :=
  [('A', 'Ǎ'), ('C', 'Č'), ('D', 'Ď'), ('E', 'Ě'), ('G', 'Ǧ'), ('H', 'Ȟ'), ('I', 'Ǐ'), ('K', 'Ǩ'), ('L', 'Ľ'), ('N', 'Ň'),
    ('O', 'Ǒ'), ('R', 'Ř'), ('S', 'Š'), ('T', 'Ť'), ('U', 'Ǔ'), ('Z', 'Ž'), ('a', 'ǎ'), ('c', 'č'), ('d', 'ď'), ('e', 'ě'),
    ('g', 'ǧ'), ('h', 'ȟ'), ('i', 'ǐ'), ('j', 'ǰ'), ('k', 'ǩ'), ('l', 'ľ'), ('n', 'ň'), ('o', 'ǒ'), ('r', 'ř'), ('s', 'š'),
    ('t', 'ť'), ('u', 'ǔ'), ('z', 'ž')]

def cases : List (Char × Char) :=
  ("ABCDEFGHIJKLMNOPQRSTUVWXYZ".toList.zip "abcdefghijklmnopqrstuvwxyz".toList) ++
    [('Ǎ', 'ǎ'), ('Č', 'č'), ('Ď', 'ď'), ('Ě', 'ě'), ('Ǧ', 'ǧ'), ('Ȟ', 'ȟ'), ('Ǐ', 'ǐ'), ('Ǩ', 'ǩ'), ('Ľ', 'ľ'), ('Ň', 'ň'),
      ('Ǒ', 'ǒ'), ('Ř', 'ř'), ('Š', 'š'), ('Ť', 'ť'), ('Ǔ', 'ǔ'), ('Ž', 'ž'), ('Ⱥ', 'ⱥ')]

def join : Rune → Text → Text
  | .char b, .char m :: rest =>
    if m = mark then (joined.lookup b).elim (.char b :: .char m :: rest) fun c => .char c :: rest
    else .char b :: .char m :: rest
  | r, rest => r :: rest

def compose (s : Text) : Text := s.foldr join []

def unicode : Unicode where
  nfkc := compose
  lower c := (cases.lookup c).getD c
  upper c := (cases.lookup c).isSome
  letter c := (joined.map Prod.snd).contains c || c == 'Ⱥ' || c == 'ⱥ'
  digit _ := false
  mark c := c == mark
  toASCII d := if d.all labelled then some d else none

theorem join_append (r : Rune) (s : Text) {t : Text} (apart : t.head? ≠ some (.char mark)) :
    join r (s ++ t) = join r s ++ t := by
  cases r with
  | stray b => rfl
  | char b =>
    cases s with
    | nil =>
      cases t with
      | nil => rfl
      | cons r t =>
        cases r with
        | stray => rfl
        | char m =>
          have other : m ≠ mark := fun same => apart (by rw [same]; rfl)
          simp [join, other]
    | cons r s =>
      cases r with
      | stray => rfl
      | char m =>
        by_cases same : m = mark
        · cases found : joined.lookup b <;> simp [join, same, found]
        · simp [join, same]

theorem head_ne_mark {y : Text} (plain : ∀ r ∈ y, r.ascii = true) : y.head? ≠ some (.char mark) := by
  intro first
  have ascii := plain _ (List.mem_of_mem_head? first)
  revert ascii
  decide

theorem compose_ascii {y : Text} (plain : ∀ r ∈ y, r.ascii = true) : compose y = y := by
  induction y with
  | nil => rfl
  | cons r y ih =>
    have rest : ∀ r ∈ y, r.ascii = true := fun r' member => plain r' (by simp [member])
    have step := join_append r [] (head_ne_mark rest)
    rw [compose, List.foldr_cons, ← compose, ih rest]
    cases r <;> exact step

theorem compose_append (x : Text) {y : Text} (plain : ∀ r ∈ y, r.ascii = true) : compose (x ++ y) = compose x ++ y := by
  induction x with
  | nil => exact compose_ascii plain
  | cons r x ih =>
    rw [List.cons_append, compose, List.foldr_cons, ← compose, ih, join_append r _ (head_ne_mark plain)]
    rfl

/-- Composed text: no caron follows a letter that it joins. -/
def Composed (s : Text) : Prop := s.IsChain fun a b => b = .char mark → joined.lookup a.value = none

/-- Joining a letter to what follows it leaves both, or puts the joined letter for it and the caron. -/
theorem join_cases (r : Rune) (s : Text) :
    join r s = r :: s ∧ (s.head? = some (.char mark) → joined.lookup r.value = none) ∨
      ∃ b c rest, r = .char b ∧ s = .char mark :: rest ∧ (b, c) ∈ joined ∧ join r s = .char c :: rest := by
  cases r with
  | stray b => exact .inl ⟨rfl, fun _ => rfl⟩
  | char b =>
    cases s with
    | nil => exact .inl ⟨rfl, nofun⟩
    | cons next s =>
      cases next with
      | stray => exact .inl ⟨rfl, nofun⟩
      | char m =>
        by_cases same : m = mark
        · cases found : joined.lookup b with
          | none => exact .inl ⟨by simp [join, found], fun _ => found⟩
          | some c =>
            obtain ⟨before, after, split, -⟩ := List.lookup_eq_some_iff.mp found
            exact .inr ⟨b, c, s, rfl, by rw [same], by simp [split], by simp [join, same, found]⟩
        · exact .inl ⟨by simp [join, same], fun first => absurd (Rune.char.inj (Option.some.inj first)) same⟩

variable {s : Text}

theorem join_eq {r : Rune} (chain : Composed (r :: s)) : join r s = r :: s := by
  rcases join_cases r s with ⟨same, -⟩ | ⟨b, c, rest, rfl, rfl, listed, -⟩
  · exact same
  · have alone : joined.lookup b = none := (List.isChain_cons_cons.mp chain).1 rfl
    have other := List.lookup_eq_none_iff.mp alone _ listed
    simp at other

theorem composed_join (r : Rune) (chain : Composed s) : Composed (join r s) := by
  have letters : ∀ p ∈ joined, joined.lookup p.2 = none := by decide +kernel
  rcases join_cases r s with ⟨same, apart⟩ | ⟨b, c, rest, rfl, rfl, listed, same⟩
  · rw [same]
    refine List.isChain_cons.mpr ⟨?_, chain⟩
    rintro _ first rfl
    exact apart first
  · rw [same]
    exact List.isChain_cons.mpr ⟨fun _ _ _ => letters _ listed, (List.isChain_cons.mp chain).2⟩

theorem compose_eq (chain : Composed s) : compose s = s := by
  induction s with
  | nil => rfl
  | cons r s ih =>
    rw [compose, List.foldr_cons, ← compose, ih (List.isChain_cons.mp chain).2, join_eq chain]

theorem composed_compose (s : Text) : Composed (compose s) := by
  induction s with
  | nil => exact .nil
  | cons r s ih => exact composed_join r ih

/-- A character is its own small letter, or is listed with it. -/
theorem lower_cases (c : Char) : unicode.lower c = c ∨ (c, unicode.lower c) ∈ cases := by
  simp only [unicode]
  cases found : cases.lookup c with
  | none => exact .inl rfl
  | some d =>
    obtain ⟨before, after, split, -⟩ := List.lookup_eq_some_iff.mp found
    exact .inr (by simp [split])

theorem lower_lower (c : Char) : unicode.lower (unicode.lower c) = unicode.lower c := by
  have each : ∀ p ∈ cases, unicode.lower p.2 = p.2 := by decide +kernel
  rcases lower_cases c with same | listed
  · rw [same, same]
  · exact each _ listed

theorem toLower_compose (lower : unicode.toLower s = s) : unicode.toLower (compose s) = compose s := by
  have letters : ∀ p ∈ joined, unicode.lower p.1 = p.1 → unicode.lower p.2 = p.2 := by decide +kernel
  induction s with
  | nil => rfl
  | cons r s ih =>
    obtain ⟨first, rest⟩ := List.cons.inj lower
    have fixed := ih rest
    rw [compose, List.foldr_cons, ← compose]
    rcases join_cases r (compose s) with ⟨same, -⟩ | ⟨b, c, rest, rfl, split, listed, same⟩
    · rw [same]
      exact congrArg₂ List.cons first fixed
    · rw [split] at fixed
      rw [same]
      exact congrArg₂ List.cons (congrArg _ (letters _ listed (Rune.char.inj first))) (List.cons.inj fixed).2

theorem lawful : unicode.Lawful where
  nfkc_nil := rfl
  nfkc_nfkc x := compose_eq (composed_compose x)
  nfkc_part x y part whole := compose_eq ( List.IsChain.infix (whole ▸ composed_compose y : Composed y) part)
  nfkc_ascii x y plain := compose_append x plain
  lower_lower := lower_lower
  lower_dot c := by
    have each : ∀ p ∈ cases, p.1 ≠ '.' ∧ p.2 ≠ '.' := by decide +kernel
    rcases lower_cases c with same | listed
    · rw [same]
    · exact ⟨fun dot => absurd dot (each _ listed).2, fun dot => absurd dot (each _ listed).1⟩
  lower_word c word := by
    have each : ∀ p ∈ cases, unicode.word p.2 = true := by decide +kernel
    rcases lower_cases c with same | listed
    · rwa [same]
    · exact each _ listed
  lower_nfkc x _ := toLower_compose (by
    simp only [Unicode.toLower, List.map_map]
    exact List.map_congr_left fun r _ => congrArg Rune.char (lower_lower r.value))
  toASCII_label d a label := by
    simp only [unicode] at label ⊢
    split at label
    next whole =>
      cases label
      rw [if_pos whole]
    next => cases label

def raw : Text := text "Č@example.com"

theorem raw_settled : unicode.Settled raw := by
  intro l d address
  have read : unicode.address raw = some (text "Č", text "example.com") := by decide +kernel
  cases read.symm.trans address
  decide +kernel

def apart : Text := .char 'J' :: .char mark :: text "@example.com"

def growing : Text := List.replicate 32 (.char 'Ⱥ') ++ text "@example.com"

end Caron

theorem normalize_projection_caron :
    Caron.unicode.normalize (text "č@example.com") = .ok ⟨.email, text "č@example.com"⟩ ∧
      ¬ Caron.unicode.Settled Caron.apart := by
  obtain ⟨fixed, -⟩ := Unicode.normalize_projection Caron.lawful
  refine ⟨(fixed Caron.raw ⟨.email, text "č@example.com"⟩ (by decide +kernel)).mpr Caron.raw_settled, fun settled => ?_⟩
  have again := (fixed Caron.apart ⟨.email, .char 'j' :: .char Caron.mark :: text "@example.com"⟩ (by decide +kernel)).mpr
    settled
  revert again
  decide +kernel

/-- Lower-casing undoes the composed form and lengthens the local part: the identifier normalises to another one, two
spellings of an address are given two, and a third is refused once it is normalised. -/
theorem normalize_not_projection : ∃ u : Unicode, u.Lawful ∧
    (∃ raw id id', u.normalize raw = .ok id ∧ u.normalize id.value = .ok id' ∧ id' ≠ id) ∧
    (∃ raw raw' l l' d id id', u.normalize raw = .ok id ∧ u.normalize raw' = .ok id' ∧ u.address raw = some (l, d) ∧
      u.address raw' = some (l', d) ∧ u.nfkc (u.toLower l) = u.nfkc (u.toLower l') ∧ id ≠ id') ∧
    ∃ raw id err, u.normalize raw = .ok id ∧ u.normalize id.value = .error err := by
  refine ⟨Caron.unicode, Caron.lawful, ⟨Caron.apart, ⟨.email, .char 'j' :: .char Caron.mark :: text "@example.com"⟩,
    ⟨.email, text "ǰ@example.com"⟩, ?_⟩, ⟨Caron.apart, text "ǰ@example.com", [.char 'J', .char Caron.mark], text "ǰ",
    text "example.com", ⟨.email, .char 'j' :: .char Caron.mark :: text "@example.com"⟩,
    ⟨.email, text "ǰ@example.com"⟩, ?_⟩, ⟨Caron.growing,
    ⟨.email, List.replicate 32 (.char 'ⱥ') ++ text "@example.com"⟩, .invalidIdentifier "", ?_⟩⟩
  · decide +kernel
  · decide +kernel
  · decide +kernel

end Egauth.Identity
