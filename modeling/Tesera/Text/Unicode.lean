import Mathlib

/-!
Texts as sequences of numbers. A Python `str` is a list of code points, and a
JavaScript string a list of UTF-16 code units; both may hold lone surrogates,
which Lean's `Char` cannot, so the characters are natural numbers here. UTF-8 is
core Lean's own encoder and decoder, read at this type.
-/

namespace Tesera.Text.Unicode

abbrev Str := List Nat
abbrev Bytes := List UInt8

/-- A text literal of the source. -/
def lit (text : String) : Str := text.toList.map Char.toNat

@[simp] theorem lit_inj (a b : String) : lit a = lit b ↔ a = b := by
  constructor
  · intro same
    have injective : Function.Injective (List.map Char.toNat) :=
      List.map_injective_iff.mpr (fun _ _ equal => Char.toNat_inj.mp equal)
    exact String.toList_inj.mp (injective same)
  · rintro rfl
    rfl

/-! ## UTF-8 -/

/-- The Unicode scalar value with this number; surrogates have none. -/
def scalar? (n : Nat) : Option Char :=
  if valid : n.isValidChar then some (Char.ofNatAux n valid) else none

theorem scalar?_toNat (c : Char) : scalar? c.toNat = some c := by
  have valid : c.toNat.isValidChar := c.valid
  simp only [scalar?, dif_pos valid, Option.some.injEq]
  exact Char.toNat_inj.mp rfl

theorem toNat_of_scalar? {n : Nat} {c : Char} (found : scalar? n = some c) : c.toNat = n := by
  unfold scalar? at found
  split at found
  · cases found
    rfl
  · cases found

/-- `str.encode("utf-8")`: fails on a surrogate. -/
def utf8Encode (text : Str) : Option Bytes :=
  (text.mapM scalar?).map (fun chars => chars.flatMap String.utf8EncodeChar)

/-- `bytes.decode("utf-8")`. -/
def utf8Decode (bytes : Bytes) : Option Str :=
  bytes.toByteArray.utf8Decode?.map (fun chars => chars.toList.map Char.toNat)

theorem mapM_scalar?_toNat (chars : List Char) :
    (chars.map Char.toNat).mapM scalar? = some chars := by
  induction chars with
  | nil => rfl
  | cons c chars ih => simp [scalar?_toNat, ih]

theorem map_toNat_of_mapM_scalar? {text : Str} {chars : List Char}
    (scalars : text.mapM scalar? = some chars) : chars.map Char.toNat = text := by
  induction text generalizing chars with
  | nil =>
    simp only [List.mapM_nil, Option.pure_def, Option.some.injEq] at scalars
    subst chars
    rfl
  | cons n text ih =>
    simp only [List.mapM_cons, Option.bind_eq_bind, Option.pure_def,
      Option.bind_eq_some_iff] at scalars
    obtain ⟨c, head, tail, rest, same⟩ := scalars
    cases same
    simp only [List.map_cons, toNat_of_scalar? head, ih rest]

/-- The bytes a text encodes to are those of its characters. -/
theorem utf8Encode_eq_some {text : Str} {bytes : Bytes} :
    utf8Encode text = some bytes ↔
      ∃ chars : List Char, chars.map Char.toNat = text ∧
        chars.flatMap String.utf8EncodeChar = bytes := by
  constructor
  · intro encoded
    simp only [utf8Encode, Option.map_eq_some_iff] at encoded
    obtain ⟨chars, scalars, flat⟩ := encoded
    exact ⟨chars, map_toNat_of_mapM_scalar? scalars, flat⟩
  · rintro ⟨chars, rfl, rfl⟩
    simp only [utf8Encode, mapM_scalar?_toNat, Option.map_some]

theorem utf8Decode_flatMap (chars : List Char) :
    utf8Decode (chars.flatMap String.utf8EncodeChar) = some (chars.map Char.toNat) := by
  have decoded : (chars.flatMap String.utf8EncodeChar).toByteArray.utf8Decode? =
      some chars.toArray := by
    simpa only [List.utf8Encode] using (List.utf8Decode?_utf8Encode (l := chars))
  simp only [utf8Decode, decoded, Option.map_some]

theorem utf8Decode_encode {text : Str} {bytes : Bytes}
    (encoded : utf8Encode text = some bytes) : utf8Decode bytes = some text := by
  obtain ⟨chars, rfl, rfl⟩ := utf8Encode_eq_some.mp encoded
  exact utf8Decode_flatMap chars

theorem utf8Encode_decode {text : Str} {bytes : Bytes}
    (decoded : utf8Decode bytes = some text) : utf8Encode text = some bytes := by
  simp only [utf8Decode, Option.map_eq_some_iff] at decoded
  obtain ⟨chars, found, rfl⟩ := decoded
  have valid : bytes.toByteArray.utf8Decode?.isSome := by rw [found]; rfl
  have same := ByteArray.utf8Encode_get_utf8Decode? (b := bytes.toByteArray) (h := valid)
  simp only [found, Option.get_some, List.utf8Encode] at same
  exact utf8Encode_eq_some.mpr ⟨chars.toList, rfl, List.toByteArray_inj.mp same⟩

theorem utf8Encode_injective {a b : Str} {bytes : Bytes}
    (left : utf8Encode a = some bytes) (right : utf8Encode b = some bytes) : a = b :=
  Option.some.inj ((utf8Decode_encode left).symm.trans (utf8Decode_encode right))

theorem utf8Encode_append {a b : Str} {left right : Bytes}
    (first : utf8Encode a = some left) (second : utf8Encode b = some right) :
    utf8Encode (a ++ b) = some (left ++ right) := by
  obtain ⟨chars, rfl, rfl⟩ := utf8Encode_eq_some.mp first
  obtain ⟨more, rfl, rfl⟩ := utf8Encode_eq_some.mp second
  exact utf8Encode_eq_some.mpr ⟨chars ++ more, by simp, by simp⟩

theorem utf8Encode_split {a b : Str} {bytes : Bytes} (encoded : utf8Encode (a ++ b) = some bytes) :
    ∃ left right, bytes = left ++ right ∧ utf8Encode a = some left ∧ utf8Encode b = some right := by
  obtain ⟨chars, same, rfl⟩ := utf8Encode_eq_some.mp encoded
  obtain ⟨first, second, rfl, rfl, rfl⟩ := List.map_eq_append_iff.mp same
  exact ⟨_, _, List.flatMap_append, utf8Encode_eq_some.mpr ⟨first, rfl, rfl⟩,
    utf8Encode_eq_some.mpr ⟨second, rfl, rfl⟩⟩

/-- One ASCII character is one byte of the same value. -/
theorem utf8Encode_ascii (n : Nat) (ascii : n < 128) :
    utf8Encode [n] = some [UInt8.ofNat n] := by
  have valid : n.isValidChar := Or.inl (by omega)
  have value : (Char.ofNatAux n valid).val.toNat = n := rfl
  refine utf8Encode_eq_some.mpr ⟨[Char.ofNatAux n valid], rfl, ?_⟩
  simp only [List.flatMap_cons, List.flatMap_nil, List.append_nil, String.utf8EncodeChar, value]
  rw [if_pos (by omega)]

/-- Every byte of a character past ASCII has its top bit set. -/
theorem ascii_of_mem_utf8EncodeChar {c : Char} {b : UInt8} (ascii : b.toNat < 128)
    (member : b ∈ String.utf8EncodeChar c) : c.toNat = b.toNat := by
  have value : c.val.toNat = c.toNat := rfl
  unfold String.utf8EncodeChar at member
  simp only [value] at member
  split_ifs at member with one two three
  · simp only [List.mem_singleton] at member
    subst member
    simp only [UInt8.toNat_ofNat']
    omega
  all_goals
    simp only [List.mem_cons, List.not_mem_nil, or_false] at member
    rcases member with rfl | rfl | rfl | rfl <;> simp at ascii <;> omega

theorem mem_of_mem_utf8Encode {text : Str} {bytes : Bytes} {b : UInt8}
    (encoded : utf8Encode text = some bytes) (ascii : b.toNat < 128) (member : b ∈ bytes) :
    b.toNat ∈ text := by
  obtain ⟨chars, rfl, rfl⟩ := utf8Encode_eq_some.mp encoded
  obtain ⟨c, found, inside⟩ := List.mem_flatMap.mp member
  rw [← ascii_of_mem_utf8EncodeChar ascii inside]
  exact List.mem_map_of_mem found

/-! ## UTF-16 -/

def isHigh (n : Nat) : Bool := decide (0xD800 ≤ n ∧ n < 0xDC00)
def isLow (n : Nat) : Bool := decide (0xDC00 ≤ n ∧ n < 0xE000)

/-- The code point of a surrogate pair. -/
def combine (high low : Nat) : Nat := 0x10000 + (high - 0xD800) * 0x400 + (low - 0xDC00)

/-- The code units of one code point. -/
def unitsOf (n : Nat) : Str :=
  if n < 0x10000 then [n]
  else [0xD800 + (n - 0x10000) / 0x400, 0xDC00 + (n - 0x10000) % 0x400]

def utf16Encode (text : Str) : Str := text.flatMap unitsOf

/-- The code points of a string of code units; an unpaired surrogate reads as U+FFFD,
as it does when JavaScript encodes a string to UTF-8. -/
def utf16Decode : Str → Str
  | [] => []
  | [unit] => [if isHigh unit || isLow unit then 0xFFFD else unit]
  | unit :: next :: rest =>
      if isHigh unit && isLow next then combine unit next :: utf16Decode rest
      else (if isHigh unit || isLow unit then 0xFFFD else unit) :: utf16Decode (next :: rest)

/-- A code point that is a Unicode scalar value. -/
def IsScalar (n : Nat) : Prop := n < 0xD800 ∨ (0xE000 ≤ n ∧ n < 0x110000)

instance (n : Nat) : Decidable (IsScalar n) := inferInstanceAs (Decidable (_ ∨ _))

theorem not_surrogate_of_isScalar {n : Nat} (scalar : IsScalar n) :
    (isHigh n || isLow n) = false := by
  simp only [isHigh, isLow, IsScalar] at *
  simp only [Bool.or_eq_false_iff, decide_eq_false_iff_not]
  omega

theorem combine_units (n : Nat) (astral : 0x10000 ≤ n) :
    combine (0xD800 + (n - 0x10000) / 0x400) (0xDC00 + (n - 0x10000) % 0x400) = n := by
  unfold combine
  omega

theorem utf16Decode_cons_of_not_high {unit : Nat} (rest : Str)
    (plain : (isHigh unit || isLow unit) = false) :
    utf16Decode (unit :: rest) = unit :: utf16Decode rest := by
  obtain ⟨high, low⟩ := Bool.or_eq_false_iff.mp plain
  cases rest with
  | nil => simp only [utf16Decode, plain, Bool.false_eq_true, if_false]
  | cons next rest =>
    simp only [utf16Decode, high, low, Bool.false_and, Bool.or_self, Bool.false_eq_true, if_false]

theorem utf16Decode_unitsOf {n : Nat} (scalar : IsScalar n) (rest : Str) :
    utf16Decode (unitsOf n ++ rest) = n :: utf16Decode rest := by
  by_cases basic : n < 0x10000
  · simp only [unitsOf, if_pos basic, List.singleton_append]
    exact utf16Decode_cons_of_not_high rest (not_surrogate_of_isScalar scalar)
  · have high : isHigh (0xD800 + (n - 0x10000) / 0x400) = true := by
      simp only [isHigh, IsScalar] at *
      simp only [decide_eq_true_eq]
      omega
    have low : isLow (0xDC00 + (n - 0x10000) % 0x400) = true := by
      simp only [isLow, decide_eq_true_eq]
      omega
    simp only [unitsOf, if_neg basic, List.cons_append, List.nil_append, utf16Decode, high, low,
      Bool.and_self, if_true]
    rw [combine_units n (by omega)]

/-- Well-formed text survives the trip through UTF-16. -/
theorem utf16Decode_encode {text : Str} (scalars : ∀ n ∈ text, IsScalar n) :
    utf16Decode (utf16Encode text) = text := by
  induction text with
  | nil => rfl
  | cons n text ih =>
    have head : IsScalar n := scalars n (by simp)
    have tail := ih (fun m member => scalars m (List.mem_cons_of_mem n member))
    simp only [utf16Encode, List.flatMap_cons] at tail ⊢
    rw [utf16Decode_unitsOf head, tail]

theorem utf16Encode_injective {a b : Str} (left : ∀ n ∈ a, IsScalar n) (right : ∀ n ∈ b, IsScalar n)
    (same : utf16Encode a = utf16Encode b) : a = b := by
  rw [← utf16Decode_encode left, same, utf16Decode_encode right]

end Tesera.Text.Unicode
