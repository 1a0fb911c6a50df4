import Tesera.Text.Unicode

/-!
Number tokens. A token has the shape the JSON grammar gives it, an optional sign, a
whole part without leading zeros, and optional fraction and exponent. The reader
takes the longest token at the head of a text and is inverse to spelling it out.
-/

namespace Tesera.Text.Number
open Tesera.Text.Unicode

def isDigit (c : Nat) : Bool := decide (48 ≤ c ∧ c ≤ 57)

theorem isDigit_iff {c : Nat} : isDigit c = true ↔ 48 ≤ c ∧ c ≤ 57 := by
  simp only [isDigit, decide_eq_true_eq]

/-- A nonempty run of decimal digits. -/
structure Digits where
  text : Str
  nonempty : text ≠ []
  digits : ∀ c ∈ text, isDigit c = true
  deriving DecidableEq

namespace Digits

def zero : Digits := ⟨[48], by decide, by decide⟩

/-- The numerals 0 to 9 the run spells. -/
def values (run : Digits) : List Nat := run.text.map (· - 48)

theorem values_lt (run : Digits) : ∀ d ∈ run.values, d < 10 := by
  intro d member
  obtain ⟨c, inside, rfl⟩ := List.mem_map.mp member
  have bounds := isDigit_iff.mp (run.digits c inside)
  omega

theorem values_ne_nil (run : Digits) : run.values ≠ [] := by
  simpa [values] using run.nonempty

/-- The run that spells these numerals. -/
def ofValues (values : List Nat) (nonempty : values ≠ []) (small : ∀ d ∈ values, d < 10) : Digits where
  text := values.map (48 + ·)
  nonempty := by simpa using nonempty
  digits := by
    intro c member
    obtain ⟨d, inside, rfl⟩ := List.mem_map.mp member
    have := small d inside
    exact isDigit_iff.mpr (by omega)

@[simp] theorem values_ofValues (values : List Nat) (nonempty) (small) :
    (ofValues values nonempty small).values = values := by
  simp [Digits.values, ofValues, Function.comp_def]

theorem ext_text {a b : Digits} (same : a.text = b.text) : a = b := by
  cases a
  cases b
  cases same
  rfl

/-- The number a run of digits denotes. -/
def toNat (run : Digits) : Nat := Nat.ofDigits 10 run.values.reverse

end Digits

/-- Decimal digits of a natural number, most significant first. -/
def natValues (n : Nat) : List Nat := if n = 0 then [0] else (Nat.digits 10 n).reverse

theorem natValues_ne_nil (n : Nat) : natValues n ≠ [] := by
  unfold natValues
  split_ifs with zero
  · simp
  · simpa using Nat.digits_ne_nil_iff_ne_zero.mpr zero

theorem natValues_lt (n : Nat) : ∀ d ∈ natValues n, d < 10 := by
  intro d member
  unfold natValues at member
  split_ifs at member with zero
  · simp only [List.mem_singleton] at member
    omega
  · exact Nat.digits_lt_base (by decide) (List.mem_reverse.mp member)

/-- `str(n)` for a natural number. -/
def decimal (n : Nat) : Digits := Digits.ofValues (natValues n) (natValues_ne_nil n) (natValues_lt n)

@[simp] theorem toNat_decimal (n : Nat) : (decimal n).toNat = n := by
  unfold Digits.toNat decimal
  rw [Digits.values_ofValues]
  unfold natValues
  split_ifs with zero
  · subst n
    rfl
  · rw [List.reverse_reverse, Nat.ofDigits_digits]

theorem decimal_injective {m n : Nat} (same : decimal m = decimal n) : m = n := by
  rw [← toNat_decimal m, same, toNat_decimal]

/-- No leading zero, except in zero itself. -/
def Canonical (run : Digits) : Prop := run.text.head? = some 48 → run.text = [48]

theorem canonical_zero : Canonical Digits.zero := fun _ => rfl

theorem canonical_ofValues {values : List Nat} (nonempty) (small)
    (head : values.head? ≠ some 0) : Canonical (Digits.ofValues values nonempty small) := by
  intro zero
  exfalso
  apply head
  simp only [Digits.ofValues, List.head?_map, Option.map_eq_some_iff] at zero
  obtain ⟨d, first, value⟩ := zero
  rw [first]
  congr 1
  omega

theorem canonical_decimal (n : Nat) : Canonical (decimal n) := by
  by_cases zero : n = 0
  · subst n
    intro _
    rfl
  · apply canonical_ofValues
    have positive := Nat.getLast_digit_ne_zero 10 zero
    have digits := Nat.digits_ne_nil_iff_ne_zero (b := 10).mpr zero
    simp only [natValues, if_neg zero, List.head?_reverse, List.getLast?_eq_some_getLast digits]
    intro same
    exact positive (Option.some.inj same)

/-- A canonical run of digits is the decimal of its number. -/
theorem decimal_toNat {run : Digits} (canonical : Canonical run) : decimal run.toNat = run := by
  have text_values : run.values.map (48 + ·) = run.text := by
    have back : ∀ c ∈ run.text, 48 + (c - 48) = c := by
      intro c member
      have := isDigit_iff.mp (run.digits c member)
      omega
    rw [Digits.values, List.map_map]
    exact (List.map_congr_left back).trans (List.map_id' run.text)
  have values : natValues run.toNat = run.values := by
    have nonempty := run.values_ne_nil
    by_cases head : run.text.head? = some 48
    · have zero : run.values = [0] := by rw [Digits.values, canonical head]; rfl
      simp [natValues, Digits.toNat, zero]
    · have first : run.values.head nonempty ≠ 0 := by
        intro zero
        apply head
        rw [← text_values, List.head?_map, List.head?_eq_some_head nonempty, zero]
        rfl
      have digits : Nat.digits 10 run.toNat = run.values.reverse := by
        refine Nat.digits_ofDigits 10 (by decide) _ ?_ ?_
        · intro d member
          exact run.values_lt d (List.mem_reverse.mp member)
        · intro _
          rw [List.getLast_reverse]
          exact first
      have positive : run.toNat ≠ 0 := by
        intro zero
        rw [zero, Nat.digits_zero] at digits
        exact nonempty (List.reverse_eq_nil_iff.mp digits.symm)
      rw [natValues, if_neg positive, digits, List.reverse_reverse]
  apply Digits.ext_text
  rw [← text_values, ← values]
  rfl

/-! ## Tokens -/

structure Exponent where
  upper : Bool
  sign : Option Bool
  digits : Digits
  deriving DecidableEq

/-- The shape `-?(0|[1-9]\d*)(\.\d+)?([eE][+-]?\d+)?` of a JSON number. -/
structure Token where
  neg : Bool
  whole : Digits
  canonical : Canonical whole
  frac : Option Digits
  exp : Option Exponent
  deriving DecidableEq

namespace Exponent

def signText (e : Exponent) : Str :=
  match e.sign with
  | none => []
  | some false => [43]
  | some true => [45]

def text (e : Exponent) : Str := (if e.upper then 69 else 101) :: (e.signText ++ e.digits.text)

def toInt (e : Exponent) : Int :=
  if e.sign = some true then -(e.digits.toNat : Int) else e.digits.toNat

end Exponent

namespace Token

def fracText (token : Token) : Str :=
  match token.frac with
  | none => []
  | some run => 46 :: run.text

def expText (token : Token) : Str :=
  match token.exp with
  | none => []
  | some e => e.text

def text (token : Token) : Str :=
  (if token.neg then [45] else []) ++ (token.whole.text ++ (token.fracText ++ token.expText))

/-- The token of an integer: no fraction and no exponent. -/
def IsInt (token : Token) : Prop := token.frac = none ∧ token.exp = none

instance (token : Token) : Decidable token.IsInt := inferInstanceAs (Decidable (_ ∧ _))

/-- `str(n)` for an integer. -/
def ofInt (n : Int) : Token where
  neg := decide (n < 0)
  whole := decimal n.natAbs
  canonical := canonical_decimal n.natAbs
  frac := none
  exp := none

/-- `int(token)`. -/
def toInt (token : Token) : Int :=
  if token.neg then -(token.whole.toNat : Int) else token.whole.toNat

@[simp] theorem toInt_ofInt (n : Int) : (ofInt n).toInt = n := by
  simp only [toInt, ofInt, toNat_decimal, decide_eq_true_eq]
  split_ifs <;> omega

theorem isInt_ofInt (n : Int) : (ofInt n).IsInt := ⟨rfl, rfl⟩

end Token

/-! ## Reading tokens -/

/-- The characters before which a run of digits ends. -/
def DigitsEnd (rest : Str) : Prop := ∀ c ∈ rest.head?, isDigit c = false

def lexDigits (text : Str) : Option (Digits × Str) :=
  if found : text.takeWhile isDigit ≠ [] then
    some (⟨text.takeWhile isDigit, found, fun _ member => List.mem_takeWhile_imp member⟩,
      text.dropWhile isDigit)
  else none

theorem takeWhile_of_digitsEnd {rest : Str} (ends : DigitsEnd rest) : rest.takeWhile isDigit = [] := by
  cases rest with
  | nil => rfl
  | cons c rest => simp [ends c (by simp)]

theorem dropWhile_of_digitsEnd {rest : Str} (ends : DigitsEnd rest) :
    rest.dropWhile isDigit = rest := by
  cases rest with
  | nil => rfl
  | cons c rest => simp [ends c (by simp)]

theorem digitsEnd_dropWhile (text : Str) : DigitsEnd (text.dropWhile isDigit) := by
  intro c head
  have stopped := List.head?_dropWhile_not isDigit text
  rw [Option.mem_def.mp head] at stopped
  exact stopped

theorem lexDigits_append (run : Digits) {rest : Str} (ends : DigitsEnd rest) :
    lexDigits (run.text ++ rest) = some (run, rest) := by
  have taken : (run.text ++ rest).takeWhile isDigit = run.text := by
    rw [List.takeWhile_append_of_pos run.digits, takeWhile_of_digitsEnd ends, List.append_nil]
  have dropped : (run.text ++ rest).dropWhile isDigit = rest := by
    rw [List.dropWhile_append_of_pos run.digits, dropWhile_of_digitsEnd ends]
  simp only [lexDigits, taken, dropped, ne_eq, run.nonempty, not_false_eq_true, dite_true]

theorem lexDigits_of_digitsEnd {text : Str} (ends : DigitsEnd text) : lexDigits text = none := by
  simp only [lexDigits, takeWhile_of_digitsEnd ends, ne_eq, not_true_eq_false, dite_false]

theorem lexDigits_sound {text rest : Str} {run : Digits}
    (found : lexDigits text = some (run, rest)) : text = run.text ++ rest ∧ DigitsEnd rest := by
  unfold lexDigits at found
  split at found
  · cases found
    exact ⟨List.takeWhile_append_dropWhile.symm, digitsEnd_dropWhile text⟩
  · cases found

theorem digitsEnd_of_lexDigits {text : Str} (missing : lexDigits text = none) : DigitsEnd text := by
  unfold lexDigits at missing
  split at missing
  · cases missing
  · next absent =>
    simp only [ne_eq, not_not] at absent
    have split := List.takeWhile_append_dropWhile (p := isDigit) (l := text)
    rw [absent, List.nil_append] at split
    rw [← split]
    exact digitsEnd_dropWhile text

/-- `0|[1-9]\d*` at the head of a text. -/
def lexWhole : Str → Option ({run : Digits // Canonical run} × Str)
  | [] => none
  | c :: rest =>
      if zero : c = 48 then some (⟨Digits.zero, canonical_zero⟩, rest)
      else if digit : isDigit c = true then
        some (⟨⟨c :: rest.takeWhile isDigit, by simp, by
            intro d member
            rcases List.mem_cons.mp member with rfl | inside
            · exact digit
            · exact List.mem_takeWhile_imp inside⟩,
          fun leading => absurd (Option.some.inj leading) zero⟩,
          rest.dropWhile isDigit)
      else none

/-- `(\.\d+)?`. -/
def lexFrac : Str → Option Digits × Str
  | [] => (none, [])
  | c :: rest =>
      if c = 46 then
        match lexDigits rest with
        | some (run, rest') => (some run, rest')
        | none => (none, c :: rest)
      else (none, c :: rest)

def lexSign : Str → Option Bool × Str
  | [] => (none, [])
  | c :: rest => if c = 43 then (some false, rest) else if c = 45 then (some true, rest) else (none, c :: rest)

/-- `([eE][+-]?\d+)?`. -/
def lexExp : Str → Option Exponent × Str
  | [] => (none, [])
  | c :: rest =>
      if c = 101 ∨ c = 69 then
        match lexDigits (lexSign rest).2 with
        | some (run, rest') => (some ⟨decide (c = 69), (lexSign rest).1, run⟩, rest')
        | none => (none, c :: rest)
      else (none, c :: rest)

/-- A number token at the head of a text, as the regular expression matches it. -/
def lexNumber (text : Str) : Option (Token × Str) :=
  let neg := decide (text.head? = some 45)
  match lexWhole (if neg then text.tail else text) with
  | none => none
  | some (whole, rest) =>
      let frac := lexFrac rest
      let exp := lexExp frac.2
      some (⟨neg, whole.1, whole.2, frac.1, exp.1⟩, exp.2)

/-- The characters a number token cannot swallow. -/
def TokenEnd (rest : Str) : Prop :=
  ∀ c ∈ rest.head?, isDigit c = false ∧ c ≠ 46 ∧ c ≠ 101 ∧ c ≠ 69

theorem TokenEnd.digitsEnd {rest : Str} (ends : TokenEnd rest) : DigitsEnd rest :=
  fun c head => (ends c head).1

theorem lexWhole_append (run : Digits) (canonical : Canonical run) {rest : Str}
    (ends : DigitsEnd rest) : lexWhole (run.text ++ rest) = some (⟨run, canonical⟩, rest) := by
  obtain ⟨text, nonempty, digits⟩ := run
  cases text with
  | nil => exact absurd rfl nonempty
  | cons c tail =>
    by_cases zero : c = 48
    · subst c
      have alone := canonical rfl
      simp only [List.cons.injEq, true_and] at alone
      subst tail
      rfl
    · have digit : isDigit c = true := digits c (by simp)
      have inside : ∀ d ∈ tail, isDigit d = true := fun d member => digits d (by simp [member])
      simp only [List.cons_append, lexWhole, dif_neg zero, dif_pos digit]
      rw [List.dropWhile_append_of_pos inside, dropWhile_of_digitsEnd ends]
      simp only [Option.some.injEq, Prod.mk.injEq, and_true]
      apply Subtype.ext
      apply Digits.ext_text
      simp only [List.takeWhile_append_of_pos inside, takeWhile_of_digitsEnd ends, List.append_nil]

theorem lexWhole_sound {text rest : Str} {run : {run : Digits // Canonical run}}
    (found : lexWhole text = some (run, rest)) : text = run.1.text ++ rest := by
  cases text with
  | nil => cases found
  | cons c tail =>
    simp only [lexWhole] at found
    split_ifs at found with zero digit
    · cases found
      subst c
      rfl
    · cases found
      simp only [List.cons_append, List.takeWhile_append_dropWhile]

theorem lexSign_signText (e : Exponent) (rest : Str) :
    lexSign (e.signText ++ (e.digits.text ++ rest)) = (e.sign, e.digits.text ++ rest) := by
  obtain ⟨upper, sign, ⟨text, nonempty, digits⟩⟩ := e
  cases text with
  | nil => exact absurd rfl nonempty
  | cons c tail =>
    have bounds := isDigit_iff.mp (digits c (by simp))
    have plus : c ≠ 43 := by omega
    have minus : c ≠ 45 := by omega
    cases sign with
    | none => simp [Exponent.signText, lexSign, plus, minus]
    | some negative => cases negative <;> simp [Exponent.signText, lexSign]

theorem lexSign_sound (text : Str) (e : Exponent) (sign : e.sign = (lexSign text).1) :
    text = e.signText ++ (lexSign text).2 := by
  cases text with
  | nil => simp only [lexSign] at sign ⊢; simp [Exponent.signText, sign]
  | cons c rest =>
    simp only [lexSign] at sign ⊢
    split_ifs at sign ⊢ with plus minus <;> simp_all [Exponent.signText]

theorem lexExp_append (exp : Option Exponent) {rest : Str} (ends : TokenEnd rest) :
    lexExp ((match exp with | none => [] | some e => e.text) ++ rest) = (exp, rest) := by
  cases exp with
  | none =>
    cases rest with
    | nil => rfl
    | cons c rest =>
      obtain ⟨-, -, lower, upper⟩ := ends c (by simp)
      simp [lexExp, lower, upper]
  | some e =>
    have marker : (if e.upper then 69 else 101) = 101 ∨ (if e.upper then 69 else 101) = 69 := by
      split_ifs <;> simp
    have upper : decide ((if e.upper then (69 : Nat) else 101) = 69) = e.upper := by
      cases e.upper <;> rfl
    simp only [Exponent.text, List.cons_append, List.append_assoc, lexExp, if_pos marker,
      lexSign_signText, lexDigits_append e.digits ends.digitsEnd, upper]

theorem lexExp_sound (text : Str) :
    text = (match (lexExp text).1 with | none => [] | some e => e.text) ++ (lexExp text).2 := by
  cases text with
  | nil => rfl
  | cons c rest =>
    simp only [lexExp]
    split_ifs with marker
    · cases found : lexDigits (lexSign rest).2 with
      | none => simp
      | some pair =>
        obtain ⟨run, rest'⟩ := pair
        have sign := lexSign_sound rest ⟨decide (c = 69), (lexSign rest).1, run⟩ rfl
        have tail := (lexDigits_sound found).1
        rw [tail] at sign
        simp only [Exponent.text, List.cons_append, List.append_assoc, ← sign, List.cons.injEq,
          and_true]
        rcases marker with rfl | rfl <;> rfl
    · simp

theorem lexFrac_append (token : Token) {rest : Str} (ends : TokenEnd rest) :
    lexFrac (token.fracText ++ (token.expText ++ rest)) = (token.frac, token.expText ++ rest) := by
  have stop : DigitsEnd (token.expText ++ rest) := by
    intro c head
    cases exp : token.exp with
    | none =>
      simp only [Token.expText, exp, List.nil_append] at head
      exact (ends c head).1
    | some e =>
      simp only [Token.expText, exp, Exponent.text, List.cons_append, List.head?_cons,
        Option.mem_def, Option.some.injEq] at head
      subst c
      cases e.upper <;> rfl
  cases frac : token.frac with
  | none =>
    simp only [Token.fracText, frac, List.nil_append]
    cases text : token.expText ++ rest with
    | nil => rfl
    | cons c tail =>
      have point : c ≠ 46 := by
        cases exp : token.exp with
        | none =>
          simp only [Token.expText, exp, List.nil_append] at text
          exact (ends c (by simp [text])).2.1
        | some e =>
          simp only [Token.expText, exp, Exponent.text, List.cons_append, List.cons.injEq] at text
          rw [← text.1]
          split_ifs <;> decide
      simp only [lexFrac, if_neg point]
  | some run =>
    simp only [Token.fracText, frac, List.cons_append, lexFrac, if_true, lexDigits_append run stop]

theorem lexFrac_sound (text : Str) :
    text = (match (lexFrac text).1 with | none => [] | some run => 46 :: run.text) ++ (lexFrac text).2 := by
  cases text with
  | nil => rfl
  | cons c rest =>
    simp only [lexFrac]
    split_ifs with point
    · cases found : lexDigits rest with
      | none => simp
      | some pair =>
        obtain ⟨run, rest'⟩ := pair
        simp only [point, (lexDigits_sound found).1, List.cons_append]
    · simp

/-- Reading back the text of a token gives the token, whatever cannot continue it follows. -/
theorem lexNumber_text (token : Token) {rest : Str} (ends : TokenEnd rest) :
    lexNumber (token.text ++ rest) = some (token, rest) := by
  have stop : DigitsEnd (token.fracText ++ (token.expText ++ rest)) := by
    intro c head
    cases frac : token.frac with
    | some run =>
      simp only [Token.fracText, frac, List.cons_append, List.head?_cons, Option.mem_def,
        Option.some.injEq] at head
      subst c
      rfl
    | none =>
      cases exp : token.exp with
      | some e =>
        simp only [Token.fracText, frac, Token.expText, exp, Exponent.text, List.nil_append,
          List.cons_append, List.head?_cons, Option.mem_def, Option.some.injEq] at head
        subst c
        cases e.upper <;> rfl
      | none =>
        simp only [Token.fracText, frac, Token.expText, exp, List.nil_append] at head
        exact (ends c head).1
  have unsigned : (token.whole.text ++ (token.fracText ++ (token.expText ++ rest))).head? ≠ some 45 := by
    obtain ⟨c, tail, whole⟩ := List.exists_cons_of_ne_nil token.whole.nonempty
    have digit := isDigit_iff.mp (token.whole.digits c (by simp [whole]))
    simp only [whole, List.cons_append, List.head?_cons, ne_eq, Option.some.injEq]
    omega
  have sign : decide ((token.text ++ rest).head? = some 45) = token.neg := by
    unfold Token.text
    cases token.neg
    · simpa [List.append_assoc] using unsigned
    · simp
  have unsignedText : (if token.neg then (token.text ++ rest).tail else token.text ++ rest) =
      token.whole.text ++ (token.fracText ++ (token.expText ++ rest)) := by
    unfold Token.text
    cases token.neg <;> simp [List.append_assoc]
  simp only [lexNumber, sign, unsignedText, lexWhole_append token.whole token.canonical stop,
    lexFrac_append token ends]
  simp only [Token.expText, lexExp_append token.exp ends]

theorem lexNumber_sound {text rest : Str} {token : Token}
    (found : lexNumber text = some (token, rest)) : text = token.text ++ rest := by
  simp only [lexNumber] at found
  cases whole : lexWhole (if decide (text.head? = some 45) = true then text.tail else text) with
  | none => simp only [whole, reduceCtorEq] at found
  | some pair =>
    obtain ⟨run, tail⟩ := pair
    simp only [whole, Option.some.injEq, Prod.mk.injEq] at found
    obtain ⟨rfl, rfl⟩ := found
    have unsigned := lexWhole_sound whole
    have frac := lexFrac_sound tail
    have exp := lexExp_sound (lexFrac tail).2
    rw [exp] at frac
    rw [frac] at unsigned
    simp only [Token.text, Token.fracText, Token.expText, List.append_assoc]
    rw [← unsigned]
    cases text with
    | nil => rfl
    | cons c rest =>
      by_cases minus : c = 45
      · simp [minus]
      · simp [minus]

theorem tokenEnd_nil : TokenEnd [] := by
  intro c head
  cases head

end Tesera.Text.Number
