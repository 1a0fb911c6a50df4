import Tesera.Text.JsonLocal

/-!
ASCII whitespace around a text. The whitespace of JSON changes nothing; a vertical tab or a
form feed makes the text one that does not parse. Neither makes the parser nest more deeply.
-/

namespace Tesera.Text.JsonPadding
open Tesera.Text.Unicode Tesera.Text.Number Tesera.Text.Json Tesera.Text.JsonRoundTrip Tesera.Text.JsonLocal

def Spaces (space : Str) : Prop := ∀ c ∈ space, isSpaceChar c = true

theorem isSpaceChar_iff {c : Nat} : isSpaceChar c = true ↔ c = 32 ∨ 9 ≤ c ∧ c ≤ 13 := by
  simp [isSpaceChar]

/-- A result whose rest has the whitespace after it. -/
def trail {α : Type} (back : Str) (result : Option (α × Str)) : Option (α × Str) :=
  result.map (fun r => (r.1, r.2 ++ back))

@[simp] theorem trail_none {α : Type} (back : Str) : trail (α := α) back none = none := rfl

@[simp] theorem trail_some {α : Type} (back : Str) (value : α) (rest : Str) :
    trail back (some (value, rest)) = some (value, rest ++ back) := rfl

theorem trail_map {α β : Type} (back : Str) (f : α → β) (result : Option (α × Str)) :
    trail back (result.map (fun r => (f r.1, r.2))) = (trail back result).map (fun r => (f r.1, r.2)) := by
  cases result <;> rfl

theorem trail_or {α : Type} (back : Str) (first second : Option (α × Str)) :
    trail back (first.or second) = (trail back first).or (trail back second) := by
  cases first <;> rfl

section Tokens

variable {back : Str} (spaces : Spaces back)
include spaces

theorem not_isDigit_of_spaces : ∀ c ∈ back.head?, isDigit c = false := by
  intro c head
  have range := isSpaceChar_iff.mp (spaces c (List.mem_of_mem_head? head))
  cases digit : isDigit c with
  | false => rfl
  | true =>
    have := isDigit_iff.mp digit
    omega

theorem takeWhile_isDigit_append (text : Str) : (text ++ back).takeWhile isDigit = text.takeWhile isDigit := by
  induction text with
  | nil => exact takeWhile_of_digitsEnd (not_isDigit_of_spaces spaces)
  | cons c text ih => simp only [List.cons_append, List.takeWhile_cons, ih]

theorem dropWhile_isDigit_append (text : Str) :
    (text ++ back).dropWhile isDigit = text.dropWhile isDigit ++ back := by
  induction text with
  | nil => exact dropWhile_of_digitsEnd (not_isDigit_of_spaces spaces)
  | cons c text ih =>
    simp only [List.cons_append, List.dropWhile_cons, ih]
    split_ifs <;> rfl

theorem lexDigits_trail (text : Str) : lexDigits (text ++ back) = trail back (lexDigits text) := by
  simp only [lexDigits, takeWhile_isDigit_append spaces, dropWhile_isDigit_append spaces]
  split_ifs <;> rfl

theorem lexWhole_trail (text : Str) : lexWhole (text ++ back) = trail back (lexWhole text) := by
  cases text with
  | nil =>
    cases back with
    | nil => rfl
    | cons c back =>
      have range := isSpaceChar_iff.mp (spaces c List.mem_cons_self)
      have plain := not_isDigit_of_spaces spaces c rfl
      have zero : c ≠ 48 := by omega
      simp only [List.nil_append, lexWhole, dif_neg zero, plain]
      rfl
  | cons c text =>
    simp only [List.cons_append, lexWhole, takeWhile_isDigit_append spaces, dropWhile_isDigit_append spaces]
    split_ifs <;> rfl

theorem lexFrac_trail (text : Str) : lexFrac (text ++ back) = ((lexFrac text).1, (lexFrac text).2 ++ back) := by
  cases text with
  | nil =>
    cases back with
    | nil => rfl
    | cons c back =>
      have range := isSpaceChar_iff.mp (spaces c List.mem_cons_self)
      have point : c ≠ 46 := by omega
      simp only [List.nil_append, lexFrac, if_neg point]
  | cons c text =>
    simp only [List.cons_append, lexFrac, lexDigits_trail spaces]
    split_ifs
    · cases lexDigits text <;> rfl
    · rfl

theorem lexSign_trail (text : Str) : lexSign (text ++ back) = ((lexSign text).1, (lexSign text).2 ++ back) := by
  cases text with
  | nil =>
    cases back with
    | nil => rfl
    | cons c back =>
      have range := isSpaceChar_iff.mp (spaces c List.mem_cons_self)
      have plus : c ≠ 43 := by omega
      have minus : c ≠ 45 := by omega
      simp only [List.nil_append, lexSign, if_neg plus, if_neg minus]
  | cons c text =>
    simp only [List.cons_append, lexSign]
    split_ifs <;> rfl

theorem lexExp_trail (text : Str) : lexExp (text ++ back) = ((lexExp text).1, (lexExp text).2 ++ back) := by
  cases text with
  | nil =>
    cases back with
    | nil => rfl
    | cons c back =>
      have range := isSpaceChar_iff.mp (spaces c List.mem_cons_self)
      have letter : ¬ (c = 101 ∨ c = 69) := by omega
      simp only [List.nil_append, lexExp, if_neg letter]
  | cons c text =>
    simp only [List.cons_append, lexExp, lexSign_trail spaces, lexDigits_trail spaces]
    split_ifs
    · cases lexDigits (lexSign text).2 <;> rfl
    · rfl

theorem lexNumber_trail (text : Str) : lexNumber (text ++ back) = trail back (lexNumber text) := by
  have sign : decide ((text ++ back).head? = some 45) = decide (text.head? = some 45) := by
    cases text with
    | nil =>
      cases back with
      | nil => rfl
      | cons c back =>
        have range := isSpaceChar_iff.mp (spaces c List.mem_cons_self)
        have minus : c ≠ 45 := by omega
        simp [minus]
    | cons c text => rfl
  have body : (if decide (text.head? = some 45) = true then (text ++ back).tail else text ++ back) =
      (if decide (text.head? = some 45) = true then text.tail else text) ++ back := by
    cases text with
    | nil => rfl
    | cons c text =>
      split_ifs <;> rfl
  simp only [lexNumber, sign, body, lexWhole_trail spaces]
  cases lexWhole (if decide (text.head? = some 45) = true then text.tail else text) with
  | none => rfl
  | some pair =>
    obtain ⟨whole, rest⟩ := pair
    simp only [trail_some, lexFrac_trail spaces, lexExp_trail spaces]

theorem parseLiteral_trail {word : Str} (solid : ∀ c ∈ word, isSpaceChar c = false) (value : Tree) (text : Str) :
    parseLiteral word value (text ++ back) = trail back (parseLiteral word value text) := by
  induction word generalizing text with
  | nil => rfl
  | cons c word ih =>
    cases text with
    | nil =>
      cases back with
      | nil => rfl
      | cons b back =>
        have differ : c ≠ b := by
          rintro rfl
          have plain := solid c List.mem_cons_self
          rw [spaces c List.mem_cons_self] at plain
          cases plain
        simp [parseLiteral, differ]
    | cons t text =>
      have inner := ih (fun d member => solid d (List.mem_cons_of_mem c member)) text
      by_cases same : c = t
      · subst same
        simpa [parseLiteral] using inner
      · simp [parseLiteral, same]

theorem parseScalar_trail (dialect : Dialect) (text : Str) :
    parseScalar dialect (text ++ back) = trail back (parseScalar dialect text) := by
  have number : parseNumber dialect (text ++ back) = trail back (parseNumber dialect text) := by
    simp only [parseNumber, lexNumber_trail spaces]
    cases lexNumber text with
    | none => rfl
    | some pair =>
      obtain ⟨token, rest⟩ := pair
      cases accepted : dialect.token token <;> simp [accepted, Option.filter]
  have const : parseConst dialect (text ++ back) = trail back (parseConst dialect text) := by
    unfold parseConst
    split_ifs
    · rw [parseLiteral_trail spaces (by decide), parseLiteral_trail spaces (by decide),
        parseLiteral_trail spaces (by decide), trail_or, trail_or]
    · rfl
  unfold parseScalar
  rw [parseLiteral_trail spaces (by decide), parseLiteral_trail spaces (by decide),
    parseLiteral_trail spaces (by decide), const, number, trail_or, trail_or, trail_or, trail_or]

end Tokens

/-! ## Strings -/

/-- The grammar has no stray escape of whitespace. -/
def PlainEscapes (dialect : Dialect) : Prop := ∀ c, isSpaceChar c = true → dialect.odd c = false

theorem readHex4_eq_none {text : Str} (bad : text.length < 4 ∨ ∃ c ∈ text.take 4, hexValue c = none) : readHex4 text = none := by
  cases text with
  | nil => rfl
  | cons a text =>
    cases text with
    | nil => rfl
    | cons b text =>
      cases text with
      | nil => rfl
      | cons c text =>
        cases text with
        | nil => rfl
        | cons d rest =>
          obtain few | ⟨x, member, refused⟩ := bad
          · simp only [List.length_cons] at few
            omega
          · simp only [List.take_succ_cons, List.take_zero, List.mem_cons, List.not_mem_nil, or_false] at member
            obtain rfl | rfl | rfl | rfl := member <;> simp [readHex4, refused]

section Strings

variable {back : Str} (spaces : Spaces back)
include spaces

theorem readHex4_trail (text : Str) : readHex4 (text ++ back) = trail back (readHex4 text) := by
  have short : ∀ front : Str, front.length < 4 → readHex4 (front ++ back) = none := by
    intro front few
    apply readHex4_eq_none
    cases back with
    | nil => exact .inl (by rwa [List.append_nil])
    | cons c back =>
      right
      have range := isSpaceChar_iff.mp (spaces c List.mem_cons_self)
      refine ⟨c, ?_, ?_⟩
      · obtain ⟨more, left⟩ : ∃ more, 4 - front.length = more + 1 := ⟨3 - front.length, by omega⟩
        rw [List.take_append, left, List.take_succ_cons]
        exact List.mem_append_right _ List.mem_cons_self
      · unfold hexValue
        rw [if_neg (by omega), if_neg (by omega), if_neg (by omega)]
  by_cases few : text.length < 4
  · rw [short text few, readHex4_eq_none (.inl few)]
    rfl
  · cases text with
    | nil => exact absurd (by decide) few
    | cons a text =>
      cases text with
      | nil => exact absurd (by simp) few
      | cons b text =>
        cases text with
        | nil => exact absurd (by simp) few
        | cons c text =>
          cases text with
          | nil => exact absurd (by simp) few
          | cons d rest =>
            simp only [List.cons_append, readHex4]
            cases hexValue a <;> cases hexValue b <;> cases hexValue c <;> cases hexValue d <;> rfl

theorem readEscape_trail {dialect : Dialect} (plain : PlainEscapes dialect) (text : Str) :
    readEscape dialect (text ++ back) = trail back (readEscape dialect text) := by
  cases text with
  | nil =>
    cases back with
    | nil => rfl
    | cons c back =>
      have space := spaces c List.mem_cons_self
      have range := isSpaceChar_iff.mp space
      have letter : escapeOf c = none := by
        unfold escapeOf
        rw [if_neg (by omega), if_neg (by omega), if_neg (by omega), if_neg (by omega), if_neg (by omega),
          if_neg (by omega), if_neg (by omega), if_neg (by omega)]
      have unicode : c ≠ 117 := by omega
      simp [readEscape, letter, unicode, plain c space]
  | cons c text =>
    simp only [List.cons_append, readEscape, readHex4_trail spaces]
    split_ifs
    · cases readHex4 text <;> rfl
    · cases escapeOf c <;> rfl
    · cases escapeOf c <;> rfl

theorem readString_spaces (dialect : Dialect) (fuel : Nat) : readString dialect fuel back = none := by
  induction fuel generalizing back with
  | zero => rfl
  | succ fuel ih =>
    cases back with
    | nil => rfl
    | cons c back =>
      have range := isSpaceChar_iff.mp (spaces c List.mem_cons_self)
      have inner := ih (fun d member => spaces d (List.mem_cons_of_mem c member))
      have quote : c ≠ 34 := by omega
      have slash : c ≠ 92 := by omega
      simp [readString, quote, slash, inner]

theorem readString_trail {dialect : Dialect} (plain : PlainEscapes dialect) (fuel more : Nat) (text : Str)
    (enough : text.length ≤ fuel) (longer : text.length ≤ more) :
    readString dialect more (text ++ back) = trail back (readString dialect fuel text) := by
  induction fuel generalizing text more with
  | zero =>
    rw [List.eq_nil_of_length_eq_zero (Nat.le_zero.mp enough)]
    exact readString_spaces spaces dialect more
  | succ fuel ih =>
    cases text with
    | nil => exact readString_spaces spaces dialect more
    | cons c text =>
      cases more with
      | zero => exact absurd longer (by simp)
      | succ more =>
        rw [List.length_cons] at enough longer
        simp only [List.cons_append, readString, readEscape_trail spaces plain]
        split_ifs
        · rfl
        · cases found : readEscape dialect text with
          | none => rfl
          | some pair =>
            obtain ⟨piece, rest⟩ := pair
            obtain ⟨read, shape, -⟩ := readEscape_local found
            have shorter : rest.length ≤ text.length := by
              rw [shape, List.length_append]
              omega
            simp only [trail_some, ih more rest (by omega) (by omega)]
            exact (trail_map back (piece :: ·) _).symm
        · rfl
        · rw [ih more text (by omega) (by omega)]
          exact (trail_map back (Piece.lit c :: ·) _).symm

theorem parseString_trail {dialect : Dialect} (plain : PlainEscapes dialect) (text : Str) :
    parseString dialect (text ++ back) = trail back (parseString dialect text) :=
  readString_trail spaces plain _ _ text le_rfl (by simp)

end Strings

/-! ## Values -/

section Values

variable {back : Str} (spaces : Spaces back)
include spaces

/-- After whitespace there is nothing, or a character no value begins with. -/
theorem skipWs_spaces : skipWs back = [] ∨ ∃ c rest, skipWs back = c :: rest ∧ (c = 11 ∨ c = 12) := by
  cases shape : skipWs back with
  | nil => exact Or.inl rfl
  | cons c rest =>
    obtain ⟨ws, split, -, solid⟩ := skipWs_split shape
    have space : isSpaceChar c = true := spaces c (by rw [split]; simp)
    have range := isSpaceChar_iff.mp space
    simp only [isWs, Bool.or_eq_false_iff, beq_eq_false_iff_ne] at solid
    exact Or.inr ⟨c, rest, rfl, by omega⟩

omit spaces in
theorem skipWs_trail (back text : Str) : (∃ c rest, skipWs text = c :: rest ∧ skipWs (text ++ back) = c :: (rest ++ back)) ∨
    skipWs text = [] ∧ skipWs (text ++ back) = skipWs back := by
  cases shape : skipWs text with
  | nil =>
    right
    refine ⟨rfl, ?_⟩
    unfold skipWs
    rw [List.dropWhile_append_of_pos (List.dropWhile_eq_nil_iff.mp shape)]
  | cons c rest =>
    left
    obtain ⟨ws, rfl, white, solid⟩ := skipWs_split shape
    refine ⟨c, rest, rfl, ?_⟩
    rw [List.append_assoc, List.cons_append]
    exact skipWs_append white solid _

theorem parseValue_spaces (dialect : Dialect) (fuel : Nat) : parseValue dialect fuel back = none := by
  cases fuel with
  | zero => rfl
  | succ fuel =>
    obtain nothing | ⟨c, rest, shape, odd⟩ := skipWs_spaces spaces
    · simp only [parseValue, nothing]
    · have space : isSpaceChar c = true := isSpaceChar_iff.mpr (by omega)
      have brace : c ≠ 123 := by omega
      have bracket : c ≠ 91 := by omega
      have quote : c ≠ 34 := by omega
      simp only [parseValue, shape, if_neg brace, if_neg bracket, if_neg quote]
      exact parseScalar_space dialect space rest

omit spaces in
theorem parseObject_of_nothing (dialect : Dialect) (fuel : Nat) {text : Str} (nothing : skipWs text = []) :
    parseObject dialect fuel text = none := by
  cases fuel with
  | zero => rfl
  | succ fuel => simp only [parseObject, nothing]

omit spaces in
theorem parseArray_of_nothing (dialect : Dialect) (fuel : Nat) {text : Str} (nothing : skipWs text = []) :
    parseArray dialect fuel text = none := by
  cases fuel with
  | zero => rfl
  | succ fuel =>
    have value : parseValue dialect fuel text = none := by
      cases fuel with
      | zero => rfl
      | succ fuel => simp only [parseValue, nothing]
    simp only [parseArray, value]

theorem parseValues_trail {dialect : Dialect} (plain : PlainEscapes dialect) (fuel : Nat) :
    (∀ text, parseValue dialect fuel (text ++ back) = trail back (parseValue dialect fuel text)) ∧
    (∀ text, parseArray dialect fuel (text ++ back) = trail back (parseArray dialect fuel text)) ∧
    (∀ text, parseObject dialect fuel (text ++ back) = trail back (parseObject dialect fuel text)) := by
  induction fuel with
  | zero => exact ⟨fun _ => rfl, fun _ => rfl, fun _ => rfl⟩
  | succ fuel ih =>
    obtain ⟨value, array, object⟩ := ih
    refine ⟨?_, ?_, ?_⟩
    · intro text
      obtain ⟨c, rest, shape, longer⟩ | ⟨nothing, longer⟩ := skipWs_trail back text
      · simp only [parseValue, shape, longer]
        split_ifs
        · obtain ⟨d, inner, inside, more⟩ | ⟨ended, more⟩ := skipWs_trail back rest
          · simp only [inside, more, object]
            split_ifs
            · rfl
            · exact (trail_map back Tree.obj _).symm
          · simp only [ended, more, trail_none]
            obtain none | ⟨d, inner, odd, far⟩ := skipWs_spaces spaces
            · rw [none]
            · have close : d ≠ 125 := by omega
              simp only [odd, if_neg close, object]
              rw [parseObject_of_nothing dialect fuel ended]
              rfl
        · obtain ⟨d, inner, inside, more⟩ | ⟨ended, more⟩ := skipWs_trail back rest
          · simp only [inside, more, array]
            split_ifs
            · rfl
            · exact (trail_map back Tree.arr _).symm
          · simp only [ended, more, trail_none]
            obtain none | ⟨d, inner, odd, far⟩ := skipWs_spaces spaces
            · rw [none]
            · have close : d ≠ 93 := by omega
              simp only [odd, if_neg close, array]
              rw [parseArray_of_nothing dialect fuel ended]
              rfl
        · rw [parseString_trail spaces plain]
          exact (trail_map back Tree.str _).symm
        · exact parseScalar_trail spaces dialect (c :: rest)
      · have blank := parseValue_spaces spaces dialect (fuel + 1)
        simp only [parseValue, nothing, longer, trail_none] at blank ⊢
        exact blank
    · intro text
      simp only [parseArray, value]
      cases parseValue dialect fuel text with
      | none => rfl
      | some pair =>
        obtain ⟨first, rest⟩ := pair
        simp only [trail_some]
        obtain ⟨c, after, shape, longer⟩ | ⟨nothing, longer⟩ := skipWs_trail back rest
        · simp only [shape, longer, array]
          split_ifs
          · exact (trail_map back (first :: ·) _).symm
          · rfl
          · rfl
        · simp only [nothing, longer, trail_none]
          obtain none | ⟨d, inner, odd, far⟩ := skipWs_spaces spaces
          · rw [none]
          · have comma : d ≠ 44 := by omega
            have close : d ≠ 93 := by omega
            simp only [odd, if_neg comma, if_neg close]
    · intro text
      obtain ⟨q, afterQuote, shape, longer⟩ | ⟨nothing, longer⟩ := skipWs_trail back text
      · simp only [parseObject, shape, longer, parseString_trail spaces plain]
        split_ifs
        · cases parseString dialect afterQuote with
          | none => rfl
          | some pair =>
            obtain ⟨key, afterKey⟩ := pair
            simp only [trail_some]
            obtain ⟨colon, afterColon, shape, longer⟩ | ⟨nothing, longer⟩ := skipWs_trail back afterKey
            · simp only [shape, longer, value]
              split_ifs
              · cases parseValue dialect fuel afterColon with
                | none => rfl
                | some pair =>
                  obtain ⟨first, rest⟩ := pair
                  simp only [trail_some]
                  obtain ⟨c, after, shape, longer⟩ | ⟨nothing, longer⟩ := skipWs_trail back rest
                  · simp only [shape, longer, object]
                    split_ifs
                    · exact (trail_map back ((key, first) :: ·) _).symm
                    · rfl
                    · rfl
                  · simp only [nothing, longer, trail_none]
                    obtain none | ⟨d, inner, odd, far⟩ := skipWs_spaces spaces
                    · rw [none]
                    · have comma : d ≠ 44 := by omega
                      have close : d ≠ 125 := by omega
                      simp only [odd, if_neg comma, if_neg close]
              · rfl
            · simp only [nothing, longer, trail_none]
              obtain none | ⟨d, inner, odd, far⟩ := skipWs_spaces spaces
              · rw [none]
              · have colon : d ≠ 58 := by omega
                simp only [odd, if_neg colon]
        · rfl
      · simp only [parseObject, nothing, longer, trail_none]
        obtain none | ⟨d, inner, odd, far⟩ := skipWs_spaces spaces
        · rw [none]
        · have quote : d ≠ 34 := by omega
          simp only [odd, if_neg quote]

theorem deepest_spaces (dialect : Dialect) (fuel : Nat) : deepest dialect fuel back = 0 := by
  cases fuel with
  | zero => rfl
  | succ fuel =>
    obtain nothing | ⟨c, rest, shape, odd⟩ := skipWs_spaces spaces
    · simp only [deepest, nothing]
    · have brace : c ≠ 123 := by omega
      have bracket : c ≠ 91 := by omega
      simp only [deepest, shape, if_neg brace, if_neg bracket]

omit spaces in
theorem deepest_of_nothing (dialect : Dialect) (fuel : Nat) {text : Str} (nothing : skipWs text = []) :
    deepest dialect fuel text = 0 ∧ deepestItem dialect fuel text = 0 ∧ deepestMember dialect fuel text = 0 := by
  cases fuel with
  | zero => exact ⟨rfl, rfl, rfl⟩
  | succ fuel =>
    have value : parseValue dialect fuel text = none := by
      cases fuel with
      | zero => rfl
      | succ fuel => simp only [parseValue, nothing]
    have flat : deepest dialect fuel text = 0 := by
      cases fuel with
      | zero => rfl
      | succ fuel => simp only [deepest, nothing]
    refine ⟨?_, ?_, ?_⟩
    · simp only [deepest, nothing]
    · simp only [deepestItem, value, flat]
    · simp only [deepestMember, nothing]

/-- Whitespace after a text is met at the depth the parser has reached. -/
theorem deepest_trail {dialect : Dialect} (plain : PlainEscapes dialect) (fuel : Nat) :
    (∀ text, deepest dialect fuel (text ++ back) = deepest dialect fuel text) ∧
    (∀ text, deepestItem dialect fuel (text ++ back) = deepestItem dialect fuel text) ∧
    (∀ text, deepestMember dialect fuel (text ++ back) = deepestMember dialect fuel text) := by
  induction fuel with
  | zero => exact ⟨fun _ => rfl, fun _ => rfl, fun _ => rfl⟩
  | succ fuel ih =>
    obtain ⟨value, item, member⟩ := ih
    have parsed := (parseValues_trail spaces plain fuel).1
    refine ⟨?_, ?_, ?_⟩
    · intro text
      obtain ⟨c, rest, shape, longer⟩ | ⟨nothing, longer⟩ := skipWs_trail back text
      · simp only [deepest, shape, longer]
        split_ifs
        · obtain ⟨d, inner, inside, more⟩ | ⟨ended, more⟩ := skipWs_trail back rest
          · simp only [inside, more, member]
          · simp only [ended, more]
            obtain none | ⟨d, inner, odd, far⟩ := skipWs_spaces spaces
            · rw [none]
            · have close : d ≠ 125 := by omega
              simp only [odd, if_neg close, member, (deepest_of_nothing dialect fuel ended).2.2]
        · obtain ⟨d, inner, inside, more⟩ | ⟨ended, more⟩ := skipWs_trail back rest
          · simp only [inside, more, item]
          · simp only [ended, more]
            obtain none | ⟨d, inner, odd, far⟩ := skipWs_spaces spaces
            · rw [none]
            · have close : d ≠ 93 := by omega
              simp only [odd, if_neg close, item, (deepest_of_nothing dialect fuel ended).2.1]
        · rfl
      · have flat := deepest_spaces spaces dialect (fuel + 1)
        simp only [deepest, nothing, longer] at flat ⊢
        exact flat
    · intro text
      simp only [deepestItem, parsed, value]
      cases parseValue dialect fuel text with
      | none => rfl
      | some pair =>
        obtain ⟨first, rest⟩ := pair
        simp only [trail_some]
        obtain ⟨c, after, shape, longer⟩ | ⟨nothing, longer⟩ := skipWs_trail back rest
        · simp only [shape, longer, item]
        · simp only [nothing, longer]
          obtain none | ⟨d, inner, odd, far⟩ := skipWs_spaces spaces
          · rw [none]
          · have comma : d ≠ 44 := by omega
            simp only [odd, if_neg comma]
    · intro text
      obtain ⟨q, afterQuote, shape, longer⟩ | ⟨nothing, longer⟩ := skipWs_trail back text
      · simp only [deepestMember, shape, longer, parseString_trail spaces plain]
        split_ifs
        · cases parseString dialect afterQuote with
          | none => rfl
          | some pair =>
            obtain ⟨key, afterKey⟩ := pair
            simp only [trail_some]
            obtain ⟨colon, afterColon, shape, longer⟩ | ⟨nothing, longer⟩ := skipWs_trail back afterKey
            · simp only [shape, longer, parsed, value]
              split_ifs
              · cases parseValue dialect fuel afterColon with
                | none => rfl
                | some pair =>
                  obtain ⟨first, rest⟩ := pair
                  simp only [trail_some]
                  obtain ⟨c, after, shape, longer⟩ | ⟨nothing, longer⟩ := skipWs_trail back rest
                  · simp only [shape, longer, member]
                  · simp only [nothing, longer]
                    obtain none | ⟨d, inner, odd, far⟩ := skipWs_spaces spaces
                    · rw [none]
                    · have comma : d ≠ 44 := by omega
                      simp only [odd, if_neg comma]
              · rfl
            · simp only [nothing, longer]
              obtain none | ⟨d, inner, odd, far⟩ := skipWs_spaces spaces
              · rw [none]
              · have colon : d ≠ 58 := by omega
                simp only [odd, if_neg colon]
        · rfl
      · simp only [deepestMember, nothing, longer]
        obtain none | ⟨d, inner, odd, far⟩ := skipWs_spaces spaces
        · rw [none]
        · have quote : d ≠ 34 := by omega
          simp only [odd, if_neg quote]

end Values

/-- Fuel beyond twice the length of the text does not change the depth. -/
theorem deepest_fuel (dialect : Dialect) (fuel : Nat) :
    (∀ text, 2 * text.length + 1 ≤ fuel → ∀ more, fuel ≤ more →
      deepest dialect more text = deepest dialect fuel text) ∧
    (∀ text, 2 * text.length + 2 ≤ fuel → ∀ more, fuel ≤ more →
      deepestItem dialect more text = deepestItem dialect fuel text) ∧
    (∀ text, 2 * text.length + 2 ≤ fuel → ∀ more, fuel ≤ more →
      deepestMember dialect more text = deepestMember dialect fuel text) := by
  induction fuel with
  | zero => refine ⟨?_, ?_, ?_⟩ <;> intro text enough <;> omega
  | succ fuel ih =>
    obtain ⟨value, item, member⟩ := ih
    have parsed := (parse_fuel dialect fuel).1
    refine ⟨?_, ?_, ?_⟩ <;> intro text enough more le <;>
      obtain ⟨n, rfl⟩ : ∃ n, more = n + 1 := ⟨more - 1, by omega⟩
    · cases shape : skipWs text with
      | nil => simp only [deepest, shape]
      | cons c tail =>
        have := length_of_skipWs shape
        simp only [deepest, shape, member tail (by omega) n (by omega), item tail (by omega) n (by omega)]
    · simp only [deepestItem, parsed text (by omega) n (by omega), value text (by omega) n (by omega)]
      cases first : parseValue dialect fuel text with
      | none => rfl
      | some pair =>
        obtain ⟨x, after⟩ := pair
        have := (parse_length dialect fuel).1 _ _ _ first
        cases shape : skipWs after with
        | nil => simp only [shape]
        | cons c tail =>
          have := length_of_skipWs shape
          simp only [shape, item tail (by omega) n (by omega)]
    · cases quote : skipWs text with
      | nil => simp only [deepestMember, quote]
      | cons q afterQuote =>
        have := length_of_skipWs quote
        simp only [deepestMember, quote]
        cases key : parseString dialect afterQuote with
        | none => rfl
        | some pair =>
          obtain ⟨k, afterKey⟩ := pair
          have := readString_length key
          cases colon : skipWs afterKey with
          | nil => simp only [colon]
          | cons c afterColon =>
            have := length_of_skipWs colon
            simp only [colon, parsed afterColon (by omega) n (by omega), value afterColon (by omega) n (by omega)]
            cases first : parseValue dialect fuel afterColon with
            | none => rfl
            | some pair =>
              obtain ⟨x, after⟩ := pair
              have := (parse_length dialect fuel).1 _ _ _ first
              cases shape : skipWs after with
              | nil => simp only [shape]
              | cons c tail =>
                have := length_of_skipWs shape
                simp only [shape, member tail (by omega) n (by omega)]

/-! ## Whole texts -/

def White (space : Str) : Prop := ∀ c ∈ space, isWs c = true

instance (space : Str) : Decidable (White space) := List.decidableBAll (fun c => isWs c = true) space

theorem Spaces.of_white {space : Str} (white : White space) : Spaces space :=
  fun c member => isSpaceChar_of_isWs (white c member)

theorem skipWs_eq_nil {space : Str} : skipWs space = [] ↔ White space := List.dropWhile_eq_nil_iff

theorem skipWs_white_append {front : Str} (white : White front) (text : Str) : skipWs (front ++ text) = skipWs text :=
  List.dropWhile_append_of_pos white

theorem parseValue_white (dialect : Dialect) (fuel : Nat) {front : Str} (white : White front) (text : Str) :
    parseValue dialect fuel (front ++ text) = parseValue dialect fuel text ∧
      deepest dialect fuel (front ++ text) = deepest dialect fuel text := by
  cases fuel with
  | zero => exact ⟨rfl, rfl⟩
  | succ fuel =>
    constructor
    · rw [parseValue, parseValue, skipWs_white_append white]
    · rw [deepest, deepest, skipWs_white_append white]

/-- A vertical tab or a form feed before a text ends the parse. -/
theorem parseValue_odd (dialect : Dialect) (fuel : Nat) {front : Str} (spaces : Spaces front)
    (odd : ¬ White front) (text : Str) :
    parseValue dialect fuel (front ++ text) = none ∧ deepest dialect fuel (front ++ text) = 0 := by
  cases fuel with
  | zero => exact ⟨rfl, rfl⟩
  | succ fuel =>
    obtain nothing | ⟨c, rest, shape, far⟩ := skipWs_spaces spaces
    · exact absurd (skipWs_eq_nil.mp nothing) odd
    · obtain ⟨ws, split, white, solid⟩ := skipWs_split shape
      have whole : skipWs (front ++ text) = c :: (rest ++ text) := by
        rw [split, List.append_assoc]
        exact skipWs_append white solid _
      have brace : c ≠ 123 := by omega
      have bracket : c ≠ 91 := by omega
      have quote : c ≠ 34 := by omega
      constructor
      · simp only [parseValue, whole, if_neg brace, if_neg bracket, if_neg quote]
        exact parseScalar_space dialect (isSpaceChar_iff.mpr (by omega)) _
      · simp only [deepest, whole, if_neg brace, if_neg bracket]

section Padded

variable {dialect : Dialect} {front back : Str} (plain : PlainEscapes dialect) (before : Spaces front)
  (after : Spaces back) (text : Str)
include plain before after

/-- The text parses as before if all the whitespace is that of JSON, and not at all otherwise. -/
theorem parse_padded : parse dialect (front ++ (text ++ back)) = parse dialect text ∧ White front ∧ White back ∨
    parse dialect (front ++ (text ++ back)) = none ∧ ¬ (White front ∧ White back) := by
  have enough : 2 * text.length + 2 ≤ 2 * (front ++ (text ++ back)).length + 2 := by
    simp only [List.length_append]
    omega
  have more := (parse_fuel dialect (2 * text.length + 2)).1 text (by omega) _ enough
  by_cases white : White front
  · have value : parseValue dialect (2 * (front ++ (text ++ back)).length + 2) (front ++ (text ++ back)) =
        trail back (parseValue dialect (2 * text.length + 2) text) := by
      rw [(parseValue_white dialect _ white _).1, (parseValues_trail after plain _).1 text, more]
    simp only [parse, value]
    cases parseValue dialect (2 * text.length + 2) text with
    | none =>
      simp only [trail_none, white, true_and]
      by_cases ends : White back
      · exact Or.inl ends
      · exact Or.inr ends
    | some pair =>
      obtain ⟨tree, rest⟩ := pair
      simp only [trail_some]
      by_cases ends : White back
      · left
        refine ⟨?_, white, ends⟩
        by_cases ended : White rest
        · have both : White (rest ++ back) := List.forall_mem_append.mpr ⟨ended, ends⟩
          rw [if_pos (skipWs_eq_nil.mpr both), if_pos (skipWs_eq_nil.mpr ended)]
        · have both : ¬ White (rest ++ back) := fun all => ended (List.forall_mem_append.mp all).1
          rw [if_neg (fun nothing => both (skipWs_eq_nil.mp nothing)),
            if_neg (fun nothing => ended (skipWs_eq_nil.mp nothing))]
      · right
        have both : ¬ White (rest ++ back) := fun all => ends (List.forall_mem_append.mp all).2
        rw [if_neg (fun nothing => both (skipWs_eq_nil.mp nothing))]
        exact ⟨rfl, fun all => ends all.2⟩
  · right
    simp only [parse, (parseValue_odd dialect _ before white _).1]
    exact ⟨trivial, fun all => white all.1⟩

/-- The parser reaches the same depth, unless it stops at the first character. -/
theorem nesting_padded : nesting dialect (front ++ (text ++ back)) =
    if White front then nesting dialect text else 0 := by
  have enough : 2 * text.length + 2 ≤ 2 * (front ++ (text ++ back)).length + 2 := by
    simp only [List.length_append]
    omega
  unfold nesting
  split_ifs with white
  · rw [(parseValue_white dialect _ white _).2, (deepest_trail after plain _).1 text,
      (deepest_fuel dialect (2 * text.length + 2)).1 text (by omega) _ enough]
  · exact (parseValue_odd dialect _ before white _).2

end Padded

end Tesera.Text.JsonPadding
