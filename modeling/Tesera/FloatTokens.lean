import Tesera.Node.Canonical
import Tesera.Python.JsonCodec

/-!
A float of a Python journal in the three languages. Python writes the shortest digits in plain
notation between 1e-4 and 1e16 and with an exponent outside; JavaScript changes over at 1e-6
and 1e21. Which floats each verifier writes again as Python did is told exactly.
-/

namespace Tesera.FloatTokens
open Tesera.Text Tesera.Text.Unicode Tesera.Text.Number Tesera.Text.Decimal Tesera.Text.Json
open Tesera.Python.JsonCodec (reprFloat not_isInt_reprFloat decOf_reprFloat)
open Tesera.TypeScript.Value Tesera.TypeScript.Canonical Tesera.TypeScript.RawTree

/-! ## Spellings that differ -/

theorem text_injective {a b : Token} (same : a.text = b.text) : a = b := by
  have left := lexNumber_text a tokenEnd_nil
  have right := lexNumber_text b tokenEnd_nil
  rw [same, right] at left
  exact (congrArg Prod.fst (Option.some.inj left)).symm

theorem text_eq_iff {a b : Token} : a.text = b.text ↔ a = b :=
  ⟨text_injective, congrArg Token.text⟩

theorem exp_positional (d : Dec) (frac : Option Digits) : (positional d frac).exp = none := by
  unfold positional
  split_ifs <;> rfl

theorem exp_scientific {d : Dec} (nonzero : d.digits ≠ []) (frac : Option Digits) (width : Nat) :
    (scientific d frac width).exp = some (exponentOf width (d.point - 1)) := by
  unfold scientific
  split
  next shape => exact absurd shape nonzero
  next => rfl

theorem positional_ne_scientific {d : Dec} (nonzero : d.digits ≠ []) (frac other : Option Digits) (width : Nat) :
    positional d frac ≠ scientific d other width := by
  intro same
  have exponents := congrArg Token.exp same
  rw [exp_positional, exp_scientific nonzero] at exponents
  cases exponents

/-- The fraction given for integral values is only used for these. -/
theorem positional_of_fraction {d : Dec} (fractional : isInteger d = false) (frac other : Option Digits) :
    positional d frac = positional d other := by
  have inside : d.point < d.digits.length := by
    simpa only [isInteger, decide_eq_false_iff_not, not_le] using fractional
  unfold positional
  have nonzero : d.digits ≠ [] := by
    intro empty
    rw [empty, d.zero empty] at inside
    exact absurd inside (by decide)
  rw [dif_neg nonzero, dif_neg nonzero]
  split_ifs
  · rfl
  · rfl

theorem frac_positional {d : Dec} (integral : isInteger d = true) (frac : Option Digits) :
    (positional d frac).frac = frac := by
  have outside : (d.digits.length : Int) ≤ d.point := by
    simpa only [isInteger, decide_eq_true_eq] using integral
  unfold positional
  split_ifs with empty low inside
  · rfl
  · have nonzero : 0 < d.digits.length := List.length_pos_of_ne_nil empty
    omega
  · omega
  · rfl

theorem frac_scientific {d : Dec} (nonzero : d.digits ≠ []) (frac : Option Digits) (width : Nat) :
    (scientific d frac width).frac = frac ∨ 2 ≤ d.digits.length := by
  unfold scientific
  split
  next shape => exact absurd shape nonzero
  next first rest shape =>
    by_cases more : rest = []
    · left
      rw [dif_pos more]
    · right
      rw [shape, List.length_cons]
      have := List.length_pos_of_ne_nil more
      omega

/-- Scientific notation with its exponent written again. -/
theorem padExponent_scientific {d : Dec} (nonzero : d.digits ≠ []) (frac : Option Digits) (width : Nat) :
    padExponent (scientific d frac width) = scientific d frac 2 := by
  unfold padExponent
  rw [exp_scientific nonzero]
  simp only [toInt_exponentOf]
  unfold scientific
  split
  next shape => exact absurd shape nonzero
  next => rfl

theorem ne_nil_of_point {d : Dec} (point : d.point ≠ 0) : d.digits ≠ [] :=
  fun empty => point (d.zero empty)

/-! ## Where the spellings agree -/

/-- A value with a fraction, in the range that both languages write in plain notation. -/
def PlainFraction (d : Dec) : Prop := isInteger d = false ∧ -4 < d.point ∧ d.point ≤ 16

/-- A value that both languages write with an exponent. -/
def FarExponent (d : Dec) : Prop := d.point ≤ -6 ∨ 21 < d.point

theorem not_isInteger_of_low {d : Dec} (low : d.point ≤ 0) (nonzero : d.digits ≠ []) : isInteger d = false := by
  have := List.length_pos_of_ne_nil nonzero
  simp only [isInteger, decide_eq_false_iff_not, not_le]
  omega

/-- Between the two ranges of plain notation the languages differ. -/
theorem numberToken_ne_reprFloat {d : Dec} (plain : -6 < d.point ∧ d.point ≤ 21)
    (outside : ¬ (-4 < d.point ∧ d.point ≤ 16)) : numberToken d ≠ reprFloat d := by
  have nonzero : d.digits ≠ [] := ne_nil_of_point (by omega)
  unfold numberToken reprFloat
  rw [if_pos plain, if_neg outside]
  exact positional_ne_scientific nonzero _ _ _

theorem padExponent_of_plain {token : Token} (plain : token.exp = none) : padExponent token = token := by
  simp only [padExponent, plain]

theorem numberToken_of_plain {d : Dec} (plain : -6 < d.point ∧ d.point ≤ 21) : numberToken d = positional d none :=
  if_pos plain

theorem numberToken_of_far {d : Dec} (far : FarExponent d) : numberToken d = scientific d none 1 := by
  apply if_neg
  unfold FarExponent at far
  omega

theorem ne_nil_of_far {d : Dec} (far : FarExponent d) : d.digits ≠ [] := by
  apply ne_nil_of_point
  unfold FarExponent at far
  omega

theorem reprFloat_of_far {d : Dec} (far : FarExponent d) : reprFloat d = scientific d none 2 := by
  apply if_neg
  unfold FarExponent at far
  omega

/-- `Canonical.ts` and Python spell a float alike exactly if it is -0, has a fraction in the
common plain range, or has an exponent in both. -/
theorem typeScript_eq_iff (d : Dec) : floatToken d = reprFloat d ↔
    (d.neg = true ∧ d.digits = []) ∨ PlainFraction d ∨ FarExponent d := by
  by_cases negativeZero : d.neg = true ∧ d.digits = []
  · have zero : d.point = 0 := d.zero negativeZero.2
    apply iff_of_true
    · unfold floatToken reprFloat
      rw [if_pos negativeZero, if_pos (by omega)]
    · exact Or.inl negativeZero
  rw [or_iff_right negativeZero]
  by_cases far : FarExponent d
  · apply iff_of_true
    · unfold floatToken
      have large : ¬ (isInteger d = true ∧ d.point ≤ 16) := by
        intro small
        rcases far with low | high
        · rw [not_isInteger_of_low (by omega) (ne_nil_of_far (Or.inl low))] at small
          cases small.1
        · omega
      rw [if_neg negativeZero, if_neg large, numberToken_of_far far,
        padExponent_scientific (ne_nil_of_far far), reprFloat_of_far far]
    · exact Or.inr far
  rw [or_iff_left far]
  have plain : -6 < d.point ∧ d.point ≤ 21 := by
    unfold FarExponent at far
    omega
  have spelt : floatToken d = numberToken d := by
    unfold floatToken
    rw [if_neg negativeZero, padExponent_of_plain (by rw [numberToken_of_plain plain, exp_positional])]
    split_ifs
    · rfl
    · rfl
  rw [spelt]
  by_cases common : -4 < d.point ∧ d.point ≤ 16
  · unfold reprFloat
    rw [numberToken_of_plain plain, if_pos common]
    cases integral : isInteger d with
    | true =>
      apply iff_of_false
      · intro same
        have fractions := congrArg Token.frac same
        rw [frac_positional integral, frac_positional integral] at fractions
        cases fractions
      · intro fraction
        rw [fraction.1] at integral
        cases integral
    | false => exact iff_of_true (positional_of_fraction integral _ _) ⟨integral, common⟩
  · exact iff_of_false (numberToken_ne_reprFloat plain common) (fun fraction => common fraction.2)

theorem positional_with_frac {d : Dec} (integral : isInteger d = true) (frac : Option Digits) :
    { positional d none with frac := frac } = positional d frac := by
  have outside : (d.digits.length : Int) ≤ d.point := by
    simpa only [isInteger, decide_eq_true_eq] using integral
  unfold positional
  split_ifs with empty low inside
  · rfl
  · have nonzero : 0 < d.digits.length := List.length_pos_of_ne_nil empty
    omega
  · omega
  · rfl

theorem respell_scientific {d : Dec} (nonzero : d.digits ≠ []) (width : Nat) :
    Node.Canonical.respell (scientific d none width) = scientific d (some Digits.zero) 2 := by
  unfold Node.Canonical.respell
  rw [exp_scientific nonzero]
  simp only [toInt_exponentOf]
  unfold scientific
  split
  next shape => exact absurd shape nonzero
  next first rest shape => split_ifs <;> rfl

/-- With two digits or more the mantissa has a fraction of its own. -/
theorem scientific_of_long {d : Dec} (long : 2 ≤ d.digits.length) (frac other : Option Digits) (width : Nat) :
    scientific d frac width = scientific d other width := by
  unfold scientific
  split
  next shape =>
    rw [shape, List.length_nil] at long
    omega
  next first rest shape =>
    have more : rest ≠ [] := by
      intro short
      rw [shape, short, List.length_singleton] at long
      omega
    rw [dif_neg more, dif_neg more]

theorem node_zero {d : Dec} (zero : d.digits = []) :
    Node.Canonical.floatToken d = ⟨false, Digits.zero, canonical_zero, some Digits.zero, none⟩ := by
  have point := d.zero zero
  unfold Node.Canonical.floatToken Node.Canonical.template
  rw [if_pos zero, if_pos]
  simp [isInteger, zero, point]

theorem reprFloat_zero {d : Dec} (zero : d.digits = []) :
    reprFloat d = ⟨d.neg, Digits.zero, canonical_zero, some Digits.zero, none⟩ := by
  have point := d.zero zero
  unfold reprFloat positional
  rw [if_pos (by omega), dif_pos zero]

/-- The verifier for Node and Python spell a float alike exactly if it is in Python's plain
range and not -0, or has an exponent in both and more than one digit. -/
theorem node_eq_iff (d : Dec) : Node.Canonical.floatToken d = reprFloat d ↔
    ((-4 < d.point ∧ d.point ≤ 16) ∧ ¬ (d.neg = true ∧ d.digits = [])) ∨
      (FarExponent d ∧ 2 ≤ d.digits.length) := by
  by_cases zero : d.digits = []
  · have point := d.zero zero
    have near : ¬ FarExponent d := fun far => ne_nil_of_far far zero
    rw [or_iff_left (fun far => near far.1), node_zero zero, reprFloat_zero zero]
    simp only [Token.mk.injEq, zero, and_true]
    constructor
    · intro positive
      exact ⟨by omega, fun negative => absurd (positive.trans negative) (by decide)⟩
    · intro positive
      cases negative : d.neg with
      | true => exact absurd negative positive.2
      | false => rfl
  rw [show (d.neg = true ∧ d.digits = []) ↔ False from iff_false_intro (fun both => zero both.2)]
  simp only [not_false_eq_true, and_true]
  have spelt := Node.Canonical.template_of_nonzero zero
  by_cases far : FarExponent d
  · have large : ¬ (isInteger d = true ∧ d.point ≤ 16) := by
      intro small
      rcases far with low | high
      · rw [not_isInteger_of_low (by omega) zero] at small
        cases small.1
      · omega
    have outside : ¬ (-4 < d.point ∧ d.point ≤ 16) := by
      unfold FarExponent at far
      omega
    unfold Node.Canonical.floatToken
    rw [or_iff_right outside, if_neg large, spelt, numberToken_of_far far, respell_scientific zero,
      reprFloat_of_far far]
    constructor
    · intro same
      refine ⟨far, ?_⟩
      rcases frac_scientific zero none 2 with bare | long
      · rcases frac_scientific zero (some Digits.zero) 2 with filled | long
        · rw [same, bare] at filled
          cases filled
        · exact long
      · exact long
    · intro long
      exact scientific_of_long long.2 _ _ _
  rw [or_iff_left (fun both => far both.1)]
  have plain : -6 < d.point ∧ d.point ≤ 21 := by
    unfold FarExponent at far
    omega
  by_cases small : isInteger d = true ∧ d.point ≤ 16
  · have low : 0 < d.point := by
      by_contra nonpositive
      rw [not_isInteger_of_low (by omega) zero] at small
      cases small.1
    have common : -4 < d.point ∧ d.point ≤ 16 := ⟨by omega, small.2⟩
    apply iff_of_true
    · unfold Node.Canonical.floatToken reprFloat
      rw [if_pos small, spelt, numberToken_of_plain plain, if_pos common]
      exact positional_with_frac small.1 _
    · exact common
  · unfold Node.Canonical.floatToken
    rw [if_neg small, spelt,
      Node.Canonical.respell_of_plain (by rw [numberToken_of_plain plain, exp_positional])]
    by_cases common : -4 < d.point ∧ d.point ≤ 16
    · apply iff_of_true
      · have fractional : isInteger d = false := by
          by_contra integral
          exact small ⟨by simpa using integral, common.2⟩
        unfold reprFloat
        rw [numberToken_of_plain plain, if_pos common]
        exact positional_of_fraction fractional _ _
      · exact common
    · exact iff_of_false (numberToken_ne_reprFloat plain common) common

/-! ## The token of a Python journal in both verifiers -/

/-- Both verifiers encode the raw parse of a text as that text. -/
structure EncodedAlike (host : Host) (text : Str) : Prop where
  typeScript : (parseRaw text).bind (canonicalRaw host) = some text
  node : (parseRaw text).bind (Node.Canonical.canonicalRaw host) = some text

/-- What Python writes for a finite float. -/
theorem dumps_float (interpreter : Python.Value.Host) (d : Dec) :
    Python.JsonCodec.dumps interpreter false (.float (.finite d)) = .ok (reprFloat d).text := by
  simp only [Python.JsonCodec.dumps, Python.JsonCodec.checkDumps, Python.JsonCodec.toTree, render]

theorem parseRaw_token (token : Token) : parseRaw token.text = some (.num token) := by
  have read : parse strict (render (.num token)) = some (.num token) :=
    JsonRoundTrip.parse_render strict _ (by simp only [JsonRoundTrip.TreeOk, strict])
  simp only [render] at read
  simp only [parseRaw, read, Option.map_some, toNode]

/-- A float's token is read as the float, and written as the encoder at hand writes it. -/
theorem encodeRaw_token {host : Host} {d : Dec} (double : host.double d = some d)
    (pyFloat : Double → Option Tree) :
    encodeRaw pyFloat host (.num (reprFloat d)) = (pyFloat (.finite d)).map render := by
  have read := lexNumber_text (reprFloat d) tokenEnd_nil
  rw [List.append_nil] at read
  have value : host.numberValue (.str (reprFloat d).text) = some (.finite d) := by
    simp only [Host.numberValue, read, Engine.number, decOf_reprFloat, double]
  simp only [encodeRaw, encodeNum, Host.string, Option.bind_some, intToken_text,
    if_neg (not_isInt_reprFloat d), value]

theorem typeScript_token {host : Host} {d : Dec} (double : host.double d = some d) :
    (parseRaw (reprFloat d).text).bind (canonicalRaw host) = some (floatToken d).text := by
  rw [parseRaw_token, Option.bind_some, canonicalRaw, encodeRaw_token double]
  simp only [pyFloatTree, pyFloat, Option.map_some, render]

theorem node_token {host : Host} {d : Dec} (double : host.double d = some d) :
    (parseRaw (reprFloat d).text).bind (Node.Canonical.canonicalRaw host) =
      some (Node.Canonical.floatToken d).text := by
  rw [parseRaw_token, Option.bind_some, Node.Canonical.canonicalRaw, encodeRaw_token double]
  simp only [Node.Canonical.pyFloat, Option.map_some, render]

/-- Both verifiers give back the text Python writes for a float exactly if the float has a
fraction and lies in Python's plain range, or has an exponent in both languages and more than
one digit. -/
theorem encodedAlike_iff (interpreter : Python.Value.Host) (host : Host) (d : Dec) (text : Str)
    (double : host.double d = some d)
    (written : Python.JsonCodec.dumps interpreter false (.float (.finite d)) = .ok text) :
    EncodedAlike host text ↔ PlainFraction d ∨ (FarExponent d ∧ 2 ≤ d.digits.length) := by
  rw [dumps_float, Except.ok.injEq] at written
  subst written
  have spelt : EncodedAlike host (reprFloat d).text ↔
      floatToken d = reprFloat d ∧ Node.Canonical.floatToken d = reprFloat d := by
    constructor
    · intro alike
      have left := alike.typeScript
      have right := alike.node
      rw [typeScript_token double] at left
      rw [node_token double] at right
      exact ⟨text_injective (Option.some.inj left), text_injective (Option.some.inj right)⟩
    · intro both
      constructor
      · rw [typeScript_token double, both.1]
      · rw [node_token double, both.2]
  rw [spelt, typeScript_eq_iff, node_eq_iff]
  constructor
  · rintro ⟨negativeZero | fraction | far, near | long⟩
    · exact absurd negativeZero near.2
    · exact absurd negativeZero.2 (ne_nil_of_far long.1)
    · exact Or.inl fraction
    · exact Or.inl fraction
    · unfold FarExponent at far
      omega
    · exact Or.inr long
  · rintro (fraction | long)
    · refine ⟨Or.inr (Or.inl fraction), Or.inl ⟨fraction.2, fun negativeZero => ?_⟩⟩
      have integral : isInteger d = true := by
        simp [isInteger, negativeZero.2, d.zero negativeZero.2]
      rw [fraction.1] at integral
      cases integral
    · exact ⟨Or.inr (Or.inr long.1), Or.inr long⟩

theorem some_double {d r : Dec} (_ : some d = some r) : some r = some r := rfl

/-- An engine in which every decimal is a double. -/
def exactHost : Host where
  double := some
  double_double := some_double
  stringOf := fun _ => none
  numberOf := fun _ => none

def exactInterpreter : Python.Value.Host := .plain id (fun _ => none)

def oneAndAHalf : Dec := ⟨false, [1, 5], 1, by decide, by decide, by decide, by decide⟩

theorem encodedAlike_iff_sample : EncodedAlike exactHost (reprFloat oneAndAHalf).text ↔
    PlainFraction oneAndAHalf ∨ (FarExponent oneAndAHalf ∧ 2 ≤ oneAndAHalf.digits.length) :=
  encodedAlike_iff exactInterpreter exactHost oneAndAHalf _ rfl (dumps_float exactInterpreter oneAndAHalf)

def two : Dec := ⟨false, [2], 1, by decide, by decide, by decide, by decide⟩

/-- Python writes `2.0`, and `Canonical.ts` makes `2` of it. -/
theorem two_not_encodedAlike :
    ¬ ∀ (interpreter : Python.Value.Host) (host : Host) (d : Dec) (text : Str), host.double d = some d →
      Python.JsonCodec.dumps interpreter false (.float (.finite d)) = .ok text → EncodedAlike host text := by
  intro all
  have written := (all exactInterpreter exactHost two _ rfl (dumps_float exactInterpreter two)).typeScript
  rw [show (parseRaw (reprFloat two).text).bind (canonicalRaw exactHost) = some (floatToken two).text from
    typeScript_token rfl] at written
  have alike := (typeScript_eq_iff two).mp (text_injective (Option.some.inj written))
  rcases alike with negative | fraction | far
  · exact absurd negative.2 (by decide)
  · exact absurd fraction.1 (by decide)
  · unfold FarExponent at far
    exact absurd far (by decide)

end Tesera.FloatTokens
