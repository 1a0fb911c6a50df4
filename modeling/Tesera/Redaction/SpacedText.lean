import Tesera.Redaction.Evidence

/-!
What `json.dumps` writes with its own separators, `", "` and `": "`, is read back as well: the
whitespace stands where the grammar skips it.
-/

namespace Tesera.Redaction.SpacedText
open Tesera.Text Tesera.Text.Unicode Tesera.Text.Number Tesera.Text.Json Tesera.Text.JsonRoundTrip
open Tesera.Redaction.Evidence

theorem lit_comma : lit ", " = [44, 32] := by decide

theorem lit_colon : lit ": " = [58, 32] := by decide

theorem lit_brackets : lit "[" = [91] ∧ lit "]" = [93] ∧ lit "[]" = [91, 93] := by decide

theorem lit_braces : lit "\x7b" = [123] ∧ lit "\x7d" = [125] ∧ lit "\x7b\x7d" = [123, 125] := by decide

/-- A space before a value is skipped. -/
theorem parseValue_space (dialect : Dialect) (fuel : Nat) (text : Str) :
    parseValue dialect fuel (32 :: text) = parseValue dialect fuel text := by
  cases fuel with
  | zero => rfl
  | succ fuel =>
    have skipped : skipWs (32 :: text) = skipWs text := by simp [skipWs, isWs]
    rw [parseValue, parseValue, skipped]

theorem parseArray_space (dialect : Dialect) (fuel : Nat) (text : Str) :
    parseArray dialect fuel (32 :: text) = parseArray dialect fuel text := by
  cases fuel with
  | zero => rfl
  | succ fuel => rw [parseArray, parseArray, parseValue_space]

theorem parseObject_space (dialect : Dialect) (fuel : Nat) (text : Str) :
    parseObject dialect fuel (32 :: text) = parseObject dialect fuel text := by
  cases fuel with
  | zero => rfl
  | succ fuel =>
    have skipped : skipWs (32 :: text) = skipWs text := by simp [skipWs, isWs]
    rw [parseObject, parseObject, skipped]

/-- A value begins with the same character in both forms. -/
theorem renderSpaced_head (t : Tree) : ∃ a tail, renderSpaced t = a :: tail ∧ isWs a = false ∧ a ≠ 93 ∧ a ≠ 125 := by
  cases t with
  | arr items =>
    cases items with
    | nil => exact ⟨91, [93], by rw [renderSpaced]; decide, by decide⟩
    | cons x xs => exact ⟨91, _, by rw [renderSpaced, lit_brackets.1]; rfl, by decide⟩
  | obj members =>
    cases members with
    | nil => exact ⟨123, [125], by rw [renderSpaced]; decide, by decide⟩
    | cons m ms => exact ⟨123, _, by rw [renderSpaced, lit_braces.1]; rfl, by decide⟩
  | null => exact render_head .null
  | bool b => exact render_head (.bool b)
  | const c => exact render_head (.const c)
  | num token => exact render_head (.num token)
  | str text => exact render_head (.str text)

theorem skipWs_renderSpaced (t : Tree) (rest : Str) : skipWs (renderSpaced t ++ rest) = renderSpaced t ++ rest := by
  obtain ⟨a, tail, shape, solid, _, _⟩ := renderSpaced_head t
  rw [shape]
  exact skipWs_of_not_ws _ solid

theorem tokenEnd_renderSpacedItems (xs : List Tree) (rest : Str) : TokenEnd (renderSpacedItems xs ++ rest) := by
  cases xs with
  | nil =>
    rw [renderSpacedItems, lit_brackets.2.1]
    exact tokenEnd_cons _ (by decide)
  | cons x xs =>
    rw [renderSpacedItems, lit_comma]
    exact tokenEnd_cons _ (by decide)

theorem tokenEnd_renderSpacedMembers (ms : List (List Piece × Tree)) (rest : Str) :
    TokenEnd (renderSpacedMembers ms ++ rest) := by
  cases ms with
  | nil =>
    rw [renderSpacedMembers, lit_braces.2.1]
    exact tokenEnd_cons _ (by decide)
  | cons m ms =>
    rw [renderSpacedMembers, lit_comma]
    exact tokenEnd_cons _ (by decide)

theorem skipWs_quote (k : List Piece) (more : Str) : skipWs (quote k ++ more) = 34 :: (k.flatMap Piece.text ++ (34 :: more)) := by
  simp only [quote, List.cons_append, List.append_assoc, List.nil_append]
  exact skipWs_of_not_ws _ (by decide)

/-- The key of a member, its colon and a space, before the value. -/
theorem parseObject_key (dialect : Dialect) (fuel : Nat) {k : List Piece} (ok : PiecesOk dialect k) {v : Tree} {text after rest : Str}
    {c : Nat} (value : parseValue dialect fuel text = some (v, after)) (next : skipWs after = c :: rest) :
    parseObject dialect (fuel + 1) (quote k ++ (58 :: 32 :: text)) =
      if c = 44 then (parseObject dialect fuel rest).map (fun r => ((k, v) :: r.1, r.2))
      else if c = 125 then some ([(k, v)], rest) else none := by
  rw [parseObject, skipWs_quote]
  simp only [if_true, parseString_pieces dialect k ok, skipWs_of_not_ws _ (show isWs 58 = false by decide), parseValue_space,
    value, next]

mutual

theorem parseValue_renderSpaced (dialect : Dialect) : ∀ (t : Tree), TreeOk dialect t → ∀ (fuel : Nat), fuelOf t ≤ fuel →
    ∀ (rest : Str), TokenEnd rest → parseValue dialect fuel (renderSpaced t ++ rest) = some (t, rest)
  | t, ok, 0, enough, rest, ends => by
    cases t <;> simp only [fuelOf] at enough <;> omega
  | .null, ok, fuel + 1, enough, rest, ends => parseValue_render dialect .null ok (fuel + 1) enough rest ends
  | .bool b, ok, fuel + 1, enough, rest, ends => parseValue_render dialect (.bool b) ok (fuel + 1) enough rest ends
  | .const c, ok, fuel + 1, enough, rest, ends => parseValue_render dialect (.const c) ok (fuel + 1) enough rest ends
  | .num token, ok, fuel + 1, enough, rest, ends => parseValue_render dialect (.num token) ok (fuel + 1) enough rest ends
  | .str text, ok, fuel + 1, enough, rest, ends => parseValue_render dialect (.str text) ok (fuel + 1) enough rest ends
  | .arr [], _, fuel + 1, _, rest, _ => by
    rw [renderSpaced, lit_brackets.2.2]
    simp [parseValue, skipWs, isWs]
  | .arr (x :: xs), ok, fuel + 1, enough, rest, _ => by
    simp only [fuelOf] at enough
    have items := parseArray_renderSpaced dialect x xs (by simpa only [TreeOk] using ok) fuel (by omega) rest
    obtain ⟨a, tail, shape, solid, notClose, _⟩ := renderSpaced_head x
    have skipped : skipWs (renderSpaced x ++ (renderSpacedItems xs ++ rest)) = a :: (tail ++ (renderSpacedItems xs ++ rest)) := by
      rw [skipWs_renderSpaced, shape]
      rfl
    rw [renderSpaced, lit_brackets.1]
    simp only [List.cons_append, List.nil_append, List.append_assoc, parseValue,
      skipWs_of_not_ws _ (show isWs 91 = false by decide), if_neg (show (91 : Nat) ≠ 123 by decide),
      if_true, skipped, if_neg notClose, items, Option.map_some]
  | .obj [], _, fuel + 1, _, rest, _ => by
    rw [renderSpaced, lit_braces.2.2]
    simp [parseValue, skipWs, isWs]
  | .obj ((k, v) :: ms), ok, fuel + 1, enough, rest, _ => by
    simp only [fuelOf] at enough
    have members := parseObject_renderSpaced dialect k v ms (by simpa only [TreeOk] using ok) fuel (by omega) rest
    rw [renderSpaced, lit_braces.1, lit_colon]
    simp only [List.cons_append, List.nil_append, List.append_assoc, parseValue,
      skipWs_of_not_ws _ (show isWs 123 = false by decide), if_true, skipWs_quote,
      if_neg (show (34 : Nat) ≠ 125 by decide), members, Option.map_some]

theorem parseArray_renderSpaced (dialect : Dialect) : ∀ (x : Tree) (xs : List Tree), ItemsOk dialect (x :: xs) → ∀ (fuel : Nat),
    fuelItems (x :: xs) ≤ fuel → ∀ (rest : Str),
    parseArray dialect fuel (renderSpaced x ++ (renderSpacedItems xs ++ rest)) = some (x :: xs, rest)
  | x, xs, ok, 0, enough, rest => by
    simp only [fuelItems] at enough
    omega
  | x, [], ok, fuel + 1, enough, rest => by
    simp only [fuelItems] at enough
    simp only [ItemsOk] at ok
    have head := parseValue_renderSpaced dialect x ok.1 fuel (by omega) (renderSpacedItems [] ++ rest)
      (tokenEnd_renderSpacedItems [] rest)
    rw [parseArray, head, renderSpacedItems, lit_brackets.2.1]
    simp [skipWs, isWs]
  | x, y :: ys, ok, fuel + 1, enough, rest => by
    simp only [fuelItems] at enough
    simp only [ItemsOk] at ok
    have head := parseValue_renderSpaced dialect x ok.1 fuel (by omega) (renderSpacedItems (y :: ys) ++ rest)
      (tokenEnd_renderSpacedItems (y :: ys) rest)
    have tail := parseArray_renderSpaced dialect y ys (by simpa only [ItemsOk] using ok.2) fuel
      (by simp only [fuelItems]; omega) rest
    rw [parseArray, head, renderSpacedItems, lit_comma]
    simp only [List.cons_append, List.nil_append, List.append_assoc, skipWs_of_not_ws _ (show isWs 44 = false by decide), if_true,
      parseArray_space, tail, Option.map_some]

theorem parseObject_renderSpaced (dialect : Dialect) : ∀ (k : List Piece) (v : Tree) (ms : List (List Piece × Tree)),
    MembersOk dialect ((k, v) :: ms) → ∀ (fuel : Nat), fuelMembers ((k, v) :: ms) ≤ fuel → ∀ (rest : Str),
    parseObject dialect fuel (quote k ++ (58 :: 32 :: (renderSpaced v ++ (renderSpacedMembers ms ++ rest)))) = some ((k, v) :: ms, rest)
  | k, v, ms, ok, 0, enough, rest => by
    simp only [fuelMembers] at enough
    omega
  | k, v, [], ok, fuel + 1, enough, rest => by
    simp only [fuelMembers] at enough
    simp only [MembersOk] at ok
    have value := parseValue_renderSpaced dialect v ok.2.1 fuel (by omega) (renderSpacedMembers [] ++ rest)
      (tokenEnd_renderSpacedMembers [] rest)
    rw [renderSpacedMembers, lit_braces.2.1] at value
    rw [renderSpacedMembers, lit_braces.2.1, parseObject_key dialect fuel ok.1 value (skipWs_of_not_ws rest (by decide)),
      if_neg (by decide), if_pos rfl]
  | k, v, (k', v') :: ms, ok, fuel + 1, enough, rest => by
    simp only [fuelMembers] at enough
    simp only [MembersOk] at ok
    have value := parseValue_renderSpaced dialect v ok.2.1 fuel (by omega) (renderSpacedMembers ((k', v') :: ms) ++ rest)
      (tokenEnd_renderSpacedMembers _ rest)
    have tail := parseObject_renderSpaced dialect k' v' ms (by simpa only [MembersOk] using ok.2.2) fuel
      (by simp only [fuelMembers]; omega) rest
    simp only [renderSpacedMembers, lit_comma, lit_colon, List.cons_append, List.nil_append, List.append_assoc] at value ⊢
    rw [parseObject_key dialect fuel ok.1 value (skipWs_of_not_ws _ (by decide)), if_pos rfl, parseObject_space, tail, Option.map_some]

end

mutual

/-- The compact form is no longer. -/
theorem length_render_le : ∀ t : Tree, (render t).length ≤ (renderSpaced t).length
  | .null => le_refl _
  | .bool _ => le_refl _
  | .const _ => le_refl _
  | .num _ => le_refl _
  | .str _ => le_refl _
  | .arr [] => by
    rw [render, renderSpaced, lit_brackets.2.2]
  | .arr (x :: xs) => by
    have head := length_render_le x
    have tail := length_renderItems_le xs
    rw [render, renderSpaced, lit_brackets.1]
    simp only [List.length_cons, List.length_append, List.length_nil]
    omega
  | .obj [] => by
    rw [render, renderSpaced, lit_braces.2.2]
  | .obj ((k, v) :: ms) => by
    have head := length_render_le v
    have tail := length_renderMembers_le ms
    rw [render, renderSpaced, lit_braces.1, lit_colon]
    simp only [List.length_cons, List.length_append, List.length_nil]
    omega

theorem length_renderItems_le : ∀ xs : List Tree, (renderItems xs).length ≤ (renderSpacedItems xs).length
  | [] => by
    rw [renderItems, renderSpacedItems, lit_brackets.2.1]
  | x :: xs => by
    have head := length_render_le x
    have tail := length_renderItems_le xs
    rw [renderItems, renderSpacedItems, lit_comma]
    simp only [List.length_cons, List.length_append, List.length_nil]
    omega

theorem length_renderMembers_le : ∀ ms : List (List Piece × Tree), (renderMembers ms).length ≤ (renderSpacedMembers ms).length
  | [] => by
    rw [renderMembers, renderSpacedMembers, lit_braces.2.1]
  | (k, v) :: ms => by
    have head := length_render_le v
    have tail := length_renderMembers_le ms
    rw [renderMembers, renderSpacedMembers, lit_comma, lit_colon]
    simp only [List.length_cons, List.length_append, List.length_nil]
    omega

end

/-- The text has the fuel that its tree needs. -/
theorem fuelOf_le_spaced (t : Tree) : fuelOf t ≤ 2 * (renderSpaced t).length := by
  calc fuelOf t ≤ 2 * (render t).length := fuelOf_le t
    _ ≤ 2 * (renderSpaced t).length := Nat.mul_le_mul_left 2 (length_render_le t)

/-! ## How a text ends -/

/-- The text ends in another character than a closing parenthesis. -/
def EndsOtherwise (text : Str) : Prop := ∃ body last, text = body ++ [last] ∧ last ≠ 0x29

theorem EndsOtherwise.append {text : Str} (ends : EndsOtherwise text) (front : Str) : EndsOtherwise (front ++ text) := by
  obtain ⟨body, last, same, other⟩ := ends
  exact ⟨front ++ body, last, by rw [same, List.append_assoc], other⟩

theorem EndsOtherwise.cons {text : Str} (ends : EndsOtherwise text) (c : Nat) : EndsOtherwise (c :: text) := ends.append [c]

theorem digits_no_parenthesis (run : Digits) : 0x29 ∉ run.text := by
  intro member
  have digit := isDigit_iff.mp (run.digits _ member)
  omega

theorem token_no_parenthesis (token : Token) : 0x29 ∉ token.text := by
  have frac : 0x29 ∉ token.fracText := by
    unfold Token.fracText
    split
    · exact List.not_mem_nil
    · simpa using digits_no_parenthesis _
  have exp : 0x29 ∉ token.expText := by
    unfold Token.expText
    split
    · exact List.not_mem_nil
    next e _ =>
      have sign : 0x29 ∉ e.signText := by
        unfold Exponent.signText
        split <;> decide
      have digits := digits_no_parenthesis e.digits
      unfold Exponent.text
      split_ifs <;> simp [sign, digits]
  unfold Token.text
  have whole := digits_no_parenthesis token.whole
  split_ifs <;> simp [whole, frac, exp]

theorem ends_renderSpacedItems (xs : List Tree) : EndsOtherwise (renderSpacedItems xs) := by
  induction xs with
  | nil => exact ⟨[], 93, by rw [renderSpacedItems]; decide, by decide⟩
  | cons x xs ih =>
    rw [renderSpacedItems]
    exact (ih.append _).append _

theorem ends_renderSpacedMembers (ms : List (List Piece × Tree)) : EndsOtherwise (renderSpacedMembers ms) := by
  induction ms with
  | nil => exact ⟨[], 125, by rw [renderSpacedMembers]; decide, by decide⟩
  | cons m ms ih =>
    rw [renderSpacedMembers]
    exact (((ih.append _).append _).append _).append _

theorem ends_renderSpaced (t : Tree) : EndsOtherwise (renderSpaced t) := by
  cases t with
  | null => exact ⟨[110, 117, 108], 108, rfl, by decide⟩
  | bool b =>
    cases b with
    | true => exact ⟨[116, 114, 117], 101, rfl, by decide⟩
    | false => exact ⟨[102, 97, 108, 115], 101, rfl, by decide⟩
  | const c =>
    cases c with
    | nan => exact ⟨[78, 97], 78, rfl, by decide⟩
    | infinity => exact ⟨[73, 110, 102, 105, 110, 105, 116], 121, rfl, by decide⟩
    | negInfinity => exact ⟨[45, 73, 110, 102, 105, 110, 105, 116], 121, rfl, by decide⟩
  | num token =>
    obtain ⟨c, tail, shape, _⟩ := number_head token []
    rw [List.append_nil] at shape
    have some : token.text ≠ [] := by
      rw [shape]
      exact List.cons_ne_nil c tail
    refine ⟨token.text.dropLast, token.text.getLast some, (List.dropLast_append_getLast some).symm, ?_⟩
    intro same
    exact token_no_parenthesis token (same ▸ List.getLast_mem some)
  | str text => exact ⟨34 :: text.flatMap Piece.text, 34, rfl, by decide⟩
  | arr items =>
    cases items with
    | nil => exact ⟨[91], 93, by rw [renderSpaced]; decide, by decide⟩
    | cons x xs =>
      rw [renderSpaced]
      exact ((ends_renderSpacedItems xs).append _).append _
  | obj members =>
    cases members with
    | nil => exact ⟨[123], 125, by rw [renderSpaced]; decide, by decide⟩
    | cons m ms =>
      rw [renderSpaced]
      exact ((((ends_renderSpacedMembers ms).append _).append _).append _).append _

end Tesera.Redaction.SpacedText
