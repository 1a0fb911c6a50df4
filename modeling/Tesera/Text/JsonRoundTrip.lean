import Tesera.Text.Json

/-!
Parsing a rendered tree gives the tree back, for every tree the dialect can express.
The fuel of the parser is never what makes a parse fail: twice the length of the text
suffices, because every two nested calls consume a character.
-/

namespace Tesera.Text.JsonRoundTrip
open Tesera.Text.Unicode Tesera.Text.Number Tesera.Text.Json

/-- A piece written so that it is read back as itself. -/
def PieceOk (dialect : Dialect) : Piece → Prop
  | .lit c => 32 ≤ c ∧ c ≠ 34 ∧ c ≠ 92
  | .esc c => c < 65536
  | .odd c => dialect.odd c = true ∧ escapeOf c = none ∧ c ≠ 117

def PiecesOk (dialect : Dialect) (text : List Piece) : Prop := ∀ p ∈ text, PieceOk dialect p

mutual

/-- The trees a dialect can express. -/
def TreeOk (dialect : Dialect) : Tree → Prop
  | .null => True
  | .bool _ => True
  | .const _ => dialect.consts = true
  | .num token => dialect.token token = true
  | .str text => PiecesOk dialect text
  | .arr items => ItemsOk dialect items
  | .obj members => MembersOk dialect members

def ItemsOk (dialect : Dialect) : List Tree → Prop
  | [] => True
  | x :: xs => TreeOk dialect x ∧ ItemsOk dialect xs

def MembersOk (dialect : Dialect) : List (List Piece × Tree) → Prop
  | [] => True
  | (k, v) :: ms => PiecesOk dialect k ∧ TreeOk dialect v ∧ MembersOk dialect ms

end

/-! ## Strings -/

theorem hexValue_hexDigit (n : Nat) (small : n < 16) : hexValue (hexDigit n) = some n := by
  revert n
  decide

theorem readHex4_hex4 (n : Nat) (small : n < 65536) (rest : Str) :
    readHex4 (hex4 n ++ rest) = some (n, rest) := by
  simp only [hex4, List.cons_append, List.nil_append, readHex4]
  rw [hexValue_hexDigit _ (Nat.mod_lt _ (by decide)), hexValue_hexDigit _ (Nat.mod_lt _ (by decide)),
    hexValue_hexDigit _ (Nat.mod_lt _ (by decide)), hexValue_hexDigit _ (Nat.mod_lt _ (by decide))]
  simp only [Option.some.injEq, Prod.mk.injEq, and_true]
  omega

theorem escapeOf_letterOf {c letter : Nat} (found : letterOf c = some letter) :
    escapeOf letter = some c ∧ letter ≠ 117 := by
  unfold letterOf at found
  split_ifs at found <;> simp only [Option.some.injEq] at found <;> subst found <;>
    refine ⟨?_, by decide⟩ <;> simp [escapeOf, *]

theorem readString_piece (dialect : Dialect) (fuel : Nat) (p : Piece) (ok : PieceOk dialect p)
    (rest : Str) :
    readString dialect (fuel + 1) (p.text ++ rest) =
      (readString dialect fuel rest).map (fun r => (p :: r.1, r.2)) := by
  cases p with
  | lit c =>
    obtain ⟨printable, quote, backslash⟩ := ok
    simp only [Piece.text, List.singleton_append, readString, if_neg quote, if_neg backslash,
      if_neg (Nat.not_lt.mpr printable)]
  | esc c =>
    cases letter : letterOf c with
    | some l =>
      obtain ⟨value, notU⟩ := escapeOf_letterOf letter
      simp only [Piece.text, letter, List.cons_append, List.nil_append, readString, readEscape,
        if_neg notU, value, if_neg (show (92 : Nat) ≠ 34 by decide), if_true]
    | none =>
      simp only [Piece.text, letter, List.cons_append, readString, readEscape,
        if_neg (show (92 : Nat) ≠ 34 by decide), if_true, readHex4_hex4 c ok, Option.map_some]
  | odd c =>
    obtain ⟨stray, noEscape, notU⟩ := ok
    simp only [Piece.text, List.cons_append, List.nil_append, readString, readEscape,
      if_neg (show (92 : Nat) ≠ 34 by decide), if_true, if_neg notU, noEscape, stray]

theorem readString_pieces (dialect : Dialect) (text : List Piece) (ok : PiecesOk dialect text)
    (fuel : Nat) (enough : text.length < fuel) (rest : Str) :
    readString dialect fuel (text.flatMap Piece.text ++ 34 :: rest) = some (text, rest) := by
  induction text generalizing fuel with
  | nil =>
    obtain ⟨n, rfl⟩ : ∃ n, fuel = n + 1 := ⟨fuel - 1, by omega⟩
    simp [readString]
  | cons p text ih =>
    obtain ⟨n, rfl⟩ : ∃ n, fuel = n + 1 := ⟨fuel - 1, by omega⟩
    simp only [List.length_cons, Nat.add_lt_add_iff_right] at enough
    simp only [List.flatMap_cons, List.append_assoc]
    rw [readString_piece dialect n p (ok p List.mem_cons_self),
      ih (fun q member => ok q (List.mem_cons_of_mem p member)) n enough]
    rfl

theorem length_pos_text (p : Piece) : 0 < p.text.length := by
  cases p with
  | lit c => simp [Piece.text]
  | esc c => cases letter : letterOf c <;> simp [Piece.text, letter]
  | odd c => simp [Piece.text]

theorem length_le_flatMap_text (text : List Piece) :
    text.length ≤ (text.flatMap Piece.text).length := by
  induction text with
  | nil => simp
  | cons p text ih =>
    have := length_pos_text p
    simp only [List.length_cons, List.flatMap_cons, List.length_append]
    omega

theorem parseString_pieces (dialect : Dialect) (text : List Piece) (ok : PiecesOk dialect text)
    (rest : Str) :
    parseString dialect (text.flatMap Piece.text ++ 34 :: rest) = some (text, rest) := by
  apply readString_pieces dialect text ok
  have := length_le_flatMap_text text
  simp only [List.length_append, List.length_cons]
  omega

/-! ## Scalars -/

theorem parseLiteral_append (word : Str) (value : Tree) (rest : Str) :
    parseLiteral word value (word ++ rest) = some (value, rest) := by
  have isPre : word.isPrefixOf (word ++ rest) = true :=
    List.isPrefixOf_iff_prefix.mpr (List.prefix_append word rest)
  simp only [parseLiteral, isPre, if_true, List.drop_left]

theorem parseLiteral_of_head {word : Str} {text : Str} {a b : Nat} (value : Tree)
    (first : word.head? = some a) (other : text.head? = some b) (different : a ≠ b) :
    parseLiteral word value text = none := by
  cases word with
  | nil => cases first
  | cons x word =>
    cases text with
    | nil => cases other
    | cons y text =>
      simp only [List.head?_cons, Option.some.injEq] at first other
      subst x y
      have noPre : (a :: word).isPrefixOf (b :: text) = false := by
        simp [List.isPrefixOf, different]
      simp only [parseLiteral, noPre, Bool.false_eq_true, if_false]

theorem number_head (token : Token) (rest : Str) :
    ∃ c tail, token.text ++ rest = c :: tail ∧ (isDigit c = true ∨ c = 45) := by
  obtain ⟨c, tail, whole⟩ := List.exists_cons_of_ne_nil token.whole.nonempty
  unfold Token.text
  cases token.neg
  · exact ⟨c, _, by simp [whole]; rfl, .inl (token.whole.digits c (by simp [whole]))⟩
  · exact ⟨45, _, by simp; rfl, .inr rfl⟩

theorem not_ws_of_number {c : Nat} (head : isDigit c = true ∨ c = 45) :
    isWs c = false ∧ c ≠ 123 ∧ c ≠ 91 ∧ c ≠ 34 ∧ c ≠ 116 ∧ c ≠ 102 ∧ c ≠ 110 ∧ c ≠ 78 ∧ c ≠ 73 := by
  have bounds : 45 ≤ c ∧ c ≤ 57 := by
    rcases head with digit | rfl
    · have := isDigit_iff.mp digit
      omega
    · decide
  refine ⟨?_, by omega, by omega, by omega, by omega, by omega, by omega, by omega, by omega⟩
  simp only [isWs, Bool.or_eq_false_iff, beq_eq_false_iff_ne]
  omega

theorem parseConst_number (dialect : Dialect) (token : Token) (rest : Str) :
    parseConst dialect (token.text ++ rest) = none := by
  obtain ⟨c, tail, shape, head⟩ := number_head token rest
  obtain ⟨-, -, -, -, -, -, -, notN, notI⟩ := not_ws_of_number head
  have first : (token.text ++ rest).head? = some c := by rw [shape]; rfl
  have minus : parseLiteral Const.negInfinity.text (.const .negInfinity) (token.text ++ rest) = none := by
    unfold Token.text
    obtain ⟨d, digits, whole⟩ := List.exists_cons_of_ne_nil token.whole.nonempty
    have digit := isDigit_iff.mp (token.whole.digits d (by simp [whole]))
    cases token.neg
    · apply parseLiteral_of_head (b := d) _ rfl
      · simp [whole]
      · omega
    · have noPre : Const.negInfinity.text.isPrefixOf
          (([45] ++ (token.whole.text ++ (token.fracText ++ token.expText))) ++ rest) = false := by
        simp only [Const.text, whole, List.cons_append, List.nil_append, List.isPrefixOf_cons_cons,
          beq_self_eq_true, Bool.true_and, Bool.and_eq_false_iff, beq_eq_false_iff_ne]
        exact .inl (by omega)
      simp only [if_true, parseLiteral, noPre, Bool.false_eq_true, if_false]
  unfold parseConst
  split_ifs
  · rw [parseLiteral_of_head (b := c) _ rfl first notN.symm,
      parseLiteral_of_head (b := c) _ rfl first notI.symm, minus]
    rfl
  · rfl

theorem parseScalar_number (dialect : Dialect) (token : Token)
    (accepted : dialect.token token = true) {rest : Str} (ends : TokenEnd rest) :
    parseScalar dialect (token.text ++ rest) = some (.num token, rest) := by
  obtain ⟨c, tail, shape, head⟩ := number_head token rest
  obtain ⟨-, -, -, -, notT, notF, notNull, -, -⟩ := not_ws_of_number head
  have first : (token.text ++ rest).head? = some c := by rw [shape]; rfl
  unfold parseScalar
  rw [parseLiteral_of_head (b := c) _ rfl first notT.symm,
    parseLiteral_of_head (b := c) _ rfl first notF.symm,
    parseLiteral_of_head (b := c) _ rfl first notNull.symm, parseConst_number]
  simp only [Option.none_or, parseNumber, lexNumber_text token ends, Option.filter_some, accepted,
    if_true, Option.map_some]

theorem parseScalar_bool (dialect : Dialect) (b : Bool) (rest : Str) :
    parseScalar dialect (render (.bool b) ++ rest) = some (.bool b, rest) := by
  unfold parseScalar
  cases b
  · have first : (render (.bool false) ++ rest).head? = some 102 := by simp [render]
    rw [parseLiteral_of_head (b := 102) _ (by simp [render]; rfl) first (by decide), parseLiteral_append]
    rfl
  · rw [parseLiteral_append]
    rfl

theorem parseScalar_null (dialect : Dialect) (rest : Str) :
    parseScalar dialect (render .null ++ rest) = some (.null, rest) := by
  have first : (render .null ++ rest).head? = some 110 := by simp [render]
  unfold parseScalar
  rw [parseLiteral_of_head (b := 110) _ (by simp [render]; rfl) first (by decide),
    parseLiteral_of_head (b := 110) _ (by simp [render]; rfl) first (by decide), parseLiteral_append]
  rfl

theorem parseScalar_const (dialect : Dialect) (accepted : dialect.consts = true) (c : Const)
    (rest : Str) : parseScalar dialect (c.text ++ rest) = some (.const c, rest) := by
  unfold parseScalar parseConst
  rw [if_pos accepted]
  cases c with
  | nan =>
    have first : (Const.nan.text ++ rest).head? = some 78 := rfl
    rw [parseLiteral_of_head (b := 78) _ (by simp [render]; rfl) first (by decide),
      parseLiteral_of_head (b := 78) _ (by simp [render]; rfl) first (by decide),
      parseLiteral_of_head (b := 78) _ (by simp [render]; rfl) first (by decide), parseLiteral_append]
    rfl
  | infinity =>
    have first : (Const.infinity.text ++ rest).head? = some 73 := rfl
    rw [parseLiteral_of_head (b := 73) _ (by simp [render]; rfl) first (by decide),
      parseLiteral_of_head (b := 73) _ (by simp [render]; rfl) first (by decide),
      parseLiteral_of_head (b := 73) _ (by simp [render]; rfl) first (by decide),
      parseLiteral_of_head (b := 73) _ rfl first (by decide), parseLiteral_append]
    rfl
  | negInfinity =>
    have first : (Const.negInfinity.text ++ rest).head? = some 45 := rfl
    rw [parseLiteral_of_head (b := 45) _ (by simp [render]; rfl) first (by decide),
      parseLiteral_of_head (b := 45) _ (by simp [render]; rfl) first (by decide),
      parseLiteral_of_head (b := 45) _ (by simp [render]; rfl) first (by decide),
      parseLiteral_of_head (b := 45) _ rfl first (by decide),
      parseLiteral_of_head (b := 45) _ rfl first (by decide), parseLiteral_append]
    rfl

/-! ## Values -/

theorem skipWs_of_not_ws {c : Nat} (rest : Str) (solid : isWs c = false) :
    skipWs (c :: rest) = c :: rest := by
  simp [skipWs, solid]

theorem parseValue_scalar (dialect : Dialect) (fuel : Nat) {text : Str} {c : Nat} {tail : Str}
    (shape : text = c :: tail) (solid : isWs c = false) (notBrace : c ≠ 123) (notBracket : c ≠ 91)
    (notQuote : c ≠ 34) : parseValue dialect (fuel + 1) text = parseScalar dialect text := by
  subst text
  simp only [parseValue, skipWs_of_not_ws tail solid, if_neg notBrace, if_neg notBracket,
    if_neg notQuote]

theorem tokenEnd_cons {c : Nat} (rest : Str) (plain : isDigit c = false ∧ c ≠ 46 ∧ c ≠ 101 ∧ c ≠ 69) :
    TokenEnd (c :: rest) := by
  intro d head
  simp only [List.head?_cons, Option.mem_def, Option.some.injEq] at head
  exact head ▸ plain

theorem tokenEnd_renderItems (xs : List Tree) (rest : Str) : TokenEnd (renderItems xs ++ rest) := by
  cases xs <;> exact tokenEnd_cons _ (by decide)

theorem tokenEnd_renderMembers (ms : List (List Piece × Tree)) (rest : Str) :
    TokenEnd (renderMembers ms ++ rest) := by
  cases ms with
  | nil => exact tokenEnd_cons _ (by decide)
  | cons m ms => exact tokenEnd_cons _ (by decide)

mutual

/-- Fuel the parser spends on a rendered tree. -/
def fuelOf : Tree → Nat
  | .arr items => 1 + fuelItems items
  | .obj members => 1 + fuelMembers members
  | _ => 1

def fuelItems : List Tree → Nat
  | [] => 0
  | x :: xs => 1 + fuelOf x + fuelItems xs

def fuelMembers : List (List Piece × Tree) → Nat
  | [] => 0
  | (_, v) :: ms => 1 + fuelOf v + fuelMembers ms

end

theorem const_head (c : Const) : ∃ a tail, c.text = a :: tail ∧
    isWs a = false ∧ a ≠ 123 ∧ a ≠ 91 ∧ a ≠ 34 := by
  cases c <;> exact ⟨_, _, rfl, by decide⟩

theorem bool_head (b : Bool) : ∃ a tail, render (.bool b) = a :: tail ∧
    isWs a = false ∧ a ≠ 123 ∧ a ≠ 91 ∧ a ≠ 34 := by
  cases b
  · exact ⟨102, [97, 108, 115, 101], by simp [render], by decide⟩
  · exact ⟨116, [114, 117, 101], by simp [render], by decide⟩

/-- No rendered tree begins with a closing bracket or brace, or with whitespace. -/
theorem render_head (t : Tree) : ∃ a tail, render t = a :: tail ∧ isWs a = false ∧ a ≠ 93 ∧ a ≠ 125 := by
  cases t with
  | null => exact ⟨_, _, by simp only [render]; rfl, by decide⟩
  | bool b => cases b <;> exact ⟨_, _, by simp only [render]; rfl, by decide⟩
  | const c => cases c <;> exact ⟨_, _, by simp only [render, Const.text]; rfl, by decide⟩
  | num token =>
    obtain ⟨c, tail, shape, head⟩ := number_head token []
    rw [List.append_nil] at shape
    refine ⟨c, tail, by simp only [render, shape], (not_ws_of_number head).1, ?_, ?_⟩ <;>
      rcases head with digit | rfl
    · have := isDigit_iff.mp digit
      omega
    · decide
    · have := isDigit_iff.mp digit
      omega
    · decide
  | str text => exact ⟨_, _, by simp only [render, quote]; rfl, by decide⟩
  | arr items => cases items <;> exact ⟨_, _, by simp only [render]; rfl, by decide⟩
  | obj members => cases members <;> exact ⟨_, _, by simp only [render]; rfl, by decide⟩

theorem skipWs_render (t : Tree) (rest : Str) : skipWs (render t ++ rest) = render t ++ rest := by
  obtain ⟨a, tail, shape, solid, -, -⟩ := render_head t
  rw [shape]
  exact skipWs_of_not_ws _ solid

mutual

/-- The parser inverts rendering, given the fuel the tree needs. -/
theorem parseValue_render (dialect : Dialect) : ∀ (t : Tree), TreeOk dialect t → ∀ (fuel : Nat),
    fuelOf t ≤ fuel → ∀ (rest : Str), TokenEnd rest →
      parseValue dialect fuel (render t ++ rest) = some (t, rest)
  | t, ok, 0, enough, rest, ends => by
    cases t <;> simp only [fuelOf] at enough <;> omega
  | .null, _, fuel + 1, _, rest, _ => by
    rw [parseValue_scalar dialect fuel (c := 110) (by simp only [render]; rfl) (by decide) (by decide)
      (by decide) (by decide), parseScalar_null]
  | .bool b, _, fuel + 1, _, rest, _ => by
    obtain ⟨a, tail, shape, solid, brace, bracket, quote⟩ := bool_head b
    rw [parseValue_scalar dialect fuel (by rw [shape]; rfl) solid brace bracket quote, parseScalar_bool]
  | .const c, ok, fuel + 1, _, rest, _ => by
    obtain ⟨a, tail, shape, solid, brace, bracket, quote⟩ := const_head c
    simp only [render]
    rw [parseValue_scalar dialect fuel (by rw [shape]; rfl) solid brace bracket quote,
      parseScalar_const dialect (by simpa only [TreeOk] using ok)]
  | .num token, ok, fuel + 1, _, rest, ends => by
    obtain ⟨c, tail, shape, head⟩ := number_head token rest
    obtain ⟨solid, brace, bracket, quote, -⟩ := not_ws_of_number head
    simp only [render]
    rw [parseValue_scalar dialect fuel shape solid brace bracket quote,
      parseScalar_number dialect token (by simpa only [TreeOk] using ok) ends]
  | .str text, ok, fuel + 1, _, rest, _ => by
    simp only [render, quote, List.cons_append, List.append_assoc, List.nil_append, parseValue,
      skipWs_of_not_ws _ (show isWs 34 = false by decide), if_neg (show (34 : Nat) ≠ 123 by decide),
      if_neg (show (34 : Nat) ≠ 91 by decide), if_true]
    rw [parseString_pieces dialect text (by simpa only [TreeOk] using ok)]
    rfl
  | .arr [], _, fuel + 1, _, rest, _ => by
    simp [render, parseValue, skipWs, isWs]
  | .arr (x :: xs), ok, fuel + 1, enough, rest, _ => by
    simp only [fuelOf] at enough
    have items := parseArray_render dialect x xs (by simpa only [TreeOk] using ok) fuel (by omega) rest
    obtain ⟨a, tail, shape, solid, notClose, -⟩ := render_head x
    have skipped : skipWs (render x ++ (renderItems xs ++ rest)) = a :: (tail ++ (renderItems xs ++ rest)) := by
      rw [skipWs_render, shape]
      rfl
    simp only [render, List.cons_append, List.append_assoc, parseValue,
      skipWs_of_not_ws _ (show isWs 91 = false by decide), if_neg (show (91 : Nat) ≠ 123 by decide),
      if_true, skipped, if_neg notClose, items, Option.map_some]
  | .obj [], _, fuel + 1, _, rest, _ => by
    simp [render, parseValue, skipWs, isWs]
  | .obj ((k, v) :: ms), ok, fuel + 1, enough, rest, _ => by
    simp only [fuelOf] at enough
    have members := parseObject_render dialect k v ms (by simpa only [TreeOk] using ok) fuel (by omega) rest
    have skipped : ∀ more : Str, skipWs (quote k ++ more) = 34 :: (k.flatMap Piece.text ++ (34 :: more)) := by
      intro more
      simp only [quote, List.cons_append, List.append_assoc, List.nil_append]
      exact skipWs_of_not_ws _ (by decide)
    simp only [render, List.cons_append, List.append_assoc, parseValue,
      skipWs_of_not_ws _ (show isWs 123 = false by decide), if_true, skipped,
      if_neg (show (34 : Nat) ≠ 125 by decide), members, Option.map_some]

theorem parseArray_render (dialect : Dialect) : ∀ (x : Tree) (xs : List Tree),
    ItemsOk dialect (x :: xs) → ∀ (fuel : Nat), fuelItems (x :: xs) ≤ fuel → ∀ (rest : Str),
      parseArray dialect fuel (render x ++ (renderItems xs ++ rest)) = some (x :: xs, rest)
  | x, xs, ok, 0, enough, rest => by
    simp only [fuelItems] at enough
    omega
  | x, [], ok, fuel + 1, enough, rest => by
    simp only [fuelItems] at enough
    simp only [ItemsOk] at ok
    have head := parseValue_render dialect x ok.1 fuel (by omega) (renderItems [] ++ rest)
      (tokenEnd_renderItems [] rest)
    simp only [parseArray, head]
    simp [renderItems, skipWs, isWs]
  | x, y :: ys, ok, fuel + 1, enough, rest => by
    simp only [fuelItems] at enough
    simp only [ItemsOk] at ok
    have head := parseValue_render dialect x ok.1 fuel (by omega) (renderItems (y :: ys) ++ rest)
      (tokenEnd_renderItems (y :: ys) rest)
    have tail := parseArray_render dialect y ys (by simpa only [ItemsOk] using ok.2) fuel
      (by simp only [fuelItems]; omega) rest
    simp only [parseArray, head]
    simp only [renderItems, List.cons_append, List.append_assoc,
      skipWs_of_not_ws _ (show isWs 44 = false by decide), if_true, tail, Option.map_some]

theorem parseObject_render (dialect : Dialect) : ∀ (k : List Piece) (v : Tree)
    (ms : List (List Piece × Tree)), MembersOk dialect ((k, v) :: ms) → ∀ (fuel : Nat),
      fuelMembers ((k, v) :: ms) ≤ fuel → ∀ (rest : Str),
      parseObject dialect fuel (quote k ++ (58 :: (render v ++ (renderMembers ms ++ rest)))) =
        some ((k, v) :: ms, rest)
  | k, v, ms, ok, 0, enough, rest => by
    simp only [fuelMembers] at enough
    omega
  | k, v, [], ok, fuel + 1, enough, rest => by
    simp only [fuelMembers] at enough
    simp only [MembersOk] at ok
    have value := parseValue_render dialect v ok.2.1 fuel (by omega) (renderMembers [] ++ rest)
      (tokenEnd_renderMembers [] rest)
    simp only [quote, List.cons_append, List.append_assoc, List.nil_append, parseObject,
      skipWs_of_not_ws _ (show isWs 34 = false by decide), if_true, parseString_pieces dialect k ok.1,
      skipWs_of_not_ws _ (show isWs 58 = false by decide), value]
    simp [renderMembers, skipWs, isWs]
  | k, v, (k', v') :: ms, ok, fuel + 1, enough, rest => by
    simp only [fuelMembers] at enough
    simp only [MembersOk] at ok
    have value := parseValue_render dialect v ok.2.1 fuel (by omega) (renderMembers ((k', v') :: ms) ++ rest)
      (tokenEnd_renderMembers _ rest)
    have tail := parseObject_render dialect k' v' ms (by simpa only [MembersOk] using ok.2.2) fuel
      (by simp only [fuelMembers]; omega) rest
    simp only [quote, List.cons_append, List.append_assoc, List.nil_append] at tail
    simp only [renderMembers, quote, List.cons_append, List.append_assoc, List.nil_append] at value
    simp only [quote, List.cons_append, List.append_assoc, List.nil_append, parseObject,
      skipWs_of_not_ws _ (show isWs 34 = false by decide), if_true, parseString_pieces dialect k ok.1,
      skipWs_of_not_ws _ (show isWs 58 = false by decide), value, renderMembers,
      skipWs_of_not_ws _ (show isWs 44 = false by decide), tail, Option.map_some]

end

/-! ## Enough fuel -/

mutual

theorem fuelOf_le : ∀ t : Tree, fuelOf t ≤ 2 * (render t).length
  | .null => by simp [fuelOf, render]
  | .bool b => by cases b <;> simp [fuelOf, render]
  | .const c => by cases c <;> simp [fuelOf, render, Const.text]
  | .num token => by
    obtain ⟨c, tail, shape, -⟩ := number_head token []
    rw [List.append_nil] at shape
    simp only [fuelOf, render, shape, List.length_cons]
    omega
  | .str text => by
    simp only [fuelOf, render, quote, List.length_cons]
    omega
  | .arr [] => by simp [fuelOf, fuelItems, render]
  | .arr (x :: xs) => by
    have head := fuelOf_le x
    have tail := fuelItems_le xs
    simp only [fuelOf, fuelItems, render, List.length_cons, List.length_append]
    omega
  | .obj [] => by simp [fuelOf, fuelMembers, render]
  | .obj ((k, v) :: ms) => by
    have head := fuelOf_le v
    have tail := fuelMembers_le ms
    simp only [fuelOf, fuelMembers, render, List.length_cons, List.length_append]
    omega

theorem fuelItems_le : ∀ xs : List Tree, fuelItems xs + 1 ≤ 2 * (renderItems xs).length
  | [] => by simp [fuelItems, renderItems]
  | x :: xs => by
    have head := fuelOf_le x
    have tail := fuelItems_le xs
    simp only [fuelItems, renderItems, List.length_cons, List.length_append]
    omega

theorem fuelMembers_le : ∀ ms : List (List Piece × Tree),
    fuelMembers ms + 1 ≤ 2 * (renderMembers ms).length
  | [] => by simp [fuelMembers, renderMembers]
  | (k, v) :: ms => by
    have head := fuelOf_le v
    have tail := fuelMembers_le ms
    simp only [fuelMembers, renderMembers, List.length_cons, List.length_append]
    omega

end

/-- Parsing what a tree renders to gives the tree. -/
theorem parse_render (dialect : Dialect) (t : Tree) (ok : TreeOk dialect t) :
    parse dialect (render t) = some t := by
  have enough := fuelOf_le t
  have value := parseValue_render dialect t ok (2 * (render t).length + 2) (by omega) [] tokenEnd_nil
  rw [List.append_nil] at value
  simp only [parse, value]
  rfl

theorem render_injective (dialect : Dialect) {s t : Tree} (left : TreeOk dialect s)
    (right : TreeOk dialect t) (same : render s = render t) : s = t := by
  have first := parse_render dialect s left
  rw [same, parse_render dialect t right] at first
  exact (Option.some.inj first).symm

/-! ## The fuel never runs out -/

theorem length_skipWs_le (text : Str) : (skipWs text).length ≤ text.length :=
  (List.dropWhile_sublist isWs).length_le

theorem length_of_skipWs {text rest : Str} {c : Nat} (shape : skipWs text = c :: rest) :
    rest.length < text.length := by
  have := length_skipWs_le text
  rw [shape, List.length_cons] at this
  exact this

theorem readHex4_length {text rest : Str} {n : Nat} (found : readHex4 text = some (n, rest)) :
    rest.length < text.length := by
  unfold readHex4 at found
  split at found
  · split at found
    · simp only [Option.some.injEq, Prod.mk.injEq] at found
      rw [← found.2]
      simp only [List.length_cons]
      omega
    · cases found
  · cases found

/-- A call whose value is wrapped leaves the rest of its inner call. -/
theorem of_map_pair {α β : Type} {call : Option (α × Str)} {wrap : α → β} {y : β} {rest : Str}
    (found : call.map (fun r => (wrap r.1, r.2)) = some (y, rest)) :
    ∃ x, call = some (x, rest) := by
  obtain ⟨⟨x, after⟩, inner, same⟩ := Option.map_eq_some_iff.mp found
  have : after = rest := congrArg Prod.snd same
  exact ⟨x, this ▸ inner⟩

theorem readEscape_length {dialect : Dialect} {text rest : Str} {p : Piece}
    (found : readEscape dialect text = some (p, rest)) : rest.length < text.length := by
  cases text with
  | nil => cases found
  | cons c tail =>
    by_cases u : c = 117
    · simp only [readEscape, if_pos u] at found
      obtain ⟨n, hex⟩ := of_map_pair found
      have := readHex4_length hex
      simp only [List.length_cons]
      omega
    · cases letter : escapeOf c with
      | some v =>
        simp only [readEscape, if_neg u, letter, Option.some.injEq, Prod.mk.injEq] at found
        rw [← found.2, List.length_cons]
        omega
      | none =>
        simp only [readEscape, if_neg u, letter] at found
        split_ifs at found
        simp only [Option.some.injEq, Prod.mk.injEq] at found
        rw [← found.2, List.length_cons]
        omega

theorem readString_length {dialect : Dialect} {fuel : Nat} {text rest : Str} {s : List Piece}
    (found : readString dialect fuel text = some (s, rest)) : rest.length < text.length := by
  induction fuel generalizing text s with
  | zero => cases found
  | succ fuel ih =>
    cases text with
    | nil => cases found
    | cons c tail =>
      simp only [readString] at found
      split_ifs at found with close backslash
      · cases found
        simp
      · cases escape : readEscape dialect tail with
        | none => simp [escape] at found
        | some pair =>
          obtain ⟨p, after⟩ := pair
          simp only [escape] at found
          obtain ⟨s', more⟩ := of_map_pair found
          have := ih more
          have := readEscape_length escape
          simp only [List.length_cons]
          omega
      · obtain ⟨s', more⟩ := of_map_pair found
        have := ih more
        simp only [List.length_cons]
        omega

theorem parseLiteral_length {word text rest : Str} {value t : Tree} (nonempty : word ≠ [])
    (found : parseLiteral word value text = some (t, rest)) : rest.length < text.length := by
  unfold parseLiteral at found
  split_ifs at found with isPre
  cases found
  have bound := (List.isPrefixOf_iff_prefix.mp isPre).length_le
  have := List.length_pos_of_ne_nil nonempty
  simp only [List.length_drop]
  omega

theorem parseScalar_length {dialect : Dialect} {text rest : Str} {t : Tree}
    (found : parseScalar dialect text = some (t, rest)) : rest.length < text.length := by
  simp only [parseScalar, Option.or_eq_some_iff] at found
  rcases found with word | ⟨-, word | ⟨-, word | ⟨-, const | ⟨-, number⟩⟩⟩⟩
  · exact parseLiteral_length (by simp [render]) word
  · exact parseLiteral_length (by simp [render]) word
  · exact parseLiteral_length (by simp [render]) word
  · unfold parseConst at const
    split_ifs at const
    simp only [Option.or_eq_some_iff] at const
    rcases const with word | ⟨-, word | ⟨-, word⟩⟩ <;>
      exact parseLiteral_length (by simp [Const.text]) word
  · simp only [parseNumber] at number
    obtain ⟨token, accepted⟩ := of_map_pair number
    have shape := lexNumber_sound (Option.filter_eq_some_iff.mp accepted).1
    obtain ⟨c, tail, head, -⟩ := number_head token []
    rw [List.append_nil] at head
    rw [shape, head]
    simp only [List.length_append, List.length_cons]
    omega

/-- Every call that succeeds consumes at least one character. -/
theorem parse_length (dialect : Dialect) (fuel : Nat) :
    (∀ text t rest, parseValue dialect fuel text = some (t, rest) → rest.length < text.length) ∧
    (∀ text xs rest, parseArray dialect fuel text = some (xs, rest) → rest.length < text.length) ∧
    (∀ text ms rest, parseObject dialect fuel text = some (ms, rest) → rest.length < text.length) := by
  induction fuel with
  | zero =>
    refine ⟨?_, ?_, ?_⟩ <;> intro text r rest found
    · simp [parseValue] at found
    · simp [parseArray] at found
    · simp [parseObject] at found
  | succ fuel ih =>
    obtain ⟨value, array, object⟩ := ih
    refine ⟨?_, ?_, ?_⟩
    · intro text t rest found
      cases shape : skipWs text with
      | nil => simp [parseValue, shape] at found
      | cons c tail =>
        have outer := length_of_skipWs shape
        have bound : (c :: tail).length ≤ text.length := shape ▸ length_skipWs_le text
        simp only [parseValue, shape] at found
        split_ifs at found with brace bracket quote
        · cases inner : skipWs tail with
          | nil => simp [inner] at found
          | cons d tail' =>
            have := length_of_skipWs inner
            simp only [inner] at found
            split_ifs at found
            · cases found
              omega
            · obtain ⟨ms, found⟩ := of_map_pair found
              have := object _ _ _ found
              omega
        · cases inner : skipWs tail with
          | nil => simp [inner] at found
          | cons d tail' =>
            have := length_of_skipWs inner
            simp only [inner] at found
            split_ifs at found
            · cases found
              omega
            · obtain ⟨xs, found⟩ := of_map_pair found
              have := array _ _ _ found
              omega
        · obtain ⟨s, found⟩ := of_map_pair found
          have := readString_length found
          omega
        · have := parseScalar_length found
          omega
    · intro text xs rest found
      simp only [parseArray] at found
      cases first : parseValue dialect fuel text with
      | none => simp [first] at found
      | some pair =>
        obtain ⟨x, after⟩ := pair
        have := value _ _ _ first
        cases shape : skipWs after with
        | nil => simp [first, shape] at found
        | cons c tail =>
          have := length_of_skipWs shape
          simp only [first, shape] at found
          split_ifs at found
          · obtain ⟨ys, found⟩ := of_map_pair found
            have := array _ _ _ found
            omega
          · cases found
            omega
    · intro text ms rest found
      cases quote : skipWs text with
      | nil => simp [parseObject, quote] at found
      | cons q afterQuote =>
        have := length_of_skipWs quote
        simp only [parseObject, quote] at found
        split_ifs at found
        cases key : parseString dialect afterQuote with
        | none => simp [key] at found
        | some pair =>
          obtain ⟨k, afterKey⟩ := pair
          have := readString_length key
          cases colon : skipWs afterKey with
          | nil => simp [key, colon] at found
          | cons c afterColon =>
            have := length_of_skipWs colon
            simp only [key, colon] at found
            split_ifs at found
            cases first : parseValue dialect fuel afterColon with
            | none => simp [first] at found
            | some pair =>
              obtain ⟨x, after⟩ := pair
              have := value _ _ _ first
              cases shape : skipWs after with
              | nil => simp [first, shape] at found
              | cons c tail =>
                have := length_of_skipWs shape
                simp only [first, shape] at found
                split_ifs at found
                · obtain ⟨ms', found⟩ := of_map_pair found
                  have := object _ _ _ found
                  omega
                · cases found
                  omega

/-- Fuel beyond twice the length of the text changes nothing. -/
theorem parse_fuel (dialect : Dialect) (fuel : Nat) :
    (∀ text, 2 * text.length + 1 ≤ fuel → ∀ more, fuel ≤ more →
      parseValue dialect more text = parseValue dialect fuel text) ∧
    (∀ text, 2 * text.length + 2 ≤ fuel → ∀ more, fuel ≤ more →
      parseArray dialect more text = parseArray dialect fuel text) ∧
    (∀ text, 2 * text.length + 2 ≤ fuel → ∀ more, fuel ≤ more →
      parseObject dialect more text = parseObject dialect fuel text) := by
  induction fuel with
  | zero => refine ⟨?_, ?_, ?_⟩ <;> intro text enough <;> omega
  | succ fuel ih =>
    obtain ⟨value, array, object⟩ := ih
    refine ⟨?_, ?_, ?_⟩ <;> intro text enough more le <;>
      obtain ⟨n, rfl⟩ : ∃ n, more = n + 1 := ⟨more - 1, by omega⟩
    · cases shape : skipWs text with
      | nil => simp only [parseValue, shape]
      | cons c tail =>
        have := length_of_skipWs shape
        simp only [parseValue, shape, object tail (by omega) n (by omega), array tail (by omega) n (by omega)]
    · simp only [parseArray, value text (by omega) n (by omega)]
      cases first : parseValue dialect fuel text with
      | none => rfl
      | some pair =>
        obtain ⟨x, after⟩ := pair
        have := (parse_length dialect fuel).1 _ _ _ first
        cases shape : skipWs after with
        | nil => simp only [shape]
        | cons c tail =>
          have := length_of_skipWs shape
          simp only [shape, array tail (by omega) n (by omega)]
    · cases quote : skipWs text with
      | nil => simp only [parseObject, quote]
      | cons q afterQuote =>
        have := length_of_skipWs quote
        simp only [parseObject, quote]
        cases key : parseString dialect afterQuote with
        | none => rfl
        | some pair =>
          obtain ⟨k, afterKey⟩ := pair
          have := readString_length key
          cases colon : skipWs afterKey with
          | nil => simp only [colon]
          | cons c afterColon =>
            have := length_of_skipWs colon
            simp only [colon, value afterColon (by omega) n (by omega)]
            cases first : parseValue dialect fuel afterColon with
            | none => rfl
            | some pair =>
              obtain ⟨x, after⟩ := pair
              have := (parse_length dialect fuel).1 _ _ _ first
              cases shape : skipWs after with
              | nil => simp only [shape]
              | cons c tail =>
                have := length_of_skipWs shape
                simp only [shape, object tail (by omega) n (by omega)]

/-! ## What the parser returns -/

theorem hexValue_lt {c n : Nat} (found : hexValue c = some n) : n < 16 := by
  unfold hexValue at found
  split_ifs at found <;> simp only [Option.some.injEq] at found <;> omega

theorem readHex4_lt {text rest : Str} {n : Nat} (found : readHex4 text = some (n, rest)) :
    n < 65536 := by
  unfold readHex4 at found
  split at found
  · split at found
    next first second third fourth =>
      simp only [Option.some.injEq, Prod.mk.injEq] at found
      have := hexValue_lt first
      have := hexValue_lt second
      have := hexValue_lt third
      have := hexValue_lt fourth
      omega
    · cases found
  · cases found

theorem escapeOf_lt {letter c : Nat} (found : escapeOf letter = some c) : c < 65536 := by
  unfold escapeOf at found
  split_ifs at found <;> simp only [Option.some.injEq] at found <;> omega

theorem readEscape_ok {dialect : Dialect} {text rest : Str} {p : Piece}
    (found : readEscape dialect text = some (p, rest)) : PieceOk dialect p := by
  cases text with
  | nil => cases found
  | cons c tail =>
    by_cases u : c = 117
    · simp only [readEscape, if_pos u, Option.map_eq_some_iff, Prod.mk.injEq] at found
      obtain ⟨⟨n, after⟩, hex, rfl, -⟩ := found
      exact readHex4_lt hex
    · cases letter : escapeOf c with
      | some v =>
        simp only [readEscape, if_neg u, letter, Option.some.injEq, Prod.mk.injEq] at found
        rw [← found.1]
        exact escapeOf_lt letter
      | none =>
        simp only [readEscape, if_neg u, letter] at found
        split_ifs at found with odd
        simp only [Option.some.injEq, Prod.mk.injEq] at found
        rw [← found.1]
        exact ⟨odd, letter, u⟩

theorem readString_ok {dialect : Dialect} {fuel : Nat} {text rest : Str} {s : List Piece}
    (found : readString dialect fuel text = some (s, rest)) : PiecesOk dialect s := by
  induction fuel generalizing text s rest with
  | zero => cases found
  | succ fuel ih =>
    cases text with
    | nil => cases found
    | cons c tail =>
      simp only [readString] at found
      split_ifs at found with close backslash control
      · cases found
        exact nofun
      · cases escape : readEscape dialect tail with
        | none => simp [escape] at found
        | some pair =>
          obtain ⟨p, after⟩ := pair
          simp only [escape, Option.map_eq_some_iff, Prod.mk.injEq] at found
          obtain ⟨⟨s', rest'⟩, more, rfl, -⟩ := found
          exact List.forall_mem_cons.mpr ⟨readEscape_ok escape, ih more⟩
      · simp only [Option.map_eq_some_iff, Prod.mk.injEq] at found
        obtain ⟨⟨s', rest'⟩, more, rfl, -⟩ := found
        exact List.forall_mem_cons.mpr ⟨⟨Nat.not_lt.mp control, close, backslash⟩, ih more⟩

theorem parseLiteral_value {word text rest : Str} {value t : Tree}
    (found : parseLiteral word value text = some (t, rest)) : t = value := by
  unfold parseLiteral at found
  split_ifs at found
  exact (congrArg Prod.fst (Option.some.inj found)).symm

/-- A scalar is accepted by the dialect and nests nothing. -/
theorem parseScalar_ok {dialect : Dialect} {text rest : Str} {t : Tree}
    (found : parseScalar dialect text = some (t, rest)) : TreeOk dialect t ∧ depth t = 0 := by
  simp only [parseScalar, Option.or_eq_some_iff] at found
  rcases found with word | ⟨-, word | ⟨-, word | ⟨-, const | ⟨-, number⟩⟩⟩⟩
  · simp [parseLiteral_value word, TreeOk, depth]
  · simp [parseLiteral_value word, TreeOk, depth]
  · simp [parseLiteral_value word, TreeOk, depth]
  · unfold parseConst at const
    split_ifs at const with accepted
    simp only [Option.or_eq_some_iff] at const
    rcases const with word | ⟨-, word | ⟨-, word⟩⟩ <;>
      simp [parseLiteral_value word, TreeOk, depth, accepted]
  · simp only [parseNumber, Option.map_eq_some_iff, Prod.mk.injEq] at number
    obtain ⟨r, accepted, rfl, -⟩ := number
    simp [depth, TreeOk, (Option.filter_eq_some_iff.mp accepted).2]

/-- Every tree the parser returns is one its dialect can express. -/
theorem parse_ok (dialect : Dialect) (fuel : Nat) :
    (∀ text t rest, parseValue dialect fuel text = some (t, rest) → TreeOk dialect t) ∧
    (∀ text xs rest, parseArray dialect fuel text = some (xs, rest) → ItemsOk dialect xs) ∧
    (∀ text ms rest, parseObject dialect fuel text = some (ms, rest) → MembersOk dialect ms) := by
  induction fuel with
  | zero =>
    refine ⟨?_, ?_, ?_⟩ <;> intro text r rest found
    · simp [parseValue] at found
    · simp [parseArray] at found
    · simp [parseObject] at found
  | succ fuel ih =>
    obtain ⟨value, array, object⟩ := ih
    refine ⟨?_, ?_, ?_⟩
    · intro text t rest found
      cases shape : skipWs text with
      | nil => simp [parseValue, shape] at found
      | cons c tail =>
        simp only [parseValue, shape] at found
        split_ifs at found with brace bracket quote
        · cases inner : skipWs tail with
          | nil => simp [inner] at found
          | cons d tail' =>
            simp only [inner] at found
            split_ifs at found with close
            · cases found
              simp [TreeOk, MembersOk]
            · simp only [Option.map_eq_some_iff, Prod.mk.injEq] at found
              obtain ⟨⟨ms, after⟩, found, rfl, -⟩ := found
              simpa only [TreeOk] using object _ _ _ found
        · cases inner : skipWs tail with
          | nil => simp [inner] at found
          | cons d tail' =>
            simp only [inner] at found
            split_ifs at found with close
            · cases found
              simp [TreeOk, ItemsOk]
            · simp only [Option.map_eq_some_iff, Prod.mk.injEq] at found
              obtain ⟨⟨xs, after⟩, found, rfl, -⟩ := found
              simpa only [TreeOk] using array _ _ _ found
        · simp only [Option.map_eq_some_iff, Prod.mk.injEq] at found
          obtain ⟨⟨s, after⟩, found, rfl, -⟩ := found
          simpa only [TreeOk] using readString_ok found
        · exact (parseScalar_ok found).1
    · intro text xs rest found
      simp only [parseArray] at found
      cases first : parseValue dialect fuel text with
      | none => simp [first] at found
      | some pair =>
        obtain ⟨x, after⟩ := pair
        cases shape : skipWs after with
        | nil => simp [first, shape] at found
        | cons c tail =>
          simp only [first, shape] at found
          split_ifs at found
          · simp only [Option.map_eq_some_iff, Prod.mk.injEq] at found
            obtain ⟨⟨ys, after'⟩, found, rfl, -⟩ := found
            exact ⟨value _ _ _ first, array _ _ _ found⟩
          · cases found
            exact ⟨value _ _ _ first, trivial⟩
    · intro text ms rest found
      cases quote : skipWs text with
      | nil => simp [parseObject, quote] at found
      | cons q afterQuote =>
        simp only [parseObject, quote] at found
        split_ifs at found
        cases key : parseString dialect afterQuote with
        | none => simp [key] at found
        | some pair =>
          obtain ⟨k, afterKey⟩ := pair
          cases colon : skipWs afterKey with
          | nil => simp [key, colon] at found
          | cons c afterColon =>
            simp only [key, colon] at found
            split_ifs at found
            cases first : parseValue dialect fuel afterColon with
            | none => simp [first] at found
            | some pair =>
              obtain ⟨x, after⟩ := pair
              cases shape : skipWs after with
              | nil => simp [first, shape] at found
              | cons c tail =>
                simp only [first, shape] at found
                split_ifs at found
                · simp only [Option.map_eq_some_iff, Prod.mk.injEq] at found
                  obtain ⟨⟨ms', after'⟩, found, rfl, -⟩ := found
                  exact ⟨readString_ok key, value _ _ _ first, object _ _ _ found⟩
                · cases found
                  exact ⟨readString_ok key, value _ _ _ first, trivial⟩

theorem treeOk_of_parse {dialect : Dialect} {text : Str} {t : Tree}
    (parsed : parse dialect text = some t) : TreeOk dialect t := by
  unfold parse at parsed
  cases found : parseValue dialect (2 * text.length + 2) text with
  | none => simp [found] at parsed
  | some pair =>
    obtain ⟨tree, rest⟩ := pair
    simp only [found] at parsed
    split_ifs at parsed
    cases parsed
    exact (parse_ok dialect _).1 _ _ _ found

/-! ## Nesting -/

/-- On a text it accepts, the parser nests exactly as deeply as the value it returns. -/
theorem deepest_of_parse (dialect : Dialect) (fuel : Nat) :
    (∀ text t rest, parseValue dialect fuel text = some (t, rest) →
      deepest dialect fuel text = depth t) ∧
    (∀ text xs rest, parseArray dialect fuel text = some (xs, rest) →
      deepestItem dialect fuel text = depthItems xs) ∧
    (∀ text ms rest, parseObject dialect fuel text = some (ms, rest) →
      deepestMember dialect fuel text = depthMembers ms) := by
  induction fuel with
  | zero =>
    refine ⟨?_, ?_, ?_⟩ <;> intro text r rest found
    · simp [parseValue] at found
    · simp [parseArray] at found
    · simp [parseObject] at found
  | succ fuel ih =>
    obtain ⟨value, array, object⟩ := ih
    refine ⟨?_, ?_, ?_⟩
    · intro text t rest found
      cases shape : skipWs text with
      | nil => simp [parseValue, shape] at found
      | cons c tail =>
        simp only [parseValue, shape] at found
        simp only [deepest, shape]
        split_ifs at found with brace bracket quote
        · rw [if_pos brace]
          cases inner : skipWs tail with
          | nil => simp [inner] at found
          | cons d tail' =>
            simp only [inner] at found
            split_ifs at found with close
            · cases found
              simp [close, depth, depthMembers]
            · simp only [Option.map_eq_some_iff, Prod.mk.injEq] at found
              obtain ⟨⟨ms, after⟩, found, rfl, -⟩ := found
              simp only [if_neg close, depth, object _ _ _ found]
        · rw [if_neg brace, if_pos bracket]
          cases inner : skipWs tail with
          | nil => simp [inner] at found
          | cons d tail' =>
            simp only [inner] at found
            split_ifs at found with close
            · cases found
              simp [close, depth, depthItems]
            · simp only [Option.map_eq_some_iff, Prod.mk.injEq] at found
              obtain ⟨⟨xs, after⟩, found, rfl, -⟩ := found
              simp only [if_neg close, depth, array _ _ _ found]
        · rw [if_neg brace, if_neg bracket]
          simp only [Option.map_eq_some_iff, Prod.mk.injEq] at found
          obtain ⟨⟨s, after⟩, -, rfl, -⟩ := found
          simp [depth]
        · rw [if_neg brace, if_neg bracket, (parseScalar_ok found).2]
    · intro text xs rest found
      simp only [parseArray] at found
      simp only [deepestItem]
      cases first : parseValue dialect fuel text with
      | none => simp [first] at found
      | some pair =>
        obtain ⟨x, after⟩ := pair
        cases shape : skipWs after with
        | nil => simp [first, shape] at found
        | cons c tail =>
          simp only [first, shape] at found
          simp only [value _ _ _ first, shape]
          split_ifs at found with comma close
          · simp only [Option.map_eq_some_iff, Prod.mk.injEq] at found
            obtain ⟨⟨ys, after'⟩, found, rfl, -⟩ := found
            simp only [if_pos comma, array _ _ _ found, depthItems]
          · cases found
            simp [comma, depthItems]
    · intro text ms rest found
      simp only [deepestMember]
      cases quote : skipWs text with
      | nil => simp [parseObject, quote] at found
      | cons q afterQuote =>
        simp only [parseObject, quote] at found
        split_ifs at found with isQuote
        simp only [if_pos isQuote]
        cases key : parseString dialect afterQuote with
        | none => simp [key] at found
        | some pair =>
          obtain ⟨k, afterKey⟩ := pair
          cases colon : skipWs afterKey with
          | nil => simp [key, colon] at found
          | cons c afterColon =>
            simp only [key, colon] at found
            split_ifs at found with isColon
            cases first : parseValue dialect fuel afterColon with
            | none => simp [first] at found
            | some pair =>
              obtain ⟨x, after⟩ := pair
              cases shape : skipWs after with
              | nil => simp [first, shape] at found
              | cons c tail =>
                simp only [first, shape] at found
                simp only [colon, if_pos isColon, first, value _ _ _ first, shape]
                split_ifs at found with comma close
                · simp only [Option.map_eq_some_iff, Prod.mk.injEq] at found
                  obtain ⟨⟨ms', after'⟩, found, rfl, -⟩ := found
                  simp only [if_pos comma, object _ _ _ found, depthMembers]
                · cases found
                  simp [comma, depthMembers]

theorem nesting_of_parse {dialect : Dialect} {text : Str} {t : Tree}
    (parsed : parse dialect text = some t) : nesting dialect text = depth t := by
  unfold parse at parsed
  cases found : parseValue dialect (2 * text.length + 2) text with
  | none => simp [found] at parsed
  | some pair =>
    obtain ⟨tree, rest⟩ := pair
    simp only [found] at parsed
    split_ifs at parsed
    cases parsed
    exact (deepest_of_parse dialect _).1 _ _ _ found

/-! ## Braces -/

theorem renderMembers_last (ms : List (List Piece × Tree)) :
    ∃ body, renderMembers ms = body ++ [125] := by
  induction ms with
  | nil => exact ⟨[], by simp [renderMembers]⟩
  | cons p ms ih =>
    obtain ⟨k, v⟩ := p
    obtain ⟨body, last⟩ := ih
    exact ⟨44 :: (quote k ++ (58 :: (render v ++ body))), by simp [renderMembers, last]⟩

/-- An object is rendered between braces. -/
theorem render_obj_braces (ms : List (List Piece × Tree)) :
    ∃ body, render (.obj ms) = 123 :: (body ++ [125]) := by
  cases ms with
  | nil => exact ⟨[], by simp [render]⟩
  | cons p ms =>
    obtain ⟨k, v⟩ := p
    obtain ⟨body, last⟩ := renderMembers_last ms
    exact ⟨quote k ++ (58 :: (render v ++ body)), by simp [render, last]⟩

end Tesera.Text.JsonRoundTrip
