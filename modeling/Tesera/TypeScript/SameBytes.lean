import Tesera.FloatTokens
import Tesera.TypeScript.FileJournal
import Tesera.Canonical

/-!
The canonical bytes that Python writes of a payload without floats, and the text that `Canonical.ts` makes
of the same payload or of the line. A payload has its strings in code points on one side and in code units
on the other, and its integers as doubles.
-/

namespace Tesera.TypeScript.SameBytes
open Tesera.Text Tesera.Text.Unicode Tesera.Text.Number Tesera.Text.Decimal Tesera.Text.Json Tesera.Text.Utf8Lossy
open Tesera.Text.JsonRoundTrip (PiecesOk TreeOk render_injective)
open Tesera.Python.JsonCodec (pieceOf piecesOf)
open Tesera.Canonical (canonicalJsonBytes canonicalJsonBytes_eq_ok)
open Tesera.TypeScript.Value Tesera.TypeScript.Escape Tesera.TypeScript.Canonical Tesera.TypeScript.RawTree
open Tesera.TypeScript.FileJournal (bufferOf textOf)
open Tesera.FloatTokens (FarExponent numberToken_of_far numberToken_of_plain padExponent_of_plain padExponent_scientific exp_scientific
  EncodedAlike)

/-! ## Strings in code units -/

theorem utf16Encode_cons (n : Nat) (text : Str) : utf16Encode (n :: text) = unitsOf n ++ utf16Encode text := List.flatMap_cons

theorem utf16Encode_append (a b : Str) : utf16Encode (a ++ b) = utf16Encode a ++ utf16Encode b := List.flatMap_append

theorem utf16Encode_basic {text : Str} (basic : ∀ c ∈ text, c < 0x10000) : utf16Encode text = text := by
  induction text with
  | nil => rfl
  | cons c text ih =>
    rw [utf16Encode_cons, unitsOf, if_pos (basic c List.mem_cons_self), ih (fun d member => basic d (List.mem_cons_of_mem c member))]
    rfl

/-- Text of ASCII stands at the head of the units where it stands at the head of the text. -/
theorem isPrefixOf_encode {pattern : Str} (ascii : ∀ c ∈ pattern, c < 128) (text : Str) :
    pattern.isPrefixOf (utf16Encode text) = pattern.isPrefixOf text := by
  induction pattern generalizing text with
  | nil => rw [List.isPrefixOf_nil_left, List.isPrefixOf_nil_left]
  | cons c pattern ih =>
    have small := ascii c List.mem_cons_self
    cases text with
    | nil => rfl
    | cons n text =>
      rw [utf16Encode_cons, unitsOf]
      by_cases basic : n < 0x10000
      · rw [if_pos basic, List.singleton_append, List.isPrefixOf_cons_cons, List.isPrefixOf_cons_cons,
          ih (fun d member => ascii d (List.mem_cons_of_mem c member))]
      · have high : (c == 0xD800 + (n - 0x10000) / 0x400) = false := beq_false_of_ne (by omega)
        have other : (c == n) = false := beq_false_of_ne (by omega)
        rw [if_neg basic, List.cons_append, List.isPrefixOf_cons_cons, List.isPrefixOf_cons_cons, high, other, Bool.false_and, Bool.false_and]

/-- The replacement acts on the text as on its units. -/
theorem replaceAll_encode {pattern : Str} {by' : Nat} (ascii : ∀ c ∈ pattern, c < 128) (some : pattern ≠ []) (basic : by' < 0x10000) :
    ∀ (text : Str) (skip : Nat), (∀ c ∈ text.take skip, c < 128) →
      replaceAll pattern by' skip (utf16Encode text) = utf16Encode (replaceAll pattern by' skip text) := by
  intro text
  induction text with
  | nil =>
    intro skip _
    cases skip <;> rfl
  | cons n text ih =>
    intro skip small
    cases skip with
    | succ skip =>
      rw [List.take_succ_cons, List.forall_mem_cons] at small
      have inBasic : n < 0x10000 := by omega
      rw [utf16Encode_cons, unitsOf, if_pos inBasic, List.singleton_append, replaceAll, replaceAll]
      exact ih skip small.2
    | zero =>
      by_cases inBasic : n < 0x10000
      · have here : utf16Encode (n :: text) = n :: utf16Encode text := by
          rw [utf16Encode_cons, unitsOf, if_pos inBasic, List.singleton_append]
        have same := isPrefixOf_encode ascii (n :: text)
        rw [here] at same ⊢
        rw [replaceAll, replaceAll, same]
        by_cases found : pattern.isPrefixOf (n :: text) = true
        · have within : ∀ c ∈ text.take (pattern.length - 1), c < 128 := by
            obtain ⟨rest, whole⟩ := List.isPrefixOf_iff_prefix.mp found
            obtain ⟨head, tail, shape⟩ := List.exists_cons_of_ne_nil some
            rw [shape, List.cons_append, List.cons.injEq] at whole
            intro c member
            rw [shape, List.length_cons, Nat.add_sub_cancel, ← whole.2, List.take_left] at member
            exact ascii c (shape ▸ List.mem_cons_of_mem head member)
          rw [if_pos found, if_pos found, utf16Encode_cons, unitsOf, if_pos basic, ih _ within]
          rfl
        · rw [if_neg found, if_neg found, ih 0 (by simp), utf16Encode_cons, unitsOf, if_pos inBasic]
          rfl
      · obtain ⟨head, tail, shape⟩ := List.exists_cons_of_ne_nil some
        have low : head < 128 := ascii head (shape ▸ List.mem_cons_self)
        have absent : ∀ c rest, 128 ≤ c → ¬ pattern.isPrefixOf (c :: rest) = true := by
          intro c rest large
          rw [shape, List.isPrefixOf_cons_cons, beq_false_of_ne (by omega), Bool.false_and]
          exact Bool.false_ne_true
        rw [utf16Encode_cons, unitsOf, if_neg inBasic]
        change replaceAll pattern by' 0 (_ :: _ :: utf16Encode text) = _
        rw [replaceAll, if_neg (absent _ _ (by omega)), replaceAll, if_neg (absent _ _ (by omega)), replaceAll,
          if_neg (absent _ _ (by omega)), ih 0 (by simp), utf16Encode_cons, unitsOf, if_neg inBasic]
        rfl

theorem mem_replaceAll {pattern : Str} {by' c : Nat} (text : Str) : ∀ skip, c ∈ replaceAll pattern by' skip text → c = by' ∨ c ∈ text := by
  induction text with
  | nil =>
    intro skip member
    cases skip <;> cases member
  | cons n text ih =>
    intro skip member
    cases skip with
    | succ skip =>
      rw [replaceAll] at member
      exact (ih skip member).imp_right (List.mem_cons_of_mem n)
    | zero =>
      rw [replaceAll] at member
      split_ifs at member
      · apply (List.mem_cons.mp member).elim
        · exact fun same => .inl same
        · intro later
          exact (ih _ later).imp_right (List.mem_cons_of_mem n)
      · apply (List.mem_cons.mp member).elim
        · intro same
          exact .inr (same ▸ List.mem_cons_self)
        · intro later
          exact (ih _ later).imp_right (List.mem_cons_of_mem n)

/-! ## What `JSON.stringify` writes -/

theorem stringifyPieces_cons {u : Nat} (rest : Str) (low : isHigh u = false) :
    stringifyPieces (u :: rest) = lonePiece u :: stringifyPieces rest := by
  cases rest with
  | nil => rfl
  | cons v rest => simp only [stringifyPieces, low, Bool.false_and, Bool.false_eq_true, if_false]

/-- A scalar is escaped by both languages alike. -/
theorem lonePiece_eq {n : Nat} (scalar : IsScalar n) : lonePiece n = pieceOf n := by
  rw [lonePiece, pieceOf, not_surrogate_of_isScalar scalar]
  simp

theorem pieceOf_text {n : Nat} (basic : n < 0x10000) : utf16Encode (pieceOf n).text = (pieceOf n).text := by
  apply utf16Encode_basic
  unfold pieceOf
  split_ifs
  · have ascii := (JsonChars.every_piece (P := fun c => c < 0x10000) (fun c _ high => by omega) (.esc n)).mpr
    exact ascii (List.forall_mem_nil _)
  · intro u member
    rw [List.mem_singleton.mp member]
    exact basic

/-- A well-formed string is written character by character. -/
theorem stringify_encode {text : Str} (scalars : ∀ n ∈ text, IsScalar n) :
    (stringifyPieces (utf16Encode text)).flatMap Piece.text = utf16Encode ((piecesOf text).flatMap Piece.text) := by
  induction text with
  | nil => rfl
  | cons n text ih =>
    have scalar := scalars n List.mem_cons_self
    have tail := ih (fun m member => scalars m (List.mem_cons_of_mem n member))
    have texts : utf16Encode ((piecesOf (n :: text)).flatMap Piece.text) =
        utf16Encode (pieceOf n).text ++ utf16Encode ((piecesOf text).flatMap Piece.text) := by
      rw [piecesOf, List.map_cons, List.flatMap_cons, utf16Encode_append]
      rfl
    rw [utf16Encode_cons, texts]
    by_cases basic : n < 0x10000
    · have low : isHigh n = false := (Bool.or_eq_false_iff.mp (not_surrogate_of_isScalar scalar)).1
      rw [pieceOf_text basic, ← tail, unitsOf, if_pos basic, List.singleton_append, stringifyPieces_cons _ low, List.flatMap_cons,
        lonePiece_eq scalar]
    · have high : isHigh (0xD800 + (n - 0x10000) / 0x400) = true := by
        simp only [isHigh, IsScalar] at *
        simp only [decide_eq_true_eq]
        omega
      have low : isLow (0xDC00 + (n - 0x10000) % 0x400) = true := by
        simp only [isLow, decide_eq_true_eq]
        omega
      have plain : pieceOf n = .lit n := if_neg (by omega)
      rw [plain, ← tail]
      simp only [unitsOf, if_neg basic, List.cons_append, List.nil_append, stringifyPieces, high, low,
        Bool.and_self, if_true, List.flatMap_cons, Piece.text, utf16Encode, List.flatMap_nil]

theorem quote_encode {text : Str} (scalars : ∀ n ∈ text, IsScalar n) :
    quote (stringifyPieces (utf16Encode text)) = utf16Encode (quote (piecesOf text)) := by
  have mark : utf16Encode [34] = [34] := by decide
  rw [quote_eq, quote_eq, stringify_encode scalars, ← List.singleton_append, ← List.singleton_append (l := _ ++ [34]), utf16Encode_append,
    utf16Encode_append, mark]

theorem wellFormed_replaceAll {pattern s : Str} {by' : Nat} (ascii : ∀ c ∈ pattern, c < 128) (some : pattern ≠ [])
    (low : by' < 0xD800) (wellFormed : WellFormed s) : WellFormed (replaceAll pattern by' 0 s) := by
  obtain ⟨text, scalars, same⟩ := wellFormed
  rw [same, replaceAll_encode ascii some (by omega) text 0 (by simp)]
  refine ⟨_, ?_, rfl⟩
  intro n member
  apply (mem_replaceAll text 0 member).elim
  · intro here
    exact here ▸ .inl low
  · exact scalars n

/-- What `escapeString` makes of any string is well formed. -/
theorem wellFormed_escapeString {s : Str} (units : Units s) : WellFormed (escapeString s) := by
  have ascii : ∀ separator, ∀ c ∈ markOf separator, c < 128 := by
    intro separator
    unfold markOf lettersOf
    split_ifs <;> decide
  have mark : WellFormed [34] := wellFormed_low (by simp)
  have quoted : WellFormed (stringify s) := by
    rw [stringify, quote_eq]
    exact wellFormed_append (a := [34]) mark (wellFormed_append (wellFormed_stringify s units) mark)
  rw [escapeString]
  exact wellFormed_replaceAll (ascii _) (List.cons_ne_nil _ _) (by decide)
    (wellFormed_replaceAll (ascii _) (List.cons_ne_nil _ _) (by decide) quoted)

mutual

/-- A canonical text of well-formed strings is well formed. -/
theorem wellFormed_canonical : ∀ (v : Json) (text : Str), v.Strings WellFormed → canonical v = some text → WellFormed text
  | .null, text, _, written => by
      rw [← Option.some.inj written]
      exact wellFormed_low (by decide)
  | .bool true, text, _, written => by
      rw [← Option.some.inj written]
      exact wellFormed_low (by decide)
  | .bool false, text, _, written => by
      rw [← Option.some.inj written]
      exact wellFormed_low (by decide)
  | .num x, text, _, written => by
      rw [canonical] at written
      obtain ⟨token, _, same⟩ := Option.map_eq_some_iff.mp written
      rw [← same]
      exact wellFormed_low (JsonChars.every_token (fun c _ high => by omega) _)
  | .str s, text, wellFormed, written => by
      rw [canonical] at written
      rw [Json.Strings] at wellFormed
      rw [← Option.some.inj written]
      exact wellFormed_escapeString (units_of_wellFormed wellFormed)
  | .arr items, text, wellFormed, written => by
      rw [canonical] at written
      rw [Json.Strings] at wellFormed
      obtain ⟨parts, found, same⟩ := Option.map_eq_some_iff.mp written
      rw [← same]
      exact wellFormed_bracketed (wellFormed_parts items parts wellFormed found) (by decide) (by decide)
  | .obj members, text, wellFormed, written => by
      rw [canonical] at written
      rw [Json.Strings] at wellFormed
      obtain ⟨parts, found, same⟩ := Option.map_eq_some_iff.mp written
      rw [← same]
      exact wellFormed_bracketed (wellFormed_memberParts members parts wellFormed found) (by decide) (by decide)

theorem wellFormed_parts : ∀ (items : List Json) (parts : List Str), StringsItems WellFormed items → canonicalItems items = some parts →
    ∀ part ∈ parts, WellFormed part
  | [], parts, _, written => by
      rw [← Option.some.inj written]
      exact List.forall_mem_nil _
  | v :: items, parts, wellFormed, written => by
      rw [canonicalItems] at written
      rw [StringsItems] at wellFormed
      obtain ⟨text, first, rest⟩ := Option.bind_eq_some_iff.mp written
      obtain ⟨others, later, same⟩ := Option.map_eq_some_iff.mp rest
      rw [← same, List.forall_mem_cons]
      exact ⟨wellFormed_canonical v text wellFormed.1 first, wellFormed_parts items others wellFormed.2 later⟩

theorem wellFormed_memberParts : ∀ (members : Record) (parts : List Str), StringsMembers WellFormed members →
    canonicalMembers members = some parts → ∀ part ∈ parts, WellFormed part
  | [], parts, _, written => by
      rw [← Option.some.inj written]
      exact List.forall_mem_nil _
  | (k, v) :: members, parts, wellFormed, written => by
      rw [canonicalMembers] at written
      rw [StringsMembers] at wellFormed
      obtain ⟨text, first, rest⟩ := Option.bind_eq_some_iff.mp written
      obtain ⟨others, later, same⟩ := Option.map_eq_some_iff.mp rest
      rw [← same, List.forall_mem_cons]
      refine ⟨?_, wellFormed_memberParts members others wellFormed.2.2 later⟩
      exact wellFormed_append (wellFormed_escapeString (units_of_wellFormed wellFormed.1))
        (wellFormed_append (a := [58]) (wellFormed_low (by simp)) (wellFormed_canonical v text wellFormed.2.1 first))

end

/-! ## A payload in both languages -/

mutual

/-- A value without floats. -/
def FloatFree : Python.Value.Json → Prop
  | .float _ => False
  | .list items => FloatFreeItems items
  | .dict members => FloatFreeMembers members
  | _ => True

def FloatFreeItems : List Python.Value.Json → Prop
  | [] => True
  | v :: items => FloatFree v ∧ FloatFreeItems items

def FloatFreeMembers : Python.Value.Dict → Prop
  | [] => True
  | (_, v) :: members => FloatFree v ∧ FloatFreeMembers members

end

section Values

variable (engine : Engine)

mutual

/-- The value that JavaScript has of a payload. -/
def valueOf : Python.Value.Json → Json
  | .null => .null
  | .bool b => .bool b
  | .int n => .num (engine.number (Token.ofInt n))
  | .float .nan => .num .nan
  | .float (.inf neg) => .num (.infinite neg)
  | .float (.finite d) => .num (.finite d)
  | .str s => .str (utf16Encode s)
  | .list items => .arr (valuesOf items)
  | .dict members => .obj (Members.ofPairs (recordOf members))

def valuesOf : List Python.Value.Json → List Json
  | [] => []
  | v :: items => valueOf v :: valuesOf items

def recordOf : Python.Value.Dict → Record
  | [] => []
  | (k, v) :: members => (utf16Encode k, valueOf v) :: recordOf members

end

mutual

/-- A payload that both languages write alike. Each integer has at most 21 digits and is the shortest
decimal of its double; no string has the letters of a separator after a backslash; and the names of each
object are in one order by code points and by code units. -/
def SameText : Python.Value.Json → Prop
  | .int n => engine.double (decOf (Token.ofInt n)) = some (decOf (Token.ofInt n)) ∧ (decOf (Token.ofInt n)).point ≤ 21
  | .str s => Unmarked (utf16Encode s)
  | .list items => SameItems items
  | .dict members => Members.Sorted (recordOf engine members) ∧ SameMembers members
  | _ => True

def SameItems : List Python.Value.Json → Prop
  | [] => True
  | v :: items => SameText v ∧ SameItems items

def SameMembers : Python.Value.Dict → Prop
  | [] => True
  | (k, v) :: members => Unmarked (utf16Encode k) ∧ SameText v ∧ SameMembers members

end

end Values

mutual

/-- The tree of the text that Python writes, in code units. -/
def unitTree : Python.Value.Json → Tree
  | .null => .null
  | .bool b => .bool b
  | .int n => .num (Token.ofInt n)
  | .float _ => .null
  | .str s => .str (stringifyPieces (utf16Encode s))
  | .list items => .arr (unitItems items)
  | .dict members => .obj (unitMembers members)

def unitItems : List Python.Value.Json → List Tree
  | [] => []
  | v :: items => unitTree v :: unitItems items

def unitMembers : Python.Value.Dict → List (List Piece × Tree)
  | [] => []
  | (k, v) :: members => (stringifyPieces (utf16Encode k), unitTree v) :: unitMembers members

end

/-- The characters of a text are scalars. -/
def Scalars (text : Str) : Prop := ∀ n ∈ text, IsScalar n

theorem scalars_append {a b : Str} : Scalars (a ++ b) ↔ Scalars a ∧ Scalars b := List.forall_mem_append

/-! ## The text of Python in code units -/

theorem encode_intercalate (parts : List Str) :
    utf16Encode (List.intercalate [44] parts) = List.intercalate [44] (parts.map utf16Encode) := by
  cases parts with
  | nil => rfl
  | cons part parts =>
    rw [intercalate_commas, List.map_cons, intercalate_commas, utf16Encode_append]
    apply congrArg
    induction parts with
    | nil => rfl
    | cons next parts ih =>
      rw [List.flatMap_cons, utf16Encode_append, ih, List.map_cons, List.flatMap_cons]
      rfl

theorem encode_bracketed {first last : Nat} (low : first < 0x10000) (low' : last < 0x10000) (parts : List Str) :
    utf16Encode (first :: (List.intercalate [44] parts ++ [last])) =
      first :: (List.intercalate [44] (parts.map utf16Encode) ++ [last]) := by
  rw [utf16Encode_cons, utf16Encode_append, encode_intercalate, unitsOf, if_pos low]
  rw [show utf16Encode [last] = [last] from utf16Encode_basic (List.forall_mem_singleton.mpr low')]
  rfl

theorem encode_member (k v : Str) : utf16Encode (k ++ 58 :: v) = utf16Encode k ++ 58 :: utf16Encode v := by
  rw [utf16Encode_append, utf16Encode_cons]
  rfl

mutual

theorem render_unitTree : ∀ v : Python.Value.Json, FloatFree v → Scalars (Python.Writable.texts v) →
    render (unitTree v) = utf16Encode (render (Python.JsonCodec.toTree v))
  | .null, _, _ => by
      simp only [unitTree, Python.JsonCodec.toTree, render]
      decide
  | .bool true, _, _ => by
      simp only [unitTree, Python.JsonCodec.toTree, render]
      decide
  | .bool false, _, _ => by
      simp only [unitTree, Python.JsonCodec.toTree, render]
      decide
  | .int n, _, _ => by
      simp only [unitTree, Python.JsonCodec.toTree, render]
      exact (utf16Encode_basic (JsonChars.every_token (fun c _ high => by omega) _)).symm
  | .float _, free, _ => free.elim
  | .str s, _, scalars => by
      simp only [unitTree, Python.JsonCodec.toTree, render]
      exact quote_encode scalars
  | .list items, free, scalars => by
      rw [unitTree, Python.JsonCodec.toTree, render_arr, render_arr, bracketed, bracketed, encode_bracketed (by decide) (by decide),
        render_unitItems items free scalars]
  | .dict members, free, scalars => by
      rw [unitTree, Python.JsonCodec.toTree, render_obj, render_obj, braced, braced, encode_bracketed (by decide) (by decide),
        render_unitMembers members free scalars]

theorem render_unitItems : ∀ items : List Python.Value.Json, FloatFreeItems items → Scalars (Python.Writable.textsItems items) →
    (unitItems items).map render = ((Python.JsonCodec.toItems items).map render).map utf16Encode
  | [], _, _ => by simp only [unitItems, Python.JsonCodec.toItems, List.map_nil]
  | v :: items, free, scalars => by
      rw [Python.Writable.textsItems, scalars_append] at scalars
      simp only [unitItems, Python.JsonCodec.toItems, List.map_cons, render_unitTree v free.1 scalars.1,
        render_unitItems items free.2 scalars.2]

theorem render_unitMembers : ∀ members : Python.Value.Dict, FloatFreeMembers members → Scalars (Python.Writable.textsMembers members) →
    (unitMembers members).map renderMember = ((Python.JsonCodec.toMembers members).map renderMember).map utf16Encode
  | [], _, _ => by simp only [unitMembers, Python.JsonCodec.toMembers, List.map_nil]
  | (k, v) :: members, free, scalars => by
      rw [Python.Writable.textsMembers, scalars_append, scalars_append] at scalars
      simp only [unitMembers, Python.JsonCodec.toMembers, List.map_cons, renderMember, quote_encode scalars.1,
        render_unitTree v free.1 scalars.2.1, render_unitMembers members free.2 scalars.2.2, encode_member]

end

/-! ## Integers -/

theorem text_values (run : Digits) : run.values.map (48 + ·) = run.text := by
  have back : ∀ c ∈ run.text, ((48 + ·) ∘ (· - 48)) c = id c := by
    intro c member
    have range := isDigit_iff.mp (run.digits c member)
    simp only [Function.comp_apply, id]
    omega
  rw [Digits.values, List.map_map, List.map_congr_left back, List.map_id]

/-- Numerals without a leading zero are the digits of their decimal and zeros after them. -/
theorem strip_append {values : List Nat} (head : values.head? ≠ some 0) :
    ∃ zeros, values = Dec.strip values ++ List.replicate zeros 0 := by
  have plain : values.dropWhile (· == 0) = values := Dec.dropWhile_replicate_zero 0 values head
  have halves := List.takeWhile_append_dropWhile (p := (· == 0)) (l := values.reverse)
  have zeros : values.reverse.takeWhile (· == 0) = List.replicate (values.reverse.takeWhile (· == 0)).length 0 := by
    apply List.eq_replicate_of_mem
    intro d member
    have zero := @List.mem_takeWhile_imp _ (· == 0) _ _ member
    exact beq_iff_eq.mp zero
  refine ⟨(values.reverse.takeWhile (· == 0)).length, ?_⟩
  rw [Dec.strip, plain, List.rdropWhile, ← List.reverse_replicate, ← List.reverse_append, ← zeros, halves, List.reverse_reverse]

/-- An integer without a leading zero, as a decimal. -/
theorem decOf_integral {token : Token} (int : token.IsInt) (head : token.whole.values.head? ≠ some 0) :
    (decOf token).digits = Dec.strip token.whole.values ∧ (decOf token).digits ≠ [] ∧
      (decOf token).point = token.whole.values.length ∧ isInteger (decOf token) = true := by
  have fraction : fracValues token = [] := by rw [fracValues, int.1]
  have exponent : expValue token = 0 := by rw [expValue, int.2]
  have first : token.whole.values.takeWhile (· == 0) = [] := by
    have none := Dec.takeWhile_replicate_zero 0 token.whole.values head
    exact List.eq_nil_of_length_eq_zero none
  have digits : (decOf token).digits = Dec.strip token.whole.values := by
    simp only [decOf, Dec.normalize, fraction, List.append_nil]
  obtain ⟨zeros, shape⟩ := strip_append head
  have nonempty : (decOf token).digits ≠ [] := by
    rw [digits]
    intro empty
    rw [empty, List.nil_append] at shape
    cases zeros with
    | zero => exact token.whole.values_ne_nil shape
    | succ zeros => exact head (by rw [shape]; rfl)
  have point : (decOf token).point = token.whole.values.length := by
    rw [digits] at nonempty
    simp only [decOf, Dec.normalize, fraction, exponent, List.append_nil, if_neg nonempty, first, List.length_nil]
    omega
  refine ⟨digits, nonempty, point, ?_⟩
  have length := congrArg List.length shape
  rw [List.length_append] at length
  rw [isInteger, decide_eq_true_iff, point, digits]
  omega

/-- An integer comes back from its decimal. -/
theorem positional_decOf {token : Token} (int : token.IsInt) (head : token.whole.values.head? ≠ some 0) :
    positional (decOf token) none = token := by
  obtain ⟨digits, nonempty, point, integral⟩ := decOf_integral int head
  have outside : ((decOf token).digits.length : Int) ≤ (decOf token).point := decide_eq_true_iff.mp integral
  have positive := List.length_pos_of_ne_nil nonempty
  obtain ⟨zeros, shape⟩ := strip_append head
  have count : ((decOf token).point - ((decOf token).digits.length : Int)).toNat = zeros := by
    have length := congrArg List.length shape
    rw [List.length_append, List.length_replicate] at length
    rw [point, digits]
    omega
  have values : (decOf token).digits ++ List.replicate ((decOf token).point - (decOf token).digits.length).toNat 0 =
      token.whole.values := by
    rw [count, digits]
    exact shape.symm
  rw [positional, dif_neg nonempty, dif_neg (by omega), dif_neg (by omega)]
  obtain ⟨neg, whole, canonical, frac, exp⟩ := token
  obtain ⟨noFraction, noExponent⟩ := int
  cases noFraction
  cases noExponent
  have run : Digits.ofValues _ (values ▸ whole.values_ne_nil) (values ▸ whole.values_lt) = whole := by
    apply Digits.ext_text
    exact (congrArg (List.map (48 + ·)) values).trans (text_values whole)
  rw [Token.mk.injEq]
  exact ⟨rfl, run, rfl, rfl⟩

/-- An integer is written as it stands where it has at most 21 digits. -/
theorem floatToken_ofInt (n : Int) : floatToken (decOf (Token.ofInt n)) = Token.ofInt n ↔ (decOf (Token.ofInt n)).point ≤ 21 := by
  by_cases zero : n = 0
  · subst zero
    decide
  · have whole : (Token.ofInt n).whole.values = (Nat.digits 10 n.natAbs).reverse := by
      simp only [Token.ofInt, decimal, Digits.values_ofValues, natValues, if_neg (show n.natAbs ≠ 0 by omega)]
    have head : (Token.ofInt n).whole.values.head? ≠ some 0 := by
      have digits := Nat.digits_ne_nil_iff_ne_zero (b := 10).mpr (show n.natAbs ≠ 0 by omega)
      rw [whole, List.head?_reverse, List.getLast?_eq_some_getLast digits]
      intro same
      exact Nat.getLast_digit_ne_zero 10 (show n.natAbs ≠ 0 by omega) (Option.some.inj same)
    obtain ⟨-, nonempty, point, integral⟩ := decOf_integral (Token.isInt_ofInt n) head
    have signed : ¬ ((decOf (Token.ofInt n)).neg = true ∧ (decOf (Token.ofInt n)).digits = []) := fun both => nonempty both.2
    rw [floatToken, if_neg signed]
    constructor
    · intro same
      by_contra large
      have far : FarExponent (decOf (Token.ofInt n)) := .inr (by omega)
      rw [if_neg (by omega), numberToken_of_far far, padExponent_scientific nonempty] at same
      have exponents := congrArg Token.exp same
      rw [exp_scientific nonempty] at exponents
      cases exponents
    · intro small
      have plain : -6 < (decOf (Token.ofInt n)).point ∧ (decOf (Token.ofInt n)).point ≤ 21 := ⟨by omega, small⟩
      have number : numberToken (decOf (Token.ofInt n)) = Token.ofInt n := by
        rw [numberToken_of_plain plain, positional_decOf (Token.isInt_ofInt n) head]
      rw [number, padExponent_of_plain rfl, ite_self]

/-! ## The two trees -/

theorem escapePieces_inj {key units : Str} (same : escapePieces key = stringifyPieces units) : key = units := by
  have ok : PiecesOk strict (escapePieces key) := same ▸ piecesOk_of_spelt (spells_stringify units)
  rw [escapePieces_unmarked ((piecesOk_strict key).mp ok)] at same
  rw [← unitsOfPieces_stringify key, same, unitsOfPieces_stringify]

theorem escapePieces_iff (units : Str) : escapePieces units = stringifyPieces units ↔ Unmarked units := by
  constructor
  · intro same
    apply (piecesOk_strict units).mp
    rw [same]
    exact piecesOk_of_spelt (spells_stringify units)
  · exact escapePieces_unmarked

theorem keys_recordOf (engine : Engine) (members : Python.Value.Dict) :
    (recordOf engine members).map Prod.fst = members.map (fun member => utf16Encode member.1) := by
  induction members with
  | nil => simp only [recordOf, List.map_nil]
  | cons member members ih =>
    obtain ⟨k, v⟩ := member
    simp only [recordOf, List.map_cons, ih]

theorem keys_of_members {record : Record} {members : Python.Value.Dict} (same : toMembers record = unitMembers members) :
    record.map Prod.fst = members.map (fun member => utf16Encode member.1) := by
  induction record generalizing members with
  | nil =>
    cases members with
    | nil => rfl
    | cons member members => simp [toMembers, unitMembers] at same
  | cons entry record ih =>
    cases members with
    | nil => simp [toMembers, unitMembers] at same
    | cons member members =>
      obtain ⟨k, v⟩ := member
      obtain ⟨key, value⟩ := entry
      simp only [toMembers, unitMembers, List.cons.injEq, Prod.mk.injEq] at same
      rw [List.map_cons, List.map_cons, ih same.2, escapePieces_inj same.1.1]

theorem sorted_keys {record : Record} : Members.Sorted record ↔ (record.map Prod.fst).Pairwise (· < ·) := List.pairwise_map.symm

theorem number_iff (engine : Engine) (n : Int) : toTree (.num (engine.number (Token.ofInt n))) = .num (Token.ofInt n) ↔
    engine.double (decOf (Token.ofInt n)) = some (decOf (Token.ofInt n)) ∧ (decOf (Token.ofInt n)).point ≤ 21 := by
  rw [Engine.number]
  cases double : engine.double (decOf (Token.ofInt n)) with
  | none => simp [toTree]
  | some d =>
    simp only [toTree, Tree.num.injEq, Option.some.injEq]
    constructor
    · intro same
      have itself : d = decOf (Token.ofInt n) := by rw [← decOf_floatToken d, same]
      rw [itself] at same
      exact ⟨itself, (floatToken_ofInt n).mp same⟩
    · intro both
      rw [both.1]
      exact (floatToken_ofInt n).mpr both.2

mutual

/-- `canonical` writes the tree that Python writes exactly if the two write the payload alike. -/
theorem toTree_valueOf (engine : Engine) : ∀ v : Python.Value.Json, FloatFree v →
    (toTree (valueOf engine v) = unitTree v ↔ SameText engine v)
  | .null, _ => by simp only [valueOf, toTree, unitTree, SameText]
  | .bool _, _ => by simp only [valueOf, toTree, unitTree, SameText]
  | .int n, _ => by
      rw [valueOf, unitTree, SameText]
      exact number_iff engine n
  | .float _, free => free.elim
  | .str s, _ => by
      rw [valueOf, toTree, unitTree, SameText, Tree.str.injEq]
      exact escapePieces_iff (utf16Encode s)
  | .list items, free => by
      rw [FloatFree] at free
      rw [valueOf, toTree, unitTree, SameText, Tree.arr.injEq]
      exact toItems_valuesOf engine items free
  | .dict members, free => by
      rw [FloatFree] at free
      have inner := toMembers_recordOf engine members free
      rw [valueOf, toTree, unitTree, SameText, Tree.obj.injEq]
      constructor
      · intro same
        -- the names of the two trees are the names of the payload, and those of a record are sorted
        have sorted : Members.Sorted (recordOf engine members) := by
          rw [sorted_keys, keys_recordOf, ← keys_of_members same, ← sorted_keys]
          exact Members.sorted_ofPairs _
        rw [Members.ofPairs_of_sorted sorted] at same
        exact ⟨sorted, inner.mp same⟩
      · intro both
        rw [Members.ofPairs_of_sorted both.1]
        exact inner.mpr both.2

theorem toItems_valuesOf (engine : Engine) : ∀ items : List Python.Value.Json, FloatFreeItems items →
    (toItems (valuesOf engine items) = unitItems items ↔ SameItems engine items)
  | [], _ => by simp only [valuesOf, toItems, unitItems, SameItems]
  | v :: items, free => by
      rw [FloatFreeItems] at free
      simp only [valuesOf, toItems, unitItems, SameItems, List.cons.injEq, toTree_valueOf engine v free.1,
        toItems_valuesOf engine items free.2]

theorem toMembers_recordOf (engine : Engine) : ∀ members : Python.Value.Dict, FloatFreeMembers members →
    (toMembers (recordOf engine members) = unitMembers members ↔ SameMembers engine members)
  | [], _ => by simp only [recordOf, toMembers, unitMembers, SameMembers]
  | (k, v) :: members, free => by
      rw [FloatFreeMembers] at free
      simp only [recordOf, toMembers, unitMembers, SameMembers, List.cons.injEq, Prod.mk.injEq, escapePieces_iff, and_assoc,
        toTree_valueOf engine v free.1, toMembers_recordOf engine members free.2]

end

mutual

theorem ok_valueOf (engine : Engine) : ∀ v : Python.Value.Json, FloatFree v → SameText engine v → (valueOf engine v).Ok engine
  | .null, _, _ => by simp only [valueOf, Json.Ok]
  | .bool _, _, _ => by simp only [valueOf, Json.Ok]
  | .int n, _, same => by
      rw [SameText] at same
      rw [valueOf, Json.Ok, Engine.number, same.1]
      exact ⟨_, rfl, same.1⟩
  | .float _, free, _ => free.elim
  | .str _, _, _ => by simp only [valueOf, Json.Ok]
  | .list items, free, same => by
      rw [FloatFree] at free
      rw [SameText] at same
      rw [valueOf, Json.Ok]
      exact ok_valuesOf engine items free same
  | .dict members, free, same => by
      rw [FloatFree] at free
      rw [SameText] at same
      rw [valueOf, Json.Ok, Members.ofPairs_of_sorted same.1]
      exact ⟨same.1, ok_recordOf engine members free same.2⟩

theorem ok_valuesOf (engine : Engine) : ∀ items : List Python.Value.Json, FloatFreeItems items → SameItems engine items →
    OkItems engine (valuesOf engine items)
  | [], _, _ => by simp only [valuesOf, OkItems]
  | v :: items, free, same => by
      rw [FloatFreeItems] at free
      rw [SameItems] at same
      rw [valuesOf, OkItems]
      exact ⟨ok_valueOf engine v free.1 same.1, ok_valuesOf engine items free.2 same.2⟩

theorem ok_recordOf (engine : Engine) : ∀ members : Python.Value.Dict, FloatFreeMembers members → SameMembers engine members →
    OkMembers engine (recordOf engine members)
  | [], _, _ => by simp only [recordOf, OkMembers]
  | (k, v) :: members, free, same => by
      rw [FloatFreeMembers] at free
      rw [SameMembers] at same
      rw [recordOf, OkMembers]
      exact ⟨ok_valueOf engine v free.1 same.2.1, ok_recordOf engine members free.2 same.2.2⟩

end

mutual

theorem unmarked_valueOf (engine : Engine) : ∀ v : Python.Value.Json, FloatFree v → SameText engine v →
    (valueOf engine v).Strings Unmarked
  | .null, _, _ => by simp only [valueOf, Json.Strings]
  | .bool _, _, _ => by simp only [valueOf, Json.Strings]
  | .int _, _, _ => by simp only [valueOf, Json.Strings]
  | .float _, free, _ => free.elim
  | .str _, _, same => by
      rw [SameText] at same
      rw [valueOf, Json.Strings]
      exact same
  | .list items, free, same => by
      rw [FloatFree] at free
      rw [SameText] at same
      rw [valueOf, Json.Strings]
      exact unmarked_valuesOf engine items free same
  | .dict members, free, same => by
      rw [FloatFree] at free
      rw [SameText] at same
      rw [valueOf, Json.Strings, Members.ofPairs_of_sorted same.1]
      exact unmarked_recordOf engine members free same.2

theorem unmarked_valuesOf (engine : Engine) : ∀ items : List Python.Value.Json, FloatFreeItems items → SameItems engine items →
    StringsItems Unmarked (valuesOf engine items)
  | [], _, _ => by simp only [valuesOf, StringsItems]
  | v :: items, free, same => by
      rw [FloatFreeItems] at free
      rw [SameItems] at same
      rw [valuesOf, StringsItems]
      exact ⟨unmarked_valueOf engine v free.1 same.1, unmarked_valuesOf engine items free.2 same.2⟩

theorem unmarked_recordOf (engine : Engine) : ∀ members : Python.Value.Dict, FloatFreeMembers members → SameMembers engine members →
    StringsMembers Unmarked (recordOf engine members)
  | [], _, _ => by simp only [recordOf, StringsMembers]
  | (k, v) :: members, free, same => by
      rw [FloatFreeMembers] at free
      rw [SameMembers] at same
      rw [recordOf, StringsMembers]
      exact ⟨same.1, unmarked_valueOf engine v free.1 same.2.1, unmarked_recordOf engine members free.2 same.2.2⟩

end

mutual

theorem wellFormed_valueOf (engine : Engine) : ∀ v : Python.Value.Json, Scalars (Python.Writable.texts v) →
    (valueOf engine v).Strings WellFormed
  | .null, _ => by simp only [valueOf, Json.Strings]
  | .bool _, _ => by simp only [valueOf, Json.Strings]
  | .int _, _ => by simp only [valueOf, Json.Strings]
  | .float .nan, _ => by simp only [valueOf, Json.Strings]
  | .float (.inf _), _ => by simp only [valueOf, Json.Strings]
  | .float (.finite _), _ => by simp only [valueOf, Json.Strings]
  | .str s, scalars => by
      rw [valueOf, Json.Strings]
      exact ⟨s, scalars, rfl⟩
  | .list items, scalars => by
      rw [Python.Writable.texts] at scalars
      rw [valueOf, Json.Strings]
      exact wellFormed_valuesOf engine items scalars
  | .dict members, scalars => by
      rw [Python.Writable.texts] at scalars
      have each := stringsMembers_iff.mp (wellFormed_recordOf engine members scalars)
      rw [valueOf, Json.Strings, stringsMembers_iff]
      intro p member
      exact each p (Members.mem_ofPairs member)

theorem wellFormed_valuesOf (engine : Engine) : ∀ items : List Python.Value.Json, Scalars (Python.Writable.textsItems items) →
    StringsItems WellFormed (valuesOf engine items)
  | [], _ => by simp only [valuesOf, StringsItems]
  | v :: items, scalars => by
      rw [Python.Writable.textsItems, scalars_append] at scalars
      rw [valuesOf, StringsItems]
      exact ⟨wellFormed_valueOf engine v scalars.1, wellFormed_valuesOf engine items scalars.2⟩

theorem wellFormed_recordOf (engine : Engine) : ∀ members : Python.Value.Dict, Scalars (Python.Writable.textsMembers members) →
    StringsMembers WellFormed (recordOf engine members)
  | [], _ => by simp only [recordOf, StringsMembers]
  | (k, v) :: members, scalars => by
      rw [Python.Writable.textsMembers, scalars_append, scalars_append] at scalars
      rw [recordOf, StringsMembers]
      exact ⟨⟨k, scalars.1, rfl⟩, wellFormed_valueOf engine v scalars.2.1, wellFormed_recordOf engine members scalars.2.2⟩

end

mutual

/-- What `canonical` returns is its tree, rendered. -/
theorem canonical_render : ∀ (v : Json) (text : Str), canonical v = some text → text = render (toTree v)
  | .null, text, written => by
      rw [canonical, lit_null] at written
      rw [toTree, Option.some.inj written]
  | .bool true, text, written => by
      rw [canonical, lit_true] at written
      rw [toTree, Option.some.inj written]
  | .bool false, text, written => by
      rw [canonical, lit_false] at written
      rw [toTree, Option.some.inj written]
  | .num (.finite d), text, written => by
      simp only [canonical, pyFloat, Option.map_some, Option.some.injEq] at written
      simp only [toTree, render, written]
  | .num .nan, text, written => by
      simp only [canonical, pyFloat, Option.map_none] at written
      cases written
  | .num (.infinite _), text, written => by
      simp only [canonical, pyFloat, Option.map_none] at written
      cases written
  | .str s, text, written => by
      rw [canonical, escapeString_eq] at written
      rw [toTree, render, Option.some.inj written]
  | .arr items, text, written => by
      rw [canonical] at written
      obtain ⟨parts, found, same⟩ := Option.map_eq_some_iff.mp written
      rw [toTree, render_arr, ← canonicalItems_render items parts found, same]
  | .obj members, text, written => by
      rw [canonical] at written
      obtain ⟨parts, found, same⟩ := Option.map_eq_some_iff.mp written
      rw [toTree, render_obj, ← canonicalMembers_render members parts found, same]

theorem canonicalItems_render : ∀ (items : List Json) (parts : List Str), canonicalItems items = some parts →
    parts = (toItems items).map render
  | [], parts, written => by
      rw [canonicalItems] at written
      rw [toItems, List.map_nil, Option.some.inj written]
  | v :: items, parts, written => by
      rw [canonicalItems] at written
      obtain ⟨text, first, rest⟩ := Option.bind_eq_some_iff.mp written
      obtain ⟨others, later, same⟩ := Option.map_eq_some_iff.mp rest
      rw [toItems, List.map_cons, ← canonical_render v text first, ← canonicalItems_render items others later, same]

theorem canonicalMembers_render : ∀ (members : Record) (parts : List Str), canonicalMembers members = some parts →
    parts = (toMembers members).map renderMember
  | [], parts, written => by
      rw [canonicalMembers] at written
      rw [toMembers, List.map_nil, Option.some.inj written]
  | (k, v) :: members, parts, written => by
      rw [canonicalMembers] at written
      obtain ⟨text, first, rest⟩ := Option.bind_eq_some_iff.mp written
      obtain ⟨others, later, same⟩ := Option.map_eq_some_iff.mp rest
      rw [toMembers, List.map_cons, renderMember, ← canonical_render v text first, ← canonicalMembers_render members others later,
        ← escapeString_eq, same]

end

mutual

theorem treeOk_unitTree : ∀ v : Python.Value.Json, TreeOk loose (unitTree v)
  | .null => by simp only [unitTree, TreeOk]
  | .bool _ => by simp only [unitTree, TreeOk]
  | .int _ => by simp only [unitTree, TreeOk, loose]
  | .float _ => by simp only [unitTree, TreeOk]
  | .str s => by
      rw [unitTree, TreeOk]
      exact piecesOk_of_spelt (spells_stringify _)
  | .list items => by
      rw [unitTree, TreeOk]
      exact itemsOk_unitItems items
  | .dict members => by
      rw [unitTree, TreeOk]
      exact membersOk_unitMembers members

theorem itemsOk_unitItems : ∀ items : List Python.Value.Json, JsonRoundTrip.ItemsOk loose (unitItems items)
  | [] => by simp only [unitItems, JsonRoundTrip.ItemsOk]
  | v :: items => by
      rw [unitItems, JsonRoundTrip.ItemsOk]
      exact ⟨treeOk_unitTree v, itemsOk_unitItems items⟩

theorem membersOk_unitMembers : ∀ members : Python.Value.Dict, JsonRoundTrip.MembersOk loose (unitMembers members)
  | [] => by simp only [unitMembers, JsonRoundTrip.MembersOk]
  | (k, v) :: members => by
      rw [unitMembers, JsonRoundTrip.MembersOk]
      exact ⟨piecesOk_of_spelt (spells_stringify _), treeOk_unitTree v, membersOk_unitMembers members⟩

end

/-! ## The bytes -/

theorem scalars_of_encode {text : Str} {bytes : Bytes} (encoded : utf8Encode text = some bytes) : Scalars text := by
  obtain ⟨chars, same, -⟩ := utf8Encode_eq_some.mp encoded
  intro n member
  rw [← same] at member
  obtain ⟨c, -, here⟩ := List.mem_map.mp member
  have valid : c.toNat.isValidChar := c.valid
  rw [← here]
  apply valid.imp
  · exact id
  · intro high
    exact ⟨by omega, high.2⟩

theorem utf8Bytes_of_encode {text : Str} {bytes : Bytes} (encoded : utf8Encode text = some bytes) : utf8Bytes text = bytes := by
  obtain ⟨chars, same, flat⟩ := utf8Encode_eq_some.mp encoded
  rw [← same, ← flat, utf8Bytes, List.flatMap_map]
  simp only [scalar?_toNat, Option.getD_some]

theorem scalars_of_encodable {v : Python.Value.Json} (encodable : Python.Writable.Encodable v) :
    Scalars (Python.Writable.texts v) := by
  intro c member
  obtain ⟨char, found⟩ := Option.isSome_iff_exists.mp (encodable c member)
  have alone : utf8Encode [c] = some (String.utf8EncodeChar char) := by
    apply utf8Encode_eq_some.mpr
    exact ⟨[char], by simp [toNat_of_scalar? found], by simp⟩
  exact scalars_of_encode alone c List.mem_cons_self

section Bytes

variable {interpreter : Python.Value.Host} {host : Host} {payload : Python.Value.Json} {bytes : Bytes}

/-- The bytes of a payload, read by JavaScript. -/
theorem textOf_bytes (free : FloatFree payload) (written : canonicalJsonBytes interpreter payload = .ok bytes) :
    textOf bytes = render (unitTree payload) := by
  obtain ⟨text, dumped, encoded⟩ := canonicalJsonBytes_eq_ok.mp written
  obtain ⟨-, same⟩ := Python.JsonCodec.dumps_eq_ok.mp dumped
  rw [same] at encoded
  have scalars := scalars_of_encodable ((Python.Writable.utf8Encode_written payload).mp ⟨bytes, encoded⟩)
  rw [render_unitTree payload free scalars, textOf, ← utf8Bytes_of_encode encoded, utf8Lossy_bytes (scalars_of_encode encoded)]

theorem bufferOf_unitTree (free : FloatFree payload) (written : canonicalJsonBytes interpreter payload = .ok bytes) :
    bufferOf (render (unitTree payload)) = bytes := by
  obtain ⟨text, dumped, encoded⟩ := canonicalJsonBytes_eq_ok.mp written
  obtain ⟨-, same⟩ := Python.JsonCodec.dumps_eq_ok.mp dumped
  rw [same] at encoded
  have scalars := scalars_of_encodable ((Python.Writable.utf8Encode_written payload).mp ⟨bytes, encoded⟩)
  rw [render_unitTree payload free scalars, bufferOf, utf16Decode_encode (scalars_of_encode encoded), utf8Bytes_of_encode encoded]

/-- `canonical` makes the same bytes exactly of a payload that both languages write alike. -/
theorem canonical_bytes_iff (engine : Engine) (free : FloatFree payload)
    (written : canonicalJsonBytes interpreter payload = .ok bytes) :
    (canonical (valueOf engine payload)).map bufferOf = some bytes ↔ SameText engine payload := by
  rw [← toTree_valueOf engine payload free]
  constructor
  · intro alike
    obtain ⟨text, found, same⟩ := Option.map_eq_some_iff.mp alike
    obtain ⟨source, dumped, encoded⟩ := canonicalJsonBytes_eq_ok.mp written
    obtain ⟨-, shape⟩ := Python.JsonCodec.dumps_eq_ok.mp dumped
    rw [shape] at encoded
    have scalars := scalars_of_encodable ((Python.Writable.utf8Encode_written payload).mp ⟨bytes, encoded⟩)
    have wellFormed := wellFormed_canonical _ text (wellFormed_valueOf engine payload scalars) found
    have texts : render (toTree (valueOf engine payload)) = render (unitTree payload) := by
      rw [← textOf_bytes free written, ← same, FileJournal.textOf_bufferOf wellFormed, canonical_render _ text found]
    exact render_injective loose (treeOk_loose _) (treeOk_unitTree payload) texts
  · intro trees
    have same := (toTree_valueOf engine payload free).mp trees
    rw [canonical_eq engine _ (ok_valueOf engine payload free same), trees, Option.map_some, bufferOf_unitTree free written]

end Bytes

/-! ## The line in the verifiers -/

section Raw

variable (pyFloat : Double → Option Tree) (host : Host)

mutual

/-- Where the names stand apart, the raw parse is encoded as the tree that was written: an integer is
written as it stands. -/
theorem rawTree_unitTree : ∀ v : Python.Value.Json, FloatFree v → SameText host.toEngine v →
    (valueOf host.toEngine v).Names Apart → rawTree pyFloat host (toNode (unitTree v)) = some (unitTree v)
  | .null, _, _, _ => by simp only [unitTree, toNode, rawTree]
  | .bool _, _, _, _ => by simp only [unitTree, toNode, rawTree]
  | .int n, _, _, _ => by
      simp only [unitTree, toNode, rawTree, encodeNum, Host.string, Option.bind_some, intToken_text, if_pos (Token.isInt_ofInt n)]
  | .float _, free, _, _ => free.elim
  | .str s, _, same, _ => by
      rw [SameText] at same
      simp only [unitTree, toNode, rawTree, unitsOfPieces_stringify, escapePieces_unmarked same]
  | .list items, free, same, names => by
      rw [FloatFree] at free
      rw [SameText] at same
      rw [valueOf, Json.Names] at names
      simp only [unitTree, toNode, rawTree, rawItems_unitItems items free same names, Option.map_some]
  | .dict members, free, same, names => by
      rw [FloatFree] at free
      rw [SameText] at same
      rw [valueOf, Json.Names, Members.ofPairs_of_sorted same.1] at names
      have apart := namedApart_of_names names
      have shape : toNode (.obj (unitMembers members)) = .obj (nodesOf (recordOf host.toEngine members)) none := by
        rw [← (toMembers_recordOf host.toEngine members free).mpr same.2]
        exact toNode_obj same.1 (unmarked_recordOf host.toEngine members free same.2) (fun p member => (apart p member).2)
      rw [unitTree, shape, rawTree, rawNum_nodesOf (fun p member => (apart p member).1)]
      simp only [rawMembers_unitMembers members free same.2 names, Option.map_some]

theorem rawItems_unitItems : ∀ items : List Python.Value.Json, FloatFreeItems items → SameItems host.toEngine items →
    NamesItems Apart (valuesOf host.toEngine items) → rawItems pyFloat host (toNodes (unitItems items)) = some (unitItems items)
  | [], _, _, _ => by simp only [unitItems, toNodes, rawItems]
  | v :: items, free, same, names => by
      rw [FloatFreeItems] at free
      rw [SameItems] at same
      rw [valuesOf, NamesItems] at names
      simp only [unitItems, toNodes, rawItems, rawTree_unitTree v free.1 same.1 names.1, rawItems_unitItems items free.2 same.2 names.2,
        Option.bind_some, Option.map_some]

theorem rawMembers_unitMembers : ∀ members : Python.Value.Dict, FloatFreeMembers members → SameMembers host.toEngine members →
    NamesMembers Apart (recordOf host.toEngine members) →
      rawMembers pyFloat host (nodesOf (recordOf host.toEngine members)) = some (unitMembers members)
  | [], _, _, _ => by simp only [recordOf, nodesOf, List.map_nil, unitMembers, rawMembers]
  | (k, v) :: members, free, same, names => by
      rw [FloatFreeMembers] at free
      rw [SameMembers] at same
      rw [recordOf, NamesMembers] at names
      have tail := rawMembers_unitMembers members free.2 same.2.2 names.2.2
      rw [nodesOf] at tail
      simp only [recordOf, nodesOf, List.map_cons, unitMembers, rawMembers, (toTree_valueOf host.toEngine v free.1).mpr same.2.1,
        rawTree_unitTree v free.1 same.2.1 names.2.1, tail, escapePieces_unmarked same.1, Option.bind_some, Option.map_some]

end

/-- The line comes back as it was written, in both verifiers. -/
theorem encodeRaw_parseRaw {payload : Python.Value.Json} (free : FloatFree payload) (same : SameText host.toEngine payload)
    (names : (valueOf host.toEngine payload).Names Apart) :
    (parseRaw (render (unitTree payload))).bind (encodeRaw pyFloat host) = some (render (unitTree payload)) := by
  have strictly : TreeOk strict (unitTree payload) := by
    rw [← (toTree_valueOf host.toEngine payload free).mpr same]
    exact (treeOk_strict _).mpr (unmarked_valueOf host.toEngine payload free same)
  rw [parseRaw, JsonRoundTrip.parse_render strict _ strictly, Option.map_some, Option.bind_some, encodeRaw_eq,
    rawTree_unitTree pyFloat host payload free same names, Option.map_some]

end Raw

/-- The two languages hash the same bytes of a payload: `canonical` makes the bytes that Python writes, and the
verifiers for TypeScript and Node encode the line with them as it was read. -/
structure HashedAlike (host : Host) (payload : Python.Value.Json) (bytes : Bytes) : Prop where
  written : (canonical (valueOf host.toEngine payload)).map bufferOf = some bytes
  read : EncodedAlike host (textOf bytes)

/-- The languages hash the same bytes of a payload without floats exactly if they write it alike and no name of
it means something else to the raw parse. -/
theorem hashes_alike_iff {interpreter : Python.Value.Host} (host : Host) {payload : Python.Value.Json} {bytes : Bytes}
    (free : FloatFree payload) (written : canonicalJsonBytes interpreter payload = .ok bytes) :
    HashedAlike host payload bytes ↔
      SameText host.toEngine payload ∧ (valueOf host.toEngine payload).Names Apart := by
  constructor
  · intro alike
    have same := (canonical_bytes_iff host.toEngine free written).mp alike.written
    have trees := (toTree_valueOf host.toEngine payload free).mpr same
    have read := alike.read.typeScript
    rw [textOf_bytes free written, ← trees] at read
    have ok := ok_valueOf host.toEngine payload free same
    exact ⟨same, (canonicalRaw_parseRaw host ok (unmarked_valueOf host.toEngine payload free same)).mp read⟩
  · intro both
    constructor
    · exact (canonical_bytes_iff host.toEngine free written).mpr both.1
    · rw [textOf_bytes free written]
      constructor
      · exact encodeRaw_parseRaw pyFloatTree host free both.1 both.2
      · exact encodeRaw_parseRaw Node.Canonical.pyFloat host free both.1 both.2

/-- An object without integers, whose names are of ASCII. -/
def plainPayload : Python.Value.Json := .dict [(lit "name", .str (lit "pay")), (lit "note", .null)]

def plainBytes : Bytes := (lit "\x7b\"name\":\"pay\",\"note\":null\x7d").map UInt8.ofNat

theorem hashes_alike_iff_sample : HashedAlike FloatTokens.exactHost plainPayload plainBytes ↔
    SameText FloatTokens.exactHost.toEngine plainPayload ∧ (valueOf FloatTokens.exactHost.toEngine plainPayload).Names Apart :=
  @hashes_alike_iff FloatTokens.exactInterpreter FloatTokens.exactHost plainPayload plainBytes
    (by simp only [plainPayload, FloatFree, FloatFreeMembers, and_self]) (by decide)

/-- By code points U+FF01 is the first of these names, and by code units the last. -/
def astralPayload : Python.Value.Json := .dict [([0xFF01], .null), ([0x1F600], .null)]

def astralBytes : Bytes :=
  [123, 34, 0xEF, 0xBC, 0x81, 34, 58, 110, 117, 108, 108, 44, 34, 0xF0, 0x9F, 0x98, 0x80, 34, 58, 110, 117, 108, 108, 125]

theorem astral_names_hashed_otherwise : FloatFree astralPayload ∧
    canonicalJsonBytes FloatTokens.exactInterpreter astralPayload = .ok astralBytes ∧
      ¬ HashedAlike FloatTokens.exactHost astralPayload astralBytes := by
  have free : FloatFree astralPayload := by simp only [astralPayload, FloatFree, FloatFreeMembers, and_self]
  have written : canonicalJsonBytes FloatTokens.exactInterpreter astralPayload = .ok astralBytes := by decide
  refine ⟨free, written, ?_⟩
  intro alike
  have same := (canonical_bytes_iff FloatTokens.exactHost.toEngine free written).mp alike.written
  simp only [astralPayload, SameText] at same
  have sorted := same.1
  simp only [recordOf, Members.Sorted, List.pairwise_cons] at sorted
  exact absurd (sorted.1 _ List.mem_cons_self) (by decide)

end Tesera.TypeScript.SameBytes
