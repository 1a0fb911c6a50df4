import Tesera.TypeScript.Escape
import Tesera.Text.JsonChars

/-!
`canonical` of `Canonical.ts`: keys sorted by code units, compact separators, non-ASCII
literally. What it writes is a rendered tree, whose strings may hold the stray escapes that
`escapeString` leaves; without these it is a text of JSON that reads back as the value.
-/

namespace Tesera.TypeScript.Canonical
open Tesera.Text Tesera.Text.Unicode Tesera.Text.Number Tesera.Text.Decimal Tesera.Text.Json
open Tesera.Text.JsonRoundTrip (PieceOk PiecesOk TreeOk parse_render)
open Tesera.Text.JsonDialect (Wider parse_render_narrow)
open Tesera.TypeScript.Value Tesera.TypeScript.Escape

/-! ## Numbers -/

/-- A finite number other than -0 as a template literal writes it. -/
def numberToken (d : Dec) : Token :=
  if -6 < d.point ∧ d.point ≤ 21 then positional d none else scientific d none 1

/-- The exponent written again with its sign and at least two digits. -/
def padExponent (token : Token) : Token :=
  match token.exp with
  | none => token
  | some e => { token with exp := some (exponentOf 2 e.toInt) }

def isInteger (d : Dec) : Bool := decide ((d.digits.length : Int) ≤ d.point)

def floatToken (d : Dec) : Token :=
  if d.neg = true ∧ d.digits = [] then positional d (some Digits.zero)
  else if isInteger d = true ∧ d.point ≤ 16 then numberToken d
  else padExponent (numberToken d)

/-- `pyFloat`; it throws on a number that is not finite. -/
def pyFloat : Double → Option Token
  | .finite d => some (floatToken d)
  | _ => none

theorem decOf_padExponent (token : Token) : decOf (padExponent token) = decOf token := by
  unfold padExponent
  cases found : token.exp with
  | none => rfl
  | some e =>
    have value : expValue { token with exp := some (exponentOf 2 e.toInt) } = expValue token := by
      simp only [expValue, found, toInt_exponentOf]
    simp only [decOf, fracValues, value]

theorem decOf_numberToken (d : Dec) : decOf (numberToken d) = d := by
  unfold numberToken
  split_ifs
  · exact decOf_positional d none 0 rfl
  · exact decOf_scientific d none 1 0 rfl

/-- The text of a number denotes it. -/
theorem decOf_floatToken (d : Dec) : decOf (floatToken d) = d := by
  unfold floatToken
  split_ifs
  · exact decOf_positional d (some Digits.zero) 1 rfl
  · exact decOf_numberToken d
  · rw [decOf_padExponent, decOf_numberToken]

/-! ## Values -/

/-- The parts between brackets, separated by commas. -/
def bracketed (parts : List Str) : Str := 91 :: (List.intercalate [44] parts ++ [93])

def braced (parts : List Str) : Str := 123 :: (List.intercalate [44] parts ++ [125])

mutual

def canonical : Json → Option Str
  | .null => some (lit "null")
  | .bool true => some (lit "true")
  | .bool false => some (lit "false")
  | .num value => (pyFloat value).map Token.text
  | .str value => some (escapeString value)
  | .arr value => (canonicalItems value).map bracketed
  | .obj value => (canonicalMembers value).map braced

def canonicalItems : List Json → Option (List Str)
  | [] => some []
  | v :: items => (canonical v).bind (fun text => (canonicalItems items).map (text :: ·))

def canonicalMembers : Record → Option (List Str)
  | [] => some []
  | (k, v) :: members =>
      (canonical v).bind (fun text =>
        (canonicalMembers members).map ((escapeString k ++ 58 :: text) :: ·))

end

mutual

/-- The tree `canonical` writes; a number that is not finite has none. -/
def toTree : Json → Tree
  | .null => .null
  | .bool b => .bool b
  | .num (.finite d) => .num (floatToken d)
  | .num _ => .null
  | .str s => .str (escapePieces s)
  | .arr items => .arr (toItems items)
  | .obj members => .obj (toMembers members)

def toItems : List Json → List Tree
  | [] => []
  | v :: items => toTree v :: toItems items

def toMembers : Record → List (List Piece × Tree)
  | [] => []
  | (k, v) :: members => (escapePieces k, toTree v) :: toMembers members

end

/-! ## The text is a rendered tree -/

theorem intercalate_commas (part : Str) (parts : List Str) :
    List.intercalate [44] (part :: parts) = part ++ parts.flatMap (fun text => 44 :: text) := by
  induction parts generalizing part with
  | nil => simp
  | cons next parts ih => simp [List.intercalate_cons_cons, ih]

theorem renderItems_eq (items : List Tree) :
    renderItems items = (items.map render).flatMap (fun text => 44 :: text) ++ [93] := by
  induction items with
  | nil => simp [renderItems]
  | cons x items ih => simp [renderItems, ih]

theorem render_arr (items : List Tree) : render (.arr items) = bracketed (items.map render) := by
  cases items with
  | nil => simp [render, bracketed]
  | cons x items => simp [render, renderItems_eq, bracketed, intercalate_commas]

def renderMember (member : List Piece × Tree) : Str := quote member.1 ++ 58 :: render member.2

theorem renderMembers_eq (members : List (List Piece × Tree)) :
    renderMembers members = (members.map renderMember).flatMap (fun text => 44 :: text) ++ [125] := by
  induction members with
  | nil => simp [renderMembers]
  | cons m members ih =>
    obtain ⟨k, v⟩ := m
    simp [renderMembers, ih, renderMember]

theorem render_obj (members : List (List Piece × Tree)) :
    render (.obj members) = braced (members.map renderMember) := by
  cases members with
  | nil => simp [render, braced]
  | cons m members =>
    obtain ⟨k, v⟩ := m
    simp [render, renderMembers_eq, braced, intercalate_commas, renderMember]

theorem lit_null : lit "null" = render .null := by simp only [render]; decide

theorem lit_true : lit "true" = render (.bool true) := by simp only [render]; decide

theorem lit_false : lit "false" = render (.bool false) := by simp only [render]; decide

mutual

theorem canonical_eq (engine : Engine) : ∀ v : Json, v.Ok engine → canonical v = some (render (toTree v))
  | .null, _ => by simp only [canonical, toTree, lit_null]
  | .bool true, _ => by simp only [canonical, toTree, lit_true]
  | .bool false, _ => by simp only [canonical, toTree, lit_false]
  | .num x, ok => by
    simp only [Json.Ok] at ok
    obtain ⟨d, rfl, -⟩ := ok
    simp only [canonical, pyFloat, Option.map_some, toTree, render]
  | .str s, _ => by simp only [canonical, toTree, render, escapeString_eq]
  | .arr items, ok => by
    simp only [Json.Ok] at ok
    simp only [canonical, toTree, canonicalItems_eq engine items ok, Option.map_some, render_arr]
  | .obj members, ok => by
    simp only [Json.Ok] at ok
    simp only [canonical, toTree, canonicalMembers_eq engine members ok.2, Option.map_some, render_obj]

theorem canonicalItems_eq (engine : Engine) : ∀ items : List Json, OkItems engine items →
    canonicalItems items = some ((toItems items).map render)
  | [], _ => by simp only [canonicalItems, toItems, List.map_nil]
  | v :: items, ok => by
    simp only [OkItems] at ok
    simp only [canonicalItems, canonical_eq engine v ok.1, canonicalItems_eq engine items ok.2,
      Option.bind_some, Option.map_some, toItems, List.map_cons]

theorem canonicalMembers_eq (engine : Engine) : ∀ members : Record, OkMembers engine members →
    canonicalMembers members = some ((toMembers members).map renderMember)
  | [], _ => by simp only [canonicalMembers, toMembers, List.map_nil]
  | (k, v) :: members, ok => by
    simp only [OkMembers] at ok
    simp only [canonicalMembers, canonical_eq engine v ok.1, canonicalMembers_eq engine members ok.2,
      Option.bind_some, Option.map_some, toMembers, List.map_cons, renderMember, escapeString_eq]

end

/-! ## When it is a text of JSON -/

/-- The grammar of JSON with the stray escapes `escapeString` can leave. -/
def loose : Dialect where
  consts := false
  odd := fun c => c == 0x2028 || c == 0x2029
  token := fun _ => true

theorem wider_loose : Wider strict loose := ⟨rfl, rfl, fun _ odd => by cases odd⟩

theorem pieceOk_of_spells {dialect : Dialect} {u : Nat} {p : Piece} (spelt : Spells u p) :
    PieceOk dialect p := by
  rcases spelt.choice with rfl | rfl
  · have escaped := spelt.needed
    simp only [PieceOk]
    by_contra outside
    have := escaped (by omega)
    cases this
  · simp only [PieceOk]
    by_contra big
    have := spelt.spared (by omega)
    cases this

theorem piecesOk_of_spelt {dialect : Dialect} {value : Str} {pieces : List Piece}
    (spelt : List.Forall₂ Spells value pieces) : PiecesOk dialect pieces := by
  induction spelt with
  | nil => exact List.forall_mem_nil _
  | cons head tail ih => exact List.forall_mem_cons.mpr ⟨pieceOk_of_spells head, ih⟩

theorem piecesOk_loose (value : Str) : PiecesOk loose (escapePieces value) := by
  intro p member
  have odd (separator : Nat) (known : loose.odd separator = true) (plain : escapeOf separator = none)
      (letter : separator ≠ 117) : PieceOk loose (.odd separator) := ⟨known, plain, letter⟩
  rcases mem_fuse _ 0 member with inner | rfl
  · rcases mem_fuse _ 0 inner with old | rfl
    · exact piecesOk_of_spelt (spells_stringify value) p old
    · exact odd 0x2028 rfl rfl (by decide)
  · exact odd 0x2029 rfl rfl (by decide)

theorem piecesOk_strict (value : Str) : PiecesOk strict (escapePieces value) ↔ ¬ Marked value := by
  constructor
  · intro ok marked
    obtain ⟨separator, member⟩ := odd_mem_escapePieces marked
    have odd := ok _ member
    simp only [PieceOk, strict, Bool.false_eq_true, false_and] at odd
  · intro unmarked
    rw [escapePieces_unmarked unmarked]
    exact piecesOk_of_spelt (spells_stringify value)

mutual

theorem treeOk_loose : ∀ v : Json, TreeOk loose (toTree v)
  | .null => by simp only [toTree, TreeOk]
  | .bool _ => by simp only [toTree, TreeOk]
  | .num (.finite _) => by simp only [toTree, TreeOk, loose]
  | .num .nan => by simp only [toTree, TreeOk]
  | .num (.infinite _) => by simp only [toTree, TreeOk]
  | .str s => by simp only [toTree, TreeOk, piecesOk_loose]
  | .arr items => by
    simp only [toTree, TreeOk]
    exact itemsOk_loose items
  | .obj members => by
    simp only [toTree, TreeOk]
    exact membersOk_loose members

theorem itemsOk_loose : ∀ items : List Json, JsonRoundTrip.ItemsOk loose (toItems items)
  | [] => by simp only [toItems, JsonRoundTrip.ItemsOk]
  | v :: items => by
    simp only [toItems, JsonRoundTrip.ItemsOk]
    exact ⟨treeOk_loose v, itemsOk_loose items⟩

theorem membersOk_loose : ∀ members : Record, JsonRoundTrip.MembersOk loose (toMembers members)
  | [] => by simp only [toMembers, JsonRoundTrip.MembersOk]
  | (k, v) :: members => by
    simp only [toMembers, JsonRoundTrip.MembersOk]
    exact ⟨piecesOk_loose k, treeOk_loose v, membersOk_loose members⟩

end

/-- No string of a value is marked, names included. -/
def Unmarked (s : Str) : Prop := ¬ Marked s

instance (s : Str) : Decidable (Unmarked s) := inferInstanceAs (Decidable (¬ _))

mutual

theorem treeOk_strict : ∀ v : Json, TreeOk strict (toTree v) ↔ v.Strings Unmarked
  | .null => by simp only [toTree, TreeOk, Json.Strings]
  | .bool _ => by simp only [toTree, TreeOk, Json.Strings]
  | .num (.finite _) => by simp only [toTree, TreeOk, strict, Json.Strings]
  | .num .nan => by simp only [toTree, TreeOk, Json.Strings]
  | .num (.infinite _) => by simp only [toTree, TreeOk, Json.Strings]
  | .str s => by simp only [toTree, TreeOk, Json.Strings, piecesOk_strict, Unmarked]
  | .arr items => by
    simp only [toTree, TreeOk, Json.Strings]
    exact itemsOk_strict items
  | .obj members => by
    simp only [toTree, TreeOk, Json.Strings]
    exact membersOk_strict members

theorem itemsOk_strict : ∀ items : List Json,
    JsonRoundTrip.ItemsOk strict (toItems items) ↔ StringsItems Unmarked items
  | [] => by simp only [toItems, JsonRoundTrip.ItemsOk, StringsItems]
  | v :: items => by
    simp only [toItems, JsonRoundTrip.ItemsOk, StringsItems, treeOk_strict v, itemsOk_strict items]

theorem membersOk_strict : ∀ members : Record,
    JsonRoundTrip.MembersOk strict (toMembers members) ↔ StringsMembers Unmarked members
  | [] => by simp only [toMembers, JsonRoundTrip.MembersOk, StringsMembers]
  | (k, v) :: members => by
    simp only [toMembers, JsonRoundTrip.MembersOk, StringsMembers, piecesOk_strict, treeOk_strict v,
      membersOk_strict members, Unmarked]

end

/-! ## It reads back -/

mutual

theorem ofTree_toTree (engine : Engine) : ∀ v : Json, v.Ok engine → v.Strings Unmarked →
    ofTree engine (toTree v) = v
  | .null, _, _ => by simp only [toTree, ofTree]
  | .bool _, _, _ => by simp only [toTree, ofTree]
  | .num x, ok, _ => by
    simp only [Json.Ok] at ok
    obtain ⟨d, rfl, double⟩ := ok
    simp only [toTree, ofTree, Engine.number, decOf_floatToken, double]
  | .str s, _, unmarked => by
    simp only [Json.Strings] at unmarked
    simp only [toTree, ofTree, escapePieces_unmarked unmarked, unitsOfPieces_stringify]
  | .arr items, ok, unmarked => by
    simp only [Json.Ok] at ok
    simp only [Json.Strings] at unmarked
    simp only [toTree, ofTree, ofItems_toItems engine items ok unmarked]
  | .obj members, ok, unmarked => by
    simp only [Json.Ok] at ok
    simp only [Json.Strings] at unmarked
    simp only [toTree, ofTree, ofMembers_toMembers engine members ok.2 unmarked,
      Members.ofPairs_of_sorted ok.1]

theorem ofItems_toItems (engine : Engine) : ∀ items : List Json, OkItems engine items →
    StringsItems Unmarked items → ofItems engine (toItems items) = items
  | [], _, _ => by simp only [toItems, ofItems]
  | v :: items, ok, unmarked => by
    simp only [OkItems] at ok
    simp only [StringsItems] at unmarked
    simp only [toItems, ofItems, ofTree_toTree engine v ok.1 unmarked.1,
      ofItems_toItems engine items ok.2 unmarked.2]

theorem ofMembers_toMembers (engine : Engine) : ∀ members : Record, OkMembers engine members →
    StringsMembers Unmarked members → ofMembers engine (toMembers members) = members
  | [], _, _ => by simp only [toMembers, ofMembers]
  | (k, v) :: members, ok, unmarked => by
    simp only [OkMembers] at ok
    simp only [StringsMembers] at unmarked
    simp only [toMembers, ofMembers, escapePieces_unmarked unmarked.1, unitsOfPieces_stringify,
      ofTree_toTree engine v ok.1 unmarked.2.1, ofMembers_toMembers engine members ok.2 unmarked.2.2]

end

/-- `JSON.parse` reads a canonical text exactly if no string is marked, and then as the value
written. -/
theorem parseJson_canonical (engine : Engine) {v : Json} (ok : v.Ok engine) :
    parseJson engine (render (toTree v)) = some v ↔ v.Strings Unmarked := by
  constructor
  · intro parsed
    obtain ⟨t, accepted, -⟩ := Option.map_eq_some_iff.mp parsed
    exact (treeOk_strict v).mp ((parse_render_narrow wider_loose (treeOk_loose v)).mp ⟨t, accepted⟩)
  · intro unmarked
    have accepted := parse_render strict (toTree v) ((treeOk_strict v).mpr unmarked)
    simp only [parseJson, accepted, Option.map_some, ofTree_toTree engine v ok unmarked]

/-! ## Its characters -/

theorem wellFormed_nil : WellFormed [] := ⟨[], List.forall_mem_nil _, rfl⟩

theorem wellFormed_append {a b : Str} (left : WellFormed a) (right : WellFormed b) : WellFormed (a ++ b) := by
  obtain ⟨x, scalarX, rfl⟩ := left
  obtain ⟨y, scalarY, rfl⟩ := right
  exact ⟨x ++ y, List.forall_mem_append.mpr ⟨scalarX, scalarY⟩, by simp [utf16Encode]⟩

/-- Units below the surrogates are characters. -/
theorem wellFormed_low {s : Str} (low : ∀ u ∈ s, u < 0xD800) : WellFormed s := by
  refine ⟨s, fun n member => .inl (low n member), ?_⟩
  induction s with
  | nil => rfl
  | cons u s ih =>
    have here := low u List.mem_cons_self
    have small : u < 0x10000 := by omega
    have tail := ih (fun v member => low v (List.mem_cons_of_mem u member))
    simp only [utf16Encode, List.flatMap_cons, unitsOf, if_pos small, List.cons_append, List.nil_append]
      at tail ⊢
    rw [← tail]

/-- A JavaScript string. -/
def Units (s : Str) : Prop := ∀ u ∈ s, u < 0x10000

theorem units_of_wellFormed {s : Str} (wellFormed : WellFormed s) : Units s := by
  obtain ⟨text, scalars, rfl⟩ := wellFormed
  intro u member
  obtain ⟨n, inside, unit⟩ := List.mem_flatMap.mp member
  have scalar : n < 0x110000 := by
    have := scalars n inside
    unfold IsScalar at this
    omega
  unfold unitsOf at unit
  split_ifs at unit with basic
  · exact List.mem_singleton.mp unit ▸ basic
  · simp only [List.mem_cons, List.not_mem_nil, or_false] at unit
    omega

theorem wellFormed_lonePiece {u : Nat} (unit : u < 0x10000) : WellFormed (lonePiece u).text := by
  unfold lonePiece
  split_ifs with escaped
  · have ascii := JsonChars.every_piece (P := fun c => c < 0xD800) (fun c _ high => by omega) (.esc u)
    exact wellFormed_low (ascii.mpr (List.forall_mem_nil _))
  · simp only [isHigh, isLow, Bool.or_eq_true, decide_eq_true_eq] at escaped
    refine ⟨[u], List.forall_mem_singleton.mpr ?_, ?_⟩
    · unfold IsScalar
      omega
    · simp [utf16Encode, unitsOf, unit, Piece.text]

/-- What `JSON.stringify` writes is well formed, of any string: it escapes lone surrogates. -/
theorem wellFormed_stringify (s : Str) (units : Units s) :
    WellFormed ((stringifyPieces s).flatMap Piece.text) := by
  induction s using stringifyPieces.induct with
  | case1 => exact wellFormed_nil
  | case2 u =>
    simp only [stringifyPieces, List.flatMap_cons, List.flatMap_nil, List.append_nil]
    exact wellFormed_lonePiece (units u List.mem_cons_self)
  | case3 u v rest pair ih =>
    obtain ⟨high, low⟩ := Bool.and_eq_true_iff.mp pair
    simp only [isHigh, isLow, decide_eq_true_eq] at high low
    have tail := ih (fun w member => units w (List.mem_cons_of_mem u (List.mem_cons_of_mem v member)))
    have both : WellFormed [u, v] := by
      refine ⟨[combine u v], List.forall_mem_singleton.mpr ?_, ?_⟩
      · unfold IsScalar combine
        omega
      · have big : ¬ combine u v < 0x10000 := by
          unfold combine
          omega
        simp only [utf16Encode, List.flatMap_cons, List.flatMap_nil, unitsOf, if_neg big, List.append_nil,
          List.cons.injEq, and_true]
        unfold combine
        omega
    simp only [stringifyPieces, pair, if_true, List.flatMap_cons, Piece.text]
    exact wellFormed_append (a := [u, v]) both tail
  | case4 u v rest lone ih =>
    have tail := ih (fun w member => units w (List.mem_cons_of_mem u member))
    simp only [stringifyPieces, if_neg lone, List.flatMap_cons]
    exact wellFormed_append (wellFormed_lonePiece (units u List.mem_cons_self)) tail

theorem wellFormed_quote {s : Str} (units : Units s) (unmarked : Unmarked s) :
    WellFormed (quote (escapePieces s)) := by
  have mark : WellFormed [34] := wellFormed_low (by simp)
  rw [escapePieces_unmarked unmarked, quote_eq]
  exact wellFormed_append (a := [34]) mark (wellFormed_append (wellFormed_stringify s units) mark)

theorem wellFormed_bracketed {parts : List Str} (each : ∀ part ∈ parts, WellFormed part)
    {first last : Nat} (low : first < 0xD800) (low' : last < 0xD800) :
    WellFormed (first :: (List.intercalate [44] parts ++ [last])) := by
  have one (c : Nat) (small : c < 0xD800) : WellFormed [c] := wellFormed_low (by simpa using small)
  have inner : WellFormed (List.intercalate [44] parts) := by
    cases parts with
    | nil => exact wellFormed_nil
    | cons part parts =>
      rw [intercalate_commas]
      obtain ⟨head, others⟩ := List.forall_mem_cons.mp each
      apply wellFormed_append head
      clear each head
      induction parts with
      | nil => exact wellFormed_nil
      | cons next parts ih =>
        obtain ⟨here, later⟩ := List.forall_mem_cons.mp others
        rw [List.flatMap_cons]
        exact wellFormed_append (wellFormed_append (a := [44]) (one 44 (by decide)) here) (ih later)
  exact wellFormed_append (a := [first]) (one _ low) (wellFormed_append inner (one _ low'))

/-- Both conditions on the strings of a value. -/
def Sound (s : Str) : Prop := Units s ∧ Unmarked s

mutual

theorem wellFormed_render : ∀ v : Json, v.Strings Sound → WellFormed (render (toTree v))
  | .null, _ => by
    simp only [toTree, render]
    exact wellFormed_low (by decide)
  | .bool true, _ => by
    simp only [toTree, render]
    exact wellFormed_low (by decide)
  | .bool false, _ => by
    simp only [toTree, render]
    exact wellFormed_low (by decide)
  | .num (.finite d), _ => by
    simp only [toTree, render]
    exact wellFormed_low (JsonChars.every_token (fun c _ high => by omega) _)
  | .num .nan, _ => by
    simp only [toTree, render]
    exact wellFormed_low (by decide)
  | .num (.infinite _), _ => by
    simp only [toTree, render]
    exact wellFormed_low (by decide)
  | .str s, sound => by
    simp only [Json.Strings] at sound
    simp only [toTree, render]
    exact wellFormed_quote sound.1 sound.2
  | .arr items, sound => by
    simp only [Json.Strings] at sound
    rw [toTree, render_arr]
    exact wellFormed_bracketed (wellFormed_items items sound) (by decide) (by decide)
  | .obj members, sound => by
    simp only [Json.Strings] at sound
    rw [toTree, render_obj]
    exact wellFormed_bracketed (wellFormed_members members sound) (by decide) (by decide)

theorem wellFormed_items : ∀ items : List Json, StringsItems Sound items →
    ∀ part ∈ (toItems items).map render, WellFormed part
  | [], _ => by
    simp only [toItems, List.map_nil]
    exact List.forall_mem_nil _
  | v :: items, sound => by
    simp only [StringsItems] at sound
    simp only [toItems, List.map_cons]
    exact List.forall_mem_cons.mpr ⟨wellFormed_render v sound.1, wellFormed_items items sound.2⟩

theorem wellFormed_members : ∀ members : Record, StringsMembers Sound members →
    ∀ part ∈ (toMembers members).map renderMember, WellFormed part
  | [], _ => by
    simp only [toMembers, List.map_nil]
    exact List.forall_mem_nil _
  | (k, v) :: members, sound => by
    simp only [StringsMembers] at sound
    simp only [toMembers, List.map_cons]
    refine List.forall_mem_cons.mpr ⟨?_, wellFormed_members members sound.2.2⟩
    have colon : WellFormed [58] := wellFormed_low (by simp)
    exact wellFormed_append (wellFormed_quote sound.1.1 sound.1.2)
      (wellFormed_append (a := [58]) colon (wellFormed_render v sound.2.1))

end

/-- No control character, so no newline, is written but as an escape. -/
theorem literals_escapePieces (value : Str) : ∀ c ∈ (escapePieces value).flatMap JsonChars.pieceLiterals, 32 ≤ c := by
  have separators (p : Piece) (member : p ∈ escapePieces value) :
      p ∈ stringifyPieces value ∨ p = .odd 0x2028 ∨ p = .odd 0x2029 := by
    rcases mem_fuse _ 0 member with inner | same
    · exact (mem_fuse _ 0 inner).imp_right .inl
    · exact .inr (.inr same)
  intro c member
  obtain ⟨p, inside, here⟩ := List.mem_flatMap.mp member
  rcases separators p inside with written | rfl | rfl
  · have ok : PieceOk strict p := piecesOk_of_spelt (spells_stringify value) p written
    cases p with
    | lit d =>
      rw [List.mem_singleton.mp here]
      exact ok.1
    | esc d => exact absurd here List.not_mem_nil
    | odd d => exact absurd ok.1 (by simp [strict])
  · rw [List.mem_singleton.mp here]
    decide
  · rw [List.mem_singleton.mp here]
    decide

mutual

theorem literals_toTree : ∀ v : Json, ∀ c ∈ JsonChars.literals (toTree v), 32 ≤ c
  | .null => by simp [toTree, JsonChars.literals]
  | .bool _ => by simp [toTree, JsonChars.literals]
  | .num (.finite _) => by simp [toTree, JsonChars.literals]
  | .num .nan => by simp [toTree, JsonChars.literals]
  | .num (.infinite _) => by simp [toTree, JsonChars.literals]
  | .str s => by
    simp only [toTree, JsonChars.literals]
    exact literals_escapePieces s
  | .arr items => by
    simp only [toTree, JsonChars.literals]
    exact literals_toItems items
  | .obj members => by
    simp only [toTree, JsonChars.literals]
    exact literals_toMembers members

theorem literals_toItems : ∀ items : List Json, ∀ c ∈ JsonChars.literalsItems (toItems items), 32 ≤ c
  | [] => by simp [toItems, JsonChars.literalsItems]
  | v :: items => by
    simp only [toItems, JsonChars.literalsItems]
    exact List.forall_mem_append.mpr ⟨literals_toTree v, literals_toItems items⟩

theorem literals_toMembers : ∀ members : Record, ∀ c ∈ JsonChars.literalsMembers (toMembers members), 32 ≤ c
  | [] => by simp [toMembers, JsonChars.literalsMembers]
  | (k, v) :: members => by
    simp only [toMembers, JsonChars.literalsMembers]
    exact List.forall_mem_append.mpr ⟨literals_escapePieces k,
      List.forall_mem_append.mpr ⟨literals_toTree v, literals_toMembers members⟩⟩

end

/-- A canonical text is one line. -/
theorem control_free (v : Json) : ∀ c ∈ render (toTree v), 32 ≤ c :=
  (JsonChars.every_render (P := fun c => 32 ≤ c) (fun _ low _ => low) (toTree v)).mpr (literals_toTree v)

end Tesera.TypeScript.Canonical
