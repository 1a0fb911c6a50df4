import Tesera.Python.JsonCodec
import Tesera.TypeScript.Value

/-!
One JSON document in two languages. A reader of code points and a reader of UTF-16 code
units parse its text to the same tree but for the characters of its strings, and each
makes its own value of that.
-/

namespace Tesera.Documents
open Tesera.Text Tesera.Text.Unicode Tesera.Text.Json
open Tesera.Text.JsonRoundTrip (PieceOk PiecesOk TreeOk ItemsOk MembersOk)

/-- A tree that some JSON text denotes. -/
structure Document where
  tree : Tree
  grammar : TreeOk TypeScript.Value.strict tree

/-! ## Code units -/

/-- A character of a string as its code units. -/
def unitsPiece : Piece → List Piece
  | .lit c => (unitsOf c).map .lit
  | piece => [piece]

mutual

/-- The tree a reader of code units gets. -/
def unitsTree : Tree → Tree
  | .str text => .str (text.flatMap unitsPiece)
  | .arr items => .arr (unitsItems items)
  | .obj members => .obj (unitsMembers members)
  | t => t

def unitsItems : List Tree → List Tree
  | [] => []
  | t :: items => unitsTree t :: unitsItems items

def unitsMembers : List (List Piece × Tree) → List (List Piece × Tree)
  | [] => []
  | (k, t) :: members => (k.flatMap unitsPiece, unitsTree t) :: unitsMembers members

end

/-- The value `json.loads` makes of the document. -/
def Document.python (host : Python.Value.Host) (document : Document) : Python.Value.Json :=
  Python.JsonCodec.ofTree host document.tree

/-- The value `JSON.parse` makes of it. -/
def Document.javascript (engine : TypeScript.Value.Engine) (document : Document) : TypeScript.Value.Json :=
  TypeScript.Value.ofTree engine (unitsTree document.tree)

theorem utf16Encode_cons (c : Nat) (text : Str) : utf16Encode (c :: text) = unitsOf c ++ utf16Encode text := rfl

theorem unitsOf_basic {c : Nat} (basic : c < 65536) : unitsOf c = [c] := if_pos basic

theorem unitsOf_combine {high low : Nat} (pair : (isHigh high && isLow low) = true) :
    unitsOf (combine high low) = [high, low] := by
  obtain ⟨first, second⟩ := Bool.and_eq_true_iff.mp pair
  simp only [isHigh, isLow, decide_eq_true_eq] at first second
  have value : combine high low = 0x10000 + (high - 0xD800) * 0x400 + (low - 0xDC00) := rfl
  have astral : ¬ combine high low < 0x10000 := by omega
  have top : 0xD800 + (combine high low - 0x10000) / 0x400 = high := by omega
  have bottom : 0xDC00 + (combine high low - 0x10000) % 0x400 = low := by omega
  rw [unitsOf, if_neg astral, top, bottom]

/-- The code units of a string are those of its characters. -/
theorem unitsOfPieces_units {pieces : List Piece} (ok : PiecesOk TypeScript.Value.strict pieces) :
    TypeScript.Value.unitsOfPieces (pieces.flatMap unitsPiece) = utf16Encode (Python.JsonCodec.joinPieces pieces) := by
  have literal : ∀ c more, TypeScript.Value.unitsOfPieces ((Piece.lit c :: more).flatMap unitsPiece) =
      unitsOf c ++ TypeScript.Value.unitsOfPieces (more.flatMap unitsPiece) := by
    intro c more
    have one : ((unitsOf c).map Piece.lit).map TypeScript.Value.unitOf = unitsOf c := by
      rw [List.map_map]
      exact List.map_id _
    rw [List.flatMap_cons, unitsPiece, TypeScript.Value.unitsOfPieces, List.map_append, one]
    rfl
  have escaped : ∀ c more, TypeScript.Value.unitsOfPieces ((Piece.esc c :: more).flatMap unitsPiece) =
      c :: TypeScript.Value.unitsOfPieces (more.flatMap unitsPiece) := fun _ _ => rfl
  fun_induction Python.JsonCodec.joinPieces pieces with
  | case1 h l rest pair ih =>
    have tail := ih (fun p member => ok p (List.mem_cons_of_mem _ (List.mem_cons_of_mem _ member)))
    rw [escaped, escaped, tail, utf16Encode_cons, unitsOf_combine pair]
    rfl
  | case2 h l rest pair ih =>
    have tail := ih (fun p member => ok p (List.mem_cons_of_mem _ member))
    have small : h < 65536 := ok _ List.mem_cons_self
    rw [escaped, tail, utf16Encode_cons, unitsOf_basic small]
    rfl
  | case3 c rest ih =>
    have tail := ih (fun p member => ok p (List.mem_cons_of_mem _ member))
    rw [literal, tail, utf16Encode_cons]
  | case4 c rest _ ih =>
    have tail := ih (fun p member => ok p (List.mem_cons_of_mem _ member))
    have small : c < 65536 := ok _ List.mem_cons_self
    rw [escaped, tail, utf16Encode_cons, unitsOf_basic small]
    rfl
  | case5 c rest ih =>
    have stray := (ok _ List.mem_cons_self).1
    cases stray
  | case6 => rfl

/-- An ASCII text has no other text's code units. -/
theorem utf16Encode_eq_ascii {text word : Str} (ascii : ∀ c ∈ word, c < 128) :
    utf16Encode text = word ↔ text = word := by
  induction text generalizing word with
  | nil => rfl
  | cons c text ih =>
    rw [utf16Encode_cons]
    by_cases basic : c < 65536
    · rw [unitsOf_basic basic, List.singleton_append]
      cases word with
      | nil => simp
      | cons d word =>
        rw [List.cons.injEq, List.cons.injEq, ih (fun e member => ascii e (List.mem_cons_of_mem d member))]
    · have high : ∀ e ∈ word.head?, e < 128 := fun e member => ascii e (List.mem_of_mem_head? member)
      rw [unitsOf, if_neg basic]
      constructor
      · intro same
        have first := high _ (by rw [← same]; rfl)
        omega
      · intro same
        have first := high c (by rw [← same]; rfl)
        omega

/-! ## Values of one document -/

/-- The values two languages have for one document: the strings of one are the code units
of those of the other, and a field with an ASCII name has like values in both. -/
inductive Alike : Python.Value.Json → TypeScript.Value.Json → Prop where
  | null : Alike .null .null
  | bool (b : Bool) : Alike (.bool b) (.bool b)
  | int (n : Int) (x : TypeScript.Value.Double) : Alike (.int n) (.num x)
  | float (f : Python.Value.PyFloat) (x : TypeScript.Value.Double) : Alike (.float f) (.num x)
  | str (s : Str) : Alike (.str s) (.str (utf16Encode s))
  | list {xs : List Python.Value.Json} {ys : List TypeScript.Value.Json} (items : List.Forall₂ Alike xs ys) :
      Alike (.list xs) (.arr ys)
  | dict {members : Python.Value.Dict} {record : TypeScript.Value.Record}
      (fields : ∀ word : Str, (∀ c ∈ word, c < 128) →
        Option.Rel Alike (Members.get members word) (Members.get record word))
      (names : ∀ units, units ∈ record.map Prod.fst ↔ ∃ key ∈ members.map Prod.fst, utf16Encode key = units) :
      Alike (.dict members) (.obj record)

/-- The values of one pair each, under a name and its code units. -/
def AlikePair (pair : Str × Python.Value.Json) (unitPair : Str × TypeScript.Value.Json) : Prop :=
  unitPair.1 = utf16Encode pair.1 ∧ Alike pair.2 unitPair.2

theorem alike_dict {pairs : List (Str × Python.Value.Json)} {unitPairs : List (Str × TypeScript.Value.Json)}
    (alike : List.Forall₂ AlikePair pairs unitPairs) :
    Alike (.dict (Members.ofPairs pairs)) (.obj (Members.ofPairs unitPairs)) := by
  apply Alike.dict
  · intro word ascii
    rw [Members.get_ofPairs, Members.get_ofPairs]
    induction alike with
    | nil => exact .none
    | @cons pair unitPair pairs unitPairs one _ ih =>
      obtain ⟨key, value⟩ := pair
      obtain ⟨units, unitValue⟩ := unitPair
      obtain ⟨rfl, like⟩ := one
      rw [Members.last, Members.last]
      generalize Members.last pairs word = found at ih
      generalize Members.last unitPairs word = unitFound at ih
      cases ih with
      | some later => exact .some later
      | none =>
        simp only [Option.none_or, utf16Encode_eq_ascii ascii]
        split_ifs
        · exact .some like
        · exact .none
  · intro units
    rw [Members.mem_keys_ofPairs]
    simp only [Members.mem_keys_ofPairs]
    induction alike with
    | nil => simp
    | cons one _ ih =>
      rw [List.map_cons, List.mem_cons, ih, one.1]
      simp [eq_comm]

mutual

/-- Both languages have like values for every document. -/
theorem alike_ofTree (host : Python.Value.Host) (engine : TypeScript.Value.Engine) : ∀ t : Tree,
    TreeOk TypeScript.Value.strict t →
      Alike (Python.JsonCodec.ofTree host t) (TypeScript.Value.ofTree engine (unitsTree t))
  | .null, _ => .null
  | .bool b, _ => .bool b
  | .const _, ok => by cases ok
  | .num token, _ => by
    simp only [Python.JsonCodec.ofTree, unitsTree, TypeScript.Value.ofTree]
    split_ifs
    · exact .int _ _
    · exact .float _ _
  | .str text, ok => by
    rw [Python.JsonCodec.ofTree, unitsTree, TypeScript.Value.ofTree, unitsOfPieces_units (by simpa only [TreeOk] using ok)]
    exact .str _
  | .arr items, ok => .list (alike_ofItems host engine items (by simpa only [TreeOk] using ok))
  | .obj members, ok => alike_dict (alike_ofMembers host engine members (by simpa only [TreeOk] using ok))

theorem alike_ofItems (host : Python.Value.Host) (engine : TypeScript.Value.Engine) : ∀ items : List Tree,
    ItemsOk TypeScript.Value.strict items →
      List.Forall₂ Alike (Python.JsonCodec.ofItems host items) (TypeScript.Value.ofItems engine (unitsItems items))
  | [], _ => .nil
  | t :: items, ok => .cons (alike_ofTree host engine t ok.1) (alike_ofItems host engine items ok.2)

theorem alike_ofMembers (host : Python.Value.Host) (engine : TypeScript.Value.Engine) :
    ∀ members : List (List Piece × Tree), MembersOk TypeScript.Value.strict members →
      List.Forall₂ AlikePair (Python.JsonCodec.ofMembers host members)
        (TypeScript.Value.ofMembers engine (unitsMembers members))
  | [], _ => .nil
  | (k, t) :: members, ok =>
    .cons ⟨unitsOfPieces_units ok.1, alike_ofTree host engine t ok.2.1⟩
      (alike_ofMembers host engine members ok.2.2)

end

theorem Document.alike (host : Python.Value.Host) (engine : TypeScript.Value.Engine) (document : Document) :
    Alike (document.python host) (document.javascript engine) :=
  alike_ofTree host engine document.tree document.grammar

end Tesera.Documents
