import Tesera.Text.Decimal
import Tesera.Text.Members
import Tesera.Text.JsonDialect

/-!
JSON values of a JavaScript runtime, its `JSON.parse`, and its `JSON.stringify` of a
string. A string is its UTF-16 code units and a number its shortest decimal digits. The
members of an object stand in the order `Object.keys(value).sort()` gives, which is by
code units; the order in which they were inserted is not kept.
-/

namespace Tesera.TypeScript.Value
open Tesera.Text Tesera.Text.Unicode Tesera.Text.Number Tesera.Text.Decimal Tesera.Text.Json
open Tesera.Text.JsonRoundTrip (PieceOk PiecesOk TreeOk ItemsOk MembersOk)
open Tesera.Text.JsonDialect (Wider)

inductive Double where
  | nan
  | infinite (neg : Bool)
  | finite (d : Dec)

inductive Json where
  | null
  | bool (b : Bool)
  | num (x : Double)
  | str (s : Str)
  | arr (items : List Json)
  | obj (members : List (Str × Json))

abbrev Record := List (Str × Json)

/-- The arithmetic of the runtime: `double` is the double nearest a decimal, by its shortest
digits, and none past the largest one. -/
structure Engine where
  double : Dec → Option Dec
  double_double : ∀ {d e}, double d = some e → double e = some e

/-- A string without lone surrogates. -/
def WellFormed (s : Str) : Prop := ∃ text : Str, (∀ n ∈ text, IsScalar n) ∧ s = utf16Encode text

mutual

/-- The values `JSON.parse` can return short of an infinite number: every number is a double,
and the members of an object are one for each name. -/
def Json.Ok (engine : Engine) : Json → Prop
  | .null => True
  | .bool _ => True
  | .num x => ∃ d, x = .finite d ∧ engine.double d = some d
  | .str _ => True
  | .arr items => OkItems engine items
  | .obj members => Members.Sorted members ∧ OkMembers engine members

def OkItems (engine : Engine) : List Json → Prop
  | [] => True
  | v :: items => v.Ok engine ∧ OkItems engine items

def OkMembers (engine : Engine) : Record → Prop
  | [] => True
  | (_, v) :: members => v.Ok engine ∧ OkMembers engine members

end

section Strings

variable (P : Str → Prop)

mutual

/-- Every string of a value has a property, names included. -/
def Json.Strings : Json → Prop
  | .str s => P s
  | .arr items => StringsItems items
  | .obj members => StringsMembers members
  | _ => True

def StringsItems : List Json → Prop
  | [] => True
  | v :: items => v.Strings ∧ StringsItems items

def StringsMembers : Record → Prop
  | [] => True
  | (k, v) :: members => P k ∧ v.Strings ∧ StringsMembers members

end

end Strings

section Names

variable (P : Str → Prop)

mutual

/-- Every name in a value has a property. -/
def Json.Names : Json → Prop
  | .arr items => NamesItems items
  | .obj members => NamesMembers members
  | _ => True

def NamesItems : List Json → Prop
  | [] => True
  | v :: items => v.Names ∧ NamesItems items

def NamesMembers : Record → Prop
  | [] => True
  | (k, v) :: members => P k ∧ v.Names ∧ NamesMembers members

end

end Names

theorem okMembers_iff {engine : Engine} {members : Record} :
    OkMembers engine members ↔ ∀ p ∈ members, p.2.Ok engine := by
  induction members with
  | nil => simp [OkMembers]
  | cons p members ih =>
    obtain ⟨k, v⟩ := p
    simp only [OkMembers, List.forall_mem_cons, ih]

theorem stringsMembers_iff {P : Str → Prop} {members : Record} :
    StringsMembers P members ↔ ∀ p ∈ members, P p.1 ∧ p.2.Strings P := by
  induction members with
  | nil => simp [StringsMembers]
  | cons p members ih =>
    obtain ⟨k, v⟩ := p
    simp only [StringsMembers, List.forall_mem_cons, ih, and_assoc]

theorem namesMembers_iff {P : Str → Prop} {members : Record} :
    NamesMembers P members ↔ ∀ p ∈ members, P p.1 ∧ p.2.Names P := by
  induction members with
  | nil => simp [NamesMembers]
  | cons p members ih =>
    obtain ⟨k, v⟩ := p
    simp only [NamesMembers, List.forall_mem_cons, ih, and_assoc]

mutual

theorem strings_mono {P Q : Str → Prop} (weaken : ∀ s, P s → Q s) : ∀ v : Json, v.Strings P → v.Strings Q
  | .null, _ => by simp only [Json.Strings]
  | .bool _, _ => by simp only [Json.Strings]
  | .num _, _ => by simp only [Json.Strings]
  | .str s, here => by
    simp only [Json.Strings] at here ⊢
    exact weaken s here
  | .arr items, here => by
    simp only [Json.Strings] at here ⊢
    exact stringsItems_mono weaken items here
  | .obj members, here => by
    simp only [Json.Strings] at here ⊢
    exact stringsMembers_mono weaken members here

theorem stringsItems_mono {P Q : Str → Prop} (weaken : ∀ s, P s → Q s) : ∀ items : List Json,
    StringsItems P items → StringsItems Q items
  | [], _ => by simp only [StringsItems]
  | v :: items, here => by
    simp only [StringsItems] at here ⊢
    exact ⟨strings_mono weaken v here.1, stringsItems_mono weaken items here.2⟩

theorem stringsMembers_mono {P Q : Str → Prop} (weaken : ∀ s, P s → Q s) : ∀ members : Record,
    StringsMembers P members → StringsMembers Q members
  | [], _ => by simp only [StringsMembers]
  | (k, v) :: members, here => by
    simp only [StringsMembers] at here ⊢
    exact ⟨weaken k here.1, strings_mono weaken v here.2.1, stringsMembers_mono weaken members here.2.2⟩

end

mutual

theorem strings_and {P Q : Str → Prop} : ∀ v : Json, v.Strings P → v.Strings Q → v.Strings (fun s => P s ∧ Q s)
  | .null, _, _ => by simp only [Json.Strings]
  | .bool _, _, _ => by simp only [Json.Strings]
  | .num _, _, _ => by simp only [Json.Strings]
  | .str s, first, second => by
    simp only [Json.Strings] at first second ⊢
    exact ⟨first, second⟩
  | .arr items, first, second => by
    simp only [Json.Strings] at first second ⊢
    exact stringsItems_and items first second
  | .obj members, first, second => by
    simp only [Json.Strings] at first second ⊢
    exact stringsMembers_and members first second

theorem stringsItems_and {P Q : Str → Prop} : ∀ items : List Json, StringsItems P items →
    StringsItems Q items → StringsItems (fun s => P s ∧ Q s) items
  | [], _, _ => by simp only [StringsItems]
  | v :: items, first, second => by
    simp only [StringsItems] at first second ⊢
    exact ⟨strings_and v first.1 second.1, stringsItems_and items first.2 second.2⟩

theorem stringsMembers_and {P Q : Str → Prop} : ∀ members : Record, StringsMembers P members →
    StringsMembers Q members → StringsMembers (fun s => P s ∧ Q s) members
  | [], _, _ => by simp only [StringsMembers]
  | (k, v) :: members, first, second => by
    simp only [StringsMembers] at first second ⊢
    exact ⟨⟨first.1, second.1⟩, strings_and v first.2.1 second.2.1,
      stringsMembers_and members first.2.2 second.2.2⟩

end

/-! ## `JSON.parse` -/

/-- The grammar of JSON itself. -/
def strict : Dialect where
  consts := false
  odd := fun _ => false
  token := fun _ => true

def unitOf : Piece → Nat
  | .lit c => c
  | .esc c => c
  | .odd c => c

def unitsOfPieces (pieces : List Piece) : Str := pieces.map unitOf

/-- `Number(text)` of the text of a JSON number. -/
def Engine.number (engine : Engine) (token : Token) : Double :=
  match engine.double (decOf token) with
  | some d => .finite d
  | none => .infinite token.neg

mutual

/-- The value of a tree; the last of several members of one name wins. The grammar has no
constants. -/
def ofTree (engine : Engine) : Tree → Json
  | .null => .null
  | .bool b => .bool b
  | .const _ => .null
  | .num token => .num (engine.number token)
  | .str pieces => .str (unitsOfPieces pieces)
  | .arr items => .arr (ofItems engine items)
  | .obj members => .obj (Members.ofPairs (ofMembers engine members))

def ofItems (engine : Engine) : List Tree → List Json
  | [] => []
  | t :: items => ofTree engine t :: ofItems engine items

def ofMembers (engine : Engine) : List (List Piece × Tree) → Record
  | [] => []
  | (k, t) :: members => (unitsOfPieces k, ofTree engine t) :: ofMembers engine members

end

def parseJson (engine : Engine) (text : Str) : Option Json := (parse strict text).map (ofTree engine)

/-! ## `JSON.stringify` of a string -/

/-- A unit that is no half of a surrogate pair. -/
def lonePiece (u : Nat) : Piece :=
  if u < 32 ∨ u = 34 ∨ u = 92 ∨ (isHigh u || isLow u) = true then .esc u else .lit u

def stringifyPieces : Str → List Piece
  | [] => []
  | [u] => [lonePiece u]
  | u :: v :: rest =>
      if isHigh u && isLow v then .lit u :: .lit v :: stringifyPieces rest
      else lonePiece u :: stringifyPieces (v :: rest)

def stringify (s : Str) : Str := quote (stringifyPieces s)

/-- How a unit is written: as itself, or where it must be as an escape. -/
structure Spells (u : Nat) (p : Piece) : Prop where
  choice : p = .lit u ∨ p = .esc u
  plain : 32 ≤ u → u ≠ 34 → u ≠ 92 → u < 0xD800 → p = .lit u
  needed : u < 32 ∨ u = 34 ∨ u = 92 → p = .esc u
  spared : 0xE000 ≤ u → p = .lit u

theorem spells_lonePiece (u : Nat) : Spells u (lonePiece u) := by
  unfold lonePiece
  simp only [isHigh, isLow]
  constructor <;> split_ifs with escaped <;> simp only [Bool.or_eq_true, decide_eq_true_eq] at escaped <;>
    simp <;> omega

theorem spells_lit {u : Nat} (surrogate : (isHigh u || isLow u) = true) : Spells u (.lit u) := by
  simp only [isHigh, isLow, Bool.or_eq_true, decide_eq_true_eq] at surrogate
  constructor
  · exact .inl rfl
  · exact fun _ _ _ _ => rfl
  · intro small
    omega
  · exact fun _ => rfl

/-- Each unit is written by one piece. -/
theorem spells_stringify (s : Str) : List.Forall₂ Spells s (stringifyPieces s) := by
  induction s using stringifyPieces.induct with
  | case1 => exact .nil
  | case2 u => exact .cons (spells_lonePiece u) .nil
  | case3 u v rest pair ih =>
    obtain ⟨high, low⟩ := Bool.and_eq_true_iff.mp pair
    simp only [stringifyPieces, pair, if_true]
    exact .cons (spells_lit (by simp [high])) (.cons (spells_lit (by simp [low])) ih)
  | case4 u v rest lone ih =>
    simp only [stringifyPieces, if_neg lone]
    exact .cons (spells_lonePiece u) ih

theorem unitsOfPieces_spells {s : Str} {pieces : List Piece} (spelt : List.Forall₂ Spells s pieces) :
    unitsOfPieces pieces = s := by
  induction spelt with
  | nil => rfl
  | @cons u p _ _ head tail ih =>
    have unit : unitOf p = u := by
      rcases head.choice with rfl | rfl <;> rfl
    simp only [unitsOfPieces, List.map_cons] at ih ⊢
    rw [ih, unit]

/-- `JSON.parse(JSON.stringify(s))` of a string. -/
@[simp] theorem unitsOfPieces_stringify (s : Str) : unitsOfPieces (stringifyPieces s) = s :=
  unitsOfPieces_spells (spells_stringify s)

end Tesera.TypeScript.Value
