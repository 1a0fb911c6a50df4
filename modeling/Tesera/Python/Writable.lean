import Tesera.Python.JsonCodec
import Tesera.Text.JsonChars

/-!
Which values can be written. The text `dumps` makes of a value holds the characters of
its strings, printable ASCII besides; so it has UTF-8 bytes exactly when no string holds a
surrogate.
-/

namespace Tesera.Python.Writable
open Tesera.Text Tesera.Text.Unicode Tesera.Text.Json Tesera.Text.JsonChars
open Tesera.Python.Value Tesera.Python.JsonCodec

mutual

/-- The characters of the strings of a value, keys included. -/
def texts : Json → Str
  | .str s => s
  | .list items => textsItems items
  | .dict members => textsMembers members
  | _ => []

def textsItems : List Json → Str
  | [] => []
  | v :: items => texts v ++ textsItems items

def textsMembers : List (Str × Json) → Str
  | [] => []
  | (k, v) :: members => k ++ (texts v ++ textsMembers members)

end

mutual

/-- No NaN and no infinity. -/
def finite : Json → Bool
  | .float .nan => false
  | .float (.inf _) => false
  | .list items => finiteItems items
  | .dict members => finiteMembers members
  | _ => true

def finiteItems : List Json → Bool
  | [] => true
  | v :: items => finite v && finiteItems items

def finiteMembers : List (Str × Json) → Bool
  | [] => true
  | (_, v) :: members => finite v && finiteMembers members

end

/-- The characters `dumps` escapes. -/
def escaped (c : Nat) : Bool := decide (c < 32 ∨ c = 34 ∨ c = 92)

theorem pieceLiterals_piecesOf (s : Str) :
    (piecesOf s).flatMap pieceLiterals = s.filter (fun c => !escaped c) := by
  induction s with
  | nil => rfl
  | cons c s ih =>
    have tail : (s.map pieceOf).flatMap pieceLiterals = s.filter (fun c => !escaped c) := ih
    rw [piecesOf, List.map_cons, List.flatMap_cons, tail]
    by_cases special : c < 32 ∨ c = 34 ∨ c = 92
    · have isEscaped : escaped c = true := decide_eq_true special
      rw [pieceOf, if_pos special, List.filter_cons_of_neg (by simp [isEscaped])]
      rfl
    · have notEscaped : escaped c = false := decide_eq_false special
      rw [pieceOf, if_neg special, List.filter_cons_of_pos (by simp [notEscaped])]
      rfl

mutual

theorem literals_toTree : ∀ v : Json, literals (toTree v) = (texts v).filter (fun c => !escaped c)
  | .null => by simp [toTree, literals, texts]
  | .bool _ => by simp [toTree, literals, texts]
  | .int _ => by simp [toTree, literals, texts]
  | .float .nan => by simp [toTree, literals, texts]
  | .float (.inf false) => by simp [toTree, literals, texts]
  | .float (.inf true) => by simp [toTree, literals, texts]
  | .float (.finite _) => by simp [toTree, literals, texts]
  | .str s => by simp only [toTree, literals, texts, pieceLiterals_piecesOf]
  | .list items => by simp only [toTree, literals, texts, literals_toItems items]
  | .dict members => by simp only [toTree, literals, texts, literals_toMembers members]

theorem literals_toItems : ∀ items : List Json,
    literalsItems (toItems items) = (textsItems items).filter (fun c => !escaped c)
  | [] => by simp [toItems, literalsItems, textsItems]
  | v :: items => by
    simp only [toItems, literalsItems, textsItems, List.filter_append, literals_toTree v,
      literals_toItems items]

theorem literals_toMembers : ∀ members : List (Str × Json),
    literalsMembers (toMembers members) = (textsMembers members).filter (fun c => !escaped c)
  | [] => by simp [toMembers, literalsMembers, textsMembers]
  | (k, v) :: members => by
    simp only [toMembers, literalsMembers, textsMembers, List.filter_append, pieceLiterals_piecesOf,
      literals_toTree v, literals_toMembers members]

end

/-- The characters of a written value are printable ASCII and those of its strings that
are not escaped. -/
theorem every_written {P : Nat → Prop} (ascii : ∀ c, 32 ≤ c → c < 127 → P c) (v : Json) :
    (∀ c ∈ render (toTree v), P c) ↔ ∀ c ∈ texts v, escaped c = false → P c := by
  rw [every_render ascii, literals_toTree]
  simp only [List.mem_filter, Bool.not_eq_true', and_imp]

/-! ## UTF-8 -/

def isScalar (c : Nat) : Bool := (scalar? c).isSome

theorem isScalar_ascii {c : Nat} (small : c < 127) : isScalar c = true := by
  have valid : c.isValidChar := .inl (by omega)
  simp [isScalar, scalar?, valid]

theorem utf8Encode_isSome (text : Str) :
    (∃ bytes, utf8Encode text = some bytes) ↔ ∀ c ∈ text, isScalar c = true := by
  have chars : (∃ chars, text.mapM scalar? = some chars) ↔ ∀ c ∈ text, isScalar c = true := by
    induction text with
    | nil => simp
    | cons c text ih =>
      rw [List.forall_mem_cons, ← ih, List.mapM_cons]
      unfold isScalar
      cases scalar? c with
      | none => simp
      | some first => cases text.mapM scalar? <;> simp
  rw [← chars]
  unfold utf8Encode
  cases text.mapM scalar? <;> simp

/-- The strings of a value hold no surrogates. -/
def Encodable (v : Json) : Prop := ∀ c ∈ texts v, isScalar c = true

theorem utf8Encode_written (v : Json) :
    (∃ bytes, utf8Encode (render (toTree v)) = some bytes) ↔ Encodable v := by
  rw [utf8Encode_isSome, every_written (fun c _ small => isScalar_ascii small)]
  refine forall₂_congr (fun c _ => ?_)
  constructor
  · intro plain
    cases special : escaped c with
    | false => exact plain special
    | true =>
      simp only [escaped, decide_eq_true_eq] at special
      exact isScalar_ascii (by omega)
  · exact fun scalar _ => scalar

/-! ## The checks of `dumps` -/

mutual

/-- Without NaN allowed, `dumps` asks for finite floats besides. -/
theorem checkDumps_strict (host : Host) : ∀ (depth : Nat) (v : Json),
    checkDumps host false depth v = .ok () ↔
      checkDumps host true depth v = .ok () ∧ finite v = true
  | depth, .null => by cases depth <;> simp [checkDumps, finite]
  | depth, .bool _ => by cases depth <;> simp [checkDumps, finite]
  | depth, .int _ => by cases depth <;> simp [checkDumps, finite]
  | depth, .str _ => by cases depth <;> simp [checkDumps, finite]
  | depth, .float .nan => by cases depth <;> simp [checkDumps, finite]
  | depth, .float (.inf _) => by cases depth <;> simp [checkDumps, finite]
  | depth, .float (.finite _) => by cases depth <;> simp [checkDumps, finite]
  | 0, .list _ => by simp [checkDumps]
  | 0, .dict _ => by simp [checkDumps]
  | depth + 1, .list items => by
    simp only [checkDumps, finite, checkItems_strict host depth items]
  | depth + 1, .dict members => by
    simp only [checkDumps, finite, checkMembers_strict host depth members]

theorem checkItems_strict (host : Host) : ∀ (depth : Nat) (items : List Json),
    checkItems host false depth items = .ok () ↔
      checkItems host true depth items = .ok () ∧ finiteItems items = true
  | _, [] => by simp [checkItems, finiteItems]
  | depth, v :: items => by
    have head := checkDumps_strict host depth v
    have tail := checkItems_strict host depth items
    simp only [checkItems_iff, List.forall_mem_cons, finiteItems, Bool.and_eq_true] at tail ⊢
    rw [head, tail]
    tauto

theorem checkMembers_strict (host : Host) : ∀ (depth : Nat) (members : List (Str × Json)),
    checkMembers host false depth members = .ok () ↔
      checkMembers host true depth members = .ok () ∧ finiteMembers members = true
  | _, [] => by simp [checkMembers, finiteMembers]
  | depth, (k, v) :: members => by
    have head := checkDumps_strict host depth v
    have tail := checkMembers_strict host depth members
    simp only [checkMembers_iff, List.forall_mem_cons, finiteMembers, Bool.and_eq_true] at tail ⊢
    rw [head, tail]
    tauto

end

end Tesera.Python.Writable
