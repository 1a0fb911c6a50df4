import Tesera.Redaction.Names
import Tesera.Python.Value

/-!
`canonicalize`: one walk over a Python value that puts a marker for what stands under a
sensitive name or is not canonical, and keeps the texts of what it has removed.
-/

namespace Tesera.Redaction.Traversal
open Tesera.Text Tesera.Text.Unicode Tesera.Python.Value Tesera.Redaction.Names

/-- A Python object, as the walk takes it apart. Dataclass instances and named tuples have named
fields, lists and other tuples have items, and containers have the name of their type. A dict
with a key that is not a string only has its values here. A container that is met again inside
itself is a `cycle`. Any other object is known by the name of its type, the strings it holds and
its identity. -/
inductive Value where
  | none
  | bool (b : Bool)
  | int (n : Int)
  | float (f : PyFloat)
  | str (text : Str)
  | dict (type : Str) (items : List (Str × Value))
  | mixed (type : Str) (items : List Value)
  | named (type : Str) (fields : List (Str × Value))
  | seq (type : Str) (items : List Value)
  | cycle
  | other (type : Str) (held : List Str) (identity : Nat)

inductive WalkError where
  | canonicalization (text : String)
  | raised
  deriving DecidableEq

/-- The sensitive names, the patterns, as what they search, and `str()`, which may raise. -/
structure Settings where
  data : CharacterData
  sensitive : List Str
  patterns : List (Str → Bool)
  str : Value → Option Str

def Settings.hides (settings : Settings) (name : Str) : Bool := isSensitiveName settings.data name settings.sensitive

def maxDepth : Nat := 64

def redacted : Str := lit "<REDACTED>"

def unsupportedMarker : Str := lit "<unsupported:"

def nonStringKeyMarker : Str := lit "<unsupported:mapping-with-non-string-keys>"

/-- What a walk returns: the canonical value and the texts of what was removed. -/
abbrev Walked (α : Type) := Except WalkError (α × List Str)

variable (settings : Settings)

/-- What `_redact` collects of a value. -/
def removedText : Value → Option Str
  | .none => none
  | .str text => if text = [] then none else some text
  | value =>
      match settings.str value with
      | some text => if text = [] then none else some text
      | none => none

/-- `str()` is called on the value, and raises. -/
def raises : Value → Bool
  | .none => false
  | .str _ => false
  | value => (settings.str value).isNone

/-- `_redact`. -/
def redact (value : Value) : Walked Json :=
  if raises settings value then .error .raised else .ok (.str redacted, (removedText settings value).toList)

/-- The check of the depth, before anything else. -/
def atDepth (depth : Nat) (walked : Walked Json) : Walked Json :=
  if depth > maxDepth then .error (.canonicalization "nesting exceeds maximum depth of 64") else walked

def isFinite : PyFloat → Bool
  | .finite _ => true
  | _ => false

mutual

/-- `_walk`. -/
def walk (depth : Nat) : Value → Walked Json
  | .none => atDepth depth (.ok (.null, []))
  | .bool b => atDepth depth (.ok (.bool b, []))
  | .int n => atDepth depth (.ok (.int n, []))
  | .str text => atDepth depth
      (if text ≠ [] ∧ settings.patterns.any (fun searches => searches text) then redact settings (.str text)
        else .ok (.str text, []))
  | .float f => atDepth depth
      (if isFinite f then .ok (.float f, [])
        else .error (.canonicalization "NaN and infinite floats are not permitted in canonical evidence"))
  | .dict _ items => atDepth depth ((walkFields (depth + 1) items).map (fun r => (.dict (Members.ofPairs r.1), r.2)))
  | .mixed _ _ => atDepth depth (.ok (.str nonStringKeyMarker, []))
  | .named _ fields => atDepth depth ((walkFields (depth + 1) fields).map (fun r => (.dict (Members.ofPairs r.1), r.2)))
  | .seq _ items => atDepth depth ((walkItems (depth + 1) items).map (fun r => (.list r.1, r.2)))
  | .cycle => atDepth depth (.error (.canonicalization "cyclic container cannot be canonicalized"))
  | .other type _ _ => atDepth depth (.ok (.str (unsupportedMarker ++ type ++ lit ">"), []))

/-- The items of a dict, or the fields of an object: by name. -/
def walkFields (depth : Nat) : List (Str × Value) → Except WalkError (List (Str × Json) × List Str)
  | [] => .ok ([], [])
  | (name, value) :: rest => do
      let first ← (if settings.hides name then redact settings value else walk depth value)
      let later ← walkFields depth rest
      return ((name, first.1) :: later.1, first.2 ++ later.2)

def walkItems (depth : Nat) : List Value → Except WalkError (List Json × List Str)
  | [] => .ok ([], [])
  | value :: rest => do
      let first ← walk depth value
      let later ← walkItems depth rest
      return (first.1 :: later.1, first.2 ++ later.2)

end

/-- `canonicalize`. -/
def canonicalize (value : Value) : Walked Json := walk settings 0 value

mutual

/-- The values that stand under a sensitive name, as the walk meets them. -/
def removed : Value → List Value
  | .dict _ items => removedFields items
  | .named _ fields => removedFields fields
  | .seq _ items => removedItems items
  | _ => []

def removedFields : List (Str × Value) → List Value
  | [] => []
  | (name, value) :: rest => (if settings.hides name then [value] else removed value) ++ removedFields rest

def removedItems : List Value → List Value
  | [] => []
  | value :: rest => removed value ++ removedItems rest

end

variable {settings}

theorem atDepth_eq_ok {depth : Nat} {walked : Walked Json} {result : Json × List Str} (ok : atDepth depth walked = .ok result) :
    walked = .ok result := by
  rw [atDepth] at ok
  split_ifs at ok
  exact ok

theorem redact_eq_ok {value : Value} {result : Json × List Str} (ok : redact settings value = .ok result) :
    result = (.str redacted, (removedText settings value).toList) := by
  rw [redact] at ok
  split_ifs at ok
  exact (Except.ok.inj ok).symm

theorem bind_eq_ok {α β : Type} {first : Except WalkError α} {next : α → Except WalkError β} {result : β}
    (ok : first >>= next = .ok result) : ∃ r, first = .ok r ∧ next r = .ok result := by
  cases first with
  | error e => cases ok
  | ok r => exact ⟨r, rfl, ok⟩

theorem map_eq_ok {α β : Type} {first : Except WalkError α} {f : α → β} {result : β}
    (ok : first.map f = .ok result) : ∃ r, first = .ok r ∧ f r = result := by
  cases first with
  | error e => cases ok
  | ok r => exact ⟨r, rfl, Except.ok.inj ok⟩

mutual

/-- What is collected without patterns: the texts of the values under sensitive names. -/
theorem collected_walk (plain : settings.patterns = []) {depth : Nat} : (value : Value) → {result : Json × List Str} →
    (ok : walk settings depth value = .ok result) → result.2 = (removed settings value).filterMap (removedText settings)
  | .none, result, ok => by
      rw [walk] at ok
      rw [← Except.ok.inj (atDepth_eq_ok ok)]
      rfl
  | .bool b, result, ok => by
      rw [walk] at ok
      rw [← Except.ok.inj (atDepth_eq_ok ok)]
      rfl
  | .int n, result, ok => by
      rw [walk] at ok
      rw [← Except.ok.inj (atDepth_eq_ok ok)]
      rfl
  | .str text, result, ok => by
      rw [walk] at ok
      have here := atDepth_eq_ok ok
      rw [if_neg (by simp [plain])] at here
      rw [← Except.ok.inj here]
      rfl
  | .float f, result, ok => by
      rw [walk] at ok
      have here := atDepth_eq_ok ok
      split_ifs at here
      rw [← Except.ok.inj here]
      rfl
  | .dict type items, result, ok => by
      rw [walk] at ok
      obtain ⟨r, inner, same⟩ := map_eq_ok (atDepth_eq_ok ok)
      rw [← same, removed]
      exact collected_walkFields plain items inner
  | .mixed type items, result, ok => by
      rw [walk] at ok
      rw [← Except.ok.inj (atDepth_eq_ok ok)]
      rfl
  | .named type fields, result, ok => by
      rw [walk] at ok
      obtain ⟨r, inner, same⟩ := map_eq_ok (atDepth_eq_ok ok)
      rw [← same, removed]
      exact collected_walkFields plain fields inner
  | .seq type items, result, ok => by
      rw [walk] at ok
      obtain ⟨r, inner, same⟩ := map_eq_ok (atDepth_eq_ok ok)
      rw [← same, removed]
      exact collected_walkItems plain items inner
  | .cycle, result, ok => by
      rw [walk] at ok
      cases atDepth_eq_ok ok
  | .other type held identity, result, ok => by
      rw [walk] at ok
      rw [← Except.ok.inj (atDepth_eq_ok ok)]
      rfl

theorem collected_walkFields (plain : settings.patterns = []) {depth : Nat} : (fields : List (Str × Value)) →
    {result : List (Str × Json) × List Str} → (ok : walkFields settings depth fields = .ok result) →
    result.2 = (removedFields settings fields).filterMap (removedText settings)
  | [], result, ok => by
      rw [walkFields] at ok
      rw [← Except.ok.inj ok]
      rfl
  | (name, value) :: rest, result, ok => by
      rw [walkFields] at ok
      obtain ⟨first, head, ok⟩ := bind_eq_ok ok
      obtain ⟨later, tail, ok⟩ := bind_eq_ok ok
      rw [← Except.ok.inj ok, removedFields, List.filterMap_append, ← collected_walkFields plain rest tail]
      by_cases hidden : settings.hides name = true
      · rw [if_pos hidden] at head
        rw [if_pos hidden, redact_eq_ok head]
        cases text : removedText settings value <;> simp [text]
      · rw [if_neg hidden] at head
        rw [if_neg hidden, ← collected_walk plain value head]

theorem collected_walkItems (plain : settings.patterns = []) {depth : Nat} : (items : List Value) →
    {result : List Json × List Str} → (ok : walkItems settings depth items = .ok result) →
    result.2 = (removedItems settings items).filterMap (removedText settings)
  | [], result, ok => by
      rw [walkItems] at ok
      rw [← Except.ok.inj ok]
      rfl
  | value :: rest, result, ok => by
      rw [walkItems] at ok
      obtain ⟨first, head, ok⟩ := bind_eq_ok ok
      obtain ⟨later, tail, ok⟩ := bind_eq_ok ok
      rw [← Except.ok.inj ok, removedItems, List.filterMap_append, ← collected_walk plain value head,
        ← collected_walkItems plain rest tail]

end

end Tesera.Redaction.Traversal
