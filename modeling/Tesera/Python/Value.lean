import Tesera.Text.Decimal
import Tesera.Text.Members

/-!
The Python values that JSON texts denote, and what the library does with values of
arbitrary type: lookups, equality, order, membership and `int()`. A `dict` is kept in key
order; the library only looks keys up or writes them sorted, so the order of
insertion is never observed.
-/

namespace Tesera.Python.Value
open Tesera.Text.Unicode Tesera.Text.Decimal Tesera.Text

/-- A Python `float`. -/
inductive PyFloat where
  | nan
  | inf (neg : Bool)
  | finite (d : Dec)
  deriving DecidableEq

inductive Json where
  | null
  | bool (b : Bool)
  | int (n : Int)
  | float (f : PyFloat)
  | str (s : Str)
  | list (items : List Json)
  | dict (members : List (Str × Json))

abbrev Dict := List (Str × Json)

/-- The exceptions the library raises or lets through. -/
inductive PyError where
  | valueError (text : String)
  | unicodeEncodeError
  | typeError
  | keyError
  | overflowError
  | recursionError
  | osError (name : String)
  | canonicalizationError
  | journalError (text : String)
  | archiveError (text : String)
  | countersignError (text : String)
  | resolutionError (text : String)
  | evidenceAuditError (text : String)
  deriving DecidableEq

/-- `isinstance(exc, ValueError)`; a `UnicodeEncodeError` is one. -/
def PyError.isValueError : PyError → Bool
  | .valueError _ => true
  | .unicodeEncodeError => true
  | _ => false

/-- `str(exc)`, for the exceptions whose text is reported. -/
def PyError.text : PyError → String
  | .valueError text => text
  | .journalError text => text
  | .archiveError text => text
  | .countersignError text => text
  | .resolutionError text => text
  | .evidenceAuditError text => text
  | .osError name => name
  | _ => ""

/-- What the interpreter and its libraries supply. `double` rounds a decimal to the
shortest decimal of the nearest double, `none` past the largest one, and `exact` is
the value of that double. -/
structure Host where
  recursionLimit : Nat
  maxStrDigits : Nat
  double : Dec → Option Dec
  double_double : ∀ {d e}, double d = some e → double e = some e
  exact : Dec → Rat
  intOfStr : Str → Option Int
  repr : Json → String
  strOf : Json → Str
  utf8Error : Bytes → String
  decodeError : Str → String
  sha256 : Bytes → Bytes
  b64decode : Str → Option Bytes

/-- A host that does without floats: every decimal is a double. -/
def Host.plain (sha256 : Bytes → Bytes) (b64decode : Str → Option Bytes) : Host where
  recursionLimit := 1000
  maxStrDigits := 4300
  double := some
  double_double := fun same => same ▸ same
  exact := fun d => (if d.neg then -1 else 1) * (Nat.ofDigits 10 d.digits.reverse : Rat) *
    (10 : Rat) ^ (d.point - d.digits.length)
  intOfStr := fun _ => none
  repr := fun _ => ""
  strOf := fun _ => []
  utf8Error := fun _ => ""
  decodeError := fun _ => ""
  sha256 := sha256
  b64decode := b64decode

/-- A sequence of calls returns when each of them does. -/
theorem bind_eq_ok {α β : Type} {x : Except PyError α} {f : α → Except PyError β} {b : β} :
    (x >>= f) = .ok b ↔ ∃ a, x = .ok a ∧ f a = .ok b := by
  cases x with
  | ok a => simp [bind, Except.bind]
  | error e => simp [bind, Except.bind]

/-! ## Lookups -/

/-- `event.get(field)`. -/
def get (event : Dict) (field : String) : Json := (Members.get event (lit field)).getD .null

/-- `field in event`. -/
def has (event : Dict) (field : String) : Bool := (Members.get event (lit field)).isSome

/-- `event[field]`. -/
def item (event : Dict) (field : String) : Except PyError Json :=
  match Members.get event (lit field) with
  | some value => .ok value
  | none => .error .keyError

theorem item_of_has {event : Dict} {field : String} (present : has event field = true) :
    item event field = .ok (get event field) := by
  obtain ⟨value, found⟩ := Option.isSome_iff_exists.mp present
  simp only [item, get, found, Option.getD_some]

theorem item_eq_ok {event : Dict} {field : String} {value : Json} (found : item event field = .ok value) :
    Members.get event (lit field) = some value ∧ get event field = value := by
  unfold item at found
  cases member : Members.get event (lit field) with
  | none => simp [member] at found
  | some stored =>
    simp only [member, Except.ok.injEq] at found
    exact ⟨congrArg some found, by rw [get, member, Option.getD_some, found]⟩

theorem get_of_not_has {event : Dict} {field : String} (absent : has event field = false) :
    get event field = .null := by
  simp only [has, Option.isSome_eq_false_iff, Option.isNone_iff_eq_none] at absent
  simp only [get, absent, Option.getD_none]

theorem has_of_get_ne_null {event : Dict} {field : String} (value : get event field ≠ .null) :
    has event field = true := by
  cases present : has event field with
  | true => rfl
  | false => exact absurd (get_of_not_has present) value

/-- `isinstance(value, str)`, with the text. -/
def asStr : Json → Option Str
  | .str s => some s
  | _ => none

theorem asStr_eq_some {v : Json} {s : Str} : asStr v = some s ↔ v = .str s := by
  cases v <;> simp [asStr]

/-- `isinstance(value, int)`, with the number; a `bool` is an `int`. -/
def asInt : Json → Option Int
  | .bool b => some (if b then 1 else 0)
  | .int n => some n
  | _ => none

/-- `isinstance(value, dict)`, with the members. -/
def asDict : Json → Option Dict
  | .dict members => some members
  | _ => none

theorem asDict_eq_some {v : Json} {members : Dict} : asDict v = some members ↔ v = .dict members := by
  cases v <;> simp [asDict]

/-- `str(value)`; a text is its own. -/
def pyStr (host : Host) : Json → Str
  | .str s => s
  | v => host.strOf v

/-! ## Numbers -/

/-- The numbers Python compares across `bool`, `int` and `float`. -/
inductive Number where
  | nan
  | inf (neg : Bool)
  | rat (q : Rat)
  deriving DecidableEq

def number (host : Host) : Json → Option Number
  | .bool b => some (.rat (if b then 1 else 0))
  | .int n => some (.rat n)
  | .float .nan => some .nan
  | .float (.inf neg) => some (.inf neg)
  | .float (.finite d) => some (.rat (host.exact d))
  | _ => none

def Number.eq : Number → Number → Bool
  | .inf a, .inf b => a == b
  | .rat a, .rat b => a == b
  | _, _ => false

def Number.lt : Number → Number → Bool
  | .inf true, .rat _ => true
  | .inf true, .inf false => true
  | .rat _, .inf false => true
  | .rat a, .rat b => decide (a < b)
  | _, _ => false

mutual

/-- `a == b`. -/
def pyEq (host : Host) : Json → Json → Bool
  | .null, .null => true
  | .str a, .str b => a == b
  | .list xs, .list ys => pyEqItems host xs ys
  | .dict ms, .dict ns => pyEqMembers host ms ns
  | a, b =>
      match number host a, number host b with
      | some x, some y => x.eq y
      | _, _ => false

def pyEqItems (host : Host) : List Json → List Json → Bool
  | [], [] => true
  | x :: xs, y :: ys => pyEq host x y && pyEqItems host xs ys
  | _, _ => false

def pyEqMembers (host : Host) : List (Str × Json) → List (Str × Json) → Bool
  | [], [] => true
  | (k, v) :: ms, (l, w) :: ns => k == l && (pyEq host v w && pyEqMembers host ms ns)
  | _, _ => false

end

/-- Nothing but a text equals a text. -/
theorem pyEq_str {host : Host} {v : Json} {s : Str} : pyEq host v (.str s) = true ↔ v = .str s := by
  cases v with
  | str t => simp [pyEq]
  | float f => cases f <;> simp [pyEq, number]
  | _ => simp [pyEq, number]

theorem str_pyEq {host : Host} {v : Json} {s : Str} : pyEq host (.str s) v = true ↔ v = .str s := by
  cases v with
  | str t =>
    simp only [pyEq, beq_iff_eq, Json.str.injEq]
    exact eq_comm
  | float f => cases f <;> simp [pyEq, number]
  | _ => simp [pyEq, number]

theorem pyEq_null {host : Host} {v : Json} : pyEq host v .null = true ↔ v = .null := by
  cases v with
  | float f => cases f <;> simp [pyEq, number]
  | _ => simp [pyEq, number]

/-- `a > b` where one side is a number: anything but a number on the other raises. -/
def pyGt (host : Host) (a b : Json) : Except PyError Bool :=
  match number host a, number host b with
  | some x, some y => .ok (y.lt x)
  | _, _ => .error .typeError

/-- `value in names` for a set of texts: hashing a list or a dict raises. -/
def inSet (names : List String) : Json → Except PyError Bool
  | .list _ => .error .typeError
  | .dict _ => .error .typeError
  | .str s => .ok (decide (s ∈ names.map lit))
  | _ => .ok false

/-- `int(value)`. -/
def pyInt (host : Host) : Json → Except PyError Int
  | .bool b => .ok (if b then 1 else 0)
  | .int n => .ok n
  | .float .nan => .error (.valueError "cannot convert float NaN to integer")
  | .float (.inf _) => .error .overflowError
  | .float (.finite d) =>
      .ok (if 0 ≤ host.exact d then (host.exact d).floor else (host.exact d).ceil)
  | .str s =>
      match host.intOfStr s with
      | some n => .ok n
      | none => .error (.valueError "invalid literal for int() with base 10")
  | _ => .error .typeError

/-! ## Well-formed values -/

mutual

/-- What the representation asks of a value: floats are doubles and the keys of a
`dict` are distinct and in order. -/
def Json.Ok (host : Host) : Json → Prop
  | .float (.finite d) => host.double d = some d
  | .list items => ItemsOk host items
  | .dict members => Members.Sorted members ∧ MembersOk host members
  | _ => True

def ItemsOk (host : Host) : List Json → Prop
  | [] => True
  | x :: xs => Json.Ok host x ∧ ItemsOk host xs

def MembersOk (host : Host) : List (Str × Json) → Prop
  | [] => True
  | (_, v) :: ms => Json.Ok host v ∧ MembersOk host ms

end

theorem membersOk_iff {host : Host} {members : Dict} :
    MembersOk host members ↔ ∀ p ∈ members, p.2.Ok host := by
  induction members with
  | nil => simp [MembersOk]
  | cons p members ih =>
    obtain ⟨k, v⟩ := p
    simp [MembersOk, ih]

theorem itemsOk_iff {host : Host} {items : List Json} :
    ItemsOk host items ↔ ∀ v ∈ items, v.Ok host := by
  induction items with
  | nil => simp [ItemsOk]
  | cons v items ih => simp [ItemsOk, ih]

/-- An event: a `dict` in the form the representation asks. -/
def DictOk (host : Host) (event : Dict) : Prop := Json.Ok host (.dict event)

theorem dictOk_iff {host : Host} {event : Dict} :
    DictOk host event ↔ Members.Sorted event ∧ ∀ p ∈ event, p.2.Ok host := by
  simp only [DictOk, Json.Ok, membersOk_iff]

end Tesera.Python.Value
