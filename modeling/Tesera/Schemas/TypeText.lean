import Tesera.Python.Value

/-!
Type expressions written as text, as postponed annotations are: what JSON they admit, and of which kinds.
-/

namespace Tesera.Schemas.TypeText
open Tesera.Text.Unicode Tesera.Python.Value

/-- What a JSON Schema names by `type`. -/
inductive Kind where
  | string
  | integer
  | number
  | boolean
  | array
  | object
  | null
  deriving DecidableEq

/-- A number without a fraction, which JSON Schema has for an integer. -/
def integral : PyFloat → Bool
  | .finite d => d.digits == [] || decide ((d.digits.length : Int) ≤ d.point)
  | _ => false

def ofKind : Kind → Json → Bool
  | .string, .str _ => true
  | .integer, .int _ => true
  | .integer, .float f => integral f
  | .number, .int _ => true
  | .number, .float _ => true
  | .boolean, .bool _ => true
  | .array, .list _ => true
  | .object, .dict _ => true
  | .null, .null => true
  | _, _ => false

/-- A kind is among others, or an integer among numbers. -/
def Covered (kinds : List Kind) (kind : Kind) : Prop := kind ∈ kinds ∨ kind = .integer ∧ .number ∈ kinds

/-- A type expression: `X`, `X[A, B]` or `A | B`. -/
inductive TypeExpr where
  | name (text : Str)
  | generic (head : Str) (first : TypeExpr) (others : List TypeExpr)
  | union (first : TypeExpr) (others : List TypeExpr)

/-- What a name says of the JSON of its values; of a class that is not known, nothing. A `bool` is not
counted as an `int`. -/
def kindOfName (text : Str) : Option Kind :=
  if text = lit "str" then some .string
  else if text = lit "int" then some .integer
  else if text = lit "float" then some .number
  else if text = lit "bool" then some .boolean
  else if [lit "list", lit "tuple", lit "set", lit "frozenset", lit "List", lit "Tuple", lit "Set", lit "FrozenSet"].contains text then some .array
  else if [lit "dict", lit "Dict"].contains text then some .object
  else if [lit "None", lit "NoneType"].contains text then some .null
  else none

inductive Head where
  | optional
  | union
  | sequence
  | tuple
  | mapping
  | other
  deriving DecidableEq

def headOf (text : Str) : Head :=
  if text = lit "Optional" then .optional
  else if text = lit "Union" then .union
  else if [lit "list", lit "set", lit "frozenset", lit "List", lit "Set", lit "FrozenSet"].contains text then .sequence
  else if [lit "tuple", lit "Tuple"].contains text then .tuple
  else if [lit "dict", lit "Dict"].contains text then .mapping
  else .other

/-- The `...` of `tuple[X, ...]`. -/
def isEllipsis : TypeExpr → Bool
  | .name text => text == lit "..."
  | _ => false

mutual

/-- The JSON values that represent what a type expression admits. -/
def Admits : TypeExpr → Json → Prop
  | .name text, json =>
      match kindOfName text with
      | some kind => ofKind kind json = true
      | none => True
  | .generic head first others, json =>
      match headOf head with
      | .optional => json = .null ∨ Admits first json
      | .union => Admits first json ∨ AdmitsSome others json
      | .sequence => ∃ items, json = .list items ∧ ∀ item ∈ items, Admits first item
      | .tuple =>
          if others.map isEllipsis = [true] then ∃ items, json = .list items ∧ ∀ item ∈ items, Admits first item
          else ∃ item items, json = .list (item :: items) ∧ Admits first item ∧ AdmitsEach others items
      | .mapping => ∃ members, json = .dict members ∧ ∀ member ∈ members, AdmitsHead others member.2
      | .other => True
  | .union first others, json => Admits first json ∨ AdmitsSome others json

def AdmitsSome : List TypeExpr → Json → Prop
  | [], _ => False
  | expr :: rest, json => Admits expr json ∨ AdmitsSome rest json

def AdmitsEach : List TypeExpr → List Json → Prop
  | [], items => items = []
  | expr :: rest, items => ∃ item more, items = item :: more ∧ Admits expr item ∧ AdmitsEach rest more

/-- What the values of a `dict[K, V]` admit. -/
def AdmitsHead : List TypeExpr → Json → Prop
  | [], _ => True
  | expr :: _, json => Admits expr json

end

def allKinds : List Kind := [.string, .integer, .number, .boolean, .array, .object, .null]

mutual

/-- The kinds of the values that a type expression admits. -/
def kinds : TypeExpr → List Kind
  | .name text =>
      match kindOfName text with
      | some kind => [kind]
      | none => allKinds
  | .generic head first others =>
      match headOf head with
      | .optional => .null :: kinds first
      | .union => kinds first ++ kindsOfAll others
      | .sequence => [.array]
      | .tuple => [.array]
      | .mapping => [.object]
      | .other => allKinds
  | .union first others => kinds first ++ kindsOfAll others

def kindsOfAll : List TypeExpr → List Kind
  | [] => []
  | expr :: rest => kinds expr ++ kindsOfAll rest

end

/-! ## Spelling -/

mutual

/-- The text of a type expression, without blanks. -/
def spell : TypeExpr → Str
  | .name text => text
  | .generic head first others => head ++ lit "[" ++ spell first ++ spellRest (lit ",") others ++ lit "]"
  | .union first others => spell first ++ spellRest (lit "|") others

def spellRest (separator : Str) : List TypeExpr → Str
  | [] => []
  | expr :: rest => separator ++ spell expr ++ spellRest separator rest

end

/-- The blanks that `str.strip` removes. -/
def isSpace (c : Nat) : Bool :=
  (9 ≤ c && c ≤ 13) || (28 ≤ c && c ≤ 32) || c == 0x85 || c == 0xA0 || c == 0x1680 || (0x2000 ≤ c && c ≤ 0x200A) ||
    c == 0x2028 || c == 0x2029 || c == 0x202F || c == 0x205F || c == 0x3000

def isQuote (c : Nat) : Bool := c == 0x27 || c == 0x22

/-- The characters of a name: none that spells an expression. -/
def isPlain (c : Nat) : Bool := !isSpace c && !isQuote c && c != 0x5B && c != 0x5D && c != 0x2C && c != 0x7C

mutual

def Plain : TypeExpr → Prop
  | .name text => text.all isPlain = true
  | .generic head first others => head.all isPlain = true ∧ Plain first ∧ PlainAll others
  | .union first others => Plain first ∧ PlainAll others

def PlainAll : List TypeExpr → Prop
  | [] => True
  | expr :: rest => Plain expr ∧ PlainAll rest

end

/-- A string that spells a type expression, with blanks and quotes anywhere. -/
structure StringHint where
  text : Str
  meaning : TypeExpr
  plain : Plain meaning
  spelled : text.filter (fun c => !isSpace c && !isQuote c) = spell meaning

/-! ## The kinds are those of the values -/

theorem covered_of_mem {among : List Kind} {kind : Kind} (member : kind ∈ among) : Covered among kind := .inl member

/-- A value of a kind that is covered is of a kind among those. -/
theorem ofKind_of_covered {among : List Kind} {kind : Kind} {json : Json} (covered : Covered among kind) (here : ofKind kind json = true) :
    ∃ other ∈ among, ofKind other json = true := by
  apply covered.elim
  · intro member
    exact ⟨kind, member, here⟩
  · intro number
    refine ⟨.number, number.2, ?_⟩
    rw [number.1] at here
    cases json <;> first | rfl | cases here

theorem ofKind_some (json : Json) : ∃ kind ∈ allKinds, ofKind kind json = true := by
  cases json with
  | null => exact ⟨.null, by decide, rfl⟩
  | bool b => exact ⟨.boolean, by decide, rfl⟩
  | int n => exact ⟨.integer, by decide, rfl⟩
  | float f => exact ⟨.number, by decide, rfl⟩
  | str s => exact ⟨.string, by decide, rfl⟩
  | list items => exact ⟨.array, by decide, rfl⟩
  | dict members => exact ⟨.object, by decide, rfl⟩

/-- A value of a kind, and of no other kind than one that covers it. -/
def Purely (kind : Kind) (json : Json) : Prop :=
  ofKind kind json = true ∧ ∀ among, (∃ other ∈ among, ofKind other json = true) → Covered among kind

theorem purely_of_only {kind : Kind} {json : Json} (here : ofKind kind json = true)
    (only : ∀ other, ofKind other json = true → other = kind ∨ kind = .integer ∧ other = .number) : Purely kind json := by
  refine ⟨here, ?_⟩
  intro among found
  obtain ⟨other, member, same⟩ := found
  apply (only other same).elim
  · intro equal
    exact .inl (equal ▸ member)
  · intro number
    exact .inr ⟨number.1, number.2 ▸ member⟩

theorem purely_list (items : List Json) : Purely .array (.list items) := by
  apply purely_of_only rfl
  intro other same
  cases other <;> first | exact .inl rfl | cases same

theorem purely_dict (members : Dict) : Purely .object (.dict members) := by
  apply purely_of_only rfl
  intro other same
  cases other <;> first | exact .inl rfl | cases same

theorem purely_null : Purely .null .null := by
  apply purely_of_only rfl
  intro other same
  cases other <;> first | exact .inl rfl | cases same

/-- One half. -/
def half : Text.Decimal.Dec := ⟨false, [5], 0, by decide, by decide, by decide, by decide⟩

/-- Every kind has a value of its own. -/
theorem exists_purely (kind : Kind) : ∃ json, Purely kind json := by
  cases kind with
  | array => exact ⟨_, purely_list []⟩
  | object => exact ⟨_, purely_dict []⟩
  | null => exact ⟨_, purely_null⟩
  | string =>
    refine ⟨.str [], purely_of_only rfl ?_⟩
    intro other same
    cases other <;> first | exact .inl rfl | cases same
  | integer =>
    refine ⟨.int 0, purely_of_only rfl ?_⟩
    intro other same
    cases other <;> first | exact .inl rfl | exact .inr ⟨rfl, rfl⟩ | cases same
  | number =>
    refine ⟨.float (.finite half), purely_of_only rfl ?_⟩
    intro other same
    cases other <;> first | exact .inl rfl | cases same
  | boolean =>
    refine ⟨.bool true, purely_of_only rfl ?_⟩
    intro other same
    cases other <;> first | exact .inl rfl | cases same

/-! ## The kinds are those of the values -/

theorem kind_of_union {first second : Prop} {left right : List Kind} {json : Json} (here : first → ∃ kind ∈ left, ofKind kind json = true)
    (later : second → ∃ kind ∈ right, ofKind kind json = true) (admitted : first ∨ second) :
    ∃ kind ∈ left ++ right, ofKind kind json = true := by
  apply admitted.elim
  · intro one
    obtain ⟨kind, member, found⟩ := here one
    exact ⟨kind, List.mem_append_left _ member, found⟩
  · intro other
    obtain ⟨kind, member, found⟩ := later other
    exact ⟨kind, List.mem_append_right _ member, found⟩

mutual

/-- What is admitted is of one of the kinds. -/
theorem kind_of_admits : (expr : TypeExpr) → ∀ json, Admits expr json → ∃ kind ∈ kinds expr, ofKind kind json = true
  | .name text => by
      intro json admitted
      rw [Admits] at admitted
      rw [kinds]
      cases named : kindOfName text with
      | none => exact ofKind_some json
      | some kind =>
        rw [named] at admitted
        exact ⟨kind, List.mem_singleton_self kind, admitted⟩
  | .generic head first others => by
      intro json admitted
      rw [Admits] at admitted
      rw [kinds]
      cases headed : headOf head with
      | optional =>
        rw [headed] at admitted
        apply admitted.elim
        · intro null
          exact ⟨.null, List.mem_cons_self, null ▸ rfl⟩
        · intro inner
          obtain ⟨kind, member, here⟩ := kind_of_admits first json inner
          exact ⟨kind, List.mem_cons_of_mem _ member, here⟩
      | union =>
        rw [headed] at admitted
        exact kind_of_union (kind_of_admits first json) (kind_of_some others json) admitted
      | sequence =>
        rw [headed] at admitted
        obtain ⟨items, same, _⟩ := admitted
        exact ⟨.array, List.mem_singleton_self _, same ▸ rfl⟩
      | tuple =>
        rw [headed] at admitted
        simp only [] at admitted
        split_ifs at admitted
        · obtain ⟨items, same, _⟩ := admitted
          exact ⟨.array, List.mem_singleton_self _, same ▸ rfl⟩
        · obtain ⟨item, items, same, _⟩ := admitted
          exact ⟨.array, List.mem_singleton_self _, same ▸ rfl⟩
      | mapping =>
        rw [headed] at admitted
        obtain ⟨members, same, _⟩ := admitted
        exact ⟨.object, List.mem_singleton_self _, same ▸ rfl⟩
      | other => exact ofKind_some json
  | .union first others => by
      intro json admitted
      rw [Admits] at admitted
      rw [kinds]
      exact kind_of_union (kind_of_admits first json) (kind_of_some others json) admitted

theorem kind_of_some : (others : List TypeExpr) → ∀ json, AdmitsSome others json → ∃ kind ∈ kindsOfAll others, ofKind kind json = true
  | [] => by
      intro json admitted
      cases admitted
  | expr :: rest => by
      intro json admitted
      rw [AdmitsSome] at admitted
      rw [kindsOfAll]
      exact kind_of_union (kind_of_admits expr json) (kind_of_some rest json) admitted

end

/-- Kinds that an expression admits a value of, which is of no other. -/
def Reached (admits : Json → Prop) (kinds : List Kind) : Prop := ∀ kind ∈ kinds, ∃ json, admits json ∧ Purely kind json

theorem Reached.mono {first second : Json → Prop} {kinds : List Kind} (reached : Reached first kinds)
    (within : ∀ json, first json → second json) : Reached second kinds := by
  intro kind member
  obtain ⟨json, admitted, own⟩ := reached kind member
  exact ⟨json, within json admitted, own⟩

theorem Reached.append {admits : Json → Prop} {left right : List Kind} (first : Reached admits left) (second : Reached admits right) :
    Reached admits (left ++ right) := by
  intro kind member
  exact (List.mem_append.mp member).elim (first kind) (second kind)

theorem Reached.union {first second : Json → Prop} {left right : List Kind} (here : Reached first left) (later : Reached second right) :
    Reached (fun json => first json ∨ second json) (left ++ right) :=
  (here.mono (fun _ admitted => .inl admitted)).append (later.mono (fun _ admitted => .inr admitted))

theorem reached_all {kinds : List Kind} : Reached (fun _ => True) kinds := by
  intro kind _
  obtain ⟨json, own⟩ := exists_purely kind
  exact ⟨json, trivial, own⟩

theorem exists_of_reached {admits : Json → Prop} {kinds : List Kind} (reached : kinds ≠ [] ∧ Reached admits kinds) : ∃ json, admits json := by
  obtain ⟨kind, rest, shape⟩ := List.exists_cons_of_ne_nil reached.1
  obtain ⟨json, admitted, _⟩ := reached.2 kind (shape ▸ List.mem_cons_self)
  exact ⟨json, admitted⟩

mutual

/-- Each of the kinds is that of a value that is admitted. -/
theorem reached_of_admits : (expr : TypeExpr) → kinds expr ≠ [] ∧ Reached (Admits expr) (kinds expr)
  | .name text => by
      cases named : kindOfName text with
      | none =>
        have every : ∀ json, True → Admits (.name text) json := by
          intro json _
          rw [Admits, named]
          trivial
        rw [kinds, named]
        exact ⟨by decide, reached_all.mono every⟩
      | some kind =>
        rw [kinds, named]
        refine ⟨List.cons_ne_nil _ _, ?_⟩
        intro other member
        rw [List.mem_singleton.mp member]
        obtain ⟨json, own⟩ := exists_purely kind
        refine ⟨json, ?_, own⟩
        rw [Admits, named]
        exact own.1
  | .generic head first others => by
      have inner := reached_of_admits first
      cases headed : headOf head with
      | optional =>
        rw [kinds, headed]
        refine ⟨List.cons_ne_nil _ _, ?_⟩
        have within : ∀ json, json = .null ∨ Admits first json → Admits (.generic head first others) json := by
          intro json admitted
          rw [Admits, headed]
          exact admitted
        intro kind member
        apply (List.mem_cons.mp member).elim
        · intro same
          exact ⟨.null, within _ (.inl rfl), same ▸ purely_null⟩
        · intro later
          exact (inner.2.mono (fun json admitted => within json (.inr admitted))) kind later
      | union =>
        rw [kinds, headed]
        have within : ∀ json, Admits first json ∨ AdmitsSome others json → Admits (.generic head first others) json := by
          intro json admitted
          rw [Admits, headed]
          exact admitted
        exact ⟨List.append_ne_nil_of_left_ne_nil inner.1 _, ((reached_of_admits first).2.union (reached_of_some others)).mono within⟩
      | sequence =>
        rw [kinds, headed]
        refine ⟨List.cons_ne_nil _ _, ?_⟩
        intro kind member
        rw [List.mem_singleton.mp member]
        refine ⟨.list [], ?_, purely_list []⟩
        rw [Admits, headed]
        exact ⟨[], rfl, List.forall_mem_nil _⟩
      | tuple =>
        rw [kinds, headed]
        refine ⟨List.cons_ne_nil _ _, ?_⟩
        intro kind member
        rw [List.mem_singleton.mp member]
        obtain ⟨item, admitted⟩ := exists_of_reached inner
        obtain ⟨items, each⟩ := exists_each others
        by_cases variadic : others.map isEllipsis = [true]
        · refine ⟨.list [], ?_, purely_list []⟩
          rw [Admits, headed]
          exact (if_pos variadic).mpr ⟨[], rfl, List.forall_mem_nil _⟩
        · refine ⟨.list (item :: items), ?_, purely_list _⟩
          rw [Admits, headed]
          exact (if_neg variadic).mpr ⟨item, items, rfl, admitted, each⟩
      | mapping =>
        rw [kinds, headed]
        refine ⟨List.cons_ne_nil _ _, ?_⟩
        intro kind member
        rw [List.mem_singleton.mp member]
        refine ⟨.dict [], ?_, purely_dict []⟩
        rw [Admits, headed]
        exact ⟨[], rfl, List.forall_mem_nil _⟩
      | other =>
        rw [kinds, headed]
        have every : ∀ json, True → Admits (.generic head first others) json := by
          intro json _
          rw [Admits, headed]
          trivial
        exact ⟨List.cons_ne_nil _ _, reached_all.mono every⟩
  | .union first others => by
      have within : ∀ json, Admits first json ∨ AdmitsSome others json → Admits (.union first others) json := by
        intro json admitted
        rw [Admits]
        exact admitted
      rw [kinds]
      exact ⟨List.append_ne_nil_of_left_ne_nil (reached_of_admits first).1 _, ((reached_of_admits first).2.union (reached_of_some others)).mono within⟩

theorem reached_of_some : (others : List TypeExpr) → Reached (AdmitsSome others) (kindsOfAll others)
  | [] => by
      intro kind member
      cases member
  | expr :: rest => by
      have within : ∀ json, Admits expr json ∨ AdmitsSome rest json → AdmitsSome (expr :: rest) json := by
        intro json admitted
        rw [AdmitsSome]
        exact admitted
      rw [kindsOfAll]
      exact ((reached_of_admits expr).2.union (reached_of_some rest)).mono within

theorem exists_each : (others : List TypeExpr) → ∃ items, AdmitsEach others items
  | [] => ⟨[], rfl⟩
  | expr :: rest => by
      obtain ⟨item, admitted⟩ := exists_of_reached (reached_of_admits expr)
      obtain ⟨items, each⟩ := exists_each rest
      refine ⟨item :: items, ?_⟩
      rw [AdmitsEach]
      exact ⟨item, items, rfl, admitted, each⟩

end

/-- Where all kinds of what is admitted are covered, and only there, each value is of one among those. -/
theorem covered_iff {expr : TypeExpr} {among : List Kind} : (∀ kind ∈ kinds expr, Covered among kind) ↔
    ∀ json, Admits expr json → ∃ kind ∈ among, ofKind kind json = true := by
  constructor
  · intro covered json admitted
    obtain ⟨kind, member, here⟩ := kind_of_admits expr json admitted
    exact ofKind_of_covered (covered kind member) here
  · intro every kind member
    obtain ⟨json, admitted, own⟩ := (reached_of_admits expr).2 kind member
    exact own.2 among (every json admitted)

theorem exists_admits (expr : TypeExpr) : ∃ json, Admits expr json := exists_of_reached (reached_of_admits expr)

end Tesera.Schemas.TypeText
