import Tesera.Schemas.TypeText

/-!
`schemas.py`: the JSON Schema of an annotation, and where it is as wide as the annotation. A schema is a
`dict` of a few shapes, which are the constructors here.
-/

namespace Tesera.Schemas.Width
open Tesera.Text.Unicode Tesera.Python.Value Tesera.Schemas.TypeText

/-- A JSON Schema of the module: `{}`, `{"type": …}`, `{"anyOf": […]}`, an array with `items` or an object
with `properties` and `required`. -/
inductive Schema where
  | empty
  | type (kind : Kind)
  | anyOf (options : List Schema)
  | array (items : Schema)
  | object (properties : List (Str × Schema)) (required : List Str)

/-- The truth of a schema: whether its `dict` has a key. -/
def Schema.constrains : Schema → Bool
  | .empty => false
  | _ => true

/-- `schema == {"type": "null"}`. -/
def Schema.isNull : Schema → Bool
  | .type .null => true
  | _ => false

mutual

/-- What validates against a schema. -/
def Validates : Schema → Json → Prop
  | .empty, _ => True
  | .type kind, json => ofKind kind json = true
  | .anyOf options, json => ValidatesSome options json
  | .array items, json => ∃ values, json = .list values ∧ ∀ value ∈ values, Validates items value
  | .object properties required, json =>
      ∃ members, json = .dict members ∧ ValidatesAll properties members ∧ ∀ name ∈ required, name ∈ members.map Prod.fst

def ValidatesSome : List Schema → Json → Prop
  | [], _ => False
  | schema :: rest, json => Validates schema json ∨ ValidatesSome rest json

def ValidatesAll : List (Str × Schema) → Dict → Prop
  | [], _ => True
  | (name, schema) :: rest, members =>
      (∀ member ∈ members, member.1 = name → Validates schema member.2) ∧ ValidatesAll rest members

end

/-! ## Annotations -/

/-- The types of `_SIMPLE_TYPES`. -/
inductive SimpleType where
  | str
  | int
  | float
  | bool
  | list
  | dict

def simpleTypes : SimpleType → Kind
  | .str => .string
  | .int => .integer
  | .float => .number
  | .bool => .boolean
  | .list => .array
  | .dict => .object

/-- An annotation. A `list[X]`, `set[X]`, `frozenset[X]` or `tuple[X, ...]` is a sequence, of any items where
it has no argument; `tuple[X, Y]` is a tuple. A dataclass has the annotations of its fields, resolved where
they can be. A string within a generic of `typing` is a forward reference. -/
inductive Hint where
  | text (string : StringHint)
  | simple (type : SimpleType)
  | none
  | union (options : List Hint)
  | sequence (item : Option Hint)
  | tuple (items : List Hint)
  | mapping (value : Option Hint)
  | dataclass (fields : List (Str × Hint)) (hasDefault : Str → Bool)
  | collection
  | unknown
  | forward (string : StringHint)

def Hint.isNone : Hint → Bool
  | .none => true
  | _ => false

/-- The names of the fields without a default. -/
def requiredNames (fields : List (Str × Hint)) (hasDefault : Str → Bool) : List Str :=
  (fields.map Prod.fst).filter (fun name => !hasDefault name)

mutual

/-- The JSON values that represent what an annotation admits: tuples and sets as arrays, dataclasses as
objects, from which a field with a default may be left out, and an unknown class in any way. -/
def Represents : Hint → Json → Prop
  | .text string, json => Admits string.meaning json
  | .simple type, json => ofKind (simpleTypes type) json = true
  | .none, json => json = .null
  | .union options, json => RepresentsSome options json
  | .sequence item, json => ∃ values, json = .list values ∧ ∀ value ∈ values, RepresentsItem item value
  | .tuple items, json => ∃ values, json = .list values ∧ RepresentsEach items values
  | .mapping value, json => ∃ members, json = .dict members ∧ ∀ member ∈ members, RepresentsItem value member.2
  | .dataclass fields hasDefault, json =>
      ∃ members, json = .dict members ∧ (∀ member ∈ members, member.1 ∈ fields.map Prod.fst) ∧
        RepresentsFields fields members ∧ ∀ name ∈ requiredNames fields hasDefault, name ∈ members.map Prod.fst
  | .collection, json => ofKind .array json = true
  | .unknown, _ => True
  | .forward string, json => Admits string.meaning json

def RepresentsItem : Option Hint → Json → Prop
  | none, _ => True
  | some item, json => Represents item json

def RepresentsSome : List Hint → Json → Prop
  | [], _ => False
  | option :: rest, json => Represents option json ∨ RepresentsSome rest json

def RepresentsEach : List Hint → List Json → Prop
  | [], values => values = []
  | item :: rest, values => ∃ value more, values = value :: more ∧ Represents item value ∧ RepresentsEach rest more

def RepresentsFields : List (Str × Hint) → Dict → Prop
  | [], _ => True
  | (name, hint) :: rest, members =>
      (∀ member ∈ members, member.1 = name → Represents hint member.2) ∧ RepresentsFields rest members

end

/-! ## The schema of an annotation -/

/-- `_NAME_TYPES`. -/
def nameTypes (text : Str) : Option Kind :=
  if text = lit "str" then some .string
  else if text = lit "int" then some .integer
  else if text = lit "float" then some .number
  else if text = lit "bool" then some .boolean
  else if text = lit "list" then some .array
  else if text = lit "dict" then some .object
  else if text = lit "None" ∨ text = lit "NoneType" then some .null
  else none

def strip (text : Str) : Str := (text.dropWhile isSpace).rdropWhile isSpace

def stripQuotes (text : Str) : Str := (text.dropWhile isQuote).rdropWhile isQuote

/-- `_with_null`. -/
def withNull : Schema → Schema
  | .empty => .empty
  | .type .null => .type .null
  | schema => .anyOf [schema, .type .null]

/-- What both functions return of the options that are left. -/
def combined (options : List Schema) (nullable : Bool) : Schema :=
  match options with
  | [] => if nullable then .type .null else .empty
  | [option] => if nullable then withNull option else option
  | options => .anyOf (if nullable then options ++ [.type .null] else options)

theorem length_strip_le (text : Str) : (stripQuotes (strip text)).length ≤ text.length := by
  have both : ∀ (p : Nat → Bool) (text : Str), ((text.dropWhile p).rdropWhile p).length ≤ text.length := by
    intro p text
    exact (List.rdropWhile_prefix p _).length_le.trans (List.dropWhile_suffix p).length_le
  exact (both _ _).trans (both _ _)

theorem length_splitOn_le {text piece : Str} {c : Nat} (member : piece ∈ text.splitOn c) : piece.length ≤ text.length := by
  by_cases split : c ∈ text
  · obtain ⟨first, rest, same, absent⟩ := List.eq_append_cons_of_mem split
    rw [same, List.splitOn_append_cons_self_of_not_mem absent] at member
    have shorter : rest.length < text.length := by
      rw [same, List.length_append, List.length_cons]
      omega
    apply (List.mem_cons.mp member).elim
    · intro here
      rw [here, same, List.length_append]
      omega
    · intro later
      exact (length_splitOn_le later).trans shorter.le
  · rw [List.splitOn_eq_singleton split] at member
    rw [List.mem_singleton.mp member]
termination_by text.length

/-- A piece of a text that is split is shorter. -/
theorem length_splitOn_lt {text piece : Str} {c : Nat} (member : piece ∈ text.splitOn c) (split : c ∈ text) :
    piece.length < text.length := by
  obtain ⟨first, rest, same⟩ := List.append_of_mem split
  rw [same, List.splitOn_append_cons_self] at member
  rw [same, List.length_append, List.length_cons]
  apply (List.mem_append.mp member).elim
  · intro before
    have short := length_splitOn_le before
    omega
  · intro after
    have short := length_splitOn_le after
    omega

/-- What stands within the brackets of `Optional[…]`. -/
def inside (text : Str) : Str := (text.drop 9).dropLast

theorem length_inside_lt {text : Str} (bracketed : lit "Optional[" <+: text) : (inside text).length < text.length := by
  have long := bracketed.length_le
  have nine : (lit "Optional[").length = 9 := by decide
  rw [inside, List.length_dropLast, List.length_drop]
  omega

/-- `_schema_for_name`. -/
def schemaForName (name : Str) : Schema :=
  let text := stripQuotes (strip name)
  match nameTypes text with
  | some kind => .type kind
  | none =>
      if optional : lit "Optional[" <+: text ∧ lit "]" <:+ text then withNull (schemaForName (inside text))
      else if _split : 0x7C ∈ text then
        let parts := (text.splitOn 0x7C).attach.map (fun part => schemaForName part.1)
        let nonNull := parts.filter (fun schema => schema.constrains && !schema.isNull)
        combined nonNull (nonNull.length != (parts.filter Schema.constrains).length)
      else if lit "list[" <+: text ∨ lit "tuple[" <+: text then .type .array
      else if lit "dict[" <+: text then .type .object
      else .empty
termination_by name.length
decreasing_by
  · exact (length_inside_lt optional.1).trans_le (length_strip_le name)
  · exact (length_splitOn_lt part.2 _split).trans_le (length_strip_le name)

mutual

/-- `_schema_for`. -/
def schemaFor : Hint → Schema
  | .text string => schemaForName string.text
  | .simple type => .type (simpleTypes type)
  | .none => .type .null
  | .union options => combined ((optionSchemas options).filter Schema.constrains) (options.any Hint.isNone)
  | .sequence item => .array (itemSchema item)
  | .tuple items => .array (headSchema items)
  | .mapping _ => .type .object
  | .dataclass fields hasDefault => .object (fieldSchemas fields) (requiredNames fields hasDefault)
  | .collection => .empty
  | .unknown => .empty
  | .forward _ => .empty

/-- The schemas of the options that are not `None`. -/
def optionSchemas : List Hint → List Schema
  | [] => []
  | option :: rest => if option.isNone then optionSchemas rest else schemaFor option :: optionSchemas rest

def itemSchema : Option Hint → Schema
  | none => .empty
  | some item => schemaFor item

/-- `_schema_for(args[0]) if args else {}`. -/
def headSchema : List Hint → Schema
  | [] => .empty
  | item :: _ => schemaFor item

def fieldSchemas : List (Str × Hint) → List (Str × Schema)
  | [] => []
  | (name, hint) :: rest => (name, schemaFor hint) :: fieldSchemas rest

end

/-! ## Where a schema is as wide as the annotation -/

/-- `null` beside the kinds, if any. -/
def nullBeside (kinds : List Kind) : List Kind := if kinds = [] then [] else .null :: kinds

/-- The kinds that a string names, cut at every bar: those of the pieces. -/
def named (name : Str) : List Kind :=
  let text := stripQuotes (strip name)
  match nameTypes text with
  | some kind => [kind]
  | none =>
      if optional : lit "Optional[" <+: text ∧ lit "]" <:+ text then
        nullBeside (named (inside text))
      else if _split : 0x7C ∈ text then (text.splitOn 0x7C).attach.flatMap (fun part => named part.1)
      else if lit "list[" <+: text ∨ lit "tuple[" <+: text then [.array]
      else if lit "dict[" <+: text then [.object]
      else []
termination_by name.length
decreasing_by
  · exact (length_inside_lt optional.1).trans_le (length_strip_le name)
  · exact (length_splitOn_lt part.2 _split).trans_le (length_strip_le name)

mutual

/-- An annotation of which nothing is known that a schema can say. -/
def shapeless : Hint → Bool
  | .text string => named string.text == []
  | .union options => shapelessAll options
  | .collection => true
  | .unknown => true
  | .forward _ => true
  | _ => false

def shapelessAll : List Hint → Bool
  | [] => true
  | option :: rest => shapeless option && shapelessAll rest

end

mutual

/-- A value has the shape of an annotation: its kind, that of the items and that of the fields. Of the
options of a union those without a shape are left out, and of a tuple the first says it for all. -/
def Shaped : Hint → Json → Prop
  | .text string, json => named string.text = [] ∨ ∃ kind ∈ named string.text, ofKind kind json = true
  | .simple type, json => ofKind (simpleTypes type) json = true
  | .none, json => json = .null
  | .union options, json => shapelessAll options = true ∨ ShapedSome options json
  | .sequence item, json => ∃ values, json = .list values ∧ ∀ value ∈ values, ShapedItem item value
  | .tuple items, json => ∃ values, json = .list values ∧ ∀ value ∈ values, ShapedHead items value
  | .mapping _, json => ofKind .object json = true
  | .dataclass fields hasDefault, json =>
      ∃ members, json = .dict members ∧ ShapedFields fields members ∧
        ∀ name ∈ requiredNames fields hasDefault, name ∈ members.map Prod.fst
  | .collection, _ => True
  | .unknown, _ => True
  | .forward _, _ => True

def ShapedItem : Option Hint → Json → Prop
  | none, _ => True
  | some item, json => Shaped item json

def ShapedHead : List Hint → Json → Prop
  | [], _ => True
  | item :: _, json => Shaped item json

/-- A value has the shape of one of the options that have a shape. -/
def ShapedSome : List Hint → Json → Prop
  | [], _ => False
  | option :: rest, json => (shapeless option = false ∧ Shaped option json) ∨ ShapedSome rest json

def ShapedFields : List (Str × Hint) → Dict → Prop
  | [], _ => True
  | (name, hint) :: rest, members =>
      (∀ member ∈ members, member.1 = name → Shaped hint member.2) ∧ ShapedFields rest members

end

/-- The annotations within an annotation. -/
def children : Hint → List Hint
  | .union options => options
  | .sequence item => item.toList
  | .tuple items => items
  | .mapping value => value.toList
  | .dataclass fields _ => fields.map Prod.snd
  | _ => []

/-- Those that `_schema_for` goes on to. -/
def visited : Hint → List Hint
  | .tuple items => items.take 1
  | .mapping _ => []
  | hint => children hint

/-- A union has an option, and the fields of a dataclass have different names. -/
def Formed : Hint → Prop
  | .union options => options ≠ []
  | .dataclass fields _ => (fields.map Prod.fst).Nodup
  | _ => True

def WellFormed (hint : Hint) : Prop :=
  ∀ part, Relation.ReflTransGen (fun whole child => child ∈ children whole) hint part → Formed part

/-- An annotation, or one that is visited on the way. -/
def Described : Hint → Hint → Prop := Relation.ReflTransGen (fun whole child => child ∈ visited whole)

/-- The schema of an annotation accepts what represents the values that are admitted. -/
def NeverNarrower (hint : Hint) : Prop := ∀ json, Represents hint json → Validates (schemaFor hint) json

/-- Nothing is lost at an annotation itself. -/
def Kept : Hint → Prop
  | .text string => named string.text = [] ∨ ∀ kind ∈ kinds string.meaning, Covered (named string.text) kind
  | .union options => shapelessAll options = true ∨
      ∀ option ∈ options, shapeless option = true → ∀ json, Represents option json → ShapedSome options json
  | .tuple (item :: items) => ∀ other ∈ items, ∀ json, Represents other json → Shaped item json
  | _ => True

/-! ## The lists -/

theorem validatesSome_iff {options : List Schema} {json : Json} : ValidatesSome options json ↔ ∃ option ∈ options, Validates option json := by
  induction options with
  | nil => simp [ValidatesSome]
  | cons option rest ih => rw [ValidatesSome, ih, List.exists_mem_cons_iff]

theorem validatesAll_iff {properties : List (Str × Schema)} {members : Dict} : ValidatesAll properties members ↔
    ∀ property ∈ properties, ∀ member ∈ members, member.1 = property.1 → Validates property.2 member.2 := by
  induction properties with
  | nil => simp [ValidatesAll]
  | cons property rest ih => rw [ValidatesAll, ih, List.forall_mem_cons]

theorem representsSome_iff {options : List Hint} {json : Json} :
    RepresentsSome options json ↔ ∃ option ∈ options, Represents option json := by
  induction options with
  | nil => simp [RepresentsSome]
  | cons option rest ih => rw [RepresentsSome, ih, List.exists_mem_cons_iff]

theorem representsFields_iff {fields : List (Str × Hint)} {members : Dict} : RepresentsFields fields members ↔
    ∀ field ∈ fields, ∀ member ∈ members, member.1 = field.1 → Represents field.2 member.2 := by
  induction fields with
  | nil => simp [RepresentsFields]
  | cons field rest ih => rw [RepresentsFields, ih, List.forall_mem_cons]

theorem shapelessAll_iff {options : List Hint} : shapelessAll options = true ↔ ∀ option ∈ options, shapeless option = true := by
  induction options with
  | nil => simp [shapelessAll]
  | cons option rest ih => rw [shapelessAll, Bool.and_eq_true, ih, List.forall_mem_cons]

theorem shapedSome_iff {options : List Hint} {json : Json} :
    ShapedSome options json ↔ ∃ option ∈ options, shapeless option = false ∧ Shaped option json := by
  induction options with
  | nil => simp [ShapedSome]
  | cons option rest ih => rw [ShapedSome, ih, List.exists_mem_cons_iff]

theorem shapedFields_iff {fields : List (Str × Hint)} {members : Dict} : ShapedFields fields members ↔
    ∀ field ∈ fields, ∀ member ∈ members, member.1 = field.1 → Shaped field.2 member.2 := by
  induction fields with
  | nil => simp [ShapedFields]
  | cons field rest ih => rw [ShapedFields, ih, List.forall_mem_cons]

theorem mem_optionSchemas {options : List Hint} {schema : Schema} :
    schema ∈ optionSchemas options ↔ ∃ option ∈ options, option.isNone = false ∧ schemaFor option = schema := by
  induction options with
  | nil => simp [optionSchemas]
  | cons option rest ih =>
    rw [optionSchemas, List.exists_mem_cons_iff, ← ih]
    by_cases null : option.isNone = true
    · simp [null]
    · simp [null, eq_comm]

theorem fieldSchemas_eq (fields : List (Str × Hint)) : fieldSchemas fields = fields.map (fun field => (field.1, schemaFor field.2)) := by
  induction fields with
  | nil => rfl
  | cons field rest ih => rw [fieldSchemas, ih, List.map_cons]

theorem isNone_eq {hint : Hint} (null : hint.isNone = true) : hint = .none := by
  cases hint <;> first | rfl | cases null

/-! ## What is combined -/

theorem validates_null {json : Json} : Validates (.type .null) json ↔ json = .null := by
  rw [Validates]
  cases json <;> simp [ofKind]

theorem isNull_eq {schema : Schema} (null : schema.isNull = true) : schema = .type .null := by
  cases schema with
  | type kind => cases kind <;> first | rfl | cases null
  | empty => cases null
  | anyOf options => cases null
  | array items => cases null
  | object properties required => cases null

theorem withNull_eq {schema : Schema} (constrains : schema.constrains = true) (other : schema.isNull = false) :
    withNull schema = .anyOf [schema, .type .null] := by
  cases schema with
  | type kind => cases kind <;> first | rfl | cases other
  | empty => cases constrains
  | anyOf options => rfl
  | array items => rfl
  | object properties required => rfl

theorem validates_withNull {schema : Schema} (constrains : schema.constrains = true) {json : Json} :
    Validates (withNull schema) json ↔ Validates schema json ∨ json = .null := by
  by_cases null : schema.isNull = true
  · rw [isNull_eq null, withNull, validates_null, or_self]
  · rw [withNull_eq constrains (Bool.eq_false_iff.mpr null), Validates, ValidatesSome, ValidatesSome, ValidatesSome, validates_null, or_false]

theorem constrains_withNull (schema : Schema) : (withNull schema).constrains = schema.constrains := by
  by_cases constrains : schema.constrains = true
  · by_cases null : schema.isNull = true
    · rw [isNull_eq null, withNull]
    · rw [withNull_eq constrains (Bool.eq_false_iff.mpr null), constrains]
      rfl
  · cases schema <;> first | rfl | exact absurd rfl constrains

theorem validatesSome_append {options : List Schema} {schema : Schema} {json : Json} :
    ValidatesSome (options ++ [schema]) json ↔ ValidatesSome options json ∨ Validates schema json := by
  simp only [validatesSome_iff, List.mem_append, List.mem_singleton]
  constructor
  · intro found
    obtain ⟨option, member, valid⟩ := found
    apply member.elim
    · intro inside
      exact .inl ⟨option, inside, valid⟩
    · intro last
      exact .inr (last ▸ valid)
  · intro found
    apply found.elim
    · intro some
      obtain ⟨option, inside, valid⟩ := some
      exact ⟨option, .inl inside, valid⟩
    · intro last
      exact ⟨schema, .inr rfl, last⟩

/-- What validates against the options that are left. -/
theorem validates_combined {options : List Schema} {nullable : Bool} (all : ∀ option ∈ options, option.constrains = true) {json : Json} :
    Validates (combined options nullable) json ↔
      (options = [] ∧ nullable = false) ∨ (nullable = true ∧ json = .null) ∨ ∃ option ∈ options, Validates option json := by
  match options, all with
  | [], _ =>
    cases nullable with
    | true => simpa [combined] using validates_null
    | false => simp [combined, Validates]
  | [option], all =>
    have constrains := all option (List.mem_singleton_self option)
    cases nullable with
    | true => simp [combined, validates_withNull constrains, or_comm]
    | false => simp [combined]
  | first :: second :: rest, _ =>
    cases nullable with
    | true =>
      have shape : combined (first :: second :: rest) true = .anyOf ((first :: second :: rest) ++ [.type .null]) := rfl
      rw [shape, Validates, validatesSome_append, validates_null, validatesSome_iff, or_comm]
      simp
    | false => simp [combined, Validates, validatesSome_iff]

theorem constrains_combined {options : List Schema} {nullable : Bool} (all : ∀ option ∈ options, option.constrains = true) :
    (combined options nullable).constrains = false ↔ options = [] ∧ nullable = false := by
  match options, all with
  | [], _ => cases nullable <;> simp [combined, Schema.constrains]
  | [option], all =>
    have constrains := all option (List.mem_singleton_self option)
    cases nullable <;> simp [combined, constrains_withNull, constrains]
  | first :: second :: rest, _ => cases nullable <;> simp [combined, Schema.constrains]

/-- The pieces of a string are combined as if each stood for itself. -/
theorem combined_pieces (pieces : List Schema) :
    let nonNull := pieces.filter (fun schema => schema.constrains && !schema.isNull)
    let schema := combined nonNull (nonNull.length != (pieces.filter Schema.constrains).length)
    (schema.constrains = false ↔ ∀ piece ∈ pieces, piece.constrains = false) ∧
      ∀ json, Validates schema json ↔
        (∀ piece ∈ pieces, piece.constrains = false) ∨ ∃ piece ∈ pieces, piece.constrains = true ∧ Validates piece json := by
  intro nonNull schema
  have all : ∀ option ∈ nonNull, option.constrains = true := by
    intro option member
    exact (Bool.and_eq_true_iff.mp (List.mem_filter.mp member).2).1
  have constrains_of_null : ∀ {piece : Schema}, piece.isNull = true → piece.constrains = true := by
    intro piece null
    rw [isNull_eq null]
    rfl
  have nullable : (nonNull.length != (pieces.filter Schema.constrains).length) = true ↔ ∃ piece ∈ pieces, piece.isNull = true := by
    have twice : nonNull = (pieces.filter Schema.constrains).filter (fun schema => !schema.isNull) := by
      rw [List.filter_filter]
      apply List.filter_congr
      intro piece _
      exact Bool.and_comm _ _
    rw [bne_iff_ne, Ne, twice, List.length_filter_eq_length_iff]
    push Not
    simp only [List.mem_filter]
    constructor
    · intro found
      obtain ⟨piece, inside, null⟩ := found
      exact ⟨piece, inside.1, by simpa using null⟩
    · intro found
      obtain ⟨piece, inside, null⟩ := found
      exact ⟨piece, ⟨inside, constrains_of_null null⟩, by simpa using null⟩
  -- nothing is left where no piece says anything
  have none : nonNull = [] ∧ (nonNull.length != (pieces.filter Schema.constrains).length) = false ↔
      ∀ piece ∈ pieces, piece.constrains = false := by
    rw [← Bool.not_eq_true, nullable, List.filter_eq_nil_iff]
    constructor
    · intro both piece inside
      by_contra constrains
      apply both.1 piece inside
      rw [Bool.and_eq_true, Bool.not_eq_true']
      refine ⟨Bool.eq_true_of_not_eq_false constrains, ?_⟩
      apply Bool.eq_false_iff.mpr
      intro null
      exact both.2 ⟨piece, inside, null⟩
    · intro free
      constructor
      · intro piece inside kept
        rw [free piece inside, Bool.false_and] at kept
        cases kept
      · intro found
        obtain ⟨piece, inside, null⟩ := found
        have constrains := constrains_of_null null
        rw [free piece inside] at constrains
        cases constrains
  refine ⟨(constrains_combined all).trans none, ?_⟩
  intro json
  rw [validates_combined all, none, nullable]
  apply or_congr_right
  constructor
  · intro found
    apply found.elim
    · intro null
      obtain ⟨⟨piece, inside, isNull⟩, same⟩ := null
      refine ⟨piece, inside, constrains_of_null isNull, ?_⟩
      rw [isNull_eq isNull]
      exact validates_null.mpr same
    · intro some
      obtain ⟨piece, kept, valid⟩ := some
      exact ⟨piece, (List.mem_filter.mp kept).1, all piece kept, valid⟩
  · intro found
    obtain ⟨piece, inside, constrains, valid⟩ := found
    by_cases null : piece.isNull = true
    · left
      rw [isNull_eq null] at valid
      exact ⟨⟨piece, inside, null⟩, validates_null.mp valid⟩
    · right
      refine ⟨piece, List.mem_filter.mpr ⟨inside, ?_⟩, valid⟩
      rw [constrains, Bool.true_and, Bool.not_eq_true']
      exact Bool.eq_false_iff.mpr null

/-! ## Strings -/

/-- A schema is that of kinds, or of anything where there are none. -/
def ReadAs (schema : Schema) (kinds : List Kind) : Prop :=
  (schema.constrains = false ↔ kinds = []) ∧ ∀ json, Validates schema json ↔ kinds = [] ∨ ∃ kind ∈ kinds, ofKind kind json = true

theorem readAs_type (kind : Kind) : ReadAs (.type kind) [kind] := by
  constructor
  · simp [Schema.constrains]
  · intro json
    simp [Validates]

theorem readAs_empty : ReadAs .empty [] := by
  constructor
  · simp [Schema.constrains]
  · intro json
    simp [Validates]

theorem readAs_withNull {schema : Schema} {kinds : List Kind} (reads : ReadAs schema kinds) : ReadAs (withNull schema) (nullBeside kinds) := by
  by_cases none : kinds = []
  · have empty : schema = .empty := by
      have open' := reads.1.mpr none
      cases schema <;> first | rfl | cases open'
    rw [empty, nullBeside, if_pos none]
    exact readAs_empty
  · have constrains : schema.constrains = true := by
      apply Bool.eq_true_of_not_eq_false
      intro free
      exact none (reads.1.mp free)
    rw [nullBeside, if_neg none]
    constructor
    · rw [constrains_withNull, constrains]
      simp
    · intro json
      rw [validates_withNull constrains, reads.2 json, List.exists_mem_cons_iff, or_iff_right none, or_iff_right (List.cons_ne_nil _ _)]
      have null : ofKind .null json = true ↔ json = .null := validates_null
      rw [null, or_comm]

/-- Pieces are read as the kinds of all of them. -/
theorem readAs_pieces {α : Type} {pieces : List α} {schemaOf : α → Schema} {kindsOf : α → List Kind}
    (reads : ∀ piece ∈ pieces, ReadAs (schemaOf piece) (kindsOf piece)) :
    let nonNull := (pieces.map schemaOf).filter (fun schema => schema.constrains && !schema.isNull)
    ReadAs (combined nonNull (nonNull.length != ((pieces.map schemaOf).filter Schema.constrains).length)) (pieces.flatMap kindsOf) := by
  intro nonNull
  have none : (∀ piece ∈ pieces.map schemaOf, piece.constrains = false) ↔ pieces.flatMap kindsOf = [] := by
    rw [List.forall_mem_map, List.flatMap_eq_nil_iff]
    exact forall₂_congr (fun piece inside => (reads piece inside).1)
  refine ⟨(combined_pieces _).1.trans none, ?_⟩
  intro json
  rw [(combined_pieces (pieces.map schemaOf)).2 json, none]
  apply or_congr_right
  constructor
  · intro found
    obtain ⟨schema, mapped, constrains, valid⟩ := found
    obtain ⟨piece, inside, same⟩ := List.mem_map.mp mapped
    rw [← same] at constrains valid
    have some : kindsOf piece ≠ [] := by
      intro none
      rw [(reads piece inside).1.mpr none] at constrains
      cases constrains
    obtain ⟨kind, member, here⟩ := (((reads piece inside).2 json).mp valid).resolve_left some
    exact ⟨kind, List.mem_flatMap.mpr ⟨piece, inside, member⟩, here⟩
  · intro found
    obtain ⟨kind, listed, here⟩ := found
    obtain ⟨piece, inside, member⟩ := List.mem_flatMap.mp listed
    refine ⟨schemaOf piece, List.mem_map_of_mem inside, ?_, ((reads piece inside).2 json).mpr (.inr ⟨kind, member, here⟩)⟩
    apply Bool.eq_true_of_not_eq_false
    intro free
    rw [(reads piece inside).1.mp free] at member
    cases member

/-- A string is read as the kinds that it names. -/
theorem readAs_named (name : Str) : ReadAs (schemaForName name) (named name) := by
  rw [schemaForName, named]
  cases simple : nameTypes (stripQuotes (strip name)) with
  | some kind => exact readAs_type kind
  | none =>
    simp only []
    by_cases optional : lit "Optional[" <+: stripQuotes (strip name) ∧ lit "]" <:+ stripQuotes (strip name)
    · rw [dif_pos optional, dif_pos optional]
      exact readAs_withNull (readAs_named (inside (stripQuotes (strip name))))
    rw [dif_neg optional, dif_neg optional]
    by_cases split : 0x7C ∈ stripQuotes (strip name)
    · rw [dif_pos split, dif_pos split]
      have pieces : ∀ piece ∈ (stripQuotes (strip name)).splitOn 0x7C, ReadAs (schemaForName piece) (named piece) := by
        intro piece member
        exact readAs_named piece
      exact readAs_pieces (by simpa using pieces)
    rw [dif_neg split, dif_neg split]
    by_cases sequence : lit "list[" <+: stripQuotes (strip name) ∨ lit "tuple[" <+: stripQuotes (strip name)
    · rw [if_pos sequence, if_pos sequence]
      exact readAs_type .array
    rw [if_neg sequence, if_neg sequence]
    by_cases mapping : lit "dict[" <+: stripQuotes (strip name)
    · rw [if_pos mapping, if_pos mapping]
      exact readAs_type .object
    · rw [if_neg mapping, if_neg mapping]
      exact readAs_empty
termination_by name.length
decreasing_by
  · exact (length_inside_lt optional.1).trans_le (length_strip_le name)
  · exact (length_splitOn_lt member split).trans_le (length_strip_le name)

/-! ## The shape of an annotation -/

theorem sizeOf_lt_of_child {hint child : Hint} (member : child ∈ children hint) : sizeOf child < sizeOf hint := by
  cases hint with
  | union options =>
    have smaller : sizeOf child < sizeOf options := List.sizeOf_lt_of_mem member
    simp only [Hint.union.sizeOf_spec]
    omega
  | sequence item =>
    cases item with
    | none => cases member
    | some item =>
      rw [List.mem_singleton.mp member]
      simp only [Hint.sequence.sizeOf_spec, Option.some.sizeOf_spec]
      omega
  | tuple items =>
    have smaller : sizeOf child < sizeOf items := List.sizeOf_lt_of_mem member
    simp only [Hint.tuple.sizeOf_spec]
    omega
  | mapping value =>
    cases value with
    | none => cases member
    | some value =>
      rw [List.mem_singleton.mp member]
      simp only [Hint.mapping.sizeOf_spec, Option.some.sizeOf_spec]
      omega
  | dataclass fields hasDefault =>
    obtain ⟨field, inside, same⟩ := List.mem_map.mp member
    have smaller := List.sizeOf_lt_of_mem inside
    have part : sizeOf field.2 < sizeOf field := by
      cases field
      simp only [Prod.mk.sizeOf_spec]
      omega
    rw [← same]
    simp only [Hint.dataclass.sizeOf_spec]
    omega
  | text string => cases member
  | simple type => cases member
  | none => cases member
  | collection => cases member
  | unknown => cases member
  | forward string => cases member

/-- The induction over the annotations within an annotation. -/
theorem induct {motive : Hint → Prop} (step : ∀ hint, (∀ child ∈ children hint, motive child) → motive hint)
    (hint : Hint) : motive hint :=
  step hint (fun child _ => induct step child)
termination_by sizeOf hint
decreasing_by exact sizeOf_lt_of_child ‹_›

theorem schemaFor_union {options : List Hint} (ih : ∀ option ∈ options, (schemaFor option).constrains = !shapeless option ∧
      ∀ json, Validates (schemaFor option) json ↔ Shaped option json) :
    (schemaFor (.union options)).constrains = !shapeless (.union options) ∧
      ∀ json, Validates (schemaFor (.union options)) json ↔ Shaped (.union options) json := by
  have all : ∀ option ∈ (optionSchemas options).filter Schema.constrains, option.constrains = true := by
    intro option member
    exact (List.mem_filter.mp member).2
  have ofNone : ∀ option : Hint, option.isNone = true → shapeless option = false := by
    intro option null
    rw [isNone_eq null]
    rfl
  -- nothing is left where no option has a shape
  have none : (optionSchemas options).filter Schema.constrains = [] ∧ options.any Hint.isNone = false ↔
      shapelessAll options = true := by
    rw [List.filter_eq_nil_iff, List.any_eq_false, shapelessAll_iff]
    constructor
    · intro both option inside
      have some : option.isNone = false := Bool.eq_false_iff.mpr (both.2 option inside)
      have free := both.1 (schemaFor option) (mem_optionSchemas.mpr ⟨option, inside, some, rfl⟩)
      rw [(ih option inside).1] at free
      simpa using free
    · intro free
      constructor
      · intro schema member
        obtain ⟨option, inside, _, same⟩ := mem_optionSchemas.mp member
        rw [← same, (ih option inside).1, free option inside]
        decide
      · intro option inside null
        have shaped := ofNone option null
        rw [free option inside] at shaped
        cases shaped
  rw [schemaFor, shapeless]
  constructor
  · apply Bool.eq_iff_iff.mpr
    rw [← Bool.not_eq_false, constrains_combined all, none]
    simp
  · intro json
    rw [validates_combined all, none, Shaped]
    apply or_congr_right
    rw [shapedSome_iff, List.any_eq_true]
    constructor
    · intro found
      apply found.elim
      · intro null
        obtain ⟨⟨option, inside, isNone⟩, same⟩ := null
        refine ⟨option, inside, ofNone option isNone, ?_⟩
        rw [isNone_eq isNone, Shaped]
        exact same
      · intro some
        obtain ⟨schema, member, valid⟩ := some
        obtain ⟨listed, constrains⟩ := List.mem_filter.mp member
        obtain ⟨option, inside, _, same⟩ := mem_optionSchemas.mp listed
        rw [← same] at constrains valid
        rw [(ih option inside).1] at constrains
        exact ⟨option, inside, by simpa using constrains, ((ih option inside).2 json).mp valid⟩
    · intro found
      obtain ⟨option, inside, shaped, valid⟩ := found
      by_cases null : option.isNone = true
      · left
        rw [isNone_eq null, Shaped] at valid
        exact ⟨⟨option, inside, null⟩, valid⟩
      · right
        refine ⟨schemaFor option, List.mem_filter.mpr ⟨?_, ?_⟩, ((ih option inside).2 json).mpr valid⟩
        · exact mem_optionSchemas.mpr ⟨option, inside, Bool.eq_false_iff.mpr null, rfl⟩
        · rw [(ih option inside).1, shaped]
          rfl

/-- A schema says something where the annotation has a shape, and accepts what has it. -/
theorem schemaFor_shaped : ∀ hint, (schemaFor hint).constrains = !shapeless hint ∧
    ∀ json, Validates (schemaFor hint) json ↔ Shaped hint json := by
  apply induct
  intro hint ih
  cases hint with
  | text string =>
    obtain ⟨free, valid⟩ := readAs_named string.text
    rw [schemaFor, shapeless]
    constructor
    · apply Bool.eq_iff_iff.mpr
      rw [← Bool.not_eq_false, free]
      simp
    · intro json
      rw [valid json, Shaped]
  | simple type =>
    rw [schemaFor]
    exact ⟨rfl, fun json => by rw [Validates, Shaped]⟩
  | none =>
    rw [schemaFor]
    exact ⟨rfl, fun json => by rw [validates_null, Shaped]⟩
  | union options => exact schemaFor_union ih
  | sequence item =>
    rw [schemaFor]
    refine ⟨rfl, ?_⟩
    intro json
    rw [Validates, Shaped]
    cases item with
    | none => simp [itemSchema, ShapedItem, Validates]
    | some item => simp only [itemSchema, ShapedItem, (ih item List.mem_cons_self).2]
  | tuple items =>
    rw [schemaFor]
    refine ⟨rfl, ?_⟩
    intro json
    rw [Validates, Shaped]
    cases items with
    | nil => simp [headSchema, ShapedHead, Validates]
    | cons item rest => simp only [headSchema, ShapedHead, (ih item List.mem_cons_self).2]
  | mapping value =>
    rw [schemaFor]
    exact ⟨rfl, fun json => by rw [Validates, Shaped]⟩
  | dataclass fields hasDefault =>
    rw [schemaFor]
    refine ⟨rfl, ?_⟩
    intro json
    have fieldsShaped : ∀ members, ValidatesAll (fieldSchemas fields) members ↔ ShapedFields fields members := by
      intro members
      rw [validatesAll_iff, shapedFields_iff, fieldSchemas_eq, List.forall_mem_map]
      apply forall₂_congr
      intro field inside
      apply forall₂_congr
      intro member _
      exact imp_congr_right (fun _ => (ih field.2 (List.mem_map_of_mem inside)).2 member.2)
    simp only [Validates, Shaped, fieldsShaped]
  | collection =>
    rw [schemaFor]
    exact ⟨rfl, fun json => by rw [Validates, Shaped]⟩
  | unknown =>
    rw [schemaFor]
    exact ⟨rfl, fun json => by rw [Validates, Shaped]⟩
  | forward string =>
    rw [schemaFor]
    exact ⟨rfl, fun json => by rw [Validates, Shaped]⟩

/-! ## Nothing is lost -/

theorem WellFormed.child {hint child : Hint} (formed : WellFormed hint) (member : child ∈ children hint) :
    WellFormed child := fun part within => formed part (.head member within)

theorem each_of_represents {items : List Hint} {values : List Json} (each : RepresentsEach items values) :
    ∀ value ∈ values, ∃ item ∈ items, Represents item value := by
  induction items generalizing values with
  | nil =>
    rw [RepresentsEach] at each
    rw [each]
    exact List.forall_mem_nil _
  | cons item rest ih =>
    rw [RepresentsEach] at each
    obtain ⟨value, more, same, here, later⟩ := each
    rw [same, List.forall_mem_cons]
    refine ⟨⟨item, List.mem_cons_self, here⟩, ?_⟩
    intro other inside
    obtain ⟨found, member, represents⟩ := ih later other inside
    exact ⟨found, List.mem_cons_of_mem item member, represents⟩

theorem exists_each_represented {items : List Hint} (inhabited : ∀ item ∈ items, ∃ json, Represents item json) :
    ∃ values, RepresentsEach items values := by
  induction items with
  | nil => exact ⟨[], rfl⟩
  | cons item rest ih =>
    rw [List.forall_mem_cons] at inhabited
    obtain ⟨value, here⟩ := inhabited.1
    obtain ⟨values, later⟩ := ih inhabited.2
    refine ⟨value :: values, ?_⟩
    rw [RepresentsEach]
    exact ⟨value, values, rfl, here, later⟩

/-- A tuple may have any value of an item in its place. -/
theorem exists_each_with {items : List Hint} (inhabited : ∀ item ∈ items, ∃ json, Represents item json) {other : Hint}
    (member : other ∈ items) {json : Json} (represents : Represents other json) :
    ∃ values, RepresentsEach items values ∧ json ∈ values := by
  induction items with
  | nil => cases member
  | cons item rest ih =>
    rw [List.forall_mem_cons] at inhabited
    apply (List.mem_cons.mp member).elim
    · intro same
      obtain ⟨values, later⟩ := exists_each_represented inhabited.2
      refine ⟨json :: values, ?_, List.mem_cons_self⟩
      rw [RepresentsEach]
      exact ⟨json, values, rfl, same ▸ represents, later⟩
    · intro inside
      obtain ⟨value, here⟩ := inhabited.1
      obtain ⟨values, later, found⟩ := ih inhabited.2 inside
      refine ⟨value :: values, ?_, List.mem_cons_of_mem value found⟩
      rw [RepresentsEach]
      exact ⟨value, values, rfl, here, later⟩

theorem exists_fields {fields : List (Str × Hint)} (distinct : (fields.map Prod.fst).Nodup)
    (inhabited : ∀ field ∈ fields, ∃ json, Represents field.2 json) :
    ∃ members : Dict, members.map Prod.fst = fields.map Prod.fst ∧ RepresentsFields fields members := by
  induction fields with
  | nil => exact ⟨[], rfl, trivial⟩
  | cons field rest ih =>
    rw [List.forall_mem_cons] at inhabited
    rw [List.map_cons, List.nodup_cons] at distinct
    obtain ⟨value, here⟩ := inhabited.1
    obtain ⟨members, names, later⟩ := ih distinct.2 inhabited.2
    refine ⟨(field.1, value) :: members, by rw [List.map_cons, List.map_cons, names], ?_⟩
    rw [representsFields_iff] at later ⊢
    rw [List.forall_mem_cons]
    constructor
    · intro member inside same
      apply (List.mem_cons.mp inside).elim
      · intro first
        rw [first]
        exact here
      · intro after
        -- another member of this name would be that of a later field
        have listed : member.1 ∈ members.map Prod.fst := List.mem_map_of_mem after
        rw [names, same] at listed
        exact absurd listed distinct.1
    · intro other inside member among same
      apply (List.mem_cons.mp among).elim
      · intro first
        have listed : other.1 ∈ rest.map Prod.fst := List.mem_map_of_mem inside
        rw [← same, first] at listed
        exact absurd listed distinct.1
      · intro after
        exact later other inside member after same

/-- Every annotation admits a value. -/
theorem exists_represents : ∀ hint, WellFormed hint → ∃ json, Represents hint json := by
  apply induct
  intro hint ih formed
  have inhabited : ∀ child ∈ children hint, ∃ json, Represents child json :=
    fun child member => ih child member (formed.child member)
  cases hint with
  | text string => exact exists_admits string.meaning
  | simple type =>
    obtain ⟨json, own⟩ := exists_purely (simpleTypes type)
    exact ⟨json, own.1⟩
  | none => exact ⟨.null, rfl⟩
  | union options =>
    obtain ⟨option, rest, same⟩ := List.exists_cons_of_ne_nil (formed (.union options) .refl)
    have first : option ∈ options := same ▸ List.mem_cons_self
    obtain ⟨json, represents⟩ := inhabited option first
    refine ⟨json, ?_⟩
    rw [Represents, representsSome_iff]
    exact ⟨option, first, represents⟩
  | sequence item =>
    refine ⟨.list [], ?_⟩
    rw [Represents]
    exact ⟨[], rfl, List.forall_mem_nil _⟩
  | tuple items =>
    obtain ⟨values, each⟩ := exists_each_represented inhabited
    refine ⟨.list values, ?_⟩
    rw [Represents]
    exact ⟨values, rfl, each⟩
  | mapping value =>
    refine ⟨.dict [], ?_⟩
    rw [Represents]
    exact ⟨[], rfl, List.forall_mem_nil _⟩
  | dataclass fields hasDefault =>
    obtain ⟨members, names, each⟩ := exists_fields (formed (.dataclass fields hasDefault) .refl)
      (fun field inside => inhabited field.2 (List.mem_map_of_mem inside))
    refine ⟨.dict members, ?_⟩
    rw [Represents]
    refine ⟨members, rfl, ?_, each, ?_⟩
    · intro member inside
      rw [← names]
      exact List.mem_map_of_mem inside
    · intro name required
      rw [names]
      exact (List.mem_filter.mp required).1
  | collection => exact ⟨.list [], rfl⟩
  | unknown => exact ⟨.null, trivial⟩
  | forward string => exact exists_admits string.meaning

/-- Where the schema of an annotation is not narrower, nothing is lost at it. -/
theorem kept_of_neverNarrower {hint : Hint} (formed : WellFormed hint) (wide : NeverNarrower hint) :
    Kept hint := by
  have shaped : ∀ json, Represents hint json → Shaped hint json :=
    fun json represents => ((schemaFor_shaped hint).2 json).mp (wide json represents)
  cases hint with
  | text string =>
    by_cases none : named string.text = []
    · exact .inl none
    · right
      apply covered_iff.mpr
      intro json admitted
      have found := shaped json admitted
      rw [Shaped] at found
      exact found.resolve_left none
  | union options =>
    by_cases none : shapelessAll options = true
    · exact .inl none
    · right
      intro option inside _ json represents
      have admitted : Represents (.union options) json := by
        rw [Represents, representsSome_iff]
        exact ⟨option, inside, represents⟩
      have found := shaped json admitted
      rw [Shaped] at found
      exact found.resolve_left none
  | tuple items =>
    cases items with
    | nil => trivial
    | cons item rest =>
      intro other inside json represents
      have inhabited : ∀ part ∈ item :: rest, ∃ json, Represents part json :=
        fun part member => exists_represents part (formed.child member)
      obtain ⟨values, each, placed⟩ := exists_each_with inhabited (List.mem_cons_of_mem item inside) represents
      have admitted : Represents (.tuple (item :: rest)) (.list values) := by
        rw [Represents]
        exact ⟨values, rfl, each⟩
      have found := shaped _ admitted
      rw [Shaped] at found
      obtain ⟨_, same, every⟩ := found
      rw [Json.list.injEq] at same
      exact every json (same ▸ placed)
  | simple type => trivial
  | none => trivial
  | sequence item => trivial
  | mapping value => trivial
  | dataclass fields hasDefault => trivial
  | collection => trivial
  | unknown => trivial
  | forward string => trivial

/-- Where nothing is lost at an annotation nor at those that are visited from it, its schema is not narrower. -/
theorem neverNarrower_of_kept {hint : Hint} (kept : Kept hint) (wide : ∀ child ∈ visited hint, NeverNarrower child) :
    NeverNarrower hint := by
  have shapedChild : ∀ child ∈ visited hint, ∀ json, Represents child json → Shaped child json :=
    fun child member json represents => ((schemaFor_shaped child).2 json).mp (wide child member json represents)
  intro json represents
  apply ((schemaFor_shaped hint).2 json).mpr
  cases hint with
  | text string =>
    rw [Shaped]
    rw [Represents] at represents
    exact kept.imp_right (fun covered => covered_iff.mp covered json represents)
  | simple type => exact represents
  | none => exact represents
  | union options =>
    rw [Represents, representsSome_iff] at represents
    obtain ⟨option, inside, represents⟩ := represents
    rw [Shaped]
    by_cases shape : shapeless option = true
    · exact kept.imp_right (fun covered => covered option inside shape json represents)
    · right
      rw [shapedSome_iff]
      exact ⟨option, inside, Bool.eq_false_iff.mpr shape, shapedChild option inside json represents⟩
  | sequence item =>
    rw [Represents] at represents
    obtain ⟨values, same, each⟩ := represents
    rw [Shaped]
    refine ⟨values, same, ?_⟩
    intro value inside
    cases item with
    | none => trivial
    | some item => exact shapedChild item List.mem_cons_self value (each value inside)
  | tuple items =>
    rw [Represents] at represents
    obtain ⟨values, same, each⟩ := represents
    rw [Shaped]
    refine ⟨values, same, ?_⟩
    intro value inside
    obtain ⟨other, member, here⟩ := each_of_represents each value inside
    cases items with
    | nil => trivial
    | cons item rest =>
      rw [ShapedHead]
      apply (List.mem_cons.mp member).elim
      · intro first
        exact shapedChild item List.mem_cons_self value (first ▸ here)
      · intro later
        exact kept other later value here
  | mapping value =>
    rw [Represents] at represents
    obtain ⟨members, same, _⟩ := represents
    rw [same, Shaped]
    rfl
  | dataclass fields hasDefault =>
    rw [Represents] at represents
    obtain ⟨members, same, _, each, required⟩ := represents
    rw [Shaped]
    refine ⟨members, same, ?_, required⟩
    rw [representsFields_iff] at each
    rw [shapedFields_iff]
    intro field inside member among name
    exact shapedChild field.2 (List.mem_map_of_mem inside) member.2 (each field inside member among name)
  | collection => trivial
  | unknown => trivial
  | forward string => trivial

theorem visited_children {hint child : Hint} (member : child ∈ visited hint) : child ∈ children hint := by
  cases hint with
  | tuple items => exact List.mem_of_mem_take member
  | mapping value => cases member
  | _ => exact member

theorem WellFormed.described {hint part : Hint} (formed : WellFormed hint) (described : Described hint part) :
    WellFormed part := by
  induction described with
  | refl => exact formed
  | tail _ member ih => exact ih.child (visited_children member)

/-- The schemas of an annotation and of those described on the way are never narrower exactly where nothing
is lost at any of them: an option without a shape beside others, an item of a tuple after the first, or a
kind of value of a string. -/
theorem never_narrower_iff (hint : Hint) (formed : WellFormed hint) :
    (∀ part, Described hint part → NeverNarrower part) ↔ ∀ part, Described hint part → Kept part := by
  constructor
  · intro wide part described
    exact kept_of_neverNarrower (formed.described described) (wide part described)
  · intro kept part described
    have later : ∀ hint, (∀ part, Described hint part → Kept part) → NeverNarrower hint := by
      apply induct
      intro hint ih kept
      apply neverNarrower_of_kept (kept hint .refl)
      intro child member
      exact ih child (visited_children member) (fun part described => kept part (.head member described))
    exact later part (fun inner within => kept inner (described.trans within))

/-- Within a union of annotations that have nothing within are these. -/
theorem within_union {options : List Hint} (leaves : ∀ option ∈ options, children option = []) {part : Hint}
    (within : Relation.ReflTransGen (fun whole child => child ∈ children whole) (.union options) part) :
    part = .union options ∨ part ∈ options := by
  induction within with
  | refl => exact .inl rfl
  | tail _ member ih =>
    apply ih.elim
    · intro whole
      rw [whole] at member
      exact .inr member
    · intro option
      rw [leaves _ option] at member
      cases member

theorem wellFormed_union {options : List Hint} (leaves : ∀ option ∈ options, children option = []) (some : options ≠ [])
    (formed : ∀ option ∈ options, Formed option) : WellFormed (.union options) := by
  intro part within
  apply (within_union leaves within).elim
  · intro whole
    rw [whole]
    exact some
  · exact formed part

/-- `int | None`. -/
theorem never_narrower_iff_sample : NeverNarrower (.union [.simple .int, .none]) := by
  have leaves : ∀ option ∈ [Hint.simple .int, .none], children option = [] := by simp [children]
  have formed : WellFormed (.union [.simple .int, .none]) := by
    apply wellFormed_union leaves (List.cons_ne_nil _ _)
    simp [Formed]
  apply (never_narrower_iff _ formed).mpr _ _ .refl
  intro part described
  have within := Relation.ReflTransGen.mono (fun _ _ member => visited_children member) _ _ described
  apply (within_union leaves within).elim
  · intro whole
    rw [whole]
    right
    simp [shapeless]
  · intro inside
    simp only [List.mem_cons, List.not_mem_nil, or_false] at inside
    apply inside.elim <;> exact fun same => same ▸ trivial

/-- The schema of a class that is not known, or `None`, is that of `null`. -/
theorem optional_unknown_narrowed : ¬ ∀ hint, WellFormed hint → NeverNarrower hint := by
  intro wide
  have formed : WellFormed (.union [.unknown, .none]) := by
    apply wellFormed_union _ (List.cons_ne_nil _ _)
    · simp [Formed]
    · simp [children]
  have text : Represents (.union [.unknown, .none]) (.str (lit "x")) := .inl trivial
  have valid := wide (.union [.unknown, .none]) formed _ text
  have schema : schemaFor (.union [.unknown, .none]) = .type .null := by
    simp [schemaFor, optionSchemas, Hint.isNone, Schema.constrains, combined]
  rw [schema, validates_null] at valid
  cases valid

end Tesera.Schemas.Width
