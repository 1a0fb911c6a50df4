import Tesera.TypeScript.Canonical

/-!
`parseRaw`, `isRawNum` and `canonicalRaw` of `Canonical.ts`: the parse that keeps the text of
each number, and its encoding. A number becomes an object with the one member `$num`, and the
members of an object become properties of an object with the ordinary prototype, so a member
named `$num` makes the object a number, and one named `__proto__` replaces the prototype.
-/

namespace Tesera.TypeScript.RawTree
open Tesera.Text Tesera.Text.Unicode Tesera.Text.Number Tesera.Text.Decimal Tesera.Text.Json
open Tesera.TypeScript.Value Tesera.TypeScript.Escape Tesera.TypeScript.Canonical

/-- A value of the raw parse. The number stands for the object `{ $num: text }`. Of an object
the own properties are kept, and its prototype where one was assigned. -/
inductive Node where
  | null
  | bool (b : Bool)
  | num (token : Token)
  | str (s : Str)
  | arr (items : List Node)
  | obj (own : List (Str × Node)) (prototype : Option Node)

abbrev Own := List (Str × Node)

def numKey : Str := lit "$num"

def protoKey : Str := lit "__proto__"

/-! ## Assigning a member -/

mutual

/-- Does a lookup of `__proto__` along the prototypes end at the accessor of
`Object.prototype`? -/
def reachesAccessor : Node → Bool
  | .null => false
  | .obj own prototype => (Members.get own protoKey).isNone && prototypeReaches prototype
  | _ => true

def prototypeReaches : Option Node → Bool
  | none => true
  | some node => reachesAccessor node

end

/-- What can be a prototype: an object or `null`. -/
def isPrototype : Node → Bool
  | .bool _ => false
  | .str _ => false
  | _ => true

/-- `out[key] = value`. -/
def assign (own : Own) (prototype : Option Node) (key : Str) (value : Node) : Own × Option Node :=
  if key = protoKey ∧ reachesAccessor (.obj own prototype) = true then
    (own, if isPrototype value then some value else prototype)
  else (Members.put key value own, prototype)

def assignAll (members : Own) : Own × Option Node :=
  members.foldl (fun out member => assign out.1 out.2 member.1 member.2) ([], none)

mutual

def toNode : Tree → Node
  | .null => .null
  | .bool b => .bool b
  | .const _ => .null
  | .num token => .num token
  | .str pieces => .str (unitsOfPieces pieces)
  | .arr items => .arr (toNodes items)
  | .obj members => .obj (assignAll (toOwn members)).1 (assignAll (toOwn members)).2

def toNodes : List Tree → List Node
  | [] => []
  | t :: items => toNode t :: toNodes items

def toOwn : List (List Piece × Tree) → Own
  | [] => []
  | (k, t) :: members => (unitsOfPieces k, toNode t) :: toOwn members

end

/-- `parseRaw(text)`; it accepts the grammar of JSON. -/
def parseRaw (text : Str) : Option Node := (parse strict text).map toNode

/-! ## Encoding -/

mutual

/-- `node.$num` of an object that has it, its own or by its prototypes. -/
def rawNum : Node → Option Node
  | .num token => some (.str token.text)
  | .obj own prototype => (Members.get own numKey).or (prototypeRawNum prototype)
  | _ => none

def prototypeRawNum : Option Node → Option Node
  | none => none
  | some node => rawNum node

end

/-- `isRawNum(node)`. -/
def isRawNum (node : Node) : Bool := (rawNum node).isSome

/-- What the engine makes of values that a `$num` of the writer's own can have. -/
structure Host extends Engine where
  /-- `String(value)` of a value that is no string; none where it throws. -/
  stringOf : Node → Option Str
  /-- `Number(value)` of a value that is not the text of a JSON number; none where it throws. -/
  numberOf : Node → Option Double

/-- `/^-?(?:0|[1-9]\d*)$/.test(text)`, with the number that text is. -/
def intToken (text : Str) : Option Token :=
  match lexNumber text with
  | some (token, []) => if token.IsInt then some token else none
  | _ => none

def Host.string (host : Host) : Node → Option Str
  | .str s => some s
  | token => host.stringOf token

/-- `Number(token)`. -/
def Host.numberValue (host : Host) (token : Node) : Option Double :=
  match token with
  | .str s =>
      match lexNumber s with
      | some (read, []) => some (host.toEngine.number read)
      | _ => host.numberOf token
  | _ => host.numberOf token

section Encode

variable (pyFloat : Double → Option Tree) (host : Host)

/-- The encoding of a `$num`: an integer as it stands, another number as `pyFloat` writes it.
An integer that is no string is returned unchanged, and the text around it makes it one. -/
def encodeNum (token : Node) : Option Tree :=
  (host.string token).bind (fun text =>
    match intToken text with
    | some read => some (.num read)
    | none => (host.numberValue token).bind pyFloat)

mutual

def encodeRaw : Node → Option Str
  | .null => canonical .null
  | .bool b => canonical (.bool b)
  | .str s => canonical (.str s)
  | .num token => (encodeNum pyFloat host (.str token.text)).map render
  | .arr items => (encodeItems items).map bracketed
  | .obj own prototype =>
      match rawNum (.obj own prototype) with
      | some token => (encodeNum pyFloat host token).map render
      | none => (encodeOwn own).map braced

def encodeItems : List Node → Option (List Str)
  | [] => some []
  | node :: items => (encodeRaw node).bind (fun text => (encodeItems items).map (text :: ·))

def encodeOwn : Own → Option (List Str)
  | [] => some []
  | (k, node) :: own =>
      (encodeRaw node).bind (fun text =>
        (encodeOwn own).map ((escapeString k ++ 58 :: text) :: ·))

end

mutual

/-- The tree the encoding writes. -/
def rawTree : Node → Option Tree
  | .null => some .null
  | .bool b => some (.bool b)
  | .str s => some (.str (escapePieces s))
  | .num token => encodeNum pyFloat host (.str token.text)
  | .arr items => (rawItems items).map .arr
  | .obj own prototype =>
      match rawNum (.obj own prototype) with
      | some token => encodeNum pyFloat host token
      | none => (rawMembers own).map .obj

def rawItems : List Node → Option (List Tree)
  | [] => some []
  | node :: items => (rawTree node).bind (fun t => (rawItems items).map (t :: ·))

def rawMembers : Own → Option (List (List Piece × Tree))
  | [] => some []
  | (k, node) :: own =>
      (rawTree node).bind (fun t => (rawMembers own).map ((escapePieces k, t) :: ·))

end

end Encode

/-- The number of a double as `Canonical.ts` encodes it. -/
def pyFloatTree (x : Double) : Option Tree := (pyFloat x).map .num

/-- `canonicalRaw(node)`; none where it throws. -/
def canonicalRaw (host : Host) (node : Node) : Option Str := encodeRaw pyFloatTree host node

/-! ## The encoding is a rendered tree -/

section Rendered

variable (pyFloat : Double → Option Tree) (host : Host)

mutual

theorem encodeRaw_eq : ∀ node : Node, encodeRaw pyFloat host node = (rawTree pyFloat host node).map render
  | .null => by simp only [encodeRaw, canonical, rawTree, Option.map_some, lit_null]
  | .bool true => by simp only [encodeRaw, canonical, rawTree, Option.map_some, lit_true]
  | .bool false => by simp only [encodeRaw, canonical, rawTree, Option.map_some, lit_false]
  | .str s => by simp only [encodeRaw, canonical, rawTree, Option.map_some, render, escapeString_eq]
  | .num token => by simp only [encodeRaw, rawTree]
  | .arr items => by
    simp only [encodeRaw, rawTree, encodeItems_eq items, Option.map_map]
    congr 1
    funext trees
    exact (render_arr trees).symm
  | .obj own prototype => by
    cases found : rawNum (.obj own prototype) with
    | some token => simp only [encodeRaw, rawTree, found]
    | none =>
      simp only [encodeRaw, rawTree, found, encodeOwn_eq own, Option.map_map]
      congr 1
      funext trees
      exact (render_obj trees).symm

theorem encodeItems_eq : ∀ items : List Node,
    encodeItems pyFloat host items = (rawItems pyFloat host items).map (List.map render)
  | [] => by simp only [encodeItems, rawItems, Option.map_some, List.map_nil]
  | node :: items => by
    simp only [encodeItems, rawItems, encodeRaw_eq node, encodeItems_eq items]
    cases rawTree pyFloat host node with
    | none => rfl
    | some t => cases rawItems pyFloat host items <;> rfl

theorem encodeOwn_eq : ∀ own : Own,
    encodeOwn pyFloat host own = (rawMembers pyFloat host own).map (List.map renderMember)
  | [] => by simp only [encodeOwn, rawMembers, Option.map_some, List.map_nil]
  | (k, node) :: own => by
    simp only [encodeOwn, rawMembers, encodeRaw_eq node, encodeOwn_eq own, escapeString_eq]
    cases rawTree pyFloat host node with
    | none => rfl
    | some t => cases rawMembers pyFloat host own <;> rfl

end

end Rendered

theorem encodeNum_num {host : Host} {token : Node} {t : Tree} (encoded : encodeNum pyFloatTree host token = some t) :
    ∃ read, t = .num read := by
  obtain ⟨text, -, rest⟩ := Option.bind_eq_some_iff.mp encoded
  cases found : intToken text with
  | some read =>
    rw [found] at rest
    exact ⟨read, (Option.some.inj rest).symm⟩
  | none =>
    rw [found] at rest
    obtain ⟨x, -, spelt⟩ := Option.bind_eq_some_iff.mp rest
    obtain ⟨read, -, same⟩ := Option.map_eq_some_iff.mp spelt
    exact ⟨read, same.symm⟩

mutual

/-- What is encoded the loose grammar can read. -/
theorem treeOk_raw (host : Host) : ∀ (node : Node) (t : Tree), rawTree pyFloatTree host node = some t →
    JsonRoundTrip.TreeOk loose t
  | .null, t, found => by
    simp only [rawTree, Option.some.injEq] at found
    subst found
    simp only [JsonRoundTrip.TreeOk]
  | .bool b, t, found => by
    simp only [rawTree, Option.some.injEq] at found
    subst found
    simp only [JsonRoundTrip.TreeOk]
  | .str s, t, found => by
    simp only [rawTree, Option.some.injEq] at found
    subst found
    simp only [JsonRoundTrip.TreeOk, piecesOk_loose]
  | .num token, t, found => by
    simp only [rawTree] at found
    obtain ⟨read, rfl⟩ := encodeNum_num found
    simp only [JsonRoundTrip.TreeOk, loose]
  | .arr items, t, found => by
    simp only [rawTree] at found
    obtain ⟨trees, inner, rfl⟩ := Option.map_eq_some_iff.mp found
    simp only [JsonRoundTrip.TreeOk]
    exact itemsOk_raw host items trees inner
  | .obj own prototype, t, found => by
    simp only [rawTree] at found
    cases number : rawNum (.obj own prototype) with
    | some token =>
      rw [number] at found
      obtain ⟨read, rfl⟩ := encodeNum_num found
      simp only [JsonRoundTrip.TreeOk, loose]
    | none =>
      rw [number] at found
      obtain ⟨trees, inner, rfl⟩ := Option.map_eq_some_iff.mp found
      simp only [JsonRoundTrip.TreeOk]
      exact membersOk_raw host own trees inner

theorem itemsOk_raw (host : Host) : ∀ (items : List Node) (trees : List Tree),
    rawItems pyFloatTree host items = some trees → JsonRoundTrip.ItemsOk loose trees
  | [], trees, found => by
    simp only [rawItems, Option.some.injEq] at found
    subst found
    simp only [JsonRoundTrip.ItemsOk]
  | node :: items, trees, found => by
    simp only [rawItems] at found
    obtain ⟨t, first, rest⟩ := Option.bind_eq_some_iff.mp found
    obtain ⟨others, inner, rfl⟩ := Option.map_eq_some_iff.mp rest
    simp only [JsonRoundTrip.ItemsOk]
    exact ⟨treeOk_raw host node t first, itemsOk_raw host items others inner⟩

theorem membersOk_raw (host : Host) : ∀ (own : Own) (trees : List (List Piece × Tree)),
    rawMembers pyFloatTree host own = some trees → JsonRoundTrip.MembersOk loose trees
  | [], trees, found => by
    simp only [rawMembers, Option.some.injEq] at found
    subst found
    simp only [JsonRoundTrip.MembersOk]
  | (k, node) :: own, trees, found => by
    simp only [rawMembers] at found
    obtain ⟨t, first, rest⟩ := Option.bind_eq_some_iff.mp found
    obtain ⟨others, inner, rfl⟩ := Option.map_eq_some_iff.mp rest
    simp only [JsonRoundTrip.MembersOk]
    exact ⟨piecesOk_loose k, treeOk_raw host node t first, membersOk_raw host own others inner⟩

end

/-! ## Members that are neither numbers nor prototypes -/

/-- A name `parseRaw` keeps as an ordinary member. -/
def Apart (k : Str) : Prop := k ≠ numKey ∧ k ≠ protoKey

instance (k : Str) : Decidable (Apart k) := inferInstanceAs (Decidable (_ ∧ _))

theorem assign_fold (members : Own) (ordinary : ∀ p ∈ members, p.1 ≠ protoKey) (own : Own)
    (prototype : Option Node) :
    members.foldl (fun out member => assign out.1 out.2 member.1 member.2) (own, prototype) =
      (members.foldl (fun m p => Members.put p.1 p.2 m) own, prototype) := by
  induction members generalizing own with
  | nil => rfl
  | cons p members ih =>
    have here := ordinary p List.mem_cons_self
    have step : assign own prototype p.1 p.2 = (Members.put p.1 p.2 own, prototype) := by
      rw [assign, if_neg (fun both => here both.1)]
    simp only [List.foldl_cons, step]
    exact ih (fun q member => ordinary q (List.mem_cons_of_mem p member)) _

/-- Without `__proto__` the members become properties. -/
theorem assignAll_ordinary {members : Own} (ordinary : ∀ p ∈ members, p.1 ≠ protoKey) :
    assignAll members = (Members.ofPairs members, none) := assign_fold members ordinary [] none

theorem length_put_le (k : Str) (node : Node) (own : Own) : (Members.put k node own).length ≤ own.length + 1 := by
  induction own with
  | nil => rfl
  | cons p own ih =>
    unfold Members.put
    split_ifs
    · simp
    · simp
    · simp only [List.length_cons]
      omega

theorem length_fold_put_le (members own : Own) :
    (members.foldl (fun m p => Members.put p.1 p.2 m) own).length ≤ own.length + members.length := by
  induction members generalizing own with
  | nil => rfl
  | cons p members ih =>
    have step := ih (Members.put p.1 p.2 own)
    have one := length_put_le p.1 p.2 own
    simp only [List.foldl_cons, List.length_cons] at step ⊢
    omega

theorem get_eq_none_of_not_mem {ν : Type} {m : List (Str × ν)} {key : Str} (absent : ∀ p ∈ m, p.1 ≠ key) :
    Members.get m key = none := by
  cases found : Members.get m key with
  | none => rfl
  | some v => exact absurd rfl (absent _ (Members.mem_of_get found))

/-- With `__proto__`, once, a member is lost. -/
theorem length_assignAll_lt {before after : Own} {value : Node} (clearBefore : ∀ p ∈ before, p.1 ≠ protoKey)
    (clearAfter : ∀ p ∈ after, p.1 ≠ protoKey) :
    (assignAll (before ++ (protoKey, value) :: after)).1.length < (before ++ (protoKey, value) :: after).length := by
  have own : ∀ p ∈ Members.ofPairs before, p.1 ≠ protoKey :=
    fun p member => clearBefore p (Members.mem_ofPairs member)
  have accessor : reachesAccessor (.obj (Members.ofPairs before) none) = true := by
    simp [reachesAccessor, prototypeReaches, get_eq_none_of_not_mem own]
  have step : (assign (Members.ofPairs before) none protoKey value).1 = Members.ofPairs before := by
    rw [assign, if_pos ⟨rfl, accessor⟩]
  have early := length_fold_put_le before []
  have late := length_fold_put_le after (Members.ofPairs before)
  have whole : (assignAll (before ++ (protoKey, value) :: after)).1 =
      after.foldl (fun m p => Members.put p.1 p.2 m) (Members.ofPairs before) := by
    have first := assign_fold before clearBefore [] none
    simp only [assignAll, List.foldl_append, first, List.foldl_cons]
    rw [show (assign (before.foldl (fun m p => Members.put p.1 p.2 m) []) none protoKey value) =
      ((Members.ofPairs before), (assign (Members.ofPairs before) none protoKey value).2) from
        Prod.ext step rfl, assign_fold after clearAfter]
  rw [whole]
  simp only [Members.ofPairs, List.length_nil, List.length_append, List.length_cons] at early late ⊢
  omega

theorem length_rawMembers {pyFloat : Double → Option Tree} {host : Host} {own : Own}
    {trees : List (List Piece × Tree)} (found : rawMembers pyFloat host own = some trees) :
    trees.length = own.length := by
  induction own generalizing trees with
  | nil =>
    simp only [rawMembers, Option.some.injEq] at found
    subst found
    rfl
  | cons p own ih =>
    obtain ⟨k, node⟩ := p
    simp only [rawMembers] at found
    obtain ⟨t, -, rest⟩ := Option.bind_eq_some_iff.mp found
    obtain ⟨others, inner, rfl⟩ := Option.map_eq_some_iff.mp rest
    simp only [List.length_cons, ih inner]

/-! ## A canonical text through the raw parse -/

theorem intToken_text (token : Token) : intToken token.text = if token.IsInt then some token else none := by
  have read := lexNumber_text token tokenEnd_nil
  rw [List.append_nil] at read
  simp only [intToken, read]

/-- The text of a number is written again as it was. -/
theorem encodeNum_floatToken {host : Host} {d : Dec} (double : host.double d = some d) :
    encodeNum pyFloatTree host (.str (floatToken d).text) = some (.num (floatToken d)) := by
  have read := lexNumber_text (floatToken d) tokenEnd_nil
  rw [List.append_nil] at read
  have value : host.numberValue (.str (floatToken d).text) = some (.finite d) := by
    simp only [Host.numberValue, read, Engine.number, decOf_floatToken, double]
  simp only [encodeNum, Host.string, Option.bind_some, intToken_text]
  split_ifs
  · rfl
  · simp only [value, Option.bind_some, pyFloatTree, pyFloat, Option.map_some]

/-- The members of a record as `parseRaw` reads them back. -/
def nodesOf (members : Record) : Own := members.map (fun p => (p.1, toNode (toTree p.2)))

theorem toOwn_toMembers : ∀ members : Record, StringsMembers Unmarked members →
    toOwn (toMembers members) = nodesOf members
  | [], _ => by simp only [toMembers, toOwn, nodesOf, List.map_nil]
  | (k, v) :: members, unmarked => by
    simp only [StringsMembers] at unmarked
    have tail := toOwn_toMembers members unmarked.2.2
    simp only [nodesOf] at tail
    simp only [toMembers, toOwn, nodesOf, List.map_cons, escapePieces_unmarked unmarked.1,
      unitsOfPieces_stringify, tail]

theorem sorted_nodesOf {members : Record} (sorted : Members.Sorted members) :
    Members.Sorted (nodesOf members) :=
  List.pairwise_map.mpr sorted

theorem mem_nodesOf {members : Record} {p : Str × Node} (member : p ∈ nodesOf members) :
    ∃ q ∈ members, q.1 = p.1 := by
  obtain ⟨q, inside, rfl⟩ := List.mem_map.mp member
  exact ⟨q, inside, rfl⟩

/-- Every name of a record itself. -/
def NamedApart (members : Record) : Prop := ∀ p ∈ members, Apart p.1

theorem namedApart_of_names : ∀ {members : Record}, NamesMembers Apart members → NamedApart members
  | [], _ => List.forall_mem_nil _
  | (k, v) :: members, names => by
    simp only [NamesMembers] at names
    exact List.forall_mem_cons.mpr ⟨names.1, namedApart_of_names names.2.2⟩

theorem toNode_obj {members : Record} (sorted : Members.Sorted members)
    (unmarked : StringsMembers Unmarked members) (ordinary : ∀ p ∈ members, p.1 ≠ protoKey) :
    toNode (.obj (toMembers members)) = .obj (nodesOf members) none := by
  have clear : ∀ p ∈ nodesOf members, p.1 ≠ protoKey := by
    intro p member
    obtain ⟨q, inside, same⟩ := mem_nodesOf member
    exact same ▸ ordinary q inside
  simp only [toNode, toOwn_toMembers members unmarked, assignAll_ordinary clear,
    Members.ofPairs_of_sorted (sorted_nodesOf sorted)]

theorem rawNum_nodesOf {members : Record} (plain : ∀ p ∈ members, p.1 ≠ numKey) :
    rawNum (.obj (nodesOf members) none) = none := by
  have clear : ∀ p ∈ nodesOf members, p.1 ≠ numKey := by
    intro p member
    obtain ⟨q, inside, same⟩ := mem_nodesOf member
    exact same ▸ plain q inside
  simp [rawNum, prototypeRawNum, get_eq_none_of_not_mem clear]

mutual

/-- Where the names stand apart, the raw parse is encoded as the tree it was read from. -/
theorem rawTree_toTree (host : Host) : ∀ v : Json, v.Ok host.toEngine → v.Strings Unmarked →
    v.Names Apart → rawTree pyFloatTree host (toNode (toTree v)) = some (toTree v)
  | .null, _, _, _ => by simp only [toTree, toNode, rawTree]
  | .bool _, _, _, _ => by simp only [toTree, toNode, rawTree]
  | .num x, ok, _, _ => by
    simp only [Json.Ok] at ok
    obtain ⟨d, rfl, double⟩ := ok
    simp only [toTree, toNode, rawTree, encodeNum_floatToken double]
  | .str s, _, unmarked, _ => by
    simp only [Json.Strings] at unmarked
    simp only [toTree, toNode, rawTree, escapePieces_unmarked unmarked, unitsOfPieces_stringify]
  | .arr items, ok, unmarked, names => by
    simp only [Json.Ok] at ok
    simp only [Json.Strings] at unmarked
    simp only [Json.Names] at names
    simp only [toTree, toNode, rawTree, rawItems_toItems host items ok unmarked names, Option.map_some]
  | .obj members, ok, unmarked, names => by
    simp only [Json.Ok] at ok
    simp only [Json.Strings] at unmarked
    simp only [Json.Names] at names
    have apart := namedApart_of_names names
    rw [toTree, toNode_obj ok.1 unmarked (fun p member => (apart p member).2), rawTree,
      rawNum_nodesOf (fun p member => (apart p member).1)]
    simp only [rawMembers_nodesOf host members ok.2 unmarked names, Option.map_some]

theorem rawItems_toItems (host : Host) : ∀ items : List Json, OkItems host.toEngine items →
    StringsItems Unmarked items → NamesItems Apart items →
      rawItems pyFloatTree host (toNodes (toItems items)) = some (toItems items)
  | [], _, _, _ => by simp only [toItems, toNodes, rawItems]
  | v :: items, ok, unmarked, names => by
    simp only [OkItems] at ok
    simp only [StringsItems] at unmarked
    simp only [NamesItems] at names
    simp only [toItems, toNodes, rawItems, rawTree_toTree host v ok.1 unmarked.1 names.1,
      rawItems_toItems host items ok.2 unmarked.2 names.2, Option.bind_some, Option.map_some]

theorem rawMembers_nodesOf (host : Host) : ∀ members : Record, OkMembers host.toEngine members →
    StringsMembers Unmarked members → NamesMembers Apart members →
      rawMembers pyFloatTree host (nodesOf members) = some (toMembers members)
  | [], _, _, _ => by simp only [nodesOf, List.map_nil, toMembers, rawMembers]
  | (k, v) :: members, ok, unmarked, names => by
    simp only [OkMembers] at ok
    simp only [StringsMembers] at unmarked
    simp only [NamesMembers] at names
    have tail := rawMembers_nodesOf host members ok.2 unmarked.2.2 names.2.2
    simp only [nodesOf] at tail
    simp only [nodesOf, List.map_cons, toMembers, rawMembers,
      rawTree_toTree host v ok.1 unmarked.2.1 names.2.1, tail, Option.bind_some, Option.map_some]

end

/-- A record encoded as it was has no member that the raw parse takes for something else. -/
theorem namedApart_of_rawTree {host : Host} {members : Record} (sorted : Members.Sorted members)
    (unmarked : StringsMembers Unmarked members)
    (encoded : rawTree pyFloatTree host (toNode (.obj (toMembers members))) = some (.obj (toMembers members))) :
    NamedApart members ∧ rawMembers pyFloatTree host (nodesOf members) = some (toMembers members) := by
  have size : (toMembers members).length = (nodesOf members).length := by
    rw [← toOwn_toMembers members unmarked]
    have lengths (trees : List (List Piece × Tree)) : trees.length = (toOwn trees).length := by
      induction trees with
      | nil => simp [toOwn]
      | cons m trees ih =>
        obtain ⟨k, t⟩ := m
        simp [toOwn, ih]
    exact lengths _
  have members' : rawMembers pyFloatTree host (assignAll (nodesOf members)).1 = some (toMembers members) ∧
      rawNum (.obj (assignAll (nodesOf members)).1 (assignAll (nodesOf members)).2) = none := by
    simp only [toNode, toOwn_toMembers members unmarked, rawTree] at encoded
    cases number : rawNum (.obj (assignAll (nodesOf members)).1 (assignAll (nodesOf members)).2) with
    | some token =>
      rw [number] at encoded
      obtain ⟨read, same⟩ := encodeNum_num encoded
      cases same
    | none =>
      rw [number] at encoded
      obtain ⟨trees, found, same⟩ := Option.map_eq_some_iff.mp encoded
      cases same
      exact ⟨found, rfl⟩
  have ordinary : ∀ p ∈ nodesOf members, p.1 ≠ protoKey := by
    intro p member isProto
    obtain ⟨before, after, split⟩ := List.append_of_mem member
    have distinct := sorted_nodesOf sorted
    rw [Members.Sorted, split] at distinct
    obtain ⟨-, tail, across⟩ := List.pairwise_append.mp distinct
    have clearBefore : ∀ q ∈ before, q.1 ≠ protoKey :=
      fun q inside => isProto ▸ (across q inside p List.mem_cons_self).ne
    have clearAfter : ∀ q ∈ after, q.1 ≠ protoKey :=
      fun q inside => isProto ▸ ((List.pairwise_cons.mp tail).1 q inside).ne'
    have lost := @length_assignAll_lt before after p.2 clearBefore clearAfter
    rw [← isProto, Prod.mk.eta, ← split] at lost
    have kept := length_rawMembers members'.1
    omega
  rw [assignAll_ordinary ordinary, Members.ofPairs_of_sorted (sorted_nodesOf sorted)] at members'
  have noNum : ∀ p ∈ nodesOf members, p.1 ≠ numKey := by
    intro p member isNum
    have own : Members.get (nodesOf members) numKey = some p.2 :=
      Members.get_of_mem (sorted_nodesOf sorted) (isNum ▸ member)
    simp [rawNum, own] at members'
  have apart : NamedApart members := by
    intro p member
    have inside : (p.1, toNode (toTree p.2)) ∈ nodesOf members := List.mem_map_of_mem member
    exact ⟨noNum _ inside, ordinary _ inside⟩
  exact ⟨apart, members'.1⟩

mutual

theorem names_of_rawTree (host : Host) : ∀ v : Json, v.Ok host.toEngine → v.Strings Unmarked →
    rawTree pyFloatTree host (toNode (toTree v)) = some (toTree v) → v.Names Apart
  | .null, _, _, _ => by simp only [Json.Names]
  | .bool _, _, _, _ => by simp only [Json.Names]
  | .num _, _, _, _ => by simp only [Json.Names]
  | .str _, _, _, _ => by simp only [Json.Names]
  | .arr items, ok, unmarked, encoded => by
    simp only [Json.Ok] at ok
    simp only [Json.Strings] at unmarked
    simp only [toTree, toNode, rawTree] at encoded
    obtain ⟨trees, found, same⟩ := Option.map_eq_some_iff.mp encoded
    cases same
    simp only [Json.Names]
    exact names_of_rawItems host items ok unmarked found
  | .obj members, ok, unmarked, encoded => by
    simp only [Json.Ok] at ok
    simp only [Json.Strings] at unmarked
    simp only [toTree] at encoded
    obtain ⟨apart, found⟩ := namedApart_of_rawTree ok.1 unmarked encoded
    simp only [Json.Names]
    exact names_of_rawMembers host members ok.2 unmarked apart found

theorem names_of_rawItems (host : Host) : ∀ items : List Json, OkItems host.toEngine items →
    StringsItems Unmarked items →
      rawItems pyFloatTree host (toNodes (toItems items)) = some (toItems items) → NamesItems Apart items
  | [], _, _, _ => by simp only [NamesItems]
  | v :: items, ok, unmarked, encoded => by
    simp only [OkItems] at ok
    simp only [StringsItems] at unmarked
    simp only [toItems, toNodes, rawItems] at encoded
    obtain ⟨t, first, rest⟩ := Option.bind_eq_some_iff.mp encoded
    obtain ⟨others, found, same⟩ := Option.map_eq_some_iff.mp rest
    cases same
    simp only [NamesItems]
    exact ⟨names_of_rawTree host v ok.1 unmarked.1 first, names_of_rawItems host items ok.2 unmarked.2 found⟩

theorem names_of_rawMembers (host : Host) : ∀ members : Record, OkMembers host.toEngine members →
    StringsMembers Unmarked members → NamedApart members →
      rawMembers pyFloatTree host (nodesOf members) = some (toMembers members) → NamesMembers Apart members
  | [], _, _, _, _ => by simp only [NamesMembers]
  | (k, v) :: members, ok, unmarked, apart, encoded => by
    simp only [OkMembers] at ok
    simp only [StringsMembers] at unmarked
    obtain ⟨here, others⟩ := List.forall_mem_cons.mp apart
    simp only [nodesOf, List.map_cons, toMembers, rawMembers] at encoded
    obtain ⟨t, first, rest⟩ := Option.bind_eq_some_iff.mp encoded
    obtain ⟨trees, found, same⟩ := Option.map_eq_some_iff.mp rest
    cases same
    simp only [NamesMembers]
    exact ⟨here, names_of_rawTree host v ok.1 unmarked.2.1 first,
      names_of_rawMembers host members ok.2 unmarked.2.2 others found⟩

end

/-- A canonical text comes back through `parseRaw` and `canonicalRaw` exactly if no name in it
is one the raw parse reads otherwise. -/
theorem canonicalRaw_parseRaw (host : Host) {v : Json} (ok : v.Ok host.toEngine)
    (unmarked : v.Strings Unmarked) :
    (parseRaw (render (toTree v))).bind (canonicalRaw host) = some (render (toTree v)) ↔ v.Names Apart := by
  have accepted := JsonRoundTrip.parse_render strict (toTree v) ((treeOk_strict v).mpr unmarked)
  simp only [parseRaw, accepted, Option.map_some, Option.bind_some, canonicalRaw, encodeRaw_eq]
  constructor
  · intro encoded
    obtain ⟨t, found, same⟩ := Option.map_eq_some_iff.mp encoded
    have equal : t = toTree v :=
      JsonRoundTrip.render_injective loose (treeOk_raw host _ t found) (treeOk_loose v) same
    exact names_of_rawTree host v ok unmarked (equal ▸ found)
  · intro names
    rw [rawTree_toTree host v ok unmarked names]
    rfl

end Tesera.TypeScript.RawTree
