import Tesera.TypeScript.SameBytes

/-!
What the digest of a line covers. The verifiers hash the encoding of the raw parse, and check the fields
of what `JSON.parse` makes of the line. An object with a member `$num` or `__proto__` is encoded otherwise
than `JSON.parse` reads it; the encoding determines everything else.
-/

namespace Tesera.TypeScript.Covered
open Tesera.Text Tesera.Text.Unicode Tesera.Text.Number Tesera.Text.Decimal Tesera.Text.Json
open Tesera.Text.JsonRoundTrip (TreeOk ItemsOk MembersOk PiecesOk)
open Tesera.TypeScript.Value Tesera.TypeScript.Escape Tesera.TypeScript.Canonical Tesera.TypeScript.RawTree
open Tesera.TypeScript.FileJournal (bufferOf deleteSeal hashedText unsignedText trim)

/-! ## Events by value -/

/-- Zero without its sign. -/
def plainDec (d : Dec) : Dec := if d.digits = [] then { d with neg := false } else d

def plainNumber : Double → Double
  | .finite d => .finite (plainDec d)
  | x => x

mutual

/-- A value whose numbers are compared by value. -/
def byValue : Json → Json
  | .null => .null
  | .bool b => .bool b
  | .num x => .num (plainNumber x)
  | .str s => .str s
  | .arr items => .arr (byValueItems items)
  | .obj members => .obj (byValueMembers members)

def byValueItems : List Json → List Json
  | [] => []
  | v :: items => byValue v :: byValueItems items

def byValueMembers : Record → Record
  | [] => []
  | (k, v) :: members => (k, byValue v) :: byValueMembers members

end

def unsealed (key : Str) : Bool := decide (key ≠ lit "event_hash" ∧ key ≠ lit "signature")

/-- A value without the members `event_hash` and `signature`. -/
def removeSeal : Json → Json
  | .obj members => .obj (members.filter (fun member => unsealed member.1))
  | v => v

/-- The event of what `JSON.parse` makes of a line: without its hash and signature, its numbers by value. -/
def event (value : Json) : Json := byValue (removeSeal value)

/-- No name that the raw parse reads otherwise. -/
def ordinary (members : Record) : Bool := members.all (fun member => decide (Apart member.1))

/-- The object with a member `$num` or `__proto__` that stands at a place of a value, within no other such
object. A place is the positions of items and members on the way to it. -/
def escapeAt : List Nat → Json → Option Json
  | [], .obj members => if ordinary members then none else some (.obj members)
  | n :: path, .obj members => if ordinary members then (members[n]?).bind (fun member => escapeAt path member.2) else none
  | n :: path, .arr items => (items[n]?).bind (escapeAt path)
  | _, _ => none

/-! ## The two verifiers -/

/-- What is hashed of a tree, where `encodeRaw` is its encoding: an integer `$num` that is no string is
returned as it is, and `update` refuses it. -/
def hashedBy (pyFloat : Double → Option Tree) (host : Host) (tree : Node) : Option Str :=
  match rawNum tree with
  | some (.str _) => encodeRaw pyFloat host tree
  | some token => if ((host.string token).bind intToken).isSome then none else encodeRaw pyFloat host tree
  | none => encodeRaw pyFloat host tree

inductive Verifier where
  | typeScript
  | node

def Verifier.pyFloat : Verifier → Double → Option Tree
  | .typeScript => pyFloatTree
  | .node => Node.Canonical.pyFloat

/-- The bytes a verifier hashes of a line; none where the line is refused. -/
def hashedBytes (verifier : Verifier) (host : Host) (line : Str) : Option Bytes :=
  ((parseRaw line).bind (fun tree => (deleteSeal tree).bind (hashedBy verifier.pyFloat host))).map bufferOf

/-- A line that the parsers accept, and the value that `JSON.parse` makes of it, whose strings are of code units. -/
structure Accepted (host : Host) (line : Str) (value : Json) : Prop where
  parsed : parseJson host.toEngine line = some value
  units : value.Strings Units

/-- `digestOfUnsigned` hashes these bytes of the line without its outer whitespace. -/
theorem hashedBytes_typeScript (host : Host) (rawLine : Str) :
    hashedBytes .typeScript host (trim rawLine) = (unsignedText host rawLine).map bufferOf := rfl

/-! ## Strings come back -/

def pieceUnits (p : Piece) : Str :=
  match p with
  | .lit c => [c]
  | .esc c => [c]
  | .odd c => markOf c

/-- The string that `escapePieces` spells. -/
def unfuse (pieces : List Piece) : Str := pieces.flatMap pieceUnits

theorem unfuse_lits (word : Str) : unfuse (word.map Piece.lit) = word := by
  rw [unfuse, List.flatMap_map]
  exact List.flatMap_singleton' word

theorem unfuse_fuse {separator : Nat} (pieces : List Piece) :
    ∀ skip, unfuse (fuse separator skip pieces) = unfuse (pieces.drop skip) := by
  induction pieces with
  | nil =>
    intro skip
    cases skip <;> rfl
  | cons p pieces ih =>
    intro skip
    cases skip with
    | succ skip =>
      rw [fuse, List.drop_succ_cons]
      exact ih skip
    | zero =>
      rw [fuse, List.drop_zero]
      by_cases met : meets separator p pieces = true
      · rw [if_pos met]
        rw [meets, Bool.and_eq_true, decide_eq_true_iff] at met
        obtain ⟨rest, shape⟩ := List.isPrefixOf_iff_prefix.mp met.2
        have five : pieces.drop 5 = rest := by
          rw [← shape]
          exact List.drop_left' (by rw [List.length_map]; unfold lettersOf; split_ifs <;> rfl)
        calc unfuse (.odd separator :: fuse separator 5 pieces)
            = markOf separator ++ unfuse (fuse separator 5 pieces) := List.flatMap_cons
          _ = 92 :: (lettersOf separator ++ unfuse rest) := by rw [ih 5, five]; rfl
          _ = unfuse (.esc 92 :: pieces) := by
              rw [← shape]
              simp only [unfuse, List.flatMap_cons, List.flatMap_append, pieceUnits, List.singleton_append]
              rw [← unfuse, ← unfuse, unfuse_lits]
          _ = unfuse (p :: pieces) := by rw [met.1]
      · have tail := ih 0
        rw [List.drop_zero] at tail
        rw [if_neg met]
        simp only [unfuse, List.flatMap_cons] at tail ⊢
        rw [tail]

/-- The string of the pieces that `escapeString` writes. -/
theorem unfuse_escapePieces (value : Str) : unfuse (escapePieces value) = value := by
  have spelt : ∀ {s : Str} {pieces : List Piece}, List.Forall₂ Spells s pieces → unfuse pieces = s := by
    intro s pieces both
    induction both with
    | nil => rfl
    | @cons u p s pieces head tail ih =>
      have units : pieceUnits p = [u] := by
        obtain same | same := head.choice
        · rw [same]
          rfl
        · rw [same]
          rfl
      rw [unfuse, List.flatMap_cons, units, ← unfuse, ih]
      rfl
  rw [escapePieces, unfuse_fuse, List.drop_zero, unfuse_fuse, List.drop_zero]
  exact spelt (spells_stringify value)

/-! ## Reading the encoding -/

/-- The number of a token in the encoding. -/
def tokenNumber (engine : Engine) (token : Token) : Double :=
  plainNumber (if token.IsInt then engine.number token else .finite (decOf token))

def constNumber : Const → Double
  | .nan => .nan
  | .infinity => .infinite false
  | .negInfinity => .infinite true

mutual

/-- The value that the encoding of a value without such objects has. -/
def readTree (engine : Engine) : Tree → Json
  | .null => .null
  | .bool b => .bool b
  | .const c => .num (constNumber c)
  | .num token => .num (tokenNumber engine token)
  | .str pieces => .str (unfuse pieces)
  | .arr items => .arr (readItems engine items)
  | .obj members => .obj (readMembers engine members)

def readItems (engine : Engine) : List Tree → List Json
  | [] => []
  | t :: items => readTree engine t :: readItems engine items

def readMembers (engine : Engine) : List (List Piece × Tree) → Record
  | [] => []
  | (k, t) :: members => (unfuse k, readTree engine t) :: readMembers engine members

end

mutual

/-- A value is another with something else for each object with a member `$num` or `__proto__`. -/
def Erases : Json → Json → Prop
  | .null, w => w = .null
  | .bool b, w => w = .bool b
  | .num x, w => w = .num x
  | .str s, w => w = .str s
  | .arr items, w => ∃ others, w = .arr others ∧ ErasesItems items others
  | .obj members, w => ordinary members = true → ∃ others, w = .obj others ∧ ErasesMembers members others

def ErasesItems : List Json → List Json → Prop
  | [], others => others = []
  | v :: items, others => ∃ w rest, others = w :: rest ∧ Erases v w ∧ ErasesItems items rest

def ErasesMembers : Record → Record → Prop
  | [], others => others = []
  | (k, v) :: members, others => ∃ w rest, others = (k, w) :: rest ∧ Erases v w ∧ ErasesMembers members rest

end

/-- An object with such a member is found at its own place. -/
theorem escapeAt_nil {v w : Json} (found : escapeAt [] v = some w) : v = w := by
  cases v with
  | obj members =>
    rw [escapeAt] at found
    split_ifs at found
    exact Option.some.inj found
  | null => cases found
  | bool b => cases found
  | num x => cases found
  | str s => cases found
  | arr items => cases found

/-- What a value that is no such object itself is, read off the value with something else for those in it. -/
def Shaped (v : Json) : Json → Prop
  | .arr others => ∃ items, v = .arr items ∧ ErasesItems items others
  | .obj others => ∃ members, v = .obj members ∧ ordinary members = true ∧ ErasesMembers members others
  | w => v = w

theorem shaped_of_erases {v w : Json} (clear : escapeAt [] v = none) (erases : Erases v w) : Shaped v w := by
  cases v with
  | null =>
    rw [Erases] at erases
    rw [erases]
    exact rfl
  | bool b =>
    rw [Erases] at erases
    rw [erases]
    exact rfl
  | num x =>
    rw [Erases] at erases
    rw [erases]
    exact rfl
  | str s =>
    rw [Erases] at erases
    rw [erases]
    exact rfl
  | arr items =>
    rw [Erases] at erases
    obtain ⟨others, same, inner⟩ := erases
    rw [same]
    exact ⟨items, rfl, inner⟩
  | obj members =>
    rw [escapeAt] at clear
    split_ifs at clear with plain
    rw [Erases] at erases
    obtain ⟨others, same, inner⟩ := erases plain
    rw [same]
    exact ⟨members, rfl, plain, inner⟩

mutual

/-- Two values are equal where they are alike with those objects left out and have the same at the same places. -/
theorem eq_of_erases : ∀ v other w : Json, Erases v w → Erases other w → (∀ path, escapeAt path v = escapeAt path other) →
    v = other := by
  intro v other w left right places
  cases found : escapeAt [] v with
  | some whole =>
    have second := places [] ▸ found
    rw [escapeAt_nil found, escapeAt_nil second]
  | none =>
    have shape := shaped_of_erases (places [] ▸ found) right
    cases v with
    | null =>
      rw [Erases] at left
      rw [left] at shape
      exact shape.symm
    | bool b =>
      rw [Erases] at left
      rw [left] at shape
      exact shape.symm
    | num x =>
      rw [Erases] at left
      rw [left] at shape
      exact shape.symm
    | str s =>
      rw [Erases] at left
      rw [left] at shape
      exact shape.symm
    | arr items =>
      rw [Erases] at left
      obtain ⟨others, same, inner⟩ := left
      rw [same] at shape
      obtain ⟨items', rfl, inner'⟩ := shape
      rw [eq_of_erasesItems items items' others inner inner' (fun n path => places (n :: path))]
    | obj members =>
      rw [escapeAt] at found
      split_ifs at found with plain
      rw [Erases] at left
      obtain ⟨others, same, inner⟩ := left plain
      rw [same] at shape
      obtain ⟨members', rfl, plain', inner'⟩ := shape
      have each : ∀ (n : Nat) (path : List Nat), (members[n]?).bind (fun member : Str × Json => escapeAt path member.2) =
          (members'[n]?).bind (fun member : Str × Json => escapeAt path member.2) := by
        intro n path
        have here := places (n :: path)
        rwa [escapeAt, escapeAt, if_pos plain, if_pos plain'] at here
      rw [eq_of_erasesMembers members members' others inner inner' each]

theorem eq_of_erasesItems : ∀ (items items' others : List Json), ErasesItems items others → ErasesItems items' others →
    (∀ (n : Nat) (path : List Nat), (items[n]?).bind (escapeAt path) = (items'[n]?).bind (escapeAt path)) → items = items' := by
  intro items items' others left right places
  cases items with
  | nil =>
    rw [ErasesItems] at left
    rw [left] at right
    cases items' with
    | nil => rfl
    | cons v items' =>
      rw [ErasesItems] at right
      obtain ⟨w, rest, same, -⟩ := right
      cases same
  | cons v items =>
    rw [ErasesItems] at left
    obtain ⟨w, rest, same, first, later⟩ := left
    rw [same] at right
    cases items' with
    | nil =>
      rw [ErasesItems] at right
      cases right
    | cons v' items' =>
      rw [ErasesItems] at right
      obtain ⟨w', rest', same', first', later'⟩ := right
      cases same'
      have tail := eq_of_erasesItems items items' rest later later' (fun n path => places (n + 1) path)
      have head := eq_of_erases v v' w first first' (fun path => places 0 path)
      rw [head, tail]

theorem eq_of_erasesMembers : ∀ (members members' others : Record), ErasesMembers members others → ErasesMembers members' others →
    (∀ (n : Nat) (path : List Nat), (members[n]?).bind (fun member : Str × Json => escapeAt path member.2) =
      (members'[n]?).bind (fun member : Str × Json => escapeAt path member.2)) → members = members' := by
  intro members members' others left right places
  cases members with
  | nil =>
    rw [ErasesMembers] at left
    rw [left] at right
    cases members' with
    | nil => rfl
    | cons member members' =>
      obtain ⟨k, v⟩ := member
      rw [ErasesMembers] at right
      obtain ⟨w, rest, same, -⟩ := right
      cases same
  | cons member members =>
    obtain ⟨k, v⟩ := member
    rw [ErasesMembers] at left
    obtain ⟨w, rest, same, first, later⟩ := left
    rw [same] at right
    cases members' with
    | nil =>
      rw [ErasesMembers] at right
      cases right
    | cons member' members' =>
      obtain ⟨k', v'⟩ := member'
      rw [ErasesMembers] at right
      obtain ⟨w', rest', same', first', later'⟩ := right
      cases same'
      have tail := eq_of_erasesMembers members members' rest later later' (fun n path => places (n + 1) path)
      have head := eq_of_erases v v' w first first' (fun path => places 0 path)
      rw [head, tail]

end

/-! ## Numbers in the encoding -/

/-- An encoder spells a finite number by a token of it, up to the sign of zero, and other numbers by their names. -/
structure Writes (pyFloat : Double → Option Tree) : Prop where
  finite : ∀ {d t}, pyFloat (.finite d) = some t →
    ∃ token, t = .num token ∧ plainDec (decOf token) = plainDec d ∧ (token.IsInt → decOf token = d)
  other : ∀ {x t}, pyFloat x = some t → (∀ d, x ≠ .finite d) → ∃ c, t = .const c ∧ constNumber c = x

theorem writes_typeScript : Writes pyFloatTree where
  finite := by
    intro d t spelt
    rw [pyFloatTree, pyFloat, Option.map_some] at spelt
    refine ⟨floatToken d, (Option.some.inj spelt).symm, ?_, fun _ => decOf_floatToken d⟩
    rw [decOf_floatToken]
  other := by
    intro x t spelt infinite
    cases x with
    | finite d => exact absurd rfl (infinite d)
    | nan => cases spelt
    | infinite neg => cases spelt

/-- The verifier for Node spells every number but -0 exactly. -/
theorem decOf_node {d : Dec} (nonzero : d.digits ≠ []) : decOf (Node.Canonical.floatToken d) = d := by
  rw [Node.Canonical.floatToken, Node.Canonical.template_of_nonzero nonzero]
  by_cases whole : isInteger d = true ∧ d.point ≤ 16
  · have outside : (d.digits.length : Int) ≤ d.point := decide_eq_true_iff.mp whole.1
    have positive := List.length_pos_of_ne_nil nonzero
    rw [if_pos whole, numberToken, if_pos (by omega), FloatTokens.positional_with_frac whole.1]
    exact decOf_positional d (some Digits.zero) 1 rfl
  · rw [if_neg whole, numberToken]
    by_cases plain : -6 < d.point ∧ d.point ≤ 21
    · rw [if_pos plain, Node.Canonical.respell_of_plain (FloatTokens.exp_positional d none)]
      exact decOf_positional d none 0 rfl
    · rw [if_neg plain, FloatTokens.respell_scientific nonzero]
      exact decOf_scientific d (some Digits.zero) 2 1 rfl

theorem writes_node : Writes Node.Canonical.pyFloat where
  finite := by
    intro d t spelt
    rw [Node.Canonical.pyFloat] at spelt
    refine ⟨Node.Canonical.floatToken d, (Option.some.inj spelt).symm, ?_⟩
    by_cases zero : d.digits = []
    · rw [FloatTokens.node_zero zero]
      constructor
      · have point := d.zero zero
        rw [plainDec, plainDec, if_pos zero]
        apply Dec.ext_fields
        · rfl
        · exact zero.symm
        · exact point.symm
      · intro int
        cases int.1
    · rw [decOf_node zero]
      exact ⟨rfl, fun _ => rfl⟩
  other := by
    intro x t spelt infinite
    cases x with
    | finite d => exact absurd rfl (infinite d)
    | nan => exact ⟨.nan, (Option.some.inj spelt).symm, rfl⟩
    | infinite neg =>
      cases neg with
      | false => exact ⟨.infinity, (Option.some.inj spelt).symm, rfl⟩
      | true => exact ⟨.negInfinity, (Option.some.inj spelt).symm, rfl⟩

theorem writes_pyFloat (verifier : Verifier) : Writes verifier.pyFloat := by
  cases verifier with
  | typeScript => exact writes_typeScript
  | node => exact writes_node

section Encoding

variable {pyFloat : Double → Option Tree} {host : Host}

/-- A number's encoding reads back as the number. -/
theorem readTree_encodeNum (writes : Writes pyFloat) {token : Token} {t : Tree}
    (encoded : encodeNum pyFloat host (.str token.text) = some t) :
    readTree host.toEngine t = .num (plainNumber (host.toEngine.number token)) := by
  have read := lexNumber_text token tokenEnd_nil
  rw [List.append_nil] at read
  simp only [encodeNum, Host.string, Option.bind_some, intToken_text, Host.numberValue, read] at encoded
  by_cases int : token.IsInt
  · rw [if_pos int] at encoded
    rw [← Option.some.inj encoded, readTree, tokenNumber, if_pos int]
  · rw [if_neg int] at encoded
    cases double : host.double (decOf token) with
    | some d =>
      have number : host.toEngine.number token = .finite d := by rw [Engine.number, double]
      rw [number] at encoded ⊢
      obtain ⟨written, rfl, value, whole⟩ := writes.finite encoded
      rw [readTree, tokenNumber]
      by_cases shaped : written.IsInt
      · rw [if_pos shaped, Engine.number, whole shaped, host.double_double double]
      · rw [if_neg shaped, plainNumber, plainNumber, value]
    | none =>
      have number : host.toEngine.number token = .infinite token.neg := by rw [Engine.number, double]
      rw [number] at encoded ⊢
      obtain ⟨c, rfl, same⟩ := writes.other encoded (fun d same => by cases same)
      rw [readTree, same]
      rfl

end Encoding

/-! ## Trees -/

/-- The members that are left of an object's, the last of each name, with their trees. -/
def base (members : List (List Piece × Tree)) : Members.Entries Str Tree :=
  Members.ofPairs (members.map (fun member => (unitsOfPieces member.1, member.2)))

theorem ofPairs_map {α β : Type} (f : α → β) (pairs : List (Str × α)) :
    Members.ofPairs (pairs.map (fun pair => (pair.1, f pair.2))) = (Members.ofPairs pairs).map (fun pair => (pair.1, f pair.2)) := by
  apply Members.ext_get (Members.sorted_ofPairs _)
  · exact List.pairwise_map.mpr (Members.sorted_ofPairs pairs)
  · intro key
    rw [Members.get_ofPairs, Members.get_map, Members.get_ofPairs]
    induction pairs with
    | nil => rfl
    | cons pair pairs ih =>
      rw [List.map_cons, Members.last, Members.last, ih]
      split_ifs <;> cases Members.last pairs key <;> rfl

theorem ofMembers_base (engine : Engine) (members : List (List Piece × Tree)) :
    Members.ofPairs (ofMembers engine members) = (base members).map (fun member => (member.1, ofTree engine member.2)) := by
  have pairs : ofMembers engine members =
      (members.map (fun member => (unitsOfPieces member.1, member.2))).map (fun member => (member.1, ofTree engine member.2)) := by
    induction members with
    | nil => simp only [ofMembers, List.map_nil]
    | cons member members ih =>
      obtain ⟨k, t⟩ := member
      simp only [ofMembers, List.map_cons, ih]
  rw [pairs, ofPairs_map, base]

theorem toOwn_base (members : List (List Piece × Tree)) :
    Members.ofPairs (toOwn members) = (base members).map (fun member => (member.1, toNode member.2)) := by
  have pairs : toOwn members =
      (members.map (fun member => (unitsOfPieces member.1, member.2))).map (fun member => (member.1, toNode member.2)) := by
    induction members with
    | nil => simp only [toOwn, List.map_nil]
    | cons member members ih =>
      obtain ⟨k, t⟩ := member
      simp only [toOwn, List.map_cons, ih]
  rw [pairs, ofPairs_map, base]

theorem mem_base {members : List (List Piece × Tree)} {entry : Str × Tree} (member : entry ∈ base members) :
    ∃ source ∈ members, entry = (unitsOfPieces source.1, source.2) := by
  obtain ⟨source, inside, same⟩ := List.mem_map.mp (Members.mem_ofPairs member)
  exact ⟨source, inside, same.symm⟩

theorem keys_toOwn {members : List (List Piece × Tree)} {key : Str} :
    key ∈ (toOwn members).map Prod.fst ↔ key ∈ (base members).map Prod.fst := by
  rw [← Members.mem_keys_ofPairs, toOwn_base, List.map_map]
  rfl

/-- Without a member `__proto__` the node has the members that are left. -/
theorem toNode_base {members : List (List Piece × Tree)} (plain : ∀ entry ∈ base members, entry.1 ≠ protoKey) :
    toNode (.obj members) = .obj ((base members).map (fun member => (member.1, toNode member.2))) none := by
  have clear : ∀ p ∈ toOwn members, p.1 ≠ protoKey := by
    intro p member same
    obtain ⟨entry, inside, here⟩ := List.mem_map.mp (keys_toOwn.mp (List.mem_map_of_mem (f := Prod.fst) member))
    exact plain entry inside (here.trans same)
  rw [toNode, assignAll_ordinary clear, toOwn_base]

theorem byValueMembers_eq (members : Record) : byValueMembers members = members.map (fun member => (member.1, byValue member.2)) := by
  induction members with
  | nil => rw [byValueMembers, List.map_nil]
  | cons member members ih =>
    obtain ⟨k, v⟩ := member
    rw [byValueMembers, ih, List.map_cons]

/-- The members of an object's value, by value. -/
def eventMembers (engine : Engine) (entries : Members.Entries Str Tree) : Record :=
  entries.map (fun entry => (entry.1, byValue (ofTree engine entry.2)))

theorem byValue_obj (engine : Engine) (members : List (List Piece × Tree)) :
    byValue (ofTree engine (.obj members)) = .obj (eventMembers engine (base members)) := by
  rw [ofTree, byValue, byValueMembers_eq, ofMembers_base, List.map_map]
  rfl

theorem ordinary_eventMembers {engine : Engine} {entries : Members.Entries Str Tree} :
    ordinary (eventMembers engine entries) = true ↔ ∀ entry ∈ entries, Apart entry.1 := by
  simp [ordinary, eventMembers]

section Walk

variable {pyFloat : Double → Option Tree} {host : Host}

/-- The encoding of a tree is that of its value, but for the objects that are read otherwise. -/
def Erased (pyFloat : Double → Option Tree) (host : Host) (t : Tree) : Prop :=
  ∀ r, rawTree pyFloat host (toNode t) = some r → Erases (byValue (ofTree host.toEngine t)) (readTree host.toEngine r)

theorem erases_members {entries : Members.Entries Str Tree} (each : ∀ entry ∈ entries, Erased pyFloat host entry.2) :
    ∀ {trees}, rawMembers pyFloat host (entries.map (fun entry => (entry.1, toNode entry.2))) = some trees →
      ErasesMembers (eventMembers host.toEngine entries) (readMembers host.toEngine trees) := by
  induction entries with
  | nil =>
    intro trees found
    rw [List.map_nil, rawMembers] at found
    rw [← Option.some.inj found, readMembers, eventMembers, List.map_nil, ErasesMembers]
  | cons entry entries ih =>
    intro trees found
    obtain ⟨k, t⟩ := entry
    rw [List.map_cons, rawMembers] at found
    obtain ⟨r, first, rest⟩ := Option.bind_eq_some_iff.mp found
    obtain ⟨others, later, same⟩ := Option.map_eq_some_iff.mp rest
    rw [← same, readMembers, unfuse_escapePieces, eventMembers, List.map_cons, ErasesMembers]
    have tail := ih (fun entry member => each entry (List.mem_cons_of_mem _ member)) later
    exact ⟨_, _, rfl, each (k, t) List.mem_cons_self r first, tail⟩

/-- An object without such names is encoded as one with its members. -/
theorem erases_object {entries : Members.Entries Str Tree} (each : ∀ entry ∈ entries, Erased pyFloat host entry.2)
    (plain : ∀ entry ∈ entries, Apart entry.1) {r : Tree}
    (found : rawTree pyFloat host (.obj (entries.map (fun entry => (entry.1, toNode entry.2))) none) = some r) :
    ∃ others, readTree host.toEngine r = .obj others ∧ ErasesMembers (eventMembers host.toEngine entries) others := by
  have clear : ∀ p ∈ entries.map (fun entry => (entry.1, toNode entry.2)), p.1 ≠ numKey := by
    intro p member
    obtain ⟨entry, inside, same⟩ := List.mem_map.mp member
    rw [← same]
    exact (plain entry inside).1
  have number : rawNum (.obj (entries.map (fun entry => (entry.1, toNode entry.2))) none) = none := by
    rw [rawNum, get_eq_none_of_not_mem clear]
    rfl
  rw [rawTree, number] at found
  obtain ⟨trees, inner, same⟩ := Option.map_eq_some_iff.mp found
  rw [← same, readTree]
  exact ⟨_, rfl, erases_members each inner⟩

mutual

theorem erased_tree (writes : Writes pyFloat) : ∀ t : Tree, Erased pyFloat host t
  | .null => by
      intro r found
      rw [toNode, rawTree] at found
      rw [← Option.some.inj found, ofTree, byValue, readTree, Erases]
  | .bool b => by
      intro r found
      rw [toNode, rawTree] at found
      rw [← Option.some.inj found, ofTree, byValue, readTree, Erases]
  | .const c => by
      intro r found
      rw [toNode, rawTree] at found
      rw [← Option.some.inj found, ofTree, byValue, readTree, Erases]
  | .num token => by
      intro r found
      rw [toNode, rawTree] at found
      rw [readTree_encodeNum writes found, ofTree, byValue, Erases]
  | .str pieces => by
      intro r found
      rw [toNode, rawTree] at found
      rw [← Option.some.inj found, ofTree, byValue, readTree, unfuse_escapePieces, Erases]
  | .arr items => by
      intro r found
      rw [toNode, rawTree] at found
      obtain ⟨trees, inner, same⟩ := Option.map_eq_some_iff.mp found
      rw [← same, ofTree, byValue, readTree, Erases]
      exact ⟨_, rfl, erased_items writes items trees inner⟩
  | .obj members => by
      intro r found
      rw [byValue_obj, Erases]
      intro plain
      rw [ordinary_eventMembers] at plain
      rw [toNode_base (fun entry member => (plain entry member).2)] at found
      apply erases_object _ plain found
      intro entry member
      obtain ⟨source, inside, same⟩ := mem_base member
      rw [same]
      exact erased_members writes members source inside

theorem erased_items (writes : Writes pyFloat) : ∀ (items trees : List Tree), rawItems pyFloat host (toNodes items) = some trees →
    ErasesItems (byValueItems (ofItems host.toEngine items)) (readItems host.toEngine trees)
  | [], trees, found => by
      rw [toNodes, rawItems] at found
      rw [← Option.some.inj found, ofItems, byValueItems, readItems, ErasesItems]
  | t :: items, trees, found => by
      rw [toNodes, rawItems] at found
      obtain ⟨r, first, rest⟩ := Option.bind_eq_some_iff.mp found
      obtain ⟨others, later, same⟩ := Option.map_eq_some_iff.mp rest
      rw [← same, ofItems, byValueItems, readItems, ErasesItems]
      exact ⟨_, _, rfl, erased_tree writes t r first, erased_items writes items others later⟩

theorem erased_members (writes : Writes pyFloat) : ∀ (members : List (List Piece × Tree)), ∀ member ∈ members,
    Erased pyFloat host member.2
  | [] => List.forall_mem_nil _
  | (_, t) :: members => List.forall_mem_cons.mpr ⟨erased_tree writes t, erased_members writes members⟩

end

end Walk

/-! ## The hashed text -/

/-- The grammar of what both verifiers write. -/
def wide : Dialect where
  consts := true
  odd := fun c => c == 0x2028 || c == 0x2029
  token := fun _ => true

theorem piecesOk_wide (value : Str) : PiecesOk wide (escapePieces value) := by
  intro p member
  have ok := piecesOk_loose value p member
  cases p with
  | lit c => exact ok
  | esc c => exact ok
  | odd c => exact ok

mutual

/-- Every string of a node has a property, its names included. -/
def NodeStrings (P : Str → Prop) : Node → Prop
  | .str s => P s
  | .arr items => NodeStringsItems P items
  | .obj own _ => NodeStringsOwn P own
  | _ => True

def NodeStringsItems (P : Str → Prop) : List Node → Prop
  | [] => True
  | node :: items => NodeStrings P node ∧ NodeStringsItems P items

def NodeStringsOwn (P : Str → Prop) : Own → Prop
  | [] => True
  | (k, node) :: own => P k ∧ NodeStrings P node ∧ NodeStringsOwn P own

end

/-- A tree that both grammars write, of which the text is well formed. -/
def Spelled (t : Tree) : Prop := TreeOk wide t ∧ WellFormed (render t)

section Spelling

variable {pyFloat : Double → Option Tree} {host : Host}

theorem spelled_num (token : Token) : Spelled (.num token) := by
  constructor
  · rw [TreeOk]
    rfl
  · rw [render]
    exact wellFormed_low (JsonChars.every_token (fun c _ high => by omega) token)

theorem spelled_const (c : Const) : Spelled (.const c) := by
  constructor
  · rw [TreeOk]
    rfl
  · rw [render]
    apply wellFormed_low
    cases c <;> decide

theorem spelled_encodeNum (writes : Writes pyFloat) {token : Node} {t : Tree} (encoded : encodeNum pyFloat host token = some t) :
    Spelled t := by
  obtain ⟨text, -, rest⟩ := Option.bind_eq_some_iff.mp encoded
  cases found : intToken text with
  | some read =>
    rw [found] at rest
    rw [← Option.some.inj rest]
    exact spelled_num read
  | none =>
    rw [found] at rest
    obtain ⟨x, -, written⟩ := Option.bind_eq_some_iff.mp rest
    by_cases finite : ∃ d, x = .finite d
    · obtain ⟨d, rfl⟩ := finite
      obtain ⟨spelt, rfl, -⟩ := writes.finite written
      exact spelled_num spelt
    · obtain ⟨c, rfl, -⟩ := writes.other written (fun d same => finite ⟨d, same⟩)
      exact spelled_const c

mutual

theorem spelled_rawTree (writes : Writes pyFloat) : ∀ (node : Node) (t : Tree), NodeStrings Units node →
    rawTree pyFloat host node = some t → Spelled t
  | .null, t, _, found => by
      rw [rawTree] at found
      rw [← Option.some.inj found, Spelled, TreeOk, ← lit_null]
      exact ⟨trivial, wellFormed_low (by decide)⟩
  | .bool b, t, _, found => by
      rw [rawTree] at found
      rw [← Option.some.inj found, Spelled, TreeOk]
      cases b with
      | false =>
        rw [← lit_false]
        exact ⟨trivial, wellFormed_low (by decide)⟩
      | true =>
        rw [← lit_true]
        exact ⟨trivial, wellFormed_low (by decide)⟩
  | .str s, t, units, found => by
      rw [rawTree] at found
      rw [NodeStrings] at units
      rw [← Option.some.inj found, Spelled, TreeOk, render, ← escapeString_eq]
      exact ⟨piecesOk_wide s, SameBytes.wellFormed_escapeString units⟩
  | .num token, t, _, found => by
      rw [rawTree] at found
      exact spelled_encodeNum writes found
  | .arr items, t, units, found => by
      rw [rawTree] at found
      rw [NodeStrings] at units
      obtain ⟨trees, inner, same⟩ := Option.map_eq_some_iff.mp found
      obtain ⟨ok, texts⟩ := spelled_rawItems writes items trees units inner
      rw [← same, Spelled, TreeOk, render_arr]
      exact ⟨ok, wellFormed_bracketed texts (by decide) (by decide)⟩
  | .obj own prototype, t, units, found => by
      rw [NodeStrings] at units
      cases number : rawNum (.obj own prototype) with
      | some token =>
        rw [rawTree, number] at found
        exact spelled_encodeNum writes found
      | none =>
        rw [rawTree, number] at found
        obtain ⟨trees, inner, same⟩ := Option.map_eq_some_iff.mp found
        obtain ⟨ok, texts⟩ := spelled_rawMembers writes own trees units inner
        rw [← same, Spelled, TreeOk, render_obj]
        exact ⟨ok, wellFormed_bracketed texts (by decide) (by decide)⟩

theorem spelled_rawItems (writes : Writes pyFloat) : ∀ (items : List Node) (trees : List Tree), NodeStringsItems Units items →
    rawItems pyFloat host items = some trees → ItemsOk wide trees ∧ ∀ text ∈ trees.map render, WellFormed text
  | [], trees, _, found => by
      rw [rawItems] at found
      rw [← Option.some.inj found, ItemsOk]
      exact ⟨trivial, List.forall_mem_nil _⟩
  | node :: items, trees, units, found => by
      rw [rawItems] at found
      rw [NodeStringsItems] at units
      obtain ⟨t, first, rest⟩ := Option.bind_eq_some_iff.mp found
      obtain ⟨others, later, same⟩ := Option.map_eq_some_iff.mp rest
      have head := spelled_rawTree writes node t units.1 first
      have tail := spelled_rawItems writes items others units.2 later
      rw [← same, ItemsOk, List.map_cons, List.forall_mem_cons]
      exact ⟨⟨head.1, tail.1⟩, head.2, tail.2⟩

theorem spelled_rawMembers (writes : Writes pyFloat) : ∀ (own : Own) (trees : List (List Piece × Tree)), NodeStringsOwn Units own →
    rawMembers pyFloat host own = some trees → MembersOk wide trees ∧ ∀ text ∈ trees.map renderMember, WellFormed text
  | [], trees, _, found => by
      rw [rawMembers] at found
      rw [← Option.some.inj found, MembersOk]
      exact ⟨trivial, List.forall_mem_nil _⟩
  | (k, node) :: own, trees, units, found => by
      rw [rawMembers] at found
      rw [NodeStringsOwn] at units
      obtain ⟨t, first, rest⟩ := Option.bind_eq_some_iff.mp found
      obtain ⟨others, later, same⟩ := Option.map_eq_some_iff.mp rest
      have head := spelled_rawTree writes node t units.2.1 first
      have tail := spelled_rawMembers writes own others units.2.2 later
      have name : WellFormed (quote (escapePieces k)) := by
        rw [← escapeString_eq]
        exact SameBytes.wellFormed_escapeString units.1
      rw [← same, MembersOk, List.map_cons, List.forall_mem_cons, renderMember]
      refine ⟨⟨piecesOk_wide k, head.1, tail.1⟩, ?_, tail.2⟩
      exact wellFormed_append name (wellFormed_append (a := [58]) (wellFormed_low (by simp)) head.2)

end

end Spelling

/-! ## The strings of a node -/

theorem nodeStringsOwn_iff {P : Str → Prop} {own : Own} :
    NodeStringsOwn P own ↔ ∀ p ∈ own, P p.1 ∧ NodeStrings P p.2 := by
  induction own with
  | nil => simp [NodeStringsOwn]
  | cons p own ih =>
    obtain ⟨k, node⟩ := p
    simp only [NodeStringsOwn, List.forall_mem_cons, ih, and_assoc]

theorem get_assign {own all : Own} {prototype : Option Node} {key : Str} {value : Node} (sorted : Members.Sorted own)
    (among : ∀ k v, Members.get own k = some v → Members.get all k = some v) :
    Members.Sorted (assign own prototype key value).1 ∧
      ∀ k v, Members.get (assign own prototype key value).1 k = some v → Members.get (Members.put key value all) k = some v := by
  by_cases accessor : key = protoKey ∧ reachesAccessor (.obj own prototype) = true
  · rw [assign, if_pos accessor]
    refine ⟨sorted, ?_⟩
    intro k v found
    have absent : Members.get own protoKey = none := by
      have both := accessor.2
      rw [reachesAccessor, Bool.and_eq_true, Option.isNone_iff_eq_none] at both
      exact both.1
    have other : k ≠ key := by
      intro same
      rw [same, accessor.1, absent] at found
      cases found
    rw [Members.get_put_of_ne other]
    exact among k v found
  · rw [assign, if_neg accessor]
    refine ⟨Members.sorted_put sorted key value, ?_⟩
    intro k v found
    by_cases same : k = key
    · rw [same, Members.get_put_self] at found ⊢
      exact found
    · rw [Members.get_put_of_ne same] at found ⊢
      exact among k v found

/-- Whatever becomes of a member `__proto__`, an object's own members are among those assigned last. -/
theorem mem_assignAll {members : Own} {p : Str × Node} (member : p ∈ (assignAll members).1) : p ∈ Members.ofPairs members := by
  have fold : ∀ (later own all : Own) (prototype : Option Node), Members.Sorted own →
      (∀ k v, Members.get own k = some v → Members.get all k = some v) →
      Members.Sorted (later.foldl (fun out member => assign out.1 out.2 member.1 member.2) (own, prototype)).1 ∧
        ∀ k v, Members.get (later.foldl (fun out member => assign out.1 out.2 member.1 member.2) (own, prototype)).1 k = some v →
          Members.get (later.foldl (fun m p => Members.put p.1 p.2 m) all) k = some v := by
    intro later
    induction later with
    | nil =>
      intro own all prototype sorted among
      exact ⟨sorted, among⟩
    | cons next later ih =>
      intro own all prototype sorted among
      rw [List.foldl_cons, List.foldl_cons]
      obtain ⟨sorted', among'⟩ := @get_assign own all prototype next.1 next.2 sorted among
      exact ih _ _ _ sorted' among'
  obtain ⟨sorted, among⟩ := fold members [] [] none Members.sorted_nil (fun k v found => by cases found)
  exact Members.mem_of_get (among p.1 p.2 (Members.get_of_mem sorted member))

mutual

/-- The strings of a node are strings of what `JSON.parse` makes of the same text. -/
theorem nodeStrings_of_value {P : Str → Prop} (engine : Engine) : ∀ t : Tree, (ofTree engine t).Strings P → NodeStrings P (toNode t)
  | .null, _ => by rw [toNode, NodeStrings] <;> simp
  | .bool _, _ => by rw [toNode, NodeStrings] <;> simp
  | .const _, _ => by rw [toNode, NodeStrings] <;> simp
  | .num _, _ => by rw [toNode, NodeStrings] <;> simp
  | .str pieces, strings => by
      rw [ofTree, Json.Strings] at strings
      rw [toNode, NodeStrings]
      exact strings
  | .arr items, strings => by
      rw [ofTree, Json.Strings] at strings
      rw [toNode, NodeStrings]
      exact nodeStrings_of_items engine items strings
  | .obj members, strings => by
      rw [ofTree, Json.Strings, ofMembers_base, stringsMembers_iff] at strings
      rw [toNode, NodeStrings, nodeStringsOwn_iff]
      intro p member
      have last := mem_assignAll member
      rw [toOwn_base] at last
      obtain ⟨entry, inside, same⟩ := List.mem_map.mp last
      have here := strings _ (List.mem_map_of_mem (f := fun entry => (entry.1, ofTree engine entry.2)) inside)
      obtain ⟨source, listed, shape⟩ := mem_base inside
      rw [← same]
      refine ⟨here.1, ?_⟩
      rw [shape] at here ⊢
      exact nodeStrings_of_members engine members source listed here.2

theorem nodeStrings_of_items {P : Str → Prop} (engine : Engine) : ∀ items : List Tree, StringsItems P (ofItems engine items) →
    NodeStringsItems P (toNodes items)
  | [], _ => by rw [toNodes, NodeStringsItems]; trivial
  | t :: items, strings => by
      rw [ofItems, StringsItems] at strings
      rw [toNodes, NodeStringsItems]
      exact ⟨nodeStrings_of_value engine t strings.1, nodeStrings_of_items engine items strings.2⟩

theorem nodeStrings_of_members {P : Str → Prop} (engine : Engine) : ∀ (members : List (List Piece × Tree)), ∀ member ∈ members,
    (ofTree engine member.2).Strings P → NodeStrings P (toNode member.2)
  | [] => List.forall_mem_nil _
  | (_, t) :: members => List.forall_mem_cons.mpr ⟨nodeStrings_of_value engine t, nodeStrings_of_members engine members⟩

end

/-! ## What the hashed bytes determine -/

theorem encodeRaw_of_hashedBy {pyFloat : Double → Option Tree} {host : Host} {tree : Node} {text : Str}
    (hashed : hashedBy pyFloat host tree = some text) : ∃ r, rawTree pyFloat host tree = some r ∧ text = render r := by
  have encoded : encodeRaw pyFloat host tree = some text := by
    unfold hashedBy at hashed
    split at hashed
    · exact hashed
    · split_ifs at hashed
      exact hashed
    · exact hashed
  rw [encodeRaw_eq] at encoded
  obtain ⟨r, found, same⟩ := Option.map_eq_some_iff.mp encoded
  exact ⟨r, found, same.symm⟩

theorem nodeStrings_deleteSeal {P : Str → Prop} {tree rest : Node} (strings : NodeStrings P tree)
    (deleted : deleteSeal tree = some rest) : NodeStrings P rest := by
  cases tree with
  | null => cases deleted
  | bool b => exact Option.some.inj deleted ▸ strings
  | num token => exact Option.some.inj deleted ▸ strings
  | str s => exact Option.some.inj deleted ▸ strings
  | arr items => exact Option.some.inj deleted ▸ strings
  | obj own prototype =>
    rw [NodeStrings, nodeStringsOwn_iff] at strings
    rw [← Option.some.inj deleted, NodeStrings, nodeStringsOwn_iff]
    intro p member
    exact strings p (List.mem_filter.mp member).1

theorem event_obj (engine : Engine) (members : List (List Piece × Tree)) :
    event (ofTree engine (.obj members)) = .obj (eventMembers engine ((base members).filter (fun entry => unsealed entry.1))) := by
  rw [event, ofTree, removeSeal, byValue, byValueMembers_eq, ofMembers_base, List.filter_map, List.map_map]
  rfl

theorem ne_protoKey_of_sealed {key : Str} (sealed : unsealed key = false) : key ≠ protoKey := by
  intro same
  rw [same] at sealed
  revert sealed
  decide

section Lines

variable {pyFloat : Double → Option Tree} {host : Host}

/-- What is encoded without the seal is the event, but for the objects that are read otherwise. -/
theorem erases_event (writes : Writes pyFloat) {t r : Tree} {rest : Node} (deleted : deleteSeal (toNode t) = some rest)
    (found : rawTree pyFloat host rest = some r) : Erases (event (ofTree host.toEngine t)) (readTree host.toEngine r) := by
  cases t with
  | null => cases deleted
  | const c => cases deleted
  | bool b =>
    rw [← Option.some.inj deleted] at found
    exact erased_tree writes _ r found
  | num token =>
    rw [← Option.some.inj deleted] at found
    exact erased_tree writes _ r found
  | str pieces =>
    rw [← Option.some.inj deleted] at found
    exact erased_tree writes _ r found
  | arr items =>
    rw [← Option.some.inj deleted] at found
    exact erased_tree writes _ r found
  | obj members =>
    rw [event_obj, Erases]
    intro plain
    rw [ordinary_eventMembers] at plain
    have clear : ∀ entry ∈ base members, entry.1 ≠ protoKey := by
      intro entry member
      cases kept : unsealed entry.1 with
      | true => exact (plain entry (List.mem_filter.mpr ⟨member, kept⟩)).2
      | false => exact ne_protoKey_of_sealed kept
    rw [toNode_base clear, deleteSeal, List.filter_map] at deleted
    rw [← Option.some.inj deleted] at found
    apply erases_object _ plain found
    intro entry member
    obtain ⟨source, inside, same⟩ := mem_base (List.mem_filter.mp member).1
    rw [same]
    exact erased_members writes members source inside

end Lines

theorem hashed_reads {verifier : Verifier} {host : Host} {line : Str} {value : Json} {bytes : Bytes}
    (accepted : Accepted host line value) (hashed : hashedBytes verifier host line = some bytes) :
    ∃ r, Spelled r ∧ bytes = bufferOf (render r) ∧ Erases (event value) (readTree host.toEngine r) := by
  obtain ⟨t, parsed, same⟩ := Option.map_eq_some_iff.mp accepted.parsed
  rw [hashedBytes, parseRaw, parsed, Option.map_some, Option.bind_some] at hashed
  obtain ⟨text, chosen, buffer⟩ := Option.map_eq_some_iff.mp hashed
  obtain ⟨rest, deleted, written⟩ := Option.bind_eq_some_iff.mp chosen
  obtain ⟨r, found, shape⟩ := encodeRaw_of_hashedBy written
  have units : NodeStrings Units rest :=
    nodeStrings_deleteSeal (nodeStrings_of_value host.toEngine t (same ▸ accepted.units)) deleted
  refine ⟨r, spelled_rawTree (writes_pyFloat verifier) rest r units found, ?_, ?_⟩
  · rw [← shape, buffer]
  · rw [← same]
    exact erases_event (writes_pyFloat verifier) deleted found

/-- Of two lines with the same hashed bytes the events are equal exactly if the objects with a member `$num` or
`__proto__` are the same in both, at the same places. -/
theorem digest_covers_iff (verifier : Verifier) (host : Host) {first second : Str} {one other : Json} {bytes : Bytes}
    (accepted : Accepted host first one) (accepted' : Accepted host second other)
    (hashed : hashedBytes verifier host first = some bytes) (hashed' : hashedBytes verifier host second = some bytes) :
    event one = event other ↔ ∀ path, escapeAt path (event one) = escapeAt path (event other) := by
  constructor
  · intro same path
    rw [same]
  · intro places
    obtain ⟨r, spelled, buffer, erases⟩ := hashed_reads accepted hashed
    obtain ⟨r', spelled', buffer', erases'⟩ := hashed_reads accepted' hashed'
    have texts : render r = render r' := by
      rw [← FileJournal.textOf_bufferOf spelled.2, ← buffer, buffer', FileJournal.textOf_bufferOf spelled'.2]
    have trees : r = r' := JsonRoundTrip.render_injective wide spelled.1 spelled'.1 texts
    rw [trees] at erases
    exact eq_of_erases _ _ _ erases erases' places

/-! ## Two lines of one digest -/

def shortTree : Tree := .obj [(stringifyPieces (lit "a"), .null)]

/-- A member `__proto__` replaces the prototype of what the raw parse builds. -/
def protoTree : Tree := .obj [(stringifyPieces (lit "__proto__"), .null), (stringifyPieces (lit "a"), .null)]

def hashedSample : Str := braced [escapeString (lit "a") ++ 58 :: lit "null"]

theorem accepted_of_tree {tree : Tree} (ok : TreeOk strict tree) (units : (ofTree FloatTokens.exactHost.toEngine tree).Strings Units) :
    Accepted FloatTokens.exactHost (render tree) (ofTree FloatTokens.exactHost.toEngine tree) where
  parsed := by rw [parseJson, JsonRoundTrip.parse_render strict tree ok, Option.map_some]
  units := units

theorem hashedBytes_of_tree {verifier : Verifier} {tree : Tree} {prototype : Option Node} (ok : TreeOk strict tree)
    (node : toNode tree = .obj [(lit "a", .null)] prototype) (none : prototypeRawNum prototype = none) :
    hashedBytes verifier FloatTokens.exactHost (render tree) = some (bufferOf hashedSample) := by
  have kept : deleteSeal (.obj [(lit "a", .null)] prototype) = some (.obj [(lit "a", .null)] prototype) := by
    simp [deleteSeal]
  have number : rawNum (.obj [(lit "a", .null)] prototype) = Option.none := by
    have other : lit "a" ≠ numKey := by decide
    rw [rawNum, none, Members.get, if_neg other]
    rfl
  rw [hashedBytes, parseRaw, JsonRoundTrip.parse_render strict tree ok, Option.map_some, Option.bind_some, node, kept, Option.bind_some,
    hashedBy, number]
  simp only [encodeRaw, number, encodeOwn, canonical, Option.bind_some, Option.map_some, hashedSample]

theorem ok_shortTree : TreeOk strict shortTree := by
  simp only [shortTree, TreeOk, MembersOk, and_true]
  exact piecesOk_of_spelt (spells_stringify _)

theorem ok_protoTree : TreeOk strict protoTree := by
  simp only [protoTree, TreeOk, MembersOk, and_true, true_and]
  exact ⟨piecesOk_of_spelt (spells_stringify _), piecesOk_of_spelt (spells_stringify _)⟩

theorem node_shortTree : toNode shortTree = .obj [(lit "a", .null)] none := by
  have other : lit "a" ≠ protoKey := by decide
  simp [shortTree, toNode, toOwn, unitsOfPieces_stringify, assignAll, assign, other, Members.put]

theorem node_protoTree : toNode protoTree = .obj [(lit "a", .null)] (some .null) := by
  have other : lit "a" ≠ protoKey := by decide
  have proto : lit "__proto__" = protoKey := rfl
  simp [protoTree, toNode, toOwn, unitsOfPieces_stringify, assignAll, assign, other, proto, reachesAccessor, prototypeReaches,
    isPrototype, Members.put]

theorem value_shortTree : ofTree FloatTokens.exactHost.toEngine shortTree = .obj [(lit "a", .null)] := by
  simp [shortTree, ofTree, ofMembers, unitsOfPieces_stringify, Members.ofPairs, Members.put]

theorem value_protoTree : ofTree FloatTokens.exactHost.toEngine protoTree = .obj [(lit "__proto__", .null), (lit "a", .null)] := by
  have below : ¬ lit "a" < lit "__proto__" := by decide
  have other : lit "__proto__" ≠ lit "a" := by decide
  simp [protoTree, ofTree, ofMembers, unitsOfPieces_stringify, Members.ofPairs, Members.put, below, other]

theorem accepted_shortTree : Accepted FloatTokens.exactHost (render shortTree) (.obj [(lit "a", .null)]) := by
  rw [← value_shortTree]
  apply accepted_of_tree ok_shortTree
  simp only [value_shortTree, Json.Strings, StringsMembers, and_true, Canonical.Units]
  decide

theorem accepted_protoTree : Accepted FloatTokens.exactHost (render protoTree) (.obj [(lit "__proto__", .null), (lit "a", .null)]) := by
  rw [← value_protoTree]
  apply accepted_of_tree ok_protoTree
  simp only [value_protoTree, Json.Strings, StringsMembers, and_true, true_and, Canonical.Units]
  decide

theorem digest_covers_iff_sample : event (.obj [(lit "a", .null)]) = event (.obj [(lit "__proto__", .null), (lit "a", .null)]) ↔
    ∀ path, escapeAt path (event (.obj [(lit "a", .null)])) = escapeAt path (event (.obj [(lit "__proto__", .null), (lit "a", .null)])) :=
  digest_covers_iff .typeScript FloatTokens.exactHost accepted_shortTree accepted_protoTree
    (hashedBytes_of_tree ok_shortTree node_shortTree rfl) (hashedBytes_of_tree ok_protoTree node_protoTree rfl)

theorem proto_not_covered : ∃ bytes, (∀ verifier, hashedBytes verifier FloatTokens.exactHost (render shortTree) = some bytes) ∧
    (∀ verifier, hashedBytes verifier FloatTokens.exactHost (render protoTree) = some bytes) ∧
      Accepted FloatTokens.exactHost (render shortTree) (.obj [(lit "a", .null)]) ∧
        Accepted FloatTokens.exactHost (render protoTree) (.obj [(lit "__proto__", .null), (lit "a", .null)]) ∧
          event (.obj [(lit "a", .null)]) ≠ event (.obj [(lit "__proto__", .null), (lit "a", .null)]) := by
  refine ⟨bufferOf hashedSample, fun _ => hashedBytes_of_tree ok_shortTree node_shortTree rfl,
    fun _ => hashedBytes_of_tree ok_protoTree node_protoTree rfl, accepted_shortTree, accepted_protoTree, ?_⟩
  intro same
  simp [event, removeSeal, byValue, byValueMembers, unsealed] at same

end Tesera.TypeScript.Covered
