import Tesera.Python.Value
import Tesera.Text.JsonRoundTrip

/-!
Python's `json.dumps` with sorted keys, compact separators and `ensure_ascii=False`,
and `json.loads`. What `dumps` writes `loads` reads back, and whatever `loads`
returns `dumps` can write again.
-/

namespace Tesera.Python.JsonCodec
open Tesera.Text Tesera.Text.Unicode Tesera.Text.Number Tesera.Text.Decimal Tesera.Text.Json
open Tesera.Text.JsonRoundTrip (PieceOk PiecesOk TreeOk parse_render treeOk_of_parse nesting_of_parse)
open Tesera.Python.Value

/-! ## Writing -/

/-- The escapes `ensure_ascii=False` leaves: controls, the quote and the backslash. -/
def pieceOf (c : Nat) : Piece := if c < 32 ∨ c = 34 ∨ c = 92 then .esc c else .lit c

def piecesOf (s : Str) : List Piece := s.map pieceOf

/-- `repr` of a finite float. -/
def reprFloat (d : Dec) : Token :=
  if -4 < d.point ∧ d.point ≤ 16 then positional d (some Digits.zero) else scientific d none 2

mutual

/-- The tree `dumps` writes. -/
def toTree : Json → Tree
  | .null => .null
  | .bool b => .bool b
  | .int n => .num (Token.ofInt n)
  | .float .nan => .const .nan
  | .float (.inf false) => .const .infinity
  | .float (.inf true) => .const .negInfinity
  | .float (.finite d) => .num (reprFloat d)
  | .str s => .str (piecesOf s)
  | .list items => .arr (toItems items)
  | .dict members => .obj (toMembers members)

def toItems : List Json → List Tree
  | [] => []
  | v :: items => toTree v :: toItems items

def toMembers : List (Str × Json) → List (List Piece × Tree)
  | [] => []
  | (k, v) :: members => (piecesOf k, toTree v) :: toMembers members

end

/-- Whether the text of an integer is within the interpreter's limit. -/
def withinDigits (host : Host) (n : Int) : Bool :=
  decide ((decimal n.natAbs).text.length ≤ host.maxStrDigits)

mutual

/-- The failures of `dumps`, met in the order it writes, with the nesting still
allowed. -/
def checkDumps (host : Host) (allowNan : Bool) : Nat → Json → Except PyError Unit
  | _, .int n =>
      if withinDigits host n then .ok ()
      else .error (.valueError "Exceeds the limit for integer string conversion")
  | _, .float (.finite _) => .ok ()
  | _, .float _ =>
      if allowNan then .ok ()
      else .error (.valueError "Out of range float values are not JSON compliant")
  | 0, .list _ => .error .recursionError
  | 0, .dict _ => .error .recursionError
  | depth + 1, .list items => checkItems host allowNan depth items
  | depth + 1, .dict members => checkMembers host allowNan depth members
  | _, _ => .ok ()

def checkItems (host : Host) (allowNan : Bool) : Nat → List Json → Except PyError Unit
  | _, [] => .ok ()
  | depth, v :: items =>
      match checkDumps host allowNan depth v with
      | .ok _ => checkItems host allowNan depth items
      | .error e => .error e

def checkMembers (host : Host) (allowNan : Bool) : Nat → List (Str × Json) → Except PyError Unit
  | _, [] => .ok ()
  | depth, (_, v) :: members =>
      match checkDumps host allowNan depth v with
      | .ok _ => checkMembers host allowNan depth members
      | .error e => .error e

end

/-- `json.dumps(value, sort_keys=True, separators=(",", ":"), ensure_ascii=False)`. -/
def dumps (host : Host) (allowNan : Bool) (v : Json) : Except PyError Str :=
  match checkDumps host allowNan host.recursionLimit v with
  | .ok _ => .ok (render (toTree v))
  | .error e => .error e

/-! ## Reading -/

/-- The grammar of `json.loads`: it knows the constants, and refuses an integer
longer than the interpreter's limit. -/
def pyDialect (host : Host) : Dialect where
  consts := true
  odd := fun _ => false
  token := fun token =>
    decide (token.IsInt → token.whole.text.length ≤ host.maxStrDigits)

/-- The characters of a string; two escapes of a surrogate pair are one character. -/
def joinPieces : List Piece → Str
  | .esc h :: .esc l :: rest =>
      if isHigh h && isLow l then combine h l :: joinPieces rest
      else h :: joinPieces (.esc l :: rest)
  | .lit c :: rest => c :: joinPieces rest
  | .esc c :: rest => c :: joinPieces rest
  | .odd c :: rest => c :: joinPieces rest
  | [] => []

/-- The float of a number token; beyond the largest double it is infinite. -/
def floatOf (host : Host) (token : Token) : PyFloat :=
  match host.double (decOf token) with
  | some d => .finite d
  | none => .inf token.neg

mutual

/-- The value of a tree; the last of several members of one name wins. -/
def ofTree (host : Host) : Tree → Json
  | .null => .null
  | .bool b => .bool b
  | .const .nan => .float .nan
  | .const .infinity => .float (.inf false)
  | .const .negInfinity => .float (.inf true)
  | .num token => if token.IsInt then .int token.toInt else .float (floatOf host token)
  | .str text => .str (joinPieces text)
  | .arr items => .list (ofItems host items)
  | .obj members => .dict (Members.ofPairs (ofMembers host members))

def ofItems (host : Host) : List Tree → List Json
  | [] => []
  | t :: items => ofTree host t :: ofItems host items

def ofMembers (host : Host) : List (List Piece × Tree) → List (Str × Json)
  | [] => []
  | (k, t) :: members => (joinPieces k, ofTree host t) :: ofMembers host members

end

/-- `json.loads(text)`. -/
def loads (host : Host) (text : Str) : Except PyError Json :=
  if host.recursionLimit < nesting (pyDialect host) text then .error .recursionError
  else
    match parse (pyDialect host) text with
    | some tree => .ok (ofTree host tree)
    | none => .error (.valueError (host.decodeError text))

/-! ## What is written is read back -/

theorem pieceOk_pieceOf (host : Host) (c : Nat) : PieceOk (pyDialect host) (pieceOf c) := by
  unfold pieceOf
  split_ifs with escaped
  · simp only [PieceOk]
    omega
  · simp only [not_or, Nat.not_lt] at escaped
    exact escaped

theorem piecesOk_piecesOf (host : Host) (s : Str) : PiecesOk (pyDialect host) (piecesOf s) := by
  intro p member
  obtain ⟨c, -, rfl⟩ := List.mem_map.mp member
  exact pieceOk_pieceOf host c

/-- An escape that `dumps` writes is never a surrogate. -/
theorem joinPieces_pieceOf (c : Nat) (rest : List Piece) :
    joinPieces (pieceOf c :: rest) = c :: joinPieces rest := by
  unfold pieceOf
  split_ifs with escaped
  · cases rest with
    | nil => simp [joinPieces]
    | cons p rest =>
      cases p with
      | esc l =>
        have low : isHigh c = false := by
          simp only [isHigh, decide_eq_false_iff_not]
          omega
        simp [joinPieces, low]
      | lit l => simp [joinPieces]
      | odd l => simp [joinPieces]
  · simp [joinPieces]

@[simp] theorem joinPieces_piecesOf (s : Str) : joinPieces (piecesOf s) = s := by
  induction s with
  | nil => simp [piecesOf, joinPieces]
  | cons c s ih =>
    have tail : joinPieces (s.map pieceOf) = s := ih
    simp only [piecesOf, List.map_cons, joinPieces_pieceOf, tail]

theorem decOf_reprFloat (d : Dec) : decOf (reprFloat d) = d := by
  unfold reprFloat
  split_ifs
  · exact decOf_positional d (some Digits.zero) 1 rfl
  · exact decOf_scientific d none 2 0 rfl

/-- A float is never spelt like an integer. -/
theorem not_isInt_reprFloat (d : Dec) : ¬ (reprFloat d).IsInt := by
  unfold reprFloat Token.IsInt
  split_ifs with plain
  · unfold positional
    split_ifs <;> simp
  · unfold scientific
    split
    next shape => exact absurd (by rw [d.zero shape]; omega) plain
    next => simp

theorem floatOf_reprFloat (host : Host) (d : Dec) (double : host.double d = some d) :
    floatOf host (reprFloat d) = .finite d := by
  simp only [floatOf, decOf_reprFloat, double]

mutual

theorem ofTree_toTree (host : Host) : ∀ v : Json, v.Ok host → ofTree host (toTree v) = v
  | .null, _ => by simp only [toTree, ofTree]
  | .bool _, _ => by simp only [toTree, ofTree]
  | .int n, _ => by simp only [toTree, ofTree, if_pos (Token.isInt_ofInt n), Token.toInt_ofInt]
  | .float .nan, _ => by simp only [toTree, ofTree]
  | .float (.inf true), _ => by simp only [toTree, ofTree]
  | .float (.inf false), _ => by simp only [toTree, ofTree]
  | .float (.finite d), ok => by
    simp only [Json.Ok] at ok
    simp only [toTree, ofTree, if_neg (not_isInt_reprFloat d), floatOf_reprFloat host d ok]
  | .str s, _ => by simp only [toTree, ofTree, joinPieces_piecesOf]
  | .list items, ok => by
    simp only [Json.Ok] at ok
    simp only [toTree, ofTree, ofItems_toItems host items ok]
  | .dict members, ok => by
    simp only [Json.Ok] at ok
    simp only [toTree, ofTree, ofMembers_toMembers host members ok.2, Members.ofPairs_of_sorted ok.1]

theorem ofItems_toItems (host : Host) : ∀ items : List Json, ItemsOk host items →
    ofItems host (toItems items) = items
  | [], _ => by simp only [toItems, ofItems]
  | v :: items, ok => by
    simp only [ItemsOk] at ok
    simp only [toItems, ofItems, ofTree_toTree host v ok.1, ofItems_toItems host items ok.2]

theorem ofMembers_toMembers (host : Host) : ∀ members : List (Str × Json), MembersOk host members →
    ofMembers host (toMembers members) = members
  | [], _ => by simp only [toMembers, ofMembers]
  | (k, v) :: members, ok => by
    simp only [MembersOk] at ok
    simp only [toMembers, ofMembers, joinPieces_piecesOf, ofTree_toTree host v ok.1,
      ofMembers_toMembers host members ok.2]

end

mutual

/-- What passes the checks of `dumps` is a tree `loads` accepts. -/
theorem treeOk_toTree (host : Host) (allowNan : Bool) : ∀ (depth : Nat) (v : Json),
    checkDumps host allowNan depth v = .ok () →
      TreeOk (pyDialect host) (toTree v) ∧ Json.depth (toTree v) ≤ depth
  | _, .null, _ => by simp [toTree, TreeOk, Json.depth]
  | _, .bool _, _ => by simp [toTree, TreeOk, Json.depth]
  | depth, .int n, passed => by
    have short : withinDigits host n = true := by
      by_contra long
      simp [checkDumps, long] at passed
    simp only [toTree, TreeOk, Json.depth, pyDialect, decide_eq_true_eq, Nat.zero_le, and_true]
    exact fun _ => of_decide_eq_true short
  | _, .float .nan, _ => by simp [toTree, TreeOk, Json.depth, pyDialect]
  | _, .float (.inf true), _ => by simp [toTree, TreeOk, Json.depth, pyDialect]
  | _, .float (.inf false), _ => by simp [toTree, TreeOk, Json.depth, pyDialect]
  | _, .float (.finite d), _ => by
    simp [toTree, TreeOk, Json.depth, pyDialect, not_isInt_reprFloat]
  | _, .str s, _ => by simp [toTree, TreeOk, Json.depth, piecesOk_piecesOf]
  | 0, .list _, passed => by simp [checkDumps] at passed
  | 0, .dict _, passed => by simp [checkDumps] at passed
  | depth + 1, .list items, passed => by
    simp only [checkDumps] at passed
    have inner := itemsOk_toItems host allowNan depth items passed
    simpa only [toTree, TreeOk, Json.depth, Nat.add_le_add_iff_right] using inner
  | depth + 1, .dict members, passed => by
    simp only [checkDumps] at passed
    have inner := membersOk_toMembers host allowNan depth members passed
    simpa only [toTree, TreeOk, Json.depth, Nat.add_le_add_iff_right] using inner

theorem itemsOk_toItems (host : Host) (allowNan : Bool) : ∀ (depth : Nat) (items : List Json),
    checkItems host allowNan depth items = .ok () →
      JsonRoundTrip.ItemsOk (pyDialect host) (toItems items) ∧ Json.depthItems (toItems items) ≤ depth
  | _, [], _ => by simp [toItems, JsonRoundTrip.ItemsOk, Json.depthItems]
  | depth, v :: items, passed => by
    cases first : checkDumps host allowNan depth v with
    | error e => simp [checkItems, first] at passed
    | ok =>
      simp only [checkItems, first] at passed
      have head := treeOk_toTree host allowNan depth v first
      have tail := itemsOk_toItems host allowNan depth items passed
      simp only [toItems, JsonRoundTrip.ItemsOk, Json.depthItems]
      exact ⟨⟨head.1, tail.1⟩, max_le head.2 tail.2⟩

theorem membersOk_toMembers (host : Host) (allowNan : Bool) : ∀ (depth : Nat)
    (members : List (Str × Json)), checkMembers host allowNan depth members = .ok () →
      JsonRoundTrip.MembersOk (pyDialect host) (toMembers members) ∧
        Json.depthMembers (toMembers members) ≤ depth
  | _, [], _ => by simp [toMembers, JsonRoundTrip.MembersOk, Json.depthMembers]
  | depth, (k, v) :: members, passed => by
    cases first : checkDumps host allowNan depth v with
    | error e => simp [checkMembers, first] at passed
    | ok =>
      simp only [checkMembers, first] at passed
      have head := treeOk_toTree host allowNan depth v first
      have tail := membersOk_toMembers host allowNan depth members passed
      simp only [toMembers, JsonRoundTrip.MembersOk, Json.depthMembers]
      exact ⟨⟨piecesOk_piecesOf host k, head.1, tail.1⟩, max_le head.2 tail.2⟩

end

theorem dumps_eq_ok {host : Host} {allowNan : Bool} {v : Json} {text : Str} :
    dumps host allowNan v = .ok text ↔
      checkDumps host allowNan host.recursionLimit v = .ok () ∧ text = render (toTree v) := by
  unfold dumps
  cases checkDumps host allowNan host.recursionLimit v with
  | ok => simp [eq_comm]
  | error e => simp

/-- `json.loads(json.dumps(v)) == v`. -/
theorem loads_dumps {host : Host} {allowNan : Bool} {v : Json} {text : Str} (ok : v.Ok host)
    (dumped : dumps host allowNan v = .ok text) : loads host text = .ok v := by
  obtain ⟨passed, rfl⟩ := dumps_eq_ok.mp dumped
  obtain ⟨fits, shallow⟩ := treeOk_toTree host allowNan _ v passed
  have parsed := parse_render (pyDialect host) (toTree v) fits
  have nested := nesting_of_parse parsed
  simp only [loads, nested, if_neg (Nat.not_lt.mpr shallow), parsed, ofTree_toTree host v ok]

theorem dumps_injective {host : Host} {allowNan : Bool} {v w : Json} {text : Str}
    (okV : v.Ok host) (okW : w.Ok host) (left : dumps host allowNan v = .ok text)
    (right : dumps host allowNan w = .ok text) : v = w :=
  Except.ok.inj ((loads_dumps okV left).symm.trans (loads_dumps okW right))

/-! ## What is read can be written -/

theorem checkItems_iff {host : Host} {allowNan : Bool} {depth : Nat} {items : List Json} :
    checkItems host allowNan depth items = .ok () ↔
      ∀ v ∈ items, checkDumps host allowNan depth v = .ok () := by
  induction items with
  | nil => simp [checkItems]
  | cons v items ih =>
    simp only [checkItems, List.forall_mem_cons, ← ih]
    cases checkDumps host allowNan depth v <;> simp

theorem checkMembers_iff {host : Host} {allowNan : Bool} {depth : Nat} {members : Dict} :
    checkMembers host allowNan depth members = .ok () ↔
      ∀ p ∈ members, checkDumps host allowNan depth p.2 = .ok () := by
  induction members with
  | nil => simp [checkMembers]
  | cons p members ih =>
    obtain ⟨k, v⟩ := p
    simp only [checkMembers, List.forall_mem_cons, ← ih]
    cases checkDumps host allowNan depth v <;> simp

theorem natAbs_toInt (token : Token) : token.toInt.natAbs = token.whole.toNat := by
  unfold Token.toInt
  split_ifs <;> simp

mutual

/-- The value of an accepted tree is well formed and passes the checks of `dumps`. -/
theorem ofTree_ok (host : Host) : ∀ (depth : Nat) (t : Tree), TreeOk (pyDialect host) t →
    Json.depth t ≤ depth →
      (ofTree host t).Ok host ∧ checkDumps host true depth (ofTree host t) = .ok ()
  | _, .null, _, _ => by simp [ofTree, Json.Ok, checkDumps]
  | _, .bool _, _, _ => by simp [ofTree, Json.Ok, checkDumps]
  | _, .const .nan, _, _ => by simp [ofTree, Json.Ok, checkDumps]
  | _, .const .infinity, _, _ => by simp [ofTree, Json.Ok, checkDumps]
  | _, .const .negInfinity, _, _ => by simp [ofTree, Json.Ok, checkDumps]
  | depth, .num token, ok, _ => by
    simp only [TreeOk, pyDialect, decide_eq_true_eq] at ok
    simp only [ofTree]
    split_ifs with isInt
    · have short : withinDigits host token.toInt = true := by
        simp only [withinDigits, natAbs_toInt, decimal_toNat token.canonical, decide_eq_true_eq]
        exact ok isInt
      simp [Json.Ok, checkDumps, short]
    · unfold floatOf
      split
      next d found => simp [Json.Ok, checkDumps, host.double_double found]
      next => simp [Json.Ok, checkDumps]
  | _, .str _, _, _ => by simp [ofTree, Json.Ok, checkDumps]
  | 0, .arr _, _, deep => by simp [Json.depth] at deep
  | 0, .obj _, _, deep => by simp [Json.depth] at deep
  | depth + 1, .arr items, ok, deep => by
    simp only [TreeOk] at ok
    simp only [Json.depth, Nat.add_le_add_iff_right] at deep
    have inner := ofItems_ok host depth items ok deep
    simp only [ofTree, Json.Ok, checkDumps, itemsOk_iff, checkItems_iff]
    exact ⟨fun v member => (inner v member).1, fun v member => (inner v member).2⟩
  | depth + 1, .obj members, ok, deep => by
    simp only [TreeOk] at ok
    simp only [Json.depth, Nat.add_le_add_iff_right] at deep
    have inner := ofMembers_ok host depth members ok deep
    simp only [ofTree, Json.Ok, checkDumps, membersOk_iff, checkMembers_iff]
    exact ⟨⟨Members.sorted_ofPairs _, fun p member => (inner p (Members.mem_ofPairs member)).1⟩,
      fun p member => (inner p (Members.mem_ofPairs member)).2⟩

theorem ofItems_ok (host : Host) : ∀ (depth : Nat) (items : List Tree),
    JsonRoundTrip.ItemsOk (pyDialect host) items → Json.depthItems items ≤ depth →
      ∀ v ∈ ofItems host items, v.Ok host ∧ checkDumps host true depth v = .ok ()
  | _, [], _, _ => by simp [ofItems]
  | depth, t :: items, ok, deep => by
    simp only [JsonRoundTrip.ItemsOk] at ok
    simp only [Json.depthItems, max_le_iff] at deep
    simp only [ofItems, List.forall_mem_cons]
    exact ⟨ofTree_ok host depth t ok.1 deep.1, ofItems_ok host depth items ok.2 deep.2⟩

theorem ofMembers_ok (host : Host) : ∀ (depth : Nat) (members : List (List Piece × Tree)),
    JsonRoundTrip.MembersOk (pyDialect host) members → Json.depthMembers members ≤ depth →
      ∀ p ∈ ofMembers host members, p.2.Ok host ∧ checkDumps host true depth p.2 = .ok ()
  | _, [], _, _ => by simp [ofMembers]
  | depth, (k, t) :: members, ok, deep => by
    simp only [JsonRoundTrip.MembersOk] at ok
    simp only [Json.depthMembers, max_le_iff] at deep
    simp only [ofMembers, List.forall_mem_cons]
    exact ⟨ofTree_ok host depth t ok.2.1 deep.1, ofMembers_ok host depth members ok.2.2 deep.2⟩

end

theorem loads_ok {host : Host} {text : Str} {v : Json} (loaded : loads host text = .ok v) :
    v.Ok host ∧ checkDumps host true host.recursionLimit v = .ok () := by
  unfold loads at loaded
  split_ifs at loaded with deep
  cases parsed : parse (pyDialect host) text with
  | none => simp [parsed] at loaded
  | some tree =>
    simp only [parsed, Except.ok.injEq] at loaded
    subst v
    exact ofTree_ok host _ tree (treeOk_of_parse parsed) (nesting_of_parse parsed ▸ Nat.not_lt.mp deep)

end Tesera.Python.JsonCodec
