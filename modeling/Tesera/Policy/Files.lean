import Tesera.Documents
import Tesera.Policy.Rules
import Tesera.TypeScript.Policy

/-!
One policy file in the two languages. What a document says is read once, with a null field
taken for one that is left out. Python refuses three of these nulls and TypeScript the
fourth, and the globs of the rules are read by characters and by code units.
-/

namespace Tesera.Policy.Files
open Tesera.Text Tesera.Text.Unicode Tesera.Text.Glob Tesera.Python.Value Tesera.Documents Tesera.Policy.Rules
open Tesera.Text.JsonRoundTrip (PieceOk PiecesOk TreeOk)

/-! ## What a document says -/

def readRisks : Json → Option (Option (List Str))
  | .null => some none
  | .list items => ((strings items).filter (fun names => names.all (fun name => riskLevels.contains name))).map some
  | _ => none

def readReason : Json → Option Str
  | .null => some []
  | .str s => some s
  | _ => none

def readAction : Json → Option Str
  | .str (c :: action) => some (c :: action)
  | _ => none

def readRule : Json → Option Rule
  | .dict entry =>
      if onlyKeys ruleKeys entry then
        (readAction (get entry "action")).bind (fun action =>
          (decisionOf (get entry "decision")).bind (fun decision =>
            (readRisks (get entry "risks")).bind (fun risks =>
              (readReason (get entry "reason")).map (fun reason => ⟨action, decision, risks, reason⟩))))
      else none
  | _ => none

def readEntries : Json → Option (List Json)
  | .null => some []
  | .list entries => some entries
  | _ => none

def readDefault : Json → Option Decision
  | .null => some .denied
  | value => decisionOf value

def readPolicy : Json → Option RuleProvider
  | .dict raw =>
      if onlyKeys topKeys raw then
        (readEntries (get raw "rules")).bind (fun entries => (entries.mapM readRule).bind (fun rules =>
          (readDefault (get raw "default")).map (fun decision => ⟨rules, decision⟩)))
      else none
  | _ => none

/-! ## Null fields -/

/-- The field is there, and null. -/
def nullField (members : Dict) (field : String) : Bool :=
  match Members.get members (lit field) with
  | some .null => true
  | _ => false

def nullIn (field : String) : Json → Bool
  | .dict members => nullField members field
  | _ => false

/-- A field of some rule is null. -/
def someRuleNull (field : String) (raw : Dict) : Bool :=
  ((readEntries (get raw "rules")).getD []).any (nullIn field)

/-- The nulls that Python refuses: the rules, the default or the reason of a rule. -/
def pythonNull : Json → Bool
  | .dict raw => nullField raw "rules" || nullField raw "default" || someRuleNull "reason" raw
  | _ => false

/-- The nulls that TypeScript refuses: the risks of a rule. -/
def typescriptNull : Json → Bool
  | .dict raw => someRuleNull "risks" raw
  | _ => false

/-! ## Python's loader -/

section Alike

variable {members : Dict} {record : TypeScript.Value.Record}

def textOf : TypeScript.Value.Json → Option Str
  | .str s => some s
  | _ => none

end Alike

/-! ## One policy -/

/-- A rule matches when its glob is read by code units. -/
def matchesUnits (rule : Rule) (request : Request) : Bool :=
  accepts ((utf16Encode rule.action).map TypeScript.Policy.tokenOf) (utf16Encode request.actionName) &&
    rule.concerns request.risk

/-- After the first rule that only one of two readings matches, the other comes to the same
decision. -/
def SameDecision (one other : Rule → Bool) (rules : List Rule) (default : Decision) : Prop :=
  ∀ before rule after, rules = before ++ rule :: after → (∀ r ∈ before, one r = false ∧ other r = false) →
    (one rule = true → other rule = false → decided other after default = rule.decision) ∧
    (one rule = false → other rule = true → decided one after default = rule.decision)

/-- Whatever the document says has neither or both kinds of nulls, and if neither, the two
readings of its globs come to the same decision. -/
def ReadAlike (v : Json) (request : Request) : Prop :=
  ∀ policy, readPolicy v = some policy → pythonNull v = typescriptNull v ∧
    (pythonNull v = false → SameDecision (fun rule => rule.matches request) (fun rule => matchesUnits rule request)
      policy.rules policy.default)

theorem utf16Encode_basic {text : Str} (basic : ∀ c ∈ text, c < 65536) : utf16Encode text = text := by
  induction text with
  | nil => rfl
  | cons c text ih =>
    rw [utf16Encode_cons, unitsOf_basic (basic c List.mem_cons_self),
      ih (fun d member => basic d (List.mem_cons_of_mem c member))]
    rfl

/-- Where no name has a line terminator or a character beyond the basic plane and no glob
a class, the two readings agree. -/
theorem matchesUnits_of_plain {rule : Rule} {request : Request} (glob : ∀ c ∈ rule.action, c < 65536 ∧ c ≠ 91)
    (name : ∀ c ∈ request.actionName, c < 65536 ∧ TypeScript.Policy.isTerminator c = false) :
    matchesUnits rule request = rule.matches request := by
  have same : List.Forall₂ (SameOn request.actionName) (rule.action.map TypeScript.Policy.tokenOf)
      (rule.action.map Python.Fnmatch.tokenOf) := by
    rw [List.forall₂_map_left_iff, List.forall₂_map_right_iff, List.forall₂_same]
    intro c _
    have plain : ∀ d ∈ request.actionName, (!TypeScript.Policy.isTerminator d) = true := by
      intro d member
      rw [(name d member).2]
      rfl
    unfold TypeScript.Policy.tokenOf Python.Fnmatch.tokenOf
    split_ifs
    · exact .many plain
    · exact .one plain
    · exact .one (fun _ _ => rfl)
  have word := utf16Encode_basic (fun c member => (name c member).1)
  have action := utf16Encode_basic (fun c member => (glob c member).1)
  rw [matchesUnits, Rule.matches, Python.Fnmatch.fnmatchcase, word, action,
    Python.Fnmatch.translate_plain (fun c member => (glob c member).2), accepts_congr same]

theorem readAlike_of_plain {v : Json} {request : Request} (present : pythonNull v = false ∧ typescriptNull v = false)
    (globs : ∀ policy, readPolicy v = some policy → ∀ rule ∈ policy.rules, ∀ c ∈ rule.action, c < 65536 ∧ c ≠ 91)
    (name : ∀ c ∈ request.actionName, c < 65536 ∧ TypeScript.Policy.isTerminator c = false) : ReadAlike v request := by
  intro policy read
  refine ⟨present.1.trans present.2.symm, ?_⟩
  intro _ before rule after split _
  have inside : rule ∈ policy.rules := by
    rw [split]
    exact List.mem_append_right before List.mem_cons_self
  have same := matchesUnits_of_plain (globs policy read rule inside) name
  constructor
  · exact fun hit missed => absurd (hit.symm.trans (same.symm.trans missed)) (by decide)
  · exact fun missed hit => absurd (hit.symm.trans (same.trans missed)) (by decide)

/-! ## A name with a line break -/

theorem some_double {d e : Decimal.Dec} (_ : some d = some e) : some e = some e := rfl

end Tesera.Policy.Files
