import Tesera.Python.JsonCodec
import Tesera.Python.Fnmatch

/-!
Declarative approval rules: the first rule that matches a request decides it, and where
none does the default. `load_policy_file` reads them from a JSON document.
-/

namespace Tesera.Policy.Rules
open Tesera.Text Tesera.Text.Unicode Tesera.Python.Value Tesera.Python.Fnmatch

inductive Decision where
  | allowed
  | denied
  deriving DecidableEq

/-- What a rule reads of an `ApprovalRequest`. -/
structure Request where
  actionName : Str
  risk : Str

/-- What a `PolicyError` of a loader is about; rules are named by their index. -/
inductive Fault where
  | unreadable
  | notJson
  | notObject
  | unknownTopLevelKeys
  | rulesNotList
  | ruleNotObject (index : Nat)
  | unknownKeys (index : Nat)
  | action (index : Nat)
  | decision (index : Nat)
  | risksNotStrings (index : Nat)
  | unknownRisks (index : Nat)
  | reason (index : Nat)
  | default
  deriving DecidableEq

structure Rule where
  action : Str
  decision : Decision
  risks : Option (List Str)
  reason : Str

/-- The risk of the request is one of the rule's, or the rule has none. -/
def Rule.concerns (rule : Rule) (risk : Str) : Bool := rule.risks.all (fun risks => risks.contains risk)

def Rule.matches (rule : Rule) (request : Request) : Bool :=
  fnmatchcase request.actionName rule.action && rule.concerns request.risk

structure RuleExplanation where
  decision : Decision
  reason : Str
  matchedIndex : Option Nat
  matchedAction : Option Str
  totalRules : Nat

structure RuleProvider where
  rules : List Rule
  default : Decision

def Decision.name : Decision → Str
  | .allowed => lit "allowed"
  | .denied => lit "denied"

def defaultReason : Decision → Str
  | .allowed => lit "allowed by policy default"
  | .denied => lit "no policy rule matched; default deny"

/-- `rule.reason or f"matched rule ..."`. -/
def Rule.reasonOr (host : Host) (rule : Rule) : Str :=
  if rule.reason = [] then
    lit "matched rule " ++ (lit (host.repr (.str rule.action)) ++ (lit " -> " ++ rule.decision.name))
  else rule.reason

def RuleProvider.explain (host : Host) (provider : RuleProvider) (request : Request) : RuleExplanation :=
  match provider.rules.zipIdx.find? (fun entry => entry.1.matches request) with
  | some (rule, index) =>
      ⟨rule.decision, rule.reasonOr host, some index, some rule.action, provider.rules.length⟩
  | none => ⟨provider.default, defaultReason provider.default, none, none, provider.rules.length⟩

/-- The decision and its reason. -/
def RuleProvider.decide (host : Host) (provider : RuleProvider) (request : Request) : Decision × Str :=
  ((provider.explain host request).decision, (provider.explain host request).reason)

/-! ## Loading -/

def riskLevels : List Str := [lit "low", lit "medium", lit "high", lit "critical"]

/-- `decision in (DECISION_ALLOWED, DECISION_DENIED)`, with the one it is. -/
def decisionOf : Json → Option Decision
  | .str s => if s = lit "allowed" then some .allowed else if s = lit "denied" then some .denied else none
  | _ => none

/-- The texts of a list of nothing else. -/
def strings : List Json → Option (List Str)
  | [] => some []
  | .str s :: items => (strings items).map (fun rest => s :: rest)
  | _ :: _ => none

/-- No key but these. -/
def onlyKeys (known : List String) (members : Dict) : Bool :=
  members.all (fun member => known.any (fun field => decide (member.1 = lit field)))

def topKeys : List String := ["default", "rules"]
def ruleKeys : List String := ["action", "decision", "risks", "reason"]

/-- `entry.get("risks")`, checked. -/
def loadRisks (index : Nat) : Json → Except Fault (Option (List Str))
  | .null => .ok none
  | .list items =>
      match strings items with
      | none => .error (.risksNotStrings index)
      | some names =>
          if names.all (fun name => riskLevels.contains name) then .ok (some names)
          else .error (.unknownRisks index)
  | _ => .error (.risksNotStrings index)

/-- `members.get(field, default)`. -/
def getOr (members : Dict) (field : String) (default : Json) : Json :=
  (Members.get members (lit field)).getD default

def loadRule (index : Nat) : Json → Except Fault Rule
  | .dict entry =>
      if onlyKeys ruleKeys entry = false then .error (.unknownKeys index)
      else
        match get entry "action" with
        | .str [] => .error (.action index)
        | .str action =>
            match decisionOf (get entry "decision") with
            | none => .error (.decision index)
            | some decision =>
                match loadRisks index (get entry "risks") with
                | .error fault => .error fault
                | .ok risks =>
                    match getOr entry "reason" (.str []) with
                    | .str reason => .ok ⟨action, decision, risks, reason⟩
                    | _ => .error (.reason index)
        | _ => .error (.action index)
  | _ => .error (.ruleNotObject index)

def loadRules : Nat → List Json → Except Fault (List Rule)
  | _, [] => .ok []
  | index, entry :: entries =>
      match loadRule index entry with
      | .error fault => .error fault
      | .ok rule => (loadRules (index + 1) entries).map (fun rules => rule :: rules)

/-- What the first rule that a reading matches decides, else the default. -/
def decided (reading : Rule → Bool) (rules : List Rule) (default : Decision) : Decision :=
  ((rules.find? reading).map Rule.decision).getD default

end Tesera.Policy.Rules
