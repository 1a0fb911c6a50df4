import Tesera.TypeScript.Value
import Tesera.Text.Glob
import Tesera.Policy.Rules

/-!
The same rules in TypeScript: a glob is turned into the text of a regular expression, and
a document read with `??` where Python has `dict.get` with a default.
-/

namespace Tesera.TypeScript.Policy
open Tesera.Text Tesera.Text.Unicode Tesera.Text.Glob Tesera.TypeScript.Value
open Tesera.Policy.Rules (Decision Request Fault RuleExplanation defaultReason riskLevels topKeys ruleKeys)

/-! ## Regular expressions -/

/-- The line terminators, which `.` does not match without the flag `s`. -/
def isTerminator (u : Nat) : Bool := u == 10 || u == 13 || u == 0x2028 || u == 0x2029

/-- `/[.+^${}()|[\]\\]/`. -/
def isEscaped (u : Nat) : Bool := (lit ".+^$\x7b\x7d()|[]\\").contains u

/-- What a unit of a glob stands for. -/
def tokenOf (u : Nat) : Token Nat :=
  if u = 42 then .many (fun v => !isTerminator v) else if u = 63 then .one (fun v => !isTerminator v)
  else .one (fun v => v == u)

structure PolicyRule where
  action : Str
  decision : Decision
  risks : Option (List Str)
  reason : Option Str

/-- A rule with its compiled expression. -/
structure Compiled where
  rule : PolicyRule
  pattern : List (Token Nat)

structure RuleProvider where
  compiled : List Compiled
  defaultDecision : Decision

/-- The test of one rule in the loop of `explain`. -/
def Compiled.matches (compiled : Compiled) (request : Request) : Bool :=
  accepts compiled.pattern request.actionName &&
    compiled.rule.risks.all (fun risks => risks.contains request.risk)

/-- `rule.reason ?? ...`. -/
def PolicyRule.reasonOr (rule : PolicyRule) : Str :=
  rule.reason.getD (lit "matched rule '" ++ (rule.action ++ (lit "' -> " ++ rule.decision.name)))

def RuleProvider.explain (provider : RuleProvider) (request : Request) : RuleExplanation :=
  match provider.compiled.zipIdx.find? (fun entry => entry.1.matches request) with
  | some (compiled, index) =>
      ⟨compiled.rule.decision, compiled.rule.reasonOr, some index, some compiled.rule.action, provider.compiled.length⟩
  | none => ⟨provider.defaultDecision, defaultReason provider.defaultDecision, none, none, provider.compiled.length⟩

/-- The decision and its reason. -/
def RuleProvider.decide (provider : RuleProvider) (request : Request) : Decision × Str :=
  ((provider.explain request).decision, (provider.explain request).reason)

/-! ## Loading -/

/-- `members[field] ?? default`. -/
def getOr (members : Record) (field : String) (default : Json) : Json :=
  match Members.get members (lit field) with
  | none => default
  | some .null => default
  | some value => value

/-- No key but these. -/
def onlyKeys (known : List String) (members : Record) : Bool :=
  members.all (fun member => known.any (fun field => decide (member.1 = lit field)))

/-- `decision === "allowed" || decision === "denied"`, with the one it is. -/
def decisionOf : Json → Option Decision
  | .str s => if s = lit "allowed" then some .allowed else if s = lit "denied" then some .denied else none
  | _ => none

/-- The texts of an array of nothing else. -/
def strings : List Json → Option (List Str)
  | [] => some []
  | .str s :: items => (strings items).map (fun rest => s :: rest)
  | _ :: _ => none

/-- `candidate["risks"]`, checked unless it is undefined. -/
def loadRisks (index : Nat) : Option Json → Except Fault (Option (List Str))
  | none => .ok none
  | some (.arr items) =>
      match strings items with
      | none => .error (.risksNotStrings index)
      | some names =>
          if names.all (fun name => riskLevels.contains name) then .ok (some names)
          else .error (.unknownRisks index)
  | some _ => .error (.risksNotStrings index)

def loadRule (index : Nat) : Json → Except Fault PolicyRule
  | .obj candidate =>
      if onlyKeys ruleKeys candidate = false then .error (.unknownKeys index)
      else
        match Members.get candidate (lit "action") with
        | some (.str []) => .error (.action index)
        | some (.str action) =>
            match (Members.get candidate (lit "decision")).bind decisionOf with
            | none => .error (.decision index)
            | some decision =>
                match loadRisks index (Members.get candidate (lit "risks")) with
                | .error fault => .error fault
                | .ok risks =>
                    match getOr candidate "reason" (.str []) with
                    | .str reason => .ok ⟨action, decision, risks, some reason⟩
                    | _ => .error (.reason index)
        | _ => .error (.action index)
  | _ => .error (.ruleNotObject index)

def loadRules : Nat → List Json → Except Fault (List PolicyRule)
  | _, [] => .ok []
  | index, entry :: entries =>
      match loadRule index entry with
      | .error fault => .error fault
      | .ok rule => (loadRules (index + 1) entries).map (fun rules => rule :: rules)

/-- The match of a rule, by the units of its action. -/
def PolicyRule.matches (rule : PolicyRule) (request : Request) : Bool :=
  accepts (rule.action.map tokenOf) request.actionName && rule.risks.all (fun risks => risks.contains request.risk)

end Tesera.TypeScript.Policy
