import Tesera.Engine.Events
import Tesera.Logs

/-!
One guarded call, from the binding of its arguments to the outcome of its target. Everything
outside the engine may do anything: the callbacks, the approval provider, the store, the target
and the other threads of the process.
-/

namespace Tesera.Engine.Execution
open Tesera.Text Tesera.Text.Unicode Tesera.Python.Value Tesera.Canonical Tesera.Effects Tesera.Logs
open Tesera.Journal.Payloads Tesera.Redaction.Evidence Tesera.Redaction.Scrubbing Tesera.Approval Tesera.Engine.Events
open Tesera.Redaction.Traversal (Settings WalkError canonicalize)

abbrev Object := Tesera.Redaction.Traversal.Value

/-! ## What is raised -/

/-- What an error says of a target that has run. -/
structure Executed where
  decisionEventId : Json
  actionId : Str
  functionOutcome : Str
  result : Object

/-- The class of what is raised, as the handlers of the engine tell it apart, with what it carries. A
`fatal` one is no `Exception`. -/
inductive Kind where
  | contract
  | approval
  | denied (actionName : Str)
  | duplicate (actionName key : Str) (duplicateOf : Option Str)
  | shipped (executed : Option Executed)
  | completed (executed : Executed)
  | tesera
  | exception
  | fatal

/-- What is raised, with its `type_name` and its `str()`, which may raise itself. -/
structure Raised where
  kind : Kind
  type : Str
  text : Option Str

def Raised.isException (raised : Raised) : Bool :=
  match raised.kind with
  | .fatal => false
  | _ => true

def Raised.isTesera (raised : Raised) : Bool :=
  match raised.kind with
  | .fatal => false
  | .exception => false
  | _ => true

def Raised.isShip (raised : Raised) : Bool :=
  match raised.kind with
  | .shipped _ => true
  | _ => false

/-- An error of the library. -/
def libraryError (kind : Kind) (name : String) (text : Str) : Raised := ⟨kind, lit ("tesera.errors." ++ name), some text⟩

def Raised.ofPyError : PyError → Raised
  | .valueError text => ⟨.exception, lit "builtins.ValueError", some (lit text)⟩
  | .unicodeEncodeError => ⟨.exception, lit "builtins.UnicodeEncodeError", some []⟩
  | .typeError => ⟨.exception, lit "builtins.TypeError", some []⟩
  | .keyError => ⟨.exception, lit "builtins.KeyError", some []⟩
  | .overflowError => ⟨.exception, lit "builtins.OverflowError", some []⟩
  | .recursionError => ⟨.exception, lit "builtins.RecursionError", some []⟩
  | .osError name => ⟨.exception, lit ("builtins." ++ name), some []⟩
  | .canonicalizationError => libraryError .tesera "CanonicalizationError" []
  | .journalError text => libraryError .tesera "JournalError" (lit text)
  | .archiveError text => libraryError .tesera "ArchiveError" (lit text)
  | .countersignError text => libraryError .tesera "CountersignError" (lit text)
  | .resolutionError text => libraryError .tesera "ResolutionError" (lit text)
  | .evidenceAuditError text => libraryError .tesera "EvidenceAuditError" (lit text)

/-! ## What the engine meets -/

/-- `_COMPLETED_FILE`, in the order of insertion, and `_COMPLETED_CUSTOM`. -/
structure Registry where
  file : List (Str × Str × Str)
  custom : List (Str × Str × Str)

def completedFileMax : Nat := 8192

def isFileKey (journalKey : Str) : Bool := (lit "file:").isPrefixOf journalKey

/-- `_mark_completed`: the first entries go where there are too many. -/
def Registry.mark (registry : Registry) (triple : Str × Str × Str) : Registry :=
  if isFileKey triple.1 then
    let entries := if registry.file.contains triple then registry.file else registry.file ++ [triple]
    { registry with file := entries.drop (entries.length - completedFileMax) }
  else if registry.custom.contains triple then registry
  else { registry with custom := registry.custom ++ [triple] }

/-- `_is_completed`. -/
def Registry.has (registry : Registry) (triple : Str × Str × Str) : Bool :=
  if isFileKey triple.1 then registry.file.contains triple else registry.custom.contains triple

/-- The world outside, and what the threads of the process share. -/
structure Process (σ : Type) where
  world : σ
  registry : Registry

abbrev Outer (σ α : Type) := Effect (Process σ) Raised α

structure ApprovalRequest where
  actionName : Str
  risk : Str
  approvalMode : Str
  redactedInputSummary : Str
  inputHash : Str
  contractHash : Str
  spendCents : Option Nat

/-- What a provider returns: an `ApprovalDecision`, with any text as its verdict, or an object of
another type. -/
inductive Answer where
  | decision (verdict reason : Str) (approvedBy : Option Str)
  | other (type : Str)

inductive Provider (σ : Type) where
  | autoAllow
  | other (decide : ApprovalRequest → Outer σ Answer)

/-- How an append ends once its event is built. -/
inductive Commit where
  | stored
  | storedRaising (error : Raised)
  | refused (error : Raised)

/-- A journal store. An append gives the builder the previous hash, and the blocking decision where
one was asked for, and then stores the event or raises. -/
structure Store (σ : Type) where
  journalKey : Str
  hasPath : Bool
  hasAtomicAppend : Bool
  findCompleted : Str → Str → Outer σ (Option Dict)
  findBlocking : Str → Str → Outer σ (Option Dict)
  begin : Option (Str × Str) → Outer σ (Option Str × Option Str)
  commit : Dict → Process σ → Commit × Process σ

/-- `IdempotencyKeySpec`. -/
inductive KeySpec (σ : Type) where
  | none
  | text (spec : Str)
  | function (call : List (Str × Object) → Outer σ Object)

/-- What the interpreter supplies: the order of a set of removed texts, `type_name`, `repr`, what a
`str()` that raises raises, what other threads do meanwhile, and a new id with the time. -/
structure Environment (σ : Type) where
  host : Host
  settings : Settings
  substitutes : List (Str → Str)
  scrubOrder : List Str → List Str
  typeName : Object → Str
  repr : Str → Str
  strError : Raised
  others : Process σ → Process σ
  stamp : Outer σ Stamp

/-- The arguments of `execute_sync`. `bind` binds the arguments of the call and applies the defaults,
`identity` and `journal` give the default where none was configured, and `terminal` is the
provider of last resort. -/
structure Guarded (σ : Type) where
  contract : ActionContract
  canonicalMetadata : Option Json
  bind : Outer σ (List (Str × Object))
  notify : Outer σ Unit
  idempotencyKey : KeySpec σ
  spendFrom : Option (List (Str × Object) → Outer σ Object)
  identity : Outer σ Signer
  journal : Outer σ (Store σ)
  approvalProvider : Option (Provider σ)
  terminal : ApprovalRequest → Outer σ Answer
  dryRun : Bool
  receiptFrom : Option (Object → Outer σ Object)
  target : Outer σ Object

/-- What a call does, as far as the results speak of it. -/
inductive Act where
  | bound (arguments : List (Str × Object))
  | identified (signer : Signer)
  | answered (request : ApprovalRequest) (answer : Answer)
  | appended (event : Dict)
  | invoked
  | ended (result : Except Raised Object)

abbrev Step (σ α : Type) := Effect (Logged (Process σ) Act) Raised α

section Engine

variable {σ : Type} (env : Environment σ)

/-- `str(value)`. -/
def strOf (value : Object) : Except Raised Str :=
  match value with
  | .str text => .ok text
  | .none => .ok (lit "None")
  | value =>
      match env.settings.str value with
      | some text => .ok text
      | none => .error env.strError

def Raised.str (raised : Raised) : Except Raised Str :=
  match raised.text with
  | some text => .ok text
  | none => .error env.strError

/-- `except Exception` with a default in its place. -/
def suppress {α : Type} (call : Step σ α) (default : α) : Step σ α := do
  match ← attempt call with
  | .ok value => return value
  | .error raised => if raised.isException then return default else Effect.raise raised

/-! ## The key, the spend and the answer -/

/-- The key of a raw value. -/
def keyOf (action : Str) (raw : Object) : Step σ (Option Str) := do
  let key ← Effect.lift (strOf env raw)
  if key = [] then
    Effect.raise (libraryError .contract "ContractError" (lit "idempotency key for action " ++ env.repr action ++
      lit " resolved to empty; provide a non-empty key"))
  else return some key

def autoAllowAnswer : Answer := .decision (lit "allowed") (lit "approval_mode=never; allowed without interactive approval") none

/-- `active.decide(request)`. -/
def ask (action : Str) (provider : Provider σ) (request : ApprovalRequest) : Step σ Answer :=
  match provider with
  | .autoAllow => return autoAllowAnswer
  | .other decide => do
      match ← attempt (outside (decide request)) with
      | .ok answer => return answer
      | .error raised =>
          if raised.isTesera then Effect.raise raised
          else if raised.isException then
            Effect.raise (libraryError .approval "ApprovalError" (lit "approval provider failed for action " ++
              env.repr action ++ lit ": " ++ raised.type ++ lit "; failing closed"))
          else Effect.raise raised

/-- `_is_completed`. -/
def isCompleted (store : Store σ) (action key : Str) : Step σ Bool := do
  outside (Effect.change env.others)
  outside (Effect.inspect (fun process => .ok (process.registry.has (store.journalKey, action, key))))

/-- An append of the store; the builder may give more than the event. -/
def appendTo {β : Type} (store : Store σ) (sought : Option (Str × Str))
    (build : Option Str → Option Str → Step σ (Dict × β)) : Step σ (Dict × β) := do
  let heads ← outside (store.begin sought)
  let built ← build heads.1 heads.2
  match ← outside (fun process => (.ok (store.commit built.1 process).1, (store.commit built.1 process).2)) with
  | .stored => do
      note (.appended built.1)
      return built
  | .storedRaising raised => do
      note (.appended built.1)
      Effect.raise raised
  | .refused raised => Effect.raise raised

/-- A record of the action, with a new id. -/
def buildRecord (signer : Signer) (contract : ActionContract) (type : String) (extra : Dict) (previous : Option Str) :
    Step σ Dict := do
  let stamp ← outside env.stamp
  Effect.lift ((buildEvent env.host signer stamp contract type extra previous).mapError Raised.ofPyError)

/-- `_append_event`. -/
def appendEvent (store : Store σ) (signer : Signer) (contract : ActionContract) (type : String) (extra : Dict) :
    Step σ Dict := do
  let built ← appendTo store none (fun previous _ => do
    let event ← buildRecord env signer contract type extra previous
    return (event, ()))
  return built.1

/-- What `_prepare_execution` returns. -/
structure Prepared (σ : Type) where
  store : Store σ
  signer : Signer
  event : Dict
  redactedValues : List Str
  isDryRun : Bool

def requestOf (call : Call) : ApprovalRequest where
  actionName := call.contract.actionName
  risk := call.contract.risk
  approvalMode := call.contract.approvalMode
  redactedInputSummary := call.inputSummary
  inputHash := call.inputHash
  contractHash := call.contract.contractHash
  spendCents := call.spendCents

/-- Whether `_safe_output_hash` leaves a result out as it stands. -/
def echoes (removed : List Str) (result : Object) : Except Raised Bool := do
  let text ← (if removed.isEmpty then .ok none else match result with
    | .none => .ok none
    | result => (strOf env result).map some : Except Raised (Option Str))
  if text.any (fun text => removed.contains text) then return true
  else match result with
    | .str text => return removed.contains text || env.settings.patterns.any (fun searches => searches text)
    | _ => return false

/-- `_safe_output_hash`. -/
def safeOutputHash (removed : List Str) (result : Object) : Except Raised (Option Str) := do
  if ← echoes env removed result then return none
  else match canonicalize env.settings result with
    | .error (.canonicalization _) => return none
    | .error .raised => .error env.strError
    | .ok (canonical, _) =>
        match canonicalJsonBytes env.host canonical with
        | .ok bytes => return some (hex (env.host.sha256 bytes))
        | .error .canonicalizationError => return none
        | .error error => .error (Raised.ofPyError error)

def maxReceiptChars : Nat := 2000

/-- What is kept of a receipt. -/
def keptReceipt (receipt : Object) : Except Raised (Option Json) :=
  match canonicalize env.settings receipt with
  | .error (.canonicalization _) => .ok none
  | .error .raised => .error env.strError
  | .ok (canonical, _) =>
      match dumpsSpaced env.host canonical with
      | .error .canonicalizationError => .ok none
      | .error error => .error (Raised.ofPyError error)
      | .ok text =>
          match canonical with
          | .dict members => if text.length > maxReceiptChars then .ok none else .ok (some (.dict members))
          | _ => .ok none

/-- `_extract_receipt`. -/
def extractReceipt (receiptFrom : Option (Object → Outer σ Object)) (result : Object) : Step σ (Option Json) :=
  match receiptFrom with
  | none => return none
  | some extract => do
      match ← suppress (outside (extract result)) .none with
      | .none => return none
      | receipt => Effect.lift (keptReceipt env receipt)

/-- What is recorded of how the target has ended. -/
def endingOf (guarded : Guarded σ) (removed : List Str) : Except Raised Object → Step σ Ending
  | .ok result => do
      let outputHash ← Effect.lift (safeOutputHash env removed result)
      let receipt ← extractReceipt env guarded.receiptFrom result
      return .returned (env.typeName result) outputHash receipt
  | .error raised => do
      let text ← Effect.lift (raised.str env)
      return .raised raised.type (scrubText (env.scrubOrder removed) env.substitutes text)

/-- The result that the errors carry. -/
def carried : Except Raised Object → Object
  | .ok result => result
  | .error _ => .none

end Engine

end Tesera.Engine.Execution
