import Tesera.Transition
import Tesera.Text.Number
import Tesera.Python.Value

/-!
`ApprovalServer`: the table of pending requests, the callers that wait for a decision and the
operators that make one. What happens under the lock is one step; between its locked parts a
call of `await_decision` waits, and wakes or times out at any moment.
-/

namespace Tesera.Approval
open Tesera.Text Tesera.Text.Unicode Tesera.Text.Number Tesera.Python.Value

inductive Verdict where
  | allowed
  | denied
  deriving DecidableEq

structure ApprovalDecision where
  decision : Verdict
  reason : Str
  approvedBy : Option Str
  deriving DecidableEq

def ApprovalDecision.allowed (d : ApprovalDecision) : Bool := decide (d.decision = .allowed)

/-- `_Pending`, without the request that the page shows. -/
structure Pending (Time : Type) where
  createdAt : Time
  decided : Bool
  decision : Option ApprovalDecision
  decisionToken : Str

/-- What a call of `await_decision` does next: wait for the event, take the entry out of the
table, or answer. The flag is what the wait returned. -/
inductive Phase where
  | waiting
  | removing (decided : Bool)
  | answering (decided : Bool)
  | done
  deriving DecidableEq

/-- A call that has found its request. The number stands for the reference to the object. -/
structure Call (Timeout : Type) where
  pendingId : Str
  timeout : Timeout
  object : Nat
  phase : Phase

/-- What has happened to the requests: a `_decide` that returned `True`, a request that was
swept, one that was taken out undecided after the time of its caller was over, and an answer
to a caller. -/
inductive Event where
  | decided (object : Nat) (allow : Bool) (operator token : Str)
  | swept (object : Nat)
  | timedOut (object : Nat)
  | answered (object : Option Nat) (decision : ApprovalDecision)
  deriving DecidableEq

/-- The server, with its request objects in the order of their registration. The log has the
newest event first. -/
structure Server (Time Timeout : Type) where
  objects : List (Pending Time)
  pending : List (Str × Nat)
  calls : List (Call Timeout)
  log : List Event

/-- The settings of a server: its page token, whether a request has outlived its time to live
at a reading of the clock, and a timeout as the answer shows it. -/
structure Settings (Time Timeout : Type) where
  token : Str
  overdue : Time → Time → Bool
  secondsText : Timeout → Str

section Server

variable {Time Timeout : Type}

/-- The id of the request that was registered after this many others. -/
def pendingId (object : Nat) : Str := lit "req-" ++ (decimal (object + 1)).text

def expired : ApprovalDecision := ⟨.denied, lit "approval request expired", none⟩

def noDecision (settings : Settings Time Timeout) (timeout : Timeout) : ApprovalDecision :=
  ⟨.denied, lit "no operator decision within " ++ settings.secondsText timeout ++ lit "s; failing closed", none⟩

/-- The decision of an operator, who is `web` without a name. -/
def operatorDecision (allow : Bool) (operator : Str) : ApprovalDecision :=
  let name := if operator = [] then lit "web" else operator
  ⟨if allow then .allowed else .denied, lit "decided by operator (" ++ name ++ lit ")", some name⟩

namespace Server

/-- `self._pending.get(pending_id)` -/
def find (server : Server Time Timeout) (id : Str) : Option Nat := server.pending.lookup id

def pop (server : Server Time Timeout) (id : Str) : Server Time Timeout :=
  { server with pending := server.pending.filter (fun entry => decide (entry.1 ≠ id)) }

def settle (server : Server Time Timeout) (object : Nat) (decision : ApprovalDecision) : Server Time Timeout :=
  { server with
    objects := server.objects.modify object
      (fun pending => { pending with decision := some decision, decided := true }) }

def record (server : Server Time Timeout) (event : Event) : Server Time Timeout :=
  { server with log := event :: server.log }

def isExpired (settings : Settings Time Timeout) (server : Server Time Timeout) (now : Time) (entry : Str × Nat) :
    Bool :=
  server.objects[entry.2]?.any (fun pending => settings.overdue now pending.createdAt && !pending.decided)

def expire (server : Server Time Timeout) (entry : Str × Nat) : Server Time Timeout :=
  ((server.pop entry.1).settle entry.2 expired).record (.swept entry.2)

/-- `_sweep_locked` -/
def sweep (settings : Settings Time Timeout) (server : Server Time Timeout) (now : Time) : Server Time Timeout :=
  (server.pending.filter (isExpired settings server now)).foldl expire server

/-- A request in the table; its id is new, so its entry is the last. -/
def add (server : Server Time Timeout) (createdAt : Time) (token : Str) : Server Time Timeout :=
  { server with
    objects := server.objects ++ [⟨createdAt, false, none, token⟩]
    pending := server.pending ++ [(pendingId server.objects.length, server.objects.length)] }

/-- `register`; it reads the clock for the new request and again to sweep. -/
def register (settings : Settings Time Timeout) (server : Server Time Timeout) (createdAt : Time) (token : Str)
    (now : Time) : Server Time Timeout := sweep settings (server.add createdAt token) now

end Server

/-- `secrets.compare_digest`, which takes strings of ASCII only. -/
def compareDigest (a b : Str) : Except PyError Bool :=
  if (a ++ b).all (fun c => decide (c < 128)) then .ok (decide (a = b)) else .error .typeError

namespace Server

/-- `_decide`; an exception leaves the lock and the server as they were. -/
def decide (server : Server Time Timeout) (id : Str) (allow : Bool) (operator token : Str) :
    Except PyError (Bool × Server Time Timeout) :=
  match server.find id with
  | none => .ok (false, server)
  | some object =>
      match server.objects[object]? with
      | none => .ok (false, server)
      | some pending =>
          if pending.decided then .ok (false, server)
          else (compareDigest token pending.decisionToken).map (fun same =>
            if same then
              (true, (server.settle object (operatorDecision allow operator)).record
                (.decided object allow operator token))
            else (false, server))

/-- The number of a request that has been registered with this id. -/
def requestOf (server : Server Time Timeout) (id : Str) : Option Nat :=
  (List.range server.objects.length).find? (fun object => Decidable.decide (pendingId object = id))

end Server

/-- The fields of a decision form, each with its first value if it has one. -/
structure Form where
  token : Option Str
  id : Option Str
  decision : Option Str
  operator : Option Str
  requestToken : Option Str

inductive Response where
  | forbidden
  | recorded
  | gone
  deriving DecidableEq

/-- `do_POST` of the decision form. -/
def doPost (settings : Settings Time Timeout) (server : Server Time Timeout) (form : Form) :
    Except PyError (Response × Server Time Timeout) := do
  if !(← compareDigest (form.token.getD []) settings.token) then return (.forbidden, server)
  let (ok, after) ← server.decide (form.id.getD []) (decide (form.decision.getD [] = lit "allow"))
    ((form.operator.getD (lit "web")).take 120) (form.requestToken.getD [])
  return (if ok then .recorded else .gone, after)

/-- The steps of all threads: a new request, a call of `await_decision` with what it does
under the lock first, its wait that ends with the event or without, its two last parts, a
decision, a form of an operator, and the snapshot for a page. -/
inductive Action (Time Timeout : Type) where
  | register (createdAt : Time) (token : Str) (now : Time)
  | await (id : Str) (timeout : Timeout)
  | wake (call : Nat)
  | expire (call : Nat)
  | remove (call : Nat)
  | answer (call : Nat)
  | decide (id : Str) (allow : Bool) (operator token : Str)
  | post (form : Form)
  | snapshot (now : Time)

namespace Server

/-- The first part of `await_decision`. -/
def lookup (server : Server Time Timeout) (id : Str) (timeout : Timeout) : Server Time Timeout :=
  match server.find id with
  | none => server.record (.answered (server.requestOf id) expired)
  | some object => { server with calls := server.calls ++ [⟨id, timeout, object, .waiting⟩] }

def setPhase (server : Server Time Timeout) (call : Nat) (phase : Phase) : Server Time Timeout :=
  { server with calls := server.calls.modify call (fun c => { c with phase := phase }) }

def decidedFlag (server : Server Time Timeout) (object : Nat) : Bool :=
  server.objects[object]?.any (fun pending => pending.decided)

/-- The second locked part of `await_decision`. -/
def takeOut (server : Server Time Timeout) (number : Nat) (call : Call Timeout) (decided : Bool) :
    Server Time Timeout :=
  let taken := (server.pop call.pendingId).setPhase number (.answering decided)
  if decided || server.decidedFlag call.object then taken else taken.record (.timedOut call.object)

/-- What `await_decision` returns. -/
def outcome (settings : Settings Time Timeout) (server : Server Time Timeout) (call : Call Timeout)
    (decided : Bool) : ApprovalDecision :=
  match decided, server.objects[call.object]?.bind (fun pending => pending.decision) with
  | true, some decision => decision
  | _, _ => noDecision settings call.timeout

end Server

open Server in
/-- A step; one that its thread cannot take gives nothing. -/
def step (settings : Settings Time Timeout) (server : Server Time Timeout) :
    Action Time Timeout → Option (Server Time Timeout)
  | .register createdAt token now => some (register settings server createdAt token now)
  | .await id timeout => some (lookup server id timeout)
  | .wake number =>
      (server.calls[number]?).bind (fun call =>
        if call.phase = .waiting ∧ server.decidedFlag call.object = true then
          some (server.setPhase number (.removing true))
        else none)
  | .expire number =>
      (server.calls[number]?).bind (fun call =>
        if call.phase = .waiting then some (server.setPhase number (.removing false)) else none)
  | .remove number =>
      (server.calls[number]?).bind (fun call =>
        match call.phase with
        | .removing decided => some (takeOut server number call decided)
        | _ => none)
  | .answer number =>
      (server.calls[number]?).bind (fun call =>
        match call.phase with
        | .answering decided =>
            some ((server.setPhase number .done).record
              (.answered (some call.object) (outcome settings server call decided)))
        | _ => none)
  | .decide id allow operator token =>
      match server.decide id allow operator token with
      | .ok (_, after) => some after
      | .error _ => some server
  | .post form =>
      match doPost settings server form with
      | .ok (_, after) => some after
      | .error _ => some server
  | .snapshot now => some (sweep settings server now)

/-- A server that has just been started. -/
def Server.initial : Server Time Timeout := ⟨[], [], [], []⟩

end Server

end Tesera.Approval
