import Tesera.Journal.Store
import Tesera.Verification.Journal

/-!
`verify_archive_chain`: the live file and every predecessor its links name. Each file
must verify on its own, and hold the count and the head its successor commits to. The
files do not change while the chain is walked.
-/

namespace Tesera.Verification.Chain
open Tesera.Text Tesera.Text.Unicode Tesera.Text.Lines Tesera.Python.Value
open Tesera.Journal.Record Tesera.Journal.Store
open Tesera.Verification.Event Tesera.Verification.Journal

/-- What stands under each name, for a reader; a name may be absent. -/
abbrev Directory := Str → Option Source

structure ChainIssue where
  file : Str
  code : String
  message : String

structure ChainReport where
  valid : Bool
  filesChecked : List Str
  issues : List ChainIssue

def chainReport (checked : List Str) (issues : List ChainIssue) : ChainReport :=
  ⟨issues.isEmpty, checked, issues⟩

/-- A read error after the lines of a file. -/
def readEnd {α : Type} (failure : Option String) (value : α) : Except PyError α :=
  match failure with
  | none => .ok value
  | some error => .error (.osError error)

/-- The first event of a file, if its first line that is not blank is an object. -/
def firstEvent (host : Host) (failure : Option String) : List Bytes → Except PyError (Option Dict)
  | [] => readEnd failure none
  | raw :: rest =>
      if strip raw = [] then firstEvent host failure rest
      else (decodeLine host raw).map asDict

def firstEventOf (host : Host) : Source → Except PyError (Option Dict)
  | .unopenable error => .error (.osError error)
  | .readable content failure => firstEvent host failure (splitLines content)

def hashOf (value : Json) : Option Str := (asDict value).bind (fun event => asStr (get event "event_hash"))

/-- The number of lines that are not blank, and the last hash among them. -/
def tally (host : Host) (failure : Option String) :
    List Bytes → Nat × Option Str → Except PyError (Nat × Option Str)
  | [], counted => readEnd failure counted
  | raw :: rest, (count, head) =>
      if strip raw = [] then tally host failure rest (count, head)
      else
        match decodeLine host raw with
        | .error e => if e.isValueError then tally host failure rest (count + 1, head) else .error e
        | .ok value => tally host failure rest (count + 1, (hashOf value).or head)

def tallyOf (host : Host) : Source → Except PyError (Nat × Option Str)
  | .unopenable error => .error (.osError error)
  | .readable content failure => tally host failure (splitLines content) (0, none)

/-- `except (OSError, ValueError)`. -/
def isUnreadable : PyError → Bool
  | .osError _ => true
  | e => e.isValueError

def unreadableIssue (file : Str) (error : PyError) : ChainIssue :=
  let text := error.text
  ⟨file, "archive_unreadable", s!"cannot read file: {text}"⟩

def missing (current : Str) : ChainIssue :=
  ⟨current, "archive_missing", "archived predecessor file is missing"⟩

def isArchive (event : Dict) : Bool := asStr (get event "event_type") == some (lit "archive")

/-- What the walk makes of one file: it ends there, or goes on to a link. -/
inductive Visit where
  | stop (issues : List ChainIssue)
  | follow (link : Dict)

/-- A first event is a link where it is an archive record. -/
def visitOf : Option Dict → Visit
  | some event => if isArchive event then .follow event else .stop []
  | none => .stop []

/-- The checks of one file that is there, and its link. -/
def visit (host : Host) (keys : List PublicKey) (current : Str) (source : Source) : Except PyError Visit := do
  let result ← verifyJournal host source keys none
  if result.valid then
    match firstEventOf host source with
    | .error e => if isUnreadable e then return .stop [unreadableIssue current e] else .error e
    | .ok first => return visitOf first
  else
    let detail := match result.issues with
      | [] => ""
      | first :: _ =>
          let code := first.code
          let message := first.message
          s!" [{code}] {message}"
    return .stop [⟨current, "archive_invalid", s!"file fails verification{detail}"⟩]

/-- The file a link names, when it is a bare name. -/
def linkTarget (link : Dict) : Option Str :=
  (asStr (get link "archived_path")).filter (fun name => !notBareName name)

/-- The issues of a link against the file it names. -/
def linkIssues (host : Host) (current predecessor : Str) (link : Dict) (counted : Nat × Option Str) :
    List ChainIssue :=
  if asInt (get link "prior_count") ≠ some (counted.1 : Int) then
    let committed := host.repr (get link "prior_count")
    let name := shown predecessor
    let count := counted.1
    [⟨current, "archive_count_mismatch",
      s!"archive commits to count {committed} but {name} holds {count} events"⟩]
  else if pyEq host (Canonical.linkOf counted.2) (get link "prior_head") then []
  else
    [⟨current, "archive_head_mismatch",
      "archive prior_head does not match the predecessor's last event_hash"⟩]

/-- Follow a link: the predecessor's name, or the issue with it. -/
def followLink (host : Host) (dir : Directory) (current : Str) (link : Dict) :
    Except PyError (List ChainIssue × Str) :=
  match linkTarget link with
  | none => .ok ([⟨current, "archive_bad_link", "archived_path must be a bare file name"⟩], current)
  | some predecessor =>
      match dir predecessor with
      | none => .ok ([missing predecessor], predecessor)
      | some source =>
          match tallyOf host source with
          | .error e =>
              if isUnreadable e then .ok ([unreadableIssue predecessor e], predecessor) else .error e
          | .ok counted => .ok (linkIssues host current predecessor link counted, predecessor)

/-- The report of a walk that ends at a file, or the link of the file. -/
def Visit.outcome (checked : List Str) : Visit → ChainReport ⊕ Dict
  | .stop issues => .inl (chainReport checked issues)
  | .follow link => .inr link

/-- What the walk makes of the name it has come to. -/
def arrive (host : Host) (keys : List PublicKey) (dir : Directory) (seen checked : List Str)
    (current : Str) : Except PyError (ChainReport ⊕ Dict) :=
  if seen.contains current then
    .ok (.inl (chainReport checked [⟨current, "archive_cycle", "archive chain loops"⟩]))
  else
    (dir current).elim (.ok (.inl (chainReport checked [missing current])))
      (fun source => (visit host keys current source).map (Visit.outcome (checked ++ [current])))

/-- The walk from a file, with the links it may still follow. -/
def walk (host : Host) (keys : List PublicKey) (dir : Directory) :
    Nat → List Str → List Str → Str → Except PyError ChainReport
  | 0, seen, checked, current => do
      let arrived ← arrive host keys dir seen checked current
      match arrived with
      | .inl report => return report
      | .inr _ =>
          return chainReport (checked ++ [current])
            [⟨current, "archive_too_deep", "archive chain too long"⟩]
  | left + 1, seen, checked, current => do
      let arrived ← arrive host keys dir seen checked current
      match arrived with
      | .inl report => return report
      | .inr link => do
          let followed ← followLink host dir current link
          match followed.1 with
          | [] => walk host keys dir left (seen ++ [current]) (checked ++ [current]) followed.2
          | issues => return chainReport (checked ++ [current]) issues

/-- `verify_archive_chain`. -/
def verifyArchiveChain (host : Host) (keys : List PublicKey) (dir : Directory) (maxLinks : Nat)
    (live : Str) : Except PyError ChainReport :=
  walk host keys dir maxLinks [] [] live

end Tesera.Verification.Chain
