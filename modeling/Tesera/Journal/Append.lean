import Tesera.Journal.Idempotency

/-!
The three appends of `FileJournal`. Each reads the tail under the lock, lets a builder
make the signed event from the previous hash, and writes one line. A call that raises
leaves the file as it was.
-/

namespace Tesera.Journal.Append
open Tesera.Text Tesera.Text.Unicode Tesera.Text.Lines Tesera.Python.Value
open Tesera.Journal.Record Tesera.Journal.Tail Tesera.Journal.Idempotency

/-- The file after an append, the event appended and the hash it was built on. -/
structure Appended where
  content : Bytes
  event : Dict
  previous : Option Str

/-- Build an event on the tail of the file and write it at the end. -/
def appendBuilt (host : Host) (name : String) (content : Bytes)
    (build : Option Str → Except PyError Dict) : Except PyError Appended := do
  let previous ← readLastEventHash host name content
  let event ← build previous
  let line ← encodeEvent host event
  return ⟨content ++ (line ++ [10]), event, previous⟩

/-- `append_event`; opening the file creates it. -/
def appendEvent (host : Host) (name : String) (file : Option Bytes)
    (build : Option Str → Except PyError Dict) : Except PyError Appended :=
  appendBuilt host name (file.getD []) build

/-- `_count_event_lines`. -/
def countEventLines (content : Bytes) : Nat := (records content).length

/-- `append_checkpoint`: the count is taken under the same lock. -/
def appendCheckpoint (host : Host) (name : String) (file : Option Bytes)
    (build : Nat → Option Str → Except PyError Dict) : Except PyError Appended :=
  appendBuilt host name (file.getD []) (build (countEventLines (file.getD [])))

/-- The blocking decision a call is told of, when it has an action and a key. -/
def blockingFor (host : Host) (useIndex : Bool) (name : String) (cache : IdemCache) (content : Bytes) :
    Option (Str × Str) → Except PyError (Option Str × IdemCache)
  | some (action, key) => lockedBlockingPriorId host useIndex name cache content action key
  | none => .ok (none, cache)

/-- `append_event_atomic`: the blocking decision is looked up under the same lock. -/
def appendEventAtomic (host : Host) (useIndex : Bool) (name : String) (cache : IdemCache)
    (file : Option Bytes) (query : Option (Str × Str))
    (build : Option Str → Option Str → Except PyError Dict) :
    Except PyError (Appended × IdemCache) := do
  let content := file.getD []
  let looked ← blockingFor host useIndex name cache content query
  let appended ← appendBuilt host name content (fun previous => build previous looked.1)
  return (appended, noteIdemAppend useIndex looked.2 appended.event content.length appended.previous
    appended.content.length (asStr (get appended.event "event_hash")))

/-- `archive_stats`. -/
def archiveStats (host : Host) (name : String) (content : Bytes) :
    Except PyError (Nat × Option Str) :=
  if content.length = 0 then .ok (0, none)
  else (readLastEventHash host name content).map (fun head => (countEventLines content, head))

theorem appendBuilt_eq_ok {host : Host} {name : String} {content : Bytes}
    {build : Option Str → Except PyError Dict} {appended : Appended} :
    appendBuilt host name content build = .ok appended ↔
      ∃ line, readLastEventHash host name content = .ok appended.previous ∧
        build appended.previous = .ok appended.event ∧ encodeEvent host appended.event = .ok line ∧
        appended.content = content ++ (line ++ [10]) := by
  simp only [appendBuilt, bind_eq_ok, pure, Except.pure, Except.ok.injEq]
  constructor
  · rintro ⟨previous, tail, event, built, line, encoded, rfl⟩
    exact ⟨line, tail, built, encoded, rfl⟩
  · rintro ⟨line, tail, built, encoded, same⟩
    refine ⟨_, tail, _, built, line, encoded, ?_⟩
    rw [← same]

end Tesera.Journal.Append
