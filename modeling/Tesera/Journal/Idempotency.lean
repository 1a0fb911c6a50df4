import Tesera.Journal.Tail

/-!
Which earlier decision blocks a call with an idempotency key. The answer comes from
tables folded over the events of the file; a process keeps the tables of a journal
together with the size and the tail hash they describe, and folds its own appends in.
-/

namespace Tesera.Journal.Idempotency
open Tesera.Text Tesera.Text.Unicode Tesera.Text.Lines Tesera.Python.Value
open Tesera.Journal.Record Tesera.Journal.Tail

/-- A `dict` whose order of insertion is observed. -/
abbrev Ordered (ν : Type) := List (Str × ν)

namespace Ordered

def has {ν : Type} (m : Ordered ν) (key : Str) : Bool := m.any (fun p => p.1 == key)

def find {ν : Type} (m : Ordered ν) (key : Str) : Option ν :=
  (m.find? (fun p => p.1 == key)).map Prod.snd

end Ordered

/-- Lists by key; a key that was never given holds the empty list. -/
abbrev Linked := Members.Entries Str (List Json)

def linkedTo (linked : Linked) (id : Str) : List Json := (Members.get linked id).getD []

/-- `linked.setdefault(id, []).append(value)`. -/
def link (linked : Linked) (id : Str) (value : Json) : Linked :=
  Members.put id (linkedTo linked id ++ [value]) linked

/-- `_IdemTables`: the decisions that can block, their ids by action and key, and the
statuses and resolutions linked to them, each in file order. -/
structure IdemTables where
  decisions : Ordered Dict
  byKey : List ((Str × Str) × Str)
  outcomes : Linked
  resolutions : Linked

def IdemTables.empty : IdemTables := ⟨[], [], [], []⟩

def isEvent (name : String) (event : Dict) : Bool := asStr (get event "event_type") == some (lit name)

/-- `event.get("decision") == "allowed" and event.get("dry_run") is not True`. -/
def mayBlock (event : Dict) : Bool :=
  asStr (get event "decision") == some (lit "allowed") && !(get event "dry_run" matches .bool true)

/-- `_evolve_idem_tables`. -/
def evolveIdemTables (tables : IdemTables) (event : Dict) : IdemTables :=
  if isEvent "decision" event then
    match asStr (get event "action_name"), asStr (get event "event_id") with
    | some action, some id =>
        if mayBlock event && has event "idempotency_key" && !tables.decisions.has id then
          { tables with
            decisions := tables.decisions ++ [(id, event)]
            byKey :=
              match asStr (get event "idempotency_key") with
              | some key => tables.byKey ++ [((action, key), id)]
              | none => tables.byKey }
        else tables
    | _, _ => tables
  else if isEvent "outcome" event then
    match asStr (get event "decision_event_id"), asStr (get event "status") with
    | some id, some status =>
        if tables.decisions.has id then
          { tables with outcomes := link tables.outcomes id (.str status) }
        else tables
    | _, _ => tables
  else if isEvent "resolution" event then
    match asStr (get event "decision_event_id"), asStr (get event "resolution") with
    | some id, some resolution =>
        if tables.decisions.has id then
          { tables with resolutions := link tables.resolutions id (.str resolution) }
        else tables
    | _, _ => tables
  else tables

/-- The objects a scan of the file meets; lines that do not parse are skipped. -/
def readEvents (host : Host) : List Bytes → Except PyError (List Dict)
  | [] => .ok []
  | line :: rest =>
      match decodeLine host line with
      | .error e => if e.isValueError then readEvents host rest else .error e
      | .ok (.dict event) => (readEvents host rest).map (event :: ·)
      | .ok _ => readEvents host rest

/-- `_collect_idem_tables`. -/
def collectIdemTables (host : Host) (content : Bytes) : Except PyError IdemTables :=
  (readEvents host (records content)).map (List.foldl evolveIdemTables .empty)

/-! ## The blocking predicate -/

/-- Whether the outcomes and resolutions linked to a decision leave it blocking. -/
def isBlocking (host : Host) (statuses resolutions : List Json) : Bool :=
  if statuses.any (fun status => asStr status == some (lit "succeeded")) then true
  else if statuses.isEmpty then
    match resolutions.getLast? with
    | some last => pyStr host last != lit "confirmed_not_completed"
    | none => true
  else false

def matchesKey (action key : Str) (event : Dict) : Bool :=
  mayBlock event && asStr (get event "action_name") == some action &&
    asStr (get event "idempotency_key") == some key

/-- `_blocking_prior_from_state`: the earliest blocking decision. -/
def blockingPriorFromState (host : Host) (decisions : Ordered Dict) (outcomes resolutions : Linked)
    (action key : Str) : Option Dict :=
  (decisions.find? (fun p => matchesKey action key p.2 &&
    isBlocking host (linkedTo outcomes p.1) (linkedTo resolutions p.1))).map Prod.snd

/-- `_indexed_blocking_prior`. -/
def indexedBlockingPrior (host : Host) (tables : IdemTables) (action key : Str) : Option Dict :=
  let ids := (tables.byKey.filter (fun p => p.1 == (action, key))).map Prod.snd
  let candidates := ids.filterMap (fun id => (tables.decisions.find id).map (fun event => (id, event)))
  blockingPriorFromState host candidates tables.outcomes tables.resolutions action key

/-- What a full scan for blocking decisions collects; unlike the tables it keeps every
decision, and every outcome and resolution whatever its order. -/
structure ScanState where
  decisions : Ordered Dict
  outcomes : Linked
  resolutions : Linked

def scanEvent (state : ScanState) (event : Dict) : ScanState :=
  if isEvent "decision" event then
    match asStr (get event "event_id") with
    | some id =>
        if state.decisions.has id then state
        else { state with decisions := state.decisions ++ [(id, event)] }
    | none => state
  else if isEvent "outcome" event then
    match asStr (get event "decision_event_id") with
    | some id => { state with outcomes := link state.outcomes id (get event "status") }
    | none => state
  else if isEvent "resolution" event then
    match asStr (get event "decision_event_id") with
    | some id => { state with resolutions := link state.resolutions id (get event "resolution") }
    | none => state
  else state

def scanState (events : List Dict) : ScanState := events.foldl scanEvent ⟨[], [], []⟩

/-- The answer of a full scan over the events of a file. -/
def scanBlockingPrior (host : Host) (events : List Dict) (action key : Str) : Option Dict :=
  let state := scanState events
  blockingPriorFromState host state.decisions state.outcomes state.resolutions action key

/-- The `event_id` of a decision, when it is a text. -/
def idOf (event : Dict) : Option Str := asStr (get event "event_id")

/-- `_scan_blocking_idempotent`. -/
def scanBlockingIdempotent (host : Host) (content : Bytes) (action key : Str) :
    Except PyError (Option Str) :=
  (readEvents host (records content)).map
    (fun events => (scanBlockingPrior host events action key).bind idOf)

/-! ## The cached tables -/

/-- A process's entry for one journal: the size and head the tables describe. -/
structure CacheEntry where
  size : Nat
  head : Option Str
  tables : IdemTables

abbrev IdemCache := Option CacheEntry

/-- `_cached_idem_tables`. -/
def cachedIdemTables (cache : IdemCache) (size : Nat) (head : Option Str) : Option IdemTables :=
  (cache.filter (fun entry => decide (entry.size = size ∧ entry.head = head))).map CacheEntry.tables

/-- The index path of `_locked_blocking_prior_id`: the answer and the cache it leaves. -/
def indexedBlockingPriorId (host : Host) (name : String) (cache : IdemCache) (content : Bytes)
    (action key : Str) : Except PyError (Option Str × IdemCache) := do
  let head ← readLastEventHash host name content
  match cachedIdemTables cache content.length head with
  | some tables => return ((indexedBlockingPrior host tables action key).bind idOf, cache)
  | none =>
      let tables ← collectIdemTables host content
      return ((indexedBlockingPrior host tables action key).bind idOf,
        some ⟨content.length, head, tables⟩)

def PyError.isJournalOrOsError : PyError → Bool
  | .journalError _ => true
  | .osError _ => true
  | _ => false

/-- `_locked_blocking_prior_id`; the full scan answers where the index cannot. -/
def lockedBlockingPriorId (host : Host) (useIndex : Bool) (name : String) (cache : IdemCache)
    (content : Bytes) (action key : Str) : Except PyError (Option Str × IdemCache) :=
  let scanned := (scanBlockingIdempotent host content action key).map (fun id => (id, cache))
  if useIndex then
    match indexedBlockingPriorId host name cache content action key with
    | .ok answer => .ok answer
    | .error e => if PyError.isJournalOrOsError e then scanned else .error e
  else scanned

/-- `_note_idem_append`: fold an append into the tables that describe the file before
it, and forget any others. -/
def noteIdemAppend (useIndex : Bool) (cache : IdemCache) (event : Dict) (preSize : Nat)
    (preHead : Option Str) (postSize : Nat) (postHead : Option Str) : IdemCache :=
  if useIndex then
    match postHead, cache with
    | some head, some entry =>
        if entry.size = preSize ∧ entry.head = preHead then
          some ⟨postSize, some head, evolveIdemTables entry.tables event⟩
        else none
    | _, _ => none
  else cache

end Tesera.Journal.Idempotency
