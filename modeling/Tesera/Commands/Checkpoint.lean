import Tesera.Journal.Payloads
import Tesera.Journal.Store

/-!
`checkpoint_journal`: append a signed checkpoint and write it as a witness to a file of
its own, by default beside the journal.
-/

namespace Tesera.Commands.Checkpoint
open Tesera.Effects Tesera.Text Tesera.Text.Unicode Tesera.Text.Json Tesera.Python.Value
open Tesera.Python.JsonCodec Tesera.Canonical
open Tesera.Journal.Payloads Tesera.Journal.Append Tesera.Journal.Store

/-! ## The witness text -/

/-- A character as `ensure_ascii` writes it; beyond the basic plane it is a pair. -/
def asciiPiece : Piece → List Piece
  | .lit c =>
      if c < 127 then [.lit c]
      else if c < 65536 then [.esc c]
      else [.esc (55296 + (c - 65536) / 1024), .esc (56320 + (c - 65536) % 1024)]
  | piece => [piece]

mutual

def asciiTree : Tree → Tree
  | .str text => .str (text.flatMap asciiPiece)
  | .arr items => .arr (asciiItems items)
  | .obj members => .obj (asciiMembers members)
  | tree => tree

def asciiItems : List Tree → List Tree
  | [] => []
  | tree :: items => asciiTree tree :: asciiItems items

def asciiMembers : List (List Piece × Tree) → List (List Piece × Tree)
  | [] => []
  | (key, tree) :: members => (key.flatMap asciiPiece, asciiTree tree) :: asciiMembers members

end

/-- `json.dumps(event, sort_keys=True, separators=(",", ":"))`. -/
def dumpsAscii (host : Host) (value : Json) : Except PyError Str :=
  match checkDumps host true host.recursionLimit value with
  | .ok _ => .ok (render (asciiTree (toTree value)))
  | .error e => .error e

/-! ## The command -/

/-- Where a witness goes: beside the journal, to a named file of the same directory, or
to a file elsewhere. -/
inductive WitnessPath where
  | beside
  | named (name : Str)
  | elsewhere

/-- The file of the journal's directory that the witness overwrites. -/
def WitnessPath.target (journal : Str) : WitnessPath → Option Str
  | .beside => some (journal ++ lit ".checkpoint")
  | .named name => some name
  | .elsewhere => none

def writeTarget (target : Option Str) (content : Bytes) : Command Unit :=
  Effect.change (fun world => target.elim world (fun name => world.write name content))

/-- `_write_durable`: opening the file empties it. -/
def writeDurable (io : Io) (target : Option Str) (text : Str) : Command Unit := do
  attempt io .witnessOpening
  writeTarget target []
  let encoded ← Effect.lift (encodeUtf8 text)
  attempt io .witnessWriting
  writeTarget target encoded

structure CheckpointReport where
  event : Dict
  count : Int
  head : Json

/-- `checkpoint_journal`. -/
def checkpointJournal (host : Host) (io : Io) (journal : Str) (identity : Except PyError Signer)
    (stamp : Stamp) (witness : WitnessPath) : Command CheckpointReport := do
  let signer ← Effect.lift identity
  let build := fun count previous =>
    finalizeEvent host (checkpointPayload signer stamp count previous) signer.sign
  let event ← appendAt io journal (fun file => appendCheckpoint host (shown journal) file build)
  let text ← Effect.lift (dumpsAscii host (.dict event))
  writeDurable io (witness.target journal) text
  let count ← Effect.lift (item event "checkpoint_count" >>= pyInt host)
  return ⟨event, count, get event "head_sha256"⟩

end Tesera.Commands.Checkpoint
