import Tesera.Verification.Custody

/-!
Hosts that know the digests and the signatures of a table of payloads, for files whose
events were sealed elsewhere.
-/

namespace Tesera.Verification.Sealed
open Tesera.Text Tesera.Text.Unicode Tesera.Text.Lines Tesera.Python.Value
open Tesera.Canonical Tesera.Journal.Record Tesera.Journal.Tail
open Tesera.Verification.Event Tesera.Verification.Journal Tesera.Verification.Valid Tesera.Verification.Extend
open Tesera.Verification.Custody

/-- The length of a payload's canonical bytes, their digest, its signature, and the
signature in base 64. -/
abbrev Seal := Nat × Bytes × Bytes × Str

/-- A host that knows the seals; every other text has the given digest. -/
def sealedHost (seals : List Seal) (other : Bytes) : Host :=
  Host.plain
    (fun bytes => ((seals.find? (fun entry => entry.1 == bytes.length)).map (fun entry => entry.2.1)).getD other)
    (fun text => (seals.find? (fun entry => entry.2.2.2 == text)).map (fun entry => entry.2.2.1))

/-- A key that accepts the signatures of the seals on their digests. -/
def sealedKey (seals : List Seal) (raw : Bytes) : PublicKey where
  raw := raw
  accepts := fun signature digest => seals.any (fun entry => entry.2.2.1 == signature && entry.2.1 == digest)

/-- A payload with the hash and the signature of its seal. -/
def sealed (entry : Seal) (payload : Dict) : Dict :=
  Members.put (lit "signature") (.str entry.2.2.2) (Members.put (lit "event_hash") (.str (hex entry.2.1)) payload)

theorem dictOk_sealed {host : Host} {entry : Seal} {payload : Dict} (ok : DictOk host payload) :
    DictOk host (sealed entry payload) := by
  have hashed := dictOk_put ok (lit "event_hash") (by simp [Json.Ok] : (Json.str (hex entry.2.1)).Ok host)
  exact dictOk_put hashed (lit "signature") (by simp [Json.Ok])

/-- Whitespace after whole lines is all that stands after the last of them. -/
theorem blank_fragment_append {content space : Bytes} (ended : fragment content = []) (blank : Blank space) :
    Blank (fragment (content ++ space)) := by
  have none : content.reverse.takeWhile (fun b => !isNewline b) = [] := by
    simpa [fragment, List.rtakeWhile] using ended
  intro b member
  rw [fragment, List.rtakeWhile, List.reverse_append, List.mem_reverse, List.takeWhile_append, none] at member
  split_ifs at member with all
  · rw [List.append_nil, List.mem_reverse] at member
    exact blank b member
  · exact blank b (List.mem_reverse.mp (List.takeWhile_subset _ member))

/-- A file one event longer, where whitespace stands before the event on its line. -/
theorem validFile_spaced {host : Host} {trusted : Keyring} {content line space : Bytes} {events : List Dict}
    {event : Dict} (file : ValidFile host trusted content events) (ended : fragment content = [])
    (blank : Blank space) (ok : DictOk host event) (encoded : encodeEvent host event = .ok line)
    (verified : verifyEvent host event 0 (lastHash events) trusted (checkpointsAfter [] events) = .ok [])
    (other : isCheckpoint event = false) :
    ValidFile host trusted (content ++ (space ++ (line ++ [10]))) (events ++ [event]) := by
  have whole : Terminated content := terminated_of_whole ended
  have same : records (content ++ space) = records content := by
    rw [records_append whole, records_of_blank blank, List.append_nil]
  have spaced : ValidFile host trusted (content ++ space) events :=
    ⟨same ▸ file.decoded, file.clean, file.covered⟩
  rw [← List.append_assoc]
  exact validFile_written spaced (blank_fragment_append ended blank) ok encoded (verifyEvent_eq_nil.mp verified)
    (by simp [other])

end Tesera.Verification.Sealed
