import Tesera.TypeScript.FileJournal

/-!
A line of a TypeScript journal through the readers of it: `JSON.parse`, the raw parse and its
encoding, the tail read that the next append starts from, and the digest of the verifier. All
give back what was written exactly if no string of the event has the letters `u2028` or
`u2029` after a backslash, and no name in it is `$num` or `__proto__`.
-/

namespace Tesera.TypeScript.LineRoundTrip
open Tesera.Text Tesera.Text.Unicode Tesera.Text.Lines Tesera.Text.Json
open Tesera.TypeScript.Value Tesera.TypeScript.Escape Tesera.TypeScript.Canonical Tesera.TypeScript.RawTree
open Tesera.TypeScript.FileJournal

/-- Every reader of the line gets the event that was written. -/
structure ReadsBack (host : Host) (sha256 : Bytes → Bytes) (event : Record) (line : Str) : Prop where
  parsed : parseJson host.toEngine line = some (.obj event)
  raw : (parseRaw line).bind (canonicalRaw host) = some line
  /-- The next append finds the hash, so the journal can be extended. -/
  tail : ∀ hash, Members.get event (lit "event_hash") = some (.str hash) → ∀ content, Terminated content →
    readLastEventHash host.toEngine (written content line) = .ok (some hash) ∧
      Terminated (written content line)
  /-- The verifier computes the digest the writer signed. -/
  digest : ∀ payload digest signature, Members.get payload (lit "event_hash") = none →
    Members.get payload (lit "signature") = none → Members.Sorted payload →
      eventDigest sha256 payload = some digest → event = finalized payload digest signature →
        digestOfUnsigned host sha256 line = some digest

/-- No reader of the line takes a part of the event for something else. -/
def Plain (event : Record) : Prop := (Json.obj event).Strings Unmarked ∧ (Json.obj event).Names Apart

/-! ## The unsigned payload -/

def isSeal (key : Str) : Bool := decide (key ≠ lit "event_hash" ∧ key ≠ lit "signature")

theorem unsigned_finalized {payload : Record} (digest : Bytes) (signature : Str)
    (noHash : Members.get payload (lit "event_hash") = none)
    (noSignature : Members.get payload (lit "signature") = none) (sorted : Members.Sorted payload) :
    (finalized payload digest signature).filter (fun p => isSeal p.1) = payload := by
  apply Members.ext_get
  · exact Members.sorted_filter (Members.sorted_put (Members.sorted_put sorted _ _) _ _) _
  · exact sorted
  · intro key
    rw [Members.get_filter]
    by_cases hash : key = lit "event_hash"
    · rw [hash, noHash]
      rfl
    · by_cases signed : key = lit "signature"
      · rw [signed, noSignature]
        rfl
      · have kept : isSeal key = true := decide_eq_true ⟨hash, signed⟩
        rw [if_pos kept, finalized, Members.get_put_of_ne signed, Members.get_put_of_ne hash]

theorem oneLine_render {event : Record} (units : (Json.obj event).Strings Units)
    (unmarked : (Json.obj event).Strings Unmarked) : OneLine (render (toTree (.obj event))) where
  wellFormed := wellFormed_render _ (strings_and _ units unmarked)
  plain := control_free _
  nonempty := by
    obtain ⟨body, shape⟩ := JsonRoundTrip.render_obj_braces (toMembers event)
    rw [toTree, shape]
    exact List.cons_ne_nil _ _

theorem trim_render (event : Record) : trim (render (toTree (.obj event))) = render (toTree (.obj event)) := by
  obtain ⟨body, shape⟩ := JsonRoundTrip.render_obj_braces (toMembers event)
  have first : ¬ isTrimmed 123 = true := by decide
  have last : ¬ isTrimmed 125 = true := by decide
  rw [toTree, shape, trim, List.dropWhile_cons_of_neg first, ← List.cons_append,
    List.rdropWhile_concat_neg _ _ _ last]

theorem parseRaw_render {event : Record} (sorted : Members.Sorted event) (plain : Plain event) :
    parseRaw (render (toTree (.obj event))) = some (.obj (nodesOf event) none) := by
  obtain ⟨unmarked, names⟩ := plain
  have accepted := JsonRoundTrip.parse_render strict _ ((treeOk_strict (.obj event)).mpr unmarked)
  simp only [Json.Strings] at unmarked
  simp only [Json.Names] at names
  have apart := namedApart_of_names names
  rw [parseRaw, accepted, Option.map_some, toTree,
    toNode_obj sorted unmarked (fun p member => (apart p member).2)]

theorem unsignedText_render {host : Host} {event : Record} (ok : (Json.obj event).Ok host.toEngine)
    (plain : Plain event) :
    unsignedText host (render (toTree (.obj event))) =
      canonical (.obj (event.filter (fun p => isSeal p.1))) := by
  have unmarked := plain.1
  have names := plain.2
  simp only [Json.Ok] at ok
  simp only [Json.Strings] at unmarked
  simp only [Json.Names] at names
  have rest : ∀ p ∈ event.filter (fun p => isSeal p.1), p ∈ event := fun p member => List.mem_of_mem_filter member
  have okRest : OkMembers host.toEngine (event.filter (fun p => isSeal p.1)) :=
    okMembers_iff.mpr (fun p member => okMembers_iff.mp ok.2 p (rest p member))
  have unmarkedRest : StringsMembers Unmarked (event.filter (fun p => isSeal p.1)) :=
    stringsMembers_iff.mpr (fun p member => stringsMembers_iff.mp unmarked p (rest p member))
  have namesRest : NamesMembers Apart (event.filter (fun p => isSeal p.1)) :=
    namesMembers_iff.mpr (fun p member => namesMembers_iff.mp names p (rest p member))
  have nodes : (nodesOf event).filter (fun p => isSeal p.1) = nodesOf (event.filter (fun p => isSeal p.1)) := by
    simp only [nodesOf, List.filter_map]
    rfl
  have apart := namedApart_of_names namesRest
  have noNum := rawNum_nodesOf (fun p member => (apart p member).1)
  have okAll : (Json.obj (event.filter (fun p => isSeal p.1))).Ok host.toEngine := by
    simp only [Json.Ok]
    exact ⟨Members.sorted_filter ok.1 _, okRest⟩
  rw [unsignedText, trim_render, parseRaw_render ok.1 plain, Option.bind_some]
  simp only [deleteSeal, Option.bind_some]
  rw [show (nodesOf event).filter (fun p => decide (p.1 ≠ lit "event_hash" ∧ p.1 ≠ lit "signature")) =
    nodesOf (event.filter (fun p => isSeal p.1)) from nodes]
  rw [hashedText, noNum, canonicalRaw, encodeRaw_eq, rawTree, noNum, canonical_eq host.toEngine _ okAll, toTree]
  simp only [rawMembers_nodesOf host _ okRest unmarkedRest namesRest, Option.map_some]

/-! ## The round trip -/

/-- A plain event reads back, by every reader. -/
theorem readsBack_of_plain {host : Host} (sha256 : Bytes → Bytes) {event : Record}
    (ok : (Json.obj event).Ok host.toEngine) (wellFormed : (Json.obj event).Strings WellFormed)
    (plain : Plain event) : ReadsBack host sha256 event (render (toTree (.obj event))) := by
  have one := oneLine_render (strings_mono (fun _ => units_of_wellFormed) _ wellFormed) plain.1
  have parsed := (parseJson_canonical host.toEngine ok).mpr plain.1
  refine ⟨parsed, (canonicalRaw_parseRaw host ok plain.1).mpr plain.2, ?_, ?_⟩
  · intro hash stored content terminated
    exact ⟨readLastEventHash_written terminated one parsed stored, terminated_written content one.wellFormed⟩
  · intro payload digest signature noHash noSignature sorted hashed isFinal
    rw [digestOfUnsigned, unsignedText_render ok plain, isFinal,
      unsigned_finalized digest signature noHash noSignature sorted]
    exact hashed

/-- A line of the journal reads back as the event written, exactly if the event is plain. -/
theorem line_reads_back_iff_plain (host : Host) (sha256 : Bytes → Bytes) (event : Record)
    (ok : (Json.obj event).Ok host.toEngine) (wellFormed : (Json.obj event).Strings WellFormed) :
    (∃ line, canonical (.obj event) = some line ∧ ReadsBack host sha256 event line) ↔ Plain event := by
  have text := canonical_eq host.toEngine (.obj event) ok
  constructor
  · intro ⟨line, encoded, reads⟩
    have same : line = render (toTree (.obj event)) := Option.some.inj (encoded.symm.trans text)
    subst same
    have unmarked := (parseJson_canonical host.toEngine ok).mp reads.parsed
    exact ⟨unmarked, (canonicalRaw_parseRaw host ok unmarked).mp reads.raw⟩
  · intro plain
    exact ⟨_, text, readsBack_of_plain sha256 ok wellFormed plain⟩

theorem some_double {d r : Dec} (_ : some d = some r) : some r = some r := rfl

/-- An engine for events without numbers. -/
def plainHost : Host where
  double := some
  double_double := some_double
  stringOf := fun _ => none
  numberOf := fun _ => none

theorem line_reads_back_iff_plain_sample :
    ∃ line, canonical (.obj [(lit "note", .str (lit "paid"))]) = some line ∧
      ReadsBack plainHost id [(lit "note", .str (lit "paid"))] line := by
  apply (line_reads_back_iff_plain plainHost id [(lit "note", .str (lit "paid"))] ?_ ?_).mpr
  · simp only [Plain, Json.Strings, StringsMembers, Json.Names, NamesMembers, Unmarked, Apart]
    exact ⟨by decide, by decide⟩
  · simp [Json.Ok, OkMembers, Members.Sorted]
  · simp only [Json.Strings, StringsMembers]
    exact ⟨wellFormed_low (by decide), wellFormed_low (by decide), trivial⟩

/-- An outcome whose error text quotes an escape sequence. -/
def quotedEscape : Record := [(lit "sanitized_error_summary", .str (lit "bad escape \\u2028"))]

/-- The line of such an event is no JSON, so not every event record reads back. -/
theorem quotedEscape_not_read :
    ¬ ∀ event : Record, (Json.obj event).Ok plainHost.toEngine → (Json.obj event).Strings WellFormed →
      ∃ line, canonical (.obj event) = some line ∧ ReadsBack plainHost id event line := by
  intro all
  have ok : (Json.obj quotedEscape).Ok plainHost.toEngine := by
    simp [quotedEscape, Json.Ok, OkMembers, Members.Sorted]
  have wellFormed : (Json.obj quotedEscape).Strings WellFormed := by
    simp only [quotedEscape, Json.Strings, StringsMembers]
    exact ⟨wellFormed_low (by decide), wellFormed_low (by decide), trivial⟩
  obtain ⟨line, encoded, reads⟩ := all quotedEscape ok wellFormed
  have same : line = render (toTree (.obj quotedEscape)) :=
    Option.some.inj (encoded.symm.trans (canonical_eq plainHost.toEngine _ ok))
  subst same
  have unmarked := (parseJson_canonical plainHost.toEngine ok).mp reads.parsed
  simp only [quotedEscape, Json.Strings, StringsMembers, Unmarked] at unmarked
  exact unmarked.2.1 (by decide)

end Tesera.TypeScript.LineRoundTrip
