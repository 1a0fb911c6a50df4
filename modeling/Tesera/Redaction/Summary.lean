import Tesera.Redaction.SpacedText

/-!
`privacy.py`: what a decision event retains of the arguments, read from the records of the parameters
or, in older journals, from the summary that is shown. The summary is parsed and written again; what is
not written the same is not trusted.
-/

namespace Tesera.Redaction.Summary
open Tesera.Text Tesera.Text.Unicode Tesera.Text.Json Tesera.Text.JsonRoundTrip
open Tesera.Python.Value Tesera.Python.JsonCodec
open Tesera.Redaction.Traversal hiding bind_eq_ok
open Tesera.Redaction.Scrubbing Tesera.Redaction.Evidence Tesera.Redaction.SpacedText

/-- `str.isidentifier`: an identifier has no equals sign. -/
structure IdentifierTable where
  isIdentifier : Str → Bool
  plain : ∀ name, isIdentifier name = true → 0x3D ∉ name

inductive PrivacyClassification where
  | fullyRedacted
  | partiallyRedacted
  | noArguments
  | unknown
  deriving DecidableEq

/-- What a classifier returns of an event. -/
structure Classified where
  classification : PrivacyClassification
  retainedNames : List Str
  explanation : String

def noArguments : Classified := ⟨.noArguments, [], "the invocation recorded no arguments"⟩

def fullyRedacted : Classified :=
  ⟨.fullyRedacted, [], "every recorded argument value is the evidence v1 redaction marker"⟩

def partiallyRedacted (names : List Str) : Classified :=
  ⟨.partiallyRedacted, names, "one or more ordinary argument values remain in signed evidence"⟩

def unsupportedArguments (names : List Str) : Classified :=
  ⟨.unknown, names, "one or more arguments use an unsupported type placeholder " ++
    "(or a value resembling one — markers are display hints, not proofs)"⟩

def unknown (names : List Str) (explanation : String) : Classified := ⟨.unknown, names, explanation⟩

/-- `sorted(names)`. -/
def sorted (names : List Str) : List Str := names.mergeSort (fun a b => decide (a ≤ b))

/-! ## The records of the parameters -/

def stateText : Retention → Str
  | .redacted => lit "redacted"
  | .unsupported => lit "unsupported"
  | .retained => lit "retained"

/-- The `parameter_retention` of an event. -/
def retentionJson (records : List (Str × Retention)) : Json :=
  .list (records.map (fun record => .dict [(lit "name", .str record.1), (lit "state", .str (stateText record.2))]))

/-- The names and states of the records, or what is returned at one that is no record or repeats a name.
A state that is a container has no hash. -/
def readRecords : List Json → List (Str × Str) → Except PyError (Classified ⊕ List (Str × Str))
  | [], read => .ok (.inr read)
  | record :: rest, read => do
      let malformed := unknown (read.map Prod.fst) "parameter_retention contains a malformed or unknown record"
      match asDict record with
      | none => return .inl malformed
      | some fields =>
          match asStr (get fields "name") with
          | none => return .inl malformed
          | some name =>
              let known ← inSet ["redacted", "retained", "unsupported"] (get fields "state")
              match known, asStr (get fields "state") with
              | true, some state =>
                  if (read.map Prod.fst).contains name then
                    return .inl (unknown (read.map Prod.fst) "parameter_retention repeats a parameter name")
                  else readRecords rest (read ++ [(name, state)])
              | _, _ => return .inl malformed

/-- `_classify_retention`. -/
def classifyRetention : Json → Except PyError Classified
  | .list [] => .ok noArguments
  | .list records => do
      match ← readRecords records [] with
      | .inl classified => return classified
      | .inr read =>
          let states := read.map Prod.snd
          if states.contains (lit "unsupported") then return unsupportedArguments (sorted (read.map Prod.fst))
          else if states.contains (lit "retained") then
            return partiallyRedacted ((read.filter (fun record => record.2 == lit "retained")).map Prod.fst)
          else return fullyRedacted
  | _ => .ok (unknown [] "parameter_retention is not a list")

/-! ## The summary -/

/-- `decoder.raw_decode`: the value a text begins with, and what follows it. -/
def rawDecode (host : Host) (text : Str) : Option (Json × Str) :=
  if skipWs text = text ∧ nesting (pyDialect host) text ≤ host.recursionLimit then
    (parseValue (pyDialect host) (2 * text.length + 2) text).map (fun r => (ofTree host r.1, r.2))
  else none

/-- What stands before and after the first equals sign. -/
def splitEquals (text : Str) : Option (Str × Str) :=
  if 0x3D ∈ text then some (text.takeWhile (fun c => c != 0x3D), (text.dropWhile (fun c => c != 0x3D)).tail) else none

/-- What follows a separator. -/
def afterSeparator (text : Str) : Option Str :=
  if lit ", " <+: text then some (text.drop 2) else none

/-- The loop of `_parse_exact_summary` on what is left of the summary: the names and values, or the names
it had read. Each pass consumes a character, so that the length bounds the passes. -/
def parseParts (host : Host) (table : IdentifierTable) : Nat → List (Str × Json) → Str → Except (List Str) (List (Str × Json))
  | 0, parsed, _ => .error (parsed.map Prod.fst)
  | passes + 1, parsed, text =>
      if text = [] then .ok parsed
      else
        match splitEquals text with
        | none => .error (parsed.map Prod.fst)
        | some (name, rest) =>
            if !table.isIdentifier name || (parsed.map Prod.fst).contains name then .error (parsed.map Prod.fst)
            else
              match rawDecode host rest with
              | none => .error (parsed.map Prod.fst)
              | some (value, after) =>
                  if after = [] then .ok (parsed ++ [(name, value)])
                  else
                    match afterSeparator after with
                    | none => .error ((parsed ++ [(name, value)]).map Prod.fst)
                    | some left => parseParts host table passes (parsed ++ [(name, value)]) left

/-- `_parse_exact_summary`: the dict, or no dict and the names. -/
def parseExactSummary (host : Host) (table : IdentifierTable) (summary : Str) : Except PyError (Except (List Str) Dict) :=
  if lit "...(truncated)" <:+ summary then .ok (.error [])
  else
    match parseParts host table (summary.length + 1) [] summary with
    | .error names => .ok (.error names)
    | .ok parsed =>
        if parsed.map Prod.fst ≠ sorted (parsed.map Prod.fst) then .ok (.error (parsed.map Prod.fst))
        else do
          let text ← boundedSummary host (.dict (Members.ofPairs parsed))
          return if text = summary then .ok (Members.ofPairs parsed) else .error (parsed.map Prod.fst)

/-- The names of the values of a kind. -/
def namesOf (kind : Retention) (members : Dict) : List Str :=
  (members.filter (fun member => retentionOf member.2 = kind)).map Prod.fst

/-- `_classify_summary`. -/
def classifySummary (host : Host) (table : IdentifierTable) : Json → Except PyError Classified
  | .str summary =>
      if summary = [] then .ok noArguments
      else do
        match ← parseExactSummary host table summary with
        | .error names => return unknown names "summary is malformed, truncated, unsupported, or ambiguous"
        | .ok parsed =>
            let retained := namesOf .retained parsed
            let unsupported := namesOf .unsupported parsed
            if unsupported ≠ [] then return unsupportedArguments (sorted (retained ++ unsupported))
            else if retained ≠ [] then return partiallyRedacted (sorted retained)
            else return fullyRedacted
  | _ => .ok (unknown [] "summary is not a supported string")

/-- `_classify_event`. -/
def classifyEvent (host : Host) (table : IdentifierTable) (event : Dict) : Except PyError Classified :=
  match get event "parameter_retention" with
  | .null => classifySummary host table (get event "redacted_input_summary")
  | retention => classifyRetention retention

/-- No value of the summary is cut, and neither is the whole. -/
structure Untruncated (host : Host) (members : Dict) : Prop where
  values : ∀ member ∈ members, ∀ text, dumpsSpaced host member.2 = .ok text → text.length ≤ maxSummaryValueChars
  total : ∀ parts, members.mapM (summaryPart host) = .ok parts → ((lit ", ").intercalate parts).length ≤ maxSummaryTotalChars

/-! ## Reading what was written -/

theorem mapM_eq_ok {α β : Type} {f : α → Except PyError β} {xs : List α} {ys : List β} :
    xs.mapM f = .ok ys ↔ List.Forall₂ (fun x y => f x = .ok y) xs ys := by
  induction xs generalizing ys with
  | nil =>
    rw [List.mapM_nil]
    constructor
    · intro same
      cases same
      exact .nil
    · intro both
      cases both
      rfl
  | cons x xs ih =>
    rw [List.mapM_cons, bind_eq_ok]
    constructor
    · intro found
      obtain ⟨y, first, later⟩ := found
      obtain ⟨rest, mapped, same⟩ := bind_eq_ok.mp later
      cases same
      exact .cons first (ih.mp mapped)
    · intro both
      cases both with
      | cons first later => exact ⟨_, first, bind_eq_ok.mpr ⟨_, ih.mpr later, rfl⟩⟩

theorem dumpsSpaced_eq_ok {host : Host} {value : Json} {text : Str} : dumpsSpaced host value = .ok text ↔
    checkDumps host true host.recursionLimit value = .ok () ∧ text = renderSpaced (toTree value) := by
  unfold dumpsSpaced
  cases checkDumps host true host.recursionLimit value with
  | ok => simp [eq_comm]
  | error e => simp

theorem lit_equals : lit "=" = [0x3D] := by decide

theorem summaryPart_eq_ok {host : Host} {member : Str × Json} {part : Str} : summaryPart host member = .ok part ↔
    checkDumps host true host.recursionLimit member.2 = .ok () ∧
      part = member.1 ++ 0x3D :: truncate (renderSpaced (toTree member.2)) maxSummaryValueChars := by
  rw [summaryPart, bind_eq_ok]
  constructor
  · intro found
    obtain ⟨text, dumped, same⟩ := found
    obtain ⟨passed, shown⟩ := dumpsSpaced_eq_ok.mp dumped
    refine ⟨passed, ?_⟩
    rw [← Except.ok.inj same, shown, lit_equals, List.append_assoc, List.singleton_append]
  · intro found
    refine ⟨_, dumpsSpaced_eq_ok.mpr ⟨found.1, rfl⟩, ?_⟩
    rw [found.2, lit_equals, List.append_assoc, List.singleton_append]
    rfl

theorem truncate_short {text : Str} {limit : Nat} (short : text.length ≤ limit) : truncate text limit = text := if_pos short

/-- A value that is written is read back, before the end of the text or a comma. -/
theorem rawDecode_renderSpaced {host : Host} {value : Json} (ok : value.Ok host)
    (passed : checkDumps host true host.recursionLimit value = .ok ()) {more : Str} (ends : Number.TokenEnd more) :
    rawDecode host (renderSpaced (toTree value) ++ more) = some (value, more) := by
  obtain ⟨fits, shallow⟩ := treeOk_toTree host true _ value passed
  have enough : fuelOf (toTree value) ≤ 2 * (renderSpaced (toTree value) ++ more).length + 2 := by
    have fuel := fuelOf_le_spaced (toTree value)
    rw [List.length_append]
    omega
  have parsed := parseValue_renderSpaced (pyDialect host) (toTree value) fits _ enough more ends
  have nested : nesting (pyDialect host) (renderSpaced (toTree value) ++ more) ≤ host.recursionLimit := by
    rw [nesting, (deepest_of_parse (pyDialect host) _).1 _ _ _ parsed]
    exact shallow
  rw [rawDecode, if_pos ⟨skipWs_renderSpaced (toTree value) more, nested⟩, parsed, Option.map_some, ofTree_toTree host value ok]

theorem splitEquals_append {name rest : Str} (plain : 0x3D ∉ name) : splitEquals (name ++ 0x3D :: rest) = some (name, rest) := by
  have differs : ∀ c ∈ name, (c != 0x3D) = true := by
    intro c member
    exact bne_iff_ne.mpr (fun same => plain (same ▸ member))
  have inside : 0x3D ∈ name ++ 0x3D :: rest := List.mem_append_right name List.mem_cons_self
  rw [splitEquals, if_pos inside, List.takeWhile_append_of_pos differs, List.dropWhile_append_of_pos differs]
  simp

theorem splitEquals_eq_some {text name rest : Str} (split : splitEquals text = some (name, rest)) : 0x3D ∉ name := by
  rw [splitEquals] at split
  split_ifs at split
  obtain ⟨same, _⟩ := Prod.mk.inj (Option.some.inj split)
  intro member
  rw [← same] at member
  have kept := List.mem_takeWhile_imp member
  simp at kept

/-- The text of one argument, uncut. -/
def written (member : Str × Json) : Str := member.1 ++ 0x3D :: renderSpaced (toTree member.2)

theorem intercalate_cons {separator part other : Str} {parts : List Str} :
    separator.intercalate (part :: other :: parts) = part ++ (separator ++ separator.intercalate (other :: parts)) := by
  simp [List.intercalate]

theorem intercalate_singleton {separator part : Str} : separator.intercalate [part] = part := by
  simp [List.intercalate]

/-- The loop reads the arguments one by one. -/
theorem parseParts_written {host : Host} {table : IdentifierTable} {later : Dict} :
    ∀ {before : Dict} {passes : Nat}, later.length < passes → (∀ member ∈ later, table.isIdentifier member.1 = true) →
      (∀ member ∈ later, member.2.Ok host ∧ checkDumps host true host.recursionLimit member.2 = .ok ()) →
      ((before ++ later).map Prod.fst).Nodup →
      parseParts host table passes before ((lit ", ").intercalate (later.map written)) = .ok (before ++ later) := by
  induction later with
  | nil =>
    intro before passes enough _ _ _
    obtain ⟨n, rfl⟩ : ∃ n, passes = n + 1 := ⟨passes - 1, by omega⟩
    rw [List.map_nil, parseParts, if_pos (by simp [List.intercalate]), List.append_nil]
  | cons member later ih =>
    intro before passes enough identifiers fine distinct
    obtain ⟨n, rfl⟩ : ∃ n, passes = n + 1 := ⟨passes - 1, by omega⟩
    obtain ⟨name, value⟩ := member
    have identifier : table.isIdentifier name = true := identifiers (name, value) List.mem_cons_self
    obtain ⟨ok, passed⟩ := fine (name, value) List.mem_cons_self
    have fresh : name ∉ before.map Prod.fst := by
      rw [List.map_append, List.nodup_append] at distinct
      intro known
      exact distinct.2.2 name known name List.mem_cons_self rfl
    have unknown : ¬ (!table.isIdentifier name || (before.map Prod.fst).contains name) = true := by
      rw [identifier]
      simpa using fresh
    -- the text is the argument and what follows it
    have reads : ∀ more : Str, Number.TokenEnd more →
        parseParts host table (n + 1) before (name ++ 0x3D :: (renderSpaced (toTree value) ++ more)) =
          if more = [] then .ok (before ++ [(name, value)])
          else match afterSeparator more with
            | none => .error ((before ++ [(name, value)]).map Prod.fst)
            | some left => parseParts host table n (before ++ [(name, value)]) left := by
      intro more ends
      rw [parseParts, if_neg (by simp), splitEquals_append (table.plain name identifier)]
      simp only [if_neg unknown, rawDecode_renderSpaced ok passed ends]
    cases later with
    | nil =>
      have last := reads [] Number.tokenEnd_nil
      rw [if_pos rfl, List.append_nil] at last
      rw [List.map_cons, List.map_nil, intercalate_singleton, written, last]
    | cons next later =>
      have ends : Number.TokenEnd (lit ", " ++ (lit ", ").intercalate ((next :: later).map written)) := by
        rw [lit_comma]
        exact tokenEnd_cons _ (by decide)
      have separated : afterSeparator (lit ", " ++ (lit ", ").intercalate ((next :: later).map written)) =
          some ((lit ", ").intercalate ((next :: later).map written)) := by
        rw [afterSeparator, if_pos (List.prefix_append _ _), lit_comma]
        rfl
      have first := reads _ ends
      have some : ¬ lit ", " ++ (lit ", ").intercalate ((next :: later).map written) = [] := by
        rw [lit_comma]
        simp
      rw [if_neg some, separated] at first
      rw [List.map_cons, List.map_cons, intercalate_cons, written, List.append_assoc, List.cons_append, ← List.map_cons, first]
      have rest : parseParts host table n (before ++ [(name, value)]) ((lit ", ").intercalate ((next :: later).map written)) =
          .ok (before ++ [(name, value)] ++ next :: later) := by
        apply ih
        · simp only [List.length_cons] at enough ⊢
          omega
        · exact fun m inside => identifiers m (List.mem_cons_of_mem _ inside)
        · exact fun m inside => fine m (List.mem_cons_of_mem _ inside)
        · simpa using distinct
      rw [List.append_assoc] at rest
      exact rest

theorem sorted_of_sorted {members : Dict} (inOrder : Members.Sorted members) :
    sorted (members.map Prod.fst) = members.map Prod.fst := by
  apply List.mergeSort_of_pairwise
  rw [List.pairwise_map]
  exact inOrder.imp (fun below => decide_eq_true (le_of_lt below))

theorem mem_sorted {name : Str} {names : List Str} : name ∈ sorted names ↔ name ∈ names :=
  (List.mergeSort_perm names _).mem_iff

theorem nodup_names {members : Dict} (inOrder : Members.Sorted members) : (members.map Prod.fst).Nodup := by
  rw [List.Nodup, List.pairwise_map]
  exact inOrder.imp (fun below => ne_of_lt below)

/-- The last part of a summary is its end. -/
theorem intercalate_ends {separator : Str} {parts : List Str} (some : parts ≠ []) :
    ∃ front, ∃ last ∈ parts, separator.intercalate parts = front ++ last := by
  induction parts with
  | nil => exact absurd rfl some
  | cons part parts ih =>
    cases parts with
    | nil => exact ⟨[], part, List.mem_cons_self, intercalate_singleton⟩
    | cons other parts =>
      obtain ⟨front, last, member, same⟩ := ih (List.cons_ne_nil other parts)
      refine ⟨part ++ (separator ++ front), last, List.mem_cons_of_mem part member, ?_⟩
      rw [intercalate_cons, same, List.append_assoc, List.append_assoc]

theorem ends_of_truncated {text : Str} (cut : lit "...(truncated)" <:+ text) : ¬ EndsOtherwise text := by
  intro ends
  obtain ⟨front, whole⟩ := cut
  obtain ⟨body, last, same, other⟩ := ends
  have shape : lit "...(truncated)" = lit "...(truncated" ++ [0x29] := by decide
  rw [shape, ← List.append_assoc, same] at whole
  exact other (List.cons.inj (List.append_inj_right' whole rfl)).1.symm

/-- Where no value is cut, the parts of a summary are the arguments, one after another. -/
theorem parts_written {host : Host} {members : Dict} {parts : List Str}
    (values : ∀ member ∈ members, ∀ text, dumpsSpaced host member.2 = .ok text → text.length ≤ maxSummaryValueChars)
    (mapped : members.mapM (summaryPart host) = .ok parts) :
    parts = members.map written ∧ ∀ member ∈ members, checkDumps host true host.recursionLimit member.2 = .ok () := by
  have whole : ∀ member ∈ members, ∀ part, summaryPart host member = .ok part →
      part = written member ∧ checkDumps host true host.recursionLimit member.2 = .ok () := by
    intro member inside part found
    obtain ⟨passed, shown⟩ := summaryPart_eq_ok.mp found
    have short := values member inside _ (dumpsSpaced_eq_ok.mpr ⟨passed, rfl⟩)
    rw [truncate_short short] at shown
    exact ⟨shown, passed⟩
  have both := mapM_eq_ok.mp mapped
  clear mapped values
  induction both with
  | nil => exact ⟨rfl, List.forall_mem_nil _⟩
  | @cons member part members parts first later ih =>
    obtain ⟨shown, passed⟩ := whole member List.mem_cons_self part first
    obtain ⟨rest, fine⟩ := ih (fun m inside => whole m (List.mem_cons_of_mem member inside))
    exact ⟨by rw [shown, rest, List.map_cons], List.forall_mem_cons.mpr ⟨passed, fine⟩⟩

theorem boundedSummary_untruncated {host : Host} {members : Dict} {text : Str} (untruncated : Untruncated host members)
    (summary : boundedSummary host (.dict members) = .ok text) :
    text = (lit ", ").intercalate (members.map written) ∧
      ∀ member ∈ members, checkDumps host true host.recursionLimit member.2 = .ok () := by
  rw [boundedSummary] at summary
  obtain ⟨parts, mapped, same⟩ := bind_eq_ok.mp summary
  obtain ⟨texts, passed⟩ := parts_written untruncated.values mapped
  have total := untruncated.total parts mapped
  rw [← Except.ok.inj same, truncate_short total, texts]
  exact ⟨rfl, passed⟩

/-- Texts within the bounds are not cut. -/
theorem untruncated_of_short {host : Host} {members : Dict}
    (values : ∀ member ∈ members, (renderSpaced (toTree member.2)).length ≤ maxSummaryValueChars)
    (total : ((lit ", ").intercalate (members.map written)).length ≤ maxSummaryTotalChars) : Untruncated host members := by
  have short : ∀ member ∈ members, ∀ text, dumpsSpaced host member.2 = .ok text → text.length ≤ maxSummaryValueChars := by
    intro member inside text dumped
    rw [(dumpsSpaced_eq_ok.mp dumped).2]
    exact values member inside
  refine ⟨short, ?_⟩
  intro parts mapped
  rw [(parts_written short mapped).1]
  exact total

theorem length_le_intercalate (members : Dict) : members.length ≤ ((lit ", ").intercalate (members.map written)).length := by
  induction members with
  | nil => simp
  | cons member members ih =>
    cases members with
    | nil =>
      rw [List.map_cons, List.map_nil, intercalate_singleton, written]
      simp only [List.length_append, List.length_cons, List.length_nil]
      omega
    | cons other members =>
      rw [List.map_cons, List.map_cons, intercalate_cons, written, ← List.map_cons]
      simp only [List.length_append, List.length_cons] at ih ⊢
      omega

/-- The parser reads the arguments back from their summary. -/
theorem parseExactSummary_written {host : Host} {table : IdentifierTable} {members : Dict} {text : Str} (ok : DictOk host members)
    (identifiers : ∀ member ∈ members, table.isIdentifier member.1 = true) (untruncated : Untruncated host members)
    (summary : boundedSummary host (.dict members) = .ok text) :
    parseExactSummary host table text = .ok (.ok members) := by
  obtain ⟨inOrder, values⟩ := dictOk_iff.mp ok
  obtain ⟨shown, passed⟩ := boundedSummary_untruncated untruncated summary
  have whole : ¬ lit "...(truncated)" <:+ text := by
    by_cases none : members = []
    · rw [shown, none]
      decide
    · intro cut
      obtain ⟨front, last, member, same⟩ := @intercalate_ends (lit ", ") (members.map written) (by simpa using none)
      obtain ⟨argument, _, isLast⟩ := List.mem_map.mp member
      apply ends_of_truncated cut
      rw [shown, same, ← isLast]
      exact ((ends_renderSpaced (toTree argument.2)).cons 0x3D |>.append argument.1).append front
  have parsed : parseParts host table (text.length + 1) [] text = .ok members := by
    have enough := length_le_intercalate members
    rw [shown]
    exact parseParts_written (Nat.lt_succ_of_le enough) identifiers (fun member inside => ⟨values member inside, passed member inside⟩)
      (nodup_names inOrder)
  rw [parseExactSummary, if_neg whole, parsed]
  simp only [sorted_of_sorted inOrder, ne_eq, not_true_eq_false, if_false, Members.ofPairs_of_sorted inOrder, summary]
  exact congrArg Except.ok (if_pos rfl)

/-! ## What looks redacted is redacted -/

/-- The summary of a redacted value. -/
def marker : Str := quote (piecesOf redacted)

theorem renderSpaced_redacted : renderSpaced (toTree (.str redacted)) = marker := rfl

theorem marker_length : marker.length = 12 := by decide

theorem parseValue_marker (dialect : Dialect) (fuel : Nat) (rest : Str) :
    parseValue dialect (fuel + 1) (marker ++ rest) = some (.str (piecesOf redacted), rest) := by
  have plain : PiecesOk dialect (piecesOf redacted) := by
    have all : ∀ c ∈ redacted, pieceOf c = .lit c ∧ 32 ≤ c ∧ c ≠ 34 ∧ c ≠ 92 := by decide
    intro p member
    obtain ⟨c, inside, same⟩ := List.mem_map.mp member
    obtain ⟨literal, printable⟩ := all c inside
    rw [← same, literal]
    exact printable
  rw [marker, quote]
  simp only [List.cons_append, List.append_assoc, List.nil_append, parseValue, skipWs_of_not_ws _ (show isWs 34 = false by decide),
    if_neg (show (34 : Nat) ≠ 123 by decide), if_neg (show (34 : Nat) ≠ 91 by decide), if_true, parseString_pieces dialect _ plain]
  rfl

/-- A value whose text begins with the marker is the marker. -/
theorem value_of_marker {host : Host} {value : Json} (passed : checkDumps host true host.recursionLimit value = .ok ()) {more rest : Str}
    (ends : Number.TokenEnd more) (same : renderSpaced (toTree value) ++ more = marker ++ rest) :
    value = .str redacted ∧ more = rest := by
  obtain ⟨fits, _⟩ := treeOk_toTree host true _ value passed
  have parsed := parseValue_renderSpaced (pyDialect host) (toTree value) fits (fuelOf (toTree value) + 1) (by omega) more ends
  rw [same, parseValue_marker] at parsed
  obtain ⟨tree, left⟩ := Prod.mk.inj (Option.some.inj parsed)
  refine ⟨?_, left.symm⟩
  cases value with
  | str text =>
    have pieces : piecesOf redacted = piecesOf text := by simpa only [toTree, Tree.str.injEq] using tree
    rw [← joinPieces_piecesOf text, ← pieces, joinPieces_piecesOf]
  | float f =>
    cases f with
    | inf neg => cases neg <;> simp [toTree] at tree
    | nan => simp [toTree] at tree
    | finite d => simp [toTree] at tree
  | null => simp [toTree] at tree
  | bool b => simp [toTree] at tree
  | int n => simp [toTree] at tree
  | list items => simp [toTree] at tree
  | dict members => simp [toTree] at tree

/-- Where an element stands behind a list that lacks it. -/
theorem split_after {α : Type} {x : α} {left right front back : List α} (absent : x ∉ left)
    (same : left ++ right = front ++ x :: back) : ∃ between, front = left ++ between ∧ right = between ++ x :: back := by
  obtain ⟨between, first, second⟩ | ⟨between, first, second⟩ := List.append_eq_append_iff.mp same
  · exact ⟨between, first, second⟩
  · cases between with
    | nil => exact ⟨[], by simpa using first.symm, by simpa using second.symm⟩
    | cons y between =>
      have here : x = y := (List.cons.inj second).1
      exact absurd (first ▸ List.mem_append_right front (here ▸ List.mem_cons_self)) absent

/-- Every equals sign is followed by the marker. -/
def Marked (text : Str) : Prop := ∀ front back, text = front ++ 0x3D :: back → marker <+: back

theorem marked_intercalate (names : List Str) (plain : ∀ name ∈ names, 0x3D ∉ name) :
    Marked ((lit ", ").intercalate (names.map (fun name => name ++ 0x3D :: marker))) := by
  have unmarked : 0x3D ∉ marker := by decide
  have start : ∀ name more front back : Str, 0x3D ∉ name → name ++ 0x3D :: (marker ++ more) = front ++ 0x3D :: back →
      marker <+: back ∨ ∃ later, more = later ++ 0x3D :: back := by
    intro name more front back absent same
    obtain ⟨between, _, rest⟩ := split_after absent same
    cases between with
    | nil =>
      left
      rw [← (List.cons.inj rest).2]
      exact List.prefix_append marker more
    | cons c between =>
      obtain ⟨later, _, found⟩ := split_after unmarked (List.cons.inj rest).2
      exact .inr ⟨later, found⟩
  induction names with
  | nil =>
    intro front back same
    simp [List.intercalate] at same
  | cons name names ih =>
    have absent := plain name List.mem_cons_self
    have later := ih (fun other member => plain other (List.mem_cons_of_mem name member))
    intro front back same
    cases names with
    | nil =>
      rw [List.map_cons, List.map_nil, intercalate_singleton, ← List.append_nil marker] at same
      apply (start name [] front back absent same).resolve_right
      intro found
      obtain ⟨more, wrong⟩ := found
      simp at wrong
    | cons other names =>
      rw [List.map_cons, List.map_cons, intercalate_cons, List.append_assoc, List.cons_append] at same
      change name ++ 0x3D :: (marker ++ (lit ", " ++
        (lit ", ").intercalate ((other :: names).map (fun name => name ++ 0x3D :: marker)))) = front ++ 0x3D :: back at same
      apply (start name _ front back absent same).elim id
      intro found
      obtain ⟨more, rest⟩ := found
      obtain ⟨between, _, inside⟩ := split_after (by decide) rest
      exact later between back inside

/-- A part of a summary stands before a comma or the end. -/
theorem mem_intercalate {part : Str} {parts : List Str} (member : part ∈ parts) :
    ∃ front more, (lit ", ").intercalate parts = front ++ (part ++ more) ∧ Number.TokenEnd more := by
  induction parts with
  | nil => exact absurd member List.not_mem_nil
  | cons first parts ih =>
    cases parts with
    | nil =>
      rw [List.mem_singleton.mp member, intercalate_singleton]
      exact ⟨[], [], by simp, Number.tokenEnd_nil⟩
    | cons other parts =>
      rw [intercalate_cons]
      apply (List.mem_cons.mp member).elim
      · intro same
        refine ⟨[], _, by rw [same, List.nil_append], ?_⟩
        rw [lit_comma]
        exact tokenEnd_cons _ (by decide)
      · intro later
        obtain ⟨front, more, same, ends⟩ := ih later
        exact ⟨first ++ (lit ", " ++ front), more, by rw [same, List.append_assoc, List.append_assoc], ends⟩

/-- A summary without the end of a cut one is made of the parts. -/
theorem boundedSummary_whole {host : Host} {members : Dict} {text : Str} (summary : boundedSummary host (.dict members) = .ok text)
    (whole : ¬ lit "...(truncated)" <:+ text) : ∃ parts, members.mapM (summaryPart host) = .ok parts ∧
      text = (lit ", ").intercalate parts := by
  rw [boundedSummary] at summary
  obtain ⟨parts, mapped, same⟩ := bind_eq_ok.mp summary
  refine ⟨parts, mapped, ?_⟩
  rw [← Except.ok.inj same] at whole ⊢
  rw [truncate] at whole ⊢
  split_ifs with short
  · rfl
  · rw [if_neg short] at whole
    exact absurd (List.suffix_append _ _) whole

theorem plain_of_parseParts {host : Host} {table : IdentifierTable} {passes : Nat} :
    ∀ {before parsed : Dict} {text : Str}, (∀ member ∈ before, 0x3D ∉ member.1) →
      parseParts host table passes before text = .ok parsed → ∀ member ∈ parsed, 0x3D ∉ member.1 := by
  induction passes with
  | zero =>
    intro before parsed text _ found
    cases found
  | succ passes ih =>
    intro before parsed text plain found
    rw [parseParts] at found
    by_cases none : text = []
    · rw [if_pos none] at found
      rw [← Except.ok.inj found]
      exact plain
    · rw [if_neg none] at found
      cases split : splitEquals text with
      | none =>
        rw [split] at found
        cases found
      | some pair =>
        obtain ⟨name, rest⟩ := pair
        rw [split] at found
        simp only [] at found
        have grown : ∀ value, ∀ member ∈ before ++ [(name, value)], 0x3D ∉ member.1 := by
          intro value member inside
          apply (List.mem_append.mp inside).elim (plain member)
          intro new
          rw [List.mem_singleton.mp new]
          exact splitEquals_eq_some split
        split_ifs at found
        cases decoded : rawDecode host rest with
        | none =>
          rw [decoded] at found
          cases found
        | some pair =>
          obtain ⟨value, after⟩ := pair
          rw [decoded] at found
          simp only [] at found
          by_cases ended : after = []
          · rw [if_pos ended] at found
            rw [← Except.ok.inj found]
            exact grown value
          · rw [if_neg ended] at found
            cases separated : afterSeparator after with
            | none =>
              rw [separated] at found
              cases found
            | some left =>
              rw [separated] at found
              exact ih (grown value) found

/-- A summary that parses is made of the names and values it parses to. -/
theorem parseExactSummary_eq_ok {host : Host} {table : IdentifierTable} {text : Str} {parsed : Dict}
    (found : parseExactSummary host table text = .ok (.ok parsed)) :
    boundedSummary host (.dict parsed) = .ok text ∧ ¬ lit "...(truncated)" <:+ text ∧ ∀ member ∈ parsed, 0x3D ∉ member.1 := by
  rw [parseExactSummary] at found
  by_cases cut : lit "...(truncated)" <:+ text
  · rw [if_pos cut] at found
    cases Except.ok.inj found
  rw [if_neg cut] at found
  cases parts : parseParts host table (text.length + 1) [] text with
  | error names =>
    rw [parts] at found
    cases found
  | ok pairs =>
    rw [parts] at found
    simp only [] at found
    by_cases disordered : pairs.map Prod.fst ≠ sorted (pairs.map Prod.fst)
    · rw [if_pos disordered] at found
      cases Except.ok.inj found
    rw [if_neg disordered] at found
    obtain ⟨again, summary, same⟩ := bind_eq_ok.mp found
    by_cases equal : again = text
    · rw [if_pos equal] at same
      have members : Members.ofPairs pairs = parsed := Except.ok.inj (Except.ok.inj same)
      rw [members, equal] at summary
      refine ⟨summary, cut, ?_⟩
      intro member inside
      rw [← members] at inside
      exact plain_of_parseParts (List.forall_mem_nil _) parts member (Members.mem_ofPairs inside)
    · rw [if_neg equal] at same
      cases Except.ok.inj same

theorem retentionOf_eq_redacted {value : Json} (kind : retentionOf value = .redacted) : value = .str redacted := by
  cases value with
  | str text =>
    rw [retentionOf] at kind
    split_ifs at kind with same
    rw [same]
  | null => cases kind
  | bool b => cases kind
  | int n => cases kind
  | float f => cases kind
  | list items => cases kind
  | dict members => cases kind

/-- What a fully redacted classification has read. -/
theorem classifySummary_fullyRedacted {host : Host} {table : IdentifierTable} {text : Str} {classified : Classified}
    (found : classifySummary host table (.str text) = .ok classified) (full : classified.classification = .fullyRedacted) :
    ∃ parsed, parseExactSummary host table text = .ok (.ok parsed) ∧ ∀ member ∈ parsed, member.2 = .str redacted := by
  rw [classifySummary] at found
  by_cases empty : text = []
  · rw [if_pos empty] at found
    rw [← Except.ok.inj found] at full
    cases full
  · rw [if_neg empty] at found
    obtain ⟨result, parsed, same⟩ := bind_eq_ok.mp found
    cases result with
    | error names =>
      rw [← Except.ok.inj same] at full
      cases full
    | ok members =>
      refine ⟨members, parsed, ?_⟩
      simp only [] at same
      split_ifs at same with unsupported retained
      · rw [← Except.ok.inj same] at full
        cases full
      · rw [← Except.ok.inj same] at full
        cases full
      · intro member inside
        apply retentionOf_eq_redacted
        have absent : ∀ kind, namesOf kind members = [] → retentionOf member.2 ≠ kind := by
          intro kind none same
          have listed : member.1 ∈ namesOf kind members :=
            List.mem_map_of_mem (List.mem_filter.mpr ⟨inside, decide_eq_true same⟩)
          rw [none] at listed
          exact absurd listed List.not_mem_nil
        have first := absent .unsupported (not_not.mp unsupported)
        have second := absent .retained (not_not.mp retained)
        cases kind : retentionOf member.2 with
        | redacted => rfl
        | unsupported => exact absurd kind first
        | retained => exact absurd kind second

/-- The summary of redacted values has the marker after every equals sign. -/
theorem marked_of_redacted {host : Host} {parsed : Dict} {text : Str} (summary : boundedSummary host (.dict parsed) = .ok text)
    (whole : ¬ lit "...(truncated)" <:+ text) (plain : ∀ member ∈ parsed, 0x3D ∉ member.1)
    (values : ∀ member ∈ parsed, member.2 = .str redacted) : Marked text := by
  obtain ⟨parts, mapped, shown⟩ := boundedSummary_whole summary whole
  have texts : parts = (parsed.map Prod.fst).map (fun name => name ++ 0x3D :: marker) := by
    have both := mapM_eq_ok.mp mapped
    clear mapped shown summary whole plain
    induction both with
    | nil => rfl
    | @cons member part members parts first later ih =>
      have part_eq := (summaryPart_eq_ok.mp first).2
      rw [values member List.mem_cons_self, renderSpaced_redacted, truncate_short (by decide)] at part_eq
      rw [part_eq, ih (fun other inside => values other (List.mem_cons_of_mem member inside)), List.map_cons, List.map_cons]
  rw [shown, texts]
  apply marked_intercalate
  intro name listed
  obtain ⟨member, inside, same⟩ := List.mem_map.mp listed
  exact same ▸ plain member inside

/-- No value passes for a redacted one: where a summary is classified as fully redacted, whatever its
names and values are, each value is the marker. -/
theorem redacted_of_fullyRedacted {host : Host} {table : IdentifierTable} {members : Dict} {text : Str} {classified : Classified}
    (summary : boundedSummary host (.dict members) = .ok text) (found : classifySummary host table (.str text) = .ok classified)
    (full : classified.classification = .fullyRedacted) : ∀ member ∈ members, member.2 = .str redacted := by
  obtain ⟨parsed, read, values⟩ := classifySummary_fullyRedacted found full
  obtain ⟨again, whole, plain⟩ := parseExactSummary_eq_ok read
  have marked := marked_of_redacted again whole plain values
  obtain ⟨parts, mapped, shown⟩ := boundedSummary_whole summary whole
  have both := mapM_eq_ok.mp mapped
  intro member inside
  obtain ⟨part, listed, here⟩ : ∃ part ∈ parts, summaryPart host member = .ok part := by
    clear mapped shown summary
    induction both with
    | nil => exact absurd inside List.not_mem_nil
    | @cons first part members parts here later ih =>
      apply (List.mem_cons.mp inside).elim
      · intro same
        exact ⟨part, List.mem_cons_self, same ▸ here⟩
      · intro rest
        obtain ⟨other, member, found⟩ := ih rest
        exact ⟨other, List.mem_cons_of_mem part member, found⟩
  obtain ⟨passed, partShown⟩ := summaryPart_eq_ok.mp here
  obtain ⟨front, more, placed, ends⟩ := mem_intercalate listed
  have begins : marker <+: truncate (renderSpaced (toTree member.2)) maxSummaryValueChars ++ more := by
    apply marked (front ++ member.1)
    rw [shown, placed, partShown]
    simp only [List.append_assoc, List.cons_append]
  by_cases short : (renderSpaced (toTree member.2)).length ≤ maxSummaryValueChars
  · rw [truncate_short short] at begins
    obtain ⟨rest, same⟩ := begins
    exact (value_of_marker passed ends same.symm).1
  · -- a cut value begins with the marker too, and would be no longer than it
    rw [truncate, if_neg short, List.append_assoc] at begins
    have inText : marker <+: renderSpaced (toTree member.2) := by
      have taken : marker <+: (renderSpaced (toTree member.2)).take maxSummaryValueChars := by
        apply List.prefix_of_prefix_length_le begins (List.prefix_append _ _)
        rw [marker_length, List.length_take]
        have long : 12 ≤ maxSummaryValueChars := by decide
        omega
      exact taken.trans (List.take_prefix _ _)
    obtain ⟨rest, same⟩ := inText
    exact (value_of_marker passed Number.tokenEnd_nil ((List.append_nil _).trans same.symm)).1

/-- What the parser reads of a summary is what was written, and no summary passes for one of redacted
values. -/
theorem summary_inverse (host : Host) (table : IdentifierTable) (members : Dict) (text : Str)
    (summary : boundedSummary host (.dict members) = .ok text) :
    (DictOk host members → (∀ member ∈ members, table.isIdentifier member.1 = true) → Untruncated host members →
        parseExactSummary host table text = .ok (.ok members)) ∧
      ∀ classified, classifySummary host table (.str text) = .ok classified → classified.classification = .fullyRedacted →
        ∀ member ∈ members, member.2 = .str redacted := by
  constructor
  · intro ok identifiers untruncated
    exact parseExactSummary_written ok identifiers untruncated summary
  · intro classified found full
    exact redacted_of_fullyRedacted summary found full

/-- Names of small letters. -/
def smallLetters : IdentifierTable where
  isIdentifier name := name != [] && name.all (fun c => 97 ≤ c && c ≤ 122)
  plain := by
    intro name small member
    have every := List.all_eq_true.mp (Bool.and_eq_true_iff.mp small).2 _ member
    exact absurd every (by decide)

/-- A token that is redacted, and an amount. -/
def sampleMembers : Dict := [(lit "amount", .int 5), (lit "token", .str redacted)]

def sampleHost : Host := Host.plain id (fun _ => none)

theorem sample_summary : boundedSummary sampleHost (.dict sampleMembers) = .ok (lit "amount=5, token=\"<REDACTED>\"") := by
  decide +kernel

theorem sample_ok : DictOk sampleHost sampleMembers := by
  rw [dictOk_iff, sampleMembers, List.forall_mem_cons, List.forall_mem_singleton]
  exact ⟨by decide, trivial, trivial⟩

theorem sample_untruncated : Untruncated sampleHost sampleMembers := untruncated_of_short (by decide) (by decide)

theorem summary_inverse_sample :
    parseExactSummary sampleHost smallLetters (lit "amount=5, token=\"<REDACTED>\"") = .ok (.ok sampleMembers) :=
  (summary_inverse sampleHost smallLetters sampleMembers _ sample_summary).1 sample_ok (by decide) sample_untruncated

/-! ## Two classifiers -/

/-- The same classification, with the same names. -/
def Agree (first second : Classified) : Prop :=
  first.classification = second.classification ∧ ∀ name, name ∈ first.retainedNames ↔ name ∈ second.retainedNames

/-- The records are read back, where no name is repeated. -/
theorem readRecords_written {records : List (Str × Retention)} : ∀ {before : List (Str × Str)},
    ((before.map Prod.fst) ++ records.map Prod.fst).Nodup →
      readRecords (records.map (fun record => .dict [(lit "name", .str record.1), (lit "state", .str (stateText record.2))])) before =
        .ok (.inr (before ++ records.map (fun record => (record.1, stateText record.2)))) := by
  induction records with
  | nil =>
    intro before _
    rw [List.map_nil, readRecords, List.map_nil, List.append_nil]
  | cons record records ih =>
    intro before distinct
    obtain ⟨name, state⟩ := record
    have fresh : ¬ (before.map Prod.fst).contains name = true := by
      rw [List.contains_iff_mem]
      intro known
      exact (List.nodup_append.mp distinct).2.2 name known name List.mem_cons_self rfl
    have listed : inSet ["redacted", "retained", "unsupported"] (.str (stateText state)) = .ok true := by
      cases state <;> decide
    have nameField : asStr (get [(lit "name", .str name), (lit "state", .str (stateText state))] "name") = some name := rfl
    have stateField : Python.Value.get [(lit "name", .str name), (lit "state", .str (stateText state))] "state" =
        .str (stateText state) := by
      have other : lit "name" ≠ lit "state" := by decide
      rw [Python.Value.get, Members.get, if_neg other, Members.get, if_pos rfl, Option.getD_some]
    rw [List.map_cons, readRecords]
    simp only [asDict, nameField, stateField, listed]
    have rest := @ih (before ++ [(name, stateText state)]) (by simpa using distinct)
    rw [List.append_assoc] at rest
    simp only [bind, Except.bind, asStr, if_neg fresh]
    exact rest

theorem mem_namesOf {kind : Retention} {members : Dict} {name : Str} :
    name ∈ namesOf kind members ↔ ∃ member ∈ members, retentionOf member.2 = kind ∧ member.1 = name := by
  simp only [namesOf, List.mem_map, List.mem_filter, decide_eq_true_eq, and_assoc]

theorem namesOf_eq_nil {kind : Retention} {members : Dict} :
    namesOf kind members = [] ↔ ∀ member ∈ members, retentionOf member.2 ≠ kind := by
  simp only [namesOf, List.map_eq_nil_iff, List.filter_eq_nil_iff, decide_eq_true_eq, ne_eq]

theorem stateText_inj {first second : Retention} (same : stateText first = stateText second) : first = second := by
  cases first <;> cases second <;> first | rfl | exact absurd same (by decide)

theorem classifyRetention_read {items : List Json} {read : List (Str × Str)} (some : items ≠ [])
    (reads : readRecords items [] = .ok (.inr read)) :
    classifyRetention (.list items) =
      .ok (if stateText .unsupported ∈ read.map Prod.snd then unsupportedArguments (sorted (read.map Prod.fst))
        else if stateText .retained ∈ read.map Prod.snd then
          partiallyRedacted ((read.filter (fun record => record.2 == stateText .retained)).map Prod.fst)
        else fullyRedacted) := by
  have shape : classifyRetention (.list items) = (readRecords items [] >>= fun
      | .inl classified => return classified
      | .inr read => do
          if (read.map Prod.snd).contains (stateText .unsupported) then return unsupportedArguments (sorted (read.map Prod.fst))
          else if (read.map Prod.snd).contains (stateText .retained) then
            return partiallyRedacted ((read.filter (fun record => record.2 == stateText .retained)).map Prod.fst)
          else return fullyRedacted) := by
    cases items with
    | nil => exact absurd rfl some
    | cons item items => rfl
  rw [shape, reads]
  simp only [← List.contains_iff_mem]
  change (if _ then _ else if _ then _ else _) = _
  split_ifs <;> rfl

/-- What records are classified as, where no name is repeated. -/
theorem classifyRetention_records {records : List (Str × Retention)} (some : records ≠ []) (distinct : (records.map Prod.fst).Nodup) :
    classifyRetention (retentionJson records) =
      .ok (if .unsupported ∈ records.map Prod.snd then unsupportedArguments (sorted (records.map Prod.fst))
        else if .retained ∈ records.map Prod.snd then
          partiallyRedacted ((records.filter (fun record => record.2 = .retained)).map Prod.fst)
        else fullyRedacted) := by
  have reads := @readRecords_written records [] (by simpa using distinct)
  have names : (records.map (fun record => (record.1, stateText record.2))).map Prod.fst = records.map Prod.fst := by
    rw [List.map_map]
    rfl
  have states : ∀ kind, stateText kind ∈ (records.map (fun record => (record.1, stateText record.2))).map Prod.snd ↔
      kind ∈ records.map Prod.snd := by
    intro kind
    have same : (records.map (fun record => (record.1, stateText record.2))).map Prod.snd = (records.map Prod.snd).map stateText := by
      rw [List.map_map, List.map_map]
      rfl
    rw [same, List.mem_map_of_injective (fun _ _ => stateText_inj)]
  have kept : ((records.map (fun record => (record.1, stateText record.2))).filter
      (fun record => record.2 == stateText .retained)).map Prod.fst = (records.filter (fun record => record.2 = .retained)).map Prod.fst := by
    rw [List.filter_map, List.map_map]
    apply congrArg
    apply List.filter_congr
    intro record _
    apply Bool.eq_iff_iff.mpr
    rw [decide_eq_true_eq]
    change (stateText record.2 == stateText .retained) = true ↔ _
    rw [beq_iff_eq]
    exact ⟨stateText_inj, congrArg stateText⟩
  rw [retentionJson, classifyRetention_read (by simpa using some) reads, List.nil_append, names]
  simp only [states, kept]

/-- What the records of the arguments are classified as. -/
theorem classifyRetention_arguments {members : Dict} (some : members ≠ []) (distinct : (members.map Prod.fst).Nodup) :
    classifyRetention (retentionJson (parameterRetention (.dict members))) =
      .ok (if namesOf .unsupported members ≠ [] then unsupportedArguments (sorted (members.map Prod.fst))
        else if namesOf .retained members ≠ [] then partiallyRedacted (namesOf .retained members)
        else fullyRedacted) := by
  have names : (members.map (fun member => (member.1, retentionOf member.2))).map Prod.fst = members.map Prod.fst := by
    rw [List.map_map]
    rfl
  have states : ∀ kind, kind ∈ (members.map (fun member => (member.1, retentionOf member.2))).map Prod.snd ↔
      namesOf kind members ≠ [] := by
    intro kind
    simp only [namesOf, List.mem_map, ne_eq, List.map_eq_nil_iff, List.filter_eq_nil_iff, decide_eq_true_eq]
    push Not
    simp
  have kept : ((members.map (fun member => (member.1, retentionOf member.2))).filter
      (fun record => record.2 = .retained)).map Prod.fst = namesOf .retained members := by
    rw [List.filter_map, List.map_map]
    rfl
  rw [parameterRetention, classifyRetention_records (by simpa using some) (names ▸ distinct), names]
  simp only [states, kept]

/-- What the summary of the arguments is classified as. -/
theorem classifySummary_arguments {host : Host} {table : IdentifierTable} {members : Dict} {text : Str} (some : text ≠ [])
    (read : parseExactSummary host table text = .ok (.ok members)) :
    classifySummary host table (.str text) =
      .ok (if namesOf .unsupported members ≠ [] then
          unsupportedArguments (sorted (namesOf .retained members ++ namesOf .unsupported members))
        else if namesOf .retained members ≠ [] then partiallyRedacted (sorted (namesOf .retained members))
        else fullyRedacted) := by
  rw [classifySummary, if_neg some, read]
  change (if _ then _ else if _ then _ else _) = _
  split_ifs <;> rfl

/-- The names of the retained and the unsupported are those of all, unless one is redacted. -/
theorem listed_names_iff {members : Dict} (distinct : (members.map Prod.fst).Nodup) :
    (∀ name, name ∈ members.map Prod.fst ↔ name ∈ namesOf .retained members ++ namesOf .unsupported members) ↔
      ∀ member ∈ members, retentionOf member.2 ≠ .redacted := by
  constructor
  · intro agree member inside redacted
    have listed := (agree member.1).mp (List.mem_map_of_mem inside)
    -- another of the same name is the same
    have other : ∀ kind, member.1 ∈ namesOf kind members → kind = .redacted := by
      intro kind found
      obtain ⟨twin, listed, same, name⟩ := mem_namesOf.mp found
      rw [List.inj_on_of_nodup_map distinct listed inside name, redacted] at same
      exact same.symm
    apply (List.mem_append.mp listed).elim
    · intro found
      exact absurd (other _ found) (by decide)
    · intro found
      exact absurd (other _ found) (by decide)
  · intro none name
    rw [List.mem_append, mem_namesOf, mem_namesOf, List.mem_map]
    constructor
    · intro found
      obtain ⟨member, inside, same⟩ := found
      cases kind : retentionOf member.2 with
      | redacted => exact absurd kind (none member inside)
      | retained => exact .inl ⟨member, inside, kind, same⟩
      | unsupported => exact .inr ⟨member, inside, kind, same⟩
    · intro found
      apply found.elim
      · intro retained
        obtain ⟨member, inside, _, same⟩ := retained
        exact ⟨member, inside, same⟩
      · intro unsupported
        obtain ⟨member, inside, _, same⟩ := unsupported
        exact ⟨member, inside, same⟩

theorem text_of_some {host : Host} {members : Dict} {text : Str} (untruncated : Untruncated host members)
    (summary : boundedSummary host (.dict members) = .ok text) : text = [] ↔ members = [] := by
  rw [(boundedSummary_untruncated untruncated summary).1]
  constructor
  · intro empty
    have enough := length_le_intercalate members
    rw [empty] at enough
    exact List.eq_nil_of_length_eq_zero (by simpa using enough)
  · intro none
    rw [none]
    rfl

/-- The two classifications of the same arguments, one of their records and the other of their summary:
the records of an unsupported argument name the redacted ones too. -/
theorem classifiers_agree_iff (host : Host) (table : IdentifierTable) (members : Dict) (text : Str) (ok : DictOk host members)
    (identifiers : ∀ member ∈ members, table.isIdentifier member.1 = true) (untruncated : Untruncated host members)
    (summary : boundedSummary host (.dict members) = .ok text) :
    ∃ structured parsed, classifyRetention (retentionJson (parameterRetention (.dict members))) = .ok structured ∧
      classifySummary host table (.str text) = .ok parsed ∧ structured.classification = parsed.classification ∧
      (Agree structured parsed ↔ (∀ member ∈ members, retentionOf member.2 ≠ .unsupported) ∨
        ∀ member ∈ members, retentionOf member.2 ≠ .redacted) := by
  have distinct := nodup_names (dictOk_iff.mp ok).1
  by_cases none : members = []
  · refine ⟨noArguments, noArguments, ?_, ?_, rfl, ?_⟩
    · rw [none]
      rfl
    · rw [classifySummary, if_pos ((text_of_some untruncated summary).mpr none)]
    · rw [none]
      simp [Agree]
  have some : text ≠ [] := fun empty => none ((text_of_some untruncated summary).mp empty)
  refine ⟨_, _, classifyRetention_arguments none distinct,
    classifySummary_arguments some (parseExactSummary_written ok identifiers untruncated summary), ?_⟩
  by_cases unsupported : namesOf .unsupported members = []
  · -- the retained are named by both
    have absent := namesOf_eq_nil.mp unsupported
    rw [if_neg (not_not.mpr unsupported), if_neg (not_not.mpr unsupported)]
    by_cases retained : namesOf .retained members = []
    · rw [if_neg (not_not.mpr retained), if_neg (not_not.mpr retained)]
      exact ⟨rfl, ⟨fun _ => .inl absent, fun _ => ⟨rfl, fun _ => Iff.rfl⟩⟩⟩
    · rw [if_pos retained, if_pos retained]
      exact ⟨rfl, ⟨fun _ => .inl absent, fun _ => ⟨rfl, fun _ => mem_sorted.symm⟩⟩⟩
  · rw [if_pos unsupported, if_pos unsupported]
    have present : ¬ ∀ member ∈ members, retentionOf member.2 ≠ .unsupported := fun absent => unsupported (namesOf_eq_nil.mpr absent)
    rw [or_iff_right present, ← listed_names_iff distinct]
    refine ⟨rfl, ?_⟩
    simp only [Agree, unsupportedArguments, true_and, mem_sorted]

theorem classifiers_agree_iff_sample : ∃ structured parsed,
    classifyRetention (retentionJson (parameterRetention (.dict sampleMembers))) = .ok structured ∧
      classifySummary sampleHost smallLetters (.str (lit "amount=5, token=\"<REDACTED>\"")) = .ok parsed ∧
      Agree structured parsed := by
  obtain ⟨structured, parsed, first, second, _, agree⟩ :=
    classifiers_agree_iff sampleHost smallLetters sampleMembers _ sample_ok (by decide) sample_untruncated sample_summary
  exact ⟨structured, parsed, first, second, agree.mpr (.inl (by decide))⟩

/-- A redacted argument beside one of an unsupported type. -/
def mixedMembers : Dict := [(lit "secret", .str redacted), (lit "tool", .str (lit "<unsupported:Tool>"))]

/-- The records name the redacted argument among the retained, the summary does not. -/
theorem classifiers_disagree : ¬ ∀ (host : Host) (table : IdentifierTable) (members : Dict) (text : Str), DictOk host members →
    (∀ member ∈ members, table.isIdentifier member.1 = true) → Untruncated host members →
    boundedSummary host (.dict members) = .ok text →
    ∃ structured parsed, classifyRetention (retentionJson (parameterRetention (.dict members))) = .ok structured ∧
      classifySummary host table (.str text) = .ok parsed ∧ Agree structured parsed := by
  intro agree
  have ok : DictOk sampleHost mixedMembers := by
    rw [dictOk_iff, mixedMembers, List.forall_mem_cons, List.forall_mem_singleton]
    exact ⟨by decide, trivial, trivial⟩
  have identifiers : ∀ member ∈ mixedMembers, smallLetters.isIdentifier member.1 = true := by decide
  have untruncated : Untruncated sampleHost mixedMembers := untruncated_of_short (by decide) (by decide)
  have summary : boundedSummary sampleHost (.dict mixedMembers) = .ok (lit "secret=\"<REDACTED>\", tool=\"<unsupported:Tool>\"") := by
    decide +kernel
  obtain ⟨structured, parsed, first, second, _, names⟩ := agree sampleHost smallLetters mixedMembers _ ok identifiers untruncated summary
  have records := @classifyRetention_arguments mixedMembers (by decide) (by decide)
  have read := classifySummary_arguments (by decide) (parseExactSummary_written ok identifiers untruncated summary)
  rw [records] at first
  rw [read] at second
  rw [← Except.ok.inj first, ← Except.ok.inj second, if_pos (by decide), if_pos (by decide)] at names
  have named := (names (lit "secret")).mp (mem_sorted.mpr (by decide))
  exact absurd (mem_sorted.mp named) (by decide)

end Tesera.Redaction.Summary
