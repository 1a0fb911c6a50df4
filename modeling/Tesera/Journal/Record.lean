import Tesera.Canonical
import Tesera.Text.JsonLocal
import Tesera.Text.Lines

/-!
One event as one line of a journal: the bytes an append writes, and the value a reader
makes of a line. A written line holds no newline and is bounded by braces, so a reader
of the file finds it whole, and it decodes to the event that was written.
-/

namespace Tesera.Journal.Record
open Tesera.Text Tesera.Text.Unicode Tesera.Text.Lines
open Tesera.Text.JsonRoundTrip (render_obj_braces)
open Tesera.Python.Value Tesera.Python.JsonCodec Tesera.Python.Writable Tesera.Canonical

/-- `json.dumps(event, …).encode("utf-8")`, which unlike the canonical bytes allows
NaN and the infinities. -/
def encodeEvent (host : Host) (event : Dict) : Except PyError Bytes :=
  match dumps host true (.dict event) with
  | .ok text => encodeUtf8 text
  | .error e => .error e

/-- `json.loads(line.decode("utf-8"))`. -/
def decodeLine (host : Host) (line : Bytes) : Except PyError Json :=
  match utf8Decode line with
  | none => .error (.valueError (host.utf8Error line))
  | some text => loads host text

theorem encodeEvent_eq_ok {host : Host} {event : Dict} {line : Bytes} :
    encodeEvent host event = .ok line ↔
      ∃ text, dumps host true (.dict event) = .ok text ∧ utf8Encode text = some line := by
  unfold encodeEvent
  cases dumps host true (.dict event) with
  | ok text => simp [encodeUtf8_eq_ok]
  | error e => simp

theorem decodeLine_eq_ok {host : Host} {line : Bytes} {v : Json} :
    decodeLine host line = .ok v ↔ ∃ text, utf8Decode line = some text ∧ loads host text = .ok v := by
  unfold decodeLine
  cases utf8Decode line <;> simp

theorem decodeLine_encodeEvent {host : Host} {event : Dict} {line : Bytes} (ok : DictOk host event)
    (encoded : encodeEvent host event = .ok line) : decodeLine host line = .ok (.dict event) := by
  obtain ⟨text, dumped, bytes⟩ := encodeEvent_eq_ok.mp encoded
  exact decodeLine_eq_ok.mpr ⟨text, utf8Decode_encode bytes, loads_dumps ok dumped⟩

theorem dictOk_of_decodeLine {host : Host} {event : Dict} {line : Bytes}
    (decoded : decodeLine host line = .ok (.dict event)) : DictOk host event := by
  obtain ⟨text, -, loaded⟩ := decodeLine_eq_ok.mp decoded
  exact (loads_ok loaded).1

/-- The records of a file and the events they decode to. -/
def Decoded (host : Host) (lines : List Bytes) (events : List Dict) : Prop :=
  List.Forall₂ (fun line event => decodeLine host line = .ok (.dict event)) lines events

theorem decoded_unique {host : Host} {lines : List Bytes} {a b : List Dict}
    (left : Decoded host lines a) (right : Decoded host lines b) : a = b := by
  induction left generalizing b with
  | nil =>
    cases right
    rfl
  | cons first _ ih =>
    cases right with
    | cons other rest =>
      rw [first] at other
      cases other
      rw [ih rest]

theorem decoded_append {host : Host} {lines more : List Bytes} {events others : List Dict}
    (first : Decoded host lines events) (second : Decoded host more others) :
    Decoded host (lines ++ more) (events ++ others) := List.rel_append first second

theorem decoded_concat {host : Host} {lines : List Bytes} {line : Bytes} {events : List Dict}
    (decoded : Decoded host (lines ++ [line]) events) :
    ∃ others event, events = others ++ [event] ∧ Decoded host lines others ∧
      decodeLine host line = .ok (.dict event) := by
  induction lines generalizing events with
  | nil =>
    cases decoded with
    | cons first rest =>
      cases rest
      exact ⟨[], _, rfl, .nil, first⟩
  | cons head lines ih =>
    cases decoded with
    | cons first rest =>
      obtain ⟨others, event, rfl, before, last⟩ := ih rest
      exact ⟨_ :: others, event, rfl, .cons first before, last⟩

theorem dictOk_of_decoded {host : Host} {lines : List Bytes} {events : List Dict}
    (decoded : Decoded host lines events) : ∀ event ∈ events, DictOk host event := by
  induction decoded with
  | nil => exact List.forall_mem_nil _
  | cons first _ ih => exact List.forall_mem_cons.mpr ⟨dictOk_of_decodeLine first, ih⟩

/-! ## Braces -/

/-- The bytes of a text between braces are between braces. -/
theorem utf8Encode_braces {body : Str} {bytes : Bytes}
    (encoded : utf8Encode (123 :: (body ++ [125])) = some bytes) :
    ∃ inner, bytes = 123 :: (inner ++ [125]) := by
  obtain ⟨first, others, rfl, openBrace, encodedOthers⟩ := utf8Encode_split (a := [123]) encoded
  obtain ⟨inner, last, rfl, -, closeBrace⟩ := utf8Encode_split encodedOthers
  rw [utf8Encode_ascii 123 (by decide)] at openBrace
  rw [utf8Encode_ascii 125 (by decide)] at closeBrace
  cases openBrace
  cases closeBrace
  exact ⟨inner, rfl⟩

theorem strip_braces (inner : Bytes) : strip (123 :: (inner ++ [125])) = 123 :: (inner ++ [125]) := by
  have first : ¬ isSpace 123 = true := by decide
  have last : ¬ isSpace 125 = true := by decide
  rw [strip, List.dropWhile_cons_of_neg first, ← List.cons_append, List.rdropWhile_concat_neg _ _ _ last]

/-- The whitespace of JSON is whitespace to `bytes.strip()`. -/
theorem blank_of_ws {text : Str} {bytes : Bytes} (white : ∀ w ∈ text, Json.isWs w = true)
    (encoded : utf8Encode text = some bytes) : Blank bytes := by
  induction text generalizing bytes with
  | nil =>
    have empty : utf8Encode [] = some [] := rfl
    rw [empty] at encoded
    cases encoded
    exact blank_nil
  | cons w text ih =>
    obtain ⟨first, others, rfl, one, rest⟩ := utf8Encode_split (a := [w]) encoded
    have here := white w List.mem_cons_self
    simp only [Json.isWs, Bool.or_eq_true, beq_iff_eq] at here
    rw [utf8Encode_ascii w (by omega)] at one
    cases one
    intro b member
    rcases List.mem_append.mp member with inside | inside
    · rw [List.mem_singleton.mp inside]
      rcases here with ((rfl | rfl) | rfl) | rfl <;> decide
    · exact ih (fun v inText => white v (List.mem_cons_of_mem w inText)) rest b inside

theorem toTree_of_dict {host : Host} {tree : Json.Tree} {event : Dict}
    (value : ofTree host tree = .dict event) : ∃ ms, tree = .obj ms := by
  cases tree with
  | obj ms => exact ⟨ms, rfl⟩
  | const c => cases c <;> simp [ofTree] at value
  | num token =>
    simp only [ofTree] at value
    split_ifs at value
  | _ => simp [ofTree] at value

/-- A line that decodes to an object decodes to the same one without the whitespace
around it. -/
theorem decodeLine_strip {host : Host} {line : Bytes} {event : Dict}
    (decoded : decodeLine host line = .ok (.dict event)) :
    decodeLine host (strip line) = .ok (.dict event) := by
  obtain ⟨text, utf8, loaded⟩ := decodeLine_eq_ok.mp decoded
  have encoded := utf8Encode_decode utf8
  unfold loads at loaded
  split_ifs at loaded with deep
  cases parsed : Json.parse (pyDialect host) text with
  | none => simp [parsed] at loaded
  | some tree =>
    simp only [parsed, Except.ok.injEq] at loaded
    obtain ⟨ms, rfl⟩ := toTree_of_dict loaded
    obtain ⟨before, body, after, rfl, whiteBefore, whiteAfter, core⟩ := JsonLocal.parse_obj_core parsed
    obtain ⟨first, others, rfl, bytesBefore, encodedOthers⟩ := utf8Encode_split encoded
    obtain ⟨middle, last, rfl, bytesCore, bytesAfter⟩ := utf8Encode_split encodedOthers
    obtain ⟨inner, rfl⟩ := utf8Encode_braces bytesCore
    rw [strip_space_append (blank_of_ws whiteBefore bytesBefore),
      strip_append_space (blank_of_ws whiteAfter bytesAfter), strip_braces]
    have nested : ¬ host.recursionLimit <
        Json.nesting (pyDialect host) (123 :: (body ++ [125])) := by
      rw [JsonRoundTrip.nesting_of_parse core, ← JsonRoundTrip.nesting_of_parse parsed]
      exact deep
    refine decodeLine_eq_ok.mpr ⟨_, utf8Decode_encode bytesCore, ?_⟩
    simp only [loads, if_neg nested, core, loaded]

/-- A line decodes to the same value with its newline. -/
theorem decodeLine_newline {host : Host} {line : Bytes} {value : Json}
    (decoded : decodeLine host line = .ok value) : decodeLine host (line ++ [10]) = .ok value := by
  obtain ⟨text, utf8, loaded⟩ := decodeLine_eq_ok.mp decoded
  have encoded := utf8Encode_append (utf8Encode_decode utf8) (utf8Encode_ascii 10 (by decide))
  refine decodeLine_eq_ok.mpr ⟨_, utf8Decode_encode encoded, ?_⟩
  unfold loads at loaded ⊢
  split_ifs at loaded with deep
  cases parsed : Json.parse (pyDialect host) text with
  | none => simp [parsed] at loaded
  | some tree =>
    have longer := @JsonLocal.parse_append_ws _ _ [10] _ parsed (by decide)
    rw [JsonRoundTrip.nesting_of_parse parsed, ← JsonRoundTrip.nesting_of_parse longer] at deep
    rw [if_neg deep, longer]
    rwa [parsed] at loaded

/-- Whitespace is the encoding of ASCII whitespace. -/
theorem utf8Encode_blank {space : Bytes} (blank : Blank space) :
    ∃ text, utf8Encode text = some space ∧ ∀ c ∈ text, JsonLocal.isSpaceChar c = true := by
  induction space with
  | nil => exact ⟨[], rfl, List.forall_mem_nil _⟩
  | cons b space ih =>
    obtain ⟨text, encoded, spaces⟩ := ih (fun c member => blank c (List.mem_cons_of_mem b member))
    have here : b = 32 ∨ 9 ≤ b ∧ b ≤ 13 := by simpa [isSpace] using blank b List.mem_cons_self
    have code : b.toNat = 32 ∨ 9 ≤ b.toNat ∧ b.toNat ≤ 13 := by
      rcases here with rfl | ⟨low, high⟩
      · exact .inl rfl
      · exact .inr ⟨UInt8.le_iff_toNat_le.mp low, UInt8.le_iff_toNat_le.mp high⟩
    have one : utf8Encode [b.toNat] = some [b] := by
      rw [utf8Encode_ascii _ (by omega), UInt8.ofNat_toNat]
    refine ⟨b.toNat :: text, utf8Encode_append one encoded, List.forall_mem_cons.mpr ⟨?_, spaces⟩⟩
    simpa [JsonLocal.isSpaceChar] using code

/-- A line is its stripped part between whitespace. -/
theorem strip_split (line : Bytes) :
    ∃ front back, line = front ++ (strip line ++ back) ∧ Blank front ∧ Blank back := by
  refine ⟨line.takeWhile isSpace, (line.dropWhile isSpace).rtakeWhile isSpace, ?_, ?_, ?_⟩
  · rw [strip, List.rdropWhile_append_rtakeWhile, List.takeWhile_append_dropWhile]
  · exact fun b member => List.mem_takeWhile_imp member
  · exact fun b member => List.mem_rtakeWhile_imp member

/-- A line whose stripped part decodes to an event decodes to it as it stands, or, for
whitespace that JSON does not know, does not decode. -/
theorem decodeLine_unstripped {host : Host} {line : Bytes} {event : Dict}
    (decoded : decodeLine host (strip line) = .ok (.dict event)) :
    decodeLine host line = .ok (.dict event) ∨ ∃ text, decodeLine host line = .error (.valueError text) := by
  obtain ⟨front, back, split, blankFront, blankBack⟩ := strip_split line
  obtain ⟨before, bytesBefore, spacesBefore⟩ := utf8Encode_blank blankFront
  obtain ⟨after, bytesAfter, spacesAfter⟩ := utf8Encode_blank blankBack
  obtain ⟨text, utf8, loaded⟩ := decodeLine_eq_ok.mp decoded
  have encoded := utf8Encode_append bytesBefore (utf8Encode_append (utf8Encode_decode utf8) bytesAfter)
  rw [← split] at encoded
  unfold decodeLine
  rw [utf8Decode_encode encoded]
  unfold loads at loaded
  split_ifs at loaded with deep
  cases parsed : Json.parse (pyDialect host) text with
  | none => simp [parsed] at loaded
  | some tree =>
    simp only [parsed, Except.ok.injEq] at loaded
    obtain ⟨ms, rfl⟩ := toTree_of_dict loaded
    obtain ⟨left, body, right, rfl, whiteLeft, whiteRight, core⟩ := JsonLocal.parse_obj_core parsed
    have spacesLeft : ∀ c ∈ before ++ left, JsonLocal.isSpaceChar c = true :=
      List.forall_mem_append.mpr ⟨spacesBefore, fun c member => JsonLocal.isSpaceChar_of_isWs (whiteLeft c member)⟩
    have spacesRight : ∀ c ∈ right ++ after, JsonLocal.isSpaceChar c = true :=
      List.forall_mem_append.mpr ⟨fun c member => JsonLocal.isSpaceChar_of_isWs (whiteRight c member), spacesAfter⟩
    obtain ⟨outcome, nested⟩ := JsonLocal.parse_spaced rfl core spacesLeft spacesRight
    have same : before ++ ((left ++ ((123 :: (body ++ [125])) ++ right)) ++ after) =
        (before ++ left) ++ ((123 :: (body ++ [125])) ++ (right ++ after)) := by simp
    rw [JsonRoundTrip.nesting_of_parse core, ← JsonRoundTrip.nesting_of_parse parsed] at nested
    simp only [same, loads, if_neg (Nat.not_lt.mpr (nested.trans (Nat.not_lt.mp deep)))]
    rcases outcome with found | nothing
    · rw [found]
      exact .inl (congrArg Except.ok loaded)
    · rw [nothing]
      exact .inr ⟨_, rfl⟩

/-! ## Written lines -/

theorem solid_encodeEvent {host : Host} {event : Dict} {line : Bytes}
    (encoded : encodeEvent host event = .ok line) : Solid line := by
  obtain ⟨text, dumped, bytes⟩ := encodeEvent_eq_ok.mp encoded
  obtain ⟨passed, rfl⟩ := dumps_eq_ok.mp dumped
  have plain : ∀ c ∈ Json.render (toTree (.dict event)), c ≠ 10 := by
    rw [every_written (fun c printable _ => by omega)]
    rintro c - kept rfl
    cases kept
  obtain ⟨body, braces⟩ := render_obj_braces (toMembers event)
  have shape : utf8Encode (123 :: (body ++ [125])) = some line := by
    rw [← braces]
    exact bytes
  obtain ⟨inner, rfl⟩ := utf8Encode_braces shape
  refine ⟨?_, by simp, strip_braces inner⟩
  intro b member
  cases newline : isNewline b with
  | false => rfl
  | true =>
    have ten : b = 10 := by simpa [isNewline] using newline
    subst ten
    exact absurd rfl (plain _ (mem_of_mem_utf8Encode bytes (by decide) member))

end Tesera.Journal.Record
