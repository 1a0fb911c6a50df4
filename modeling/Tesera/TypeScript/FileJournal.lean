import Tesera.Text.Utf8Lossy
import Tesera.Canonical
import Tesera.TypeScript.RawTree

/-!
`Journal.ts` over the content of the file: the hash of the last line, the line an append
writes, and the digest its event carries; and the digest `Verify.ts` computes of a line.
-/

namespace Tesera.TypeScript.FileJournal
open Tesera.Text Tesera.Text.Unicode Tesera.Text.Lines Tesera.Text.Utf8Lossy
open Tesera.TypeScript.Value Tesera.TypeScript.Canonical Tesera.TypeScript.RawTree

/-! ## Texts and bytes -/

/-- `Buffer.from(text, "utf8")`. -/
def bufferOf (text : Str) : Bytes := utf8Bytes (utf16Decode text)

/-- `buffer.toString("utf-8")`. -/
def textOf (buffer : Bytes) : Str := utf16Encode (utf8Lossy buffer)

/-- The whitespace `String.prototype.trim` removes. -/
def isTrimmed (u : Nat) : Bool :=
  decide (9 ≤ u ∧ u ≤ 13) || u == 32 || u == 0xA0 || u == 0x1680 || decide (0x2000 ≤ u ∧ u ≤ 0x200A) ||
    u == 0x2028 || u == 0x2029 || u == 0x202F || u == 0x205F || u == 0x3000 || u == 0xFEFF

def trim (text : Str) : Str := (text.dropWhile isTrimmed).rdropWhile isTrimmed

/-! ## The end of the file -/

inductive JournalError where
  /-- `journal tail is corrupt; refusing to extend a broken chain (verify …)` -/
  | corruptTail
  /-- `journal tail has a non-string event_hash` -/
  | oddHash
  /-- `cannot read journal …: TypeError: …`, of a line that is `null` -/
  | cannotRead

/-- `hashFromLine`. A value that is no object has no property of that name. -/
def hashFromLine (engine : Engine) (line : Bytes) : Except JournalError Str :=
  match parseJson engine (textOf line) with
  | none => .error .corruptTail
  | some .null => .error .cannotRead
  | some (.obj event) =>
      match Members.get event (lit "event_hash") with
      | some (.str hash) => .ok hash
      | _ => .error .oddHash
  | some _ => .error .oddHash

def tailReadBytes : Nat := 64 * 1024

def isLineEnd (u : Nat) : Bool := u == 13 || u == 10

/-- The text after the last newline. -/
def lastLine (text : Str) : Str := text.rtakeWhile (fun u => u != 10)

/-- The windows of `readLastEventHash`; each is twice the one before. -/
def readWindows (engine : Engine) (content : Bytes) : Nat → Nat → Except JournalError (Option Str)
  | 0, _ => .ok none
  | fuel + 1, window =>
      let start := content.length - window
      let stripped := (textOf (content.drop start)).rdropWhile isLineEnd
      if stripped = [] then
        if start = 0 then .ok none else readWindows engine content fuel (window * 2)
      else if (10 ∉ stripped) ∧ 0 < start then readWindows engine content fuel (window * 2)
      else (hashFromLine engine (bufferOf (lastLine stripped))).map some

/-- `readLastEventHash`. The window doubles, so the length of the file bounds the number of
windows. -/
def readLastEventHash (engine : Engine) (content : Bytes) : Except JournalError (Option Str) :=
  if content.length = 0 then .ok none
  else readWindows engine content (content.length + 1) tailReadBytes

/-! ## Writing and hashing -/

/-- `eventDigest`; none where `canonical` throws. -/
def eventDigest (sha256 : Bytes → Bytes) (unsignedPayload : Record) : Option Bytes :=
  (canonical (.obj unsignedPayload)).map (fun text => sha256 (bufferOf text))

/-- The record `finalizeEvent` makes of a payload, its digest and the signature. -/
def finalized (payload : Record) (digest : Bytes) (signature : Str) : Record :=
  Members.put (lit "signature") (.str signature)
    (Members.put (lit "event_hash") (.str (Canonical.hex digest)) payload)

/-- What `appendEvent` leaves of the content when its write succeeds. -/
def written (content : Bytes) (line : Str) : Bytes := content ++ bufferOf (line ++ [10])

/-- `delete tree["event_hash"]; delete tree["signature"]`. Only an object has own properties of
these names; of `null` the deletion throws. -/
def deleteSeal : Node → Option Node
  | .null => none
  | .obj own prototype =>
      some (.obj (own.filter (fun p => decide (p.1 ≠ lit "event_hash" ∧ p.1 ≠ lit "signature"))) prototype)
  | node => some node

/-- `createHash("sha256").update(canonicalRaw(tree), "utf8")`. An integer `$num` that is no
string is returned as it is, and `update` refuses it. -/
def hashedText (host : Host) (tree : Node) : Option Str :=
  match rawNum tree with
  | some (.str _) => canonicalRaw host tree
  | some token => if ((host.string token).bind intToken).isSome then none else canonicalRaw host tree
  | none => canonicalRaw host tree

/-- The text `digestOfUnsigned` hashes; none where it throws. -/
def unsignedText (host : Host) (rawLine : Str) : Option Str :=
  (parseRaw (trim rawLine)).bind (fun tree => (deleteSeal tree).bind (hashedText host))

/-- `digestOfUnsigned`, before it is written in hexadecimal. -/
def digestOfUnsigned (host : Host) (sha256 : Bytes → Bytes) (rawLine : Str) : Option Bytes :=
  (unsignedText host rawLine).map (fun text => sha256 (bufferOf text))

/-! ## A line and its bytes -/

theorem utf16Decode_wellFormed {s : Str} (wellFormed : WellFormed s) :
    utf16Encode (utf16Decode s) = s ∧ ∀ n ∈ utf16Decode s, IsScalar n := by
  obtain ⟨text, scalars, rfl⟩ := wellFormed
  rw [utf16Decode_encode scalars]
  exact ⟨rfl, scalars⟩

/-- A well-formed text comes back from its bytes. -/
theorem textOf_bufferOf_append {s : Str} (wellFormed : WellFormed s) (rest : Bytes) :
    textOf (bufferOf s ++ rest) = s ++ textOf rest := by
  obtain ⟨same, scalars⟩ := utf16Decode_wellFormed wellFormed
  rw [textOf, bufferOf, utf8Lossy_bytes_append scalars]
  simp only [utf16Encode, List.flatMap_append, textOf] at same ⊢
  rw [same]

theorem textOf_bufferOf {s : Str} (wellFormed : WellFormed s) : textOf (bufferOf s) = s := by
  have whole := textOf_bufferOf_append wellFormed []
  rwa [List.append_nil, show textOf [] = [] from rfl, List.append_nil] at whole

theorem textOf_newline (before after : Bytes) :
    textOf (before ++ 10 :: after) = textOf before ++ 10 :: textOf after := by
  have split := utf8Lossy_ascii (b := 10) (by decide) before after
  rw [textOf, split]
  simp [textOf, utf16Encode, unitsOf]

theorem mem_textOf_newline {buffer : Bytes} (member : 10 ∈ textOf buffer) : 10 ∈ buffer := by
  obtain ⟨n, inside, unit⟩ := List.mem_flatMap.mp member
  have same : n = 10 := by
    unfold unitsOf at unit
    split_ifs at unit
    · exact (List.mem_singleton.mp unit).symm
    · simp only [List.mem_cons, List.not_mem_nil, or_false] at unit
      omega
  obtain ⟨b, member', value⟩ := mem_of_mem_utf8Lossy (by decide) (same ▸ inside)
  have byte : b = 10 := UInt8.toNat_inj.mp value
  exact byte ▸ member'

/-- The bytes of a text without newlines have none. -/
theorem newline_free {s : Str} (plain : ∀ u ∈ s, 32 ≤ u) : 10 ∉ bufferOf s := by
  intro member
  have inside := mem_of_mem_utf8Bytes (b := 10) (by decide) member
  have decoded (text : Str) (clear : ∀ u ∈ text, 32 ≤ u) : 10 ∉ utf16Decode text := by
    induction text using utf16Decode.induct with
    | case1 => exact List.not_mem_nil
    | case2 u =>
      have := clear u List.mem_cons_self
      simp only [utf16Decode, List.mem_singleton]
      split_ifs <;> omega
    | case3 u v rest pair ih =>
      simp only [utf16Decode, pair, if_true, List.mem_cons, not_or]
      refine ⟨by unfold combine; omega, ih ?_⟩
      exact fun w member => clear w (List.mem_cons_of_mem u (List.mem_cons_of_mem v member))
    | case4 u v rest lone ih =>
      have := clear u List.mem_cons_self
      simp only [utf16Decode, if_neg lone, List.mem_cons, not_or]
      refine ⟨by split_ifs <;> omega, ih ?_⟩
      exact fun w member => clear w (List.mem_cons_of_mem u member)
  exact decoded s plain inside

/-! ## The last line is found -/

/-- A text an append can write as one line. -/
structure OneLine (line : Str) : Prop where
  wellFormed : WellFormed line
  plain : ∀ u ∈ line, 32 ≤ u
  nonempty : line ≠ []

theorem OneLine.stripped {line : Str} (one : OneLine line) : line.rdropWhile isLineEnd = line := by
  rw [List.rdropWhile_eq_self_iff]
  intro nonempty ends
  have := one.plain _ (List.getLast_mem nonempty)
  simp only [isLineEnd, Bool.or_eq_true, beq_iff_eq] at ends
  omega

theorem OneLine.noNewline {line : Str} (one : OneLine line) : 10 ∉ line := by
  intro member
  have := one.plain 10 member
  omega

theorem OneLine.lastLine {line : Str} (one : OneLine line) : lastLine line = line := by
  rw [FileJournal.lastLine, List.rtakeWhile_eq_self_iff]
  intro u member
  have := one.plain u member
  simp only [bne_iff_ne, ne_eq]
  omega

theorem OneLine.lastLine_append {line : Str} (one : OneLine line) (before : Str) :
    FileJournal.lastLine (before ++ 10 :: line) = line := by
  have whole := one.lastLine
  unfold FileJournal.lastLine List.rtakeWhile at whole ⊢
  have reversed : line.reverse.takeWhile (fun u => u != 10) = line.reverse := by
    rw [← List.reverse_inj, List.reverse_reverse]
    exact whole
  rw [List.reverse_append, List.reverse_cons, List.append_assoc, List.takeWhile_append, if_pos (by rw [reversed]),
    List.cons_append, List.takeWhile_cons_of_neg (by simp), List.append_nil, List.reverse_reverse]

theorem bufferOf_append_newline {line : Str} (wellFormed : WellFormed line) :
    bufferOf (line ++ [10]) = bufferOf line ++ [10] := by
  obtain ⟨text, scalars, rfl⟩ := wellFormed
  have newline : utf16Encode text ++ [10] = utf16Encode (text ++ [10]) := by simp [utf16Encode, unitsOf]
  have both : ∀ n ∈ text ++ [10], IsScalar n :=
    List.forall_mem_append.mpr ⟨scalars, List.forall_mem_singleton.mpr (.inl (by decide))⟩
  rw [bufferOf, bufferOf, newline, utf16Decode_encode both, utf16Decode_encode scalars, utf8Bytes_append,
    utf8Bytes_ascii (by decide)]
  rfl

theorem terminated_written (content : Bytes) {line : Str} (wellFormed : WellFormed line) :
    Terminated (written content line) := by
  rw [written, bufferOf_append_newline wellFormed, ← List.append_assoc]
  intro b last
  rw [List.getLast?_concat, Option.mem_some_iff] at last
  subst last
  rfl

/-- The text between a window's start and the final newline: with a newline in it, it ends with
the line; without one it is the line exactly where the line is the whole content. -/
theorem window_text {content : Bytes} (terminated : Terminated content) {line : Str} (one : OneLine line)
    (start : Nat) (inside : start < (written content line).length) :
    ∃ stripped, (textOf ((written content line).drop start)).rdropWhile isLineEnd = stripped ∧
      (10 ∈ stripped → stripped ≠ [] ∧ FileJournal.lastLine stripped = line) ∧
      (start = 0 → stripped ≠ [] ∧ FileJournal.lastLine stripped = line) := by
  have shape : written content line = content ++ (bufferOf line ++ [10]) := by
    rw [written, bufferOf_append_newline one.wellFormed]
  have ends (text : Str) : (text ++ [10]).rdropWhile isLineEnd = text.rdropWhile isLineEnd :=
    List.rdropWhile_concat_pos isLineEnd text 10 rfl
  have newline : textOf [10] = [10] := rfl
  have lineText : textOf (bufferOf line ++ [10]) = line ++ [10] := by
    rw [textOf_bufferOf_append one.wellFormed, newline]
  rw [shape] at inside ⊢
  rcases Nat.lt_trichotomy start content.length with before | here | after
  · -- the window holds the end of the content, which is a newline
    obtain ⟨kept, rfl⟩ : ∃ kept, content = kept ++ [10] := by
      have nonempty : content ≠ [] := fun empty => by simp [empty] at before
      have last := terminated _ (List.getLast?_eq_getLast_of_ne_nil nonempty)
      refine ⟨content.dropLast, ?_⟩
      have byte : content.getLast nonempty = 10 := by simpa [isNewline] using last
      rw [← byte, List.dropLast_append_getLast]
    have chunk : ((kept ++ [10]) ++ (bufferOf line ++ [10])).drop start =
        kept.drop start ++ 10 :: (bufferOf line ++ [10]) := by
      have short : start ≤ kept.length := by simpa using Nat.lt_succ_iff.mp (by simpa using before)
      rw [List.append_assoc, List.drop_append_of_le_length short]
      rfl
    have text : (textOf (((kept ++ [10]) ++ (bufferOf line ++ [10])).drop start)).rdropWhile isLineEnd =
        textOf (kept.drop start) ++ 10 :: line := by
      have assoc : textOf (kept.drop start) ++ 10 :: (line ++ [10]) =
          (textOf (kept.drop start) ++ 10 :: line) ++ [10] := by simp
      rw [chunk, textOf_newline, lineText, assoc, ends, List.rdropWhile_eq_self_iff]
      intro nonempty lineEnd
      rw [List.getLast_append_of_ne_nil _ (by simp), List.getLast_cons one.nonempty] at lineEnd
      have := one.plain _ (List.getLast_mem one.nonempty)
      simp only [isLineEnd, Bool.or_eq_true, beq_iff_eq] at lineEnd
      omega
    exact ⟨_, text, fun _ => ⟨by simp, one.lastLine_append _⟩, fun _ => ⟨by simp, one.lastLine_append _⟩⟩
  · -- the window is the line
    have text : (textOf ((content ++ (bufferOf line ++ [10])).drop start)).rdropWhile isLineEnd = line := by
      rw [here, List.drop_left, lineText, ends, one.stripped]
    exact ⟨line, text, fun member => absurd member one.noNewline, fun _ => ⟨one.nonempty, one.lastLine⟩⟩
  · -- the window begins inside the line
    have chunk : (content ++ (bufferOf line ++ [10])).drop start =
        (bufferOf line).drop (start - content.length) ++ [10] := by
      rw [List.drop_append, List.drop_of_length_le after.le, List.nil_append]
      apply List.drop_append_of_le_length
      simp only [List.length_append, List.length_singleton] at inside
      omega
    have clear : 10 ∉ textOf ((bufferOf line).drop (start - content.length)) := by
      intro member
      exact newline_free one.plain (List.mem_of_mem_drop (mem_textOf_newline member))
    refine ⟨_, rfl, fun member => ?_, fun zero => absurd after (by omega)⟩
    rw [chunk, textOf_newline, show textOf [] = [] from rfl, ends] at member
    exact absurd ((List.rdropWhile_prefix isLineEnd _).mem member) clear

theorem hashFromLine_of_parse {engine : Engine} {line : Str} {event : Record} {hash : Str}
    (wellFormed : WellFormed line) (parsed : parseJson engine line = some (.obj event))
    (stored : Members.get event (lit "event_hash") = some (.str hash)) :
    hashFromLine engine (bufferOf line) = .ok hash := by
  simp only [hashFromLine, textOf_bufferOf wellFormed, parsed, stored]

/-- The windows find the line that was written, and its hash. -/
theorem readWindows_written {engine : Engine} {content : Bytes} (terminated : Terminated content) {line : Str}
    (one : OneLine line) {hash : Str} (hashed : hashFromLine engine (bufferOf line) = .ok hash) (fuel : Nat) :
    ∀ window, 0 < window → (written content line).length ≤ window + fuel →
      readWindows engine (written content line) (fuel + 1) window = .ok (some hash) := by
  have long : 0 < (written content line).length := by
    rw [written, bufferOf_append_newline one.wellFormed]
    simp
  induction fuel with
  | zero =>
    intro window positive enough
    have start : (written content line).length - window = 0 := by omega
    obtain ⟨stripped, text, -, whole⟩ := window_text terminated one 0 long
    obtain ⟨nonempty, last⟩ := whole rfl
    simp only [readWindows, start, text, if_neg nonempty, Nat.lt_irrefl, and_false, if_false, last, hashed]
    rfl
  | succ fuel ih =>
    intro window positive enough
    obtain ⟨stripped, text, found, whole⟩ :=
      window_text terminated one ((written content line).length - window) (by omega)
    have wider := ih (window * 2) (by omega) (by omega)
    rw [readWindows]
    simp only [text]
    by_cases start : (written content line).length - window = 0
    · obtain ⟨nonempty, last⟩ := whole start
      simp only [if_neg nonempty, start, Nat.lt_irrefl, and_false, if_false, last, hashed]
      rfl
    · by_cases newline : 10 ∈ stripped
      · obtain ⟨nonempty, last⟩ := found newline
        simp only [if_neg nonempty, newline, not_true, false_and, if_false, last, hashed]
        rfl
      · simp only [if_neg start, wider]
        split_ifs with empty widened
        · rfl
        · rfl
        · exact absurd ⟨newline, Nat.pos_of_ne_zero start⟩ widened

/-- After an append the tail holds the hash of the event appended. -/
theorem readLastEventHash_written {engine : Engine} {content : Bytes} (terminated : Terminated content)
    {line : Str} (one : OneLine line) {event : Record} {hash : Str}
    (parsed : parseJson engine line = some (.obj event))
    (stored : Members.get event (lit "event_hash") = some (.str hash)) :
    readLastEventHash engine (written content line) = .ok (some hash) := by
  have hashed := hashFromLine_of_parse one.wellFormed parsed stored
  have found := readWindows_written terminated one hashed (written content line).length tailReadBytes (by decide)
    (by omega)
  have long : (written content line).length ≠ 0 := by
    rw [written, bufferOf_append_newline one.wellFormed]
    simp
  rw [readLastEventHash, if_neg long, found]

end Tesera.TypeScript.FileJournal
