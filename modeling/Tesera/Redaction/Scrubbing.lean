import Tesera.Redaction.Lookalikes
import Tesera.Redaction.Traversal
import Tesera.Text.Replace

/-!
`scrub_text` on the text of an exception: what was removed from the arguments is replaced, the
longest first, and the text is cut. A container under a sensitive name is removed as one text,
its `str()`, so that a string inside it is not replaced on its own.
-/

namespace Tesera.Redaction.Scrubbing
open Tesera.Text Tesera.Text.Unicode Tesera.Text.Replace Tesera.Python.Value Tesera.Redaction.Traversal

def minScrubbableLength : Nat := 4

/-- The `max_chars` that an outcome is recorded with. -/
def maxChars : Nat := 300

/-- `_truncate`. -/
def truncate (text : Str) (limit : Nat) : Str :=
  if text.length ≤ limit then text else text.take limit ++ lit "...(truncated)"

/-- The set that `scrub_text` makes of the removed values, by length: equally long ones come in
any order. -/
structure ScrubOrder (redactedValues raws : List Str) : Prop where
  nodup : raws.Nodup
  mem : ∀ raw, raw ∈ raws ↔ raw ∈ redactedValues ∧ raw ≠ [] ∧ minScrubbableLength ≤ raw.length
  longest : raws.Pairwise (fun first later => later.length ≤ first.length)

/-- `scrub_text`, with the patterns as what they substitute. -/
def scrubText (raws : List Str) (patterns : List (Str → Str)) (text : Str) : Str :=
  truncate (patterns.foldl (fun text substitutes => substitutes text) (raws.foldl (fun text raw => replace raw redacted text) text))
    maxChars

/-- `text[:limit]`; a negative limit counts from the end. -/
def sliceTo (text : Str) (limit : Int) : Str := text.take (if limit < 0 then text.length + limit else limit).toNat

/-- `_truncate` with any limit. -/
def truncateTo (text : Str) (limit : Int) : Str :=
  if text.length ≤ limit then text else sliceTo text limit ++ lit "...(truncated)"

/-- `scrub_text` with any `max_chars`. -/
def scrubTextTo (maxChars : Int) (raws : List Str) (patterns : List (Str → Str)) (text : Str) : Str :=
  truncateTo (patterns.foldl (fun text substitutes => substitutes text)
    (raws.foldl (fun text raw => replace raw redacted text) text)) maxChars

mutual

/-- The strings at the leaves of a value. -/
def leaves : Value → List Str
  | .str text => [text]
  | .dict _ items => fieldLeaves items
  | .mixed _ items => itemLeaves items
  | .named _ fields => fieldLeaves fields
  | .seq _ items => itemLeaves items
  | .other _ held _ => held
  | _ => []

def fieldLeaves : List (Str × Value) → List Str
  | [] => []
  | (_, value) :: rest => leaves value ++ fieldLeaves rest

def itemLeaves : List Value → List Str
  | [] => []
  | value :: rest => leaves value ++ itemLeaves rest

end

/-- A text that the marker and the end of a cut text cannot hold. -/
structure Plain (text : Str) : Prop where
  long : minScrubbableLength ≤ text.length
  opening : 0x3C ∉ text
  closing : 0x3E ∉ text
  dot : 0x2E ∉ text
  left : 0x28 ∉ text
  right : 0x29 ∉ text
  marker : ¬ text <:+: lit "REDACTED"
  truncated : ¬ text <:+: lit "truncated"

/-! ## What is left in a text -/

theorem Plain.nonempty {part : Str} (plain : Plain part) : part ≠ [] := by
  intro empty
  have long := plain.long
  rw [empty] at long
  exact absurd long (by decide)

theorem redacted_eq : redacted = 0x3C :: (lit "REDACTED" ++ [0x3E]) := by decide

/-- A plain text that is left by the replacements was there, and has none of the values in it. -/
theorem infix_foldl_replace {part : Str} (plain : Plain part) {raws : List Str} (nonempty : ∀ raw ∈ raws, raw ≠ []) {text : Str}
    (inside : part <:+: raws.foldl (fun text raw => replace raw redacted text) text) :
    part <:+: text ∧ ∀ raw ∈ raws, ¬ raw <:+: part := by
  induction raws generalizing text with
  | nil => exact ⟨inside, fun raw none => absurd none List.not_mem_nil⟩
  | cons first raws ih =>
    rw [List.foldl_cons] at inside
    obtain ⟨before, later⟩ := ih (fun raw member => nonempty raw (List.mem_cons_of_mem first member)) inside
    rw [redacted_eq] at before
    obtain ⟨there, absent⟩ := infix_replace (nonempty first List.mem_cons_self) plain.nonempty plain.opening plain.closing
      plain.marker before
    exact ⟨there, List.forall_mem_cons.mpr ⟨absent, later⟩⟩

theorem foldl_replace_of_absent {raws : List Str} {text : Str} (absent : ∀ raw ∈ raws, ¬ raw <:+: text) :
    raws.foldl (fun text raw => replace raw redacted text) text = text := by
  induction raws with
  | nil => rfl
  | cons first raws ih =>
    rw [List.foldl_cons, replace_of_absent (absent first List.mem_cons_self)]
    exact ih (fun raw member => absent raw (List.mem_cons_of_mem first member))

/-- The end of a cut text holds nothing plain. -/
theorem infix_ending {part kept : Str} (plain : Plain part) (inside : part <:+: kept ++ lit "...(truncated)") : part <:+: kept := by
  have ending : lit "...(truncated)" = 0x2E :: ([] ++ 0x2E :: ([] ++ 0x2E :: ([] ++ 0x28 :: (lit "truncated" ++ 0x29 :: [])))) := by
    decide
  have nothing : ¬ part <:+: [] := fun empty => plain.nonempty (List.infix_nil.mp empty)
  rw [ending] at inside
  apply (infix_append_cons plain.dot inside).resolve_right
  intro second
  apply (infix_append_cons plain.dot second).elim nothing
  intro third
  apply (infix_append_cons plain.dot third).elim nothing
  intro bracket
  apply (infix_append_cons plain.left bracket).elim nothing
  intro word
  exact (infix_append_cons plain.right word).elim plain.truncated nothing

/-- What is found in a cut text was in the text, and is no longer than the limit. -/
theorem infix_truncate {part text : Str} (plain : Plain part) {limit : Nat} (inside : part <:+: truncate text limit) :
    part <:+: text ∧ part.length ≤ limit := by
  rw [truncate] at inside
  split_ifs at inside with short
  · exact ⟨inside, inside.length_le.trans short⟩
  · have kept : part <:+: text.take limit := infix_ending plain inside
    have bound := kept.length_le
    rw [List.length_take] at bound
    exact ⟨kept.trans (List.take_prefix limit text).isInfix, by omega⟩

theorem exists_scrubOrder (redactedValues : List Str) : ∃ raws, ScrubOrder redactedValues raws := by
  let wanted := (redactedValues.filter (fun raw => decide (raw ≠ [] ∧ minScrubbableLength ≤ raw.length))).dedup
  let longer := fun first later : Str => decide (later.length ≤ first.length)
  have transitive : ∀ a b c, longer a b = true → longer b c = true → longer a c = true := by
    intro a b c
    simp only [longer, decide_eq_true_iff]
    omega
  have total : ∀ a b, (longer a b || longer b a) = true := by
    intro a b
    simp only [longer, Bool.or_eq_true, decide_eq_true_iff]
    omega
  have sorted := List.pairwise_mergeSort transitive total wanted
  refine ⟨wanted.mergeSort longer, ⟨?_, ?_, ?_⟩⟩
  · exact (List.mergeSort_perm wanted longer).nodup_iff.mpr (List.nodup_dedup _)
  · intro raw
    rw [(List.mergeSort_perm wanted longer).mem_iff, List.mem_dedup, List.mem_filter, decide_eq_true_iff]
  · exact sorted.imp (by simp [longer])

/-- A plain string from a removed value never reaches the summary of an error when a text of a
removed value is part of each one that is short enough, and otherwise it may. -/
theorem scrubbed_iff (settings : Settings) (patternless : settings.patterns = []) (arguments : Value) (canonical : Json)
    (redactedValues : List Str) (walked : canonicalize settings arguments = .ok (canonical, redactedValues)) :
    (∀ text raws, ScrubOrder redactedValues raws →
        ∀ value ∈ removed settings arguments, ∀ leaf ∈ leaves value, Plain leaf → ¬ leaf <:+: scrubText raws [] text) ↔
      ∀ value ∈ removed settings arguments, ∀ leaf ∈ leaves value, Plain leaf → leaf.length ≤ maxChars →
        ∃ other ∈ removed settings arguments, ∃ raw, removedText settings other = some raw ∧
          minScrubbableLength ≤ raw.length ∧ raw <:+: leaf := by
  have collected : redactedValues = (removed settings arguments).filterMap (removedText settings) :=
    collected_walk patternless arguments walked
  have member : ∀ raw, raw ∈ redactedValues ↔ ∃ other ∈ removed settings arguments, removedText settings other = some raw := by
    intro raw
    rw [collected, List.mem_filterMap]
  constructor
  · intro never value found leaf inside plain short
    by_contra uncovered
    obtain ⟨raws, order⟩ := exists_scrubOrder redactedValues
    -- the exception says just this string
    have absent : ∀ raw ∈ raws, ¬ raw <:+: leaf := by
      intro raw known part
      obtain ⟨here, _, long⟩ := (order.mem raw).mp known
      obtain ⟨other, among, text⟩ := (member raw).mp here
      exact uncovered ⟨other, among, raw, text, long, part⟩
    apply never leaf raws order value found leaf inside plain
    rw [scrubText, foldl_replace_of_absent absent, List.foldl_nil, truncate, if_pos short]
  · intro covered text raws order value found leaf inside plain left
    obtain ⟨there, short⟩ := infix_truncate plain left
    rw [List.foldl_nil] at there
    obtain ⟨_, absent⟩ := infix_foldl_replace plain (fun raw known => ((order.mem raw).mp known).2.1) there
    obtain ⟨other, among, raw, shown, long, part⟩ := covered value found leaf inside plain short
    have nonempty : raw ≠ [] := by
      intro empty
      rw [empty] at long
      exact absurd long (by decide)
    exact absent raw ((order.mem raw).mpr ⟨(member raw).mpr ⟨other, among, shown⟩, nonempty, long⟩) part

/-! ## Any limit -/

theorem infix_truncateTo {part text : Str} (plain : Plain part) {limit : Int} (inside : part <:+: truncateTo text limit) :
    part <:+: text := by
  rw [truncateTo] at inside
  by_cases short : text.length ≤ limit
  · rwa [if_pos short] at inside
  · rw [if_neg short] at inside
    have kept : part <:+: sliceTo text limit := infix_ending plain inside
    exact kept.trans (List.take_prefix _ text).isInfix

theorem truncateTo_natCast (text : Str) (limit : Nat) : truncateTo text limit = truncate text limit := by
  have whole : ¬ (limit : Int) < 0 := by omega
  simp only [truncateTo, truncate, sliceTo, if_neg whole, Int.toNat_natCast, Nat.cast_le]

theorem scrubTextTo_maxChars (raws : List Str) (patterns : List (Str → Str)) (text : Str) :
    scrubTextTo maxChars raws patterns text = scrubText raws patterns text := truncateTo_natCast _ maxChars

/-- No plain value is left in the text: a replacement leaves none of its own value, and neither the later
ones nor the cut bring it back. -/
theorem scrubbed_absent (redactedValues raws : List Str) (order : ScrubOrder redactedValues raws) (text : Str) (limit : Int)
    (value : Str) (known : value ∈ redactedValues) (plain : Plain value) : ¬ value <:+: scrubTextTo limit raws [] text := by
  intro inside
  have left : value <:+: raws.foldl (fun text raw => replace raw redacted text) text := infix_truncateTo plain inside
  obtain ⟨_, absent⟩ := infix_foldl_replace plain (fun raw member => ((order.mem raw).mp member).2.1) left
  have listed : value ∈ raws := (order.mem value).mpr ⟨known, plain.nonempty, plain.long⟩
  exact absent value listed (List.infix_refl value)

/-! ## A password in a list -/

/-- `str()` of a list of one word. -/
def sampleStr : Value → Option Str
  | .seq _ [.str text] => some (lit "['" ++ text ++ lit "']")
  | _ => some (lit "object")

def sampleSettings : Settings := ⟨Lookalikes.sampleData, Names.sensitiveNames, [], sampleStr⟩

def sampleString : Value := .dict (lit "builtins.dict") [(lit "password", .str (lit "hunter22"))]

def sampleList : Value :=
  .dict (lit "builtins.dict") [(lit "password", .seq (lit "builtins.list") [.str (lit "hunter22")])]

theorem sample_hides : sampleSettings.hides (lit "password") = true := by decide +kernel

/-- A dict with one value under `password`. -/
theorem walk_password {value : Value} {text : Str} (quiet : raises sampleSettings value = false)
    (shown : removedText sampleSettings value = some text) :
    canonicalize sampleSettings (.dict (lit "builtins.dict") [(lit "password", value)]) =
      .ok (.dict (Members.ofPairs [(lit "password", .str redacted)]), [text]) := by
  have removed : redact sampleSettings value = .ok (.str redacted, [text]) := by
    rw [redact, quiet, shown]
    rfl
  rw [canonicalize, walk, walkFields, if_pos sample_hides, removed]
  rfl

/-- The order of one removed value. -/
theorem scrubOrder_singleton {raw : Str} (long : raw ≠ [] ∧ minScrubbableLength ≤ raw.length) : ScrubOrder [raw] [raw] where
  nodup := List.nodup_singleton raw
  mem := by
    intro other
    constructor
    · intro known
      exact ⟨known, List.mem_singleton.mp known ▸ long⟩
    · exact And.left
  longest := List.pairwise_singleton ..

theorem samplePassword_plain : Plain (lit "hunter22") :=
  ⟨by decide, by decide, by decide, by decide, by decide, by decide, by decide, by decide⟩

theorem removed_password (value : Value) :
    removed sampleSettings (.dict (lit "builtins.dict") [(lit "password", value)]) = [value] := by
  rw [removed, removedFields, if_pos sample_hides]
  rfl

/-- With the text cut inside a password. -/
theorem scrubbed_absent_sample : ¬ lit "hunter22" <:+: scrubTextTo (-3) [lit "hunter22"] [] (lit "hunter2hunter22hunter22") :=
  scrubbed_absent [lit "hunter22"] _ (scrubOrder_singleton (by decide)) _ _ _ List.mem_cons_self samplePassword_plain

/-- A password that is a string is scrubbed from the text of an exception. -/
theorem scrubbed_sample : ScrubOrder [lit "hunter22"] [lit "hunter22"] ∧
    ¬ lit "hunter22" <:+: scrubText [lit "hunter22"] [] (lit "wrong password hunter22") := by
  have here : removed sampleSettings sampleString = [.str (lit "hunter22")] := removed_password _
  have order : ScrubOrder [lit "hunter22"] [lit "hunter22"] := scrubOrder_singleton (by decide)
  refine ⟨order, ?_⟩
  apply (scrubbed_iff sampleSettings rfl sampleString _ _ (walk_password rfl rfl)).mpr ?_ _ _ order (.str (lit "hunter22"))
    (here ▸ List.mem_cons_self) _ List.mem_cons_self samplePassword_plain
  intro value found leaf inside _ _
  rw [here, List.mem_singleton] at found
  rw [found, leaves, List.mem_singleton] at inside
  exact ⟨.str (lit "hunter22"), here ▸ List.mem_cons_self, lit "hunter22", rfl, by decide, inside ▸ List.infix_refl _⟩

/-- One inside a list is left in the text of an exception that has it. -/
theorem listed_password_leaks : ∃ canonical redactedValues raws, canonicalize sampleSettings sampleList = .ok (canonical, redactedValues) ∧
    ScrubOrder redactedValues raws ∧ Plain (lit "hunter22") ∧
    (∃ value ∈ removed sampleSettings sampleList, lit "hunter22" ∈ leaves value) ∧
    lit "hunter22" <:+: scrubText raws [] (lit "wrong password hunter22") := by
  refine ⟨_, [lit "['hunter22']"], [lit "['hunter22']"], walk_password rfl rfl, scrubOrder_singleton (by decide), samplePassword_plain,
    ?_, by decide +kernel⟩
  have here : removed sampleSettings sampleList = [.seq (lit "builtins.list") [.str (lit "hunter22")]] := removed_password _
  exact ⟨_, here ▸ List.mem_cons_self, by rw [leaves, itemLeaves]; exact List.mem_cons_self⟩

end Tesera.Redaction.Scrubbing
