import Tesera.TypeScript.LineRoundTrip
import Tesera.TypeScript.SameVerdict

/-!
Lines that Python writes, read by `verifyLines`. An event without floats that both languages write alike is
read as a like value, its integers are exact, and it has one digest in both; so the verdicts over a file of
such lines differ by nothing but the checks of one verifier only.
-/

namespace Tesera.TypeScript.PythonLines
open Tesera.Text Tesera.Text.Unicode Tesera.Text.Lines Tesera.Text.Number Tesera.Text.Decimal
open Tesera.Documents (Alike AlikePair alike_dict)
open Tesera.Python.Value (Dict DictOk)
open Tesera.Canonical (canonicalJsonBytes canonicalJsonBytes_eq_ok eventDigest eventDigest_eq_ok unsignedPayload)
open Tesera.Journal.Record (encodeEvent encodeEvent_eq_ok decodeLine decodeLine_encodeEvent solid_encodeEvent)
open Tesera.TypeScript.Value Tesera.TypeScript.Canonical Tesera.TypeScript.RawTree
open Tesera.TypeScript.FileJournal (bufferOf textOf textOf_newline mem_textOf_newline digestOfUnsigned unsignedText)
open Tesera.TypeScript.LineRoundTrip (Plain isSeal unsignedText_render trim_render)
open Tesera.Verification.Event (EventType)
open Tesera.TypeScript.SameBytes Tesera.TypeScript.Verify Tesera.TypeScript.SameVerdict

/-! ## Integers -/

theorem values_ofInt {n : Int} (nonzero : n ≠ 0) : (Token.ofInt n).whole.values = (Nat.digits 10 n.natAbs).reverse := by
  simp only [Token.ofInt, decimal, Digits.values_ofValues, natValues, if_neg (show n.natAbs ≠ 0 by omega)]

theorem head_ofInt {n : Int} (nonzero : n ≠ 0) : (Token.ofInt n).whole.values.head? ≠ some 0 := by
  have digits := Nat.digits_ne_nil_iff_ne_zero (b := 10).mpr (show n.natAbs ≠ 0 by omega)
  rw [values_ofInt nonzero, List.head?_reverse, List.getLast?_eq_some_getLast digits]
  intro same
  exact Nat.getLast_digit_ne_zero 10 (show n.natAbs ≠ 0 by omega) (Option.some.inj same)

theorem isInteger_decOf (n : Int) : isInteger (decOf (Token.ofInt n)) = true := by
  by_cases zero : n = 0
  · subst zero
    decide
  · exact (decOf_integral (Token.isInt_ofInt n) (head_ofInt zero)).2.2.2

/-- The decimal of an integer is that integer. -/
theorem value_decOf (n : Int) : Verify.value (decOf (Token.ofInt n)) = n := by
  by_cases zero : n = 0
  · subst zero
    decide +kernel
  · obtain ⟨digits, -, point, -⟩ := decOf_integral (Token.isInt_ofInt n) (head_ofInt zero)
    obtain ⟨zeros, shape⟩ := strip_append (head_ofInt zero)
    have length := congrArg List.length shape
    rw [List.length_append, List.length_replicate] at length
    have scale : (decOf (Token.ofInt n)).point - (decOf (Token.ofInt n)).digits.length = (zeros : Int) := by
      rw [point, digits]
      omega
    have whole : Nat.ofDigits 10 (Dec.strip (Token.ofInt n).whole.values).reverse * 10 ^ zeros = n.natAbs := by
      have reversed := congrArg List.reverse shape
      rw [values_ofInt zero, List.reverse_reverse, List.reverse_append, List.reverse_replicate] at reversed
      have sum := congrArg (Nat.ofDigits 10) reversed
      rw [Nat.ofDigits_digits, Nat.ofDigits_append, Nat.ofDigits_replicate_zero, List.length_replicate, Nat.zero_add,
        mul_comm] at sum
      rw [sum, values_ofInt zero]
    have magnitude : (Nat.ofDigits (10 : Rat) (decOf (Token.ofInt n)).digits.reverse) * 10 ^ (zeros : Int) = (n.natAbs : Rat) := by
      rw [digits, ← whole, zpow_natCast, Nat.cast_mul, Nat.cast_pow, Nat.coe_ofDigits]
      rfl
    have sign : (decOf (Token.ofInt n)).neg = decide (n < 0) := rfl
    rw [Verify.value, scale, mul_assoc, magnitude, sign]
    by_cases negative : n < 0
    · have same : (n : Rat) = -(n.natAbs : Rat) := by
        rw [Nat.cast_natAbs, abs_of_neg negative, Int.cast_neg, neg_neg]
      rw [if_pos (by simpa using negative), same, neg_one_mul]
    · have same : (n : Rat) = (n.natAbs : Rat) := by
        rw [Nat.cast_natAbs, abs_of_nonneg (not_lt.mp negative)]
      rw [if_neg (by simpa using negative), same, one_mul]

/-- A double that stands for an integer is that integer. -/
theorem integer_number {engine : Engine} {n : Int}
    (double : engine.double (decOf (Token.ofInt n)) = some (decOf (Token.ofInt n))) :
    integer (some (.num (engine.number (Token.ofInt n)))) = some (n : Rat) := by
  rw [Engine.number, double]
  simp only [integer, isInteger_decOf, if_true, value_decOf]

/-! ## Values -/

mutual

theorem alike_valueOf (engine : Engine) : ∀ v : Python.Value.Json, FloatFree v → SameText engine v → v.Ok host → Alike v (valueOf engine v)
  | .null, _, _, _ => .null
  | .bool b, _, _, _ => .bool b
  | .int n, _, _, _ => .int n _
  | .float _, free, _, _ => free.elim
  | .str s, _, _, _ => .str s
  | .list items, free, same, ok => by
      rw [FloatFree] at free
      rw [SameText] at same
      rw [Python.Value.Json.Ok] at ok
      exact .list (alike_valuesOf engine items free same ok)
  | .dict members, free, same, ok => by
      rw [FloatFree] at free
      rw [SameText] at same
      rw [Python.Value.Json.Ok] at ok
      have like := alike_dict (alike_recordOf engine members free same.2 ok.2)
      rw [Members.ofPairs_of_sorted ok.1] at like
      exact like

theorem alike_valuesOf (engine : Engine) : ∀ items : List Python.Value.Json, FloatFreeItems items → SameItems engine items →
    Python.Value.ItemsOk host items → List.Forall₂ Alike items (valuesOf engine items)
  | [], _, _, _ => .nil
  | v :: items, free, same, ok => by
      rw [FloatFreeItems] at free
      rw [SameItems] at same
      rw [Python.Value.ItemsOk] at ok
      exact .cons (alike_valueOf engine v free.1 same.1 ok.1) (alike_valuesOf engine items free.2 same.2 ok.2)

theorem alike_recordOf (engine : Engine) : ∀ members : Dict, FloatFreeMembers members → SameMembers engine members →
    Python.Value.MembersOk host members → List.Forall₂ AlikePair members (recordOf engine members)
  | [], _, _, _ => .nil
  | (k, v) :: members, free, same, ok => by
      rw [FloatFreeMembers] at free
      rw [SameMembers] at same
      rw [Python.Value.MembersOk] at ok
      exact .cons ⟨rfl, alike_valueOf engine v free.1 same.2.1 ok.1⟩ (alike_recordOf engine members free.2 same.2.2 ok.2)

end

mutual

theorem finite_of_floatFree : ∀ v : Python.Value.Json, FloatFree v → Python.Writable.finite v = true
  | .null, _ => rfl
  | .bool _, _ => rfl
  | .int _, _ => rfl
  | .float _, free => free.elim
  | .str _, _ => rfl
  | .list items, free => by
      rw [FloatFree] at free
      rw [Python.Writable.finite, finiteItems_of_floatFree items free]
  | .dict members, free => by
      rw [FloatFree] at free
      rw [Python.Writable.finite, finiteMembers_of_floatFree members free]

theorem finiteItems_of_floatFree : ∀ items : List Python.Value.Json, FloatFreeItems items → Python.Writable.finiteItems items = true
  | [], _ => rfl
  | v :: items, free => by
      rw [FloatFreeItems] at free
      rw [Python.Writable.finiteItems, finite_of_floatFree v free.1, finiteItems_of_floatFree items free.2, Bool.and_self]

theorem finiteMembers_of_floatFree : ∀ members : Dict, FloatFreeMembers members → Python.Writable.finiteMembers members = true
  | [], _ => rfl
  | (_, v) :: members, free => by
      rw [FloatFreeMembers] at free
      rw [Python.Writable.finiteMembers, finite_of_floatFree v free.1, finiteMembers_of_floatFree members free.2, Bool.and_self]

end

/-! ## Without the seal -/

section Payload

variable (engine : Engine) (keep : Str → Bool)

theorem floatFree_filter {members : Dict} (free : FloatFreeMembers members) :
    FloatFreeMembers (members.filter (fun p => keep p.1)) := by
  induction members with
  | nil => exact free
  | cons p members ih =>
    rw [FloatFreeMembers] at free
    rw [List.filter_cons]
    split_ifs
    · rw [FloatFreeMembers]
      exact ⟨free.1, ih free.2⟩
    · exact ih free.2

theorem sameMembers_filter {members : Dict} (same : SameMembers engine members) :
    SameMembers engine (members.filter (fun p => keep p.1)) := by
  induction members with
  | nil => exact same
  | cons p members ih =>
    rw [SameMembers] at same
    rw [List.filter_cons]
    split_ifs
    · rw [SameMembers]
      exact ⟨same.1, same.2.1, ih same.2.2⟩
    · exact ih same.2.2

theorem texts_filter {members : Dict} {c : Nat}
    (inside : c ∈ Python.Writable.textsMembers (members.filter (fun p => keep p.1))) : c ∈ Python.Writable.textsMembers members := by
  induction members with
  | nil => exact inside
  | cons p members ih =>
    rw [List.filter_cons] at inside
    simp only [Python.Writable.textsMembers, List.mem_append]
    split_ifs at inside
    · simp only [Python.Writable.textsMembers, List.mem_append] at inside
      exact inside.imp_right (Or.imp_right ih)
    · exact .inr (.inr (ih inside))

variable {engine} in
theorem same_of_mem {members : Dict} (same : SameMembers engine members) {key : Str} {v : Python.Value.Json}
    (member : (key, v) ∈ members) : SameText engine v := by
  induction members with
  | nil => cases member
  | cons p members ih =>
    rw [SameMembers] at same
    rcases List.mem_cons.mp member with rfl | later
    · exact same.2.1
    · exact ih same.2.2 later

theorem mem_recordOf {members : Dict} {key : Str} {v : Python.Value.Json} (member : (key, v) ∈ members) :
    (utf16Encode key, valueOf engine v) ∈ recordOf engine members := by
  induction members with
  | nil => cases member
  | cons p members ih =>
    rw [recordOf]
    rcases List.mem_cons.mp member with rfl | later
    · exact List.mem_cons_self
    · exact List.mem_cons_of_mem _ (ih later)

/-- The record of an event without its seal. -/
theorem filter_recordOf (members : Dict) :
    (recordOf engine members).filter (fun p => isSeal p.1) = recordOf engine (unsignedPayload members) := by
  induction members with
  | nil => rfl
  | cons p members ih =>
    obtain ⟨k, v⟩ := p
    have hash := @Documents.utf16Encode_eq_ascii k _ (by decide : Ascii (lit "event_hash"))
    have signature := @Documents.utf16Encode_eq_ascii k _ (by decide : Ascii (lit "signature"))
    unfold unsignedPayload at ih ⊢
    rw [recordOf, List.filter_cons, List.filter_cons, ih]
    simp only [isSeal, ne_eq, hash, signature]
    split_ifs
    · rw [recordOf]
    · rfl

end Payload

/-! ## Lines -/

/-- An event and the line that Python writes of it: it has no floats, both languages write it alike, and no name of it
means something else to the raw parse. -/
structure Portable (host : Python.Value.Host) (engine : Engine) (line : Bytes) (event : Dict) : Prop where
  ok : DictOk host event
  written : encodeEvent host event = .ok line
  free : FloatFree (.dict event)
  same : SameText engine (.dict event)
  apart : (valueOf engine (.dict event)).Names Apart

section Lines

variable {host : Python.Value.Host} {js : RawTree.Host} {line : Bytes} {event : Dict}

theorem Portable.bytes (portable : Portable host js.toEngine line event) :
    canonicalJsonBytes host (.dict event) = .ok line := by
  obtain ⟨text, dumped, encoded⟩ := encodeEvent_eq_ok.mp portable.written
  obtain ⟨passed, same⟩ := Python.JsonCodec.dumps_eq_ok.mp dumped
  have strict := (Python.Writable.checkDumps_strict host _ _).mpr ⟨passed, finite_of_floatFree _ portable.free⟩
  exact canonicalJsonBytes_eq_ok.mpr ⟨text, Python.JsonCodec.dumps_eq_ok.mpr ⟨strict, same⟩, encoded⟩

/-- The record that JavaScript has of the event. -/
theorem Portable.record (portable : Portable host js.toEngine line event) :
    valueOf js.toEngine (.dict event) = .obj (recordOf js.toEngine event) := by
  have same := portable.same
  rw [SameText] at same
  rw [valueOf, Members.ofPairs_of_sorted same.1]

theorem Portable.text (portable : Portable host js.toEngine line event) :
    textOf line = Json.render (toTree (.obj (recordOf js.toEngine event))) := by
  rw [textOf_bytes portable.free portable.bytes, ← portable.record, (toTree_valueOf _ _ portable.free).mpr portable.same]

theorem Portable.valueOk (portable : Portable host js.toEngine line event) :
    (Json.obj (recordOf js.toEngine event)).Ok js.toEngine := by
  rw [← portable.record]
  exact ok_valueOf _ _ portable.free portable.same

theorem Portable.plain (portable : Portable host js.toEngine line event) : Plain (recordOf js.toEngine event) := by
  have unmarked := unmarked_valueOf js.toEngine _ portable.free portable.same
  have apart := portable.apart
  rw [portable.record] at unmarked apart
  exact ⟨unmarked, apart⟩

theorem Portable.parsed (portable : Portable host js.toEngine line event) :
    parseJson js.toEngine (textOf line) = some (.obj (recordOf js.toEngine event)) := by
  rw [portable.text]
  exact (parseJson_canonical js.toEngine portable.valueOk).mpr portable.plain.1

/-- The event without its seal has canonical bytes. -/
theorem Portable.payloadBytes (portable : Portable host js.toEngine line event) :
    ∃ bytes, canonicalJsonBytes host (.dict (unsignedPayload event)) = .ok bytes := by
  obtain ⟨text, dumped, encoded⟩ := encodeEvent_eq_ok.mp portable.written
  obtain ⟨passed, rfl⟩ := Python.JsonCodec.dumps_eq_ok.mp dumped
  have encodable := (Python.Writable.utf8Encode_written _).mp ⟨line, encoded⟩
  have free := portable.free
  rw [FloatFree] at free
  have passes : Python.JsonCodec.checkDumps host true host.recursionLimit (.dict (unsignedPayload event)) = .ok () := by
    cases depth : host.recursionLimit with
    | zero =>
      rw [depth] at passed
      cases passed
    | succ depth' =>
      rw [depth] at passed
      simp only [Python.JsonCodec.checkDumps, Python.JsonCodec.checkMembers_iff] at passed ⊢
      exact fun p member => passed p (List.mem_of_mem_filter member)
  apply (Canonical.canonicalJsonBytes_isOk passes).mpr
  refine ⟨finiteMembers_of_floatFree _ (floatFree_filter isSeal free), ?_⟩
  intro c inside
  exact encodable c (texts_filter isSeal inside)

/-- Both languages hash the same bytes. -/
theorem Portable.hashed (portable : Portable host js.toEngine line event) (hashed : Bytes) :
    eventDigest host (unsignedPayload event) = .ok hashed ↔ digestOfUnsigned js host.sha256 (textOf line) = some hashed := by
  obtain ⟨bytes, written⟩ := portable.payloadBytes
  have free : FloatFree (.dict (unsignedPayload event)) := by
    have whole := portable.free
    rw [FloatFree] at whole ⊢
    exact floatFree_filter isSeal whole
  have same : SameText js.toEngine (.dict (unsignedPayload event)) := by
    have whole := portable.same
    rw [SameText] at whole ⊢
    refine ⟨?_, sameMembers_filter _ isSeal whole.2⟩
    rw [← filter_recordOf]
    exact Members.sorted_filter whole.1 _
  have texts := (canonical_bytes_iff js.toEngine free written).mpr same
  have payload : valueOf js.toEngine (.dict (unsignedPayload event)) = .obj (recordOf js.toEngine (unsignedPayload event)) := by
    rw [SameText] at same
    rw [valueOf, Members.ofPairs_of_sorted same.1]
  rw [payload, ← filter_recordOf] at texts
  obtain ⟨text, encoded, buffer⟩ := Option.map_eq_some_iff.mp texts
  rw [digestOfUnsigned, portable.text, unsignedText_render portable.valueOk portable.plain, encoded, Option.map_some,
    Option.some.injEq, buffer, eventDigest_eq_ok]
  constructor
  · rintro ⟨other, writtenOther, rfl⟩
    cases written.symm.trans writtenOther
    rfl
  · rintro rfl
    exact ⟨bytes, written, rfl⟩

/-- An integer of the event is exact. -/
theorem Portable.exact (portable : Portable host js.toEngine line event) {field : String} {n : Int}
    (ascii : Ascii (lit field)) (found : Python.Value.get event field = .int n) :
    integer (item (recordOf js.toEngine event) field) = some (n : Rat) := by
  have same := portable.same
  rw [SameText] at same
  have member : (lit field, Python.Value.Json.int n) ∈ event := by
    unfold Python.Value.get at found
    cases there : Members.get event (lit field) with
    | none =>
      rw [there] at found
      cases found
    | some v =>
      rw [there, Option.getD_some] at found
      exact Members.mem_of_get (found ▸ there)
  have own := same_of_mem same.2 member
  have stored := Members.get_of_mem same.1 (mem_recordOf js.toEngine member)
  rw [(Documents.utf16Encode_eq_ascii ascii).mpr rfl] at stored
  rw [item, stored, valueOf, integer_number own.1]

/-- Both verifiers give the same answer about the signature of an event. -/
def SameSignature (host : Python.Value.Host) (engine : Engine) (trusted : Verification.Event.Keyring) (keyring : Keyring)
    (event : Dict) : Prop :=
  ∀ hashed, eventDigest host (unsignedPayload event) = .ok hashed →
    (signatureIssues 0 keyring hashed (recordOf engine event) = some [] ↔
      ∃ key, Verification.Event.signerOf trusted event = some key ∧
        Verification.Event.verifySignature host key hashed
          (Python.Value.pyStr host (Python.Value.get event "signature")) = true)

/-- The line is an event to `verifyLines`, the same one. -/
theorem Portable.reads {runtime : Runtime} {trusted : Verification.Event.Keyring} {keyring : Keyring}
    (portable : Portable host runtime.toEngine line event)
    (signed : SameSignature host runtime.toEngine trusted keyring event) :
    ∃ reading, readLine runtime host.sha256 (textOf line) = some reading ∧ SameLine host trusted keyring line reading := by
  have text := @Portable.text host runtime.toHost line event portable
  have parsed := @Portable.parsed host runtime.toHost line event portable
  have nonblank : FileJournal.trim (textOf line) ≠ [] := by
    rw [text, trim_render]
    obtain ⟨body, shape⟩ := JsonRoundTrip.render_obj_braces (toMembers (recordOf runtime.toEngine event))
    rw [toTree, shape]
    exact List.cons_ne_nil _ _
  refine ⟨_, if_neg nonblank, ?_⟩
  have hashed := @Portable.hashed host runtime.toHost line event portable
  have same := portable.same
  have free := portable.free
  have ok := portable.ok
  refine .event (decodeLine_encodeEvent ok portable.written) parsed ⟨?_, ?_, ?_, ?_⟩
  · rw [← @Portable.record host runtime.toHost line event portable]
    exact alike_valueOf runtime.toEngine _ free same ok
  · intro field ascii n found
    exact @Portable.exact host runtime.toHost line event portable field n ascii found
  · intro digest
    rw [hashed digest]
    cases digestOfUnsigned runtime.toHost host.sha256 (textOf line) <;> simp
  · intro digest found
    apply signed digest
    apply (hashed digest).mpr
    cases unsigned : digestOfUnsigned runtime.toHost host.sha256 (textOf line) with
    | none =>
      rw [unsigned] at found
      cases found
    | some own =>
      rw [unsigned, Except.ok.injEq] at found
      rw [found]

end Lines

/-! ## Files -/

/-- A file of lines. -/
def fileOf (lines : List Bytes) : Bytes := lines.flatMap (fun line => line ++ [10])

/-- `fs.readFileSync(path, "utf8").split("\n")`. -/
def linesOf (content : Bytes) : List Str := (textOf content).splitOn 10

theorem records_fileOf {lines : List Bytes} (solid : ∀ line ∈ lines, Solid line) : records (fileOf lines) = lines := by
  induction lines with
  | nil => rfl
  | cons line lines ih =>
    obtain ⟨first, rest⟩ := List.forall_mem_cons.mp solid
    have one : records (line ++ [10]) = [line] := by
      have kept : ¬ Blank line := fun blank => first.nonempty (first.stripped.symm.trans (strip_eq_nil.mpr blank))
      rw [records_line_blank first.plain kept (by decide), first.stripped]
    have terminated : Terminated (line ++ [10]) := by
      intro b last
      rw [List.getLast?_concat, Option.mem_def, Option.some.injEq] at last
      subst last
      rfl
    rw [fileOf, List.flatMap_cons, records_append terminated, one]
    exact congrArg (line :: ·) (ih rest)

theorem linesOf_fileOf {lines : List Bytes} (solid : ∀ line ∈ lines, Solid line) :
    linesOf (fileOf lines) = lines.map textOf ++ [[]] := by
  induction lines with
  | nil => decide
  | cons line lines ih =>
    obtain ⟨first, rest⟩ := List.forall_mem_cons.mp solid
    have whole : 10 ∉ textOf line := by
      intro newline
      have plain := first.plain 10 (mem_textOf_newline newline)
      cases plain
    rw [linesOf, fileOf, List.flatMap_cons, List.append_assoc, List.singleton_append, textOf_newline,
      List.splitOn_append_cons_self_of_not_mem whole]
    exact congrArg (textOf line :: ·) (ih rest)

section Verdicts

variable {host : Python.Value.Host} {runtime : Runtime} {keys : List Verification.Event.PublicKey} {keyring : Keyring}
  {lines : List Bytes} {events : List Dict}

theorem solid_of_portable (portable : List.Forall₂ (Portable host runtime.toEngine) lines events) :
    ∀ line ∈ lines, Solid line := by
  induction portable with
  | nil => exact List.forall_mem_nil _
  | cons one _ ih => exact List.forall_mem_cons.mpr ⟨solid_encodeEvent one.written, ih⟩

/-- `verifyLines` and Python read the same lines. -/
theorem same_lines {trusted : Verification.Event.Keyring} (portable : List.Forall₂ (Portable host runtime.toEngine) lines events)
    (signed : ∀ event ∈ events, SameSignature host runtime.toEngine trusted keyring event) :
    List.Forall₂ (SameLine host trusted keyring) lines
      ((lines.map textOf ++ [[]]).map (readLine runtime host.sha256)).reduceOption := by
  induction portable with
  | nil => exact .nil
  | cons one _ ih =>
    obtain ⟨first, rest⟩ := List.forall_mem_cons.mp signed
    obtain ⟨reading, read, same⟩ := one.reads first
    rw [List.map_cons, List.cons_append, List.map_cons, read, List.reduceOption_cons_of_some]
    exact .cons same (ih rest)

theorem asksAll_iff {asks : Dict → EventType → Prop} (portable : List.Forall₂ (Portable host runtime.toEngine) lines events) :
    AsksAll host asks lines ↔ ∀ event ∈ events, Asks asks event := by
  induction portable with
  | nil => simp [AsksAll]
  | cons one _ ih => rw [asksAll_cons (decodeLine_encodeEvent one.ok one.written), List.forall_mem_cons, ih]

/-- The verdicts over a file of lines that Python writes, of events without floats that both languages write alike and
with the same answers about their signatures, differ by no more than the checks that only one verifier makes. -/
theorem written_verdicts_agree
    (portable : List.Forall₂ (Portable host runtime.toEngine) lines events)
    (signed : ∀ event ∈ events, SameSignature host runtime.toEngine (Verification.Event.toKeyring host keys) keyring event) :
    (∃ r, verifyLines runtime host.sha256 keyring (linesOf (fileOf lines)) = some r ∧ r.valid = true) ∧
        (∀ event ∈ events, Asks PythonAsks event) ↔
      (∃ r, Verification.Journal.verifyJournal host (.readable (fileOf lines) none) keys none = .ok r ∧ r.valid = true) ∧
        ∀ event ∈ events, Asks TypeScriptAsks event := by
  have solid := solid_of_portable portable
  have read := same_lines portable signed
  rw [← linesOf_fileOf solid] at read
  have same := records_fileOf solid
  rw [← asksAll_iff portable, ← asksAll_iff portable]
  have agree := @valid_iff_valid host keys keyring runtime (fileOf lines) ((linesOf (fileOf lines)).map (readLine runtime host.sha256))
  rw [same] at agree
  exact agree read

end Verdicts

/-- A host whose one digest and key do for a journal with one event. -/
def checkpointHost : Python.Value.Host := Python.Value.Host.plain (fun _ => List.replicate 32 0) (fun _ => some [])

def checkpointKey : Verification.Event.PublicKey := ⟨[], fun _ _ => true⟩

/-- The checkpoint of an empty journal. -/
def checkpointEvent : Dict :=
  [(lit "checkpoint_count", .int 0), (lit "event_hash", .str (List.replicate 64 48)), (lit "event_id", .str (lit "a0")),
    (lit "event_type", .str (lit "checkpoint")), (lit "head_sha256", .null),
    (lit "key_id", .str (lit "ed25519:0000000000000000")), (lit "previous_event_hash", .null),
    (lit "schema_version", .str (lit "1")), (lit "signature", .str (lit "c2ln")),
    (lit "timestamp_utc", .str (lit "2026-01-05T09:30:30.000000Z"))]

def checkpointLine : Bytes := ((encodeEvent checkpointHost checkpointEvent).toOption).getD []

def checkpointKeyring : Keyring := [(lit "ed25519:0000000000000000", fun _ _ => true)]

theorem checkpoint_written : encodeEvent checkpointHost checkpointEvent = .ok checkpointLine := by
  have written : (encodeEvent checkpointHost checkpointEvent).toOption.isSome = true := by decide +kernel
  unfold checkpointLine
  cases encoded : encodeEvent checkpointHost checkpointEvent with
  | ok line => rfl
  | error e =>
    rw [encoded] at written
    cases written

theorem sorted_checkpoint : Members.Sorted (recordOf bareRuntime.toEngine checkpointEvent) := by
  simp only [sorted_keys, keys_recordOf]
  decide +kernel

theorem portable_checkpoint : Portable checkpointHost bareRuntime.toEngine checkpointLine checkpointEvent where
  ok := by
    rw [Python.Value.dictOk_iff]
    refine ⟨by decide +kernel, ?_⟩
    simp only [checkpointEvent, List.forall_mem_cons, List.not_mem_nil, false_implies, Python.Value.Json.Ok, implies_true,
      and_self]
  written := checkpoint_written
  free := by simp only [checkpointEvent, FloatFree, FloatFreeMembers, and_self]
  same := by
    rw [SameText]
    refine ⟨sorted_checkpoint, ?_⟩
    simp only [checkpointEvent, SameText, SameMembers, and_true, true_and]
    decide +kernel
  apart := by
    rw [valueOf, Members.ofPairs_of_sorted sorted_checkpoint, Json.Names]
    simp only [checkpointEvent, recordOf, valueOf, NamesMembers, Json.Names, and_true, true_and]
    decide +kernel

theorem written_verdicts_agree_sample :
    (∃ r, verifyLines bareRuntime checkpointHost.sha256 checkpointKeyring (linesOf (fileOf [checkpointLine])) = some r ∧
        r.valid = true) ∧ (∀ event ∈ [checkpointEvent], Asks PythonAsks event) ↔
      (∃ r, Verification.Journal.verifyJournal checkpointHost (.readable (fileOf [checkpointLine]) none) [checkpointKey] none =
          .ok r ∧ r.valid = true) ∧ ∀ event ∈ [checkpointEvent], Asks TypeScriptAsks event := by
  apply written_verdicts_agree (.cons portable_checkpoint .nil)
  rw [List.forall_mem_singleton]
  intro hashed _
  have known : ∃ key, Verification.Event.signerOf (Verification.Event.toKeyring checkpointHost [checkpointKey]) checkpointEvent =
      some key ∧ Verification.Event.verifySignature checkpointHost key hashed
        (Python.Value.pyStr checkpointHost (Python.Value.get checkpointEvent "signature")) = true := by
    exact ⟨checkpointKey, rfl, rfl⟩
  have signed : signatureIssues 0 checkpointKeyring hashed (recordOf bareRuntime.toEngine checkpointEvent) = some [] := rfl
  exact iff_of_true signed known

end Tesera.TypeScript.PythonLines
