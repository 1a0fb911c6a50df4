import Tesera.Python.Writable

/-!
Canonical JSON bytes and the digest of an event, as `canonical.py` and `journal.py`
compute them. The canonical bytes determine the value, so a digest commits to the
whole unsigned payload.
-/

namespace Tesera.Canonical
open Tesera.Text Tesera.Text.Unicode Tesera.Text.Json Tesera.Text.JsonRoundTrip
open Tesera.Python.Value Tesera.Python.JsonCodec Tesera.Python.Writable

/-- `text.encode("utf-8")`. -/
def encodeUtf8 (text : Str) : Except PyError Bytes :=
  match utf8Encode text with
  | some bytes => .ok bytes
  | none => .error .unicodeEncodeError

theorem encodeUtf8_eq_ok {text : Str} {bytes : Bytes} :
    encodeUtf8 text = .ok bytes ↔ utf8Encode text = some bytes := by
  unfold encodeUtf8
  cases utf8Encode text <;> simp

/-- `canonical_json_bytes`: only the failures of `json.dumps` are converted. -/
def canonicalJsonBytes (host : Host) (value : Json) : Except PyError Bytes :=
  match dumps host false value with
  | .ok text => encodeUtf8 text
  | .error e =>
      if e.isValueError ∨ e = .typeError then .error .canonicalizationError else .error e

theorem canonicalJsonBytes_eq_ok {host : Host} {value : Json} {bytes : Bytes} :
    canonicalJsonBytes host value = .ok bytes ↔
      ∃ text, dumps host false value = .ok text ∧ utf8Encode text = some bytes := by
  unfold canonicalJsonBytes
  cases dumps host false value with
  | ok text => simp [encodeUtf8_eq_ok]
  | error e =>
    simp only [reduceCtorEq, false_and, exists_false, iff_false]
    split_ifs <;> simp

/-- Values with the same canonical bytes are equal. -/
theorem canonicalJsonBytes_injective {host : Host} {v w : Json} {bytes : Bytes}
    (okV : v.Ok host) (okW : w.Ok host) (left : canonicalJsonBytes host v = .ok bytes)
    (right : canonicalJsonBytes host w = .ok bytes) : v = w := by
  obtain ⟨text, dumped, encoded⟩ := canonicalJsonBytes_eq_ok.mp left
  obtain ⟨other, dumpedOther, encodedOther⟩ := canonicalJsonBytes_eq_ok.mp right
  cases utf8Encode_injective encoded encodedOther
  exact dumps_injective okV okW dumped dumpedOther

/-- A value that `json.loads` returned has canonical bytes exactly when its floats are
finite and its strings hold no surrogates. -/
def Canonicalizable (v : Json) : Prop := finite v = true ∧ Encodable v

theorem canonicalJsonBytes_isOk {host : Host} {v : Json}
    (passed : checkDumps host true host.recursionLimit v = .ok ()) :
    (∃ bytes, canonicalJsonBytes host v = .ok bytes) ↔ Canonicalizable v := by
  simp only [canonicalJsonBytes_eq_ok, dumps_eq_ok, checkDumps_strict, passed, true_and,
    Canonicalizable, ← utf8Encode_written]
  constructor
  · rintro ⟨bytes, text, ⟨isFinite, rfl⟩, encoded⟩
    exact ⟨isFinite, bytes, encoded⟩
  · rintro ⟨isFinite, bytes, encoded⟩
    exact ⟨bytes, _, ⟨isFinite, rfl⟩, encoded⟩

/-! ## Hexadecimal -/

/-- `bytes.hex()`. -/
def hex (bytes : Bytes) : Str :=
  bytes.flatMap (fun b => [hexDigit (b.toNat / 16), hexDigit (b.toNat % 16)])

theorem hexDigit_inj {m n : Nat} (left : m < 16) (right : n < 16)
    (same : hexDigit m = hexDigit n) : m = n := by
  have back := hexValue_hexDigit m left
  rw [same, hexValue_hexDigit n right] at back
  exact (Option.some.inj back).symm

theorem hex_injective {a b : Bytes} (same : hex a = hex b) : a = b := by
  induction a generalizing b with
  | nil =>
    cases b with
    | nil => rfl
    | cons y b => simp [hex] at same
  | cons x a ih =>
    cases b with
    | nil => simp [hex] at same
    | cons y b =>
      simp only [hex, List.flatMap_cons, List.cons_append, List.nil_append, List.cons.injEq] at same
      obtain ⟨high, low, rest⟩ := same
      have lx := x.toNat_lt
      have ly := y.toNat_lt
      have high := hexDigit_inj (by omega) (by omega) high
      have low := hexDigit_inj (by omega) (by omega) low
      have byte : x = y := UInt8.toNat_inj.mp (by omega)
      rw [byte, ih rest]

/-! ## Events -/

/-- A stored hash as a JSON value: the first event of a chain links to `null`. -/
def linkOf : Option Str → Json
  | none => .null
  | some hash => .str hash

theorem ok_linkOf (host : Host) (previous : Option Str) : (linkOf previous).Ok host := by
  cases previous <;> simp [linkOf, Json.Ok]

/-- `unsigned_payload`: the event without `event_hash` and `signature`. -/
def unsignedPayload (event : Dict) : Dict :=
  event.filter (fun p => decide (p.1 ≠ lit "event_hash" ∧ p.1 ≠ lit "signature"))

/-- `event_digest`. -/
def eventDigest (host : Host) (payload : Dict) : Except PyError Bytes :=
  match canonicalJsonBytes host (.dict payload) with
  | .ok bytes => .ok (host.sha256 bytes)
  | .error e => .error e

theorem eventDigest_eq_ok {host : Host} {payload : Dict} {digest : Bytes} :
    eventDigest host payload = .ok digest ↔
      ∃ bytes, canonicalJsonBytes host (.dict payload) = .ok bytes ∧ digest = host.sha256 bytes := by
  unfold eventDigest
  cases canonicalJsonBytes host (.dict payload) with
  | ok bytes => simp [eq_comm]
  | error e => simp

/-- `finalize_event`: attach `event_hash` and `signature`. -/
def finalizeEvent (host : Host) (payload : Dict) (sign : Bytes → Except PyError Str) :
    Except PyError Dict :=
  match eventDigest host payload with
  | .error e => .error e
  | .ok digest =>
      match sign digest with
      | .error e => .error e
      | .ok signature =>
          .ok (Members.put (lit "signature") (.str signature)
            (Members.put (lit "event_hash") (.str (hex digest)) payload))

theorem dictOk_put {host : Host} {event : Dict} (ok : DictOk host event) (key : Str) {value : Json}
    (valueOk : value.Ok host) : DictOk host (Members.put key value event) := by
  rw [dictOk_iff] at ok ⊢
  refine ⟨Members.sorted_put ok.1 key value, ?_⟩
  intro p member
  rcases Members.mem_put member with rfl | inside
  · exact valueOk
  · exact ok.2 p inside

theorem dictOk_filter {host : Host} {event : Dict} (ok : DictOk host event) (keep : Str × Json → Bool) :
    DictOk host (event.filter keep) := by
  rw [dictOk_iff] at ok ⊢
  exact ⟨List.Pairwise.filter keep ok.1, fun p member => ok.2 p (List.mem_filter.mp member).1⟩

theorem dictOk_unsignedPayload {host : Host} {event : Dict} (ok : DictOk host event) :
    DictOk host (unsignedPayload event) := dictOk_filter ok _

theorem finalizeEvent_eq_ok {host : Host} {payload event : Dict} {sign : Bytes → Except PyError Str} :
    finalizeEvent host payload sign = .ok event ↔
      ∃ digest signature, eventDigest host payload = .ok digest ∧ sign digest = .ok signature ∧
        event = Members.put (lit "signature") (.str signature)
          (Members.put (lit "event_hash") (.str (hex digest)) payload) := by
  unfold finalizeEvent
  cases eventDigest host payload with
  | error e => simp
  | ok digest =>
    cases signed : sign digest with
    | error e => simp [signed]
    | ok signature => simp [signed, eq_comm]

theorem get_unsignedPayload (event : Dict) (key : Str) :
    Members.get (unsignedPayload event) key =
      if key ≠ lit "event_hash" ∧ key ≠ lit "signature" then Members.get event key else none := by
  unfold unsignedPayload
  rw [Members.get_filter (fun k => decide (k ≠ lit "event_hash" ∧ k ≠ lit "signature"))]
  simp only [decide_eq_true_eq]

/-- An event loses nothing but its hash and signature with them removed. -/
theorem get_unsignedPayload_of_ne (event : Dict) (field : String) (notHash : field ≠ "event_hash")
    (notSignature : field ≠ "signature") : get (unsignedPayload event) field = get event field := by
  simp only [Python.Value.get, get_unsignedPayload, ne_eq, lit_inj, notHash, notSignature,
    not_false_eq_true, and_self, if_true]

theorem unsignedPayload_put (key : Str) (value : Json) (event : Dict) (sorted : Members.Sorted event)
    (internal : key = lit "event_hash" ∨ key = lit "signature") :
    unsignedPayload (Members.put key value event) = unsignedPayload event := by
  apply Members.ext_get (Members.sorted_filter (Members.sorted_put sorted key value) _)
    (Members.sorted_filter sorted _)
  intro other
  have filtered := get_unsignedPayload (Members.put key value event) other
  have original := get_unsignedPayload event other
  unfold unsignedPayload at filtered original
  rw [filtered, original]
  split_ifs with kept
  · apply Members.get_put_of_ne
    rintro rfl
    rcases internal with rfl | rfl
    · exact kept.1 rfl
    · exact kept.2 rfl
  · rfl

/-- A payload that does not carry the two fields itself is what a finalized event
signs. -/
theorem unsignedPayload_of_unsigned {payload : Dict} (sorted : Members.Sorted payload)
    (noHash : has payload "event_hash" = false) (noSignature : has payload "signature" = false) :
    unsignedPayload payload = payload := by
  simp only [has, Option.isSome_eq_false_iff, Option.isNone_iff_eq_none] at noHash noSignature
  apply Members.ext_get (Members.sorted_filter sorted _) sorted
  intro key
  have filtered := get_unsignedPayload payload key
  unfold unsignedPayload at filtered
  rw [filtered]
  split_ifs with kept
  · rfl
  · simp only [ne_eq, not_and_or, not_not] at kept
    rcases kept with rfl | rfl
    · exact noHash.symm
    · exact noSignature.symm

/-- What a finalized event holds: the payload's digest in hexadecimal, a signature of
that digest, and the payload itself. -/
structure Finalized (host : Host) (payload event : Dict) (digest : Bytes) (signature : Str) : Prop where
  digest_eq : eventDigest host (unsignedPayload event) = .ok digest
  hash : Members.get event (lit "event_hash") = some (.str (hex digest))
  sign : Members.get event (lit "signature") = some (.str signature)
  payload_eq : unsignedPayload event = payload
  ok : DictOk host event

theorem finalizeEvent_spec {host : Host} {payload event : Dict} {sign : Bytes → Except PyError Str}
    (ok : DictOk host payload) (noHash : has payload "event_hash" = false)
    (noSignature : has payload "signature" = false)
    (final : finalizeEvent host payload sign = .ok event) :
    ∃ digest signature, sign digest = .ok signature ∧ Finalized host payload event digest signature := by
  obtain ⟨digest, signature, hashed, signed, rfl⟩ := finalizeEvent_eq_ok.mp final
  have sorted := (dictOk_iff.mp ok).1
  have stripped : unsignedPayload (Members.put (lit "signature") (.str signature)
      (Members.put (lit "event_hash") (.str (hex digest)) payload)) = payload := by
    rw [unsignedPayload_put _ _ _ (Members.sorted_put sorted _ _) (.inr rfl),
      unsignedPayload_put _ _ _ sorted (.inl rfl), unsignedPayload_of_unsigned sorted noHash noSignature]
  refine ⟨digest, signature, signed, ⟨by rw [stripped]; exact hashed, ?_, ?_, stripped, ?_⟩⟩
  · rw [Members.get_put_of_ne (by simp), Members.get_put_self]
  · rw [Members.get_put_self]
  · exact dictOk_put (dictOk_put ok _ (by simp [Json.Ok])) _ (by simp [Json.Ok])

end Tesera.Canonical
