import Tesera.Verification.Builders

/-!
Appending to a verified file. The call preserves it exactly when the file is not cut in
the middle of a line: the tail reader takes an unterminated last line for an event, and
the writer puts the next one right behind it.
-/

namespace Tesera.Verification.Preserve
open Tesera.Text Tesera.Text.Unicode Tesera.Text.Lines Tesera.Python.Value Tesera.Canonical
open Tesera.Journal.Record Tesera.Journal.Tail Tesera.Journal.Append Tesera.Journal.Payloads
open Tesera.Verification.Event Tesera.Verification.Journal Tesera.Verification.Valid
open Tesera.Verification.Extend Tesera.Verification.Builders

/-- Whether the file of a call verifies, with the event appended to its events. -/
def Preserved (host : Host) (keys : List PublicKey) (events : List Dict) (appended : Appended) : Prop :=
  (∃ result, verifyJournal host (.readable appended.content none) keys none = .ok result ∧
    result.valid = true) ∧
  Decoded host (records appended.content) (events ++ [appended.event])

/-- A call that returns preserves a verified file exactly when nothing but whitespace
follows the last newline of the file. -/
theorem append_preserves_iff {host : Host} {keys : List PublicKey} {name : String} {content : Bytes}
    {events : List Dict} {result : Result} {appended : Appended}
    (verified : verifyJournal host (.readable content none) keys none = .ok result)
    (valid : result.valid = true) (read : Decoded host (records content) events)
    (call : Call host name (some content) (Builds host (toKeyring host keys) events) appended) :
    Preserved host keys events appended ↔ Blank (fragment content) := by
  obtain ⟨_, others, same, file⟩ := verifyJournal_valid_iff.mp ⟨result, verified, valid⟩
  cases same
  cases decoded_unique file.decoded read
  constructor
  · rintro ⟨-, decoded⟩
    by_contra glued
    obtain ⟨line, wrote⟩ := call.wrote read
    exact not_decoded_of_glued read glued wrote decoded
  · intro blank
    have extended := validFile_of_call (show ValidFile host _ ((some content).getD []) events from file) blank call
    exact ⟨verifyJournal_valid_iff.mpr ⟨_, _, rfl, extended⟩, extended.decoded⟩

/-! ## A journal of two checkpoints -/

def sampleFingerprint : Bytes :=
  [33, 254, 49, 223, 161, 84, 162, 97, 98, 107, 248, 84, 4, 111, 210, 39, 27, 123, 237, 75, 106, 190, 69,
    170, 88, 135, 126, 244, 127, 151, 33, 185]

def sampleDigests : Bytes × Bytes :=
  ([123, 177, 41, 73, 23, 163, 214, 143, 215, 103, 2, 236, 5, 42, 200, 131, 92, 175, 188, 129, 201, 88, 17,
    79, 206, 81, 135, 112, 106, 60, 124, 186],
  [23, 187, 131, 229, 147, 60, 98, 15, 2, 253, 38, 222, 138, 211, 122, 6, 53, 83, 55, 7, 58, 195, 98, 132,
    149, 164, 113, 143, 51, 87, 238, 164])

def sampleSignatures : Bytes × Bytes :=
  ([65, 70, 178, 188, 164, 1, 245, 127, 241, 206, 33, 118, 120, 135, 80, 225, 111, 46, 191, 19, 163, 128,
    236, 14, 7, 239, 43, 80, 130, 246, 115, 127, 112, 184, 64, 228, 70, 135, 88, 13, 93, 11, 85, 241, 6, 142,
    90, 13, 86, 25, 170, 30, 19, 241, 16, 13, 92, 79, 22, 129, 33, 154, 117, 3],
  [146, 212, 141, 236, 23, 246, 24, 72, 61, 118, 240, 68, 16, 251, 180, 46, 108, 54, 58, 27, 162, 26, 232,
    118, 146, 153, 250, 55, 69, 116, 156, 40, 139, 143, 254, 8, 125, 90, 247, 250, 208, 108, 63, 30, 188, 215,
    59, 251, 69, 232, 27, 110, 10, 239, 85, 51, 188, 154, 142, 246, 208, 177, 188, 2])

def sampleSignatureTexts : Str × Str :=
  (lit "QUayvKQB9X/xziF2eIdQ4W8uvxOjgOwOB+8rUIL2c39wuEDkRodYDV0LVfEGjloNVhmqHhPxEA1cTxaBIZp1Aw==",
   lit "ktSN7Bf2GEg9dvBEEPu0Lmw2OhuiGuh2kpn6N0V0nCiLj/4IfVr3+tBsPx681zv7RegbbgrvVTO8mo720LG8Ag==")

/-- SHA-256 and base64 on the bytes of the sample: the raw key, and two payloads with
their counts after the twentieth byte. -/
def sampleHost : Host :=
  Host.plain
    (fun bytes =>
      if bytes[20]? = some 48 then sampleDigests.1
      else if bytes[20]? = some 49 then sampleDigests.2
      else sampleFingerprint)
    (fun text =>
      if text = sampleSignatureTexts.1 then some sampleSignatures.1
      else if text = sampleSignatureTexts.2 then some sampleSignatures.2
      else none)

def sampleKey : PublicKey where
  raw :=
    [215, 90, 152, 1, 130, 177, 10, 183, 213, 75, 254, 211, 201, 100, 7, 58, 14, 225, 114, 243, 218, 166, 35,
      37, 175, 2, 26, 104, 247, 7, 81, 26]
  accepts := fun signature digest =>
    (signature == sampleSignatures.1 && digest == sampleDigests.1) ||
      (signature == sampleSignatures.2 && digest == sampleDigests.2)

def sampleId (count : Nat) : Str :=
  lit (if count = 0 then "0b0e7b9c-7d1f-4c7e-9a53-2f6a54d1c001" else "5d2f7c1e-3b64-4f0a-8c9d-71e0a9b3c002")

def sampleStamp (count : Nat) : Stamp :=
  ⟨sampleId count, lit (if count = 0 then "2026-01-05T09:30:00.000000Z" else "2026-01-05T09:31:00.000000Z")⟩

def sampleSigner : Signer where
  keyId := lit "ed25519:21fe31dfa154a261"
  sign := fun digest =>
    if digest = sampleDigests.1 then .ok sampleSignatureTexts.1
    else if digest = sampleDigests.2 then .ok sampleSignatureTexts.2
    else .error .typeError

def samplePayload (count : Nat) (previous : Option Str) : Dict :=
  checkpointPayload sampleSigner (sampleStamp count) count previous

def sampleBuild (count : Nat) (previous : Option Str) : Except PyError Dict :=
  finalizeEvent sampleHost (samplePayload count previous) sampleSigner.sign

@[irreducible] def sampleHash : Str := hex sampleDigests.1

@[irreducible] def sampleEvents : Dict × Dict :=
  (Members.put (lit "signature") (.str sampleSignatureTexts.1)
    (Members.put (lit "event_hash") (.str sampleHash) (samplePayload 0 none)),
  Members.put (lit "signature") (.str sampleSignatureTexts.2)
    (Members.put (lit "event_hash") (.str (hex sampleDigests.2)) (samplePayload 1 (some sampleHash))))

@[irreducible] def sampleLine (event : Dict) : Bytes := (encodeEvent sampleHost event).toOption.getD []

theorem sample_digests :
    eventDigest sampleHost (samplePayload 0 none) = .ok sampleDigests.1 ∧
      eventDigest sampleHost (samplePayload 1 (some sampleHash)) = .ok sampleDigests.2 := by
  decide +kernel

theorem sample_lines :
    encodeEvent sampleHost sampleEvents.1 = .ok (sampleLine sampleEvents.1) ∧
      encodeEvent sampleHost sampleEvents.2 = .ok (sampleLine sampleEvents.2) := by
  decide +kernel

theorem sampleBuild_eq :
    sampleBuild 0 none = .ok sampleEvents.1 ∧ sampleBuild 1 (some sampleHash) = .ok sampleEvents.2 :=
  ⟨finalizeEvent_eq_ok.mpr ⟨sampleDigests.1, sampleSignatureTexts.1, sample_digests.1, by decide +kernel,
      by rw [sampleEvents, sampleHash]⟩,
    finalizeEvent_eq_ok.mpr ⟨sampleDigests.2, sampleSignatureTexts.2, sample_digests.2, by decide +kernel,
      by rw [sampleEvents]⟩⟩

theorem trusted_sampleSigner :
    TrustedSigner sampleHost (toKeyring sampleHost [sampleKey]) sampleSigner := by
  have owner : keyIdFor sampleHost sampleKey = sampleSigner.keyId := by decide +kernel
  refine ⟨sampleKey, ?_, ?_⟩
  · simp [toKeyring, Members.ofPairs, Members.put, owner, Members.get]
  · intro digest signature signed
    simp only [sampleSigner] at signed
    split_ifs at signed with first second
    · cases signed
      subst first
      decide +kernel
    · cases signed
      subst second
      decide +kernel

theorem builds_sample {events : List Dict} {count : Nat} (reached : count ≤ events.length) :
    Builds sampleHost (toKeyring sampleHost [sampleKey]) events (sampleBuild count) := by
  intro previous event built
  exact ⟨.checkpoint, _, _, wellFormed_checkpoint trusted_sampleSigner reached, built⟩

def sampleAppended (content : Bytes) : Appended :=
  ⟨content ++ (sampleLine sampleEvents.2 ++ [10]), sampleEvents.2, some sampleHash⟩

/-- The first checkpoint of the sample, on a file of its own. -/
theorem sample_first {name : String} :
    appendCheckpoint sampleHost name none sampleBuild =
      .ok ⟨sampleLine sampleEvents.1 ++ [10], sampleEvents.1, none⟩ :=
  appendBuilt_eq_ok.mpr ⟨sampleLine sampleEvents.1, rfl, sampleBuild_eq.1, sample_lines.1, rfl⟩

theorem dictOk_sampleFirst : DictOk sampleHost sampleEvents.1 := by
  rw [sampleEvents]
  exact dictOk_put (dictOk_put (dictOk_checkpointPayload _ _ _ 0 none) _ (by simp [Json.Ok])) _ (by simp [Json.Ok])

theorem not_blank_sampleLine : ¬ Blank (sampleLine sampleEvents.1) := by
  have solid := solid_encodeEvent sample_lines.1
  exact fun blank => solid.nonempty (solid.stripped.symm.trans (strip_eq_nil.mpr blank))

/-- The line of the first checkpoint, with or without its newline. -/
theorem sample_records {ends : Bytes} (lineEnds : ends = [] ∨ ends = [10]) :
    records (sampleLine sampleEvents.1 ++ ends) = [sampleLine sampleEvents.1] := by
  have solid := solid_encodeEvent sample_lines.1
  have blank : Blank ends := by
    rcases lineEnds with rfl | rfl <;> decide
  rw [records_line_blank solid.plain not_blank_sampleLine blank, solid.stripped]

theorem sample_tail {name : String} {ends : Bytes} (lineEnds : ends = [] ∨ ends = [10]) :
    readLastEventHash sampleHost name (sampleLine sampleEvents.1 ++ ends) = .ok (some sampleHash) := by
  have stored : Members.get sampleEvents.1 (lit "event_hash") = some (.str sampleHash) := by
    rw [sampleEvents, Members.get_put_of_ne (by simp), Members.get_put_self]
  exact @readLastEventHash_written _ [] _ _ _ _ _ rfl dictOk_sampleFirst sample_lines.1
    (by rcases lineEnds with rfl | rfl <;> simp [isLineEnd]) stored

/-- The second one, on the first with or without its newline. -/
theorem sample_second {name : String} {ends : Bytes} (lineEnds : ends = [] ∨ ends = [10]) :
    appendCheckpoint sampleHost name (some (sampleLine sampleEvents.1 ++ ends)) sampleBuild =
      .ok (sampleAppended (sampleLine sampleEvents.1 ++ ends)) := by
  have count : countEventLines (sampleLine sampleEvents.1 ++ ends) = 1 := by
    rw [countEventLines, sample_records lineEnds]
    rfl
  refine appendBuilt_eq_ok.mpr ⟨sampleLine sampleEvents.2, sample_tail lineEnds, ?_, sample_lines.2, rfl⟩
  rw [Option.getD_some, count]
  exact sampleBuild_eq.2

/-- The first checkpoint is a valid file, with or without its newline. -/
theorem sample_valid {ends : Bytes} (lineEnds : ends = [] ∨ ends = [10]) :
    ValidFile sampleHost (toKeyring sampleHost [sampleKey]) (sampleLine sampleEvents.1 ++ ends)
      [sampleEvents.1] := by
  have nothing : ValidFile sampleHost (toKeyring sampleHost [sampleKey]) [] [] :=
    ⟨.nil, trivial, by simp [Covered]⟩
  have ended := @validFile_of_call _ _ "journal.jsonl" none _ _ nothing blank_nil
    (.checkpoint sampleBuild _ (builds_sample (Nat.zero_le _)) sample_first)
  refine ⟨?_, ended.clean, ended.covered⟩
  have decoded := ended.decoded
  rw [sample_records (.inr rfl)] at decoded
  rw [sample_records lineEnds]
  exact decoded

theorem sample_call {ends : Bytes} (lineEnds : ends = [] ∨ ends = [10]) :
    Call sampleHost "journal.jsonl" (some (sampleLine sampleEvents.1 ++ ends))
      (Builds sampleHost (toKeyring sampleHost [sampleKey]) [sampleEvents.1])
      (sampleAppended (sampleLine sampleEvents.1 ++ ends)) := by
  have reached : countEventLines (sampleLine sampleEvents.1 ++ ends) ≤ [sampleEvents.1].length :=
    (sample_valid lineEnds).decoded.length_eq.le
  refine .checkpoint sampleBuild _ ?_ (sample_second lineEnds)
  exact builds_sample reached

theorem append_preserves_sample :
    Preserved sampleHost [sampleKey] [sampleEvents.1]
      (sampleAppended (sampleLine sampleEvents.1 ++ [10])) := by
  have file := sample_valid (.inr rfl)
  obtain ⟨result, verified, valid⟩ := verifyJournal_valid_iff.mpr ⟨_, _, rfl, file⟩
  exact (append_preserves_iff verified valid file.decoded (sample_call (.inr rfl))).mpr (by decide +kernel)

/-- A checkpoint appended to a verified file without a newline at its end. -/
theorem append_glues :
    ∃ result appended,
      verifyJournal sampleHost (.readable (sampleLine sampleEvents.1) none) [sampleKey] none = .ok result ∧
      result.valid = true ∧
      Decoded sampleHost (records (sampleLine sampleEvents.1)) [sampleEvents.1] ∧
      Call sampleHost "journal.jsonl" (some (sampleLine sampleEvents.1))
        (Builds sampleHost (toKeyring sampleHost [sampleKey]) [sampleEvents.1]) appended ∧
      ¬ Preserved sampleHost [sampleKey] [sampleEvents.1] appended := by
  have file := sample_valid (.inl rfl)
  have call := sample_call (.inl rfl)
  rw [List.append_nil] at file call
  obtain ⟨result, verified, valid⟩ := verifyJournal_valid_iff.mpr ⟨_, _, rfl, file⟩
  refine ⟨result, _, verified, valid, file.decoded, call, ?_⟩
  obtain ⟨line, wrote⟩ := call.wrote file.decoded
  have glued : ¬ Blank (fragment (sampleLine sampleEvents.1)) := by decide +kernel
  exact fun preserved => not_decoded_of_glued file.decoded glued wrote preserved.2

end Tesera.Verification.Preserve
