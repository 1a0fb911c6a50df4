import Tesera.Verification.Totality
import Tesera.Verification.TamperEvidence
import Tesera.Verification.Sealed

/-!
What a valid result binds. The pass keeps one checkpoint, the newest, and weighs it against
the witness by the greater count. Both are therefore counts the file reaches; an older
checkpoint with a greater count of its own is not looked at again.
-/

namespace Tesera.Verification.Binding
open Tesera.Text Tesera.Text.Unicode Tesera.Text.Lines Tesera.Python.Value Tesera.Canonical
open Tesera.Journal.Record Tesera.Verification.Event Tesera.Verification.Journal
open Tesera.Verification.Valid Tesera.Verification.Extend Tesera.Verification.Sealed

/-- The events reach the count a checkpoint commits to. -/
def Binds (events : List Dict) (checkpoint : Dict) : Prop :=
  ∃ n, countOf checkpoint = some n ∧ n ≤ (events.length : Int)

/-- The last checkpoint event of a file. -/
def newestOf (events : List Dict) : Option Dict := (events.filter isCheckpoint).getLast?

theorem foldl_noteNewest (events : List Dict) : events.foldl noteNewest none = newestOf events := by
  induction events using List.reverseRecOn with
  | nil => rfl
  | append_singleton events event ih =>
    rw [List.foldl_append, List.foldl_cons, List.foldl_nil, ih, noteNewest, newestOf, newestOf, List.filter_append]
    by_cases checkpoint : isCheckpoint event = true
    · rw [if_pos checkpoint, List.filter_cons_of_pos checkpoint, List.filter_nil, List.getLast?_concat]
    · rw [if_neg checkpoint, List.filter_cons_of_neg checkpoint, List.filter_nil, List.append_nil]

/-! ## The greater count -/

theorem number_of_asInt (host : Host) {v : Json} {n : Int} (value : asInt v = some n) :
    number host v = some (.rat n) := by
  cases v with
  | bool b =>
    cases value
    cases b <;> simp [number]
  | int m =>
    cases value
    rfl
  | _ => cases value

theorem pyGt_int (host : Host) {v w : Json} {m n : Int} (left : asInt v = some m) (right : asInt w = some n) :
    pyGt host v w = .ok (decide (n < m)) := by
  simp only [pyGt, number_of_asInt host left, number_of_asInt host right, Number.lt, Rat.intCast_lt_intCast]

/-- Two candidates leave the one with the greater count, the first of equals. -/
theorem effectiveCheckpoint_pair (host : Host) {newest witness : Dict} {m n : Int}
    (countNewest : countOf newest = some m) (countWitness : countOf witness = some n) :
    effectiveCheckpoint host [newest, witness] = .ok (some (if m < n then witness else newest)) := by
  have compared := pyGt_int host countWitness countNewest
  by_cases less : m < n
  · simp [effectiveCheckpoint, maxByCount, item_of_countOf countNewest, item_of_countOf countWitness, compared,
      less, bind, Except.bind, pure, Except.pure]
  · simp [effectiveCheckpoint, maxByCount, item_of_countOf countNewest, item_of_countOf countWitness, compared,
      less, bind, Except.bind, pure, Except.pure]

theorem bound_of_coverageOf {host : Host} {total : Nat} {effective : Dict} {n : Int}
    (count : countOf effective = some n) (covers : coverageOf host total (some effective) = .ok []) :
    n ≤ (total : Int) := by
  obtain ⟨issues, truncated, meaning⟩ := truncationIssues_eq host total count
  have none : issues = [] := Except.ok.inj (truncated.symm.trans covers)
  exact meaning.mp none

/-- Without an issue, the newest checkpoint and a witness found among the events are both reached. -/
theorem checkpointCoverage_sound {host : Host} {newest : Option Dict} {witness : Dict} {total : Nat} {n : Int}
    (counted : ∀ checkpoint ∈ newest, ∃ m, countOf checkpoint = some m) (count : countOf witness = some n)
    (covered : checkpointCoverage host newest (some witness) true total = .ok []) :
    Covered newest total ∧ n ≤ (total : Int) := by
  simp only [checkpointCoverage, if_true, Option.toList_some, Option.elim_none, bind_eq_ok, pure, Except.pure,
    Except.ok.injEq, List.append_eq_nil_iff] at covered
  obtain ⟨_, rfl, effective, chosen, _, covers, -, rfl⟩ := covered
  cases newest with
  | none =>
    have only : effective = some witness := by
      simpa [effectiveCheckpoint, maxByCount, item_of_countOf count, bind, Except.bind, pure, Except.pure,
        eq_comm] using chosen
    subst only
    exact ⟨by simp [Covered], bound_of_coverageOf count covers⟩
  | some checkpoint =>
    obtain ⟨m, countNewest⟩ := counted checkpoint rfl
    have best : effective = some (if m < n then witness else checkpoint) :=
      (Except.ok.inj ((effectiveCheckpoint_pair host countNewest count).symm.trans chosen)).symm
    subst best
    have both : m ≤ (total : Int) ∧ n ≤ (total : Int) := by
      by_cases less : m < n
      · rw [if_pos less] at covers
        have bound := bound_of_coverageOf count covers
        omega
      · rw [if_neg less] at covers
        have bound := bound_of_coverageOf countNewest covers
        omega
    refine ⟨?_, both.2⟩
    intro other same k countOther
    cases Option.mem_some_iff.mp same
    have agree : m = k := Option.some.inj (countNewest.symm.trans countOther)
    exact agree ▸ both.1

/-! ## What a valid file reaches -/

/-- The newest checkpoint of clean events is reached when it is covered. -/
theorem binds_of_covered {host : Host} {trusted : Keyring} {events : List Dict} {newest : Dict}
    (clean : CleanFrom host trusted none [] events) (covered : Covered (newestOf events) events.length)
    (last : newestOf events = some newest) : Binds events newest := by
  obtain ⟨n, count, -⟩ := countOf_newest clean (foldl_noteNewest events ▸ last)
  exact ⟨n, count, covered newest last n count⟩

/-- Whatever file `verify_journal` finds valid has as many events as its newest checkpoint
counts, and as many as the witness counts that it was checked against. -/
theorem valid_binds_newest {host : Host} {keys : List PublicKey} {source : Source} {checkpoint : Option Source}
    {result : Result} (verified : verifyJournal host source keys checkpoint = .ok result)
    (valid : result.valid = true) :
    ∃ content events, source = .readable content none ∧ Decoded host (records content) events ∧
      (∀ newest, newestOf events = some newest → Binds events newest) ∧
      ∀ file, checkpoint = some file → ∃ witness,
        loadCheckpointWitness host file (toKeyring host keys) = .ok (some witness, []) ∧ Binds events witness := by
  simp only [verifyJournal, readAndVerify, bind_eq_ok, pure, Except.pure, Except.ok.injEq] at verified
  obtain ⟨r, ⟨⟨witness, issues⟩, loaded, opened⟩, rfl⟩ := verified
  cases source with
  | unopenable error =>
    cases opened
    cases valid
  | readable content failure =>
    obtain ⟨rfl, none, decoded, clean, covers⟩ := readOpened_sound opened valid
    change issues = [] at none
    subst none
    have counted : ∀ newest ∈ newestOf r.2, ∃ n, countOf newest = some n := by
      intro newest last
      obtain ⟨n, count, -⟩ := countOf_newest clean (foldl_noteNewest r.2 ▸ last)
      exact ⟨n, count⟩
    rw [foldl_noteNewest] at covers
    refine ⟨content, r.2, rfl, decoded, ?_⟩
    cases witness with
    | none =>
      have noMatch : r.2.any (matchesWitness ((none : Option Dict).map
          (fun event => pyStr host (get event "event_id")))) = false := by simp [matchesWitness]
      rw [noMatch] at covers
      obtain ⟨issues, same, meaning⟩ := checkpointCoverage_none host r.2.length counted
      rw [same, Except.ok.injEq] at covers
      refine ⟨fun newest last => binds_of_covered clean (meaning.mp covers) last, ?_⟩
      rintro file rfl
      obtain ⟨_, _, _, impossible, -⟩ := TamperEvidence.loadCheckpointWitness_sound loaded
      cases impossible
    | some event =>
      obtain ⟨n, count⟩ := (Totality.loadWitness_spec loaded).2 event rfl
      have found := TamperEvidence.witness_found covers
      rw [found] at covers
      obtain ⟨covered, bound⟩ := checkpointCoverage_sound counted count covers
      refine ⟨fun newest last => binds_of_covered clean covered last, ?_⟩
      rintro file rfl
      exact ⟨event, loaded, n, count, bound⟩

theorem valid_binds_newest_sample :
    ∃ content events, Source.readable (Preserve.sampleLine Preserve.sampleEvents.1 ++ [10]) none =
        .readable content none ∧ Decoded Preserve.sampleHost (records content) events ∧
      (∀ newest, newestOf events = some newest → Binds events newest) ∧
      ∀ file, (none : Option Source) = some file → ∃ witness,
        loadCheckpointWitness Preserve.sampleHost file (toKeyring Preserve.sampleHost [Preserve.sampleKey]) =
          .ok (some witness, []) ∧ Binds events witness := by
  obtain ⟨result, verified, valid⟩ :=
    verifyJournal_valid_iff.mpr ⟨_, _, rfl, Preserve.sample_valid (.inr rfl)⟩
  exact valid_binds_newest verified valid

/-! ## An older checkpoint -/

/-- The seals of two checkpoints: the first counts five events, the second one. -/
def overSeals : List Seal :=
  [(213, [2, 117, 51, 201, 113, 141, 111, 138, 126, 10, 239, 66, 187, 184, 158, 53, 222, 161, 72, 120, 223, 50,
      213, 178, 164, 183, 242, 50, 254, 174, 255, 82],
    [16, 115, 58, 44, 149, 161, 183, 53, 83, 65, 233, 79, 198, 60, 152, 139, 140, 5, 165, 206, 253, 192,
      252, 162, 171, 203, 229, 136, 8, 240, 131, 181, 209, 7, 55, 215, 204, 222, 211, 22, 253, 243, 93, 164,
      46, 156, 254, 9, 225, 251, 221, 68, 114, 144, 37, 111, 139, 174, 133, 154, 201, 160, 132, 4],
    lit "EHM6LJWhtzVTQelPxjyYi4wFpc79wPyiq8vliAjwg7XRBzfXzN7TFv3zXaQunP4J4fvdRHKQJW+LroWayaCEBA=="),
  (337, [118, 252, 79, 153, 123, 144, 32, 79, 229, 215, 39, 124, 17, 0, 253, 133, 59, 159, 212, 58, 201, 171,
      69, 175, 86, 100, 129, 112, 8, 240, 193, 121],
    [254, 111, 125, 106, 204, 215, 81, 50, 78, 16, 152, 211, 173, 221, 66, 128, 43, 216, 244, 180, 148,
      187, 147, 197, 46, 198, 58, 240, 148, 209, 43, 91, 20, 216, 169, 210, 144, 244, 193, 19, 169, 150, 26,
      200, 96, 82, 171, 57, 167, 23, 124, 230, 110, 48, 45, 122, 240, 66, 2, 55, 252, 106, 14, 8],
    lit "/m99aszXUTJOEJjTrd1CgCvY9LSUu5PFLsY68JTRK1sU2KnSkPTBE6mWGshgUqs5pxd85m4wLXrwQgI3/GoOCA==")]

def overHost : Host := sealedHost overSeals Preserve.sampleFingerprint

def overKey : PublicKey := sealedKey overSeals Preserve.sampleKey.raw

def overSeal (n : Nat) : Seal := (overSeals[n]?).getD (0, [], [], [])

def overEvent : Nat → Dict
  | 0 => sealed (overSeal 0) (Journal.Payloads.checkpointPayload Preserve.sampleSigner
      ⟨lit "c1", lit "2026-01-05T09:30:00.000000Z"⟩ 5 none)
  | _ => sealed (overSeal 1) (Journal.Payloads.checkpointPayload Preserve.sampleSigner
      ⟨lit "c2", lit "2026-01-05T09:31:00.000000Z"⟩ 1 (some (hex (overSeal 0).2.1)))

@[irreducible] def overLine (n : Nat) : Bytes := (encodeEvent overHost (overEvent n)).toOption.getD []

def overContent : Bytes := (overLine 0 ++ [10]) ++ (overLine 1 ++ [10])

theorem over_encoded : ∀ n < 2, encodeEvent overHost (overEvent n) = .ok (overLine n) := by
  decide +kernel

theorem over_verified :
    verifyEvent overHost (overEvent 0) 0 none (toKeyring overHost [overKey]) [] = .ok [] ∧
    verifyEvent overHost (overEvent 1) 0 (asStr (get (overEvent 0) "event_hash")) (toKeyring overHost [overKey])
      (noteCheckpoint [] (overEvent 0)) = .ok [] := by
  decide +kernel

theorem dictOk_overEvent (n : Nat) : DictOk overHost (overEvent n) := by
  match n with
  | 0 => exact dictOk_sealed (Journal.Payloads.dictOk_checkpointPayload _ _ _ _ _)
  | _ + 1 => exact dictOk_sealed (Journal.Payloads.dictOk_checkpointPayload _ _ _ _ _)

theorem over_counts :
    (isCheckpoint (overEvent 0) = true ∧ countOf (overEvent 0) = some 5) ∧
      isCheckpoint (overEvent 1) = true ∧ countOf (overEvent 1) = some 1 := by
  decide +kernel

theorem validFile_over :
    ValidFile overHost (toKeyring overHost [overKey]) overContent [overEvent 0, overEvent 1] := by
  obtain ⟨-, newest, count⟩ := over_counts
  have first := over_encoded 0 (by decide)
  have second := over_encoded 1 (by decide)
  have empty : Blank (fragment []) := blank_nil
  have whole : Blank (fragment (overLine 0 ++ [10])) := by
    rw [Custody.fragment_newline]
    exact blank_nil
  have one : records (overLine 0 ++ [10]) = [overLine 0] := by
    rw [← List.nil_append (overLine 0 ++ [10]), records_written_of_blank (solid_encodeEvent first) empty]
    rfl
  have lines : records overContent = [overLine 0, overLine 1] := by
    rw [overContent, records_written_of_blank (solid_encodeEvent second) whole, one]
    rfl
  refine ⟨?_, ?_, ?_⟩
  · rw [lines]
    exact .cons (decodeLine_encodeEvent (dictOk_overEvent 0) first)
      (.cons (decodeLine_encodeEvent (dictOk_overEvent 1) second) .nil)
  · exact ⟨verifyEvent_eq_nil.mp over_verified.1, verifyEvent_eq_nil.mp over_verified.2, trivial⟩
  · intro checkpoint last n counted
    rw [Option.mem_def, List.foldl_cons, List.foldl_cons, List.foldl_nil, noteNewest, if_pos newest,
      Option.some.injEq] at last
    subst last
    have one : n = 1 := by simpa [count, eq_comm] using counted
    subst one
    decide

/-- A valid file of two events with a checkpoint in it that counts five. -/
theorem older_unbound :
    ∃ result, verifyJournal overHost (.readable overContent none) [overKey] none = .ok result ∧
      result.valid = true ∧ Decoded overHost (records overContent) [overEvent 0, overEvent 1] ∧
      isCheckpoint (overEvent 0) = true ∧ ¬ Binds [overEvent 0, overEvent 1] (overEvent 0) := by
  obtain ⟨result, verified, valid⟩ := verifyJournal_valid_iff.mpr ⟨_, _, rfl, validFile_over⟩
  obtain ⟨⟨isOne, count⟩, -⟩ := over_counts
  refine ⟨result, verified, valid, validFile_over.decoded, isOne, ?_⟩
  intro ⟨n, counted, bound⟩
  have five : n = 5 := by simpa [count, eq_comm] using counted
  subst five
  exact absurd bound (by decide)

end Tesera.Verification.Binding
