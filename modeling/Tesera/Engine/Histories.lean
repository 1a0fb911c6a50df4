import Tesera.Engine.Reservation
import Tesera.Journal.TailScan

/-!
What the journal of guarded calls holds in every state of every run: whole lines that are read as
events, outcomes that answer decisions, and tables from which a look finds the same decision as a scan
of the file, the first one that still reserves its key.
-/

namespace Tesera.Engine.Histories
open Tesera.Text Tesera.Text.Unicode Tesera.Text.Lines Tesera.Python.Value Tesera.Canonical Tesera.Transition
open Tesera.Journal.Record Tesera.Journal.Payloads Tesera.Journal.Tail Tesera.Journal.Idempotency
open Tesera.Journal.Append Tesera.Journal.Scan Tesera.Journal.Firsts Tesera.Journal.IndexScan Tesera.Journal.TailScan
open Tesera.Approval (ApprovalDecision)
open Tesera.Commands.Operator Tesera.Engine.Events Tesera.Engine.Reservation

/-! ## What a step writes -/

/-- The file holds whole lines, and the last one, if there is one, was written for an event. -/
structure Whole (host : Host) (file : Bytes) : Prop where
  complete : fragment file = []
  last : file = [] ∨ ∃ front line event, file = front ++ (line ++ [10]) ∧ fragment front = [] ∧ DictOk host event ∧
    encodeEvent host event = .ok line

section Files

variable {host : Host} {name : String} {indexed : Nat → Bool} {world after : World} {process : Nat} {file : Bytes}
  {looked : IdemCache} {build : Option Str → Except PyError Dict} {raises : Bool}

theorem whole_empty : Whole host [] := ⟨rfl, .inl rfl⟩

theorem whole_written {event : Dict} {line : Bytes} (whole : Whole host file) (ok : DictOk host event)
    (encoded : encodeEvent host event = .ok line) : Whole host (file ++ (line ++ [10])) := by
  constructor
  · rw [← List.append_assoc, fragment, List.rtakeWhile_concat_neg]
    decide
  · exact .inr ⟨file, line, event, rfl, whole.complete, ok, encoded⟩

/-- An append leaves the file as it was or adds a line. -/
theorem whole_append (whole : Whole host world.file) (ok : ∀ previous event, build previous = .ok event → DictOk host event) :
    Whole host (world.append host name indexed process looked build raises).1.file := by
  unfold World.append
  cases result : appendBuilt host name world.file build with
  | error e => exact whole
  | ok appended =>
    obtain ⟨line, -, made, encoded, content⟩ := appendBuilt_eq_ok.mp result
    simp only [content]
    exact whole_written whole (ok _ _ made) encoded

theorem dictOk_buildDecision {call : Call} {decision : ApprovalDecision} {stamp : Stamp} {completed : Bool}
    {blocking previous : Option Str} {event : Dict} (metadata : ∀ v ∈ call.metadata, v.Ok host)
    (made : buildDecision host call decision stamp completed blocking previous = .ok event) : DictOk host event := by
  rcases buildDecision_cases made with ⟨-, prior, built⟩ | ⟨-, built⟩
  · exact dictOk_built built (valuesOk_duplicateExtra metadata)
  · exact dictOk_built built (valuesOk_allowedExtra metadata)

theorem dictOk_buildResolution {signer : Signer} {stamp : Stamp} {decision event : Dict} {id resolution note : Str}
    {previous : Option Str} (decided : DictOk host decision)
    (made : buildResolution host signer stamp decision id resolution note previous = .ok event) : DictOk host event := by
  simp only [buildResolution, bind_eq_ok] at made
  obtain ⟨actionId, one, actionName, two, contractHash, three, final⟩ := made
  have values := (dictOk_iff.mp decided).2
  apply dictOk_finalized final
  apply dictOk_resolutionPayload
  · exact values _ (Members.mem_of_get (item_eq_ok one).1)
  · exact values _ (Members.mem_of_get (item_eq_ok two).1)
  · exact values _ (Members.mem_of_get (item_eq_ok three).1)

theorem whole_step {action : Action} (assumed : Assumed host world action) (whole : Whole host world.file)
    (taken : step host name indexed world action = some after) : Whole host after.file := by
  cases action with
  | duplicate process call prior stamp raises =>
    rw [step] at taken
    split_ifs at taken
    cases taken
    exact whole_append whole (fun _ _ made => dictOk_built made (valuesOk_duplicateExtra assumed.2))
  | prepare process call decision stamp completed raises =>
    cases taken
    unfold World.prepare
    cases looked : blockingFor host (indexed process) name (world.caches process) world.file (query call) with
    | error e => exact whole
    | ok found =>
      simp only
      have written := @whole_append host name indexed world process found.2
        (buildDecision host call decision stamp completed found.1) raises whole
        (fun _ _ made => dictOk_buildDecision assumed.2 made)
      split_ifs <;> exact written
  | outcome process signer contract stamp id ending raises =>
    rw [step] at taken
    split_ifs at taken
    cases taken
    exact whole_append whole (fun _ _ made => dictOk_built made (valuesOk_outcomeExtra assumed))
  | lost id =>
    cases taken
    exact whole
  | resolve process signer stamp id resolution note raises =>
    cases taken
    unfold World.resolve
    cases found : findDecisionIn host id (records world.file) with
    | error e => exact whole
    | ok result =>
      cases result with
      | none => exact whole
      | some decision =>
        simp only
        split_ifs
        · exact whole_append whole (fun _ _ made => dictOk_buildResolution (dictOk_found found) made)
        · exact whole
  | maintain process build raises =>
    cases taken
    exact whole_append whole (fun previous event made => (assumed previous event made).1)
  | evict process =>
    cases taken
    exact whole

/-! ## A look answers -/

/-- The tail of such a file is read, or refused with an error of the journal. -/
theorem tail_answers (whole : Whole host file) :
    (∃ previous, readLastEventHash host name file = .ok previous) ∨
      ∃ text, readLastEventHash host name file = .error (.journalError text) := by
  rcases whole.last with rfl | ⟨front, line, event, rfl, complete, ok, encoded⟩
  · exact .inl ⟨none, rfl⟩
  · have solid := solid_encodeEvent encoded
    obtain ⟨trimmed, last⟩ := @lastLine_written front line [10] complete solid (by simp [isLineEnd])
    have kept : ¬ front ++ line = [] := fun empty => solid.nonempty (List.append_eq_nil_iff.mp empty).2
    rw [readLastEventHash_eq, trimmed, if_neg kept, last]
    have readable : Readable host line := .inl ⟨event, decodeLine_encodeEvent ok encoded⟩
    rcases (@readable_iff host name line).mp readable with ⟨hash, found⟩ | ⟨text, refused⟩
    · rw [found]
      exact .inl ⟨some hash, rfl⟩
    · rw [refused]
      exact .inr ⟨text, rfl⟩

/-- A look under the lock does not fail on a file of events. -/
theorem look_answers {useIndex : Bool} {cache : IdemCache} {events : List Dict} {action key : Str} (whole : Whole host file)
    (read : readEvents host (records file) = .ok events) :
    ∃ answer, lockedBlockingPriorId host useIndex name cache file action key = .ok answer := by
  have scanned : ∃ answer, (scanBlockingIdempotent host file action key).map (fun id => (id, cache)) = .ok answer := by
    rw [scanBlockingIdempotent, read]
    exact ⟨_, rfl⟩
  unfold lockedBlockingPriorId
  cases useIndex with
  | false => exact scanned
  | true =>
    simp only [if_true]
    rcases @tail_answers host name file whole with ⟨head, tail⟩ | ⟨text, refused⟩
    · have collected : collectIdemTables host file = .ok (events.foldl evolveIdemTables .empty) := by
        rw [collectIdemTables, read]
        rfl
      simp only [indexedBlockingPriorId, tail, collected, bind, Except.bind]
      cases cachedIdemTables cache file.length head <;> exact ⟨_, rfl⟩
    · simp only [indexedBlockingPriorId, refused, bind, Except.bind, PyError.isJournalOrOsError, if_true]
      exact scanned

end Files

/-! ## What a look finds -/

section Looks

variable {host : Host} {patient : Prop} {events : List Dict} {running : List Str} {action key : Str}

/-- A decision that reserves a key blocks exactly where it is not settled. -/
theorem blocks_iff_unsettled (kept : Kept patient events running) {i : Nat} {decision : Dict} {id : Str}
    (here : events[i]? = some decision) (isDecision : isEvent "decision" decision = true) (named : idOf decision = some id) :
    isBlocking host (valuesFor "outcome" "status" events id) (valuesFor "resolution" "resolution" events id) = true ↔
      ¬ Settled events id := by
  have ended : ∀ status ∈ valuesFor "outcome" "status" events id,
      status = .str (lit "succeeded") ∨ status = .str (lit "failed") := by
    intro status inside
    obtain ⟨one, member, rfl⟩ := List.mem_map.mp inside
    rw [List.mem_filter, namesId, Bool.and_eq_true] at member
    exact kept.ended one member.1 member.2.1
  have texts : ∀ value, (valuesFor "resolution" "resolution" events id).getLast? = some value → ∃ text, value = .str text := by
    intro value last
    obtain ⟨one, member, rfl⟩ := List.mem_map.mp (List.mem_of_getLast? last)
    rw [List.mem_filter] at member
    obtain ⟨j, atOne⟩ := List.mem_iff_getElem?.mp member.1
    have isText := (kept.orderly.later "resolution" "resolution" (by decide) i j decision one id here isDecision named
      atOne member.2).2
    obtain ⟨text, same⟩ := Option.isSome_iff_exists.mp isText
    exact ⟨text, asStr_eq_some.mp same⟩
  unfold isBlocking Settled
  by_cases none : valuesFor "outcome" "status" events id = []
  · rw [none]
    simp only [List.any_nil, Bool.false_eq_true, if_false, List.isEmpty_nil, if_true, ne_eq, not_true_eq_false, false_and,
      true_and, false_or]
    cases last : (valuesFor "resolution" "resolution" events id).getLast? with
    | none => simp
    | some value =>
      obtain ⟨text, rfl⟩ := texts value last
      simp [pyStr]
  · have filled : (valuesFor "outcome" "status" events id).isEmpty = false := by simpa using none
    simp only [filled, none, Bool.false_eq_true, if_false, ne_eq, not_false_eq_true, true_and, false_and, or_false]
    constructor
    · intro some failed
      split_ifs at some with succeeded
      obtain ⟨status, inside, isSucceeded⟩ := List.any_eq_true.mp succeeded
      rw [failed status inside] at isSucceeded
      simp [asStr] at isSucceeded
    · intro unfailed
      push Not at unfailed
      obtain ⟨status, inside, notFailed⟩ := unfailed
      have isSucceeded := (ended status inside).resolve_right notFailed
      have any : (valuesFor "outcome" "status" events id).any
          (fun status => asStr status == some (lit "succeeded")) = true :=
        List.any_eq_true.mpr ⟨status, inside, by rw [isSucceeded]; simp [asStr]⟩
      rw [if_pos any]

/-- The first decision that reserves a key and is not settled. -/
def FirstUnsettled (events : List Dict) (action key id : Str) : Prop :=
  ∃ i decision, events[i]? = some decision ∧ Reserves action key decision ∧ idOf decision = some id ∧ ¬ Settled events id ∧
    ∀ (j : Nat) (earlier : Dict), j < i → events[j]? = some earlier → Reserves action key earlier →
      ∃ other, idOf earlier = some other ∧ Settled events other

/-- In a history of guarded calls a decision that blocks is one that reserves the key and is not settled. -/
theorem scanBlocks_iff (kept : Kept patient events running) {i : Nat} {id : Str} :
    ScanBlocks host events action key i id ↔ ∃ decision, events[i]? = some decision ∧ Reserves action key decision ∧
      idOf decision = some id ∧ ¬ Settled events id := by
  constructor
  · rintro ⟨decision, first, reserves, blocks⟩
    exact ⟨decision, first.here, ⟨first.kept, reserves⟩, first.named,
      (blocks_iff_unsettled kept first.here first.kept first.named).mp blocks⟩
  · rintro ⟨decision, here, reserves, named, unsettled⟩
    refine ⟨decision, ⟨here, reserves.1, named, ?_⟩, reserves.2,
      (blocks_iff_unsettled kept here reserves.1 named).mpr unsettled⟩
    intro j less earlier found isDecision namedEarlier
    have same := kept.orderly.unique j i earlier decision id found here isDecision reserves.1 namedEarlier named
    omega

theorem leads_iff_first (kept : Kept patient events running) {id : Str} :
    Leads (ScanBlocks host events action key) id ↔ FirstUnsettled events action key id := by
  constructor
  · rintro ⟨i, blocks, none⟩
    obtain ⟨decision, here, reserves, named, unsettled⟩ := (scanBlocks_iff kept).mp blocks
    refine ⟨i, decision, here, reserves, named, unsettled, ?_⟩
    intro j earlier less found reservesEarlier
    obtain ⟨other, namedEarlier⟩ := kept.named earlier (List.mem_of_getElem? found) reservesEarlier.1
    refine ⟨other, namedEarlier, ?_⟩
    by_contra unsettledEarlier
    exact none j less other ((scanBlocks_iff kept).mpr ⟨earlier, found, reservesEarlier, namedEarlier, unsettledEarlier⟩)
  · rintro ⟨i, decision, here, reserves, named, unsettled, before⟩
    refine ⟨i, (scanBlocks_iff kept).mpr ⟨decision, here, reserves, named, unsettled⟩, ?_⟩
    intro j less other blocks
    obtain ⟨earlier, found, reservesEarlier, namedEarlier, unsettledEarlier⟩ := (scanBlocks_iff kept).mp blocks
    obtain ⟨another, namedAnother, settled⟩ := before j earlier less found reservesEarlier
    rw [namedEarlier, Option.some.injEq] at namedAnother
    exact unsettledEarlier (namedAnother ▸ settled)

/-- The scan of a history of guarded calls answers with its first unsettled decision. -/
theorem scan_finds_first (kept : Kept patient events running) {id : Str} :
    (scanBlockingPrior host events action key).bind idOf = some id ↔ FirstUnsettled events action key id := by
  obtain ⟨found, isText, leads⟩ := scanned_blocks host events action key
  rw [← leads_iff_first kept, ← leads]
  cases prior : scanBlockingPrior host events action key with
  | none =>
    rw [prior, eventId, Option.map_none] at isText
    rw [Option.map_eq_none_iff.mp isText.symm]
    simp
  | some decision =>
    rw [prior, eventId, Option.map_some] at isText
    obtain ⟨text, same, isId⟩ := Option.map_eq_some_iff.mp isText.symm
    rw [same, Option.bind_some, idOf, ← isId]
    rfl

end Looks

/-- Two places of a list that a filter keeps, where it keeps one at most. -/
theorem place_unique {α : Type} {keep : α → Bool} {l : List α} (one : (l.filter keep).length ≤ 1) {i k : Nat} {a b : α}
    (atA : l[i]? = some a) (atB : l[k]? = some b) (keptA : keep a = true) (keptB : keep b = true) : i = k := by
  have apart : ∀ {i k : Nat} {a b : α}, l[i]? = some a → l[k]? = some b → keep a = true → keep b = true → ¬ i < k := by
    intro i k a b atA atB keptA keptB less
    have left : a ∈ (l.take k).filter keep := by
      apply List.mem_filter.mpr ⟨_, keptA⟩
      apply List.mem_of_getElem? (i := i)
      rw [List.getElem?_take_of_lt less, atA]
    have right : b ∈ (l.drop k).filter keep := by
      apply List.mem_filter.mpr ⟨_, keptB⟩
      apply List.mem_of_getElem? (i := 0)
      rw [List.getElem?_drop, Nat.add_zero, atB]
    have both : (l.filter keep).length = ((l.take k).filter keep).length + ((l.drop k).filter keep).length := by
      rw [← List.length_append, ← List.filter_append, List.take_append_drop]
    have := List.length_pos_of_mem left
    have := List.length_pos_of_mem right
    omega
  have := apart atA atB keptA keptB
  have := apart atB atA keptB keptA
  omega

/-! ## In every state of a run -/

section Runs

variable {host : Host} {name : String} {indexed : Nat → Bool} {last : World} {actions : List Action}

theorem whole_run (run : Run (step host name indexed) (Assumed host) .empty actions last) : Whole host last.file := by
  apply run.keeps _ whole_empty
  intro before action after assumed kept taken
  exact whole_step assumed kept taken

theorem sound_run (run : Run (step host name indexed) (Assumed host) .empty actions last) : Sound host False last := by
  apply run.keeps _ sound_empty
  intro before action after assumed kept taken
  exact step_keeps assumed False.elim kept taken

/-- In every state of every run a look under the lock answers, in any process, by its tables or by a scan:
with the first decision for the key that is not settled, and with none where all of them are. -/
theorem look_finds_unsettled (run : Run (step host name indexed) (Assumed host) .empty actions last) (process : Nat)
    (action key : Str) : ∃ events answer cache, readEvents host (records last.file) = .ok events ∧
      lockedBlockingPriorId host (indexed process) name (last.caches process) last.file action key = .ok (answer, cache) ∧
      ∀ id, answer = some id ↔ FirstUnsettled events action key id := by
  have sound := sound_run run
  obtain ⟨events, read, kept⟩ := sound.events
  obtain ⟨⟨answer, cache⟩, looked⟩ := @look_answers host name last.file (indexed process) (last.caches process) events
    action key (whole_run run) read
  refine ⟨events, answer, cache, read, looked, ?_⟩
  intro id
  rw [show answer = _ from looked_eq_scan (sound.tables process) read kept.orderly looked]
  exact scan_finds_first kept

/-- In every state of every run an outcome that names a decision has the status of an end, stands after a
decision with that id that is allowed and no dry run, and is the only one that names it. -/
theorem outcomes_answer (run : Run (step host name indexed) (Assumed host) .empty actions last) :
    ∃ events, readEvents host (records last.file) = .ok events ∧
      ∀ (i : Nat) (outcome : Dict) (id : Str), events[i]? = some outcome → namesId "outcome" id outcome = true →
        (get outcome "status" = .str (lit "succeeded") ∨ get outcome "status" = .str (lit "failed")) ∧
        (∃ j < i, ∃ decision, events[j]? = some decision ∧ isEvent "decision" decision = true ∧ idOf decision = some id ∧
          mayBlock decision = true) ∧
        ∀ (k : Nat) (other : Dict), events[k]? = some other → namesId "outcome" id other = true → k = i := by
  obtain ⟨events, read, kept⟩ := (sound_run run).events
  refine ⟨events, read, ?_⟩
  intro i outcome id here names
  have member := List.mem_of_getElem? here
  have isOutcome : isEvent "outcome" outcome = true := by
    rw [namesId, Bool.and_eq_true] at names
    exact names.1
  have some : valuesFor "outcome" "status" events id ≠ [] :=
    List.ne_nil_of_mem (List.mem_map.mpr ⟨outcome, List.mem_filter.mpr ⟨member, names⟩, rfl⟩)
  refine ⟨kept.ended outcome member isOutcome, ?_, ?_⟩
  · obtain ⟨decision, memberDecision, isDecision, named, may⟩ := kept.wet id (.inr some)
    obtain ⟨j, found⟩ := List.mem_iff_getElem?.mp memberDecision
    have before := (kept.orderly.later "outcome" "status" (by decide) j i decision outcome id found isDecision named here
      names).1
    exact ⟨j, before, decision, found, isDecision, named, may⟩
  · intro k other there namesOther
    have one := kept.once id
    rw [valuesFor, List.length_map] at one
    exact place_unique one there here namesOther names

end Runs

/-! ## A call and its outcome -/

/-- The decision of a call, in one process. -/
def payReserved : World := World.empty.prepare payHost "journal" (fun _ => true) 0 payCall payAllowed (payStamp 0) false false

def payPrepare : Action := .prepare 0 payCall payAllowed (payStamp 0) false false

def payFails : Action := .outcome 0 payCall.signer payCall.contract (payStamp 1) (payStamp 0).eventId
  (.raised (lit "TimeoutError") (lit "timed out")) false

theorem pay_prepared : payReserved.running = [(payStamp 0).eventId] := by
  obtain ⟨second, both⟩ := Option.isSome_iff_exists.mp pay_writes
  obtain ⟨first, written, -⟩ := Option.bind_eq_some_iff.mp both
  obtain ⟨made, encoded⟩ := payWritten_eq_some written
  have looked : blockingFor payHost true "journal" none [] (query payCall) = .ok (none, some ⟨0, none, .empty⟩) := rfl
  have keyed : payCall.resolvedKey = some (lit "order-1") := rfl
  have decided : buildDecision payHost payCall payAllowed (payStamp 0) false none none = .ok first.1 := by
    rw [buildDecision, keyed]
    simp only [buildAtomic, Option.isSome_none, Bool.or_self, Bool.false_eq_true, if_false]
    exact made
  have built : appendBuilt payHost "journal" [] (buildDecision payHost payCall payAllowed (payStamp 0) false none) =
      .ok ⟨first.2 ++ [10], first.1, none⟩ := appendBuilt_eq_ok.mpr ⟨first.2, rfl, decided, encoded, rfl⟩
  obtain ⟨caches, prepared⟩ := @prepare_of_built payHost "journal" (fun _ => true) .empty 0 payCall payAllowed (payStamp 0)
    false none _ _ looked built (by decide)
  rw [payReserved, prepared]
  rfl

theorem pay_assumed : Assumed payHost .empty payPrepare := by
  constructor
  · intro events none
    cases none
    exact List.forall_mem_nil _
  · intro v found
    cases found

theorem pay_run : Run (step payHost "journal" (fun _ => true)) (Assumed payHost) .empty [payPrepare] payReserved :=
  .cons pay_assumed rfl (.nil _)

theorem pay_failed_run : ∃ last, Run (step payHost "journal" (fun _ => true)) (Assumed payHost) .empty [payPrepare, payFails] last := by
  have running : payReserved.running.contains (payStamp 0).eventId = true := by
    rw [pay_prepared]
    decide
  have noReceipt : ∀ v ∈ (Ending.raised (lit "TimeoutError") (lit "timed out")).receipt, v.Ok payHost := by
    intro v found
    cases found
  have ended : ∃ last, step payHost "journal" (fun _ => true) payReserved payFails = some last := by
    rw [payFails, step, if_pos running]
    exact ⟨_, rfl⟩
  obtain ⟨last, taken⟩ := ended
  exact ⟨last, .cons pay_assumed rfl (.cons noReceipt taken (.nil _))⟩

theorem look_finds_unsettled_sample : ∃ events answer cache, readEvents payHost (records payReserved.file) = .ok events ∧
    lockedBlockingPriorId payHost true "journal" (payReserved.caches 1) payReserved.file (lit "pay") (lit "order-1") =
      .ok (answer, cache) ∧ ∀ id, answer = some id ↔ FirstUnsettled events (lit "pay") (lit "order-1") id :=
  look_finds_unsettled pay_run 1 (lit "pay") (lit "order-1")

theorem outcomes_answer_sample : ∃ last, play (step payHost "journal" (fun _ => true)) .empty [payPrepare, payFails] = some last ∧
    ∃ events, readEvents payHost (records last.file) = .ok events ∧
      ∀ (i : Nat) (outcome : Dict) (id : Str), events[i]? = some outcome → namesId "outcome" id outcome = true →
        (get outcome "status" = .str (lit "succeeded") ∨ get outcome "status" = .str (lit "failed")) ∧
        (∃ j < i, ∃ decision, events[j]? = some decision ∧ isEvent "decision" decision = true ∧ idOf decision = some id ∧
          mayBlock decision = true) ∧
        ∀ (k : Nat) (other : Dict), events[k]? = some other → namesId "outcome" id other = true → k = i := by
  obtain ⟨last, run⟩ := pay_failed_run
  exact ⟨last, run.played, outcomes_answer run⟩

end Tesera.Engine.Histories
