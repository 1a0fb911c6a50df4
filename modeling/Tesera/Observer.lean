import Tesera.Transition
import Tesera.Text.Unicode

/-!
`notify_once`: an observer is told of each contract before the first call under it runs. What an
observer has been told is kept under the observer, in a dictionary with weak keys, or by its `id()`
where it cannot be such a key. A dictionary finds its keys by their own equality, so that an observer
can be taken for another that compares equal to it, and not be told.
-/

namespace Tesera.Observer
open Tesera.Transition Tesera.Text.Unicode

/-- An object is no other one, before or after; its `id()` may have been that of another. -/
abbrev Object := Nat

/-- The hashes of the contracts that an observer has been told of. -/
abbrev Bucket := List Str

/-- `_OnceTracker`. The entries of the weak dictionary have their keys in the order of insertion. -/
structure Tracker where
  doneWeak : List (Object × Bucket)
  doneStrong : List (Nat × (Object × Bucket))

/-- How a lookup in the weak dictionary ends: at an entry whose key has the hash of the observer and
compares equal to it, at none, or with what `__hash__`, `__eq__` or the weak reference raises. -/
inductive Lookup where
  | ends (entry : Option Nat)
  | typeError
  | raised

/-- Where a bucket is kept. -/
inductive Slot where
  | weak (entry : Nat)
  | strong (address : Nat)

def Lookup.entry (tracker : Tracker) : Option Nat → Option Nat
  | some entry => if entry < tracker.doneWeak.length then some entry else none
  | none => none

/-- The fallback of `_bucket`. -/
def Tracker.strongSlot (tracker : Tracker) (address : Nat) (observer : Object) : Tracker × Slot :=
  match tracker.doneStrong.find? (fun entry => entry.1 == address) with
  | some entry =>
      if entry.2.1 = observer then (tracker, .strong address)
      else ({ tracker with doneStrong := (address, (observer, [])) :: tracker.doneStrong.filter (fun e => e.1 != address) },
        .strong address)
  | none => ({ tracker with doneStrong := (address, (observer, [])) :: tracker.doneStrong }, .strong address)

/-- `self._done_weak[observer] = bucket` with a new bucket, or none where it raises. -/
def Tracker.newBucket (tracker : Tracker) (observer : Object) : Lookup → Option (Tracker × Slot)
  | .ends found =>
      match Lookup.entry tracker found with
      | some entry => some ({ tracker with doneWeak := tracker.doneWeak.modify entry (fun e => (e.1, [])) }, .weak entry)
      | none => some ({ tracker with doneWeak := tracker.doneWeak ++ [(observer, [])] }, .weak tracker.doneWeak.length)
  | _ => none

/-- `_bucket`, or none where it raises: only a `TypeError` of the `get` is caught. The assignment of a
new bucket looks the observer up again. -/
def Tracker.bucketSlot (tracker : Tracker) (address : Nat) (observer : Object) (get set : Lookup) : Option (Tracker × Slot) :=
  match get with
  | .raised => none
  | .typeError => some (tracker.strongSlot address observer)
  | .ends found =>
      match Lookup.entry tracker found with
      | some entry => some (tracker, .weak entry)
      | none => tracker.newBucket observer set

def Tracker.bucket (tracker : Tracker) : Slot → Bucket
  | .weak entry => (tracker.doneWeak[entry]?.map Prod.snd).getD []
  | .strong address => ((tracker.doneStrong.find? (fun entry => entry.1 == address)).map (fun entry => entry.2.2)).getD []

/-- `bucket.add(contract.contract_hash)`. -/
def Tracker.add (tracker : Tracker) (contractHash : Str) : Slot → Tracker
  | .weak entry => { tracker with doneWeak := tracker.doneWeak.modify entry (fun e => (e.1, contractHash :: e.2)) }
  | .strong address =>
      { tracker with doneStrong := tracker.doneStrong.map (fun e =>
          if e.1 = address then (e.1, (e.2.1, contractHash :: e.2.2)) else e) }

/-! ## Guarded calls -/

/-- How far a call with an observer has come: before `is_done`, before `contract_declared`, before
`mark_done`, past `notify_once`, or at its end. -/
inductive Phase where
  | entered
  | unseen
  | told
  | ready
  | finished
  deriving DecidableEq

structure Call where
  observer : Object
  contractHash : Str
  phase : Phase

inductive Event where
  /-- `contract_declared` has returned. -/
  | declared (observer : Object) (contractHash : Str)
  /-- A target runs under an observer and a contract. -/
  | ran (observer : Object) (contractHash : Str)

/-- The tracker of a process, the calls so far, and what has happened, the last first. -/
structure Process where
  tracker : Tracker
  calls : List Call
  log : List Event

def Process.start : Process := ⟨⟨[], []⟩, [], []⟩

/-- The steps of the calls, in any order. A call may be abandoned in any step of its preparation, and an
observer that nothing holds may be collected. -/
inductive Action where
  | call (observer : Object) (contractHash : Str)
  | isDone (n : Nat) (get set : Lookup)
  | declare (n : Nat) (returns : Bool)
  | markDone (n : Nat) (get set : Lookup)
  | run (n : Nat)
  | abandon (n : Nat)
  | collect (observer : Object)
  | reset

def Process.move (process : Process) (n : Nat) (call : Call) (phase : Phase) : Process :=
  { process with calls := process.calls.set n { call with phase := phase } }

/-- Something other than the weak dictionary refers to the observer. -/
def Process.holds (process : Process) (observer : Object) : Bool :=
  process.calls.any (fun call => call.observer == observer && call.phase != .finished) ||
    process.tracker.doneStrong.any (fun entry => entry.2.1 == observer)

/-- `address` is `id()`. -/
def step (address : Object → Nat) (process : Process) : Action → Option Process
  | .call observer contractHash =>
      some { process with calls := process.calls ++ [⟨observer, contractHash, .entered⟩] }
  | .isDone n get set =>
      match process.calls[n]? with
      | some call =>
          if call.phase = .entered then
            match process.tracker.bucketSlot (address call.observer) call.observer get set with
            | some (tracker, slot) =>
                some ({ process with tracker := tracker }.move n call
                  (if (tracker.bucket slot).contains call.contractHash then .ready else .unseen))
            | none => some (process.move n call .finished)
          else none
      | none => none
  | .declare n returns =>
      match process.calls[n]? with
      | some call =>
          if call.phase = .unseen then
            if returns then
              some ({ process with log := .declared call.observer call.contractHash :: process.log }.move n call .told)
            else some (process.move n call .finished)
          else none
      | none => none
  | .markDone n get set =>
      match process.calls[n]? with
      | some call =>
          if call.phase = .told then
            match process.tracker.bucketSlot (address call.observer) call.observer get set with
            | some (tracker, slot) =>
                some ({ process with tracker := tracker.add call.contractHash slot }.move n call .ready)
            | none => some (process.move n call .finished)
          else none
      | none => none
  | .run n =>
      match process.calls[n]? with
      | some call =>
          if call.phase = .ready then
            some ({ process with log := .ran call.observer call.contractHash :: process.log }.move n call .finished)
          else none
      | none => none
  | .abandon n =>
      match process.calls[n]? with
      | some call => some (process.move n call .finished)
      | none => none
  | .collect observer =>
      if process.holds observer then none
      else some { process with tracker :=
        { process.tracker with doneWeak := process.tracker.doneWeak.filter (fun entry => entry.1 != observer) } }
  | .reset => some { process with tracker := ⟨[], []⟩ }

/-- Whenever a target has run under an observer and a contract, that observer had been told of it. -/
def Told (log : List Event) : Prop :=
  ∀ later before observer contractHash, log = later ++ .ran observer contractHash :: before →
    .declared observer contractHash ∈ before

/-- A lookup for an observer does not end at the entry of another. -/
def Lookup.Own (tracker : Tracker) (observer : Object) : Lookup → Prop
  | .ends (some entry) => ∀ key bucket, tracker.doneWeak[entry]? = some (key, bucket) → key = observer
  | _ => True

/-- No observer is taken for another that compares equal to it and has its hash. -/
def OwnEntries (process : Process) : Action → Prop
  | .isDone n get set => ∀ call, process.calls[n]? = some call →
      get.Own process.tracker call.observer ∧ set.Own process.tracker call.observer
  | .markDone n get set => ∀ call, process.calls[n]? = some call →
      get.Own process.tracker call.observer ∧ set.Own process.tracker call.observer
  | _ => True

/-! ## What is kept -/

/-- Of what the tracker says an observer was told of, it was told. -/
structure Recorded (tracker : Tracker) (log : List Event) : Prop where
  weak : ∀ key bucket, (key, bucket) ∈ tracker.doneWeak → ∀ contractHash ∈ bucket, .declared key contractHash ∈ log
  strong : ∀ address key bucket, (address, (key, bucket)) ∈ tracker.doneStrong →
    ∀ contractHash ∈ bucket, .declared key contractHash ∈ log

/-- The slot is the observer's own. -/
def Slot.Of (tracker : Tracker) (observer : Object) : Slot → Prop
  | .weak entry => ∀ key bucket, tracker.doneWeak[entry]? = some (key, bucket) → key = observer
  | .strong address => ∀ key bucket, (address, (key, bucket)) ∈ tracker.doneStrong → key = observer

structure Sound (process : Process) : Prop where
  recorded : Recorded process.tracker process.log
  /-- An `id()` has one entry. -/
  single : (process.tracker.doneStrong.map Prod.fst).Nodup
  notified : ∀ call ∈ process.calls, call.phase = .told ∨ call.phase = .ready →
    .declared call.observer call.contractHash ∈ process.log
  told : Told process.log

variable {tracker after : Tracker} {log : List Event} {observer : Object} {contractHash : Str} {address : Nat}

theorem Recorded.cons (recorded : Recorded tracker log) (event : Event) : Recorded tracker (event :: log) where
  weak := fun key bucket member contractHash known =>
    List.mem_cons_of_mem event (recorded.weak key bucket member contractHash known)
  strong := fun address key bucket member contractHash known =>
    List.mem_cons_of_mem event (recorded.strong address key bucket member contractHash known)

/-- An entry of a list in which one place has changed. -/
theorem mem_modify {α : Type} {f : α → α} {entries : List α} {n : Nat} {entry : α} (member : entry ∈ entries.modify n f) :
    entry ∈ entries ∨ ∃ old, entries[n]? = some old ∧ entry = f old := by
  obtain ⟨place, found⟩ := List.mem_iff_getElem?.mp member
  rw [List.getElem?_modify] at found
  obtain ⟨old, at_, same⟩ := Option.map_eq_some_iff.mp found
  by_cases here : n = place
  · rw [if_pos here] at same
    exact .inr ⟨old, here ▸ at_, same.symm⟩
  · rw [if_neg here] at same
    exact .inl (same ▸ List.mem_of_getElem? at_)

theorem Lookup.entry_eq_some {found : Option Nat} {entry : Nat} (reached : Lookup.entry tracker found = some entry) :
    found = some entry ∧ entry < tracker.doneWeak.length := by
  cases found with
  | none => cases reached
  | some other =>
    rw [Lookup.entry] at reached
    by_cases inside : other < tracker.doneWeak.length
    · rw [if_pos inside] at reached
      exact ⟨reached, Option.some.inj reached ▸ inside⟩
    · rw [if_neg inside] at reached
      cases reached

/-- What holds of the tracker and the slot after `_bucket`. -/
structure Opened (after : Tracker) (log : List Event) (observer : Object) (slot : Slot) : Prop where
  recorded : Recorded after log
  single : (after.doneStrong.map Prod.fst).Nodup
  slot : slot.Of after observer

theorem opened_strong (recorded : Recorded tracker log) (single : (tracker.doneStrong.map Prod.fst).Nodup) :
    Opened (tracker.strongSlot address observer).1 log observer (tracker.strongSlot address observer).2 := by
  have fresh : ∀ entries : List (Nat × (Object × Bucket)), address ∉ entries.map Prod.fst → (entries.map Prod.fst).Nodup →
      (∀ entry ∈ entries, entry ∈ tracker.doneStrong) →
      Opened { tracker with doneStrong := (address, (observer, [])) :: entries } log observer (.strong address) := by
    intro entries absent distinct kept
    refine ⟨⟨recorded.weak, ?_⟩, ?_, ?_⟩
    · intro other key bucket member contractHash known
      apply (List.mem_cons.mp member).elim
      · intro same
        obtain ⟨_, inner⟩ := Prod.mk.inj same
        obtain ⟨_, empty⟩ := Prod.mk.inj inner
        rw [empty] at known
        exact absurd known List.not_mem_nil
      · intro old
        exact recorded.strong other key bucket (kept _ old) contractHash known
    · exact List.nodup_cons.mpr ⟨absent, distinct⟩
    · intro key bucket member
      apply (List.mem_cons.mp member).elim
      · intro same
        exact (Prod.mk.inj (Prod.mk.inj same).2).1
      · intro old
        exact absurd (List.mem_map_of_mem (f := Prod.fst) old) absent
  rw [Tracker.strongSlot]
  cases found : tracker.doneStrong.find? (fun entry => entry.1 == address) with
  | none =>
    apply fresh _ _ single (fun entry member => member)
    intro there
    obtain ⟨entry, member, same⟩ := List.mem_map.mp there
    have differs := List.find?_eq_none.mp found entry member
    exact differs (by simp [same])
  | some entry =>
    obtain ⟨other, key, bucket⟩ := entry
    have same : other = address := by simpa using List.find?_some found
    have member := List.mem_of_find?_eq_some found
    simp only []
    by_cases own : key = observer
    · rw [if_pos own]
      refine ⟨recorded, single, ?_⟩
      intro key' bucket' member'
      have unique := List.inj_on_of_nodup_map single member' member same.symm
      rw [← own]
      exact congrArg (fun entry => entry.2.1) unique
    · rw [if_neg own]
      apply fresh
      · intro there
        obtain ⟨kept, inside, equal⟩ := List.mem_map.mp there
        have differs := (List.mem_filter.mp inside).2
        simp [equal] at differs
      · exact (List.filter_sublist.map Prod.fst).nodup single
      · exact fun kept inside => (List.mem_filter.mp inside).1

theorem opened_newBucket {set : Lookup} {slot : Slot} (recorded : Recorded tracker log)
    (single : (tracker.doneStrong.map Prod.fst).Nodup) (setOwn : set.Own tracker observer)
    (opened : tracker.newBucket observer set = some (after, slot)) : Opened after log observer slot := by
  cases set with
  | typeError => cases opened
  | raised => cases opened
  | ends found =>
    rw [Tracker.newBucket] at opened
    cases second : Lookup.entry tracker found with
    | some entry =>
      rw [second] at opened
      obtain ⟨rfl, rfl⟩ := Prod.mk.inj (Option.some.inj opened)
      rw [(Lookup.entry_eq_some second).1] at setOwn
      refine ⟨⟨?_, recorded.strong⟩, single, ?_⟩
      · intro key bucket member contractHash known
        apply (mem_modify member).elim
        · intro old
          exact recorded.weak key bucket old contractHash known
        · intro changed
          obtain ⟨old, _, same⟩ := changed
          rw [(Prod.mk.inj same).2] at known
          exact absurd known List.not_mem_nil
      · intro key bucket at_
        rw [List.getElem?_modify_eq] at at_
        obtain ⟨old, before, same⟩ := Option.map_eq_some_iff.mp at_
        rw [← (Prod.mk.inj same).1]
        exact setOwn old.1 old.2 before
    | none =>
      rw [second] at opened
      obtain ⟨rfl, rfl⟩ := Prod.mk.inj (Option.some.inj opened)
      refine ⟨⟨?_, recorded.strong⟩, single, ?_⟩
      · intro key bucket member contractHash known
        apply (List.mem_append.mp member).elim
        · intro old
          exact recorded.weak key bucket old contractHash known
        · intro new
          rw [(Prod.mk.inj (List.mem_singleton.mp new)).2] at known
          exact absurd known List.not_mem_nil
      · intro key bucket at_
        rw [List.getElem?_append_right (le_refl _), Nat.sub_self] at at_
        exact (Prod.mk.inj (Option.some.inj at_)).1.symm

theorem opened_bucketSlot {get set : Lookup} {slot : Slot} (recorded : Recorded tracker log)
    (single : (tracker.doneStrong.map Prod.fst).Nodup) (getOwn : get.Own tracker observer) (setOwn : set.Own tracker observer)
    (opened : tracker.bucketSlot address observer get set = some (after, slot)) : Opened after log observer slot := by
  cases get with
  | raised => cases opened
  | typeError =>
    have same := Option.some.inj opened
    have found := @opened_strong tracker log observer address recorded single
    rwa [same] at found
  | ends found =>
    rw [Tracker.bucketSlot] at opened
    cases first : Lookup.entry tracker found with
    | some entry =>
      rw [first] at opened
      obtain ⟨rfl, rfl⟩ := Prod.mk.inj (Option.some.inj opened)
      rw [(Lookup.entry_eq_some first).1] at getOwn
      exact ⟨recorded, single, getOwn⟩
    | none =>
      rw [first] at opened
      exact opened_newBucket recorded single setOwn opened

theorem Opened.declared {slot : Slot} (opened : Opened tracker log observer slot) (known : contractHash ∈ tracker.bucket slot) :
    .declared observer contractHash ∈ log := by
  cases slot with
  | weak entry =>
    rw [Tracker.bucket] at known
    cases at_ : tracker.doneWeak[entry]? with
    | none =>
      rw [at_] at known
      exact absurd known List.not_mem_nil
    | some found =>
      rw [at_] at known
      rw [← opened.slot found.1 found.2 at_]
      exact opened.recorded.weak found.1 found.2 (List.mem_of_getElem? at_) contractHash known
  | strong address =>
    rw [Tracker.bucket] at known
    cases at_ : tracker.doneStrong.find? (fun entry => entry.1 == address) with
    | none =>
      rw [at_] at known
      exact absurd known List.not_mem_nil
    | some found =>
      obtain ⟨other, key, bucket⟩ := found
      rw [at_] at known
      have same : other = address := by simpa using List.find?_some at_
      have member := List.mem_of_find?_eq_some at_
      rw [same] at member
      rw [← opened.slot key bucket member]
      exact opened.recorded.strong address key bucket member contractHash known

/-- `mark_done` after the observer was told. -/
theorem Opened.add {slot : Slot} (opened : Opened tracker log observer slot) (told : .declared observer contractHash ∈ log) :
    Recorded (tracker.add contractHash slot) log ∧ ((tracker.add contractHash slot).doneStrong.map Prod.fst).Nodup := by
  cases slot with
  | weak entry =>
    refine ⟨⟨?_, opened.recorded.strong⟩, opened.single⟩
    intro key bucket member other known
    apply (mem_modify member).elim
    · intro old
      exact opened.recorded.weak key bucket old other known
    · intro changed
      obtain ⟨old, at_, same⟩ := changed
      obtain ⟨keySame, bucketSame⟩ := Prod.mk.inj same
      have own : key = observer := keySame.trans (opened.slot old.1 old.2 at_)
      rw [bucketSame] at known
      apply (List.mem_cons.mp known).elim
      · intro new
        rwa [own, new]
      · intro before
        rw [keySame]
        exact opened.recorded.weak old.1 old.2 (List.mem_of_getElem? at_) other before
  | strong address =>
    refine ⟨⟨opened.recorded.weak, ?_⟩, ?_⟩
    · intro place key bucket member other known
      obtain ⟨old, before, same⟩ := List.mem_map.mp member
      by_cases here : old.1 = address
      · rw [if_pos here] at same
        obtain ⟨_, inner⟩ := Prod.mk.inj same
        obtain ⟨keySame, bucketSame⟩ := Prod.mk.inj inner
        have own : old.2.1 = observer := opened.slot old.2.1 old.2.2 (here ▸ before)
        rw [← keySame]
        rw [← bucketSame] at known
        apply (List.mem_cons.mp known).elim
        · intro new
          rwa [own, new]
        · exact opened.recorded.strong old.1 old.2.1 old.2.2 before other
      · rw [if_neg here] at same
        rw [same] at before
        exact opened.recorded.strong place key bucket before other known
    · have places : (tracker.add contractHash (.strong address)).doneStrong.map Prod.fst = tracker.doneStrong.map Prod.fst := by
        rw [Tracker.add, List.map_map]
        apply List.map_congr_left
        intro entry _
        by_cases here : entry.1 = address
        · simp [here]
        · simp [here]
      rw [places]
      exact opened.single

/-! ## The steps -/

theorem Told.cons {event : Event} (told : Told log)
    (ran : ∀ observer contractHash, event = .ran observer contractHash → .declared observer contractHash ∈ log) :
    Told (event :: log) := by
  intro later before observer contractHash same
  cases later with
  | nil =>
    obtain ⟨here, rest⟩ := List.cons.inj same
    exact rest ▸ ran observer contractHash here
  | cons first later => exact told later before observer contractHash (List.cons.inj same).2

namespace Sound

variable {process : Process} {call : Call} {n : Nat}

theorem move (sound : Sound process) (n : Nat) (call : Call) {phase : Phase}
    (told : phase = .told ∨ phase = .ready → .declared call.observer call.contractHash ∈ process.log) :
    Sound (process.move n call phase) where
  recorded := sound.recorded
  single := sound.single
  notified := by
    intro other member past
    apply (List.mem_or_eq_of_mem_set member).elim
    · intro before
      exact sound.notified other before past
    · intro same
      rw [same] at past ⊢
      exact told past
  told := sound.told

theorem stop (sound : Sound process) (n : Nat) (call : Call) : Sound (process.move n call .finished) := by
  apply sound.move
  intro past
  apply past.elim
  · intro wrong
    cases wrong
  · intro wrong
    cases wrong

theorem track (sound : Sound process) {tracker : Tracker} (recorded : Recorded tracker process.log)
    (single : (tracker.doneStrong.map Prod.fst).Nodup) : Sound { process with tracker := tracker } :=
  ⟨recorded, single, sound.notified, sound.told⟩

theorem logged (sound : Sound process) (event : Event)
    (ran : ∀ observer contractHash, event = .ran observer contractHash → .declared observer contractHash ∈ process.log) :
    Sound { process with log := event :: process.log } where
  recorded := sound.recorded.cons event
  single := sound.single
  notified := fun call member past => List.mem_cons_of_mem event (sound.notified call member past)
  told := sound.told.cons ran

/-- One step of a call, where no lookup for an observer ends at the entry of another. -/
theorem step {address : Object → Nat} {action : Action} {next : Process} (sound : Sound process) (own : OwnEntries process action)
    (taken : Observer.step address process action = some next) : Sound next := by
  cases action with
  | call observer contractHash =>
    rw [← Option.some.inj taken]
    refine ⟨sound.recorded, sound.single, ?_, sound.told⟩
    intro call member past
    apply (List.mem_append.mp member).elim
    · intro before
      exact sound.notified call before past
    · intro new
      rw [List.mem_singleton.mp new] at past
      apply past.elim
      · intro wrong
        cases wrong
      · intro wrong
        cases wrong
  | isDone n get set =>
    rw [Observer.step] at taken
    cases at_ : process.calls[n]? with
    | none =>
      rw [at_] at taken
      cases taken
    | some call =>
      rw [at_] at taken
      simp only [] at taken
      split_ifs at taken
      obtain ⟨getOwn, setOwn⟩ := own call at_
      cases opened : process.tracker.bucketSlot (address call.observer) call.observer get set with
      | none =>
        rw [opened] at taken
        rw [← Option.some.inj taken]
        exact sound.stop n call
      | some found =>
        obtain ⟨tracker, slot⟩ := found
        rw [opened] at taken
        rw [← Option.some.inj taken]
        have reached := opened_bucketSlot sound.recorded sound.single getOwn setOwn opened
        apply (sound.track reached.recorded reached.single).move
        intro past
        by_cases known : (tracker.bucket slot).contains call.contractHash = true
        · exact reached.declared (List.contains_iff_mem.mp known)
        · rw [if_neg known] at past
          apply past.elim
          · intro wrong
            cases wrong
          · intro wrong
            cases wrong
  | declare n returns =>
    rw [Observer.step] at taken
    cases at_ : process.calls[n]? with
    | none =>
      rw [at_] at taken
      cases taken
    | some call =>
      rw [at_] at taken
      simp only [] at taken
      split_ifs at taken
      · rw [← Option.some.inj taken]
        apply (sound.logged (.declared call.observer call.contractHash) (fun _ _ wrong => by cases wrong)).move
        exact fun _ => List.mem_cons_self
      · rw [← Option.some.inj taken]
        exact sound.stop n call
  | markDone n get set =>
    rw [Observer.step] at taken
    cases at_ : process.calls[n]? with
    | none =>
      rw [at_] at taken
      cases taken
    | some call =>
      rw [at_] at taken
      simp only [] at taken
      split_ifs at taken with phase
      have told := sound.notified call (List.mem_of_getElem? at_) (.inl phase)
      obtain ⟨getOwn, setOwn⟩ := own call at_
      cases opened : process.tracker.bucketSlot (address call.observer) call.observer get set with
      | none =>
        rw [opened] at taken
        rw [← Option.some.inj taken]
        exact sound.stop n call
      | some found =>
        obtain ⟨tracker, slot⟩ := found
        rw [opened] at taken
        rw [← Option.some.inj taken]
        have reached := opened_bucketSlot sound.recorded sound.single getOwn setOwn opened
        obtain ⟨recorded, single⟩ := reached.add told
        exact (sound.track recorded single).move n call (fun _ => told)
  | run n =>
    rw [Observer.step] at taken
    cases at_ : process.calls[n]? with
    | none =>
      rw [at_] at taken
      cases taken
    | some call =>
      rw [at_] at taken
      simp only [] at taken
      split_ifs at taken with phase
      rw [← Option.some.inj taken]
      apply (sound.logged (.ran call.observer call.contractHash) _).stop
      intro observer contractHash same
      have told := sound.notified call (List.mem_of_getElem? at_) (.inr phase)
      obtain ⟨rfl, rfl⟩ := Event.ran.inj same
      exact told
  | abandon n =>
    rw [Observer.step] at taken
    cases at_ : process.calls[n]? with
    | none =>
      rw [at_] at taken
      cases taken
    | some call =>
      rw [at_] at taken
      rw [← Option.some.inj taken]
      exact sound.stop n call
  | collect observer =>
    rw [Observer.step] at taken
    split_ifs at taken
    rw [← Option.some.inj taken]
    refine sound.track ⟨?_, sound.recorded.strong⟩ sound.single
    intro key bucket member
    exact sound.recorded.weak key bucket (List.mem_filter.mp member).1
  | reset =>
    rw [← Option.some.inj taken]
    refine sound.track ⟨?_, ?_⟩ List.nodup_nil
    · exact fun _ _ member => absurd member List.not_mem_nil
    · exact fun _ _ _ member => absurd member List.not_mem_nil

end Sound

theorem sound_start : Sound .start where
  recorded := ⟨fun _ _ member => absurd member List.not_mem_nil, fun _ _ _ member => absurd member List.not_mem_nil⟩
  single := List.nodup_nil
  notified := fun _ member => absurd member List.not_mem_nil
  told := by
    intro later before observer contractHash same
    cases later with
    | nil => cases same
    | cons first later => cases same

/-- In every run in which no observer is taken for an equal one, an observer has been told of a contract
whenever a target runs under both. -/
theorem told_before_run (address : Object → Nat) (actions : List Action) (last : Process)
    (run : Run (step address) OwnEntries .start actions last) : Told last.log :=
  (run.keeps (P := Sound) (fun _ _ _ own sound taken => sound.step own taken) sound_start).told

/-! ## Two observers -/

def sampleHash : Str := lit "c0ffee"

/-- A call that is told of its contract, and another under it. -/
def sampleActions (second : Object) : List Action :=
  [.call 0 sampleHash, .isDone 0 (.ends none) (.ends none), .declare 0 true, .markDone 0 (.ends (some 0)) .raised, .run 0,
    .call second sampleHash, .isDone 1 (.ends (some 0)) .raised, .run 1]

/-- What has happened when the other call has found the entry of the first. -/
def sampleLog (second : Object) : List Event :=
  [.ran second sampleHash, .ran 0 sampleHash, .declared 0 sampleHash]

/-- An entry of the first observer. -/
theorem first_own (bucket : Bucket) : ∀ key found, ([(0, bucket)] : List (Object × Bucket))[0]? = some (key, found) → key = 0 := by
  intro key found same
  exact (Prod.mk.inj (Option.some.inj same)).1.symm

/-- One observer in both calls. -/
theorem told_before_run_sample : ∃ last, Run (step id) OwnEntries .start (sampleActions 0) last ∧
    last.log = sampleLog 0 ∧ Told last.log := by
  have run : Run (step id) OwnEntries .start (sampleActions 0) ⟨⟨[(0, [sampleHash])], []⟩,
      [⟨0, sampleHash, .finished⟩, ⟨0, sampleHash, .finished⟩], sampleLog 0⟩ := by
    apply Run.cons trivial rfl
    apply Run.cons (fun _ _ => ⟨trivial, trivial⟩) rfl
    apply Run.cons trivial rfl
    apply Run.cons _ rfl
    · apply Run.cons trivial rfl
      apply Run.cons trivial rfl
      apply Run.cons _ rfl
      · exact .cons trivial rfl (.nil _)
      · intro call same
        rw [← Option.some.inj same]
        exact ⟨first_own _, trivial⟩
    · intro call same
      rw [← Option.some.inj same]
      exact ⟨first_own _, trivial⟩
  exact ⟨_, run, rfl, told_before_run id (sampleActions 0) _ run⟩

/-- Another observer, which the dictionary takes for the first: its target runs, and it has been told
nothing. -/
theorem equal_observer_untold : ∃ last, Run (step id) (fun _ _ => True) .start (sampleActions 1) last ∧
    last.log = sampleLog 1 ∧ ¬ Told last.log := by
  refine ⟨_, .of_play rfl (fun _ _ _ => trivial), rfl, ?_⟩
  intro told
  have claimed : Event.declared 1 sampleHash ∈ [.ran 0 sampleHash, .declared 0 sampleHash] :=
    told [] _ 1 sampleHash rfl
  simp at claimed

end Tesera.Observer
