import Tesera.TypeScript.Verify

/-!
What a verdict of `verifyLines` says. A journal is valid exactly when every line is an event that is clean
after the ones before it, and the newest checkpoint counts no more events than there are. There is a
verdict exactly when no value that a message shows, or that a signature is read from, is without a text.
-/

namespace Tesera.TypeScript.Verdict
open Tesera.Text Tesera.Text.Unicode Tesera.Text.Decimal
open Tesera.TypeScript.Value Tesera.TypeScript.Canonical Tesera.TypeScript.Verify
open Tesera.Verification.Event (EventType eventTypes)

/-! ## Comparisons and issues -/

theorem strictEqual_str {v : Option Json} {s : Str} : strictEqual v (some (.str s)) = true ↔ v = some (.str s) := by
  cases v with
  | none => simp [strictEqual]
  | some v => cases v <;> simp [strictEqual]

theorem strictEqual_null {v : Option Json} : strictEqual v (some .null) = true ↔ v = some .null := by
  cases v with
  | none => simp [strictEqual]
  | some v => cases v <;> simp [strictEqual]

theorem isText_iff {v : Option Json} {text : String} : isText v text = true ↔ v = some (.str (lit text)) := strictEqual_str

theorem text_eq_some {v : Option Json} {s : Str} : text v = some s ↔ v = some (.str s) := by
  cases v with
  | none => simp [text]
  | some v => cases v <;> simp [text]

theorem typeOf_eq_some {record : Record} {type : EventType} :
    typeOf record = some type ↔ item record "event_type" = some (.str (lit type.name)) := by
  constructor
  · intro found
    unfold typeOf at found
    have named := List.find?_some found
    exact isText_iff.mp named
  · intro named
    unfold typeOf
    rw [named]
    cases type <;> simp [eventTypes, EventType.name, isText, strictEqual]

@[simp] theorem issueIf_eq_nil {bad : Bool} {lineNumber : Nat} {code message : String} :
    issueIf bad lineNumber code message = [] ↔ bad = false := by
  cases bad <;> simp [issueIf]

@[simp] theorem issueShowing_eq_nil {bad : Bool} {lineNumber : Nat} {code before : String} {v : Option Json} :
    issueShowing bad lineNumber code before v = some [] ↔ bad = false := by
  cases bad <;> simp [issueShowing]

/-- Everything that holds of an event without issues. -/
structure CleanRecord (keyring : Keyring) (first : Bool) (previous : Option Str) (checkpoints : Checkpoints)
    (type : EventType) (record : Record) (digest : Bytes) : Prop where
  shape : shapeIssues 0 first type record = some []
  link : item record "previous_event_hash" = some (previous.elim .null .str)
  stored : item record "event_hash" = some (.str (Canonical.hex digest))
  signed : signatureIssues 0 keyring digest record = some []
  known : type = .countersignature → countersignatureIssues 0 checkpoints record = []

/-- The fields by which an event is checked as one of its type. -/
structure Typed (type : EventType) (record : Record) : Prop where
  schema : item record "schema_version" = some (.str (lit "1"))
  typed : item record "event_type" = some (.str (lit type.name))
  fields : missing type record = []

def noteCheckpoint (checkpoints : Checkpoints) (record : Record) : Checkpoints :=
  if isText (item record "event_type") "checkpoint" then
    (text (item record "event_id")).elim checkpoints (fun id => Members.put id record checkpoints)
  else checkpoints

def noteNewest (newest : Option Record) (record : Record) : Option Record :=
  if isText (item record "event_type") "checkpoint" then some record else newest

/-- Events each of which is clean after the ones before it. -/
def CleanFrom (keyring : Keyring) : Bool → Option Str → Checkpoints → List (Record × Bytes) → Prop
  | _, _, _, [] => True
  | first, previous, checkpoints, (record, digest) :: rest =>
      (∃ type, Typed type record ∧ CleanRecord keyring first previous checkpoints type record digest) ∧
        CleanFrom keyring false (text (item record "event_hash")) (noteCheckpoint checkpoints record) rest

/-- The newest checkpoint counts no more events than there are. -/
def Covered (newest : Option Record) (total : Nat) : Prop :=
  ∀ checkpoint, newest = some checkpoint → ∀ n, integer (item checkpoint "checkpoint_count") = some n → n ≤ (total : Rat)

/-- A line that is read as an object, which has a digest. -/
def Reads (reading : Reading) (pair : Record × Bytes) : Prop :=
  reading.parsed = some (.obj pair.1) ∧ reading.digest = .ok pair.2

section Body

variable {keyring : Keyring} {lineNumber : Nat} {first : Bool} {type : EventType} {record : Record} {p q : Progress}
  {digest : Except Str Bytes}

theorem shapeIssues_line (other : Nat) :
    shapeIssues lineNumber first type record = some [] ↔ shapeIssues other first type record = some [] := by
  cases type with
  | rotation =>
    simp only [shapeIssues, rotationShape, Option.some.injEq, List.append_eq_nil_iff, issueIf_eq_nil]
    cases (text (item record "successor_fingerprint")).filter isFingerprint <;> simp only [issueIf_eq_nil]
  | _ => simp only [shapeIssues, issueShowing_eq_nil, Option.some.injEq, List.append_eq_nil_iff, issueIf_eq_nil]

theorem signatureIssues_line (other : Nat) {digest : Bytes} :
    signatureIssues lineNumber keyring digest record = some [] ↔ signatureIssues other keyring digest record = some [] := by
  unfold signatureIssues
  cases signerOf keyring record with
  | none => simp only [issueShowing_eq_nil]
  | some signer => cases shown (item record "signature") <;> simp

theorem countersignatureIssues_line (other : Nat) {checkpoints : Checkpoints} :
    countersignatureIssues lineNumber checkpoints record = [] ↔ countersignatureIssues other checkpoints record = [] := by
  unfold countersignatureIssues
  cases (text (item record "checkpoint_event_id")).bind (Members.get checkpoints) <;> simp only [issueIf_eq_nil]


/-- The state after a clean event of a type. -/
def after (p : Progress) (type : EventType) (record : Record) : Progress :=
  ({ p with verified := p.verified + 1 }.follow record).note type record

theorem issues_after : (after p type record).issues = p.issues := by
  unfold after Progress.note
  split_ifs <;> rfl

@[simp] theorem add_nil : p.add [] = p := by
  simp [Progress.add]

/-- A clean event leads to the state after it. -/
theorem verifyBody_of_clean {hashed : Bytes}
    (clean : CleanRecord keyring first p.previous p.checkpoints type record hashed) :
    verifyBody keyring lineNumber first type record (.ok hashed) p = some (after p type record) := by
  have linked : strictEqual (item record "previous_event_hash") (previousHash p) = true := by
    rw [clean.link, previousHash]
    cases p.previous with
    | none => exact strictEqual_null.mpr rfl
    | some hash => exact strictEqual_str.mpr rfl
  have stored : strictEqual (item record "event_hash") (some (.str (Canonical.hex hashed))) = true :=
    strictEqual_str.mpr clean.stored
  simp only [verifyBody, (shapeIssues_line 0).mpr clean.shape, (signatureIssues_line 0).mpr clean.signed, linked, stored,
    issueIf, Bool.not_true, Bool.false_eq_true, if_false, List.append_nil, add_nil, if_true, Option.bind_eq_bind,
    Option.bind_some]
  by_cases counter : type = .countersignature
  · subst counter
    have same : (after p .countersignature record).checkpoints = p.checkpoints := rfl
    have known : countersignatureIssues lineNumber (after p .countersignature record).checkpoints record = [] := by
      rw [same]
      exact (countersignatureIssues_line 0).mpr (clean.known rfl)
    rw [if_pos rfl]
    exact congrArg some ((congrArg (after p .countersignature record).add known).trans add_nil)
  · rw [if_neg counter]
    rfl

/-- The checks of the body have no issue exactly with a clean event. -/
theorem verifyBody_clean (clean : p.issues = []) :
    verifyBody keyring lineNumber first type record digest p = some q ∧ q.issues = [] ↔
      (∃ hashed, digest = .ok hashed ∧ CleanRecord keyring first p.previous p.checkpoints type record hashed) ∧
        q = after p type record := by
  unfold verifyBody
  constructor
  · rintro ⟨verified, none⟩
    obtain ⟨shape, shaped, verified⟩ := Option.bind_eq_some_iff.mp verified
    cases digest with
    | error cause =>
      cases verified
      simp [Progress.add, Progress.follow] at none
    | ok hashed =>
      obtain ⟨signature, signed, verified⟩ := Option.bind_eq_some_iff.mp verified
      have parts : shape = [] ∧ signature = [] ∧
          strictEqual (item record "previous_event_hash") (previousHash p) = true ∧
          strictEqual (item record "event_hash") (some (.str (Canonical.hex hashed))) = true ∧
          (type = .countersignature → countersignatureIssues lineNumber p.checkpoints record = []) := by
        by_cases counter : type = .countersignature
        · subst counter
          simp only [if_true, Option.pure_def, Option.some.injEq] at verified
          rw [← verified] at none
          by_cases accepted : signature = [] <;>
            simp [Progress.add, Progress.note, Progress.follow, clean, accepted] at none ⊢ <;> exact none
        · simp only [if_neg counter, Option.pure_def, Option.some.injEq] at verified
          rw [← verified] at none
          by_cases accepted : signature = [] <;> by_cases isCheckpoint : type = .checkpoint <;>
            simp [Progress.add, Progress.note, Progress.follow, clean, accepted, isCheckpoint] at none ⊢ <;>
              simp [none, counter]
      obtain ⟨rfl, rfl, link, stored, known⟩ := parts
      have linked : item record "previous_event_hash" = some (p.previous.elim .null .str) := by
        unfold previousHash at link
        cases previous : p.previous with
        | none =>
          rw [previous] at link
          exact strictEqual_null.mp link
        | some hash =>
          rw [previous] at link
          exact strictEqual_str.mp link
      have isClean : CleanRecord keyring first p.previous p.checkpoints type record hashed :=
        ⟨(shapeIssues_line 0).mp shaped, linked, strictEqual_str.mp stored, (signatureIssues_line 0).mp signed,
          fun counter => (countersignatureIssues_line 0).mp (known counter)⟩
      refine ⟨⟨hashed, rfl, isClean⟩, ?_⟩
      have whole := @verifyBody_of_clean keyring lineNumber first type record p hashed isClean
      unfold verifyBody at whole
      simp only [shaped, signed, Option.bind_eq_bind, Option.bind_some] at whole
      exact Option.some.inj (verified.symm.trans whole)
  · rintro ⟨⟨hashed, rfl, isClean⟩, rfl⟩
    exact ⟨verifyBody_of_clean isClean, issues_after.trans clean⟩

theorem checkpoint_iff (typed : Typed type record) : isText (item record "event_type") "checkpoint" = true ↔ type = .checkpoint := by
  rw [isText_iff, typed.typed, Option.some.injEq, Json.str.injEq, lit_inj]
  cases type <;> decide

theorem checkpoints_after (typed : Typed type record) :
    (after p type record).checkpoints = noteCheckpoint p.checkpoints record := by
  unfold after Progress.note noteCheckpoint
  simp only [checkpoint_iff typed]
  split_ifs <;> rfl

theorem newest_after (typed : Typed type record) :
    (after p type record).newestCheckpoint = noteNewest p.newestCheckpoint record := by
  unfold after Progress.note noteNewest
  simp only [checkpoint_iff typed]
  split_ifs <;> rfl

/-- Issues are only added. -/
theorem verifyBody_adds (verified : verifyBody keyring lineNumber first type record digest p = some q) :
    ∃ more, q.issues = p.issues ++ more := by
  unfold verifyBody at verified
  obtain ⟨shape, -, verified⟩ := Option.bind_eq_some_iff.mp verified
  cases digest with
  | error cause =>
    cases verified
    exact ⟨_, List.append_assoc _ _ _⟩
  | ok hashed =>
    obtain ⟨signature, -, verified⟩ := Option.bind_eq_some_iff.mp verified
    have noted : ∀ r : Progress, (r.note type record).issues = r.issues := by
      intro r
      unfold Progress.note
      split_ifs <;> rfl
    split_ifs at verified <;> cases verified <;>
      simp only [Progress.add, noted, Progress.follow, List.append_assoc] <;> exact ⟨_, rfl⟩

/-- The state with one more event counted. -/
def counted (p : Progress) : Progress := { p with total := p.total + 1, fresh := false }

theorem verifyRecord_adds (verified : verifyRecord keyring lineNumber record digest p = some q) :
    ∃ more, q.issues = p.issues ++ more := by
  unfold verifyRecord at verified
  by_cases schema : (!isText (item record "schema_version") "1") = true
  · rw [if_pos schema] at verified
    cases verified
    exact ⟨_, rfl⟩
  · rw [if_neg schema] at verified
    cases typed : typeOf record with
    | none =>
      rw [typed] at verified
      cases verified
      exact ⟨_, rfl⟩
    | some type =>
      rw [typed] at verified
      by_cases fields : missing type record = []
      · simp only [if_pos fields] at verified
        exact @verifyBody_adds keyring lineNumber p.fresh type record (counted p) q digest verified
      · simp only [if_neg fields] at verified
        cases verified
        exact ⟨_, rfl⟩

theorem verifyRecord_clean (clean : p.issues = []) :
    verifyRecord keyring lineNumber record digest p = some q ∧ q.issues = [] ↔
      ∃ type hashed, digest = .ok hashed ∧ Typed type record ∧
        CleanRecord keyring p.fresh p.previous p.checkpoints type record hashed ∧ q = after (counted p) type record := by
  unfold verifyRecord
  constructor
  · rintro ⟨verified, none⟩
    by_cases schema : isText (item record "schema_version") "1" = true
    · rw [if_neg (by rw [schema]; decide)] at verified
      cases typed : typeOf record with
      | none =>
        rw [typed] at verified
        cases verified
        simp [Progress.add] at none
      | some type =>
        rw [typed] at verified
        by_cases fields : missing type record = []
        · simp only [if_pos fields] at verified
          obtain ⟨⟨hashed, same, isClean⟩, ended⟩ :=
            (@verifyBody_clean keyring lineNumber p.fresh type record (counted p) q digest clean).mp ⟨verified, none⟩
          exact ⟨type, hashed, same, ⟨isText_iff.mp schema, typeOf_eq_some.mp typed, fields⟩, isClean, ended⟩
        · simp only [if_neg fields] at verified
          cases verified
          simp [Progress.add] at none
    · rw [if_pos (by simpa using schema)] at verified
      cases verified
      simp [Progress.add] at none
  · rintro ⟨type, hashed, rfl, typed, isClean, rfl⟩
    rw [if_neg (by rw [isText_iff.mpr typed.schema]; decide), typeOf_eq_some.mpr typed.typed]
    simp only [if_pos typed.fields]
    exact ⟨@verifyBody_of_clean keyring lineNumber p.fresh type record (counted p) hashed isClean, issues_after.trans clean⟩

end Body

/-! ## The loop -/

section Loop

variable {keyring : Keyring} {readings : List (Option Reading)} {lineNumber : Nat} {p q : Progress}

theorem verifyFrom_adds (verified : verifyFrom keyring readings lineNumber p = some q) :
    ∃ more, q.issues = p.issues ++ more := by
  induction readings generalizing lineNumber p with
  | nil =>
    cases verified
    exact ⟨[], (List.append_nil _).symm⟩
  | cons reading rest ih =>
    cases reading with
    | none => exact ih verified
    | some reading =>
      simp only [verifyFrom] at verified
      split at verified
      next record parsed =>
        obtain ⟨r, one, others⟩ := Option.bind_eq_some_iff.mp verified
        obtain ⟨more, here⟩ := verifyRecord_adds one
        obtain ⟨later, there⟩ := ih others
        exact ⟨more ++ later, by rw [there, here, List.append_assoc]⟩
      next =>
        cases verified
        exact ⟨_, rfl⟩
      next =>
        cases verified
        exact ⟨_, rfl⟩

/-- What a pass over clean events adds to its state. -/
structure Ended (p : Progress) (pairs : List (Record × Bytes)) (q : Progress) : Prop where
  issues : q.issues = []
  total : q.total = p.total + pairs.length
  newest : q.newestCheckpoint = (pairs.map Prod.fst).foldl noteNewest p.newestCheckpoint

theorem Ended.cons {type : EventType} {record : Record} {digest : Bytes} {pairs : List (Record × Bytes)}
    (typed : Typed type record) (ended : Ended (after (counted p) type record) pairs q) :
    Ended p ((record, digest) :: pairs) q where
  issues := ended.issues
  total := by
    have same : (after (counted p) type record).total = p.total + 1 := by
      unfold after Progress.note
      split_ifs <;> rfl
    rw [ended.total, same, List.length_cons]
    omega
  newest := by
    rw [ended.newest, newest_after typed]
    rfl

/-- After a clean event the chain goes on from its hash. -/
theorem cleanFrom_after {type : EventType} {record : Record} {digest : Bytes} {pairs : List (Record × Bytes)}
    (typed : Typed type record) (clean : CleanRecord keyring p.fresh p.previous p.checkpoints type record digest) :
    CleanFrom keyring (after (counted p) type record).fresh (after (counted p) type record).previous
        (after (counted p) type record).checkpoints pairs ↔
      CleanFrom keyring false (text (item record "event_hash")) (noteCheckpoint p.checkpoints record) pairs := by
  have fresh : (after (counted p) type record).fresh = false := by
    unfold after Progress.note
    split_ifs <;> rfl
  have previous : (after (counted p) type record).previous = text (item record "event_hash") := by
    have own : text (item record "event_hash") = some (Canonical.hex digest) := text_eq_some.mpr clean.stored
    rw [own]
    unfold after Progress.note
    split_ifs <;> simp [Progress.follow, own]
  rw [fresh, previous, checkpoints_after typed]
  rfl

/-- A pass without issues has met only clean events. -/
theorem verifyFrom_sound (verified : verifyFrom keyring readings lineNumber p = some q) (none : q.issues = []) :
    ∃ pairs, List.Forall₂ Reads readings.reduceOption pairs ∧
      CleanFrom keyring p.fresh p.previous p.checkpoints pairs ∧ Ended p pairs q := by
  induction readings generalizing lineNumber p with
  | nil =>
    cases verified
    exact ⟨[], .nil, trivial, none, rfl, rfl⟩
  | cons reading rest ih =>
    cases reading with
    | none => exact ih verified
    | some reading =>
      simp only [verifyFrom] at verified
      split at verified
      next record parsed =>
        obtain ⟨r, one, others⟩ := Option.bind_eq_some_iff.mp verified
        obtain ⟨more, grown⟩ := verifyFrom_adds others
        rw [none] at grown
        have before : r.issues = [] := (List.append_eq_nil_iff.mp grown.symm).1
        obtain ⟨earlier, first⟩ := verifyRecord_adds one
        rw [before] at first
        have start : p.issues = [] := (List.append_eq_nil_iff.mp first.symm).1
        obtain ⟨type, hashed, digest, typed, clean, rfl⟩ := (verifyRecord_clean start).mp ⟨one, before⟩
        obtain ⟨pairs, reads, cleanFrom, ended⟩ := ih others
        refine ⟨(record, hashed) :: pairs, .cons ⟨parsed, digest⟩ reads, ⟨⟨type, typed, clean⟩, ?_⟩, ended.cons typed⟩
        exact (cleanFrom_after typed clean).mp cleanFrom
      next =>
        cases verified
        simp [Progress.add] at none
      next =>
        cases verified
        simp [Progress.add] at none

/-- A pass over clean events returns without issues. -/
theorem verifyFrom_complete {pairs : List (Record × Bytes)} (before : p.issues = [])
    (reads : List.Forall₂ Reads readings.reduceOption pairs)
    (clean : CleanFrom keyring p.fresh p.previous p.checkpoints pairs) :
    ∃ q, verifyFrom keyring readings lineNumber p = some q ∧ Ended p pairs q := by
  induction readings generalizing lineNumber p pairs with
  | nil =>
    cases reads
    exact ⟨p, rfl, before, rfl, rfl⟩
  | cons reading rest ih =>
    cases reading with
    | none => exact ih before reads clean
    | some reading =>
      cases reads with
      | @cons _ pair _ pairs one reads =>
        obtain ⟨record, digest⟩ := pair
        obtain ⟨⟨type, typed, isClean⟩, cleanFrom⟩ := clean
        have verified := ((@verifyRecord_clean keyring lineNumber record p _ reading.digest before).mpr
          ⟨type, digest, one.2, typed, isClean, rfl⟩).1
        have rest := (cleanFrom_after typed isClean).mpr cleanFrom
        obtain ⟨q, others, ended⟩ := @ih (lineNumber + 1) (after (counted p) type record) pairs
          (issues_after.trans before) reads rest
        refine ⟨q, ?_, ended.cons typed⟩
        simp only [verifyFrom, one.1, verified, Option.bind_some]
        exact others

end Loop

/-! ## The verdict -/

/-- A checkpoint among clean events has a count. -/
theorem integer_of_clean {keyring : Keyring} {first : Bool} {previous : Option Str} {checkpoints : Checkpoints}
    {pairs : List (Record × Bytes)} (clean : CleanFrom keyring first previous checkpoints pairs) {newest : Option Record}
    (before : ∀ checkpoint, newest = some checkpoint → ∃ n, integer (item checkpoint "checkpoint_count") = some n) :
    ∀ checkpoint, (pairs.map Prod.fst).foldl noteNewest newest = some checkpoint →
      ∃ n, integer (item checkpoint "checkpoint_count") = some n := by
  induction pairs generalizing first previous checkpoints newest with
  | nil => exact before
  | cons pair pairs ih =>
    obtain ⟨record, digest⟩ := pair
    obtain ⟨⟨type, typed, isClean⟩, cleanFrom⟩ := clean
    apply ih cleanFrom
    intro checkpoint found
    unfold noteNewest at found
    split_ifs at found with isOne
    · cases found
      have shape := isClean.shape
      rw [(checkpoint_iff typed).mp isOne] at shape
      simp only [shapeIssues, Option.some.injEq, List.append_eq_nil_iff, issueIf_eq_nil, badCount] at shape
      cases count : integer (item record "checkpoint_count") with
      | none => simp [count] at shape
      | some n => exact ⟨n, rfl⟩
    · exact before checkpoint found

theorem numberOf_integer {runtime : Runtime} {v : Option Json} {n : Rat} (count : integer v = some n) :
    ∃ x, numberOf runtime v = some x ∧ ∀ total, below total x = decide ((total : Rat) < n) := by
  cases v with
  | none => cases count
  | some v =>
    cases v with
    | num x =>
      cases x with
      | finite d =>
        refine ⟨.finite d, rfl, ?_⟩
        simp only [integer] at count
        split_ifs at count
        cases count
        exact fun total => rfl
      | _ => cases count
    | _ => cases count

/-- `verifyLines` finds a journal valid exactly when each line is a clean event, and the newest checkpoint counts no
more events than there are. -/
theorem valid_iff {runtime : Runtime} {keyring : Keyring} {readings : List (Option Reading)} :
    (∃ r, verifyReadings runtime keyring readings = some r ∧ r.valid = true) ↔
      ∃ pairs, List.Forall₂ Reads readings.reduceOption pairs ∧ CleanFrom keyring true none [] pairs ∧
        Covered ((pairs.map Prod.fst).foldl noteNewest none) pairs.length := by
  have noCount : ∀ checkpoint, (none : Option Record) = some checkpoint →
      ∃ n, integer (item checkpoint "checkpoint_count") = some n := fun _ impossible => by cases impossible
  constructor
  · rintro ⟨r, verified, valid⟩
    obtain ⟨p, passed, verified⟩ := Option.bind_eq_some_iff.mp verified
    obtain ⟨truncated, ended, verified⟩ := Option.bind_eq_some_iff.mp verified
    cases verified
    simp only [List.isEmpty_iff, List.append_eq_nil_iff] at valid
    obtain ⟨none, rfl⟩ := valid
    obtain ⟨pairs, reads, clean, finished⟩ := verifyFrom_sound passed none
    refine ⟨pairs, reads, clean, ?_⟩
    intro checkpoint newest n count
    have found : p.newestCheckpoint = some checkpoint := finished.newest.trans newest
    obtain ⟨x, number, decides⟩ := @numberOf_integer runtime _ _ count
    simp only [truncation, found, number, Option.map_some, Option.some.injEq, issueIf_eq_nil, decides,
      decide_eq_false_iff_not, not_lt] at ended
    rwa [finished.total, show start.total = 0 from rfl, Nat.zero_add] at ended
  · rintro ⟨pairs, reads, clean, covered⟩
    obtain ⟨p, passed, finished⟩ := @verifyFrom_complete keyring readings 1 start pairs rfl reads clean
    have truncated : truncation runtime p = some [] := by
      unfold truncation
      rw [finished.newest]
      cases newest : (pairs.map Prod.fst).foldl noteNewest start.newestCheckpoint with
      | none => rfl
      | some checkpoint =>
        obtain ⟨n, count⟩ := integer_of_clean clean noCount checkpoint newest
        obtain ⟨x, number, decides⟩ := @numberOf_integer runtime _ _ count
        have few := covered checkpoint newest n count
        simp only [number, Option.map_some, Option.some.injEq, issueIf_eq_nil, decides, decide_eq_false_iff_not, not_lt,
          finished.total]
        rwa [show start.total = 0 from rfl, Nat.zero_add]
    refine ⟨⟨true, p.verified, []⟩, ?_, rfl⟩
    simp only [verifyReadings, passed, truncated, finished.issues, Option.bind_eq_bind, Option.bind_some, List.append_nil,
      List.isEmpty_nil]
    rfl

/-! ## Whether there is a verdict -/

/-- A value that `String` throws on. -/
inductive Textless : Json → Prop
  | own {members : Record} (named : (Members.get members (lit "toString")).isSome = true) : Textless (.obj members)
  | inside {items : List Json} {v : Json} (member : v ∈ items) (here : Textless v) : Textless (.arr items)

mutual

theorem stringOf_eq_none : ∀ v : Json, stringOf v = none ↔ Textless v
  | .null => by
    simp only [stringOf, reduceCtorEq, false_iff]
    intro textless
    cases textless
  | .bool b => by
    have some : stringOf (.bool b) ≠ none := by cases b <;> simp [stringOf]
    simp only [some, false_iff]
    intro textless
    cases textless
  | .num x => by
    simp only [stringOf, reduceCtorEq, false_iff]
    intro textless
    cases textless
  | .str s => by
    simp only [stringOf, reduceCtorEq, false_iff]
    intro textless
    cases textless
  | .arr items => by
    rw [stringOf, Option.map_eq_none_iff, joinItems_eq_none items]
    constructor
    · rintro ⟨v, member, here⟩
      exact .inside member here
    · intro textless
      cases textless with
      | inside member here => exact ⟨_, member, here⟩
  | .obj members => by
    rw [stringOf]
    constructor
    · intro none
      split_ifs at none with named
      exact .own named
    · intro textless
      cases textless with
      | own named => exact if_pos named

theorem joinItems_eq_none : ∀ items : List Json, joinItems items = none ↔ ∃ v ∈ items, Textless v
  | [] => by simp [joinItems]
  | v :: items => by
    have rest := joinItems_eq_none items
    have first := stringOf_eq_none v
    rw [List.exists_mem_cons_iff, ← rest, ← first]
    cases v with
    | null => simp [joinItems, stringOf]
    | _ =>
      rw [joinItems, Option.bind_eq_none_iff]
      · simp only [Option.map_eq_none_iff]
        cases found : stringOf _ <;> simp
      · simp

end

/-- The values of an event whose text is asked for: what a message about a wrong decision, status or resolution
shows, the id of a key that is unknown, and otherwise the signature. -/
inductive Asked (keyring : Keyring) (record : Record) (digest : Except Str Bytes) : Option Json → Prop
  | decision (typed : Typed .decision record) (allowed : isText (item record "decision") "allowed" = false)
      (denied : isText (item record "decision") "denied" = false) : Asked keyring record digest (item record "decision")
  | status (typed : Typed .outcome record) (succeeded : isText (item record "status") "succeeded" = false)
      (failed : isText (item record "status") "failed" = false) : Asked keyring record digest (item record "status")
  | resolution (typed : Typed .resolution record)
      (completed : isText (item record "resolution") "confirmed_completed" = false)
      (notCompleted : isText (item record "resolution") "confirmed_not_completed" = false) :
      Asked keyring record digest (item record "resolution")
  | key {type : EventType} {hashed : Bytes} (typed : Typed type record) (hash : digest = .ok hashed)
      (unknown : signerOf keyring record = none) : Asked keyring record digest (item record "key_id")
  | signature {type : EventType} {hashed : Bytes} {signer : VerifyKey} (typed : Typed type record)
      (hash : digest = .ok hashed) (known : signerOf keyring record = some signer) :
      Asked keyring record digest (item record "signature")

section Throws

variable {keyring : Keyring} {lineNumber : Nat} {first : Bool} {type : EventType} {record : Record} {p : Progress}
  {digest : Except Str Bytes}

/-- What is asked of an event is asked of one whose type is known, with the fields of its type. -/
theorem Asked.typed {v : Option Json} (asked : Asked keyring record digest v) : ∃ type, Typed type record := by
  cases asked with
  | decision typed => exact ⟨_, typed⟩
  | status typed => exact ⟨_, typed⟩
  | resolution typed => exact ⟨_, typed⟩
  | key typed => exact ⟨_, typed⟩
  | signature typed => exact ⟨_, typed⟩

end Throws

/-- The objects that the loop reads, up to a line that is none, each with what it is hashed to. -/
def objects : List (Option Reading) → List (Record × Except Str Bytes)
  | [] => []
  | none :: rest => objects rest
  | some reading :: rest =>
      match reading.parsed with
      | some (.obj record) => (record, reading.digest) :: objects rest
      | _ => []

end Tesera.TypeScript.Verdict
