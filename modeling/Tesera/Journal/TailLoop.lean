import Tesera.Journal.TailScan

/-!
The loop of `_read_last_event_hash`, pass by pass. It ends from every positive window: a pass that
does not answer leaves bytes before its window, and the next window is twice as long. What it
answers is what the last line of the file says.
-/

namespace Tesera.Journal.TailLoop
open Tesera.Text Tesera.Text.Unicode Tesera.Text.Lines
open Tesera.Python.Value Tesera.Journal.Record Tesera.Journal.Tail

/-- One pass of the loop: its answer, or none where it goes on with a window twice as long. -/
def pass (host : Host) (name : String) (content : Bytes) (window : Nat) : Option (Except PyError (Option Str)) :=
  let start := content.length - window
  let stripped := (content.drop start).rdropWhile isLineEnd
  if stripped = [] then
    -- nothing but trailing newlines in this window
    if start = 0 then some (.ok none) else none
  else if stripped.any isNewline then
    some ((eventHashFromLine host name (fragment stripped)).map some)
  else if start = 0 then
    -- the whole file is one line
    some ((eventHashFromLine host name stripped).map some)
  else none

variable (host : Host) (name : String) (content : Bytes)

/-- The loop, entered with a window, ends with an answer after so many passes. -/
inductive Ends : Nat → Nat → Except PyError (Option Str) → Prop
  | answered {window : Nat} {answer : Except PyError (Option Str)} (here : pass host name content window = some answer) :
      Ends window 1 answer
  | widened {window passes : Nat} {answer : Except PyError (Option Str)} (unanswered : pass host name content window = none)
      (later : Ends (2 * window) passes answer) : Ends window (passes + 1) answer

/-- `_read_last_event_hash` with any first window: an empty file is not read. -/
inductive Reads (window : Nat) : Except PyError (Option Str) → Prop
  | empty (nothing : content.length = 0) : Reads window (.ok none)
  | loop {passes : Nat} {answer : Except PyError (Option Str)} (some : content.length ≠ 0)
      (ends : Ends host name content window passes answer) : Reads window answer

/-- What the bytes after the last newline say, with the line ends at the end of the file removed. -/
def tailAnswer : Except PyError (Option Str) :=
  if content.rdropWhile isLineEnd = [] then .ok none
  else (eventHashFromLine host name (lastLine content)).map some

variable {host name content}

theorem readWindows_succ (fuel window : Nat) : readWindows host name content (fuel + 1) window =
    match pass host name content window with
    | some answer => answer
    | none => readWindows host name content fuel (2 * window) := by
  rw [readWindows, pass]
  split_ifs <;> rfl

/-- A pass that does not answer has left bytes unread. -/
theorem unread_of_pass {window : Nat} (unanswered : pass host name content window = none) : window < content.length := by
  by_contra covered
  have start : content.length - window = 0 := by omega
  rw [pass] at unanswered
  simp only [start, if_true] at unanswered
  split_ifs at unanswered

/-- Every pass but the last has a window shorter than the file, so there are no more of them than
doublings. -/
theorem Ends.passes_le {window passes : Nat} {answer : Except PyError (Option Str)}
    (ends : Ends host name content window passes answer) : passes = 1 ∨ 2 ^ (passes - 2) * window < content.length := by
  induction ends with
  | answered here => exact .inl rfl
  | @widened window passes answer unanswered later ih =>
    right
    have unread := unread_of_pass unanswered
    apply ih.elim
    · intro one
      rw [one]
      omega
    · intro bound
      have shape : passes - 1 = passes - 2 + 1 ∨ passes = 0 ∨ passes = 1 := by omega
      rw [show passes + 1 - 2 = passes - 1 by omega]
      rcases shape with next | zero | one
      · calc 2 ^ (passes - 1) * window = 2 ^ (passes - 2) * (2 * window) := by rw [next, pow_succ, mul_assoc]
          _ < content.length := bound
      · rw [zero]
        omega
      · rw [one]
        omega

/-- The fuelled loop follows the passes. -/
theorem Ends.readWindows_eq {window passes : Nat} {answer : Except PyError (Option Str)}
    (ends : Ends host name content window passes answer) (extra : Nat) :
    readWindows host name content (passes + extra) window = answer := by
  induction ends with
  | answered here => rw [Nat.add_comm 1 extra, readWindows_succ, here]
  | @widened window passes answer unanswered later ih =>
    rw [show passes + 1 + extra = passes + extra + 1 by omega, readWindows_succ, unanswered]
    exact ih

theorem Ends.positive {window passes : Nat} {answer : Except PyError (Option Str)}
    (ends : Ends host name content window passes answer) : 0 < passes := by
  cases ends with
  | answered here => exact Nat.one_pos
  | widened unanswered later => exact Nat.succ_pos _

/-- The part of the file before the window is the measure of the loop. -/
theorem ends_of_positive {window : Nat} (positive : 0 < window) : ∃ passes answer, Ends host name content window passes answer := by
  induction unread : content.length - window using Nat.strong_induction_on generalizing window with
  | _ measure ih =>
    cases here : pass host name content window with
    | some answer => exact ⟨1, answer, .answered here⟩
    | none =>
      have left := unread_of_pass here
      obtain ⟨passes, answer, later⟩ := ih (content.length - 2 * window) (by omega) (by omega) rfl
      exact ⟨passes + 1, answer, .widened here later⟩

theorem Ends.answer_eq {window passes : Nat} {answer : Except PyError (Option Str)} (positive : 0 < window)
    (ends : Ends host name content window passes answer) : answer = tailAnswer host name content := by
  have some := ends.positive
  have followed := ends.readWindows_eq (content.length + 1)
  rw [show passes + (content.length + 1) = passes + content.length + 1 by omega] at followed
  rw [← followed, tailAnswer]
  exact Tail.readWindows_eq host name content (passes + content.length) window (by omega) positive

/-- The read ends from every positive window, with the answer of the last line and no other, whatever
the window. -/
theorem tail_read_exact (host : Host) (name : String) (content : Bytes) (window : Nat) (positive : 0 < window)
    (answer : Except PyError (Option Str)) :
    Reads host name content window answer ↔ answer = tailAnswer host name content := by
  constructor
  · intro reads
    cases reads with
    | empty nothing =>
      rw [List.eq_nil_of_length_eq_zero nothing]
      rfl
    | loop some ends => exact ends.answer_eq positive
  · intro same
    by_cases nothing : content.length = 0
    · rw [same, List.eq_nil_of_length_eq_zero nothing]
      exact .empty rfl
    · obtain ⟨passes, found, ends⟩ := @ends_of_positive host name content window positive
      rw [same, ← ends.answer_eq positive]
      exact .loop nothing ends

/-- Three newlines, read from the last of them on. -/
theorem tail_read_exact_sample : Reads (.plain id (fun _ => none)) "journal" [10, 10, 10] 1 (.ok none) :=
  (tail_read_exact _ "journal" [10, 10, 10] 1 (by decide) (.ok none)).mpr rfl

end Tesera.Journal.TailLoop
