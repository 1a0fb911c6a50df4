import Tesera.Text.Unicode

/-!
Byte files read line by line. A line keeps its newline; what remains after the last
newline is the fragment, and it is a line too when the file does not end in a newline.
The records of a file are its lines without surrounding whitespace, the blank ones left
out.
-/

namespace Tesera.Text.Lines
open Tesera.Text.Unicode

def isNewline (b : UInt8) : Bool := b == 10

/-- The whitespace `bytes.strip()` removes. -/
def isSpace (b : UInt8) : Bool := b == 32 || (decide (9 ≤ b) && decide (b ≤ 13))

/-- Iterate a binary file: split after each newline. -/
def splitLines : Bytes → List Bytes
  | [] => []
  | b :: rest =>
      if isNewline b then [b] :: splitLines rest
      else
        match splitLines rest with
        | [] => [[b]]
        | line :: lines => (b :: line) :: lines

/-- `bytes.strip()`. -/
def strip (line : Bytes) : Bytes := (line.dropWhile isSpace).rdropWhile isSpace

def records (content : Bytes) : List Bytes :=
  ((splitLines content).map strip).filter (fun line => line ≠ [])

/-- What follows the last newline. -/
def fragment (content : Bytes) : Bytes := content.rtakeWhile (fun b => !isNewline b)

/-- The complete lines. -/
def complete (content : Bytes) : Bytes := content.rdropWhile (fun b => !isNewline b)

theorem complete_append_fragment (content : Bytes) : complete content ++ fragment content = content :=
  List.rdropWhile_append_rtakeWhile

theorem not_newline_of_mem_fragment {content : Bytes} {b : UInt8} (member : b ∈ fragment content) :
    isNewline b = false := by
  simpa using List.mem_rtakeWhile_imp member

/-- The complete lines are empty or end in a newline. -/
def Terminated (content : Bytes) : Prop := ∀ b ∈ content.getLast?, isNewline b = true

theorem terminated_complete (content : Bytes) : Terminated (complete content) := by
  intro b last
  have nonempty : complete content ≠ [] := by
    intro empty
    rw [empty] at last
    cases last
  have stopped := List.rdropWhile_last_not (fun b => !isNewline b) content nonempty
  rw [List.getLast?_eq_some_getLast nonempty, Option.mem_def, Option.some.injEq] at last
  subst last
  unfold complete
  simpa using stopped

theorem splitLines_append {content : Bytes} (terminated : Terminated content) (more : Bytes) :
    splitLines (content ++ more) = splitLines content ++ splitLines more := by
  induction content with
  | nil => rfl
  | cons b rest ih =>
    by_cases newline : isNewline b = true
    · have tail : Terminated rest := by
        intro c last
        cases rest with
        | nil => cases last
        | cons d rest => exact terminated c (by simpa using last)
      simp only [List.cons_append, splitLines, if_pos newline, ih tail]
    · cases rest with
      | nil => exact absurd (terminated b (by simp)) newline
      | cons d rest =>
        have tail : Terminated (d :: rest) := fun c last => terminated c (by simpa using last)
        have shape : ∃ line lines, splitLines (d :: rest) = line :: lines := by
          unfold splitLines
          split_ifs
          · exact ⟨_, _, rfl⟩
          · cases splitLines rest <;> exact ⟨_, _, rfl⟩
        obtain ⟨line, lines, split⟩ := shape
        have whole := ih tail
        rw [split] at whole
        rw [List.cons_append, splitLines, if_neg newline, whole, splitLines, if_neg newline, split]
        rfl

theorem splitLines_of_no_newline {line : Bytes} (plain : ∀ b ∈ line, isNewline b = false)
    (nonempty : line ≠ []) : splitLines line = [line] := by
  induction line with
  | nil => exact absurd rfl nonempty
  | cons b rest ih =>
    have first : ¬ isNewline b = true := by simp [plain b List.mem_cons_self]
    cases rest with
    | nil => simp only [splitLines, if_neg first]
    | cons c rest =>
      have tail := ih (fun d member => plain d (List.mem_cons_of_mem b member)) (by simp)
      rw [splitLines, if_neg first, tail]

theorem splitLines_line {line : Bytes} (plain : ∀ b ∈ line, isNewline b = false) :
    splitLines (line ++ [10]) = [line ++ [10]] := by
  induction line with
  | nil => rfl
  | cons b rest ih =>
    have first : ¬ isNewline b = true := by simp [plain b List.mem_cons_self]
    have tail := ih (fun d member => plain d (List.mem_cons_of_mem b member))
    rw [List.cons_append, splitLines, if_neg first, tail]

/-! ## Whitespace -/

def Blank (line : Bytes) : Prop := ∀ b ∈ line, isSpace b = true

instance (line : Bytes) : Decidable (Blank line) := List.decidableBAll (fun b => isSpace b = true) line

theorem blank_nil : Blank [] := List.forall_mem_nil _

theorem strip_eq_nil {line : Bytes} : strip line = [] ↔ Blank line := by
  unfold strip
  rw [List.rdropWhile_eq_nil_iff]
  constructor
  · intro spaces b member
    have split := List.takeWhile_append_dropWhile (p := isSpace) (l := line)
    rw [← split] at member
    rcases List.mem_append.mp member with inside | inside
    · exact List.mem_takeWhile_imp inside
    · exact spaces b inside
  · intro blank b member
    exact blank b ((List.dropWhile_sublist isSpace).mem member)

theorem strip_append_space {line : Bytes} {space : Bytes} (blank : Blank space) :
    strip (line ++ space) = strip line := by
  induction space using List.reverseRecOn with
  | nil => rw [List.append_nil]
  | append_singleton space b ih =>
    have inner : Blank space := fun c member => blank c (List.mem_append_left _ member)
    have last : isSpace b = true := blank b (by simp)
    rw [← List.append_assoc, ← ih inner]
    unfold strip
    by_cases some : (line ++ space).dropWhile isSpace = []
    · have spaces := List.dropWhile_eq_nil_iff.mp some
      have all : ((line ++ space) ++ [b]).dropWhile isSpace = [] := by
        rw [List.dropWhile_eq_nil_iff]
        intro c member
        rcases List.mem_append.mp member with inside | inside
        · exact spaces c inside
        · simpa only [List.mem_singleton.mp inside] using last
      rw [some, all]
    · rw [List.dropWhile_append, if_neg (by simpa using some), List.rdropWhile_concat_pos _ _ _ last]

theorem strip_space_append {line : Bytes} {space : Bytes} (blank : Blank space) :
    strip (space ++ line) = strip line := by
  unfold strip
  rw [List.dropWhile_append_of_pos blank]

/-- A line whose first and last bytes are not whitespace. -/
structure Solid (line : Bytes) : Prop where
  plain : ∀ b ∈ line, isNewline b = false
  nonempty : line ≠ []
  stripped : strip line = line

theorem flatten_splitLines (content : Bytes) : (splitLines content).flatten = content := by
  induction content with
  | nil => rfl
  | cons b rest ih =>
    unfold splitLines
    split_ifs with newline
    · simp [ih]
    · split
      next none =>
        rw [none] at ih
        simp [← ih]
      next line lines some =>
        rw [some] at ih
        simpa using ih

theorem records_of_blank {space : Bytes} (blank : Blank space) : records space = [] := by
  rw [records, List.filter_eq_nil_iff]
  intro line member
  obtain ⟨raw, found, rfl⟩ := List.mem_map.mp member
  have inside : Blank raw := by
    intro b here
    apply blank
    rw [← flatten_splitLines space]
    exact List.mem_flatten.mpr ⟨raw, found, here⟩
  simp [strip_eq_nil.mpr inside]

theorem records_append {content : Bytes} (terminated : Terminated content) (more : Bytes) :
    records (content ++ more) = records content ++ records more := by
  simp only [records, splitLines_append terminated, List.map_append, List.filter_append]

theorem records_split (content : Bytes) :
    records content = records (complete content) ++ records (fragment content) := by
  conv_lhs => rw [← complete_append_fragment content]
  exact records_append (terminated_complete content) (fragment content)

/-- Whitespace after a line, newlines included, adds no record. -/
theorem records_line_blank {line space : Bytes} (plain : ∀ b ∈ line, isNewline b = false)
    (kept : ¬ Blank line) (blank : Blank space) : records (line ++ space) = [strip line] := by
  have nonempty : line ≠ [] := fun empty => kept (empty ▸ blank_nil)
  have stripped : strip line ≠ [] := fun empty => kept (strip_eq_nil.mp empty)
  have split := List.takeWhile_append_dropWhile (p := fun b => !isNewline b) (l := space)
  have firstPlain : ∀ b ∈ line ++ space.takeWhile (fun b => !isNewline b), isNewline b = false := by
    intro b member
    rcases List.mem_append.mp member with inside | inside
    · exact plain b inside
    · simpa using List.mem_takeWhile_imp inside
  have firstBlank : Blank (space.takeWhile (fun b => !isNewline b)) :=
    fun b member => blank b ((List.takeWhile_sublist _).mem member)
  cases rest : space.dropWhile (fun b => !isNewline b) with
  | nil =>
    rw [rest, List.append_nil] at split
    rw [← split, records, splitLines_of_no_newline firstPlain (by simp [nonempty]), List.map_singleton,
      strip_append_space firstBlank, List.filter_cons_of_pos (by simpa using stripped), List.filter_nil]
  | cons b after =>
    have newline : b = 10 := by
      have stopped := List.head?_dropWhile_not (fun b => !isNewline b) space
      rw [rest, List.head?_cons] at stopped
      simpa [isNewline] using stopped
    subst newline
    rw [rest] at split
    have afterBlank : Blank after := by
      intro b member
      apply blank
      rw [← split]
      exact List.mem_append_right _ (List.mem_cons_of_mem 10 member)
    have terminated : Terminated ((line ++ space.takeWhile (fun b => !isNewline b)) ++ [10]) := by
      intro b last
      rw [List.getLast?_concat, Option.mem_def, Option.some.injEq] at last
      subst last
      rfl
    have newlineBlank : Blank [10] := by decide
    have shape : line ++ space =
        ((line ++ space.takeWhile (fun b => !isNewline b)) ++ [10]) ++ after := by
      conv_lhs => rw [← split]
      simp
    rw [shape, records_append terminated, records_of_blank afterBlank, List.append_nil, records,
      splitLines_line firstPlain, List.map_singleton, strip_append_space newlineBlank,
      strip_append_space firstBlank, List.filter_cons_of_pos (by simpa using stripped), List.filter_nil]

/-- The file after a line and a newline are written at its end. -/
theorem records_written (content : Bytes) {line : Bytes} (solid : Solid line) :
    records (content ++ (line ++ [10])) =
      records (complete content) ++ [strip (fragment content ++ line)] := by
  have plain : ∀ b ∈ fragment content ++ line, isNewline b = false := by
    intro b member
    rcases List.mem_append.mp member with inside | inside
    · exact not_newline_of_mem_fragment inside
    · exact solid.plain b inside
  have last : records ((fragment content ++ line) ++ [10]) = [strip (fragment content ++ line)] := by
    have space : Blank [10] := by decide
    have kept : strip (fragment content ++ line) ≠ [] := by
      intro empty
      have blank := strip_eq_nil.mp empty
      have lineBlank : Blank line := fun b member => blank b (List.mem_append_right _ member)
      exact solid.nonempty (solid.stripped.symm.trans (strip_eq_nil.mpr lineBlank))
    rw [records, splitLines_line plain, List.map_singleton, strip_append_space space,
      List.filter_cons_of_pos (by simpa using kept), List.filter_nil]
  conv_lhs => rw [← complete_append_fragment content]
  rw [List.append_assoc, records_append (terminated_complete content), ← List.append_assoc, last]

/-- On a blank fragment the line becomes a record of its own. -/
theorem records_written_of_blank {content line : Bytes} (solid : Solid line)
    (blank : Blank (fragment content)) :
    records (content ++ (line ++ [10])) = records content ++ [line] := by
  rw [records_written content solid, strip_space_append blank, solid.stripped, records_split content,
    records_of_blank blank, List.append_nil]

/-- On any other fragment the line joins the last record. -/
theorem length_records_written {content line : Bytes} (solid : Solid line)
    (glued : ¬ Blank (fragment content)) :
    (records (content ++ (line ++ [10]))).length = (records content).length := by
  have nonempty : fragment content ≠ [] := by
    intro empty
    exact glued (empty ▸ blank_nil)
  have one : records (fragment content) = [strip (fragment content)] := by
    have kept : strip (fragment content) ≠ [] := fun empty => glued (strip_eq_nil.mp empty)
    simp [records, splitLines_of_no_newline (fun b member => not_newline_of_mem_fragment member)
      nonempty, kept]
  rw [records_written content solid, records_split content, one]
  simp

end Tesera.Text.Lines
