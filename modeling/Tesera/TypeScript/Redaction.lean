import Tesera.Redaction.Lookalikes
import Tesera.Text.Placement

/-!
Sensitive names in the TypeScript port, against the Python ones. The port drops every mark,
also those without a combining class, and puts the lower case of a letter for its case folding.
-/

namespace Tesera.TypeScript.Redaction
open Tesera.Text.Unicode Tesera.Text.Normalization Tesera.Text.Placement Tesera.Redaction.Names Tesera.Redaction.Lookalikes

/-- Character data, with what `toLowerCase` and `\p{M}` read. -/
structure ScriptData extends CharacterData where
  lower : Nat → Str
  isMark : Nat → Bool
  isCased : Nat → Bool
  isCaseIgnorable : Nat → Bool

variable (data : ScriptData)

/-- Whether the first of these characters that is not ignorable is cased. -/
def meetsCased (text : Str) : Bool := (text.dropWhile data.isCaseIgnorable).head?.any data.isCased

/-- The lower case of a character with the characters around it, those before it backwards: a
sigma at the end of a word has a form of its own. -/
def lowerAt (before : Str) (c : Nat) (rest : Str) : Str :=
  if c = 0x3A3 then if meetsCased data before && !meetsCased data rest then [0x3C2] else [0x3C3]
  else data.lower c

def lowerFrom (before : Str) : Str → Str
  | [] => []
  | c :: rest => lowerAt data before c rest ++ lowerFrom (c :: before) rest

/-- `String.prototype.toLowerCase`. -/
def toLowerCase (text : Str) : Str := lowerFrom data [] text

/-- `replace(/ß/g, "ss")`, at one character. -/
def sharpS (c : Nat) : Str := if c = 0xDF then lit "ss" else [c]

/-- `foldName`. The table of confusables is that of Python. -/
def foldName (name : Str) : Str :=
  let composed := nfkc data.tables name
  let transliterated := composed.map transliterate
  let stripped := (nfd data.tables transliterated).filter (fun c => !data.isMark c)
  (toLowerCase data stripped).flatMap sharpS

/-- The set of `guard`: the built-in names and `options.redact`. -/
def sensitiveSet (redact : List Str) : List Str := sensitiveNames ++ redact.map (foldName data)

/-- `isSensitiveName`. -/
def isSensitiveName (name : Str) (sensitive : List Str) : Bool := sensitive.contains (foldName data name)

/-! ## What the two drop and keep -/

/-- A name in the form that both runtimes strip of marks. -/
def decomposed (name : Str) : Str := nfd data.tables ((nfkc data.tables name).map transliterate)

def plainLetters (name : Str) : Str := (decomposed data name).filter (fun c => !data.isMark c)

/-- The letters of a name, without any mark and case folded. -/
def letters (name : Str) : Str := (plainLetters data name).flatMap data.casefold

def letterImage (c : Nat) : Str := if data.isMark c then [] else data.casefold c

/-- A mark that has no combining class. -/
def isSpacingMark (c : Nat) : Bool := data.isMark c && isStarter data.tables c

/-- These marks of a name, each with the number of letters before it. -/
def spacingMarks (name : Str) : List (Nat × Nat) := places (letterImage data) (isSpacingMark data) 0 (decomposed data name)

/-- The letters whose lower case is not their case folding, in lower case, each with the number
of letters before it. -/
def variantsFrom (i : Nat) (before : Str) : Str → List (Nat × Str)
  | [] => []
  | c :: rest =>
      let lowered := (lowerAt data before c rest).flatMap sharpS
      if lowered = data.casefold c then variantsFrom (i + (data.casefold c).length) (c :: before) rest
      else (i, lowered) :: variantsFrom (i + (data.casefold c).length) (c :: before) rest

def caseVariants (name : Str) : List (Nat × Str) := variantsFrom data 0 [] (plainLetters data name)

/-- Among these names, either one has the letters and the spacing marks of the name, and one its
letters and case variants, or there is neither. -/
def Alike (names : List Str) (name : Str) : Prop :=
  (∃ known ∈ names, letters data known = letters data name ∧ caseVariants data known = caseVariants data name) ↔
    ∃ known ∈ names, letters data known = letters data name ∧ spacingMarks data known = spacingMarks data name

/-- What the standard says of characters that are not decomposed. -/
structure CaseData : Prop where
  standard : Standard data.toCharacterData
  decomposed : ∀ c, ∀ d ∈ data.tables.canonical c, data.tables.canonical d = [d]
  combining : ∀ c, data.tables.combining c ≠ 0 → data.isMark c = true
  mark : ∀ c, data.isMark c = true → data.tables.combining c = 0 → data.casefold c = [c]
  unmarked : ∀ c, data.tables.canonical c = [c] → data.isMark c = false → ∀ d ∈ data.casefold c, data.isMark d = false
  folded : ∀ c, data.tables.canonical c = [c] → data.isMark c = false → ∀ d ∈ data.casefold c, data.casefold d = [d]
  lower : ∀ c, data.tables.canonical c = [c] → data.isMark c = false → c ≠ 0x3A3 →
    ((data.lower c).flatMap sharpS).flatMap data.casefold = data.casefold c
  variant : ∀ c, data.tables.canonical c = [c] → data.isMark c = false → c ≠ 0x3A3 →
    (data.lower c).flatMap sharpS ≠ data.casefold c → ∃ d, (data.lower c).flatMap sharpS = [d]
  sigma : data.casefold 0x3A3 = [0x3C3]
  small_sigma : data.casefold 0x3C3 = [0x3C3]
  final_sigma : data.casefold 0x3C2 = [0x3C3]
  ascii_mark : ∀ c < 0x80, data.isMark c = false
  ascii_lower : ∀ c < 0x80, data.lower c = [asciiLower c]

variable {data}

theorem foldName_eq (name : Str) : foldName data name = (lowerFrom data [] (plainLetters data name)).flatMap sharpS := rfl

theorem python_foldName_eq (name : Str) : Tesera.Redaction.Names.foldName data.toCharacterData name =
    ((decomposed data name).filter (isStarter data.tables)).flatMap data.casefold := rfl

/-- Every character there is decomposed. -/
theorem canonical_decomposed (cases : CaseData data) {name : Str} {c : Nat} (found : c ∈ decomposed data name) :
    data.tables.canonical c = [c] := by
  have member := (order_perm _).mem_iff.mp found
  obtain ⟨d, _, inside⟩ := List.mem_flatMap.mp member
  exact cases.decomposed d c inside

/-! ## Python keeps spacing marks -/

/-- What is folded, read back: marks are dropped, and letters are themselves. -/
def foldedImage (data : ScriptData) (c : Nat) : Str := if data.isMark c then [] else [c]

theorem folded_image (cases : CaseData data) {text : Str} (stable : ∀ c ∈ text, data.tables.canonical c = [c]) :
    ((text.filter (isStarter data.tables)).flatMap data.casefold).flatMap (foldedImage data) = text.flatMap (letterImage data) ∧
      ∀ i, places (foldedImage data) data.isMark i ((text.filter (isStarter data.tables)).flatMap data.casefold) =
        places (letterImage data) (isSpacingMark data) i text := by
  induction text with
  | nil => exact ⟨rfl, fun _ => rfl⟩
  | cons c rest ih =>
    obtain ⟨images, marks⟩ := ih (fun d found => stable d (List.mem_cons_of_mem c found))
    by_cases mark : data.isMark c = true
    · have nothing : letterImage data c = [] := if_pos mark
      by_cases starter : isStarter data.tables c = true
      · -- a mark without a combining class is kept as it is
        have alone := cases.mark c mark (isStarter_iff.mp starter)
        have dropped : foldedImage data c = [] := if_pos mark
        have spacing : isSpacingMark data c = true := by simp [isSpacingMark, mark, starter]
        rw [List.filter_cons_of_pos starter, List.flatMap_cons, alone, List.singleton_append]
        constructor
        · rw [List.flatMap_cons, dropped, List.flatMap_cons, nothing, images]
        · intro i
          rw [places_cons_pos mark, places_cons_pos spacing, dropped, nothing, marks]
      · have stacked : isSpacingMark data c = false := by simp [isSpacingMark, starter]
        rw [List.filter_cons_of_neg starter]
        constructor
        · rw [List.flatMap_cons, nothing, images, List.nil_append]
        · intro i
          rw [places_cons_neg stacked, nothing, marks]
          rfl
    · have letter : data.isMark c = false := by simpa using mark
      have starter : isStarter data.tables c = true := by
        by_contra other
        exact mark (cases.combining c (fun zero => other (isStarter_iff.mpr zero)))
      have image : letterImage data c = data.casefold c := if_neg mark
      have unmarked := cases.unmarked c (stable c List.mem_cons_self) letter
      have same : (data.casefold c).flatMap (foldedImage data) = data.casefold c := by
        have own : (data.casefold c).flatMap (foldedImage data) = (data.casefold c).flatMap (fun d => [d]) := by
          apply List.flatMap_congr
          intro d found
          exact if_neg (by simp [unmarked d found])
        rw [own]
        exact List.flatMap_singleton' _
      have spacing : isSpacingMark data c = false := by simp [isSpacingMark, letter]
      rw [List.filter_cons_of_pos starter, List.flatMap_cons]
      constructor
      · rw [List.flatMap_append, same, List.flatMap_cons, image, images]
      · intro i
        rw [places_append, places_eq_nil unmarked, List.nil_append, same, places_cons_neg spacing, image, marks]

theorem flatMap_letterImage (text : Str) :
    text.flatMap (letterImage data) = (text.filter (fun c => !data.isMark c)).flatMap data.casefold := by
  induction text with
  | nil => rfl
  | cons c rest ih =>
    rw [List.flatMap_cons, ih]
    by_cases mark : data.isMark c = true
    · rw [List.filter_cons_of_neg (by simp [mark]), letterImage, if_pos mark, List.nil_append]
    · rw [List.filter_cons_of_pos (by simp [mark]), letterImage, if_neg mark, List.flatMap_cons]

/-- The Python readings of two names are the same when their letters and spacing marks are. -/
theorem python_fold_eq_iff (cases : CaseData data) (left right : Str) :
    Tesera.Redaction.Names.foldName data.toCharacterData left = Tesera.Redaction.Names.foldName data.toCharacterData right ↔
      letters data left = letters data right ∧ spacingMarks data left = spacingMarks data right := by
  have own : ∀ c, data.isMark c = false → foldedImage data c = [c] := fun c unmarked => if_neg (by simp [unmarked])
  have stable : ∀ name, ∀ c ∈ decomposed data name, data.tables.canonical c = [c] :=
    fun _ _ found => canonical_decomposed cases found
  have of_left := folded_image cases (stable left)
  have of_right := folded_image cases (stable right)
  rw [eq_iff_places own, python_foldName_eq, python_foldName_eq, of_left.1, of_left.2 0, of_right.1, of_right.2 0,
    flatMap_letterImage, flatMap_letterImage]
  rfl

/-! ## The port keeps case variants -/

/-- What is lower-cased folds as the letter does, and is another spelling of the folded one only
when it is a letter of its own. -/
theorem lowerAt_cases (cases : CaseData data) {c : Nat} (stable : data.tables.canonical c = [c]) (letter : data.isMark c = false)
    (before rest : Str) :
    ((lowerAt data before c rest).flatMap sharpS).flatMap data.casefold = data.casefold c ∧
      ((lowerAt data before c rest).flatMap sharpS ≠ data.casefold c →
        ∃ d, (lowerAt data before c rest).flatMap sharpS = [d] ∧ data.casefold d ≠ [d]) := by
  by_cases sigma : c = 0x3A3
  · have which : lowerAt data before c rest = [0x3C2] ∨ lowerAt data before c rest = [0x3C3] := by
      rw [lowerAt, if_pos sigma]
      split_ifs
      · exact .inl rfl
      · exact .inr rfl
    have own : ∀ d, d ≠ 0xDF → [d].flatMap sharpS = [d] := by
      intro d other
      simp [sharpS, other]
    apply which.elim
    · intro last
      rw [last, own _ (by decide), sigma, cases.sigma]
      refine ⟨by simp [cases.final_sigma], fun _ => ⟨0x3C2, rfl, ?_⟩⟩
      rw [cases.final_sigma]
      decide
    · intro small
      rw [small, own _ (by decide), sigma, cases.sigma]
      exact ⟨by simp [cases.small_sigma], fun other => absurd rfl other⟩
  · have lowered : lowerAt data before c rest = data.lower c := if_neg sigma
    rw [lowered]
    have folds := cases.lower c stable letter sigma
    refine ⟨folds, fun other => ?_⟩
    obtain ⟨d, single⟩ := cases.variant c stable letter sigma other
    refine ⟨d, single, fun same => other ?_⟩
    rw [single, List.flatMap_singleton, same] at folds
    rw [single, folds]

/-- A letter of the port that case folding changes. -/
def isVariant (data : ScriptData) (c : Nat) : Bool := decide (data.casefold c ≠ [c])

theorem lowered_image (cases : CaseData data) {text : Str} (before : Str)
    (stable : ∀ c ∈ text, data.tables.canonical c = [c] ∧ data.isMark c = false) :
    ((lowerFrom data before text).flatMap sharpS).flatMap data.casefold = text.flatMap data.casefold ∧
      ∀ i, variantsFrom data i before text =
        (places data.casefold (isVariant data) i ((lowerFrom data before text).flatMap sharpS)).map
          (fun place => (place.1, [place.2])) := by
  induction text generalizing before with
  | nil => exact ⟨rfl, fun _ => rfl⟩
  | cons c rest ih =>
    obtain ⟨images, variants⟩ := ih (c :: before) (fun d found => stable d (List.mem_cons_of_mem c found))
    have here := stable c List.mem_cons_self
    obtain ⟨folds, own⟩ := lowerAt_cases cases here.1 here.2 before rest
    rw [lowerFrom, List.flatMap_append]
    constructor
    · rw [List.flatMap_append, folds, images, List.flatMap_cons]
    · intro i
      rw [places_append, folds, List.map_append, variantsFrom]
      by_cases same : (lowerAt data before c rest).flatMap sharpS = data.casefold c
      · have none : ∀ d ∈ (lowerAt data before c rest).flatMap sharpS, isVariant data d = false := by
          intro d found
          have fixed := cases.folded c here.1 here.2 d (same ▸ found)
          simp [isVariant, fixed]
        rw [if_pos same, places_eq_nil none, variants]
        rfl
      · obtain ⟨d, single, changes⟩ := own same
        have kept : isVariant data d = true := by simp [isVariant, changes]
        rw [if_neg same, variants, single, places_cons_pos kept]
        rfl

/-- The readings of two names in the port are the same when their letters and case variants are. -/
theorem script_fold_eq_iff (cases : CaseData data) (left right : Str) :
    foldName data left = foldName data right ↔
      letters data left = letters data right ∧ caseVariants data left = caseVariants data right := by
  have own : ∀ c, isVariant data c = false → data.casefold c = [c] := by
    intro c same
    simpa [isVariant] using same
  have stable : ∀ name, ∀ c ∈ plainLetters data name, data.tables.canonical c = [c] ∧ data.isMark c = false := by
    intro name c found
    obtain ⟨inside, letter⟩ := List.mem_filter.mp found
    exact ⟨canonical_decomposed cases inside, by simpa using letter⟩
  have of_left := lowered_image cases [] (stable left)
  have of_right := lowered_image cases [] (stable right)
  have injective : Function.Injective (fun place : Nat × Nat => (place.1, [place.2])) := by
    intro place other same
    simpa [Prod.ext_iff] using same
  rw [foldName_eq, foldName_eq, eq_iff_places own, of_left.1, of_right.1, letters, letters, caseVariants, caseVariants,
    of_left.2 0, of_right.2 0, (List.map_injective_iff.mpr injective).eq_iff]

/-! ## The two sets -/

theorem decomposed_ascii (cases : CaseData data) {name : Str} (ascii : ∀ c ∈ name, c < 0x80) : decomposed data name = name := by
  have standard := cases.standard
  have unknown : ∀ c ∈ name, transliterate c = c := by
    intro c found
    rw [transliterate]
    cases table : confusable c with
    | none => rfl
    | some letter =>
      have wide := not_ascii c (lookalike_of_confusable table)
      have := ascii c found
      omega
  have composed : nfkc data.tables name = name :=
    nfkc_apart (fun c found => standard.apart c (.inl (ascii c found))) (fun c found => standard.ascii_compatible c (ascii c found))
  have own : name.flatMap data.tables.canonical = name := by
    calc name.flatMap data.tables.canonical = name.flatMap (fun c => [c]) :=
          List.flatMap_congr (fun c found => standard.ascii_canonical c (ascii c found))
      _ = name := List.flatMap_singleton' name
  have same : name.map transliterate = name := by
    calc name.map transliterate = name.map id := List.map_congr_left unknown
      _ = name := List.map_id name
  rw [decomposed, composed, same, nfd, own]
  exact order_starters (fun c found => (standard.apart c (.inl (ascii c found))).1)

theorem lowerFrom_ascii (cases : CaseData data) {text : Str} (ascii : ∀ c ∈ text, c < 0x80) (before : Str) :
    (lowerFrom data before text).flatMap sharpS = text.map asciiLower := by
  induction text generalizing before with
  | nil => rfl
  | cons c rest ih =>
    have narrow := ascii c List.mem_cons_self
    have lowered : lowerAt data before c rest = [asciiLower c] := by
      rw [lowerAt, if_neg (by omega), cases.ascii_lower c narrow]
    have unsharp : asciiLower c ≠ 0xDF := by
      rw [asciiLower]
      split_ifs <;> omega
    rw [lowerFrom, List.flatMap_append, lowered, ih (fun d found => ascii d (List.mem_cons_of_mem c found)), List.flatMap_singleton,
      sharpS, if_neg unsharp, List.map_cons, List.singleton_append]

theorem sensitiveNames_ascii : ∀ known ∈ sensitiveNames, (∀ c ∈ known, c < 0x80) ∧ known.map asciiLower = known := by
  decide +kernel

/-- A built-in name folds to itself in both. -/
theorem fold_builtin (cases : CaseData data) {known : Str} (member : known ∈ sensitiveNames) :
    foldName data known = known ∧ Tesera.Redaction.Names.foldName data.toCharacterData known = known := by
  obtain ⟨ascii, lower⟩ := sensitiveNames_ascii known member
  constructor
  · have unmarked : known.filter (fun c => !data.isMark c) = known := by
      apply List.filter_eq_self.mpr
      intro c found
      simp [cases.ascii_mark c (ascii c found)]
    rw [foldName_eq, plainLetters, decomposed_ascii cases ascii, unmarked, lowerFrom_ascii cases ascii, lower]
  · exact (fold_ascii cases.standard ascii).trans lower

/-- A set of folded names has those of the names. -/
theorem mem_folded {fold : Str → Str} {names extras : List Str} {text : Str} (fixed : ∀ known ∈ names, fold known = known) :
    (text ∈ names ∨ ∃ raw ∈ extras, fold raw = text) ↔ ∃ known ∈ names ++ extras, fold known = text := by
  constructor
  · intro either
    apply either.elim
    · intro member
      exact ⟨text, List.mem_append_left _ member, fixed text member⟩
    · intro found
      obtain ⟨raw, member, same⟩ := found
      exact ⟨raw, List.mem_append_right _ member, same⟩
  · intro found
    obtain ⟨known, member, same⟩ := found
    apply (List.mem_append.mp member).imp
    · intro builtin
      rwa [← same, fixed known builtin]
    · intro extra
      exact ⟨known, extra, same⟩

theorem script_sensitive_iff (cases : CaseData data) {redact : List Str} {name : Str} :
    isSensitiveName data name (sensitiveSet data redact) = true ↔
      ∃ known ∈ sensitiveNames ++ redact, letters data known = letters data name ∧ caseVariants data known = caseVariants data name := by
  have member : isSensitiveName data name (sensitiveSet data redact) = true ↔
      foldName data name ∈ sensitiveNames ∨ ∃ raw ∈ redact, foldName data raw = foldName data name := by
    rw [isSensitiveName, List.contains_iff_mem, sensitiveSet, List.mem_append, List.mem_map]
  rw [member, mem_folded (fun known found => (fold_builtin cases found).1)]
  simp only [script_fold_eq_iff cases]

theorem python_sensitive_iff (cases : CaseData data) {repr : Str → Str} {redact sensitive : List Str} {name : Str}
    (built : buildSensitiveSet data.toCharacterData repr (some (redact.map .str)) = .ok sensitive) :
    Tesera.Redaction.Names.isSensitiveName data.toCharacterData name sensitive = true ↔
      ∃ known ∈ sensitiveNames ++ redact, letters data known = letters data name ∧ spacingMarks data known = spacingMarks data name := by
  have member : Tesera.Redaction.Names.isSensitiveName data.toCharacterData name sensitive = true ↔
      Tesera.Redaction.Names.foldName data.toCharacterData name ∈ sensitiveNames ∨
        ∃ raw ∈ redact, Tesera.Redaction.Names.foldName data.toCharacterData raw =
          Tesera.Redaction.Names.foldName data.toCharacterData name := by
    rw [isSensitiveName_iff, mem_buildSensitiveSet built]
    simp
  rw [member, mem_folded (fun known found => (fold_builtin cases found).2)]
  simp only [python_fold_eq_iff cases]

/-- The port and Python agree on a name exactly when the sensitive names with its letters
are alike in spacing marks and in case variants. -/
theorem names_agree_iff (data : ScriptData) (cases : CaseData data) (repr : Str → Str) (redact sensitive : List Str)
    (built : buildSensitiveSet data.toCharacterData repr (some (redact.map .str)) = .ok sensitive) (name : Str) :
    (isSensitiveName data name (sensitiveSet data redact) = true ↔
        Tesera.Redaction.Names.isSensitiveName data.toCharacterData name sensitive = true) ↔
      Alike data (sensitiveNames ++ redact) name := by
  rw [script_sensitive_iff cases, python_sensitive_iff cases built]
  rfl

/-- Names without spacing marks and without case variants are alike. -/
theorem alike_of_plain {names : List Str} {name : Str}
    (plain : ∀ known, known ∈ name :: names → spacingMarks data known = [] ∧ caseVariants data known = []) :
    Alike data names name := by
  have own := plain name List.mem_cons_self
  have others := fun known member => plain known (List.mem_cons_of_mem name member)
  constructor
  · intro found
    obtain ⟨known, member, same, _⟩ := found
    exact ⟨known, member, same, by rw [(others known member).1, own.1]⟩
  · intro found
    obtain ⟨known, member, same, _⟩ := found
    exact ⟨known, member, same, by rw [(others known member).2, own.2]⟩

/-! ## A variation selector -/

/-- Letters that case folding changes and `toLowerCase` does not. -/
def sampleSmall : Str := [0xB5, 0xDF, 0x3C2, 0x3F0, 0x3F1, 0x3F5, 0x1C80]

/-- The character data for some composites, an acute, a diaeresis and U+FE0F. -/
def sampleScript : ScriptData where
  toCharacterData := sampleData
  lower c := if c ∈ sampleSmall then [c] else [sampleCasefold c]
  isMark c := c == 0x301 || c == 0x308 || c == 0xFE0F
  isCased c := (0x41 ≤ c && c ≤ 0x5A) || (0x61 ≤ c && c ≤ 0x7A) || (0x391 ≤ c && c ≤ 0x3F5) || (0x400 ≤ c && c ≤ 0x45F)
  isCaseIgnorable c := c == 0x27 || c == 0x2E || c == 0x301 || c == 0x308 || c == 0xFE0F

theorem sampleFolds_own : ∀ entry ∈ sampleFolds, sampleCasefold entry.2 = entry.2 ∧ entry.2 ≠ 0xDF ∧
    sampleScript.isMark entry.2 = false := by
  decide +kernel

/-- What is folded folds to itself, and is no mark. -/
theorem sampleCasefold_cases (c : Nat) : sampleCasefold (sampleCasefold c) = sampleCasefold c ∧
    (c ≠ 0xDF → sampleCasefold c ≠ 0xDF) ∧ (sampleScript.isMark c = false → sampleScript.isMark (sampleCasefold c) = false) := by
  have moved : ∀ d, (0x61 ≤ d ∧ d ≤ 0x7A ∨ 0x3B1 ≤ d ∧ d ≤ 0x3C1 ∨ 0x3C3 ≤ d ∧ d ≤ 0x3C9 ∨ 0x430 ≤ d ∧ d ≤ 0x45F) →
      sampleCasefold d = d ∧ d ≠ 0xDF ∧ sampleScript.isMark d = false := by
    intro d range
    have unknown : sampleFolds.lookup d = none := by
      apply List.lookup_eq_none_iff.mpr
      intro entry member
      simp only [sampleFolds, List.mem_cons, List.not_mem_nil, or_false] at member
      have different : d ≠ entry.1 := by
        obtain same | same | same | same | same | same | same | same | same := member
        all_goals
          rw [same]
          omega
      simpa using different
    refine ⟨?_, by omega, ?_⟩
    · rw [sampleCasefold, if_neg (by omega), if_neg (by omega), unknown]
      rfl
    · simp only [sampleScript, Bool.or_eq_false_iff, beq_eq_false_iff_ne]
      omega
  by_cases near : 0x41 ≤ c ∧ c ≤ 0x5A ∨ 0x391 ≤ c ∧ c ≤ 0x3A1 ∨ 0x3A3 ≤ c ∧ c ≤ 0x3A9 ∨ 0x410 ≤ c ∧ c ≤ 0x42F
  · have value : sampleCasefold c = c + 0x20 := if_pos near
    rw [value]
    have facts := moved (c + 0x20) (by omega)
    exact ⟨facts.1, fun _ => facts.2.1, fun _ => facts.2.2⟩
  · by_cases far : 0x400 ≤ c ∧ c ≤ 0x40F
    · have value : sampleCasefold c = c + 0x50 := by rw [sampleCasefold, if_neg near, if_pos far]
      rw [value]
      have facts := moved (c + 0x50) (by omega)
      exact ⟨facts.1, fun _ => facts.2.1, fun _ => facts.2.2⟩
    · have value : sampleCasefold c = (sampleFolds.lookup c).getD c := by rw [sampleCasefold, if_neg near, if_neg far]
      cases table : sampleFolds.lookup c with
      | none =>
        rw [table, Option.getD_none] at value
        rw [value]
        exact ⟨value, id, id⟩
      | some d =>
        rw [table, Option.getD_some] at value
        rw [value]
        have facts := sampleFolds_own (c, d) (lookup_mem table)
        exact ⟨facts.1, fun _ => facts.2.1, fun _ => facts.2.2⟩

theorem sampleScript_casefold {c : Nat} (other : c ≠ 0xDF) : sampleScript.casefold c = [sampleCasefold c] := if_neg other

theorem sampleScript_cases : CaseData sampleScript where
  standard := sampleData_standard
  decomposed := by
    intro c d found
    have all : ∀ entry ∈ sampleComposites, ∀ d ∈ [entry.1, entry.2.1], sampleScript.tables.canonical d = [d] := by decide +kernel
    change d ∈ sampleCanonical c at found
    rw [sampleCanonical] at found
    split at found
    next entry known => exact all entry (List.mem_of_find?_eq_some known) d found
    next unknown =>
      rw [List.mem_singleton.mp found]
      change sampleCanonical c = [c]
      rw [sampleCanonical, unknown]
  combining := by
    intro c mark
    have which : c = 0x301 ∨ c = 0x308 := by
      by_contra other
      exact mark (if_neg other)
    apply which.elim <;> (intro same; subst same; decide)
  mark := by
    intro c mark zero
    have which : c = 0x301 ∨ c = 0x308 ∨ c = 0xFE0F := by simpa [sampleScript, or_assoc] using mark
    obtain same | same | same := which
    · subst same
      revert zero
      decide
    · subst same
      revert zero
      decide
    · subst same
      decide +kernel
  unmarked := by
    intro c _ letter d found
    by_cases sharp : c = 0xDF
    · subst sharp
      have all : ∀ d ∈ lit "ss", sampleScript.isMark d = false := by decide
      exact all d found
    · rw [sampleScript_casefold sharp] at found
      rw [List.mem_singleton.mp found]
      exact (sampleCasefold_cases c).2.2 letter
  folded := by
    intro c _ _ d found
    by_cases sharp : c = 0xDF
    · subst sharp
      have all : ∀ d ∈ lit "ss", sampleScript.casefold d = [d] := by decide +kernel
      exact all d found
    · rw [sampleScript_casefold sharp] at found
      have facts := sampleCasefold_cases c
      rw [List.mem_singleton.mp found, sampleScript_casefold (facts.2.1 sharp), facts.1]
  lower := by
    intro c _ _ _
    by_cases small : c ∈ sampleSmall
    · have all : ∀ c ∈ sampleSmall, ((sampleScript.lower c).flatMap sharpS).flatMap sampleScript.casefold = sampleScript.casefold c := by
        decide +kernel
      exact all c small
    · have lowered : sampleScript.lower c = [sampleCasefold c] := if_neg small
      have sharp : c ≠ 0xDF := fun same => small (same ▸ by decide)
      have facts := sampleCasefold_cases c
      rw [lowered, List.flatMap_singleton, sharpS, if_neg (facts.2.1 sharp), List.flatMap_singleton,
        sampleScript_casefold (facts.2.1 sharp), facts.1, sampleScript_casefold sharp]
  variant := by
    intro c _ _ _ other
    by_cases sharp : c = 0xDF
    · subst sharp
      exact absurd (by decide +kernel) other
    · by_cases small : c ∈ sampleSmall
      · have lowered : sampleScript.lower c = [c] := if_pos small
        exact ⟨c, by rw [lowered, List.flatMap_singleton, sharpS, if_neg sharp]⟩
      · have lowered : sampleScript.lower c = [sampleCasefold c] := if_neg small
        exact ⟨sampleCasefold c, by rw [lowered, List.flatMap_singleton, sharpS, if_neg ((sampleCasefold_cases c).2.1 sharp)]⟩
  sigma := by decide +kernel
  small_sigma := by decide +kernel
  final_sigma := by decide +kernel
  ascii_mark := by decide
  ascii_lower := by decide +kernel

/-- `token` with a variation selector. -/
def sampleSelected : Str := lit "token" ++ [0xFE0F]

/-- Both redact `TOKEN`. -/
theorem names_agree_sample : isSensitiveName sampleScript (lit "TOKEN") (sensitiveSet sampleScript []) = true ↔
    Tesera.Redaction.Names.isSensitiveName sampleData (lit "TOKEN") sensitiveNames = true :=
  (names_agree_iff sampleScript sampleScript_cases id [] sensitiveNames rfl (lit "TOKEN")).mpr
    (alike_of_plain (by decide +kernel))

/-- Only the port redacts `token` with a variation selector, and only Python a name declared in
another form of its letter. -/
theorem names_disagree : CaseData sampleScript ∧
    (buildSensitiveSet sampleData id (some ([[0x412]].map .str)) = .ok (sensitiveNames ++ [[0x432]])) ∧
    isSensitiveName sampleScript sampleSelected (sensitiveSet sampleScript []) = true ∧
    Tesera.Redaction.Names.isSensitiveName sampleData sampleSelected sensitiveNames = false ∧
    isSensitiveName sampleScript [0x1C80] (sensitiveSet sampleScript [[0x412]]) = false ∧
    Tesera.Redaction.Names.isSensitiveName sampleData [0x1C80] (sensitiveNames ++ [[0x432]]) = true :=
  ⟨sampleScript_cases, by decide +kernel, by decide +kernel, by decide +kernel, by decide +kernel, by decide +kernel⟩

end Tesera.TypeScript.Redaction
