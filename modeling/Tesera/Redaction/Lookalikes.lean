import Tesera.Redaction.Names

/-!
Which spellings of an ASCII name are folded to it. The letters of a name may be in either case,
may be replaced by lookalikes in either case, and may have marks after them; NFKC reads the
letters one by one, and a letter is lost when what it composes to is no longer in the table.
-/

namespace Tesera.Redaction.Lookalikes
open Tesera.Text.Unicode Tesera.Text.Normalization Tesera.Redaction.Names

/-- The upper-case form of a lookalike. `º` has none. -/
def upperForm : Nat → Nat
  | 0x451 => 0x401
  | 0x456 => 0x406
  | 0x457 => 0x407
  | 0x458 => 0x408
  | 0x455 => 0x405
  | 0x3C2 => 0x3A3
  | 0x3F0 => 0x39A
  | 0x3F1 => 0x3A1
  | 0x3F2 => 0x3F9
  | 0x3F5 => 0x395
  | 0xB5 => 0x39C
  | 0xBA => 0xBA
  | c => c - 0x20

/-- The characters of the table, and their upper-case forms. -/
def lookalikes : Str := confusables.map Prod.fst ++ confusables.map (fun entry => upperForm entry.1)

/-- Canonical decompositions of these: a diaeresis is taken off. -/
def canonicalForm : Nat → Str
  | 0x451 => [0x435, 0x308]
  | 0x457 => [0x456, 0x308]
  | 0x401 => [0x415, 0x308]
  | 0x407 => [0x406, 0x308]
  | c => [c]

/-- Compatibility decompositions. -/
def compatibleForm : Nat → Str
  | 0x3F0 => [0x3BA]
  | 0x3F1 => [0x3C1]
  | 0x3F2 => [0x3C2]
  | 0x3F5 => [0x3B5]
  | 0x3F9 => [0x3A3]
  | 0xB5 => [0x3BC]
  | 0xBA => [0x6F]
  | c => canonicalForm c

def asciiLower (c : Nat) : Nat := if 0x41 ≤ c ∧ c ≤ 0x5A then c + 0x20 else c

/-- What the standard says of ASCII, of marks and of the lookalikes. -/
structure Standard (data : CharacterData) : Prop where
  ascii_canonical : ∀ c < 0x80, data.tables.canonical c = [c]
  ascii_compatible : ∀ c < 0x80, data.tables.compatible c = [c]
  ascii_casefold : ∀ c < 0x80, data.casefold c = [asciiLower c]
  apart : ∀ c, c < 0x80 ∨ c ∈ lookalikes → Apart data.tables c
  marks_canonical : ∀ c, data.tables.combining c ≠ 0 → ∀ d ∈ data.tables.canonical c, data.tables.combining d ≠ 0
  marks_compatible : ∀ c, data.tables.combining c ≠ 0 → ∀ d ∈ data.tables.compatible c, data.tables.combining d ≠ 0
  diaeresis : data.tables.combining 0x308 ≠ 0
  composites : @Composites data.tables
  canonical : ∀ c ∈ lookalikes, data.tables.canonical c = canonicalForm c
  compatible : ∀ c ∈ lookalikes, data.tables.compatible c = compatibleForm c
  casefold : ∀ c ∈ lookalikes, ∃ d, data.casefold c = [d] ∧ 0x80 ≤ d
  casefolded : ∀ c, ∀ d ∈ data.casefold c, asciiLower d = d

/-- A letter of a name, what is written for it and the marks after that. -/
structure Letter where
  letter : Nat
  base : Nat
  marks : Str

def Letter.text (spelled : Letter) : Str := spelled.base :: spelled.marks

/-- The letter in either case, or a lookalike of it in either case. -/
def Stands (letter base : Nat) : Prop :=
  base < 0x80 ∧ asciiLower base = asciiLower letter ∨ ∃ c, confusable c = some letter ∧ (base = c ∨ base = upperForm c)

/-- A spelling of an ASCII letter. -/
def Letter.Spells (data : CharacterData) (spelled : Letter) : Prop :=
  spelled.letter < 0x80 ∧ Stands spelled.letter spelled.base ∧ ∀ c ∈ spelled.marks, data.tables.combining c ≠ 0

/-- The letter is written in ASCII or as `º`, or NFKC of it and its marks begins with a lookalike
that the table still has for the letter. -/
def Letter.Kept (data : CharacterData) (spelled : Letter) : Prop :=
  spelled.base < 0x80 ∨ spelled.base = 0xBA ∨
    (nfkc data.tables spelled.text).head?.bind confusable = some spelled.letter

/-- The name that is spelled, and the spelling. -/
def named (letters : List Letter) : Str := letters.map Letter.letter

def spelling (letters : List Letter) : Str := letters.flatMap Letter.text

/-! ## One letter -/

variable {data : CharacterData}

theorem lookup_mem {α β : Type} [BEq α] [LawfulBEq α] {entries : List (α × β)} {key : α} {value : β}
    (found : entries.lookup key = some value) : (key, value) ∈ entries := by
  obtain ⟨before, after, same, _⟩ := List.lookup_eq_some_iff.mp found
  rw [same]
  exact List.mem_append_right _ List.mem_cons_self

theorem confusable_mem {c letter : Nat} (found : confusable c = some letter) : (c, letter) ∈ confusables :=
  lookup_mem found

theorem lookalike_of_confusable {c letter : Nat} (found : confusable c = some letter) : c ∈ lookalikes :=
  List.mem_append_left _ (List.mem_map.mpr ⟨(c, letter), confusable_mem found, rfl⟩)

theorem upperForm_mem {c letter : Nat} (found : confusable c = some letter) : upperForm c ∈ lookalikes :=
  List.mem_append_right _ (List.mem_map.mpr ⟨(c, letter), confusable_mem found, rfl⟩)

/-- The table has ASCII lower-case letters. -/
theorem letter_of_confusable {c letter : Nat} (found : confusable c = some letter) :
    letter < 0x80 ∧ asciiLower letter = letter := by
  have all : ∀ entry ∈ confusables, entry.2 < 0x80 ∧ asciiLower entry.2 = entry.2 := by decide
  exact all (c, letter) (confusable_mem found)

theorem not_ascii : ∀ c ∈ lookalikes, 0x80 ≤ c := by decide +kernel

/-- The canonical starter of a lookalike is a lookalike. -/
theorem canonicalForm_cases : ∀ c ∈ lookalikes, ∃ root ∈ lookalikes,
    canonicalForm c = [root] ∨ canonicalForm c = [root, 0x308] := by
  decide +kernel

/-- What a lookalike is decomposed to: `º` to its letter, and another to a lookalike that is not
decomposed further, at most with a diaeresis. -/
theorem compatibleForm_cases : ∀ c ∈ lookalikes, c = 0xBA ∧ compatibleForm c = [0x6F] ∨
    c ≠ 0xBA ∧ ∃ root ∈ lookalikes, canonicalForm root = [root] ∧
      (compatibleForm c = [root] ∨ compatibleForm c = [root, 0x308]) := by
  decide +kernel

theorem isMark_iff {c : Nat} : isStarter data.tables c = false ↔ data.tables.combining c ≠ 0 := by
  rw [Bool.eq_false_iff, ne_eq, isStarter_iff]

/-- Whatever a name is spelled with stands for the ASCII letter, or is a lookalike. -/
theorem stands_cases {letter base : Nat} (stands : Stands letter base) :
    (base < 0x80 ∧ asciiLower base = asciiLower letter) ∨ (base = 0xBA ∧ letter = 0x6F) ∨
      (base ∈ lookalikes ∧ base ≠ 0xBA ∧ asciiLower letter = letter) := by
  apply stands.elim
  · exact .inl
  · intro found
    obtain ⟨c, table, same⟩ := found
    have here : base ∈ lookalikes := by
      apply same.elim
      · intro lower
        exact lower ▸ lookalike_of_confusable table
      · intro upper
        exact upper ▸ upperForm_mem table
    by_cases ordinal : base = 0xBA
    · have only : ∀ entry ∈ confusables, entry.1 = 0xBA ∨ upperForm entry.1 = 0xBA → entry.2 = 0x6F := by decide +kernel
      have which : c = 0xBA ∨ upperForm c = 0xBA := same.imp (·.symm.trans ordinal) (·.symm.trans ordinal)
      exact .inr (.inl ⟨ordinal, only (c, letter) (confusable_mem table) which⟩)
    · exact .inr (.inr ⟨here, ordinal, (letter_of_confusable table).2⟩)

/-- The cluster that a spelled letter is decomposed to: its root is the letter in ASCII, or a
lookalike that is not decomposed. -/
theorem cluster_of_spelled (standard : Standard data) {spelled : Letter} (spells : spelled.Spells data) :
    ∃ cluster : Cluster data.tables, spelled.text.flatMap data.tables.compatible = cluster.text ∧
      ((cluster.starter < 0x80 ∧ asciiLower cluster.starter = asciiLower spelled.letter ∧
          (spelled.base < 0x80 ∨ spelled.base = 0xBA)) ∨
        (cluster.starter ∈ lookalikes ∧ canonicalForm cluster.starter = [cluster.starter] ∧
          ¬ (spelled.base < 0x80 ∨ spelled.base = 0xBA) ∧ asciiLower spelled.letter = spelled.letter)) := by
  have later : @Marks data.tables (spelled.marks.flatMap data.tables.compatible) := by
    intro d found
    obtain ⟨c, member, inside⟩ := List.mem_flatMap.mp found
    exact isMark_iff.mpr (standard.marks_compatible c (spells.2.2 c member) d inside)
  have dotted : @Marks data.tables (0x308 :: spelled.marks.flatMap data.tables.compatible) := by
    intro d found
    apply (List.mem_cons.mp found).elim
    · intro same
      exact isMark_iff.mpr (same ▸ standard.diaeresis)
    · exact later d
  have splits : spelled.text.flatMap data.tables.compatible =
      data.tables.compatible spelled.base ++ spelled.marks.flatMap data.tables.compatible := List.flatMap_cons
  apply (stands_cases spells.2.1).elim
  · intro ascii
    refine ⟨⟨spelled.base, _, standard.apart _ (.inl ascii.1), later⟩, ?_, .inl ⟨ascii.1, ascii.2, .inl ascii.1⟩⟩
    rw [splits, standard.ascii_compatible _ ascii.1]
    rfl
  · intro other
    apply other.elim
    · intro ordinal
      have member : spelled.base ∈ lookalikes := ordinal.1 ▸ by decide +kernel
      have letter_ascii : 0x6F < 0x80 := by decide
      refine ⟨⟨0x6F, _, standard.apart _ (.inl (by decide)), later⟩, ?_, .inl ⟨letter_ascii, ?_, .inr ordinal.1⟩⟩
      · rw [splits, standard.compatible _ member, ordinal.1]
        rfl
      · rw [ordinal.2]
    · intro lookalike
      have wide : ¬ (spelled.base < 0x80 ∨ spelled.base = 0xBA) := by
        have := not_ascii _ lookalike.1
        have := lookalike.2.1
        omega
      apply (compatibleForm_cases _ lookalike.1).elim
      · intro ordinal
        exact absurd ordinal.1 lookalike.2.1
      · intro found
        obtain ⟨_, root, member, alone, form⟩ := found
        apply form.elim
        · intro single
          refine ⟨⟨root, _, standard.apart _ (.inr member), later⟩, ?_, .inr ⟨member, alone, wide, lookalike.2.2⟩⟩
          rw [splits, standard.compatible _ lookalike.1, single]
          rfl
        · intro double
          refine ⟨⟨root, _, standard.apart _ (.inr member), dotted⟩, ?_, .inr ⟨member, alone, wide, lookalike.2.2⟩⟩
          rw [splits, standard.compatible _ lookalike.1, double]
          rfl

/-- The canonical starters of a character of the table are not ASCII. -/
theorem starters_confusable (standard : Standard data) {c : Nat} (member : c ∈ lookalikes) :
    ∃ root, 0x80 ≤ root ∧ starters data.tables (data.tables.canonical c) = [root] := by
  obtain ⟨root, known, form⟩ := canonicalForm_cases c member
  have starter := (standard.apart root (.inr known)).1
  have mark := isMark_iff.mpr standard.diaeresis
  refine ⟨root, not_ascii root known, ?_⟩
  rw [standard.canonical c member]
  apply form.elim
  · intro single
    rw [single, starters, List.filter_cons_of_pos starter]
    rfl
  · intro double
    rw [double, starters, List.filter_cons_of_pos starter, List.filter_cons_of_neg (by simp [mark])]
    rfl

/-- What a cluster folds to: the head of its composed form decides, and the marks are dropped. -/
theorem fold_cluster (standard : Standard data) {text left : Str} {head : Nat} (composed : nfkc data.tables text = head :: left)
    (marks : @Marks data.tables left) :
    foldName data text = (starters data.tables (data.tables.canonical (transliterate head))).flatMap data.casefold := by
  have dropped : left.flatMap (fun c => starters data.tables (data.tables.canonical (transliterate c))) = [] := by
    apply List.flatMap_eq_nil_iff.mpr
    intro c found
    have mark := isMark_iff.mp (marks c found)
    have unknown : confusable c = none := by
      cases table : confusable c with
      | none => rfl
      | some letter =>
        have starter := (standard.apart c (.inr (lookalike_of_confusable table))).1
        exact absurd (isStarter_iff.mp starter) mark
    rw [transliterate, unknown, starters]
    apply List.filter_eq_nil_iff.mpr
    intro d inside
    simpa [isStarter] using standard.marks_canonical c mark d inside
  rw [foldName_eq, composed, List.flatMap_cons, dropped, List.append_nil]

/-- A spelled letter is folded to one character, which is the letter when it is kept. -/
theorem fold_spelled (standard : Standard data) {spelled : Letter} (spells : spelled.Spells data) :
    ∃ d, foldName data spelled.text = [d] ∧ (d = asciiLower spelled.letter ↔ spelled.Kept data) := by
  obtain ⟨cluster, decomposed, which⟩ := cluster_of_spelled standard spells
  obtain ⟨head, left, composed, marks, same⟩ := nfkc_cluster standard.composites cluster decomposed
  have folded := fold_cluster standard composed marks
  have first : (nfkc data.tables spelled.text).head?.bind confusable = confusable head := by rw [composed]; rfl
  apply which.elim
  · intro ascii
    -- the head has an ASCII canonical starter, and the table has no such character
    have starter := (standard.apart _ (.inl ascii.1)).1
    have alone : starters data.tables (data.tables.canonical head) = [cluster.starter] := by
      rw [same, standard.ascii_canonical _ ascii.1, starters, List.filter_cons_of_pos starter]
      rfl
    have unknown : confusable head = none := by
      cases table : confusable head with
      | none => rfl
      | some letter =>
        obtain ⟨root, wide, other⟩ := starters_confusable standard (lookalike_of_confusable table)
        have equal : root = cluster.starter := List.singleton_injective (other.symm.trans alone)
        have := ascii.1
        omega
    refine ⟨asciiLower spelled.letter, ?_, iff_of_true rfl ?_⟩
    · rw [folded, transliterate, unknown, Option.getD_none, alone]
      simp [standard.ascii_casefold _ ascii.1, ascii.2.1]
    · exact ascii.2.2.imp_right .inl
  · intro lookalike
    have kept : spelled.Kept data ↔ confusable head = some spelled.letter := by
      rw [Letter.Kept, first, ← or_assoc]
      exact or_iff_right lookalike.2.2.1
    cases table : confusable head with
    | some letter =>
      have known := letter_of_confusable table
      have starter := (standard.apart letter (.inl known.1)).1
      refine ⟨letter, ?_, ?_⟩
      · rw [folded, transliterate, table, Option.getD_some, standard.ascii_canonical _ known.1, starters,
          List.filter_cons_of_pos starter]
        simp [standard.ascii_casefold _ known.1, known.2]
      · rw [kept, table, Option.some.injEq, lookalike.2.2.2]
    | none =>
      have starter := (standard.apart _ (.inr lookalike.1)).1
      have alone : starters data.tables (data.tables.canonical head) = [cluster.starter] := by
        rw [same, standard.canonical _ lookalike.1, lookalike.2.1, starters, List.filter_cons_of_pos starter]
        rfl
      obtain ⟨d, single, wide⟩ := standard.casefold _ lookalike.1
      refine ⟨d, ?_, iff_of_false ?_ ?_⟩
      · rw [folded, transliterate, table, Option.getD_none, alone]
        simp [single]
      · intro equal
        have := spells.1
        rw [lookalike.2.2.2] at equal
        omega
      · rw [kept, table]
        simp

/-! ## Names -/

theorem fold_spelling (standard : Standard data) {letters : List Letter} (spells : ∀ spelled ∈ letters, spelled.Spells data) :
    foldName data (spelling letters) = letters.flatMap (fun spelled => foldName data spelled.text) := by
  have clusters : ∀ text ∈ letters.map Letter.text, IsCluster data.tables text := by
    intro text member
    obtain ⟨spelled, found, same⟩ := List.mem_map.mp member
    obtain ⟨cluster, decomposed, _⟩ := cluster_of_spelled standard (spells spelled found)
    exact ⟨cluster, same ▸ decomposed⟩
  have composed : nfkc data.tables (spelling letters) = (letters.map Letter.text).flatMap (nfkc data.tables) :=
    nfkc_flatten clusters
  rw [foldName_eq, composed, List.flatMap_map, List.flatMap_assoc, List.flatMap_assoc]
  congr 1
  funext spelled
  rw [foldName_eq, List.flatMap_assoc]

/-- A spelling folds to the name, in lower case, when every letter is kept, and only then. -/
theorem fold_spelling_iff (standard : Standard data) {letters : List Letter} (spells : ∀ spelled ∈ letters, spelled.Spells data) :
    foldName data (spelling letters) = (named letters).map asciiLower ↔ ∀ spelled ∈ letters, spelled.Kept data := by
  rw [fold_spelling standard spells]
  induction letters with
  | nil => simp [named]
  | cons first letters ih =>
    obtain ⟨d, folded, kept⟩ := fold_spelled standard (spells first List.mem_cons_self)
    have rest := ih (fun spelled member => spells spelled (List.mem_cons_of_mem first member))
    rw [List.flatMap_cons, folded, named, List.map_cons, List.map_cons, List.singleton_append, List.cons.injEq, kept,
      List.forall_mem_cons]
    exact and_congr_right (fun _ => rest)

/-- An ASCII name in its own letters. -/
def plain (name : Str) : List Letter := name.map (fun c => ⟨c, c, []⟩)

theorem fold_ascii (standard : Standard data) {name : Str} (ascii : ∀ c ∈ name, c < 0x80) :
    foldName data name = name.map asciiLower := by
  have own : spelling (plain name) = name := by
    rw [spelling, plain, List.flatMap_map]
    exact List.flatMap_singleton' name
  have names : named (plain name) = name := by
    rw [named, plain, List.map_map]
    exact List.map_id name
  have letter : ∀ spelled ∈ plain name, spelled.Spells data ∧ spelled.Kept data := by
    intro spelled member
    obtain ⟨c, found, same⟩ := List.mem_map.mp member
    subst same
    exact ⟨⟨ascii c found, .inl ⟨ascii c found, rfl⟩, fun d none => absurd none List.not_mem_nil⟩, .inl (ascii c found)⟩
  have folds := (fold_spelling_iff standard (fun spelled member => (letter spelled member).1)).mpr
    (fun spelled member => (letter spelled member).2)
  rwa [own, names] at folds

/-- What is folded has no upper-case ASCII letter. -/
theorem foldName_lower (standard : Standard data) (name : Str) : (foldName data name).map asciiLower = foldName data name := by
  have unchanged : ∀ d ∈ foldName data name, asciiLower d = d := by
    intro d found
    rw [foldName_eq] at found
    obtain ⟨c, _, inside⟩ := List.mem_flatMap.mp found
    exact standard.casefolded c d inside
  calc (foldName data name).map asciiLower = (foldName data name).map id := List.map_congr_left unchanged
    _ = foldName data name := List.map_id _

theorem sensitive_lower (standard : Standard data) {repr : Str → Str} {extraNames : Option (List RawName)} {sensitive : List Str}
    (built : buildSensitiveSet data repr extraNames = .ok sensitive) {name : Str} (member : name ∈ sensitive) :
    name.map asciiLower = name := by
  have lower : ∀ known ∈ sensitiveNames, known.map asciiLower = known := by decide +kernel
  apply ((mem_buildSensitiveSet built).mp member).elim
  · exact lower name
  · intro folded
    obtain ⟨raw, _, same⟩ := folded
    rw [← same]
    exact foldName_lower standard raw

/-- A spelling of a name in the set is sensitive, and folds as the name does and to a fixed
point, when every letter is kept, and only then. -/
theorem spellings_fold_iff (data : CharacterData) (standard : Standard data) (repr : Str → Str)
    (extraNames : Option (List RawName)) (sensitive : List Str) (built : buildSensitiveSet data repr extraNames = .ok sensitive)
    (letters : List Letter) (spells : ∀ spelled ∈ letters, spelled.Spells data) (member : named letters ∈ sensitive) :
    (isSensitiveName data (spelling letters) sensitive = true ∧
        foldName data (spelling letters) = foldName data (named letters) ∧
        foldName data (foldName data (spelling letters)) = foldName data (spelling letters)) ↔
      ∀ spelled ∈ letters, spelled.Kept data := by
  have lower := sensitive_lower standard built member
  have ascii : ∀ c ∈ named letters, c < 0x80 := by
    intro c found
    obtain ⟨spelled, inside, same⟩ := List.mem_map.mp found
    exact same ▸ (spells spelled inside).1
  have fixed : foldName data (named letters) = named letters := (fold_ascii standard ascii).trans lower
  have folds := fold_spelling_iff standard spells
  rw [lower] at folds
  constructor
  · intro matched
    exact folds.mp (matched.2.1.trans fixed)
  · intro kept
    have same := folds.mpr kept
    refine ⟨?_, ?_, ?_⟩
    · rw [isSensitiveName_iff, same]
      exact member
    · rw [same, fixed]
    · rw [same, fixed]

/-! ## Two marks -/

/-- Some composites with an acute and a diaeresis. -/
def sampleComposites : List (Nat × Nat × Nat) :=
  [(0x435, 0x308, 0x451), (0x456, 0x308, 0x457), (0x415, 0x308, 0x401), (0x406, 0x308, 0x407), (0x43E, 0x308, 0x4E7),
    (0x41E, 0x308, 0x4E6), (0x43A, 0x301, 0x45C), (0x41A, 0x301, 0x40C), (0x6F, 0x301, 0xF3), (0x4F, 0x301, 0xD3)]

def sampleCanonical (c : Nat) : Str :=
  match sampleComposites.find? (fun entry => entry.2.2 == c) with
  | some entry => [entry.1, entry.2.1]
  | none => [c]

def sampleTables : Tables where
  canonical := sampleCanonical
  compatible c := if c ∈ lookalikes then compatibleForm c else sampleCanonical c
  combining c := if c = 0x301 ∨ c = 0x308 then 230 else 0
  primary s c := (sampleComposites.find? (fun entry => entry.1 == s && entry.2.1 == c)).map (fun entry => entry.2.2)

/-- Letters that are not folded by a distance. -/
def sampleFolds : List (Nat × Nat) :=
  [(0xB5, 0x3BC), (0x3C2, 0x3C3), (0x3F0, 0x3BA), (0x3F1, 0x3C1), (0x3F5, 0x3B5), (0x3F9, 0x3F2), (0xD3, 0xF3),
    (0x4E6, 0x4E7), (0x1C80, 0x432)]

def sampleCasefold (c : Nat) : Nat :=
  if 0x41 ≤ c ∧ c ≤ 0x5A ∨ 0x391 ≤ c ∧ c ≤ 0x3A1 ∨ 0x3A3 ≤ c ∧ c ≤ 0x3A9 ∨ 0x410 ≤ c ∧ c ≤ 0x42F then c + 0x20
  else if 0x400 ≤ c ∧ c ≤ 0x40F then c + 0x50
  else (sampleFolds.lookup c).getD c

/-- The character data for these composites. -/
def sampleData : CharacterData where
  tables := sampleTables
  casefold c := if c = 0xDF then lit "ss" else [sampleCasefold c]
  isSpace c := (9 ≤ c && c ≤ 13) || (28 ≤ c && c ≤ 32) || c == 0x85 || c == 0xA0

theorem sampleCasefold_lower (c : Nat) : asciiLower (sampleCasefold c) = sampleCasefold c := by
  have wide : ∀ entry ∈ sampleFolds, asciiLower entry.2 = entry.2 := by decide
  rw [sampleCasefold]
  split_ifs
  · rw [asciiLower, if_neg (by omega)]
  · rw [asciiLower, if_neg (by omega)]
  · cases table : sampleFolds.lookup c with
    | none =>
      rw [Option.getD_none, asciiLower, if_neg (by omega)]
    | some e =>
      exact wide (c, e) (lookup_mem table)

theorem sampleData_standard : Standard sampleData where
  ascii_canonical := by decide +kernel
  ascii_compatible := by decide +kernel
  ascii_casefold := by decide +kernel
  apart := by
    intro c known
    have unmarked : c ≠ 0x301 ∧ c ≠ 0x308 := by
      apply known.elim
      · omega
      · have all : ∀ c ∈ lookalikes, c ≠ 0x301 ∧ c ≠ 0x308 := by decide +kernel
        exact all c
    constructor
    · simp [isStarter, sampleData, sampleTables, unmarked]
    · intro s
      have marks : ∀ entry ∈ sampleComposites, entry.2.1 = 0x301 ∨ entry.2.1 = 0x308 := by decide +kernel
      simp only [sampleData, sampleTables, Option.map_eq_none_iff, List.find?_eq_none]
      intro entry member
      have := marks entry member
      simp only [Bool.and_eq_true, beq_iff_eq, not_and]
      omega
  marks_canonical := by
    intro c mark
    have which : c = 0x301 ∨ c = 0x308 := by
      by_contra other
      exact mark (if_neg other)
    apply which.elim <;> (intro same; subst same; decide +kernel)
  marks_compatible := by
    intro c mark
    have which : c = 0x301 ∨ c = 0x308 := by
      by_contra other
      exact mark (if_neg other)
    apply which.elim <;> (intro same; subst same; decide +kernel)
  diaeresis := by decide
  composites := by
    intro s c p _ _ found
    have all : ∀ entry ∈ sampleComposites, isStarter sampleData.tables entry.2.2 = true ∧
        starters sampleData.tables (sampleData.tables.canonical entry.2.2) =
          starters sampleData.tables (sampleData.tables.canonical entry.1) := by
      decide +kernel
    obtain ⟨entry, first, same⟩ := Option.map_eq_some_iff.mp found
    have member := List.mem_of_find?_eq_some first
    have alike := List.find?_some first
    simp only [Bool.and_eq_true, beq_iff_eq] at alike
    rw [← same, ← alike.1]
    exact all entry member
  canonical := by decide +kernel
  compatible := by decide +kernel
  casefold := by
    intro c known
    have wide : ∀ c ∈ lookalikes, c ≠ 0xDF ∧ 0x80 ≤ sampleCasefold c := by decide +kernel
    exact ⟨sampleCasefold c, if_neg (wide c known).1, (wide c known).2⟩
  casefolded := by
    intro c d found
    by_cases sharp : c = 0xDF
    · have all : ∀ d ∈ lit "ss", asciiLower d = d := by decide
      exact all d (by simpa [sampleData, sharp] using found)
    · have same : d = sampleCasefold c := by simpa [sampleData, sharp] using found
      rw [same, sampleCasefold_lower]

/-- `token` with `º`, with `к` and with an accent after a letter. -/
def sampleKept : List Letter := [⟨0x74, 0x54, []⟩, ⟨0x6F, 0xBA, [0x301]⟩, ⟨0x6B, 0x43A, []⟩, ⟨0x65, 0x435, [0x308]⟩, ⟨0x6E, 0x6E, []⟩]

/-- `token` with an upper-case `К`, and with an accent that composes with `к`. -/
def sampleUpper : List Letter := [⟨0x74, 0x74, []⟩, ⟨0x6F, 0x6F, []⟩, ⟨0x6B, 0x41A, []⟩, ⟨0x65, 0x65, []⟩, ⟨0x6E, 0x6E, []⟩]

def sampleAccent : List Letter := [⟨0x74, 0x74, []⟩, ⟨0x6F, 0x6F, []⟩, ⟨0x6B, 0x43A, [0x301]⟩, ⟨0x65, 0x65, []⟩, ⟨0x6E, 0x6E, []⟩]

theorem lower_stands {letter base : Nat} (table : confusable base = some letter) : Stands letter base :=
  .inr ⟨base, table, .inl rfl⟩

theorem upper_stands {letter base c : Nat} (table : confusable c = some letter) (upper : base = upperForm c) : Stands letter base :=
  .inr ⟨c, table, .inr upper⟩

theorem spells_nil {data : CharacterData} : ∀ spelled ∈ [], Letter.Spells data spelled :=
  fun _ none => absurd none List.not_mem_nil

theorem spells_cons {data : CharacterData} {letter base : Nat} {marks : Str} {letters : List Letter} (ascii : letter < 0x80)
    (stands : Stands letter base) (only : ∀ c ∈ marks, data.tables.combining c ≠ 0)
    (rest : ∀ spelled ∈ letters, spelled.Spells data) : ∀ spelled ∈ (⟨letter, base, marks⟩ : Letter) :: letters, spelled.Spells data :=
  List.forall_mem_cons.mpr ⟨⟨ascii, stands, only⟩, rest⟩

theorem sampleKept_spells : ∀ spelled ∈ sampleKept, spelled.Spells sampleData := by
  apply spells_cons (by decide) (.inl (by decide)) (by decide)
  apply spells_cons (by decide) (lower_stands (by decide)) (by decide)
  apply spells_cons (by decide) (lower_stands (by decide)) (by decide)
  apply spells_cons (by decide) (lower_stands (by decide)) (by decide)
  apply spells_cons (by decide) (.inl (by decide)) (by decide)
  exact spells_nil

theorem sampleUpper_spells : ∀ spelled ∈ sampleUpper, spelled.Spells sampleData := by
  apply spells_cons (by decide) (.inl (by decide)) (by decide)
  apply spells_cons (by decide) (.inl (by decide)) (by decide)
  apply spells_cons (by decide) (upper_stands (c := 0x43A) (by decide) (by decide)) (by decide)
  apply spells_cons (by decide) (.inl (by decide)) (by decide)
  apply spells_cons (by decide) (.inl (by decide)) (by decide)
  exact spells_nil

theorem sampleAccent_spells : ∀ spelled ∈ sampleAccent, spelled.Spells sampleData := by
  apply spells_cons (by decide) (.inl (by decide)) (by decide)
  apply spells_cons (by decide) (.inl (by decide)) (by decide)
  apply spells_cons (by decide) (lower_stands (by decide)) (by decide)
  apply spells_cons (by decide) (.inl (by decide)) (by decide)
  apply spells_cons (by decide) (.inl (by decide)) (by decide)
  exact spells_nil

theorem spellings_fold_sample : isSensitiveName sampleData (spelling sampleKept) sensitiveNames = true ∧
    foldName sampleData (spelling sampleKept) = lit "token" := by
  have kept : ∀ spelled ∈ sampleKept, spelled.Kept sampleData := by
    unfold Letter.Kept
    decide +kernel
  have matched := (spellings_fold_iff sampleData sampleData_standard id none sensitiveNames rfl sampleKept sampleKept_spells
    (by decide +kernel)).mpr kept
  exact ⟨matched.1, matched.2.1.trans (by decide +kernel)⟩

/-- A spelling of `token` that is not folded to it. -/
def Escapes (letters : List Letter) : Prop :=
  (∀ spelled ∈ letters, spelled.Spells sampleData) ∧ named letters = lit "token" ∧
    isSensitiveName sampleData (spelling letters) sensitiveNames = false ∧
    foldName sampleData (spelling letters) ≠ foldName sampleData (lit "token")

/-- Neither an upper-case lookalike nor one that an accent composes with is folded. -/
theorem spellings_escape : Standard sampleData ∧ lit "token" ∈ sensitiveNames ∧ Escapes sampleUpper ∧ Escapes sampleAccent ∧
    foldName sampleData (foldName sampleData (spelling sampleUpper)) ≠ foldName sampleData (spelling sampleUpper) :=
  ⟨sampleData_standard, by decide +kernel, ⟨sampleUpper_spells, by decide +kernel⟩, ⟨sampleAccent_spells, by decide +kernel⟩,
    by decide +kernel⟩

end Tesera.Redaction.Lookalikes
