import Tesera.Text.Normalization

/-!
Which names are sensitive. `fold_name` reads a name in NFKC, puts ASCII letters for its
lookalikes, decomposes, drops the marks and folds the case; the sets hold folded names.
-/

namespace Tesera.Redaction.Names
open Tesera.Text.Unicode Tesera.Text.Normalization

/-- The character data of the standard, at the version that a runtime has. -/
structure CharacterData where
  tables : Tables
  casefold : Nat → Str
  isSpace : Nat → Bool

/-- `_CONFUSABLE_TO_ASCII`. -/
def confusables : List (Nat × Nat) :=
  -- Cyrillic
  [(0x430, 0x61), (0x432, 0x62), (0x435, 0x65), (0x451, 0x65), (0x456, 0x69), (0x457, 0x69), (0x458, 0x6A),
    (0x43A, 0x6B), (0x43C, 0x6D), (0x43D, 0x68), (0x43E, 0x6F), (0x440, 0x70), (0x441, 0x63), (0x442, 0x74),
    (0x443, 0x79), (0x445, 0x78), (0x446, 0x75), (0x448, 0x77), (0x449, 0x77), (0x44A, 0x62), (0x44C, 0x62),
    (0x44F, 0x72), (0x455, 0x73),
  -- Greek
    (0x3B1, 0x61), (0x3B2, 0x62), (0x3B3, 0x79), (0x3B5, 0x65), (0x3B9, 0x69), (0x3BA, 0x6B), (0x3BC, 0x75),
    (0x3BD, 0x76), (0x3BF, 0x6F), (0x3C1, 0x70), (0x3C2, 0x73), (0x3C3, 0x73), (0x3C4, 0x74), (0x3C5, 0x75),
    (0x3C7, 0x78), (0x3C9, 0x77), (0x3F0, 0x6B), (0x3F1, 0x70), (0x3F2, 0x63), (0x3F5, 0x65),
  -- Latin and punctuation lookalikes
    (0xB5, 0x75), (0xBA, 0x6F)]

/-- The ASCII letter that a character is written for. -/
def confusable (c : Nat) : Option Nat := confusables.lookup c

/-- One character of `str.translate(_CONFUSABLE_TRANS)`. -/
def transliterate (c : Nat) : Nat := (confusable c).getD c

/-- `fold_name`. -/
def foldName (data : CharacterData) (name : Str) : Str :=
  let composed := nfkc data.tables name
  let transliterated := composed.map transliterate
  let decomposed := nfd data.tables transliterated
  (decomposed.filter (isStarter data.tables)).flatMap data.casefold

/-- `SENSITIVE_NAMES`. -/
def sensitiveNames : List Str :=
  [lit "access_token", lit "api_key", lit "apikey", lit "auth_header", lit "authorization", lit "client_secret",
    lit "credential", lit "credentials", lit "passwd", lit "password", lit "private_key", lit "refresh_token",
    lit "secret", lit "secret_key", lit "session_token", lit "token"]

/-- What a caller may declare: a string, or another object, of which only its `repr` is used. -/
inductive RawName where
  | str (name : Str)
  | other (shown : Str)
  deriving DecidableEq

/-- `str.strip`. -/
def strip (data : CharacterData) (text : Str) : Str := (text.dropWhile data.isSpace).rdropWhile data.isSpace

/-- The loop of `build_sensitive_set`; an error is the text of a `ContractError`. -/
def foldExtra (data : CharacterData) (repr : Str → Str) : List RawName → Except Str (List Str)
  | [] => .ok []
  | .other shown :: _ => .error (lit "redact name " ++ shown ++ lit " must be a string")
  | .str raw :: rest =>
      let name := foldName data raw
      if strip data name = [] then
        .error (lit "redact name " ++ repr raw ++ lit " folds to empty; provide a non-empty name")
      else (foldExtra data repr rest).map (name :: ·)

/-- `build_sensitive_set`. -/
def buildSensitiveSet (data : CharacterData) (repr : Str → Str) (extraNames : Option (List RawName)) :
    Except Str (List Str) :=
  match extraNames with
  | none => .ok sensitiveNames
  | some [] => .ok sensitiveNames
  | some extraNames => (foldExtra data repr extraNames).map (sensitiveNames ++ ·)

/-- `is_sensitive_name`. -/
def isSensitiveName (data : CharacterData) (name : Str) (sensitive : List Str) : Bool :=
  sensitive.contains (foldName data name)

variable {data : CharacterData} {repr : Str → Str}

/-- A set is built of the built-in names and of folded ones. -/
theorem mem_foldExtra {extraNames : List RawName} {folded : List Str} (built : foldExtra data repr extraNames = .ok folded)
    {name : Str} : name ∈ folded ↔ ∃ raw, RawName.str raw ∈ extraNames ∧ foldName data raw = name := by
  induction extraNames generalizing folded with
  | nil =>
    rw [foldExtra, Except.ok.injEq] at built
    simp [← built]
  | cons raw extraNames ih =>
    cases raw with
    | other shown => cases built
    | str raw =>
      rw [foldExtra] at built
      split_ifs at built
      cases later : foldExtra data repr extraNames with
      | error text =>
        rw [later] at built
        cases built
      | ok names =>
        rw [later] at built
        have same : foldName data raw :: names = folded := Except.ok.inj built
        rw [← same, List.mem_cons, ih later]
        simp only [List.mem_cons, RawName.str.injEq]
        constructor
        · intro either
          apply either.elim
          · intro first
            exact ⟨raw, .inl rfl, first.symm⟩
          · intro found
            obtain ⟨other, member, here⟩ := found
            exact ⟨other, .inr member, here⟩
        · intro found
          obtain ⟨other, first | member, here⟩ := found
          · exact .inl (first ▸ here.symm)
          · exact .inr ⟨other, member, here⟩

theorem mem_buildSensitiveSet {extraNames : Option (List RawName)} {sensitive : List Str}
    (built : buildSensitiveSet data repr extraNames = .ok sensitive) {name : Str} :
    name ∈ sensitive ↔ name ∈ sensitiveNames ∨ ∃ raw, RawName.str raw ∈ extraNames.getD [] ∧ foldName data raw = name := by
  cases extraNames with
  | none =>
    have same := Except.ok.inj built
    simp [← same]
  | some extraNames =>
    cases extraNames with
    | nil =>
      have same := Except.ok.inj built
      simp [← same]
    | cons first rest =>
      rw [buildSensitiveSet] at built
      · cases loop : foldExtra data repr (first :: rest) with
        | error text =>
          rw [loop] at built
          cases built
        | ok folded =>
          rw [loop] at built
          have same : sensitiveNames ++ folded = sensitive := Except.ok.inj built
          rw [← same, List.mem_append, mem_foldExtra loop]
          rfl
      · simp

theorem isSensitiveName_iff {sensitive : List Str} {name : Str} :
    isSensitiveName data name sensitive = true ↔ foldName data name ∈ sensitive :=
  List.contains_iff_mem

/-- Folding, without the order of what is decomposed: it is dropped with the marks. -/
theorem foldName_eq (name : Str) : foldName data name =
    ((nfkc data.tables name).flatMap (fun c => starters data.tables (data.tables.canonical (transliterate c)))).flatMap
      data.casefold := by
  have decomposed : ∀ text : Str, starters data.tables (nfd data.tables (text.map transliterate)) =
      text.flatMap (fun c => starters data.tables (data.tables.canonical (transliterate c))) := by
    intro text
    rw [nfd, starters_order, List.flatMap_map]
    induction text with
    | nil => rfl
    | cons c text ih =>
      rw [List.flatMap_cons, List.flatMap_cons, ← ih]
      exact List.filter_append ..
  rw [← decomposed]
  rfl

end Tesera.Redaction.Names
