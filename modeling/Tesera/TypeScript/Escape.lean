import Tesera.TypeScript.Value

/-!
`escapeString` of `Canonical.ts`. It takes the text `JSON.stringify` gives and replaces what
looks like an escape of U+2028 or U+2029. No escape of these is ever written, so what the
replacement finds is the second half of an escaped backslash before the letters: it leaves a
backslash before a character that is no escape letter.
-/

namespace Tesera.TypeScript.Escape
open Tesera.Text.Unicode Tesera.Text.Json Tesera.TypeScript.Value

/-- `text.replace(/pattern/g, by)` for a pattern without special characters; the count is what
is left of the match being replaced. -/
def replaceAll (pattern : Str) (by' : Nat) : Nat → Str → Str
  | _, [] => []
  | skip + 1, _ :: rest => replaceAll pattern by' skip rest
  | 0, c :: rest =>
      if pattern.isPrefixOf (c :: rest) then by' :: replaceAll pattern by' (pattern.length - 1) rest
      else c :: replaceAll pattern by' 0 rest

/-- The letters `u2028` and `u2029`. -/
def lettersOf (separator : Nat) : Str :=
  [117, 50, 48, 50, if separator = 0x2028 then 56 else 57]

def markOf (separator : Nat) : Str := 92 :: lettersOf separator

def escapeString (value : Str) : Str :=
  replaceAll (markOf 0x2029) 0x2029 0 (replaceAll (markOf 0x2028) 0x2028 0 (stringify value))

/-! ## The replacement on pieces -/

/-- Does a backslash stand before the letters of the separator here? -/
def meets (separator : Nat) (p : Piece) (rest : List Piece) : Bool :=
  decide (p = .esc 92) && ((lettersOf separator).map Piece.lit).isPrefixOf rest

def fuse (separator : Nat) : Nat → List Piece → List Piece
  | _, [] => []
  | skip + 1, _ :: rest => fuse separator skip rest
  | 0, p :: rest =>
      if meets separator p rest then .odd separator :: fuse separator 5 rest
      else p :: fuse separator 0 rest

def escapePieces (value : Str) : List Piece :=
  fuse 0x2029 0 (fuse 0x2028 0 (stringifyPieces value))

/-- A piece in which the replacement finds no backslash of its own. -/
def Safe (separator : Nat) : Piece → Prop
  | .lit c => c ≠ 92
  | .esc c => c < 65536 ∧ c ≠ separator
  | .odd c => c ≠ 92 ∧ c ≠ 117

theorem letters_plain (separator : Nat) : ∀ c ∈ lettersOf separator, c ≠ 92 ∧ c ≠ 34 := by
  unfold lettersOf
  split_ifs <;> decide

/-- Letters stand at the head of a written string only as themselves. -/
theorem isPrefixOf_text {separator : Nat} (word : Str) (plain : ∀ c ∈ word, c ≠ 92 ∧ c ≠ 34)
    (pieces : List Piece) (safe : ∀ p ∈ pieces, Safe separator p) :
    word.isPrefixOf (pieces.flatMap Piece.text ++ [34]) = (word.map Piece.lit).isPrefixOf pieces := by
  induction word generalizing pieces with
  | nil => rfl
  | cons x word ih =>
    have here := plain x List.mem_cons_self
    have later : ∀ c ∈ word, c ≠ 92 ∧ c ≠ 34 := fun c member => plain c (List.mem_cons_of_mem x member)
    cases pieces with
    | nil =>
      simp only [List.flatMap_nil, List.nil_append, List.map_cons]
      simp [List.isPrefixOf, here.2]
    | cons p pieces =>
      have rest := ih later pieces (fun q member => safe q (List.mem_cons_of_mem p member))
      have noBackslash : (x == 92) = false := beq_false_of_ne here.1
      cases p with
      | lit c =>
        have same : (Piece.lit x == Piece.lit c) = (x == c) := by
          rw [Bool.eq_iff_iff]
          simp
        simp only [List.flatMap_cons, Piece.text, List.cons_append, List.nil_append, List.map_cons,
          List.isPrefixOf, rest, same]
      | esc c =>
        have differ : (Piece.lit x == Piece.esc c) = false := beq_false_of_ne (by simp)
        obtain ⟨tail, text⟩ : ∃ tail, (Piece.esc c).text = 92 :: tail := by
          cases found : letterOf c <;> simp [Piece.text, found]
        simp only [List.flatMap_cons, text, List.cons_append, List.map_cons, List.isPrefixOf, noBackslash,
          differ, Bool.false_and]
      | odd c =>
        have differ : (Piece.lit x == Piece.odd c) = false := beq_false_of_ne (by simp)
        simp only [List.flatMap_cons, Piece.text, List.cons_append, List.map_cons, List.isPrefixOf,
          noBackslash, differ, Bool.false_and]

/-- The next pieces are characters standing for themselves, so each is one character. -/
def LiteralsFirst (count : Nat) (pieces : List Piece) : Prop :=
  count ≤ pieces.length ∧ ∀ p ∈ pieces.take count, ∃ c, p = .lit c

theorem literalsFirst_zero (pieces : List Piece) : LiteralsFirst 0 pieces :=
  ⟨Nat.zero_le _, by simp⟩

theorem literalsFirst_of_prefix {word : Str} {pieces : List Piece}
    (found : (word.map Piece.lit).isPrefixOf pieces = true) : LiteralsFirst word.length pieces := by
  obtain ⟨rest, rfl⟩ := List.isPrefixOf_iff_prefix.mp found
  constructor
  · simp
  · intro p member
    rw [List.take_append_of_le_length (by simp), List.take_of_length_le (by simp)] at member
    obtain ⟨c, -, rfl⟩ := List.mem_map.mp member
    exact ⟨c, rfl⟩

theorem replaceAll_of_ne {pattern : Str} {head by' c : Nat} (rest : Str) (ne : c ≠ head)
    (shape : pattern.head? = some head) :
    replaceAll pattern by' 0 (c :: rest) = c :: replaceAll pattern by' 0 rest := by
  have missing : pattern.isPrefixOf (c :: rest) = false := by
    cases pattern with
    | nil => cases shape
    | cons d pattern =>
      cases shape
      simp [List.isPrefixOf, ne.symm]
  simp only [replaceAll, missing, Bool.false_eq_true, if_false]

theorem replaceAll_plain {pattern : Str} {head by' : Nat} (text rest : Str) (shape : pattern.head? = some head)
    (plain : ∀ c ∈ text, c ≠ head) :
    replaceAll pattern by' 0 (text ++ rest) = text ++ replaceAll pattern by' 0 rest := by
  induction text with
  | nil => rfl
  | cons c text ih =>
    rw [List.cons_append, replaceAll_of_ne _ (plain c List.mem_cons_self) shape,
      ih (fun d member => plain d (List.mem_cons_of_mem c member)), List.cons_append]

theorem markOf_head (separator : Nat) : (markOf separator).head? = some 92 := rfl

theorem isPrefixOf_mark (separator : Nat) {c : Nat} (rest : Str) (letter : c ≠ 117) :
    (markOf separator).isPrefixOf (92 :: c :: rest) = false := by
  have differ : (117 == c) = false := beq_false_of_ne letter.symm
  simp [markOf, lettersOf, List.isPrefixOf, differ]

theorem hexDigit_eq {n : Nat} (digit : Nat) (small : digit < 10) (same : 48 + digit = hexDigit n) : n = digit := by
  unfold hexDigit at same
  split_ifs at same <;> omega

/-- No escape written with four digits is one of the separator's. -/
theorem isPrefixOf_hex4 {separator c : Nat} (known : separator = 0x2028 ∨ separator = 0x2029)
    (small : c < 65536) (differ : c ≠ separator) (rest : Str) :
    (markOf separator).isPrefixOf (92 :: 117 :: (hex4 c ++ rest)) = false := by
  rw [← Bool.not_eq_true]
  intro found
  have last : ∃ digit, digit < 10 ∧ (if separator = 0x2028 then 56 else 57) = 48 + digit ∧
      separator = 0x2020 + digit := by
    rcases known with rfl | rfl
    · exact ⟨8, by decide⟩
    · exact ⟨9, by decide⟩
  obtain ⟨digit, bound, shape, value⟩ := last
  simp only [markOf, lettersOf, hex4, shape, List.cons_append, List.nil_append, List.isPrefixOf,
    Bool.and_eq_true, beq_iff_eq, true_and] at found
  obtain ⟨first, second, third, fourth, -⟩ := found
  have := hexDigit_eq 2 (by decide) first
  have := hexDigit_eq 0 (by decide) second
  have := hexDigit_eq 2 (by decide) third
  have := hexDigit_eq digit bound fourth
  omega

theorem hex4_plain (c : Nat) : ∀ d ∈ hex4 c, d ≠ 92 := by
  have digit (n : Nat) (small : n < 16) : hexDigit n ≠ 92 := by
    unfold hexDigit
    split_ifs <;> omega
  intro d member
  simp only [hex4, List.mem_cons, List.not_mem_nil, or_false] at member
  rcases member with rfl | rfl | rfl | rfl <;> exact digit _ (Nat.mod_lt _ (by decide))

theorem letterOf_plain {c letter : Nat} (other : c ≠ 92) (found : letterOf c = some letter) :
    letter ≠ 92 ∧ letter ≠ 117 := by
  unfold letterOf at found
  split_ifs at found <;> simp only [Option.some.injEq] at found <;> omega

theorem meets_of_ne (separator : Nat) {p : Piece} (other : p ≠ .esc 92) (rest : List Piece) :
    meets separator p rest = false := by
  simp [meets, other]

theorem replaceAll_unmet {pattern : Str} {by' c : Nat} {rest : Str}
    (missing : pattern.isPrefixOf (c :: rest) = false) :
    replaceAll pattern by' 0 (c :: rest) = c :: replaceAll pattern by' 0 rest := by
  simp only [replaceAll, missing, Bool.false_eq_true, if_false]

/-- Replacing in a written text is fusing its pieces. -/
theorem replaceAll_pieces {separator : Nat} (known : separator = 0x2028 ∨ separator = 0x2029)
    (pieces : List Piece) (safe : ∀ p ∈ pieces, Safe separator p) :
    ∀ skip, LiteralsFirst skip pieces →
      replaceAll (markOf separator) separator skip (pieces.flatMap Piece.text ++ [34]) =
        (fuse separator skip pieces).flatMap Piece.text ++ [34] := by
  induction pieces with
  | nil =>
    intro skip literals
    have none : skip = 0 := Nat.le_zero.mp literals.1
    subst none
    exact replaceAll_of_ne [] (by decide) (markOf_head separator)
  | cons p pieces ih =>
    have later : ∀ q ∈ pieces, Safe separator q := fun q member => safe q (List.mem_cons_of_mem p member)
    have here := safe p List.mem_cons_self
    have plain := ih later 0 (literalsFirst_zero pieces)
    intro skip literals
    cases skip with
    | succ skip =>
      obtain ⟨c, rfl⟩ := literals.2 p (by simp)
      have rest : LiteralsFirst skip pieces := by
        obtain ⟨enough, each⟩ := literals
        refine ⟨Nat.le_of_succ_le_succ enough, fun q member => each q ?_⟩
        rw [List.take_succ_cons]
        exact List.mem_cons_of_mem _ member
      simp only [List.flatMap_cons, Piece.text, List.cons_append, List.nil_append, replaceAll, fuse]
      exact ih later skip rest
    | zero =>
      by_cases backslash : p = .esc 92
      · subst backslash
        have text : (Piece.esc 92).text = [92, 92] := rfl
        have letters : (markOf separator).isPrefixOf (92 :: (pieces.flatMap Piece.text ++ [34])) =
            meets separator (.esc 92) pieces := by
          have heads := isPrefixOf_text (lettersOf separator) (letters_plain separator) pieces later
          simp only [markOf, List.isPrefixOf, heads, meets, BEq.rfl, decide_true, Bool.true_and]
        simp only [List.flatMap_cons, text, List.cons_append, List.nil_append]
        rw [replaceAll_unmet (isPrefixOf_mark separator _ (by decide))]
        cases met : meets separator (.esc 92) pieces with
        | true =>
          rw [met] at letters
          have five : LiteralsFirst 5 pieces := by
            have found : ((lettersOf separator).map Piece.lit).isPrefixOf pieces = true := by
              simpa [meets] using met
            simpa [lettersOf] using literalsFirst_of_prefix found
          have size : (markOf separator).length - 1 = 5 := rfl
          simp only [replaceAll, letters, if_true, fuse, met, size, ih later 5 five, List.flatMap_cons,
            Piece.text, List.cons_append, List.nil_append]
        | false =>
          rw [met] at letters
          rw [replaceAll_unmet letters, plain]
          simp only [fuse, met, Bool.false_eq_true, if_false, List.flatMap_cons, text, List.cons_append,
            List.nil_append]
      · have unmet := meets_of_ne separator backslash pieces
        have target : (fuse separator 0 (p :: pieces)).flatMap Piece.text ++ [34] =
            p.text ++ ((fuse separator 0 pieces).flatMap Piece.text ++ [34]) := by
          simp only [fuse, unmet, Bool.false_eq_true, if_false, List.flatMap_cons, List.append_assoc]
        rw [target, ← plain, List.flatMap_cons, List.append_assoc]
        cases p with
        | lit c =>
          exact replaceAll_of_ne _ here (markOf_head separator)
        | odd c =>
          simp only [Piece.text, List.cons_append, List.nil_append]
          rw [replaceAll_unmet (isPrefixOf_mark separator _ here.2),
            replaceAll_of_ne _ here.1 (markOf_head separator)]
        | esc c =>
          have other : c ≠ 92 := fun same => backslash (same ▸ rfl)
          cases found : letterOf c with
          | some letter =>
            obtain ⟨first, second⟩ := letterOf_plain other found
            simp only [Piece.text, found, List.cons_append, List.nil_append]
            rw [replaceAll_unmet (isPrefixOf_mark separator _ second),
              replaceAll_of_ne _ first (markOf_head separator)]
          | none =>
            simp only [Piece.text, found, List.cons_append]
            rw [replaceAll_unmet (isPrefixOf_hex4 known here.1 here.2 _),
              replaceAll_of_ne _ (by decide) (markOf_head separator),
              replaceAll_plain _ _ (markOf_head separator) (hex4_plain c)]

/-! ## What is written -/

theorem safe_of_spells {separator u : Nat} {p : Piece} (known : separator = 0x2028 ∨ separator = 0x2029)
    (spelt : Spells u p) : Safe separator p := by
  rcases spelt.choice with rfl | rfl
  · intro backslash
    have escaped := spelt.needed (.inr (.inr backslash))
    cases escaped
  · have surrogates : u < 32 ∨ u = 34 ∨ u = 92 ∨ 0xD800 ≤ u ∧ u < 0xE000 := by
      by_contra outside
      by_cases small : u < 0xD800
      · have := spelt.plain (by omega) (by omega) (by omega) small
        cases this
      · have := spelt.spared (by omega)
        cases this
    exact ⟨by omega, by omega⟩

theorem safe_of_spelt {separator : Nat} (known : separator = 0x2028 ∨ separator = 0x2029) {value : Str}
    {pieces : List Piece} (spelt : List.Forall₂ Spells value pieces) : ∀ p ∈ pieces, Safe separator p := by
  induction spelt with
  | nil => exact List.forall_mem_nil _
  | cons head tail ih => exact List.forall_mem_cons.mpr ⟨safe_of_spells known head, ih⟩

theorem safe_stringify {separator : Nat} (known : separator = 0x2028 ∨ separator = 0x2029) (value : Str) :
    ∀ p ∈ stringifyPieces value, Safe separator p :=
  safe_of_spelt known (spells_stringify value)

/-- Fusing leaves pieces the other replacement can read. -/
theorem mem_fuse {separator : Nat} {p : Piece} (pieces : List Piece) :
    ∀ skip, p ∈ fuse separator skip pieces → p ∈ pieces ∨ p = .odd separator := by
  induction pieces with
  | nil => exact fun _ member => absurd member List.not_mem_nil
  | cons q pieces ih =>
    intro skip member
    cases skip with
    | succ skip => exact (ih skip member).imp_left (List.mem_cons_of_mem q)
    | zero =>
      simp only [fuse] at member
      split_ifs at member with met
      · rcases List.mem_cons.mp member with rfl | inside
        · exact .inr rfl
        · exact (ih 5 inside).imp_left (List.mem_cons_of_mem q)
      · rcases List.mem_cons.mp member with rfl | inside
        · exact .inl List.mem_cons_self
        · exact (ih 0 inside).imp_left (List.mem_cons_of_mem q)

theorem safe_fuse (value : Str) : ∀ p ∈ fuse 0x2028 0 (stringifyPieces value), Safe 0x2029 p := by
  intro p member
  rcases mem_fuse _ 0 member with old | rfl
  · exact safe_stringify (.inr rfl) value p old
  · exact ⟨by decide, by decide⟩

theorem quote_eq (pieces : List Piece) : quote pieces = 34 :: (pieces.flatMap Piece.text ++ [34]) := rfl

/-- The text `escapeString` writes. -/
theorem escapeString_eq (value : Str) : escapeString value = quote (escapePieces value) := by
  unfold escapeString escapePieces stringify
  rw [quote_eq, replaceAll_of_ne _ (by decide) (markOf_head _),
    replaceAll_pieces (.inl rfl) _ (safe_stringify (.inl rfl) value) 0 (literalsFirst_zero _),
    replaceAll_of_ne _ (by decide) (markOf_head _),
    replaceAll_pieces (.inr rfl) _ (safe_fuse value) 0 (literalsFirst_zero _), quote_eq]

/-! ## Texts the replacement changes -/

/-- The text has a backslash before the letters of a separator. -/
def Marked (value : Str) : Prop := markOf 0x2028 <:+: value ∨ markOf 0x2029 <:+: value

instance (value : Str) : Decidable (Marked value) := inferInstanceAs (Decidable (_ ∨ _))

theorem isPrefixOf_spelt (word : Str) (plain : ∀ c ∈ word, 32 ≤ c ∧ c ≠ 34 ∧ c ≠ 92 ∧ c < 0xD800)
    {value : Str} {pieces : List Piece} (spelt : List.Forall₂ Spells value pieces) :
    (word.map Piece.lit).isPrefixOf pieces = word.isPrefixOf value := by
  induction word generalizing value pieces with
  | nil => rfl
  | cons x word ih =>
    obtain ⟨low, quote, backslash, high⟩ := plain x List.mem_cons_self
    cases spelt with
    | nil => rfl
    | @cons u p value pieces head tail =>
      have rest := ih (fun c member => plain c (List.mem_cons_of_mem x member)) tail
      have same : (Piece.lit x == p) = (x == u) := by
        rw [Bool.eq_iff_iff, beq_iff_eq, beq_iff_eq]
        constructor
        · rintro rfl
          rcases head.choice with same | same
          · exact Piece.lit.inj same
          · cases same
        · rintro rfl
          exact (head.plain low quote backslash high).symm
      simp only [List.map_cons, List.isPrefixOf, rest, same]

theorem meets_spelt (separator : Nat) {u : Nat} {p : Piece} {value : Str} {pieces : List Piece} (head : Spells u p)
    (tail : List.Forall₂ Spells value pieces) :
    meets separator p pieces = (markOf separator).isPrefixOf (u :: value) := by
  have letters : ∀ c ∈ lettersOf separator, 32 ≤ c ∧ c ≠ 34 ∧ c ≠ 92 ∧ c < 0xD800 := by
    unfold lettersOf
    split_ifs <;> decide
  have first : decide (p = .esc 92) = (92 == u) := by
    rw [Bool.eq_iff_iff, decide_eq_true_eq, beq_iff_eq]
    constructor
    · rintro rfl
      rcases head.choice with same | same
      · cases same
      · exact Piece.esc.inj same
    · rintro rfl
      exact head.needed (.inr (.inr rfl))
  simp only [meets, first, isPrefixOf_spelt _ letters tail, markOf, List.isPrefixOf]

/-- Without a mark the replacement changes nothing. -/
theorem fuse_unmarked {separator : Nat} {value : Str} {pieces : List Piece}
    (spelt : List.Forall₂ Spells value pieces) (unmarked : ¬ markOf separator <:+: value) :
    fuse separator 0 pieces = pieces := by
  induction spelt with
  | nil => rfl
  | cons head tail ih =>
    rw [List.infix_cons_iff, not_or, ← List.isPrefixOf_iff_prefix, Bool.not_eq_true] at unmarked
    have unmet := (meets_spelt separator head tail).trans unmarked.1
    simp only [fuse, unmet, Bool.false_eq_true, if_false, ih unmarked.2]

/-- A mark leaves a stray escape behind. -/
theorem odd_mem_fuse {separator : Nat} {value : Str} {pieces : List Piece}
    (spelt : List.Forall₂ Spells value pieces) (marked : markOf separator <:+: value) :
    .odd separator ∈ fuse separator 0 pieces := by
  induction spelt with
  | nil => exact absurd (List.infix_nil.mp marked) (by simp [markOf])
  | @cons u p value pieces head tail ih =>
    have met := meets_spelt separator head tail
    rw [List.infix_cons_iff, ← List.isPrefixOf_iff_prefix, ← met] at marked
    simp only [fuse]
    split_ifs with here
    · exact List.mem_cons_self
    · exact List.mem_cons_of_mem p (ih (marked.resolve_left here))

theorem odd_mem_fuse_of_mem {separator c : Nat} (pieces : List Piece) (member : .odd c ∈ pieces) :
    ∀ skip, LiteralsFirst skip pieces → .odd c ∈ fuse separator skip pieces := by
  induction pieces with
  | nil => exact absurd member List.not_mem_nil
  | cons p pieces ih =>
    intro skip literals
    cases skip with
    | succ skip =>
      obtain ⟨d, rfl⟩ := literals.2 p (by simp)
      have inside : .odd c ∈ pieces := (List.mem_cons.mp member).resolve_left (by simp)
      refine ih inside skip ⟨Nat.le_of_succ_le_succ literals.1, fun q taken => literals.2 q ?_⟩
      rw [List.take_succ_cons]
      exact List.mem_cons_of_mem _ taken
    | zero =>
      simp only [fuse]
      split_ifs with met
      · have backslash : p = .esc 92 ∧ ((lettersOf separator).map Piece.lit).isPrefixOf pieces = true := by
          simpa [meets] using met
        have inside : .odd c ∈ pieces := (List.mem_cons.mp member).resolve_left (by simp [backslash.1])
        have five := literalsFirst_of_prefix backslash.2
        exact List.mem_cons_of_mem _ (ih inside 5 (by simpa [lettersOf] using five))
      · rcases List.mem_cons.mp member with same | inside
        · rw [same]
          exact List.mem_cons_self
        · exact List.mem_cons_of_mem p (ih inside 0 (literalsFirst_zero pieces))

theorem escapePieces_unmarked {value : Str} (unmarked : ¬ Marked value) :
    escapePieces value = stringifyPieces value := by
  rw [Marked, not_or] at unmarked
  have spelt := spells_stringify value
  rw [escapePieces, fuse_unmarked spelt unmarked.1, fuse_unmarked spelt unmarked.2]

theorem odd_mem_escapePieces {value : Str} (marked : Marked value) :
    ∃ separator, .odd separator ∈ escapePieces value := by
  have spelt := spells_stringify value
  by_cases first : markOf 0x2028 <:+: value
  · exact ⟨0x2028, odd_mem_fuse_of_mem _ (odd_mem_fuse spelt first) 0 (literalsFirst_zero _)⟩
  · rw [escapePieces, fuse_unmarked spelt first]
    exact ⟨0x2029, odd_mem_fuse spelt (marked.resolve_left first)⟩

end Tesera.TypeScript.Escape
