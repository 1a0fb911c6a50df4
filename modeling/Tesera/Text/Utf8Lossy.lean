import Tesera.Text.Lines

/-!
UTF-8 as JavaScript's runtimes read and write it: neither direction fails. What is not
UTF-8 is read as U+FFFD, one for each maximal part of a character, and a surrogate
without its pair is written as one.
-/

namespace Tesera.Text.Utf8Lossy
open Tesera.Text.Unicode Tesera.Text.Lines

/-- The bytes of a text of code points. -/
def utf8Bytes (text : Str) : Bytes :=
  text.flatMap (fun n => String.utf8EncodeChar ((scalar? n).getD '\uFFFD'))

/-- A character begun: how many bytes it lacks, the range of the next one, and the value of
those read. -/
structure Pending where
  needed : Nat
  lower : Nat
  upper : Nat
  point : Nat

def between : Pending := ⟨0, 0x80, 0xBF, 0⟩

/-- The first byte of a character: what it decodes to at once, and what is pending after it. -/
def lead (b : Nat) : Str × Pending :=
  if b ≤ 0x7F then ([b], between)
  else if 0xC2 ≤ b ∧ b ≤ 0xDF then ([], ⟨1, 0x80, 0xBF, b - 0xC0⟩)
  else if 0xE0 ≤ b ∧ b ≤ 0xEF then
    ([], ⟨2, if b = 0xE0 then 0xA0 else 0x80, if b = 0xED then 0x9F else 0xBF, b - 0xE0⟩)
  else if 0xF0 ≤ b ∧ b ≤ 0xF4 then
    ([], ⟨3, if b = 0xF0 then 0x90 else 0x80, if b = 0xF4 then 0x8F else 0xBF, b - 0xF0⟩)
  else ([0xFFFD], between)

/-- One byte. One that cannot continue the character replaces what was pending and is
read again as a first byte. -/
def feed (pending : Pending) (b : Nat) : Str × Pending :=
  if pending.needed = 0 then lead b
  else if pending.lower ≤ b ∧ b ≤ pending.upper then
    let point := pending.point * 64 + (b - 0x80)
    if pending.needed = 1 then ([point], between)
    else ([], ⟨pending.needed - 1, 0x80, 0xBF, point⟩)
  else (0xFFFD :: (lead b).1, (lead b).2)

def decodeFrom (pending : Pending) : Bytes → Str
  | [] => if pending.needed = 0 then [] else [0xFFFD]
  | b :: rest => (feed pending b.toNat).1 ++ decodeFrom (feed pending b.toNat).2 rest

/-- The code points of some bytes. -/
def utf8Lossy (bytes : Bytes) : Str := decodeFrom between bytes

/-! ## A newline ends every character -/

/-- No byte of ASCII continues a character. -/
def Past (pending : Pending) : Prop := 0x80 ≤ pending.lower

theorem past_lead (b : Nat) : Past (lead b).2 := by
  unfold lead Past
  split_ifs <;> simp [between]

theorem past_feed {pending : Pending} (b : Nat) : Past (feed pending b).2 := by
  unfold feed
  split_ifs
  · exact past_lead b
  · exact Nat.le_refl _
  · exact Nat.le_refl _
  · exact past_lead b

theorem lead_ascii {b : Nat} (ascii : b < 0x80) : lead b = ([b], between) := by
  rw [lead, if_pos (by omega)]

theorem decodeFrom_ascii {b : UInt8} (ascii : b.toNat < 0x80) (bytes rest : Bytes) :
    ∀ pending : Pending, Past pending →
      decodeFrom pending (bytes ++ b :: rest) = decodeFrom pending bytes ++ b.toNat :: utf8Lossy rest := by
  induction bytes with
  | nil =>
    intro pending past
    have outside : ¬ (pending.lower ≤ b.toNat ∧ b.toNat ≤ pending.upper) := by
      unfold Past at past
      omega
    by_cases none : pending.needed = 0
    · simp [decodeFrom, feed, none, lead_ascii ascii, utf8Lossy]
    · simp [decodeFrom, feed, none, outside, lead_ascii ascii, utf8Lossy]
  | cons c bytes ih =>
    intro pending past
    simp only [List.cons_append, decodeFrom, ih _ (past_feed c.toNat), List.append_assoc]

/-- What stands before a byte of ASCII has no effect on what follows it. -/
theorem utf8Lossy_ascii {b : UInt8} (ascii : b.toNat < 0x80) (bytes rest : Bytes) :
    utf8Lossy (bytes ++ b :: rest) = utf8Lossy bytes ++ b.toNat :: utf8Lossy rest :=
  decodeFrom_ascii ascii bytes rest between (Nat.le_refl _)

/-- The least a pending character can become. -/
def least (pending : Pending) : Nat :=
  (pending.point * 64 + (pending.lower - 0x80)) * 64 ^ (pending.needed - 1)

/-- The character pending is past ASCII, however it ends. -/
def Wide (pending : Pending) : Prop := pending.needed = 0 ∨ 0x80 ≤ least pending

theorem wide_lead (b : Nat) : Wide (lead b).2 := by
  unfold lead Wide least
  split_ifs <;> simp [between] <;> omega

/-- What a byte lets out is past ASCII or the byte itself. -/
theorem wide_feed {pending : Pending} (wide : Wide pending) (b : Nat) :
    Wide (feed pending b).2 ∧ ∀ n ∈ (feed pending b).1, 0x80 ≤ n ∨ n = b := by
  have fromLead : ∀ n ∈ (lead b).1, 0x80 ≤ n ∨ n = b := by
    unfold lead
    split_ifs <;> simp
  unfold feed
  split_ifs with none inside last
  · exact ⟨wide_lead b, fromLead⟩
  · have enough := wide.resolve_left none
    simp only [least, last, Nat.sub_self, pow_zero, Nat.mul_one] at enough
    exact ⟨.inl rfl, List.forall_mem_singleton.mpr (.inl (by omega))⟩
  · refine ⟨.inr ?_, List.forall_mem_nil _⟩
    have enough := wide.resolve_left none
    obtain ⟨count, needed⟩ : ∃ count, pending.needed = count + 2 := ⟨pending.needed - 2, by omega⟩
    have grows : pending.point * 64 + (pending.lower - 0x80) ≤ pending.point * 64 + (b - 0x80) := by omega
    simp only [least, needed, Nat.sub_self, Nat.add_zero] at enough ⊢
    calc 0x80 ≤ (pending.point * 64 + (pending.lower - 0x80)) * 64 ^ (count + 1) := enough
      _ ≤ (pending.point * 64 + (b - 0x80)) * 64 ^ (count + 1) := Nat.mul_le_mul_right _ grows
      _ = (pending.point * 64 + (b - 0x80)) * 64 * 64 ^ count := by ring
  · exact ⟨wide_lead b, List.forall_mem_cons.mpr ⟨.inl (by decide), fromLead⟩⟩

/-- A character of ASCII is read only from its byte. -/
theorem mem_of_mem_utf8Lossy {bytes : Bytes} {n : Nat} (ascii : n < 0x80) (member : n ∈ utf8Lossy bytes) :
    ∃ b ∈ bytes, b.toNat = n := by
  have each : ∀ pending : Pending, Wide pending → n ∈ decodeFrom pending bytes → ∃ b ∈ bytes, b.toNat = n := by
    clear member
    induction bytes with
    | nil =>
      intro pending _ member
      simp only [decodeFrom] at member
      split_ifs at member
      · exact absurd member List.not_mem_nil
      · have := List.mem_singleton.mp member
        omega
    | cons b bytes ih =>
      intro pending wide member
      obtain ⟨wider, out⟩ := wide_feed wide b.toNat
      simp only [decodeFrom] at member
      rcases List.mem_append.mp member with here | later
      · rcases out n here with big | same
        · omega
        · exact ⟨b, List.mem_cons_self, same.symm⟩
      · obtain ⟨c, inside, value⟩ := ih _ wider later
        exact ⟨c, List.mem_cons_of_mem b inside, value⟩
  exact each between (by simp [Wide, between]) member

/-! ## What is written is read back -/

/-- The bytes after a first byte, each six bits of the character. -/
theorem toNat_ofNat_small {n : Nat} (small : n < 256) : (UInt8.ofNat n).toNat = n := by
  simp only [UInt8.toNat_ofNat']
  omega

theorem utf8Lossy_lead {b : UInt8} {pending : Pending} (head : lead b.toNat = ([], pending)) (rest : Bytes) :
    utf8Lossy (b :: rest) = decodeFrom pending rest := by
  simp only [utf8Lossy, decodeFrom, feed, between, if_true, head, List.nil_append]

theorem decodeFrom_more {count lower upper point : Nat} {b : UInt8}
    (inside : lower ≤ b.toNat ∧ b.toNat ≤ upper) (rest : Bytes) :
    decodeFrom ⟨count + 2, lower, upper, point⟩ (b :: rest) =
      decodeFrom ⟨count + 1, 0x80, 0xBF, point * 64 + (b.toNat - 0x80)⟩ rest := by
  simp [decodeFrom, feed, inside]

theorem decodeFrom_last {lower upper point : Nat} {b : UInt8}
    (inside : lower ≤ b.toNat ∧ b.toNat ≤ upper) (rest : Bytes) :
    decodeFrom ⟨1, lower, upper, point⟩ (b :: rest) =
      (point * 64 + (b.toNat - 0x80)) :: utf8Lossy rest := by
  simp [decodeFrom, feed, inside, utf8Lossy]

/-- A character is read back from its bytes; the cases are the four lengths. -/
theorem utf8Lossy_char (c : Char) (rest : Bytes) :
    utf8Lossy (String.utf8EncodeChar c ++ rest) = c.toNat :: utf8Lossy rest := by
  have value : c.val.toNat = c.toNat := rfl
  have scalar : c.toNat < 0xD800 ∨ (0xDFFF < c.toNat ∧ c.toNat < 0x110000) := c.valid
  have tail (n : Nat) : (UInt8.ofNat (n % 0x40 + 0x80)).toNat = n % 0x40 + 0x80 :=
    toNat_ofNat_small (by omega)
  unfold String.utf8EncodeChar
  simp only [value]
  split_ifs with one two three
  · have first := toNat_ofNat_small (n := c.toNat) (by omega)
    simp only [List.cons_append, List.nil_append, utf8Lossy, decodeFrom, first, feed, between, if_true]
    rw [lead, if_pos one]
    rfl
  · have first := toNat_ofNat_small (n := c.toNat / 64 % 0x20 + 0xc0) (by omega)
    have head : lead (UInt8.ofNat (c.toNat / 64 % 0x20 + 0xc0)).toNat =
        ([], ⟨1, 0x80, 0xBF, c.toNat / 64⟩) := by
      rw [first, lead, if_neg (by omega), if_pos (by omega)]
      simp only [Prod.mk.injEq, Pending.mk.injEq, true_and]
      omega
    simp only [List.cons_append, List.nil_append]
    rw [utf8Lossy_lead head, decodeFrom_last (by rw [tail]; omega), tail]
    simp only [List.cons.injEq, and_true]
    omega
  · have first := toNat_ofNat_small (n := c.toNat / 4096 % 0x10 + 0xe0) (by omega)
    have small : c.toNat / 4096 % 0x10 = c.toNat / 4096 := by omega
    have head : lead (UInt8.ofNat (c.toNat / 4096 % 0x10 + 0xe0)).toNat =
        ([], ⟨2, if c.toNat / 4096 = 0 then 0xA0 else 0x80, if c.toNat / 4096 = 13 then 0x9F else 0xBF,
          c.toNat / 4096⟩) := by
      rw [first, lead, if_neg (by omega), if_neg (by omega), if_pos (by omega)]
      simp only [small, Prod.mk.injEq, Pending.mk.injEq, true_and]
      refine ⟨?_, ?_, by omega⟩
      · exact if_congr (by omega) rfl rfl
      · exact if_congr (by omega) rfl rfl
    have second : (if c.toNat / 4096 = 0 then 0xA0 else 0x80) ≤ c.toNat / 64 % 0x40 + 0x80 ∧
        c.toNat / 64 % 0x40 + 0x80 ≤ if c.toNat / 4096 = 13 then 0x9F else 0xBF := by
      constructor <;> split_ifs <;> omega
    simp only [List.cons_append, List.nil_append]
    rw [utf8Lossy_lead head, decodeFrom_more (by rw [tail]; exact second),
      decodeFrom_last (by rw [tail]; omega), tail, tail]
    simp only [List.cons.injEq, and_true]
    omega
  · have first := toNat_ofNat_small (n := c.toNat / 262144 % 0x08 + 0xf0) (by omega)
    have small : c.toNat / 262144 % 0x08 = c.toNat / 262144 := by omega
    have head : lead (UInt8.ofNat (c.toNat / 262144 % 0x08 + 0xf0)).toNat =
        ([], ⟨3, if c.toNat / 262144 = 0 then 0x90 else 0x80, if c.toNat / 262144 = 4 then 0x8F else 0xBF,
          c.toNat / 262144⟩) := by
      rw [first, lead, if_neg (by omega), if_neg (by omega), if_neg (by omega), if_pos (by omega)]
      simp only [small, Prod.mk.injEq, Pending.mk.injEq, true_and]
      refine ⟨?_, ?_, by omega⟩
      · exact if_congr (by omega) rfl rfl
      · exact if_congr (by omega) rfl rfl
    have second : (if c.toNat / 262144 = 0 then 0x90 else 0x80) ≤ c.toNat / 4096 % 0x40 + 0x80 ∧
        c.toNat / 4096 % 0x40 + 0x80 ≤ if c.toNat / 262144 = 4 then 0x8F else 0xBF := by
      constructor <;> split_ifs <;> omega
    simp only [List.cons_append, List.nil_append]
    rw [utf8Lossy_lead head, decodeFrom_more (by rw [tail]; exact second),
      decodeFrom_more (by rw [tail]; omega), decodeFrom_last (by rw [tail]; omega), tail, tail, tail]
    simp only [List.cons.injEq, and_true]
    omega

theorem isValidChar_of_isScalar {n : Nat} (scalar : IsScalar n) : n.isValidChar := by
  rcases scalar with low | high
  · exact .inl low
  · exact .inr ⟨by omega, high.2⟩

/-- A well-formed text comes back, with whatever follows it. -/
theorem utf8Lossy_bytes_append {text : Str} (scalars : ∀ n ∈ text, IsScalar n) (rest : Bytes) :
    utf8Lossy (utf8Bytes text ++ rest) = text ++ utf8Lossy rest := by
  induction text with
  | nil => rfl
  | cons n text ih =>
    have valid := isValidChar_of_isScalar (scalars n List.mem_cons_self)
    have tail := ih (fun m member => scalars m (List.mem_cons_of_mem n member))
    have char : scalar? n = some (Char.ofNatAux n valid) := dif_pos valid
    have value : (Char.ofNatAux n valid).toNat = n := rfl
    simp only [utf8Bytes, List.flatMap_cons, List.append_assoc] at tail ⊢
    rw [char, Option.getD_some, utf8Lossy_char, value, tail, List.cons_append]

theorem utf8Lossy_bytes {text : Str} (scalars : ∀ n ∈ text, IsScalar n) :
    utf8Lossy (utf8Bytes text) = text := by
  have whole := utf8Lossy_bytes_append scalars []
  rwa [List.append_nil, show utf8Lossy [] = [] from rfl, List.append_nil] at whole

@[simp] theorem utf8Bytes_append (left right : Str) :
    utf8Bytes (left ++ right) = utf8Bytes left ++ utf8Bytes right := List.flatMap_append

/-- One character of ASCII is one byte. -/
theorem utf8Bytes_ascii {n : Nat} (ascii : n < 0x80) : utf8Bytes [n] = [UInt8.ofNat n] := by
  have encoded := utf8Encode_ascii n ascii
  obtain ⟨chars, same, bytes⟩ := utf8Encode_eq_some.mp encoded
  obtain ⟨c, rfl, value⟩ := List.map_eq_singleton_iff.mp same
  rw [← bytes, ← value]
  simp [utf8Bytes, scalar?_toNat]

/-- The bytes of a text hold a byte of ASCII only where the text has it. -/
theorem mem_of_mem_utf8Bytes {text : Str} {b : UInt8} (ascii : b.toNat < 0x80) (member : b ∈ utf8Bytes text) :
    b.toNat ∈ text := by
  obtain ⟨n, inside, byte⟩ := List.mem_flatMap.mp member
  cases found : scalar? n with
  | none =>
    rw [found] at byte
    have := ascii_of_mem_utf8EncodeChar (by omega) byte
    rw [Option.getD_none] at this
    have big : ('\uFFFD' : Char).toNat = 0xFFFD := rfl
    omega
  | some c =>
    rw [found] at byte
    have same := ascii_of_mem_utf8EncodeChar (by omega) byte
    rw [Option.getD_some, toNat_of_scalar? found] at same
    exact same ▸ inside

end Tesera.Text.Utf8Lossy
