import Tesera.Text.Number

/-!
Decimal values and the two spellings of a double. A double is known by the shortest
decimal that rounds to it, so a finite double is a normalized decimal here; which
decimals are doubles is left to the rounding of a concrete arithmetic.
-/

namespace Tesera.Text.Decimal
open Tesera.Text.Unicode Tesera.Text.Number

/-- A decimal in normal form: the value of `0.d₁d₂…` times ten to the `point`, with
neither leading nor trailing zeros. Zero has no digits and keeps its sign. -/
structure Dec where
  neg : Bool
  digits : List Nat
  point : Int
  small : ∀ d ∈ digits, d < 10
  head : digits.head? ≠ some 0
  last : digits.getLast? ≠ some 0
  zero : digits = [] → point = 0
  deriving DecidableEq

namespace Dec

theorem ext_fields {a b : Dec} (neg : a.neg = b.neg) (digits : a.digits = b.digits)
    (point : a.point = b.point) : a = b := by
  cases a
  cases b
  simp only at neg digits point
  subst neg digits point
  rfl

private theorem isZero_of_mem_takeWhile {d : Nat} {l : List Nat}
    (member : d ∈ l.takeWhile (· == 0)) : d = 0 := by
  simpa using List.mem_takeWhile_imp member

/-- The numerals without leading and trailing zeros. -/
def strip (values : List Nat) : List Nat := (values.dropWhile (· == 0)).rdropWhile (· == 0)

theorem mem_of_mem_strip {values : List Nat} {d : Nat} (member : d ∈ strip values) : d ∈ values :=
  (List.dropWhile_sublist _).subset ((List.rdropWhile_prefix _ _).sublist.subset member)

theorem strip_getLast? (values : List Nat) : (strip values).getLast? ≠ some 0 := by
  intro last
  have nonempty : strip values ≠ [] := by
    intro empty
    rw [empty] at last
    cases last
  have stopped := List.rdropWhile_last_not (· == 0) (values.dropWhile (· == 0)) nonempty
  have value := List.getLast?_eq_some_getLast nonempty
  rw [last] at value
  apply stopped
  have final : (strip values).getLast nonempty = 0 := (Option.some.inj value).symm
  exact beq_iff_eq.mpr final

theorem strip_head? (values : List Nat) : (strip values).head? ≠ some 0 := by
  intro first
  have pre : strip values <+: values.dropWhile (· == 0) := List.rdropWhile_prefix _ _
  obtain ⟨tail, append⟩ := pre
  have stopped := List.head?_dropWhile_not (· == 0) values
  cases stripped : strip values with
  | nil =>
    rw [stripped] at first
    cases first
  | cons d rest =>
    rw [stripped] at first append
    rw [← append] at stopped
    simp only [List.head?_cons, Option.some.injEq] at first
    subst d
    simp at stopped

/-- The decimal these numerals denote when the point stands before the first. -/
def normalize (neg : Bool) (values : List Nat) (small : ∀ d ∈ values, d < 10) (point : Int) : Dec where
  neg := neg
  digits := strip values
  point := if strip values = [] then 0 else point - (values.takeWhile (· == 0)).length
  small := fun d member => small d (mem_of_mem_strip member)
  head := strip_head? values
  last := strip_getLast? values
  zero := fun empty => by rw [if_pos empty]

theorem dropWhile_replicate_zero (count : Nat) (values : List Nat) (head : values.head? ≠ some 0) :
    (List.replicate count 0 ++ values).dropWhile (· == 0) = values := by
  rw [List.dropWhile_append_of_pos (by simp)]
  cases values with
  | nil => rfl
  | cons d rest =>
    have : d ≠ 0 := by
      rintro rfl
      exact head rfl
    simp [this]

theorem takeWhile_replicate_zero (count : Nat) (values : List Nat) (head : values.head? ≠ some 0) :
    ((List.replicate count 0 ++ values).takeWhile (· == 0)).length = count := by
  rw [List.takeWhile_append_of_pos (by simp)]
  cases values with
  | nil => simp
  | cons d rest =>
    have : d ≠ 0 := by
      rintro rfl
      exact head rfl
    simp [this]

theorem rdropWhile_replicate_zero (count : Nat) (values : List Nat) (last : values.getLast? ≠ some 0) :
    (values ++ List.replicate count 0).rdropWhile (· == 0) = values := by
  unfold List.rdropWhile
  rw [List.reverse_append, List.reverse_replicate, dropWhile_replicate_zero]
  · exact List.reverse_reverse values
  · rwa [List.head?_reverse]

/-- Padding a decimal's digits with zeros on both sides only shifts its point. -/
theorem normalize_pad (d : Dec) (before after : Nat) (small) (point : Int)
    (shift : d.digits ≠ [] → point = d.point + before) :
    normalize d.neg (List.replicate before 0 ++ (d.digits ++ List.replicate after 0)) small point = d := by
  have stripped : strip (List.replicate before 0 ++ (d.digits ++ List.replicate after 0)) = d.digits := by
    by_cases empty : d.digits = []
    · simp [strip, empty, List.rdropWhile]
    · have head : (d.digits ++ List.replicate after 0).head? ≠ some 0 := by
        rw [List.head?_append_of_ne_nil _ empty]
        exact d.head
      unfold strip
      rw [dropWhile_replicate_zero before _ head, rdropWhile_replicate_zero after _ d.last]
  apply ext_fields
  · rfl
  · exact stripped
  · simp only [normalize, stripped]
    split_ifs with empty
    · exact (d.zero empty).symm
    · have head : (d.digits ++ List.replicate after 0).head? ≠ some 0 := by
        rw [List.head?_append_of_ne_nil _ empty]
        exact d.head
      rw [takeWhile_replicate_zero before _ head, shift empty]
      omega

end Dec

def fracValues (token : Token) : List Nat :=
  match token.frac with
  | none => []
  | some run => run.values

theorem fracValues_lt (token : Token) : ∀ d ∈ fracValues token, d < 10 := by
  unfold fracValues
  cases token.frac with
  | none => simp
  | some run => exact run.values_lt

def expValue (token : Token) : Int :=
  match token.exp with
  | none => 0
  | some e => e.toInt

theorem values_lt (token : Token) : ∀ d ∈ token.whole.values ++ fracValues token, d < 10 := by
  intro d member
  rcases List.mem_append.mp member with whole | frac
  · exact token.whole.values_lt d whole
  · exact fracValues_lt token d frac

/-- The decimal a token denotes. -/
def decOf (token : Token) : Dec :=
  Dec.normalize token.neg (token.whole.values ++ fracValues token) (values_lt token)
    (token.whole.values.length + expValue token)

theorem normalize_congr {neg : Bool} {values other : List Nat} {small point} (same : values = other) :
    Dec.normalize neg values small point = Dec.normalize neg other (same ▸ small) point := by
  subst same
  rfl

/-- A token whose numerals are a decimal's own, padded with zeros, denotes that decimal. -/
theorem decOf_eq (token : Token) (d : Dec) (before after : Nat) (sign : token.neg = d.neg)
    (values : token.whole.values ++ fracValues token =
      List.replicate before 0 ++ (d.digits ++ List.replicate after 0))
    (point : d.digits ≠ [] → (token.whole.values.length : Int) + expValue token = d.point + before) :
    decOf token = d := by
  unfold decOf
  rw [sign, normalize_congr values]
  exact Dec.normalize_pad d before after _ _ point

/-! ## Spelling a decimal -/

theorem zeros_append_lt {values : List Nat} (count : Nat) (small : ∀ d ∈ values, d < 10) :
    ∀ d ∈ List.replicate count 0 ++ values, d < 10 := by
  intro d member
  rcases List.mem_append.mp member with zero | inside
  · rw [(List.mem_replicate.mp zero).2]
    decide
  · exact small d inside

theorem append_zeros_lt {values : List Nat} (count : Nat) (small : ∀ d ∈ values, d < 10) :
    ∀ d ∈ values ++ List.replicate count 0, d < 10 := by
  intro d member
  rcases List.mem_append.mp member with inside | zero
  · exact small d inside
  · rw [(List.mem_replicate.mp zero).2]
    decide

theorem head?_take_ne_zero (d : Dec) (count : Nat) : (d.digits.take count).head? ≠ some 0 := by
  rw [List.head?_take]
  split_ifs
  · simp
  · exact d.head

theorem take_point_ne_nil (d : Dec) (low : ¬ d.point ≤ 0) (inside : d.point < d.digits.length) :
    d.digits.take d.point.toNat ≠ [] := by
  have nonempty : d.digits ≠ [] := by
    intro empty
    rw [empty, List.length_nil] at inside
    omega
  simp only [ne_eq, List.take_eq_nil_iff, nonempty, or_false]
  omega

theorem drop_point_ne_nil (d : Dec) (low : ¬ d.point ≤ 0) (inside : d.point < d.digits.length) :
    d.digits.drop d.point.toNat ≠ [] := by
  simp only [ne_eq, List.drop_eq_nil_iff]
  omega

/-- Positional notation; `frac` is the fraction an integral value gets. -/
def positional (d : Dec) (frac : Option Digits) : Token :=
  if empty : d.digits = [] then ⟨d.neg, Digits.zero, canonical_zero, frac, none⟩
  else if low : d.point ≤ 0 then
    ⟨d.neg, Digits.zero, canonical_zero,
      some (.ofValues (List.replicate (-d.point).toNat 0 ++ d.digits) (by simp [empty])
        (zeros_append_lt _ d.small)), none⟩
  else if inside : d.point < d.digits.length then
    ⟨d.neg, .ofValues (d.digits.take d.point.toNat) (take_point_ne_nil d low inside)
        (fun x member => d.small x (List.mem_of_mem_take member)),
      canonical_ofValues _ _ (head?_take_ne_zero d _),
      some (.ofValues (d.digits.drop d.point.toNat) (drop_point_ne_nil d low inside)
        (fun x member => d.small x (List.mem_of_mem_drop member))), none⟩
  else
    ⟨d.neg, .ofValues (d.digits ++ List.replicate (d.point - d.digits.length).toNat 0) (by simp [empty])
        (append_zeros_lt _ d.small),
      canonical_ofValues _ _ (by rw [List.head?_append_of_ne_nil _ empty]; exact d.head),
      frac, none⟩

theorem decOf_positional (d : Dec) (frac : Option Digits) (count : Nat)
    (zeros : (match frac with | none => [] | some run => run.values) = List.replicate count 0) :
    decOf (positional d frac) = d := by
  unfold positional
  split_ifs with empty low inside
  · refine decOf_eq _ d (count + 1) 0 rfl ?_ (fun nonempty => absurd empty nonempty)
    simp only [fracValues, zeros, empty, List.replicate_zero, List.append_nil]
    rw [Nat.add_comm, List.replicate_add]
    rfl
  · refine decOf_eq _ d ((-d.point).toNat + 1) 0 rfl ?_ ?_
    · simp only [fracValues, Digits.values_ofValues, List.replicate_zero, List.append_nil]
      rw [Nat.add_comm, List.replicate_add, List.append_assoc]
      rfl
    · intro _
      simp only [expValue, show Digits.zero.values.length = 1 from rfl]
      push_cast
      omega
  · refine decOf_eq _ d 0 0 rfl ?_ ?_
    · simp only [fracValues, Digits.values_ofValues, List.take_append_drop, List.replicate_zero,
        List.append_nil, List.nil_append]
    · intro _
      simp only [expValue, Digits.values_ofValues, List.length_take]
      push_cast
      omega
  · refine decOf_eq _ d 0 ((d.point - d.digits.length).toNat + count) rfl ?_ ?_
    · simp only [fracValues, Digits.values_ofValues, zeros, List.replicate_zero, List.nil_append,
        List.append_assoc, List.replicate_add]
    · intro _
      simp only [expValue, Digits.values_ofValues, List.length_append, List.length_replicate]
      push_cast
      omega

/-- A run of digits filled up with leading zeros to a width. -/
def padStart (width : Nat) (run : Digits) : Digits :=
  .ofValues (List.replicate (width - run.values.length) 0 ++ run.values) (by simp [run.values_ne_nil])
    (zeros_append_lt _ run.values_lt)

@[simp] theorem toNat_padStart (width : Nat) (run : Digits) :
    (padStart width run).toNat = run.toNat := by
  simp only [Digits.toNat, padStart, Digits.values_ofValues, List.reverse_append,
    List.reverse_replicate, Nat.ofDigits_append_replicate_zero]

/-- The exponent of scientific notation, always signed. -/
def exponentOf (width : Nat) (e : Int) : Exponent :=
  ⟨false, some (decide (e < 0)), padStart width (decimal e.natAbs)⟩

@[simp] theorem toInt_exponentOf (width : Nat) (e : Int) : (exponentOf width e).toInt = e := by
  simp only [Exponent.toInt, exponentOf, toNat_padStart, toNat_decimal, Option.some.injEq,
    decide_eq_true_eq]
  split_ifs <;> omega

/-- Scientific notation; `frac` is the fraction a single digit gets, and `width` the
least number of exponent digits. -/
def scientific (d : Dec) (frac : Option Digits) (width : Nat) : Token :=
  match shape : d.digits with
  | [] => ⟨d.neg, Digits.zero, canonical_zero, frac, none⟩
  | first :: rest =>
    ⟨d.neg, .ofValues [first] (by simp) (by simpa using d.small first (by simp [shape])),
      canonical_ofValues _ _ (by simpa [shape] using d.head),
      if more : rest = [] then frac
      else some (.ofValues rest more (fun x member => d.small x (by simp [shape, member]))),
      some (exponentOf width (d.point - 1))⟩

theorem decOf_scientific (d : Dec) (frac : Option Digits) (width count : Nat)
    (zeros : (match frac with | none => [] | some run => run.values) = List.replicate count 0) :
    decOf (scientific d frac width) = d := by
  unfold scientific
  split
  next shape =>
    refine decOf_eq _ d (count + 1) 0 rfl ?_ (fun nonempty => absurd shape nonempty)
    simp only [fracValues, zeros, shape, List.replicate_zero, List.append_nil]
    rw [Nat.add_comm, List.replicate_add]
    rfl
  next first rest shape =>
    by_cases more : rest = []
    · refine decOf_eq _ d 0 count rfl ?_ ?_
      · subst more
        simp only [fracValues, Digits.values_ofValues, dite_true, zeros, shape,
          List.replicate_zero, List.nil_append]
      · intro _
        simp only [expValue, toInt_exponentOf, Digits.values_ofValues, List.length_singleton]
        push_cast
        omega
    · refine decOf_eq _ d 0 0 rfl ?_ ?_
      · simp only [fracValues, Digits.values_ofValues, dif_neg more, shape, List.replicate_zero,
          List.nil_append, List.append_nil, List.singleton_append]
      · intro _
        simp only [expValue, toInt_exponentOf, Digits.values_ofValues, List.length_singleton]
        push_cast
        omega

end Tesera.Text.Decimal
