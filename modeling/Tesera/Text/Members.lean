import Mathlib

/-!
Finite maps as association lists in strictly increasing key order. The order makes
equality of maps plain equality of lists, which is how the members of JSON objects
are compared; the order in which members were first inserted is not kept.
-/

namespace Tesera.Text.Members

variable {κ ν : Type} [LinearOrder κ]

abbrev Entries (κ ν : Type) := List (κ × ν)

def get : Entries κ ν → κ → Option ν
  | [], _ => none
  | (k, v) :: rest, key => if k = key then some v else get rest key

/-- Insert or replace the value of a key. -/
def put (key : κ) (value : ν) : Entries κ ν → Entries κ ν
  | [] => [(key, value)]
  | (k, v) :: rest =>
      if key < k then (key, value) :: (k, v) :: rest
      else if k = key then (key, value) :: rest
      else (k, v) :: put key value rest

/-- The map a sequence of assignments leaves: the last one to a key wins. -/
def ofPairs (pairs : List (κ × ν)) : Entries κ ν :=
  pairs.foldl (fun m p => put p.1 p.2 m) []

def Sorted (m : Entries κ ν) : Prop := m.Pairwise (fun a b => a.1 < b.1)

instance (m : Entries κ ν) : Decidable (Sorted m) := inferInstanceAs (Decidable (List.Pairwise _ m))

@[simp] theorem get_nil (key : κ) : get ([] : Entries κ ν) key = none := rfl

theorem sorted_nil : Sorted ([] : Entries κ ν) := List.Pairwise.nil

theorem get_eq_none_of_lt {m : Entries κ ν} {key : κ} (above : ∀ p ∈ m, key < p.1) :
    get m key = none := by
  induction m with
  | nil => rfl
  | cons p rest ih =>
    have head := above p (by simp)
    simp only [get, if_neg (ne_of_gt head)]
    exact ih (fun q member => above q (List.mem_cons_of_mem p member))

@[simp] theorem get_put_self (key : κ) (value : ν) (m : Entries κ ν) :
    get (put key value m) key = some value := by
  induction m with
  | nil => simp [put, get]
  | cons p rest ih =>
    unfold put
    split_ifs with below same
    · simp [get]
    · simp [get]
    · simp only [get, if_neg same, ih]

theorem get_put_of_ne {key other : κ} (different : other ≠ key) (value : ν) (m : Entries κ ν) :
    get (put key value m) other = get m other := by
  induction m with
  | nil => simp [put, get, different.symm]
  | cons p rest ih =>
    unfold put
    split_ifs with below same
    · simp only [get, if_neg different.symm]
    · simp only [get, same, if_neg different.symm]
    · simp only [get, ih]

theorem mem_put {key : κ} {value : ν} {m : Entries κ ν} {p : κ × ν}
    (member : p ∈ put key value m) : p = (key, value) ∨ p ∈ m := by
  induction m with
  | nil => simpa [put] using member
  | cons q rest ih =>
    unfold put at member
    split_ifs at member with below same
    · rcases List.mem_cons.mp member with rfl | inside
      · exact .inl rfl
      · exact .inr inside
    · rcases List.mem_cons.mp member with rfl | inside
      · exact .inl rfl
      · exact .inr (List.mem_cons_of_mem q inside)
    · rcases List.mem_cons.mp member with rfl | inside
      · exact .inr (by simp)
      · rcases ih inside with same | inside
        · exact .inl same
        · exact .inr (List.mem_cons_of_mem q inside)

theorem mem_put_self (key : κ) (value : ν) (m : Entries κ ν) : (key, value) ∈ put key value m := by
  induction m with
  | nil => exact List.mem_cons_self
  | cons p rest ih =>
    unfold put
    split_ifs with below same
    · exact List.mem_cons_self
    · exact List.mem_cons_self
    · exact List.mem_cons_of_mem p ih

/-- The entries under other keys stay. -/
theorem mem_put_of_ne {key : κ} {value : ν} {m : Entries κ ν} {p : κ × ν} (member : p ∈ m) (other : p.1 ≠ key) :
    p ∈ put key value m := by
  induction m with
  | nil => cases member
  | cons q rest ih =>
    unfold put
    split_ifs with below same
    · exact List.mem_cons_of_mem _ member
    · apply List.mem_cons_of_mem
      apply (List.mem_cons.mp member).resolve_left
      intro equal
      exact other (equal ▸ same)
    · rw [List.mem_cons] at member ⊢
      exact member.imp_right ih

theorem sorted_put {m : Entries κ ν} (sorted : Sorted m) (key : κ) (value : ν) :
    Sorted (put key value m) := by
  induction m with
  | nil => simp [put, Sorted]
  | cons p rest ih =>
    obtain ⟨above, tail⟩ := List.pairwise_cons.mp sorted
    unfold put
    split_ifs with below same
    · refine List.pairwise_cons.mpr ⟨?_, sorted⟩
      intro q member
      rcases List.mem_cons.mp member with rfl | inside
      · exact below
      · exact below.trans (above q inside)
    · refine List.pairwise_cons.mpr ⟨?_, tail⟩
      intro q member
      exact same ▸ above q member
    · refine List.pairwise_cons.mpr ⟨?_, ih tail⟩
      intro q member
      rcases mem_put member with rfl | inside
      · exact lt_of_le_of_ne (not_lt.mp below) same
      · exact above q inside

theorem sorted_foldl_put (pairs : List (κ × ν)) {m : Entries κ ν} (sorted : Sorted m) :
    Sorted (pairs.foldl (fun m p => put p.1 p.2 m) m) := by
  induction pairs generalizing m with
  | nil => exact sorted
  | cons p pairs ih => exact ih (sorted_put sorted p.1 p.2)

theorem sorted_ofPairs (pairs : List (κ × ν)) : Sorted (ofPairs pairs) :=
  sorted_foldl_put pairs sorted_nil

theorem mem_ofPairs {pairs : List (κ × ν)} {p : κ × ν} (member : p ∈ ofPairs pairs) : p ∈ pairs := by
  have fold : ∀ (m : Entries κ ν), p ∈ pairs.foldl (fun m p => put p.1 p.2 m) m → p ∈ m ∨ p ∈ pairs := by
    clear member
    induction pairs with
    | nil => exact fun m inside => .inl inside
    | cons q pairs ih =>
      intro m inside
      rcases ih _ inside with early | late
      · rcases mem_put early with rfl | early
        · exact .inr List.mem_cons_self
        · exact .inl early
      · exact .inr (List.mem_cons_of_mem q late)
  exact (fold [] member).resolve_left List.not_mem_nil

/-- The value the last pair with a key has. -/
def last : List (κ × ν) → κ → Option ν
  | [], _ => none
  | (k, v) :: rest, key => (last rest key).or (if k = key then some v else none)

theorem get_ofPairs (pairs : List (κ × ν)) (key : κ) : get (ofPairs pairs) key = last pairs key := by
  have fold : ∀ m : Entries κ ν, get (pairs.foldl (fun m p => put p.1 p.2 m) m) key = (last pairs key).or (get m key) := by
    induction pairs with
    | nil => exact fun _ => rfl
    | cons p pairs ih =>
      intro m
      rw [List.foldl_cons, ih, last, Option.or_assoc]
      by_cases same : p.1 = key
      · rw [if_pos same, ← same, get_put_self]
        rfl
      · rw [if_neg same, get_put_of_ne (Ne.symm same)]
        rfl
  rw [ofPairs, fold [], get_nil, Option.or_none]

theorem isSome_get {m : Entries κ ν} {key : κ} : (get m key).isSome = true ↔ key ∈ m.map Prod.fst := by
  induction m with
  | nil => simp
  | cons p m ih =>
    rw [get, List.map_cons, List.mem_cons]
    split_ifs with same
    · simp [same]
    · rw [ih, or_iff_right (Ne.symm same)]

theorem isSome_last {pairs : List (κ × ν)} {key : κ} : (last pairs key).isSome = true ↔ key ∈ pairs.map Prod.fst := by
  induction pairs with
  | nil => simp [last]
  | cons p pairs ih =>
    rw [last, Option.isSome_or, Bool.or_eq_true, ih, List.map_cons, List.mem_cons, or_comm]
    split_ifs with same
    · simp [same]
    · simp [Ne.symm same]

/-- The keys of a map are those assigned to. -/
theorem mem_keys_ofPairs {pairs : List (κ × ν)} {key : κ} :
    key ∈ (ofPairs pairs).map Prod.fst ↔ key ∈ pairs.map Prod.fst := by
  rw [← isSome_get, get_ofPairs, isSome_last]

theorem put_above {m : Entries κ ν} {key : κ} (value : ν) (above : ∀ p ∈ m, p.1 < key) :
    put key value m = m ++ [(key, value)] := by
  induction m with
  | nil => rfl
  | cons p rest ih =>
    have head := above p (by simp)
    have tail := ih (fun q member => above q (List.mem_cons_of_mem p member))
    simp only [put, if_neg (not_lt.mpr head.le), if_neg (ne_of_lt head), tail, List.cons_append]

private theorem foldl_put_sorted (m pairs : Entries κ ν) (sorted : Sorted (m ++ pairs)) :
    pairs.foldl (fun m p => put p.1 p.2 m) m = m ++ pairs := by
  induction pairs generalizing m with
  | nil => simp
  | cons p pairs ih =>
    have above : ∀ q ∈ m, q.1 < p.1 :=
      fun q member => (List.pairwise_append.mp sorted).2.2 q member p (by simp)
    have assoc : m ++ p :: pairs = (m ++ [(p.1, p.2)]) ++ pairs := by simp
    simp only [List.foldl_cons, put_above p.2 above]
    rw [ih _ (assoc ▸ sorted), assoc]

/-- Assigning the members of a map in order rebuilds it. -/
theorem ofPairs_of_sorted {m : Entries κ ν} (sorted : Sorted m) : ofPairs m = m :=
  foldl_put_sorted [] m sorted

theorem sorted_filter {m : Entries κ ν} (sorted : Sorted m) (keep : κ × ν → Bool) :
    Sorted (m.filter keep) := List.Pairwise.filter keep sorted

/-- Keeping some of the keys. -/
theorem get_filter (keep : κ → Bool) (m : Entries κ ν) (key : κ) :
    get (m.filter (fun p => keep p.1)) key = if keep key then get m key else none := by
  induction m with
  | nil => simp
  | cons p rest ih =>
    by_cases same : p.1 = key
    · subst same
      cases kept : keep p.1
      · rw [List.filter_cons_of_neg (by simp [kept]), ih]
        simp [kept]
      · rw [List.filter_cons_of_pos (by simp [kept])]
        simp [get]
    · cases kept : keep p.1
      · rw [List.filter_cons_of_neg (by simp [kept]), ih]
        simp [get, same]
      · rw [List.filter_cons_of_pos (by simp [kept])]
        simp only [get, if_neg same, ih]

theorem mem_of_get {m : Entries κ ν} {key : κ} {value : ν} (found : get m key = some value) :
    (key, value) ∈ m := by
  induction m with
  | nil => cases found
  | cons p rest ih =>
    unfold get at found
    split_ifs at found with same
    · cases found
      subst same
      simp
    · exact List.mem_cons_of_mem p (ih found)

theorem get_of_mem {m : Entries κ ν} (sorted : Sorted m) {key : κ} {value : ν}
    (member : (key, value) ∈ m) : get m key = some value := by
  induction m with
  | nil => cases member
  | cons p rest ih =>
    obtain ⟨above, tail⟩ := List.pairwise_cons.mp sorted
    rcases List.mem_cons.mp member with rfl | inside
    · simp [get]
    · have below := above _ inside
      simp only [get, if_neg (ne_of_lt below)]
      exact ih tail inside

/-- Sorted maps with the same values at every key are equal. -/
theorem get_map {μ : Type} (f : ν → μ) (m : Entries κ ν) (key : κ) :
    get (m.map (fun entry => (entry.1, f entry.2))) key = (get m key).map f := by
  induction m with
  | nil => rfl
  | cons entry rest ih =>
    simp only [List.map_cons, get]
    split_ifs
    · rfl
    · exact ih

theorem ext_get {a b : Entries κ ν} (left : Sorted a) (right : Sorted b)
    (same : ∀ key, get a key = get b key) : a = b := by
  induction a generalizing b with
  | nil =>
    cases b with
    | nil => rfl
    | cons q b => simpa [get] using same q.1
  | cons p a ih =>
    cases b with
    | nil => simpa [get] using same p.1
    | cons q b =>
      obtain ⟨abovep, tailp⟩ := List.pairwise_cons.mp left
      obtain ⟨aboveq, tailq⟩ := List.pairwise_cons.mp right
      have keys : p.1 = q.1 := by
        rcases lt_trichotomy p.1 q.1 with lower | equal | upper
        · have missing : get (q :: b) p.1 = none := get_eq_none_of_lt (by
            intro r member
            rcases List.mem_cons.mp member with rfl | inside
            · exact lower
            · exact lower.trans (aboveq r inside))
          rw [← same, get, if_pos rfl] at missing
          cases missing
        · exact equal
        · have missing : get (p :: a) q.1 = none := get_eq_none_of_lt (by
            intro r member
            rcases List.mem_cons.mp member with rfl | inside
            · exact upper
            · exact upper.trans (abovep r inside))
          rw [same, get, if_pos rfl] at missing
          cases missing
      have values : p.2 = q.2 := by
        have := same p.1
        rw [get, if_pos rfl, get, if_pos keys.symm] at this
        exact Option.some.inj this
      have heads : p = q := Prod.ext keys values
      subst heads
      congr 1
      apply ih tailp tailq
      intro key
      by_cases here : p.1 = key
      · subst here
        rw [get_eq_none_of_lt abovep, get_eq_none_of_lt aboveq]
      · have := same key
        rwa [get, if_neg here, get, if_neg here] at this

end Tesera.Text.Members
