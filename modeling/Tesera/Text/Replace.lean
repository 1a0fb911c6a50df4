import Mathlib

/-!
Replacing every occurrence of a list in a list, from the left and without overlaps. What is put
in is bracketed by two elements; a list without these that is found afterwards was there before,
and does not contain what was replaced.
-/

namespace Tesera.Text.Replace

variable {α : Type} [DecidableEq α]

/-- Replace in the text after as many elements as an occurrence still covers. -/
def replaceFrom (raw new : List α) : Nat → List α → List α
  | _, [] => []
  | covered + 1, _ :: rest => replaceFrom raw new covered rest
  | 0, c :: rest =>
      if raw <+: c :: rest then new ++ replaceFrom raw new (raw.length - 1) rest
      else c :: replaceFrom raw new 0 rest

def replace (raw new text : List α) : List α := replaceFrom raw new 0 text

omit [DecidableEq α] in
theorem eq_nil_of_prefix_cons {x : α} {part right : List α} (absent : x ∉ part) (starts : part <+: x :: right) : part = [] := by
  apply (List.prefix_cons_iff.mp starts).resolve_right
  intro found
  obtain ⟨rest, same, _⟩ := found
  exact absent (same ▸ List.mem_cons_self)

omit [DecidableEq α] in
/-- A list without an element is on one side of it. -/
theorem prefix_of_prefix_append_cons {x : α} {part left right : List α} (absent : x ∉ part) (starts : part <+: left ++ x :: right) :
    part <+: left := by
  induction left generalizing part with
  | nil =>
    rw [eq_nil_of_prefix_cons absent starts]
  | cons c left ih =>
    apply (List.prefix_cons_iff.mp starts).elim
    · intro empty
      rw [empty]
      exact List.nil_prefix
    · intro found
      obtain ⟨rest, same, later⟩ := found
      have without : x ∉ rest := fun member => absent (same ▸ List.mem_cons_of_mem c member)
      exact List.prefix_cons_iff.mpr (.inr ⟨rest, same, ih without later⟩)

omit [DecidableEq α] in
theorem infix_append_cons {x : α} {part left right : List α} (absent : x ∉ part) (inside : part <:+: left ++ x :: right) :
    part <:+: left ∨ part <:+: right := by
  induction left with
  | nil =>
    apply (List.infix_cons_iff.mp inside).elim
    · intro starts
      exact .inl (List.infix_nil.mpr (eq_nil_of_prefix_cons absent starts))
    · exact .inr
  | cons c left ih =>
    apply (List.infix_cons_iff.mp inside).elim
    · intro starts
      exact .inl (prefix_of_prefix_append_cons absent starts).isInfix
    · intro later
      exact (ih later).imp_left (fun found => List.infix_cons_iff.mpr (.inr found))

theorem replaceFrom_of_absent {raw new text : List α} (absent : ¬ raw <:+: text) : replaceFrom raw new 0 text = text := by
  induction text with
  | nil => rfl
  | cons c rest ih =>
    have other := fun found => absent (List.infix_cons_iff.mpr found)
    rw [replaceFrom, if_neg (fun starts => other (.inl starts)), ih (fun later => other (.inr later))]

theorem replace_of_absent {raw new text : List α} (absent : ¬ raw <:+: text) : replace raw new text = text :=
  replaceFrom_of_absent absent

section Bracketed

variable {raw inner : List α} {opening closing : α}

/-- What begins the replaced text, and does not have the opening bracket, begins the text. -/
theorem prefix_replaceFrom (nonempty : raw ≠ []) {part text : List α} {covered : Nat} (opens : opening ∉ part)
    (starts : part <+: replaceFrom raw (opening :: (inner ++ [closing])) covered text) :
    part <+: text.drop covered ∧ ¬ raw <:+: part := by
  have none : ¬ raw <:+: [] := fun inside => nonempty (List.infix_nil.mp inside)
  induction text generalizing part covered with
  | nil =>
    have empty : part = [] := List.prefix_nil.mp (by simpa [replaceFrom] using starts)
    rw [empty]
    exact ⟨List.nil_prefix, none⟩
  | cons c rest ih =>
    cases covered with
    | succ covered =>
      rw [List.drop_succ_cons]
      exact ih opens starts
    | zero =>
      rw [replaceFrom] at starts
      rw [List.drop_zero]
      by_cases found : raw <+: c :: rest
      · rw [if_pos found, List.cons_append] at starts
        have empty : part = [] := eq_nil_of_prefix_cons opens starts
        rw [empty]
        exact ⟨List.nil_prefix, none⟩
      · rw [if_neg found] at starts
        apply (List.prefix_cons_iff.mp starts).elim
        · intro empty
          rw [empty]
          exact ⟨List.nil_prefix, none⟩
        · intro first
          obtain ⟨tail, same, later⟩ := first
          have without : opening ∉ tail := fun member => opens (same ▸ List.mem_cons_of_mem c member)
          obtain ⟨there, absent⟩ := ih without later
          have whole : part <+: c :: rest := List.prefix_cons_iff.mpr (.inr ⟨tail, same, there⟩)
          refine ⟨whole, fun inside => ?_⟩
          rw [same] at inside whole
          apply (List.infix_cons_iff.mp inside).elim
          · intro here
            exact found (here.trans whole)
          · exact absent

theorem infix_replaceFrom (nonempty : raw ≠ []) {part text : List α} {covered : Nat} (some : part ≠ []) (opens : opening ∉ part)
    (closes : closing ∉ part) (elsewhere : ¬ part <:+: inner)
    (inside : part <:+: replaceFrom raw (opening :: (inner ++ [closing])) covered text) :
    part <:+: text ∧ ¬ raw <:+: part := by
  induction text generalizing covered with
  | nil => exact absurd (List.infix_nil.mp (by simpa [replaceFrom] using inside)) some
  | cons c rest ih =>
    have later := fun found : part <:+: rest => List.infix_cons_iff.mpr (.inr found : part <+: c :: rest ∨ part <:+: rest)
    cases covered with
    | succ covered => exact (ih inside).imp_left later
    | zero =>
      rw [replaceFrom] at inside
      by_cases found : raw <+: c :: rest
      · rw [if_pos found, ← List.cons_append, List.append_assoc, List.singleton_append] at inside
        apply (infix_append_cons closes inside).elim
        · intro bracket
          apply (List.infix_cons_iff.mp bracket).elim
          · intro starts
            exact absurd (eq_nil_of_prefix_cons opens starts) some
          · intro within
            exact absurd within elsewhere
        · intro after
          exact (ih after).imp_left later
      · rw [if_neg found] at inside
        have whole : replaceFrom raw (opening :: (inner ++ [closing])) 0 (c :: rest) =
            c :: replaceFrom raw (opening :: (inner ++ [closing])) 0 rest := by
          rw [replaceFrom, if_neg found]
        apply (List.infix_cons_iff.mp inside).elim
        · intro starts
          rw [← whole] at starts
          exact (prefix_replaceFrom nonempty opens starts).imp_left List.IsPrefix.isInfix
        · intro after
          exact (ih after).imp_left later

/-- A list without brackets that is found after a replacement. -/
theorem infix_replace (nonempty : raw ≠ []) {part text : List α} (some : part ≠ []) (opens : opening ∉ part)
    (closes : closing ∉ part) (elsewhere : ¬ part <:+: inner)
    (inside : part <:+: replace raw (opening :: (inner ++ [closing])) text) : part <:+: text ∧ ¬ raw <:+: part :=
  infix_replaceFrom nonempty some opens closes elsewhere inside

end Bracketed

end Tesera.Text.Replace
