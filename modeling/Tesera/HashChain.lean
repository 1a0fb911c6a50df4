import Mathlib

/-!
Chains of items in which each item names the digest of the item before it, and the first
names none. Where digests determine items, a chain is determined by its set of items: any
chain built of items of another one is a prefix of it.
-/

namespace Tesera.HashChain

variable {α δ : Type} (digest : α → δ) (previous : α → Option δ)

/-- Each item names the digest of the item before it, the first one `before`. -/
def Linked : Option δ → List α → Prop
  | _, [] => True
  | before, x :: rest => previous x = before ∧ Linked (some (digest x)) rest

/-- The link after a list of items. -/
def lastLink (before : Option δ) (xs : List α) : Option δ :=
  xs.foldl (fun _ x => some (digest x)) before

variable {digest previous}

theorem linked_append {before : Option δ} {xs ys : List α} :
    Linked digest previous before (xs ++ ys) ↔
      Linked digest previous before xs ∧ Linked digest previous (lastLink digest before xs) ys := by
  induction xs generalizing before with
  | nil => simp [Linked, lastLink]
  | cons x xs ih => simp [Linked, lastLink, ih, and_assoc]

/-- The link at a position: `before` at the start, else the digest of the item before. -/
def linkAt (digest : α → δ) (before : Option δ) (xs : List α) : Nat → Option δ
  | 0 => before
  | j + 1 => (xs[j]?).map digest

theorem previous_getElem {xs : List α} {before : Option δ} (linked : Linked digest previous before xs)
    (i : Nat) (bound : i < xs.length) : previous xs[i] = linkAt digest before xs i := by
  induction xs generalizing before i with
  | nil => cases bound
  | cons x xs ih =>
    cases i with
    | zero => exact linked.1
    | succ j =>
      have inner := ih linked.2 j (by simpa using bound)
      rw [List.getElem_cons_succ, inner]
      cases j <;> rfl

/-- A chain whose items all belong to another chain is a prefix of it. -/
theorem prefix_of_members {xs ys : List α} (whole : Linked digest previous none xs)
    (part : Linked digest previous none ys) (nodup : xs.Nodup)
    (injective : ∀ a ∈ xs, ∀ b ∈ xs, digest a = digest b → a = b) (members : ∀ y ∈ ys, y ∈ xs) :
    ys <+: xs := by
  have same : ∀ i, ∀ bound : i < ys.length, xs[i]? = some ys[i] := by
    intro i
    induction i with
    | zero =>
      intro bound
      obtain ⟨j, inside, equal⟩ := List.mem_iff_getElem.mp (members ys[0] (List.getElem_mem bound))
      have found := previous_getElem whole j inside
      rw [equal, previous_getElem part 0 bound] at found
      -- only the first item of a chain names none
      cases j with
      | zero => rw [List.getElem?_eq_getElem inside, equal]
      | succ k => simp [linkAt, List.getElem?_eq_getElem (show k < xs.length by omega)] at found
    | succ i ih =>
      intro bound
      have before := ih (by omega)
      obtain ⟨j, inside, equal⟩ := List.mem_iff_getElem.mp (members ys[i + 1] (List.getElem_mem bound))
      have found := previous_getElem whole j inside
      rw [equal, previous_getElem part (i + 1) bound, linkAt,
        List.getElem?_eq_getElem (show i < ys.length by omega), Option.map_some] at found
      cases j with
      | zero => cases found
      | succ k =>
        rw [linkAt, List.getElem?_eq_getElem (show k < xs.length by omega), Option.map_some,
          Option.some.injEq] at found
        obtain ⟨here, value⟩ := List.getElem?_eq_some_iff.mp before
        have items := injective ys[i] (members _ (List.getElem_mem _)) xs[k] (List.getElem_mem _) found
        rw [← value] at items
        have index := (List.Nodup.getElem_inj_iff nodup).mp items
        subst index
        rw [List.getElem?_eq_getElem inside, equal]
  rw [List.prefix_iff_getElem?]
  exact same

end Tesera.HashChain
