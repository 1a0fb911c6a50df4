import Mathlib

/-!
A list is determined by the images of its elements and by those elements that are not their
own image, with their places.
-/

namespace Tesera.Text.Placement

variable {α β : Type} (image : α → List β) (kept : α → Bool)

/-- The kept elements, and after how much of the image each stands. -/
def places (i : Nat) : List α → List (Nat × α)
  | [] => []
  | e :: rest =>
      if kept e then (i, e) :: places (i + (image e).length) rest else places (i + (image e).length) rest

variable {image kept}

theorem places_cons_pos {e : α} (keeps : kept e = true) (i : Nat) (rest : List α) :
    places image kept i (e :: rest) = (i, e) :: places image kept (i + (image e).length) rest :=
  if_pos keeps

theorem places_cons_neg {e : α} (drops : kept e = false) (i : Nat) (rest : List α) :
    places image kept i (e :: rest) = places image kept (i + (image e).length) rest := by
  rw [places, if_neg (by simp [drops])]

theorem places_append (i : Nat) (left right : List α) :
    places image kept i (left ++ right) =
      places image kept i left ++ places image kept (i + (left.flatMap image).length) right := by
  induction left generalizing i with
  | nil => rfl
  | cons e left ih =>
    rw [List.cons_append, List.flatMap_cons, List.length_append, ← Nat.add_assoc]
    by_cases keeps : kept e = true
    · rw [places_cons_pos keeps, places_cons_pos keeps, ih, List.cons_append]
    · have drops : kept e = false := by simpa using keeps
      rw [places_cons_neg drops, places_cons_neg drops, ih]

theorem places_eq_nil {list : List α} (drops : ∀ e ∈ list, kept e = false) (i : Nat) : places image kept i list = [] := by
  induction list generalizing i with
  | nil => rfl
  | cons e rest ih =>
    rw [places_cons_neg (drops e List.mem_cons_self)]
    exact ih (fun d found => drops d (List.mem_cons_of_mem e found)) _

theorem le_of_mem_places {i : Nat} {list : List α} {place : Nat × α} (found : place ∈ places image kept i list) :
    i ≤ place.1 := by
  induction list generalizing i with
  | nil => exact absurd found List.not_mem_nil
  | cons e rest ih =>
    by_cases keeps : kept e = true
    · rw [places_cons_pos keeps] at found
      apply (List.mem_cons.mp found).elim
      · intro first
        exact first ▸ Nat.le_refl i
      · intro later
        exact le_of_add_le_left (ih later)
    · rw [places_cons_neg (by simpa using keeps)] at found
      exact le_of_add_le_left (ih found)

end Tesera.Text.Placement

namespace Tesera.Text.Placement

variable {α : Type} {image : α → List α} {kept : α → Bool}

/-- A kept element in one list stands against nothing else in the other. -/
theorem head_of_places (own : ∀ e, kept e = false → image e = [e]) {e : α} {left right : List α} {i : Nat}
    (keeps : kept e = true) (same : places image kept i (e :: left) = places image kept i right) :
    ∃ rest, right = e :: rest ∧ places image kept (i + (image e).length) left = places image kept (i + (image e).length) rest := by
  cases right with
  | nil =>
    rw [places_cons_pos keeps] at same
    exact absurd same (List.cons_ne_nil _ _)
  | cons d rest =>
    rw [places_cons_pos keeps] at same
    by_cases other : kept d = true
    · rw [places_cons_pos other, List.cons.injEq, Prod.mk.injEq] at same
      refine ⟨rest, by rw [same.1.2], ?_⟩
      rw [same.2, same.1.2]
    · have drops : kept d = false := by simpa using other
      rw [places_cons_neg drops, own d drops] at same
      have later : i + 1 ≤ i := le_of_mem_places (same ▸ List.mem_cons_self)
      omega

theorem eq_of_places (own : ∀ e, kept e = false → image e = [e]) {left right : List α} {i : Nat}
    (images : left.flatMap image = right.flatMap image) (same : places image kept i left = places image kept i right) :
    left = right := by
  induction left generalizing right i with
  | nil =>
    cases right with
    | nil => rfl
    | cons d rest =>
      by_cases keeps : kept d = true
      · obtain ⟨_, absent, _⟩ := head_of_places own keeps same.symm
        cases absent
      · rw [List.flatMap_cons, own d (by simpa using keeps)] at images
        cases images
  | cons e left ih =>
    by_cases keeps : kept e = true
    · obtain ⟨rest, here, later⟩ := head_of_places own keeps same
      rw [here, List.flatMap_cons, List.flatMap_cons] at images
      rw [here, ih (List.append_cancel_left images) later]
    · have drops : kept e = false := by simpa using keeps
      cases right with
      | nil =>
        rw [List.flatMap_cons, own e drops] at images
        cases images
      | cons d rest =>
        by_cases other : kept d = true
        · obtain ⟨_, first, _⟩ := head_of_places own other same.symm
          rw [List.cons.injEq] at first
          rw [first.1] at drops
          rw [drops] at other
          cases other
        · have single : kept d = false := by simpa using other
          rw [List.flatMap_cons, List.flatMap_cons, own e drops, own d single] at images
          rw [places_cons_neg drops, places_cons_neg single, own e drops, own d single] at same
          have heads := List.cons.inj images
          rw [heads.1, ih heads.2 same]

/-- A list is known by its image and what it keeps. -/
theorem eq_iff_places (own : ∀ e, kept e = false → image e = [e]) {left right : List α} :
    left = right ↔ left.flatMap image = right.flatMap image ∧ places image kept 0 left = places image kept 0 right := by
  constructor
  · intro same
    rw [same]
    exact ⟨rfl, rfl⟩
  · intro alike
    exact eq_of_places own alike.1 alike.2

end Tesera.Text.Placement
