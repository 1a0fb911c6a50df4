import Tesera.Text.Members

/-!
The first of an endless list of different names that no entry of a map has. Among one more
name than there are entries, one is free.
-/

namespace Tesera.Text.FreeName
open Tesera.Text.Members

variable {κ ν : Type} [LinearOrder κ]

/-- The first index whose name is free. -/
def firstFree (entries : Entries κ ν) (name : Nat → κ) : Nat :=
  (List.range entries.length).findIdx (fun index => (get entries (name index)).isNone)

theorem get_firstFree (entries : Entries κ ν) {name : Nat → κ} (injective : Function.Injective name) :
    get entries (name (firstFree entries name)) = none := by
  by_contra taken
  have before : ∀ index < firstFree entries name, get entries (name index) ≠ none := by
    intro index less free
    have stays := List.not_of_lt_findIdx less
    simp [free] at stays
  have all : entries.length ≤ firstFree entries name := by
    by_contra found
    have free := @List.findIdx_getElem _ (fun index => (get entries (name index)).isNone) (List.range entries.length)
      (by simpa [firstFree] using found)
    rw [List.getElem_range, Option.isNone_iff_eq_none] at free
    exact taken free
  have keys : ∀ index < entries.length + 1, name index ∈ entries.map Prod.fst := by
    intro index less
    rw [← isSome_get, Option.isSome_iff_ne_none]
    by_cases earlier : index < firstFree entries name
    · exact before index earlier
    · have last : index = firstFree entries name := by omega
      rwa [last]
  have distinct : ((List.range (entries.length + 1)).map name).Nodup := List.nodup_range.map injective
  have inside : (List.range (entries.length + 1)).map name ⊆ entries.map Prod.fst := by
    intro key member
    obtain ⟨index, inRange, rfl⟩ := List.mem_map.mp member
    exact keys index (List.mem_range.mp inRange)
  have tooMany := (List.subperm_of_subset distinct inside).length_le
  rw [List.length_map, List.length_map, List.length_range] at tooMany
  omega

end Tesera.Text.FreeName
