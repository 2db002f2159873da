import Mathlib.Data.Nat.Notation

/-!
Arrays read at any index, with a default beyond the end. A write changes the
reading at one index, and arrays of one size with the same readings are equal.
-/

namespace ReplayWindow

section Cells

variable {α : Type}

theorem replicate_getD (n i : ℕ) (value : α) :
    (Array.replicate n value).getD i value = value := by
  rw [Array.getD_eq_getD_getElem?, Array.getElem?_replicate]
  split <;> rfl

theorem getD_of_size_le {cells : Array α} {i : ℕ} (hi : cells.size ≤ i) (default : α) :
    cells.getD i default = default := by
  rw [Array.getD_eq_getD_getElem?, Array.getElem?_eq_none hi, Option.getD_none]

theorem setIfInBounds_getD (cells : Array α) (i j : ℕ) (value default : α) :
    (cells.setIfInBounds i value).getD j default =
      if i = j ∧ j < cells.size then value else cells.getD j default := by
  simp only [Array.getD_eq_getD_getElem?, Array.getElem?_setIfInBounds]
  by_cases hij : i = j
  · subst hij
    by_cases hi : i < cells.size
    · simp [hi]
    · simp [hi]
  · simp [hij]

theorem modify_getD (cells : Array α) (i j : ℕ) (f : α → α) (default : α) :
    (cells.modify i f).getD j default =
      if i = j ∧ j < cells.size then f (cells.getD j default) else cells.getD j default := by
  simp only [Array.getD_eq_getD_getElem?, Array.getElem?_modify]
  by_cases hij : i = j
  · subst hij
    by_cases hi : i < cells.size
    · simp [hi]
    · simp [hi]
  · simp [hij]

theorem eq_of_getD_eq {cells others : Array α} (default : α) (hsize : cells.size = others.size)
    (hread : ∀ i, cells.getD i default = others.getD i default) : cells = others := by
  apply Array.ext hsize
  intro i hi hi'
  have hsame := hread i
  rwa [Array.getD_eq_getD_getElem?, Array.getD_eq_getD_getElem?,
    Array.getElem?_eq_getElem hi, Array.getElem?_eq_getElem hi'] at hsame

/-- A change in place is a read and a write. -/
theorem modify_eq_setIfInBounds (cells : Array α) (i : ℕ) (f : α → α) (default : α) :
    cells.modify i f = cells.setIfInBounds i (f (cells.getD i default)) := by
  apply eq_of_getD_eq default (by simp)
  intro j
  rw [modify_getD, setIfInBounds_getD]
  by_cases hij : i = j
  · rw [hij]
  · rw [if_neg (fun h => hij h.1), if_neg (fun h => hij h.1)]

end Cells

end ReplayWindow
