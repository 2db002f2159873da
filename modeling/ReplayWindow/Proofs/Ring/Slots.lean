import ReplayWindow.Proofs.Cells
import ReplayWindow.Proofs.Ring.Geometry

/-!
What marking and sliding do to the slots of a ring. A mark sets one bit of one
slot. A slide zeroes the slots of the blocks that it enters and keeps the words
of all others, and the clearing of the whole ring is the same effect for a slide
so long that every slot is entered.
-/

namespace ReplayWindow.Ring

/-- The mask of the ring finds a slot as the remainder by the capacity. -/
structure Masked (r : Ring) : Prop where
  pos : 0 < r.capacity
  slot_eq : ∀ block : UInt64, (block &&& r.slotMask).toNat = block.toNat % r.capacity

/-- The word in slot `j`. A slot beyond the capacity reads as zero. -/
def word (r : Ring) (j : ℕ) : UInt64 := r.blocks.getD j 0

/-- Bit `p` of slot `j`. -/
def cell (r : Ring) (j p : ℕ) : Bool := (r.word j).toNat.testBit p

theorem Masked.slot {r : Ring} (hr : r.Masked) (c : Counter) :
    r.slot c = c.toNat / 64 % r.capacity := by
  unfold Ring.slot
  rw [hr.slot_eq, blockOf_toNat]

theorem Masked.slot_lt {r : Ring} (hr : r.Masked) (c : Counter) : r.slot c < r.capacity := by
  rw [hr.slot]
  exact Nat.mod_lt _ hr.pos

theorem isMarked_eq_cell (r : Ring) (c : Counter) :
    r.isMarked c = r.cell (r.slot c) (c.toNat % 64) := by
  unfold isMarked cell word
  rw [and_bitOf]

section Mark

theorem mark_capacity (r : Ring) (c : Counter) : (r.mark c).capacity = r.capacity := by
  simp [mark, capacity]

theorem mark_word (r : Ring) (c : Counter) (hc : r.slot c < r.capacity) (j : ℕ) :
    (r.mark c).word j = if r.slot c = j then r.word j ||| bitOf c else r.word j := by
  unfold word Ring.mark
  rw [modify_getD]
  by_cases hj : r.slot c = j
  · subst hj
    have hsize : r.slot c < r.blocks.size := hc
    rw [if_pos ⟨rfl, hsize⟩, if_pos rfl]
  · rw [if_neg (fun h => hj h.1), if_neg hj]

/-- A mark sets the cell of its counter and no other. -/
theorem mark_cell {r : Ring} (hr : r.Masked) (c : Counter) (j p : ℕ) :
    (r.mark c).cell j p =
      (r.cell j p || decide (c.toNat / 64 % r.capacity = j ∧ c.toNat % 64 = p)) := by
  unfold cell
  rw [mark_word r c (hr.slot_lt c), hr.slot c]
  by_cases hj : c.toNat / 64 % r.capacity = j
  · simp only [hj, ↓reduceIte, or_bitOf_testBit, true_and]
  · simp [hj]

end Mark

section Slide

/-- The slots that a clearing of `count` blocks visits, in order. -/
def visited (slotMask first : UInt64) : ℕ → List ℕ
  | 0 => []
  | count + 1 => (first &&& slotMask).toNat :: visited slotMask (first + 1) count

theorem clearBlocks_size (slotMask first : UInt64) (count : ℕ) (blocks : Array UInt64) :
    (clearBlocks slotMask first count blocks).size = blocks.size := by
  induction count generalizing first blocks with
  | zero => rfl
  | succ count ih =>
    unfold clearBlocks
    rw [ih]
    exact Array.size_setIfInBounds

private theorem setIfInBounds_zero_getD (blocks : Array UInt64) (i j : ℕ) :
    (blocks.setIfInBounds i 0).getD j 0 = if i = j then 0 else blocks.getD j 0 := by
  rw [setIfInBounds_getD]
  by_cases hij : i = j
  · by_cases hj : j < blocks.size
    · rw [if_pos ⟨hij, hj⟩, if_pos hij]
    · rw [if_neg (fun h => hj h.2), if_pos hij, getD_of_size_le (Nat.not_lt.mp hj)]
  · rw [if_neg (fun h => hij h.1), if_neg hij]

theorem clearBlocks_getD (slotMask first : UInt64) (count : ℕ) (blocks : Array UInt64) (j : ℕ) :
    (clearBlocks slotMask first count blocks).getD j 0 =
      if j ∈ visited slotMask first count then 0 else blocks.getD j 0 := by
  induction count generalizing first blocks with
  | zero => simp [clearBlocks, visited]
  | succ count ih =>
    unfold clearBlocks visited
    rw [ih, setIfInBounds_zero_getD]
    by_cases hrest : j ∈ visited slotMask (first + 1) count
    · simp [hrest]
    · simp only [hrest, ↓reduceIte, List.mem_cons, or_false]
      by_cases hfirst : (first &&& slotMask).toNat = j
      · rw [if_pos hfirst, if_pos hfirst.symm]
      · rw [if_neg hfirst, if_neg (Ne.symm hfirst)]

/-- The blocks follow one another, and the slot of each is found by its remainder. -/
theorem visited_eq_map {r : Ring} (hr : r.Masked) (first : UInt64) (count : ℕ)
    (hfits : first.toNat + count ≤ 2 ^ 64) :
    visited r.slotMask first count =
      (List.range' first.toNat count).map (· % r.capacity) := by
  induction count generalizing first with
  | zero => rfl
  | succ count ih =>
    have hrest : visited r.slotMask (first + 1) count =
        (List.range' (first.toNat + 1) count).map (· % r.capacity) := by
      by_cases hcount : count = 0
      · rw [hcount]
        rfl
      · have hnext : (first + 1).toNat = first.toNat + 1 := succ_toNat (by omega)
        rw [ih (first + 1) (by omega), hnext]
    rw [visited, hr.slot_eq, hrest, List.range'_succ, List.map_cons]

theorem slideTo_last (r : Ring) (c : Counter) : (r.slideTo c).last = c := by
  simp only [slideTo]
  split <;> rfl

theorem slideTo_width (r : Ring) (c : Counter) : (r.slideTo c).width = r.width := by
  simp only [slideTo]
  split <;> rfl

theorem slideTo_slotMask (r : Ring) (c : Counter) : (r.slideTo c).slotMask = r.slotMask := by
  simp only [slideTo]
  split <;> rfl

theorem slideTo_capacity (r : Ring) (c : Counter) : (r.slideTo c).capacity = r.capacity := by
  simp only [slideTo]
  split
  · simp [capacity]
  · exact clearBlocks_size _ _ _ _

theorem Masked.slideTo {r : Ring} (hr : r.Masked) (c : Counter) : (r.slideTo c).Masked where
  pos := by
    rw [slideTo_capacity]
    exact hr.pos
  slot_eq block := by
    rw [slideTo_capacity, slideTo_slotMask]
    exact hr.slot_eq block

/-- A slide of the front to `c` enters a block that is kept in slot `j`. -/
def Enters (r : Ring) (c : Counter) (j : ℕ) : Prop :=
  ∃ b, r.last.toNat / 64 < b ∧ b ≤ c.toNat / 64 ∧ b % r.capacity = j

/-- A slide by the capacity or more enters every slot. -/
theorem enters_of_capacity_le {r : Ring} (hr : r.Masked) (c : Counter)
    (hlong : r.last.toNat / 64 + r.capacity ≤ c.toNat / 64) (j : ℕ) (hj : j < r.capacity) :
    r.Enters c j := by
  -- the block of slot `j` among the `capacity` blocks that follow the front's block
  let start := r.last.toNat / 64 + 1
  let ahead := (j + (r.capacity - start % r.capacity)) % r.capacity
  have hahead : ahead < r.capacity := Nat.mod_lt _ hr.pos
  have hstart : start % r.capacity < r.capacity := Nat.mod_lt _ hr.pos
  refine ⟨start + ahead, by omega, by omega, ?_⟩
  rw [Nat.add_mod_mod, ← Nat.mod_add_mod]
  have hsum : start % r.capacity + (j + (r.capacity - start % r.capacity)) = j + r.capacity := by
    omega
  rw [hsum, Nat.add_mod_right, Nat.mod_eq_of_lt hj]

theorem entered_toNat (r : Ring) (c : Counter) (hc : r.last < c) :
    (blockOf c - blockOf r.last).toNat = c.toNat / 64 - r.last.toNat / 64 := by
  rw [UInt64.lt_iff_toNat_lt] at hc
  rw [UInt64.toNat_sub_of_le, blockOf_toNat, blockOf_toNat]
  rw [UInt64.le_iff_toNat_le, blockOf_toNat, blockOf_toNat]
  omega

/-- The slots of the blocks that a slide enters, in the order of the blocks. -/
def slotsEntered (r : Ring) (c : Counter) : List ℕ :=
  (List.range' (r.last.toNat / 64 + 1) (c.toNat / 64 - r.last.toNat / 64)).map (· % r.capacity)

theorem visited_slide {r : Ring} (hr : r.Masked) (c : Counter) (hc : r.last < c) :
    visited r.slotMask (blockOf r.last + 1) (blockOf c - blockOf r.last).toNat =
      r.slotsEntered c := by
  have hcount := entered_toNat r c hc
  rw [UInt64.lt_iff_toNat_lt] at hc
  have hbound := c.toNat_lt
  have hfirst : (blockOf r.last + 1).toNat = r.last.toNat / 64 + 1 := by
    rw [succ_toNat (by rw [blockOf_toNat]; omega), blockOf_toNat]
  rw [visited_eq_map hr _ _ (by omega), hfirst, hcount]
  rfl

theorem mem_slotsEntered (r : Ring) (c : Counter) (j : ℕ) :
    j ∈ r.slotsEntered c ↔ r.Enters c j := by
  unfold slotsEntered Enters
  rw [List.mem_map]
  constructor
  · rintro ⟨b, hb, hslot⟩
    rw [List.mem_range'_1] at hb
    exact ⟨b, by omega, by omega, hslot⟩
  · rintro ⟨b, hlow, hhigh, hslot⟩
    exact ⟨b, List.mem_range'_1.mpr (by omega), hslot⟩

theorem slideTo_word_entered {r : Ring} (hr : r.Masked) (c : Counter) (hc : r.last < c)
    (j : ℕ) (hj : r.Enters c j) : (r.slideTo c).word j = 0 := by
  simp only [slideTo]
  split
  · exact replicate_getD _ j 0
  · unfold word
    rw [clearBlocks_getD, visited_slide hr c hc, if_pos ((mem_slotsEntered r c j).mpr hj)]

/-- A slide keeps every word whose slot it does not enter. -/
theorem slideTo_word_kept {r : Ring} (hr : r.Masked) (c : Counter) (hc : r.last < c)
    (j : ℕ) (hj : ¬ r.Enters c j) : (r.slideTo c).word j = r.word j := by
  simp only [slideTo]
  split
  · next hlong =>
    have hout : r.capacity ≤ j := by
      by_contra hin
      rw [entered_toNat r c hc] at hlong
      have hpos := hr.pos
      exact hj (enters_of_capacity_le hr c (by omega) j (by omega))
    have hsize : r.blocks.size ≤ j := hout
    unfold word
    rw [replicate_getD, getD_of_size_le hsize]
  · unfold word
    rw [clearBlocks_getD, visited_slide hr c hc, if_neg (mt (mem_slotsEntered r c j).mp hj)]

end Slide

end ReplayWindow.Ring
