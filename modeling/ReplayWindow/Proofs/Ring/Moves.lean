import ReplayWindow.Proofs.Ring.Slots
import Mathlib.Data.List.Nodup

/-!
Moves of the front over a ring of any contents. A move zeroes the slot of each block that it
enters and leaves all other slots as they were. It goes from block to block, or clears the
whole ring when it enters as many blocks as there are slots. Then it would have come to
every slot anyway, and with fewer blocks it comes to no slot twice.
-/

namespace ReplayWindow.Ring

variable {r : Ring} {c : Counter}

theorem masked_of_two_pow {k : ℕ} (hsize : r.capacity = 2 ^ k)
    (hmask : r.slotMask.toNat = r.capacity - 1) : r.Masked where
  pos := by
    rw [hsize]
    exact Nat.two_pow_pos k
  slot_eq block := by
    rw [UInt64.toNat_and, hmask, hsize, Nat.and_two_pow_sub_one_eq_mod]

section Walk

/-- The clearing is a walk over the slots that it visits. -/
theorem clearBlocks_eq_foldl (slotMask first : UInt64) (count : ℕ) (blocks : Array UInt64) :
    clearBlocks slotMask first count blocks =
      (visited slotMask first count).foldl (fun blocks j => blocks.setIfInBounds j 0) blocks := by
  induction count generalizing first blocks with
  | zero => rfl
  | succ count ih =>
    rw [clearBlocks, visited, List.foldl_cons]
    exact ih (first + 1) _

/-- The ring with a zero written to the slot of every entered block in turn. -/
def walk (r : Ring) (c : Counter) : Ring where
  width := r.width
  last := c
  slotMask := r.slotMask
  blocks := (r.slotsEntered c).foldl (fun blocks j => blocks.setIfInBounds j 0) r.blocks

theorem Masked.clearBlocks_eq_walk (hr : r.Masked) (hc : r.last < c) :
    clearBlocks r.slotMask (blockOf r.last + 1) (blockOf c - blockOf r.last).toNat r.blocks =
      (r.walk c).blocks := by
  rw [clearBlocks_eq_foldl, visited_slide hr c hc]
  rfl

theorem Masked.walk_word (hr : r.Masked) (hc : r.last < c) (j : ℕ) :
    (r.walk c).word j = if j ∈ r.slotsEntered c then 0 else r.word j := by
  unfold word
  rw [← hr.clearBlocks_eq_walk hc, clearBlocks_getD, visited_slide hr c hc]

theorem Masked.walk_size (hr : r.Masked) (hc : r.last < c) :
    (r.walk c).blocks.size = r.blocks.size := by
  rw [← hr.clearBlocks_eq_walk hc, clearBlocks_size]

/-- A walk over as many blocks as the ring has slots leaves nothing. -/
theorem Masked.walk_blocks_of_long (hr : r.Masked) (hc : r.last < c)
    (hlong : r.capacity ≤ c.toNat / 64 - r.last.toNat / 64) :
    (r.walk c).blocks = Array.replicate r.capacity 0 := by
  have hpos := hr.pos
  apply eq_of_getD_eq 0
  · rw [hr.walk_size hc, Array.size_replicate]
    rfl
  · intro j
    have hword : (r.walk c).blocks.getD j 0 = if j ∈ r.slotsEntered c then 0 else r.word j :=
      hr.walk_word hc j
    rw [hword, replicate_getD]
    by_cases hj : j < r.capacity
    · have henters : r.Enters c j := enters_of_capacity_le hr c (by omega) j hj
      rw [if_pos ((mem_slotsEntered r c j).mpr henters)]
    · have hout : r.word j = 0 := getD_of_size_le (Nat.not_lt.mp hj) 0
      rw [hout, ite_self]

/-- Fewer blocks in a row than there are slots have different remainders. -/
theorem slotsEntered_nodup (hshort : c.toNat / 64 - r.last.toNat / 64 < r.capacity) :
    (r.slotsEntered c).Nodup := by
  unfold slotsEntered
  refine List.Nodup.map_on ?_ List.nodup_range'
  intro a ha b hb hslot
  rw [List.mem_range'_1] at ha hb
  exact eq_of_mod_eq_of_near hslot (by omega) (by omega)

end Walk

section Slide

theorem slideTo_of_long (hc : r.last < c)
    (hlong : r.capacity ≤ c.toNat / 64 - r.last.toNat / 64) :
    r.slideTo c = { r with last := c, blocks := Array.replicate r.capacity 0 } := by
  have hentered := entered_toNat r c hc
  simp only [slideTo, hentered, hlong, ↓reduceIte]

theorem Masked.slideTo_eq_walk (hr : r.Masked) (hc : r.last < c) : r.slideTo c = r.walk c := by
  by_cases hlong : r.capacity ≤ c.toNat / 64 - r.last.toNat / 64
  · rw [slideTo_of_long hc hlong, ← hr.walk_blocks_of_long hc hlong]
    rfl
  · have hentered := entered_toNat r c hc
    have hwalk := hr.clearBlocks_eq_walk hc
    rw [hentered] at hwalk
    simp only [Ring.slideTo, hentered, hlong, ↓reduceIte, hwalk]
    rfl

/-- What a move of the front to `c` does to a ring, slot by slot and as a whole. -/
structure Moves (r : Ring) (c : Counter) : Prop where
  last_eq : (r.slideTo c).last = c
  width_eq : (r.slideTo c).width = r.width
  mask_eq : (r.slideTo c).slotMask = r.slotMask
  size_eq : (r.slideTo c).blocks.size = r.blocks.size
  zeroed : ∀ j < r.capacity, r.Enters c j → (r.slideTo c).word j = 0
  kept : ∀ j, ¬ r.Enters c j → (r.slideTo c).word j = r.word j
  whole : r.capacity ≤ c.toNat / 64 - r.last.toNat / 64 →
    (r.slideTo c).blocks = Array.replicate r.capacity 0 ∧
      (r.slideTo c).blocks = clearBlocks r.slotMask (blockOf r.last + 1)
        (blockOf c - blockOf r.last).toNat r.blocks
  stepwise : c.toNat / 64 - r.last.toNat / 64 < r.capacity →
    (r.slideTo c).blocks = clearBlocks r.slotMask (blockOf r.last + 1)
        (blockOf c - blockOf r.last).toNat r.blocks ∧
      (r.slotsEntered c).Nodup
  visits : clearBlocks r.slotMask (blockOf r.last + 1) (blockOf c - blockOf r.last).toNat r.blocks =
    (r.slotsEntered c).foldl (fun blocks j => blocks.setIfInBounds j 0) r.blocks
  in_bounds : ∀ j ∈ r.slotsEntered c, j < r.capacity

/-- A ring whose size is a power of two, and whose mask goes with it, is cleared in just the
slots of the blocks that its front moves into, whatever it contained. -/
theorem move_clears_entered_blocks {k : ℕ} (hsize : r.capacity = 2 ^ k)
    (hmask : r.slotMask.toNat = r.capacity - 1) (hc : r.last < c) : Moves r c := by
  have hr : r.Masked := masked_of_two_pow hsize hmask
  have hloop := hr.clearBlocks_eq_walk hc
  have hslide : (r.slideTo c).blocks = clearBlocks r.slotMask (blockOf r.last + 1)
      (blockOf c - blockOf r.last).toNat r.blocks := by
    rw [hloop, hr.slideTo_eq_walk hc]
  constructor
  case last_eq => exact slideTo_last r c
  case width_eq => exact slideTo_width r c
  case mask_eq => exact slideTo_slotMask r c
  case size_eq => exact slideTo_capacity r c
  case zeroed =>
    intro j _ hj
    exact slideTo_word_entered hr c hc j hj
  case kept =>
    intro j hj
    exact slideTo_word_kept hr c hc j hj
  case whole =>
    intro hlong
    rw [slideTo_of_long hc hlong] at hslide ⊢
    exact ⟨rfl, hslide⟩
  case stepwise =>
    intro hshort
    exact ⟨hslide, slotsEntered_nodup hshort⟩
  case visits => exact hloop
  case in_bounds =>
    intro j hj
    obtain ⟨b, _, rfl⟩ := List.mem_map.mp hj
    exact Nat.mod_lt b hr.pos

/-- Over four slots a front in block 1 moves on by three blocks, one short of the whole ring,
and by four. Slot 1 is entered by block 5 and not before. -/
theorem moves_over_four_slots :
    let r : Ring := ⟨100, 70, 3, #[11, 22, 33, 44]⟩
    r.capacity = 2 ^ 2 ∧ r.slotMask.toNat = r.capacity - 1 ∧
    r.last < 319 ∧ Moves r 319 ∧ (r.slideTo 319).blocks = #[0, 22, 0, 0] ∧
    r.last < 320 ∧ Moves r 320 ∧ (r.slideTo 320).blocks = #[0, 0, 0, 0] := by
  intro r
  have hsize : r.capacity = 2 ^ 2 := rfl
  have hmask : r.slotMask.toNat = r.capacity - 1 := rfl
  have hnear : r.last < 319 := by decide
  have hfar : r.last < 320 := by decide
  exact ⟨hsize, hmask, hnear, move_clears_entered_blocks hsize hmask hnear, by decide,
    hfar, move_clears_entered_blocks hsize hmask hfar, by decide⟩

end Slide

end ReplayWindow.Ring
