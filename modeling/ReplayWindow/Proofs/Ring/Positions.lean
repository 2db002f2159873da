import ReplayWindow.Proofs.Checked.Ring
import Mathlib.Algebra.Order.Floor.Div
import Mathlib.GroupTheory.GroupAction.Ring

/-!
Where a ring keeps the marks of the counters that matter at one time: those of the window,
and those ahead of the front that share its block. They lie in fewer blocks in a row than
the ring has slots, however the window is placed over the blocks, so two of them never share
a bit. The number of slots is the least power of two with room for these blocks, and it is
computed without a fault up to the greatest width.
-/

namespace ReplayWindow.Ring

section Size

theorem blocksNeeded_eq_ceilDiv (width : UInt64) :
    (blocksNeeded width).toNat = width.toNat ⌈/⌉ 64 + 1 := by
  rw [blocksNeeded_toNat, Nat.ceilDiv_eq_add_pred_div]
  rfl

/-- The needed blocks are far from the limit for rounding up in a word. -/
theorem blocksNeeded_mem (width : UInt64) :
    1 ≤ (blocksNeeded width).toNat ∧ (blocksNeeded width).toNat ≤ 2 ^ 63 := by
  have hw := width.toNat_lt
  rw [blocksNeeded_toNat]
  omega

theorem capacityFor_isLeast (width : UInt64) :
    IsLeast {n | (∃ k, n = 2 ^ k) ∧ width.toNat ⌈/⌉ 64 + 1 ≤ n} (capacityFor width).toNat := by
  obtain ⟨hpos, hle⟩ := blocksNeeded_mem width
  obtain ⟨k, hpow, hroom, hleast⟩ := powerAtLeast_least (blocksNeeded width) hpos hle
  have hcapacity : (capacityFor width).toNat = 2 ^ k := hpow
  rw [hcapacity, ← blocksNeeded_eq_ceilDiv]
  constructor
  · exact ⟨⟨k, rfl⟩, hroom⟩
  · rintro n ⟨⟨j, rfl⟩, hfits⟩
    exact Nat.pow_le_pow_right (by decide) (hleast j hfits)

theorem capacityFor_le (width : UInt64) : (capacityFor width).toNat ≤ 2 ^ 59 := by
  obtain ⟨k, hk, hpow, _⟩ := capacityFor_two_pow width
  rw [hpow]
  exact Nat.pow_le_pow_right (by decide) hk

end Size

section Live

/-- The window behind `last` covers the counter, or `last` has come to its block and not
yet to the counter. -/
def Live (width : UInt64) (last c : Counter) : Prop :=
  last.toNat + 1 - width.toNat ≤ c.toNat ∧ c.toNat ≤ 64 * (last.toNat / 64) + 63

instance (width : UInt64) (last c : Counter) : Decidable (Live width last c) :=
  inferInstanceAs (Decidable (_ ∧ _))

variable {width : UInt64} {last c d : Counter}

/-- The block of a live counter is among the last `capacity` blocks up to that of `last`. -/
theorem Live.block_near (hc : Live width last c) :
    c.toNat / 64 ≤ last.toNat / 64 ∧
      last.toNat / 64 < c.toNat / 64 + (capacityFor width).toNat := by
  obtain ⟨k, _, hpow, hroom⟩ := capacityFor_two_pow width
  obtain ⟨hlow, hhigh⟩ := hc
  omega

/-- The slot and the bit of a counter. -/
def place (r : Ring) (c : Counter) : ℕ × UInt64 := (r.slot c, bitOf c)

theorem eq_of_bitOf_eq (hbit : bitOf c = bitOf d) : c.toNat % 64 = d.toNat % 64 := by
  have hpow : 2 ^ (c.toNat % 64) = 2 ^ (d.toNat % 64) := by
    rw [← bitOf_toNat, ← bitOf_toNat, hbit]
  exact Nat.pow_right_injective (Nat.le_refl 2) hpow

theorem Live.eq_of_place_eq (hc : Live width last c) (hd : Live width last d)
    (hplace : (ofWidth width).place c = (ofWidth width).place d) : c = d := by
  have hfits := (holds_ofWidth width).fits
  obtain ⟨hslot, hbit⟩ := Prod.mk.inj hplace
  rw [hfits.masked.slot, hfits.masked.slot, hfits.size] at hslot
  obtain ⟨hcl, hcr⟩ := hc.block_near
  obtain ⟨hdl, hdr⟩ := hd.block_near
  have hblock : c.toNat / 64 = d.toNat / 64 := by
    apply eq_of_mod_eq_of_near hslot
    all_goals
      simp only [ofWidth]
      omega
  have hoffset := eq_of_bitOf_eq hbit
  rw [← UInt64.toNat_inj]
  omega

end Live

/-- The size of a ring of the width, and where it keeps its marks. -/
structure Geometry (width : UInt64) : Prop where
  computed : checkedBlocksNeeded width >>= Checked.powerAtLeast = .ok (capacityFor width)
  least : IsLeast {n | (∃ k, n = 2 ^ k) ∧ width.toNat ⌈/⌉ 64 + 1 ≤ n} (capacityFor width).toNat
  bounded : (capacityFor width).toNat ≤ 2 ^ 59
  masked : ∀ block : UInt64,
    (block &&& (capacityFor width - 1)).toNat = block.toNat % (capacityFor width).toNat
  shifted : ∀ c, (blockOf c).toNat = c.toNat / 64
  slot_eq : ∀ c, (ofWidth width).slot c = c.toNat / 64 % (capacityFor width).toNat
  apart : ∀ last, Set.InjOn (ofWidth width).place {c | Live width last c}

theorem live_counters_never_alias (width : UInt64) : Geometry width := by
  have hfits := (holds_ofWidth width).fits
  constructor
  case computed =>
    obtain ⟨hpos, hle⟩ := blocksNeeded_mem width
    rw [checkedBlocksNeeded_eq_ok, Checked.ok_bind]
    exact Checked.powerAtLeast_eq_ok hpos hle
  case least => exact capacityFor_isLeast width
  case bounded => exact capacityFor_le width
  case masked => exact masked_toNat width
  case shifted => exact blockOf_toNat
  case slot_eq =>
    intro c
    rw [hfits.masked.slot, hfits.size]
    rfl
  case apart =>
    intro last c hc d hd hplace
    exact Live.eq_of_place_eq hc hd hplace

/-- A window of width 66 reaches into three blocks at the front 128. In a ring of two slots
its first counter would share a bit with the last one of the front's block. -/
example : Live 66 128 63 ∧ Live 66 128 191 ∧
    (ofWidth 66).place 63 = (0, 0x8000000000000000) ∧
    (ofWidth 66).place 191 = (2, 0x8000000000000000) := by decide

end ReplayWindow.Ring
