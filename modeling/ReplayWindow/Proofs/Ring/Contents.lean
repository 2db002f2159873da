import ReplayWindow.Proofs.Counter
import ReplayWindow.Proofs.Ring.Slots

/-!
What the bits of a ring stand for. A ring that holds a set of counters has a bit
set exactly for each of them whose block still owns its slot: the bits inside
the window are the counters seen, and a stale bit behind it stands for a counter
that was seen too. The front is the highest of them, so no bit lies ahead of it.
-/

namespace ReplayWindow.Ring

/-- The ring has the size and the mask that its width asks for. -/
structure Fits (r : Ring) : Prop where
  mask : r.slotMask = capacityFor r.width - 1
  size : r.capacity = (capacityFor r.width).toNat

theorem Fits.masked {r : Ring} (h : r.Fits) : r.Masked where
  pos := by
    rw [h.size]
    exact capacityFor_pos r.width
  slot_eq block := by
    rw [h.mask, h.size]
    exact masked_toNat r.width block

/-- The block of the counter is one of the last `capacity` blocks up to the front. -/
def Retains (r : Ring) (c : Counter) : Prop :=
  r.last.toNat / 64 < c.toNat / 64 + r.capacity

/-- A bit is set exactly for each recorded counter whose block still owns its slot. -/
def Depicts (r : Ring) (recorded : Finset Counter) : Prop :=
  ∀ j p, r.cell j p = true ↔
    ∃ c ∈ recorded, r.Retains c ∧ c.toNat / 64 % r.capacity = j ∧ c.toNat % 64 = p

structure Holds (r : Ring) (recorded : Finset Counter) : Prop where
  fits : r.Fits
  front : IsFront recorded r.last
  depicts : r.Depicts recorded

variable {r : Ring} {recorded : Finset Counter}

theorem holds_ofWidth (width : UInt64) : (ofWidth width).Holds ∅ where
  fits := ⟨rfl, by simp [ofWidth, capacity]⟩
  front := IsFront.empty
  depicts j p := by
    have hword : (ofWidth width).word j = 0 := replicate_getD _ j 0
    simp [cell, hword]

/-- A ring that keeps its size and mask is rewound to a new one. -/
theorem Fits.reset_eq (h : r.Fits) : r.reset = ofWidth r.width := by
  simp only [reset, ofWidth, h.mask, h.size]

theorem Holds.reset (h : r.Holds recorded) : r.reset.Holds ∅ := by
  rw [h.fits.reset_eq]
  exact holds_ofWidth r.width

section Positions

/-- Among the counters up to the front whose blocks own their slots, a cell
determines the counter. -/
theorem eq_of_same_cell {c d : Counter} (hc : r.Retains c) (hd : r.Retains d)
    (hcl : c.toNat ≤ r.last.toNat) (hdl : d.toNat ≤ r.last.toNat)
    (hslot : c.toNat / 64 % r.capacity = d.toNat / 64 % r.capacity)
    (hbit : c.toNat % 64 = d.toNat % 64) : c = d := by
  unfold Retains at hc hd
  have hblock : c.toNat / 64 = d.toNat / 64 :=
    eq_of_mod_eq_of_near hslot (by omega) (by omega)
  rw [← UInt64.toNat_inj]
  omega

theorem Fits.retains (h : r.Fits) {c : Counter} (hle : c.toNat ≤ r.last.toNat)
    (hin : r.last.toNat - c.toNat < r.width.toNat) : r.Retains c := by
  unfold Retains
  rw [h.size]
  exact block_retained r.width r.last.toNat c.toNat hle hin

/-- A bit that still belongs to its counter tells whether the counter was recorded. -/
theorem Depicts.isMarked_iff (h : r.Depicts recorded) (hr : r.Masked)
    (hfront : ∀ d ∈ recorded, d.toNat ≤ r.last.toNat) {c : Counter}
    (hle : c.toNat ≤ r.last.toNat) (hc : r.Retains c) :
    r.isMarked c = true ↔ c ∈ recorded := by
  rw [isMarked_eq_cell, hr.slot c, h]
  constructor
  · intro hset
    obtain ⟨d, hd, hret, hslot, hbit⟩ := hset
    have hdc : d = c := eq_of_same_cell hret hc (hfront d hd) hle hslot hbit
    exact hdc ▸ hd
  · intro hmem
    exact ⟨c, hmem, hc, rfl, rfl⟩

end Positions

section Slide

theorem Fits.slideTo (h : r.Fits) (c : Counter) : (r.slideTo c).Fits where
  mask := by
    rw [slideTo_slotMask, slideTo_width]
    exact h.mask
  size := by
    rw [slideTo_capacity, slideTo_width]
    exact h.size

/-- A slide leaves the bits of the recorded counters whose blocks still own their
slots. A slot that it enters belongs to a block ahead of all of them, and a slot
that it does not enter keeps its owner. -/
theorem Holds.slideTo_depicts (h : r.Holds recorded) {c : Counter} (hc : r.last < c) :
    (r.slideTo c).Depicts recorded := by
  intro j p
  have hlt := UInt64.lt_iff_toNat_lt.mp hc
  simp only [Retains, slideTo_last, slideTo_capacity]
  by_cases hj : r.Enters c j
  · have hzero : (r.slideTo c).cell j p = false := by
      simp [cell, slideTo_word_entered h.fits.masked c hc j hj]
    rw [hzero]
    obtain ⟨b, hlow, hhigh, hb⟩ := hj
    constructor
    · intro hfalse
      exact absurd hfalse Bool.false_ne_true
    · intro hset
      obtain ⟨d, hd, hret, hslot, _⟩ := hset
      have hdl := h.front.le hd
      have hown : d.toNat / 64 = b :=
        eq_of_mod_eq_of_near (hslot.trans hb.symm) (by omega) (by omega)
      omega
  · have hkept : (r.slideTo c).cell j p = r.cell j p := by
      simp only [cell, slideTo_word_kept h.fits.masked c hc j hj]
    rw [hkept, h.depicts]
    constructor
    · intro hset
      obtain ⟨d, hd, hret, hslot, hbit⟩ := hset
      refine ⟨d, hd, ?_, hslot, hbit⟩
      unfold Retains at hret
      -- otherwise the slide enters the block one revolution after the counter's
      by_contra hlost
      apply hj
      exact ⟨d.toNat / 64 + r.capacity, by omega, by omega, by rw [Nat.add_mod_right, hslot]⟩
    · intro hset
      obtain ⟨d, hd, hret, hslot, hbit⟩ := hset
      refine ⟨d, hd, ?_, hslot, hbit⟩
      unfold Retains
      omega

/-- The bit of a counter ahead of the front is free once the front has moved to it. -/
theorem Holds.slideTo_isMarked (h : r.Holds recorded) {c : Counter} (hc : r.last < c) :
    (r.slideTo c).isMarked c = false := by
  have hlt := UInt64.lt_iff_toNat_lt.mp hc
  have hret : (r.slideTo c).Retains c := by
    have hpos := h.fits.masked.pos
    unfold Retains
    rw [slideTo_last, slideTo_capacity]
    omega
  have hfront : ∀ d ∈ recorded, d.toNat ≤ (r.slideTo c).last.toNat := by
    intro d hd
    have hdl := h.front.le hd
    rw [slideTo_last]
    omega
  have hle : c.toNat ≤ (r.slideTo c).last.toNat := by rw [slideTo_last]
  rw [Bool.eq_false_iff]
  intro hset
  have hmem : c ∈ recorded :=
    ((h.slideTo_depicts hc).isMarked_iff (h.fits.masked.slideTo c) hfront hle hret).mp hset
  have hcl := h.front.le hmem
  omega

end Slide

section Recording

theorem Depicts.mark (h : r.Depicts recorded) (hr : r.Masked) {c : Counter}
    (hc : r.Retains c) : (r.mark c).Depicts (insert c recorded) := by
  intro j p
  have hretains : ∀ d, (r.mark c).Retains d ↔ r.Retains d := by
    intro d
    unfold Retains
    rw [mark_capacity]
    rfl
  rw [mark_cell hr c j p, mark_capacity, Bool.or_eq_true, decide_eq_true_eq, h]
  constructor
  · intro hset
    rcases hset with ⟨d, hd, hret, hslot, hbit⟩ | ⟨hslot, hbit⟩
    · exact ⟨d, Finset.mem_insert_of_mem hd, (hretains d).mpr hret, hslot, hbit⟩
    · exact ⟨c, Finset.mem_insert_self c recorded, (hretains c).mpr hc, hslot, hbit⟩
  · intro hset
    obtain ⟨d, hd, hret, hslot, hbit⟩ := hset
    rcases Finset.mem_insert.mp hd with hdc | hold
    · subst hdc
      exact Or.inr ⟨hslot, hbit⟩
    · exact Or.inl ⟨d, hold, (hretains d).mp hret, hslot, hbit⟩

theorem Fits.mark (h : r.Fits) (c : Counter) : (r.mark c).Fits where
  mask := h.mask
  size := by
    rw [mark_capacity]
    exact h.size

theorem Holds.mark_ahead (h : r.Holds recorded) {c : Counter} (hc : r.last < c) :
    ((r.slideTo c).mark c).Holds (insert c recorded) where
  fits := (h.fits.slideTo c).mark c
  front := by
    have hlast : ((r.slideTo c).mark c).last = c := slideTo_last r c
    rw [hlast]
    exact h.front.insert_ahead hc
  depicts := by
    apply (h.slideTo_depicts hc).mark (h.fits.masked.slideTo c)
    have hpos := h.fits.masked.pos
    unfold Retains
    rw [slideTo_last, slideTo_capacity]
    omega

theorem Holds.mark_within (h : r.Holds recorded) {c : Counter}
    (hle : c.toNat ≤ r.last.toNat) (hin : r.last.toNat - c.toNat < r.width.toNat) :
    (r.mark c).Holds (insert c recorded) where
  fits := h.fits.mark c
  front := h.front.insert_behind hle
  depicts := h.depicts.mark h.fits.masked (h.fits.retains hle hin)

end Recording

end ReplayWindow.Ring
