import ReplayWindow.Proofs.Checked.Window
import ReplayWindow.Proofs.Ring.History

/-!
The operations of a ring with their faults. A ring that has the size and the mask which
its width asks for never faults: the mask keeps every slot inside the ring, a distance
is only taken after the front was compared with the counter, and a move ends in a later
block than it began or in the same one.
-/

namespace ReplayWindow.Ring

section Steps

def checkedBlocksNeeded (width : UInt64) : Checked UInt64 := do
  let blocks ← if width % 64 = 0 then pure (width / 64) else Checked.add (width / 64) 1
  Checked.add blocks 1

def checkedOfWidth (width : UInt64) : Checked Ring := do
  let needed ← checkedBlocksNeeded width
  let slots ← Checked.powerAtLeast needed
  let slotMask ← Checked.sub slots 1
  let blocks ← Checked.allocate slots.toNat 8 0
  pure { width, last := 0, slotMask, blocks }

def checkedSlot (r : Ring) (counter : Counter) : Checked ℕ := do
  let block ← Checked.shiftRight counter 6
  pure (block &&& r.slotMask).toNat

def checkedBit (counter : Counter) : Checked UInt64 := Checked.shiftLeft 1 (counter &&& 63)

def checkedIsMarked (r : Ring) (counter : Counter) : Checked Bool := do
  let slot ← r.checkedSlot counter
  let word ← Checked.load r.blocks slot
  let bit ← checkedBit counter
  pure (word &&& bit != 0)

def checkedClaim (r : Ring) (counter : Counter) : Checked (Bool × Ring) := do
  let slot ← r.checkedSlot counter
  let bit ← checkedBit counter
  let word ← Checked.load r.blocks slot
  let blocks ← Checked.store r.blocks slot (word ||| bit)
  pure (!(word &&& bit != 0), { r with blocks })

def checkedMark (r : Ring) (counter : Counter) : Checked Ring := do
  let (_, r) ← r.checkedClaim counter
  pure r

/-- The number of the block after the last one is computed as well, and must fit. -/
def checkedClearBlocks (slotMask first : UInt64) : ℕ → Array UInt64 → Checked (Array UInt64)
  | 0, blocks => pure blocks
  | count + 1, blocks => do
    let blocks ← Checked.store blocks (first &&& slotMask).toNat 0
    let next ← Checked.add first 1
    checkedClearBlocks slotMask next count blocks

def checkedSlideTo (r : Ring) (counter : Counter) : Checked Ring := do
  Checked.require (r.last < counter)
  let current ← Checked.shiftRight r.last 6
  let target ← Checked.shiftRight counter 6
  let entered ← Checked.sub target current
  if r.capacity.toUInt64 ≤ entered then
    pure { r with last := counter, blocks := Array.replicate r.capacity 0 }
  else do
    let first ← Checked.add current 1
    let blocks ← checkedClearBlocks r.slotMask first entered.toNat r.blocks
    pure { r with last := counter, blocks }

def checkedIsExpired (r : Ring) (counter : Counter) : Checked Bool :=
  if counter ≤ r.last then do
    let distance ← Checked.sub r.last counter
    pure (r.width ≤ distance)
  else pure false

def checkedAccepts (r : Ring) (counter : Counter) : Checked Bool :=
  if r.last < counter then pure true
  else do
    let distance ← Checked.sub r.last counter
    if r.width ≤ distance then pure false
    else do
      let marked ← r.checkedIsMarked counter
      pure !marked

def checkedRecord (r : Ring) (counter : Counter) : Checked Ring :=
  if r.last < counter then do
    let r ← r.checkedSlideTo counter
    r.checkedMark counter
  else do
    let distance ← Checked.sub r.last counter
    if r.width ≤ distance then pure r else r.checkedMark counter

def checkedOffer (r : Ring) (counter : Counter) : Checked (Bool × Ring) :=
  if r.last < counter then do
    let r ← r.checkedSlideTo counter
    r.checkedClaim counter
  else do
    let distance ← Checked.sub r.last counter
    if r.width ≤ distance then pure (false, r) else r.checkedClaim counter

instance : CheckedWindow Ring where
  accepts := checkedAccepts
  record := checkedRecord
  offer := checkedOffer

end Steps

section New

theorem checkedBlocksNeeded_eq_ok (width : UInt64) :
    checkedBlocksNeeded width = .ok (blocksNeeded width) := by
  have hw := width.toNat_lt
  have hdiv : (width / 64).toNat = width.toNat / 64 := UInt64.toNat_div width 64
  have hone : (1 : UInt64).toNat = 1 := rfl
  have hneeded := blocksNeeded_toNat width
  unfold checkedBlocksNeeded blocksNeeded at *
  by_cases hfull : width % 64 = 0
  · simp only [hfull, ↓reduceIte, UInt64.add_zero]
    exact Checked.add_eq_ok (by omega)
  · have hpart : (width / 64 + 1).toNat = width.toNat / 64 + 1 := by
      rw [succ_toNat (by omega), hdiv]
    simp only [hfull, ↓reduceIte]
    rw [Checked.add_eq_ok (by omega), Checked.ok_bind]
    exact Checked.add_eq_ok (by omega)

theorem checkedOfWidth_eq_ok (width : UInt64) : checkedOfWidth width = .ok (ofWidth width) := by
  have hw := width.toNat_lt
  have hneeded := blocksNeeded_toNat width
  have hround : Checked.powerAtLeast (blocksNeeded width) = .ok (capacityFor width) :=
    Checked.powerAtLeast_eq_ok (by omega) (by omega)
  have hpos : (1 : UInt64) ≤ capacityFor width := UInt64.le_iff_toNat_le.mpr (capacityFor_pos width)
  -- `2 ^ 59` blocks of eight bytes are the most that any width asks for
  have hroom : (capacityFor width).toNat * 8 < 2 ^ 63 := by
    obtain ⟨k, hk, hpow, _⟩ := capacityFor_two_pow width
    have hle : 2 ^ k ≤ 2 ^ 59 := Nat.pow_le_pow_right (by decide) hk
    omega
  rw [checkedOfWidth, checkedBlocksNeeded_eq_ok, Checked.ok_bind, hround, Checked.ok_bind,
    Checked.sub_eq_ok hpos, Checked.ok_bind, Checked.allocate_eq_ok hroom]
  rfl

end New

section Bits

theorem checkedSlot_eq_ok (r : Ring) (c : Counter) : r.checkedSlot c = .ok (r.slot c) := by
  have hsix : (6 : UInt64) < 64 := by decide
  rw [checkedSlot, Checked.shiftRight_eq_ok hsix]
  rfl

theorem checkedBit_eq_ok (c : Counter) : checkedBit c = .ok (bitOf c) := by
  apply Checked.shiftLeft_eq_ok
  rw [UInt64.lt_iff_toNat_lt, UInt64.toNat_and]
  exact Nat.lt_of_le_of_lt Nat.and_le_right (by decide)

variable {r : Ring}

theorem Masked.checkedIsMarked_eq_ok (h : r.Masked) (c : Counter) :
    r.checkedIsMarked c = .ok (r.isMarked c) := by
  rw [checkedIsMarked, checkedSlot_eq_ok, Checked.ok_bind,
    Checked.load_eq_ok (h.slot_lt c) 0, Checked.ok_bind, checkedBit_eq_ok]
  rfl

theorem Masked.checkedClaim_eq_ok (h : r.Masked) (c : Counter) :
    r.checkedClaim c = .ok (r.claim c) := by
  have hslot : r.slot c < r.blocks.size := h.slot_lt c
  rw [checkedClaim, checkedSlot_eq_ok, Checked.ok_bind, checkedBit_eq_ok, Checked.ok_bind,
    Checked.load_eq_ok hslot 0, Checked.ok_bind, Checked.store_eq_ok hslot, Checked.ok_bind]
  unfold Ring.claim Ring.mark
  rw [modify_eq_setIfInBounds _ _ _ 0]
  rfl

theorem Masked.checkedMark_eq_ok (h : r.Masked) (c : Counter) :
    r.checkedMark c = .ok (r.mark c) := by
  rw [checkedMark, h.checkedClaim_eq_ok]
  rfl

end Bits

section Slide

theorem checkedClearBlocks_eq_ok {slotMask first : UInt64} {count : ℕ} {blocks : Array UInt64}
    (hmask : ∀ block : UInt64, (block &&& slotMask).toNat < blocks.size)
    (hroom : first.toNat + count < 2 ^ 64) :
    checkedClearBlocks slotMask first count blocks =
      .ok (clearBlocks slotMask first count blocks) := by
  induction count generalizing first blocks with
  | zero => rfl
  | succ count ih =>
    have hnext : (first + 1).toNat = first.toNat + 1 := succ_toNat (by omega)
    have hadd : Checked.add first 1 = .ok (first + 1) :=
      Checked.add_eq_ok (by rw [UInt64.toNat_one]; omega)
    rw [checkedClearBlocks, Checked.store_eq_ok (hmask first), Checked.ok_bind, hadd,
      Checked.ok_bind]
    apply ih
    · intro block
      rw [Array.size_setIfInBounds]
      exact hmask block
    · omega

variable {r : Ring}

theorem Fits.capacity_toUInt64 (h : r.Fits) : r.capacity.toUInt64.toNat = r.capacity := by
  have hcapacity : r.capacity < 2 ^ 64 := by
    rw [h.size]
    exact UInt64.toNat_lt _
  rw [Nat.toUInt64_eq, UInt64.toNat_ofNat', Nat.mod_eq_of_lt hcapacity]

theorem Fits.checkedSlideTo_eq_ok (h : r.Fits) {c : Counter} (hc : r.last < c) :
    r.checkedSlideTo c = .ok (r.slideTo c) := by
  have hlt := UInt64.lt_iff_toNat_lt.mp hc
  have hbound := c.toNat_lt
  have hsix : (6 : UInt64) < 64 := by decide
  have hcurrent : Checked.shiftRight r.last 6 = .ok (blockOf r.last) :=
    Checked.shiftRight_eq_ok hsix
  have htarget : Checked.shiftRight c 6 = .ok (blockOf c) := Checked.shiftRight_eq_ok hsix
  have hle : blockOf r.last ≤ blockOf c := by
    rw [UInt64.le_iff_toNat_le, blockOf_toNat, blockOf_toNat]
    exact Nat.div_le_div_right (Nat.le_of_lt hlt)
  have hentered : (blockOf c - blockOf r.last).toNat = c.toNat / 64 - r.last.toNat / 64 := by
    rw [UInt64.toNat_sub_of_le _ _ hle, blockOf_toNat, blockOf_toNat]
  have hlong : r.capacity.toUInt64 ≤ blockOf c - blockOf r.last ↔
      r.capacity ≤ (blockOf c - blockOf r.last).toNat := by
    rw [UInt64.le_iff_toNat_le, h.capacity_toUInt64]
  rw [checkedSlideTo, Checked.require_eq_ok (decide_eq_true hc), Checked.ok_bind, hcurrent,
    Checked.ok_bind, htarget, Checked.ok_bind, Checked.sub_eq_ok hle, Checked.ok_bind]
  simp only [Ring.slideTo, hlong]
  split
  · rfl
  · have hblock := blockOf_toNat r.last
    have hnext : (blockOf r.last + 1).toNat = r.last.toNat / 64 + 1 := by
      rw [succ_toNat (by omega), hblock]
    have hadd : Checked.add (blockOf r.last) 1 = .ok (blockOf r.last + 1) :=
      Checked.add_eq_ok (by rw [UInt64.toNat_one]; omega)
    have hmask : ∀ block : UInt64, (block &&& r.slotMask).toNat < r.blocks.size := by
      intro block
      rw [h.masked.slot_eq]
      exact Nat.mod_lt _ h.masked.pos
    rw [hadd, Checked.ok_bind, checkedClearBlocks_eq_ok hmask (by omega)]
    rfl

end Slide

section Operations

variable {r : Ring}

theorem checkedIsExpired_eq_ok (r : Ring) (c : Counter) :
    r.checkedIsExpired c = .ok (r.isExpired c) := by
  unfold checkedIsExpired isExpired Counter.isBehind
  by_cases hc : c ≤ r.last
  · simp only [hc, ↓reduceIte, decide_true, Bool.true_and]
    rw [Checked.sub_eq_ok hc]
    rfl
  · simp only [hc, ↓reduceIte, decide_false, Bool.false_and]
    rfl

/-- No operation of a window faults on a ring that has the size and the mask of its
width. -/
theorem Fits.faultless (h : r.Fits) : Window.Faultless r where
  accepts c := by
    show r.checkedAccepts c = .ok (r.accepts c)
    rw [checkedAccepts, Checked.distance_bind, h.masked.checkedIsMarked_eq_ok, accepts]
    split
    · rfl
    · split <;> rfl
  record c := by
    show r.checkedRecord c = .ok (r.record c)
    rw [checkedRecord, Checked.distance_bind, h.masked.checkedMark_eq_ok, record]
    split
    · next hahead =>
      rw [h.checkedSlideTo_eq_ok hahead]
      exact (h.masked.slideTo c).checkedMark_eq_ok c
    · split <;> rfl
  offer c := by
    show r.checkedOffer c = .ok (r.offer c)
    rw [checkedOffer, Checked.distance_bind, h.masked.checkedClaim_eq_ok, offer]
    split
    · next hahead =>
      rw [h.checkedSlideTo_eq_ok hahead]
      exact (h.masked.slideTo c).checkedClaim_eq_ok c
    · split <;> rfl

/-- Nothing faults on the ring, a move of its front ahead included. -/
structure Faultless (r : Ring) : Prop extends Window.Faultless r where
  isExpired : ∀ c, r.checkedIsExpired c = .ok (r.isExpired c)
  slideTo : ∀ c, r.last < c → r.checkedSlideTo c = .ok (r.slideTo c)

theorem Tracks.faultless {known : Finset Counter} (h : r.Tracks known) : r.Faultless := by
  obtain ⟨recorded, hholds, _, _⟩ := h
  exact ⟨hholds.fits.faultless, r.checkedIsExpired_eq_ok,
    fun _ hc => hholds.fits.checkedSlideTo_eq_ok hc⟩

theorem run_faultless (width : UInt64) (commands : List Window.Command) :
    Window.checkedRun (ofWidth width) commands = .ok (Window.run (ofWidth width) commands) ∧
      (Window.run (ofWidth width) commands).2.Faultless := by
  have htracks := (holds_ofWidth width).tracks
  have hsteps : ∀ (r : Ring) (known : Finset Counter),
      r.Tracks known → Window.Faultless r := by
    intro r known h
    exact h.faultless.toFaultless
  exact ⟨Window.checkedRun_eq_ok hsteps htracks commands,
    (run_tracks width commands).1.faultless⟩

end Operations

end ReplayWindow.Ring
