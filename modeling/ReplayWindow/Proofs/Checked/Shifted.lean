import ReplayWindow.Proofs.Checked.Window
import ReplayWindow.Proofs.Shifted

/-!
The operations of a shifted window with their faults. The two arrays have one size at
all times, also after they have changed places, so the flags that a shift keeps fill
just the place that is left for them in the spare array.
-/

namespace ReplayWindow.Shifted

section Steps

def checkedOfWidth (width : UInt64) : Checked Shifted := do
  let seen ← Checked.allocate width.toNat 1 false
  let spare ← Checked.allocate width.toNat 1 false
  pure { last := 0, seen, spare }

def checkedAccepts (w : Shifted) (counter : Counter) : Checked Bool :=
  if w.last < counter then pure true
  else do
    let distance ← Checked.sub w.last counter
    if w.width ≤ distance then pure false
    else do
      let seen ← Checked.load w.seen distance.toNat
      pure !seen

def checkedShift (w : Shifted) (count : UInt64) : Checked Shifted :=
  if w.width ≤ count then pure { w with seen := Array.replicate w.seen.size false }
  else do
    let left ← Checked.sub w.width count
    let kept ← Checked.front w.seen left.toNat
    let seen ← Checked.copyFrom w.spare count.toNat kept
    pure { w with seen, spare := Array.replicate w.seen.size false }

def checkedMarkBehind (w : Shifted) (distance : UInt64) : Checked Shifted :=
  if distance < w.width then do
    let seen ← Checked.store w.seen distance.toNat true
    pure { w with seen }
  else pure w

def checkedRecord (w : Shifted) (counter : Counter) : Checked Shifted :=
  if w.last < counter then do
    let count ← Checked.sub counter w.last
    let w ← w.checkedShift count
    { w with last := counter }.checkedMarkBehind 0
  else do
    let distance ← Checked.sub w.last counter
    w.checkedMarkBehind distance

def checkedOffer (w : Shifted) (counter : Counter) : Checked (Bool × Shifted) := do
  let accepted ← w.checkedAccepts counter
  if accepted then
    let w ← w.checkedRecord counter
    pure (true, w)
  else pure (false, w)

instance : CheckedWindow Shifted where
  accepts := checkedAccepts
  record := checkedRecord
  offer := checkedOffer

end Steps

theorem checkedOfWidth_eq_ok {width : UInt64} (hw : width.toNat < 2 ^ 63) :
    checkedOfWidth width = .ok (ofWidth width) := by
  have hroom : width.toNat * 1 < 2 ^ 63 := by omega
  rw [checkedOfWidth, Checked.allocate_eq_ok hroom]
  rfl

variable {w : Shifted} {presented : Finset Counter}

theorem checkedMarkBehind_eq_ok (hsize : w.width.toNat = w.seen.size) (distance : UInt64) :
    w.checkedMarkBehind distance = .ok (w.markBehind distance) := by
  unfold checkedMarkBehind markBehind
  split
  · next hin =>
    rw [UInt64.lt_iff_toNat_lt, hsize] at hin
    rw [Checked.store_eq_ok hin]
    rfl
  · rfl

theorem Holds.checkedShift_eq_ok (h : w.Holds presented) (count : UInt64) :
    w.checkedShift count = .ok (w.shift count) := by
  have hsize := h.width_toNat
  unfold checkedShift shift
  split
  · rfl
  · next hpart =>
    have hle : count ≤ w.width := UInt64.le_of_lt (UInt64.not_le.mp hpart)
    have hcount := UInt64.le_iff_toNat_le.mp hle
    have hspare : w.spare.size = w.seen.size := by simp [h.spare_eq]
    have hleft : (w.width - count).toNat = w.seen.size - count.toNat := by
      rw [UInt64.toNat_sub_of_le _ _ hle, hsize]
    have hkept : (w.seen.take (w.seen.size - count.toNat)).size =
        w.spare.size - count.toNat := by
      rw [hspare, Array.take_eq_extract, Array.size_extract]
      omega
    rw [Checked.sub_eq_ok hle, Checked.ok_bind, hleft, Checked.front_eq_ok (by omega),
      Checked.ok_bind, Checked.copyFrom_eq_ok (by omega) hkept, Checked.ok_bind]
    simp only [Array.shrink_eq_take]
    rfl

theorem Holds.checkedAccepts_eq_ok (h : w.Holds presented) (c : Counter) :
    w.checkedAccepts c = .ok (w.accepts c) := by
  rw [checkedAccepts, Checked.distance_bind, Shifted.accepts]
  split
  · rfl
  · split
    · rfl
    · next hin =>
      rw [UInt64.le_iff_toNat_le, h.width_toNat] at hin
      rw [Checked.load_eq_ok (Nat.not_le.mp hin) false]
      rfl

theorem Holds.checkedRecord_eq_ok (h : w.Holds presented) (c : Counter) :
    w.checkedRecord c = .ok (w.record c) := by
  rw [checkedRecord, Checked.distance_bind, Shifted.record]
  split
  · next hahead =>
    have hmoved : (w.movedTo c).width.toNat = (w.movedTo c).seen.size := by
      apply Shifted.width_toNat
      rw [movedTo_size]
      exact h.size_lt
    rw [Checked.sub_eq_ok (UInt64.le_of_lt hahead), Checked.ok_bind, h.checkedShift_eq_ok,
      Checked.ok_bind, h.shift_eq]
    exact checkedMarkBehind_eq_ok hmoved 0
  · exact checkedMarkBehind_eq_ok h.width_toNat _

theorem Holds.checkedOffer_eq_ok (h : w.Holds presented) (c : Counter) :
    w.checkedOffer c = .ok (w.offer c) := by
  rw [checkedOffer, h.checkedAccepts_eq_ok, Checked.ok_bind, offer]
  split
  · rw [h.checkedRecord_eq_ok]
    rfl
  · rfl

/-- Nothing faults on the window, a shift by any distance included. -/
structure Faultless (w : Shifted) : Prop extends Window.Faultless w where
  shift : ∀ count, w.checkedShift count = .ok (w.shift count)

theorem Holds.faultless (h : w.Holds presented) : w.Faultless where
  accepts := h.checkedAccepts_eq_ok
  record := h.checkedRecord_eq_ok
  offer := h.checkedOffer_eq_ok
  shift := h.checkedShift_eq_ok

theorem run_faultless {width : UInt64} (hw : width.toNat < 2 ^ 63)
    (commands : List Window.Command) :
    Window.checkedRun (ofWidth width) commands = .ok (Window.run (ofWidth width) commands) ∧
      (Window.run (ofWidth width) commands).2.Faultless := by
  have hsteps : ∀ (w : Shifted) (presented : Finset Counter),
      w.Holds presented → Window.Faultless w := by
    intro w presented h
    exact h.faultless.toFaultless
  exact ⟨Window.checkedRun_eq_ok hsteps (holds_ofWidth width hw) commands,
    (run_holds hw commands).1.faultless⟩

end ReplayWindow.Shifted
