import ReplayWindow.Proofs.Cells
import ReplayWindow.Proofs.History
import Mathlib.Algebra.Group.Nat.Defs

/-!
What the flags of a shifted window stand for. Flag `i` is set exactly if the
counter `i` behind the front was presented; a position before counter zero has no
counter and stays free. The spare array is all false between any two operations,
and this is what lets a shift write only the part that is not new.
-/

namespace ReplayWindow.Shifted

/-- A flag is set exactly if one of the counters lies as far behind the front as its place says. -/
def Depicts (w : Shifted) (presented : Finset Counter) : Prop :=
  ∀ i, w.seen.getD i false = true ↔
    i < w.seen.size ∧ ∃ c ∈ presented, c.toNat + i = w.last.toNat

structure Holds (w : Shifted) (presented : Finset Counter) : Prop where
  size_lt : w.seen.size < 2 ^ 63
  spare_eq : w.spare = Array.replicate w.seen.size false
  front : IsFront presented w.last
  depicts : w.Depicts presented

variable {w : Shifted} {presented : Finset Counter}

theorem width_toNat (hsize : w.seen.size < 2 ^ 63) : w.width.toNat = w.seen.size := by
  unfold width
  rw [Nat.toUInt64_eq, UInt64.toNat_ofNat']
  exact Nat.mod_eq_of_lt (by omega)

theorem Holds.width_toNat (h : w.Holds presented) : w.width.toNat = w.seen.size :=
  Shifted.width_toNat h.size_lt

theorem holds_ofWidth (width : UInt64) (hw : width.toNat < 2 ^ 63) :
    (ofWidth width).Holds ∅ where
  size_lt := by simpa [ofWidth] using hw
  spare_eq := by simp [ofWidth]
  front := IsFront.empty
  depicts i := by
    simp only [ofWidth, replicate_getD, Finset.notMem_empty, false_and, exists_false, and_false,
      Bool.false_eq_true]

theorem create_eq_ok {width : UInt64} (hw : width.toNat < 2 ^ 63) :
    create width = .ok (ofWidth width) := by
  have hlt : width < 0x8000000000000000 := UInt64.lt_iff_toNat_lt.mpr hw
  simp only [create, hlt, ↓reduceIte]

theorem create_eq_error {width : UInt64} (hw : 2 ^ 63 ≤ width.toNat) :
    create width = .error .capacityOverflow := by
  have hge : ¬ width < 0x8000000000000000 := by
    rw [UInt64.lt_iff_toNat_lt]
    exact Nat.not_lt.mpr hw
  simp only [create, hge, ↓reduceIte]

/-- A window whose arrays have equal lengths is rewound to a new one. -/
theorem Holds.reset_eq (h : w.Holds presented) : w.reset = ofWidth w.width := by
  simp only [reset, ofWidth, h.width_toNat, h.spare_eq]

theorem ofWidth_width (width : UInt64) : (ofWidth width).width = width := by
  simp [ofWidth, Shifted.width]

theorem Holds.reset (h : w.Holds presented) : w.reset.Holds ∅ := by
  rw [h.reset_eq]
  apply holds_ofWidth
  rw [h.width_toNat]
  exact h.size_lt

section Shift

/-- Every flag `count` places further back, with free places before them. -/
def movedBack (flags : Array Bool) (count : ℕ) : Array Bool :=
  Array.ofFn fun i : Fin flags.size => if i.val < count then false else flags[i.val - count]

theorem movedBack_size (flags : Array Bool) (count : ℕ) :
    (movedBack flags count).size = flags.size := Array.size_ofFn

theorem movedBack_getD (flags : Array Bool) (count i : ℕ) :
    (movedBack flags count).getD i false =
      (decide (count ≤ i ∧ i < flags.size) && flags.getD (i - count) false) := by
  rw [Array.getD_eq_getD_getElem?, movedBack, Array.getElem?_ofFn]
  by_cases hin : i < flags.size
  · rw [dif_pos hin, Option.getD_some, Array.getElem_eq_getD false]
    by_cases hi : i < count
    · simp [hi]
    · simp [hi, hin, Nat.not_lt.mp hi]
  · simp [hin]

theorem movedBack_of_size_le {flags : Array Bool} {count : ℕ} (hall : flags.size ≤ count) :
    movedBack flags count = Array.replicate flags.size false := by
  apply eq_of_getD_eq false
  · rw [movedBack_size, Array.size_replicate]
  · intro i
    have hnone : ¬ (count ≤ i ∧ i < flags.size) := by omega
    rw [movedBack_getD, replicate_getD, decide_eq_false hnone, Bool.false_and]

theorem movedBack_of_le_size {flags : Array Bool} {count : ℕ} (hpart : count ≤ flags.size) :
    movedBack flags count =
      Array.replicate count false ++ flags.take (flags.size - count) := by
  apply Array.ext
  · rw [movedBack_size, Array.size_append, Array.size_replicate, Array.take_eq_extract,
      Array.size_extract]
    omega
  · intro i hi _
    rw [movedBack_size] at hi
    simp only [movedBack, Array.getElem_ofFn]
    by_cases hnew : i < count
    · rw [if_pos hnew, Array.getElem_append_left (by simpa using hnew), Array.getElem_replicate]
    · rw [if_neg hnew, Array.getElem_append_right (by simpa using hnew)]
      simp [Array.take_eq_extract]

/-- Either way of shifting moves the flags back, and the spare array is cleared afterwards as it
was before. -/
theorem Holds.shift_eq (h : w.Holds presented) (count : UInt64) :
    w.shift count = { w with seen := movedBack w.seen count.toNat } := by
  have hspare := h.spare_eq
  unfold shift
  split
  · next hall =>
    rw [UInt64.le_iff_toNat_le, h.width_toNat] at hall
    rw [movedBack_of_size_le hall]
  · next hpart =>
    rw [UInt64.le_iff_toNat_le, h.width_toNat] at hpart
    have hle : count.toNat ≤ w.seen.size := by omega
    have hhead : w.spare.take count.toNat = Array.replicate count.toNat false := by
      rw [hspare, Array.take_eq_extract, Array.extract_replicate, Nat.min_eq_left hle, Nat.sub_zero]
    rw [movedBack_of_le_size hle]
    simp only [hhead, Array.shrink_eq_take, ← hspare]

end Shift

section Record

theorem markBehind_last (w : Shifted) (distance : UInt64) :
    (w.markBehind distance).last = w.last := by
  unfold markBehind
  split <;> rfl

theorem markBehind_spare (w : Shifted) (distance : UInt64) :
    (w.markBehind distance).spare = w.spare := by
  unfold markBehind
  split <;> rfl

theorem markBehind_size (w : Shifted) (distance : UInt64) :
    (w.markBehind distance).seen.size = w.seen.size := by
  unfold markBehind
  split
  · exact Array.size_setIfInBounds
  · rfl

theorem markBehind_flag (hsize : w.width.toNat = w.seen.size) (distance : UInt64) (i : ℕ) :
    (w.markBehind distance).seen.getD i false =
      (w.seen.getD i false || decide (distance.toNat = i ∧ i < w.seen.size)) := by
  unfold markBehind
  split
  · simp only [setIfInBounds_getD]
    by_cases hi : distance.toNat = i ∧ i < w.seen.size
    · rw [if_pos hi, decide_eq_true hi, Bool.or_true]
    · rw [if_neg hi, decide_eq_false hi, Bool.or_false]
  · next hout =>
    rw [UInt64.lt_iff_toNat_lt, hsize] at hout
    have hnone : ¬ (distance.toNat = i ∧ i < w.seen.size) := by omega
    simp [hnone]

/-- Behind the window there is no place to mark, and none that would stand for the counter. -/
theorem Depicts.markBehind (h : w.Depicts presented) (hsize : w.width.toNat = w.seen.size)
    {c : Counter} (hc : ¬ w.last < c) :
    (w.markBehind (w.last - c)).Depicts (insert c presented) := by
  obtain ⟨hle, hdist⟩ := Counter.sub_toNat hc
  intro i
  rw [markBehind_flag hsize, markBehind_size, markBehind_last, Bool.or_eq_true,
    decide_eq_true_eq, h, hdist]
  constructor
  · intro hset
    rcases hset with ⟨hin, d, hd, hsum⟩ | ⟨hi, hin⟩
    · exact ⟨hin, d, Finset.mem_insert_of_mem hd, hsum⟩
    · exact ⟨hin, c, Finset.mem_insert_self c presented, by omega⟩
  · intro hset
    obtain ⟨hin, d, hd, hsum⟩ := hset
    rcases Finset.mem_insert.mp hd with hdc | hold
    · subst hdc
      exact Or.inr ⟨by omega, hin⟩
    · exact Or.inl ⟨hin, d, hold, hsum⟩

/-- The window after its front has moved to `c`, where `c` is still to be marked. -/
def movedTo (w : Shifted) (c : Counter) : Shifted :=
  { w with last := c, seen := movedBack w.seen (c - w.last).toNat }

theorem movedTo_size (w : Shifted) (c : Counter) : (w.movedTo c).seen.size = w.seen.size :=
  movedBack_size w.seen _

/-- The front moves as far as the flags do, so each counter keeps its flag or loses its place. -/
theorem Holds.movedTo_depicts (h : w.Holds presented) {c : Counter} (hc : w.last < c) :
    (w.movedTo c).Depicts presented := by
  have hlt := UInt64.lt_iff_toNat_lt.mp hc
  have hdist : (c - w.last).toNat = c.toNat - w.last.toNat :=
    UInt64.toNat_sub_of_le _ _ (UInt64.le_iff_toNat_le.mpr (Nat.le_of_lt hlt))
  intro i
  have hflag : (w.movedTo c).seen.getD i false = _ := movedBack_getD w.seen _ i
  have hlast : (w.movedTo c).last = c := rfl
  rw [hflag, movedTo_size, hlast, Bool.and_eq_true, decide_eq_true_eq, h.depicts, hdist]
  constructor
  · intro hset
    obtain ⟨⟨_, hin⟩, _, d, hd, hsum⟩ := hset
    exact ⟨hin, d, hd, by omega⟩
  · intro hset
    obtain ⟨hin, d, hd, hsum⟩ := hset
    have hdl := h.front.le hd
    exact ⟨⟨by omega, hin⟩, by omega, d, hd, by omega⟩

/-- Once the front is not behind the counter, recording it is a mark. -/
theorem Depicts.holds_markBehind (h : w.Depicts presented) (hsize : w.seen.size < 2 ^ 63)
    (hspare : w.spare = Array.replicate w.seen.size false) {c : Counter} (hc : ¬ w.last < c)
    (hfront : IsFront (insert c presented) w.last) :
    (w.markBehind (w.last - c)).Holds (insert c presented) where
  size_lt := by
    rw [markBehind_size]
    exact hsize
  spare_eq := by
    rw [markBehind_spare, markBehind_size]
    exact hspare
  front := by
    rw [markBehind_last]
    exact hfront
  depicts := h.markBehind (width_toNat hsize) hc

theorem Holds.record_ahead (h : w.Holds presented) {c : Counter} (hc : w.last < c) :
    (w.record c).Holds (insert c presented) := by
  have hrecord : w.record c = (w.movedTo c).markBehind ((w.movedTo c).last - c) := by
    simp only [Shifted.record, hc, ↓reduceIte, h.shift_eq, movedTo, UInt64.sub_self]
  rw [hrecord]
  apply (h.movedTo_depicts hc).holds_markBehind
  · rw [movedTo_size]
    exact h.size_lt
  · rw [movedTo_size]
    exact h.spare_eq
  · exact UInt64.lt_irrefl c
  · exact h.front.insert_ahead hc

theorem Holds.record_behind (h : w.Holds presented) {c : Counter} (hc : ¬ w.last < c) :
    (w.record c).Holds (insert c presented) := by
  have hrecord : w.record c = w.markBehind (w.last - c) := by
    simp only [Shifted.record, hc, ↓reduceIte]
  rw [hrecord]
  exact h.depicts.holds_markBehind h.size_lt h.spare_eq hc
    (h.front.insert_behind (Counter.sub_toNat hc).1)

theorem Holds.record (h : w.Holds presented) (c : Counter) :
    (w.record c).Holds (insert c presented) := by
  by_cases hc : w.last < c
  · exact h.record_ahead hc
  · exact h.record_behind hc

end Record

section Acceptance

/-- The flag of a counter not ahead is set if the window covers the counter and it
was presented. -/
theorem Holds.seen_iff (h : w.Holds presented) {c : Counter} (hc : ¬ w.last < c) :
    w.seen.getD (w.last - c).toNat false = true ↔
      w.last.toNat - c.toNat < w.width.toNat ∧ c ∈ presented := by
  obtain ⟨hle, hdist⟩ := Counter.sub_toNat hc
  rw [hdist, h.depicts, h.width_toNat]
  constructor
  · intro hset
    obtain ⟨hin, d, hd, hsum⟩ := hset
    have hdc : d = c := by
      rw [← UInt64.toNat_inj]
      omega
    exact ⟨hin, hdc ▸ hd⟩
  · intro hset
    obtain ⟨hin, hmem⟩ := hset
    exact ⟨hin, c, hmem, by omega⟩

/-- A counter is acceptable if it is ahead, or inside the window and not presented. -/
theorem Holds.accepts_iff (h : w.Holds presented) (c : Counter) :
    w.accepts c = true ↔
      w.last < c ∨ (w.last.toNat - c.toNat < w.width.toNat ∧ c ∉ presented) := by
  by_cases hc : w.last < c
  · simp [accepts, hc]
  · have hseen := h.seen_iff hc
    have hguard : w.width ≤ w.last - c ↔ ¬ w.last.toNat - c.toNat < w.width.toNat := by
      rw [UInt64.le_iff_toNat_le, (Counter.sub_toNat hc).2]
      exact Nat.not_lt.symm
    simp only [accepts, hc, ↓reduceIte, false_or, hguard]
    by_cases hin : w.last.toNat - c.toNat < w.width.toNat
    · simp only [hin, not_true_eq_false, ↓reduceIte, true_and, Bool.not_eq_true',
        Bool.eq_false_iff, Ne, hseen]
    · simp [hin]

/-- Recording a counter that is not acceptable changes nothing in the window. -/
theorem Holds.record_eq_self (h : w.Holds presented) {c : Counter}
    (hc : w.accepts c = false) : w.record c = w := by
  have hrefused := mt (h.accepts_iff c).mpr (Bool.eq_false_iff.mp hc)
  have hahead : ¬ w.last < c := fun hlt => hrefused (Or.inl hlt)
  obtain ⟨_, hdist⟩ := Counter.sub_toNat hahead
  simp only [Shifted.record, hahead, ↓reduceIte, markBehind]
  split
  · next hin =>
    rw [UInt64.lt_iff_toNat_lt, hdist] at hin
    have hmem : c ∈ presented := by
      by_contra hnew
      exact hrefused (Or.inr ⟨hin, hnew⟩)
    have hset := (h.seen_iff hahead).mpr ⟨hin, hmem⟩
    have hseen : w.seen.setIfInBounds (w.last - c).toNat true = w.seen := by
      apply eq_of_getD_eq false Array.size_setIfInBounds
      intro i
      rw [setIfInBounds_getD]
      split
      · next hi => rw [← hi.1, hset]
      · rfl
    rw [hseen]
  · rfl

theorem Holds.offer_snd (h : w.Holds presented) (c : Counter) : (w.offer c).2 = w.record c := by
  unfold offer
  cases hc : w.accepts c with
  | true => rfl
  | false => exact (h.record_eq_self hc).symm

theorem offer_fst (w : Shifted) (c : Counter) : (w.offer c).1 = w.accepts c := by
  unfold offer
  cases w.accepts c <;> rfl

end Acceptance

theorem Holds.record_width (h : w.Holds presented) (c : Counter) :
    (w.record c).width = w.width := by
  have hsize : (w.record c).seen.size = w.seen.size := by
    unfold Shifted.record
    split
    · rw [markBehind_size, h.shift_eq]
      exact movedBack_size w.seen _
    · exact markBehind_size w _
  unfold width
  rw [hsize]

theorem reset_width (w : Shifted) : w.reset.width = w.width := by
  simp [reset, width]

instance : Window.Faithful Shifted where
  Tracks := Holds
  isFront h := h.front
  accepts_iff := Holds.accepts_iff
  offer_fst _ := offer_fst _
  tracks_offer h c := by
    show Holds (Shifted.offer _ c).2 _
    rw [h.offer_snd c]
    exact h.record c
  tracks_record := Holds.record
  tracks_reset := Holds.reset
  width_offer h c := by
    show (Shifted.offer _ c).2.width = _
    rw [h.offer_snd c]
    exact h.record_width c
  width_record := Holds.record_width
  width_reset _ := reset_width _

theorem run_holds {width : UInt64} (hwidth : width.toNat < 2 ^ 63)
    (commands : List Window.Command) :
    (Window.run (ofWidth width) commands).2.Holds (Window.presented commands) ∧
      (Window.run (ofWidth width) commands).2.width = width := by
  have hnew := holds_ofWidth width hwidth
  have hkept := Window.run_width (W := Shifted) hnew commands
  exact ⟨Window.run_tracks (W := Shifted) hnew commands, hkept.trans (ofWidth_width width)⟩

end ReplayWindow.Shifted
