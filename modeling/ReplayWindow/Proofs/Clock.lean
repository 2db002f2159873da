import ReplayWindow.Clock
import Mathlib.Algebra.Ring.Periodic
import Mathlib.Order.Monotone.Basic

/-!
The readings of a clock. They never go back, and any course of time that never goes back
can be read off some clock, as far as one likes. A reading moves the clock by one tick. On a
clock that was made of ticks these come round again after as many readings as there are ticks.
-/

namespace ReplayWindow.Clock

/-- The clock after a number of readings. -/
def after (clock : Clock) : ℕ → Clock
  | 0 => clock
  | count + 1 => clock.read.2.after count

/-- Reading number `i`, where the first reading is number zero. -/
def reading (clock : Clock) (i : ℕ) : ℕ := (clock.after i).read.1

variable {clock : Clock}

theorem after_add (clock : Clock) (m n : ℕ) : clock.after (m + n) = (clock.after m).after n := by
  induction m generalizing clock with
  | zero => rw [Nat.zero_add]; rfl
  | succ m ih => rw [Nat.add_right_comm]; exact ih clock.read.2

theorem after_succ (clock : Clock) (n : ℕ) :
    clock.after (n + 1) = (clock.after n).read.2 := after_add clock n 1

theorem reading_after (clock : Clock) (m i : ℕ) :
    (clock.after m).reading i = clock.reading (m + i) := by
  unfold reading
  rw [after_add]

section Course

theorem read_now (clock : Clock) : clock.read.2.now = clock.read.1 := by
  unfold read
  split <;> rfl

theorem now_le_read (clock : Clock) : clock.now ≤ clock.read.1 := by
  unfold read
  split
  · exact Nat.le_add_right _ _
  · exact Nat.le_add_right _ _
  · exact Nat.le_refl _

theorem reading_monotone (clock : Clock) : Monotone clock.reading := by
  apply monotone_nat_of_le_succ
  intro i
  have hnext := now_le_read (clock.after (i + 1))
  rw [after_succ, read_now] at hnext
  unfold reading
  rwa [after_succ]

/-- Ticks that take a clock through a course of time, as far as `count` readings. -/
theorem exists_ahead {time : ℕ → ℕ} (htime : Monotone time) {now : ℕ} (hnow : now ≤ time 0)
    (count : ℕ) :
    ∃ ahead, ∀ cycle, ∀ i < count, reading ⟨now, cycle, ahead⟩ i = time i := by
  induction count generalizing now time with
  | zero => exact ⟨[], fun _ i hi => absurd hi (Nat.not_lt_zero i)⟩
  | succ count ih =>
    have hlater : Monotone fun i => time (i + 1) := fun _ _ hle => htime (Nat.succ_le_succ hle)
    obtain ⟨ahead, hahead⟩ := ih hlater (htime (Nat.zero_le 1))
    refine ⟨(time 0 - now) :: ahead, ?_⟩
    intro cycle i hi
    have hfirst : now + (time 0 - now) = time 0 := Nat.add_sub_cancel' hnow
    cases i with
    | zero => exact hfirst
    | succ i =>
      have hrest := hahead cycle i (Nat.lt_of_succ_lt_succ hi)
      rw [← hfirst] at hrest
      exact hrest

/-- Every course of time that never goes back is read off some clock. -/
theorem exists_ofTicks_reading {time : ℕ → ℕ} (htime : Monotone time) (count : ℕ) :
    ∃ ticks, ∀ i < count, (ofTicks ticks).reading i = time i := by
  obtain ⟨ahead, hahead⟩ := exists_ahead htime (Nat.zero_le (time 0)) count
  exact ⟨ahead, hahead ahead⟩

end Course

section Round

/-- The ticks that are still to come in this round, or those of the next one. -/
def pending (clock : Clock) : List ℕ := if clock.ahead = [] then clock.cycle else clock.ahead

/-- What reading number `i` moves the clock by. -/
def tick (clock : Clock) (i : ℕ) : ℕ := (clock.after i).pending.headD 0

/-- The pending ticks are the end of a round, or all of it. -/
def InRound (clock : Clock) : Prop :=
  ∃ i, clock.pending = clock.cycle.drop (i % clock.cycle.length)

theorem read_eq (clock : Clock) : clock.read =
    (clock.now + clock.pending.headD 0,
      ⟨clock.now + clock.pending.headD 0, clock.cycle, clock.pending.tail⟩) := by
  obtain ⟨now, cycle, ahead⟩ := clock
  cases ahead with
  | cons tick rest => rfl
  | nil =>
    cases cycle with
    | cons tick rest => rfl
    | nil => rfl

theorem inRound_ofTicks (ticks : List ℕ) : (ofTicks ticks).InRound := by
  refine ⟨0, ?_⟩
  rw [Nat.zero_mod]
  exact ite_self ticks

theorem cycle_after (clock : Clock) (n : ℕ) : (clock.after n).cycle = clock.cycle := by
  induction n with
  | zero => rfl
  | succ n ih => rw [after_succ, read_eq, ih]

theorem pending_read {i : ℕ} (h : clock.pending = clock.cycle.drop (i % clock.cycle.length)) :
    clock.read.2.pending = clock.cycle.drop ((i + 1) % clock.cycle.length) := by
  have htail : clock.read.2.pending =
      if clock.cycle.drop (i % clock.cycle.length + 1) = [] then clock.cycle
      else clock.cycle.drop (i % clock.cycle.length + 1) := by
    rw [read_eq, pending, h, List.tail_drop]
  rcases Nat.eq_zero_or_pos clock.cycle.length with hnone | hsome
  · rw [htail, List.length_eq_zero_iff.mp hnone, List.drop_nil, List.drop_nil, ite_self]
  · have hlt := Nat.mod_lt i hsome
    have hstep : (i + 1) % clock.cycle.length = (i % clock.cycle.length + 1) % clock.cycle.length :=
      (Nat.mod_add_mod i _ 1).symm
    rw [htail, hstep]
    split
    · next hend =>
      have hlast : i % clock.cycle.length + 1 = clock.cycle.length :=
        Nat.le_antisymm hlt (List.drop_eq_nil_iff.mp hend)
      rw [hlast, Nat.mod_self, List.drop_zero]
    · next hmore =>
      rw [List.drop_eq_nil_iff, Nat.not_le] at hmore
      rw [Nat.mod_eq_of_lt hmore]

theorem pending_after {i : ℕ} (h : clock.pending = clock.cycle.drop (i % clock.cycle.length))
    (n : ℕ) : (clock.after n).pending = clock.cycle.drop ((i + n) % clock.cycle.length) := by
  induction n with
  | zero => exact h
  | succ n ih =>
    rw [← cycle_after clock n] at ih
    rw [after_succ, pending_read ih, cycle_after]
    rfl

theorem InRound.after (h : clock.InRound) (n : ℕ) : (clock.after n).InRound := by
  obtain ⟨i, hi⟩ := h
  refine ⟨i + n, ?_⟩
  rw [cycle_after]
  exact pending_after hi n

theorem InRound.tick_periodic (h : clock.InRound) :
    Function.Periodic clock.tick clock.cycle.length := by
  obtain ⟨i, hi⟩ := h
  intro n
  unfold tick
  rw [pending_after hi, pending_after hi, ← Nat.add_assoc, Nat.add_mod_right]

theorem InRound.tick_of_cycle_nil (h : clock.InRound) (hnone : clock.cycle = []) (n : ℕ) :
    clock.tick n = 0 := by
  obtain ⟨i, hi⟩ := h
  unfold tick
  rw [pending_after hi, hnone, List.drop_nil]
  rfl

theorem reading_succ (clock : Clock) (n : ℕ) :
    clock.reading (n + 1) = clock.reading n + clock.tick (n + 1) := by
  have hread : clock.reading (n + 1) =
      (clock.after (n + 1)).now + (clock.after (n + 1)).pending.headD 0 := by
    rw [reading, read_eq]
  have hnow : (clock.after (n + 1)).now = clock.reading n := by
    rw [after_succ, read_now]
    rfl
  rw [hread, hnow]
  rfl

end Round

end ReplayWindow.Clock
