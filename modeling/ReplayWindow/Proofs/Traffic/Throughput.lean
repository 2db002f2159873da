import ReplayWindow.Proofs.Clock
import ReplayWindow.Proofs.Traffic.Link
import ReplayWindow.Traffic.Throughput
import Mathlib.Algebra.BigOperators.Intervals
import Mathlib.Data.Nat.Periodic
import Mathlib.Order.Nat

/-!
Both kinds of window over the same batches. They have the same history at every time, so
they accept equally many counters of each batch, however long a measurement goes on. It goes
on for the least number of batches that the clock measures to take the whole limit. The clock
comes round, so a measurement that is still short of its limit after as many rounds of ticks
as the limit allows would never come to it.
-/

namespace ReplayWindow.Throughput

open Link (batches batchWords deliverEach stream NoWrap)
open Window (acceptedEach offerEach)
open Window.Faithful (Tracks)

section Time

variable {clock : Clock} {limit count : ℕ}

/-- What the clock measures for pass number `i`. -/
def passTime (clock : Clock) (i : ℕ) : ℕ := clock.reading (2 * i + 1) - clock.reading (2 * i)

/-- What it measures for batch number `i`, which takes a pass through either window. -/
def batchTime (clock : Clock) (i : ℕ) : ℕ := passTime clock (2 * i) + passTime clock (2 * i + 1)

def spent (clock : Clock) (count : ℕ) : ℕ := ∑ i ∈ Finset.range count, batchTime clock i

theorem passTime_after (clock : Clock) (n i : ℕ) :
    passTime (clock.after (2 * n)) i = passTime clock (n + i) := by
  unfold passTime
  rw [Clock.reading_after, Clock.reading_after, Nat.mul_add, Nat.add_assoc]

theorem batchTime_after (clock : Clock) (n i : ℕ) :
    batchTime (clock.after (4 * n)) i = batchTime clock (n + i) := by
  have hpasses : 4 * n = 2 * (2 * n) := by omega
  unfold batchTime
  rw [hpasses, passTime_after, passTime_after, Nat.mul_add, Nat.add_assoc]

theorem passTime_eq_tick (clock : Clock) (i : ℕ) : passTime clock i = clock.tick (2 * i + 1) := by
  rw [passTime, Clock.reading_succ, Nat.add_sub_cancel_left]

theorem batchTime_periodic (h : clock.InRound) :
    Function.Periodic (batchTime clock) clock.cycle.length := by
  have hround : Function.Periodic clock.tick (4 * clock.cycle.length) := h.tick_periodic.nsmul 4
  intro i
  have hfirst : 2 * (2 * (i + clock.cycle.length)) + 1 =
      2 * (2 * i) + 1 + 4 * clock.cycle.length := by omega
  have hsecond : 2 * (2 * (i + clock.cycle.length) + 1) + 1 =
      2 * (2 * i + 1) + 1 + 4 * clock.cycle.length := by omega
  unfold batchTime
  simp only [passTime_eq_tick]
  rw [hfirst, hsecond, hround, hround]

theorem spent_rounds (h : clock.InRound) (rounds : ℕ) :
    spent clock (rounds * clock.cycle.length) = rounds * spent clock clock.cycle.length := by
  induction rounds with
  | zero =>
    rw [Nat.zero_mul, Nat.zero_mul]
    rfl
  | succ rounds ih =>
    have hlater (i : ℕ) : batchTime clock (clock.cycle.length + i) = batchTime clock i := by
      rw [Nat.add_comm]
      exact batchTime_periodic h i
    rw [Nat.succ_mul, Nat.succ_mul, Nat.add_comm, ← ih, Nat.add_comm (spent _ _)]
    unfold spent
    rw [Finset.sum_range_add]
    simp only [hlater]

/-- A clock that measures anything at all does so in each round. -/
theorem limit_le_spent (h : clock.InRound) (hcount : limit ≤ spent clock count) :
    limit ≤ spent clock (limit * clock.cycle.length) := by
  rcases Nat.eq_zero_or_pos limit with hnone | hsome
  · rw [hnone]
    exact Nat.zero_le _
  · obtain ⟨i, _, hi⟩ : ∃ i ∈ Finset.range count, batchTime clock i ≠ 0 :=
      Finset.exists_ne_zero_of_sum_ne_zero (Nat.ne_of_gt (hsome.trans_le hcount))
    have hticks : 0 < clock.cycle.length := by
      rw [List.length_pos_iff]
      intro hnil
      apply hi
      simp only [batchTime, passTime_eq_tick, h.tick_of_cycle_nil hnil]
    -- batch `i` takes as long as the one at its place in the first round
    have hmod : i % clock.cycle.length ∈ Finset.range clock.cycle.length :=
      Finset.mem_range.mpr (Nat.mod_lt i hticks)
    have hle : batchTime clock (i % clock.cycle.length) ≤ spent clock clock.cycle.length :=
      Finset.single_le_sum (fun _ _ => Nat.zero_le _) hmod
    rw [(batchTime_periodic h).map_mod_nat] at hle
    rw [spent_rounds h]
    exact Nat.le_mul_of_pos_right limit (Nat.lt_of_lt_of_le (Nat.pos_of_ne_zero hi) hle)

/-- As many batches as it takes to reach the limit, and no more. -/
structure Needed (limit : ℕ) (clock : Clock) (count : ℕ) : Prop where
  isLeast : IsLeast {n | limit ≤ spent clock n} count
  of_zero : limit = 0 → count = 0
  le_limit : (∀ i < count, 1 ≤ batchTime clock i) → count ≤ limit

theorem count_le_spent (h : ∀ i < count, 1 ≤ batchTime clock i) : count ≤ spent clock count := by
  have hones : ∑ _i ∈ Finset.range count, 1 ≤ spent clock count :=
    Finset.sum_le_sum fun i hi => h i (Finset.mem_range.mp hi)
  rwa [Finset.sum_const, Finset.card_range, smul_eq_mul, Nat.mul_one] at hones

theorem needed_of_isLeast (h : IsLeast {n | limit ≤ spent clock n} count) :
    Needed limit clock count := by
  refine ⟨h, ?_, ?_⟩
  · rintro rfl
    exact Nat.le_zero.mp (h.2 (Nat.zero_le _))
  · intro hbatches
    by_contra hmore
    have hlimit : limit ≤ spent clock limit :=
      count_le_spent fun i hi => hbatches i (by omega)
    exact hmore (h.2 hlimit)

theorem exists_needed (h : limit ≤ spent clock count) : ∃ needed, Needed limit clock needed :=
  ⟨_, needed_of_isLeast (Nat.isLeast_find ⟨count, h⟩)⟩

end Time

namespace Trial

variable {t : Trial} {limit count : ℕ}

/-- A step without the comparison. -/
def advance (t : Trial) : Trial :=
  let delivery := Link.batch t.source t.next
  let (byRing, ring, clock) := t.ring.pass delivery.counters t.clock
  let (byShifted, shifted, clock) := t.shifted.pass delivery.counters clock
  { ring := ring
    shifted := shifted
    next := delivery.next
    checked := t.checked + delivery.counters.length.toUInt64
    accepted := t.accepted ++ [(byRing, byShifted)]
    source := delivery.source
    clock := clock }

/-- Both windows have seen the same counters. -/
def Lockstep (t : Trial) : Prop :=
  ∃ known, Tracks t.ring.window known ∧ Tracks t.shifted.window known ∧
    Window.width t.ring.window = Window.width t.shifted.window

theorem lockstep_start {width : UInt64} (hwidth : width.toNat < 2 ^ 63) (source : WordSource)
    (clock : Clock) : (start width source clock).Lockstep :=
  ⟨∅, (Ring.holds_ofWidth width).tracks, Shifted.holds_ofWidth width hwidth,
    (Shifted.ofWidth_width width).symm⟩

theorem Lockstep.step_eq (h : t.Lockstep) : t.step = .ok t.advance := by
  obtain ⟨known, hring, hshifted, hwidth⟩ := h
  have hflags := Window.offerEach_answers_eq hring hshifted hwidth
    (Link.batch t.source t.next).counters
  exact if_pos (congrArg (List.count true) hflags)

theorem Lockstep.advance (h : t.Lockstep) : t.advance.Lockstep := by
  obtain ⟨known, hring, hshifted, hwidth⟩ := h
  let batch := (Link.batch t.source t.next).counters
  refine ⟨known ∪ batch.toFinset, Window.offerEach_tracks hring batch,
    Window.offerEach_tracks hshifted batch, ?_⟩
  exact (Window.offerEach_width hring batch).trans
    (hwidth.trans (Window.offerEach_width hshifted batch).symm)

section Run

/-- A number of steps. -/
def steps (t : Trial) : ℕ → Except Failure Trial
  | 0 => .ok t
  | count + 1 =>
    match t.step with
    | .ok t => t.steps count
    | .error failure => .error failure

theorem Lockstep.steps_eq (h : t.Lockstep) (count : ℕ) :
    t.steps count = .ok (Trial.advance^[count] t) := by
  induction count generalizing t with
  | zero => rfl
  | succ count ih =>
    rw [steps, h.step_eq]
    exact ih h.advance

theorem Lockstep.runFor_eq (h : t.Lockstep)
    (hcount : IsLeast {n | limit ≤ (Trial.advance^[n] t).elapsed} count) {bound : ℕ}
    (hbound : count ≤ bound) : t.runFor limit bound = .ok (Trial.advance^[count] t) := by
  induction bound generalizing t count with
  | zero =>
    obtain rfl : count = 0 := Nat.le_zero.mp hbound
    exact if_pos hcount.1
  | succ bound ih =>
    cases count with
    | zero => exact if_pos hcount.1
    | succ count =>
      have hleast := mem_lowerBounds.mp hcount.2
      have hshort : ¬ limit ≤ t.elapsed := mt (hleast 0) (Nat.not_succ_le_zero count)
      have hrest : IsLeast {n | limit ≤ (Trial.advance^[n] t.advance).elapsed} count :=
        ⟨hcount.1, fun n hn => Nat.le_of_succ_le_succ (hleast (n + 1) hn)⟩
      rw [runFor, if_neg hshort, h.step_eq]
      exact ih h.advance hrest (Nat.le_of_succ_le_succ hbound)

theorem Lockstep.runFor_stalled (h : t.Lockstep)
    (hnever : ∀ n, (Trial.advance^[n] t).elapsed < limit) (bound : ℕ) :
    t.runFor limit bound = .error .stalled := by
  have hshort : ¬ limit ≤ t.elapsed := Nat.not_le.mpr (hnever 0)
  induction bound generalizing t with
  | zero => exact if_neg hshort
  | succ bound ih =>
    rw [runFor, if_neg hshort, h.step_eq]
    exact ih h.advance (fun n => hnever (n + 1)) (Nat.not_le.mpr (hnever 1))

end Run

/-- What a number of batches adds to a trial. -/
structure Adds (t later : Trial) (count : ℕ) : Prop where
  source_eq : later.source = (deliverEach t.source t.next (batchWords * count)).source
  clock_eq : later.clock = t.clock.after (4 * count)
  ring_time : later.ring.elapsed =
    t.ring.elapsed + ∑ i ∈ Finset.range count, passTime t.clock (2 * i)
  shifted_time : later.shifted.elapsed =
    t.shifted.elapsed + ∑ i ∈ Finset.range count, passTime t.clock (2 * i + 1)
  checked_eq : later.checked = t.checked + .ofNat (stream t.source t.next count).length
  accepted_eq :
    let sent := (batches t.source t.next count).map (·.counters)
    later.accepted =
      t.accepted ++ (acceptedEach t.ring.window sent).zip (acceptedEach t.shifted.window sent)

theorem advance_source (t : Trial) : t.advance.source = (Link.batch t.source t.next).source := by
  rw [advance]

theorem advance_next (t : Trial) : t.advance.next = (Link.batch t.source t.next).next := by
  rw [advance]

theorem adds_iterate (t : Trial) (count : ℕ) : t.Adds (Trial.advance^[count] t) count := by
  induction count generalizing t with
  | zero =>
    exact ⟨rfl, rfl, rfl, rfl, (UInt64.add_zero _).symm, (List.append_nil _).symm⟩
  | succ count ih =>
    obtain ⟨hsource, hclock, hring, hshifted, hchecked, haccepted⟩ := ih t.advance
    -- the first batch takes passes 0 and 1, and the later ones are numbered from 2 on
    have hbegun : t.advance.clock = t.clock.after (2 * 2) := rfl
    have hpass (i : ℕ) : passTime t.advance.clock i = passTime t.clock (2 + i) := by
      rw [hbegun, passTime_after]
    rw [Function.iterate_succ_apply]
    constructor
    case source_eq =>
      rw [hsource, advance_source, advance_next, Link.batchWords_succ, Link.deliverEach_add]
      rfl
    case clock_eq =>
      rw [hclock, hbegun, ← Clock.after_add, Nat.add_comm]
      rfl
    case ring_time =>
      have hfirst : t.advance.ring.elapsed = t.ring.elapsed + passTime t.clock 0 := rfl
      rw [hring, hfirst, Finset.sum_range_succ', Nat.add_assoc, Nat.add_comm (passTime t.clock 0)]
      simp only [hpass, Nat.mul_succ, Nat.mul_zero, Nat.add_comm 2]
    case shifted_time =>
      have hfirst : t.advance.shifted.elapsed = t.shifted.elapsed + passTime t.clock 1 := rfl
      rw [hshifted, hfirst, Finset.sum_range_succ', Nat.add_assoc,
        Nat.add_comm (passTime t.clock 1)]
      simp only [hpass, Nat.mul_succ, Nat.mul_zero, Nat.add_comm 2, Nat.add_right_comm _ 1 2]
    case checked_eq =>
      have hfirst : t.advance.checked =
          t.checked + .ofNat (Link.batch t.source t.next).counters.length := rfl
      rw [hchecked, hfirst, advance_source, advance_next, Link.stream_succ, List.length_append,
        UInt64.ofNat_add, UInt64.add_assoc]
    case accepted_eq =>
      intro sent
      have hfirst : t.advance.accepted = t.accepted ++
          [((offerEach t.ring.window (Link.batch t.source t.next).counters).1.count true,
            (offerEach t.shifted.window (Link.batch t.source t.next).counters).1.count true)] := rfl
      rw [haccepted, hfirst, advance_source, advance_next, List.append_assoc]
      rfl

theorem elapsed_iterate (t : Trial) (count : ℕ) :
    (Trial.advance^[count] t).elapsed = t.elapsed + spent t.clock count := by
  obtain ⟨_, _, hring, hshifted, _, _⟩ := t.adds_iterate count
  have hboth : spent t.clock count = _ := Finset.sum_add_distrib
  rw [elapsed, elapsed, hring, hshifted, hboth]
  omega

end Trial

/-- What becomes of the first `count` batches of a measurement. -/
structure Compared (width : UInt64) (source : WordSource) (clock : Clock) (count : ℕ)
    (t : Trial) : Prop where
  steps_eq : (Trial.start width source clock).steps count = .ok t
  length_eq : t.accepted.length = count
  alike : ∀ numbers ∈ t.accepted, numbers.1 = numbers.2
  ring_accepts : t.accepted.map Prod.fst =
    acceptedEach (Ring.ofWidth width) ((batches source 0 count).map (·.counters))
  shifted_accepts : t.accepted.map Prod.snd =
    acceptedEach (Shifted.ofWidth width) ((batches source 0 count).map (·.counters))
  checked_eq : t.checked = .ofNat (stream source 0 count).length
  checked_toNat : (stream source 0 count).length < 2 ^ 64 →
    t.checked.toNat = (stream source 0 count).length
  ring_time : t.ring.elapsed = ∑ i ∈ Finset.range count, passTime clock (2 * i)
  shifted_time : t.shifted.elapsed = ∑ i ∈ Finset.range count, passTime clock (2 * i + 1)
  source_eq : t.source = (deliverEach source 0 (batchWords * count)).source
  clock_eq : t.clock = clock.after (4 * count)
  distinct : 2048 ≤ width → NoWrap source 0 (batchWords * count) →
    (t.accepted.map Prod.fst).sum = (stream source 0 count).toFinset.card

theorem compared_iterate {width : UInt64} (hwidth : width.toNat < 2 ^ 63) (source : WordSource)
    (clock : Clock) (count : ℕ) :
    Compared width source clock count (Trial.advance^[count] (.start width source clock)) := by
  obtain ⟨hsource, hclock, hring, hshifted, hchecked, haccepted⟩ :=
    (Trial.start width source clock).adds_iterate count
  let sent := (batches source 0 count).map (·.counters)
  have hnew : Tracks (Ring.ofWidth width) ∅ := (Ring.holds_ofWidth width).tracks
  have hsame : acceptedEach (Ring.ofWidth width) sent = acceptedEach (Shifted.ofWidth width) sent :=
    Window.acceptedEach_eq_of_tracks (W := Shifted) hnew (Shifted.holds_ofWidth width hwidth)
      (Shifted.ofWidth_width width).symm sent
  have hlength : (acceptedEach (Ring.ofWidth width) sent).length =
      (acceptedEach (Shifted.ofWidth width) sent).length := congrArg List.length hsame
  have hsum : (Trial.advance^[count] (.start width source clock)).checked =
      .ofNat (stream source 0 count).length := hchecked.trans (UInt64.zero_add _)
  have hzip : (Trial.advance^[count] (.start width source clock)).accepted =
      (acceptedEach (Ring.ofWidth width) sent).zip (acceptedEach (Shifted.ofWidth width) sent) :=
    haccepted
  have hfst := List.map_fst_zip (Nat.le_of_eq hlength)
  have hsnd := List.map_snd_zip (Nat.le_of_eq hlength.symm)
  rw [← hzip] at hfst hsnd
  constructor
  case steps_eq => exact (Trial.lockstep_start hwidth source clock).steps_eq count
  case length_eq =>
    have hcount : sent.length = count := by
      rw [List.length_map, Link.batches_length]
    rw [← List.length_map Prod.fst, hfst, Window.acceptedEach_length, hcount]
  case alike => exact List.map_inj_left.mp (hfst.trans (hsame.trans hsnd.symm))
  case ring_accepts => exact hfst
  case shifted_accepts => exact hsnd
  case checked_eq => exact hsum
  case checked_toNat =>
    intro hroom
    rw [hsum, UInt64.toNat_ofNat_of_lt' hroom]
  case ring_time => exact hring.trans (Nat.zero_add _)
  case shifted_time => exact hshifted.trans (Nat.zero_add _)
  case source_eq => exact hsource
  case clock_eq => exact hclock
  case distinct =>
    intro hwide hwrap
    have hlimit : 2047 < width.toNat := UInt64.le_iff_toNat_le.mp hwide
    have hstream : sent.flatten = stream source 0 count := List.flatMap_def.symm
    rw [hfst, Window.acceptedEach_sum, hstream]
    exact hwrap.stream_trails.count_eq hnew hlimit

section Run

variable {limit count : ℕ} {width : UInt64} {source : WordSource} {clock : Clock} {t : Trial}

theorem Compared.eq_iterate (h : Compared width source clock count t)
    (hwidth : width.toNat < 2 ^ 63) :
    t = Trial.advance^[count] (.start width source clock) := by
  have hsteps := (Trial.lockstep_start hwidth source clock).steps_eq count
  rw [h.steps_eq] at hsteps
  exact Except.ok.inj hsteps

theorem Compared.inRound (h : Compared width source clock count t) (hclock : clock.InRound) :
    t.clock.InRound := by
  rw [h.clock_eq]
  exact hclock.after (4 * count)

theorem elapsed_start_iterate (width : UInt64) (source : WordSource) (clock : Clock) (n : ℕ) :
    (Trial.advance^[n] (.start width source clock)).elapsed = spent clock n :=
  (Trial.elapsed_iterate _ n).trans (Nat.zero_add _)

/-- A limit that can be reached at all is reached in as many rounds as it has nanoseconds. -/
theorem run_of_needed (hwidth : width.toNat < 2 ^ 63) (hclock : clock.InRound)
    (hneeded : Needed limit clock count) (h : Compared width source clock count t) :
    (Trial.start width source clock).run limit = .ok t := by
  rw [h.eq_iterate hwidth]
  apply (Trial.lockstep_start hwidth source clock).runFor_eq
  · simp only [elapsed_start_iterate]
    exact hneeded.isLeast
  · exact hneeded.isLeast.2 (limit_le_spent hclock hneeded.isLeast.1)

theorem run_of_never (hwidth : width.toNat < 2 ^ 63) (hnever : ∀ n, spent clock n < limit) :
    (Trial.start width source clock).run limit = .error .stalled := by
  apply (Trial.lockstep_start hwidth source clock).runFor_stalled
  intro n
  rw [elapsed_start_iterate]
  exact hnever n

end Run

section InTurn

def Trial.row (t : Trial) (width : UInt64) : Row where
  width := width
  checked := t.checked
  ringTime := t.ring.elapsed
  shiftedTime := t.shifted.elapsed
  accepted := t.accepted

variable {limit : ℕ} {source : WordSource} {clock : Clock} {sizes : List UInt64} {rows : List Row}

/-- The rows for some widths that are measured in turn. -/
inductive Measured (limit : ℕ) : WordSource → Clock → List UInt64 → List Row → Prop where
  | nil (source : WordSource) (clock : Clock) : Measured limit source clock [] []
  | cons {source : WordSource} {clock : Clock} {width : UInt64} {rest : List UInt64}
      {rows : List Row} {count : ℕ} {t : Trial} :
      Needed limit clock count → Compared width source clock count t →
      Measured limit t.source t.clock rest rows →
      Measured limit source clock (width :: rest) (t.row width :: rows)

/-- For one of the widths the limit is never reached. -/
inductive Stalls (limit : ℕ) : WordSource → Clock → List UInt64 → Prop where
  | here {source : WordSource} {clock : Clock} {width : UInt64} {rest : List UInt64} :
      (∀ n, spent clock n < limit) → Stalls limit source clock (width :: rest)
  | later {source : WordSource} {clock : Clock} {width : UInt64} {rest : List UInt64}
      {count : ℕ} {t : Trial} :
      Needed limit clock count → Compared width source clock count t →
      Stalls limit t.source t.clock rest → Stalls limit source clock (width :: rest)

theorem measured_or_stalls (limit : ℕ) (source : WordSource) (clock : Clock)
    (hsizes : ∀ width ∈ sizes, width.toNat < 2 ^ 63) :
    (∃ rows, Measured limit source clock sizes rows) ∨ Stalls limit source clock sizes := by
  induction sizes generalizing source clock with
  | nil => exact Or.inl ⟨[], .nil source clock⟩
  | cons width rest ih =>
    obtain ⟨hwidth, hrest⟩ := List.forall_mem_cons.mp hsizes
    by_cases hreached : ∃ n, limit ≤ spent clock n
    · obtain ⟨n, hn⟩ := hreached
      obtain ⟨count, hneeded⟩ := exists_needed hn
      have hcompared := compared_iterate hwidth source clock count
      rcases ih _ _ hrest with ⟨rows, hrows⟩ | hstalls
      · exact Or.inl ⟨_, .cons hneeded hcompared hrows⟩
      · exact Or.inr (.later hneeded hcompared hstalls)
    · refine Or.inr (.here fun n => ?_)
      exact Nat.not_le.mp fun hn => hreached ⟨n, hn⟩

/-- A width that is measured to its end leaves its row, and the rest starts where it ended. -/
theorem measureEach_cons {width : UInt64} {count : ℕ} {t : Trial} (hwidth : width.toNat < 2 ^ 63)
    (hclock : clock.InRound) (hneeded : Needed limit clock count)
    (hcompared : Compared width source clock count t) :
    measureEach limit source clock (width :: sizes) =
      (measureEach limit t.source t.clock sizes).map (t.row width :: ·) := by
  rw [measureEach, run_of_needed hwidth hclock hneeded hcompared]
  cases hrest : measureEach limit t.source t.clock sizes with
  | error failure => simp only [hrest]; rfl
  | ok rows => simp only [hrest]; rfl

theorem Measured.measureEach_eq (h : Measured limit source clock sizes rows)
    (hclock : clock.InRound) (hsizes : ∀ width ∈ sizes, width.toNat < 2 ^ 63) :
    measureEach limit source clock sizes = .ok rows := by
  induction h with
  | nil => rfl
  | cons hneeded hcompared _ ih =>
    obtain ⟨hwidth, hrest⟩ := List.forall_mem_cons.mp hsizes
    rw [measureEach_cons hwidth hclock hneeded hcompared, ih (hcompared.inRound hclock) hrest]
    rfl

theorem Stalls.measureEach_eq (h : Stalls limit source clock sizes)
    (hclock : clock.InRound) (hsizes : ∀ width ∈ sizes, width.toNat < 2 ^ 63) :
    measureEach limit source clock sizes = .error .stalled := by
  induction h with
  | here hnever =>
    rw [measureEach, run_of_never (List.forall_mem_cons.mp hsizes).1 hnever]
  | later hneeded hcompared _ ih =>
    obtain ⟨hwidth, hrest⟩ := List.forall_mem_cons.mp hsizes
    rw [measureEach_cons hwidth hclock hneeded hcompared, ih (hcompared.inRound hclock) hrest]
    rfl

theorem measureEach_eq_ok_iff (hclock : clock.InRound)
    (hsizes : ∀ width ∈ sizes, width.toNat < 2 ^ 63) :
    measureEach limit source clock sizes = .ok rows ↔ Measured limit source clock sizes rows := by
  constructor
  · intro h
    rcases measured_or_stalls limit source clock hsizes with ⟨found, hfound⟩ | hstalls
    · rw [hfound.measureEach_eq hclock hsizes] at h
      exact Except.ok.inj h ▸ hfound
    · rw [hstalls.measureEach_eq hclock hsizes] at h
      cases h
  · exact fun h => h.measureEach_eq hclock hsizes

theorem measureEach_eq_error_iff (hclock : clock.InRound)
    (hsizes : ∀ width ∈ sizes, width.toNat < 2 ^ 63) (failure : Failure) :
    measureEach limit source clock sizes = .error failure ↔
      failure = .stalled ∧ Stalls limit source clock sizes := by
  constructor
  · intro h
    rcases measured_or_stalls limit source clock hsizes with ⟨found, hfound⟩ | hstalls
    · rw [hfound.measureEach_eq hclock hsizes] at h
      cases h
    · rw [hstalls.measureEach_eq hclock hsizes] at h
      exact ⟨(Except.error.inj h).symm, hstalls⟩
  · rintro ⟨rfl, hstalls⟩
    exact hstalls.measureEach_eq hclock hsizes

/-- While every batch is measured to take some time, no width needs more than `limit` batches. -/
theorem not_stalls (hbatches : ∀ i < sizes.length * limit, 1 ≤ batchTime clock i) :
    ¬ Stalls limit source clock sizes := by
  intro h
  have hlimit {clock : Clock} {width : UInt64} {rest : List UInt64}
      (hbatches : ∀ i < (width :: rest).length * limit, 1 ≤ batchTime clock i) :
      limit ≤ spent clock limit := by
    apply count_le_spent
    intro i hi
    exact hbatches i (hi.trans_le (Nat.le_mul_of_pos_left limit (Nat.succ_pos rest.length)))
  induction h with
  | here hnever => exact absurd (hlimit hbatches) (Nat.not_le.mpr (hnever limit))
  | later hneeded hcompared _ ih =>
    have hcount := hneeded.isLeast.2 (hlimit hbatches)
    apply ih
    intro i hi
    rw [hcompared.clock_eq, batchTime_after]
    apply hbatches
    rw [List.length_cons, Nat.succ_mul]
    omega

end InTurn

/-- What measuring all widths in turn comes to. -/
structure Comparison (limit : ℕ) (source : WordSource) (clock : Clock) : Prop where
  ok_iff : ∀ rows, measure limit source clock = .ok rows ↔ Measured limit source clock widths rows
  error_iff : ∀ failure, measure limit source clock = .error failure ↔
    failure = .stalled ∧ Stalls limit source clock widths
  ends : (∀ i < widths.length * limit, 1 ≤ batchTime clock i) →
    ∃ rows, measure limit source clock = .ok rows

/-- The two kinds of window accept equally many counters of every batch, whatever the words
and the clock, and each width is measured with as many batches as the limit needs. The
clock may show any course of time that never goes back. -/
theorem windows_agree_in_every_batch :
    (∀ width ∈ widths, ∀ source clock count, ∃ t, Compared width source clock count t) ∧
    (∀ limit source ticks, Comparison limit source (.ofTicks ticks)) ∧
    ∀ time : ℕ → ℕ, Monotone time → ∀ count, ∃ ticks,
      ∀ i < count, (Clock.ofTicks ticks).reading i = time i := by
  have hwidths : ∀ width ∈ widths, width.toNat < 2 ^ 63 := by simp [widths]
  refine ⟨?each_width, ?in_turn, fun time htime => Clock.exists_ofTicks_reading htime⟩
  case each_width =>
    intro width hwidth source clock count
    exact ⟨_, compared_iterate (hwidths width hwidth) source clock count⟩
  case in_turn =>
    intro limit source ticks
    have hclock := Clock.inRound_ofTicks ticks
    constructor
    case ok_iff => exact fun _ => measureEach_eq_ok_iff hclock hwidths
    case error_iff => exact measureEach_eq_error_iff hclock hwidths
    case ends =>
      intro hbatches
      rcases measured_or_stalls limit source (.ofTicks ticks) hwidths with ⟨rows, hrows⟩ | hstalls
      · exact ⟨rows, hrows.measureEach_eq hclock hwidths⟩
      · exact absurd hstalls (not_stalls hbatches)

/-- A clock that ticks once for each reading measures two nanoseconds for a batch. -/
theorem windows_agree_under_steady_clock :
    let clock := Clock.ofTicks [1]
    let source : WordSource := ⟨[0, 3, 1, 65506, 3], 7⟩
    (∀ i < widths.length * 3, 1 ≤ batchTime clock i) ∧ (∃ rows, measure 3 source clock = .ok rows) ∧
    (8192 : UInt64) ∈ widths ∧ (2048 : UInt64) ≤ 8192 ∧ NoWrap source 0 (batchWords * 2) ∧
    (∃ t, Compared 8192 source clock 2 t ∧
      (t.accepted.map Prod.fst).sum = (stream source 0 2).toFinset.card) ∧
    Monotone (fun n : ℕ => 7 * n) ∧
    ∃ ticks, ∀ i < 60, (Clock.ofTicks ticks).reading i = 7 * i := by
  intro clock source
  obtain ⟨hwidths, hmeasure, hcourse⟩ := windows_agree_in_every_batch
  have hticks : ∀ i < widths.length * 3, 1 ≤ batchTime clock i := by decide
  have hmem : (8192 : UInt64) ∈ widths := by decide
  have hwide : (2048 : UInt64) ≤ 8192 := by decide
  have hroom : (0 : Counter).toNat + batchWords * 2 < 2 ^ 64 := by decide
  have hwrap : NoWrap source 0 (batchWords * 2) := Link.noWrap_of_room hroom
  have hmono : Monotone (fun n : ℕ => 7 * n) := fun _ _ hle => Nat.mul_le_mul_left 7 hle
  obtain ⟨t, ht⟩ := hwidths 8192 hmem source clock 2
  exact ⟨hticks, (hmeasure 3 source [1]).ends hticks, hmem, hwide, hwrap,
    ⟨t, ht, ht.distinct hwide hwrap⟩, hmono, hcourse _ hmono 60⟩

end ReplayWindow.Throughput
