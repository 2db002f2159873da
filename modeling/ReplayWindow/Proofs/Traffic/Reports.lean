import ReplayWindow.Proofs.Checked.Words
import ReplayWindow.Proofs.Clock
import ReplayWindow.Proofs.Traffic.Receiver
import Mathlib.Algebra.BigOperators.Intervals
import Mathlib.Data.Nat.Find
import Mathlib.Data.UInt

/-!
The reports of a receiver. The batches of a run are cut into intervals: one ends with each
batch after which the clock shows a second or more since the last report. A report tells
what was accepted in its interval and how far the front has come, and what is left in the
end belongs to the interval that no report has closed. The counts are words and may wrap, and
still add up to what the tally grows by. The clock never goes back, so the time since the last
report can always be taken.
-/

namespace ReplayWindow

open Window (offerEach)

section Front

/-- Offers move the front of a ring to the highest counter that was offered. -/
theorem Ring.offerEach_last (r : Ring) (counters : List Counter) :
    (offerEach r counters).2.last = counters.foldl max r.last := by
  induction counters generalizing r with
  | nil => rfl
  | cons c rest ih =>
    have hlast : (Ring.offer r c).2.last = max r.last c := by
      rw [Ring.offer_snd, Ring.record_last, ← UInt64.toNat_inj, UInt64.toNat_max]
      split
      · next hc =>
        rw [UInt64.lt_iff_toNat_lt] at hc
        omega
      · next hc =>
        rw [UInt64.lt_iff_toNat_lt] at hc
        omega
    rw [List.foldl_cons, ← hlast]
    exact ih (Ring.offer r c).2

theorem Ring.last_le_offerEach_last (r : Ring) (counters : List Counter) :
    r.last ≤ (offerEach r counters).2.last := by
  induction counters generalizing r with
  | nil => exact UInt64.le_refl _
  | cons c rest ih =>
    have hfirst : r.last ≤ (Ring.offer r c).2.last := by
      rw [Ring.offer_snd, UInt64.le_iff_toNat_le]
      exact Ring.last_le_record_last r c
    exact UInt64.le_trans hfirst (ih (Ring.offer r c).2)

end Front

/-- Numbers may be summed up before they are cut to words, or after. -/
theorem ofNat_sum (numbers : List ℕ) :
    UInt64.ofNat numbers.sum = (numbers.map UInt64.ofNat).sum := by
  induction numbers with
  | nil => rfl
  | cons n rest ih => rw [List.sum_cons, UInt64.ofNat_add, ih, List.map_cons, List.sum_cons]

namespace Receiver

section Batch

variable {p : Progress} {known : Finset Counter}

theorem take_reports (p : Progress) (c : Counter) :
    (p.take c).reports = p.reports ∧ (p.take c).reported = p.reported := by
  unfold Progress.take
  split <;> exact ⟨rfl, rfl⟩

theorem takeBatch_reports (p : Progress) (batch : List Counter) :
    (p.takeBatch batch).reports = p.reports ∧ (p.takeBatch batch).reported = p.reported := by
  induction batch generalizing p with
  | nil => exact ⟨rfl, rfl⟩
  | cons c rest ih =>
    obtain ⟨hreports, hreported⟩ := take_reports p c
    obtain ⟨hreports', hreported'⟩ := ih (p.take c)
    exact ⟨hreports'.trans hreports, hreported'.trans hreported⟩

theorem offer_fst_iff (h : p.gate.Tracks known) (c : Counter) :
    (Window.offer p.gate.window c).1 = true ↔ p.gate.inspect c = .ok := by
  obtain ⟨recorded, hholds, _, _⟩ := h
  have hanswer : (Window.offer p.gate.window c).1 = Window.accepts p.gate.window c :=
    hholds.offer_fst c
  rw [hanswer]
  exact (p.gate.inspect_ok_iff_accepts c).symm

theorem take_received (h : p.gate.Tracks known) (c : Counter) :
    (p.take c).received = p.received + .ofNat ((offerEach p.gate.window [c]).1.count true) := by
  have hflag := offer_fst_iff h c
  have hcount : (offerEach p.gate.window [c]).1.count true =
      if (Window.offer p.gate.window c).1 = true then 1 else 0 := by
    simp [offerEach, List.count_cons]
  rw [hcount]
  cases hc : p.gate.inspect c with
  | ok =>
    rw [Progress.take_ok hc, if_pos (hflag.mpr hc)]
    rfl
  | refused why =>
    have hno : ¬ (Window.offer p.gate.window c).1 = true := by
      rw [hflag, hc]
      exact Verdict.noConfusion
    rw [Progress.take_refused hc, if_neg hno]
    exact (UInt64.add_zero _).symm

/-- The count starts again at zero after the highest word. -/
example :
    let p : Progress :=
      { gate := .ofWidth 4, tally := ⟨0, 0, 0⟩, received := 0xffffffffffffffff }
    (p.take 5).received = 0 := by decide

/-- What a batch adds to the count since the last report. -/
theorem takeBatch_received (h : p.gate.Tracks known) (batch : List Counter) :
    (p.takeBatch batch).received =
      p.received + .ofNat ((offerEach p.gate.window batch).1.count true) := by
  induction batch generalizing p known with
  | nil => exact (UInt64.add_zero _).symm
  | cons c rest ih =>
    obtain ⟨later, htracks⟩ := offered_tracks (s := p.held) h [c]
    have hheld := Progress.held_take h c
    rw [← hheld] at htracks
    have hwindow : (p.take c).gate.window = (offerEach p.gate.window [c]).2 :=
      congrArg (·.1.window) hheld
    have hsplit : offerEach p.gate.window (c :: rest) = _ :=
      Window.offerEach_append p.gate.window [c] rest
    have hrest : (p.takeBatch (c :: rest)).received = _ := ih (p := p.take c) htracks
    rw [hrest, take_received h c, hwindow, hsplit, List.count_append, UInt64.ofNat_add,
      UInt64.add_assoc]

theorem report_of_lt {p : Progress} {time : ℕ} (hforward : p.reported ≤ time)
    (h : time < p.reported + Clock.second) : p.report time = p := by
  have hshort : time - p.reported < Clock.second := by omega
  simp only [Progress.report, hshort, ↓reduceIte]

theorem report_of_le {p : Progress} {time : ℕ} (h : p.reported + Clock.second ≤ time) :
    p.report time = { p with
      received := 0
      reported := time
      reports := p.reports ++ [⟨p.received, time - p.reported, p.gate.last⟩] } := by
  have hlong : ¬ time - p.reported < Clock.second := by omega
  simp only [Progress.report, hlong, ↓reduceIte]

theorem takeEach_concat (p : Progress) (start : ℕ) (clock : Clock)
    (batches : List (List Counter)) (batch : List Counter) :
    p.takeEach start clock (batches ++ [batch]) =
      ((p.takeEach start clock batches).takeBatch batch).report
        (clock.reading batches.length - start) := by
  induction batches generalizing p clock with
  | nil => rfl
  | cons first rest ih => exact ih _ clock.read.2

end Batch

section Checks

/-- A span of time can be taken up to a later time and not up to an earlier one. -/
def checkedSpan (later earlier : ℕ) : Checked ℕ :=
  if earlier ≤ later then .ok (later - earlier) else .error .underflow

def Progress.checkedReport (p : Progress) (elapsed : ℕ) : Checked Progress := do
  let span ← checkedSpan elapsed p.reported
  if span < Clock.second then pure p
  else
    pure { p with
      received := 0
      reported := elapsed
      reports := p.reports ++ [⟨p.received, span, p.gate.last⟩] }

def Progress.checkedTakeEach (p : Progress) (start : ℕ) (clock : Clock) :
    List (List Counter) → Checked Progress
  | [] => pure p
  | batch :: rest => do
    let elapsed ← checkedSpan clock.read.1 start
    let p ← (p.takeBatch batch).checkedReport elapsed
    p.checkedTakeEach start clock.read.2 rest

theorem checkedSpan_eq_ok {later earlier : ℕ} (h : earlier ≤ later) :
    checkedSpan later earlier = .ok (later - earlier) := if_pos h

theorem checkedReport_eq_ok {p : Progress} {elapsed : ℕ} (h : p.reported ≤ elapsed) :
    p.checkedReport elapsed = .ok (p.report elapsed) := by
  rw [Progress.checkedReport, checkedSpan_eq_ok h, Checked.ok_bind, Progress.report]
  split <;> rfl

theorem reported_report_le {p : Progress} {elapsed : ℕ} (h : p.reported ≤ elapsed) :
    (p.report elapsed).reported ≤ elapsed := by
  simp only [Progress.report]
  split
  · exact h
  · exact Nat.le_refl _

/-- Spans are only taken up to what the clock shows, from what it has shown before. -/
theorem checkedTakeEach_eq_ok {p : Progress} {start : ℕ} {clock : Clock}
    (hstart : start ≤ clock.now) (hreported : p.reported ≤ clock.now - start)
    (batches : List (List Counter)) :
    p.checkedTakeEach start clock batches = .ok (p.takeEach start clock batches) := by
  induction batches generalizing p clock with
  | nil => rfl
  | cons batch rest ih =>
    have hforward := clock.now_le_read
    have hnow := clock.read_now
    have htaken : (p.takeBatch batch).reported ≤ clock.read.1 - start := by
      rw [(takeBatch_reports p batch).2]
      omega
    have hlater : ((p.takeBatch batch).report (clock.read.1 - start)).reported ≤
        clock.read.2.now - start := by
      rw [hnow]
      exact reported_report_le htaken
    rw [Progress.checkedTakeEach, checkedSpan_eq_ok (hstart.trans hforward), Checked.ok_bind,
      checkedReport_eq_ok htaken, Checked.ok_bind]
    exact ih (by omega) hlater

end Checks

/-- A run of a receiver that takes all of its batches. -/
structure Run where
  gate : Gate
  tally : Tally
  batches : List (List Counter)
  clock : Clock
  deriving DecidableEq

namespace Run

/-- How far the run has come when `n` batches are through. -/
def progress (run : Run) (n : ℕ) : Progress :=
  listen run.gate run.tally ⟨true, run.batches.take n, run.clock⟩

def result (run : Run) : Progress := listen run.gate run.tally ⟨true, run.batches, run.clock⟩

/-- The run with a check of every span of time that is taken. -/
def checkedResult (run : Run) : Checked Progress :=
  Progress.checkedTakeEach { gate := run.gate, tally := run.tally } run.clock.read.1
    run.clock.read.2 run.batches

/-- The time after the start at which the clock is read when `n` batches are through. -/
def elapsed (run : Run) (n : ℕ) : ℕ := run.clock.reading n - run.clock.reading 0

def ReportsAfter (run : Run) (n : ℕ) : Prop :=
  (run.progress (n - 1)).reports.length < (run.progress n).reports.length

instance (run : Run) : DecidablePred run.ReportsAfter := fun _ => Nat.decLt _ _

/-- The number of batches that are through at the last report before batch `n`, or zero. -/
def previous (run : Run) (n : ℕ) : ℕ := Nat.findGreatest run.ReportsAfter (n - 1)

/-- How many counters of batch number `i` are accepted. -/
def accepted (run : Run) (i : ℕ) : ℕ :=
  (offerEach (run.progress i).gate.window (run.batches.getD i [])).1.count true

/-- How many counters of the batches from number `m` up to before number `n` are accepted. -/
def gathered (run : Run) (m n : ℕ) : ℕ := ∑ i ∈ Finset.Ico m n, run.accepted i

/-- The maximum of the first front and the counters of the first `n` batches. -/
def front (run : Run) (n : ℕ) : Counter :=
  (run.batches.take n).flatten.foldl max run.gate.last

/-- What there is to report on the batches since the previous report. -/
def report (run : Run) (n : ℕ) : Report where
  received := .ofNat (run.gathered (run.previous n) n)
  span := run.elapsed n - run.elapsed (run.previous n)
  last := run.front n

/-- The numbers of batches that are through at the reports. -/
def marks (run : Run) (n : ℕ) : List ℕ := (List.range (n + 1)).filter (run.ReportsAfter ·)

variable {run : Run} {known : Finset Counter} {n : ℕ}

section Progress

theorem progress_length (run : Run) : run.progress run.batches.length = run.result := by
  rw [progress, List.take_length]
  rfl

theorem take_succ_batches (hn : n < run.batches.length) :
    run.batches.take (n + 1) = run.batches.take n ++ [run.batches.getD n []] := by
  rw [List.take_succ_eq_append_getElem hn, List.getD_eq_getElem _ _ hn]

theorem progress_succ (hn : n < run.batches.length) :
    run.progress (n + 1) = ((run.progress n).takeBatch (run.batches.getD n [])).report
      (run.elapsed (n + 1)) := by
  have hcount : (run.batches.take n).length = n := List.length_take_of_le (Nat.le_of_lt hn)
  have hconcat := takeEach_concat { gate := run.gate, tally := run.tally } run.clock.read.1
    run.clock.read.2 (run.batches.take n) (run.batches.getD n [])
  rw [← take_succ_batches hn, hcount] at hconcat
  exact hconcat

theorem held_progress (hg : run.gate.Tracks known) (n : ℕ) :
    (run.progress n).held = offered (run.gate, run.tally) (run.batches.take n).flatten :=
  Progress.held_takeEach (p := { gate := run.gate, tally := run.tally }) hg run.clock.read.1
    run.clock.read.2 (run.batches.take n)

theorem progress_tracks (hg : run.gate.Tracks known) (n : ℕ) :
    ∃ later, (run.progress n).gate.Tracks later := by
  obtain ⟨later, htracks⟩ :=
    offered_tracks (s := (run.gate, run.tally)) hg (run.batches.take n).flatten
  rw [← held_progress hg n] at htracks
  exact ⟨later, htracks⟩

theorem progress_last (hg : run.gate.Tracks known) (n : ℕ) :
    (run.progress n).gate.last = run.front n := by
  have hgate := congrArg (·.1.last) (held_progress hg n)
  exact hgate.trans (Ring.offerEach_last run.gate.window _)

end Progress

section Intervals

/-- The reports and the count since the last of them when `n` batches are through. -/
structure InStep (run : Run) (n : ℕ) : Prop where
  reported : (run.progress n).reported = run.elapsed (run.previous (n + 1))
  received : (run.progress n).received = .ofNat (run.gathered (run.previous (n + 1)) n)
  reports : (run.progress n).reports = (run.marks n).map run.report
  spaced : (run.progress n).reports.length * Clock.second ≤ (run.progress n).reported

theorem elapsed_mono (run : Run) : Monotone run.elapsed := by
  intro m n hle
  exact Nat.sub_le_sub_right (run.clock.reading_monotone hle) _

theorem previous_le (run : Run) (n : ℕ) : run.previous (n + 1) ≤ n := Nat.findGreatest_le n

theorem marks_zero (run : Run) : run.marks 0 = [] := by
  have hnone : ¬ run.ReportsAfter 0 := Nat.lt_irrefl _
  rw [marks, List.range_one, List.filter_singleton, decide_eq_false hnone]
  rfl

theorem marks_succ_of_reports (h : run.ReportsAfter (n + 1)) :
    run.marks (n + 1) = run.marks n ++ [n + 1] := by
  rw [marks, List.range_succ, List.filter_append, List.filter_singleton, decide_eq_true h]
  rfl

theorem marks_succ_of_not (h : ¬ run.ReportsAfter (n + 1)) : run.marks (n + 1) = run.marks n := by
  rw [marks, List.range_succ, List.filter_append, List.filter_singleton, decide_eq_false h,
    cond_false, List.append_nil]
  rfl

theorem previous_succ_of_reports (h : run.ReportsAfter (n + 1)) : run.previous (n + 2) = n + 1 :=
  Nat.findGreatest_eq h

theorem previous_succ_of_not (h : ¬ run.ReportsAfter (n + 1)) :
    run.previous (n + 2) = run.previous (n + 1) := Nat.findGreatest_of_not h

theorem gathered_self (run : Run) (n : ℕ) : run.gathered n n = 0 := by
  rw [gathered, Finset.Ico_self, Finset.sum_empty]

theorem gathered_succ (run : Run) {m : ℕ} (hle : m ≤ n) :
    run.gathered m (n + 1) = run.gathered m n + run.accepted n := Finset.sum_Ico_succ_top hle _

theorem gathered_le (run : Run) {m N : ℕ} (hn : n ≤ N) :
    run.gathered m n ≤ ∑ i ∈ Finset.range N, run.accepted i := by
  apply Finset.sum_le_sum_of_subset
  intro i hi
  exact Finset.mem_range.mpr ((Finset.mem_Ico.mp hi).2.trans_le hn)

/-- What is gathered up to the reports, and after the last of them, is all there is. -/
theorem sum_gathered (run : Run) (n : ℕ) :
    ((run.marks n).map fun m => run.gathered (run.previous m) m).sum +
        run.gathered (run.previous (n + 1)) n = ∑ i ∈ Finset.range n, run.accepted i := by
  induction n with
  | zero =>
    have hstart : run.previous 1 = 0 := Nat.le_zero.mp (run.previous_le 0)
    rw [marks_zero, hstart, gathered_self]
    rfl
  | succ n ih =>
    have hnext := run.gathered_succ (run.previous_le n)
    rw [Finset.sum_range_succ, ← ih]
    by_cases hreport : run.ReportsAfter (n + 1)
    · rw [marks_succ_of_reports hreport, previous_succ_of_reports hreport, gathered_self,
        List.map_append, List.sum_append, List.map_singleton, List.sum_singleton]
      omega
    · rw [marks_succ_of_not hreport, previous_succ_of_not hreport]
      omega

theorem inStep_zero (run : Run) : run.InStep 0 where
  reported := (Nat.sub_self _).symm
  received := rfl
  reports := by
    rw [marks_zero]
    rfl
  spaced := Nat.le_of_eq (Nat.zero_mul _)

/-- What the next batch does: with a report after it, or without. -/
theorem InStep.succ_cases (h : run.InStep n) (hn : n < run.batches.length) :
    let p := (run.progress n).takeBatch (run.batches.getD n [])
    let last := run.elapsed (run.previous (n + 1))
    (last + Clock.second ≤ run.elapsed (n + 1) ∧ run.ReportsAfter (n + 1) ∧
      run.progress (n + 1) = { p with
        received := 0
        reported := run.elapsed (n + 1)
        reports := (run.progress n).reports ++
          [⟨p.received, run.elapsed (n + 1) - last, p.gate.last⟩] }) ∨
    (run.elapsed (n + 1) < last + Clock.second ∧ ¬ run.ReportsAfter (n + 1) ∧
      run.progress (n + 1) = p) := by
  intro p last
  have hsucc : run.progress (n + 1) = p.report (run.elapsed (n + 1)) := progress_succ hn
  obtain ⟨hreports, hreported⟩ : p.reports = _ ∧ p.reported = _ := takeBatch_reports _ _
  have hlast : p.reported = last := hreported.trans h.reported
  have hforward : last ≤ run.elapsed (n + 1) :=
    run.elapsed_mono (Nat.le_succ_of_le (run.previous_le n))
  by_cases hdue : last + Clock.second ≤ run.elapsed (n + 1)
  · rw [report_of_le (by rwa [hlast]), hlast, hreports] at hsucc
    refine Or.inl ⟨hdue, ?_, hsucc⟩
    unfold ReportsAfter
    rw [hsucc]
    simp
  · rw [report_of_lt (by rwa [hlast]) (by rw [hlast]; omega)] at hsucc
    refine Or.inr ⟨by omega, ?_, hsucc⟩
    unfold ReportsAfter
    rw [hsucc, hreports]
    exact Nat.lt_irrefl _

theorem InStep.reportsAfter_iff (h : run.InStep n) (hn : n < run.batches.length) :
    run.ReportsAfter (n + 1) ↔
      run.elapsed (run.previous (n + 1)) + Clock.second ≤ run.elapsed (n + 1) := by
  rcases h.succ_cases hn with ⟨hdue, hreport, _⟩ | ⟨hearly, hnone, _⟩
  · exact ⟨fun _ => hdue, fun _ => hreport⟩
  · exact ⟨fun hreport => absurd hreport hnone, fun hdue => absurd hdue (Nat.not_le.mpr hearly)⟩

theorem InStep.succ (h : run.InStep n) (hg : run.gate.Tracks known)
    (hn : n < run.batches.length) : run.InStep (n + 1) := by
  obtain ⟨later, htracks⟩ := progress_tracks hg n
  have hfront := progress_last hg (n + 1)
  have hcount := takeBatch_received htracks (run.batches.getD n [])
  have hcounted : ((run.progress n).takeBatch (run.batches.getD n [])).received =
      .ofNat (run.gathered (run.previous (n + 1)) (n + 1)) := by
    rw [hcount, h.received, run.gathered_succ (run.previous_le n), UInt64.ofNat_add]
    rfl
  rcases h.succ_cases hn with ⟨hdue, hreport, hsucc⟩ | ⟨_, hnone, hsucc⟩
  · have hprevious := previous_succ_of_reports hreport
    rw [hsucc] at hfront
    constructor
    case reported => rw [hsucc, hprevious]
    case received =>
      rw [hsucc, hprevious, gathered_self]
      rfl
    case reports =>
      rw [hsucc, marks_succ_of_reports hreport, List.map_append, ← h.reports, hcounted, hfront]
      rfl
    case spaced =>
      have hspaced := h.spaced
      rw [h.reported] at hspaced
      rw [hsucc]
      simp only [List.length_append, List.length_singleton, Nat.add_mul, Nat.one_mul]
      omega
  · have hprevious := previous_succ_of_not hnone
    obtain ⟨hreports, hreported⟩ := takeBatch_reports (run.progress n) (run.batches.getD n [])
    constructor
    case reported => rw [hsucc, hreported, h.reported, hprevious]
    case received => rw [hsucc, hcounted, hprevious]
    case reports => rw [hsucc, hreports, h.reports, marks_succ_of_not hnone]
    case spaced =>
      rw [hsucc, hreports, hreported]
      exact h.spaced

theorem inStep (hg : run.gate.Tracks known) (hn : n ≤ run.batches.length) : run.InStep n := by
  induction n with
  | zero => exact inStep_zero run
  | succ n ih => exact (ih (Nat.le_of_lt hn)).succ hg hn

end Intervals

section Totals

theorem mem_marks {m : ℕ} : m ∈ run.marks n ↔ m ≤ n ∧ run.ReportsAfter m := by
  rw [marks, List.mem_filter, List.mem_range, decide_eq_true_eq, Nat.lt_succ_iff]

theorem le_previous {m : ℕ} (hm : run.ReportsAfter m) (hlt : m < n) : m ≤ run.previous n :=
  Nat.le_findGreatest (Nat.le_pred_of_lt hlt) hm

theorem reportsAfter_previous (hn : run.previous n ≠ 0) : run.ReportsAfter (run.previous n) :=
  Nat.findGreatest_of_ne_zero rfl hn

/-- Every batch belongs to one interval. The number after that of all batches stands for the
interval that no report has closed. -/
theorem exists_unique_interval (run : Run) {i : ℕ} (hi : i < run.batches.length) :
    ∃! n, (n ∈ run.marks run.batches.length ∨ n = run.batches.length + 1) ∧
      run.previous n ≤ i ∧ i < n := by
  have hends : ∃ n, (n ∈ run.marks run.batches.length ∨ n = run.batches.length + 1) ∧ i < n :=
    ⟨run.batches.length + 1, Or.inr rfl, Nat.lt_succ_of_lt hi⟩
  have hlast {n : ℕ} (hn : n ∈ run.marks run.batches.length ∨ n = run.batches.length + 1) :
      n ≤ run.batches.length + 1 := by
    rcases hn with hmark | hopen
    · exact Nat.le_succ_of_le (mem_marks.mp hmark).1
    · exact Nat.le_of_eq hopen
  -- an end of an interval before `n` is not past the previous report of `n`
  have hbefore {m n : ℕ} (hm : m ∈ run.marks run.batches.length ∨ m = run.batches.length + 1)
      (hn : n ∈ run.marks run.batches.length ∨ n = run.batches.length + 1) (hlt : m < n) :
      m ≤ run.previous n := by
    rcases hm with hmark | hopen
    · exact le_previous (mem_marks.mp hmark).2 hlt
    · exact absurd (hlast hn) (by omega)
  refine ⟨Nat.find hends, ⟨(Nat.find_spec hends).1, ?_, (Nat.find_spec hends).2⟩, ?_⟩
  · by_contra hlate
    have hreport : run.ReportsAfter (run.previous (Nat.find hends)) :=
      reportsAfter_previous (by omega)
    have hlt : run.previous (Nat.find hends) < Nat.find hends := by
      have hle : run.previous (Nat.find hends) ≤ Nat.find hends - 1 := Nat.findGreatest_le _
      have hspec := (Nat.find_spec hends).2
      omega
    have hbound := hlast (Nat.find_spec hends).1
    exact Nat.find_min hends hlt ⟨Or.inl (mem_marks.mpr ⟨by omega, hreport⟩), by omega⟩
  · rintro n ⟨hn, hlow, hhigh⟩
    rcases Nat.lt_trichotomy n (Nat.find hends) with hlt | heq | hgt
    · exact absurd ⟨hn, hhigh⟩ (Nat.find_min hends hlt)
    · exact heq
    · have hle := hbefore (Nat.find_spec hends).1 hn hgt
      have hspec := (Nat.find_spec hends).2
      omega

theorem front_mono (run : Run) {m : ℕ} (hle : m ≤ n) : run.front m ≤ run.front n := by
  have hsplit : run.batches.take n = run.batches.take m ++ (run.batches.take n).drop m := by
    have hboth := List.take_append_drop m (run.batches.take n)
    rwa [List.take_take, Nat.min_eq_left hle, eq_comm] at hboth
  have hfront (k : ℕ) : run.front k =
      (offerEach run.gate.window (run.batches.take k).flatten).2.last :=
    (Ring.offerEach_last _ _).symm
  rw [hfront m, hfront n, hsplit, List.flatten_append, Window.offerEach_append]
  exact Ring.last_le_offerEach_last _ _

/-- The batches one by one come to what all of them come to. -/
theorem sum_accepted (hg : run.gate.Tracks known) (hn : n ≤ run.batches.length) :
    ∑ i ∈ Finset.range n, run.accepted i =
      (offerEach run.gate.window (run.batches.take n).flatten).1.count true := by
  induction n with
  | zero => rfl
  | succ n ih =>
    have hwindow : (run.progress n).gate.window =
        (offerEach run.gate.window (run.batches.take n).flatten).2 :=
      congrArg (·.1.window) (held_progress hg n)
    rw [Finset.sum_range_succ, ih (Nat.le_of_lt hn), take_succ_batches hn, List.flatten_concat,
      Window.offerEach_append, List.count_append, accepted, hwindow]

/-- What the tally of accepted counters grows by with each batch. -/
theorem progress_accepted (hg : run.gate.Tracks known) {i : ℕ} (hi : i < run.batches.length) :
    (run.progress (i + 1)).tally.accepted =
      (run.progress i).tally.accepted + .ofNat (run.accepted i) := by
  obtain ⟨later, htracks⟩ := progress_tracks hg i
  have hheld : (run.progress (i + 1)).held =
      offered (run.progress i).held (run.batches.getD i []) := by
    rw [progress_succ hi, Progress.held_report]
    exact Progress.held_takeBatch htracks _
  have htally : (run.progress (i + 1)).tally = _ := congrArg Prod.snd hheld
  rw [htally, offered, Tally.enterEach_eq]
  rfl

theorem result_accepted (hg : run.gate.Tracks known) :
    run.result.tally.accepted = run.tally.accepted +
      .ofNat (∑ i ∈ Finset.range run.batches.length, run.accepted i) := by
  have htally : (run.progress run.batches.length).tally = _ :=
    congrArg Prod.snd (held_progress hg run.batches.length)
  rw [sum_accepted hg (Nat.le_refl _), ← progress_length, htally, offered, Tally.enterEach_eq]

end Totals

end Run

/-- The counts of a run, read as numbers. -/
structure Counted (run : Run) : Prop where
  reports : run.result.reports.map (·.received.toNat) =
    (run.marks run.batches.length).map fun n => run.gathered (run.previous n) n
  left_over : run.result.received.toNat =
    run.gathered (run.previous (run.batches.length + 1)) run.batches.length
  conserved : (run.result.reports.map (·.received.toNat)).sum + run.result.received.toNat =
    (offerEach run.gate.window run.batches.flatten).1.count true

/-- What a run of a receiver has reported, and what was left to report. The sums of words wrap
as the counts do, and nothing wraps while there is room for what the run accepts. -/
structure Reporting (run : Run) : Prop where
  no_underflow : run.checkedResult = .ok run.result
  due : ∀ n, 0 < n → n ≤ run.batches.length →
    (run.ReportsAfter n ↔ run.elapsed (run.previous n) + Clock.second ≤ run.elapsed n)
  reports : run.result.reports = (run.marks run.batches.length).map run.report
  few : run.result.reports.length ≤ run.elapsed run.batches.length / Clock.second
  left_over : run.result.received =
    .ofNat (run.gathered (run.previous (run.batches.length + 1)) run.batches.length)
  once : ∀ i < run.batches.length,
    ∃! n, (n ∈ run.marks run.batches.length ∨ n = run.batches.length + 1) ∧
      run.previous n ≤ i ∧ i < n
  each : ∀ i < run.batches.length, (run.progress (i + 1)).tally.accepted =
    (run.progress i).tally.accepted + .ofNat (run.accepted i)
  conserved : (run.result.reports.map (·.received)).sum + run.result.received =
    .ofNat ((offerEach run.gate.window run.batches.flatten).1.count true)
  growth : run.result.tally.accepted = run.tally.accepted +
    ((run.result.reports.map (·.received)).sum + run.result.received)
  counted : (offerEach run.gate.window run.batches.flatten).1.count true < 2 ^ 64 → Counted run
  growth_toNat : run.tally.accepted.toNat +
      (offerEach run.gate.window run.batches.flatten).1.count true < 2 ^ 64 →
    run.result.tally.accepted.toNat = run.tally.accepted.toNat +
      ((run.result.reports.map (·.received.toNat)).sum + run.result.received.toNat)
  forward : (run.result.reports.map (·.last)).Pairwise (· ≤ ·)

section Reporting

variable {run : Run} {known : Finset Counter}

theorem Run.result_inStep (hg : run.gate.Tracks known) : run.InStep run.batches.length :=
  Run.inStep hg (Nat.le_refl _)

theorem Run.result_reports (hg : run.gate.Tracks known) :
    run.result.reports = (run.marks run.batches.length).map run.report := by
  rw [← run.progress_length]
  exact (Run.result_inStep hg).reports

theorem Run.result_received (hg : run.gate.Tracks known) : run.result.received =
    .ofNat (run.gathered (run.previous (run.batches.length + 1)) run.batches.length) := by
  rw [← run.progress_length]
  exact (Run.result_inStep hg).received

/-- The batches of a run come to what all of its counters come to. -/
theorem Run.sum_accepted_all (hg : run.gate.Tracks known) :
    ∑ i ∈ Finset.range run.batches.length, run.accepted i =
      (offerEach run.gate.window run.batches.flatten).1.count true := by
  rw [Run.sum_accepted hg (Nat.le_refl _), List.take_length]

theorem Run.conserved (hg : run.gate.Tracks known) :
    (run.result.reports.map (·.received)).sum + run.result.received =
      .ofNat ((offerEach run.gate.window run.batches.flatten).1.count true) := by
  have hreported : run.result.reports.map (·.received) =
      ((run.marks run.batches.length).map fun n => run.gathered (run.previous n) n).map
        UInt64.ofNat := by
    rw [Run.result_reports hg, List.map_map, List.map_map]
    rfl
  rw [hreported, Run.result_received hg, ← ofNat_sum, ← UInt64.ofNat_add, run.sum_gathered,
    Run.sum_accepted_all hg]

/-- A count that is a part of all that is accepted fits into a word if all of it does. -/
theorem Run.counted (hg : run.gate.Tracks known)
    (hroom : (offerEach run.gate.window run.batches.flatten).1.count true < 2 ^ 64) :
    Counted run := by
  have hfits {m n : ℕ} (hn : n ≤ run.batches.length) :
      (UInt64.ofNat (run.gathered m n)).toNat = run.gathered m n := by
    have hle : run.gathered m n ≤ _ := run.gathered_le hn
    rw [Run.sum_accepted_all hg] at hle
    exact UInt64.toNat_ofNat_of_lt' (hle.trans_lt hroom)
  have hreports : run.result.reports.map (·.received.toNat) =
      (run.marks run.batches.length).map fun n => run.gathered (run.previous n) n := by
    rw [Run.result_reports hg, List.map_map]
    apply List.map_congr_left
    intro n hn
    exact hfits (Run.mem_marks.mp hn).1
  have hleft : run.result.received.toNat =
      run.gathered (run.previous (run.batches.length + 1)) run.batches.length := by
    rw [Run.result_received hg]
    exact hfits (Nat.le_refl _)
  refine ⟨hreports, hleft, ?_⟩
  rw [hreports, hleft, run.sum_gathered, Run.sum_accepted_all hg]

theorem Run.reporting (hg : run.gate.Tracks known) : Reporting run := by
  have hgrowth := Run.result_accepted hg
  rw [Run.sum_accepted_all hg] at hgrowth
  constructor
  case no_underflow =>
    have hnow := run.clock.read_now
    exact checkedTakeEach_eq_ok (Nat.le_of_eq hnow.symm) (Nat.zero_le _) run.batches
  case due =>
    intro n hpos hn
    obtain ⟨m, rfl⟩ := Nat.exists_eq_add_one_of_ne_zero (Nat.ne_of_gt hpos)
    exact (Run.inStep hg (Nat.le_of_lt hn)).reportsAfter_iff hn
  case reports => exact Run.result_reports hg
  case few =>
    have hstep := Run.result_inStep hg
    have hspaced := hstep.spaced
    have hlast : run.elapsed (run.previous (run.batches.length + 1)) ≤ _ :=
      run.elapsed_mono (run.previous_le run.batches.length)
    rw [hstep.reported, run.progress_length] at hspaced
    exact (Nat.le_div_iff_mul_le (by decide)).mpr (hspaced.trans hlast)
  case left_over => exact Run.result_received hg
  case once =>
    intro i hi
    exact run.exists_unique_interval hi
  case each =>
    intro i hi
    exact Run.progress_accepted hg hi
  case conserved => exact Run.conserved hg
  case growth =>
    rw [Run.conserved hg]
    exact hgrowth
  case counted => exact Run.counted hg
  case growth_toNat =>
    intro hroom
    have hcounted := Run.counted hg (by omega)
    rw [hcounted.conserved, hgrowth, add_ofNat_toNat hroom]
  case forward =>
    rw [Run.result_reports hg, List.map_map, List.pairwise_map]
    refine List.Pairwise.imp ?_ (List.pairwise_lt_range.filter _)
    intro m n hlt
    exact run.front_mono (Nat.le_of_lt hlt)

end Reporting

/-- A receiver reports when a second or more has gone by since its last report, and every
accepted counter goes into one report or is left over. The counts are words and wrap as the
tally does. Its clock may show any course of time that never goes back. -/
theorem receiver_reports_each_second {g : Gate} (hg : g.Reachable) (tally : Tally)
    (batches : List (List Counter)) :
    (∀ clock, Reporting ⟨g, tally, batches, clock⟩) ∧
    ∀ time : ℕ → ℕ, Monotone time → ∃ clock : Clock,
      ∀ n ≤ batches.length, clock.reading n = time n := by
  obtain ⟨known, htracks⟩ := hg.tracks
  constructor
  · intro clock
    exact Run.reporting htracks
  · intro time htime
    obtain ⟨ticks, hticks⟩ := Clock.exists_ofTicks_reading htime (batches.length + 1)
    exact ⟨.ofTicks ticks, fun n hn => hticks n (Nat.lt_succ_of_le hn)⟩

/-- Reports follow the second batch and the fourth one. The clock stands still during the
third batch, all of whose counters are refused, and the fifth one is left over. -/
theorem receiver_reports_of_width_4 :
    let g := Gate.ofWidth 4
    let run : Run := ⟨g, ⟨100, 200, 7⟩, [[5, 9], [], [9, 2], [8], [10]],
      .ofTicks [300, 600000000, 700000000, 0, 2500000000, 5]⟩
    g.Reachable ∧ run.marks 5 = [2, 4] ∧
    run.result.reports = [⟨2, 1300000000, 9⟩, ⟨1, 2500000000, 9⟩] ∧ run.result.received = 1 ∧
    Reporting run ∧
    run.tally.accepted.toNat + (offerEach g.window run.batches.flatten).1.count true < 2 ^ 64 ∧
    Counted run ∧ run.result.tally.accepted.toNat = run.tally.accepted.toNat +
      ((run.result.reports.map (·.received.toNat)).sum + run.result.received.toNat) ∧
    Monotone (fun n : ℕ => 7 * n) ∧
    ∃ clock : Clock, ∀ n ≤ run.batches.length, clock.reading n = 7 * n := by
  intro g run
  have hreachable : g.Reachable := ⟨4, [], rfl⟩
  obtain ⟨hrun, hcourse⟩ := receiver_reports_each_second hreachable run.tally run.batches
  have hreporting : Reporting run := hrun run.clock
  have hall : (offerEach g.window run.batches.flatten).1.count true < 2 ^ 64 := by decide
  have hroom : run.tally.accepted.toNat +
      (offerEach g.window run.batches.flatten).1.count true < 2 ^ 64 := by decide
  have hmono : Monotone (fun n : ℕ => 7 * n) := fun _ _ hle => Nat.mul_le_mul_left 7 hle
  exact ⟨hreachable, by decide, by decide, by decide, hreporting, hroom,
    hreporting.counted hall, hreporting.growth_toNat hroom, hmono, hcourse _ hmono⟩

end Receiver

end ReplayWindow
