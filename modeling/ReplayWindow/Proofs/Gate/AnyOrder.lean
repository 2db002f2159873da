import ReplayWindow.Proofs.Gate.OneWinner
import ReplayWindow.Proofs.Gate.Schedules
import Mathlib.Data.Finset.Lattice.Fold
import Mathlib.Data.Finset.Union
import Mathlib.Data.Fintype.Basic
import Mathlib.Order.Lattice.Nat

/-!
Offers in any order. Who wins a counter, and whether a late one is still accepted,
is up to the schedule, but the end is not: the front is the highest counter offered,
and every verdict that the gate gives from then on is settled by the counters that
were offered. If all of these fit into the last window, so is the number of winners.
-/

namespace ReplayWindow

open Gate (Call)

namespace Gate

/-- The front when the counters have been offered. -/
def frontAfter (g : Gate) (offered : Finset Counter) : ℕ :=
  max g.last.toNat (offered.sup UInt64.toNat)

/-- The verdict on a counter when the counters have been offered. -/
def verdictAfter (g : Gate) (offered : Finset Counter) (c : Counter) : Verdict :=
  if c.toNat + g.width.toNat ≤ g.frontAfter offered then .refused .expired
  else if c ∈ offered ∨ g.inspect c = .refused .duplicate then .refused .duplicate
  else .ok

/-- All the offered counters lie within one width of the front that they lead to. -/
def Near (g : Gate) (offered : Finset Counter) : Prop :=
  ∀ c ∈ offered, g.frontAfter offered - c.toNat < g.width.toNat

instance (g : Gate) (offered : Finset Counter) : Decidable (g.Near offered) :=
  Finset.decidableDforallFinset

/-- The offered counters that the gate would accept, one by one. -/
def acceptable (g : Gate) (offered : Finset Counter) : Finset Counter :=
  offered.filter fun c => g.inspect c = .ok

end Gate

/-- The front of a larger set of counters is the higher of the two parts' fronts. -/
theorem IsFront.union_toNat {counters others : Finset Counter} {last top : Counter}
    (h : IsFront counters last) (h' : IsFront (counters ∪ others) top) :
    top.toNat = max last.toNat (others.sup UInt64.toNat) := by
  apply Nat.le_antisymm
  · rcases h'.1 with hzero | hmem
    · rw [hzero]
      exact Nat.zero_le _
    · rcases Finset.mem_union.mp hmem with hold | hnew
      · exact Nat.le_trans (h.le hold) (Nat.le_max_left _ _)
      · exact Nat.le_trans (Finset.le_sup hnew) (Nat.le_max_right _ _)
  · apply Nat.max_le.mpr
    constructor
    · rcases h.1 with hzero | hmem
      · rw [hzero]
        exact Nat.zero_le _
      · exact h'.le (Finset.mem_union_left others hmem)
    · apply Finset.sup_le
      intro c hc
      exact h'.le (Finset.mem_union_right counters hc)

section Offers

variable {ι : Type} {g left : Gate} {turns : List (Turn ι)} {known offered : Finset Counter}

/-- The turns offer the counters in `offered`, each at least once, and do nothing else. -/
structure Offers (turns : List (Turn ι)) (offered : Finset Counter) : Prop where
  only : ∀ t ∈ turns, ∃ c ∈ offered, t.call = .offer c
  every : ∀ c ∈ offered, ∃ t ∈ turns, t.call = .offer c

theorem Offers.quiet (h : Offers turns offered) : Quiet turns := by
  intro t ht
  obtain ⟨c, _, hcall⟩ := h.only t ht
  rw [hcall]
  exact Call.noConfusion

theorem Offers.mem_iff (h : Offers turns offered) (c : Counter) :
    c ∈ offered ↔ ∃ t ∈ turns, t.call = .offer c := by
  constructor
  · exact h.every c
  · intro hturn
    obtain ⟨t, ht, hcall⟩ := hturn
    obtain ⟨d, hd, hcall'⟩ := h.only t ht
    have hcd : c = d := Call.offer.inj (hcall.symm.trans hcall')
    rwa [hcd]

theorem Follows.tracks_union (h : Follows g turns left) (hoffers : Offers turns offered)
    (hg : g.Tracks known) : left.Tracks (known ∪ offered) := by
  obtain ⟨later, htracks, hmem⟩ := h.tracks_offers hoffers.quiet hg
  have hlater : later = known ∪ offered := by
    ext c
    rw [hmem, Finset.mem_union, hoffers.mem_iff]
  rwa [hlater] at htracks

theorem Follows.last_eq_frontAfter (h : Follows g turns left) (hoffers : Offers turns offered)
    (hg : g.Tracks known) : left.last.toNat = g.frontAfter offered := by
  have hleft : IsFront (known ∪ offered) left.last :=
    Ring.Tracks.isFront (h.tracks_union hoffers hg)
  exact IsFront.union_toNat (Ring.Tracks.isFront hg) hleft

theorem Follows.inspect_eq_verdictAfter (h : Follows g turns left)
    (hoffers : Offers turns offered) (hg : g.Tracks known) (c : Counter) :
    left.inspect c = g.verdictAfter offered c := by
  have htracks := h.tracks_union hoffers hg
  have hlate : left.window.isExpired c = true ↔
      c.toNat + g.width.toNat ≤ g.frontAfter offered := by
    rw [Gate.isExpired_iff, h.width, h.last_eq_frontAfter hoffers hg]
  unfold Gate.verdictAfter
  rw [htracks.inspect_eq c]
  by_cases hexpired : left.window.isExpired c = true
  · rw [if_pos hexpired, if_pos (hlate.mp hexpired)]
  · rw [if_neg hexpired, if_neg (mt hlate.mpr hexpired)]
    -- a counter that is not behind the window now was not behind it before
    have hlive : g.window.isExpired c = false := by
      rw [Bool.eq_false_iff]
      exact fun hbefore => hexpired (h.isExpired hoffers.quiet hbefore)
    have hsame : c ∈ known ∪ offered ↔
        c ∈ offered ∨ g.inspect c = .refused .duplicate := by
      simp [hg.inspect_duplicate_iff, hlive, or_comm]
    simp only [hsame]

end Offers

section Winners

variable {ι : Type} {g left : Gate} {turns : List (Turn ι)} {known offered : Finset Counter}

/-- Only an acceptable counter is ever won. -/
theorem Follows.mem_acceptable_of_won (h : Follows g turns left)
    (hoffers : Offers turns offered) (hg : g.Tracks known) {c : Counter}
    (hwon : c ∈ won turns) : c ∈ g.acceptable offered := by
  obtain ⟨t, ht, hcall, hanswer⟩ := mem_won.mp hwon
  obtain ⟨earlier, later, hsplit⟩ := List.append_of_mem ht
  subst hsplit
  obtain ⟨hearlier, hverdict, _⟩ := h.split
  rw [Gate.perform_answer_of_asks _ (Or.inr hcall), hanswer] at hverdict
  have hoffered : c ∈ offered := (hoffers.mem_iff c).mpr ⟨t, ht, hcall⟩
  refine Finset.mem_filter.mpr ⟨hoffered, ?_⟩
  cases hfirst : g.inspect c with
  | ok => rfl
  | refused why =>
    obtain ⟨again, hagain, _⟩ := hearlier.inspect_refused hoffers.quiet.of_append.1 hg hfirst
    rw [hagain] at hverdict
    exact Verdict.noConfusion (Gate.Answer.verdict.inj hverdict)

/-- If all the counters stay inside the window, every acceptable one is won. -/
theorem Follows.won_of_mem_acceptable (h : Follows g turns left)
    (hoffers : Offers turns offered) (hg : g.Tracks known) (hnear : g.Near offered) {c : Counter}
    (hc : c ∈ g.acceptable offered) : c ∈ won turns := by
  obtain ⟨hoffered, hok⟩ := Finset.mem_filter.mp hc
  obtain ⟨later, htracks, hmem⟩ := h.tracks_wins hoffers.quiet hg
  have hlive : left.window.isExpired c = false := by
    have hfront := h.last_eq_frontAfter hoffers hg
    have hinside := hnear c hoffered
    rw [Bool.eq_false_iff, Ne, Gate.isExpired_iff, h.width]
    omega
  -- nobody could have lost it either, for then it would be acceptable in the end
  by_contra hlost
  have hnew : c ∉ later := by
    rw [hmem c]
    intro hknown
    rcases hknown with hbefore | hwins
    · exact ((hg.inspect_ok_iff c).mp hok).2 hbefore
    · exact hlost (mem_won.mpr hwins)
  have hend := (htracks.inspect_ok_iff c).mpr ⟨hlive, hnew⟩
  have hrefused := (h.tracks_union hoffers hg).inspect_of_mem
    (Finset.mem_union_right known hoffered)
  rw [hrefused.2] at hend
  exact Verdict.noConfusion hend

/-- As many offers succeed as there are acceptable counters, however often and in
whatever order these are offered. -/
theorem Follows.won_length (h : Follows g turns left) (hoffers : Offers turns offered)
    (hg : g.Tracks known) (hnear : g.Near offered) :
    (won turns).length = (g.acceptable offered).card := by
  have hsame : (won turns).toFinset = g.acceptable offered := by
    ext c
    rw [List.mem_toFinset]
    exact ⟨h.mem_acceptable_of_won hoffers hg, h.won_of_mem_acceptable hoffers hg hnear⟩
  rw [← hsame, List.toFinset_card_of_nodup (h.won_nodup hoffers.quiet hg)]

theorem Offers.count_answers (hoffers : Offers turns offered) :
    (turns.map (·.answer)).count (.verdict .ok) = (won turns).length := by
  rw [List.count_eq_countP, List.countP_map, won, List.length_filterMap_eq_countP]
  apply List.countP_congr
  intro t ht
  obtain ⟨c, _, hcall⟩ := hoffers.only t ht
  have hwon : t.won?.isSome ↔ t.answer = .verdict .ok := by
    simp [Option.isSome_iff_exists, Turn.won?_eq_some_iff, Turn.Wins, hcall]
  simp [hwon]

end Winners

/-- All the counters that the threads have to offer. -/
def listed {ι : Type} [Fintype ι] (counters : ι → List Counter) : Finset Counter :=
  Finset.univ.biUnion fun i => (counters i).toFinset

theorem offers_listed {ι κ : Type} [Fintype ι] {counters : ι → List Counter}
    {turns : List (Turn κ)}
    (hcalls : ∀ call, (∃ t ∈ turns, t.call = call) ↔ ∃ i, call ∈ offering counters i) :
    Offers turns (listed counters) := by
  constructor
  · intro t ht
    obtain ⟨i, hi⟩ := (hcalls t.call).mp ⟨t, ht, rfl⟩
    obtain ⟨c, hc, hcall⟩ := List.mem_map.mp hi
    exact ⟨c, Finset.mem_biUnion.mpr ⟨i, Finset.mem_univ i, List.mem_toFinset.mpr hc⟩, hcall.symm⟩
  · intro c hc
    obtain ⟨i, _, hi⟩ := Finset.mem_biUnion.mp hc
    exact (hcalls (.offer c)).mpr ⟨i, List.mem_map.mpr ⟨c, List.mem_toFinset.mp hi, rfl⟩⟩

/-- Under every schedule the offers of some threads come to the same end: the same
front, the same verdict on each counter and, if no listed counter is left behind,
the same number of winners as when the threads run one after another. -/
theorem end_of_every_schedule {ι : Type} [Fintype ι] [DecidableEq ι] {g : Gate}
    (hg : g.Reachable) (counters : ι → List Counter) (schedule : List ι)
    (hfinished : ((Threads.start g (offering counters)).run schedule).Finished) :
    let s := (Threads.start g (offering counters)).run schedule
    s.gate.last.toNat = g.frontAfter (listed counters) ∧
    (∀ c, s.gate.inspect c = g.verdictAfter (listed counters) c) ∧
    (g.Near (listed counters) →
      (s.turns.map (·.answer)).count (.verdict .ok) = (g.acceptable (listed counters)).card ∧
      ∀ order : List ι, (∀ i, i ∈ order) →
        ((g.performEach (order.flatMap (offering counters))).1.map (·.answer)).count
          (.verdict .ok) = (g.acceptable (listed counters)).card) := by
  intro s
  obtain ⟨known, htracks⟩ := hg.tracks
  have h : Follows g s.turns s.gate := Threads.start_run_follows g (offering counters) schedule
  have hkeeps : s.Keeps (offering counters) :=
    Threads.start_run_keeps g (offering counters) schedule
  have hoffers : Offers s.turns (listed counters) :=
    offers_listed (hkeeps.exists_turn_iff hfinished)
  refine ⟨h.last_eq_frontAfter hoffers htracks, h.inspect_eq_verdictAfter hoffers htracks, ?_⟩
  intro hnear
  constructor
  · rw [hoffers.count_answers, h.won_length hoffers htracks hnear]
  · intro order horder
    obtain ⟨turns, hfollows, hcalls, hanswers⟩ :=
      exists_follows g (order.flatMap (offering counters))
    have hmem : ∀ call, (∃ t ∈ turns, t.call = call) ↔ ∃ i, call ∈ offering counters i := by
      intro call
      rw [← List.mem_map, hcalls, List.mem_flatMap]
      exact ⟨fun ⟨i, _, hi⟩ => ⟨i, hi⟩, fun ⟨i, hi⟩ => ⟨i, horder i, hi⟩⟩
    have hoffers' : Offers turns (listed counters) := offers_listed hmem
    rw [← hanswers, hoffers'.count_answers, hfollows.won_length hoffers' htracks hnear]

/-- Both threads offer counter 9, and counter 3 was taken before. Two offers of four
succeed, and under another schedule the other thread might win counter 9. -/
theorem end_of_two_threads :
    let g := ((Gate.ofWidth 64).performEach [.offer 3]).2
    let counters : Bool → List Counter := fun i => if i then [9, 3] else [5, 9]
    let s := (Threads.start g (offering counters)).run
      [true, false, true, false, false, true, true, false, true]
    g.Reachable ∧ s.Finished ∧ g.Near (listed counters) ∧
      s.gate.last.toNat = g.frontAfter (listed counters) ∧
      (∀ c, s.gate.inspect c = g.verdictAfter (listed counters) c) ∧
      (s.turns.map (·.answer)).count (.verdict .ok) = (g.acceptable (listed counters)).card := by
  intro g counters s
  have hg : g.Reachable := ⟨64, [.offer 3], rfl⟩
  have hfinished : s.Finished := by decide
  have hnear : g.Near (listed counters) := by decide
  obtain ⟨hlast, hverdict, hcount⟩ := end_of_every_schedule hg counters _ hfinished
  exact ⟨hg, hfinished, hnear, hlast, hverdict, (hcount hnear).1⟩

end ReplayWindow
