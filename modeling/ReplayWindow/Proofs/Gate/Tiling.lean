import ReplayWindow.Proofs.Gate.Journal
import ReplayWindow.Proofs.Gate.OneWinner
import ReplayWindow.Proofs.Gate.Schedules
import Mathlib.Data.Set.Lattice
import Mathlib.Order.CompletePartialOrder

/-!
The moves of the window, as the hooks hear of them. A thread hands over its events
after it has freed the lock, so the moves can come in any order, but each of them
tells where it began and where it ended. Put together, the moves heard by all
threads cover the counters from the old front to the new one, each of them once,
and every move ends in a counter that one thread has heard accepted.
-/

namespace ReplayWindow

open Gate (Call)

/-- The counters that a move goes past, and the one that it ends at. -/
def stretch (move : Counter × Counter) : Set Counter := {c | move.1 < c ∧ c ≤ move.2}

section Chain

/-- The moves lead from one front to another, each from where the one before ended. -/
def Chain (front : Counter) : List (Counter × Counter) → Counter → Prop
  | [], last => last = front
  | move :: rest, last => move.1 = front ∧ move.1 < move.2 ∧ Chain move.2 rest last

variable {front last : Counter} {first second : List (Counter × Counter)}
  {path : List (Counter × Counter)}

theorem chain_append :
    Chain front (first ++ second) last ↔
      ∃ between, Chain front first between ∧ Chain between second last := by
  induction first generalizing front with
  | nil => simp [Chain]
  | cons move rest ih => simp [Chain, ih, and_assoc]

theorem Chain.le (h : Chain front path last) : front.toNat ≤ last.toNat := by
  induction path generalizing front with
  | nil =>
    have hlast : last = front := h
    rw [hlast]
  | cons move rest ih =>
    obtain ⟨hstart, hlt, hrest⟩ := h
    have hle := ih hrest
    have hmove := UInt64.lt_iff_toNat_lt.mp hlt
    rw [hstart] at hmove
    omega

theorem mem_stretch {move : Counter × Counter} {c : Counter} :
    c ∈ stretch move ↔ move.1.toNat < c.toNat ∧ c.toNat ≤ move.2.toNat := by
  simp [stretch, UInt64.lt_iff_toNat_lt, UInt64.le_iff_toNat_le]

theorem Chain.iUnion_stretch (h : Chain front path last) :
    ⋃ move ∈ path, stretch move = stretch (front, last) := by
  induction path generalizing front with
  | nil =>
    have hlast : last = front := h
    ext c
    simp [mem_stretch, hlast]
  | cons move rest ih =>
    obtain ⟨hstart, hlt, hrest⟩ := h
    have hmove := UInt64.lt_iff_toNat_lt.mp hlt
    have hle := hrest.le
    ext c
    simp only [List.mem_cons, Set.iUnion_iUnion_eq_or_left, ih hrest, Set.mem_union, mem_stretch,
      ← hstart]
    omega

theorem Chain.stretch_subset (h : Chain front path last) :
    ∀ move ∈ path, stretch move ⊆ stretch (front, last) := by
  intro move hmove
  rw [← h.iUnion_stretch]
  exact Set.subset_biUnion_of_mem hmove

theorem Chain.stretch_nonempty (h : Chain front path last) :
    ∀ move ∈ path, (stretch move).Nonempty := by
  induction path generalizing front with
  | nil => simp
  | cons head rest ih =>
    obtain ⟨_, hlt, hrest⟩ := h
    intro move hmove
    rcases List.mem_cons.mp hmove with hhead | hlater
    · rw [hhead]
      exact ⟨head.2, hlt, UInt64.le_refl _⟩
    · exact ih hrest move hlater

theorem Chain.pairwise_disjoint (h : Chain front path last) :
    path.Pairwise fun m n => Disjoint (stretch m) (stretch n) := by
  induction path generalizing front with
  | nil => exact List.Pairwise.nil
  | cons head rest ih =>
    obtain ⟨_, _, hrest⟩ := h
    refine List.Pairwise.cons ?_ (ih hrest)
    intro move hmove
    rw [Set.disjoint_left]
    intro c hhead hlater
    have hpast := hrest.stretch_subset move hmove hlater
    simp only [mem_stretch] at hhead hpast
    omega

end Chain

section Perform

variable {g : Gate} {c : Counter}

theorem Gate.moves_offer_ok (hc : g.inspect c = .ok) :
    moves (g.perform (.offer c)).events = if g.last < c then [(g.last, c)] else [] := by
  rw [Gate.perform_offer_ok_events hc]
  split <;> rfl

theorem Gate.acceptances_offer_ok (hc : g.inspect c = .ok) :
    acceptances (g.perform (.offer c)).events = [c] := by
  rw [Gate.perform_offer_ok_events hc]
  split <;> rfl

/-- The event of a refusal is neither a move nor an acceptance. -/
theorem Gate.offer_refused_reports (hc : g.inspect c ≠ .ok) :
    moves (g.perform (.offer c)).events = [] ∧ acceptances (g.perform (.offer c)).events = [] := by
  cases hwhy : g.inspect c with
  | ok => exact absurd hwhy hc
  | refused why =>
    rw [Gate.perform_offer_refused_events hwhy]
    cases why with
    | duplicate => exact ⟨rfl, rfl⟩
    | expired => exact ⟨rfl, rfl⟩

/-- The events of one call tell how the front has moved. -/
theorem Gate.perform_chain (g : Gate) {call : Call} (hcall : call ≠ .rewind) :
    Chain g.last (moves (g.perform call).events) (g.perform call).gate.last := by
  cases call with
  | inspect c => rfl
  | offer c =>
    by_cases hc : g.inspect c = .ok
    · rw [Gate.moves_offer_ok hc, Gate.perform_offer_last hc]
      by_cases hahead : g.last < c
      · simp [hahead, Chain]
      · simp [hahead, Chain]
    · rw [(Gate.offer_refused_reports hc).1, Gate.perform_offer_refused hc]
      rfl
  | rewind => exact absurd rfl hcall

/-- A move ends at the counter whose acceptance is reported with it. -/
theorem Gate.move_end_accepted (g : Gate) (call : Call) :
    ∀ move ∈ moves (g.perform call).events, move.2 ∈ acceptances (g.perform call).events := by
  intro move hmove
  cases call with
  | inspect c => exact absurd hmove List.not_mem_nil
  | offer c =>
    by_cases hc : g.inspect c = .ok
    · rw [Gate.moves_offer_ok hc] at hmove
      rw [Gate.acceptances_offer_ok hc]
      by_cases hahead : g.last < c
      · rw [if_pos hahead, List.mem_singleton] at hmove
        rw [hmove]
        exact List.mem_singleton_self c
      · rw [if_neg hahead] at hmove
        exact absurd hmove List.not_mem_nil
    · rw [(Gate.offer_refused_reports hc).1] at hmove
      exact absurd hmove List.not_mem_nil
  | rewind => exact absurd hmove List.not_mem_nil

end Perform

section Turns

variable {ι : Type} {g left : Gate} {turns : List (Turn ι)}

/-- A turn reports an acceptance just when it has won its counter. -/
theorem Turn.acceptances_events {t : Turn ι}
    (hanswer : t.answer = (t.found.perform t.call).answer) :
    acceptances t.events = t.won?.toList := by
  unfold Turn.events Turn.won?
  rw [hanswer]
  cases t.call with
  | inspect c => rfl
  | offer c =>
    rw [Gate.perform_offer_answer]
    cases hc : t.found.inspect c with
    | ok => exact Gate.acceptances_offer_ok hc
    | refused why =>
      have hrefused : t.found.inspect c ≠ .ok := by simp [hc]
      exact (Gate.offer_refused_reports hrefused).2
  | rewind => rfl

theorem Follows.answer_eq_of_mem (h : Follows g turns left) :
    ∀ t ∈ turns, t.answer = (t.found.perform t.call).answer := by
  intro t ht
  obtain ⟨earlier, later, hsplit⟩ := List.append_of_mem ht
  subst hsplit
  exact h.split.2.1

theorem acceptances_eq_won
    (hanswers : ∀ t ∈ turns, t.answer = (t.found.perform t.call).answer) :
    acceptances (turns.flatMap (·.events)) = won turns := by
  induction turns with
  | nil => rfl
  | cons t rest ih =>
    have hhead := Turn.acceptances_events (hanswers t List.mem_cons_self)
    have hrest := ih fun s hs => hanswers s (List.mem_cons_of_mem t hs)
    have hsplit : acceptances ((t :: rest).flatMap (·.events)) =
        acceptances t.events ++ acceptances (rest.flatMap (·.events)) := by
      simp [acceptances, List.filterMap_append]
    rw [hsplit, hhead, hrest, won, won, List.filterMap_cons]
    cases t.won? <;> rfl

theorem Follows.chain (h : Follows g turns left) (hquiet : Quiet turns) :
    Chain g.last (moves (turns.flatMap (·.events))) left.last := by
  induction turns generalizing g with
  | nil =>
    have hleft : left = g := h
    rw [hleft]
    rfl
  | cons t rest ih =>
    obtain ⟨hfound, _, hrest⟩ := h
    obtain ⟨hstays, hquiet'⟩ := hquiet.of_cons
    subst hfound
    have hsplit : moves ((t :: rest).flatMap (·.events)) =
        moves t.events ++ moves (rest.flatMap (·.events)) := by
      simp [moves, List.filterMap_append]
    rw [hsplit, chain_append]
    exact ⟨_, t.found.perform_chain hstays, ih hrest hquiet'⟩

theorem move_end_accepted (turns : List (Turn ι)) :
    ∀ move ∈ moves (turns.flatMap (·.events)),
      move.2 ∈ acceptances (turns.flatMap (·.events)) := by
  intro move hmove
  obtain ⟨event, hevent, hmoved⟩ := List.mem_filterMap.mp hmove
  obtain ⟨t, ht, hown⟩ := List.mem_flatMap.mp hevent
  have haccepted := t.found.move_end_accepted t.call move
    (List.mem_filterMap.mpr ⟨event, hown, hmoved⟩)
  obtain ⟨other, hother, hcounter⟩ := List.mem_filterMap.mp haccepted
  exact List.mem_filterMap.mpr ⟨other, List.mem_flatMap.mpr ⟨t, ht, hother⟩, hcounter⟩

end Turns

/-- What the hooks of all threads have heard when the threads have moved the front
on from where `g` has it. -/
structure Tiled {ι : Type} [DecidableEq ι] (g : Gate) (s : Threads ι) : Prop where
  nonempty : ∀ move ∈ moves s.events, (stretch move).Nonempty
  disjoint : (moves s.events).Pairwise fun m n => Disjoint (stretch m) (stretch n)
  covers : ⋃ move ∈ moves s.events, stretch move = stretch (g.last, s.gate.last)
  collected : (acceptances s.events).Perm (won s.turns)
  own : ∀ i, acceptances (s.heardBy i) = won (turnsOf i s.turns)
  distinct : (acceptances s.events).Nodup
  ends : ∀ move ∈ moves s.events, move.2 ∈ acceptances s.events

theorem Threads.Keeps.tiled {ι : Type} [DecidableEq ι] {g : Gate} {s : Threads ι}
    {counters : ι → List Counter} {known : Finset Counter} (hkeeps : s.Keeps (offering counters))
    (hfinished : s.Finished) (h : Follows g s.turns s.gate) (hg : g.Tracks known) :
    Tiled g s := by
  have hperm := hkeeps.heard_perm hfinished
  have hmoves : (moves s.events).Perm (moves (s.turns.flatMap (·.events))) :=
    hperm.filterMap Event.move?
  have hcollected : (acceptances s.events).Perm (won s.turns) := by
    rw [← acceptances_eq_won h.answer_eq_of_mem]
    exact hperm.filterMap Event.accepted?
  have hchain := h.chain hkeeps.quiet
  constructor
  case nonempty =>
    intro move hmove
    exact hchain.stretch_nonempty move (hmoves.mem_iff.mp hmove)
  case disjoint =>
    refine (hmoves.pairwise_iff ?_).mpr hchain.pairwise_disjoint
    intro m n hdisjoint
    exact hdisjoint.symm
  case covers =>
    rw [← hchain.iUnion_stretch]
    simp only [hmoves.mem_iff]
  case collected => exact hcollected
  case own =>
    intro i
    rw [hkeeps.heardBy_of_finished hfinished i]
    apply acceptances_eq_won
    intro t ht
    exact h.answer_eq_of_mem t (List.mem_of_mem_filter ht)
  case distinct => exact hcollected.nodup_iff.mpr (h.won_nodup hkeeps.quiet hg)
  case ends =>
    intro move hmove
    have hend := move_end_accepted s.turns move (hmoves.mem_iff.mp hmove)
    rw [acceptances_eq_won h.answer_eq_of_mem] at hend
    exact hcollected.mem_iff.mpr hend

/-- However late the hooks hear of them, the moves made by some threads cover the
counters from the old front to the new one without overlap, and the acceptances
reported are those of the offers that succeeded. -/
theorem moves_tile_the_line {ι : Type} [DecidableEq ι] {g : Gate} (hg : g.Reachable)
    (counters : ι → List Counter) (schedule : List ι)
    (hfinished : ((Threads.start g (offering counters)).run schedule).Finished) :
    Tiled g ((Threads.start g (offering counters)).run schedule) := by
  obtain ⟨known, htracks⟩ := hg.tracks
  have hkeeps := Threads.start_run_keeps g (offering counters) schedule
  have h := Threads.start_run_follows g (offering counters) schedule
  exact hkeeps.tiled hfinished h htracks

/-- The thread that moves the window first is the last to hear of its move. -/
theorem moves_of_two_threads :
    let g := ((Gate.ofWidth 4).performEach [.offer 3]).2
    let counters : Bool → List Counter := fun i => if i then [9] else [20, 18]
    let s := (Threads.start g (offering counters)).run
      [true, false, false, false, false, false, true, true]
    g.Reachable ∧ s.Finished ∧ moves s.events = [(9, 20), (3, 9)] ∧ Tiled g s := by
  intro g counters s
  have hg : g.Reachable := ⟨4, [.offer 3], rfl⟩
  have hfinished : s.Finished := by decide
  exact ⟨hg, hfinished, by decide, moves_tile_the_line hg counters _ hfinished⟩

end ReplayWindow
