import ReplayWindow.Proofs.Gate.Threads

/-!
One winner for each counter. Rewinds cut a run of threads into epochs, and each
epoch begins on a gate that knows no counter. The first offer of a counter in an
epoch decides it: either the counter is accepted there, and refused ever after,
or it is behind the window and stays there. No thread gains anything by having
inspected the counter before.
-/

namespace ReplayWindow

open Gate (Call Answer)

/-- A stretch without a rewind, from the start or a rewind up to the next rewind
or the end. -/
structure IsEpoch {ι : Type} (turns before epoch after : List (Turn ι)) : Prop where
  split : turns = before ++ epoch ++ after
  opens : before = [] ∨ ∃ earlier t, before = earlier ++ [t] ∧ t.call = .rewind
  quiet : Quiet epoch
  closes : after = [] ∨ ∃ t later, after = t :: later ∧ t.call = .rewind

instance {ι : Type} (t : Turn ι) (c : Counter) : Decidable (t.Wins c) :=
  inferInstanceAs (Decidable (_ ∧ _))

/-- The first turn of its epoch that offers the counter. -/
def FirstOffer {ι : Type} (c : Counter) (earlier : List (Turn ι)) (t : Turn ι) : Prop :=
  t.call = .offer c ∧ ∀ s ∈ earlier, s.call ≠ .offer c

/-- What the threads hear about one counter in one epoch. -/
structure OneWinner {ι : Type} (width : UInt64) (epoch : List (Turn ι)) (c : Counter) : Prop where
  at_most_one : epoch.countP (fun t => t.Wins c) ≤ 1
  fresh_wins : ∀ earlier first later, epoch = earlier ++ first :: later →
    FirstOffer c earlier first → first.found.window.isExpired c = false →
    first.answer = .verdict .ok ∧
      ∀ t ∈ later, t.call.Asks c → c ≤ t.found.last ∧ t.answer = .verdict (.refused
        (if t.found.last.toNat - c.toNat < width.toNat then .duplicate else .expired))
  expired_stays : ∀ earlier t later, epoch = earlier ++ t :: later →
    t.call.Asks c → t.answer = .verdict (.refused .expired) →
    ∀ s ∈ later, s.call.Asks c → s.answer = .verdict (.refused .expired)
  late_loses : ∀ earlier first later, epoch = earlier ++ first :: later →
    FirstOffer c earlier first → first.found.window.isExpired c = true →
    ∀ t ∈ epoch, t.call = .offer c → t.answer = .verdict (.refused .expired)
  duplicate_after_win : ∀ earlier t later, epoch = earlier ++ t :: later →
    t.answer = .verdict (.refused .duplicate) → t.call.Asks c →
    width ≠ 0 ∧ ∃ s ∈ earlier, s.Wins c

section Turns

variable {ι : Type} {g left : Gate} {turns : List (Turn ι)} {known : Finset Counter} {c : Counter}

/-- However often it is asked about, a known counter is refused. -/
theorem Follows.answer_of_known (h : Follows g turns left)
    (hquiet : Quiet turns) (hg : g.Tracks known) (hc : c ∈ known)
    {t : Turn ι} (ht : t ∈ turns) (hask : t.call.Asks c) :
    c ≤ t.found.last ∧ t.answer = .verdict (.refused
      (if t.found.last.toNat - c.toNat < g.width.toNat then .duplicate else .expired)) := by
  obtain ⟨earlier, later, hsplit⟩ := List.append_of_mem ht
  subst hsplit
  obtain ⟨hearlier, hanswer, _⟩ := h.split
  obtain ⟨tracked, htracks, hmem⟩ := hearlier.tracks_wins hquiet.of_append.1 hg
  obtain ⟨hle, hverdict⟩ := htracks.inspect_of_mem ((hmem c).mpr (Or.inl hc))
  refine ⟨hle, ?_⟩
  rw [hanswer, Gate.perform_answer_of_asks _ hask, hverdict, hearlier.width]

theorem Follows.not_wins_of_known (h : Follows g turns left)
    (hquiet : Quiet turns) (hg : g.Tracks known) (hc : c ∈ known) :
    ∀ t ∈ turns, ¬ t.Wins c := by
  intro t ht hwins
  obtain ⟨hcall, hok⟩ := hwins
  have hlost := (h.answer_of_known hquiet hg hc ht (Or.inr hcall)).2
  rw [hok] at hlost
  exact Verdict.noConfusion (Answer.verdict.inj hlost)

theorem Follows.wins_le_one (h : Follows g turns left)
    (hquiet : Quiet turns) (hg : g.Tracks known) :
    turns.countP (fun t => t.Wins c) ≤ 1 := by
  induction turns generalizing g known with
  | nil => exact Nat.zero_le 1
  | cons t rest ih =>
    obtain ⟨_, _, hrest⟩ := h
    have hquiet' : Quiet rest := hquiet.of_cons.2
    have hnext := hg.perform t.call
    rw [List.countP_cons]
    by_cases hwins : t.Wins c
    · have hmem : c ∈ t.call.offered known := by
        rw [hwins.1]
        exact Finset.mem_insert_self c known
      have hnone : rest.countP (fun s => s.Wins c) = 0 := by
        rw [List.countP_eq_zero]
        intro s hs
        simpa only [decide_eq_true_eq] using hrest.not_wins_of_known hquiet' hnext hmem s hs
      rw [hnone]
      split <;> omega
    · have hone := ih hrest hquiet' hnext
      simpa only [hwins, decide_false, Bool.false_eq_true, ↓reduceIte, Nat.add_zero] using hone

/-- The counter that the turn has won, if it has won one. -/
def Turn.won? (t : Turn ι) : Option Counter :=
  match t.call, t.answer with
  | .offer c, .verdict .ok => some c
  | _, _ => none

/-- The counters that the turns have won, in the order of the turns. -/
def won (turns : List (Turn ι)) : List Counter := turns.filterMap Turn.won?

theorem Turn.won?_eq_some_iff {t : Turn ι} : t.won? = some c ↔ t.Wins c := by
  unfold Turn.won? Turn.Wins
  split <;> simp_all

theorem mem_won : c ∈ won turns ↔ ∃ t ∈ turns, t.Wins c := by
  simp [won, Turn.won?_eq_some_iff]

/-- No counter is won twice while the gate is not rewound. -/
theorem Follows.won_nodup (h : Follows g turns left) (hquiet : Quiet turns)
    (hg : g.Tracks known) : (won turns).Nodup := by
  rw [List.nodup_iff_count_le_one]
  intro c
  have hcount : (won turns).count c = turns.countP fun t => t.Wins c := by
    rw [won, List.count_filterMap]
    apply List.countP_congr
    intro t _
    rw [beq_iff_eq, Turn.won?_eq_some_iff, decide_eq_true_eq]
  rw [hcount]
  exact h.wins_le_one hquiet hg

/-- An epoch begins on a new gate. -/
theorem IsEpoch.follows {width : UInt64} {before epoch after : List (Turn ι)}
    (hepoch : IsEpoch turns before epoch after) (h : Follows (Gate.ofWidth width) turns left) :
    ∃ closing, Follows (Gate.ofWidth width) epoch closing := by
  rw [hepoch.split] at h
  obtain ⟨closing, hopen, _⟩ := (follows_append (before ++ epoch) after).mp h
  obtain ⟨opening, hbefore, hinside⟩ := (follows_append before epoch).mp hopen
  have hopening : opening = Gate.ofWidth width := by
    rcases hepoch.opens with hnil | ⟨earlier, t, hsnoc, hrewind⟩
    · subst hnil
      exact hbefore
    · subst hsnoc
      obtain ⟨hearlier, _, hlast⟩ := hbefore.split
      obtain ⟨tracked, htracks⟩ := hearlier.tracks (Gate.tracks_ofWidth width)
      have hopened : opening = (t.found.perform t.call).gate := hlast
      rw [hopened, hrewind, htracks.perform_rewind, hearlier.width]
      rfl
  rw [hopening] at hinside
  exact ⟨closing, hinside⟩

end Turns

section Epoch

variable {ι : Type} {width : UInt64} {closing : Gate} {c : Counter}
  {earlier later : List (Turn ι)} {t : Turn ι}

/-- The gate that a turn of an epoch finds knows just the counters won so far. -/
theorem Follows.found_tracks
    (h : Follows (Gate.ofWidth width) (earlier ++ t :: later) closing)
    (hquiet : Quiet (earlier ++ t :: later)) :
    ∃ known, t.found.Tracks known ∧ t.found.width = width ∧
      ∀ c, c ∈ known ↔ ∃ s ∈ earlier, s.Wins c := by
  obtain ⟨hearlier, _, _⟩ := h.split
  obtain ⟨known, htracks, hmem⟩ :=
    hearlier.tracks_wins hquiet.of_append.1 (Gate.tracks_ofWidth width)
  refine ⟨known, htracks, hearlier.width, ?_⟩
  intro c
  rw [hmem c]
  simp

/-- A thread that asks about a counter hears what is so at its own turn. -/
theorem Follows.answer_eq
    (h : Follows (Gate.ofWidth width) (earlier ++ t :: later) closing)
    (hquiet : Quiet (earlier ++ t :: later)) (hask : t.call.Asks c) :
    t.answer = .verdict
      (if t.found.window.isExpired c = true then .refused .expired
        else if ∃ s ∈ earlier, s.Wins c then .refused .duplicate else .ok) := by
  obtain ⟨known, htracks, _, hmem⟩ := h.found_tracks hquiet
  rw [h.split.2.1, Gate.perform_answer_of_asks _ hask, htracks.inspect_eq c]
  simp only [hmem c]

theorem Follows.fresh_wins
    (h : Follows (Gate.ofWidth width) (earlier ++ t :: later) closing)
    (hquiet : Quiet (earlier ++ t :: later)) (hfirst : FirstOffer c earlier t)
    (hlive : t.found.window.isExpired c = false) : t.answer = .verdict .ok := by
  have hnone : ¬ ∃ s ∈ earlier, s.Wins c := by
    intro hwon
    obtain ⟨s, hs, hwins⟩ := hwon
    exact hfirst.2 s hs hwins.1
  rw [h.answer_eq hquiet (Or.inr hfirst.1), hlive, if_neg Bool.false_ne_true, if_neg hnone]

/-- Whatever became of an offer, the counter counts as known from then on. -/
theorem Follows.answer_after_offer
    (h : Follows (Gate.ofWidth width) (earlier ++ t :: later) closing)
    (hquiet : Quiet (earlier ++ t :: later)) (hoffer : t.call = .offer c)
    {s : Turn ι} (hs : s ∈ later) (hask : s.call.Asks c) :
    c ≤ s.found.last ∧ s.answer = .verdict (.refused
      (if s.found.last.toNat - c.toNat < width.toNat then .duplicate else .expired)) := by
  obtain ⟨known, htracks, hwidth, _⟩ := h.found_tracks hquiet
  have hlater := h.split.2.2
  have hquiet' : Quiet later := hquiet.of_append.2.of_cons.2
  have hmem : c ∈ t.call.offered known := by
    rw [hoffer]
    exact Finset.mem_insert_self c known
  have hanswer := hlater.answer_of_known hquiet' (htracks.perform t.call) hmem hs hask
  rw [Gate.perform_width, hwidth] at hanswer
  exact hanswer

theorem Follows.expired_stays
    (h : Follows (Gate.ofWidth width) (earlier ++ t :: later) closing)
    (hquiet : Quiet (earlier ++ t :: later))
    (hlate : t.found.window.isExpired c = true) {s : Turn ι} (hs : s ∈ later)
    (hask : s.call.Asks c) : s.answer = .verdict (.refused .expired) := by
  obtain ⟨between, rest, hsplit⟩ := List.append_of_mem hs
  subst hsplit
  have hassoc : earlier ++ t :: (between ++ s :: rest) =
      (earlier ++ t :: between) ++ s :: rest := by
    simp only [List.append_assoc, List.cons_append]
  obtain ⟨_, hanswer, hlater⟩ := h.split
  have hfrom : Follows t.found (t :: between) s.found := ⟨rfl, hanswer, hlater.split.1⟩
  rw [hassoc] at h hquiet
  have hquiet' : Quiet (t :: between) := hquiet.of_append.1.of_append.2
  rw [h.answer_eq hquiet hask, if_pos (hfrom.isExpired hquiet' hlate)]

theorem Follows.isExpired_of_answer
    (h : Follows (Gate.ofWidth width) (earlier ++ t :: later) closing)
    (hquiet : Quiet (earlier ++ t :: later)) (hask : t.call.Asks c)
    (hanswer : t.answer = .verdict (.refused .expired)) :
    t.found.window.isExpired c = true := by
  rw [h.answer_eq hquiet hask] at hanswer
  by_contra hlive
  rw [if_neg hlive] at hanswer
  split at hanswer <;> simp at hanswer

theorem Follows.late_loses
    (h : Follows (Gate.ofWidth width) (earlier ++ t :: later) closing)
    (hquiet : Quiet (earlier ++ t :: later)) (hfirst : FirstOffer c earlier t)
    (hlate : t.found.window.isExpired c = true) {s : Turn ι}
    (hs : s ∈ earlier ++ t :: later) (hoffer : s.call = .offer c) :
    s.answer = .verdict (.refused .expired) := by
  rcases List.mem_append.mp hs with hearlier | hfrom
  · exact absurd hoffer (hfirst.2 s hearlier)
  · rcases List.mem_cons.mp hfrom with hst | hlater
    · rw [hst, h.answer_eq hquiet (Or.inr hfirst.1), if_pos hlate]
    · exact h.expired_stays hquiet hlate hlater (Or.inr hoffer)

theorem Follows.duplicate_after_win
    (h : Follows (Gate.ofWidth width) (earlier ++ t :: later) closing)
    (hquiet : Quiet (earlier ++ t :: later)) (hask : t.call.Asks c)
    (hanswer : t.answer = .verdict (.refused .duplicate)) :
    width ≠ 0 ∧ ∃ s ∈ earlier, s.Wins c := by
  have hwon : ∃ s ∈ earlier, s.Wins c := by
    rw [h.answer_eq hquiet hask] at hanswer
    by_contra hnone
    rw [if_neg hnone] at hanswer
    split at hanswer <;> simp at hanswer
  refine ⟨?_, hwon⟩
  intro hzero
  -- an accepted counter is never ahead, and with no width all the rest is expired
  obtain ⟨known, htracks, hwidth, hmem⟩ := h.found_tracks hquiet
  have hverdict := (htracks.inspect_of_mem ((hmem c).mpr hwon)).2
  have hout : ¬ t.found.last.toNat - c.toNat < (0 : UInt64).toNat := Nat.not_lt_zero _
  rw [hwidth, hzero, if_neg hout] at hverdict
  rw [h.split.2.1, Gate.perform_answer_of_asks _ hask, hverdict] at hanswer
  simp at hanswer

end Epoch

/-- However the threads are scheduled, at most one offer of a counter is accepted
in an epoch, and every verdict on the counter is determined by the first offer. -/
theorem one_winner_per_counter {ι : Type} [DecidableEq ι] (width : UInt64)
    (programs : ι → List Call) (schedule : List ι) {before epoch after : List (Turn ι)}
    (hepoch : IsEpoch ((Threads.start (Gate.ofWidth width) programs).run schedule).turns
      before epoch after) (c : Counter) : OneWinner width epoch c := by
  have hstart : Follows (Gate.ofWidth width)
      (Threads.start (Gate.ofWidth width) programs).turns
      (Threads.start (Gate.ofWidth width) programs).gate := rfl
  obtain ⟨closing, h⟩ := hepoch.follows (Threads.run_follows hstart schedule)
  have hquiet := hepoch.quiet
  refine ⟨h.wins_le_one hquiet (Gate.tracks_ofWidth width), ?_, ?_, ?_, ?_⟩
  · intro earlier first later hsplit hfirst hlive
    subst hsplit
    refine ⟨h.fresh_wins hquiet hfirst hlive, ?_⟩
    intro t ht hask
    exact h.answer_after_offer hquiet hfirst.1 ht hask
  · intro earlier t later hsplit hask hanswer s hs hask'
    subst hsplit
    exact h.expired_stays hquiet (h.isExpired_of_answer hquiet hask hanswer) hs hask'
  · intro earlier first later hsplit hfirst hlate t ht hoffer
    subst hsplit
    exact h.late_loses hquiet hfirst hlate ht hoffer
  · intro earlier t later hsplit hanswer hask
    subst hsplit
    exact h.duplicate_after_win hquiet hask hanswer

/-- Both threads offer counter 7. One has won it and rewound the gate, and finds
the counter acceptable again; but the other offers it first. -/
theorem one_winner_of_two_threads :
    let programs : Bool → List Call :=
      fun i => if i then [.offer 7] else [.offer 7, .rewind, .inspect 7, .offer 7]
    let schedule := [false, false, false, false, false, false, true, false]
    let turns := ((Threads.start (Gate.ofWidth 4) programs).run schedule).turns
    IsEpoch turns (turns.take 2) (turns.drop 2) [] ∧
      ((turns.drop 2).map fun t => t.answer) =
        [.verdict .ok, .verdict .ok, .verdict (.refused .duplicate)] ∧
      OneWinner 4 (turns.drop 2) 7 := by
  intro programs schedule turns
  have hepoch : IsEpoch turns (turns.take 2) (turns.drop 2) [] := by
    refine ⟨?_, Or.inr ⟨turns.take 1, _, rfl, rfl⟩, by decide, Or.inl rfl⟩
    rw [List.append_nil, List.take_append_drop]
  exact ⟨hepoch, by decide, one_winner_per_counter 4 programs schedule hepoch 7⟩

end ReplayWindow
