import ReplayWindow.Proofs.Gate.Verdicts
import Mathlib.Logic.Function.Basic

/-!
Threads that share one gate. A thread takes the lock for one call at a time, and
hands the events of the call to its hook when the lock is free again, one by one,
while other threads go on. A schedule says whose step is next, so any order in
which the threads can take their steps is a schedule. Whatever the schedule is,
the turns with the lock follow one another on one gate.
-/

namespace ReplayWindow

open Gate (Call Answer)

/-- A turn of a thread with the lock: what it asked, the gate that it found, and
the answer that it got. -/
structure Turn (ι : Type) where
  thread : ι
  call : Call
  found : Gate
  answer : Answer

/-- `turns` are in the order in which the lock was taken, and `heard` holds the
events in the order in which they came to the hooks of the threads. -/
structure Threads (ι : Type) where
  gate : Gate
  todo : ι → List Call
  owed : ι → List Event
  turns : List (Turn ι)
  heard : List (ι × Event)

namespace Threads

variable {ι : Type} [DecidableEq ι]

def start (gate : Gate) (programs : ι → List Call) : Threads ι where
  gate := gate
  todo := programs
  owed _ := []
  turns := []
  heard := []

/-- The next step of one thread. It hands over an event that it still owes to its
hook, or else it takes the lock for its next call. -/
def step (s : Threads ι) (i : ι) : Threads ι :=
  match s.owed i, s.todo i with
  | event :: rest, _ =>
    { s with
      owed := Function.update s.owed i rest
      heard := s.heard ++ [(i, event)] }
  | [], call :: rest =>
    { s with
      gate := (s.gate.perform call).gate
      todo := Function.update s.todo i rest
      owed := Function.update s.owed i (s.gate.perform call).events
      turns := s.turns ++ [⟨i, call, s.gate, (s.gate.perform call).answer⟩] }
  | [], [] => s

def run (s : Threads ι) (schedule : List ι) : Threads ι := schedule.foldl step s

end Threads

/-- Each turn finds the gate that the one before has left, and gets its answer there. -/
def Follows {ι : Type} (g : Gate) : List (Turn ι) → Gate → Prop
  | [], left => left = g
  | t :: rest, left =>
    t.found = g ∧ t.answer = (g.perform t.call).answer ∧
      Follows (g.perform t.call).gate rest left

/-- No turn rewinds the gate. -/
def Quiet {ι : Type} (turns : List (Turn ι)) : Prop := ∀ t ∈ turns, t.call ≠ .rewind

instance {ι : Type} (turns : List (Turn ι)) : Decidable (Quiet turns) :=
  inferInstanceAs (Decidable (∀ t ∈ turns, t.call ≠ .rewind))

section Turns

variable {ι : Type} {g left : Gate} {turns : List (Turn ι)}

theorem Quiet.of_append {first second : List (Turn ι)} (h : Quiet (first ++ second)) :
    Quiet first ∧ Quiet second := by
  constructor
  · intro t ht
    exact h t (List.mem_append_left second ht)
  · intro t ht
    exact h t (List.mem_append_right first ht)

theorem Quiet.of_cons {t : Turn ι} {rest : List (Turn ι)} (h : Quiet (t :: rest)) :
    t.call ≠ .rewind ∧ Quiet rest :=
  ⟨h t List.mem_cons_self, fun s hs => h s (List.mem_cons_of_mem t hs)⟩

theorem Quiet.cons {t : Turn ι} (h : Quiet turns) (ht : t.call ≠ .rewind) :
    Quiet (t :: turns) := by
  intro s hs
  rcases List.mem_cons.mp hs with hhead | hrest
  · rwa [hhead]
  · exact h s hrest

theorem follows_append (first second : List (Turn ι)) :
    Follows g (first ++ second) left ↔
      ∃ between, Follows g first between ∧ Follows between second left := by
  induction first generalizing g with
  | nil => simp [Follows]
  | cons t rest ih =>
    simp only [List.cons_append, Follows, ih]
    constructor
    · intro h
      obtain ⟨hfound, hanswer, between, hrest, hsecond⟩ := h
      exact ⟨between, ⟨hfound, hanswer, hrest⟩, hsecond⟩
    · intro h
      obtain ⟨between, ⟨hfound, hanswer, hrest⟩, hsecond⟩ := h
      exact ⟨hfound, hanswer, between, hrest, hsecond⟩

/-- Around one of its turns a run splits into what led to the gate found there and
what went on from the gate left there. -/
theorem Follows.split {before after : List (Turn ι)} {t : Turn ι}
    (h : Follows g (before ++ t :: after) left) :
    Follows g before t.found ∧ t.answer = (t.found.perform t.call).answer ∧
      Follows (t.found.perform t.call).gate after left := by
  obtain ⟨between, hbefore, hfound, hanswer, hafter⟩ :=
    (follows_append before (t :: after)).mp h
  subst hfound
  exact ⟨hbefore, hanswer, hafter⟩

theorem Follows.width (h : Follows g turns left) : left.width = g.width := by
  induction turns generalizing g with
  | nil => exact congrArg Gate.width h
  | cons t rest ih =>
    obtain ⟨_, _, hrest⟩ := h
    exact (ih hrest).trans (Gate.perform_width g t.call)

theorem Follows.last_le (h : Follows g turns left) (hquiet : Quiet turns) :
    g.last.toNat ≤ left.last.toNat := by
  induction turns generalizing g with
  | nil =>
    have hleft : left = g := h
    rw [hleft]
  | cons t rest ih =>
    obtain ⟨_, _, hrest⟩ := h
    obtain ⟨hcall, hquiet'⟩ := hquiet.of_cons
    exact Nat.le_trans (Gate.last_le_perform_last g hcall) (ih hrest hquiet')

theorem Follows.isExpired (h : Follows g turns left) (hquiet : Quiet turns) {c : Counter}
    (hc : g.window.isExpired c = true) : left.window.isExpired c = true :=
  Ring.isExpired_of_last_le (h.last_le hquiet) h.width hc

/-- The turn has the counter accepted. -/
def Turn.Wins (t : Turn ι) (c : Counter) : Prop :=
  t.call = .offer c ∧ t.answer = .verdict .ok

/-- The gate that a turn leaves tracks just the counters known before and the one
that the turn has won. -/
theorem Follows.tracks_wins {known : Finset Counter} (h : Follows g turns left)
    (hquiet : Quiet turns) (hg : g.Tracks known) :
    ∃ later, left.Tracks later ∧
      ∀ c, c ∈ later ↔ c ∈ known ∨ ∃ t ∈ turns, t.Wins c := by
  induction turns generalizing g known with
  | nil =>
    have hleft : left = g := h
    subst hleft
    exact ⟨known, hg, by simp⟩
  | cons t rest ih =>
    obtain ⟨_, hanswer, hrest⟩ := h
    obtain ⟨hstays, hquiet'⟩ := hquiet.of_cons
    -- the counters known once this turn is over
    have hnext : ∃ next, (g.perform t.call).gate.Tracks next ∧
        ∀ c, c ∈ next ↔ c ∈ known ∨ t.Wins c := by
      cases hcall : t.call with
      | inspect d =>
        exact ⟨known, hg, by simp [Turn.Wins, hcall]⟩
      | offer d =>
        rw [hcall, Gate.perform_offer_answer] at hanswer
        by_cases hd : g.inspect d = .ok
        · rw [hd] at hanswer
          refine ⟨insert d known, hg.perform_offer_ok hd, ?_⟩
          intro c
          simp only [Finset.mem_insert, Turn.Wins, hcall, hanswer, Call.offer.injEq, and_true]
          rw [or_comm, eq_comm]
        · have hlost : t.answer ≠ .verdict .ok := by
            rw [hanswer]
            intro hok
            exact hd (Answer.verdict.inj hok)
          rw [Gate.perform_offer_refused hd]
          exact ⟨known, hg, by simp [Turn.Wins, hlost]⟩
      | rewind => exact absurd hcall hstays
    obtain ⟨next, htracks, hmem⟩ := hnext
    obtain ⟨later, hlater, hmem'⟩ := ih hrest hquiet' htracks
    refine ⟨later, hlater, ?_⟩
    intro c
    rw [hmem', hmem, or_assoc]
    simp

/-- It tracks just as well all counters that were known or have been offered. -/
theorem Follows.tracks_offers {known : Finset Counter} (h : Follows g turns left)
    (hquiet : Quiet turns) (hg : g.Tracks known) :
    ∃ later, left.Tracks later ∧
      ∀ c, c ∈ later ↔ c ∈ known ∨ ∃ t ∈ turns, t.call = .offer c := by
  induction turns generalizing g known with
  | nil =>
    have hleft : left = g := h
    subst hleft
    exact ⟨known, hg, by simp⟩
  | cons t rest ih =>
    obtain ⟨_, _, hrest⟩ := h
    obtain ⟨hstays, hquiet'⟩ := hquiet.of_cons
    have hnext : ∀ c, c ∈ t.call.offered known ↔ c ∈ known ∨ t.call = .offer c := by
      intro c
      cases hcall : t.call with
      | inspect d => simp [Call.offered]
      | offer d => simp [Call.offered, or_comm, eq_comm]
      | rewind => exact absurd hcall hstays
    obtain ⟨later, hlater, hmem⟩ := ih hrest hquiet' (hg.perform t.call)
    refine ⟨later, hlater, fun c => ?_⟩
    rw [hmem, hnext, or_assoc]
    simp

/-- A refused counter is known or behind the window, and either lasts. -/
theorem Follows.inspect_refused {known : Finset Counter} (h : Follows g turns left)
    (hquiet : Quiet turns) (hg : g.Tracks known) {c : Counter} {why : Refusal}
    (hrefused : g.inspect c = .refused why) :
    ∃ again, left.inspect c = .refused again ∧ (why = .expired → again = .expired) := by
  obtain ⟨later, htracks, hmem⟩ := h.tracks_wins hquiet hg
  cases why with
  | expired =>
    have hlate := (hg.inspect_expired_iff c).mp hrefused
    exact ⟨.expired, (htracks.inspect_expired_iff c).mpr (h.isExpired hquiet hlate), fun _ => rfl⟩
  | duplicate =>
    have hknown := ((hg.inspect_duplicate_iff c).mp hrefused).2
    exact ⟨_, (htracks.inspect_of_mem ((hmem c).mpr (Or.inl hknown))).2, Refusal.noConfusion⟩

theorem Follows.tracks {known : Finset Counter} (h : Follows g turns left)
    (hg : g.Tracks known) : ∃ later, left.Tracks later := by
  induction turns generalizing g known with
  | nil =>
    have hleft : left = g := h
    exact ⟨known, hleft ▸ hg⟩
  | cons t rest ih =>
    obtain ⟨_, _, hrest⟩ := h
    exact ih hrest (hg.perform t.call)

/-- Calls made one after another are the turns of a single thread. -/
theorem exists_follows (g : Gate) (calls : List Call) :
    ∃ turns : List (Turn Unit), Follows g turns (g.performEach calls).2 ∧
      turns.map (·.call) = calls ∧
      turns.map (·.answer) = (g.performEach calls).1.map (·.answer) := by
  induction calls generalizing g with
  | nil => exact ⟨[], rfl, rfl, rfl⟩
  | cons call rest ih =>
    obtain ⟨turns, hfollows, hcalls, hanswers⟩ := ih (g.perform call).gate
    exact ⟨⟨(), call, g, (g.perform call).answer⟩ :: turns, ⟨rfl, rfl, hfollows⟩,
      congrArg (List.cons call) hcalls, congrArg (List.cons _) hanswers⟩

end Turns

namespace Threads

variable {ι : Type} [DecidableEq ι]

theorem step_follows {g : Gate} {s : Threads ι} (h : Follows g s.turns s.gate) (i : ι) :
    Follows g (s.step i).turns (s.step i).gate := by
  unfold step
  split
  · exact h
  · exact (follows_append _ _).mpr ⟨s.gate, h, rfl, rfl, rfl⟩
  · exact h

/-- Under every schedule the turns follow one another from the gate at the start. -/
theorem run_follows {g : Gate} {s : Threads ι} (h : Follows g s.turns s.gate)
    (schedule : List ι) : Follows g (s.run schedule).turns (s.run schedule).gate := by
  induction schedule generalizing s with
  | nil => exact h
  | cons i rest ih => exact ih (step_follows h i)

theorem start_run_follows (g : Gate) (programs : ι → List Call) (schedule : List ι) :
    Follows g ((start g programs).run schedule).turns
      ((start g programs).run schedule).gate := by
  have hstart : Follows g (start g programs).turns (start g programs).gate := rfl
  exact run_follows hstart schedule

end Threads

end ReplayWindow
