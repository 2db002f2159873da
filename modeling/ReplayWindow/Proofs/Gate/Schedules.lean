import ReplayWindow.Proofs.Gate.Threads
import Mathlib.Data.Fintype.Defs

/-!
What no schedule can change. Every thread takes its turns in the order of its
program, and its hook hears the events of these turns in their order, however late.
When all threads are through, only the order among different threads is left open.
-/

namespace ReplayWindow

open Gate (Call)

variable {ι : Type} [DecidableEq ι]

/-- The events that the hook of the thread is to hear of the turn. -/
def Turn.events (t : Turn ι) : List Event := (t.found.perform t.call).events

/-- The turns of one thread. -/
def turnsOf (i : ι) (turns : List (Turn ι)) : List (Turn ι) :=
  turns.filter fun t => t.thread = i

/-- Programs that only offer counters. -/
def offering (counters : ι → List Counter) (i : ι) : List Call := (counters i).map .offer

namespace Threads

/-- What the hook of one thread has heard. -/
def heardBy (s : Threads ι) (i : ι) : List Event :=
  (s.heard.filter fun entry => entry.1 = i).map Prod.snd

/-- What the hooks of all threads have heard, in the order in which it came to them. -/
def events (s : Threads ι) : List Event := s.heard.map Prod.snd

/-- Every thread is through with its program, and its hook has heard all events. -/
def Finished (s : Threads ι) : Prop := ∀ i, s.todo i = [] ∧ s.owed i = []

instance [Fintype ι] (s : Threads ι) : Decidable s.Finished :=
  inferInstanceAs (Decidable (∀ i, s.todo i = [] ∧ s.owed i = []))

/-- The turns that a thread has had and the calls it has yet to make are its
program, and what its hook has heard and is owed are the events of these turns. -/
structure Keeps (programs : ι → List Call) (s : Threads ι) : Prop where
  calls : ∀ i, (turnsOf i s.turns).map (·.call) ++ s.todo i = programs i
  events : ∀ i, s.heardBy i ++ s.owed i = (turnsOf i s.turns).flatMap (·.events)

variable {programs : ι → List Call} {s : Threads ι}

theorem start_keeps (gate : Gate) (programs : ι → List Call) :
    (start gate programs).Keeps programs where
  calls _ := rfl
  events _ := rfl

theorem step_keeps (h : s.Keeps programs) (i : ι) : (s.step i).Keeps programs := by
  unfold step
  split
  · next event rest howed =>
    refine ⟨h.calls, fun j => ?_⟩
    have hj := h.events j
    by_cases hji : j = i
    · subst hji
      rw [howed] at hj
      simpa [heardBy] using hj
    · have hij : ¬ i = j := fun hij => hji hij.symm
      simpa [heardBy, Function.update_of_ne hji, hij] using hj
  · next call rest howed htodo =>
    constructor
    · intro j
      have hj := h.calls j
      by_cases hji : j = i
      · subst hji
        rw [htodo] at hj
        simpa [turnsOf] using hj
      · have hij : ¬ i = j := fun hij => hji hij.symm
        simpa [turnsOf, Function.update_of_ne hji, hij] using hj
    · intro j
      have hj := h.events j
      by_cases hji : j = i
      · subst hji
        rw [howed, List.append_nil] at hj
        simpa [turnsOf, heardBy, Turn.events] using hj
      · have hij : ¬ i = j := fun hij => hji hij.symm
        simpa [turnsOf, heardBy, Function.update_of_ne hji, hij] using hj
  · exact h

theorem run_keeps (h : s.Keeps programs) (schedule : List ι) :
    (s.run schedule).Keeps programs := by
  induction schedule generalizing s with
  | nil => exact h
  | cons i rest ih => exact ih (step_keeps h i)

theorem start_run_keeps (g : Gate) (programs : ι → List Call) (schedule : List ι) :
    ((start g programs).run schedule).Keeps programs :=
  run_keeps (start_keeps g programs) schedule

theorem Keeps.call_mem (h : s.Keeps programs) {t : Turn ι} (ht : t ∈ s.turns) :
    t.call ∈ programs t.thread := by
  rw [← h.calls t.thread]
  apply List.mem_append_left
  exact List.mem_map.mpr ⟨t, List.mem_filter.mpr ⟨ht, by simp⟩, rfl⟩

theorem Keeps.quiet {counters : ι → List Counter} (h : s.Keeps (offering counters)) :
    Quiet s.turns := by
  intro t ht
  obtain ⟨c, _, hcall⟩ := List.mem_map.mp (h.call_mem ht)
  rw [← hcall]
  exact Call.noConfusion

section Finished

theorem Keeps.calls_of_finished (h : s.Keeps programs) (hfinished : s.Finished) (i : ι) :
    (turnsOf i s.turns).map (·.call) = programs i := by
  simpa [(hfinished i).1] using h.calls i

theorem Keeps.heardBy_of_finished (h : s.Keeps programs) (hfinished : s.Finished) (i : ι) :
    s.heardBy i = (turnsOf i s.turns).flatMap (·.events) := by
  simpa [(hfinished i).2] using h.events i

/-- Just the calls of the programs have been made. -/
theorem Keeps.exists_turn_iff (h : s.Keeps programs) (hfinished : s.Finished) (call : Call) :
    (∃ t ∈ s.turns, t.call = call) ↔ ∃ i, call ∈ programs i := by
  simp only [← h.calls_of_finished hfinished, turnsOf, List.mem_map, List.mem_filter]
  constructor
  · rintro ⟨t, ht, hcall⟩
    exact ⟨t.thread, t, ⟨ht, by simp⟩, hcall⟩
  · rintro ⟨_, t, ⟨ht, _⟩, hcall⟩
    exact ⟨t, ht, hcall⟩

private theorem count_part {β : Type} [DecidableEq β] (entries : List (ι × β)) (entry : ι × β) :
    entries.count entry =
      ((entries.filter fun other => other.1 = entry.1).map Prod.snd).count entry.2 := by
  induction entries with
  | nil => rfl
  | cons other rest ih =>
    obtain ⟨i, b⟩ := other
    obtain ⟨j, c⟩ := entry
    by_cases hij : i = j
    · simp [List.count_cons, hij, ih]
    · simp [hij, ih]

private theorem part_of_turns (turns : List (Turn ι)) (i : ι) :
    ((turns.flatMap fun t => t.events.map (Prod.mk t.thread)).filter
      fun entry => entry.1 = i).map Prod.snd = (turnsOf i turns).flatMap (·.events) := by
  induction turns with
  | nil => rfl
  | cons t rest ih =>
    by_cases hi : t.thread = i
    · simpa [turnsOf, hi, List.filter_map, Function.comp_def] using ih
    · simpa [turnsOf, hi, List.filter_map, Function.comp_def] using ih

/-- The hooks together have heard the events of the turns, in some order. -/
theorem Keeps.heard_perm (h : s.Keeps programs) (hfinished : s.Finished) :
    s.events.Perm (s.turns.flatMap (·.events)) := by
  have hparts : s.heard.Perm
      (s.turns.flatMap fun t => t.events.map (Prod.mk t.thread)) := by
    rw [List.perm_iff_count]
    intro entry
    rw [count_part, count_part, part_of_turns]
    exact congrArg (List.count entry.2) (h.heardBy_of_finished hfinished entry.1)
  have hevents := hparts.map Prod.snd
  simpa [Threads.events, List.map_flatMap, Function.comp_def] using hevents

end Finished

end Threads

end ReplayWindow
