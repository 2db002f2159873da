import ReplayWindow.Gate.Recorder
import ReplayWindow.Proofs.Gate.Verdicts
import Mathlib.Data.List.DropRight

/-!
The journal of a gate: the events of all its calls, as an application that only
notes them has them. Every event in it is borne out by the events before it, back
to the last rewind, and from the journal alone the window can be built again, to
the last bit.
-/

namespace ReplayWindow

open Gate (Call Answer)

section Reading

def Event.isRewind : Event → Bool
  | .rewound _ => true
  | _ => false

def Event.move? : Event → Option (Counter × Counter)
  | .advanced before after => some (before, after)
  | _ => none

def Event.accepted? : Event → Option Counter
  | .accepted counter => some counter
  | _ => none

/-- The moves of the window among the events, each as its two ends. -/
def moves (events : List Event) : List (Counter × Counter) := events.filterMap Event.move?

def acceptances (events : List Event) : List Counter := events.filterMap Event.accepted?

/-- The events since the last rewind. -/
def epoch (log : List Event) : List Event := log.rtakeWhile fun event => !event.isRewind

/-- Where the latest move of the epoch has ended, or zero if there was no move. -/
def frontOf (log : List Event) : Counter := ((moves (epoch log)).getLast?.map Prod.snd).getD 0

/-- The window does again what the event tells. -/
def Event.redo (r : Ring) : Event → Ring
  | .accepted counter => r.record counter
  | .rewound _ => r.reset
  | _ => r

def rebuild (width : UInt64) (log : List Event) : Ring :=
  log.foldl Event.redo (Ring.ofWidth width)

variable {log : List Event} {event : Event}

theorem epoch_append (hevent : event.isRewind = false) :
    epoch (log ++ [event]) = epoch log ++ [event] := by
  apply List.rtakeWhile_concat_pos
  simp [hevent]

theorem epoch_rewound (last : Counter) : epoch (log ++ [.rewound last]) = [] := by
  apply List.rtakeWhile_concat_neg
  simp [Event.isRewind]

theorem frontOf_advanced (before after : Counter) :
    frontOf (log ++ [.advanced before after]) = after := by
  unfold frontOf
  rw [epoch_append rfl]
  simp [moves, List.filterMap_append, Event.move?]

theorem frontOf_append (hevent : event.isRewind = false) (hmove : event.move? = none) :
    frontOf (log ++ [event]) = frontOf log := by
  unfold frontOf
  rw [epoch_append hevent]
  simp [moves, List.filterMap_append, hmove]

theorem acceptances_epoch_append (hevent : event.isRewind = false) :
    acceptances (epoch (log ++ [event])) = acceptances (epoch log) ++ event.accepted?.toList := by
  rw [epoch_append hevent, acceptances, List.filterMap_append]
  cases haccepted : event.accepted? <;> simp [acceptances, haccepted]

theorem rebuild_append (width : UInt64) :
    rebuild width (log ++ [event]) = Event.redo (rebuild width log) event := by
  simp [rebuild]

end Reading

section Entries

/-- What the log before an event has to say for the event to be in place there. -/
def Event.Fits (width : UInt64) (log : List Event) : Event → Prop
  | .accepted counter => counter ∉ acceptances (epoch log)
  | .advanced before after => before = frontOf log ∧ before < after
  | .duplicate counter => counter ∈ acceptances (epoch log)
  | .expired counter => Counter.isBehind width (frontOf log) counter = true
  | .rewound last => last = frontOf log

/-- Every event fits into the log where it stands. -/
def Coherent (width : UInt64) (log : List Event) : Prop :=
  ∀ before event, before ++ [event] <+: log → event.Fits width before

variable {width : UInt64} {log : List Event} {event : Event}

theorem coherent_nil (width : UInt64) : Coherent width [] := by
  intro before event hprefix
  simp at hprefix

theorem Coherent.append (h : Coherent width log) (hevent : event.Fits width log) :
    Coherent width (log ++ [event]) := by
  intro before other hprefix
  rcases List.prefix_concat_iff.mp hprefix with hwhole | hinside
  · obtain ⟨hbefore, hother⟩ := List.append_singleton_inj.mp hwhole
    rw [hbefore, hother]
    exact hevent
  · exact h before other hinside

/-- The journal of a gate of the given width, from which the gate can be restored. -/
structure Journal (width : UInt64) (log : List Event) (g : Gate) : Prop where
  coherent : Coherent width log
  last_eq : g.last = frontOf log
  rebuilt : rebuild width log = g.window

/-- The gate knows just the counters accepted in the epoch of its journal. -/
structure Accounts (width : UInt64) (log : List Event) (g : Gate) : Prop extends
    Journal width log g where
  width_eq : g.width = width
  tracks : g.Tracks (acceptances (epoch log)).toFinset

theorem accounts_ofWidth (width : UInt64) : Accounts width [] (Gate.ofWidth width) where
  coherent := coherent_nil width
  last_eq := rfl
  rebuilt := rfl
  width_eq := rfl
  tracks := Gate.tracks_ofWidth width

variable {g : Gate}

/-- A refusal is borne out by the journal, and the journal tells no more than before. -/
theorem Accounts.refuse (h : Accounts width log g) {c : Counter} {why : Refusal}
    (hc : g.inspect c = .refused why) : Accounts width (log ++ [Event.refused c why]) g := by
  have hevent : (Event.refused c why).isRewind = false := by cases why <;> rfl
  have hmove : (Event.refused c why).move? = none := by cases why <;> rfl
  have haccepted : (Event.refused c why).accepted? = none := by cases why <;> rfl
  have hredo : Event.redo g.window (Event.refused c why) = g.window := by cases why <;> rfl
  have hfits : (Event.refused c why).Fits width log := by
    cases why with
    | duplicate =>
      have hknown := ((h.tracks.inspect_duplicate_iff c).mp hc).2
      exact List.mem_toFinset.mp hknown
    | expired =>
      have hlate := (h.tracks.inspect_expired_iff c).mp hc
      have hsame : g.window.isExpired c = Counter.isBehind width (frontOf log) c := by
        rw [← h.last_eq, ← h.width_eq]
        rfl
      exact hsame.symm.trans hlate
  refine ⟨⟨?coherent, ?last_eq, ?rebuilt⟩, ?width_eq, ?tracks⟩
  case coherent => exact h.coherent.append hfits
  case last_eq => rw [frontOf_append hevent hmove, h.last_eq]
  case rebuilt => rw [rebuild_append, h.rebuilt, hredo]
  case width_eq => exact h.width_eq
  case tracks =>
    rw [acceptances_epoch_append hevent, haccepted, Option.toList_none, List.append_nil]
    exact h.tracks

/-- An acceptance is new to the epoch, and a move before it starts from the front. -/
theorem Accounts.accept (h : Accounts width log g) {c : Counter} (hc : g.inspect c = .ok) :
    Accounts width (log ++ (g.perform (.offer c)).events) (g.perform (.offer c)).gate := by
  have hnew : c ∉ acceptances (epoch log) := by
    have hunknown := ((h.tracks.inspect_ok_iff c).mp hc).2
    rwa [List.mem_toFinset] at hunknown
  -- the journal with the move, if there is one
  obtain ⟨moved, hevents, hcoherent, hfront, hrebuild, hsame⟩ :
      ∃ moved, log ++ (g.perform (.offer c)).events = moved ++ [.accepted c] ∧
        Coherent width moved ∧ frontOf moved = (g.perform (.offer c)).gate.last ∧
        rebuild width moved = g.window ∧
        acceptances (epoch moved) = acceptances (epoch log) := by
    rw [Gate.perform_offer_ok_events hc, Gate.perform_offer_last hc]
    by_cases hahead : g.last < c
    · refine ⟨log ++ [.advanced g.last c], by simp [hahead], ?_, ?_, ?_, ?_⟩
      · exact h.coherent.append ⟨h.last_eq, hahead⟩
      · rw [frontOf_advanced, if_pos hahead]
      · rw [rebuild_append, h.rebuilt]
        rfl
      · rw [acceptances_epoch_append rfl]
        exact List.append_nil _
    · exact ⟨log, by simp [hahead], h.coherent, by rw [if_neg hahead, h.last_eq], h.rebuilt, rfl⟩
  rw [hevents]
  refine ⟨⟨?coherent, ?last_eq, ?rebuilt⟩, ?width_eq, ?tracks⟩
  case coherent =>
    apply hcoherent.append
    show c ∉ acceptances (epoch moved)
    rwa [hsame]
  case last_eq => rw [frontOf_append rfl rfl, hfront]
  case rebuilt =>
    rw [rebuild_append, hrebuild, Gate.perform_offer_ok hc]
    rfl
  case width_eq => rw [Gate.perform_width, h.width_eq]
  case tracks =>
    have hset : (acceptances (epoch (moved ++ [.accepted c]))).toFinset =
        insert c (acceptances (epoch log)).toFinset := by
      rw [acceptances_epoch_append rfl, hsame]
      ext d
      simp only [List.mem_toFinset, List.mem_append, Finset.mem_insert, Event.accepted?,
        Option.toList_some, List.mem_singleton]
      exact or_comm
    rw [hset]
    exact h.tracks.perform_offer_ok hc

theorem Accounts.rewind (h : Accounts width log g) :
    Accounts width (log ++ (g.perform .rewind).events) (g.perform .rewind).gate := by
  have hgate : (g.perform .rewind).gate = Gate.ofWidth width := by
    rw [h.tracks.perform_rewind, h.width_eq]
  have hepoch : epoch (log ++ (g.perform .rewind).events) = [] := epoch_rewound g.last
  have hnew := accounts_ofWidth width
  refine ⟨⟨?coherent, ?last_eq, ?rebuilt⟩, ?width_eq, ?tracks⟩
  case coherent => exact h.coherent.append h.last_eq
  case last_eq =>
    rw [hgate, frontOf, hepoch]
    rfl
  case rebuilt =>
    show rebuild width (log ++ [.rewound g.last]) = g.window.reset
    rw [rebuild_append, h.rebuilt]
    rfl
  case width_eq => rw [hgate, hnew.width_eq]
  case tracks =>
    rw [hgate, hepoch]
    exact hnew.tracks

theorem Accounts.perform (h : Accounts width log g) (call : Call) :
    Accounts width (log ++ (g.perform call).events) (g.perform call).gate := by
  cases call with
  | inspect c =>
    have hnone : log ++ (g.perform (.inspect c)).events = log := List.append_nil log
    rw [hnone]
    exact h
  | offer c =>
    cases hc : g.inspect c with
    | ok => exact h.accept hc
    | refused why =>
      have hrefused : g.inspect c ≠ .ok := by simp [hc]
      rw [Gate.perform_offer_refused_events hc, Gate.perform_offer_refused hrefused]
      exact h.refuse hc
  | rewind => exact h.rewind

end Entries

/-- What a call may tell its caller and its hook, with the front at `front` before. -/
inductive Reports (front : Counter) : Call → Answer → List Event → Prop
  | inspected (c : Counter) (verdict : Verdict) :
      Reports front (.inspect c) (.verdict verdict) []
  | advanced (c : Counter) (hahead : front < c) :
      Reports front (.offer c) (.verdict .ok) [.advanced front c, .accepted c]
  | accepted (c : Counter) (hbehind : ¬ front < c) :
      Reports front (.offer c) (.verdict .ok) [.accepted c]
  | duplicate (c : Counter) :
      Reports front (.offer c) (.verdict (.refused .duplicate)) [.duplicate c]
  | expired (c : Counter) :
      Reports front (.offer c) (.verdict (.refused .expired)) [.expired c]
  | rewound : Reports front .rewind .done [.rewound front]

theorem Gate.perform_reports (g : Gate) (call : Call) :
    Reports g.last call (g.perform call).answer (g.perform call).events := by
  cases call with
  | inspect c => exact .inspected c (g.inspect c)
  | offer c =>
    rw [Gate.perform_offer_answer]
    cases hc : g.inspect c with
    | ok =>
      rw [Gate.perform_offer_ok_events hc]
      by_cases hahead : g.last < c
      · rw [if_pos hahead]
        exact .advanced c hahead
      · rw [if_neg hahead]
        exact .accepted c hahead
    | refused why =>
      rw [Gate.perform_offer_refused_events hc]
      cases why with
      | duplicate => exact .duplicate c
      | expired => exact .expired c
  | rewind => exact .rewound

namespace Recorder

/-- A call during which the recorder only notes what it hears. -/
def plain (call : Call) : Visit := { call }

def Transcript.events (transcript : Transcript) : List Event := transcript.notes.map (·.event)

def log (transcripts : List Transcript) : List Event := transcripts.flatMap (·.events)

/-- The recorder visits the gate for each call in turn. -/
def recordEach (g : Gate) (calls : List Call) : List Transcript × Gate :=
  visitEach g (calls.map plain)

/-- Whatever notes one event after another ends with all of them noted in their order. -/
theorem each_noted (hook : Event → Gate × Recorder → Gate × Recorder) {g : Gate} {s : Recorder}
    (hhook : ∀ event notes, hook event (g, { s with notes }) =
      (g, { s with notes := notes ++ [⟨event, g.last⟩] })) (events : List Event) :
    events.foldl (fun s event => hook event s) (g, s) =
      (g, { s with notes := s.notes ++ events.map (⟨·, g.last⟩) }) := by
  induction events generalizing s with
  | nil => simp
  | cons event rest ih =>
    have hstep := hhook event s.notes
    have hrest := ih (s := { s with notes := s.notes ++ [⟨event, g.last⟩] }) hhook
    rw [List.foldl_cons, hstep, hrest]
    simp

theorem hook_each (g : Gate) {s : Recorder} (hs : s.followUp = none) (events : List Event) :
    events.foldl (fun s event => application.hook event s) (g, s) =
      (g, { s with notes := s.notes ++ events.map (⟨·, g.last⟩) }) := by
  apply each_noted
  intro event notes
  simp only [application, note, hs]

theorem call_noted (g : Gate) {s : Recorder} (hs : s.followUp = none) (call : Call) :
    application.call (g, s) call =
      ((g.perform call).answer, (g.perform call).gate,
        { s with notes :=
          s.notes ++ (g.perform call).events.map (⟨·, (g.perform call).gate.last⟩) }) := by
  simp only [Application.call, Application.settle, hook_each _ hs]

theorem visit_plain (g : Gate) (call : Call) :
    visit g (plain call) =
      (⟨(g.perform call).answer, none,
        (g.perform call).events.map (⟨·, (g.perform call).gate.last⟩)⟩, (g.perform call).gate) := by
  have hcall := call_noted g (s := {}) rfl call
  simp only [visit, plain]
  rw [hcall, List.nil_append]

theorem visit_plain_events (g : Gate) (call : Call) :
    (visit g (plain call)).1.events = (g.perform call).events := by
  rw [visit_plain]
  simp [Transcript.events, Function.comp_def]

theorem visit_plain_gate (g : Gate) (call : Call) :
    (visit g (plain call)).2 = (g.perform call).gate := by
  rw [visit_plain]

/-- A visit finds the gate that the visits before it have left. -/
theorem visitEach_getElem? (g : Gate) (before : List Visit) (v : Visit) (after : List Visit) :
    (visitEach g (before ++ v :: after)).1[before.length]? =
      some (visit (visitEach g before).2 v).1 := by
  induction before generalizing g with
  | nil => rfl
  | cons first rest ih => exact ih (visit g first).2

theorem recordEach_getElem? (g : Gate) (before : List Call) (call : Call) (after : List Call) :
    (recordEach g (before ++ call :: after)).1[before.length]? =
      some (visit (recordEach g before).2 (plain call)).1 := by
  have hvisit := visitEach_getElem? g (before.map plain) (plain call) (after.map plain)
  rw [List.length_map] at hvisit
  unfold recordEach
  rw [List.map_append, List.map_cons]
  exact hvisit

theorem accounts_recordEach {width : UInt64} {earlier : List Event} {g : Gate}
    (h : Accounts width earlier g) (calls : List Call) :
    Accounts width (earlier ++ log (recordEach g calls).1) (recordEach g calls).2 := by
  induction calls generalizing earlier g with
  | nil =>
    have hnone : earlier ++ log (recordEach g []).1 = earlier := List.append_nil earlier
    rw [hnone]
    exact h
  | cons call rest ih =>
    have hnext := h.perform call
    rw [← visit_plain_events g call, ← visit_plain_gate g call] at hnext
    have hrest := ih hnext
    have hlog : log (recordEach g (call :: rest)).1 =
        (visit g (plain call)).1.events ++ log (recordEach (visit g (plain call)).2 rest).1 := rfl
    rw [hlog, ← List.append_assoc]
    exact hrest

/-- The log of an application that only notes its events. Each call reports to its
hook what it tells its caller, and the log as a whole is the journal of the gate. -/
theorem log_is_journal (width : UInt64) (calls : List Call) :
    (∀ before call after, calls = before ++ call :: after →
      ∃ transcript, (recordEach (Gate.ofWidth width) calls).1[before.length]? = some transcript ∧
        Reports (recordEach (Gate.ofWidth width) before).2.last call transcript.answer
          transcript.events) ∧
    Journal width (log (recordEach (Gate.ofWidth width) calls).1)
      (recordEach (Gate.ofWidth width) calls).2 := by
  constructor
  · intro before call after hsplit
    subst hsplit
    refine ⟨_, recordEach_getElem? _ before call after, ?_⟩
    have hreports := (recordEach (Gate.ofWidth width) before).2.perform_reports call
    rw [visit_plain_events, visit_plain]
    exact hreports
  · exact (accounts_recordEach (accounts_ofWidth width) calls).toJournal

/-- One call of each kind of outcome. -/
example : log (recordEach (Gate.ofWidth 4)
    [.offer 0, .inspect 2, .offer 5, .offer 3, .offer 3, .offer 1, .rewind]).1 =
      [.accepted 0, .advanced 0 5, .accepted 5, .accepted 3, .duplicate 3, .expired 1,
        .rewound 5] := by decide

end Recorder

end ReplayWindow
