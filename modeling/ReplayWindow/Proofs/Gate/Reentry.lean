import ReplayWindow.Proofs.Gate.Journal

/-!
Calls from inside a hook. The lock is free while a hook runs, so the hook can make a call
of its own on the same gate before it has heard all events of the first call. The first
call has settled everything by then: its answer and its events are fixed when it leaves
the lock. The calls thus act as if each inner one came right after its outer one, and only
the order in which the hook hears the events is different.
-/

namespace ReplayWindow.Recorder

open Gate (Call Answer Reply)

/-- The call that is made inside the hook. An inspection reports no event, so there is no
hook that could make it. -/
def Visit.inner? (v : Visit) : Option Call :=
  match v.call with
  | .inspect _ => none
  | _ => v.followUp

/-- The calls of a visit, each made by itself. -/
def Visit.calls (v : Visit) : List Call := v.call :: v.inner?.toList

def flat (visits : List Visit) : List Call := visits.flatMap Visit.calls

def answers (transcripts : List Transcript) : List Answer :=
  transcripts.flatMap fun t => t.answer :: t.inner.toList

/-- What the recorder shows of two calls, when `outer` and `inner` are their replies as
plain calls. The events of the inner call come between the first event of the outer call
and the one that may remain, and at that one the front is where the inner call left it. -/
inductive Woven (outer : Reply Answer) : Option (Reply Answer) → Transcript → Prop
  | plain : Woven outer none
      ⟨outer.answer, none, outer.events.map (⟨·, outer.gate.last⟩)⟩
  | nested (inner : Reply Answer) (first : Event) (rest : List Event)
      (hevents : outer.events = first :: rest) (hrest : rest.length ≤ 1) :
      Woven outer (some inner) ⟨outer.answer, some inner.answer,
        ⟨first, outer.gate.last⟩ :: (inner.events ++ rest).map (⟨·, inner.gate.last⟩)⟩

section Visit

/-- The call that a hook makes is one of the application on itself. -/
theorem hook_followUp (g : Gate) (event : Event) {s : Recorder} {call : Call}
    (hs : s.followUp = some call) :
    application.hook event (g, s) =
      let heard : Recorder := { s with notes := s.notes ++ [⟨event, g.last⟩], followUp := none }
      let (answer, left, later) := application.call (g, heard) call
      (left, { later with inner := some answer }) := by
  let noted : Recorder :=
    { s with
      notes := s.notes ++ [⟨event, g.last⟩]
      followUp := none
      inner := some (g.perform call).answer }
  have hnoted := each_noted note (g := (g.perform call).gate) (s := noted) (fun _ _ => rfl)
    (g.perform call).events
  have hhook : application.hook event (g, s) =
      (g.perform call).events.foldl (fun s event => note event s)
        ((g.perform call).gate, noted) := by
    simp only [application, note, hs, noted]
  rw [hhook, hnoted]
  simp only [call_noted, noted]

/-- A call that is not an inspection reports one event or two. -/
theorem perform_events_cons (g : Gate) {call : Call} (hcall : ∀ c, call ≠ .inspect c) :
    ∃ first rest, (g.perform call).events = first :: rest ∧ rest.length ≤ 1 := by
  have hreports := g.perform_reports call
  generalize (g.perform call).answer = answer at hreports
  generalize (g.perform call).events = events at hreports ⊢
  cases hreports with
  | inspected c verdict => exact absurd rfl (hcall c)
  | advanced c hahead => exact ⟨_, _, rfl, Nat.le_refl 1⟩
  | accepted c hbehind => exact ⟨_, _, rfl, Nat.zero_le 1⟩
  | duplicate c => exact ⟨_, _, rfl, Nat.zero_le 1⟩
  | expired c => exact ⟨_, _, rfl, Nat.zero_le 1⟩
  | rewound => exact ⟨_, _, rfl, Nat.zero_le 1⟩

/-- With the first event the follow-up is made and all its events are noted. What is left
of the outer call's events is noted on the gate that the follow-up has left. -/
theorem visit_nested (g : Gate) (next : Call) {call : Call} {first : Event} {rest : List Event}
    (hevents : (g.perform call).events = first :: rest) :
    let outer := g.perform call
    let inner := outer.gate.perform next
    visit g ⟨call, some next⟩ =
      (⟨outer.answer, some inner.answer,
        ⟨first, outer.gate.last⟩ :: (inner.events ++ rest).map (⟨·, inner.gate.last⟩)⟩,
        inner.gate) := by
  intro outer inner
  have hfirst : application.hook first (outer.gate, { followUp := some next }) =
      (inner.gate,
        { notes := ⟨first, outer.gate.last⟩ :: inner.events.map (⟨·, inner.gate.last⟩),
          inner := some inner.answer }) := by
    rw [hook_followUp outer.gate first rfl]
    simp [call_noted, inner]
  have hrest := hook_each inner.gate
    (s := { notes := ⟨first, outer.gate.last⟩ :: inner.events.map (⟨·, inner.gate.last⟩),
            inner := some inner.answer }) rfl rest
  simp only [visit, Application.call, Application.settle, hevents, List.foldl_cons]
  rw [hfirst, hrest]
  simp [outer]

theorem visit_of_inner?_eq_none (g : Gate) {v : Visit} (h : v.inner? = none) :
    visit g v = visit g (plain v.call) := by
  obtain ⟨call, followUp⟩ := v
  cases call with
  | inspect c => rfl
  | offer c =>
    have hnone : followUp = none := h
    rw [hnone]
    rfl
  | rewind =>
    have hnone : followUp = none := h
    rw [hnone]
    rfl

theorem Visit.inner?_eq_some {v : Visit} {next : Call} (h : v.inner? = some next) :
    v = ⟨v.call, some next⟩ ∧ ∀ c, v.call ≠ .inspect c := by
  obtain ⟨call, followUp⟩ := v
  cases call with
  | inspect c => exact absurd h (Option.some_ne_none next).symm
  | offer c =>
    have hsome : followUp = some next := h
    exact ⟨by rw [hsome], fun _ => Call.noConfusion⟩
  | rewind =>
    have hsome : followUp = some next := h
    exact ⟨by rw [hsome], fun _ => Call.noConfusion⟩

/-- A visit is its calls made one after the other, but for the order of what is heard. -/
theorem visit_woven (g : Gate) (v : Visit) :
    ∃ outer inner, (g.performEach v.calls).1 = outer :: inner.toList ∧
      Woven outer inner (visit g v).1 ∧ (visit g v).2 = (g.performEach v.calls).2 ∧
      (v.inner? = some .rewind → ∀ reply ∈ inner, reply.gate.last = 0) := by
  let outer := g.perform v.call
  cases hinner : v.inner? with
  | none =>
    refine ⟨outer, none, ?_, ?_, ?_, ?_⟩
    · simp [Visit.calls, hinner, Gate.performEach, outer]
    · rw [visit_of_inner?_eq_none g hinner, visit_plain]
      exact .plain
    · rw [visit_of_inner?_eq_none g hinner, visit_plain]
      simp [Visit.calls, hinner, Gate.performEach]
    · intro hrewind
      exact absurd hrewind (Option.some_ne_none _).symm
  | some next =>
    obtain ⟨hvisit, hcall⟩ := Visit.inner?_eq_some hinner
    obtain ⟨first, rest, hevents, hrest⟩ := perform_events_cons g hcall
    have hnested := visit_nested g next hevents
    rw [← hvisit] at hnested
    refine ⟨outer, some (outer.gate.perform next), ?_, ?_, ?_, ?_⟩
    · simp [Visit.calls, hinner, Gate.performEach, outer]
    · rw [hnested]
      exact .nested _ first rest hevents hrest
    · rw [hnested]
      simp [Visit.calls, hinner, Gate.performEach]
    · intro hrewind reply hreply
      rw [Option.some.inj hrewind, Option.mem_some_iff] at hreply
      rw [← hreply]
      rfl

end Visit

section Run

variable {g : Gate}

theorem flat_append (before after : List Visit) :
    flat (before ++ after) = flat before ++ flat after := List.flatMap_append

theorem visitEach_gate (g : Gate) (visits : List Visit) :
    (visitEach g visits).2 = (g.performEach (flat visits)).2 := by
  induction visits generalizing g with
  | nil => rfl
  | cons v rest ih =>
    obtain ⟨outer, inner, _, _, hleft, _⟩ := visit_woven g v
    have hflat : flat (v :: rest) = v.calls ++ flat rest := rfl
    rw [hflat, Gate.performEach_append, ← hleft]
    exact ih (visit g v).2

theorem Woven.answers_eq {outer : Reply Answer} {inner : Option (Reply Answer)} {t : Transcript}
    (h : Woven outer inner t) :
    t.answer :: t.inner.toList = (outer :: inner.toList).map (·.answer) := by
  cases h with
  | plain => rfl
  | nested inner first rest hevents hrest => rfl

theorem visitEach_answers (g : Gate) (visits : List Visit) :
    answers (visitEach g visits).1 = (g.performEach (flat visits)).1.map (·.answer) := by
  induction visits generalizing g with
  | nil => rfl
  | cons v rest ih =>
    obtain ⟨outer, inner, hreplies, hwoven, hleft, _⟩ := visit_woven g v
    have hflat : flat (v :: rest) = v.calls ++ flat rest := rfl
    have hanswers : answers (visitEach g (v :: rest)).1 =
        ((visit g v).1.answer :: (visit g v).1.inner.toList) ++
          answers (visitEach (visit g v).2 rest).1 := rfl
    rw [hflat, Gate.performEach_append, List.map_append, ← hleft, hreplies, hanswers,
      hwoven.answers_eq, ih]

end Run

/-- Calls made from inside hooks come out as if each had been made right after the call
whose event it answers: all answers, in this order, and the gate are those of the flat run,
and each hook hears the events of the flat run, woven together as the calls were. -/
theorem reentrant_calls_linearise (width : UInt64) (visits : List Visit) :
    let new := Gate.ofWidth width
    let replies := (new.performEach (flat visits)).1
    (visitEach new visits).2 = (new.performEach (flat visits)).2 ∧
    answers (visitEach new visits).1 = replies.map (·.answer) ∧
    ∀ before v after, visits = before ++ v :: after → ∃ transcript outer inner,
      (visitEach new visits).1[before.length]? = some transcript ∧
      (replies.drop (flat before).length).take v.calls.length = outer :: inner.toList ∧
      Woven outer inner transcript ∧
      (v.inner? = some .rewind → ∀ reply ∈ inner, reply.gate.last = 0) := by
  intro new replies
  refine ⟨visitEach_gate new visits, visitEach_answers new visits, ?_⟩
  intro before v after hsplit
  subst hsplit
  let found := (visitEach new before).2
  obtain ⟨outer, inner, hreplies, hwoven, _, hrewind⟩ := visit_woven found v
  refine ⟨_, outer, inner, visitEach_getElem? new before v after, ?_, hwoven, hrewind⟩
  have hflat : flat (before ++ v :: after) = flat before ++ (v.calls ++ flat after) :=
    flat_append before (v :: after)
  have hlength := Gate.performEach_length found v.calls
  simp only [replies]
  rw [hflat, Gate.performEach_drop, ← visitEach_gate, Gate.performEach_append, ← hlength,
    List.take_left, hreplies]

/-- Counter 9 is offered again from inside its own hook. Counter 12 is reported as accepted
when the window has moved on to 90, and 95 when the gate has been rewound. -/
theorem reentrant_calls_of_width_4 :
    let first : Visit := ⟨.offer 9, some (.offer 9)⟩
    let second : Visit := ⟨.offer 12, some (.offer 90)⟩
    let third : Visit := ⟨.offer 95, some .rewind⟩
    let transcripts := (visitEach (Gate.ofWidth 4) [first, second, third]).1
    let replies := ((Gate.ofWidth 4).performEach (flat [first, second, third])).1
    transcripts.map (·.notes) =
      [[⟨.advanced 0 9, 9⟩, ⟨.duplicate 9, 9⟩, ⟨.accepted 9, 9⟩],
        [⟨.advanced 9 12, 12⟩, ⟨.advanced 12 90, 90⟩, ⟨.accepted 90, 90⟩, ⟨.accepted 12, 90⟩],
        [⟨.advanced 90 95, 95⟩, ⟨.rewound 95, 0⟩, ⟨.accepted 95, 0⟩]] ∧
    ∃ transcript outer inner, transcripts[2]? = some transcript ∧
      (replies.drop 4).take 2 = outer :: inner.toList ∧ Woven outer inner transcript ∧
      ∀ reply ∈ inner, reply.gate.last = 0 := by
  intro first second third transcripts replies
  refine ⟨by decide, ?_⟩
  obtain ⟨_, _, hvisit⟩ := reentrant_calls_linearise 4 [first, second, third]
  obtain ⟨transcript, outer, inner, hfound, hreplies, hwoven, hrewind⟩ :=
    hvisit [first, second] third [] rfl
  exact ⟨transcript, outer, inner, hfound, hreplies, hwoven, hrewind rfl⟩

end ReplayWindow.Recorder
