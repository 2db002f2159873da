import ReplayWindow.Proofs.Gate.Verdicts

/-!
Replayed packets. An attacker can record packets and send them again, and can
have any counter inspected. The run with what the attacker injects and the run
without it are compared: every replay is refused, each genuine call has the same
reply with the same events, and the gate ends the same to the last bit.
-/

namespace ReplayWindow

namespace Gate

/-- A call at the gate, by its owner or by an attacker. -/
structure Request where
  call : Call
  injected : Bool
  deriving DecidableEq

def calls (requests : List Request) : List Call := requests.map (·.call)

def genuine (requests : List Request) : List Call :=
  calls (requests.filter fun request => !request.injected)

/-- The replies to the genuine requests, out of those to all requests. -/
def genuineReplies (requests : List Request) (replies : List (Reply Answer)) :
    List (Reply Answer) :=
  ((requests.zip replies).filter fun entry => !entry.1.injected).map Prod.snd

/-- What an attacker is able to do: a counter can be offered once more as soon as
it has been offered, and no key changes at an attacker's request. -/
def Call.Replays (known : Finset Counter) : Call → Prop
  | .inspect _ => True
  | .offer counter => counter ∈ known
  | .rewind => False

instance (known : Finset Counter) : (call : Call) → Decidable (call.Replays known)
  | .inspect _ => .isTrue trivial
  | .offer counter => inferInstanceAs (Decidable (counter ∈ known))
  | .rewind => .isFalse id

/-- All injected requests are replays, when the counters in `known` have been
offered before the first request. -/
def OnlyReplays (known : Finset Counter) : List Request → Prop
  | [] => True
  | request :: rest =>
    (request.injected = true → request.call.Replays known) ∧
      OnlyReplays (request.call.offered known) rest

instance decidableOnlyReplays (known : Finset Counter) :
    (requests : List Request) → Decidable (OnlyReplays known requests)
  | [] => .isTrue trivial
  | request :: rest =>
    have := decidableOnlyReplays (request.call.offered known) rest
    inferInstanceAs (Decidable (_ ∧ _))

/-- On this gate the run with the injected requests and the run without them
cannot be told apart by anyone but the attacker. -/
structure NoTrace (g : Gate) (requests : List Request) : Prop where
  refused : ∀ (i : Nat) (c : Counter), requests[i]? = some ⟨.offer c, true⟩ →
    ∃ reply why, (g.performEach (calls requests)).1[i]? = some reply ∧
      reply.answer = .verdict (.refused why)
  replies : genuineReplies requests (g.performEach (calls requests)).1 =
    (g.performEach (genuine requests)).1
  gate : (g.performEach (calls requests)).2 = (g.performEach (genuine requests)).2

variable {g : Gate} {known : Finset Counter}

theorem Call.Replays.offered {call : Call} (hcall : call.Replays known) :
    call.offered known = known := by
  cases call with
  | inspect c => rfl
  | offer c => exact Finset.insert_eq_of_mem hcall
  | rewind => exact absurd hcall id

theorem Tracks.inspect_replay (h : g.Tracks known) {c : Counter}
    (hc : (Call.offer c).Replays known) : ∃ why, g.inspect c = .refused why :=
  ⟨_, (h.inspect_of_mem hc).2⟩

theorem Tracks.perform_replay (h : g.Tracks known) {call : Call} (hcall : call.Replays known) :
    (g.perform call).gate = g := by
  cases call with
  | inspect c => rfl
  | offer c =>
    obtain ⟨why, hrefused⟩ := h.inspect_replay hcall
    apply perform_offer_refused
    rw [hrefused]
    exact Verdict.noConfusion
  | rewind => exact absurd hcall id

theorem NoTrace.cons_genuine {call : Call} {rest : List Request}
    (h : NoTrace (g.perform call).gate rest) : NoTrace g (⟨call, false⟩ :: rest) := by
  obtain ⟨hrefused, hreplies, hgate⟩ := h
  refine ⟨?_, ?_, hgate⟩
  · intro i c hi
    cases i with
    | zero => simp at hi
    | succ i => exact hrefused i c hi
  · exact congrArg (List.cons (g.perform call)) hreplies

/-- A request that leaves the gate as it is leaves the rest of the run as it is. -/
theorem NoTrace.cons_injected {call : Call} {rest : List Request}
    (hsame : (g.perform call).gate = g)
    (hoffer : ∀ c, call = .offer c → ∃ why, g.inspect c = .refused why)
    (h : NoTrace g rest) : NoTrace g (⟨call, true⟩ :: rest) := by
  obtain ⟨hrefused, hreplies, hgate⟩ := h
  have hrun : g.performEach (calls (⟨call, true⟩ :: rest)) =
      (g.perform call :: (g.performEach (calls rest)).1, (g.performEach (calls rest)).2) := by
    show (g.perform call :: ((g.perform call).gate.performEach (calls rest)).1,
      ((g.perform call).gate.performEach (calls rest)).2) = _
    rw [hsame]
  refine ⟨?_, ?_, ?_⟩
  · intro i c hi
    rw [hrun]
    cases i with
    | zero =>
      have hcall : call = .offer c := by simpa using hi
      obtain ⟨why, hwhy⟩ := hoffer c hcall
      refine ⟨g.perform call, why, rfl, ?_⟩
      rw [hcall, perform_offer_answer, hwhy]
    | succ i => exact hrefused i c hi
  · rw [hrun]
    exact hreplies
  · rw [hrun]
    exact hgate

theorem Tracks.noTrace {requests : List Request} (h : g.Tracks known)
    (hreplays : OnlyReplays known requests) : NoTrace g requests := by
  induction requests generalizing g known with
  | nil =>
    refine ⟨?_, rfl, rfl⟩
    intro i c hi
    simp at hi
  | cons request rest ih =>
    obtain ⟨hfirst, hrest⟩ := hreplays
    cases request with
    | mk call injected =>
      cases injected with
      | false => exact (ih (h.perform call) hrest).cons_genuine
      | true =>
        have hcall : call.Replays known := hfirst rfl
        have hnext : OnlyReplays known rest := by
          have hoffered : OnlyReplays (call.offered known) rest := hrest
          rwa [hcall.offered] at hoffered
        refine (ih h hnext).cons_injected (h.perform_replay hcall) ?_
        intro c hc
        rw [hc] at hcall
        exact h.inspect_replay hcall

/-- Whatever was replayed or inspected by others, the owner of a new gate sees and
keeps what would have been there without it. -/
theorem replays_leave_no_trace (width : UInt64) (requests : List Request)
    (hreplays : OnlyReplays ∅ requests) : NoTrace (ofWidth width) requests :=
  (tracks_ofWidth width).noTrace hreplays

/-- Counter 3 came too late and its replay does as well, counter 9 was accepted
before its replay, and the replays between them do not move the window. -/
theorem replays_leave_no_trace_width_4 :
    let requests : List Request :=
      [⟨.offer 9, false⟩, ⟨.offer 9, true⟩, ⟨.inspect 100, true⟩, ⟨.offer 3, false⟩,
        ⟨.offer 3, true⟩, ⟨.offer 80, false⟩, ⟨.offer 9, true⟩, ⟨.rewind, false⟩,
        ⟨.offer 9, false⟩]
    OnlyReplays ∅ requests ∧ NoTrace (ofWidth 4) requests := by
  intro requests
  have hreplays : OnlyReplays ∅ requests := by decide
  exact ⟨hreplays, replays_leave_no_trace 4 requests hreplays⟩

end Gate

end ReplayWindow
