import ReplayWindow.Gate.Application

/-!
An application that notes its events. With each event it notes the highest
accepted counter, as the gate tells it inside the hook. On the first event of a
call it can make one further call on the same gate. The events of that call are
noted at once, before what is left of the first call's events.
-/

namespace ReplayWindow

structure Note where
  event : Event
  last : Counter
  deriving DecidableEq

/-- `followUp` is the call still to be made, and `inner` the answer it got. -/
structure Recorder where
  notes : List Note := []
  followUp : Option Gate.Call := none
  inner : Option Gate.Answer := none
  deriving DecidableEq

namespace Recorder

def note (event : Event) (s : Gate × Recorder) : Gate × Recorder :=
  (s.1, { s.2 with notes := s.2.notes ++ [⟨event, s.1.last⟩] })

/-- The follow-up is used up before it is made, so its own events are only noted. -/
def application : Application Recorder where
  settings := default
  hook event s :=
    let s := note event s
    match s.2.followUp with
    | none => s
    | some call =>
      let reply := s.1.perform call
      reply.events.foldl (fun s event => note event s)
        (reply.gate, { s.2 with followUp := none, inner := some reply.answer })

/-- A call, perhaps with a call to follow it from inside the hook. -/
structure Visit where
  call : Gate.Call
  followUp : Option Gate.Call := none
  deriving DecidableEq

/-- What a visit shows: both answers, and the events in the order of their notes. -/
structure Transcript where
  answer : Gate.Answer
  inner : Option Gate.Answer
  notes : List Note
  deriving DecidableEq

def visit (g : Gate) (v : Visit) : Transcript × Gate :=
  let (answer, gate, recorder) := application.call (g, { followUp := v.followUp }) v.call
  (⟨answer, recorder.inner, recorder.notes⟩, gate)

def visitEach (g : Gate) : List Visit → List Transcript × Gate
  | [] => ([], g)
  | v :: rest =>
    let (transcript, g) := visit g v
    let (transcripts, g) := visitEach g rest
    (transcript :: transcripts, g)

end Recorder

end ReplayWindow
