import ReplayWindow.Gate.Basic

/-!
Applications around a gate. An application brings its settings and a hook for
events. The lock is free while the hook runs, so the hook may call the gate, and
the next event of the same call then finds the gate as the hook left it.
-/

namespace ReplayWindow

open Gate (Reply Call Answer)

structure Application (σ : Type) where
  settings : Settings
  hook : Event → Gate × σ → Gate × σ

namespace Application

variable {σ α : Type}

/-- An application with default settings that drops all events. -/
def silent : Application Unit where
  settings := default
  hook _ s := s

def gate (app : Application σ) : Gate := .ofSettings app.settings

/-- Hands the events of a critical section over to the hook, in their order. -/
def settle (app : Application σ) (reply : Reply α) (state : σ) : α × Gate × σ :=
  (reply.answer, reply.events.foldl (fun s event => app.hook event s) (reply.gate, state))

def offer (app : Application σ) (s : Gate × σ) (counter : Counter) : Verdict × Gate × σ :=
  app.settle (s.1.offer counter) s.2

def call (app : Application σ) (s : Gate × σ) (call : Call) : Answer × Gate × σ :=
  app.settle (s.1.perform call) s.2

/-- Offers the counters in turn. -/
def offerEach (app : Application σ) (s : Gate × σ) : List Counter → List Verdict × Gate × σ
  | [] => ([], s)
  | counter :: rest =>
    let (verdict, s) := app.offer s counter
    let (verdicts, s) := app.offerEach s rest
    (verdict :: verdicts, s)

end Application

/-- How many events of each kind a gate has reported. -/
structure EventCounts where
  accepted : Nat := 0
  advanced : Nat := 0
  duplicate : Nat := 0
  expired : Nat := 0
  rewound : Nat := 0
  deriving DecidableEq

namespace EventCounts

def count (n : EventCounts) : Event → EventCounts
  | .accepted _ => { n with accepted := n.accepted + 1 }
  | .advanced _ _ => { n with advanced := n.advanced + 1 }
  | .duplicate _ => { n with duplicate := n.duplicate + 1 }
  | .expired _ => { n with expired := n.expired + 1 }
  | .rewound _ => { n with rewound := n.rewound + 1 }

/-- An application that only counts its events. -/
def application : Application EventCounts where
  settings := default
  hook event s := (s.1, s.2.count event)

end EventCounts

end ReplayWindow
