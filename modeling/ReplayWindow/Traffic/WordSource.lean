/-!
A source of 32-bit random words. It gives the words of a script in their order.
When the script is used up it goes on with a linear congruential generator on
64 bits and gives the upper half of each state.
-/

namespace ReplayWindow

structure WordSource where
  script : List UInt32
  state : UInt64
  deriving DecidableEq

namespace WordSource

def advance (state : UInt64) : UInt64 := state * 6364136223846793005 + 1442695040888963407

def draw (source : WordSource) : UInt32 × WordSource :=
  match source.script with
  | word :: rest => (word, { source with script := rest })
  | [] =>
    let state := advance source.state
    ((state >>> 32).toUInt32, { source with state := state })

end WordSource

end ReplayWindow
