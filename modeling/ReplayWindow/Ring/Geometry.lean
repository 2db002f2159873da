import ReplayWindow.Counter

/-!
The geometry of a ring of 64-bit blocks. Counter `c` is bit `c % 64` of block
`c / 64`, and blocks share slots by their number modulo a power of two. One
block more than the width fills is kept, because a window may begin and end
inside a block; then no two positions of a window share a bit.
-/

namespace ReplayWindow.Ring

def blockOf (counter : Counter) : UInt64 := counter >>> 6

/-- The word whose only bit is the counter's bit inside its block. -/
def bitOf (counter : Counter) : UInt64 := 1 <<< (counter &&& 63)

/-- The least power of two that is not below `n`, for `n` up to `2 ^ 63`. -/
def powerAtLeast (n : UInt64) : UInt64 :=
  if n ≤ 1 then 1 else 1 <<< ((n - 1).log2 + 1)

/-- The blocks that a window of the given width can reach into. -/
def blocksNeeded (width : UInt64) : UInt64 :=
  width / 64 + (if width % 64 = 0 then 0 else 1) + 1

/-- The number of slots of a ring: a power of two, so that a mask finds a slot. -/
def capacityFor (width : UInt64) : UInt64 := powerAtLeast (blocksNeeded width)

end ReplayWindow.Ring
