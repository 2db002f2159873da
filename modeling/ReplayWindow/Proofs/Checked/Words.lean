import ReplayWindow.Proofs.Cells
import ReplayWindow.Proofs.Ring.Geometry
import Mathlib.Data.Nat.Log

/-!
Machine operations that can fault. A difference must not be of a smaller and a larger
number, a sum and a rounding must fit into a word, a shift must be shorter than a word,
an index must lie inside its array, and a copy must fill just the place that it is
copied to. Where these hold, an operation does what the total one does.
-/

namespace ReplayWindow

inductive Fault where
  | underflow
  | overflow
  | shift
  | index
  | lengths
  | capacity
  | assertion
  | poisoned
  deriving DecidableEq

abbrev Checked := Except Fault

namespace Checked

def word (n : ℕ) : Checked UInt64 :=
  if n < 2 ^ 64 then .ok (UInt64.ofNat n) else .error .overflow

def add (a b : UInt64) : Checked UInt64 := word (a.toNat + b.toNat)

def sub (a b : UInt64) : Checked UInt64 := if b ≤ a then .ok (a - b) else .error .underflow

def shiftLeft (a count : UInt64) : Checked UInt64 :=
  if count < 64 then .ok (a <<< count) else .error .shift

def shiftRight (a count : UInt64) : Checked UInt64 :=
  if count < 64 then .ok (a >>> count) else .error .shift

/-- The least power of two that is not below `n`. -/
def powerAtLeast (n : UInt64) : Checked UInt64 := word (2 ^ Nat.clog 2 n.toNat)

def require (holds : Bool) : Checked Unit := if holds then .ok () else .error .assertion

section Words

theorem ok_bind {α β : Type} (a : α) (next : α → Checked β) :
    (Except.ok a >>= next) = next a := rfl

theorem add_eq_ok {a b : UInt64} (h : a.toNat + b.toNat < 2 ^ 64) : add a b = .ok (a + b) := by
  have hsum : UInt64.ofNat (a.toNat + b.toNat) = a + b := by
    rw [UInt64.ofNat_add, UInt64.ofNat_toNat, UInt64.ofNat_toNat]
  rw [add, word, if_pos h, hsum]

theorem sub_eq_ok {a b : UInt64} (h : b ≤ a) : sub a b = .ok (a - b) := if_pos h

/-- The distance to a counter that is not ahead of the front can be taken. -/
theorem distance_bind {α : Type} (front counter : UInt64) (ahead : Checked α)
    (behind : UInt64 → Checked α) :
    (if front < counter then ahead else sub front counter >>= behind) =
      if front < counter then ahead else behind (front - counter) := by
  by_cases hahead : front < counter
  · rw [if_pos hahead, if_pos hahead]
  · rw [if_neg hahead, if_neg hahead, sub_eq_ok (UInt64.not_lt.mp hahead), ok_bind]

theorem shiftLeft_eq_ok {a count : UInt64} (h : count < 64) :
    shiftLeft a count = .ok (a <<< count) := if_pos h

theorem shiftRight_eq_ok {a count : UInt64} (h : count < 64) :
    shiftRight a count = .ok (a >>> count) := if_pos h

theorem require_eq_ok {holds : Bool} (h : holds = true) : require holds = .ok () := if_pos h

/-- The rounding fits into a word up to half of the words. -/
theorem powerAtLeast_eq_ok {n : UInt64} (hpos : 1 ≤ n.toNat) (hle : n.toNat ≤ 2 ^ 63) :
    powerAtLeast n = .ok (Ring.powerAtLeast n) := by
  obtain ⟨k, hk, hroom, hleast⟩ := Ring.powerAtLeast_least n hpos hle
  have hclog : Nat.clog 2 n.toNat = k := by
    apply Nat.le_antisymm
    · exact Nat.clog_le_of_le_pow hroom
    · exact hleast _ (Nat.le_pow_clog (by decide) n.toNat)
  have hword : 2 ^ k < 2 ^ 64 := by
    rw [← hk]
    exact UInt64.toNat_lt _
  rw [powerAtLeast, word, hclog, if_pos hword, ← hk, UInt64.ofNat_toNat]

end Words

section Arrays

variable {α : Type}

/-- An array takes up fewer than `2 ^ 63` bytes. -/
def allocate (count cellBytes : ℕ) (value : α) : Checked (Array α) :=
  if count * cellBytes < 2 ^ 63 then .ok (Array.replicate count value) else .error .capacity

def load (cells : Array α) (i : ℕ) : Checked α :=
  match cells[i]? with
  | some value => .ok value
  | none => .error .index

def store (cells : Array α) (i : ℕ) (value : α) : Checked (Array α) :=
  if i < cells.size then .ok (cells.setIfInBounds i value) else .error .index

/-- The first `count` cells. -/
def front (cells : Array α) (count : ℕ) : Checked (Array α) :=
  if count ≤ cells.size then .ok (cells.take count) else .error .index

/-- Copies the source over all cells from `start` on. -/
def copyFrom (cells : Array α) (start : ℕ) (source : Array α) : Checked (Array α) :=
  if cells.size < start then .error .index
  else if source.size = cells.size - start then .ok (cells.take start ++ source)
  else .error .lengths

theorem allocate_eq_ok {count cellBytes : ℕ} (h : count * cellBytes < 2 ^ 63) (value : α) :
    allocate count cellBytes value = .ok (Array.replicate count value) := if_pos h

theorem load_eq_ok {cells : Array α} {i : ℕ} (h : i < cells.size) (default : α) :
    load cells i = .ok (cells.getD i default) := by
  rw [load, Array.getD_eq_getD_getElem?, Array.getElem?_eq_getElem h]
  rfl

theorem store_eq_ok {cells : Array α} {i : ℕ} (h : i < cells.size) (value : α) :
    store cells i value = .ok (cells.setIfInBounds i value) := if_pos h

theorem front_eq_ok {cells : Array α} {count : ℕ} (h : count ≤ cells.size) :
    front cells count = .ok (cells.take count) := if_pos h

theorem copyFrom_eq_ok {cells source : Array α} {start : ℕ} (hstart : start ≤ cells.size)
    (hsize : source.size = cells.size - start) :
    copyFrom cells start source = .ok (cells.take start ++ source) := by
  rw [copyFrom, if_neg (Nat.not_lt.mpr hstart), if_pos hsize]

end Arrays

end Checked

end ReplayWindow
