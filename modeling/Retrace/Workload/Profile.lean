import Retrace.History
import Retrace.Workload.Burst

/-!
# Profiles

States and histories of typical shapes: a large state with a few changes, a state with every other
word changed, and a history of the size for such states.
-/

namespace Retrace.Workload

/-- The size of a typical large state. -/
def referenceStateSize : Nat := 256 * 1024

/-- The size of the region in the history of a profile. -/
def referenceCapacity : Nat := 16 * 1024 * 1024

/-- A zero state of `size` bytes with one byte set. -/
def singleByte (size index : Nat) (value : UInt8) : Bytes :=
  (Bytes.zeros size).overlay index (Bytes.empty.push value)

/-- Two states of which the second has a few places changed. -/
def sparse (size : Nat) (seed : UInt64) : Bytes × Bytes :=
  (Bytes.zeros size, ((BurstSource.ofSeed seed).disturb (Bytes.zeros size)).1)

/-- `out` followed by the `n` bytes from offset `pos` on of a state in which every other word is
set, the first one included. -/
def alternating (out : Bytes) (pos : Nat) : Nat → Bytes
  | 0 => out
  | n + 1 => alternating (out.push (if pos / 2 % 2 = 0 then 0xA5 else 0)) (pos + 1) n

/-- Two states that differ in every other word. -/
def striped (size : Nat) : Bytes × Bytes := (Bytes.zeros size, alternating Bytes.empty 0 size)

/-- An empty history for states of this size. -/
def profileHistory (stateSize : Nat) : Except Failure History :=
  History.create { Config.ofStateSize stateSize with capacity := referenceCapacity } .widest

end Retrace.Workload
