import Retrace.Patch.Segment
import Retrace.Ring.Basic

/-!
# The configuration of a history

* `Config.check`: the three things that are asked of a configuration, in this order: a state of
  at least one byte, a step count of at least one, and a region with room for more than the largest
  record.

The size of the largest patch, and so that of the largest record, can be beyond the largest size.
`Config.check` goes by the size itself, and without overflow checks it is by `Config.wrappedLimit` that
a configuration is refused.
-/

namespace Retrace

/-- Why a configuration is refused. -/
inductive ConfigError where
  | zeroStateSize
  | capacityTooSmall (configured minimum : Nat)
  | zeroGranularity
  deriving DecidableEq, Repr

/-- The text of an error. -/
def ConfigError.message : ConfigError → String
  | .zeroStateSize => "state_size must be at least 1 byte"
  | .capacityTooSmall configured minimum =>
    s!"capacity {configured} bytes must exceed {minimum} bytes for this state size"
  | .zeroGranularity => "granularity must be at least 1"

/-- The size of one state, the size of the region for patches, and how many steps lie between two
recorded states. -/
structure Config where
  stateSize : Nat
  capacity : Nat
  granularity : UInt32
  deriving DecidableEq, Repr

namespace Config

/-- The region's size where none is given: 16 MiB. -/
def defaultCapacity : Nat := 16 * 1024 * 1024

/-- The step count where none is given: every step is recorded. -/
def defaultGranularity : UInt32 := 1

/-- The configuration for states of this size, all else as where none is given. -/
def ofStateSize (stateSize : Nat) : Config := ⟨stateSize, defaultCapacity, defaultGranularity⟩

/-- The size of the largest patch between two states. -/
def patchLimit (c : Config) : Nat := Patch.bound c.stateSize

/-- The size of the largest patch between two states, as it is without overflow checks. -/
def wrappedLimit (c : Config) : Nat := Patch.wrappedBound c.stateSize

/-- The size that the region must exceed. -/
def capacityFloor (c : Config) : Nat := Ring.recordSpace c.patchLimit

/-- Refuses a configuration that no history can have whose largest patch is of `limit` bytes. -/
def checkWith (c : Config) (limit : Nat) : Except ConfigError Unit :=
  let floor := Ring.recordSpace limit
  if c.stateSize = 0 then .error .zeroStateSize
  else if c.granularity = 0 then .error .zeroGranularity
  else if c.capacity ≤ floor then .error (.capacityTooSmall c.capacity floor)
  else .ok ()

/-- Refuses a configuration that no history can have. -/
def check (c : Config) : Except ConfigError Unit := c.checkWith c.patchLimit

end Config

end Retrace
