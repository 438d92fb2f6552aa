import Retrace.Workload.Keystream

/-!
# Bursts of edits

States of a simulation change in a few clustered places from one step to the next.  A burst source
makes such changes, the same ones for the same seed.
-/

namespace Retrace.Workload

/-- A stream, the largest number of places changed at once, and the largest width of one. -/
structure BurstSource where
  stream : Keystream
  burstLimit : UInt32 := 4
  widthLimit : UInt32 := 32

namespace BurstSource

/-- The source of a seed. -/
def ofSeed (seed : UInt64) : BurstSource := { stream := .ofSeed seed }

/-- Random bytes over one random place of a state. -/
def burst (widthLimit : UInt32) (stream : Keystream) (state : Bytes) : Bytes × Keystream :=
  let (place, stream) := stream.wide
  let start := place.toNat % state.size
  let (draw, stream) := stream.word
  let width := 1 + draw.toNat % (max widthLimit 1).toNat
  let stop := min (start + width) state.size
  let (src, stream) := stream.bytes (stop - start)
  (state.overlay start src, stream)

/-- `n` bursts. -/
def bursts (widthLimit : UInt32) (stream : Keystream) (state : Bytes) : Nat → Bytes × Keystream
  | 0 => (state, stream)
  | n + 1 =>
    let (state, stream) := burst widthLimit stream state
    bursts widthLimit stream state n

/-- A state with between one and `burstLimit` places changed.  An empty state stays as it is and
takes nothing from the stream. -/
def disturb (source : BurstSource) (state : Bytes) : Bytes × BurstSource :=
  if state.size = 0 then (state, source)
  else
    let (draw, stream) := source.stream.word
    let (state, stream) := bursts source.widthLimit stream state
      (1 + draw.toNat % (max source.burstLimit 1).toNat)
    (state, { source with stream })

/-- A state after each of the next `n` changes. -/
def sequence (source : BurstSource) (state : Bytes) : Nat → List Bytes
  | 0 => []
  | n + 1 =>
    let (state, source) := source.disturb state
    state :: sequence source state n

end BurstSource

/-- A zero state of `size` bytes and the states after each of `steps` changes. -/
def drift (size steps : Nat) (seed : UInt64) : List Bytes :=
  Bytes.zeros size :: (BurstSource.ofSeed seed).sequence (Bytes.zeros size) steps

end Retrace.Workload
