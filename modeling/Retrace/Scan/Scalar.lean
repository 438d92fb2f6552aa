import Retrace.Scan.Window

/-!
# Scanning eight bytes at a time

Eight bytes of each side are read as one little-endian number, and the exclusive or of the two
numbers tells where they differ: its lowest set bit lies in the first differing byte.  For the first
equal word, `zeroLanes` marks the 16-bit lanes of that number which are zero.
-/

namespace Retrace

/-- The number of zero bits below the lowest set bit, and 64 for zero. -/
def trailingZeros (x : UInt64) : Nat :=
  firstFrom (fun i => (x >>> i.toUInt64) &&& 1 == 1) 0 64

/-- The little-endian number in the `width` bytes from offset `pos` on. -/
def Bytes.gather (b : Bytes) (pos : Nat) : Nat → UInt64
  | 0 => 0
  | width + 1 => (b.byteAt pos).toUInt64 ||| (gather b (pos + 1) width <<< 8)

/-- The low fifteen bits of each 16-bit lane. -/
def laneLow : UInt64 := 0x7FFF7FFF7FFF7FFF

/-- The high bit of each 16-bit lane. -/
def laneHigh : UInt64 := 0x8000800080008000

/-- The high bit of each 16-bit lane of `x` that is zero.  A lane with a low bit set carries into
its own high bit when `laneLow` is added, and no lane carries further. -/
def zeroLanes (x : UInt64) : UInt64 :=
  let nonzero := (((x &&& laneLow) + laneLow) ||| x) &&& laneHigh
  ~~~nonzero &&& laneHigh

namespace Window

/-- Where the eight bytes from offset `i` on differ, as the exclusive or of both sides. -/
def difference (w : Window) (i : Nat) : UInt64 :=
  w.left.gather (w.start + i) 8 ^^^ w.right.gather (w.start + i) 8

/-- The equal words at the start, from byte offset `i` on, with `n` blocks of eight bytes left and
then the last bytes one by one. -/
def scalarEqualFrom (w : Window) (i : Nat) : Nat → Nat
  | 0 =>
    let j := firstFrom (fun k => !w.sameByte k) i (w.size - i)
    if j < w.size then j / 2 else w.words
  | n + 1 =>
    let d := w.difference i
    if d = 0 then scalarEqualFrom w (i + 8) n else (i + trailingZeros d / 8) / 2

/-- The differing words at the start, from byte offset `i` on, with `n` blocks of eight bytes left
and then the last words one by one. -/
def scalarDifferingFrom (w : Window) (i : Nat) : Nat → Nat
  | 0 => firstFrom w.sameWord (i / 2) (w.words - i / 2)
  | n + 1 =>
    let z := zeroLanes (w.difference i)
    if z = 0 then scalarDifferingFrom w (i + 8) n else i / 2 + trailingZeros z / 16

/-- The number of equal words at the start, eight bytes at a time. -/
def scalarEqualSpan (w : Window) : Nat := w.scalarEqualFrom 0 (w.size / 8)

/-- The number of differing words at the start, eight bytes at a time. -/
def scalarDifferingSpan (w : Window) : Nat := w.scalarDifferingFrom 0 (w.size / 8)

end Window

end Retrace
