import Retrace.Scan.Scalar

/-!
# Scanning sixteen bytes at a time

Sixteen bytes of each side are compared lane by lane into a 16-bit mask, one bit a byte.  A lane is
one byte in the search for a difference and one word in the search for an equal word.  What is left
after the last whole block is scanned eight bytes at a time.
-/

namespace Retrace

/-- The number whose bit `k`, for each `k < n`, tells whether `p k` holds. -/
def maskOf (p : Nat → Bool) : Nat → UInt16
  | 0 => 0
  | n + 1 => maskOf p n ||| (if p n then 1 <<< n.toUInt16 else 0)

namespace Window

/-- Bit `k` is set where byte `k` of the block at offset `i` is equal on both sides. -/
def byteMask (w : Window) (i : Nat) : UInt16 := maskOf (fun k => w.sameByte (i + k)) 16

/-- Both bits of a word of the block at offset `i` are set where the word is equal on both sides. -/
def wordMask (w : Window) (i : Nat) : UInt16 :=
  maskOf (fun k => w.sameByte (i + 2 * (k / 2)) && w.sameByte (i + 2 * (k / 2) + 1)) 16

/-- The equal words at the start, from byte offset `i` on, with `n` blocks of sixteen bytes left. -/
def vectorEqualFrom (w : Window) (i : Nat) : Nat → Nat
  | 0 => i / 2 + (w.drop (i / 2)).scalarEqualSpan
  | n + 1 =>
    let mask := w.byteMask i
    if mask = 0xFFFF then vectorEqualFrom w (i + 16) n
    else (i + trailingZeros (~~~mask).toUInt64) / 2

/-- The differing words at the start, from byte offset `i` on, with `n` blocks of sixteen bytes
left. -/
def vectorDifferingFrom (w : Window) (i : Nat) : Nat → Nat
  | 0 => i / 2 + (w.drop (i / 2)).scalarDifferingSpan
  | n + 1 =>
    let mask := w.wordMask i
    if mask = 0 then vectorDifferingFrom w (i + 16) n
    else i / 2 + trailingZeros mask.toUInt64 / 2

/-- The number of equal words at the start, sixteen bytes at a time. -/
def vectorEqualSpan (w : Window) : Nat := w.vectorEqualFrom 0 (w.size / 16)

/-- The number of differing words at the start, sixteen bytes at a time. -/
def vectorDifferingSpan (w : Window) : Nat := w.vectorDifferingFrom 0 (w.size / 16)

end Window

end Retrace
