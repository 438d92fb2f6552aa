import Retrace.Bytes
import Retrace.Search

/-!
# Two byte strings side by side

A window shows the same range of two byte strings as 16-bit words.  An odd last byte is a word of
its own.

* `Window.equalSpan`: how many words at the start are equal;
* `Window.differingSpan`: how many words at the start differ.

Both look at one word at a time; the scanners compute them in larger steps.
-/

namespace Retrace

/-- The bytes of `left` and `right` from offset `start` on, `size` of them. -/
structure Window where
  left : Bytes
  right : Bytes
  start : Nat
  size : Nat

namespace Window

/-- All of two byte strings of one size. -/
def whole (left right : Bytes) : Window := ⟨left, right, 0, left.size⟩

/-- The window without its first `k` words. -/
def drop (w : Window) (k : Nat) : Window :=
  { w with start := w.start + 2 * k, size := w.size - 2 * k }

/-- The number of words. -/
def words (w : Window) : Nat := wordCount w.size

/-- Whether the two bytes at offset `i` are equal. -/
def sameByte (w : Window) (i : Nat) : Bool :=
  w.left.byteAt (w.start + i) == w.right.byteAt (w.start + i)

/-- Whether the two words at index `k` are equal. -/
def sameWord (w : Window) (k : Nat) : Bool :=
  w.sameByte (2 * k) && (decide (w.size ≤ 2 * k + 1) || w.sameByte (2 * k + 1))

/-- The number of equal words at the start. -/
def equalSpan (w : Window) : Nat := firstFrom (fun k => !w.sameWord k) 0 w.words

/-- The number of differing words at the start, so the index of the first equal word. -/
def differingSpan (w : Window) : Nat := firstFrom w.sameWord 0 w.words

end Window

end Retrace
