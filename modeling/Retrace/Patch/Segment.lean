import Retrace.Bytes

/-!
# Segments of a patch

A patch is a list of segments and a terminator.  A run leaves some words as they are and replaces
the next ones; a gap leaves words as they are, more than a run can.  In the written form every
number is a little-endian word:

* a run is the number of words in its payload, the number of words that it skips, the payload;
* a gap is a zero word and its 32-bit count;
* the terminator is three zero words, so a run is never empty and a gap never skips nothing.

No patch is larger than one in which every word differs, whose size is `Patch.bound`.
-/

namespace Retrace

/-! ## Sizes -/

namespace Patch

/-- The most words that one run carries or skips. -/
def maxRun : Nat := 65535

/-- The most words that one gap skips, 2^32 - 1. -/
def maxGap : Nat := 4294967295

/-- The bytes of a run's header. -/
def runHeaderSize : Nat := 4

/-- The bytes of the terminator. -/
def terminatorSize : Nat := 6

/-- The largest size of a patch between two strings of `size` bytes. -/
def bound (size : Nat) : Nat :=
  let words := wordCount size
  let blocks := (words + (maxRun - 1)) / maxRun
  words * wordBytes + blocks * runHeaderSize + terminatorSize

/-- The largest size of a patch as sums and products without overflow checks give it. -/
def wrappedBound (size : Nat) : Nat :=
  let words := wordCount size
  let blocks := (words + (maxRun - 1)) / maxRun
  wrapAdd (wrapAdd (wrapMul words wordBytes) (wrapMul blocks runHeaderSize)) terminatorSize

theorem wrappedBound_eq (size : Nat) : wrappedBound size = bound size % (maxSize + 1) := by
  simp only [wrappedBound, bound, wrapAdd, wrapMul, Nat.mod_add_mod, Nat.add_mod_mod]

end Patch

/-- Why no patch was written, or no snapshot made. -/
inductive PatchError where
  | lengthMismatch (old new : Nat)
  | outputTooSmall (needed available : Nat)
  | allocationFailed (bytes : Nat)
  deriving DecidableEq, Repr

/-- The text of an error. -/
def PatchError.message : PatchError → String
  | .lengthMismatch old new => s!"buffer length mismatch: old {old} bytes, new {new} bytes"
  | .outputTooSmall needed available =>
    s!"patch buffer too small: need {needed} bytes, have {available} bytes"
  | .allocationFailed bytes => s!"failed to allocate {bytes} byte snapshot buffer"

/-! ## Segments -/

/-- A run or a gap of a patch. -/
inductive Segment where
  /-- Leave `skip` words, then replace as many words as `payload` holds. -/
  | run (skip : UInt16) (payload : Bytes)
  /-- Leave `count` words. -/
  | gap (count : UInt32)

namespace Segment

/-- The number of words that a segment replaces. -/
def changedWords : Segment → Nat
  | .run _ payload => wordCount payload.size
  | .gap _ => 0

/-- The number of words that a segment leaves as they are. -/
def skippedWords : Segment → Nat
  | .run skip _ => skip.toNat
  | .gap count => count.toNat

/-- The segments that have a written form: a run's payload is of whole words, at least one and at
most `maxRun`, and a gap skips something. -/
def WellFormed : Segment → Prop
  | .run _ payload => ∃ words, 0 < words ∧ words ≤ Patch.maxRun ∧ payload.size = 2 * words
  | .gap count => count ≠ 0

/-- The written form of a segment, after `out`. -/
def emit (out : Bytes) : Segment → Bytes
  | .run skip payload =>
    ((out.pushLE (wordCount payload.size) 2).pushLE skip.toNat 2) ++ payload
  | .gap count => (out.pushLE 0 2).pushLE count.toNat 4

end Segment

/-- The written form of a patch: its segments in order, and the terminator. -/
def Patch.encode (segments : List Segment) : Bytes :=
  (segments.foldl Segment.emit Bytes.empty).pushLE 0 Patch.terminatorSize

end Retrace
