import Retrace.Patch.Segment
import Retrace.Scan.Scanner

/-!
# The patch between two byte strings

The words of two strings of one size are cut into spans: words that are left as they are and runs of
words that are replaced.  A run ends before two consecutive equal words, before an equal last word,
or after `maxRun` words; a single equal word inside a run is carried along.  So each header but the
first, and those after a full run, is paid for by two skipped words.

* `Patch.runLength_pos`: a run is never empty, so the search for spans ends;
* `Patch.diff`: the patch;
* `Patch.writeInto`: the patch at the start of an output buffer, if the sizes allow it.
-/

namespace Retrace.Patch

/-! ## Runs -/

/-- The end of the run at the start of a window, searched from word `k` on: the first equal word
that is the last one or stands before another equal word, or the end of the window. -/
def runEnd (s : Scanner) (w : Window) (k : Nat) : Nat :=
  if k < w.words then
    let p := k + s.differingSpan (w.drop k)
    if w.words ≤ p + 1 || w.sameWord (p + 1) then min p w.words else runEnd s w (p + 2)
  else w.words
termination_by w.words - k

/-- The part of two strings that the search for the end of a run looks at.  Two words beyond the
largest run let it see whether the run ends there. -/
def runWindow (old new : Bytes) (pos : Nat) : Window :=
  ⟨old, new, 2 * pos, min (2 * (maxRun + 2)) (old.size - 2 * pos)⟩

/-- The length of the run that starts with the differing word at index `pos`. -/
def runLength (s : Scanner) (old new : Bytes) (pos : Nat) : Nat :=
  min (runEnd s (runWindow old new pos) 1) maxRun

theorem runEnd_pos (s : Scanner) (w : Window) {k : Nat} (hk : 0 < k) (hw : 0 < w.words) :
    0 < runEnd s w k := by
  fun_induction runEnd s w k with
  | case1 k _ p _ => omega
  | case2 k _ p _ ih => exact ih (by omega)
  | case3 => exact hw

theorem runLength_pos (s : Scanner) (old new : Bytes) {pos : Nat}
    (h : pos < wordCount old.size) : 0 < runLength s old new pos := by
  have hw : 0 < (runWindow old new pos).words := by
    simp only [runWindow, Window.words, wordCount, maxRun] at h ⊢
    omega
  have := runEnd_pos s (runWindow old new pos) (k := 1) (by decide) hw
  simp only [runLength, maxRun]
  omega

/-! ## Spans -/

/-- A stretch of words between two strings. -/
inductive Span where
  /-- `skip` words are left as they are, and `words` words from index `start` on are replaced. -/
  | run (skip start words : Nat)
  /-- `count` words are left as they are, with more words to come. -/
  | gap (count : Nat)
  deriving DecidableEq, Repr

/-- The spans from word `pos` on, after the spans `before`, of which the last comes first. -/
def planFrom (s : Scanner) (old new : Bytes) (pos : Nat) (before : List Span) : List Span :=
  if pos < wordCount old.size then
    let skip := s.equalSpan ((Window.whole old new).drop pos)
    if wordCount old.size - pos ≤ skip then before.reverse
    else if maxRun < skip then
      let count := min skip maxGap
      planFrom s old new (pos + count) (.gap count :: before)
    else
      let start := pos + skip
      let words := runLength s old new start
      planFrom s old new (start + words) (.run skip start words :: before)
  else before.reverse
termination_by wordCount old.size - pos
decreasing_by
  · simp only [maxRun, maxGap] at *; omega
  · have h : pos + s.equalSpan ((Window.whole old new).drop pos) < wordCount old.size := by omega
    have := runLength_pos s old new h
    omega

/-- The spans between two strings of one size, up to the last word that differs. -/
def plan (s : Scanner) (old new : Bytes) : List Span := planFrom s old new 0 []

/-! ## The written patch -/

/-- The `words` words of `new` from index `start` on, an odd last byte being followed by a zero. -/
def payload (new : Bytes) (start words : Nat) : Bytes :=
  let bytes := new.extract (wordBytes * start) (wordBytes * (start + words))
  if bytes.size % wordBytes = 0 then bytes else bytes.push 0

/-- The segment that takes the words of a span from `new`. -/
def Span.toSegment (new : Bytes) : Span → Segment
  | .run skip start words => .run skip.toUInt16 (payload new start words)
  | .gap count => .gap count.toUInt32

/-- The segments between two strings of one size. -/
def segments (s : Scanner) (old new : Bytes) : List Segment :=
  (plan s old new).map (Span.toSegment new)

/-- The patch that makes `new` of `old`, two strings of one size. -/
def diff (s : Scanner) (old new : Bytes) : Bytes := encode (segments s old new)

/-- The output buffer with the patch between two strings at its start, and the size of the patch.
The buffer must have room for the largest patch between strings of that size. -/
def writeInto (s : Scanner) (old new out : Bytes) : Bytes × Except PatchError Nat :=
  if old.size ≠ new.size then (out, .error (.lengthMismatch old.size new.size))
  else if out.size < bound old.size then
    (out, .error (.outputTooSmall (bound old.size) out.size))
  else
    let patch := diff s old new
    (out.overlay 0 patch, .ok patch.size)

end Retrace.Patch
