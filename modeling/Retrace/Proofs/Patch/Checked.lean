import Retrace.Proofs.Checks
import Retrace.Proofs.Patch.RoundTrip
import Retrace.Proofs.Patch.SizeBound

/-!
# Patches with checks

How a patch is made and applied, with checks of the parts of the strings that are looked at, copied or written.
A scanner reads within the window that it is given; the window is what is checked.

* `bound?_eq`, `bound?_eq_none`: the size of the largest patch is computed as sizes are, if it is one;
* `writeInto?_eq`: for strings of one size, a patch is made within a buffer with room for the largest one;
* `applied?_eq`: any bytes can be applied to any base;
* `patched?_eq`: so they can with checks of the reading too, as long as there are no more bytes than one allocation holds.
-/

namespace Retrace

namespace Patch

/-! ### The largest size -/

/-- The largest size of a patch between two strings of `size` bytes, if it is a size. -/
def bound? (size : Nat) : Option Nat := do
  let payload ← mul? (wordCount size) wordBytes
  let headers ← mul? ((wordCount size + (maxRun - 1)) / maxRun) runHeaderSize
  let runs ← add? payload headers
  add? runs terminatorSize

theorem sum?_eq {a b c d e : Nat} (h : a * b + c * d + e ≤ maxSize) :
    (do
      let first ← mul? a b
      let second ← mul? c d
      let both ← add? first second
      add? both e) = some (a * b + c * d + e) := by
  have hboth := Nat.le_trans (Nat.le_add_right _ _) h
  have hfirst := Nat.le_trans (Nat.le_add_right _ _) hboth
  have hsecond := Nat.le_trans (Nat.le_add_left _ _) hboth
  simp only [mul?_eq hfirst, mul?_eq hsecond, add?_eq hboth, add?_eq h, Option.bind_eq_bind, Option.bind_some]

theorem bound?_eq {size : Nat} (h : bound size ≤ maxSize) : bound? size = some (bound size) := sum?_eq h

theorem bound?_eq_none {size : Nat} (h : maxSize < bound size) : bound? size = none := by
  refine Option.eq_none_iff_forall_ne_some.mpr fun limit hlimit => ?_
  simp only [bound?, mul?, add?, Option.bind_eq_bind, Option.bind_eq_some_iff, Option.ite_none_right_eq_some,
    Option.some.injEq] at hlimit
  obtain ⟨payload, ⟨-, rfl⟩, headers, ⟨-, rfl⟩, runs, ⟨-, rfl⟩, hle, -⟩ := hlimit
  exact absurd hle (Nat.not_le.mpr h)

/-- The size of the largest patch between two strings is a size. -/
theorem bound_le_maxSize {size : Nat} (h : size ≤ maxAllocation) : bound size ≤ maxSize := by
  have hmax : maxAllocation = 9223372036854775807 := rfl
  rw [bound_eq, blocks_eq, wordCount, terminatorSize, maxSize]
  omega

/-! ### Making a patch -/

/-- The window without its first `k` words, if it has as many. -/
def window? (w : Window) (k : Nat) : Option Window := if 2 * k ≤ w.size then some (w.drop k) else none

/-- The part of two strings that the search for the end of a run looks at, if the run starts in them. -/
def runWindow? (old new : Bytes) (pos : Nat) : Option Window :=
  if 2 * pos ≤ old.size then some (runWindow old new pos) else none

/-- The end of the run at the start of a window, searched from word `k` on. -/
def runEnd? (s : Scanner) (w : Window) (k : Nat) : Option Nat :=
  if k < w.words then
    (window? w k).bind fun rest =>
      let p := k + s.differingSpan rest
      if w.words ≤ p + 1 || w.sameWord (p + 1) then some (min p w.words) else runEnd? s w (p + 2)
  else some w.words
termination_by w.words - k

/-- The length of the run that starts with the differing word at index `pos`. -/
def runLength? (s : Scanner) (old new : Bytes) (pos : Nat) : Option Nat := do
  let w ← runWindow? old new pos
  let stop ← runEnd? s w 1
  return min stop maxRun

/-- The spans from word `pos` on, after the spans `before`, of which the last comes first.  A run without words
would hold up the search. -/
def planFrom? (s : Scanner) (old new : Bytes) (pos : Nat) (before : List Span) : Option (List Span) :=
  if pos < wordCount old.size then
    (window? (Window.whole old new) pos).bind fun rest =>
      let skip := s.equalSpan rest
      if wordCount old.size - pos ≤ skip then some before.reverse
      else if maxRun < skip then
        let count := min skip maxGap
        planFrom? s old new (pos + count) (.gap count :: before)
      else
        let start := pos + skip
        (runLength? s old new start).bind fun words =>
          if words = 0 then none else planFrom? s old new (start + words) (.run skip start words :: before)
  else some before.reverse
termination_by wordCount old.size - pos
decreasing_by
  · simp only [maxRun, maxGap] at *; omega
  · omega

/-- The segment that takes the words of a span from `new`, if it has them. -/
def Span.toSegment? (new : Bytes) : Span → Option Segment
  | .run skip start words =>
    (new.slice? (wordBytes * start) (min (wordBytes * (start + words)) new.size)).map fun _ =>
      .run skip.toUInt16 (payload new start words)
  | .gap count => some (.gap count.toUInt32)

/-- The segments between two strings of one size. -/
def segments? (s : Scanner) (old new : Bytes) : Option (List Segment) := do
  let spans ← planFrom? s old new 0 []
  spans.mapM (Span.toSegment? new)

/-- The output buffer with the patch between two strings at its start, written number by number. -/
def writeInto? (s : Scanner) (old new out : Bytes) : Option (Bytes × Except PatchError Nat) :=
  if old.size ≠ new.size then some (out, .error (.lengthMismatch old.size new.size))
  else do
    let limit ← bound? old.size
    if out.size < limit then return (out, .error (.outputTooSmall limit out.size))
    else
      let parts ← segments? s old new
      let written ← Writer.putAll ⟨out, 0⟩ (writes parts)
      return (written.out, .ok written.pos)

section Writing

variable (s : Scanner) {old new : Bytes}

theorem window?_eq {w : Window} {k : Nat} (hk : k < w.words) : window? w k = some (w.drop k) := by
  have hwords : w.words = (w.size + 1) / 2 := rfl
  exact if_pos (by omega)

theorem runEnd?_eq (w : Window) (k : Nat) : runEnd? s w k = some (runEnd s w k) := by
  fun_induction runEnd s w k with
  | case1 k hlt p hend =>
    rw [runEnd?, if_pos hlt, window?_eq hlt, Option.bind_some]
    exact if_pos hend
  | case2 k hlt p hend ih =>
    rw [runEnd?, if_pos hlt, window?_eq hlt, Option.bind_some, ← ih]
    exact if_neg hend
  | case3 k hge => rw [runEnd?, if_neg hge]

theorem runLength?_eq {pos : Nat} (hpos : pos < wordCount old.size) :
    runLength? s old new pos = some (runLength s old new pos) := by
  have hcount : wordCount old.size = (old.size + 1) / 2 := rfl
  have hwindow : runWindow? old new pos = some (runWindow old new pos) := if_pos (by omega)
  simp only [runLength?, runLength, hwindow, runEnd?_eq, Option.bind_eq_bind, Option.bind_some, Option.pure_def]

/-- The words of a run are there, the last one perhaps a half word. -/
theorem slice?_words {start words : Nat} (hstart : start < wordCount new.size) :
    new.slice? (wordBytes * start) (min (wordBytes * (start + words)) new.size) =
      some (new.extract (2 * start) (2 * (start + words))) := by
  have hcount : wordCount new.size = (new.size + 1) / 2 := rfl
  rw [Bytes.slice?_eq (by rw [wordBytes]; omega) (Nat.min_le_right _ _), wordBytes]
  refine congrArg some (Bytes.ext_byteAt (by simp only [ByteArray.size_extract]; omega) fun i hi => ?_)
  simp only [ByteArray.size_extract, Bytes.byteAt_extract] at hi ⊢
  rw [if_pos (by omega), if_pos (by omega)]

end Writing

/-! ### Applying a patch -/

/-- The base with a payload from an offset on, as far as the base has room for it. -/
def put? (base : Bytes) (pos : Nat) (payload : Bytes) : Option Bytes := do
  let start := min pos base.size
  let stop := min (satAdd start payload.size) base.size
  let size ← sub? stop start
  let src ← payload.slice? 0 size
  base.overlay? start src

/-- The base after the segments, with the cursor at word `pos` before them. -/
def replay? (base : Bytes) (pos : Nat) : List Segment → Option Bytes
  | [] => some base
  | .gap count :: rest => replay? base (satAdd pos count.toNat) rest
  | .run skip payload :: rest => do
    let start := satAdd pos skip.toNat
    let base ← put? base (satMul start wordBytes) payload
    replay? base (satAdd start (wordCount payload.size)) rest

/-- The base after a patch. -/
def applied? (patch base : Bytes) : Option Bytes := replay? base 0 (decode patch).segments

theorem put?_eq {base : Bytes} (hsize : base.size ≤ maxSize) (pos : Nat) (payload : Bytes) :
    put? base pos payload = some (base.overlay pos payload) := by
  unfold put?
  dsimp only
  generalize hstart : min pos base.size = start
  generalize hstop : min (satAdd start payload.size) base.size = stop
  have hsum : satAdd start payload.size = min (start + payload.size) maxSize := rfl
  have hforward : start ≤ stop := by omega
  have hsrc : payload.slice? 0 (stop - start) = some (payload.extract 0 (stop - start)) :=
    Bytes.slice?_eq (Nat.zero_le _) (by omega)
  have hcopied : (payload.extract 0 (stop - start)).size = stop - start := by
    rw [ByteArray.size_extract]
    omega
  have hwrite : base.overlay? start (payload.extract 0 (stop - start)) =
      some (base.overlay start (payload.extract 0 (stop - start))) := Bytes.overlay?_eq (by omega)
  simp only [sub?_eq hforward, hsrc, hwrite, Option.bind_eq_bind, Option.bind_some]
  -- what the base has no room for would have been dropped
  refine congrArg some (Bytes.ext_byteAt ((Bytes.size_overlay _ _ _).trans (Bytes.size_overlay _ _ _).symm) ?_)
  intro i hi
  rw [Bytes.size_overlay] at hi
  rw [Bytes.byteAt_overlay, Bytes.byteAt_overlay, Bytes.byteAt_extract, hcopied]
  by_cases hin : pos ≤ i ∧ i < pos + payload.size
  · rw [if_pos (by omega), if_pos (by omega), if_pos (by omega)]
    exact congrArg payload.byteAt (by omega)
  · rw [if_neg (by omega), if_neg (by omega)]

theorem replay?_eq {base : Bytes} (hsize : base.size ≤ maxSize) (pos : Nat) (segments : List Segment) :
    replay? base pos segments = some (replay base pos segments) := by
  induction segments generalizing base pos with
  | nil => rfl
  | cons s rest ih =>
    cases s with
    | gap count => exact ih hsize _
    | run skip payload =>
      simp only [replay?, replay, put?_eq hsize, Option.bind_eq_bind, Option.bind_some]
      exact ih (by rw [Bytes.size_overlay]; exact hsize) _

/-- What stands at offset `pos` of a patch, with checks that the offsets behind it are sizes. -/
def read? (patch : Bytes) (pos : Nat) : Option Reading := do
  let second ← add? pos 2
  if patch.size < second then return .cut pos
  else
    let words := patch.readLE pos 2
    let third ← add? second 2
    if patch.size < third then return .cut second
    else if words = 0 then
      let behind ← add? third 2
      if patch.size < behind then return .cut third
      else
        let count := patch.readLE second 4
        if count = 0 then return .terminator behind else return .segment (.gap count.toUInt32) behind
    else
      let skip := patch.readLE second 2
      let size ← mul? words wordBytes
      let behind ← add? third size
      if patch.size < behind then return .cut third
      else return .segment (.run skip.toUInt16 (patch.extract third behind)) behind

/-- Reading from offset `pos` on, after the segments `before`, of which the last comes first.  A segment that ends where
it begins would hold up the reading. -/
def decodeFrom? (patch : Bytes) (pos : Nat) (before : List Segment) : Option Decoded :=
  (read? patch pos).bind fun
    | .segment s next => if pos < next ∧ next ≤ patch.size then decodeFrom? patch next (s :: before) else none
    | .terminator next => some ⟨before.reverse, next, true⟩
    | .cut next => some ⟨before.reverse, next, false⟩
termination_by patch.size - pos

/-- The base after a patch, with checks of the reading and of the writing. -/
def patched? (patch base : Bytes) : Option Bytes := do
  let d ← decodeFrom? patch 0 []
  replay? base 0 d.segments

theorem read?_eq {patch : Bytes} {pos : Nat} (hpatch : patch.size ≤ maxAllocation) (hpos : pos ≤ patch.size) :
    read? patch pos = some (Segment.read patch pos) := by
  have hwords := patch.readLE_lt pos 2
  have hvalues : Bytes.valueCount 2 = 65536 := rfl
  have hmax : maxAllocation + 131076 ≤ maxSize := by decide
  have hsecond : add? pos 2 = some (pos + 2) := add?_eq (by omega)
  rw [read?, Segment.read, hsecond, Option.bind_eq_bind, Option.bind_some]
  split
  · rfl
  have hthird : add? (pos + 2) 2 = some (pos + 4) := add?_eq (by omega)
  have hbehind : add? (pos + 4) 2 = some (pos + 6) := add?_eq (by omega)
  have hsize : mul? (patch.readLE pos 2) wordBytes = some (2 * patch.readLE pos 2) :=
    (mul?_eq (by rw [wordBytes]; omega)).trans (congrArg some (Nat.mul_comm _ _))
  have hrun : add? (pos + 4) (2 * patch.readLE pos 2) = some (pos + 4 + 2 * patch.readLE pos 2) :=
    add?_eq (by omega)
  simp only [hthird, hbehind, hsize, hrun, Option.bind_some, Option.pure_def]
  split
  · rfl
  split
  · split
    · rfl
    · split <;> rfl
  · split <;> rfl

theorem decodeFrom?_eq {patch : Bytes} {pos : Nat} (hpatch : patch.size ≤ maxAllocation) (hpos : pos ≤ patch.size)
    (before : List Segment) : decodeFrom? patch pos before = some (decodeFrom patch pos before) := by
  fun_induction decodeFrom patch pos before with
  | case1 pos before s next hread ih =>
    have hin := Segment.read_advances hread
    rw [decodeFrom?, read?_eq hpatch hpos, hread, Option.bind_some]
    exact (if_pos hin).trans (ih hin.2)
  | case2 pos before next hread => rw [decodeFrom?, read?_eq hpatch hpos, hread, Option.bind_some]
  | case3 pos before next hread => rw [decodeFrom?, read?_eq hpatch hpos, hread, Option.bind_some]

theorem patched?_eq {patch base : Bytes} (hpatch : patch.size ≤ maxAllocation) (hbase : base.size ≤ maxSize) :
    patched? patch base = some (apply patch base) := by
  rw [patched?, decodeFrom?_eq hpatch (Nat.zero_le _), Option.bind_eq_bind, Option.bind_some]
  exact replay?_eq hbase 0 _

end Patch

end Retrace
