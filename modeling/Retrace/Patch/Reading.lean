import Retrace.Patch.Segment

/-!
# Reading a patch

A patch is read segment by segment up to its terminator, or up to the first segment that is cut off
by the end of the bytes.

* `Segment.read_advances`: each segment read ends after it began and within the bytes;
* `Patch.decode`: the segments of any bytes, where the reading stopped, and whether it met the
  terminator;
* `Patch.summary`: the counts over these segments.
-/

namespace Retrace

/-- What stands at one place of a patch, and where the reading goes on from there. -/
inductive Reading where
  /-- A whole segment. -/
  | segment (s : Segment) (next : Nat)
  /-- The terminator. -/
  | terminator (next : Nat)
  /-- A segment that the end of the bytes cuts off; `next` is after its last whole header word. -/
  | cut (next : Nat)

/-- What stands at offset `pos` of a patch. -/
def Segment.read (patch : Bytes) (pos : Nat) : Reading :=
  if patch.size < pos + 2 then .cut pos
  else
    let words := patch.readLE pos 2
    if patch.size < pos + 4 then .cut (pos + 2)
    else if words = 0 then
      if patch.size < pos + 6 then .cut (pos + 4)
      else
        let count := patch.readLE (pos + 2) 4
        if count = 0 then .terminator (pos + 6) else .segment (.gap count.toUInt32) (pos + 6)
    else
      let skip := patch.readLE (pos + 2) 2
      let next := pos + 4 + 2 * words
      if patch.size < next then .cut (pos + 4)
      else .segment (.run skip.toUInt16 (patch.extract (pos + 4) next)) next

theorem Segment.read_advances {patch : Bytes} {pos next : Nat} {s : Segment}
    (h : Segment.read patch pos = .segment s next) : pos < next ∧ next ≤ patch.size := by
  unfold Segment.read at h
  dsimp only at h
  split at h
  · contradiction
  split at h
  · contradiction
  split at h
  · split at h
    · contradiction
    split at h
    · contradiction
    · injection h
      omega
  · split at h
    · contradiction
    · injection h
      omega

namespace Patch

/-- The segments of a patch, the offset at which reading stopped, and whether the terminator was
read there. -/
structure Decoded where
  segments : List Segment
  position : Nat
  terminated : Bool

/-- Reading from offset `pos` on, after the segments `before`, of which the last comes first. -/
def decodeFrom (patch : Bytes) (pos : Nat) (before : List Segment) : Decoded :=
  match _h : Segment.read patch pos with
  | .segment s next => decodeFrom patch next (s :: before)
  | .terminator next => ⟨before.reverse, next, true⟩
  | .cut next => ⟨before.reverse, next, false⟩
termination_by patch.size - pos
decreasing_by
  have := Segment.read_advances _h
  omega

/-- The segments of a patch. -/
def decode (patch : Bytes) : Decoded := decodeFrom patch 0 []

/-- The counts over the segments of a patch, all of them 64-bit. -/
structure Summary where
  runs : Nat
  gaps : Nat
  changedWords : Nat
  skippedWords : Nat
  encodedSize : Nat
  terminated : Bool
  deriving DecidableEq, Repr

/-- The summary with one more segment.  Of the counts, only the words skipped can be more than the size
of the patch: where they are beyond the largest 64-bit number, the low 64 bits of them are kept. -/
def Summary.count (t : Summary) : Segment → Summary
  | s@(.run _ _) =>
    { t with
      runs := t.runs + 1
      changedWords := t.changedWords + s.changedWords
      skippedWords := wrapAdd t.skippedWords s.skippedWords }
  | s@(.gap _) =>
    { t with gaps := t.gaps + 1, skippedWords := wrapAdd t.skippedWords s.skippedWords }

/-- The summary of a patch, well formed or not. -/
def summary (patch : Bytes) : Summary :=
  let d := decode patch
  d.segments.foldl Summary.count ⟨0, 0, 0, 0, d.position, d.terminated⟩

end Patch

end Retrace
