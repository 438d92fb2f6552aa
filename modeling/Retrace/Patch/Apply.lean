import Retrace.Patch.Reading

/-!
# Applying a patch

The segments of a patch move a cursor over the words of a base string and overwrite what a run
covers.  The cursor stops at the largest size, and what would reach past the end is dropped, so any
bytes can be applied to any base.

* `Patch.size_apply`: the base keeps its size.
-/

namespace Retrace.Patch

/-- The base after the segments, with the cursor at word `pos` before them. -/
def replay (base : Bytes) (pos : Nat) : List Segment → Bytes
  | [] => base
  | .gap count :: rest => replay base (satAdd pos count.toNat) rest
  | .run skip payload :: rest =>
    let start := satAdd pos skip.toNat
    replay (base.overlay (satMul start wordBytes) payload)
      (satAdd start (wordCount payload.size)) rest

/-- The base after a patch. -/
def apply (patch base : Bytes) : Bytes := replay base 0 (decode patch).segments

theorem size_replay (base : Bytes) (pos : Nat) (segments : List Segment) :
    (replay base pos segments).size = base.size := by
  induction segments generalizing base pos with
  | nil => rfl
  | cons s rest ih =>
    cases s with
    | gap count => exact ih base _
    | run skip payload => exact (ih _ _).trans (Bytes.size_overlay _ _ _)

@[simp]
theorem size_apply (patch base : Bytes) : (apply patch base).size = base.size :=
  size_replay base 0 _

end Retrace.Patch
