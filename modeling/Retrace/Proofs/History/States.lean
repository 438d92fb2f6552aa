import Retrace.History
import Retrace.Proofs.Patch.RoundTrip
import Retrace.Proofs.Ring.Append
import Retrace.Proofs.Snapshots

/-!
# The states of a history

Every patch in the ring was made for the state that the patches after it lead to, so the states are what
is found by taking the patches back one after another, from the front on.

* `past`: the states before the front;
* `Intact`: the patches are laid out in the ring, and the snapshots have the size of a state;
* `Intact.stepBack`, `Intact.pushDiff`: a patch is taken back, and a patch is made.
-/

namespace Retrace

namespace History

/-! ### Taking patches back -/

/-- The states that the records of a ring, the oldest first, make of the front. -/
def past (front : Bytes) (q : List (Nat × Bytes)) : List Bytes :=
  (unwind front (q.map Prod.snd).reverse).reverse

theorem past_concat (front : Bytes) (q : List (Nat × Bytes)) (record : Nat × Bytes) :
    past front (q ++ [record]) =
      past (Patch.apply record.2 front) q ++ [Patch.apply record.2 front] := by
  simp [past, unwind]

theorem length_unwind (front : Bytes) (patches : List Bytes) :
    (unwind front patches).length = patches.length := by
  induction patches generalizing front with
  | nil => rfl
  | cons patch rest ih => rw [unwind, List.length_cons, ih, List.length_cons]

theorem length_past (front : Bytes) (q : List (Nat × Bytes)) : (past front q).length = q.length := by
  simp [past, length_unwind]

theorem unwind_take (front : Bytes) (patches : List Bytes) (n : Nat) :
    unwind front (patches.take n) = (unwind front patches).take n := by
  induction patches generalizing front n with
  | nil => simp [unwind]
  | cons patch rest ih =>
    cases n with
    | zero => rfl
    | succ n => simp [unwind, ih]

/-- Without the oldest patches, the oldest states are lost. -/
theorem past_drop (front : Bytes) (q : List (Nat × Bytes)) (k : Nat) :
    past front (q.drop k) = (past front q).drop k := by
  simp only [past, List.map_drop, List.reverse_drop, unwind_take, List.drop_reverse, length_unwind]
  simp

/-! ### The invariant -/

/-- The patches of a history are laid out in its ring, which takes the largest patch, and both snapshots
have the size of a state. -/
structure Intact (size : Nat) (h : History) (q : List (Nat × Bytes)) : Prop where
  ring : Ring.Layout h.ring q
  limit : h.ring.patchLimit = Patch.bound size
  front : h.front.size = size
  staging : h.staging.size = size

variable {size : Nat} {h : History} {q : List (Nat × Bytes)} {record : Nat × Bytes}

theorem Intact.states_eq (hi : Intact size h q) :
    h.states = past h.front.bytes q ++ if h.live then [h.front.bytes] else [] := by
  rw [states, hi.ring.records_eq]
  rfl

theorem Intact.entries_eq (hi : Intact size h q) : h.entries = h.states.length := by
  rw [hi.states_eq, entries, hi.ring.count, List.length_append, length_past]
  cases h.live <;> rfl

theorem Intact.size_le (hi : Intact size h q) : size ≤ maxSize := by
  have hmax : maxAllocation ≤ maxSize := by decide
  have hsmall := hi.ring.small
  have hlimit := hi.ring.limit
  rw [hi.limit, Patch.bound_eq, wordCount] at hlimit
  omega

/-! ### One patch back -/

/-- The history after its newest patch was taken back. -/
def back (h : History) (patch : Bytes) : History :=
  { h with ring := h.ring.dropNewest.1, front := h.front.apply patch }

theorem Intact.stepBack_nil (hi : Intact size h []) : h.stepBack = none := by
  have hcount : h.ring.count = 0 := hi.ring.count
  rw [stepBack, Ring.newest, if_pos hcount]
  rfl

theorem Intact.stepBack_concat (hi : Intact size h (q ++ [record])) :
    h.stepBack = some (h.back record.2) := by
  rw [stepBack, hi.ring.newest]
  rfl

theorem Intact.back (hi : Intact size h (q ++ [record])) : Intact size (h.back record.2) q :=
  ⟨hi.ring.dropNewest.2, h.ring.region_dropNewest.2.trans hi.limit, hi.front, hi.staging⟩

theorem Intact.setLive (hi : Intact size h q) (live : Bool) : Intact size { h with live } q :=
  ⟨hi.ring, hi.limit, hi.front, hi.staging⟩

theorem prepare_of_live (hlive : h.live = true) : h.prepare = h := if_pos hlive

theorem Intact.prepare_nil (hi : Intact size h []) : h.prepare = h := by
  rw [prepare, hi.stepBack_nil]
  split <;> rfl

theorem Intact.prepare_concat (hi : Intact size h (q ++ [record])) (hlive : h.live = false) :
    h.prepare = { h.back record.2 with live := true } := by
  rw [prepare, hi.stepBack_concat, hlive]
  rfl

/-- The state that a patch makes is the newest of those before the front. -/
theorem Intact.states_back (hi : Intact size h (q ++ [record])) (hlive : h.live = false) :
    h.states = past (h.back record.2).front.bytes q ++ [(h.back record.2).front.bytes] := by
  rw [hi.states_eq, hlive, past_concat]
  simp [History.back, Snapshot.bytes_apply]

/-! ### One more patch -/

/-- The patch that makes the front of the staged state. -/
def undo (h : History) : Bytes := Patch.diff h.scanner h.staged h.front.bytes

/-- The ring with that patch in it. -/
def extended (h : History) : Ring := (h.ring.filled (h.ring.slot.overlay 0 h.undo)).link h.undo.size

section Undo

variable (hi : Intact size h q)
include hi

theorem Intact.size_staged : h.staged.size = size := by
  rw [staged, Snapshot.size_bytes, hi.staging]

theorem Intact.size_eq : h.staged.size = h.front.bytes.size := by
  rw [hi.size_staged, Snapshot.size_bytes, hi.front]

theorem Intact.apply_undo : Patch.apply h.undo h.staged = h.front.bytes :=
  Patch.apply_diff h.scanner hi.size_eq (by rw [hi.size_staged]; exact hi.size_le)

theorem Intact.size_undo_le : h.undo.size ≤ h.ring.patchLimit := by
  have hle := Patch.size_diff_le h.scanner hi.size_eq
  rwa [hi.size_staged, ← hi.limit] at hle

theorem Intact.layout_extended :
    Ring.Layout h.extended (q.drop h.ring.evictions ++ [(h.ring.place, h.undo)]) :=
  hi.ring.link_patch hi.size_undo_le

theorem Intact.pushDiff_eq :
    h.ring.pushDiff h.scanner h.staged h.front.bytes =
      (h.extended, .ok ⟨h.ring.place, h.undo.size, h.ring.evictions⟩) := by
  have hslot : Patch.bound h.staged.size ≤ h.ring.slot.size := by
    rw [hi.size_staged, hi.ring.size_slot, hi.limit]
  have hwrite : Patch.writeInto h.scanner h.staged h.front.bytes h.ring.slot =
      (h.ring.slot.overlay 0 h.undo, .ok h.undo.size) :=
    Patch.writeInto_eq h.scanner hi.size_eq hslot
  rw [Ring.pushDiff, Ring.pushWith_eq, hi.ring.patchLimit_vacate]
  dsimp only
  rw [hwrite]
  dsimp only [Except.mapError]
  rw [if_neg (Nat.not_lt.mpr hi.size_undo_le)]
  rfl

end Undo

end History

end Retrace
