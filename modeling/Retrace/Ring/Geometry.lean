/-!
# Offsets in a ring

Records lie in one stretch each.  A place is used for a record only if `reserve` bytes follow it, so
a record of that size always fits there; else the next record starts at zero.

* `Geometry.after_eq`: the next place is right after the record, or zero;
* `Geometry.reserve_le_after`: there is room for a record at the next place.
-/

namespace Retrace

/-- The size of a ring and the room that must follow a place where a record starts. -/
structure Geometry where
  capacity : Nat
  reserve : Nat
  deriving DecidableEq, Repr

namespace Geometry

/-- The place for the next record after one of `size` bytes at `pos`. -/
def after (g : Geometry) (pos size : Nat) : Nat :=
  if g.capacity - (pos + size) < g.reserve then 0 else pos + size

/-- The bytes from one place forward to another. -/
def forward (g : Geometry) (start stop : Nat) : Nat :=
  (stop + g.capacity - start) % g.capacity

theorem after_eq (g : Geometry) (pos size : Nat) :
    g.after pos size = 0 ∨ g.after pos size = pos + size := by
  unfold after
  split <;> simp

theorem reserve_le_after {g : Geometry} (h : g.reserve ≤ g.capacity) (pos size : Nat) :
    g.reserve ≤ g.capacity - g.after pos size := by
  unfold after
  split <;> omega

end Geometry

end Retrace
