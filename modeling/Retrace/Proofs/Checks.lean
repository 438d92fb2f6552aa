import Retrace.Bytes

/-!
# Checks

Sums, differences and products that must be sizes, and accesses that must lie within a byte string.  What is
out of range leaves nothing.  Where one step comes after another, what both give was given by the second.
-/

namespace Retrace

/-! ### Sizes -/

/-- The sum of two sizes, if it is a size. -/
def add? (a b : Nat) : Option Nat := if a + b ≤ maxSize then some (a + b) else none

/-- The difference of two sizes, if it is a size. -/
def sub? (a b : Nat) : Option Nat := if b ≤ a then some (a - b) else none

/-- The product of two sizes, if it is a size. -/
def mul? (a b : Nat) : Option Nat := if a * b ≤ maxSize then some (a * b) else none

theorem add?_eq {a b : Nat} (h : a + b ≤ maxSize) : add? a b = some (a + b) := if_pos h

theorem sub?_eq {a b : Nat} (h : b ≤ a) : sub? a b = some (a - b) := if_pos h

theorem mul?_eq {a b : Nat} (h : a * b ≤ maxSize) : mul? a b = some (a * b) := if_pos h

/-- A sum that is a size is not wrapped around. -/
theorem wrapAdd_eq {a b : Nat} (h : a + b ≤ maxSize) : wrapAdd a b = a + b :=
  Nat.mod_eq_of_lt (Nat.lt_succ_of_le h)

theorem wrapAdd_le (a b : Nat) : wrapAdd a b ≤ maxSize := Nat.le_of_lt_succ (Nat.mod_lt _ (Nat.succ_pos _))

/-! ### Outcomes -/

section Outcomes

variable {ε ε' α β : Type}

/-- What two steps give was given by the second, of what the first gave. -/
theorem bind_eq_ok {first : Except ε α} {second : α → Except ε β} {b : β} (h : (first >>= second) = .ok b) :
    ∃ a, first = .ok a ∧ second a = .ok b := by
  cases first with
  | error e => contradiction
  | ok a => exact ⟨a, rfl, h⟩

theorem mapError_eq_ok {outcome : Except ε α} {f : ε → ε'} {a : α} (h : outcome.mapError f = .ok a) :
    outcome = .ok a := by
  cases outcome with
  | error e => contradiction
  | ok a => exact congrArg Except.ok (Except.ok.inj h)

end Outcomes

/-! ### Accesses -/

/-- The bytes between two offsets, if there are such bytes. -/
def Bytes.slice? (b : Bytes) (start stop : Nat) : Option Bytes :=
  if start ≤ stop ∧ stop ≤ b.size then some (b.extract start stop) else none

/-- The string with the bytes of `src` from an offset on, if it has room for all of them. -/
def Bytes.overlay? (b : Bytes) (pos : Nat) (src : Bytes) : Option Bytes :=
  if pos + src.size ≤ b.size then some (b.overlay pos src) else none

theorem Bytes.slice?_eq {b : Bytes} {start stop : Nat} (h : start ≤ stop) (hin : stop ≤ b.size) :
    b.slice? start stop = some (b.extract start stop) := if_pos ⟨h, hin⟩

theorem Bytes.overlay?_eq {b src : Bytes} {pos : Nat} (h : pos + src.size ≤ b.size) :
    b.overlay? pos src = some (b.overlay pos src) := if_pos h

theorem Bytes.readLE_extract {b : Bytes} {start stop width : Nat} (h : start + width ≤ stop) :
    Bytes.readLE (b.extract start stop) 0 width = b.readLE start width := by
  refine Bytes.readLE_congr fun i hi => ?_
  rw [Bytes.byteAt_extract, Nat.zero_add, if_pos (by omega)]

end Retrace
