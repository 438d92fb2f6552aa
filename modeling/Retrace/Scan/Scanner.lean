import Retrace.Scan.Vector

/-!
# The choice of a scanner

A scanner answers two questions about a window: how many words at its start are equal, and how many
differ.  The scanners differ in the number of bytes that they compare in one step.
-/

namespace Retrace

/-- How words are compared: eight bytes a step, or sixteen. -/
inductive Scanner where
  | scalar
  | vector
  deriving DecidableEq, Repr

namespace Scanner

/-- The scanner with the widest step. -/
def widest : Scanner := .vector

/-- The name of a scanner, after the instructions that it stands for. -/
def name : Scanner → String
  | .scalar => "scalar"
  | .vector => "sse2"

/-- The number of equal words at the start of a window. -/
def equalSpan : Scanner → Window → Nat
  | .scalar, w => w.scalarEqualSpan
  | .vector, w => w.vectorEqualSpan

/-- The number of differing words at the start of a window. -/
def differingSpan : Scanner → Window → Nat
  | .scalar, w => w.scalarDifferingSpan
  | .vector, w => w.vectorDifferingSpan

end Scanner

end Retrace
