import Mathlib.Data.List.Chain
import Retrace.Ring.Basic

/-!
# Where the live records of a ring lie

The live records are one row from the tail up to the head, or two: one from the tail up to a gap that is
too short for another record, and one from zero up to the head, which is then not beyond the tail.

* `Layout`: the records of a ring as a list, with their places, headers and patches in the region;
* `records_eq`: there is only one such list;
* `Layout.vacant`, `Layout.apart`: once there is room for the largest record, the next place overlaps
  no live record.
-/

namespace Retrace

namespace Ring

/-- The offset behind a record. -/
def stop (record : Nat × Bytes) : Nat := record.1 + headerSize + record.2.size

/-! ### Rows -/

/-- Records one right behind the other, between two offsets. -/
inductive Row : Nat → List (Nat × Bytes) → Nat → Prop
  | nil {pos : Nat} : Row pos [] pos
  | cons {pos last : Nat} {record : Nat × Bytes} {rest : List (Nat × Bytes)} (start : record.1 = pos)
    (after : Row (stop record) rest last) : Row pos (record :: rest) last

theorem Row.append {p q : List (Nat × Bytes)} {a b c : Nat} (hp : Row a p b) (hq : Row b q c) :
    Row a (p ++ q) c := by
  induction hp with
  | nil => exact hq
  | cons start after ih => exact .cons start (ih hq)

theorem Row.init {q : List (Nat × Bytes)} {record : Nat × Bytes} {a c : Nat}
    (h : Row a (q ++ [record]) c) : Row a q record.1 ∧ c = stop record := by
  induction q generalizing a with
  | nil =>
    cases h with
    | cons start after =>
      cases after
      exact ⟨start ▸ .nil, rfl⟩
  | cons first rest ih =>
    cases h with
    | cons start after =>
      obtain ⟨hrow, hstop⟩ := ih after
      exact ⟨.cons start hrow, hstop⟩

theorem Row.le {q : List (Nat × Bytes)} {a c : Nat} (h : Row a q c) : a ≤ c := by
  induction h with
  | nil => exact Nat.le_refl _
  | cons start after ih =>
    unfold stop at ih
    omega

theorem Row.bounds {q : List (Nat × Bytes)} {a c : Nat} (h : Row a q c) {record : Nat × Bytes}
    (hr : record ∈ q) : a ≤ record.1 ∧ stop record ≤ c := by
  induction h with
  | nil => cases hr
  | cons start after ih =>
    have hle := after.le
    rcases List.mem_cons.mp hr with rfl | hr
    · exact ⟨Nat.le_of_eq start.symm, hle⟩
    · obtain ⟨h1, h2⟩ := ih hr
      unfold stop at h1
      exact ⟨by omega, h2⟩

/-! ### Places -/

/-- Records from a tail forward to a head, in one row or in two. -/
inductive Placed (g : Geometry) (tail : Nat) : List (Nat × Bytes) → Nat → Prop
  | straight {head : Nat} {q : List (Nat × Bytes)} (row : Row tail q head) : Placed g tail q head
  | wrapped {gap head : Nat} {front back : List (Nat × Bytes)} (nonempty : front ≠ [])
    (first : Row tail front gap) (inside : gap ≤ g.capacity) (short : g.capacity < gap + g.reserve)
    (second : Row 0 back head) (behind : head ≤ tail) : Placed g tail (front ++ back) head

/-- The largest record fits from the head on, before the tail where that is ahead. -/
def Vacant (g : Geometry) (tail : Nat) (q : List (Nat × Bytes)) (head : Nat) : Prop :=
  q = [] ∨ tail < head ∨ head + g.reserve ≤ tail

variable {g : Geometry} {tail head : Nat} {q : List (Nat × Bytes)}

theorem after_of_le {pos size : Nat} (h : pos + size + g.reserve ≤ g.capacity) :
    g.after pos size = pos + size := by
  rw [Geometry.after, if_neg (by omega)]

theorem after_of_lt {pos size : Nat} (h : g.capacity < pos + size + g.reserve)
    (hin : pos + size ≤ g.capacity) : g.after pos size = 0 := by
  rw [Geometry.after, if_pos (by omega)]

theorem forward_of_le {start stop : Nat} (h : start ≤ stop) (hstop : stop < g.capacity) :
    g.forward start stop = stop - start := by
  have hsum : stop + g.capacity - start = stop - start + g.capacity := by omega
  rw [Geometry.forward, hsum, Nat.add_mod_right, Nat.mod_eq_of_lt (by omega)]

theorem forward_of_lt {start stop : Nat} (h : stop < start) (hstart : start ≤ g.capacity) :
    g.forward start stop = stop + g.capacity - start := by
  rw [Geometry.forward, Nat.mod_eq_of_lt (by omega)]

theorem Placed.first_eq {record : Nat × Bytes} (h : Placed g tail (record :: q) head) :
    record.1 = tail := by
  generalize hl : record :: q = l at h
  cases h with
  | straight row =>
    subst hl
    cases row with
    | cons start after => exact start
  | wrapped nonempty first inside short second behind =>
    cases first with
    | nil => contradiction
    | cons start after =>
      cases hl
      exact start

/-- The records but the oldest start at the place behind it. -/
theorem Placed.rest {record next : Nat × Bytes} (h : Placed g tail (record :: next :: q) head)
    (hnext : next.1 + g.reserve ≤ g.capacity) :
    Placed g (g.after record.1 (headerSize + record.2.size)) (next :: q) head := by
  have hstop : stop record = record.1 + (headerSize + record.2.size) := Nat.add_assoc _ _ _
  generalize hl : record :: next :: q = l at h
  cases h with
  | straight row =>
    subst hl
    cases row with
    | cons start after =>
      have hrow := after
      cases after with
      | cons next_start =>
        rw [after_of_le (by omega), ← hstop]
        exact .straight hrow
  | wrapped nonempty first inside short second behind =>
    cases first with
    | nil => contradiction
    | @cons _ _ _ front start after =>
      cases front with
      | nil =>
        -- the oldest record ends at the gap, so the next one starts at zero
        cases hl
        cases after
        rw [after_of_lt (by omega) (by omega)]
        exact .straight second
      | cons =>
        cases hl
        have hrow := after
        cases after with
        | cons next_start =>
          rw [after_of_le (by omega), ← hstop]
          exact .wrapped (List.cons_ne_nil _ _) hrow inside short second (by omega)

theorem Placed.init {record : Nat × Bytes} (h : Placed g tail (q ++ [record]) head) :
    Placed g tail q record.1 := by
  generalize hl : q ++ [record] = l at h
  cases h with
  | straight row =>
    subst hl
    exact .straight row.init.1
  | @wrapped _ _ front back nonempty first inside short second behind =>
    rcases List.eq_nil_or_concat' back with rfl | ⟨back, last, rfl⟩
    · rw [List.append_nil] at hl
      subst hl
      exact .straight first.init.1
    · rw [← List.append_assoc] at hl
      obtain ⟨rfl, hlast⟩ := List.append_inj' hl rfl
      cases hlast
      obtain ⟨hrow, hhead⟩ := second.init
      unfold stop at hhead
      exact .wrapped nonempty first inside short hrow (by omega)

/-- A record at the head is the newest. -/
theorem Placed.snoc {record : Nat × Bytes} (h : Placed g tail q head) (hv : Vacant g tail q head)
    (htail : q ≠ [] → tail + g.reserve ≤ g.capacity) (hroom : head + g.reserve ≤ g.capacity)
    (hfits : headerSize + record.2.size ≤ g.reserve) (hat : record.1 = head) :
    Placed g tail (q ++ [record]) (g.after head (headerSize + record.2.size)) := by
  subst hat
  have hstop : stop record = record.1 + (headerSize + record.2.size) := Nat.add_assoc _ _ _
  have hone : Row record.1 [record] (stop record) := .cons rfl .nil
  cases h with
  | straight row =>
    by_cases hgap : g.capacity < record.1 + (headerSize + record.2.size) + g.reserve
    · -- no record fits behind this one: a gap is left and the second row begins
      rw [after_of_lt hgap (by omega), ← List.append_nil (q ++ [record])]
      exact .wrapped (by simp) (row.append hone) (by omega) (by omega) .nil (Nat.zero_le _)
    · rw [after_of_le (by omega), ← hstop]
      exact .straight (row.append hone)
  | @wrapped _ _ front back nonempty first inside short second behind =>
    have hne : front ++ back ≠ [] := by simp [nonempty]
    -- the record ends before the tail, and the largest record fits at the tail
    have hahead : record.1 + g.reserve ≤ tail := by
      rcases hv with hnil | hlt | hle
      · contradiction
      · omega
      · exact hle
    have := htail hne
    rw [after_of_le (by omega), ← hstop, List.append_assoc]
    exact .wrapped nonempty first inside short (second.append hone) (by omega)

theorem Placed.apart (h : Placed g tail q head) (hv : Vacant g tail q head) {record : Nat × Bytes}
    (hr : record ∈ q) : stop record ≤ head ∨ head + g.reserve ≤ record.1 := by
  cases h with
  | straight row => exact Or.inl (row.bounds hr).2
  | @wrapped _ _ front back nonempty first inside short second behind =>
    rcases List.mem_append.mp hr with hfront | hback
    · right
      have hle := (first.bounds hfront).1
      rcases hv with hnil | hlt | hahead
      · rw [hnil] at hr
        cases hr
      · omega
      · omega
    · exact Or.inl (second.bounds hback).2

/-! ### Layouts -/

/-- The region has this record, in a place where the largest record fits. -/
structure Holds (r : Ring) (record : Nat × Bytes) : Prop where
  size : r.storedSize record.1 = record.2.size
  patch : r.patchAt record.1 = record.2
  fits : record.2.size ≤ r.patchLimit
  inside : record.1 + (headerSize + r.patchLimit) ≤ r.capacity

/-- **The live records of a ring**, the oldest first: they are placed from the tail to the head, the region
has them, and each header leads to the record before. -/
structure Layout (r : Ring) (q : List (Nat × Bytes)) : Prop where
  limit : headerSize + r.patchLimit < r.capacity
  small : r.capacity ≤ maxAllocation
  count : r.count = q.length
  placed : Placed r.geometry r.tail q r.head
  room : r.head + (headerSize + r.patchLimit) ≤ r.capacity
  held : ∀ record ∈ q, Holds r record
  linked : q.IsChain fun older newer => r.storedPrevious newer.1 = older.1
  latest : ∀ record ∈ q.getLast?, r.latest = record.1

variable {r : Ring}

theorem recordLimit_eq (hlimit : headerSize + r.patchLimit < r.capacity)
    (hsmall : r.capacity ≤ maxAllocation) : r.recordLimit = headerSize + r.patchLimit := by
  have : maxAllocation ≤ maxSize := by decide
  exact Nat.min_eq_left (by omega)

theorem Layout.reserve_eq (h : Layout r q) : r.geometry.reserve = headerSize + r.patchLimit :=
  recordLimit_eq h.limit h.small

theorem recordsFrom_eq {pos : Nat} (hlimit : r.geometry.reserve = headerSize + r.patchLimit)
    (hplaced : Placed r.geometry pos q head) (hheld : ∀ record ∈ q, Holds r record) :
    r.recordsFrom pos q.length = q := by
  induction q generalizing pos with
  | nil => rfl
  | cons record rest ih =>
    have hrecord := hheld record (by simp)
    have hrest : r.recordsFrom (r.successor pos) rest.length = rest := by
      cases rest with
      | nil => rfl
      | cons next rest =>
        refine ih ?_ fun other hother => hheld other (List.mem_cons_of_mem _ hother)
        have hnext := (hheld next (by simp)).inside
        have hrest := hplaced.rest (by rw [hlimit]; exact hnext)
        rwa [← hrecord.size, hplaced.first_eq] at hrest
    rw [List.length_cons, recordsFrom, hrest, ← hplaced.first_eq, hrecord.patch]

theorem Layout.records_eq (h : Layout r q) : r.records = q := by
  rw [records, h.count]
  exact recordsFrom_eq h.reserve_eq h.placed h.held

theorem Layout.tail_inside (h : Layout r q) (hq : q ≠ []) :
    r.tail + (headerSize + r.patchLimit) ≤ r.capacity := by
  cases q with
  | nil => contradiction
  | cons record rest =>
    rw [← h.placed.first_eq]
    exact (h.held record (by simp)).inside

theorem Layout.freeBytes_le (h : Layout r q) : r.freeBytes ≤ r.capacity := by
  have hlimit := h.limit
  have hpos : 0 < r.capacity := by omega
  unfold freeBytes
  split
  · exact Nat.le_refl _
  · exact Nat.le_of_lt (Nat.mod_lt _ hpos)

/-- The head has not come around: all is free behind it and before the tail. -/
theorem Layout.freeBytes_of_lt (h : Layout r q) (hcount : r.count ≠ 0) (hlt : r.tail < r.head) :
    r.freeBytes = r.tail + r.capacity - r.head := by
  have hroom := h.room
  rw [freeBytes, if_neg hcount]
  exact forward_of_lt hlt (show r.head ≤ r.capacity by omega)

/-- The head has come around: what is free is between it and the tail. -/
theorem Layout.freeBytes_of_le (h : Layout r q) (hcount : r.count ≠ 0) (hle : r.head ≤ r.tail) :
    r.freeBytes = r.tail - r.head := by
  have hheader : headerSize = 16 := rfl
  have hq : q ≠ [] := by
    rintro rfl
    exact hcount h.count
  have htail := h.tail_inside hq
  rw [freeBytes, if_neg hcount]
  exact forward_of_le hle (show r.tail < r.capacity by omega)

theorem Layout.vacant (h : Layout r q) (hfree : ¬ r.freeBytes < r.recordLimit) :
    Vacant r.geometry r.tail q r.head := by
  have hheader : headerSize = 16 := rfl
  have hlimit := h.limit
  have hroom := h.room
  by_cases hq : q = []
  · exact Or.inl hq
  · by_cases hlt : r.tail < r.head
    · exact Or.inr (Or.inl hlt)
    · have htail := h.tail_inside hq
      have hcount : r.count ≠ 0 := by
        rw [h.count]
        simpa using hq
      rw [h.freeBytes_of_le hcount (Nat.le_of_not_lt hlt), recordLimit_eq h.limit h.small] at hfree
      right
      right
      rw [h.reserve_eq]
      omega

theorem Layout.apart (h : Layout r q) (hfree : ¬ r.freeBytes < r.recordLimit) {record : Nat × Bytes}
    (hr : record ∈ q) :
    stop record ≤ r.head ∨ r.head + (headerSize + r.patchLimit) ≤ record.1 := by
  have := h.placed.apart (h.vacant hfree) hr
  rwa [h.reserve_eq] at this

theorem layout_create {capacity patchLimit : Nat} (hlimit : headerSize + patchLimit < capacity)
    (hsmall : capacity ≤ maxAllocation) :
    ∃ r, create capacity patchLimit = .ok r ∧ r.patchLimit = patchLimit ∧ Layout r [] := by
  have hspace : recordSpace patchLimit = headerSize + patchLimit := by
    have : maxAllocation ≤ maxSize := by decide
    exact Nat.min_eq_left (by omega)
  have hcapacity : (Bytes.zeros capacity).size = capacity := Bytes.size_zeros capacity
  refine ⟨⟨Bytes.zeros capacity, patchLimit, 0, 0, 0, 0⟩, ?_, rfl, ?_⟩
  · rw [create, hspace, if_neg (by omega), if_neg (by omega)]
  · refine ⟨?_, ?_, rfl, .straight .nil, ?_, by simp, .nil, by simp⟩
    · show headerSize + patchLimit < (Bytes.zeros capacity).size
      omega
    · show (Bytes.zeros capacity).size ≤ maxAllocation
      omega
    · show 0 + (headerSize + patchLimit) ≤ (Bytes.zeros capacity).size
      omega

end Ring

end Retrace
