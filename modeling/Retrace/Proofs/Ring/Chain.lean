import Retrace.Proofs.Ring.Deque

/-!
# The records of a ring as two chains

The sizes in the headers lead from the tail forward to the head, the offsets in the headers from the newest
record back to the oldest one.  Both ways go through the same places, in opposite order.

* `Chained`: where the records of a ring lie, told by its offsets and headers alone;
* `Layout.chained`: the records of a layout are chained so;
* `run_chained`: after any operations on a new ring its records are chained, and a ring without records is
  back at zero.
-/

namespace Retrace

namespace Ring

/-! ### From one place to the next -/

section Places

variable {g : Geometry} {tail head : Nat} {q : List (Nat × Bytes)} {record : Nat × Bytes}

theorem Row.pairwise {a c : Nat} (h : Row a q c) : q.Pairwise fun x y => stop x ≤ y.1 := by
  induction h with
  | nil => exact .nil
  | cons start after ih => exact .cons (fun y hy => (after.bounds hy).1) ih

/-- Two records overlap nowhere. -/
theorem Placed.pairwise (h : Placed g tail q head) :
    q.Pairwise fun x y => stop x ≤ y.1 ∨ stop y ≤ x.1 := by
  cases h with
  | straight row => exact row.pairwise.imp Or.inl
  | wrapped nonempty first inside short second behind =>
    refine List.pairwise_append.mpr
      ⟨first.pairwise.imp Or.inl, second.pairwise.imp Or.inl, fun x hx y hy => Or.inr ?_⟩
    have htail := (first.bounds hx).1
    have hhead := (second.bounds hy).2
    omega

/-- Each record but the oldest starts at the place behind the one before. -/
theorem Placed.isChain (h : Placed g tail q head) (hroom : ∀ x ∈ q, x.1 + g.reserve ≤ g.capacity) :
    q.IsChain fun x y => y.1 = g.after x.1 (headerSize + x.2.size) := by
  induction q generalizing tail with
  | nil => exact .nil
  | cons x rest ih =>
    cases rest with
    | nil => exact .singleton _
    | cons y rest =>
      have hrest := h.rest (hroom y (by simp))
      exact .cons_cons hrest.first_eq (ih hrest fun z hz => hroom z (List.mem_cons_of_mem _ hz))

/-- The head is the place behind the newest record. -/
theorem Placed.head_eq (h : Placed g tail (q ++ [record]) head) (hroom : head + g.reserve ≤ g.capacity) :
    head = g.after record.1 (headerSize + record.2.size) := by
  have hstop : stop record = record.1 + (headerSize + record.2.size) := Nat.add_assoc _ _ _
  generalize hl : q ++ [record] = l at h
  cases h with
  | straight row =>
    subst hl
    have hhead := row.init.2
    rw [after_of_le (by omega), ← hstop, hhead]
  | @wrapped gap _ front back nonempty first inside short second behind =>
    rcases List.eq_nil_or_concat' back with rfl | ⟨back, last, rfl⟩
    · -- the newest record ends at the gap, so the head is at zero
      rw [List.append_nil] at hl
      subst hl
      have hgap := first.init.2
      cases second
      rw [after_of_lt (by omega) (by omega)]
    · rw [← List.append_assoc] at hl
      obtain ⟨-, hlast⟩ := List.append_inj' hl rfl
      cases hlast
      have hhead := second.init.2
      rw [after_of_le (by omega), ← hstop, hhead]

end Places

/-! ### Chains -/

variable {r : Ring} {q : List (Nat × Bytes)}

/-- The offset behind the record at `offset`, as its header has it. -/
def storedStop (r : Ring) (offset : Nat) : Nat := offset + headerSize + r.storedSize offset

/-- **Where the records of a ring lie**: at these offsets, the oldest first.  The stored sizes lead from the
tail through them to the head, the stored offsets from the newest back through them; no patch is larger than
the limit, at each offset and at the head the largest record fits, and the records overlap nowhere. -/
structure Chained (r : Ring) (offsets : List Nat) : Prop where
  count : offsets.length = r.count
  oldest : offsets.head? = some r.tail
  newest : offsets.getLast? = some r.latest
  forward : offsets.IsChain fun offset next => next = r.successor offset
  ends : r.head = r.successor r.latest
  backward : offsets.IsChain fun previous offset => r.storedPrevious offset = previous
  fits : ∀ offset ∈ offsets, r.storedSize offset ≤ r.patchLimit
  room : ∀ offset ∈ r.head :: offsets, offset + r.recordLimit ≤ r.capacity
  apart : offsets.Pairwise fun a b => r.storedStop a ≤ b ∨ r.storedStop b ≤ a
  inside : ∀ offset ∈ offsets, r.storedStop offset ≤ r.capacity

theorem Holds.storedStop_eq {record : Nat × Bytes} (h : Holds r record) :
    r.storedStop record.1 = stop record := by
  rw [storedStop, h.size, stop]

theorem Holds.successor_eq {record : Nat × Bytes} (h : Holds r record) :
    r.successor record.1 = r.geometry.after record.1 (headerSize + record.2.size) := by
  rw [successor, h.size]

theorem Layout.room_held (h : Layout r q) {record : Nat × Bytes} (hr : record ∈ q) :
    record.1 + r.geometry.reserve ≤ r.geometry.capacity := by
  rw [h.reserve_eq]
  exact (h.held record hr).inside

theorem Layout.head?_eq (h : Layout r q) (hq : q ≠ []) : (q.map Prod.fst).head? = some r.tail := by
  cases q with
  | nil => contradiction
  | cons oldest rest => rw [List.map_cons, List.head?_cons, h.placed.first_eq]

theorem Layout.forward (h : Layout r q) :
    (q.map Prod.fst).IsChain fun offset next => next = r.successor offset := by
  have hplaced := h.placed.isChain fun record hr => h.room_held hr
  refine (List.isChain_map _).mpr (hplaced.imp_of_mem_imp fun older newer holder _ hnext => ?_)
  rw [(h.held older holder).successor_eq]
  exact hnext

theorem Layout.head_eq {record : Nat × Bytes} (h : Layout r (q ++ [record])) :
    r.head = r.successor record.1 := by
  rw [(h.held record (by simp)).successor_eq]
  refine h.placed.head_eq ?_
  rw [h.reserve_eq]
  exact h.room

theorem Layout.storedStop_le (h : Layout r q) {record : Nat × Bytes} (hr : record ∈ q) :
    r.storedStop record.1 ≤ r.capacity := by
  have hinside := (h.held record hr).inside
  have hfits := (h.held record hr).fits
  rw [(h.held record hr).storedStop_eq, stop]
  omega

/-- The records of a layout are chained at their offsets. -/
theorem Layout.chained (h : Layout r q) (hq : q ≠ []) : Chained r (q.map Prod.fst) := by
  obtain ⟨older, last, rfl⟩ := (List.eq_nil_or_concat' q).resolve_left hq
  have hlatest : r.latest = last.1 := h.latest last (by simp)
  refine ⟨?count, h.head?_eq hq, ?newest, h.forward, ?ends, ?backward, ?fits, ?room, ?apart, ?inside⟩
  case count => rw [List.length_map, h.count]
  case newest => rw [List.map_append, List.map_singleton, List.getLast?_concat, hlatest]
  case ends =>
    rw [hlatest]
    exact h.head_eq
  case backward => exact (List.isChain_map _).mpr h.linked
  case fits =>
    refine List.forall_mem_map.mpr fun record hr => ?_
    rw [(h.held record hr).size]
    exact (h.held record hr).fits
  case room =>
    rw [recordLimit_eq h.limit h.small]
    refine List.forall_mem_cons.mpr ⟨h.room, List.forall_mem_map.mpr fun record hr => ?_⟩
    exact (h.held record hr).inside
  case apart =>
    refine List.pairwise_map.mpr (h.placed.pairwise.imp_of_mem fun hx hy hapart => ?_)
    rw [(h.held _ hx).storedStop_eq, (h.held _ hy).storedStop_eq]
    exact hapart
  case inside => exact List.forall_mem_map.mpr fun record hr => h.storedStop_le hr

/-! ### Rings without records -/

/-- A ring without records is back at zero. -/
def Settled (r : Ring) : Prop := r.count = 0 → r.head = 0 ∧ r.tail = 0 ∧ r.latest = 0

theorem settled_clear (r : Ring) : r.clear.Settled := fun _ => ⟨rfl, rfl, rfl⟩

theorem settled_dropOldest (r : Ring) : r.dropOldest.Settled := by
  intro hcount
  unfold Ring.dropOldest at hcount ⊢
  split at hcount
  · next hone =>
    rw [if_pos hone]
    exact r.settled_clear hcount
  · next hmore =>
    have hzero : r.count - 1 = 0 := hcount
    omega

theorem Settled.vacateUpTo (h : r.Settled) (n : Nat) : (r.vacateUpTo n).Settled := by
  induction n generalizing r with
  | zero => exact h
  | succ n ih =>
    rw [Ring.vacateUpTo]
    split
    · exact ih r.settled_dropOldest
    · exact h

theorem Settled.filled (h : r.Settled) (left : Bytes) : (r.filled left).Settled := h.vacateUpTo r.count

/-- A ring with a new record is not empty. -/
theorem settled_link (r : Ring) (size : Nat) : (r.link size).Settled :=
  fun hcount => absurd hcount (Nat.succ_ne_zero r.count)

theorem Settled.pushWith {ε : Type} (h : r.Settled) (refuse : RingError → ε)
    (fill : Bytes → Bytes × Except ε Nat) : (r.pushWith refuse fill).1.Settled := by
  rw [pushWith_eq]
  split
  · exact h.filled _
  · split
    · exact h.filled _
    · exact settled_link _ _

theorem Settled.push (h : r.Settled) (patch : Bytes) : (r.push patch).1.Settled := by
  rw [Ring.push]
  split
  · exact h
  · exact h.pushWith _ _

theorem Settled.dropNewest (h : r.Settled) : r.dropNewest.1.Settled := by
  rw [Ring.dropNewest]
  split
  · exact h
  · split
    · exact r.settled_clear
    · intro hcount
      have hzero : r.count - 1 = 0 := hcount
      omega

theorem Settled.exec {ε : Type} (refuse : RingError → ε) (h : r.Settled) (op : Op ε) :
    (exec refuse r op).1.Settled := by
  cases op with
  | push patch => exact h.push patch
  | pushWith fill => exact h.pushWith refuse fill
  | newest => exact h
  | dropNewest => exact h.dropNewest
  | clear => exact r.settled_clear

theorem Settled.run {ε : Type} (refuse : RingError → ε) (h : r.Settled) (ops : List (Op ε)) :
    (run refuse r ops).Settled := by
  induction ops generalizing r with
  | nil => exact h
  | cons op ops ih => exact ih (h.exec refuse op)

/-! ### New rings -/

/-- A ring is made only with room for more than the largest record, in a region that can be allocated. -/
theorem create_eq_ok {capacity patchLimit : Nat} (hcreate : create capacity patchLimit = .ok r) :
    headerSize + patchLimit < capacity ∧ capacity ≤ maxAllocation ∧
      r = ⟨Bytes.zeros capacity, patchLimit, 0, 0, 0, 0⟩ := by
  have hmax : maxAllocation < maxSize := by decide
  have hspace : recordSpace patchLimit = min (headerSize + patchLimit) maxSize := rfl
  unfold create at hcreate
  split at hcreate
  · contradiction
  · split at hcreate
    · contradiction
    · injection hcreate with hring
      exact ⟨by omega, by omega, hring.symm⟩

theorem layout_of_create {capacity patchLimit : Nat} (hcreate : create capacity patchLimit = .ok r) :
    Layout r [] ∧ r.Settled := by
  obtain ⟨hlimit, hsmall, hring⟩ := create_eq_ok hcreate
  obtain ⟨made, hmade, -, hlayout⟩ := layout_create hlimit hsmall
  obtain rfl : r = made := Except.ok.inj (hcreate.symm.trans hmade)
  refine ⟨hlayout, ?_⟩
  rw [hring]
  exact fun _ => ⟨rfl, rfl, rfl⟩

/-- After any operations on a new ring its records are laid out, and without any it is back at zero. -/
theorem layout_of_run {ε : Type} (refuse : RingError → ε) {capacity patchLimit : Nat} {r₀ : Ring}
    (hcreate : create capacity patchLimit = .ok r₀) (ops : List (Op ε)) :
    (run refuse r₀ ops).patchLimit = patchLimit ∧ (run refuse r₀ ops).Settled ∧
      ∃ q, Layout (run refuse r₀ ops) q := by
  obtain ⟨-, -, rfl⟩ := create_eq_ok hcreate
  obtain ⟨hlayout, hsettled⟩ := layout_of_create hcreate
  obtain ⟨hlimit, hq⟩ := run_layout refuse hlayout ops
  exact ⟨hlimit, hsettled.run refuse ops, hq⟩

/-- **The records of a ring form two chains.**  After any operations on a new ring, whatever its fills do,
the ring is back at zero if it has no record; else its records lie at offsets that the stored sizes lead
through from the tail to the head and the stored offsets lead back through, one apart from the other and all
within the region. -/
theorem run_chained {ε : Type} (refuse : RingError → ε) {capacity patchLimit : Nat} {r₀ : Ring}
    (hcreate : create capacity patchLimit = .ok r₀) (ops : List (Op ε)) :
    let r := run refuse r₀ ops
    (r.count = 0 → r.head = 0 ∧ r.tail = 0 ∧ r.latest = 0) ∧
      (r.count ≠ 0 → ∃ offsets, Chained r offsets) := by
  obtain ⟨hlayout, hsettled⟩ := layout_of_create hcreate
  obtain ⟨-, q, hq⟩ := run_layout refuse hlayout ops
  refine ⟨hsettled.run refuse ops, fun hcount => ⟨_, hq.chained ?_⟩⟩
  rintro rfl
  exact hcount hq.count

/-- Three records of 24 bytes in a region of 60: the third one is placed at zero, where the first one was. -/
theorem run_chained_around :
    ∃ r₀, create 60 8 = .ok r₀ ∧
      let patch : Bytes := ⟨#[1, 2, 3, 4, 5, 6, 7, 8]⟩
      let r := run id r₀ [.push patch, .push patch, .push patch]
      r.count = 2 ∧ ∃ offsets, Chained r offsets := by
  have hcreate : create 60 8 = .ok ⟨Bytes.zeros 60, 8, 0, 0, 0, 0⟩ := rfl
  refine ⟨_, hcreate, ?_⟩
  intro patch r
  have hcount : r.count = 2 := by decide +kernel
  have hne : r.count ≠ 0 := by rw [hcount]; decide
  exact ⟨hcount, (run_chained id hcreate _).2 hne⟩

end Ring

end Retrace
