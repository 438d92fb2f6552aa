import Retrace.Proofs.Ring.Append

/-!
# A ring is a bounded deque

What is asked of a ring, what it answers, and a deque of offsets and patches that answers the same: it adds
at the end, drops at the end, and evicts at the front.

* `DequeStep`: how the deque answers, and what it has then;
* `exec_evicts`: what is evicted for a record, and that nothing else is lost;
* `exec_follows`: one operation of the ring is one step of the deque;
* `run_refines_deque`: so it is after any operations, and no byte of a record that is left was changed.
-/

namespace Retrace

namespace Ring

/-- What can be asked of a ring.  The fills fail with an `ε`. -/
inductive Op (ε : Type) where
  | push (patch : Bytes)
  | pushWith (fill : Bytes → Bytes × Except ε Nat)
  | newest
  | dropNewest
  | clear

/-- Operations that make room for a record: a patch within the limit, or a fill. -/
def Op.Adds {ε : Type} (limit : Nat) : Op ε → Prop
  | .push patch => patch.size ≤ limit
  | .pushWith _ => True
  | .newest | .dropNewest | .clear => False

/-- What a ring answers. -/
inductive Answer (ε : Type) where
  | pushed (outcome : Except RingError Receipt)
  | filled (outcome : Except ε Receipt)
  | newest (found : Option (Bytes × Nat))
  | dropped (offset : Option Nat)
  | cleared

section Run

variable {ε : Type} (refuse : RingError → ε)

/-- The ring after one operation, and its answer. -/
def exec (r : Ring) : Op ε → Ring × Answer ε
  | .push patch => ((r.push patch).1, .pushed (r.push patch).2)
  | .pushWith fill => ((r.pushWith refuse fill).1, .filled (r.pushWith refuse fill).2)
  | .newest => (r, .newest r.newest)
  | .dropNewest => (r.dropNewest.1, .dropped r.dropNewest.2)
  | .clear => (r.clear, .cleared)

/-- The ring after some operations. -/
def run (r : Ring) (ops : List (Op ε)) : Ring := ops.foldl (fun r op => (exec refuse r op).1) r

/-- **One step of a deque** of offsets and patches, for patches of up to `limit` bytes: from what it has, an
operation, its answer, and the number of evicted records, to what it has then. -/
inductive DequeStep (limit : Nat) (q : List (Nat × Bytes)) :
    Op ε → Answer ε → Nat → List (Nat × Bytes) → Prop
  | push {patch : Bytes} {offset evicted : Nat} (fits : patch.size ≤ limit)
    (evicts : evicted ≤ q.length) :
    DequeStep limit q (.push patch) (.pushed (.ok ⟨offset, patch.size, evicted⟩)) evicted
      (q.drop evicted ++ [(offset, patch)])
  | refuse {patch : Bytes} (large : limit < patch.size) :
    DequeStep limit q (.push patch) (.pushed (.error (.patchTooLarge patch.size limit))) 0 q
  | fill {fill : Bytes → Bytes × Except ε Nat} {slot : Bytes} {n offset evicted : Nat}
    (size : slot.size = limit) (outcome : (fill slot).2 = .ok n) (fits : n ≤ limit)
    (evicts : evicted ≤ q.length) :
    DequeStep limit q (.pushWith fill) (.filled (.ok ⟨offset, n, evicted⟩)) evicted
      (q.drop evicted ++ [(offset, (slot.overlay 0 (fill slot).1).extract 0 n)])
  | overfill {fill : Bytes → Bytes × Except ε Nat} {slot : Bytes} {n evicted : Nat}
    (size : slot.size = limit) (outcome : (fill slot).2 = .ok n) (large : limit < n)
    (evicts : evicted ≤ q.length) :
    DequeStep limit q (.pushWith fill) (.filled (.error (refuse (.patchTooLarge n limit)))) evicted
      (q.drop evicted)
  | fail {fill : Bytes → Bytes × Except ε Nat} {slot : Bytes} {e : ε} {evicted : Nat}
    (size : slot.size = limit) (outcome : (fill slot).2 = .error e) (evicts : evicted ≤ q.length) :
    DequeStep limit q (.pushWith fill) (.filled (.error e)) evicted (q.drop evicted)
  | newest : DequeStep limit q .newest (.newest (q.getLast?.map Prod.swap)) 0 q
  | dropNewest : DequeStep limit q .dropNewest (.dropped (q.getLast?.map Prod.fst)) 0 q.dropLast
  | clear : DequeStep limit q .clear .cleared q.length []

variable {r : Ring} {q : List (Nat × Bytes)}

/-- What one operation does: a step of the deque, and nothing to the bytes of the records that are left. -/
def Follows (r r' : Ring) (q : List (Nat × Bytes)) (op : Op ε) (answer : Answer ε) : Prop :=
  ∃ evicted q', DequeStep refuse r.patchLimit q op answer evicted q' ∧ Layout r' q' ∧
    r'.patchLimit = r.patchLimit ∧ ∀ record ∈ q.drop evicted, SameAt r'.region r.region record

/-- **Room is made for a record** by evictions, and nothing else is lost, whether the record is added then or
not. -/
theorem exec_evicts (h : Layout r q) {op : Op ε} (hadds : op.Adds r.patchLimit) :
    ∃ q', DequeStep refuse r.patchLimit q op (exec refuse r op).2 r.evictions q' ∧
      Layout (exec refuse r op).1 q' ∧ (exec refuse r op).1.patchLimit = r.patchLimit ∧
        ∀ record ∈ q.drop r.evictions, SameAt (exec refuse r op).1.region r.region record := by
  have hevictions := h.evictions_le
  have hlimit := h.patchLimit_vacate
  cases op with
  | push patch =>
    have hfits : patch.size ≤ r.patchLimit := hadds
    dsimp only [exec]
    rw [h.push_ok hfits]
    exact ⟨_, .push hfits hevictions, h.link_patch hfits, hlimit, h.sameAt_link_filled _ _⟩
  | pushWith fill =>
    have hslot := h.size_slot
    have hfilled := h.filled (fill r.slot).1
    have hsame := h.sameAt_filled (fill r.slot).1
    dsimp only [exec]
    cases hfill : (fill r.slot).2 with
    | error e =>
      rw [pushWith_error refuse hfill]
      exact ⟨_, .fail hslot hfill hevictions, hfilled, hlimit, hsame⟩
    | ok n =>
      by_cases hn : r.patchLimit < n
      · rw [h.pushWith_over refuse hfill hn]
        exact ⟨_, .overfill hslot hfill hn hevictions, hfilled, hlimit, hsame⟩
      · have hn := Nat.le_of_not_lt hn
        rw [h.pushWith_ok refuse hfill hn]
        exact ⟨_, .fill hslot hfill hn hevictions, h.link_filled _ hn, hlimit, h.sameAt_link_filled _ _⟩
  | newest | dropNewest | clear => exact hadds.elim

theorem push_follows (h : Layout r q) (patch : Bytes) :
    Follows refuse r (r.push patch).1 q (.push patch) (.pushed (r.push patch).2) := by
  by_cases hlarge : r.patchLimit < patch.size
  · rw [Ring.push, if_pos hlarge]
    exact ⟨_, _, .refuse hlarge, h, rfl, fun _ _ => .refl _ _⟩
  · exact ⟨_, exec_evicts refuse h (Nat.le_of_not_lt hlarge)⟩

theorem newest_follows (h : Layout r q) : Follows refuse r r q .newest (.newest r.newest) := by
  rw [h.newest_eq]
  exact ⟨_, _, .newest, h, rfl, fun _ _ => .refl _ _⟩

theorem dropNewest_follows (h : Layout r q) :
    Follows refuse r r.dropNewest.1 q .dropNewest (.dropped r.dropNewest.2) := by
  obtain ⟨hregion, hlimit⟩ := r.region_dropNewest
  obtain ⟨hdropped, hlayout⟩ := h.dropLast
  rw [hdropped]
  refine ⟨_, _, .dropNewest, hlayout, hlimit, fun record _ => ?_⟩
  rw [hregion]
  exact .refl _ _

theorem clear_follows (h : Layout r q) : Follows refuse r r.clear q .clear .cleared :=
  ⟨_, _, .clear, h.clear, rfl, fun _ _ => .refl _ _⟩

/-- One operation of a ring is one step of the deque. -/
theorem exec_follows (h : Layout r q) (op : Op ε) :
    Follows refuse r (exec refuse r op).1 q op (exec refuse r op).2 := by
  cases op with
  | push patch => exact push_follows refuse h patch
  | pushWith fill => exact ⟨_, exec_evicts refuse h trivial⟩
  | newest => exact newest_follows refuse h
  | dropNewest => exact dropNewest_follows refuse h
  | clear => exact clear_follows refuse h

theorem run_layout (h : Layout r q) (ops : List (Op ε)) :
    (run refuse r ops).patchLimit = r.patchLimit ∧ ∃ q', Layout (run refuse r ops) q' := by
  induction ops generalizing r q with
  | nil => exact ⟨rfl, q, h⟩
  | cons op ops ih =>
    obtain ⟨evicted, q', -, hlayout, hlimit, -⟩ := exec_follows refuse h op
    obtain ⟨hrun, hq⟩ := ih hlayout
    exact ⟨hrun.trans hlimit, hq⟩

/-- **A ring refines a bounded deque.**  After any operations on a new ring, whose region can be allocated
and has room for more than the largest record, its count is the number of its records.  The next operation,
whatever its fill does, answers as a deque of these records does, leaves the records that the deque then
has, and changes no byte of those that were not evicted. -/
theorem run_refines_deque {capacity patchLimit : Nat} (hlimit : headerSize + patchLimit < capacity)
    (hsmall : capacity ≤ maxAllocation) :
    ∃ r₀, create capacity patchLimit = .ok r₀ ∧ r₀.records = [] ∧
      ∀ (ops : List (Op ε)) (op : Op ε),
        let r := run refuse r₀ ops
        let r' := (exec refuse r op).1
        r.count = r.records.length ∧
          ∃ evicted, DequeStep refuse patchLimit r.records op (exec refuse r op).2 evicted r'.records ∧
            ∀ record ∈ r.records.drop evicted, SameAt r'.region r.region record := by
  obtain ⟨r₀, hcreate, hpatchLimit, hlayout⟩ := layout_create hlimit hsmall
  refine ⟨r₀, hcreate, hlayout.records_eq, fun ops op => ?_⟩
  obtain ⟨hrun, q, hq⟩ := run_layout refuse hlayout ops
  obtain ⟨evicted, q', hstep, hq', -, hsame⟩ := exec_follows refuse hq op
  rw [hrun, hpatchLimit] at hstep
  dsimp only
  rw [hq.records_eq, hq'.records_eq]
  exact ⟨hq.count, evicted, hstep, hsame⟩

end Run

theorem run_refines_deque_small :
    headerSize + 8 < 40 ∧ 40 ≤ maxAllocation ∧
      ∃ r₀, create 40 8 = .ok r₀ ∧
        let r := run id r₀ [.push ⟨#[1, 2, 3]⟩, .push ⟨#[4]⟩]
        ∃ evicted, DequeStep id 8 r.records .newest (.newest r.newest) evicted r.records := by
  have hlimit : headerSize + 8 < 40 := by decide
  have hsmall : 40 ≤ maxAllocation := by decide
  obtain ⟨r₀, hcreate, -, hrun⟩ := run_refines_deque id hlimit hsmall
  obtain ⟨-, evicted, hstep, -⟩ := hrun [.push ⟨#[1, 2, 3]⟩, .push ⟨#[4]⟩] .newest
  exact ⟨hlimit, hsmall, r₀, hcreate, evicted, hstep⟩

end Ring

end Retrace
