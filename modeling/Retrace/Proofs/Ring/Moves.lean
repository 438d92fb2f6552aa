import Retrace.Proofs.Ring.Layout

/-!
# What the operations of a ring do to its records

* `Layout.congr`: a layout stands as long as the bytes of its records do;
* `Layout.dropOldest`, `Layout.dropNewest`, `Layout.clear`: records are dropped at either end;
* `Layout.vacate`, `Layout.not_full`: evictions end with room for the largest record.
-/

namespace Retrace

namespace Ring

variable {r : Ring} {q : List (Nat × Bytes)} {record : Nat × Bytes}

/-! ### Bytes outside the records -/

/-- Two regions have the same bytes where a record is. -/
def SameAt (a b : Bytes) (record : Nat × Bytes) : Prop :=
  ∀ i, record.1 ≤ i → i < stop record → a.byteAt i = b.byteAt i

theorem SameAt.refl (a : Bytes) (record : Nat × Bytes) : SameAt a a record := fun _ _ _ => rfl

theorem SameAt.readLE {a b : Bytes} (h : SameAt a b record) {k : Nat} (hk : k + 8 ≤ headerSize) :
    a.readLE (record.1 + k) 8 = b.readLE (record.1 + k) 8 := by
  refine Bytes.readLE_congr fun i hi => h _ (by omega) ?_
  unfold stop
  omega

theorem SameAt.extract {a b : Bytes} (h : SameAt a b record) (hsize : a.size = b.size) :
    a.extract (record.1 + headerSize) (stop record) = b.extract (record.1 + headerSize) (stop record) := by
  refine Bytes.ext_byteAt ?_ fun i hi => ?_
  · rw [ByteArray.size_extract, ByteArray.size_extract, hsize]
  · rw [ByteArray.size_extract] at hi
    rw [Bytes.byteAt_extract, Bytes.byteAt_extract, if_pos (by omega), if_pos (by omega)]
    exact h _ (by omega) (by omega)

theorem Holds.congr {r' : Ring} (hrecord : Holds r record) (hlimit : r'.patchLimit = r.patchLimit)
    (hsize : r'.region.size = r.region.size) (h : SameAt r'.region r.region record) :
    Holds r' record := by
  obtain ⟨hstored, hpatch, hfits, hinside⟩ := hrecord
  have hstored' : r'.storedSize record.1 = record.2.size :=
    (h.readLE (show 8 + 8 ≤ headerSize by decide)).trans hstored
  refine ⟨hstored', ?_, hlimit ▸ hfits, ?_⟩
  · unfold patchAt at hpatch ⊢
    rw [hstored] at hpatch
    rw [hstored']
    exact (h.extract hsize).trans hpatch
  · unfold capacity
    rw [hsize, hlimit]
    exact hinside

theorem Layout.congr (h : Layout r q) {region : Bytes} (hsize : region.size = r.region.size)
    (hsame : ∀ record ∈ q, SameAt region r.region record) : Layout { r with region } q := by
  obtain ⟨hlimit, hsmall, hcount, hplaced, hroom, hheld, hlinked, hlatest⟩ := h
  have hcapacity : capacity { r with region } = r.capacity := hsize
  have hgeometry : geometry { r with region } = r.geometry := by
    unfold geometry
    rw [hcapacity]
    rfl
  refine ⟨?_, ?_, hcount, ?_, ?_, ?_, ?_, hlatest⟩
  · rwa [hcapacity]
  · rwa [hcapacity]
  · rwa [hgeometry]
  · rwa [hcapacity]
  · intro record hr
    exact (hheld record hr).congr rfl hsize (hsame record hr)
  · refine hlinked.imp_of_mem_imp fun older newer _ hnewer hlink => ?_
    exact ((hsame newer hnewer).readLE (show 0 + 8 ≤ headerSize by decide)).trans hlink

/-! ### Records that are dropped -/

theorem Layout.clear (h : Layout r q) : Layout r.clear [] := by
  have hlimit := h.limit
  refine ⟨hlimit, h.small, rfl, .straight .nil, ?_, by simp, .nil, by simp⟩
  show 0 + (headerSize + r.patchLimit) ≤ r.capacity
  omega

theorem Layout.dropOldest (h : Layout r q) : Layout r.dropOldest q.tail := by
  have hcount := h.count
  unfold Ring.dropOldest
  rcases q with _ | ⟨oldest, _ | ⟨next, rest⟩⟩
  · rw [if_pos (by simp [hcount])]
    exact h.clear
  · rw [if_pos (by simp [hcount])]
    exact h.clear
  · rw [if_neg (by simp [hcount])]
    have holdest := h.held oldest (by simp)
    have hnext := (h.held next (by simp)).inside
    have hrest := h.placed.rest (by rw [h.reserve_eq]; exact hnext)
    rw [← holdest.size, h.placed.first_eq] at hrest
    refine ⟨h.limit, h.small, ?_, hrest, h.room, ?_, h.linked.tail, ?_⟩
    · show r.count - 1 = rest.length + 1
      rw [hcount]
      rfl
    · intro record hr
      exact (h.held record (List.mem_cons_of_mem _ hr)).congr rfl rfl (.refl _ _)
    · intro record hr
      exact h.latest record (by simpa using hr)

theorem region_dropOldest (r : Ring) :
    r.dropOldest.region = r.region ∧ r.dropOldest.patchLimit = r.patchLimit := by
  unfold Ring.dropOldest
  split <;> exact ⟨rfl, rfl⟩

theorem region_dropNewest (r : Ring) :
    r.dropNewest.1.region = r.region ∧ r.dropNewest.1.patchLimit = r.patchLimit := by
  unfold Ring.dropNewest
  split
  · exact ⟨rfl, rfl⟩
  · split <;> exact ⟨rfl, rfl⟩

theorem capacity_dropNewest (r : Ring) : r.dropNewest.1.capacity = r.capacity :=
  congrArg ByteArray.size r.region_dropNewest.1

theorem Layout.dropNewest (h : Layout r (q ++ [record])) :
    r.dropNewest.2 = some record.1 ∧ Layout r.dropNewest.1 q := by
  have hcount : r.count = q.length + 1 := by simp [h.count]
  have hlatest : r.latest = record.1 := h.latest record (by simp)
  unfold Ring.dropNewest
  rw [if_neg (by omega)]
  rcases List.eq_nil_or_concat' q with rfl | ⟨older, previous, rfl⟩
  · rw [if_pos (by simpa using hcount), hlatest]
    exact ⟨rfl, h.clear⟩
  · have hlink : r.storedPrevious record.1 = previous.1 := by
      have hlinked := h.linked
      rw [List.append_assoc] at hlinked
      exact (List.isChain_append_cons_cons.mp hlinked).2.1
    rw [if_neg (by simp at hcount; omega), hlatest]
    refine ⟨rfl, h.limit, h.small, ?_, h.placed.init, ?_, ?_, h.linked.left_of_append, ?_⟩
    · show r.count - 1 = _
      omega
    · exact (h.held record (by simp)).inside
    · intro other hother
      exact (h.held other (List.mem_append_left _ hother)).congr rfl rfl (.refl _ _)
    · intro other hother
      obtain rfl : previous = other := by simpa using hother
      exact hlink

theorem Layout.newest (h : Layout r (q ++ [record])) : r.newest = some (record.2, record.1) := by
  have hcount : r.count ≠ 0 := by simp [h.count]
  have hlatest : r.latest = record.1 := h.latest record (by simp)
  unfold Ring.newest
  rw [if_neg hcount, hlatest, (h.held record (by simp)).patch]

/-- What is read is the newest record, if there is one. -/
theorem Layout.newest_eq (h : Layout r q) : r.newest = q.getLast?.map Prod.swap := by
  rcases List.eq_nil_or_concat' q with rfl | ⟨older, last, rfl⟩
  · have hcount : r.count = 0 := h.count
    exact if_pos hcount
  · rw [h.newest, List.getLast?_concat]
    rfl

/-- What is dropped is the newest record, if there is one. -/
theorem Layout.dropLast (h : Layout r q) :
    r.dropNewest.2 = q.getLast?.map Prod.fst ∧ Layout r.dropNewest.1 q.dropLast := by
  rcases List.eq_nil_or_concat' q with rfl | ⟨older, last, rfl⟩
  · have hcount : r.count = 0 := h.count
    rw [Ring.dropNewest, if_pos hcount]
    exact ⟨rfl, h⟩
  · rw [List.getLast?_concat, List.dropLast_concat]
    exact h.dropNewest

/-! ### Room for the largest record -/

/-- How many records are evicted before the next one is added. -/
def evictions (r : Ring) : Nat := r.count - r.vacate.count

theorem Layout.evictions_le (h : Layout r q) : r.evictions ≤ q.length := by
  rw [← h.count]
  exact Nat.sub_le _ _

theorem Layout.not_full_nil (h : Layout r []) : ¬ r.freeBytes < r.recordLimit := by
  have hlimit := h.limit
  have hcount : r.count = 0 := h.count
  rw [freeBytes, if_pos hcount, recordLimit_eq h.limit h.small]
  omega

theorem Layout.vacateUpTo (h : Layout r q) {n : Nat} (hn : q.length ≤ n) :
    (r.vacateUpTo n).region = r.region ∧ (r.vacateUpTo n).patchLimit = r.patchLimit ∧
      ¬ (r.vacateUpTo n).freeBytes < (r.vacateUpTo n).recordLimit ∧
      ∃ k ≤ q.length, Layout (r.vacateUpTo n) (q.drop k) := by
  induction n generalizing r q with
  | zero =>
    obtain rfl : q = [] := List.eq_nil_of_length_eq_zero (by omega)
    exact ⟨rfl, rfl, h.not_full_nil, 0, Nat.le_refl _, h⟩
  | succ n ih =>
    rw [Ring.vacateUpTo]
    by_cases hfull : r.freeBytes < r.recordLimit
    · have hq : 0 < q.length := by
        refine List.length_pos_iff.mpr ?_
        rintro rfl
        exact h.not_full_nil hfull
      have hregion := r.region_dropOldest
      rw [if_pos hfull]
      have htail : q.tail.length = q.length - 1 := List.length_tail
      obtain ⟨h1, h2, h3, k, hk, hlayout⟩ := ih h.dropOldest (by omega)
      refine ⟨h1.trans hregion.1, h2.trans hregion.2, h3, k + 1, by omega, ?_⟩
      rwa [← List.drop_one, List.drop_drop, Nat.add_comm] at hlayout
    · rw [if_neg hfull]
      exact ⟨rfl, rfl, hfull, 0, Nat.zero_le _, h⟩

theorem Layout.vacate (h : Layout r q) : Layout r.vacate (q.drop r.evictions) := by
  obtain ⟨-, -, -, k, hk, hlayout⟩ := h.vacateUpTo (Nat.le_of_eq h.count.symm)
  have hcount : r.vacate.count = q.length - k := by
    rw [← List.length_drop]
    exact hlayout.count
  have hevictions : r.evictions = k := by
    rw [evictions, hcount, h.count]
    omega
  rw [hevictions]
  exact hlayout

theorem Layout.not_full (h : Layout r q) : ¬ r.vacate.freeBytes < r.vacate.recordLimit :=
  (h.vacateUpTo (Nat.le_of_eq h.count.symm)).2.2.1

theorem Layout.region_vacate (h : Layout r q) : r.vacate.region = r.region :=
  (h.vacateUpTo (Nat.le_of_eq h.count.symm)).1

theorem Layout.patchLimit_vacate (h : Layout r q) : r.vacate.patchLimit = r.patchLimit :=
  (h.vacateUpTo (Nat.le_of_eq h.count.symm)).2.1

end Ring

end Retrace
