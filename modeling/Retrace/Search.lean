/-!
# Linear search

* `firstFrom p start n`: the first of the `n` numbers from `start` on that satisfies `p`, and
  `start + n` if none does;
* `eq_firstFrom_iff`: these two properties determine it;
* `firstFrom_skip`, `firstFrom_eq_add`: a search may leave out a start without hits, and may count
  from another number;
* `firstFrom_blocks`: a search by blocks is a search within them.
-/

namespace Retrace

/-- The first of the `n` numbers from `start` on that satisfies `p`, or `start + n`. -/
def firstFrom (p : Nat → Bool) (start : Nat) : Nat → Nat
  | 0 => start
  | n + 1 => if p start then start else firstFrom p (start + 1) n

variable {p : Nat → Bool} {start n : Nat}

theorem le_firstFrom : start ≤ firstFrom p start n := by
  induction n generalizing start with
  | zero => exact Nat.le_refl _
  | succ n ih =>
    rw [firstFrom]
    split
    · exact Nat.le_refl _
    · exact Nat.le_of_succ_le ih

theorem firstFrom_le : firstFrom p start n ≤ start + n := by
  induction n generalizing start with
  | zero => exact Nat.le_refl _
  | succ n ih =>
    rw [firstFrom]
    split
    · omega
    · have := @ih (start + 1); omega

/-- Nothing before the first hit is a hit. -/
theorem eq_false_of_lt_firstFrom {i : Nat} (h : start ≤ i) (hi : i < firstFrom p start n) :
    p i = false := by
  induction n generalizing start with
  | zero => rw [firstFrom] at hi; omega
  | succ n ih =>
    rw [firstFrom] at hi
    split at hi
    · omega
    · next hp =>
      by_cases he : i = start
      · subst he; simpa using hp
      · exact ih (by omega) hi

/-- What the search stops at within its range is a hit. -/
theorem firstFrom_hit (h : firstFrom p start n < start + n) : p (firstFrom p start n) = true := by
  induction n generalizing start with
  | zero => rw [firstFrom] at h; omega
  | succ n ih =>
    rw [firstFrom] at h ⊢
    split at h
    · next hp => rw [if_pos hp]; exact hp
    · next hp => rw [if_neg hp]; exact ih (by omega)

theorem eq_firstFrom_iff {k : Nat} :
    k = firstFrom p start n ↔
      start ≤ k ∧ k ≤ start + n ∧ (∀ i, start ≤ i → i < k → p i = false) ∧
        (k < start + n → p k = true) := by
  constructor
  · rintro rfl
    exact ⟨le_firstFrom, firstFrom_le, fun i => eq_false_of_lt_firstFrom, firstFrom_hit⟩
  · rintro ⟨h1, h2, h3, h4⟩
    rcases Nat.lt_trichotomy k (firstFrom p start n) with hlt | heq | hgt
    · have h5 := h4 (by have := @firstFrom_le p start n; omega)
      have h6 := eq_false_of_lt_firstFrom h1 hlt
      rw [h5] at h6
      contradiction
    · exact heq
    · have h5 := h3 _ le_firstFrom hgt
      have h6 : p (firstFrom p start n) = true := firstFrom_hit (by omega)
      rw [h5] at h6
      contradiction

theorem firstFrom_congr {q : Nat → Bool} (h : ∀ i, start ≤ i → i < start + n → p i = q i) :
    firstFrom p start n = firstFrom q start n := by
  rw [eq_firstFrom_iff]
  refine ⟨le_firstFrom, firstFrom_le, fun i h1 h2 => ?_, fun hlt => ?_⟩
  · have := @firstFrom_le p start n
    rw [← h i h1 (by omega)]
    exact eq_false_of_lt_firstFrom h1 h2
  · rw [← h _ le_firstFrom hlt]
    exact firstFrom_hit hlt

/-- A start of the range without hits can be left out. -/
theorem firstFrom_skip {m : Nat} (h : ∀ i, start ≤ i → i < start + m → p i = false) :
    firstFrom p start (m + n) = firstFrom p (start + m) n := by
  symm
  rw [eq_firstFrom_iff]
  have h1 := @le_firstFrom p (start + m) n
  have h2 := @firstFrom_le p (start + m) n
  refine ⟨by omega, by omega, fun i hi hlt => ?_, fun hlt => firstFrom_hit (by omega)⟩
  by_cases him : i < start + m
  · exact h i hi him
  · exact eq_false_of_lt_firstFrom (by omega) hlt

/-- A search that has a hit does not look further. -/
theorem firstFrom_of_lt {m : Nat} (h : firstFrom p start n < start + n) (hm : n ≤ m) :
    firstFrom p start m = firstFrom p start n := by
  symm
  rw [eq_firstFrom_iff]
  exact ⟨le_firstFrom, by omega, fun i => eq_false_of_lt_firstFrom, fun _ => firstFrom_hit h⟩

theorem firstFrom_mono {m : Nat} (hm : n ≤ m) : firstFrom p start n ≤ firstFrom p start m := by
  by_cases h : firstFrom p start n < start + n
  · exact Nat.le_of_eq (firstFrom_of_lt h hm).symm
  · refine Nat.le_of_not_lt fun hlt => ?_
    have hle := @firstFrom_le p start n
    have hhit : p (firstFrom p start m) = true := firstFrom_hit (by omega)
    rw [eq_false_of_lt_firstFrom le_firstFrom hlt] at hhit
    contradiction

/-- Searches that agree up to some place stop at the same number before it, or both go on. -/
theorem min_firstFrom_congr {q : Nat → Bool} {m b : Nat}
    (h : ∀ i, start ≤ i → i < start + b → p i = q i) (hn : b ≤ n) (hm : b ≤ m) :
    min (start + b) (firstFrom p start n) = min (start + b) (firstFrom q start m) := by
  have hb := firstFrom_congr h
  have h1 := @firstFrom_mono p start b n hn
  have h2 := @firstFrom_mono q start b m hm
  have h3 := @firstFrom_le p start b
  by_cases hlt : firstFrom p start b < start + b
  · rw [firstFrom_of_lt hlt hn, firstFrom_of_lt (hb ▸ hlt) hm, hb]
  · omega

/-- The numbers can be counted from another one. -/
theorem firstFrom_shift (p : Nat → Bool) (d start n : Nat) :
    firstFrom p (d + start) n = d + firstFrom (fun i => p (d + i)) start n := by
  induction n generalizing start with
  | zero => rfl
  | succ n ih =>
    rw [firstFrom, firstFrom]
    split
    · rfl
    · exact ih (start + 1)

theorem firstFrom_eq_add (p : Nat → Bool) (d n : Nat) :
    firstFrom p d n = d + firstFrom (fun i => p (d + i)) 0 n :=
  firstFrom_shift p d 0 n

/-- The search for a block of `m` numbers with a hit finds the block of the first hit. -/
theorem firstFrom_blocks {q : Nat → Bool} {m : Nat} (hm : 0 < m)
    (h : ∀ k < n, q k = true ↔ ∃ t < m, p (m * k + t) = true) :
    firstFrom q 0 n = firstFrom p 0 (m * n) / m := by
  symm
  rw [eq_firstFrom_iff, Nat.zero_add]
  have hle : firstFrom p 0 (m * n) ≤ 0 + m * n := firstFrom_le
  rw [Nat.zero_add] at hle
  have hmod := Nat.div_add_mod (firstFrom p 0 (m * n)) m
  have hlt := Nat.mod_lt (firstFrom p 0 (m * n)) hm
  refine ⟨Nat.zero_le _, Nat.div_le_of_le_mul hle, fun k _ hk => ?_, fun hk => ?_⟩
  · have hkn : k < n := Nat.lt_of_lt_of_le hk (Nat.div_le_of_le_mul hle)
    rw [Bool.eq_false_iff]
    intro hq
    obtain ⟨t, ht, hp⟩ := (h k hkn).mp hq
    have hlast : m * k + t < firstFrom p 0 (m * n) := by
      have : m * (k + 1) ≤ m * (firstFrom p 0 (m * n) / m) := Nat.mul_le_mul_left m hk
      rw [Nat.mul_succ] at this
      omega
    rw [eq_false_of_lt_firstFrom (Nat.zero_le _) hlast] at hp
    contradiction
  · refine (h _ hk).mpr ⟨_, hlt, ?_⟩
    rw [hmod]
    refine firstFrom_hit ?_
    rw [Nat.zero_add, Nat.mul_comm]
    exact (Nat.div_lt_iff_lt_mul hm).mp (Nat.mul_comm m n ▸ hk)

end Retrace
