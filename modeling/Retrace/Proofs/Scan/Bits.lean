import Retrace.Scan.Vector

/-!
# The bits behind the scanners

* `trailingZeros_eq_firstFrom`: the search over shifted numbers is a search over bits;
* `testBit_gather`: bit `i` of eight gathered bytes is bit `i % 8` of byte `i / 8`;
* `testBit_zeroLanes`: the marks of `zeroLanes` are the high bits of the zero lanes, and nothing else;
* `testBit_maskOf`: bit `k` of a mask is what the mask was made of.
-/

namespace Retrace

/-! ### The lowest set bit -/

theorem shift_and_one_eq_testBit (x : UInt64) {i : Nat} (h : i < 64) :
    ((x >>> i.toUInt64) &&& 1 == 1) = x.toNat.testBit i := by
  have hi : i.toUInt64.toNat = i := by
    rw [UInt64.toNat_ofNat']
    exact Nat.mod_eq_of_lt (by omega)
  have hshift : ((x >>> i.toUInt64) &&& 1).toNat = x.toNat >>> i % 2 := by
    rw [UInt64.toNat_and, UInt64.toNat_shiftRight, hi, Nat.mod_eq_of_lt h]
    exact Nat.and_one_is_mod _
  rw [Nat.testBit_eq_decide_div_mod_eq, ← Nat.shiftRight_eq_div_pow, ← hshift]
  rw [Bool.eq_iff_iff, beq_iff_eq, decide_eq_true_iff, ← UInt64.toNat_inj]
  rfl

theorem trailingZeros_eq_firstFrom (x : UInt64) :
    trailingZeros x = firstFrom x.toNat.testBit 0 64 :=
  firstFrom_congr fun _ _ h => shift_and_one_eq_testBit x (by omega)

theorem exists_testBit_of_ne_zero {x : UInt64} (h : x ≠ 0) :
    ∃ i < 64, x.toNat.testBit i = true := by
  have hx : x.toNat ≠ 0 := fun h0 => h (UInt64.toNat_inj.mp h0)
  obtain ⟨i, hi⟩ := Nat.exists_testBit_of_ne_zero hx
  refine ⟨i, ?_, hi⟩
  exact Nat.lt_of_not_le fun hle => by
    rw [Nat.testBit_lt_two_pow] at hi
    · contradiction
    · exact Nat.lt_of_lt_of_le x.toNat_lt (Nat.pow_le_pow_right (by decide) hle)

/-! ### Bytes read as one number -/

theorem testBit_toNat_eq_false {v : UInt8} {i : Nat} (h : 8 ≤ i) : v.toNat.testBit i = false :=
  Nat.testBit_lt_two_pow (Nat.lt_of_lt_of_le v.toNat_lt (Nat.pow_le_pow_right (by decide) h))

theorem testBit_gather (b : Bytes) (pos : Nat) {width : Nat} (hw : width ≤ 8) (i : Nat) :
    (b.gather pos width).toNat.testBit i =
      (decide (i < 8 * width) && (b.byteAt (pos + i / 8)).toNat.testBit (i % 8)) := by
  induction width generalizing pos i with
  | zero => simp [Bytes.gather]
  | succ width ih =>
    have ih := ih (pos + 1) (by omega)
    rw [Bytes.gather, UInt64.toNat_or, Nat.testBit_or, UInt64.toNat_shiftLeft,
      Nat.testBit_mod_two_pow, Nat.testBit_shiftLeft, UInt8.toNat_toUInt64]
    by_cases hi : i < 8
    · have h0 : i / 8 = 0 := by omega
      have h1 : i % 8 = i := by omega
      have h2 : ¬ 8 ≤ i := by omega
      have h3 : i < 8 * (width + 1) := by omega
      simp [h0, h1, h2, h3]
    · have h0 : pos + 1 + (i - 8) / 8 = pos + i / 8 := by omega
      have h1 : (i - 8) % 8 = i % 8 := by omega
      have h2 : i - 8 < 8 * width ↔ i < 8 * (width + 1) := by omega
      have h3 : i < 8 * (width + 1) → i < 64 := by omega
      rw [testBit_toNat_eq_false (by omega)]
      simp only [UInt64.reduceToNat, Nat.reduceMod, ih, h0, h1, h2, ge_iff_le, Bool.false_or]
      by_cases h : i < 8 * (width + 1)
      · simp [h, h3 h, show 8 ≤ i by omega]
      · simp [h]

/-! ### Zero lanes -/

/-- The lane of a number that starts at bit `k`. -/
def laneAt (x k : Nat) : Nat := (x >>> k) % 65536

theorem testBit_laneAt (x k t : Nat) : (laneAt x k).testBit t = (decide (t < 16) && x.testBit (k + t)) := by
  rw [laneAt, show 65536 = 2 ^ 16 from rfl, Nat.testBit_mod_two_pow, Nat.testBit_shiftRight]

theorem laneAt_eq_zero_iff (x k : Nat) : laneAt x k = 0 ↔ ∀ t < 16, x.testBit (k + t) = false := by
  constructor
  · intro h t ht
    have hbit := testBit_laneAt x k t
    rw [h, Nat.zero_testBit, decide_eq_true ht, Bool.true_and] at hbit
    exact hbit.symm
  · intro h
    refine Nat.eq_of_testBit_eq fun t => ?_
    rw [testBit_laneAt, Nat.zero_testBit]
    by_cases ht : t < 16
    · rw [h t ht, Bool.and_false]
    · rw [decide_eq_false ht, Bool.false_and]

theorem laneAt_and (a b k : Nat) : laneAt (a &&& b) k = laneAt a k &&& laneAt b k := by
  refine Nat.eq_of_testBit_eq fun t => ?_
  rw [Nat.testBit_and, testBit_laneAt, testBit_laneAt, testBit_laneAt, Nat.testBit_and]
  cases decide (t < 16) <;> rfl

/-- What is left of a lane without its high bit. -/
theorem laneAt_and_laneLow (x k : Nat) (h : laneAt laneLow.toNat k = 32767) :
    laneAt (x &&& laneLow.toNat) k = laneAt x k % 32768 := by
  rw [laneAt_and, h]
  exact Nat.and_two_pow_sub_one_eq_mod (laneAt x k) 15

theorem add_div_of_mod_add_mod_lt {a b m : Nat} (h : a % m + b % m < m) :
    (a + b) / m = a / m + b / m := by
  have ha := Nat.div_add_mod a m
  have hb := Nat.div_add_mod b m
  have hsum : a + b = m * (a / m + b / m) + (a % m + b % m) := by
    rw [Nat.mul_add]
    omega
  rw [hsum, Nat.mul_add_div (by omega), Nat.div_eq_of_lt h, Nat.add_zero]

theorem testBit_fifteen {v : Nat} (h : v < 65536) : v.testBit 15 = decide (32768 ≤ v) := by
  rw [Nat.testBit_eq_decide_div_mod_eq, decide_eq_decide]
  omega

/-- Adding `laneLow` to a number without high bits carries nothing from one lane to the next. -/
theorem laneAt_and_add {a k : Nat} (hlow : laneAt laneLow.toNat k = 32767)
    (hfree : 2 * (laneLow.toNat % (1 <<< k)) < 1 <<< k) :
    laneAt ((a &&& laneLow.toNat) + laneLow.toNat) k = laneAt a k % 32768 + 32767 := by
  have hy := laneAt_and_laneLow a k hlow
  have hmod : (a &&& laneLow.toNat) % (1 <<< k) ≤ laneLow.toNat % (1 <<< k) := by
    rw [Nat.one_shiftLeft, Nat.and_mod_two_pow]
    exact Nat.and_le_right
  have hdiv : ((a &&& laneLow.toNat) + laneLow.toNat) >>> k =
      (a &&& laneLow.toNat) >>> k + laneLow.toNat >>> k := by
    simp only [Nat.shiftRight_eq_div_pow, ← Nat.one_shiftLeft]
    exact add_div_of_mod_add_mod_lt (by omega)
  rw [laneAt] at hlow hy
  rw [laneAt, hdiv]
  omega

theorem laneLow_add_toNat (x : UInt64) :
    ((x &&& laneLow) + laneLow).toNat = (x.toNat &&& laneLow.toNat) + laneLow.toNat := by
  have hle : x.toNat &&& laneLow.toNat ≤ laneLow.toNat := Nat.and_le_right
  have hlow : laneLow.toNat = 9223231297218904063 := rfl
  rw [UInt64.toNat_add, UInt64.toNat_and]
  exact Nat.mod_eq_of_lt (by omega)

/-- The high bit of a lane, after `laneLow` was added to its low bits, tells whether the lane was zero. -/
theorem testBit_nonzero (x : UInt64) {k : Nat} (hlow : laneAt laneLow.toNat k = 32767)
    (hfree : 2 * (laneLow.toNat % (1 <<< k)) < 1 <<< k) :
    (((x &&& laneLow) + laneLow) ||| x).toNat.testBit (k + 15) = decide (laneAt x.toNat k ≠ 0) := by
  have hbit (v : Nat) : v.testBit (k + 15) = decide (32768 ≤ laneAt v k) := by
    have hv : laneAt v k < 65536 := Nat.mod_lt _ (by decide)
    rw [← testBit_fifteen hv, testBit_laneAt]
    rfl
  have hlt : laneAt x.toNat k < 65536 := Nat.mod_lt _ (by decide)
  rw [UInt64.toNat_or, Nat.testBit_or, hbit, hbit, laneLow_add_toNat, laneAt_and_add hlow hfree,
    ← Bool.decide_or, decide_eq_decide]
  omega

theorem testBit_laneHigh {i : Nat} (h : i < 64) : laneHigh.toNat.testBit i = decide (i % 16 = 15) := by
  have hall : ∀ j : Fin 64, laneHigh.toNat.testBit j = decide (j.val % 16 = 15) := by decide
  exact hall ⟨i, h⟩

theorem testBit_not (x : UInt64) {i : Nat} (h : i < 64) :
    (~~~x).toNat.testBit i = !x.toNat.testBit i := by
  have hbit := BitVec.getLsbD_not (x := x.toBitVec) (i := i)
  rw [decide_eq_true h, Bool.true_and] at hbit
  exact hbit

theorem testBit_zeroLanes (x : UInt64) {i : Nat} (h : i < 64) :
    (zeroLanes x).toNat.testBit i =
      (decide (i % 16 = 15) && decide (laneAt x.toNat (16 * (i / 16)) = 0)) := by
  have hlanes : ∀ j : Fin 4, laneAt laneLow.toNat (16 * j) = 32767 ∧
      2 * (laneLow.toNat % (1 <<< (16 * j.val))) < 1 <<< (16 * j.val) := by decide
  rw [zeroLanes, UInt64.toNat_and, Nat.testBit_and, testBit_not _ h, UInt64.toNat_and,
    Nat.testBit_and, testBit_laneHigh h]
  by_cases hi : i % 16 = 15
  · obtain ⟨hlow, hfree⟩ := hlanes ⟨i / 16, by omega⟩
    have hbit := testBit_nonzero x hlow hfree
    rw [show 16 * (i / 16) + 15 = i by omega] at hbit
    rw [hbit, decide_eq_true hi, Bool.and_true, Bool.and_true, Bool.true_and, ← decide_not]
    exact decide_eq_decide.mpr Decidable.not_not
  · rw [decide_eq_false hi, Bool.and_false, Bool.false_and]

/-! ### Masks -/

theorem testBit_maskOf (p : Nat → Bool) {n : Nat} (hn : n ≤ 16) (i : Nat) :
    (maskOf p n).toNat.testBit i = (decide (i < n) && p i) := by
  induction n with
  | zero => simp [maskOf]
  | succ n ih =>
    have hbit : (if p n then (1 : UInt16) <<< n.toUInt16 else 0).toNat.testBit i =
        (decide (i = n) && p n) := by
      cases p n with
      | false => simp
      | true =>
        have h16 : n.toUInt16.toNat = n := by
          rw [UInt16.toNat_ofNat']
          exact Nat.mod_eq_of_lt (by omega)
        rw [if_pos rfl, UInt16.toNat_shiftLeft, h16, Nat.mod_eq_of_lt (by omega : n < 16),
          Nat.testBit_mod_two_pow, UInt16.toNat_one, Nat.one_shiftLeft, Nat.testBit_two_pow]
        by_cases h : n = i
        · simp [h.symm, show n < 16 by omega]
        · simp [h, Ne.symm h]
    rw [maskOf, UInt16.toNat_or, Nat.testBit_or, ih (by omega), hbit]
    rcases Nat.lt_trichotomy i n with h | h | h
    · simp [h, Nat.ne_of_lt h, Nat.lt_succ_of_lt h]
    · simp [h]
    · simp [Nat.not_lt_of_gt h, Nat.ne_of_gt h, show ¬ i < n + 1 by omega]

end Retrace
