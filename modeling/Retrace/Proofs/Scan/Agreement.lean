import Retrace.Proofs.Scan.Bits
import Retrace.Scan.Scanner

/-!
# Every scanner sees what a comparison word by word sees

The scanners compare eight or sixteen bytes at once and turn the place of a bit into the place of a
word.  A block without a hit moves the window on, a block with one gives the answer, and what is left
at the end is searched byte by byte or word by word.

* `equalSpan_drop`, `differingSpan_drop`: a start without a hit can be dropped from the window;
* `equalSpan_eq`, `differingSpan_eq`: every scanner counts what `Window.equalSpan` and
  `Window.differingSpan` count.
-/

namespace Retrace

/-- The bytes of word `k`; the last word of a string of odd size has one. -/
def Bytes.wordAt (b : Bytes) (k : Nat) : Bytes := b.extract (2 * k) (2 * k + 2)

namespace Window

/-! ### Words as bytes -/

/-- A word is equal if all its bytes are. -/
theorem sameWord_whole_iff {old new : Bytes} (h : old.size = new.size) {k : Nat} :
    (whole old new).sameWord k = true ↔ ∀ i < old.size, i / 2 = k → old.byteAt i = new.byteAt i := by
  have hsize : (whole old new).size = old.size := rfl
  have hbyte (j : Nat) : (whole old new).sameByte j = true ↔ old.byteAt j = new.byteAt j := by
    simp only [sameByte, whole, Nat.zero_add, beq_iff_eq]
  rw [sameWord, Bool.and_eq_true, Bool.or_eq_true, decide_eq_true_eq, hsize, hbyte, hbyte]
  constructor
  · rintro ⟨h0, h1⟩ i hi rfl
    rcases Nat.mod_two_eq_zero_or_one i with heven | hodd
    · rwa [show 2 * (i / 2) = i by omega] at h0
    · have hlast := h1.resolve_left (by omega)
      rwa [show 2 * (i / 2) + 1 = i by omega] at hlast
  · intro hall
    refine ⟨?_, ?_⟩
    · by_cases hk : 2 * k < old.size
      · exact hall _ hk (by omega)
      · rw [Bytes.byteAt_of_size_le (by omega), Bytes.byteAt_of_size_le (by omega)]
    · by_cases hk : 2 * k + 1 < old.size
      · exact Or.inr (hall _ hk (by omega))
      · exact Or.inl (by omega)

theorem sameWord_iff_wordAt_eq {old new : Bytes} (h : old.size = new.size) (k : Nat) :
    (whole old new).sameWord k = true ↔ old.wordAt k = new.wordAt k := by
  rw [sameWord_whole_iff h]
  constructor
  · intro hall
    refine Bytes.ext_byteAt ?_ fun i hi => ?_
    · rw [Bytes.wordAt, Bytes.wordAt, ByteArray.size_extract, ByteArray.size_extract, h]
    · rw [Bytes.wordAt, ByteArray.size_extract] at hi
      rw [Bytes.wordAt, Bytes.wordAt, Bytes.byteAt_extract, Bytes.byteAt_extract, if_pos (by omega),
        if_pos (by omega)]
      exact hall _ (by omega) (by omega)
  · rintro heq i hi rfl
    have hbyte := congrArg (Bytes.byteAt · (i - 2 * (i / 2))) heq
    simp only [Bytes.wordAt, Bytes.byteAt_extract] at hbyte
    rwa [if_pos (by omega), if_pos (by omega), Nat.add_sub_cancel' (by omega)] at hbyte

/-! ### Moving a window on -/

@[simp]
theorem sameByte_drop (w : Window) (k i : Nat) : (w.drop k).sameByte i = w.sameByte (2 * k + i) := by
  simp only [sameByte, drop, Nat.add_assoc]

@[simp]
theorem words_drop (w : Window) (k : Nat) : (w.drop k).words = w.words - k := by
  simp only [words, drop, wordCount]
  omega

@[simp]
theorem size_drop (w : Window) (k : Nat) : (w.drop k).size = w.size - 2 * k := rfl

theorem sameWord_drop (w : Window) (k j : Nat) : (w.drop k).sameWord j = w.sameWord (k + j) := by
  have h1 : 2 * k + 2 * j = 2 * (k + j) := by omega
  have h2 : 2 * k + (2 * j + 1) = 2 * (k + j) + 1 := by omega
  have h3 : (w.size - 2 * k ≤ 2 * j + 1) = (w.size ≤ 2 * (k + j) + 1) := by
    rw [eq_iff_iff]
    omega
  simp only [sameWord, sameByte_drop, size_drop, h1, h2, h3]

theorem drop_drop (w : Window) (k j : Nat) : (w.drop k).drop j = w.drop (k + j) := by
  simp only [drop]
  congr 1 <;> omega

theorem equalSpan_drop {w : Window} {m : Nat} (hm : m ≤ w.words)
    (h : ∀ k < m, w.sameWord k = true) : w.equalSpan = m + (w.drop m).equalSpan := by
  have hw : w.words = m + (w.words - m) := by omega
  rw [equalSpan, hw, firstFrom_skip fun k _ hk => by rw [h k (by omega)]; rfl, Nat.zero_add,
    firstFrom_eq_add, equalSpan, words_drop]
  simp only [sameWord_drop]

theorem differingSpan_drop {w : Window} {m : Nat} (hm : m ≤ w.words)
    (h : ∀ k < m, w.sameWord k = false) : w.differingSpan = m + (w.drop m).differingSpan := by
  have hw : w.words = m + (w.words - m) := by omega
  rw [differingSpan, hw, firstFrom_skip fun k _ hk => h k (by omega), Nat.zero_add,
    firstFrom_eq_add, differingSpan, words_drop]
  congr 1
  exact firstFrom_congr fun i _ _ => (sameWord_drop w m i).symm

/-- Words that differ, where the first words were searched already. -/
theorem equalSpan_of_lt {w : Window} {n : Nat} (hn : n ≤ w.words)
    (h : firstFrom (fun k => !w.sameWord k) 0 n < n) :
    w.equalSpan = firstFrom (fun k => !w.sameWord k) 0 n :=
  firstFrom_of_lt (by omega) hn

theorem differingSpan_of_lt {w : Window} {n : Nat} (hn : n ≤ w.words)
    (h : firstFrom w.sameWord 0 n < n) : w.differingSpan = firstFrom w.sameWord 0 n :=
  firstFrom_of_lt (by omega) hn

theorem sameWord_iff {w : Window} {k : Nat} (h : 2 * k + 1 < w.size) :
    w.sameWord k = true ↔ w.sameByte (2 * k) = true ∧ w.sameByte (2 * k + 1) = true := by
  have hk : ¬ w.size ≤ 2 * k + 1 := by omega
  simp [sameWord, hk]

/-- Whether a byte of the window differs. -/
def differsAt (w : Window) (t : Nat) : Bool := decide (t < w.size) && !w.sameByte t

/-- A word differs where one of its two bytes does. -/
theorem not_sameWord_iff {w : Window} {k : Nat} (hk : k < w.words) :
    (!w.sameWord k) = true ↔ ∃ t < 2, w.differsAt (2 * k + t) = true := by
  have hk0 : 2 * k < w.size := by
    rw [words, wordCount] at hk
    omega
  constructor
  · intro hq
    by_cases h0 : w.sameByte (2 * k) = true
    · refine ⟨1, by decide, ?_⟩
      simp only [sameWord, h0, Bool.true_and, Bool.not_eq_true', Bool.or_eq_false_iff,
        decide_eq_false_iff_not, Nat.not_le] at hq
      simp [differsAt, hq.1, hq.2]
    · exact ⟨0, by decide, by simp [differsAt, hk0, h0]⟩
  · rintro ⟨t, ht, hp⟩
    simp only [differsAt, Bool.and_eq_true, decide_eq_true_eq, Bool.not_eq_true'] at hp
    obtain ⟨hlt, hp⟩ := hp
    rcases (by omega : t = 0 ∨ t = 1) with rfl | rfl
    · simp only [Nat.add_zero] at hp
      simp [sameWord, hp]
    · simp [sameWord, hp, show ¬ w.size ≤ 2 * k + 1 by omega]

theorem firstFrom_differsAt {w : Window} {n : Nat} (hn : w.size ≤ n) :
    firstFrom w.differsAt 0 n =
      if firstFrom (fun k => !w.sameByte k) 0 w.size < w.size then
        firstFrom (fun k => !w.sameByte k) 0 w.size
      else n := by
  have hcongr : firstFrom w.differsAt 0 w.size = firstFrom (fun k => !w.sameByte k) 0 w.size :=
    firstFrom_congr fun i _ hi => by simp [differsAt, show i < w.size by omega]
  rw [← hcongr]
  split
  · next h => exact firstFrom_of_lt (by omega) hn
  · next h =>
    symm
    rw [eq_firstFrom_iff]
    refine ⟨Nat.zero_le _, by omega, fun i _ _ => ?_, fun hlt => by omega⟩
    by_cases hi : i < w.size
    · exact eq_false_of_lt_firstFrom (Nat.zero_le i) (Nat.lt_of_lt_of_le hi (Nat.le_of_not_lt h))
    · simp [differsAt, hi]

/-- The equal words at the start of a window, found byte by byte. -/
theorem equalSpan_eq_byte (w : Window) :
    w.equalSpan =
      if firstFrom (fun k => !w.sameByte k) 0 w.size < w.size then
        firstFrom (fun k => !w.sameByte k) 0 w.size / 2
      else w.words := by
  have hwords : w.words = (w.size + 1) / 2 := rfl
  have hblocks : w.equalSpan = firstFrom w.differsAt 0 (2 * w.words) / 2 :=
    firstFrom_blocks (by decide) fun k hk => not_sameWord_iff hk
  rw [hblocks, firstFrom_differsAt (by omega)]
  split
  · rfl
  · exact Nat.mul_div_cancel_left _ (by decide)

/-! ### Eight bytes at a time -/

theorem difference_drop (w : Window) (a : Nat) : w.difference (2 * a) = (w.drop a).difference 0 := rfl

theorem sameByte_iff_difference (w : Window) {j : Nat} (h : j < 8) :
    w.sameByte j = true ↔ ∀ t < 8, (w.difference 0).toNat.testBit (8 * j + t) = false := by
  have hbit : ∀ t < 8, (w.difference 0).toNat.testBit (8 * j + t) =
      ((w.left.byteAt (w.start + j)).toNat.testBit t ^^
        (w.right.byteAt (w.start + j)).toNat.testBit t) := by
    intro t ht
    have h1 : (8 * j + t) / 8 = j := by omega
    have h2 : (8 * j + t) % 8 = t := by omega
    have h3 : 8 * j + t < 8 * 8 := by omega
    rw [difference, UInt64.toNat_xor, Nat.testBit_xor, testBit_gather _ _ (by decide),
      testBit_gather _ _ (by decide), h1, h2, decide_eq_true h3, Bool.true_and, Bool.true_and,
      Nat.add_zero]
  rw [sameByte, beq_iff_eq]
  constructor
  · intro heq t ht
    rw [hbit t ht, heq, Bool.xor_self]
  · intro hall
    rw [← UInt8.toNat_inj]
    refine Nat.eq_of_testBit_eq fun t => ?_
    by_cases ht : t < 8
    · have hx := hall t ht
      rw [hbit t ht] at hx
      exact bne_eq_false_iff_eq.mp hx
    · rw [testBit_toNat_eq_false (by omega), testBit_toNat_eq_false (by omega)]

theorem sameWord_iff_difference {w : Window} (hw : 8 ≤ w.size) {k : Nat} (h : k < 4) :
    w.sameWord k = true ↔ ∀ t < 16, (w.difference 0).toNat.testBit (16 * k + t) = false := by
  rw [sameWord_iff (by omega), sameByte_iff_difference w (by omega),
    sameByte_iff_difference w (by omega)]
  constructor
  · rintro ⟨h0, h1⟩ t ht
    by_cases ht8 : t < 8
    · have := h0 t ht8
      rwa [show 8 * (2 * k) + t = 16 * k + t by omega] at this
    · have := h1 (t - 8) (by omega)
      rwa [show 8 * (2 * k + 1) + (t - 8) = 16 * k + t by omega] at this
  · intro hall
    refine ⟨fun t ht => ?_, fun t ht => ?_⟩
    · rw [show 8 * (2 * k) + t = 16 * k + t by omega]
      exact hall t (by omega)
    · rw [show 8 * (2 * k + 1) + t = 16 * k + (t + 8) by omega]
      exact hall (t + 8) (by omega)

theorem trailingZeros_lt {x : UInt64} (h : x ≠ 0) : trailingZeros x < 64 := by
  obtain ⟨i, hi, hbit⟩ := exists_testBit_of_ne_zero h
  rw [trailingZeros_eq_firstFrom]
  refine Nat.lt_of_not_le fun hle => ?_
  have hnone := eq_false_of_lt_firstFrom (Nat.zero_le i) (Nat.lt_of_lt_of_le hi hle)
  rw [hbit] at hnone
  contradiction

/-- The first of four words that differs is where the lowest set bit of the difference is. -/
theorem firstFrom_differing {w : Window} (hw : 8 ≤ w.size) :
    firstFrom (fun k => !w.sameWord k) 0 4 = trailingZeros (w.difference 0) / 16 := by
  rw [trailingZeros_eq_firstFrom]
  refine firstFrom_blocks (m := 16) (n := 4) (by decide) fun k hk => ?_
  rw [Bool.not_eq_true', Bool.eq_false_iff, ne_eq, sameWord_iff_difference hw hk]
  simp only [Classical.not_forall, Bool.not_eq_false, exists_prop]

/-- The first of four words that is equal is where the lowest mark of the zero lanes is. -/
theorem firstFrom_same {w : Window} (hw : 8 ≤ w.size) :
    firstFrom w.sameWord 0 4 = trailingZeros (zeroLanes (w.difference 0)) / 16 := by
  rw [trailingZeros_eq_firstFrom]
  refine firstFrom_blocks (m := 16) (n := 4) (by decide) fun k hk => ?_
  rw [sameWord_iff_difference hw hk, ← laneAt_eq_zero_iff]
  constructor
  · intro hzero
    refine ⟨15, by decide, ?_⟩
    rw [testBit_zeroLanes _ (by omega), show (16 * k + 15) / 16 = k by omega, hzero]
    simp
  · rintro ⟨t, ht, hbit⟩
    rw [testBit_zeroLanes _ (by omega), show (16 * k + t) / 16 = k by omega, Bool.and_eq_true] at hbit
    exact of_decide_eq_true hbit.2

theorem scalarEqualFrom_eq (w : Window) {a n : Nat} (h : 2 * a + 8 * n ≤ w.size) :
    w.scalarEqualFrom (2 * a) n = a + (w.drop a).equalSpan := by
  induction n generalizing a with
  | zero =>
    have hwords : w.words = (w.size + 1) / 2 := rfl
    rw [equalSpan_eq_byte, scalarEqualFrom, firstFrom_eq_add, words_drop, size_drop]
    simp only [sameByte_drop]
    split <;> split <;> omega
  | succ n ih =>
    have hsize : 8 ≤ (w.drop a).size := by
      rw [size_drop]
      omega
    have hwords : 4 ≤ (w.drop a).words := by
      rw [words, wordCount]
      omega
    have hfirst := firstFrom_differing hsize
    rw [scalarEqualFrom, difference_drop]
    split
    · next hd =>
      have hall : ∀ k < 4, (w.drop a).sameWord k = true := by
        intro k hk
        rw [sameWord_iff_difference hsize hk, hd]
        exact fun t _ => Nat.zero_testBit _
      rw [equalSpan_drop hwords hall, drop_drop, show 2 * a + 8 = 2 * (a + 4) by omega,
        ih (by omega)]
      omega
    · next hd =>
      have := trailingZeros_lt hd
      rw [equalSpan_of_lt hwords (by omega), hfirst]
      omega

theorem scalarDifferingFrom_eq (w : Window) {a n : Nat} (h : 2 * a + 8 * n ≤ w.size) :
    w.scalarDifferingFrom (2 * a) n = a + (w.drop a).differingSpan := by
  induction n generalizing a with
  | zero =>
    rw [scalarDifferingFrom, Nat.mul_div_cancel_left a (by decide), firstFrom_eq_add, differingSpan,
      words_drop]
    congr 1
    exact firstFrom_congr fun i _ _ => (sameWord_drop w a i).symm
  | succ n ih =>
    have hsize : 8 ≤ (w.drop a).size := by
      rw [size_drop]
      omega
    have hwords : 4 ≤ (w.drop a).words := by
      rw [words, wordCount]
      omega
    have hfirst := firstFrom_same hsize
    rw [scalarDifferingFrom, difference_drop]
    split
    · next hz =>
      have hnone : trailingZeros (0 : UInt64) = 64 := by decide
      have hall : ∀ k < 4, (w.drop a).sameWord k = false := by
        intro k hk
        refine eq_false_of_lt_firstFrom (Nat.zero_le k) (n := 4) ?_
        rw [hfirst, hz, hnone]
        exact hk
      rw [differingSpan_drop hwords hall, drop_drop, show 2 * a + 8 = 2 * (a + 4) by omega,
        ih (by omega)]
      omega
    · next hz =>
      have := trailingZeros_lt hz
      rw [differingSpan_of_lt hwords (by omega), hfirst]
      omega

theorem scalarEqualSpan_eq (w : Window) : w.scalarEqualSpan = w.equalSpan := by
  have h := w.scalarEqualFrom_eq (a := 0) (n := w.size / 8) (by omega)
  rwa [Nat.zero_add] at h

theorem scalarDifferingSpan_eq (w : Window) : w.scalarDifferingSpan = w.differingSpan := by
  have h := w.scalarDifferingFrom_eq (a := 0) (n := w.size / 8) (by omega)
  rwa [Nat.zero_add] at h

/-! ### Sixteen bytes at a time -/

theorem byteMask_drop (w : Window) (a : Nat) : w.byteMask (2 * a) = (w.drop a).byteMask 0 := by
  simp only [byteMask, sameByte_drop, Nat.zero_add]

theorem wordMask_drop (w : Window) (a : Nat) : w.wordMask (2 * a) = (w.drop a).wordMask 0 := by
  simp only [wordMask, sameByte_drop, Nat.zero_add, Nat.add_assoc]

theorem testBit_byteMask (w : Window) {t : Nat} (h : t < 16) :
    (w.byteMask 0).toNat.testBit t = w.sameByte t := by
  rw [byteMask, testBit_maskOf _ (by decide), decide_eq_true h, Bool.true_and, Nat.zero_add]

theorem testBit_wordMask {w : Window} (hw : 16 ≤ w.size) {t : Nat} (h : t < 16) :
    (w.wordMask 0).toNat.testBit t = w.sameWord (t / 2) := by
  rw [wordMask, testBit_maskOf _ (by decide), decide_eq_true h, Bool.true_and, Bool.eq_iff_iff,
    sameWord_iff (by omega)]
  simp only [Nat.zero_add, Bool.and_eq_true]

/-- The first of eight words that differs is where the lowest zero of the mask is. -/
theorem firstFrom_differing_byteMask {w : Window} (hw : 16 ≤ w.size) :
    firstFrom (fun k => !w.sameWord k) 0 8 =
      firstFrom (~~~(w.byteMask 0)).toUInt64.toNat.testBit 0 16 / 2 := by
  refine firstFrom_blocks (m := 2) (n := 8) (by decide) fun k hk => ?_
  have hbit : ∀ t < 16, (~~~(w.byteMask 0)).toUInt64.toNat.testBit t = !w.sameByte t := by
    intro t ht
    have hnot := BitVec.getLsbD_not (x := (w.byteMask 0).toBitVec) (i := t)
    rw [decide_eq_true ht, Bool.true_and] at hnot
    rw [← testBit_byteMask w ht]
    exact hnot
  rw [Bool.not_eq_true', Bool.eq_false_iff, ne_eq, sameWord_iff (by omega), Decidable.not_and_iff_or_not]
  constructor
  · rintro (h0 | h1)
    · exact ⟨0, by decide, by rw [hbit _ (by omega)]; simpa using h0⟩
    · exact ⟨1, by decide, by rw [hbit _ (by omega)]; simpa using h1⟩
  · rintro ⟨t, ht, hp⟩
    rw [hbit _ (by omega)] at hp
    rcases (by omega : t = 0 ∨ t = 1) with rfl | rfl
    · exact Or.inl (by simpa using hp)
    · exact Or.inr (by simpa using hp)

/-- The first of eight words that is equal is where the lowest bit of the mask is. -/
theorem firstFrom_same_wordMask {w : Window} (hw : 16 ≤ w.size) :
    firstFrom w.sameWord 0 8 = firstFrom (w.wordMask 0).toUInt64.toNat.testBit 0 16 / 2 := by
  refine firstFrom_blocks (m := 2) (n := 8) (by decide) fun k hk => ?_
  have hbit : ∀ t < 2, (w.wordMask 0).toUInt64.toNat.testBit (2 * k + t) = w.sameWord k := by
    intro t ht
    have := testBit_wordMask hw (t := 2 * k + t) (by omega)
    rwa [show (2 * k + t) / 2 = k by omega] at this
  constructor
  · intro hq
    exact ⟨0, by decide, by rw [hbit 0 (by decide), hq]⟩
  · rintro ⟨t, ht, hp⟩
    rwa [hbit t ht] at hp

/-- A mask that is not empty has its lowest bit among its sixteen. -/
theorem trailingZeros_mask {m : UInt16} (h : m ≠ 0) :
    trailingZeros m.toUInt64 = firstFrom m.toUInt64.toNat.testBit 0 16 ∧
      firstFrom m.toUInt64.toNat.testBit 0 16 < 16 := by
  have hm : m.toNat ≠ 0 := fun h0 => h (UInt16.toNat_inj.mp h0)
  obtain ⟨i, hi⟩ := Nat.exists_testBit_of_ne_zero hm
  have hlt : firstFrom m.toUInt64.toNat.testBit 0 16 < 16 := by
    refine Nat.lt_of_not_le fun hle => ?_
    by_cases hi16 : i < 16
    · have hnone := eq_false_of_lt_firstFrom (Nat.zero_le i) (Nat.lt_of_lt_of_le hi16 hle)
      rw [UInt16.toNat_toUInt64, hi] at hnone
      contradiction
    · rw [Nat.testBit_lt_two_pow] at hi
      · contradiction
      · exact Nat.lt_of_lt_of_le m.toNat_lt (Nat.pow_le_pow_right (by decide) (by omega))
  exact ⟨by rw [trailingZeros_eq_firstFrom, firstFrom_of_lt (by omega) (by decide : 16 ≤ 64)], hlt⟩

theorem vectorEqualFrom_eq (w : Window) {a n : Nat} (h : 2 * a + 16 * n ≤ w.size) :
    w.vectorEqualFrom (2 * a) n = a + (w.drop a).equalSpan := by
  induction n generalizing a with
  | zero => rw [vectorEqualFrom, Nat.mul_div_cancel_left a (by decide), scalarEqualSpan_eq]
  | succ n ih =>
    have hsize : 16 ≤ (w.drop a).size := by
      rw [size_drop]
      omega
    have hwords : 8 ≤ (w.drop a).words := by
      rw [words, wordCount]
      omega
    have hfirst := firstFrom_differing_byteMask hsize
    rw [vectorEqualFrom, byteMask_drop]
    split
    · next hm =>
      have hbyte : ∀ t < 16, (w.drop a).sameByte t = true := by
        intro t ht
        rw [← testBit_byteMask _ ht, hm]
        exact (by decide : ∀ j : Fin 16, (0xFFFF : UInt16).toNat.testBit j = true) ⟨t, ht⟩
      have hall : ∀ k < 8, (w.drop a).sameWord k = true := fun k hk =>
        (sameWord_iff (by omega)).mpr ⟨hbyte _ (by omega), hbyte _ (by omega)⟩
      rw [equalSpan_drop hwords hall, drop_drop, show 2 * a + 16 = 2 * (a + 8) by omega,
        ih (by omega)]
      omega
    · next hm =>
      have hne : ~~~((w.drop a).byteMask 0) ≠ 0 := by
        intro h0
        refine hm ?_
        rw [← UInt16.not_not (a := (w.drop a).byteMask 0), h0]
        rfl
      obtain ⟨htz, hlt⟩ := trailingZeros_mask hne
      rw [equalSpan_of_lt hwords (by omega), hfirst, htz]
      omega

theorem vectorDifferingFrom_eq (w : Window) {a n : Nat} (h : 2 * a + 16 * n ≤ w.size) :
    w.vectorDifferingFrom (2 * a) n = a + (w.drop a).differingSpan := by
  induction n generalizing a with
  | zero => rw [vectorDifferingFrom, Nat.mul_div_cancel_left a (by decide), scalarDifferingSpan_eq]
  | succ n ih =>
    have hsize : 16 ≤ (w.drop a).size := by
      rw [size_drop]
      omega
    have hwords : 8 ≤ (w.drop a).words := by
      rw [words, wordCount]
      omega
    have hfirst := firstFrom_same_wordMask hsize
    rw [vectorDifferingFrom, wordMask_drop]
    split
    · next hm =>
      have hall : ∀ k < 8, (w.drop a).sameWord k = false := by
        intro k hk
        have hbit := testBit_wordMask hsize (t := 2 * k) (by omega)
        rw [hm, Nat.mul_div_cancel_left k (by decide)] at hbit
        exact hbit.symm.trans (Nat.zero_testBit _)
      rw [differingSpan_drop hwords hall, drop_drop, show 2 * a + 16 = 2 * (a + 8) by omega,
        ih (by omega)]
      omega
    · next hm =>
      obtain ⟨htz, hlt⟩ := trailingZeros_mask hm
      rw [differingSpan_of_lt hwords (by omega), hfirst, htz]
      omega

end Window

/-! ### The scanners -/

namespace Scanner

theorem equalSpan_eq (s : Scanner) (w : Window) : s.equalSpan w = w.equalSpan := by
  cases s with
  | scalar => exact w.scalarEqualSpan_eq
  | vector =>
    have h := w.vectorEqualFrom_eq (a := 0) (n := w.size / 16) (by omega)
    rwa [Nat.zero_add] at h

theorem differingSpan_eq (s : Scanner) (w : Window) : s.differingSpan w = w.differingSpan := by
  cases s with
  | scalar => exact w.scalarDifferingSpan_eq
  | vector =>
    have h := w.vectorDifferingFrom_eq (a := 0) (n := w.size / 16) (by omega)
    rwa [Nat.zero_add] at h

end Scanner

end Retrace
