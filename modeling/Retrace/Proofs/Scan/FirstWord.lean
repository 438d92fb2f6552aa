import Mathlib.Order.Bounds.Basic
import Retrace.Proofs.Checks
import Retrace.Proofs.Scan.Agreement

/-!
# The first word of two strings

The scanners go through two strings in blocks of sixteen bytes, of eight or of one.  Here each of these loops runs as long
as there is a whole block ahead, and what it reads of either string is checked to be there.

* `searchFrom?`: a loop over blocks, and `searchFrom?_eq_some`: the answer of a loop that keeps an invariant;
* `searchFrom?_eq_loop`: the answer of a loop that goes the way of another one;
* `equalSpan?_eq`: the loops answer what the scanners answer;
* `equalSpan_first`: that is the least index of a word that differs.
-/

namespace Retrace

open Window

/-- A search finds the least of what it looks for, or ends where there is nothing of it. -/
theorem firstFrom_isLeast {p : Nat → Bool} {start n : Nat} {S : Set Nat}
    (hS : ∀ k, k ∈ S ↔ (start ≤ k ∧ k < start + n) ∧ p k = true) :
    (S.Nonempty → IsLeast S (firstFrom p start n)) ∧ (¬ S.Nonempty → firstFrom p start n = start + n) := by
  have hle : firstFrom p start n ≤ start + n := firstFrom_le
  have hfound (hlt : firstFrom p start n < start + n) : firstFrom p start n ∈ S :=
    (hS _).mpr ⟨⟨le_firstFrom, hlt⟩, firstFrom_hit hlt⟩
  have hleast {k : Nat} (hk : k ∈ S) : firstFrom p start n ≤ k := by
    obtain ⟨⟨hstart, -⟩, hhit⟩ := (hS k).mp hk
    refine Nat.le_of_not_lt fun hlt => ?_
    rw [eq_false_of_lt_firstFrom hstart hlt] at hhit
    contradiction
  constructor
  · rintro ⟨k, hk⟩
    exact ⟨hfound (Nat.lt_of_le_of_lt (hleast hk) ((hS k).mp hk).1.2), fun j hj => hleast hj⟩
  · intro hnone
    exact Nat.le_antisymm hle (Nat.le_of_not_lt fun hlt => hnone ⟨_, hfound hlt⟩)

/-- So it does among the first `n` numbers. -/
theorem firstFrom_zero_isLeast {p : Nat → Bool} {n : Nat} {S : Set Nat} (hS : ∀ k, k ∈ S ↔ k < n ∧ p k = true) :
    (S.Nonempty → IsLeast S (firstFrom p 0 n)) ∧ (¬ S.Nonempty → firstFrom p 0 n = n) := by
  have hleast := @firstFrom_isLeast p 0 n S (by simpa using hS)
  rwa [Nat.zero_add] at hleast

/-! ### Loops over blocks -/

/-- The search of two strings in blocks of `step` bytes, from offset `i` on.  `hit` tells what is found in the block at
an offset, and `rest` what is found where no whole block is left. -/
def searchFrom? (a b : Bytes) (step : Nat) (hit : Nat → Window → Option Nat) (rest : Nat → Option Nat)
    (i : Nat) : Option Nat :=
  (add? i step).bind fun stop =>
    if i < stop ∧ stop ≤ a.size then
      (a.slice? i stop).bind fun x => (b.slice? i stop).bind fun y =>
        match hit i (whole x y) with
        | some k => some k
        | none => searchFrom? a b step hit rest stop
    else rest i
termination_by a.size - i

/-- The block of two strings from offset `i` to `stop`. -/
def block (a b : Bytes) (i stop : Nat) : Window := whole (a.extract i stop) (b.extract i stop)

/-- The answer of a search, if every block answers that or keeps an invariant under which the rest does. -/
theorem searchFrom?_eq_some {a b : Bytes} {step answer : Nat} {hit : Nat → Window → Option Nat} {rest : Nat → Option Nat}
    (h : a.size = b.size) (hsmall : a.size ≤ maxAllocation) (hstep : 0 < step ∧ step ≤ 16) (inv : Nat → Prop)
    (hblock : ∀ i, inv i → i + step ≤ a.size →
      hit i (block a b i (i + step)) = some answer ∨ hit i (block a b i (i + step)) = none ∧ inv (i + step))
    (hrest : ∀ i, inv i → i ≤ a.size → a.size < i + step → rest i = some answer) {i : Nat} (hi : inv i)
    (hle : i ≤ a.size) : searchFrom? a b step hit rest i = some answer := by
  have hmax : maxAllocation + 16 ≤ maxSize := by decide
  induction hn : a.size - i using Nat.strongRecOn generalizing i with
  | ind n ih =>
    rw [searchFrom?, add?_eq (by omega), Option.bind_some]
    by_cases hmore : i + step ≤ a.size
    · rw [if_pos ⟨by omega, hmore⟩, Bytes.slice?_eq (by omega) hmore, Option.bind_some,
        Bytes.slice?_eq (by omega) (h ▸ hmore), Option.bind_some, ← block]
      rcases hblock i hi hmore with hhit | ⟨hnone, hnext⟩
      · rw [hhit]
      · rw [hnone]
        exact ih _ (by omega) hnext hmore rfl
    · rw [if_neg (by omega)]
      exact hrest i hi hle (by omega)

theorem getD_ite_none {c : Prop} [Decidable c] (k d : Nat) :
    (if c then none else some k).getD d = if c then d else k := by
  split <;> rfl

/-- A search answers what a loop over as many blocks does, if the two go the same way at each block. -/
theorem searchFrom?_eq_loop {a b : Bytes} {step : Nat} {hit : Nat → Window → Option Nat} {rest : Nat → Option Nat}
    (loop : Nat → Nat → Nat) (h : a.size = b.size) (hsmall : a.size ≤ maxAllocation) (hstep : 0 < step ∧ step ≤ 16)
    (heven : step % 2 = 0)
    (hblock : ∀ i n, i + step ≤ a.size → loop i (n + 1) = (hit i (block a b i (i + step))).getD (loop (i + step) n))
    (hrest : ∀ i, i % 2 = 0 → i ≤ a.size → a.size < i + step → rest i = some (loop i 0)) :
    searchFrom? a b step hit rest 0 = some (loop 0 (a.size / step)) := by
  refine searchFrom?_eq_some h hsmall hstep
    (fun i => i % 2 = 0 ∧ loop i ((a.size - i) / step) = loop 0 (a.size / step)) ?_ ?_ ⟨rfl, rfl⟩ (Nat.zero_le _)
  · rintro i ⟨hi, hloop⟩ hin
    have hcount : (a.size - i) / step = (a.size - (i + step)) / step + 1 := by
      rw [Nat.div_eq_sub_div hstep.1 (by omega), Nat.sub_sub]
    rw [hcount, hblock i _ hin] at hloop
    cases hfound : hit i (block a b i (i + step)) with
    | some k =>
      rw [hfound] at hloop
      exact Or.inl (congrArg some hloop)
    | none =>
      rw [hfound] at hloop
      exact Or.inr ⟨rfl, by omega, hloop⟩
  · rintro i ⟨hi, hloop⟩ hle hlast
    rw [Nat.div_eq_of_lt (by omega)] at hloop
    rw [hrest i hi hle hlast, hloop]

/-! ### What is read of a block -/

theorem Bytes.gather_congr {b c : Bytes} {pos pos' width : Nat}
    (h : ∀ i < width, b.byteAt (pos + i) = c.byteAt (pos' + i)) : b.gather pos width = c.gather pos' width := by
  induction width generalizing pos pos' with
  | zero => rfl
  | succ width ih =>
    have hrest : b.gather (pos + 1) width = c.gather (pos' + 1) width := by
      refine ih fun i hi => ?_
      rw [Nat.add_right_comm, Nat.add_assoc, h (i + 1) (by omega), Nat.add_right_comm pos' 1, Nat.add_assoc]
    rw [gather, gather, hrest]
    exact congrArg (fun v => v.toUInt64 ||| _) (h 0 (by omega))

theorem maskOf_congr {p q : Nat → Bool} {n : Nat} (h : ∀ k < n, p k = q k) : maskOf p n = maskOf q n := by
  induction n with
  | zero => rfl
  | succ n ih => rw [maskOf, maskOf, ih fun k hk => h k (by omega), h n (by omega)]

section Block

variable {a b : Bytes} {i stop : Nat}

theorem sameByte_block {k : Nat} (hk : i + k < stop) :
    (block a b i stop).sameByte k = (whole a b).sameByte (i + k) := by
  simp only [sameByte, block, whole, Bytes.byteAt_extract, Nat.zero_add, hk, if_true]

theorem difference_block (hstop : i + 8 ≤ stop) : (block a b i stop).difference 0 = (whole a b).difference i := by
  have hgather (c : Bytes) : Bytes.gather (c.extract i stop) 0 8 = c.gather i 8 := by
    refine Bytes.gather_congr fun k hk => ?_
    rw [Bytes.byteAt_extract, Nat.zero_add, if_pos (by omega)]
  simp only [difference, block, whole, Nat.zero_add, hgather]

theorem byteMask_block (hstop : i + 16 ≤ stop) : (block a b i stop).byteMask 0 = (whole a b).byteMask i := by
  refine maskOf_congr fun k hk => ?_
  rw [Nat.zero_add]
  exact sameByte_block (by omega)

end Block

/-- Which words are equal depends only on which bytes are. -/
theorem sameWord_congr {w w' : Window} (hsize : w.size = w'.size) (hbyte : ∀ i < w.size, w.sameByte i = w'.sameByte i)
    {k : Nat} (hk : k < w.words) : w.sameWord k = w'.sameWord k := by
  rw [words, wordCount] at hk
  rw [sameWord, sameWord, ← hsize, hbyte _ (by omega)]
  by_cases hlast : w.size ≤ 2 * k + 1
  · simp [hlast]
  · rw [hbyte _ (by omega)]

/-- The last words of two strings are those of the strings without the first ones. -/
theorem sameWord_block_end {a b : Bytes} {k : Nat} (hk : 2 * k ≤ a.size) :
    (block a b (2 * k) a.size).words = ((whole a b).drop k).words ∧
      ∀ j < ((whole a b).drop k).words, (block a b (2 * k) a.size).sameWord j = ((whole a b).drop k).sameWord j := by
  have hsize : (block a b (2 * k) a.size).size = a.size - 2 * k := by simp [block, whole]
  have hwords : (block a b (2 * k) a.size).words = ((whole a b).drop k).words := congrArg wordCount hsize
  refine ⟨hwords, fun j hj => sameWord_congr hsize (fun i hi => ?_) (hwords ▸ hj)⟩
  rw [hsize] at hi
  rw [sameByte_block (by omega), sameByte_drop]

/-- What is left of two strings is there to be read. -/
theorem bind_slice?_end {a b : Bytes} (h : a.size = b.size) {i : Nat} (hi : i ≤ a.size) (f : Bytes → Bytes → Option Nat) :
    ((a.slice? i a.size).bind fun x => (b.slice? i b.size).bind fun y => f x y) =
      f (a.extract i a.size) (b.extract i a.size) := by
  rw [← h, Bytes.slice?_eq hi (Nat.le_refl _), Option.bind_some, Bytes.slice?_eq hi (Nat.le_of_eq h), Option.bind_some]

theorem size_extract_end {a b : Bytes} (h : a.size = b.size) (i : Nat) :
    (a.extract i a.size).size = a.size - i ∧ (b.extract i a.size).size = a.size - i := by
  constructor <;> simp [h]

theorem equalSpan_block_end {a b : Bytes} {k : Nat} (hk : 2 * k ≤ a.size) :
    (block a b (2 * k) a.size).equalSpan = ((whole a b).drop k).equalSpan := by
  obtain ⟨hwords, hsame⟩ := sameWord_block_end (b := b) hk
  rw [equalSpan, equalSpan, hwords]
  exact firstFrom_congr fun j _ hj => by rw [hsame j (by omega)]

/-! ### The first word that differs -/

/-- The word of the first byte that differs in eight bytes at offset `i`. -/
def differenceHit (i : Nat) (w : Window) : Option Nat :=
  if w.difference 0 = 0 then none else some ((i + trailingZeros (w.difference 0) / 8) / 2)

/-- The word of the byte at offset `i`, if it differs. -/
def byteHit (i : Nat) (w : Window) : Option Nat := if w.sameByte 0 then none else some (i / 2)

/-- The word of the first byte that differs in sixteen bytes at offset `i`. -/
def maskHit (i : Nat) (w : Window) : Option Nat :=
  if w.byteMask 0 = 0xFFFF then none else some ((i + trailingZeros (~~~(w.byteMask 0)).toUInt64) / 2)

/-- The equal words at the start of two strings, eight bytes and then one byte at a time. -/
def scalarEqual? (a b : Bytes) : Option Nat :=
  searchFrom? a b 8 differenceHit (searchFrom? a b 1 byteHit fun _ => some (wordCount a.size)) 0

/-- The equal words at the start of two strings, sixteen bytes at a time, and those of what is left. -/
def vectorEqual? (a b : Bytes) : Option Nat :=
  searchFrom? a b 16 maskHit
    (fun i => (a.slice? i a.size).bind fun x => (b.slice? i b.size).bind fun y => (scalarEqual? x y).map (i / 2 + ·)) 0

/-- The equal words at the start of two strings. -/
def Scanner.equalSpan? : Scanner → Bytes → Bytes → Option Nat
  | .scalar => scalarEqual?
  | .vector => vectorEqual?

section Equal

variable {a b : Bytes} (h : a.size = b.size) (hsmall : a.size ≤ maxAllocation)
include h hsmall

theorem searchFrom?_byteHit {i : Nat} (hi : i ≤ a.size) :
    searchFrom? a b 1 byteHit (fun _ => some (wordCount a.size)) i = some ((whole a b).scalarEqualFrom i 0) := by
  refine searchFrom?_eq_some h hsmall (by decide)
    (fun j => (whole a b).scalarEqualFrom j 0 = (whole a b).scalarEqualFrom i 0) ?_ ?_ rfl hi
  · intro j hj hin
    have hsize : (whole a b).size - j = (whole a b).size - (j + 1) + 1 := by
      have : (whole a b).size = a.size := rfl
      omega
    rw [byteHit, sameByte_block (by omega), Nat.add_zero, ← hj, scalarEqualFrom, hsize, firstFrom]
    by_cases hsame : (whole a b).sameByte j = true
    · simp [hsame, scalarEqualFrom]
    · have hlt : j < (whole a b).size := hin
      simp [hsame, hlt]
  · intro j hj hle hlast
    obtain rfl : j = a.size := by omega
    rw [← hj]
    simp [scalarEqualFrom, whole, firstFrom, words]

theorem scalarEqual?_eq : scalarEqual? a b = some (whole a b).scalarEqualSpan := by
  refine searchFrom?_eq_loop (whole a b).scalarEqualFrom h hsmall (by decide) rfl ?_ ?_
  · intro i n hin
    rw [differenceHit, difference_block (Nat.le_refl _), getD_ite_none]
    rfl
  · intro i _ hle _
    exact searchFrom?_byteHit h hsmall hle

theorem vectorEqual?_eq : vectorEqual? a b = some (whole a b).vectorEqualSpan := by
  refine searchFrom?_eq_loop (whole a b).vectorEqualFrom h hsmall (by decide) rfl ?_ ?_
  · intro i n hin
    rw [maskHit, byteMask_block (Nat.le_refl _), getD_ite_none]
    rfl
  · intro i heven hle _
    obtain ⟨k, rfl⟩ : ∃ k, i = 2 * k := ⟨i / 2, by omega⟩
    obtain ⟨hleft, hright⟩ := size_extract_end h (2 * k)
    have hrest := scalarEqual?_eq (hleft.trans hright.symm) (by omega)
    rw [← block, scalarEqualSpan_eq, equalSpan_block_end hle] at hrest
    rw [bind_slice?_end h hle, hrest, Option.map_some, vectorEqualFrom, Nat.mul_div_cancel_left k (by decide),
      scalarEqualSpan_eq]

theorem Scanner.equalSpan?_eq (s : Scanner) : s.equalSpan? a b = some (s.equalSpan (whole a b)) := by
  cases s with
  | scalar => exact scalarEqual?_eq h hsmall
  | vector => exact vectorEqual?_eq h hsmall

end Equal

theorem wordAt_ne_iff {a b : Bytes} (h : a.size = b.size) (k : Nat) :
    a.wordAt k ≠ b.wordAt k ↔ k < wordCount a.size ∧ (!(whole a b).sameWord k) = true := by
  rw [ne_eq, ← sameWord_iff_wordAt_eq h, Bool.not_eq_true']
  constructor
  · intro hdiffers
    refine ⟨Nat.lt_of_not_le fun hend => hdiffers ?_, by simpa using hdiffers⟩
    -- behind the last word there is nothing to differ
    refine (sameWord_whole_iff h).mpr fun i hi hword => ?_
    rw [wordCount] at hend
    omega
  · rintro ⟨-, hdiffers⟩
    simp [hdiffers]

/-- **The number of equal words is the index of the first word that differs**, for each scanner, an odd last byte being a
word.  Where no word differs, it is the number of words.  The loops over blocks come to this answer, and read nothing but
the two strings. -/
theorem Scanner.equalSpan_first (s : Scanner) {a b : Bytes} (h : a.size = b.size) :
    (a.size ≤ maxAllocation → s.equalSpan? a b = some (s.equalSpan (whole a b))) ∧
      let differing := {k | a.wordAt k ≠ b.wordAt k}
      (differing.Nonempty → IsLeast differing (s.equalSpan (whole a b))) ∧
        (¬ differing.Nonempty → s.equalSpan (whole a b) = wordCount a.size) := by
  refine ⟨fun hsmall => s.equalSpan?_eq h hsmall, ?_⟩
  rw [s.equalSpan_eq]
  exact firstFrom_zero_isLeast (wordAt_ne_iff h)

/-- A string that differs in its last byte only, one behind a block of sixteen. -/
theorem Scanner.equalSpan_first_half_word :
    let a : Bytes := ⟨#[3, 3, 3, 3, 3, 3, 3, 3, 3, 3, 3, 3, 3, 3, 3, 3, 3]⟩
    let b : Bytes := ⟨#[3, 3, 3, 3, 3, 3, 3, 3, 3, 3, 3, 3, 3, 3, 3, 3, 4]⟩
    (a.size = b.size ∧ a.size ≤ maxAllocation) ∧ a.wordAt 8 ≠ b.wordAt 8 ∧
      Scanner.vector.equalSpan? a b = some 8 ∧ IsLeast {k | a.wordAt k ≠ b.wordAt k} 8 := by
  intro a b
  have hsize : a.size = b.size := rfl
  have hdiffers : a.wordAt 8 ≠ b.wordAt 8 := by decide
  have hspan : Scanner.vector.equalSpan (whole a b) = 8 := (Scanner.equalSpan_eq _ _).trans (by decide)
  obtain ⟨hloops, hleast, -⟩ := Scanner.equalSpan_first .vector hsize
  rw [hspan] at hloops hleast
  exact ⟨⟨hsize, by decide⟩, hdiffers, hloops (by decide), hleast ⟨8, hdiffers⟩⟩

end Retrace
