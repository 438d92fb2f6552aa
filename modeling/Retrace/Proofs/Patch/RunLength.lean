import Retrace.Proofs.Patch.Plan
import Retrace.Proofs.Scan.SameWord

/-!
# Where a run ends

The search for the end of a run looks at a bounded part of the two strings, whose end is not their end, and goes on two
words behind an equal word that stands alone.  Here it is a loop over that part, with checks of what is read of it, which
may take a number of rounds.

* `searchRun?_eq`: the loop answers what `runLength` is, in no more than `maxRounds` rounds;
* `runEnds`: where a run may end, said of all the words of the two strings;
* `nextSpan`: one round of the search for spans, and `nextSpan_advances`: it moves on;
* `runLength_unbounded`: a run is as long as in a search through all the words that are left, up to the largest size.
-/

namespace Retrace

open Window

namespace Patch

/-! ### The loop -/

/-- The most rounds of the search for the end of a run.  Each but the last one moves on by two words or more, through a
part of `maxRun + 2` words. -/
def maxRounds : Nat := 32769

/-- The end of the run at the start of two strings, searched from word `k` on in so many rounds. -/
def searchEnd? (s : Scanner) (a b : Bytes) : Nat → Nat → Option Nat
  | 0, _ => none
  | rounds + 1, k =>
    if wordCount a.size ≤ k then some (wordCount a.size)
    else do
      let offset ← mul? wordBytes k
      let x ← a.slice? offset a.size
      let y ← b.slice? offset b.size
      let span ← s.differingSpan? x y
      let p ← add? k span
      let next ← add? p 1
      if wordCount a.size ≤ next then return min p (wordCount a.size)
      else
        let same ← sameWord? a b next
        if same then return min p (wordCount a.size)
        else
          let k ← add? p 2
          searchEnd? s a b rounds k

/-- The length of the run that starts with the differing word at index `pos`, searched in so many rounds. -/
def searchRun? (s : Scanner) (old new : Bytes) (pos rounds : Nat) : Option Nat := do
  let start ← mul? wordBytes pos
  let limit ← add? start (wordBytes * (maxRun + 2))
  let a ← old.slice? start (min limit old.size)
  let b ← new.slice? start (min limit old.size)
  let stop ← searchEnd? s a b rounds 1
  return min stop maxRun

section Loop

variable (s : Scanner) {a b : Bytes} (h : a.size = b.size) (hsmall : a.size ≤ maxAllocation)
include h hsmall

theorem differingSpan?_end {k : Nat} (hk : 2 * k ≤ a.size) :
    s.differingSpan? (a.extract (2 * k) a.size) (b.extract (2 * k) a.size) =
      some (s.differingSpan ((whole a b).drop k)) := by
  obtain ⟨hleft, hright⟩ := size_extract_end h (2 * k)
  rw [s.differingSpan?_eq (hleft.trans hright.symm) (by omega), ← block, s.differingSpan_eq, s.differingSpan_eq,
    differingSpan_block_end hk]

theorem searchEnd?_eq {rounds k : Nat} (hk : k ≤ wordCount a.size) (hrounds : wordCount a.size < k + 2 * rounds) :
    searchEnd? s a b rounds k = some (runEnd s (whole a b) k) := by
  have hmax : maxAllocation + 16 ≤ maxSize := by decide
  have hcount : wordCount a.size = (a.size + 1) / 2 := rfl
  have hwords : (whole a b).words = wordCount a.size := rfl
  induction rounds generalizing k with
  | zero => omega
  | succ rounds ih =>
    rw [searchEnd?, runEnd, hwords]
    by_cases hend : wordCount a.size ≤ k
    · rw [if_pos hend, if_neg (Nat.not_lt.mpr hend)]
    · have hin : 2 * k ≤ a.size := by omega
      have hspan : s.differingSpan ((whole a b).drop k) ≤ wordCount a.size - k := by
        have hle := @firstFrom_le ((whole a b).drop k).sameWord 0 (wordCount a.size - k)
        rw [s.differingSpan_eq, differingSpan, words_drop, hwords]
        omega
      have hoffset : mul? wordBytes k = some (2 * k) := mul?_eq (by rw [wordBytes]; omega)
      rw [if_neg hend, if_pos (Nat.lt_of_not_le hend), hoffset]
      simp only [Option.bind_eq_bind, Option.bind_some, bind_slice?_end h hin, differingSpan?_end s h hsmall hin]
      generalize s.differingSpan ((whole a b).drop k) = span at hspan ⊢
      have hp : add? k span = some (k + span) := add?_eq (by omega)
      have hnext : add? (k + span) 1 = some (k + span + 1) := add?_eq (by omega)
      simp only [hp, hnext, Option.bind_some, Option.pure_def]
      by_cases hlast : wordCount a.size ≤ k + span + 1
      · simp [hlast]
      · have hbehind : add? (k + span) 2 = some (k + span + 2) := add?_eq (by omega)
        have hrest := @ih (k + span + 2) (by omega) (by omega)
        rw [if_neg hlast, sameWord?_eq h hsmall (by omega), Option.bind_some, hbehind, Option.bind_some, hrest]
        cases hsame : (whole a b).sameWord (k + span + 1) <;> simp [hlast]

end Loop

theorem runEnd_congr (s t : Scanner) {w w' : Window} (hwords : w.words = w'.words)
    (hsame : ∀ k < w.words, w.sameWord k = w'.sameWord k) {k : Nat} (hk : k ≤ w.words) :
    runEnd s w k = runEnd t w' k := by
  rw [runEnd_eq s w hk, runEnd_eq t w' (hwords ▸ hk), ← hwords]
  exact firstFrom_congr fun i _ hi => breaksAt_congr hwords hsame (by omega)

/-- Where the part of two strings ends that the search for the end of a run looks at. -/
def runStop (old : Bytes) (pos : Nat) : Nat := min (2 * pos + wordBytes * (maxRun + 2)) old.size

section Part

variable {old : Bytes} {pos : Nat} (hpos : pos < wordCount old.size)
include hpos

theorem runStop_bounds : 2 * pos < runStop old pos ∧ runStop old pos ≤ old.size ∧
    wordCount (runStop old pos - 2 * pos) ≤ maxRun + 2 := by
  have hreach : wordBytes * (maxRun + 2) = 131074 := rfl
  have hmax : maxRun = 65535 := rfl
  rw [wordCount] at hpos ⊢
  rw [runStop]
  omega

theorem size_runWindow (new : Bytes) : (runWindow old new pos).size = runStop old pos - 2 * pos := by
  show min (wordBytes * (maxRun + 2)) (old.size - 2 * pos) = runStop old pos - 2 * pos
  rw [wordCount] at hpos
  rw [runStop]
  omega

/-- The parts show the same words as the window on the strings. -/
theorem runEnd_block (s : Scanner) (new : Bytes) :
    runEnd s (block old new (2 * pos) (runStop old pos)) 1 = runEnd s (runWindow old new pos) 1 := by
  obtain ⟨hlt, hle, -⟩ := runStop_bounds hpos
  have hpart : (block old new (2 * pos) (runStop old pos)).size = runStop old pos - 2 * pos := by
    show (old.extract (2 * pos) (runStop old pos)).size = _
    rw [ByteArray.size_extract, Nat.min_eq_left hle]
  have hsize := hpart.trans (size_runWindow hpos new).symm
  refine runEnd_congr s s (congrArg wordCount hsize) (fun k hk => sameWord_congr hsize (fun i hi => ?_) hk) ?_
  · rw [hpart] at hi
    rw [sameByte_block (by omega), sameByte, sameByte, whole, runWindow, Nat.zero_add]
  · rw [words, hpart, wordCount]
    omega

end Part

/-- **The search answers what the length of a run is**, and reads nothing but the two strings. -/
theorem searchRun?_eq (s : Scanner) {old new : Bytes} (h : old.size = new.size) (hsmall : old.size ≤ maxAllocation)
    {pos rounds : Nat} (hpos : pos < wordCount old.size) (hrounds : maxRounds ≤ rounds) :
    searchRun? s old new pos rounds = some (runLength s old new pos) := by
  obtain ⟨hlt, hle, hwords⟩ := runStop_bounds hpos
  have hstart : mul? wordBytes pos = some (2 * pos) := by
    have hmax : maxAllocation ≤ maxSize := by decide
    exact mul?_eq (by rw [wordBytes]; omega)
  have hlimit : add? (2 * pos) (wordBytes * (maxRun + 2)) = some (2 * pos + wordBytes * (maxRun + 2)) := by
    have hmax : maxAllocation + wordBytes * (maxRun + 2) ≤ maxSize := by decide
    exact add?_eq (by omega)
  have hleft : (old.extract (2 * pos) (runStop old pos)).size = runStop old pos - 2 * pos := by
    rw [ByteArray.size_extract, Nat.min_eq_left hle]
  have hright : (new.extract (2 * pos) (runStop old pos)).size = runStop old pos - 2 * pos := by
    rw [ByteArray.size_extract, Nat.min_eq_left (h ▸ hle)]
  have hend : searchEnd? s (old.extract (2 * pos) (runStop old pos)) (new.extract (2 * pos) (runStop old pos)) rounds 1 =
      some (runEnd s (runWindow old new pos) 1) := by
    have hmost : maxRun + 2 < 1 + 2 * maxRounds := by decide
    rw [← runEnd_block hpos s new]
    refine searchEnd?_eq s (hleft.trans hright.symm) (by omega) ?_ (by rw [hleft]; omega)
    rw [hleft, wordCount]
    omega
  rw [searchRun?, hstart, Option.bind_eq_bind, Option.bind_some, hlimit, Option.bind_eq_bind, Option.bind_some, ← runStop,
    Bytes.slice?_eq hlt.le hle, Option.bind_some, Bytes.slice?_eq hlt.le (h ▸ hle), Option.bind_some, hend]
  rfl

/-! ### All the words that are left -/

/-- Where the run that starts at word `pos` may end, counted from there: an equal word that is the last one, or stands
before another equal word. -/
def runEnds (old new : Bytes) (pos : Nat) : Set Nat :=
  {k | 1 ≤ k ∧ pos + k < wordCount old.size ∧ old.wordAt (pos + k) = new.wordAt (pos + k) ∧
    (pos + k + 1 = wordCount old.size ∨ old.wordAt (pos + k + 1) = new.wordAt (pos + k + 1))}

theorem mem_runEnds_iff {old new : Bytes} (h : old.size = new.size) {pos : Nat} (hpos : pos < wordCount old.size)
    (k : Nat) : k ∈ runEnds old new pos ↔
      (1 ≤ k ∧ k < 1 + (wordCount old.size - pos - 1)) ∧ ((whole old new).drop pos).breaksAt k = true := by
  have hcount : (whole old new).words = wordCount old.size := rfl
  rw [breaksAt_drop, breaksAt, Bool.and_eq_true, Bool.or_eq_true, decide_eq_true_iff, sameWord_iff_wordAt_eq h,
    sameWord_iff_wordAt_eq h, hcount]
  constructor
  · rintro ⟨hk, hin, hsame, hlast⟩
    exact ⟨by omega, hsame, hlast.imp_left fun hend => by omega⟩
  · rintro ⟨hk, hsame, hlast⟩
    exact ⟨hk.1, by omega, hsame, hlast.imp_left fun hend => by omega⟩

/-- The length of a run is where it may end first, or what is left where it may end nowhere, up to the largest size. -/
theorem runLength_eq_least (s : Scanner) {old new : Bytes} (h : old.size = new.size) {pos : Nat}
    (hpos : pos < wordCount old.size) :
    ∃ length, runLength s old new pos = min maxRun length ∧
      ((runEnds old new pos).Nonempty → IsLeast (runEnds old new pos) length) ∧
        (¬ (runEnds old new pos).Nonempty → length = wordCount old.size - pos) := by
  obtain ⟨hleast, hnone⟩ := firstFrom_isLeast (mem_runEnds_iff h hpos)
  refine ⟨_, runLength_eq s hpos, hleast, fun hempty => ?_⟩
  rw [hnone hempty]
  omega

/-! ### The search for spans -/

/-- One round of the search for spans: the span at word `pos`, and the word behind it, where the next round begins. -/
def nextSpan (s : Scanner) (old new : Bytes) (pos : Nat) : Option (Span × Nat) :=
  if pos < wordCount old.size then
    let skip := s.equalSpan ((Window.whole old new).drop pos)
    if wordCount old.size - pos ≤ skip then none
    else if maxRun < skip then some (.gap (min skip maxGap), pos + min skip maxGap)
    else
      let words := runLength s old new (pos + skip)
      some (.run skip (pos + skip) words, pos + skip + words)
  else none

/-- The search for spans goes on round by round. -/
theorem planFrom_eq (s : Scanner) (old new : Bytes) (pos : Nat) (before : List Span) :
    planFrom s old new pos before =
      match nextSpan s old new pos with
      | some (span, next) => planFrom s old new next (span :: before)
      | none => before.reverse := by
  rw [planFrom, nextSpan]
  dsimp only
  split
  · split
    · rfl
    · split <;> rfl
  · rfl

/-- **Each round moves on**, within the strings, and a run starts with a word that differs. -/
theorem nextSpan_advances (s : Scanner) {old new : Bytes} (h : old.size = new.size) {pos next : Nat} {span : Span}
    (hnext : nextSpan s old new pos = some (span, next)) :
    (pos < next ∧ next ≤ wordCount old.size) ∧
      ∀ skip start words, span = .run skip start words →
        old.wordAt start ≠ new.wordAt start ∧ words = runLength s old new start ∧ next = start + words := by
  have hwords : (whole old new).words = wordCount old.size := rfl
  unfold nextSpan at hnext
  dsimp only at hnext
  split at hnext
  case isFalse => contradiction
  case isTrue hlt =>
    generalize hskip : s.equalSpan ((whole old new).drop pos) = skip at hnext
    split at hnext
    case isTrue => contradiction
    case isFalse hmore =>
      split at hnext
      case isTrue hlong =>
        have hmax : maxRun < maxGap := by decide
        obtain ⟨rfl, rfl⟩ := Prod.mk.inj (Option.some.inj hnext)
        exact ⟨by omega, fun _ _ _ hrun => Span.noConfusion hrun⟩
      case isFalse hshort =>
        obtain ⟨rfl, rfl⟩ := Prod.mk.inj (Option.some.inj hnext)
        have hstart : pos + skip < wordCount old.size := by omega
        have hpos := runLength_pos s old new hstart
        have hle : pos + skip + runLength s old new (pos + skip) ≤ wordCount old.size := add_runLength_le s hstart
        refine ⟨by omega, fun skip' start words hrun => ?_⟩
        obtain ⟨-, rfl, rfl⟩ := Span.run.inj hrun
        refine ⟨?_, rfl, rfl⟩
        rw [s.equalSpan_eq] at hskip
        have hdiffers : (whole old new).sameWord (pos + ((whole old new).drop pos).equalSpan) = false :=
          sameWord_equalSpan (by rw [hskip]; exact hstart)
        rw [hskip] at hdiffers
        rw [ne_eq, ← sameWord_iff_wordAt_eq h, hdiffers]
        exact Bool.false_ne_true

/-! ### The length of a run -/

/-- **A run is as long as in a search through all the words that are left**, up to the largest size.  For every word that
differs, the search for the end of the run that starts there comes to an end, after no more than `maxRounds` rounds, and
reads nothing but the two strings.  Its answer is where the run may end first, or all that is left where it may end
nowhere, or `maxRun` if that is less.  It is never zero, and so each round of the search for spans, which asks for the
length of a run only where a word differs, moves on. -/
theorem runLength_unbounded (s : Scanner) {old new : Bytes} (h : old.size = new.size) :
    (∀ pos, old.wordAt pos ≠ new.wordAt pos →
      (old.size ≤ maxAllocation → ∀ rounds ≥ maxRounds,
        searchRun? s old new pos rounds = some (runLength s old new pos)) ∧
      (∃ length, runLength s old new pos = min maxRun length ∧
        ((runEnds old new pos).Nonempty → IsLeast (runEnds old new pos) length) ∧
          (¬ (runEnds old new pos).Nonempty → length = wordCount old.size - pos)) ∧
        1 ≤ runLength s old new pos) ∧
      ∀ pos before,
        match nextSpan s old new pos with
        | none => planFrom s old new pos before = before.reverse
        | some (span, next) =>
          planFrom s old new pos before = planFrom s old new next (span :: before) ∧
            (pos < next ∧ next ≤ wordCount old.size) ∧
              ∀ skip start words, span = .run skip start words →
                old.wordAt start ≠ new.wordAt start ∧ words = runLength s old new start ∧ next = start + words := by
  constructor
  · intro pos hdiffers
    obtain ⟨hpos, -⟩ := (wordAt_ne_iff h pos).mp hdiffers
    exact ⟨fun hsmall rounds hrounds => searchRun?_eq s h hsmall hpos hrounds, runLength_eq_least s h hpos,
      runLength_pos s old new hpos⟩
  · intro pos before
    have hplan := planFrom_eq s old new pos before
    cases hnext : nextSpan s old new pos with
    | none =>
      rw [hnext] at hplan
      exact hplan
    | some found =>
      rw [hnext] at hplan
      exact ⟨hplan, nextSpan_advances s h hnext⟩

/-- A run with an equal word that stands alone: it ends with the two equal words behind it. -/
theorem runLength_unbounded_pair :
    let old : Bytes := ⟨#[0, 0, 7, 7, 0, 0, 7, 7, 5, 5, 0]⟩
    let new : Bytes := ⟨#[1, 1, 7, 7, 0, 1, 7, 7, 5, 5, 1]⟩
    old.size = new.size ∧ old.wordAt 0 ≠ new.wordAt 0 ∧ old.size ≤ maxAllocation ∧
      IsLeast (runEnds old new 0) 3 ∧ searchRun? .vector old new 0 maxRounds = some 3 := by
  intro old new
  have hsize : old.size = new.size := rfl
  have hdiffers : old.wordAt 0 ≠ new.wordAt 0 := by decide
  have hsmall : old.size ≤ maxAllocation := by decide
  have hlength : runLength .vector old new 0 = 3 := by decide +kernel
  obtain ⟨hruns, -⟩ := runLength_unbounded .vector hsize
  obtain ⟨hsearch, ⟨length, hmin, hleast, -⟩, -⟩ := hruns 0 hdiffers
  have hmax : maxRun = 65535 := rfl
  obtain rfl : length = 3 := by omega
  rw [hlength] at hsearch
  exact ⟨hsize, hdiffers, hsmall, hleast ⟨3, by decide, by decide, by decide, Or.inr (by decide)⟩,
    hsearch hsmall maxRounds (Nat.le_refl _)⟩

end Patch

end Retrace
