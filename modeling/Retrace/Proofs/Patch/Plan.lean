import Retrace.Patch.Diff
import Retrace.Proofs.Scan.Agreement

/-!
# The spans between two strings

What the search for spans guarantees, for strings of any size and for every scanner.

* `Window.IsRun`: what a run is, said of all the words from its start on;
* `runLength_isRun`: the run that is found in a bounded part of the strings is a run of the whole;
* `Planned`: the spans tile the words up to the last one that differs, and skip equal words only;
* `planned_plan`: the spans that are found are planned;
* `bridged_plan`: a gap is followed by a word that differs, at once unless it is of the largest size;
* `plan_congr`: the spans depend only on which words are equal.
-/

namespace Retrace

namespace Window

/-! ### The end of a run -/

/-- Whether a run may end before word `p`: the word is equal, and so is the next one, if there is one. -/
def breaksAt (w : Window) (p : Nat) : Bool :=
  w.sameWord p && (decide (w.words ≤ p + 1) || w.sameWord (p + 1))

theorem breaksAt_drop (w : Window) (k p : Nat) : (w.drop k).breaksAt p = w.breaksAt (k + p) := by
  have h : (w.words - k ≤ p + 1) = (w.words ≤ k + p + 1) := by
    rw [eq_iff_iff]
    omega
  simp only [breaksAt, sameWord_drop, words_drop, h, Nat.add_assoc]

/-- Where a run may end depends only on which words are equal. -/
theorem breaksAt_congr {w w' : Window} (hwords : w.words = w'.words)
    (hsame : ∀ k < w.words, w.sameWord k = w'.sameWord k) {p : Nat} (hp : p < w.words) :
    w.breaksAt p = w'.breaksAt p := by
  rw [breaksAt, breaksAt, ← hwords, hsame p hp]
  -- past the last word, there is no next one to compare
  by_cases hlast : w.words ≤ p + 1
  · rw [decide_eq_true hlast, Bool.true_or, Bool.true_or]
  · rw [hsame _ (by omega)]

/-- `words` words from `start` on are one run: the first of them differs, no two equal words stand
next to each other in it, and it ends at the largest size, at the end, or where it may end. -/
structure IsRun (w : Window) (start words : Nat) : Prop where
  differs : w.sameWord start = false
  pos : 0 < words
  le_maxRun : words ≤ Patch.maxRun
  inside : start + words ≤ w.words
  unbroken : ∀ k, start < k → k < start + words → w.breaksAt k = false
  ends : words = Patch.maxRun ∨ start + words = w.words ∨ w.breaksAt (start + words) = true

/-- An equal word in a run is followed by one that differs, which need not be in the run. -/
theorem IsRun.next_differs {w : Window} {start words k : Nat} (h : w.IsRun start words) (hk : start ≤ k)
    (hlt : k < start + words) (hsame : w.sameWord k = true) : k + 1 < w.words ∧ w.sameWord (k + 1) = false := by
  have hne : start ≠ k := by
    rintro rfl
    rw [h.differs] at hsame
    contradiction
  have hbreak := h.unbroken k (by omega) hlt
  rwa [breaksAt, hsame, Bool.true_and, Bool.or_eq_false_iff, decide_eq_false_iff_not, Nat.not_le] at hbreak

/-- A run ends with a word that differs, or in front of one. -/
theorem IsRun.last_differs {w : Window} {start words : Nat} (h : w.IsRun start words) :
    w.sameWord (start + words - 1) = false ∨ start + words < w.words ∧ w.sameWord (start + words) = false := by
  have hpos := h.pos
  by_cases hsame : w.sameWord (start + words - 1) = true
  · have hnext := h.next_differs (by omega) (by omega) hsame
    rw [Nat.sub_add_cancel (by omega)] at hnext
    exact .inr hnext
  · exact .inl (Bool.eq_false_iff.mpr hsame)

end Window

namespace Patch

open Window

theorem runEnd_eq (s : Scanner) (w : Window) {k : Nat} (hk : k ≤ w.words) :
    runEnd s w k = firstFrom w.breaksAt k (w.words - k) := by
  have hp (k : Nat) : k + s.differingSpan (w.drop k) = firstFrom w.sameWord k (w.words - k) := by
    rw [s.differingSpan_eq, firstFrom_eq_add, differingSpan, words_drop]
    congr 1
    exact firstFrom_congr fun i _ _ => sameWord_drop w k i
  fun_induction runEnd s w k with
  | case1 k hlt p hend =>
    have hpk : p = firstFrom w.sameWord k (w.words - k) := hp k
    have hle : p ≤ w.words := by
      have := @firstFrom_le w.sameWord k (w.words - k)
      omega
    rw [Nat.min_eq_left hle, eq_firstFrom_iff]
    refine ⟨by omega, by omega, fun i h1 h2 => ?_, fun h => ?_⟩
    · have hdiff : w.sameWord i = false := eq_false_of_lt_firstFrom h1 (hpk ▸ h2)
      rw [breaksAt, hdiff, Bool.false_and]
    · have hsame : w.sameWord p = true := hpk ▸ firstFrom_hit (by omega)
      rw [breaksAt, hsame, hend, Bool.true_and]
  | case2 k hlt p hend ih =>
    have hpk : p = firstFrom w.sameWord k (w.words - k) := hp k
    simp only [Bool.or_eq_true, decide_eq_true_eq, not_or, Nat.not_le, Bool.not_eq_true] at hend
    obtain ⟨hlast, hnext⟩ := hend
    have hk : w.words - k = (p + 2 - k) + (w.words - (p + 2)) := by omega
    have hskip : ∀ i, k ≤ i → i < k + (p + 2 - k) → w.breaksAt i = false := by
      intro i h1 h2
      rcases (by omega : i < p ∨ i = p ∨ i = p + 1) with h | rfl | rfl
      · have hdiff : w.sameWord i = false := eq_false_of_lt_firstFrom h1 (hpk ▸ h)
        rw [breaksAt, hdiff, Bool.false_and]
      · rw [breaksAt, hnext, decide_eq_false (by omega), Bool.or_false, Bool.and_false]
      · rw [breaksAt, hnext, Bool.false_and]
    rw [ih (by omega), hk, firstFrom_skip hskip]
    congr 1
    omega
  | case3 k hge =>
    rw [show w.words - k = 0 by omega]
    exact (by omega : w.words = k)

theorem runWindow_of_le {old new : Bytes} {pos : Nat} (h : old.size - 2 * pos ≤ 2 * (maxRun + 2)) :
    runWindow old new pos = (whole old new).drop pos := by
  simp only [runWindow, Window.drop, whole, Nat.zero_add, Nat.min_eq_right h]

/-- Below the largest run, the bounded part of the strings shows where a run may end as all of them do. -/
theorem breaksAt_runWindow {old new : Bytes} {pos p : Nat} (h : 2 * (maxRun + 2) < old.size - 2 * pos)
    (hp : p ≤ maxRun) :
    (runWindow old new pos).breaksAt p = ((whole old new).drop pos).breaksAt p := by
  have hsize : (runWindow old new pos).size = 2 * (maxRun + 2) := Nat.min_eq_left (by omega)
  have hbyte (i : Nat) : (runWindow old new pos).sameByte i = ((whole old new).drop pos).sameByte i := by
    simp only [sameByte, runWindow, Window.drop, whole, Nat.zero_add]
  have hdrop : ((whole old new).drop pos).size = old.size - 2 * pos := rfl
  have hword {k : Nat} (hk : k ≤ maxRun + 1) :
      (runWindow old new pos).sameWord k = ((whole old new).drop pos).sameWord k := by
    rw [Bool.eq_iff_iff, sameWord_iff (by omega), sameWord_iff (by omega), hbyte, hbyte]
  have hlast : ¬ (runWindow old new pos).words ≤ p + 1 := by
    simp only [words, wordCount, hsize]
    omega
  have hlast' : ¬ ((whole old new).drop pos).words ≤ p + 1 := by
    simp only [words, wordCount, hdrop]
    omega
  rw [breaksAt, breaksAt, hword (by omega), hword (by omega), decide_eq_false hlast,
    decide_eq_false hlast']

theorem runLength_eq (s : Scanner) {old new : Bytes} {pos : Nat} (h : pos < wordCount old.size) :
    runLength s old new pos =
      min maxRun (firstFrom ((whole old new).drop pos).breaksAt 1 (wordCount old.size - pos - 1)) := by
  have hwords : ((whole old new).drop pos).words = wordCount old.size - pos := words_drop _ _
  have hcount : wordCount old.size = (old.size + 1) / 2 := rfl
  rw [runLength, Nat.min_comm]
  by_cases hsize : old.size - 2 * pos ≤ 2 * (maxRun + 2)
  · rw [runWindow_of_le hsize, runEnd_eq s _ (by omega), hwords]
  · have hw : (runWindow old new pos).words = maxRun + 2 := by
      have : (runWindow old new pos).size = 2 * (maxRun + 2) := Nat.min_eq_left (by omega)
      rw [words, wordCount, this]
      omega
    have hmin := @min_firstFrom_congr (runWindow old new pos).breaksAt 1 (maxRun + 1)
      ((whole old new).drop pos).breaksAt (wordCount old.size - pos - 1) maxRun
      (fun i _ hi => breaksAt_runWindow (by omega) (by omega)) (by omega) (by omega)
    rw [runEnd_eq s _ (by omega), hw, show maxRun + 2 - 1 = maxRun + 1 from rfl]
    omega

/-- A run stays within the strings. -/
theorem add_runLength_le (s : Scanner) {old new : Bytes} {pos : Nat} (h : pos < wordCount old.size) :
    pos + runLength s old new pos ≤ wordCount old.size := by
  have hlen := @runLength_eq s old new pos h
  have hle := @firstFrom_le ((whole old new).drop pos).breaksAt 1 (wordCount old.size - pos - 1)
  omega

theorem runLength_isRun (s : Scanner) {old new : Bytes} {pos : Nat} (h : pos < wordCount old.size)
    (hd : (whole old new).sameWord pos = false) :
    (whole old new).IsRun pos (runLength s old new pos) := by
  have hlen := @runLength_eq s old new pos h
  have hwords : (whole old new).words = wordCount old.size := rfl
  have hpos := @le_firstFrom ((whole old new).drop pos).breaksAt 1 (wordCount old.size - pos - 1)
  have hle := @firstFrom_le ((whole old new).drop pos).breaksAt 1 (wordCount old.size - pos - 1)
  have hmax : maxRun = 65535 := rfl
  refine ⟨hd, by omega, by omega, add_runLength_le s h, fun k h1 h2 => ?_, ?_⟩
  · have hk := @eq_false_of_lt_firstFrom ((whole old new).drop pos).breaksAt 1
      (wordCount old.size - pos - 1) (k - pos) (by omega) (by omega)
    rwa [breaksAt_drop, Nat.add_sub_cancel' (by omega)] at hk
  · by_cases hfull : runLength s old new pos = maxRun
    · exact Or.inl hfull
    · have hR : runLength s old new pos =
          firstFrom ((whole old new).drop pos).breaksAt 1 (wordCount old.size - pos - 1) := by
        omega
      by_cases hend : pos + runLength s old new pos = wordCount old.size
      · exact Or.inr (Or.inl hend)
      · have hhit := @firstFrom_hit ((whole old new).drop pos).breaksAt 1
          (wordCount old.size - pos - 1) (by omega)
        rw [← hR, breaksAt_drop] at hhit
        exact Or.inr (Or.inr hhit)

/-! ### The tiling -/

/-- **The spans from word `pos` on are as they should be**: what is skipped is equal, what is replaced
is a run, each span begins where the one before ends, and all words after the last span are equal. -/
inductive Planned (w : Window) : Nat → List Span → Prop
  | done {pos : Nat} (equal : ∀ k, pos ≤ k → k < w.words → w.sameWord k = true) : Planned w pos []
  | gap {pos count : Nat} {rest : List Span} (large : maxRun < count) (fits : count ≤ maxGap)
    (inside : pos + count < w.words) (equal : ∀ k, pos ≤ k → k < pos + count → w.sameWord k = true)
    (after : Planned w (pos + count) rest) : Planned w pos (.gap count :: rest)
  | run {pos skip words : Nat} {rest : List Span} (fits : skip ≤ maxRun)
    (equal : ∀ k, pos ≤ k → k < pos + skip → w.sameWord k = true)
    (isRun : w.IsRun (pos + skip) words) (after : Planned w (pos + skip + words) rest) :
    Planned w pos (.run skip (pos + skip) words :: rest)

/-- The words that a window begins with, up to the first one that differs, are equal. -/
theorem sameWord_of_lt_equalSpan {w : Window} {pos k : Nat} (h1 : pos ≤ k)
    (h2 : k < pos + (w.drop pos).equalSpan) : w.sameWord k = true := by
  have hk := eq_false_of_lt_firstFrom (p := fun k => !(w.drop pos).sameWord k)
    (n := (w.drop pos).words) (Nat.zero_le (k - pos)) (by rw [equalSpan] at h2; omega)
  rwa [Bool.not_eq_false', sameWord_drop, Nat.add_sub_cancel' h1] at hk

theorem sameWord_equalSpan {w : Window} {pos : Nat} (h : pos + (w.drop pos).equalSpan < w.words) :
    w.sameWord (pos + (w.drop pos).equalSpan) = false := by
  have hhit := @firstFrom_hit (fun k => !(w.drop pos).sameWord k) 0 (w.drop pos).words
    (by rw [equalSpan] at h; rw [words_drop] at h ⊢; omega)
  rw [Bool.not_eq_true', sameWord_drop] at hhit
  exact hhit

theorem planned_planFrom (s : Scanner) (old new : Bytes) (pos : Nat) (before : List Span) :
    ∃ spans, planFrom s old new pos before = before.reverse ++ spans ∧
      Planned (whole old new) pos spans := by
  have hwords : (whole old new).words = wordCount old.size := rfl
  fun_induction planFrom s old new pos before with
  | case1 pos before hlt skip hdone =>
    have hskip : skip = ((whole old new).drop pos).equalSpan := s.equalSpan_eq _
    exact ⟨[], (List.append_nil _).symm,
      .done fun k h1 h2 => sameWord_of_lt_equalSpan h1 (by omega)⟩
  | case2 pos before hlt skip hmore hlong count ih =>
    have hskip : skip = ((whole old new).drop pos).equalSpan := s.equalSpan_eq _
    have hcount : count = min skip maxGap := rfl
    have hmax : maxRun < maxGap := by decide
    obtain ⟨spans, heq, hplan⟩ := ih
    refine ⟨.gap count :: spans, by rw [heq, List.reverse_cons, List.append_assoc]; rfl, ?_⟩
    exact .gap (by omega) (by omega) (by omega)
      (fun k h1 h2 => sameWord_of_lt_equalSpan h1 (by omega)) hplan
  | case3 pos before hlt skip hmore hshort start words ih =>
    have hskip : skip = ((whole old new).drop pos).equalSpan := s.equalSpan_eq _
    have hstart : start = pos + skip := rfl
    have hdiff : (whole old new).sameWord start = false := by
      rw [hstart, hskip]
      exact sameWord_equalSpan (by omega)
    obtain ⟨spans, heq, hplan⟩ := ih
    refine ⟨.run skip start words :: spans, by rw [heq, List.reverse_cons, List.append_assoc]; rfl, ?_⟩
    exact .run (by omega) (fun k h1 h2 => sameWord_of_lt_equalSpan h1 (by omega))
      (runLength_isRun s (by omega) hdiff) hplan
  | case4 pos before hge => exact ⟨[], (List.append_nil _).symm, .done fun k h1 h2 => by omega⟩

theorem planned_plan (s : Scanner) (old new : Bytes) :
    Planned (whole old new) 0 (plan s old new) := by
  obtain ⟨spans, heq, hplan⟩ := planned_planFrom s old new 0 []
  rwa [plan, heq]

/-! ### What follows a gap -/

/-- **Each gap among the spans from word `pos` on leads to a word that differs**, and stops short of it only where a gap
cannot be larger. -/
inductive Bridged (w : Window) : Nat → List Span → Prop
  | done {pos : Nat} : Bridged w pos []
  | gap {pos count : Nat} {rest : List Span} (k : Nat) (ahead : pos + count ≤ k) (inside : k < w.words)
    (differs : w.sameWord k = false) (ends : k = pos + count ∨ count = maxGap)
    (after : Bridged w (pos + count) rest) : Bridged w pos (.gap count :: rest)
  | run {pos skip start words : Nat} {rest : List Span} (after : Bridged w (start + words) rest) :
    Bridged w pos (.run skip start words :: rest)

theorem bridged_planFrom (s : Scanner) (old new : Bytes) (pos : Nat) (before : List Span) :
    ∃ spans, planFrom s old new pos before = before.reverse ++ spans ∧
      Bridged (whole old new) pos spans := by
  fun_induction planFrom s old new pos before with
  | case1 pos before hlt skip hdone => exact ⟨[], (List.append_nil _).symm, .done⟩
  | case2 pos before hlt skip hmore hlong count ih =>
    have hskip : skip = ((whole old new).drop pos).equalSpan := s.equalSpan_eq _
    have hcount : count = min skip maxGap := rfl
    have hin : pos + skip < (whole old new).words := show pos + skip < wordCount old.size by omega
    obtain ⟨spans, heq, hled⟩ := ih
    refine ⟨.gap count :: spans, by rw [heq, List.reverse_cons, List.append_assoc]; rfl, ?_⟩
    exact .gap (pos + skip) (by omega) hin (hskip ▸ sameWord_equalSpan (hskip ▸ hin)) (by omega) hled
  | case3 pos before hlt skip hmore hshort start words ih =>
    obtain ⟨spans, heq, hled⟩ := ih
    exact ⟨.run skip start words :: spans, by rw [heq, List.reverse_cons, List.append_assoc]; rfl, .run hled⟩
  | case4 pos before hge => exact ⟨[], (List.append_nil _).symm, .done⟩

theorem bridged_plan (s : Scanner) (old new : Bytes) :
    Bridged (whole old new) 0 (plan s old new) := by
  obtain ⟨spans, heq, hled⟩ := bridged_planFrom s old new 0 []
  rwa [plan, heq]

/-! ### What the spans depend on -/

section Congr

variable {old new old' new' : Bytes} (hwords : wordCount old.size = wordCount old'.size)
  (hsame : ∀ k < wordCount old.size, (whole old new).sameWord k = (whole old' new').sameWord k)
include hwords hsame

theorem equalSpan_congr (pos : Nat) :
    ((whole old new).drop pos).equalSpan = ((whole old' new').drop pos).equalSpan := by
  have hcount : ((whole old new).drop pos).words = wordCount old.size - pos := words_drop _ _
  have hcount' : ((whole old' new').drop pos).words = wordCount old'.size - pos := words_drop _ _
  rw [equalSpan, equalSpan, hcount, hcount', hwords]
  refine firstFrom_congr fun i _ hi => ?_
  rw [sameWord_drop, sameWord_drop, hsame _ (by omega)]

theorem runLength_congr (s t : Scanner) {pos : Nat} (h : pos < wordCount old.size) :
    runLength s old new pos = runLength t old' new' pos := by
  rw [runLength_eq s h, runLength_eq t (hwords ▸ h), ← hwords]
  congr 1
  refine firstFrom_congr fun i _ hi => ?_
  have hcount : (whole old new).words = (whole old' new').words := hwords
  have hin : pos + i < (whole old new).words := show pos + i < wordCount old.size by omega
  rw [breaksAt_drop, breaksAt_drop]
  exact breaksAt_congr hcount hsame hin

theorem planFrom_congr (s t : Scanner) (pos : Nat) (before : List Span) :
    planFrom s old new pos before = planFrom t old' new' pos before := by
  have hspan (j : Nat) : s.equalSpan ((whole old new).drop j) = t.equalSpan ((whole old' new').drop j) := by
    rw [s.equalSpan_eq, t.equalSpan_eq, equalSpan_congr hwords hsame]
  fun_induction planFrom s old new pos before with
  | case1 pos before hlt skip hdone =>
    rw [planFrom, if_pos (hwords ▸ hlt), ← hspan pos, ← hwords]
    exact (if_pos hdone).symm
  | case2 pos before hlt skip hmore hlong count ih =>
    rw [ih, planFrom.eq_1 t old' new' pos, if_pos (hwords ▸ hlt), ← hspan pos, ← hwords]
    exact ((if_neg hmore).trans (if_pos hlong)).symm
  | case3 pos before hlt skip hmore hshort start words ih =>
    have hlength : words = runLength t old' new' start := runLength_congr hwords hsame s t (by omega)
    rw [ih, hlength, planFrom.eq_1 t old' new' pos, if_pos (hwords ▸ hlt), ← hspan pos, ← hwords]
    exact ((if_neg hmore).trans (if_neg hshort)).symm
  | case4 pos before hge => rw [planFrom, if_neg (hwords ▸ hge)]

/-- **The spans depend only on which words are equal.** -/
theorem plan_congr (s t : Scanner) : plan s old new = plan t old' new' :=
  planFrom_congr hwords hsame s t 0 []

end Congr

end Patch

end Retrace
