import Mathlib.Data.Nat.Count
import Mathlib.Order.Bounds.Basic
import Retrace.Proofs.Patch.Canonical

/-!
# A patch is as large as its changes are many

An equal word in a run is charged to the differing one in front of it, and a gap to the run behind it.  So the counts
over the segments of a patch are bounded by the number of words that differ, wherever these are.

* `words_le_two_mul`: at least half of the words of a run differ;
* `counts_planned`, `end_planned`, `gaps_le_runs`: what planned spans count, where they end, and how many gaps there are;
* `summary_writeInto`: the summary of a written patch.
-/

namespace Retrace

open Window

namespace Patch

/-! ### Words that differ -/

section Differing

variable {old new : Bytes}

/-- How many of the first `k` words of two strings differ. -/
def differing (old new : Bytes) (k : Nat) : Nat := Nat.count (Differs old new) k

theorem differing_succ_of_differs {k : Nat} (hdiff : Differs old new k) :
    differing old new (k + 1) = differing old new k + 1 := by
  rw [differing, Nat.count_succ, if_pos hdiff]
  rfl

theorem differing_succ_of_equal {k : Nat} (hequal : ¬ Differs old new k) :
    differing old new (k + 1) = differing old new k := by
  rw [differing, Nat.count_succ, if_neg hequal]
  rfl

/-- Equal words are not counted. -/
theorem differing_of_equal {pos pos' : Nat} (hle : pos ≤ pos')
    (hequal : ∀ k, pos ≤ k → k < pos' → ¬ Differs old new k) : differing old new pos' = differing old new pos := by
  induction pos', hle using Nat.le_induction with
  | base => rfl
  | succ k hk ih =>
    rw [differing_succ_of_equal (hequal k hk (Nat.lt_succ_self k))]
    exact ih fun j h1 h2 => hequal j h1 (Nat.lt_succ_of_lt h2)

/-- The words of a run from its start on, of which half differ, and more if the last of them does. -/
theorem words_le_of_proper {r : Stretch} (hr : r.Proper old new) {words : Nat} (hle : words ≤ r.words) :
    words + 2 * differing old new r.first ≤ 2 * differing old new (r.first + words) ∧
      (0 < words → Differs old new (r.first + words - 1) →
        words + 1 + 2 * differing old new r.first ≤ 2 * differing old new (r.first + words)) := by
  induction words with
  | zero => exact ⟨Nat.le_of_eq (Nat.zero_add _), fun hpos => absurd hpos (Nat.lt_irrefl 0)⟩
  | succ words ih =>
    obtain ⟨ih, ihDiffers⟩ := ih (Nat.le_of_succ_le hle)
    by_cases hdiff : Differs old new (r.first + words)
    · have hsucc := differing_succ_of_differs hdiff
      rw [Nat.add_assoc] at hsucc
      exact ⟨by omega, fun _ _ => by omega⟩
    · have hsucc := differing_succ_of_equal hdiff
      rw [Nat.add_assoc] at hsucc
      -- the word in front of an equal one differs
      have hpos : 0 < words := by
        refine Nat.pos_of_ne_zero ?_
        rintro rfl
        exact hdiff hr.first
      have hstop : r.stop = r.first + r.words := rfl
      have hbefore : Differs old new (r.first + words - 1) := by
        refine (hr.next (r.first + words - 1) ⟨by omega, by omega⟩ ⟨by omega, by omega⟩).resolve_right ?_
        rwa [Nat.sub_add_cancel (by omega)]
      have hcharged := ihDiffers hpos hbefore
      exact ⟨by omega, fun _ hlast => absurd hlast hdiff⟩

/-- **At least half of the words of a run differ**, and the first of them does. -/
theorem words_le_two_mul {r : Stretch} (hr : r.Proper old new) :
    r.words + 2 * differing old new r.first ≤ 2 * differing old new r.stop ∧
      differing old new r.first < differing old new r.stop ∧
        differing old new r.stop ≤ differing old new r.first + r.words := by
  have hpos := hr.pos
  have hhalf : r.words + 2 * differing old new r.first ≤ 2 * differing old new r.stop :=
    (words_le_of_proper hr (Nat.le_refl _)).1
  refine ⟨hhalf, by omega, ?_⟩
  have hadd := Nat.count_add (Differs old new) r.first r.words
  have hle := Nat.count_le (p := fun k => Differs old new (r.first + k)) (n := r.words)
  rw [differing, Stretch.stop, hadd]
  exact Nat.add_le_add_left hle _

end Differing

/-! ### What the segments of spans count -/

namespace Span

variable (new : Bytes) (skip start words count : Nat)

@[simp]
theorem runs_toSegment_run : ((run skip start words).toSegment new).runs = 1 := rfl

@[simp]
theorem runs_toSegment_gap : ((gap count).toSegment new).runs = 0 := rfl

@[simp]
theorem gaps_toSegment_run : ((run skip start words).toSegment new).gaps = 0 := rfl

@[simp]
theorem gaps_toSegment_gap : ((gap count).toSegment new).gaps = 1 := rfl

@[simp]
theorem changedWords_toSegment_gap : ((gap count).toSegment new).changedWords = 0 := rfl

end Span

section Planned

variable {old new : Bytes} (h : old.size = new.size) {pos : Nat} {spans : List Span}
include h

theorem differing_of_sameWord {pos pos' : Nat} (hle : pos ≤ pos')
    (equal : ∀ k, pos ≤ k → k < pos' → (whole old new).sameWord k = true) :
    differing old new pos' = differing old new pos :=
  differing_of_equal hle fun k h1 h2 => not_differs_of_sameWord h (equal k h1 h2)

/-- Each run is charged to a word that differs, and each word that a run replaces to one of the same run. -/
theorem counts_planned (hplan : Planned (whole old new) pos spans) (hpos : pos ≤ wordCount old.size) :
    let segments := spans.map (Span.toSegment new)
    let changed := (segments.map Segment.changedWords).sum
    let before := differing old new pos
    let all := differing old new (wordCount old.size)
    before + (segments.map Segment.runs).sum ≤ all ∧ all ≤ before + changed ∧ changed + 2 * before ≤ 2 * all := by
  induction hplan with
  | @done pos equal =>
    have hall := differing_of_sameWord h hpos equal
    simp only [List.map_nil, List.sum_nil]
    omega
  | @gap pos count rest large fits inside equal after ih =>
    have hskip := differing_of_sameWord h (Nat.le_add_right pos count) equal
    have hrest := ih (Nat.le_of_lt inside)
    simp only [List.map_cons, List.sum_cons, Span.changedWords_toSegment_gap, Span.runs_toSegment_gap]
    omega
  | @run pos skip words rest fits equal isRun after ih =>
    have hskip := differing_of_sameWord h (Nat.le_add_right pos skip) equal
    have hrest := ih isRun.inside
    have hrun : words + 2 * differing old new (pos + skip) ≤ 2 * differing old new (pos + skip + words) ∧
        differing old new (pos + skip) < differing old new (pos + skip + words) ∧
          differing old new (pos + skip + words) ≤ differing old new (pos + skip) + words :=
      words_le_two_mul (proper_of_isRun h isRun)
    have hchanged : (Span.toSegment new (.run skip (pos + skip) words)).changedWords = words :=
      wordCount_payload h isRun.inside
    simp only [List.map_cons, List.sum_cons, hchanged, Span.runs_toSegment_run]
    omega

/-- **The segments end with the last word that differs.** -/
theorem end_planned (hplan : Planned (whole old new) pos spans) (hled : Bridged (whole old new) pos spans) :
    let segments := spans.map (Span.toSegment new)
    let stop := pos + (segments.map Segment.skippedWords).sum + (segments.map Segment.changedWords).sum
    (∀ k, stop ≤ k → k < wordCount old.size → ¬ Differs old new k) ∧
      (spans = [] ∨ 0 < stop ∧ stop ≤ wordCount old.size ∧ Differs old new (stop - 1)) := by
  induction hplan with
  | @done pos equal => exact ⟨fun k h1 h2 => not_differs_of_sameWord h (equal k h1 h2), .inl rfl⟩
  | @gap pos count rest large fits inside equal after ih =>
    have hskipped : (Span.toSegment new (.gap count)).skippedWords = count := toNat_count fits
    cases hled with
    | gap k ahead hin differs ends hled =>
      obtain ⟨hequal, hlast⟩ := ih hled
      simp only [List.map_cons, List.sum_cons, hskipped, Span.changedWords_toSegment_gap, Nat.zero_add,
        ← Nat.add_assoc]
      refine ⟨hequal, .inr (hlast.resolve_left ?_)⟩
      rintro rfl
      exact hequal k ahead hin ((differs_iff h k).mpr differs)
  | @run pos skip words rest fits equal isRun after ih =>
    have hpos := isRun.pos
    have hskipped : (Span.toSegment new (.run skip (pos + skip) words)).skippedWords = skip := toNat_skip fits
    have hchanged : (Span.toSegment new (.run skip (pos + skip) words)).changedWords = words :=
      wordCount_payload h isRun.inside
    have hstop (skipped changed : Nat) :
        pos + (skip + skipped) + (words + changed) = pos + skip + words + skipped + changed := by omega
    cases hled with
    | run hled =>
      obtain ⟨hequal, hlast⟩ := ih hled
      simp only [List.map_cons, List.sum_cons, hskipped, hchanged, hstop]
      refine ⟨hequal, .inr ?_⟩
      rcases hlast with rfl | hlast
      · refine ⟨by omega, isRun.inside, ?_⟩
        refine isRun.last_differs.elim (differs_iff h _).mpr fun ⟨hin, hdiff⟩ => ?_
        exact absurd ((differs_iff h _).mpr hdiff) (hequal _ (Nat.le_refl _) hin)
      · exact hlast

/-- **Between strings of at most `maxGap` words, each gap is followed by a run.** -/
theorem gaps_le_runs (hmax : wordCount old.size ≤ maxGap) (hplan : Planned (whole old new) pos spans)
    (hled : Bridged (whole old new) pos spans) :
    let segments := spans.map (Span.toSegment new)
    (segments.map Segment.gaps).sum ≤ (segments.map Segment.runs).sum ∧
      (pos < wordCount old.size → Differs old new pos →
        (segments.map Segment.gaps).sum + 1 ≤ (segments.map Segment.runs).sum) := by
  induction hplan with
  | @done pos equal =>
    exact ⟨Nat.le_refl _, fun hin hdiff => absurd hdiff (not_differs_of_sameWord h (equal pos (Nat.le_refl _) hin))⟩
  | @gap pos count rest large fits inside equal after ih =>
    have hwords : (whole old new).words = wordCount old.size := rfl
    cases hled with
    | gap k ahead hin differs ends hled =>
      -- the gap is not of the largest size, so the word behind it differs
      obtain rfl : k = pos + count := ends.resolve_right (by omega)
      have hnext := (ih hled).2 hin ((differs_iff h _).mpr differs)
      simp only [List.map_cons, List.sum_cons, Span.gaps_toSegment_gap, Span.runs_toSegment_gap]
      refine ⟨by omega, fun _ hdiff => absurd hdiff (not_differs_of_sameWord h ?_)⟩
      exact equal pos (Nat.le_refl _) (by omega)
  | @run pos skip words rest fits equal isRun after ih =>
    cases hled with
    | run hled =>
      have hrest := (ih hled).1
      simp only [List.map_cons, List.sum_cons, Span.gaps_toSegment_run, Span.runs_toSegment_run]
      exact ⟨by omega, fun _ _ => by omega⟩

end Planned

/-! ### The summary of a patch -/

theorem differing_eq_zero_iff {old new : Bytes} {words : Nat} :
    differing old new words = 0 ↔ ∀ k < words, ¬ Differs old new k := Nat.count_iff_forall_not

/-- The words that the segments leave and replace are none, or those up to the last one that differs. -/
theorem end_plan (s : Scanner) {old new : Bytes} (h : old.size = new.size) :
    let words := ((segments s old new).map Segment.skippedWords).sum +
      ((segments s old new).map Segment.changedWords).sum
    words = 0 ∧ (∀ k < wordCount old.size, ¬ Differs old new k) ∨
      ∃ last, IsGreatest {k | k < wordCount old.size ∧ Differs old new k} last ∧ words = last + 1 := by
  intro words
  obtain ⟨hequal, hlast⟩ := end_planned h (planned_plan s old new) (bridged_plan s old new)
  rw [Nat.zero_add] at hequal hlast
  have hequal : ∀ k, words ≤ k → k < wordCount old.size → ¬ Differs old new k := hequal
  rcases hlast with hnil | ⟨hpos, hin, hdiff⟩
  · have hwords : words = 0 := by
      have hsegments : segments s old new = [] := congrArg (List.map _) hnil
      simp only [words, hsegments, List.map_nil, List.sum_nil, Nat.add_zero]
    exact .inl ⟨hwords, fun k hk => hequal k (by omega) hk⟩
  · refine .inr ⟨words - 1, ⟨⟨Nat.sub_one_lt_of_le hpos hin, hdiff⟩, fun k hk => ?_⟩, (Nat.sub_add_cancel hpos).symm⟩
    exact Nat.le_sub_one_of_lt (Nat.lt_of_not_le fun hle => hequal k hle hk.1 hk.2)

/-- **The size of a patch follows the number of changes.**  A buffer with room for the largest patch takes the patch, and
the counts over it report the size and a terminator.  There are no more runs than words that differ.  The runs replace these
and at most as many others, and with the words that are left as they are, they make up those up to the last one that
differs.  Between strings of at most `maxGap` words, there are no more gaps than runs, so that a change takes at most 14
bytes.  Between strings with a 64-bit size, the summary of the patch has these counts, none of them cut to its low bits. -/
theorem summary_writeInto (s : Scanner) {old new out : Bytes} (h : old.size = new.size)
    (hout : bound old.size ≤ out.size) :
    ∃ n, (writeInto s old new out).2 = .ok n ∧
      let patch := (writeInto s old new out).1.extract 0 n
      let t := (decode patch).totals
      let changes := differing old new (wordCount old.size)
      (t.terminated = true ∧ t.encodedSize = n) ∧ t.runs ≤ changes ∧
        (changes ≤ t.changedWords ∧ t.changedWords ≤ 2 * changes) ∧
          ((changes = 0 → t.skippedWords + t.changedWords = 0) ∧
            (changes ≠ 0 → ∃ last, IsGreatest {k | k < wordCount old.size ∧ Differs old new k} last ∧
              t.skippedWords + t.changedWords = last + 1)) ∧
            (wordCount old.size ≤ maxGap → t.gaps ≤ t.runs ∧ n ≤ 6 + 14 * changes) ∧
              (old.size ≤ maxSize → summary patch = t) := by
  refine ⟨(diff s old new).size, by rw [writeInto_eq s h hout], ?_⟩
  intro patch
  have hdecode : decode patch = ⟨segments s old new, (diff s old new).size, true⟩ := decode_writeInto s h hout
  have hsize := encodedSize_eq (congrArg Decoded.terminated hdecode)
  have hsummary : (decode patch).totals.skippedWords ≤ maxSize → summary patch = (decode patch).totals :=
    summary_eq_totals
  rw [hdecode] at hsize hsummary ⊢
  obtain ⟨hruns, hchanged, hdouble⟩ := counts_planned h (planned_plan s old new) (Nat.zero_le _)
  have hzero : differing old new 0 = 0 := Nat.count_zero _
  rw [hzero] at hruns hchanged hdouble
  rw [Nat.zero_add] at hruns hchanged
  intro t changes
  refine ⟨⟨rfl, rfl⟩, hruns, ⟨hchanged, hdouble⟩, ?ends, fun hmax => ?size, fun hmax => hsummary ?small⟩
  case ends =>
    rcases end_plan s h with ⟨hnone, hequal⟩ | ⟨last, hgreatest, hwords⟩
    · exact ⟨fun _ => hnone, fun hsome => absurd (differing_eq_zero_iff.mpr hequal) hsome⟩
    · obtain ⟨hin, hdiff⟩ := hgreatest.1
      exact ⟨fun hnone => absurd hdiff (differing_eq_zero_iff.mp hnone last hin), fun _ => ⟨last, hgreatest, hwords⟩⟩
  case size =>
    have hgaps : t.gaps ≤ t.runs := (gaps_le_runs h hmax (planned_plan s old new) (bridged_plan s old new)).1
    have hsize : (diff s old new).size = 4 * t.runs + 2 * t.changedWords + 6 * t.gaps + 6 := hsize
    have hruns : t.runs ≤ changes := hruns
    have hdouble : t.changedWords ≤ 2 * changes := hdouble
    exact ⟨hgaps, by omega⟩
  case small =>
    have hwords : t.skippedWords + t.changedWords ≤ wordCount old.size := by
      rcases end_plan s h with ⟨hnone, -⟩ | ⟨last, hgreatest, hwords⟩
      · exact Nat.le_trans (Nat.le_of_eq hnone) (Nat.zero_le _)
      · exact Nat.le_trans (Nat.le_of_eq hwords) hgreatest.1.1
    have hcount : wordCount old.size = (old.size + 1) / 2 := rfl
    show t.skippedWords ≤ maxSize
    omega

/-- The second word of three is equal, and replaced with the others. -/
theorem summary_writeInto_odd :
    let old : Bytes := ⟨#[0, 0, 0, 0, 5]⟩
    let new : Bytes := ⟨#[1, 0, 0, 0, 7]⟩
    old.size = new.size ∧ bound old.size ≤ (Bytes.zeros 16).size ∧
      ∃ n, (writeInto .scalar old new (Bytes.zeros 16)).2 = .ok n ∧
        let t := summary ((writeInto .scalar old new (Bytes.zeros 16)).1.extract 0 n)
        t.encodedSize = n ∧ t.runs ≤ 2 ∧ t.skippedWords + t.changedWords = 3 ∧ n ≤ 34 := by
  intro old new
  have hout : bound old.size ≤ (Bytes.zeros 16).size := by
    rw [Bytes.size_zeros]
    decide
  have hsize : old.size = new.size := rfl
  have hchanges : differing old new (wordCount old.size) = 2 := by decide
  have hwords : wordCount old.size = 3 := by decide
  have hgreatest : IsGreatest {k | k < wordCount old.size ∧ Differs old new k} 2 :=
    ⟨⟨by decide, by decide⟩, fun k hk => Nat.le_of_lt_succ (Nat.lt_of_lt_of_eq hk.1 hwords)⟩
  obtain ⟨n, hok, ⟨-, hn⟩, hruns, -, ⟨-, hlast⟩, hsmall, hsummary⟩ := summary_writeInto .scalar hsize hout
  obtain ⟨last, hgreatest', hsum⟩ := hlast (by rw [hchanges]; decide)
  obtain rfl := hgreatest.unique hgreatest'
  obtain ⟨-, hle⟩ := hsmall (by decide)
  rw [hchanges] at hruns hle
  refine ⟨hsize, hout, n, hok, ?_⟩
  rw [hsummary (by decide)]
  exact ⟨hn, hruns, hsum, hle⟩

end Patch

end Retrace
