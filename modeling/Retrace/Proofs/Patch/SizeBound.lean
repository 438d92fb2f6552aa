import Retrace.Proofs.Patch.Writer

/-!
# How large a patch gets

Every word of a run is carried once, so the size of a patch is settled by its headers.  A header after
two skipped words is paid for by them, and so is a gap by the words that it skips.  What is not paid for
is the first header and those right behind a run of the largest size, one for each block of words.

* `cost_le`: the size of planned spans, in general and where the words go on with skipped ones;
* `cost_eq`: the size where every word differs;
* `writeInto_scanner`: a patch does not show the scanner that it was found with;
* `size_patch_le_bound`: no patch is larger than the bound, the writer stays within a buffer of that
  size, and the bound is reached.
-/

namespace Retrace

open Window

namespace Patch

/-- The number of runs that `words` words need if all of them differ. -/
def blocks (words : Nat) : Nat := (words + (maxRun - 1)) / maxRun

theorem blocks_eq (words : Nat) : blocks words = (words + 65534) / 65535 := rfl

theorem bound_eq (size : Nat) :
    bound size = 2 * wordCount size + 4 * blocks (wordCount size) + terminatorSize := by
  rw [bound, blocks, wordBytes, runHeaderSize]
  omega

/-- The bytes of the spans in their written form. -/
def cost : List Span → Nat
  | [] => 0
  | .run _ _ words :: rest => 4 + 2 * words + cost rest
  | .gap _ :: rest => 6 + cost rest

theorem size_forms {w : Window} {new : Bytes} (hw : w.words ≤ wordCount new.size) {pos : Nat}
    {spans : List Span} (hplan : Planned w pos spans) :
    (forms (spans.map (Span.toSegment new))).size = cost spans := by
  induction hplan with
  | done => rfl
  | gap large fits inside equal after ih =>
    rw [List.map_cons, forms, ByteArray.size_append, ih, Span.toSegment, Segment.size_form_gap, cost]
  | run fits equal isRun after ih =>
    have hin := isRun.inside
    rw [List.map_cons, forms, ByteArray.size_append, ih, Span.toSegment, Segment.size_form_run,
      size_payload (by omega), cost]
    rfl

theorem size_diff (s : Scanner) {old new : Bytes} (h : old.size = new.size) :
    (diff s old new).size = cost (plan s old new) + terminatorSize := by
  have hwords : (whole old new).words ≤ wordCount new.size := Nat.le_of_eq (congrArg wordCount h)
  rw [diff, encode_eq_append, ByteArray.size_append, segments, size_forms hwords (planned_plan s old new)]
  rfl

/-! ### The bound -/

/-- A place where the spans end or go on with at least two skipped words. -/
def Rested (w : Window) (pos : Nat) : Prop := pos = w.words ∨ w.breaksAt pos = true

theorem two_le_skip {w : Window} {pos skip words : Nat} (hrest : Rested w pos)
    (hrun : w.IsRun (pos + skip) words) : 2 ≤ skip := by
  have hin := hrun.inside
  have hpos := hrun.pos
  have hdiff := hrun.differs
  rcases hrest with hend | hbreak
  · omega
  · rw [breaksAt, Bool.and_eq_true, Bool.or_eq_true, decide_eq_true_eq] at hbreak
    obtain ⟨hsame, hnext⟩ := hbreak
    have h0 : skip ≠ 0 := by
      rintro rfl
      rw [Nat.add_zero, hsame] at hdiff
      contradiction
    have h1 : skip ≠ 1 := by
      rintro rfl
      rw [hnext.resolve_left (by omega)] at hdiff
      contradiction
    omega

theorem cost_le {w : Window} {pos : Nat} {spans : List Span} (hplan : Planned w pos spans) :
    cost spans ≤ 2 * (w.words - pos) + 4 * blocks (w.words - pos) ∧
      (Rested w pos → cost spans ≤ 2 * (w.words - pos) + 4 * (blocks (w.words - pos) - 1)) := by
  have hmax : maxRun = 65535 := rfl
  induction hplan with
  | done => exact ⟨Nat.zero_le _, fun _ => Nat.zero_le _⟩
  | gap large fits inside equal after ih =>
    obtain ⟨ih, -⟩ := ih
    simp only [cost, blocks_eq] at *
    omega
  | @run pos skip words rest fits equal isRun after ih =>
    obtain ⟨ih, ihRested⟩ := ih
    have hin := isRun.inside
    have hpos := isRun.pos
    have hskip := fun hrest => two_le_skip hrest isRun
    simp only [cost, blocks_eq] at *
    -- a full run costs a block of words with its header; behind any other the words rest
    rcases isRun.ends with hfull | hrest
    · refine ⟨by omega, fun hr => ?_⟩
      have := hskip hr
      omega
    · have := ihRested hrest
      refine ⟨by omega, fun hr => ?_⟩
      have := hskip hr
      omega

/-! ### Where every word differs -/

theorem cost_eq {w : Window} (hall : ∀ k < w.words, w.sameWord k = false) {pos : Nat}
    {spans : List Span} (hplan : Planned w pos spans) :
    cost spans = 2 * (w.words - pos) + 4 * blocks (w.words - pos) := by
  have hmax : maxRun = 65535 := rfl
  have hnot {k : Nat} (hk : k < w.words) : w.sameWord k ≠ true := by
    rw [hall k hk]
    decide
  induction hplan with
  | @done pos equal =>
    have hpos : w.words ≤ pos := by
      refine Nat.le_of_not_lt fun hlt => hnot hlt (equal pos (Nat.le_refl _) hlt)
    rw [cost, Nat.sub_eq_zero_of_le hpos]
    rfl
  | @gap pos count rest large fits inside equal after ih =>
    exact absurd (equal pos (Nat.le_refl _) (by omega)) (hnot (by omega))
  | @run pos skip words rest fits equal isRun after ih =>
    have hin := isRun.inside
    have hpos := isRun.pos
    have hle := isRun.le_maxRun
    have hskip : skip = 0 := by
      refine Nat.eq_zero_of_not_pos fun hlt => ?_
      exact absurd (equal pos (Nat.le_refl _) (by omega)) (hnot (by omega))
    have hfull : words = maxRun ∨ pos + skip + words = w.words := by
      rcases isRun.ends with h | h | h
      · exact Or.inl h
      · exact Or.inr h
      · refine Or.inr (Nat.le_antisymm hin (Nat.le_of_not_lt fun hlt => ?_))
        rw [breaksAt, hall _ hlt] at h
        contradiction
    simp only [cost, blocks_eq] at *
    omega

theorem size_diff_le (s : Scanner) {old new : Bytes} (h : old.size = new.size) :
    (diff s old new).size ≤ bound old.size := by
  have hcost := (cost_le (planned_plan s old new)).1
  rw [size_diff s h, bound_eq]
  exact Nat.add_le_add_right hcost _

theorem size_diff_eq (s : Scanner) {old new : Bytes} (h : old.size = new.size)
    (hall : ∀ k < wordCount old.size, (whole old new).sameWord k = false) :
    (diff s old new).size = bound old.size := by
  have hcost := cost_eq (w := whole old new) hall (planned_plan s old new)
  rw [size_diff s h, bound_eq, hcost]
  rfl

/-! ### Writing into a buffer -/

theorem diff_scanner (s t : Scanner) (old new : Bytes) : diff s old new = diff t old new := by
  have hplan : plan s old new = plan t old new := plan_congr rfl (fun _ _ => rfl) s t
  rw [diff, diff, segments, segments, hplan]

/-- The same patch is written with every scanner, or the same error is answered. -/
theorem writeInto_scanner (s t : Scanner) (old new out : Bytes) :
    writeInto s old new out = writeInto t old new out := by
  unfold writeInto
  rw [diff_scanner s t]

theorem writeInto_of_ne (s : Scanner) {old new : Bytes} (h : old.size ≠ new.size) (out : Bytes) :
    writeInto s old new out = (out, .error (.lengthMismatch old.size new.size)) := if_pos h

theorem writeInto_of_lt (s : Scanner) {old new out : Bytes} (h : old.size = new.size)
    (hout : out.size < bound old.size) :
    writeInto s old new out = (out, .error (.outputTooSmall (bound old.size) out.size)) := by
  rw [writeInto, if_neg (fun hne => hne h), if_pos hout]

theorem writeInto_eq (s : Scanner) {old new out : Bytes} (h : old.size = new.size)
    (hout : bound old.size ≤ out.size) :
    writeInto s old new out = (out.overlay 0 (diff s old new), .ok (diff s old new).size) := by
  rw [writeInto, if_neg (fun hne => hne h), if_neg (Nat.not_lt.mpr hout)]

theorem writeInto_eq_ok {s : Scanner} {old new out : Bytes} {n : Nat} (hok : (writeInto s old new out).2 = .ok n) :
    old.size = new.size ∧ bound old.size ≤ out.size := by
  unfold writeInto at hok
  split at hok
  · cases hok
  · next hsize =>
    split at hok
    · cases hok
    · next hout => exact ⟨Decidable.not_not.mp hsize, Nat.le_of_not_lt hout⟩

theorem putAll_diff (s : Scanner) {old new out : Bytes} (h : old.size = new.size)
    (hout : bound old.size ≤ out.size) :
    Writer.putAll ⟨out, 0⟩ (writes (segments s old new)) =
      some ⟨out.overlay 0 (diff s old new), (diff s old new).size⟩ := by
  have hjoin : join (writes (segments s old new)) = diff s old new :=
    join_writes (wellFormed_toSegment h (planned_plan s old new))
  have hempty : Bytes.empty ++ join (writes (segments s old new)) = diff s old new := by
    rw [hjoin]
    exact ByteArray.empty_append
  have hfits := Nat.le_trans (size_diff_le s h) hout
  rw [← Writer.filled_empty, Writer.putAll_filled (by rw [hempty]; exact hfits), hempty]
  rfl

/-- **No patch is larger than the bound.**  So a writer that is checked at every write gets through
within a buffer of that size, and leaves there what is written at once.  Where every word differs, the
patch is just as large as the bound. -/
theorem size_patch_le_bound (s : Scanner) {old new out : Bytes} (h : old.size = new.size)
    (hout : bound old.size ≤ out.size) :
    ∃ n, (writeInto s old new out).2 = .ok n ∧ n ≤ bound old.size ∧
      Writer.putAll ⟨out, 0⟩ (writes (segments s old new)) = some ⟨(writeInto s old new out).1, n⟩ ∧
      ((∀ k < wordCount old.size, old.wordAt k ≠ new.wordAt k) → n = bound old.size) := by
  rw [writeInto_eq s h hout]
  refine ⟨_, rfl, size_diff_le s h, putAll_diff s h hout, fun hall => ?_⟩
  refine size_diff_eq s h fun k hk => ?_
  rw [Bool.eq_false_iff]
  exact fun hsame => hall k hk ((sameWord_iff_wordAt_eq h k).mp hsame)

theorem size_patch_le_bound_odd :
    bound 3 ≤ (Bytes.zeros 14).size ∧
      ∃ n, (writeInto .scalar ⟨#[0, 0, 0]⟩ ⟨#[1, 0, 7]⟩ (Bytes.zeros 14)).2 = .ok n ∧ n = 14 := by
  have hout : bound 3 ≤ (Bytes.zeros 14).size := by
    rw [Bytes.size_zeros]
    decide
  have hsize : (⟨#[0, 0, 0]⟩ : Bytes).size = (⟨#[1, 0, 7]⟩ : Bytes).size := rfl
  obtain ⟨n, hok, -, -, hfull⟩ := size_patch_le_bound .scalar hsize hout
  exact ⟨hout, n, hok, hfull (by decide)⟩

end Patch

end Retrace
