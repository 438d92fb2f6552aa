import Mathlib.Data.List.Chain
import Retrace.Proofs.Patch.Inverse
import Retrace.Proofs.Patch.RoundTrip

/-!
# The segments of a patch

Which words a patch replaces is settled by which words differ.  A run begins with a word that differs, goes on over
single equal words and ends with a word that differs, unless it is of the largest size: then its last word may be an
equal one, with a word that differs right behind it.

* `runsFrom`, `skipsFrom`: where the words are that the runs replace, and those that are left as they are;
* `Canonical`: what is so for the segments of every patch between two strings;
* `canonical_planned`: planned spans are written as canonical segments;
* `extents_planned`: how many words each of them leaves and replaces is read off the spans;
* `writeInto_canonical`: a written patch is read back as canonical segments.
-/

namespace Retrace

open Window

/-- How many words a segment leaves as they are, and how many it replaces. -/
def Segment.extent (s : Segment) : Nat × Nat := (s.skippedWords, s.changedWords)

namespace Patch

/-! ### The words of segments -/

/-- Whether the words at index `k` of two strings differ. -/
def Differs (old new : Bytes) (k : Nat) : Prop := old.wordAt k ≠ new.wordAt k

instance (old new : Bytes) : DecidablePred (Differs old new) :=
  fun k => inferInstanceAs (Decidable (old.wordAt k ≠ new.wordAt k))

theorem differs_iff {old new : Bytes} (h : old.size = new.size) (k : Nat) :
    Differs old new k ↔ (whole old new).sameWord k = false := by
  rw [Differs, Ne, ← sameWord_iff_wordAt_eq h, Bool.not_eq_true]

theorem not_differs_of_sameWord {old new : Bytes} (h : old.size = new.size) {k : Nat}
    (hsame : (whole old new).sameWord k = true) : ¬ Differs old new k := by
  rw [differs_iff h, hsame]
  decide

/-- Two pairs of strings with as many words, of which the same ones are equal. -/
def SameWords (old new old' new' : Bytes) : Prop :=
  wordCount old.size = wordCount old'.size ∧
    ∀ k < wordCount old.size, (Differs old new k ↔ Differs old' new' k)

/-- Some words in a row. -/
structure Stretch where
  first : Nat
  words : Nat
  deriving DecidableEq, Repr

/-- The word behind a stretch. -/
def Stretch.stop (r : Stretch) : Nat := r.first + r.words

/-- Whether word `k` is in a stretch. -/
def Stretch.Has (r : Stretch) (k : Nat) : Prop := r.first ≤ k ∧ k < r.stop

/-- The words that segments leave as they are, with the cursor at word `pos` before them. -/
def skipsFrom (pos : Nat) : List Segment → List Stretch
  | [] => []
  | s :: rest => ⟨pos, s.skippedWords⟩ :: skipsFrom (pos + s.skippedWords + s.changedWords) rest

/-- The words that each run replaces, with the cursor at word `pos` before the segments. -/
def runsFrom (pos : Nat) : List Segment → List Stretch
  | [] => []
  | .gap count :: rest => runsFrom (pos + count.toNat) rest
  | .run skip payload :: rest =>
    let start := pos + skip.toNat
    ⟨start, wordCount payload.size⟩ :: runsFrom (start + wordCount payload.size) rest

theorem le_first (pos : Nat) (segments : List Segment) : ∀ r ∈ runsFrom pos segments, pos ≤ r.first := by
  induction segments generalizing pos with
  | nil => exact fun r hr => nomatch hr
  | cons s rest ih =>
    cases s with
    | gap count => exact fun r hr => Nat.le_trans (Nat.le_add_right _ _) (ih _ r hr)
    | run skip payload =>
      refine List.forall_mem_cons.mpr ⟨Nat.le_add_right _ _, fun r hr => ?_⟩
      have hle := ih _ r hr
      omega

/-! ### Canonical segments -/

/-- **A run as a patch has it**: it begins with a word that differs, of two words next to each other in it one differs,
and its last word does unless the run is of the largest size. -/
structure Stretch.Proper (old new : Bytes) (r : Stretch) : Prop where
  pos : 0 < r.words
  le_maxRun : r.words ≤ maxRun
  inside : r.stop ≤ wordCount old.size
  first : Differs old new r.first
  next : ∀ k, r.Has k → r.Has (k + 1) → Differs old new k ∨ Differs old new (k + 1)
  last : r.words = maxRun ∨ Differs old new (r.stop - 1)

/-- **Segments as a patch between two strings has them from word `pos` on.**  The words that are left as they are, are
equal, and so are all others outside of the runs.  The runs are proper, and the last one ends with a word that differs.
Between two runs, two words or more are left unless the first one is of the largest size.  A gap leaves more words than a
run can, and is not the last segment. -/
structure Canonical (old new : Bytes) (pos : Nat) (segments : List Segment) : Prop where
  skipped : ∀ r ∈ skipsFrom pos segments, ∀ k, r.Has k → ¬ Differs old new k
  covered : ∀ k, pos ≤ k → k < wordCount old.size → Differs old new k → ∃ r ∈ runsFrom pos segments, r.Has k
  proper : ∀ r ∈ runsFrom pos segments, r.Proper old new
  last : ∀ r ∈ (runsFrom pos segments).getLast?, Differs old new (r.stop - 1)
  apart : (runsFrom pos segments).IsChain fun r next => r.words = maxRun ∨ r.stop + 2 ≤ next.first
  gaps : ∀ count, .gap count ∈ segments → maxRun < count.toNat
  bridged : ∀ count, segments.getLast? ≠ some (.gap count)

/-! ### The segments of spans -/

section Spans

variable {old new : Bytes} (h : old.size = new.size)

theorem extent_gap (new : Bytes) {count : Nat} (fits : count ≤ maxGap) :
    ((Span.gap count).toSegment new).extent = (count, 0) :=
  Prod.ext (toNat_count fits) rfl

include h in
theorem wordCount_payload {start words : Nat} (inside : start + words ≤ (whole old new).words) :
    wordCount (payload new start words).size = words := by
  have hin : start + words ≤ wordCount new.size := h ▸ inside
  rw [size_payload hin, wordCount]
  omega

include h in
theorem extent_run {skip start words : Nat} (fits : skip ≤ maxRun)
    (inside : start + words ≤ (whole old new).words) :
    ((Span.run skip start words).toSegment new).extent = (skip, words) :=
  Prod.ext (toNat_skip fits) (wordCount_payload h inside)

theorem runsFrom_gap (new : Bytes) (pos : Nat) {count : Nat} (fits : count ≤ maxGap) (rest : List Segment) :
    runsFrom pos ((Span.gap count).toSegment new :: rest) = runsFrom (pos + count) rest := by
  rw [Span.toSegment, runsFrom, toNat_count fits]

include h in
theorem runsFrom_run (pos : Nat) {skip words : Nat} (fits : skip ≤ maxRun)
    (inside : pos + skip + words ≤ (whole old new).words) (rest : List Segment) :
    runsFrom pos ((Span.run skip (pos + skip) words).toSegment new :: rest) =
      ⟨pos + skip, words⟩ :: runsFrom (pos + skip + words) rest := by
  rw [Span.toSegment, runsFrom, toNat_skip fits, wordCount_payload h inside]

theorem skipsFrom_cons {pos : Nat} {s : Segment} {skipped changed : Nat} (hs : s.extent = (skipped, changed))
    (rest : List Segment) :
    skipsFrom pos (s :: rest) = ⟨pos, skipped⟩ :: skipsFrom (pos + skipped + changed) rest := by
  obtain ⟨rfl, rfl⟩ := Prod.mk.inj hs
  rfl

include h in
theorem proper_of_isRun {start words : Nat} (hrun : (whole old new).IsRun start words) :
    (⟨start, words⟩ : Stretch).Proper old new where
  pos := hrun.pos
  le_maxRun := hrun.le_maxRun
  inside := hrun.inside
  first := (differs_iff h start).mpr hrun.differs
  next k hk hnext := by
    rw [differs_iff h, differs_iff h]
    by_cases hsame : (whole old new).sameWord k = true
    · exact .inr (hrun.next_differs hk.1 hk.2 hsame).2
    · exact .inl (Bool.eq_false_iff.mpr hsame)
  last := by
    refine hrun.ends.imp id fun hends => ?_
    refine hrun.last_differs.elim (differs_iff h _).mpr fun ⟨hin, hdiff⟩ => ?_
    rcases hends with hend | hbreak
    · omega
    · rw [breaksAt, hdiff, Bool.false_and] at hbreak
      contradiction

end Spans

/-- Where the spans may go on with two equal words, the next run is behind them. -/
theorem le_first_of_rested {old new : Bytes} (h : old.size = new.size) {pos : Nat} {spans : List Span}
    (hplan : Planned (whole old new) pos spans) (hrest : Rested (whole old new) pos) :
    ∀ r ∈ (runsFrom pos (spans.map (Span.toSegment new))).head?, pos + 2 ≤ r.first := by
  cases hplan with
  | done equal => exact fun r hr => nomatch hr
  | @gap pos count rest large fits inside equal after =>
    intro r hr
    rw [List.map_cons, runsFrom_gap new pos fits] at hr
    have hle := le_first _ _ r (List.mem_of_mem_head? hr)
    have hmax : maxRun = 65535 := rfl
    omega
  | @run pos skip words rest fits equal isRun after =>
    intro r hr
    rw [List.map_cons, runsFrom_run h pos fits isRun.inside] at hr
    obtain rfl := Option.some.inj hr
    exact Nat.add_le_add_left (two_le_skip hrest isRun) pos

section Step

variable {old new : Bytes} (h : old.size = new.size) {pos : Nat} {rest : List Segment}

/-- What is covered behind some equal words is so from there on. -/
theorem covered_of_equal {pos pos' : Nat} {runs : List Stretch}
    (hequal : ∀ k, pos ≤ k → k < pos' → ¬ Differs old new k)
    (hcovered : ∀ k, pos' ≤ k → k < wordCount old.size → Differs old new k → ∃ r ∈ runs, r.Has k) :
    ∀ k, pos ≤ k → k < wordCount old.size → Differs old new k → ∃ r ∈ runs, r.Has k := by
  intro k h1 h2 hdiff
  by_cases hk : k < pos'
  · exact absurd hdiff (hequal k h1 hk)
  · exact hcovered k (Nat.le_of_not_lt hk) h2 hdiff

theorem canonical_gap {count : Nat} (large : maxRun < count) (fits : count ≤ maxGap)
    (hequal : ∀ k, pos ≤ k → k < pos + count → ¬ Differs old new k)
    (hahead : ∃ k, pos + count ≤ k ∧ k < wordCount old.size ∧ Differs old new k)
    (hrest : Canonical old new (pos + count) rest) :
    Canonical old new pos ((Span.gap count).toSegment new :: rest) where
  skipped := by
    rw [skipsFrom_cons (extent_gap new fits)]
    exact List.forall_mem_cons.mpr ⟨fun k hk => hequal k hk.1 hk.2, hrest.skipped⟩
  covered := by
    rw [runsFrom_gap new pos fits]
    exact covered_of_equal hequal hrest.covered
  proper := runsFrom_gap new pos fits rest ▸ hrest.proper
  last := runsFrom_gap new pos fits rest ▸ hrest.last
  apart := runsFrom_gap new pos fits rest ▸ hrest.apart
  gaps count' hmem := by
    rcases List.mem_cons.mp hmem with heq | hmem
    · obtain rfl := Segment.gap.inj heq
      rwa [toNat_count fits]
    · exact hrest.gaps count' hmem
  bridged count' hlast := by
    cases rest with
    | nil =>
      obtain ⟨k, h1, h2, hdiff⟩ := hahead
      obtain ⟨r, hr, -⟩ := hrest.covered k h1 h2 hdiff
      cases hr
    | cons s rest => exact hrest.bridged count' hlast

include h in
theorem canonical_run {skip words : Nat} (fits : skip ≤ maxRun)
    (hequal : ∀ k, pos ≤ k → k < pos + skip → ¬ Differs old new k)
    (hrun : (whole old new).IsRun (pos + skip) words)
    (hnext : Rested (whole old new) (pos + skip + words) →
      ∀ r ∈ (runsFrom (pos + skip + words) rest).head?, pos + skip + words + 2 ≤ r.first)
    (hrest : Canonical old new (pos + skip + words) rest) :
    Canonical old new pos ((Span.run skip (pos + skip) words).toSegment new :: rest) := by
  have hruns := runsFrom_run h pos fits hrun.inside rest
  have hproper := proper_of_isRun h hrun
  constructor
  case skipped =>
    rw [skipsFrom_cons (extent_run h fits hrun.inside)]
    exact List.forall_mem_cons.mpr ⟨fun k hk => hequal k hk.1 hk.2, hrest.skipped⟩
  case covered =>
    rw [hruns]
    refine covered_of_equal hequal fun k h1 h2 hdiff => ?_
    by_cases hk : k < pos + skip + words
    · exact ⟨_, List.mem_cons_self, h1, hk⟩
    · obtain ⟨r, hr, hhas⟩ := hrest.covered k (Nat.le_of_not_lt hk) h2 hdiff
      exact ⟨r, List.mem_cons_of_mem _ hr, hhas⟩
  case proper =>
    rw [hruns]
    exact List.forall_mem_cons.mpr ⟨hproper, hrest.proper⟩
  case last =>
    rw [hruns]
    intro r hr
    cases hafter : runsFrom (pos + skip + words) rest with
    | nil =>
      rw [hafter] at hr
      obtain rfl := Option.some.inj hr
      refine hrun.last_differs.elim (differs_iff h _).mpr fun ⟨hin, hdiff⟩ => ?_
      -- the word that differs behind the run would be in a later one
      obtain ⟨r, hr, -⟩ := hrest.covered _ (Nat.le_refl _) hin ((differs_iff h _).mpr hdiff)
      rw [hafter] at hr
      cases hr
    | cons next runs =>
      rw [hafter] at hr
      exact hrest.last r (by rwa [hafter])
  case apart =>
    rw [hruns, List.isChain_cons]
    exact ⟨fun r hr => hrun.ends.imp id fun hends => hnext hends r hr, hrest.apart⟩
  case gaps =>
    intro count hmem
    rcases List.mem_cons.mp hmem with heq | hmem
    · cases heq
    · exact hrest.gaps count hmem
  case bridged =>
    intro count hlast
    cases rest with
    | nil => cases hlast
    | cons s rest => exact hrest.bridged count hlast

end Step

theorem canonical_planned {old new : Bytes} (h : old.size = new.size) {pos : Nat} {spans : List Span}
    (hplan : Planned (whole old new) pos spans) (hled : Bridged (whole old new) pos spans) :
    Canonical old new pos (spans.map (Span.toSegment new)) := by
  have hequal {pos pos' : Nat} (equal : ∀ k, pos ≤ k → k < pos' → (whole old new).sameWord k = true) (k : Nat)
      (h1 : pos ≤ k) (h2 : k < pos') : ¬ Differs old new k := not_differs_of_sameWord h (equal k h1 h2)
  induction hplan with
  | @done pos equal =>
    exact {
      skipped := fun r hr => nomatch hr
      covered := fun k h1 h2 hdiff => absurd hdiff (hequal equal k h1 h2)
      proper := fun r hr => nomatch hr
      last := fun r hr => nomatch hr
      apart := .nil
      gaps := fun count hmem => nomatch hmem
      bridged := fun count hlast => nomatch hlast }
  | @gap pos count rest large fits inside equal after ih =>
    cases hled with
    | gap k ahead hin differs ends hled =>
      exact canonical_gap large fits (hequal equal) ⟨k, ahead, hin, (differs_iff h k).mpr differs⟩ (ih hled)
  | @run pos skip words rest fits equal isRun after ih =>
    cases hled with
    | run hled => exact canonical_run h fits (hequal equal) isRun (le_first_of_rested h after) (ih hled)

/-! ### What the segments depend on -/

/-- How many words a span leaves as they are, and how many are replaced. -/
def Span.extent : Span → Nat × Nat
  | .run skip _ words => (skip, words)
  | .gap count => (count, 0)

theorem extents_planned {old new : Bytes} (h : old.size = new.size) {pos : Nat} {spans : List Span}
    (hplan : Planned (whole old new) pos spans) :
    (spans.map (Span.toSegment new)).map Segment.extent = spans.map Span.extent := by
  induction hplan with
  | done equal => rfl
  | gap large fits inside equal after ih =>
    rw [List.map_cons, List.map_cons, List.map_cons, ih, extent_gap new fits, Span.extent]
  | run fits equal isRun after ih =>
    rw [List.map_cons, List.map_cons, List.map_cons, ih, extent_run h fits isRun.inside, Span.extent]

theorem plan_of_sameWords (s t : Scanner) {old new old' new' : Bytes} (h : old.size = new.size)
    (h' : old'.size = new'.size) (hsame : SameWords old new old' new') : plan s old new = plan t old' new' := by
  refine plan_congr hsame.1 (fun k hk => ?_) s t
  have hdiffers := hsame.2 k hk
  rw [differs_iff h, differs_iff h'] at hdiffers
  exact Bool.eq_iff_iff.mpr (by simpa using not_congr hdiffers)

theorem plan_eq_nil_iff (s : Scanner) {old new : Bytes} (h : old.size = new.size) :
    plan s old new = [] ↔ old = new := by
  have hplan := planned_plan s old new
  constructor
  · intro hnil
    rw [hnil] at hplan
    cases hplan with
    | done equal =>
      calc old = splice old new 0 := (splice_zero h).symm
        _ = splice old new (whole old new).words := splice_equal h (Nat.zero_le _) equal
        _ = new := splice_all h (Nat.le_refl _)
  · rintro rfl
    have hsame (k : Nat) : (whole old old).sameWord k = true := (sameWord_iff_wordAt_eq rfl k).mpr rfl
    have hled := bridged_plan s old old
    cases hspans : plan s old old with
    | nil => rfl
    | cons span rest =>
      rw [hspans] at hplan hled
      cases hplan with
      | run fits equal isRun after =>
        have hdiff := isRun.differs
        rw [hsame] at hdiff
        contradiction
      | gap large fits inside equal after =>
        cases hled with
        | gap k ahead hin differs ends after =>
          rw [hsame] at differs
          contradiction

/-! ### A written patch -/

theorem cost_eq_zero_iff {spans : List Span} : cost spans = 0 ↔ spans = [] := by
  cases spans with
  | nil => exact iff_of_true rfl rfl
  | cons span rest => cases span <;> simp [cost]

section Written

variable (s : Scanner) {old new out : Bytes} (h : old.size = new.size) (hout : bound old.size ≤ out.size)
include h hout

/-- A buffer begins with the patch that was written into it. -/
theorem extract_writeInto : (writeInto s old new out).1.extract 0 (diff s old new).size = diff s old new := by
  rw [writeInto_eq s h hout]
  exact Bytes.extract_zero_overlay (Nat.le_trans (size_diff_le s h) hout)

/-- What is read of the patch in a buffer. -/
theorem decode_writeInto :
    decode ((writeInto s old new out).1.extract 0 (diff s old new).size) =
      ⟨segments s old new, (diff s old new).size, true⟩ := by
  rw [extract_writeInto s h hout, decode_diff_self s h]

end Written

theorem size_diff_eq_iff (s : Scanner) {old new : Bytes} (h : old.size = new.size) :
    (diff s old new).size = terminatorSize ↔ old = new := by
  rw [size_diff s h, ← plan_eq_nil_iff s h, ← cost_eq_zero_iff]
  exact Nat.add_eq_right

theorem diff_eq_terminator_iff (s : Scanner) {old new : Bytes} (h : old.size = new.size) :
    diff s old new = terminator ↔ old = new := by
  constructor
  · intro hdiff
    rw [← size_diff_eq_iff s h, hdiff]
    rfl
  · intro heq
    rw [diff, segments, (plan_eq_nil_iff s h).mpr heq]
    rfl

/-- **A patch is canonical.**  A buffer with room for the largest patch takes the patch, and its first bytes, as many as
the patch has, are read back to their end as canonical segments.  How many words these leave and replace depends only on
which words are equal.  The patch is a bare terminator exactly if the strings are equal. -/
theorem writeInto_canonical (s : Scanner) {old new out : Bytes} (h : old.size = new.size)
    (hout : bound old.size ≤ out.size) :
    ∃ n, (writeInto s old new out).2 = .ok n ∧
      let patch := (writeInto s old new out).1.extract 0 n
      let d := decode patch
      (d.terminated = true ∧ d.position = n) ∧ Canonical old new 0 d.segments ∧
        (∀ (t : Scanner) (old' new' out' : Bytes) (n' : Nat), (writeInto t old' new' out').2 = .ok n' →
          SameWords old new old' new' →
            (decode ((writeInto t old' new' out').1.extract 0 n')).segments.map Segment.extent =
              d.segments.map Segment.extent) ∧
          (patch = terminator ↔ old = new) ∧ (n = terminatorSize ↔ old = new) := by
  have hok {t : Scanner} {old new out : Bytes} (h : old.size = new.size) (hout : bound old.size ≤ out.size) :
      (writeInto t old new out).2 = .ok (diff t old new).size := by rw [writeInto_eq t h hout]
  refine ⟨_, hok h hout, ?_⟩
  intro patch d
  have hpatch : patch = diff s old new := extract_writeInto s h hout
  have hd : d = ⟨segments s old new, (diff s old new).size, true⟩ := decode_writeInto s h hout
  rw [hpatch, hd]
  refine ⟨⟨rfl, rfl⟩, canonical_planned h (planned_plan s old new) (bridged_plan s old new), ?_,
    diff_eq_terminator_iff s h, size_diff_eq_iff s h⟩
  intro t old' new' out' n' hok' hsame
  obtain ⟨h', hout'⟩ := writeInto_eq_ok hok'
  obtain rfl := Except.ok.inj ((hok h' hout').symm.trans hok')
  rw [decode_writeInto t h' hout']
  dsimp only
  rw [segments, segments, extents_planned h (planned_plan s old new), extents_planned h' (planned_plan t old' new'),
    plan_of_sameWords s t h h' hsame]

/-- An equal word between two that differ, the last one of a single byte. -/
theorem writeInto_canonical_odd :
    let old : Bytes := ⟨#[0, 0, 0, 0, 5]⟩
    let new : Bytes := ⟨#[1, 0, 0, 0, 7]⟩
    old.size = new.size ∧ bound old.size ≤ (Bytes.zeros 16).size ∧
      ∃ n, (writeInto .scalar old new (Bytes.zeros 16)).2 = .ok n ∧ n ≠ terminatorSize ∧
        Canonical old new 0 (decode ((writeInto .scalar old new (Bytes.zeros 16)).1.extract 0 n)).segments := by
  intro old new
  have hout : bound old.size ≤ (Bytes.zeros 16).size := by
    rw [Bytes.size_zeros]
    decide
  have hsize : old.size = new.size := rfl
  have hne : old ≠ new := by decide
  obtain ⟨n, hok, -, hcanonical, -, -, hbare⟩ := writeInto_canonical .scalar hsize hout
  exact ⟨hsize, hout, n, hok, fun hn => hne (hbare.mp hn), hcanonical⟩

end Patch

end Retrace
