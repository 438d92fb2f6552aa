import Retrace.Proofs.Patch.Checked

/-!
# A patch is written while it is found

The search for spans writes each of them into the output buffer as soon as it is found, number by number, and a half word
at the end of a payload is filled up by a write of its own.  Every write is checked.

* `fillFrom?`: the search, with the writer carried along;
* `fillFrom?_eq`: what it writes are the segments of the spans, in order;
* `encodeInto?_eq`: it leaves what is written at once;
* `writeInto_confined`: the start of the buffer is filled with bytes that depend on the two strings only, and all others
  are left as they are.
-/

namespace Retrace

open Window

namespace Patch

/-! ### The writes of one span -/

namespace Writer

/-- One word. -/
def putWord (w : Writer) (value : UInt16) : Option Writer := w.put (word value)

/-- The words of a run.  A half word at the end is filled up with a zero, to keep whole words. -/
def putPayload (w : Writer) (bytes : Bytes) : Option Writer :=
  (w.put bytes).bind fun w =>
    if bytes.size % wordBytes = 0 then some w else w.put (ByteArray.empty.push 0)

/-- A run: how many words it replaces and how many it skips, and the words. -/
def putRun (w : Writer) (words skip : UInt16) (bytes : Bytes) : Option Writer := do
  let w ← w.putWord words
  let w ← w.putWord skip
  w.putPayload bytes

/-- A gap: a zero word and the two words of its count. -/
def putGap (w : Writer) (count : UInt32) : Option Writer := do
  let w ← w.putWord 0
  let w ← w.putWord count.toUInt16
  w.putWord (count >>> 16).toUInt16

/-- The terminator. -/
def finish (w : Writer) : Option Writer := do
  let w ← w.putWord 0
  let w ← w.putWord 0
  w.putWord 0

theorem putPayload_eq (w : Writer) (new : Bytes) (start words : Nat) :
    w.putPayload (new.extract (2 * start) (2 * (start + words))) = w.put (payload new start words) := by
  rw [putPayload, payload_eq, wordBytes]
  split
  · cases w.put (new.extract (2 * start) (2 * (start + words))) <;> rfl
  · rw [put_put, ← Bytes.push_eq_append]

theorem putGap_eq (w : Writer) (count : UInt32) : w.putGap count = w.putAll (segmentWrites (.gap count)) := by
  simp [putGap, putWord, putAll, segmentWrites]

theorem finish_eq (w : Writer) : w.finish = w.putAll [word 0, word 0, word 0] := by
  simp [finish, putWord, putAll]

theorem putRun_eq (w : Writer) {new : Bytes} {skip start words : Nat} (hin : start + words ≤ wordCount new.size) :
    w.putRun words.toUInt16 skip.toUInt16 (new.extract (2 * start) (2 * (start + words))) =
      w.putAll (segmentWrites ((Span.run skip start words).toSegment new)) := by
  have hcount : wordCount (payload new start words).size = words := by
    rw [size_payload hin, wordCount]
    omega
  simp [putRun, putWord, putAll, segmentWrites, Span.toSegment, putPayload_eq, hcount]

end Writer

theorem writes_cons (s : Segment) (rest : List Segment) : writes (s :: rest) = segmentWrites s ++ writes rest := by
  rw [writes, writes, List.flatMap_cons, List.append_assoc]

/-! ### The search with the writer carried along -/

/-- The writer behind the spans from word `pos` on and the terminator.  A run without words would hold up the search. -/
def fillFrom? (s : Scanner) (old new : Bytes) (pos : Nat) (w : Writer) : Option Writer :=
  if pos < wordCount old.size then
    (window? (Window.whole old new) pos).bind fun rest =>
      let skip := s.equalSpan rest
      if wordCount old.size - pos ≤ skip then w.finish
      else if maxRun < skip then
        let count := min skip maxGap
        (w.putGap count.toUInt32).bind fun w => fillFrom? s old new (pos + count) w
      else
        let start := pos + skip
        (runLength? s old new start).bind fun words =>
          if words = 0 then none
          else
            (new.slice? (wordBytes * start) (min (wordBytes * (start + words)) new.size)).bind fun bytes =>
              (w.putRun words.toUInt16 skip.toUInt16 bytes).bind fun w => fillFrom? s old new (start + words) w
  else w.finish
termination_by wordCount old.size - pos
decreasing_by
  · simp only [maxRun, maxGap] at *; omega
  · omega

/-- The output buffer with the patch between two strings at its start, written as it is found. -/
def encodeInto? (s : Scanner) (old new out : Bytes) : Option (Bytes × Except PatchError Nat) :=
  if old.size ≠ new.size then some (out, .error (.lengthMismatch old.size new.size))
  else do
    let limit ← bound? old.size
    if out.size < limit then return (out, .error (.outputTooSmall limit out.size))
    else
      let written ← fillFrom? s old new 0 ⟨out, 0⟩
      return (written.out, .ok written.pos)

section Fill

variable (s : Scanner) {old new : Bytes} (h : old.size = new.size)
include h

/-- **What the search writes are the segments of its spans**, in order, and the terminator. -/
theorem fillFrom?_eq (pos : Nat) (before : List Span) :
    ∃ spans, planFrom s old new pos before = before.reverse ++ spans ∧
      ∀ w : Writer, fillFrom? s old new pos w = w.putAll (writes (spans.map (Span.toSegment new))) := by
  have hwords : (whole old new).words = wordCount old.size := rfl
  fun_induction planFrom s old new pos before with
  | case1 pos before hlt skip hdone =>
    refine ⟨[], (List.append_nil _).symm, fun w => ?_⟩
    rw [fillFrom?, if_pos hlt, window?_eq (by rwa [hwords]), Option.bind_some]
    exact (if_pos hdone).trans w.finish_eq
  | case2 pos before hlt skip hmore hlong count ih =>
    obtain ⟨spans, heq, hfill⟩ := ih
    refine ⟨.gap count :: spans, by rw [heq, List.reverse_cons, List.append_assoc]; rfl, fun w => ?_⟩
    rw [fillFrom?, if_pos hlt, window?_eq (by rwa [hwords]), Option.bind_some, List.map_cons, writes_cons,
      Writer.putAll_append, Span.toSegment, ← Writer.putGap_eq]
    refine ((if_neg hmore).trans (if_pos hlong)).trans ?_
    exact congrArg (Option.bind (w.putGap count.toUInt32)) (funext hfill)
  | case3 pos before hlt skip hmore hshort start words ih =>
    have hstart : start < wordCount old.size := by
      have : start = pos + skip := rfl
      omega
    have hrun : runLength? s old new start = some words := runLength?_eq s hstart
    have hpos : words ≠ 0 := Nat.ne_of_gt (runLength_pos s old new hstart)
    have hin : start + words ≤ wordCount new.size := h ▸ add_runLength_le s hstart
    obtain ⟨spans, heq, hfill⟩ := ih
    refine ⟨.run skip start words :: spans, by rw [heq, List.reverse_cons, List.append_assoc]; rfl, fun w => ?_⟩
    rw [fillFrom?, if_pos hlt, window?_eq (by rwa [hwords]), Option.bind_some, List.map_cons, writes_cons,
      Writer.putAll_append, ← Writer.putRun_eq w hin]
    refine ((if_neg hmore).trans (if_neg hshort)).trans ?_
    refine (congrArg (Option.bind · _) hrun).trans ((if_neg hpos).trans ?_)
    rw [slice?_words (h ▸ hstart), Option.bind_some]
    exact congrArg _ (funext hfill)
  | case4 pos before hge =>
    refine ⟨[], (List.append_nil _).symm, fun w => ?_⟩
    rw [fillFrom?, if_neg hge]
    exact w.finish_eq

end Fill

/-! ### The output buffer -/

theorem encodeInto?_eq (s : Scanner) (old new out : Bytes) (hold : old.size ≤ maxAllocation) :
    encodeInto? s old new out = some (writeInto s old new out) := by
  by_cases h : old.size = new.size
  · have hlimit : bound? old.size = some (bound old.size) := bound?_eq (bound_le_maxSize hold)
    rw [encodeInto?, if_neg (fun hne => hne h), hlimit, Option.bind_eq_bind, Option.bind_some]
    by_cases hout : out.size < bound old.size
    · rw [if_pos hout, writeInto_of_lt s h hout]
      rfl
    · obtain ⟨spans, hplan, hfill⟩ := fillFrom?_eq s h 0 []
      have hspans : spans = plan s old new := hplan.symm
      rw [if_neg hout, hfill, hspans, ← segments, putAll_diff s h (Nat.le_of_not_lt hout),
        writeInto_eq s h (Nat.le_of_not_lt hout)]
      rfl
  · rw [encodeInto?, if_pos h, writeInto_of_ne s h]

theorem writeInto_error_iff (s : Scanner) (old new out : Bytes) (e : PatchError) :
    (writeInto s old new out).2 = .error e ↔
      old.size ≠ new.size ∧ e = .lengthMismatch old.size new.size ∨
        old.size = new.size ∧ out.size < bound old.size ∧ e = .outputTooSmall (bound old.size) out.size := by
  by_cases h : old.size = new.size
  · simp only [ne_eq, h, not_true_eq_false, false_and, true_and, false_or]
    by_cases hout : out.size < bound old.size
    · simp [writeInto_of_lt s h hout, ← h, hout, eq_comm]
    · simp [writeInto_eq s h (Nat.le_of_not_lt hout), ← h, hout]
  · simp [writeInto_of_ne s h, h, eq_comm]

theorem writeInto_of_error {s : Scanner} {old new out : Bytes} {e : PatchError}
    (he : (writeInto s old new out).2 = .error e) : (writeInto s old new out).1 = out := by
  rcases (writeInto_error_iff s old new out e).mp he with ⟨h, -⟩ | ⟨h, hout, -⟩
  · rw [writeInto_of_ne s h]
  · rw [writeInto_of_lt s h hout]

/-- **A patch is written and nothing else.**  The writer that goes along with the search gets through, for strings that
can be allocated.  It fails exactly if the sizes differ, or else the buffer has no room for the largest patch, and leaves
the buffer as it is.  A patch fills the start of the buffer, and all behind it stays.  What the patch is depends neither
on what was in the buffer nor on how large it is, nor on the scanner. -/
theorem writeInto_confined (s : Scanner) (old new out : Bytes) :
    let answer := writeInto s old new out
    (old.size ≤ maxAllocation → encodeInto? s old new out = some answer) ∧
      (∀ e, answer.2 = .error e ↔
        old.size ≠ new.size ∧ e = .lengthMismatch old.size new.size ∨
          old.size = new.size ∧ out.size < bound old.size ∧ e = .outputTooSmall (bound old.size) out.size) ∧
        (∀ e, answer.2 = .error e → answer.1 = out) ∧
          ∀ n, answer.2 = .ok n →
            (n ≤ out.size ∧ answer.1.size = out.size ∧ ∀ i, n ≤ i → answer.1.byteAt i = out.byteAt i) ∧
              ∀ (t : Scanner) (out' : Bytes), bound old.size ≤ out'.size →
                (writeInto t old new out').2 = .ok n ∧
                  (writeInto t old new out').1.extract 0 n = answer.1.extract 0 n := by
  refine ⟨encodeInto?_eq s old new out, writeInto_error_iff s old new out, fun e => writeInto_of_error, ?_⟩
  intro n hok
  obtain ⟨h, hout⟩ := writeInto_eq_ok hok
  have hfits := Nat.le_trans (size_diff_le s h) hout
  have hwritten := writeInto_eq s h hout
  obtain rfl : (diff s old new).size = n := by
    rw [hwritten] at hok
    exact Except.ok.inj hok
  refine ⟨⟨hfits, by rw [hwritten, Bytes.size_overlay], fun i hi => ?_⟩, fun t out' hout' => ?_⟩
  · rw [hwritten, Bytes.byteAt_overlay, if_neg (by omega)]
  · have hfits' := Nat.le_trans (size_diff_le s h) hout'
    rw [writeInto_scanner t s, writeInto_eq s h hout', hwritten]
    refine ⟨rfl, ?_⟩
    rw [Bytes.extract_zero_overlay hfits', Bytes.extract_zero_overlay hfits]

/-- In a buffer full of other bytes, and larger than needed, a half word is filled up and what is behind the patch stays. -/
theorem writeInto_confined_stale :
    let old : Bytes := ⟨#[5, 6, 3]⟩
    let new : Bytes := ⟨#[5, 6, 4]⟩
    let stale : Bytes := ⟨#[9, 9, 9, 9, 9, 9, 9, 9, 9, 9, 9, 9, 9, 9, 9, 9]⟩
    let patch : Bytes := ⟨#[1, 0, 1, 0, 4, 0, 0, 0, 0, 0, 0, 0]⟩
    old.size ≤ maxAllocation ∧ bound old.size ≤ (Bytes.zeros 14).size ∧
      encodeInto? .scalar old new stale = some (patch ++ ⟨#[9, 9, 9, 9]⟩, .ok 12) ∧
        (writeInto .vector old new (Bytes.zeros 14)).2 = .ok 12 ∧
          (writeInto .vector old new (Bytes.zeros 14)).1.extract 0 12 = patch := by
  intro old new stale patch
  have hout : bound old.size ≤ (Bytes.zeros 14).size := by
    rw [Bytes.size_zeros]
    decide
  have hsize : old.size = new.size := rfl
  have hroom : bound old.size ≤ stale.size := by decide
  have hdiff : diff .scalar old new = patch := by decide +kernel
  have hbehind : stale.overlay 0 patch = patch ++ ⟨#[9, 9, 9, 9]⟩ := by decide +kernel
  have hanswer : writeInto .scalar old new stale = (patch ++ ⟨#[9, 9, 9, 9]⟩, .ok 12) := by
    rw [writeInto_eq .scalar hsize hroom, hdiff, hbehind]
    rfl
  obtain ⟨hwritten, -, -, hconfined⟩ := writeInto_confined .scalar old new stale
  rw [hanswer] at hwritten hconfined
  obtain ⟨-, hother⟩ := hconfined 12 rfl
  obtain ⟨hok, hpatch⟩ := hother .vector (Bytes.zeros 14) hout
  exact ⟨by decide, hout, hwritten (by decide), hok, hpatch.trans (ByteArray.extract_append_eq_left rfl)⟩

end Patch

end Retrace
