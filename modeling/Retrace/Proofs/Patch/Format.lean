import Retrace.Patch.Apply

/-!
# Reading what was written

* `Segment.form`: the written form of one segment, which `Segment.emit` appends;
* `Segment.read_form`: a well-formed segment is read back where it stands, whatever follows it;
* `Patch.decode_encode`: the segments of a written patch are those it was written from, and bytes
  after the terminator are not looked at.
-/

namespace Retrace

namespace Segment

/-! ### One segment -/

/-- The written form of a segment. -/
def form (s : Segment) : Bytes := s.emit Bytes.empty

theorem emit_eq_append (out : Bytes) (s : Segment) : s.emit out = out ++ s.form := by
  cases s with
  | run skip payload =>
    rw [form, emit, emit, Bytes.pushLE_eq_append, Bytes.pushLE_eq_append out,
      Bytes.pushLE_eq_append (Bytes.pushLE Bytes.empty _ _), ByteArray.append_assoc, ByteArray.append_assoc,
      ByteArray.append_assoc]
  | gap count =>
    rw [form, emit, emit, Bytes.pushLE_eq_append, Bytes.pushLE_eq_append out,
      Bytes.pushLE_eq_append (Bytes.pushLE Bytes.empty _ _), ByteArray.append_assoc]

theorem size_form_run (skip : UInt16) (payload : Bytes) :
    (form (.run skip payload)).size = Patch.runHeaderSize + payload.size := by
  rw [form, emit, ByteArray.size_append, Bytes.size_pushLE, Bytes.size_pushLE]
  rfl

theorem size_form_gap (count : UInt32) : (form (.gap count)).size = 6 := by
  rw [form, emit, Bytes.size_pushLE, Bytes.size_pushLE]
  rfl

/-- The two numbers at the start of a run. -/
theorem readLE_form_run (skip : UInt16) {payload : Bytes} {words : Nat} (hw : words ≤ Patch.maxRun)
    (hp : payload.size = 2 * words) :
    (form (.run skip payload)).readLE 0 2 = words ∧
      (form (.run skip payload)).readLE 2 2 = skip.toNat := by
  have hcount : wordCount payload.size = words := by
    rw [hp, wordCount]
    omega
  rw [form, emit, hcount, Bytes.readLE_append_left (by simp), Bytes.readLE_append_left (by simp),
    Bytes.readLE_pushLE_left (by simp)]
  exact ⟨Bytes.readLE_pushLE_of_lt Bytes.empty (Nat.lt_succ_of_le hw),
    Bytes.readLE_pushLE_of_lt (Bytes.pushLE Bytes.empty words 2) skip.toNat_lt⟩

/-- The zero word and the number of a gap. -/
theorem readLE_form_gap (count : UInt32) :
    (form (.gap count)).readLE 0 2 = 0 ∧ (form (.gap count)).readLE 2 4 = count.toNat := by
  rw [form, emit, Bytes.readLE_pushLE_left (by simp)]
  exact ⟨Bytes.readLE_pushLE_of_lt Bytes.empty (by decide),
    Bytes.readLE_pushLE_of_lt (Bytes.pushLE Bytes.empty 0 2) count.toNat_lt⟩

/-- The words of a run, after its header. -/
theorem extract_form_run (skip : UInt16) (payload after : Bytes) :
    (form (.run skip payload) ++ after).extract 4 (form (.run skip payload)).size = payload := by
  have hheader : ((Bytes.empty.pushLE (wordCount payload.size) 2).pushLE skip.toNat 2).size = 4 := by
    rw [Bytes.size_pushLE, Bytes.size_pushLE]
    rfl
  rw [form, emit, ByteArray.append_assoc, ByteArray.size_append, hheader]
  exact (ByteArray.extract_append_size_add' (i := 0) hheader.symm).trans
    (ByteArray.extract_append_eq_left rfl)

theorem read_form {s : Segment} (hs : s.WellFormed) (before after : Bytes) :
    Segment.read (before ++ s.form ++ after) before.size = .segment s (before.size + s.form.size) := by
  have hsize : (before ++ s.form ++ after).size = before.size + s.form.size + after.size := by
    rw [ByteArray.size_append, ByteArray.size_append]
  have hread (i width : Nat) (h : i + width ≤ s.form.size) :
      Bytes.readLE (before ++ s.form ++ after) (before.size + i) width = s.form.readLE i width := by
    rw [Bytes.readLE_append_left (by rw [ByteArray.size_append]; omega), Bytes.readLE_append_right]
  cases s with
  | run skip payload =>
    obtain ⟨words, hpos, hle, hp⟩ := hs
    have hform : (form (.run skip payload)).size = 4 + payload.size := size_form_run skip payload
    have hread0 := hread 0 2 (by omega)
    obtain ⟨hwords, hskip⟩ := readLE_form_run skip hle hp
    have hnext : before.size + 4 + 2 * words = before.size + (form (.run skip payload)).size := by omega
    rw [Nat.add_zero, hwords] at hread0
    rw [Segment.read, if_neg (by omega), hread0, hread 2 2 (by omega), hskip]
    dsimp only
    rw [if_neg (by omega), if_neg (by omega), hnext, if_neg (by omega), ByteArray.append_assoc,
      ByteArray.extract_append_size_add, extract_form_run]
    exact congrArg (fun n => Reading.segment (.run n payload) _) UInt16.ofNat_toNat
  | gap count =>
    have hform := size_form_gap count
    have hread0 := hread 0 2 (by omega)
    obtain ⟨hzero, hcount⟩ := readLE_form_gap count
    have hne : count.toNat ≠ 0 := fun h0 => hs (UInt32.toNat_inj.mp h0)
    rw [Nat.add_zero, hzero] at hread0
    rw [Segment.read, if_neg (by omega), hread0, hread 2 4 (by omega), hcount]
    dsimp only
    rw [if_neg (by omega), if_pos rfl, if_neg (by omega), if_neg hne, hform]
    exact congrArg (fun n => Reading.segment (.gap n) _) UInt32.ofNat_toNat

end Segment

/-! ### A whole patch -/

namespace Patch

/-- The written forms of some segments in a row. -/
def forms : List Segment → Bytes
  | [] => Bytes.empty
  | s :: rest => s.form ++ forms rest

theorem forms_append (xs ys : List Segment) : forms (xs ++ ys) = forms xs ++ forms ys := by
  induction xs with
  | nil => exact ByteArray.empty_append.symm
  | cons s rest ih => rw [List.cons_append, forms, forms, ih, ByteArray.append_assoc]

theorem forms_singleton (s : Segment) : forms [s] = s.form := ByteArray.append_empty

/-- The written form of the end of a patch. -/
def terminator : Bytes := Bytes.empty.pushLE 0 terminatorSize

theorem foldl_emit (out : Bytes) (segments : List Segment) :
    segments.foldl Segment.emit out = out ++ forms segments := by
  induction segments generalizing out with
  | nil => exact ByteArray.append_empty.symm
  | cons s rest ih =>
    rw [List.foldl_cons, ih, Segment.emit_eq_append, ByteArray.append_assoc]
    rfl

theorem encode_eq_append (segments : List Segment) : encode segments = forms segments ++ terminator := by
  rw [encode, foldl_emit, Bytes.pushLE_eq_append, ByteArray.append_assoc]
  exact ByteArray.empty_append

theorem decodeFrom_segment {patch : Bytes} {pos next : Nat} {s : Segment}
    (h : Segment.read patch pos = .segment s next) (before : List Segment) :
    decodeFrom patch pos before = decodeFrom patch next (s :: before) := by
  rw [decodeFrom]
  split <;> simp_all

theorem decodeFrom_terminator {patch : Bytes} {pos next : Nat}
    (h : Segment.read patch pos = .terminator next) (before : List Segment) :
    decodeFrom patch pos before = ⟨before.reverse, next, true⟩ := by
  rw [decodeFrom]
  split <;> simp_all

theorem decodeFrom_cut {patch : Bytes} {pos next : Nat} (h : Segment.read patch pos = .cut next)
    (before : List Segment) : decodeFrom patch pos before = ⟨before.reverse, next, false⟩ := by
  rw [decodeFrom]
  split <;> simp_all

theorem read_terminator (before after : Bytes) :
    Segment.read (before ++ terminator ++ after) before.size = .terminator (before.size + terminatorSize) := by
  have hsize : (before ++ terminator ++ after).size = before.size + 6 + after.size := by
    rw [ByteArray.size_append, ByteArray.size_append]
    rfl
  have hread (i width : Nat) (h : i + width ≤ 6) :
      Bytes.readLE (before ++ terminator ++ after) (before.size + i) width = terminator.readLE i width := by
    rw [Bytes.readLE_append_left, Bytes.readLE_append_right]
    rw [ByteArray.size_append]
    have : terminator.size = 6 := rfl
    omega
  have h0 : terminator.readLE 0 2 = 0 := by decide
  have h2 : terminator.readLE 2 4 = 0 := by decide
  have hread0 := hread 0 2 (by decide)
  rw [Nat.add_zero, h0] at hread0
  rw [Segment.read, if_neg (by omega), hread0, hread 2 4 (by decide), h2]
  dsimp only
  rw [if_neg (by omega), if_pos rfl, if_neg (by omega), if_pos rfl]
  rfl

/-- Segments that stand in a row are read one after the other, whatever follows them. -/
theorem decodeFrom_forms_append {segments : List Segment} (hs : ∀ s ∈ segments, s.WellFormed)
    (before after : Bytes) (read : List Segment) :
    decodeFrom (before ++ forms segments ++ after) before.size read =
      decodeFrom (before ++ forms segments ++ after) (before.size + (forms segments).size)
        (segments.reverse ++ read) := by
  induction segments generalizing before read with
  | nil => rfl
  | cons s rest ih =>
    have h := Segment.read_form (hs s (List.mem_cons_self ..)) before (forms rest ++ after)
    have ih := ih (fun t ht => hs t (List.mem_cons_of_mem _ ht)) (before ++ s.form) (s :: read)
    simp only [← ByteArray.append_assoc] at h
    rw [forms, ← ByteArray.append_assoc, decodeFrom_segment h, ← ByteArray.size_append, ih,
      ByteArray.size_append, ByteArray.size_append, List.reverse_cons, List.append_assoc,
      List.singleton_append, Nat.add_assoc before.size]

theorem decodeFrom_forms {segments : List Segment} (hs : ∀ s ∈ segments, s.WellFormed)
    (before after : Bytes) (read : List Segment) :
    decodeFrom (before ++ forms segments ++ terminator ++ after) before.size read =
      ⟨read.reverse ++ segments, before.size + (forms segments).size + terminatorSize, true⟩ := by
  have hend := read_terminator (before ++ forms segments) after
  have hforms := decodeFrom_forms_append hs before (terminator ++ after) read
  rw [← ByteArray.append_assoc] at hforms
  rw [ByteArray.size_append] at hend
  rw [hforms, decodeFrom_terminator hend, List.reverse_append, List.reverse_reverse]

theorem decode_encode {segments : List Segment} (hs : ∀ s ∈ segments, s.WellFormed) (after : Bytes) :
    decode (encode segments ++ after) = ⟨segments, (encode segments).size, true⟩ := by
  have h := decodeFrom_forms hs Bytes.empty after []
  have hempty : Bytes.empty ++ forms segments = forms segments := ByteArray.empty_append
  have hsize : (encode segments).size = (forms segments).size + terminatorSize := by
    rw [encode_eq_append, ByteArray.size_append]
    rfl
  rw [hempty, ← encode_eq_append, List.reverse_nil, List.nil_append] at h
  rw [decode, hsize]
  exact h.trans (by rw [show Bytes.empty.size = 0 from rfl, Nat.zero_add])

theorem decode_encode_self {segments : List Segment} (hs : ∀ s ∈ segments, s.WellFormed) :
    decode (encode segments) = ⟨segments, (encode segments).size, true⟩ := by
  have hdecode := decode_encode hs Bytes.empty
  rwa [show encode segments ++ Bytes.empty = encode segments from ByteArray.append_empty] at hdecode

end Patch

end Retrace
