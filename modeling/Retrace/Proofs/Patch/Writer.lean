import Retrace.Proofs.Patch.Segments

/-!
# Writing a patch in place

A patch is written into a buffer from the front, number by number.  Here each write is checked: one
that would reach past the end of the buffer stops the writer.

* `join_writes`: the writes of a patch, one behind the other, are the patch;
* `Writer.putAll_filled`: as long as all of them fit, the writer gets through its writes, and leaves
  them at the start of the buffer.
-/

namespace Retrace

namespace Patch

/-! ### The writes of a patch -/

/-- The bytes of one word. -/
def word (value : UInt16) : Bytes := Bytes.empty.pushLE value.toNat 2

/-- What is written for a segment, in order: its two or three numbers, and the payload of a run. -/
def segmentWrites : Segment → List Bytes
  | .run skip payload => [word (wordCount payload.size).toUInt16, word skip, payload]
  | .gap count => [word 0, word count.toUInt16, word (count >>> 16).toUInt16]

/-- What is written for a patch, in order. -/
def writes (segments : List Segment) : List Bytes :=
  segments.flatMap segmentWrites ++ [word 0, word 0, word 0]

/-- Byte strings, one behind the other. -/
def join : List Bytes → Bytes
  | [] => Bytes.empty
  | b :: rest => b ++ join rest

theorem join_append (xs ys : List Bytes) : join (xs ++ ys) = join xs ++ join ys := by
  induction xs with
  | nil => exact ByteArray.empty_append.symm
  | cons b rest ih => rw [List.cons_append, join, join, ih, ByteArray.append_assoc]

/-- A number of two words is its low word and its high one. -/
theorem pushLE_four (out : Bytes) (value : Nat) :
    out.pushLE value 4 = (out.pushLE (value % 65536) 2).pushLE (value / 65536) 2 := by
  have h0 : (value % 65536).toUInt8 = value.toUInt8 := by
    rw [← UInt8.toNat_inj, UInt8.toNat_ofNat', UInt8.toNat_ofNat']
    omega
  have h1 : (value % 65536 / 256).toUInt8 = (value / 256).toUInt8 := by
    rw [← UInt8.toNat_inj, UInt8.toNat_ofNat', UInt8.toNat_ofNat']
    omega
  have h2 : value / 256 / 256 = value / 65536 := by omega
  simp only [Bytes.pushLE, h0, h1, h2]

theorem join_segmentWrites {s : Segment} (hs : s.WellFormed) : join (segmentWrites s) = s.form := by
  cases s with
  | run skip payload =>
    obtain ⟨words, hpos, hle, hp⟩ := hs
    have hcount : wordCount payload.size ≤ maxRun := by
      rw [hp, wordCount]
      omega
    rw [Segment.form, Segment.emit, Bytes.pushLE_eq_append (Bytes.pushLE Bytes.empty _ _), segmentWrites,
      join, join, join, join, word, word, toNat_skip hcount, ByteArray.append_assoc]
    exact congrArg _ (congrArg _ ByteArray.append_empty)
  | gap count =>
    have hlow : count.toUInt16.toNat = count.toNat % 65536 := UInt32.toNat_toUInt16 count
    have hhigh : (count >>> 16).toUInt16.toNat = count.toNat / 65536 := by
      have hlt := count.toNat_lt
      have hshift : (count >>> 16).toNat = count.toNat / 65536 :=
        (UInt32.toNat_shiftRight count 16).trans (Nat.shiftRight_eq_div_pow _ 16)
      rw [UInt32.toNat_toUInt16, hshift]
      exact Nat.mod_eq_of_lt (by omega)
    rw [Segment.form, Segment.emit, pushLE_four, Bytes.pushLE_eq_append,
      Bytes.pushLE_eq_append (Bytes.pushLE Bytes.empty 0 2), segmentWrites, join, join, join, join, word,
      word, word, hlow, hhigh, ByteArray.append_assoc]
    exact congrArg _ (congrArg _ ByteArray.append_empty)

theorem join_writes {segments : List Segment} (hs : ∀ s ∈ segments, s.WellFormed) :
    join (writes segments) = encode segments := by
  have hforms : join (segments.flatMap segmentWrites) = forms segments := by
    induction segments with
    | nil => rfl
    | cons s rest ih =>
      rw [List.flatMap_cons, join_append, join_segmentWrites (hs s (List.mem_cons_self ..)),
        ih fun t ht => hs t (List.mem_cons_of_mem _ ht), forms]
  rw [writes, join_append, hforms, encode_eq_append]
  rfl

/-! ### A checked writer -/

/-- An output buffer and the place of the next byte in it. -/
structure Writer where
  out : Bytes
  pos : Nat

namespace Writer

/-- The writer with `src` written, or nothing if the buffer ends before `src` does. -/
def put (w : Writer) (src : Bytes) : Option Writer :=
  if w.pos + src.size ≤ w.out.size then some ⟨w.out.overlay w.pos src, w.pos + src.size⟩ else none

/-- The writer after some writes, or nothing if one of them reaches past the end of the buffer. -/
def putAll (w : Writer) : List Bytes → Option Writer
  | [] => some w
  | src :: rest => (w.put src).bind fun w => w.putAll rest

theorem putAll_append (w : Writer) (xs ys : List Bytes) :
    w.putAll (xs ++ ys) = (w.putAll xs).bind fun w => w.putAll ys := by
  induction xs generalizing w with
  | nil => rfl
  | cons src rest ih =>
    rw [List.cons_append, putAll, putAll, Option.bind_assoc]
    exact congrArg _ (funext ih)

/-- Two writes, one behind the other, are one write of both. -/
theorem put_put (w : Writer) (a b : Bytes) : ((w.put a).bind fun w => w.put b) = w.put (a ++ b) := by
  have hsize : (a ++ b).size = a.size + b.size := ByteArray.size_append
  by_cases hb : w.pos + a.size + b.size ≤ w.out.size
  · rw [put, if_pos (by omega), Option.bind_some, put, if_pos (by rw [Bytes.size_overlay]; exact hb), put,
      if_pos (by omega), hsize, Nat.add_assoc]
    congr 2
    refine Bytes.ext_byteAt (by simp only [Bytes.size_overlay]) fun i hi => ?_
    simp only [Bytes.byteAt_overlay, Bytes.byteAt_append, Bytes.size_overlay, hsize]
    grind
  · by_cases ha : w.pos + a.size ≤ w.out.size
    · rw [put, if_pos ha, Option.bind_some, put, if_neg (by rw [Bytes.size_overlay]; exact hb), put,
        if_neg (by omega)]
    · rw [put, if_neg ha, Option.bind_none, put, if_neg (by omega)]

/-- The writer that has filled the start of a buffer. -/
def filled (out start : Bytes) : Writer := ⟨out.overlay 0 start, start.size⟩

theorem filled_empty (out : Bytes) : filled out Bytes.empty = ⟨out, 0⟩ := by
  refine congrArg (Writer.mk · 0) (Bytes.ext_byteAt (Bytes.size_overlay _ _ _) fun i _ => ?_)
  have hempty : Bytes.empty.size = 0 := rfl
  rw [Bytes.byteAt_overlay, if_neg (by omega)]

theorem put_filled {out start src : Bytes} (h : (start ++ src).size ≤ out.size) :
    (filled out start).put src = some (filled out (start ++ src)) := by
  rw [ByteArray.size_append] at h
  rw [put, filled, filled, if_pos (by rw [Bytes.size_overlay]; exact h), ByteArray.size_append]
  congr 2
  refine Bytes.ext_byteAt (by simp only [Bytes.size_overlay]) fun i hi => ?_
  rw [Bytes.size_overlay, Bytes.size_overlay] at hi
  rw [Bytes.byteAt_overlay, Bytes.byteAt_overlay, Bytes.byteAt_overlay, Bytes.size_overlay,
    ByteArray.size_append, Bytes.byteAt_append]
  grind

theorem putAll_filled {out start : Bytes} {srcs : List Bytes} (h : (start ++ join srcs).size ≤ out.size) :
    (filled out start).putAll srcs = some (filled out (start ++ join srcs)) := by
  induction srcs generalizing start with
  | nil => exact congrArg (fun b => some (filled out b)) ByteArray.append_empty.symm
  | cons src rest ih =>
    rw [join, ← ByteArray.append_assoc] at h ⊢
    have hput : (filled out start).put src = some (filled out (start ++ src)) := by
      refine put_filled ?_
      rw [ByteArray.size_append] at h
      omega
    rw [putAll, hput, Option.bind_some, ih h]

end Writer

end Patch

end Retrace
