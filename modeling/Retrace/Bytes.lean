/-!
# Byte strings

Byte regions of fixed size that are read by offset and written in place.  Sizes and offsets are 64-bit,
and one allocation holds fewer than 2^63 bytes.

* `satAdd`, `satMul`: sums and products of sizes, held at the largest size;
* `wrapAdd`, `wrapMul`: the low 64 bits of sums and products of sizes;
* `wordCount`: byte strings are compared, patched and stored in words of two bytes;
* `Bytes.ext_byteAt`: a byte string is its size together with its bytes;
* `Bytes.byteAt_overlay`: an overlay changes the bytes it covers, keeps all others, and never
  changes the size;
* `Bytes.readLE_pushLE`, `Bytes.pushLE_readLE`: a number written in little-endian order reads back, if
  it fits, and one that was read is written as it stood there.
-/

namespace Retrace

/-- A string of bytes. -/
abbrev Bytes := ByteArray

/-! ## Sizes -/

/-- The largest size or offset, 2^64 - 1. -/
def maxSize : Nat := 18446744073709551615

/-- The largest number of bytes that one allocation can hold, 2^63 - 1. -/
def maxAllocation : Nat := 9223372036854775807

/-- The sum of two sizes, or the largest size where the sum is beyond it. -/
def satAdd (a b : Nat) : Nat := min (a + b) maxSize

/-- The product of two sizes, or the largest size where the product is beyond it. -/
def satMul (a b : Nat) : Nat := min (a * b) maxSize

/-- The sum of two sizes, or its low 64 bits where it is beyond the largest size. -/
def wrapAdd (a b : Nat) : Nat := (a + b) % (maxSize + 1)

/-- The product of two sizes, or its low 64 bits where it is beyond the largest size. -/
def wrapMul (a b : Nat) : Nat := (a * b) % (maxSize + 1)

/-! ## Words -/

/-- The bytes of one word. -/
def wordBytes : Nat := 2

/-- The words of a string of `size` bytes, an odd last byte being a word of its own. -/
def wordCount (size : Nat) : Nat := (size + 1) / 2

namespace Bytes

/-- The string without bytes. -/
def empty : Bytes := ByteArray.empty

/-! ## Reading -/

/-- The byte at offset `i`, and zero past the end. -/
def byteAt (b : Bytes) (i : Nat) : UInt8 :=
  if h : i < b.size then b[i] else 0

theorem byteAt_eq_getElem {b : Bytes} {i : Nat} (h : i < b.size) : b.byteAt i = b[i] := by
  simp [byteAt, h]

theorem byteAt_of_size_le {b : Bytes} {i : Nat} (h : b.size ≤ i) : b.byteAt i = 0 := by
  simp [byteAt, Nat.not_lt.mpr h]

theorem ext_byteAt {a b : Bytes} (hs : a.size = b.size)
    (h : ∀ i < a.size, a.byteAt i = b.byteAt i) : a = b := by
  refine ByteArray.ext_getElem hs fun i hi hi' => ?_
  rw [← byteAt_eq_getElem hi, ← byteAt_eq_getElem hi']
  exact h i hi

theorem byteAt_append (a b : Bytes) (i : Nat) :
    byteAt (a ++ b) i = if i < a.size then a.byteAt i else b.byteAt (i - a.size) := by
  by_cases ha : i < a.size
  · rw [if_pos ha, byteAt_eq_getElem ha,
      byteAt_eq_getElem (b := a ++ b) (by rw [ByteArray.size_append]; omega)]
    exact ByteArray.getElem_append_left ha
  · rw [if_neg ha]
    by_cases hb : i - a.size < b.size
    · rw [byteAt_eq_getElem hb,
        byteAt_eq_getElem (b := a ++ b) (by rw [ByteArray.size_append]; omega)]
      exact ByteArray.getElem_append_right (by omega)
    · rw [byteAt_of_size_le (b := b) (by omega),
        byteAt_of_size_le (b := a ++ b) (by rw [ByteArray.size_append]; omega)]

theorem byteAt_extract (b : Bytes) (start stop i : Nat) :
    byteAt (b.extract start stop) i = if start + i < stop then b.byteAt (start + i) else 0 := by
  by_cases h : i < (b.extract start stop).size
  · have hs := h
    rw [ByteArray.size_extract] at hs
    rw [byteAt_eq_getElem h, if_pos (by omega), byteAt_eq_getElem (by omega),
      ByteArray.getElem_extract]
  · rw [byteAt_of_size_le (by omega)]
    rw [ByteArray.size_extract] at h
    split
    · rw [byteAt_of_size_le (by omega)]
    · rfl

theorem push_eq_append (b : Bytes) (v : UInt8) : b.push v = b ++ ByteArray.empty.push v := by
  refine ByteArray.ext ?_
  rw [ByteArray.data_append]
  exact Array.push_eq_append

theorem byteAt_push (b : Bytes) (v : UInt8) (i : Nat) :
    byteAt (b.push v) i = if i = b.size then v else b.byteAt i := by
  have hs : (b.push v).size = b.size + 1 := ByteArray.size_push
  rw [push_eq_append, byteAt_append]
  by_cases h : i < b.size
  · rw [if_pos h, if_neg (by omega)]
  · rw [if_neg h]
    by_cases h' : i = b.size
    · subst h'
      rw [if_pos rfl, Nat.sub_self]
      rfl
    · rw [if_neg h', byteAt_of_size_le (b := b) (by omega), byteAt_of_size_le]
      have : (ByteArray.empty.push v).size = 1 := rfl
      omega

/-! ## Constant strings -/

/-- `n` copies of the byte `v`, built by doubling. -/
def replicate (n : Nat) (v : UInt8) : Bytes :=
  if n = 0 then empty
  else
    let half := replicate (n / 2) v
    if n % 2 = 0 then half ++ half else (half ++ half).push v
termination_by n

/-- `n` zero bytes. -/
def zeros (n : Nat) : Bytes := replicate n 0

theorem size_replicate (n : Nat) (v : UInt8) : (replicate n v).size = n := by
  induction n using Nat.strongRecOn with
  | ind n ih =>
    rw [replicate]
    split
    · next h => rw [h]; rfl
    · next h =>
      have ih := ih (n / 2) (by omega)
      dsimp only
      split
      · rw [ByteArray.size_append, ih]; omega
      · rw [ByteArray.size_push, ByteArray.size_append, ih]; omega

@[simp]
theorem size_zeros (n : Nat) : (zeros n).size = n := size_replicate n 0

theorem byteAt_replicate (n : Nat) (v : UInt8) (i : Nat) :
    byteAt (replicate n v) i = if i < n then v else 0 := by
  induction n using Nat.strongRecOn generalizing i with
  | ind n ih =>
    by_cases hi : i < n
    · rw [if_pos hi, replicate, if_neg (by omega)]
      have ih := ih (n / 2) (by omega)
      have hs := size_replicate (n / 2) v
      dsimp only
      split
      · rw [byteAt_append, ih, ih, hs]
        split
        · rfl
        · exact if_pos (by omega)
      · rw [byteAt_push, ByteArray.size_append, byteAt_append, ih, ih, hs]
        split
        · rfl
        · split
          · rfl
          · exact if_pos (by omega)
    · rw [if_neg hi, byteAt_of_size_le]
      rw [size_replicate]; omega

theorem byteAt_zeros (n i : Nat) : byteAt (zeros n) i = 0 := by
  rw [zeros, byteAt_replicate]
  split <;> rfl

/-! ## Writing -/

/-- `b` with the bytes of `src` in place of its own from offset `pos` on.  What would reach past the
end of `b` is dropped. -/
def overlay (b : Bytes) (pos : Nat) (src : Bytes) : Bytes :=
  if pos < b.size then src.copySlice 0 b pos (min src.size (b.size - pos)) else b

theorem overlay_eq_append {b : Bytes} {pos : Nat} (src : Bytes) (h : pos < b.size) :
    b.overlay pos src = b.extract 0 pos ++ src.extract 0 (b.size - pos) ++
      b.extract (pos + src.size) b.size := by
  rw [overlay, if_pos h, ByteArray.copySlice_eq_append]
  refine ext_byteAt ?_ fun i _ => ?_
  · simp only [ByteArray.size_append, ByteArray.size_extract, ByteArray.size_data]; omega
  · simp only [byteAt_append, byteAt_extract, ByteArray.size_append, ByteArray.size_extract,
      ByteArray.size_data]
    grind [byteAt_of_size_le]

@[simp]
theorem size_overlay (b : Bytes) (pos : Nat) (src : Bytes) : (b.overlay pos src).size = b.size := by
  by_cases h : pos < b.size
  · rw [overlay_eq_append src h]
    simp only [ByteArray.size_append, ByteArray.size_extract]
    omega
  · rw [overlay, if_neg h]

theorem byteAt_overlay (b : Bytes) (pos : Nat) (src : Bytes) (i : Nat) :
    (b.overlay pos src).byteAt i =
      if pos ≤ i ∧ i < pos + src.size ∧ i < b.size then src.byteAt (i - pos) else b.byteAt i := by
  by_cases h : pos < b.size
  · rw [overlay_eq_append src h]
    simp only [byteAt_append, byteAt_extract, ByteArray.size_append, ByteArray.size_extract]
    grind [byteAt_of_size_le]
  · rw [overlay, if_neg h, if_neg (by omega)]

theorem extract_overlay {b src : Bytes} {pos : Nat} (h : pos + src.size ≤ b.size) :
    (b.overlay pos src).extract pos (pos + src.size) = src := by
  refine ext_byteAt ?_ fun i hi => ?_
  · rw [ByteArray.size_extract, size_overlay]
    omega
  · rw [ByteArray.size_extract, size_overlay] at hi
    rw [byteAt_extract, if_pos (by omega), byteAt_overlay, if_pos (by omega), Nat.add_sub_cancel_left]

theorem overlay_zero {b src : Bytes} (h : src.size = b.size) : b.overlay 0 src = src := by
  refine ext_byteAt (by rw [size_overlay, h]) fun i hi => ?_
  rw [size_overlay] at hi
  rw [byteAt_overlay, if_pos (by omega), Nat.sub_zero]

theorem extract_zero_overlay {b src : Bytes} (h : src.size ≤ b.size) :
    (b.overlay 0 src).extract 0 src.size = src := by
  have hextract := @extract_overlay b src 0 (by omega)
  rwa [Nat.zero_add] at hextract

/-- A part of a string can be changed by itself. -/
theorem extract_overlay_extract {b src : Bytes} {pos n size : Nat} (hsize : size ≤ n)
    (hfits : pos + n ≤ b.size) :
    (b.overlay pos (src.extract 0 n)).extract pos (pos + size) =
      (overlay (b.extract pos (pos + n)) 0 src).extract 0 size := by
  refine ext_byteAt ?_ fun i hi => ?_
  · simp only [ByteArray.size_extract, size_overlay]
    omega
  · simp only [ByteArray.size_extract, size_overlay] at hi
    simp only [byteAt_extract, byteAt_overlay, ByteArray.size_extract, Nat.zero_add, Nat.sub_zero,
      Nat.add_sub_cancel_left]
    grind

/-! ## Little-endian numbers -/

/-- The number held by the `width` bytes from offset `pos` on, least significant byte first. -/
def readLE (b : Bytes) (pos : Nat) : Nat → Nat
  | 0 => 0
  | width + 1 => (b.byteAt pos).toNat + 256 * readLE b (pos + 1) width

/-- How many numbers can be written in `width` bytes. -/
def valueCount : Nat → Nat
  | 0 => 1
  | width + 1 => 256 * valueCount width

/-- `out` followed by the low `width` bytes of `value`, least significant byte first. -/
def pushLE (out : Bytes) (value : Nat) : Nat → Bytes
  | 0 => out
  | width + 1 => pushLE (out.push value.toUInt8) (value / 256) width

@[simp]
theorem size_pushLE (out : Bytes) (value width : Nat) :
    (pushLE out value width).size = out.size + width := by
  induction width generalizing out value with
  | zero => rfl
  | succ width ih => rw [pushLE, ih, ByteArray.size_push]; omega

theorem byteAt_pushLE_of_lt {out : Bytes} {i : Nat} (h : i < out.size) (value width : Nat) :
    byteAt (pushLE out value width) i = out.byteAt i := by
  induction width generalizing out value with
  | zero => rfl
  | succ width ih =>
    rw [pushLE, ih (by rw [ByteArray.size_push]; omega), byteAt_push, if_neg (by omega)]

theorem readLE_congr {a b : Bytes} {pos pos' width : Nat}
    (h : ∀ i < width, a.byteAt (pos + i) = b.byteAt (pos' + i)) :
    readLE a pos width = readLE b pos' width := by
  induction width generalizing pos pos' with
  | zero => rfl
  | succ width ih =>
    have h0 : a.byteAt pos = b.byteAt pos' := h 0 (by omega)
    have hrest : readLE a (pos + 1) width = readLE b (pos' + 1) width := by
      refine ih fun i hi => ?_
      have := h (i + 1) (by omega)
      rwa [← Nat.add_assoc, ← Nat.add_assoc, Nat.add_right_comm pos, Nat.add_right_comm pos'] at this
    rw [readLE, readLE, h0, hrest]

theorem readLE_append_left {a : Bytes} {pos width : Nat} (h : pos + width ≤ a.size) (b : Bytes) :
    readLE (a ++ b) pos width = readLE a pos width :=
  readLE_congr fun i hi => by rw [byteAt_append, if_pos (by omega)]

theorem readLE_append_right (a b : Bytes) (pos width : Nat) :
    readLE (a ++ b) (a.size + pos) width = readLE b pos width :=
  readLE_congr fun i hi => by
    rw [byteAt_append, if_neg (by omega)]
    congr 1
    omega

theorem readLE_overlay {b src : Bytes} {pos i width : Nat} (hi : i + width ≤ src.size)
    (hfits : pos + src.size ≤ b.size) :
    readLE (b.overlay pos src) (pos + i) width = readLE src i width :=
  readLE_congr fun j hj => by
    rw [byteAt_overlay, if_pos (by omega)]
    congr 1
    omega

theorem readLE_pushLE (out : Bytes) (value width : Nat) :
    readLE (pushLE out value width) out.size width = value % valueCount width := by
  induction width generalizing out value with
  | zero => exact (Nat.mod_one value).symm
  | succ width ih =>
    have h := ih (out.push value.toUInt8) (value / 256)
    rw [ByteArray.size_push] at h
    have hv : value.toUInt8.toNat = value % 256 := UInt8.toNat_ofNat'
    rw [readLE, pushLE, h, byteAt_pushLE_of_lt (by rw [ByteArray.size_push]; omega), byteAt_push,
      if_pos rfl, hv, valueCount, Nat.mod_mul]

theorem readLE_pushLE_of_lt (out : Bytes) {value width : Nat} (h : value < valueCount width) :
    readLE (pushLE out value width) out.size width = value := by
  rw [readLE_pushLE, Nat.mod_eq_of_lt h]

theorem readLE_lt (b : Bytes) (pos width : Nat) : b.readLE pos width < valueCount width := by
  induction width generalizing pos with
  | zero => exact Nat.one_pos
  | succ width ih =>
    have hbyte := (b.byteAt pos).toNat_lt
    have hrest := ih (pos + 1)
    rw [readLE, valueCount]
    omega

/-- A number that was read is written as it stood there. -/
theorem pushLE_readLE {b : Bytes} {pos width : Nat} (h : pos + width ≤ b.size) (out : Bytes) :
    out.pushLE (b.readLE pos width) width = out ++ b.extract pos (pos + width) := by
  induction width generalizing pos out with
  | zero => rw [pushLE, Nat.add_zero, ByteArray.extract_same, ByteArray.append_empty]
  | succ width ih =>
    have hbyte := (b.byteAt pos).toNat_lt
    have hlow : (b.readLE pos (width + 1)).toUInt8 = b.byteAt pos := by
      apply UInt8.toNat_inj.mp
      rw [UInt8.toNat_ofNat', readLE]
      omega
    have hhigh : b.readLE pos (width + 1) / 256 = b.readLE (pos + 1) width := by
      rw [readLE]
      omega
    have hfirst : b.extract pos (pos + 1) = ByteArray.empty.push (b.byteAt pos) := by
      rw [ByteArray.extract_add_one (by omega), byteAt_eq_getElem (by omega)]
      rfl
    rw [pushLE, hlow, hhigh, ih (by omega), push_eq_append, ByteArray.append_assoc, ← hfirst,
      Nat.add_right_comm pos 1 width,
      ← ByteArray.extract_eq_extract_append_extract (pos + 1) (by omega) (by omega)]
    rfl

theorem pushLE_eq_append (out : Bytes) (value width : Nat) :
    pushLE out value width = out ++ pushLE empty value width := by
  induction width generalizing out value with
  | zero => exact ByteArray.append_empty.symm
  | succ width ih =>
    rw [pushLE, pushLE, ih, ih (empty.push _), push_eq_append out, ByteArray.append_assoc]
    rfl

theorem readLE_pushLE_left {out : Bytes} {pos n : Nat} (h : pos + n ≤ out.size) (value width : Nat) :
    readLE (pushLE out value width) pos n = readLE out pos n := by
  rw [pushLE_eq_append, readLE_append_left h]

end Bytes

end Retrace
