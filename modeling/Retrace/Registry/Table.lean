/-!
# Tables with handles

Values are kept in slots and reached by handles.  A handle names a slot and the slot's generation.
Taking a value out raises the generation, so a handle that was used up does not reach the value that
the slot holds next.

* `Handle.ofWord_toWord`, `Handle.toWord_ofWord`: a handle is one 64-bit word;
* `Table.insert`, `Table.get?`, `Table.remove`: a freed slot is used again, the last one freed
  first.
-/

namespace Retrace

/-- A slot of a table, and one of the slot's generations. -/
@[ext]
structure Handle where
  index : UInt32
  generation : UInt32
  deriving DecidableEq, Repr

namespace Handle

/-- A handle as one word, the slot in its high half. -/
def toWord (h : Handle) : UInt64 := (h.index.toUInt64 <<< 32) ||| h.generation.toUInt64

/-- The handle that a word stands for. -/
def ofWord (word : UInt64) : Handle := ⟨(word >>> 32).toUInt32, word.toUInt32⟩

theorem toNat_toWord (h : Handle) :
    h.toWord.toNat = h.index.toNat * 4294967296 + h.generation.toNat := by
  have hi := h.index.toNat_lt
  have hg := h.generation.toNat_lt
  have e : h.toWord.toNat = (h.index.toNat * 4294967296) ||| h.generation.toNat := by
    simp only [toWord, UInt64.toNat_or, UInt64.toNat_shiftLeft, UInt32.toNat_toUInt64,
      UInt64.reduceToNat, Nat.reduceMod, Nat.shiftLeft_eq]
    rw [Nat.mod_eq_of_lt (by omega)]
  rw [e, ← Nat.shiftLeft_eq _ 32, ← Nat.shiftLeft_add_eq_or_of_lt hg]

theorem toNat_index_ofWord (word : UInt64) :
    (ofWord word).index.toNat = word.toNat / 4294967296 := by
  have hw := word.toNat_lt
  simp only [ofWord, UInt64.toNat_toUInt32, UInt64.toNat_shiftRight, UInt64.reduceToNat,
    Nat.reduceMod, Nat.shiftRight_eq_div_pow]
  omega

theorem toNat_generation_ofWord (word : UInt64) :
    (ofWord word).generation.toNat = word.toNat % 4294967296 := by
  simp only [ofWord, UInt64.toNat_toUInt32]

theorem toWord_ofWord (word : UInt64) : (ofWord word).toWord = word := by
  apply UInt64.toNat_inj.mp
  rw [toNat_toWord, toNat_index_ofWord, toNat_generation_ofWord]
  omega

theorem ofWord_toWord (h : Handle) : ofWord h.toWord = h := by
  have hi := h.index.toNat_lt
  have hg := h.generation.toNat_lt
  refine Handle.ext ?_ ?_
  · apply UInt32.toNat_inj.mp
    rw [toNat_index_ofWord, toNat_toWord]
    omega
  · apply UInt32.toNat_inj.mp
    rw [toNat_generation_ofWord, toNat_toWord]
    omega

end Handle

/-- A place for a value, and how often a value was taken out of it. -/
structure Slot (α : Type) where
  generation : UInt32
  value : Option α

/-- Slots, and the indices of the empty ones, the last one freed first. -/
structure Table (α : Type) where
  slots : Array (Slot α)
  vacant : List UInt32

namespace Table

variable {α : Type}

/-- The table without slots. -/
def empty : Table α := ⟨#[], []⟩

/-- The slot that a handle names, if it is at the handle's generation. -/
def slot? (t : Table α) (h : Handle) : Option (Slot α) :=
  (t.slots[h.index.toNat]?).filter fun s => s.generation == h.generation

/-- The value under a handle. -/
def get? (t : Table α) (h : Handle) : Option α := (t.slot? h).bind (·.value)

/-- The table with this slot at an index that it has. -/
def setSlot (t : Table α) (index : UInt32) (s : Slot α) : Table α :=
  { t with slots := t.slots.setIfInBounds index.toNat s }

/-- The table with one more value, and its handle. -/
def insert (t : Table α) (value : α) : Table α × Handle :=
  match t.vacant with
  | index :: vacant =>
    let generation := (t.slots[index.toNat]?.map (·.generation)).getD 0
    ({ t with vacant }.setSlot index ⟨generation, some value⟩, ⟨index, generation⟩)
  | [] => ({ t with slots := t.slots.push ⟨0, some value⟩ }, ⟨t.slots.size.toUInt32, 0⟩)

/-- The table with another value under a handle that has one. -/
def update (t : Table α) (h : Handle) (value : α) : Table α :=
  match t.get? h with
  | none => t
  | some _ => t.setSlot h.index ⟨h.generation, some value⟩

/-- The table without the value under a handle, and that value.  A slot whose generations are used
up is not used again. -/
def remove (t : Table α) (h : Handle) : Table α × Option α :=
  match t.get? h with
  | none => (t, none)
  | some value =>
    let generation := h.generation + 1
    let vacant := if generation = 0 then t.vacant else h.index :: t.vacant
    ({ t with vacant }.setSlot h.index ⟨generation, none⟩, some value)

end Table

end Retrace
