import Mathlib.Data.List.Nodup
import Retrace.Registry.Table

/-!
# What a handle reaches

A handle reaches the value that was put in under it until that value is taken out, and no other handle reaches
it.  A slot is used again at a later generation only.  Slots and generations are counted in 32 bits, so this
is so as long as fewer than `maxIssued` handles are given out.

* `Accounts`: what the slots of a table say about the handles that were given out;
* `Accounts.replace`: one slot may come to a later generation, or take a value at its own;
* `get?_insert`, `get?_update`, `get?_remove`: what the handles reach after an operation;
* `Accounts.fresh`: no handle is given out twice.
-/

namespace Retrace

namespace Table

/-- The number of indices, and of generations of a slot: 2^32. -/
def maxIssued : Nat := 4294967296

variable {α : Type} {t u : Table α} {h k : Handle} {value : α} {content : Option α} {issued : List Handle}

/-! ### Slots and values -/

theorem get?_of_slot {s : Slot α} (hs : t.slots[k.index.toNat]? = some s) :
    t.get? k = if s.generation = k.generation then s.value else none := by
  rw [get?, slot?, hs, Option.filter_some]
  by_cases hgeneration : s.generation = k.generation
  · rw [if_pos (beq_iff_eq.mpr hgeneration), if_pos hgeneration]
    rfl
  · rw [if_neg (fun hbeq => hgeneration (beq_iff_eq.mp hbeq)), if_neg hgeneration]
    rfl

theorem get?_of_no_slot (hs : t.slots[k.index.toNat]? = none) : t.get? k = none := by
  rw [get?, slot?, hs]
  rfl

theorem get?_eq_some_iff :
    t.get? k = some value ↔ t.slots[k.index.toNat]? = some ⟨k.generation, some value⟩ := by
  cases hs : t.slots[k.index.toNat]? with
  | none => simp [get?_of_no_slot hs]
  | some s =>
    obtain ⟨generation, content⟩ := s
    rw [get?_of_slot hs]
    by_cases hgeneration : generation = k.generation <;> simp [hgeneration]

/-- Where two tables have the same slot, a handle of it reaches the same in both. -/
theorem get?_congr (hs : u.slots[k.index.toNat]? = t.slots[k.index.toNat]?) : u.get? k = t.get? k := by
  rw [get?, slot?, hs]
  rfl

theorem getElem?_setSlot {index : UInt32} {old s : Slot α} (hold : t.slots[index.toNat]? = some old) (i : Nat) :
    (t.setSlot index s).slots[i]? = if i = index.toNat then some s else t.slots[i]? := by
  have hin : index.toNat < t.slots.size := (Array.getElem?_eq_some_iff.mp hold).1
  rw [setSlot, Array.getElem?_setIfInBounds]
  by_cases hi : i = index.toNat
  · rw [if_pos hi.symm, if_pos (by omega), if_pos hi]
  · rw [if_neg (Ne.symm hi), if_neg hi]

/-! ### The handles that were given out -/

/-- **A table and the handles that were given out of it.**  There are no more slots than handles, and no later
generations.  The vacant indices are those of the empty slots.  A handle was given out at an earlier generation
of its slot, or it reaches a value; and all that reach one were given out. -/
structure Accounts (t : Table α) (issued : List Handle) : Prop where
  size_le : t.slots.size ≤ issued.length
  generation_le : ∀ {i : Nat} {s : Slot α}, t.slots[i]? = some s →
    s.generation.toNat + s.value.isSome.toNat ≤ issued.length
  nodup : t.vacant.Nodup
  mem_vacant : ∀ {index : UInt32},
    index ∈ t.vacant ↔ ∃ generation, t.slots[index.toNat]? = some ⟨generation, none⟩
  used : ∀ {h : Handle}, h ∈ issued →
    t.get? h ≠ none ∨ ∃ s, t.slots[h.index.toNat]? = some s ∧ h.generation < s.generation
  mem_of_get? : ∀ {h : Handle}, t.get? h ≠ none → h ∈ issued

theorem accounts_empty : Accounts (empty : Table α) [] where
  size_le := Nat.le_refl _
  generation_le hs := by simp [empty] at hs
  nodup := List.nodup_nil
  mem_vacant := by simp [empty]
  used hmem := by cases hmem
  mem_of_get? hget := absurd (get?_of_no_slot (by simp [empty])) hget

/-- A handle that was given out is of no later generation than its slot. -/
theorem Accounts.slot (ha : Accounts t issued) (hmem : h ∈ issued) :
    ∃ s, t.slots[h.index.toNat]? = some s ∧ h.generation ≤ s.generation := by
  rcases ha.used hmem with hget | ⟨s, hs, hlt⟩
  · obtain ⟨value, hvalue⟩ := Option.ne_none_iff_exists'.mp hget
    exact ⟨_, get?_eq_some_iff.mp hvalue, UInt32.le_refl _⟩
  · exact ⟨s, hs, UInt32.le_of_lt hlt⟩

/-! ### One slot -/

/-- **Two tables with one slot between them.**  What it holds in the second one is under a handle: it has come
to a later generation, or it is of the same one and holds a value.  It is vacant if it holds nothing. -/
structure Replaced (t u : Table α) (h : Handle) (content : Option α) : Prop where
  slots_eq : ∀ i : Nat,
    u.slots[i]? = if i = h.index.toNat then some ⟨h.generation, content⟩ else t.slots[i]?
  later : ∀ {s : Slot α}, t.slots[h.index.toNat]? = some s →
    s.generation < h.generation ∨ s.generation = h.generation ∧ content ≠ none
  nodup : u.vacant.Nodup
  mem_vacant : ∀ {index : UInt32},
    index ∈ u.vacant ↔ if index = h.index then content = none else index ∈ t.vacant

section Replaced

variable (hr : Replaced t u h content)
include hr

theorem Replaced.slot_eq (hindex : k.index = h.index) :
    u.slots[k.index.toNat]? = some ⟨h.generation, content⟩ := by
  rw [hr.slots_eq, if_pos (congrArg UInt32.toNat hindex)]

theorem Replaced.slots_eq_of_ne {index : UInt32} (hindex : index ≠ h.index) :
    u.slots[index.toNat]? = t.slots[index.toNat]? := by
  rw [hr.slots_eq, if_neg fun hsame => hindex (UInt32.toNat_inj.mp hsame)]

theorem Replaced.get?_of_index (hindex : k.index = h.index) : u.get? k = if k = h then content else none := by
  rw [get?_of_slot (hr.slot_eq hindex)]
  by_cases hsame : k = h
  · rw [if_pos (congrArg Handle.generation hsame).symm, if_pos hsame]
  · rw [if_neg fun hgeneration => hsame (Handle.ext hindex hgeneration.symm), if_neg hsame]

theorem Replaced.get?_of_ne (hindex : k.index ≠ h.index) : u.get? k = t.get? k :=
  get?_congr (hr.slots_eq_of_ne hindex)

/-- Where no other handle of the slot reached anything, the handles reach what they did, but for the one. -/
theorem Replaced.get?_eq (hothers : ∀ k : Handle, k.index = h.index → k ≠ h → t.get? k = none) (k : Handle) :
    u.get? k = if k = h then content else t.get? k := by
  by_cases hindex : k.index = h.index
  · rw [hr.get?_of_index hindex]
    split
    · rfl
    · next hother => exact (hothers k hindex hother).symm
  · rw [hr.get?_of_ne hindex, if_neg fun hsame => hindex (congrArg Handle.index hsame)]

/-- **The accounts of a table with one slot replaced.**  If the slot holds a value, its handle is one of those
given out. -/
theorem Accounts.replace (ha : Accounts t issued) {after : List Handle}
    (hafter : ∀ k, k ∈ after ↔ k ∈ issued ∨ content ≠ none ∧ k = h) (hlength : issued.length ≤ after.length)
    (hsize : u.slots.size ≤ after.length)
    (hgeneration : h.generation.toNat + content.isSome.toNat ≤ after.length) :
    Accounts u after := by
  refine ⟨hsize, fun {i s} hs => ?_, hr.nodup, fun {index} => ?_, fun {k} hmem => ?_, fun {k} hreach => ?_⟩
  · rw [hr.slots_eq] at hs
    split at hs
    · obtain rfl := Option.some.inj hs
      exact hgeneration
    · exact Nat.le_trans (ha.generation_le hs) hlength
  · rw [hr.mem_vacant]
    by_cases hindex : index = h.index
    · rw [if_pos hindex, hindex, hr.slot_eq rfl]
      constructor
      · rintro rfl
        exact ⟨_, rfl⟩
      · rintro ⟨generation, hslot⟩
        exact congrArg Slot.value (Option.some.inj hslot)
    · rw [if_neg hindex, hr.slots_eq_of_ne hindex, ha.mem_vacant]
  · rcases (hafter k).mp hmem with hold | ⟨hcontent, rfl⟩
    · by_cases hindex : k.index = h.index
      · -- the slot of `k` is the one replaced: it is past `k`, or it still holds the value of `k`
        obtain ⟨s, hs, hle⟩ := ha.slot hold
        rw [hindex] at hs
        rcases hr.later hs with hlt | ⟨heq, hcontent⟩
        · exact Or.inr ⟨_, hr.slot_eq hindex, UInt32.lt_of_le_of_lt hle hlt⟩
        · rw [heq] at hle
          rcases UInt32.lt_or_eq_of_le hle with hlt | hgeneration
          · exact Or.inr ⟨_, hr.slot_eq hindex, hlt⟩
          · obtain rfl := Handle.ext hindex hgeneration
            refine Or.inl ?_
            rw [hr.get?_of_index rfl, if_pos rfl]
            exact hcontent
      · rw [hr.get?_of_ne hindex, hr.slots_eq_of_ne hindex]
        exact ha.used hold
    · left
      rw [hr.get?_of_index rfl, if_pos rfl]
      exact hcontent
  · refine (hafter k).mpr ?_
    by_cases hindex : k.index = h.index
    · rw [hr.get?_of_index hindex] at hreach
      split at hreach
      · next hsame => exact Or.inr ⟨hreach, hsame⟩
      · contradiction
    · rw [hr.get?_of_ne hindex] at hreach
      exact Or.inl (ha.mem_of_get? hreach)

end Replaced

/-! ### Putting in -/

/-- The table with one more value, and its handle, if a slot that is used again exists. -/
def insert? (t : Table α) (value : α) : Option (Table α × Handle) :=
  match t.vacant with
  | [] => some (t.insert value)
  | index :: _ => t.slots[index.toNat]?.map fun _ => t.insert value

section Insert

variable (ha : Accounts t issued) (hfew : issued.length < maxIssued) (value : α)
include ha

/-- A value is put into the slot that was emptied last, or into a new one. -/
theorem Accounts.insert_cases :
    (∃ index vacant generation, t.vacant = index :: vacant ∧
        t.slots[index.toNat]? = some ⟨generation, none⟩ ∧
        t.insert value =
          ({ t with vacant }.setSlot index ⟨generation, some value⟩, ⟨index, generation⟩)) ∨
      t.vacant = [] ∧
        t.insert value =
          ({ t with slots := t.slots.push ⟨0, some value⟩ }, ⟨t.slots.size.toUInt32, 0⟩) := by
  unfold insert
  cases hvacant : t.vacant with
  | nil => exact Or.inr ⟨rfl, rfl⟩
  | cons index vacant =>
    obtain ⟨generation, hs⟩ := ha.mem_vacant.mp (hvacant ▸ List.mem_cons_self : index ∈ t.vacant)
    refine Or.inl ⟨index, vacant, generation, rfl, hs, ?_⟩
    dsimp only
    rw [hs]
    rfl

theorem Accounts.vacant_insert : (t.insert value).1.vacant = t.vacant.tail := by
  rcases ha.insert_cases value with ⟨index, vacant, generation, hvacant, -, heq⟩ | ⟨hvacant, heq⟩
  · rw [heq, hvacant]
    rfl
  · rw [heq, hvacant]
    rfl

theorem Accounts.mem_tail_vacant {index : UInt32} :
    index ∈ t.vacant.tail ↔ index ∈ t.vacant ∧ index ≠ (t.insert value).2.index := by
  have hnodup := ha.nodup
  rcases ha.insert_cases value with ⟨first, vacant, generation, hvacant, -, heq⟩ | ⟨hvacant, heq⟩
  · rw [hvacant] at hnodup ⊢
    obtain ⟨hfirst, -⟩ := List.nodup_cons.mp hnodup
    rw [heq, List.tail_cons, List.mem_cons]
    constructor
    · intro hmem
      refine ⟨Or.inr hmem, ?_⟩
      rintro rfl
      exact hfirst hmem
    · rintro ⟨hsame | hmem, hother⟩
      · exact absurd hsame hother
      · exact hmem
  · simp [hvacant]

theorem Accounts.generation_of_insert : (t.insert value).2.generation.toNat ≤ issued.length := by
  rcases ha.insert_cases value with ⟨index, vacant, generation, -, hs, heq⟩ | ⟨-, heq⟩
  · rw [heq]
    exact ha.generation_le hs
  · rw [heq]
    exact Nat.zero_le _

theorem Accounts.size_insert : (t.insert value).1.slots.size ≤ issued.length + 1 := by
  have hsize := ha.size_le
  rcases ha.insert_cases value with ⟨index, vacant, generation, -, -, heq⟩ | ⟨-, heq⟩
  · rw [heq, setSlot, Array.size_setIfInBounds]
    exact Nat.le_succ_of_le hsize
  · rw [heq, Array.size_push]
    exact Nat.succ_le_succ hsize

include hfew

theorem Accounts.toNat_size : t.slots.size.toUInt32.toNat = t.slots.size := by
  have hsize := ha.size_le
  have hmax : maxIssued = 4294967296 := rfl
  exact UInt32.toNat_ofNat_of_lt' (show t.slots.size < 4294967296 by omega)

theorem Accounts.getElem?_insert (i : Nat) :
    (t.insert value).1.slots[i]? =
      if i = (t.insert value).2.index.toNat then some ⟨(t.insert value).2.generation, some value⟩
      else t.slots[i]? := by
  rcases ha.insert_cases value with ⟨index, vacant, generation, -, hs, heq⟩ | ⟨-, heq⟩
  · rw [heq]
    exact getElem?_setSlot hs i
  · rw [heq, Array.getElem?_push]
    dsimp only
    rw [ha.toNat_size hfew]

/-- The slot that a value is put into was empty, if there was one, and the handle is of its generation. -/
theorem Accounts.slot_of_insert {s : Slot α}
    (hs : t.slots[(t.insert value).2.index.toNat]? = some s) :
    s = ⟨(t.insert value).2.generation, none⟩ := by
  rcases ha.insert_cases value with ⟨index, vacant, generation, -, hold, heq⟩ | ⟨-, heq⟩
  · rw [heq] at hs ⊢
    exact Option.some.inj (hs.symm.trans hold)
  · rw [heq] at hs
    dsimp only at hs
    rw [ha.toNat_size hfew, Array.getElem?_eq_none (Nat.le_refl _)] at hs
    contradiction

theorem Accounts.get?_of_insert (hk : k.index = (t.insert value).2.index) : t.get? k = none := by
  cases hs : t.slots[k.index.toNat]? with
  | none => exact get?_of_no_slot hs
  | some s =>
    rw [hk] at hs
    rw [get?_of_slot (hk ▸ hs), ha.slot_of_insert hfew value hs, ite_self]

theorem Accounts.replaced_insert : Replaced t (t.insert value).1 (t.insert value).2 (some value) where
  slots_eq := ha.getElem?_insert hfew value
  later hs := by
    rw [ha.slot_of_insert hfew value hs]
    exact Or.inr ⟨rfl, Option.some_ne_none _⟩
  nodup := by
    rw [ha.vacant_insert]
    exact ha.nodup.tail
  mem_vacant := by
    intro index
    rw [ha.vacant_insert, ha.mem_tail_vacant value]
    by_cases hindex : index = (t.insert value).2.index
    · simp [hindex]
    · simp [hindex]

/-- The new handle reaches the value that was put in, and the others reach what they did. -/
theorem Accounts.get?_insert (k : Handle) :
    (t.insert value).1.get? k = if k = (t.insert value).2 then some value else t.get? k :=
  (ha.replaced_insert hfew value).get?_eq (fun _ hindex _ => ha.get?_of_insert hfew value hindex) k

/-- No handle is given out twice. -/
theorem Accounts.fresh : (t.insert value).2 ∉ issued := by
  intro hmem
  rcases ha.used hmem with hget | ⟨s, hs, hlt⟩
  · exact hget (ha.get?_of_insert hfew value rfl)
  · rw [ha.slot_of_insert hfew value hs] at hlt
    exact absurd hlt (UInt32.lt_irrefl _)

theorem Accounts.insert : Accounts (t.insert value).1 (issued ++ [(t.insert value).2]) := by
  have hlength : (issued ++ [(t.insert value).2]).length = issued.length + 1 := List.length_append
  refine ha.replace (ha.replaced_insert hfew value) ?_ ?_ ?_ ?_
  · intro k
    rw [List.mem_append, List.mem_singleton, and_iff_right (Option.some_ne_none _)]
  · rw [hlength]
    exact Nat.le_succ _
  · rw [hlength]
    exact ha.size_insert value
  · rw [hlength]
    exact Nat.succ_le_succ (ha.generation_of_insert value)

end Insert

/-! ### Changing and taking out -/

section Held

variable (hheld : t.get? h = some value)
include hheld

theorem update_eq (other : α) : t.update h other = t.setSlot h.index ⟨h.generation, some other⟩ := by
  rw [update, hheld]

theorem remove_eq :
    t.remove h =
      ({ t with vacant := if h.generation + 1 = 0 then t.vacant else h.index :: t.vacant }.setSlot h.index
        ⟨h.generation + 1, none⟩, some value) := by
  rw [remove, hheld]

/-- Of the handles of a slot, only the one that reaches its value reaches anything. -/
theorem get?_of_index (hindex : k.index = h.index) (hother : k ≠ h) : t.get? k = none := by
  have hs := get?_eq_some_iff.mp hheld
  rw [← hindex] at hs
  rw [get?_of_slot hs, if_neg]
  exact fun hgeneration => hother (Handle.ext hindex hgeneration.symm)

theorem Accounts.generation_lt (ha : Accounts t issued) : h.generation.toNat < issued.length :=
  ha.generation_le (get?_eq_some_iff.mp hheld)

theorem Accounts.index_notMem (ha : Accounts t issued) : h.index ∉ t.vacant := by
  intro hmem
  obtain ⟨generation, hs⟩ := ha.mem_vacant.mp hmem
  have hsame := Option.some.inj (hs.symm.trans (get?_eq_some_iff.mp hheld))
  cases congrArg Slot.value hsame

theorem Accounts.mem_issued (ha : Accounts t issued) : h ∈ issued := by
  refine ha.mem_of_get? ?_
  rw [hheld]
  exact Option.some_ne_none _

theorem Accounts.replaced_update (ha : Accounts t issued) (other : α) :
    Replaced t (t.update h other) h (some other) := by
  have hslot := get?_eq_some_iff.mp hheld
  rw [update_eq hheld]
  refine ⟨getElem?_setSlot hslot, fun hs => Or.inr ⟨?_, Option.some_ne_none _⟩, ha.nodup, fun {index} => ?_⟩
  · exact congrArg Slot.generation (Option.some.inj (hs.symm.trans hslot))
  · show index ∈ t.vacant ↔ _
    by_cases hindex : index = h.index
    · simp [hindex, ha.index_notMem hheld]
    · simp [hindex]

/-- The handle reaches the other value, and the others reach what they did. -/
theorem Accounts.get?_update (ha : Accounts t issued) (other : α) (k : Handle) :
    (t.update h other).get? k = if k = h then some other else t.get? k :=
  (ha.replaced_update hheld other).get?_eq (fun _ => get?_of_index hheld) k

theorem Accounts.update (ha : Accounts t issued) (other : α) : Accounts (t.update h other) issued := by
  refine ha.replace (ha.replaced_update hheld other) ?_ (Nat.le_refl _) ?_ (ha.generation_lt hheld)
  · intro k
    rw [iff_self_or]
    rintro ⟨-, rfl⟩
    exact ha.mem_issued hheld
  · rw [update_eq hheld, setSlot, Array.size_setIfInBounds]
    exact ha.size_le

variable (ha : Accounts t issued) (hfew : issued.length < maxIssued)
include ha hfew

/-- Before the generations are used up, the next one is later. -/
theorem Accounts.toNat_generation : (h.generation + 1).toNat = h.generation.toNat + 1 := by
  have hlt := ha.generation_lt hheld
  have hmax : maxIssued = 4294967296 := rfl
  rw [UInt32.toNat_add]
  exact Nat.mod_eq_of_lt (show h.generation.toNat + 1 < 4294967296 by omega)

theorem Accounts.vacant_remove : (t.remove h).1.vacant = h.index :: t.vacant := by
  have hnext := ha.toNat_generation hheld hfew
  have hpos : h.generation + 1 ≠ 0 := by
    intro hzero
    rw [hzero] at hnext
    contradiction
  rw [remove_eq hheld, if_neg hpos]
  rfl

theorem Accounts.replaced_remove : Replaced t (t.remove h).1 ⟨h.index, h.generation + 1⟩ none := by
  have hslot := get?_eq_some_iff.mp hheld
  have hvacant := ha.vacant_remove hheld hfew
  refine ⟨?_, fun hs => Or.inl ?_, ?_, fun {index} => ?_⟩
  · rw [remove_eq hheld]
    exact getElem?_setSlot hslot
  · obtain rfl := Option.some.inj (hs.symm.trans hslot)
    rw [UInt32.lt_iff_toNat_lt, ha.toNat_generation hheld hfew]
    exact Nat.lt_succ_self _
  · rw [hvacant]
    exact List.nodup_cons.mpr ⟨ha.index_notMem hheld, ha.nodup⟩
  · rw [hvacant, List.mem_cons]
    by_cases hindex : index = h.index
    · simp [hindex]
    · simp [hindex]

/-- The handle reaches nothing any more, and the others reach what they did. -/
theorem Accounts.get?_remove (k : Handle) :
    (t.remove h).1.get? k = if k = h then none else t.get? k := by
  have hr := ha.replaced_remove hheld hfew
  by_cases hindex : k.index = h.index
  · rw [hr.get?_of_index hindex, ite_self]
    split
    · rfl
    · next hother => exact (get?_of_index hheld hindex hother).symm
  · rw [hr.get?_of_ne hindex, if_neg fun hsame => hindex (congrArg Handle.index hsame)]

theorem Accounts.remove : Accounts (t.remove h).1 issued := by
  refine ha.replace (ha.replaced_remove hheld hfew) ?_ (Nat.le_refl _) ?_ ?_
  · intro k
    rw [iff_self_or]
    rintro ⟨hnone, -⟩
    exact absurd rfl hnone
  · rw [remove_eq hheld, setSlot, Array.size_setIfInBounds]
    exact ha.size_le
  · show (h.generation + 1).toNat + 0 ≤ issued.length
    rw [ha.toNat_generation hheld hfew]
    exact ha.generation_lt hheld

end Held

end Table

end Retrace
