import Retrace.Proofs.Checks
import Retrace.Proofs.Snapshots

/-!
# Banks of snapshots

Any number of snapshots are made, written to, swapped and cloned.  What is done shows in their bytes as if these were
all there is, and their tags and sizes travel with them and are never written.

* `Use`, `Kind.run?`: what can be done with some buffers of one kind;
* `snapshots`, `byteStrings`, `labels`: snapshots, their bytes alone, and their tags and sizes alone;
* `Hom.run?`: what shows of each buffer in every use shows of it in a run;
* `hom_bytes`, `hom_label`: the bytes of a snapshot are a byte string, and its tag and size are a label.
-/

namespace Retrace

/-- The snapshot with some of its bytes written, if it has room for all of them. -/
def Snapshot.write? (s : Snapshot) (pos : Nat) (src : Bytes) : Option Snapshot :=
  if pos + src.size ≤ s.size then some (s.write pos src) else none

namespace Bank

/-! ### Banks -/

/-- What can be written to a buffer. -/
inductive Edit where
  /-- Some bytes, from an offset on. -/
  | write (pos : Nat) (src : Bytes)
  /-- A value, everywhere. -/
  | fill (v : UInt8)
  /-- As many bytes as there are. -/
  | copyFrom (src : Bytes)
  /-- What a patch makes of the bytes. -/
  | patch (p : Bytes)
  /-- Zero, in the padding too. -/
  | zero

/-- What can be done with some buffers, which are numbered from zero. -/
inductive Use where
  | create (size : Nat) (tag : UInt16)
  | edit (i : Nat) (e : Edit)
  | swap (i j : Nat)
  | clone (i : Nat)

/-- What a buffer may be: how it is made, and what is written to it, if it can be. -/
structure Kind (α : Type) where
  create : Nat → UInt16 → Option α
  edit : Edit → α → Option α

section Banks

variable {α β : Type}

/-- The buffers after one use of them.  One that is made or cloned comes last. -/
def Kind.exec? (k : Kind α) (bank : List α) : Use → Option (List α)
  | .create size tag => (k.create size tag).map fun a => bank ++ [a]
  | .edit i e => do
    let a ← bank[i]?
    let a ← k.edit e a
    return bank.set i a
  | .swap i j => do
    let a ← bank[i]?
    let b ← bank[j]?
    return (bank.set i b).set j a
  | .clone i => do
    let a ← bank[i]?
    return bank ++ [a]

/-- The buffers after some uses of them. -/
def Kind.run? (k : Kind α) (bank : List α) (uses : List Use) : Option (List α) := uses.foldlM k.exec? bank

/-- What `f` shows of a buffer is made and written to as the buffer is. -/
structure Hom (k : Kind α) (l : Kind β) (f : α → β) : Prop where
  create : ∀ size tag, (k.create size tag).map f = l.create size tag
  edit : ∀ e a, (k.edit e a).map f = l.edit e (f a)

variable {k : Kind α} {l : Kind β} {f : α → β}

theorem Hom.exec? (hf : Hom k l f) (bank : List α) (u : Use) :
    (k.exec? bank u).map (List.map f) = l.exec? (bank.map f) u := by
  cases u with
  | create size tag =>
    rw [Kind.exec?, Kind.exec?, ← hf.create]
    cases k.create size tag <;> simp
  | edit i e =>
    simp only [Kind.exec?, List.getElem?_map, Option.bind_eq_bind, Option.pure_def]
    cases bank[i]? with
    | none => rfl
    | some a =>
      simp only [Option.map_some, Option.bind_some, ← hf.edit]
      cases k.edit e a <;> simp [List.map_set]
  | swap i j =>
    simp only [Kind.exec?, List.getElem?_map, Option.bind_eq_bind, Option.pure_def]
    cases bank[i]? <;> cases bank[j]? <;> simp [List.map_set]
  | clone i =>
    simp only [Kind.exec?, List.getElem?_map, Option.bind_eq_bind, Option.pure_def]
    cases bank[i]? <;> simp

theorem Hom.run? (hf : Hom k l f) (bank : List α) (uses : List Use) :
    (k.run? bank uses).map (List.map f) = l.run? (bank.map f) uses := by
  induction uses generalizing bank with
  | nil => rfl
  | cons u uses ih =>
    have hstep := hf.exec? bank u
    simp only [Kind.run?, List.foldlM_cons, Option.bind_eq_bind] at ih ⊢
    rw [← hstep]
    cases k.exec? bank u with
    | none => rfl
    | some bank => exact ih bank

end Banks

/-! ### Snapshots, byte strings and labels -/

/-- The size and the tag of a buffer. -/
structure Label where
  size : Nat
  tag : UInt16
  deriving DecidableEq, Repr

/-- The label of a snapshot. -/
def label (s : Snapshot) : Label := ⟨s.size, s.tag⟩

/-- Snapshots, which are made if there is memory for them. -/
def snapshots : Kind Snapshot where
  create size tag := (Snapshot.create size tag).toOption
  edit
    | .write pos src, s => s.write? pos src
    | .fill v, s => some (s.fill v)
    | .copyFrom src, s => s.setBytes? src
    | .patch p, s => some (s.apply p)
    | .zero, s => some s.erase

/-- Byte strings, which know nothing of a tag. -/
def byteStrings : Kind Bytes where
  create size _ := if maxAllocation < Snapshot.storedSize size then none else some (Bytes.zeros size)
  edit
    | .write pos src, b => b.overlay? pos src
    | .fill v, b => some (Bytes.replicate b.size v)
    | .copyFrom src, b => if src.size = b.size then some src else none
    | .patch p, b => some (Patch.apply p b)
    | .zero, b => some (Bytes.zeros b.size)

/-- Labels, which are left as they are by all that is written. -/
def labels : Kind Label where
  create size tag := if maxAllocation < Snapshot.storedSize size then none else some ⟨size, tag⟩
  edit
    | .write pos src, l => if pos + src.size ≤ l.size then some l else none
    | .copyFrom src, l => if src.size = l.size then some l else none
    | .fill _, l | .patch _, l | .zero, l => some l

/-- What all new snapshots of a size and a tag show, wherever there is memory for one. -/
theorem create_map {α : Type} {f : Snapshot → α} {size : Nat} {tag : UInt16} {a : α}
    (h : ∀ s, Snapshot.create size tag = .ok s → f s = a) :
    (snapshots.create size tag).map f = if maxAllocation < Snapshot.storedSize size then none else some a := by
  by_cases hlarge : maxAllocation < Snapshot.storedSize size
  · have hmade : Snapshot.create size tag = .error (.allocationFailed size) := if_pos hlarge
    simp only [snapshots, hmade, if_pos hlarge]
    rfl
  · obtain ⟨s, hmade⟩ : ∃ s, Snapshot.create size tag = .ok s := ⟨_, if_neg hlarge⟩
    simp only [snapshots, hmade, if_neg hlarge]
    exact congrArg some (h s hmade)

theorem label_write (s : Snapshot) (pos : Nat) (src : Bytes) : label (s.write pos src) = label s :=
  congrArg (Label.mk s.size) (s.tag_write pos src)

theorem label_erase (s : Snapshot) : label s.erase = label s := congrArg (Label.mk s.size) s.tag_erase

/-- **What a snapshot shows of its bytes is a byte string.** -/
theorem hom_bytes : Hom snapshots byteStrings Snapshot.bytes where
  create size tag := create_map fun s hs => Snapshot.bytes_create hs
  edit e s := by
    cases e with
    | write pos src =>
      simp only [snapshots, byteStrings, Snapshot.write?, Bytes.overlay?, Snapshot.size_bytes]
      split
      · exact congrArg some (s.bytes_write pos src)
      · rfl
    | fill v =>
      simp only [snapshots, byteStrings, Snapshot.size_bytes]
      exact congrArg some (s.bytes_setBytes (Bytes.size_replicate s.size v))
    | copyFrom src =>
      simp only [snapshots, byteStrings, Snapshot.setBytes?, Snapshot.size_bytes]
      split
      · next hsize => exact congrArg some (s.bytes_setBytes hsize)
      · rfl
    | patch p => exact congrArg some (s.bytes_apply p)
    | zero =>
      simp only [snapshots, byteStrings, Snapshot.size_bytes]
      exact congrArg some s.bytes_erase

/-- **The label of a snapshot is left as it is.** -/
theorem hom_label : Hom snapshots labels label where
  create size tag := create_map fun s hs => by rw [label, Snapshot.size_create hs, Snapshot.tag_create hs]
  edit e s := by
    cases e with
    | write pos src =>
      simp only [snapshots, labels, Snapshot.write?, label]
      split
      · exact congrArg some (label_write s pos src)
      · rfl
    | fill v => exact congrArg some (label_write s 0 _)
    | copyFrom src =>
      simp only [snapshots, labels, Snapshot.setBytes?, label]
      split
      · exact congrArg some (label_write s 0 _)
      · rfl
    | patch p => exact congrArg some (label_write s 0 _)
    | zero => exact congrArg some (label_erase s)

end Bank

end Retrace
