import Mathlib.Data.List.Nodup
import Retrace.Proofs.Registry.Table

/-!
# What the words of handles reach

Handles are given out as 64-bit words, and any word can come back: one that was given out, one whose value was
taken out, or one that a caller made up, which may even name an empty slot at its generation.

* `Under`: a value was put in under a word and not taken out since;
* `Tells`: a table reaches just these values, by words that are all different;
* `exec_tells`: one operation keeps this, whatever its word;
* `run_reaches`: so it is after any operations that put in fewer than 2^32 values.
-/

namespace Retrace

/-! ### Words and handles -/

theorem Handle.ofWord_eq_iff {word : UInt64} {handle : Handle} :
    Handle.ofWord word = handle ↔ word = handle.toWord := by
  constructor
  · rintro rfl
    exact (Handle.toWord_ofWord word).symm
  · rintro rfl
    exact Handle.ofWord_toWord handle

theorem Handle.ofWord_inj {word other : UInt64} : Handle.ofWord other = Handle.ofWord word ↔ other = word := by
  rw [ofWord_eq_iff, toWord_ofWord]

namespace Table

variable {α : Type}

/-! ### Operations on words -/

/-- What can be asked of a table. -/
inductive Op (α : Type) where
  | insert (value : α)
  | get (word : UInt64)
  | remove (word : UInt64)

/-- What a table answers. -/
inductive Answer (α : Type) where
  | given (word : UInt64)
  | found (value : Option α)

/-- What was asked of a table, and its answers. -/
abbrev Log (α : Type) := List (Op α × Answer α)

/-- The table after one operation, and its answer. -/
def exec (t : Table α) : Op α → Table α × Answer α
  | .insert value => ((t.insert value).1, .given (t.insert value).2.toWord)
  | .get word => (t, .found (t.get? (.ofWord word)))
  | .remove word => ((t.remove (.ofWord word)).1, .found (t.remove (.ofWord word)).2)

/-- A table and its log after some operations. -/
def run (s : Table α × Log α) (ops : List (Op α)) : Table α × Log α :=
  ops.foldl (fun s op => ((s.1.exec op).1, s.2 ++ [(op, (s.1.exec op).2)])) s

/-- Whether an operation puts a value in. -/
def Op.inserts : Op α → Bool
  | .insert _ => true
  | .get _ | .remove _ => false

/-! ### What the log says -/

/-- The words that were given out. -/
def given (log : Log α) : List UInt64 :=
  log.filterMap fun e =>
    match e.2 with
    | .given word => some word
    | .found _ => none

/-- **A value was put in under a word**, and it was not asked since to take it out. -/
def Under (log : Log α) (word : UInt64) (value : α) : Prop :=
  ∃ before after, log = before ++ (.insert value, .given word) :: after ∧
    ∀ answer, (.remove word, answer) ∉ after

variable {log : Log α} {word : UInt64} {value : α}

theorem given_concat (log : Log α) (e : Op α × Answer α) : given (log ++ [e]) = given log ++ given [e] :=
  List.filterMap_append

theorem Under.mem_given (h : Under log word value) : word ∈ given log := by
  obtain ⟨before, after, rfl, -⟩ := h
  exact List.mem_filterMap.mpr ⟨_, List.mem_append_right _ List.mem_cons_self, rfl⟩

/-- One more exchange may put a value in under its word, and leaves the others but for one that it takes
out. -/
theorem under_concat (log : Log α) (e : Op α × Answer α) :
    Under (log ++ [e]) word value ↔
      e = (.insert value, .given word) ∨ Under log word value ∧ ∀ answer, e ≠ (.remove word, answer) := by
  constructor
  · rintro ⟨before, after, hlog, hafter⟩
    rcases List.eq_nil_or_concat' after with rfl | ⟨after, last, rfl⟩
    · obtain ⟨-, hlast⟩ := List.append_inj' hlog rfl
      exact Or.inl (List.singleton_inj.mp hlast)
    · rw [← List.cons_append, ← List.append_assoc] at hlog
      obtain ⟨hbefore, hlast⟩ := List.append_inj' hlog rfl
      obtain rfl := List.singleton_inj.mp hlast
      refine Or.inr ⟨⟨before, after, hbefore, fun answer hmem => ?_⟩, fun answer hsame => ?_⟩
      · exact hafter answer (List.mem_append_left _ hmem)
      · exact hafter answer (List.mem_append_right _ (hsame ▸ List.mem_singleton_self _))
  · rintro (rfl | ⟨⟨before, after, rfl, hafter⟩, hkeeps⟩)
    · exact ⟨log, [], rfl, fun answer hmem => by cases hmem⟩
    · refine ⟨before, after ++ [e], by simp, fun answer hmem => ?_⟩
      rcases List.mem_append.mp hmem with hmem | hmem
      · exact hafter answer hmem
      · exact hkeeps answer (List.mem_singleton.mp hmem).symm

theorem under_concat_insert (new : α) (fresh : UInt64) :
    Under (log ++ [(.insert new, .given fresh)]) word value ↔
      word = fresh ∧ new = value ∨ Under log word value := by
  rw [under_concat]
  simp [and_comm, eq_comm]

theorem under_concat_get (other : UInt64) (answer : Answer α) :
    Under (log ++ [(.get other, answer)]) word value ↔ Under log word value := by
  rw [under_concat]
  simp

theorem under_concat_remove (other : UInt64) (answer : Answer α) :
    Under (log ++ [(.remove other, answer)]) word value ↔ word ≠ other ∧ Under log word value := by
  rw [under_concat]
  simp [and_comm, eq_comm]

/-! ### Taking out by any handle -/

variable {t : Table α} {issued : List Handle}

theorem remove_of_absent {h : Handle} (habsent : t.get? h = none) : t.remove h = (t, none) := by
  rw [remove, habsent]

theorem remove_snd (t : Table α) (h : Handle) : (t.remove h).2 = t.get? h := by
  cases hget : t.get? h with
  | none => rw [remove_of_absent hget]
  | some value => rw [remove_eq hget]

theorem Accounts.get?_remove_any (ha : Accounts t issued) (hfew : issued.length < maxIssued) (h k : Handle) :
    (t.remove h).1.get? k = if k = h then none else t.get? k := by
  cases hget : t.get? h with
  | none =>
    rw [remove_of_absent hget]
    split
    · next hsame => rw [hsame, hget]
    · rfl
  | some value => exact ha.get?_remove hget hfew k

theorem Accounts.remove_any (ha : Accounts t issued) (hfew : issued.length < maxIssued) (h : Handle) :
    Accounts (t.remove h).1 issued := by
  cases hget : t.get? h with
  | none =>
    rw [remove_of_absent hget]
    exact ha
  | some value => exact ha.remove hget hfew

/-! ### Vacant indices -/

/-- The vacant indices are those of the empty slots, all of which have an index. -/
theorem Accounts.mem_map_vacant (ha : Accounts t issued) (hfew : issued.length < maxIssued) {i : Nat} :
    i ∈ t.vacant.map UInt32.toNat ↔ ∃ generation, t.slots[i]? = some ⟨generation, none⟩ := by
  rw [List.mem_map]
  constructor
  · rintro ⟨index, hmem, rfl⟩
    exact ha.mem_vacant.mp hmem
  · rintro ⟨generation, hs⟩
    have hin : i < t.slots.size := (Array.getElem?_eq_some_iff.mp hs).1
    have hsize := ha.size_le
    have hmax : maxIssued = 4294967296 := rfl
    have hindex : i.toUInt32.toNat = i := UInt32.toNat_ofNat_of_lt' (show i < 4294967296 by omega)
    exact ⟨i.toUInt32, ha.mem_vacant.mpr ⟨generation, by rwa [hindex]⟩, hindex⟩

/-! ### One operation -/

/-- **A table and what was asked of it so far.**  It has given out no word twice, and by a word it reaches the
value that was put in under it and is not taken out. -/
structure Tells (t : Table α) (log : Log α) : Prop where
  accounts : Accounts t ((given log).map Handle.ofWord)
  nodup : (given log).Nodup
  under : ∀ {word : UInt64} {value : α}, t.get? (.ofWord word) = some value ↔ Under log word value

theorem tells_empty : Tells (empty : Table α) [] where
  accounts := accounts_empty
  nodup := List.nodup_nil
  under := by simp [Under, get?_of_no_slot (show (empty : Table α).slots[_]? = none from rfl)]

theorem length_issued (hfew : (given log).length < maxIssued) :
    ((given log).map Handle.ofWord).length < maxIssued := by
  rwa [List.length_map]

section Exec

variable (h : Tells t log) (hfew : (given log).length < maxIssued)
include h hfew

theorem Tells.notMem_given (value : α) : (t.insert value).2.toWord ∉ given log := by
  intro hmem
  have hissued : (t.insert value).2 ∈ (given log).map Handle.ofWord :=
    List.mem_map.mpr ⟨_, hmem, Handle.ofWord_toWord _⟩
  exact h.accounts.fresh (length_issued hfew) value hissued

theorem Tells.insert (value : α) :
    Tells (t.insert value).1 (log ++ [(.insert value, .given (t.insert value).2.toWord)]) := by
  have hnew := h.notMem_given hfew value
  have hgiven : given (log ++ [(.insert value, .given (t.insert value).2.toWord)]) =
      given log ++ [(t.insert value).2.toWord] := given_concat _ _
  refine ⟨?_, ?_, fun {word other} => ?_⟩
  · rw [hgiven, List.map_append, List.map_singleton, Handle.ofWord_toWord]
    exact h.accounts.insert (length_issued hfew) value
  · rw [hgiven, ← List.concat_eq_append, List.nodup_concat]
    exact ⟨hnew, h.nodup⟩
  · rw [under_concat_insert, h.accounts.get?_insert (length_issued hfew)]
    by_cases hword : word = (t.insert value).2.toWord
    · -- nothing was under the new word before
      have hbefore : ¬ Under log word other := fun hunder => hnew (hword ▸ hunder.mem_given)
      rw [if_pos (Handle.ofWord_eq_iff.mpr hword), Option.some_inj]
      simp [hword, hword ▸ hbefore]
    · rw [if_neg fun hsame => hword (Handle.ofWord_eq_iff.mp hsame), h.under]
      simp [hword]

theorem Tells.remove (word : UInt64) (value : Option α) :
    Tells (t.remove (.ofWord word)).1 (log ++ [(.remove word, .found value)]) := by
  have hgiven : given (log ++ [(.remove word, .found value)]) = given log :=
    (given_concat _ _).trans (List.append_nil _)
  refine ⟨?_, ?_, fun {other held} => ?_⟩
  · rw [hgiven]
    exact h.accounts.remove_any (length_issued hfew) _
  · rw [hgiven]
    exact h.nodup
  · rw [under_concat_remove, h.accounts.get?_remove_any (length_issued hfew)]
    by_cases hword : other = word
    · rw [if_pos (Handle.ofWord_inj.mpr hword)]
      simp [hword]
    · rw [if_neg fun hsame => hword (Handle.ofWord_inj.mp hsame), h.under]
      simp [hword]

/-- **One operation** keeps what a table reaches in step with its log. -/
theorem exec_tells (op : Op α) : Tells (t.exec op).1 (log ++ [(op, (t.exec op).2)]) := by
  cases op with
  | insert value => exact h.insert hfew value
  | get word =>
    have hgiven : given (log ++ [(.get word, .found (t.get? (.ofWord word)))]) = given log :=
      (given_concat _ _).trans (List.append_nil _)
    refine ⟨?_, ?_, ?_⟩
    · exact hgiven ▸ h.accounts
    · exact hgiven ▸ h.nodup
    · intro other held
      exact h.under.trans (under_concat_get word _).symm
  | remove word => exact h.remove hfew word _

end Exec

/-! ### Runs -/

theorem length_given_exec (t : Table α) (log : Log α) (op : Op α) :
    (given (log ++ [(op, (t.exec op).2)])).length = (given log).length + if op.inserts then 1 else 0 := by
  rw [given_concat, List.length_append]
  cases op <;> rfl

theorem run_cons (s : Table α × Log α) (op : Op α) (ops : List (Op α)) :
    run s (op :: ops) = run ((s.1.exec op).1, s.2 ++ [(op, (s.1.exec op).2)]) ops := rfl

theorem length_given_run (s : Table α × Log α) (ops : List (Op α)) :
    (given (run s ops).2).length = (given s.2).length + ops.countP Op.inserts := by
  induction ops generalizing s with
  | nil => rfl
  | cons op ops ih =>
    rw [run_cons, ih, length_given_exec, List.countP_cons]
    omega

theorem run_tells {s : Table α × Log α} (h : Tells s.1 s.2) (ops : List (Op α))
    (hfew : (given s.2).length + ops.countP Op.inserts < maxIssued) :
    Tells (run s ops).1 (run s ops).2 := by
  induction ops generalizing s with
  | nil => exact h
  | cons op ops ih =>
    rw [List.countP_cons] at hfew
    rw [run_cons]
    refine ih (exec_tells h (by omega) op) ?_
    rw [length_given_exec]
    omega

/-- **A word reaches what was put in under it, and nothing else does.**  After any operations on a new table
that put in fewer than 2^32 values, no word was given out twice.  A word gives a value, to read or to take out,
just if the value was put in under it and not taken out since, and taking it out leaves the other words as
they are.  The vacant indices are all different, and they are those of the empty slots. -/
theorem run_reaches (ops : List (Op α)) (hfew : ops.countP Op.inserts < maxIssued) :
    let t := (run (empty, []) ops).1
    let log := (run (empty, []) ops).2
    (given log).Nodup ∧
      (∀ word value, (t.exec (.get word)).2 = .found (some value) ↔ Under log word value) ∧
      (∀ word value, (t.exec (.remove word)).2 = .found (some value) ↔ Under log word value) ∧
      (∀ word other, other ≠ word →
        ((t.exec (.remove word)).1.exec (.get other)).2 = (t.exec (.get other)).2) ∧
      t.vacant.Nodup ∧
      ∀ i, i ∈ t.vacant.map UInt32.toNat ↔ ∃ generation, t.slots[i]? = some ⟨generation, none⟩ := by
  intro t log
  have hcount : (given ([] : Log α)).length + ops.countP Op.inserts < maxIssued := by
    rwa [given, List.filterMap_nil, List.length_nil, Nat.zero_add]
  have hissued : ((given log).map Handle.ofWord).length < maxIssued :=
    length_issued (by rwa [length_given_run])
  have h : Tells t log := run_tells tells_empty ops hcount
  refine ⟨h.nodup, fun word value => ?_, fun word value => ?_, fun word other hother => ?_,
    h.accounts.nodup, fun i => h.accounts.mem_map_vacant hissued⟩
  · dsimp only [exec]
    rw [Answer.found.injEq, h.under]
  · dsimp only [exec]
    rw [Answer.found.injEq, remove_snd, h.under]
  · dsimp only [exec]
    rw [h.accounts.get?_remove_any hissued, if_neg fun hsame => hother (Handle.ofWord_inj.mp hsame)]

/-- The word of a value that was taken out gives nothing, nor does one made up for the empty slot at its
generation. -/
theorem run_reaches_made_up :
    let ops : List (Op Nat) := [.insert 7, .insert 8, .remove 0]
    ops.countP Op.inserts < maxIssued ∧
      let t := (run (empty, []) ops).1
      let log := (run (empty, []) ops).2
      given log = [0, 4294967296] ∧ (given log).Nodup ∧ Under log 4294967296 8 ∧
        (∀ value, ¬ Under log 0 value) ∧ t.slots[0]?.map Slot.generation = some 1 ∧ t.vacant = [0] ∧
          ∀ value, ¬ Under log 1 value := by
  intro ops
  have hfew : ops.countP Op.inserts < maxIssued := by decide
  refine ⟨hfew, ?_⟩
  intro t log
  obtain ⟨hnodup, hget, -⟩ := run_reaches ops hfew
  have hnothing {word : UInt64} (hnone : t.get? (.ofWord word) = none) (value : Nat) :
      ¬ Under log word value := by
    intro hunder
    have hfound : Answer.found (t.get? (.ofWord word)) = .found (some value) := (hget word value).mpr hunder
    rw [hnone] at hfound
    cases hfound
  have hlive : t.get? (.ofWord 4294967296) = some 8 := by decide
  exact ⟨by decide, hnodup, (hget _ _).mp (congrArg Answer.found hlive), hnothing (by decide), by decide,
    by decide, hnothing (by decide)⟩

end Table

end Retrace
