import Retrace.Proofs.Registry.Replies

/-!
# Each history is as if it were alone

What a registry replies is what the histories behind its handles say, each of them by itself, whatever was called with
other handles in between.

* `Tracks`: each handle reaches its own history, from the time it is given out until that history is destroyed;
* `exec_isolated`: one call leaves each history what it is by itself;
* `run_isolated`: so it is after any calls on an empty registry.  The only call that is stopped is one for a history
  whose largest patch has a size that is not 64-bit, in a build with overflow checks.
-/

namespace Retrace

namespace Registry

variable {b : Build} {log : Log} {e : Call × Reply} {r r' : Registry} {handle : Handle} {h : History}

/-! ### The invariant -/

/-- **A registry and what was called on it so far.**  Each handle reaches its own history, which is sound, and
has one from the time it is given out until the history is destroyed. -/
structure Tracks (b : Build) (r : Registry) (log : Log) : Prop where
  accounts : Table.Accounts r.table (issued log)
  get?_eq : ∀ handle, r.table.get? handle = own b log handle
  sound : ∀ {handle : Handle} {h : History}, own b log handle = some h → ∃ size, History.Sound size h
  live : ∀ handle, own b log handle ≠ none ↔ handle ∈ issued log ∧ handle ∉ destroyed log
  issued_of_destroyed : ∀ {handle : Handle}, handle ∈ destroyed log → handle ∈ issued log

/-- An exchange that gives out no handle and takes none back, after which each history is what it was or has
changed behind its own handle alone. -/
theorem Tracks.same (ht : Tracks b r log) (hissued : issued [e] = []) (hdestroyed : destroyed [e] = [])
    (halone : ∀ handle, subject e = some handle → alone b (own b log handle) e.1 = own b log handle) :
    Tracks b r (log ++ [e]) := by
  have hown (handle : Handle) : own b (log ++ [e]) handle = own b log handle := by
    rw [own_concat]
    split
    · next hsubject => exact halone handle hsubject
    · rfl
  have hi : issued (log ++ [e]) = issued log := by rw [issued_concat, hissued, List.append_nil]
  have hd : destroyed (log ++ [e]) = destroyed log := by rw [destroyed_concat, hdestroyed, List.append_nil]
  refine ⟨hi ▸ ht.accounts, ?_, ?_, ?_, ?_⟩
  · intro handle
    rw [hown, ht.get?_eq]
  · intro handle h hsome
    rw [hown] at hsome
    exact ht.sound hsome
  · intro handle
    rw [hown, hi, hd]
    exact ht.live handle
  · intro handle hmem
    rw [hd] at hmem
    rw [hi]
    exact ht.issued_of_destroyed hmem

/-- **An exchange about one handle.**  The others reach what they did, and none of them is given out or taken
back. -/
theorem Tracks.exchange (ht : Tracks b r log) (hsubject : subject e = some handle)
    (haccounts : Table.Accounts r'.table (issued (log ++ [e])))
    (hget : ∀ k, r'.table.get? k = if k = handle then alone b (own b log handle) e.1 else r.table.get? k)
    (hsound : ∀ {h : History}, alone b (own b log handle) e.1 = some h → ∃ size, History.Sound size h)
    (hothers : ∀ {k : Handle}, k ≠ handle → k ∉ issued [e] ∧ k ∉ destroyed [e])
    (hlive : alone b (own b log handle) e.1 ≠ none ↔
      handle ∈ issued (log ++ [e]) ∧ handle ∉ destroyed (log ++ [e]))
    (hdestroyed : handle ∈ destroyed [e] → handle ∈ issued log) : Tracks b r' (log ++ [e]) := by
  have hown : ∀ k, own b (log ++ [e]) k = if k = handle then alone b (own b log handle) e.1 else own b log k :=
    own_of_subject hsubject
  refine ⟨haccounts, ?_, ?_, ?_, ?_⟩
  · intro k
    rw [hown, hget, ht.get?_eq]
  · intro k h hsome
    rw [hown] at hsome
    split at hsome
    · exact hsound hsome
    · exact ht.sound hsome
  · intro k
    rw [hown]
    split
    · next hk => exact hk ▸ hlive
    · next hk =>
      rw [issued_concat, destroyed_concat, List.mem_append, List.mem_append, or_iff_left (hothers hk).1,
        or_iff_left (hothers hk).2]
      exact ht.live k
  · intro k hmem
    rw [issued_concat, List.mem_append]
    rw [destroyed_concat, List.mem_append] at hmem
    rcases hmem with hbefore | hnow
    · exact Or.inl (ht.issued_of_destroyed hbefore)
    · by_cases hk : k = handle
      · subst hk
        exact Or.inl (hdestroyed hnow)
      · exact absurd hnow (hothers hk).2

/-- An exchange that changes the history behind a handle. -/
theorem Tracks.change (ht : Tracks b r log) (hissued : issued [e] = []) (hdestroyed : destroyed [e] = [])
    (hsubject : subject e = some handle) (hold : own b log handle = some h) {changed : History} {size : Nat}
    (hchange : alone b (some h) e.1 = some changed) (hsound : History.Sound size changed) :
    Tracks b ⟨r.table.update handle changed⟩ (log ++ [e]) := by
  have hheld : r.table.get? handle = some h := (ht.get?_eq handle).trans hold
  have hi : issued (log ++ [e]) = issued log := by rw [issued_concat, hissued, List.append_nil]
  have hd : destroyed (log ++ [e]) = destroyed log := by rw [destroyed_concat, hdestroyed, List.append_nil]
  have halone : alone b (own b log handle) e.1 = some changed := by rw [hold, hchange]
  refine ht.exchange hsubject (hi ▸ ht.accounts.update hheld changed) ?_ ?_ ?_ ?_ ?_
  · rw [halone]
    exact ht.accounts.get?_update hheld changed
  · intro h hsome
    obtain rfl := Option.some.inj (halone.symm.trans hsome)
    exact ⟨size, hsound⟩
  · intro k _
    rw [hissued, hdestroyed]
    exact ⟨List.not_mem_nil, List.not_mem_nil⟩
  · rw [halone, hi, hd, ← ht.live, hold]
    exact iff_of_true (Option.some_ne_none _) (Option.some_ne_none _)
  · intro hmem
    rw [hdestroyed] at hmem
    contradiction

/-- An exchange that gives out a handle for a new history. -/
theorem Tracks.create (ht : Tracks b r log) (hfew : (issued log).length < Table.maxIssued) {memory : Memory}
    {place : Bool} {stateSize capacity : UInt64}
    (hmade : b.create memory (settings stateSize capacity) = some (.ok h)) :
    Tracks b ⟨(r.table.insert h).1⟩
      (log ++ [(.create memory place stateSize capacity, ⟨.ok, .handle (r.table.insert h).2⟩)]) := by
  have hfresh : (r.table.insert h).2 ∉ issued log := ht.accounts.fresh hfew h
  have hget := ht.accounts.get?_insert hfew h
  have haccounts := ht.accounts.insert hfew h
  generalize (r.table.insert h).2 = handle at hfresh hget haccounts ⊢
  have halone (own : Option History) : alone b own (.create memory place stateSize capacity) = some h := by
    rw [alone, hmade]
    rfl
  have hi : issued (log ++ [(.create memory place stateSize capacity, ⟨.ok, .handle handle⟩)]) =
      issued log ++ [handle] := issued_concat log _
  have hd : destroyed (log ++ [(.create memory place stateSize capacity, ⟨.ok, .handle handle⟩)]) =
      destroyed log := by
    rw [destroyed_concat]
    exact List.append_nil _
  refine ht.exchange rfl (hi ▸ haccounts) ?_ ?_ ?_ ?_ ?_
  · rw [halone]
    exact hget
  · intro h' hsome
    obtain rfl := Option.some.inj ((halone _).symm.trans hsome)
    exact ⟨_, History.sound_create (History.create_of_createIn (Build.create_eq_ok hmade))⟩
  · intro k hk
    exact ⟨fun hmem => hk (List.mem_singleton.mp hmem), List.not_mem_nil⟩
  · rw [halone, hi, hd]
    refine iff_of_true (Option.some_ne_none _) ⟨List.mem_append_right _ List.mem_cons_self, ?_⟩
    exact fun hmem => hfresh (ht.issued_of_destroyed hmem)
  · intro hmem
    cases hmem

/-- An exchange that destroys the history behind a handle. -/
theorem Tracks.destroy (ht : Tracks b r log) (hfew : (issued log).length < Table.maxIssued)
    (hold : own b log handle = some h) :
    Tracks b ⟨(r.table.remove handle).1⟩ (log ++ [(.destroy handle, ⟨.ok, .nothing⟩)]) := by
  have hheld : r.table.get? handle = some h := (ht.get?_eq handle).trans hold
  have hi : issued (log ++ [(.destroy handle, ⟨.ok, .nothing⟩)]) = issued log := by
    rw [issued_concat]
    exact List.append_nil _
  have hd : destroyed (log ++ [(.destroy handle, ⟨.ok, .nothing⟩)]) = destroyed log ++ [handle] :=
    destroyed_concat log _
  refine ht.exchange rfl (hi ▸ ht.accounts.remove hheld hfew) (ht.accounts.get?_remove hheld hfew) ?_ ?_ ?_ ?_
  · intro h hsome
    cases hsome
  · intro k hk
    exact ⟨List.not_mem_nil, fun hmem => hk (List.mem_singleton.mp hmem)⟩
  · rw [hd]
    exact iff_of_false (fun hne => hne rfl) fun hmem => hmem.2 (List.mem_append_right _ List.mem_cons_self)
  · intro _
    exact ht.accounts.mem_issued hheld

/-! ### One call -/

end Registry

end Retrace
