import Retrace.Failure
import Retrace.Patch.Diff
import Retrace.Ring.Basic
import Retrace.Snapshot

/-!
# Histories

A history holds states of one size, the newest first to be taken back.  The newest state is whole,
in the front snapshot; each older one is a patch in the ring that makes it of the state after it.
The next state is prepared in the staging snapshot, and the two snapshots change places when it is
committed.

A state that was taken back stays in the front snapshot but is no longer part of the history: the
front is not live.  Before the next patch is made, the state before it is brought back to the front.

* `History.prepare`: the front is live again, if there is a state to bring back;
* `History.commit`: the staged state becomes the newest;
* `History.pop`: the newest state is taken back;
* `History.states`: the states of a history, the oldest first.
-/

namespace Retrace

/-- How far a history has come since it was made or cleared. -/
inductive Phase where
  /-- Nothing was committed. -/
  | empty
  /-- The last commit found no state to make a patch to. -/
  | seeded
  /-- The last commit stored a patch. -/
  | streaming
  deriving DecidableEq, Repr

/-- The name of a phase. -/
def Phase.name : Phase → String
  | .empty => "Empty"
  | .seeded => "Seeded"
  | .streaming => "Streaming"

/-- What was done to a history since it was made.  The counts are meant to stay below 2^64, as 64-bit
counters hold them; nothing here says what becomes of a larger one. -/
structure Tally where
  pushes : Nat := 0
  pops : Nat := 0
  emptyPops : Nat := 0
  evictions : Nat := 0
  patchBytes : Nat := 0
  lastPatchSize : Nat := 0
  deriving DecidableEq, Repr

/-- The tally with one more stored patch. -/
def Tally.stored (t : Tally) (receipt : Ring.Receipt) : Tally :=
  { t with
    pushes := t.pushes + 1
    evictions := t.evictions + receipt.evicted
    patchBytes := t.patchBytes + receipt.size
    lastPatchSize := receipt.size }

/-- The ring with one more record, the patch that makes `older` of `newer`, written straight into
its slot. -/
def Ring.pushDiff (r : Ring) (scanner : Scanner) (newer older : Bytes) :
    Ring × Except Failure Ring.Receipt :=
  r.pushWith .ofRing fun slot =>
    let (slot, outcome) := Patch.writeInto scanner newer older slot
    (slot, outcome.mapError .ofPatch)

/-- How much a history holds. -/
structure Occupancy where
  entries : Nat
  usedBytes : Nat
  nearlyFull : Bool
  deriving DecidableEq, Repr

/-- States of one size, as a newest state and the patches to those before it. -/
structure History where
  config : Config
  scanner : Scanner
  ring : Ring
  /-- The newest state, or the one last taken back. -/
  front : Snapshot
  /-- The state being prepared. -/
  staging : Snapshot
  /-- Whether the front is part of the history. -/
  live : Bool
  phase : Phase
  tally : Tally

namespace History

/-- The tag of the snapshot that is the front at first. -/
def frontTag : UInt16 := 0xFFFF

/-- The tag of the snapshot that is staged at first. -/
def stagingTag : UInt16 := 0x0000

/-- An empty history, with room for one patch of `limit` bytes at least. -/
def createWith (config : Config) (limit : Nat) (scanner : Scanner) : Except Failure History := do
  (config.checkWith limit).mapError .config
  let front ← (Snapshot.create config.stateSize frontTag).mapError .ofPatch
  let staging ← (Snapshot.create config.stateSize stagingTag).mapError .ofPatch
  let ring ← (Ring.create config.capacity limit).mapError .ofRing
  return {
    config, scanner, ring, front, staging
    live := false
    phase := .empty
    tally := {} }

/-- An empty history, for a configuration whose largest patch has a 64-bit size. -/
def create (config : Config) (scanner : Scanner) : Except Failure History :=
  createWith config config.patchLimit scanner

/-! ## What a history shows -/

/-- The size of one state. -/
def stateSize (h : History) : Nat := h.config.stateSize

/-- The size of the region for patches. -/
def capacity (h : History) : Nat := h.ring.capacity

/-- The number of states. -/
def entries (h : History) : Nat := h.ring.count + h.live.toNat

/-- How much the history holds. -/
def occupancy (h : History) : Occupancy := ⟨h.entries, h.ring.usedBytes, h.ring.nearlyFull⟩

/-- The state at the front, even if it was taken back; nothing before the first commit. -/
def current (h : History) : Option Bytes :=
  if h.phase = .empty then none else some h.front.bytes

/-- The bytes of the state being prepared. -/
def staged (h : History) : Bytes := h.staging.bytes

/-- The states that patches make, each of the one before it. -/
def unwind (front : Bytes) : List Bytes → List Bytes
  | [] => []
  | patch :: rest => Patch.apply patch front :: unwind (Patch.apply patch front) rest

/-- The states of a history, the oldest first. -/
def states (h : History) : List Bytes :=
  (unwind h.front.bytes (h.ring.records.map Prod.snd).reverse).reverse ++
    if h.live then [h.front.bytes] else []

/-! ## Recording -/

/-- The history with its newest patch applied to the front and dropped, if there is one. -/
def stepBack (h : History) : Option History :=
  h.ring.newest.map fun (patch, _) =>
    { h with ring := h.ring.dropNewest.1, front := h.front.apply patch }

/-- The history with its newest state at the front, if it has a state. -/
def prepare (h : History) : History :=
  if h.live then h
  else
    match h.stepBack with
    | some h => { h with live := true }
    | none => h

/-- The history with `src` written to the state being prepared, from offset `pos` on. -/
def stage (h : History) (pos : Nat) (src : Bytes) : History :=
  { h with staging := h.staging.write pos src }

/-- The history with its two snapshots in each other's place. -/
def swap (h : History) : History := { h with front := h.staging, staging := h.front }

/-- The history with the state being prepared as its first state. -/
def seed (h : History) : History :=
  { h.swap with
    live := true
    phase := .seeded
    tally := { h.tally with pushes := h.tally.pushes + 1 } }

/-- The history with the state being prepared as its newest.  If there is a state before it, a patch
back to that state is stored, and the oldest states may be evicted for it. -/
def commit (h : History) : History × Except Failure Unit :=
  let h := h.prepare
  if h.live then
    match h.ring.pushDiff h.scanner h.staged h.front.bytes with
    | (ring, .error e) => ({ h with ring }, .error e)
    | (ring, .ok receipt) =>
      ({ h.swap with ring, phase := .streaming, tally := h.tally.stored receipt }, .ok ())
  else (h.seed, .ok ())

/-! ## Taking back -/

/-- The history without its newest state, and that state. -/
def pop (h : History) : History × Except Failure Bytes :=
  match if h.live then some { h with live := false } else h.stepBack with
  | some h => ({ h with tally := { h.tally with pops := h.tally.pops + 1 } }, .ok h.front.bytes)
  | none => ({ h with tally := { h.tally with emptyPops := h.tally.emptyPops + 1 } }, .error .empty)

/-- The history with the state that was last taken back in it again, as if it had not been taken. -/
def putBack (h : History) : History :=
  { h with live := true, tally := { h.tally with pops := h.tally.pops - 1 } }

/-- The history without states.  What was done to it stays counted. -/
def clear (h : History) : History :=
  { h with
    ring := h.ring.clear
    front := h.front.erase
    staging := h.staging.erase
    live := false
    phase := .empty }

/-! ## Text -/

/-- The sizes of a history and its ring as text. -/
def render (h : History) : String :=
  "RewindSession \x7b state_size: " ++ toString h.stateSize ++ ", phase: " ++ h.phase.name ++
    ", entries: " ++ toString h.entries ++ ", log: " ++ h.ring.render ++ " \x7d"

end History

end Retrace
