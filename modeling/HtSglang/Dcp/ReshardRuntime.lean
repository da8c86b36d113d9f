import HtSglang.Library.MinReduce
import HtSglang.Dcp.Reshard

/-!
# The reshard runtime of one rank

`KvReshardRuntime` drives the resharding of one rank: it is armed with a target
vector, counts scheduler rounds, and at every consensus boundary enters one MIN
reduction with what it knows – whether it is armed, whether it is ready, whether it
can afford the move, its epoch and its target. What the reduction returns decides
whether the rank raises, waits, refuses or moves.

A round has two halves with the collective between them. `HtSglang.Dcp.KvReshardRuntime.propose`
is the first, up to the payload; `HtSglang.Dcp.KvReshardRuntime.resolve` is the second, from
the reduced payload on. Which of the four ways a round ends is a function of the
reduced payload alone (`HtSglang.Dcp.verdict`), and that is where agreement comes
from: every rank reads the same reduction.

A runtime carries what its constructor checked – the declared vectors have one
entry per rank, the current and the pending one are declared – as fields, so that a
payload always has the length the group expects.
-/

namespace HtSglang

namespace Dcp

open MinReduce

/-! ### The state -/

/-- **The runtime of one rank**, with what its constructor checked. -/
structure KvReshardRuntime (g : RowFormat) where
  /-- The size of the group. -/
  size : ℕ
  rank : ℕ
  /-- The declared vectors. -/
  allowed : List (List ℤ)
  /-- The number of rounds between two boundaries. -/
  interval : ℕ
  /-- The features that block arming. -/
  blockingGuards : List (List Char)
  /-- The bytes of free memory that are not the runtime's to spend. -/
  corridorFloorBytes : ℤ
  pool : KvPoolView g
  /-- The replicated round counter. -/
  round : ℕ
  /-- The number of completed moves, as the group counts them. -/
  epoch : ℕ
  /-- The vector the pool is laid out by. -/
  current : List ℤ
  /-- The armed target. -/
  pending : Option (List ℤ)
  /-- How many moves were refused for headroom. -/
  refusedHeadroom : ℕ
  two_le_size : 2 ≤ size
  /-- A declared vector has one entry per rank. -/
  length_allowed : ∀ v ∈ allowed, v.length = size
  current_mem : current ∈ allowed
  pending_mem : ∀ v, pending = some v → v ∈ allowed

namespace KvReshardRuntime

variable {g : RowFormat}

/-- `KvReshardRuntime.__init__`. -/
def init (size rank : ℕ) (allowed : List (List ℤ)) (current : List ℤ) (interval : ℕ)
    (guards : List (List Char)) (floor : ℤ) (pool : KvPoolView g) :
    Except KvReshardError (KvReshardRuntime g) :=
  if hsize : size < 2 then .error (.groupTooSmall size)
  else if interval < 1 then .error (.intervalBelowOne interval)
  else
    match h : allowed.find? (fun v => v.length ≠ size) with
    | some v => .error (.vectorLength v size)
    | none =>
      if hc : current ∈ allowed then
        .ok
          { size := size
            rank := rank
            allowed := allowed
            interval := interval
            blockingGuards := guards
            corridorFloorBytes := floor
            pool := pool
            round := 0
            epoch := 0
            current := current
            pending := none
            refusedHeadroom := 0
            two_le_size := Nat.le_of_not_lt hsize
            length_allowed := fun v hv => by simpa using List.find?_eq_none.mp h v hv
            current_mem := hc
            pending_mem := fun v hv => by simp at hv }
      else .error (.bootNotAllowed current allowed)

/-- What a constructed runtime is. -/
theorem init_ok {size rank interval : ℕ} {allowed : List (List ℤ)} {current : List ℤ}
    {guards : List (List Char)} {floor : ℤ} {pool : KvPoolView g} {rt : KvReshardRuntime g}
    (h : init size rank allowed current interval guards floor pool = .ok rt) :
    rt.size = size ∧ rt.rank = rank ∧ rt.allowed = allowed ∧ rt.current = current ∧
      rt.epoch = 0 := by
  unfold init at h
  split at h
  · cases h
  split at h
  · cases h
  split at h
  · cases h
  split at h
  · cases h
    exact ⟨rfl, rfl, rfl, rfl, rfl⟩
  · cases h

/-! ### Arming -/

/-- The replies of `arm`, with the values its messages report. -/
inductive ArmReply
  /-- A blocking feature is active. -/
  | refusedGuards (guards : List (List Char))
  /-- The target does not have one positive entry per rank. -/
  | invalidTarget (vec : List ℤ) (size : ℕ)
  /-- The target is the current vector. -/
  | alreadyCurrent (vec : List ℤ)
  /-- The target is not declared. -/
  | notAllowed (vec : List ℤ) (allowed : List (List ℤ))
  /-- The target is armed. -/
  | armed (current vec : List ℤ)
  deriving DecidableEq, Repr

/-- `arm`: a new target replaces the pending one. -/
def arm (rt : KvReshardRuntime g) (vec : List ℤ) : ArmReply × KvReshardRuntime g :=
  if rt.blockingGuards ≠ [] then (.refusedGuards rt.blockingGuards, rt)
  else if vec.length ≠ rt.size ∨ vec.any (· < 1) then (.invalidTarget vec rt.size, rt)
  else if vec = rt.current then (.alreadyCurrent vec, rt)
  else if h : vec ∈ rt.allowed then
    (.armed rt.current vec,
      { rt with pending := some vec, pending_mem := fun v hv => by simp_all })
  else (.notAllowed vec rt.allowed, rt)

/-! ### The price of a move -/

/-- The device allocations of a move on top of the pool. -/
structure TransientTerms where
  /-- The gathered rows, before they are packed. -/
  staged : ℕ
  /-- The packed payloads. -/
  packed : ℕ
  /-- The largest payload under construction. -/
  largestPeerPack : ℕ
  /-- The receive buffers. -/
  recv : ℕ
  /-- All of them at once. -/
  peak : ℕ

/-- `_transient_terms`. -/
def transientTerms (g : RowFormat) (tr : ReshardTransition) : TransientTerms :=
  let rowBytes := g.totalRowNbytes
  let outPerPeer := tr.outgoingRows.map fun e => e.2.length * rowBytes
  let inPerPeer := tr.incomingRows.map fun e => e.2.length * rowBytes
  let staged := outPerPeer.sum
  let packed := staged + 8 * outPerPeer.length
  let largest := outPerPeer.foldl max 0
  let recv := inPerPeer.sum + 8 * inPerPeer.length
  ⟨staged, packed, largest, recv, staged + packed + largest + recv⟩

/-- `_headroom_check`. Free memory is not asked for at all (`none`), could not be
read (`some none`), or is a number of bytes. -/
def headroomCheck (rt : KvReshardRuntime g) (free : Option (Option ℤ)) (tr : ReshardTransition) :
    Bool :=
  match free with
  | none => true
  | some none => false
  | some (some bytes) =>
    decide (0 ≤ bytes - rt.corridorFloorBytes - ((transientTerms g tr).peak : ℤ))

/-! ### The first half of a round -/

/-- What a rank reads at a boundary. -/
structure Readings where
  /-- The verdict of the fit check on the target; `none` when there is no check. -/
  fitCheck : Option Bool
  /-- Whether the scheduler is fully idle. -/
  ready : Bool
  liveSlots : List ℤ
  /-- The free memory. -/
  freeBytes : Option (Option ℤ)

/-- What a rank proposes at a boundary. -/
structure Proposal where
  /-- Whether a target is armed. -/
  armed : Bool
  /-- Whether the rank would move. -/
  ready : Bool
  /-- Whether it can afford to; a rank that would not move does not veto. -/
  headroom : Bool
  epoch : ℕ
  /-- Its target, zeros when it is not armed. -/
  vec : List ℤ
  /-- The plan it priced. -/
  plan : Option ReshardTransition

/-- The packed fields of a proposal, in the order `armed`, `ready`, `headroom`,
`epoch`, `vector[0]`, `vector[1]`, …. -/
def Proposal.values (p : Proposal) : List ℤ :=
  [(p.armed.toNat : ℤ), p.ready.toNat, p.headroom.toNat, p.epoch] ++ p.vec

/-- The payload a rank enters the collective with. -/
def Proposal.payload (p : Proposal) : List ℤ := encode p.values

/-- The proposal of a rank at a boundary. Pricing the move reads the live slots and
may raise. -/
def propose (rt : KvReshardRuntime g) (rd : Readings) : Except KvReshardError Proposal :=
  match rt.pending with
  | none => .ok ⟨false, false, true, rt.epoch, List.replicate rt.size 0, none⟩
  | some target =>
    if rd.fitCheck.getD true && rd.ready then do
      let tr ← planMove rd.liveSlots rt.current target rt.rank
      return ⟨true, true, rt.headroomCheck rd.freeBytes tr, rt.epoch, target, some tr⟩
    else .ok ⟨true, false, true, rt.epoch, target, none⟩

/-- The beginning of `on_round`: count the round, and propose at a boundary. -/
def enterRound (rt : KvReshardRuntime g) (rd : Readings) :
    KvReshardRuntime g × Except KvReshardError (Option Proposal) :=
  let rt := { rt with round := rt.round + 1 }
  if rt.round % rt.interval ≠ 0 then (rt, .ok none)
  else (rt, (rt.propose rd).map some)

/-! ### The second half of a round -/

end KvReshardRuntime

/-- The ways a boundary can end. -/
inductive Verdict
  /-- The ranks disagree on these fields. -/
  | desync (fields : List ℕ)
  /-- Some rank is not armed. -/
  | notArmed
  /-- Some rank is not ready. -/
  | notReady
  /-- Some rank cannot afford the move. -/
  | refuse
  /-- Every rank moves. -/
  | move
  deriving DecidableEq, Repr

/-- The fields that must be equal: the epoch always, the vector once every rank is
armed. -/
def eqChecked (size : ℕ) (reduced : List ℤ) : List ℕ :=
  3 :: if lowAt reduced 0 = 1 then (List.range size).map (4 + ·) else []

/-- How the reduced payload decides a boundary. -/
def verdict (size : ℕ) (reduced : List ℤ) : Verdict :=
  let mismatches := (eqChecked size reduced).filter fun i => lowAt reduced i ≠ highAt reduced i
  if mismatches ≠ [] then .desync mismatches
  else if lowAt reduced 0 = 0 then .notArmed
  else if lowAt reduced 1 = 0 then .notReady
  else if lowAt reduced 2 = 0 then .refuse
  else .move

namespace KvReshardRuntime

variable {g : RowFormat}

/-- `_refuse_for_headroom`: disarm, stay on the current vector. -/
def refuseForHeadroom (rt : KvReshardRuntime g) : KvReshardRuntime g :=
  { rt with
    pending := none
    refusedHeadroom := rt.refusedHeadroom + 1
    pending_mem := fun v hv => by simp at hv }

/-- The cutover of `_execute`: the moved pool is laid out by the target. -/
def cutoverTo (rt : KvReshardRuntime g) (target : List ℤ) (h : target ∈ rt.allowed)
    (pool : KvPoolView g) :
    KvReshardRuntime g :=
  { rt with
    pool := pool
    current := target
    pending := none
    epoch := rt.epoch + 1
    current_mem := h
    pending_mem := fun v hv => by simp at hv }

/-- What a rank needs from outside to finish a round: its process, what the exchange
returns to it, and the live slots, should it have to plan again. -/
structure MoveInputs where
  /-- The process. -/
  env : MoverEnv
  /-- The payload received from each peer. -/
  received : ℕ → Option (List UInt8)
  liveSlots : List ℤ

/-- The plan of a move: the one that was priced, or a new one. -/
def pricedPlan (rt : KvReshardRuntime g) (plan : Option ReshardTransition) (slots : List ℤ)
    (target : List ℤ) : Except KvReshardError ReshardTransition :=
  match plan with
  | some tr => .ok tr
  | none => planMove slots rt.current target rt.rank

/-- `_execute`: the move, then the cutover. -/
def runExecute (rt : KvReshardRuntime g) (plan : Option ReshardTransition) (inp : MoveInputs) :
    Except KvReshardError (KvReshardRuntime g) :=
  match h : rt.pending with
  | none => .error .assertionFailed
  | some target => do
    let tr ← rt.pricedPlan plan inp.liveSlots target
    let pool ← executePlan inp.env inp.received tr target rt.pool
    return rt.cutoverTo target (rt.pending_mem target h) pool

/-- How a rank ends a boundary with a verdict. -/
def applyVerdict (rt : KvReshardRuntime g) (v : Verdict) (p : Proposal) (inp : MoveInputs) :
    Except KvReshardError (KvReshardRuntime g) :=
  match v with
  | .desync fields => .error (.desync rt.round fields)
  | .notArmed => .ok rt
  | .notReady => .ok rt
  | .refuse => .ok rt.refuseForHeadroom
  | .move => rt.runExecute p.plan inp

/-- The end of `on_round`, from the reduced payload on. -/
def resolve (rt : KvReshardRuntime g) (p : Proposal) (reduced : List ℤ) (inp : MoveInputs) :
    Except KvReshardError (KvReshardRuntime g) :=
  if reduced.length ≠ p.payload.length then
    .error (.consensusLength reduced.length p.payload.length)
  else rt.applyVerdict (verdict rt.size reduced) p inp

/-- What a rank armed with `target` does when it executes a priced plan. -/
theorem runExecute_of_plan {rt : KvReshardRuntime g} {target : List ℤ}
    (hpend : rt.pending = some target) (tr : ReshardTransition) (inp : MoveInputs) :
    rt.runExecute (some tr) inp =
      (executePlan inp.env inp.received tr target rt.pool).map
        (rt.cutoverTo target (rt.pending_mem target hpend)) := by
  unfold runExecute
  split
  · next h => simp [h] at hpend
  · next target' h =>
    obtain rfl : target' = target := by simpa [h] using hpend
    simp only [pricedPlan, bind, Except.bind, pure, Except.pure]
    cases executePlan inp.env inp.received tr target' rt.pool <;> rfl

/-- **A rank that has executed is on its target, one epoch later.** -/
theorem runExecute_ok {rt rt' : KvReshardRuntime g} {plan : Option ReshardTransition}
    {inp : MoveInputs} (h : rt.runExecute plan inp = .ok rt') :
    rt'.size = rt.size ∧ rt'.epoch = rt.epoch + 1 ∧ rt.pending = some rt'.current := by
  unfold runExecute at h
  split at h
  · cases h
  · next target hpend =>
    obtain ⟨tr, -, h⟩ := bind_eq_ok.mp h
    obtain ⟨pool, -, h⟩ := bind_eq_ok.mp h
    cases h
    exact ⟨rfl, rfl, hpend⟩

end KvReshardRuntime

end Dcp

end HtSglang
