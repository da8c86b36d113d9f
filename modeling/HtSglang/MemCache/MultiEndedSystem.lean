import HtSglang.Library.OpRun
import HtSglang.MemCache.MultiEndedCompaction

/-!
# Two allocators on one buffer

Both sub-pools with their allocators, and everything that may be asked of them, in any
order: allocating, which on a shortfall compacts the other side
(`HtSglang.MultiEnded.ensureRoom`), freeing, flushing, returning parked pages, the notes
about forwards, the firing of their events, and the writes of forwards into the pools
(`HtSglang.MultiEnded.Op`). The callers of `free` promise ids that are allocated, each once;
that is `HtSglang.MultiEnded.Permitted`.

Every operation but a write leaves both sides in order and is invisible to their readers
(`HtSglang.MultiEnded.step_quiet`), unless it overwrites what is parked under an event.
-/

namespace HtSglang

namespace MultiEnded

/-! ### The system -/

/-- The two sub-pools. -/
inductive Side
  /-- One of them. -/
  | first
  /-- The other. -/
  | second
  deriving DecidableEq, Repr

/-- The peer's side. -/
def Side.other : Side → Side
  | .first => .second
  | .second => .first

theorem Side.other_ne (side : Side) : side.other ≠ side := by
  rcases side with _ | _ <;> decide

/-- What is fixed: the two allocators, and whether they were bound to each other. -/
structure Setup where
  /-- The allocator of each side. -/
  config : Side → Config
  /-- Whether `bind_peer` was called. -/
  bound : Bool

/-- The state of the two allocators, and the events that have fired. -/
structure State (K : Type) where
  pool : Side → Pool K
  /-- The events that have fired. -/
  fired : Finset Event

section System

variable {K : Type}

/-- One side's allocator replaced. -/
def State.set (s : State K) (side : Side) (a : Pool K) : State K :=
  { s with pool := Function.update s.pool side a }

/-- The peer of a side. -/
def Setup.peer (σ : Setup) (s : State K) (side : Side) : Option (Config × Pool K) :=
  if σ.bound then some (σ.config side.other, s.pool side.other) else none

/-- Nothing allocated on either side. -/
def Setup.start (σ : Setup) (kv : Side → ℤ → K) : State K where
  pool side := clear (σ.config side) (kv side)
  fired := ∅

/-! ### Allocating -/

/-- The shortfall check of the allocations: when there is not enough room, one urgent
flush of the peer, and then `_flush_peer_for_alloc` looks again. -/
def ensureRoom (σ : Setup) (s : State K) (side : Side) (needTokens : ℤ) (ans : Answers) :
    Except MultiEndedError (Bool × State K) :=
  if needTokens > availableSize (σ.config side) (s.pool side) (σ.peer s side) then
    if (σ.config side).lazyCompaction && σ.bound then do
      let q ← flush (σ.config side.other) (s.pool side.other) true ans
      let s' := s.set side.other q
      .ok (decide (needTokens ≤ availableSize (σ.config side) (s'.pool side) (σ.peer s' side)), s')
    else .ok (false, s)
  else .ok (true, s)

/-- The end of `alloc`: ids are taken off the list, bound, and put back on a failure. -/
def takeIds (σ : Setup) (s : State K) (side : Side) (numPages : ℕ) :
    Option (List ℤ) × State K :=
  let a := s.pool side
  let vPages := a.freeVirtualIds.take numPages
  let rest := a.freeVirtualIds.drop numPages
  match allocBind (σ.config side) { a with freeVirtualIds := rest } (σ.peer s side) vPages
      numPages with
  | none => (none, s.set side { a with freeVirtualIds := vPages ++ rest })
  | some a' => (some (tokenIds (σ.config side) vPages), s.set side a')

/-- `alloc`. -/
def alloc (σ : Setup) (s : State K) (side : Side) (needSize : ℤ) (ans : Answers) :
    Except MultiEndedError (Option (List ℤ) × State K) :=
  if ¬(σ.config side).isIdOwner then .error .notIdOwner
  else if needSize ≤ 0 then .ok (some [], s)
  else if needSize % (σ.config side).pageSize ≠ 0 then .error (.notPageMultiple needSize)
  else do
    let r ← ensureRoom σ s side needSize ans
    .ok (if r.1 then takeIds σ r.2 side (needSize / (σ.config side).pageSize).toNat
      else (none, r.2))

/-- The end of `alloc_extend` and `alloc_decode`: ids are bound and then taken off the
list. The kernels that spread the pages over the requests only read. -/
def bindIds (σ : Setup) (s : State K) (side : Side) (numNewPages : ℕ) :
    Option (List ℤ) × State K :=
  let a := s.pool side
  let vPages := a.freeVirtualIds.take numNewPages
  match (if 0 < numNewPages then allocBind (σ.config side) a (σ.peer s side) vPages numNewPages
      else some a) with
  | none => (none, s)
  | some a' =>
    (some vPages, s.set side { a' with freeVirtualIds := a'.freeVirtualIds.drop numNewPages })

/-- What `alloc_extend` and `alloc_decode` have in common. -/
def allocPages (σ : Setup) (s : State K) (side : Side) (numNewPages : ℤ) (ans : Answers) :
    Except MultiEndedError (Option (List ℤ) × State K) :=
  if ¬(σ.config side).isIdOwner then .error .notIdOwner
  else if numNewPages > (s.pool side).freeVirtualIds.length then .ok (none, s)
  else do
    let r ← ensureRoom σ s side (numNewPages * (σ.config side).pageSize) ans
    .ok (if r.1 then bindIds σ r.2 side numNewPages.toNat else (none, r.2))

/-- `get_num_new_pages`, for the prefix and sequence length of each request. -/
def getNumNewPages (pageSize : ℤ) (lens : List (ℤ × ℤ)) : ℤ :=
  (lens.map fun l => (l.2 + pageSize - 1) / pageSize - (l.1 + pageSize - 1) / pageSize).sum

/-- `get_num_new_pages` with `decode`, for the sequence length of each request. -/
def getNumNewPagesDecode (pageSize : ℤ) (seqLens : List ℤ) : ℤ :=
  (seqLens.filter fun l => l % pageSize = 1).length

/-- `alloc_extend`; the number of pages may come with the call. -/
def allocExtend (σ : Setup) (s : State K) (side : Side) (lens : List (ℤ × ℤ))
    (numNewPages : Option ℤ) (ans : Answers) :
    Except MultiEndedError (Option (List ℤ) × State K) :=
  allocPages σ s side (numNewPages.getD (getNumNewPages (σ.config side).pageSize lens)) ans

/-- `alloc_decode`. -/
def allocDecode (σ : Setup) (s : State K) (side : Side) (seqLens : List ℤ) (ans : Answers) :
    Except MultiEndedError (Option (List ℤ) × State K) :=
  allocPages σ s side (getNumNewPagesDecode (σ.config side).pageSize seqLens) ans

/-- `alloc_with_virtual`, on the side that owns no ids. -/
def allocWithVirtual (σ : Setup) (s : State K) (side : Side) (vPages : List ℤ) :
    Except MultiEndedError (State K) :=
  if vPages = [] then .ok s
  else match allocBind (σ.config side) (s.pool side) (σ.peer s side) vPages vPages.length with
    | none => .error .outOfPhysicalRoom
    | some a' => .ok (s.set side a')

/-! ### Operations -/

/-- What may be asked of the two allocators. -/
inductive Op (K : Type)
  | alloc (side : Side) (needSize : ℤ) (ans : Answers)
  | allocExtend (side : Side) (lens : List (ℤ × ℤ)) (numNewPages : Option ℤ) (ans : Answers)
  | allocDecode (side : Side) (seqLens : List ℤ) (ans : Answers)
  | allocWithVirtual (side : Side) (vPages : List ℤ)
  | free (side : Side) (ids : List ℤ)
  | flush (side : Side) (urgent : Bool) (ans : Answers)
  | flushOpportunistic (side : Side) (ans : Answers)
  /-- `maybe_drain_pending_reuse`. -/
  | drain (side : Side)
  /-- `set_latest_forward_done_event`. -/
  | setLatest (side : Side) (event : Option Event)
  /-- `set_inflight_forward`. -/
  | setInflight (side : Side) (event : Event) (tokens : List ℤ)
  /-- An event fires. -/
  | fire (event : Event)
  /-- A forward writes into a sub-pool. -/
  | write (side : Side) (kv : ℤ → K)

/-- `set_inflight_forward`. -/
def setInflightForward (c : Config) (a : Pool K) (event : Event) (tokens : List ℤ) : Pool K :=
  if ¬c.lazyCompaction then a
  else if tokens = [] then { a with inflightForward := none }
  else { a with inflightForward := some (event, tokens) }

/-- The events fired while an operation asked about them. -/
def State.fires (s : State K) (ans : Answers) : State K :=
  { s with fired := s.fired ∪ ans.commit }

/-- One operation. -/
def step (σ : Setup) (s : State K) : Op K → Except MultiEndedError (State K)
  | .alloc side needSize ans => do
    let r ← alloc σ s side needSize ans
    .ok (r.2.fires ans)
  | .allocExtend side lens numNewPages ans => do
    let r ← allocExtend σ s side lens numNewPages ans
    .ok (r.2.fires ans)
  | .allocDecode side seqLens ans => do
    let r ← allocDecode σ s side seqLens ans
    .ok (r.2.fires ans)
  | .allocWithVirtual side vPages => allocWithVirtual σ s side vPages
  | .free side ids => do
    let a ← free (σ.config side) (s.pool side) ids
    .ok (s.set side a)
  | .flush side urgent ans => do
    let a ← flush (σ.config side) (s.pool side) urgent ans
    .ok ((s.set side a).fires ans)
  | .flushOpportunistic side ans => do
    let a ← flushOpportunistic (σ.config side) (s.pool side) ans
    .ok ((s.set side a).fires ans)
  | .drain side => .ok (s.set side (maybeDrainPendingReuse (σ.config side) (s.pool side) s.fired))
  | .setLatest side event => .ok (s.set side { s.pool side with latestForwardDoneEvent := event })
  | .setInflight side event tokens =>
    .ok (s.set side (setInflightForward (σ.config side) (s.pool side) event tokens))
  | .fire event => .ok { s with fired := insert event s.fired }
  | .write side kv => .ok (s.set side { s.pool side with kv := kv })

/-- Events only ever fire, and an operation asks about them in this order. -/
def Answers.Since (ans : Answers) (fired : Finset Event) : Prop :=
  fired ⊆ ans.drain ∧ ans.drain ⊆ ans.inflight ∧ ans.inflight ⊆ ans.commit

/-- **What the callers promise**: ids that are freed are allocated and are freed once, a
sequence is not shorter than its prefix, and a side that owns no ids is given some that it
does not have. -/
def Permitted (σ : Setup) (s : State K) : Op K → Prop
  | .alloc _ _ ans => ans.Since s.fired
  | .allocExtend side lens numNewPages ans => ans.Since s.fired ∧
      0 ≤ numNewPages.getD (getNumNewPages (σ.config side).pageSize lens)
  | .allocDecode _ _ ans => ans.Since s.fired
  | .allocWithVirtual side vPages => (σ.config side).isIdOwner = false ∧ vPages.Nodup ∧
      ∀ v ∈ vPages, 0 < v ∧ ¬Mapped (s.pool side) v
  | .free side ids => ids.Nodup ∧
      ∀ t ∈ ids, Mapped (s.pool side) (t / (σ.config side).pageSize)
  | .flush _ _ ans => ans.Since s.fired
  | .flushOpportunistic _ ans => ans.Since s.fired
  | .drain _ => True
  | .setLatest _ _ => True
  | .setInflight _ _ _ => True
  | .fire _ => True
  | .write _ _ => True

/-- The two allocators, as a system of operations. -/
def system (K : Type) (σ : Setup) : OpSystem (State K) (Op K) MultiEndedError where
  step := step σ
  Permitted := Permitted σ

/-- **The condition** under which everything stays in order: a flush that is not urgent does
not overwrite what is parked under an event. -/
def KeepsParked (σ : Setup) (s : State K) : Op K → Prop
  | .flush side false ans => ¬Overwrites (σ.config side) (s.pool side) ans
  | .flushOpportunistic side ans => ¬Overwrites (σ.config side) (s.pool side) ans
  | _ => True

/-! ### Computing runs -/

instance (a : Pool K) (v : ℤ) : Decidable (Mapped a v) :=
  inferInstanceAs (Decidable (_ ∧ _))

instance (ans : Answers) (fired : Finset Event) : Decidable (ans.Since fired) :=
  inferInstanceAs (Decidable (_ ∧ _))

instance (c : Config) (wm p : ℤ) : Decidable (c.InBand wm p) := by
  unfold Config.InBand
  split <;> infer_instance

instance (c : Config) (a : Pool K) (ans : Answers) : Decidable (Overwrites c a ans) :=
  inferInstanceAs (Decidable (_ ∧ _))

instance (σ : Setup) (s : State K) (op : Op K) : Decidable (Permitted σ s op) :=
  match op with
  | .alloc _ _ ans => inferInstanceAs (Decidable (ans.Since s.fired))
  | .allocExtend _ _ _ _ => inferInstanceAs (Decidable (_ ∧ _))
  | .allocDecode _ _ ans => inferInstanceAs (Decidable (ans.Since s.fired))
  | .allocWithVirtual _ _ => inferInstanceAs (Decidable (_ ∧ _))
  | .free _ _ => inferInstanceAs (Decidable (_ ∧ _))
  | .flush _ _ ans => inferInstanceAs (Decidable (ans.Since s.fired))
  | .flushOpportunistic _ ans => inferInstanceAs (Decidable (ans.Since s.fired))
  | .drain _ => isTrue trivial
  | .setLatest _ _ => isTrue trivial
  | .setInflight _ _ _ => isTrue trivial
  | .fire _ => isTrue trivial
  | .write _ _ => isTrue trivial

instance (σ : Setup) (s : State K) (op : Op K) : Decidable ((system K σ).Permitted s op) :=
  inferInstanceAs (Decidable (Permitted σ s op))

instance (σ : Setup) (s : State K) (op : Op K) : Decidable (KeepsParked σ s op) :=
  match op with
  | .flush side false ans =>
    inferInstanceAs (Decidable (¬Overwrites (σ.config side) (s.pool side) ans))
  | .flush _ true _ => isTrue trivial
  | .flushOpportunistic side ans =>
    inferInstanceAs (Decidable (¬Overwrites (σ.config side) (s.pool side) ans))
  | .alloc _ _ _ => isTrue trivial
  | .allocExtend _ _ _ _ => isTrue trivial
  | .allocDecode _ _ _ => isTrue trivial
  | .allocWithVirtual _ _ => isTrue trivial
  | .free _ _ => isTrue trivial
  | .drain _ => isTrue trivial
  | .setLatest _ _ => isTrue trivial
  | .setInflight _ _ _ => isTrue trivial
  | .fire _ => isTrue trivial
  | .write _ _ => isTrue trivial

end System

end MultiEnded

end HtSglang
