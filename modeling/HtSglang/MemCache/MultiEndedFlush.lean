import HtSglang.MemCache.MultiEnded

/-!
# Lazy compaction

`_flush` of the multi-ended allocator: return the parked pages that may be returned, take
the watermark back over the holes next to it, then walk with two pointers – the live
page nearest to the watermark on one side, the hole furthest from it on the other – and
move the one into the other until they cross
(`mem_cache/multi_ended_allocator.py`, `_flush`, `_topmost_survivor`,
`_absorb_boundary_holes`, `_commit_move_batch`).

Forward events fire while a flush runs. Whatever it asks about an event is therefore
answered from the outside, once when it returns parked pages, once when it looks at the
forward under way, and once when it decides where the vacated pages go
(`HtSglang.MultiEnded.Answers`).
-/

namespace HtSglang

namespace MultiEnded

/-- The events that had fired when a flush asked: while returning parked pages, about the
forward under way, and after the copy. -/
structure Answers where
  /-- In `_drain_pending_reuse`. -/
  drain : Finset Event
  /-- In `_materialize_inflight_write_set`. -/
  inflight : Finset Event
  /-- In `_commit_move_batch`. -/
  commit : Finset Event

section Flush

variable {K : Type}

/-! ### Parked pages -/

/-- `_drain_pending_reuse`: the pages of the events that have fired – of all events when
it is urgent – go back to the free list. -/
def drainPendingReuse (c : Config) (a : Pool K) (urgent : Bool) (fired : Finset Event) : Pool K :=
  let ready := a.pendingReuse.filter fun e => e.1 ∈ fired ∨ urgent
  { a with
    pendingReuse := a.pendingReuse.filter fun e => ¬(e.1 ∈ fired ∨ urgent)
    pendingReusePagesCpu := a.pendingReusePagesCpu \ (ready.flatMap Prod.snd).toFinset
    freePhysPages :=
      if ready = [] then a.freePhysPages
      else mergeFree c (a.freePhysPages ++ ready.flatMap Prod.snd) }

/-- `maybe_drain_pending_reuse`. -/
def maybeDrainPendingReuse (c : Config) (a : Pool K) (fired : Finset Event) : Pool K :=
  if ¬c.lazyCompaction then a
  else if a.pendingReuse = [] then a
  else drainPendingReuse c a false fired

/-! ### The walk -/

/-- The loop of `_topmost_survivor` from page `p`, with the holes that are still ahead of
the cursor, nearest to the watermark first. The cursor is moved past the holes it has
left behind, and past `p` itself when `p` is a hole. -/
def survivorFrom (c : Config) (parked : Finset ℤ) : ℕ → ℤ → List ℤ → Option ℤ × List ℤ
  | 0, _, ahead => (none, ahead)
  | n + 1, p, ahead =>
    let ahead := ahead.dropWhile fun h => c.above p h
    if ahead.head? = some p then survivorFrom c parked n (c.toward p) ahead.tail
    else if p ∈ parked then survivorFrom c parked n (c.toward p) ahead
    else (some p, ahead)

/-- `_topmost_survivor`. -/
def topmostSurvivor (c : Config) (a : Pool K) (startHint : Option ℤ) (ahead : List ℤ) :
    Option ℤ × List ℤ :=
  let p := match startHint with
    | none => c.frontier a.watermark
    | some h => if c.outside a.watermark h then c.frontier a.watermark else h
  survivorFrom c a.pendingReusePagesCpu (c.room p) p ahead

/-- How many pages of the list, from the watermark inwards, are next to the watermark. -/
def absorbCount (c : Config) : ℤ → List ℤ → ℕ
  | _, [] => 0
  | wm, h :: hs => if h = c.frontier wm then absorbCount c (c.retreat wm 1) hs + 1 else 0

/-- `_absorb_boundary_holes`: the watermark goes back over the holes next to it. -/
def absorbBoundaryHoles (c : Config) (a : Pool K) : Pool K :=
  let all := a.freePhysPages
  let n := absorbCount c a.watermark (c.fromWatermark all)
  { a with
    watermark := c.retreat a.watermark n
    freePhysPages := match c.grow with
      | .up => all.take (all.length - n)
      | .down => all.drop n }

/-- `_settle_inflight_forward`. -/
def settleInflightForward (a : Pool K) : Pool K :=
  match a.latestForwardDoneEvent with
  | some _ => { a with inflightForward := none }
  | none => a

/-- `_materialize_inflight_write_set`: the pages the forward under way writes, or nothing
when there is none or it has ended. -/
def materializeInflightWriteSet (c : Config) (a : Pool K) (fired : Finset Event) :
    Pool K × Option (Finset ℤ) :=
  match a.inflightForward with
  | none => (a, none)
  | some (event, tokens) =>
    if event ∈ fired then ({ a with inflightForward := none }, none)
    else
      let phys := tokens.map (translateKvLoc c a)
      (a, some (if c.pageSize = 1 then phys else phys.map (· / c.pageSize)).toFinset)

/-- `_commit_move_batch`: one copy and one remap; the vacated pages are returned when the
event has fired and parked under it otherwise. -/
def commitMoveBatch (c : Config) (a : Pool K) (srcs dsts vMoveds : List ℤ)
    (latestEvent : Option Event) (fired : Finset Event) (releasedFired : List ℤ) :
    Pool K × List ℤ :=
  if srcs = [] then (a, releasedFired)
  else
    let a := { a with
      kv := moveKvCache c a.kv srcs dsts
      v2p := scatter a.v2p vMoveds dsts
      p2v := scatter (scatter a.p2v dsts vMoveds) srcs (srcs.map fun _ => -1) }
    match latestEvent with
    | none => (a, releasedFired ++ srcs)
    | some event =>
      if event ∈ fired then (a, releasedFired ++ srcs)
      else
        ({ a with
          pendingReuse := Dict.set a.pendingReuse event srcs
          pendingReusePagesCpu := a.pendingReusePagesCpu ∪ srcs.toFinset }, releasedFired)

/-- The variables of the walk. -/
structure Walk (K : Type) where
  pool : Pool K
  latestEvent : Option Event
  /-- `write_set`, not known at first. -/
  writeSet : Option (Finset ℤ)
  srcs : List ℤ
  dsts : List ℤ
  vMoveds : List ℤ
  releasedFired : List ℤ
  cursor : Option ℤ
  /-- The holes ahead of the hole cursor. -/
  ahead : List ℤ
  nDstConsumed : ℕ

/-- The write set, asked for when the first survivor needs it. -/
def withWriteSet (c : Config) (ans : Answers) (w : Walk K) : Walk K :=
  match w.writeSet with
  | some _ => w
  | none =>
    let m := materializeInflightWriteSet c w.pool ans.inflight
    { w with pool := m.1, writeSet := some (m.2.getD ∅) }

/-- The urgent way out of a write race: commit, wait for the forward, go on. -/
def settleWriteRace (c : Config) (ans : Answers) (w : Walk K) : Walk K :=
  let r := commitMoveBatch c w.pool w.srcs w.dsts w.vMoveds w.latestEvent ans.commit w.releasedFired
  { w with
    pool := { r.1 with inflightForward := none }
    releasedFired := r.2
    srcs := []
    dsts := []
    vMoveds := []
    writeSet := some ∅
    latestEvent := none }

/-- The loop of `_flush`. -/
def walk (c : Config) (urgent : Bool) (ans : Answers) (holes : List ℤ) :
    ℕ → Walk K → Except MultiEndedError (Walk K)
  | 0, _ => .error .walkUnfinished
  | fuel + 1, w =>
    if ¬w.nDstConsumed < holes.length then .ok w
    else
      let r := topmostSurvivor c w.pool w.cursor w.ahead
      let w := { w with ahead := r.2 }
      match r.1 with
      | none => .ok w
      | some src =>
        let w := withWriteSet c ans w
        if src ∈ w.writeSet.getD ∅ then
          if urgent then walk c urgent ans holes fuel (settleWriteRace c ans w)
          -- not urgent: the page stays, and so does everything behind it
          else .ok w
        else
          let dst := (c.fromEnd holes).getD w.nDstConsumed 0
          -- the two pointers cross: what is left is packed
          if c.above src dst then .ok w
          else
            let vMoved := w.pool.p2v src
            if vMoved < 0 then .error (.survivorUnmapped src)
            else
              let w := { w with
                nDstConsumed := w.nDstConsumed + 1
                srcs := w.srcs ++ [src]
                dsts := w.dsts ++ [dst]
                vMoveds := w.vMoveds ++ [vMoved]
                cursor := some (c.toward src) }
              if ¬urgent ∧ c.maxMovesPerCall ≤ w.srcs.length then .ok w
              else walk c urgent ans holes fuel w

/-! ### The flush -/

/-- What a flush does before it walks: return parked pages, sort, absorb. -/
def prepareFlush (c : Config) (a : Pool K) (urgent : Bool) (ans : Answers) : Pool K :=
  let a := drainPendingReuse c a urgent ans.drain
  let a := if ¬c.sortFreeList ∧ 1 < a.freePhysPages.length
    then { a with freePhysPages := sortPages a.freePhysPages } else a
  absorbBoundaryHoles c a

/-- The walk at its start. An urgent flush with holes left waits for the forward first, and
then has no race to fear. -/
def startWalk (c : Config) (a : Pool K) (singlePassAbsorb : Bool) : Walk K where
  pool := if singlePassAbsorb then settleInflightForward a else a
  latestEvent := if singlePassAbsorb then none else a.latestForwardDoneEvent
  writeSet := if singlePassAbsorb then some ∅ else none
  srcs := []
  dsts := []
  vMoveds := []
  releasedFired := []
  cursor := none
  ahead := c.fromWatermark a.freePhysPages
  nDstConsumed := 0

/-- The flush up to the last commit: the allocator it walks, and how the walk ended. -/
def walkFlush (c : Config) (a : Pool K) (urgent : Bool) (ans : Answers) :
    Except MultiEndedError (Pool K × Walk K) := do
  let a := prepareFlush c a urgent ans
  let holes := a.freePhysPages
  let w ← walk c urgent ans holes (2 * holes.length + 2)
    (startWalk c a (urgent && decide (0 < holes.length)))
  .ok (a, w)

/-- The holes that are left when `n` were consumed: those were the first ones of a sub-pool
that grows up, and the last ones of one that grows down. -/
def remainingHoles (c : Config) (holes : List ℤ) (n : ℕ) : List ℤ := match c.grow with
  | .up => holes.drop n
  | .down => holes.take (holes.length - n)

/-- What a flush does after it walked: commit, and then either take the watermark back over
all holes at once, or cut the consumed holes off the list and merge the vacated pages. -/
def finishFlush (c : Config) (urgent : Bool) (ans : Answers) (prepared : Pool K) (w : Walk K) :
    Pool K :=
  let holes := prepared.freePhysPages
  let r := commitMoveBatch c w.pool w.srcs w.dsts w.vMoveds w.latestEvent ans.commit w.releasedFired
  if urgent && decide (0 < holes.length) then
    { r.1 with
      watermark := c.retreat prepared.watermark holes.length
      freePhysPages := [] }
  else
    let free := remainingHoles c holes w.nDstConsumed
    { r.1 with
      freePhysPages := if r.2 = [] then free else mergeFree c (free ++ r.2) }

/-- `_flush`. -/
def flush (c : Config) (a : Pool K) (urgent : Bool) (ans : Answers) :
    Except MultiEndedError (Pool K) :=
  if ¬c.lazyCompaction then .ok a
  else do
    let r ← walkFlush c a urgent ans
    .ok (finishFlush c urgent ans r.1 r.2)

/-- `flush_opportunistic`. -/
def flushOpportunistic (c : Config) (a : Pool K) (ans : Answers) :
    Except MultiEndedError (Pool K) :=
  if ¬c.lazyCompaction then .ok a
  else if a.freePhysPages = [] ∧ a.pendingReuse = [] then .ok a
  else flush c a false ans

end Flush

end MultiEnded

end HtSglang
