import HtSglang.MemCache.RadixConservation

/-!
# Preallocation on the decode side

A decode server takes slots for a request before its KV arrives from the prefill server.
`pop_preallocated` goes through the queue and admits requests as long as a budget of tokens allows;
`resume_retracted_reqs` does the same for requests that had to give their slots back. The budget is
the free tokens and what the tree could evict, less a reserve for every request that will go on
decoding and less all that the retracted requests need
(`HtSglang.Disaggregation.Prealloc.allocatableTokenBudgets`). Matching a prompt locks nodes that
were counted as evictable, so the first loop reads the budget again after the match, and after every
admission; the second one subtracts.

What is kept is that the tree and the pool are sound (`HtSglang.Disaggregation.Prealloc.Backed`),
and what is counted is what a state has to spare (`HtSglang.Disaggregation.Prealloc.spare`). An
eviction does not change it, a preallocation takes from it what was estimated, and a request that is
declined leaves the tree as it found it (`HtSglang.Disaggregation.Prealloc.Undisturbed`). The main
result is `HtSglang.Disaggregation.Prealloc.prealloc_never_overcommits`.

There is no sliding window pool, no hisparse and no host cache here, the queue comes in the order in
which it is gone through, and no request holds a row of `req_to_token` before it is admitted.
-/

namespace HtSglang

namespace Disaggregation

namespace Prealloc

open Radix (Cache NodeId RadixKey RadixError Layout Inv Stocked treePages rootNode)

open Radix.Requests (Setup)

/-! ### The queue and its budget -/

/-- `Req`, as far as preallocation reads it. -/
structure Req where
  rid : String
  originInputIds : List ℤ
  outputIds : List ℤ
  extraKey : Option String
  /-- `sampling_params.max_new_tokens`. -/
  maxNewTokens : ℕ
  pdRebootstrapInProgress : Bool
deriving DecidableEq

/-- `DecodeRequest`. -/
structure DecodeRequest where
  req : Req
  waitingForInput : Bool
  isRebootstrap : Bool
  /-- `finished_reason` is a `FINISH_ABORT`. -/
  aborted : Bool
deriving DecidableEq

/-- The scheduler around the queue. -/
structure Scheduler where
  /-- The cache and the pool. -/
  setup : Setup
  /-- `disaggregation_decode_enable_radix_cache`. -/
  enableRadixCache : Bool
  numReservedDecodeTokens : ℕ
  clipMaxNewToken : ℕ
  /-- The eviction strategy. -/
  strategy : Cache → List NodeId → ℕ
  /-- `running_batch.reqs`. -/
  running : List Req
  /-- The length of the transfer queue. -/
  transferring : ℕ
  /-- The length of the waiting queue. -/
  waiting : ℕ
  /-- The number of requests in the last batch, if that was a prebuilt one. -/
  prebuilt : ℕ
  /-- `retracted_queue`. -/
  retracted : List Req

/-- What preallocation takes from. -/
structure State where
  /-- `token_to_kv_pool_allocator`. -/
  allocator : Pool.Allocator
  /-- `tree_cache`. -/
  cache : Cache
  /-- `req_to_token_pool.available_size()`. -/
  reqSlots : ℕ
  /-- `req_to_metadata_buffer_idx_allocator.available_size()`. -/
  metadataBuffers : ℕ

/-- What preallocation can fail with. -/
inductive PreallocError
  /-- `AssertionError`: "req_pool_indices is full! There is a bug in memory estimation." -/
  | reqPoolFull
  /-- `AssertionError`: "KV cache is full! Bug in memory estimation." -/
  | kvCacheFull
  /-- `AssertionError`: no metadata buffer. -/
  | noMetadataBuffer
  /-- What the cache raised. -/
  | cache (e : RadixError)
deriving DecidableEq

/-- `_rebootstrap_prefill_len`. -/
def rebootstrapPrefillLen (r : Req) : ℕ :=
  if r.pdRebootstrapInProgress then r.originInputIds.length + r.outputIds.length
  else r.originInputIds.length

/-- `_pre_alloc_fill_len`. -/
def preAllocFillLen (r : Req) : ℕ :=
  if r.pdRebootstrapInProgress then r.originInputIds.length + r.outputIds.length
  else r.originInputIds.length + (r.outputIds.length - 1)

section Operations

variable (σ : Scheduler)

/-- `page_size`. -/
def Scheduler.pageSize : ℕ := σ.setup.cache.pageSize

/-- `_prealloc_required_tokens`, of the full pool. -/
def preallocRequiredTokens (r : Req) : ℤ := preAllocFillLen r + σ.numReservedDecodeTokens

/-- `available_size` of the allocator. -/
def availableSize (s : State) : ℤ := s.allocator.pages.length * σ.pageSize

/-- **What there is to spare**: free tokens, and what the tree could evict. -/
def spare (s : State) : ℤ :=
  availableSize σ s + if σ.enableRadixCache then s.cache.evictableSize else 0

/-- `_need_space_for_single_req`. -/
def needSpaceForSingleReq : Option ℤ → ℤ
  | none => 0
  | some retractableTokens =>
    (σ.running.map fun x =>
      ((min x.maxNewTokens σ.clipMaxNewToken + x.originInputIds.length : ℕ) : ℤ)
        - retractableTokens).max?.getD 0

/-- `_active_req_count`. -/
def activeReqCount (extraReservedReqs : ℕ) : ℕ :=
  σ.running.length + σ.transferring + σ.waiting + extraReservedReqs

/-- `_active_reserved_tokens`. -/
def activeReservedTokens (extraReservedReqs : ℕ) : ℤ :=
  σ.numReservedDecodeTokens * activeReqCount σ extraReservedReqs

/-- All that the retracted requests need. -/
def retractedTokens : ℤ := (σ.retracted.map (preallocRequiredTokens σ)).sum

/-- `_allocatable_token_budgets`. -/
def allocatableTokenBudgets (s : State) (retractableTokens : Option ℤ) (countRetracted : Bool)
    (extraReservedReqs : ℕ) : ℤ :=
  let allocatable := spare σ s
    - max (activeReservedTokens σ extraReservedReqs) (needSpaceForSingleReq σ retractableTokens)
  let allocatable := allocatable - (σ.numReservedDecodeTokens * σ.prebuilt : ℕ)
  if countRetracted then allocatable - retractedTokens σ else allocatable

/-- `_required_alloc_tokens`. -/
def requiredAllocTokens (fillLen prefixLen : ℕ) : ℤ :=
  if σ.pageSize = 1 then (fillLen : ℤ) - prefixLen
  else ((pageCount σ.pageSize fillLen : ℤ) - pageCount σ.pageSize prefixLen) * σ.pageSize

/-! ### Taking slots -/

/-- What the cache raises is raised. -/
def lift {α : Type} (x : Except RadixError α) : Except PreallocError α := x.mapError .cache

/-- The state after an eviction: what was in the nodes is freed. -/
def evicted (s : State) (e : Radix.Eviction) : State :=
  { s with
    cache := e.cache
    allocator := e.freed.foldl (Pool.free σ.setup.pool) s.allocator }

/-- Cached entries are evicted when there are too few free pages. -/
def makeRoom (s : State) (required : ℤ) : Except PreallocError State :=
  if σ.enableRadixCache ∧ availableSize σ s < required then do
    let e ← lift (Radix.evict σ.setup.cache s.cache σ.strategy (required - availableSize σ s).toNat)
    .ok (evicted σ s e)
  else .ok s

/-- `_pre_alloc`: the state, and the new slots. -/
def preAlloc (s : State) (r : Req) (prefixIndices : List ℤ) :
    Except PreallocError (State × List ℤ) :=
  if s.reqSlots = 0 then .error .reqPoolFull
  else do
    let fillLen := preAllocFillLen r
    let s ← makeRoom σ { s with reqSlots := s.reqSlots - 1 }
      (requiredAllocTokens σ fillLen prefixIndices.length)
    match Pool.allocForExtend σ.setup.pool s.allocator
      [{ prefixLen := prefixIndices.length, seqLen := fillLen
         lastLoc := prefixIndices.getLastD (-1) }] with
    | none => .error .kvCacheFull
    | some (allocator, kvLoc) => .ok ({ s with allocator := allocator }, kvLoc.flatten)

/-- `_match_prefix_and_lock`: the state, the slots of the prefix and the node they end at. -/
def matchPrefixAndLock (s : State) (r : Req) : Except PreallocError (State × List ℤ × NodeId) := do
  let m ← lift (Radix.matchPrefix σ.setup.cache s.cache
    { tokenIds := r.originInputIds, extraKey := r.extraKey, isBigram := false, limit := none })
  let c ← lift (Radix.incLockRef m.1 m.2.2)
  .ok ({ s with cache := c.1 }, m.2.1, m.2.2)

/-- The lock of a request that is declined is undone, if it matched anything. -/
def undoLock (s : State) (prefixLen : ℕ) (lastNode : NodeId) : Except PreallocError State :=
  if 0 < prefixLen then do
    let c ← lift (Radix.decLockRef s.cache lastNode)
    .ok { s with cache := c.1 }
  else .ok s

/-! ### Going through the queue -/

/-- A request that was admitted. -/
structure Admitted where
  request : DecodeRequest
  prefixIndices : List ℤ
  /-- `last_node`, where the tree was used. -/
  lastNode : Option NodeId
  /-- The slots that were allocated. -/
  kvLoc : List ℤ

/-- What becomes of a request of the queue. -/
inductive Verdict
  /-- It does not fit, and the loop ends. -/
  | declined (s : State)
  /-- It has its slots. -/
  | admitted (s : State) (a : Admitted)

/-- The projected memory cannot be met. -/
def DoesNotFit (r : Req) (required : ℤ) (prefixLen : ℕ) (retractableTokens budget : ℤ) : Prop :=
  budget < max (required + σ.numReservedDecodeTokens)
      ((rebootstrapPrefillLen r : ℤ) - prefixLen + (min r.maxNewTokens σ.clipMaxNewToken : ℕ)
        - retractableTokens) ∨
    budget < required + σ.numReservedDecodeTokens

instance (r : Req) (required : ℤ) (prefixLen : ℕ) (retractableTokens budget : ℤ) :
    Decidable (DoesNotFit σ r required prefixLen retractableTokens budget) :=
  inferInstanceAs (Decidable (_ ∨ _))

/-- The slots and the metadata buffer of a request that fits. -/
def admitRequest (s : State) (d : DecodeRequest) (prefixIndices : List ℤ)
    (lastNode : Option NodeId) : Except PreallocError Verdict := do
  let (s, kvLoc) ← preAlloc σ s d.req prefixIndices
  if s.metadataBuffers = 0 then .error .noMetadataBuffer
  else
    .ok (.admitted { s with metadataBuffers := s.metadataBuffers - 1 }
      { request := d, prefixIndices := prefixIndices, lastNode := lastNode, kvLoc := kvLoc })

/-- One round of the loop, for a request that could be admitted. -/
def consider (s : State) (retractableTokens budget : ℤ) (preallocated : ℕ) (d : DecodeRequest) :
    Except PreallocError Verdict :=
  if σ.enableRadixCache ∧ d.isRebootstrap = false then do
    let (s, prefixIndices, lastNode) ← matchPrefixAndLock σ s d.req
    let required := requiredAllocTokens σ (preAllocFillLen d.req) prefixIndices.length
    -- the match may have locked what was evictable
    let budget := allocatableTokenBudgets σ s (some retractableTokens) true preallocated
    if DoesNotFit σ d.req required prefixIndices.length retractableTokens budget then do
      let s ← undoLock s prefixIndices.length lastNode
      .ok (.declined s)
    else admitRequest σ s d prefixIndices (some lastNode)
  else
    if DoesNotFit σ d.req (preAllocFillLen d.req) 0 retractableTokens budget then .ok (.declined s)
    else admitRequest σ s d [] none

/-- `rids_to_check` leaves the request out. -/
def unchecked (ridsToCheck : Option (List String)) (r : Req) : Bool :=
  ridsToCheck.any fun rids => !rids.contains r.rid

/-- The requests of the queue that the loop leaves out. -/
def skipped (ridsToCheck : Option (List String)) (d : DecodeRequest) : Bool :=
  unchecked ridsToCheck d.req || d.aborted || !d.waitingForInput

/-- The loop of `pop_preallocated`. -/
def preallocLoop (ridsToCheck : Option (List String)) (retractableTokens : ℤ) :
    List DecodeRequest → State → ℤ → List Admitted → Except PreallocError (State × List Admitted)
  | [], s, _, preallocated => .ok (s, preallocated)
  | d :: queue, s, budget, preallocated =>
    if skipped ridsToCheck d then
      preallocLoop ridsToCheck retractableTokens queue s budget preallocated
    else if s.reqSlots = 0 then .ok (s, preallocated)
    else if s.metadataBuffers = 0 then .ok (s, preallocated)
    else do
      match ← consider σ s retractableTokens budget preallocated.length d with
      | .declined s => .ok (s, preallocated)
      | .admitted s a =>
        let budget := allocatableTokenBudgets σ s (some retractableTokens) true
          (preallocated.length + 1)
        preallocLoop ridsToCheck retractableTokens queue s budget (preallocated ++ [a])

/-- `retractable_tokens`. -/
def retractableTokens : ℤ :=
  ((σ.running.map fun r => r.originInputIds.length + r.outputIds.length).sum : ℕ)

/-- `pop_preallocated`: the state, the requests that were admitted and those that failed. -/
def popPreallocated (s : State) (ridsToCheck : Option (List String)) (queue : List DecodeRequest) :
    Except PreallocError (State × List Admitted × List DecodeRequest) := do
  let failed := queue.filter fun d => !unchecked ridsToCheck d.req && d.aborted
  let budget := allocatableTokenBudgets σ s (some (retractableTokens σ)) true 0
  let (s, preallocated) ← preallocLoop σ ridsToCheck (retractableTokens σ) queue s budget []
  .ok (s, preallocated, failed)

/-- The loop of `resume_retracted_reqs`. -/
def resumeLoop (ridsToCheck : Option (List String)) :
    List Req → State → ℤ → List (Req × List ℤ) → Except PreallocError (State × List (Req × List ℤ))
  | [], s, _, resumed => .ok (s, resumed)
  | r :: queue, s, budget, resumed =>
    if unchecked ridsToCheck r then resumeLoop ridsToCheck queue s budget resumed
    else if s.reqSlots = 0 then .ok (s, resumed)
    else if budget < preallocRequiredTokens σ r then .ok (s, resumed)
    else do
      let (s, kvLoc) ← preAlloc σ s r []
      resumeLoop ridsToCheck queue s (budget - preallocRequiredTokens σ r)
        (resumed ++ [(r, kvLoc)])

/-- `resume_retracted_reqs`: the state, and the requests that were resumed, with their slots. -/
def resumeRetractedReqs (s : State) (ridsToCheck : Option (List String)) :
    Except PreallocError (State × List (Req × List ℤ)) :=
  resumeLoop σ ridsToCheck σ.retracted s (allocatableTokenBudgets σ s none false 0) []

end Operations

variable {σ : Scheduler} {s s' : State} {l l' : Layout} {locks : List NodeId}

/-! ### Sound states -/

/-- **The tree and the pool are sound**: the tree has whole pages and none of them twice. -/
structure Backed (σ : Scheduler) (s : State) (l : Layout) (locks : List NodeId) : Prop where
  inv : Inv σ.setup.cache s.cache l locks
  stocked : Stocked σ.setup.cache s.cache l
  nodup : (treePages σ.setup.cache s.cache l).Nodup
  tidy : s.allocator.Tidy σ.setup.pool

/-- The states that requests come to are sound. -/
theorem Backed.of_conserving {t : Radix.Requests.State} (h : Radix.Requests.Conserving σ.setup t l)
    (htidy : t.allocator.Tidy σ.setup.pool) (reqSlots metadataBuffers : ℕ) :
    Backed σ ⟨t.allocator, t.cache, reqSlots, metadataBuffers⟩ l
      (Radix.Requests.lockedNodes t.reqs) := by
  refine ⟨h.inv, h.stocked, ?_, htidy⟩
  refine Multiset.nodup_of_le ?_ (Radix.Requests.nodup_allPages σ.setup)
  rw [← h.conserved, add_right_comm]
  exact Multiset.le_add_left _ _

theorem Backed.perm {locks' : List NodeId} (h : Backed σ s l locks) (hp : locks.Perm locks') :
    Backed σ s l locks' :=
  ⟨h.inv.perm hp, h.stocked, h.nodup, h.tidy⟩

/-- Only the counts of the rows and of the metadata buffers change. -/
theorem Backed.of_eq (h : Backed σ s l locks) (hc : s'.cache = s.cache)
    (ha : s'.allocator = s.allocator) : Backed σ s' l locks := by
  refine ⟨?_, ?_, ?_, ?_⟩
  · rw [hc]
    exact h.inv
  · rw [hc]
    exact h.stocked
  · rw [hc]
    exact h.nodup
  · rw [ha]
    exact h.tidy

/-! ### Taking slots -/

/-- The pages that are estimated are those that are taken. -/
theorem requiredAllocTokens_eq (σ : Scheduler) {fillLen prefixLen : ℕ}
    (hle : prefixLen ≤ fillLen) (lastLoc : ℤ) :
    requiredAllocTokens σ fillLen prefixLen
      = (({ prefixLen := prefixLen, seqLen := fillLen, lastLoc := lastLoc } :
          Pool.Extend).numNewPages σ.setup.pool * σ.pageSize : ℕ) := by
  have hmono : pageCount σ.pageSize prefixLen ≤ pageCount σ.pageSize fillLen :=
    Nat.div_le_div_right (by omega)
  change _ = (((pageCount σ.pageSize fillLen - pageCount σ.pageSize prefixLen)
    * σ.pageSize : ℕ) : ℤ)
  rw [requiredAllocTokens]
  split
  · next hone =>
    rw [hone, Pool.pageCount_one, Pool.pageCount_one]
    omega
  · rw [Nat.cast_mul, Nat.cast_sub hmono]

/-- Rounding up to pages adds less than a page. -/
theorem requiredAllocTokens_zero_lt (σ : Scheduler) (fillLen : ℕ) :
    requiredAllocTokens σ fillLen 0 < fillLen + σ.pageSize := by
  have hpos : 0 < σ.pageSize := σ.setup.cache.pos
  rw [requiredAllocTokens]
  split
  · omega
  · rw [pageCount_zero hpos, Nat.cast_zero, sub_zero]
    rcases Nat.eq_zero_or_pos fillLen with rfl | hfill
    · rw [pageCount_zero hpos]
      omega
    · exact_mod_cast pageCount_mul_lt hpos hfill

/-- What is evicted is free afterwards. -/
theorem Backed.length_freed (h : Backed σ s l locks) {e : Radix.Eviction}
    (he : Radix.Evicting σ.setup.cache s.cache l locks e) :
    (e.freed.foldl (Pool.free σ.setup.pool) s.allocator).pages.length * σ.pageSize
      = s.allocator.pages.length * σ.pageSize + e.numEvicted := by
  have hst := h.stocked.evicting he
  have hnodup : (e.freed.map fun v => (pagesOf σ.pageSize v : Multiset ℤ)).sum.Nodup :=
    Multiset.nodup_of_le (Multiset.le_add_left _ _) (hst.2 ▸ h.nodup)
  have hpaged : ∀ v ∈ e.freed, ∃ pages, Paged σ.pageSize v pages := by
    intro v hv
    rw [he.freed] at hv
    obtain ⟨n, hn, rfl⟩ := List.mem_map.mp hv
    obtain ⟨hn, hnr, -⟩ := he.removed_mem n hn
    exact h.stocked.paged n hn hnr
  have hpages := congrArg Multiset.card
    (Pool.coe_pages_foldl_free σ.setup.pool hpaged hnodup s.allocator)
  rw [Multiset.card_add, Multiset.coe_card, Multiset.coe_card] at hpages
  rw [hpages, Nat.add_mul, Nat.add_comm]
  exact congrArg _ (h.stocked.card_freed h.inv.shape he)

/-- **Evicting takes nothing from what there is to spare**, and makes as much of it free as is
required. -/
theorem Backed.makeRoom (h : Backed σ s l locks) {required : ℤ} (hle : required ≤ spare σ s) :
    ∃ s' l', makeRoom σ s required = .ok s' ∧ Backed σ s' l' locks ∧ spare σ s' = spare σ s ∧
      required ≤ availableSize σ s' ∧ s'.reqSlots = s.reqSlots ∧
      s'.metadataBuffers = s.metadataBuffers := by
  rw [Prealloc.makeRoom]
  split
  · next hevict =>
    obtain ⟨hon, hlt⟩ := hevict
    rw [spare, if_pos hon] at hle
    obtain ⟨e, hok, hinv, he, hstop⟩ := h.inv.evict σ.strategy
      (required - availableSize σ s).toNat
    have hst := h.stocked.evicting he
    have hsize := he.evictableSize_add h.inv.books h.stocked.filled
    have henough := h.inv.le_numEvicted h.stocked.filled he hinv hstop (by omega)
    have havail : availableSize σ (evicted σ s e) = availableSize σ s + e.numEvicted := by
      rw [availableSize, availableSize]
      exact_mod_cast h.length_freed he
    have hnodup := Multiset.nodup_of_le (Multiset.le_add_right _ _) (hst.2 ▸ h.nodup)
    refine ⟨evicted σ s e, _, ?_, ⟨hinv, hst.1, hnodup, h.tidy.foldl_free _⟩, ?_, by omega, rfl,
      rfl⟩
    · simp only [bind, Except.bind, lift, hok, Except.mapError]
    · rw [spare, spare, havail, if_pos hon, if_pos hon, ← hsize, evicted]
      ring
  · next hkeep =>
    refine ⟨s, l, rfl, h, rfl, ?_, rfl, rfl⟩
    by_cases hon : σ.enableRadixCache
    · exact not_lt.mp fun hlt => hkeep ⟨hon, hlt⟩
    · rwa [spare, if_neg hon, add_zero] at hle

/-- **Preallocation takes from what there is to spare what was estimated.** -/
theorem Backed.preAlloc (h : Backed σ s l locks) (hslots : s.reqSlots ≠ 0) (r : Req)
    (prefixIndices : List ℤ) (hfront : prefixIndices.length ≤ preAllocFillLen r)
    (hle : requiredAllocTokens σ (preAllocFillLen r) prefixIndices.length ≤ spare σ s) :
    ∃ s' kvLoc l', preAlloc σ s r prefixIndices = .ok (s', kvLoc) ∧ Backed σ s' l' locks ∧
      spare σ s' + requiredAllocTokens σ (preAllocFillLen r) prefixIndices.length = spare σ s ∧
      s'.metadataBuffers = s.metadataBuffers := by
  have h₀ : Backed σ { s with reqSlots := s.reqSlots - 1 } l locks := h.of_eq rfl rfl
  obtain ⟨s₁, l₁, hroom, h₁, hspare, havail, -, hmeta⟩ := h₀.makeRoom hle
  have hreq := requiredAllocTokens_eq σ hfront (prefixIndices.getLastD (-1))
  have hpos : 0 < σ.pageSize := σ.setup.cache.pos
  obtain ⟨a, out, halloc, hlen, htidy⟩ := h₁.tidy.allocForExtend
    { prefixLen := prefixIndices.length, seqLen := preAllocFillLen r
      lastLoc := prefixIndices.getLastD (-1) } (by
        rw [hreq, availableSize] at havail
        exact Nat.le_of_mul_le_mul_right (by exact_mod_cast havail) hpos)
  refine ⟨{ s₁ with allocator := a }, out.flatten, l₁, ?_,
    ⟨h₁.inv, h₁.stocked, h₁.nodup, htidy⟩, ?_, hmeta⟩
  · simp only [Prealloc.preAlloc, if_neg hslots, bind, Except.bind, hroom, halloc]
  · have hspare : spare σ s₁ = spare σ s := hspare
    rw [← hspare, hreq, spare, spare, availableSize, availableSize, ← hlen]
    push_cast
    ring

/-! ### Matching, and undoing it -/

/-- **Nothing is left of a request that was declined**: the pool is as it was, every node counts the
locks it counted and has the slots it had on the way down to it, and the tree has the pages it
had. -/
structure Undisturbed (σ : Scheduler) (s : State) (l : Layout) (locks : List NodeId) (s' : State)
    (l' : Layout) : Prop where
  backed : Backed σ s' l' locks
  allocator : s'.allocator = s.allocator
  reqSlots : s'.reqSlots = s.reqSlots
  metadataBuffers : s'.metadataBuffers = s.metadataBuffers
  mem : ∀ n ∈ l.alive, n ∈ l'.alive
  lockRef : ∀ n ∈ l.alive, (s'.cache.nodes n).lockRef = (s.cache.nodes n).lockRef
  slots : ∀ n ∈ l.alive, l'.slots n = l.slots n
  pages : treePages σ.setup.cache s'.cache l' = treePages σ.setup.cache s.cache l
  evictableSize : s'.cache.evictableSize = s.cache.evictableSize

theorem Undisturbed.refl (h : Backed σ s l locks) : Undisturbed σ s l locks s l :=
  ⟨h, rfl, rfl, rfl, fun _ hn => hn, fun _ _ => rfl, fun _ _ => rfl, rfl, rfl⟩

theorem Undisturbed.spare_eq (h : Undisturbed σ s l locks s' l') : spare σ s' = spare σ s := by
  rw [spare, spare, availableSize, availableSize, h.allocator, h.evictableSize]

/-- The tree is split at one node at most, and locked, and the lock is undone. -/
theorem Undisturbed.of_relocked (h : Backed σ s l locks) {c₁ c₂ : Cache}
    (honce : Radix.SplitOnce σ.setup.cache s.cache l c₁ l') {d : NodeId → ℤ}
    (hr : Radix.Relocked c₁ c₂ d) (hd : ∀ n, d n = 0) (hinv : Inv σ.setup.cache c₂ l' locks) :
    Undisturbed σ s l locks { s with cache := c₂ } l' := by
  have hsplit := h.stocked.splitOnce h.inv.shape honce
  have hst := hsplit.1.relocked hr
  have hpages := hst.2.trans hsplit.2
  obtain ⟨hsize, hsame⟩ := honce.same h.inv.shape
  refine ⟨⟨hinv, hst.1, ?_, h.tidy⟩, rfl, rfl, rfl, (honce.grown h.inv.shape).mem, ?_,
    fun n hn => (hsame n hn).2, hpages, ?_⟩
  · rw [hpages]
    exact h.nodup
  · intro n hn
    rw [hr.lockRef, hd, add_zero, (hsame n hn).1]
  · rw [← hsize]
    exact hr.evictableSize_eq hd (honce.inv h.inv).books hinv.books

/-- **Matching a prompt** locks where it ends, finds slots for no more than the prompt, and can be
undone. -/
theorem Backed.matchPrefixAndLock (h : Backed σ s l locks) (r : Req) :
    ∃ s₁ l₁ n, matchPrefixAndLock σ s r = .ok (s₁, l₁.slots n, n) ∧ Backed σ s₁ l₁ (n :: locks) ∧
      (l₁.slots n).length ≤ r.originInputIds.length ∧ s₁.reqSlots = s.reqSlots ∧
      s₁.metadataBuffers = s.metadataBuffers ∧
      ∃ s₂, undoLock s₁ (l₁.slots n).length n = .ok s₂ ∧ Undisturbed σ s l locks s₂ l₁ := by
  obtain ⟨c₁, l₁, n, key, hmatch, hland⟩ := h.inv.matchPrefix
    { tokenIds := r.originInputIds, extraKey := r.extraKey, isBigram := false, limit := none }
  have hinv := hland.once.inv h.inv
  have hsplit := h.stocked.splitOnce h.inv.shape hland.once
  obtain ⟨c₂, hlock, hinv₂, hr⟩ := hinv.incLockRef hland.mem
  have hst := hsplit.1.relocked hr
  have hlen := hsplit.1.filled.length_slots hinv.shape hinv.slots hland.mem
  refine ⟨{ s with cache := c₂ }, l₁, n, ?_, ⟨hinv₂, hst.1, ?_, h.tidy⟩, ?_, rfl, rfl, ?_⟩
  · simp only [Prealloc.matchPrefixAndLock, bind, Except.bind, lift, hmatch, hlock, Except.mapError]
  · rw [hst.2, hsplit.2]
    exact h.nodup
  · have hpath := (hland.path_isPrefix h.inv.shape).length_le
    rw [RadixKey.length_units, Radix.len_cacheKey] at hpath
    have htokens := RadixKey.len_le (RadixKey.toBigramView
      { tokenIds := r.originInputIds, extraKey := r.extraKey, isBigram := false, limit := none }
      σ.setup.cache.isEagle)
    rw [RadixKey.tokenIds_toBigramView] at htokens
    exact hlen.le.trans (hpath.trans ((Nat.div_mul_le_self _ _).trans htokens))
  · rw [undoLock]
    split
    · obtain ⟨c₃, hunlock, hinv₃, hr₃⟩ := hinv₂.decLockRef List.mem_cons_self
      rw [List.erase_cons_head] at hinv₃
      refine ⟨{ s with cache := c₃ }, ?_, ?_⟩
      · simp only [bind, Except.bind, lift, hunlock, Except.mapError]
      · exact .of_relocked h hland.once (hr.trans hr₃) (Radix.walkChange_undo l₁ n) hinv₃
    · next hzero =>
      -- nothing was matched, so the lock was one on the root
      obtain rfl : n = rootNode := by
        by_contra hnr
        obtain ⟨p, -, hp⟩ := hinv.shape.exists_parent hland.mem hnr
        have := hinv.shape.tree.depth_lt hland.mem hnr hp
        omega
      refine ⟨_, rfl, .of_relocked h hland.once hr (fun m => ?_) hinv₂.drop_root⟩
      rw [Radix.walkChange_root hinv.shape]

/-! ### One request -/

/-- **What there is to spare covers**, up to less than a page, the reserve of every request that is
active, with some more, and all that the retracted requests need. -/
def Covers (σ : Scheduler) (s : State) (preallocated : ℕ) : Prop :=
  σ.numReservedDecodeTokens * (σ.running.length + σ.waiting + σ.transferring + preallocated : ℕ)
    + retractedTokens σ < spare σ s + σ.pageSize

/-- What fits into the budget leaves the reserves. -/
theorem reserve_le_spare (σ : Scheduler) (s : State) (t : Option ℤ) (k : ℕ) :
    allocatableTokenBudgets σ s t true k + activeReservedTokens σ k + retractedTokens σ
      ≤ spare σ s := by
  have hmax := le_max_left (activeReservedTokens σ k) (needSpaceForSingleReq σ t)
  rw [allocatableTokenBudgets]
  simp only [if_true]
  omega

theorem retractedTokens_nonneg (σ : Scheduler) : 0 ≤ retractedTokens σ := by
  refine List.sum_nonneg fun x hx => ?_
  obtain ⟨r, -, rfl⟩ := List.mem_map.mp hx
  rw [preallocRequiredTokens]
  omega

theorem activeReservedTokens_nonneg (σ : Scheduler) (k : ℕ) : 0 ≤ activeReservedTokens σ k := by
  rw [activeReservedTokens]
  positivity

/-- A request whose requirement is in the budget is covered afterwards. -/
theorem covers_of_taken {required taken : ℤ} {t : Option ℤ} {k : ℕ} {s₁ : State}
    (hfit : required + σ.numReservedDecodeTokens ≤ allocatableTokenBudgets σ s t true k)
    (htaken : taken < required + σ.pageSize) (hspare : spare σ s₁ + taken = spare σ s) :
    Covers σ s₁ (k + 1) := by
  have hle := reserve_le_spare σ s t k
  have hmore : (σ.numReservedDecodeTokens : ℤ)
      * (σ.running.length + σ.waiting + σ.transferring + (k + 1) : ℕ)
        = activeReservedTokens σ k + σ.numReservedDecodeTokens := by
    rw [activeReservedTokens, activeReqCount]
    push_cast
    ring
  rw [Covers, hmore]
  omega

/-- What is in the budget can be taken. -/
theorem le_spare_of_fit {required taken : ℤ} {t : Option ℤ} {k : ℕ}
    (hR : σ.pageSize ≤ σ.numReservedDecodeTokens)
    (hfit : required + σ.numReservedDecodeTokens ≤ allocatableTokenBudgets σ s t true k)
    (htaken : taken < required + σ.pageSize) : taken ≤ spare σ s := by
  have hle := reserve_le_spare σ s t k
  have := retractedTokens_nonneg σ
  have := activeReservedTokens_nonneg σ k
  omega

/-- A request that fits gets its slots. -/
theorem Backed.admitRequest (h : Backed σ s l locks) (hslots : s.reqSlots ≠ 0)
    (hmeta : s.metadataBuffers ≠ 0) {d : DecodeRequest} (prefixIndices : List ℤ)
    (hfront : prefixIndices.length ≤ preAllocFillLen d.req)
    (hle : requiredAllocTokens σ (preAllocFillLen d.req) prefixIndices.length ≤ spare σ s)
    (lastNode : Option NodeId) :
    ∃ s' a l', admitRequest σ s d prefixIndices lastNode = .ok (.admitted s' a) ∧
      a.lastNode = lastNode ∧ Backed σ s' l' locks ∧
      spare σ s' + requiredAllocTokens σ (preAllocFillLen d.req) prefixIndices.length
        = spare σ s := by
  obtain ⟨s₁, kvLoc, l₁, hok, h₁, hspare, hm₁⟩ := h.preAlloc hslots d.req prefixIndices hfront hle
  rw [← hm₁] at hmeta
  refine ⟨{ s₁ with metadataBuffers := s₁.metadataBuffers - 1 },
    ⟨d, prefixIndices, lastNode, kvLoc⟩, l₁, ?_, rfl, h₁.of_eq rfl rfl, hspare⟩
  simp only [Prealloc.admitRequest, bind, Except.bind, hok, if_neg hmeta]

theorem originInputIds_le_preAllocFillLen (r : Req) :
    r.originInputIds.length ≤ preAllocFillLen r := by
  rw [preAllocFillLen]
  split <;> omega

/-- **One round of the loop**: a request that is declined leaves nothing behind, and one that is
admitted is covered. -/
theorem Backed.consider (h : Backed σ s l locks) (hR : σ.pageSize ≤ σ.numReservedDecodeTokens)
    (hslots : s.reqSlots ≠ 0) (hmeta : s.metadataBuffers ≠ 0) (t : ℤ) (k : ℕ) (d : DecodeRequest) :
    (∃ s' l', consider σ s t (allocatableTokenBudgets σ s (some t) true k) k d
          = .ok (.declined s') ∧
        Undisturbed σ s l locks s' l') ∨
      ∃ s' a l', consider σ s t (allocatableTokenBudgets σ s (some t) true k) k d
          = .ok (.admitted s' a) ∧
        Backed σ s' l' (a.lastNode.toList ++ locks) ∧ Covers σ s' (k + 1) := by
  rw [Prealloc.consider]
  split
  · obtain ⟨s₁, l₁, n, hmatch, h₁, hlen, hs₁, hm₁, s₂, hundo, hsame⟩ := h.matchPrefixAndLock d.req
    simp only [bind, Except.bind, hmatch]
    split
    · left
      exact ⟨s₂, l₁, by rw [hundo], hsame⟩
    · next hfits =>
      right
      have hfit := not_lt.mp fun hlt => hfits (Or.inr hlt)
      have htaken := lt_add_of_pos_right (requiredAllocTokens σ (preAllocFillLen d.req)
        (l₁.slots n).length) (Int.natCast_pos.mpr σ.setup.cache.pos : (0 : ℤ) < σ.pageSize)
      obtain ⟨s', a, l', hok, hnode, h', hspare⟩ := h₁.admitRequest (hs₁ ▸ hslots) (hm₁ ▸ hmeta) _
        (hlen.trans (originInputIds_le_preAllocFillLen d.req))
        (le_spare_of_fit hR hfit htaken) (some n)
      refine ⟨s', a, l', hok, ?_, covers_of_taken hfit htaken hspare⟩
      rw [hnode]
      exact h'
  · split
    · left
      exact ⟨s, l, rfl, .refl h⟩
    · next hfits =>
      right
      have hfit := not_lt.mp fun hlt => hfits (Or.inr hlt)
      have htaken := requiredAllocTokens_zero_lt σ (preAllocFillLen d.req)
      obtain ⟨s', a, l', hok, hnode, h', hspare⟩ := h.admitRequest hslots hmeta []
        (Nat.zero_le _) (le_spare_of_fit hR hfit htaken) none
      refine ⟨s', a, l', hok, ?_, covers_of_taken hfit htaken hspare⟩
      rw [hnode]
      exact h'

/-! ### The loops -/

/-- The locks of the requests that were admitted. -/
def lockedBy (preallocated : List Admitted) : List NodeId :=
  preallocated.filterMap Admitted.lastNode

theorem lockedBy_append (preallocated : List Admitted) (a : Admitted) (locks : List NodeId) :
    (a.lastNode.toList ++ (lockedBy preallocated ++ locks)).Perm
      (lockedBy (preallocated ++ [a]) ++ locks) := by
  have hone : lockedBy [a] = a.lastNode.toList := by
    rw [lockedBy, List.filterMap_cons]
    cases a.lastNode <;> rfl
  rw [lockedBy, lockedBy, List.filterMap_append, ← lockedBy, ← lockedBy, hone, ← List.append_assoc]
  exact List.perm_append_comm.append_right _

/-- **The loop of `pop_preallocated`**, from a state that is covered if anything was admitted. -/
theorem Backed.preallocLoop (hR : σ.pageSize ≤ σ.numReservedDecodeTokens)
    (rids : Option (List String)) (t : ℤ) (queue : List DecodeRequest)
    (preallocated : List Admitted) (h : Backed σ s l (lockedBy preallocated ++ locks))
    (hcov : preallocated ≠ [] → Covers σ s preallocated.length) :
    ∃ s' all l', preallocLoop σ rids t queue s
        (allocatableTokenBudgets σ s (some t) true preallocated.length) preallocated
          = .ok (s', all) ∧
      Backed σ s' l' (lockedBy all ++ locks) ∧ (all ≠ [] → Covers σ s' all.length) := by
  induction queue generalizing s l preallocated with
  | nil => exact ⟨s, preallocated, l, rfl, h, hcov⟩
  | cons d queue ih =>
    rw [Prealloc.preallocLoop]
    split
    · exact ih preallocated h hcov
    split
    · exact ⟨s, preallocated, l, rfl, h, hcov⟩
    split
    · exact ⟨s, preallocated, l, rfl, h, hcov⟩
    next hslots hmeta =>
    simp only [bind, Except.bind]
    rcases h.consider hR hslots hmeta t preallocated.length d with
      ⟨s', l', hok, hsame⟩ | ⟨s', a, l', hok, h', hcov'⟩
    · refine ⟨s', preallocated, l', by rw [hok], hsame.backed, fun hne => ?_⟩
      rw [Covers, hsame.spare_eq]
      exact hcov hne
    · rw [hok]
      have hlen : (preallocated ++ [a]).length = preallocated.length + 1 := List.length_append
      rw [← hlen]
      refine ih _ (h'.perm (lockedBy_append preallocated a locks)) fun _ => ?_
      rw [hlen]
      exact hcov'

/-- **The loop of `resume_retracted_reqs`**, with a budget that is there. -/
theorem Backed.resumeLoop (hR : σ.pageSize ≤ σ.numReservedDecodeTokens)
    (rids : Option (List String)) (queue : List Req) (h : Backed σ s l locks) {budget : ℤ}
    (hbudget : budget ≤ spare σ s) (resumed : List (Req × List ℤ)) :
    ∃ s' all l', resumeLoop σ rids queue s budget resumed = .ok (s', all) ∧
      Backed σ s' l' locks := by
  induction queue generalizing s l budget resumed with
  | nil => exact ⟨s, resumed, l, rfl, h⟩
  | cons r queue ih =>
    rw [Prealloc.resumeLoop]
    split
    · exact ih h hbudget resumed
    split
    · exact ⟨s, resumed, l, rfl, h⟩
    split
    · exact ⟨s, resumed, l, rfl, h⟩
    next hslots hfits =>
    have hfit : preallocRequiredTokens σ r ≤ budget := not_lt.mp hfits
    have htaken := requiredAllocTokens_zero_lt σ (preAllocFillLen r)
    rw [preallocRequiredTokens] at hfit ⊢
    obtain ⟨s', kvLoc, l', hok, h', hspare, -⟩ := h.preAlloc hslots r []
      (Nat.zero_le _) (by rw [List.length_nil]; omega)
    simp only [bind, Except.bind, hok]
    rw [List.length_nil] at hspare
    exact ih h' (by omega) _

/-- **Decode preallocation never over-commits.** -/
theorem prealloc_never_overcommits (hR : σ.pageSize ≤ σ.numReservedDecodeTokens)
    (h : Backed σ s l locks) :
    (∀ rids queue, ∃ s' preallocated failed l',
      popPreallocated σ s rids queue = .ok (s', preallocated, failed) ∧
        Backed σ s' l' (lockedBy preallocated ++ locks) ∧
        (preallocated ≠ [] →
          σ.numReservedDecodeTokens *
              (σ.running.length + σ.waiting + σ.transferring + preallocated.length : ℕ)
            + retractedTokens σ < spare σ s' + σ.pageSize)) ∧
      (∀ rids, ∃ s' resumed l', resumeRetractedReqs σ s rids = .ok (s', resumed) ∧
        Backed σ s' l' locks) ∧
      ∀ t k d s', s.reqSlots ≠ 0 → s.metadataBuffers ≠ 0 →
        consider σ s t (allocatableTokenBudgets σ s (some t) true k) k d = .ok (.declined s') →
          ∃ l', Undisturbed σ s l locks s' l' := by
  refine ⟨fun rids queue => ?_, fun rids => ?_, fun t k d s' hslots hmeta hok => ?_⟩
  · obtain ⟨s', all, l', hok, h', hcov⟩ := Backed.preallocLoop hR rids (retractableTokens σ) queue
      [] h (fun hne => absurd rfl hne)
    rw [List.length_nil] at hok
    refine ⟨s', all, queue.filter fun d => !unchecked rids d.req && d.aborted, l', ?_, h', hcov⟩
    simp only [popPreallocated, bind, Except.bind, hok]
  · refine Backed.resumeLoop hR rids σ.retracted h ?_ []
    have hmax := le_max_left (activeReservedTokens σ 0) (needSpaceForSingleReq σ none)
    have := activeReservedTokens_nonneg σ 0
    rw [allocatableTokenBudgets]
    simp only [Bool.false_eq_true, if_false]
    omega
  · rcases h.consider hR hslots hmeta t k d with ⟨s₁, l₁, hok₁, hsame⟩ | ⟨s₁, a, l₁, hok₁, -⟩
    · rw [hok] at hok₁
      obtain rfl := Verdict.declined.inj (Except.ok.inj hok₁)
      exact ⟨l₁, hsame⟩
    · rw [hok] at hok₁
      cases hok₁

/-- A server with the pool of `HtSglang.Radix.Requests.pairPool`, which keeps two tokens for every
request, with nothing running. -/
def pairServer : Scheduler where
  setup := Radix.Requests.pairPool
  enableRadixCache := true
  numReservedDecodeTokens := 2
  clipMaxNewToken := 4096
  strategy := fun _ _ => 0
  running := []
  transferring := 0
  waiting := 0
  prebuilt := 0
  retracted := []

/-- A request whose first two tokens are in the tree after
`HtSglang.Radix.Requests.twins`. -/
def longPrompt : DecodeRequest where
  req :=
    { rid := "r", originInputIds := [7, 8, 1, 2, 3, 4, 5, 6, 1, 2], outputIds := []
      extraKey := none, maxNewTokens := 1, pdRebootstrapInProgress := false }
  waitingForInput := true
  isRebootstrap := false
  aborted := false

/-- The tree has three pages that could be evicted and three are free. The prompt matches one page
and takes four, so one has to be evicted, and one is left for its output. -/
theorem prealloc_never_overcommits_longPrompt :
    ∃ s l s' preallocated failed l', Backed pairServer s l [] ∧ availableSize pairServer s = 6 ∧
      s.cache.evictableSize = 6 ∧
      popPreallocated pairServer s none [longPrompt] = .ok (s', preallocated, failed) ∧
      preallocated.length = 1 ∧ Backed pairServer s' l' (lockedBy preallocated) ∧
      (2 : ℤ) * (0 + 0 + 0 + 1 : ℕ) + retractedTokens pairServer < spare pairServer s' + 2 := by
  have hrun : ((Radix.Requests.system Radix.Requests.pairPool).run Radix.Requests.Unclamped
      (Radix.Requests.init Radix.Requests.pairPool) Radix.Requests.twins).any (fun t =>
        t.reqs.isEmpty && decide (t.cache.evictableSize = 6) &&
          decide (t.allocator.pages.length = 3) &&
            decide (((popPreallocated pairServer ⟨t.allocator, t.cache, 1, 1⟩ none
            [longPrompt]).toOption.map fun r => r.2.1.length) = some 1)) = true := by
    decide +kernel
  obtain ⟨t, ht, hend⟩ := (Option.any_eq_true _ _).mp hrun
  simp only [Bool.and_eq_true, decide_eq_true_eq] at hend
  obtain ⟨⟨⟨hreqs, hsize⟩, hfree⟩, hone⟩ := hend
  obtain ⟨l, hc, -⟩ := Radix.Requests.exists_conserving (OpSystem.Reaches.of_run .refl ht)
  have h : Backed pairServer ⟨t.allocator, t.cache, 1, 1⟩ l [] := by
    have hlocks : Radix.Requests.lockedNodes t.reqs = [] := by rw [List.isEmpty_iff.mp hreqs]; rfl
    have htidy : t.allocator.Tidy pairServer.setup.pool := fun hsort => nomatch hsort
    exact hlocks ▸ Backed.of_conserving hc htidy 1 1
  obtain ⟨s', preallocated, failed, l', hok, h', hcov⟩ :=
    (prealloc_never_overcommits (by decide) h).1 none [longPrompt]
  rw [hok] at hone
  have hone : preallocated.length = 1 := Option.some.inj hone
  have hne : preallocated ≠ [] := List.ne_nil_of_length_pos (by omega)
  refine ⟨_, l, s', preallocated, failed, l', h, ?_, hsize, hok, hone, ?_, ?_⟩
  · rw [availableSize, hfree]
    rfl
  · rwa [List.append_nil] at h'
  · have := hcov hne
    rw [hone] at this
    exact this

end Prealloc

end Disaggregation

end HtSglang
