import HtSglang.Library.Loop
import HtSglang.Scheduling.IgnoreEosAdmission

/-!
# The mamba slots of a prefill pass

A request of a hybrid model needs slots of the mamba state pool besides tokens of the KV cache. In
a pass, `PrefillAdder` (`managers/schedule_policy.py`) starts with the slots that are free or can be
evicted, `rem_mamba_slots`, and takes off those of each request that it admits and that has no state
yet. This file has the adder with all its ways to admit a request: `add_chunked_req` for the one
that is carried over from the last pass, and `add_one_req` with its branches for requests that
ignore the end of sequence, for requests whose extent another pipeline stage has decided, for those
that are prefilled into host memory, for block diffusion, for whole and for truncated prompts. What
the adder reads of the pools, before and under its lock on the tree, is a parameter of every call.

No branch compares the slots of a request with those that are left. They are looked at after a
request has been admitted, by `HtSglang.PrefillAdder.Adder.budgetState`, and it only asks whether
any are left. So the last request may take slots that do not exist
(`HtSglang.PrefillAdder.slots_overcharged`), and the pass stays within its slots in every case if
and only if a request takes none or they are a positive multiple of what a request takes:
`HtSglang.PrefillAdder.charged_le_iff`. A request whose extent was decided elsewhere and a request
that is carried over are admitted without that question, so these must have their state already.
-/

namespace HtSglang

namespace PrefillAdder

open IgnoreEos (AddReqResult)

/-! ### The adder -/

/-- What is read of a request. -/
structure Req extends IgnoreEos.Req where
  hostHitLength : ℕ
  swaHostHitLength : ℕ
  needsHostLoadBack : Bool
  mambaPoolIdx : Option ℕ
  /-- What `scheduled_extents` has for the request: the length of its prefix and of its extent. -/
  scheduled : Option (ℤ × ℤ)
  bornSpilled : Bool
  bornSpilledDeep : Bool

/-- An admitted request, with the `extend_range` that it got. -/
structure Entry where
  req : Req
  /-- `extend_range.start`. -/
  extendStart : ℤ
  /-- `extend_range.end`. -/
  extendEnd : ℤ

/-- What does not change in a pass. The size of the pool is not read here: see `Pools`. -/
structure Config extends IgnoreEos.Config where
  isHybridSwa : Bool
  /-- `tree_cache.sliding_window_size`. -/
  slidingWindowSize : ℤ
  /-- `dllm_config.block_size`. -/
  dllmBlockSize : Option ℤ
  /-- `tree_cache.disable`. -/
  treeCacheDisabled : Bool
  prefillMaxRequests : Option ℕ
  dsaPrefillCpInSeqSplit : Bool
  truncationAlignSize : Option ℤ
  prefillSpillDeep : Bool
  prefillSpillRegionTokens : ℤ
  mambaSlotCost : ℤ
  mambaSlotsPerReq : ℕ

/-- What the pools have when they are asked. -/
structure Pools where
  /-- `available_and_evictable`, of whichever pool counts. -/
  availableAndEvictable : ℤ
  /-- `swa_available_size() + swa_evictable_size()`. -/
  swaAvailableAndEvictable : ℤ

/-- What one call reads. -/
structure Reads where
  /-- What the prefill delayer says. -/
  allowed : Bool
  /-- What it says when `add_one_req_ignore_eos` asks once more. -/
  stillAllowed : Bool
  /-- The pools before the node is locked. -/
  before : Pools
  /-- The pools under the lock. -/
  locked : Pools
  /-- The pools at the end. -/
  after : Pools
  /-- The number of indices that `init_load_back` returns. -/
  loaded : ℕ
  /-- The state that `init_load_back` sets, if it sets one. -/
  loadedState : Option ℕ
  /-- `fundable_extend_tokens(tree_cache)`. -/
  fundable : ℤ

/-- The `PrefillAdder`. -/
structure Adder where
  reqStates : Option (List (ℚ × ℕ))
  canRunList : List Entry
  newChunkedReq : Option Req
  remTotalTokenOffset : ℚ
  curRemTokenOffset : ℤ
  remSwaTokenOffset : ℤ
  remInputTokens : ℤ
  remChunkTokens : Option ℤ
  remDllmTokens : ℤ
  remMambaSlots : Option ℤ
  prefillSpillRegions : ℤ
  prefillSpillDeepTaken : Bool

/-- The budgets that a pass starts with, which its constructor is given or reads. -/
structure Budgets where
  /-- `rem_total_token_offset` of the running requests and the mixed decode tokens. -/
  totalTokenOffset : ℚ
  numMixedDecodeTokens : ℕ
  /-- The tokens that may be computed. -/
  inputTokens : ℤ
  /-- The size of a chunk. -/
  chunkTokens : Option ℤ
  /-- `max_running_requests * block_size` of block diffusion. -/
  dllmTokens : ℤ
  /-- The free regions of host memory. -/
  spillRegions : ℤ

/-- The constructor. -/
def Adder.init (budgets : Budgets) (remMambaSlots : Option ℤ) : Adder where
  reqStates := none
  canRunList := []
  newChunkedReq := none
  remTotalTokenOffset := budgets.totalTokenOffset
  curRemTokenOffset := budgets.numMixedDecodeTokens
  remSwaTokenOffset := 0
  remInputTokens := budgets.inputTokens - budgets.numMixedDecodeTokens
  remChunkTokens := budgets.chunkTokens.map (· - (budgets.numMixedDecodeTokens : ℤ))
  remDllmTokens := budgets.dllmTokens
  remMambaSlots := remMambaSlots
  prefillSpillRegions := budgets.spillRegions
  prefillSpillDeepTaken := false

variable (cfg : Config)

/-- `rem_total_tokens`. -/
def Adder.remTotalTokens (a : Adder) (pools : Pools) : ℚ :=
  let localBudget := pools.availableAndEvictable - a.remTotalTokenOffset - cfg.dcpAvailDeficit
  let budget := match cfg.fundableExtendFloor with
    | none => localBudget
    | some floor => min localBudget (floor - a.remTotalTokenOffset)
  budget - cfg.outstandingTokens

/-- `cur_rem_tokens`. -/
def Adder.curRemTokens (a : Adder) (pools : Pools) : ℤ :=
  pools.availableAndEvictable - a.curRemTokenOffset - cfg.dcpAvailDeficit

/-- `rem_swa_tokens`. -/
def Adder.remSwaTokens (a : Adder) (pools : Pools) : ℤ :=
  pools.swaAvailableAndEvictable - a.remSwaTokenOffset

/-- `_swa_budget_for_req`. -/
def Adder.swaBudgetForReq (a : Adder) (extendInputLen swaHostHitLength : ℤ) : ℤ :=
  let alloc := match a.remChunkTokens with
    | some c => min extendInputLen c
    | none => extendInputLen
  max alloc cfg.slidingWindowSize + cfg.pageSize +
    if swaHostHitLength > 0 then cfg.ceilPagedTokens swaHostHitLength else 0

/-- `_mamba_gap_budget_for_req`. -/
def mambaGapBudgetForReq (req : Req) : ℤ :=
  if cfg.mambaSlotCost ≠ 0 ∧ req.mambaPoolIdx = none then cfg.mambaSlotCost else 0

/-- The slots that a request takes of a pool that is accounted for. -/
def slotsOf (req : Req) : ℤ := if req.mambaPoolIdx = none then cfg.mambaSlotsPerReq else 0

/-- `_mamba_slots_for_req`. -/
def Adder.mambaSlotsForReq (a : Adder) (req : Req) : ℤ :=
  match a.remMambaSlots with
  | none => 0
  | some _ => slotsOf cfg req

/-- `budget_state`. -/
def Adder.budgetState (a : Adder) (pools : Pools) : AddReqResult :=
  if a.prefillSpillDeepTaken then .other
  else if a.remTotalTokens cfg pools ≤ 0 ∨ a.curRemTokens cfg pools ≤ 0 then .noToken
  else if cfg.isHybridSwa ∧ a.remSwaTokens pools ≤ 0 then .noToken
  else if ∃ s ∈ a.remMambaSlots, s ≤ 0 then .noToken
  else if a.remInputTokens ≤ 0 then .other
  else if cfg.dllmBlockSize.isSome then
    if a.remDllmTokens ≤ 0 then .other else .continue
  else if ∃ c ∈ a.remChunkTokens, c ≤ 0 then .other
  else .continue

/-- `_update_prefill_budget`. -/
def Adder.updatePrefillBudget (a : Adder)
    (extendInputLen maxNewTokens mambaGapReserve mambaSlotCharge : ℤ) : Adder :=
  let extendInputLen := cfg.ceilPagedTokens extendInputLen
  { a with
    remTotalTokenOffset := a.remTotalTokenOffset +
      (extendInputLen + maxNewTokens + cfg.pageSize + mambaGapReserve : ℤ)
    curRemTokenOffset := a.curRemTokenOffset + (extendInputLen + cfg.pageSize + mambaGapReserve)
    remMambaSlots := a.remMambaSlots.map (· - mambaSlotCharge)
    remInputTokens := a.remInputTokens - extendInputLen
    remSwaTokenOffset := a.remSwaTokenOffset +
      if cfg.isHybridSwa then a.swaBudgetForReq cfg extendInputLen 0 else 0
    remDllmTokens :=
      if cfg.dllmBlockSize.isSome then a.remDllmTokens - extendInputLen else a.remDllmTokens
    remChunkTokens :=
      if cfg.dllmBlockSize.isSome then a.remChunkTokens
      else a.remChunkTokens.map (· - extendInputLen) }

/-- A request is put into the batch with an extent and charged to the budgets, as all branches do
it. -/
def Adder.commit (a : Adder) (req : Req) (start length extendInputLen maxNewTokens : ℤ) : Adder :=
  Adder.updatePrefillBudget cfg
    { a with canRunList := a.canRunList ++ [⟨req, start, start + length⟩] }
    extendInputLen maxNewTokens (mambaGapBudgetForReq cfg req) (a.mambaSlotsForReq cfg req)

/-! ### Requests with a forwarded extent -/

/-- `_add_scheduled_req`. -/
def Adder.addScheduledReq (a : Adder) (req : Req) (extent : ℤ × ℤ) (carriedChunk : Bool) :
    Except String Adder :=
  if extent.2 < 0 then .error "PPScheduleRefused"
  else if (req.prefixIndicesLen : ℤ) ≠ extent.1 then .error "PPScheduleRefused"
  else if extent.1 + extent.2 > req.occupied then .error "PPScheduleRefused"
  else
    let lastChunk : Bool := extent.1 + extent.2 ≥ req.occupied
    let a := if !lastChunk && !carriedChunk then { a with newChunkedReq := some req } else a
    .ok (a.commit cfg req extent.1 extent.2 extent.2
      (if lastChunk then min (req.maxNewTokens : ℤ) cfg.clipMaxNewTokens else 0))

/-! ### The request that is carried over -/

/-- `int` of a number that need not be whole. -/
def truncate (q : ℚ) : ℤ := if q < 0 then ⌈q⌉ else ⌊q⌋

/-- `_get_dllm_remain_tokens`. -/
def Adder.getDllmRemainTokens (a : Adder) (blockSize : ℤ) (pools : Pools) : ℤ :=
  let rem := min (min a.remDllmTokens blockSize) (truncate (a.remTotalTokens cfg pools))
  if rem ≤ 0 then a.remDllmTokens else rem

/-- `chunk_tokens_the_pool_can_fund`. -/
def chunkTokensThePoolCanFund (fundableTokens pageSize remChunkTokens : ℤ) : ℤ :=
  let fundable := max 0 fundableTokens
  if fundable < max 1 pageSize then 0 else max 0 (min remChunkTokens fundable)

/-- The end of `add_chunked_req`: a chunk of the carried request is admitted. -/
def Adder.addChunk (a : Adder) (req : Req) (remTokens : ℤ) : Bool × Adder :=
  let cand : ℤ := (req.occupied : ℤ) - req.prefixIndicesLen
  let truncated : Bool := cand > remTokens
  let newLen := min cand remTokens
  (truncated, a.commit cfg req req.prefixIndicesLen newLen newLen
    (if truncated then 0 else min (req.maxNewTokens : ℤ) cfg.clipMaxNewTokens))

/-- `_rem_tokens` of `add_chunked_req` without block diffusion, for a chunk of `c` tokens. -/
def Adder.chunkedRemTokens (a : Adder) (c : ℤ) (pools : Pools) : ℤ :=
  let rem := min c (truncate (a.remTotalTokens cfg pools))
  if cfg.isHybridSwa then min rem (a.remSwaTokens pools - cfg.pageSize) else rem

/-- `add_chunked_req`; it returns whether the request remains the chunked one. -/
def Adder.addChunkedReq (a : Adder) (req : Req) (reads : Reads) : Except String (Bool × Adder) :=
  match req.scheduled with
  | some extent => (a.addScheduledReq cfg req extent true).map fun a' =>
      (decide (extent.1 + extent.2 < req.occupied), a')
  | none =>
    match cfg.dllmBlockSize, a.remChunkTokens with
    | some blockSize, _ =>
      .ok (a.addChunk cfg req (a.getDllmRemainTokens cfg blockSize reads.before))
    | none, none => .error "TypeError"
    | none, some c =>
      let rem := a.chunkedRemTokens cfg c reads.before
      if 0 < rem then .ok (a.addChunk cfg req rem)
      else if cfg.isHybridSwa then .ok (true, a)
      else
        let grant := chunkTokensThePoolCanFund reads.fundable cfg.pageSize c
        if grant ≤ 0 then .ok (true, a) else .ok (a.addChunk cfg req grant)

/-! ### New requests -/

/-- What the loop of `add_one_req_ignore_eos` reads of the adder. -/
def Adder.listing (a : Adder) : IgnoreEos.Adder where
  reqStates := a.reqStates
  canRunList := a.canRunList.map fun e => e.req.toReq
  newChunkedReq := a.newChunkedReq.map fun r => r.toReq
  remTotalTokenOffset := a.remTotalTokenOffset
  curRemTokenOffset := a.curRemTokenOffset
  remInputTokens := a.remInputTokens
  remChunkTokens := a.remChunkTokens

/-- `_add_dllm_req`. -/
def Adder.addDllmReq (a : Adder) (req : Req) (blockSize prefixLen : ℤ) : Adder :=
  let truncLen := min a.remDllmTokens blockSize / cfg.pageSize * cfg.pageSize
  a.commit cfg req prefixLen truncLen truncLen 0

/-- A request is admitted with its whole prompt. -/
def Adder.addWhole (a : Adder) (req : Req) (extendInputLen : ℤ) : Adder :=
  a.commit cfg req req.prefixIndicesLen ((req.occupied : ℤ) - req.prefixIndicesLen) extendInputLen
    (min (req.maxNewTokens : ℤ) cfg.clipMaxNewTokens)

/-- A request is admitted with its first chunk. -/
def Adder.addTruncated (a : Adder) (req : Req) (truncLen : ℤ) : Adder :=
  Adder.commit cfg { a with newChunkedReq := some req } req req.prefixIndicesLen truncLen truncLen 0

/-- What a branch of `add_one_req` ends with once it has admitted a request. -/
def Adder.admitted (a : Adder) (reads : Reads) : Except String (AddReqResult × Adder) :=
  .ok (a.budgetState cfg reads.after, a)

/-- `add_one_req_ignore_eos`. -/
def Adder.addOneReqIgnoreEos (a : Adder) (req : Req) (reads : Reads) :
    Except String (AddReqResult × Adder) :=
  let cand : ℤ := (req.occupied : ℤ) - req.prefixIndicesLen
  let pagedInput := cfg.ceilPagedTokens cand + mambaGapBudgetForReq cfg req
  if (pagedInput : ℚ) > min (a.curRemTokens cfg reads.before : ℚ)
      (a.remTotalTokens cfg reads.before) then .ok (.noToken, a)
  else if cfg.isHybridSwa ∧ a.swaBudgetForReq cfg cand 0 > a.remSwaTokens reads.before then
    .ok (.noToken, a)
  else
    let states := a.listing.statesWith cfg.toConfig req.toReq
    let a := { a with reqStates := some states }
    if ¬cfg.isHybridSwa ∧ ¬IgnoreEos.simulate
        (a.curRemTokens cfg reads.before - cfg.ceilPagedTokens cand) states 0 then .ok (.noToken, a)
    else if ¬reads.stillAllowed then .ok (.other, a)
    else match cfg.dllmBlockSize, a.remChunkTokens with
      | some blockSize, _ =>
        if a.remDllmTokens ≤ 0 then .ok (.other, a)
        else (a.addDllmReq cfg req blockSize 0).admitted cfg reads
      | none, none => (a.addWhole cfg req cand).admitted cfg reads
      | none, some c =>
        if cand ≤ c then (a.addWhole cfg req cand).admitted cfg reads
        else if c ≤ 0 then .ok (.other, a)
        else if req.prefixIndicesLen ≠ 0 then .error "AssertionError"
        else (a.addTruncated cfg req c).admitted cfg reads

/-- `prefill_spill_deep_ok`. -/
def prefillSpillDeepOk (freeRegions : ℤ) (bornInputTokens : ℤ) (remTotalTokens : ℚ)
    (inputTokens : ℤ) (remChunkTokens : Option ℤ) (regionTokens : ℤ) : Bool :=
  decide (0 < freeRegions ∧ remTotalTokens ≤ bornInputTokens ∧
    (∀ c ∈ remChunkTokens, inputTokens ≤ c) ∧ 0 < inputTokens ∧ inputTokens ≤ regionTokens)

/-- `_admit_born_spilled` and then `_admit_born_spilled_deep`. -/
def Adder.admitBorn (a : Adder) (req : Req) (bornInputTokens : ℤ) (pools : Pools) :
    Option (Req × Adder) :=
  if 0 < a.prefillSpillRegions ∧ (bornInputTokens : ℚ) < a.remTotalTokens cfg pools then
    some ({ req with bornSpilled := true }, a)
  else if cfg.prefillSpillDeep ∧ a.canRunList.isEmpty ∧ ¬a.prefillSpillDeepTaken ∧
      prefillSpillDeepOk a.prefillSpillRegions bornInputTokens (a.remTotalTokens cfg pools)
        (cfg.ceilPagedTokens ((req.occupied : ℤ) - req.prefixIndicesLen)) a.remChunkTokens
        cfg.prefillSpillRegionTokens then
    some ({ req with bornSpilledDeep := true },
      { a with prefillSpillDeepTaken := true, prefillSpillRegions := a.prefillSpillRegions - 1 })
  else none

/-- The length of the first chunk of a prompt that is too long, if there is room for one. -/
def truncLen? (req : Req) (remChunkTokens : ℤ) : Option ℤ :=
  let truncLen := remChunkTokens / cfg.pageSize * cfg.pageSize
  if truncLen ≤ 0 ∨ ∃ align ∈ cfg.truncationAlignSize, truncLen < align then none
  else
    let truncLen : ℤ := match cfg.truncationAlignSize with
      | some align => align * (truncLen / align)
      | none => truncLen
    let nowInputLen := (truncLen + req.prefixIndicesLen) / cfg.pageSize * cfg.pageSize
    let truncLen := nowInputLen - req.prefixIndicesLen
    if truncLen ≤ 0 then none else some truncLen

/-- What `init_load_back` makes of a request. -/
def Req.loadBack (req : Req) (reads : Reads) : Req :=
  if req.needsHostLoadBack then
    { req with
      prefixIndicesLen := req.prefixIndicesLen + reads.loaded
      mambaPoolIdx := reads.loadedState <|> req.mambaPoolIdx }
  else req

/-- The part of `add_one_req` after the last check of the budgets. -/
def Adder.addLoaded (a : Adder) (req : Req) (reads : Reads) :
    Except String (AddReqResult × Adder) :=
  let inputTokens := cfg.ceilPagedTokens ((req.occupied : ℤ) - req.prefixIndicesLen)
  if a.remChunkTokens = none ∧ ¬a.canRunList.isEmpty ∧ inputTokens ≥ a.remInputTokens then
    .ok (.other, a)
  else match cfg.dllmBlockSize, a.remChunkTokens with
    | some blockSize, _ =>
      if a.remDllmTokens ≤ 0 then .ok (.other, a)
      else if cfg.truncationAlignSize.isSome then .error "AssertionError"
      else (a.addDllmReq cfg req blockSize req.prefixIndicesLen).admitted cfg reads
    | none, none => (a.addWhole cfg req inputTokens).admitted cfg reads
    | none, some c =>
      if inputTokens ≤ c then (a.addWhole cfg req inputTokens).admitted cfg reads
      else match truncLen? cfg req c with
        | none => .ok (.other, a)
        | some truncLen => (a.addTruncated cfg req truncLen).admitted cfg reads

/-- The part of `add_one_req` from the second check of the sliding window on, when the request fits
or may be born spilled. -/
def Adder.addFitting (a : Adder) (req : Req) (reads : Reads) (totalTokens bornInputTokens : ℤ) :
    Except String (AddReqResult × Adder) :=
  let cand : ℤ := (req.occupied : ℤ) - req.prefixIndicesLen
  let swaNeeded := a.swaBudgetForReq cfg cand req.swaHostHitLength
  if cfg.isHybridSwa ∧ swaNeeded ≥ a.remSwaTokens reads.before then .ok (.noToken, a)
  else if a.remChunkTokens = none ∧ ¬a.canRunList.isEmpty ∧
      cfg.ceilPagedTokens (cand - req.hostHitLength) ≥ a.remInputTokens then .ok (.other, a)
  else if (totalTokens : ℚ) ≥ a.remTotalTokens cfg reads.locked ∧ ¬req.bornSpilledDeep ∧
      ¬(req.bornSpilled ∧ (bornInputTokens : ℚ) < a.remTotalTokens cfg reads.locked) then
    .ok (.noToken, a)
  else if cfg.isHybridSwa ∧ swaNeeded ≥ a.remSwaTokens reads.locked then .ok (.noToken, a)
  else a.addLoaded cfg (req.loadBack reads) reads

/-- The part of `add_one_req` for requests whose extent is decided here. -/
def Adder.addUnscheduled (a : Adder) (req : Req) (reads : Reads) :
    Except String (AddReqResult × Adder) :=
  let maxNew := min (max ((req.maxNewTokens : ℤ) - req.outputLen) 0) cfg.clipMaxNewTokens
  let totalTokens := (req.occupied : ℤ) - req.prefixIndicesLen + maxNew + cfg.pageSize +
    mambaGapBudgetForReq cfg req
  if (totalTokens : ℚ) ≥ a.remTotalTokens cfg reads.before then
    match a.admitBorn cfg req (totalTokens - maxNew) reads.before with
    | none => .ok (.noToken, a)
    | some (req, a) => a.addFitting cfg req reads totalTokens (totalTokens - maxNew)
  else a.addFitting cfg req reads totalTokens (totalTokens - maxNew)

/-- `add_one_req`. -/
def Adder.addOneReq (a : Adder) (req : Req) (reads : Reads) :
    Except String (AddReqResult × Adder) :=
  if a.prefillSpillDeepTaken then .ok (.other, a)
  else if ¬reads.allowed then .ok (.other, a)
  else if cfg.dsaPrefillCpInSeqSplit ∧ ¬a.canRunList.isEmpty then .ok (.other, a)
  else if ∃ x ∈ cfg.prefillMaxRequests, x ≤ a.canRunList.length then .ok (.other, a)
  else if req.ignoreEos ∧ cfg.treeCacheDisabled then a.addOneReqIgnoreEos cfg req reads
  else match req.scheduled with
    | some extent =>
      if cfg.dllmBlockSize.isSome then .error "PPScheduleRefused"
      else (a.addScheduledReq cfg req extent false).map fun a' => (.continue, a')
    | none => a.addUnscheduled cfg req reads

/-! ### A pass -/

/-- A call of a pass. -/
inductive Call
  /-- `add_chunked_req`. -/
  | chunked (req : Req) (reads : Reads)
  /-- `add_one_req`. -/
  | one (req : Req) (reads : Reads)

/-- A pass: it goes on while `add_one_req` answers with `CONTINUE`. -/
def pass : Adder → List Call → Except String Adder
  | a, [] => .ok a
  | a, .chunked req reads :: calls =>
    match a.addChunkedReq cfg req reads with
    | .ok (_, a') => pass a' calls
    | .error e => .error e
  | a, .one req reads :: calls =>
    match a.addOneReq cfg req reads with
    | .ok (.continue, a') => pass a' calls
    | .ok (_, a') => .ok a'
    | .error e => .error e

/-- The slots that the admitted requests have been charged with. -/
def Adder.charged (a : Adder) : ℤ := (a.canRunList.map fun e => slotsOf cfg e.req).sum

/-- A request that is carried over, or whose extent is decided elsewhere, has its state. -/
def Call.Stateful : Call → Prop
  | .chunked req _ => req.mambaPoolIdx ≠ none
  | .one req _ => req.scheduled ≠ none → req.mambaPoolIdx ≠ none

/-! ### What a call does to the slots -/

section Calls

variable {cfg} {a a' a'' : Adder} {req : Req} {reads : Reads} {res res' : AddReqResult}

/-- Nothing is admitted. -/
def Same (a a' : Adder) : Prop :=
  a'.canRunList = a.canRunList ∧ a'.remMambaSlots = a.remMambaSlots

/-- One request is admitted and its slots are taken off. -/
def Admits (cfg : Config) (a a' : Adder) (slots : ℤ) : Prop :=
  a'.charged cfg = a.charged cfg + slots ∧ a'.remMambaSlots = a.remMambaSlots.map (· - slots)

theorem commit_admits (a : Adder) (req : Req) (start length extendInputLen maxNewTokens : ℤ) :
    Admits cfg a (a.commit cfg req start length extendInputLen maxNewTokens)
      (slotsOf cfg req) := by
  constructor
  · simp [Adder.commit, Adder.updatePrefillBudget, Adder.charged]
  · cases hrem : a.remMambaSlots <;>
      simp [Adder.commit, Adder.updatePrefillBudget, Adder.mambaSlotsForReq, hrem]

/-- The slots of a request are none, or those of a request without state. -/
theorem slotsOf_cases (cfg : Config) (req : Req) :
    slotsOf cfg req = 0 ∨ slotsOf cfg req = cfg.mambaSlotsPerReq := by
  rw [slotsOf]
  split
  · exact Or.inr rfl
  · exact Or.inl rfl

theorem slotsOf_of_state (h : req.mambaPoolIdx ≠ none) : slotsOf cfg req = 0 := if_neg h

theorem pos_of_budgetState {pools : Pools} (h : a.budgetState cfg pools = .continue) :
    ∀ s ∈ a.remMambaSlots, 0 < s := by
  intro s hs
  by_contra hle
  have hex : ∃ s ∈ a.remMambaSlots, s ≤ 0 := ⟨s, hs, not_lt.mp hle⟩
  rw [Adder.budgetState] at h
  split_ifs at h

/-- **What a request that is not forwarded does to the slots**: none are taken, and the pass ends;
or those of a request, and the pass goes on only if some are left. -/
def Outcome (cfg : Config) (a : Adder) (res : AddReqResult) (a' : Adder) : Prop :=
  Same a a' ∧ res ≠ .continue ∨
    ∃ slots : ℤ, (slots = 0 ∨ slots = cfg.mambaSlotsPerReq) ∧ Admits cfg a a' slots ∧
      (res = .continue → ∀ s ∈ a'.remMambaSlots, 0 < s)

theorem Outcome.refused (h : (Except.ok (res, a') : Except String _) = .ok (res', a''))
    (hres : res ≠ .continue) (hsame : Same a a') : Outcome cfg a res' a'' := by
  obtain ⟨rfl, rfl⟩ : res = res' ∧ a' = a'' := by simpa using h
  exact Or.inl ⟨hsame, hres⟩

theorem Outcome.admitted (h : Adder.admitted cfg a' reads = .ok (res, a''))
    (hadmits : Admits cfg a a' (slotsOf cfg req)) : Outcome cfg a res a'' := by
  obtain ⟨rfl, rfl⟩ : a'.budgetState cfg reads.after = res ∧ a' = a'' := by
    simpa [Adder.admitted] using h
  exact Or.inr ⟨_, slotsOf_cases cfg req, hadmits, pos_of_budgetState⟩

theorem addLoaded_outcome (h : a.addLoaded cfg req reads = .ok (res, a')) :
    Outcome cfg a res a' := by
  have hsame : Same a a := ⟨rfl, rfl⟩
  rw [Adder.addLoaded] at h
  split at h
  · exact .refused h (by simp) hsame
  split at h
  · split at h
    · exact .refused h (by simp) hsame
    split at h
    · cases h
    · exact .admitted h (commit_admits ..)
  · exact .admitted h (commit_admits ..)
  · split at h
    · exact .admitted h (commit_admits ..)
    split at h
    · exact .refused h (by simp) hsame
    · exact .admitted h (commit_admits ..)

theorem addFitting_outcome {total born : ℤ}
    (h : a.addFitting cfg req reads total born = .ok (res, a')) : Outcome cfg a res a' := by
  have hsame : Same a a := ⟨rfl, rfl⟩
  rw [Adder.addFitting] at h
  split at h
  · exact .refused h (by simp) hsame
  split at h
  · exact .refused h (by simp) hsame
  split at h
  · exact .refused h (by simp) hsame
  split at h
  · exact .refused h (by simp) hsame
  · exact addLoaded_outcome h

/-- To be born spilled takes no slots. -/
theorem admitBorn_same {born : ℤ} {pools : Pools} {req' : Req}
    (h : a.admitBorn cfg req born pools = some (req', a')) :
    Same a a' ∧ a'.charged cfg = a.charged cfg := by
  rw [Adder.admitBorn] at h
  split at h
  · obtain ⟨-, rfl⟩ : _ ∧ a = a' := by simpa using h
    exact ⟨⟨rfl, rfl⟩, rfl⟩
  split at h
  · obtain ⟨-, rfl⟩ : _ ∧ _ = a' := by simpa using h
    exact ⟨⟨rfl, rfl⟩, rfl⟩
  · cases h

/-- What is done after nothing was admitted. -/
theorem Outcome.of_same (h : Outcome cfg a' res a'') (hsame : Same a a')
    (hcharged : a'.charged cfg = a.charged cfg) : Outcome cfg a res a'' := by
  rcases h with ⟨⟨hlist, hrem⟩, hres⟩ | ⟨slots, hslots, ⟨hcharge, hrem⟩, hpos⟩
  · exact Or.inl ⟨⟨hlist.trans hsame.1, hrem.trans hsame.2⟩, hres⟩
  · exact Or.inr ⟨slots, hslots, ⟨by rw [hcharge, hcharged], by rw [hrem, hsame.2]⟩, hpos⟩

theorem addUnscheduled_outcome (h : a.addUnscheduled cfg req reads = .ok (res, a')) :
    Outcome cfg a res a' := by
  rw [Adder.addUnscheduled] at h
  split at h
  · split at h
    · exact .refused h (by simp) ⟨rfl, rfl⟩
    next req₁ a₁ hborn =>
      obtain ⟨hsame, hcharged⟩ := admitBorn_same hborn
      exact (addFitting_outcome h).of_same hsame hcharged
  · exact addFitting_outcome h

theorem addOneReqIgnoreEos_outcome (h : a.addOneReqIgnoreEos cfg req reads = .ok (res, a')) :
    Outcome cfg a res a' := by
  rw [Adder.addOneReqIgnoreEos] at h
  dsimp only at h
  split at h
  · exact .refused h (by simp) ⟨rfl, rfl⟩
  split at h
  · exact .refused h (by simp) ⟨rfl, rfl⟩
  -- From here on, the list of the adder has changed.
  set a₁ : Adder := { a with
    reqStates := some (a.listing.statesWith cfg.toConfig req.toReq) } with ha₁
  have hsame : Same a a₁ := ⟨rfl, rfl⟩
  refine Outcome.of_same ?_ hsame rfl
  have hrefl : Same a₁ a₁ := ⟨rfl, rfl⟩
  split at h
  · exact .refused h (by simp) hrefl
  split at h
  · exact .refused h (by simp) hrefl
  split at h
  · split at h
    · exact .refused h (by simp) hrefl
    · exact .admitted h (commit_admits ..)
  · exact .admitted h (commit_admits ..)
  · split at h
    · exact .admitted h (commit_admits ..)
    split at h
    · exact .refused h (by simp) hrefl
    split at h
    · cases h
    · exact .admitted h (commit_admits ..)

theorem addScheduledReq_admits {extent : ℤ × ℤ} {carriedChunk : Bool}
    (h : a.addScheduledReq cfg req extent carriedChunk = .ok a') :
    Admits cfg a a' (slotsOf cfg req) := by
  rw [Adder.addScheduledReq] at h
  split_ifs at h
  obtain rfl := Except.ok.inj h
  have hstart : ∀ b : Bool, (if b then { a with newChunkedReq := some req } else a).charged cfg =
      a.charged cfg ∧ (if b then { a with newChunkedReq := some req } else a).remMambaSlots =
        a.remMambaSlots := by
    rintro (_ | _) <;> exact ⟨rfl, rfl⟩
  obtain ⟨hcharged, hrem⟩ := hstart
    (!decide (extent.1 + extent.2 ≥ req.occupied) && !carriedChunk)
  obtain ⟨hcharge, hslots⟩ : Admits cfg _ _ (slotsOf cfg req) := commit_admits
    (if !decide (extent.1 + extent.2 ≥ req.occupied) && !carriedChunk then
      { a with newChunkedReq := some req } else a) req extent.1 extent.2 extent.2
    (if decide (extent.1 + extent.2 ≥ req.occupied) then
      min (req.maxNewTokens : ℤ) cfg.clipMaxNewTokens else 0)
  exact ⟨hcharge.trans (by rw [hcharged]), hslots.trans (by rw [hrem])⟩

/-- **One call of `add_one_req`**: the slots of a forwarded request are taken off in any case. -/
theorem addOneReq_outcome (h : a.addOneReq cfg req reads = .ok (res, a')) :
    Outcome cfg a res a' ∨ req.scheduled ≠ none ∧ Admits cfg a a' (slotsOf cfg req) := by
  have hsame : Same a a := ⟨rfl, rfl⟩
  rw [Adder.addOneReq] at h
  split at h
  · exact Or.inl (.refused h (by simp) hsame)
  split at h
  · exact Or.inl (.refused h (by simp) hsame)
  split at h
  · exact Or.inl (.refused h (by simp) hsame)
  split at h
  · exact Or.inl (.refused h (by simp) hsame)
  split at h
  · exact Or.inl (addOneReqIgnoreEos_outcome h)
  split at h
  next extent hscheduled =>
    split at h
    · cases h
    · obtain ⟨a₁, hok, heq⟩ := map_eq_ok h
      obtain ⟨-, rfl⟩ : _ ∧ a₁ = a' := by simpa using heq
      exact Or.inr ⟨by simp [hscheduled], addScheduledReq_admits hok⟩
  · exact Or.inl (addUnscheduled_outcome h)

/-- **One call of `add_chunked_req`**: nothing is admitted, or the slots of the request are taken
off. -/
theorem addChunkedReq_cases {chunked : Bool}
    (h : a.addChunkedReq cfg req reads = .ok (chunked, a')) :
    Same a a' ∨ Admits cfg a a' (slotsOf cfg req) := by
  rw [Adder.addChunkedReq] at h
  dsimp only at h
  split at h
  · obtain ⟨a₁, hok, heq⟩ := map_eq_ok h
    obtain ⟨-, rfl⟩ : _ ∧ a₁ = a' := by simpa using heq
    exact Or.inr (addScheduledReq_admits hok)
  split at h
  · obtain ⟨-, rfl⟩ := Prod.mk.inj (Except.ok.inj h)
    exact Or.inr (commit_admits ..)
  · cases h
  · split at h
    · obtain ⟨-, rfl⟩ := Prod.mk.inj (Except.ok.inj h)
      exact Or.inr (commit_admits ..)
    split at h
    · obtain ⟨-, rfl⟩ := Prod.mk.inj (Except.ok.inj h)
      exact Or.inl ⟨rfl, rfl⟩
    split at h
    · obtain ⟨-, rfl⟩ := Prod.mk.inj (Except.ok.inj h)
      exact Or.inl ⟨rfl, rfl⟩
    · obtain ⟨-, rfl⟩ := Prod.mk.inj (Except.ok.inj h)
      exact Or.inr (commit_admits ..)

end Calls

/-! ### The slots of a pass -/

section Pass

variable {cfg} {a a' : Adder} {slots : ℕ}

/-- What is left and what is charged are the slots of the pass, and what is charged is a multiple of
what a request takes. -/
def Accounted (cfg : Config) (slots : ℕ) (a : Adder) : Prop :=
  a.remMambaSlots = some (slots - a.charged cfg) ∧ (cfg.mambaSlotsPerReq : ℤ) ∣ a.charged cfg

theorem Accounted.same (h : Accounted cfg slots a) (hsame : Same a a') :
    Accounted cfg slots a' ∧ a'.charged cfg = a.charged cfg := by
  have hcharged : a'.charged cfg = a.charged cfg := by rw [Adder.charged, hsame.1, Adder.charged]
  exact ⟨⟨by rw [hsame.2, h.1, hcharged], by rw [hcharged]; exact h.2⟩, hcharged⟩

theorem Accounted.admits (h : Accounted cfg slots a) {taken : ℤ}
    (htaken : taken = 0 ∨ taken = cfg.mambaSlotsPerReq) (hadmits : Admits cfg a a' taken) :
    Accounted cfg slots a' := by
  obtain ⟨hcharged, hrem⟩ := hadmits
  refine ⟨?_, ?_⟩
  · rw [hrem, h.1, hcharged, Option.map_some, sub_sub]
  · rw [hcharged]
    rcases htaken with rfl | rfl
    · rw [add_zero]
      exact h.2
    · exact dvd_add h.2 (dvd_refl _)

/-- Two multiples, one below the other, are that far apart. -/
theorem charged_add_le (hdvd : cfg.mambaSlotsPerReq ∣ slots) (h : Accounted cfg slots a)
    (hlt : a.charged cfg < slots) {taken : ℤ}
    (htaken : taken = 0 ∨ taken = cfg.mambaSlotsPerReq) : a.charged cfg + taken ≤ slots := by
  have hgap : (cfg.mambaSlotsPerReq : ℤ) ≤ slots - a.charged cfg :=
    Int.le_of_dvd (by omega) (dvd_sub (Int.natCast_dvd_natCast.mpr hdvd) h.2)
  omega

/-- **A pass stays within its slots**, if they are a multiple of what a request takes and not all
are charged yet. -/
theorem charged_pass_le (hdvd : cfg.mambaSlotsPerReq ∣ slots) {calls : List Call}
    (hcalls : ∀ call ∈ calls, call.Stateful) (h : Accounted cfg slots a)
    (hlt : a.charged cfg < slots) (hpass : pass cfg a calls = .ok a') :
    a'.charged cfg ≤ slots := by
  induction calls generalizing a with
  | nil =>
    obtain rfl := Except.ok.inj hpass
    exact hlt.le
  | cons call calls ih =>
    have hrest : ∀ call ∈ calls, call.Stateful :=
      fun call hcall => hcalls call (List.mem_cons_of_mem _ hcall)
    have hcall := hcalls call List.mem_cons_self
    cases call with
    | chunked req reads =>
      rw [pass] at hpass
      split at hpass
      next chunked a₁ hok =>
        rcases addChunkedReq_cases hok with hsame | hadmits
        · obtain ⟨haccounted, hcharged⟩ := h.same hsame
          exact ih hrest haccounted (hcharged ▸ hlt) hpass
        · rw [slotsOf_of_state hcall] at hadmits
          have hcharged := hadmits.1
          exact ih hrest (h.admits (Or.inl rfl) hadmits) (by omega) hpass
      next => cases hpass
    | one req reads =>
      -- The slots after the call, and that some are left if the pass goes on.
      have hstep : ∀ {res a₁}, a.addOneReq cfg req reads = .ok (res, a₁) →
          Accounted cfg slots a₁ ∧ a₁.charged cfg ≤ slots ∧
            (res = .continue → a₁.charged cfg < slots) := by
        intro res a₁ hok
        rcases addOneReq_outcome hok with (⟨hsame, hres⟩ | ⟨taken, htaken, hadmits, hpos⟩) |
            ⟨hscheduled, hadmits⟩
        · obtain ⟨haccounted, hcharged⟩ := h.same hsame
          exact ⟨haccounted, by omega, fun hcontinue => absurd hcontinue hres⟩
        · have haccounted := h.admits htaken hadmits
          have hle := charged_add_le hdvd h hlt htaken
          refine ⟨haccounted, hadmits.1 ▸ hle, fun hcontinue => ?_⟩
          have hleft := hpos hcontinue _ (Option.mem_def.mpr haccounted.1)
          omega
        · rw [slotsOf_of_state (hcall hscheduled)] at hadmits
          have hcharged := hadmits.1
          exact ⟨h.admits (Or.inl rfl) hadmits, by omega, fun _ => by omega⟩
      rw [pass] at hpass
      split at hpass
      next a₁ hok =>
        obtain ⟨haccounted, -, hopen⟩ := hstep hok
        exact ih hrest haccounted (hopen rfl) hpass
      next res a₁ _ hok =>
        obtain rfl := Except.ok.inj hpass
        exact (hstep hok).2.1
      next => cases hpass

end Pass

/-! ### Requests that take slots until none are left -/

/-- A pool in which only the slots are scarce. -/
def plainConfig (mambaSlotsPerReq : ℕ) : Config where
  toConfig := IgnoreEos.tokenPool 0 1 []
  isHybridSwa := false
  slidingWindowSize := 0
  dllmBlockSize := none
  treeCacheDisabled := false
  prefillMaxRequests := none
  dsaPrefillCpInSeqSplit := false
  truncationAlignSize := none
  prefillSpillDeep := false
  prefillSpillRegionTokens := 0
  mambaSlotCost := 0
  mambaSlotsPerReq := mambaSlotsPerReq

/-- A request without state, of `input` tokens. -/
def newReq (input : ℕ) (scheduled : Option (ℤ × ℤ)) : Req where
  toReq := ⟨input, 0, 0, 0, false⟩
  hostHitLength := 0
  swaHostHitLength := 0
  needsHostLoadBack := false
  mambaPoolIdx := none
  scheduled := scheduled
  bornSpilled := false
  bornSpilledDeep := false

/-- Pools with `tokens` tokens. -/
def roomy (tokens : ℕ) : Reads where
  allowed := true
  stillAllowed := true
  before := ⟨tokens, 0⟩
  locked := ⟨tokens, 0⟩
  after := ⟨tokens, 0⟩
  loaded := 0
  loadedState := none
  fundable := tokens

/-- Budgets of a pass without chunks. -/
def plainBudgets (inputTokens : ℤ) : Budgets := ⟨0, 0, inputTokens, none, 0, 0⟩

/-- The adder after `i` empty requests. -/
def afterEmpty (slots perReq i : ℕ) : Adder where
  reqStates := none
  canRunList := List.replicate i ⟨newReq 0 none, 0, 0⟩
  newChunkedReq := none
  remTotalTokenOffset := i
  curRemTokenOffset := i
  remSwaTokenOffset := 0
  remInputTokens := 1
  remChunkTokens := none
  remDllmTokens := 0
  remMambaSlots := some (slots - i * perReq)
  prefillSpillRegions := 0
  prefillSpillDeepTaken := false

section Empty

variable {slots perReq i n : ℕ}

theorem charged_afterEmpty :
    (afterEmpty slots perReq i).charged (plainConfig perReq) = i * perReq := by
  simp [afterEmpty, Adder.charged, slotsOf, newReq, plainConfig]

theorem remTotalTokens_afterEmpty : (afterEmpty slots perReq i).remTotalTokens
    (plainConfig perReq) ⟨(n + 2 : ℕ), 0⟩ = n + 2 - i := by
  simp [afterEmpty, Adder.remTotalTokens, plainConfig, IgnoreEos.tokenPool]

theorem curRemTokens_afterEmpty : (afterEmpty slots perReq i).curRemTokens
    (plainConfig perReq) ⟨(n + 2 : ℕ), 0⟩ = n + 2 - i := by
  simp [afterEmpty, Adder.curRemTokens, plainConfig, IgnoreEos.tokenPool]

theorem addOneReq_afterEmpty (hi : i ≤ n) :
    (afterEmpty slots perReq i).addOneReq (plainConfig perReq) (newReq 0 none) (roomy (n + 2)) =
      .ok ((afterEmpty slots perReq (i + 1)).budgetState (plainConfig perReq) ⟨(n + 2 : ℕ), 0⟩,
        afterEmpty slots perReq (i + 1)) := by
  have hi' : (i : ℚ) ≤ n := by exact_mod_cast hi
  have htotal : ¬(1 : ℚ) ≥ (afterEmpty slots perReq i).remTotalTokens (plainConfig perReq)
      ⟨(n + 2 : ℕ), 0⟩ := by
    rw [remTotalTokens_afterEmpty]
    linarith
  have hwhole : (afterEmpty slots perReq i).addWhole (plainConfig perReq) (newReq 0 none)
      ((plainConfig perReq).ceilPagedTokens 0) = afterEmpty slots perReq (i + 1) := by
    simp [afterEmpty, Adder.addWhole, Adder.commit, Adder.updatePrefillBudget, plainConfig,
      IgnoreEos.tokenPool, newReq, IgnoreEos.Req.occupied, mambaGapBudgetForReq,
      Adder.mambaSlotsForReq, slotsOf, IgnoreEos.Config.ceilPagedTokens, List.replicate_succ',
      sub_sub, add_one_mul]
  have hpaged : ¬(plainConfig perReq).ceilPagedTokens 0 ≥
      (afterEmpty slots perReq i).remInputTokens := by
    simp [IgnoreEos.Config.ceilPagedTokens, afterEmpty]
  calc (afterEmpty slots perReq i).addOneReq (plainConfig perReq) (newReq 0 none) (roomy (n + 2))
      = (afterEmpty slots perReq i).addUnscheduled (plainConfig perReq) (newReq 0 none)
          (roomy (n + 2)) := by
        simp [Adder.addOneReq, afterEmpty, plainConfig, newReq, roomy]
    _ = (afterEmpty slots perReq i).addFitting (plainConfig perReq) (newReq 0 none)
          (roomy (n + 2)) 1 1 := if_neg htotal
    _ = (afterEmpty slots perReq i).addLoaded (plainConfig perReq) (newReq 0 none)
          (roomy (n + 2)) := by
        rw [Adder.addFitting, if_neg fun h => Bool.false_ne_true h.1,
          if_neg fun h => hpaged h.2.2, if_neg fun h => htotal h.1,
          if_neg fun h => Bool.false_ne_true h.1]
        rfl
    _ = _ := by
        rw [Adder.addLoaded, if_neg fun h => hpaged h.2.2]
        exact congrArg (fun a => Adder.admitted (plainConfig perReq) a (roomy (n + 2))) hwhole

theorem budgetState_afterEmpty (hi : i ≤ n + 1) (hleft : i * perReq < slots) :
    (afterEmpty slots perReq i).budgetState (plainConfig perReq) ⟨(n + 2 : ℕ), 0⟩ = .continue := by
  have hi' : (i : ℚ) ≤ n + 1 := by exact_mod_cast hi
  have hleft' : (i : ℤ) * perReq < slots := by exact_mod_cast hleft
  have htotal : ¬((afterEmpty slots perReq i).remTotalTokens (plainConfig perReq)
      ⟨(n + 2 : ℕ), 0⟩ ≤ 0 ∨ (afterEmpty slots perReq i).curRemTokens (plainConfig perReq)
      ⟨(n + 2 : ℕ), 0⟩ ≤ 0) := by
    rw [remTotalTokens_afterEmpty, curRemTokens_afterEmpty, not_or]
    constructor
    · linarith
    · omega
  have hslots : ¬∃ s ∈ (afterEmpty slots perReq i).remMambaSlots, s ≤ 0 := by
    simpa [afterEmpty] using hleft'
  have hdeep : ¬(afterEmpty slots perReq i).prefillSpillDeepTaken = true := Bool.false_ne_true
  rw [Adder.budgetState, if_neg hdeep, if_neg htotal, if_neg fun h => Bool.false_ne_true h.1,
    if_neg hslots]
  rfl

/-- **Empty requests are admitted as long as slots are left**, whatever the last one takes. -/
theorem pass_afterEmpty {m : ℕ} (hroom : i + m ≤ n)
    (hleft : ∀ j, i < j → j < i + m → j * perReq < slots) :
    pass (plainConfig perReq) (afterEmpty slots perReq i)
        (List.replicate m (.one (newReq 0 none) (roomy (n + 2)))) =
      .ok (afterEmpty slots perReq (i + m)) := by
  induction m generalizing i with
  | zero => rfl
  | succ m ih =>
    rw [List.replicate_succ, pass, addOneReq_afterEmpty (by omega)]
    cases m with
    | zero =>
      cases (afterEmpty slots perReq (i + 1)).budgetState (plainConfig perReq) ⟨(n + 2 : ℕ), 0⟩ <;>
        rfl
    | succ m =>
      rw [budgetState_afterEmpty (by omega) (hleft (i + 1) (by omega) (by omega))]
      have hrest := ih (i := i + 1) (by omega) fun j hj hlt => hleft j (by omega) (by omega)
      rw [Nat.add_right_comm, ← Nat.add_assoc] at hrest
      exact hrest

end Empty

/-- **When a pass stays within its slots**: in every pass in which the requests that are carried
over or forwarded have their state, the slots that are charged are not more than those that were
free, if and only if a request takes none, or these are a positive multiple of what a request
takes. -/
theorem charged_le_iff (slots perReq : ℕ) :
    (∀ cfg : Config, cfg.mambaSlotsPerReq = perReq → ∀ (budgets : Budgets) (calls : List Call),
      (∀ call ∈ calls, call.Stateful) → ∀ a, pass cfg (Adder.init budgets (some slots)) calls =
        .ok a → a.charged cfg ≤ slots) ↔
      perReq = 0 ∨ 0 < slots ∧ perReq ∣ slots := by
  constructor
  · intro hall
    by_contra hnot
    obtain ⟨hzero, hmultiple⟩ := not_or.mp hnot
    have hpos : 0 < perReq := Nat.pos_of_ne_zero hzero
    -- One request more than there are slots for.
    have hleft : ∀ j, 0 < j → j < 0 + (slots / perReq + 1) → j * perReq < slots := by
      intro j hj hlt
      have hle : j * perReq ≤ slots / perReq * perReq := Nat.mul_le_mul_right _ (by omega)
      have hdiv := Nat.div_mul_le_self slots perReq
      refine lt_of_le_of_ne (hle.trans hdiv) fun heq => hmultiple ⟨?_, ⟨j, ?_⟩⟩
      · have := Nat.mul_pos hj hpos
        omega
      · rw [← heq, Nat.mul_comm]
    have hpass := pass_afterEmpty (i := 0) (n := slots / perReq + 1) (by omega) hleft
    have hinit : afterEmpty slots perReq 0 = Adder.init (plainBudgets 1) (some (slots : ℤ)) := by
      simp [afterEmpty, Adder.init, plainBudgets]
    rw [hinit] at hpass
    have hle := hall (plainConfig perReq) rfl (plainBudgets 1) _ (fun call hcall => by
      obtain rfl := List.eq_of_mem_replicate hcall
      exact fun hscheduled => absurd rfl hscheduled) _ hpass
    rw [charged_afterEmpty, Nat.zero_add] at hle
    have hlt : slots < (slots / perReq + 1) * perReq := by
      rw [Nat.mul_comm]
      exact Nat.lt_mul_div_succ slots hpos
    have hle' : (slots / perReq + 1) * perReq ≤ slots := by exact_mod_cast hle
    omega
  · rintro hcases cfg rfl budgets calls hcalls a hpass
    rcases hcases with hzero | ⟨hpos, hdvd⟩
    · have hnone : a.charged cfg = 0 := by
        rw [Adder.charged]
        refine List.sum_eq_zero fun s hs => ?_
        obtain ⟨e, -, rfl⟩ := List.mem_map.mp hs
        rcases slotsOf_cases cfg e.req with h | h
        · exact h
        · rw [h, hzero, Nat.cast_zero]
      omega
    · have hinit : (Adder.init budgets (some (slots : ℤ))).charged cfg = 0 := rfl
      refine charged_pass_le hdvd hcalls ⟨?_, ?_⟩ (by omega) hpass
      · rw [hinit, sub_zero]
        rfl
      · rw [hinit]
        exact dvd_zero _

/-- **More slots are charged than are free**: 3 of a request when one is free, 1 when none is, and 2
of two forwarded requests when one is. -/
theorem slots_overcharged :
    ((pass (plainConfig 3) (Adder.init (plainBudgets 100) (some 1))
        [.one (newReq 5 none) (roomy 100)]).toOption.map fun a => a.charged (plainConfig 3)) =
      some 3 ∧
    ((pass (plainConfig 1) (Adder.init (plainBudgets 100) (some 0))
        [.one (newReq 5 none) (roomy 100)]).toOption.map fun a => a.charged (plainConfig 1)) =
      some 1 ∧
    ((pass (plainConfig 1) (Adder.init (plainBudgets 100) (some 1))
        [.one (newReq 5 (some (0, 5))) (roomy 100),
          .one (newReq 5 (some (0, 5))) (roomy 100)]).toOption.map fun a =>
      a.charged (plainConfig 1)) = some 2 := by
  decide +kernel

end PrefillAdder

end HtSglang
