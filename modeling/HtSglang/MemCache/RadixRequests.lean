import HtSglang.Library.OpRun
import HtSglang.MemCache.PageAllocator
import HtSglang.MemCache.RadixPages

/-!
# Requests that use the radix cache

What the scheduler does with a request and its row of slots: the prompt is matched and the node
it ends at is locked; slots are allocated for the rest, batch by batch; `cache_unfinished_req` gives
what there is to the tree and goes on from there; `cache_finished_req` ends the request. Evictions
come in between. The cache, the allocator and the requests make up one state
(`HtSglang.Radix.Requests.State`), and any number of requests take their steps in any order.

A request has one number that the program does not keep: where the slots that were allocated for
it begin in its row (`HtSglang.Radix.Requests.Req.ownFrom`). For a request that goes on from all of
its match it is `cache_protected_len`. A request that is clamped to a shorter prefix, as the
pipeline's admission does, allocates from there, and `cache_protected_len` stays where it was.
-/

namespace HtSglang

namespace Radix

namespace Requests

/-- The parameters: those of the cache and those of the allocator, with pages of one size. -/
structure Setup where
  cache : Config
  /-- The class of the allocator is `PagedTokenToKVPoolAllocator`. -/
  paged : Bool
  needSort : Bool
  numPages : ℕ
  /-- The other class has pages of one slot. -/
  token : paged = false → cache.pageSize = 1

/-- The pool of slots. -/
def Setup.pool (S : Setup) : Pool.Config where
  pageSize := S.cache.pageSize
  paged := S.paged
  needSort := S.needSort
  numPages := S.numPages
  pos := S.cache.pos
  token := S.token

/-- What a step can fail with. -/
inductive RequestError
  /-- What the cache raised. -/
  | cache (e : RadixError)
  /-- There is no such request. -/
  | noRequest
  /-- `AssertionError`: the match after an insert is not as long as the key. -/
  | shortMatch
  /-- `RuntimeError`: out of memory. -/
  | outOfMemory
deriving DecidableEq

/-- `Req`, as far as the cache and the allocator use it. -/
structure Req where
  /-- The prompt and the output so far. -/
  tokens : List ℤ
  extraKey : Option String
  /-- The slots in its row of `req_to_token`. -/
  row : List ℤ
  /-- `cache_protected_len`. -/
  protectedLen : ℕ
  lastNode : NodeId
  /-- `req_pool_idx` is set. -/
  pooled : Bool
  /-- Where the slots that were allocated for the request begin. -/
  ownFrom : ℕ

/-- The cache, the allocator and the requests. -/
structure State where
  cache : Cache
  allocator : Pool.Allocator
  /-- The running requests. -/
  reqs : List (ℕ × Req)

/-- A step of the scheduler. -/
inductive Op
  /-- `match_prefix` for a request that waits. -/
  | matchPrefix (key : RadixKey)
  /-- `match_prefix` and `inc_lock_ref` for a request that is admitted, perhaps with a prefix it is
  clamped to. -/
  | start (rid : ℕ) (tokens : List ℤ) (extraKey : Option String) (limit : Option ℕ)
      (told : Option ℕ)
  /-- Tokens are added to the output. -/
  | addTokens (rid : ℕ) (tokens : List ℤ)
  /-- `alloc_for_extend`: how many slots for whom. -/
  | extend (batch : List (ℕ × ℕ))
  /-- `alloc_for_decode`. -/
  | decode (batch : List ℕ)
  /-- `cache_unfinished_req`. -/
  | cacheUnfinished (rid : ℕ)
  /-- `cache_finished_req`. -/
  | cacheFinished (rid : ℕ) (isInsert : Bool)
  /-- `evict`, under an eviction strategy. -/
  | evict (strategy : Cache → List NodeId → ℕ) (numTokens : ℕ)

section Steps

variable (S : Setup)

/-- What the cache raises is raised. -/
def lift {α : Type} (x : Except RadixError α) : Except RequestError α := x.mapError .cache

/-- The key of a request that is cached: the tokens it has slots for. -/
def reqKey (r : Req) : RadixKey :=
  RadixKey.pageAligned
    { tokenIds := r.tokens.take r.row.length
      extraKey := r.extraKey
      isBigram := S.cache.isEagle
      limit := none } S.cache.pageSize

/-- A request with the result of its match, clamped to the prefix it was told. -/
def admitted (tokens : List ℤ) (extraKey : Option String) (told : Option ℕ) (indices : List ℤ)
    (node : NodeId) : Req where
  tokens := tokens
  extraKey := extraKey
  row := indices.take (told.getD indices.length)
  protectedLen := indices.length
  lastNode := node
  pooled := false
  ownFrom := (indices.take (told.getD indices.length)).length

/-- `match_prefix`, `inc_lock_ref` and the clamp. -/
def start (s : State) (rid : ℕ) (tokens : List ℤ) (extraKey : Option String)
    (limit told : Option ℕ) :
    Except RequestError State := do
  let m ← lift (matchPrefix S.cache s.cache
    { tokenIds := tokens, extraKey := extraKey, isBigram := false, limit := limit })
  let r ← lift (incLockRef m.1 m.2.2)
  .ok
    { s with
      cache := r.1
      reqs := Dict.set s.reqs rid (admitted tokens extraKey told m.2.1 m.2.2) }

/-- What the allocator is told about a request. -/
def extendOf (reqs : List (ℕ × Req)) (rid n : ℕ) : Pool.Extend :=
  let row := (reqs.lookup rid).elim [] Req.row
  { prefixLen := row.length, seqLen := row.length + n, lastLoc := row.getLast?.getD (-1) }

/-- `write_cache_indices`, for one request. -/
def writeRow (reqs : List (ℕ × Req)) (rid : ℕ) (out : List ℤ) : List (ℕ × Req) :=
  match reqs.lookup rid with
  | none => reqs
  | some r => Dict.set reqs rid { r with row := r.row ++ out, pooled := true }

/-- `write_cache_indices`. -/
def writeRows (reqs : List (ℕ × Req)) : List ℕ → List (List ℤ) → List (ℕ × Req)
  | rid :: rids, out :: outs => writeRows (writeRow reqs rid out) rids outs
  | _, _ => reqs

/-- The rows of a batch are extended by what the allocator gave. -/
def grow (s : State) (rids : List ℕ) (got : Option (Pool.Allocator × List (List ℤ))) :
    Except RequestError State :=
  match got with
  | none => .error .outOfMemory
  | some (a, outs) => .ok { s with allocator := a, reqs := writeRows s.reqs rids outs }

/-- `cache_unfinished_req`. -/
def cacheUnfinished (s : State) (rid : ℕ) : Except RequestError State :=
  match s.reqs.lookup rid with
  | none => .error .noRequest
  | some r => do
    let key := reqKey S r
    let ins ← lift (insert S.cache s.cache key (some (r.row.take key.len)))
    let a := Pool.free S.pool s.allocator ((r.row.take ins.2.1).drop r.protectedLen)
    let m ← lift (matchPrefix S.cache ins.1 key)
    if m.2.1.length ≠ key.len then .error .shortMatch
    else do
      let row := r.row.take r.protectedLen ++ m.2.1.drop r.protectedLen
        ++ r.row.drop (max r.protectedLen m.2.1.length)
      let c ← lift (decLockRef m.1 r.lastNode)
      let c ← lift (incLockRef c.1 m.2.2)
      .ok
        { cache := c.1
          allocator := a
          reqs := Dict.set s.reqs rid
            { r with
              row := row
              protectedLen := m.2.1.length
              lastNode := m.2.2
              ownFrom := m.2.1.length } }

/-- The insert of `cache_finished_req`: the cache, and how much was there. -/
def finishInsert (s : State) (r : Req) (isInsert : Bool) : Except RequestError (Cache × ℕ) :=
  if isInsert then do
    let ins ← lift (insert S.cache s.cache (reqKey S r) (some (r.row.take (reqKey S r).len)))
    .ok (ins.1, ins.2.1)
  else .ok (s.cache, (reqKey S r).len)

/-- `cache_finished_req`. -/
def cacheFinished (s : State) (rid : ℕ) (isInsert : Bool) : Except RequestError State :=
  match s.reqs.lookup rid with
  | none => .error .noRequest
  | some r => do
    let ins ← finishInsert S s r isInsert
    let a := Pool.free S.pool s.allocator ((r.row.take ins.2).drop r.protectedLen)
    -- the tail that is no page
    let a := Pool.free S.pool a (r.row.drop (reqKey S r).len)
    let c ← lift (decLockRef ins.1 r.lastNode)
    .ok { cache := c.1, allocator := a, reqs := Dict.erase s.reqs rid }

/-- One step. -/
def step (s : State) : Op → Except RequestError State
  | .matchPrefix key => do
    let m ← lift (matchPrefix S.cache s.cache key)
    .ok { s with cache := m.1 }
  | .start rid tokens extraKey limit told => start S s rid tokens extraKey limit told
  | .addTokens rid tokens =>
    match s.reqs.lookup rid with
    | none => .error .noRequest
    | some r =>
      .ok { s with reqs := Dict.set s.reqs rid { r with tokens := r.tokens ++ tokens } }
  | .extend batch =>
    grow s (batch.map Prod.fst)
      (Pool.allocForExtend S.pool s.allocator (batch.map fun b => extendOf s.reqs b.1 b.2))
  | .decode batch =>
    grow s batch
      (Pool.allocForDecode S.pool s.allocator (batch.map fun rid => extendOf s.reqs rid 1))
  | .cacheUnfinished rid => cacheUnfinished S s rid
  | .cacheFinished rid isInsert => cacheFinished S s rid isInsert
  | .evict strategy numTokens => do
    let e ← lift (evict S.cache s.cache strategy numTokens)
    .ok { s with cache := e.cache, allocator := e.freed.foldl (Pool.free S.pool) s.allocator }

/-- A request can take so many slots more: it has the tokens. -/
def CanGrow (s : State) (rid n : ℕ) : Prop :=
  (s.reqs.lookup rid).any (fun r => decide (r.row.length + n ≤ r.tokens.length)) = true

/-- A request has a row. -/
def HasRow (s : State) (rid : ℕ) : Prop := (s.reqs.lookup rid).any Req.pooled = true

/-- What the scheduler sees to: a request is started once, clamped to whole pages, extended by the
tokens it has, and cached when it was given slots. -/
def Permitted (s : State) : Op → Prop
  | .start rid _ _ _ told => rid ∉ Dict.keys s.reqs ∧ ∀ t ∈ told, S.cache.pageSize ∣ t
  | .addTokens rid _ => rid ∈ Dict.keys s.reqs
  | .extend batch => (batch.map Prod.fst).Nodup ∧ ∀ b ∈ batch, 0 < b.2 ∧ CanGrow s b.1 b.2
  | .decode batch => batch.Nodup ∧ ∀ rid ∈ batch, CanGrow s rid 1
  | .cacheUnfinished rid => HasRow s rid
  | .cacheFinished rid _ => HasRow s rid
  | _ => True

/-- The scheduler with its cache and its allocator. -/
def system : OpSystem State Op RequestError where
  step := step S
  Permitted := Permitted S

instance (s : State) (rid n : ℕ) : Decidable (CanGrow s rid n) :=
  inferInstanceAs (Decidable (_ = true))

instance (s : State) (rid : ℕ) : Decidable (HasRow s rid) := inferInstanceAs (Decidable (_ = true))

instance (s : State) (op : Op) : Decidable (Permitted S s op) :=
  match op with
  | .matchPrefix _ => .isTrue trivial
  | .start rid _ _ _ told =>
    inferInstanceAs (Decidable (rid ∉ Dict.keys s.reqs ∧ ∀ t ∈ told, S.cache.pageSize ∣ t))
  | .addTokens rid _ => inferInstanceAs (Decidable (rid ∈ Dict.keys s.reqs))
  | .extend batch => inferInstanceAs (Decidable ((batch.map Prod.fst).Nodup ∧
      ∀ b ∈ batch, 0 < b.2 ∧ CanGrow s b.1 b.2))
  | .decode batch => inferInstanceAs (Decidable (batch.Nodup ∧ ∀ rid ∈ batch, CanGrow s rid 1))
  | .cacheUnfinished rid => inferInstanceAs (Decidable (HasRow s rid))
  | .cacheFinished rid _ => inferInstanceAs (Decidable (HasRow s rid))
  | .evict _ _ => .isTrue trivial

instance (s : State) (op : Op) : Decidable ((system S).Permitted s op) :=
  inferInstanceAs (Decidable (Permitted S s op))

/-- The start: nothing is cached, all pages are free, no requests. -/
def init : State where
  cache := reset
  allocator := Pool.clear S.pool
  reqs := []

/-- No request is clamped. -/
def Unclamped (_ : State) : Op → Prop
  | .start _ _ _ _ told => told = none
  | _ => True

/-- **No request is cached beyond where its own slots begin while it is protected beyond that.** -/
def KeepsSlots (s : State) : Op → Prop
  | .cacheUnfinished rid | .cacheFinished rid _ => (s.reqs.lookup rid).all
      (fun r => decide (min (reqKey S r).len r.protectedLen ≤ r.ownFrom)) = true
  | _ => True

instance (s : State) (op : Op) : Decidable (Unclamped s op) :=
  match op with
  | .start _ _ _ _ told => inferInstanceAs (Decidable (told = none))
  | .matchPrefix _ => .isTrue trivial
  | .addTokens _ _ => .isTrue trivial
  | .extend _ => .isTrue trivial
  | .decode _ => .isTrue trivial
  | .cacheUnfinished _ => .isTrue trivial
  | .cacheFinished _ _ => .isTrue trivial
  | .evict _ _ => .isTrue trivial

end Steps

end Requests

end Radix

end HtSglang
