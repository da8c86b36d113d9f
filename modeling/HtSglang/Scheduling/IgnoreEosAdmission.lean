import Mathlib

/-!
# Admission of requests that ignore the end of sequence

A request that ignores the end-of-sequence token decodes until its `max_new_tokens`, so the future
of a batch of such requests is known. `PrefillAdder.add_one_req_ignore_eos`
(`managers/schedule_policy.py`) looks into it before it admits one more: it keeps a list of the
tokens that each request has still to decode and of those it occupies, and goes through the list
as through the points in time at which requests end and give back what they occupy
(`HtSglang.IgnoreEos.simulate`).

The list is sorted once; later requests are inserted, and one that decodes longer than all others
goes before the last entry instead of behind it. It makes no difference: the check is sound for a
list in any order (`HtSglang.IgnoreEos.growth_le_of_simulate`), since at any time the first entry of
a request that still decodes has been checked with all those that may still do.

What makes a difference is what is in the list. A running request that may end early is put there
with a fraction of its tokens; a request that is refused stays in the list as if it were going to
give back tokens; and a running request is credited with all its tokens, although the newest may
not be stored yet. The scheduler stops at the first answer that is not `CONTINUE`
(`HtSglang.IgnoreEos.offerUntil`). Then the pool is never exceeded by more than the number of
tokens of the last kind: `HtSglang.IgnoreEos.admitted_decode_fits`.
-/

namespace HtSglang

namespace IgnoreEos

/-! ### The adder -/

/-- What is read of a request. -/
structure Req where
  /-- `len(origin_input_ids)`. -/
  originInputLen : ℕ
  /-- `len(output_ids)`. -/
  outputLen : ℕ
  /-- `len(prefix_indices)`. -/
  prefixIndicesLen : ℕ
  /-- `sampling_params.max_new_tokens`. -/
  maxNewTokens : ℕ
  /-- `sampling_params.ignore_eos`. -/
  ignoreEos : Bool

/-- The tokens of a request, which are also its `full_untruncated_fill_ids`. -/
def Req.occupied (r : Req) : ℕ := r.originInputLen + r.outputLen

/-- A request that decodes. -/
structure Running extends Req where
  /-- Whether the newest of its tokens is stored in the pool. -/
  lastStored : Bool

/-- What does not change while requests are offered. -/
structure Config where
  /-- The size of the pool. -/
  pool : ℕ
  pageSize : ℕ
  /-- `running_batch.reqs`. -/
  running : List Running
  newTokenRatio : ℚ
  dcpAvailDeficit : ℕ
  fundableExtendFloor : Option ℤ
  /-- What the commitment ledger has outstanding, 0 if there is none. -/
  outstandingTokens : ℕ
  clipMaxNewTokens : ℤ

/-- `AddReqResult`. -/
inductive AddReqResult
  | continue
  | noToken
  | other
  deriving DecidableEq, Repr

/-- The `PrefillAdder`. -/
structure Adder where
  /-- `req_states`: the tokens left and the tokens occupied. -/
  reqStates : Option (List (ℚ × ℕ))
  canRunList : List Req
  newChunkedReq : Option Req
  remTotalTokenOffset : ℚ
  curRemTokenOffset : ℤ
  remInputTokens : ℤ
  remChunkTokens : Option ℤ

/-- The tokens of a running request that are in the pool. -/
def Running.held (r : Running) : ℕ := r.occupied - if r.lastStored then 0 else 1

/-- The tokens of some requests that are in the pool. -/
def heldBy (requests : List Running) : ℕ := (requests.map Running.held).sum

/-- `available_size()` of a pool that holds the tokens of the running requests; a disabled tree
cache has nothing to evict. -/
def Config.availableSize (cfg : Config) : ℤ := cfg.pool - heldBy cfg.running

/-- `ceil_paged_tokens`. -/
def Config.ceilPagedTokens (cfg : Config) (tokens : ℤ) : ℤ :=
  -(-tokens / cfg.pageSize) * cfg.pageSize

/-- The constructor. -/
def Adder.init (cfg : Config) (remInputTokens : ℤ) (remChunkTokens : Option ℤ)
    (numMixedDecodeTokens : ℕ) : Adder where
  reqStates := none
  canRunList := []
  newChunkedReq := none
  remTotalTokenOffset := numMixedDecodeTokens + (cfg.running.map fun r =>
    (min ((r.maxNewTokens : ℤ) - r.outputLen) cfg.clipMaxNewTokens : ℤ) * cfg.newTokenRatio).sum
  curRemTokenOffset := numMixedDecodeTokens
  remInputTokens := remInputTokens - numMixedDecodeTokens
  remChunkTokens := remChunkTokens.map (· - (numMixedDecodeTokens : ℤ))

/-- `rem_total_tokens`. -/
def Adder.remTotalTokens (cfg : Config) (a : Adder) : ℚ :=
  let localBudget := cfg.availableSize - a.remTotalTokenOffset - cfg.dcpAvailDeficit
  let budget := match cfg.fundableExtendFloor with
    | none => localBudget
    | some floor => min localBudget (floor - a.remTotalTokenOffset)
  budget - cfg.outstandingTokens

/-- `cur_rem_tokens`. -/
def Adder.curRemTokens (cfg : Config) (a : Adder) : ℤ :=
  cfg.availableSize - a.curRemTokenOffset - cfg.dcpAvailDeficit

/-- `budget_state`. -/
def Adder.budgetState (cfg : Config) (a : Adder) : AddReqResult :=
  if a.remTotalTokens cfg ≤ 0 ∨ a.curRemTokens cfg ≤ 0 then .noToken
  else if a.remInputTokens ≤ 0 then .other
  else match a.remChunkTokens with
    | some c => if c ≤ 0 then .other else .continue
    | none => .continue

/-- `_update_prefill_budget`. -/
def Adder.updatePrefillBudget (cfg : Config) (a : Adder) (extendInputLen maxNewTokens : ℤ) :
    Adder :=
  let extendInputLen := cfg.ceilPagedTokens extendInputLen
  { a with
    remTotalTokenOffset :=
      a.remTotalTokenOffset + (extendInputLen + maxNewTokens + cfg.pageSize : ℤ)
    curRemTokenOffset := a.curRemTokenOffset + extendInputLen + cfg.pageSize
    remInputTokens := a.remInputTokens - extendInputLen
    remChunkTokens := a.remChunkTokens.map (· - extendInputLen) }

/-! ### The look into the future -/

/-- The tokens that a request has left, as `add_req_state` computes them. -/
def tokensLeft (cfg : Config) (r : Req) : ℚ :=
  r.maxNewTokens * (if r.ignoreEos then 1 else cfg.newTokenRatio) - r.outputLen

/-- The entry of a request, if it has tokens left. -/
def reqState (cfg : Config) (r : Req) : Option (ℚ × ℕ) :=
  if tokensLeft cfg r ≤ 0 then none else some (tokensLeft cfg r, r.occupied)

/-- The insertion of `add_req_state`. Where no entry has as many tokens left, the loop ends on the
last index. -/
def insertState (states : List (ℚ × ℕ)) (e : ℚ × ℕ) : List (ℚ × ℕ) :=
  match states.findIdx? fun s => e.1 ≤ s.1 with
  | some i => states.insertIdx i e
  | none => states.insertIdx (states.length - 1) e

/-- The list, with the request that is offered. -/
def Adder.statesWith (cfg : Config) (a : Adder) (req : Req) : List (ℚ × ℕ) :=
  match a.reqStates with
  | none => ((req :: cfg.running.map Running.toReq ++ a.canRunList).filterMap
      (reqState cfg)).insertionSort fun x y => x.1 ≤ y.1
  | some states =>
    match reqState cfg req with
    | none => states
    | some e => insertState states e

/-- `IGNORE_EOS_RESERVE_TOKENS`. -/
def ignoreEosReserveTokens : ℕ := 1

/-- The loop over the list: whether there are enough tokens at each of its points. -/
def simulate (curRemTokens : ℤ) : List (ℚ × ℕ) → (tokensFreed : ℕ) → Bool
  | [], _ => true
  | (left, occupied) :: rest, tokensFreed =>
    let bs := rest.length + 1
    if curRemTokens + tokensFreed - left * bs ≤ ignoreEosReserveTokens * bs then false
    else simulate curRemTokens rest (tokensFreed + occupied)

/-- The end of `add_one_req_ignore_eos`: the request is admitted, as a whole or with a first
chunk. -/
def Adder.admitReq (cfg : Config) (a : Adder) (req : Req) (candExtendInputLen : ℤ) :
    Except String (AddReqResult × Adder) :=
  let whole := Adder.updatePrefillBudget cfg { a with canRunList := a.canRunList ++ [req] }
    candExtendInputLen (min (req.maxNewTokens : ℤ) cfg.clipMaxNewTokens)
  match a.remChunkTokens with
  | none => .ok (whole.budgetState cfg, whole)
  | some c =>
    if candExtendInputLen ≤ c then .ok (whole.budgetState cfg, whole)
    else if c ≤ 0 then .ok (.other, a)
    else if req.prefixIndicesLen ≠ 0 then .error "AssertionError"
    else
      let chunked := Adder.updatePrefillBudget cfg
        { a with canRunList := a.canRunList ++ [req], newChunkedReq := some req } c 0
      .ok (chunked.budgetState cfg, chunked)

/-- `add_one_req_ignore_eos`; `allowed` is what the prefill delayer says. -/
def Adder.addOneReqIgnoreEos (cfg : Config) (a : Adder) (req : Req) (allowed : Bool) :
    Except String (AddReqResult × Adder) :=
  let candExtendInputLen : ℤ := (req.occupied : ℤ) - req.prefixIndicesLen
  let pagedInput := cfg.ceilPagedTokens candExtendInputLen
  if (pagedInput : ℚ) > min (a.curRemTokens cfg : ℚ) (a.remTotalTokens cfg) then .ok (.noToken, a)
  else
    let states := a.statesWith cfg req
    let a' := { a with reqStates := some states }
    if ¬simulate (a.curRemTokens cfg - pagedInput) states 0 then .ok (.noToken, a')
    else if ¬allowed then .ok (.other, a')
    else a'.admitReq cfg req candExtendInputLen

/-- The requests are offered one after the other, until one is not answered with `CONTINUE`, as the
scheduler does. -/
def offerUntil (cfg : Config) : Adder → List (Req × Bool) → Except String Adder
  | a, [] => .ok a
  | a, (req, allowed) :: offers =>
    match a.addOneReqIgnoreEos cfg req allowed with
    | .ok (.continue, a') => offerUntil cfg a' offers
    | .ok (_, a') => .ok a'
    | .error e => .error e

/-- All requests are offered, whatever is answered. -/
def offerAll (cfg : Config) : Adder → List (Req × Bool) → Except String Adder
  | a, [] => .ok a
  | a, (req, allowed) :: offers =>
    match a.addOneReqIgnoreEos cfg req allowed with
    | .ok (_, a') => offerAll cfg a' offers
    | .error e => .error e

/-! ### Decoding in lockstep -/

/-- The tokens that a request has still to decode. -/
def Req.left (r : Req) : ℕ := r.maxNewTokens - r.outputLen

/-- An admitted request, when it has been prefilled. -/
def Req.prefilled (r : Req) : Running := { r with lastStored := true }

/-- The tokens that are in use after `t` steps in each of which every request decodes one token;
a request that has decoded its last token gives all back with the next step. -/
def inUse (requests : List Running) (t : ℕ) : ℕ :=
  (requests.map fun r => if t ≤ r.left then r.held + t else 0).sum

/-- The requests that decode: those that run, and those that are admitted. -/
def Adder.decoding (cfg : Config) (a : Adder) : List Running :=
  cfg.running ++ a.canRunList.map Req.prefilled

/-! ### The check is sound in any order -/

section Simulate

variable {cfg : Config}

/-- The requests of a list that decode until `t`. -/
def alive (states : List (ℚ × ℕ)) (t : ℚ) : ℕ := states.countP fun e => t ≤ e.1

/-- The tokens that the requests of a list need until `t`, if each still decodes at `t` that has as
many tokens left. -/
def growth (states : List (ℚ × ℕ)) (t : ℚ) : ℚ := t * alive states t

/-- What the requests of a list that have ended before `t` have given back. -/
def freedBy (states : List (ℚ × ℕ)) (t : ℚ) : ℕ :=
  ((states.filter fun e => e.1 < t).map Prod.snd).sum

theorem growth_nil (t : ℚ) : growth [] t = 0 := by
  simp [growth, alive]

theorem growth_cons (e : ℚ × ℕ) (states : List (ℚ × ℕ)) (t : ℚ) :
    growth (e :: states) t = growth states t + if t ≤ e.1 then t else 0 := by
  rw [growth, growth, alive, alive, List.countP_cons]
  by_cases h : t ≤ e.1
  · simp [h, mul_add]
  · simp [h]

theorem alive_perm {states states' : List (ℚ × ℕ)} (h : states.Perm states') (t : ℚ) :
    alive states t = alive states' t := h.countP_eq _

theorem freedBy_nil (t : ℚ) : freedBy [] t = 0 := rfl

theorem freedBy_cons (e : ℚ × ℕ) (states : List (ℚ × ℕ)) (t : ℚ) :
    freedBy (e :: states) t = freedBy states t + if t ≤ e.1 then 0 else e.2 := by
  rw [freedBy, freedBy, List.filter_cons]
  by_cases h : t ≤ e.1
  · simp [h, not_lt.mpr h]
  · simp [h, not_le.mp h, add_comm]

theorem freedBy_perm {states states' : List (ℚ × ℕ)} (h : states.Perm states') (t : ℚ) :
    freedBy states t = freedBy states' t :=
  ((h.filter _).map Prod.snd).sum_eq

/-- No more requests grow than there are. -/
theorem growth_le_length (states : List (ℚ × ℕ)) {t : ℚ} (ht : 0 ≤ t) :
    growth states t ≤ t * states.length := by
  rw [growth]
  exact mul_le_mul_of_nonneg_left (by exact_mod_cast List.countP_le_length) ht

/-- **A list that passes the check is safe at every time**, in whatever order it is. At a time `t`,
the entries before the first one that still decodes have given back their tokens, and that one was
checked with as many requests as may decode, for at least as many tokens. -/
theorem growth_le_of_simulate {curRemTokens : ℤ} {states : List (ℚ × ℕ)} {tokensFreed : ℕ}
    (hroom : 0 ≤ curRemTokens) (h : simulate curRemTokens states tokensFreed = true) (t : ℕ) :
    growth states t ≤ curRemTokens + tokensFreed + freedBy states t := by
  induction states generalizing tokensFreed with
  | nil =>
    rw [growth_nil, freedBy_nil]
    have : (0 : ℚ) ≤ curRemTokens := by exact_mod_cast hroom
    positivity
  | cons e states ih =>
    rw [simulate] at h
    split at h
    · cases h
    next hpoint =>
    by_cases hdecodes : (t : ℚ) ≤ e.1
    · have hgrowth : growth (e :: states) t ≤ e.1 * (states.length + 1) := by
        refine (growth_le_length _ (Nat.cast_nonneg t)).trans ?_
        rw [List.length_cons, Nat.cast_add_one]
        exact mul_le_mul_of_nonneg_right hdecodes (by positivity)
      have hreserve : (0 : ℚ) ≤ (ignoreEosReserveTokens : ℚ) * (states.length + 1 : ℕ) := by
        positivity
      have hfreed : (0 : ℚ) ≤ freedBy (e :: states) t := Nat.cast_nonneg _
      push_cast at hpoint hreserve
      linarith [not_le.mp hpoint]
    · have hrest := ih h
      rw [growth_cons, freedBy_cons, if_neg hdecodes, if_neg hdecodes]
      push_cast at hrest ⊢
      linarith

/-! ### What is listed covers what decodes -/

/-- The requests whose newest token is not stored. -/
def unstored (requests : List Running) : ℕ := requests.countP fun r => !r.lastStored

/-- What is listed as left is not less than what is left: the request ignores the end of sequence,
or nothing is taken off for the chance that it ends early. -/
def DecodesAll (cfg : Config) (r : Req) : Prop := r.ignoreEos = true ∨ 1 ≤ cfg.newTokenRatio

instance (cfg : Config) (r : Req) : Decidable (DecodesAll cfg r) :=
  inferInstanceAs (Decidable (_ ∨ _))

theorem reqState_eq_none {r : Req} (h : tokensLeft cfg r ≤ 0) : reqState cfg r = none := if_pos h

theorem reqState_eq_some {r : Req} (h : ¬tokensLeft cfg r ≤ 0) :
    reqState cfg r = some (tokensLeft cfg r, r.occupied) := if_neg h

theorem le_tokensLeft {r : Req} (h : DecodesAll cfg r) {t : ℕ} (ht : 1 ≤ t) (hleft : t ≤ r.left) :
    (t : ℚ) ≤ tokensLeft cfg r := by
  have hratio : (1 : ℚ) ≤ if r.ignoreEos then 1 else cfg.newTokenRatio := by
    split
    · exact le_rfl
    · next hignore => exact h.resolve_left hignore
  have hleft' : (t : ℚ) + r.outputLen ≤ r.maxNewTokens := by
    rw [Req.left] at hleft
    exact_mod_cast (by omega : t + r.outputLen ≤ r.maxNewTokens)
  have hscaled := mul_le_mul_of_nonneg_left hratio (Nat.cast_nonneg (α := ℚ) r.maxNewTokens)
  rw [tokensLeft]
  linarith

theorem occupied_le_held (r : Running) :
    r.occupied ≤ r.held + if r.lastStored then 0 else 1 := by
  rw [Running.held]
  omega

/-- **What is in use**, in terms of the list: the tokens that were held, those that have been
decoded since, and not those that are credited to the requests that have ended – up to one token
for each of those. -/
theorem inUse_le {requests : List Running}
    (hall : ∀ r ∈ requests, DecodesAll cfg r.toReq) {t : ℕ} (ht : 1 ≤ t) :
    (inUse requests t : ℚ) + freedBy ((requests.map Running.toReq).filterMap (reqState cfg)) t ≤
      heldBy requests + unstored requests +
        growth ((requests.map Running.toReq).filterMap (reqState cfg)) t := by
  induction requests with
  | nil => simp [inUse, heldBy, unstored, freedBy_nil, growth_nil]
  | cons r requests ih =>
    have hrest := ih fun r' hr' => hall r' (List.mem_cons_of_mem r hr')
    have hr := hall r List.mem_cons_self
    have huse : inUse (r :: requests) t =
        (if t ≤ r.left then r.held + t else 0) + inUse requests t := by
      simp [inUse]
    have hstored : unstored (r :: requests) =
        unstored requests + if r.lastStored then 0 else 1 := by
      rw [unstored, unstored, List.countP_cons]
      cases r.lastStored <;> simp
    have hheld : heldBy (r :: requests) = r.held + heldBy requests := by
      simp [heldBy]
    have hstep : (0 : ℚ) ≤ if r.lastStored = true then 0 else 1 := by
      split
      · exact le_rfl
      · exact zero_le_one
    rw [huse, hstored, hheld, List.map_cons]
    by_cases hnone : tokensLeft cfg r.toReq ≤ 0
    · -- The request is not listed: it has no tokens left.
      have hended : ¬t ≤ r.left := by
        intro hleft
        have hle := le_tokensLeft hr ht hleft
        have hpos : (1 : ℚ) ≤ t := by exact_mod_cast ht
        linarith
      rw [List.filterMap_cons_none (reqState_eq_none hnone), if_neg hended]
      push_cast
      linarith [Nat.cast_nonneg (α := ℚ) r.held]
    · rw [List.filterMap_cons_some (reqState_eq_some hnone), growth_cons, freedBy_cons]
      by_cases hdecodes : (t : ℚ) ≤ tokensLeft cfg r.toReq
      · have huses : ((if t ≤ r.left then r.held + t else 0 : ℕ) : ℚ) ≤ r.held + t := by
          split
          · push_cast
            exact le_rfl
          · positivity
        rw [if_pos hdecodes, if_pos hdecodes]
        push_cast at huses ⊢
        linarith
      · have hcredit : (r.occupied : ℚ) ≤ r.held + if r.lastStored = true then 0 else 1 := by
          exact_mod_cast occupied_le_held r
        rw [if_neg hdecodes, if_neg hdecodes,
          if_neg fun hleft => hdecodes (le_tokensLeft hr ht hleft)]
        push_cast
        linarith

/-- **Requests whose list passes the check fit into the pool**, up to one token for each whose
newest token is not stored. -/
theorem inUse_le_of_simulate {requests : List Running} {states : List (ℚ × ℕ)} {curRemTokens : ℤ}
    {pool : ℕ} (hall : ∀ r ∈ requests, DecodesAll cfg r.toReq)
    (hstates : states.Perm ((requests.map Running.toReq).filterMap (reqState cfg)))
    (hroom : 0 ≤ curRemTokens)
    (hpool : heldBy requests + curRemTokens ≤ pool)
    (h : simulate curRemTokens states 0 = true) (t : ℕ) :
    inUse requests t ≤ pool + unstored requests := by
  rcases Nat.eq_zero_or_pos t with rfl | ht
  · have hstart : inUse requests 0 = heldBy requests := by
      simp [inUse, heldBy]
    omega
  · have huse := inUse_le hall ht
    have hgrowth := growth_le_of_simulate hroom h t
    rw [growth, alive_perm hstates, freedBy_perm hstates, ← growth] at hgrowth
    have hpool' : (heldBy requests : ℚ) + curRemTokens ≤ pool := by
      exact_mod_cast hpool
    have hle : (inUse requests t : ℚ) ≤ pool + unstored requests := by
      push_cast at hgrowth
      linarith
    exact_mod_cast hle

end Simulate

/-! ### One offer -/

section Offers

variable {cfg : Config} {a a' : Adder} {req : Req}

/-- What holds of the adder as long as it answers with `CONTINUE`. -/
structure Inv (cfg : Config) (a : Adder) : Prop where
  /-- The list is that of the requests that run and those that are admitted, if there is one. -/
  listed : a.reqStates = none ∧ a.canRunList = [] ∨ ∃ states, a.reqStates = some states ∧
    states.Perm ((cfg.running.map Running.toReq ++ a.canRunList).filterMap (reqState cfg))
  /-- The tokens of the requests that are admitted are charged. -/
  charged : ((a.canRunList.map Req.occupied).sum : ℕ) ≤ a.curRemTokenOffset

theorem insertState_perm (states : List (ℚ × ℕ)) (e : ℚ × ℕ) :
    (insertState states e).Perm (e :: states) := by
  rw [insertState]
  split
  · next i hi =>
    obtain ⟨hlt, -⟩ := List.findIdx?_eq_some_iff_getElem.mp hi
    exact List.perm_insertIdx e states hlt.le
  · exact List.perm_insertIdx e states (Nat.sub_le _ _)

/-- The list with the request that is offered. -/
theorem statesWith_perm (h : a.reqStates = none ∧ a.canRunList = [] ∨ ∃ states,
      a.reqStates = some states ∧
        states.Perm ((cfg.running.map Running.toReq ++ a.canRunList).filterMap (reqState cfg)))
    (req : Req) : (a.statesWith cfg req).Perm
      ((cfg.running.map Running.toReq ++ (a.canRunList ++ [req])).filterMap (reqState cfg)) := by
  have hlast : ((cfg.running.map Running.toReq ++ (a.canRunList ++ [req])).filterMap
      (reqState cfg)).Perm
      ((req :: (cfg.running.map Running.toReq ++ a.canRunList)).filterMap (reqState cfg)) := by
    rw [← List.append_assoc]
    exact (List.perm_append_singleton req _).filterMap _
  refine List.Perm.trans ?_ hlast.symm
  rw [Adder.statesWith]
  rcases h with ⟨hnone, -⟩ | ⟨states, hsome, hperm⟩
  · rw [hnone]
    exact List.perm_insertionSort _ _
  · rw [hsome]
    cases hreq : reqState cfg req with
    | none =>
      rw [List.filterMap_cons_none hreq]
      exact hperm
    | some e =>
      rw [List.filterMap_cons_some hreq]
      exact (insertState_perm states e).trans (hperm.cons e)

theorem ceilPagedTokens_of_one (hpage : cfg.pageSize = 1) (tokens : ℤ) :
    cfg.ceilPagedTokens tokens = tokens := by
  simp [Config.ceilPagedTokens, hpage]

/-- **How an admission ends**: the chunk budget is spent and nothing changes; or the request is in,
and all its tokens are charged if more requests are asked for. -/
theorem admitReq_cases (hpage : cfg.pageSize = 1) (a : Adder) (req : Req)
    (hstart : req.prefixIndicesLen = 0) (cand : ℤ) :
    a.admitReq cfg req cand = .ok (.other, a) ∨
    ∃ res a', a.admitReq cfg req cand = .ok (res, a') ∧ a'.canRunList = a.canRunList ++ [req] ∧
      a'.reqStates = a.reqStates ∧
      (res = .continue → a.curRemTokenOffset + cand ≤ a'.curRemTokenOffset) := by
  have hwhole : ∃ res a', (Except.ok
      ((Adder.updatePrefillBudget cfg { a with canRunList := a.canRunList ++ [req] } cand
        (min (req.maxNewTokens : ℤ) cfg.clipMaxNewTokens)).budgetState cfg,
      Adder.updatePrefillBudget cfg { a with canRunList := a.canRunList ++ [req] } cand
        (min (req.maxNewTokens : ℤ) cfg.clipMaxNewTokens)) : Except String (AddReqResult × Adder)) =
        .ok (res, a') ∧ a'.canRunList = a.canRunList ++ [req] ∧ a'.reqStates = a.reqStates ∧
      (res = .continue → a.curRemTokenOffset + cand ≤ a'.curRemTokenOffset) := by
    refine ⟨_, _, rfl, rfl, rfl, fun _ => ?_⟩
    simp only [Adder.updatePrefillBudget, ceilPagedTokens_of_one hpage]
    omega
  rw [Adder.admitReq]
  split
  · exact Or.inr hwhole
  · next c hc =>
    split
    · exact Or.inr hwhole
    split
    · exact Or.inl rfl
    rw [if_neg (not_not.mpr hstart)]
    refine Or.inr ⟨_, _, rfl, rfl, rfl, fun hcontinue => ?_⟩
    -- The chunk takes all that is left of the chunk budget.
    have hspent : (Adder.updatePrefillBudget cfg { a with
        canRunList := a.canRunList ++ [req]
        newChunkedReq := some req } c 0).remChunkTokens = some 0 := by
      simp [Adder.updatePrefillBudget, hc, ceilPagedTokens_of_one hpage]
    rw [Adder.budgetState, hspent] at hcontinue
    split at hcontinue
    · cases hcontinue
    split at hcontinue
    · cases hcontinue
    · simp at hcontinue

/-- The requests that run and are admitted decode into the pool, up to one token for each that runs
and whose newest token is not stored. -/
def Fits (cfg : Config) (a : Adder) : Prop :=
  ∀ t, inUse (a.decoding cfg) t ≤ cfg.pool + unstored cfg.running

theorem map_toReq_decoding (a : Adder) :
    (a.decoding cfg).map Running.toReq = cfg.running.map Running.toReq ++ a.canRunList := by
  rw [Adder.decoding, List.map_append, List.map_map]
  exact congrArg _ (List.map_id _)

/-- An admitted request holds all its tokens. -/
theorem heldBy_decoding (a : Adder) :
    heldBy (a.decoding cfg) = heldBy cfg.running + (a.canRunList.map Req.occupied).sum := by
  rw [heldBy, Adder.decoding, List.map_append, List.sum_append, List.map_map]
  rfl

theorem unstored_decoding (a : Adder) : unstored (a.decoding cfg) = unstored cfg.running := by
  have hprefilled : unstored (a.canRunList.map Req.prefilled) = 0 := by
    rw [unstored, List.countP_eq_zero]
    intro r hr
    obtain ⟨r', -, rfl⟩ := List.mem_map.mp hr
    exact Bool.false_ne_true
  rw [unstored, Adder.decoding, List.countP_append]
  exact congrArg _ hprefilled

/-- One more request that decodes all its tokens. -/
theorem decodesAll_of_admitted (hall : ∀ r ∈ a.decoding cfg, DecodesAll cfg r.toReq)
    (hreq : DecodesAll cfg req) (hlist : a'.canRunList = a.canRunList ++ [req]) :
    ∀ r ∈ a'.decoding cfg, DecodesAll cfg r.toReq := by
  intro r hr
  have hmem := List.mem_map_of_mem (f := Running.toReq) hr
  rw [map_toReq_decoding, hlist, ← List.append_assoc, ← map_toReq_decoding,
    List.mem_append] at hmem
  rcases hmem with hmem | hmem
  · obtain ⟨r', hr', heq⟩ := List.mem_map.mp hmem
    exact heq ▸ hall r' hr'
  · exact List.mem_singleton.mp hmem ▸ hreq

/-- **A request that passes the checks fits**, with those that run and those admitted before. -/
theorem Inv.fits (h : Inv cfg a) (hall : ∀ r ∈ a'.decoding cfg, DecodesAll cfg r.toReq)
    (hlist : a'.canRunList = a.canRunList ++ [req])
    (hroom : 0 ≤ a.curRemTokens cfg - req.occupied)
    (hpass : simulate (a.curRemTokens cfg - req.occupied) (a.statesWith cfg req) 0 = true) :
    Fits cfg a' := by
  intro t
  rw [← unstored_decoding a']
  refine inUse_le_of_simulate hall ?_ hroom ?_ hpass t
  · rw [map_toReq_decoding, hlist]
    exact statesWith_perm h.listed req
  · have hcharged := h.charged
    rw [heldBy_decoding, hlist, List.map_append, List.sum_append, Adder.curRemTokens,
      Config.availableSize]
    simp only [List.map_cons, List.map_nil, List.sum_cons, List.sum_nil]
    omega

/-- **What one offer does**: the request is refused, and no other is asked for; or it is in, all
fit, and if others are asked for, all is as before. -/
theorem addOneReqIgnoreEos_cases (hpage : cfg.pageSize = 1) (h : Inv cfg a)
    (hall : ∀ r ∈ a.decoding cfg, DecodesAll cfg r.toReq) (hreq : DecodesAll cfg req)
    (hstart : req.prefixIndicesLen = 0) (allowed : Bool) :
    ∃ res a', a.addOneReqIgnoreEos cfg req allowed = .ok (res, a') ∧
      (res ≠ .continue ∧ a'.canRunList = a.canRunList ∨
        a'.canRunList = a.canRunList ++ [req] ∧ Fits cfg a' ∧ (res = .continue → Inv cfg a')) := by
  have hcand : (req.occupied : ℤ) - req.prefixIndicesLen = req.occupied := by
    rw [hstart]
    simp
  rw [Adder.addOneReqIgnoreEos]
  simp only [hcand, ceilPagedTokens_of_one hpage]
  split
  · exact ⟨_, _, rfl, Or.inl ⟨by simp, rfl⟩⟩
  next hpaged =>
  have hroom : 0 ≤ a.curRemTokens cfg - req.occupied := by
    have hle : (req.occupied : ℚ) ≤ a.curRemTokens cfg := by
      rw [gt_iff_lt, not_lt] at hpaged
      exact_mod_cast hpaged.trans (min_le_left _ _)
    have hle' : (req.occupied : ℤ) ≤ a.curRemTokens cfg := by exact_mod_cast hle
    omega
  split
  · exact ⟨_, _, rfl, Or.inl ⟨by simp, rfl⟩⟩
  next hpass =>
  rw [not_not] at hpass
  split
  · exact ⟨_, _, rfl, Or.inl ⟨by simp, rfl⟩⟩
  rcases admitReq_cases hpage { a with reqStates := some (a.statesWith cfg req) } req
    hstart req.occupied with hother | ⟨res, a', hok, hlist, hstates, hcharge⟩
  · exact ⟨_, _, hother, Or.inl ⟨by simp, rfl⟩⟩
  · refine ⟨res, a', hok, Or.inr ⟨hlist, h.fits (decodesAll_of_admitted hall hreq hlist) hlist hroom
      hpass, fun hcontinue => ⟨Or.inr ⟨_, hstates, ?_⟩, ?_⟩⟩⟩
    · rw [hlist]
      exact statesWith_perm h.listed req
    · have hcharged := h.charged
      have hcharge := hcharge hcontinue
      rw [hlist, List.map_append, List.sum_append]
      simp only [List.map_cons, List.map_nil, List.sum_cons, List.sum_nil] at hcharge ⊢
      omega

/-! ### All offers of a round -/

/-- **A round of offers** from an adder that has answered with `CONTINUE` so far. -/
theorem offerUntil_fits (hpage : cfg.pageSize = 1) {offers : List (Req × Bool)}
    (hoffers : ∀ o ∈ offers, DecodesAll cfg o.1 ∧ o.1.prefixIndicesLen = 0) (h : Inv cfg a)
    (hall : ∀ r ∈ a.decoding cfg, DecodesAll cfg r.toReq)
    (hfits : a.canRunList ≠ [] → Fits cfg a) :
    ∃ a', offerUntil cfg a offers = .ok a' ∧ (a'.canRunList ≠ [] → Fits cfg a') := by
  induction offers generalizing a with
  | nil => exact ⟨a, rfl, hfits⟩
  | cons o offers ih =>
    obtain ⟨req, allowed⟩ := o
    obtain ⟨hreq, hstart⟩ := hoffers (req, allowed) List.mem_cons_self
    have hrest : ∀ o ∈ offers, DecodesAll cfg o.1 ∧ o.1.prefixIndicesLen = 0 :=
      fun o ho => hoffers o (List.mem_cons_of_mem _ ho)
    obtain ⟨res, a', hok, hcases⟩ := addOneReqIgnoreEos_cases hpage h hall hreq hstart allowed
    rw [offerUntil, hok]
    rcases hcases with ⟨hstop, hsame⟩ | ⟨hlist, hfits', hinv⟩
    · have hfits' : a'.canRunList ≠ [] → Fits cfg a' := by
        intro hne t
        rw [Adder.decoding, hsame]
        exact hfits (hsame ▸ hne) t
      cases res with
      | «continue» => exact absurd rfl hstop
      | noToken => exact ⟨a', rfl, hfits'⟩
      | other => exact ⟨a', rfl, hfits'⟩
    · cases res with
      | «continue» =>
        exact ih hrest (hinv rfl) (decodesAll_of_admitted hall hreq hlist) fun _ => hfits'
      | noToken => exact ⟨a', rfl, fun _ => hfits'⟩
      | other => exact ⟨a', rfl, fun _ => hfits'⟩

/-- **What is admitted fits for the whole future.** No running or offered request may end early –
each ignores the end of sequence, or nothing is taken off for it – and the offers stop at the first
answer that is not `CONTINUE`. Then, if a request is admitted or those that run fit by themselves,
all of them decode in lockstep into the pool, up to one token for each running request whose newest
token is not stored. -/
theorem admitted_decode_fits (cfg : Config) (hpage : cfg.pageSize = 1)
    (hrunning : ∀ r ∈ cfg.running, DecodesAll cfg r.toReq) (remInputTokens : ℤ)
    (remChunkTokens : Option ℤ) (numMixedDecodeTokens : ℕ) (offers : List (Req × Bool))
    (hoffers : ∀ o ∈ offers, DecodesAll cfg o.1 ∧ o.1.prefixIndicesLen = 0) :
    ∃ a, offerUntil cfg (Adder.init cfg remInputTokens remChunkTokens numMixedDecodeTokens)
        offers = .ok a ∧
      (a.canRunList ≠ [] ∨ (∀ t, inUse cfg.running t ≤ cfg.pool) →
        ∀ t, inUse (a.decoding cfg) t ≤ cfg.pool + unstored cfg.running) := by
  have hinit : Inv cfg (Adder.init cfg remInputTokens remChunkTokens numMixedDecodeTokens) :=
    ⟨Or.inl ⟨rfl, rfl⟩, Int.natCast_nonneg _⟩
  have hall : ∀ r ∈ (Adder.init cfg remInputTokens remChunkTokens
      numMixedDecodeTokens).decoding cfg, DecodesAll cfg r.toReq := by
    rw [Adder.decoding, Adder.init, List.map_nil, List.append_nil]
    exact hrunning
  obtain ⟨a, hok, hfits⟩ := offerUntil_fits hpage hoffers hinit hall fun hne => absurd rfl hne
  refine ⟨a, hok, fun hcases t => ?_⟩
  by_cases hempty : a.canRunList = []
  · rw [Adder.decoding, hempty, List.map_nil, List.append_nil]
    have halone := (hcases.resolve_left (not_not.mpr hempty)) t
    omega
  · exact hfits hempty t

end Offers

/-- A pool of pages of one token, with nothing else to take tokens off. -/
def tokenPool (pool : ℕ) (newTokenRatio : ℚ) (running : List Running) : Config where
  pool := pool
  pageSize := 1
  running := running
  newTokenRatio := newTokenRatio
  dcpAvailDeficit := 0
  fundableExtendFloor := none
  outstandingTokens := 0
  clipMaxNewTokens := 4096

/-- A request without output that ignores the end of sequence. -/
def fresh (originInputLen maxNewTokens : ℕ) : Req := ⟨originInputLen, 0, 0, maxNewTokens, true⟩

/-- One request runs and two are admitted. -/
theorem admitted_decode_fits_two :
    ∃ a, offerUntil (tokenPool 110 (1 / 10) [⟨⟨9, 1, 0, 31, true⟩, true⟩])
        (Adder.init (tokenPool 110 (1 / 10) [⟨⟨9, 1, 0, 31, true⟩, true⟩]) 100 none 0)
        [(fresh 10 20, true), (fresh 12 5, true)] = .ok a ∧ a.canRunList.length = 2 ∧
      ∀ t, inUse (a.decoding (tokenPool 110 (1 / 10) [⟨⟨9, 1, 0, 31, true⟩, true⟩])) t ≤ 110 := by
  obtain ⟨a, hok, hfits⟩ := admitted_decode_fits
    (tokenPool 110 (1 / 10) [⟨⟨9, 1, 0, 31, true⟩, true⟩]) rfl (by decide) 100 none 0
    [(fresh 10 20, true), (fresh 12 5, true)] (by decide)
  have hlength : (offerUntil (tokenPool 110 (1 / 10) [⟨⟨9, 1, 0, 31, true⟩, true⟩])
      (Adder.init (tokenPool 110 (1 / 10) [⟨⟨9, 1, 0, 31, true⟩, true⟩]) 100 none 0)
      [(fresh 10 20, true), (fresh 12 5, true)]).toOption.map (fun a => a.canRunList.length) =
      some 2 := by
    decide +kernel
  rw [hok] at hlength
  have htwo : a.canRunList.length = 2 := Option.some.inj hlength
  refine ⟨a, hok, htwo, hfits (Or.inl fun hempty => ?_)⟩
  rw [hempty] at htwo
  cases htwo

/-- **The pool can be exceeded**, in a pool of 110 tokens by a request that is admitted after
another one that was refused, and by a running request that may end early and does not; in a pool
of 34 tokens after ten running requests whose newest tokens are not stored; and by requests that
run and do not fit by themselves. -/
theorem admission_exceeds_pool :
    ((offerAll (tokenPool 110 (1 / 10) [⟨⟨9, 1, 0, 61, true⟩, true⟩])
        (Adder.init (tokenPool 110 (1 / 10) [⟨⟨9, 1, 0, 61, true⟩, true⟩]) 1000 none 0)
        [(fresh 90 4, true), (fresh 10 50, true)]).toOption.map fun a =>
      inUse (a.decoding (tokenPool 110 (1 / 10) [⟨⟨9, 1, 0, 61, true⟩, true⟩])) 50) = some 120 ∧
    ((offerAll (tokenPool 110 (1 / 10) [⟨⟨9, 1, 0, 100, false⟩, true⟩])
        (Adder.init (tokenPool 110 (1 / 10) [⟨⟨9, 1, 0, 100, false⟩, true⟩]) 1000 none 0)
        [(fresh 10 50, true)]).toOption.map fun a =>
      inUse (a.decoding (tokenPool 110 (1 / 10) [⟨⟨9, 1, 0, 100, false⟩, true⟩])) 50) = some 120 ∧
    ((offerAll (tokenPool 34 1 (List.replicate 10 ⟨⟨1, 1, 0, 2, true⟩, false⟩))
        (Adder.init (tokenPool 34 1 (List.replicate 10 ⟨⟨1, 1, 0, 2, true⟩, false⟩)) 1000 none 0)
        [(fresh 1 41, true)]).toOption.map fun a => inUse (a.decoding
          (tokenPool 34 1 (List.replicate 10 ⟨⟨1, 1, 0, 2, true⟩, false⟩))) 41) = some 42 ∧
    ((offerAll (tokenPool 34 1 [⟨⟨1, 1, 0, 41, true⟩, true⟩])
        (Adder.init (tokenPool 34 1 [⟨⟨1, 1, 0, 41, true⟩, true⟩]) 1000 none 0)
        []).toOption.map fun a =>
      inUse (a.decoding (tokenPool 34 1 [⟨⟨1, 1, 0, 41, true⟩, true⟩])) 40) = some 42 := by
  decide +kernel

end IgnoreEos

end HtSglang
