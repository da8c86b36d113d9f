import HtSglang.Dcp.TokenVector
import HtSglang.Library.Loop

/-!
# Handing KV over from prefill to decode

A prefill server sends the KV of a prompt page by page, one chunk of the prompt after the other,
to the servers that decode. What is sent starts after the prefix that the decode side already has;
the end of a chunk is rounded down to a page and the rest waits for the next chunk
(`HtSglang.Disaggregation.sendKvChunk`). Which send is the last one is not taken from the caller:
the sender counts pages (`HtSglang.Disaggregation.KvSender.prepareSendIndices`).

A classic receiver has one destination page for every page. A receiver that holds its KV sharded
by token registers the ordinals of the slots it owns with its own compact rows, and the sender
filters every chunk by them (`HtSglang.Disaggregation.transferWorker`).

The proof follows the sends with one predicate: the chunks so far are consecutive and hold the
pages they say (`HtSglang.Disaggregation.Covers`). What each receiver gets of them is read off by
induction on it. The main result is `HtSglang.Disaggregation.kv_handed_over_once`.

There are no state payloads, no staging, no context-parallel filtering and no failed sessions here,
and the ordinals are natural numbers, not 32-bit ones.
-/

namespace HtSglang

namespace Disaggregation

open Dcp

/-! ### Pages -/

/-- `xs[::k]`. -/
def stride (k : ℕ) (xs : List ℤ) : List ℤ :=
  (List.range ((xs.length + k - 1) / k)).map fun i => xs.getD (i * k) 0

/-- `kv_to_page_indices`. -/
def kvToPageIndices (kvIndices : List ℤ) (pageSize : ℕ) : List ℤ :=
  if pageSize = 1 then kvIndices else (stride pageSize kvIndices).map (· / (pageSize : ℤ))

/-- `kv_to_page_num`. -/
def kvToPageNum (numKvIndices pageSize : ℕ) : ℕ := (numKvIndices + pageSize - 1) / pageSize

/-! ### The sender -/

/-- What a `CommonKVSender` counts: all pages of the request and those that were sent. -/
structure KvSender where
  numKvIndices : ℕ
  currIdx : ℕ

/-- `TransferKVChunk`. -/
structure TransferKvChunk where
  /-- The pages of the prefill server. -/
  prefillKvIndices : List ℤ
  /-- Where they start among the pages of the request. -/
  start : ℕ
  /-- Where they stop. -/
  stop : ℕ
  /-- Whether it is treated as the last chunk. -/
  isLastChunk : Bool
  deriving DecidableEq

/-- `_prepare_send_indices`, and the chunk that is queued. -/
def KvSender.prepareSendIndices (s : KvSender) (kvIndices : List ℤ) :
    KvSender × TransferKvChunk :=
  let currIdx := s.currIdx + kvIndices.length
  ({ s with currIdx := currIdx },
    ⟨kvIndices, s.currIdx, currIdx, currIdx = s.numKvIndices⟩)

/-- What of a request on the prefill server changes with a send. -/
structure PrefillReq where
  /-- Where the next send starts. -/
  startSendIdx : ℕ
  sender : KvSender
  /-- The chunks that were queued. -/
  sent : List TransferKvChunk

/-- `finalize_bootstrap`. -/
def finalizeBootstrap (pageSize decodePrefixLen inputLen : ℕ) : PrefillReq :=
  ⟨decodePrefixLen, ⟨kvToPageNum (inputLen - decodePrefixLen) pageSize, 0⟩, []⟩

/-- `send_kv_chunk`. The row is the request's row of `req_to_token`. -/
def sendKvChunk (pageSize : ℕ) (row : List ℤ) (inputLen extendEnd : ℕ) (r : PrefillReq)
    (lastChunk : Bool) (endIdx : Option ℕ) : PrefillReq :=
  let endIdx := endIdx.getD (min extendEnd inputLen)
  let endIdx := if lastChunk then endIdx else endIdx - endIdx % pageSize
  if endIdx < r.startSendIdx then r
  else
    let kvIndices := (row.take endIdx).drop r.startSendIdx
    let pageIndices := kvToPageIndices kvIndices pageSize
    -- `should_send_kv_chunk`
    if 0 < pageIndices.length ∨ lastChunk then
      let sent := r.sender.prepareSendIndices pageIndices
      ⟨endIdx, sent.1, r.sent ++ [sent.2]⟩
    else r

/-- `maybe_send_cached_prefix_chunk`, for a request whose cached prefix is on the device. -/
def maybeSendCachedPrefixChunk (pageSize : ℕ) (row : List ℤ) (inputLen cachedEnd : ℕ)
    (r : PrefillReq) : PrefillReq :=
  if cachedEnd ≤ r.startSendIdx then r
  else sendKvChunk pageSize row inputLen 0 r false (some cachedEnd)

/-- The sends of one request: the cached prefix if it is sent early, the chunks, the last chunk. -/
def prefillSends (pageSize : ℕ) (row : List ℤ) (inputLen decodePrefixLen : ℕ)
    (cachedEnd : Option ℕ) (chunkEnds : List ℕ) : PrefillReq :=
  let r := finalizeBootstrap pageSize decodePrefixLen inputLen
  let r := match cachedEnd with
    | none => r
    | some c => maybeSendCachedPrefixChunk pageSize row inputLen c r
  let r := chunkEnds.foldl (fun r e => sendKvChunk pageSize row inputLen e r false none) r
  sendKvChunk pageSize row inputLen inputLen r true none

/-! ### The receivers -/

/-- `TransferInfo`. -/
structure TransferInfo where
  /-- The destination pages. -/
  dstKvIndices : List ℤ
  /-- The ordinals of the owned slots, under token sharding. -/
  dstOwnedOrdinals : Option (List ℕ)

/-- A slot is owned by a rank. -/
def Owns (b : OwnerBounds) (slot : ℤ) : Prop := b.cpLo ≤ slot % b.cpS ∧ slot % b.cpS < b.cpHi

instance (b : OwnerBounds) (slot : ℤ) : Decidable (Owns b slot) :=
  inferInstanceAs (Decidable (_ ∧ _))

/-- The part of `pop_preallocated` that registers the destination. -/
def registerDestination (pageSize : ℕ) (bounds : Option OwnerBounds) (row : List ℤ)
    (totalPrefixLen originInputLen : ℕ) : Option TransferInfo :=
  let kvIndices := (row.take originInputLen).drop totalPrefixLen
  match bounds with
  | none => some ⟨kvToPageIndices kvIndices pageSize, none⟩
  | some b =>
    if pageSize ≠ 1 then none
    else
      let owned := (List.range kvIndices.length).filter fun i => Owns b (kvIndices.getD i 0)
      let rows := owned.map fun i => toInt32 (kvIndices.getD i 0 / b.cpS * (b.cpHi - b.cpLo) +
        (kvIndices.getD i 0 % b.cpS - b.cpLo))
      some ⟨kvToPageIndices rows pageSize, some owned⟩

/-- `send_kvcache`: the pages are copied pairwise. -/
def sendKvcache (src dst : List ℤ) : Option (List (ℤ × ℤ)) :=
  if src = [] ∨ dst = [] then some []
  else if src.length ≠ dst.length then none
  else some (src.zip dst)

/-- The loop over the receivers of one chunk. A classic receiver with fewer pages cuts the chunk's
pages for those after it. -/
def transferLoop (chunk : TransferKvChunk) : List ℤ → List TransferInfo →
    Option (List (List (ℤ × ℤ)))
  | _, [] => some []
  | prefillKvIndices, info :: infos =>
    match info.dstOwnedOrdinals with
    | some ordinals =>
      let inChunk := (ordinals.zip info.dstKvIndices).filter fun o =>
        chunk.start ≤ o.1 ∧ o.1 < chunk.stop
      (sendKvcache (inChunk.map fun o => chunk.prefillKvIndices.getD (o.1 - chunk.start) 0)
        (inChunk.map Prod.snd)).bind fun w =>
          (transferLoop chunk prefillKvIndices infos).map (w :: ·)
    | none =>
      let dst := (info.dstKvIndices.take chunk.stop).drop chunk.start
      let prefillKvIndices :=
        if dst.length < prefillKvIndices.length then prefillKvIndices.take dst.length
        else prefillKvIndices
      (sendKvcache prefillKvIndices dst).bind fun w =>
        (transferLoop chunk prefillKvIndices infos).map (w :: ·)

/-- The transfer of one chunk: what is copied to each receiver. -/
def transferWorker (infos : List TransferInfo) (chunk : TransferKvChunk) :
    Option (List (List (ℤ × ℤ))) :=
  transferLoop chunk chunk.prefillKvIndices infos

/-! ### Slices and pages -/

/-- The page of a row that a request's page is on: pages are counted from `d`. -/
def pageAt (pageSize : ℕ) (row : List ℤ) (d k : ℕ) : ℤ := row.getD (d + k * pageSize) 0 / pageSize

theorem length_slice {row : List ℤ} (start : ℕ) {stop : ℕ} (hstop : stop ≤ row.length) :
    ((row.take stop).drop start).length = stop - start := by
  rw [List.length_drop, List.length_take_of_le hstop]

theorem getD_slice {row : List ℤ} (start : ℕ) {stop : ℕ} (hstop : stop ≤ row.length) {i : ℕ}
    (hi : i < stop - start) :
    ((row.take stop).drop start).getD i 0 = row.getD (start + i) 0 := by
  have hlen := length_slice start hstop
  rw [List.getD_eq_getElem _ _ (by omega), List.getD_eq_getElem _ _ (by omega),
    List.getElem_drop, List.getElem_take]

theorem kvToPageIndices_slice {ps : ℕ} (hps : 1 ≤ ps) {row : List ℤ} (start : ℕ) {stop : ℕ}
    (hstop : stop ≤ row.length) :
    kvToPageIndices ((row.take stop).drop start) ps =
      (List.range (kvToPageNum (stop - start) ps)).map (pageAt ps row start) := by
  have hlen := length_slice start hstop
  rw [kvToPageIndices]
  split
  · next hone =>
    subst hone
    refine List.ext_getElem ?_ fun i hi hi' => ?_
    · rw [hlen, List.length_map, List.length_range, kvToPageNum]
      omega
    · rw [List.getElem_map, List.getElem_range, pageAt, mul_one, Nat.cast_one, Int.ediv_one,
        ← getD_slice start hstop (by omega), List.getD_eq_getElem]
  · rw [stride, List.map_map, hlen, ← kvToPageNum]
    refine List.map_congr_left fun i hi => ?_
    rw [List.mem_range, kvToPageNum, Nat.lt_div_iff_mul_lt (by omega)] at hi
    rw [Function.comp_apply, pageAt, getD_slice start hstop]
    omega

theorem lt_kvToPageNum_iff {ps : ℕ} (hps : 1 ≤ ps) {m x : ℕ} :
    m < kvToPageNum x ps ↔ m * ps < x := by
  rw [kvToPageNum, Nat.lt_div_iff_mul_lt (by omega)]
  omega

theorem add_kvToPageNum {ps : ℕ} (hps : 1 ≤ ps) (m x : ℕ) :
    m + kvToPageNum x ps = kvToPageNum (m * ps + x) ps := by
  have hsub : m * ps + x + ps - 1 = x + ps - 1 + m * ps := by omega
  rw [kvToPageNum, kvToPageNum, hsub, Nat.add_mul_div_right _ _ hps, Nat.add_comm]

theorem kvToPageNum_mul {ps : ℕ} (hps : 1 ≤ ps) (m : ℕ) : kvToPageNum (m * ps) ps = m := by
  have hzero : kvToPageNum 0 ps = 0 := by
    rw [kvToPageNum, Nat.div_eq_of_lt]
    omega
  rw [← add_zero (m * ps), ← add_kvToPageNum hps, hzero, add_zero]

theorem pageAt_add (ps : ℕ) (row : List ℤ) (d m k : ℕ) :
    pageAt ps row (d + m * ps) k = pageAt ps row d (m + k) := by
  rw [pageAt, pageAt, add_mul, ← add_assoc]

/-! ### What the sends cover -/

/-- **Chunks that cover the first pages**, in order and without a gap: each one starts where the
one before stops and holds the pages it says. -/
inductive Covers (page : ℕ → ℤ) : List TransferKvChunk → ℕ → Prop
  /-- Nothing is covered. -/
  | nil : Covers page [] 0
  /-- One more chunk. -/
  | snoc {cs : List TransferKvChunk} {c : TransferKvChunk} : Covers page cs c.start →
      c.start ≤ c.stop →
      c.prefillKvIndices = (List.range' c.start (c.stop - c.start)).map page →
      Covers page (cs ++ [c]) c.stop

/-- **A request in the middle of its sends**: the first `m` pages are covered, and unless there
are none, they end before the prompt does. -/
structure Sending (ps : ℕ) (row : List ℤ) (L d : ℕ) (r : PrefillReq) (m : ℕ) : Prop where
  start : r.startSendIdx = d + m * ps
  sender : r.sender = ⟨kvToPageNum (L - d) ps, m⟩
  covers : Covers (pageAt ps row d) r.sent m
  notLast : ∀ c ∈ r.sent, c.isLastChunk = false
  room : m = 0 ∨ d + m * ps < L

section Sends

variable {ps : ℕ} {row : List ℤ} {L d : ℕ}

theorem sending_finalizeBootstrap : Sending ps row L d (finalizeBootstrap ps d L) 0 :=
  ⟨by rw [zero_mul, add_zero]; rfl, rfl, .nil, fun _ hc => absurd hc List.not_mem_nil, .inl rfl⟩

/-- **One more chunk** covers the pages up to its end. -/
theorem Sending.covers_append {r : PrefillReq} {m : ℕ} (h : Sending ps row L d r m)
    (hps : 1 ≤ ps) {stop : ℕ} (hstop : stop ≤ row.length) :
    Covers (pageAt ps row d) (r.sent ++ [(r.sender.prepareSendIndices
      (kvToPageIndices ((row.take stop).drop r.startSendIdx) ps)).2])
      (m + kvToPageNum (stop - (d + m * ps)) ps) := by
  have hpages := kvToPageIndices_slice hps r.startSendIdx hstop
  have hlen : (kvToPageIndices ((row.take stop).drop r.startSendIdx) ps).length =
      kvToPageNum (stop - (d + m * ps)) ps := by
    rw [hpages, List.length_map, List.length_range, h.start]
  have hstopEq : (r.sender.prepareSendIndices
      (kvToPageIndices ((row.take stop).drop r.startSendIdx) ps)).2.stop =
      m + kvToPageNum (stop - (d + m * ps)) ps := by
    rw [KvSender.prepareSendIndices, h.sender, hlen]
  rw [← hstopEq]
  refine .snoc ?_ ?_ ?_
  · rw [KvSender.prepareSendIndices, h.sender]
    exact h.covers
  · exact Nat.le_add_right _ _
  · rw [hstopEq, KvSender.prepareSendIndices, h.sender, hpages, h.start]
    dsimp only
    rw [Nat.add_sub_cancel_left, List.range'_eq_map_range, List.map_map]
    exact List.map_congr_left fun k _ => pageAt_add ps row d m k

/-- **A chunk that ends before the prompt.** -/
theorem Sending.send {r : PrefillReq} {m : ℕ} (h : Sending ps row L d r m) (hps : 1 ≤ ps)
    (hd : ps ∣ d) (hrow : L ≤ row.length) {extendEnd : ℕ} {endIdx : Option ℕ}
    (hend : endIdx.getD (min extendEnd L) < L) :
    ∃ m', Sending ps row L d (sendKvChunk ps row L extendEnd r false endIdx) m' := by
  rw [sendKvChunk]
  generalize endIdx.getD (min extendEnd L) = e at hend
  simp only [Bool.false_eq_true, if_false, or_false]
  have hfloor : e - e % ps = e / ps * ps := by
    have := Nat.div_add_mod' e ps
    omega
  have hle : e / ps * ps ≤ e := Nat.div_mul_le_self e ps
  rw [hfloor]
  split
  · exact ⟨m, h⟩
  next hlt =>
  rw [h.start, not_lt] at hlt
  -- the end is a whole number of pages after `d`
  obtain ⟨k, hk⟩ : ∃ k, e / ps * ps = d + m * ps + k * ps := by
    obtain ⟨q, rfl⟩ := hd
    refine ⟨e / ps - q - m, ?_⟩
    have hqm : q + m ≤ e / ps := by
      refine Nat.le_of_mul_le_mul_right ?_ hps
      rw [add_mul, mul_comm q ps]
      exact hlt
    rw [mul_comm ps q, ← add_mul, ← add_mul]
    congr 1
    omega
  have hlen : (kvToPageIndices ((row.take (e / ps * ps)).drop r.startSendIdx) ps).length = k := by
    rw [kvToPageIndices_slice hps _ (by omega), List.length_map, List.length_range, h.start, hk,
      Nat.add_sub_cancel_left, kvToPageNum_mul hps]
  split
  · next hpos =>
    rw [hlen] at hpos
    have hcovers := h.covers_append hps (show e / ps * ps ≤ row.length by omega)
    rw [hk, Nat.add_sub_cancel_left, kvToPageNum_mul hps, ← hk] at hcovers
    refine ⟨m + k, ?_, ?_, hcovers, ?_, .inr ?_⟩
    · dsimp only
      rw [hk, add_mul, add_assoc]
    · rw [KvSender.prepareSendIndices, h.sender, hlen]
    · intro c hc
      rcases List.mem_append.mp hc with hc | hc
      · exact h.notLast c hc
      · rw [List.mem_singleton] at hc
        rw [hc, KvSender.prepareSendIndices, h.sender, hlen]
        refine decide_eq_false (Nat.ne_of_lt ?_)
        change m + k < kvToPageNum (L - d) ps
        rw [lt_kvToPageNum_iff hps, add_mul]
        omega
    · rw [add_mul]
      omega
  · exact ⟨m, h⟩

/-- **The last chunk** covers all pages, and it is the one that is treated as the last. -/
theorem Sending.sendLast {r : PrefillReq} {m : ℕ} (h : Sending ps row L d r m) (hps : 1 ≤ ps)
    (hdL : d ≤ L) (hrow : L ≤ row.length) :
    Covers (pageAt ps row d) (sendKvChunk ps row L L r true none).sent (kvToPageNum (L - d) ps) ∧
      ∃ last, (sendKvChunk ps row L L r true none).sent = r.sent ++ [last] ∧
        last.isLastChunk = true := by
  have hle : d + m * ps ≤ L := by
    rcases h.room with rfl | hlt
    · rwa [zero_mul, add_zero]
    · exact hlt.le
  have htotal : m + kvToPageNum (L - (d + m * ps)) ps = kvToPageNum (L - d) ps := by
    rw [add_kvToPageNum hps]
    congr 1
    omega
  have hcovers := h.covers_append hps hrow
  rw [htotal] at hcovers
  rw [sendKvChunk, Option.getD_none, min_self, if_pos rfl, if_neg (by rw [h.start]; omega),
    if_pos (.inr rfl)]
  refine ⟨hcovers, _, rfl, ?_⟩
  have hlen : (kvToPageIndices ((row.take L).drop r.startSendIdx) ps).length =
      kvToPageNum (L - (d + m * ps)) ps := by
    rw [kvToPageIndices_slice hps _ hrow, List.length_map, List.length_range, h.start]
  rw [KvSender.prepareSendIndices, h.sender, hlen]
  exact decide_eq_true htotal

/-- **All sends of a request.** -/
theorem prefillSends_covers (hps : 1 ≤ ps) (hd : ps ∣ d) (hdL : d ≤ L) (hrow : L ≤ row.length)
    {cachedEnd : Option ℕ} (hcached : ∀ c ∈ cachedEnd, c < L) {chunkEnds : List ℕ}
    (hends : ∀ e ∈ chunkEnds, e < L) :
    Covers (pageAt ps row d) (prefillSends ps row L d cachedEnd chunkEnds).sent
        (kvToPageNum (L - d) ps) ∧
      ∃ init last, (prefillSends ps row L d cachedEnd chunkEnds).sent = init ++ [last] ∧
        (∀ c ∈ init, c.isLastChunk = false) ∧ last.isLastChunk = true := by
  have hearly : ∃ m, Sending ps row L d (match cachedEnd with
      | none => finalizeBootstrap ps d L
      | some c => maybeSendCachedPrefixChunk ps row L c (finalizeBootstrap ps d L)) m := by
    cases cachedEnd with
    | none => exact ⟨0, sending_finalizeBootstrap⟩
    | some c =>
      dsimp only
      rw [maybeSendCachedPrefixChunk]
      split
      · exact ⟨0, sending_finalizeBootstrap⟩
      · exact sending_finalizeBootstrap.send hps hd hrow (hcached c rfl)
  have hchunks : ∀ (es : List ℕ) (r : PrefillReq), (∀ e ∈ es, e < L) →
      (∃ m, Sending ps row L d r m) →
      ∃ m, Sending ps row L d (es.foldl (fun r e => sendKvChunk ps row L e r false none) r) m := by
    intro es
    induction es with
    | nil => exact fun r _ h => h
    | cons e es ih =>
      rintro r hes ⟨m, h⟩
      refine ih _ (fun e' he' => hes e' (List.mem_cons_of_mem _ he')) (h.send hps hd hrow ?_)
      exact lt_of_le_of_lt (min_le_left _ _) (hes e List.mem_cons_self)
  obtain ⟨m, h⟩ := hchunks chunkEnds _ hends hearly
  obtain ⟨hcovers, last, hsent, hlast⟩ := h.sendLast hps hdL hrow
  exact ⟨hcovers, _, last, hsent, h.notLast, hlast⟩

end Sends

/-! ### What the receivers get -/

theorem range_split {a b : ℕ} (h : a ≤ b) :
    List.range b = List.range a ++ List.range' a (b - a) := by
  have hsplit := @List.range'_append_1 0 a (b - a)
  rw [Nat.zero_add, Nat.add_sub_cancel' h] at hsplit
  rw [List.range_eq_range', List.range_eq_range', hsplit]

theorem slice_range {a b n : ℕ} (hab : a ≤ b) (hb : b ≤ n) :
    ((List.range n).take b).drop a = List.range' a (b - a) := by
  rw [List.take_range, min_eq_left hb, range_split hab, List.drop_left' List.length_range]

theorem filter_range {a b n : ℕ} (hab : a ≤ b) (hb : b ≤ n) :
    (List.range n).filter (fun i => a ≤ i ∧ i < b) = List.range' a (b - a) := by
  have hlow : (List.range a).filter (fun i => a ≤ i ∧ i < b) = [] := by
    rw [List.filter_eq_nil_iff]
    intro i hi
    rw [List.mem_range] at hi
    simp only [decide_eq_true_eq]
    omega
  have hmid : (List.range' a (b - a)).filter (fun i => a ≤ i ∧ i < b) = List.range' a (b - a) := by
    rw [List.filter_eq_self]
    intro i hi
    rw [List.mem_range'_1] at hi
    exact decide_eq_true (by omega)
  have hhigh : (List.range' b (n - b)).filter (fun i => a ≤ i ∧ i < b) = [] := by
    rw [List.filter_eq_nil_iff]
    intro i hi
    rw [List.mem_range'_1] at hi
    simp only [decide_eq_true_eq]
    omega
  rw [range_split hb, range_split hab, List.filter_append, List.filter_append, hlow, hmid, hhigh,
    List.nil_append, List.append_nil]

/-- What is true of each chunk. -/
theorem Covers.chunk {page : ℕ → ℤ} {cs : List TransferKvChunk} {n : ℕ} (h : Covers page cs n) :
    ∀ c ∈ cs, c.start ≤ c.stop ∧ c.stop ≤ n ∧
      c.prefillKvIndices = (List.range' c.start (c.stop - c.start)).map page := by
  induction h with
  | nil => exact fun c hc => absurd hc List.not_mem_nil
  | @snoc cs c' _ hle hpages ih =>
    intro c hc
    rcases List.mem_append.mp hc with hc | hc
    · obtain ⟨h1, h2, h3⟩ := ih c hc
      exact ⟨h1, h2.trans hle, h3⟩
    · rw [List.mem_singleton] at hc
      rw [hc]
      exact ⟨hle, le_rfl, hpages⟩

/-- **What is collected from consecutive chunks** is collected from all their pages. -/
theorem Covers.flatMap {α : Type} {page : ℕ → ℤ} {cs : List TransferKvChunk} {n : ℕ}
    (h : Covers page cs n) (f : List ℕ → List α) (hnil : f [] = [])
    (happ : ∀ ks ks', f (ks ++ ks') = f ks ++ f ks') :
    (cs.flatMap fun c => f (List.range' c.start (c.stop - c.start))) = f (List.range n) := by
  induction h with
  | nil => exact hnil.symm
  | @snoc cs c _ hle _ ih =>
    rw [List.flatMap_append, ih, List.flatMap_singleton, range_split hle, happ]

/-- A server that decodes: with a destination for every page, or with its KV sharded by token. -/
inductive Receiver where
  /-- It has all slots of its row. -/
  | classic (row : List ℤ)
  /-- It has the slots of the row that its rank owns. -/
  | sharded (rank : ℕ) (row : List ℤ)

/-- The row of `req_to_token`. -/
def Receiver.row : Receiver → List ℤ
  | .classic row => row
  | .sharded _ row => row

/-- `uneven_dcp_owner_bounds`. -/
def Receiver.bounds (ratios : TokenRatios) (dcpSize : ℕ) : Receiver → Option OwnerBounds
  | .classic _ => none
  | .sharded rank _ => some (dcpWeightedOwnerBounds ratios dcpSize rank)

/-- The slots of a row that a rank owns, counted from `d`. -/
def ownedFrom (b : OwnerBounds) (row : List ℤ) (d : ℕ) (ks : List ℕ) : List ℕ :=
  ks.filter fun k => Owns b (row.getD (d + k) 0)

/-- The compact row of a slot. -/
def compactRow (b : OwnerBounds) (row : List ℤ) (d k : ℕ) : ℤ :=
  packed b.cpS b.cpLo (b.cpHi - b.cpLo) (row.getD (d + k) 0)

/-- **What a receiver should get** of some pages, as pairs of a source and a destination: every page
to the page of the same position, or every owned slot to its compact row. -/
def Receiver.writes (ps : ℕ) (src : List ℤ) (d : ℕ) (ratios : TokenRatios) (dcpSize : ℕ) :
    Receiver → List ℕ → List (ℤ × ℤ)
  | .classic row, ks => ks.map fun k => (pageAt ps src d k, pageAt ps row d k)
  | .sharded rank row, ks =>
    let b := dcpWeightedOwnerBounds ratios dcpSize rank
    (ownedFrom b row d ks).map fun k => (src.getD (d + k) 0, compactRow b row d k)

theorem Receiver.writes_append (ps : ℕ) (src : List ℤ) (d : ℕ) (ratios : TokenRatios) (dcpSize : ℕ)
    (r : Receiver) (ks ks' : List ℕ) :
    r.writes ps src d ratios dcpSize (ks ++ ks') =
      r.writes ps src d ratios dcpSize ks ++ r.writes ps src d ratios dcpSize ks' := by
  cases r with
  | classic row => exact List.map_append
  | sharded rank row => simp only [Receiver.writes, ownedFrom, List.filter_append, List.map_append]

theorem sendKvcache_map (ks : List ℕ) (f g : ℕ → ℤ) :
    sendKvcache (ks.map f) (ks.map g) = some (ks.map fun k => (f k, g k)) := by
  rw [sendKvcache]
  split
  · next h =>
    have hnil : ks = [] := by simpa using h
    rw [hnil]
    rfl
  · rw [if_neg (by simp), List.zip_map']

/-- **A receiver that fits**: its row is as long as the prompt and has slots of 32 bits, and under
token sharding its rank is one of the group and a page is one slot. -/
structure Receiver.Fits (ps L dcpSize : ℕ) (r : Receiver) : Prop where
  le_row : L ≤ r.row.length
  slots : ∀ x ∈ r.row, 0 ≤ x ∧ x < 2 ^ 31
  sharded : ∀ rank row, r = .sharded rank row → ps = 1 ∧ rank < dcpSize

section Receive

variable {ps : ℕ} {src : List ℤ} {L d : ℕ} {ratios : TokenRatios} {dcpSize : ℕ}

/-- The compact row of an owned slot is not cut to 32 bits. -/
theorem toInt32_packed (hnonneg : ∀ a ∈ effectiveRatios ratios dcpSize, 0 ≤ a)
    (hsum : 0 < (effectiveRatios ratios dcpSize).sum) {rank : ℕ} (hrank : rank < dcpSize) {x : ℤ}
    (hx : 0 ≤ x ∧ x < 2 ^ 31) (hown : Owns (dcpWeightedOwnerBounds ratios dcpSize rank) x) :
    toInt32 (packed (dcpWeightedOwnerBounds ratios dcpSize rank).cpS
      (dcpWeightedOwnerBounds ratios dcpSize rank).cpLo
      ((dcpWeightedOwnerBounds ratios dcpSize rank).cpHi -
        (dcpWeightedOwnerBounds ratios dcpSize rank).cpLo) x) =
    packed (dcpWeightedOwnerBounds ratios dcpSize rank).cpS
      (dcpWeightedOwnerBounds ratios dcpSize rank).cpLo
      ((dcpWeightedOwnerBounds ratios dcpSize rank).cpHi -
        (dcpWeightedOwnerBounds ratios dcpSize rank).cpLo) x := by
  have hlen := effectiveRatios_length ratios dcpSize
  rw [Owns] at hown
  rw [dcpWeightedOwnerBounds_eq ratios hrank] at hown ⊢
  dsimp only at hown ⊢
  have hlo : 0 ≤ prefixSum (effectiveRatios ratios dcpSize) rank := by
    rw [← prefixSum_zero (effectiveRatios ratios dcpSize)]
    exact prefixSum_mono_of_nonneg hnonneg (Nat.zero_le _) (by omega)
  have hhi : prefixSum (effectiveRatios ratios dcpSize) (rank + 1) ≤
      (effectiveRatios ratios dcpSize).sum := by
    rw [← prefixSum_length]
    exact prefixSum_mono_of_nonneg hnonneg (by omega) le_rfl
  have hratio : 0 ≤ prefixSum (effectiveRatios ratios dcpSize) (rank + 1) -
      prefixSum (effectiveRatios ratios dcpSize) rank ∧
      prefixSum (effectiveRatios ratios dcpSize) (rank + 1) -
        prefixSum (effectiveRatios ratios dcpSize) rank ≤ (effectiveRatios ratios dcpSize).sum := by
    omega
  have hlow := packed_nonneg hsum hx.1 hown.1 hratio.1
  have hhigh := packed_le hx.1 hsum hlo hratio.2
  exact toInt32_of_lt hlow (by omega)

/-- **A slot has exactly one owner.** -/
theorem existsUnique_owner (hnonneg : ∀ a ∈ effectiveRatios ratios dcpSize, 0 ≤ a)
    (hsum : 0 < (effectiveRatios ratios dcpSize).sum) (x : ℤ) :
    ∃! rank, rank < dcpSize ∧ Owns (dcpWeightedOwnerBounds ratios dcpSize rank) x := by
  have hlen := effectiveRatios_length ratios dcpSize
  have hiff (rank : ℕ) (hrank : rank < dcpSize) :
      Owns (dcpWeightedOwnerBounds ratios dcpSize rank) x ↔
        InClass (effectiveRatios ratios dcpSize) rank
          (x % (effectiveRatios ratios dcpSize).sum) := by
    rw [Owns, dcpWeightedOwnerBounds_eq ratios hrank]
    rfl
  obtain ⟨rank, hrank, hin⟩ := exists_inClass (effectiveRatios ratios dcpSize)
    (Int.emod_nonneg x hsum.ne') (Int.emod_lt_of_pos x hsum)
  rw [hlen] at hrank
  refine ⟨rank, ⟨hrank, (hiff rank hrank).mpr hin⟩, ?_⟩
  rintro rank' ⟨hrank', hown⟩
  exact inClass_unique_of_nonneg hnonneg (by omega) (by omega) ((hiff rank' hrank').mp hown) hin

/-- **A classic receiver**: its slice of the destination pages is as long as the chunk. -/
theorem transferLoop_classic (hps : 1 ≤ ps) {row : List ℤ} (hrow : L ≤ row.length)
    {chunk : TransferKvChunk} (infos : List TransferInfo) (hle : chunk.start ≤ chunk.stop)
    (hstop : chunk.stop ≤ kvToPageNum (L - d) ps)
    (hpages : chunk.prefillKvIndices =
      (List.range' chunk.start (chunk.stop - chunk.start)).map (pageAt ps src d)) :
    transferLoop chunk chunk.prefillKvIndices
        (⟨kvToPageIndices ((row.take L).drop d) ps, none⟩ :: infos) =
      (transferLoop chunk chunk.prefillKvIndices infos).map
        ((List.range' chunk.start (chunk.stop - chunk.start)).map
          (fun k => (pageAt ps src d k, pageAt ps row d k)) :: ·) := by
  have hslice : ((kvToPageIndices ((row.take L).drop d) ps).take chunk.stop).drop chunk.start =
      (List.range' chunk.start (chunk.stop - chunk.start)).map (pageAt ps row d) := by
    rw [← slice_range hle hstop, List.map_drop, List.map_take, kvToPageIndices_slice hps d hrow]
  rw [transferLoop]
  dsimp only
  rw [hslice, hpages, if_neg (by simp), sendKvcache_map, Option.bind_some]

/-- **A token-sharded receiver registers** the slots it owns with their compact rows. -/
theorem registerDestination_sharded (hnonneg : ∀ a ∈ effectiveRatios ratios dcpSize, 0 ≤ a)
    (hsum : 0 < (effectiveRatios ratios dcpSize).sum) {rank : ℕ} (hrank : rank < dcpSize)
    {row : List ℤ} (hrow : L ≤ row.length) (hslots : ∀ x ∈ row, 0 ≤ x ∧ x < 2 ^ 31) :
    registerDestination 1 (some (dcpWeightedOwnerBounds ratios dcpSize rank)) row d L =
      some ⟨(ownedFrom (dcpWeightedOwnerBounds ratios dcpSize rank) row d
          (List.range (L - d))).map (compactRow (dcpWeightedOwnerBounds ratios dcpSize rank) row d),
        some (ownedFrom (dcpWeightedOwnerBounds ratios dcpSize rank) row d
          (List.range (L - d)))⟩ := by
  have hfilter : (List.range ((row.take L).drop d).length).filter (fun i =>
      Owns (dcpWeightedOwnerBounds ratios dcpSize rank) (((row.take L).drop d).getD i 0)) =
      ownedFrom (dcpWeightedOwnerBounds ratios dcpSize rank) row d (List.range (L - d)) := by
    rw [length_slice d hrow, ownedFrom]
    refine List.filter_congr fun i hi => ?_
    rw [getD_slice d hrow (List.mem_range.mp hi)]
  rw [registerDestination]
  dsimp only
  rw [if_neg (by simp), hfilter, kvToPageIndices, if_pos rfl]
  congr 2
  refine List.map_congr_left fun i hi => ?_
  rw [ownedFrom, List.mem_filter, List.mem_range] at hi
  have hlt : d + i < row.length := by omega
  have hmem : row.getD (d + i) 0 ∈ row := by
    rw [List.getD_eq_getElem _ _ hlt]
    exact List.getElem_mem hlt
  rw [getD_slice d hrow hi.1]
  exact toInt32_packed hnonneg hsum hrank (hslots _ hmem) (of_decide_eq_true hi.2)

/-- **A token-sharded receiver** gets the slots of a chunk that it owns. -/
theorem transferLoop_sharded {b : OwnerBounds} {row : List ℤ} {chunk : TransferKvChunk}
    (infos : List TransferInfo) (hle : chunk.start ≤ chunk.stop) (hstop : chunk.stop ≤ L - d)
    (hpages : chunk.prefillKvIndices =
      (List.range' chunk.start (chunk.stop - chunk.start)).map (pageAt 1 src d)) :
    transferLoop chunk chunk.prefillKvIndices
        (⟨(ownedFrom b row d (List.range (L - d))).map (compactRow b row d),
          some (ownedFrom b row d (List.range (L - d)))⟩ :: infos) =
      (transferLoop chunk chunk.prefillKvIndices infos).map
        ((ownedFrom b row d (List.range' chunk.start (chunk.stop - chunk.start))).map
          (fun k => (src.getD (d + k) 0, compactRow b row d k)) :: ·) := by
  have hzip : (ownedFrom b row d (List.range (L - d))).zip
      ((ownedFrom b row d (List.range (L - d))).map (compactRow b row d)) =
      (ownedFrom b row d (List.range (L - d))).map fun k => (k, compactRow b row d k) := by
    conv_lhs => rw [← List.map_id (ownedFrom b row d (List.range (L - d))), List.map_map,
      List.zip_map']
    rfl
  -- of the owned ordinals those in the chunk are the ordinals of the chunk that are owned
  have hchunk : ((ownedFrom b row d (List.range (L - d))).map fun k =>
      (k, compactRow b row d k)).filter (fun o => chunk.start ≤ o.1 ∧ o.1 < chunk.stop) =
      (ownedFrom b row d (List.range' chunk.start (chunk.stop - chunk.start))).map fun k =>
        (k, compactRow b row d k) := by
    rw [List.filter_map, ownedFrom, ownedFrom, ← filter_range hle hstop, List.filter_filter,
      List.filter_filter]
    refine congrArg (List.map _) (List.filter_congr fun i _ => ?_)
    exact Bool.and_comm _ _
  have hsrc : (ownedFrom b row d (List.range' chunk.start (chunk.stop - chunk.start))).map
      ((fun o : ℕ × ℤ => chunk.prefillKvIndices.getD (o.1 - chunk.start) 0) ∘ fun k =>
        (k, compactRow b row d k)) =
      (ownedFrom b row d (List.range' chunk.start (chunk.stop - chunk.start))).map
        fun k => src.getD (d + k) 0 := by
    refine List.map_congr_left fun i hi => ?_
    have hi' := (List.mem_filter.mp hi).1
    rw [List.mem_range'_1] at hi'
    rw [Function.comp_apply, hpages, List.getD_eq_getElem _ _ (by simp; omega),
      List.getElem_map, List.getElem_range', pageAt]
    have hidx : d + (chunk.start + 1 * (i - chunk.start)) * 1 = d + i := by omega
    rw [hidx, Nat.cast_one, Int.ediv_one]
  rw [transferLoop]
  dsimp only
  rw [hzip, hchunk, List.map_map, List.map_map, hsrc]
  have hcopy := sendKvcache_map (ownedFrom b row d (List.range' chunk.start
    (chunk.stop - chunk.start))) (fun k => src.getD (d + k) 0) (compactRow b row d)
  exact congrArg (fun w => Option.bind w fun w =>
    (transferLoop chunk chunk.prefillKvIndices infos).map (w :: ·)) hcopy

/-- **What a receiver registers** gives it, of every chunk, what it should get. -/
theorem Receiver.register (src : List ℤ) (d : ℕ) {r : Receiver} (hfits : r.Fits ps L dcpSize)
    (hps : 1 ≤ ps) (hnonneg : ∀ a ∈ effectiveRatios ratios dcpSize, 0 ≤ a)
    (hsum : 0 < (effectiveRatios ratios dcpSize).sum) :
    ∃ info, registerDestination ps (r.bounds ratios dcpSize) r.row d L = some info ∧
      ∀ (chunk : TransferKvChunk) (infos : List TransferInfo), chunk.start ≤ chunk.stop →
        chunk.stop ≤ kvToPageNum (L - d) ps →
        chunk.prefillKvIndices =
          (List.range' chunk.start (chunk.stop - chunk.start)).map (pageAt ps src d) →
        transferLoop chunk chunk.prefillKvIndices (info :: infos) =
          (transferLoop chunk chunk.prefillKvIndices infos).map
            (r.writes ps src d ratios dcpSize
              (List.range' chunk.start (chunk.stop - chunk.start)) :: ·) := by
  cases r with
  | classic row =>
    exact ⟨_, rfl, fun chunk infos => transferLoop_classic hps hfits.le_row infos⟩
  | sharded rank row =>
    obtain ⟨rfl, hrank⟩ := hfits.sharded rank row rfl
    have hnum : kvToPageNum (L - d) 1 = L - d := by
      rw [kvToPageNum]
      omega
    refine ⟨_, registerDestination_sharded hnonneg hsum hrank hfits.le_row hfits.slots, ?_⟩
    intro chunk infos hle hstop hpages
    exact transferLoop_sharded infos hle (hnum ▸ hstop) hpages

/-- **All receivers of a chunk** get what they should. -/
theorem transferLoop_receivers (src : List ℤ) (d : ℕ) {receivers : List Receiver}
    (hfits : ∀ r ∈ receivers, r.Fits ps L dcpSize) (hps : 1 ≤ ps)
    (hnonneg : ∀ a ∈ effectiveRatios ratios dcpSize, 0 ≤ a)
    (hsum : 0 < (effectiveRatios ratios dcpSize).sum) :
    ∃ infos, receivers.mapM (fun r =>
        registerDestination ps (r.bounds ratios dcpSize) r.row d L) = some infos ∧
      ∀ chunk : TransferKvChunk, chunk.start ≤ chunk.stop →
        chunk.stop ≤ kvToPageNum (L - d) ps →
        chunk.prefillKvIndices =
          (List.range' chunk.start (chunk.stop - chunk.start)).map (pageAt ps src d) →
        transferLoop chunk chunk.prefillKvIndices infos = some (receivers.map fun r =>
          r.writes ps src d ratios dcpSize
            (List.range' chunk.start (chunk.stop - chunk.start))) := by
  induction receivers with
  | nil => exact ⟨[], rfl, fun _ _ _ _ => rfl⟩
  | cons r receivers ih =>
    obtain ⟨infos, hinfos, hrest⟩ := ih fun r' hr' => hfits r' (List.mem_cons_of_mem _ hr')
    obtain ⟨info, hinfo, hfirst⟩ := Receiver.register src d (hfits r List.mem_cons_self) hps hnonneg
      hsum
    refine ⟨info :: infos, ?_, fun chunk hle hstop hpages => ?_⟩
    · rw [mapM_eq_some] at hinfos ⊢
      exact .cons hinfo hinfos
    · rw [hfirst chunk infos hle hstop hpages, hrest chunk hle hstop hpages]
      rfl

end Receive

/-! ### Every row exactly once -/

/-- **KV is handed over exactly once.** For every page size, prompt, page-aligned decode prefix,
optional early send of a page-aligned cached prefix and chunk ends before the end of the prompt:
the sends have the pages of the prompt after the prefix, in order; the last one and no other is
treated as the last chunk; every group of receivers, classic or sharded by any token vector,
gets the pages of the same positions and the slots it owns at their compact rows, and nothing
else; and every slot has exactly one owner. -/
theorem kv_handed_over_once (ps L d : ℕ) (src : List ℤ) (cachedEnd : Option ℕ)
    (chunkEnds : List ℕ) (hps : 1 ≤ ps) (hd : ps ∣ d) (hdL : d ≤ L) (hsrc : L ≤ src.length)
    (hcached : ∀ c ∈ cachedEnd, ps ∣ c ∧ c < L) (hends : ∀ e ∈ chunkEnds, e < L) :
    (prefillSends ps src L d cachedEnd chunkEnds).sent.flatMap
        TransferKvChunk.prefillKvIndices =
      (List.range (kvToPageNum (L - d) ps)).map (pageAt ps src d) ∧
    (∃ init last, (prefillSends ps src L d cachedEnd chunkEnds).sent = init ++ [last] ∧
      (∀ c ∈ init, c.isLastChunk = false) ∧ last.isLastChunk = true) ∧
    ∀ (ratios : TokenRatios) (dcpSize : ℕ), (∀ a ∈ effectiveRatios ratios dcpSize, 0 ≤ a) →
      0 < (effectiveRatios ratios dcpSize).sum →
      (∀ receivers : List Receiver, (∀ r ∈ receivers, r.Fits ps L dcpSize) →
        ∃ infos, receivers.mapM (fun r =>
            registerDestination ps (r.bounds ratios dcpSize) r.row d L) = some infos ∧
        ∃ copies, (prefillSends ps src L d cachedEnd chunkEnds).sent.mapM
            (transferWorker infos) = some copies ∧
          ∀ j r, receivers[j]? = some r → copies.flatMap (fun copied => copied.getD j []) =
            r.writes ps src d ratios dcpSize (List.range (kvToPageNum (L - d) ps))) ∧
      ∀ slot, ∃! rank, rank < dcpSize ∧
        Owns (dcpWeightedOwnerBounds ratios dcpSize rank) slot := by
  obtain ⟨hcovers, hlast⟩ := prefillSends_covers hps hd hdL hsrc (fun c hc => (hcached c hc).2)
    hends
  refine ⟨?_, hlast, fun ratios dcpSize hnonneg hsum => ⟨fun receivers hfits => ?_,
    existsUnique_owner hnonneg hsum⟩⟩
  · rw [← hcovers.flatMap (fun ks => ks.map (pageAt ps src d)) rfl fun _ _ => List.map_append]
    exact List.flatMap_congr fun c hc => (hcovers.chunk c hc).2.2
  · obtain ⟨infos, hinfos, htransfer⟩ := transferLoop_receivers src d hfits hps hnonneg hsum
    refine ⟨infos, hinfos, (prefillSends ps src L d cachedEnd chunkEnds).sent.map fun c =>
      receivers.map fun r => r.writes ps src d ratios dcpSize
        (List.range' c.start (c.stop - c.start)), ?_, ?_⟩
    · rw [mapM_eq_some, List.forall₂_map_right_iff, List.forall₂_same]
      intro c hc
      obtain ⟨hle, hstop, hpages⟩ := hcovers.chunk c hc
      exact htransfer c hle hstop hpages
    · intro j r hr
      rw [← hcovers.flatMap (r.writes ps src d ratios dcpSize) (by cases r <;> rfl)
        (r.writes_append ps src d ratios dcpSize), List.flatMap_map]
      refine List.flatMap_congr fun c _ => ?_
      rw [List.getD_eq_getElem?_getD, List.getElem?_map, hr]
      rfl

/-- Three positions for two ranks, of which the first owns two slots of three. -/
theorem kv_handed_over_two_ranks :
    ∃ infos, ([.sharded 0 [3, 7, 5, 8], .sharded 1 [3, 7, 5, 8]] : List Receiver).mapM (fun r =>
        registerDestination 1 (r.bounds (some [2, 1]) 2) r.row 1 4) = some infos ∧
      ∃ copies, (prefillSends 1 [10, 11, 12, 13] 4 1 (some 2) [3]).sent.mapM
          (transferWorker infos) = some copies ∧
        ∀ j r, ([.sharded 0 [3, 7, 5, 8], .sharded 1 [3, 7, 5, 8]] : List Receiver)[j]? = some r →
          copies.flatMap (fun copied => copied.getD j []) =
            r.writes 1 [10, 11, 12, 13] 1 (some [2, 1]) 2 (List.range 3) := by
  refine ((kv_handed_over_once 1 4 1 [10, 11, 12, 13] (some 2) [3] (by decide) (by decide)
    (by decide) (by decide) (by decide) (by decide)).2.2 (some [2, 1]) 2 (by decide)
    (by decide)).1 _ fun r hr => ?_
  rw [List.mem_cons, List.mem_singleton] at hr
  rcases hr with rfl | rfl
  · exact ⟨by decide, by decide, fun rank row hc => by cases hc; decide⟩
  · exact ⟨by decide, by decide, fun rank row hc => by cases hc; decide⟩

end Disaggregation

end HtSglang
