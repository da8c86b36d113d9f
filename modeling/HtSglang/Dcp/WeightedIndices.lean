import HtSglang.Dcp.TokenVector
import HtSglang.Library.Segments

/-!
# The slots of a rank under the weighted owner rule

The weighted owner rule gives each slot of the KV cache to one rank, which keeps it in a compact
row. Here are the size of the compact pool (`HtSglang.Dcp.dcpCompactPoolRows`) and the list of rows
that a rank reads for a batch of requests (`HtSglang.Dcp.buildDcpWeightedKvIndices`). For the
latter the slots of the requests are copied into one flat list, by a kernel with one program for
each request; the slots that the rank owns are filtered out of it, and the pointers are sums of the
numbers of owned slots. The segments are the owned rows of the requests, in their order
(`HtSglang.Dcp.segment_buildDcpWeightedKvIndices`).

The pointers of the flat list have 32 bits and so do the lengths inside the kernel. With `2 ^ 31`
slots the kernel writes nothing, and the rows are those of whatever slots the memory held before
(`HtSglang.Dcp.kernel_lengths_wrap`). For batches with fewer slots the owner rule is a perfect
packing (`HtSglang.Dcp.weightedOwner_perfect_packing`).
-/

namespace HtSglang

namespace Dcp

/-! ### The code -/

/-- `dcp_compact_pool_rows`; `none` where it raises. -/
def dcpCompactPoolRows (globalTokens cpS cpRatio : ℤ) : Option ℤ :=
  if cpS ≤ 0 ∨ cpRatio ≤ 0 then none else some ((globalTokens / cpS + 1) * cpRatio)

/-- `dcp_weighted_owned_lengths`. -/
def dcpWeightedOwnedLengths (owned : List Bool) (lens : List ℕ) : List ℕ :=
  if owned = [] then List.replicate lens.length 0
  else
    scatterAdd (List.replicate lens.length 0)
      ((repeatInterleave 0 lens).zip (owned.map Bool.toNat))

/-- A request of a batch: its entries of `req_pool_indices`, `kv_start_idx` (zero when there is
none) and `paged_kernel_lens`. -/
structure Request where
  /-- The row of the table. -/
  poolIndex : ℕ
  /-- The first column. -/
  start : ℕ
  /-- The number of slots. -/
  len : ℕ

/-- The slots of a request, as the table has them. -/
def Request.slots (table : ℤ → ℤ) (stride : ℕ) (req : Request) : List ℤ :=
  (List.range req.len).map fun o =>
    table (((req.poolIndex * stride : ℕ) : ℤ) + (req.start : ℤ) + (o : ℕ))

/-- What one program of `create_flashinfer_kv_indices_triton` stores, from its pointer on, in
blocks of 512 lanes. -/
def kernelStores (table : ℤ → ℤ) (stride : ℕ) (offset : ℤ) (req : Request) : List (ℤ × ℤ) :=
  let kvStart := toInt32 req.start
  let kvEnd := toInt32 (kvStart + toInt32 req.len)
  let n := toInt32 (kvEnd - kvStart)
  (List.range ((n.toNat + 511) / 512)).flatMap fun i =>
    ((List.range 512).filter fun j => ((i * 512 + j : ℕ) : ℤ) < n).map fun j =>
      (offset + ((i * 512 + j : ℕ) : ℤ),
        table (((req.poolIndex * stride : ℕ) : ℤ) + kvStart + ((i * 512 + j : ℕ) : ℤ)))

/-- `full_indptr`. -/
def fullIndptr (reqs : List Request) : List ℤ :=
  (pointers 0 (reqs.map Request.len)).map fun p : ℕ => toInt32 p

/-- `full_kv`. The stores of the kernel happen in the order that `schedule` puts them in, into
memory that holds `init`. -/
def fullKv (schedule : List (ℤ × ℤ) → List (ℤ × ℤ)) (init table : ℤ → ℤ) (stride : ℕ)
    (reqs : List Request) (total : ℤ) : List ℤ :=
  let stores :=
    if 0 < total then
      schedule (List.zipWith (kernelStores table stride) (fullIndptr reqs) reqs).flatten
    else []
  (List.range total.toNat).map fun k : ℕ =>
    scatter init (stores.map Prod.fst) (stores.map Prod.snd) (k : ℤ)

/-- `build_dcp_weighted_kv_indices`; `kvIndptr` is the first entry of the buffer for the pointers,
which is not written. -/
def buildDcpWeightedKvIndices (schedule : List (ℤ × ℤ) → List (ℤ × ℤ)) (init table : ℤ → ℤ)
    (stride : ℕ) (reqs : List Request) (kvIndptr : ℤ) (b : OwnerBounds) (pad : ℕ)
    (totalTokens : Option ℤ) (isCuda : Bool) : List ℤ × List ℤ :=
  let lens := reqs.map Request.len
  let total := totalTokens.getD (if isCuda then (fullIndptr reqs).getLastD 0 else lens.sum)
  let read := (fullKv schedule init table stride reqs total).map (dcpWeightedReadSlots b)
  let kvIndices := (read.filter Prod.snd).map Prod.fst ++ List.replicate pad 0
  let ownedPerReq := dcpWeightedOwnedLengths (read.map Prod.snd) lens
  (kvIndptr :: (pointers 0 ownedPerReq).tail.map fun p : ℕ => toInt32 p, kvIndices)

/-! ### The kernel -/

section Kernel

variable {table : ℤ → ℤ} {stride : ℕ}

theorem length_slots (req : Request) : (req.slots table stride).length = req.len := by
  rw [Request.slots, List.length_map, List.length_range]

theorem map_length_slots (table : ℤ → ℤ) (stride : ℕ) (reqs : List Request) :
    (reqs.map (Request.slots table stride)).map List.length = reqs.map Request.len := by
  rw [List.map_map]
  exact List.map_congr_left fun req _ => length_slots req

/-- A program writes the slots of its request, from its pointer on. -/
theorem kernelStores_eq (p : ℕ) {req : Request} (hstart : req.start < 2 ^ 31)
    (hlen : req.len < 2 ^ 31) :
    kernelStores table stride p req = enumFrom p (req.slots table stride) := by
  have hs : toInt32 req.start = req.start := toInt32_of_lt (by omega) (by omega)
  have hl : toInt32 req.len = req.len := toInt32_of_lt (by omega) (by omega)
  have hn : toInt32 (toInt32 ((req.start : ℤ) + req.len) - req.start) = req.len := by
    rw [← hl]
    simp [toInt32]
  have hmin : min req.len ((req.len + 511) / 512 * 512) = req.len := by omega
  have hblocks := flatMap_masked_blocks 512 req.len ((req.len + 511) / 512) fun o =>
    ((p : ℤ) + (o : ℤ), table (((req.poolIndex * stride : ℕ) : ℤ) + req.start + (o : ℤ)))
  rw [hmin] at hblocks
  rw [kernelStores, hs, hl, hn, Request.slots, enumFrom_map_range]
  simp only [Int.toNat_natCast, Nat.cast_lt, Nat.cast_add p]
  exact hblocks

/-- **A batch that fits into 32 bits.** -/
structure Fits (table : ℤ → ℤ) (stride : ℕ) (reqs : List Request) : Prop where
  start : ∀ req ∈ reqs, req.start < 2 ^ 31
  total : (reqs.map Request.len).sum < 2 ^ 31
  slot : ∀ req ∈ reqs, ∀ L ∈ req.slots table stride, 0 ≤ L ∧ L < 2 ^ 31

/-- **The kernel writes the slots of the requests**, one after the other. -/
theorem kernel_flatten {reqs : List Request} (h : Fits table stride reqs) :
    (List.zipWith (kernelStores table stride) (fullIndptr reqs) reqs).flatten =
      enumFrom 0 (reqs.map (Request.slots table stride)).flatten := by
  have hgen : ∀ (p : ℕ) (reqs : List Request), (∀ req ∈ reqs, req.start < 2 ^ 31) →
      p + (reqs.map Request.len).sum < 2 ^ 31 →
      List.zipWith (kernelStores table stride)
        ((pointers p (reqs.map Request.len)).map fun p : ℕ => toInt32 p) reqs =
        List.zipWith enumFrom (pointers p ((reqs.map (Request.slots table stride)).map List.length))
          (reqs.map (Request.slots table stride)) := by
    intro p reqs
    induction reqs generalizing p with
    | nil => intro _ _; rfl
    | cons req reqs ih =>
      intro hstart hsum
      rw [List.map_cons, List.sum_cons] at hsum
      have hlen : (req.slots table stride).length = req.len := length_slots req
      have hp : toInt32 p = p := toInt32_of_lt (by omega) (by omega)
      rw [List.map_cons, List.map_cons, List.map_cons, hlen, pointers, pointers, List.map_cons,
        List.zipWith_cons_cons, List.zipWith_cons_cons, hp,
        kernelStores_eq p (hstart req List.mem_cons_self) (by omega),
        ih (p + req.len) (fun r hr => hstart r (List.mem_cons_of_mem _ hr)) (by omega)]
  rw [fullIndptr, hgen 0 reqs h.start (by have := h.total; omega), flatten_zipWith_enumFrom]

/-- The flat list of slots, whatever the order of the stores. -/
theorem fullKv_eq {reqs : List Request} (h : Fits table stride reqs)
    {schedule : List (ℤ × ℤ) → List (ℤ × ℤ)} (hschedule : ∀ l, (schedule l).Perm l)
    (init : ℤ → ℤ) :
    fullKv schedule init table stride reqs ((reqs.map Request.len).sum : ℕ) =
      (reqs.map (Request.slots table stride)).flatten := by
  rw [fullKv, kernel_flatten h, Int.toNat_natCast, ← map_length_slots table stride,
    ← List.length_flatten]
  generalize (reqs.map (Request.slots table stride)).flatten = full
  rcases Nat.eq_zero_or_pos full.length with hzero | hpos
  · rw [hzero, List.length_eq_zero_iff.mp hzero]
    rfl
  · rw [if_pos (by exact_mod_cast hpos)]
    exact read_scatter_of_perm init (hschedule _)

/-- The number of slots, read from the device. -/
theorem fullIndptr_getLastD {reqs : List Request} (h : Fits table stride reqs) :
    (fullIndptr reqs).getLastD 0 = ((reqs.map Request.len).sum : ℕ) := by
  have := h.total
  rw [fullIndptr, List.getLastD_eq_getLast?, List.getLast?_map, getLast?_pointers, Nat.zero_add,
    Option.map_some, Option.getD_some, toInt32_of_lt (by omega) (by omega)]

end Kernel

/-! ### The segments -/

section Build

variable {table : ℤ → ℤ} {stride : ℕ} {reqs : List Request}

/-- The numbers of owned slots. -/
theorem dcpWeightedOwnedLengths_flatten (owned : List (List Bool)) :
    dcpWeightedOwnedLengths owned.flatten (owned.map List.length) =
      owned.map fun seg => seg.countP id := by
  have hsum (seg : List Bool) : (seg.map Bool.toNat).sum = seg.countP id := by
    induction seg with
    | nil => rfl
    | cons x seg ih =>
      rw [List.map_cons, List.sum_cons, ih, List.countP_cons, Nat.add_comm]
      cases x <;> rfl
  rw [dcpWeightedOwnedLengths]
  split
  · next hnil =>
    rw [List.flatten_eq_nil_iff] at hnil
    rw [List.length_map, ← List.map_const']
    refine List.map_congr_left fun seg hseg => ?_
    rw [hnil seg hseg]
    rfl
  · have hadd := scatterAdd_repeatInterleave [] (owned.map fun seg => seg.map Bool.toNat)
    rw [List.nil_append, List.nil_append, List.length_map, List.map_map, List.map_map,
      ← List.map_flatten] at hadd
    have hlens : (owned.map (List.length ∘ fun seg => seg.map Bool.toNat)) =
        owned.map List.length :=
      List.map_congr_left fun seg _ => by rw [Function.comp_apply, List.length_map]
    rw [hlens] at hadd
    rw [List.length_map]
    refine hadd.trans (List.map_congr_left fun seg _ => ?_)
    rw [Function.comp_apply, hsum]

/-- The rows that a rank reads for one request. -/
def ownedRows (b : OwnerBounds) (slots : List ℤ) : List ℤ :=
  ((slots.map (dcpWeightedReadSlots b)).filter Prod.snd).map Prod.fst

theorem length_ownedRows (b : OwnerBounds) (slots : List ℤ) :
    (ownedRows b slots).length = ((slots.map (dcpWeightedReadSlots b)).map Prod.snd).countP id := by
  rw [ownedRows, List.length_map, ← List.countP_eq_length_filter, List.countP_map, List.countP_map,
    List.countP_map]
  rfl

/-- The owned slots of each request are counted. -/
theorem dcpWeightedOwnedLengths_read (b : OwnerBounds) (segs : List (List ℤ)) :
    dcpWeightedOwnedLengths ((segs.flatten.map (dcpWeightedReadSlots b)).map Prod.snd)
      (segs.map List.length) = (segs.map (ownedRows b)).map List.length := by
  have hcount := dcpWeightedOwnedLengths_flatten
    (segs.map fun seg => (seg.map (dcpWeightedReadSlots b)).map Prod.snd)
  have hlens : (segs.map fun seg => (seg.map (dcpWeightedReadSlots b)).map Prod.snd).map
      List.length = segs.map List.length := by
    rw [List.map_map]
    refine List.map_congr_left fun seg _ => ?_
    rw [Function.comp_apply, List.length_map, List.length_map]
  rw [hlens, List.map_map] at hcount
  rw [List.map_flatten, List.map_flatten, List.map_map]
  refine hcount.trans ?_
  rw [List.map_map]
  exact List.map_congr_left fun seg _ => (length_ownedRows b seg).symm

theorem sum_length_ownedRows_le (b : OwnerBounds) (segs : List (List ℤ)) :
    ((segs.map (ownedRows b)).map List.length).sum ≤ (segs.map List.length).sum := by
  rw [List.map_map]
  refine List.sum_le_sum fun seg _ => ?_
  have hle : ((seg.map (dcpWeightedReadSlots b)).map Prod.snd).countP id ≤ _ :=
    List.countP_le_length
  rw [List.length_map, List.length_map] at hle
  rwa [Function.comp_apply, length_ownedRows]

/-- Pointers below `2 ^ 31` are what they are in 32 bits. -/
theorem zero_cons_tail_pointers {lens : List ℕ} (h : lens.sum < 2 ^ 31) :
    ((0 : ℤ) :: (pointers 0 lens).tail.map fun p : ℕ => toInt32 p) =
      (pointers 0 lens).map fun p : ℕ => (p : ℤ) := by
  have hcast : (pointers 0 lens).map (fun p : ℕ => toInt32 p) =
      (pointers 0 lens).map fun p : ℕ => (p : ℤ) := by
    refine List.map_congr_left fun p hp => toInt32_of_lt (by omega) ?_
    have := le_of_mem_pointers hp
    omega
  rw [← hcast]
  cases lens <;> rfl

/-- **What is returned**: the owned rows of all requests, and pointers into them. -/
theorem buildDcpWeightedKvIndices_eq (h : Fits table stride reqs)
    {schedule : List (ℤ × ℤ) → List (ℤ × ℤ)} (hschedule : ∀ l, (schedule l).Perm l)
    (init : ℤ → ℤ) (b : OwnerBounds) (pad : ℕ) {totalTokens : Option ℤ}
    (htotal : ∀ t ∈ totalTokens, t = ((reqs.map Request.len).sum : ℕ)) (isCuda : Bool) :
    buildDcpWeightedKvIndices schedule init table stride reqs 0 b pad totalTokens isCuda =
      ((pointers 0 (((reqs.map (Request.slots table stride)).map (ownedRows b)).map
          List.length)).map fun p : ℕ => (p : ℤ),
        ((reqs.map (Request.slots table stride)).map (ownedRows b)).flatten ++
          List.replicate pad 0) := by
  have htot : totalTokens.getD (if isCuda then (fullIndptr reqs).getLastD 0
      else ((reqs.map Request.len).sum : ℕ)) = ((reqs.map Request.len).sum : ℕ) := by
    cases totalTokens with
    | some t => exact htotal t rfl
    | none =>
      rw [Option.getD_none, fullIndptr_getLastD h]
      exact ite_self _
  have hlt := h.total
  rw [buildDcpWeightedKvIndices]
  simp only [htot, fullKv_eq h hschedule init]
  rw [← map_length_slots table stride] at hlt ⊢
  generalize reqs.map (Request.slots table stride) = segs at hlt ⊢
  have hindices : ((segs.flatten.map (dcpWeightedReadSlots b)).filter Prod.snd).map Prod.fst =
      (segs.map (ownedRows b)).flatten := by
    rw [List.map_flatten, List.filter_flatten, List.map_flatten, List.map_map, List.map_map]
    rfl
  have hle := sum_length_ownedRows_le b segs
  rw [dcpWeightedOwnedLengths_read, hindices, zero_cons_tail_pointers (by omega)]

/-- **The segments** are the owned rows of the requests, in their order. -/
theorem segment_buildDcpWeightedKvIndices (h : Fits table stride reqs)
    {schedule : List (ℤ × ℤ) → List (ℤ × ℤ)} (hschedule : ∀ l, (schedule l).Perm l)
    (init : ℤ → ℤ) (b : OwnerBounds) (pad : ℕ) {totalTokens : Option ℤ}
    (htotal : ∀ t ∈ totalTokens, t = ((reqs.map Request.len).sum : ℕ)) (isCuda : Bool)
    {out : List ℤ × List ℤ} (hout : buildDcpWeightedKvIndices schedule init table stride reqs 0 b
      pad totalTokens isCuda = out) {i : ℕ} (hi : i < reqs.length) :
    (out.2.drop (out.1.getD i 0).toNat).take (out.1.getD (i + 1) 0 - out.1.getD i 0).toNat =
      ownedRows b (reqs[i].slots table stride) := by
  rw [buildDcpWeightedKvIndices_eq h hschedule init b pad htotal isCuda] at hout
  subst hout
  generalize hrows : (reqs.map (Request.slots table stride)).map (ownedRows b) = rows
  have hlen : rows.length = reqs.length := by rw [← hrows, List.length_map, List.length_map]
  have hrow : rows[i] = ownedRows b (reqs[i].slots table stride) := by
    simp only [← hrows, List.getElem_map]
  have hptr {k : ℕ} (hk : k ≤ rows.length) :
      ((pointers 0 (rows.map List.length)).map fun p : ℕ => (p : ℤ)).getD k 0 =
        ((((rows.map List.length).take k).sum : ℕ) : ℤ) := by
    have hget := getD_pointers 0 (show k ≤ (rows.map List.length).length by
      rw [List.length_map]; exact hk)
    rw [Nat.zero_add] at hget
    rw [← hget]
    exact List.getD_map (f := fun p : ℕ => (p : ℤ)) ..
  have hseg := segment_flatten rows (show i < rows.length by omega)
  have hmono : ((rows.map List.length).take i).sum ≤
      ((rows.map List.length).take (i + 1)).sum := by
    rw [List.sum_take_succ _ i (by rw [List.length_map]; omega)]
    exact Nat.le_add_right _ _
  have hend : ((rows.map List.length).take (i + 1)).sum ≤ rows.flatten.length := by
    have := List.sum_take_add_sum_drop (rows.map List.length) (i + 1)
    rw [List.length_flatten]
    omega
  rw [hptr (by omega), hptr (by omega), Int.toNat_natCast, ← Nat.cast_sub hmono,
    Int.toNat_natCast, List.drop_append_of_le_length (by omega),
    List.take_append_of_le_length (by rw [List.length_drop]; omega), hseg, hrow]

end Build

/-! ### The packing -/

section Packing

variable {n : ℕ} {ratios : TokenRatios}

/-- The ratios in force are positive. -/
theorem one_le_of_mem_effectiveRatios (h : ∀ w, ratios = some w → ∀ a ∈ w, 1 ≤ a) (n : ℕ) :
    ∀ a ∈ effectiveRatios ratios n, 1 ≤ a := by
  intro a ha
  rw [effectiveRatios] at ha
  split at ha
  · cases ratios with
    | none => cases ha
    | some w => exact h w rfl a ha
  · exact (List.eq_of_mem_replicate ha).ge

/-- A rank owns the slots of its class. -/
theorem owned_iff_inClass {r : ℕ} (hr : r < n) (L : ℤ) :
    (dcpWeightedReadSlots (dcpWeightedOwnerBounds ratios n r) L).2 = true ↔
      InClass (effectiveRatios ratios n) r (L % (effectiveRatios ratios n).sum) := by
  rw [(dcpWeightedSlots_owned _ L).1, dcpWeightedOwnerBounds_eq ratios hr]
  rfl

/-- **Each slot has one owner.** -/
theorem existsUnique_owner (h : ∀ w, ratios = some w → ∀ a ∈ w, 1 ≤ a) (hn : 0 < n) (L : ℤ) :
    ∃! r, r < n ∧ (dcpWeightedReadSlots (dcpWeightedOwnerBounds ratios n r) L).2 = true := by
  have hw := one_le_of_mem_effectiveRatios h n
  have hlen := effectiveRatios_length ratios n
  have hS : 0 < (effectiveRatios ratios n).sum := sum_pos_of_length_pos hw (by omega)
  obtain ⟨r, hr, hin⟩ := exists_inClass (effectiveRatios ratios n)
    (Int.emod_nonneg L hS.ne') (Int.emod_lt_of_pos L hS)
  rw [hlen] at hr
  refine ⟨r, ⟨hr, (owned_iff_inClass hr L).mpr hin⟩, fun s hs => ?_⟩
  exact inClass_unique hw (hlen.symm ▸ hs.1) (hlen.symm ▸ hr)
    ((owned_iff_inClass hs.1 L).mp hs.2) hin

/-- The compact row of a slot. -/
def compactRow (b : OwnerBounds) (L : ℤ) : ℤ := packed b.cpS b.cpLo b.cpRatio L

/-- What the bounds of a rank are like, and that the rank owns a slot. -/
structure Owns (b : OwnerBounds) (L : ℤ) : Prop where
  ratio_pos : 0 < b.cpRatio
  hi : b.cpHi = b.cpLo + b.cpRatio
  lo_nonneg : 0 ≤ b.cpLo
  le : b.cpHi ≤ b.cpS
  mem : b.cpLo ≤ L % b.cpS ∧ L % b.cpS < b.cpHi

theorem owns_of_owned (h : ∀ w, ratios = some w → ∀ a ∈ w, 1 ≤ a) {r : ℕ} (hr : r < n) {L : ℤ}
    (hL : (dcpWeightedReadSlots (dcpWeightedOwnerBounds ratios n r) L).2 = true) :
    Owns (dcpWeightedOwnerBounds ratios n r) L := by
  have hmem := (dcpWeightedSlots_owned _ L).1.mp hL
  have hw := one_le_of_mem_effectiveRatios h n
  have hlen := effectiveRatios_length ratios n
  have hstep := prefixSum_le_succ hw (show r < (effectiveRatios ratios n).length by omega)
  have hlo := prefixSum_nonneg hw (show r ≤ (effectiveRatios ratios n).length by omega)
  have hle := prefixSum_mono hw (show r + 1 ≤ (effectiveRatios ratios n).length by omega) le_rfl
  rw [prefixSum_length] at hle
  rw [dcpWeightedOwnerBounds_eq ratios hr] at hmem ⊢
  exact ⟨by dsimp only; omega, by dsimp only; omega, hlo, hle, hmem⟩

theorem Owns.block_pos {b : OwnerBounds} {L : ℤ} (h : Owns b L) : 0 < b.cpS := by
  have := h.ratio_pos
  have := h.hi
  have := h.lo_nonneg
  have := h.le
  omega

theorem Owns.compactRow_lt {b : OwnerBounds} {L L' : ℤ} (h : Owns b L) (h' : Owns b L')
    (hlt : L < L') : compactRow b L < compactRow b L' := by
  have hd := Int.mul_ediv_add_emod L b.cpS
  have hd' := Int.mul_ediv_add_emod L' b.cpS
  have hq : L / b.cpS ≤ L' / b.cpS := Int.ediv_le_ediv h.block_pos hlt.le
  obtain ⟨h₁, h₂⟩ := h.mem
  obtain ⟨h₃, h₄⟩ := h'.mem
  have hhi := h.hi
  rw [compactRow, compactRow, packed, packed]
  rcases hq.eq_or_lt with heq | hlt'
  · rw [heq] at hd ⊢
    omega
  · -- the blocks in between count more than the offsets
    have : (L / b.cpS + 1) * b.cpRatio ≤ L' / b.cpS * b.cpRatio :=
      Int.mul_le_mul_of_nonneg_right hlt' h.ratio_pos.le
    rw [Int.add_mul, Int.one_mul] at this
    omega

/-- The row of an owned slot is in the pool. -/
theorem Owns.compactRow_lt_rows {b : OwnerBounds} {L C : ℤ} (h : Owns b L) (hLC : L ≤ C) :
    ∃ rows, dcpCompactPoolRows C b.cpS b.cpRatio = some rows ∧ compactRow b L < rows := by
  have hS := h.block_pos
  refine ⟨_, if_neg (by have := h.ratio_pos; omega), ?_⟩
  have hq : L / b.cpS * b.cpRatio ≤ C / b.cpS * b.cpRatio :=
    Int.mul_le_mul_of_nonneg_right (Int.ediv_le_ediv hS hLC) h.ratio_pos.le
  have hhi := h.hi
  have hmem := h.mem
  rw [compactRow, packed, Int.add_mul, Int.one_mul]
  omega

/-- The rows of a list of slots, in 32 bits. -/
theorem ownedRows_eq {b : OwnerBounds} {slots : List ℤ}
    (howns : ∀ L, (dcpWeightedReadSlots b L).2 = true → Owns b L)
    (hslots : ∀ L ∈ slots, 0 ≤ L ∧ L < 2 ^ 31) :
    ownedRows b slots =
      (slots.filter fun L => (dcpWeightedReadSlots b L).2).map (compactRow b) := by
  rw [ownedRows, List.filter_map, List.map_map]
  refine List.map_congr_left fun L hL => ?_
  obtain ⟨hmem, howned⟩ := List.mem_filter.mp hL
  have ho := howns L howned
  have hrow := (dcpWeightedSlots_row b ho.mem).1
  have hnonneg := packed_nonneg ho.block_pos (hslots L hmem).1 ho.mem.1 ho.ratio_pos.le
  have hle : packed b.cpS b.cpLo b.cpRatio L ≤ L :=
    packed_le (hslots L hmem).1 ho.block_pos ho.lo_nonneg (by
      have := ho.hi
      have := ho.lo_nonneg
      have := ho.le
      omega)
  rw [Function.comp_apply, hrow, compactRow]
  exact toInt32_of_lt hnonneg (hle.trans_lt (hslots L hmem).2)

/-- **The weighted owner rule is a perfect packing**, for batches that fit into 32 bits. -/
theorem weightedOwner_perfect_packing (ratios : TokenRatios) (n : ℕ) (hn : 0 < n)
    (hratios : ∀ w, ratios = some w → ∀ a ∈ w, 1 ≤ a) :
    (∀ L, ∃! r, r < n ∧ (dcpWeightedReadSlots (dcpWeightedOwnerBounds ratios n r) L).2 = true) ∧
    (∀ r < n, StrictMonoOn (compactRow (dcpWeightedOwnerBounds ratios n r))
      {L | (dcpWeightedReadSlots (dcpWeightedOwnerBounds ratios n r) L).2 = true}) ∧
    (∀ r < n, ∀ C L, 0 ≤ L → L ≤ C →
      (dcpWeightedReadSlots (dcpWeightedOwnerBounds ratios n r) L).2 = true →
      0 ≤ compactRow (dcpWeightedOwnerBounds ratios n r) L ∧
      ∃ rows, dcpCompactPoolRows C (dcpWeightedOwnerBounds ratios n r).cpS
        (dcpWeightedOwnerBounds ratios n r).cpRatio = some rows ∧
        compactRow (dcpWeightedOwnerBounds ratios n r) L < rows) ∧
    ∀ (schedule : List (ℤ × ℤ) → List (ℤ × ℤ)) (init table : ℤ → ℤ) (stride : ℕ)
      (reqs : List Request) (pad : ℕ) (totalTokens : Option ℤ) (isCuda : Bool),
      (∀ l, (schedule l).Perm l) → Fits table stride reqs →
      (∀ t ∈ totalTokens, t = ((reqs.map Request.len).sum : ℕ)) →
      (∀ r < n, ∀ out, buildDcpWeightedKvIndices schedule init table stride reqs 0
          (dcpWeightedOwnerBounds ratios n r) pad totalTokens isCuda = out →
        out.1.length = reqs.length + 1 ∧ ∀ i (hi : i < reqs.length),
          (out.2.drop (out.1.getD i 0).toNat).take (out.1.getD (i + 1) 0 - out.1.getD i 0).toNat =
            ((reqs[i].slots table stride).filter fun L =>
              (dcpWeightedReadSlots (dcpWeightedOwnerBounds ratios n r) L).2).map
              (compactRow (dcpWeightedOwnerBounds ratios n r))) ∧
      ∀ i (hi : i < reqs.length), ((List.range n).flatMap fun r =>
        (reqs[i].slots table stride).filter fun L =>
          (dcpWeightedReadSlots (dcpWeightedOwnerBounds ratios n r) L).2).Perm
            (reqs[i].slots table stride) := by
  have howns {r : ℕ} (hr : r < n) {L : ℤ} : _ → Owns (dcpWeightedOwnerBounds ratios n r) L :=
    owns_of_owned hratios hr
  refine ⟨existsUnique_owner hratios hn, fun r hr L hL L' hL' hlt =>
    (howns hr hL).compactRow_lt (howns hr hL') hlt, fun r hr C L hL hLC howned => ?_, ?_⟩
  · have ho := howns hr howned
    exact ⟨packed_nonneg ho.block_pos hL ho.mem.1 ho.ratio_pos.le, ho.compactRow_lt_rows hLC⟩
  · intro schedule init table stride reqs pad totalTokens isCuda hschedule hfits htotal
    refine ⟨fun r hr out hout => ⟨?_, fun i hi => ?_⟩, fun i hi =>
      perm_flatMap_filter fun L _ => existsUnique_owner hratios hn L⟩
    · rw [← hout, buildDcpWeightedKvIndices_eq hfits hschedule init _ pad htotal isCuda]
      simp
    · rw [segment_buildDcpWeightedKvIndices hfits hschedule init _ pad htotal isCuda hout hi]
      exact ownedRows_eq (fun L => howns hr) (hfits.slot _ (List.getElem_mem hi))

theorem weightedOwner_perfect_packing_fourSlots :
    ((buildDcpWeightedKvIndices List.reverse (fun _ => 0) id 0 [⟨0, 0, 4⟩] 0
        (dcpWeightedOwnerBounds (some [1, 2]) 2 1) 0 none true).2.drop
      ((buildDcpWeightedKvIndices List.reverse (fun _ => 0) id 0 [⟨0, 0, 4⟩] 0
        (dcpWeightedOwnerBounds (some [1, 2]) 2 1) 0 none true).1.getD 0 0).toNat).take
      ((buildDcpWeightedKvIndices List.reverse (fun _ => 0) id 0 [⟨0, 0, 4⟩] 0
        (dcpWeightedOwnerBounds (some [1, 2]) 2 1) 0 none true).1.getD 1 0 -
      (buildDcpWeightedKvIndices List.reverse (fun _ => 0) id 0 [⟨0, 0, 4⟩] 0
        (dcpWeightedOwnerBounds (some [1, 2]) 2 1) 0 none true).1.getD 0 0).toNat = [0, 1] := by
  have hratios : ∀ w : List ℤ, some [1, 2] = some w → ∀ a ∈ w, 1 ≤ a := by
    intro w hw
    obtain rfl := Option.some.inj hw
    decide
  have hfits : Fits id 0 [⟨0, 0, 4⟩] := ⟨by decide, by decide, by decide⟩
  have hsegments := ((weightedOwner_perfect_packing (some [1, 2]) 2 (by decide) hratios).2.2.2
    List.reverse (fun _ => 0) id 0 [⟨0, 0, 4⟩] 0 none true List.reverse_perm hfits
    (fun t ht => (nomatch ht))).1 1 (by decide) _ rfl
  exact (hsegments.2 0 (by decide)).trans (by decide)

/-- **A request with `2 ^ 31` slots**: the kernel sees a negative length and writes nothing. All
slots of the request are slot 1, which rank 1 owns, but rank 1 reads no row, as the memory held
slot 0. -/
theorem kernel_lengths_wrap :
    (buildDcpWeightedKvIndices id (fun _ => 0) (fun _ => 1) 0 [⟨0, 0, 2 ^ 31⟩] 0
        (dcpWeightedOwnerBounds (some [1, 2]) 2 1) 0 none false).2 = [] ∧
      ∀ L ∈ Request.slots (fun _ => 1) 0 ⟨0, 0, 2 ^ 31⟩,
        (dcpWeightedReadSlots (dcpWeightedOwnerBounds (some [1, 2]) 2 1) L).2 = true := by
  have hstores : (List.zipWith (kernelStores (fun _ => 1) 0) (fullIndptr [⟨0, 0, 2 ^ 31⟩])
      [⟨0, 0, 2 ^ 31⟩]).flatten = [] := by
    decide +kernel
  constructor
  · rw [buildDcpWeightedKvIndices, List.replicate_zero, List.append_nil, List.map_eq_nil_iff,
      List.filter_eq_nil_iff]
    intro x hx
    obtain ⟨L, hL, rfl⟩ := List.mem_map.mp hx
    obtain rfl : L = 0 := by
      rw [fullKv, hstores, id, ite_self] at hL
      obtain ⟨k, -, rfl⟩ := List.mem_map.mp hL
      rfl
    decide
  · intro L hL
    obtain ⟨o, -, rfl⟩ := List.mem_map.mp hL
    show (dcpWeightedReadSlots (dcpWeightedOwnerBounds (some [1, 2]) 2 1) 1).2 = true
    decide

end Packing

end Dcp

end HtSglang
