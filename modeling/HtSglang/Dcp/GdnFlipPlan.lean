import HtSglang.Library.Loop
import HtSglang.Library.Overlay
import HtSglang.Library.Rows

/-!
# Slicing the states of linear attention

When the layout of the ranks flips, the state of a linear-attention layer is cut into one shard for
each rank. The convolution state consists of several blocks of channels, and each block is shared
out on its own, so that the shard of a rank is gathered from one segment of each block
(`HtSglang.Gdn.GdnShardSpec.convSegments`); the temporal state is shared out by heads. The shards
of all layers make up the payload for a rank (`HtSglang.Gdn.packGdnPairPayload`), and the receiver
writes them back (`HtSglang.Gdn.unpackGdnPairPayload`).

Every channel and every head belongs to one rank, and a payload is accepted only if it has the
right length. But the bytes of a shard are read as numbers in place, which needs an offset that is
a multiple of the size of a number. With two bytes for a number of the convolution state and four
for a number of the temporal state the offset may be odd in this sense, and the payload that was
packed is refused (`HtSglang.Gdn.unaligned_shard_refused`). The states are reproduced exactly if
all offsets are aligned (`HtSglang.Gdn.gdn_codec_lossless_iff`).

States are tables of bytes, with one row for each channel or head.
-/

namespace HtSglang

namespace Gdn

/-! ### The description of the shards -/

/-- What is raised. -/
inductive GdnError
  /-- Another number of shard vectors than of blocks. -/
  | shardVectors (blocks vectors : ℕ)
  /-- A shard vector with the wrong number of ranks. -/
  | shardEntries (block entries ranks : ℕ)
  /-- A shard vector that does not partition its block. -/
  | notPartition (block : ℕ) (shards : List ℤ) (size : ℤ)
  /-- Head shards that do not partition the heads. -/
  | headPartition (headShards : List ℤ) (numHeads : ℤ)
  /-- A convolution state with the wrong number of channels. -/
  | convChannels (got expected : ℕ)
  /-- Nothing to concatenate. -/
  | emptyCat
  /-- A convolution shard with the wrong number of channels. -/
  | convShard (got rank owned : ℕ)
  /-- A temporal state with the wrong number of heads. -/
  | temporalHeads (got expected : ℕ)
  /-- A temporal shard with the wrong number of heads. -/
  | temporalShard (got rank owned : ℕ)
  /-- Another number of convolution states than of temporal states. -/
  | layerCounts (conv temporal : ℕ)
  /-- A payload that ends inside a convolution shard. -/
  | truncatedConv (wanted got : ℕ)
  /-- A payload that ends inside a temporal shard. -/
  | truncatedTemporal (wanted got : ℕ)
  /-- Bytes that cannot be read as numbers in place. -/
  | unaligned (offset elementSize : ℕ)
  /-- A payload that is too long. -/
  | trailing (bytes : ℕ)
  deriving DecidableEq

/-- `GdnShardSpec`: what `__post_init__` lets pass. -/
structure GdnShardSpec where
  /-- The channels of each block. -/
  subBlockSizes : List ℕ
  /-- The channels of each block on each rank. -/
  subBlockShards : List (List ℕ)
  /-- The heads on each rank. -/
  headShards : List ℕ
  numHeads : ℕ
  /-- Each block is partitioned. -/
  blocks : List.Forall₂ (fun size shards => shards.length = headShards.length ∧ shards.sum = size)
    subBlockSizes subBlockShards
  heads : headShards.sum = numHeads

namespace GdnShardSpec

variable (spec : GdnShardSpec) (rank : ℕ)

/-- `n_ranks`. -/
def nRanks : ℕ := spec.headShards.length

/-- `conv_dim`. -/
def convDim : ℕ := spec.subBlockSizes.sum

/-- The loop of `conv_segments`, with `base`. -/
def segmentsFrom : ℕ → List ℕ → List (List ℕ) → List (ℕ × ℕ)
  | base, size :: sizes, shards :: rest =>
    (base + (shards.take rank).sum, shards.getD rank 0) :: segmentsFrom (base + size) sizes rest
  | _, _, _ => []

/-- `conv_segments`: the offset and the length of the segment of each block. -/
def convSegments : List (ℕ × ℕ) := segmentsFrom rank 0 spec.subBlockSizes spec.subBlockShards

/-- `conv_shard_channels`. -/
def convShardChannels : ℕ := (spec.subBlockShards.map fun shards => shards.getD rank 0).sum

/-- `head_range`. -/
def headRange : ℕ × ℕ := ((spec.headShards.take rank).sum, spec.headShards.getD rank 0)

end GdnShardSpec

/-! ### Slices of one layer -/

/-- A state: the bytes of a number, the numbers in a row, and the rows as bytes. -/
@[ext] structure Tensor where
  /-- The bytes of a number. -/
  elementSize : ℕ
  /-- The numbers in a row. -/
  rowElems : ℕ
  rows : List (List UInt8)
  deriving DecidableEq

/-- The bytes of a row. -/
def Tensor.rowBytes (t : Tensor) : ℕ := t.rowElems * t.elementSize

/-- The same numbers in other rows. -/
def Tensor.withRows (t : Tensor) (rows : List (List UInt8)) : Tensor :=
  ⟨t.elementSize, t.rowElems, rows⟩

/-- `conv_slice`. -/
def convSlice (full : Tensor) (spec : GdnShardSpec) (rank : ℕ) : Except GdnError Tensor :=
  if full.rows.length ≠ spec.convDim then
    .error (.convChannels full.rows.length spec.convDim)
  else
    let parts := (spec.convSegments rank).map fun s => (full.rows.drop s.1).take s.2
    if parts = [] then .error .emptyCat else .ok (full.withRows parts.flatten)

/-- The loop of `conv_scatter`, with `dst`. -/
def scatterSegments (shard : List (List UInt8)) :
    ℕ → List (ℕ × ℕ) → List (List UInt8) → List (List UInt8)
  | _, [], full => full
  | dst, (off, n) :: segs, full =>
    scatterSegments shard (dst + n) segs (splice full off ((shard.drop dst).take n))

/-- `conv_scatter`. -/
def convScatter (full shard : Tensor) (spec : GdnShardSpec) (rank : ℕ) : Except GdnError Tensor :=
  if shard.rows.length ≠ spec.convShardChannels rank then
    .error (.convShard shard.rows.length rank (spec.convShardChannels rank))
  else
    .ok (full.withRows (scatterSegments shard.rows 0 (spec.convSegments rank) full.rows))

/-- `temporal_slice`. -/
def temporalSlice (full : Tensor) (spec : GdnShardSpec) (rank : ℕ) : Except GdnError Tensor :=
  if full.rows.length ≠ spec.numHeads then
    .error (.temporalHeads full.rows.length spec.numHeads)
  else
    .ok (full.withRows ((full.rows.drop (spec.headRange rank).1).take (spec.headRange rank).2))

/-- `temporal_scatter`. -/
def temporalScatter (full shard : Tensor) (spec : GdnShardSpec) (rank : ℕ) :
    Except GdnError Tensor :=
  if shard.rows.length ≠ (spec.headRange rank).2 then
    .error (.temporalShard shard.rows.length rank (spec.headRange rank).2)
  else .ok (full.withRows (splice full.rows (spec.headRange rank).1 shard.rows))

/-! ### Payloads -/

/-- The states of one layer. -/
@[ext] structure Layer where
  /-- The convolution state, one row for each channel. -/
  conv : Tensor
  /-- The temporal state, one row for each head. -/
  temporal : Tensor
  deriving DecidableEq

/-- The loop of `pack_gdn_pair_payload`. -/
def packLayers (spec : GdnShardSpec) (rank : ℕ) : List Layer → Except GdnError (List UInt8)
  | [] => .ok []
  | layer :: layers =>
    (convSlice layer.conv spec rank).bind fun c =>
      (temporalSlice layer.temporal spec rank).bind fun t =>
        (packLayers spec rank layers).map fun rest => c.rows.flatten ++ t.rows.flatten ++ rest

/-- `pack_gdn_pair_payload`. -/
def packGdnPairPayload (convFull temporalFull : List Tensor) (spec : GdnShardSpec) (dstRank : ℕ) :
    Except GdnError (List UInt8) :=
  if convFull.length ≠ temporalFull.length then
    .error (.layerCounts convFull.length temporalFull.length)
  else packLayers spec dstRank (List.zipWith Layer.mk convFull temporalFull)

/-- A chunk of the payload, read in place as rows of numbers. -/
def viewChunk (payload : List UInt8) (offset : ℕ) (like : Tensor) (n : ℕ)
    (truncated : ℕ → ℕ → GdnError) : Except GdnError Tensor :=
  let chunk := (payload.drop offset).take (n * like.rowBytes)
  if chunk.length ≠ n * like.rowBytes then .error (truncated (n * like.rowBytes) chunk.length)
  else if offset % like.elementSize ≠ 0 then .error (.unaligned offset like.elementSize)
  else .ok (like.withRows (viewRows n like.rowBytes chunk))

/-- The loop of `unpack_gdn_pair_payload`, with `offset`. -/
def unpackLayers (payload : List UInt8) (spec : GdnShardSpec) (rank : ℕ) :
    ℕ → List Layer → Except GdnError (List Layer × ℕ)
  | offset, [] => .ok ([], offset)
  | offset, layer :: layers =>
    let channels := spec.convShardChannels rank
    let heads := (spec.headRange rank).2
    (viewChunk payload offset layer.conv channels .truncatedConv).bind fun cs =>
      (convScatter layer.conv cs spec rank).bind fun c =>
        let offset := offset + channels * layer.conv.rowBytes
        (viewChunk payload offset layer.temporal heads .truncatedTemporal).bind fun ts =>
          (temporalScatter layer.temporal ts spec rank).bind fun t =>
            let offset := offset + heads * layer.temporal.rowBytes
            (unpackLayers payload spec rank offset layers).map fun rest =>
              (⟨c, t⟩ :: rest.1, rest.2)

/-- `unpack_gdn_pair_payload`: the states after it. -/
def unpackGdnPairPayload (payload : List UInt8) (convFull temporalFull : List Tensor)
    (spec : GdnShardSpec) (myRank : ℕ) : Except GdnError (List Layer) :=
  (unpackLayers payload spec myRank 0 (List.zipWith Layer.mk convFull temporalFull)).bind fun r =>
    if r.2 ≠ payload.length then .error (.trailing (payload.length - r.2)) else .ok r.1

/-- The payloads of some ranks are packed and written back, one after the other. -/
def roundTrip (spec : GdnShardSpec) (layers : List Layer) :
    List ℕ → List Layer → Except GdnError (List Layer)
  | [], states => .ok states
  | rank :: ranks, states =>
    (packGdnPairPayload (layers.map Layer.conv) (layers.map Layer.temporal) spec rank).bind
      fun payload =>
        (unpackGdnPairPayload payload (states.map Layer.conv) (states.map Layer.temporal) spec
          rank).bind fun states => roundTrip spec layers ranks states

/-! ### Who owns a channel -/

/-- A place is in one of some segments. -/
def covers (segs : List (ℕ × ℕ)) (c : ℕ) : Bool :=
  segs.any fun s => decide (s.1 ≤ c) && decide (c < s.1 + s.2)

theorem covers_iff {segs : List (ℕ × ℕ)} {c : ℕ} :
    covers segs c = true ↔ ∃ s ∈ segs, s.1 ≤ c ∧ c < s.1 + s.2 := by
  simp [covers]

/-- **Each place has one rank**, when places are shared out by consecutive stretches. -/
theorem existsUnique_share {w : List ℕ} {c : ℕ} (hc : c < w.sum) :
    ∃! r, r < w.length ∧ (w.take r).sum ≤ c ∧ c < (w.take r).sum + w.getD r 0 := by
  induction w generalizing c with
  | nil => exact absurd hc (Nat.not_lt_zero _)
  | cons a w ih =>
    rw [List.sum_cons] at hc
    by_cases hca : c < a
    · refine ⟨0, ⟨Nat.zero_lt_succ _, Nat.zero_le _, by simpa using hca⟩, ?_⟩
      rintro (_ | r) ⟨-, hle, -⟩
      · rfl
      · rw [List.take_succ_cons, List.sum_cons] at hle
        omega
    · obtain ⟨r, ⟨hr, hle, hlt⟩, honly⟩ := ih (show c - a < w.sum by omega)
      refine ⟨r + 1, ⟨Nat.succ_lt_succ hr, ?_, ?_⟩, ?_⟩
      · rw [List.take_succ_cons, List.sum_cons]
        omega
      · rw [List.take_succ_cons, List.sum_cons, List.getD_cons_succ]
        omega
      · rintro (_ | s) ⟨hs, hle', hlt'⟩
        · rw [List.getD_cons_zero] at hlt'
          exact absurd (by simpa using hlt') hca
        · rw [List.take_succ_cons, List.sum_cons] at hle' hlt'
          rw [List.getD_cons_succ] at hlt'
          rw [honly s ⟨Nat.lt_of_succ_lt_succ hs, by omega, by omega⟩]

theorem take_sum_add_getD_le (w : List ℕ) (r : ℕ) : (w.take r).sum + w.getD r 0 ≤ w.sum := by
  induction w generalizing r with
  | nil => simp
  | cons a w ih =>
    cases r with
    | zero => simp
    | succ r =>
      have := ih r
      rw [List.take_succ_cons, List.sum_cons, List.sum_cons, List.getD_cons_succ]
      omega

namespace GdnShardSpec

variable {rank base n : ℕ} {sizes : List ℕ} {shards : List (List ℕ)}

/-- The segments lie in the blocks. -/
theorem mem_segmentsFrom
    (h : List.Forall₂ (fun size (v : List ℕ) => v.length = n ∧ v.sum = size) sizes shards)
    {s : ℕ × ℕ} (hs : s ∈ segmentsFrom rank base sizes shards) :
    base ≤ s.1 ∧ s.1 + s.2 ≤ base + sizes.sum := by
  induction h generalizing base with
  | nil => cases hs
  | @cons size v sizes shards hv _ ih =>
    have hshare := take_sum_add_getD_le v rank
    rw [List.sum_cons]
    rcases List.mem_cons.mp hs with rfl | hs
    · dsimp only
      omega
    · have := ih hs
      omega

/-- **Each channel belongs to one rank.** -/
theorem existsUnique_covers
    (h : List.Forall₂ (fun size (v : List ℕ) => v.length = n ∧ v.sum = size) sizes shards)
    {c : ℕ} (hbase : base ≤ c) (hc : c < base + sizes.sum) :
    ∃! r, r < n ∧ covers (segmentsFrom r base sizes shards) c = true := by
  induction h generalizing base with
  | nil =>
    rw [List.sum_nil] at hc
    omega
  | @cons size v sizes shards hv hrest ih =>
    rw [List.sum_cons] at hc
    -- a segment of this block covers the channel only if the channel is in the block
    have hsplit (r : ℕ) : covers (segmentsFrom r base (size :: sizes) (v :: shards)) c = true ↔
        (base + (v.take r).sum ≤ c ∧ c < base + (v.take r).sum + v.getD r 0) ∨
          covers (segmentsFrom r (base + size) sizes shards) c = true := by
      rw [covers_iff, covers_iff, segmentsFrom]
      simp only [List.mem_cons, or_and_right, exists_or, exists_eq_left]
    by_cases hin : c < base + size
    · obtain ⟨r, ⟨hr, hle, hlt⟩, honly⟩ := existsUnique_share (show c - base < v.sum by omega)
      refine ⟨r, ⟨hv.1 ▸ hr, (hsplit r).mpr (Or.inl ⟨by omega, by omega⟩)⟩, ?_⟩
      rintro s ⟨hs, hcov⟩
      rcases (hsplit s).mp hcov with hhead | htail
      · exact honly s ⟨hv.1.symm ▸ hs, by omega, by omega⟩
      · obtain ⟨x, hx, hxc⟩ := covers_iff.mp htail
        have := (mem_segmentsFrom hrest hx).1
        omega
    · obtain ⟨r, ⟨hr, hcov⟩, honly⟩ := ih (show base + size ≤ c by omega) (by omega)
      refine ⟨r, ⟨hr, (hsplit r).mpr (Or.inr hcov)⟩, ?_⟩
      rintro s ⟨hs, hcov'⟩
      rcases (hsplit s).mp hcov' with hhead | htail
      · have := take_sum_add_getD_le v s
        omega
      · exact honly s ⟨hs, htail⟩

theorem sum_segmentsFrom (h : sizes.length = shards.length) :
    ((segmentsFrom rank base sizes shards).map Prod.snd).sum =
      (shards.map fun v => v.getD rank 0).sum := by
  induction shards generalizing base sizes with
  | nil =>
    obtain rfl := List.length_eq_zero_iff.mp h
    rfl
  | cons v shards ih =>
    obtain ⟨size, sizes, rfl⟩ := List.exists_cons_of_length_eq_add_one h
    rw [segmentsFrom, List.map_cons, List.sum_cons, ih (Nat.succ.inj h), List.map_cons,
      List.sum_cons]

variable (spec : GdnShardSpec)

/-- A rank owns a channel. -/
def ownsChannel (rank c : ℕ) : Bool := covers (spec.convSegments rank) c

/-- A rank owns a head. -/
def ownsHead (rank h : ℕ) : Bool := covers [spec.headRange rank] h

theorem existsUnique_ownsChannel {c : ℕ} (hc : c < spec.convDim) :
    ∃! r, r < spec.nRanks ∧ spec.ownsChannel r c = true :=
  existsUnique_covers spec.blocks (Nat.zero_le c) (by rw [Nat.zero_add]; exact hc)

theorem existsUnique_ownsHead {h : ℕ} (hh : h < spec.numHeads) :
    ∃! r, r < spec.nRanks ∧ spec.ownsHead r h = true := by
  have hshare := existsUnique_share (spec.heads.symm ▸ hh)
  simpa only [ownsHead, covers_iff, List.mem_singleton, exists_eq_left, nRanks, headRange]
    using hshare

theorem segment_le {s : ℕ × ℕ} (hs : s ∈ spec.convSegments rank) : s.1 + s.2 ≤ spec.convDim := by
  have := (mem_segmentsFrom spec.blocks hs).2
  rwa [Nat.zero_add] at this

theorem headRange_le : (spec.headRange rank).1 + (spec.headRange rank).2 ≤ spec.numHeads := by
  rw [← spec.heads]
  exact take_sum_add_getD_le _ _

theorem sum_convSegments :
    ((spec.convSegments rank).map Prod.snd).sum = spec.convShardChannels rank :=
  sum_segmentsFrom spec.blocks.length_eq

end GdnShardSpec

/-! ### Segments written back -/

section Segments

variable {segs : List (ℕ × ℕ)}

/-- Segments of a table are written into another one. -/
theorem scatterSegments_overlay {t l : List (List UInt8)} (h : t.length = l.length)
    (hfit : ∀ s ∈ segs, s.1 + s.2 ≤ t.length) (p : ℕ → Bool) (pre : List (List UInt8)) :
    scatterSegments (pre ++ (segs.map fun s => (t.drop s.1).take s.2).flatten) pre.length segs
      (overlay p t l) = overlay (fun c => p c || covers segs c) t l := by
  induction segs generalizing p pre with
  | nil =>
    rw [scatterSegments]
    exact overlay_congr fun c _ => by rw [covers, List.any_nil, Bool.or_false]
  | cons s segs ih =>
    have hs := hfit s List.mem_cons_self
    have hlen : ((t.drop s.1).take s.2).length = s.2 := by
      rw [List.length_take, List.length_drop]
      omega
    have hpart : ((pre ++ ((s :: segs).map fun s => (t.drop s.1).take s.2).flatten).drop
        pre.length).take s.2 = (t.drop s.1).take s.2 := by
      rw [List.drop_left, List.map_cons, List.flatten_cons]
      exact List.take_left' hlen
    have hnext := ih (fun s hs => hfit s (List.mem_cons_of_mem _ hs))
      (fun c => p c || (decide (s.1 ≤ c) && decide (c < s.1 + s.2)))
      (pre ++ (t.drop s.1).take s.2)
    rw [List.length_append, hlen, List.append_assoc] at hnext
    rw [scatterSegments, hpart, splice_overlay h hs, List.map_cons, List.flatten_cons]
    refine hnext.trans (overlay_congr fun c _ => ?_)
    rw [covers, covers, List.any_cons, Bool.or_assoc]

/-- Other rows are not touched. -/
theorem getElem?_scatterSegments {shard full : List (List UInt8)}
    (hfit : ∀ s ∈ segs, s.1 + s.2 ≤ full.length) (dst : ℕ) {c : ℕ} (hc : covers segs c = false) :
    (scatterSegments shard dst segs full)[c]? = full[c]? := by
  induction segs generalizing dst full with
  | nil => rfl
  | cons s segs ih =>
    rw [covers, List.any_cons, Bool.or_eq_false_iff] at hc
    have hs := hfit s List.mem_cons_self
    have hle : s.1 + ((shard.drop dst).take s.2).length ≤ full.length := by
      rw [List.length_take]
      omega
    have hout : ¬(s.1 ≤ c ∧ c < s.1 + ((shard.drop dst).take s.2).length) := by
      have := hc.1
      rw [← Bool.decide_and, decide_eq_false_iff_not] at this
      rw [List.length_take]
      omega
    rw [scatterSegments, ih _ _ hc.2, getElem?_splice hle, if_neg hout]
    intro x hx
    rw [length_splice hle]
    exact hfit x (List.mem_cons_of_mem _ hx)

end Segments

/-! ### Payloads and what they restore -/

section Payload

variable {spec : GdnShardSpec} {rank : ℕ}

/-- **States of the right shape.** -/
structure Layer.Matches (spec : GdnShardSpec) (layer : Layer) : Prop where
  conv_length : layer.conv.rows.length = spec.convDim
  conv_row : ∀ row ∈ layer.conv.rows, row.length = layer.conv.rowBytes
  temporal_length : layer.temporal.rows.length = spec.numHeads
  temporal_row : ∀ row ∈ layer.temporal.rows, row.length = layer.temporal.rowBytes

/-- **States with other contents** but the same shape. -/
structure Layer.Prior (spec : GdnShardSpec) (layer prior : Layer) : Prop where
  left : layer.Matches spec
  right : prior.Matches spec
  /-- The same numbers in the convolution state. -/
  conv : layer.conv.elementSize = prior.conv.elementSize ∧ layer.conv.rowElems = prior.conv.rowElems
  temporal : layer.temporal.elementSize = prior.temporal.elementSize ∧
    layer.temporal.rowElems = prior.temporal.rowElems

/-- The channels of a rank. -/
def convPart (spec : GdnShardSpec) (rank : ℕ) (layer : Layer) : List (List UInt8) :=
  ((spec.convSegments rank).map fun s => (layer.conv.rows.drop s.1).take s.2).flatten

/-- The heads of a rank. -/
def headPart (spec : GdnShardSpec) (rank : ℕ) (layer : Layer) : List (List UInt8) :=
  (layer.temporal.rows.drop (spec.headRange rank).1).take (spec.headRange rank).2

/-- The payload for a rank. -/
def payloadOf (spec : GdnShardSpec) (rank : ℕ) (layers : List Layer) : List UInt8 :=
  (layers.map fun l => (convPart spec rank l).flatten ++ (headPart spec rank l).flatten).flatten

/-- The bytes of the shards of a rank. -/
def shardBytes (spec : GdnShardSpec) (rank : ℕ) (layers : List Layer) : ℕ :=
  (layers.map fun l => spec.convShardChannels rank * l.conv.rowBytes +
    (spec.headRange rank).2 * l.temporal.rowBytes).sum

/-- **All shards of a payload are aligned**: each begins at a multiple of the size of its numbers.
-/
def Aligned (spec : GdnShardSpec) (rank : ℕ) : ℕ → List Layer → Prop
  | _, [] => True
  | offset, l :: layers =>
    offset % l.conv.elementSize = 0 ∧
      (offset + spec.convShardChannels rank * l.conv.rowBytes) % l.temporal.elementSize = 0 ∧
      Aligned spec rank (offset + spec.convShardChannels rank * l.conv.rowBytes +
        (spec.headRange rank).2 * l.temporal.rowBytes) layers

theorem Layer.Matches.length_convPart {layer : Layer} (h : layer.Matches spec) :
    (convPart spec rank layer).length = spec.convShardChannels rank := by
  rw [convPart, List.length_flatten, List.map_map, ← spec.sum_convSegments]
  congr 1
  refine List.map_congr_left fun s hs => ?_
  have := spec.segment_le hs
  have := h.conv_length
  rw [Function.comp_apply, List.length_take, List.length_drop]
  omega

theorem Layer.Matches.length_headPart {layer : Layer} (h : layer.Matches spec) :
    (headPart spec rank layer).length = (spec.headRange rank).2 := by
  have : (spec.headRange rank).1 + (spec.headRange rank).2 ≤ spec.numHeads := spec.headRange_le
  have := h.temporal_length
  rw [headPart, List.length_take, List.length_drop]
  omega

theorem Layer.Matches.convPart_row {layer : Layer} (h : layer.Matches spec) :
    ∀ row ∈ convPart spec rank layer, row.length = layer.conv.rowBytes := by
  intro row hrow
  obtain ⟨part, hpart, hmem⟩ := List.mem_flatten.mp hrow
  obtain ⟨s, -, rfl⟩ := List.mem_map.mp hpart
  exact h.conv_row row (List.mem_of_mem_drop (List.mem_of_mem_take hmem))

theorem Layer.Matches.headPart_row {layer : Layer} (h : layer.Matches spec) :
    ∀ row ∈ headPart spec rank layer, row.length = layer.temporal.rowBytes := fun row hrow =>
  h.temporal_row row (List.mem_of_mem_drop (List.mem_of_mem_take hrow))

theorem convSegments_eq_nil_iff : spec.convSegments rank = [] ↔ spec.subBlockSizes = [] := by
  have hlen := spec.blocks.length_eq
  rw [GdnShardSpec.convSegments]
  generalize spec.subBlockSizes = sizes at hlen ⊢
  generalize spec.subBlockShards = shards at hlen ⊢
  cases sizes with
  | nil => exact iff_of_true rfl rfl
  | cons size sizes =>
    obtain ⟨v, shards, rfl⟩ := List.exists_cons_of_length_eq_add_one hlen.symm
    exact iff_of_false (List.cons_ne_nil _ _) (List.cons_ne_nil _ _)

theorem convSlice_eq {layer : Layer} (h : layer.Matches spec) :
    convSlice layer.conv spec rank = if spec.subBlockSizes = [] then .error .emptyCat
      else .ok (layer.conv.withRows (convPart spec rank layer)) := by
  rw [convSlice, if_neg (not_not.mpr h.conv_length)]
  simp only [List.map_eq_nil_iff, convSegments_eq_nil_iff]
  rfl

theorem temporalSlice_eq {layer : Layer} (h : layer.Matches spec) :
    temporalSlice layer.temporal spec rank =
      .ok (layer.temporal.withRows (headPart spec rank layer)) :=
  if_neg (not_not.mpr h.temporal_length)

/-- Packing succeeds when there is a block. -/
theorem packLayers_eq {layers : List Layer} (h : ∀ layer ∈ layers, layer.Matches spec)
    (hne : layers ≠ [] → spec.subBlockSizes ≠ []) :
    packLayers spec rank layers = .ok (payloadOf spec rank layers) := by
  induction layers with
  | nil => rfl
  | cons layer layers ih =>
    have hblocks := hne (List.cons_ne_nil _ _)
    have hlayer := h layer List.mem_cons_self
    rw [packLayers, convSlice_eq hlayer, if_neg hblocks, temporalSlice_eq hlayer,
      ih (fun l hl => h l (List.mem_cons_of_mem _ hl)) fun _ => hblocks, payloadOf, payloadOf,
      List.map_cons, List.flatten_cons]
    rfl

theorem ne_nil_of_packLayers_ok {layers : List Layer} {payload : List UInt8}
    (h : ∀ layer ∈ layers, layer.Matches spec) (hok : packLayers spec rank layers = .ok payload)
    (hne : layers ≠ []) : spec.subBlockSizes ≠ [] := by
  cases layers with
  | nil => exact absurd rfl hne
  | cons layer layers =>
    intro hblocks
    rw [packLayers, convSlice_eq (h layer List.mem_cons_self), if_pos hblocks] at hok
    cases hok

/-- A chunk is read back. -/
theorem viewChunk_append {part : List (List UInt8)} {like : Tensor}
    (hrow : ∀ row ∈ part, row.length = like.rowBytes) (pre rest : List UInt8)
    (truncated : ℕ → ℕ → GdnError) (haligned : pre.length % like.elementSize = 0) :
    viewChunk (pre ++ (part.flatten ++ rest)) pre.length like part.length truncated =
      .ok (like.withRows part) := by
  have hlen : part.flatten.length = part.length * like.rowBytes := length_flatten_of_width hrow
  have hchunk : ((pre ++ (part.flatten ++ rest)).drop pre.length).take
      (part.length * like.rowBytes) = part.flatten := by
    rw [List.drop_left]
    exact List.take_left' hlen
  rw [viewChunk, hchunk, if_neg (not_not.mpr hlen), if_neg (not_not.mpr haligned),
    viewRows_flatten hrow]

/-- The states while the payloads are written back: the channels and heads that have been written
are those of the layer. -/
def overlaid (pc ph : ℕ → Bool) (layer prior : Layer) : Layer where
  conv := layer.conv.withRows (overlay pc layer.conv.rows prior.conv.rows)
  temporal := layer.temporal.withRows (overlay ph layer.temporal.rows prior.temporal.rows)

theorem viewChunk_withRows (payload : List UInt8) (offset : ℕ) (like : Tensor)
    (rows : List (List UInt8)) (n : ℕ) (truncated : ℕ → ℕ → GdnError) :
    viewChunk payload offset (like.withRows rows) n truncated =
      viewChunk payload offset like n truncated :=
  rfl

theorem rowBytes_withRows (t : Tensor) (rows : List (List UInt8)) :
    (t.withRows rows).rowBytes = t.rowBytes :=
  rfl

theorem convScatter_overlay {layer prior : Layer} (h : layer.Prior spec prior) (p : ℕ → Bool) :
    convScatter (layer.conv.withRows (overlay p layer.conv.rows prior.conv.rows))
      (layer.conv.withRows (convPart spec rank layer)) spec rank =
      .ok (layer.conv.withRows (overlay (fun c => p c || spec.ownsChannel rank c) layer.conv.rows
        prior.conv.rows)) := by
  have hlen : layer.conv.rows.length = prior.conv.rows.length := by
    rw [h.left.conv_length, h.right.conv_length]
  have hfit : ∀ s ∈ spec.convSegments rank, s.1 + s.2 ≤ layer.conv.rows.length := by
    intro s hs
    rw [h.left.conv_length]
    exact spec.segment_le hs
  have hshard : (layer.conv.withRows (convPart spec rank layer)).rows.length =
      spec.convShardChannels rank := h.left.length_convPart
  rw [convScatter, if_neg (not_not.mpr hshard)]
  exact congrArg (fun rows => Except.ok (layer.conv.withRows rows))
    (scatterSegments_overlay hlen hfit p [])

theorem temporalScatter_overlay {layer prior : Layer} (h : layer.Prior spec prior)
    (p : ℕ → Bool) :
    temporalScatter (layer.temporal.withRows (overlay p layer.temporal.rows prior.temporal.rows))
      (layer.temporal.withRows (headPart spec rank layer)) spec rank =
      .ok (layer.temporal.withRows (overlay (fun c => p c || spec.ownsHead rank c)
        layer.temporal.rows prior.temporal.rows)) := by
  have hlen : layer.temporal.rows.length = prior.temporal.rows.length := by
    rw [h.left.temporal_length, h.right.temporal_length]
  have hfit : (spec.headRange rank).1 + (spec.headRange rank).2 ≤ layer.temporal.rows.length := by
    rw [h.left.temporal_length]
    exact spec.headRange_le
  have hshard : (layer.temporal.withRows (headPart spec rank layer)).rows.length =
      (spec.headRange rank).2 := h.left.length_headPart
  rw [temporalScatter, if_neg (not_not.mpr hshard)]
  refine congrArg (fun rows => Except.ok (layer.temporal.withRows rows)) ?_
  refine (splice_overlay hlen hfit).trans ?_
  refine overlay_congr fun c _ => ?_
  rw [GdnShardSpec.ownsHead, covers, List.any_cons, List.any_nil, Bool.or_false]

/-- **A payload is written back.** -/
theorem unpackLayers_overlaid {layers priors : List Layer}
    (h : List.Forall₂ (Layer.Prior spec) layers priors) (pc ph : ℕ → Bool) (pre : List UInt8)
    (haligned : Aligned spec rank pre.length layers) :
    unpackLayers (pre ++ payloadOf spec rank layers) spec rank pre.length
      (List.zipWith (overlaid pc ph) layers priors) =
      .ok (List.zipWith (overlaid (fun c => pc c || spec.ownsChannel rank c)
        (fun c => ph c || spec.ownsHead rank c)) layers priors,
        pre.length + shardBytes spec rank layers) := by
  induction h generalizing pre with
  | nil => rfl
  | @cons layer prior layers priors hx _ ih =>
    obtain ⟨hconv, htemporal, hrest⟩ := haligned
    have hpayload : pre ++ payloadOf spec rank (layer :: layers) =
        pre ++ ((convPart spec rank layer).flatten ++
          ((headPart spec rank layer).flatten ++ payloadOf spec rank layers)) := by
      rw [payloadOf, List.map_cons, List.flatten_cons, List.append_assoc, payloadOf]
    have hcb : (pre ++ (convPart spec rank layer).flatten).length =
        pre.length + spec.convShardChannels rank * layer.conv.rowBytes := by
      rw [List.length_append, length_flatten_of_width hx.left.convPart_row,
        hx.left.length_convPart]
    have hhb : (pre ++ (convPart spec rank layer).flatten ++
        (headPart spec rank layer).flatten).length =
        pre.length + spec.convShardChannels rank * layer.conv.rowBytes +
          (spec.headRange rank).2 * layer.temporal.rowBytes := by
      rw [List.length_append, hcb, length_flatten_of_width hx.left.headPart_row,
        hx.left.length_headPart]
    -- the two chunks of the layer, and the others
    have hcrow : ∀ row ∈ convPart spec rank layer, row.length = layer.conv.rowBytes :=
      hx.left.convPart_row
    have hhrow : ∀ row ∈ headPart spec rank layer, row.length = layer.temporal.rowBytes :=
      hx.left.headPart_row
    have hfirst := viewChunk_append hcrow pre
      ((headPart spec rank layer).flatten ++ payloadOf spec rank layers) .truncatedConv hconv
    have hsecond := viewChunk_append hhrow (pre ++ (convPart spec rank layer).flatten)
      (payloadOf spec rank layers) .truncatedTemporal (by rw [hcb]; exact htemporal)
    have hothers := ih (pre ++ (convPart spec rank layer).flatten ++
      (headPart spec rank layer).flatten) (by rw [hhb]; exact hrest)
    rw [hx.left.length_convPart] at hfirst
    rw [hx.left.length_headPart, hcb, List.append_assoc] at hsecond
    rw [hhb, List.append_assoc, List.append_assoc] at hothers
    rw [hpayload, List.zipWith_cons_cons, List.zipWith_cons_cons, unpackLayers]
    simp only [overlaid, viewChunk_withRows, rowBytes_withRows, hfirst, Except.bind,
      convScatter_overlay hx, hsecond, temporalScatter_overlay hx, hothers, Except.map]
    rw [shardBytes, shardBytes, List.map_cons, List.sum_cons, ← Nat.add_assoc, ← Nat.add_assoc]

theorem length_payloadOf {layers : List Layer} (h : ∀ layer ∈ layers, layer.Matches spec) :
    (payloadOf spec rank layers).length = shardBytes spec rank layers := by
  rw [payloadOf, List.length_flatten, List.map_map, shardBytes]
  congr 1
  refine List.map_congr_left fun layer hl => ?_
  have hlayer := h layer hl
  rw [Function.comp_apply, List.length_append, length_flatten_of_width hlayer.convPart_row,
    length_flatten_of_width hlayer.headPart_row, hlayer.length_convPart, hlayer.length_headPart]

theorem zipWith_map_mk (layers : List Layer) :
    List.zipWith Layer.mk (layers.map Layer.conv) (layers.map Layer.temporal) = layers := by
  rw [List.zipWith_map, List.zipWith_self, List.map_id']

/-- **What an unpacked payload leaves alone**: the channels and heads of other ranks. -/
structure Frame (spec : GdnShardSpec) (rank : ℕ) (layer layer' : Layer) : Prop where
  conv : ∀ c, spec.ownsChannel rank c = false → layer'.conv.rows[c]? = layer.conv.rows[c]?
  temporal : ∀ c, spec.ownsHead rank c = false →
    layer'.temporal.rows[c]? = layer.temporal.rows[c]?

theorem viewChunk_eq_ok {payload : List UInt8} {offset n : ℕ} {like t : Tensor}
    {truncated : ℕ → ℕ → GdnError} (h : viewChunk payload offset like n truncated = .ok t) :
    offset % like.elementSize = 0 ∧ t.rows.length = n := by
  rw [viewChunk] at h
  split at h
  · cases h
  split at h
  · cases h
  next haligned =>
  obtain rfl := Except.ok.inj h
  exact ⟨not_not.mp haligned, by
    rw [Tensor.withRows, viewRows, List.length_map, List.length_range]⟩

/-- **What it takes for a payload to be accepted**, and what it does then. -/
theorem unpackLayers_eq_ok {payload : List UInt8} {offset : ℕ} {layers : List Layer}
    {r : List Layer × ℕ} (hmatches : ∀ layer ∈ layers, layer.Matches spec)
    (h : unpackLayers payload spec rank offset layers = .ok r) :
    Aligned spec rank offset layers ∧ r.2 = offset + shardBytes spec rank layers ∧
      List.Forall₂ (Frame spec rank) layers r.1 := by
  induction layers generalizing offset r with
  | nil =>
    obtain rfl := Except.ok.inj h
    exact ⟨trivial, rfl, .nil⟩
  | cons layer layers ih =>
    rw [unpackLayers] at h
    obtain ⟨cs, hcs, h⟩ := bind_eq_ok.mp h
    obtain ⟨c, hc, h⟩ := bind_eq_ok.mp h
    obtain ⟨ts, hts, h⟩ := bind_eq_ok.mp h
    obtain ⟨t, ht, h⟩ := bind_eq_ok.mp h
    obtain ⟨rest, hrest, rfl⟩ := map_eq_ok h
    obtain ⟨haligned, hoff, hframe⟩ := ih (fun l hl => hmatches l (List.mem_cons_of_mem _ hl)) hrest
    have hlayer := hmatches layer List.mem_cons_self
    obtain ⟨hca, hcl⟩ := viewChunk_eq_ok hcs
    obtain ⟨hta, htl⟩ := viewChunk_eq_ok hts
    refine ⟨⟨hca, hta, haligned⟩, ?_, .cons ⟨fun k hk => ?_, fun k hk => ?_⟩ hframe⟩
    · rw [hoff, shardBytes, shardBytes, List.map_cons, List.sum_cons, ← Nat.add_assoc,
        ← Nat.add_assoc]
    · rw [convScatter, if_neg (not_not.mpr hcl)] at hc
      obtain rfl := Except.ok.inj hc
      refine getElem?_scatterSegments (fun s hs => ?_) 0 hk
      rw [hlayer.conv_length]
      exact spec.segment_le hs
    · rw [temporalScatter, if_neg (not_not.mpr htl)] at ht
      obtain rfl := Except.ok.inj ht
      have hle : (spec.headRange rank).1 + ts.rows.length ≤ layer.temporal.rows.length := by
        rw [htl, hlayer.temporal_length]
        exact spec.headRange_le
      refine (getElem?_splice hle k).trans (if_neg fun hin => ?_)
      rw [GdnShardSpec.ownsHead] at hk
      rw [htl] at hin
      exact absurd (covers_iff.mpr ⟨_, List.mem_singleton_self _, hin⟩) (by rw [hk]; decide)

/-! ### All ranks -/

/-- **A rank whose payload can be packed and read**: there is something to concatenate, and all
shards are aligned. -/
def Packable (spec : GdnShardSpec) (rank : ℕ) (layers : List Layer) : Prop :=
  (layers ≠ [] → spec.subBlockSizes ≠ []) ∧ Aligned spec rank 0 layers

section RoundTrip

variable {layers priors : List Layer} (h : List.Forall₂ (Layer.Prior spec) layers priors)

include h

theorem matches_left : ∀ layer ∈ layers, layer.Matches spec := by
  induction h with
  | nil => exact fun _ hl => (nomatch hl)
  | cons hx _ ih => exact List.forall_mem_cons.mpr ⟨hx.left, ih⟩

theorem matches_overlaid (pc ph : ℕ → Bool) :
    ∀ layer ∈ List.zipWith (overlaid pc ph) layers priors, layer.Matches spec := by
  induction h with
  | nil => exact fun _ hl => (nomatch hl)
  | @cons layer prior _ _ hx _ ih =>
    refine List.forall_mem_cons.mpr ⟨⟨?_, fun row hrow => ?_, ?_, fun row hrow => ?_⟩, ih⟩
    · refine (length_overlay ?_).trans hx.left.conv_length
      rw [hx.left.conv_length, hx.right.conv_length]
    · rcases mem_overlay hrow with hmem | hmem
      · exact hx.left.conv_row row hmem
      · rw [hx.right.conv_row row hmem, Tensor.rowBytes, ← hx.conv.1, ← hx.conv.2]
        rfl
    · refine (length_overlay ?_).trans hx.left.temporal_length
      rw [hx.left.temporal_length, hx.right.temporal_length]
    · rcases mem_overlay hrow with hmem | hmem
      · exact hx.left.temporal_row row hmem
      · rw [hx.right.temporal_row row hmem, Tensor.rowBytes, ← hx.temporal.1, ← hx.temporal.2]
        rfl

theorem aligned_overlaid (pc ph : ℕ → Bool) (offset : ℕ) :
    Aligned spec rank offset (List.zipWith (overlaid pc ph) layers priors) ↔
      Aligned spec rank offset layers := by
  induction h generalizing offset with
  | nil => rfl
  | cons _ _ ih =>
    rw [List.zipWith_cons_cons, Aligned, Aligned, ← ih]
    rfl

/-- With nothing written, the states are the old ones. -/
theorem overlaid_none :
    List.zipWith (overlaid (fun _ => false) fun _ => false) layers priors = priors := by
  induction h with
  | nil => rfl
  | @cons layer prior _ _ hx _ ih =>
    rw [List.zipWith_cons_cons, ih]
    refine congrArg (· :: _) (Layer.ext (Tensor.ext hx.conv.1 hx.conv.2 ?_)
      (Tensor.ext hx.temporal.1 hx.temporal.2 ?_))
    · exact overlay_false (by rw [hx.left.conv_length, hx.right.conv_length])
    · exact overlay_false (by rw [hx.left.temporal_length, hx.right.temporal_length])

/-- With everything written, the states are those of the layers. -/
theorem overlaid_all {pc ph : ℕ → Bool} (hpc : ∀ c < spec.convDim, pc c = true)
    (hph : ∀ c < spec.numHeads, ph c = true) :
    List.zipWith (overlaid pc ph) layers priors = layers := by
  induction h with
  | nil => rfl
  | @cons layer prior _ _ hx _ ih =>
    rw [List.zipWith_cons_cons, ih]
    refine congrArg (· :: _) (Layer.ext (Tensor.ext rfl rfl ?_) (Tensor.ext rfl rfl ?_))
    · refine overlay_of_forall (by rw [hx.left.conv_length, hx.right.conv_length]) fun c hc => ?_
      exact hpc c (hx.left.conv_length ▸ hc)
    · refine overlay_of_forall (by rw [hx.left.temporal_length, hx.right.temporal_length])
        fun c hc => ?_
      exact hph c (hx.left.temporal_length ▸ hc)

/-- **One rank**: its payload is accepted exactly if it can be packed and read. -/
theorem step_overlaid (pc ph : ℕ → Bool) (hpack : Packable spec rank layers) :
    (packGdnPairPayload (layers.map Layer.conv) (layers.map Layer.temporal) spec rank).bind
      (fun payload => unpackGdnPairPayload payload
        ((List.zipWith (overlaid pc ph) layers priors).map Layer.conv)
        ((List.zipWith (overlaid pc ph) layers priors).map Layer.temporal) spec rank) =
      .ok (List.zipWith (overlaid (fun c => pc c || spec.ownsChannel rank c)
        (fun c => ph c || spec.ownsHead rank c)) layers priors) := by
  have hunpack := unpackLayers_overlaid h pc ph [] hpack.2
  rw [List.nil_append, List.length_nil, Nat.zero_add] at hunpack
  rw [packGdnPairPayload, if_neg (by rw [List.length_map, List.length_map]; exact not_not.mpr rfl),
    zipWith_map_mk, packLayers_eq (matches_left h) hpack.1]
  simp only [Except.bind, unpackGdnPairPayload, zipWith_map_mk, hunpack]
  rw [if_neg (not_not.mpr (length_payloadOf (matches_left h)).symm)]

/-- **The payloads of some ranks**, one after the other. -/
theorem roundTrip_overlaid {ranks : List ℕ} (hranks : ∀ rank ∈ ranks, Packable spec rank layers)
    (pc ph : ℕ → Bool) :
    roundTrip spec layers ranks (List.zipWith (overlaid pc ph) layers priors) =
      .ok (List.zipWith (overlaid (fun c => pc c || ranks.any (spec.ownsChannel · c))
        (fun c => ph c || ranks.any (spec.ownsHead · c))) layers priors) := by
  induction ranks generalizing pc ph with
  | nil => simp [roundTrip]
  | cons rank ranks ih =>
    have hstep := step_overlaid h pc ph (hranks rank List.mem_cons_self)
    obtain ⟨payload, hpayload, hunpack⟩ := bind_eq_ok.mp hstep
    rw [roundTrip, hpayload]
    simp only [Except.bind, hunpack]
    rw [ih fun r hr => hranks r (List.mem_cons_of_mem _ hr)]
    simp only [List.any_cons, Bool.or_assoc]

/-- A round trip that succeeds has only ranks whose payloads can be packed and read. -/
theorem packable_of_roundTrip_ok {ranks : List ℕ} {out : List Layer} (pc ph : ℕ → Bool)
    (hok : roundTrip spec layers ranks (List.zipWith (overlaid pc ph) layers priors) = .ok out) :
    ∀ rank ∈ ranks, Packable spec rank layers := by
  induction ranks generalizing pc ph with
  | nil => exact fun _ hr => (nomatch hr)
  | cons rank ranks ih =>
    rw [roundTrip] at hok
    obtain ⟨payload, hpayload, hok⟩ := bind_eq_ok.mp hok
    obtain ⟨states, hstates, hok⟩ := bind_eq_ok.mp hok
    have hpack : Packable spec rank layers := by
      constructor
      · rw [packGdnPairPayload, if_neg (by
          rw [List.length_map, List.length_map]; exact not_not.mpr rfl), zipWith_map_mk] at hpayload
        exact ne_nil_of_packLayers_ok (matches_left h) hpayload
      · rw [unpackGdnPairPayload, zipWith_map_mk] at hstates
        obtain ⟨r, hr, -⟩ := bind_eq_ok.mp hstates
        have := (unpackLayers_eq_ok (matches_overlaid h pc ph) hr).1
        rwa [aligned_overlaid h] at this
    have hstep := step_overlaid h pc ph hpack
    rw [hpayload] at hstep
    rw [Except.ok.inj (hstates.symm.trans hstep)] at hok
    exact List.forall_mem_cons.mpr ⟨hpack, ih _ _ hok⟩

end RoundTrip

end Payload

/-! ### The codec -/

/-- **The states are reproduced exactly if all shards are aligned**, whatever the states held
before and in whatever order the ranks come. Each channel and each head belongs to one rank and is
left alone by the payloads of the others, and a payload is accepted only if it has the right
length. -/
theorem gdn_codec_lossless_iff (spec : GdnShardSpec) (layers priors : List Layer)
    (h : List.Forall₂ (Layer.Prior spec) layers priors) (ranks : List ℕ)
    (hranks : ranks.Perm (List.range spec.nRanks)) :
    (roundTrip spec layers ranks priors = .ok layers ↔
      ∀ rank < spec.nRanks, Packable spec rank layers) ∧
    (∀ c < spec.convDim, ∃! r, r < spec.nRanks ∧ spec.ownsChannel r c = true) ∧
    (∀ c < spec.numHeads, ∃! r, r < spec.nRanks ∧ spec.ownsHead r c = true) ∧
    ∀ payload rank (states states' : List Layer), (∀ layer ∈ states, layer.Matches spec) →
      unpackGdnPairPayload payload (states.map Layer.conv) (states.map Layer.temporal) spec rank =
        .ok states' →
      payload.length = shardBytes spec rank states ∧
        List.Forall₂ (Frame spec rank) states states' := by
  have hmem {rank : ℕ} : rank ∈ ranks ↔ rank < spec.nRanks := by
    rw [hranks.mem_iff, List.mem_range]
  refine ⟨⟨fun hok rank hrank => ?_, fun hpack => ?_⟩, fun c hc => spec.existsUnique_ownsChannel hc,
    fun c hc => spec.existsUnique_ownsHead hc, fun payload rank states states' hstates hok => ?_⟩
  · rw [← overlaid_none h] at hok
    exact packable_of_roundTrip_ok h _ _ hok rank (hmem.mpr hrank)
  · have htrip := roundTrip_overlaid h (fun rank hr => hpack rank (hmem.mp hr))
      (fun _ => false) fun _ => false
    rw [overlaid_none h] at htrip
    rw [htrip, overlaid_all h]
    · intro c hc
      obtain ⟨r, ⟨hr, hown⟩, -⟩ := spec.existsUnique_ownsChannel hc
      rw [Bool.false_or, List.any_eq_true]
      exact ⟨r, hmem.mpr hr, hown⟩
    · intro c hc
      obtain ⟨r, ⟨hr, hown⟩, -⟩ := spec.existsUnique_ownsHead hc
      rw [Bool.false_or, List.any_eq_true]
      exact ⟨r, hmem.mpr hr, hown⟩
  · rw [unpackGdnPairPayload, zipWith_map_mk] at hok
    obtain ⟨r, hr, hok⟩ := bind_eq_ok.mp hok
    obtain ⟨-, hoff, hframe⟩ := unpackLayers_eq_ok hstates hr
    split at hok
    · cases hok
    next hlen =>
    obtain rfl := Except.ok.inj hok
    exact ⟨by rw [← not_not.mp hlen, hoff, Nat.zero_add], hframe⟩

/-- Two ranks with a channel each; the first one has both heads. -/
def twoRanks : GdnShardSpec := ⟨[2], [[1, 1]], [2, 0], 2, .cons ⟨rfl, rfl⟩ .nil, rfl⟩

theorem gdn_codec_lossless_twoRanks :
    roundTrip twoRanks
        [⟨⟨2, 2, [[1, 2, 3, 4], [5, 6, 7, 8]]⟩, ⟨4, 1, [[1, 1, 1, 1], [2, 2, 2, 2]]⟩⟩] [1, 0]
        [⟨⟨2, 2, [[0, 0, 0, 0], [0, 0, 0, 0]]⟩, ⟨4, 1, [[9, 9, 9, 9], [9, 9, 9, 9]]⟩⟩] =
      .ok [⟨⟨2, 2, [[1, 2, 3, 4], [5, 6, 7, 8]]⟩, ⟨4, 1, [[1, 1, 1, 1], [2, 2, 2, 2]]⟩⟩] := by
  have hprior : Layer.Prior twoRanks
      ⟨⟨2, 2, [[1, 2, 3, 4], [5, 6, 7, 8]]⟩, ⟨4, 1, [[1, 1, 1, 1], [2, 2, 2, 2]]⟩⟩
      ⟨⟨2, 2, [[0, 0, 0, 0], [0, 0, 0, 0]]⟩, ⟨4, 1, [[9, 9, 9, 9], [9, 9, 9, 9]]⟩⟩ :=
    ⟨⟨rfl, by decide, rfl, by decide⟩, ⟨rfl, by decide, rfl, by decide⟩, ⟨rfl, rfl⟩, ⟨rfl, rfl⟩⟩
  refine (gdn_codec_lossless_iff twoRanks _ _ (.cons hprior .nil) [1, 0]
    (List.Perm.swap 0 1 [])).1.mpr fun rank hrank => ?_
  have hrank' : rank = 0 ∨ rank = 1 := by
    have : rank < 2 := hrank
    omega
  rcases hrank' with rfl | rfl
  · exact ⟨fun _ => List.cons_ne_nil _ _, rfl, rfl, trivial⟩
  · exact ⟨fun _ => List.cons_ne_nil _ _, rfl, rfl, trivial⟩

/-- One rank with everything. -/
def oneRank : GdnShardSpec := ⟨[1], [[1]], [1], 1, .cons ⟨rfl, rfl⟩ .nil, rfl⟩

/-- **A payload that is refused**: a channel of one number with two bytes, and a head of one number
with four bytes, which begins at the third byte of the payload. -/
theorem unaligned_shard_refused :
    packGdnPairPayload [⟨2, 1, [[1, 2]]⟩] [⟨4, 1, [[3, 4, 5, 6]]⟩] oneRank 0 =
        .ok [1, 2, 3, 4, 5, 6] ∧
      unpackGdnPairPayload [1, 2, 3, 4, 5, 6] [⟨2, 1, [[1, 2]]⟩] [⟨4, 1, [[3, 4, 5, 6]]⟩] oneRank
        0 = .error (.unaligned 2 4) :=
  ⟨rfl, rfl⟩

end Gdn

end HtSglang
