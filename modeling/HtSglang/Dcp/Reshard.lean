import HtSglang.Library.Loop
import HtSglang.Library.Rows
import HtSglang.Dcp.PoolView

/-!
# The move of a KV reshard

`KvReshardRuntime._execute`: every rank packs the rows it sends, the payloads are
exchanged, and every rank writes – layer by layer – the rows it keeps and the rows
it received. The pool is one buffer, old and new rows overlap in it, and nothing
but the order of reads and writes protects a row that is still needed.

What a rank writes is described by one list of slots, `HtSglang.Dcp.writtenSlots`:
first the ones it keeps in another row, then those of each peer. On every layer
the write phase is *one* scatter indexed by that list
(`HtSglang.Dcp.writeLayer_ok`), the rows of the list are distinct because the owner
rule packs without collision (`HtSglang.Dcp.nodup_rows_writtenSlots`), and the
values are what the old owners stored before anything was written
(`HtSglang.Dcp.receive_ok`). The move preserves every live row because a live slot
either is in the list or has not moved at all.
-/

namespace HtSglang

namespace Dcp

/-! ### The mover -/

/-- What a rank reads from its process: the block size of the environment, and
what its device can afford for a checksum. -/
structure MoverEnv where
  /-- The block size of the gathers and scatters. -/
  gatherRows : Option ℤ
  /-- The chunk a checksum may be summed in. -/
  affordable : Option ℕ

/-- `torch.unique`: sorted ascending, without repetition. -/
def unique (slots : List ℤ) : List ℤ := slots.dedup.insertionSort (· ≤ ·)

/-- `_plan_move`: the transition of the live slots of this boundary. -/
def planMove (slots current target : List ℤ) (rank : ℕ) :
    Except KvReshardError ReshardTransition :=
  buildTransition (unique slots) current target rank

section Mover

variable {g : RowFormat}

/-- The payload for one peer: the rows of all layers side by side, flattened, with
the checksum behind them. -/
def packPeer (env : MoverEnv) (pool : KvPoolView g) (rows : List ℤ) : List UInt8 :=
  let flat := (sideBySide rows.length
    ((List.range g.numLayers).map fun layer => pool.readRows env.gatherRows layer rows)).flatten
  flat ++ checksum env.affordable flat

/-- The pack phase: one payload per peer of the plan. -/
def packPayloads (env : MoverEnv) (pool : KvPoolView g) (tr : ReshardTransition) :
    List (ℕ × List UInt8) :=
  tr.outgoingRows.map fun e => (e.1, packPeer env pool e.2)

/-- The bytes expected from a peer that fills `rows`. -/
def incomingNbytes (g : RowFormat) (rows : List ℤ) : ℕ := rows.length * g.totalRowNbytes + 8

/-- The payload of one peer, checked for its size and its checksum and reshaped to
one row per slot. -/
def receivePeer (g : RowFormat) (env : MoverEnv) (received : ℕ → Option (List UInt8)) (peer : ℕ)
    (rows : List ℤ) : Except KvReshardError (List (List UInt8)) :=
  match received peer with
  | none => .error (.exchangeSize peer 0 (incomingNbytes g rows))
  | some payload =>
    if payload.length ≠ incomingNbytes g rows then
      .error (.exchangeSize peer payload.length (incomingNbytes g rows))
    else
      let data := payload.take (payload.length - 8)
      let want := int64OfBytes (payload.drop (payload.length - 8))
      let computed := uint8Checksum env.affordable data
      if want ≠ computed then .error (.checksumMismatch peer want computed)
      else .ok (viewRows rows.length g.totalRowNbytes data)

/-- The first half of the write phase of a layer: gather the retained rows, and only
then scatter them. -/
def writeRetained (env : MoverEnv) (tr : ReshardTransition) (pool : KvPoolView g) (layer : ℕ) :
    Except KvReshardError (KvPoolView g) :=
  if tr.retainedOldRows ≠ [] then
    pool.writeRows env.gatherRows layer tr.retainedNewRows
      (pool.readRows env.gatherRows layer tr.retainedOldRows)
  else .ok pool

/-- The second half: scatter the columns of this layer of every received payload. -/
def writeIncoming (env : MoverEnv) (incoming : List (List ℤ × List (List UInt8)))
    (pool : KvPoolView g) (layer : ℕ) : Except KvReshardError (KvPoolView g) :=
  let colLo := ((List.range layer).map g.rowNbytes).sum
  let colHi := colLo + g.rowNbytes layer
  incoming.foldlM
    (fun pool e => pool.writeRows env.gatherRows layer e.1 (columns colLo colHi e.2)) pool

/-- The write phase of one layer. -/
def writeLayer (env : MoverEnv) (tr : ReshardTransition)
    (incoming : List (List ℤ × List (List UInt8))) (pool : KvPoolView g) (layer : ℕ) :
    Except KvReshardError (KvPoolView g) := do
  let pool ← writeRetained env tr pool layer
  writeIncoming env incoming pool layer

/-- The pack phase of `_execute` from the live slots on: what a rank gives to the
exchange. -/
def outgoing (env : MoverEnv) (slots current target : List ℤ) (rank : ℕ) (pool : KvPoolView g) :
    Except KvReshardError (List (ℕ × List UInt8)) := do
  let tr ← planMove slots current target rank
  return packPayloads env pool tr

/-- `_execute` with a priced plan, given what the exchange returns: the bounds check,
the checks of the received payloads, and the write phase over the layers. -/
def executePlan (env : MoverEnv) (received : ℕ → Option (List UInt8)) (tr : ReshardTransition)
    (target : List ℤ) (pool : KvPoolView g) : Except KvReshardError (KvPoolView g) :=
  if pool.numRows ≤ tr.maxNewRow then .error (.ceiling target tr.maxNewRow pool.numRows)
  else do
    let incoming ← tr.incomingRows.mapM fun e => do
      return (e.2, ← receivePeer g env received e.1 e.2)
    (List.range g.numLayers).foldlM (writeLayer env tr incoming) pool

/-- `_execute` on one rank, from the live slots on. -/
def execute (env : MoverEnv) (received : ℕ → Option (List UInt8)) (slots current target : List ℤ)
    (rank : ℕ) (pool : KvPoolView g) : Except KvReshardError (KvPoolView g) := do
  let tr ← planMove slots current target rank
  executePlan env received tr target pool

end Mover

theorem mem_unique {slots : List ℤ} {L : ℤ} : L ∈ unique slots ↔ L ∈ slots := by
  simp [unique]

theorem pairwise_unique (slots : List ℤ) : (unique slots).Pairwise (· < ·) := by
  have hle : (unique slots).Pairwise (· ≤ ·) := List.pairwise_insertionSort _ _
  have hne : (unique slots).Nodup :=
    (List.perm_insertionSort _ slots.dedup).nodup_iff.mpr slots.nodup_dedup
  exact hle.imp₂ (fun a b h1 h2 => lt_of_le_of_ne h1 h2) hne

/-! ### Payloads -/

section Payload

variable {g : RowFormat} {β : Type*}

/-- The bytes of one moved thing: its packed rows on all layers. -/
def cellBytes (g : RowFormat) (b : ℕ → List UInt8) : List UInt8 :=
  (List.range g.numLayers).flatMap b

theorem length_cellBytes {b : ℕ → List UInt8}
    (hb : ∀ layer < g.numLayers, (b layer).length = g.rowNbytes layer) :
    (cellBytes g b).length = g.totalRowNbytes := by
  rw [cellBytes, List.length_flatMap, RowFormat.totalRowNbytes]
  exact congrArg List.sum (List.map_congr_left fun layer h => hb layer (List.mem_range.mp h))

theorem packPeer_eq (env : MoverEnv) (pool : KvPoolView g) (l : List β) (f : β → ℤ) :
    packPeer env pool (l.map f) =
      (l.map fun x => cellBytes g fun layer => pool.row layer (f x)).flatten ++
        checksum env.affordable
          (l.map fun x => cellBytes g fun layer => pool.row layer (f x)).flatten := by
  have hside : sideBySide (l.map f).length ((List.range g.numLayers).map fun layer =>
      pool.readRows env.gatherRows layer (l.map f))
      = l.map fun x => cellBytes g fun layer => pool.row layer (f x) := by
    simp only [KvPoolView.readRows_eq, List.map_map, List.length_map]
    exact sideBySide_map l (List.range g.numLayers) fun layer x => pool.row layer (f x)
  simp only [packPeer, hside]

/-- **A payload arrives as it was packed**: the receiver's checks pass, and what it
reshapes is one row of all layers per thing sent. -/
theorem receivePeer_packPeer (env env' : MoverEnv) (pool : KvPoolView g) (l : List β)
    (f f' : β → ℤ) {received : ℕ → Option (List UInt8)} {peer : ℕ}
    (hrec : received peer = some (packPeer env pool (l.map f))) :
    receivePeer g env' received peer (l.map f')
      = .ok (l.map fun x => cellBytes g fun layer => pool.row layer (f x)) := by
  set table := l.map fun x => cellBytes g fun layer => pool.row layer (f x) with htable
  have hwidth : ∀ row ∈ table, row.length = g.totalRowNbytes := by
    intro row hrow
    obtain ⟨x, -, rfl⟩ := List.mem_map.mp hrow
    exact length_cellBytes fun layer _ => pool.length_row layer (f x)
  have hlen : table.flatten.length = l.length * g.totalRowNbytes := by
    rw [length_flatten_of_width hwidth, htable, List.length_map]
  rw [packPeer_eq, ← htable] at hrec
  simp only [receivePeer, hrec, incomingNbytes, List.length_append, length_checksum,
    List.length_map, hlen, Nat.add_sub_cancel, ne_eq, not_true, if_false]
  rw [List.drop_left' hlen, List.take_left' hlen,
    int64OfBytes_checksum env.affordable env'.affordable,
    if_neg (by simp)]
  have hview := viewRows_flatten hwidth
  rw [htable, List.length_map, ← htable] at hview
  rw [hview]

end Payload

/-! ### What a rank writes -/

section Write

variable {g : RowFormat} {β : Type*} (env : MoverEnv)

/-- The incoming legs of one layer are one scatter, indexed by the things received. -/
theorem writeIncoming_ok {layer : ℕ} (hlayer : layer < g.numLayers) (peers : List ℕ)
    (S : ℕ → List β) (f : β → ℤ) (b : ℕ → β → List UInt8)
    (hb : ∀ x, ∀ c < g.numLayers, (b c x).length = g.rowNbytes c) (pool : KvPoolView g) :
    ∃ q, writeIncoming env
        (peers.map fun r => ((S r).map f, (S r).map fun x => cellBytes g fun c => b c x))
        pool layer = .ok q ∧
      q.row layer = scatter (pool.row layer) ((peers.flatMap S).map f)
        ((peers.flatMap S).map (b layer)) ∧
      ∀ layer', layer' ≠ layer → q.row layer' = pool.row layer' := by
  induction peers generalizing pool with
  | nil => exact ⟨pool, rfl, by simp, fun _ _ => rfl⟩
  | cons r peers ih =>
    have hcols := columns_sideBySide (S r) hlayer b g.rowNbytes fun x _ c hc => hb x c hc
    obtain ⟨q, hq, -, hrow, hother⟩ :=
      pool.writeRows_of_map env.gatherRows layer (S r) f (b layer) fun x _ => hb x layer hlayer
    obtain ⟨q', hq', hrow', hother'⟩ := ih q
    refine ⟨q', ?_, ?_, fun layer' hne => (hother' layer' hne).trans (hother layer' hne)⟩
    · simp only [writeIncoming, cellBytes, List.map_cons, List.foldlM_cons] at hq' ⊢
      rw [hcols, hq]
      exact hq'
    · rw [hrow', hrow, List.flatMap_cons, List.map_append, List.map_append,
        scatter_append _ (by simp)]

/-- The retained leg of one layer is one scatter of what the layer held before it. -/
theorem writeRetained_ok (layer : ℕ) {tr : ReshardTransition} {M : List β} {f₀ f : β → ℤ}
    (hold : tr.retainedOldRows = M.map f₀) (hnew : tr.retainedNewRows = M.map f)
    (pool : KvPoolView g) :
    ∃ q, writeRetained env tr pool layer = .ok q ∧
      q.row layer = scatter (pool.row layer) (M.map f)
        (M.map fun x => pool.row layer (f₀ x)) ∧
      ∀ layer', layer' ≠ layer → q.row layer' = pool.row layer' := by
  rw [writeRetained]
  split
  · obtain ⟨q, hq, -, h⟩ := pool.writeRows_of_map env.gatherRows layer M f
      (fun x => pool.row layer (f₀ x)) fun x _ => pool.length_row layer (f₀ x)
    refine ⟨q, ?_, h⟩
    rw [KvPoolView.readRows_eq, hold, hnew, List.map_map]
    exact hq
  · next hempty =>
    have hM : M = [] := by simpa [hold] using hempty
    exact ⟨pool, rfl, by simp [hM], fun _ _ => rfl⟩

/-- **The write phase of a layer is one scatter**: the retained rows were gathered
before any write, so what is written is what the layer held. -/
theorem writeLayer_ok {layer : ℕ} (hlayer : layer < g.numLayers) {tr : ReshardTransition}
    {M : List β} {f₀ f : β → ℤ} (hold : tr.retainedOldRows = M.map f₀)
    (hnew : tr.retainedNewRows = M.map f) (peers : List ℕ) (S : ℕ → List β)
    (b : ℕ → β → List UInt8) (hb : ∀ x, ∀ c < g.numLayers, (b c x).length = g.rowNbytes c)
    (pool : KvPoolView g) (hM : ∀ x ∈ M, pool.row layer (f₀ x) = b layer x) :
    ∃ q, writeLayer env tr
        (peers.map fun r => ((S r).map f, (S r).map fun x => cellBytes g fun c => b c x))
        pool layer = .ok q ∧
      q.row layer = scatter (pool.row layer) ((M ++ peers.flatMap S).map f)
        ((M ++ peers.flatMap S).map (b layer)) ∧
      ∀ layer', layer' ≠ layer → q.row layer' = pool.row layer' := by
  obtain ⟨q, hq, hrow, hother⟩ := writeRetained_ok env layer hold hnew pool
  obtain ⟨q', hq', hrow', hother'⟩ := writeIncoming_ok env hlayer peers S f b hb q
  refine ⟨q', ?_, ?_, fun layer' hne => (hother' layer' hne).trans (hother layer' hne)⟩
  · rw [writeLayer, hq]
    exact hq'
  · rw [hrow', hrow, List.map_congr_left hM, List.map_append, List.map_append,
      scatter_append _ (by simp)]

/-- **The write phase is one scatter on every layer.** -/
theorem writePhase_ok {tr : ReshardTransition} {M : List β} {f₀ f : β → ℤ}
    (hold : tr.retainedOldRows = M.map f₀) (hnew : tr.retainedNewRows = M.map f)
    (peers : List ℕ) (S : ℕ → List β) (b : ℕ → β → List UInt8)
    (hb : ∀ x, ∀ c < g.numLayers, (b c x).length = g.rowNbytes c) (pool : KvPoolView g)
    (hM : ∀ x ∈ M, ∀ layer < g.numLayers, pool.row layer (f₀ x) = b layer x) :
    ∃ q, (List.range g.numLayers).foldlM (writeLayer env tr
        (peers.map fun r => ((S r).map f, (S r).map fun x => cellBytes g fun c => b c x)))
        pool = .ok q ∧
      ∀ layer < g.numLayers, q.row layer =
        scatter (pool.row layer) ((M ++ peers.flatMap S).map f)
          ((M ++ peers.flatMap S).map (b layer)) := by
  -- a layer not yet walked still holds what it held when the phase began
  obtain ⟨q, hq, hI⟩ := foldlM_ok (l := List.range g.numLayers) (b := pool)
    (writeLayer env tr
      (peers.map fun r => ((S r).map f, (S r).map fun x => cellBytes g fun c => b c x)))
    (fun done q => ∀ layer, q.row layer =
      if layer ∈ done then scatter (pool.row layer) ((M ++ peers.flatMap S).map f)
          ((M ++ peers.flatMap S).map (b layer))
      else pool.row layer)
    (fun done layer todo q hl hI => by
      have hmem : layer < g.numLayers := List.mem_range.mp (by simp [hl])
      have hnd := hl ▸ (List.nodup_range (n := g.numLayers))
      have hfresh : layer ∉ done := fun hc => by
        have := List.disjoint_of_nodup_append hnd hc
        simp at this
      have hlayer : q.row layer = pool.row layer := by rw [hI, if_neg hfresh]
      obtain ⟨q', hq', hrow, hother⟩ := writeLayer_ok env hmem hold hnew peers S b hb q
        fun x hx => by rw [hlayer]; exact hM x hx layer hmem
      refine ⟨q', hq', fun layer' => ?_⟩
      rcases eq_or_ne layer' layer with rfl | hne
      · rw [hrow, hlayer, if_pos (by simp)]
      · rw [hother layer' hne, hI]
        simp [hne])
    (by simp)
  exact ⟨q, hq, fun layer hlayer => by rw [hI, if_pos (List.mem_range.mpr hlayer)]⟩

end Write

/-! ### The whole move -/

section Move

variable {n : ℕ} {slots old new : List ℤ}

/-- The slots rank `p` writes, in the order it writes them: those it keeps in
another row, then those of each peer. -/
def writtenSlots (slots old new : List ℤ) (n p : ℕ) : List ℤ :=
  movingSlots slots old new p ++
    (peersWith n p fun r => pairSlots slots old new r p).flatMap fun r =>
      pairSlots slots old new r p

/-- A live slot that the new layout gives to `p` is written, unless it is stationary. -/
theorem mem_writtenSlots (hold : IsShareVector n old) (hn : 0 < n) {p : ℕ} {L : ℤ} :
    L ∈ writtenSlots slots old new n p ↔ L ∈ slots ∧ ownerOf L new = p ∧
      (ownerOf L old = p → rowsOf L old p ≠ rowsOf L new p) := by
  simp only [writtenSlots, List.mem_append, mem_movingSlots, List.mem_flatMap, mem_pairSlots,
    mem_peersWith]
  constructor
  · rintro (⟨⟨hL, -, h2⟩, h3⟩ | ⟨r, ⟨-, hrp, -⟩, hL, h1, h2⟩)
    · exact ⟨hL, h2, fun _ => h3⟩
    · exact ⟨hL, h2, fun h => absurd (h1.symm.trans h) hrp⟩
  · rintro ⟨hL, h2, h3⟩
    by_cases h1 : ownerOf L old = p
    · exact .inl ⟨⟨hL, h1, h2⟩, h3 h1⟩
    · refine .inr ⟨ownerOf L old, ⟨ownerOf_lt hold hn L, h1, ?_⟩, hL, rfl, h2⟩
      exact List.ne_nil_of_mem (mem_pairSlots.mpr ⟨hL, rfl, h2⟩)

theorem nodup_writtenSlots (hslots : slots.Nodup) (p : ℕ) :
    (writtenSlots slots old new n p).Nodup := by
  refine List.nodup_append.mpr ⟨(hslots.filter _).filter _, ?_, ?_⟩
  · refine List.nodup_flatMap.mpr ⟨fun r _ => hslots.filter _, ?_⟩
    refine (nodup_peersWith n p _).imp fun {r r'} hne L hL hL' => hne ?_
    exact (mem_pairSlots.mp hL).2.1.symm.trans (mem_pairSlots.mp hL').2.1
  · rintro L hL L' hL' rfl
    obtain ⟨r, hr, hL'⟩ := List.mem_flatMap.mp hL'
    refine (mem_peersWith.mp hr).2.1 ?_
    exact (mem_pairSlots.mp hL').2.1.symm.trans (mem_pairSlots.mp (mem_movingSlots.mp hL).1).2.1

/-- **No two writes of one rank target the same row.** -/
theorem nodup_rows_writtenSlots (hold : IsShareVector n old) (hnew : IsShareVector n new)
    (hslots : slots.Nodup) {p : ℕ} (hp : p < n) :
    ((writtenSlots slots old new n p).map fun L => rowsOf L new p).Nodup := by
  refine List.Nodup.map_on (fun L hL L' hL' h => ?_) (nodup_writtenSlots hslots p)
  have hn : 0 < n := by omega
  exact rowsOf_injOn hnew hp ((mem_writtenSlots hold hn).mp hL).2.1
    ((mem_writtenSlots hold hn).mp hL').2.1 h

/-- The rows a plan writes are the rows of the written slots. -/
theorem rows_transitionOf (hold : old.length = n) (p : ℕ) :
    (transitionOf slots old new p).retainedNewRows ++
      ((transitionOf slots old new p).incomingRows.map (·.2)).flatten
      = (writtenSlots slots old new n p).map fun L => rowsOf L new p := by
  simp only [transitionOf, writtenSlots, hold, List.map_append, List.map_map, List.map_flatMap]
  rfl

theorem planMove_eq_ok (hold : IsShareVector n old) (hnew : IsShareVector n new)
    (hslots : ∀ L ∈ slots, 0 ≤ L) {r : ℕ} (hr : r < n) :
    planMove slots old new r = .ok (transitionOf (unique slots) old new r) :=
  buildTransition_eq_ok (hold.length_eq.trans hnew.length_eq.symm)
    (by rw [hold.length_eq]; exact hr) (pairwise_unique slots)
    fun L hL => hslots L (mem_unique.mp hL)

variable {g : RowFormat}

/-- What the old layout stores for a slot on a layer. -/
def storedRow (old : List ℤ) (pools : ℕ → KvPoolView g) (layer : ℕ) (L : ℤ) : List UInt8 :=
  (pools (ownerOf L old)).row layer (rowsOf L old (ownerOf L old))

/-- **Every payload of a plan is received**, as the rows its sender stored. -/
theorem receive_ok (hlen : old.length = n) {env : ℕ → MoverEnv}
    {pools : ℕ → KvPoolView g} {p : ℕ} {received : ℕ → Option (List UInt8)}
    (hexch : ∀ r < n, r ≠ p → received r
      = (packPayloads (env r) (pools r) (transitionOf slots old new r)).lookup p) (hp : p < n) :
    ((transitionOf slots old new p).incomingRows.mapM fun e => do
        return (e.2, ← receivePeer g (env p) received e.1 e.2))
      = .ok ((peersWith n p fun r => pairSlots slots old new r p).map fun r =>
          ((pairSlots slots old new r p).map fun L => rowsOf L new p,
            (pairSlots slots old new r p).map fun L =>
              cellBytes g fun layer => storedRow old pools layer L)) := by
  simp only [transitionOf, hlen, List.mapM_map]
  refine mapM_ok fun r hr => ?_
  obtain ⟨hrn, hrp, hne⟩ := mem_peersWith.mp hr
  -- the sender has an entry for `p`, over the same list of slots
  have hsent : received r = some (packPeer (env r) (pools r)
      ((pairSlots slots old new r p).map fun L => rowsOf L old r)) := by
    rw [hexch r hrn hrp]
    refine Dict.lookup_of_mem ?_ ?_
    · simpa [Dict.keys, packPayloads, transitionOf, List.map_map, Function.comp_def]
        using nodup_peersWith old.length r _
    · simp only [packPayloads, transitionOf, List.map_map, List.mem_map]
      exact ⟨p, mem_peersWith.mpr ⟨by omega, hrp.symm, hne⟩, rfl⟩
  have hrecv := receivePeer_packPeer (env r) (env p) (pools r) (pairSlots slots old new r p)
    (fun L => rowsOf L old r) (fun L => rowsOf L new p) hsent
  have hcells : ((pairSlots slots old new r p).map fun L =>
      cellBytes g fun layer => (pools r).row layer (rowsOf L old r))
      = (pairSlots slots old new r p).map fun L =>
        cellBytes g fun layer => storedRow old pools layer L := by
    refine List.map_congr_left fun L hL => ?_
    simp only [storedRow, (mem_pairSlots.mp hL).2.1]
  simp only [Function.comp_apply, hrecv, hcells]
  rfl

/-- **The move of one rank**: every check passes, and every live slot of the new
layout is in its new row with the bytes its old owner stored. -/
theorem execute_ok (hold : IsShareVector n old) (hnew : IsShareVector n new)
    (hslots : ∀ L ∈ slots, 0 ≤ L) {env : ℕ → MoverEnv} {pools : ℕ → KvPoolView g} {p : ℕ}
    (hp : p < n) {received : ℕ → Option (List UInt8)}
    (hexch : ∀ r < n, r ≠ p → received r
      = (packPayloads (env r) (pools r) (transitionOf (unique slots) old new r)).lookup p)
    (hfit : (transitionOf (unique slots) old new p).maxNewRow < (pools p).numRows) :
    ∃ q, execute (env p) received slots old new p (pools p) = .ok q ∧
      ∀ L ∈ slots, ownerOf L new = p → ∀ layer < g.numLayers,
        q.row layer (rowsOf L new p) = storedRow old pools layer L := by
  have hn : 0 < n := by omega
  have hnodup : (unique slots).Nodup := (pairwise_unique slots).imp fun h => h.ne
  have hret : (transitionOf (unique slots) old new p).retainedOldRows
      = (movingSlots (unique slots) old new p).map fun L => rowsOf L old p := rfl
  obtain ⟨q, hq, hrow⟩ := writePhase_ok (env p) hret rfl
    (peersWith n p fun r => pairSlots (unique slots) old new r p)
    (fun r => pairSlots (unique slots) old new r p) (fun layer L => storedRow old pools layer L)
    (fun L layer _ => (pools _).length_row layer _) (pools p)
    (fun L hL layer _ => by
      rw [storedRow, (mem_pairSlots.mp (mem_movingSlots.mp hL).1).2.1])
  refine ⟨q, ?_, fun L hL hown layer hlayer => ?_⟩
  · have hrecv := receive_ok hold.length_eq hexch hp
    rw [execute, planMove_eq_ok hold hnew hslots hp]
    simp only [executePlan, bind, Except.bind, not_le.mpr hfit, if_false] at hrecv ⊢
    rw [hrecv]
    exact hq
  · rw [hrow layer hlayer]
    by_cases hmem : L ∈ writtenSlots (unique slots) old new n p
    · exact scatter_map _ _ (nodup_rows_writtenSlots hold hnew hnodup hp) hmem
    · -- a live slot that is not written has not moved, and nobody else writes its row
      have hstat : ownerOf L old = p ∧ rowsOf L old p = rowsOf L new p := by
        simp only [mem_writtenSlots hold hn, mem_unique, hL, hown, true_and, not_forall,
          not_not, exists_prop] at hmem
        exact hmem
      have hother : ∀ L' ∈ writtenSlots (unique slots) old new n p,
          rowsOf L' new p ≠ rowsOf L new p := by
        intro L' hL' h
        have := rowsOf_injOn hnew hp ((mem_writtenSlots hold hn).mp hL').2.1 hown h
        exact hmem (this ▸ hL')
      exact (scatter_map_of_ne _ _ hother).trans (by rw [storedRow, hstat.1, hstat.2])

/-- **A KV reshard preserves every live row.** For all old and new vectors of a
group, every set of non-negative live slots and all contents of the pools, when the
exchange delivers each payload unchanged and the pools are large enough for the
bounds check, every rank's move succeeds and every live slot ends up at its row of
its new owner with the bytes its old owner stored. For each pair of ranks the rows
sent and the rows filled are, entry by entry, the rows of one common list of slots,
and no rank writes a row twice. -/
theorem reshard_preserves_rows (hold : IsShareVector n old) (hnew : IsShareVector n new)
    (hslots : ∀ L ∈ slots, 0 ≤ L) (env : ℕ → MoverEnv) (pools : ℕ → KvPoolView g)
    (received : ℕ → ℕ → Option (List UInt8))
    (hexch : ∀ r < n, ∀ p < n, r ≠ p → ∀ out,
      outgoing (env r) slots old new r (pools r) = .ok out → received p r = out.lookup p)
    (hfit : ∀ p < n, ∀ tr, planMove slots old new p = .ok tr →
      tr.maxNewRow < (pools p).numRows) :
    (∃ pools' : ℕ → KvPoolView g,
      (∀ p < n, execute (env p) (received p) slots old new p (pools p) = .ok (pools' p)) ∧
      ∀ L ∈ slots, 0 < n → ownerOf L new < n ∧ ∀ layer < g.numLayers,
        (pools' (ownerOf L new)).row layer (rowsOf L new (ownerOf L new))
          = (pools (ownerOf L old)).row layer (rowsOf L old (ownerOf L old))) ∧
    (∀ r < n, ∀ p < n, r ≠ p → ∃ trR trP, ∃ S : List ℤ,
      planMove slots old new r = .ok trR ∧ planMove slots old new p = .ok trP ∧
      (trR.outgoingRows.lookup p).getD [] = S.map (fun L => rowsOf L old r) ∧
      (trP.incomingRows.lookup r).getD [] = S.map (fun L => rowsOf L new p) ∧
      ∀ L, L ∈ S ↔ L ∈ slots ∧ ownerOf L old = r ∧ ownerOf L new = p) ∧
    ∀ p < n, ∃ tr, planMove slots old new p = .ok tr ∧
      (tr.retainedNewRows ++ (tr.incomingRows.map (·.2)).flatten).Nodup := by
  refine ⟨?_, fun r hr p hp hrp => ?_, fun p hp => ?_⟩
  · have hmove : ∀ p, ∃ q, p < n →
        execute (env p) (received p) slots old new p (pools p) = .ok q ∧
        ∀ L ∈ slots, ownerOf L new = p → ∀ layer < g.numLayers,
          q.row layer (rowsOf L new p) = storedRow old pools layer L := by
      intro p
      by_cases hp : p < n
      · obtain ⟨q, hq⟩ := execute_ok hold hnew hslots hp
          (fun r hr hrp => hexch r hr p hp hrp _ (by
            rw [outgoing, planMove_eq_ok hold hnew hslots hr]
            rfl))
          (hfit p hp _ (planMove_eq_ok hold hnew hslots hp))
        exact ⟨q, fun _ => hq⟩
      · exact ⟨pools p, fun h => absurd h hp⟩
    choose pools' hpools' using hmove
    refine ⟨pools', fun p hp => (hpools' p hp).1, fun L hL hn => ?_⟩
    have hown := ownerOf_lt hnew hn L
    exact ⟨hown, (hpools' _ hown).2 L hL rfl⟩
  · refine ⟨_, _, pairSlots (unique slots) old new r p, planMove_eq_ok hold hnew hslots hr,
      planMove_eq_ok hold hnew hslots hp, ?_, ?_, fun L => ?_⟩
    · exact getD_lookup_peersWith (pairSlots (unique slots) old new r)
        (fun _ L => rowsOf L old r) (by rw [hold.length_eq]; exact hp) hrp.symm
    · exact getD_lookup_peersWith (fun peer => pairSlots (unique slots) old new peer p)
        (fun _ L => rowsOf L new p) (by rw [hold.length_eq]; exact hr) hrp
    · rw [mem_pairSlots, mem_unique]
  · refine ⟨_, planMove_eq_ok hold hnew hslots hp, ?_⟩
    rw [rows_transitionOf hold.length_eq p]
    exact nodup_rows_writtenSlots hold hnew ((pairwise_unique slots).imp fun h => h.ne) hp

/-- A move of four live slots between two ranks, where rows of the two layouts
overlap. -/
theorem reshard_preserves_rows_two_ranks :
    ∃ pools pools' : ℕ → KvPoolView ⟨1, fun _ => 1, fun _ => 1⟩,
      ∃ received : ℕ → ℕ → Option (List UInt8),
      (∀ p < 2, execute ⟨none, none⟩ (received p) [5, 0, 1, 2] [1, 1] [1, 3] p (pools p)
        = .ok (pools' p)) ∧
      (pools' 1).row 0 (rowsOf 2 [1, 3] 1) = [1, 17] := by
  let pools : ℕ → KvPoolView ⟨1, fun _ => 1, fun _ => 1⟩ := fun r =>
    { numRows := 8
      k := fun _ row => [UInt8.ofNat row.toNat]
      v := fun _ row => [UInt8.ofNat (16 * (r + 1) + row.toNat)]
      length_k := fun _ _ => rfl
      length_v := fun _ _ => rfl }
  let received : ℕ → ℕ → Option (List UInt8) := fun p r =>
    ((outgoing ⟨none, none⟩ [5, 0, 1, 2] [1, 1] [1, 3] r (pools r)).toOption.getD []).lookup p
  obtain ⟨⟨pools', hex, hrow⟩, -⟩ := reshard_preserves_rows
    (show IsShareVector 2 [1, 1] from ⟨rfl, by decide⟩)
    (show IsShareVector 2 [1, 3] from ⟨rfl, by decide⟩)
    (show ∀ L ∈ [5, 0, 1, 2], (0 : ℤ) ≤ L by decide) (fun _ => ⟨none, none⟩) pools received
    (fun r _ p _ _ out hout => by simp only [received, hout]; rfl)
    (fun p hp tr htr => by
      have hmax : ∀ p < 2, ∀ tr, planMove [5, 0, 1, 2] [1, 1] [1, 3] p = .ok tr →
          tr.maxNewRow < 8 := by
        intro p hp tr htr
        interval_cases p
        · cases htr
          decide
        · cases htr
          decide
      exact hmax p hp tr htr)
  refine ⟨pools, pools', received, hex, ?_⟩
  have h2 := (hrow 2 (by decide) (by decide)).2 0 (by decide)
  exact h2

end Move

end Dcp

end HtSglang
