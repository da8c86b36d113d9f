import HtSglang.Dcp.Reshard

/-!
# What the trailer of a payload pins

The payload of a KV reshard ends in eight bytes that the receiver compares with what it
computes itself (`HtSglang.Dcp.receivePeer`), and nothing is written before every payload has
passed (`HtSglang.Dcp.executePlan_eq`). The trailer is there to pin the order in which the rows
were packed, since the two ends derive it independently.

What the checks look at is the *digest* of a payload: its length, and the difference between its
trailer and the sum of its bytes (`HtSglang.Dcp.digest`). A payload that is not the one that was
packed is refused exactly when their digests differ (`HtSglang.Dcp.reshard_refused_iff`), and all
payloads of as many rows have one digest: a sum does not see an order, and two rows that change
places are written to each other's rows (`HtSglang.Dcp.swapped_rows_accepted`).
-/

namespace HtSglang

namespace Dcp

section Trailer

variable {g : RowFormat}

/-- **The digest of a payload**: its length, and by how much its trailer differs from the sum of
the bytes in front of it. -/
def digest (payload : List UInt8) : ℕ × ℤ :=
  (payload.length, int64OfBytes (payload.drop (payload.length - 8)) -
    wrapInt64 (byteSum (payload.take (payload.length - 8))))

/-- The part of `_execute` in front of the write phase: the bounds check and the checks of the
received payloads. -/
def checkPayloads (env : MoverEnv) (received : ℕ → Option (List UInt8)) (tr : ReshardTransition)
    (target : List ℤ) (pool : KvPoolView g) :
    Except KvReshardError (List (List ℤ × List (List UInt8))) :=
  if pool.numRows ≤ tr.maxNewRow then .error (.ceiling target tr.maxNewRow pool.numRows)
  else tr.incomingRows.mapM fun e => do
    return (e.2, ← receivePeer g env received e.1 e.2)

/-- **The checks come first**: the write phase starts from what they return. -/
theorem executePlan_eq (env : MoverEnv) (received : ℕ → Option (List UInt8))
    (tr : ReshardTransition) (target : List ℤ) (pool : KvPoolView g) :
    executePlan env received tr target pool =
      checkPayloads env received tr target pool >>= fun incoming =>
        (List.range g.numLayers).foldlM (writeLayer env tr incoming) pool := by
  rw [executePlan, checkPayloads]
  split
  · rfl
  · rfl

/-- **A payload passes** when its digest is that of a payload of this many rows whose trailer is
right. -/
theorem receivePeer_isOk_iff (env : MoverEnv) (received : ℕ → Option (List UInt8)) (peer : ℕ)
    (rows : List ℤ) : (∃ data, receivePeer g env received peer rows = .ok data) ↔
      (received peer).map digest = some (incomingNbytes g rows, 0) := by
  rw [receivePeer]
  split
  · next hnone => simp [hnone]
  · next payload hsome =>
    rw [hsome, Option.map_some, Option.some_inj, digest, Prod.mk.injEq, sub_eq_zero]
    split
    · next hlen => simp [hlen]
    · next hlen =>
      simp only [uint8Checksum_eq]
      split
      · next hsum => simp [hsum]
      · next hsum =>
        rw [not_not] at hlen hsum
        exact iff_of_true ⟨_, rfl⟩ ⟨hlen, hsum⟩

/-- **Every packed payload has the same digest** as any other of as many rows. -/
theorem digest_packPeer (env : MoverEnv) (pool : KvPoolView g) (rows : List ℤ) :
    digest (packPeer env pool rows) = (incomingNbytes g rows, 0) := by
  obtain ⟨received, hsent⟩ : ∃ received : ℕ → Option (List UInt8),
      received 0 = some (packPeer env pool (rows.map id)) := ⟨fun _ => _, rfl⟩
  have hok := receivePeer_packPeer env env pool rows id id hsent
  rw [List.map_id] at hok hsent
  have h := (receivePeer_isOk_iff env received 0 rows).mp ⟨_, hok⟩
  rw [hsent] at h
  exact Option.some.inj h

/-- A move is refused before the write phase exactly when there is no row for a slot or a payload
does not pass. -/
theorem refused_iff (env : MoverEnv) (received : ℕ → Option (List UInt8)) (tr : ReshardTransition)
    (target : List ℤ) (pool : KvPoolView g) :
    (∃ err, checkPayloads env received tr target pool = .error err ∧
        executePlan env received tr target pool = .error err) ↔
      pool.numRows ≤ tr.maxNewRow ∨ ∃ e ∈ tr.incomingRows,
        (received e.1).map digest ≠ some (incomingNbytes g e.2, 0) := by
  have hfirst : (∃ err, checkPayloads env received tr target pool = .error err ∧
      executePlan env received tr target pool = .error err) ↔
      ¬∃ incoming, checkPayloads env received tr target pool = .ok incoming := by
    rw [executePlan_eq]
    cases checkPayloads env received tr target pool with
    | error err => exact iff_of_true ⟨err, rfl, rfl⟩ (by simp)
    | ok incoming => simp
  rw [hfirst, checkPayloads]
  split
  · next hrow => exact iff_of_true (by simp) (Or.inl hrow)
  · next hrow =>
    rw [mapM_isOk_iff, or_iff_right hrow, not_forall]
    refine exists_congr fun e => ?_
    rw [Classical.not_imp, ne_eq, ← receivePeer_isOk_iff env]
    refine and_congr_right fun _ => not_congr ?_
    cases receivePeer g env received e.1 e.2 with
    | error err => simp [bind, Except.bind]
    | ok data => simp [bind, Except.bind, pure, Except.pure]

/-- **When other bytes than the packed ones are refused** in front of the write phase: when there is
no row for a slot, or one of the payloads has another digest than the one its sender packed. The
senders are any pools, each with as many rows for the pair as the receiver expects. -/
theorem reshard_refused_iff (env : MoverEnv) (received : ℕ → Option (List UInt8))
    (tr : ReshardTransition) (target : List ℤ) (pool : KvPoolView g) (envs : ℕ → MoverEnv)
    (pools : ℕ → KvPoolView g) (rows : ℕ → List ℤ)
    (hrows : ∀ e ∈ tr.incomingRows, (rows e.1).length = e.2.length) :
    ((∃ e ∈ tr.incomingRows,
        received e.1 ≠ some (packPeer (envs e.1) (pools e.1) (rows e.1))) →
      ∃ err, checkPayloads env received tr target pool = .error err ∧
        executePlan env received tr target pool = .error err) ↔
    (∀ e ∈ tr.incomingRows,
        received e.1 = some (packPeer (envs e.1) (pools e.1) (rows e.1))) ∨
      pool.numRows ≤ tr.maxNewRow ∨ ∃ e ∈ tr.incomingRows, (received e.1).map digest ≠
        some (digest (packPeer (envs e.1) (pools e.1) (rows e.1))) := by
  have hdigest : ∀ e ∈ tr.incomingRows,
      digest (packPeer (envs e.1) (pools e.1) (rows e.1)) = (incomingNbytes g e.2, 0) := by
    intro e he
    rw [digest_packPeer, incomingNbytes, incomingNbytes, hrows e he]
  have hother : (∃ e ∈ tr.incomingRows, (received e.1).map digest ≠
      some (digest (packPeer (envs e.1) (pools e.1) (rows e.1)))) ↔
      ∃ e ∈ tr.incomingRows, (received e.1).map digest ≠ some (incomingNbytes g e.2, 0) :=
    exists_congr fun e => and_congr_right fun he => by rw [hdigest e he]
  rw [refused_iff, hother, imp_iff_not_or]
  simp only [not_exists, not_and, not_not]

end Trailer

/-- A pool whose rows hold their own number. -/
def numberedRows : KvPoolView ⟨1, fun _ => 1, fun _ => 1⟩ where
  numRows := 8
  k _ row := [UInt8.ofNat row.toNat]
  v _ row := [UInt8.ofNat (16 + row.toNat)]
  length_k _ _ := rfl
  length_v _ _ := rfl

/-- The move of slots `2` and `6` from rank `0` to rank `1`. -/
def twoRowMove : ReshardTransition := transitionOf [2, 6] [1, 1] [1, 3] 1

/-- Where one byte on the wire has changed, from `19` to `20`, the digest has and the move is
refused. -/
theorem changed_byte_refused :
    ∃ err, executePlan ⟨none, none⟩ (fun _ => some [1, 17, 3, 20, 40, 0, 0, 0, 0, 0, 0, 0])
      twoRowMove [1, 3] numberedRows = .error err := by
  obtain ⟨err, -, herr⟩ := (reshard_refused_iff ⟨none, none⟩
    (fun _ => some [1, 17, 3, 20, 40, 0, 0, 0, 0, 0, 0, 0]) twoRowMove [1, 3] numberedRows
    (fun _ => ⟨none, none⟩) (fun _ => numberedRows) (fun _ => [1, 3]) (by decide +kernel)).mpr
    (.inr (.inr (by decide +kernel))) (by decide +kernel)
  exact ⟨err, herr⟩

/-- **Swapped rows are accepted**: rank `0` packs rows `3` and `1` instead of rows `1` and `3`, so
rank `1` receives other bytes than were due, takes them, and gives slot `2` the row of slot `6`. -/
theorem swapped_rows_accepted :
    planMove [2, 6] [1, 1] [1, 3] 1 = .ok twoRowMove ∧ twoRowMove.incomingRows = [(0, [1, 4])] ∧
      (transitionOf [2, 6] [1, 1] [1, 3] 0).outgoingRows = [(1, [1, 3])] ∧
      packPeer ⟨none, none⟩ numberedRows [3, 1] ≠ packPeer ⟨none, none⟩ numberedRows [1, 3] ∧
      (executePlan ⟨none, none⟩ (fun _ => some (packPeer ⟨none, none⟩ numberedRows [3, 1]))
        twoRowMove [1, 3] numberedRows).toOption.map (fun q => (q.row 0 1, q.row 0 4)) =
          some (numberedRows.row 0 3, numberedRows.row 0 1) := by
  decide +kernel

end Dcp

end HtSglang
