import HtSglang.Library.Dict
import HtSglang.Dcp.TokenVector

/-!
# The plan of a KV reshard

A reshard moves the live rows of the KV cache from the layout of one token vector
to the layout of another. The plan is pure arithmetic (`layers/dcp/reshard_plan.py`):
every rank derives its own share from the replicated set of live slots and the two
vectors, and no plan is ever transmitted. This file has the declared vectors
(`HtSglang.Dcp.parseReshardVectors`, `HtSglang.Dcp.reshardVectorSet`), the owner
rule as the mover computes it (`HtSglang.Dcp.ownerOf`, `HtSglang.Dcp.rowsOf`) and
the per-rank plan (`HtSglang.Dcp.buildTransition`).

What makes the plans of two ranks fit together is read off here once. Every list
of a plan is the image of a list of *slots* cut out of the live set by a filter
(`HtSglang.Dcp.buildTransition_eq_ok`), and the filter of the rows rank `r` sends
to `p` is the filter of the rows `p` expects from `r`
(`HtSglang.Dcp.pairSlots`): the payload order needs no agreement because both ends
enumerate one and the same list.
-/

namespace HtSglang

namespace Dcp

/-! ### Errors -/

/-- The loud failures of the reshard family, each with the values its message
reports. -/
inductive KvReshardError
  /-- A part of the specification is not a comma-separated integer vector. -/
  | notAnIntegerVector (part spec : List Char)
  /-- A vector of the specification has an entry below `1`. -/
  | entryBelowOne (part : List Char)
  /-- The specification names no vector. -/
  | emptySpec (spec : List Char)
  /-- The vectors of the specification differ in length. -/
  | lengthsDiffer (lengths : List ℕ) (spec : List Char)
  /-- The boot vector does not have one entry per rank. -/
  | bootLength (boot : List ℤ) (dcpSize : ℕ)
  /-- A vector does not have one entry per rank. -/
  | vectorLength (vector : List ℤ) (dcpSize : ℕ)
  /-- The two vectors of a transition differ in length. -/
  | lengthMismatch (oldVector newVector : List ℤ)
  /-- The rank is not one of the group. -/
  | rankOutOfRange (rank nRanks : ℕ)
  /-- The live slots are not strictly ascending. -/
  | slotsNotAscending
  /-- A live slot is negative. -/
  | negativeSlot
  /-- A payload does not have the shape of the rows it fills. -/
  | payloadShape (rows expected layer : ℕ)
  /-- The target needs a row the pool does not hold. -/
  | ceiling (target : List ℤ) (maxRow : ℤ) (numRows : ℕ)
  /-- The exchange returned the wrong number of bytes. -/
  | exchangeSize (peer got expected : ℕ)
  /-- The checksum of a received payload is not the one its sender wrote. -/
  | checksumMismatch (peer : ℕ) (want have' : ℤ)
  /-- The ranks disagree on the reshard state. -/
  | desync (round : ℕ) (fields : List ℕ)
  /-- The consensus channel returned a payload of the wrong length. -/
  | consensusLength (got expected : ℕ)
  /-- A stage of the layer map names an ordinal outside the model. -/
  | ordinalOutOfRange (stage : ℕ) (ordinal : ℤ) (nLayers : ℕ)
  /-- Two stages of the layer map name the same ordinal. -/
  | ordinalTwice (ordinal : ℤ) (first second : ℕ)
  /-- No stage of the layer map names these ordinals. -/
  | ordinalsMissing (ordinals : List ℤ)
  /-- The layer map and the token vector have different numbers of ranks. -/
  | stageCount (stages : ℕ) (vector : List ℤ)
  /-- The group has fewer than two ranks. -/
  | groupTooSmall (dcpSize : ℕ)
  /-- The consensus interval is below `1`. -/
  | intervalBelowOne (interval : ℕ)
  /-- The boot vector is not in the declared set. -/
  | bootNotAllowed (current : List ℤ) (allowed : List (List ℤ))
  /-- An `assert` of the runtime failed. -/
  | assertionFailed
  deriving DecidableEq, Repr

/-! ### The declared vectors -/

/-- The characters that `str.strip` removes. -/
def isSpace (c : Char) : Bool :=
  let n := c.toNat
  (9 ≤ n && n ≤ 13) || (28 ≤ n && n ≤ 32) || n = 0x85 || n = 0xa0 || n = 0x1680 ||
    (0x2000 ≤ n && n ≤ 0x200a) || n = 0x2028 || n = 0x2029 || n = 0x202f || n = 0x205f ||
    n = 0x3000

/-- `str.strip`. -/
def strip (s : List Char) : List Char :=
  (s.dropWhile isSpace).reverse.dropWhile isSpace |>.reverse

section Parse

/- The reading of a numeral by the builtin `int`; `none` is its `ValueError`.
Nothing below depends on which numerals it accepts. -/
variable (int : List Char → Option ℤ)

/-- One part of the specification: a comma-separated vector of positive
integers. -/
def parseVector (spec part : List Char) : Except KvReshardError (List ℤ) :=
  match (part.splitOn ',').mapM int with
  | none => .error (.notAnIntegerVector part spec)
  | some vec =>
    if vec = [] ∨ vec.any (· < 1) then .error (.entryBelowOne part) else .ok vec

/-- `parse_reshard_vectors`: semicolon-separated vectors of one common length;
blank parts are skipped. -/
def parseReshardVectors (spec : List Char) : Except KvReshardError (List (List ℤ)) := do
  let parts := ((spec.splitOn ';').map strip).filter (· ≠ [])
  let vectors ← parts.mapM (parseVector int spec)
  let lengths := (vectors.map List.length).dedup
  if vectors = [] then .error (.emptySpec spec)
  else if lengths.length ≠ 1 then .error (.lengthsDiffer (lengths.mergeSort (· ≤ ·)) spec)
  else .ok vectors

/-- Whether a vector is in a list. -/
instance decidableMemVectors (vec : List ℤ) (vecs : List (List ℤ)) : Decidable (vec ∈ vecs) :=
  List.instDecidableMemOfLawfulBEq vec vecs

/-- Append a vector unless it is already a member. -/
def addVector (out : List (List ℤ)) (vec : List ℤ) : List (List ℤ) :=
  if vec ∈ out then out else out ++ [vec]

/-- `reshard_vector_set`: the boot vector first, then the targets, deduplicated. -/
def reshardVectorSet (spec : List Char) (dcpSize : ℕ) (boot : List ℤ) :
    Except KvReshardError (List (List ℤ)) := do
  if boot.length ≠ dcpSize then .error (.bootLength boot dcpSize)
  else
    let vectors ← parseReshardVectors int spec
    match vectors.find? (fun vec => vec.length ≠ dcpSize) with
    | some vec => .error (.vectorLength vec dcpSize)
    | none => .ok (vectors.foldl addVector [boot])

end Parse

/-! ### The owner rule of the mover -/

/-- A token vector of a group: one positive share per rank. -/
structure IsShareVector (n : ℕ) (w : List ℤ) : Prop where
  length_eq : w.length = n
  one_le : ∀ a ∈ w, 1 ≤ a

/-- `_owner_prefix`. -/
def ownerPrefix (vector : List ℤ) : List ℤ := accumulate vector

/-- `owner_of`, at one slot: a sorted search of the residue in the upper ends of
the ranks' shares. -/
def ownerOf (slot : ℤ) (vector : List ℤ) : ℕ :=
  let pre := ownerPrefix vector
  searchsortedRight pre.tail (slot % pre.getLastD 0)

/-- `rows_of`, at one slot. -/
def rowsOf (slot : ℤ) (vector : List ℤ) (rank : ℕ) : ℤ :=
  let pre := ownerPrefix vector
  let s := pre.getLastD 0
  let lo := pre.getD rank 0
  let ratio := pre.getD (rank + 1) 0 - lo
  slot / s * ratio + (slot % s - lo)

section Rule

variable {n : ℕ} {w : List ℤ}

theorem IsShareVector.sum_pos (hw : IsShareVector n w) (hn : 0 < n) : 0 < w.sum :=
  sum_pos_of_length_pos hw.one_le (by rw [hw.length_eq]; exact hn)

theorem rowsOf_eq_packed {r : ℕ} (hr : r < w.length) (L : ℤ) :
    rowsOf L w r =
      packed w.sum (prefixSum w r) (prefixSum w (r + 1) - prefixSum w r) L := by
  simp only [rowsOf, ownerPrefix, packed, accumulate_getLastD]
  rw [accumulate_getD (by omega), accumulate_getD (by omega)]

theorem ownerPrefix_tail (w : List ℤ) :
    (ownerPrefix w).tail = (List.range w.length).map fun i => prefixSum w (i + 1) := by
  rw [ownerPrefix, accumulate_eq, List.range_succ_eq_map]
  simp

/-- **The owner of a slot is the class of its residue.** -/
theorem ownerOf_eq_iff (hw : IsShareVector n w) {L : ℤ} {r : ℕ} (hr : r < n) :
    ownerOf L w = r ↔ InClass w r (L % w.sum) := by
  have hn : 0 < n := by omega
  have hS := hw.sum_pos hn
  have h0 : 0 ≤ L % w.sum := Int.emod_nonneg _ hS.ne'
  have hlt : L % w.sum < w.sum := Int.emod_lt_of_pos _ hS
  obtain ⟨s, hs, hin⟩ := exists_inClass w h0 hlt
  have hown : ownerOf L w = s := by
    simp only [ownerOf, ownerPrefix_tail]
    rw [ownerPrefix, accumulate_getLastD]
    exact searchsortedRight_prefixSum hw.one_le hs hin
  rw [hown]
  constructor
  · rintro rfl
    exact hin
  · intro h
    exact inClass_unique hw.one_le hs (by rw [hw.length_eq]; exact hr) hin h

/-- **Every slot has an owner in the group.** -/
theorem ownerOf_lt (hw : IsShareVector n w) (hn : 0 < n) (L : ℤ) : ownerOf L w < n := by
  have hS := hw.sum_pos hn
  obtain ⟨s, hs, hin⟩ := exists_inClass w (Int.emod_nonneg L hS.ne') (Int.emod_lt_of_pos L hS)
  rw [hw.length_eq] at hs
  rw [(ownerOf_eq_iff hw hs).mpr hin]
  exact hs

/-- **A rank packs the slots it owns without a collision.** -/
theorem rowsOf_injOn (hw : IsShareVector n w) {L L' : ℤ} {r : ℕ} (hr : r < n)
    (hL : ownerOf L w = r) (hL' : ownerOf L' w = r) (h : rowsOf L w r = rowsOf L' w r) :
    L = L' := by
  have hrw : r < w.length := by rw [hw.length_eq]; exact hr
  obtain ⟨h1, h2⟩ := (ownerOf_eq_iff hw hr).mp hL
  obtain ⟨h3, h4⟩ := (ownerOf_eq_iff hw hr).mp hL'
  rw [rowsOf_eq_packed hrw, rowsOf_eq_packed hrw] at h
  exact packed_injOn h1 (by omega) h3 (by omega) h

/-- The row of an owned slot is a row. -/
theorem rowsOf_nonneg (hw : IsShareVector n w) {L : ℤ} (hL0 : 0 ≤ L) {r : ℕ} (hr : r < n)
    (hL : ownerOf L w = r) : 0 ≤ rowsOf L w r := by
  have hrw : r < w.length := by rw [hw.length_eq]; exact hr
  rw [rowsOf_eq_packed hrw]
  have hmono := prefixSum_le_succ hw.one_le hrw
  exact packed_nonneg (hw.sum_pos (by omega)) hL0 ((ownerOf_eq_iff hw hr).mp hL).1 (by omega)

end Rule

/-! ### The plan of one rank -/

/-- One rank's share of a move between two vectors. The two dictionaries are kept
in insertion order. -/
structure ReshardTransition where
  rank : ℕ
  /-- The vector the pool is laid out by. -/
  oldVector : List ℤ
  /-- The vector it will be laid out by. -/
  newVector : List ℤ
  /-- The rows the rank keeps and moves, in the old layout. -/
  retainedOldRows : List ℤ
  /-- The same slots' rows in the new layout. -/
  retainedNewRows : List ℤ
  /-- The rows sent to each peer, in the old layout. -/
  outgoingRows : List (ℕ × List ℤ)
  /-- The rows each peer's payload fills, in the new layout. -/
  incomingRows : List (ℕ × List ℤ)
  /-- The number of live slots of the group. -/
  totalSlots : ℕ
  deriving DecidableEq, Repr

/-- `max_new_row`: the largest row the rank will write, `-1` when it writes none. -/
def ReshardTransition.maxNewRow (tr : ReshardTransition) : ℤ :=
  (tr.retainedNewRows ++ (tr.incomingRows.map (·.2)).flatten).foldl max (-1)

/-- `(slots[1:] > slots[:-1]).all()`. -/
def strictlyAscending (slots : List ℤ) : Bool :=
  (slots.zip slots.tail).all fun p => p.1 < p.2

/-- The live slots that go from rank `r` of the old layout to rank `p` of the new. -/
def pairSlots (slots oldVec newVec : List ℤ) (r p : ℕ) : List ℤ :=
  slots.filter fun L => ownerOf L oldVec = r ∧ ownerOf L newVec = p

/-- The rows of a pair's slots; a pair without slots gets no entry in the plan. -/
def rowsUnlessEmpty (slots vector : List ℤ) (rank : ℕ) : Option (List ℤ) :=
  if slots = [] then none else some (slots.map fun L => rowsOf L vector rank)

/-- `build_transition`. -/
def buildTransition (slots oldVec newVec : List ℤ) (rank : ℕ) :
    Except KvReshardError ReshardTransition :=
  if oldVec.length ≠ newVec.length then .error (.lengthMismatch oldVec newVec)
  else if ¬rank < oldVec.length then .error (.rankOutOfRange rank oldVec.length)
  else if slots ≠ [] ∧ ¬strictlyAscending slots then .error .slotsNotAscending
  else if slots.headD 0 < 0 then .error .negativeSlot
  else
    let nRanks := oldVec.length
    let retained := (pairSlots slots oldVec newVec rank rank).map fun L =>
      (rowsOf L oldVec rank, rowsOf L newVec rank)
    let moving := retained.filter fun p => p.1 ≠ p.2
    let peers := (List.range nRanks).filter (· ≠ rank)
    .ok
      { rank := rank
        oldVector := oldVec
        newVector := newVec
        retainedOldRows := moving.map (·.1)
        retainedNewRows := moving.map (·.2)
        outgoingRows := peers.filterMap fun peer =>
          (rowsUnlessEmpty (pairSlots slots oldVec newVec rank peer) oldVec rank).map (peer, ·)
        incomingRows := peers.filterMap fun peer =>
          (rowsUnlessEmpty (pairSlots slots oldVec newVec peer rank) newVec rank).map (peer, ·)
        totalSlots := slots.length }

/-! ### What a plan enumerates -/

theorem strictlyAscending_iff (slots : List ℤ) :
    strictlyAscending slots = true ↔ slots.Pairwise (· < ·) := by
  rw [← List.isChain_iff_pairwise]
  induction slots with
  | nil => simp [strictlyAscending]
  | cons a slots ih =>
    cases slots with
    | nil => simp [strictlyAscending]
    | cons b slots =>
      rw [List.isChain_cons_cons, ← ih]
      simp [strictlyAscending]

/-- The live slots rank `r` keeps, but in another row. -/
def movingSlots (slots oldVec newVec : List ℤ) (r : ℕ) : List ℤ :=
  (pairSlots slots oldVec newVec r r).filter fun L => rowsOf L oldVec r ≠ rowsOf L newVec r

theorem mem_pairSlots {slots oldVec newVec : List ℤ} {r p : ℕ} {L : ℤ} :
    L ∈ pairSlots slots oldVec newVec r p ↔
      L ∈ slots ∧ ownerOf L oldVec = r ∧ ownerOf L newVec = p := by
  simp [pairSlots]

theorem mem_movingSlots {slots oldVec newVec : List ℤ} {r : ℕ} {L : ℤ} :
    L ∈ movingSlots slots oldVec newVec r ↔
      L ∈ pairSlots slots oldVec newVec r r ∧ rowsOf L oldVec r ≠ rowsOf L newVec r := by
  simp [movingSlots]

/-- The peers with which a rank shares slots: the keys of a dictionary of its plan. -/
def peersWith (n r : ℕ) (S : ℕ → List ℤ) : List ℕ :=
  (List.range n).filter fun p => p ≠ r ∧ S p ≠ []

theorem mem_peersWith {n r p : ℕ} {S : ℕ → List ℤ} :
    p ∈ peersWith n r S ↔ p < n ∧ p ≠ r ∧ S p ≠ [] := by
  simp [peersWith]

theorem nodup_peersWith (n r : ℕ) (S : ℕ → List ℤ) : (peersWith n r S).Nodup :=
  List.nodup_range.filter _

/-- A dictionary of a plan has one entry per peer with slots. -/
theorem filterMap_rowsUnlessEmpty (n r : ℕ) (S : ℕ → List ℤ) (vec : List ℤ) (rank : ℕ) :
    (((List.range n).filter (· ≠ r)).filterMap fun peer =>
      (rowsUnlessEmpty (S peer) vec rank).map (peer, ·))
      = (peersWith n r S).map fun peer => (peer, (S peer).map fun L => rowsOf L vec rank) := by
  rw [peersWith]
  induction List.range n with
  | nil => rfl
  | cons p l ih =>
    rw [List.filter_cons, List.filter_cons]
    by_cases hp : p = r
    · simpa [hp] using ih
    · by_cases hS : S p = []
      · simpa [hp, hS, rowsUnlessEmpty] using ih
      · simpa [hp, hS, rowsUnlessEmpty] using ih

/-- The plan of rank `r`, written as images of lists of slots. -/
def transitionOf (slots oldVec newVec : List ℤ) (r : ℕ) : ReshardTransition :=
  { rank := r
    oldVector := oldVec
    newVector := newVec
    retainedOldRows := (movingSlots slots oldVec newVec r).map fun L => rowsOf L oldVec r
    retainedNewRows := (movingSlots slots oldVec newVec r).map fun L => rowsOf L newVec r
    outgoingRows := (peersWith oldVec.length r (pairSlots slots oldVec newVec r)).map fun peer =>
      (peer, (pairSlots slots oldVec newVec r peer).map fun L => rowsOf L oldVec r)
    incomingRows :=
      (peersWith oldVec.length r fun peer => pairSlots slots oldVec newVec peer r).map fun peer =>
        (peer, (pairSlots slots oldVec newVec peer r).map fun L => rowsOf L newVec r)
    totalSlots := slots.length }

/-- **Every list of a plan is the image of a list of slots**, on a live set the
builder accepts. -/
theorem buildTransition_eq_ok {slots oldVec newVec : List ℤ} {r : ℕ}
    (hlen : oldVec.length = newVec.length) (hr : r < oldVec.length)
    (hasc : slots.Pairwise (· < ·)) (hnn : ∀ L ∈ slots, 0 ≤ L) :
    buildTransition slots oldVec newVec r = .ok (transitionOf slots oldVec newVec r) := by
  have hhead : ¬slots.headD 0 < 0 := by
    cases slots with
    | nil => simp
    | cons a slots => simpa using hnn a (by simp)
  have hfilter : ((pairSlots slots oldVec newVec r r).map fun L =>
      (rowsOf L oldVec r, rowsOf L newVec r)).filter (fun p => p.1 ≠ p.2)
      = (movingSlots slots oldVec newVec r).map fun L =>
          (rowsOf L oldVec r, rowsOf L newVec r) := by
    rw [List.filter_map]
    rfl
  rw [buildTransition, if_neg (by simp [hlen]), if_neg (by simp [hr]),
    if_neg (by simp [(strictlyAscending_iff slots).mpr hasc]), if_neg hhead]
  simp only [hfilter, List.map_map, filterMap_rowsUnlessEmpty]
  rfl

/-- A peer with no slots has no entry, and reading it as an empty one is the same. -/
theorem getD_lookup_peersWith {n r p : ℕ} (S : ℕ → List ℤ) (f : ℕ → ℤ → ℤ) (hp : p < n)
    (hpr : p ≠ r) :
    (((peersWith n r S).map fun peer => (peer, (S peer).map (f peer))).lookup p).getD []
      = (S p).map (f p) := by
  by_cases hS : S p = []
  · rw [Dict.lookup_eq_none.mpr, hS]
    · rfl
    · simp [Dict.keys, List.mem_map, mem_peersWith, hS]
  · rw [Dict.lookup_of_mem (a := (S p).map (f p))]
    · rfl
    · simpa [Dict.keys, List.map_map, Function.comp_def] using nodup_peersWith n r S
    · exact List.mem_map.mpr ⟨p, mem_peersWith.mpr ⟨hp, hpr, hS⟩, rfl⟩

end Dcp

end HtSglang
