import HtSglang.Dcp.ReshardPlan
import HtSglang.Library.Loop

/-!
# Which stage owns a layer

The layers of a model are divided over the stages of a pipeline in one of three ways
(`distributed/utils.py`): by counts from the environment, evenly (`HtSglang.PpIndices.getPpIndices`
has both), or by explicit sets (`HtSglang.PpIndices.parsePpLayerSets`). The number of layers is
recovered from the sets by a second reading of the same string
(`HtSglang.PpIndices.numLayersFromLayerSetRaw`).

Intervals that follow one another from zero to the number of layers give every layer one owner
(`HtSglang.PpIndices.Tiles.existsUnique`). The even division always tiles, and the counts do
exactly when none is negative (`HtSglang.PpIndices.tiles_counts_iff`): only their number and their
sum are checked, so that an accepted value can have stages that run backwards
(`HtSglang.PpIndices.negative_count_accepted`). The sets that are accepted are a partition, and
the second reading agrees with the first one (`HtSglang.PpIndices.partition_of_accepted`).
-/

namespace HtSglang

namespace PpIndices

open Dcp (strip)

/-! ### The code -/

section Code

/- The reading of a numeral by the builtin `int`; `none` is its `ValueError`. Nothing below depends
on which numerals it accepts. -/
variable (int : List Char → Option ℤ)

/-- What is raised. -/
inductive Error
  /-- A count that is not an integer. -/
  | invalidPartition (partition : List Char)
  /-- Another number of counts than stages. -/
  | partitionLength (length ppSize : ℕ)
  /-- The counts have another sum than the number of layers. -/
  | partitionSum (sum numHiddenLayers : ℤ)
  /-- There is no such stage. -/
  | index
  /-- A piece with a dash that is not a range of integers. -/
  | notARange (piece : List Char)
  /-- A range whose end is before its start. -/
  | backwards (piece : List Char)
  /-- A piece that is not an integer. -/
  | notALayer (piece : List Char)
  /-- Another number of sets than stages. -/
  | stageCount (stages ppSize : ℕ)
  /-- Layers with several owners, each with its stages. -/
  | duplicated (layers : List (ℤ × List ℕ))
  /-- Layers that the model does not have. -/
  | outOfRange (layers : List ℤ) (numHiddenLayers : ℤ)
  /-- Layers without an owner. -/
  | missing (layers : List ℤ)
  /-- Stages that are no intervals: the stage, its first and its last layer, and the holes. -/
  | gapped (stages : List (ℕ × ℤ × ℤ × List ℤ))
  deriving DecidableEq

/-- `get_pp_indices`; `partition` is the value of `SGLANG_PP_LAYER_PARTITION`. -/
def getPpIndices (partition : Option (List Char)) (numHiddenLayers : ℤ) (ppRank ppSize : ℕ) :
    Except Error (ℤ × ℤ) :=
  match partition with
  | some partitionListStr =>
    match (partitionListStr.splitOn ',').mapM int with
    | none => .error (.invalidPartition partitionListStr)
    | some partitions =>
      if partitions.length ≠ ppSize then .error (.partitionLength partitions.length ppSize)
      else if partitions.sum ≠ numHiddenLayers then
        .error (.partitionSum partitions.sum numHiddenLayers)
      else match partitions[ppRank]? with
        | none => .error .index
        | some count =>
          let startLayer := (partitions.take ppRank).sum
          .ok (startLayer, startLayer + count)
  | none =>
    let baseLayers := numHiddenLayers / ppSize
    let remainder := numHiddenLayers % ppSize
    if (ppRank : ℤ) ≥ ppSize - remainder then
      let partitionsWithoutExtraLayer := ppSize - remainder
      let startLayer := ppRank * (baseLayers + 1) - partitionsWithoutExtraLayer
      .ok (startLayer, startLayer + (baseLayers + 1))
    else
      let startLayer := ppRank * baseLayers
      .ok (startLayer, startLayer + baseLayers)

/-- The two sides of the first dash of a piece. -/
def cutDash (piece : List Char) : List Char × List Char :=
  (piece.takeWhile (· ≠ '-'), (piece.dropWhile (· ≠ '-')).tail)

/-- The layers of a piece of a set. -/
def parsePiece (piece : List Char) : Except Error (List ℤ) :=
  if piece = [] then .ok []
  else if '-' ∈ piece then
    match int (cutDash piece).1, int (cutDash piece).2 with
    | some lo, some hi =>
      if hi < lo then .error (.backwards piece) else .ok (Int.range lo (hi + 1))
    | _, _ => .error (.notARange piece)
  else
    match int piece with
    | some layer => .ok [layer]
    | none => .error (.notALayer piece)

/-- The pieces of a set. -/
def pieces (spec : List Char) : List (List Char) := (spec.splitOn ',').map strip

/-- `_parse_layer_spec`. -/
def parseLayerSpec (spec : List Char) : Except Error (List ℤ) := do
  return (← (pieces spec).mapM (parsePiece int)).flatten

/-- The dictionaries `seen` and `duplicated`. -/
structure Owners where
  /-- The first stage that names a layer. -/
  seen : List (ℤ × ℕ)
  /-- The stages of a layer that is named again. -/
  duplicated : List (ℤ × List ℕ)

/-- One round of the loop over the layers of a stage. -/
def Owners.note (o : Owners) (e : ℕ × ℤ) : Owners :=
  match o.seen.lookup e.2 with
  | some first =>
    let stages := (o.duplicated.lookup e.2).getD [first] ++ [e.1]
    { o with duplicated := Dict.set o.duplicated e.2 stages }
  | none => { o with seen := o.seen ++ [(e.2, e.1)] }

/-- The layers of the stages, each with its stage, in the order of the loop. -/
def named (parsed : List (List ℤ)) : List (ℕ × ℤ) :=
  parsed.zipIdx.flatMap fun s => s.1.map fun layer => (s.2, layer)

/-- The dictionaries after the loop. -/
def owners (parsed : List (List ℤ)) : Owners := (named parsed).foldl Owners.note ⟨[], []⟩

/-- What `sorted` returns. -/
def sorted (layers : List ℤ) : List ℤ := layers.insertionSort (· ≤ ·)

/-- The first and the last layer of a stage and the holes between them, if there are any. -/
def holes (layers : List ℤ) : Option (ℤ × ℤ × List ℤ) :=
  match sorted layers with
  | [] => none
  | lo :: rest =>
    let hi := rest.getLastD lo
    let holes := (Int.range lo (hi + 1)).filter (· ∉ lo :: rest)
    if holes = [] then none else some (lo, hi, holes)

/-- The stages with holes. -/
def gappedStages (parsed : List (List ℤ)) : List (ℕ × ℤ × ℤ × List ℤ) :=
  parsed.zipIdx.filterMap fun s => (holes s.1).map fun gap => (s.2, gap)

/-- The duplicated layers in order, each with its stages in order. -/
def Owners.report (o : Owners) : List (ℤ × List ℕ) :=
  (o.duplicated.map fun d => (d.1, d.2.dedup.insertionSort (· ≤ ·))).insertionSort
    fun d d' => d.1 ≤ d'.1

/-- The checks of `parse_pp_layer_sets`, and what it returns. -/
def checkLayerSets (parsed : List (List ℤ)) (numHiddenLayers : ℤ) (allowGapped : Bool) :
    Except Error (List (Finset ℤ)) :=
  let o := owners parsed
  let layers := Dict.keys o.seen
  let outOfRange := sorted (layers.filter fun l => l < 0 ∨ l ≥ numHiddenLayers)
  let missing := (Int.range 0 numHiddenLayers).filter (· ∉ layers)
  if o.duplicated ≠ [] then .error (.duplicated o.report)
  else if outOfRange ≠ [] then .error (.outOfRange outOfRange numHiddenLayers)
  else if missing ≠ [] then .error (.missing missing)
  else if ¬allowGapped ∧ gappedStages parsed ≠ [] then .error (.gapped (gappedStages parsed))
  else .ok (parsed.map List.toFinset)

/-- `parse_pp_layer_sets`. -/
def parsePpLayerSets (raw : List Char) (numHiddenLayers : ℤ) (ppSize : ℕ) (allowGapped : Bool) :
    Except Error (List (Finset ℤ)) :=
  let stages := raw.splitOn ';'
  if stages.length ≠ ppSize then .error (.stageCount stages.length ppSize)
  else do
    let parsed ← stages.mapM (parseLayerSpec int)
    checkLayerSets parsed numHiddenLayers allowGapped

/-- The number behind the first dash of a piece, or the piece itself. -/
def pieceHigh (tok : List Char) : Option ℤ :=
  if '-' ∈ tok then int (cutDash tok).2 else int tok

/-- `_num_layers_from_layer_set_raw`. -/
def numLayersFromLayerSetRaw (raw : List Char) : Option ℤ :=
  match (((raw.splitOn ';').flatMap pieces).filter (· ≠ [])).mapM (pieceHigh int) with
  | none => none
  | some highs =>
    let highest := highs.foldl max (-1)
    if highest ≥ 0 then some (highest + 1) else none

end Code

/-! ### Intervals that tile -/

/-- **Intervals one after the other** from `0` to `N`. -/
structure Tiles (N : ℤ) (size : ℕ) (start stop : ℕ → ℤ) : Prop where
  first : start 0 = 0
  /-- Each one starts where the one before ends. -/
  next : ∀ r, r + 1 < size → stop r = start (r + 1)
  last : stop (size - 1) = N
  le : ∀ r < size, start r ≤ stop r

namespace Tiles

variable {N : ℤ} {size : ℕ} {start stop : ℕ → ℤ}

theorem stop_le_start (h : Tiles N size start stop) {r r' : ℕ} (hlt : r < r') (hr' : r' < size) :
    stop r ≤ start r' := by
  induction r', hlt using Nat.le_induction with
  | base => exact (h.next r hr').le
  | succ r' hle ih =>
    calc stop r ≤ start r' := ih (by omega)
      _ ≤ stop r' := h.le r' (by omega)
      _ = start (r' + 1) := h.next r' hr'

/-- **Every point has one interval.** -/
theorem existsUnique (h : Tiles N size start stop) (hsize : 1 ≤ size) {layer : ℤ}
    (h0 : 0 ≤ layer) (hN : layer < N) :
    ∃! r, r < size ∧ start r ≤ layer ∧ layer < stop r := by
  -- the first interval that ends behind the point
  have hex : ∃ r, r < size ∧ layer < stop r := ⟨size - 1, by omega, by rw [h.last]; exact hN⟩
  classical
  refine ⟨Nat.find hex, ⟨(Nat.find_spec hex).1, ?_, (Nat.find_spec hex).2⟩, ?_⟩
  · rcases hr : Nat.find hex with _ | r
    · rw [h.first]
      exact h0
    · have hspec := (Nat.find_spec hex).1
      have hmin := Nat.find_min hex (show r < Nat.find hex by omega)
      rw [hr] at hspec
      rw [← h.next r hspec]
      by_contra hlt
      exact hmin ⟨by omega, by omega⟩
  · rintro r ⟨hr, hstart, hstop⟩
    have hle : Nat.find hex ≤ r := Nat.find_min' hex ⟨hr, hstop⟩
    rcases hle.eq_or_lt with heq | hlt
    · exact heq.symm
    · have := h.stop_le_start hlt hr
      have := (Nat.find_spec hex).2
      omega

end Tiles

/-! ### Counts and the even division -/

section Indices

variable {int : List Char → Option ℤ}

/-- Where a stage of the even division starts. -/
def evenStart (N : ℤ) (ppSize r : ℕ) : ℤ :=
  r * (N / ppSize) + max 0 (r - (ppSize - N % ppSize))

theorem getPpIndices_none (N : ℤ) (r ppSize : ℕ) : getPpIndices int none N r ppSize =
    .ok (evenStart N ppSize r, evenStart N ppSize (r + 1)) := by
  simp only [getPpIndices, evenStart, Nat.cast_add, Nat.cast_one, add_mul, mul_add, one_mul,
    mul_one]
  split
  · rw [max_eq_right (by omega), max_eq_right (by omega)]
    congr 2 <;> omega
  · rw [max_eq_left (by omega), max_eq_left (by omega)]
    congr 2 <;> omega

/-- **The even division tiles.** -/
theorem tiles_even {N : ℤ} (hN : 0 ≤ N) {ppSize : ℕ} (hsize : 1 ≤ ppSize) {start stop : ℕ → ℤ}
    (h : ∀ r < ppSize, getPpIndices int none N r ppSize = .ok (start r, stop r)) :
    Tiles N ppSize start stop := by
  have hpos : (0 : ℤ) < ppSize := by omega
  have hmod0 := Int.emod_nonneg N hpos.ne'
  have hmodlt := Int.emod_lt_of_pos N hpos
  have hN' := Int.emod_add_mul_ediv N ppSize
  have heq {r : ℕ} (hr : r < ppSize) :
      evenStart N ppSize r = start r ∧ evenStart N ppSize (r + 1) = stop r := by
    have := h r hr
    rw [getPpIndices_none, Except.ok.injEq, Prod.mk.injEq] at this
    exact this
  have hzero : evenStart N ppSize 0 = 0 := by
    rw [evenStart, Nat.cast_zero, zero_mul, max_eq_left (by omega), zero_add]
  have hall : evenStart N ppSize ppSize = N := by
    rw [evenStart, max_eq_right (by omega)]
    omega
  have hstep (r : ℕ) : evenStart N ppSize r ≤ evenStart N ppSize (r + 1) := by
    have hbase : 0 ≤ N / ppSize := Int.ediv_nonneg hN hpos.le
    rw [evenStart, evenStart, Nat.cast_add, Nat.cast_one, add_mul, one_mul]
    exact add_le_add (by omega) (max_le_max le_rfl (by omega))
  refine ⟨by rw [← (heq (by omega)).1, hzero], fun r hr => ?_, ?_, fun r hr => ?_⟩
  · rw [← (heq (by omega)).2, ← (heq hr).1]
  · rw [← (heq (by omega)).2, Nat.sub_add_cancel hsize, hall]
  · rw [← (heq hr).1, ← (heq hr).2]
    exact hstep r

/-- What is known of counts that are accepted: they are as many as the stages and have the number
of layers as their sum, and a stage starts at the sum of the counts before it. -/
theorem getPpIndices_counts {N start stop : ℤ} {r ppSize : ℕ} {partition : List Char}
    (h : getPpIndices int (some partition) N r ppSize = .ok (start, stop)) :
    ∃ counts, (partition.splitOn ',').mapM int = some counts ∧ counts.length = ppSize ∧
      counts.sum = N ∧ ∃ hr : r < counts.length, start = (counts.take r).sum ∧
        stop = start + counts[r] := by
  simp only [getPpIndices] at h
  split at h
  · cases h
  next counts hcounts =>
  split at h
  · cases h
  next hlen =>
  split at h
  · cases h
  next hsum =>
  split at h
  · cases h
  next count hcount =>
  rw [Except.ok.injEq, Prod.mk.injEq] at h
  obtain ⟨hr, rfl⟩ := List.getElem?_eq_some_iff.mp hcount
  refine ⟨counts, hcounts, not_not.mp hlen, not_not.mp hsum, hr, h.1.symm, ?_⟩
  rw [← h.2, h.1]

/-- **Counts tile exactly when none is negative.** -/
theorem tiles_counts_iff {N : ℤ} {ppSize : ℕ} (hsize : 1 ≤ ppSize) {partition : List Char}
    {start stop : ℕ → ℤ}
    (h : ∀ r < ppSize, getPpIndices int (some partition) N r ppSize = .ok (start r, stop r)) :
    Tiles N ppSize start stop ↔
      ∀ counts, (partition.splitOn ',').mapM int = some counts → ∀ c ∈ counts, 0 ≤ c := by
  obtain ⟨counts, hcounts, hlen, hsum, -⟩ := getPpIndices_counts (h 0 hsize)
  have heq {r : ℕ} (hr : r < ppSize) : start r = (counts.take r).sum ∧
      stop r = (counts.take (r + 1)).sum := by
    obtain ⟨counts', hcounts', -, -, hr', hstart, hstop⟩ := getPpIndices_counts (h r hr)
    obtain rfl : counts' = counts := Option.some.inj (hcounts'.symm.trans hcounts)
    exact ⟨hstart, by rw [hstop, hstart, List.sum_take_succ _ _ hr']⟩
  have hdiff {r : ℕ} (hr : r < counts.length) : stop r = start r + counts[r] := by
    rw [(heq (hlen ▸ hr)).1, (heq (hlen ▸ hr)).2, List.sum_take_succ _ _ hr]
  constructor
  · intro htiles counts' hcounts' c hc
    obtain rfl : counts' = counts := Option.some.inj (hcounts'.symm.trans hcounts)
    obtain ⟨r, hr, rfl⟩ := List.mem_iff_getElem.mp hc
    have := htiles.le r (hlen ▸ hr)
    have := hdiff hr
    omega
  · intro hnonneg
    refine ⟨by rw [(heq hsize).1]; simp, fun r hr => ?_, ?_, fun r hr => ?_⟩
    · rw [(heq (by omega)).2, (heq hr).1]
    · rw [(heq (by omega)).2, Nat.sub_add_cancel hsize, ← hlen, List.take_length, hsum]
    · have := hnonneg counts hcounts _ (List.getElem_mem (hlen ▸ hr : r < counts.length))
      have := hdiff (hlen ▸ hr : r < counts.length)
      omega

end Indices

/-! ### Sets -/

section Sets

variable {int : List Char → Option ℤ}

/-- The last number of a piece is its highest layer. -/
theorem parsePiece_high {piece : List Char} {layers : List ℤ}
    (h : parsePiece int piece = .ok layers) (hne : piece ≠ []) :
    ∃ hi, pieceHigh int piece = some hi ∧ hi ∈ layers ∧ ∀ l ∈ layers, l ≤ hi := by
  rw [parsePiece, if_neg hne] at h
  rw [pieceHigh]
  split at h
  · next hdash =>
    rw [if_pos hdash]
    split at h
    · next lo hi hlo hhi =>
      split at h
      · cases h
      · cases h
        exact ⟨hi, hhi, Int.mem_range_iff.mpr ⟨by omega, by omega⟩, fun l hl => by
          have := (Int.mem_range_iff.mp hl).2
          omega⟩
    · cases h
  · next hdash =>
    rw [if_neg hdash]
    split at h
    · next layer hlayer =>
      cases h
      exact ⟨layer, hlayer, List.mem_singleton_self _, fun l hl => (List.mem_singleton.mp hl).le⟩
    · cases h

/-- The layers of a set are those of its pieces. -/
theorem mem_parseLayerSpec {spec : List Char} {layers : List ℤ}
    (h : parseLayerSpec int spec = .ok layers) {l : ℤ} :
    l ∈ layers ↔ ∃ piece ∈ pieces spec, ∃ ls, parsePiece int piece = .ok ls ∧ l ∈ ls := by
  obtain ⟨parsed, hparsed, hok⟩ := bind_eq_ok.mp h
  cases hok
  exact mem_flatten_of_mapM hparsed

theorem parsePiece_of_parseLayerSpec {spec : List Char} {layers : List ℤ}
    (h : parseLayerSpec int spec = .ok layers) {piece : List Char} (hpiece : piece ∈ pieces spec) :
    ∃ ls, parsePiece int piece = .ok ls := by
  obtain ⟨parsed, hparsed, -⟩ := bind_eq_ok.mp h
  exact mapM_isOk_iff.mp ⟨parsed, hparsed⟩ piece hpiece

/-- **The dictionaries** know every named layer, and a layer that is named twice. -/
theorem foldl_note (l : List (ℕ × ℤ)) :
    (∀ layer, layer ∈ Dict.keys (l.foldl Owners.note ⟨[], []⟩).seen ↔ layer ∈ l.map Prod.snd) ∧
      ((l.foldl Owners.note ⟨[], []⟩).duplicated = [] → (l.map Prod.snd).Nodup) := by
  induction l using List.reverseRecOn with
  | nil => simp
  | append_singleton l e ih =>
    obtain ⟨hmem, hnodup⟩ := ih
    rw [List.foldl_append, List.foldl_cons, List.foldl_nil, List.map_append]
    set o := l.foldl Owners.note ⟨[], []⟩ with ho
    rw [Owners.note]
    split
    · next first hfirst =>
      have hin : e.2 ∈ l.map Prod.snd := by
        rw [← hmem]
        by_contra hnot
        rw [Dict.lookup_eq_none.mpr hnot] at hfirst
        cases hfirst
      refine ⟨fun layer => ?_, fun hdup => absurd hdup (Dict.set_ne_nil _ _ _)⟩
      rw [hmem, List.mem_append]
      refine ⟨Or.inl, ?_⟩
      rintro (hl | hl)
      · exact hl
      · rw [List.mem_singleton.mp hl]
        exact hin
    · next hnone =>
      have hnot : e.2 ∉ l.map Prod.snd := by
        rw [← hmem]
        exact Dict.lookup_eq_none.mp hnone
      refine ⟨fun layer => by simp [hmem], fun hdup => ?_⟩
      rw [List.nodup_append]
      refine ⟨hnodup hdup, List.nodup_singleton _, ?_⟩
      rintro a ha b hb rfl
      exact hnot (List.mem_singleton.mp hb ▸ ha)

theorem map_snd_named (parsed : List (List ℤ)) : (named parsed).map Prod.snd = parsed.flatten := by
  rw [named, List.map_flatMap]
  simp only [List.map_map, Function.comp_def, List.map_id']
  rw [List.flatMap_def, List.zipIdx_map_fst]

/-- The last entry of a sorted list is its greatest one. -/
theorem le_getLastD {lo : ℤ} {rest : List ℤ} (h : (lo :: rest).Pairwise (· ≤ ·)) :
    ∀ l ∈ lo :: rest, l ≤ rest.getLastD lo := by
  induction rest generalizing lo with
  | nil => simp
  | cons a rest ih =>
    obtain ⟨hlo, hrest⟩ := List.pairwise_cons.mp h
    intro l hl
    rw [List.getLastD_cons]
    rcases List.mem_cons.mp hl with rfl | hl
    · exact (hlo a (List.mem_cons_self ..)).trans (ih hrest a (List.mem_cons_self ..))
    · exact ih hrest l hl

/-- A stage without holes is an interval. -/
theorem interval_of_holes {layers : List ℤ} (h : holes layers = none) :
    ∃ lo hi, ∀ l, l ∈ layers ↔ lo ≤ l ∧ l < hi := by
  have hmem (l : ℤ) : l ∈ sorted layers ↔ l ∈ layers :=
    (List.perm_insertionSort _ layers).mem_iff
  have hle : (sorted layers).Pairwise (· ≤ ·) := List.pairwise_insertionSort _ _
  rw [holes] at h
  split at h
  · next hnil =>
    refine ⟨0, 0, fun l => ?_⟩
    rw [← hmem, hnil]
    exact iff_of_false List.not_mem_nil (by omega)
  · next lo rest hcons =>
    simp only at h
    split at h
    · next hfull =>
      refine ⟨lo, rest.getLastD lo + 1, fun l => ?_⟩
      rw [← hmem, hcons]
      rw [hcons] at hle
      constructor
      · intro hl
        refine ⟨?_, Int.lt_add_one_iff.mpr (le_getLastD hle l hl)⟩
        rcases List.mem_cons.mp hl with rfl | hl
        · exact le_rfl
        · exact (List.pairwise_cons.mp hle).1 l hl
      · intro hl
        by_contra hnot
        have : l ∈ (Int.range lo (rest.getLastD lo + 1)).filter (· ∉ lo :: rest) :=
          List.mem_filter.mpr ⟨Int.mem_range_iff.mpr hl, decide_eq_true hnot⟩
        rw [hfull] at this
        cases this
    · cases h

/-- **A partition of the layers into sets.** -/
structure Partition (N : ℤ) (sets : List (Finset ℤ)) : Prop where
  range : ∀ s ∈ sets, ∀ l ∈ s, 0 ≤ l ∧ l < N
  /-- Every layer is owned by exactly one stage. -/
  owner : ∀ l, 0 ≤ l → l < N → ∃! r, ∃ h : r < sets.length, l ∈ sets[r]

/-- **What the checks establish.** -/
theorem checkLayerSets_ok {parsed : List (List ℤ)} {N : ℤ} {allowGapped : Bool}
    {sets : List (Finset ℤ)} (h : checkLayerSets parsed N allowGapped = .ok sets) :
    sets = parsed.map List.toFinset ∧ parsed.flatten.Nodup ∧
      (∀ l, l ∈ parsed.flatten ↔ 0 ≤ l ∧ l < N) ∧
      (allowGapped = false → ∀ layers ∈ parsed, holes layers = none) := by
  obtain ⟨hseen, hnodup⟩ := foldl_note (named parsed)
  rw [map_snd_named, ← owners] at hseen hnodup
  simp only [checkLayerSets] at h
  rw [ite_eq_iff, ite_eq_iff, ite_eq_iff, ite_eq_iff] at h
  simp only [reduceCtorEq, and_false, false_or, not_not, Except.ok.injEq] at h
  obtain ⟨hdup, hrange, hmissing, hgapped, rfl⟩ := h
  refine ⟨rfl, hnodup hdup, fun l => ⟨fun hl => ?_, fun hl => ?_⟩, fun hfalse layers hlayers => ?_⟩
  · by_contra hout
    have hmem : l ∈ sorted ((Dict.keys (owners parsed).seen).filter
        fun l => l < 0 ∨ l ≥ N) :=
      (List.perm_insertionSort _ _).mem_iff.mpr
        (List.mem_filter.mpr ⟨(hseen l).mpr hl, decide_eq_true (by omega)⟩)
    rw [hrange] at hmem
    cases hmem
  · by_contra hnot
    have hmem : l ∈ (Int.range 0 N).filter (· ∉ Dict.keys (owners parsed).seen) :=
      List.mem_filter.mpr ⟨Int.mem_range_iff.mpr hl,
        decide_eq_true fun hc => hnot ((hseen l).mp hc)⟩
    rw [hmissing] at hmem
    cases hmem
  · have hnil : gappedStages parsed = [] := by simpa [hfalse] using hgapped
    obtain ⟨r, hr, rfl⟩ := List.mem_iff_getElem.mp hlayers
    rw [gappedStages, List.filterMap_eq_nil_iff] at hnil
    have := hnil (parsed[r], r) (List.mem_zipIdx_iff_getElem?.mpr (by simp))
    simpa using this

/-- Sets without a common layer that have the layers of the model are a partition. -/
theorem partition_of_flatten {parsed : List (List ℤ)} {N : ℤ} (hnodup : parsed.flatten.Nodup)
    (hmem : ∀ l, l ∈ parsed.flatten ↔ 0 ≤ l ∧ l < N) : Partition N (parsed.map List.toFinset) := by
  refine ⟨fun s hs l hl => ?_, fun l h0 hN => ?_⟩
  · obtain ⟨layers, hlayers, rfl⟩ := List.mem_map.mp hs
    exact (hmem l).mp (List.mem_flatten.mpr ⟨layers, hlayers, List.mem_toFinset.mp hl⟩)
  · obtain ⟨layers, hlayers, hl⟩ := List.mem_flatten.mp ((hmem l).mpr ⟨h0, hN⟩)
    obtain ⟨r, hr, rfl⟩ := List.mem_iff_getElem.mp hlayers
    refine ⟨r, ⟨by simpa using hr, by simpa using hl⟩, ?_⟩
    rintro r' ⟨hr', hl'⟩
    rw [List.length_map] at hr'
    rw [List.getElem_map, List.mem_toFinset] at hl'
    have hdisjoint := List.pairwise_iff_getElem.mp (List.nodup_flatten.mp hnodup).2
    rcases Nat.lt_trichotomy r r' with hlt | heq | hgt
    · exact absurd hl' (hdisjoint r r' hr hr' hlt hl)
    · exact heq.symm
    · exact absurd hl (hdisjoint r' r hr' hr hgt hl')

/-- The greatest number of a list, as the loop finds it. -/
theorem foldl_max_eq {highs : List ℤ} {a m : ℤ} (ha : a ≤ m) (hmem : m ∈ highs)
    (hle : ∀ x ∈ highs, x ≤ m) : highs.foldl max a = m := by
  have hrun : ∀ (l : List ℤ) (a : ℤ), a ≤ l.foldl max a ∧ ∀ x ∈ l, x ≤ l.foldl max a := by
    intro l
    induction l with
    | nil => simp
    | cons x l ih =>
      intro a
      obtain ⟨hstart, hall⟩ := ih (max a x)
      refine ⟨(le_max_left a x).trans hstart, fun y hy => ?_⟩
      rcases List.mem_cons.mp hy with rfl | hy
      · exact (le_max_right a y).trans hstart
      · exact hall y hy
  have hbound : ∀ (l : List ℤ) (a : ℤ), a ≤ m → (∀ x ∈ l, x ≤ m) → l.foldl max a ≤ m := by
    intro l
    induction l with
    | nil => exact fun a ha _ => ha
    | cons x l ih =>
      intro a ha hl
      exact ih (max a x) (max_le ha (hl x (List.mem_cons_self ..)))
        fun y hy => hl y (List.mem_cons_of_mem _ hy)
  exact le_antisymm (hbound highs a ha hle) ((hrun highs a).2 m hmem)

/-- **The number of layers is recovered** from the sets that were read. -/
theorem numLayersFromLayerSetRaw_eq {raw : List Char} {parsed : List (List ℤ)} {N : ℤ}
    (hparsed : (raw.splitOn ';').mapM (parseLayerSpec int) = .ok parsed)
    (hmem : ∀ l, l ∈ parsed.flatten ↔ 0 ≤ l ∧ l < N) (hN : 1 ≤ N) :
    numLayersFromLayerSetRaw int raw = some N := by
  set toks := ((raw.splitOn ';').flatMap pieces).filter (· ≠ []) with htoks
  -- each piece has a highest layer, which is a layer of the model
  have htok {tok : List Char} (h : tok ∈ toks) : ∃ layers hi, parsePiece int tok = .ok layers ∧
      pieceHigh int tok = some hi ∧ hi ∈ parsed.flatten ∧ ∀ l ∈ layers, l ≤ hi := by
    obtain ⟨hin, hne⟩ := List.mem_filter.mp h
    obtain ⟨stage, hstage, hpiece⟩ := List.mem_flatMap.mp hin
    obtain ⟨layers, hlayers⟩ := mapM_isOk_iff.mp ⟨parsed, hparsed⟩ stage hstage
    obtain ⟨ls, hls⟩ := parsePiece_of_parseLayerSpec hlayers hpiece
    obtain ⟨hi, hhi, hmemHi, hle⟩ := parsePiece_high hls (of_decide_eq_true hne)
    refine ⟨ls, hi, hls, hhi, ?_, hle⟩
    rw [mem_flatten_of_mapM hparsed]
    exact ⟨stage, hstage, layers, hlayers, (mem_parseLayerSpec hlayers).mpr
      ⟨tok, hpiece, ls, hls, hmemHi⟩⟩
  obtain ⟨highs, hhighs, hmemHighs⟩ := exists_mapM_some fun tok h => by
    obtain ⟨-, hi, -, hhi, -⟩ := htok h
    exact ⟨hi, hhi⟩
  have hmax : highs.foldl max (-1) = N - 1 := by
    refine foldl_max_eq (by omega) ?_ fun x hx => ?_
    · -- the last layer is in a piece, whose highest layer it is
      obtain ⟨stage, hstage, layers, hlayers, hl⟩ :=
        (mem_flatten_of_mapM hparsed).mp ((hmem (N - 1)).mpr ⟨by omega, by omega⟩)
      obtain ⟨piece, hpiece, ls, hls, hl⟩ := (mem_parseLayerSpec hlayers).mp hl
      have hne : piece ≠ [] := by
        rintro rfl
        cases hls
        cases hl
      have hin : piece ∈ toks := List.mem_filter.mpr
        ⟨List.mem_flatMap.mpr ⟨stage, hstage, hpiece⟩, decide_eq_true hne⟩
      obtain ⟨ls', hi, hls', hhi, hflat, hle⟩ := htok hin
      obtain rfl : ls' = ls := Except.ok.inj (hls'.symm.trans hls)
      have := hle _ hl
      have := ((hmem hi).mp hflat).2
      rw [hmemHighs]
      exact ⟨piece, hin, hhi.trans (congrArg some (by omega))⟩
    · obtain ⟨tok, hin, hx⟩ := (hmemHighs x).mp hx
      obtain ⟨ls, hi, -, hhi, hflat, -⟩ := htok hin
      obtain rfl : hi = x := Option.some.inj (hhi.symm.trans hx)
      have := ((hmem hi).mp hflat).2
      omega
  rw [numLayersFromLayerSetRaw, ← htoks, hhighs]
  simp only [hmax]
  rw [if_pos (by omega), sub_add_cancel]

/-- **Accepted sets are a partition**, of intervals unless gaps are allowed, and the number of
layers is recovered from them. -/
theorem partition_of_accepted {raw : List Char} {N : ℤ} (hN : 1 ≤ N) {ppSize : ℕ}
    {allowGapped : Bool} {sets : List (Finset ℤ)}
    (h : parsePpLayerSets int raw N ppSize allowGapped = .ok sets) :
    sets.length = ppSize ∧ Partition N sets ∧
      (allowGapped = false → ∀ s ∈ sets, ∃ lo hi, ∀ l, l ∈ s ↔ lo ≤ l ∧ l < hi) ∧
      numLayersFromLayerSetRaw int raw = some N := by
  simp only [parsePpLayerSets] at h
  split at h
  · cases h
  next hlen =>
  obtain ⟨parsed, hparsed, hchecked⟩ := bind_eq_ok.mp h
  obtain ⟨rfl, hnodup, hmem, hholes⟩ := checkLayerSets_ok hchecked
  refine ⟨?_, partition_of_flatten hnodup hmem, fun hfalse s hs => ?_,
    numLayersFromLayerSetRaw_eq hparsed hmem hN⟩
  · rw [List.length_map, ← (mapM_eq_ok.mp hparsed).length_eq]
    exact not_not.mp hlen
  · obtain ⟨layers, hlayers, rfl⟩ := List.mem_map.mp hs
    simpa only [List.mem_toFinset] using interval_of_holes (hholes hfalse layers hlayers)

end Sets

/-! ### Who owns a layer -/

/-- **Stages own the layers of a model**, each one by exactly one stage: the intervals of the even
division and of counts tile the model exactly when no count is negative, and accepted sets are a
partition. -/
theorem stages_own_layers_iff (int : List Char → Option ℤ) {N : ℤ} (hN : 0 ≤ N) {ppSize : ℕ}
    (hsize : 1 ≤ ppSize) :
    (∀ partition start stop,
      (∀ r < ppSize, getPpIndices int partition N r ppSize = .ok (start r, stop r)) →
        ((Tiles N ppSize start stop ∧ ∀ layer, 0 ≤ layer → layer < N →
            ∃! r, r < ppSize ∧ start r ≤ layer ∧ layer < stop r) ↔
          ∀ raw counts, partition = some raw → (raw.splitOn ',').mapM int = some counts →
            ∀ c ∈ counts, 0 ≤ c)) ∧
    (1 ≤ N → ∀ raw allowGapped sets,
      parsePpLayerSets int raw N ppSize allowGapped = .ok sets →
        sets.length = ppSize ∧ Partition N sets ∧
          (allowGapped = false → ∀ s ∈ sets, ∃ lo hi, ∀ l, l ∈ s ↔ lo ≤ l ∧ l < hi) ∧
          numLayersFromLayerSetRaw int raw = some N) := by
  refine ⟨fun partition start stop h => ?_, fun hN raw allowGapped sets h =>
    partition_of_accepted hN h⟩
  have howner : (Tiles N ppSize start stop ∧ ∀ layer, 0 ≤ layer → layer < N →
      ∃! r, r < ppSize ∧ start r ≤ layer ∧ layer < stop r) ↔ Tiles N ppSize start stop :=
    ⟨And.left, fun htiles => ⟨htiles, fun _ => htiles.existsUnique hsize⟩⟩
  rw [howner]
  cases partition with
  | none => exact iff_of_true (tiles_even hN hsize h) (by simp)
  | some raw =>
    rw [tiles_counts_iff hsize h]
    constructor
    · rintro hcounts raw' counts hraw
      cases hraw
      exact hcounts counts
    · exact fun hcounts counts => hcounts raw counts rfl

/-- The digits of a number that is not negative. -/
def digits : List Char → Option ℤ
  | [] => none
  | ds => ds.foldlM (fun n d => if d.isDigit then some (10 * n + (d.toNat - 48 : ℕ)) else none) 0

/-- Plain decimal numerals with an optional minus. -/
def decimal : List Char → Option ℤ
  | '-' :: ds => (digits ds).map Neg.neg
  | ds => digits ds

/-- **A negative count is accepted**: layer `4` has two owners, and the second stage runs
backwards. -/
theorem negative_count_accepted :
    getPpIndices decimal (some "5,-1,6".toList) 10 0 3 = .ok (0, 5) ∧
      getPpIndices decimal (some "5,-1,6".toList) 10 1 3 = .ok (5, 4) ∧
      getPpIndices decimal (some "5,-1,6".toList) 10 2 3 = .ok (4, 10) := by
  decide +kernel

/-- Seven layers on three stages: evenly, by counts, and by sets with a gap. -/
theorem stages_own_layers_iff_seven :
    Tiles 7 3 (fun r => [0, 2, 4].getD r 0) (fun r => [2, 4, 7].getD r 0) ∧
      (∀ start stop, (∀ r < 3, getPpIndices decimal (some "3,1,3".toList) 7 r 3 =
        .ok (start r, stop r)) → Tiles 7 3 start stop) ∧
      Partition 7 [{0, 1, 4}, {2, 3}, {5, 6}] := by
  obtain ⟨hcounts, hsets⟩ := stages_own_layers_iff decimal (show (0 : ℤ) ≤ 7 by decide)
    (show 1 ≤ 3 by decide)
  refine ⟨((hcounts none _ _ ?_).mpr (by simp)).1, fun start stop h =>
    ((hcounts _ start stop h).mpr ?_).1, ?_⟩
  · decide +kernel
  · rintro raw counts hraw hcounts c hc
    cases hraw
    have hread : ("3,1,3".toList.splitOn ',').mapM decimal = some [3, 1, 3] := by decide +kernel
    obtain rfl := Option.some.inj (hcounts.symm.trans hread)
    fin_cases hc <;> decide
  · exact (hsets (by decide) "0-1,4;2-3;5-6".toList true _ (by decide +kernel)).2.1

end PpIndices

end HtSglang
