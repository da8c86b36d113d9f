import HtSglang.Library.Loop

/-!
# Lanes over one set of resident bytes

`nesting_hull` of `planner/key_solver.py` is asked whether several lanes, each a split of the same
dimensions over its own cards, can live over one set of resident bytes. It compares, for every two
lanes that share a card, the cut points of their splits on every dimension: one set of cuts has to
contain the other, in the same direction on all dimensions. From the directions it makes a forest.

## What the comparison says

Cut sets that contain each other make every shard of the coarser lane a union of shards of the finer
one, and that is all they make: there is *some* grouping under which the lanes nest. Which card
holds which shard is in the lists of cards, and these are only read to find out whether two lanes
meet. Two lanes with equal cuts that list two cards in opposite orders are accepted and share
nothing (`HtSglang.NestingHull.swapped_cards_accepted`). What an accepted hull does say is
`HtSglang.NestingHull.nestingHull_groups`: the segments of `_segments_from_cuts` are the grouping,
and the forest is sound.
-/

namespace HtSglang.NestingHull

/-! ### The code -/

/-- What a split can raise. `nesting_hull` only catches the first. -/
inductive SplitError where
  | valueError
  /-- Anything else. -/
  | other
  deriving DecidableEq

/-- A `partition_units`. It asserts its sizes before it returns them. -/
structure Splitter where
  /-- The sizes for so many units, a ratio and an alignment. -/
  partitionUnits : ℤ → List ℤ → Option ℤ → Except SplitError (List ℤ)
  /-- No size is negative. -/
  nonneg : ∀ {units ratio groups sizes},
    partitionUnits units ratio groups = .ok sizes → ∀ s ∈ sizes, 0 ≤ s

/-- `LaneKey`. -/
structure LaneKey (κ φ : Type) where
  key : κ
  /-- The ratio of the ranks. -/
  ratio : List ℤ
  /-- The card of each rank. -/
  gpus : List ℤ
  /-- The ratios of single families. -/
  familyRatios : List (φ × List ℤ)
  /-- The lane it is said to nest in. -/
  nestsIn : Option κ
  /-- The segmentation it is pinned to. -/
  sharedSegments : Option (List (List ℤ))

/-- `HullProbe`: one dimension. -/
structure HullProbe (φ : Type) where
  units : ℤ
  /-- Its alignment. -/
  groups : Option ℤ
  family : Option φ

/-- Which of two lanes is the coarser. -/
inductive Direction where
  /-- The first. -/
  | aCoarser
  /-- The second. -/
  | bCoarser
  deriving DecidableEq

/-- The failures, with what their messages name. -/
inductive Failure (κ φ : Type) where
  /-- Two lanes have one key. -/
  | duplicateKeys
  /-- A dimension cannot be split. -/
  | cannotSplit (a b : κ) (probe : HullProbe φ)
  /-- Neither set of cuts contains the other. -/
  | incomparable (a b : κ) (shared : List ℤ) (probe : HullProbe φ) (ca cb : List ℤ)
  /-- The direction is not the same on all dimensions. -/
  | directionFlips (a b : κ) (probe : HullProbe φ) (this : Direction)
  /-- A lane is said to nest in one that is not there. -/
  | unknownLane (lane other : κ)
  /-- The segmentation is not the pinned one. -/
  | otherSegmentation (fine coarse : κ) (probe : HullProbe φ) (got : Option (List (List ℕ)))
    (want : List (List ℤ))
  /-- No lane is the coarsest. -/
  | cycle (remaining : List κ)

/-- `HullTree`. -/
structure HullTree (κ φ : Type) where
  ok : Bool
  /-- Coarsest first. -/
  order : List κ
  /-- The next coarser lane of each lane. -/
  parent : List (κ × Option κ)
  /-- The segmentation of a lane in its parent. -/
  segments : List ((κ × κ) × List (List ℕ))
  /-- Why not. -/
  failures : List (Failure κ φ)
  /-- The pairs that were compared. -/
  checked : List (κ × κ)
  /-- The pairs that were not. -/
  disjoint : List (κ × κ)

variable {κ φ : Type} [DecidableEq φ] (S : Splitter)

/-- `LaneKey.ratio_for`. -/
def LaneKey.ratioFor (lane : LaneKey κ φ) : Option φ → List ℤ
  | none => lane.ratio
  | some family =>
    match lane.familyRatios.find? (·.1 = family) with
    | some (_, vec) => vec
    | none => lane.ratio

/-- `partition_cuts`: a vector that sums to the units is the split itself. -/
def partitionCuts (units : ℤ) (ratio : List ℤ) (groups : Option ℤ) :
    Except SplitError (List ℤ) :=
  if ratio.sum ≠ units ∨ ∃ w ∈ ratio, w < 0 then
    (S.partitionUnits units ratio groups).map (List.scanl (· + ·) 0)
  else .ok (ratio.scanl (· + ·) 0)

/-- The cuts of a lane on a dimension. -/
def cutsOf (lane : LaneKey κ φ) (probe : HullProbe φ) : Except SplitError (List ℤ) :=
  partitionCuts S probe.units (lane.ratioFor probe.family) probe.groups

/-- The rank a cut begins, the last of several. -/
def cutIndex (cuts : List ℤ) (c : ℤ) : Option ℕ :=
  ((List.range cuts.length).filter fun i => cuts[i]? = some c).getLast?

/-- `_segments_from_cuts`. -/
def segmentsFromCuts : List ℤ → List ℤ → Option (List (List ℕ))
  | a :: b :: coarse, fine => do
    let ia ← cutIndex fine a
    let ib ← cutIndex fine b
    let segs ← segmentsFromCuts (b :: coarse) fine
    some (List.range' ia (ib - ia) :: segs)
  | _, _ => some []

/-- The cards two lanes share. -/
def sharedCards (a b : LaneKey κ φ) : List ℤ :=
  ((a.gpus.filter (· ∈ b.gpus)).dedup).insertionSort (· ≤ ·)

/-- The loop over the dimensions, for one pair of lanes and the direction so far; `none` where it
raises. -/
def compareOn (a b : LaneKey κ φ) :
    List (HullProbe φ) → Option Direction → Option (List (Failure κ φ) × Option Direction)
  | [], direction => some ([], direction)
  | probe :: probes, direction =>
    match (do let ca ← cutsOf S a probe; let cb ← cutsOf S b probe; pure (ca, cb) :
        Except SplitError (List ℤ × List ℤ)) with
    | .error .other => none
    | .error .valueError =>
      (compareOn a b probes direction).map fun (fs, d) => (.cannotSplit a.key b.key probe :: fs, d)
    | .ok (ca, cb) =>
      if ca ⊆ cb ∧ cb ⊆ ca then compareOn a b probes direction
      else if cb ⊆ ca ∨ ca ⊆ cb then
        let this := if cb ⊆ ca then Direction.bCoarser else Direction.aCoarser
        if direction = none ∨ direction = some this then compareOn a b probes (some this)
        else some ([.directionFlips a.key b.key probe this], none)
      else
        (compareOn a b probes direction).map fun (fs, d) =>
          (.incomparable a.key b.key (sharedCards a b) probe ca cb :: fs, d)

/-- The pairs of lanes. -/
def pairs : List (LaneKey κ φ) → List (LaneKey κ φ × LaneKey κ φ)
  | [] => []
  | a :: rest => rest.map (a, ·) ++ pairs rest

/-- The pair has to nest. -/
def mustNest (requireDisjoint : Bool) (ab : LaneKey κ φ × LaneKey κ φ) : Bool :=
  !(sharedCards ab.1 ab.2).isEmpty || requireDisjoint

/-- The coarser and the finer lane of a pair. -/
def coarserPair (ab : LaneKey κ φ × LaneKey κ φ) : Option Direction → Option (κ × κ)
  | some .aCoarser => some (ab.1.key, ab.2.key)
  | some .bCoarser => some (ab.2.key, ab.1.key)
  | none => none

/-- A pinned segmentation on one dimension. -/
def pinnedOn (lane other : LaneKey κ φ) (want : List (List ℤ)) (probe : HullProbe φ) :
    Option (List (Failure κ φ)) :=
  match (do let oc ← cutsOf S other probe; let lc ← cutsOf S lane probe; pure (oc, lc) :
      Except SplitError (List ℤ × List ℤ)) with
  | .error .other => none
  | .error .valueError => some []
  | .ok (oc, lc) =>
    let otherCoarse := oc.dedup.length ≤ lc.dedup.length
    let got := if otherCoarse then segmentsFromCuts oc lc else segmentsFromCuts lc oc
    some <| if got.map (·.map (·.map Int.ofNat)) = some want then []
      else if otherCoarse then [.otherSegmentation lane.key other.key probe got want]
      else [.otherSegmentation other.key lane.key probe got want]

section Hull

variable [LinearOrder κ]

/-- The pinned segmentation of a lane. -/
def pinned (lanes : List (LaneKey κ φ)) (probes : List (HullProbe φ)) (lane : LaneKey κ φ) :
    Option (List (Failure κ φ)) :=
  match lane.sharedSegments, lane.nestsIn with
  | some want, some parent =>
    match lanes.find? (·.key = parent) with
    | none => some [.unknownLane lane.key parent]
    | some other => (probes.mapM (pinnedOn S lane other want)).map List.flatten
  | _, _ => some []

/-- The loop that makes the order: the lanes without a coarser one are next. It comes with the
lanes that are left when there is none. -/
def coarsestFirst (coarser : List (κ × κ)) : ℕ → List κ → List κ × List (List κ)
  | 0, _ => ([], [])
  | _ + 1, [] => ([], [])
  | fuel + 1, k :: ks =>
    let remaining := k :: ks
    let free := remaining.filter fun k => ¬ ∃ o ∈ remaining, o ≠ k ∧ (o, k) ∈ coarser
    if free = [] then ([], [remaining.insertionSort (· ≤ ·)])
    else
      let later := coarsestFirst coarser fuel (remaining.diff free)
      (free.insertionSort (· ≤ ·) ++ later.1, later.2)

/-- The parent: the last of the lanes before that is coarser. -/
def parentAt (coarser : List (κ × κ)) (order : List κ) (i : ℕ) (k : κ) : Option κ :=
  ((order.take i).filter fun cand => (cand, k) ∈ coarser).getLast?

/-- The parent of every lane. -/
def parents (coarser : List (κ × κ)) (order : List κ) : List (κ × Option κ) :=
  order.mapIdx fun i k => (k, parentAt coarser order i k)

/-- The segmentation of a lane in its parent: that of the first dimension that has one. -/
def segmentsIn (lanes : List (LaneKey κ φ)) (probes : List (HullProbe φ)) (k chosen : κ) :
    Option (List (List ℕ)) := do
  let child ← lanes.find? (·.key = k)
  let parent ← lanes.find? (·.key = chosen)
  probes.findSome? fun probe =>
    match cutsOf S parent probe, cutsOf S child probe with
    | .ok pc, .ok cc => segmentsFromCuts pc cc
    | _, _ => none

/-- `nesting_hull`; `none` where it raises. -/
def nestingHull (lanes : List (LaneKey κ φ)) (probes : List (HullProbe φ))
    (requireDisjoint : Bool) : Option (HullTree κ φ) :=
  if ¬ (lanes.map (·.key)).Nodup then
    some ⟨false, [], [], [], [.duplicateKeys], [], []⟩
  else do
    let required := (pairs lanes).filter (mustNest requireDisjoint)
    let compared ← required.mapM fun ab => compareOn S ab.1 ab.2 probes none
    let pins ← lanes.mapM (pinned S lanes probes)
    let coarser := ((required.zip compared).filterMap fun c => coarserPair c.1 c.2.2)
    let ordered := coarsestFirst coarser (lanes.length + 1) (lanes.map (·.key))
    let parent := parents coarser ordered.1
    let failures := (compared.map (·.1)).flatten ++ pins.flatten ++ ordered.2.map .cycle
    some
      { ok := failures.isEmpty
        order := ordered.1
        parent := parent
        segments := parent.filterMap fun kp => kp.2.bind fun p =>
          (segmentsIn S lanes probes kp.1 p).map ((kp.1, p), ·)
        failures := failures
        checked := required.map fun ab => (ab.1.key, ab.2.key)
        disjoint := ((pairs lanes).filter (!mustNest requireDisjoint ·)).map fun ab =>
          (ab.1.key, ab.2.key) }

end Hull

/-! ### What it is for -/

/-- The units of a rank. -/
def shard (cuts : List ℤ) (i : ℕ) : Set ℤ := Set.Ico (cuts.getD i 0) (cuts.getD (i + 1) 0)

/-- The first lane is the coarser one on every dimension. -/
def Coarser (probes : List (HullProbe φ)) (a b : LaneKey κ φ) : Prop :=
  ∀ probe ∈ probes, ∃ ca cb, cutsOf S a probe = .ok ca ∧ cutsOf S b probe = .ok cb ∧ ca ⊆ cb

/-- On every shared card the shard of the finer lane is inside that of the coarser one. -/
def Inside (probes : List (HullProbe φ)) (a b : LaneKey κ φ) : Prop :=
  ∀ probe ∈ probes, ∀ ca cb, cutsOf S a probe = .ok ca → cutsOf S b probe = .ok cb →
    ∀ i j card, a.gpus[i]? = some card → b.gpus[j]? = some card → shard cb j ⊆ shard ca i

/-- The finer lane can be grouped to nest in the coarser one: on every dimension there are segments,
each shard of the coarser lane is the union of the shards in its segment, and no other shard of the
finer lane lies inside it. -/
def Groups (probes : List (HullProbe φ)) (a b : LaneKey κ φ) : Prop :=
  ∀ probe ∈ probes, ∃ ca cb segs, cutsOf S a probe = .ok ca ∧ cutsOf S b probe = .ok cb ∧
    segmentsFromCuts ca cb = some segs ∧
    (∀ i, shard ca i = ⋃ j ∈ segs.getD i [], shard cb j) ∧
    ∀ i j, (shard cb j).Nonempty → (j ∈ segs.getD i [] ↔ shard cb j ⊆ shard ca i)

/-- Two lanes meet. -/
def Meet (a b : LaneKey κ φ) : Prop := ∃ card, card ∈ a.gpus ∧ card ∈ b.gpus

/-- Following the parents ends at a root. -/
inductive Ends (parent : List (κ × Option κ)) : κ → Prop where
  | root {k : κ} (h : (k, none) ∈ parent) : Ends parent k
  /-- A lane whose parent leads to a root. -/
  | step {k p : κ} (h : (k, some p) ∈ parent) (hp : Ends parent p) : Ends parent k

/-! ### Cuts and segments -/

/-- What the cuts of a split are: ascending from zero. -/
def IsCuts (cuts : List ℤ) : Prop := cuts.Pairwise (· ≤ ·) ∧ ∀ c ∈ cuts, 0 ≤ c

theorem le_of_mem_scanl {c : ℤ} {sizes : List ℤ} (h : ∀ s ∈ sizes, 0 ≤ s) :
    ∀ x ∈ sizes.scanl (· + ·) c, c ≤ x := by
  induction sizes generalizing c with
  | nil => simp
  | cons s sizes ih =>
    rw [List.scanl_cons, List.forall_mem_cons]
    have hs := h s (List.mem_cons_self ..)
    refine ⟨le_rfl, fun x hx => ?_⟩
    have := ih (fun s' hs' => h s' (List.mem_cons_of_mem _ hs')) x hx
    omega

theorem pairwise_scanl {c : ℤ} {sizes : List ℤ} (h : ∀ s ∈ sizes, 0 ≤ s) :
    (sizes.scanl (· + ·) c).Pairwise (· ≤ ·) := by
  induction sizes generalizing c with
  | nil => simp
  | cons s sizes ih =>
    rw [List.scanl_cons, List.pairwise_cons]
    have htail : ∀ s' ∈ sizes, 0 ≤ s' := fun s' hs' => h s' (List.mem_cons_of_mem _ hs')
    have hs := h s (List.mem_cons_self ..)
    refine ⟨fun x hx => ?_, ih htail⟩
    have := le_of_mem_scanl htail x hx
    omega

theorem isCuts_scanl {sizes : List ℤ} (h : ∀ s ∈ sizes, 0 ≤ s) :
    IsCuts (sizes.scanl (· + ·) 0) := ⟨pairwise_scanl h, le_of_mem_scanl h⟩

variable {S}

theorem isCuts_cutsOf {lane : LaneKey κ φ} {probe : HullProbe φ} {cuts : List ℤ}
    (h : cutsOf S lane probe = .ok cuts) : IsCuts cuts := by
  rw [cutsOf, partitionCuts] at h
  split_ifs at h with hsplit
  · cases hsizes : S.partitionUnits probe.units (lane.ratioFor probe.family) probe.groups with
    | error e =>
      rw [hsizes] at h
      cases h
    | ok sizes =>
      rw [hsizes] at h
      cases h
      exact isCuts_scanl (S.nonneg hsizes)
  · cases h
    refine isCuts_scanl fun s hs => ?_
    by_contra hneg
    exact hsplit (.inr ⟨s, hs, not_le.mp hneg⟩)

theorem getElem?_of_cutIndex {cuts : List ℤ} {c : ℤ} {i : ℕ} (h : cutIndex cuts c = some i) :
    cuts[i]? = some c := by
  have hmem := List.mem_of_getLast? h
  rw [List.mem_filter, decide_eq_true_iff] at hmem
  exact hmem.2

theorem exists_cutIndex {cuts : List ℤ} {c : ℤ} (h : c ∈ cuts) : ∃ i, cutIndex cuts c = some i := by
  obtain ⟨i, hi, hget⟩ := List.getElem_of_mem h
  rw [← Option.isSome_iff_exists, cutIndex, List.getLast?_isSome]
  refine List.ne_nil_of_mem (a := i) ?_
  rw [List.mem_filter, List.mem_range, decide_eq_true_iff]
  exact ⟨hi, by rw [List.getElem?_eq_getElem hi, hget]⟩

/-- The segments of cuts that are contained in the finer ones. -/
theorem segmentsFromCuts_of_subset {coarse fine : List ℤ} (h : coarse ⊆ fine) :
    ∃ segs, segmentsFromCuts coarse fine = some segs ∧ ∀ i,
      (i + 1 < coarse.length → ∃ x y, cutIndex fine (coarse.getD i 0) = some x ∧
        cutIndex fine (coarse.getD (i + 1) 0) = some y ∧ segs.getD i [] = List.range' x (y - x)) ∧
      (coarse.length ≤ i + 1 → segs.getD i [] = []) := by
  induction coarse with
  | nil => exact ⟨[], rfl, fun i => ⟨fun hi => absurd hi (Nat.not_lt_zero _), fun _ => rfl⟩⟩
  | cons a coarse ih =>
    cases coarse with
    | nil =>
      refine ⟨[], rfl, fun i => ⟨fun hi => absurd hi ?_, fun _ => rfl⟩⟩
      simp
    | cons b coarse =>
      obtain ⟨x, hx⟩ := exists_cutIndex (h (List.mem_cons_self ..))
      obtain ⟨y, hy⟩ := exists_cutIndex (h (List.mem_cons_of_mem _ (List.mem_cons_self ..)))
      obtain ⟨segs, hsegs, hall⟩ := ih fun c hc => h (List.mem_cons_of_mem _ hc)
      refine ⟨List.range' x (y - x) :: segs, ?_, fun i => ?_⟩
      · rw [segmentsFromCuts, hx, hy, hsegs]
        rfl
      · cases i with
        | zero => exact ⟨fun _ => ⟨x, y, hx, hy, rfl⟩, fun hle => absurd hle (by simp)⟩
        | succ i =>
          refine ⟨fun hi => (hall i).1 ?_, fun hi => (hall i).2 ?_⟩
          · simpa using hi
          · simpa using hi

theorem shard_nonempty_iff {cuts : List ℤ} {j : ℕ} :
    (shard cuts j).Nonempty ↔ cuts.getD j 0 < cuts.getD (j + 1) 0 := Set.nonempty_Ico

theorem IsCuts.getD_nonneg {cuts : List ℤ} (h : IsCuts cuts) (i : ℕ) : 0 ≤ cuts.getD i 0 := by
  rw [List.getD_eq_getElem?_getD]
  cases hget : cuts[i]? with
  | none => exact le_rfl
  | some c => exact h.2 c (List.mem_of_getElem? hget)

/-- Only a rank of the split has units. -/
theorem IsCuts.lt_length {cuts : List ℤ} (h : IsCuts cuts) {j : ℕ} (hj : (shard cuts j).Nonempty) :
    j + 1 < cuts.length := by
  by_contra hge
  rw [shard_nonempty_iff, List.getD_eq_default _ _ (not_lt.mp hge)] at hj
  exact absurd (h.getD_nonneg j) (not_le.mpr hj)

theorem IsCuts.getD_le_getD {cuts : List ℤ} (h : IsCuts cuts) {i j : ℕ} (hij : i ≤ j)
    (hj : j < cuts.length) : cuts.getD i 0 ≤ cuts.getD j 0 := by
  rw [List.getD_eq_getElem _ _ hj, List.getD_eq_getElem _ _ (hij.trans_lt hj)]
  rcases hij.lt_or_eq with hlt | rfl
  · exact List.pairwise_iff_getElem.mp h.1 i j _ hj hlt
  · exact le_rfl

/-- The shards from one cut to another are those inside. -/
theorem IsCuts.mem_range'_iff {cuts : List ℤ} (h : IsCuts cuts) {x y j : ℕ} (hx : x < cuts.length)
    (hy : y < cuts.length) (hj : (shard cuts j).Nonempty) :
    j ∈ List.range' x (y - x) ↔ shard cuts j ⊆ Set.Ico (cuts.getD x 0) (cuts.getD y 0) := by
  have hlt := shard_nonempty_iff.mp hj
  have hlen := h.lt_length hj
  rw [List.mem_range'_1, shard, Set.Ico_subset_Ico_iff hlt]
  constructor
  · rintro ⟨hxj, hjy⟩
    exact ⟨h.getD_le_getD hxj (by omega), h.getD_le_getD (by omega) hy⟩
  · rintro ⟨hlo, hhi⟩
    have hxj : x ≤ j := by
      by_contra hgt
      exact absurd (h.getD_le_getD (i := j + 1) (j := x) (by omega) hx) (by omega)
    have hjy : j < y := by
      by_contra hge
      exact absurd (h.getD_le_getD (i := y) (j := j) (by omega) (by omega)) (by omega)
    exact ⟨hxj, by omega⟩

/-- The shards from one cut to another leave nothing out. -/
theorem IsCuts.subset_iUnion_shard {cuts : List ℤ} (h : IsCuts cuts) {x y : ℕ}
    (hx : x < cuts.length) : Set.Ico (cuts.getD x 0) (cuts.getD y 0) ⊆
      ⋃ j ∈ List.range' x (y - x), shard cuts j := by
  intro t ht
  have hxy : x ≤ y := by
    by_contra hgt
    have hyx := h.getD_le_getD (i := y) (j := x) (by omega) hx
    exact absurd (ht.1.trans_lt ht.2) (not_lt.mpr hyx)
  obtain ⟨k, rfl⟩ := Nat.exists_eq_add_of_le hxy
  obtain ⟨j, hj, hjt⟩ := Set.mem_iUnion₂.mp
    (Ico_subset_biUnion_Ico k (fun j => cuts.getD (x + j) 0) ht)
  refine Set.mem_iUnion₂.mpr ⟨x + j, ?_, hjt⟩
  rw [List.mem_range'_1]
  have := Finset.mem_range.mp hj
  omega

/-- **A shard lies inside the one whose segment its rank is in**, and these shards make it up. -/
theorem segment_iff {ca cb : List ℤ} (ha : IsCuts ca) (hb : IsCuts cb) {segs : List (List ℕ)}
    (hseg : ∀ i, (i + 1 < ca.length → ∃ x y, cutIndex cb (ca.getD i 0) = some x ∧
      cutIndex cb (ca.getD (i + 1) 0) = some y ∧ segs.getD i [] = List.range' x (y - x)) ∧
      (ca.length ≤ i + 1 → segs.getD i [] = [])) (i : ℕ) :
    shard ca i = ⋃ j ∈ segs.getD i [], shard cb j ∧
      ∀ j, (shard cb j).Nonempty → (j ∈ segs.getD i [] ↔ shard cb j ⊆ shard ca i) := by
  rcases lt_or_ge (i + 1) ca.length with hi | hi
  swap
  · -- a rank that the coarser lane does not have
    have hempty : shard ca i = ∅ := Set.not_nonempty_iff_eq_empty.mp fun hne =>
      absurd (ha.lt_length hne) (not_lt.mpr hi)
    rw [(hseg i).2 hi, hempty]
    refine ⟨by simp, fun j hj => iff_of_false List.not_mem_nil fun hins => ?_⟩
    exact hj.ne_empty (Set.subset_empty_iff.mp hins)
  obtain ⟨x, y, hx, hy, heq⟩ := (hseg i).1 hi
  obtain ⟨hxlen, hxval⟩ := List.getElem?_eq_some_iff.mp (getElem?_of_cutIndex hx)
  obtain ⟨hylen, hyval⟩ := List.getElem?_eq_some_iff.mp (getElem?_of_cutIndex hy)
  rw [← List.getD_eq_getElem _ 0 hxlen] at hxval
  rw [← List.getD_eq_getElem _ 0 hylen] at hyval
  have hmem : ∀ j, (shard cb j).Nonempty → (j ∈ segs.getD i [] ↔ shard cb j ⊆ shard ca i) := by
    intro j hj
    rw [heq, hb.mem_range'_iff hxlen hylen hj, hxval, hyval]
    rfl
  refine ⟨Set.Subset.antisymm ?_ (Set.iUnion₂_subset fun j hj => ?_), hmem⟩
  · rw [heq, shard, ← hxval, ← hyval]
    exact hb.subset_iUnion_shard hxlen
  · rcases (shard cb j).eq_empty_or_nonempty with hempty | hne
    · rw [hempty]
      exact Set.empty_subset _
    · exact (hmem j hne).mp hj

theorem groups_of_coarser {probes : List (HullProbe φ)} {a b : LaneKey κ φ}
    (h : Coarser S probes a b) : Groups S probes a b := by
  intro probe hprobe
  obtain ⟨ca, cb, hca, hcb, hsub⟩ := h probe hprobe
  obtain ⟨segs, hsegs, hall⟩ := segmentsFromCuts_of_subset hsub
  have hiff := segment_iff (isCuts_cutsOf hca) (isCuts_cutsOf hcb) hall
  exact ⟨ca, cb, segs, hca, hcb, hsegs, fun i => (hiff i).1, fun i => (hiff i).2⟩

/-! ### The comparison of a pair -/

/-- What a comparison without a failure has found. -/
theorem compareOn_ok {a b : LaneKey κ φ} {probes : List (HullProbe φ)} {d d' : Option Direction}
    (h : compareOn S a b probes d = some ([], d')) :
    (d = none ∨ d' = d) ∧ ∀ probe ∈ probes, ∃ ca cb, cutsOf S a probe = .ok ca ∧
      cutsOf S b probe = .ok cb ∧ (d' ≠ some .bCoarser → ca ⊆ cb) ∧
      (d' ≠ some .aCoarser → cb ⊆ ca) := by
  induction probes generalizing d with
  | nil =>
    cases h
    exact ⟨.inr rfl, fun _ hp => absurd hp List.not_mem_nil⟩
  | cons probe probes ih =>
    have hmap : ∀ {o : Option (List (Failure κ φ) × Option Direction)} {f : Failure κ φ},
        o.map (fun r => (f :: r.1, r.2)) ≠ some ([], d') := by
      intro o f hcons
      obtain ⟨r, -, hr⟩ := Option.map_eq_some_iff.mp hcons
      cases hr
    rw [compareOn] at h
    rcases hca : cutsOf S a probe with e | ca
    · rw [hca] at h
      cases e with
      | valueError => exact absurd h hmap
      | other => cases h
    rcases hcb : cutsOf S b probe with e | cb
    · rw [hca, hcb] at h
      cases e with
      | valueError => exact absurd h hmap
      | other => cases h
    rw [hca, hcb] at h
    simp only [bind, Except.bind, pure, Except.pure] at h
    by_cases hsame : ca ⊆ cb ∧ cb ⊆ ca
    · rw [if_pos hsame] at h
      obtain ⟨hd, hall⟩ := ih h
      exact ⟨hd, List.forall_mem_cons.mpr
        ⟨⟨ca, cb, hca, hcb, fun _ => hsame.1, fun _ => hsame.2⟩, hall⟩⟩
    rw [if_neg hsame] at h
    by_cases hcomp : cb ⊆ ca ∨ ca ⊆ cb
    · rw [if_pos hcomp] at h
      generalize hthis : (if cb ⊆ ca then Direction.bCoarser else Direction.aCoarser) = this at h
      by_cases hdir : d = none ∨ d = some this
      · rw [if_pos hdir] at h
        obtain ⟨hd, hall⟩ := ih h
        have hd' : d' = some this := hd.resolve_left (by simp)
        refine ⟨hdir.imp_right fun heq => hd'.trans heq.symm, List.forall_mem_cons.mpr
          ⟨⟨ca, cb, hca, hcb, fun hne => ?_, fun hne => ?_⟩, hall⟩⟩
        · refine hcomp.resolve_left fun hba => hne ?_
          rw [hd', ← hthis, if_pos hba]
        · by_contra hba
          exact hne (by rw [hd', ← hthis, if_neg hba])
      · rw [if_neg hdir] at h
        cases h
    · rw [if_neg hcomp] at h
      exact absurd h hmap

/-- A comparison without a failure tells which lane is the coarser. -/
theorem coarser_of_compareOn {a b : LaneKey κ φ} {probes : List (HullProbe φ)}
    {d : Option Direction} (h : compareOn S a b probes none = some ([], d)) :
    (d ≠ some .bCoarser → Coarser S probes a b) ∧ (d ≠ some .aCoarser → Coarser S probes b a) := by
  have hall := (compareOn_ok h).2
  constructor
  · intro hne probe hprobe
    obtain ⟨ca, cb, hca, hcb, hab, -⟩ := hall probe hprobe
    exact ⟨ca, cb, hca, hcb, hab hne⟩
  · intro hne probe hprobe
    obtain ⟨ca, cb, hca, hcb, -, hba⟩ := hall probe hprobe
    exact ⟨cb, ca, hcb, hca, hba hne⟩

omit [DecidableEq φ] in
theorem mem_pairs {lanes : List (LaneKey κ φ)} {a b : LaneKey κ φ} (ha : a ∈ lanes) (hb : b ∈ lanes)
    (hne : a.key ≠ b.key) : (a, b) ∈ pairs lanes ∨ (b, a) ∈ pairs lanes := by
  induction lanes with
  | nil => exact absurd ha List.not_mem_nil
  | cons c lanes ih =>
    simp only [pairs, List.mem_append, List.mem_map, Prod.mk.injEq]
    rcases List.mem_cons.mp ha with rfl | ha'
    · rcases List.mem_cons.mp hb with rfl | hb'
      · exact absurd rfl hne
      · exact .inl (.inl ⟨b, hb', rfl, rfl⟩)
    · rcases List.mem_cons.mp hb with rfl | hb'
      · exact .inr (.inl ⟨a, ha', rfl, rfl⟩)
      · exact (ih ha' hb').imp .inr .inr

omit [DecidableEq φ] in
theorem mem_of_mem_pairs {lanes : List (LaneKey κ φ)} {ab : LaneKey κ φ × LaneKey κ φ}
    (h : ab ∈ pairs lanes) : ab.1 ∈ lanes ∧ ab.2 ∈ lanes := by
  induction lanes with
  | nil => exact absurd h List.not_mem_nil
  | cons c lanes ih =>
    rcases List.mem_append.mp h with hmap | hrest
    · obtain ⟨b, hb, rfl⟩ := List.mem_map.mp hmap
      exact ⟨List.mem_cons_self .., List.mem_cons_of_mem _ hb⟩
    · exact ⟨List.mem_cons_of_mem _ (ih hrest).1, List.mem_cons_of_mem _ (ih hrest).2⟩

omit [DecidableEq φ] in
theorem mustNest_of_meet {a b : LaneKey κ φ} (h : Meet a b) (requireDisjoint : Bool) :
    mustNest requireDisjoint (a, b) = true := by
  obtain ⟨card, ha, hb⟩ := h
  have hmem : card ∈ sharedCards a b := by
    rw [sharedCards, List.mem_insertionSort, List.mem_dedup, List.mem_filter]
    exact ⟨ha, decide_eq_true hb⟩
  rw [mustNest, List.isEmpty_eq_false_iff.mpr (List.ne_nil_of_mem hmem)]
  rfl

/-! ### The forest -/

section Hull

variable [LinearOrder κ] {coarser : List (κ × κ)}

/-- The order has every lane once. -/
theorem coarsestFirst_perm {fuel : ℕ} {keys : List κ} (hfuel : keys.length < fuel)
    (h : (coarsestFirst coarser fuel keys).2 = []) :
    (coarsestFirst coarser fuel keys).1.Perm keys := by
  induction fuel generalizing keys with
  | zero => exact absurd hfuel (Nat.not_lt_zero _)
  | succ fuel ih =>
    cases keys with
    | nil => exact List.Perm.refl _
    | cons k ks =>
      rw [coarsestFirst] at h ⊢
      dsimp only at h ⊢
      generalize hfree : (k :: ks).filter (fun k' => ¬ ∃ o ∈ k :: ks, o ≠ k' ∧ (o, k') ∈ coarser) =
        free at h ⊢
      by_cases hnil : free = []
      · rw [if_pos hnil] at h
        cases h
      rw [if_neg hnil] at h ⊢
      have hsplit : (free ++ (k :: ks).diff free).Perm (k :: ks) := by
        refine List.subperm_append_diff_self_of_count_le fun x _ => ?_
        rw [← hfree]
        exact List.filter_sublist.count_le x
      have hlen := hsplit.length_eq
      rw [List.length_append] at hlen
      have hpos := List.length_pos_of_ne_nil hnil
      exact ((List.perm_insertionSort _ _).append (ih (by omega) h)).trans hsplit

theorem mem_of_parentAt {order : List κ} {i : ℕ} {k p : κ}
    (h : parentAt coarser order i k = some p) :
    p ∈ order.take i ∧ (p, k) ∈ coarser := by
  have hmem := List.mem_of_getLast? h
  rw [List.mem_filter, decide_eq_true_iff] at hmem
  exact hmem

theorem ends_parents (order : List κ) (i : ℕ) (hi : i < order.length) :
    Ends (parents coarser order) order[i] := by
  induction i using Nat.strong_induction_on with
  | _ i ih =>
    have hmem : (order[i], parentAt coarser order i order[i]) ∈ parents coarser order :=
      List.mem_mapIdx.mpr ⟨i, hi, rfl⟩
    cases hparent : parentAt coarser order i order[i] with
    | none =>
      rw [hparent] at hmem
      exact .root hmem
    | some p =>
      rw [hparent] at hmem
      obtain ⟨i', hi', hget⟩ := List.mem_take_iff_getElem.mp (mem_of_parentAt hparent).1
      refine .step hmem ?_
      rw [← hget]
      exact ih i' (by omega) (by omega)

/-! ### The hull -/

variable {lanes : List (LaneKey κ φ)} {probes : List (HullProbe φ)} {requireDisjoint : Bool}
  {tree : HullTree κ φ}

/-- An accepted hull: every pair that has to nest was compared without a failure, and the forest is
made from the directions. -/
theorem nestingHull_ok (h : nestingHull S lanes probes requireDisjoint = some tree)
    (hok : tree.ok = true) :
    (lanes.map (·.key)).Nodup ∧
      (∀ ab ∈ pairs lanes, mustNest requireDisjoint ab = true →
        ∃ d, compareOn S ab.1 ab.2 probes none = some ([], d)) ∧
      ∃ coarser order, tree.parent = parents coarser order ∧ order.Perm (lanes.map (·.key)) ∧
        ∀ pk ∈ coarser, ∃ ab ∈ pairs lanes, ∃ d,
          compareOn S ab.1 ab.2 probes none = some ([], d) ∧ coarserPair ab d = some pk := by
  rw [nestingHull] at h
  by_cases hdup : ¬ (lanes.map (·.key)).Nodup
  · rw [if_pos hdup] at h
    cases h
    cases hok
  rw [if_neg hdup] at h
  simp only [Option.bind_eq_bind, Option.bind_eq_some_iff, Option.some.injEq] at h
  obtain ⟨compared, hcompared, pins, hpins, rfl⟩ := h
  have hforall := List.forall₂_iff_zip.mp (mapM_eq_some.mp hcompared)
  simp only [List.isEmpty_iff, List.append_eq_nil_iff, List.flatten_eq_nil_iff, List.map_eq_nil_iff,
    List.forall_mem_map] at hok
  obtain ⟨⟨hclean, -⟩, hcycle⟩ := hok
  -- every comparison that was made is without a failure
  have hzip : ∀ c ∈ ((pairs lanes).filter (mustNest requireDisjoint)).zip compared,
      compareOn S c.1.1 c.1.2 probes none = some ([], c.2.2) := by
    rintro ⟨ab, fs, d⟩ hc
    have hcmp := hforall.2 hc
    have hnil := hclean _ (List.of_mem_zip hc).2
    dsimp only at hnil hcmp ⊢
    rw [hcmp, hnil]
  refine ⟨not_not.mp hdup, fun ab hab hmust => ?_, _, _, rfl, coarsestFirst_perm ?_ hcycle,
    fun pk hpk => ?_⟩
  · obtain ⟨i, hi, hget⟩ := List.getElem_of_mem (List.mem_filter.mpr ⟨hab, hmust⟩)
    have hi' : i < compared.length := hforall.1 ▸ hi
    have hmem : (ab, compared[i]) ∈
        ((pairs lanes).filter (mustNest requireDisjoint)).zip compared := by
      rw [← hget, ← List.getElem_zip (i := i) (h := by rw [List.length_zip]; omega)]
      exact List.getElem_mem _
    exact ⟨_, hzip _ hmem⟩
  · rw [List.length_map]
    exact Nat.lt_succ_self _
  · obtain ⟨c, hc, hpair⟩ := List.mem_filterMap.mp hpk
    exact ⟨c.1, (List.mem_filter.mp (List.of_mem_zip hc).1).1, c.2.2, hzip c hc, hpair⟩

/-- Of two lanes that meet, one is the coarser. -/
theorem coarser_or_coarser (h : nestingHull S lanes probes requireDisjoint = some tree)
    (hok : tree.ok = true) {a b : LaneKey κ φ} (ha : a ∈ lanes) (hb : b ∈ lanes)
    (hne : a.key ≠ b.key) (hmeet : Meet a b) : Coarser S probes a b ∨ Coarser S probes b a := by
  have hcmp := (nestingHull_ok h hok).2.1
  have hcoarser : ∀ {a b : LaneKey κ φ}, (a, b) ∈ pairs lanes → Meet a b →
      Coarser S probes a b ∨ Coarser S probes b a := by
    intro a b hab hmeet
    obtain ⟨d, hd⟩ := hcmp (a, b) hab (mustNest_of_meet hmeet requireDisjoint)
    by_cases hdir : d = some .bCoarser
    · exact .inr ((coarser_of_compareOn hd).2 (by rw [hdir]; simp))
    · exact .inl ((coarser_of_compareOn hd).1 hdir)
  rcases mem_pairs ha hb hne with hab | hba
  · exact hcoarser hab hmeet
  · obtain ⟨card, hca, hcb⟩ := hmeet
    exact (hcoarser hba ⟨card, hcb, hca⟩).symm

/-- **What an accepted hull says.** Of two lanes that meet one is the coarser on all dimensions, and
the finer one can be grouped to nest in it; the parents lead to a root, and every parent is the
coarser. -/
theorem nestingHull_groups (h : nestingHull S lanes probes requireDisjoint = some tree)
    (hok : tree.ok = true) :
    (∀ a ∈ lanes, ∀ b ∈ lanes, a.key ≠ b.key → Meet a b →
      (Coarser S probes a b ∧ Groups S probes a b) ∨
        (Coarser S probes b a ∧ Groups S probes b a)) ∧
    (tree.parent.map (·.1)).Nodup ∧ (∀ a ∈ lanes, Ends tree.parent a.key) ∧
    ∀ b ∈ lanes, ∀ p, (b.key, some p) ∈ tree.parent →
      ∃ a ∈ lanes, a.key = p ∧ Coarser S probes a b := by
  obtain ⟨hnodup, -, coarser, order, hparent, hperm, hpairs⟩ := nestingHull_ok h hok
  refine ⟨fun a ha b hb hne hmeet => ?_, ?_, ?_, ?_⟩
  · exact (coarser_or_coarser h hok ha hb hne hmeet).imp (fun hab => ⟨hab, groups_of_coarser hab⟩)
      fun hba => ⟨hba, groups_of_coarser hba⟩
  · have hkeys : (parents coarser order).map (·.1) = order :=
      List.ext_getElem (by simp [parents]) fun i _ _ => by simp [parents]
    rw [hparent, hkeys]
    exact hperm.nodup_iff.mpr hnodup
  · intro a ha
    obtain ⟨i, hi, hget⟩ := List.getElem_of_mem (hperm.mem_iff.mpr (List.mem_map_of_mem ha))
    rw [hparent, ← hget]
    exact ends_parents order i hi
  · intro b hb p hbp
    rw [hparent, parents, List.mem_mapIdx] at hbp
    obtain ⟨i, hi, heq⟩ := hbp
    obtain ⟨hkey, hp⟩ := Prod.mk.inj heq
    obtain ⟨ab, hab, d, hd, hpk⟩ := hpairs _ (mem_of_parentAt hp).2
    have hmem := mem_of_mem_pairs hab
    have hcoarser := coarser_of_compareOn hd
    rw [hkey] at hpk
    have hinj : ∀ c ∈ lanes, c.key = b.key → c = b := fun c hc heq =>
      List.inj_on_of_nodup_map hnodup hc hb heq
    rcases d with - | (- | -)
    · cases hpk
    · obtain ⟨hp', hb'⟩ := Prod.mk.inj (Option.some.inj hpk)
      refine ⟨ab.1, hmem.1, hp', ?_⟩
      rw [← hinj ab.2 hmem.2 hb']
      exact hcoarser.1 (by simp)
    · obtain ⟨hp', hb'⟩ := Prod.mk.inj (Option.some.inj hpk)
      refine ⟨ab.2, hmem.2, hp', ?_⟩
      rw [← hinj ab.1 hmem.1 hb']
      exact hcoarser.2 (by simp)

end Hull

/-! ### Two cards in two orders -/

/-- A `partition_units` that refuses everything; the ratios below are splits already. -/
def refusing : Splitter where
  partitionUnits _ _ _ := .error .valueError
  nonneg h := by cases h

/-- One unit for each of two cards. -/
def oneEach (key : ℕ) (gpus : List ℤ) : LaneKey ℕ ℕ := ⟨key, [1, 1], gpus, [], none, none⟩

/-- Two units. -/
def twoUnits : HullProbe ℕ := ⟨2, none, none⟩

/-- Two ranks over the cards of three: on card `0` and on card `1` the finer shard is inside the
coarser one. -/
theorem nestingHull_groups_twoOfThree :
    ∃ tree, nestingHull refusing [⟨0, [2, 2], [0, 1], [], none, none⟩,
        ⟨1, [1, 1, 2], [0, 2, 1], [], none, none⟩] [⟨4, none, (none : Option ℕ)⟩] false =
        some tree ∧ tree.ok = true ∧ Ends tree.parent (1 : ℕ) ∧
      shard [0, 1, 2, 4] 0 ⊆ shard [0, 2, 4] 0 ∧ shard [0, 1, 2, 4] 2 ⊆ shard [0, 2, 4] 1 := by
  obtain ⟨tree, htree, hok⟩ : ∃ tree, nestingHull refusing [⟨0, [2, 2], [0, 1], [], none, none⟩,
      ⟨1, [1, 1, 2], [0, 2, 1], [], none, none⟩] [⟨4, none, (none : Option ℕ)⟩] false =
      some tree ∧ tree.ok = true := ⟨_, rfl, rfl⟩
  obtain ⟨hmeet, -, hends, -⟩ := nestingHull_groups htree hok
  have hcases := hmeet _ List.mem_cons_self _ (List.mem_cons_of_mem _ List.mem_cons_self)
    (by decide) ⟨0, by decide, by decide⟩
  rcases hcases with ⟨-, hgroups⟩ | ⟨hcoarser, -⟩
  · obtain ⟨ca, cb, segs, hca, hcb, hsegs, -, hiff⟩ := hgroups _ List.mem_cons_self
    cases hca
    cases hcb
    cases hsegs
    exact ⟨tree, htree, hok, hends _ (List.mem_cons_of_mem _ List.mem_cons_self),
      (hiff 0 0 ⟨0, by decide, by decide⟩).mp (by decide),
      (hiff 1 2 ⟨2, by decide, by decide⟩).mp (by decide)⟩
  · obtain ⟨ca, cb, hca, hcb, hsub⟩ := hcoarser _ List.mem_cons_self
    cases hca
    cases hcb
    exact absurd hsub (by decide)

/-- Two lanes that list their two cards in opposite orders are accepted. On card `0` the one has the
first unit and the other has the second. -/
theorem swapped_cards_accepted :
    (∃ tree, nestingHull refusing [oneEach 0 [0, 1], oneEach 1 [1, 0]] [twoUnits] false =
      some tree ∧ tree.ok = true) ∧
    Meet (oneEach 0 [0, 1]) (oneEach 1 [1, 0]) ∧
    ¬ Inside refusing [twoUnits] (oneEach 0 [0, 1]) (oneEach 1 [1, 0]) ∧
    ¬ Inside refusing [twoUnits] (oneEach 1 [1, 0]) (oneEach 0 [0, 1]) := by
  have hcuts : ∀ key gpus, cutsOf refusing (oneEach key gpus) twoUnits = .ok [0, 1, 2] :=
    fun _ _ => rfl
  refine ⟨⟨_, rfl, rfl⟩, ⟨0, by decide, by decide⟩, fun hins => ?_, fun hins => ?_⟩
  · have hsub := hins twoUnits (by simp) _ _ (hcuts 0 _) (hcuts 1 _) 0 1 0 rfl rfl
    have hmem : (1 : ℤ) ∈ shard [0, 1, 2] 1 := ⟨by decide, by decide⟩
    exact absurd (hsub hmem).2 (by decide)
  · have hsub := hins twoUnits (by simp) _ _ (hcuts 1 _) (hcuts 0 _) 0 1 1 rfl rfl
    have hmem : (1 : ℤ) ∈ shard [0, 1, 2] 1 := ⟨by decide, by decide⟩
    exact absurd (hsub hmem).2 (by decide)

end HtSglang.NestingHull
