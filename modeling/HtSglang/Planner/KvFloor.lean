import Mathlib
import HtSglang.Planner.PpCut

/-!
# The cut for the KV floor, and the seam that depends on it

Under a pipeline every stage holds the same tokens, so the stage with the smallest capacity decides
how many there are. `solve_pp_cut_for_kv_floor` maximizes this floor over the contiguous cuts. What
a stage must keep free at a cutover grows with the tokens, so the floor is searched as a fixed
point: the seam is priced at a token count, the cut is solved, and the answer is the next token
count, until the two agree up to a tolerance.

## Why an approximate fixed point is good enough

With the seam priced at `t` tokens the capacity of a stage is a falling line in `t`, and the stage
is feasible exactly where the line is above the arena (`HtSglang.PpCut.capacityAt_withSeam`). A cut
has therefore one fixed point, which lies between the token count its floor was computed at and that
floor; and a cut with a higher fixed point would have had the higher floor at that count. This gives
`HtSglang.PpCut.seamFixedPoint_near_optimal`.
-/

namespace HtSglang.PpCut

/-! ### Capacity and floor -/

/-- `stage_kv_capacity`. -/
def stageKvCapacity (inputs : PPCutInputs) (cost : StageCost) : Option ℚ :=
  let arena : ℚ := inputs.arenaTokens
  if arena ≤ 0 ∨ cost.kvMib ≤ 0 then none
  else
    let spendable := cost.runnableHeadroomMib + cost.kvMib
    if spendable ≤ 0 then none else some (spendable * arena / cost.kvMib)

section Floor

variable (inputs : PPCutInputs) (requireAttention : Bool)

/-- The capacity of a stage that is admissible. -/
def capacityAt (stage start stop : ℕ) : Option ℚ :=
  let cost := priceStage inputs stage start stop
  if admissible inputs requireAttention cost then stageKvCapacity inputs cost else none

/-- `_bounds_from_counts`, from a first boundary on. -/
def boundsFrom (acc : ℕ) : List ℕ → List ℕ
  | [] => []
  | c :: cs => (acc + c) :: boundsFrom (acc + c) cs

/-- `world_kv_floor`. -/
def worldKvFloor (counts : List ℕ) : Option ℚ :=
  let bounds := boundsFrom 0 counts
  if counts.length ≠ inputs.ppSize ∨ bounds.getLast? ≠ some inputs.nLayers then none
  else if ∃ c ∈ counts, c < 1 then none
  else
    let caps := (spans bounds).mapIdx fun i run => capacityAt inputs requireAttention i run.1 run.2
    if ∃ cap ∈ caps, cap = none then none else some (minOf (caps.map fun cap => cap.getD 0))

/-- `KvFloorSolution`, for a cut that was found. -/
structure KvFloorSolution where
  counts : List ℕ
  bounds : List ℕ
  attentionCounts : List ℕ
  stages : List StageCost
  floorTokens : ℚ
  stageTokens : List ℚ

/-- What a stage counts in the table. -/
def tokensOf (stage start stop : ℕ) : WithBot (WithTop ℚ) :=
  match capacityAt inputs requireAttention stage start stop with
  | some cap => ((cap : WithTop ℚ) : WithBot (WithTop ℚ))
  | none => ⊥

/-- `solve_pp_cut_for_kv_floor`; `none` is the answer that no cut fits. -/
def solveKvFloor : Option KvFloorSolution :=
  let n := inputs.nLayers
  let k := inputs.ppSize
  let best := cutTable (tokensOf inputs requireAttention) ⊤ k n
  if (best k n).1 = ⊥ then none
  else
    let bounds := walkBack (fun s b => (best s b).2) k n
    let stages := stagesOf inputs bounds
    let caps := stages.map fun cost => (stageKvCapacity inputs cost).getD 0
    some
      { counts := stages.map StageCost.nLayers
        bounds := bounds
        attentionCounts := stages.map StageCost.nAttention
        stages := stages
        floorTokens := minOf caps
        stageTokens := caps }

end Floor

/-! ### The seam -/

/-- The seam of a stage at a token count. -/
def seamAt (fixed slope : List ℚ) (tokens : ℚ) (stage : ℕ) : ℚ :=
  fixed.getD stage 0 + slope.getD stage 0 * tokens / mib

/-- The ranks with the seam priced at a token count. -/
def seamRanks (inputs : PPCutInputs) (fixed slope : List ℚ) (tokens : ℚ) : List RankResources :=
  inputs.ranks.mapIdx fun i r => { r with seamStagingMib := seamAt fixed slope tokens i }

theorem length_seamRanks (inputs : PPCutInputs) (fixed slope : List ℚ) (tokens : ℚ) :
    (seamRanks inputs fixed slope tokens).length = inputs.ranks.length := List.length_mapIdx

theorem seamRanks_ne (inputs : PPCutInputs) (fixed slope : List ℚ) (tokens : ℚ) :
    seamRanks inputs fixed slope tokens ≠ [] := by
  have hlen := length_seamRanks inputs fixed slope tokens
  have hpos := List.length_pos_iff.mpr inputs.ranks_ne
  exact List.length_pos_iff.mp (hlen ▸ hpos)

/-- `_with_seam`. -/
def withSeam (inputs : PPCutInputs) (fixed slope : List ℚ) (tokens : ℚ) : PPCutInputs :=
  { inputs with
    ranks := seamRanks inputs fixed slope tokens
    ranks_ne := seamRanks_ne inputs fixed slope tokens
    ranks_le := (length_seamRanks inputs fixed slope tokens).trans_le inputs.ranks_le }

/-- `KvFloorFixedPoint`; the solution is `none` when the last solve found none. -/
structure KvFloorFixedPoint where
  solution : Option KvFloorSolution
  seamStagingMib : List ℚ
  iterations : ℕ
  converged : Bool

/-- The iteration, with so many rounds left after the first `done`. -/
def seamLoop (inputs : PPCutInputs) (fixed slope : List ℚ) (tolerance : ℚ) :
    ℕ → ℕ → ℚ → Option KvFloorSolution × List ℚ → KvFloorFixedPoint
  | 0, done, _, last => ⟨last.1, last.2, done, false⟩
  | left + 1, done, tokens, _ =>
    let priced := withSeam inputs fixed slope tokens
    let seam := priced.ranks.map RankResources.seamStagingMib
    match solveKvFloor priced true with
    | none => ⟨none, seam, done + 1, false⟩
    | some sol =>
      if |sol.floorTokens - tokens| ≤ tolerance then ⟨some sol, seam, done + 1, true⟩
      else seamLoop inputs fixed slope tolerance left (done + 1) sol.floorTokens (some sol, seam)

/-- What the search for the fixed point raises. -/
inductive SeamError where
  /-- The seam terms do not cover the stages. -/
  | notCovered
  deriving DecidableEq

/-- `solve_pp_cut_for_kv_floor_at_seam_fixed_point`. -/
def seamFixedPoint (inputs : PPCutInputs) (fixed slope : List ℚ) (tolerance : ℚ)
    (maxIterations : ℕ) : Except SeamError KvFloorFixedPoint :=
  if fixed.length ≠ inputs.ppSize ∨ slope.length ≠ inputs.ppSize then .error .notCovered
  else .ok (seamLoop inputs fixed slope tolerance maxIterations 0 inputs.arenaTokens (none, []))

/-! ### The floor of a cut -/

section HasFloor

variable {inputs : PPCutInputs} {requireAttention : Bool} {bounds : List ℕ} {f f' v : ℚ}

/-- A cut all of whose stages hold `v` tokens. -/
def Holds (inputs : PPCutInputs) (requireAttention : Bool) (v : ℚ) (bounds : List ℕ) : Prop :=
  IsCut (fun i p q => ∃ cap, capacityAt inputs requireAttention i p q = some cap ∧ v ≤ cap)
    inputs.ppSize inputs.nLayers bounds

/-- The floor of a cut: all of its stages hold it, and one holds no more. -/
def HasFloor (inputs : PPCutInputs) (requireAttention : Bool) (bounds : List ℕ) (f : ℚ) : Prop :=
  Holds inputs requireAttention f bounds ∧ ∃ i p q, (spans bounds)[i]? = some (p, q) ∧
    capacityAt inputs requireAttention i p q = some f

/-- A cut holds what its floor is, and no more. -/
theorem HasFloor.le (h : HasFloor inputs requireAttention bounds f)
    (hv : Holds inputs requireAttention v bounds) : v ≤ f := by
  obtain ⟨i, p, q, hi, hcap⟩ := h.2
  obtain ⟨cap, hcap', hle⟩ := (isCut_iff.mp hv).2 i p q hi
  rw [hcap] at hcap'
  cases hcap'
  exact hle

theorem HasFloor.unique (h : HasFloor inputs requireAttention bounds f)
    (h' : HasFloor inputs requireAttention bounds f') : f = f' :=
  le_antisymm (h'.le h.1) (h.le h'.1)

theorem spans_ne_nil {P : ℕ → ℕ → ℕ → Prop}
    (hcut : IsCut P inputs.ppSize inputs.nLayers bounds) : spans bounds ≠ [] := by
  have hlen : (spans bounds).length = inputs.ppSize := by rw [length_spans, hcut.length_eq]
  exact List.length_pos_iff.mp (hlen ▸ inputs.ppSize_pos)

/-- The smallest of the numbers of the runs of a cut is the number of a run. -/
theorem minOf_runs (g : ℕ → ℕ → ℕ → ℚ) {P : ℕ → ℕ → ℕ → Prop}
    (hcut : IsCut P inputs.ppSize inputs.nLayers bounds) :
    (∀ i p q, (spans bounds)[i]? = some (p, q) →
      minOf ((spans bounds).mapIdx fun i run => g i run.1 run.2) ≤ g i p q) ∧
    ∃ i p q, (spans bounds)[i]? = some (p, q) ∧
      g i p q = minOf ((spans bounds).mapIdx fun i run => g i run.1 run.2) := by
  have hne : (spans bounds).mapIdx (fun i run => g i run.1 run.2) ≠ [] := by
    rw [Ne, List.mapIdx_eq_nil_iff]
    exact spans_ne_nil hcut
  constructor
  · intro i p q hi
    obtain ⟨hlt, hpair⟩ := List.getElem?_eq_some_iff.mp hi
    refine (le_minOf_iff hne).mp le_rfl _ (List.mem_mapIdx.mpr ⟨i, hlt, ?_⟩)
    rw [hpair]
  · obtain ⟨i, hlt, hval⟩ := List.mem_mapIdx.mp (minOf_mem hne)
    exact ⟨i, _, _, List.getElem?_eq_getElem hlt, hval⟩

/-- A cut all of whose stages have a capacity has a floor. -/
theorem hasFloor_minOf (h : IsCut (fun i p q =>
      ∃ cap, capacityAt inputs requireAttention i p q = some cap)
      inputs.ppSize inputs.nLayers bounds) :
    HasFloor inputs requireAttention bounds (minOf ((spans bounds).mapIdx fun i run =>
      (capacityAt inputs requireAttention i run.1 run.2).getD 0)) := by
  obtain ⟨hle, i, p, q, hi, hval⟩ := minOf_runs
    (fun i p q => (capacityAt inputs requireAttention i p q).getD 0) h
  have hparts := isCut_iff.mp h
  refine ⟨isCut_iff.mpr ⟨hparts.1, fun i p q hi => ?_⟩, i, p, q, hi, ?_⟩
  · obtain ⟨cap, hcap⟩ := hparts.2 i p q hi
    refine ⟨cap, hcap, (hle i p q hi).trans (le_of_eq ?_)⟩
    rw [hcap]
    rfl
  · obtain ⟨cap, hcap⟩ := hparts.2 i p q hi
    rw [hcap] at hval ⊢
    exact congrArg some hval

/-- A cut that holds something has a floor, at least as high. -/
theorem Holds.exists_floor (h : Holds inputs requireAttention v bounds) :
    ∃ f, v ≤ f ∧ HasFloor inputs requireAttention bounds f := by
  have hfloor := hasFloor_minOf (h.mono fun i p q ⟨cap, hcap, _⟩ => ⟨cap, hcap⟩)
  exact ⟨_, hfloor.le h, hfloor⟩

/-! ### Counts and bounds -/

theorem boundsFrom_append (acc c : ℕ) (cs : List ℕ) :
    boundsFrom acc (cs ++ [c]) = boundsFrom acc cs ++ [acc + cs.sum + c] := by
  induction cs generalizing acc with
  | nil => simp [boundsFrom]
  | cons d cs ih => simp [boundsFrom, ih, Nat.add_assoc]

/-- Counts are a cut exactly when none of them is zero. -/
theorem isCut_boundsFrom_iff {k n : ℕ} {counts : List ℕ} :
    IsCut (fun _ _ _ => True) k n (boundsFrom 0 counts) ↔
      counts.length = k ∧ counts.sum = n ∧ ∀ c ∈ counts, 1 ≤ c := by
  induction counts using List.reverseRecOn generalizing k n with
  | nil =>
    rw [boundsFrom, isCut_nil_iff]
    constructor
    · rintro ⟨rfl, rfl⟩
      exact ⟨rfl, rfl, fun _ hc => absurd hc List.not_mem_nil⟩
    · rintro ⟨rfl, rfl, -⟩
      exact ⟨rfl, rfl⟩
  | append_singleton cs c ih =>
    rw [boundsFrom_append, isCut_append_iff]
    simp only [List.length_append, List.length_singleton, List.sum_append, List.sum_singleton,
      List.mem_append, List.mem_singleton, Nat.zero_add]
    constructor
    · rintro ⟨s, p, rfl, rfl, h, hp, -⟩
      obtain ⟨hlen, hsum, hall⟩ := ih.mp h
      refine ⟨by rw [hlen], rfl, ?_⟩
      rintro d (hd | rfl)
      · exact hall d hd
      · omega
    · rintro ⟨rfl, rfl, hall⟩
      have hc := hall c (.inr rfl)
      exact ⟨cs.length, cs.sum, rfl, rfl, ih.mpr ⟨rfl, rfl, fun d hd => hall d (.inl hd)⟩,
        by omega, trivial⟩

theorem getLast?_boundsFrom (counts : List ℕ) :
    (boundsFrom 0 counts).getLast? = if counts = [] then none else some counts.sum := by
  induction counts using List.reverseRecOn with
  | nil => rfl
  | append_singleton cs c _ => simp [boundsFrom_append]

/-- The checks of `world_kv_floor` on the counts are passed by a cut and by nothing else. -/
theorem isCut_iff_checks {counts : List ℕ} :
    IsCut (fun _ _ _ => True) inputs.ppSize inputs.nLayers (boundsFrom 0 counts) ↔
      ¬ (counts.length ≠ inputs.ppSize ∨
        (boundsFrom 0 counts).getLast? ≠ some inputs.nLayers) ∧ ¬ ∃ c ∈ counts, c < 1 := by
  rw [isCut_boundsFrom_iff, getLast?_boundsFrom]
  have hpos := inputs.ppSize_pos
  by_cases hne : counts = []
  · subst hne
    refine ⟨fun h => absurd h.1 (by simpa using hpos.ne), fun h => ?_⟩
    exact absurd (Or.inl (by simpa using hpos.ne)) h.1
  · simp only [if_neg hne, ne_eq, Option.some.injEq, not_or, not_not, not_exists, not_and, not_lt,
      and_assoc]

/-- `world_kv_floor` computes the floor. -/
theorem worldKvFloor_eq_some {counts : List ℕ} :
    worldKvFloor inputs requireAttention counts = some f ↔
      HasFloor inputs requireAttention (boundsFrom 0 counts) f := by
  have hcaps : (∃ cap ∈ (spans (boundsFrom 0 counts)).mapIdx
      (fun i run => capacityAt inputs requireAttention i run.1 run.2), cap = none) ↔
      ¬ ∀ i p q, (spans (boundsFrom 0 counts))[i]? = some (p, q) →
        ∃ cap, capacityAt inputs requireAttention i p q = some cap := by
    constructor
    · rintro ⟨cap, hmem, rfl⟩ hall
      obtain ⟨i, hlt, hnone⟩ := List.mem_mapIdx.mp hmem
      obtain ⟨cap, hcap⟩ := hall i _ _ (List.getElem?_eq_getElem hlt)
      cases hnone.symm.trans hcap
    · intro hall
      simp only [not_forall] at hall
      obtain ⟨i, p, q, hi, hno⟩ := hall
      obtain ⟨hlt, hpair⟩ := List.getElem?_eq_some_iff.mp hi
      refine ⟨none, List.mem_mapIdx.mpr ⟨i, hlt, ?_⟩, rfl⟩
      rw [hpair]
      exact Option.eq_none_iff_forall_ne_some.mpr fun cap hcap => hno ⟨cap, hcap⟩
  have hvalue : ∀ l : List (ℕ × ℕ), (l.mapIdx fun i run =>
      capacityAt inputs requireAttention i run.1 run.2).map (fun cap => cap.getD 0) =
      l.mapIdx fun i run => (capacityAt inputs requireAttention i run.1 run.2).getD 0 :=
    fun l => List.ext_getElem? fun i => by
      simp [List.getElem?_map, List.getElem?_mapIdx, Function.comp_def]
  unfold worldKvFloor
  dsimp only
  rw [hvalue]
  constructor
  · intro h
    split_ifs at h with hshape hzero hnone
    rw [hcaps, not_not] at hnone
    have hfloor := hasFloor_minOf (isCut_iff.mpr ⟨isCut_iff_checks.mpr ⟨hshape, hzero⟩, hnone⟩)
    rwa [Option.some.inj h] at hfloor
  · intro h
    have hsome := h.1.mono fun i p q ⟨cap, hcap, _⟩ => (⟨cap, hcap⟩ : ∃ cap,
      capacityAt inputs requireAttention i p q = some cap)
    have hparts := isCut_iff.mp hsome
    have hchecks := isCut_iff_checks.mp hparts.1
    rw [if_neg hchecks.1, if_neg hchecks.2, if_neg (by rw [hcaps, not_not]; exact hparts.2)]
    exact congrArg some ((hasFloor_minOf hsome).unique h)

/-- The counts of a cut give its bounds back. -/
theorem boundsFrom_counts {P : ℕ → ℕ → ℕ → Prop} {k n : ℕ} (hcut : IsCut P k n bounds) :
    boundsFrom 0 ((stagesOf inputs bounds).map StageCost.nLayers) = bounds ∧
      ((stagesOf inputs bounds).map StageCost.nLayers).sum = n := by
  induction hcut with
  | nil => exact ⟨rfl, rfl⟩
  | @snoc s p b bounds h hp _ ih =>
    have hstages : stagesOf inputs (bounds ++ [b]) =
        stagesOf inputs bounds ++ [priceStage inputs s p b] := by
      rw [stagesOf, spans_append, h.getLast_eq, List.mapIdx_append]
      simp [stagesOf, length_spans, h.length_eq]
    have hlayers : (priceStage inputs s p b).nLayers = b - p := rfl
    rw [hstages, List.map_append, List.map_singleton, boundsFrom_append, ih.1, ih.2, hlayers,
      List.sum_append, List.sum_singleton, ih.2]
    have hb : p + (b - p) = b := by omega
    rw [Nat.zero_add, hb]
    exact ⟨rfl, rfl⟩

/-! ### The solver is exact -/

theorem le_tokensOf_iff {i p q : ℕ} {w : WithBot (WithTop ℚ)} (hw : w ≠ ⊥) :
    w ≤ tokensOf inputs requireAttention i p q ↔
      ∃ cap, capacityAt inputs requireAttention i p q = some cap ∧ w ≤ (cap : WithTop ℚ) := by
  unfold tokensOf
  split
  next cap hcap =>
    refine ⟨fun h => ⟨cap, hcap, h⟩, ?_⟩
    rintro ⟨cap', hcap', h⟩
    rw [hcap] at hcap'
    cases hcap'
    exact h
  next hcap =>
    refine ⟨fun h => absurd (le_bot_iff.mp h) hw, ?_⟩
    rintro ⟨cap', hcap', -⟩
    rw [hcap] at hcap'
    cases hcap'

theorem capacity_of_capacityAt {i p q : ℕ} {cap : ℚ}
    (h : capacityAt inputs requireAttention i p q = some cap) :
    stageKvCapacity inputs (priceStage inputs i p q) = some cap := by
  unfold capacityAt at h
  dsimp only at h
  split_ifs at h
  exact h

/-- **The solver is exact.** The floor it reports is the floor of the cut it returns, and no cut has
a higher one. -/
theorem solveKvFloor_exact {sol : KvFloorSolution}
    (h : solveKvFloor inputs requireAttention = some sol) :
    HasFloor inputs requireAttention (boundsFrom 0 sol.counts) sol.floorTokens ∧
      ∀ bounds f, HasFloor inputs requireAttention bounds f → f ≤ sol.floorTokens := by
  unfold solveKvFloor at h
  dsimp only at h
  split_ifs at h with hbot
  cases h
  dsimp only
  generalize hcutdef : walkBack _ inputs.ppSize inputs.nLayers = cut
  have hcut := isCut_walkBack _ _ hbot
  rw [hcutdef] at hcut
  have hparts := isCut_iff.mp hcut
  have hruns := fun i p q hi => (le_tokensOf_iff hbot).mp (hparts.2 i p q hi)
  -- the reported capacities are those of the runs
  have hfloor := hasFloor_minOf (isCut_iff.mpr ⟨hparts.1, fun i p q hi =>
    (hruns i p q hi).imp fun _ hcap => hcap.1⟩)
  have hreport : (stagesOf inputs cut).map (fun cost => (stageKvCapacity inputs cost).getD 0) =
      (spans cut).mapIdx fun i run =>
        (capacityAt inputs requireAttention i run.1 run.2).getD 0 := by
    refine List.ext_getElem? fun i => ?_
    rw [List.getElem?_map, stagesOf, List.getElem?_mapIdx, List.getElem?_mapIdx]
    rcases hi : (spans cut)[i]? with _ | ⟨p, q⟩
    · rfl
    · obtain ⟨cap, hcap, -⟩ := hruns i p q hi
      simp only [Option.map_some, hcap, capacity_of_capacityAt hcap]
  rw [hreport, (boundsFrom_counts hparts.1).1]
  refine ⟨hfloor, fun bounds f hf => ?_⟩
  have hle : ((f : WithTop ℚ) : WithBot (WithTop ℚ)) ≤
      (cutTable (tokensOf inputs requireAttention) ⊤ inputs.ppSize inputs.nLayers
        inputs.ppSize inputs.nLayers).1 := by
    have hne : ((f : WithTop ℚ) : WithBot (WithTop ℚ)) ≠ ⊥ := WithBot.coe_ne_bot
    rw [cutTable_fst _ _ le_rfl inputs.ppSize_le (by omega),
      le_maximin_iff _ _ (bot_lt_iff_ne_bot.mpr hne) le_top]
    refine ⟨bounds, hf.1.mono fun i p q hcap => ?_⟩
    obtain ⟨cap, hcap, hle⟩ := hcap
    refine (le_tokensOf_iff hne).mpr ⟨cap, hcap, ?_⟩
    rw [WithBot.coe_le_coe, WithTop.coe_le_coe]
    exact hle
  obtain ⟨i, p, q, hi, hcap⟩ := hfloor.2
  obtain ⟨cap, hcap', hle'⟩ := hruns i p q hi
  rw [hcap] at hcap'
  have hfinal := hle.trans hle'
  rw [← Option.some.inj hcap', WithBot.coe_le_coe, WithTop.coe_le_coe] at hfinal
  exact hfinal

end HasFloor

/-! ### Capacities are falling lines -/

section Seam

variable {inputs : PPCutInputs} {fixed slope : List ℚ}

/-- Where a stage can have a capacity at all: it has a KV pool and, where this matters, an attention
layer. -/
def HasPool (inputs : PPCutInputs) (i p q : ℕ) : Prop :=
  0 < (priceStage inputs i p q).kvMib ∧ ¬ (inputs.hybrid ∧ (priceStage inputs i p q).nAttention = 0)

/-- The capacity with the seam priced at no tokens. -/
def lineStart (inputs : PPCutInputs) (fixed : List ℚ) (i p q : ℕ) : ℚ :=
  let cost := priceStage inputs i p q
  (cost.headroomMib - fixed.getD i 0 + cost.kvMib) * inputs.arenaTokens / cost.kvMib

/-- What a token of the seam takes from the capacity. -/
def lineFall (inputs : PPCutInputs) (slope : List ℚ) (i p q : ℕ) : ℚ :=
  slope.getD i 0 / mib * inputs.arenaTokens / (priceStage inputs i p q).kvMib

/-- Pricing the seam changes one post of a stage. -/
theorem priceStage_withSeam {i : ℕ} (hi : i < inputs.ppSize) (p q : ℕ) (t : ℚ) :
    priceStage (withSeam inputs fixed slope t) i p q =
      { priceStage inputs i p q with seamStagingMib := seamAt fixed slope t i } := by
  have hsize : (withSeam inputs fixed slope t).ppSize = inputs.ppSize := length_seamRanks _ _ _ _
  have hrank : (withSeam inputs fixed slope t).rank i =
      { inputs.rank i with seamStagingMib := seamAt fixed slope t i } := by
    obtain ⟨r, hget⟩ : ∃ r, inputs.ranks[i]? = some r := ⟨_, List.getElem?_eq_getElem hi⟩
    simp [PPCutInputs.rank, withSeam, seamRanks, List.getElem?_mapIdx, hget]
  simp only [priceStage, attnCore, hrank, hsize]
  rfl

theorem lineFall_nonneg (hslope : ∀ x ∈ slope, 0 ≤ x) {i p q : ℕ} (hpool : HasPool inputs i p q) :
    0 ≤ lineFall inputs slope i p q := by
  have hget : 0 ≤ slope.getD i 0 := by
    rw [List.getD_eq_getElem?_getD]
    rcases hi : slope[i]? with _ | x
    · exact le_rfl
    · exact hslope x (List.mem_of_getElem? hi)
  have hkv := hpool.1
  have hmib : 0 < mib := by norm_num [mib]
  unfold lineFall
  positivity

/-- A stage is feasible exactly while its capacity is above the arena. -/
theorem arena_le_iff {arena kv room : ℚ} (harena : 0 < arena) (hkv : 0 < kv) :
    arena ≤ (room + kv) * arena / kv ↔ 0 ≤ room := by
  rw [le_div_iff₀ hkv, add_mul, mul_comm kv arena, le_add_iff_nonneg_left]
  exact mul_nonneg_iff_of_pos_right harena

/-- The capacity of a stage, as a line that counts while it is above the arena. -/
theorem capacityAt_withSeam (harena : 0 < inputs.arenaTokens) {i : ℕ} (hi : i < inputs.ppSize)
    (p q : ℕ) (t cap : ℚ) :
    capacityAt (withSeam inputs fixed slope t) true i p q = some cap ↔
      HasPool inputs i p q ∧ inputs.arenaTokens ≤ cap ∧
        cap = lineStart inputs fixed i p q - lineFall inputs slope i p q * t := by
  have hpos : (0 : ℚ) < inputs.arenaTokens := Nat.cast_pos.mpr harena
  have hline : lineStart inputs fixed i p q - lineFall inputs slope i p q * t =
      ((priceStage inputs i p q).headroomMib - seamAt fixed slope t i +
        (priceStage inputs i p q).kvMib) * inputs.arenaTokens /
          (priceStage inputs i p q).kvMib := by
    simp only [lineStart, lineFall, seamAt]
    ring
  rw [hline]
  unfold capacityAt stageKvCapacity
  rw [priceStage_withSeam hi]
  dsimp only
  constructor
  · intro h
    split_ifs at h with hadm hnone hspend
    have hkv : 0 < (priceStage inputs i p q).kvMib := by
      by_contra hkv
      exact hnone (.inr (not_lt.mp hkv))
    refine ⟨⟨hkv, fun hattn => hadm.2 ⟨rfl, hattn⟩⟩, ?_, (Option.some.inj h).symm⟩
    rw [← Option.some.inj h]
    exact (arena_le_iff hpos hkv).mpr hadm.1
  · rintro ⟨⟨hkv, hattn⟩, habove, rfl⟩
    have hroom := (arena_le_iff hpos hkv).mp habove
    rw [if_pos, if_neg, if_neg]
    · rfl
    · exact not_le.mpr (add_pos_of_nonneg_of_pos hroom hkv)
    · rintro (harena | hnone)
      · exact absurd harena (not_le.mpr hpos)
      · exact absurd hnone (not_le.mpr hkv)
    · exact ⟨hroom, fun h => hattn h.2⟩

/-! ### One cut and its fixed point -/

/-- The capacity of a run with the seam priced at `t`. -/
def lineAt (inputs : PPCutInputs) (fixed slope : List ℚ) (t : ℚ) (i p q : ℕ) : ℚ :=
  lineStart inputs fixed i p q - lineFall inputs slope i p q * t

variable {bounds : List ℕ} {t t' v f : ℚ}

/-- What a cut holds, in terms of the lines of its runs. -/
theorem holds_withSeam_iff (harena : 0 < inputs.arenaTokens) :
    Holds (withSeam inputs fixed slope t) true v bounds ↔
      IsCut (fun _ _ _ => True) inputs.ppSize inputs.nLayers bounds ∧
        ∀ i p q, (spans bounds)[i]? = some (p, q) → HasPool inputs i p q ∧
          inputs.arenaTokens ≤ lineAt inputs fixed slope t i p q ∧
          v ≤ lineAt inputs fixed slope t i p q := by
  have hsize : (withSeam inputs fixed slope t).ppSize = inputs.ppSize := length_seamRanks _ _ _ _
  unfold Holds
  rw [isCut_iff, hsize]
  refine and_congr_right fun hcut => forall₄_congr fun i p q hi => ?_
  have hlt : i < inputs.ppSize := by
    have := (List.getElem?_eq_some_iff.mp hi).1
    rwa [length_spans, hcut.length_eq] at this
  simp only [capacityAt_withSeam harena hlt]
  constructor
  · rintro ⟨cap, ⟨hpool, habove, hcap⟩, hle⟩
    subst hcap
    exact ⟨hpool, habove, hle⟩
  · rintro ⟨hpool, habove, hle⟩
    exact ⟨_, ⟨hpool, habove, rfl⟩, hle⟩

/-- With less seam a cut holds no less. -/
theorem Holds.mono_seam (harena : 0 < inputs.arenaTokens) (hslope : ∀ x ∈ slope, 0 ≤ x)
    (h : Holds (withSeam inputs fixed slope t) true v bounds) (ht : t' ≤ t) :
    Holds (withSeam inputs fixed slope t') true v bounds := by
  rw [holds_withSeam_iff harena] at h ⊢
  refine ⟨h.1, fun i p q hi => ?_⟩
  obtain ⟨hpool, habove, hle⟩ := h.2 i p q hi
  have hline : lineAt inputs fixed slope t i p q ≤ lineAt inputs fixed slope t' i p q :=
    sub_le_sub_left (mul_le_mul_of_nonneg_left ht (lineFall_nonneg hslope hpool)) _
  exact ⟨hpool, habove.trans hline, hle.trans hline⟩

/-- A floor is not below the arena. -/
theorem HasFloor.arena_le (harena : 0 < inputs.arenaTokens)
    (h : HasFloor (withSeam inputs fixed slope t) true bounds f) :
    (inputs.arenaTokens : ℚ) ≤ f := by
  have hlines := (holds_withSeam_iff harena).mp h.1
  obtain ⟨i, p, q, hi, hcap⟩ := h.2
  have hlt : i < inputs.ppSize := by
    have := (List.getElem?_eq_some_iff.mp hi).1
    rwa [length_spans, hlines.1.length_eq] at this
  exact ((capacityAt_withSeam harena hlt p q t f).mp hcap).2.1

/-- A cut that holds something at the arena has a fixed point. -/
theorem exists_fixed_point (harena : 0 < inputs.arenaTokens) (hslope : ∀ x ∈ slope, 0 ≤ x)
    (h : Holds (withSeam inputs fixed slope inputs.arenaTokens) true v bounds) :
    ∃ t, HasFloor (withSeam inputs fixed slope t) true bounds t := by
  obtain ⟨hcut, hlines⟩ := (holds_withSeam_iff harena).mp h
  -- the line of a run meets the diagonal at `start / (1 + fall)`
  obtain ⟨hle, j, pj, qj, hj, hmin⟩ := minOf_runs (fun i p q =>
    lineStart inputs fixed i p q / (1 + lineFall inputs slope i p q)) hcut
  generalize minOf ((spans bounds).mapIdx fun i run => lineStart inputs fixed i run.1 run.2 /
    (1 + lineFall inputs slope i run.1 run.2)) = t at hle hmin
  have hpos : ∀ i p q, (spans bounds)[i]? = some (p, q) →
      0 < 1 + lineFall inputs slope i p q := fun i p q hi =>
    add_pos_of_pos_of_nonneg one_pos (lineFall_nonneg hslope (hlines i p q hi).1)
  have hbelow : ∀ i p q, (spans bounds)[i]? = some (p, q) →
      t ≤ lineAt inputs fixed slope t i p q := by
    intro i p q hi
    have hmul := (le_div_iff₀ (hpos i p q hi)).mp (hle i p q hi)
    unfold lineAt
    linarith
  have hmeet : lineAt inputs fixed slope t j pj qj = t := by
    have hmul := (div_eq_iff (hpos j pj qj hj).ne').mp hmin
    unfold lineAt
    linarith
  have habove : (inputs.arenaTokens : ℚ) ≤ t := by
    rw [← hmin, le_div_iff₀ (hpos j pj qj hj)]
    have hline := (hlines j pj qj hj).2.1
    unfold lineAt at hline
    linarith
  have hlt : j < inputs.ppSize := by
    have := (List.getElem?_eq_some_iff.mp hj).1
    rwa [length_spans, hcut.length_eq] at this
  refine ⟨t, (holds_withSeam_iff harena).mpr ⟨hcut, fun i p q hi => ?_⟩, j, pj, qj, hj, ?_⟩
  · exact ⟨(hlines i p q hi).1, habove.trans (hbelow i p q hi), hbelow i p q hi⟩
  · exact (capacityAt_withSeam harena hlt pj qj t t).mpr ⟨(hlines j pj qj hj).1, habove, hmeet.symm⟩

/-- The fixed point of a cut lies between the token count a floor was computed at and the floor. -/
theorem HasFloor.between (harena : 0 < inputs.arenaTokens) (hslope : ∀ x ∈ slope, 0 ≤ x) {u : ℚ}
    (h : HasFloor (withSeam inputs fixed slope t) true bounds f)
    (hu : HasFloor (withSeam inputs fixed slope u) true bounds u) :
    (f ≤ u ∧ u ≤ t) ∨ (t ≤ u ∧ u ≤ f) := by
  rcases le_total u t with hut | htu
  · exact .inl ⟨hu.le (h.1.mono_seam harena hslope hut), hut⟩
  · exact .inr ⟨htu, h.le (hu.1.mono_seam harena hslope htu)⟩

/-! ### The iteration -/

/-- What the iteration has found when it says that it has converged. -/
theorem seamLoop_converged (harena : 0 < inputs.arenaTokens) {tolerance : ℚ} (left done : ℕ)
    (last : Option KvFloorSolution × List ℚ) (ht : (inputs.arenaTokens : ℚ) ≤ t)
    (h : (seamLoop inputs fixed slope tolerance left done t last).converged = true) :
    ∃ u sol, (inputs.arenaTokens : ℚ) ≤ u ∧
      solveKvFloor (withSeam inputs fixed slope u) true = some sol ∧
      |sol.floorTokens - u| ≤ tolerance ∧
      (seamLoop inputs fixed slope tolerance left done t last).solution = some sol := by
  induction left generalizing done t last with
  | zero => cases h
  | succ left ih =>
    rw [seamLoop] at h ⊢
    cases hsol : solveKvFloor (withSeam inputs fixed slope t) true with
    | none => simp [hsol] at h
    | some sol =>
      simp only [hsol] at h ⊢
      by_cases hclose : |sol.floorTokens - t| ≤ tolerance
      · rw [if_pos hclose]
        exact ⟨t, sol, ht, hsol, hclose, rfl⟩
      · rw [if_neg hclose] at h ⊢
        have hfloor := (solveKvFloor_exact hsol).1.arena_le harena
        exact ih (done + 1) _ hfloor h

/-- **A converged fixed point is near-optimal.** When the search converges, the cut it returns has
exactly one fixed point, within the tolerance of the reported floor, and no cut has a fixed point
above the floor by more than the tolerance. -/
theorem seamFixedPoint_near_optimal (harena : 0 < inputs.arenaTokens)
    (hslope : ∀ x ∈ slope, 0 ≤ x) {tolerance : ℚ} {maxIterations : ℕ} {result : KvFloorFixedPoint}
    (hresult : seamFixedPoint inputs fixed slope tolerance maxIterations = .ok result)
    (hconverged : result.converged = true) :
    ∃ sol, result.solution = some sol ∧
      (∃ t, worldKvFloor (withSeam inputs fixed slope t) true sol.counts = some t ∧
        |t - sol.floorTokens| ≤ tolerance ∧
        ∀ u, worldKvFloor (withSeam inputs fixed slope u) true sol.counts = some u → u = t) ∧
      ∀ counts u, worldKvFloor (withSeam inputs fixed slope u) true counts = some u →
        u ≤ sol.floorTokens + tolerance := by
  unfold seamFixedPoint at hresult
  split_ifs at hresult with hcover
  cases hresult
  obtain ⟨t, sol, ht, hsol, hclose, hreturned⟩ :=
    seamLoop_converged harena maxIterations 0 (none, []) le_rfl hconverged
  obtain ⟨hfloor, hbest⟩ := solveKvFloor_exact hsol
  obtain ⟨habove, hbelow⟩ := abs_le.mp hclose
  refine ⟨sol, hreturned, ?_, fun counts u hu => ?_⟩
  · obtain ⟨u, hu⟩ := exists_fixed_point harena hslope (hfloor.1.mono_seam harena hslope ht)
    refine ⟨u, worldKvFloor_eq_some.mpr hu, ?_, fun w hw => ?_⟩
    · rw [abs_le]
      rcases hfloor.between harena hslope hu with ⟨h₁, h₂⟩ | ⟨h₁, h₂⟩
      · exact ⟨by linarith, by linarith⟩
      · exact ⟨by linarith, by linarith⟩
    · rcases hu.between harena hslope (worldKvFloor_eq_some.mp hw) with ⟨h₁, h₂⟩ | ⟨h₁, h₂⟩
      · exact le_antisymm h₂ h₁
      · exact le_antisymm h₂ h₁
  · have hu' := worldKvFloor_eq_some.mp hu
    rcases le_total u t with hut | htu
    · linarith
    · -- the cut would have had this floor where the solver looked
      obtain ⟨f, hle, hf⟩ := (hu'.1.mono_seam harena hslope htu).exists_floor
      have := hbest _ f hf
      linarith

end Seam

/-- With half a MiB of seam a token on the first rank and a quarter on the second the search
converges, so its cut has a fixed point near the floor it reports, and no other cut has one above.
-/
theorem seamFixedPoint_near_optimal_half :
    ∃ result, seamFixedPoint fourLayers [0, 0] [mib / 2, mib / 4] 50 40 = .ok result ∧
      result.converged = true ∧ ∃ sol t, result.solution = some sol ∧
        worldKvFloor (withSeam fourLayers [0, 0] [mib / 2, mib / 4] t) true sol.counts = some t ∧
        |t - sol.floorTokens| ≤ 50 ∧
        ∀ counts u, worldKvFloor (withSeam fourLayers [0, 0] [mib / 2, mib / 4] u) true counts =
          some u → u ≤ sol.floorTokens + 50 := by
  have hrun : (match seamFixedPoint fourLayers [0, 0] [mib / 2, mib / 4] 50 40 with
    | .ok result => result.converged
    | .error _ => false) = true := by decide +kernel
  cases hresult : seamFixedPoint fourLayers [0, 0] [mib / 2, mib / 4] 50 40 with
  | error err => simp [hresult] at hrun
  | ok result =>
    rw [hresult] at hrun
    have hslope : ∀ x ∈ [mib / 2, mib / 4], (0 : ℚ) ≤ x := by norm_num [mib]
    obtain ⟨sol, hsol, ⟨t, ht, hclose, -⟩, hbest⟩ :=
      seamFixedPoint_near_optimal (by decide) hslope hresult hrun
    exact ⟨result, rfl, hrun, sol, t, hsol, ht, hclose, hbest⟩

end HtSglang.PpCut
