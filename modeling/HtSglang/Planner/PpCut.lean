import Mathlib
import HtSglang.Library.Cuts

/-!
# The cut of a model into pipeline stages

`planner/pp_cut.py`: the layers of a model are cut into contiguous stages, one a rank. Every stage
is priced, its time for a chunk and the memory it needs, and `solve_pp_cut` looks for the cut whose
slowest stage is fastest and then, among the cuts that are not much slower, for the one whose
tightest stage has the most room. Numbers are exact here where the code has floats.

## Two passes over one table

Both passes go over the place of the last boundary. The first keeps the smallest maximum of the
stage times and skips a start that is already too slow; the second keeps the largest minimum of the
headrooms, over the stages within a ceiling, and remembers the boundary. Both are instances of
`HtSglang.cutTable`, the first in the dual order, so their exactness is
`HtSglang.le_maximin_iff`, and `HtSglang.PpCut.solvePpCut_exact` puts the two together.

## Where the first pass starts

`best[0][0]` is `0.0`, so what the first pass finds is the smallest makespan from zero on. A stage
takes no less, as the FLOPs it is priced by are counts (`HtSglang.PpCut.totalSeconds_nonneg`).
-/

namespace HtSglang.PpCut

/-! ### The inputs -/

/-- The family of a layer. -/
inductive LayerFamily where
  /-- Full attention. -/
  | attention
  /-- Linear attention. -/
  | linear
  deriving DecidableEq

/-- What a rank has. -/
structure RankResources where
  /-- The name of the rank. -/
  label : String
  /-- The bandwidth of the attention core. -/
  attnBwGbs : ℚ
  /-- The matrix rate. -/
  gemmTflops : ℚ
  /-- The memory. -/
  budgetMib : ℚ
  /-- The transient, where there is one measured state. -/
  transientMib : ℚ
  /-- The transient of every load state, where they are measured. -/
  transientByLoadState : Option (List (String × ℚ))
  /-- What is always resident and does not follow the cut. -/
  fixedOverheadMib : ℚ
  /-- What must be free at a cutover. -/
  seamStagingMib : ℚ
  /-- The draft runner. -/
  draftResidencyMib : Option ℚ
  attnBw_pos : 0 < attnBwGbs
  gemm_pos : 0 < gemmTflops

/-- The largest of some numbers, `0` of none. -/
def maxOf (l : List ℚ) : ℚ := l.max?.getD 0

/-- The smallest of some numbers, `0` of none. -/
def minOf (l : List ℚ) : ℚ := l.min?.getD 0

namespace RankResources

variable (r : RankResources)

/-- The measured table, where it is not empty. -/
def loadStates : List (String × ℚ) := r.transientByLoadState.getD []

/-- `worst_transient_mib`. -/
def worstTransientMib : ℚ :=
  if r.loadStates = [] then r.transientMib else maxOf (r.loadStates.map Prod.snd)

/-- `governing_load_state`: the first state with the largest transient. -/
def governingLoadState : Option String :=
  (r.loadStates.find? fun entry => entry.2 = maxOf (r.loadStates.map Prod.snd)).map Prod.fst

end RankResources

/-- `PPCutInputs`. -/
structure PPCutInputs where
  layerFamilies : List LayerFamily
  attnLayerWeightBytes : ℚ
  linearLayerWeightBytes : ℚ
  attnLayerFlopsPerToken : ℚ
  linearLayerFlopsPerToken : ℚ
  attnCoreFlopsPerTokenPair : ℚ
  kvBytesPerTokenPerAttnLayer : ℚ
  kvDepthTokens : ℕ
  prefillChunkTokens : ℕ
  ranks : List RankResources
  embeddingWeightBytes : ℚ
  lmHeadWeightBytes : ℚ
  replicatedWeightBytes : ℚ
  stateBytesPerLinearLayer : ℚ
  kvPoolTokens : ℕ
  tpTokenShares : Option (List ℚ)
  kvSweepsPerChunk : ℚ
  corridorMib : ℚ
  ranks_ne : ranks ≠ []
  ranks_le : ranks.length ≤ layerFamilies.length

namespace PPCutInputs

variable (inputs : PPCutInputs)

/-- `arena_tokens`. -/
def arenaTokens : ℕ :=
  if inputs.kvPoolTokens = 0 then inputs.kvDepthTokens else inputs.kvPoolTokens

/-- `n_layers`. -/
def nLayers : ℕ := inputs.layerFamilies.length

/-- `pp_size`. -/
def ppSize : ℕ := inputs.ranks.length

/-- `n_full_attention`. -/
def nFullAttention : ℕ := inputs.layerFamilies.countP (· = .attention)

/-- The FLOPs are counts. -/
def FlopsNonneg : Prop :=
  0 ≤ inputs.attnLayerFlopsPerToken ∧ 0 ≤ inputs.linearLayerFlopsPerToken ∧
    0 ≤ inputs.attnCoreFlopsPerTokenPair

/-- The rank of a stage. -/
def rank (stage : ℕ) : RankResources :=
  (inputs.ranks[stage]?).getD (inputs.ranks.head inputs.ranks_ne)

/-- Layers of both families. -/
def hybrid : Prop := 0 < inputs.nFullAttention ∧ inputs.nFullAttention < inputs.nLayers

instance : Decidable inputs.hybrid := inferInstanceAs (Decidable (_ ∧ _))

theorem ppSize_pos : 0 < inputs.ppSize := List.length_pos_iff.mpr inputs.ranks_ne

theorem ppSize_le : inputs.ppSize ≤ inputs.nLayers := inputs.ranks_le

end PPCutInputs

/-! ### The price of a stage -/

/-- Which side of the roofline bounds the attention core. -/
inductive Bound where
  | none
  | compute
  | bandwidth
  deriving DecidableEq

/-- `StageCost`. -/
structure StageCost where
  rank : String
  startLayer : ℕ
  endLayer : ℕ
  nLayers : ℕ
  nAttention : ℕ
  attnSeconds : ℚ
  computeSeconds : ℚ
  weightMib : ℚ
  kvMib : ℚ
  transientMib : ℚ
  budgetMib : ℚ
  nonlayerWeightMib : ℚ
  stateMib : ℚ
  attnBoundBy : Bound
  seamStagingMib : ℚ
  transientLoadState : Option String
  fixedOverheadMib : ℚ
  draftMib : ℚ

namespace StageCost

variable (cost : StageCost)

/-- `total_seconds`. -/
def totalSeconds : ℚ := cost.attnSeconds + cost.computeSeconds

/-- `resident_mib`. -/
def residentMib : ℚ :=
  cost.weightMib + cost.nonlayerWeightMib + cost.stateMib + cost.kvMib + cost.transientMib +
    cost.fixedOverheadMib + cost.draftMib

/-- `headroom_mib`. -/
def headroomMib : ℚ := cost.budgetMib - cost.residentMib

/-- `runnable_headroom_mib`. -/
def runnableHeadroomMib : ℚ := cost.headroomMib - cost.seamStagingMib

/-- `feasible`. -/
def feasible : Prop := 0 ≤ cost.runnableHeadroomMib

instance : Decidable cost.feasible := inferInstanceAs (Decidable (_ ≤ _))

end StageCost

/-- Bytes in a MiB. -/
def mib : ℚ := 1024 * 1024

/-- `_prefix_attention`: entry `i` is the number of attention layers before layer `i`. -/
def prefixAttention (families : List LayerFamily) : List ℕ :=
  families.scanl (fun seen family => seen + if family = .attention then 1 else 0) 0

/-- The attention core of a stage: its time and the side of the roofline that bounds it. -/
def attnCore (inputs : PPCutInputs) (stage nAttn : ℕ) : ℚ × Bound :=
  let rank := inputs.rank stage
  let kvBytes := (nAttn : ℚ) * inputs.kvBytesPerTokenPerAttnLayer * inputs.kvDepthTokens
  let coreFlops := (nAttn : ℚ) * inputs.prefillChunkTokens * inputs.kvDepthTokens *
    inputs.attnCoreFlopsPerTokenPair
  let attnCompute := coreFlops / (rank.gemmTflops * 10 ^ 12)
  let attnBw := kvBytes * inputs.kvSweepsPerChunk / (rank.attnBwGbs * 10 ^ 9)
  if nAttn = 0 then (0, .none)
  else if attnBw ≤ attnCompute then (attnCompute, .compute)
  else (attnBw, .bandwidth)

/-- The arena layers of a stage: the larger of its layers and its share of the tokens. -/
def arenaLayers (inputs : PPCutInputs) (stage nAttn : ℕ) : ℚ :=
  match inputs.tpTokenShares with
  | some shares =>
    if 0 < inputs.nFullAttention then max (nAttn : ℚ) (shares.getD stage 0 * inputs.nFullAttention)
    else nAttn
  | none => nAttn

/-- `_price_stage`. -/
def priceStage (inputs : PPCutInputs) (stage start stop : ℕ) : StageCost :=
  let rank := inputs.rank stage
  let pref := prefixAttention inputs.layerFamilies
  let nLayers := stop - start
  let nAttn := pref.getD stop 0 - pref.getD start 0
  let nLinear := nLayers - nAttn
  let core := attnCore inputs stage nAttn
  let flops := (inputs.prefillChunkTokens : ℚ) *
    (nAttn * inputs.attnLayerFlopsPerToken + nLinear * inputs.linearLayerFlopsPerToken)
  let nonlayerBytes := inputs.replicatedWeightBytes +
    (if stage = 0 then inputs.embeddingWeightBytes else 0) +
    if stage = inputs.ppSize - 1 then inputs.lmHeadWeightBytes else 0
  { rank := rank.label
    startLayer := start
    endLayer := stop
    nLayers := nLayers
    nAttention := nAttn
    attnSeconds := core.1
    computeSeconds := flops / (rank.gemmTflops * 10 ^ 12)
    weightMib :=
      (nAttn * inputs.attnLayerWeightBytes + nLinear * inputs.linearLayerWeightBytes) / mib
    kvMib :=
      arenaLayers inputs stage nAttn * inputs.kvBytesPerTokenPerAttnLayer * inputs.arenaTokens / mib
    transientMib := rank.worstTransientMib
    budgetMib := rank.budgetMib - inputs.corridorMib
    nonlayerWeightMib := nonlayerBytes / mib
    stateMib := nLinear * inputs.stateBytesPerLinearLayer / mib
    attnBoundBy := core.2
    seamStagingMib := rank.seamStagingMib
    transientLoadState := rank.governingLoadState
    fixedOverheadMib := rank.fixedOverheadMib
    draftMib := rank.draftResidencyMib.getD 0 }

/-- A stage that fits and, in a model with layers of both families, has an attention layer. -/
def admissible (inputs : PPCutInputs) (requireAttention : Bool) (cost : StageCost) : Prop :=
  cost.feasible ∧ ¬ (requireAttention = true ∧ inputs.hybrid ∧ cost.nAttention = 0)

instance (inputs : PPCutInputs) (requireAttention : Bool) (cost : StageCost) :
    Decidable (admissible inputs requireAttention cost) := inferInstanceAs (Decidable (_ ∧ _))

/-! ### The solver -/

section Solver

variable (inputs : PPCutInputs) (requireAttention : Bool)

/-- The first pass: the smallest maximum of the stage times, with `best[0][0] = 0.0`. A start that
is not reachable, or no better than what is known, is not priced. -/
def bestTime : ℕ → ℕ → WithTop ℚ
  | 0, b => if b = 0 then 0 else ⊤
  | s + 1, b =>
    if s + 1 ≤ b ∧ b ≤ inputs.nLayers - (inputs.ppSize - (s + 1)) then
      (List.range' s (b - s)).foldl (fun acc prev =>
        let base := bestTime s prev
        if base = ⊤ ∨ acc ≤ base then acc
        else
          let cost := priceStage inputs s prev b
          if ¬ admissible inputs requireAttention cost then acc
          else
            let val := if (cost.totalSeconds : WithTop ℚ) < base then base else cost.totalSeconds
            if val < acc then val else acc) ⊤
    else ⊤

/-- What a stage counts in the second pass: its headroom, or nothing when it is not admissible or
too slow. -/
def roomOf (ceiling : ℚ) (stage start stop : ℕ) : WithBot (WithTop ℚ) :=
  let cost := priceStage inputs stage start stop
  if admissible inputs requireAttention cost ∧ cost.totalSeconds ≤ ceiling then
    ((cost.runnableHeadroomMib : WithTop ℚ) : WithBot (WithTop ℚ))
  else ⊥

/-- The second pass: the largest minimum of the headrooms, and the boundary it is reached with. -/
def bestRoom (ceiling : ℚ) : ℕ → ℕ → WithBot (WithTop ℚ) × ℕ :=
  cutTable (roomOf inputs requireAttention ceiling) ⊤ inputs.ppSize inputs.nLayers

/-- The stages of a cut. -/
def stagesOf (bounds : List ℕ) : List StageCost :=
  (spans bounds).mapIdx fun i run => priceStage inputs i run.1 run.2

/-- `PPCutSolution`, for a cut that was found. -/
structure PPCutSolution where
  counts : List ℕ
  bounds : List ℕ
  attentionCounts : List ℕ
  stages : List StageCost
  makespanSeconds : ℚ
  bottleneckStage : ℕ
  minHeadroomMib : ℚ

/-- The slowest stage of a cut. -/
def makespan (bounds : List ℕ) : ℚ := maxOf ((stagesOf inputs bounds).map StageCost.totalSeconds)

/-- The tightest stage of a cut. -/
def minHeadroom (bounds : List ℕ) : ℚ :=
  minOf ((stagesOf inputs bounds).map StageCost.runnableHeadroomMib)

/-- The figures of a cut. -/
def report (bounds : List ℕ) : PPCutSolution :=
  let stages := stagesOf inputs bounds
  let times := stages.map StageCost.totalSeconds
  { counts := stages.map StageCost.nLayers
    bounds := bounds
    attentionCounts := stages.map StageCost.nAttention
    stages := stages
    makespanSeconds := maxOf times
    bottleneckStage := times.idxOf (maxOf times)
    minHeadroomMib := minOf (stages.map StageCost.runnableHeadroomMib) }

/-- What `solve_pp_cut` raises. -/
inductive CutError where
  /-- A slack below `1` would exclude the optimum. -/
  | slackBelowOne
  deriving DecidableEq

/-- `solve_pp_cut`; `none` is the answer that no cut fits. -/
def solvePpCut (slack : ℚ) : Except CutError (Option PPCutSolution) :=
  let n := inputs.nLayers
  let k := inputs.ppSize
  if slack < 1 then .error .slackBelowOne
  else match bestTime inputs requireAttention k n with
    | ⊤ => .ok none
    | (optimal : ℚ) =>
      let room := bestRoom inputs requireAttention (optimal * slack)
      if (room k n).1 = ⊥ then .ok none
      else .ok (some (report inputs (walkBack (fun s b => (room s b).2) k n)))

/-- A contiguous cut into non-empty stages that are all admissible. -/
def Admissible (bounds : List ℕ) : Prop :=
  IsCut (fun i p q => admissible inputs requireAttention (priceStage inputs i p q))
    inputs.ppSize inputs.nLayers bounds

end Solver

/-! ### The figures of a cut -/

theorem maxOf_le_iff {l : List ℚ} (hne : l ≠ []) {v : ℚ} : maxOf l ≤ v ↔ ∀ x ∈ l, x ≤ v := by
  obtain ⟨m, hm⟩ := Option.isSome_iff_exists.mp (List.isSome_max?_iff.mpr hne)
  rw [maxOf, hm]
  exact List.max?_le_iff hm

theorem le_minOf_iff {l : List ℚ} (hne : l ≠ []) {v : ℚ} : v ≤ minOf l ↔ ∀ x ∈ l, v ≤ x := by
  obtain ⟨m, hm⟩ := Option.isSome_iff_exists.mp (List.isSome_min?_iff.mpr hne)
  rw [minOf, hm]
  exact List.le_min?_iff hm

theorem minOf_mem {l : List ℚ} (hne : l ≠ []) : minOf l ∈ l := by
  obtain ⟨m, hm⟩ := Option.isSome_iff_exists.mp (List.isSome_min?_iff.mpr hne)
  rw [minOf, hm]
  exact List.min?_mem hm

section Exactness

variable {inputs : PPCutInputs} {requireAttention : Bool} {bounds : List ℕ}

/-- Something holds of all stages of a cut when it holds run by run. -/
theorem forall_stages_iff {P : StageCost → Prop} :
    (∀ cost ∈ stagesOf inputs bounds, P cost) ↔
      ∀ i p q, (spans bounds)[i]? = some (p, q) → P (priceStage inputs i p q) := by
  constructor
  · intro hall i p q hi
    obtain ⟨hlt, hpair⟩ := List.getElem?_eq_some_iff.mp hi
    refine hall _ (List.mem_mapIdx.mpr ⟨i, hlt, ?_⟩)
    rw [hpair]
  · intro hall cost hcost
    obtain ⟨i, hlt, rfl⟩ := List.mem_mapIdx.mp hcost
    exact hall i _ _ (List.getElem?_eq_getElem hlt)

theorem stagesOf_ne_nil {P : ℕ → ℕ → ℕ → Prop}
    (hcut : IsCut P inputs.ppSize inputs.nLayers bounds) : stagesOf inputs bounds ≠ [] := by
  have hlen : (stagesOf inputs bounds).length = inputs.ppSize := by
    rw [stagesOf, List.length_mapIdx, length_spans, hcut.length_eq]
  exact List.length_pos_iff.mp (hlen ▸ inputs.ppSize_pos)

theorem makespan_le_iff (hcut : Admissible inputs requireAttention bounds) {v : ℚ} :
    makespan inputs bounds ≤ v ↔
      ∀ i p q, (spans bounds)[i]? = some (p, q) → (priceStage inputs i p q).totalSeconds ≤ v := by
  rw [makespan, maxOf_le_iff (by simpa using stagesOf_ne_nil hcut), List.forall_mem_map]
  exact forall_stages_iff

theorem le_minHeadroom_iff (hcut : Admissible inputs requireAttention bounds) {v : ℚ} :
    v ≤ minHeadroom inputs bounds ↔ ∀ i p q, (spans bounds)[i]? = some (p, q) →
      v ≤ (priceStage inputs i p q).runnableHeadroomMib := by
  rw [minHeadroom, le_minOf_iff (by simpa using stagesOf_ne_nil hcut), List.forall_mem_map]
  exact forall_stages_iff

/-- One of the stages is the tightest. -/
theorem exists_minHeadroom (hcut : Admissible inputs requireAttention bounds) :
    ∃ i p q, (spans bounds)[i]? = some (p, q) ∧
      (priceStage inputs i p q).runnableHeadroomMib = minHeadroom inputs bounds := by
  have hmem := minOf_mem (l := (stagesOf inputs bounds).map StageCost.runnableHeadroomMib)
    (by simpa using stagesOf_ne_nil hcut)
  obtain ⟨cost, hcost, hroom⟩ := List.mem_map.mp hmem
  obtain ⟨i, hlt, rfl⟩ := List.mem_mapIdx.mp hcost
  exact ⟨i, _, _, List.getElem?_eq_getElem hlt, hroom⟩

/-- A stage takes no negative time. -/
theorem totalSeconds_nonneg (hflops : inputs.FlopsNonneg) (i p q : ℕ) :
    0 ≤ (priceStage inputs i p q).totalSeconds := by
  obtain ⟨hattn, hlinear, hcore⟩ := hflops
  have hrate : 0 < (inputs.rank i).gemmTflops * 10 ^ 12 :=
    mul_pos (inputs.rank i).gemm_pos (by norm_num)
  have hcompute : ∀ n : ℕ, 0 ≤ (n : ℚ) * inputs.prefillChunkTokens * inputs.kvDepthTokens *
      inputs.attnCoreFlopsPerTokenPair / ((inputs.rank i).gemmTflops * 10 ^ 12) :=
    fun n => by positivity
  have hattnCore : ∀ n, 0 ≤ (attnCore inputs i n).1 := by
    intro n
    unfold attnCore
    dsimp only
    split_ifs with hnone hbound
    · exact le_rfl
    · exact hcompute n
    · exact (hcompute n).trans (not_le.mp hbound).le
  refine add_nonneg (hattnCore _) ?_
  dsimp only [priceStage]
  positivity

theorem makespan_nonneg (hflops : inputs.FlopsNonneg)
    (hcut : Admissible inputs requireAttention bounds) : 0 ≤ makespan inputs bounds := by
  obtain ⟨i, p, q, hi, -⟩ := exists_minHeadroom hcut
  exact (totalSeconds_nonneg hflops i p q).trans ((makespan_le_iff hcut).mp le_rfl i p q hi)

/-! ### The first pass -/

/-- What a stage counts in the first pass. -/
def timeOf (inputs : PPCutInputs) (requireAttention : Bool) (stage start stop : ℕ) : WithTop ℚ :=
  let cost := priceStage inputs stage start stop
  if admissible inputs requireAttention cost then cost.totalSeconds else ⊤

theorem timeOf_le_iff {i p q : ℕ} {v : ℚ} :
    timeOf inputs requireAttention i p q ≤ v ↔
      admissible inputs requireAttention (priceStage inputs i p q) ∧
        (priceStage inputs i p q).totalSeconds ≤ v := by
  unfold timeOf
  dsimp only
  split_ifs with hadm
  · rw [WithTop.coe_le_coe]
    exact (and_iff_right hadm).symm
  · refine ⟨fun hle => ?_, fun h => absurd h.1 hadm⟩
    exact absurd (top_le_iff.mp hle) (WithTop.coe_ne_top)

/-- Skipping a start that is no better changes nothing: the loop takes the minimum. -/
theorem bestTime_succ {s b : ℕ}
    (hin : s + 1 ≤ b ∧ b ≤ inputs.nLayers - (inputs.ppSize - (s + 1))) :
    bestTime inputs requireAttention (s + 1) b =
      (List.range' s (b - s)).foldl (fun acc p =>
        acc ⊓ (bestTime inputs requireAttention s p ⊔ timeOf inputs requireAttention s p b)) ⊤ := by
  rw [bestTime, if_pos hin]
  congr 1
  funext acc p
  dsimp only
  generalize bestTime inputs requireAttention s p = base
  unfold timeOf
  dsimp only
  by_cases hskip : base = ⊤ ∨ acc ≤ base
  · rw [if_pos hskip]
    rcases hskip with rfl | hle
    · rw [top_sup_eq, inf_top_eq]
    · exact (inf_eq_left.mpr (hle.trans le_sup_left)).symm
  rw [if_neg hskip]
  by_cases hadm : admissible inputs requireAttention (priceStage inputs s p b)
  · rw [if_neg (not_not.mpr hadm), if_pos hadm]
    generalize ((priceStage inputs s p b).totalSeconds : WithTop ℚ) = cand
    have hval : (if cand < base then base else cand) = base ⊔ cand := by
      split_ifs with hslow
      · exact (sup_eq_left.mpr hslow.le).symm
      · exact (sup_eq_right.mpr (not_lt.mp hslow)).symm
    rw [hval]
    split_ifs with hbetter
    · exact (inf_eq_right.mpr hbetter.le).symm
    · exact (inf_eq_left.mpr (not_lt.mp hbetter)).symm
  · rw [if_pos hadm, if_neg hadm, sup_top_eq, inf_top_eq]

theorem toDual_foldl {f : ℕ → WithTop ℚ} {g : ℕ → WithTop ℚ} (l : List ℕ) (acc : WithTop ℚ) :
    OrderDual.toDual (l.foldl (fun acc p => acc ⊓ (f p ⊔ g p)) acc) =
      l.foldl (fun a p => a ⊔ (OrderDual.toDual (f p) ⊓ OrderDual.toDual (g p)))
        (OrderDual.toDual acc) := by
  induction l generalizing acc with
  | nil => rfl
  | cons p l ih => exact ih _

/-- The first pass fills the table of the dual order. -/
theorem bestTime_eq (s b : ℕ) :
    OrderDual.toDual (bestTime inputs requireAttention s b) =
      (cutTable (fun i p q => OrderDual.toDual (timeOf inputs requireAttention i p q))
        (OrderDual.toDual 0) inputs.ppSize inputs.nLayers s b).1 := by
  induction s generalizing b with
  | zero =>
    rw [bestTime, cutTable]
    dsimp only
    split_ifs <;> rfl
  | succ s ih =>
    by_cases hin : s + 1 ≤ b ∧ b ≤ inputs.nLayers - (inputs.ppSize - (s + 1))
    · rw [bestTime_succ hin, cutTable, if_pos hin, bestOf, foldl_improve_fst]
      simp only [← ih]
      exact toDual_foldl _ _
    · rw [bestTime, if_neg hin, cutTable, if_neg hin]
      rfl

theorem zero_le_bestTime (inputs : PPCutInputs) (requireAttention : Bool) :
    0 ≤ bestTime inputs requireAttention inputs.ppSize inputs.nLayers := by
  have hdual : OrderDual.toDual (bestTime inputs requireAttention inputs.ppSize inputs.nLayers) ≤
      OrderDual.toDual 0 := by
    rw [bestTime_eq, cutTable_fst _ _ le_rfl inputs.ppSize_le (by omega)]
    exact maximin_le_top _ _ _ _
  exact hdual

/-- The first pass is exact, from zero on. -/
theorem bestTime_le_iff {v : ℚ} (hv : 0 ≤ v) :
    bestTime inputs requireAttention inputs.ppSize inputs.nLayers ≤ v ↔
      ∃ bounds, Admissible inputs requireAttention bounds ∧ makespan inputs bounds ≤ v := by
  have hdual : bestTime inputs requireAttention inputs.ppSize inputs.nLayers ≤ v ↔
      OrderDual.toDual (v : WithTop ℚ) ≤
        OrderDual.toDual (bestTime inputs requireAttention inputs.ppSize inputs.nLayers) := Iff.rfl
  have hlt : (⊥ : (WithTop ℚ)ᵒᵈ) < OrderDual.toDual (v : WithTop ℚ) := WithTop.coe_lt_top v
  have hle : OrderDual.toDual (v : WithTop ℚ) ≤ OrderDual.toDual (0 : WithTop ℚ) :=
    WithTop.coe_le_coe.mpr hv
  rw [hdual, bestTime_eq, cutTable_fst _ _ le_rfl inputs.ppSize_le (by omega),
    le_maximin_iff _ _ hlt hle]
  refine exists_congr fun bounds => ?_
  have hstage : ∀ i p q, (OrderDual.toDual (v : WithTop ℚ) ≤
      OrderDual.toDual (timeOf inputs requireAttention i p q)) ↔
      admissible inputs requireAttention (priceStage inputs i p q) ∧
        (priceStage inputs i p q).totalSeconds ≤ v := fun i p q => timeOf_le_iff
  constructor
  · intro hcut
    have hadm : Admissible inputs requireAttention bounds :=
      hcut.mono fun i p q h => ((hstage i p q).mp h).1
    exact ⟨hadm, (makespan_le_iff hadm).mpr fun i p q hi =>
      ((hstage i p q).mp ((isCut_iff.mp hcut).2 i p q hi)).2⟩
  · rintro ⟨hadm, hspan⟩
    have hparts := isCut_iff.mp hadm
    exact isCut_iff.mpr ⟨hparts.1, fun i p q hi =>
      (hstage i p q).mpr ⟨hparts.2 i p q hi, (makespan_le_iff hadm).mp hspan i p q hi⟩⟩

/-! ### The second pass -/

theorem le_roomOf_iff {ceiling : ℚ} {i p q : ℕ} {w : WithBot (WithTop ℚ)} (hw : w ≠ ⊥) :
    w ≤ roomOf inputs requireAttention ceiling i p q ↔
      admissible inputs requireAttention (priceStage inputs i p q) ∧
        (priceStage inputs i p q).totalSeconds ≤ ceiling ∧
        w ≤ ((priceStage inputs i p q).runnableHeadroomMib : WithTop ℚ) := by
  unfold roomOf
  dsimp only
  split_ifs with hadm
  · exact ⟨fun h => ⟨hadm.1, hadm.2, h⟩, fun h => h.2.2⟩
  · exact ⟨fun h => absurd (le_bot_iff.mp h) hw, fun h => absurd ⟨h.1, h.2.1⟩ hadm⟩

/-- A cut within the ceiling is found by the second pass, with its headroom. -/
theorem le_bestRoom {ceiling : ℚ} (hadm : Admissible inputs requireAttention bounds)
    (hspan : makespan inputs bounds ≤ ceiling) :
    ((minHeadroom inputs bounds : WithTop ℚ) : WithBot (WithTop ℚ)) ≤
      (bestRoom inputs requireAttention ceiling inputs.ppSize inputs.nLayers).1 := by
  have hbot : ((minHeadroom inputs bounds : WithTop ℚ) : WithBot (WithTop ℚ)) ≠ ⊥ :=
    WithBot.coe_ne_bot
  rw [bestRoom, cutTable_fst _ _ le_rfl inputs.ppSize_le (by omega),
    le_maximin_iff _ _ (bot_lt_iff_ne_bot.mpr hbot) le_top]
  have hparts := isCut_iff.mp hadm
  refine ⟨bounds, isCut_iff.mpr ⟨hparts.1, fun i p q hi => (le_roomOf_iff hbot).mpr
    ⟨hparts.2 i p q hi, (makespan_le_iff hadm).mp hspan i p q hi, ?_⟩⟩⟩
  rw [WithBot.coe_le_coe, WithTop.coe_le_coe]
  exact (le_minHeadroom_iff hadm).mp le_rfl i p q hi

/-- The cut that is read back is admissible, within the ceiling, and has the headroom that was
found. -/
theorem walkBack_bestRoom {ceiling : ℚ}
    (hne : (bestRoom inputs requireAttention ceiling inputs.ppSize inputs.nLayers).1 ≠ ⊥) :
    let cut := walkBack (fun s b => (bestRoom inputs requireAttention ceiling s b).2)
      inputs.ppSize inputs.nLayers
    Admissible inputs requireAttention cut ∧ makespan inputs cut ≤ ceiling ∧
      (bestRoom inputs requireAttention ceiling inputs.ppSize inputs.nLayers).1 ≤
        ((minHeadroom inputs cut : WithTop ℚ) : WithBot (WithTop ℚ)) := by
  intro cut
  have hcut : IsCut (fun i p q =>
      (bestRoom inputs requireAttention ceiling inputs.ppSize inputs.nLayers).1 ≤
        roomOf inputs requireAttention ceiling i p q) inputs.ppSize inputs.nLayers cut :=
    isCut_walkBack _ _ hne
  have hadm : Admissible inputs requireAttention cut :=
    hcut.mono fun i p q h => ((le_roomOf_iff hne).mp h).1
  have hruns := fun i p q hi => (le_roomOf_iff hne).mp ((isCut_iff.mp hcut).2 i p q hi)
  refine ⟨hadm, (makespan_le_iff hadm).mpr fun i p q hi => (hruns i p q hi).2.1, ?_⟩
  obtain ⟨i, p, q, hi, hroom⟩ := exists_minHeadroom hadm
  rw [← hroom]
  exact (hruns i p q hi).2.2

/-! ### The two passes together -/

/-- What `solve_pp_cut` should return: an admissible cut with the figures of its own bounds, no
slower than the slack times what any admissible cut needs, and with the largest headroom of the cuts
that are within this ceiling. -/
structure Exact (inputs : PPCutInputs) (requireAttention : Bool) (slack : ℚ)
    (sol : PPCutSolution) : Prop where
  admissible : Admissible inputs requireAttention sol.bounds
  figures : sol = report inputs sol.bounds
  fastest : ∀ bounds, Admissible inputs requireAttention bounds →
    sol.makespanSeconds ≤ slack * makespan inputs bounds
  roomiest : ∀ bounds, Admissible inputs requireAttention bounds →
    (∀ other, Admissible inputs requireAttention other →
      makespan inputs bounds ≤ slack * makespan inputs other) →
    minHeadroom inputs bounds ≤ sol.minHeadroomMib

/-- **`solve_pp_cut` is exact**, for every input and every slack: it raises exactly for a slack
below one, says that no cut fits exactly when no cut is admissible, and otherwise its answer is as
it should be. -/
theorem solvePpCut_exact (inputs : PPCutInputs) (hflops : inputs.FlopsNonneg)
    (requireAttention : Bool) (slack : ℚ) :
    match solvePpCut inputs requireAttention slack with
    | .error _ => slack < 1
    | .ok none => 1 ≤ slack ∧ ∀ bounds, ¬ Admissible inputs requireAttention bounds
    | .ok (some sol) => 1 ≤ slack ∧ Exact inputs requireAttention slack sol := by
  unfold solvePpCut
  dsimp only
  by_cases hslack : slack < 1
  · rw [if_pos hslack]
    exact hslack
  rw [if_neg hslack]
  have hone : 1 ≤ slack := not_lt.mp hslack
  have hleast : ∀ bounds, Admissible inputs requireAttention bounds →
      bestTime inputs requireAttention inputs.ppSize inputs.nLayers ≤ makespan inputs bounds :=
    fun bounds hadm => (bestTime_le_iff (makespan_nonneg hflops hadm)).mpr ⟨bounds, hadm, le_rfl⟩
  cases hbest : bestTime inputs requireAttention inputs.ppSize inputs.nLayers with
  | top =>
    refine ⟨hone, fun bounds hadm => ?_⟩
    have hle := hleast bounds hadm
    rw [hbest] at hle
    exact WithTop.coe_ne_top (top_le_iff.mp hle)
  | coe optimal =>
    dsimp only
    rw [hbest] at hleast
    have hzero : 0 ≤ optimal := by
      have hle := zero_le_bestTime inputs requireAttention
      rw [hbest] at hle
      exact WithTop.coe_le_coe.mp hle
    obtain ⟨fast, hfast, hspan⟩ := (bestTime_le_iff hzero).mp hbest.le
    have hceiling : optimal ≤ optimal * slack := le_mul_of_one_le_right hzero hone
    have hroom := le_bestRoom hfast (hspan.trans hceiling)
    have hne : (bestRoom inputs requireAttention (optimal * slack) inputs.ppSize inputs.nLayers).1 ≠
        ⊥ := fun hbot => WithBot.coe_ne_bot (le_bot_iff.mp (hbot ▸ hroom))
    rw [if_neg hne]
    obtain ⟨hadm, hwithin, hbestroom⟩ := walkBack_bestRoom hne
    refine ⟨hone, hadm, rfl, fun bounds hbounds => ?_, fun bounds hbounds hslow => ?_⟩
    · calc makespan inputs _ ≤ optimal * slack := hwithin
        _ = slack * optimal := mul_comm _ _
        _ ≤ slack * makespan inputs bounds :=
          mul_le_mul_of_nonneg_left (WithTop.coe_le_coe.mp (hleast bounds hbounds))
            (zero_le_one.trans hone)
    · have hin : makespan inputs bounds ≤ optimal * slack := by
        refine (hslow fast hfast).trans ?_
        rw [mul_comm optimal]
        exact mul_le_mul_of_nonneg_left hspan (zero_le_one.trans hone)
      have hle := (le_bestRoom hbounds hin).trans hbestroom
      rw [WithBot.coe_le_coe, WithTop.coe_le_coe] at hle
      exact hle

end Exactness

/-- A rank with a gibibyte above the corridor. -/
def roomyRank (label : String) : RankResources where
  label := label
  attnBwGbs := 1
  gemmTflops := 1
  budgetMib := 2048
  transientMib := 0
  transientByLoadState := none
  fixedOverheadMib := 0
  seamStagingMib := 0
  draftResidencyMib := none
  attnBw_pos := one_pos
  gemm_pos := one_pos

/-- Three attention layers of two seconds and a linear one of one second, on two ranks; a token
takes a MiB of an attention layer. -/
def fourLayers : PPCutInputs where
  layerFamilies := [.attention, .linear, .attention, .attention]
  attnLayerWeightBytes := 0
  linearLayerWeightBytes := 0
  attnLayerFlopsPerToken := 2 * 10 ^ 12
  linearLayerFlopsPerToken := 10 ^ 12
  attnCoreFlopsPerTokenPair := 0
  kvBytesPerTokenPerAttnLayer := mib
  kvDepthTokens := 0
  prefillChunkTokens := 1
  ranks := [roomyRank "cuda:0", roomyRank "cuda:1"]
  embeddingWeightBytes := 0
  lmHeadWeightBytes := 0
  replicatedWeightBytes := 0
  stateBytesPerLinearLayer := 0
  kvPoolTokens := 1
  tpTokenShares := none
  kvSweepsPerChunk := 1
  corridorMib := 1024
  ranks_ne := List.cons_ne_nil _ _
  ranks_le := by decide

/-- At the default slack the cut in the middle is returned; it takes four seconds, and the two other
cuts take five. -/
theorem solvePpCut_exact_fourLayers :
    ∃ sol, solvePpCut fourLayers true (201 / 200) = .ok (some sol) ∧ sol.bounds = [2, 4] ∧
      sol.makespanSeconds = 4 ∧ Exact fourLayers true (201 / 200) sol := by
  have hflops : fourLayers.FlopsNonneg := by
    refine ⟨?_, ?_, ?_⟩ <;> norm_num [fourLayers]
  have hexact := solvePpCut_exact fourLayers hflops true (201 / 200)
  have hrun : (solvePpCut fourLayers true (201 / 200)).toOption.join.any (fun sol =>
      decide (sol.bounds = [2, 4] ∧ sol.makespanSeconds = 4)) = true := by decide +kernel
  cases hsol : solvePpCut fourLayers true (201 / 200) with
  | error err =>
    rw [hsol] at hrun
    cases hrun
  | ok sol =>
    rw [hsol] at hexact hrun
    cases sol with
    | none => cases hrun
    | some sol =>
      obtain ⟨hbounds, hspan⟩ := of_decide_eq_true hrun
      exact ⟨sol, rfl, hbounds, hspan, hexact.2⟩

end HtSglang.PpCut
