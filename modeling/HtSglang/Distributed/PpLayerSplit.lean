import HtSglang.Distributed.PartitionUnits

/-!
# Splitting layers over pipeline stages

`derive_pp_layer_split` cuts the layers of a model into contiguous stages. Of a hybrid model only
some layers have full attention. Each boundary between two stages is rounded in proportion to the
scores, and then moved into the window of boundaries that have the right number of full-attention
layers before them (`HtSglang.PpSplit.snap`); this number is rounded in proportion to the attention
scores (`HtSglang.PpSplit.target`). After that the boundary is moved once more, so that every stage
has a layer.

As long as the targets strictly increase, from no layer to all of them
(`HtSglang.PpSplit.Increasing`), the windows are one after the other and leave a layer for every
stage, so that the second move does nothing. Where two targets are equal, or a target is zero or
everything, it does: it moves the boundary out of its window, and the stage ends with a
full-attention layer that it should not have (`HtSglang.PpSplit.clamp_leaves_window`). As a stage
without any full-attention layer is refused, the split that is returned is the one that the
attention scores ask for exactly if the targets increase
(`HtSglang.PpSplit.derivePpLayerSplit_targets_iff`).

The quotients are computed by true division, which is a parameter: exact, or in floating point.
-/

namespace HtSglang

namespace PpSplit

open HtSglang.Partition (exactDiv floatDiv)

/-! ### The code -/

/-- `round`: to the nearest integer, to the even one when two are as near. -/
def roundHalfEven (q : ℚ) : ℤ :=
  if 2 * (q - ⌊q⌋) < 1 ∨ (2 * (q - ⌊q⌋) = 1 ∧ ⌊q⌋ % 2 = 0) then ⌊q⌋ else ⌊q⌋ + 1

/-- What is raised. -/
inductive Error
  /-- `num_hidden_layers` disagrees with the pattern. -/
  | layerCount (numHiddenLayers nLayers : ℕ)
  /-- Neither a pattern nor a number of layers. -/
  | noLayers
  /-- No stage, or an entry that is not positive. -/
  | scores (scores : List ℕ)
  /-- Fewer layers than stages. -/
  | fewLayers (nStages nLayers : ℕ)
  /-- As many attention scores as scores are needed. -/
  | attnLength (nAttn nStages : ℕ)
  /-- An attention score that is not positive. -/
  | attnScores (attnScores : List ℕ)
  /-- A quotient that is too large for a float. -/
  | overflow
  /-- A stage without a full-attention layer. -/
  | emptyStage (scores counts : List ℕ) (stage nFull : ℕ)
  deriving DecidableEq

/-- `full_positions`. -/
def fullPositions (isFull : List Bool) : List ℕ := (isFull.zipIdx.filter Prod.fst).map Prod.snd

/-- The rounded share of the stages so far. -/
def target (div : ℕ → ℕ → Option ℚ) (n cumScore totalScore : ℕ) : Option ℤ :=
  (div (n * cumScore) totalScore).map roundHalfEven

/-- A boundary is moved into the window with the right number of full-attention layers. -/
def snap (positions : List ℕ) (nLayers : ℕ) (targetLayers targetFull : ℤ) : ℕ :=
  let t := (min (max targetFull 0) positions.length).toNat
  let lo := if 1 ≤ t then positions.getD (t - 1) 0 + 1 else 0
  let hi := if t < positions.length then positions.getD t 0 else nLayers
  min (max targetLayers.toNat lo) hi

/-- The loop over the boundaries, with `prev`, `cum_score` and `cum_attn_score`; the stages that are
left are given by their two scores. -/
def bounds (div : ℕ → ℕ → Option ℚ) (positions : List ℕ) (nLayers totalScore totalAttn : ℕ) :
    ℕ → ℕ → ℕ → List (ℕ × ℕ) → Option (List ℕ)
  | _, _, _, [] => some []
  | _, _, _, [_] => some [nLayers]
  | prev, cumScore, cumAttn, (s, a) :: stage :: rest =>
    (target div nLayers (cumScore + s) totalScore).bind fun targetLayers =>
      (if 0 < positions.length ∧ positions.length < nLayers then
        (target div positions.length (cumAttn + a) totalAttn).map
          (snap positions nLayers targetLayers)
      else some targetLayers.toNat).bind fun b =>
        let boundary := min (max b (prev + 1)) (nLayers - (rest.length + 1))
        (bounds div positions nLayers totalScore totalAttn boundary (cumScore + s) (cumAttn + a)
          (stage :: rest)).map (boundary :: ·)

/-- `counts`: the layers between the boundaries. -/
def counts : ℕ → List ℕ → List ℕ
  | _, [] => []
  | prev, b :: bs => (b - prev) :: counts b bs

/-- `per_stage_full`. -/
def perStageFull (positions : List ℕ) : ℕ → List ℕ → List ℕ
  | _, [] => []
  | start, count :: rest =>
    positions.countP (fun p => start ≤ p ∧ p < start + count) ::
      perStageFull positions (start + count) rest

/-- The layers, from the pattern or from their number. -/
def layerPattern : Option (List Bool) → Option ℕ → Except Error (List Bool)
  | some isFull, some n =>
    if n ≠ isFull.length then .error (.layerCount n isFull.length) else .ok isFull
  | some isFull, none => .ok isFull
  | none, some n => .ok (List.replicate n true)
  | none, none => .error .noLayers

/-- The checks of the scores. -/
def checkScores (nLayers : ℕ) (scores : List ℕ) (attnScores : Option (List ℕ)) : Option Error :=
  if scores.length < 1 ∨ ∃ s ∈ scores, s < 1 then some (.scores scores)
  else if nLayers < scores.length then some (.fewLayers scores.length nLayers)
  else
    attnScores.bind fun attn =>
      if attn.length ≠ scores.length then some (.attnLength attn.length scores.length)
      else if ∃ s ∈ attn, s < 1 then some (.attnScores attn)
      else none

/-- `derive_pp_layer_split`. A negative score is refused as zero is. -/
def derivePpLayerSplit (div : ℕ → ℕ → Option ℚ) (scores : List ℕ)
    (isFullAttention : Option (List Bool)) (numHiddenLayers : Option ℕ)
    (attnScores : Option (List ℕ)) : Except Error (List ℕ) :=
  match layerPattern isFullAttention numHiddenLayers with
  | .error e => .error e
  | .ok isFull =>
    match checkScores isFull.length scores attnScores with
    | some e => .error e
    | none =>
      let attn := attnScores.getD scores
      let positions := fullPositions isFull
      match bounds div positions isFull.length scores.sum attn.sum 0 0 0 (scores.zip attn) with
      | none => .error .overflow
      | some bs =>
        let full := perStageFull positions 0 (counts 0 bs)
        if (0 < positions.length ∧ positions.length < isFull.length) ∧ 0 ∈ full then
          .error (.emptyStage scores (counts 0 bs) (full.idxOf 0) positions.length)
        else .ok (counts 0 bs)

/-! ### Positions -/

/-- The number of positions before a boundary. -/
def before (L : List ℕ) (b : ℕ) : ℕ := L.countP (· < b)

section Positions

variable {L : List ℕ}

theorem before_getElem (h : L.Pairwise (· < ·)) {k : ℕ} (hk : k < L.length) :
    before L L[k] = k := by
  rw [before]
  induction L generalizing k with
  | nil => exact absurd hk (Nat.not_lt_zero _)
  | cons a L ih =>
    obtain ⟨ha, hL⟩ := List.pairwise_cons.mp h
    cases k with
    | zero =>
      rw [List.getElem_cons_zero, List.countP_eq_zero]
      intro p hp
      rcases List.mem_cons.mp hp with rfl | hp
      · simp
      · simpa using (ha p hp).le
    | succ k =>
      rw [List.getElem_cons_succ, List.countP_cons_of_pos, ih hL]
      simpa using ha _ (List.getElem_mem (Nat.lt_of_succ_lt_succ hk))

theorem before_getElem_succ (h : L.Pairwise (· < ·)) {k : ℕ} (hk : k < L.length) :
    before L (L[k] + 1) = k + 1 := by
  rw [before]
  induction L generalizing k with
  | nil => exact absurd hk (Nat.not_lt_zero _)
  | cons a L ih =>
    obtain ⟨ha, hL⟩ := List.pairwise_cons.mp h
    cases k with
    | zero =>
      rw [List.getElem_cons_zero, List.countP_cons_of_pos (by simp), List.countP_eq_zero.mpr]
      intro p hp
      simpa using ha p hp
    | succ k =>
      rw [List.getElem_cons_succ, List.countP_cons_of_pos, ih hL]
      have := ha _ (List.getElem_mem (Nat.lt_of_succ_lt_succ hk))
      simp only [decide_eq_true_eq]
      omega

/-- There is a place for each of the positions that follow. -/
theorem getElem_add_le (h : L.Pairwise (· < ·)) {n : ℕ} (hn : ∀ p ∈ L, p < n) {k : ℕ}
    (hk : k < L.length) : L[k] + (L.length - k) ≤ n := by
  induction L generalizing k with
  | nil => exact absurd hk (Nat.not_lt_zero _)
  | cons a L ih =>
    obtain ⟨ha, hL⟩ := List.pairwise_cons.mp h
    have hrest {k : ℕ} (hk : k < L.length) : L[k] + (L.length - k) ≤ n :=
      ih hL (fun p hp => hn p (List.mem_cons_of_mem _ hp)) hk
    cases k with
    | zero =>
      have han := hn a List.mem_cons_self
      rw [List.getElem_cons_zero, List.length_cons]
      rcases Nat.eq_zero_or_pos L.length with hempty | hpos
      · omega
      · have := ha _ (List.getElem_mem hpos)
        have := hrest hpos
        omega
    | succ k =>
      rw [List.getElem_cons_succ, List.length_cons]
      have := hrest (Nat.lt_of_succ_lt_succ hk)
      omega

theorem before_mono (L : List ℕ) {b b' : ℕ} (h : b ≤ b') : before L b ≤ before L b' :=
  List.countP_mono_left fun p _ hp => by
    simp only [decide_eq_true_eq] at hp ⊢
    omega

/-- The positions between two boundaries. -/
theorem before_add_countP (L : List ℕ) (start count : ℕ) :
    before L start + L.countP (fun p => start ≤ p ∧ p < start + count) =
      before L (start + count) := by
  simp only [before]
  induction L with
  | nil => rfl
  | cons a L ih =>
    simp only [List.countP_cons, decide_eq_true_eq]
    split <;> split <;> split <;> omega

end Positions

section Pattern

variable (isFull : List Bool)

theorem fullPositions_pairwise : (fullPositions isFull).Pairwise (· < ·) := by
  have hsub : (fullPositions isFull).Sublist (isFull.zipIdx.map Prod.snd) :=
    List.filter_sublist.map _
  rw [List.zipIdx_map_snd] at hsub
  exact (List.pairwise_lt_range' 1).sublist hsub

theorem lt_of_mem_fullPositions : ∀ p ∈ fullPositions isFull, p < isFull.length := by
  intro p hp
  obtain ⟨⟨x, q⟩, hx, rfl⟩ := List.mem_map.mp hp
  have := List.snd_lt_of_mem_zipIdx (List.mem_filter.mp hx).1
  simpa using this

/-- The positions before a boundary are the full-attention layers before it. -/
theorem before_fullPositions (b : ℕ) :
    before (fullPositions isFull) b = (isFull.take b).count true := by
  have hgen : ∀ (l : List Bool) (k b : ℕ), (((l.zipIdx k).filter Prod.fst).map Prod.snd).countP
      (· < k + b) = (l.take b).count true := by
    intro l
    induction l with
    | nil => intro k b; rw [List.take_nil]; rfl
    | cons x l ih =>
      intro k b
      cases b with
      | zero =>
        rw [List.take_zero, List.count_nil, List.countP_eq_zero]
        intro p hp
        obtain ⟨⟨y, q⟩, hy, rfl⟩ := List.mem_map.mp hp
        have := List.le_snd_of_mem_zipIdx (List.mem_filter.mp hy).1
        simpa using this
      | succ b =>
        have hrest := ih (k + 1) b
        rw [Nat.add_right_comm, Nat.add_assoc] at hrest
        cases x with
        | true => simp [List.zipIdx_cons, hrest]
        | false => simp [List.zipIdx_cons, hrest]
  have := hgen isFull 0 b
  rwa [Nat.zero_add] at this

theorem length_fullPositions : (fullPositions isFull).length = isFull.count true := by
  have hall := before_fullPositions isFull isFull.length
  rw [List.take_length] at hall
  rw [← hall, eq_comm, before, List.countP_eq_length]
  intro p hp
  simpa using lt_of_mem_fullPositions isFull p hp

end Pattern

/-! ### Stages and windows -/

section Windows

variable {div : ℕ → ℕ → Option ℚ} {positions : List ℕ} {nLayers totalScore totalAttn : ℕ}

/-- **Every stage has a layer**, and together they have all. -/
theorem counts_bounds {stages : List (ℕ × ℕ)} {prev cumScore cumAttn : ℕ} {bs : List ℕ}
    (hb : bounds div positions nLayers totalScore totalAttn prev cumScore cumAttn stages = some bs)
    (hfit : prev + stages.length ≤ nLayers) (hne : stages ≠ []) :
    (counts prev bs).length = stages.length ∧ (∀ c ∈ counts prev bs, 1 ≤ c) ∧
      prev + (counts prev bs).sum = nLayers := by
  induction stages generalizing prev cumScore cumAttn bs with
  | nil => exact absurd rfl hne
  | cons x stages ih =>
    cases stages with
    | nil =>
      obtain rfl := Option.some.inj hb
      rw [List.length_singleton] at hfit
      refine ⟨rfl, List.forall_mem_singleton.mpr (by omega), ?_⟩
      rw [counts, counts, List.sum_singleton]
      omega
    | cons stage rest =>
      rw [bounds] at hb
      obtain ⟨targetLayers, -, hb⟩ := Option.bind_eq_some_iff.mp hb
      obtain ⟨b, -, hb⟩ := Option.bind_eq_some_iff.mp hb
      obtain ⟨bs, hbs, rfl⟩ := Option.map_eq_some_iff.mp hb
      simp only [List.length_cons] at hfit
      generalize hbd : min (max b (prev + 1)) (nLayers - (rest.length + 1)) = boundary at hbs
      obtain ⟨hlen, hpos, hsum⟩ := ih hbs (by simp only [List.length_cons]; omega)
        (List.cons_ne_nil _ _)
      refine ⟨?_, List.forall_mem_cons.mpr ⟨by omega, hpos⟩, ?_⟩
      · simp only [counts, List.length_cons] at hlen ⊢
        omega
      · rw [counts, List.sum_cons]
        omega

/-- **Targets that strictly increase** from one stage to the next, from no full-attention layer to
all of them. -/
structure Increasing (div : ℕ → ℕ → Option ℚ) (nFull : ℕ) (attn : List ℕ) : Prop where
  none : target div nFull 0 attn.sum = some 0
  all : target div nFull attn.sum attn.sum = some nFull
  lt : ∀ i < attn.length, ∃ t t', target div nFull (attn.take i).sum attn.sum = some t ∧
    target div nFull (attn.take (i + 1)).sum attn.sum = some t' ∧ t < t'

/-- The targets of the stages that are left increase. -/
def Rises (div : ℕ → ℕ → Option ℚ) (nFull totalAttn cumAttn : ℕ) (attn : List ℕ) : Prop :=
  ∀ i < attn.length, ∃ t t', target div nFull (cumAttn + (attn.take i).sum) totalAttn = some t ∧
    target div nFull (cumAttn + (attn.take (i + 1)).sum) totalAttn = some t' ∧ t < t'

theorem Rises.cons {nFull cumAttn a : ℕ} {attn : List ℕ}
    (h : Rises div nFull totalAttn cumAttn (a :: attn)) :
    (∃ t t', target div nFull cumAttn totalAttn = some t ∧
      target div nFull (cumAttn + a) totalAttn = some t' ∧ t < t') ∧
      Rises div nFull totalAttn (cumAttn + a) attn := by
  constructor
  · have hfirst := h 0 (Nat.zero_lt_succ _)
    simpa using hfirst
  · intro i hi
    have hnext := h (i + 1) (Nat.succ_lt_succ hi)
    simpa only [List.take_succ_cons, List.sum_cons, ← Nat.add_assoc] using hnext

/-- There is a full-attention layer for each stage that is left. -/
theorem Rises.length_le {nFull cumAttn : ℕ} {attn : List ℕ} {t n : ℤ}
    (h : Rises div nFull totalAttn cumAttn attn)
    (ht : target div nFull cumAttn totalAttn = some t)
    (hn : target div nFull (cumAttn + attn.sum) totalAttn = some n) : t + attn.length ≤ n := by
  induction attn generalizing cumAttn t with
  | nil =>
    rw [List.sum_nil, Nat.add_zero, ht] at hn
    obtain rfl := Option.some.inj hn
    simp
  | cons a attn ih =>
    obtain ⟨⟨t₀, t', ht₀, ht', hlt⟩, hrest⟩ := h.cons
    rw [ht₀] at ht
    obtain rfl := Option.some.inj ht
    rw [List.sum_cons, ← Nat.add_assoc] at hn
    have := ih hrest ht' hn
    rw [List.length_cons]
    push_cast
    omega

/-- **The window** of a target: a boundary in it has as many full-attention layers before it as it
should, and it leaves a place for each of the others. -/
theorem snap_spec (hsorted : positions.Pairwise (· < ·)) (hn : ∀ p ∈ positions, p < nLayers)
    {t : ℕ} (ht : 1 ≤ t) (hlt : t < positions.length) (targetLayers : ℤ) :
    before positions (snap positions nLayers targetLayers t) = t ∧
      snap positions nLayers targetLayers t + (positions.length - t) ≤ nLayers := by
  have hclamp : (min (max (t : ℤ) 0) positions.length).toNat = t := by omega
  have hpred : t - 1 < positions.length := by omega
  have hsnap : snap positions nLayers targetLayers t =
      min (max targetLayers.toNat (positions[t - 1] + 1)) positions[t] := by
    rw [snap, hclamp, if_pos ht, if_pos hlt, List.getD_eq_getElem _ _ hpred,
      List.getD_eq_getElem _ _ hlt]
  have hstep : positions[t - 1] + 1 ≤ positions[t] :=
    List.pairwise_iff_getElem.mp hsorted _ _ hpred hlt (by omega)
  have hlow := before_getElem_succ hsorted hpred
  have hhigh := before_getElem hsorted hlt
  have hroom := getElem_add_le hsorted hn hlt
  rw [hsnap]
  generalize positions[t] = hi at *
  generalize positions[t - 1] + 1 = lo at *
  have h₁ := before_mono positions (show lo ≤ min (max targetLayers.toNat lo) hi by omega)
  have h₂ := before_mono positions (show min (max targetLayers.toNat lo) hi ≤ hi by omega)
  omega

/-- **Where the targets increase, they are met.** -/
theorem targets_of_rises (hsorted : positions.Pairwise (· < ·))
    (hn : ∀ p ∈ positions, p < nLayers)
    (hhybrid : 0 < positions.length ∧ positions.length < nLayers)
    {stages : List (ℕ × ℕ)} {prev cumScore cumAttn : ℕ} {bs : List ℕ}
    (hb : bounds div positions nLayers totalScore totalAttn prev cumScore cumAttn stages = some bs)
    (hprev : target div positions.length cumAttn totalAttn =
      some (before positions prev : ℤ)) (hle : prev ≤ nLayers)
    (hrises : Rises div positions.length totalAttn cumAttn (stages.map Prod.snd))
    (hall : target div positions.length (cumAttn + (stages.map Prod.snd).sum) totalAttn =
      some (positions.length : ℤ)) {i : ℕ} (hi : i ≤ stages.length) :
    target div positions.length (cumAttn + ((stages.map Prod.snd).take i).sum) totalAttn =
      some (before positions (prev + ((counts prev bs).take i).sum) : ℤ) := by
  induction stages generalizing prev cumScore cumAttn bs i with
  | nil =>
    obtain rfl := Nat.le_zero.mp hi
    simpa using hprev
  | cons x stages ih =>
    cases i with
    | zero => simpa using hprev
    | succ i =>
    cases stages with
    | nil =>
      obtain rfl := Option.some.inj hb
      obtain rfl : i = 0 := by simpa using hi
      have hcount : before positions nLayers = positions.length :=
        List.countP_eq_length.mpr fun p hp => by simpa using hn p hp
      simpa [counts, Nat.add_sub_cancel' hle, hcount] using hall
    | cons stage rest =>
      rw [bounds] at hb
      obtain ⟨targetLayers, -, hb⟩ := Option.bind_eq_some_iff.mp hb
      obtain ⟨b, hsnap, hb⟩ := Option.bind_eq_some_iff.mp hb
      obtain ⟨bs, hbs, rfl⟩ := Option.map_eq_some_iff.mp hb
      rw [if_pos hhybrid] at hsnap
      rw [List.map_cons] at hrises hall ⊢
      obtain ⟨⟨t₀, t, ht₀, ht, hlt⟩, hrest⟩ := hrises.cons
      rw [List.sum_cons, ← Nat.add_assoc] at hall
      have hlen := hrest.length_le ht hall
      rw [List.length_map, List.length_cons] at hlen
      rw [hprev] at ht₀
      obtain rfl := Option.some.inj ht₀
      rw [ht, Option.map_some] at hsnap
      obtain ⟨t, rfl⟩ : ∃ k : ℕ, t = k := ⟨t.toNat, by omega⟩
      obtain ⟨hcount, hroom⟩ := snap_spec hsorted hn (show 1 ≤ t by omega)
        (show t < positions.length by omega) targetLayers
      obtain rfl := Option.some.inj hsnap
      generalize snap positions nLayers targetLayers t = b at *
      -- the boundary is after the one before, as it has more full-attention layers before it
      have hafter : prev < b := by
        by_contra hc
        have := before_mono positions (not_lt.mp hc)
        omega
      have hbd : min (max b (prev + 1)) (nLayers - (rest.length + 1)) = b := by omega
      rw [hbd] at hbs ⊢
      rw [List.take_succ_cons, List.sum_cons, ← Nat.add_assoc, counts, List.take_succ_cons,
        List.sum_cons, ← Nat.add_assoc, Nat.add_sub_cancel' hafter.le]
      exact ih hbs (by rw [ht, hcount]) (by omega) hrest hall (Nat.le_of_succ_le_succ hi)

/-- When no stage is empty, the full-attention layers increase from stage to stage. -/
theorem before_lt_of_perStageFull {start : ℕ} {cs : List ℕ}
    (h : 0 ∉ perStageFull positions start cs) {i : ℕ} (hi : i < cs.length) :
    before positions (start + (cs.take i).sum) <
      before positions (start + (cs.take (i + 1)).sum) := by
  induction cs generalizing start i with
  | nil => exact absurd hi (Nat.not_lt_zero _)
  | cons c cs ih =>
    rw [perStageFull, List.mem_cons, not_or] at h
    cases i with
    | zero =>
      have hsplit := before_add_countP positions start c
      simp only [List.take_zero, List.sum_nil, Nat.add_zero, List.take_succ_cons, List.sum_cons]
      omega
    | succ i =>
      have := ih h.2 (Nat.lt_of_succ_lt_succ hi)
      simpa only [List.take_succ_cons, List.sum_cons, ← Nat.add_assoc] using this

end Windows

/-! ### The split -/

/-- What it takes for a split to be returned. -/
theorem derivePpLayerSplit_eq_ok {div : ℕ → ℕ → Option ℚ} {scores : List ℕ} {isFull : List Bool}
    {numHiddenLayers : Option ℕ} {attnScores : Option (List ℕ)} {cs : List ℕ}
    (hhybrid : 0 < isFull.count true ∧ isFull.count true < isFull.length)
    (h : derivePpLayerSplit div scores (some isFull) numHiddenLayers attnScores = .ok cs) :
    0 < scores.length ∧ scores.length ≤ isFull.length ∧
      (attnScores.getD scores).length = scores.length ∧
      0 ∉ perStageFull (fullPositions isFull) 0 cs ∧
      ∃ bs, bounds div (fullPositions isFull) isFull.length scores.sum
        (attnScores.getD scores).sum 0 0 0 (scores.zip (attnScores.getD scores)) = some bs ∧
        cs = counts 0 bs := by
  have hpattern : ∀ isFull', layerPattern (some isFull) numHiddenLayers = .ok isFull' →
      isFull' = isFull := by
    intro isFull' hok
    cases numHiddenLayers with
    | none => exact (Except.ok.inj hok).symm
    | some n =>
      rw [layerPattern] at hok
      split at hok
      · cases hok
      · exact (Except.ok.inj hok).symm
  rw [derivePpLayerSplit] at h
  split at h
  · cases h
  next isFull' hok =>
  obtain rfl := hpattern isFull' hok
  split at h
  · cases h
  next hcheck =>
  dsimp only at h
  split at h
  · cases h
  next bs hbs =>
  rw [length_fullPositions] at h
  split at h
  · cases h
  next hfull =>
  obtain rfl := Except.ok.inj h
  rw [checkScores] at hcheck
  split at hcheck
  · cases hcheck
  next hscores =>
  split at hcheck
  · cases hcheck
  next hlen =>
  refine ⟨by omega, by omega, ?_, fun hmem => hfull ⟨hhybrid, hmem⟩, bs, hbs, rfl⟩
  cases attnScores with
  | none => rfl
  | some attn =>
    rw [Option.bind_some] at hcheck
    rw [Option.getD_some]
    by_contra hne
    rw [if_pos hne] at hcheck
    cases hcheck

/-- **The split follows its attention targets exactly if they increase.** The stages have layers,
and together they have all, in any case. -/
theorem derivePpLayerSplit_targets_iff (div : ℕ → ℕ → Option ℚ) (scores : List ℕ)
    (isFull : List Bool) (numHiddenLayers : Option ℕ) (attnScores : Option (List ℕ))
    (cs : List ℕ) (hhybrid : 0 < isFull.count true ∧ isFull.count true < isFull.length)
    (h : derivePpLayerSplit div scores (some isFull) numHiddenLayers attnScores = .ok cs) :
    cs.length = scores.length ∧ (∀ c ∈ cs, 1 ≤ c) ∧ cs.sum = isFull.length ∧
      ((∀ i ≤ scores.length, target div (isFull.count true)
        ((attnScores.getD scores).take i).sum (attnScores.getD scores).sum =
          some ((isFull.take (cs.take i).sum).count true : ℤ)) ↔
        Increasing div (isFull.count true) (attnScores.getD scores)) := by
  obtain ⟨hpos, hlen, hattn, hfull, bs, hbs, rfl⟩ := derivePpLayerSplit_eq_ok hhybrid h
  generalize attnScores.getD scores = attn at *
  have hzip : (scores.zip attn).length = scores.length := by
    rw [List.length_zip, hattn, min_self]
  obtain ⟨hcounts, hge, hsum⟩ := counts_bounds hbs (by omega)
    (List.ne_nil_of_length_pos (by omega))
  rw [Nat.zero_add] at hsum
  refine ⟨hcounts.trans hzip, hge, hsum, fun hmeets => ?_, fun hinc i hi => ?_⟩
  · have hzero := hmeets 0 (Nat.zero_le _)
    have hall := hmeets scores.length le_rfl
    rw [← hattn, List.take_length, hattn, ← hzip, ← hcounts, List.take_length, hsum,
      List.take_length] at hall
    refine ⟨by simpa using hzero, hall, fun i hi => ⟨_, _, hmeets i (by omega),
      hmeets (i + 1) (by omega), ?_⟩⟩
    have hlt := before_lt_of_perStageFull hfull (show i < (counts 0 bs).length by omega)
    rw [Nat.zero_add, Nat.zero_add, before_fullPositions, before_fullPositions] at hlt
    exact Int.ofNat_lt.mpr hlt
  · have hsnd : (scores.zip attn).map Prod.snd = attn := List.map_snd_zip (by omega)
    have hmeets := targets_of_rises (fullPositions_pairwise isFull)
      (lt_of_mem_fullPositions isFull) (by rwa [length_fullPositions]) hbs
      (by rw [length_fullPositions, hinc.none, before_fullPositions]; rfl) (Nat.zero_le _)
      (by rw [hsnd, length_fullPositions]; simpa only [Rises, Nat.zero_add] using hinc.lt)
      (by rw [hsnd, Nat.zero_add, length_fullPositions]; exact hinc.all) (hzip ▸ hi)
    rwa [hsnd, Nat.zero_add, Nat.zero_add, length_fullPositions, before_fullPositions] at hmeets

theorem derivePpLayerSplit_targets_halves :
    [2, 2].length = [1, 1].length ∧ (∀ c ∈ [2, 2], 1 ≤ c) ∧ [2, 2].sum = 4 ∧
      ((∀ i ≤ 2, target exactDiv 2 ([1, 1].take i).sum 2 =
        some (([false, true, false, true].take ([2, 2].take i).sum).count true : ℤ)) ↔
        Increasing exactDiv 2 [1, 1]) :=
  derivePpLayerSplit_targets_iff exactDiv [1, 1] [false, true, false, true] (some 4)
    (some [1, 1]) [2, 2] (by decide) (by decide +kernel)

/-- **The second move leaves the window**: the target of the first stage is no full-attention layer,
and it gets one. -/
theorem clamp_leaves_window :
    derivePpLayerSplit exactDiv [1, 1] (some [true, true, false]) none (some [1, 9]) =
        .ok [1, 2] ∧
      derivePpLayerSplit floatDiv [1, 1] (some [true, true, false]) none (some [1, 9]) =
        .ok [1, 2] ∧
      target exactDiv 2 1 10 = some 0 ∧ target floatDiv 2 1 10 = some 0 ∧
      ([true, true, false].take 1).count true = 1 := by
  decide +kernel

end PpSplit

end HtSglang
