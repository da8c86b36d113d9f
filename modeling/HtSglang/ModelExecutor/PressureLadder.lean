import HtSglang.Library.Loop
import Mathlib

/-!
# The pressure ladder of the KV cache

When the KV cache fills up, the server climbs a ladder of steps that each give it more room and cost
more, and it climbs down when the pressure is gone. `KvPressureSensor` and `KvPressureLadder`
(`model_executor/kv_pressure_ladder.py`) decide when, from one sample of the occupancy per round.
The server climbs when the occupancy has been high for a short window *or* when the trend over that
window would exhaust the cache soon; it descends when the occupancy has been low for a long window
that does not rise. A copy for the next step can be staged ahead of time, and is discarded, by the
same rule with a mark of its own.

The long window is there so that the server does not climb up and down. After a climb for the level
it does its work: the window of a descent has no sample of the window of the climb
(`HtSglang.PressureLadder.no_flapping`). After a climb for the trend it need not: the trend over two
samples can be steep where all is low, and the descent looks back over them
(`HtSglang.PressureLadder.flapping`). So what is needed is one sample that is not low, from the one
just before the window of the climb on.

The texts of the plans and the items of the offload register that they name are left out.
-/

namespace HtSglang

namespace PressureLadder

/-! ### The sensor -/

/-- `OccupancySample`. -/
structure OccupancySample where
  roundIndex : ℤ
  usedTokens : ℕ
  totalTokens : ℕ
  total_pos : 0 < totalTokens

/-- `occupancy`. -/
def OccupancySample.occupancy (s : OccupancySample) : ℚ := s.usedTokens / s.totalTokens

/-- The marks and windows of a `KvPressureSensor`, as its constructor checks them. -/
structure Sensor where
  ascendThreshold : ℚ
  ascendWindow : ℕ
  descendThreshold : ℚ
  descendWindow : ℕ
  preStageThreshold : ℚ
  preStageWindow : ℕ
  abortStageWindow : ℕ
  horizonRounds : ℕ
  preStageHorizonRounds : ℕ
  descend_pos : 0 < descendThreshold
  descend_lt_preStage : descendThreshold < preStageThreshold
  preStage_lt_ascend : preStageThreshold < ascendThreshold
  ascend_le_one : ascendThreshold ≤ 1
  ascendWindow_pos : 1 ≤ ascendWindow
  preStageWindow_pos : 1 ≤ preStageWindow
  /-- The way down is slower than the way up. -/
  ascend_lt_descend : ascendWindow < descendWindow
  /-- Discarding is slower than staging. -/
  preStage_lt_abort : preStageWindow < abortStageWindow
  horizon_pos : 1 ≤ horizonRounds
  /-- Staging looks at least as far ahead. -/
  horizon_le : horizonRounds ≤ preStageHorizonRounds

/-- `_slope`: the least-squares slope of the used tokens over the rounds. -/
def slope (samples : List OccupancySample) : Option ℚ :=
  let n : ℚ := samples.length
  let mx := (samples.map fun s => (s.roundIndex : ℚ)).sum / n
  let my := (samples.map fun s => (s.usedTokens : ℚ)).sum / n
  let num := (samples.map fun s => (s.roundIndex - mx) * (s.usedTokens - my)).sum
  let den := (samples.map fun s => (s.roundIndex - mx) * (s.roundIndex - mx)).sum
  if samples.length < 2 then none else if den = 0 then none else some (num / den)

/-- `_rounds_to_exhaustion`. -/
def roundsToExhaustion (samples : List OccupancySample) (slope : Option ℚ) : Option ℚ :=
  match samples.getLast?, slope with
  | some last, some slope =>
    if slope ≤ 0 then none
    else
      let headroom : ℤ := last.totalTokens - last.usedTokens
      if headroom ≤ 0 then some 0 else some (headroom / slope)
  | _, _ => none

/-- `_capacity`. -/
def Sensor.capacity (sensor : Sensor) : ℕ :=
  max (max sensor.descendWindow sensor.abortStageWindow) sensor.ascendWindow

/-- `observe`. -/
def Sensor.observe (sensor : Sensor) (history : List OccupancySample) (sample : OccupancySample) :
    List OccupancySample :=
  (history ++ [sample]).rtake sensor.capacity

/-- The verdicts of `reading`. -/
inductive Verdict
  /-- `VERDICT_ASCEND`. -/
  | ascend
  /-- `VERDICT_HOLD`. -/
  | hold
  /-- `VERDICT_DESCEND`. -/
  | descend
  deriving DecidableEq

/-- The verdicts of `_stage_verdict`. -/
inductive StageVerdict
  /-- `STAGE_START`. -/
  | start
  /-- `STAGE_HOLD`. -/
  | hold
  /-- `STAGE_ABORT`. -/
  | abort
  deriving DecidableEq

/-- All samples are at or above a mark. -/
def LevelHit (window : List OccupancySample) (threshold : ℚ) : Prop :=
  ∀ s ∈ window, threshold ≤ s.occupancy

instance (window : List OccupancySample) (threshold : ℚ) : Decidable (LevelHit window threshold) :=
  inferInstanceAs (Decidable (∀ s ∈ window, _))

/-- The trend exhausts the pool within a horizon. -/
def TrendHit (window : List OccupancySample) (horizon : ℕ) : Prop :=
  ∃ r ∈ roundsToExhaustion window (slope window), r ≤ horizon

instance (window : List OccupancySample) (horizon : ℕ) : Decidable (TrendHit window horizon) :=
  inferInstanceAs (Decidable (∃ r ∈ roundsToExhaustion window (slope window), _))

/-- The trend does not rise. -/
def NonRising (window : List OccupancySample) : Prop := ∀ m ∈ slope window, m ≤ 0

instance (window : List OccupancySample) : Decidable (NonRising window) :=
  inferInstanceAs (Decidable (∀ m ∈ slope window, _))

/-- The verdict of `reading`. As no window is empty, it is `hold` for an empty history. -/
def Sensor.verdict (sensor : Sensor) (history : List OccupancySample) : Verdict :=
  let ascendWin := history.rtake sensor.ascendWindow
  let descendWin := history.rtake sensor.descendWindow
  if sensor.ascendWindow ≤ history.length ∧
      (LevelHit ascendWin sensor.ascendThreshold ∨ TrendHit ascendWin sensor.horizonRounds) then
    .ascend
  else if sensor.descendWindow ≤ history.length ∧
      (∀ s ∈ descendWin, s.occupancy ≤ sensor.descendThreshold) ∧ NonRising descendWin then
    .descend
  else .hold

/-- `_stage_verdict`. -/
def Sensor.stageVerdict (sensor : Sensor) (history : List OccupancySample) : StageVerdict :=
  let startWin := history.rtake sensor.preStageWindow
  let abortWin := history.rtake sensor.abortStageWindow
  if sensor.preStageWindow ≤ history.length ∧
      (LevelHit startWin sensor.preStageThreshold ∨
        TrendHit startWin sensor.preStageHorizonRounds) then
    .start
  else if sensor.abortStageWindow ≤ history.length ∧
      (∀ s ∈ abortWin, s.occupancy < sensor.preStageThreshold) ∧ NonRising abortWin then
    .abort
  else .hold

/-! ### The ladder -/

/-- `step_type`. -/
inductive StepType
  /-- `STEP_BASE`. -/
  | base
  /-- `STEP_RELIEF`. -/
  | relief
  /-- `STEP_GEOMETRY`. -/
  | geometry
  /-- `STEP_EXTERNAL`. -/
  | external
  deriving DecidableEq

/-- `HANDOVER_STRATEGIES`. -/
inductive Handover
  /-- `HANDOVER_NONE`. -/
  | none
  /-- `HANDOVER_NEW_TOKENS_ONLY`. -/
  | newTokensOnly
  /-- `HANDOVER_BACKGROUND_MIGRATE`. -/
  | backgroundMigrate
  /-- `HANDOVER_SPILL_RELOAD`. -/
  | spillReload
  /-- `HANDOVER_ANTICIPATORY_SHADOW`. -/
  | anticipatoryShadow
  deriving DecidableEq

/-- `LadderStep`. -/
structure LadderStep where
  stepType : StepType
  handover : Handover
  graphsPrecaptured : Bool
  minHysteresisRounds : ℕ

/-- `PLAN_PHASES`. -/
inductive Phase
  /-- `PHASE_NONE`. -/
  | none
  /-- `PHASE_PRE_STAGE`. -/
  | preStage
  /-- `PHASE_ABORT_STAGE`. -/
  | abortStage
  /-- `PHASE_FLIP`. -/
  | flip
  /-- `PHASE_DESCEND`. -/
  | descend
  deriving DecidableEq

/-- `LadderPlan`. -/
structure LadderPlan where
  targetRung : ℕ
  phase : Phase
  handover : Handover
  /-- Whether `blocked` says why the plan does nothing. -/
  blocked : Bool
  deltaOnly : Bool
  affectedSessions : List String
  protectedSessions : List String

/-- What does not change of a `KvPressureLadder`. -/
structure Config where
  sensor : Sensor
  table : List LadderStep
  preStageEnabled : Bool

/-- The state of a `KvPressureLadder` and its sensor. -/
structure Ladder where
  /-- `_history` of the sensor. -/
  history : List OccupancySample
  current : ℕ
  stagedTarget : Option ℕ
  ascendStreak : ℕ

/-- What is given to a boundary. -/
structure Boundary where
  /-- The new sample. -/
  sample : OccupancySample
  captureActive : Bool
  sessions : List String
  /-- `_protected`. -/
  protectedIds : List String

/-- The new ladder. -/
def Ladder.init : Ladder := ⟨[], 0, none, 0⟩

/-- The plan that changes nothing. -/
def Ladder.statusQuo (l : Ladder) (protectedSessions : List String) (blocked : Bool) : LadderPlan :=
  ⟨l.current, .none, .none, blocked, false, [], protectedSessions⟩

variable (cfg : Config)

/-- `_check_target`. -/
def checkTarget (current target : ℕ) : Except String LadderStep :=
  match cfg.table[target]? with
  | none => .error "KvLadderError: outside the table"
  | some step =>
    if (((cfg.table.take target).drop (current + 1)).any fun s => s.stepType = .relief) ∧
        step.stepType ≠ .relief then
      .error "KvLadderError: would skip a relief rung"
    else if ¬step.graphsPrecaptured then .error "KvLadderError: no pre-captured graphs"
    else .ok step

/-- `_plan_ascend` and `_finish_ascend`. -/
def Ladder.planAscend (l : Ladder) (unprotected protectedSessions : List String) :
    Except String LadderPlan :=
  let target := l.current + 1
  if cfg.table.length ≤ target then .ok (l.statusQuo protectedSessions true)
  else (checkTarget cfg l.current target).map fun step =>
    if step.stepType = .external ∧ l.ascendStreak < step.minHysteresisRounds then
      l.statusQuo protectedSessions true
    else if protectedSessions ≠ [] ∧ unprotected = [] then l.statusQuo protectedSessions true
    else
      let warm : Bool := cfg.preStageEnabled ∧ l.stagedTarget = some target
      ⟨target, .flip, if warm then .anticipatoryShadow else step.handover, false, warm, unprotected,
        protectedSessions⟩

/-- `_plan_pre_stage`. -/
def Ladder.planPreStage (l : Ladder) (protectedSessions : List String) : Except String LadderPlan :=
  let target := l.current + 1
  if cfg.table.length ≤ target ∨ l.stagedTarget.isSome then
    .ok (l.statusQuo protectedSessions false)
  else (checkTarget cfg l.current target).map fun step =>
    if step.stepType = .relief ∨
        step.handover ≠ .anticipatoryShadow ∧ step.handover ≠ .backgroundMigrate then
      l.statusQuo protectedSessions false
    else ⟨target, .preStage, .anticipatoryShadow, false, false, [], protectedSessions⟩

/-- `_plan_abort_stage`. -/
def Ladder.planAbortStage (l : Ladder) (protectedSessions : List String) : LadderPlan :=
  ⟨l.current, .abortStage, .anticipatoryShadow, false, false, [], protectedSessions⟩

/-- `_plan_descend`. -/
def Ladder.planDescend (l : Ladder) (protectedSessions : List String) : LadderPlan :=
  if l.current = 0 then l.statusQuo protectedSessions false
  else
    let handover := match cfg.table[l.current]? with
      | some step => step.handover
      | none => .none
    ⟨l.current - 1, .descend, handover, false, false, [], protectedSessions⟩

/-- The plan of `on_pressure_boundary` for a ladder that has seen the sample. -/
def Ladder.plan (l : Ladder) (b : Boundary) : Except String LadderPlan :=
  let unprotected := b.sessions.filter fun s => s ∉ b.protectedIds
  let protectedSessions := b.sessions.filter fun s => s ∈ b.protectedIds
  let stage := cfg.sensor.stageVerdict l.history
  match cfg.sensor.verdict l.history with
  | .ascend => l.planAscend cfg unprotected protectedSessions
  | v =>
    if cfg.preStageEnabled ∧ stage = .start then l.planPreStage cfg protectedSessions
    else if cfg.preStageEnabled ∧ stage = .abort ∧ l.stagedTarget.isSome then
      .ok (l.planAbortStage protectedSessions)
    else if v = .descend then .ok (l.planDescend cfg protectedSessions)
    else .ok (l.statusQuo protectedSessions false)

/-- `on_pressure_boundary` with one new sample, at a round boundary and without a forced target.
What it raises leaves the sample and the streak behind. -/
def Ladder.onPressureBoundary (l : Ladder) (b : Boundary) : Except String LadderPlan × Ladder :=
  let l := { l with history := cfg.sensor.observe l.history b.sample }
  if b.captureActive then (.ok (l.statusQuo [] true), l)
  else
    let streak := if cfg.sensor.verdict l.history = .ascend then l.ascendStreak + 1 else 0
    let l := { l with ascendStreak := streak }
    (l.plan cfg b, l)

/-- `apply`. -/
def Ladder.apply (l : Ladder) (plan : LadderPlan) : Ladder :=
  if plan.blocked then l
  else match plan.phase with
    | .none => l
    | .flip => { l with current := plan.targetRung, stagedTarget := none, ascendStreak := 0 }
    | .descend => { l with current := plan.targetRung, stagedTarget := none }
    | .preStage => { l with stagedTarget := some plan.targetRung }
    | .abortStage => { l with stagedTarget := none }

/-- A boundary whose plan is applied. -/
def Ladder.step (l : Ladder) (b : Boundary) : Ladder :=
  match l.onPressureBoundary cfg b with
  | (.ok plan, l) => l.apply plan
  | (.error _, l) => l

/-- The ladder after some boundaries. -/
def after (boundaries : List Boundary) : Ladder := boundaries.foldl (Ladder.step cfg) .init

/-- The phase of the plan that is produced at a boundary, after others. -/
def phaseAt (before : List Boundary) (b : Boundary) : Option Phase :=
  ((after cfg before).onPressureBoundary cfg b).1.toOption.map LadderPlan.phase

/-! ### What the sensor has seen -/

section History

variable {cfg} {before between : List Boundary} {x y : Boundary}

theorem rtake_rtake_append {α : Type*} (l : List α) (a : α) {c : ℕ} (hc : 1 ≤ c) :
    (l.rtake c ++ [a]).rtake c = (l ++ [a]).rtake c := by
  rw [List.rtake, List.rtake, List.rtake, List.length_append, List.length_append, List.length_drop,
    List.length_singleton]
  by_cases hle : l.length ≤ c
  · rw [Nat.sub_eq_zero_of_le hle, List.drop_zero, Nat.sub_zero]
  · rw [List.drop_append_of_le_length (by rw [List.length_drop]; omega), List.drop_drop,
      List.drop_append_of_le_length (by omega)]
    congr 2
    omega

/-- The last entries of a list are among the last of a longer one, if the difference is made up
for. -/
theorem mem_rtake_append {α : Type*} {l m : List α} {a : α} {n k : ℕ} (ha : a ∈ l.rtake n)
    (hk : n + m.length ≤ k) : a ∈ (l ++ m).rtake k := by
  rw [List.rtake] at ha ⊢
  rw [List.length_append, List.drop_append]
  have hsub : l.length - n =
      (l.length + m.length - k) + (l.length - n - (l.length + m.length - k)) := by
    omega
  rw [hsub, ← List.drop_drop] at ha
  exact List.mem_append_left _ (List.mem_of_mem_drop ha)

theorem rtake_rtake_of_le {α : Type*} (l : List α) {n c : ℕ} (h : n ≤ c) :
    (l.rtake c).rtake n = l.rtake n := by
  rw [List.rtake, List.rtake, List.rtake, List.length_drop, List.drop_drop]
  congr 1
  omega

theorem history_apply (l : Ladder) (plan : LadderPlan) : (l.apply plan).history = l.history := by
  rw [Ladder.apply]
  split
  · rfl
  split <;> rfl

theorem history_onPressureBoundary (l : Ladder) (b : Boundary) :
    (l.onPressureBoundary cfg b).2.history = cfg.sensor.observe l.history b.sample := by
  rw [Ladder.onPressureBoundary]
  dsimp only
  split <;> rfl

theorem history_step (l : Ladder) (b : Boundary) :
    (l.step cfg b).history = cfg.sensor.observe l.history b.sample := by
  rw [← history_onPressureBoundary, Ladder.step]
  split
  next plan l' heq => rw [history_apply, heq]
  next e l' heq => rw [heq]

theorem capacity_pos (sensor : Sensor) : 1 ≤ sensor.capacity :=
  sensor.ascendWindow_pos.trans (le_max_right _ _)

/-- **The history is the end of the series.** -/
theorem history_after (boundaries : List Boundary) :
    (after cfg boundaries).history =
      (boundaries.map Boundary.sample).rtake cfg.sensor.capacity := by
  induction boundaries using List.reverseRecOn with
  | nil => simp [after, Ladder.init, List.rtake]
  | append_singleton boundaries b ih =>
    rw [after, List.foldl_append, List.foldl_cons, List.foldl_nil, history_step, ← after, ih,
      Sensor.observe, rtake_rtake_append _ _ (capacity_pos _), List.map_append, List.map_singleton]

/-- A window of the history is a window of the series. -/
theorem rtake_history (before : List Boundary) (b : Boundary) {n : ℕ}
    (hn : n ≤ cfg.sensor.capacity) :
    (cfg.sensor.observe (after cfg before).history b.sample).rtake n =
      ((before ++ [b]).map Boundary.sample).rtake n := by
  rw [history_after, Sensor.observe, rtake_rtake_append _ _ (capacity_pos _),
    rtake_rtake_of_le _ hn, List.map_append, List.map_singleton]

/-! ### What a plan says about the sensor -/

theorem phase_of_planAscend {l : Ladder} {unprotected protectedSessions : List String}
    {plan : LadderPlan} (h : l.planAscend cfg unprotected protectedSessions = .ok plan) :
    plan.phase = .none ∨ plan.phase = .flip := by
  rw [Ladder.planAscend] at h
  split at h
  · obtain rfl := Except.ok.inj h
    exact Or.inl rfl
  · obtain ⟨step, -, rfl⟩ := map_eq_ok h
    split
    · exact Or.inl rfl
    split
    · exact Or.inl rfl
    · exact Or.inr rfl

theorem phase_of_planPreStage {l : Ladder} {protectedSessions : List String} {plan : LadderPlan}
    (h : l.planPreStage cfg protectedSessions = .ok plan) :
    plan.phase = .none ∨ plan.phase = .preStage := by
  rw [Ladder.planPreStage] at h
  split at h
  · obtain rfl := Except.ok.inj h
    exact Or.inl rfl
  · obtain ⟨step, -, rfl⟩ := map_eq_ok h
    split
    · exact Or.inl rfl
    · exact Or.inr rfl

theorem phase_planDescend (l : Ladder) (protectedSessions : List String) :
    (l.planDescend cfg protectedSessions).phase = .none ∨
      (l.planDescend cfg protectedSessions).phase = .descend := by
  rw [Ladder.planDescend]
  split
  · exact Or.inl rfl
  · exact Or.inr rfl

/-- **A plan other than none comes from a verdict of the sensor.** -/
theorem verdict_of_plan {l : Ladder} {b : Boundary} {plan : LadderPlan}
    (h : l.plan cfg b = .ok plan) :
    plan.phase = .none ∨
      plan.phase = .flip ∧ cfg.sensor.verdict l.history = .ascend ∨
      plan.phase = .descend ∧ cfg.sensor.verdict l.history = .descend ∨
      plan.phase = .preStage ∧ cfg.sensor.stageVerdict l.history = .start ∨
      plan.phase = .abortStage ∧ cfg.sensor.stageVerdict l.history = .abort := by
  rw [Ladder.plan] at h
  split at h
  next hv =>
    rcases phase_of_planAscend h with hphase | hphase
    · exact Or.inl hphase
    · exact Or.inr (Or.inl ⟨hphase, hv⟩)
  next v hv =>
    split at h
    next hstart =>
      rcases phase_of_planPreStage h with hphase | hphase
      · exact Or.inl hphase
      · exact Or.inr (Or.inr (Or.inr (Or.inl ⟨hphase, hstart.2⟩)))
    split at h
    next habort =>
      obtain rfl := Except.ok.inj h
      exact Or.inr (Or.inr (Or.inr (Or.inr ⟨rfl, habort.2.1⟩)))
    split at h
    next hdescend =>
      obtain rfl := Except.ok.inj h
      rcases phase_planDescend l _ with hphase | hphase
      · exact Or.inl hphase
      · exact Or.inr (Or.inr (Or.inl ⟨hphase, hdescend⟩))
    next =>
      obtain rfl := Except.ok.inj h
      exact Or.inl rfl

theorem eq_ok_of_toOption {result : Except String LadderPlan} {plan : LadderPlan}
    (h : result.toOption = some plan) : result = .ok plan := by
  cases result with
  | error e => cases h
  | ok plan' => rw [Option.some.inj h]

/-- What the sensor has said when a plan was produced at a boundary. -/
theorem verdict_of_phaseAt {phase : Phase} (h : phaseAt cfg before x = some phase) :
    let history := cfg.sensor.observe (after cfg before).history x.sample
    phase = .none ∨
      phase = .flip ∧ cfg.sensor.verdict history = .ascend ∨
      phase = .descend ∧ cfg.sensor.verdict history = .descend ∨
      phase = .preStage ∧ cfg.sensor.stageVerdict history = .start ∨
      phase = .abortStage ∧ cfg.sensor.stageVerdict history = .abort := by
  rw [phaseAt, Ladder.onPressureBoundary] at h
  dsimp only at h
  split at h
  · obtain rfl := Option.some.inj h
    exact Or.inl rfl
  · obtain ⟨plan, hplan, rfl⟩ := Option.map_eq_some_iff.mp h
    exact verdict_of_plan (eq_ok_of_toOption hplan)

/-! ### The distance of two plans -/

/-- The last `n` samples of a series. -/
def window (before : List Boundary) (b : Boundary) (n : ℕ) : List OccupancySample :=
  ((before ++ [b]).map Boundary.sample).rtake n

theorem sample_mem_window (before : List Boundary) (b : Boundary) {n : ℕ} (hn : 1 ≤ n) :
    b.sample ∈ window before b n := by
  obtain ⟨n, rfl⟩ := Nat.exists_eq_add_of_le' hn
  rw [window, List.map_append, List.map_singleton, List.rtake_concat_succ]
  exact List.mem_append_right _ (List.mem_singleton_self _)

theorem mem_window_later {s : OccupancySample} {n : ℕ} (hs : s ∈ window before x n) :
    s ∈ window (before ++ x :: between) y (n + (between.length + 1)) := by
  have hmem : s ∈ ((before ++ [x]).map Boundary.sample ++
      (between ++ [y]).map Boundary.sample).rtake (n + (between.length + 1)) :=
    mem_rtake_append hs (by simp)
  rw [window]
  rwa [← List.map_append, List.append_assoc, List.singleton_append, ← List.cons_append,
    ← List.append_assoc] at hmem

/-- A window without some sample of the last `n + 1 + m` ones is that short. -/
theorem sub_le_of_window {p : OccupancySample → Prop} {n k m : ℕ}
    (hsome : ∃ s ∈ window before y (n + 1 + m), ¬p s) (hall : ∀ s ∈ window before y k, p s) :
    k - n ≤ m := by
  by_contra hlt
  obtain ⟨s, hs, hnot⟩ := hsome
  have hmem := mem_rtake_append (m := []) (k := k) hs (by simp only [List.length_nil]; omega)
  rw [List.append_nil] at hmem
  exact hnot (hall s hmem)

/-- **The ladder does not flap**, if it climbs for the level, or for a trend and not all is low from
the sample before the window of the climb on. From a flip to a plan to descend, and from a staged
copy to a plan to discard it, there are at least as many samples as the long window is longer than
the short one. -/
theorem no_flapping (cfg : Config) (before between : List Boundary) (x y : Boundary) :
    (phaseAt cfg before x = some .flip →
      LevelHit (window before x cfg.sensor.ascendWindow) cfg.sensor.ascendThreshold ∨
        (∃ s ∈ window (before ++ x :: between) y
            (cfg.sensor.ascendWindow + 1 + (between.length + 1)),
          cfg.sensor.descendThreshold < s.occupancy) →
      phaseAt cfg (before ++ x :: between) y = some .descend →
      cfg.sensor.descendWindow - cfg.sensor.ascendWindow ≤ between.length + 1) ∧
    (phaseAt cfg before x = some .preStage →
      LevelHit (window before x cfg.sensor.preStageWindow) cfg.sensor.preStageThreshold ∨
        (∃ s ∈ window (before ++ x :: between) y
            (cfg.sensor.preStageWindow + 1 + (between.length + 1)),
          cfg.sensor.preStageThreshold ≤ s.occupancy) →
      phaseAt cfg (before ++ x :: between) y = some .abortStage →
      cfg.sensor.abortStageWindow - cfg.sensor.preStageWindow ≤ between.length + 1) := by
  have hdescend : cfg.sensor.descendWindow ≤ cfg.sensor.capacity :=
    (le_max_left _ _).trans (le_max_left _ _)
  have habort : cfg.sensor.abortStageWindow ≤ cfg.sensor.capacity :=
    (le_max_right _ _).trans (le_max_left _ _)
  constructor
  · intro _ hhigh hphase
    have hverdict : cfg.sensor.verdict (cfg.sensor.observe
        (after cfg (before ++ x :: between)).history y.sample) = .descend := by
      simpa using verdict_of_phaseAt hphase
    rw [Sensor.verdict] at hverdict
    split_ifs at hverdict with hascend hlow
    have hlow' := hlow.2.1
    rw [rtake_history _ _ hdescend] at hlow'
    refine sub_le_of_window (p := fun s => s.occupancy ≤ cfg.sensor.descendThreshold) ?_ hlow'
    rcases hhigh with hlevel | ⟨s, hs, hgt⟩
    · have hlast := hlevel _ (sample_mem_window before x cfg.sensor.ascendWindow_pos)
      refine ⟨_, mem_window_later (sample_mem_window before x (Nat.le_add_left 1 _)),
        not_le.mpr ?_⟩
      exact (cfg.sensor.descend_lt_preStage.trans cfg.sensor.preStage_lt_ascend).trans_le hlast
    · exact ⟨s, hs, not_le.mpr hgt⟩
  · intro _ hhigh hphase
    have hverdict : cfg.sensor.stageVerdict (cfg.sensor.observe
        (after cfg (before ++ x :: between)).history y.sample) = .abort := by
      simpa using verdict_of_phaseAt hphase
    rw [Sensor.stageVerdict] at hverdict
    split_ifs at hverdict with hstart hlow
    have hlow' := hlow.2.1
    rw [rtake_history _ _ habort] at hlow'
    refine sub_le_of_window (p := fun s => s.occupancy < cfg.sensor.preStageThreshold) ?_ hlow'
    rcases hhigh with hlevel | ⟨s, hs, hge⟩
    · have hlast := hlevel _ (sample_mem_window before x cfg.sensor.preStageWindow_pos)
      exact ⟨_, mem_window_later (sample_mem_window before x (Nat.le_add_left 1 _)),
        not_lt.mpr hlast⟩
    · exact ⟨s, hs, not_lt.mpr hge⟩

end History

theorem small_marks : (0 : ℚ) < 1 / 2 ∧ (1 / 2 : ℚ) < 3 / 5 ∧ (3 / 5 : ℚ) < 4 / 5 ∧
    (4 / 5 : ℚ) ≤ 1 := by
  norm_num

/-- A sensor that climbs after two samples and descends after four. -/
def smallSensor : Sensor where
  ascendThreshold := 4 / 5
  ascendWindow := 2
  descendThreshold := 1 / 2
  descendWindow := 4
  preStageThreshold := 3 / 5
  preStageWindow := 2
  abortStageWindow := 4
  horizonRounds := 1
  preStageHorizonRounds := 2
  descend_pos := small_marks.1
  descend_lt_preStage := small_marks.2.1
  preStage_lt_ascend := small_marks.2.2.1
  ascend_le_one := small_marks.2.2.2
  ascendWindow_pos := Nat.le_succ 1
  preStageWindow_pos := Nat.le_succ 1
  ascend_lt_descend := Nat.lt_of_sub_eq_succ rfl
  preStage_lt_abort := Nat.lt_of_sub_eq_succ rfl
  horizon_pos := Nat.le_refl 1
  horizon_le := Nat.le_succ 1

/-- A ladder with one step above the base. -/
def smallLadder (preStageEnabled : Bool) : Config where
  sensor := smallSensor
  table := [⟨.base, .none, true, 0⟩, ⟨.geometry, .backgroundMigrate, true, 0⟩]
  preStageEnabled := preStageEnabled

/-- A round in which `used` of 10 tokens are used. -/
def obs (index : ℤ) (used : ℕ) : Boundary where
  sample := ⟨index, used, 10, Nat.succ_pos 9⟩
  captureActive := false
  sessions := []
  protectedIds := []

/-- The server climbs at a high level and descends four samples later. -/
theorem no_flapping_level :
    phaseAt (smallLadder false) [obs 0 9] (obs 1 9) = some .flip ∧
      phaseAt (smallLadder false)
        ([obs 0 9] ++ obs 1 9 :: [obs 2 0, obs 3 0, obs 4 0]) (obs 5 0) =
          some .descend ∧
      smallSensor.descendWindow - smallSensor.ascendWindow ≤ 3 + 1 := by
  have hflip : phaseAt (smallLadder false) [obs 0 9] (obs 1 9) = some .flip := by
    decide +kernel
  have hdescend : phaseAt (smallLadder false)
      ([obs 0 9] ++ obs 1 9 :: [obs 2 0, obs 3 0, obs 4 0]) (obs 5 0) =
        some .descend := by
    decide +kernel
  refine ⟨hflip, hdescend, (no_flapping (smallLadder false) [obs 0 9]
    [obs 2 0, obs 3 0, obs 4 0] (obs 1 9) (obs 5 0)).1 hflip (Or.inl ?_) hdescend⟩
  decide +kernel

/-- **The ladder can flap.** While at most half of the tokens are used, a rise from 0 to 5 of 10
makes it climb, and with the next sample it descends, where two samples should lie between; and a
rise from 0 to 4 makes it stage a copy that it discards with the next sample. -/
theorem flapping :
    phaseAt (smallLadder false) [obs 0 5, obs 1 5, obs 2 0] (obs 3 5) = some .flip ∧
      phaseAt (smallLadder false) [obs 0 5, obs 1 5, obs 2 0, obs 3 5] (obs 4 0) =
        some .descend ∧
      phaseAt (smallLadder true) [obs 0 5, obs 1 5, obs 2 0] (obs 3 4) =
        some .preStage ∧
      phaseAt (smallLadder true) [obs 0 5, obs 1 5, obs 2 0, obs 3 4] (obs 4 0) =
        some .abortStage ∧
      ¬smallSensor.descendWindow - smallSensor.ascendWindow ≤ 1 ∧
      ¬smallSensor.abortStageWindow - smallSensor.preStageWindow ≤ 1 := by
  decide +kernel

end PressureLadder

end HtSglang
