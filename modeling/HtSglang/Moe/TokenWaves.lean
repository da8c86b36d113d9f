import HtSglang.Library.Dict
import HtSglang.Library.Greedy
import HtSglang.Library.Loop

/-!
# Waves of tokens over a scratch region

A layer keeps some of its experts on the device; the others are *spilled* and are fetched into
a few scratch slots before they run (`layers/moe/expert_offload.py`). A forward that routes to
more spilled experts than there are slots is cut into waves of consecutive tokens
(`HtSglang.ExpertOffload.planTokenWaves`), and each wave is resolved on its own
(`HtSglang.ExpertOffload.Planner.resolve`).

The split is `HtSglang.greedy`, so it is minimal – for what it counts. A routing table is padded
with `-1`. Where the experts on the device are the first ones, `-1` is not counted; where they
are a set of their own, `-1` is not in it and is counted as a spilled expert.
-/

namespace HtSglang

namespace ExpertOffload

/-- What is raised. -/
inductive Error
  /-- `scratch must be >= 1`. -/
  | noScratch
  /-- A token routes to more spilled experts than there are scratch slots. -/
  | tokenOverflow (token spilled : ℕ)
  /-- A wave does. -/
  | waveOverflow (spilled : ℕ)
  /-- Experts that a peer's host tier owns, and no shared tier is attached. -/
  | delegated (experts : List ℤ)
  /-- A resident expert without a slot (`KeyError`). -/
  | noSlot
  deriving DecidableEq, Repr

/-! ### The planner -/

/-- `ExpertResidencyPlanner`. -/
structure Planner where
  numLocalExperts : ℕ
  residentCount : ℕ
  scratch : ℕ
  /-- `resident_ids`; the first `resident_count` experts when there is none. -/
  residentIds : Option (Finset ℤ) := none
  residentSlot : List (ℤ × ℕ) := []
  delegatedIds : Option (Finset ℤ) := none
  delegatedReachable : Bool := false

/-- Whether an expert is not on the device: `_is_spill`, and the test of `split_needed`. -/
def isSpill (residentIds : Option (Finset ℤ)) (residentCount : ℕ) (e : ℤ) : Bool :=
  match residentIds with
  | some ids => decide (e ∉ ids)
  | none => decide ((residentCount : ℤ) ≤ e)

namespace Planner

/-- `fully_resident`. -/
def fullyResident (p : Planner) : Bool := decide (p.numLocalExperts ≤ p.residentCount)

/-- `sorted(set(int(e) for e in needed if e >= 0))`. -/
def neededUnique (needed : List ℤ) : List ℤ :=
  (needed.filter fun e => decide (0 ≤ e)).toFinset.sort (· ≤ ·)

/-- `split_needed`: resident and spilled. -/
def splitNeeded (p : Planner) (unique : List ℤ) : List ℤ × List ℤ :=
  (unique.filter fun e => !isSpill p.residentIds p.residentCount e,
    unique.filter fun e => isSpill p.residentIds p.residentCount e)

/-- The slot of a resident expert. -/
def slotOfResident (p : Planner) (e : ℤ) : Except Error (ℤ × ℕ) :=
  match p.residentIds with
  | none => .ok (e, e.toNat)
  | some _ =>
    match p.residentSlot.lookup e with
    | some slot => .ok (e, slot)
    | none => .error .noSlot

/-- `resolve`: the slot of each needed expert, and what is fetched where. -/
def resolve (p : Planner) (needed : List ℤ) :
    Except Error (List (ℤ × ℕ) × List (ℤ × ℕ)) :=
  let unique := neededUnique needed
  if p.fullyResident then .ok (unique.map fun e => (e, e.toNat), [])
  else do
    let (resident, spill) := p.splitNeeded unique
    let residentSlotOf ← resident.mapM p.slotOfResident
    let foreign := spill.filter fun e => decide (∃ ids ∈ p.delegatedIds, e ∈ ids)
    if foreign ≠ [] ∧ p.delegatedReachable = false then throw (.delegated foreign)
    if p.scratch < spill.length then throw (.waveOverflow spill.length)
    let fetchPlan := spill.zipIdx.map fun x => (x.1, p.residentCount + x.2)
    return (residentSlotOf ++ fetchPlan, fetchPlan)

/-- What is fetched where. -/
def fetchPlan (p : Planner) (spill : List ℤ) : List (ℤ × ℕ) :=
  spill.zipIdx.map fun x => (x.1, p.residentCount + x.2)

/-- What `resolve` answers when nothing is delegated and the spilled experts fit. -/
theorem resolve_eq {p : Planner} {needed : List ℤ} (hfull : p.fullyResident = false)
    (hdelegated : p.delegatedIds = none) {slots : List (ℤ × ℕ)}
    (hslots : (p.splitNeeded (neededUnique needed)).1.mapM p.slotOfResident = .ok slots)
    (hfits : (p.splitNeeded (neededUnique needed)).2.length ≤ p.scratch) :
    p.resolve needed = .ok (slots ++ p.fetchPlan (p.splitNeeded (neededUnique needed)).2,
      p.fetchPlan (p.splitNeeded (neededUnique needed)).2) := by
  simp [resolve, fetchPlan, hfull, hslots, hdelegated, not_lt.mpr hfits, bind, Except.bind, pure,
    Except.pure]

end Planner

/-- The planner of a layout, with nothing delegated. -/
def planner (experts residentCount scratch : ℕ) (residentIds : Option (Finset ℤ))
    (slots : List (ℤ × ℕ)) : Planner where
  numLocalExperts := experts
  residentCount := residentCount
  scratch := scratch
  residentIds := residentIds
  residentSlot := slots

/-! ### The split -/

/-- The spilled experts of a token, as they are counted. -/
def spillOf (residentIds : Option (Finset ℤ)) (residentCount : ℕ) (experts : List ℤ) : Finset ℤ :=
  (experts.filter (isSpill residentIds residentCount)).toFinset

/-- The locals of the loop of `plan_token_waves`. -/
structure WaveState where
  waves : List (List ℕ) := []
  curRows : List ℕ := []
  curSpill : Finset ℤ := ∅

/-- One token. -/
def addToken (scratch : ℕ) (s : WaveState) (t : ℕ) (spill : Finset ℤ) : Except Error WaveState :=
  if scratch < spill.card then .error (.tokenOverflow t spill.card)
  else if s.curRows ≠ [] ∧ scratch < (s.curSpill ∪ spill).card then
    .ok { waves := s.waves ++ [s.curRows], curRows := [t], curSpill := spill }
  else .ok { s with curRows := s.curRows ++ [t], curSpill := s.curSpill ∪ spill }

/-- The last wave is closed. -/
def WaveState.close (s : WaveState) : List (List ℕ) :=
  if s.curRows = [] then s.waves else s.waves ++ [s.curRows]

/-- `plan_token_waves`. -/
def planTokenWaves (expertsPerToken : List (List ℤ)) (residentCount scratch : ℕ)
    (residentIds : Option (Finset ℤ)) : Except Error (List (List ℕ)) :=
  if scratch < 1 then .error .noScratch
  else (expertsPerToken.zipIdx.foldlM (fun s x =>
    addToken scratch s x.2 (spillOf residentIds residentCount x.1)) {}).map WaveState.close

/-! ### What the split is for -/

/-- The spilled experts of a token: padding is none. -/
def needs (residentIds : Option (Finset ℤ)) (residentCount : ℕ) (experts : List ℤ) : Finset ℤ :=
  (spillOf residentIds residentCount experts).filter fun e => 0 ≤ e

section Waves

variable (table : List (List ℤ)) (residentIds : Option (Finset ℤ)) (residentCount scratch : ℕ)

/-- What the split counts for a row. -/
def rowSpill (t : ℕ) : Finset ℤ := spillOf residentIds residentCount (table.getD t [])

/-- What a row has to fetch. -/
def rowNeeds (t : ℕ) : Finset ℤ := needs residentIds residentCount (table.getD t [])

/-- **A split into waves**: the tokens in order, each wave within the scratch region. -/
structure Splits (ws : List (List ℕ)) : Prop where
  /-- Every token is in exactly one wave, in order. -/
  flatten : ws.flatten = List.range table.length
  fits : ∀ w ∈ ws, (loadOf (rowNeeds table residentIds residentCount) w).card ≤ scratch

/-- **What a caller may expect of the answer**: it is refused exactly when a token does not fit by
itself, and otherwise it is a split that every planner of the layout resolves, with the fewest
waves. -/
def Correct : Prop :=
  match planTokenWaves table residentCount scratch residentIds with
  | .error _ => ∃ row ∈ table, scratch < (needs residentIds residentCount row).card
  | .ok waves =>
    (∀ row ∈ table, (needs residentIds residentCount row).card ≤ scratch) ∧
    Splits table residentIds residentCount scratch waves ∧
    (∀ w ∈ waves, ∀ (experts : ℕ) (slots : List (ℤ × ℕ)),
      (∀ ids ∈ residentIds, ∀ e ∈ ids, (slots.lookup e).isSome) →
      ∃ r, (planner experts residentCount scratch residentIds slots).resolve
        (w.flatMap fun t => table.getD t []) = .ok r) ∧
    ∀ ws, Splits table residentIds residentCount scratch ws → waves.length ≤ ws.length

/-- **Padding costs no wave**: where the tokens can be split, they can be split into as few waves
that also have room for the padding that is counted. -/
def PaddingIsFree : Prop :=
  ∀ ws, Splits table residentIds residentCount scratch ws →
    ∃ ws' : List (List ℕ), ws'.flatten = List.range table.length ∧
      (∀ w ∈ ws', (loadOf (rowSpill table residentIds residentCount) w).card ≤ scratch) ∧
      ws'.length ≤ ws.length

variable {table residentIds residentCount scratch}

/-! ### The loop is the greedy split -/

theorem foldlM_addToken {load : ℕ → Finset ℤ} {l : List ℕ} (hl : ∀ t ∈ l, (load t).card ≤ scratch)
    (ws : List (List ℕ)) {cur : List ℕ} (hcur : cur ≠ []) :
    (l.foldlM (fun s t => addToken scratch s t (load t)) ⟨ws, cur, loadOf load cur⟩).map
      WaveState.close = .ok (ws ++ greedy load scratch cur l) := by
  induction l generalizing ws cur with
  | nil =>
    rw [List.foldlM_nil]
    show Except.ok (WaveState.close _) = _
    rw [WaveState.close, if_neg hcur, greedy]
  | cons t l ih =>
    obtain ⟨ht, hrest⟩ := List.forall_mem_cons.mp hl
    rw [List.foldlM_cons, addToken, if_neg (not_lt.mpr ht), greedy]
    by_cases hover : scratch < (loadOf load cur ∪ load t).card
    · rw [if_pos ⟨hcur, hover⟩, if_pos hover]
      have hnew := ih hrest (ws ++ [cur]) (List.cons_ne_nil t [])
      simpa [bind, Except.bind] using hnew
    · rw [if_neg (fun hc => hover hc.2), if_neg hover]
      have hnew := ih hrest ws (List.append_ne_nil_of_right_ne_nil cur (List.cons_ne_nil t []))
      simpa [bind, Except.bind] using hnew

theorem foldlM_addToken_error {load : ℕ → Finset ℤ} {l : List ℕ}
    (hl : ∃ t ∈ l, scratch < (load t).card) (s : WaveState) :
    ∃ err, l.foldlM (fun s t => addToken scratch s t (load t)) s = .error err := by
  induction l generalizing s with
  | nil => simp at hl
  | cons t l ih =>
    rw [List.foldlM_cons]
    cases hadd : addToken scratch s t (load t) with
    | error err => exact ⟨err, rfl⟩
    | ok s' =>
      refine ih ?_ s'
      obtain ⟨t', ht', hover⟩ := hl
      rcases List.mem_cons.mp ht' with rfl | ht'
      · rw [addToken, if_pos hover] at hadd
        cases hadd
      · exact ⟨t', ht', hover⟩

theorem zipIdx_eq_map_range (table : List (List ℤ)) :
    table.zipIdx = (List.range table.length).map fun t => (table.getD t [], t) := by
  apply List.ext_getElem
  · simp
  · intro i hi _
    have hlt : i < table.length := by simpa using hi
    simp [List.getElem?_eq_getElem hlt]

theorem planTokenWaves_eq (hscratch : 1 ≤ scratch) :
    planTokenWaves table residentCount scratch residentIds =
      ((List.range table.length).foldlM (fun s t =>
        addToken scratch s t (rowSpill table residentIds residentCount t)) {}).map
        WaveState.close := by
  rw [planTokenWaves, if_neg (by omega), zipIdx_eq_map_range, List.foldlM_map]
  rfl

theorem exists_row (P : Finset ℤ → Prop) :
    (∃ t ∈ List.range table.length, P (rowSpill table residentIds residentCount t)) ↔
      ∃ row ∈ table, P (spillOf residentIds residentCount row) := by
  constructor
  · rintro ⟨t, ht, hp⟩
    have hlt := List.mem_range.mp ht
    refine ⟨table.getD t [], ?_, hp⟩
    simp [List.getElem?_eq_getElem hlt]
  · rintro ⟨row, hrow, hp⟩
    obtain ⟨t, hlt, rfl⟩ := List.getElem_of_mem hrow
    exact ⟨t, List.mem_range.mpr hlt, by simpa [rowSpill, List.getElem?_eq_getElem hlt] using hp⟩

/-- **What is answered**, in terms of what is counted. -/
theorem planTokenWaves_cases (table : List (List ℤ)) (residentIds : Option (Finset ℤ))
    (residentCount : ℕ) (hscratch : 1 ≤ scratch) :
    (∃ err, planTokenWaves table residentCount scratch residentIds = .error err ∧
      ∃ row ∈ table, scratch < (spillOf residentIds residentCount row).card) ∨
    (planTokenWaves table residentCount scratch residentIds =
        .ok (pieces (rowSpill table residentIds residentCount) scratch
          (List.range table.length)) ∧
      ∀ t ∈ List.range table.length,
        (rowSpill table residentIds residentCount t).card ≤ scratch) := by
  rw [planTokenWaves_eq hscratch]
  by_cases hover : ∃ t ∈ List.range table.length,
      scratch < (rowSpill table residentIds residentCount t).card
  · left
    obtain ⟨err, herr⟩ := foldlM_addToken_error hover {}
    rw [herr]
    exact ⟨err, rfl, (exists_row fun s => scratch < s.card).mp hover⟩
  · right
    have hle : ∀ t ∈ List.range table.length,
        (rowSpill table residentIds residentCount t).card ≤ scratch :=
      fun t ht => not_lt.mp fun hc => hover ⟨t, ht, hc⟩
    refine ⟨?_, hle⟩
    cases hrows : List.range table.length with
    | nil => rfl
    | cons t l =>
      rw [hrows] at hle
      obtain ⟨ht, hrest⟩ := List.forall_mem_cons.mp hle
      rw [List.foldlM_cons, addToken, if_neg (not_lt.mpr ht), if_neg (by simp)]
      have hloop := foldlM_addToken hrest [] (List.cons_ne_nil t [])
      simpa [pieces, bind, Except.bind] using hloop

/-! ### When padding does not count -/

theorem rowNeeds_subset (t : ℕ) :
    rowNeeds table residentIds residentCount t ⊆ rowSpill table residentIds residentCount t :=
  Finset.filter_subset _ _

/-- A wave is resolved when what it has to fetch fits. -/
theorem resolve_wave {w : List ℕ}
    (hfits : (loadOf (rowNeeds table residentIds residentCount) w).card ≤ scratch) (experts : ℕ)
    {slots : List (ℤ × ℕ)} (hslots : ∀ ids ∈ residentIds, ∀ e ∈ ids, (slots.lookup e).isSome) :
    ∃ r, (planner experts residentCount scratch residentIds slots).resolve
      (w.flatMap fun t => table.getD t []) = .ok r := by
  set p := planner experts residentCount scratch residentIds slots with hp
  set unique := Planner.neededUnique (w.flatMap fun t => table.getD t []) with hunique
  obtain ⟨residentSlotOf, hresident⟩ : ∃ bs,
      (p.splitNeeded unique).1.mapM p.slotOfResident = .ok bs := by
    rw [mapM_isOk_iff]
    intro e he
    have hstays : isSpill residentIds residentCount e = false := by
      simpa [Planner.splitNeeded, hp, planner] using (List.mem_filter.mp he).2
    cases hids : residentIds with
    | none => exact ⟨(e, e.toNat), by simp [Planner.slotOfResident, hp, planner, hids]⟩
    | some ids =>
      have hmem : e ∈ ids := by simpa [isSpill, hids] using hstays
      obtain ⟨slot, hslot⟩ := Option.isSome_iff_exists.mp (hslots ids hids e hmem)
      exact ⟨(e, slot), by simp [Planner.slotOfResident, hp, planner, hids, hslot]⟩
  -- the spilled list has the experts of the wave's load
  have hlength : (p.splitNeeded unique).2.length =
      (loadOf (rowNeeds table residentIds residentCount) w).card := by
    have hnodup : (p.splitNeeded unique).2.Nodup := (Finset.sort_nodup _ _).filter _
    rw [← List.toFinset_card_of_nodup hnodup]
    congr 1
    ext e
    simp only [Planner.splitNeeded, hunique, Planner.neededUnique, hp, planner, List.mem_toFinset,
      List.mem_filter, Finset.mem_sort, List.mem_flatMap, decide_eq_true_eq, mem_loadOf, rowNeeds,
      needs, spillOf, Finset.mem_filter]
    constructor
    · rintro ⟨⟨⟨t, ht, he⟩, hpos⟩, hspill⟩
      exact ⟨t, ht, ⟨he, hspill⟩, hpos⟩
    · rintro ⟨t, ht, ⟨he, hspill⟩, hpos⟩
      exact ⟨⟨⟨t, ht, he⟩, hpos⟩, hspill⟩
  cases hfull : p.fullyResident with
  | true => exact ⟨_, by rw [Planner.resolve, if_pos hfull]⟩
  | false => exact ⟨_, Planner.resolve_eq hfull rfl hresident (hlength.trans_le hfits)⟩

theorem loadOf_rowNeeds_subset (w : List ℕ) :
    loadOf (rowNeeds table residentIds residentCount) w ⊆
      loadOf (rowSpill table residentIds residentCount) w := by
  intro e he
  obtain ⟨t, ht, het⟩ := mem_loadOf.mp he
  exact mem_loadOf.mpr ⟨t, ht, rowNeeds_subset t het⟩

theorem exists_getD {row : List ℤ} (hrow : row ∈ table) :
    ∃ t ∈ List.range table.length, table.getD t [] = row := by
  obtain ⟨t, hlt, rfl⟩ := List.getElem_of_mem hrow
  exact ⟨t, List.mem_range.mpr hlt, List.getD_eq_getElem _ _ hlt⟩

/-- One wave a token, when each fits. -/
theorem splits_singletons
    (h : ∀ row ∈ table, (needs residentIds residentCount row).card ≤ scratch) :
    Splits table residentIds residentCount scratch ((List.range table.length).map ([·])) := by
  refine ⟨by simp [← List.flatMap_def], fun w hw => ?_⟩
  obtain ⟨t, ht, rfl⟩ := List.mem_map.mp hw
  have hlt := List.mem_range.mp ht
  have hrow := h (table.getD t []) (by simp [List.getElem?_eq_getElem hlt])
  simpa [rowNeeds] using hrow

/-- **The answer is right exactly when padding costs no wave.** -/
theorem correct_iff (hscratch : 1 ≤ scratch) : Correct table residentIds residentCount scratch ↔
    PaddingIsFree table residentIds residentCount scratch := by
  -- a token of a split fits by itself
  have hone : ∀ {load : ℕ → Finset ℤ} {ws : List (List ℕ)} {t : ℕ},
      ws.flatten = List.range table.length → (∀ w ∈ ws, (loadOf load w).card ≤ scratch) →
      t ∈ List.range table.length → (load t).card ≤ scratch := by
    intro load ws t hflat hfits ht
    obtain ⟨w, hw, htw⟩ := List.mem_flatten.mp (hflat ▸ ht)
    exact (Finset.card_le_card fun e he => mem_loadOf.mpr ⟨t, htw, he⟩).trans (hfits w hw)
  rw [Correct]
  rcases planTokenWaves_cases table residentIds residentCount hscratch with
    ⟨err, herr, row, hrow, hover⟩ | ⟨hok, hle⟩
  · rw [herr]
    constructor
    · rintro ⟨row, hrow, hneeds⟩ ws hws
      obtain ⟨t, ht, rfl⟩ := exists_getD hrow
      exact absurd (hone hws.flatten hws.fits ht) (not_le.mpr hneeds)
    · intro hfree
      by_contra hnone
      have hneeds : ∀ row ∈ table, (needs residentIds residentCount row).card ≤ scratch :=
        fun row hrow => not_lt.mp fun hc => hnone ⟨row, hrow, hc⟩
      obtain ⟨ws, hflat, hfits, -⟩ := hfree _ (splits_singletons hneeds)
      obtain ⟨t, ht, rfl⟩ := exists_getD hrow
      exact absurd (hone hflat hfits ht) (not_le.mpr hover)
  rw [hok]
  have hpieces := card_pieces_le hle
  have hneeds := fun w hw =>
    (Finset.card_le_card (loadOf_rowNeeds_subset w)).trans (hpieces w hw)
  constructor
  · exact fun h ws hws => ⟨_, flatten_pieces _ _ _, hpieces, h.2.2.2 ws hws⟩
  · intro hfree
    refine ⟨fun row hrow => ?_, ⟨flatten_pieces _ _ _, hneeds⟩,
      fun w hw experts slots hslots => resolve_wave (hneeds w hw) experts hslots, fun ws hws => ?_⟩
    · obtain ⟨t, ht, rfl⟩ := exists_getD hrow
      exact (Finset.card_le_card (rowNeeds_subset t)).trans (hle t ht)
    · obtain ⟨ws', hflat, hfits, hlen⟩ := hfree ws hws
      exact (length_pieces_le hflat hfits).trans hlen

/-- The answer is right when what is counted fits wherever what has to be fetched fits. -/
theorem correct_of_fits (hscratch : 1 ≤ scratch)
    (hfits : ∀ w, (loadOf (rowNeeds table residentIds residentCount) w).card ≤ scratch →
      (loadOf (rowSpill table residentIds residentCount) w).card ≤ scratch) :
    Correct table residentIds residentCount scratch :=
  (correct_iff hscratch).mpr fun ws hws =>
    ⟨ws, hws.flatten, fun w hw => hfits w (hws.fits w hw), le_rfl⟩

/-- Padding that counts is in the load of the whole table, and in nobody's needs. -/
theorem card_lt_loadOf {ids : Finset ℤ} {row : List ℤ} (hrow : row ∈ table) (hpad : -1 ∈ row)
    (hids : -1 ∉ ids) :
    (loadOf (rowNeeds table (some ids) residentCount) (List.range table.length)).card <
      (loadOf (rowSpill table (some ids) residentCount) (List.range table.length)).card := by
  refine Finset.card_lt_card (Finset.ssubset_iff_subset_ne.mpr
    ⟨loadOf_rowNeeds_subset _, fun heq => ?_⟩)
  obtain ⟨t, ht, rfl⟩ := exists_getD hrow
  have hmem : (-1 : ℤ) ∈ loadOf (rowSpill table (some ids) residentCount)
      (List.range table.length) :=
    mem_loadOf.mpr ⟨t, ht, by simpa [rowSpill, spillOf, isSpill, hids] using hpad⟩
  rw [← heq] at hmem
  obtain ⟨t', -, hmem⟩ := mem_loadOf.mp hmem
  simp [rowNeeds, needs] at hmem

theorem mem_rowSpill {t : ℕ} {e : ℤ} (he : e ∈ rowSpill table residentIds residentCount t) :
    isSpill residentIds residentCount e = true ∧ ∃ row ∈ table, e ∈ row := by
  simp only [rowSpill, spillOf, List.mem_toFinset, List.mem_filter] at he
  refine ⟨he.2, ?_⟩
  by_cases hlt : t < table.length
  · rw [List.getD_eq_getElem _ _ hlt] at he
    exact ⟨_, List.getElem_mem hlt, he.1⟩
  · rw [List.getD_eq_default _ _ (not_lt.mp hlt)] at he
    cases he.1

/-- As many slots as the whole table needs: one wave would do, and padding that counts leaves room
for none that holds all tokens. -/
theorem not_correct_of_padding {ids : Finset ℤ} {row : List ℤ} (hrow : row ∈ table)
    (hpad : -1 ∈ row) (hids : -1 ∉ ids)
    (hpos : 1 ≤ (loadOf (rowNeeds table (some ids) residentCount)
      (List.range table.length)).card) :
    ¬Correct table (some ids) residentCount
      (loadOf (rowNeeds table (some ids) residentCount) (List.range table.length)).card := by
  intro h
  obtain ⟨waves, hflat, hfits, hlen⟩ := (correct_iff hpos).mp h [List.range table.length]
    ⟨by simp, by simp⟩
  obtain ⟨t, ht, -⟩ := exists_getD hrow
  rcases waves with _ | ⟨wave, _ | ⟨wave', rest⟩⟩
  · rw [List.flatten_nil] at hflat
    rw [← hflat] at ht
    cases ht
  · rw [List.flatten_singleton] at hflat
    have hbound := hfits wave (List.mem_singleton_self _)
    rw [hflat] at hbound
    exact absurd (card_lt_loadOf hrow hpad hids) (not_lt.mpr hbound)
  · simp at hlen

/-- Where padding is not counted, nothing but needs is. -/
theorem correct_of_no_padding (hscratch : 1 ≤ scratch) (hrange : ∀ row ∈ table, ∀ e ∈ row, -1 ≤ e)
    (hpad : ∀ ids ∈ residentIds, ∀ row ∈ table, -1 ∈ row → -1 ∈ ids) :
    Correct table residentIds residentCount scratch := by
  refine correct_of_fits hscratch fun w hneeds => (Finset.card_le_card fun e he => ?_).trans hneeds
  obtain ⟨t, ht, het⟩ := mem_loadOf.mp he
  obtain ⟨hout, row, hrow, hmem⟩ := mem_rowSpill het
  have hge := hrange row hrow e hmem
  refine mem_loadOf.mpr ⟨t, ht, Finset.mem_filter.mpr ⟨het, ?_⟩⟩
  cases hids : residentIds with
  | none =>
    have hcount : (residentCount : ℤ) ≤ e := by simpa [isSpill, hids] using hout
    omega
  | some ids =>
    have hne : e ≠ -1 := by
      rintro rfl
      have hnot : (-1 : ℤ) ∉ ids := by simpa [isSpill, hids] using hout
      exact hnot (hpad ids hids row hrow hmem)
    omega

/-- Where nothing is needed, only padding is counted, and one slot is enough for it. -/
theorem correct_of_no_needs (hscratch : 1 ≤ scratch) (hrange : ∀ row ∈ table, ∀ e ∈ row, -1 ≤ e)
    (hnone : ∀ row ∈ table, needs residentIds residentCount row = ∅) :
    Correct table residentIds residentCount scratch := by
  refine correct_of_fits hscratch fun w _ => ?_
  have hsub : loadOf (rowSpill table residentIds residentCount) w ⊆ {-1} := by
    intro e he
    obtain ⟨t, -, het⟩ := mem_loadOf.mp he
    obtain ⟨hout, row, hrow, hmem⟩ := mem_rowSpill het
    have hnot : e ∉ needs residentIds residentCount row := by simp [hnone row hrow]
    have hneg : ¬0 ≤ e := fun hc => hnot (by simp [needs, spillOf, hmem, hout, hc])
    have hge := hrange row hrow e hmem
    exact Finset.mem_singleton.mpr (by omega)
  exact (Finset.card_le_card hsub).trans (by simpa using hscratch)

/-- **When the split is right**: for a scratch region, exactly when padding costs no wave; and for
every scratch region, exactly when, where the experts on the device are a set of their own, padding
does not occur outside it, or no token needs a spilled expert at all. -/
theorem planTokenWaves_correct_iff (table : List (List ℤ)) (residentIds : Option (Finset ℤ))
    (residentCount : ℕ) (hrange : ∀ row ∈ table, ∀ e ∈ row, -1 ≤ e) :
    (∀ scratch, 1 ≤ scratch → (Correct table residentIds residentCount scratch ↔
      PaddingIsFree table residentIds residentCount scratch)) ∧
    ((∀ scratch, 1 ≤ scratch → Correct table residentIds residentCount scratch) ↔
      ∀ ids ∈ residentIds, (∀ row ∈ table, -1 ∈ row → -1 ∈ ids) ∨
        ∀ row ∈ table, needs residentIds residentCount row = ∅) := by
  refine ⟨fun scratch => correct_iff, ?_⟩
  constructor
  · intro hcorrect ids hids
    subst hids
    by_contra hbad
    obtain ⟨⟨row, hrow, hpad, hout⟩, row', hrow', hneeds⟩ :
        (∃ row ∈ table, -1 ∈ row ∧ -1 ∉ ids) ∧
          ∃ row ∈ table, needs (some ids) residentCount row ≠ ∅ := by
      simpa only [not_or, not_forall, exists_prop] using hbad
    obtain ⟨t, ht, rfl⟩ := exists_getD hrow'
    obtain ⟨e, he⟩ := Finset.nonempty_iff_ne_empty.mpr hneeds
    have hneed : e ∈ rowNeeds table (some ids) residentCount t := he
    have hpos := Finset.card_pos.mpr ⟨e, mem_loadOf.mpr ⟨t, ht, hneed⟩⟩
    exact not_correct_of_padding hrow hpad hout hpos (hcorrect _ hpos)
  · intro hcond scratch hscratch
    by_cases hpad : ∀ ids ∈ residentIds, ∀ row ∈ table, -1 ∈ row → -1 ∈ ids
    · exact correct_of_no_padding hscratch hrange hpad
    · obtain ⟨ids, hids, hbad⟩ : ∃ ids ∈ residentIds, ¬∀ row ∈ table, -1 ∈ row → -1 ∈ ids := by
        simpa only [not_forall, exists_prop] using hpad
      exact correct_of_no_needs hscratch hrange ((hcond ids hids).resolve_left hbad)

/-- Three tokens, one of them padded, where the first two experts are on the device. -/
theorem planTokenWaves_correct_static :
    (∀ scratch, 1 ≤ scratch → Correct [[0, 2], [3, -1], [2, 1]] none 2 scratch) ∧
      planTokenWaves [[0, 2], [3, -1], [2, 1]] 2 1 none = .ok [[0], [1], [2]] :=
  ⟨(planTokenWaves_correct_iff [[0, 2], [3, -1], [2, 1]] none 2 (by decide)).2.mpr (by simp),
    by decide +kernel⟩

/-- **Padding is counted**: with expert `0` on the device and one scratch slot, a token that needs
expert `1` alone is refused, and two tokens that fit in one wave get two. -/
theorem planTokenWaves_counts_padding :
    planTokenWaves [[1, -1]] 1 1 (some {0}) = .error (.tokenOverflow 0 2) ∧
    (needs (some {0}) 1 [1, -1]).card = 1 ∧
    planTokenWaves [[0, -1], [1, 0]] 1 1 (some {0}) = .ok [[0], [1]] ∧
    (loadOf (rowNeeds [[0, -1], [1, 0]] (some {0}) 1) [0, 1]).card = 1 := by
  decide +kernel

end Waves

end ExpertOffload

end HtSglang
