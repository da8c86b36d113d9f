import HtSglang.Moe.TokenWaves

/-!
# The remap inside a captured graph

The eager path resolves a forward on the host and builds a table from expert to slot. Inside a
captured graph nothing may be decided on the host, so the same table is computed from fixed
tensors: an expert's scratch slot is its rank among the spilled experts that are present
(`HtSglang.ExpertOffload.prepareCapturableRemap`). The rank in a sorted list is the number of
smaller entries (`HtSglang.ExpertOffload.length_filter_lt`), which is why the two agree.

They part in one place. A planner whose experts are all on the device answers every expert with
its own number, whatever the layout says (`resolve` returns before it looks), while the captured
table is read from the layout.
-/

namespace HtSglang

namespace ExpertOffload

/-! ### Tensors -/

/-- A tensor with one entry for each expert, as a function of the expert. -/
abbrev Lut := ℕ → ℤ

/-- Entries are written one after the other. -/
def writeAll {α : Type*} (key : α → ℕ) (val : α → ℤ) (f : Lut) (l : List α) : Lut :=
  l.foldl (fun f a => Function.update f (key a) (val a)) f

section WriteAll

variable {α : Type*} {key : α → ℕ} {val : α → ℤ} {l : List α}

theorem writeAll_of_ne (f : Lut) {n : ℕ} (h : ∀ a ∈ l, key a ≠ n) :
    writeAll key val f l n = f n := by
  induction l generalizing f with
  | nil => rfl
  | cons a l ih =>
    obtain ⟨ha, hl⟩ := List.forall_mem_cons.mp h
    exact (ih _ hl).trans (Function.update_of_ne (Ne.symm ha) _ _)

/-- The entry of a key that only one element writes. -/
theorem writeAll_of_mem (f : Lut) {a : α} (ha : a ∈ l) (huniq : ∀ b ∈ l, key b = key a → b = a) :
    writeAll key val f l (key a) = val a := by
  induction l generalizing f with
  | nil => cases ha
  | cons b l ih =>
    by_cases hmem : a ∈ l
    · exact ih _ hmem fun c hc => huniq c (List.mem_cons_of_mem b hc)
    · obtain rfl : a = b := (List.mem_cons.mp ha).resolve_right hmem
      have hne : ∀ c ∈ l, key c ≠ key a := fun c hc hkey =>
        hmem (huniq c (List.mem_cons_of_mem a hc) hkey ▸ hc)
      exact (writeAll_of_ne _ hne).trans (Function.update_self _ _ _)

end WriteAll

/-! ### The layout -/

/-- The frozen residency maps; the first experts are on the device when there are none. -/
inductive Maps
  /-- The static layout. -/
  | static
  /-- `resident_slot` and `spill_pool_index`. -/
  | hot (residentSlot spillPoolIndex : List (ℤ × ℕ))

/-- **Frozen maps are bijections**: of the experts on the device to the slots, and of the others to
the rows of the pool. -/
structure Frozen (E R : ℕ) (residentSlot spillPoolIndex : List (ℤ × ℕ)) : Prop where
  /-- Each expert is in one of the maps, once. -/
  experts : (Dict.keys residentSlot ++ Dict.keys spillPoolIndex).Perm
    ((List.range E).map (Nat.cast : ℕ → ℤ))
  /-- The slots are the first `R`. -/
  slots : (residentSlot.map Prod.snd).Perm (List.range R)
  /-- The rows are those of the pool. -/
  rows : (spillPoolIndex.map Prod.snd).Perm (List.range (E - R))

namespace Maps

/-- `resident_ids`. -/
def residentIds : Maps → Option (Finset ℤ)
  | static => none
  | hot residentSlot _ => some (Dict.keys residentSlot).toFinset

/-- The planner's `resident_slot`. -/
def residentSlot : Maps → List (ℤ × ℕ)
  | static => []
  | hot residentSlot _ => residentSlot

/-- The layout is one of `E` experts, `R` of them on the device. -/
def WellFormed (E R : ℕ) : Maps → Prop
  | static => R ≤ E
  | hot residentSlot spillPoolIndex => Frozen E R residentSlot spillPoolIndex

/-- The slot that the layout has for an expert on the device. -/
def slot (m : Maps) (e : ℕ) : ℕ :=
  match m with
  | static => e
  | hot residentSlot _ => (residentSlot.lookup (e : ℤ)).getD 0

/-- The pool row that the layout has for a spilled expert. -/
def row (R : ℕ) (m : Maps) (e : ℕ) : ℕ :=
  match m with
  | static => e - R
  | hot _ spillPoolIndex => (spillPoolIndex.lookup (e : ℤ)).getD 0

end Maps

/-! ### The eager path -/

/-- `_build_lut`. -/
def buildLut (slotOfNeeded : List (ℤ × ℕ)) : Lut :=
  writeAll (fun x => x.1.toNat) (fun x => (x.2 : ℤ)) (fun _ => -1) slotOfNeeded

/-- `_remap`. -/
def remap (topkIds : List ℤ) (lut : Lut) : List ℤ :=
  topkIds.map fun id => if 0 ≤ id then lut id.toNat else id

/-- `remap_ids_host`. -/
def remapIdsHost (idsList : List (List ℤ)) (slotOfNeeded : List (ℤ × ℕ)) : List ℤ :=
  idsList.flatten.map fun e =>
    if e < 0 then e else ((slotOfNeeded.lookup e).map (Nat.cast : ℕ → ℤ)).getD (-1)

/-! ### The captured path -/

/-- `build_capturable_luts`: slots, whether spilled, and pool rows. -/
def buildCapturableLuts (E R : ℕ) : Maps → Lut × (ℕ → Bool) × Lut
  | .static =>
    let residentSlotLut : Lut := fun e => if e < R then e else -1
    (residentSlotLut, fun e => decide (residentSlotLut e < 0),
      fun e => if R ≤ e ∧ e < E then (e : ℤ) - R else -1)
  | .hot residentSlot spillPoolIndex =>
    let residentSlotLut := buildLut residentSlot
    (residentSlotLut, fun e => decide (residentSlotLut e < 0), buildLut spillPoolIndex)

/-- `presence`, then `spill_present`. -/
def spillPresent (topkIds : List ℤ) (isSpillLut : ℕ → Bool) (e : ℕ) : Bool :=
  decide (0 < topkIds.countP fun id => decide (0 ≤ id) && decide (id.toNat = e)) && isSpillLut e

/-- `rank`: the running sum less one. -/
def rank (present : ℕ → Bool) (e : ℕ) : ℤ := ((List.range (e + 1)).countP present : ℤ) - 1

/-- `dst`: where an expert's row is sent; slot `C` is thrown away. -/
def dst (present : ℕ → Bool) (C e : ℕ) : ℕ :=
  if present e then (max 0 (min (rank present e) ((C : ℤ) - 1))).toNat else C

/-- `prepare_capturable_remap`, without a breach counter: the remapped ids, the source rows, and
how many spilled experts are present. -/
def prepareCapturableRemap (topkIds : List ℤ) (E : ℕ) (luts : Lut × (ℕ → Bool) × Lut) (R C : ℕ) :
    List ℤ × Lut × ℕ :=
  let present := spillPresent topkIds luts.2.1
  let srcRow := writeAll (dst present C) luts.2.2 (fun _ => 0) (List.range E)
  let slotOf := fun e => if luts.2.1 e then R + rank present e else luts.1 e
  (topkIds.map fun id => if 0 ≤ id then slotOf id.toNat else id, srcRow,
    (List.range E).countP present)

/-! ### What the tables hold -/

/-- A table that is written from a dictionary is read like it. -/
theorem buildLut_apply {d : List (ℤ × ℕ)} (hd : (Dict.keys d).Nodup)
    (hpos : ∀ k ∈ Dict.keys d, 0 ≤ k) (n : ℕ) :
    buildLut d n = ((d.lookup (n : ℤ)).map (Nat.cast : ℕ → ℤ)).getD (-1) := by
  have hkey : ∀ x ∈ d, x.1.toNat = n → x.1 = n := fun x hx hn => by
    have := hpos x.1 (List.mem_map_of_mem hx)
    omega
  cases hlookup : d.lookup (n : ℤ) with
  | none =>
    refine writeAll_of_ne _ fun x hx hn => ?_
    exact Dict.lookup_eq_none.mp hlookup (hkey x hx hn ▸ List.mem_map_of_mem hx)
  | some s =>
    have hmem := Dict.mem_of_lookup hlookup
    refine writeAll_of_mem (a := ((n : ℤ), s)) _ hmem fun x hx hn => ?_
    obtain ⟨k, s'⟩ := x
    obtain rfl : k = n := hkey _ hx (by simpa using hn)
    rw [Dict.lookup_of_mem hd hx, Option.some.injEq] at hlookup
    rw [hlookup]

section Layout

variable {E R C : ℕ} {m : Maps}

theorem Frozen.nodup {residentSlot spillPoolIndex : List (ℤ × ℕ)}
    (h : Frozen E R residentSlot spillPoolIndex) :
    (Dict.keys residentSlot ++ Dict.keys spillPoolIndex).Nodup :=
  h.experts.nodup_iff.mpr (List.nodup_range.map Nat.cast_injective)

theorem Frozen.mem_iff {residentSlot spillPoolIndex : List (ℤ × ℕ)}
    (h : Frozen E R residentSlot spillPoolIndex) (k : ℤ) :
    k ∈ Dict.keys residentSlot ∨ k ∈ Dict.keys spillPoolIndex ↔ 0 ≤ k ∧ k < E := by
  rw [← List.mem_append, h.experts.mem_iff]
  simp only [List.mem_map, List.mem_range]
  exact ⟨by rintro ⟨e, he, rfl⟩; omega, fun hk => ⟨k.toNat, by omega, by omega⟩⟩

theorem Frozen.buildLut_resident {residentSlot spillPoolIndex : List (ℤ × ℕ)}
    (h : Frozen E R residentSlot spillPoolIndex) (n : ℕ) :
    buildLut residentSlot n =
      ((residentSlot.lookup (n : ℤ)).map (Nat.cast : ℕ → ℤ)).getD (-1) :=
  buildLut_apply (List.nodup_append.mp h.nodup).1
    (fun k hk => ((h.mem_iff k).mp (Or.inl hk)).1) n

/-- **The fixed tensors say what the layout says.** -/
theorem luts_spec (hwf : m.WellFormed E R) {e : ℕ} (he : e < E) :
    (buildCapturableLuts E R m).2.1 e = isSpill m.residentIds R e ∧
    (isSpill m.residentIds R e = false → (buildCapturableLuts E R m).1 e = m.slot e) ∧
    (isSpill m.residentIds R e = true → (buildCapturableLuts E R m).2.2 e = m.row R e) := by
  cases m with
  | static =>
    simp only [buildCapturableLuts, isSpill, Maps.residentIds, Maps.slot, Maps.row,
      decide_eq_true_eq, decide_eq_false_iff_not, decide_eq_decide]
    refine ⟨?_, fun h => ?_, fun h => ?_⟩
    · split <;> omega
    · rw [if_pos (by omega)]
    · rw [if_pos (by omega)]
      omega
  | hot residentSlot spillPoolIndex =>
    have h : Frozen E R residentSlot spillPoolIndex := hwf
    simp only [buildCapturableLuts, isSpill, Maps.residentIds, Maps.slot, Maps.row,
      List.mem_toFinset, decide_eq_true_eq, decide_eq_false_iff_not, not_not, decide_eq_decide]
    rw [h.buildLut_resident e]
    refine ⟨?_, fun hmem => ?_, fun hmem => ?_⟩
    · rw [← Dict.lookup_eq_none]
      cases residentSlot.lookup (e : ℤ) with
      | none => simp
      | some s => simp
    · obtain ⟨s, hs⟩ := Option.ne_none_iff_exists'.mp
        fun hc => Dict.lookup_eq_none.mp hc hmem
      simp [hs]
    · have hpool := ((h.mem_iff e).mpr ⟨by omega, by omega⟩).resolve_left hmem
      obtain ⟨s, hs⟩ := Option.ne_none_iff_exists'.mp
        fun hc => Dict.lookup_eq_none.mp hc hpool
      rw [buildLut_apply (List.nodup_append.mp h.nodup).2.1
        (fun k hk => ((h.mem_iff k).mp (Or.inr hk)).1) e, hs]
      simp

/-! ### Ranks -/

/-- In a strictly sorted list the place of an entry is the number of smaller ones. -/
theorem length_filter_lt {l : List ℤ} (hl : l.Pairwise (· < ·)) {i : ℕ} (hi : i < l.length) :
    (l.filter fun e => decide (e < l[i])).length = i := by
  induction l generalizing i with
  | nil => cases hi
  | cons a l ih =>
    obtain ⟨ha, hl⟩ := List.pairwise_cons.mp hl
    cases i with
    | zero =>
      have hnone : l.filter (fun e => decide (e < a)) = [] :=
        List.filter_eq_nil_iff.mpr fun e he => by simpa using (ha e he).le
      simp [hnone]
    | succ i =>
      have hlt : i < l.length := by simpa using hi
      have hfirst : a < l[i] := ha _ (List.getElem_mem hlt)
      simp [hfirst, ih hl hlt]

/-- The spilled experts of the eager path, in order. -/
def spillList (m : Maps) (R : ℕ) (topkIds : List ℤ) : List ℤ :=
  (Planner.neededUnique topkIds).filter fun e => isSpill m.residentIds R e

theorem mem_spillList {topkIds : List ℤ} {e : ℤ} :
    e ∈ spillList m R topkIds ↔ (e ∈ topkIds ∧ 0 ≤ e) ∧ isSpill m.residentIds R e = true := by
  simp [spillList, Planner.neededUnique]

theorem spillList_sorted (topkIds : List ℤ) : (spillList m R topkIds).Pairwise (· < ·) :=
  (Finset.sortedLT_sort _).pairwise.filter _

theorem length_spillList (topkIds : List ℤ) :
    (spillList m R topkIds).length = (needs m.residentIds R topkIds).card := by
  rw [← List.toFinset_card_of_nodup ((spillList_sorted topkIds).imp ne_of_lt)]
  congr 1
  ext e
  rw [List.mem_toFinset, mem_spillList]
  simp only [needs, spillOf, Finset.mem_filter, List.mem_toFinset, List.mem_filter]
  exact ⟨fun h => ⟨⟨h.1.1, h.2⟩, h.1.2⟩, fun h => ⟨⟨h.1.1, h.2⟩, h.1.2⟩⟩

variable {topkIds : List ℤ}

theorem spillPresent_iff (hwf : m.WellFormed E R) {e : ℕ} (he : e < E) :
    spillPresent topkIds (buildCapturableLuts E R m).2.1 e = true ↔
      (e : ℤ) ∈ spillList m R topkIds := by
  rw [mem_spillList, spillPresent, (luts_spec hwf he).1, Bool.and_eq_true, decide_eq_true_eq,
    List.countP_pos_iff]
  refine and_congr_left fun _ => ⟨?_, fun h => ⟨e, h.1, by simp⟩⟩
  rintro ⟨id, hid, hkey⟩
  simp only [Bool.and_eq_true, decide_eq_true_eq] at hkey
  obtain rfl : id = e := by omega
  exact ⟨hid, hkey.1⟩

/-- **The rank is the place in the sorted list.** -/
theorem rank_eq (hwf : m.WellFormed E R) {i : ℕ} (hi : i < (spillList m R topkIds).length)
    {e : ℕ} (he : e < E) (hget : (spillList m R topkIds)[i] = e) :
    rank (spillPresent topkIds (buildCapturableLuts E R m).2.1) e = i := by
  set present := spillPresent topkIds (buildCapturableLuts E R m).2.1
  have hself : present e = true := (spillPresent_iff hwf he).mpr (hget ▸ List.getElem_mem hi)
  have hperm : (((List.range e).filter present).map (Nat.cast : ℕ → ℤ)).Perm
      ((spillList m R topkIds).filter fun k => decide (k < (spillList m R topkIds)[i])) := by
    refine (List.perm_ext_iff_of_nodup
      ((List.nodup_range.filter _).map Nat.cast_injective)
      (((spillList_sorted topkIds).imp ne_of_lt).filter _)).mpr fun k => ?_
    simp only [List.mem_map, List.mem_filter, List.mem_range, hget, decide_eq_true_eq]
    constructor
    · rintro ⟨n, ⟨hlt, hn⟩, rfl⟩
      exact ⟨(spillPresent_iff hwf (hlt.trans he)).mp hn, by omega⟩
    · rintro ⟨hk, hlt⟩
      have hpos := (mem_spillList.mp hk).1.2
      have hcast : ((k.toNat : ℕ) : ℤ) = k := by omega
      exact ⟨k.toNat, ⟨by omega, (spillPresent_iff hwf (by omega)).mpr (hcast ▸ hk)⟩, hcast⟩
  have hlength := hperm.length_eq
  rw [length_filter_lt (spillList_sorted topkIds) hi, List.length_map] at hlength
  rw [rank, List.range_succ, List.countP_append, List.countP_eq_length_filter, hlength]
  simp [hself]

/-! ### Agreement -/

/-- **The captured remap does what the eager path does**: the ids are the same by each of the eager
ways, and the source row of a spilled expert's scratch slot is the expert's own. -/
def Agrees (m : Maps) (E R C : ℕ) (topkIds : List ℤ) : Prop :=
  let captured := prepareCapturableRemap topkIds E (buildCapturableLuts E R m) R C
  ∃ slotOf fetch,
    (planner E R C m.residentIds m.residentSlot).resolve topkIds = .ok (slotOf, fetch) ∧
    captured.1 = remap topkIds (buildLut slotOf) ∧
    (∀ rows : List (List ℤ), rows.flatten = topkIds → captured.1 = remapIdsHost rows slotOf) ∧
    ∀ id ∈ topkIds, 0 ≤ id → isSpill m.residentIds R id = true →
      ∃ j < C, (id, R + j) ∈ fetch ∧ captured.2.1 j = m.row R id.toNat

/-- The slots that the eager path resolves. -/
def slotsOf (m : Maps) (R : ℕ) (topkIds : List ℤ) : List (ℤ × ℕ) :=
  ((Planner.neededUnique topkIds).filter fun e => !isSpill m.residentIds R e).map
    (fun e => (e, m.slot e.toNat)) ++
  (spillList m R topkIds).zipIdx.map fun x => (x.1, R + x.2)

theorem resolve_slotsOf (hwf : m.WellFormed E R) (hfull : R < E)
    (hfits : (needs m.residentIds R topkIds).card ≤ C) :
    (planner E R C m.residentIds m.residentSlot).resolve topkIds = .ok (slotsOf m R topkIds,
      (spillList m R topkIds).zipIdx.map fun x => (x.1, R + x.2)) := by
  refine Planner.resolve_eq (decide_eq_false (not_le.mpr hfull)) rfl
    (mapM_ok fun e he => ?_) (by rw [← length_spillList] at hfits; exact hfits)
  simp only [Planner.splitNeeded, planner, Planner.neededUnique, List.mem_filter,
    Finset.mem_sort, List.mem_toFinset, decide_eq_true_eq, Bool.not_eq_true'] at he
  cases m with
  | static => rfl
  | hot residentSlot spillPoolIndex =>
    have hmem : e ∈ Dict.keys residentSlot := by
      simpa [isSpill, Maps.residentIds] using he.2
    obtain ⟨s, hs⟩ := Option.ne_none_iff_exists'.mp fun hc => Dict.lookup_eq_none.mp hc hmem
    have hcast : ((e.toNat : ℕ) : ℤ) = e := by omega
    simp [Planner.slotOfResident, planner, Maps.residentIds, Maps.residentSlot, Maps.slot, hs,
      hcast]

theorem keys_slotsOf_nodup : (Dict.keys (slotsOf m R topkIds)).Nodup := by
  have hsort : (Planner.neededUnique topkIds).Nodup := Finset.sort_nodup _ _
  have hkeys : Dict.keys (slotsOf m R topkIds) =
      ((Planner.neededUnique topkIds).filter fun e => !isSpill m.residentIds R e) ++
        spillList m R topkIds := by
    simp [slotsOf, Dict.keys, Function.comp_def]
  rw [hkeys, List.nodup_append]
  refine ⟨hsort.filter _, hsort.filter _, fun a ha b hb hab => ?_⟩
  have hin := (List.mem_filter.mp ha).2
  rw [hab, (mem_spillList.mp hb).2] at hin
  cases hin

theorem keys_slotsOf_nonneg {k : ℤ} (hk : k ∈ Dict.keys (slotsOf m R topkIds)) : 0 ≤ k := by
  simp only [slotsOf, Dict.keys, List.map_append, List.map_map, List.mem_append, List.mem_map,
    Function.comp_apply] at hk
  rcases hk with ⟨e, he, rfl⟩ | ⟨⟨e, i⟩, he, rfl⟩
  · simp only [Planner.neededUnique, List.mem_filter, Finset.mem_sort, List.mem_toFinset,
      decide_eq_true_eq] at he
    exact he.1.2
  · exact (mem_spillList.mp (List.fst_mem_of_mem_zipIdx he)).1.2

/-- Both eager ways read the resolved slots. -/
theorem remap_eq_remapIdsHost {d : List (ℤ × ℕ)} (hd : (Dict.keys d).Nodup)
    (hpos : ∀ k ∈ Dict.keys d, 0 ≤ k) {rows : List (List ℤ)} (hrows : rows.flatten = topkIds) :
    remap topkIds (buildLut d) = remapIdsHost rows d := by
  rw [remap, remapIdsHost, hrows]
  refine List.map_congr_left fun id _ => ?_
  by_cases hid : 0 ≤ id
  · have hcast : ((id.toNat : ℕ) : ℤ) = id := by omega
    rw [if_pos hid, if_neg (not_lt.mpr hid), buildLut_apply hd hpos, hcast]
  · rw [if_neg hid, if_pos (not_le.mp hid)]

/-- The place of a present spilled expert. -/
theorem exists_place (hwf : m.WellFormed E R) {id : ℤ} (hid : id ∈ topkIds) (hpos : 0 ≤ id)
    (hlt : id < E) (hspill : isSpill m.residentIds R id = true) :
    ∃ i < (spillList m R topkIds).length, (id, i) ∈ (spillList m R topkIds).zipIdx ∧
      rank (spillPresent topkIds (buildCapturableLuts E R m).2.1) id.toNat = i := by
  obtain ⟨i, hi, hget⟩ := List.getElem_of_mem (mem_spillList.mpr ⟨⟨hid, hpos⟩, hspill⟩)
  have hcast : ((id.toNat : ℕ) : ℤ) = id := by omega
  exact ⟨i, hi, List.mk_mem_zipIdx_iff_getElem?.mpr (List.getElem?_eq_some_iff.mpr ⟨hi, hget⟩),
    rank_eq hwf hi (by omega) (hget.trans hcast.symm)⟩

/-- A present spilled expert's row is sent to its place. -/
theorem dst_eq (hwf : m.WellFormed E R) (hfits : (spillList m R topkIds).length ≤ C) {i : ℕ}
    (hi : i < (spillList m R topkIds).length) {e : ℕ} (he : e < E)
    (hget : (spillList m R topkIds)[i] = e) :
    dst (spillPresent topkIds (buildCapturableLuts E R m).2.1) C e = i := by
  have hin := (spillPresent_iff hwf he).mpr (hget ▸ List.getElem_mem hi)
  rw [dst, if_pos hin, rank_eq hwf hi he hget]
  omega

/-- The source row of a present spilled expert's place is the expert's. -/
theorem srcRow_eq (hwf : m.WellFormed E R) (hfits : (spillList m R topkIds).length ≤ C) {i : ℕ}
    (hi : i < (spillList m R topkIds).length) {e : ℕ} (he : e < E)
    (hget : (spillList m R topkIds)[i] = e) :
    (prepareCapturableRemap topkIds E (buildCapturableLuts E R m) R C).2.1 i = m.row R e := by
  have hmem := mem_spillList.mp (hget ▸ List.getElem_mem hi)
  have hself := dst_eq hwf hfits hi he hget
  rw [← (luts_spec hwf he).2.2 hmem.2, ← hself]
  refine writeAll_of_mem _ (List.mem_range.mpr he) fun e' he' hkey => ?_
  have he' := List.mem_range.mp he'
  rw [hself] at hkey
  -- only a present expert is sent to a scratch slot, and only one to each
  have hin : spillPresent topkIds (buildCapturableLuts E R m).2.1 e' = true := by
    by_contra hout
    rw [dst, if_neg hout] at hkey
    omega
  obtain ⟨j, hj, hje⟩ := List.getElem_of_mem ((spillPresent_iff hwf he').mp hin)
  obtain rfl : j = i := (dst_eq hwf hfits hj he' hje).symm.trans hkey
  exact Nat.cast_injective (hje.symm.trans hget)

theorem agrees_of_lt (hwf : m.WellFormed E R) (hfull : R < E)
    (hrange : ∀ id ∈ topkIds, id < E) (hfits : (needs m.residentIds R topkIds).card ≤ C) :
    Agrees m E R C topkIds := by
  have hlist : (spillList m R topkIds).length ≤ C := (length_spillList topkIds).trans_le hfits
  have hids : (prepareCapturableRemap topkIds E (buildCapturableLuts E R m) R C).1 =
      remap topkIds (buildLut (slotsOf m R topkIds)) := by
    refine List.map_congr_left fun id hid => ?_
    by_cases hpos : 0 ≤ id
    swap
    · rw [if_neg hpos, if_neg hpos]
    have hlt := hrange id hid
    have hcast : ((id.toNat : ℕ) : ℤ) = id := by omega
    rw [if_pos hpos, if_pos hpos, buildLut_apply keys_slotsOf_nodup fun k => keys_slotsOf_nonneg,
      hcast]
    obtain ⟨hspill, hslot, -⟩ := luts_spec hwf (show id.toNat < E by omega)
    rw [hcast] at hspill hslot
    dsimp only
    rw [hspill]
    cases hcase : isSpill m.residentIds R id with
    | true =>
      obtain ⟨i, -, hplace, hrank⟩ := exists_place hwf hid hpos hlt hcase
      have hmem : (id, R + i) ∈ slotsOf m R topkIds :=
        List.mem_append_right _ (List.mem_map.mpr ⟨(id, i), hplace, rfl⟩)
      rw [Dict.lookup_of_mem keys_slotsOf_nodup hmem, if_pos rfl, hrank]
      simp
    | false =>
      have hmem : (id, m.slot id.toNat) ∈ slotsOf m R topkIds := by
        refine List.mem_append_left _ (List.mem_map.mpr ⟨id, ?_, rfl⟩)
        simp [Planner.neededUnique, hid, hpos, hcase]
      rw [Dict.lookup_of_mem keys_slotsOf_nodup hmem, if_neg (by simp), hslot hcase]
      rfl
  refine ⟨_, _, resolve_slotsOf hwf hfull hfits, hids, fun rows hrows => hids.trans
    (remap_eq_remapIdsHost keys_slotsOf_nodup (fun k => keys_slotsOf_nonneg) hrows),
    fun id hid hpos hspill => ?_⟩
  have hlt := hrange id hid
  have hcast : ((id.toNat : ℕ) : ℤ) = id := by omega
  obtain ⟨i, hi, hget⟩ := List.getElem_of_mem (mem_spillList.mpr ⟨⟨hid, hpos⟩, hspill⟩)
  have hplace : (id, i) ∈ (spillList m R topkIds).zipIdx :=
    List.mk_mem_zipIdx_iff_getElem?.mpr (List.getElem?_eq_some_iff.mpr ⟨hi, hget⟩)
  exact ⟨i, by omega, List.mem_map.mpr ⟨(id, i), hplace, rfl⟩,
    srcRow_eq hwf hlist hi (by omega) (hget.trans hcast.symm)⟩

/-! ### A layout without spilled experts -/

theorem not_isSpill (hwf : m.WellFormed E R) (hfull : E ≤ R) {e : ℕ} (he : e < E) :
    isSpill m.residentIds R e = false := by
  cases m with
  | static => simpa [isSpill, Maps.residentIds] using he.trans_le hfull
  | hot residentSlot spillPoolIndex =>
    have h : Frozen E R residentSlot spillPoolIndex := hwf
    have hrows := h.rows.length_eq
    rw [Nat.sub_eq_zero_of_le hfull] at hrows
    obtain rfl : spillPoolIndex = [] := by simpa using hrows
    have hmem := ((h.mem_iff e).mpr ⟨by omega, by omega⟩).resolve_right (by simp)
    simpa [isSpill, Maps.residentIds] using hmem

/-- Where all experts are on the device, the eager path answers each with its own number, and the
captured one with its slot. -/
theorem captured_of_full (hwf : m.WellFormed E R) (hfull : E ≤ R)
    (hrange : ∀ id ∈ topkIds, id < E) :
    (prepareCapturableRemap topkIds E (buildCapturableLuts E R m) R C).1 =
      topkIds.map fun id => if 0 ≤ id then (m.slot id.toNat : ℤ) else id := by
  refine List.map_congr_left fun id hid => ?_
  by_cases hpos : 0 ≤ id
  · have hlt := hrange id hid
    have he : id.toNat < E := by omega
    obtain ⟨hspill, hslot, -⟩ := luts_spec hwf he
    have hnot := not_isSpill hwf hfull he
    rw [if_pos hpos, if_pos hpos]
    dsimp only
    rw [hspill, hnot, if_neg Bool.false_ne_true, hslot hnot]
  · rw [if_neg hpos, if_neg hpos]

theorem remap_of_full (topkIds : List ℤ) :
    remap topkIds (buildLut ((Planner.neededUnique topkIds).map fun e => (e, e.toNat))) =
      topkIds := by
  set d := (Planner.neededUnique topkIds).map fun e => (e, e.toNat)
  have hkeys : Dict.keys d = Planner.neededUnique topkIds := by
    simp [d, Dict.keys, Function.comp_def]
  have hnodup : (Dict.keys d).Nodup := hkeys ▸ Finset.sort_nodup _ _
  have hpos : ∀ k ∈ Dict.keys d, 0 ≤ k := by
    rw [hkeys]
    simp [Planner.neededUnique]
  refine (List.map_congr_left fun id hid => ?_).trans (List.map_id _)
  by_cases hid0 : 0 ≤ id
  · have hcast : ((id.toNat : ℕ) : ℤ) = id := by omega
    have hmem : (id, id.toNat) ∈ d :=
      List.mem_map.mpr ⟨id, by simp [Planner.neededUnique, hid, hid0], rfl⟩
    rw [if_pos hid0, buildLut_apply hnodup hpos, hcast, Dict.lookup_of_mem hnodup hmem]
    simpa using hcast
  · rw [if_neg hid0]
    rfl

theorem resolve_of_full (hfull : E ≤ R) (topkIds : List ℤ) :
    (planner E R C m.residentIds m.residentSlot).resolve topkIds =
      .ok ((Planner.neededUnique topkIds).map fun e => (e, e.toNat), []) := by
  have hall : (planner E R C m.residentIds m.residentSlot).fullyResident = true :=
    decide_eq_true hfull
  rw [Planner.resolve, if_pos hall]

theorem agrees_of_full (hwf : m.WellFormed E R) (hfull : E ≤ R) (hslot : ∀ e < E, m.slot e = e)
    (hrange : ∀ id ∈ topkIds, id < E) : Agrees m E R C topkIds := by
  have hids : (prepareCapturableRemap topkIds E (buildCapturableLuts E R m) R C).1 = topkIds := by
    rw [captured_of_full hwf hfull hrange]
    refine (List.map_congr_left fun id hid => ?_).trans (List.map_id _)
    have hlt := hrange id hid
    split
    · rw [hslot _ (by omega)]
      simp only [id_eq]
      omega
    · rfl
  have hremap := remap_of_full topkIds
  refine ⟨_, _, resolve_of_full hfull topkIds, hids.trans hremap.symm, fun rows hrows => ?_,
    fun id hid hpos hspill => ?_⟩
  · refine hids.trans (hremap.symm.trans (remap_eq_remapIdsHost ?_ ?_ hrows))
    · rw [Dict.keys, List.map_map]
      exact (Finset.sort_nodup _ _).map fun _ _ h => h
    · simp [Dict.keys, Planner.neededUnique, Function.comp_def]
  · have hlt := hrange id hid
    have hcast : ((id.toNat : ℕ) : ℤ) = id := by omega
    have hnot := not_isSpill hwf hfull (show id.toNat < E by omega)
    rw [hcast, hspill] at hnot
    cases hnot

/-- **When the captured remap is the eager one**, for all ids whose spilled experts fit: where an
expert is spilled, or where every expert has the slot of its own number. -/
theorem capturable_agrees_iff (m : Maps) (E R C : ℕ) (hwf : m.WellFormed E R) :
    (∀ topkIds : List ℤ, (∀ id ∈ topkIds, -1 ≤ id ∧ id < E) →
      (needs m.residentIds R topkIds).card ≤ C → Agrees m E R C topkIds) ↔
      R < E ∨ ∀ e < E, m.slot e = e := by
  constructor
  · intro h
    refine or_iff_not_imp_left.mpr fun hnot e he => ?_
    have hfull := not_lt.mp hnot
    have hneeds : needs m.residentIds R [(e : ℤ)] = ∅ := by
      simp [needs, spillOf, not_isSpill hwf hfull he]
    obtain ⟨slotOf, fetch, hresolve, hids, -⟩ := h [(e : ℤ)] (by simp [he])
      (by simp [hneeds])
    rw [resolve_of_full hfull, Except.ok.injEq, Prod.mk.injEq] at hresolve
    rw [← hresolve.1, remap_of_full, captured_of_full hwf hfull (by simpa using he)] at hids
    simpa using hids
  · rintro hcond topkIds hrange hfits
    have hlt : ∀ id ∈ topkIds, id < E := fun id hid => (hrange id hid).2
    rcases lt_or_ge R E with hpart | hfull
    · exact agrees_of_lt hwf hpart hlt hfits
    · exact agrees_of_full hwf hfull (hcond.resolve_left (not_lt.mpr hfull)) hlt

/-- Three experts, of which `2` and `0` are on the device, in this order. -/
theorem capturable_agrees_swapped :
    Agrees (.hot [(2, 0), (0, 1)] [(1, 0)]) 3 2 1 [2, 1, -1, 0, 1] :=
  (capturable_agrees_iff (.hot [(2, 0), (0, 1)] [(1, 0)]) 3 2 1
    (show Frozen 3 2 _ _ from ⟨by decide, by decide, by decide⟩)).mpr (Or.inl (by decide))
    [2, 1, -1, 0, 1] (by decide) (by decide)

/-- **They part** where all experts are on the device and two of them have changed places. -/
theorem capturable_parts_swapped :
    Frozen 2 2 [(0, 1), (1, 0)] [] ∧
    (prepareCapturableRemap [0] 2 (buildCapturableLuts 2 2 (.hot [(0, 1), (1, 0)] [])) 2 1).1 =
      [1] ∧
    (planner 2 2 1 (some {0, 1}) [(0, 1), (1, 0)]).resolve [0] = .ok ([(0, 0)], []) ∧
    remap [0] (buildLut [(0, 0)]) = [0] :=
  ⟨⟨by decide, by decide, by decide⟩, by decide +kernel, by decide +kernel, by decide +kernel⟩

end Layout

end ExpertOffload

end HtSglang
