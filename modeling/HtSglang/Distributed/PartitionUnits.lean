import HtSglang.Library.Entries
import HtSglang.Library.Loop

/-!
# Splitting units over ranks

`partition_units` splits indivisible units over ranks in proportion to weights. Each rank gets the
whole part of its quota, but at least one unit. What is missing then goes to the largest fractional
parts; what is too much is taken back from the largest shares, one unit at a time.

Neither of the two corrections respects the weights. A rank whose share was raised to one keeps the
fraction of its quota, so that it may be given a second unit before a heavier rank gets any; and the
units are taken back from the first of the largest shares, which may be the heaviest
(`HtSglang.Partition.lighter_rank_gets_more`). That these two things do not happen
(`HtSglang.Partition.Proportionate`) is exactly what it takes for the split to be monotone in the
weights (`HtSglang.Partition.partitionUnits_weightMonotone_iff`). For units that are taken back the
argument is that the shares are lowered to a level, the first of them one unit further
(`HtSglang.Partition.lower`, `HtSglang.Partition.takeBack_eq_lower`).

The quotas are computed by true division. It is a parameter of the model: exact, or in floating
point.
-/

namespace HtSglang

namespace Partition

/-! ### Division -/

/-- The exponent of the leading binary digit of a quotient. -/
def binaryExponent (a b : ℕ) : ℤ :=
  let s : ℤ := a.log2 - b.log2
  if b * 2 ^ s.toNat ≤ a * 2 ^ (-s).toNat then s else s - 1

/-- A quotient rounded to the nearest integer, to the even one when two are as near. -/
def divHalfEven (a b : ℕ) : ℕ :=
  if 2 * (a % b) < b ∨ (2 * (a % b) = b ∧ a / b % 2 = 0) then a / b else a / b + 1

/-- The true division of two integers: their quotient rounded to binary64, with 53 binary
digits and no digit below the 1074th. A quotient that is too large raises. -/
def trueDiv (a b : ℕ) : Option ℚ :=
  let e := max (-1074) (binaryExponent a b - 52)
  let x : ℚ := (divHalfEven (a * 2 ^ (-e).toNat) (b * 2 ^ e.toNat) * 2 ^ e.toNat : ℕ) /
    (2 ^ (-e).toNat : ℕ)
  if x < (2 ^ 1024 : ℕ) then some x else none

/-- Exact division. Division by zero raises. -/
def exactDiv (a b : ℕ) : Option ℚ := if b = 0 then none else some ((a : ℚ) / b)

/-- Division in floating point. -/
def floatDiv (a b : ℕ) : Option ℚ := if b = 0 then none else trueDiv a b

/-! ### The code -/

/-- The first of the largest shares. -/
def firstMax (sizes : List ℕ) : ℕ := sizes.idxOf (sizes.foldr max 0)

/-- Units are taken back from the largest shares. -/
def takeBack : ℕ → List ℕ → List ℕ
  | 0, sizes => sizes
  | k + 1, sizes => takeBack k (sizes.modify (firstMax sizes) (· - 1))

/-- The ranks by fractional part, the largest first, and then by number. -/
def remainderOrder (quotas : List ℚ) : List ℕ :=
  let frac (r : ℕ) : ℚ := Int.fract (quotas.getD r 0)
  (List.range quotas.length).insertionSort fun r s => frac s < frac r ∨ (frac s = frac r ∧ r ≤ s)

/-- What `_partition_units_raw` makes of the quotas. -/
def shareOut (units : ℕ) (quotas : List ℚ) : List ℕ :=
  let sizes := quotas.map fun q => max ⌊q⌋₊ 1
  (List.range (units - sizes.sum)).foldl
    (fun sizes k => sizes.modify ((remainderOrder quotas).getD (k % quotas.length) 0) (· + 1))
    (takeBack (sizes.sum - units) sizes)

/-- `_partition_units_raw`; `none` where it raises. -/
def partitionUnitsRaw (div : ℕ → ℕ → Option ℚ) (units : ℕ) (weights : List ℕ) :
    Option (List ℕ) :=
  if units < weights.length then none
  else
    (weights.mapM fun w => div (units * w) weights.sum).bind fun quotas =>
      let sizes := shareOut units quotas
      if sizes.sum = units ∧ ∀ s ∈ sizes, 1 ≤ s then some sizes else none

/-- Consecutive segments of a list. -/
def cut {α : Type*} : List ℕ → List α → List (List α)
  | [], _ => []
  | L :: lengths, l => l.take L :: cut lengths (l.drop L)

/-- What the lengths of segments are compared by: the largest sum of weights, all sums in descending
order, and the lengths. -/
def splitKey (weights lengths : List ℕ) : ℕ × List ℕ × List ℕ :=
  let sums := (cut lengths weights).map List.sum
  (sums.foldr max 0, sums.insertionSort (· ≥ ·), lengths)

/-- The comparison of tuples. -/
def keyLt (k k' : ℕ × List ℕ × List ℕ) : Bool :=
  decide (k.1 < k'.1 ∨ (k.1 = k'.1 ∧ (k.2.1 < k'.2.1 ∨ (k.2.1 = k'.2.1 ∧ k.2.2 < k'.2.2))))

/-- `rec` of `_balanced_group_lengths`: the segments that are left are chosen in all ways. -/
def searchLengths (weights : List ℕ) (maxLen : ℕ) :
    ℕ → ℕ → List ℕ → Option (List ℕ) → Option (List ℕ)
  | 0, start, lengths, best =>
    if weights.length - start = 0 then
      match best with
      | none => some lengths
      | some b =>
        if keyLt (splitKey weights lengths) (splitKey weights b) then some lengths else some b
    else best
  | gLeft + 1, start, lengths, best =>
    let remaining := weights.length - start
    (List.range' 1 (min maxLen (remaining - gLeft))).foldl
      (fun best L =>
        if gLeft * maxLen < remaining - L then best
        else searchLengths weights maxLen gLeft (start + L) (lengths ++ [L]) best) best

/-- `_balanced_group_lengths`. -/
def balancedGroupLengths (weights : List ℕ) (groups maxLen : ℕ) : Option (List ℕ) :=
  searchLengths weights maxLen groups 0 [] none

/-- The running sums of a list. -/
def runningSums : ℕ → List ℕ → List ℕ
  | _, [] => []
  | c, s :: l => (c + s) :: runningSums (c + s) l

/-- `_partition_units_kv_aligned`. -/
def partitionUnitsKvAligned (div : ℕ → ℕ → Option ℚ) (units : ℕ) (weights : List ℕ)
    (groups : ℕ) : Option (List ℕ) :=
  (partitionUnitsRaw div units weights).bind fun sizes =>
    if groups < 2 ∨ weights.length ≤ groups ∨ units % groups ≠ 0 then some sizes
    else
      let per := units / groups
      let boundaries := (List.range' 1 (groups - 1)).map (per * ·)
      let seen := runningSums 0 sizes.dropLast
      if ∀ b ∈ boundaries, b ∈ seen then some sizes
      else
        (balancedGroupLengths weights groups per).bind fun lengths =>
          ((cut lengths weights).mapM (partitionUnitsRaw div per)).bind fun parts =>
            let out := parts.flatten
            if out.sum = units ∧ ∀ s ∈ out, 1 ≤ s then some out else none

/-- `partition_units`. -/
def partitionUnits (div : ℕ → ℕ → Option ℚ) (units : ℕ) (weights : List ℕ)
    (groups : Option ℕ) : Option (List ℕ) :=
  match groups with
  | none => partitionUnitsRaw div units weights
  | some 0 => partitionUnitsRaw div units weights
  | some (g + 1) => partitionUnitsKvAligned div units weights (g + 1)

/-! ### All units are given out -/

theorem length_takeBack (k : ℕ) (sizes : List ℕ) : (takeBack k sizes).length = sizes.length := by
  induction k generalizing sizes with
  | zero => rfl
  | succ k ih => rw [takeBack, ih, List.length_modify]

/-- The largest share is among the shares. -/
theorem foldr_max_mem {sizes : List ℕ} (hne : sizes ≠ []) : sizes.foldr max 0 ∈ sizes := by
  induction sizes with
  | nil => exact absurd rfl hne
  | cons a l ih =>
    rw [List.foldr_cons]
    rcases le_total a (l.foldr max 0) with hle | hle
    · rw [max_eq_right hle]
      rcases eq_or_ne l [] with rfl | hl
      · exact List.mem_cons.mpr (.inl (Nat.le_zero.mp (by simpa using hle)).symm)
      · exact List.mem_cons_of_mem _ (ih hl)
    · rw [max_eq_left hle]
      exact List.mem_cons_self

theorem le_foldr_max {sizes : List ℕ} {x : ℕ} (hx : x ∈ sizes) : x ≤ sizes.foldr max 0 := by
  induction sizes with
  | nil => exact absurd hx List.not_mem_nil
  | cons a l ih =>
    rw [List.foldr_cons]
    rcases List.mem_cons.mp hx with rfl | hx
    · exact le_max_left _ _
    · exact (ih hx).trans (le_max_right _ _)

/-- **Taking units back** leaves every rank a unit, as long as there is one for each. -/
theorem takeBack_ok {k : ℕ} {sizes : List ℕ} (hpos : ∀ x ∈ sizes, 1 ≤ x)
    (hk : k + sizes.length ≤ sizes.sum) :
    (takeBack k sizes).sum + k = sizes.sum ∧ ∀ x ∈ takeBack k sizes, 1 ≤ x := by
  induction k generalizing sizes with
  | zero => exact ⟨rfl, hpos⟩
  | succ k ih =>
    have hne : sizes ≠ [] := by
      rintro rfl
      simp at hk
    have hi : firstMax sizes < sizes.length := List.idxOf_lt_length_of_mem (foldr_max_mem hne)
    have hmax : sizes[firstMax sizes] = sizes.foldr max 0 := List.getElem_idxOf hi
    -- the largest share is above one, or else every share is one
    have htwo : 2 ≤ sizes[firstMax sizes] := by
      by_contra hlt
      have hle : sizes.sum ≤ sizes.length • 1 := List.sum_le_card_nsmul _ _ fun x hx => by
        have := le_foldr_max hx
        omega
      rw [smul_eq_mul, mul_one] at hle
      omega
    have hsum := sum_modify hi (· - 1)
    have hpos' : ∀ x ∈ sizes.modify (firstMax sizes) (· - 1), 1 ≤ x := by
      intro x hx
      obtain ⟨j, hj, rfl⟩ := List.getElem_of_mem hx
      rw [List.getElem_modify]
      rw [List.length_modify] at hj
      split
      · next hij =>
        subst hij
        omega
      · exact hpos _ (List.getElem_mem _)
    have hrec := ih hpos' (by
      rw [List.length_modify]
      omega)
    rw [takeBack]
    exact ⟨by omega, hrec.2⟩

theorem mem_remainderOrder (quotas : List ℚ) (r : ℕ) :
    r ∈ remainderOrder quotas ↔ r < quotas.length := by
  rw [remainderOrder, (List.perm_insertionSort _ _).mem_iff, List.mem_range]

theorem length_remainderOrder (quotas : List ℚ) :
    (remainderOrder quotas).length = quotas.length := by
  rw [remainderOrder, List.length_insertionSort, List.length_range]

/-- Units are given out one by one. -/
theorem foldl_add_ok {n : ℕ} {order : List ℕ} (hlen : order.length = n)
    (horder : ∀ r ∈ order, r < n) (ks : List ℕ) {sizes : List ℕ} (hsizes : sizes.length = n)
    (hn : 0 < n) (hpos : ∀ x ∈ sizes, 1 ≤ x) :
    (ks.foldl (fun sizes k => sizes.modify (order.getD (k % n) 0) (· + 1)) sizes).length = n ∧
    (ks.foldl (fun sizes k => sizes.modify (order.getD (k % n) 0) (· + 1)) sizes).sum =
      sizes.sum + ks.length ∧
    ∀ x ∈ ks.foldl (fun sizes k => sizes.modify (order.getD (k % n) 0) (· + 1)) sizes, 1 ≤ x := by
  induction ks generalizing sizes with
  | nil => exact ⟨hsizes, rfl, hpos⟩
  | cons k ks ih =>
    have hk : k % n < order.length := (Nat.mod_lt _ hn).trans_eq hlen.symm
    have hi : order.getD (k % n) 0 < sizes.length := by
      rw [List.getD_eq_getElem _ _ hk, hsizes]
      exact horder _ (List.getElem_mem _)
    have hsum := sum_modify hi (· + 1)
    have hpos' : ∀ x ∈ sizes.modify (order.getD (k % n) 0) (· + 1), 1 ≤ x := by
      intro x hx
      obtain ⟨j, hj, rfl⟩ := List.getElem_of_mem hx
      rw [List.getElem_modify]
      split
      · exact Nat.le_add_left _ _
      · exact hpos _ (List.getElem_mem _)
    have hsizes' : (sizes.modify (order.getD (k % n) 0) (· + 1)).length = n := by
      rw [List.length_modify, hsizes]
    obtain ⟨hl, hs, hp⟩ := ih hsizes' hpos'
    rw [List.foldl_cons]
    refine ⟨hl, ?_, hp⟩
    rw [hs, List.length_cons]
    omega

/-- **Sharing out** gives out all units, and at least one to each rank. -/
theorem shareOut_ok (units : ℕ) (quotas : List ℚ) (hne : quotas ≠ [])
    (hunits : quotas.length ≤ units) : (shareOut units quotas).length = quotas.length ∧
      (shareOut units quotas).sum = units ∧ ∀ x ∈ shareOut units quotas, 1 ≤ x := by
  set shares := quotas.map fun q => max ⌊q⌋₊ 1 with hshares
  have hshlen : shares.length = quotas.length := by rw [hshares, List.length_map]
  have hpos : ∀ x ∈ shares, 1 ≤ x := by
    intro x hx
    obtain ⟨q, -, rfl⟩ := List.mem_map.mp hx
    exact le_max_right _ _
  have htaken : (takeBack (shares.sum - units) shares).sum + (shares.sum - units) = shares.sum ∧
      ∀ x ∈ takeBack (shares.sum - units) shares, 1 ≤ x := by
    rcases le_total shares.sum units with hle | hle
    · rw [Nat.sub_eq_zero_of_le hle]
      exact ⟨rfl, hpos⟩
    · exact takeBack_ok hpos (by omega)
  have htakenlen : (takeBack (shares.sum - units) shares).length = quotas.length := by
    rw [length_takeBack, hshlen]
  obtain ⟨hl, hs, hp⟩ := foldl_add_ok (length_remainderOrder quotas)
    (fun r hr => (mem_remainderOrder quotas r).mp hr) (List.range (units - shares.sum))
    htakenlen (List.length_pos_iff.mpr hne) htaken.2
  refine ⟨hl, ?_, hp⟩
  rw [shareOut, ← hshares, hs, List.length_range]
  omega

/-- **The plain split** shares out the quotas, which have to be there. -/
theorem partitionUnitsRaw_eq_some {div : ℕ → ℕ → Option ℚ} {units : ℕ} {weights sizes : List ℕ}
    (hne : weights ≠ []) (hlen : weights.length ≤ units) :
    partitionUnitsRaw div units weights = some sizes ↔
      (∀ w ∈ weights, div (units * w) weights.sum ≠ none) ∧
        sizes = shareOut units (weights.map fun w => (div (units * w) weights.sum).getD 0) := by
  obtain ⟨-, hsum, hone⟩ := shareOut_ok units
    (weights.map fun w => (div (units * w) weights.sum).getD 0)
    (fun hc => hne (List.map_eq_nil_iff.mp hc)) (by rwa [List.length_map])
  rw [partitionUnitsRaw, if_neg (not_lt.mpr hlen), Option.bind_eq_some_iff]
  simp only [mapM_eq_some_map (0 : ℚ)]
  constructor
  · rintro ⟨quotas, ⟨hdiv, rfl⟩, hsizes⟩
    rw [if_pos ⟨hsum, hone⟩] at hsizes
    exact ⟨hdiv, (Option.some.inj hsizes).symm⟩
  · rintro ⟨hdiv, rfl⟩
    exact ⟨_, ⟨hdiv, rfl⟩, if_pos ⟨hsum, hone⟩⟩

/-! ### Quotas -/

/-- The exact quota of a rank. -/
def quota (units : ℕ) (weights : List ℕ) (r : ℕ) : ℚ :=
  (units * weights.getD r 0 : ℕ) / (weights.sum : ℚ)

/-- The exact quotas. -/
def quotas (units : ℕ) (weights : List ℕ) : List ℚ :=
  weights.map fun w => (units * w : ℕ) / (weights.sum : ℚ)

/-- The whole part of a quota, but at least one unit. -/
def share (units : ℕ) (weights : List ℕ) (r : ℕ) : ℕ := max ⌊quota units weights r⌋₊ 1

/-- The shares before the corrections. -/
def shares (units : ℕ) (weights : List ℕ) : List ℕ :=
  (quotas units weights).map fun q => max ⌊q⌋₊ 1

variable {units : ℕ} {weights : List ℕ}

theorem length_quotas : (quotas units weights).length = weights.length := List.length_map _

theorem length_shares : (shares units weights).length = weights.length := by
  rw [shares, List.length_map, length_quotas]

theorem getD_quotas (r : ℕ) : (quotas units weights).getD r 0 = quota units weights r := by
  rw [quotas, quota, List.getD_eq_getElem?_getD, List.getD_eq_getElem?_getD, List.getElem?_map]
  cases weights[r]? <;> simp

theorem getD_shares {r : ℕ} (hr : r < weights.length) :
    (shares units weights).getD r 0 = share units weights r := by
  have hr' : r < (quotas units weights).length := length_quotas.symm ▸ hr
  rw [shares, share, ← getD_quotas, List.getD_eq_getElem _ _ (by rwa [List.length_map]),
    List.getElem_map, List.getD_eq_getElem _ _ hr']

theorem sum_pos (hpos : ∀ w ∈ weights, 0 < w) (hne : weights ≠ []) : 0 < weights.sum := by
  obtain ⟨w, hw⟩ := List.exists_mem_of_ne_nil _ hne
  exact (hpos w hw).trans_le (List.single_le_sum (fun _ _ => Nat.zero_le _) w hw)

theorem mapM_exactDiv (hsum : weights.sum ≠ 0) :
    (weights.mapM fun w => exactDiv (units * w) weights.sum) = some (quotas units weights) := by
  rw [mapM_eq_some, quotas, List.forall₂_map_right_iff]
  exact List.forall₂_same.mpr fun w _ => by rw [exactDiv, if_neg hsum]

/-- The quotas add up to the units. -/
theorem sum_quotas (hsum : weights.sum ≠ 0) : (quotas units weights).sum = units := by
  have hcast : (weights.sum : ℚ) ≠ 0 := Nat.cast_ne_zero.mpr hsum
  have hmap : quotas units weights
      = weights.map fun w : ℕ => (units / weights.sum : ℚ) * (w : ℚ) := by
    refine List.map_congr_left fun w _ => ?_
    rw [Nat.cast_mul, mul_div_right_comm]
  rw [hmap, List.sum_map_mul_left, ← Nat.cast_list_sum, div_mul_cancel₀ _ hcast]

/-- A heavier rank has a larger quota. -/
theorem quota_le_quota (units : ℕ) {i j : ℕ} (h : weights.getD j 0 ≤ weights.getD i 0) :
    quota units weights j ≤ quota units weights i := by
  rw [quota, quota]
  gcongr

theorem quota_lt_quota (hun : 0 < units) (hsum : weights.sum ≠ 0) {i j : ℕ}
    (h : weights.getD j 0 < weights.getD i 0) : quota units weights j < quota units weights i := by
  have hW : (0 : ℚ) < weights.sum := Nat.cast_pos.mpr (Nat.pos_of_ne_zero hsum)
  rw [quota, quota]
  exact div_lt_div_of_pos_right (Nat.cast_lt.mpr (Nat.mul_lt_mul_of_pos_left h hun)) hW

theorem quota_nonneg (r : ℕ) : 0 ≤ quota units weights r := by
  rw [quota]
  positivity

theorem share_le_share (units : ℕ) {i j : ℕ} (h : weights.getD j 0 ≤ weights.getD i 0) :
    share units weights j ≤ share units weights i :=
  max_le_max (Nat.floor_mono (quota_le_quota units h)) le_rfl

/-- All units are given out. -/
theorem shareOut_quotas_ok (hne : weights ≠ []) (hlen : weights.length ≤ units) :
    (shareOut units (quotas units weights)).length = weights.length ∧
      (shareOut units (quotas units weights)).sum = units ∧
      ∀ s ∈ shareOut units (quotas units weights), 1 ≤ s := by
  have hqne : quotas units weights ≠ [] := fun hc => hne (List.map_eq_nil_iff.mp hc)
  have hqlen : (quotas units weights).length ≤ units := length_quotas.trans_le hlen
  have hok := shareOut_ok units _ hqne hqlen
  rwa [length_quotas] at hok

/-! ### Taking units back -/

/-- **Shares lowered to a level**, the first of those that reach it one unit further. -/
def lower : ℕ → ℕ → List ℕ → List ℕ
  | _, _, [] => []
  | level, k, x :: l =>
    if x < level then x :: lower level k l
    else
      match k with
      | 0 => level :: lower level 0 l
      | k + 1 => (level - 1) :: lower level k l

section Lower

variable {level k : ℕ} {l : List ℕ}

theorem lower_of_lt {x : ℕ} (hx : x < level) : lower level k (x :: l) = x :: lower level k l := by
  rw [lower.eq_def]
  exact if_pos hx

theorem lower_zero_of_le {x : ℕ} (hx : level ≤ x) :
    lower level 0 (x :: l) = level :: lower level 0 l := by
  rw [lower, if_neg (not_lt.mpr hx)]

theorem lower_succ_of_le {x : ℕ} (hx : level ≤ x) :
    lower level (k + 1) (x :: l) = (level - 1) :: lower level k l := by
  rw [lower, if_neg (not_lt.mpr hx)]

theorem le_of_mem_lower {y : ℕ} (hy : y ∈ lower level k l) : y ≤ level := by
  induction l generalizing k with
  | nil => cases hy
  | cons x l ih =>
    by_cases hx : x < level
    · rw [lower_of_lt hx] at hy
      rcases List.mem_cons.mp hy with rfl | hy
      · exact hx.le
      · exact ih hy
    · cases k with
      | zero =>
        rw [lower_zero_of_le (not_lt.mp hx)] at hy
        rcases List.mem_cons.mp hy with rfl | hy
        · exact le_rfl
        · exact ih hy
      | succ k =>
        rw [lower_succ_of_le (not_lt.mp hx)] at hy
        rcases List.mem_cons.mp hy with rfl | hy
        · exact Nat.sub_le _ _
        · exact ih hy

theorem countP_cons_le {x : ℕ} (hx : level ≤ x) :
    (x :: l).countP (level ≤ ·) = l.countP (level ≤ ·) + 1 :=
  List.countP_cons_of_pos (decide_eq_true hx)

theorem countP_cons_lt {x : ℕ} (hx : x < level) :
    (x :: l).countP (level ≤ ·) = l.countP (level ≤ ·) :=
  List.countP_cons_of_neg (by simpa using hx)

/-- The level is still reached. -/
theorem level_mem_lower (hk : k < l.countP (level ≤ ·)) : level ∈ lower level k l := by
  induction l generalizing k with
  | nil => cases hk
  | cons x l ih =>
    by_cases hx : x < level
    · rw [countP_cons_lt hx] at hk
      rw [lower_of_lt hx]
      exact List.mem_cons_of_mem _ (ih hk)
    · have hx := not_lt.mp hx
      cases k with
      | zero =>
        rw [lower_zero_of_le hx]
        exact List.mem_cons_self
      | succ k =>
        rw [countP_cons_le hx] at hk
        rw [lower_succ_of_le hx]
        exact List.mem_cons_of_mem _ (ih (Nat.lt_of_succ_lt_succ hk))

/-- The first share at the level gives a unit. -/
theorem modify_lower (hlevel : 0 < level) (hk : k < l.countP (level ≤ ·)) :
    (lower level k l).modify ((lower level k l).idxOf level) (· - 1) = lower level (k + 1) l := by
  induction l generalizing k with
  | nil => cases hk
  | cons x l ih =>
    by_cases hx : x < level
    · rw [countP_cons_lt hx] at hk
      rw [lower_of_lt hx, lower_of_lt hx, List.idxOf_cons_ne _ hx.ne, List.modify_succ_cons, ih hk]
    · have hx := not_lt.mp hx
      cases k with
      | zero =>
        rw [lower_zero_of_le hx, lower_succ_of_le hx, List.idxOf_cons_self, List.modify_zero_cons]
      | succ k =>
        rw [countP_cons_le hx] at hk
        rw [lower_succ_of_le hx, lower_succ_of_le hx,
          List.idxOf_cons_ne _ (Nat.sub_lt hlevel Nat.one_pos).ne, List.modify_succ_cons,
          ih (Nat.lt_of_succ_lt_succ hk)]

theorem firstMax_lower (hk : k < l.countP (level ≤ ·)) :
    firstMax (lower level k l) = (lower level k l).idxOf level := by
  have hmem := level_mem_lower hk
  have hmax : (lower level k l).foldr max 0 = level :=
    (le_of_mem_lower (foldr_max_mem (List.ne_nil_of_mem hmem))).antisymm
      (le_foldr_max hmem)
  rw [firstMax, hmax]

/-- When all of them have given a unit, the level is one less. -/
theorem lower_countP : lower level (l.countP (level ≤ ·)) l = lower (level - 1) 0 l := by
  induction l with
  | nil => rfl
  | cons x l ih =>
    by_cases hx : x < level
    · rw [countP_cons_lt hx, lower_of_lt hx, ih]
      by_cases hx' : x < level - 1
      · rw [lower_of_lt hx']
      · rw [lower_zero_of_le (not_lt.mp hx'), show x = level - 1 by omega]
    · have hx := not_lt.mp hx
      rw [countP_cons_le hx, lower_succ_of_le hx, lower_zero_of_le (by omega), ih]

/-- Nothing is above the largest share. -/
theorem lower_of_forall_le (h : ∀ x ∈ l, x ≤ level) : lower level 0 l = l := by
  induction l with
  | nil => rfl
  | cons x l ih =>
    have hrest := ih fun y hy => h y (List.mem_cons_of_mem _ hy)
    rcases (h x List.mem_cons_self).lt_or_eq with hx | rfl
    · rw [lower_of_lt hx, hrest]
    · rw [lower_zero_of_le le_rfl, hrest]

theorem sum_lower (hlevel : 0 < level) (hk : k ≤ l.countP (level ≤ ·)) :
    (lower level k l).sum + k = (l.map (min level)).sum := by
  induction l generalizing k with
  | nil =>
    obtain rfl : k = 0 := Nat.le_zero.mp hk
    rfl
  | cons x l ih =>
    by_cases hx : x < level
    · rw [countP_cons_lt hx] at hk
      rw [lower_of_lt hx, List.map_cons, List.sum_cons, List.sum_cons, min_eq_right hx.le, ← ih hk,
        Nat.add_assoc]
    · have hx := not_lt.mp hx
      rw [List.map_cons, List.sum_cons, min_eq_left hx]
      cases k with
      | zero =>
        rw [lower_zero_of_le hx, List.sum_cons, ← ih (Nat.zero_le _)]
        rfl
      | succ k =>
        rw [countP_cons_le hx] at hk
        rw [lower_succ_of_le hx, List.sum_cons, ← ih (Nat.le_of_succ_le_succ hk)]
        omega

/-- What is one level lower. -/
theorem sum_map_min_pred (hlevel : 0 < level) :
    (l.map (min (level - 1))).sum + l.countP (level ≤ ·) = (l.map (min level)).sum := by
  induction l with
  | nil => rfl
  | cons x l ih =>
    rw [List.map_cons, List.map_cons, List.sum_cons, List.sum_cons]
    by_cases hx : x < level
    · rw [countP_cons_lt hx, min_eq_right hx.le, min_eq_right (by omega)]
      omega
    · have hx := not_lt.mp hx
      rw [countP_cons_le hx, min_eq_left hx, min_eq_left (by omega)]
      omega

theorem getD_lower {r : ℕ} (hr : r < l.length) : (lower level k l).getD r 0 =
    if l.getD r 0 < level then l.getD r 0
    else if (l.take r).countP (level ≤ ·) < k then level - 1 else level := by
  induction l generalizing k r with
  | nil => cases hr
  | cons x l ih =>
    by_cases hx : x < level
    · rw [lower_of_lt hx]
      cases r with
      | zero => simp [hx]
      | succ r =>
        rw [List.take_succ_cons, countP_cons_lt hx]
        simpa using ih (Nat.lt_of_succ_lt_succ hr)
    · have hx := not_lt.mp hx
      cases k with
      | zero =>
        rw [lower_zero_of_le hx]
        cases r with
        | zero => simp [hx]
        | succ r => simpa using ih (k := 0) (Nat.lt_of_succ_lt_succ hr)
      | succ k =>
        rw [lower_succ_of_le hx]
        cases r with
        | zero => simp [hx]
        | succ r =>
          rw [List.take_succ_cons, countP_cons_le hx]
          simpa using ih (k := k) (Nat.lt_of_succ_lt_succ hr)

end Lower

/-- Units are taken back from lowered shares. -/
theorem takeBack_lower {D level k : ℕ} {l : List ℕ} (hlevel : 0 < level)
    (hk : k < l.countP (level ≤ ·)) (hD : D + l.length ≤ (lower level k l).sum) :
    ∃ level' k', 0 < level' ∧ k' < l.countP (level' ≤ ·) ∧
      takeBack D (lower level k l) = lower level' k' l := by
  induction D generalizing level k with
  | zero => exact ⟨level, k, hlevel, hk, rfl⟩
  | succ D ih =>
    rw [takeBack, firstMax_lower hk, modify_lower hlevel hk]
    have hsum := sum_lower hlevel hk.le
    have hsum' := sum_lower (k := k + 1) hlevel hk
    rcases (show k + 1 ≤ _ from hk).lt_or_eq with hlt | heq
    · exact ih hlevel hlt (by omega)
    · -- the level is used up, and the next one is not zero because each rank has a unit
      rw [heq, lower_countP]
      have hpred := sum_map_min_pred hlevel (l := l)
      have hlen : l.length ≤ (l.map (min (level - 1))).sum := by omega
      have hlevel' : 0 < level - 1 := by
        by_contra hc
        rw [Nat.eq_zero_of_not_pos hc] at hlen
        have hzero : (l.map (min 0)).sum = 0 := List.sum_eq_zero fun x hx => by
          obtain ⟨y, -, rfl⟩ := List.mem_map.mp hx
          exact Nat.zero_min y
        have hcount := List.countP_le_length (p := (level ≤ ·)) (l := l)
        omega
      have hcount : 0 < l.countP (level - 1 ≤ ·) := by
        rw [List.countP_pos_iff]
        have hmore : 0 < l.countP (level ≤ ·) := by omega
        obtain ⟨x, hx, hle⟩ := List.countP_pos_iff.mp hmore
        exact ⟨x, hx, decide_eq_true ((Nat.sub_le _ _).trans (of_decide_eq_true hle))⟩
      have hzero := sum_lower hlevel' hcount.le
      exact ih hlevel' hcount (by omega)

theorem sum_map_min_mono {l : List ℕ} {a b : ℕ} (h : a ≤ b) :
    (l.map (min a)).sum ≤ (l.map (min b)).sum :=
  List.sum_le_sum fun _ _ => min_le_min_right _ h

theorem sum_map_min_le (l : List ℕ) (a : ℕ) : (l.map (min a)).sum ≤ l.sum := by
  have := List.sum_le_sum (l := l) (f := min a) (g := fun x => x) fun _ _ => min_le_right _ _
  rwa [List.map_id'] at this

/-- **The level**: at it there are units enough, and one unit lower there are not. -/
structure IsLevel (units : ℕ) (l : List ℕ) (level : ℕ) : Prop where
  le : units ≤ (l.map (min level)).sum
  lt : (l.map (min (level - 1))).sum < units

theorem IsLevel.unique {units level level' : ℕ} {l : List ℕ} (h : IsLevel units l level)
    (h' : IsLevel units l level') : level = level' := by
  have key {a b : ℕ} (ha : IsLevel units l a) (hb : IsLevel units l b) : a ≤ b := by
    by_contra hc
    have hmono := sum_map_min_mono (l := l) (show b ≤ a - 1 by omega)
    exact absurd ha.lt (not_lt.mpr (hb.le.trans hmono))
  exact le_antisymm (key h h') (key h' h)

/-- **Taking units back** lowers the shares to the level. -/
theorem takeBack_eq_lower {units : ℕ} {l : List ℕ} (hpos : ∀ x ∈ l, 1 ≤ x)
    (hne : l ≠ []) (hlen : l.length ≤ units) (hunits : units ≤ l.sum) :
    ∃ level, IsLevel units l level ∧
      takeBack (l.sum - units) l = lower level ((l.map (min level)).sum - units) l := by
  have hmem := foldr_max_mem hne
  have hlevel : 0 < l.foldr max 0 := hpos _ hmem
  have hstart : lower (l.foldr max 0) 0 l = l :=
    lower_of_forall_le fun x hx => le_foldr_max hx
  have hcount : 0 < l.countP (l.foldr max 0 ≤ ·) :=
    List.countP_pos_iff.mpr ⟨_, hmem, decide_eq_true le_rfl⟩
  obtain ⟨level, k, hlevel', hk, heq⟩ := takeBack_lower (D := l.sum - units) hlevel hcount (by
    rw [hstart]
    omega)
  rw [hstart] at heq
  have htaken := (takeBack_ok (k := l.sum - units) hpos (by omega)).1
  have hsum := sum_lower hlevel' hk.le
  have hpred := sum_map_min_pred hlevel' (l := l)
  rw [heq] at htaken
  refine ⟨level, ⟨by omega, by omega⟩, ?_⟩
  rw [heq, show (l.map (min level)).sum - units = k by omega]

/-- What a rank has left. -/
theorem getD_takeBack {units level r : ℕ} {l : List ℕ} (hpos : ∀ x ∈ l, 1 ≤ x)
    (hlen : l.length ≤ units) (h : IsLevel units l level) (hr : r < l.length) :
    (takeBack (l.sum - units) l).getD r 0 =
      if l.getD r 0 < level then l.getD r 0
      else if (l.take r).countP (level ≤ ·) < (l.map (min level)).sum - units then level - 1
      else level := by
  have hne : l ≠ [] := List.ne_nil_of_length_pos ((Nat.zero_le r).trans_lt hr)
  obtain ⟨level', hlevel', heq⟩ :=
    takeBack_eq_lower hpos hne hlen (h.le.trans (sum_map_min_le l level))
  obtain rfl := h.unique hlevel'
  rw [heq, getD_lower hr]

/-! ### Topping up -/

/-- Units that are given out one by one. -/
theorem getD_foldl_add (f : ℕ → ℕ) (ks : List ℕ) {l : List ℕ} {r : ℕ} (hr : r < l.length) :
    (ks.foldl (fun sizes k => sizes.modify (f k) (· + 1)) l).getD r 0 =
      l.getD r 0 + ks.countP (f · = r) := by
  induction ks generalizing l with
  | nil => rfl
  | cons k ks ih =>
    rw [List.foldl_cons, ih (by rwa [List.length_modify]), getD_modify hr, List.countP_cons]
    simp only [decide_eq_true_eq]
    split <;> omega

/-- **In turn**, a rank is given a unit in each round, and in the last one if its turn comes. -/
theorem countP_turn {order : List ℕ} (hnodup : order.Nodup) {r : ℕ} (hr : r ∈ order) (R : ℕ) :
    (List.range R).countP (fun k => order.getD (k % order.length) 0 = r) =
      R / order.length + if order.idxOf r < R % order.length then 1 else 0 := by
  have hlt : order.idxOf r < order.length := List.idxOf_lt_length_of_mem hr
  have hpos : 0 < order.length := (Nat.zero_le _).trans_lt hlt
  have hturn (k : ℕ) : order.getD (k % order.length) 0 = r ↔
      k ≡ order.idxOf r [MOD order.length] := by
    have hk := Nat.mod_lt k hpos
    rw [List.getD_eq_getElem _ _ hk, Nat.ModEq, Nat.mod_eq_of_lt hlt]
    constructor
    · rintro rfl
      exact (hnodup.idxOf_getElem _ hk).symm
    · intro heq
      simp only [heq, List.getElem_idxOf]
  have hcount := Nat.count_modEq_card R hpos (order.idxOf r)
  rw [Nat.mod_eq_of_lt hlt, Nat.count_eq_card_filter_range] at hcount
  rw [← hcount, List.countP_eq_length_filter]
  simp only [hturn]
  rfl

/-- Rank `s` is given a unit before rank `r`: its fractional part is larger, or it is as large and
the rank is first. -/
def Before (quotas : List ℚ) (s r : ℕ) : Prop :=
  Int.fract (quotas.getD r 0) < Int.fract (quotas.getD s 0) ∨
    (Int.fract (quotas.getD r 0) = Int.fract (quotas.getD s 0) ∧ s < r)

theorem remainderOrder_perm (quotas : List ℚ) :
    (remainderOrder quotas).Perm (List.range quotas.length) :=
  List.perm_insertionSort _ _

theorem nodup_remainderOrder (quotas : List ℚ) : (remainderOrder quotas).Nodup :=
  (remainderOrder_perm quotas).nodup_iff.mpr List.nodup_range

/-- **The order** is by fractional part, the largest first, and then by rank. -/
theorem remainderOrder_pairwise (quotas : List ℚ) :
    (remainderOrder quotas).Pairwise (Before quotas) := by
  let le (r s : ℕ) : Prop := Int.fract (quotas.getD s 0) < Int.fract (quotas.getD r 0) ∨
    (Int.fract (quotas.getD s 0) = Int.fract (quotas.getD r 0) ∧ r ≤ s)
  have : Std.Total le := ⟨fun r s => by
    rcases lt_trichotomy (Int.fract (quotas.getD s 0)) (Int.fract (quotas.getD r 0)) with h | h | h
    · exact Or.inl (Or.inl h)
    · rcases le_total r s with hle | hle
      · exact Or.inl (Or.inr ⟨h, hle⟩)
      · exact Or.inr (Or.inr ⟨h.symm, hle⟩)
    · exact Or.inr (Or.inl h)⟩
  have : IsTrans ℕ le := ⟨fun a b c hab hbc => by
    rcases hab with hab | ⟨hab, hle⟩ <;> rcases hbc with hbc | ⟨hbc, hle'⟩
    · exact Or.inl (hbc.trans hab)
    · exact Or.inl (hbc ▸ hab)
    · exact Or.inl (hab ▸ hbc)
    · exact Or.inr ⟨hbc.trans hab, hle.trans hle'⟩⟩
  have hsorted : (remainderOrder quotas).Pairwise le := List.pairwise_insertionSort le _
  refine hsorted.imp₂ (fun r s hle hne => ?_) (nodup_remainderOrder quotas)
  exact hle.imp_right fun h => ⟨h.1, h.2.lt_of_ne hne⟩

/-- The fractional part of a quota. -/
def frac (units : ℕ) (weights : List ℕ) (r : ℕ) : ℚ := Int.fract (quota units weights r)

/-- The whole part and the fractional part of a quota. -/
theorem floor_add_fract {q : ℚ} (hq : 0 ≤ q) : (⌊q⌋₊ : ℚ) + Int.fract q = q := by
  rw [natCast_floor_eq_intCast_floor hq, Int.floor_add_fract]

theorem floor_add_frac (units : ℕ) (weights : List ℕ) (r : ℕ) :
    (⌊quota units weights r⌋₊ : ℚ) + frac units weights r = quota units weights r :=
  floor_add_fract (quota_nonneg r)

/-- The ranks in the order in which they are given units. -/
def order (units : ℕ) (weights : List ℕ) : List ℕ := remainderOrder (quotas units weights)

/-- The units that are missing. -/
def missing (units : ℕ) (weights : List ℕ) : ℕ := units - (shares units weights).sum

theorem order_perm : (order units weights).Perm (List.range weights.length) := by
  have hlen : (quotas units weights).length = weights.length := length_quotas
  rw [order, ← hlen]
  exact remainderOrder_perm _

theorem order_pairwise (units : ℕ) (weights : List ℕ) : (order units weights).Pairwise fun r s =>
    frac units weights s < frac units weights r ∨
      (frac units weights s = frac units weights r ∧ r < s) := by
  refine (remainderOrder_pairwise (quotas units weights)).imp fun h => ?_
  rwa [Before, getD_quotas, getD_quotas] at h

/-- A rank is given a unit only if those before it in the order are. -/
theorem mem_take_of_le {i j R : ℕ} (hi : i < weights.length)
    (hj : j ∈ (order units weights).take R) (hle : frac units weights j ≤ frac units weights i)
    (hlt : frac units weights j < frac units weights i ∨ i < j) :
    i ∈ (order units weights).take R := by
  have hmem : i ∈ order units weights := order_perm.mem_iff.mpr (List.mem_range.mpr hi)
  rw [← List.take_append_drop R (order units weights)] at hmem
  rcases List.mem_append.mp hmem with hmem | hmem
  · exact hmem
  · have hpair := order_pairwise units weights
    rw [← List.take_append_drop R (order units weights), List.pairwise_append] at hpair
    rcases hpair.2.2 j hj i hmem with hc | ⟨hc, hji⟩
    · exact absurd hc (not_lt.mpr hle)
    · rcases hlt with hlt | hlt
      · exact absurd hc hlt.ne'
      · exact absurd hji (lt_asymm hlt)

/-- The fractional parts add up to at least what is missing. -/
theorem missing_le_sum_frac (hsum : weights.sum ≠ 0)
    (hle : (shares units weights).sum ≤ units) :
    (missing units weights : ℚ) ≤ ((order units weights).map (frac units weights)).sum := by
  have hperm : ((order units weights).map (frac units weights)).sum =
      ((quotas units weights).map Int.fract).sum := by
    rw [(order_perm.map _).sum_eq]
    congr 1
    refine List.ext_getElem (by simp [length_quotas]) fun r hr hr' => ?_
    rw [List.length_map] at hr'
    rw [List.getElem_map, List.getElem_map, List.getElem_range, frac, ← getD_quotas,
      List.getD_eq_getElem _ _ hr']
  have hquotas : ((quotas units weights).map fun q => q).sum ≤
      ((quotas units weights).map fun q => ((max ⌊q⌋₊ 1 : ℕ) : ℚ) + Int.fract q).sum := by
    refine List.sum_le_sum fun q hq => ?_
    have hnonneg : 0 ≤ q := by
      obtain ⟨w, -, rfl⟩ := List.mem_map.mp hq
      positivity
    have hmax : (⌊q⌋₊ : ℚ) ≤ (max ⌊q⌋₊ 1 : ℕ) := Nat.cast_le.mpr (le_max_left _ _)
    have hparts := floor_add_fract hnonneg
    linarith
  rw [List.map_id', sum_quotas hsum, List.sum_map_add] at hquotas
  have hshares : ((quotas units weights).map fun q => ((max ⌊q⌋₊ 1 : ℕ) : ℚ)).sum =
      ((shares units weights).sum : ℕ) := by
    rw [shares, Nat.cast_list_sum, List.map_map]
    rfl
  rw [hshares] at hquotas
  rw [hperm, missing, Nat.cast_sub hle]
  linarith

theorem sum_frac_take_le (units : ℕ) (weights : List ℕ) (R : ℕ) :
    (((order units weights).take R).map (frac units weights)).sum ≤
      ((order units weights).take R).length := by
  have := List.sum_le_card_nsmul (((order units weights).take R).map (frac units weights)) 1
    fun x hx => by
      obtain ⟨r, -, rfl⟩ := List.mem_map.mp hx
      exact (Int.fract_lt_one _).le
  simpa using this

/-- There are ranks enough for what is missing. -/
theorem missing_le_length (hsum : weights.sum ≠ 0) :
    missing units weights ≤ (order units weights).length := by
  rcases le_total (shares units weights).sum units with hle | hle
  · have hsumle := sum_frac_take_le units weights (order units weights).length
    rw [List.take_length] at hsumle
    exact Nat.cast_le.mp ((missing_le_sum_frac hsum hle).trans hsumle)
  · rw [missing, Nat.sub_eq_zero_of_le hle]
    exact Nat.zero_le _

/-- A rank that is given a unit has a fraction. -/
theorem frac_pos_of_mem_take (hsum : weights.sum ≠ 0) {r : ℕ}
    (hr : r ∈ (order units weights).take (missing units weights)) :
    0 < frac units weights r := by
  have hle : (shares units weights).sum ≤ units := by
    by_contra hc
    rw [missing, Nat.sub_eq_zero_of_le (not_le.mp hc).le] at hr
    cases hr
  by_contra hc
  have hzero : frac units weights r = 0 := (not_lt.mp hc).antisymm (Int.fract_nonneg _)
  set R := missing units weights with hR
  -- then nobody after the first `R` has one, and the first `R` do not add up to `R`
  have hpair := order_pairwise units weights
  rw [← List.take_append_drop R (order units weights), List.pairwise_append] at hpair
  have hdrop : (((order units weights).drop R).map (frac units weights)).sum ≤ 0 := by
    have := List.sum_le_card_nsmul (((order units weights).drop R).map (frac units weights)) 0
      fun x hx => by
        obtain ⟨s, hs, rfl⟩ := List.mem_map.mp hx
        rcases hpair.2.2 r hr s hs with h | ⟨h, -⟩
        · exact h.le.trans hzero.le
        · exact h.le.trans hzero.le
    simpa using this
  have htake : (((order units weights).take R).map (frac units weights)).sum <
      (((order units weights).take R).map fun _ => (1 : ℚ)).sum :=
    List.sum_lt_sum_of_ne_nil (List.ne_nil_of_mem hr) _ _ fun s _ => Int.fract_lt_one _
  have hlen : ((((order units weights).take R).map fun _ => (1 : ℚ)).sum) ≤ R := by
    simp
  have hall := missing_le_sum_frac hsum hle
  rw [← List.take_append_drop R (order units weights), List.map_append, List.sum_append,
    ← hR] at hall
  linarith

/-! ### Monotone splits -/

/-- **A split that is monotone in the weights**: a rank that is heavier, or as heavy and before
another, receives at least as many units; no rank receives more than its quota rounded up; and all
units are given out, at least one to each rank. -/
structure WeightMonotone (units : ℕ) (weights sizes : List ℕ) : Prop where
  length_eq : sizes.length = weights.length
  /-- The heavier rank receives at least as much. -/
  monotone : ∀ i < weights.length, ∀ j < weights.length, weights.getD j 0 ≤ weights.getD i 0 →
    weights.getD j 0 < weights.getD i 0 ∨ i < j → sizes.getD j 0 ≤ sizes.getD i 0
  bounded : ∀ r < weights.length, sizes.getD r 0 ≤ max 1 ⌈quota units weights r⌉₊
  positive : ∀ s ∈ sizes, 1 ≤ s
  total : sizes.sum = units

/-- **The condition**: no rank with a quota below one is given a second unit; and where a level is
not lowered for all ranks that reach it, those for which it is are lighter than the others. -/
structure Proportionate (units : ℕ) (weights : List ℕ) : Prop where
  nonempty : weights = [] → units = 0
  /-- Units that are missing go to ranks with a quota of at least one. -/
  topped : ∀ r ∈ (order units weights).take (missing units weights), 1 ≤ quota units weights r
  /-- Units are taken back from the lightest ranks at the level. -/
  lowered : ∀ level, units ≤ ((shares units weights).map (min level)).sum →
    ((shares units weights).map (min (level - 1))).sum < units →
    ∀ i < weights.length, ∀ j < weights.length,
      level ≤ share units weights i → level ≤ share units weights j →
      ((shares units weights).take i).countP (level ≤ ·) <
        ((shares units weights).map (min level)).sum - units →
      ((shares units weights).map (min level)).sum - units ≤
        ((shares units weights).take j).countP (level ≤ ·) →
      weights.getD i 0 < weights.getD j 0

theorem share_pos (units : ℕ) (weights : List ℕ) (r : ℕ) : 1 ≤ share units weights r :=
  le_max_right _ _

theorem share_le_bound (r : ℕ) : share units weights r ≤ max 1 ⌈quota units weights r⌉₊ := by
  rw [share, max_comm]
  exact max_le_max le_rfl (Nat.floor_le_ceil _)

theorem one_le_of_mem_shares : ∀ x ∈ shares units weights, 1 ≤ x := by
  intro x hx
  obtain ⟨q, -, rfl⟩ := List.mem_map.mp hx
  exact le_max_right _ _

/-- The sizes when units are missing. -/
theorem getD_shareOut_of_le (hsum : weights.sum ≠ 0) (hle : (shares units weights).sum ≤ units)
    {r : ℕ} (hr : r < weights.length) : (shareOut units (quotas units weights)).getD r 0 =
      share units weights r +
        if r ∈ (order units weights).take (missing units weights) then 1 else 0 := by
  have hlen : (quotas units weights).length = (order units weights).length := by
    rw [order_perm.length_eq, List.length_range, length_quotas]
  have hmem : r ∈ order units weights := order_perm.mem_iff.mpr (List.mem_range.mpr hr)
  have hmissing : missing units weights ≤ (order units weights).length := missing_le_length hsum
  have hnodup : (order units weights).Nodup := nodup_remainderOrder _
  change ((List.range (missing units weights)).foldl (fun sizes k => sizes.modify
    ((order units weights).getD (k % (quotas units weights).length) 0) (· + 1))
    (takeBack ((shares units weights).sum - units) (shares units weights))).getD r 0 = _
  rw [Nat.sub_eq_zero_of_le hle, takeBack, getD_foldl_add _ _ (by rwa [length_shares]),
    getD_shares hr, hlen, countP_turn hnodup hmem,
    if_congr (List.mem_take_iff_idxOf_lt hmem) rfl rfl]
  -- there is one round at most
  have hidx : (order units weights).idxOf r < (order units weights).length :=
    List.idxOf_lt_length_of_mem hmem
  rcases hmissing.lt_or_eq with hlt | heq
  · rw [Nat.div_eq_of_lt hlt, Nat.mod_eq_of_lt hlt, Nat.zero_add]
  · rw [heq, Nat.div_self (by omega), Nat.mod_self, if_neg (Nat.not_lt_zero _), if_pos hidx]

/-- The sizes when units are taken back. -/
theorem getD_shareOut_of_lt (hlt : units < (shares units weights).sum)
    (hlen : weights.length ≤ units) {level : ℕ} (h : IsLevel units (shares units weights) level)
    {r : ℕ} (hr : r < weights.length) : (shareOut units (quotas units weights)).getD r 0 =
      if share units weights r < level then share units weights r
      else if ((shares units weights).take r).countP (level ≤ ·) <
        ((shares units weights).map (min level)).sum - units then level - 1
      else level := by
  have heq : shareOut units (quotas units weights) =
      takeBack ((shares units weights).sum - units) (shares units weights) := by
    change (List.range (units - (shares units weights).sum)).foldl _ _ = _
    rw [Nat.sub_eq_zero_of_le hlt.le]
    rfl
  rw [heq, getD_takeBack one_le_of_mem_shares (by rwa [length_shares]) h (by rwa [length_shares]),
    getD_shares hr]

/-- Of two ranks with the same whole part, the heavier one is before the other. -/
theorem mem_take_of_heavier (hun : 0 < units) (hsum : weights.sum ≠ 0) {i j R : ℕ}
    (hi : i < weights.length) (hj : j ∈ (order units weights).take R)
    (hfloor : ⌊quota units weights i⌋₊ = ⌊quota units weights j⌋₊)
    (hle : weights.getD j 0 ≤ weights.getD i 0)
    (hlt : weights.getD j 0 < weights.getD i 0 ∨ i < j) :
    i ∈ (order units weights).take R := by
  have hdiff : frac units weights i - frac units weights j =
      quota units weights i - quota units weights j := by
    rw [← floor_add_frac units weights i, ← floor_add_frac units weights j, hfloor]
    ring
  have hqle := quota_le_quota units hle
  refine mem_take_of_le hi hj (by linarith) (hlt.imp_left fun hlt => ?_)
  have hqlt := quota_lt_quota hun hsum hlt
  linarith

/-- **Topping up** is monotone exactly if no quota below one is topped up. -/
theorem weightMonotone_iff_topped (hsum : weights.sum ≠ 0)
    (hle : (shares units weights).sum ≤ units) (hlen : weights.length ≤ units) :
    WeightMonotone units weights (shareOut units (quotas units weights)) ↔
      ∀ r ∈ (order units weights).take (missing units weights), 1 ≤ quota units weights r := by
  have hne : weights ≠ [] := fun hc => hsum (by rw [hc]; rfl)
  obtain ⟨hlength, htotal, hone⟩ := shareOut_quotas_ok hne hlen
  have hlt {r : ℕ} (hr : r ∈ (order units weights).take (missing units weights)) :
      r < weights.length :=
    List.mem_range.mp (order_perm.mem_iff.mp (List.mem_of_mem_take hr))
  constructor
  · intro h r hr
    have hb := h.bounded r (hlt hr)
    rw [getD_shareOut_of_le hsum hle (hlt hr), if_pos hr] at hb
    by_contra hc
    have hceil : ⌈quota units weights r⌉₊ ≤ 1 := Nat.ceil_le.mpr (by
      rw [Nat.cast_one]
      exact (not_le.mp hc).le)
    have := share_pos units weights r
    rw [max_eq_left hceil] at hb
    omega
  · intro h
    have hshare {r : ℕ} (hr : 1 ≤ quota units weights r) :
        share units weights r = ⌊quota units weights r⌋₊ :=
      max_eq_left (Nat.le_floor (by rwa [Nat.cast_one]))
    refine ⟨hlength, fun i hi j hj hwle hwlt => ?_, fun r hr => ?_, hone, htotal⟩
    · rw [getD_shareOut_of_le hsum hle hi, getD_shareOut_of_le hsum hle hj]
      have hsle := share_le_share units hwle
      by_cases hjt : j ∈ (order units weights).take (missing units weights)
      · rw [if_pos hjt]
        rcases hsle.lt_or_eq with hlt' | heq
        · exact (Nat.succ_le_of_lt hlt').trans (Nat.le_add_right _ _)
        · -- equal whole parts, so that the fractions are as the weights
          have hfloor : ⌊quota units weights i⌋₊ = ⌊quota units weights j⌋₊ := by
            rw [← hshare (h j hjt), heq]
            exact (hshare ((h j hjt).trans (quota_le_quota units hwle))).symm
          have hun : 0 < units := (List.length_pos_iff.mpr hne).trans_le hlen
          rw [if_pos (mem_take_of_heavier hun hsum hi hjt hfloor hwle hwlt), heq]
      · rw [if_neg hjt]
        exact hsle.trans (Nat.le_add_right _ _)
    · rw [getD_shareOut_of_le hsum hle hr]
      by_cases hrt : r ∈ (order units weights).take (missing units weights)
      · rw [if_pos hrt, hshare (h r hrt)]
        refine le_max_of_le_right ?_
        have hpos := frac_pos_of_mem_take hsum hrt
        have hparts := floor_add_frac units weights r
        exact Nat.lt_ceil.mpr (by linarith)
      · rw [if_neg hrt]
        exact share_le_bound r

/-- **Taking back** is monotone exactly if the lightest ranks at the level give. -/
theorem weightMonotone_iff_lowered (hne : weights ≠ [])
    (hlt : units < (shares units weights).sum) (hlen : weights.length ≤ units) :
    WeightMonotone units weights (shareOut units (quotas units weights)) ↔
      ∀ level, units ≤ ((shares units weights).map (min level)).sum →
        ((shares units weights).map (min (level - 1))).sum < units →
        ∀ i < weights.length, ∀ j < weights.length,
          level ≤ share units weights i → level ≤ share units weights j →
          ((shares units weights).take i).countP (level ≤ ·) <
            ((shares units weights).map (min level)).sum - units →
          ((shares units weights).map (min level)).sum - units ≤
            ((shares units weights).take j).countP (level ≤ ·) →
          weights.getD i 0 < weights.getD j 0 := by
  obtain ⟨hlength, htotal, hone⟩ := shareOut_quotas_ok hne hlen
  have hbefore (level : ℕ) {i j : ℕ} (hij : i ≤ j) :
      ((shares units weights).take i).countP (level ≤ ·) ≤
        ((shares units weights).take j).countP (level ≤ ·) :=
    List.Sublist.countP_le (List.take_sublist_take_left hij)
  constructor
  · intro h level hge hlt' i hi j hj hsi hsj hki hkj
    have hij : i < j := by
      by_contra hc
      have := hbefore level (not_lt.mp hc)
      omega
    by_contra hw
    have hmono := h.monotone i hi j hj (not_lt.mp hw) (Or.inr hij)
    rw [getD_shareOut_of_lt hlt hlen ⟨hge, hlt'⟩ hi, getD_shareOut_of_lt hlt hlen ⟨hge, hlt'⟩ hj,
      if_neg (not_lt.mpr hsi), if_neg (not_lt.mpr hsj), if_pos hki,
      if_neg (not_lt.mpr hkj)] at hmono
    have hzero : level ≠ 0 := by
      rintro rfl
      exact absurd (hge.trans_lt hlt') (lt_irrefl _)
    omega
  · intro h
    have hsne : shares units weights ≠ [] := by
      intro hc
      rw [hc] at hlt
      cases hlt
    obtain ⟨level, hlevel, -⟩ :=
      takeBack_eq_lower one_le_of_mem_shares hsne (by rwa [length_shares]) hlt.le
    have hthere := h level hlevel.le hlevel.lt
    refine ⟨hlength, fun i hi j hj hwle _ => ?_, fun r hr => ?_, hone, htotal⟩
    · have hsle := share_le_share units hwle
      rw [getD_shareOut_of_lt hlt hlen hlevel hi, getD_shareOut_of_lt hlt hlen hlevel hj]
      by_cases hsj : share units weights j < level
      · rw [if_pos hsj]
        split
        · exact hsle
        · split
          · exact Nat.le_sub_one_of_lt hsj
          · exact hsj.le
      · rw [if_neg hsj, if_neg (not_lt.mpr ((not_lt.mp hsj).trans hsle))]
        split
        · split <;> omega
        · next hkj =>
          rw [if_neg fun hki => (hthere i hi j hj ((not_lt.mp hsj).trans hsle) (not_lt.mp hsj) hki
            (not_lt.mp hkj)).not_ge hwle]
    · refine le_trans ?_ (share_le_bound r)
      rw [getD_shareOut_of_lt hlt hlen hlevel hr]
      split
      · exact le_rfl
      · next hsr => split <;> omega

/-- **`partition_units` is monotone in the weights exactly under the condition**: the quotas below
one are not topped up, and units are taken back from the lightest ranks. -/
theorem partitionUnits_weightMonotone_iff (units : ℕ) (weights : List ℕ)
    (hlen : weights.length ≤ units) (hpos : ∀ w ∈ weights, 0 < w) :
    (∃ sizes, partitionUnits exactDiv units weights none = some sizes ∧
      WeightMonotone units weights sizes) ↔ Proportionate units weights := by
  rcases eq_or_ne weights [] with rfl | hne
  · constructor
    · rintro ⟨sizes, -, h⟩
      have hnil : sizes = [] := List.length_eq_zero_iff.mp h.length_eq
      have hzero : units = 0 := by rw [← h.total, hnil, List.sum_nil]
      refine ⟨fun _ => hzero, fun r hr => ?_, fun _ _ _ i hi => absurd hi (Nat.not_lt_zero i)⟩
      have hmem := order_perm.mem_iff.mp (List.mem_of_mem_take hr)
      cases hmem
    · intro h
      obtain rfl := h.nonempty rfl
      exact ⟨[], rfl, rfl, fun i hi => (nomatch hi), fun r hr => (nomatch hr),
        fun s hs => (nomatch hs), rfl⟩
  · have hsum : weights.sum ≠ 0 := (sum_pos hpos hne).ne'
    obtain ⟨hlength, htotal, hone⟩ := shareOut_quotas_ok hne hlen
    have hraw : partitionUnits exactDiv units weights none =
        some (shareOut units (quotas units weights)) := by
      rw [partitionUnits, partitionUnitsRaw, if_neg (not_lt.mpr hlen), mapM_exactDiv hsum,
        Option.bind_some, if_pos ⟨htotal, hone⟩]
    have hiff : (∃ sizes, partitionUnits exactDiv units weights none = some sizes ∧
        WeightMonotone units weights sizes) ↔
        WeightMonotone units weights (shareOut units (quotas units weights)) := by
      rw [hraw]
      constructor
      · rintro ⟨sizes, heq, h⟩
        rwa [Option.some.inj heq]
      · exact fun h => ⟨_, rfl, h⟩
    rw [hiff]
    rcases le_or_gt (shares units weights).sum units with hle | hlt
    · rw [weightMonotone_iff_topped hsum hle hlen]
      refine ⟨fun h => ⟨fun hc => absurd hc hne, h, fun level hge _ i _ j _ _ _ hki => ?_⟩,
        fun h => h.topped⟩
      -- no level is lowered
      have := sum_map_min_le (shares units weights) level
      omega
    · rw [weightMonotone_iff_lowered hne hlt hlen]
      refine ⟨fun h => ⟨fun hc => absurd hc hne, fun r hr => ?_, h⟩, fun h => h.lowered⟩
      rw [missing, Nat.sub_eq_zero_of_le hlt.le] at hr
      cases hr

/-- Three units are given to the heavier of two ranks, one of them because it is missing. -/
theorem proportionate_toppedUp : Proportionate 4 [2, 1] := by
  have hshares : shares 4 [2, 1] = [2, 1] := by decide +kernel
  refine ⟨fun hc => (nomatch hc), by decide +kernel, fun level hge hlt i _ j _ _ _ hki => ?_⟩
  have := sum_map_min_le (shares 4 [2, 1]) level
  rw [hshares] at this hki
  simp only [List.sum_cons, List.sum_nil] at this
  omega

/-- Of two ranks with three units the lighter one gives a unit back. -/
theorem proportionate_takenBack : Proportionate 8 [1, 1, 1, 9, 10] := by
  have hshares : shares 8 [1, 1, 1, 9, 10] = [1, 1, 1, 3, 3] := by decide +kernel
  refine ⟨fun hc => (nomatch hc), by decide +kernel, fun level hge hlt => ?_⟩
  have hlevel : IsLevel 8 (shares 8 [1, 1, 1, 9, 10]) 3 := by
    rw [hshares]
    exact ⟨by decide, by decide⟩
  obtain rfl := hlevel.unique ⟨hge, hlt⟩
  rw [hshares]
  intro i (hi : i < 5) j (hj : j < 5) _ _ hki hkj
  -- the first of the two is the fourth rank
  have hlast : ∀ i < 5, ([1, 1, 1, 3, 3].take i).countP (3 ≤ ·) < 1 ↔ i < 4 := by decide
  have hi : i < 4 := (hlast i hi).mp hki
  have hj : ¬j < 4 := fun hc => absurd ((hlast j hj).mpr hc) (not_lt.mpr hkj)
  obtain rfl : j = 4 := by omega
  interval_cases i <;> decide

theorem partitionUnits_weightMonotone_corrected :
    (∃ sizes, partitionUnits exactDiv 4 [2, 1] none = some sizes ∧
      WeightMonotone 4 [2, 1] sizes) ∧
    ∃ sizes, partitionUnits exactDiv 8 [1, 1, 1, 9, 10] none = some sizes ∧
      WeightMonotone 8 [1, 1, 1, 9, 10] sizes :=
  ⟨(partitionUnits_weightMonotone_iff 4 [2, 1] (by decide) (by decide)).mpr
      proportionate_toppedUp,
    (partitionUnits_weightMonotone_iff 8 [1, 1, 1, 9, 10] (by decide) (by decide)).mpr
      proportionate_takenBack⟩

/-- **A lighter rank can receive more**: its share was raised to one, and its fraction is still the
largest. -/
theorem lighter_rank_gets_more : partitionUnits exactDiv 4 [1, 2, 2] none = some [2, 1, 1] ∧
    ¬WeightMonotone 4 [1, 2, 2] [2, 1, 1] := by
  refine ⟨by decide +kernel, fun h => ?_⟩
  exact absurd (h.monotone 1 (by decide) 0 (by decide) (by decide) (by decide)) (by decide)

end Partition

end HtSglang
