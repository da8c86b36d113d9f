import HtSglang.Library.Best
import HtSglang.Distributed.PartitionUnits

/-!
# Splits that do not cross a group of heads

`_partition_units_kv_aligned` splits units so that no rank's units lie in two groups. When the plain
split does not have this property, the ranks are cut into one segment per group, and the units of a
group are split over its segment. The lengths of the segments are found by trying all of them
(`HtSglang.Partition.searchLengths_searched`): those that are left out could not be completed.

With positive weights the split never fails (`HtSglang.Partition.partitionUnitsKvAligned_aligned`).
Where a whole segment weighs nothing, the quotas of its ranks are divided by zero
(`HtSglang.Partition.weightless_segment_fails`).
-/

namespace HtSglang

namespace Partition

/-! ### Quotients that fit a float -/

theorem divHalfEven_le (a b : ℕ) : divHalfEven a b ≤ a / b + 1 := by
  rw [divHalfEven]
  split
  · exact Nat.le_succ _
  · exact le_rfl

/-- The leading digit of a quotient below a power of two. -/
theorem binaryExponent_le {a b e : ℕ} (hb : 0 < b) (h : a ≤ b * 2 ^ e) :
    binaryExponent a b ≤ e := by
  rw [binaryExponent]
  split
  · next hle =>
    by_contra hc
    have hneg : (-((a.log2 : ℤ) - b.log2)).toNat = 0 := by omega
    rw [hneg, pow_zero, mul_one] at hle
    have hpow : 2 ^ ((a.log2 : ℤ) - b.log2).toNat ≤ 2 ^ e :=
      Nat.le_of_mul_le_mul_left (hle.trans h) hb
    have := (Nat.pow_le_pow_iff_right (by norm_num)).mp hpow
    omega
  · rcases Nat.eq_zero_or_pos a with rfl | ha
    · have : (0 : ℕ).log2 = 0 := rfl
      omega
    · have hlow : 2 ^ a.log2 ≤ a := Nat.log2_self_le ha.ne'
      have hhigh : b < 2 ^ (b.log2 + 1) := Nat.lt_log2_self
      have hpow : 2 ^ a.log2 < 2 ^ (b.log2 + 1 + e) := by
        rw [pow_add]
        calc 2 ^ a.log2 ≤ b * 2 ^ e := hlow.trans h
          _ < 2 ^ (b.log2 + 1) * 2 ^ e := Nat.mul_lt_mul_of_pos_right hhigh (by positivity)
      have := (Nat.pow_lt_pow_iff_right (by norm_num)).mp hpow
      omega

/-- **A quotient that is not too large** is a float. -/
theorem floatDiv_eq_some {a b : ℕ} (hb : 0 < b) (h : a ≤ b * 2 ^ 1023) :
    ∃ q, floatDiv a b = some q := by
  rw [floatDiv, if_neg hb.ne', trueDiv]
  have hexp := binaryExponent_le hb h
  generalize hedef : max (-1074) (binaryExponent a b - 52) = e
  have he : e.toNat ≤ 971 := by omega
  have hdouble : (2 : ℕ) ^ 1024 = 2 ^ 1023 + 2 ^ 1023 := by rw [pow_succ, mul_two]
  have hnum : divHalfEven (a * 2 ^ (-e).toNat) (b * 2 ^ e.toNat) * 2 ^ e.toNat <
      2 ^ 1024 * 2 ^ (-e).toNat := by
    rcases le_total 0 e with hpos | hneg
    · have hzero : (-e).toNat = 0 := by omega
      rw [hzero, pow_zero, mul_one, mul_one]
      have hdiv : a / (b * 2 ^ e.toNat) * 2 ^ e.toNat ≤ 2 ^ 1023 := by
        rw [← Nat.div_div_eq_div_mul]
        refine (Nat.div_mul_le_self _ _).trans ?_
        exact Nat.div_le_of_le_mul h
      have hsmall : 2 ^ e.toNat < 2 ^ 1023 := pow_lt_pow_right₀ one_lt_two (by omega)
      calc divHalfEven a (b * 2 ^ e.toNat) * 2 ^ e.toNat
          ≤ (a / (b * 2 ^ e.toNat) + 1) * 2 ^ e.toNat :=
            Nat.mul_le_mul_right _ (divHalfEven_le _ _)
        _ = a / (b * 2 ^ e.toNat) * 2 ^ e.toNat + 2 ^ e.toNat := by rw [Nat.add_mul, one_mul]
        _ < 2 ^ 1023 + 2 ^ 1023 := Nat.add_lt_add_of_le_of_lt hdiv hsmall
        _ = 2 ^ 1024 := hdouble.symm
    · have hzero : e.toNat = 0 := by omega
      rw [hzero, pow_zero, mul_one, mul_one]
      have hdiv : a * 2 ^ (-e).toNat / b ≤ 2 ^ 1023 * 2 ^ (-e).toNat := by
        refine Nat.div_le_of_le_mul ?_
        rw [← mul_assoc]
        exact Nat.mul_le_mul_right _ h
      have hone : 1 ≤ 2 ^ (-e).toNat := Nat.one_le_two_pow
      have hle := (divHalfEven_le (a * 2 ^ (-e).toNat) b).trans (Nat.add_le_add_right hdiv 1)
      have hbig : 1 < (2 : ℕ) ^ 1023 * 2 ^ (-e).toNat :=
        (one_lt_pow₀ one_lt_two (by norm_num)).trans_le (Nat.le_mul_of_pos_right _ hone)
      rw [hdouble, Nat.add_mul]
      exact hle.trans_lt (Nat.add_lt_add_left hbig _)
  have hcast : ((divHalfEven (a * 2 ^ (-e).toNat) (b * 2 ^ e.toNat) * 2 ^ e.toNat : ℕ) :
      ℚ) / (2 ^ (-e).toNat : ℕ) < (2 ^ 1024 : ℕ) := by
    rw [div_lt_iff₀ (Nat.cast_pos.mpr (by positivity)), ← Nat.cast_mul]
    exact Nat.cast_lt.mpr hnum
  exact ⟨_, if_pos hcast⟩

/-- **The plain split** does not fail when the quotas are there. -/
theorem partitionUnitsRaw_float {units : ℕ} {weights : List ℕ} (hne : weights ≠ [])
    (hlen : weights.length ≤ units) (hpos : ∀ w ∈ weights, 0 < w) (hunits : units ≤ 2 ^ 1023) :
    ∃ sizes, partitionUnitsRaw floatDiv units weights = some sizes ∧
      sizes.length = weights.length ∧ sizes.sum = units ∧ ∀ s ∈ sizes, 1 ≤ s := by
  have hdiv : ∀ w ∈ weights, floatDiv (units * w) weights.sum ≠ none := by
    intro w hw
    obtain ⟨q, hq⟩ := floatDiv_eq_some (a := units * w) (sum_pos hpos hne) (by
      rw [mul_comm]
      exact Nat.mul_le_mul (List.single_le_sum (fun _ _ => Nat.zero_le _) w hw) hunits)
    rw [hq]
    exact Option.some_ne_none q
  have hok := shareOut_ok units
    (weights.map fun w => (floatDiv (units * w) weights.sum).getD 0)
    (fun hc => hne (List.map_eq_nil_iff.mp hc)) (by rwa [List.length_map])
  rw [List.length_map] at hok
  exact ⟨_, (partitionUnitsRaw_eq_some hne hlen).mpr ⟨hdiv, rfl⟩, hok⟩

/-! ### The segments -/

/-- **Lengths of segments** for the ranks from `start` on. -/
structure Completes (n maxLen gLeft start : ℕ) (lengths : List ℕ) : Prop where
  length_eq : lengths.length = gLeft
  pos : ∀ L ∈ lengths, 1 ≤ L
  le : ∀ L ∈ lengths, L ≤ maxLen
  sum_eq : start + lengths.sum = n

theorem completes_zero_iff {n maxLen start : ℕ} {lengths : List ℕ} :
    Completes n maxLen 0 start lengths ↔ lengths = [] ∧ start = n := by
  constructor
  · intro h
    obtain rfl := List.length_eq_zero_iff.mp h.length_eq
    exact ⟨rfl, by simpa using h.sum_eq⟩
  · rintro ⟨rfl, rfl⟩
    exact ⟨rfl, fun L hL => (nomatch hL), fun L hL => (nomatch hL), rfl⟩

theorem completes_succ_iff {n maxLen gLeft start L : ℕ} {lengths : List ℕ} :
    Completes n maxLen (gLeft + 1) start (L :: lengths) ↔
      1 ≤ L ∧ L ≤ maxLen ∧ Completes n maxLen gLeft (start + L) lengths := by
  constructor
  · intro h
    refine ⟨h.pos L List.mem_cons_self, h.le L List.mem_cons_self,
      Nat.succ.inj h.length_eq, fun L' hL' => h.pos L' (List.mem_cons_of_mem _ hL'),
      fun L' hL' => h.le L' (List.mem_cons_of_mem _ hL'), ?_⟩
    have := h.sum_eq
    rw [List.sum_cons] at this
    omega
  · rintro ⟨hpos, hle, h⟩
    refine ⟨congrArg Nat.succ h.length_eq, List.forall_mem_cons.mpr ⟨hpos, h.pos⟩,
      List.forall_mem_cons.mpr ⟨hle, h.le⟩, ?_⟩
    rw [List.sum_cons, ← Nat.add_assoc]
    exact h.sum_eq

/-- What is left is at least one rank and at most the longest segment for each group. -/
theorem Completes.bounds {n maxLen gLeft start : ℕ} {lengths : List ℕ}
    (h : Completes n maxLen gLeft start lengths) :
    start + gLeft ≤ n ∧ n ≤ start + gLeft * maxLen := by
  have hlow : lengths.length • 1 ≤ lengths.sum := List.card_nsmul_le_sum lengths 1 h.pos
  have hhigh : lengths.sum ≤ lengths.length • maxLen := List.sum_le_card_nsmul lengths maxLen h.le
  have := h.sum_eq
  rw [h.length_eq, smul_eq_mul] at hlow hhigh
  omega

/-- The largest sum of weights of a segment. -/
def largestSum (weights lengths : List ℕ) : ℕ := (splitKey weights lengths).1

theorem le_of_not_keyLt {weights lengths b : List ℕ}
    (h : keyLt (splitKey weights lengths) (splitKey weights b) = false) :
    largestSum weights b ≤ largestSum weights lengths := by
  by_contra hc
  have : keyLt (splitKey weights lengths) (splitKey weights b) = true :=
    decide_eq_true (Or.inl (not_le.mp hc))
  rw [h] at this
  cases this

theorem le_of_keyLt {weights lengths b : List ℕ}
    (h : keyLt (splitKey weights lengths) (splitKey weights b) = true) :
    largestSum weights lengths ≤ largestSum weights b := by
  rcases of_decide_eq_true h with hlt | ⟨heq, -⟩
  · exact hlt.le
  · exact heq.le

/-- **The search goes through all lengths** of the segments that are left. -/
theorem searchLengths_searched (weights : List ℕ) (maxLen gLeft start : ℕ) (lengths : List ℕ)
    (best : Option (List ℕ)) (hstart : start ≤ weights.length) :
    Searched (largestSum weights)
      (fun r => ∃ rest, Completes weights.length maxLen gLeft start rest ∧ r = lengths ++ rest) best
      (searchLengths weights maxLen gLeft start lengths best) := by
  induction gLeft generalizing start lengths best with
  | zero =>
    rw [searchLengths.eq_def]
    dsimp only
    by_cases hend : weights.length - start = 0
    · have hcand (r : List ℕ) : (∃ rest, Completes weights.length maxLen 0 start rest ∧
          r = lengths ++ rest) ↔ r = lengths := by
        constructor
        · rintro ⟨rest, h, rfl⟩
          rw [(completes_zero_iff.mp h).1, List.append_nil]
        · rintro rfl
          exact ⟨[], completes_zero_iff.mpr ⟨rfl, by omega⟩, (List.append_nil _).symm⟩
      rw [if_pos hend]
      refine Searched.congr (C := fun r => r = lengths) ?_ hcand
      cases best with
      | none =>
        exact ⟨fun r hr => Or.inr (Option.some.inj hr).symm, fun b hb => (nomatch hb),
          fun c hc => ⟨lengths, rfl, hc ▸ le_rfl⟩⟩
      | some b =>
        cases hkey : keyLt (splitKey weights lengths) (splitKey weights b) with
        | true =>
          refine ⟨fun r hr => Or.inr ?_, fun b' hb' => ⟨lengths, ?_, ?_⟩,
            fun c hc => ⟨lengths, ?_, ?_⟩⟩
          · simpa [hkey, eq_comm] using hr
          · simp [hkey]
          · exact Option.some.inj hb' ▸ le_of_keyLt hkey
          · simp [hkey]
          · exact hc ▸ le_rfl
        | false =>
          refine ⟨fun r hr => Or.inl ?_, fun b' hb' => ⟨b, ?_, ?_⟩, fun c hc => ⟨b, ?_, ?_⟩⟩
          · simpa [hkey] using hr
          · simp [hkey]
          · exact Option.some.inj hb' ▸ le_rfl
          · simp [hkey]
          · exact hc ▸ le_of_not_keyLt hkey
    · rw [if_neg hend]
      refine Searched.refl ?_ best
      rintro r ⟨rest, h, -⟩
      exact hend (by rw [(completes_zero_iff.mp h).2, Nat.sub_self])
  | succ gLeft ih =>
    rw [searchLengths]
    -- one loop over the length of the next segment
    refine Searched.congr (Searched.foldl (D := fun L r => ∃ rest, Completes weights.length maxLen
      gLeft (start + L) rest ∧ r = lengths ++ L :: rest) (fun b L hL => ?_) best) fun r => ?_
    · rw [List.mem_range'_1] at hL
      split
      · next hlong =>
        refine Searched.refl ?_ b
        rintro r ⟨rest, h, -⟩
        have := h.bounds
        omega
      · refine (ih (start + L) (lengths ++ [L]) b (by omega)).congr fun r => ?_
        simp only [List.append_assoc, List.singleton_append]
    · constructor
      · rintro ⟨rest, h, rfl⟩
        cases rest with
        | nil => cases h.length_eq
        | cons L rest =>
          obtain ⟨hpos, hle, hrest⟩ := completes_succ_iff.mp h
          have := hrest.bounds
          exact ⟨L, List.mem_range'_1.mpr (by omega), rest, hrest, rfl⟩
      · rintro ⟨L, hL, rest, hrest, rfl⟩
        rw [List.mem_range'_1] at hL
        exact ⟨L :: rest, completes_succ_iff.mpr ⟨by omega, by omega, hrest⟩, rfl⟩

/-- **The lengths that are chosen** are lengths of segments, and no others have a smaller largest
sum. -/
theorem balancedGroupLengths_optimal {weights : List ℕ} {groups maxLen : ℕ}
    (hlow : groups ≤ weights.length) (hhigh : weights.length ≤ groups * maxLen)
    (hmax : 1 ≤ maxLen) :
    ∃ lengths, balancedGroupLengths weights groups maxLen = some lengths ∧
      Completes weights.length maxLen groups 0 lengths ∧
      ∀ lengths', Completes weights.length maxLen groups 0 lengths' →
        largestSum weights lengths ≤ largestSum weights lengths' := by
  have hsearch := searchLengths_searched weights maxLen groups 0 [] none (Nat.zero_le _)
  have hbounds : ∀ b ∈ List.replicate groups maxLen, 1 ≤ b := fun b hb =>
    (List.eq_of_mem_replicate hb).symm ▸ hmax
  obtain ⟨v, hv, hpos, hsum⟩ := exists_vector (g := weights.length) hbounds
    (by rwa [List.length_replicate]) (by rwa [List.sum_replicate, smul_eq_mul])
  have hcomplete : Completes weights.length maxLen groups 0 v := by
    refine ⟨?_, hpos, fun x hx => ?_, by rw [Nat.zero_add, hsum]⟩
    · rw [← hv.length_eq, List.length_replicate]
    · obtain ⟨i, hi, rfl⟩ := List.getElem_of_mem hx
      have hle := hv.get (show i < (List.replicate groups maxLen).length by
        rw [hv.length_eq]
        exact hi) hi
      simpa using hle
  obtain ⟨lengths, hlengths, -⟩ := hsearch.le v ⟨v, hcomplete, rfl⟩
  refine ⟨lengths, hlengths, ?_, fun lengths' h' => ?_⟩
  · rcases hsearch.mem lengths hlengths with hc | ⟨rest, hrest, rfl⟩
    · cases hc
    · exact hrest
  · obtain ⟨r, hr, hle⟩ := hsearch.le lengths' ⟨lengths', h', rfl⟩
    rwa [Option.some.inj (hlengths.symm.trans hr)]

/-! ### Alignment -/

/-- **No rank crosses a group**: every multiple of the units of a group is a sum of the first
sizes. -/
def Aligned (per groups : ℕ) (sizes : List ℕ) : Prop :=
  ∀ k ≤ groups, ∃ m ≤ sizes.length, (sizes.take m).sum = k * per

theorem mem_runningSums {c x : ℕ} {l : List ℕ} :
    x ∈ runningSums c l ↔ ∃ m, 1 ≤ m ∧ m ≤ l.length ∧ x = c + (l.take m).sum := by
  induction l generalizing c with
  | nil =>
    refine ⟨fun hx => (nomatch hx), ?_⟩
    rintro ⟨m, hm, hle, -⟩
    exact absurd (hm.trans hle) (by simp)
  | cons s l ih =>
    rw [runningSums, List.mem_cons, ih]
    constructor
    · rintro (rfl | ⟨m, hm, hle, rfl⟩)
      · exact ⟨1, le_rfl, by simp, by simp⟩
      · refine ⟨m + 1, by omega, Nat.succ_le_succ hle, ?_⟩
        rw [List.take_succ_cons, List.sum_cons, Nat.add_assoc]
    · rintro ⟨m, hm, hle, rfl⟩
      obtain ⟨m, rfl⟩ := Nat.exists_eq_succ_of_ne_zero (Nat.pos_iff_ne_zero.mp hm)
      rw [List.take_succ_cons, List.sum_cons, ← Nat.add_assoc]
      rcases Nat.eq_zero_or_pos m with rfl | hm'
      · exact Or.inl (by simp)
      · exact Or.inr ⟨m, hm', Nat.le_of_succ_le_succ hle, rfl⟩

/-- The check of the boundaries. -/
theorem boundaries_seen_iff {per groups : ℕ} {sizes : List ℕ} (hper : 0 < per)
    (hsum : sizes.sum = groups * per) :
    (∀ b ∈ (List.range' 1 (groups - 1)).map (per * ·), b ∈ runningSums 0 sizes.dropLast) ↔
      Aligned per groups sizes := by
  have htake {m : ℕ} (hm : m ≤ sizes.dropLast.length) : sizes.dropLast.take m = sizes.take m := by
    rw [List.length_dropLast] at hm
    rw [List.dropLast_eq_take, List.take_take, min_eq_left hm]
  constructor
  · intro h k hk
    rcases Nat.eq_zero_or_pos k with rfl | hpos
    · exact ⟨0, Nat.zero_le _, by simp⟩
    rcases hk.lt_or_eq with hlt | rfl
    · have hmem : per * k ∈ (List.range' 1 (groups - 1)).map (per * ·) :=
        List.mem_map_of_mem (List.mem_range'_1.mpr (by omega))
      obtain ⟨m, -, hle, heq⟩ := mem_runningSums.mp (h _ hmem)
      rw [htake hle, Nat.zero_add] at heq
      rw [List.length_dropLast] at hle
      exact ⟨m, by omega, by rw [← heq, mul_comm]⟩
    · exact ⟨sizes.length, le_rfl, by rw [List.take_length, hsum]⟩
  · intro h b hb
    obtain ⟨k, hk, rfl⟩ := List.mem_map.mp hb
    rw [List.mem_range'_1] at hk
    obtain ⟨m, hle, heq⟩ := h k (by omega)
    have hm : 1 ≤ m := by
      by_contra hc
      rw [Nat.lt_one_iff.mp (not_le.mp hc), List.take_zero, List.sum_nil] at heq
      exact absurd heq.symm (Nat.mul_pos (by omega) hper).ne'
    have hlt : m ≠ sizes.length := by
      rintro rfl
      rw [List.take_length, hsum] at heq
      have := Nat.eq_of_mul_eq_mul_right hper heq
      omega
    have hle' : m ≤ sizes.dropLast.length := by
      rw [List.length_dropLast]
      omega
    refine mem_runningSums.mpr ⟨m, hm, hle', ?_⟩
    rw [htake hle', Nat.zero_add, heq, mul_comm]

/-! ### Segments that are split one by one -/

/-- The segments. -/
theorem cut_ok {lengths : List ℕ} {maxLen : ℕ} {l : List ℕ} (hsum : lengths.sum = l.length)
    (hpos : ∀ L ∈ lengths, 1 ≤ L) (hle : ∀ L ∈ lengths, L ≤ maxLen) :
    (cut lengths l).flatten = l ∧ (cut lengths l).length = lengths.length ∧
      ∀ seg ∈ cut lengths l, seg ≠ [] ∧ seg.length ≤ maxLen := by
  induction lengths generalizing l with
  | nil =>
    obtain rfl : l = [] := List.length_eq_zero_iff.mp hsum.symm
    exact ⟨rfl, rfl, fun seg hseg => (nomatch hseg)⟩
  | cons L lengths ih =>
    rw [List.sum_cons] at hsum
    have hL := hpos L List.mem_cons_self
    have hLle := hle L List.mem_cons_self
    obtain ⟨hflat, hlen, hseg⟩ := ih (l := l.drop L) (by rw [List.length_drop]; omega)
      (fun L' hL' => hpos L' (List.mem_cons_of_mem _ hL'))
      (fun L' hL' => hle L' (List.mem_cons_of_mem _ hL'))
    have htake : (l.take L).length = L := by
      rw [List.length_take]
      omega
    refine ⟨?_, by rw [cut, List.length_cons, List.length_cons, hlen], ?_⟩
    · rw [cut, List.flatten_cons, hflat, List.take_append_drop]
    · rw [cut, List.forall_mem_cons]
      refine ⟨⟨fun hc => ?_, htake.trans_le hLle⟩, hseg⟩
      rw [hc, List.length_nil] at htake
      omega

/-- Parts of equal sums, one after the other. -/
theorem aligned_flatten {parts : List (List ℕ)} {per : ℕ} (h : ∀ p ∈ parts, p.sum = per) :
    Aligned per parts.length parts.flatten := by
  intro k hk
  induction parts generalizing k with
  | nil =>
    obtain rfl := Nat.le_zero.mp hk
    exact ⟨0, le_rfl, by simp⟩
  | cons p parts ih =>
    cases k with
    | zero => exact ⟨0, Nat.zero_le _, by simp⟩
    | succ k =>
      obtain ⟨m, hm, heq⟩ := ih (fun p' hp' => h p' (List.mem_cons_of_mem _ hp')) k
        (Nat.le_of_succ_le_succ hk)
      refine ⟨p.length + m, ?_, ?_⟩
      · rw [List.flatten_cons, List.length_append]
        omega
      · rw [List.flatten_cons, List.take_length_add_append, List.sum_append,
          h p List.mem_cons_self, heq]
        ring

theorem sum_flatten_of_sum {parts : List (List ℕ)} {per : ℕ} (h : ∀ p ∈ parts, p.sum = per) :
    parts.flatten.sum = parts.length * per := by
  rw [List.sum_flatten, List.eq_replicate_of_mem (l := parts.map List.sum) (a := per) fun x hx => by
    obtain ⟨p, hp, rfl⟩ := List.mem_map.mp hx
    exact h p hp, List.sum_replicate, List.length_map, smul_eq_mul]

/-- What splitting each segment gives. -/
theorem mapM_partitionUnitsRaw {per : ℕ} (hper : per ≤ 2 ^ 1023) {segs : List (List ℕ)}
    (hsegs : ∀ seg ∈ segs, seg ≠ [] ∧ seg.length ≤ per) (hpos : ∀ w ∈ segs.flatten, 0 < w) :
    ∃ parts, segs.mapM (partitionUnitsRaw floatDiv per) = some parts ∧
      parts.length = segs.length ∧ parts.flatten.length = segs.flatten.length ∧
      (∀ p ∈ parts, p.sum = per) ∧ ∀ s ∈ parts.flatten, 1 ≤ s := by
  induction segs with
  | nil => exact ⟨[], rfl, rfl, rfl, fun p hp => (nomatch hp), fun s hs => (nomatch hs)⟩
  | cons seg segs ih =>
    obtain ⟨hne, hle⟩ := hsegs seg List.mem_cons_self
    rw [List.flatten_cons] at hpos
    obtain ⟨p, hp, hplen, hpsum, hpone⟩ := partitionUnitsRaw_float hne hle
      (fun w hw => hpos w (List.mem_append_left _ hw)) hper
    obtain ⟨parts, hparts, hlen, hflat, hsum, hone⟩ :=
      ih (fun seg' hseg' => hsegs seg' (List.mem_cons_of_mem _ hseg'))
        (fun w hw => hpos w (List.mem_append_right _ hw))
    refine ⟨p :: parts, ?_, by rw [List.length_cons, List.length_cons, hlen], ?_,
      List.forall_mem_cons.mpr ⟨hpsum, hsum⟩, ?_⟩
    · rw [List.mapM_cons, hp, hparts]
      rfl
    · rw [List.flatten_cons, List.flatten_cons, List.length_append, List.length_append, hplen,
        hflat]
    · intro s hs
      rw [List.flatten_cons, List.mem_append] at hs
      exact hs.elim (hpone s) (hone s)

/-! ### The aligned split -/

/-- **The aligned split never fails and never crosses a group**, for positive weights and quotas
that fit a float; it is the plain split where that one is aligned; and the segments it chooses have
the least largest sum of weights. -/
theorem partitionUnitsKvAligned_aligned (units : ℕ) (weights : List ℕ) (groups : ℕ)
    (hlen : weights.length ≤ units) (hgroups : 2 ≤ groups) (hranks : groups < weights.length)
    (hdvd : groups ∣ units) (hpos : ∀ w ∈ weights, 0 < w) (hunits : units ≤ 2 ^ 1023) :
    (∃ sizes, partitionUnitsKvAligned floatDiv units weights groups = some sizes ∧
      sizes.length = weights.length ∧ (∀ s ∈ sizes, 1 ≤ s) ∧ sizes.sum = units ∧
      Aligned (units / groups) groups sizes ∧
      ∀ raw, partitionUnitsRaw floatDiv units weights = some raw →
        Aligned (units / groups) groups raw → sizes = raw) ∧
    ∃ lengths, balancedGroupLengths weights groups (units / groups) = some lengths ∧
      Completes weights.length (units / groups) groups 0 lengths ∧
      ∀ lengths', Completes weights.length (units / groups) groups 0 lengths' →
        largestSum weights lengths ≤ largestSum weights lengths' := by
  obtain ⟨per, rfl⟩ := hdvd
  have hg : 0 < groups := by omega
  rw [Nat.mul_div_cancel_left per hg]
  have hper : 0 < per := by
    rcases Nat.eq_zero_or_pos per with rfl | h
    · rw [mul_zero] at hlen
      omega
    · exact h
  have hne : weights ≠ [] := by
    rintro rfl
    cases hranks
  obtain ⟨raw, hraw, hrawlen, hrawsum, hrawone⟩ := partitionUnitsRaw_float hne hlen hpos hunits
  obtain ⟨lengths, hlengths, hcomplete, hopt⟩ := balancedGroupLengths_optimal hranks.le hlen hper
  refine ⟨?_, lengths, hlengths, hcomplete, hopt⟩
  have hcase : ¬(groups < 2 ∨ weights.length ≤ groups ∨ groups * per % groups ≠ 0) := by
    rw [Nat.mul_mod_right]
    omega
  rw [partitionUnitsKvAligned, hraw, Option.bind_some, if_neg hcase,
    Nat.mul_div_cancel_left per hg]
  have hseen := boundaries_seen_iff hper hrawsum
  by_cases haligned : Aligned per groups raw
  · refine ⟨raw, if_pos (hseen.mpr haligned), hrawlen, hrawone, hrawsum, haligned, ?_⟩
    intro raw' hraw' _
    exact Option.some.inj hraw'
  · -- the segments are split one by one
    obtain ⟨hflat, hcutlen, hsegs⟩ := cut_ok (l := weights)
      (by rw [← hcomplete.sum_eq, Nat.zero_add]) hcomplete.pos hcomplete.le
    have hperle : per ≤ 2 ^ 1023 := (Nat.le_mul_of_pos_left per hg).trans hunits
    obtain ⟨parts, hparts, hplen, hpflat, hpsum, hpone⟩ :=
      mapM_partitionUnitsRaw hperle hsegs (by rwa [hflat])
    have hgcount : parts.length = groups := by rw [hplen, hcutlen, hcomplete.length_eq]
    have htotal : parts.flatten.sum = groups * per := by rw [sum_flatten_of_sum hpsum, hgcount]
    refine ⟨parts.flatten, ?_, by rw [hpflat, hflat], hpone, htotal, ?_, ?_⟩
    · rw [if_neg fun hc => haligned (hseen.mp hc), hlengths, Option.bind_some, hparts,
        Option.bind_some, if_pos ⟨htotal, hpone⟩]
    · have := aligned_flatten hpsum
      rwa [hgcount] at this
    · intro raw' hraw' haligned'
      exact absurd (Option.some.inj hraw' ▸ haligned') haligned

/-- The plain split gives the second rank a unit of each group. -/
theorem partitionUnitsKvAligned_aligned_threeRanks :
    partitionUnitsRaw floatDiv 4 [1, 3, 1] = some [1, 2, 1] ∧ ¬Aligned 2 2 [1, 2, 1] ∧
      ∃ sizes, partitionUnitsKvAligned floatDiv 4 [1, 3, 1] 2 = some sizes ∧
        Aligned 2 2 sizes := by
  refine ⟨by decide +kernel, fun h => absurd (h 1 (by decide)) (by decide), ?_⟩
  obtain ⟨⟨sizes, hsizes, -, -, -, haligned, -⟩, -⟩ := partitionUnitsKvAligned_aligned 4 [1, 3, 1] 2
    (by decide) (by decide) (by decide) (by decide) (by decide) (by
      calc 4 ≤ 2 ^ 2 := by norm_num
        _ ≤ 2 ^ 1023 := pow_le_pow_right₀ one_le_two (by norm_num))
  exact ⟨sizes, hsizes, haligned⟩

/-- **A segment without weight fails**: three ranks without weight and one with it, in two groups.
Nor is there a split for more units than a float can count. -/
theorem weightless_segment_fails :
    partitionUnitsKvAligned floatDiv 8 [0, 0, 0, 1] 2 = none ∧
      partitionUnitsKvAligned floatDiv (2 ^ 1026) [1, 1, 1] 2 = none := by
  constructor <;> decide +kernel

end Partition

end HtSglang
