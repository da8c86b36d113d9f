import Mathlib

/-!
# Lengths under the even owner rule

Without weights a position of a sequence belongs to the rank that it is congruent to, modulo the
size of the group (`layers/dcp/layout.py`). How many of the positions of a request a rank owns is
computed in two ways, with an offset and without (`HtSglang.Dcp.getDcpLens`), and a third time on
the host, from a mirror of the lengths (`HtSglang.Dcp.dcpHostEvenTotal`). The rows of a rank are
the quotients of the positions that it owns (`HtSglang.Dcp.filterDcpLocalKvIndices`).

All of them count the same positions (`HtSglang.Dcp.ownedCount`, `HtSglang.Dcp.evenLens_count`).
The mirror is used when it has the right sum, which does not make it the vector that the device
has: two vectors with the same sum can have different totals (`HtSglang.Dcp.stale_mirror_total`).
-/

namespace HtSglang

namespace Dcp

/-! ### The code -/

/-- `get_dcp_lens` for one request without an offset. -/
def dcpLen (dcpSize dcpRank len : ℤ) : ℤ :=
  len / dcpSize + (if dcpRank < len % dcpSize then 1 else 0)

/-- `get_dcp_lens` for one request that starts at `start`. -/
def dcpLenFrom (dcpSize dcpRank start len : ℤ) : ℤ :=
  let first := start + (dcpRank - start) % dcpSize
  let remaining := start + len - first
  max ((remaining + dcpSize - 1) / dcpSize) 0

/-- `get_dcp_lens`. -/
def getDcpLens (lens : List ℤ) (dcpSize dcpRank : ℤ) (start : Option (List ℤ)) : List ℤ :=
  if dcpSize = 1 then lens
  else match start with
    | none => lens.map (dcpLen dcpSize dcpRank)
    | some start => List.zipWith (dcpLenFrom dcpSize dcpRank) start lens

/-- A mirror of a length vector: a sequence or a tensor of the host, or a tensor of the device. -/
inductive HostLens
  /-- Readable on the host. -/
  | host (lens : List ℤ)
  /-- On the device. -/
  | cuda (lens : List ℤ)

/-- `dcp_host_lens`: the mirror, unless it cannot be read or has another sum than expected. -/
def dcpHostLens (lensCpu : Option HostLens) (expectedSum : Option ℤ) : Option (List ℤ) :=
  match lensCpu with
  | none => none
  | some (.cuda _) => none
  | some (.host lens) =>
    match expectedSum with
    | none => some lens
    | some expected => if lens.sum ≠ expected then none else some lens

/-- `dcp_host_even_total`. -/
def dcpHostEvenTotal (lensCpu : Option HostLens) (dcpSize dcpRank : ℤ) (start : Option HostLens)
    (expectedSum : Option ℤ) : Option ℤ :=
  match dcpHostLens lensCpu expectedSum with
  | none => none
  | some lens =>
    match start with
    | none => some (getDcpLens lens dcpSize dcpRank none).sum
    | some start =>
      match dcpHostLens (some start) none with
      | none => none
      | some startHost => some (getDcpLens lens dcpSize dcpRank (some startHost)).sum

/-- What the process knows of its DCP group. -/
structure Parallel where
  /-- Whether there is a group. -/
  dcpGroup : Bool
  dcpSize : ℤ
  dcpRank : ℤ

/-- `dcp_enabled`. -/
def Parallel.dcpEnabled (p : Parallel) : Bool := p.dcpGroup && decide (1 < p.dcpSize)

/-- `filter_dcp_local_kv_indices`. -/
def filterDcpLocalKvIndices (p : Parallel) (kvIndices : List ℤ) : List ℤ :=
  if p.dcpEnabled then
    (kvIndices.filter fun slot => slot % p.dcpSize = p.dcpRank).map (· / p.dcpSize)
  else kvIndices

/-! ### Counting positions -/

/-- The positions of a request. -/
def positions (start len : ℤ) : List ℤ := (List.range len.toNat).map fun i : ℕ => start + (i : ℤ)

/-- How many positions of a request a rank owns. -/
def ownedCount (dcpSize dcpRank start len : ℤ) : ℤ :=
  ((positions start len).filter fun p => p % dcpSize = dcpRank).length

section Count

variable {n : ℤ}

theorem positions_succ (start : ℤ) (k : ℕ) :
    positions start ((k + 1 : ℕ) : ℤ) = positions start k ++ [start + k] := by
  simp [positions, List.range_succ]

theorem nodup_positions (start len : ℤ) : (positions start len).Nodup :=
  List.nodup_range.map fun i j h => by simpa using h

/-- A quotient grows at the multiples of the divisor. -/
theorem add_one_ediv (hn : 0 < n) (x : ℤ) :
    (x + 1) / n = x / n + (if (x + 1) % n = 0 then 1 else 0) := by
  have hx := Int.emod_add_mul_ediv x n
  have hlt := Int.emod_lt_of_pos x hn
  have hnonneg := Int.emod_nonneg x hn.ne'
  have hsum : x + 1 = (x % n + 1) + n * (x / n) := by omega
  have hdiv : (x + 1) / n = (x % n + 1) / n + x / n := by
    conv_lhs => rw [hsum]
    exact Int.add_mul_ediv_left _ _ hn.ne'
  have hmod : (x + 1) % n = (x % n + 1) % n := by
    conv_lhs => rw [hsum]
    exact Int.add_mul_emod_self_left ..
  rw [hdiv, hmod]
  rcases eq_or_lt_of_le (show x % n + 1 ≤ n by omega) with heq | hlt'
  · rw [heq, Int.ediv_self hn.ne', Int.emod_self, if_pos rfl, add_comm]
  · rw [Int.ediv_eq_zero_of_lt (by omega) hlt', Int.emod_eq_of_lt (by omega) hlt',
      if_neg (by omega)]
    omega

/-- **The formula with an offset counts the owned positions**; its clamp never acts. -/
theorem dcpLenFrom_eq_ownedCount {rank : ℤ} (h0 : 0 ≤ rank) (hlt : rank < n) (start : ℤ) (k : ℕ) :
    dcpLenFrom n rank start k = ownedCount n rank start k := by
  have hn : 0 < n := by omega
  set f := (rank - start) % n with hf
  have hf0 : 0 ≤ f := Int.emod_nonneg _ hn.ne'
  have hfn : f < n := Int.emod_lt_of_pos _ hn
  have hvalue (k : ℕ) : dcpLenFrom n rank start k = (k + (n - 1 - f)) / n := by
    rw [dcpLenFrom, ← hf, max_eq_left (Int.ediv_nonneg (by omega) hn.le)]
    congr 1
    omega
  induction k with
  | zero =>
    rw [hvalue]
    simpa [ownedCount, positions] using Int.ediv_eq_zero_of_lt (by omega) (by omega)
  | succ k ih =>
    -- the new position is owned exactly when the dividend reaches a multiple
    have howned : ((k : ℤ) + (n - 1 - f) + 1) % n = 0 ↔ (start + k) % n = rank := by
      have hfirst := Int.emod_add_mul_ediv (rank - start) n
      have hsum : (k : ℤ) + (n - 1 - f) + 1 = start + k - rank + n * (1 + (rank - start) / n) := by
        rw [mul_add, mul_one]
        omega
      rw [hsum, Int.add_mul_emod_self_left, ← Int.emod_eq_emod_iff_emod_sub_eq_zero,
        Int.emod_eq_of_lt h0 hlt]
    rw [hvalue, ownedCount] at ih
    rw [hvalue, ownedCount, positions_succ, List.filter_append, List.length_append]
    push_cast
    rw [← ih, add_right_comm, add_one_ediv hn]
    simp only [howned]
    by_cases hown : (start + k) % n = rank
    · simp [hown]
    · simp [hown]

/-- The formula without an offset is the one for offset zero. -/
theorem dcpLen_eq_dcpLenFrom {rank : ℤ} (h0 : 0 ≤ rank) (hlt : rank < n) {len : ℤ}
    (hlen : 0 ≤ len) : dcpLen n rank len = dcpLenFrom n rank 0 len := by
  have hn : 0 < n := by omega
  have hlen' := Int.emod_add_mul_ediv len n
  have hmod0 := Int.emod_nonneg len hn.ne'
  have hmodn := Int.emod_lt_of_pos len hn
  have hvalue : dcpLenFrom n rank 0 len = len / n + (len % n + (n - 1 - rank)) / n := by
    rw [dcpLenFrom, sub_zero, Int.emod_eq_of_lt h0 hlt,
      max_eq_left (Int.ediv_nonneg (by omega) hn.le),
      show 0 + len - (0 + rank) + n - 1 = len % n + (n - 1 - rank) + n * (len / n) by omega,
      Int.add_mul_ediv_left _ _ hn.ne', add_comm]
  rw [hvalue, dcpLen]
  congr 1
  split
  · next hrank =>
    rw [show len % n + (n - 1 - rank) = len % n - rank - 1 + n * 1 by omega,
      Int.add_mul_ediv_left _ _ hn.ne', Int.ediv_eq_zero_of_lt (by omega) (by omega), zero_add]
  · rw [Int.ediv_eq_zero_of_lt (by omega) (by omega)]

/-- **Every position has one owner.** -/
theorem sum_ownedCount {n : ℕ} (hn : 0 < n) (start : ℤ) (k : ℕ) :
    ∑ rank ∈ Finset.range n, ownedCount n rank start k = k := by
  induction k with
  | zero => simp [ownedCount, positions]
  | succ k ih =>
    obtain ⟨owner, howner⟩ := Int.eq_ofNat_of_zero_le
      (Int.emod_nonneg (start + k) (show (n : ℤ) ≠ 0 by omega))
    have hlt : owner < n := by
      have := Int.emod_lt_of_pos (start + k) (show (0 : ℤ) < n by omega)
      omega
    have hstep (rank : ℕ) : ownedCount n rank start ((k + 1 : ℕ) : ℤ) =
        ownedCount n rank start k + (if rank = owner then 1 else 0) := by
      rw [ownedCount, ownedCount, positions_succ, List.filter_append, List.length_append,
        Nat.cast_add, List.filter_singleton, howner]
      by_cases hrank : rank = owner
      · simp [hrank]
      · simp [hrank, Ne.symm hrank]
    rw [Finset.sum_congr rfl fun rank _ => hstep rank, Finset.sum_add_distrib, ih,
      Finset.sum_ite_eq' (Finset.range n) owner fun _ => (1 : ℤ),
      if_pos (Finset.mem_range.mpr hlt)]
    push_cast
    rfl

/-- With one rank it owns everything. -/
theorem ownedCount_one (start : ℤ) (k : ℕ) : ownedCount 1 0 start k = k := by
  simp [ownedCount, positions]

end Count

/-! ### What the ranks count -/

/-- **The lengths of a batch count the owned positions** of its requests. -/
theorem getDcpLens_eq {n rank : ℕ} (hrank : rank < n) {lens starts : List ℤ}
    (hlen : starts.length = lens.length) (hlens : ∀ l ∈ lens, 0 ≤ l) :
    getDcpLens lens n rank (some starts) =
      List.zipWith (ownedCount n rank) starts lens := by
  refine List.ext_getElem ?_ fun i hi hi' => ?_
  · rw [getDcpLens]
    split <;> simp [hlen]
  · rw [List.length_zipWith] at hi'
    obtain ⟨k, hk⟩ := Int.eq_ofNat_of_zero_le (hlens lens[i] (List.getElem_mem (by omega)))
    rw [List.getElem_zipWith, hk]
    simp only [getDcpLens]
    split
    · next hone =>
      obtain ⟨rfl, rfl⟩ : n = 1 ∧ rank = 0 := by omega
      rw [hk]
      exact (ownedCount_one _ k).symm
    · rw [List.getElem_zipWith, hk, dcpLenFrom_eq_ownedCount (by omega) (by omega)]

/-- Without an offset the requests start at zero. -/
theorem getDcpLens_none {n rank : ℕ} (hrank : rank < n) {lens : List ℤ}
    (hlens : ∀ l ∈ lens, 0 ≤ l) : getDcpLens lens n rank none =
      getDcpLens lens n rank (some (List.replicate lens.length 0)) := by
  simp only [getDcpLens]
  split
  · rfl
  · refine List.ext_getElem (by simp) fun i hi _ => ?_
    rw [List.length_map] at hi
    rw [List.getElem_map, List.getElem_zipWith, List.getElem_replicate,
      dcpLen_eq_dcpLenFrom (by omega) (by omega) (hlens _ (List.getElem_mem hi))]

/-- **The rows of a rank** are as many as it owns positions, and are distinct. -/
theorem filterDcpLocalKvIndices_positions {n rank : ℕ} (hrank : rank < n) {start len : ℤ}
    {slots : List ℤ} (hslots : slots.Perm (positions start len)) :
    ((filterDcpLocalKvIndices ⟨true, n, rank⟩ slots).length : ℤ) = ownedCount n rank start len ∧
      (filterDcpLocalKvIndices ⟨true, n, rank⟩ slots).Nodup := by
  have hnodup : slots.Nodup := hslots.nodup_iff.mpr (nodup_positions start len)
  rw [filterDcpLocalKvIndices]
  split
  · rw [List.length_map, ownedCount, (hslots.filter _).length_eq]
    refine ⟨rfl, List.Nodup.map_on (fun a ha b hb hdiv => ?_) (hnodup.filter _)⟩
    have ha' := of_decide_eq_true (List.mem_filter.mp ha).2
    have hb' := of_decide_eq_true (List.mem_filter.mp hb).2
    rw [← Int.emod_add_mul_ediv a n, ← Int.emod_add_mul_ediv b n, ha', hb', hdiv]
  · next hdisabled =>
    refine ⟨?_, hnodup⟩
    obtain ⟨rfl, rfl⟩ : n = 1 ∧ rank = 0 := by
      simp only [Parallel.dcpEnabled, Bool.true_and, decide_eq_true_eq] at hdisabled
      omega
    rw [hslots.length_eq, ownedCount]
    simp

/-- The total on the host is that of the mirror. -/
theorem dcpHostEvenTotal_host {dcpSize dcpRank : ℤ} {lens : List ℤ} {expectedSum : Option ℤ}
    (hsum : ∀ expected, expectedSum = some expected → lens.sum = expected) :
    dcpHostEvenTotal (some (.host lens)) dcpSize dcpRank none expectedSum =
        some (getDcpLens lens dcpSize dcpRank none).sum ∧
      ∀ starts, dcpHostEvenTotal (some (.host lens)) dcpSize dcpRank (some (.host starts))
        expectedSum = some (getDcpLens lens dcpSize dcpRank (some starts)).sum := by
  have hmirror : dcpHostLens (some (.host lens)) expectedSum = some lens := by
    cases expectedSum with
    | none => rfl
    | some expected => simp [dcpHostLens, hsum expected rfl]
  simp only [dcpHostEvenTotal, hmirror]
  exact ⟨trivial, fun _ => rfl⟩

/-- **The even lengths count owned positions.** For every size of the group, every rank and every
batch of requests, the length of a request on a rank is the number of its positions that are
congruent to the rank; without an offset it is that of the offset zero; the lengths of the ranks
add up to the length of the request; the total on the host, when its mirror is the vector of the
device and has the expected sum, is the sum of the lengths; and the local rows of a request's
positions are as many, and distinct. -/
theorem evenLens_count {n : ℕ} (hn : 1 ≤ n) {lens starts : List ℤ}
    (hlen : starts.length = lens.length) (hlens : ∀ l ∈ lens, 0 ≤ l) :
    (∀ rank < n,
      getDcpLens lens n rank (some starts) = List.zipWith (ownedCount n rank) starts lens ∧
      getDcpLens lens n rank none =
        getDcpLens lens n rank (some (List.replicate lens.length 0)) ∧
      (∀ device expectedSum, device = lens →
        (∀ expected, expectedSum = some expected → lens.sum = expected) →
          dcpHostEvenTotal (some (.host lens)) n rank none expectedSum =
              some (getDcpLens device n rank none).sum ∧
            dcpHostEvenTotal (some (.host lens)) n rank (some (.host starts)) expectedSum =
              some (getDcpLens device n rank (some starts)).sum) ∧
      ∀ start len slots, slots.Perm (positions start len) →
        ((filterDcpLocalKvIndices ⟨true, n, rank⟩ slots).length : ℤ) =
            ownedCount n rank start len ∧
          (filterDcpLocalKvIndices ⟨true, n, rank⟩ slots).Nodup) ∧
    ∀ i (hi : i < lens.length),
      ∑ rank ∈ Finset.range n, (getDcpLens lens n rank (some starts)).getD i 0 = lens[i] := by
  refine ⟨fun rank hrank => ⟨getDcpLens_eq hrank hlen hlens, getDcpLens_none hrank hlens, ?_,
    fun _ _ _ hslots => filterDcpLocalKvIndices_positions hrank hslots⟩, fun i hi => ?_⟩
  · rintro device expectedSum rfl hsum
    obtain ⟨hnone, hstarts⟩ := dcpHostEvenTotal_host hsum
    exact ⟨hnone, hstarts starts⟩
  · obtain ⟨k, hk⟩ := Int.eq_ofNat_of_zero_le (hlens lens[i] (List.getElem_mem hi))
    have hentry {rank : ℕ} (hrank : rank < n) :
        (getDcpLens lens n rank (some starts)).getD i 0 = ownedCount n rank starts[i] k := by
      rw [getDcpLens_eq hrank hlen hlens, List.getD_eq_getElem _ _ (by simp; omega),
        List.getElem_zipWith, hk]
    rw [Finset.sum_congr rfl fun rank hrank => hentry (Finset.mem_range.mp hrank), hk]
    exact sum_ownedCount hn starts[i] k

/-- Three ranks and two requests, one of them shorter than the group. -/
theorem evenLens_count_three_ranks :
    getDcpLens [5, 1] 3 1 (some [4, 2]) = [2, 0] ∧
      dcpHostEvenTotal (some (.host [5, 1])) 3 1 (some (.host [4, 2])) (some 6) = some 2 := by
  obtain ⟨hall, -⟩ := @evenLens_count 3 (by decide) [5, 1] [4, 2] rfl (by decide)
  obtain ⟨hcount, -, hhost, -⟩ := hall 1 (by decide)
  refine ⟨hcount.trans (by decide), ?_⟩
  exact (hhost [5, 1] (some 6) rfl (by decide)).2.trans (by rw [hcount]; decide)

/-- **A mirror with the right sum can have another total**: the device has the lengths `2` and
`2`, the mirror the lengths `3` and `1`. -/
theorem stale_mirror_total :
    dcpHostEvenTotal (some (.host [3, 1])) 2 0 none (some [2, 2].sum) = some 3 ∧
      (getDcpLens [2, 2] 2 0 none).sum = 2 := by
  decide

end Dcp

end HtSglang
