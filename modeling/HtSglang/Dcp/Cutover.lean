import HtSglang.Dcp.ReshardRuntime

/-!
# Mover and readers after a cutover

A reshard lays the pool out by the owner rule of the target vector, computed from
the vector itself (`HtSglang.Dcp.ownerOf`, `HtSglang.Dcp.rowsOf`). After the cutover
every reader and writer of KV asks the *installed* vector instead, and there an
all-equal vector means the even split: the readers take `1, 1, …, 1` in its place.

The two rules are the same rule on every vector but one kind: an all-equal vector
of entries above one. It cuts blocks of its entry where the even split alternates
slot by slot, so already slot `1` has two different owners.
`HtSglang.Dcp.cutover_agrees_iff` is the exact condition.
-/

namespace HtSglang

namespace Dcp

open KvReshardRuntime

/-! ### Which vector the readers use -/

theorem eq_replicate_of_allEqual {w : List ℤ} (h : allEqual w = true) :
    ∃ a, w = List.replicate w.length a := by
  cases w with
  | nil => simp [allEqual] at h
  | cons a w =>
    refine ⟨a, List.eq_replicate_iff.mpr ⟨rfl, fun b hb => ?_⟩⟩
    rcases List.mem_cons.mp hb with rfl | hb
    · rfl
    · simpa using (List.all_eq_true.mp h) b hb

theorem effectiveRatios_setCpTokenRatios {n : ℕ} {w : List ℤ} (hw : IsShareVector n w)
    (hn : 0 < n) :
    effectiveRatios (setCpTokenRatios w) n
      = if allEqual w then List.replicate n 1 else w := by
  have hne : w ≠ [] := by
    rintro rfl
    have := hw.length_eq
    simp at this
    omega
  simp only [effectiveRatios, setCpTokenRatios, if_neg hne, unevenDcpActive, Option.getD_some]
  by_cases h : allEqual w = true
  · simp [h]
  · simp [hne, h, hw.length_eq]

/-! ### Agreement at one slot -/

/-- At slot `L`, both sides of the installed rule say that rank `r` owns it exactly
when the mover does, and then they give the row the mover packed it in. -/
structure AgreesAt (target : List ℤ) (b : OwnerBounds) (r : ℕ) (L : ℤ) : Prop where
  /-- The read side owns what the mover gave to the rank. -/
  read_owned : (dcpWeightedReadSlots b L).2 = true ↔ ownerOf L target = r
  /-- The write side owns what the mover gave to the rank. -/
  write_owned : (dcpWeightedWriteSlots b L).2 = true ↔ ownerOf L target = r
  /-- The read side finds an owned slot where the mover put it. -/
  read_row : ownerOf L target = r → (dcpWeightedReadSlots b L).1 = rowsOf L target r
  /-- The write side continues where the mover put it. -/
  write_row : ownerOf L target = r → (dcpWeightedWriteSlots b L).1 = rowsOf L target r

/-- **Readers that use the target itself agree with the mover.** -/
theorem agreesAt_of_effectiveRatios {n : ℕ} {w : List ℤ} (hw : IsShareVector n w)
    (heff : effectiveRatios (setCpTokenRatios w) n = w) {r : ℕ} (hr : r < n) {L : ℤ}
    (h0 : 0 ≤ L) (h31 : L < 2 ^ 31) :
    AgreesAt w (dcpWeightedOwnerBounds (setCpTokenRatios w) n r) r L := by
  have hrw : r < w.length := by rw [hw.length_eq]; exact hr
  have hS := hw.sum_pos (by omega)
  obtain ⟨hread, hwrite⟩ := dcpWeightedSlots_owned
    (dcpWeightedOwnerBounds (setCpTokenRatios w) n r) L
  rw [dcpWeightedOwnerBounds_eq _ hr, heff] at hread hwrite ⊢
  have hown : ownerOf L w = r ↔ InClass w r (L % w.sum) := ownerOf_eq_iff hw hr
  have hrow : ∀ h : ownerOf L w = r, rowsOf L w r < 2 ^ 31 ∧ 0 ≤ rowsOf L w r := by
    intro h
    refine ⟨?_, rowsOf_nonneg hw h0 hr h⟩
    rw [rowsOf_eq_packed hrw]
    have hle := prefixSum_mono hw.one_le (show r + 1 ≤ w.length by omega) le_rfl
    rw [prefixSum_length] at hle
    have hlo := prefixSum_nonneg hw.one_le hrw.le
    exact lt_of_le_of_lt (packed_le h0 hS hlo (by omega)) h31
  have hslots : ∀ h : ownerOf L w = r, _ := fun h => dcpWeightedSlots_row
    ⟨w.sum, prefixSum w r, prefixSum w (r + 1), prefixSum w (r + 1) - prefixSum w r⟩ (hown.mp h)
  refine ⟨hread.trans hown.symm, hwrite.trans hown.symm, fun h => ?_, fun h => ?_⟩
  · rw [(hslots h).1, ← rowsOf_eq_packed hrw, toInt32_of_lt (hrow h).2 (hrow h).1]
  · rw [(hslots h).2, ← rowsOf_eq_packed hrw]

/-- **An all-equal target above one splits the mover from its readers** at slot `1`:
the mover keeps it on rank `0`, the readers look for it on rank `1`. -/
theorem not_agreesAt_one {n : ℕ} {a : ℤ} (ha : 2 ≤ a) (hn : 2 ≤ n) :
    ¬AgreesAt (List.replicate n a)
      (dcpWeightedOwnerBounds (setCpTokenRatios (List.replicate n a)) n 1) 1 1 := by
  intro h
  have hw : IsShareVector n (List.replicate n a) :=
    ⟨by simp, fun b hb => by rw [(List.mem_replicate.mp hb).2]; omega⟩
  have hall : allEqual (List.replicate n a) = true := by
    obtain ⟨m, rfl⟩ : ∃ m, n = m + 1 := ⟨n - 1, by omega⟩
    simp [List.replicate_succ, allEqual]
  have heff : effectiveRatios (setCpTokenRatios (List.replicate n a)) n = List.replicate n 1 := by
    rw [effectiveRatios_setCpTokenRatios hw (by omega), if_pos hall]
  have hpre : ∀ (b : ℤ) (k : ℕ), k ≤ n → prefixSum (List.replicate n b) k = k * b := by
    intro b k hk
    rw [prefixSum, List.take_replicate, List.sum_replicate, Nat.min_eq_left hk, nsmul_eq_mul]
  -- the mover: residue `1` is below the first share
  have hsum : (List.replicate n a).sum = n * a := by rw [List.sum_replicate, nsmul_eq_mul]
  have hlt : (1 : ℤ) < n * a := by nlinarith [show (2 : ℤ) ≤ n by omega]
  have hmover : ownerOf 1 (List.replicate n a) = 0 := by
    refine (ownerOf_eq_iff hw (by omega)).mpr ⟨?_, ?_⟩
    · rw [hpre a 0 (by omega), hsum, Int.emod_eq_of_lt (by omega) hlt]
      simp
    · rw [hpre a (0 + 1) (by omega), hsum, Int.emod_eq_of_lt (by omega) hlt]
      push_cast
      omega
  -- the readers: residue `1` of the even split is rank `1`
  have hreader : (dcpWeightedReadSlots
      (dcpWeightedOwnerBounds (setCpTokenRatios (List.replicate n a)) n 1) 1).2 = true := by
    rw [(dcpWeightedSlots_owned _ 1).1, dcpWeightedOwnerBounds_eq _ (by omega), heff]
    simp only [hpre 1 1 (by omega), hpre 1 (1 + 1) (by omega), List.sum_replicate, nsmul_eq_mul]
    rw [Int.emod_eq_of_lt (by omega) (by omega)]
    norm_num
  have := h.read_owned.mp hreader
  omega

/-! ### The exact condition -/

section Condition

variable {g : RowFormat} (int : List Char → Option ℤ)

/-- A target the system accepts: the vectors of the runtime are the declared ones, and
`arm` arms it. -/
structure AcceptedTarget (spec : List Char) (dcpSize : ℕ) (boot : List ℤ)
    (rt : KvReshardRuntime g) (target : List ℤ) : Prop where
  /-- The runtime was built on the declared vectors. -/
  allowed_eq : reshardVectorSet int spec dcpSize boot = .ok rt.allowed
  /-- The runtime belongs to a group of that size. -/
  size_eq : rt.size = dcpSize
  armed : (rt.arm target).1 = .armed rt.current target

/-- An armed target is a vector of the group. -/
theorem isShareVector_of_armed {rt : KvReshardRuntime g} {target : List ℤ}
    (h : (rt.arm target).1 = .armed rt.current target) : IsShareVector rt.size target := by
  unfold arm at h
  split at h
  · cases h
  split at h
  · cases h
  next hvalid =>
  simp only [not_or, not_not, Bool.not_eq_true, List.any_eq_false, decide_eq_true_eq,
    not_lt] at hvalid
  exact ⟨hvalid.1, hvalid.2⟩

/-- **When mover and readers agree after a cutover.** For every declared set of
vectors, every runtime built on it and every target it accepts to be armed with:
after the cutover the installed rule and the rule the pool was laid out by agree on
every rank and every 32-bit slot exactly when the target is not all-equal, or is all
ones. Every weighted backend holds the bounds of the installed vector. -/
theorem cutover_agrees_iff {spec : List Char} {dcpSize : ℕ} {boot : List ℤ}
    {rt : KvReshardRuntime g} {target : List ℤ}
    (hacc : AcceptedTarget int spec dcpSize boot rt target) (cs : List OwnerBoundsConsumer) :
    ((∀ r < dcpSize, ∀ L : ℤ, 0 ≤ L → L < 2 ^ 31 → AgreesAt target
        (dcpWeightedOwnerBounds (cutover target cs).1 dcpSize r) r L) ↔
      (allEqual target = false ∨ target = List.replicate dcpSize 1)) ∧
    ∀ c ∈ (cutover target cs).2, c.unevenDcpWeighted = true →
      c.bounds = dcpWeightedOwnerBounds (cutover target cs).1 c.dcpSize c.dcpRank := by
  have hw : IsShareVector dcpSize target := hacc.size_eq ▸ isShareVector_of_armed hacc.armed
  have hn : 2 ≤ dcpSize := hacc.size_eq ▸ rt.two_le_size
  refine ⟨⟨fun h => ?_, fun h r hr L h0 h31 => ?_⟩, fun c hc hcw => bounds_of_mem_cutover hc hcw⟩
  · by_contra hcon
    rw [not_or, Bool.not_eq_false] at hcon
    obtain ⟨a, ha⟩ := eq_replicate_of_allEqual hcon.1
    rw [hw.length_eq] at ha
    have h1 : 1 ≤ a := hw.one_le a (by rw [ha]; simp; omega)
    have hne : a ≠ 1 := fun hc => hcon.2 (by rw [ha, hc])
    have := h 1 (by omega) 1 (by omega) (by omega)
    rw [ha] at this
    exact not_agreesAt_one (by omega) hn this
  · refine agreesAt_of_effectiveRatios hw ?_ hr h0 h31
    rw [effectiveRatios_setCpTokenRatios hw (by omega)]
    rcases h with h | h
    · simp [h]
    · split
      · exact h.symm
      · rfl

end Condition

/-! ### One target of each kind -/

/-- The numerals of the two runs below: one digit. -/
def digit : List Char → Option ℤ
  | [c] => if c.isDigit then some (c.toNat - '0'.toNat) else none
  | _ => none

/-- A runtime of two ranks at boot vector `1, 3`, with one declared target. -/
def twoRankRuntime (target : List ℤ) (h : target.length = 2) :
    KvReshardRuntime ⟨0, fun _ => 0, fun _ => 0⟩ where
  size := 2
  rank := 0
  allowed := [[1, 3], target]
  interval := 8
  blockingGuards := []
  corridorFloorBytes := 0
  pool := ⟨8, fun _ _ => [], fun _ _ => [], fun _ _ => rfl, fun _ _ => rfl⟩
  round := 0
  epoch := 0
  current := [1, 3]
  pending := none
  refusedHeadroom := 0
  two_le_size := le_rfl
  length_allowed := by simp [h]
  current_mem := by simp
  pending_mem := by simp

/-- A weighted target is accepted, and mover and readers agree on it. -/
theorem cutover_agrees_weighted :
    AcceptedTarget digit ['3', ',', '1'] 2 [1, 3] (twoRankRuntime [3, 1] rfl) [3, 1] ∧
      ∀ r < 2, ∀ L : ℤ, 0 ≤ L → L < 2 ^ 31 →
        AgreesAt [3, 1] (dcpWeightedOwnerBounds (cutover [3, 1] []).1 2 r) r L := by
  have hacc : AcceptedTarget digit ['3', ',', '1'] 2 [1, 3] (twoRankRuntime [3, 1] rfl) [3, 1] :=
    ⟨by decide, rfl, by decide⟩
  exact ⟨hacc, (cutover_agrees_iff digit hacc []).1.mpr (.inl (by decide))⟩

/-- **An even target above one is accepted, and readers look on the wrong rank.** With
boot vector `1, 3` the target `2, 2` is declared, armed and installed; the mover has
slot `1` on rank `0`, both sides of the installed rule have it on rank `1`. -/
theorem cutover_disagrees_two_two :
    unevenDcpActive (some [1, 3]) (some 2) = true ∧
    AcceptedTarget digit ['2', ',', '2'] 2 [1, 3] (twoRankRuntime [2, 2] rfl) [2, 2] ∧
      ownerOf 1 [2, 2] = 0 ∧
      (dcpWeightedReadSlots (dcpWeightedOwnerBounds (cutover [2, 2] []).1 2 1) 1).2 = true ∧
      (dcpWeightedWriteSlots (dcpWeightedOwnerBounds (cutover [2, 2] []).1 2 1) 1).2 = true ∧
      (dcpWeightedReadSlots (dcpWeightedOwnerBounds (cutover [2, 2] []).1 2 0) 1).2 = false := by
  refine ⟨by decide, ⟨by decide, rfl, by decide⟩, by decide, by decide, by decide, by decide⟩

end Dcp

end HtSglang
