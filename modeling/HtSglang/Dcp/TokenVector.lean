import HtSglang.Library.Residue

/-!
# The installed token vector and its readers

Under decode context parallelism the KV cache is sharded by *token*: a process
installs one global vector of token ratios, and everything that reads or writes
KV derives from it which slots the rank owns and in which physical row it keeps
them. This file is that read side, from `distributed/utils.py` and
`layers/dcp/owner.py`:

* the installed vector (`HtSglang.Dcp.setCpTokenRatios`) and the question
  whether it is a weighted one at all (`HtSglang.Dcp.unevenDcpActive`), to which
  an all-equal vector answers no;
* the prefix sums every bound is cut from (`HtSglang.Dcp.cpTokenPrefix`), with
  the even vector `1, 1, …, 1` standing in when the answer is no;
* the owner bounds of a rank (`HtSglang.Dcp.dcpWeightedOwnerBounds`) and the two
  sides of the owner rule that consume them, the write side
  (`HtSglang.Dcp.dcpWeightedWriteSlots`) and the read side
  (`HtSglang.Dcp.dcpWeightedReadSlots`).

The attention backends snapshot their bounds at construction, so a live change of
the vector has to reach every snapshot; `HtSglang.Dcp.refreshAllOwnerBounds` is
that refresh.
-/

namespace HtSglang

namespace Dcp

/-! ### Prefix sums, as the sources accumulate them -/

/-- The list of prefix sums, accumulated by appending to the last entry. -/
def accumulate (w : List ℤ) : List ℤ :=
  w.foldl (fun out v => out ++ [out.getLastD 0 + v]) [0]

/-- **The accumulated list is the list of prefix sums**, the empty prefix and the
whole vector included. -/
theorem accumulate_eq (w : List ℤ) :
    accumulate w = (List.range (w.length + 1)).map (prefixSum w) := by
  -- after `k` entries of the vector the list holds the prefix sums up to `k`
  have key : ∀ (u v : List ℤ), w = u ++ v →
      v.foldl (fun out v => out ++ [out.getLastD 0 + v])
        ((List.range (u.length + 1)).map (prefixSum w))
        = (List.range (w.length + 1)).map (prefixSum w) := by
    intro u v
    induction v generalizing u with
    | nil => intro h; simp [h]
    | cons a v ih =>
      intro h
      have hlen : u.length < w.length := by simp [h]
      have ha : w[u.length] = a := by simp [h]
      have hlast : ((List.range (u.length + 1)).map (prefixSum w)).getLastD 0
          = prefixSum w u.length := by simp [List.range_succ]
      rw [List.foldl_cons, hlast, ← ha, ← prefixSum_succ hlen]
      have hstep : (List.range (u.length + 1)).map (prefixSum w) ++ [prefixSum w (u.length + 1)]
          = (List.range ((u ++ [a]).length + 1)).map (prefixSum w) := by
        simp [List.range_succ]
      rw [hstep]
      exact ih (u ++ [a]) (by simp [h])
  have h := key [] w rfl
  simp only [List.length_nil, Nat.zero_add, List.range_one, List.map_cons, List.map_nil,
    prefixSum_zero] at h
  exact h

theorem accumulate_getD {w : List ℤ} {k : ℕ} (hk : k ≤ w.length) :
    (accumulate w).getD k 0 = prefixSum w k := by
  rw [accumulate_eq, List.getD_eq_getElem _ _ (by simpa using Nat.lt_succ_of_le hk)]
  simp

@[simp] theorem accumulate_getLastD (w : List ℤ) : (accumulate w).getLastD 0 = w.sum := by
  simp [accumulate_eq, List.range_succ]

/-! ### The installed vector -/

/-- The process-global token vector; `none` is the classic even split. -/
abbrev TokenRatios := Option (List ℤ)

/-- `set_cp_token_ratios`: an empty vector installs nothing. -/
def setCpTokenRatios (ratios : List ℤ) : TokenRatios :=
  if ratios = [] then none else some ratios

/-- `len(set(ratios)) == 1`: every entry is the first one. -/
def allEqual : List ℤ → Bool
  | [] => false
  | a :: w => w.all (· = a)

/-- `uneven_dcp_active`: a vector is installed, it is not all-equal, and when a
group size is given it has that many entries. -/
def unevenDcpActive (ratios : TokenRatios) (dcpSize : Option ℕ) : Bool :=
  match ratios with
  | none => false
  | some w =>
    if w = [] ∨ allEqual w = true then false
    else match dcpSize with
      | none => true
      | some n => w.length = n

/-- The vector the prefix sums are taken of: the installed one, or `1, …, 1` when
the weighted rule is not in force. -/
def effectiveRatios (ratios : TokenRatios) (dcpSize : ℕ) : List ℤ :=
  if unevenDcpActive ratios (some dcpSize) then ratios.getD [] else List.replicate dcpSize 1

/-- `cp_token_prefix`. -/
def cpTokenPrefix (ratios : TokenRatios) (dcpSize : ℕ) : List ℤ :=
  accumulate (effectiveRatios ratios dcpSize)

theorem effectiveRatios_length (ratios : TokenRatios) (dcpSize : ℕ) :
    (effectiveRatios ratios dcpSize).length = dcpSize := by
  unfold effectiveRatios
  split
  · next h =>
    unfold unevenDcpActive at h
    cases ratios with
    | none => simp at h
    | some w =>
      simp only [Option.getD_some]
      simp only [Bool.if_false_left, Bool.and_eq_true, decide_eq_true_eq] at h
      exact h.2
  · simp

/-! ### Owner bounds and the two sides of the owner rule -/

/-- The bounds a reader works with: block length, first and one-past-last owned
residue, and the number of owned residues. -/
structure OwnerBounds where
  /-- The number of slots of one owner block. -/
  cpS : ℤ
  /-- The first owned residue. -/
  cpLo : ℤ
  /-- One past the last owned residue. -/
  cpHi : ℤ
  /-- The number of owned residues. -/
  cpRatio : ℤ
  deriving DecidableEq, Repr

/-- `dcp_weighted_owner_bounds`. -/
def dcpWeightedOwnerBounds (ratios : TokenRatios) (dcpSize dcpRank : ℕ) : OwnerBounds :=
  let pre := cpTokenPrefix ratios dcpSize
  let lo := pre.getD dcpRank 0
  let hi := pre.getD (dcpRank + 1) 0
  { cpS := pre.getLastD 0, cpLo := lo, cpHi := hi, cpRatio := hi - lo }

theorem dcpWeightedOwnerBounds_eq (ratios : TokenRatios) {dcpSize dcpRank : ℕ}
    (hr : dcpRank < dcpSize) :
    dcpWeightedOwnerBounds ratios dcpSize dcpRank =
      { cpS := (effectiveRatios ratios dcpSize).sum
        cpLo := prefixSum (effectiveRatios ratios dcpSize) dcpRank
        cpHi := prefixSum (effectiveRatios ratios dcpSize) (dcpRank + 1)
        cpRatio := prefixSum (effectiveRatios ratios dcpSize) (dcpRank + 1)
          - prefixSum (effectiveRatios ratios dcpSize) dcpRank } := by
  have hlen := effectiveRatios_length ratios dcpSize
  simp only [dcpWeightedOwnerBounds, cpTokenPrefix, accumulate_getLastD]
  rw [accumulate_getD (by omega), accumulate_getD (by omega)]

/-- `dcp_weighted_write_slots`, at one slot: the row to write and whether the rank
owns the slot. An unowned slot is sent to row `0`. -/
def dcpWeightedWriteSlots (b : OwnerBounds) (cacheLoc : ℤ) : ℤ × Bool :=
  let off := cacheLoc % b.cpS
  let block := cacheLoc / b.cpS
  let mask := decide (b.cpLo ≤ off) && decide (off < b.cpHi)
  (if mask then block * b.cpRatio + (off - b.cpLo) else 0, mask)

/-- The cast to a 32-bit signed integer, which wraps around. -/
def toInt32 (x : ℤ) : ℤ := Int.bmod x (2 ^ 32)

theorem toInt32_of_lt {x : ℤ} (h0 : 0 ≤ x) (h : x < 2 ^ 31) : toInt32 x = x := by
  rw [toInt32, Int.bmod_eq_of_le] <;> omega

/-- `dcp_weighted_read_slots`, at one slot: the row, computed for every slot and
cast to 32 bits, and whether the rank owns it. -/
def dcpWeightedReadSlots (b : OwnerBounds) (cacheLoc : ℤ) : ℤ × Bool :=
  let off := cacheLoc % b.cpS
  let owned := decide (b.cpLo ≤ off) && decide (off < b.cpHi)
  (toInt32 (cacheLoc / b.cpS * b.cpRatio + (off - b.cpLo)), owned)

/-- Both sides own the slots whose residue falls in the bounds. -/
theorem dcpWeightedSlots_owned (b : OwnerBounds) (L : ℤ) :
    ((dcpWeightedReadSlots b L).2 = true ↔ b.cpLo ≤ L % b.cpS ∧ L % b.cpS < b.cpHi) ∧
      ((dcpWeightedWriteSlots b L).2 = true ↔ b.cpLo ≤ L % b.cpS ∧ L % b.cpS < b.cpHi) := by
  simp [dcpWeightedReadSlots, dcpWeightedWriteSlots]

/-- The row of an owned slot is the packed one, on both sides. -/
theorem dcpWeightedSlots_row (b : OwnerBounds) {L : ℤ}
    (h : b.cpLo ≤ L % b.cpS ∧ L % b.cpS < b.cpHi) :
    (dcpWeightedReadSlots b L).1 = toInt32 (packed b.cpS b.cpLo b.cpRatio L) ∧
      (dcpWeightedWriteSlots b L).1 = packed b.cpS b.cpLo b.cpRatio L := by
  refine ⟨rfl, ?_⟩
  simp only [dcpWeightedWriteSlots, packed]
  rw [if_pos (by simp [h.1, h.2])]

/-! ### The snapshots a live change has to reach -/

/-- An attention backend that caches the owner bounds of its rank. It registers
for a refresh exactly when it runs the weighted rule. -/
structure OwnerBoundsConsumer where
  /-- The size of the backend's group. -/
  dcpSize : ℕ
  /-- The backend's rank in it. -/
  dcpRank : ℕ
  /-- Whether the backend was built with a weighted vector installed. -/
  unevenDcpWeighted : Bool
  /-- The cached bounds. -/
  bounds : OwnerBounds

/-- `refresh_dcp_owner_bounds`. -/
def OwnerBoundsConsumer.refreshDcpOwnerBounds (ratios : TokenRatios) (c : OwnerBoundsConsumer) :
    OwnerBoundsConsumer :=
  if c.unevenDcpWeighted then
    { c with bounds := dcpWeightedOwnerBounds ratios c.dcpSize c.dcpRank }
  else c

/-- `refresh_all_owner_bounds`: every registered consumer, and how many. -/
def refreshAllOwnerBounds (ratios : TokenRatios) (cs : List OwnerBoundsConsumer) :
    List OwnerBoundsConsumer × ℕ :=
  (cs.map (·.refreshDcpOwnerBounds ratios), cs.length)

/-- The cutover of a reshard: install the vector, refresh every snapshot. -/
def cutover (newVector : List ℤ) (cs : List OwnerBoundsConsumer) :
    TokenRatios × List OwnerBoundsConsumer :=
  (setCpTokenRatios newVector, (refreshAllOwnerBounds (setCpTokenRatios newVector) cs).1)

/-- **After a cutover every weighted backend holds the bounds of the new vector**,
whatever it held before. -/
theorem bounds_of_mem_cutover {newVector : List ℤ} {cs : List OwnerBoundsConsumer}
    {c : OwnerBoundsConsumer} (hc : c ∈ (cutover newVector cs).2)
    (hw : c.unevenDcpWeighted = true) :
    c.bounds = dcpWeightedOwnerBounds (setCpTokenRatios newVector) c.dcpSize c.dcpRank := by
  simp only [cutover, refreshAllOwnerBounds, List.mem_map] at hc
  obtain ⟨d, -, rfl⟩ := hc
  unfold OwnerBoundsConsumer.refreshDcpOwnerBounds at hw ⊢
  split <;> simp_all

end Dcp

end HtSglang
