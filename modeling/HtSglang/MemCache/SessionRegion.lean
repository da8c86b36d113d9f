import HtSglang.Library.Residue

/-!
# The host region of a spilled session

A session that no longer fits on the device can be spilled: the tail of its KV cache moves to a
region of host memory that is its own, and it goes on decoding there, tick by tick, while blocks
from the front of the tail wave back to the device (`managers/kv_session_offload.py`,
`layers/attention/flashinfer_backend.py`). Under decode context parallelism with weighted ratios,
each rank keeps the tokens whose slot has a residue in its window. The slot ids of the tail are
replaced by sentinels with the same residues, and a token that is decoded on the host gets the
residue of its position. The rows of a region are never used twice: those that waved back stay
drained (`HtSglang.SessionOffload.Inv`).

A region has room for all positions of a context that a rank owns, with some to spare. But the tail
that is spilled is owned by its slots, not by its positions: nothing keeps most of them from lying
in one window. The spill is accepted if they fit; the tokens that follow may then not
(`HtSglang.SessionOffload.region_overflows`). The session never outgrows its region if and only if
the slots of each rank and the positions that are still to come fit together, which is always so for
a prompt that is prefilled into its region: `HtSglang.SessionOffload.region_fits_iff`.
-/

namespace HtSglang

namespace SessionOffload

/-! ### The owner rule and the region -/

/-- The ratios of the ranks, and the sizes of the pool and of a context. -/
structure Geometry where
  /-- The token ratios, from which `cp_prefix` is accumulated. -/
  ratios : List ℤ
  ratios_nonneg : ∀ a ∈ ratios, 0 ≤ a
  sum_pos : 0 < ratios.sum
  /-- The size of the allocator: its slots are at most this. -/
  allocMaxSlot : ℕ
  contextLen : ℕ

variable (g : Geometry)

/-- `S`. -/
def Geometry.splitFactor : ℤ := g.ratios.sum

/-- `sentinel_base`. -/
def Geometry.hostBase : ℤ := (g.allocMaxSlot / g.splitFactor + 1) * g.splitFactor

/-- `region_tokens`. -/
def Geometry.regionTokens : ℤ := (g.contextLen / g.splitFactor + 2) * g.ratios.foldl max 0

/-- One entry of `owned_counts_weighted`: the residues in the window of a rank. -/
def ownedCount (residues : List ℤ) (r : ℕ) : ℕ := residues.countP fun x => InClass g.ratios r x

/-- The residues of slots. -/
def residuesOf (slots : List ℤ) : List ℤ := slots.map (· % g.splitFactor)

/-- `new_token_residue`. -/
def newTokenResidue (position : ℕ) : ℤ := position % g.splitFactor

/-- `make_sentinels`. -/
def makeSentinels (residues : List ℤ) (start : ℕ) : List ℤ :=
  residues.mapIdx fun i x => g.hostBase + ((start + i : ℕ) : ℤ) * g.splitFactor + x

/-- A check on every rank. -/
def OnRanks (p : ℕ → Prop) : Prop := ∀ r ∈ List.range g.ratios.length, p r

instance (p : ℕ → Prop) [DecidablePred p] : Decidable (OnRanks g p) :=
  inferInstanceAs (Decidable (∀ r ∈ _, _))

/-! ### A spilled session -/

/-- A spilled session, with what the slots of the backends have for it. -/
structure Session where
  /-- The row of `req_to_token`. -/
  row : List ℤ
  /-- `host_row_base` of each rank: the rows that have waved back. -/
  drain : ℕ → ℕ
  /-- The boundary in `head`, once it is known. -/
  head : Option ℕ
  /-- `count_cache`: a length, and the tail that each rank owns at it. -/
  countCache : Option (ℕ × (ℕ → ℕ))

/-- `try_spill` for the tail from `boundary` on: it is refused if it does not fit into a region on
the rank that owns most of it. -/
def trySpill (row : List ℤ) (boundary : ℕ) : Option Session :=
  let residues := residuesOf g (row.drop boundary)
  if OnRanks g fun r => ownedCount g residues r ≤ g.regionTokens then
    some ⟨row.take boundary ++ makeSentinels g residues boundary, fun _ => 0, none, none⟩
  else none

/-- `spill_extend_alloc` for `n` new tokens behind a row. -/
def spillExtendAlloc (row : List ℤ) (n : ℕ) : Option Session :=
  let residues := (List.range' row.length n).map (newTokenResidue g)
  if OnRanks g fun r => ownedCount g residues r ≤ g.regionTokens then
    some ⟨row ++ makeSentinels g residues row.length, fun _ => 0, none, none⟩
  else none

/-- The counts with one more token: the first rank whose window has its residue gets it. -/
def addToken (counts : ℕ → ℕ) (residue : ℤ) : ℕ → ℕ :=
  match (List.range g.ratios.length).find? fun r => InClass g.ratios r residue with
  | some r => fun k => if k = r then counts k + 1 else counts k
  | none => counts

/-- The counts of the tail, from the row. -/
def recount (row : List ℤ) (boundary : ℕ) : Except String (ℕ → ℕ) :=
  let tailrow := row.drop boundary
  if ∃ x ∈ tailrow, x < g.hostBase then .error "AssertionError: non-sentinel slot id in the tail"
  else
    let counts := ownedCount g (residuesOf g tailrow)
    if ((List.range g.ratios.length).map counts).sum ≠ row.length - boundary then
      .error "AssertionError: owned counts do not cover the tail"
    else .ok counts

/-- The counts of the tail in `_sess_prepare_step`: those of the cache, or with one more token, or
from the row. -/
def stepCounts (s : Session) (boundary : ℕ) : Except String (ℕ → ℕ) :=
  match s.countCache with
  | some (cached, counts) =>
    if cached = s.row.length then .ok counts
    else if cached = s.row.length - 1 then
      .ok (addToken g counts (newTokenResidue g (s.row.length - 1)))
    else recount g s.row boundary
  | none => recount g s.row boundary

/-- `_sess_prepare_step`, with its check of the region on every rank. -/
def prepareStep (s : Session) : Except String Session :=
  let boundary := s.head.getD (s.row.countP (· < g.hostBase))
  match stepCounts g s boundary with
  | .ok counts =>
    if OnRanks g fun r => s.drain r + counts r ≤ g.regionTokens then
      .ok { s with head := some boundary, countCache := some (s.row.length, counts) }
    else .error "AssertionError: region high-water exceeds the per-session region"
  | .error e => .error e

/-- A tick: `spill_decode_alloc` and the step of the backends. -/
def tick (s : Session) : Except String Session :=
  let p := s.row.length
  prepareStep g
    { s with row := s.row ++ [g.hostBase + p * g.splitFactor + newTokenResidue g p] }

/-- `_wave_back` of the first `advance` tokens of the tail to new slots. Nothing moves if they are
not slots of the device that each rank owns as many of. -/
def waveBack (s : Session) (advance : ℕ) (newLocs : List ℤ) : Session :=
  let boundary := s.row.countP (· < g.hostBase)
  let hi := min (boundary + advance) s.row.length
  let block := (s.row.take hi).drop boundary
  if newLocs.length = block.length ∧ (∀ x ∈ newLocs, x < g.hostBase) ∧ (OnRanks g fun r =>
      ownedCount g (residuesOf g newLocs) r = ownedCount g (residuesOf g block) r) then
    ⟨s.row.take boundary ++ newLocs ++ s.row.drop hi,
      fun r => s.drain r + ownedCount g (residuesOf g newLocs) r, none, none⟩
  else s

/-- What happens to a spilled session. -/
inductive Op
  | tick
  /-- A block waves back. -/
  | waveBack (advance : ℕ) (newLocs : List ℤ)

/-- A continuation of a session. -/
def run : Session → List Op → Except String Session
  | s, [] => .ok s
  | s, .tick :: ops =>
    match tick g s with
    | .ok s' => run s' ops
    | .error e => .error e
  | s, .waveBack advance newLocs :: ops => run (waveBack g s advance newLocs) ops

/-- The tokens that are decoded in a continuation. -/
def ticks (ops : List Op) : ℕ := ops.countP fun
  | .tick => true
  | .waveBack _ _ => false

/-- The positions from `a` to `b` that a rank owns. -/
def ownedPositions (r a b : ℕ) : ℕ :=
  ownedCount g ((List.range' a (b - a)).map (newTokenResidue g)) r

/-! ### Counting -/

section Counting

variable {g} {r : ℕ}

theorem onRanks_iff {p : ℕ → Prop} : OnRanks g p ↔ ∀ r < g.ratios.length, p r := by
  simp [OnRanks]

theorem ownedCount_append (xs ys : List ℤ) :
    ownedCount g (xs ++ ys) r = ownedCount g xs r + ownedCount g ys r := List.countP_append

theorem ownedCount_singleton (x : ℤ) :
    ownedCount g [x] r = if InClass g.ratios r x then 1 else 0 := by
  simp [ownedCount, List.countP_singleton]

theorem residuesOf_append (xs ys : List ℤ) :
    residuesOf g (xs ++ ys) = residuesOf g xs ++ residuesOf g ys := List.map_append

theorem ownedPositions_self (a : ℕ) : ownedPositions g r a a = 0 := by
  simp [ownedPositions, ownedCount]

theorem ownedPositions_succ {a b : ℕ} (hab : a ≤ b) :
    ownedPositions g r a (b + 1) =
      ownedPositions g r a b + if InClass g.ratios r (newTokenResidue g b) then 1 else 0 := by
  rw [ownedPositions, ownedPositions, Nat.succ_sub hab, List.range'_concat, List.map_append,
    ownedCount_append, one_mul, Nat.add_sub_cancel' hab, List.map_singleton, ownedCount_singleton]

theorem ownedPositions_add {a b c : ℕ} (hab : a ≤ b) (hbc : b ≤ c) :
    ownedPositions g r a b + ownedPositions g r b c = ownedPositions g r a c := by
  induction c, hbc using Nat.le_induction with
  | base => rw [ownedPositions_self, add_zero]
  | succ c hbc ih =>
    rw [ownedPositions_succ hbc, ownedPositions_succ (hab.trans hbc), ← ih, add_assoc]

theorem ownedPositions_mono {a b c : ℕ} (hab : a ≤ b) (hbc : b ≤ c) :
    ownedPositions g r a b ≤ ownedPositions g r a c := by
  rw [← ownedPositions_add hab hbc]
  exact Nat.le_add_right _ _

theorem emod_bounds (x : ℤ) : 0 ≤ x % g.splitFactor ∧ x % g.splitFactor < g.ratios.sum :=
  ⟨Int.emod_nonneg _ g.sum_pos.ne', Int.emod_lt_of_pos _ g.sum_pos⟩

theorem residue_bounds (p : ℕ) : 0 ≤ newTokenResidue g p ∧ newTokenResidue g p < g.ratios.sum :=
  emod_bounds _

theorem addToken_apply {counts : ℕ → ℕ} {x : ℤ} (h0 : 0 ≤ x) (hx : x < g.ratios.sum)
    (hr : r < g.ratios.length) :
    addToken g counts x r = counts r + if InClass g.ratios r x then 1 else 0 := by
  obtain ⟨r₀, hr₀, hin⟩ := exists_inClass g.ratios h0 hx
  obtain ⟨r₁, hfind⟩ : ∃ r₁, ((List.range g.ratios.length).find? fun r =>
      decide (InClass g.ratios r x)) = some r₁ :=
    Option.isSome_iff_exists.mp (List.find?_isSome.mpr
      ⟨r₀, List.mem_range.mpr hr₀, decide_eq_true hin⟩)
  have hin₁ : InClass g.ratios r₁ x := by simpa using List.find?_some hfind
  have hr₁ : r₁ < g.ratios.length := List.mem_range.mp (List.mem_of_find?_eq_some hfind)
  rw [addToken, hfind]
  dsimp only
  by_cases heq : r = r₁
  · subst heq
    rw [if_pos rfl, if_pos hin₁]
  · rw [if_neg heq, if_neg, add_zero]
    exact fun hin' => heq (inClass_unique_of_nonneg g.ratios_nonneg hr hr₁ hin' hin₁)

/-- Each residue is in one window: the counts of the ranks cover a list. -/
theorem sum_ownedCount {residues : List ℤ} (h : ∀ x ∈ residues, 0 ≤ x ∧ x < g.ratios.sum) :
    ((List.range g.ratios.length).map (ownedCount g residues)).sum = residues.length := by
  change ∑ r ∈ Finset.range g.ratios.length, ownedCount g residues r = residues.length
  induction residues with
  | nil => simp [ownedCount]
  | cons x residues ih =>
    obtain ⟨h0, hx⟩ := h x List.mem_cons_self
    obtain ⟨r₀, hr₀, hin⟩ := exists_inClass g.ratios h0 hx
    have hrest := ih fun y hy => h y (List.mem_cons_of_mem x hy)
    have hone : ∑ r ∈ Finset.range g.ratios.length, ownedCount g [x] r = 1 := by
      rw [Finset.sum_eq_single_of_mem r₀ (Finset.mem_range.mpr hr₀)]
      · rw [ownedCount_singleton, if_pos hin]
      · intro r hr hne
        rw [ownedCount_singleton, if_neg]
        exact fun hin' => hne (inClass_unique_of_nonneg g.ratios_nonneg (Finset.mem_range.mp hr) hr₀
          hin' hin)
    rw [← List.singleton_append, List.length_append, ← hrest, List.length_singleton, ← hone,
      ← Finset.sum_add_distrib]
    exact Finset.sum_congr rfl fun r _ => ownedCount_append _ _

theorem le_foldl_max (l : List ℤ) (init : ℤ) :
    init ≤ l.foldl max init ∧ ∀ a ∈ l, a ≤ l.foldl max init := by
  induction l generalizing init with
  | nil => simp
  | cons b l ih =>
    obtain ⟨hinit, hall⟩ := ih (max init b)
    refine ⟨(le_max_left _ _).trans hinit, fun a ha => ?_⟩
    rcases List.mem_cons.mp ha with rfl | ha
    · exact (le_max_right _ _).trans hinit
    · exact hall a ha

/-- A window has room below `n` for as many numbers as it has in one block more than `n`: packed,
they lie in that many rows. -/
theorem length_le_of_window {S ratio n : ℤ} (lo : ℤ) {l : List ℕ} (hS : 0 < S) (hratio : 0 ≤ ratio)
    (hnodup : l.Nodup)
    (hl : ∀ p ∈ l, (p : ℤ) < n ∧ lo ≤ (p : ℤ) % S ∧ (p : ℤ) % S < lo + ratio) :
    l.length ≤ ((n / S + 1) * ratio).toNat := by
  have hnonneg : ∀ p ∈ l, 0 ≤ packed S lo ratio p := fun p hp =>
    packed_nonneg hS (Int.natCast_nonneg p) (hl p hp).2.1 hratio
  have hrows : (l.map fun p : ℕ => (packed S lo ratio p).toNat) ⊆
      List.range ((n / S + 1) * ratio).toNat := by
    intro row hrow
    obtain ⟨p, hp, rfl⟩ := List.mem_map.mp hrow
    obtain ⟨hlt, -, hoffset⟩ := hl p hp
    have hblock : (p : ℤ) / S * ratio ≤ n / S * ratio :=
      Int.mul_le_mul_of_nonneg_right (Int.ediv_le_ediv hS hlt.le) hratio
    have hbound : packed S lo ratio p < (n / S + 1) * ratio := by
      rw [packed, Int.add_mul, Int.one_mul]
      omega
    rw [List.mem_range]
    exact (Int.toNat_lt_toNat ((hnonneg p hp).trans_lt hbound)).mpr hbound
  have hinj : ∀ p ∈ l, ∀ q ∈ l,
      (packed S lo ratio p).toNat = (packed S lo ratio q).toNat → p = q := by
    intro p hp q hq heq
    obtain ⟨-, hlop, hhip⟩ := hl p hp
    obtain ⟨-, hloq, hhiq⟩ := hl q hq
    have hpacked : packed S lo ratio p = packed S lo ratio q := by
      rw [← Int.toNat_of_nonneg (hnonneg p hp), ← Int.toNat_of_nonneg (hnonneg q hq), heq]
    exact_mod_cast packed_injOn hlop hhip hloq hhiq hpacked
  have hlength := (List.subperm_of_subset (hnodup.map_on hinj) hrows).length_le
  rwa [List.length_map, List.length_range] at hlength

/-- **The positions of a context that a rank owns fit into a region.** -/
theorem ownedPositions_le {r a : ℕ} (hr : r < g.ratios.length) :
    (ownedPositions g r a g.contextLen : ℤ) ≤ g.regionTokens := by
  have hwindow : prefixSum g.ratios (r + 1) = prefixSum g.ratios r + g.ratios[r] :=
    prefixSum_succ hr
  have hratio : 0 ≤ g.ratios[r] := g.ratios_nonneg _ (List.getElem_mem hr)
  have hmax : g.ratios[r] ≤ g.ratios.foldl max 0 :=
    (le_foldl_max g.ratios 0).2 _ (List.getElem_mem hr)
  have hblocks : 0 ≤ (g.contextLen : ℤ) / g.splitFactor :=
    Int.ediv_nonneg (Int.natCast_nonneg _) g.sum_pos.le
  have hcard : ownedPositions g r a g.contextLen ≤
      (((g.contextLen : ℤ) / g.splitFactor + 1) * g.ratios[r]).toNat := by
    rw [ownedPositions, ownedCount, List.countP_map, List.countP_eq_length_filter]
    refine length_le_of_window (prefixSum g.ratios r) g.sum_pos hratio
      (List.Nodup.filter _ List.nodup_range') fun p hp => ?_
    obtain ⟨hrange, hin⟩ := List.mem_filter.mp hp
    have hlt := List.mem_range'_1.mp hrange
    obtain ⟨hlo, hhi⟩ : InClass g.ratios r ((p : ℤ) % g.splitFactor) := of_decide_eq_true hin
    exact ⟨by omega, hlo, hwindow ▸ hhi⟩
  have hle : ((g.contextLen : ℤ) / g.splitFactor + 1) * g.ratios[r] ≤ g.regionTokens :=
    calc ((g.contextLen : ℤ) / g.splitFactor + 1) * g.ratios[r]
        ≤ ((g.contextLen : ℤ) / g.splitFactor + 2) * g.ratios[r] :=
          Int.mul_le_mul_of_nonneg_right (by omega) hratio
      _ ≤ g.regionTokens := Int.mul_le_mul_of_nonneg_left hmax (by omega)
  have hnonneg : 0 ≤ ((g.contextLen : ℤ) / g.splitFactor + 1) * g.ratios[r] :=
    Int.mul_nonneg (by omega) hratio
  omega

end Counting

/-! ### What a session has used of its region -/

section Runs

variable {g} {s s' : Session} {start : ℕ → ℕ} {length₀ : ℕ}

/-- **What holds of a spilled session** that had `start` rows on each rank when it had `length₀`
tokens. Its row is a head of slots and a tail of sentinels, the caches are right, and the rows that
have been drained and those of the tail are the first ones and those of the positions since. -/
structure Inv (g : Geometry) (start : ℕ → ℕ) (length₀ : ℕ) (s : Session) (head tail : List ℤ) :
    Prop where
  row : s.row = head ++ tail
  device : ∀ x ∈ head, x < g.hostBase
  sentinels : ∀ x ∈ tail, g.hostBase ≤ x
  /-- The boundary is right, where it is known. -/
  boundary : ∀ b ∈ s.head, b = head.length
  /-- The counts are right, where they are known. -/
  counts : ∀ c ∈ s.countCache, c.1 = s.row.length ∧
    ∀ r < g.ratios.length, c.2 r = ownedCount g (residuesOf g tail) r
  grown : length₀ ≤ s.row.length
  /-- The rows add up. -/
  rows : ∀ r < g.ratios.length, s.drain r + ownedCount g (residuesOf g tail) r =
    start r + ownedPositions g r length₀ s.row.length

theorem countP_head {head tail : List ℤ} (hdevice : ∀ x ∈ head, x < g.hostBase)
    (hsentinels : ∀ x ∈ tail, g.hostBase ≤ x) :
    (head ++ tail).countP (· < g.hostBase) = head.length := by
  rw [List.countP_append, List.countP_eq_length.mpr (by simpa using hdevice),
    List.countP_eq_zero.mpr (by simpa using hsentinels), add_zero]

theorem hostBase_dvd : g.splitFactor ∣ g.hostBase := Dvd.intro_left _ rfl

theorem sentinel_emod (p : ℕ) {x : ℤ} (h0 : 0 ≤ x) (hx : x < g.ratios.sum) :
    (g.hostBase + p * g.splitFactor + x) % g.splitFactor = x := by
  obtain ⟨k, hk⟩ := hostBase_dvd (g := g)
  rw [hk, Int.mul_comm (p : ℤ), ← Int.mul_add, Int.mul_add_emod_self_left]
  exact Int.emod_eq_of_lt h0 hx

theorem hostBase_le_sentinel (p : ℕ) {x : ℤ} (h0 : 0 ≤ x) :
    g.hostBase ≤ g.hostBase + p * g.splitFactor + x := by
  have : 0 ≤ (p : ℤ) * g.splitFactor := Int.mul_nonneg (Int.natCast_nonneg _) g.sum_pos.le
  omega

theorem recount_eq {head tail : List ℤ} (hsentinels : ∀ x ∈ tail, g.hostBase ≤ x) :
    recount g (head ++ tail) head.length = .ok (ownedCount g (residuesOf g tail)) := by
  have hnone : ¬∃ x ∈ tail, x < g.hostBase := by
    rintro ⟨x, hx, hlt⟩
    exact absurd (hsentinels x hx) (not_le.mpr hlt)
  have hcover : ((List.range g.ratios.length).map (ownedCount g (residuesOf g tail))).sum =
      (head ++ tail).length - head.length := by
    rw [sum_ownedCount, residuesOf, List.length_map, List.length_append, Nat.add_sub_cancel_left]
    intro x hx
    obtain ⟨y, -, rfl⟩ := List.mem_map.mp hx
    exact emod_bounds y
  rw [recount, List.drop_left, if_neg hnone, if_neg (not_not.mpr hcover)]

/-- The sentinel of the next token. -/
def nextSentinel (g : Geometry) (s : Session) : ℤ :=
  g.hostBase + s.row.length * g.splitFactor + newTokenResidue g s.row.length

theorem nextSentinel_emod : nextSentinel g s % g.splitFactor = newTokenResidue g s.row.length :=
  sentinel_emod _ (emod_bounds _).1 (emod_bounds _).2

/-- One more token of the tail. -/
theorem ownedCount_nextSentinel (tail : List ℤ) (r : ℕ) :
    ownedCount g (residuesOf g (tail ++ [nextSentinel g s])) r =
      ownedCount g (residuesOf g tail) r +
        if InClass g.ratios r (newTokenResidue g s.row.length) then 1 else 0 := by
  rw [residuesOf_append, ownedCount_append, ← ownedCount_singleton, ← nextSentinel_emod (s := s)]
  rfl

theorem Inv.sentinels_next {head tail : List ℤ} (h : Inv g start length₀ s head tail) :
    ∀ x ∈ tail ++ [nextSentinel g s], g.hostBase ≤ x := by
  intro x hx
  rcases List.mem_append.mp hx with hx | hx
  · exact h.sentinels x hx
  · rw [List.mem_singleton.mp hx]
    exact hostBase_le_sentinel _ (residue_bounds _).1

/-- **The counts of a tick are those of the tail**, from the cache or from the row. -/
theorem Inv.tick_eq {head tail : List ℤ} (h : Inv g start length₀ s head tail) :
    ∃ counts : ℕ → ℕ, (∀ r < g.ratios.length,
        counts r = ownedCount g (residuesOf g (tail ++ [nextSentinel g s])) r) ∧
      tick g s = if OnRanks g fun r => s.drain r + counts r ≤ g.regionTokens then
        .ok ⟨s.row ++ [nextSentinel g s], s.drain, some head.length,
          some (s.row.length + 1, counts)⟩
        else .error "AssertionError: region high-water exceeds the per-session region" := by
  have hrow : s.row ++ [nextSentinel g s] = head ++ (tail ++ [nextSentinel g s]) := by
    rw [h.row, List.append_assoc]
  have hsentinels := h.sentinels_next
  have hboundary : s.head.getD ((s.row ++ [nextSentinel g s]).countP (· < g.hostBase)) =
      head.length := by
    cases hhead : s.head with
    | none => rw [Option.getD_none, hrow, countP_head h.device hsentinels]
    | some b => exact h.boundary b hhead
  -- It is enough to know the counts.
  have hstep : ∀ counts, stepCounts g { s with row := s.row ++ [nextSentinel g s] } head.length =
      .ok counts → tick g s = if OnRanks g fun r => s.drain r + counts r ≤ g.regionTokens then
        .ok ⟨s.row ++ [nextSentinel g s], s.drain, some head.length,
          some (s.row.length + 1, counts)⟩
        else .error "AssertionError: region high-water exceeds the per-session region" := by
    intro counts hcounts
    have hlength : (s.row ++ [nextSentinel g s]).length = s.row.length + 1 := by simp
    rw [← hboundary] at hcounts
    rw [SessionOffload.tick, prepareStep]
    dsimp only
    rw [← nextSentinel, hcounts, hboundary, hlength]
  cases hcache : s.countCache with
  | none =>
    refine ⟨_, fun _ _ => rfl, hstep _ ?_⟩
    rw [stepCounts]
    dsimp only
    rw [hcache, hrow]
    exact recount_eq hsentinels
  | some c =>
    obtain ⟨hlength, hcounts⟩ := h.counts c hcache
    refine ⟨addToken g c.2 (newTokenResidue g s.row.length), fun r hr => ?_, hstep _ ?_⟩
    · rw [addToken_apply (residue_bounds _).1 (residue_bounds _).2 hr, hcounts r hr,
        ownedCount_nextSentinel]
    · obtain ⟨cached, counts⟩ := c
      dsimp only at hlength
      rw [stepCounts]
      dsimp only
      rw [hcache]
      dsimp only
      rw [List.length_append, List.length_singleton, if_neg (by omega), if_pos (by omega),
        Nat.add_sub_cancel]

/-- **A tick passes if and only if what has been used fits**, and then all is as before. -/
theorem Inv.tick {head tail : List ℤ} (h : Inv g start length₀ s head tail) :
    (∀ r < g.ratios.length,
      (start r + ownedPositions g r length₀ (s.row.length + 1) : ℤ) ≤ g.regionTokens) ∧
      (∃ s' tail', tick g s = .ok s' ∧ s'.row.length = s.row.length + 1 ∧
        Inv g start length₀ s' head tail') ∨
    (∃ r < g.ratios.length,
      ¬(start r + ownedPositions g r length₀ (s.row.length + 1) : ℤ) ≤ g.regionTokens) ∧
      ∃ e, tick g s = .error e := by
  obtain ⟨counts, hcounts, htick⟩ := h.tick_eq
  have hused : ∀ r < g.ratios.length, s.drain r + counts r =
      start r + ownedPositions g r length₀ (s.row.length + 1) := by
    intro r hr
    have hrows := h.rows r hr
    rw [hcounts r hr, ownedCount_nextSentinel, ownedPositions_succ h.grown]
    omega
  by_cases hfits : OnRanks g fun r => (s.drain r + counts r : ℤ) ≤ g.regionTokens
  · refine Or.inl ⟨fun r hr => ?_, _, tail ++ [nextSentinel g s], htick.trans (if_pos hfits),
      ?_, ?_⟩
    · have hle := onRanks_iff.mp hfits r hr
      have heq := hused r hr
      omega
    · rw [List.length_append, List.length_singleton]
    · have hlength : (s.row ++ [nextSentinel g s]).length = s.row.length + 1 := by simp
      refine ⟨?_, h.device, h.sentinels_next, ?_, ?_, ?_, fun r hr => ?_⟩
      · rw [h.row, List.append_assoc]
      · rintro b hb
        exact (Option.some.inj hb).symm
      · rintro c hc
        obtain rfl := Option.some.inj hc
        exact ⟨hlength.symm, hcounts⟩
      · rw [hlength]
        exact h.grown.trans (Nat.le_succ _)
      · rw [hlength, ← hcounts r hr]
        exact hused r hr
  · refine Or.inr ⟨?_, _, htick.trans (if_neg hfits)⟩
    by_contra hall
    refine hfits (onRanks_iff.mpr fun r hr => ?_)
    have hle : (start r + ownedPositions g r length₀ (s.row.length + 1) : ℤ) ≤ g.regionTokens :=
      not_not.mp fun hgt => hall ⟨r, hr, hgt⟩
    have heq := hused r hr
    omega

/-- **What waves back stays accounted for**: the rows of the block are drained. -/
theorem Inv.waveBack {head tail : List ℤ} (h : Inv g start length₀ s head tail) (advance : ℕ)
    (newLocs : List ℤ) : (waveBack g s advance newLocs).row.length = s.row.length ∧
      ∃ head' tail', Inv g start length₀ (waveBack g s advance newLocs) head' tail' := by
  have hboundary : s.row.countP (· < g.hostBase) = head.length := by
    rw [h.row, countP_head h.device h.sentinels]
  set k := min advance tail.length with hk
  have hhi : min (head.length + advance) s.row.length = head.length + k := by
    rw [h.row, List.length_append, hk, Nat.add_min_add_left]
  have hblock : (s.row.take (head.length + k)).drop head.length = tail.take k := by
    rw [h.row, List.take_append, List.take_of_length_le (Nat.le_add_right _ _),
      Nat.add_sub_cancel_left, List.drop_left]
  have hrest : s.row.drop (head.length + k) = tail.drop k := by
    rw [h.row, List.drop_append]
    simp
  have hhead : s.row.take head.length = head := by rw [h.row, List.take_left]
  rw [SessionOffload.waveBack, hboundary, hhi, hblock, hrest, hhead]
  split
  next hmatch =>
    obtain ⟨hlen, hdevice, hcounts⟩ := hmatch
    have hlength : (head ++ newLocs ++ tail.drop k).length = s.row.length := by
      rw [h.row, List.append_assoc, List.length_append, List.length_append, hlen,
        ← List.length_append, List.take_append_drop, List.length_append]
    refine ⟨hlength, head ++ newLocs, tail.drop k, rfl, fun x hx => ?_,
      fun x hx => h.sentinels x (List.mem_of_mem_drop hx), fun b hb => ?_, fun c hc => ?_,
      hlength ▸ h.grown, fun r hr => ?_⟩
    · rcases List.mem_append.mp hx with hx | hx
      · exact h.device x hx
      · exact hdevice x hx
    · cases hb
    · cases hc
    · have hrows := h.rows r hr
      have hsplit : ownedCount g (residuesOf g tail) r =
          ownedCount g (residuesOf g (tail.take k)) r +
            ownedCount g (residuesOf g (tail.drop k)) r := by
        rw [← ownedCount_append, ← residuesOf_append, List.take_append_drop]
      have hmoved := onRanks_iff.mp hcounts r hr
      change s.drain r + ownedCount g (residuesOf g newLocs) r + _ = _
      rw [hlength]
      omega
  next => exact ⟨rfl, head, tail, h⟩

/-- **A session goes on as long as its region has room for what is still to come.** -/
theorem Inv.run_ok {head tail : List ℤ} (h : Inv g start length₀ s head tail) {n : ℕ}
    (hfits : ∀ r < g.ratios.length, (start r + ownedPositions g r length₀ n : ℤ) ≤ g.regionTokens)
    {ops : List Op} (hops : s.row.length + ticks ops ≤ n) : ∃ s', run g s ops = .ok s' := by
  induction ops generalizing s head tail with
  | nil => exact ⟨s, rfl⟩
  | cons op ops ih =>
    cases op with
    | tick =>
      have hticks : ticks (.tick :: ops) = ticks ops + 1 := by simp [ticks]
      rw [hticks] at hops
      rcases h.tick with ⟨-, s', tail', hok, hlength, h'⟩ | ⟨⟨r, hr, hgt⟩, -⟩
      · rw [run, hok]
        exact ih h' (by omega)
      · have hgrown : length₀ ≤ s.row.length + 1 := Nat.le_succ_of_le h.grown
        have hmono := ownedPositions_mono (g := g) (r := r) hgrown
          (show s.row.length + 1 ≤ n by omega)
        have hle := hfits r hr
        omega
    | waveBack advance newLocs =>
      have hticks : ticks (.waveBack advance newLocs :: ops) = ticks ops := by simp [ticks]
      rw [hticks] at hops
      obtain ⟨hlength, head', tail', h'⟩ := h.waveBack advance newLocs
      exact ih h' (by omega)

/-- **A session that has gone on for some ticks has had room for them.** -/
theorem Inv.fits_of_run {head tail : List ℤ} (h : Inv g start length₀ s head tail) {m : ℕ}
    (hrun : run g s (List.replicate (m + 1) .tick) = .ok s') :
    ∀ r < g.ratios.length,
      (start r + ownedPositions g r length₀ (s.row.length + (m + 1)) : ℤ) ≤ g.regionTokens := by
  induction m generalizing s head tail with
  | zero =>
    rcases h.tick with ⟨hfits, -⟩ | ⟨-, e, herror⟩
    · exact hfits
    · rw [List.replicate_succ, run, herror] at hrun
      cases hrun
  | succ m ih =>
    rw [List.replicate_succ, run] at hrun
    rcases h.tick with ⟨-, s₁, tail₁, hok, hlength, h₁⟩ | ⟨-, e, herror⟩
    · rw [hok] at hrun
      have hrest := ih h₁ hrun
      rwa [hlength, Nat.add_assoc, Nat.add_comm 1] at hrest
    · rw [herror] at hrun
      cases hrun

/-! ### How a session begins -/

theorem residuesOf_makeSentinels {residues : List ℤ} (b : ℕ)
    (h : ∀ x ∈ residues, 0 ≤ x ∧ x < g.ratios.sum) :
    residuesOf g (makeSentinels g residues b) = residues := by
  refine List.ext_getElem (by simp [residuesOf, makeSentinels]) fun i hi hi' => ?_
  obtain ⟨h0, hx⟩ := h _ (List.getElem_mem hi')
  simp only [residuesOf, makeSentinels, List.getElem_map, List.getElem_mapIdx]
  exact sentinel_emod _ h0 hx

theorem le_of_mem_makeSentinels {residues : List ℤ} {b : ℕ}
    (h : ∀ x ∈ residues, 0 ≤ x ∧ x < g.ratios.sum) : ∀ x ∈ makeSentinels g residues b,
      g.hostBase ≤ x := by
  intro x hx
  obtain ⟨i, hi, rfl⟩ := List.mem_mapIdx.mp hx
  exact hostBase_le_sentinel _ (h _ (List.getElem_mem hi)).1

/-- The slots of the allocator. -/
def Slots (g : Geometry) (row : List ℤ) : Prop := ∀ x ∈ row, 0 ≤ x ∧ x ≤ g.allocMaxSlot

theorem Slots.lt_hostBase {row : List ℤ} (h : Slots g row) : ∀ x ∈ row, x < g.hostBase := by
  intro x hx
  have hdiv := Int.mul_ediv_add_emod (g.allocMaxSlot : ℤ) g.splitFactor
  have hmod := (emod_bounds (g := g) (g.allocMaxSlot : ℤ)).2
  have hle := (h x hx).2
  rw [Geometry.hostBase, Int.add_mul, Int.one_mul, Int.mul_comm]
  have hS : g.splitFactor = g.ratios.sum := rfl
  omega

/-- **A session begins** with a head on the device and a tail of residues. -/
theorem inv_init {head : List ℤ} (hhead : ∀ x ∈ head, x < g.hostBase) {residues : List ℤ}
    (h : ∀ x ∈ residues, 0 ≤ x ∧ x < g.ratios.sum) :
    Inv g (ownedCount g residues) (head.length + residues.length)
      ⟨head ++ makeSentinels g residues head.length, fun _ => 0, none, none⟩ head
      (makeSentinels g residues head.length) := by
  have hlength : (head ++ makeSentinels g residues head.length).length =
      head.length + residues.length := by
    simp [makeSentinels]
  refine ⟨rfl, hhead, le_of_mem_makeSentinels h, fun b hb => ?_, fun c hc => ?_, hlength.ge,
    fun r _ => ?_⟩
  · cases hb
  · cases hc
  · rw [hlength, ownedPositions_self, residuesOf_makeSentinels _ h, add_zero, Nat.zero_add]

end Runs

/-- **When a spilled session never outgrows its region.** A session that `try_spill` accepts goes on
in every way until the end of its context, if and only if on each rank the slots of its tail and the
positions that are still to come fit into the region. A prompt that is prefilled into its region
always goes on. -/
theorem region_fits_iff (g : Geometry) :
    (∀ (row : List ℤ) (boundary : ℕ) (s : Session), Slots g row → boundary ≤ row.length →
      trySpill g row boundary = some s →
      ((∀ ops, row.length + ticks ops ≤ g.contextLen → ∃ s', run g s ops = .ok s') ↔
        ∀ r < g.ratios.length, (ownedCount g (residuesOf g (row.drop boundary)) r +
          ownedPositions g r row.length g.contextLen : ℤ) ≤ g.regionTokens)) ∧
    (∀ (row : List ℤ) (n : ℕ) (s : Session), Slots g row → row.length + n ≤ g.contextLen →
      spillExtendAlloc g row n = some s →
      ∀ ops, row.length + n + ticks ops ≤ g.contextLen → ∃ s', run g s ops = .ok s') := by
  constructor
  · intro row boundary s hslots hboundary hspill
    rw [trySpill] at hspill
    split at hspill
    next haccepted =>
      obtain rfl := Option.some.inj hspill
      have hresidues : ∀ x ∈ residuesOf g (row.drop boundary), 0 ≤ x ∧ x < g.ratios.sum := by
        intro x hx
        obtain ⟨y, -, rfl⟩ := List.mem_map.mp hx
        exact emod_bounds y
      have hslots' : ∀ x ∈ row.take boundary, x < g.hostBase := fun x hx =>
        hslots.lt_hostBase x (List.mem_of_mem_take hx)
      have hinit := inv_init hslots' hresidues
      have hhead : (row.take boundary).length = boundary := List.length_take_of_le hboundary
      have htail : boundary + (residuesOf g (row.drop boundary)).length = row.length := by
        rw [residuesOf, List.length_map, List.length_drop]
        omega
      rw [hhead, htail] at hinit
      have hlength : (row.take boundary ++
          makeSentinels g (residuesOf g (row.drop boundary)) boundary).length = row.length := by
        rw [makeSentinels, List.length_append, hhead, List.length_mapIdx, htail]
      refine ⟨fun hall r hr => ?_, fun hfits ops hops => hinit.run_ok hfits (hlength ▸ hops)⟩
      by_cases hctx : row.length < g.contextLen
      · -- A session that decodes to the end of its context.
        obtain ⟨m, hm⟩ := Nat.exists_eq_add_of_lt hctx
        have hticks : ticks (List.replicate (m + 1) .tick) = m + 1 := by
          rw [ticks, List.countP_replicate, if_pos rfl]
        obtain ⟨s', hrun⟩ := hall (List.replicate (m + 1) .tick) (by omega)
        have hfits := hinit.fits_of_run hrun r hr
        rw [hlength] at hfits
        rwa [hm]
      · have hnone : ownedPositions g r row.length g.contextLen = 0 := by
          rw [ownedPositions, Nat.sub_eq_zero_of_le (not_lt.mp hctx)]
          rfl
        rw [hnone, Nat.cast_zero, add_zero]
        exact onRanks_iff.mp haccepted r hr
    next => cases hspill
  · intro row n s hslots hn hspill ops hops
    rw [spillExtendAlloc] at hspill
    split at hspill
    next =>
      obtain rfl := Option.some.inj hspill
      have hresidues : ∀ x ∈ (List.range' row.length n).map (newTokenResidue g),
          0 ≤ x ∧ x < g.ratios.sum := by
        intro x hx
        obtain ⟨p, -, rfl⟩ := List.mem_map.mp hx
        exact residue_bounds p
      have hinit := inv_init hslots.lt_hostBase hresidues
      have htail : ((List.range' row.length n).map (newTokenResidue g)).length = n := by simp
      have hlength : (row ++ makeSentinels g ((List.range' row.length n).map (newTokenResidue g))
          row.length).length = row.length + n := by
        rw [makeSentinels, List.length_append, List.length_mapIdx, htail]
      rw [htail] at hinit
      refine hinit.run_ok (fun r hr => ?_) (hlength ▸ hops)
      have hstart : ownedCount g ((List.range' row.length n).map (newTokenResidue g)) r =
          ownedPositions g r row.length (row.length + n) := by
        rw [ownedPositions, Nat.add_sub_cancel_left]
      have hadd := ownedPositions_add (g := g) (r := r) (Nat.le_add_right row.length n) hn
      have hle := ownedPositions_le (g := g) (a := row.length) hr
      rw [hstart]
      omega
    next => cases hspill

theorem uneven_ratios : (∀ a ∈ [(1 : ℤ), 2], 0 ≤ a) ∧ 0 < [(1 : ℤ), 2].sum := by
  decide

/-- Two ranks of which the second owns two residues of three, 24 slots and a context of 18
tokens: a region has 16 rows. -/
def twoRanks : Geometry where
  ratios := [1, 2]
  ratios_nonneg := uneven_ratios.1
  sum_pos := uneven_ratios.2
  allocMaxSlot := 24
  contextLen := 18

/-- **A session can outgrow its region.** Sixteen tokens lie in slots of the second rank alone;
they are spilled, and the token that is decoded after them is on that rank again. -/
theorem region_overflows :
    ((trySpill twoRanks [1, 2, 4, 5, 7, 8, 10, 11, 13, 14, 16, 17, 19, 20, 22, 23] 0).map fun s =>
      match run twoRanks s [.tick] with
      | .ok _ => none
      | .error e => some e) =
      some (some "AssertionError: region high-water exceeds the per-session region") ∧
    16 + ticks [.tick] ≤ twoRanks.contextLen := by
  decide +kernel

end SessionOffload

end HtSglang
