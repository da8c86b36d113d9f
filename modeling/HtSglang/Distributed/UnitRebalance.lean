import HtSglang.Library.Best
import HtSglang.Library.Entries

/-!
# Moving units of weight between ranks

`solve_unit_rebalance_multi` moves units of weight from the rank with the least token capacity to
another one, one unit at a time, as long as the least capacity strictly rises. Each move makes the
least capacity larger and there are only finitely many distributions, so that the loop ends
(`HtSglang.Rebalance.loop_ends`).

With one family whose units weigh the same everywhere, a poorest rank can only become richer by
giving units away, and how many units a rank may have to be above a capacity is a count
(`HtSglang.Rebalance.unitsAbove`). When only one rank is poorest, the loop stops only where the
ranks could not take all units. When two are level, one move does not change the least capacity and
the loop stops (`HtSglang.Rebalance.tied_ranks_stop`). A rank that was given units gives none away,
so which capacities two ranks can come level at is known from the start: the capacities that both
reach by giving. What is returned is a maximin optimum exactly if none of these is below the optimum
(`HtSglang.Rebalance.solveUnitRebalanceMulti_maximin_iff`).

Numbers of bytes are rationals.
-/

namespace HtSglang

namespace Rebalance

/-! ### The code -/

/-- A family of weights: its units and the bytes per unit, for each rank. -/
structure Family where
  name : String
  /-- The units of each rank. -/
  units : List ℤ
  /-- The bytes per unit on each rank. -/
  bytesPerUnit : List ℚ

/-- A move: the least capacity after it, the family, and who receives the unit. -/
@[ext] structure Move where
  newMin : ℚ
  family : ℕ
  receiver : ℕ

section Code

variable (free bpt : List ℚ) (fams : List Family) (minUnits : ℤ)

/-- The bytes that a rank has freed, by a distribution with one row for each family. -/
def freed (u : List (List ℤ)) (r : ℕ) : ℚ :=
  (List.zipWith (fun fam row => ((fam.units.getD r 0 - row.getD r 0 : ℤ) : ℚ) *
    fam.bytesPerUnit.getD r 0) fams u).sum

/-- `capacity`. -/
def capacity (u : List (List ℤ)) (r : ℕ) : ℚ := (free.getD r 0 + freed fams u r) / bpt.getD r 0

/-- The least capacity. -/
def minCapacity (u : List (List ℤ)) : ℚ :=
  ((List.range free.length).map (capacity free bpt fams u)).min?.getD 0

/-- `donor`: the first of the poorest ranks. -/
def donor (u : List (List ℤ)) : ℕ :=
  ((List.range free.length).argmin (capacity free bpt fams u)).getD 0

/-- `receiver`: the first of the other ranks that stay richest. -/
def receiver (u : List (List ℤ)) (fam : Family) : ℕ :=
  (((List.range free.length).filter (· ≠ donor free bpt fams u)).argmax fun r =>
    (free.getD r 0 + freed fams u r - fam.bytesPerUnit.getD r 0) / bpt.getD r 0).getD 0

/-- One unit of a family goes from one rank to another. -/
def move (u : List (List ℤ)) (f donor receiver : ℕ) : List (List ℤ) :=
  u.modify f fun row => (row.modify donor (· - 1)).modify receiver (· + 1)

/-- A move in one family, if it is better than the best one so far. -/
def tryFamily (u : List (List ℤ)) (best : Option Move) (fam : Family × ℕ) : Option Move :=
  let d := donor free bpt fams u
  if (u.getD fam.2 []).getD d 0 ≤ minUnits then best
  else
    let r := receiver free bpt fams u fam.1
    let newMin := minCapacity free bpt fams (move u fam.2 d r)
    if minCapacity free bpt fams u < newMin ∧ ∀ b ∈ best, b.newMin < newMin then
      some ⟨newMin, fam.2, r⟩
    else best

/-- One round of the loop; `none` where it breaks. -/
def step (u : List (List ℤ)) : Option (List (List ℤ)) :=
  (fams.zipIdx.foldl (tryFamily free bpt fams minUnits u) none).map fun m =>
    move u m.family (donor free bpt fams u) m.receiver

/-- The loop; `none` where the fuel does not suffice. -/
def loop : ℕ → List (List ℤ) → Option (List (List ℤ))
  | 0, _ => none
  | fuel + 1, u =>
    match step free bpt fams minUnits u with
    | none => some u
    | some u' => loop fuel u'

end Code

/-- `int`. -/
def truncate (q : ℚ) : ℤ := if 0 ≤ q then ⌊q⌋ else ⌈q⌉

/-- What the solver raises. -/
inductive Error
  /-- The vectors differ in length. -/
  | lengths
  /-- A token without bytes. -/
  | bytesPerToken
  /-- A family with vectors of another length. -/
  | familyLengths (name : String)
  /-- A rank with too few units of a family. -/
  | fewUnits (name : String)
  deriving DecidableEq

/-- The check of a family. -/
def checkFamily (n : ℕ) (minUnits : ℤ) (fam : Family) : Option Error :=
  if ¬(n = fam.units.length ∧ fam.units.length = fam.bytesPerUnit.length) then
    some (.familyLengths fam.name)
  else if ∃ u ∈ fam.units, u < minUnits then some (.fewUnits fam.name)
  else none

/-- `solve_unit_rebalance_multi`, with the fuel of its loop. With fewer than two ranks there is no
receiver; the source then raises. -/
def solveUnitRebalanceMulti (fuel : ℕ) (free bpt : List ℚ) (fams : List Family) (minUnits : ℤ) :
    Except Error (Option (List (String × List ℤ) × ℤ)) :=
  if free.length ≠ bpt.length then .error .lengths
  else if ∃ b ∈ bpt, b ≤ 0 then .error .bytesPerToken
  else
    match fams.findSome? (checkFamily free.length minUnits) with
    | some e => .error e
    | none =>
      .ok ((loop free bpt fams minUnits fuel (fams.map Family.units)).map fun u =>
        ((fams.map Family.name).zip u,
          if free.length = 0 then 0 else truncate (minCapacity free bpt fams u)))

/-! ### The poorest rank and the receiver -/

section Facts

variable {free bpt : List ℚ} {fams : List Family} {minUnits : ℤ} {u : List (List ℤ)}

theorem minCapacity_le {r : ℕ} (hr : r < free.length) :
    minCapacity free bpt fams u ≤ capacity free bpt fams u r := by
  rw [minCapacity]
  generalize hcaps : (List.range free.length).map (capacity free bpt fams u) = caps
  have hmem : capacity free bpt fams u r ∈ caps :=
    hcaps ▸ List.mem_map_of_mem (List.mem_range.mpr hr)
  obtain ⟨m, hm⟩ : ∃ m, caps.min? = some m :=
    Option.ne_none_iff_exists'.mp fun hc => List.ne_nil_of_mem hmem (List.min?_eq_none_iff.mp hc)
  rw [hm, Option.getD_some]
  exact (List.le_min?_iff hm).mp le_rfl _ hmem

theorem exists_capacity_eq (bpt : List ℚ) (fams : List Family) (u : List (List ℤ))
    (hn : 0 < free.length) :
    ∃ r < free.length, capacity free bpt fams u r = minCapacity free bpt fams u := by
  obtain ⟨m, hm⟩ : ∃ m, ((List.range free.length).map (capacity free bpt fams u)).min? = some m :=
    Option.ne_none_iff_exists'.mp fun hc => by
      rw [List.min?_eq_none_iff, List.map_eq_nil_iff, List.range_eq_nil] at hc
      omega
  obtain ⟨r, hr, heq⟩ := List.mem_map.mp (List.min?_mem hm)
  refine ⟨r, List.mem_range.mp hr, ?_⟩
  rw [minCapacity, hm, Option.getD_some, heq]

/-- The least capacity is above a bound if all capacities are. -/
theorem lt_minCapacity_iff (hn : 0 < free.length) {m : ℚ} :
    m < minCapacity free bpt fams u ↔ ∀ r < free.length, m < capacity free bpt fams u r := by
  constructor
  · exact fun h r hr => h.trans_le (minCapacity_le hr)
  · intro h
    obtain ⟨r, hr, heq⟩ := exists_capacity_eq bpt fams u hn
    exact heq ▸ h r hr

theorem donor_spec (bpt : List ℚ) (fams : List Family) (u : List (List ℤ))
    (hn : 0 < free.length) : donor free bpt fams u < free.length ∧
    capacity free bpt fams u (donor free bpt fams u) = minCapacity free bpt fams u := by
  obtain ⟨d, hd⟩ : ∃ d, (List.range free.length).argmin (capacity free bpt fams u) = some d :=
    Option.ne_none_iff_exists'.mp fun hc => by
      rw [List.argmin_eq_none, List.range_eq_nil] at hc
      omega
  have hdonor : donor free bpt fams u = d := by rw [donor, hd, Option.getD_some]
  have hlt : d < free.length := List.mem_range.mp (List.argmin_mem hd)
  rw [hdonor]
  refine ⟨hlt, le_antisymm ?_ (minCapacity_le hlt)⟩
  obtain ⟨r, hr, heq⟩ := exists_capacity_eq bpt fams u hn
  rw [← heq]
  exact List.le_of_mem_argmin (List.mem_range.mpr hr) hd

theorem receiver_spec (bpt : List ℚ) (fams : List Family) (u : List (List ℤ))
    (hn : 2 ≤ free.length) (fam : Family) :
    receiver free bpt fams u fam < free.length ∧
      receiver free bpt fams u fam ≠ donor free bpt fams u ∧
      ∀ r < free.length, r ≠ donor free bpt fams u →
        (free.getD r 0 + freed fams u r - fam.bytesPerUnit.getD r 0) / bpt.getD r 0 ≤
          (free.getD (receiver free bpt fams u fam) 0 +
            freed fams u (receiver free bpt fams u fam) -
            fam.bytesPerUnit.getD (receiver free bpt fams u fam) 0) /
            bpt.getD (receiver free bpt fams u fam) 0 := by
  have hmem {r : ℕ} : r ∈ (List.range free.length).filter (· ≠ donor free bpt fams u) ↔
      r < free.length ∧ r ≠ donor free bpt fams u := by
    rw [List.mem_filter, List.mem_range, decide_eq_true_eq]
  generalize hkey : (fun r => (free.getD r 0 + freed fams u r - fam.bytesPerUnit.getD r 0) /
    bpt.getD r 0) = key
  obtain ⟨d, hd⟩ : ∃ d, ((List.range free.length).filter (· ≠ donor free bpt fams u)).argmax key =
      some d := by
    refine Option.ne_none_iff_exists'.mp fun hc => ?_
    rw [List.argmax_eq_none] at hc
    -- one of the first two ranks is not the donor
    have hother : (if donor free bpt fams u = 0 then 1 else 0) ∈
        (List.range free.length).filter (· ≠ donor free bpt fams u) := by
      rw [hmem]
      split <;> omega
    rw [hc] at hother
    cases hother
  have heq : receiver free bpt fams u fam = d := by rw [receiver, hkey, hd, Option.getD_some]
  obtain ⟨hlt, hne⟩ := hmem.mp (List.argmax_mem hd)
  rw [heq]
  refine ⟨hlt, hne, fun r hr hrne => ?_⟩
  have := List.le_of_mem_argmax (hmem.mpr ⟨hr, hrne⟩) hd
  rw [← hkey] at this
  exact this

/-! ### One round -/

/-- A move that a round considers: the donor has a unit to give, and the least capacity rises. -/
structure Considers (free bpt : List ℚ) (fams : List Family) (minUnits : ℤ) (u : List (List ℤ))
    (fam : Family × ℕ) (m : Move) : Prop where
  gives : minUnits < (u.getD fam.2 []).getD (donor free bpt fams u) 0
  family : m.family = fam.2
  receiver : m.receiver = receiver free bpt fams u fam.1
  newMin : m.newMin =
    minCapacity free bpt fams (move u m.family (donor free bpt fams u) m.receiver)
  rises : minCapacity free bpt fams u < m.newMin

theorem tryFamily_searched (best : Option Move) (fam : Family × ℕ) :
    Searched (fun m => -m.newMin) (Considers free bpt fams minUnits u fam) best
      (tryFamily free bpt fams minUnits u best fam) := by
  rw [tryFamily]
  split
  · next hle => exact Searched.refl (fun m hm => absurd hm.gives (not_lt.mpr hle)) best
  next hgt =>
  -- there is one candidate, if the least capacity rises
  have honly {m : Move} (hm : Considers free bpt fams minUnits u fam m) :
      m = ⟨minCapacity free bpt fams (move u fam.2 (donor free bpt fams u)
        (receiver free bpt fams u fam.1)), fam.2, receiver free bpt fams u fam.1⟩ :=
    Move.ext (by rw [hm.newMin, hm.family, hm.receiver]) hm.family hm.receiver
  dsimp only
  split
  · next hbetter =>
    refine ⟨fun r hr => Or.inr ?_, fun b hb => ⟨_, rfl, neg_le_neg (hbetter.2 b hb).le⟩,
      fun c hc => ⟨_, rfl, ?_⟩⟩
    · obtain rfl := Option.some.inj hr
      exact ⟨not_le.mp hgt, rfl, rfl, rfl, hbetter.1⟩
    · rw [honly hc]
  · next hnot =>
    refine ⟨fun r hr => Or.inl hr, fun b hb => ⟨b, hb, le_rfl⟩, fun c hc => ?_⟩
    have hrises := hc.rises
    rw [honly hc] at hrises ⊢
    obtain ⟨b, hb, hle⟩ : ∃ b ∈ best, ¬b.newMin < _ := by
      by_contra hall
      push Not at hall
      exact hnot ⟨hrises, hall⟩
    exact ⟨b, hb, neg_le_neg (not_lt.mp hle)⟩

theorem round_searched (free bpt : List ℚ) (fams : List Family) (minUnits : ℤ)
    (u : List (List ℤ)) :
    Searched (fun m => -m.newMin)
      (fun m => ∃ fam ∈ fams.zipIdx, Considers free bpt fams minUnits u fam m) none
      (fams.zipIdx.foldl (tryFamily free bpt fams minUnits u) none) :=
  Searched.foldl (fun b fam _ => tryFamily_searched b fam) none

/-- **What a round does.** -/
theorem step_eq_some {u' : List (List ℤ)} (h : step free bpt fams minUnits u = some u') :
    ∃ fam ∈ fams.zipIdx, minUnits < (u.getD fam.2 []).getD (donor free bpt fams u) 0 ∧
      u' = move u fam.2 (donor free bpt fams u) (receiver free bpt fams u fam.1) ∧
      minCapacity free bpt fams u < minCapacity free bpt fams u' := by
  obtain ⟨m, hm, rfl⟩ := Option.map_eq_some_iff.mp h
  rcases (round_searched free bpt fams minUnits u).mem m hm with hc | ⟨fam, hfam, hcons⟩
  · cases hc
  · have hrises := hcons.rises
    rw [hcons.newMin] at hrises
    exact ⟨fam, hfam, hcons.gives, by rw [hcons.family, hcons.receiver], hrises⟩

/-- **When a round breaks**, no family has a move that helps. -/
theorem step_eq_none (h : step free bpt fams minUnits u = none) {fam : Family × ℕ}
    (hfam : fam ∈ fams.zipIdx) :
    (u.getD fam.2 []).getD (donor free bpt fams u) 0 ≤ minUnits ∨
      minCapacity free bpt fams (move u fam.2 (donor free bpt fams u)
        (receiver free bpt fams u fam.1)) ≤ minCapacity free bpt fams u := by
  by_contra hc
  push Not at hc
  rw [step, Option.map_eq_none_iff] at h
  obtain ⟨r, hr, -⟩ := (round_searched free bpt fams minUnits u).le
    ⟨_, fam.2, receiver free bpt fams u fam.1⟩ ⟨fam, hfam, hc.1, rfl, rfl, rfl, hc.2⟩
  rw [h] at hr
  cases hr

/-! ### Distributions -/

/-- **A distribution** of units over the ranks. -/
structure Distribution (n : ℕ) (minUnits total : ℤ) (row : List ℤ) : Prop where
  length_eq : row.length = n
  sum_eq : row.sum = total
  ge : ∀ x ∈ row, minUnits ≤ x

/-- Distributions of all families. -/
def Distributed (n : ℕ) (minUnits : ℤ) (fams : List Family) (u : List (List ℤ)) : Prop :=
  List.Forall₂ (fun fam row => Distribution n minUnits fam.units.sum row) fams u

/-- An entry after a move. -/
theorem getD_move {n : ℕ} {row : List ℤ} (hlen : row.length = n) {d c r : ℕ} (hr : r < n) :
    ((row.modify d (· - 1)).modify c (· + 1)).getD r 0 =
      row.getD r 0 - (if d = r then 1 else 0) + if c = r then 1 else 0 := by
  rw [getD_modify (by rw [List.length_modify]; omega), getD_modify (by omega)]
  split <;> split <;> ring

/-- A unit goes from a rank that has one to give to another. -/
theorem Distribution.move {n : ℕ} {total : ℤ} {row : List ℤ} (h : Distribution n minUnits total row)
    {d c : ℕ} (hd : d < n) (hc : c < n) (hgives : minUnits < row.getD d 0) :
    Distribution n minUnits total ((row.modify d (· - 1)).modify c (· + 1)) := by
  have hlen : ((row.modify d (· - 1)).modify c (· + 1)).length = n := by
    rw [List.length_modify, List.length_modify, h.length_eq]
  refine ⟨hlen, ?_, ?_⟩
  · have hfirst := sum_modify (show d < row.length by rw [h.length_eq]; exact hd) (· - 1)
    have hsecond := sum_modify (show c < (row.modify d (· - 1)).length by
      rw [List.length_modify, h.length_eq]
      exact hc) (· + 1)
    have := h.sum_eq
    omega
  · rw [forall_mem_iff_getD 0, hlen]
    intro r hr
    have hge := (forall_mem_iff_getD 0).mp h.ge r (by rw [h.length_eq]; exact hr)
    rw [getD_move h.length_eq hr]
    by_cases hdr : d = r
    · subst hdr
      rw [if_pos rfl]
      split <;> omega
    · rw [if_neg hdr]
      split <;> omega

/-- **A round keeps the totals** and the units that each rank must have. -/
theorem Distributed.step (hn : 2 ≤ free.length) (h : Distributed free.length minUnits fams u)
    {u' : List (List ℤ)} (hstep : step free bpt fams minUnits u = some u') :
    Distributed free.length minUnits fams u' := by
  obtain ⟨fam, hfam, hgives, rfl, -⟩ := step_eq_some hstep
  refine forall₂_modify h fun a row _ hrow hdist => ?_
  have hget : u.getD fam.2 [] = row := by
    rw [List.getD_eq_getElem?_getD, hrow, Option.getD_some]
  rw [hget] at hgives
  exact hdist.move (donor_spec bpt fams u (by omega)).1 (receiver_spec bpt fams u hn fam.1).1 hgives

/-- There are finitely many distributions. -/
theorem finite_distribution (n : ℕ) (minUnits total : ℤ) :
    {row | Distribution n minUnits total row}.Finite := by
  have hbound : {row : List ℤ | List.Forall₂ (fun (_ : ℕ) x =>
      x ∈ Set.Icc minUnits (total - (n - 1) * minUnits)) (List.range n) row}.Finite :=
    finite_forall₂ fun _ _ => Set.finite_Icc _ _
  refine hbound.subset fun row h => ?_
  have hlen : (List.range n).length = row.length := by rw [List.length_range, h.length_eq]
  refine List.forall₂_iff_get.mpr ⟨hlen, fun i _ hi => ⟨h.ge _ (List.getElem_mem hi), ?_⟩⟩
  -- the other ranks have at least what they must have
  have hsum := h.sum_eq
  rw [sum_eq_sum_getD row 0, h.length_eq] at hsum
  have hin : i < n := h.length_eq ▸ hi
  rw [← Finset.add_sum_erase _ _ (Finset.mem_range.mpr hin), List.getD_eq_getElem _ _ hi] at hsum
  have hrest : ((Finset.range n).erase i).card • minUnits ≤
      ∑ r ∈ (Finset.range n).erase i, row.getD r 0 :=
    Finset.card_nsmul_le_sum _ _ _ fun r hr => (forall_mem_iff_getD 0).mp h.ge r (by
      rw [h.length_eq]
      exact Finset.mem_range.mp (Finset.mem_of_mem_erase hr))
  rw [Finset.card_erase_of_mem (Finset.mem_range.mpr hin), Finset.card_range, nsmul_eq_mul,
    Nat.cast_sub (by omega), Nat.cast_one] at hrest
  rw [List.get_eq_getElem]
  linarith

/-- **The loop ends**, with distributions of all families, in a state that no move improves and
that has what every round keeps. -/
theorem loop_ends (bpt : List ℚ) (hn : 2 ≤ free.length)
    (h : Distributed free.length minUnits fams u) :
    ∃ fuel₀ u', (∀ fuel, fuel₀ ≤ fuel → loop free bpt fams minUnits fuel u = some u') ∧
      Distributed free.length minUnits fams u' ∧ step free bpt fams minUnits u' = none ∧
      ∀ P : List (List ℤ) → Prop, P u → (∀ v v', Distributed free.length minUnits fams v → P v →
        step free bpt fams minUnits v = some v' → P v') → P u' := by
  have hfinite : {u | Distributed free.length minUnits fams u}.Finite :=
    finite_forall₂ fun fam _ => finite_distribution _ _ _
  -- by induction on the number of distributions with a larger least capacity
  generalize hk : (hfinite.toFinset.filter fun v =>
    minCapacity free bpt fams u < minCapacity free bpt fams v).card = k
  induction k using Nat.strong_induction_on generalizing u with
  | _ k ih =>
    cases hstep : Rebalance.step free bpt fams minUnits u with
    | none =>
      refine ⟨1, u, fun fuel hfuel => ?_, h, hstep, fun _ hP _ => hP⟩
      obtain ⟨fuel, rfl⟩ := Nat.exists_eq_add_of_le' hfuel
      rw [loop, hstep]
    | some u' =>
      have h' := h.step hn hstep
      obtain ⟨-, -, -, -, hrises⟩ := step_eq_some hstep
      have hless : (hfinite.toFinset.filter fun v =>
          minCapacity free bpt fams u' < minCapacity free bpt fams v).card < k := by
        rw [← hk]
        refine Finset.card_lt_card ⟨fun v hv => ?_, fun hsub => ?_⟩
        · rw [Finset.mem_filter] at hv ⊢
          exact ⟨hv.1, hrises.trans hv.2⟩
        · have hmem : u' ∈ hfinite.toFinset.filter fun v =>
              minCapacity free bpt fams u < minCapacity free bpt fams v :=
            Finset.mem_filter.mpr ⟨hfinite.mem_toFinset.mpr h', hrises⟩
          exact (Finset.mem_filter.mp (hsub hmem)).2.false
      obtain ⟨fuel₀, u₁, hloop, hdist, hend, hkeep⟩ := ih _ hless h' rfl
      refine ⟨fuel₀ + 1, u₁, fun fuel hfuel => ?_, hdist, hend,
        fun P hP hround => hkeep P (hround u u' h hP hstep) hround⟩
      obtain ⟨fuel, rfl⟩ := Nat.exists_eq_add_of_le' ((Nat.le_add_left 1 fuel₀).trans hfuel)
      rw [loop, hstep]
      exact hloop fuel (by omega)

end Facts

/-! ### One family whose units weigh the same everywhere -/

section One

variable (free bpt : List ℚ) (fam : Family)

/-- The capacity of a rank that has so many units. -/
def level (r : ℕ) (x : ℤ) : ℚ :=
  (free.getD r 0 + ((fam.units.getD r 0 - x : ℤ) : ℚ) * fam.bytesPerUnit.getD r 0) / bpt.getD r 0

/-- The most units with which the capacity of a rank is above a bound. -/
def unitsAbove (m : ℚ) (r : ℕ) : ℤ :=
  fam.units.getD r 0 + ⌈(free.getD r 0 - m * bpt.getD r 0) / fam.bytesPerUnit.getD r 0⌉ - 1

/-- **Two ranks come level too early**: with the units they have, or after giving some away, two
ranks have the same capacity `m`, although there are enough units to give that all ranks could be
above `m`. -/
structure Tied (minUnits : ℤ) (m : ℚ) : Prop where
  /-- Two ranks come to `m`. -/
  two : ∃ r < free.length, ∃ s < free.length, r ≠ s ∧ ∃ g h : ℕ,
    (free.getD r 0 + g * fam.bytesPerUnit.getD r 0) / bpt.getD r 0 = m ∧
      (free.getD s 0 + h * fam.bytesPerUnit.getD s 0) / bpt.getD s 0 = m
  /-- Every rank may have as few units as that takes. -/
  enough : ∀ r < free.length, minUnits ≤ unitsAbove free bpt fam m r
  /-- The ranks can take all units. -/
  fits : fam.units.sum ≤ ∑ r ∈ Finset.range free.length, unitsAbove free bpt fam m r

variable {free bpt fam} {minUnits total : ℤ} {row : List ℤ} {m : ℚ} {r s : ℕ}

theorem capacity_one (r : ℕ) :
    capacity free bpt [fam] [row] r = level free bpt fam r (row.getD r 0) := by
  rw [capacity, freed, List.zipWith_cons_cons, List.zipWith_nil_right, List.sum_singleton, level]

/-- The capacity of a rank that has given some units away. -/
theorem level_sub (r g : ℕ) : level free bpt fam r (fam.units.getD r 0 - g) =
    (free.getD r 0 + g * fam.bytesPerUnit.getD r 0) / bpt.getD r 0 := by
  rw [level]
  push_cast
  ring

/-- Numbers between bounds with a given sum. -/
theorem exists_between {bounds : List ℤ} {lo total : ℤ} (hlo : ∀ x ∈ bounds, lo ≤ x)
    (hlow : bounds.length * lo ≤ total) (hhigh : total ≤ bounds.sum) :
    ∃ v : List ℤ, List.Forall₂ (· ≤ ·) v bounds ∧ (∀ x ∈ v, lo ≤ x) ∧ v.sum = total := by
  induction bounds generalizing total with
  | nil =>
    rw [List.length_nil, Nat.cast_zero, zero_mul] at hlow
    rw [List.sum_nil] at hhigh
    exact ⟨[], .nil, fun x hx => (nomatch hx), by rw [List.sum_nil]; omega⟩
  | cons x bounds ih =>
    rw [List.length_cons, Nat.cast_succ, add_mul, one_mul] at hlow
    rw [List.sum_cons] at hhigh
    have hx := hlo x List.mem_cons_self
    have hrest : bounds.length • lo ≤ bounds.sum := List.card_nsmul_le_sum _ _ fun y hy =>
      hlo y (List.mem_cons_of_mem _ hy)
    rw [nsmul_eq_mul] at hrest
    -- the first number is as small as the others allow
    have hlow' : bounds.length * lo ≤ total - max lo (total - bounds.sum) := by omega
    obtain ⟨v, hv, hvlo, hvsum⟩ :=
      ih (fun y hy => hlo y (List.mem_cons_of_mem _ hy)) hlow' (by omega)
    refine ⟨max lo (total - bounds.sum) :: v, .cons (by omega) hv,
      List.forall_mem_cons.mpr ⟨le_max_left _ _, hvlo⟩, ?_⟩
    rw [List.sum_cons, hvsum]
    ring

/-- The ranks have all the units that a bound allows, and one of them has more. -/
theorem sum_unitsAbove_lt (hrow : Distribution free.length minUnits total row)
    (hle : ∀ s < free.length, unitsAbove free bpt fam m s ≤ row.getD s 0) (hr : r < free.length)
    (hlt : unitsAbove free bpt fam m r < row.getD r 0) :
    ∑ s ∈ Finset.range free.length, unitsAbove free bpt fam m s < total := by
  rw [← hrow.sum_eq, sum_eq_sum_getD row 0, hrow.length_eq]
  exact Finset.sum_lt_sum (fun s hs => hle s (Finset.mem_range.mp hs))
    ⟨r, Finset.mem_range.mpr hr, hlt⟩

/-- **A round with one family**: a unit goes from a poorest rank `d` to the rank `c` that stays
richest of the others, unless the one has none to give or the least capacity would not rise. -/
theorem round_one (hn : 2 ≤ free.length) (bpt : List ℚ) (fam : Family) (minUnits : ℤ)
    (hlen : row.length = free.length) :
    ∃ d < free.length, ∃ c < free.length, ∃ row', c ≠ d ∧
      row'.getD d 0 = row.getD d 0 - 1 ∧ row'.getD c 0 = row.getD c 0 + 1 ∧
      (∀ q < free.length, (q ≠ d → row.getD q 0 ≤ row'.getD q 0) ∧
        (q ≠ c → row'.getD q 0 ≤ row.getD q 0)) ∧
      level free bpt fam d (row.getD d 0) = minCapacity free bpt [fam] [row] ∧
      (∀ q < free.length, q ≠ d →
        level free bpt fam q (row.getD q 0 + 1) ≤ level free bpt fam c (row.getD c 0 + 1)) ∧
      (∀ v, step free bpt [fam] minUnits [row] = some v → v = [row'] ∧
        minCapacity free bpt [fam] [row] < minCapacity free bpt [fam] [row']) ∧
      (step free bpt [fam] minUnits [row] = none → row.getD d 0 ≤ minUnits ∨
        minCapacity free bpt [fam] [row'] ≤ minCapacity free bpt [fam] [row]) := by
  obtain ⟨hdn, hdcap⟩ := donor_spec bpt [fam] [row] (by omega : 0 < free.length)
  obtain ⟨hcn, hcd, hbest⟩ := receiver_spec bpt [fam] [row] hn fam
  have hkey (r : ℕ) : (free.getD r 0 + freed [fam] [row] r - fam.bytesPerUnit.getD r 0) /
      bpt.getD r 0 = level free bpt fam r (row.getD r 0 + 1) := by
    rw [freed, List.zipWith_cons_cons, List.zipWith_nil_right, List.sum_singleton, level]
    push_cast
    ring
  simp only [hkey] at hbest
  refine ⟨_, hdn, _, hcn, _, hcd, ?_, ?_, fun q hq => ?_, capacity_one _ ▸ hdcap, hbest,
    fun v hstep => ?_, fun hstep => step_eq_none hstep List.mem_cons_self⟩
  · rw [getD_move hlen hdn, if_pos rfl, if_neg hcd, add_zero]
  · rw [getD_move hlen hcn, if_neg (Ne.symm hcd), if_pos rfl, sub_zero]
  · rw [getD_move hlen hq]
    constructor
    · intro hqd
      rw [if_neg (Ne.symm hqd)]
      split <;> omega
    · intro hqc
      rw [if_neg (Ne.symm hqc)]
      split <;> omega
  · obtain ⟨fam', hfam', -, rfl, hrises⟩ := step_eq_some hstep
    obtain rfl : fam' = (fam, 0) := by simpa using hfam'
    exact ⟨rfl, hrises⟩

section Positive

variable (hn : 2 ≤ free.length) (ht : ∀ r < free.length, 0 < bpt.getD r 0)
  (hb : ∀ r < free.length, 0 < fam.bytesPerUnit.getD r 0)

include ht hb

/-- More units are less capacity. -/
theorem level_le_level (hr : r < free.length) {x y : ℤ} (h : x ≤ y) :
    level free bpt fam r y ≤ level free bpt fam r x := by
  have hcast : ((fam.units.getD r 0 - y : ℤ) : ℚ) ≤ ((fam.units.getD r 0 - x : ℤ) : ℚ) := by
    exact_mod_cast sub_le_sub_left h _
  have := hb r hr
  exact div_le_div_of_nonneg_right (by gcongr) (ht r hr).le

theorem lt_level_iff (hr : r < free.length) (x : ℤ) :
    m < level free bpt fam r x ↔ x ≤ unitsAbove free bpt fam m r := by
  have hunits : x ≤ unitsAbove free bpt fam m r ↔ x - fam.units.getD r 0 <
      ⌈(free.getD r 0 - m * bpt.getD r 0) / fam.bytesPerUnit.getD r 0⌉ := by
    rw [unitsAbove]
    omega
  rw [hunits, Int.lt_ceil, lt_div_iff₀ (hb r hr), level, lt_div_iff₀ (ht r hr)]
  push_cast
  constructor <;> intro h <;> linarith

/-- A rank at `m` was given no units, while all units fit above `m`: for then no rank could take
another one. -/
theorem exists_given_away (hrow : Distribution free.length minUnits fam.units.sum row)
    (hfits : fam.units.sum ≤ ∑ r ∈ Finset.range free.length, unitsAbove free bpt fam m r)
    (hr : r < free.length) (hrm : level free bpt fam r (row.getD r 0) = m)
    (hrich : fam.units.getD r 0 < row.getD r 0 → ∀ s < free.length,
      level free bpt fam s (row.getD s 0 + 1) ≤ level free bpt fam r (row.getD r 0)) :
    ∃ g : ℕ, (free.getD r 0 + g * fam.bytesPerUnit.getD r 0) / bpt.getD r 0 = m := by
  have hle : row.getD r 0 ≤ fam.units.getD r 0 := by
    by_contra hgiven
    refine absurd hfits (not_le.mpr (sum_unitsAbove_lt hrow (fun s hs => ?_) hr ?_))
    · have hnot := not_lt.mpr (hrich (not_le.mp hgiven) s hs)
      rw [hrm, lt_level_iff ht hb hs] at hnot
      omega
    · rw [← not_le, ← lt_level_iff ht hb hr, hrm]
      exact lt_irrefl _
  refine ⟨(fam.units.getD r 0 - row.getD r 0).toNat, ?_⟩
  rwa [← level_sub, Int.toNat_of_nonneg (by omega), sub_sub_cancel]

include hn

/-- All capacities are above a bound exactly if no rank has more units than that allows. -/
theorem lt_minCapacity_one_iff (v : List ℤ) : m < minCapacity free bpt [fam] [v] ↔
    ∀ r < free.length, v.getD r 0 ≤ unitsAbove free bpt fam m r := by
  rw [lt_minCapacity_iff (by omega)]
  refine forall₂_congr fun r hr => ?_
  rw [capacity_one, lt_level_iff ht hb hr]

/-- **When all capacities can be above a bound**: each rank may have few enough units, and the ranks
can take all of them. -/
theorem exists_lt_minCapacity_iff (hrow : Distribution free.length minUnits total row) :
    (∃ v, Distribution free.length minUnits total v ∧ m < minCapacity free bpt [fam] [v]) ↔
      (∀ r < free.length, minUnits ≤ unitsAbove free bpt fam m r) ∧
        total ≤ ∑ r ∈ Finset.range free.length, unitsAbove free bpt fam m r := by
  constructor
  · rintro ⟨v, hv, hlt⟩
    rw [lt_minCapacity_one_iff hn ht hb] at hlt
    refine ⟨fun r hr => ?_, ?_⟩
    · have hge := (forall_mem_iff_getD 0).mp hv.ge r (by rwa [hv.length_eq])
      exact hge.trans (hlt r hr)
    · rw [← hv.sum_eq, sum_eq_sum_getD v 0, hv.length_eq]
      exact Finset.sum_le_sum fun r hr => hlt r (Finset.mem_range.mp hr)
  · rintro ⟨henough, hfits⟩
    have hbounds : ∀ x ∈ (List.range free.length).map (unitsAbove free bpt fam m),
        minUnits ≤ x := by
      intro x hx
      obtain ⟨r, hr, rfl⟩ := List.mem_map.mp hx
      exact henough r (List.mem_range.mp hr)
    have hlow : (free.length : ℤ) * minUnits ≤ total := by
      have := List.card_nsmul_le_sum row minUnits hrow.ge
      rwa [nsmul_eq_mul, hrow.length_eq, hrow.sum_eq] at this
    obtain ⟨v, hv, hvge, hvsum⟩ := exists_between hbounds (by simpa using hlow) hfits
    have hvlen : v.length = free.length := by
      rw [hv.length_eq, List.length_map, List.length_range]
    refine ⟨v, ⟨hvlen, hvsum, hvge⟩, (lt_minCapacity_one_iff hn ht hb v).mpr fun r hr => ?_⟩
    have hvr : r < v.length := hvlen ▸ hr
    have := hv.get hvr (by rw [List.length_map, List.length_range]; exact hr)
    rw [List.getD_eq_getElem _ _ hvr]
    simpa using this

/-- **Where the loop breaks too early, two ranks are poorest.** -/
theorem exists_two_poorest (hrow : Distribution free.length minUnits total row)
    (hstep : step free bpt [fam] minUnits [row] = none)
    (hm : minCapacity free bpt [fam] [row] = m)
    (henough : ∀ r < free.length, minUnits ≤ unitsAbove free bpt fam m r)
    (hfits : total ≤ ∑ r ∈ Finset.range free.length, unitsAbove free bpt fam m r) :
    ∃ r < free.length, ∃ s < free.length, r ≠ s ∧
      level free bpt fam r (row.getD r 0) = m ∧ level free bpt fam s (row.getD s 0) = m := by
  obtain ⟨d, hdn, c, hcn, row', -, hd, hc, hother, hdcap, hbest, -, hstuck⟩ :=
    round_one hn bpt fam minUnits hrow.length_eq
  rw [hm] at hdcap hstuck
  have hpoor : unitsAbove free bpt fam m d < row.getD d 0 := by
    rw [← not_le, ← lt_level_iff ht hb hdn, hdcap]
    exact lt_irrefl m
  have hle := not_lt.mpr ((hstuck hstep).resolve_left (not_le.mpr ((henough d hdn).trans_lt hpoor)))
  rw [lt_minCapacity_one_iff hn ht hb] at hle
  push Not at hle
  obtain ⟨q, hq, hover⟩ := hle
  by_cases hqc : q = c
  · -- the receiver has too much: then every other rank would, and the units do not fit
    subst hqc
    rw [hc, ← not_le, ← lt_level_iff ht hb hcn] at hover
    refine absurd hfits (not_le.mpr (sum_unitsAbove_lt hrow (fun r hr => ?_) hdn hpoor))
    by_cases hrd : r = d
    · exact hrd ▸ hpoor.le
    have hnot : ¬m < level free bpt fam r (row.getD r 0 + 1) := fun h =>
      hover (h.trans_le (hbest r hr hrd))
    rw [lt_level_iff ht hb hr] at hnot
    omega
  · have hqd : d ≠ q := by
      rintro rfl
      -- with one unit less the donor is above `m`
      rw [hd, ← not_le, ← lt_level_iff ht hb hdn, ← hdcap, level, level] at hover
      have := hb d hdn
      push_cast at hover
      exact hover (div_lt_div_of_pos_right (by linarith) (ht d hdn))
    have hqm := hover.trans_le ((hother q hq).2 hqc)
    rw [← not_le, ← lt_level_iff ht hb hq, not_lt] at hqm
    refine ⟨d, hdn, q, hq, hqd, hdcap, hqm.antisymm ?_⟩
    rw [← hm, ← capacity_one]
    exact minCapacity_le hq

/-- **A rank that was given units** stays no poorer than any rank would be with one more. -/
theorem givenToRichest_step {v : List (List ℤ)} (hlen : row.length = free.length)
    (h : ∀ r < free.length, fam.units.getD r 0 < row.getD r 0 → ∀ s < free.length,
      level free bpt fam s (row.getD s 0 + 1) ≤ level free bpt fam r (row.getD r 0))
    (hstep : step free bpt [fam] minUnits [row] = some v) :
    ∃ row', v = [row'] ∧ ∀ r < free.length, fam.units.getD r 0 < row'.getD r 0 →
      ∀ s < free.length, level free bpt fam s (row'.getD s 0 + 1) ≤
        level free bpt fam r (row'.getD r 0) := by
  obtain ⟨d, hdn, c, hcn, row', -, hd, hc, hother, hdcap, hbest, hmove, -⟩ :=
    round_one hn bpt fam minUnits hlen
  obtain ⟨rfl, hrises⟩ := hmove v hstep
  refine ⟨row', rfl, fun r hr hgiven s hs => ?_⟩
  by_cases hsd : s = d
  · -- the donor with one unit more is as it was, the poorest of all
    rw [hsd, hd, sub_add_cancel, hdcap, ← capacity_one]
    exact hrises.le.trans (minCapacity_le hr)
  have hsle := (hother s hs).1 hsd
  refine (level_le_level ht hb hs (show row.getD s 0 + 1 ≤ _ by omega)).trans ?_
  by_cases hrc : r = c
  · rw [hrc, hc]
    exact hbest s hs hsd
  · have hrle := (hother r hr).2 hrc
    exact (h r hr (by omega) s hs).trans (level_le_level ht hb hr hrle)

/-- **Two ranks that can come level** at `m` are never above it: the poorer of them would have to
pass the other. -/
theorem bothBelow_step {v : List (List ℤ)} (hlen : row.length = free.length)
    (hr : r < free.length) (hs : s < free.length) (hrs : r ≠ s) {x y : ℤ}
    (hx : level free bpt fam r x = m) (hy : level free bpt fam s y = m)
    (h : level free bpt fam r (row.getD r 0) ≤ m ∧ level free bpt fam s (row.getD s 0) ≤ m)
    (hstep : step free bpt [fam] minUnits [row] = some v) :
    ∃ row', v = [row'] ∧ level free bpt fam r (row'.getD r 0) ≤ m ∧
      level free bpt fam s (row'.getD s 0) ≤ m := by
  obtain ⟨d, hdn, c, hcn, row', -, hd, -, hother, hdcap, -, hmove, -⟩ :=
    round_one hn bpt fam minUnits hlen
  obtain ⟨rfl, hrises⟩ := hmove v hstep
  have hkeep : ∀ q < free.length, q ≠ d → level free bpt fam q (row'.getD q 0) ≤
      level free bpt fam q (row.getD q 0) := fun q hq hqd =>
    level_le_level ht hb hq ((hother q hq).1 hqd)
  have hone : ∀ q < free.length, ∀ q' < free.length, q' ≠ q → ∀ z, level free bpt fam q z = m →
      level free bpt fam q (row.getD q 0) ≤ m → level free bpt fam q' (row.getD q' 0) ≤ m →
      level free bpt fam q (row'.getD q 0) ≤ m := by
    intro q hq q' hq' hne z hz hqm hqm'
    by_cases hqd : q = d
    swap
    · exact (hkeep q hq hqd).trans hqm
    subst hqd
    -- the least capacity rises, so the donor was below the other rank
    have hlt : level free bpt fam q (row.getD q 0) < m := by
      refine lt_of_lt_of_le ?_ ((hkeep q' hq' hne).trans hqm')
      rw [hdcap, ← capacity_one]
      exact hrises.trans_le (minCapacity_le hq')
    rw [hd, ← hz]
    rw [← hz] at hlt
    refine level_le_level ht hb hq (Int.le_sub_one_of_lt (not_le.mp fun hle => ?_))
    exact absurd hlt (not_lt.mpr (level_le_level ht hb hq hle))
  exact ⟨row', rfl, hone r hr s hs (Ne.symm hrs) x hx h.1 h.2, hone s hs r hr hrs y hy h.2 h.1⟩

/-- **Where the loop breaks, the distribution is optimal unless two ranks come level too early.** -/
theorem optimal_iff_not_tied (hrow : Distribution free.length minUnits fam.units.sum row)
    (hstep : step free bpt [fam] minUnits [row] = none)
    (hrun : ∀ P : List (List ℤ) → Prop, P [fam.units] →
      (∀ v v', Distributed free.length minUnits [fam] v → P v →
        step free bpt [fam] minUnits v = some v' → P v') → P [row]) :
    (∀ v, Distribution free.length minUnits fam.units.sum v →
      minCapacity free bpt [fam] [v] ≤ minCapacity free bpt [fam] [row]) ↔
      ¬∃ m, Tied free bpt fam minUnits m := by
  have hbetter (m : ℚ) := exists_lt_minCapacity_iff (m := m) hn ht hb hrow
  -- what a round keeps holds of the units at the end
  have hkept {Q : List ℤ → Prop} (hQ : Q fam.units) (hround : ∀ row v,
      row.length = free.length → Q row → step free bpt [fam] minUnits [row] = some v →
        ∃ row', v = [row'] ∧ Q row') : Q row := by
    obtain ⟨row', heq, hQ'⟩ := hrun (fun u => ∃ row', u = [row'] ∧ Q row') ⟨_, rfl, hQ⟩ (by
      rintro _ v' hv ⟨row', rfl, hQ'⟩ hstep'
      exact hround row' v' (List.forall₂_cons.mp hv).1.length_eq hQ' hstep')
    rwa [List.singleton_inj.mp heq]
  constructor
  · rintro hopt ⟨m, ⟨r, hr, s, hs, hrs, g, g', hg, hg'⟩, henough, hfits⟩
    obtain ⟨v, hv, hlt⟩ := (hbetter m).mpr ⟨henough, hfits⟩
    rw [← level_sub] at hg hg'
    obtain ⟨hrm, -⟩ : level free bpt fam r (row.getD r 0) ≤ m ∧
        level free bpt fam s (row.getD s 0) ≤ m := by
      refine hkept (Q := fun row => level free bpt fam r (row.getD r 0) ≤ m ∧
        level free bpt fam s (row.getD s 0) ≤ m) ⟨hg ▸ ?_, hg' ▸ ?_⟩ fun row v hlen h =>
          bothBelow_step hn ht hb hlen hr hs hrs hg hg' h
      · exact level_le_level ht hb hr (by omega)
      · exact level_le_level ht hb hs (by omega)
    refine absurd (hopt v hv) (not_le.mpr (lt_of_le_of_lt ((minCapacity_le hr).trans ?_) hlt))
    rwa [capacity_one]
  · intro hnot v hv
    by_contra hlt
    obtain ⟨henough, hfits⟩ := (hbetter _).mp ⟨v, hv, not_le.mp hlt⟩
    obtain ⟨r, hr, s, hs, hrs, hrm, hsm⟩ :=
      exists_two_poorest hn ht hb hrow hstep rfl henough hfits
    have hrich := hkept (Q := fun row => ∀ r < free.length, fam.units.getD r 0 < row.getD r 0 →
      ∀ s < free.length, level free bpt fam s (row.getD s 0 + 1) ≤
        level free bpt fam r (row.getD r 0)) (fun r _ hlt => absurd hlt (lt_irrefl _))
      fun row v hlen h => givenToRichest_step hn ht hb hlen h
    obtain ⟨g, hg⟩ := exists_given_away ht hb hrow hfits hr hrm (hrich r hr)
    obtain ⟨g', hg'⟩ := exists_given_away ht hb hrow hfits hs hsm (hrich s hs)
    exact hnot ⟨_, ⟨r, hr, s, hs, hrs, g, g', hg, hg'⟩, henough, hfits⟩

end Positive

/-- Units without bytes: every distribution is as good as every other. -/
theorem minCapacity_eq_of_bytes_zero (hb : ∀ r < free.length, fam.bytesPerUnit.getD r 0 = 0)
    (v : List ℤ) : minCapacity free bpt [fam] [v] = minCapacity free bpt [fam] [row] := by
  have hcaps : (List.range free.length).map (capacity free bpt [fam] [v]) =
      (List.range free.length).map (capacity free bpt [fam] [row]) := by
    refine List.map_congr_left fun r hr => ?_
    simp only [capacity_one, level, hb r (List.mem_range.mp hr), mul_zero]
  rw [minCapacity, minCapacity, hcaps]

/-- Units without bytes never tie. -/
theorem not_tied_of_bytes_zero (hn : 2 ≤ free.length) (hunits : fam.units.length = free.length)
    (hb : ∀ r < free.length, fam.bytesPerUnit.getD r 0 = 0) : ¬Tied free bpt fam minUnits m := by
  intro h
  have hless : ∑ r ∈ Finset.range free.length, unitsAbove free bpt fam m r <
      ∑ r ∈ Finset.range free.length, fam.units.getD r 0 := by
    refine Finset.sum_lt_sum_of_nonempty ⟨0, Finset.mem_range.mpr (by omega)⟩ fun r hr => ?_
    rw [unitsAbove, hb r (Finset.mem_range.mp hr), div_zero, Int.ceil_zero]
    omega
  rw [← hunits, ← sum_eq_sum_getD, hunits] at hless
  exact absurd h.fits (not_le.mpr hless)

end One

/-! ### The solver -/

/-- **The solver returns** a distribution of every family, and for one family whose units weigh the
same on all ranks it is a maximin optimum exactly if no two ranks come level too early. -/
theorem solveUnitRebalanceMulti_maximin_iff (free bpt : List ℚ) (fams : List Family) (minUnits : ℤ)
    (hn : 2 ≤ free.length) (hlen : bpt.length = free.length) (hbpt : ∀ x ∈ bpt, 0 < x)
    (hfams : ∀ fam ∈ fams, fam.units.length = free.length ∧
      fam.bytesPerUnit.length = free.length ∧ (∀ x ∈ fam.units, minUnits ≤ x) ∧
      ∀ x ∈ fam.bytesPerUnit, 0 ≤ x) :
    ∃ fuel₀ u, (∀ fuel, fuel₀ ≤ fuel → solveUnitRebalanceMulti fuel free bpt fams minUnits =
        .ok (some ((fams.map Family.name).zip u, truncate (minCapacity free bpt fams u)))) ∧
      Distributed free.length minUnits fams u ∧
      ∀ fam b row, fams = [fam] → (∀ x ∈ fam.bytesPerUnit, x = b) → u = [row] →
        ((∀ v, Distribution free.length minUnits fam.units.sum v →
          minCapacity free bpt [fam] [v] ≤ minCapacity free bpt [fam] [row]) ↔
          ¬∃ m, Tied free bpt fam minUnits m) := by
  have hstart : Distributed free.length minUnits fams (fams.map Family.units) := by
    rw [Distributed, List.forall₂_map_right_iff, List.forall₂_same]
    exact fun fam hfam => ⟨(hfams fam hfam).1, rfl, (hfams fam hfam).2.2.1⟩
  have hchecks : fams.findSome? (checkFamily free.length minUnits) = none := by
    rw [List.findSome?_eq_none_iff]
    intro fam hfam
    obtain ⟨hunits, hbytes, hge, -⟩ := hfams fam hfam
    rw [checkFamily, if_neg (not_not.mpr ⟨hunits.symm, hunits.trans hbytes.symm⟩), if_neg]
    rintro ⟨x, hx, hlt⟩
    exact absurd hlt (not_lt.mpr (hge x hx))
  have hpos : ¬∃ x ∈ bpt, x ≤ 0 := fun ⟨x, hx, hle⟩ => absurd (hbpt x hx) (not_lt.mpr hle)
  obtain ⟨fuel₀, u, hloop, hdist, hend, hrun⟩ := loop_ends bpt hn hstart
  refine ⟨fuel₀, u, fun fuel hfuel => ?_, hdist, ?_⟩
  · rw [solveUnitRebalanceMulti, if_neg (not_not.mpr hlen.symm), if_neg hpos, hchecks]
    dsimp only
    rw [hloop fuel hfuel, Option.map_some, if_neg (by omega)]
  · rintro fam b row rfl hb rfl
    obtain ⟨hunits, hbytes, -, hnonneg⟩ := hfams fam List.mem_cons_self
    have ht : ∀ r < free.length, 0 < bpt.getD r 0 := hlen ▸ (forall_mem_iff_getD 0).mp hbpt
    have hbr : ∀ r < free.length, fam.bytesPerUnit.getD r 0 = b :=
      hbytes ▸ (forall_mem_iff_getD 0).mp hb
    have hb0 : 0 ≤ b := by
      have := (forall_mem_iff_getD 0).mp hnonneg 0 (by omega)
      rwa [hbr 0 (by omega)] at this
    rcases hb0.eq_or_lt with rfl | hbpos
    · exact iff_of_true (fun v _ => (minCapacity_eq_of_bytes_zero hbr v).le)
        fun ⟨m, hm⟩ => not_tied_of_bytes_zero hn hunits hbr hm
    · exact optimal_iff_not_tied hn ht (fun r hr => (hbr r hr).symm ▸ hbpos)
        (List.forall₂_cons.mp hdist).1 hend hrun

/-- Two ranks that come level at the optimum. -/
theorem solveUnitRebalanceMulti_maximin_twoRanks :
    ∃ fuel₀ row, (∀ fuel, fuel₀ ≤ fuel →
      solveUnitRebalanceMulti fuel [0, 4] [1, 1] [⟨"mlp", [3, 3], [1, 1]⟩] 1 =
        .ok (some ([("mlp", row)], truncate (minCapacity [0, 4] [1, 1]
          [⟨"mlp", [3, 3], [1, 1]⟩] [row])))) ∧
      Distribution 2 1 6 row ∧ ∀ v, Distribution 2 1 6 v →
        minCapacity [0, 4] [1, 1] [⟨"mlp", [3, 3], [1, 1]⟩] [v] ≤
          minCapacity [0, 4] [1, 1] [⟨"mlp", [3, 3], [1, 1]⟩] [row] := by
  obtain ⟨fuel₀, u, hsolve, hdist, hopt⟩ := solveUnitRebalanceMulti_maximin_iff [0, 4] [1, 1]
    [⟨"mlp", [3, 3], [1, 1]⟩] 1 (by decide) rfl (by decide) (by decide)
  obtain ⟨row, _, hrow, hnil, rfl⟩ := List.forall₂_cons_left_iff.mp hdist
  obtain rfl := List.forall₂_nil_left_iff.mp hnil
  refine ⟨fuel₀, row, hsolve, hrow, (hopt _ 1 row rfl (by decide) rfl).mpr ?_⟩
  rintro ⟨m, ⟨r, hr, s, hs, hrs, g, g', hg, hg'⟩, henough, -⟩
  -- the second rank has four bytes, and with that much the first would have no unit
  have hm : (4 : ℚ) ≤ m := by
    have : (0 : ℚ) ≤ g := g.cast_nonneg
    have : (0 : ℚ) ≤ g' := g'.cast_nonneg
    obtain ⟨rfl, rfl⟩ | ⟨rfl, rfl⟩ : r = 0 ∧ s = 1 ∨ r = 1 ∧ s = 0 := by
      simp only [List.length_cons, List.length_nil] at hr hs
      omega
    · norm_num at hg'
      linarith
    · norm_num at hg
      linarith
  have hfirst : (1 : ℤ) ≤ 3 + ⌈(0 - m * 1) / 1⌉ - 1 := henough 0 (by decide)
  have hceil : (-2 : ℤ) < ⌈(0 - m * 1) / 1⌉ := by omega
  rw [Int.lt_ceil] at hceil
  norm_num at hceil
  linarith

/-- **Two ranks that are level stop the loop**: `[1, 1, 4]` has a larger least capacity than what is
returned. -/
theorem tied_ranks_stop :
    solveUnitRebalanceMulti 1 [0, 0, 4] [1, 1, 1] [⟨"mlp", [2, 2, 2], [1, 1, 1]⟩] 1 =
        .ok (some ([("mlp", [2, 2, 2])], 0)) ∧
      Distribution 3 1 6 [1, 1, 4] ∧
      minCapacity [0, 0, 4] [1, 1, 1] [⟨"mlp", [2, 2, 2], [1, 1, 1]⟩] [[2, 2, 2]] <
        minCapacity [0, 0, 4] [1, 1, 1] [⟨"mlp", [2, 2, 2], [1, 1, 1]⟩] [[1, 1, 4]] :=
  ⟨by decide +kernel, ⟨rfl, rfl, by decide⟩, by decide +kernel⟩

end Rebalance

end HtSglang
