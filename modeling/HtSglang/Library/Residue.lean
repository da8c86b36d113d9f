import Mathlib

/-!
# Weighted residue classes

A *weighted* round-robin deals the integers out in blocks: a block is as long as
the sum of the weights, and inside a block the first `w 0` residues go to class
`0`, the next `w 1` to class `1`, and so on. With all weights `1` this is
arithmetic modulo the number of classes; the general rule is the one below, over
an arbitrary list of integer weights.

* `HtSglang.prefixSum` – the first residue of a class, the sum of the weights
  below it;
* `HtSglang.InClass` – a residue belongs to a class. When the weights are
  positive every residue of a block belongs to exactly one class
  (`HtSglang.exists_inClass`, `HtSglang.inClass_unique`);
* `HtSglang.searchsortedRight` – the sorted search that finds the class
  (`HtSglang.searchsortedRight_prefixSum`);
* `HtSglang.packed` – the rank of an integer inside its own class, which is what
  a class uses as an address. It is injective on a class
  (`HtSglang.packed_injOn`), so a class packs its members without a collision,
  and it never exceeds the integer itself (`HtSglang.packed_le`).
-/

namespace HtSglang

/-! ### Prefix sums of the weights -/

/-- The sum of the weights of the classes below `k`. -/
def prefixSum (w : List ℤ) (k : ℕ) : ℤ := (w.take k).sum

@[simp] theorem prefixSum_zero (w : List ℤ) : prefixSum w 0 = 0 := by simp [prefixSum]

theorem prefixSum_succ {w : List ℤ} {k : ℕ} (hk : k < w.length) :
    prefixSum w (k + 1) = prefixSum w k + w[k] := by
  rw [prefixSum, prefixSum, List.sum_take_succ w k hk]

@[simp] theorem prefixSum_length (w : List ℤ) : prefixSum w w.length = w.sum := by
  simp [prefixSum]

/-- Weights that are not negative make the prefix sums grow. -/
theorem prefixSum_mono_of_nonneg {w : List ℤ} (hw : ∀ a ∈ w, 0 ≤ a) {j k : ℕ} (hjk : j ≤ k)
    (hk : k ≤ w.length) : prefixSum w j ≤ prefixSum w k := by
  induction k, hjk using Nat.le_induction with
  | base => exact le_rfl
  | succ k _ ih =>
    have h := hw w[k] (List.getElem_mem hk)
    have h' := ih (by omega)
    rw [prefixSum_succ hk]
    omega

section Positive

variable {w : List ℤ} (hw : ∀ a ∈ w, 1 ≤ a)

include hw

/-- Positive weights make the prefix sums increase. -/
theorem prefixSum_le_succ {k : ℕ} (hk : k < w.length) :
    prefixSum w k + 1 ≤ prefixSum w (k + 1) := by
  have h := hw w[k] (List.getElem_mem hk)
  rw [prefixSum_succ hk]
  omega

theorem prefixSum_mono {j k : ℕ} (hjk : j ≤ k) (hk : k ≤ w.length) :
    prefixSum w j ≤ prefixSum w k :=
  prefixSum_mono_of_nonneg (fun a ha => Int.le_of_lt (hw a ha)) hjk hk

theorem prefixSum_nonneg {k : ℕ} (hk : k ≤ w.length) : 0 ≤ prefixSum w k := by
  have h := prefixSum_mono hw (Nat.zero_le k) hk
  simpa using h

/-- A block of a nonempty list of positive weights is nonempty. -/
theorem sum_pos_of_length_pos (hn : 0 < w.length) : 0 < w.sum := by
  have h := prefixSum_le_succ hw hn
  have h' := prefixSum_mono hw (show 0 + 1 ≤ w.length from hn) le_rfl
  rw [prefixSum_zero] at h
  rw [prefixSum_length] at h'
  omega

end Positive

/-! ### The class of a residue -/

/-- **Class `r` owns the residue `x`**: it lies in the interval of residues the
weights below `r` and the weight of `r` delimit. -/
def InClass (w : List ℤ) (r : ℕ) (x : ℤ) : Prop := prefixSum w r ≤ x ∧ x < prefixSum w (r + 1)

instance (w : List ℤ) (r : ℕ) (x : ℤ) : Decidable (InClass w r x) :=
  inferInstanceAs (Decidable (_ ∧ _))

/-- **A residue belongs to at most one class.** -/
theorem inClass_unique_of_nonneg {w : List ℤ} (hw : ∀ a ∈ w, 0 ≤ a) {r s : ℕ} (hr : r < w.length)
    (hs : s < w.length) {x : ℤ} (h : InClass w r x) (h' : InClass w s x) : r = s := by
  rcases lt_trichotomy r s with hlt | heq | hgt
  · have := prefixSum_mono_of_nonneg hw (show r + 1 ≤ s from hlt) hs.le
    have := h.2
    have := h'.1
    omega
  · exact heq
  · have := prefixSum_mono_of_nonneg hw (show s + 1 ≤ r from hgt) hr.le
    have := h.1
    have := h'.2
    omega

theorem inClass_unique {w : List ℤ} (hw : ∀ a ∈ w, 1 ≤ a) {r s : ℕ} (hr : r < w.length)
    (hs : s < w.length) {x : ℤ} (h : InClass w r x) (h' : InClass w s x) : r = s :=
  inClass_unique_of_nonneg (fun a ha => Int.le_of_lt (hw a ha)) hr hs h h'

/-- **Every residue of a block belongs to some class.** -/
theorem exists_inClass (w : List ℤ) {x : ℤ} (h0 : 0 ≤ x) (hx : x < w.sum) :
    ∃ r < w.length, InClass w r x := by
  by_contra hcon
  -- the prefix sums would all stay below `x`, up to the whole sum
  have key : ∀ k, k ≤ w.length → prefixSum w k ≤ x := by
    intro k
    induction k with
    | zero => intro _; simpa using h0
    | succ k ih =>
      intro hk
      by_contra hlt
      exact hcon ⟨k, by omega, ih (by omega), by omega⟩
  have h := key w.length le_rfl
  rw [prefixSum_length] at h
  omega

/-! ### Finding the class by a sorted search -/

/-- The insertion point of `x` to the right of its equals: the number of leading
bounds that do not exceed `x`. -/
def searchsortedRight (bounds : List ℤ) (x : ℤ) : ℕ := (bounds.takeWhile (· ≤ x)).length

theorem searchsortedRight_eq {bounds : List ℤ} {x : ℤ} {r : ℕ} (hr : r < bounds.length)
    (hbelow : ∀ i (hi : i < r), bounds[i] ≤ x) (hat : x < bounds[r]) :
    searchsortedRight bounds x = r := by
  induction r generalizing bounds with
  | zero =>
    cases bounds with
    | nil => simp at hr
    | cons b bounds =>
      simp only [List.getElem_cons_zero] at hat
      simp [searchsortedRight, hat]
  | succ r ih =>
    cases bounds with
    | nil => simp at hr
    | cons b bounds =>
      have hb : b ≤ x := by simpa using hbelow 0 (by omega)
      have h := ih (show r < bounds.length by simpa using hr)
        (fun i hi => by simpa using hbelow (i + 1) (by omega)) (by simpa using hat)
      rw [searchsortedRight] at h ⊢
      rw [List.takeWhile_cons_of_pos (by simpa using hb), List.length_cons, h]

/-- **The sorted search over the upper ends of the classes finds the class.** -/
theorem searchsortedRight_prefixSum {w : List ℤ} (hw : ∀ a ∈ w, 1 ≤ a) {r : ℕ}
    (hr : r < w.length) {x : ℤ} (h : InClass w r x) :
    searchsortedRight ((List.range w.length).map fun i => prefixSum w (i + 1)) x = r := by
  refine searchsortedRight_eq (by simpa using hr) (fun i hi => ?_) ?_
  · have := prefixSum_mono hw (show i + 1 ≤ r from hi) hr.le
    have := h.1
    simp only [List.getElem_map, List.getElem_range]
    omega
  · simpa using h.2

/-! ### The address of an integer in its class -/

/-- **The rank of `L` inside the class `[lo, lo + ratio)` of the residues modulo
`S`**: whole blocks contribute `ratio` members each, the residue its offset. -/
def packed (S lo ratio L : ℤ) : ℤ := L / S * ratio + (L % S - lo)

/-- **A class packs its members without a collision.** -/
theorem packed_injOn {S lo ratio L L' : ℤ} (hL : lo ≤ L % S)
    (hLr : L % S < lo + ratio) (hL' : lo ≤ L' % S) (hLr' : L' % S < lo + ratio)
    (h : packed S lo ratio L = packed S lo ratio L') : L = L' := by
  simp only [packed] at h
  have hd := Int.mul_ediv_add_emod L S
  have hd' := Int.mul_ediv_add_emod L' S
  generalize L / S = q at *
  generalize L' / S = q' at *
  -- the two offsets are below `ratio`, so they cannot make up for a block
  have hq : q = q' := by
    rcases lt_trichotomy q q' with hlt | heq | hgt
    · have : (q + 1) * ratio ≤ q' * ratio := Int.mul_le_mul_of_nonneg_right (by omega) (by omega)
      rw [Int.add_mul, Int.one_mul] at this
      omega
    · exact heq
    · have : (q' + 1) * ratio ≤ q * ratio := Int.mul_le_mul_of_nonneg_right (by omega) (by omega)
      rw [Int.add_mul, Int.one_mul] at this
      omega
  rw [hq] at h hd
  omega

theorem packed_nonneg {S lo ratio L : ℤ} (hS : 0 < S) (hL0 : 0 ≤ L) (hlo : lo ≤ L % S)
    (hr : 0 ≤ ratio) : 0 ≤ packed S lo ratio L := by
  have h1 : 0 ≤ L / S := Int.ediv_nonneg hL0 hS.le
  have h2 : 0 ≤ L / S * ratio := Int.mul_nonneg h1 hr
  simp only [packed]
  omega

/-- The address of an integer in its class never exceeds the integer: a class has
at most as many members in a block as the block has residues. -/
theorem packed_le {S lo ratio L : ℤ} (hL0 : 0 ≤ L) (hS : 0 < S) (hlo : 0 ≤ lo)
    (hr : ratio ≤ S) : packed S lo ratio L ≤ L := by
  have h1 : 0 ≤ L / S := Int.ediv_nonneg hL0 hS.le
  have h2 : L / S * ratio ≤ L / S * S := Int.mul_le_mul_of_nonneg_left hr h1
  have h3 := Int.mul_ediv_add_emod L S
  rw [Int.mul_comm] at h3
  simp only [packed]
  omega

end HtSglang
