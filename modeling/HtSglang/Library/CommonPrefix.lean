import Mathlib

/-!
# Common prefixes and how to find them fast

How far two lists agree from the start (`HtSglang.lcp`), with the one fact everything else
about it follows from: what a number not above it means (`HtSglang.le_lcp_iff`).

A program that can compare two windows of its arrays at once finds that length without
looking at every element: it gallops over windows that double, and when one of them differs
it halves that window (`HtSglang.gallop`, `HtSglang.bisect`). The result is the length of
the longest common prefix (`HtSglang.firstDifference_eq`).
-/

namespace HtSglang

variable {α : Type*} [DecidableEq α]

/-! ### The longest common prefix -/

/-- The length of the longest common prefix. -/
def lcp : List α → List α → ℕ
  | a :: s, b :: t => if a = b then lcp s t + 1 else 0
  | _, _ => 0

@[simp] theorem lcp_nil (t : List α) : lcp [] t = 0 := by
  cases t <;> rfl

@[simp] theorem lcp_nil_right (s : List α) : lcp s [] = 0 := by
  cases s <;> rfl

theorem lcp_cons (a b : α) (s t : List α) :
    lcp (a :: s) (b :: t) = if a = b then lcp s t + 1 else 0 := rfl

/-- **What the length of the longest common prefix is**: the lists agree up to every
smaller length, and up to no greater one. -/
theorem le_lcp_iff {s t : List α} {k : ℕ} :
    k ≤ lcp s t ↔ k ≤ s.length ∧ k ≤ t.length ∧ s.take k = t.take k := by
  induction s generalizing t k with
  | nil =>
    rw [lcp_nil, Nat.le_zero, List.length_nil, Nat.le_zero]
    exact ⟨fun h => by simp [h], fun h => h.1⟩
  | cons a s ih =>
    cases t with
    | nil =>
      rw [lcp_nil_right, Nat.le_zero, List.length_nil, Nat.le_zero]
      exact ⟨fun h => by simp [h], fun h => h.2.1⟩
    | cons b t =>
      rcases k with _ | k
      · simp
      rw [lcp_cons, List.take_succ_cons, List.take_succ_cons, List.cons.injEq]
      split
      · next h =>
        rw [Nat.add_le_add_iff_right, ih]
        simp [h]
      · next h => simp [h]

theorem lcp_le_left (s t : List α) : lcp s t ≤ s.length := (le_lcp_iff.mp le_rfl).1

theorem lcp_le_right (s t : List α) : lcp s t ≤ t.length := (le_lcp_iff.mp le_rfl).2.1

/-- Lists that are cut agree as far as they did, and no further than the cuts. -/
theorem lcp_take (s t : List α) (m n : ℕ) :
    lcp (s.take m) (t.take n) = min (lcp s t) (min m n) := by
  refine eq_of_forall_le_iff fun k => ?_
  rw [le_lcp_iff, le_min_iff, le_min_iff, le_lcp_iff, List.length_take, List.length_take,
    le_min_iff, le_min_iff]
  constructor
  · rintro ⟨⟨hm, hs⟩, ⟨hn, ht⟩, heq⟩
    rw [List.take_take, List.take_take, min_eq_left hm, min_eq_left hn] at heq
    exact ⟨⟨hs, ht, heq⟩, hm, hn⟩
  · rintro ⟨⟨hs, ht, heq⟩, hm, hn⟩
    rw [List.take_take, List.take_take, min_eq_left hm, min_eq_left hn]
    exact ⟨⟨hm, hs⟩, ⟨hn, ht⟩, heq⟩

omit [DecidableEq α] in
/-- Two lists that extend the same list agree inside it. -/
theorem drop_take_eq_of_prefix {u s t : List α} {k n : ℕ} (hs : u <+: s) (ht : u <+: t)
    (hlen : k + n ≤ u.length) : (s.drop k).take n = (t.drop k).take n := by
  obtain ⟨s', rfl⟩ := hs
  obtain ⟨t', rfl⟩ := ht
  rw [List.drop_append_of_le_length (by omega), List.drop_append_of_le_length (by omega),
    List.take_append_of_le_length (by rw [List.length_drop]; omega),
    List.take_append_of_le_length (by rw [List.length_drop]; omega)]

/-! ### Galloping -/

/-- The elements from `lo` up to `hi`. -/
def window (s : List α) (lo hi : ℕ) : List α := (s.take hi).drop lo

omit [DecidableEq α] in
theorem take_append_window (s : List α) {lo hi : ℕ} (h : lo ≤ hi) :
    s.take lo ++ window s lo hi = s.take hi := by
  have : s.take lo = (s.take hi).take lo := by rw [List.take_take, min_eq_left h]
  rw [this, window, List.take_append_drop]

/-- Past a common prefix, two windows are equal exactly when the prefix goes on to their
end. -/
theorem window_eq_iff {s t : List α} {lo hi : ℕ} (hlo : lo ≤ lcp s t) (h : lo ≤ hi)
    (hs : hi ≤ s.length) (ht : hi ≤ t.length) :
    window s lo hi = window t lo hi ↔ hi ≤ lcp s t := by
  rw [le_lcp_iff, ← take_append_window s h, ← take_append_window t h,
    (le_lcp_iff.mp hlo).2.2, List.append_cancel_left_eq]
  exact ⟨fun heq => ⟨hs, ht, heq⟩, fun h => h.2.2⟩

/-- The binary search for the difference in a window that has one. -/
def bisect (s t : List α) : ℕ → ℕ → ℕ → ℕ
  | 0, lo, _ => lo
  | fuel + 1, lo, hi =>
    if 1 < hi - lo then
      let mid := (lo + hi) / 2
      if window s lo mid = window t lo mid then bisect s t fuel mid hi
      else bisect s t fuel lo mid
    else lo

/-- The search over windows that double. -/
def gallop (s t : List α) (n : ℕ) : ℕ → ℕ → ℕ → ℕ
  | 0, lo, _ => lo
  | fuel + 1, lo, step =>
    if lo < n then
      let hi := if lo + step < n then lo + step else n
      if window s lo hi ≠ window t lo hi then bisect s t (hi - lo) lo hi
      else gallop s t n fuel hi (step * 2)
    else n

/-- The position of the first difference; where the shorter list ends when there is none. -/
def firstDifference (s t : List α) : ℕ :=
  let n := min s.length t.length
  gallop s t n (n + 1) 0 1

theorem bisect_eq {s t : List α} {fuel lo hi : ℕ} (hlo : lo ≤ lcp s t) (hhi : lcp s t < hi)
    (hs : hi ≤ s.length) (ht : hi ≤ t.length) (hfuel : hi - lo ≤ fuel) :
    bisect s t fuel lo hi = lcp s t := by
  induction fuel generalizing lo hi with
  | zero => omega
  | succ fuel ih =>
    rw [bisect]
    split
    · have hmid : window s lo ((lo + hi) / 2) = window t lo ((lo + hi) / 2) ↔
          (lo + hi) / 2 ≤ lcp s t := window_eq_iff hlo (by omega) (by omega) (by omega)
      dsimp only
      split
      · next heq => exact ih (hmid.mp heq) hhi hs ht (by omega)
      · next hne =>
        exact ih hlo (not_le.mp (mt hmid.mpr hne)) (by omega) (by omega) (by omega)
    · omega

theorem gallop_eq {s t : List α} {fuel lo step : ℕ} (hlo : lo ≤ lcp s t) (hstep : 0 < step)
    (hfuel : min s.length t.length - lo < fuel) :
    gallop s t (min s.length t.length) fuel lo step = lcp s t := by
  have hl := lcp_le_left s t
  have hr := lcp_le_right s t
  induction fuel generalizing lo step with
  | zero => omega
  | succ fuel ih =>
    rw [gallop]
    split
    · next hlt =>
      obtain ⟨hi, hhi⟩ : ∃ hi, hi = if lo + step < min s.length t.length then lo + step
        else min s.length t.length := ⟨_, rfl⟩
      have hgt : lo < hi ∧ hi ≤ min s.length t.length := by split at hhi <;> omega
      have hwin : window s lo hi = window t lo hi ↔ hi ≤ lcp s t :=
        window_eq_iff hlo (by omega) (by omega) (by omega)
      rw [← hhi]
      dsimp only
      split
      · next hne =>
        exact bisect_eq hlo (not_le.mp (mt hwin.mpr hne)) (by omega) (by omega) le_rfl
      · next heq => exact ih (hwin.mp (not_not.mp heq)) (by omega) (by omega)
    · omega

/-- **Galloping finds the longest common prefix.** -/
theorem firstDifference_eq (s t : List α) : firstDifference s t = lcp s t :=
  gallop_eq (Nat.zero_le _) one_pos (by omega)

end HtSglang
