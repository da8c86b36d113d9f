import Mathlib

/-!
# Agreement through one MIN reduction

An element-wise minimum over a group tells every member the least value of each
field. Packing a field as `(v, -v)` makes the same reduction tell the greatest one
too, so that one collective decides both *does everybody say yes* and *does
everybody say the same*. This file has the packing
(`HtSglang.MinReduce.encode`), the reduction (`HtSglang.MinReduce.minReduce`) and
what the two readings of a reduced field mean
(`HtSglang.MinReduce.lowAt_spec`, `HtSglang.MinReduce.lowAt_eq_highAt_iff`).
-/

namespace HtSglang

namespace MinReduce

/-- Every value followed by its negation. -/
def encode (values : List ℤ) : List ℤ := values.flatMap fun v => [v, -v]

/-- The element-wise minimum of the members' payloads. -/
def minReduce : List (List ℤ) → List ℤ
  | [] => []
  | p :: ps => ps.foldl (List.zipWith min) p

/-- The least value of field `i` in the group, as read off a reduced payload. -/
def lowAt (reduced : List ℤ) (i : ℕ) : ℤ := reduced.getD (2 * i) 0

/-- The greatest value of field `i` in the group, as read off a reduced payload. -/
def highAt (reduced : List ℤ) (i : ℕ) : ℤ := -reduced.getD (2 * i + 1) 0

theorem length_encode (values : List ℤ) : (encode values).length = 2 * values.length := by
  induction values with
  | nil => rfl
  | cons v values ih =>
    simp only [encode, List.flatMap_cons, List.length_append, List.length_cons,
      List.length_nil] at ih ⊢
    omega

theorem getD_encode (values : List ℤ) (i : ℕ) :
    (encode values).getD (2 * i) 0 = values.getD i 0 ∧
      (encode values).getD (2 * i + 1) 0 = -values.getD i 0 := by
  induction values generalizing i with
  | nil => simp [encode]
  | cons v values ih =>
    cases i with
    | zero => simp [encode]
    | succ i =>
      have h := ih i
      simp only [encode, List.flatMap_cons, List.cons_append, List.nil_append,
        show 2 * (i + 1) = 2 * i + 1 + 1 by ring, List.getD_cons_succ] at h ⊢
      exact h

/-- **A reduced entry is the least of the members' entries**: below all of them, and
one of them. -/
theorem getD_minReduce {m j : ℕ} (hj : j < m) {ps : List (List ℤ)} (hne : ps ≠ [])
    (hlen : ∀ p ∈ ps, p.length = m) :
    (minReduce ps).length = m ∧ (∀ p ∈ ps, (minReduce ps).getD j 0 ≤ p.getD j 0) ∧
      ∃ p ∈ ps, (minReduce ps).getD j 0 = p.getD j 0 := by
  obtain ⟨p, ps, rfl⟩ := List.exists_cons_of_ne_nil hne
  induction ps generalizing p with
  | nil => simpa [minReduce] using hlen p (by simp)
  | cons q ps ih =>
    have hp : p.length = m := hlen p (by simp)
    have hq : q.length = m := hlen q (by simp)
    have hmin : (List.zipWith min p q).getD j 0 = min (p.getD j 0) (q.getD j 0) := by
      rw [List.getD_eq_getElem _ _ (by simp [hp, hq, hj]), List.getD_eq_getElem _ _ (by omega),
        List.getD_eq_getElem _ _ (by omega), List.getElem_zipWith]
    obtain ⟨h1, h2, x, hx, h3⟩ := ih (List.zipWith min p q) (by simp) (by
      intro x hx
      rcases List.mem_cons.mp hx with rfl | hx
      · simp [hp, hq]
      · exact hlen x (by simp [hx]))
    have hred : minReduce (p :: q :: ps) = minReduce (List.zipWith min p q :: ps) := rfl
    have hhead := h2 _ (List.mem_cons_self)
    rw [hmin] at hhead
    rw [hred]
    refine ⟨h1, fun y hy => ?_, ?_⟩
    · rcases List.mem_cons.mp hy with rfl | hy
      · exact hhead.trans (min_le_left _ _)
      · rcases List.mem_cons.mp hy with rfl | hy
        · exact hhead.trans (min_le_right _ _)
        · exact h2 y (List.mem_cons_of_mem _ hy)
    · rcases List.mem_cons.mp hx with rfl | hx
      · rw [hmin] at h3
        rcases min_choice (p.getD j 0) (q.getD j 0) with h | h
        · exact ⟨p, by simp, h3.trans h⟩
        · exact ⟨q, by simp, h3.trans h⟩
      · exact ⟨x, by simp [hx], h3⟩

section Group

/- A group whose members `ms` propose `m` values each. -/
variable {σ : Type*} {ms : List σ} (val : σ → List ℤ) {m : ℕ}

theorem length_minReduce_encode (hne : ms ≠ []) (hlen : ∀ x ∈ ms, (val x).length = m)
    (hm : 0 < m) : (minReduce (ms.map fun x => encode (val x))).length = 2 * m := by
  refine (getD_minReduce (show 0 < 2 * m by omega) (by simpa using hne) fun p hp => ?_).1
  obtain ⟨x, hx, rfl⟩ := List.mem_map.mp hp
  rw [length_encode, hlen x hx]

/-- **What the least reading of a field means.** -/
theorem lowAt_spec (hne : ms ≠ []) (hlen : ∀ x ∈ ms, (val x).length = m) {i : ℕ} (hi : i < m) :
    (∀ x ∈ ms, lowAt (minReduce (ms.map fun x => encode (val x))) i ≤ (val x).getD i 0) ∧
      ∃ x ∈ ms, lowAt (minReduce (ms.map fun x => encode (val x))) i = (val x).getD i 0 := by
  have hl : ∀ p ∈ ms.map fun x => encode (val x), p.length = 2 * m := by
    intro p hp
    obtain ⟨x, hx, rfl⟩ := List.mem_map.mp hp
    rw [length_encode, hlen x hx]
  obtain ⟨-, h1, p, hp, h2⟩ := getD_minReduce (show 2 * i < 2 * m by omega) (by simpa using hne) hl
  obtain ⟨x, hx, rfl⟩ := List.mem_map.mp hp
  refine ⟨fun y hy => ?_, x, hx, ?_⟩
  · exact (h1 _ (List.mem_map.mpr ⟨y, hy, rfl⟩)).trans_eq (getD_encode _ _).1
  · exact h2.trans (getD_encode _ _).1

/-- What the greatest reading of a field means. -/
theorem highAt_spec (hne : ms ≠ []) (hlen : ∀ x ∈ ms, (val x).length = m) {i : ℕ} (hi : i < m) :
    (∀ x ∈ ms, (val x).getD i 0 ≤ highAt (minReduce (ms.map fun x => encode (val x))) i) ∧
      ∃ x ∈ ms, highAt (minReduce (ms.map fun x => encode (val x))) i = (val x).getD i 0 := by
  have hl : ∀ p ∈ ms.map fun x => encode (val x), p.length = 2 * m := by
    intro p hp
    obtain ⟨x, hx, rfl⟩ := List.mem_map.mp hp
    rw [length_encode, hlen x hx]
  obtain ⟨-, h1, p, hp, h2⟩ :=
    getD_minReduce (show 2 * i + 1 < 2 * m by omega) (by simpa using hne) hl
  obtain ⟨x, hx, rfl⟩ := List.mem_map.mp hp
  refine ⟨fun y hy => ?_, x, hx, ?_⟩
  · have h := h1 _ (List.mem_map.mpr ⟨y, hy, rfl⟩)
    rw [(getD_encode _ _).2] at h
    rw [highAt]
    omega
  · rw [highAt, h2, (getD_encode _ _).2, neg_neg]

/-- **A field on which the two readings agree is one the whole group agrees on.** -/
theorem lowAt_eq_highAt_iff (hne : ms ≠ []) (hlen : ∀ x ∈ ms, (val x).length = m) {i : ℕ}
    (hi : i < m) :
    lowAt (minReduce (ms.map fun x => encode (val x))) i
        = highAt (minReduce (ms.map fun x => encode (val x))) i ↔
      ∀ x ∈ ms, ∀ y ∈ ms, (val x).getD i 0 = (val y).getD i 0 := by
  obtain ⟨hlow, x, hx, hlx⟩ := lowAt_spec val hne hlen hi
  obtain ⟨hhigh, y, hy, hhy⟩ := highAt_spec val hne hlen hi
  constructor
  · intro h u hu v hv
    have h1 := hlow u hu
    have h2 := hhigh u hu
    have h3 := hlow v hv
    have h4 := hhigh v hv
    omega
  · intro h
    rw [hlx, hhy]
    exact h x hx y hy

end Group

end MinReduce

end HtSglang
