import Mathlib

/-!
# Tables of rows

A two-dimensional byte tensor is a list of rows of one width. The movers build one
out of several narrower tables put side by side, flatten it for the wire, and the
receiver reshapes it and cuts the columns out again. This file has the four
operations – `HtSglang.sideBySide`, `List.flatten`, `HtSglang.viewRows`,
`HtSglang.columns` – and the two laws that make them inverse to each other
(`HtSglang.viewRows_flatten`, `HtSglang.columns_sideBySide`).
-/

namespace HtSglang

section Rows

variable {α β : Type*}

/-- `torch.cat(parts, dim=1)` of tables of `n` rows. -/
def sideBySide (n : ℕ) (parts : List (List (List α))) : List (List α) :=
  parts.foldr (List.zipWith (· ++ ·)) (List.replicate n [])

/-- `t.view(n, w)` of a flat table. -/
def viewRows (n w : ℕ) (data : List α) : List (List α) :=
  (List.range n).map fun i => (data.drop (i * w)).take w

/-- `t[:, lo:hi]`. -/
def columns (lo hi : ℕ) (table : List (List α)) : List (List α) :=
  table.map fun row => (row.drop lo).take (hi - lo)

/-- Tables that were gathered from the same things, put side by side, are one
gathered table. -/
theorem sideBySide_map {γ : Type*} (l : List β) (parts : List γ) (h : γ → β → List α) :
    sideBySide l.length (parts.map fun c => l.map (h c))
      = l.map fun x => parts.flatMap fun c => h c x := by
  induction parts with
  | nil =>
    induction l with
    | nil => rfl
    | cons x l ih =>
      simp only [sideBySide, List.map_nil, List.foldr_nil, List.flatMap_nil] at ih ⊢
      rw [List.map_cons, ← ih]
      rfl
  | cons c parts ih =>
    simp only [sideBySide, List.map_cons, List.foldr_cons, List.flatMap_cons] at ih ⊢
    rw [ih, List.zipWith_map, List.zipWith_self]

theorem length_flatten_of_width {rows : List (List α)} {w : ℕ} (h : ∀ r ∈ rows, r.length = w) :
    rows.flatten.length = rows.length * w := by
  rw [List.length_flatten, List.map_congr_left h, List.map_const', List.sum_replicate, smul_eq_mul]

/-- **Reshaping undoes flattening.** -/
theorem viewRows_flatten {rows : List (List α)} {w : ℕ} (h : ∀ r ∈ rows, r.length = w) :
    viewRows rows.length w rows.flatten = rows := by
  refine List.ext_getElem (by simp [viewRows]) fun i h1 h2 => ?_
  have htake : ∀ j, j ≤ rows.length → ((rows.map List.length).take j).sum = j * w := by
    intro j hj
    rw [List.map_congr_left h, List.map_const', List.take_replicate, List.sum_replicate,
      smul_eq_mul, Nat.min_eq_left hj]
  have key := List.drop_take_succ_flatten_eq_getElem rows i h2
  rw [htake (i + 1) (by omega), htake i (by omega), List.drop_take] at key
  have hw : (i + 1) * w - i * w = w := by
    rw [Nat.add_mul, one_mul, Nat.add_sub_cancel_left]
  rw [hw] at key
  simpa [viewRows] using key

/-- The columns of one part, inside the parts put together. -/
theorem take_drop_flatMap_range {N c : ℕ} (hc : c < N) (h : ℕ → List α) (w : ℕ → ℕ)
    (hw : ∀ c, c < N → (h c).length = w c) :
    (((List.range N).flatMap h).drop ((List.range c).map w).sum).take (w c) = h c := by
  have hsplit : List.range N = List.range c ++ c :: (List.range (N - (c + 1))).map (c + 1 + ·) := by
    conv_lhs => rw [show N = c + 1 + (N - (c + 1)) by omega, List.range_add, List.range_succ]
    simp
  have hlen : ((List.range c).flatMap h).length = ((List.range c).map w).sum := by
    rw [List.length_flatMap]
    refine congrArg List.sum (List.map_congr_left fun d hd => ?_)
    rw [List.mem_range] at hd
    exact hw d (by omega)
  rw [hsplit, List.flatMap_append, List.flatMap_cons, List.drop_left' hlen,
    List.take_left' (hw c hc)]

/-- **Cutting the columns of a part undoes putting the parts side by side.** -/
theorem columns_sideBySide (l : List β) {N c : ℕ} (hc : c < N) (h : ℕ → β → List α) (w : ℕ → ℕ)
    (hw : ∀ x ∈ l, ∀ c, c < N → (h c x).length = w c) :
    columns ((List.range c).map w).sum (((List.range c).map w).sum + w c)
      (l.map fun x => (List.range N).flatMap fun c => h c x) = l.map (h c) := by
  rw [columns, List.map_map]
  refine List.map_congr_left fun x hx => ?_
  rw [Function.comp_apply, Nat.add_sub_cancel_left]
  exact take_drop_flatMap_range hc (fun c => h c x) w (hw x hx)

end Rows

end HtSglang
