import HtSglang.Library.Scatter

/-!
# Flat lists with pointers

A batch of lists is kept as one flat list, together with the pointers at which the lists begin
(`HtSglang.pointers`). Programs that run side by side fill the flat list, each from its own pointer
on, and in whatever order their stores happen the outcome is the concatenation
(`HtSglang.read_scatter_of_perm`, `HtSglang.flatten_zipWith_enumFrom`). A program may write its list
in blocks, with the lanes behind the end masked off (`HtSglang.flatMap_masked_blocks`). The pointers
cut the flat list into the lists again (`HtSglang.segment_flatten`).

The lengths of the lists after a filter are counted with one addition for each entry
(`HtSglang.scatterAdd`), at the number of the list that the entry belongs to
(`HtSglang.repeatInterleave`). These are the sums over the lists
(`HtSglang.scatterAdd_repeatInterleave`). When each entry passes the filter of exactly one reader,
the readers have the whole list (`HtSglang.perm_flatMap_filter`).
-/

namespace HtSglang

section Pointers

variable {α : Type*}

/-- Where lists of the given lengths begin in the flat list, and where the last one ends. -/
def pointers : ℕ → List ℕ → List ℕ
  | c, [] => [c]
  | c, n :: lens => c :: pointers (c + n) lens

@[simp] theorem length_pointers (c : ℕ) (lens : List ℕ) :
    (pointers c lens).length = lens.length + 1 := by
  induction lens generalizing c with
  | nil => rfl
  | cons n lens ih => rw [pointers, List.length_cons, ih, List.length_cons]

theorem getD_pointers (c : ℕ) {lens : List ℕ} {i : ℕ} (hi : i ≤ lens.length) :
    (pointers c lens).getD i 0 = c + (lens.take i).sum := by
  induction lens generalizing c i with
  | nil =>
    obtain rfl := Nat.le_zero.mp hi
    rfl
  | cons n lens ih =>
    cases i with
    | zero => rfl
    | succ i =>
      rw [pointers, List.getD_cons_succ, ih _ (Nat.le_of_succ_le_succ hi), List.take_succ_cons,
        List.sum_cons, Nat.add_assoc]

theorem getLast?_pointers (c : ℕ) (lens : List ℕ) :
    (pointers c lens).getLast? = some (c + lens.sum) := by
  induction lens generalizing c with
  | nil => rfl
  | cons n lens ih =>
    rw [pointers, List.getLast?_cons, ih, List.sum_cons, Option.getD_some, Nat.add_assoc]

theorem le_of_mem_pointers {c p : ℕ} {lens : List ℕ} (h : p ∈ pointers c lens) :
    p ≤ c + lens.sum := by
  induction lens generalizing c with
  | nil => exact (List.mem_singleton.mp h).le
  | cons n lens ih =>
    rw [List.sum_cons]
    rcases List.mem_cons.mp h with rfl | h
    · omega
    · have := ih h
      omega

/-- **The pointers cut the flat list** into the lists. -/
theorem segment_flatten (segs : List (List α)) {i : ℕ} (hi : i < segs.length) :
    (segs.flatten.drop ((segs.map List.length).take i).sum).take
      (((segs.map List.length).take (i + 1)).sum - ((segs.map List.length).take i).sum) =
      segs[i] := by
  rw [← List.drop_take_succ_flatten_eq_getElem segs i hi, List.drop_take]

end Pointers

/-! ### Programs that run side by side -/

section Stores

variable {α : Type*}

/-- The stores of a program that writes a list, from a pointer on. -/
def enumFrom (b : ℕ) (v : List α) : List (ℤ × α) := (v.zipIdx b).map fun x => ((x.2 : ℤ), x.1)

theorem enumFrom_append (b : ℕ) (v w : List α) :
    enumFrom b (v ++ w) = enumFrom b v ++ enumFrom (b + v.length) w := by
  rw [enumFrom, List.zipIdx_append, List.map_append, enumFrom, enumFrom, Nat.add_comm]

theorem enumFrom_map_range (b n : ℕ) (g : ℕ → α) :
    enumFrom b ((List.range n).map g) = (List.range n).map fun o => (((b + o : ℕ) : ℤ), g o) := by
  induction n with
  | zero => rfl
  | succ n ih =>
    rw [List.range_succ, List.map_append, enumFrom_append, ih, List.map_append, List.length_map,
      List.length_range]
    rfl

/-- **All stores**, of programs that write their lists from their pointers on. -/
theorem flatten_zipWith_enumFrom (b : ℕ) (segs : List (List α)) :
    (List.zipWith enumFrom (pointers b (segs.map List.length)) segs).flatten =
      enumFrom b segs.flatten := by
  induction segs generalizing b with
  | nil => rfl
  | cons v segs ih =>
    rw [List.map_cons, pointers, List.zipWith_cons_cons, List.flatten_cons, ih, List.flatten_cons,
      enumFrom_append]

theorem filter_range_lt (c n B : ℕ) :
    (List.range B).filter (fun j => c + j < n) = List.range (min B (n - c)) := by
  induction B with
  | zero => rw [Nat.zero_min]; rfl
  | succ B ih =>
    rw [List.range_succ, List.filter_append, ih]
    by_cases h : c + B < n
    · rw [List.filter_cons_of_pos (by simpa using h), List.filter_nil,
        show min (B + 1) (n - c) = B + 1 by omega, show min B (n - c) = B by omega,
        List.range_succ]
    · rw [List.filter_cons_of_neg (by simpa using h), List.filter_nil, List.append_nil,
        show min (B + 1) (n - c) = min B (n - c) by omega]

/-- **A loop over blocks** whose lanes are masked off behind the end does everything once. -/
theorem flatMap_masked_blocks (B n k : ℕ) (g : ℕ → α) :
    ((List.range k).flatMap fun i =>
      ((List.range B).filter fun j => i * B + j < n).map fun j => g (i * B + j)) =
      (List.range (min n (k * B))).map g := by
  induction k with
  | zero => rw [Nat.zero_mul, Nat.min_zero]; rfl
  | succ k ih =>
    rw [List.range_succ, List.flatMap_append, ih, List.flatMap_singleton, filter_range_lt,
      Nat.succ_mul]
    by_cases hkn : k * B ≤ n
    · rw [Nat.min_eq_right hkn, show min n (k * B + B) = k * B + min B (n - k * B) by omega,
        List.range_add, List.map_append, List.map_map]
      rfl
    · rw [show min B (n - k * B) = 0 by omega, List.range_zero, List.map_nil, List.append_nil,
        show min n (k * B + B) = min n (k * B) by omega]

/-- **The order of the stores does not matter.** -/
theorem read_scatter_of_perm (m : ℤ → α) {v : List α} {stores : List (ℤ × α)}
    (h : stores.Perm (enumFrom 0 v)) :
    (List.range v.length).map (fun k : ℕ => scatter m (stores.map Prod.fst)
      (stores.map Prod.snd) (k : ℤ)) = v := by
  have haddr : (enumFrom 0 v).map Prod.fst = (List.range v.length).map fun k : ℕ => (k : ℤ) := by
    rw [enumFrom, List.map_map, List.range_eq_range', ← List.zipIdx_map_snd 0 v, List.map_map]
    rfl
  have hnodup : (stores.map Prod.fst).Nodup := by
    rw [(h.map Prod.fst).nodup_iff, haddr]
    exact List.nodup_range.map Nat.cast_injective
  refine List.ext_getElem (by rw [List.length_map, List.length_range]) fun k h₁ h₂ => ?_
  rw [List.getElem_map, List.getElem_range]
  have hmem : ((k : ℤ), v[k]) ∈ stores := by
    rw [h.mem_iff]
    refine List.mem_map.mpr ⟨(v[k], k), ?_, rfl⟩
    exact List.mem_zipIdx_iff_getElem?.mpr (List.getElem?_eq_getElem h₂)
  exact scatter_map m Prod.snd hnodup hmem

end Stores

/-- **A list is shared out** when each entry goes to one of the readers. -/
theorem perm_flatMap_filter {α : Type*} [DecidableEq α] {n : ℕ} {l : List α} {P : ℕ → α → Bool}
    (h : ∀ a ∈ l, ∃! r, r < n ∧ P r a = true) :
    ((List.range n).flatMap fun r => l.filter (P r)).Perm l := by
  rw [List.perm_iff_count]
  intro a
  have hsum : ((List.range n).flatMap fun r => l.filter (P r)).count a =
      ∑ r ∈ Finset.range n, (l.filter (P r)).count a := by
    rw [List.count_flatMap]
    rfl
  rw [hsum]
  by_cases ha : a ∈ l
  · obtain ⟨r, ⟨hr, hP⟩, honly⟩ := h a ha
    rw [Finset.sum_eq_single_of_mem r (Finset.mem_range.mpr hr), List.count_filter hP]
    intro s hs hsr
    rw [List.count_eq_zero, List.mem_filter]
    exact fun hmem => hsr (honly s ⟨Finset.mem_range.mp hs, hmem.2⟩)
  · rw [List.count_eq_zero.mpr ha]
    refine Finset.sum_eq_zero fun r _ => ?_
    rw [List.count_eq_zero, List.mem_filter]
    exact fun hmem => ha hmem.1

/-! ### Sums over the lists -/

/-- `out.scatter_add_(0, index, src)`. -/
def scatterAdd (out : List ℕ) (pairs : List (ℕ × ℕ)) : List ℕ :=
  pairs.foldl (fun out p => out.modify p.1 (· + p.2)) out

/-- `torch.repeat_interleave(torch.arange(n), lens)`, with a first number. -/
def repeatInterleave (k : ℕ) (lens : List ℕ) : List ℕ :=
  (lens.zipIdx k).flatMap fun x => List.replicate x.1 x.2

theorem scatterAdd_append (out : List ℕ) (pairs pairs' : List (ℕ × ℕ)) :
    scatterAdd out (pairs ++ pairs') = scatterAdd (scatterAdd out pairs) pairs' :=
  List.foldl_append

/-- Additions at one place. -/
theorem scatterAdd_replicate (out : List ℕ) (i : ℕ) (v : List ℕ) :
    scatterAdd out ((List.replicate v.length i).zip v) = out.modify i (· + v.sum) := by
  induction v generalizing out with
  | nil =>
    rw [List.length_nil, List.replicate_zero, List.zip_nil_left, List.sum_nil]
    exact (List.modify_id i out).symm
  | cons a v ih =>
    have hadd : (· + v.sum) ∘ (· + a) = (· + (a :: v).sum) := by
      funext x
      rw [Function.comp_apply, List.sum_cons, Nat.add_assoc]
    rw [List.length_cons, List.replicate_succ, List.zip_cons_cons, ← hadd,
      ← List.modify_modify_eq]
    exact ih _

theorem modify_append_cons {α : Type*} (pre : List α) (a : α) (l : List α) (f : α → α) :
    (pre ++ a :: l).modify pre.length f = pre ++ f a :: l := by
  induction pre with
  | nil => rfl
  | cons b pre ih => rw [List.cons_append, List.length_cons, List.modify_succ_cons, ih]; rfl

/-- **One addition for each entry gives the sums over the lists.** -/
theorem scatterAdd_repeatInterleave (pre : List ℕ) (segs : List (List ℕ)) :
    scatterAdd (pre ++ List.replicate segs.length 0)
      ((repeatInterleave pre.length (segs.map List.length)).zip segs.flatten) =
      pre ++ segs.map List.sum := by
  induction segs generalizing pre with
  | nil => rfl
  | cons v segs ih =>
    have hhead : repeatInterleave pre.length ((v :: segs).map List.length) =
        List.replicate v.length pre.length ++
          repeatInterleave (pre ++ [v.sum]).length (segs.map List.length) := by
      rw [repeatInterleave, List.map_cons, List.zipIdx_cons, List.flatMap_cons, List.length_append,
        List.length_singleton, repeatInterleave]
    have hmodify : (pre ++ List.replicate (v :: segs).length 0).modify pre.length (· + v.sum) =
        (pre ++ [v.sum]) ++ List.replicate segs.length 0 := by
      rw [List.length_cons, List.replicate_succ, modify_append_cons, Nat.zero_add,
        List.append_assoc]
      rfl
    rw [hhead, List.flatten_cons, List.zip_append (by rw [List.length_replicate]),
      scatterAdd_append, scatterAdd_replicate, hmodify, ih, List.append_assoc]
    rfl

end HtSglang
