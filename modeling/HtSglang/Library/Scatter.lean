import Mathlib

/-!
# Batched writes

A tensor program seldom writes one cell: it writes `buf[idx] = vals`, a whole
batch of cells at once, and it reads `buf[idx]` the same way. This file is the
algebra of such writes over an arbitrary index type and an arbitrary cell type.

`HtSglang.scatter` performs the writes of a batch one after the other, so it is
defined whatever the batch is; what a caller wants to know is that when the
written indices are distinct the order does not show. The form in which that is
used everywhere is `HtSglang.scatter_map_of_agree`: a batch is *indexed by the things it
moves*, and the cell of a thing that was moved holds the value of that thing.

The second half is about blocking. A loop that walks a batch in blocks of `b`
entries reads and writes the same cells as the unblocked one
(`HtSglang.flatten_blocks`, `HtSglang.foldl_scatter_blocks`), which is what lets
a mover bound its transient without changing a byte.
-/

namespace HtSglang

/-! ### Writing a batch -/

section Scatter

variable {ι α β : Type*} [DecidableEq ι]

/-- **A batched write** `buf[idx] = vals`: the writes of the batch in order, the
shorter of the two lists deciding how many there are. -/
def scatter (m : ι → α) : List ι → List α → ι → α
  | i :: is, a :: as => scatter (Function.update m i a) is as
  | _, _ => m

@[simp] theorem scatter_nil_left (m : ι → α) (as : List α) : scatter m [] as = m := by
  rw [scatter]
  rintro i is a as h
  cases h

@[simp] theorem scatter_nil_right (m : ι → α) (is : List ι) : scatter m is [] = m := by
  cases is <;> rfl

@[simp] theorem scatter_cons (m : ι → α) (i : ι) (is : List ι) (a : α) (as : List α) :
    scatter m (i :: is) (a :: as) = scatter (Function.update m i a) is as := rfl

/-- A batch leaves alone every cell it does not name. -/
theorem scatter_of_notMem (m : ι → α) {is : List ι} (as : List α) {j : ι} (h : j ∉ is) :
    scatter m is as j = m j := by
  induction is generalizing m as with
  | nil => simp
  | cons i is ih =>
    cases as with
    | nil => simp
    | cons a as =>
      obtain ⟨hne, hmem⟩ := not_or.mp (fun hc => h (List.mem_cons.mpr hc))
      rw [scatter_cons, ih _ _ hmem, Function.update_of_ne hne]

/-- Two batches, one after the other, are the batch of the concatenations. -/
theorem scatter_append (m : ι → α) {is : List ι} {as : List α} (h : is.length = as.length)
    (is' : List ι) (as' : List α) :
    scatter m (is ++ is') (as ++ as') = scatter (scatter m is as) is' as' := by
  induction is generalizing m as with
  | nil =>
    have has : as = [] := List.length_eq_zero_iff.mp (by simpa using h.symm)
    simp [has]
  | cons i is ih =>
    cases as with
    | nil => simp at h
    | cons a as =>
      simp only [List.cons_append, scatter_cons]
      exact ih _ (by simpa using h)

/-- **The cell of a thing that was moved holds the value of that thing.** The
batch is indexed by a list `l` of things, the thing `x` going to the cell `f x`
with the value `g x`; whatever else goes to the cell must bring the same value. -/
theorem scatter_map_of_agree (m : ι → α) {l : List β} {f : β → ι} {g : β → α} {x : β} (hx : x ∈ l)
    (hagree : ∀ y ∈ l, f y = f x → g y = g x) : scatter m (l.map f) (l.map g) (f x) = g x := by
  induction l generalizing m with
  | nil => simp at hx
  | cons y l ih =>
    simp only [List.map_cons, scatter_cons]
    by_cases hl : x ∈ l
    · exact ih _ hl fun z hz => hagree z (List.mem_cons_of_mem _ hz)
    · -- `x` is the head; the rest of the batch repeats its value or goes elsewhere
      obtain rfl : x = y := (List.mem_cons.mp hx).resolve_right hl
      clear ih hx hl
      have hcell : ∀ m : ι → α, m (f x) = g x → scatter m (l.map f) (l.map g) (f x) = g x := by
        induction l with
        | nil => exact fun m hm => by simpa using hm
        | cons z l ih =>
          intro m hm
          simp only [List.map_cons, scatter_cons]
          refine ih (fun w hw => hagree w ?_) _ ?_
          · rcases List.mem_cons.mp hw with rfl | hw
            · simp
            · simp [hw]
          · rcases eq_or_ne (f z) (f x) with heq | hne
            · rw [heq, Function.update_self]
              exact hagree z (by simp) heq
            · rw [Function.update_of_ne hne.symm]
              exact hm
      exact hcell _ (Function.update_self ..)

/-- When the cells of a batch are distinct, every one of them holds its own value. -/
theorem scatter_map (m : ι → α) {l : List β} {f : β → ι} (g : β → α) (hf : (l.map f).Nodup)
    {x : β} (hx : x ∈ l) : scatter m (l.map f) (l.map g) (f x) = g x := by
  refine scatter_map_of_agree m hx fun y hy h => ?_
  rw [List.inj_on_of_nodup_map hf hy hx h]

/-- A batch indexed by a list of things leaves alone the cell of a thing that
none of them goes to. -/
theorem scatter_map_of_ne (m : ι → α) {l : List β} {f : β → ι} (g : β → α) {j : ι}
    (h : ∀ x ∈ l, f x ≠ j) : scatter m (l.map f) (l.map g) j = m j := by
  refine scatter_of_notMem m _ fun hj => ?_
  obtain ⟨x, hx, hxj⟩ := List.mem_map.mp hj
  exact h x hx hxj

/-- A batch that writes one value everywhere. -/
theorem scatter_const (m : ι → α) (l : List ι) (a : α) (j : ι) :
    scatter m l (l.map fun _ => a) j = if j ∈ l then a else m j := by
  split
  · next h => simpa using scatter_map_of_agree m (f := id) (g := fun _ => a) h fun _ _ _ => rfl
  · next h => exact scatter_of_notMem m _ h

/-- Two batches written at the same cells can be put together cell by cell. -/
theorem scatter_map_combine {γ δ : Type*} (c : γ → δ → α) {m : ι → α} {m₁ : ι → γ} {m₂ : ι → δ}
    (hm : ∀ j, m j = c (m₁ j) (m₂ j)) (l : List β) (f : β → ι) {b : β → α} {b₁ : β → γ}
    {b₂ : β → δ} (hb : ∀ x ∈ l, b x = c (b₁ x) (b₂ x)) (j : ι) :
    scatter m (l.map f) (l.map b) j
      = c (scatter m₁ (l.map f) (l.map b₁) j) (scatter m₂ (l.map f) (l.map b₂) j) := by
  induction l generalizing m m₁ m₂ with
  | nil => simpa using hm j
  | cons x l ih =>
    simp only [List.map_cons, scatter_cons]
    refine ih (fun j' => ?_) fun y hy => hb y (List.mem_cons_of_mem _ hy)
    rcases eq_or_ne j' (f x) with rfl | hne
    · simp only [Function.update_self]
      exact hb x (by simp)
    · simp only [Function.update_of_ne hne]
      exact hm j'

/-- A property of every cell and of every written value is a property of every
cell after the batch. -/
theorem scatter_forall (P : α → Prop) {m : ι → α} (hm : ∀ j, P (m j)) {as : List α}
    (has : ∀ a ∈ as, P a) (is : List ι) (j : ι) : P (scatter m is as j) := by
  induction is generalizing m as with
  | nil => simpa using hm j
  | cons i is ih =>
    cases as with
    | nil => simpa using hm j
    | cons a as =>
      rw [scatter_cons]
      refine ih (fun j' => ?_) (fun b hb => has b (List.mem_cons_of_mem _ hb))
      by_cases hj : j' = i
      · rw [hj, Function.update_self]
        exact has a (by simp)
      · rw [Function.update_of_ne hj]
        exact hm j'

end Scatter

/-! ### Walking a batch in blocks -/

section Blocks

variable {α : Type*}

/-- The blocks of `b` entries in which `for lo in range(0, n, b)` walks a list of
`n` entries; the last one may be short. -/
def blocks (b : ℕ) (xs : List α) : List (List α) :=
  (List.range ((xs.length + b - 1) / b)).map fun i => (xs.drop (i * b)).take b

/-- The blocks below `k` are the first `k * b` entries. -/
theorem flatten_blocks_range (b k : ℕ) (xs : List α) :
    ((List.range k).map fun i => (xs.drop (i * b)).take b).flatten = xs.take (k * b) := by
  induction k with
  | zero => simp
  | succ k ih =>
    rw [List.range_succ, List.map_append, List.flatten_append, ih, Nat.add_mul, Nat.one_mul,
      List.take_add]
    simp

/-- **Walking in blocks reads every entry once, in order.** -/
theorem flatten_blocks {b : ℕ} (hb : 0 < b) (xs : List α) : (blocks b xs).flatten = xs := by
  rw [blocks, flatten_blocks_range]
  refine List.take_of_length_le ?_
  have h := Nat.div_add_mod (xs.length + b - 1) b
  have hm := Nat.mod_lt (xs.length + b - 1) hb
  rw [Nat.mul_comm] at h
  omega

variable {ι β : Type*} [DecidableEq ι]

/-- **A blocked batch writes what the whole batch writes**: the batch is indexed
by the entries of a list, and the blocks of that list are written in order. -/
theorem foldl_scatter_blocks {b : ℕ} (hb : 0 < b) (m : ι → β) (l : List α) (f : α → ι)
    (g : α → β) :
    (blocks b l).foldl (fun m s => scatter m (s.map f) (s.map g)) m
      = scatter m (l.map f) (l.map g) := by
  have key : ∀ (ls : List (List α)) (m : ι → β),
      ls.foldl (fun m s => scatter m (s.map f) (s.map g)) m
        = scatter m (ls.flatten.map f) (ls.flatten.map g) := by
    intro ls
    induction ls with
    | nil => simp
    | cons s ls ih =>
      intro m
      simp only [List.foldl_cons, List.flatten_cons, List.map_append]
      rw [ih, scatter_append _ (by simp)]
  rw [key, flatten_blocks hb]

end Blocks

end HtSglang
