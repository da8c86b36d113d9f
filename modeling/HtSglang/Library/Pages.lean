import Mathlib

/-!
# Pages and their slots

A pool that hands out pages of slots: page `p` has the slots `p * size`, …,
`p * size + size - 1`. A user that takes pages and uses them in order holds a list of slots
that is a beginning of the slots of a list of pages, with no page unused
(`HtSglang.Paged`). Such lists are put together and cut at page boundaries
(`HtSglang.Paged.append`, `HtSglang.Paged.take`, `HtSglang.Paged.drop`), and the slots determine
the pages (`HtSglang.Paged.pagesOf_eq`).
-/

namespace HtSglang

/-- The slots of a list of pages. -/
def pageSlots (size : ℕ) (pages : List ℤ) : List ℤ :=
  pages.flatMap fun p => (List.range size).map fun j : ℕ => p * size + j

/-- The number of pages that a number of slots takes. -/
def pageCount (size n : ℕ) : ℕ := (n + size - 1) / size

/-- **The slots are a beginning of the slots of the pages**, and use all of the pages. -/
structure Paged (size : ℕ) (slots pages : List ℤ) : Prop where
  slots_eq : slots = (pageSlots size pages).take slots.length
  length_eq : pages.length = pageCount size slots.length

/-- The pages of a list of slots: of every page's worth of slots, the page of the first. -/
def pagesOf (size : ℕ) (slots : List ℤ) : List ℤ :=
  (List.range (pageCount size slots.length)).map fun i => slots.getD (i * size) 0 / size

variable {size : ℕ} {slots slots' pages pages' : List ℤ}

/-! ### Counting pages -/

theorem pageCount_zero (hs : 0 < size) : pageCount size 0 = 0 := by
  rw [pageCount, Nat.zero_add]
  exact Nat.div_eq_of_lt (by omega)

theorem pageCount_mul_add (hs : 0 < size) (m n : ℕ) :
    pageCount size (m * size + n) = m + pageCount size n := by
  rcases Nat.eq_zero_or_pos n with rfl | hn
  · rw [pageCount_zero hs, pageCount, Nat.add_zero, Nat.add_zero, Nat.add_sub_assoc (by omega),
      Nat.add_comm, Nat.add_mul_div_right _ _ hs, Nat.div_eq_of_lt (by omega), Nat.zero_add]
  · rw [pageCount, pageCount, show m * size + n + size - 1 = (n + size - 1) + m * size by omega,
      Nat.add_mul_div_right _ _ hs, Nat.add_comm]

theorem le_pageCount_mul (hs : 0 < size) (n : ℕ) : n ≤ pageCount size n * size := by
  have := Nat.lt_div_mul_add (a := n + size - 1) hs
  rw [pageCount]
  omega

theorem pageCount_mul_lt (hs : 0 < size) {n : ℕ} (hn : 0 < n) :
    pageCount size n * size < n + size := by
  have := Nat.div_mul_le_self (n + size - 1) size
  rw [pageCount]
  omega

theorem pageCount_le_iff (hs : 0 < size) {n c : ℕ} : pageCount size n ≤ c ↔ n ≤ c * size := by
  rw [pageCount, ← Nat.lt_succ_iff, Nat.div_lt_iff_lt_mul hs, Nat.succ_mul]
  omega

theorem pageCount_eq_one {n : ℕ} (hn : 0 < n) (hle : n ≤ size) : pageCount size n = 1 := by
  have hs := hn.trans_le hle
  refine le_antisymm ((pageCount_le_iff hs).mpr (by omega)) (Nat.pos_of_ne_zero fun hz => ?_)
  have := le_pageCount_mul hs n
  rw [hz, Nat.zero_mul] at this
  omega

/-! ### The slots of pages -/

@[simp] theorem pageSlots_nil (size : ℕ) : pageSlots size [] = [] := rfl

theorem pageSlots_cons (size : ℕ) (p : ℤ) (pages : List ℤ) :
    pageSlots size (p :: pages)
      = (List.range size).map (fun j : ℕ => p * size + j) ++ pageSlots size pages := rfl

theorem pageSlots_append (size : ℕ) (pages pages' : List ℤ) :
    pageSlots size (pages ++ pages') = pageSlots size pages ++ pageSlots size pages' :=
  List.flatMap_append

@[simp] theorem length_pageSlots (size : ℕ) (pages : List ℤ) :
    (pageSlots size pages).length = pages.length * size := by
  induction pages with
  | nil => simp
  | cons p pages ih =>
    rw [pageSlots_cons, List.length_append, List.length_map, List.length_range, ih,
      List.length_cons, Nat.add_mul, Nat.one_mul, Nat.add_comm]

/-- A slot is that of a page, by its position. -/
theorem getElem?_pageSlots (hs : 0 < size) (pages : List ℤ) (i : ℕ) :
    (pageSlots size pages)[i]? = pages[i / size]?.map fun p : ℤ => p * size + (i % size : ℕ) := by
  induction pages generalizing i with
  | nil => simp
  | cons p pages ih =>
    rw [pageSlots_cons]
    by_cases hi : i < size
    · rw [List.getElem?_append_left (by simpa using hi), Nat.div_eq_of_lt hi, Nat.mod_eq_of_lt hi]
      simp [hi]
    · have hi := not_lt.mp hi
      have hdiv : i / size = (i - size) / size + 1 := by
        rw [← Nat.div_eq_sub_div hs hi]
      rw [List.getElem?_append_right (by simpa using hi), List.length_map, List.length_range, ih,
        hdiv, List.getElem?_cons_succ, Nat.mod_eq_sub_mod hi]

theorem take_pageSlots (size : ℕ) (pages : List ℤ) (k : ℕ) :
    (pageSlots size pages).take (k * size) = pageSlots size (pages.take k) := by
  induction pages generalizing k with
  | nil => simp
  | cons p pages ih =>
    rcases k with _ | k
    · simp
    · rw [pageSlots_cons, List.take_append, List.length_map, List.length_range,
        List.take_of_length_le (by simp [Nat.add_mul]), Nat.add_mul, Nat.one_mul,
        Nat.add_sub_cancel, ih, List.take_succ_cons, pageSlots_cons]

theorem drop_pageSlots (size : ℕ) (pages : List ℤ) (k : ℕ) :
    (pageSlots size pages).drop (k * size) = pageSlots size (pages.drop k) := by
  induction pages generalizing k with
  | nil => simp
  | cons p pages ih =>
    rcases k with _ | k
    · simp
    · rw [pageSlots_cons, List.drop_append, List.length_map, List.length_range,
        List.drop_eq_nil_of_le (by simp [Nat.add_mul]), List.nil_append, Nat.add_mul, Nat.one_mul,
        Nat.add_sub_cancel, ih, List.drop_succ_cons]

/-- A page of one slot is the slot. -/
theorem pageSlots_one (pages : List ℤ) : pageSlots 1 pages = pages := by
  induction pages with
  | nil => rfl
  | cons p pages ih => rw [pageSlots_cons, ih]; simp

/-! ### Slots in pages -/

namespace Paged

theorem nil (hs : 0 < size) : Paged size [] [] := ⟨rfl, (pageCount_zero hs).symm⟩

/-- All slots of some pages. -/
theorem whole (hs : 0 < size) (pages : List ℤ) : Paged size (pageSlots size pages) pages := by
  refine ⟨(List.take_length).symm, ?_⟩
  have := pageCount_mul_add hs pages.length 0
  rw [Nat.add_zero, pageCount_zero hs, Nat.add_zero] at this
  rw [length_pageSlots, this]

/-- The first slots of some pages, when they need all of them. -/
theorem first (hs : 0 < size) {n : ℕ} (hn : pages.length = pageCount size n) :
    Paged size ((pageSlots size pages).take n) pages := by
  have hlen : ((pageSlots size pages).take n).length = n := by
    rw [List.length_take, length_pageSlots, hn]
    exact min_eq_left (le_pageCount_mul hs n)
  exact ⟨by rw [hlen], by rw [hlen, hn]⟩

theorem length_le (hs : 0 < size) (h : Paged size slots pages) :
    slots.length ≤ pages.length * size := by
  rw [h.length_eq]
  exact le_pageCount_mul hs _

/-- Slots that end with a page are all the slots of the pages. -/
theorem eq_pageSlots (hs : 0 < size) (h : Paged size slots pages) (hd : size ∣ slots.length) :
    slots = pageSlots size pages := by
  obtain ⟨k, hk⟩ := hd
  have hlen := h.length_eq
  have hcount := pageCount_mul_add hs k 0
  rw [Nat.add_zero, pageCount_zero hs, Nat.add_zero] at hcount
  rw [hk, Nat.mul_comm, hcount] at hlen
  rw [h.slots_eq, hk, Nat.mul_comm, ← hlen, ← length_pageSlots, List.take_length]

/-- Slots that end with a page are continued by further pages. -/
theorem append (hs : 0 < size) (h : Paged size slots pages) (hd : size ∣ slots.length)
    (h' : Paged size slots' pages') : Paged size (slots ++ slots') (pages ++ pages') := by
  have hslots := h.eq_pageSlots hs hd
  have hlen : slots.length = pages.length * size := by rw [hslots, length_pageSlots]
  refine ⟨?_, ?_⟩
  · rw [pageSlots_append, List.take_append, length_pageSlots, List.length_append, hlen,
      List.take_of_length_le (by rw [length_pageSlots]; omega), Nat.add_sub_cancel_left,
      ← h'.slots_eq, ← hslots]
  · rw [List.length_append, List.length_append, hlen, pageCount_mul_add hs, h'.length_eq]

theorem take (hs : 0 < size) (h : Paged size slots pages) {k : ℕ} (hk : k * size ≤ slots.length) :
    Paged size (slots.take (k * size)) (pages.take k) := by
  have hle := h.length_le hs
  have hkp : k ≤ pages.length := Nat.le_of_mul_le_mul_right (hk.trans hle) hs
  have heq : slots.take (k * size) = pageSlots size (pages.take k) := by
    rw [h.slots_eq, List.take_take, min_eq_left hk, take_pageSlots]
  rw [heq]
  exact whole hs _

theorem drop (hs : 0 < size) (h : Paged size slots pages) {k : ℕ} (hk : k * size ≤ slots.length) :
    Paged size (slots.drop (k * size)) (pages.drop k) := by
  have hlen : slots.length = k * size + (slots.length - k * size) := by omega
  refine ⟨?_, ?_⟩
  · rw [← drop_pageSlots, List.length_drop, ← List.drop_take, ← h.slots_eq]
  · have hcount := pageCount_mul_add hs k (slots.length - k * size)
    rw [← hlen] at hcount
    rw [List.length_drop, List.length_drop, h.length_eq, hcount, Nat.add_sub_cancel_left]

/-- The slot at a position. -/
theorem getElem?_eq (hs : 0 < size) (h : Paged size slots pages) {i : ℕ} (hi : i < slots.length) :
    ∃ p, pages[i / size]? = some p ∧ slots[i]? = some (p * size + (i % size : ℕ)) := by
  have hle := h.length_le hs
  have hdiv : i / size < pages.length := (Nat.div_lt_iff_lt_mul hs).mpr (hi.trans_le hle)
  refine ⟨pages[i / size], List.getElem?_eq_getElem hdiv, ?_⟩
  rw [h.slots_eq, List.getElem?_take_of_lt hi, getElem?_pageSlots hs,
    List.getElem?_eq_getElem hdiv, Option.map_some]

/-- **A begun page is gone on with**: the next slots follow the last one. -/
theorem fill (hs : 0 < size) (h : Paged size slots pages) {k : ℕ} {last : ℤ}
    (hk : slots.length + k ≤ pageCount size slots.length * size)
    (hlast : slots.length % size ≠ 0 → slots.getLast? = some last) :
    Paged size (slots ++ (List.range k).map fun j : ℕ => last + 1 + j) pages := by
  rcases Nat.eq_zero_or_pos k with rfl | hkpos
  · simpa using h
  have hlen := h.length_le hs
  have hdm := Nat.div_add_mod' slots.length size
  have hmodlt := Nat.mod_lt slots.length hs
  -- a page that is not begun is not gone on with
  have hcount := pageCount_mul_add hs (slots.length / size) (slots.length % size)
  rw [hdm] at hcount
  have hmod : slots.length % size ≠ 0 := by
    intro hz
    rw [hz, pageCount_zero hs, Nat.add_zero] at hcount
    rw [hcount] at hk
    omega
  have hroom : slots.length % size + k ≤ size := by
    rw [hcount, pageCount_eq_one (Nat.pos_of_ne_zero hmod) hmodlt.le, Nat.add_mul,
      Nat.one_mul] at hk
    omega
  obtain ⟨p, hp, hslot⟩ := h.getElem?_eq hs (i := slots.length - 1) (by omega)
  have hdiv : (slots.length - 1) / size = slots.length / size := by
    rw [show slots.length - 1 = slots.length / size * size + (slots.length % size - 1) by omega,
      Nat.add_comm, Nat.add_mul_div_right _ _ hs, Nat.div_eq_of_lt (by omega), Nat.zero_add]
  have hrem : (slots.length - 1) % size = slots.length % size - 1 := by
    rw [show slots.length - 1 = slots.length / size * size + (slots.length % size - 1) by omega,
      Nat.add_comm, Nat.add_mul_mod_self_right, Nat.mod_eq_of_lt (by omega)]
  rw [hdiv] at hp
  rw [hrem, ← List.getLast?_eq_getElem?, hlast hmod, Option.some.injEq] at hslot
  have hnew : ((pageSlots size pages).drop slots.length).take k
      = (List.range k).map fun j : ℕ => last + 1 + j := by
    refine List.ext_getElem? fun i => ?_
    by_cases hi : i < k
    · have hdiv' : (slots.length + i) / size = slots.length / size := by
        rw [show slots.length + i = (slots.length % size + i) + slots.length / size * size by omega,
          Nat.add_mul_div_right _ _ hs, Nat.div_eq_of_lt (by omega), Nat.zero_add]
      have hmod' : (slots.length + i) % size = slots.length % size + i := by
        rw [show slots.length + i = (slots.length % size + i) + slots.length / size * size by omega,
          Nat.add_mul_mod_self_right, Nat.mod_eq_of_lt (by omega)]
      rw [List.getElem?_take_of_lt hi, List.getElem?_drop, getElem?_pageSlots hs, hdiv', hmod', hp,
        List.getElem?_map, List.getElem?_range hi, Option.map_some, Option.map_some, hslot]
      congr 1
      have : ((slots.length % size - 1 : ℕ) : ℤ) = (slots.length % size : ℕ) - 1 := by omega
      rw [this]
      push_cast
      ring
    · rw [List.getElem?_eq_none (by rw [List.length_take]; omega),
        List.getElem?_eq_none (by rw [List.length_map, List.length_range]; omega)]
  refine ⟨?_, ?_⟩
  · rw [List.length_append, List.length_map, List.length_range, List.take_add, hnew, ← h.slots_eq]
  · rw [List.length_append, List.length_map, List.length_range, h.length_eq]
    refine le_antisymm ((pageCount_le_iff hs).mpr ?_) ((pageCount_le_iff hs).mpr hk)
    exact (Nat.le_add_right _ k).trans (le_pageCount_mul hs _)

theorem ediv_eq (hs : 0 < size) (p : ℤ) {j : ℕ} (hj : j < size) :
    (p * size + (j : ℕ)) / (size : ℤ) = p := by
  have hpos : (0 : ℤ) < size := by exact_mod_cast hs
  rw [Int.add_comm, Int.add_mul_ediv_right _ _ hpos.ne',
    Int.ediv_eq_zero_of_lt (Int.natCast_nonneg _) (by exact_mod_cast hj), zero_add]

/-- **The slots determine the pages.** -/
theorem pagesOf_eq (hs : 0 < size) (h : Paged size slots pages) : pagesOf size slots = pages := by
  refine List.ext_getElem? fun i => ?_
  rw [pagesOf, List.getElem?_map, ← h.length_eq]
  by_cases hi : i < pages.length
  · have hpos : 0 < slots.length := by
      by_contra hc
      have hlen := h.length_eq
      rw [Nat.eq_zero_of_not_pos hc, pageCount_zero hs] at hlen
      omega
    have hlt : i * size < slots.length := by
      have h1 := pageCount_mul_lt hs hpos
      have h2 : (i + 1) * size ≤ pages.length * size := Nat.mul_le_mul_right size hi
      rw [← h.length_eq] at h1
      rw [Nat.add_mul, Nat.one_mul] at h2
      omega
    obtain ⟨p, hp, hslot⟩ := h.getElem?_eq hs hlt
    rw [Nat.mul_div_cancel _ hs] at hp
    rw [Nat.mul_mod_left] at hslot
    rw [List.getElem?_range hi, Option.map_some, hp, List.getD_eq_getElem?_getD, hslot,
      Option.getD_some, ediv_eq hs p hs]
  · rw [List.getElem?_eq_none (by simpa using not_lt.mp hi),
      List.getElem?_eq_none (not_lt.mp hi)]
    rfl

/-- The pages of the slots, as a set. -/
theorem mem_iff (hs : 0 < size) (h : Paged size slots pages) {p : ℤ} :
    p ∈ slots.map (fun s => s / (size : ℤ)) ↔ p ∈ pages := by
  constructor
  · intro hp
    obtain ⟨s, hsl, rfl⟩ := List.mem_map.mp hp
    obtain ⟨i, hi, rfl⟩ := List.mem_iff_getElem.mp hsl
    obtain ⟨q, hq, hslot⟩ := h.getElem?_eq hs hi
    rw [List.getElem?_eq_getElem hi] at hslot
    rw [Option.some.inj hslot, ediv_eq hs q (Nat.mod_lt _ hs)]
    exact List.mem_of_getElem? hq
  · intro hp
    rw [← h.pagesOf_eq hs] at hp
    obtain ⟨i, hi, rfl⟩ := List.mem_map.mp hp
    have hi' := List.mem_range.mp hi
    have hpos : 0 < slots.length := by
      by_contra hc
      rw [Nat.eq_zero_of_not_pos hc, pageCount_zero hs] at hi'
      omega
    have hlt : i * size < slots.length := by
      have h1 := pageCount_mul_lt hs hpos
      have h2 : (i + 1) * size ≤ pageCount size slots.length * size := Nat.mul_le_mul_right size hi'
      rw [Nat.add_mul, Nat.one_mul] at h2
      omega
    rw [List.getD_eq_getElem _ _ hlt]
    exact List.mem_map.mpr ⟨_, List.getElem_mem hlt, rfl⟩

/-- What a computation makes of the slots is right about the pages when they are in pages at
all. -/
theorem self (hs : 0 < size) (h : Paged size slots pages) :
    Paged size slots (HtSglang.pagesOf size slots) := by
  rw [h.pagesOf_eq hs]
  exact h

end Paged

end HtSglang
