import HtSglang.Library.Pages

/-!
# The allocators of KV slots

`TokenToKVPoolAllocator` and `PagedTokenToKVPoolAllocator` of `mem_cache/allocator/`: a list of
free pages, and a second one for pages that were released and have to be sorted in before they
are handed out again. The two classes differ in where they put what is freed and, for pages of
one slot, in nothing else.

Slots are handed out to a batch of requests at once. A request that has a page begun goes on in
it, and takes new pages for the rest (`HtSglang.Pool.Extend.slots`). What the rest of the
development uses is that the pages of each request are continued and that the pages that are
taken leave the free list (`HtSglang.Pool.Granted`).
-/

namespace HtSglang

namespace Pool

/-- The parameters of a pool of slots. -/
structure Config where
  pageSize : ℕ
  /-- The class is `PagedTokenToKVPoolAllocator`. -/
  paged : Bool
  needSort : Bool
  numPages : ℕ
  pos : 0 < pageSize
  /-- The other class has pages of one slot. -/
  token : paged = false → pageSize = 1

/-- `BaseTokenToKVPoolAllocator`. -/
structure Allocator where
  freePages : List ℤ
  releasePages : List ℤ
deriving DecidableEq

/-- A request of a batch that is extended. -/
structure Extend where
  /-- The length it has slots for. -/
  prefixLen : ℕ
  /-- The length it needs slots for. -/
  seqLen : ℕ
  /-- `last_loc`: its last slot. -/
  lastLoc : ℤ

/-- All pages an allocator has. -/
def Allocator.pages (a : Allocator) : List ℤ := a.freePages ++ a.releasePages

section Operations

variable (cfg : Config)

/-- `clear`: page 0 is kept for padding. -/
def clear : Allocator where
  freePages := (List.range cfg.numPages).map fun i : ℕ => (i : ℤ) + 1
  releasePages := []

/-- `merge_and_sort_free`. -/
def mergeAndSortFree (a : Allocator) : Allocator :=
  if a.releasePages = [] then a
  else
    { freePages := (a.freePages ++ a.releasePages).insertionSort (· ≤ ·)
      releasePages := [] }

/-- The pages that were released are sorted in when the free pages may not be enough. -/
def mergeFor (a : Allocator) (need : ℕ) : Allocator :=
  if cfg.needSort = true ∧ a.freePages.length < need then mergeAndSortFree a else a

/-- `alloc`, of both classes. -/
def alloc (a : Allocator) (needSize : ℕ) : Option (Allocator × List ℤ) :=
  let numPages := needSize / cfg.pageSize
  let a := mergeFor cfg a numPages
  if a.freePages.length < numPages then none
  else
    some ({ a with freePages := a.freePages.drop numPages },
      pageSlots cfg.pageSize (a.freePages.take numPages))

/-- `free`. -/
def free (a : Allocator) (freeIndex : List ℤ) : Allocator :=
  if freeIndex = [] then a
  else if cfg.paged then
    -- `torch.unique` sorts
    let pages := ((freeIndex.map fun s => s / (cfg.pageSize : ℤ)).dedup).insertionSort (· ≤ ·)
    if cfg.needSort then { a with releasePages := pages ++ a.releasePages }
    else { a with freePages := pages ++ a.freePages }
  else if cfg.needSort then { a with releasePages := a.releasePages ++ freeIndex }
  else { a with freePages := a.freePages ++ freeIndex }

namespace Extend

/-- The number of pages a request takes. -/
def numNewPages (e : Extend) : ℕ :=
  pageCount cfg.pageSize e.seqLen - pageCount cfg.pageSize e.prefixLen

/-- `alloc_extend_kernel`, for one request and the pages it takes. -/
def slots (e : Extend) (pages : List ℤ) : List ℤ :=
  let size := cfg.pageSize
  let numPart1 := min e.seqLen (pageCount size e.prefixLen * size) - e.prefixLen
  let part1 := (List.range numPart1).map fun j : ℕ => e.lastLoc + 1 + j
  if e.prefixLen + numPart1 = e.seqLen then part1
  else
    let numFull := e.seqLen / size - pageCount size e.prefixLen
    let part2 := pageSlots size (pages.take numFull)
    if e.prefixLen + numPart1 + numFull * size = e.seqLen then part1 ++ part2
    else
      let numPart3 := e.seqLen - e.seqLen / size * size
      let page := pages.getD (e.numNewPages cfg - 1) 0
      part1 ++ part2 ++ (List.range numPart3).map fun j : ℕ => page * size + j

/-- `alloc_decode_kernel`, for one request and the pages it takes. -/
def nextSlot (e : Extend) (pages : List ℤ) : List ℤ :=
  if e.numNewPages cfg = 0 then [e.lastLoc + 1] else [pages.getD 0 0 * cfg.pageSize]

end Extend

/-- The pages in front of the free list, request by request. -/
def handOut (make : Extend → List ℤ → List ℤ) : List Extend → List ℤ → List (List ℤ)
  | [], _ => []
  | e :: es, pages =>
    make e (pages.take (e.numNewPages cfg)) :: handOut make es (pages.drop (e.numNewPages cfg))

/-- The number of pages a batch takes. -/
def totalNewPages (es : List Extend) : ℕ := (es.map fun e => e.numNewPages cfg).sum

/-- `alloc_extend`. -/
def allocExtend (a : Allocator) (es : List Extend) : Option (Allocator × List (List ℤ)) :=
  let extendNumTokens := (es.map fun e => e.seqLen - e.prefixLen).sum
  let a := mergeFor cfg a (extendNumTokens / cfg.pageSize + es.length + 1)
  if a.freePages.length < totalNewPages cfg es then none
  else
    some ({ a with freePages := a.freePages.drop (totalNewPages cfg es) },
      handOut cfg (fun e => e.slots cfg) es a.freePages)

/-- `get_num_new_pages` with `decode`. -/
def numNewPagesDecode (es : List Extend) : ℕ :=
  es.countP fun e => e.seqLen % cfg.pageSize == 1

/-- `alloc_decode`. -/
def allocDecode (a : Allocator) (es : List Extend) : Option (Allocator × List (List ℤ)) :=
  let a := mergeFor cfg a es.length
  if a.freePages.length < numNewPagesDecode cfg es then none
  else
    some ({ a with freePages := a.freePages.drop (numNewPagesDecode cfg es) },
      handOut cfg (fun e => e.nextSlot cfg) es a.freePages)

/-- A list of slots, request by request. -/
def deal : List ℕ → List ℤ → List (List ℤ)
  | [], _ => []
  | n :: ns, slots => slots.take n :: deal ns (slots.drop n)

/-- The slots of `alloc_for_extend`: `alloc` for pages of one slot. -/
def allocForExtend (a : Allocator) (es : List Extend) : Option (Allocator × List (List ℤ)) :=
  if cfg.pageSize = 1 then
    let lens := es.map fun e => e.seqLen - e.prefixLen
    (alloc cfg a lens.sum).map fun r => (r.1, deal lens r.2)
  else allocExtend cfg a es

/-- The slots of `alloc_for_decode`, one for each request. -/
def allocForDecode (a : Allocator) (es : List Extend) : Option (Allocator × List (List ℤ)) :=
  if cfg.pageSize = 1 then
    (alloc cfg a es.length).map fun r => (r.1, deal (es.map fun _ => 1) r.2)
  else allocDecode cfg a es

end Operations

variable {cfg : Config} {a : Allocator}

/-! ### Freeing -/

theorem pages_mergeAndSortFree (a : Allocator) : (mergeAndSortFree a).pages.Perm a.pages := by
  rw [mergeAndSortFree]
  split
  · exact List.Perm.refl _
  · rw [Allocator.pages, List.append_nil]
    exact List.perm_insertionSort _ _

theorem pages_mergeFor (a : Allocator) (need : ℕ) : (mergeFor cfg a need).pages.Perm a.pages := by
  rw [mergeFor]
  split
  · exact pages_mergeAndSortFree a
  · exact List.Perm.refl _

/-- **What is freed is there again**, when no page is freed twice. -/
theorem pages_free {slots pages : List ℤ} (h : Paged cfg.pageSize slots pages)
    (hn : pages.Nodup) (a : Allocator) : (free cfg a slots).pages.Perm (pages ++ a.pages) := by
  rw [free]
  split
  · next hnil =>
    have hlen := h.length_eq
    rw [hnil, List.length_nil, pageCount_zero cfg.pos] at hlen
    rw [List.length_eq_zero_iff.mp hlen, List.nil_append]
  split
  · have hp : (((slots.map fun s => s / (cfg.pageSize : ℤ)).dedup).insertionSort (· ≤ ·)).Perm
        pages := by
      refine (List.perm_insertionSort _ _).trans ?_
      refine (List.perm_ext_iff_of_nodup (List.nodup_dedup _) hn).mpr fun p => ?_
      rw [List.mem_dedup, h.mem_iff cfg.pos]
    dsimp only
    split
    · refine (List.perm_append_comm_assoc _ _ _).trans ?_
      exact hp.append_right _
    · rw [Allocator.pages, List.append_assoc]
      exact hp.append_right _
  · next hpaged =>
    have hone := cfg.token (by simpa using hpaged)
    have hslots : slots = pages := by
      rw [hone] at h
      rw [h.eq_pageSlots Nat.one_pos (one_dvd _), pageSlots_one]
    rw [hslots]
    split
    · rw [Allocator.pages, ← List.append_assoc]
      exact List.perm_append_comm
    · rw [Allocator.pages, List.append_assoc]
      exact List.perm_append_comm_assoc _ _ _

/-- What is freed is there again, by counting. -/
theorem coe_pages_free (cfg : Config) {slots : List ℤ} (h : ∃ pages, Paged cfg.pageSize slots pages)
    (hn : (pagesOf cfg.pageSize slots).Nodup) (a : Allocator) :
    ((free cfg a slots).pages : Multiset ℤ) = pagesOf cfg.pageSize slots + a.pages := by
  obtain ⟨pages, hp⟩ := h
  rw [Multiset.coe_add, Multiset.coe_eq_coe]
  exact pages_free (hp.self cfg.pos) hn a

/-- Freeing several times. -/
theorem coe_pages_foldl_free (cfg : Config) {slots : List (List ℤ)}
    (h : ∀ v ∈ slots, ∃ pages, Paged cfg.pageSize v pages)
    (hn : (slots.map fun v => (pagesOf cfg.pageSize v : Multiset ℤ)).sum.Nodup) (a : Allocator) :
    ((slots.foldl (free cfg) a).pages : Multiset ℤ)
      = (slots.map fun v => (pagesOf cfg.pageSize v : Multiset ℤ)).sum + a.pages := by
  induction slots generalizing a with
  | nil => simp
  | cons v slots ih =>
    rw [List.map_cons, List.sum_cons] at hn ⊢
    have hv := Multiset.coe_nodup.mp (Multiset.nodup_of_le (Multiset.le_add_right _ _) hn)
    rw [List.foldl_cons, ih (fun w hw => h w (List.mem_cons_of_mem _ hw))
      (Multiset.nodup_of_le (Multiset.le_add_left _ _) hn),
      coe_pages_free cfg (h v List.mem_cons_self) hv]
    abel

/-! ### Handing out -/

/-- Lengths that end at the same place in a page. -/
theorem pageCount_eq_of_mod {size m n : ℕ} (hs : 0 < size) (h : m % size = n % size) :
    pageCount size m + n / size = pageCount size n + m / size := by
  have hm := pageCount_mul_add hs (m / size) (m % size)
  have hn := pageCount_mul_add hs (n / size) (n % size)
  rw [Nat.div_add_mod'] at hm hn
  rw [hm, hn, h]
  omega

/-- **The request goes on where its slots end**: it knows how far they reach into their last page,
and its last slot when that page is not full. -/
structure Extend.Continues (cfg : Config) (e : Extend) (slots : List ℤ) : Prop where
  mod_eq : slots.length % cfg.pageSize = e.prefixLen % cfg.pageSize
  last : slots.length % cfg.pageSize ≠ 0 → slots.getLast? = some e.lastLoc
  le : e.prefixLen ≤ e.seqLen

/-- **Slots are granted to a batch**: everybody who asked for some gets as many, and their pages
are continued by the pages that leave the free list. -/
inductive Granted (size : ℕ) : List (List ℤ × ℕ) → List ℤ → List (List ℤ) → List ℤ → Prop
  /-- Nobody asks. -/
  | nil (free : List ℤ) : Granted size [] free [] free
  /-- One more request. -/
  | cons {slots out new free rest : List ℤ} {n : ℕ} {asked : List (List ℤ × ℕ)}
      {outs : List (List ℤ)} (hlen : out.length = n)
      (hout : ∀ pages, Paged size slots pages → Paged size (slots ++ out) (pages ++ new))
      (h : Granted size asked free outs rest) :
      Granted size ((slots, n) :: asked) (new ++ free) (out :: outs) rest

namespace Extend

variable {e : Extend} {slots new : List ℤ}

theorem numNewPages_eq_pageCount
    (h : pageCount cfg.pageSize e.prefixLen * cfg.pageSize ≤ e.seqLen) :
    e.numNewPages cfg
      = pageCount cfg.pageSize (e.seqLen - pageCount cfg.pageSize e.prefixLen * cfg.pageSize) := by
  have := pageCount_mul_add cfg.pos (pageCount cfg.pageSize e.prefixLen)
    (e.seqLen - pageCount cfg.pageSize e.prefixLen * cfg.pageSize)
  rw [Nat.add_sub_cancel' h] at this
  rw [numNewPages, this, Nat.add_sub_cancel_left]

/-- **What a request gets**: the rest of the page it has begun, and then its new pages from the
start. -/
theorem slots_eq (hle : e.prefixLen ≤ e.seqLen) (hnew : new.length = e.numNewPages cfg) :
    e.slots cfg new = (List.range (min e.seqLen
        (pageCount cfg.pageSize e.prefixLen * cfg.pageSize) - e.prefixLen)).map
          (fun j : ℕ => e.lastLoc + 1 + j) ++
      (pageSlots cfg.pageSize new).take
        (e.seqLen - pageCount cfg.pageSize e.prefixLen * cfg.pageSize) := by
  have hpre := le_pageCount_mul cfg.pos e.prefixLen
  rw [slots]
  dsimp only
  generalize hc : pageCount cfg.pageSize e.prefixLen = c at *
  split
  · next h1 =>
    have hzero : e.seqLen - c * cfg.pageSize = 0 := by omega
    rw [hzero, List.take_zero, List.append_nil]
  next h1 =>
  have hlt : c * cfg.pageSize < e.seqLen := by omega
  generalize hk : e.seqLen - c * cfg.pageSize = k at *
  have hseq : e.seqLen = k + c * cfg.pageSize := by omega
  have hdm := Nat.div_add_mod' k cfg.pageSize
  have hfull : e.seqLen / cfg.pageSize - c = k / cfg.pageSize := by
    rw [hseq, Nat.add_mul_div_right _ _ cfg.pos, Nat.add_sub_cancel]
  rw [hfull, ← take_pageSlots]
  split
  · next h2 =>
    have : k = k / cfg.pageSize * cfg.pageSize := by omega
    rw [← this]
  next h2 =>
  have hmod : 0 < k % cfg.pageSize := by
    by_contra hz
    rw [hseq] at h2
    omega
  have hmodlt := Nat.mod_lt k cfg.pos
  have hcount : e.numNewPages cfg = k / cfg.pageSize + 1 := by
    have hpc := pageCount_mul_add cfg.pos (k / cfg.pageSize) (k % cfg.pageSize)
    rw [hdm] at hpc
    rw [numNewPages_eq_pageCount (by rw [hc]; exact hlt.le), hc, hk, hpc,
      pageCount_eq_one hmod hmodlt.le]
  have hlast : k / cfg.pageSize < new.length := by omega
  have hpart3 : e.seqLen - e.seqLen / cfg.pageSize * cfg.pageSize = k % cfg.pageSize := by
    have := Nat.div_add_mod' e.seqLen cfg.pageSize
    have hm : e.seqLen % cfg.pageSize = k % cfg.pageSize := by
      rw [hseq, Nat.add_mul_mod_self_right]
    omega
  rw [hpart3, hcount, Nat.add_sub_cancel, List.getD_eq_getElem _ _ hlast, List.append_assoc]
  congr 1
  conv_rhs => rw [← hdm, List.take_add, drop_pageSlots, List.drop_eq_getElem_cons hlast,
    pageSlots_cons]
  congr 1
  rw [List.take_append_of_le_length (by rw [List.length_map, List.length_range]; omega),
    ← List.map_take, List.take_range, min_eq_left hmodlt.le]

/-- **A request's pages are continued.** -/
theorem paged_slots (hc : e.Continues cfg slots) (hnew : new.length = e.numNewPages cfg)
    {pages : List ℤ} (h : Paged cfg.pageSize slots pages) :
    Paged cfg.pageSize (slots ++ e.slots cfg new) (pages ++ new) := by
  have hpre := le_pageCount_mul cfg.pos e.prefixLen
  have hmod := pageCount_eq_of_mod cfg.pos hc.mod_eq
  have hd1 := Nat.div_add_mod' slots.length cfg.pageSize
  have hd2 := Nat.div_add_mod' e.prefixLen cfg.pageSize
  -- both are as far from the end of their page
  have hgap : pageCount cfg.pageSize slots.length * cfg.pageSize + e.prefixLen
      = pageCount cfg.pageSize e.prefixLen * cfg.pageSize + slots.length := by
    have := congrArg (· * cfg.pageSize) hmod
    simp only [Nat.add_mul] at this
    have := hc.mod_eq
    omega
  have hle := hc.le
  rw [slots_eq hle hnew, ← List.append_assoc]
  by_cases hroom : e.seqLen ≤ pageCount cfg.pageSize e.prefixLen * cfg.pageSize
  · have hzero : new = [] := by
      rw [← List.length_eq_zero_iff, hnew, numNewPages]
      exact Nat.sub_eq_zero_of_le ((pageCount_le_iff cfg.pos).mpr hroom)
    rw [hzero, List.append_nil, Nat.sub_eq_zero_of_le hroom, List.take_zero, List.append_nil]
    exact h.fill cfg.pos (by omega) hc.last
  · have hlt := not_le.mp hroom
    refine Paged.append cfg.pos (h.fill cfg.pos (by omega) hc.last) ?_
      (Paged.first cfg.pos (hnew.trans (numNewPages_eq_pageCount hlt.le)))
    rw [List.length_append, List.length_map, List.length_range, min_eq_right hlt.le]
    refine ⟨pageCount cfg.pageSize slots.length, ?_⟩
    rw [Nat.mul_comm cfg.pageSize]
    omega

theorem length_slots (hle : e.prefixLen ≤ e.seqLen) (hnew : new.length = e.numNewPages cfg) :
    (e.slots cfg new).length = e.seqLen - e.prefixLen := by
  have hpre := le_pageCount_mul cfg.pos e.prefixLen
  rw [slots_eq hle hnew, List.length_append, List.length_map, List.length_range, List.length_take,
    length_pageSlots, hnew]
  by_cases hroom : e.seqLen ≤ pageCount cfg.pageSize e.prefixLen * cfg.pageSize
  · rw [Nat.sub_eq_zero_of_le hroom]
    omega
  · have hlt := not_le.mp hroom
    rw [numNewPages_eq_pageCount hlt.le]
    have := le_pageCount_mul cfg.pos
      (e.seqLen - pageCount cfg.pageSize e.prefixLen * cfg.pageSize)
    omega

theorem numNewPages_next (hnext : e.seqLen = e.prefixLen + 1) :
    e.numNewPages cfg = if e.prefixLen % cfg.pageSize = 0 then 1 else 0 := by
  have hpos := cfg.pos
  have hdm := Nat.div_add_mod' e.prefixLen cfg.pageSize
  have hmodlt := Nat.mod_lt e.prefixLen hpos
  have hpc := pageCount_mul_add hpos (e.prefixLen / cfg.pageSize) (e.prefixLen % cfg.pageSize)
  have hpc' := pageCount_mul_add hpos (e.prefixLen / cfg.pageSize) (e.prefixLen % cfg.pageSize + 1)
  rw [← Nat.add_assoc, hdm, pageCount_eq_one (Nat.succ_pos _) hmodlt] at hpc'
  rw [hdm] at hpc
  rw [numNewPages, hnext, hpc', hpc]
  split
  · next hz =>
    rw [hz, pageCount_zero hpos]
    exact Nat.add_sub_cancel_left _ _
  · next hz => rw [pageCount_eq_one (Nat.pos_of_ne_zero hz) hmodlt.le, Nat.sub_self]

/-- The slot of a decode step is that of an extension by one. -/
theorem nextSlot_eq (hnext : e.seqLen = e.prefixLen + 1) (hnew : new.length = e.numNewPages cfg) :
    e.nextSlot cfg new = e.slots cfg new := by
  have hpos := cfg.pos
  have hle : e.prefixLen ≤ e.seqLen := by omega
  rw [slots_eq hle hnew, nextSlot]
  have hpre := le_pageCount_mul hpos e.prefixLen
  split
  · next hz =>
    have hroom : e.seqLen ≤ pageCount cfg.pageSize e.prefixLen * cfg.pageSize := by
      rw [← pageCount_le_iff hpos]
      exact Nat.le_of_sub_eq_zero hz
    rw [Nat.sub_eq_zero_of_le hroom, List.take_zero, List.append_nil, min_eq_left hroom,
      show e.seqLen - e.prefixLen = 1 by omega]
    simp
  · next hnz =>
    have hroom : ¬e.seqLen ≤ pageCount cfg.pageSize e.prefixLen * cfg.pageSize := by
      rw [← pageCount_le_iff hpos]
      exact fun hc => hnz (Nat.sub_eq_zero_of_le hc)
    have heq : e.prefixLen = pageCount cfg.pageSize e.prefixLen * cfg.pageSize := by omega
    have hlen : new.length = 1 := by
      rw [hnew, numNewPages_next hnext]
      rw [numNewPages_next hnext] at hnz
      split
      · rfl
      · next hc => rw [if_neg hc] at hnz; exact absurd rfl hnz
    obtain ⟨p, rfl⟩ := List.length_eq_one_iff.mp hlen
    obtain ⟨m, hm⟩ : ∃ m, cfg.pageSize = m + 1 := ⟨cfg.pageSize - 1, by omega⟩
    rw [← heq, min_eq_right hle, Nat.sub_self, hnext, Nat.add_sub_cancel_left, pageSlots_cons, hm,
      List.range_succ_eq_map]
    simp

end Extend

/-! ### Batches -/

/-- What the requests of a batch ask for. -/
def Asks (cfg : Config) (es : List Extend) (asked : List (List ℤ × ℕ)) : Prop :=
  List.Forall₂ (fun e a => e.Continues cfg a.1 ∧ a.2 = e.seqLen - e.prefixLen) es asked

variable {es : List Extend} {asked : List (List ℤ × ℕ)}

theorem Asks.lens (h : Asks cfg es asked) :
    (es.map fun e => e.seqLen - e.prefixLen) = asked.map Prod.snd := by
  induction h with
  | nil => rfl
  | cons hea _ ih => rw [List.map_cons, List.map_cons, ih, hea.2]

theorem handOut_granted (h : Asks cfg es asked) (pages : List ℤ)
    (hle : totalNewPages cfg es ≤ pages.length) :
    Granted cfg.pageSize asked pages (handOut cfg (fun e => e.slots cfg) es pages)
      (pages.drop (totalNewPages cfg es)) := by
  induction h generalizing pages with
  | nil => exact .nil pages
  | @cons e a es asked hea h ih =>
    have htotal : totalNewPages cfg (e :: es) = e.numNewPages cfg + totalNewPages cfg es := rfl
    rw [htotal] at hle ⊢
    have hnew : (pages.take (e.numNewPages cfg)).length = e.numNewPages cfg := by
      rw [List.length_take]
      omega
    have hrest := ih (pages.drop (e.numNewPages cfg)) (by rw [List.length_drop]; omega)
    rw [List.drop_drop] at hrest
    have hcons : Granted cfg.pageSize (a :: asked) (pages.take (e.numNewPages cfg) ++ _) _ _ :=
      .cons ((Extend.length_slots hea.1.le hnew).trans hea.2.symm)
        (fun P hP => Extend.paged_slots hea.1 hnew hP) hrest
    rw [List.take_append_drop] at hcons
    exact hcons

/-- Handing out depends on what the requests are given only. -/
theorem handOut_congr {make make' : Extend → List ℤ → List ℤ} {pages : List ℤ}
    (h : ∀ e ∈ es, ∀ new : List ℤ, new.length = e.numNewPages cfg → make e new = make' e new)
    (hle : totalNewPages cfg es ≤ pages.length) :
    handOut cfg make es pages = handOut cfg make' es pages := by
  induction es generalizing pages with
  | nil => rfl
  | cons e es ih =>
    have htotal : totalNewPages cfg (e :: es) = e.numNewPages cfg + totalNewPages cfg es := rfl
    rw [htotal] at hle
    rw [handOut, handOut, h e List.mem_cons_self _ (by rw [List.length_take]; omega),
      ih (fun e he => h e (List.mem_cons_of_mem _ he)) (by rw [List.length_drop]; omega)]

/-- Only what is dealt out matters. -/
theorem deal_take {lens : List ℕ} {m : ℕ} {slots : List ℤ} (hle : lens.sum ≤ m) :
    deal lens (slots.take m) = deal lens slots := by
  induction lens generalizing m slots with
  | nil => rfl
  | cons n lens ih =>
    rw [List.sum_cons] at hle
    rw [deal, deal, List.take_take, min_eq_left (by omega), List.drop_take, ih (by omega)]

/-- Pages of one slot are dealt out. -/
theorem deal_granted (asked : List (List ℤ × ℕ)) (slots : List ℤ)
    (hle : (asked.map Prod.snd).sum ≤ slots.length) :
    Granted 1 asked slots (deal (asked.map Prod.snd) slots)
      (slots.drop (asked.map Prod.snd).sum) := by
  induction asked generalizing slots with
  | nil => exact .nil slots
  | cons a asked ih =>
    rw [List.map_cons, List.sum_cons] at hle ⊢
    have hrest := ih (slots.drop a.2) (by rw [List.length_drop]; omega)
    rw [List.drop_drop] at hrest
    have hout : Paged 1 (slots.take a.2) (slots.take a.2) := by
      have := Paged.whole Nat.one_pos (slots.take a.2)
      rwa [pageSlots_one] at this
    have hcons : Granted 1 (a :: asked) (slots.take a.2 ++ _) (slots.take a.2 :: _) _ :=
      .cons (by rw [List.length_take]; omega)
        (fun P hP => hP.append Nat.one_pos (one_dvd _) hout) hrest
    rw [List.take_append_drop] at hcons
    exact hcons

theorem numNewPagesDecode_eq (hsize : cfg.pageSize ≠ 1)
    (hnext : ∀ e ∈ es, e.seqLen = e.prefixLen + 1) :
    numNewPagesDecode cfg es = totalNewPages cfg es := by
  have hpos := cfg.pos
  induction es with
  | nil => rfl
  | cons e es ih =>
    have hmod : (e.prefixLen + 1) % cfg.pageSize = 1 ↔ e.prefixLen % cfg.pageSize = 0 := by
      have hlt := Nat.mod_lt e.prefixLen hpos
      rw [Nat.add_mod, Nat.mod_eq_of_lt (show 1 < cfg.pageSize by omega)]
      by_cases hfull : e.prefixLen % cfg.pageSize + 1 = cfg.pageSize
      · rw [hfull, Nat.mod_self]
        omega
      · rw [Nat.mod_eq_of_lt (by omega)]
        omega
    have htotal : totalNewPages cfg (e :: es) = e.numNewPages cfg + totalNewPages cfg es := rfl
    rw [htotal, ← ih fun e he => hnext e (List.mem_cons_of_mem _ he),
      Extend.numNewPages_next (hnext e List.mem_cons_self), numNewPagesDecode, List.countP_cons,
      Nat.add_comm]
    congr 1
    simp only [beq_iff_eq, hnext e List.mem_cons_self, hmod]

/-- **What a successful allocation for a batch is.** -/
structure Allocates (cfg : Config) (a : Allocator) (asked : List (List ℤ × ℕ)) (a' : Allocator)
    (outs : List (List ℤ)) (pages : List ℤ) : Prop where
  /-- The pages there were. -/
  before : (pages ++ a'.releasePages).Perm a.pages
  /-- The slots. -/
  granted : Granted cfg.pageSize asked pages outs a'.freePages

theorem alloc_allocates (hone : cfg.pageSize = 1) {lens : List ℕ}
    (hlens : lens = asked.map Prod.snd)
    {a' : Allocator} {slots : List ℤ} (h : alloc cfg a lens.sum = some (a', slots)) :
    ∃ pages, Allocates cfg a asked a' (deal lens slots) pages := by
  rw [alloc] at h
  simp only [hone, Nat.div_one] at h
  split at h
  · cases h
  next hle =>
  have hle := not_lt.mp hle
  obtain ⟨rfl, rfl⟩ := Prod.mk.inj (Option.some.inj h)
  refine ⟨(mergeFor cfg a lens.sum).freePages, pages_mergeFor a _, ?_⟩
  have hgranted := deal_granted asked (mergeFor cfg a lens.sum).freePages
    (by rw [← hlens]; exact hle)
  rw [← hlens] at hgranted
  rw [pageSlots_one, hone, deal_take le_rfl]
  exact hgranted

/-- **Extending a batch.** -/
theorem allocForExtend_allocates (h : Asks cfg es asked) {a' : Allocator} {outs : List (List ℤ)}
    (hok : allocForExtend cfg a es = some (a', outs)) :
    ∃ pages, Allocates cfg a asked a' outs pages := by
  rw [allocForExtend] at hok
  split at hok
  · next hone =>
    obtain ⟨⟨a₁, slots⟩, halloc, heq⟩ := Option.map_eq_some_iff.mp hok
    obtain ⟨rfl, rfl⟩ := Prod.mk.inj heq
    refine alloc_allocates hone ?_ halloc
    exact h.lens
  · rw [allocExtend] at hok
    split at hok
    · cases hok
    next hle =>
    obtain ⟨rfl, rfl⟩ := Prod.mk.inj (Option.some.inj hok)
    exact ⟨_, pages_mergeFor a _, handOut_granted h _ (not_lt.mp hle)⟩

/-- **A decode step of a batch**, one slot for everybody. -/
theorem allocForDecode_allocates (h : Asks cfg es asked)
    (hnext : ∀ e ∈ es, e.seqLen = e.prefixLen + 1) {a' : Allocator} {outs : List (List ℤ)}
    (hok : allocForDecode cfg a es = some (a', outs)) :
    ∃ pages, Allocates cfg a asked a' outs pages := by
  have hlens : (es.map fun _ => 1) = asked.map Prod.snd := by
    rw [← h.lens]
    refine List.map_congr_left fun e he => ?_
    rw [hnext e he, Nat.add_sub_cancel_left]
  rw [allocForDecode] at hok
  split at hok
  · next hone =>
    obtain ⟨⟨a₁, slots⟩, halloc, heq⟩ := Option.map_eq_some_iff.mp hok
    obtain ⟨rfl, rfl⟩ := Prod.mk.inj heq
    refine alloc_allocates hone hlens ?_
    rw [List.map_const', List.sum_replicate, smul_eq_mul, Nat.mul_one]
    exact halloc
  · next hsize =>
    rw [allocDecode] at hok
    split at hok
    · cases hok
    next hle =>
    have hle := not_lt.mp hle
    rw [numNewPagesDecode_eq hsize hnext] at hle hok
    obtain ⟨rfl, rfl⟩ := Prod.mk.inj (Option.some.inj hok)
    refine ⟨_, pages_mergeFor a _, ?_⟩
    rw [handOut_congr (fun e he new hnew => Extend.nextSlot_eq (hnext e he) hnew) hle]
    exact handOut_granted h _ hle

/-! ### When there are enough pages -/

/-- Pages wait to be sorted in only where pages are sorted. -/
def Allocator.Tidy (cfg : Config) (a : Allocator) : Prop :=
  cfg.needSort = false → a.releasePages = []

theorem Allocator.Tidy.free (h : a.Tidy cfg) (slots : List ℤ) :
    (Pool.free cfg a slots).Tidy cfg := by
  intro hsort
  simp only [Pool.free, hsort, Bool.false_eq_true, if_false]
  split
  · exact h hsort
  split
  · exact h hsort
  · exact h hsort

theorem Allocator.Tidy.foldl_free (h : a.Tidy cfg) (slots : List (List ℤ)) :
    (slots.foldl (Pool.free cfg) a).Tidy cfg := by
  induction slots generalizing a with
  | nil => exact h
  | cons v slots ih => exact ih (h.free v)

theorem Allocator.Tidy.mergeFor (h : a.Tidy cfg) (need : ℕ) :
    (Pool.mergeFor cfg a need).Tidy cfg := by
  intro hsort
  simp only [Pool.mergeFor, hsort, Bool.false_eq_true, false_and, if_false]
  exact h hsort

/-- Either the pages that were released are sorted in, or there were enough without them. -/
theorem Allocator.Tidy.le_mergeFor (h : a.Tidy cfg) {need n : ℕ} (hn : n ≤ need)
    (hle : n ≤ a.pages.length) : n ≤ (Pool.mergeFor cfg a need).freePages.length := by
  rw [Pool.mergeFor]
  split
  · rw [mergeAndSortFree]
    split
    · next hnil =>
      rwa [Allocator.pages, hnil, List.append_nil] at hle
    · rwa [List.length_insertionSort]
  · next hmerge =>
    by_cases hsort : cfg.needSort = true
    · have := not_lt.mp fun hc => hmerge ⟨hsort, hc⟩
      omega
    · rwa [Allocator.pages, h (Bool.eq_false_iff.mpr hsort), List.append_nil] at hle

/-- Taking pages from the free list. -/
theorem Allocator.Tidy.drop (h : a.Tidy cfg) {n : ℕ} (hle : n ≤ a.freePages.length) :
    (Allocator.mk (a.freePages.drop n) a.releasePages).pages.length + n = a.pages.length ∧
      (Allocator.mk (a.freePages.drop n) a.releasePages).Tidy cfg := by
  refine ⟨?_, h⟩
  rw [Allocator.pages, Allocator.pages, List.length_append, List.length_append, List.length_drop]
  dsimp only
  omega

theorem pageCount_one (n : ℕ) : pageCount 1 n = n := by
  rw [pageCount, Nat.add_sub_cancel, Nat.div_one]

/-- The estimate of `alloc_extend` is enough. -/
theorem Extend.numNewPages_le (e : Extend) :
    e.numNewPages cfg ≤ (e.seqLen - e.prefixLen) / cfg.pageSize + 1 := by
  have hpre := le_pageCount_mul cfg.pos e.prefixLen
  have hrest := Nat.lt_div_mul_add (a := e.seqLen - e.prefixLen) cfg.pos
  have hseq : pageCount cfg.pageSize e.seqLen
      ≤ pageCount cfg.pageSize e.prefixLen + ((e.seqLen - e.prefixLen) / cfg.pageSize + 1) := by
    rw [pageCount_le_iff cfg.pos, Nat.add_mul, Nat.add_mul, Nat.one_mul]
    omega
  exact Nat.sub_le_iff_le_add'.mpr hseq

/-- **A request is served when there are as many pages as it takes**, and takes that many. -/
theorem Allocator.Tidy.allocForExtend (h : a.Tidy cfg) (e : Extend)
    (hle : e.numNewPages cfg ≤ a.pages.length) :
    ∃ a' out, Pool.allocForExtend cfg a [e] = some (a', out) ∧
      a'.pages.length + e.numNewPages cfg = a.pages.length ∧ a'.Tidy cfg := by
  rw [Pool.allocForExtend]
  split
  · next hone =>
    have hnum : e.numNewPages cfg = e.seqLen - e.prefixLen := by
      rw [Extend.numNewPages, hone, pageCount_one, pageCount_one]
    rw [hnum] at hle ⊢
    have hfree := h.le_mergeFor le_rfl hle
    obtain ⟨hlen, htidy⟩ := (h.mergeFor (e.seqLen - e.prefixLen)).drop hfree
    refine ⟨_, deal [e.seqLen - e.prefixLen] (pageSlots cfg.pageSize
      ((Pool.mergeFor cfg a (e.seqLen - e.prefixLen)).freePages.take (e.seqLen - e.prefixLen))), ?_,
      hlen.trans (pages_mergeFor a _).length_eq, htidy⟩
    simp only [List.map_cons, List.map_nil, List.sum_cons, List.sum_nil, Nat.add_zero, alloc, hone,
      Nat.div_one, if_neg (not_lt.mpr hfree), Option.map_some]
  · have htotal : totalNewPages cfg [e] = e.numNewPages cfg := Nat.add_zero _
    have hfree := h.le_mergeFor
      (Nat.le_succ_of_le e.numNewPages_le : _ ≤ (e.seqLen - e.prefixLen) / cfg.pageSize + 1 + 1) hle
    obtain ⟨hlen, htidy⟩ := (h.mergeFor _).drop hfree
    refine ⟨_, handOut cfg (fun e => e.slots cfg) [e] (Pool.mergeFor cfg a
      ((e.seqLen - e.prefixLen) / cfg.pageSize + 1 + 1)).freePages, ?_,
      hlen.trans (pages_mergeFor a _).length_eq, htidy⟩
    simp only [allocExtend, List.map_cons, List.map_nil, List.sum_cons, List.sum_nil, Nat.add_zero,
      List.length_cons, List.length_nil, Nat.zero_add, htotal, if_neg (not_lt.mpr hfree)]

end Pool

end HtSglang
