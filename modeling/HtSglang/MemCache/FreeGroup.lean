import HtSglang.Library.Loop
import HtSglang.Library.OpRun
import HtSglang.MemCache.PageAllocator

/-!
# Free groups

`BaseTokenToKVPoolAllocator` (`mem_cache/allocator/base.py`) lets its users open a window in which
what is freed is staged instead of being put into the free list, to be put there all at once when
the window is closed. Windows are opened in windows, are left open, and are closed twice; and what
is staged can be applied early (`HtSglang.FreeGroup.State.flushFreeGroup`), or when nobody has
closed the window for too long (`HtSglang.FreeGroup.State.reclaimAbandonedFreeGroup`). Besides, the
free list is reordered so that slots of one class are handed out first
(`HtSglang.FreeGroup.State.setOwnerBias`).

Nothing is staged while no window is open (`HtSglang.FreeGroup.Inv.closed`): this is why a new
window may start with an empty list. The other operations move pages between the lists
(`HtSglang.FreeGroup.Moves`), or hand some out. What was ever freed, handed out and added is written
down beside the allocator (`HtSglang.FreeGroup.Run`), and `HtSglang.FreeGroup.frees_applied_once` is
the balance.

It is a balance of pages, and there is one thing to know about it. The allocator with pages looks at
the pages of all that is staged at once and puts each of them into the list once, so a page that is
staged by two calls is there once, although it would be there twice without the window.
-/

namespace HtSglang

namespace FreeGroup

open Pool (Config Allocator)

/-! ### The code -/

/-- `BaseTokenToKVPoolAllocator`. -/
structure State where
  /-- `free_pages` and `release_pages`. -/
  pool : Allocator
  isNotInFreeGroup : Bool
  freeGroup : List (List ℤ)
  ownerBias : Option (ℤ × ℤ × ℤ)
  size : ℕ

/-- The pages from one number to another, the first not included. -/
def pageIds (first last : ℕ) : List ℤ := (List.range' (first + 1) (last - first)).map Nat.cast

/-- A residue class of pages. -/
def inClass (mod lo hi page : ℤ) : Bool := lo ≤ page % mod ∧ page % mod < hi

namespace State

/-- The constructor, with `clear`. -/
def init (cfg : Config) (size : ℕ) : State where
  pool := ⟨pageIds 0 (size / cfg.pageSize), []⟩
  isNotInFreeGroup := true
  freeGroup := []
  ownerBias := none
  size := size

/-- `free`. -/
def free (cfg : Config) (s : State) (freeIndex : List ℤ) : State :=
  if freeIndex = [] then s
  else if s.isNotInFreeGroup then { s with pool := Pool.free cfg s.pool freeIndex }
  else { s with freeGroup := s.freeGroup ++ [freeIndex] }

/-- `_apply_free_group`. -/
def applyFreeGroup (cfg : Config) (s : State) : ℕ × State :=
  if s.freeGroup = [] then (0, s)
  else ((s.freeGroup.map List.length).sum,
    State.free cfg { s with freeGroup := [] } s.freeGroup.flatten)

/-- `reclaim_abandoned_free_group`. -/
def reclaimAbandonedFreeGroup (cfg : Config) (s : State) : ℕ × State :=
  if s.isNotInFreeGroup = true ∨ s.freeGroup = [] then (0, s)
  else applyFreeGroup cfg { s with isNotInFreeGroup := true }

/-- `free_group_begin`. -/
def freeGroupBegin (cfg : Config) (s : State) : State :=
  { (s.reclaimAbandonedFreeGroup cfg).2 with isNotInFreeGroup := false, freeGroup := [] }

/-- `free_group_end`. -/
def freeGroupEnd (cfg : Config) (s : State) : State :=
  (applyFreeGroup cfg { s with isNotInFreeGroup := true }).2

/-- `flush_free_group`. -/
def flushFreeGroup (cfg : Config) (s : State) : ℕ × State :=
  if s.isNotInFreeGroup = true ∨ s.freeGroup = [] then (0, s)
  else
    let applied := State.free cfg { s with isNotInFreeGroup := true, freeGroup := [] }
      s.freeGroup.flatten
    ((s.freeGroup.map List.length).sum, { applied with isNotInFreeGroup := false })

/-- `_apply_owner_bias`. -/
def applyOwnerBias (s : State) : ℕ × State :=
  match s.ownerBias with
  | none => (0, s)
  | some (mod, lo, hi) =>
    if ¬s.isNotInFreeGroup then (0, s)
    else
      let pool := Pool.mergeAndSortFree s.pool
      let n := pool.freePages.countP (inClass mod lo hi)
      if n = 0 ∨ n = pool.freePages.length then (n, { s with pool := pool })
      else
        let promoted := pool.freePages.filter (inClass mod lo hi)
        let others := pool.freePages.filter fun p => !inClass mod lo hi p
        (n, { s with pool := { pool with freePages := promoted ++ others } })

/-- `set_owner_bias`. -/
def setOwnerBias (cfg : Config) (s : State) (bias : Option (ℤ × ℤ × ℤ)) :
    Except String (ℕ × State) :=
  match bias with
  | none => .ok (applyOwnerBias { s with ownerBias := none })
  | some (mod, lo, hi) =>
    if mod ≤ 0 ∨ ¬(0 ≤ lo ∧ lo < hi ∧ hi ≤ mod) then
      .error "owner bias is not a class of a block"
    else if cfg.pageSize ≠ 1 then .error "owner bias requires page_size == 1"
    else .ok (applyOwnerBias { s with ownerBias := some (mod, lo, hi) })

/-- `merge_and_sort_free`. -/
def mergeAndSortFree (s : State) : State :=
  let merged := { s with pool := Pool.mergeAndSortFree s.pool }
  if s.ownerBias.isSome then (applyOwnerBias merged).2 else merged

/-- `alloc`, of both classes. -/
def alloc (cfg : Config) (s : State) (needSize : ℕ) : Option (List ℤ) × State :=
  let numPages := needSize / cfg.pageSize
  let s := if cfg.needSort = true ∧ s.pool.freePages.length < numPages then s.mergeAndSortFree
    else s
  if s.pool.freePages.length < numPages then (none, s)
  else
    (some (pageSlots cfg.pageSize (s.pool.freePages.take numPages)),
      { s with pool := { s.pool with freePages := s.pool.freePages.drop numPages } })

/-- The loop of `alloc_owner_matched_classes`: what each class takes of the free list, with its
places. -/
def ownerPicks (mod : ℤ) (pages : List ℤ) :
    List ((ℤ × ℤ) × ℕ) → Option (List (List (ℤ × ℕ)))
  | [] => some []
  | ((lo, hi), need) :: classes =>
    let idxs := (pages.zipIdx.filter fun e => inClass mod lo hi e.1).take need
    if idxs.length < need then none
    else (ownerPicks mod pages classes).map (idxs :: ·)

/-- `alloc_owner_matched_classes`. -/
def allocOwnerMatchedClasses (cfg : Config) (s : State) (mod : ℤ) (classes : List ((ℤ × ℤ) × ℕ)) :
    Except String (Option (List (List ℤ)) × State) :=
  if cfg.pageSize ≠ 1 then .error "alloc_owner_matched_classes requires page_size == 1"
  else
    let s := if s.pool.releasePages = [] then s else s.mergeAndSortFree
    match ownerPicks mod s.pool.freePages classes with
    | none => .ok (none, s)
    | some picks =>
      let rest := s.pool.freePages.zipIdx.filter fun e => e ∉ picks.flatten
      .ok (some (picks.map fun idxs => idxs.map Prod.fst),
        { s with pool := { s.pool with freePages := rest.map Prod.fst } })

/-- `grow_size`. -/
def growSize (cfg : Config) (s : State) (newSize : ℕ) : Except String State :=
  if newSize < s.size then .error "below current size"
  else if newSize = s.size then .ok s
  else if newSize % cfg.pageSize ≠ 0 then .error "not a multiple of page_size"
  else
    let fresh := pageIds (s.size / cfg.pageSize) (newSize / cfg.pageSize)
    .ok { s with
      pool := { s.pool with freePages := s.pool.freePages ++ fresh }
      size := newSize }

end State

/-! ### Pages -/

section Pages

variable {cfg : Config} {s s' : State}

/-- The pages that one call of `free` frees: slots of one page are one page, for the allocator that
has pages. -/
def freedPages (cfg : Config) (freeIndex : List ℤ) : List ℤ :=
  if cfg.paged then (freeIndex.map fun slot => slot / (cfg.pageSize : ℤ)).dedup else freeIndex

/-- The pages that are staged, call by call. -/
def stagedPages (cfg : Config) (group : List (List ℤ)) : List ℤ := group.flatMap (freedPages cfg)

/-- All pages that an allocator has, in its lists and staged. -/
def State.pages (cfg : Config) (s : State) : Multiset ℤ :=
  s.pool.pages + stagedPages cfg s.freeGroup

/-- What is freed is in one of the lists. -/
theorem pages_poolFree (cfg : Config) (a : Allocator) (freeIndex : List ℤ) :
    ((Pool.free cfg a freeIndex).pages : Multiset ℤ) = a.pages + freedPages cfg freeIndex := by
  rw [Multiset.coe_add, Multiset.coe_eq_coe, Pool.free, freedPages]
  split
  · next hnil =>
    rw [hnil]
    split
    · exact List.Perm.of_eq (List.append_nil _).symm
    · exact List.Perm.of_eq (List.append_nil _).symm
  split
  · have hsorted := List.perm_insertionSort (· ≤ ·)
      (freeIndex.map fun slot => slot / (cfg.pageSize : ℤ)).dedup
    dsimp only
    split
    · rw [Allocator.pages, Allocator.pages, List.append_assoc]
      exact (List.perm_append_comm.trans (hsorted.append_left _)).append_left _
    · rw [Allocator.pages, Allocator.pages, List.append_assoc]
      exact List.perm_append_comm.trans (hsorted.append_left _)
  · split
    · rw [Allocator.pages, Allocator.pages, List.append_assoc]
    · rw [Allocator.pages, Allocator.pages, List.append_assoc, List.append_assoc]
      exact List.perm_append_comm.append_left _

/-- Of what is staged without a page twice, the pages are those of the calls. -/
theorem freedPages_flatten {group : List (List ℤ)}
    (hnodup : cfg.paged = true → (stagedPages cfg group).Nodup) :
    (freedPages cfg group.flatten).Perm (stagedPages cfg group) := by
  cases hpaged : cfg.paged with
  | false =>
    have hself : freedPages cfg = id := by
      funext freeIndex
      simp [freedPages, hpaged]
    rw [stagedPages, hself, List.flatMap_id]
    rfl
  | true =>
    refine (List.perm_ext_iff_of_nodup ?_ (hnodup hpaged)).mpr fun p => ?_
    · rw [freedPages, if_pos hpaged]
      exact List.nodup_dedup _
    · rw [stagedPages, List.mem_flatMap]
      simp only [freedPages, hpaged, if_true, List.mem_dedup, List.mem_map, List.mem_flatten]
      constructor
      · rintro ⟨slot, ⟨chunk, hchunk, hslot⟩, rfl⟩
        exact ⟨chunk, hchunk, slot, hslot, rfl⟩
      · rintro ⟨chunk, hchunk, slot, hslot, rfl⟩
        exact ⟨slot, ⟨chunk, hchunk, hslot⟩, rfl⟩

/-! ### Moving pages -/

/-- What holds between the operations. -/
structure Inv (cfg : Config) (s : State) : Prop where
  /-- Nothing is staged while no window is open. -/
  closed : s.isNotInFreeGroup = true → s.freeGroup = []
  /-- The allocator with pages has no page staged by two calls. -/
  nodup : cfg.paged = true → (stagedPages cfg s.freeGroup).Nodup

/-- **Pages are moved between the lists**, and the allocator has the same pages. -/
structure Moves (cfg : Config) (s s' : State) : Prop where
  pages : s'.pages cfg = s.pages cfg
  inv : Inv cfg s'
  size : s'.size = s.size

theorem Inv.of_freeGroup_nil (h : s.freeGroup = []) : Inv cfg s := by
  refine ⟨fun _ => h, fun _ => ?_⟩
  rw [h]
  exact List.nodup_nil

theorem Moves.refl (h : Inv cfg s) : Moves cfg s s := ⟨rfl, h, rfl⟩

theorem Moves.trans {s'' : State} (h : Moves cfg s s') (h' : Moves cfg s' s'') : Moves cfg s s'' :=
  ⟨h'.pages.trans h.pages, h'.inv, h'.size.trans h.size⟩

/-- Pages that are moved between the two lists of the pool. -/
theorem Moves.of_pool (h : Inv cfg s) {pool : Allocator}
    (hpool : pool.pages.Perm s.pool.pages) (bias : Option (ℤ × ℤ × ℤ)) :
    Moves cfg s { s with pool := pool, ownerBias := bias } := by
  refine ⟨?_, ⟨h.closed, h.nodup⟩, rfl⟩
  rw [State.pages, State.pages, Multiset.coe_eq_coe.mpr hpool]

/-- **What is staged is put into the lists.** -/
theorem pages_unstage (h : Inv cfg s) (closed : Bool) :
    State.pages cfg { s with
      pool := Pool.free cfg s.pool s.freeGroup.flatten
      isNotInFreeGroup := closed
      freeGroup := [] } = s.pages cfg := by
  rw [State.pages, State.pages, pages_poolFree,
    Multiset.coe_eq_coe.mpr (freedPages_flatten h.nodup)]
  simp [stagedPages]

/-- A free that nothing holds up, whatever is freed. -/
theorem free_of_closed (freeIndex : List ℤ) (hclosed : s.isNotInFreeGroup = true) :
    s.free cfg freeIndex = { s with pool := Pool.free cfg s.pool freeIndex } := by
  rw [State.free]
  split
  · next hnil =>
    rw [hnil, Pool.free, if_pos rfl]
  · rfl

/-- `_apply_free_group`, with the window closed. -/
theorem applyFreeGroup_closed (s : State) :
    (State.applyFreeGroup cfg { s with isNotInFreeGroup := true }).2 =
      { s with
        pool := Pool.free cfg s.pool s.freeGroup.flatten
        isNotInFreeGroup := true
        freeGroup := [] } := by
  rw [State.applyFreeGroup]
  split
  · next hnil =>
    have hnil : s.freeGroup = [] := hnil
    rw [hnil, List.flatten_nil, Pool.free, if_pos rfl]
  · exact free_of_closed _ rfl

theorem Moves.freeGroupEnd (h : Inv cfg s) : Moves cfg s (s.freeGroupEnd cfg) := by
  rw [State.freeGroupEnd, applyFreeGroup_closed]
  exact ⟨pages_unstage h true, Inv.of_freeGroup_nil rfl, rfl⟩

theorem Moves.reclaimAbandonedFreeGroup (h : Inv cfg s) :
    Moves cfg s (s.reclaimAbandonedFreeGroup cfg).2 := by
  rw [State.reclaimAbandonedFreeGroup]
  split
  · exact Moves.refl h
  · exact Moves.freeGroupEnd h

/-- **Nothing stays staged** after a window is closed, or reclaimed. -/
theorem freeGroup_freeGroupEnd (s : State) : (s.freeGroupEnd cfg).freeGroup = [] := by
  rw [State.freeGroupEnd, applyFreeGroup_closed]

theorem Inv.freeGroup_reclaim (h : Inv cfg s) :
    (s.reclaimAbandonedFreeGroup cfg).2.freeGroup = [] := by
  rw [State.reclaimAbandonedFreeGroup]
  split
  · next hcases => exact hcases.elim h.closed id
  · exact freeGroup_freeGroupEnd s

/-- A new window starts with an empty list, and the old one had nothing left in it. -/
theorem Moves.freeGroupBegin (h : Inv cfg s) : Moves cfg s (s.freeGroupBegin cfg) := by
  have hreclaim := Moves.reclaimAbandonedFreeGroup h
  have hnil := h.freeGroup_reclaim
  refine ⟨?_, Inv.of_freeGroup_nil rfl, hreclaim.size⟩
  rw [← hreclaim.pages, State.pages, State.pages, State.freeGroupBegin, hnil]

theorem Moves.flushFreeGroup (h : Inv cfg s) : Moves cfg s (s.flushFreeGroup cfg).2 := by
  rw [State.flushFreeGroup]
  split
  · exact Moves.refl h
  · simp only
    rw [free_of_closed _ rfl]
    exact ⟨pages_unstage h false, Inv.of_freeGroup_nil rfl, rfl⟩

theorem Moves.applyOwnerBias (h : Inv cfg s) : Moves cfg s s.applyOwnerBias.2 := by
  rw [State.applyOwnerBias]
  split
  · exact Moves.refl h
  next mod lo hi hbias =>
  split
  · exact Moves.refl h
  have hmerged := Pool.pages_mergeAndSortFree s.pool
  simp only
  split
  · exact Moves.of_pool h hmerged s.ownerBias
  · refine Moves.of_pool h (List.Perm.trans ?_ hmerged) s.ownerBias
    exact (List.filter_append_perm _ _).append_right _

theorem Moves.mergeAndSortFree (h : Inv cfg s) : Moves cfg s s.mergeAndSortFree := by
  have hmerged := Moves.of_pool h (Pool.pages_mergeAndSortFree s.pool) s.ownerBias
  simp only [State.mergeAndSortFree]
  split
  · exact hmerged.trans (Moves.applyOwnerBias hmerged.inv)
  · exact hmerged

theorem Moves.setOwnerBias (h : Inv cfg s) {bias : Option (ℤ × ℤ × ℤ)} {n : ℕ}
    (hok : s.setOwnerBias cfg bias = .ok (n, s')) : Moves cfg s s' := by
  have hset := fun bias => Moves.of_pool h (List.Perm.refl s.pool.pages) bias
  unfold State.setOwnerBias at hok
  split at hok
  · obtain rfl : (State.applyOwnerBias { s with ownerBias := none }).2 = s' :=
      congrArg Prod.snd (Except.ok.inj hok)
    exact (hset none).trans (Moves.applyOwnerBias (hset none).inv)
  next mod lo hi =>
  split at hok
  · cases hok
  split at hok
  · cases hok
  · obtain rfl : (State.applyOwnerBias { s with ownerBias := some (mod, lo, hi) }).2 = s' :=
      congrArg Prod.snd (Except.ok.inj hok)
    exact (hset _).trans (Moves.applyOwnerBias (hset _).inv)

/-! ### Freeing, handing out and growing -/

/-- **A free**: its pages are there, in the lists or staged. -/
theorem Inv.free (h : Inv cfg s) {freeIndex : List ℤ}
    (hnew : s.isNotInFreeGroup = false → cfg.paged = true →
      List.Disjoint (stagedPages cfg s.freeGroup) (freedPages cfg freeIndex)) :
    (s.free cfg freeIndex).pages cfg = s.pages cfg + freedPages cfg freeIndex ∧
      Inv cfg (s.free cfg freeIndex) := by
  cases hopen : s.isNotInFreeGroup with
  | true =>
    rw [free_of_closed freeIndex hopen]
    refine ⟨?_, ⟨h.closed, h.nodup⟩⟩
    rw [State.pages, State.pages, pages_poolFree, add_right_comm]
  | false =>
    rw [State.free]
    split
    · next hnil =>
      rw [hnil]
      refine ⟨?_, h⟩
      simp [freedPages]
    rw [hopen, if_neg Bool.false_ne_true]
    have hstaged : stagedPages cfg (s.freeGroup ++ [freeIndex]) =
        stagedPages cfg s.freeGroup ++ freedPages cfg freeIndex := by
      simp [stagedPages]
    refine ⟨?_, ⟨fun hclosed => ?_, fun hpaged => ?_⟩⟩
    · rw [State.pages, State.pages, hstaged, ← Multiset.coe_add, add_assoc]
    · exact absurd hclosed Bool.false_ne_true
    · rw [hstaged, List.nodup_append']
      refine ⟨h.nodup hpaged, ?_, hnew hopen hpaged⟩
      rw [freedPages, if_pos hpaged]
      exact List.nodup_dedup _

/-- Pages that are taken from the free list. -/
theorem pages_taken (cfg : Config) (s : State) {taken rest : List ℤ}
    (hperm : s.pool.freePages.Perm (taken ++ rest)) :
    State.pages cfg { s with pool := { s.pool with freePages := rest } } + (taken : Multiset ℤ) =
      s.pages cfg := by
  have hfree : (s.pool.freePages : Multiset ℤ) = taken + rest := Multiset.coe_eq_coe.mpr hperm
  simp only [State.pages, Allocator.pages, ← Multiset.coe_add, hfree]
  abel

theorem size_free (s : State) (freeIndex : List ℤ) : (s.free cfg freeIndex).size = s.size := by
  rw [State.free]
  split
  · rfl
  split
  · rfl
  · rfl

/-- **What is handed out leaves the lists.** -/
theorem Inv.alloc (h : Inv cfg s) (needSize : ℕ) :
    (∃ s', s.alloc cfg needSize = (none, s') ∧ Moves cfg s s') ∨
    ∃ pages s', s.alloc cfg needSize = (some (pageSlots cfg.pageSize pages), s') ∧
      s'.pages cfg + (pages : Multiset ℤ) = s.pages cfg ∧ Inv cfg s' ∧ s'.size = s.size := by
  have hmoved : Moves cfg s (if cfg.needSort = true ∧
      s.pool.freePages.length < needSize / cfg.pageSize then s.mergeAndSortFree else s) := by
    split
    · exact Moves.mergeAndSortFree h
    · exact Moves.refl h
  simp only [State.alloc]
  generalize (if cfg.needSort = true ∧ s.pool.freePages.length < needSize / cfg.pageSize then
    s.mergeAndSortFree else s) = t at hmoved
  split
  · exact Or.inl ⟨t, rfl, hmoved⟩
  · refine Or.inr ⟨_, _, rfl, ?_, ⟨hmoved.inv.closed, hmoved.inv.nodup⟩, hmoved.size⟩
    rw [← hmoved.pages]
    refine pages_taken cfg t (List.Perm.of_eq ?_)
    exact (List.take_append_drop _ _).symm

theorem nodup_zipIdx (pages : List ℤ) : pages.zipIdx.Nodup := by
  refine List.Nodup.of_map Prod.snd ?_
  rw [List.zipIdx_map_snd]
  exact List.nodup_range'

/-- The classes have no residue in common. -/
def DisjointClasses (classes : List ((ℤ × ℤ) × ℕ)) : Prop :=
  classes.Pairwise fun c c' => c.1.2 ≤ c'.1.1 ∨ c'.1.2 ≤ c.1.1

/-- What the classes take are entries of the list, of residues in the classes, and none twice. -/
theorem ownerPicks_nodup {mod : ℤ} {pages : List ℤ} {classes : List ((ℤ × ℤ) × ℕ)}
    {picks : List (List (ℤ × ℕ))} (hdisjoint : DisjointClasses classes)
    (hpicks : State.ownerPicks mod pages classes = some picks) :
    picks.flatten.Nodup ∧ ∀ e ∈ picks.flatten, e ∈ pages.zipIdx ∧
      ∃ c ∈ classes, inClass mod c.1.1 c.1.2 e.1 = true := by
  induction classes generalizing picks with
  | nil =>
    cases hpicks
    simp
  | cons c classes ih =>
    obtain ⟨⟨lo, hi⟩, need⟩ := c
    obtain ⟨hc, hrestDisjoint⟩ := List.pairwise_cons.mp hdisjoint
    simp only [State.ownerPicks] at hpicks
    split at hpicks
    · cases hpicks
    obtain ⟨rest, hrest, rfl⟩ := Option.map_eq_some_iff.mp hpicks
    obtain ⟨hnodup, hmem⟩ := ih hrestDisjoint hrest
    have hfirst : ∀ e ∈ (pages.zipIdx.filter fun e => inClass mod lo hi e.1).take need,
        e ∈ pages.zipIdx ∧ inClass mod lo hi e.1 = true :=
      fun e he => List.mem_filter.mp (List.mem_of_mem_take he)
    rw [List.flatten_cons]
    constructor
    · rw [List.nodup_append']
      refine ⟨?_, hnodup, fun e he he' => ?_⟩
      · exact (nodup_zipIdx pages).sublist ((List.take_sublist _ _).trans List.filter_sublist)
      · obtain ⟨-, hin⟩ := hfirst e he
        obtain ⟨-, c', hc', hin'⟩ := hmem e he'
        have hsep : hi ≤ c'.1.1 ∨ c'.1.2 ≤ lo := hc c' hc'
        simp only [inClass, decide_eq_true_eq] at hin hin'
        omega
    · intro e he
      rcases List.mem_append.mp he with he | he
      · exact ⟨(hfirst e he).1, _, List.mem_cons_self, (hfirst e he).2⟩
      · obtain ⟨hzip, c', hc', hin'⟩ := hmem e he
        exact ⟨hzip, c', List.mem_cons_of_mem _ hc', hin'⟩

/-- The picks and the rest are the list. -/
theorem perm_ownerPicks {mod : ℤ} {pages : List ℤ} {classes : List ((ℤ × ℤ) × ℕ)}
    {picks : List (List (ℤ × ℕ))} (hdisjoint : DisjointClasses classes)
    (hpicks : State.ownerPicks mod pages classes = some picks) :
    pages.Perm ((picks.map fun idxs => idxs.map Prod.fst).flatten ++
      (pages.zipIdx.filter fun e => e ∉ picks.flatten).map Prod.fst) := by
  obtain ⟨hnodup, hmem⟩ := ownerPicks_nodup hdisjoint hpicks
  have hsplit : pages.zipIdx.Perm
      (picks.flatten ++ pages.zipIdx.filter fun e => e ∉ picks.flatten) := by
    refine (List.perm_ext_iff_of_nodup (nodup_zipIdx pages) ?_).mpr fun e => ?_
    · rw [List.nodup_append']
      refine ⟨hnodup, (nodup_zipIdx pages).filter _, fun e he he' => ?_⟩
      exact of_decide_eq_true (List.mem_filter.mp he').2 he
    · rw [List.mem_append, List.mem_filter, decide_eq_true_eq]
      constructor
      · intro he
        by_cases hpick : e ∈ picks.flatten
        · exact Or.inl hpick
        · exact Or.inr ⟨he, hpick⟩
      · rintro (he | he)
        · exact (hmem e he).1
        · exact he.1
  have hfst := hsplit.map Prod.fst
  rw [List.zipIdx_map_fst, List.map_append, List.map_flatten] at hfst
  exact hfst

theorem Inv.allocOwnerMatchedClasses (h : Inv cfg s) {mod : ℤ} {classes : List ((ℤ × ℤ) × ℕ)}
    (hdisjoint : DisjointClasses classes) {picks : Option (List (List ℤ))}
    (hok : s.allocOwnerMatchedClasses cfg mod classes = .ok (picks, s')) :
    s'.pages cfg + ((picks.getD []).flatten : Multiset ℤ) = s.pages cfg ∧ Inv cfg s' ∧
      s'.size = s.size := by
  have hmoved : Moves cfg s (if s.pool.releasePages = [] then s else s.mergeAndSortFree) := by
    split
    · exact Moves.refl h
    · exact Moves.mergeAndSortFree h
  simp only [State.allocOwnerMatchedClasses] at hok
  split at hok
  · cases hok
  generalize (if s.pool.releasePages = [] then s else s.mergeAndSortFree) = t at hok hmoved
  split at hok
  · cases hok
    refine ⟨?_, hmoved.inv, hmoved.size⟩
    rw [← hmoved.pages]
    exact add_zero _
  · next taken htaken =>
    cases hok
    refine ⟨?_, ⟨hmoved.inv.closed, hmoved.inv.nodup⟩, hmoved.size⟩
    rw [← hmoved.pages]
    exact pages_taken cfg t (perm_ownerPicks hdisjoint htaken)

/-- The pages up to a number, and those after it. -/
theorem pageIds_append {a b c : ℕ} (hab : a ≤ b) (hbc : b ≤ c) :
    pageIds a b ++ pageIds b c = pageIds a c := by
  rw [pageIds, pageIds, pageIds, ← List.map_append]
  congr 1
  have hlen : c - a = (b - a) + (c - b) := by omega
  have hstart : a + 1 + (b - a) = b + 1 := by omega
  rw [hlen, ← List.range'_append_1, hstart]

theorem nodup_pageIds (a b : ℕ) : (pageIds a b).Nodup :=
  List.Nodup.map Nat.cast_injective List.nodup_range'

/-- **The pages that are new are added.** -/
theorem Inv.growSize (h : Inv cfg s) {newSize : ℕ} (hok : s.growSize cfg newSize = .ok s') :
    s'.pages cfg = s.pages cfg +
        (pageIds (s.size / cfg.pageSize) (s'.size / cfg.pageSize) : Multiset ℤ) ∧
      Inv cfg s' ∧ s.size ≤ s'.size := by
  rw [State.growSize] at hok
  split at hok
  · cases hok
  next hle =>
  split at hok
  · cases hok
    refine ⟨?_, h, le_rfl⟩
    simp [pageIds]
  split at hok
  · cases hok
  · cases hok
    refine ⟨?_, ⟨h.closed, h.nodup⟩, not_lt.mp hle⟩
    simp only [State.pages, Allocator.pages, ← Multiset.coe_add]
    abel

end Pages

/-! ### Runs -/

/-- The allocator, and beside it what was ever added to it, handed out and freed. -/
structure Run where
  state : State
  /-- The pages that it started with, and those that were added. -/
  added : Multiset ℤ
  /-- The pages that were handed out. -/
  granted : Multiset ℤ
  /-- The pages that were freed, call by call. -/
  freed : Multiset ℤ

/-- The operations. -/
inductive Op
  | freeGroupBegin
  | freeGroupEnd
  | flushFreeGroup
  | reclaimAbandonedFreeGroup
  | free (freeIndex : List ℤ)
  | setOwnerBias (bias : Option (ℤ × ℤ × ℤ))
  | alloc (needSize : ℕ)
  | allocOwnerMatchedClasses (mod : ℤ) (classes : List ((ℤ × ℤ) × ℕ))
  | growSize (newSize : ℕ)

section Runs

variable {cfg : Config} {r r' : Run}

/-- One operation. -/
def Run.step (cfg : Config) (r : Run) : Op → Except String Run
  | .freeGroupBegin => .ok { r with state := r.state.freeGroupBegin cfg }
  | .freeGroupEnd => .ok { r with state := r.state.freeGroupEnd cfg }
  | .flushFreeGroup => .ok { r with state := (r.state.flushFreeGroup cfg).2 }
  | .reclaimAbandonedFreeGroup => .ok { r with state := (r.state.reclaimAbandonedFreeGroup cfg).2 }
  | .free freeIndex => .ok { r with
      state := r.state.free cfg freeIndex
      freed := r.freed + freedPages cfg freeIndex }
  | .setOwnerBias bias => (r.state.setOwnerBias cfg bias).map fun out => { r with state := out.2 }
  | .alloc needSize =>
    let out := r.state.alloc cfg needSize
    .ok { r with
      state := out.2
      granted := r.granted + pagesOf cfg.pageSize (out.1.getD []) }
  | .allocOwnerMatchedClasses mod classes =>
    (r.state.allocOwnerMatchedClasses cfg mod classes).map fun out => { r with
      state := out.2
      granted := r.granted + (out.1.getD []).flatten }
  | .growSize newSize => (r.state.growSize cfg newSize).map fun s => { r with
      state := s
      added := r.added + pageIds (r.state.size / cfg.pageSize) (s.size / cfg.pageSize) }

/-- What the callers promise: the classes of `alloc_owner_matched_classes` are those of different
ranks. -/
def Permitted (_ : Run) : Op → Prop
  | .allocOwnerMatchedClasses _ classes => DisjointClasses classes
  | _ => True

instance (r : Run) (op : Op) : Decidable (Permitted r op) :=
  match op with
  | .allocOwnerMatchedClasses _ classes =>
    inferInstanceAs (Decidable (classes.Pairwise fun c c' => c.1.2 ≤ c'.1.1 ∨ c'.1.2 ≤ c.1.1))
  | .freeGroupBegin => .isTrue trivial
  | .freeGroupEnd => .isTrue trivial
  | .flushFreeGroup => .isTrue trivial
  | .reclaimAbandonedFreeGroup => .isTrue trivial
  | .free _ => .isTrue trivial
  | .setOwnerBias _ => .isTrue trivial
  | .alloc _ => .isTrue trivial
  | .growSize _ => .isTrue trivial

/-- The allocator in use. -/
def system (cfg : Config) : OpSystem Run Op String where
  step r op := r.step cfg op
  Permitted := Permitted

instance (cfg : Config) (r : Run) (op : Op) : Decidable ((system cfg).Permitted r op) :=
  inferInstanceAs (Decidable (Permitted r op))

/-- A new allocator. -/
def start (cfg : Config) (size : ℕ) : Run where
  state := State.init cfg size
  added := pageIds 0 (size / cfg.pageSize)
  granted := 0
  freed := 0

/-- **The first condition on a free**: the allocator with pages has none of them staged. -/
def StagesOnce (cfg : Config) (r : Run) : Op → Prop
  | .free freeIndex => r.state.isNotInFreeGroup = false → cfg.paged = true →
      ∀ p ∈ stagedPages cfg r.state.freeGroup, p ∉ freedPages cfg freeIndex
  | _ => True

instance (cfg : Config) (r : Run) (op : Op) : Decidable (StagesOnce cfg r op) :=
  match op with
  | .free freeIndex =>
    inferInstanceAs (Decidable (r.state.isNotInFreeGroup = false → cfg.paged = true →
      ∀ p ∈ stagedPages cfg r.state.freeGroup, p ∉ freedPages cfg freeIndex))
  | .freeGroupBegin => .isTrue trivial
  | .freeGroupEnd => .isTrue trivial
  | .flushFreeGroup => .isTrue trivial
  | .reclaimAbandonedFreeGroup => .isTrue trivial
  | .setOwnerBias _ => .isTrue trivial
  | .alloc _ => .isTrue trivial
  | .allocOwnerMatchedClasses .. => .isTrue trivial
  | .growSize _ => .isTrue trivial

/-- **The second condition on a free**: its pages are handed out, and not freed since. -/
def FreesHeld (cfg : Config) (r : Run) : Op → Prop
  | .free freeIndex => (freedPages cfg freeIndex : Multiset ℤ) ≤ r.granted - r.freed
  | _ => True

instance (cfg : Config) (r : Run) (op : Op) : Decidable (FreesHeld cfg r op) :=
  match op with
  | .free freeIndex =>
    inferInstanceAs (Decidable ((freedPages cfg freeIndex : Multiset ℤ) ≤ r.granted - r.freed))
  | .freeGroupBegin => .isTrue trivial
  | .freeGroupEnd => .isTrue trivial
  | .flushFreeGroup => .isTrue trivial
  | .reclaimAbandonedFreeGroup => .isTrue trivial
  | .setOwnerBias _ => .isTrue trivial
  | .alloc _ => .isTrue trivial
  | .allocOwnerMatchedClasses .. => .isTrue trivial
  | .growSize _ => .isTrue trivial

/-- **The balance.** -/
structure Balanced (cfg : Config) (r : Run) : Prop where
  /-- What the allocator has and what was handed out is what was added and what was freed. -/
  pages : r.state.pages cfg + r.granted = r.added + r.freed
  /-- The pages that were added are numbered. -/
  added : r.added = pageIds 0 (r.state.size / cfg.pageSize)
  /-- Between the operations, what is staged is in order. -/
  inv : Inv cfg r.state

theorem Balanced.start (cfg : Config) (size : ℕ) : Balanced cfg (start cfg size) := by
  refine ⟨?_, rfl, Inv.of_freeGroup_nil rfl⟩
  simp [FreeGroup.start, State.init, State.pages, Allocator.pages, stagedPages]

/-- An operation that moves pages. -/
theorem Balanced.moves (h : Balanced cfg r) {s : State} (hmoves : Moves cfg r.state s) :
    Balanced cfg { r with state := s } := by
  refine ⟨?_, ?_, hmoves.inv⟩
  · rw [hmoves.pages]
    exact h.pages
  · rw [hmoves.size]
    exact h.added

/-- An operation that hands out pages. -/
theorem Balanced.grants (h : Balanced cfg r) {s : State} {pages : Multiset ℤ}
    (hpages : s.pages cfg + pages = r.state.pages cfg) (hinv : Inv cfg s)
    (hsize : s.size = r.state.size) :
    Balanced cfg { r with state := s, granted := r.granted + pages } := by
  refine ⟨?_, ?_, hinv⟩
  · have hbalance := h.pages
    rw [← hpages] at hbalance
    rw [← hbalance]
    simp only
    abel
  · rw [hsize]
    exact h.added

/-- **One operation** keeps the balance. -/
theorem Balanced.step (h : Balanced cfg r) {op : Op} (hperm : Permitted r op)
    (hguard : StagesOnce cfg r op) (hok : r.step cfg op = .ok r') : Balanced cfg r' := by
  cases op with
  | freeGroupBegin =>
    cases hok
    exact h.moves (Moves.freeGroupBegin h.inv)
  | freeGroupEnd =>
    cases hok
    exact h.moves (Moves.freeGroupEnd h.inv)
  | flushFreeGroup =>
    cases hok
    exact h.moves (Moves.flushFreeGroup h.inv)
  | reclaimAbandonedFreeGroup =>
    cases hok
    exact h.moves (Moves.reclaimAbandonedFreeGroup h.inv)
  | free freeIndex =>
    cases hok
    have hfree := h.inv.free fun hopen hpaged p hp hp' => hguard hopen hpaged p hp hp'
    refine ⟨?_, ?_, hfree.2⟩
    · simp only [hfree.1]
      rw [← add_assoc, ← h.pages]
      abel
    · rw [size_free]
      exact h.added
  | setOwnerBias bias =>
    obtain ⟨out, hout, rfl⟩ := map_eq_ok hok
    exact h.moves (Moves.setOwnerBias h.inv hout)
  | alloc needSize =>
    cases hok
    rcases h.inv.alloc needSize with ⟨s', hs, hmoves⟩ | ⟨pages, s', hs, hpages, hinv, hsize⟩
    · rw [hs]
      simpa [pagesOf, pageCount_zero cfg.pos] using h.moves hmoves
    · rw [hs, Option.getD_some, (Paged.whole cfg.pos pages).pagesOf_eq cfg.pos]
      exact h.grants hpages hinv hsize
  | allocOwnerMatchedClasses mod classes =>
    obtain ⟨out, hout, rfl⟩ := map_eq_ok hok
    obtain ⟨hpages, hinv, hsize⟩ := h.inv.allocOwnerMatchedClasses hperm hout
    exact h.grants hpages hinv hsize
  | growSize newSize =>
    obtain ⟨s, hs, rfl⟩ := map_eq_ok hok
    obtain ⟨hpages, hinv, hsize⟩ := h.inv.growSize hs
    refine ⟨?_, ?_, hinv⟩
    · simp only [hpages]
      rw [add_right_comm, h.pages]
      abel
    · simp only [h.added]
      rw [Multiset.coe_add, pageIds_append (Nat.zero_le _) (Nat.div_le_div_right hsize)]

/-- What is held is all that the allocator does not have. -/
theorem Balanced.pages_held (h : Balanced cfg r) (hle : r.freed ≤ r.granted) :
    r.state.pages cfg + (r.granted - r.freed) = pageIds 0 (r.state.size / cfg.pageSize) := by
  have hbalance := h.pages
  rw [← tsub_add_cancel_of_le hle, ← add_assoc] at hbalance
  rw [add_right_cancel hbalance, h.added]

/-- No page is there twice, nor held and there. -/
theorem Balanced.nodup (h : Balanced cfg r) (hle : r.freed ≤ r.granted) :
    (r.state.pages cfg + (r.granted - r.freed)).Nodup := by
  rw [h.pages_held hle]
  exact nodup_pageIds _ _

/-- A page that is held is not staged. -/
theorem Balanced.stagesOnce (h : Balanced cfg r) (hle : r.freed ≤ r.granted) {op : Op}
    (hheld : FreesHeld cfg r op) : StagesOnce cfg r op := by
  cases op with
  | free freeIndex =>
    intro _ _ p hstaged hfreed
    have hdisjoint := (Multiset.nodup_add.mp (h.nodup hle)).2.2
    refine Multiset.disjoint_left.mp hdisjoint (?_ : p ∈ _) ?_
    · exact Multiset.mem_add.mpr (Or.inr hstaged)
    · exact Multiset.mem_of_le hheld hfreed
  | _ => trivial

/-- What is freed was handed out. -/
theorem freed_le_granted (hle : r.freed ≤ r.granted) {op : Op} (hheld : FreesHeld cfg r op)
    (hok : r.step cfg op = .ok r') : r'.freed ≤ r'.granted := by
  cases op with
  | freeGroupBegin =>
    cases hok
    exact hle
  | freeGroupEnd =>
    cases hok
    exact hle
  | flushFreeGroup =>
    cases hok
    exact hle
  | reclaimAbandonedFreeGroup =>
    cases hok
    exact hle
  | free freeIndex =>
    cases hok
    exact add_comm r.freed _ ▸ (le_tsub_iff_right hle).mp hheld
  | setOwnerBias bias =>
    obtain ⟨out, -, rfl⟩ := map_eq_ok hok
    exact hle
  | alloc needSize =>
    cases hok
    exact hle.trans (Multiset.le_add_right _ _)
  | allocOwnerMatchedClasses mod classes =>
    obtain ⟨out, -, rfl⟩ := map_eq_ok hok
    exact hle.trans (Multiset.le_add_right _ _)
  | growSize newSize =>
    obtain ⟨s, -, rfl⟩ := map_eq_ok hok
    exact hle

/-- **Every free is applied once.** As long as the allocator with pages has no page staged by two
calls – and whatever is freed otherwise – the pages in the lists and staged, and those that were
handed out, are the pages that were added and those that were freed. If only pages are freed that
are held, no page is there twice. And nothing is staged after a window is closed or reclaimed. -/
theorem frees_applied_once (cfg : Config) (size : ℕ) (r : Run) :
    ((system cfg).Reaches (StagesOnce cfg) (start cfg size) r →
      r.state.pages cfg + r.granted = r.added + r.freed ∧
        r.added = pageIds 0 (r.state.size / cfg.pageSize) ∧
        (r.state.freeGroupEnd cfg).freeGroup = [] ∧
        (r.state.reclaimAbandonedFreeGroup cfg).2.freeGroup = []) ∧
    ((system cfg).Reaches (FreesHeld cfg) (start cfg size) r →
      r.state.pages cfg + r.granted = r.added + r.freed ∧ (r.state.pages cfg).Nodup ∧
        (r.state.freeGroupEnd cfg).freeGroup = [] ∧
        (r.state.reclaimAbandonedFreeGroup cfg).2.freeGroup = []) := by
  constructor
  · intro hreach
    have h : Balanced cfg r := hreach.invariant (Balanced.start cfg size)
      fun _ _ _ h hperm hguard hok => h.step hperm hguard hok
    exact ⟨h.pages, h.added, freeGroup_freeGroupEnd r.state, h.inv.freeGroup_reclaim⟩
  · intro hreach
    have h : Balanced cfg r ∧ r.freed ≤ r.granted := by
      refine hreach.invariant (I := fun r => Balanced cfg r ∧ r.freed ≤ r.granted)
        ⟨Balanced.start cfg size, le_rfl⟩ fun _ _ _ h hperm hheld hok => ?_
      exact ⟨h.1.step hperm (h.1.stagesOnce h.2 hheld) hok, freed_le_granted h.2 hheld hok⟩
    exact ⟨h.1.pages, (Multiset.nodup_add.mp (h.1.nodup h.2)).1, freeGroup_freeGroupEnd r.state,
      h.1.inv.freeGroup_reclaim⟩

end Runs

theorem paged_oneSlot : true = false → 1 = 1 := fun _ => rfl

/-- Pages of one slot, which are sorted when they are released. -/
def sortedSlots : Config where
  pageSize := 1
  paged := true
  needSort := true
  numPages := 4
  pos := Nat.one_pos
  token := paged_oneSlot

/-- Windows are nested, left open and closed twice, in one run. -/
def nestedWindows : List Op :=
  [.alloc 3, .freeGroupBegin, .free [1], .freeGroupBegin, .free [2], .freeGroupEnd, .freeGroupEnd,
    .setOwnerBias (some (2, 1, 2)), .growSize 6, .freeGroupBegin, .free [3], .flushFreeGroup,
    .allocOwnerMatchedClasses 2 [((0, 1), 1), ((1, 2), 1)]]

theorem frees_applied_once_nested :
    (∃ r, (system sortedSlots).run (StagesOnce sortedSlots) (start sortedSlots 4) nestedWindows =
        some r ∧ r.state.pages sortedSlots + r.granted = r.added + r.freed) ∧
    ∃ r, (system sortedSlots).run (FreesHeld sortedSlots) (start sortedSlots 4) nestedWindows =
        some r ∧ (r.state.pages sortedSlots).Nodup := by
  have hstages : ((system sortedSlots).run (StagesOnce sortedSlots) (start sortedSlots 4)
      nestedWindows).isSome = true := by
    decide +kernel
  have hheld : ((system sortedSlots).run (FreesHeld sortedSlots) (start sortedSlots 4)
      nestedWindows).isSome = true := by
    decide +kernel
  obtain ⟨r, hr⟩ := Option.isSome_iff_exists.mp hstages
  obtain ⟨r', hr'⟩ := Option.isSome_iff_exists.mp hheld
  exact ⟨⟨r, hr, ((frees_applied_once sortedSlots 4 r).1 (OpSystem.Reaches.of_run .refl hr)).1⟩,
    r', hr', ((frees_applied_once sortedSlots 4 r').2 (OpSystem.Reaches.of_run .refl hr')).2.1⟩

/-- **A page that is freed by two calls of one window is there once.** The only page that is handed
out is freed twice; then the lists have four pages, although five are due. -/
theorem staged_twice_applied_once :
    ∃ r, (system sortedSlots).Reaches (fun _ _ => True) (start sortedSlots 4) r ∧
      r.state.freeGroup = [] ∧ r.state.pages sortedSlots + r.granted ≠ r.added + r.freed := by
  have hrun : ((system sortedSlots).run (fun _ _ => True) (start sortedSlots 4)
      [.alloc 1, .freeGroupBegin, .free [1], .free [1], .freeGroupEnd]).any (fun r =>
      decide (r.state.freeGroup = [] ∧
        r.state.pages sortedSlots + r.granted ≠ r.added + r.freed)) = true := by
    decide +kernel
  obtain ⟨r, hr, hend⟩ := (Option.any_eq_true _ _).mp hrun
  exact ⟨r, OpSystem.Reaches.of_run .refl hr, of_decide_eq_true hend⟩

end FreeGroup

end HtSglang
