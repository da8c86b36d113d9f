import HtSglang.Library.Dict
import HtSglang.Library.Loop
import HtSglang.Library.Scatter

/-!
# The multi-ended allocator

Two sub-pools share one buffer and grow towards each other from its ends. Each has a
`MultiEndedAllocator` (`mem_cache/multi_ended_allocator.py`), which hands out *virtual*
pages and keeps the two tables that map them to physical ones; the physical pages of a
sub-pool are those between its end of the buffer and its watermark.

A freed page leaves a hole in that band. In the eager mode every `free` closes its holes
at once, moving the pages next to the watermark into them
(`HtSglang.MultiEnded.compactPending`). In the lazy mode holes are kept on a list, are
handed out again first, and are closed by `HtSglang.MultiEnded.flush` when there is time
(not urgent, at most so many moves) or need (urgent). A page whose contents were moved
away may still be read by the forward pass under way; unless its event has fired it is
parked under that event, and only `HtSglang.MultiEnded.drainPendingReuse` returns it.

The two growth directions are mirror images. Where the source has a branch for each, so
has the definition here; what the branches have in common is the *depth* of a page, its
distance from the sub-pool's own end (`HtSglang.MultiEnded.Config.depth`), and the
lemmas of the last section say each branch in these terms.
-/

namespace HtSglang

namespace MultiEnded

/-! ### State -/

/-- Which end of the buffer a sub-pool grows from. -/
inductive Grow
  /-- From the bottom, upwards. -/
  | up
  /-- From the top, downwards. -/
  | down
  deriving DecidableEq, Repr

/-- What is fixed at construction. -/
structure Config where
  /-- `grow_direction`. -/
  grow : Grow
  numPages : ℤ
  /-- `min_page_index`: the pages below are reserved. -/
  minPageIndex : ℤ
  /-- `page_size`, in tokens. -/
  pageSize : ℤ
  entryBytesPerPage : ℤ
  /-- `unified_buffer.total_bytes`. -/
  totalBytes : ℤ
  /-- `is_id_owner`: whether the virtual ids come from here. -/
  isIdOwner : Bool
  lazyCompaction : Bool
  /-- `_SORT_FREE_LIST_AFTER_MERGE`: whether the free list is kept sorted. -/
  sortFreeList : Bool
  /-- `_lazy_max_moves_per_call`. -/
  maxMovesPerCall : ℤ
  one_le_min : 1 ≤ minPageIndex
  pageSize_pos : 0 < pageSize
  entry_pos : 0 < entryBytesPerPage

/-- A forward event. -/
abbrev Event := ℕ

/-- An allocator, with the contents of its sub-pool by physical token. -/
structure Pool (K : Type) where
  /-- `watermark_physical`. -/
  watermark : ℤ
  /-- `virtual_to_physical`, `-1` for an unmapped page. -/
  v2p : ℤ → ℤ
  /-- `physical_to_virtual`, `-1` for a page that is not live. -/
  p2v : ℤ → ℤ
  freeVirtualIds : List ℤ
  freePhysPages : List ℤ
  /-- `_pending_reuse`: the pages parked under each event. -/
  pendingReuse : List (Event × List ℤ)
  /-- `_pending_reuse_pages_cpu`: their mirror. -/
  pendingReusePagesCpu : Finset ℤ
  livePageCount : ℤ
  latestForwardDoneEvent : Option Event
  /-- `_inflight_forward`: the event of the forward under way and the tokens it writes. -/
  inflightForward : Option (Event × List ℤ)
  kv : ℤ → K

/-- The assertions. -/
inductive MultiEndedError
  /-- `alloc` on an allocator that owns no ids. -/
  | notIdOwner
  /-- A size that is not a whole number of pages. -/
  | notPageMultiple (needSize : ℤ)
  /-- A freed id that is not mapped. -/
  | staleSlot (pages : List ℤ)
  /-- More pages freed than there are. -/
  | watermarkPastEnd (newWatermark : ℤ)
  /-- A freed page outside the band. -/
  | freedOutsideBand (pages : List ℤ)
  /-- As many survivors as holes are expected. -/
  | survivorsVersusHoles (survivors holes : ℕ)
  /-- A survivor that is not live. -/
  | survivorUnmapped (page : ℤ)
  /-- The walk did not end. -/
  | walkUnfinished
  /-- No room for ids that come from elsewhere. -/
  | outOfPhysicalRoom
  deriving DecidableEq, Repr

/-! ### The two directions -/

namespace Config

variable (c : Config)

/-- The watermark of an empty sub-pool. -/
def startWatermark : ℤ := match c.grow with
  | .up => c.minPageIndex
  | .down => c.numPages - 1

/-- The page next to the watermark inside the band. -/
def frontier (wm : ℤ) : ℤ := match c.grow with
  | .up => wm - 1
  | .down => wm + 1

/-- The next page away from the watermark. -/
def toward (p : ℤ) : ℤ := match c.grow with
  | .up => p - 1
  | .down => p + 1

/-- The watermark `n` pages further out. -/
def advance (wm n : ℤ) : ℤ := match c.grow with
  | .up => wm + n
  | .down => wm - n

/-- The watermark `n` pages further in. -/
def retreat (wm n : ℤ) : ℤ := match c.grow with
  | .up => wm - n
  | .down => wm + n

/-- Whether a page is at or beyond the watermark. -/
def outside (wm p : ℤ) : Bool := match c.grow with
  | .up => wm ≤ p
  | .down => p ≤ wm

/-- Whether `q` is nearer to the watermark than `p`. -/
def above (p q : ℤ) : Bool := match c.grow with
  | .up => p < q
  | .down => q < p

/-- How many pages there are from `p` to the sub-pool's own end. -/
def room (p : ℤ) : ℕ := match c.grow with
  | .up => (p - c.minPageIndex + 1).toNat
  | .down => (c.numPages - p).toNat

/-- The allocated band. -/
def InBand (wm p : ℤ) : Prop := match c.grow with
  | .up => c.minPageIndex ≤ p ∧ p < wm
  | .down => wm < p ∧ p < c.numPages

/-- An ascending list of holes from the watermark inwards. -/
def fromWatermark (holes : List ℤ) : List ℤ := match c.grow with
  | .up => holes.reverse
  | .down => holes

/-- An ascending list of holes from the sub-pool's own end outwards. -/
def fromEnd (holes : List ℤ) : List ℤ := match c.grow with
  | .up => holes
  | .down => holes.reverse

/-- The lowest page of an extension by `n` pages beyond the watermark. -/
def startPhys (wm n : ℤ) : ℤ := match c.grow with
  | .up => wm
  | .down => wm - n + 1

end Config

/-- `[start, start + n)`. -/
def pageRange (start : ℤ) (n : ℕ) : List ℤ := (List.range n).map fun i : ℕ => start + (i : ℤ)

/-- `torch.sort`. -/
def sortPages (pages : List ℤ) : List ℤ := pages.insertionSort (· ≤ ·)

/-- `torch.unique`. -/
def uniquePages (pages : List ℤ) : List ℤ := sortPages pages.dedup

/-- The tokens of pages, page by page. -/
def tokenIds (c : Config) (pages : List ℤ) : List ℤ :=
  if c.pageSize = 1 then pages
  else pages.flatMap fun p => (List.range c.pageSize.toNat).map fun i : ℕ =>
    p * c.pageSize + (i : ℤ)

section Pool

variable {K : Type}

/-- `clear`: nothing allocated, page `0` mapped to itself. -/
def clear (c : Config) (kv : ℤ → K) : Pool K where
  watermark := c.startWatermark
  v2p := Function.update (fun _ => -1) 0 0
  p2v := Function.update (fun _ => -1) 0 0
  freeVirtualIds :=
    if c.isIdOwner then pageRange c.minPageIndex (c.numPages - c.minPageIndex).toNat else []
  freePhysPages := []
  pendingReuse := []
  pendingReusePagesCpu := ∅
  livePageCount := 0
  latestForwardDoneEvent := none
  inflightForward := none
  kv := kv

/-- `translate_kv_loc` for one token; an unmapped page is clamped to the sink. -/
def translateKvLoc (c : Config) (a : Pool K) (t : ℤ) : ℤ :=
  if c.pageSize = 1 then max 0 (a.v2p t)
  else max 0 (a.v2p (t / c.pageSize) * c.pageSize + t % c.pageSize)

/-- `move_kv_cache`: the tokens of the source pages copied to those of the destinations. -/
def moveKvCache (c : Config) (kv : ℤ → K) (srcs dsts : List ℤ) : ℤ → K :=
  scatter kv (tokenIds c dsts) ((tokenIds c srcs).map kv)

/-! ### Room -/

/-- `_allocated_pages`. -/
def allocatedPages (c : Config) (a : Pool K) : ℤ := match c.grow with
  | .up => max 0 (a.watermark - c.minPageIndex)
  | .down => max 0 (c.numPages - 1 - a.watermark)

/-- `_byte_high_frontier`. -/
def byteHighFrontier (c : Config) (a : Pool K) : ℤ := match c.grow with
  | .up => a.watermark * c.entryBytesPerPage
  | .down => c.numPages * c.entryBytesPerPage

/-- `_byte_low_frontier`. -/
def byteLowFrontier (c : Config) (a : Pool K) : ℤ := match c.grow with
  | .up => c.minPageIndex * c.entryBytesPerPage
  | .down => (a.watermark + 1) * c.entryBytesPerPage

/-- `_current_gap_bytes`: the free bytes up to the peer. -/
def currentGapBytes (c : Config) (a : Pool K) (peer : Option (Config × Pool K)) : ℤ :=
  match c.grow with
  | .up =>
    let peerLow := match peer with
      | some q => byteLowFrontier q.1 q.2
      | none => c.totalBytes
    max 0 (peerLow - byteHighFrontier c a)
  | .down =>
    let peerHigh := match peer with
      | some q => byteHighFrontier q.1 q.2
      | none => 0
    max 0 (byteLowFrontier c a - peerHigh)

/-- `_available_tokens`. -/
def availableTokens (c : Config) (a : Pool K) (peer : Option (Config × Pool K))
    (extraGapBytes : ℤ) : ℤ :=
  let pagesByBytes := (currentGapBytes c a peer + extraGapBytes) / c.entryBytesPerPage
  let pagesByIndexSpace := c.numPages - c.minPageIndex - allocatedPages c a
  let pagesDrain : ℤ := if c.lazyCompaction then a.freePhysPages.length else 0
  (min pagesByBytes pagesByIndexSpace + pagesDrain) * c.pageSize

/-- `available_size`. -/
def availableSize (c : Config) (a : Pool K) (peer : Option (Config × Pool K)) : ℤ :=
  availableTokens c a peer 0

/-! ### Taking physical pages -/

/-- `_extend_watermark`: refused when the index space ends or the peer is in the way. -/
def extendWatermark (c : Config) (a : Pool K) (peer : Option (Config × Pool K)) (n : ℤ) :
    Option (Pool K) :=
  match c.grow with
  | .up =>
    let newWm := a.watermark + n
    if newWm > c.numPages then none
    else match peer with
      | some q =>
        if newWm > byteLowFrontier q.1 q.2 / c.entryBytesPerPage then none
        else some { a with watermark := newWm }
      | none => some { a with watermark := newWm }
  | .down =>
    let newWm := a.watermark - n
    if newWm < c.minPageIndex - 1 then none
    else match peer with
      | some q =>
        if newWm + 1 < byteHighFrontier q.1 q.2 / c.entryBytesPerPage then none
        else some { a with watermark := newWm }
      | none => some { a with watermark := newWm }

/-- `_take_physical_arange`: the pages of an extension that was applied. -/
def takePhysicalArange (c : Config) (a : Pool K) (n : ℕ) : List ℤ := match c.grow with
  | .up => pageRange (a.watermark - n) n
  | .down => pageRange (a.watermark + 1) n

/-- Holes taken off the free list: from its front, or, when it is kept sorted, from the end
of the band that is furthest from the watermark. -/
def drainHoles (c : Config) (free : List ℤ) (n : ℕ) : List ℤ × List ℤ :=
  if c.sortFreeList then
    match c.grow with
    | .up => (free.take n, free.drop n)
    | .down => ((free.drop (free.length - n)).reverse, free.take (free.length - n))
  else (free.take n, free.drop n)

/-- `take_physical` in the lazy mode, for a number of pages: holes first, then an
extension, which is tried first so that a failure leaves everything as it was. -/
def takePhysicalLazy (c : Config) (a : Pool K) (peer : Option (Config × Pool K)) (n : ℕ) :
    Option (List ℤ × Pool K) :=
  let nDrain := min n a.freePhysPages.length
  let needMore := n - nDrain
  match (if 0 < needMore then extendWatermark c a peer needMore else some a) with
  | none => none
  | some a₁ =>
    let drained := drainHoles c a₁.freePhysPages nDrain
    let a₂ := { a₁ with
      freePhysPages := drained.2
      livePageCount := a₁.livePageCount + n }
    if nDrain = 0 then some (takePhysicalArange c a₂ n, a₂)
    else if needMore = 0 then some (drained.1, a₂)
    else
      let extended := match c.grow with
        | .up => pageRange (a₂.watermark - needMore) needMore
        | .down => (pageRange (a₂.watermark + 1) needMore).reverse
      some (drained.1 ++ extended, a₂)

/-- `bind`. -/
def bindPages (a : Pool K) (virtual physical : List ℤ) : Pool K :=
  { a with
    v2p := scatter a.v2p virtual physical
    p2v := scatter a.p2v physical virtual }

/-- The watermark check of the eager mode: index space only. -/
def extendEager (c : Config) (a : Pool K) (n : ℤ) : Option (Pool K) := match c.grow with
  | .up => if a.watermark + n > c.numPages then none
    else some { a with watermark := a.watermark + n }
  | .down => if a.watermark - n < c.minPageIndex - 1 then none
    else some { a with watermark := a.watermark - n }

/-- `_alloc_bind_fast_or_slow`: without holes, an extension bound in one go; with holes,
`take_physical` and `bind`. -/
def allocBind (c : Config) (a : Pool K) (peer : Option (Config × Pool K)) (vPages : List ℤ)
    (n : ℕ) : Option (Pool K) :=
  if n = 0 then some a
  else if ¬c.lazyCompaction ∨ a.freePhysPages = [] then
    match (if c.lazyCompaction then extendWatermark c a peer n else extendEager c a n) with
    | none => none
    | some a₁ =>
      let phys := pageRange (c.startPhys a.watermark n) vPages.length
      let a₂ := bindPages a₁ vPages phys
      some (if c.lazyCompaction then { a₂ with livePageCount := a₂.livePageCount + n } else a₂)
  else
    match takePhysicalLazy c a peer n with
    | none => none
    | some (phys, a₁) => some (bindPages a₁ vPages phys)

/-! ### Freeing -/

/-- A free list after pages were appended. -/
def mergeFree (c : Config) (pages : List ℤ) : List ℤ :=
  if c.sortFreeList then sortPages pages else pages

/-- The virtual pages of freed tokens, in the lazy mode. -/
def freedPages (c : Config) (ids : List ℤ) : List ℤ :=
  if c.pageSize = 1 then ids else uniquePages (ids.map (· / c.pageSize))

/-- `_free_lazy`. -/
def freeLazy (c : Config) (a : Pool K) (ids : List ℤ) : Pool K :=
  let freeV := freedPages c ids
  let freedP := freeV.map a.v2p
  { a with
    v2p := scatter a.v2p freeV (freeV.map fun _ => -1)
    p2v := scatter a.p2v freedP (freedP.map fun _ => -1)
    freeVirtualIds := if c.isIdOwner then a.freeVirtualIds ++ freeV else a.freeVirtualIds
    freePhysPages := mergeFree c (a.freePhysPages ++ freedP)
    livePageCount := a.livePageCount - freedP.length }

/-- The tables and the contents after pages were moved and the vacated range cleared. -/
def relocate (c : Config) (a : Pool K) (srcs dsts vacated : List ℤ) : Pool K :=
  let vMoved := srcs.map a.p2v
  { a with
    kv := moveKvCache c a.kv srcs dsts
    v2p := scatter a.v2p vMoved dsts
    p2v := scatter (scatter a.p2v vacated (vacated.map fun _ => -1)) dsts vMoved }

/-- `_compact_pending`: the survivors of the band next to the watermark move into the
holes of the rest. -/
def compactPending (c : Config) (a : Pool K) (freed : List ℤ) :
    Except MultiEndedError (Pool K) :=
  let freedSet := freed.dedup
  if freedSet = [] then .ok a
  else
    let k := freedSet.length
    let oldWm := a.watermark
    let newWm := c.retreat oldWm k
    match c.grow with
    | .up =>
      if newWm < c.minPageIndex then .error (.watermarkPastEnd newWm)
      else if ¬∀ h ∈ freedSet, c.minPageIndex ≤ h ∧ h < oldWm then
        .error (.freedOutsideBand (sortPages freedSet))
      else
        let srcs := (pageRange newWm k).filter fun s => s ∉ freedSet
        let dsts := sortPages (freedSet.filter fun h => h < newWm)
        if srcs.length ≠ dsts.length then .error (.survivorsVersusHoles srcs.length dsts.length)
        else .ok (relocate c { a with watermark := newWm } srcs dsts (pageRange newWm k))
    | .down =>
      if newWm > c.numPages - 1 then .error (.watermarkPastEnd newWm)
      else if ¬∀ h ∈ freedSet, oldWm < h ∧ h < c.numPages then
        .error (.freedOutsideBand (sortPages freedSet))
      else
        let srcs := (pageRange (oldWm + 1) k).filter fun s => s ∉ freedSet
        let dsts := sortPages (freedSet.filter fun h => newWm < h)
        if srcs.length ≠ dsts.length then .error (.survivorsVersusHoles srcs.length dsts.length)
        else .ok (relocate c { a with watermark := newWm } srcs dsts (pageRange (oldWm + 1) k))

/-- The allocator between the unmapping of an eager `free` and its compaction. -/
def unmapEager (c : Config) (a : Pool K) (freeV : List ℤ) : Pool K :=
  { a with
    v2p := scatter a.v2p freeV (freeV.map fun _ => -1)
    freeVirtualIds := if c.isIdOwner then a.freeVirtualIds ++ freeV else a.freeVirtualIds }

/-- `free` in the eager mode. -/
def freeEager (c : Config) (a : Pool K) (ids : List ℤ) : Except MultiEndedError (Pool K) :=
  let freeV := uniquePages (ids.map (· / c.pageSize))
  let freedP := freeV.map a.v2p
  if ∃ p ∈ freedP, p < 0 then .error (.staleSlot (freeV.filter fun v => a.v2p v < 0))
  else compactPending c (unmapEager c a freeV) freedP

/-- `free`. -/
def free (c : Config) (a : Pool K) (ids : List ℤ) : Except MultiEndedError (Pool K) :=
  if ids = [] then .ok a
  else if c.lazyCompaction then .ok (freeLazy c a ids)
  else freeEager c a ids

end Pool

/-! ### Depth

What the branches of the two directions say, in terms of the distance of a page from the
sub-pool's own end. -/

theorem mem_pageRange {start p : ℤ} {n : ℕ} :
    p ∈ pageRange start n ↔ start ≤ p ∧ p < start + n := by
  simp only [pageRange, List.mem_map, List.mem_range]
  constructor
  · rintro ⟨i, hi, rfl⟩
    omega
  · rintro ⟨hle, hlt⟩
    exact ⟨(p - start).toNat, by omega, by omega⟩

theorem nodup_pageRange (start : ℤ) (n : ℕ) : (pageRange start n).Nodup := by
  refine List.nodup_range.map_on fun i _ j _ h => ?_
  omega

@[simp] theorem length_pageRange (start : ℤ) (n : ℕ) : (pageRange start n).length = n := by
  simp [pageRange]

theorem perm_sortPages (pages : List ℤ) : (sortPages pages).Perm pages :=
  List.perm_insertionSort _ _

theorem pairwise_sortPages (pages : List ℤ) : (sortPages pages).Pairwise (· ≤ ·) :=
  List.pairwise_insertionSort _ _

theorem perm_mergeFree (c : Config) (pages : List ℤ) : (mergeFree c pages).Perm pages := by
  rw [mergeFree]
  split
  · exact perm_sortPages pages
  · exact List.Perm.refl _

theorem pairwise_mergeFree {c : Config} (h : c.sortFreeList = true) (pages : List ℤ) :
    (mergeFree c pages).Pairwise (· ≤ ·) := by
  rw [mergeFree, if_pos h]
  exact pairwise_sortPages pages

namespace Config

variable (c : Config)

/-- The distance of a page from the sub-pool's own end, up to a constant. -/
def depth (p : ℤ) : ℤ := match c.grow with
  | .up => p
  | .down => -p

/-- The depth at the watermark. -/
def level (wm : ℤ) : ℤ := match c.grow with
  | .up => wm
  | .down => -wm

/-- The depth of the first allocatable page. -/
def base : ℤ := match c.grow with
  | .up => c.minPageIndex
  | .down => 1 - c.numPages

theorem depth_injective : Function.Injective c.depth := by
  intro p q h
  rcases hg : c.grow with _ | _ <;> simp only [depth, hg] at h <;> omega

theorem depth_surjective : Function.Surjective c.depth := by
  intro z
  rcases hg : c.grow with _ | _
  · exact ⟨z, by simp [depth, hg]⟩
  · exact ⟨-z, by simp [depth, hg]⟩

theorem inBand_iff {wm p : ℤ} :
    c.InBand wm p ↔ c.base ≤ c.depth p ∧ c.depth p < c.level wm := by
  rcases hg : c.grow with _ | _ <;> simp only [InBand, base, depth, level, hg]
  omega

theorem depth_frontier (wm : ℤ) : c.depth (c.frontier wm) = c.level wm - 1 := by
  rcases hg : c.grow with _ | _ <;> simp only [depth, frontier, level, hg]
  omega

theorem depth_toward (p : ℤ) : c.depth (c.toward p) = c.depth p - 1 := by
  rcases hg : c.grow with _ | _ <;> simp only [depth, toward, hg]
  omega

theorem level_retreat (wm n : ℤ) : c.level (c.retreat wm n) = c.level wm - n := by
  rcases hg : c.grow with _ | _ <;> simp only [level, retreat, hg]
  omega

theorem level_advance (wm n : ℤ) : c.level (c.advance wm n) = c.level wm + n := by
  rcases hg : c.grow with _ | _ <;> simp only [level, advance, hg]
  omega

theorem level_startWatermark : c.level c.startWatermark = c.base := by
  rcases hg : c.grow with _ | _ <;> simp only [level, startWatermark, base, hg]
  omega

theorem outside_iff {wm p : ℤ} : c.outside wm p = true ↔ c.level wm ≤ c.depth p := by
  rcases hg : c.grow with _ | _ <;> (simp only [outside, level, depth, hg]; simp)

theorem above_iff {p q : ℤ} : c.above p q = true ↔ c.depth p < c.depth q := by
  rcases hg : c.grow with _ | _ <;> (simp only [above, depth, hg]; simp)

theorem room_eq (p : ℤ) : c.room p = (c.depth p - c.base + 1).toNat := by
  rcases hg : c.grow with _ | _ <;> simp only [room, depth, base, hg]
  congr 1
  omega

/-- The pages of an extension are those between the old and the new watermark. -/
theorem mem_extension {wm p : ℤ} {n : ℕ} :
    p ∈ pageRange (c.startPhys wm n) n ↔ c.level wm ≤ c.depth p ∧ c.depth p < c.level wm + n := by
  rw [mem_pageRange]
  rcases hg : c.grow with _ | _ <;> simp only [startPhys, level, depth, hg]
  omega

theorem fromEnd_eq (holes : List ℤ) : c.fromEnd holes = (c.fromWatermark holes).reverse := by
  rcases hg : c.grow with _ | _ <;> simp only [fromEnd, fromWatermark, hg]
  simp

theorem perm_fromWatermark (holes : List ℤ) : (c.fromWatermark holes).Perm holes := by
  simp only [fromWatermark]
  split
  · exact List.reverse_perm _
  · exact List.Perm.refl _

theorem perm_fromEnd (holes : List ℤ) : (c.fromEnd holes).Perm holes := by
  rw [fromEnd_eq]
  exact (List.reverse_perm _).trans (c.perm_fromWatermark holes)

/-- From the watermark inwards, the depth of an ascending list decreases. -/
theorem pairwise_fromWatermark {holes : List ℤ} (h : holes.Pairwise (· < ·)) :
    (c.fromWatermark holes).Pairwise fun p q => c.depth q < c.depth p := by
  rcases hg : c.grow with _ | _ <;> simp only [fromWatermark, depth, hg]
  · rwa [List.pairwise_reverse]
  · exact h.imp fun hlt => by omega

theorem pairwise_fromEnd {holes : List ℤ} (h : holes.Pairwise (· < ·)) :
    (c.fromEnd holes).Pairwise fun p q => c.depth p < c.depth q := by
  rw [fromEnd_eq, List.pairwise_reverse]
  exact c.pairwise_fromWatermark h

end Config

end MultiEnded

end HtSglang
