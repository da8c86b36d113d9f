import HtSglang.MemCache.MultiEndedBooks

/-!
# Moving pages

Both compactions of the multi-ended allocator do the same thing to the tables and the
contents: some live pages move to pages that are not live, some pages are cleared, and
some virtual pages may have been unmapped before (`HtSglang.MultiEnded.Relocates`). From
that alone it follows that the tables stay inverse to each other
(`HtSglang.MultiEnded.Relocates.tables`) and that whoever reads a mapped page reads what
it read before (`HtSglang.MultiEnded.Relocates.kv_translate`).

Freeing is a relocation too: in the lazy mode one that moves nothing, in the eager mode
one that closes the holes it makes (`HtSglang.MultiEnded.free_keeps`). The lazy
compaction has a module of its own.
-/

namespace HtSglang

namespace MultiEnded

variable {K : Type} {c : Config} {a b : Pool K}

/-! ### Relocations -/

/-- **A relocation** from `a` to `b`: the first components of `l` move to the second ones,
the pages of `cleared` lose their virtual page, those of `unmapped` their physical one. -/
structure Relocates (a b : Pool K) (l : List (ℤ × ℤ)) (cleared unmapped : List ℤ) : Prop where
  live : ∀ x ∈ l, Live a x.1 ∧ a.p2v x.1 ∉ unmapped
  nodup_src : (l.map Prod.fst).Nodup
  nodup_dst : (l.map Prod.snd).Nodup
  dst_pos : ∀ x ∈ l, 0 < x.2
  dst_dead : ∀ x ∈ l, Live a x.2 → a.p2v x.2 ∈ unmapped
  src_cleared : ∀ x ∈ l, x.1 ∈ cleared
  dst_cleared : ∀ x ∈ l, x.2 ∉ cleared
  /-- What is cleared has moved or was unmapped. -/
  of_cleared : ∀ p ∈ cleared, Live a p → p ∈ l.map Prod.fst ∨ a.p2v p ∈ unmapped
  /-- What was unmapped is cleared or overwritten. -/
  of_unmapped : ∀ p, Live a p → a.p2v p ∈ unmapped → p ∈ cleared ∨ p ∈ l.map Prod.snd
  /-- A destination has the virtual page that moved there. -/
  p2v_dst : ∀ x ∈ l, b.p2v x.2 = a.p2v x.1
  p2v_cleared : ∀ p ∈ cleared, b.p2v p = -1
  p2v_rest : ∀ p, p ∉ cleared → p ∉ l.map Prod.snd → b.p2v p = a.p2v p
  /-- A virtual page that moved is at its destination. -/
  v2p_moved : ∀ x ∈ l, b.v2p (a.p2v x.1) = x.2
  v2p_unmapped : ∀ v ∈ unmapped, b.v2p v = -1
  v2p_rest : ∀ v, v ∉ unmapped → (∀ x ∈ l, a.p2v x.1 ≠ v) → b.v2p v = a.v2p v

namespace Relocates

variable {l : List (ℤ × ℤ)} {cleared unmapped : List ℤ}

/-- **What is live afterwards**: the destinations, and what was live and neither moved nor
was unmapped. -/
theorem live_iff (h : Relocates a b l cleared unmapped) (p : ℤ) :
    Live b p ↔ p ∈ l.map Prod.snd ∨ Live a p ∧ p ∉ l.map Prod.fst ∧ a.p2v p ∉ unmapped := by
  by_cases hdst : p ∈ l.map Prod.snd
  · obtain ⟨x, hx, rfl⟩ := List.mem_map.mp hdst
    refine iff_of_true ⟨?_, ?_⟩ (Or.inl hdst)
    · have := h.dst_pos x hx
      omega
    · rw [h.p2v_dst x hx]
      exact (h.live x hx).1.2
  · rw [or_iff_right hdst]
    by_cases hcl : p ∈ cleared
    · refine iff_of_false ?_ ?_
      · rintro ⟨-, hp⟩
        rw [h.p2v_cleared p hcl] at hp
        omega
      · rintro ⟨hl, hsrc, hun⟩
        rcases h.of_cleared p hcl hl with hc | hc
        · exact hsrc hc
        · exact hun hc
    · rw [Live, h.p2v_rest p hcl hdst]
      constructor
      · intro hl
        refine ⟨hl, fun hsrc => ?_, fun hun => ?_⟩
        · obtain ⟨x, hx, rfl⟩ := List.mem_map.mp hsrc
          exact hcl (h.src_cleared x hx)
        · exact (h.of_unmapped p hl hun).elim hcl hdst
      · exact fun hp => hp.1

/-- A virtual page that did not move and was not unmapped is where it was. -/
theorem v2p_eq (h : Relocates a b l cleared unmapped) (ht : Tables a) {p : ℤ} (hp : Live a p)
    (hsrc : p ∉ l.map Prod.fst) (hun : a.p2v p ∉ unmapped) : b.v2p (a.p2v p) = p := by
  rw [h.v2p_rest _ hun, (ht.live p hp).2.2]
  intro x hx heq
  refine hsrc (List.mem_map.mpr ⟨x, hx, ?_⟩)
  exact ht.p2v_inj (h.live x hx).1 hp heq

/-- **What is mapped afterwards**: what was mapped and not unmapped. -/
theorem mapped_iff (h : Relocates a b l cleared unmapped) (ht : Tables a) (v : ℤ) :
    Mapped b v ↔ Mapped a v ∧ v ∉ unmapped := by
  by_cases hun : v ∈ unmapped
  · refine iff_of_false ?_ fun hc => hc.2 hun
    rintro ⟨-, hv⟩
    rw [h.v2p_unmapped v hun] at hv
    omega
  · by_cases hmoved : ∃ x ∈ l, a.p2v x.1 = v
    · obtain ⟨x, hx, rfl⟩ := hmoved
      have hpos := h.dst_pos x hx
      have hm := ht.mapped_p2v (h.live x hx).1
      refine iff_of_true ⟨hm.1, ?_⟩ ⟨hm, hun⟩
      rw [h.v2p_moved x hx]
      omega
    · have hrest := h.v2p_rest v hun fun x hx heq => hmoved ⟨x, hx, heq⟩
      rw [Mapped, hrest]
      exact ⟨fun hv => ⟨hv, hun⟩, fun hv => hv.1⟩

/-- **The tables stay inverse to each other.** -/
theorem tables (h : Relocates a b l cleared unmapped) (ht : Tables a) : Tables b := by
  refine ⟨fun p hp => ?_, fun v hv => ?_⟩
  · rcases (h.live_iff p).mp hp with hdst | ⟨hl, hsrc, hun⟩
    · obtain ⟨x, hx, rfl⟩ := List.mem_map.mp hdst
      rw [h.p2v_dst x hx, h.v2p_moved x hx]
      exact ⟨h.dst_pos x hx, (ht.live x.1 (h.live x hx).1).2.1, rfl⟩
    · have hdst : p ∉ l.map Prod.snd := by
        intro hc
        obtain ⟨x, hx, rfl⟩ := List.mem_map.mp hc
        exact hun (h.dst_dead x hx hl)
      have hcl : p ∉ cleared := fun hc => (h.of_cleared p hc hl).elim hsrc hun
      rw [h.p2v_rest p hcl hdst, h.v2p_eq ht hl hsrc hun]
      exact ⟨(ht.live p hl).1, (ht.live p hl).2.1, rfl⟩
  · obtain ⟨hva, hun⟩ := (h.mapped_iff ht v).mp hv
    by_cases hmoved : ∃ x ∈ l, a.p2v x.1 = v
    · obtain ⟨x, hx, rfl⟩ := hmoved
      rw [h.v2p_moved x hx, h.p2v_dst x hx]
      exact ⟨(ht.mapped _ hva).1, h.dst_pos x hx, rfl⟩
    · have hlive := ht.live_v2p hva
      obtain ⟨hpos, hppos, hback⟩ := ht.mapped v hva
      have hsrc : a.v2p v ∉ l.map Prod.fst := by
        intro hc
        obtain ⟨x, hx, heq⟩ := List.mem_map.mp hc
        exact hmoved ⟨x, hx, by rw [heq, hback]⟩
      have hun' : a.p2v (a.v2p v) ∉ unmapped := by rwa [hback]
      have hdst : a.v2p v ∉ l.map Prod.snd := by
        intro hc
        obtain ⟨x, hx, heq⟩ := List.mem_map.mp hc
        exact hun' (heq ▸ h.dst_dead x hx (heq ▸ hlive))
      have hcl : a.v2p v ∉ cleared := fun hc => (h.of_cleared _ hc hlive).elim hsrc hun'
      rw [h.v2p_rest v hun fun x hx heq => hmoved ⟨x, hx, heq⟩, h.p2v_rest _ hcl hdst]
      exact ⟨hpos, hppos, hback⟩

end Relocates

/-! ### What readers see -/

/-- The tokens of pages, in the general form. -/
theorem tokenIds_eq (c : Config) (pages : List ℤ) :
    tokenIds c pages = pages.flatMap fun p =>
      (List.range c.pageSize.toNat).map fun i : ℕ => p * c.pageSize + (i : ℤ) := by
  rw [tokenIds]
  split
  · next h => simp [h]
  · rfl

theorem translateKvLoc_eq (c : Config) (a : Pool K) (t : ℤ) :
    translateKvLoc c a t = max 0 (a.v2p (t / c.pageSize) * c.pageSize + t % c.pageSize) := by
  rw [translateKvLoc]
  split
  · next h => simp [h]
  · rfl

/-- A token of a mapped page is translated to the same place in its physical page. -/
theorem translateKvLoc_of_mapped (ht : Tables a) {t : ℤ} (h : Mapped a (t / c.pageSize)) :
    translateKvLoc c a t = a.v2p (t / c.pageSize) * c.pageSize + t % c.pageSize := by
  rw [translateKvLoc_eq]
  have hpos := (ht.mapped _ h).2.1
  have hmod := Int.emod_nonneg t (ne_of_gt c.pageSize_pos)
  have := Int.mul_nonneg hpos.le c.pageSize_pos.le
  omega

/-- The pages and offsets of a list of pairs of pages. -/
def cells (c : Config) (l : List (ℤ × ℤ)) : List ((ℤ × ℤ) × ℕ) :=
  l.flatMap fun x => (List.range c.pageSize.toNat).map fun i => (x, i)

/-- A place in a page determines the page. -/
theorem page_unique {s p q : ℤ} {i j : ℕ} (hs : 0 < s) (hi : (i : ℤ) < s) (hj : (j : ℤ) < s)
    (h : p * s + i = q * s + j) : p = q ∧ i = j := by
  have hp : (p * s + i) / s = p := by
    rw [Int.add_comm, Int.add_mul_ediv_right _ _ (ne_of_gt hs),
      Int.ediv_eq_zero_of_lt (by omega) hi,
      Int.zero_add]
  have hq : (q * s + j) / s = q := by
    rw [Int.add_comm, Int.add_mul_ediv_right _ _ (ne_of_gt hs),
      Int.ediv_eq_zero_of_lt (by omega) hj,
      Int.zero_add]
  have hpq : p = q := by rw [← hp, h, hq]
  subst hpq
  exact ⟨rfl, by omega⟩

/-- **The copy**: the place of a destination holds what the same place of its source held,
and every other place what it held. -/
theorem moveKvCache_spec (c : Config) (kv : ℤ → K) {l : List (ℤ × ℤ)}
    (hl : (l.map Prod.snd).Nodup) {i : ℕ} (hi : (i : ℤ) < c.pageSize) :
    (∀ x ∈ l, moveKvCache c kv (l.map Prod.fst) (l.map Prod.snd) (x.2 * c.pageSize + i) =
        kv (x.1 * c.pageSize + i)) ∧
      ∀ p ∉ l.map Prod.snd, moveKvCache c kv (l.map Prod.fst) (l.map Prod.snd)
        (p * c.pageSize + i) = kv (p * c.pageSize + i) := by
  have hps := c.pageSize_pos
  have hdst : tokenIds c (l.map Prod.snd) =
      (cells c l).map fun y => y.1.2 * c.pageSize + (y.2 : ℤ) := by
    rw [tokenIds_eq, cells, List.map_flatMap, List.flatMap_map]
    exact List.flatMap_congr fun x _ => by rw [List.map_map]; rfl
  have hsrc : (tokenIds c (l.map Prod.fst)).map kv =
      (cells c l).map fun y => kv (y.1.1 * c.pageSize + (y.2 : ℤ)) := by
    rw [tokenIds_eq, cells, List.map_flatMap, List.map_flatMap, List.flatMap_map]
    exact List.flatMap_congr fun x _ => by rw [List.map_map, List.map_map]; rfl
  have hmem : ∀ y ∈ cells c l, y.1 ∈ l ∧ (y.2 : ℤ) < c.pageSize := by
    intro y hy
    obtain ⟨x, hx, hy⟩ := List.mem_flatMap.mp hy
    obtain ⟨j, hj, rfl⟩ := List.mem_map.mp hy
    rw [List.mem_range] at hj
    exact ⟨hx, by simp only; omega⟩
  refine ⟨fun x hx => ?_, fun p hp => ?_⟩
  · rw [moveKvCache, hdst, hsrc]
    have hx' : (x, i) ∈ cells c l :=
      List.mem_flatMap.mpr ⟨x, hx, List.mem_map.mpr ⟨i, List.mem_range.mpr (by omega), rfl⟩⟩
    refine scatter_map_of_agree kv (f := fun y : (ℤ × ℤ) × ℕ => y.1.2 * c.pageSize + (y.2 : ℤ))
      (g := fun y : (ℤ × ℤ) × ℕ => kv (y.1.1 * c.pageSize + (y.2 : ℤ))) hx' fun y hy heq => ?_
    obtain ⟨hyl, hyj⟩ := hmem y hy
    obtain ⟨hpage, hoff⟩ := page_unique hps hyj hi heq
    have hxy : y.1 = x := List.inj_on_of_nodup_map hl hyl hx hpage
    simp only [hxy, hoff]
  · rw [moveKvCache, hdst]
    refine scatter_of_notMem _ _ fun hc => ?_
    obtain ⟨y, hy, heq⟩ := List.mem_map.mp hc
    obtain ⟨hyl, hyj⟩ := hmem y hy
    obtain ⟨hpage, -⟩ := page_unique hps hyj hi heq
    exact hp (List.mem_map.mpr ⟨y.1, hyl, hpage⟩)

/-- **Compaction is invisible to readers**: a token of a page that is still mapped reads
what it read before. -/
theorem Relocates.kv_translate {l : List (ℤ × ℤ)} {cleared unmapped : List ℤ}
    (h : Relocates a b l cleared unmapped) (ht : Tables a)
    (hkv : b.kv = moveKvCache c a.kv (l.map Prod.fst) (l.map Prod.snd)) {t : ℤ}
    (hm : Mapped b (t / c.pageSize)) :
    b.kv (translateKvLoc c b t) = a.kv (translateKvLoc c a t) := by
  obtain ⟨hma, hun⟩ := (h.mapped_iff ht _).mp hm
  have hps := c.pageSize_pos
  obtain ⟨i, hi⟩ := Int.eq_ofNat_of_zero_le (Int.emod_nonneg t (ne_of_gt hps))
  have hilt : (i : ℤ) < c.pageSize := by
    have := Int.emod_lt_of_pos t hps
    omega
  obtain ⟨hmove, hrest⟩ := moveKvCache_spec c a.kv h.nodup_dst hilt
  rw [translateKvLoc_of_mapped (h.tables ht) hm, translateKvLoc_of_mapped ht hma, hkv, hi]
  obtain ⟨-, -, hback⟩ := ht.mapped _ hma
  by_cases hmoved : ∃ x ∈ l, a.p2v x.1 = t / c.pageSize
  · obtain ⟨x, hx, heq⟩ := hmoved
    rw [← heq, h.v2p_moved x hx, (ht.live x.1 (h.live x hx).1).2.2]
    exact hmove x hx
  · rw [h.v2p_rest _ hun fun x hx heq => hmoved ⟨x, hx, heq⟩]
    refine hrest _ fun hc => ?_
    obtain ⟨x, hx, heq⟩ := List.mem_map.mp hc
    have := h.dst_dead x hx (heq ▸ ht.live_v2p hma)
    rw [heq, hback] at this
    exact hun this

/-! ### What an operation keeps -/

/-- **What freeing and compacting keep**: everything is in order afterwards, exactly the
pages of `unmapped` are no longer mapped, and the others read as before. -/
structure Keeps (c : Config) (a b : Pool K) (unmapped : List ℤ) : Prop where
  inv : Inv c b
  mapped : ∀ v, Mapped b v ↔ Mapped a v ∧ v ∉ unmapped
  reads : ∀ t, Mapped b (t / c.pageSize) →
    b.kv (translateKvLoc c b t) = a.kv (translateKvLoc c a t)

/-- **Pages change hands** while the watermark stays: `released` ones stop being live,
`taken` ones become live. -/
theorem Books.exchange (h : Books c a) (released taken : List ℤ)
    (hwm : b.watermark = a.watermark) (hrel : released.Nodup) (hrelLive : ∀ p ∈ released, Live a p)
    (hperm : (a.freePhysPages ++ held a ++ released).Perm (b.freePhysPages ++ held b ++ taken))
    (hlive : ∀ p, Live b p ↔ Live a p ∧ p ∉ released ∨ p ∈ taken)
    (hkeys : (Dict.keys b.pendingReuse).Nodup)
    (hparked : ∀ p, p ∈ b.pendingReusePagesCpu ↔ p ∈ held b)
    (hsorted : c.sortFreeList = true → b.freePhysPages.Pairwise (· ≤ ·))
    (hcount : c.lazyCompaction = true →
      b.livePageCount = a.livePageCount - released.length + taken.length)
    (heager : c.lazyCompaction = false → b.freePhysPages = [] ∧ b.pendingReuse = []) :
    Books c b ∧ liveCount c b = liveCount c a - released.length + taken.length := by
  have hnodup : (b.freePhysPages ++ held b ++ taken).Nodup := by
    rw [← hperm.nodup_iff, List.nodup_append]
    refine ⟨h.nodup, hrel, ?_⟩
    rintro p hp q hq rfl
    exact h.not_live hp (hrelLive p hq)
  obtain ⟨hnodupB, -, hdisj⟩ := List.nodup_append.mp hnodup
  have hmem : ∀ p, p ∈ a.freePhysPages ++ held a ∨ p ∈ released ↔
      p ∈ b.freePhysPages ++ held b ∨ p ∈ taken := by
    intro p
    rw [← List.mem_append, ← List.mem_append]
    exact hperm.mem_iff
  have hcard : liveCount c b = liveCount c a - released.length + taken.length := by
    have hlen := hperm.length_eq
    simp only [List.length_append] at hlen
    rw [liveCount, liveCount, hwm]
    omega
  refine ⟨⟨hwm ▸ h.base_le, hwm ▸ h.range, fun p => ?_, fun p hp hfree => ?_, hnodupB, hkeys,
    hparked, hsorted, fun hlazy => ?_, heager⟩, hcard⟩
  · rw [hwm, h.band, hlive]
    constructor
    · rintro (hl | hf)
      · by_cases hr : p ∈ released
        · exact ((hmem p).mp (Or.inr hr)).symm.imp Or.inr id
        · exact Or.inl (Or.inl ⟨hl, hr⟩)
      · exact ((hmem p).mp (Or.inl hf)).symm.imp Or.inr id
    · rintro ((⟨hl, -⟩ | ht) | hf)
      · exact Or.inl hl
      · exact ((hmem p).mpr (Or.inr ht)).symm.imp (hrelLive p) id
      · exact ((hmem p).mpr (Or.inl hf)).symm.imp (hrelLive p) id
  · rcases (hlive p).mp hp with ⟨hl, hr⟩ | ht
    · exact ((hmem p).mpr (Or.inl hfree)).elim (h.live p hl) hr
    · exact hdisj p hfree p ht rfl
  · rw [hcount hlazy, h.count hlazy, hcard]

/-- **Ids come back** with the pages they were mapped to. -/
theorem Ids.unmap (h : Ids c a) {vs : List ℤ} (hvs : vs.Nodup) (hmappedVs : ∀ v ∈ vs, Mapped a v)
    (hids : b.freeVirtualIds =
      if c.isIdOwner then a.freeVirtualIds ++ vs else a.freeVirtualIds)
    (hmapped : ∀ v, Mapped b v ↔ Mapped a v ∧ v ∉ vs)
    (hcount : liveCount c b = liveCount c a - vs.length) : Ids c b := by
  have hsub : ∀ v ∈ b.freeVirtualIds, v ∈ a.freeVirtualIds ∨ c.isIdOwner = true ∧ v ∈ vs := by
    intro v hv
    rw [hids] at hv
    split at hv
    · next howner => exact (List.mem_append.mp hv).imp id fun hv => ⟨howner, hv⟩
    · exact Or.inl hv
  refine ⟨?_, fun v hv => ?_, fun v hv hm => ?_, fun howner v hv => ?_, fun howner => ?_,
    fun hnot => by simp [hids, hnot, h.none hnot]⟩
  · rw [hids]
    split
    · refine List.nodup_append.mpr ⟨h.nodup, hvs, ?_⟩
      rintro v hv w hw rfl
      exact h.unmapped v hv (hmappedVs v hw)
    · exact h.nodup
  · rcases hsub v hv with hv | ⟨howner, hv⟩
    · exact h.range v hv
    · exact h.mapped howner v (hmappedVs v hv)
  · rw [hmapped] at hm
    rcases hsub v hv with hv | ⟨-, hv⟩
    · exact h.unmapped v hv hm.1
    · exact hm.2 hv
  · exact h.mapped howner v ((hmapped v).mp hv).1
  · have hlen := h.length howner
    rw [hids, if_pos howner, List.length_append, hcount]
    push_cast
    omega

/-- **A relocation with its books in order** keeps everything. -/
theorem Relocates.keeps {l : List (ℤ × ℤ)} {cleared unmapped : List ℤ}
    (hrel : Relocates a b l cleared unmapped) (h : Inv c a) (hbooks : Books c b)
    (hcount : liveCount c b = liveCount c a - unmapped.length) (hnodup : unmapped.Nodup)
    (hmapped : ∀ v ∈ unmapped, Mapped a v)
    (hids : b.freeVirtualIds =
      if c.isIdOwner then a.freeVirtualIds ++ unmapped else a.freeVirtualIds)
    (hkv : b.kv = moveKvCache c a.kv (l.map Prod.fst) (l.map Prod.snd)) :
    Keeps c a b unmapped :=
  ⟨⟨hrel.tables h.tables, hbooks,
      h.ids.unmap hnodup hmapped hids (hrel.mapped_iff h.tables) hcount⟩,
    hrel.mapped_iff h.tables, fun _ ht => hrel.kv_translate h.tables hkv ht⟩

/-! ### Freeing -/

theorem nodup_uniquePages (pages : List ℤ) : (uniquePages pages).Nodup :=
  (perm_sortPages _).nodup_iff.mpr (List.nodup_dedup _)

theorem mem_uniquePages {pages : List ℤ} {v : ℤ} : v ∈ uniquePages pages ↔ v ∈ pages :=
  (perm_sortPages _).mem_iff.trans List.mem_dedup

/-- The freed pages are the pages of the freed tokens, each once. -/
theorem freedPages_spec (c : Config) {ids : List ℤ} (hids : ids.Nodup) :
    (freedPages c ids).Nodup ∧ ∀ v, v ∈ freedPages c ids ↔ v ∈ ids.map (· / c.pageSize) := by
  rw [freedPages]
  split
  · next h =>
    refine ⟨hids, fun v => ?_⟩
    simp [h]
  · exact ⟨nodup_uniquePages _, fun v => mem_uniquePages⟩

section Free

variable {vs : List ℤ}

/-- The physical pages of mapped pages are live, and different ones for different pages. -/
theorem Tables.map_v2p (h : Tables a) (hvs : vs.Nodup) (hm : ∀ v ∈ vs, Mapped a v) :
    (vs.map a.v2p).Nodup ∧ (∀ p ∈ vs.map a.v2p, Live a p) ∧
      ∀ p, Live a p → (a.p2v p ∈ vs ↔ p ∈ vs.map a.v2p) := by
  refine ⟨hvs.map_on fun v hv w hw heq => h.v2p_inj (hm v hv) (hm w hw) heq, fun p hp => ?_,
    fun p hp => ⟨fun hmem => ?_, fun hmem => ?_⟩⟩
  · obtain ⟨v, hv, rfl⟩ := List.mem_map.mp hp
    exact h.live_v2p (hm v hv)
  · exact List.mem_map.mpr ⟨_, hmem, (h.live p hp).2.2⟩
  · obtain ⟨v, hv, rfl⟩ := List.mem_map.mp hmem
    rwa [(h.mapped v (hm v hv)).2.2]

/-- **A lazy free** moves nothing and puts the pages on the free list. -/
theorem freeLazy_keeps (h : Inv c a) (hlazy : c.lazyCompaction = true) {ids : List ℤ}
    (hids : ids.Nodup) (hm : ∀ t ∈ ids, Mapped a (t / c.pageSize)) :
    Keeps c a (freeLazy c a ids) (freedPages c ids) := by
  obtain ⟨hnodup, hmem⟩ := freedPages_spec c hids
  have hmapped : ∀ v ∈ freedPages c ids, Mapped a v := by
    intro v hv
    obtain ⟨t, ht, rfl⟩ := List.mem_map.mp ((hmem v).mp hv)
    exact hm t ht
  obtain ⟨hnodupP, hliveP, hback⟩ := h.tables.map_v2p hnodup hmapped
  set freeV := freedPages c ids with hfreeV
  have hp2v : ∀ p, (freeLazy c a ids).p2v p = if p ∈ freeV.map a.v2p then -1 else a.p2v p :=
    fun p => scatter_const _ _ _ _
  have hv2p : ∀ v, (freeLazy c a ids).v2p v = if v ∈ freeV then -1 else a.v2p v :=
    fun v => scatter_const _ _ _ _
  have hrel : Relocates a (freeLazy c a ids) [] (freeV.map a.v2p) freeV := by
    refine ⟨by simp, by simp, by simp, by simp, by simp, by simp, by simp,
      fun p hp hl => Or.inr ((hback p hl).mpr hp), fun p hl hp => Or.inl ((hback p hl).mp hp),
      by simp, fun p hp => ?_, fun p hp _ => ?_, by simp, fun v hv => ?_, fun v hv _ => ?_⟩
    · rw [hp2v, if_pos hp]
    · rw [hp2v, if_neg hp]
    · rw [hv2p, if_pos hv]
    · rw [hv2p, if_neg hv]
  have hperm : (a.freePhysPages ++ held a ++ freeV.map a.v2p).Perm
      ((freeLazy c a ids).freePhysPages ++ held (freeLazy c a ids) ++ []) := by
    have hfree : (freeLazy c a ids).freePhysPages.Perm (a.freePhysPages ++ freeV.map a.v2p) :=
      perm_mergeFree c _
    have hheld : held (freeLazy c a ids) = held a := rfl
    rw [hheld, List.append_nil, List.append_assoc]
    refine List.Perm.trans ?_ (hfree.append_right _).symm
    rw [List.append_assoc]
    exact List.perm_append_comm.append_left _
  have hlive : ∀ p, Live (freeLazy c a ids) p ↔ Live a p ∧ p ∉ freeV.map a.v2p ∨ p ∈ [] := by
    intro p
    rw [hrel.live_iff]
    simp only [List.map_nil, List.not_mem_nil, false_or, or_false, not_false_eq_true, true_and]
    exact and_congr_right fun hl => not_congr (hback p hl)
  obtain ⟨hbooks, hcount⟩ := h.books.exchange (b := freeLazy c a ids) (freeV.map a.v2p) []
    rfl hnodupP hliveP hperm hlive h.books.keys h.books.parked
    (fun hs => pairwise_mergeFree hs _) (fun _ => by simp [freeLazy, hfreeV])
    (fun he => by simp [hlazy] at he)
  refine hrel.keeps h hbooks ?_ hnodup hmapped rfl ?_
  · rw [hcount, List.length_map]
    simp
  · simp [moveKvCache, tokenIds_eq, freeLazy]

/-- **The remap of a batch**: the virtual page of every source is at its destination, and
nothing else changed. -/
theorem Tables.scatter_moved (h : Tables a) {l : List (ℤ × ℤ)} (hlive : ∀ x ∈ l, Live a x.1)
    (hnodup : (l.map Prod.fst).Nodup) (m : ℤ → ℤ) :
    (∀ x ∈ l, scatter m ((l.map Prod.fst).map a.p2v) (l.map Prod.snd) (a.p2v x.1) = x.2) ∧
      ∀ v, (∀ x ∈ l, a.p2v x.1 ≠ v) →
        scatter m ((l.map Prod.fst).map a.p2v) (l.map Prod.snd) v = m v := by
  have hmoved : ((l.map Prod.fst).map a.p2v).Nodup := by
    refine hnodup.map_on fun p hp q hq heq => ?_
    obtain ⟨x, hx, rfl⟩ := List.mem_map.mp hp
    obtain ⟨y, hy, rfl⟩ := List.mem_map.mp hq
    exact h.p2v_inj (hlive x hx) (hlive y hy) heq
  rw [List.map_map] at hmoved ⊢
  refine ⟨fun x hx => scatter_map m Prod.snd hmoved hx, fun v hv => ?_⟩
  refine scatter_of_notMem m _ fun hc => ?_
  obtain ⟨x, hx, heq⟩ := List.mem_map.mp hc
  exact hv x hx heq

/-! ### Eager compaction -/

/-- What `_compact_pending` works out: the vacated pages, the survivors among them, and the
holes of the rest of the band. -/
structure Compaction (c : Config) (a : Pool K) (freed vacated srcs dsts : List ℤ) : Prop where
  /-- As many pages are vacated as were freed. -/
  mem_vacated : ∀ p, p ∈ vacated ↔
    c.level a.watermark - freed.length ≤ c.depth p ∧ c.depth p < c.level a.watermark
  /-- The survivors are those that were not freed. -/
  mem_srcs : ∀ p, p ∈ srcs ↔ p ∈ vacated ∧ p ∉ freed
  /-- The holes are the freed pages that are not vacated. -/
  mem_dsts : ∀ p, p ∈ dsts ↔ p ∈ freed ∧ c.depth p < c.level a.watermark - freed.length
  nodup_srcs : srcs.Nodup
  nodup_dsts : dsts.Nodup
  length_eq : srcs.length = dsts.length

/-- As many survive among the vacated pages as holes are left in the rest. -/
theorem length_survivors {freed vacated srcs dsts : List ℤ} (hfreed : freed.Nodup)
    (hvacated : vacated.Nodup) (hlen : vacated.length = freed.length)
    (hsrcs : srcs.Nodup) (hmemSrcs : ∀ p, p ∈ srcs ↔ p ∈ vacated ∧ p ∉ freed)
    (hdsts : dsts.Nodup) (hmemDsts : ∀ p, p ∈ dsts ↔ p ∈ freed ∧ p ∉ vacated) :
    srcs.length = dsts.length := by
  rw [← List.toFinset_card_of_nodup hsrcs, ← List.toFinset_card_of_nodup hdsts]
  have hs : srcs.toFinset = vacated.toFinset \ freed.toFinset := by
    ext p
    simp [hmemSrcs]
  have hd : dsts.toFinset = freed.toFinset \ vacated.toFinset := by
    ext p
    simp [hmemDsts]
  rw [hs, hd]
  refine Finset.card_sdiff_comm ?_
  rw [List.toFinset_card_of_nodup hvacated, List.toFinset_card_of_nodup hfreed, hlen]

/-- Different pages of the band are no more than the band has. -/
theorem Config.length_le (c : Config) {wm : ℤ} {pages : List ℤ} (hnodup : pages.Nodup)
    (hband : ∀ p ∈ pages, c.InBand wm p) (hbase : c.base ≤ c.level wm) :
    c.base ≤ c.level wm - pages.length := by
  have hsub : (pages.map c.depth).toFinset ⊆ Finset.Ico c.base (c.level wm) := by
    intro z hz
    rw [List.mem_toFinset, List.mem_map] at hz
    obtain ⟨p, hp, rfl⟩ := hz
    exact Finset.mem_Ico.mpr (c.inBand_iff.mp (hband p hp))
  have hcard := Finset.card_le_card hsub
  rw [List.toFinset_card_of_nodup (hnodup.map c.depth_injective), List.length_map,
    Int.card_Ico] at hcard
  omega

/-- The lists of either branch, from what their bounds say about depths. -/
theorem Compaction.of_range {freed : List ℤ} (start : ℤ) (kept : ℤ → Bool) (hnodup : freed.Nodup)
    (hband : ∀ p ∈ freed, c.depth p < c.level a.watermark)
    (hstart : ∀ p, p ∈ pageRange start freed.length ↔
      c.level a.watermark - freed.length ≤ c.depth p ∧ c.depth p < c.level a.watermark)
    (hkept : ∀ p, kept p = true ↔ c.depth p < c.level a.watermark - freed.length) :
    Compaction c a freed (pageRange start freed.length)
      ((pageRange start freed.length).filter fun s => s ∉ freed)
      (sortPages (freed.filter kept)) := by
  have hmemSrcs : ∀ p, p ∈ (pageRange start freed.length).filter (fun s => s ∉ freed) ↔
      p ∈ pageRange start freed.length ∧ p ∉ freed := by
    intro p
    rw [List.mem_filter, decide_eq_true_iff]
  have hmemDsts : ∀ p, p ∈ sortPages (freed.filter kept) ↔
      p ∈ freed ∧ c.depth p < c.level a.watermark - freed.length := by
    intro p
    rw [(perm_sortPages _).mem_iff, List.mem_filter, hkept]
  have hnodupSrcs := (nodup_pageRange start freed.length).filter fun s => s ∉ freed
  have hnodupDsts := (perm_sortPages _).nodup_iff.mpr (hnodup.filter kept)
  refine ⟨hstart, hmemSrcs, hmemDsts, hnodupSrcs, hnodupDsts, ?_⟩
  refine length_survivors hnodup (nodup_pageRange _ _) (length_pageRange _ _) hnodupSrcs hmemSrcs
    hnodupDsts fun p => ?_
  rw [hmemDsts, hstart]
  refine and_congr_right fun hp => ?_
  have := hband p hp
  omega

/-- **`_compact_pending`** passes its assertions and does what it worked out. -/
theorem compactPending_eq (c : Config) (a : Pool K) {freed : List ℤ} (hne : freed ≠ [])
    (hnodup : freed.Nodup) (hband : ∀ p ∈ freed, c.InBand a.watermark p)
    (hbase : c.base ≤ c.level a.watermark) :
    ∃ vacated srcs dsts, Compaction c a freed vacated srcs dsts ∧
      compactPending c a freed = .ok (relocate c
        { a with watermark := c.retreat a.watermark freed.length } srcs dsts vacated) := by
  have hroom := c.length_le hnodup hband hbase
  have hdepth : ∀ p ∈ freed, c.depth p < c.level a.watermark :=
    fun p hp => (c.inBand_iff.mp (hband p hp)).2
  rcases hg : c.grow with _ | _
  · have hcomp : Compaction c a freed _ _ _ := Compaction.of_range
      (a.watermark - freed.length) (fun h => h < a.watermark - freed.length) hnodup hdepth
      (fun p => by
        rw [mem_pageRange]
        simp only [Config.level, Config.depth, hg]
        omega) (fun p => by simp [Config.level, Config.depth, hg])
    simp only [Config.InBand, Config.level, Config.base, hg] at hband hroom
    refine ⟨_, _, _, hcomp, ?_⟩
    rw [compactPending, hnodup.dedup, if_neg hne]
    simp only [hg, Config.retreat]
    rw [if_neg (by omega), if_neg (not_not.mpr hband), if_neg (not_not.mpr hcomp.length_eq)]
  · have hcomp : Compaction c a freed _ _ _ := Compaction.of_range
      (a.watermark + 1) (fun h => a.watermark + freed.length < h) hnodup hdepth (fun p => by
        rw [mem_pageRange]
        simp only [Config.level, Config.depth, hg]
        omega) (fun p => by
        simp only [Config.level, Config.depth, hg, decide_eq_true_iff]
        omega)
    simp only [Config.InBand, Config.level, Config.base, hg] at hband hroom
    refine ⟨_, _, _, hcomp, ?_⟩
    rw [compactPending, hnodup.dedup, if_neg hne]
    simp only [hg, Config.retreat]
    rw [if_neg (by omega), if_neg (not_not.mpr hband), if_neg (not_not.mpr hcomp.length_eq)]

/-- In the eager mode the whole band is live. -/
theorem Books.live_iff (h : Books c a) (heager : c.lazyCompaction = false) (p : ℤ) :
    Live a p ↔ c.base ≤ c.depth p ∧ c.depth p < c.level a.watermark := by
  obtain ⟨hfree, hpend⟩ := h.eager heager
  have hband := h.band p
  rw [hfree, held, hpend, c.inBand_iff] at hband
  simpa using hband.symm

/-- **An eager compaction is a relocation.** -/
theorem Compaction.relocates (ht : Tables a) (hb : Books c a) (heager : c.lazyCompaction = false)
    (hvs : vs.Nodup) (hm : ∀ v ∈ vs, Mapped a v) (wm : ℤ) {vacated srcs dsts : List ℤ}
    (h : Compaction c a (vs.map a.v2p) vacated srcs dsts) :
    Relocates a (relocate c { unmapEager c a vs with watermark := wm } srcs dsts vacated)
      (srcs.zip dsts) vacated vs := by
  obtain ⟨hnodupP, hliveP, hback⟩ := ht.map_v2p hvs hm
  have hband := hb.live_iff heager
  have hroom := c.length_le hnodupP (fun p hp => hb.inBand (hliveP p hp)) hb.base_le
  -- the batch is indexed by the pairs it moves
  obtain ⟨l, rfl, rfl⟩ : ∃ l : List (ℤ × ℤ), l.map Prod.fst = srcs ∧ l.map Prod.snd = dsts :=
    ⟨srcs.zip dsts, List.map_fst_zip h.length_eq.le, List.map_snd_zip h.length_eq.ge⟩
  have hzip : (l.map Prod.fst).zip (l.map Prod.snd) = l := by simp [List.zip_map']
  rw [hzip]
  have hsrc : ∀ x ∈ l, x.1 ∈ vacated ∧ x.1 ∉ vs.map a.v2p :=
    fun x hx => (h.mem_srcs x.1).mp (List.mem_map.mpr ⟨x, hx, rfl⟩)
  have hdst : ∀ x ∈ l, x.2 ∈ vs.map a.v2p ∧
      c.depth x.2 < c.level a.watermark - (vs.map a.v2p).length :=
    fun x hx => (h.mem_dsts x.2).mp (List.mem_map.mpr ⟨x, hx, rfl⟩)
  have hlive : ∀ x ∈ l, Live a x.1 ∧ a.p2v x.1 ∉ vs := by
    intro x hx
    have hd := (h.mem_vacated x.1).mp (hsrc x hx).1
    have hl : Live a x.1 := (hband x.1).mpr (by omega)
    exact ⟨hl, fun hc => (hsrc x hx).2 ((hback x.1 hl).mp hc)⟩
  have hnotCleared : ∀ p ∈ vacated, p ∉ l.map Prod.snd := by
    intro p hp hc
    have hd := (h.mem_vacated p).mp hp
    have := ((h.mem_dsts p).mp hc).2
    omega
  obtain ⟨hv2p, hv2p'⟩ := ht.scatter_moved (fun x hx => (hlive x hx).1) h.nodup_srcs
    (scatter a.v2p vs (vs.map fun _ => -1))
  refine ⟨hlive, h.nodup_srcs, h.nodup_dsts, fun x hx => (ht.live _ (hliveP _ (hdst x hx).1)).1,
    fun x hx hl => (hback x.2 hl).mpr (hdst x hx).1, fun x hx => (hsrc x hx).1,
    fun x hx hc => hnotCleared x.2 hc (List.mem_map.mpr ⟨x, hx, rfl⟩), fun p hp hl => ?_,
    fun p hl hun => ?_, fun x hx => ?_, fun p hp => ?_, fun p hp hd => ?_, fun x hx => ?_,
    fun v hv => ?_, fun v hv hne => ?_⟩
  · rw [hback p hl]
    by_cases hf : p ∈ vs.map a.v2p
    · exact Or.inr hf
    · exact Or.inl ((h.mem_srcs p).mpr ⟨hp, hf⟩)
  · have hd := (hband p).mp hl
    have hf := (hback p hl).mp hun
    rw [h.mem_vacated, h.mem_dsts]
    by_cases hlow : c.depth p < c.level a.watermark - (vs.map a.v2p).length
    · exact Or.inr ⟨hf, hlow⟩
    · exact Or.inl ⟨by omega, hd.2⟩
  · change scatter _ _ ((l.map Prod.fst).map a.p2v) _ = _
    rw [List.map_map]
    exact scatter_map _ (a.p2v ∘ Prod.fst) h.nodup_dsts hx
  · change scatter (scatter a.p2v _ _) _ _ _ = _
    rw [scatter_of_notMem _ _ (hnotCleared p hp), scatter_const, if_pos hp]
  · change scatter (scatter a.p2v _ _) _ _ _ = _
    rw [scatter_of_notMem _ _ hd, scatter_const, if_neg hp]
  · exact hv2p x hx
  · refine (hv2p' v fun x hx heq => (hlive x hx).2 (heq ▸ hv)).trans ?_
    rw [scatter_const, if_pos hv]
  · refine (hv2p' v hne).trans ?_
    rw [scatter_const, if_neg hv]

/-- **The band after an eager compaction** is live again, and shorter by what was freed. -/
theorem Compaction.books (h : Inv c a) (heager : c.lazyCompaction = false) (hvs : vs.Nodup)
    (hm : ∀ v ∈ vs, Mapped a v) {vacated srcs dsts : List ℤ}
    (hcomp : Compaction c a (vs.map a.v2p) vacated srcs dsts)
    (hb : b = relocate c { unmapEager c a vs with
      watermark := c.retreat a.watermark (vs.map a.v2p).length } srcs dsts vacated) :
    Books c b ∧ liveCount c b = liveCount c a - vs.length := by
  obtain ⟨hnodupP, hliveP, hback⟩ := h.tables.map_v2p hvs hm
  have hrel : Relocates a b (srcs.zip dsts) vacated vs :=
    hb ▸ hcomp.relocates h.tables h.books heager hvs hm _
  have hfst : (srcs.zip dsts).map Prod.fst = srcs := List.map_fst_zip hcomp.length_eq.le
  have hsnd : (srcs.zip dsts).map Prod.snd = dsts := List.map_snd_zip hcomp.length_eq.ge
  obtain ⟨hfree, hpend⟩ := h.books.eager heager
  have hroom := c.length_le hnodupP (fun p hp => h.books.inBand (hliveP p hp)) h.books.base_le
  have hlive := h.books.live_iff heager
  have hlevel : c.level b.watermark = c.level a.watermark - (vs.map a.v2p).length := by
    rw [hb]
    exact c.level_retreat _ _
  have hpendB : b.pendingReuse = [] := by
    rw [hb]
    exact hpend
  have hheld : held b = [] := by rw [held, hpendB, List.flatMap_nil]
  have hfreeB : b.freePhysPages = [] := by
    rw [hb]
    exact hfree
  have hcpu : b.pendingReusePagesCpu = a.pendingReusePagesCpu := by
    rw [hb]
    rfl
  have hband : ∀ p, c.InBand b.watermark p ↔ Live b p := by
    intro p
    rw [c.inBand_iff, hlevel, hrel.live_iff, hfst, hsnd, hcomp.mem_dsts, hcomp.mem_srcs,
      hcomp.mem_vacated]
    constructor
    · rintro ⟨hlo, hhi⟩
      have hl : Live a p := (hlive p).mpr (by omega)
      by_cases hf : p ∈ vs.map a.v2p
      · exact Or.inl ⟨hf, hhi⟩
      · exact Or.inr ⟨hl, fun hc => by omega, fun hc => hf ((hback p hl).mp hc)⟩
    · rintro (⟨hf, hhi⟩ | ⟨hl, hsrc, hun⟩)
      · exact ⟨((hlive p).mp (hliveP p hf)).1, hhi⟩
      · have hd := (hlive p).mp hl
        refine ⟨hd.1, ?_⟩
        by_contra hc
        exact hsrc ⟨⟨by omega, hd.2⟩, fun hf => hun ((hback p hl).mpr hf)⟩
  refine ⟨⟨by omega, fun p hp => h.books.range p ?_, fun p => ?_, fun p _ => ?_, ?_, ?_,
    fun p => ?_,
    fun _ => ?_, fun hl => by simp [heager] at hl, fun _ => ⟨hfreeB, hpendB⟩⟩, ?_⟩
  · rw [c.inBand_iff] at hp ⊢
    omega
  · rw [hband, hfreeB, hheld]
    simp
  · rw [hfreeB, hheld]
    simp
  · rw [hfreeB, hheld]
    simp
  · rw [hpendB]
    exact List.nodup_nil
  · rw [hcpu, h.books.parked, held, hpend, hheld, List.flatMap_nil]
  · rw [hfreeB]
    exact List.Pairwise.nil
  · rw [liveCount, liveCount, hlevel, hheld, hfreeB, hfree, held, hpend, List.length_map]
    simp only [List.length_nil, List.flatMap_nil, Nat.cast_zero]
    omega

/-- **An eager free** closes the holes it makes. -/
theorem freeEager_keeps (h : Inv c a) (heager : c.lazyCompaction = false) {ids : List ℤ}
    (hne : ids ≠ []) (hm : ∀ t ∈ ids, Mapped a (t / c.pageSize)) :
    ∃ b, freeEager c a ids = .ok b ∧
      Keeps c a b (uniquePages (ids.map (· / c.pageSize))) := by
  set vs := uniquePages (ids.map (· / c.pageSize)) with hvsdef
  have hvs : vs.Nodup := nodup_uniquePages _
  have hmapped : ∀ v ∈ vs, Mapped a v := by
    intro v hv
    obtain ⟨t, ht, rfl⟩ := List.mem_map.mp (mem_uniquePages.mp hv)
    exact hm t ht
  obtain ⟨hnodupP, hliveP, -⟩ := h.tables.map_v2p hvs hmapped
  have hnonempty : vs.map a.v2p ≠ [] := by
    obtain ⟨t, ht⟩ := List.exists_mem_of_ne_nil ids hne
    have : t / c.pageSize ∈ vs := mem_uniquePages.mpr (List.mem_map.mpr ⟨t, ht, rfl⟩)
    exact List.ne_nil_of_mem (List.mem_map.mpr ⟨_, this, rfl⟩)
  obtain ⟨vacated, srcs, dsts, hcomp, hok⟩ := compactPending_eq c (unmapEager c a vs) hnonempty
    hnodupP (fun p hp => h.books.inBand (hliveP p hp)) h.books.base_le
  -- the compaction was worked out from what unmapping leaves alone
  have hcomp' : Compaction c a (vs.map a.v2p) vacated srcs dsts :=
    ⟨hcomp.mem_vacated, hcomp.mem_srcs, hcomp.mem_dsts, hcomp.nodup_srcs, hcomp.nodup_dsts,
      hcomp.length_eq⟩
  obtain ⟨hbooks, hcount⟩ := hcomp'.books h heager hvs hmapped rfl
  have hrel := hcomp'.relocates h.tables h.books heager hvs hmapped
    (c.retreat a.watermark (vs.map a.v2p).length)
  have hmappedP : ¬∃ p ∈ vs.map a.v2p, p < 0 := by
    rintro ⟨p, hp, hneg⟩
    have := (h.tables.live p (hliveP p hp)).1
    omega
  refine ⟨_, (if_neg hmappedP).trans hok, hrel.keeps h hbooks hcount hvs hmapped rfl ?_⟩
  rw [List.map_fst_zip hcomp.length_eq.le, List.map_snd_zip hcomp.length_eq.ge]
  rfl

end Free

/-- **Freeing** allocated ids, each once. -/
theorem free_keeps (h : Inv c a) {ids : List ℤ} (hids : ids.Nodup)
    (hm : ∀ t ∈ ids, Mapped a (t / c.pageSize)) :
    ∃ b vs, free c a ids = .ok b ∧ Keeps c a b vs ∧ ∀ v, v ∈ vs ↔ v ∈ ids.map (· / c.pageSize) := by
  rw [free]
  split
  · next hnil => exact ⟨a, [], rfl, ⟨h, by simp, fun _ _ => rfl⟩, by simp [hnil]⟩
  · next hne =>
    split
    · next hlazy =>
      exact ⟨_, _, rfl, freeLazy_keeps h hlazy hids hm, (freedPages_spec c hids).2⟩
    · next heager =>
      obtain ⟨b, hb, hkeeps⟩ := freeEager_keeps h (by simpa using heager) hne hm
      exact ⟨b, _, hb, hkeeps, fun v => mem_uniquePages⟩

end MultiEnded

end HtSglang
