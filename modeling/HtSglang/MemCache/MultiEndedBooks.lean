import HtSglang.MemCache.MultiEndedFlush

/-!
# The books of the multi-ended allocator

What holds of an allocator at all times, in either mode
(`HtSglang.MultiEnded.Inv`): the two tables are inverse to each other
(`HtSglang.MultiEnded.Tables`); the pages of the band are the live ones, those on the free
list and those parked under an event, without overlap
(`HtSglang.MultiEnded.Books`); and the virtual ids that are not mapped are those on the
list of ids (`HtSglang.MultiEnded.Ids`). This module proves it of clearing, allocating and
freeing without compaction.
-/

namespace HtSglang

namespace MultiEnded

variable {K : Type}

/-! ### The invariant -/

/-- A live page. Page `0` is the sink and belongs to nobody. -/
def Live (a : Pool K) (p : ℤ) : Prop := p ≠ 0 ∧ 0 ≤ a.p2v p

instance (a : Pool K) (p : ℤ) : Decidable (Live a p) :=
  inferInstanceAs (Decidable (_ ∧ _))

/-- A mapped virtual page. -/
def Mapped (a : Pool K) (v : ℤ) : Prop := v ≠ 0 ∧ 0 ≤ a.v2p v

/-- The parked pages. -/
def held (a : Pool K) : List ℤ := a.pendingReuse.flatMap Prod.snd

/-- How many pages of the band are neither free nor parked. -/
def liveCount (c : Config) (a : Pool K) : ℤ :=
  c.level a.watermark - c.base - a.freePhysPages.length - (held a).length

/-- **The tables are inverse to each other** on the live and the mapped pages. -/
structure Tables (a : Pool K) : Prop where
  /-- From a live page to its virtual page and back. -/
  live : ∀ p, Live a p → 0 < p ∧ 0 < a.p2v p ∧ a.v2p (a.p2v p) = p
  /-- From a mapped page to its physical page and back. -/
  mapped : ∀ v, Mapped a v → 0 < v ∧ 0 < a.v2p v ∧ a.p2v (a.v2p v) = v

/-- **The pages of the band.** -/
structure Books (c : Config) (a : Pool K) : Prop where
  /-- The band starts at the sub-pool's own end. -/
  base_le : c.base ≤ c.level a.watermark
  range : ∀ p, c.InBand a.watermark p → c.minPageIndex ≤ p ∧ p < c.numPages
  /-- It consists of the live, the free and the parked pages. -/
  band : ∀ p, c.InBand a.watermark p ↔ Live a p ∨ p ∈ a.freePhysPages ++ held a
  live : ∀ p, Live a p → p ∉ a.freePhysPages ++ held a
  nodup : (a.freePhysPages ++ held a).Nodup
  keys : (Dict.keys a.pendingReuse).Nodup
  parked : ∀ p, p ∈ a.pendingReusePagesCpu ↔ p ∈ held a
  /-- The free list is sorted when it is kept so. -/
  sorted : c.sortFreeList = true → a.freePhysPages.Pairwise (· ≤ ·)
  count : c.lazyCompaction = true → a.livePageCount = liveCount c a
  /-- The eager mode has neither holes nor parked pages. -/
  eager : c.lazyCompaction = false → a.freePhysPages = [] ∧ a.pendingReuse = []

/-- **The virtual ids** of an allocator that owns them. -/
structure Ids (c : Config) (a : Pool K) : Prop where
  nodup : a.freeVirtualIds.Nodup
  range : ∀ v ∈ a.freeVirtualIds, c.minPageIndex ≤ v ∧ v < c.numPages
  unmapped : ∀ v ∈ a.freeVirtualIds, ¬Mapped a v
  /-- What is mapped came from here. -/
  mapped : c.isIdOwner = true → ∀ v, Mapped a v → c.minPageIndex ≤ v ∧ v < c.numPages
  /-- There is one for every page that is not live. -/
  length : c.isIdOwner = true →
    (a.freeVirtualIds.length : ℤ) = max 0 (c.numPages - c.minPageIndex) - liveCount c a
  /-- An allocator that does not own them has none. -/
  none : c.isIdOwner = false → a.freeVirtualIds = []

/-- **What holds of an allocator.** -/
structure Inv (c : Config) (a : Pool K) : Prop where
  tables : Tables a
  books : Books c a
  ids : Ids c a

section Basic

variable {c : Config} {a : Pool K}

theorem Tables.live_v2p (h : Tables a) {v : ℤ} (hv : Mapped a v) : Live a (a.v2p v) := by
  obtain ⟨hpos, hppos, hback⟩ := h.mapped v hv
  exact ⟨by omega, by omega⟩

theorem Tables.mapped_p2v (h : Tables a) {p : ℤ} (hp : Live a p) : Mapped a (a.p2v p) := by
  obtain ⟨hpos, hvpos, hback⟩ := h.live p hp
  exact ⟨by omega, by omega⟩

/-- **The tables are injective** on the mapped pages. -/
theorem Tables.v2p_inj (h : Tables a) {v v' : ℤ} (hv : Mapped a v) (hv' : Mapped a v')
    (heq : a.v2p v = a.v2p v') : v = v' := by
  rw [← (h.mapped v hv).2.2, heq, (h.mapped v' hv').2.2]

theorem Tables.p2v_inj (h : Tables a) {p p' : ℤ} (hp : Live a p) (hp' : Live a p')
    (heq : a.p2v p = a.p2v p') : p = p' := by
  rw [← (h.live p hp).2.2, heq, (h.live p' hp').2.2]

theorem Books.inBand (h : Books c a) {p : ℤ} (hp : Live a p) : c.InBand a.watermark p :=
  (h.band p).mpr (Or.inl hp)

theorem Books.not_live (h : Books c a) {p : ℤ} (hp : p ∈ a.freePhysPages ++ held a) : ¬Live a p :=
  fun hl => h.live p hl hp

/-- Nothing allocated. -/
theorem clear_inv (c : Config) (kv : ℤ → K) : Inv c (clear c kv) := by
  have hlive : ∀ p, ¬Live (clear c kv) p := by
    rintro p ⟨hne, hp⟩
    simp [clear, Function.update_of_ne hne] at hp
  have hmapped : ∀ v, ¬Mapped (clear c kv) v := by
    rintro v ⟨hne, hv⟩
    simp [clear, Function.update_of_ne hne] at hv
  have hcount : liveCount c (clear c kv) = 0 := by
    simp [liveCount, clear, held, c.level_startWatermark]
  have hband : ∀ p, ¬c.InBand (clear c kv).watermark p := by
    intro p
    rw [c.inBand_iff]
    change ¬(_ ∧ _ < c.level c.startWatermark)
    rw [c.level_startWatermark]
    omega
  refine ⟨⟨fun p hp => absurd hp (hlive p), fun v hv => absurd hv (hmapped v)⟩,
    ⟨c.level_startWatermark.ge, fun p hp => absurd hp (hband p), fun p => ?_,
      fun p hp => absurd hp (hlive p), by simp [clear, held], by simp [clear],
      by simp [clear, held],
      by simp [clear], fun _ => hcount.symm, fun _ => ⟨rfl, rfl⟩⟩,
    ⟨?_, ?_, fun v _ => hmapped v, fun _ v hv => absurd hv (hmapped v), fun howner => ?_,
      fun hnot => by simp [clear, hnot]⟩⟩
  · refine iff_of_false (hband p) ?_
    rintro (hp | hp)
    · exact hlive p hp
    · simp [clear, held] at hp
  · simp only [clear]
    split
    · exact nodup_pageRange _ _
    · exact List.nodup_nil
  · intro v hv
    simp only [clear] at hv
    split at hv
    · rw [mem_pageRange] at hv
      omega
    · cases hv
  · rw [hcount]
    simp only [clear, howner, if_true, length_pageRange]
    omega

end Basic

/-! ### Binding -/

section Bind

variable {c : Config} {a : Pool K}

/-- **Binding** virtual pages that are not mapped to physical pages that are not live. -/
theorem Tables.bind (h : Tables a) {vs ps : List ℤ} (hlen : vs.length = ps.length)
    (hvs : vs.Nodup) (hps : ps.Nodup) (hv : ∀ v ∈ vs, 0 < v ∧ ¬Mapped a v)
    (hp : ∀ p ∈ ps, 0 < p ∧ ¬Live a p) :
    Tables (bindPages a vs ps) ∧
      (∀ p, Live (bindPages a vs ps) p ↔ Live a p ∨ p ∈ ps) ∧
      ∀ v, Mapped (bindPages a vs ps) v ↔ Mapped a v ∨ v ∈ vs := by
  -- the batch is indexed by the pairs it binds
  obtain ⟨l, rfl, rfl⟩ : ∃ l : List (ℤ × ℤ), l.map Prod.fst = vs ∧ l.map Prod.snd = ps :=
    ⟨vs.zip ps, List.map_fst_zip (by omega), List.map_snd_zip (by omega)⟩
  have hv2p : ∀ x ∈ l, (bindPages a (l.map Prod.fst) (l.map Prod.snd)).v2p x.1 = x.2 :=
    fun x hx => scatter_map a.v2p Prod.snd hvs hx
  have hp2v : ∀ x ∈ l, (bindPages a (l.map Prod.fst) (l.map Prod.snd)).p2v x.2 = x.1 :=
    fun x hx => scatter_map a.p2v Prod.fst hps hx
  have hv2p' : ∀ v ∉ l.map Prod.fst,
      (bindPages a (l.map Prod.fst) (l.map Prod.snd)).v2p v = a.v2p v :=
    fun v hv => scatter_of_notMem _ _ hv
  have hp2v' : ∀ p ∉ l.map Prod.snd,
      (bindPages a (l.map Prod.fst) (l.map Prod.snd)).p2v p = a.p2v p :=
    fun p hp => scatter_of_notMem _ _ hp
  have hlive : ∀ p, Live (bindPages a (l.map Prod.fst) (l.map Prod.snd)) p ↔
      Live a p ∨ p ∈ l.map Prod.snd := by
    intro p
    by_cases hmem : p ∈ l.map Prod.snd
    · obtain ⟨x, hx, rfl⟩ := List.mem_map.mp hmem
      have hpos := (hp x.2 hmem).1
      have hvpos := (hv x.1 (List.mem_map.mpr ⟨x, hx, rfl⟩)).1
      refine iff_of_true ⟨by omega, ?_⟩ (Or.inr hmem)
      rw [hp2v x hx]
      omega
    · rw [Live, hp2v' p hmem, or_iff_left hmem]
      rfl
  have hmapped : ∀ v, Mapped (bindPages a (l.map Prod.fst) (l.map Prod.snd)) v ↔
      Mapped a v ∨ v ∈ l.map Prod.fst := by
    intro v
    by_cases hmem : v ∈ l.map Prod.fst
    · obtain ⟨x, hx, rfl⟩ := List.mem_map.mp hmem
      have hpos := (hv x.1 hmem).1
      have hppos := (hp x.2 (List.mem_map.mpr ⟨x, hx, rfl⟩)).1
      refine iff_of_true ⟨by omega, ?_⟩ (Or.inr hmem)
      rw [hv2p x hx]
      omega
    · rw [Mapped, hv2p' v hmem, or_iff_left hmem]
      rfl
  refine ⟨⟨fun p hpl => ?_, fun v hvm => ?_⟩, hlive, hmapped⟩
  · by_cases hmem : p ∈ l.map Prod.snd
    · obtain ⟨x, hx, rfl⟩ := List.mem_map.mp hmem
      rw [hp2v x hx, hv2p x hx]
      exact ⟨(hp x.2 hmem).1, (hv x.1 (List.mem_map.mpr ⟨x, hx, rfl⟩)).1, rfl⟩
    · have hold := ((hlive p).mp hpl).resolve_right hmem
      rw [hp2v' p hmem, hv2p' _ fun hc => (hv _ hc).2 (h.mapped_p2v hold)]
      exact h.live p hold
  · by_cases hmem : v ∈ l.map Prod.fst
    · obtain ⟨x, hx, rfl⟩ := List.mem_map.mp hmem
      rw [hv2p x hx, hp2v x hx]
      exact ⟨(hv x.1 hmem).1, (hp x.2 (List.mem_map.mpr ⟨x, hx, rfl⟩)).1, rfl⟩
    · have hold := ((hmapped v).mp hvm).resolve_right hmem
      rw [hv2p' v hmem, hp2v' _ fun hc => (hp _ hc).2 (h.live_v2p hold)]
      exact h.mapped v hold

/-- **Taking pages**: the drained ones leave the free list, the others are those between
the old and the new watermark. -/
theorem Books.take (h : Books c a) {a' : Pool K} {m : ℕ} {drained ext phys : List ℤ}
    (hwm : a'.watermark = c.advance a.watermark m)
    (hrange : ∀ p, c.InBand a'.watermark p → c.minPageIndex ≤ p ∧ p < c.numPages)
    (hfree : a.freePhysPages.Perm (drained ++ a'.freePhysPages))
    (hext : ∀ p, p ∈ ext ↔ c.level a.watermark ≤ c.depth p ∧ c.depth p < c.level a.watermark + m)
    (hphys : phys.Perm (drained ++ ext))
    (hpend : a'.pendingReuse = a.pendingReuse)
    (hcpu : a'.pendingReusePagesCpu = a.pendingReusePagesCpu)
    (hlive : ∀ p, Live a' p ↔ Live a p ∨ p ∈ phys)
    (hsorted : c.sortFreeList = true → a'.freePhysPages.Pairwise (· ≤ ·))
    (hcount : c.lazyCompaction = true → a'.livePageCount = a.livePageCount + drained.length + m) :
    Books c a' := by
  have hheld : held a' = held a := by rw [held, held, hpend]
  have hperm : (a.freePhysPages ++ held a).Perm (drained ++ (a'.freePhysPages ++ held a')) := by
    rw [hheld, ← List.append_assoc]
    exact hfree.append_right _
  have hlevel : c.level a'.watermark = c.level a.watermark + m := by
    rw [hwm, c.level_advance]
  have hnodup := hperm.nodup_iff.mp h.nodup
  have hbase := h.base_le
  have hold : ∀ p, p ∈ a.freePhysPages ++ held a ↔
      p ∈ drained ∨ p ∈ a'.freePhysPages ++ held a' := by
    intro p
    rw [hperm.mem_iff, List.mem_append]
  refine ⟨by omega, hrange, fun p => ?_, fun p hp hmem => ?_, (List.nodup_append.mp hnodup).2.1,
    hpend ▸ h.keys, fun p => ?_, hsorted, fun hlazy => ?_, fun heager => ?_⟩
  · rw [hlive, hphys.mem_iff, List.mem_append, hext, c.inBand_iff, hlevel]
    have hband := h.band p
    rw [c.inBand_iff, hold] at hband
    constructor
    · rintro ⟨hb, hl⟩
      by_cases hin : c.depth p < c.level a.watermark
      · rcases hband.mp ⟨hb, hin⟩ with hp | hp | hp
        · exact Or.inl (Or.inl hp)
        · exact Or.inl (Or.inr (Or.inl hp))
        · exact Or.inr hp
      · exact Or.inl (Or.inr (Or.inr ⟨by omega, hl⟩))
    · rintro ((hp | hp | hp) | hp)
      · have := hband.mpr (Or.inl hp)
        omega
      · have := hband.mpr (Or.inr (Or.inl hp))
        omega
      · omega
      · have := hband.mpr (Or.inr (Or.inr hp))
        omega
  · rw [hlive, hphys.mem_iff, List.mem_append] at hp
    rcases hp with hp | hp | hp
    · exact h.live p hp ((hold p).mpr (Or.inr hmem))
    · exact (List.nodup_append.mp hnodup).2.2 p hp p hmem rfl
    · have hin := (h.band p).mpr (Or.inr ((hold p).mpr (Or.inr hmem)))
      rw [c.inBand_iff] at hin
      have := (hext p).mp hp
      omega
  · rw [hcpu, hheld]
    exact h.parked p
  · have hlen := hfree.length_eq
    rw [List.length_append] at hlen
    rw [hcount hlazy, h.count hlazy, liveCount, liveCount, hlevel, hheld, hlen]
    push_cast
    omega
  · obtain ⟨hnil, hpnil⟩ := h.eager heager
    rw [hnil] at hfree
    have := hfree.symm.eq_nil
    exact ⟨(List.append_eq_nil_iff.mp this).2, hpend.trans hpnil⟩

end Bind

/-! ### Allocating -/

section Alloc

variable {c : Config} {a a₁ a' : Pool K} {peer : Option (Config × Pool K)}

/-- **An extension** moves the watermark and stays in the index space. -/
theorem extendWatermark_spec {n : ℤ} (h : extendWatermark c a peer n = some a₁) :
    a₁ = { a with watermark := c.advance a.watermark n } ∧
      ∀ p, c.InBand (c.advance a.watermark n) p → c.minPageIndex ≤ p ∧ p < c.numPages := by
  -- the peer can only refuse, so the band is that of the pool alone
  rw [extendWatermark] at h
  rcases hg : c.grow with _ | _ <;> simp only [hg, Config.advance, Config.InBand] at h ⊢
  all_goals
    split at h
    · cases h
    rcases peer with _ | q
    · cases h
      exact ⟨rfl, fun p hp => by omega⟩
    · simp only at h
      split at h
      · cases h
      · cases h
        exact ⟨rfl, fun p hp => by omega⟩

theorem extendEager_spec {n : ℤ} (h : extendEager c a n = some a₁) :
    a₁ = { a with watermark := c.advance a.watermark n } ∧
      ∀ p, c.InBand (c.advance a.watermark n) p → c.minPageIndex ≤ p ∧ p < c.numPages := by
  rw [extendEager] at h
  rcases hg : c.grow with _ | _ <;> simp only [hg, Config.advance, Config.InBand] at h ⊢
  · split at h
    · cases h
    · cases h
      exact ⟨rfl, fun p hp => by omega⟩
  · split at h
    · cases h
    · cases h
      exact ⟨rfl, fun p hp => by omega⟩

/-- What was taken: some holes, and the pages of an extension by `m`. -/
structure Took (c : Config) (a a' : Pool K) (n : ℕ) (phys : List ℤ) (m : ℕ)
    (drained ext : List ℤ) : Prop where
  /-- The watermark moved by the extension. -/
  watermark : a'.watermark = c.advance a.watermark m
  range : ∀ p, c.InBand a'.watermark p → c.minPageIndex ≤ p ∧ p < c.numPages
  /-- The holes left the free list. -/
  free : a.freePhysPages.Perm (drained ++ a'.freePhysPages)
  /-- The free list kept its order. -/
  sublist : a'.freePhysPages.Sublist a.freePhysPages
  /-- The extension is between the watermarks. -/
  mem_ext : ∀ p, p ∈ ext ↔ c.level a.watermark ≤ c.depth p ∧ c.depth p < c.level a.watermark + m
  nodup_ext : ext.Nodup
  /-- The pages are the holes and the extension. -/
  perm : phys.Perm (drained ++ ext)
  length : phys.length = n
  count : c.lazyCompaction = true → a'.livePageCount = a.livePageCount + drained.length + m
  /-- Nothing else changed. -/
  rest : a'.pendingReuse = a.pendingReuse ∧ a'.pendingReusePagesCpu = a.pendingReusePagesCpu ∧
    a'.v2p = a.v2p ∧ a'.p2v = a.p2v ∧ a'.freeVirtualIds = a.freeVirtualIds ∧ a'.kv = a.kv

section Took

variable {n m : ℕ} {phys drained ext vs : List ℤ}

/-- The pages that were taken are allocatable and were not live. -/
theorem Took.mem_phys (h : Took c a a₁ n phys m drained ext) (hb : Books c a) {p : ℤ}
    (hp : p ∈ phys) : 0 < p ∧ ¬Live a p := by
  have hmin := c.one_le_min
  have hbase := hb.base_le
  have hlevel : c.level a₁.watermark = c.level a.watermark + m := by
    rw [h.watermark, c.level_advance]
  have hrange := h.range p
  rw [c.inBand_iff, hlevel] at hrange
  rw [h.perm.mem_iff, List.mem_append] at hp
  rcases hp with hp | hp
  · have hmem : p ∈ a.freePhysPages ++ held a :=
      List.mem_append_left _ (h.free.mem_iff.mpr (List.mem_append_left _ hp))
    have hin := (hb.band p).mpr (Or.inr hmem)
    rw [c.inBand_iff] at hin
    exact ⟨by have := hrange ⟨hin.1, by omega⟩; omega, hb.not_live hmem⟩
  · have hd := (h.mem_ext p).mp hp
    refine ⟨by have := hrange ⟨by omega, hd.2⟩; omega, fun hl => ?_⟩
    have hin := hb.inBand hl
    rw [c.inBand_iff] at hin
    omega

theorem Took.nodup (h : Took c a a₁ n phys m drained ext) (hb : Books c a) : phys.Nodup := by
  rw [h.perm.nodup_iff, List.nodup_append]
  have hfree := (List.nodup_append.mp hb.nodup).1
  refine ⟨(List.nodup_append.mp (h.free.nodup_iff.mp hfree)).1, h.nodup_ext, ?_⟩
  rintro p hp q hq rfl
  have hmem : p ∈ a.freePhysPages ++ held a :=
    List.mem_append_left _ (h.free.mem_iff.mpr (List.mem_append_left _ hp))
  have hin := (hb.band p).mpr (Or.inr hmem)
  rw [c.inBand_iff] at hin
  have := (h.mem_ext p).mp hq
  omega

/-- What an allocation establishes: the pages are bound and everything is in order. -/
structure Bound (c : Config) (a a' : Pool K) (n : ℕ) (vs : List ℤ) : Prop where
  tables : Tables a'
  books : Books c a'
  mapped : ∀ v, Mapped a' v ↔ Mapped a v ∨ v ∈ vs
  /-- There are as many live pages more. -/
  liveCount : liveCount c a' = liveCount c a + n
  ids : a'.freeVirtualIds = a.freeVirtualIds
  /-- The other virtual pages are where they were. -/
  v2p : ∀ v ∉ vs, a'.v2p v = a.v2p v
  kv : a'.kv = a.kv

/-- **Taken pages, bound.** -/
theorem Took.bind (h : Took c a a₁ n phys m drained ext) (ht : Tables a) (hb : Books c a)
    (hvs : vs.Nodup) (hlen : vs.length = n) (hv : ∀ v ∈ vs, 0 < v ∧ ¬Mapped a v) :
    Bound c a (bindPages a₁ vs phys) n vs := by
  obtain ⟨hpend, hcpu, hv2p, hp2v, hids, hkv⟩ := h.rest
  have ht₁ : Tables a₁ := by
    refine ⟨fun p hp => ?_, fun v hv => ?_⟩
    · rw [Live, hp2v] at hp
      rw [hp2v, hv2p]
      exact ht.live p hp
    · rw [Mapped, hv2p] at hv
      rw [hp2v, hv2p]
      exact ht.mapped v hv
  have hlive₁ : ∀ p, Live a₁ p ↔ Live a p := fun p => by rw [Live, Live, hp2v]
  have hmapped₁ : ∀ v, Mapped a₁ v ↔ Mapped a v := fun v => by rw [Mapped, Mapped, hv2p]
  obtain ⟨ht', hlive', hmapped'⟩ := ht₁.bind (hlen.trans h.length.symm) hvs (h.nodup hb)
    (fun v hvm => ⟨(hv v hvm).1, fun hc => (hv v hvm).2 ((hmapped₁ v).mp hc)⟩)
    (fun p hp => ⟨(h.mem_phys hb hp).1, fun hc => (h.mem_phys hb hp).2 ((hlive₁ p).mp hc)⟩)
  have hbooks : Books c (bindPages a₁ vs phys) :=
    hb.take h.watermark h.range h.free h.mem_ext h.perm hpend hcpu
      (fun p => by rw [hlive', hlive₁]) (fun hs => (hb.sorted hs).sublist h.sublist) h.count
  have hlenFree := h.free.length_eq
  have hlenPhys := h.perm.length_eq
  have hlenExt : ext.length = m := by
    -- the extension has one page for every depth
    have hcard : (ext.map c.depth).toFinset = Finset.Ico (c.level a.watermark)
        (c.level a.watermark + m) := by
      ext z
      rw [List.mem_toFinset, List.mem_map, Finset.mem_Ico]
      constructor
      · rintro ⟨p, hp, rfl⟩
        exact (h.mem_ext p).mp hp
      · intro hz
        obtain ⟨p, rfl⟩ := c.depth_surjective z
        exact ⟨p, (h.mem_ext p).mpr hz, rfl⟩
    have := congrArg Finset.card hcard
    rw [List.toFinset_card_of_nodup (h.nodup_ext.map c.depth_injective), List.length_map,
      Int.card_Ico] at this
    omega
  rw [List.length_append] at hlenFree hlenPhys
  refine ⟨ht', hbooks, fun v => by rw [hmapped', hmapped₁], ?_, hids,
    fun v hv => (scatter_of_notMem _ _ hv).trans (congrFun hv2p v), hkv⟩
  have hheld : held (bindPages a₁ vs phys) = held a := by
    rw [held, held]
    exact congrArg _ hpend
  have hlevel : c.level (bindPages a₁ vs phys).watermark = c.level a.watermark + m := by
    change c.level a₁.watermark = _
    rw [h.watermark, c.level_advance]
  have hf : (bindPages a₁ vs phys).freePhysPages = a₁.freePhysPages := rfl
  rw [MultiEnded.liveCount, MultiEnded.liveCount, hheld, hlevel, hf]
  have := h.length
  omega

end Took

theorem advance_zero (c : Config) (wm : ℤ) : c.advance wm 0 = wm := by
  rcases hg : c.grow with _ | _ <;> simp only [Config.advance, hg] <;> omega

theorem drainHoles_spec (c : Config) (free : List ℤ) {n : ℕ} (h : n ≤ free.length) :
    free.Perm ((drainHoles c free n).1 ++ (drainHoles c free n).2) ∧
      (drainHoles c free n).2.Sublist free ∧ (drainHoles c free n).1.length = n := by
  have hfront : free.Perm (free.take n ++ free.drop n) ∧ (free.drop n).Sublist free ∧
      (free.take n).length = n :=
    ⟨by rw [List.take_append_drop], List.drop_sublist _ _, by simp [h]⟩
  rw [drainHoles]
  split
  · rcases hg : c.grow with _ | _
    · exact hfront
    · refine ⟨?_, List.take_sublist _ _, by simp; omega⟩
      refine List.Perm.trans ?_ (List.perm_append_comm.trans
        ((List.reverse_perm _).symm.append_right _))
      rw [List.take_append_drop]
  · exact hfront

/-- The extension, which may be by no page at all. -/
theorem Books.extend_spec (hb : Books c a) {n : ℕ} {a₀ : Pool K}
    (h : (if 0 < n then extendWatermark c a peer n else some a) = some a₀) :
    a₀ = { a with watermark := c.advance a.watermark n } ∧
      ∀ p, c.InBand (c.advance a.watermark n) p → c.minPageIndex ≤ p ∧ p < c.numPages := by
  split at h
  · exact extendWatermark_spec h
  · next hz =>
    cases h
    obtain rfl : n = 0 := by omega
    rw [Nat.cast_zero, advance_zero]
    exact ⟨rfl, hb.range⟩

/-- The pages that are counted from the new watermark are those of the extension. -/
theorem takePhysicalArange_advance (c : Config) (a : Pool K) (n : ℕ) :
    takePhysicalArange c { a with watermark := c.advance a.watermark n } n =
      pageRange (c.startPhys a.watermark n) n := by
  rw [takePhysicalArange]
  rcases hg : c.grow with _ | _ <;> simp only [Config.advance, Config.startPhys, hg]
  congr 1
  omega

/-- **`take_physical`** takes holes first and extends for the rest. -/
theorem takePhysicalLazy_spec (hb : Books c a) {n : ℕ} {phys : List ℤ}
    (h : takePhysicalLazy c a peer n = some (phys, a₁)) :
    ∃ m drained ext, Took c a a₁ n phys m drained ext := by
  rw [takePhysicalLazy] at h
  set nDrain := min n a.freePhysPages.length with hnDrain
  set needMore := n - nDrain with hneedMore
  simp only at h
  split at h
  · cases h
  · next a₀ ha₀ =>
    obtain ⟨rfl, hrange⟩ := hb.extend_spec ha₀
    obtain ⟨hperm, hsub, hlen⟩ := drainHoles_spec c a.freePhysPages
      (show nDrain ≤ a.freePhysPages.length by omega)
    -- the pages between the watermarks, in whatever order they are listed
    have hmem : ∀ p, p ∈ pageRange (c.startPhys a.watermark needMore) needMore ↔
        c.level a.watermark ≤ c.depth p ∧ c.depth p < c.level a.watermark + needMore :=
      fun p => c.mem_extension
    have hstart := takePhysicalArange_advance c a needMore
    refine ⟨needMore, (drainHoles c a.freePhysPages nDrain).1,
      pageRange (c.startPhys a.watermark needMore) needMore, ?_⟩
    suffices hphys : phys.Perm ((drainHoles c a.freePhysPages nDrain).1 ++
        pageRange (c.startPhys a.watermark needMore) needMore) ∧
        a₁ = { a with
          watermark := c.advance a.watermark needMore
          freePhysPages := (drainHoles c a.freePhysPages nDrain).2
          livePageCount := a.livePageCount + n } by
      obtain ⟨hp, rfl⟩ := hphys
      refine ⟨rfl, hrange, hperm, hsub, hmem, nodup_pageRange _ _, hp, ?_, fun _ => ?_,
        ⟨rfl, rfl, rfl, rfl, rfl, rfl⟩⟩
      · rw [hp.length_eq, List.length_append, hlen, length_pageRange]
        omega
      · simp only [hlen]
        omega
    split at h
    · next hz =>
      -- no hole to drain
      obtain ⟨rfl, rfl⟩ := Prod.mk.inj (Option.some.inj h)
      have hnil : (drainHoles c a.freePhysPages nDrain).1 = [] :=
        List.length_eq_zero_iff.mp (hlen.trans hz)
      have hn : n = needMore := by omega
      refine ⟨?_, rfl⟩
      rw [hnil, List.nil_append, ← hstart, takePhysicalArange, takePhysicalArange]
      simp only [← hn]
      exact List.Perm.refl _
    · split at h
      · next hz =>
        obtain ⟨rfl, rfl⟩ := Prod.mk.inj (Option.some.inj h)
        refine ⟨?_, rfl⟩
        rw [hz]
        simp [pageRange]
      · obtain ⟨rfl, rfl⟩ := Prod.mk.inj (Option.some.inj h)
        refine ⟨List.Perm.append_left _ ?_, rfl⟩
        rw [← hstart, takePhysicalArange]
        rcases hg : c.grow with _ | _
        · exact List.Perm.refl _
        · exact List.reverse_perm _

/-- **`_alloc_bind_fast_or_slow`** binds the virtual pages it is given. -/
theorem allocBind_spec (ht : Tables a) (hb : Books c a) {vs : List ℤ} {n : ℕ} (hvs : vs.Nodup)
    (hlen : vs.length = n) (hv : ∀ v ∈ vs, 0 < v ∧ ¬Mapped a v)
    (h : allocBind c a peer vs n = some a') : Bound c a a' n vs := by
  rw [allocBind] at h
  split at h
  · next hz =>
    cases h
    obtain rfl : vs = [] := List.length_eq_zero_iff.mp (hlen.trans hz)
    exact ⟨ht, hb, by simp, by simp [hz], rfl, fun _ _ => rfl, rfl⟩
  split at h
  · next hfast =>
    simp only at h
    split at h
    · cases h
    · next a₁ ha₁ =>
      have hext : a₁ = { a with watermark := c.advance a.watermark n } ∧
          ∀ p, c.InBand (c.advance a.watermark n) p → c.minPageIndex ≤ p ∧ p < c.numPages := by
        split at ha₁
        · exact extendWatermark_spec ha₁
        · exact extendEager_spec ha₁
      obtain ⟨rfl, hrange⟩ := hext
      have hnil : a.freePhysPages = [] := by
        rcases hfast with heager | hnil
        · exact (hb.eager (by simpa using heager)).1
        · exact hnil
      have htook : Took c a (if c.lazyCompaction then { a with
          watermark := c.advance a.watermark n
          livePageCount := a.livePageCount + n } else { a with
          watermark := c.advance a.watermark n }) n (pageRange (c.startPhys a.watermark n) n) n []
          (pageRange (c.startPhys a.watermark n) n) := by
        refine ⟨?_, ?_, ?_, ?_, fun p => c.mem_extension, nodup_pageRange _ _, List.Perm.refl _,
          length_pageRange _ _, fun hlazy => by simp [hlazy], ?_⟩
        · split <;> rfl
        · split <;> exact hrange
        · split <;> exact List.Perm.refl _
        · split <;> exact List.Sublist.refl _
        · split <;> exact ⟨rfl, rfl, rfl, rfl, rfl, rfl⟩
      have hbound := htook.bind ht hb hvs hlen hv
      rw [hlen] at h
      cases h
      convert hbound using 1
      split <;> rfl
  · split at h
    · cases h
    · next phys a₁ htake =>
      cases h
      obtain ⟨m, drained, ext, htook⟩ := takePhysicalLazy_spec hb htake
      exact htook.bind ht hb hvs hlen hv

end Alloc

end MultiEnded

end HtSglang
