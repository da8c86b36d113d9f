import HtSglang.Library.Loop
import HtSglang.MemCache.MultiEndedSystem

/-!
# Runs of the two allocators

Every operation but a write leaves both sides in order and is invisible to their readers,
unless it overwrites what is parked under an event (`HtSglang.MultiEnded.step_quiet`).
Along every run without such an overwrite no page is lost or counted twice
(`HtSglang.MultiEnded.pages_conserved`), and no reader notices a compaction
(`HtSglang.MultiEnded.compaction_invisible`).

Two flushes during one forward are such an overwrite. After it a page is gone
(`HtSglang.MultiEnded.parked_page_lost`); and since the mirror of the parked pages still
has it, a later urgent flush takes a live page for a parked one, gives it up, and the next
allocation hands it out again (`HtSglang.MultiEnded.page_bound_twice`).
-/

namespace HtSglang

namespace MultiEnded

variable {K : Type} {c : Config} {a b : Pool K}

/-! ### One side -/

/-- **Everything is in order, and readers see nothing**: a token that is mapped before and
after reads the same. -/
structure Quiet (c : Config) (a b : Pool K) : Prop where
  inv : Inv c b
  reads : ∀ t, Mapped a (t / c.pageSize) → Mapped b (t / c.pageSize) →
    b.kv (translateKvLoc c b t) = a.kv (translateKvLoc c a t)

theorem Keeps.quiet {vs : List ℤ} (h : Keeps c a b vs) : Quiet c a b :=
  ⟨h.inv, fun t _ hb => h.reads t hb⟩

theorem Quiet.refl (h : Inv c a) : Quiet c a a :=
  ⟨h, fun _ _ _ => rfl⟩

/-- The notes about forwards and the contents are nothing the invariant is about. -/
theorem Inv.notes (h : Inv c a) (latest : Option Event) (inflight : Option (Event × List ℤ))
    (kv : ℤ → K) : Inv c { a with
      latestForwardDoneEvent := latest
      inflightForward := inflight
      kv := kv } :=
  ⟨⟨h.tables.live, h.tables.mapped⟩,
    ⟨h.books.base_le, h.books.range, h.books.band, h.books.live, h.books.nodup, h.books.keys,
      h.books.parked, h.books.sorted, h.books.count, h.books.eager⟩,
    ⟨h.ids.nodup, h.ids.range, h.ids.unmapped, h.ids.mapped, h.ids.length,
      h.ids.none⟩⟩

/-- **There are ids enough** for whatever there is room for. -/
theorem Inv.enough_ids (h : Inv c a) (howner : c.isIdOwner = true)
    {peer : Option (Config × Pool K)} {needSize : ℤ} (hneed : needSize ≤ availableSize c a peer) :
    (needSize / c.pageSize).toNat ≤ a.freeVirtualIds.length := by
  have hps := c.pageSize_pos
  set pages := min ((currentGapBytes c a peer + 0) / c.entryBytesPerPage)
    (c.numPages - c.minPageIndex - allocatedPages c a) +
    (if c.lazyCompaction then (a.freePhysPages.length : ℤ) else 0) with hpages
  have hdiv : needSize / c.pageSize ≤ pages := by
    have hle : needSize ≤ pages * c.pageSize := hneed
    calc needSize / c.pageSize ≤ pages * c.pageSize / c.pageSize := Int.ediv_le_ediv hps hle
      _ = pages := Int.mul_ediv_cancel _ (ne_of_gt hps)
  have halloc : c.level a.watermark - c.base ≤ allocatedPages c a := by
    rw [allocatedPages]
    rcases hg : c.grow with _ | _ <;> simp only [Config.level, Config.base, hg] <;> omega
  have hfree : (if c.lazyCompaction then (a.freePhysPages.length : ℤ) else 0) ≤
      a.freePhysPages.length := by
    split <;> omega
  have hmin := min_le_right ((currentGapBytes c a peer + 0) / c.entryBytesPerPage)
    (c.numPages - c.minPageIndex - allocatedPages c a)
  have hlen := h.ids.length howner
  rw [liveCount] at hlen
  omega

/-- **Ids that were bound leave the list.** -/
theorem Ids.take (h : Ids c a) {n : ℕ} (hn : n ≤ a.freeVirtualIds.length)
    (hids : b.freeVirtualIds = a.freeVirtualIds.drop n)
    (hmapped : ∀ v, Mapped b v ↔ Mapped a v ∨ v ∈ a.freeVirtualIds.take n)
    (hcount : liveCount c b = liveCount c a + n) : Ids c b := by
  have hsplit := List.take_append_drop n a.freeVirtualIds
  have hnodup := h.nodup
  rw [← hsplit, List.nodup_append] at hnodup
  refine ⟨hids ▸ hnodup.2.1, fun v hv => ?_, fun v hv hm => ?_, fun howner v hv => ?_,
    fun howner => ?_, fun hnot => by simp [hids, h.none hnot]⟩
  · exact h.range v (List.mem_of_mem_drop (hids ▸ hv))
  · rw [hids] at hv
    rcases (hmapped v).mp hm with hm | hm
    · exact h.unmapped v (List.mem_of_mem_drop hv) hm
    · exact hnodup.2.2 v hm v hv rfl
  · rcases (hmapped v).mp hv with hv | hv
    · exact h.mapped howner v hv
    · exact h.range v (List.mem_of_mem_take hv)
  · have hlen := h.length howner
    rw [hids, List.length_drop, hcount]
    omega

/-- An allocation is invisible to the readers of what was there. -/
theorem Bound.reads {n : ℕ} {vs : List ℤ} (h : Bound c a b n vs) (hvs : ∀ v ∈ vs, ¬Mapped a v)
    {t : ℤ} (ht : Mapped a (t / c.pageSize)) :
    b.kv (translateKvLoc c b t) = a.kv (translateKvLoc c a t) := by
  rw [h.kv, translateKvLoc_eq, translateKvLoc_eq, h.v2p _ fun hc => hvs _ hc ht]

/-- **Ids from the list, bound**, whether they leave the list before or after. -/
theorem allocBind_quiet (h : Inv c a) {peer : Option (Config × Pool K)} {ids : List ℤ} {n : ℕ}
    (hn : n ≤ a.freeVirtualIds.length)
    (hok : allocBind c { a with freeVirtualIds := ids } peer (a.freeVirtualIds.take n) n = some b) :
    b.freeVirtualIds = ids ∧ Quiet c a { b with freeVirtualIds := a.freeVirtualIds.drop n } := by
  have hmin := c.one_le_min
  have hvs : ∀ v ∈ a.freeVirtualIds.take n, 0 < v ∧ ¬Mapped a v := by
    intro v hv
    have hmem := List.mem_of_mem_take hv
    have := h.ids.range v hmem
    exact ⟨by omega, h.ids.unmapped v hmem⟩
  have hbk := h.books
  have hbound : Bound c { a with freeVirtualIds := ids } b n (a.freeVirtualIds.take n) :=
    allocBind_spec (a := { a with freeVirtualIds := ids }) ⟨h.tables.live, h.tables.mapped⟩
      ⟨hbk.base_le, hbk.range, hbk.band, hbk.live, hbk.nodup, hbk.keys, hbk.parked, hbk.sorted,
        hbk.count, hbk.eager⟩
      (h.ids.nodup.sublist (List.take_sublist _ _)) (List.length_take_of_le hn) hvs hok
  have hbk' := hbound.books
  exact ⟨hbound.ids, ⟨⟨hbound.tables.live, hbound.tables.mapped⟩,
    ⟨hbk'.base_le, hbk'.range, hbk'.band, hbk'.live, hbk'.nodup, hbk'.keys, hbk'.parked,
      hbk'.sorted, hbk'.count, hbk'.eager⟩,
    h.ids.take hn rfl hbound.mapped hbound.liveCount⟩,
    fun t ht _ => hbound.reads (fun v hv => (hvs v hv).2) ht⟩

/-! ### Both sides -/

section Sides

variable {σ : Setup} {s s' : State K} {side : Side}

/-- Both sides are in order. -/
def Good (σ : Setup) (s : State K) : Prop := ∀ side, Inv (σ.config side) (s.pool side)

/-- Both sides stay in order and their readers see nothing. -/
def QuietStep (σ : Setup) (s s' : State K) : Prop :=
  ∀ side, Quiet (σ.config side) (s.pool side) (s'.pool side)

theorem QuietStep.good (h : QuietStep σ s s') : Good σ s' := fun side => (h side).inv

theorem Good.quiet (h : Good σ s) : QuietStep σ s s := fun side => Quiet.refl (h side)

@[simp] theorem State.pool_set (s : State K) (side : Side) (a : Pool K) :
    (s.set side a).pool side = a :=
  Function.update_self ..

theorem State.pool_set_of_ne (s : State K) {side side' : Side} (a : Pool K) (h : side' ≠ side) :
    (s.set side a).pool side' = s.pool side' :=
  Function.update_of_ne h ..

/-- One side changed since, and before it only the other. -/
theorem QuietStep.set (h : QuietStep σ s s') (hside : s'.pool side = s.pool side)
    (hq : Quiet (σ.config side) (s.pool side) a) : QuietStep σ s (s'.set side a) := by
  intro side'
  rcases eq_or_ne side' side with rfl | hne
  · rwa [State.pool_set]
  · rw [State.pool_set_of_ne _ _ hne]
    exact h side'

theorem Good.set (h : Good σ s) (hq : Quiet (σ.config side) (s.pool side) a) :
    QuietStep σ s (s.set side a) :=
  h.quiet.set rfl hq

/-- **The shortfall check** may compact the other side, and is right about the room. -/
theorem ensureRoom_quiet (h : Good σ s) (side : Side) (needTokens : ℤ) (ans : Answers) :
    ∃ r, ensureRoom σ s side needTokens ans = .ok r ∧ QuietStep σ s r.2 ∧
      r.2.pool side = s.pool side ∧
      (r.1 = true → needTokens ≤ availableSize (σ.config side) (r.2.pool side)
        (σ.peer r.2 side)) := by
  rw [ensureRoom]
  split
  · split
    · obtain ⟨q, hq, hkeeps⟩ := flush_keeps (h side.other) true ans (by simp)
      refine ⟨_, by rw [hq]; rfl, h.set hkeeps.quiet, ?_, fun hroom => of_decide_eq_true hroom⟩
      exact State.pool_set_of_ne _ _ side.other_ne.symm
    · exact ⟨_, rfl, h.quiet, rfl, by simp⟩
  · next hroom => exact ⟨_, rfl, h.quiet, rfl, fun _ => not_lt.mp hroom⟩

/-- The end of `alloc`. -/
theorem takeIds_quiet (h : QuietStep σ s s') (hside : s'.pool side = s.pool side) {n : ℕ}
    (hn : n ≤ (s.pool side).freeVirtualIds.length) :
    QuietStep σ s (takeIds σ s' side n).2 := by
  have hinv := (h side).inv
  rw [hside] at hinv
  rw [takeIds]
  simp only [hside]
  split
  · refine h.set hside ?_
    rw [List.take_append_drop]
    exact Quiet.refl hinv
  · next a' hok =>
    obtain ⟨hids, hq⟩ := allocBind_quiet hinv hn hok
    rw [← hids] at hq
    exact h.set hside hq

/-- The end of `alloc_extend` and `alloc_decode`. -/
theorem bindIds_quiet (h : QuietStep σ s s') (hside : s'.pool side = s.pool side) {n : ℕ}
    (hn : n ≤ (s.pool side).freeVirtualIds.length) :
    QuietStep σ s (bindIds σ s' side n).2 := by
  have hinv := (h side).inv
  rw [hside] at hinv
  rw [bindIds]
  simp only [hside]
  split
  · exact h
  · next a' hok =>
    refine h.set hside ?_
    split at hok
    · obtain ⟨hids, hq⟩ := allocBind_quiet hinv hn hok
      rwa [hids]
    · next hz =>
      cases hok
      obtain rfl : n = 0 := by omega
      exact Quiet.refl hinv

theorem alloc_quiet (h : Good σ s) {needSize : ℤ} {ans : Answers} {r : Option (List ℤ) × State K}
    (hok : alloc σ s side needSize ans = .ok r) : QuietStep σ s r.2 := by
  rw [alloc] at hok
  split at hok
  · cases hok
  next howner =>
  rw [not_not] at howner
  split at hok
  · cases hok
    exact h.quiet
  split at hok
  · cases hok
  obtain ⟨r', hr', hquiet, hside, hroom⟩ := ensureRoom_quiet h side needSize ans
  rw [hr'] at hok
  cases hok
  split
  · next htrue =>
    refine takeIds_quiet hquiet hside ?_
    have hneed := hroom htrue
    rw [hside] at hneed
    exact (h side).enough_ids howner hneed
  · exact hquiet

theorem allocPages_quiet (h : Good σ s) {numNewPages : ℤ} {ans : Answers}
    {r : Option (List ℤ) × State K} (hok : allocPages σ s side numNewPages ans = .ok r) :
    QuietStep σ s r.2 := by
  rw [allocPages] at hok
  split at hok
  · cases hok
  split at hok
  · cases hok
    exact h.quiet
  next henough =>
  obtain ⟨r', hr', hquiet, hside, -⟩ :=
    ensureRoom_quiet h side (numNewPages * (σ.config side).pageSize) ans
  rw [hr'] at hok
  cases hok
  split
  · exact bindIds_quiet hquiet hside (by omega)
  · exact hquiet

theorem allocWithVirtual_quiet (h : Good σ s) {vPages : List ℤ}
    (howner : (σ.config side).isIdOwner = false) (hnodup : vPages.Nodup)
    (hv : ∀ v ∈ vPages, 0 < v ∧ ¬Mapped (s.pool side) v)
    (hok : allocWithVirtual σ s side vPages = .ok s') : QuietStep σ s s' := by
  rw [allocWithVirtual] at hok
  split at hok
  · cases hok
    exact h.quiet
  split at hok
  · cases hok
  next a' hbind =>
  cases hok
  have hbound := allocBind_spec (h side).tables (h side).books hnodup rfl hv hbind
  have hids : a'.freeVirtualIds = [] := hbound.ids.trans ((h side).ids.none howner)
  refine h.set ⟨⟨hbound.tables, hbound.books, ?_⟩,
    fun t ht _ => hbound.reads (fun v hv' => (hv v hv').2) ht⟩
  exact ⟨by simp [hids], by simp [hids], by simp [hids], by simp [howner], by simp [howner],
    fun _ => hids⟩

/-- **Every operation but a write** leaves both sides in order and is invisible to their
readers, unless it overwrites what is parked. -/
theorem step_quiet (h : Good σ s) {op : Op K} (hperm : Permitted σ s op)
    (hkeep : KeepsParked σ s op) (hwrite : ∀ side kv, op ≠ .write side kv)
    (hok : step σ s op = .ok s') : QuietStep σ s s' := by
  rcases op with ⟨side, needSize, ans⟩ | ⟨side, lens, num, ans⟩ | ⟨side, seqLens, ans⟩ |
    ⟨side, vPages⟩ | ⟨side, ids⟩ | ⟨side, urgent, ans⟩ | ⟨side, ans⟩ | side | ⟨side, event⟩ |
    ⟨side, event, tokens⟩ | event | ⟨side, kv⟩
  · obtain ⟨r, hr, hs⟩ := bind_eq_ok.mp hok
    cases hs
    exact alloc_quiet h hr
  · obtain ⟨r, hr, hs⟩ := bind_eq_ok.mp hok
    cases hs
    exact allocPages_quiet h hr
  · obtain ⟨r, hr, hs⟩ := bind_eq_ok.mp hok
    cases hs
    exact allocPages_quiet h hr
  · exact allocWithVirtual_quiet h hperm.1 hperm.2.1 hperm.2.2 hok
  · obtain ⟨a, ha, hs⟩ := bind_eq_ok.mp hok
    cases hs
    obtain ⟨b, vs, hb, hkeeps, -⟩ := free_keeps (h side) hperm.1 hperm.2
    rw [hb] at ha
    cases ha
    exact h.set hkeeps.quiet
  · obtain ⟨a, ha, hs⟩ := bind_eq_ok.mp hok
    cases hs
    obtain ⟨b, hb, hkeeps⟩ := flush_keeps (h side) urgent ans fun hu => by
      subst hu
      exact hkeep
    rw [hb] at ha
    cases ha
    exact h.set hkeeps.quiet
  · obtain ⟨a, ha, hs⟩ := bind_eq_ok.mp hok
    cases hs
    rw [flushOpportunistic] at ha
    split at ha
    · cases ha
      exact h.set (Quiet.refl (h side))
    split at ha
    · cases ha
      exact h.set (Quiet.refl (h side))
    obtain ⟨b, hb, hkeeps⟩ := flush_keeps (h side) false ans fun _ => hkeep
    rw [hb] at ha
    cases ha
    exact h.set hkeeps.quiet
  · cases hok
    refine h.set ?_
    rw [maybeDrainPendingReuse]
    split
    · exact Quiet.refl (h side)
    split
    · exact Quiet.refl (h side)
    exact (drainPendingReuse_keeps (h side) false s.fired).quiet
  · cases hok
    exact h.set ⟨(h side).notes _ _ _, fun _ _ _ => rfl⟩
  · cases hok
    refine h.set ?_
    rw [setInflightForward]
    split
    · exact Quiet.refl (h side)
    split
    · exact ⟨(h side).notes _ _ _, fun _ _ _ => rfl⟩
    · exact ⟨(h side).notes _ _ _, fun _ _ _ => rfl⟩
  · cases hok
    exact h.quiet
  · exact absurd rfl (hwrite side kv)

theorem step_good (h : Good σ s) {op : Op K} (hperm : Permitted σ s op)
    (hkeep : KeepsParked σ s op) (hok : step σ s op = .ok s') : Good σ s' := by
  by_cases hwrite : ∃ side kv, op = .write side kv
  · obtain ⟨side, kv, rfl⟩ := hwrite
    cases hok
    intro side'
    rcases eq_or_ne side' side with rfl | hne
    · rw [State.pool_set]
      exact (h side').notes _ _ _
    · rw [State.pool_set_of_ne _ _ hne]
      exact h side'
  · exact (step_quiet h hperm hkeep (fun side kv heq => hwrite ⟨side, kv, heq⟩) hok).good

/-- **In order at all times**, as long as nothing parked is overwritten. -/
theorem reaches_good {kv : Side → ℤ → K}
    (h : (system K σ).Reaches (KeepsParked σ) (σ.start kv) s) : Good σ s :=
  h.invariant (fun side => clear_inv (σ.config side) (kv side))
    fun _ _ _ hs hperm hkeep hok => step_good hs hperm hkeep hok

end Sides

/-! ### No page is lost -/

/-- **Where the pages of a lazy allocator are.** -/
structure Conserved (c : Config) (a : Pool K) : Prop where
  /-- The band consists of the live, the free and the parked pages. -/
  band : ∀ p, c.InBand a.watermark p ↔ Live a p ∨ p ∈ a.freePhysPages ∨ p ∈ held a
  live : ∀ p, Live a p → p ∉ a.freePhysPages ∧ p ∉ held a
  /-- No page is free and parked, or either of it twice. -/
  once : (a.freePhysPages ++ held a).Nodup
  /-- The live pages are counted. -/
  count : ∃ live : Finset ℤ, (∀ p, p ∈ live ↔ Live a p) ∧ a.livePageCount = live.card
  /-- Once all events have fired, one more drain leaves live and free pages only. -/
  drained : ∀ fired, (∀ e ∈ Dict.keys a.pendingReuse, e ∈ fired) →
    held (maybeDrainPendingReuse c a fired) = [] ∧
      ∀ p, c.InBand (maybeDrainPendingReuse c a fired).watermark p ↔
        Live (maybeDrainPendingReuse c a fired) p ∨
          p ∈ (maybeDrainPendingReuse c a fired).freePhysPages

/-- The pages of a band, counted. -/
theorem Config.exists_band (c : Config) {wm : ℤ} (h : c.base ≤ c.level wm) :
    ∃ band : Finset ℤ, (∀ p, p ∈ band ↔ c.InBand wm p) ∧ (band.card : ℤ) = c.level wm - c.base := by
  rcases hg : c.grow with _ | _ <;> simp only [InBand, level, base, hg] at h ⊢
  · exact ⟨Finset.Ico c.minPageIndex wm, by simp, by rw [Int.card_Ico]; omega⟩
  · exact ⟨Finset.Ioo wm c.numPages, by simp, by rw [Int.card_Ioo]; omega⟩

/-- The live pages are what the free and the parked ones leave of the band. -/
theorem Books.exists_live (h : Books c a) :
    ∃ live : Finset ℤ, (∀ p, p ∈ live ↔ Live a p) ∧ liveCount c a = live.card := by
  obtain ⟨band, hmem, hcard⟩ := c.exists_band h.base_le
  have hsub : (a.freePhysPages ++ held a).toFinset ⊆ band := by
    intro p hp
    rw [hmem, h.band]
    exact Or.inr (List.mem_toFinset.mp hp)
  refine ⟨band \ (a.freePhysPages ++ held a).toFinset, fun p => ?_, ?_⟩
  · rw [Finset.mem_sdiff, hmem, h.band, List.mem_toFinset]
    refine ⟨fun hp => hp.1.resolve_right hp.2, fun hp => ⟨Or.inl hp, h.live p hp⟩⟩
  · rw [Finset.card_sdiff_of_subset hsub, List.toFinset_card_of_nodup h.nodup, liveCount]
    have hle := Finset.card_le_card hsub
    rw [List.toFinset_card_of_nodup h.nodup] at hle
    rw [List.length_append] at hle ⊢
    omega

theorem Inv.conserved (h : Inv c a) (hlazy : c.lazyCompaction = true) : Conserved c a := by
  refine ⟨fun p => ?_, fun p hp => ?_, h.books.nodup, ?_, fun fired hfired => ?_⟩
  · rw [h.books.band, List.mem_append]
  · have := h.books.live p hp
    rwa [List.mem_append, not_or] at this
  · obtain ⟨live, hmem, hcard⟩ := h.books.exists_live
    exact ⟨live, hmem, (h.books.count hlazy).trans hcard⟩
  · have hpend : (maybeDrainPendingReuse c a fired).pendingReuse = [] := by
      rw [maybeDrainPendingReuse, if_neg (by simp [hlazy])]
      split
      · next hnil => exact hnil
      · refine List.filter_eq_nil_iff.mpr fun e he => ?_
        simp [hfired e.1 (List.mem_map.mpr ⟨e, he, rfl⟩)]
    have hheld : held (maybeDrainPendingReuse c a fired) = [] := by
      rw [held, hpend, List.flatMap_nil]
    have hbooks : Books c (maybeDrainPendingReuse c a fired) := by
      rw [maybeDrainPendingReuse, if_neg (by simp [hlazy])]
      split
      · exact h.books
      · exact (drainPendingReuse_keeps h false fired).inv.books
    refine ⟨hheld, fun p => ?_⟩
    rw [hbooks.band, hheld, List.append_nil]

/-- **No page is lost or counted twice** along a run that never overwrites what is parked
under an event. -/
theorem pages_conserved {σ : Setup} {kv : Side → ℤ → K} {s : State K}
    (h : (system K σ).Reaches (KeepsParked σ) (σ.start kv) s) (side : Side)
    (hlazy : (σ.config side).lazyCompaction = true) :
    Conserved (σ.config side) (s.pool side) :=
  (reaches_good h side).conserved hlazy

/-- A small sub-pool for runs on concrete operations. -/
def smallPool (grow : Grow) (lazyCompaction : Bool) : Config where
  grow := grow
  numPages := 16
  minPageIndex := 1
  pageSize := 1
  entryBytesPerPage := 1
  totalBytes := 16
  isIdOwner := true
  lazyCompaction := lazyCompaction
  sortFreeList := false
  maxMovesPerCall := 8
  one_le_min := by decide
  pageSize_pos := by decide
  entry_pos := by decide

/-- Nothing has fired. -/
def nothingFired : Answers := ⟨∅, ∅, ∅⟩

/-- Two lazy allocators from both ends. -/
def lazyPair : Setup where
  config
    | .first => smallPool .up true
    | .second => smallPool .down true
  bound := true

/-- A run with a page parked under the event of a forward. -/
def parkOnce : List (Op ℤ) :=
  [.alloc .first 4 nothingFired, .alloc .second 3 nothingFired, .setLatest .first (some 0),
    .free .first [1], .flushOpportunistic .first nothingFired]

theorem pages_conserved_parkOnce : ∃ s,
    (system ℤ lazyPair).run (KeepsParked lazyPair) (lazyPair.start fun _ p => p) parkOnce = some s ∧
      Conserved (smallPool .up true) (s.pool .first) := by
  have hrun : ((system ℤ lazyPair).run (KeepsParked lazyPair) (lazyPair.start fun _ p => p)
      parkOnce).isSome = true := by decide +kernel
  obtain ⟨s, hs⟩ := Option.isSome_iff_exists.mp hrun
  exact ⟨s, hs, pages_conserved (OpSystem.Reaches.refl.of_run hs) .first rfl⟩

/-- Two flushes during one forward. -/
def flushTwice : List (Op ℤ) :=
  [.alloc .first 8 nothingFired, .setLatest .first (some 0), .free .first [1],
    .flushOpportunistic .first nothingFired, .free .first [2],
    .flushOpportunistic .first nothingFired]

/-- **A parked page is lost**: the second of two flushes during one forward replaces what the
first one parked. -/
theorem parked_page_lost : ∃ s : State ℤ,
    (system ℤ lazyPair).Reaches (fun _ _ => True) (lazyPair.start fun _ p => p) s ∧
      (smallPool .up true).InBand (s.pool .first).watermark 8 ∧ ¬Live (s.pool .first) 8 ∧
        8 ∉ (s.pool .first).freePhysPages ∧ 8 ∉ held (s.pool .first) := by
  have hrun : ((system ℤ lazyPair).run (fun _ _ => True) (lazyPair.start fun _ p => p)
      flushTwice).any (fun s => decide ((smallPool .up true).InBand (s.pool .first).watermark 8 ∧
        ¬Live (s.pool .first) 8 ∧ 8 ∉ (s.pool .first).freePhysPages ∧
          8 ∉ held (s.pool .first))) = true := by decide +kernel
  obtain ⟨s, hs, hlost⟩ := (Option.any_eq_true _ _).mp hrun
  exact ⟨s, OpSystem.Reaches.refl.of_run hs, of_decide_eq_true hlost⟩

/-! ### Compaction is invisible -/

/-- **What readers of an allocator rely on.** -/
structure Invisible (c : Config) (a : Pool K) : Prop where
  /-- No two virtual pages share a physical one. -/
  injective : ∀ v v', Mapped a v → Mapped a v' → a.v2p v = a.v2p v' → v = v'
  /-- `physical_to_virtual` undoes `virtual_to_physical`. -/
  mapped : ∀ v, Mapped a v → Live a (a.v2p v) ∧ a.p2v (a.v2p v) = v
  /-- `virtual_to_physical` undoes `physical_to_virtual`. -/
  live : ∀ p, Live a p → Mapped a (a.p2v p) ∧ a.v2p (a.p2v p) = p
  /-- A flush succeeds, and every token reads the same. -/
  flush : ∀ urgent ans, (urgent = false → ¬Overwrites c a ans) →
    ∃ b, flush c a urgent ans = .ok b ∧ ∀ t, Mapped a (t / c.pageSize) →
      Mapped b (t / c.pageSize) ∧ b.kv (translateKvLoc c b t) = a.kv (translateKvLoc c a t)
  /-- Freeing succeeds, and every token of another page reads the same. -/
  free : ∀ ids, ids.Nodup → (∀ t ∈ ids, Mapped a (t / c.pageSize)) →
    ∃ b, free c a ids = .ok b ∧ ∀ t, Mapped a (t / c.pageSize) →
      t / c.pageSize ∉ ids.map (· / c.pageSize) →
        Mapped b (t / c.pageSize) ∧ b.kv (translateKvLoc c b t) = a.kv (translateKvLoc c a t)

theorem Inv.invisible (h : Inv c a) : Invisible c a := by
  refine ⟨fun v v' hv hv' heq => h.tables.v2p_inj hv hv' heq,
    fun v hv => ⟨h.tables.live_v2p hv, (h.tables.mapped v hv).2.2⟩,
    fun p hp => ⟨h.tables.mapped_p2v hp, (h.tables.live p hp).2.2⟩,
    fun urgent ans hover => ?_, fun ids hids hm => ?_⟩
  · obtain ⟨b, hb, hkeeps⟩ := flush_keeps h urgent ans hover
    refine ⟨b, hb, fun t ht => ?_⟩
    have htb := (hkeeps.mapped _).mpr ⟨ht, List.not_mem_nil⟩
    exact ⟨htb, hkeeps.reads t htb⟩
  · obtain ⟨b, vs, hb, hkeeps, hvs⟩ := free_keeps h hids hm
    refine ⟨b, hb, fun t ht hnot => ?_⟩
    have htb := (hkeeps.mapped _).mpr ⟨ht, fun hc => hnot ((hvs _).mp hc)⟩
    exact ⟨htb, hkeeps.reads t htb⟩

/-- **Compaction is invisible to readers** along a run that never overwrites what is parked
under an event: the tables are inverse to each other, every compaction keeps what every
token reads, and so does every other operation that is not a write. -/
theorem compaction_invisible {σ : Setup} {kv : Side → ℤ → K} {s : State K}
    (h : (system K σ).Reaches (KeepsParked σ) (σ.start kv) s) :
    (∀ side, Invisible (σ.config side) (s.pool side)) ∧
      ∀ op s', Permitted σ s op → KeepsParked σ s op → (∀ side kv, op ≠ .write side kv) →
        step σ s op = .ok s' → ∀ side t, Mapped (s.pool side) (t / (σ.config side).pageSize) →
          Mapped (s'.pool side) (t / (σ.config side).pageSize) →
            (s'.pool side).kv (translateKvLoc (σ.config side) (s'.pool side) t) =
              (s.pool side).kv (translateKvLoc (σ.config side) (s.pool side) t) :=
  ⟨fun side => (reaches_good h side).invisible,
    fun _ _ hperm hkeep hwrite hok side t ht ht' =>
      ((step_quiet (reaches_good h) hperm hkeep hwrite hok) side).reads t ht ht'⟩

/-- A lazy allocator from below and an eager one from above. -/
def mixedPair : Setup where
  config
    | .first => smallPool .up true
    | .second => smallPool .down false
  bound := true

/-- A run that compacts both. -/
def compactBoth : List (Op ℤ) :=
  [.alloc .first 4 nothingFired, .alloc .second 3 nothingFired, .free .first [1],
    .flush .first true nothingFired, .free .second [2]]

theorem compaction_invisible_compactBoth : ∃ s,
    (system ℤ mixedPair).run (KeepsParked mixedPair) (mixedPair.start fun _ p => p) compactBoth =
        some s ∧
      Invisible (smallPool .up true) (s.pool .first) ∧
        Invisible (smallPool .down false) (s.pool .second) := by
  have hrun : ((system ℤ mixedPair).run (KeepsParked mixedPair) (mixedPair.start fun _ p => p)
      compactBoth).isSome = true := by decide +kernel
  obtain ⟨s, hs⟩ := Option.isSome_iff_exists.mp hrun
  have hall := (compaction_invisible (OpSystem.Reaches.refl.of_run hs)).1
  exact ⟨s, hs, hall .first, hall .second⟩

/-- Two flushes during one forward, and two urgent ones later. -/
def flushTwiceThenReuse : List (Op ℤ) :=
  [.alloc .first 10 nothingFired, .setLatest .first (some 0), .free .first [1, 2],
    .flushOpportunistic .first nothingFired, .free .first [3],
    .flushOpportunistic .first nothingFired, .free .first [7], .flush .first true nothingFired,
    .alloc .first 2 nothingFired, .free .first [11], .flush .first true nothingFired,
    .alloc .first 1 nothingFired]

/-- **A page is bound twice**: a page that was lost is taken for a parked one after it was
handed out again, so an urgent flush gives it up under its reader. -/
theorem page_bound_twice : ∃ s : State ℤ,
    (system ℤ lazyPair).Reaches (fun _ _ => True) (lazyPair.start fun _ p => p) s ∧
      Mapped (s.pool .first) 12 ∧ Mapped (s.pool .first) 13 ∧
        (s.pool .first).v2p 12 = (s.pool .first).v2p 13 := by
  have hrun : ((system ℤ lazyPair).run (fun _ _ => True) (lazyPair.start fun _ p => p)
      flushTwiceThenReuse).any (fun s => decide (Mapped (s.pool .first) 12 ∧
        Mapped (s.pool .first) 13 ∧ (s.pool .first).v2p 12 = (s.pool .first).v2p 13)) = true := by
    decide +kernel
  obtain ⟨s, hs, htwice⟩ := (Option.any_eq_true _ _).mp hrun
  exact ⟨s, OpSystem.Reaches.refl.of_run hs, of_decide_eq_true htwice⟩

end MultiEnded

end HtSglang
