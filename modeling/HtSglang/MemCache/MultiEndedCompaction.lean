import HtSglang.MemCache.MultiEndedWalk

/-!
# The lazy compaction keeps everything

The commit of a walk is a relocation (`HtSglang.MultiEnded.Walked.relocates`). What it
vacates goes to the free list, or is parked under an event, or – when the flush is urgent,
and the walk has packed the band (`HtSglang.TwoPointer.packed`) – is left beyond the
watermark (`HtSglang.MultiEnded.flush_keeps`).

One thing can go wrong, and it is a hypothesis here: the vacated pages are parked under
the event of the latest forward, where they replace what was parked before
(`HtSglang.MultiEnded.Overwrites`).
-/

namespace HtSglang

namespace MultiEnded

variable {K : Type} {c : Config} {a b : Pool K} {urgent : Bool} {w : Walk K}

/-! ### The commit -/

/-- The allocator after the copy and the remap of a batch. -/
def moved (c : Config) (w : Walk K) : Pool K :=
  { w.pool with
    kv := moveKvCache c w.pool.kv w.srcs w.dsts
    v2p := scatter w.pool.v2p w.vMoveds w.dsts
    p2v := scatter (scatter w.pool.p2v w.dsts w.vMoveds) w.srcs (w.srcs.map fun _ => -1) }

theorem Walked.length_dsts (h : Walked c a w) : w.dsts.length = w.srcs.length := by
  rw [h.dsts, List.length_take]
  have := h.taken.length_le
  omega

theorem Walked.nodup_srcs (h : Walked c a w) : w.srcs.Nodup :=
  h.taken.pairwise.imp fun hlt => by
    rintro rfl
    exact lt_irrefl _ hlt

theorem Walked.mem_dsts (h : Walked c a w) {p : ℤ} (hp : p ∈ w.dsts) : p ∈ a.freePhysPages := by
  rw [h.dsts] at hp
  exact (c.perm_fromEnd _).mem_iff.mp (List.mem_of_mem_take hp)

theorem Walked.nodup_dsts (h : Walked c a w) (hb : Books c a) : w.dsts.Nodup := by
  rw [h.dsts]
  have hnodup := (List.nodup_append.mp hb.nodup).1
  exact ((c.perm_fromEnd _).nodup_iff.mpr hnodup).sublist (List.take_sublist _ _)

/-- Nothing is a source and a destination. -/
theorem Walked.disjoint (h : Walked c a w) (hb : Books c a) {p : ℤ} (hs : p ∈ w.srcs)
    (hd : p ∈ w.dsts) : False :=
  hb.live p (h.taken.occupied p hs) (List.mem_append_left _ (h.mem_dsts hd))

/-- **The commit is a relocation.** -/
theorem Walked.relocates (h : Walked c a w) (ht : Tables a) (hb : Books c a)
    (hp2v : b.p2v = (moved c w).p2v) (hv2p : b.v2p = (moved c w).v2p) :
    Relocates a b (w.srcs.zip w.dsts) w.srcs [] := by
  have hpool := h.pool
  have hlen := h.length_dsts
  have hnodupS := h.nodup_srcs
  have hnodupD := h.nodup_dsts hb
  have hdisj := fun p => h.disjoint hb (p := p)
  have hlive := h.taken.occupied
  have hfree := fun p => h.mem_dsts (p := p)
  have hmoveds := h.vMoveds
  simp only [moved] at hp2v hv2p
  rw [hmoveds] at hp2v hv2p
  have hpv : w.pool.p2v = a.p2v := by rw [hpool]
  have hvp : w.pool.v2p = a.v2p := by rw [hpool]
  rw [hpv] at hp2v
  rw [hvp] at hv2p
  generalize w.srcs = srcs at *
  generalize w.dsts = dsts at *
  -- the batch is indexed by the pairs it moves
  obtain ⟨l, rfl, rfl⟩ : ∃ l : List (ℤ × ℤ), l.map Prod.fst = srcs ∧ l.map Prod.snd = dsts :=
    ⟨srcs.zip dsts, List.map_fst_zip hlen.ge, List.map_snd_zip hlen.le⟩
  have hzip : (l.map Prod.fst).zip (l.map Prod.snd) = l := by simp [List.zip_map']
  rw [hzip]
  have hsrc : ∀ x ∈ l, x.1 ∈ l.map Prod.fst := fun x hx => List.mem_map.mpr ⟨x, hx, rfl⟩
  have hdst : ∀ x ∈ l, x.2 ∈ l.map Prod.snd := fun x hx => List.mem_map.mpr ⟨x, hx, rfl⟩
  have hdead : ∀ x ∈ l, c.InBand a.watermark x.2 ∧ ¬Live a x.2 := by
    intro x hx
    have hmem := List.mem_append_left (held a) (hfree x.2 (hdst x hx))
    exact ⟨(hb.band x.2).mpr (Or.inr hmem), hb.not_live hmem⟩
  obtain ⟨hmoved, hrest⟩ := ht.scatter_moved (fun x hx => hlive x.1 (hsrc x hx)) hnodupS a.v2p
  refine ⟨fun x hx => ⟨hlive x.1 (hsrc x hx), List.not_mem_nil⟩, hnodupS, hnodupD, fun x hx => ?_,
    fun x hx hl => absurd hl (hdead x hx).2, hsrc, fun x hx hc => hdisj x.2 hc (hdst x hx),
    fun p hp _ => Or.inl hp, fun p _ hc => absurd hc List.not_mem_nil, fun x hx => ?_,
    fun p hp => ?_,
    fun p hp hd => ?_, fun x hx => ?_, fun v hv => absurd hv List.not_mem_nil, fun v _ hne => ?_⟩
  · have hrange := hb.range x.2 (hdead x hx).1
    have := c.one_le_min
    omega
  · rw [hp2v, scatter_of_notMem _ _ fun hc => hdisj x.2 hc (hdst x hx), List.map_map]
    exact scatter_map a.p2v (a.p2v ∘ Prod.fst) hnodupD hx
  · rw [hp2v, scatter_const, if_pos hp]
  · rw [hp2v, scatter_of_notMem _ _ hp, scatter_of_notMem _ _ hd]
  · rw [hv2p]
    exact hmoved x hx
  · rw [hv2p]
    exact hrest v hne

/-- **Where the vacated pages go**: they are released, or parked under an event that has not
fired. -/
theorem commitMoveBatch_cases (h : Walked c a w) (fired : Finset Event) :
    commitMoveBatch c w.pool w.srcs w.dsts w.vMoveds w.latestEvent fired w.releasedFired =
        (moved c w, w.srcs) ∨
      w.srcs ≠ [] ∧ ∃ e, w.latestEvent = some e ∧ e ∉ fired ∧
        commitMoveBatch c w.pool w.srcs w.dsts w.vMoveds w.latestEvent fired w.releasedFired =
          ({ moved c w with
            pendingReuse := Dict.set w.pool.pendingReuse e w.srcs
            pendingReusePagesCpu := w.pool.pendingReusePagesCpu ∪ w.srcs.toFinset }, []) := by
  rw [commitMoveBatch, h.released]
  split
  · next hnil =>
    left
    have hdnil : w.dsts = [] := List.length_eq_zero_iff.mp (by rw [h.length_dsts, hnil]; rfl)
    rw [moved, hnil, hdnil]
    simp [moveKvCache, tokenIds_eq]
  · next hne =>
    rcases hl : w.latestEvent with _ | e
    · exact Or.inl rfl
    · simp only
      split
      · exact Or.inl rfl
      · next hf => exact Or.inr ⟨hne, e, rfl, hf, rfl⟩

/-! ### The two ways to finish -/

theorem remainingHoles_spec (c : Config) (holes : List ℤ) (n : ℕ) :
    (remainingHoles c holes n).Sublist holes ∧
      holes.Perm ((c.fromEnd holes).take n ++ remainingHoles c holes n) := by
  rw [remainingHoles]
  rcases hg : c.grow with _ | _ <;> simp only [Config.fromEnd, hg]
  · exact ⟨List.drop_sublist _ _, by rw [List.take_append_drop]⟩
  · refine ⟨List.take_sublist _ _, ?_⟩
    rw [List.take_reverse]
    have hsplit : holes.Perm (holes.drop (holes.length - n) ++ holes.take (holes.length - n)) := by
      refine List.Perm.trans ?_ List.perm_append_comm
      rw [List.take_append_drop]
    exact hsplit.trans ((List.reverse_perm _).symm.append_right _)

/-- The contents after the commit. -/
theorem Walked.kv_moved (h : Walked c a w) :
    (moved c w).kv = moveKvCache c a.kv ((w.srcs.zip w.dsts).map Prod.fst)
      ((w.srcs.zip w.dsts).map Prod.snd) := by
  rw [List.map_fst_zip h.length_dsts.ge, List.map_snd_zip h.length_dsts.le, moved, h.pool]

theorem Prepared.pairwise_remainingHoles (hp : Prepared c a urgent) (n : ℕ) :
    (remainingHoles c a.freePhysPages n).Pairwise (· ≤ ·) :=
  (hp.holes.sublist (remainingHoles_spec c a.freePhysPages n).1).imp le_of_lt

/-- **A partial pass**: the consumed holes leave the free list, and the vacated pages go to
the free list or under an event, which must not hold any. -/
theorem Walked.keeps_partial (h : Walked c a w) (hp : Prepared c a urgent)
    (hlazy : c.lazyCompaction = true)
    (hb : b = { moved c w with
      freePhysPages := b.freePhysPages
      pendingReuse := b.pendingReuse
      pendingReusePagesCpu := b.pendingReusePagesCpu })
    (hpages : (remainingHoles c a.freePhysPages w.srcs.length ++ held a ++ w.srcs).Perm
      (b.freePhysPages ++ held b))
    (hkeys : (Dict.keys b.pendingReuse).Nodup)
    (hparked : ∀ p, p ∈ b.pendingReusePagesCpu ↔ p ∈ held b)
    (hsorted : c.sortFreeList = true → b.freePhysPages.Pairwise (· ≤ ·)) :
    Keeps c a b [] := by
  have hbooks := hp.inv.books
  have hremain := (remainingHoles_spec c a.freePhysPages w.srcs.length).2
  rw [← h.dsts] at hremain
  have hp2v : b.p2v = (moved c w).p2v := by rw [hb]
  have hv2p : b.v2p = (moved c w).v2p := by rw [hb]
  have hrel := h.relocates hp.inv.tables hbooks hp2v hv2p
  have hfst : (w.srcs.zip w.dsts).map Prod.fst = w.srcs := List.map_fst_zip h.length_dsts.ge
  have hsnd : (w.srcs.zip w.dsts).map Prod.snd = w.dsts := List.map_snd_zip h.length_dsts.le
  have hlive : ∀ p, Live b p ↔ Live a p ∧ p ∉ w.srcs ∨ p ∈ w.dsts := by
    intro p
    rw [hrel.live_iff, hfst, hsnd, or_comm]
    simp
  have hperm : (a.freePhysPages ++ held a ++ w.srcs).Perm
      (b.freePhysPages ++ held b ++ w.dsts) := by
    refine ((hremain.append_right _).append_right _).trans ?_
    rw [List.append_assoc, List.append_assoc]
    refine List.perm_append_comm.trans (List.Perm.append_right _ ?_)
    rw [← List.append_assoc]
    exact hpages
  have hpool := h.pool
  have hcount : b.livePageCount = a.livePageCount - w.srcs.length + w.dsts.length := by
    rw [hb, h.length_dsts]
    simp only [moved]
    rw [hpool]
    simp
  obtain ⟨hbooks', hcount'⟩ := hbooks.exchange w.srcs w.dsts (by rw [hb, moved, hpool]) h.nodup_srcs
    h.taken.occupied hperm hlive hkeys hparked hsorted (fun _ => hcount)
    (fun he => by simp [hlazy] at he)
  refine hrel.keeps hp.inv hbooks' ?_ List.nodup_nil (by simp) ?_ ?_
  · rw [hcount', h.length_dsts]
    simp
  · rw [hb, moved, hpool]
    simp
  · rw [hb]
    exact h.kv_moved

/-- A partial pass that returns the vacated pages to the free list. -/
theorem Walked.keeps_released (h : Walked c a w) (hp : Prepared c a urgent)
    (hlazy : c.lazyCompaction = true) :
    Keeps c a { moved c w with
      freePhysPages := if w.srcs = [] then remainingHoles c a.freePhysPages w.srcs.length
        else mergeFree c (remainingHoles c a.freePhysPages w.srcs.length ++ w.srcs) } [] := by
  set free := (if w.srcs = [] then remainingHoles c a.freePhysPages w.srcs.length
    else mergeFree c (remainingHoles c a.freePhysPages w.srcs.length ++ w.srcs)) with hfree
  have hpend : w.pool.pendingReuse = a.pendingReuse := by rw [h.pool]
  have hperm : free.Perm (remainingHoles c a.freePhysPages w.srcs.length ++ w.srcs) := by
    rw [hfree]
    split
    · next hnil => rw [hnil, List.append_nil]
    · exact perm_mergeFree c _
  have hheld : held { moved c w with freePhysPages := free } = held a := by
    rw [held, held, ← hpend]
    rfl
  refine h.keeps_partial hp hlazy rfl ?_ ?_ ?_ fun hs => ?_
  · rw [hheld]
    refine List.Perm.trans ?_ (hperm.symm.append_right _)
    rw [List.append_assoc, List.append_assoc]
    exact List.perm_append_comm.append_left _
  · exact hpend ▸ hp.inv.books.keys
  · intro p
    rw [hheld, ← hp.inv.books.parked]
    change p ∈ w.pool.pendingReusePagesCpu ↔ _
    rw [h.pool]
  · rw [hfree]
    split
    · exact hp.pairwise_remainingHoles _
    · exact pairwise_mergeFree hs _

/-- A partial pass that parks the vacated pages, under an event that held none. -/
theorem Walked.keeps_parked (h : Walked c a w) (hp : Prepared c a urgent)
    (hlazy : c.lazyCompaction = true) {e : Event} (he : e ∉ Dict.keys a.pendingReuse) :
    Keeps c a { moved c w with
      pendingReuse := Dict.set w.pool.pendingReuse e w.srcs
      pendingReusePagesCpu := w.pool.pendingReusePagesCpu ∪ w.srcs.toFinset
      freePhysPages := remainingHoles c a.freePhysPages w.srcs.length } [] := by
  have hpend : w.pool.pendingReuse = a.pendingReuse := by rw [h.pool]
  have hcpu : w.pool.pendingReusePagesCpu = a.pendingReusePagesCpu := by rw [h.pool]
  have hheld : held { moved c w with
      pendingReuse := Dict.set w.pool.pendingReuse e w.srcs
      pendingReusePagesCpu := w.pool.pendingReusePagesCpu ∪ w.srcs.toFinset
      freePhysPages := remainingHoles c a.freePhysPages w.srcs.length } = held a ++ w.srcs := by
    rw [held, held, hpend, Dict.set_of_notMem _ he, List.flatMap_append]
    simp
  refine h.keeps_partial hp hlazy rfl ?_ ?_ ?_ fun _ => hp.pairwise_remainingHoles _
  · rw [hheld, List.append_assoc]
  · exact Dict.nodup_keys_set (hpend ▸ hp.inv.books.keys) _ _
  · intro p
    rw [hheld, Finset.mem_union, List.mem_toFinset, hcpu, hp.inv.books.parked, List.mem_append]

/-- **A full pass**: the walk has packed the band, and everything above is given up. -/
theorem Walked.keeps_full (h : Walked c a w) (hp : Prepared c a true) (hend : Ended c a w) :
    Keeps c a { moved c w with
      watermark := c.retreat a.watermark a.freePhysPages.length
      freePhysPages := [] } [] := by
  have hbooks := hp.inv.books
  set b : Pool K := { moved c w with
    watermark := c.retreat a.watermark a.freePhysPages.length
    freePhysPages := [] } with hb
  have hrel := h.relocates hp.inv.tables hbooks (b := b) rfl rfl
  have hpool := h.pool
  have hpend : b.pendingReuse = [] := by
    change w.pool.pendingReuse = []
    rw [hpool]
    exact hp.parked rfl
  have hheldA : held a = [] := by rw [held, hp.parked rfl, List.flatMap_nil]
  have hheld : held b = [] := by rw [held, hpend, List.flatMap_nil]
  have hcpu : b.pendingReusePagesCpu = a.pendingReusePagesCpu := by
    change w.pool.pendingReusePagesCpu = _
    rw [hpool]
  have hlevel : c.level b.watermark = c.level a.watermark - a.freePhysPages.length :=
    c.level_retreat _ _
  have hlenEnd := (c.perm_fromEnd a.freePhysPages).length_eq
  have hmemEnd : ∀ p, p ∈ c.fromEnd a.freePhysPages ↔ p ∈ a.freePhysPages :=
    fun p => (c.perm_fromEnd a.freePhysPages).mem_iff
  have hband : ∀ p, c.InBand b.watermark p ↔ Live b p := by
    intro p
    have hpacked : c.base ≤ c.depth p ∧
        c.depth p < c.level a.watermark - (c.fromEnd a.freePhysPages).length ↔
        Live a p ∧ p ∉ w.srcs ∨ p ∈ (c.fromEnd a.freePhysPages).take w.srcs.length := by
      refine TwoPointer.packed c.depth_injective c.depth_surjective (c.pairwise_fromEnd hp.holes)
        (fun q => ?_) (fun q hq => ?_) h.taken hend p
      · rw [← c.inBand_iff, hbooks.band, hheldA, List.append_nil, hmemEnd]
      · exact hbooks.not_live (List.mem_append_left _ ((hmemEnd q).mp hq))
    rw [hlenEnd] at hpacked
    rw [c.inBand_iff, hlevel, hpacked, hrel.live_iff, List.map_fst_zip h.length_dsts.ge,
      List.map_snd_zip h.length_dsts.le, ← h.dsts, or_comm]
    simp
  have hcount : liveCount c b = liveCount c a := by
    have hnil : b.freePhysPages.length = 0 := rfl
    rw [liveCount, liveCount, hlevel, hheld, hheldA, hnil]
    omega
  have hlive : b.livePageCount = a.livePageCount := by
    change w.pool.livePageCount = _
    rw [hpool]
  have hbase : c.base ≤ c.level b.watermark := by
    rw [hlevel]
    refine c.length_le (List.nodup_append.mp hbooks.nodup).1 (fun p hpm => ?_) hbooks.base_le
    exact (hbooks.band p).mpr (Or.inr (List.mem_append_left _ hpm))
  have hbooks' : Books c b := by
    refine ⟨hbase, fun p hin => hbooks.range p ?_, fun p => ?_, fun p _ => ?_, ?_, ?_, fun p => ?_,
      fun _ => List.Pairwise.nil, fun hl => ?_, fun _ => ⟨rfl, hpend⟩⟩
    · rw [c.inBand_iff] at hin ⊢
      omega
    · rw [hband, hheld]
      simp [hb]
    · rw [hheld]
      simp [hb]
    · rw [hheld]
      simp [hb]
    · rw [hpend]
      exact List.nodup_nil
    · rw [hcpu, hbooks.parked, hheldA, hheld]
    · rw [hlive, hcount]
      exact hbooks.count hl
  refine hrel.keeps hp.inv hbooks' (by simpa using hcount) List.nodup_nil (by simp) ?_ h.kv_moved
  change w.pool.freeVirtualIds = _
  rw [hpool]
  simp

/-! ### The flush -/

/-- The live page nearest to the watermark. -/
def topLive (c : Config) (a : Pool K) : Option ℤ :=
  ((List.range (c.room (c.frontier a.watermark))).find? fun i : ℕ =>
    Live a (c.retreat (c.frontier a.watermark) i)).map
      fun i : ℕ => c.retreat (c.frontier a.watermark) i

/-- **The overwrite**: when a flush that is not urgent begins, pages are parked under the event
of the latest forward, which does not fire before the flush commits; and the flush moves
something: the forward under way does not write the live page nearest to the watermark, and a
page behind that one is free or about to be returned. -/
def Overwrites (c : Config) (a : Pool K) (ans : Answers) : Prop :=
  (∃ e ∈ a.latestForwardDoneEvent,
    e ∈ Dict.keys a.pendingReuse ∧ e ∉ ans.drain ∧ e ∉ ans.commit) ∧
  ∃ src ∈ topLive c a, src ∉ (materializeInflightWriteSet c a ans.inflight).2.getD ∅ ∧
    ∃ dst ∈ a.freePhysPages ++ (a.pendingReuse.filter fun e => e.1 ∈ ans.drain).flatMap Prod.snd,
      c.above dst src = true

theorem Books.topLive_eq (h : Books c a) {src : ℤ} (hlive : Live a src)
    (htop : ∀ q, Live a q → q ≠ src → c.depth q < c.depth src) : topLive c a = some src := by
  have hband := h.inBand hlive
  rw [c.inBand_iff] at hband
  have hdepth : ∀ i : ℕ, c.depth (c.retreat (c.frontier a.watermark) i)
      = c.level a.watermark - 1 - i := fun i => by
    rw [← c.depth_frontier]
    exact c.level_retreat _ _
  obtain ⟨i, hi⟩ : ∃ i : ℕ, c.depth src = c.level a.watermark - 1 - i :=
    ⟨(c.level a.watermark - 1 - c.depth src).toNat, by omega⟩
  have hsrc : c.retreat (c.frontier a.watermark) i = src :=
    c.depth_injective ((hdepth i).trans hi.symm)
  have hfind : ((List.range (c.room (c.frontier a.watermark))).find? fun i : ℕ =>
      Live a (c.retreat (c.frontier a.watermark) i)) = some i := by
    refine List.find?_range_eq_some.mpr ⟨?_, ?_, fun j hj => ?_⟩
    · exact decide_eq_true (hsrc.symm ▸ hlive)
    · rw [List.mem_range, c.room_eq, c.depth_frontier]
      omega
    · rw [Bool.not_eq_true', decide_eq_false_iff_not]
      intro hq
      have := hdepth j
      have hlt := htop _ hq fun he => by rw [he] at this; omega
      omega
  rw [topLive, hfind, Option.map_some, hsrc]

/-- What a flush does before it walks changes the free list and the watermark, and returns
parked pages. -/
theorem prepareFlush_eq (c : Config) (a : Pool K) (urgent : Bool) (ans : Answers) :
    prepareFlush c a urgent ans = { drainPendingReuse c a urgent ans.drain with
      watermark := (prepareFlush c a urgent ans).watermark
      freePhysPages := (prepareFlush c a urgent ans).freePhysPages } ∧
    (prepareFlush c a urgent ans).freePhysPages ⊆
      (drainPendingReuse c a urgent ans.drain).freePhysPages := by
  simp only [prepareFlush]
  split
  · exact ⟨rfl, fun p hp =>
      (perm_sortPages _).mem_iff.mp ((absorbBoundaryHoles_sublist c _).subset hp)⟩
  · exact ⟨rfl, fun p hp => (absorbBoundaryHoles_sublist c _).subset hp⟩

theorem materializeInflightWriteSet_congr (hi : b.inflightForward = a.inflightForward)
    (hv : b.v2p = a.v2p) (fired : Finset Event) :
    (materializeInflightWriteSet c b fired).2 = (materializeInflightWriteSet c a fired).2 := by
  have htr : translateKvLoc c b = translateKvLoc c a := by
    funext t
    simp only [translateKvLoc, hv]
  simp only [materializeInflightWriteSet, hi, htr]
  split
  · rfl
  · split <;> rfl

/-- A walk that takes a page, and then parks it where pages are parked already, overwrites. -/
theorem overwrites_of_walk (h : Inv c a) {ans : Answers} {e : Event}
    (hok : walkFlush c a false ans = .ok (prepareFlush c a false ans, w)) (hne : w.srcs ≠ [])
    (he : (prepareFlush c a false ans).latestForwardDoneEvent = some e) (hf : e ∉ ans.commit)
    (hmem : e ∈ Dict.keys (prepareFlush c a false ans).pendingReuse) : Overwrites c a ans := by
  obtain ⟨src, dst, hlive, htop, hws, hdst, hlt⟩ := walkFlush_first h hok hne
  obtain ⟨heq, hsub⟩ := prepareFlush_eq c a false ans
  have hdst := (drainPendingReuse_perm c a false ans.drain).mem_iff.mp (hsub hdst)
  have hinflight : (prepareFlush c a false ans).inflightForward = a.inflightForward := by
    rw [heq]
    rfl
  have hv2p : (prepareFlush c a false ans).v2p = a.v2p := by
    rw [heq]
    rfl
  rw [materializeInflightWriteSet_congr hinflight hv2p] at hws
  rw [heq] at hlive htop he hmem
  obtain ⟨x, hx, rfl⟩ := List.mem_map.mp hmem
  obtain ⟨hx, hxd⟩ := List.mem_filter.mp hx
  refine ⟨⟨x.1, he, List.mem_map_of_mem hx, by simpa using hxd, hf⟩, src,
    h.books.topLive_eq hlive htop, hws, dst, by simpa using hdst, c.above_iff.mpr hlt⟩

theorem Keeps.refl (h : Inv c a) : Keeps c a a [] :=
  ⟨h, by simp, fun _ _ => rfl⟩

/-- **A flush keeps everything**, urgent or not, unless it overwrites. -/
theorem flush_keeps (h : Inv c a) (urgent : Bool) (ans : Answers)
    (hover : urgent = false → ¬Overwrites c a ans) :
    ∃ b, flush c a urgent ans = .ok b ∧ Keeps c a b [] := by
  rw [flush]
  split
  · exact ⟨a, rfl, Keeps.refl h⟩
  next hlazy =>
  rw [not_not] at hlazy
  obtain ⟨hkeeps, hp⟩ := prepareFlush_keeps h urgent ans
  obtain ⟨w, hok, hwalked, hend, hnone, hlatest⟩ := walkFlush_ok h urgent ans
  refine ⟨_, by rw [hok]; rfl, hkeeps.trans ?_⟩
  simp only [finishFlush]
  split
  · -- an urgent flush with holes: all of it is released
    next hfull =>
    obtain ⟨hu, -⟩ := Bool.and_eq_true_iff.mp hfull
    subst hu
    rcases commitMoveBatch_cases hwalked ans.commit with hc | ⟨hne, e, he, -, -⟩
    · rw [hc]
      exact hwalked.keeps_full hp (hend rfl)
    · rw [hnone rfl hne] at he
      cases he
  · rw [hwalked.consumed]
    rcases commitMoveBatch_cases hwalked ans.commit with hc | ⟨hne, e, he, hf, hc⟩
    · rw [hc]
      exact hwalked.keeps_released hp hlazy
    · have hu : urgent = false := by
        by_contra hu
        rw [hnone (by simpa using hu) hne] at he
        cases he
      subst hu
      rw [hc]
      exact hwalked.keeps_parked hp hlazy fun hmem =>
        hover rfl (overwrites_of_walk h hok hne ((hlatest rfl).symm.trans he) hf hmem)

end MultiEnded

end HtSglang
