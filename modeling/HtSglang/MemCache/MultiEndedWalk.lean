import HtSglang.Library.TwoPointer
import HtSglang.MemCache.MultiEndedMoves

/-!
# The walk of the lazy compaction

What `_flush` does before its walk moves no page: parked pages go back to the free list,
and the watermark goes back over the holes next to it
(`HtSglang.MultiEnded.prepareFlush_keeps`). The walk takes the live pages nearest to the
watermark one after the other (`HtSglang.MultiEnded.survivorFrom_found`), and finds a hole
below each (`HtSglang.MultiEnded.Walking.push`). It always ends, and an urgent walk only
when nothing that is left could go lower (`HtSglang.MultiEnded.walk_ok`).
-/

namespace HtSglang

namespace MultiEnded

variable {K : Type} {c : Config} {a b : Pool K}

/-! ### Before the walk -/

/-- Nothing moved. -/
theorem Relocates.of_tables (hv2p : b.v2p = a.v2p) (hp2v : b.p2v = a.p2v) :
    Relocates a b [] [] [] := by
  refine ⟨by simp, by simp, by simp, by simp, by simp, by simp, by simp, by simp, by simp,
    by simp, by simp, fun p _ _ => by rw [hp2v], by simp, by simp, fun v _ _ => by rw [hv2p]⟩

/-- **Only the pages were counted anew**: the tables, the ids and the contents are the
same. -/
theorem Books.keeps (hbooks : Books c b) (h : Inv c a) (hcount : liveCount c b = liveCount c a)
    (hv2p : b.v2p = a.v2p) (hp2v : b.p2v = a.p2v) (hids : b.freeVirtualIds = a.freeVirtualIds)
    (hkv : b.kv = a.kv) : Keeps c a b [] := by
  refine (Relocates.of_tables hv2p hp2v).keeps h hbooks (by simp [hcount]) List.nodup_nil (by simp)
    ?_ ?_
  · rw [hids, List.append_nil, ite_self]
  · rw [hkv]
    simp [moveKvCache, tokenIds_eq]

theorem Keeps.trans {b' : Pool K} (h : Keeps c a b []) (h' : Keeps c b b' []) :
    Keeps c a b' [] := by
  refine ⟨h'.inv, fun v => ?_, fun t ht => ?_⟩
  · rw [h'.mapped, h.mapped]
    simp
  · have hb := ((h'.mapped _).mp ht).1
    rw [h'.reads t ht, h.reads t hb]

theorem drainPendingReuse_perm (c : Config) (a : Pool K) (urgent : Bool) (fired : Finset Event) :
    (drainPendingReuse c a urgent fired).freePhysPages.Perm (a.freePhysPages ++
      (a.pendingReuse.filter fun e => e.1 ∈ fired ∨ urgent).flatMap Prod.snd) := by
  rw [drainPendingReuse]
  simp only
  split
  · next hnil => rw [hnil, List.flatMap_nil, List.append_nil]
  · exact perm_mergeFree c _

/-- **Returning parked pages.** -/
theorem drainPendingReuse_keeps (h : Inv c a) (urgent : Bool) (fired : Finset Event) :
    Keeps c a (drainPendingReuse c a urgent fired) [] := by
  set b := drainPendingReuse c a urgent fired with hb
  set ready := a.pendingReuse.filter fun e => e.1 ∈ fired ∨ urgent with hready
  have hpend : b.pendingReuse = a.pendingReuse.filter fun e => ¬(e.1 ∈ fired ∨ urgent) := rfl
  have hsplit : (held a).Perm (ready.flatMap Prod.snd ++ held b) := by
    rw [held, held, hpend, ← List.flatMap_append]
    refine List.Perm.flatMap_right _ ?_
    have hperm := List.filter_append_perm (fun e : Event × List ℤ => decide (e.1 ∈ fired ∨ urgent))
      a.pendingReuse
    simpa only [decide_not] using hperm.symm
  have hfree : b.freePhysPages.Perm (a.freePhysPages ++ ready.flatMap Prod.snd) :=
    drainPendingReuse_perm c a urgent fired
  have hperm : (a.freePhysPages ++ held a ++ []).Perm (b.freePhysPages ++ held b ++ []) := by
    rw [List.append_nil, List.append_nil]
    refine (hsplit.append_left _).trans ?_
    rw [← List.append_assoc]
    exact hfree.symm.append_right _
  -- a returned page is not parked elsewhere
  have hdisj : ∀ p ∈ ready.flatMap Prod.snd, ∀ q ∈ held b, p ≠ q := by
    have hnodup := (List.nodup_append.mp h.books.nodup).2.1
    exact (List.nodup_append.mp (hsplit.nodup_iff.mp hnodup)).2.2
  have hkeys : (Dict.keys b.pendingReuse).Nodup :=
    h.books.keys.sublist (List.filter_sublist.map _)
  have hparked : ∀ p, p ∈ b.pendingReusePagesCpu ↔ p ∈ held b := by
    intro p
    change p ∈ a.pendingReusePagesCpu \ (ready.flatMap Prod.snd).toFinset ↔ _
    rw [Finset.mem_sdiff, List.mem_toFinset, h.books.parked, hsplit.mem_iff, List.mem_append]
    constructor
    · rintro ⟨hp | hp, hnot⟩
      · exact absurd hp hnot
      · exact hp
    · exact fun hp => ⟨Or.inr hp, fun hc => hdisj p hc p hp rfl⟩
  have hsorted : c.sortFreeList = true → b.freePhysPages.Pairwise (· ≤ ·) := by
    intro hs
    rw [hb, drainPendingReuse]
    simp only
    split
    · exact h.books.sorted hs
    · exact pairwise_mergeFree hs _
  have heager : c.lazyCompaction = false → b.freePhysPages = [] ∧ b.pendingReuse = [] := by
    intro he
    obtain ⟨hnil, hpnil⟩ := h.books.eager he
    have hnone : ready = [] := by rw [hready, hpnil, List.filter_nil]
    rw [hnone, hnil] at hfree
    exact ⟨hfree.eq_nil, by rw [hpend, hpnil, List.filter_nil]⟩
  obtain ⟨hbooks, hcount⟩ := h.books.exchange (b := b) [] [] rfl List.nodup_nil (by simp) hperm
    (fun p => by simp; rfl) hkeys hparked hsorted (fun _ => by simp; rfl) heager
  exact hbooks.keeps h (by simpa using hcount) rfl rfl rfl rfl

/-- The free list in another order. -/
theorem Inv.reorder (h : Inv c a) {free : List ℤ} (hperm : free.Perm a.freePhysPages)
    (hsorted : c.sortFreeList = true → free.Pairwise (· ≤ ·)) :
    Keeps c a { a with freePhysPages := free } [] := by
  obtain ⟨hbooks, hcount⟩ := h.books.exchange (b := { a with freePhysPages := free }) [] [] rfl
    List.nodup_nil (by simp) ((hperm.symm.append_right _).append_right _) (fun p => by simp; rfl)
    h.books.keys h.books.parked hsorted (fun _ => by simp) fun he => by
      obtain ⟨hnil, hpnil⟩ := h.books.eager he
      rw [hnil] at hperm
      exact ⟨hperm.eq_nil, hpnil⟩
  exact hbooks.keeps h (by simpa using hcount) rfl rfl rfl rfl

/-- The holes next to the watermark, as many as are absorbed. -/
theorem absorbCount_spec (c : Config) (wm : ℤ) (hs : List ℤ) :
    absorbCount c wm hs ≤ hs.length ∧ ∀ p, p ∈ hs.take (absorbCount c wm hs) ↔
      c.level wm - absorbCount c wm hs ≤ c.depth p ∧ c.depth p < c.level wm := by
  induction hs generalizing wm with
  | nil => exact ⟨le_refl _, fun p => by simp [absorbCount]⟩
  | cons h hs ih =>
    rw [absorbCount]
    split
    · next hfront =>
      obtain ⟨hle, hmem⟩ := ih (c.retreat wm 1)
      refine ⟨by simpa using hle, fun p => ?_⟩
      have hdepth : p = h ↔ c.depth p = c.level wm - 1 := by
        rw [← c.depth_frontier, hfront]
        exact c.depth_injective.eq_iff.symm
      rw [List.take_succ_cons, List.mem_cons, hmem, hdepth, c.level_retreat]
      push_cast
      omega
    · exact ⟨Nat.zero_le _, fun p => by simp⟩

theorem absorbBoundaryHoles_sublist (c : Config) (a : Pool K) :
    (absorbBoundaryHoles c a).freePhysPages.Sublist a.freePhysPages := by
  rw [absorbBoundaryHoles]
  rcases hg : c.grow with _ | _
  · exact List.take_sublist _ _
  · exact List.drop_sublist _ _

/-- **Absorbing** takes the watermark back over free pages. -/
theorem absorbBoundaryHoles_keeps (h : Inv c a) : Keeps c a (absorbBoundaryHoles c a) [] := by
  set n := absorbCount c a.watermark (c.fromWatermark a.freePhysPages) with hn
  set b := absorbBoundaryHoles c a with hb
  obtain ⟨hle, hmem⟩ := absorbCount_spec c a.watermark (c.fromWatermark a.freePhysPages)
  rw [← hn] at hle hmem
  set absorbed := (c.fromWatermark a.freePhysPages).take n with habs
  have hlevel : c.level b.watermark = c.level a.watermark - n := c.level_retreat _ _
  have hsub : b.freePhysPages.Sublist a.freePhysPages := absorbBoundaryHoles_sublist c a
  have hperm : a.freePhysPages.Perm (absorbed ++ b.freePhysPages) := by
    have hrest : (c.fromWatermark a.freePhysPages).drop n = c.fromWatermark b.freePhysPages := by
      rw [hb, absorbBoundaryHoles]
      simp only [← hn]
      rcases hg : c.grow with _ | _ <;> simp only [Config.fromWatermark, hg]
      rw [List.drop_reverse]
    refine (c.perm_fromWatermark _).symm.trans ?_
    rw [← List.take_append_drop n (c.fromWatermark a.freePhysPages), hrest]
    exact (c.perm_fromWatermark _).append_left _
  have hlen := hperm.length_eq
  have habsLen : absorbed.length = n := by
    rw [habs, List.length_take]
    omega
  have hall : (a.freePhysPages ++ held a).Perm (absorbed ++ (b.freePhysPages ++ held b)) := by
    rw [← List.append_assoc]
    exact hperm.append_right _
  have hnodup := List.nodup_append.mp (hall.nodup_iff.mp h.books.nodup)
  have hmemAll : ∀ p, p ∈ a.freePhysPages ++ held a ↔
      p ∈ absorbed ∨ p ∈ b.freePhysPages ++ held b := by
    intro p
    rw [hall.mem_iff, List.mem_append]
  have hbase : c.base ≤ c.level b.watermark := by
    rw [hlevel, ← habsLen]
    refine c.length_le hnodup.1 (fun p hp => ?_) h.books.base_le
    exact (h.books.band p).mpr (Or.inr ((hmemAll p).mpr (Or.inl hp)))
  have hband : ∀ p, c.InBand b.watermark p ↔ c.InBand a.watermark p ∧ p ∉ absorbed := by
    intro p
    rw [c.inBand_iff, c.inBand_iff, hlevel, hmem]
    omega
  have hlive : ∀ p, Live b p ↔ Live a p := fun p => Iff.rfl
  have hcount : liveCount c b = liveCount c a := by
    rw [List.length_append, habsLen] at hlen
    rw [liveCount, liveCount, hlevel, hlen, show held b = held a from rfl]
    push_cast
    omega
  have hbooks : Books c b := by
    refine ⟨hbase, fun p hp => h.books.range p ((hband p).mp hp).1, fun p => ?_, fun p hp hc => ?_,
      hnodup.2.1, h.books.keys, h.books.parked, fun hs => (h.books.sorted hs).sublist hsub,
      fun hl => (h.books.count hl).trans hcount.symm, fun he => ?_⟩
    · rw [hband, h.books.band, hmemAll, hlive]
      constructor
      · rintro ⟨hp | hp | hp, hnot⟩
        · exact Or.inl hp
        · exact absurd hp hnot
        · exact Or.inr hp
      · rintro (hp | hp)
        · exact ⟨Or.inl hp, fun hc => h.books.live p hp ((hmemAll p).mpr (Or.inl hc))⟩
        · exact ⟨Or.inr (Or.inr hp), fun hc => hnodup.2.2 p hc p hp rfl⟩
    · exact h.books.live p hp ((hmemAll p).mpr (Or.inr hc))
    · obtain ⟨hnil, hpnil⟩ := h.books.eager he
      rw [hnil] at hsub
      exact ⟨List.sublist_nil.mp hsub, hpnil⟩
  exact hbooks.keeps h hcount rfl rfl rfl rfl

/-- What a flush walks: an allocator in order, whose holes ascend. -/
structure Prepared (c : Config) (a : Pool K) (urgent : Bool) : Prop where
  inv : Inv c a
  holes : a.freePhysPages.Pairwise (· < ·)
  /-- An urgent flush has returned all parked pages. -/
  parked : urgent = true → a.pendingReuse = []

/-- **Before the walk** nothing moves. -/
theorem prepareFlush_keeps (h : Inv c a) (urgent : Bool) (ans : Answers) :
    Keeps c a (prepareFlush c a urgent ans) [] ∧
      Prepared c (prepareFlush c a urgent ans) urgent := by
  have hdrain := drainPendingReuse_keeps h urgent ans.drain
  set a₁ := drainPendingReuse c a urgent ans.drain with ha₁
  set a₂ := (if ¬c.sortFreeList ∧ 1 < a₁.freePhysPages.length
    then { a₁ with freePhysPages := sortPages a₁.freePhysPages } else a₁) with ha₂
  have hperm : a₂.freePhysPages.Perm a₁.freePhysPages := by
    rw [ha₂]
    split
    · exact perm_sortPages _
    · exact List.Perm.refl _
  have hrest : a₂ = { a₁ with freePhysPages := a₂.freePhysPages } := by
    rw [ha₂]
    split <;> rfl
  have hsorted : a₂.freePhysPages.Pairwise (· ≤ ·) := by
    rw [ha₂]
    split
    · exact pairwise_sortPages _
    · next hnot =>
      by_cases hs : c.sortFreeList = true
      · exact hdrain.inv.books.sorted hs
      · have : a₁.freePhysPages.length ≤ 1 := by
          by_contra hc
          exact hnot ⟨hs, by omega⟩
        rcases hl : a₁.freePhysPages with _ | ⟨p, _ | ⟨q, l⟩⟩
        · exact List.Pairwise.nil
        · exact List.pairwise_singleton _ _
        · rw [hl] at this
          simp at this
  have hsort : Keeps c a₁ a₂ [] := by
    rw [hrest]
    exact hdrain.inv.reorder hperm fun _ => hsorted
  have habsorb := absorbBoundaryHoles_keeps hsort.inv
  refine ⟨(hdrain.trans hsort).trans habsorb, habsorb.inv, ?_, fun hurgent => ?_⟩
  · have hnodup := (List.nodup_append.mp hsort.inv.books.nodup).1
    have hlt : a₂.freePhysPages.Pairwise (· < ·) :=
      hsorted.imp₂ (fun p q hle hne => lt_of_le_of_ne hle hne) hnodup
    exact hlt.sublist (absorbBoundaryHoles_sublist c a₂)
  · have hpend : (absorbBoundaryHoles c a₂).pendingReuse = a₁.pendingReuse := by
      change a₂.pendingReuse = _
      rw [hrest]
    change (absorbBoundaryHoles c a₂).pendingReuse = []
    rw [hpend, ha₁]
    simp [drainPendingReuse, hurgent]

/-! ### The topmost survivor -/

/-- **The hole cursor** at page `p`: from the watermark inwards, at least the holes that are
not beyond `p`. -/
structure Ahead (c : Config) (holes : List ℤ) (p : ℤ) (ahead : List ℤ) : Prop where
  pairwise : ahead.Pairwise fun h h' => c.depth h' < c.depth h
  subset : ∀ h ∈ ahead, h ∈ holes
  complete : ∀ h ∈ holes, c.depth h ≤ c.depth p → h ∈ ahead

/-- In a list that descends, what is dropped is what is above. -/
theorem mem_dropWhile_above (c : Config) (p : ℤ) {l : List ℤ}
    (h : l.Pairwise fun x y => c.depth y < c.depth x) (x : ℤ) :
    x ∈ l.dropWhile (fun y => c.above p y) ↔ x ∈ l ∧ c.depth x ≤ c.depth p := by
  induction l with
  | nil => simp
  | cons y l ih =>
    obtain ⟨hhead, htail⟩ := List.pairwise_cons.mp h
    rw [List.dropWhile_cons]
    split
    · next habove =>
      rw [c.above_iff] at habove
      rw [ih htail, List.mem_cons]
      refine ⟨fun hx => ⟨Or.inr hx.1, hx.2⟩, ?_⟩
      rintro ⟨rfl | hx, hle⟩
      · omega
      · exact ⟨hx, hle⟩
    · next habove =>
      rw [c.above_iff] at habove
      refine ⟨fun hx => ⟨hx, ?_⟩, fun hx => hx.1⟩
      rcases List.mem_cons.mp hx with rfl | hx
      · omega
      · have := hhead x hx
        omega

namespace Ahead

variable {holes ahead : List ℤ} {p : ℤ}

/-- Leaving the holes beyond the page behind. -/
theorem dropWhile (h : Ahead c holes p ahead) :
    Ahead c holes p (ahead.dropWhile fun y => c.above p y) ∧
      ∀ x ∈ ahead.dropWhile (fun y => c.above p y), c.depth x ≤ c.depth p := by
  refine ⟨⟨h.pairwise.sublist (List.dropWhile_sublist _), fun x hx => ?_, fun x hx hle => ?_⟩,
    fun x hx => ((mem_dropWhile_above c p h.pairwise x).mp hx).2⟩
  · exact h.subset x ((mem_dropWhile_above c p h.pairwise x).mp hx).1
  · exact (mem_dropWhile_above c p h.pairwise x).mpr ⟨h.complete x hx hle, hle⟩

/-- The page is a hole exactly when it is the next one. -/
theorem head_iff (h : Ahead c holes p ahead) (hle : ∀ x ∈ ahead, c.depth x ≤ c.depth p) :
    ahead.head? = some p ↔ p ∈ holes := by
  constructor
  · exact fun hp => h.subset p (List.mem_of_head? hp)
  · intro hp
    have hmem := h.complete p hp le_rfl
    rcases ahead with _ | ⟨x, ahead⟩
    · cases hmem
    · rcases List.mem_cons.mp hmem with rfl | hmem
      · rfl
      · have hlt := (List.pairwise_cons.mp h.pairwise).1 p hmem
        have := hle x List.mem_cons_self
        omega

/-- Past a page that is a hole. -/
theorem tail (h : Ahead c holes p ahead) (hp : ahead.head? = some p) :
    Ahead c holes (c.toward p) ahead.tail := by
  obtain ⟨l, rfl⟩ : ∃ l, ahead = p :: l := by
    rcases ahead with _ | ⟨x, l⟩
    · cases hp
    · exact ⟨l, by rw [Option.some.inj hp]⟩
  refine ⟨(List.pairwise_cons.mp h.pairwise).2, fun x hx => h.subset x (List.mem_cons_of_mem _ hx),
    fun x hx hle => ?_⟩
  rw [c.depth_toward] at hle
  rcases List.mem_cons.mp (h.complete x hx (by omega)) with rfl | hx
  · omega
  · exact hx

/-- Further in. -/
theorem mono (h : Ahead c holes p ahead) {q : ℤ} (hq : c.depth q ≤ c.depth p) :
    Ahead c holes q ahead :=
  ⟨h.pairwise, h.subset, fun x hx hle => h.complete x hx (hle.trans hq)⟩

end Ahead

/-- What the loop of `_topmost_survivor` found, going inwards from `p`: the first page that
is neither a hole nor parked, or that there is none. -/
def Found (c : Config) (holes : List ℤ) (parked : Finset ℤ) (p : ℤ) : Option ℤ × List ℤ → Prop
  | (some q, ahead) => c.base ≤ c.depth q ∧ c.depth q ≤ c.depth p ∧ q ∉ holes ∧ q ∉ parked ∧
      Ahead c holes q ahead ∧
      ∀ x, c.depth q < c.depth x → c.depth x ≤ c.depth p → x ∈ holes ∨ x ∈ parked
  | (none, _) => ∀ x, c.base ≤ c.depth x → c.depth x ≤ c.depth p → x ∈ holes ∨ x ∈ parked

/-- One page further out, when that page is a hole or parked. -/
theorem Found.extend {holes : List ℤ} {parked : Finset ℤ} {p : ℤ} {r : Option ℤ × List ℤ}
    (h : Found c holes parked (c.toward p) r) (hp : p ∈ holes ∨ p ∈ parked) :
    Found c holes parked p r := by
  have hstep : ∀ x, c.depth x ≤ c.depth p → x = p ∨ c.depth x ≤ c.depth (c.toward p) := by
    intro x hx
    rw [c.depth_toward]
    by_cases heq : c.depth x = c.depth p
    · exact Or.inl (c.depth_injective heq)
    · exact Or.inr (by omega)
  rcases r with ⟨_ | q, ahead⟩
  · intro x hbase hle
    rcases hstep x hle with rfl | hlt
    · exact hp
    · exact h x hbase hlt
  · obtain ⟨hbase, hle, hhole, hpark, hahead, hall⟩ := h
    refine ⟨hbase, ?_, hhole, hpark, hahead, fun x hlt hxp => ?_⟩
    · rw [c.depth_toward] at hle
      omega
    · rcases hstep x hxp with rfl | hx
      · exact hp
      · exact hall x hlt hx

theorem survivorFrom_found {holes : List ℤ} (parked : Finset ℤ) {fuel : ℕ} {p : ℤ}
    {ahead : List ℤ} (h : Ahead c holes p ahead) (hfuel : fuel = c.room p) :
    Found c holes parked p (survivorFrom c parked fuel p ahead) := by
  induction fuel generalizing p ahead with
  | zero =>
    intro x hbase hle
    rw [c.room_eq] at hfuel
    omega
  | succ n ih =>
    have hroom : n = c.room (c.toward p) := by
      rw [c.room_eq] at hfuel ⊢
      rw [c.depth_toward]
      omega
    obtain ⟨hdrop, hle⟩ := h.dropWhile
    have hnext : c.depth (c.toward p) ≤ c.depth p := by
      rw [c.depth_toward]
      omega
    rw [survivorFrom]
    split
    · next hhead =>
      exact (ih (hdrop.tail hhead) hroom).extend (Or.inl ((hdrop.head_iff hle).mp hhead))
    · next hhead =>
      rw [hdrop.head_iff hle] at hhead
      split
      · next hpark => exact (ih (hdrop.mono hnext) hroom).extend (Or.inr hpark)
      · next hpark =>
        refine ⟨?_, le_rfl, hhead, hpark, hdrop, fun x hlt hxp => absurd hxp (by omega)⟩
        rw [c.room_eq] at hfuel
        omega

/-- Where `_topmost_survivor` starts. -/
def startPage (c : Config) (wm : ℤ) (hint : Option ℤ) : ℤ := match hint with
  | none => c.frontier wm
  | some h => if c.outside wm h then c.frontier wm else h

theorem topmostSurvivor_found {holes : List ℤ} {hint : Option ℤ} {ahead : List ℤ}
    (h : Ahead c holes (startPage c a.watermark hint) ahead) :
    Found c holes a.pendingReusePagesCpu (startPage c a.watermark hint)
      (topmostSurvivor c a hint ahead) :=
  survivorFrom_found _ h rfl

/-! ### The walk -/

/-- **How a walk stands**: nothing is committed, and the pages it took are the topmost live
ones, each with a hole below it. -/
structure Walked (c : Config) (a : Pool K) (w : Walk K) : Prop where
  /-- The allocator is as it was, up to the forward under way. -/
  pool : w.pool = { a with inflightForward := w.pool.inflightForward }
  released : w.releasedFired = []
  consumed : w.nDstConsumed = w.srcs.length
  /-- The holes are the first ones. -/
  dsts : w.dsts = (c.fromEnd a.freePhysPages).take w.srcs.length
  /-- The virtual pages are those of the pages. -/
  vMoveds : w.vMoveds = w.srcs.map a.p2v
  taken : TwoPointer.Taken c.depth (Live a) (c.fromEnd a.freePhysPages) w.srcs

/-- **The invariant of the walk**: it has looked at everything beyond its cursor. -/
structure Walking (c : Config) (a : Pool K) (urgent : Bool) (w : Walk K) : Prop
    extends Walked c a w where
  ahead : Ahead c a.freePhysPages (startPage c a.watermark w.cursor) w.ahead
  /-- The cursor is in the band or past its end. -/
  start_lt : c.depth (startPage c a.watermark w.cursor) < c.level a.watermark
  /-- Beyond the cursor are holes, parked pages and what was taken. -/
  beyond : ∀ x, c.depth (startPage c a.watermark w.cursor) < c.depth x →
    c.depth x < c.level a.watermark →
      x ∈ a.freePhysPages ∨ x ∈ a.pendingReusePagesCpu ∨ x ∈ w.srcs
  /-- What was taken is beyond the cursor. -/
  below : ∀ s ∈ w.srcs, c.depth (startPage c a.watermark w.cursor) < c.depth s
  /-- An urgent walk has no race to fear. -/
  race : urgent = true → a.freePhysPages ≠ [] → w.writeSet = some ∅

/-- **The walk is over**: what is left is below the holes that are left. -/
def Ended (c : Config) (a : Pool K) (w : Walk K) : Prop :=
  ∀ b ∈ (c.fromEnd a.freePhysPages).drop w.srcs.length, ∀ p, Live a p → p ∉ w.srcs →
    c.depth p < c.depth b

section Walk

variable {urgent : Bool} {w : Walk K}

/-- A page that is neither a hole nor parked is live. -/
theorem Books.live_of_notMem (h : Books c a) {p : ℤ} (hband : c.InBand a.watermark p)
    (hfree : p ∉ a.freePhysPages) (hparked : p ∉ a.pendingReusePagesCpu) : Live a p := by
  refine ((h.band p).mp hband).resolve_right fun hp => ?_
  rcases List.mem_append.mp hp with hp | hp
  · exact hfree hp
  · exact hparked ((h.parked p).mpr hp)

theorem Books.notMem_of_live (h : Books c a) {p : ℤ} (hp : Live a p) :
    ¬(p ∈ a.freePhysPages ∨ p ∈ a.pendingReusePagesCpu) := by
  rw [h.parked, ← List.mem_append]
  exact h.live p hp

/-- What is live, not taken and not looked at is no further out than the cursor. -/
theorem Walking.depth_le (h : Walking c a urgent w) (hb : Books c a) {q : ℤ} (hq : Live a q)
    (hnot : q ∉ w.srcs) : c.depth q ≤ c.depth (startPage c a.watermark w.cursor) := by
  by_contra hc
  have hband := hb.inBand hq
  rw [c.inBand_iff] at hband
  rcases h.beyond q (by omega) hband.2 with hx | hx | hx
  · exact hb.notMem_of_live hq (Or.inl hx)
  · exact hb.notMem_of_live hq (Or.inr hx)
  · exact hnot hx

/-- **The page that was found** is live, not yet taken, and above everything else that is
live and not taken. -/
theorem Walking.found (h : Walking c a urgent w) (hb : Books c a) {src : ℤ} {ahead : List ℤ}
    (hf : Found c a.freePhysPages a.pendingReusePagesCpu (startPage c a.watermark w.cursor)
      (some src, ahead)) :
    Live a src ∧ src ∉ a.freePhysPages ∧ (∀ s ∈ w.srcs, c.depth src < c.depth s) ∧
      ∀ q, Live a q → q ∉ w.srcs → q ≠ src → c.depth q < c.depth src := by
  obtain ⟨hbase, hle, hhole, hpark, -, hall⟩ := hf
  have hlt := h.start_lt
  have hband : c.InBand a.watermark src := by
    rw [c.inBand_iff]
    omega
  refine ⟨hb.live_of_notMem hband hhole hpark, hhole, fun s hs => ?_, fun q hq hnot hne => ?_⟩
  · have := h.below s hs
    omega
  · have hqle := h.depth_le hb hq hnot
    have hdne : c.depth q ≠ c.depth src := fun hc => hne (c.depth_injective hc)
    by_contra hc
    exact hb.notMem_of_live hq (hall q (by omega) hqle)

/-- Nothing was found: everything that is live was taken. -/
theorem Walking.ended_of_none (h : Walking c a urgent w) (hb : Books c a) {ahead : List ℤ}
    (hf : Found c a.freePhysPages a.pendingReusePagesCpu (startPage c a.watermark w.cursor)
      (none, ahead)) : Ended c a w := by
  intro b _ p hp hnot
  have hband := hb.inBand hp
  rw [c.inBand_iff] at hband
  exact absurd (hf p hband.1 (h.depth_le hb hp hnot)) (hb.notMem_of_live hp)

/-- The pointers crossed: what is left is below the next hole, and that below the others. -/
theorem ended_of_cross
    (hholes : (c.fromEnd a.freePhysPages).Pairwise fun p q => c.depth p < c.depth q)
    {src : ℤ} (htop : ∀ q, Live a q → q ∉ w.srcs → q ≠ src → c.depth q < c.depth src)
    (hlt : w.srcs.length < (c.fromEnd a.freePhysPages).length)
    (hcross : c.depth src < c.depth ((c.fromEnd a.freePhysPages).get ⟨w.srcs.length, hlt⟩)) :
    Ended c a w := by
  intro b hb p hp hnot
  have hle : c.depth p ≤ c.depth src := by
    by_cases heq : p = src
    · rw [heq]
    · exact (htop p hp hnot heq).le
  have hfirst : c.depth ((c.fromEnd a.freePhysPages).get ⟨w.srcs.length, hlt⟩) ≤ c.depth b := by
    rw [List.drop_eq_getElem_cons hlt, List.mem_cons] at hb
    rcases hb with rfl | hb
    · exact le_rfl
    · obtain ⟨i, hi, rfl⟩ := List.mem_iff_getElem.mp hb
      rw [List.getElem_drop]
      exact (List.pairwise_iff_getElem.mp hholes _ _ hlt _ (by omega)).le
  omega

/-- **A page is taken** for the next hole, which is below it. -/
theorem taken_push {holes : List ℤ} (hholes : holes.Pairwise fun p q => c.depth p < c.depth q)
    {srcs : List ℤ} (h : TwoPointer.Taken c.depth (Live a) holes srcs) {src : ℤ}
    (hlive : Live a src)
    (hbelow : ∀ s ∈ srcs, c.depth src < c.depth s)
    (htop : ∀ q, Live a q → q ∉ srcs → q ≠ src → c.depth q < c.depth src)
    (hlt : srcs.length < holes.length)
    (hdst : c.depth (holes.get ⟨srcs.length, hlt⟩) < c.depth src) :
    TwoPointer.Taken c.depth (Live a) holes (srcs ++ [src]) := by
  have hlen : (srcs ++ [src]).length = srcs.length + 1 := by simp
  refine ⟨by omega, ?_, fun s hs => ?_, fun p hp hnot s hs => ?_, fun x hx s hs => ?_⟩
  · refine List.pairwise_append.mpr ⟨h.pairwise, List.pairwise_singleton _ _, fun s hs t ht => ?_⟩
    rw [List.mem_singleton.mp ht]
    exact hbelow s hs
  · rcases List.mem_append.mp hs with hs | hs
    · exact h.occupied s hs
    · rwa [List.mem_singleton.mp hs]
  · simp only [List.mem_append, List.mem_singleton, not_or] at hnot
    rcases List.mem_append.mp hs with hs | hs
    · exact h.topmost p hp hnot.1 s hs
    · rw [List.mem_singleton.mp hs]
      exact htop p hp hnot.1 hnot.2
  · -- every hole so far is at most the new one, every page at least the new one
    have hx' : c.depth x ≤ c.depth (holes.get ⟨srcs.length, hlt⟩) := by
      rw [hlen, List.take_succ_eq_append_getElem hlt] at hx
      rcases List.mem_append.mp hx with hx | hx
      · obtain ⟨i, hi, rfl⟩ := List.mem_iff_getElem.mp hx
        rw [List.getElem_take]
        rw [List.length_take] at hi
        exact (List.pairwise_iff_getElem.mp hholes _ _ (by omega) hlt (by omega)).le
      · rw [List.mem_singleton.mp hx]
        exact le_rfl
    rcases List.mem_append.mp hs with hs | hs
    · have := hbelow s hs
      omega
    · rw [List.mem_singleton.mp hs]
      omega

/-- Asking for the write set changes nothing else. -/
theorem withWriteSet_eq (c : Config) (ans : Answers) (w : Walk K) :
    ∃ inflight ws, withWriteSet c ans w =
        { w with pool := { w.pool with inflightForward := inflight }, writeSet := some ws } ∧
      (w.writeSet = some ∅ → ws = ∅) := by
  rcases hw : w.writeSet with _ | ws
  · have hpool : (materializeInflightWriteSet c w.pool ans.inflight).1 = { w.pool with
        inflightForward :=
          (materializeInflightWriteSet c w.pool ans.inflight).1.inflightForward } := by
      rw [materializeInflightWriteSet]
      split
      · rfl
      · split <;> rfl
    refine ⟨(materializeInflightWriteSet c w.pool ans.inflight).1.inflightForward,
      (materializeInflightWriteSet c w.pool ans.inflight).2.getD ∅, ?_, by simp⟩
    rw [← hpool, withWriteSet, hw]
  · refine ⟨w.pool.inflightForward, ws, ?_, fun h => Option.some.inj h⟩
    rw [withWriteSet, hw]
    simp only [← hw]

/-- **One move** of the walk. -/
theorem Walking.push (h : Walking c a urgent w) (hp : Prepared c a urgent) {src : ℤ}
    {ahead : List ℤ}
    (hf : Found c a.freePhysPages a.pendingReusePagesCpu (startPage c a.watermark w.cursor)
      (some src, ahead))
    (hlt : w.srcs.length < (c.fromEnd a.freePhysPages).length)
    (hcross : ¬c.depth src < c.depth ((c.fromEnd a.freePhysPages).get ⟨w.srcs.length, hlt⟩))
    (inflight : Option (Event × List ℤ)) {ws : Finset ℤ} (hws : urgent = true → ws = ∅) :
    Walking c a urgent { w with
      pool := { w.pool with inflightForward := inflight }
      writeSet := some ws
      ahead := ahead
      nDstConsumed := w.nDstConsumed + 1
      srcs := w.srcs ++ [src]
      dsts := w.dsts ++ [(c.fromEnd a.freePhysPages).get ⟨w.srcs.length, hlt⟩]
      vMoveds := w.vMoveds ++ [w.pool.p2v src]
      cursor := some (c.toward src) } := by
  obtain ⟨hlive, hhole, hbelow, htop⟩ := h.found hp.inv.books hf
  obtain ⟨-, hle, -, -, hahead, hall⟩ := hf
  have hp2v : w.pool.p2v = a.p2v := by rw [h.pool]
  have hdepth : c.depth ((c.fromEnd a.freePhysPages).get ⟨w.srcs.length, hlt⟩) < c.depth src := by
    refine lt_of_le_of_ne (not_lt.mp hcross) fun hc => hhole (c.depth_injective hc ▸ ?_)
    exact (c.perm_fromEnd _).mem_iff.mp (List.get_mem _ _)
  -- the cursor moves past the page
  have hstartLt := h.start_lt
  have hdown := c.depth_toward src
  have hstart : startPage c a.watermark (some (c.toward src)) = c.toward src := by
    rw [startPage, if_neg]
    rw [c.outside_iff, hdown]
    omega
  refine ⟨⟨by rw [h.pool], h.released, by simp [h.consumed], ?_, by simp [h.vMoveds, hp2v],
    taken_push (c.pairwise_fromEnd hp.holes) h.taken hlive hbelow htop hlt hdepth⟩,
    ?_, ?_, fun x hx hxlt => ?_, fun s hs => ?_, fun hu _ => by rw [hws hu]⟩
  · rw [h.dsts, List.length_append, List.length_singleton, List.take_succ_eq_append_getElem hlt]
    rfl
  · rw [hstart]
    exact hahead.mono (by omega)
  · rw [hstart]
    omega
  · rw [hstart, hdown] at hx
    simp only [List.mem_append, List.mem_singleton]
    by_cases hxs : x = src
    · exact Or.inr (Or.inr (Or.inr hxs))
    · have hne : c.depth x ≠ c.depth src := fun hc => hxs (c.depth_injective hc)
      by_cases hxp : c.depth x ≤ c.depth (startPage c a.watermark w.cursor)
      · exact (hall x (by omega) hxp).imp id Or.inl
      · exact (h.beyond x (by omega) hxlt).imp id (Or.imp id Or.inl)
  · rw [hstart, hdown]
    rcases List.mem_append.mp hs with hs | hs
    · have := hbelow s hs
      omega
    · rw [List.mem_singleton.mp hs]
      omega

/-- **The walk** ends, and an urgent one only when it is over. -/
theorem walk_ok (hp : Prepared c a urgent) (ans : Answers) (fuel : ℕ) (w : Walk K)
    (h : Walking c a urgent w) (hfuel : a.freePhysPages.length + 1 ≤ fuel + w.srcs.length) :
    ∃ w', walk c urgent ans a.freePhysPages fuel w = .ok w' ∧ Walked c a w' ∧
      (urgent = true → Ended c a w') ∧ w'.latestEvent = w.latestEvent := by
  have hb := hp.inv.books
  have hlenEnd := (c.perm_fromEnd a.freePhysPages).length_eq
  induction fuel generalizing w with
  | zero =>
    have := h.taken.length_le
    omega
  | succ fuel ih =>
    rw [walk]
    split
    · next hdone =>
      refine ⟨w, rfl, h.toWalked, fun _ b hbmem => ?_, rfl⟩
      rw [h.consumed] at hdone
      rw [List.drop_eq_nil_of_le (by omega)] at hbmem
      cases hbmem
    next hmore =>
    rw [not_not, h.consumed] at hmore
    have hne : a.freePhysPages ≠ [] := List.ne_nil_of_length_pos (by omega)
    have hlt : w.srcs.length < (c.fromEnd a.freePhysPages).length := by omega
    have hfound : Found c a.freePhysPages a.pendingReusePagesCpu
        (startPage c a.watermark w.cursor) (topmostSurvivor c w.pool w.cursor w.ahead) := by
      rw [h.pool]
      exact topmostSurvivor_found h.ahead
    rcases hr : topmostSurvivor c w.pool w.cursor w.ahead with ⟨_ | src, ahead⟩
    · rw [hr] at hfound
      exact ⟨_, rfl, ⟨h.pool, h.released, h.consumed, h.dsts, h.vMoveds, h.taken⟩,
        fun _ => h.ended_of_none hb hfound, rfl⟩
    rw [hr] at hfound
    obtain ⟨hlive, -, -, htop⟩ := h.found hb hfound
    obtain ⟨inflight, ws, heq, hws⟩ := withWriteSet_eq c ans { w with ahead := ahead }
    have hpool : { w.pool with inflightForward := inflight } =
        { a with inflightForward := inflight } := by rw [h.pool]
    have hdst : (c.fromEnd a.freePhysPages).getD w.nDstConsumed 0 =
        (c.fromEnd a.freePhysPages).get ⟨w.srcs.length, hlt⟩ := by
      rw [h.consumed, List.getD_eq_getElem _ _ hlt]
      rfl
    simp only [heq, Option.getD_some, hdst]
    split
    · next hrace =>
      -- a race stops a walk that is not urgent, and an urgent one has none
      split
      · next hu =>
        rw [hws (h.race hu hne)] at hrace
        cases hrace
      · next hu =>
        exact ⟨_, rfl, ⟨hpool, h.released, h.consumed, h.dsts, h.vMoveds, h.taken⟩,
          fun hc => absurd hc hu, rfl⟩
    split
    · next hcross =>
      exact ⟨_, rfl, ⟨hpool, h.released, h.consumed, h.dsts, h.vMoveds, h.taken⟩,
        fun _ => ended_of_cross (c.pairwise_fromEnd hp.holes) htop hlt (c.above_iff.mp hcross), rfl⟩
    next hcross =>
    rw [c.above_iff] at hcross
    have hpush := h.push hp hfound hlt hcross inflight fun hu => hws (h.race hu hne)
    have hmapped : ¬w.pool.p2v src < 0 := by
      rw [h.pool]
      exact not_lt.mpr hlive.2
    rw [if_neg hmapped]
    split
    · next hcap => exact ⟨_, rfl, hpush.toWalked, fun hu => absurd hu hcap.1, rfl⟩
    · refine ih _ hpush ?_
      simp only [List.length_append, List.length_singleton]
      omega

/-- The walk at its start. -/
theorem startWalk_walking (hp : Prepared c a urgent) :
    Walking c a urgent (startWalk c a (urgent && decide (0 < a.freePhysPages.length))) := by
  have hdepth := c.depth_frontier a.watermark
  have hperm := c.perm_fromWatermark a.freePhysPages
  refine ⟨⟨?_, rfl, rfl, rfl, rfl, ⟨Nat.zero_le _, List.Pairwise.nil, by simp [startWalk],
      by simp [startWalk], by simp [startWalk]⟩⟩,
    ⟨c.pairwise_fromWatermark hp.holes, fun x hx => hperm.mem_iff.mp hx,
      fun x hx _ => hperm.mem_iff.mpr hx⟩,
    ?_, fun x hx hlt => ?_, by simp [startWalk], fun hu hne => ?_⟩
  · simp only [startWalk]
    split
    · rw [settleInflightForward]
      split <;> rfl
    · rfl
  · change c.depth (c.frontier a.watermark) < _
    omega
  · change c.depth (c.frontier a.watermark) < _ at hx
    omega
  · have hpos := List.length_pos_of_ne_nil hne
    simp [startWalk, hu, hpos]

/-- **The flush up to its last commit** never fails. -/
theorem walkFlush_ok (h : Inv c a) (urgent : Bool) (ans : Answers) :
    ∃ w, walkFlush c a urgent ans = .ok (prepareFlush c a urgent ans, w) ∧
      Walked c (prepareFlush c a urgent ans) w ∧
      (urgent = true → Ended c (prepareFlush c a urgent ans) w) ∧
      (urgent = true → w.srcs ≠ [] → w.latestEvent = none) ∧
      (urgent = false →
        w.latestEvent = (prepareFlush c a urgent ans).latestForwardDoneEvent) := by
  have hp := (prepareFlush_keeps h urgent ans).2
  set a' := prepareFlush c a urgent ans with ha'
  obtain ⟨w, hok, hwalked, hend, hlatest⟩ := walk_ok hp ans (2 * a'.freePhysPages.length + 2) _
    (startWalk_walking hp) (by omega)
  refine ⟨w, ?_, hwalked, hend, fun hu hne => ?_, fun hu => ?_⟩
  · rw [walkFlush, ← ha', hok]
    rfl
  · have hpos := List.length_pos_of_ne_nil hne
    have hle := hwalked.taken.length_le
    rw [(c.perm_fromEnd _).length_eq] at hle
    have hholes : 0 < a'.freePhysPages.length := by omega
    rw [hlatest, startWalk, hu]
    simp [hholes]
  · rw [hlatest, startWalk, hu]
    rfl

/-- A flush that is not urgent moves a page first that the forward under way does not write:
the topmost live one, into a hole below it. -/
theorem walkFlush_first (h : Inv c a) {ans : Answers}
    (hok : walkFlush c a false ans = .ok (prepareFlush c a false ans, w)) (hne : w.srcs ≠ []) :
    ∃ src dst, Live (prepareFlush c a false ans) src ∧
      (∀ q, Live (prepareFlush c a false ans) q → q ≠ src → c.depth q < c.depth src) ∧
      src ∉ (materializeInflightWriteSet c (prepareFlush c a false ans) ans.inflight).2.getD ∅ ∧
      dst ∈ (prepareFlush c a false ans).freePhysPages ∧ c.depth dst < c.depth src := by
  have hp := (prepareFlush_keeps h false ans).2
  set a' := prepareFlush c a false ans
  have hw : walk c false ans a'.freePhysPages (2 * a'.freePhysPages.length + 2)
      (startWalk c a' false) = .ok w := by
    obtain ⟨w', hw', heq⟩ := bind_eq_ok.mp hok
    exact hw'.trans (congrArg Except.ok (Prod.mk.inj (Except.ok.inj heq)).2)
  have hstart : Walking c a' false (startWalk c a' false) := startWalk_walking hp
  rw [walk] at hw
  split at hw
  · exact absurd (Except.ok.inj hw ▸ rfl) hne
  next hpos =>
  have hfound := topmostSurvivor_found (a := a') hstart.ahead
  change Found _ _ _ _ (topmostSurvivor c (startWalk c a' false).pool _ _) at hfound
  rcases hr : topmostSurvivor c (startWalk c a' false).pool (startWalk c a' false).cursor
      (startWalk c a' false).ahead with ⟨_ | src, ahead⟩
  · rw [hr] at hw
    exact absurd (Except.ok.inj hw ▸ rfl) hne
  rw [hr] at hw hfound
  obtain ⟨hlive, hhole, -, htop⟩ := hstart.found hp.inv.books hfound
  have hlt : 0 < (c.fromEnd a'.freePhysPages).length :=
    (c.perm_fromEnd _).length_eq.symm ▸ not_not.mp hpos
  have hmem : (c.fromEnd a'.freePhysPages).getD 0 0 ∈ a'.freePhysPages := by
    rw [List.getD_eq_getElem _ _ hlt]
    exact (c.perm_fromEnd _).mem_iff.mp (List.getElem_mem _)
  simp only [Bool.false_eq_true, if_false] at hw
  split at hw
  · exact absurd (Except.ok.inj hw ▸ rfl) hne
  next hws =>
  split at hw
  · exact absurd (Except.ok.inj hw ▸ rfl) hne
  next hcross =>
  rw [c.above_iff] at hcross
  refine ⟨src, _, hlive, fun q hq hqs => htop q hq List.not_mem_nil hqs, hws, hmem,
    lt_of_le_of_ne (not_lt.mp hcross) fun hc => hhole (c.depth_injective hc ▸ hmem)⟩

end Walk

end MultiEnded

end HtSglang
