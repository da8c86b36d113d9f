import HtSglang.Library.Pages
import HtSglang.MemCache.RadixHistory

/-!
# The pages of the radix tree

The slots in the tree are whole pages of a pool (`HtSglang.Radix.Stocked`), and the tree has a
multiset of pages (`HtSglang.Radix.treePages`). A split divides the pages of a node between the two
halves and leaves the multiset alone, a new leaf brings its own, and an eviction takes away the
pages whose slots it frees.

A way down the tree goes at least as far as any node that is known to be there
(`HtSglang.Radix.Landed.covers`); so a request that holds a lock finds what it locked.
-/

namespace HtSglang

namespace Radix

variable {cfg : Config} {c c' : Cache} {l l' : Layout} {locks : List NodeId}

/-- The pages of the nodes of the tree. -/
def treePages (cfg : Config) (c : Cache) (l : Layout) : Multiset ℤ :=
  ∑ n ∈ l.alive.erase rootNode, (pagesOf cfg.pageSize (c.nodes n).value : Multiset ℤ)

/-- **The slots in the tree are whole pages**, one slot for each unit. -/
structure Stocked (cfg : Config) (c : Cache) (l : Layout) : Prop where
  filled : Filled c l
  paged : ∀ n ∈ l.alive, n ≠ rootNode → ∃ pages, Paged cfg.pageSize (c.nodes n).value pages

/-- Slots that are cut between two pages. -/
theorem pagesOf_cut (cfg : Config) {slots pages : List ℤ} (h : Paged cfg.pageSize slots pages)
    {k : ℕ}
    (hk : cfg.pageSize ∣ k) (hle : k ≤ slots.length) :
    (∃ P, Paged cfg.pageSize (slots.take k) P) ∧ (∃ P, Paged cfg.pageSize (slots.drop k) P) ∧
      pagesOf cfg.pageSize (slots.take k) ++ pagesOf cfg.pageSize (slots.drop k)
        = pagesOf cfg.pageSize slots := by
  obtain ⟨j, rfl⟩ := hk
  rw [Nat.mul_comm] at hle ⊢
  have ht := h.take cfg.pos hle
  have hd := h.drop cfg.pos hle
  refine ⟨⟨_, ht⟩, ⟨_, hd⟩, ?_⟩
  rw [ht.pagesOf_eq cfg.pos, hd.pagesOf_eq cfg.pos, h.pagesOf_eq cfg.pos, List.take_append_drop]

/-! ### Splits and new leaves -/

theorem Stocked.split (hs : Stocked cfg c l) (h : Shape cfg c l) {x p : NodeId} {k : ℕ}
    (hx : Shape.Splits cfg c l x p k) :
    Stocked cfg (Shape.splitCache cfg c x p k) (l.split c x p k) ∧
      treePages cfg (Shape.splitCache cfg c x p k) (l.split c x p k) = treePages cfg c l := by
  obtain ⟨pages, hpages⟩ := hs.paged x hx.mem hx.ne_root
  have hle : k ≤ (c.nodes x).value.length := by
    rw [hs.filled x hx.mem hx.ne_root]
    exact hx.lt.le
  obtain ⟨htake, hdrop, hcut⟩ := pagesOf_cut cfg hpages hx.dvd hle
  have hw := h.counter_notMem
  have hwr : c.counter ≠ rootNode := fun hc => hw (hc ▸ h.tree.root_mem)
  refine ⟨⟨hs.filled.split h hx, ?_⟩, ?_⟩
  · intro n hn' hnr
    rcases Finset.mem_insert.mp hn' with rfl | hn
    · rw [Shape.Splits.nodes_new h hx]
      exact htake
    · by_cases hnx : n = x
      · subst hnx
        rw [Shape.Splits.nodes_child h hx]
        exact hdrop
      · rw [(Shape.Splits.nodes_old h hx hn hnx).2.2.1]
        exact hs.paged n hn hnr
  · have herase : (l.split c x p k).alive.erase rootNode
        = Insert.insert c.counter (l.alive.erase rootNode) := Finset.erase_insert_of_ne hwr
    rw [treePages, herase]
    refine sum_split (Finset.mem_erase.mpr ⟨hx.ne_root, hx.mem⟩)
      (fun hc => hw (Finset.mem_of_mem_erase hc)) ?_ ?_
    · intro n hn hnx
      rw [(Shape.Splits.nodes_old h hx (Finset.mem_of_mem_erase hn) hnx).2.2.1]
    · rw [Shape.Splits.nodes_new h hx, Shape.Splits.nodes_child h hx, Multiset.coe_add, hcut]

theorem Stocked.splitOnce (hs : Stocked cfg c l) (h : Shape cfg c l)
    (ho : SplitOnce cfg c l c' l') :
    Stocked cfg c' l' ∧ treePages cfg c' l' = treePages cfg c l := by
  rcases ho with ⟨rfl, rfl⟩ | ⟨x, p, k, hx, rfl, rfl⟩
  · exact ⟨hs, rfl⟩
  · exact hs.split h hx

/-- **A new leaf brings its pages.** -/
theorem Stocked.attached (hs : Stocked cfg c l) (h : Shape cfg c l) {n m : NodeId}
    {key : RadixKey} {v pages : List ℤ} (hn : n ∈ l.alive) (hv : Paged cfg.pageSize v pages)
    (hlen : v.length = key.len) (ha : Attached cfg c l n key v c' l' m) :
    Stocked cfg c' l' ∧ treePages cfg c' l' = treePages cfg c l + (pages : Multiset ℤ) := by
  have hf := hs.filled.attached h hn (fun _ => hlen) ha
  cases ha with
  | there hz =>
    refine ⟨hs, ?_⟩
    have := hv.length_eq
    rw [hlen, hz, pageCount_zero cfg.pos, List.length_eq_zero_iff] at this
    rw [this, Multiset.coe_nil, add_zero]
  | leaf hpos =>
    have hw := h.counter_notMem
    have hne : ∀ k ∈ l.alive, k ≠ c.counter := fun k hk hc => hw (hc ▸ hk)
    have hwr : c.counter ≠ rootNode := fun hc => hw (hc ▸ h.tree.root_mem)
    refine ⟨⟨hf, ?_⟩, ?_⟩
    · intro k hk' hkr
      rcases Finset.mem_insert.mp hk' with rfl | hk
      · rw [addLeaf_new (hne n hn)]
        exact ⟨pages, hv⟩
      · rw [(addLeaf_old (hne k hk)).2.2.1]
        exact hs.paged k hk hkr
    · have herase : (l.addLeaf c n key v).alive.erase rootNode
          = Insert.insert c.counter (l.alive.erase rootNode) := Finset.erase_insert_of_ne hwr
      rw [treePages, herase, Finset.sum_insert fun hc => hw (Finset.mem_of_mem_erase hc),
        addLeaf_new (hne n hn), hv.pagesOf_eq cfg.pos, add_comm]
      congr 1
      refine Finset.sum_congr rfl fun k hk => ?_
      rw [(addLeaf_old (hne k (Finset.mem_of_mem_erase hk))).2.2.1]

/-! ### Locks and evictions -/

theorem Stocked.relocked (hs : Stocked cfg c l) {d : NodeId → ℤ} (hr : Relocked c c' d) :
    Stocked cfg c' l ∧ treePages cfg c' l = treePages cfg c l := by
  refine ⟨⟨hs.filled.relocked hr, fun n hn hnr => ?_⟩, ?_⟩
  · rw [hr.value]
    exact hs.paged n hn hnr
  · exact Finset.sum_congr rfl fun n _ => by rw [hr.value]

/-- **An eviction takes away what it frees.** -/
theorem Stocked.evicting (hs : Stocked cfg c l) {e : Eviction} (he : Evicting cfg c l locks e) :
    Stocked cfg e.cache { l with alive := l.alive \ e.removed.toFinset } ∧
      treePages cfg e.cache { l with alive := l.alive \ e.removed.toFinset } +
        (e.freed.map fun v => (pagesOf cfg.pageSize v : Multiset ℤ)).sum = treePages cfg c l := by
  have hsame : ∀ n, (e.cache.nodes n).value = (c.nodes n).value := fun n => (he.same n).2.2.1
  refine ⟨⟨hs.filled.evicting he, fun n hn hnr => ?_⟩, ?_⟩
  · rw [hsame]
    exact hs.paged n (Finset.mem_sdiff.mp hn).1 hnr
  · have hsub : e.removed.toFinset ⊆ l.alive.erase rootNode := by
      intro n hn
      have := he.removed_mem n (List.mem_toFinset.mp hn)
      exact Finset.mem_erase.mpr ⟨this.2.1, this.1⟩
    have hleft : (l.alive \ e.removed.toFinset).erase rootNode
        = l.alive.erase rootNode \ e.removed.toFinset := (Finset.erase_sdiff_comm _ _ _).symm
    rw [treePages, treePages, hleft, ← Finset.sum_sdiff hsub, he.freed, List.map_map]
    congr 1
    · exact Finset.sum_congr rfl fun n _ => by rw [hsame]
    · rw [List.sum_toFinset _ he.removed_nodup]
      rfl

/-! ### What is known to be there is found -/

/-- The tree grows: nodes stay where they are. -/
structure Grows (c : Cache) (l : Layout) (c' : Cache) (l' : Layout) : Prop where
  mem : ∀ n ∈ l.alive, n ∈ l'.alive
  path : ∀ n ∈ l.alive, l'.path n = l.path n
  extraKey : ∀ n ∈ l.alive, (c'.nodes n).key.extraKey = (c.nodes n).key.extraKey

theorem Grows.trans {c'' : Cache} {l'' : Layout} (h : Grows c l c' l') (h' : Grows c' l' c'' l'') :
    Grows c l c'' l'' :=
  ⟨fun n hn => h'.mem n (h.mem n hn), fun n hn => (h'.path n (h.mem n hn)).trans (h.path n hn),
    fun n hn => (h'.extraKey n (h.mem n hn)).trans (h.extraKey n hn)⟩

theorem SplitOnce.grown (hs : SplitOnce cfg c l c' l') (h : Shape cfg c l) : Grows c l c' l' := by
  rcases hs with ⟨rfl, rfl⟩ | ⟨x, p, k, hs, rfl, rfl⟩
  · exact ⟨fun _ hn => hn, fun _ _ => rfl, fun _ _ => rfl⟩
  · exact ⟨fun _ hn => Finset.mem_insert_of_mem hn, fun _ hn => Shape.Splits.path_old h hn,
      fun _ hn => Shape.Splits.extraKey_old h hs hn⟩

/-- A split leaves what a node counts and the slots down to it alone, and the books. -/
theorem SplitOnce.same (hs : SplitOnce cfg c l c' l') (h : Shape cfg c l) :
    c'.evictableSize = c.evictableSize ∧ ∀ n ∈ l.alive,
      (c'.nodes n).lockRef = (c.nodes n).lockRef ∧ l'.slots n = l.slots n := by
  rcases hs with ⟨rfl, rfl⟩ | ⟨x, p, k, hs, rfl, rfl⟩
  · exact ⟨rfl, fun _ _ => ⟨rfl, rfl⟩⟩
  · refine ⟨rfl, fun n hn => ⟨?_, ?_⟩⟩
    · by_cases hx : n = x
      · subst hx
        rw [Shape.Splits.nodes_child h hs]
      · exact (Shape.Splits.nodes_old h hs hn hx).2.2.2
    · have hne : n ≠ c.counter := fun hc => h.counter_notMem (hc ▸ hn)
      exact Function.update_of_ne hne _ _

theorem Attached.grown {n m : NodeId} {key : RadixKey} {v : List ℤ} (h : Shape cfg c l)
    (ha : Attached cfg c l n key v c' l' m) : Grows c l c' l' := by
  cases ha with
  | there _ => exact ⟨fun _ hn => hn, fun _ _ => rfl, fun _ _ => rfl⟩
  | leaf _ =>
    have hne : ∀ k ∈ l.alive, k ≠ c.counter := fun k hk hc => h.counter_notMem (hc ▸ hk)
    refine ⟨fun _ hk => Finset.mem_insert_of_mem hk,
      fun k hk => Function.update_of_ne (hne k hk) _ _, fun k hk => ?_⟩
    rw [(addLeaf_old (hne k hk)).2.1]

theorem Relocked.grown {d : NodeId → ℤ} (hr : Relocked c c' d) : Grows c l c' l :=
  ⟨fun _ hn => hn, fun _ _ => rfl, fun n _ => by rw [hr.key]⟩

/-- Where an insert ends, the whole key is in the tree. -/
theorem Attached.end_eq {n n' m : NodeId} {key key' : RadixKey} {v : List ℤ} {c₀ : Cache}
    {l₀ : Layout} (ha : Attached cfg c l n' key' v c' l' m)
    (hl : Landed cfg c₀ l₀ n key c l n' key') (h : Shape cfg c l) :
    l'.path m = l₀.path n ++ key.units ∧
      (m ≠ rootNode → (c'.nodes m).key.extraKey = key.extraKey) := by
  cases ha with
  | there hz =>
    refine ⟨?_, hl.extraKey_node⟩
    have hnil : key'.units = [] := by
      rw [← List.length_eq_zero_iff, RadixKey.length_units, hz]
    rw [← hl.path, hnil, List.append_nil]
  | leaf hpos =>
    have hne : n' ≠ c.counter := fun hc => h.counter_notMem (hc ▸ hl.mem)
    refine ⟨?_, fun _ => ?_⟩
    · rw [← hl.path]
      exact Function.update_self _ _ _
    · rw [addLeaf_new hne]
      exact hl.extraKey

/-- **A way down goes as far as what is known to be there.** -/
theorem Landed.covers {key key' : RadixKey} {n n' : NodeId} {u : List LogicalUnit}
    (hl : Landed cfg c l rootNode key c' l' n' key') (h : Shape cfg c l) (h' : Shape cfg c' l')
    (hn : n ∈ l.alive) (he : n ≠ rootNode → (c.nodes n).key.extraKey = key.extraKey)
    (hu : u <+: l.path n) (huk : u <+: key.units) (hdvd : cfg.pageSize ∣ u.length) :
    u.length ≤ (l'.path n').length := by
  rcases Nat.eq_zero_or_pos u.length with hz | hpos
  · rw [hz]
    exact Nat.zero_le _
  have hg := hl.once.grown h
  have hnr : n ≠ rootNode := by
    rintro rfl
    have := hu.length_le
    rw [h.root_path, List.length_nil] at this
    omega
  refine (hl.holds_iff h h' ⟨hpos, hdvd⟩ huk).mp ⟨_, n, hg.mem n hn, hnr, ?_, ?_, rfl⟩
  · rw [hg.extraKey n hn, he hnr]
  · rw [hg.path n hn]
    exact hu

/-- Where a way down ends is on the way of the key. -/
theorem Landed.path_isPrefix {key key' : RadixKey} {n' : NodeId}
    (hl : Landed cfg c l rootNode key c' l' n' key') (h : Shape cfg c l) :
    l'.path n' <+: key.units := by
  have := hl.path
  rw [h.root_path, List.nil_append] at this
  exact this ▸ List.prefix_append _ _

/-- The order in which locks were taken does not matter. -/
theorem Inv.perm {locks' : List NodeId} (h : Inv cfg c l locks) (hp : locks.Perm locks') :
    Inv cfg c l locks' := by
  refine ⟨h.shape, h.books, ⟨fun n hn => h.locks.mem n (hp.mem_iff.mpr hn), ?_⟩, h.slots⟩
  intro n hn hnr
  rw [h.locks.count n hn hnr, hp.countP_eq]

/-- A lock on the root counts nowhere. -/
theorem Inv.drop_root (h : Inv cfg c l (rootNode :: locks)) : Inv cfg c l locks := by
  refine ⟨h.shape, h.books, ⟨fun n hn => h.locks.mem n (List.mem_cons_of_mem _ hn), ?_⟩, h.slots⟩
  intro n hn hnr
  rw [h.locks.count n hn hnr, List.countP_cons, h.shape.tree.above_root,
    if_neg (by simpa using hnr), Nat.add_zero]

/-- Caches that differ in nothing but the order of their books have the same to evict. -/
theorem Relocked.evictableSize_eq {d : NodeId → ℤ} (hr : Relocked c c' d) (hd : ∀ n, d n = 0)
    (hb : Books c l) (hb' : Books c' l) : c'.evictableSize = c.evictableSize := by
  rw [hb.evictable, hb'.evictable]
  refine Finset.sum_congr rfl fun n _ => ?_
  rw [TreeNode.evictable, TreeNode.evictable, hr.key, hr.lockRef, hd, add_zero]

/-- Locking a node and undoing it changes no count. -/
theorem walkChange_undo (l : Layout) (n m : NodeId) :
    walkChange l n 1 m + walkChange l n (-1) m = 0 := by
  rw [walkChange, walkChange]
  split
  · rfl
  · rfl

/-! ### How much can be evicted -/

/-- Below an unlocked node nothing is locked. -/
theorem Inv.lockRef_child (h : Inv cfg c l locks) {n x : NodeId} (hn : n ∈ l.alive)
    (hnr : n ≠ rootNode) (hlock : (c.nodes n).lockRef = 0) (hx : x ∈ l.alive) (hxr : x ≠ rootNode)
    (hp : (c.nodes x).parent = some n) : (c.nodes x).lockRef = 0 := by
  have hfree := h.locks.notMem_above hn hnr hlock
  rw [h.locks.count x hx hxr, List.countP_eq_zero.mpr]
  · rfl
  · intro m hm hc
    have hmem : n ∈ l.above x := by
      rw [h.shape.tree.above_eq hx hxr hp]
      exact Finset.mem_insert_of_mem (h.shape.tree.self_mem_above hn)
    exact hfree m hm
      (h.shape.tree.above_subset_above (h.locks.mem m hm) (of_decide_eq_true hc) hmem)

/-- **Without an unlocked leaf everything is locked.** -/
theorem Inv.lockRef_ne_zero (h : Inv cfg c l locks) (hleaves : c.evictableLeaves = [])
    {n : NodeId} (hn : n ∈ l.alive) (hnr : n ≠ rootNode) : (c.nodes n).lockRef ≠ 0 := by
  intro hlock
  -- an unlocked node that is furthest from the root has no children
  obtain ⟨m, hm, hmax⟩ := Finset.exists_max_image
    ((l.alive.erase rootNode).filter fun n => (c.nodes n).lockRef = 0)
    (fun n => (l.path n).length)
    ⟨n, Finset.mem_filter.mpr ⟨Finset.mem_erase.mpr ⟨hnr, hn⟩, hlock⟩⟩
  obtain ⟨hm, hmlock⟩ := Finset.mem_filter.mp hm
  obtain ⟨hmr, hmal⟩ := Finset.mem_erase.mp hm
  have hnochild : (c.nodes m).children = [] := by
    refine Dict.eq_nil_of_lookup fun k => ?_
    by_contra hk
    obtain ⟨x, hx⟩ := Option.ne_none_iff_exists'.mp hk
    obtain ⟨hxal, hxr, hxp, -⟩ := h.shape.child m hmal k x hx
    have hxlock := h.lockRef_child hmal hmr hmlock hxal hxr hxp
    have := hmax x (Finset.mem_filter.mpr ⟨Finset.mem_erase.mpr ⟨hxr, hxal⟩, hxlock⟩)
    have := h.shape.tree.depth_lt hxal hxr hxp
    omega
  have := (h.books.leaves m).mpr ⟨hmal, hmr, hmlock, hnochild⟩
  rw [hleaves] at this
  cases this

/-- A tree without locks and without leaves is the root. -/
theorem Inv.eq_root (h : Inv cfg c l []) (hleaves : c.evictableLeaves = [])
    {n : NodeId} (hn : n ∈ l.alive) : n = rootNode := by
  by_contra hnr
  exact h.lockRef_ne_zero hleaves hn hnr (h.locks.count n hn hnr)

/-- Without an unlocked leaf there is nothing to evict. -/
theorem Inv.evictableSize_eq_zero (h : Inv cfg c l locks) (hleaves : c.evictableLeaves = []) :
    c.evictableSize = 0 := by
  rw [h.books.evictable]
  refine Finset.sum_eq_zero fun n hn => ?_
  obtain ⟨hnr, hn⟩ := Finset.mem_erase.mp hn
  rw [TreeNode.evictable, if_neg (h.lockRef_ne_zero hleaves hn hnr)]

/-- What was removed was counted. -/
theorem Evicting.numEvicted_eq {e : Eviction} (he : Evicting cfg c l locks e) (hf : Filled c l) :
    (e.numEvicted : ℤ) = ∑ n ∈ e.removed.toFinset, ((c.nodes n).key.len : ℤ) := by
  rw [he.counted, he.freed, List.map_map, List.sum_toFinset _ he.removed_nodup, Nat.cast_list_sum,
    List.map_map]
  refine congrArg List.sum (List.map_congr_left fun n hn => ?_)
  have := he.removed_mem n hn
  exact congrArg Nat.cast (hf n this.1 this.2.1)

theorem Evicting.removed_subset {e : Eviction} (he : Evicting cfg c l locks e) :
    e.removed.toFinset ⊆ l.alive.erase rootNode := by
  intro n hn
  have := he.removed_mem n (List.mem_toFinset.mp hn)
  exact Finset.mem_erase.mpr ⟨this.2.1, this.1⟩

/-- **What an eviction takes is no longer evictable**, and nothing else changes. -/
theorem Evicting.evictableSize_add {e : Eviction} (he : Evicting cfg c l locks e)
    (hb : Books c l) (hf : Filled c l) :
    e.cache.evictableSize + e.numEvicted = c.evictableSize := by
  have hleft : (l.alive \ e.removed.toFinset).erase rootNode
      = l.alive.erase rootNode \ e.removed.toFinset := (Finset.erase_sdiff_comm _ _ _).symm
  rw [he.books.evictable, hb.evictable, hleft, ← Finset.sum_sdiff he.removed_subset,
    he.numEvicted_eq hf]
  congr 1
  · refine Finset.sum_congr rfl fun n _ => ?_
    obtain ⟨-, hkey, -, hlock⟩ := he.same n
    rw [TreeNode.evictable, TreeNode.evictable, hkey, hlock]
  · refine Finset.sum_congr rfl fun n hn => ?_
    rw [TreeNode.evictable, if_pos (he.removed_mem n (List.mem_toFinset.mp hn)).2.2]

/-- **An eviction frees what it is asked for** when there is as much to evict. -/
theorem Inv.le_numEvicted (h : Inv cfg c l locks) (hf : Filled c l) {e : Eviction}
    (he : Evicting cfg c l locks e)
    (h' : Inv cfg e.cache { l with alive := l.alive \ e.removed.toFinset } locks) {numTokens : ℕ}
    (hstop : e.numEvicted < numTokens → e.cache.evictableLeaves = [])
    (hle : (numTokens : ℤ) ≤ c.evictableSize) : numTokens ≤ e.numEvicted := by
  by_contra hlt
  have hzero := h'.evictableSize_eq_zero (hstop (not_le.mp hlt))
  have hadd := he.evictableSize_add h.books hf
  omega

/-- The pages that are freed have as many slots as were counted. -/
theorem Stocked.card_freed (hs : Stocked cfg c l) (h : Shape cfg c l) {e : Eviction}
    (he : Evicting cfg c l locks e) :
    (e.freed.map fun v => (pagesOf cfg.pageSize v : Multiset ℤ)).sum.card * cfg.pageSize
      = e.numEvicted := by
  rw [he.counted, he.freed, ← Multiset.cardHom_apply, map_list_sum, List.map_map, List.map_map,
    List.map_map, ← List.sum_map_mul_right]
  refine congrArg List.sum (List.map_congr_left fun n hn => ?_)
  obtain ⟨hn, hnr, -⟩ := he.removed_mem n hn
  obtain ⟨pages, hpages⟩ := hs.paged n hn hnr
  have hdvd : cfg.pageSize ∣ (c.nodes n).value.length := by
    rw [hs.filled n hn hnr]
    exact (h.key_pages n hn hnr).2
  have hlen := congrArg List.length (hpages.eq_pageSlots cfg.pos hdvd)
  rw [length_pageSlots] at hlen
  simp only [Function.comp_apply, Multiset.cardHom_apply, Multiset.coe_card,
    hpages.pagesOf_eq cfg.pos, hlen]

end Radix

end HtSglang
