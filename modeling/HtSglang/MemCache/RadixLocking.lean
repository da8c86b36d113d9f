import HtSglang.MemCache.RadixBooks

/-!
# Locking and evicting

`inc_lock_ref` and `dec_lock_ref` walk from a node to the root; `evict` deletes unlocked
leaves, and the nodes that become unlocked leaves by that, until enough is gone or none is
left. On a tree with its books right all three end without an error and leave the books right:
`HtSglang.Radix.incLockRef_ok`, `HtSglang.Radix.decLockRef_ok`, `HtSglang.Radix.evict_ok`. What an
eviction did is said by the nodes it removed (`HtSglang.Radix.Evicting`): each of them was in
the tree and unlocked, its slots were freed once, and nothing else was.
-/

namespace HtSglang

namespace Radix

/-! ### Changing lock counts -/

/-- Two caches that differ in lock counts and in the books. -/
structure Relocked (c c' : Cache) (d : NodeId → ℤ) : Prop where
  counter : c'.counter = c.counter
  parent : ∀ n, (c'.nodes n).parent = (c.nodes n).parent
  key : ∀ n, (c'.nodes n).key = (c.nodes n).key
  children : ∀ n, (c'.nodes n).children = (c.nodes n).children
  value : ∀ n, (c'.nodes n).value = (c.nodes n).value
  /-- The counts differ by `d`. -/
  lockRef : ∀ n, (c'.nodes n).lockRef = (c.nodes n).lockRef + d n

namespace Relocked

variable {cfg : Config} {c c' c'' : Cache} {l : Layout} {d d' : NodeId → ℤ}

theorem shape (hr : Relocked c c' d) (h : Shape cfg c l) : Shape cfg c' l :=
  h.congr hr.counter hr.parent hr.key hr.children

theorem refl (c : Cache) : Relocked c c fun _ => 0 :=
  ⟨rfl, fun _ => rfl, fun _ => rfl, fun _ => rfl, fun _ => rfl, fun _ => (add_zero _).symm⟩

theorem trans (hr : Relocked c c' d) (hr' : Relocked c' c'' d') :
    Relocked c c'' fun n => d n + d' n := by
  refine ⟨hr'.counter.trans hr.counter, ?_, ?_, ?_, ?_, ?_⟩
  · exact fun n => (hr'.parent n).trans (hr.parent n)
  · exact fun n => (hr'.key n).trans (hr.key n)
  · exact fun n => (hr'.children n).trans (hr.children n)
  · exact fun n => (hr'.value n).trans (hr.value n)
  · intro n
    rw [hr'.lockRef, hr.lockRef, add_assoc]

/-- One node's count changes. -/
theorem single {n : NodeId} {v : ℤ} (hcounter : c'.counter = c.counter)
    (hnodes : c'.nodes = Function.update c.nodes n
      { c.nodes n with lockRef := (c.nodes n).lockRef + v }) :
    Relocked c c' fun m => if m = n then v else 0 := by
  have hother : ∀ m, c'.nodes m = { c.nodes m with
      lockRef := (c.nodes m).lockRef + if m = n then v else 0 } := by
    intro m
    rw [hnodes, Function.update_apply]
    split
    · next hm => rw [hm]
    · rw [add_zero]
  refine ⟨hcounter, ?_, ?_, ?_, ?_, ?_⟩ <;> intro m <;> rw [hother m]

end Relocked

section Walks

variable {cfg : Config} {c : Cache} {l : Layout} {locks : List NodeId} {n : NodeId}

/-- The change a walk from a node to the root makes. -/
def walkChange (l : Layout) (n : NodeId) (v : ℤ) (m : NodeId) : ℤ :=
  if m ∈ l.above n ∧ m ≠ rootNode then v else 0

theorem walkChange_step (h : Shape cfg c l) {p : NodeId} (hn : n ∈ l.alive) (hnr : n ≠ rootNode)
    (hp : (c.nodes n).parent = some p) (v : ℤ) :
    (fun m => (if m = n then v else 0) + walkChange l p v m) = walkChange l n v := by
  funext m
  have hnot := h.tree.notMem_above_parent hn hnr hp
  simp only [walkChange, h.tree.above_eq hn hnr hp, Finset.mem_insert]
  by_cases hm : m = n
  · subst hm
    rw [if_pos rfl, if_neg (fun hc => hnot hc.1), if_pos ⟨Or.inl rfl, hnr⟩, add_zero]
  · rw [if_neg hm, zero_add]
    simp [hm]

theorem walkChange_root (h : Shape cfg c l) (v : ℤ) :
    walkChange l rootNode v = fun _ => 0 := by
  funext m
  rw [walkChange, h.tree.above_root, if_neg]
  rintro ⟨hm, hne⟩
  exact hne (Finset.mem_singleton.mp hm)

/-- **The walk of `inc_lock_ref`**: every node on the way counts one more, and the change
that is reported is that of the evictable size. -/
theorem incLoop_ok {fuel : ℕ} (delta : ℤ) (h : Shape cfg c l) (hb : Books c l) (hn : n ∈ l.alive)
    (hfuel : (l.above n).card < fuel + 1) :
    ∃ c', incLoop (fuel + 1) c n delta = .ok (c', delta + (c'.evictableSize - c.evictableSize)) ∧
      Books c' l ∧ Relocked c c' (walkChange l n 1) := by
  induction fuel generalizing c n delta with
  | zero =>
    have := Finset.card_pos.mpr ⟨n, h.tree.self_mem_above hn⟩
    omega
  | succ fuel ih =>
    rw [incLoop]
    split
    · next hr =>
      subst hr
      rw [walkChange_root h]
      exact ⟨c, by rw [sub_self, add_zero], hb, Relocked.refl c⟩
    · next hnr =>
      obtain ⟨p, hpal, hp⟩ := h.exists_parent hn hnr
      have hr : Relocked c (incNode c n) fun m => if m = n then 1 else 0 := Relocked.single rfl rfl
      have hcard := h.tree.card_above_parent hn hnr hp
      simp only [hp]
      obtain ⟨c', hok, hb', hr'⟩ := ih (n := p)
        (if (c.nodes n).lockRef = 0 then delta - (c.nodes n).key.len else delta)
        (hr.shape h) (hb.incNode hn hnr) hpal (by omega)
      refine ⟨c', ?_, hb', walkChange_step h hn hnr hp 1 ▸ hr.trans hr'⟩
      rw [hok]
      refine congrArg (fun z => Except.ok (c', z)) ?_
      change _ + (c'.evictableSize - (c.evictableSize - _)) = _
      split <;> ring

/-- **The walk of `dec_lock_ref`**, over nodes that are all locked. -/
theorem decLoop_ok {fuel : ℕ} (delta : ℤ) (h : Shape cfg c l) (hb : Books c l) (hn : n ∈ l.alive)
    (hlocked : ∀ m ∈ l.above n, m ≠ rootNode → 0 < (c.nodes m).lockRef)
    (hfuel : (l.above n).card < fuel + 1) :
    ∃ c', decLoop (fuel + 1) c n delta = .ok (c', delta + (c'.evictableSize - c.evictableSize)) ∧
      Books c' l ∧ Relocked c c' (walkChange l n (-1)) := by
  induction fuel generalizing c n delta with
  | zero =>
    have := Finset.card_pos.mpr ⟨n, h.tree.self_mem_above hn⟩
    omega
  | succ fuel ih =>
    rw [decLoop]
    split
    · next hr =>
      subst hr
      rw [walkChange_root h]
      exact ⟨c, by rw [sub_self, add_zero], hb, Relocked.refl c⟩
    · next hnr =>
      obtain ⟨p, hpal, hp⟩ := h.exists_parent hn hnr
      have hr : Relocked c (decNode c n) fun m => if m = n then -1 else 0 := Relocked.single rfl rfl
      have hcard := h.tree.card_above_parent hn hnr hp
      have hnot := h.tree.notMem_above_parent hn hnr hp
      have hpos := hlocked n (h.tree.self_mem_above hn) hnr
      have hup : ∀ m ∈ l.above p, m ≠ rootNode → 0 < ((decNode c n).nodes m).lockRef := by
        intro m hm hmr
        have hmn : m ≠ n := by
          rintro rfl
          exact hnot hm
        rw [hr.lockRef, if_neg hmn, add_zero]
        exact hlocked m (h.tree.above_eq hn hnr hp ▸ Finset.mem_insert_of_mem hm) hmr
      simp only [hp]
      obtain ⟨c', hok, hb', hr'⟩ := ih (n := p)
        (if (c.nodes n).lockRef = 1 then delta + (c.nodes n).key.len else delta)
        (hr.shape h) (hb.decNode hn hnr hpos) hpal hup (by omega)
      refine ⟨c', ?_, hb', walkChange_step h hn hnr hp (-1) ▸ hr.trans hr'⟩
      rw [hok]
      refine congrArg (fun z => Except.ok (c', z)) ?_
      change _ + (c'.evictableSize - (c.evictableSize + _)) = _
      split <;> ring

/-- The counter bounds the way to the root. -/
theorem Shape.card_above_lt (h : Shape cfg c l) (hn : n ∈ l.alive) :
    (l.above n).card < c.counter + 1 := by
  have hsub : l.alive ⊆ Finset.range c.counter := fun m hm => Finset.mem_range.mpr (h.fresh m hm)
  have hcard := Finset.card_le_card hsub
  rw [Finset.card_range] at hcard
  exact Nat.lt_succ_of_le ((h.tree.card_above_le hn).trans hcard)

/-- **Locking a node of the tree** succeeds, keeps the books and adds its lock. -/
theorem incLockRef_ok (h : Shape cfg c l) (hb : Books c l) (hl : Locks c l locks)
    (hn : n ∈ l.alive) :
    ∃ c', incLockRef c n = .ok (c', c'.evictableSize - c.evictableSize) ∧ Books c' l ∧
      Locks c' l (n :: locks) ∧ Relocked c c' (walkChange l n 1) := by
  obtain ⟨c', hok, hb', hr⟩ := incLoop_ok 0 h hb hn (h.card_above_lt hn)
  rw [zero_add] at hok
  refine ⟨c', hok, hb', ⟨?_, ?_⟩, hr⟩
  · intro m hm
    rcases List.mem_cons.mp hm with rfl | hm
    · exact hn
    · exact hl.mem m hm
  · intro m hm hmr
    rw [hr.lockRef, hl.count m hm hmr, List.countP_cons, walkChange, Nat.cast_add]
    simp [hmr]

/-- **Undoing a lock** succeeds, keeps the books and takes the lock away. -/
theorem decLockRef_ok (h : Shape cfg c l) (hb : Books c l) (hl : Locks c l locks)
    (hn : n ∈ locks) :
    ∃ c', decLockRef c n = .ok (c', c'.evictableSize - c.evictableSize) ∧ Books c' l ∧
      Locks c' l (locks.erase n) ∧ Relocked c c' (walkChange l n (-1)) := by
  have hnal := hl.mem n hn
  have hcount : ∀ m, (locks.countP fun k => decide (m ∈ l.above k))
      = ((locks.erase n).countP fun k => decide (m ∈ l.above k))
        + if m ∈ l.above n then 1 else 0 := by
    intro m
    rw [(List.perm_cons_erase hn).countP_eq, List.countP_cons]
    simp
  have hlocked : ∀ m ∈ l.above n, m ≠ rootNode → 0 < (c.nodes m).lockRef := by
    intro m hm hmr
    rw [hl.count m (h.tree.above_subset hnal hm) hmr, hcount m, if_pos hm]
    exact Int.natCast_pos.mpr (Nat.succ_pos _)
  obtain ⟨c', hok, hb', hr⟩ := decLoop_ok 0 h hb hnal hlocked (h.card_above_lt hnal)
  rw [zero_add] at hok
  refine ⟨c', hok, hb', ⟨fun m hm => hl.mem m (List.mem_of_mem_erase hm), ?_⟩, hr⟩
  intro m hm hmr
  rw [hr.lockRef, hl.count m hm hmr, hcount m, walkChange]
  split
  · next hmem => simp [hmem, hmr]
  · next hmem => simp [hmem]

end Walks

/-! ### Evicting -/

section Evict

variable {cfg : Config} {c : Cache} {l : Layout} {locks : List NodeId} {x p : NodeId}

/-- The cache after a leaf was deleted. -/
def withoutLeaf (cfg : Config) (c : Cache) (x p : NodeId) : Cache :=
  updateLeafStatus
    { c with
      nodes := Function.update c.nodes p
        { c.nodes p with
          children := Dict.erase (c.nodes p).children ((c.nodes x).fileKey cfg) }
      evictableSize := c.evictableSize - (c.nodes x).key.len
      evictableLeaves := c.evictableLeaves.filter fun m => m ≠ x } p

/-- Deleting a leaf changes the children of its parent and nothing else about a node. -/
theorem withoutLeaf_same (cfg : Config) (c : Cache) (x p n : NodeId) :
    ((withoutLeaf cfg c x p).nodes n).parent = (c.nodes n).parent ∧
      ((withoutLeaf cfg c x p).nodes n).key = (c.nodes n).key ∧
      ((withoutLeaf cfg c x p).nodes n).value = (c.nodes n).value ∧
      ((withoutLeaf cfg c x p).nodes n).lockRef = (c.nodes n).lockRef := by
  rw [withoutLeaf, nodes_updateLeafStatus]
  dsimp only
  rw [Function.update_apply]
  split
  · next hn =>
    subst hn
    exact ⟨rfl, rfl, rfl, rfl⟩
  · exact ⟨rfl, rfl, rfl, rfl⟩

/-- `_delete_leaf` on an unlocked leaf. -/
theorem deleteLeaf_eq (h : Shape cfg c l) (hx : x ∈ l.alive) (hxr : x ≠ rootNode)
    (hp : (c.nodes x).parent = some p) : deleteLeaf cfg c x = .ok (withoutLeaf cfg c x p) := by
  have hfiled := h.filed x hx hxr p hp
  rw [deleteLeaf, h.childKey_eq hx hxr]
  simp only [bind, Except.bind, hp, hfiled, ne_eq, not_true_eq_false, if_false]
  rfl

/-- **The state of an eviction**, by the nodes that were removed so far. -/
structure Evicting (cfg : Config) (c₀ : Cache) (l₀ : Layout) (locks : List NodeId) (e : Eviction) :
    Prop where
  shape : Shape cfg e.cache { l₀ with alive := l₀.alive \ e.removed.toFinset }
  books : Books e.cache { l₀ with alive := l₀.alive \ e.removed.toFinset }
  locks : Locks e.cache { l₀ with alive := l₀.alive \ e.removed.toFinset } locks
  /-- The candidates are the unlocked leaves. -/
  heap : ∀ n, n ∈ e.heap ↔ n ∈ e.cache.evictableLeaves
  heap_nodup : e.heap.Nodup
  /-- What is known of a node stays. -/
  same : ∀ n, (e.cache.nodes n).parent = (c₀.nodes n).parent ∧
    (e.cache.nodes n).key = (c₀.nodes n).key ∧ (e.cache.nodes n).value = (c₀.nodes n).value ∧
    (e.cache.nodes n).lockRef = (c₀.nodes n).lockRef
  removed_nodup : e.removed.Nodup
  /-- What is removed was in the tree, and unlocked. -/
  removed_mem : ∀ n ∈ e.removed, n ∈ l₀.alive ∧ n ≠ rootNode ∧ (c₀.nodes n).lockRef = 0
  /-- The slots of what is removed are freed. -/
  freed : e.freed = e.removed.map fun n => (c₀.nodes n).value
  /-- They are counted. -/
  counted : e.numEvicted = (e.freed.map List.length).sum
  counter : e.cache.counter = c₀.counter
  guarded : e.cache.protectedSize = c₀.protectedSize

theorem Evicting.start (h : Shape cfg c l) (hb : Books c l) (hl : Locks c l locks) :
    Evicting cfg c l locks
      { cache := c, heap := c.evictableLeaves, numEvicted := 0, freed := [], removed := [] } := by
  have hlay : { l with alive := l.alive \ ([] : List NodeId).toFinset } = l := by
    rw [List.toFinset_nil, Finset.sdiff_empty]
  refine ⟨?_, ?_, ?_, fun _ => Iff.rfl, hb.nodup, fun _ => ⟨rfl, rfl, rfl, rfl⟩, List.nodup_nil, ?_,
    rfl, rfl, rfl, rfl⟩
  · rw [hlay]
    exact h
  · rw [hlay]
    exact hb
  · rw [hlay]
    exact hl
  · intro n hn
    cases hn

theorem Layout.removeLeaf_sdiff (l : Layout) (removed : List NodeId) (x : NodeId) :
    ({ l with alive := l.alive \ removed.toFinset } : Layout).removeLeaf x
      = { l with alive := l.alive \ (removed ++ [x]).toFinset } := by
  rw [Layout.removeLeaf, List.toFinset_append]
  congr 1
  ext n
  simp only [Finset.mem_erase, Finset.mem_sdiff, Finset.mem_union, List.mem_toFinset,
    List.mem_singleton]
  tauto

/-- Without a leaf, the other unlocked leaves are left, and its parent when that is one now. -/
theorem mem_leaves_withoutLeaf (hb : Books c l) (hp : p ∈ l.alive) {n : NodeId} :
    n ∈ (withoutLeaf cfg c x p).evictableLeaves ↔
      if n = p then ((withoutLeaf cfg c x p).nodes p).children = [] ∧
        ((withoutLeaf cfg c x p).nodes p).lockRef = 0
      else n ∈ c.evictableLeaves ∧ n ≠ x := by
  have hnn := hb.nonneg p hp
  have hlock := (withoutLeaf_same cfg c x p p).2.2.2
  rw [withoutLeaf, mem_updateLeafStatus, ← withoutLeaf]
  split
  · rw [and_comm]
    refine and_congr_right fun _ => ?_
    rw [withoutLeaf, nodes_updateLeafStatus] at hlock ⊢
    dsimp only at hlock ⊢
    omega
  · rw [List.mem_filter]
    simp

/-- The candidates after a round: the one that is taken goes, its parent joins when it is an
unlocked leaf now. -/
theorem Evicting.heap_erase {e : Eviction} (he : Evicting cfg c l locks e)
    (hp : p ∈ l.alive \ e.removed.toFinset) (hpheap : p ∉ e.heap) {heap : List NodeId}
    (hheap : heap = if ((withoutLeaf cfg e.cache x p).nodes p).children = [] ∧
      ((withoutLeaf cfg e.cache x p).nodes p).lockRef = 0 then e.heap.erase x ++ [p]
      else e.heap.erase x) :
    heap.Nodup ∧ ∀ n, n ∈ heap ↔ n ∈ (withoutLeaf cfg e.cache x p).evictableLeaves := by
  have hpmem : p ∉ e.heap.erase x := fun hm => hpheap (List.mem_of_mem_erase hm)
  have hmem : ∀ n, n ∈ e.heap.erase x ↔ n ∈ e.cache.evictableLeaves ∧ n ≠ x := fun n => by
    rw [he.heap_nodup.mem_erase_iff, he.heap, and_comm]
  have hleaves : ∀ n, n ∈ (withoutLeaf cfg e.cache x p).evictableLeaves ↔ _ := fun n =>
    mem_leaves_withoutLeaf he.books hp
  rw [hheap]
  split
  · next hc =>
    refine ⟨(List.perm_append_singleton _ _).nodup_iff.mpr
      (List.nodup_cons.mpr ⟨hpmem, he.heap_nodup.erase x⟩), fun n => ?_⟩
    rw [List.mem_append, List.mem_singleton, hleaves]
    split
    · next hn => exact iff_of_true (Or.inr hn) hc
    · next hn => rw [or_iff_left hn, hmem]
  · next hc =>
    refine ⟨he.heap_nodup.erase x, fun n => ?_⟩
    rw [hleaves]
    split
    · next hn => exact iff_of_false (hn ▸ hpmem) hc
    · exact hmem n

/-- **One round of an eviction.** -/
theorem Evicting.evictOne {e : Eviction} (he : Evicting cfg c l locks e) {i : ℕ}
    (hi : i < e.heap.length) :
    ∃ e', Radix.evictOne cfg e i = .ok e' ∧ Evicting cfg c l locks e' ∧
      e'.removed = e.removed ++ [e.heap[i]] := by
  obtain ⟨x, hx⟩ : ∃ x, x = e.heap[i] := ⟨_, rfl⟩
  have hget : e.heap.getD i rootNode = x := by
    rw [List.getD_eq_getElem _ _ hi, hx]
  have hxleaf := (he.heap x).mp (hx ▸ List.getElem_mem hi)
  obtain ⟨hxal, hxr, hxlock, hxchildren⟩ := (he.books.leaves x).mp hxleaf
  obtain ⟨p, hpal, hp⟩ := he.shape.exists_parent hxal hxr
  have hxold := Finset.mem_sdiff.mp hxal
  have hxnew : x ∉ e.removed := fun hc => hxold.2 (List.mem_toFinset.mpr hc)
  have hsame := withoutLeaf_same cfg e.cache x p
  have hpheap : p ∉ e.heap := by
    rw [he.heap, he.books.leaves]
    rintro ⟨-, -, -, hch⟩
    exact he.shape.parent_ne_of_leaf hch x hxal hxr hp
  obtain ⟨heap, hdef⟩ : ∃ heap, heap = if ((withoutLeaf cfg e.cache x p).nodes p).children = [] ∧
      ((withoutLeaf cfg e.cache x p).nodes p).lockRef = 0 then e.heap.erase x ++ [p]
      else e.heap.erase x := ⟨_, rfl⟩
  obtain ⟨hnodup, hheap⟩ := he.heap_erase hpal hpheap hdef
  have herase : e.heap.eraseIdx i = e.heap.erase x := by
    rw [hx, he.heap_nodup.erase_getElem i hi]
  refine ⟨
    { cache := withoutLeaf cfg e.cache x p
      heap := heap
      numEvicted := e.numEvicted + (e.cache.nodes x).value.length
      freed := e.freed ++ [(e.cache.nodes x).value]
      removed := e.removed ++ [x] }, ?_,
    ⟨?_, ?_, ?_, hheap, hnodup, fun n => ?_, ?_, fun n hn => ?_, ?_, ?_, he.counter, he.guarded⟩,
    by rw [hx]⟩
  · rw [Radix.evictOne, hget, deleteLeaf_eq he.shape hxal hxr hp, herase, hdef]
    simp only [bind, Except.bind, (hsame x).1, hp]
  · rw [← Layout.removeLeaf_sdiff]
    exact he.shape.removeLeaf hxal hxr hp hxchildren rfl rfl
  · rw [← Layout.removeLeaf_sdiff]
    exact he.books.removeLeaf he.shape hxleaf hp
  · rw [← Layout.removeLeaf_sdiff]
    exact he.locks.removeLeaf he.shape hxal hxr hxlock fun n => (hsame n).2.2.2
  · obtain ⟨h1, h2, h3, h4⟩ := hsame n
    obtain ⟨g1, g2, g3, g4⟩ := he.same n
    exact ⟨h1.trans g1, h2.trans g2, h3.trans g3, h4.trans g4⟩
  · exact (List.perm_append_singleton _ _).nodup_iff.mpr
      (List.nodup_cons.mpr ⟨hxnew, he.removed_nodup⟩)
  · rcases List.mem_append.mp hn with hn | hn
    · exact he.removed_mem n hn
    · rw [List.mem_singleton.mp hn]
      exact ⟨hxold.1, hxr, (he.same x).2.2.2.symm.trans hxlock⟩
  · dsimp only
    rw [List.map_append, he.freed, (he.same x).2.2.1]
    rfl
  · dsimp only
    rw [List.map_append, List.sum_append, he.counted]
    rfl

/-- **The loop of an eviction** ends, with enough evicted or no unlocked leaf left. -/
theorem evictLoop_ok {strategy : Cache → List NodeId → ℕ} {numTokens fuel : ℕ} {e : Eviction}
    (he : Evicting cfg c l locks e) (hfuel : (l.alive \ e.removed.toFinset).card < fuel) :
    ∃ e', evictLoop cfg strategy numTokens fuel e = .ok e' ∧ Evicting cfg c l locks e' ∧
      (e'.numEvicted < numTokens → e'.cache.evictableLeaves = []) := by
  induction fuel generalizing e with
  | zero => omega
  | succ fuel ih =>
    rw [evictLoop]
    split
    · next hgo =>
      have hpos := List.length_pos_iff.mpr hgo.2
      have hi : strategy e.cache e.heap % e.heap.length < e.heap.length := Nat.mod_lt _ hpos
      obtain ⟨e₁, hok, he₁, hrem⟩ := he.evictOne hi
      have hcard : (l.alive \ e₁.removed.toFinset).card < (l.alive \ e.removed.toFinset).card := by
        refine Finset.card_lt_card (Finset.ssubset_iff_subset_ne.mpr ⟨?_, ?_⟩)
        · rw [hrem, List.toFinset_append]
          exact Finset.sdiff_subset_sdiff (Finset.Subset.refl _) Finset.subset_union_left
        · intro hc
          have hmem := ((he.books.leaves _).mp ((he.heap _).mp (List.getElem_mem hi))).1
          rw [← hc, Finset.mem_sdiff, hrem] at hmem
          exact hmem.2 (by simp)
      obtain ⟨e', hok', hrest⟩ := ih he₁ (by omega)
      refine ⟨e', ?_, hrest⟩
      simp only [bind, Except.bind, hok, hok']
    · next hstop =>
      refine ⟨e, rfl, he, fun hlt => ?_⟩
      have hnil : e.heap = [] := by
        by_contra hc
        exact hstop ⟨hlt, hc⟩
      refine List.eq_nil_iff_forall_not_mem.mpr fun n hn => ?_
      have := (he.heap n).mpr hn
      rw [hnil] at this
      cases this

/-- **Eviction** ends without an error. What it removed was unlocked, its slots were freed
once and nothing else was freed; it stops early only when no unlocked leaf is left. -/
theorem evict_ok (h : Shape cfg c l) (hb : Books c l) (hl : Locks c l locks)
    (strategy : Cache → List NodeId → ℕ) (numTokens : ℕ) :
    ∃ e, evict cfg c strategy numTokens = .ok e ∧ Evicting cfg c l locks e ∧
      (e.numEvicted < numTokens → e.cache.evictableLeaves = []) := by
  refine evictLoop_ok (Evicting.start h hb hl) ?_
  have hsub : l.alive ⊆ Finset.range c.counter := fun m hm => Finset.mem_range.mpr (h.fresh m hm)
  have hcard := Finset.card_le_card hsub
  rw [Finset.card_range] at hcard
  have hle := Finset.card_le_card
    (Finset.sdiff_subset (s := l.alive) (t := ([] : List NodeId).toFinset))
  exact Nat.lt_succ_of_le (hle.trans hcard)

end Evict

end Radix

end HtSglang
