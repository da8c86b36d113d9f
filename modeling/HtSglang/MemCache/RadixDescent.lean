import HtSglang.MemCache.RadixLocking

/-!
# Going down the radix tree

`match_prefix` and `insert` go down from the root along a key, child by child, as long as
the child under the next page is there. Where a child's key is matched only in part the
child is split, and the way ends at the new node above it. Both loops end at a node from
which the rest of the key goes nowhere (`HtSglang.Radix.Landed`): nothing of it is left, or
no child is filed under its next page. That is all the rest of the development uses of the
loops: `HtSglang.Radix.matchLoop_ok`, `HtSglang.Radix.insertLoop_ok`.
-/

namespace HtSglang

namespace Radix

/-- The slots from the root to a node are those of its parent and its own. -/
structure Slots (c : Cache) (l : Layout) : Prop where
  root : l.slots rootNode = []
  /-- A node adds its own. -/
  step : ∀ n ∈ l.alive, n ≠ rootNode → ∀ p, (c.nodes n).parent = some p →
    l.slots n = l.slots p ++ (c.nodes n).value

/-- **The invariant of the cache**, with the locks that are held. -/
structure Inv (cfg : Config) (c : Cache) (l : Layout) (locks : List NodeId) : Prop where
  shape : Shape cfg c l
  books : Books c l
  locks : Locks c l locks
  slots : Slots c l

variable {cfg : Config} {c : Cache} {l : Layout} {locks : List NodeId}

/-! ### The invariant under changes -/

theorem Slots.split (hv : Slots c l) (h : Shape cfg c l) {x p : NodeId} {k : ℕ}
    (hs : Shape.Splits cfg c l x p k) :
    Slots (Shape.splitCache cfg c x p k) (l.split c x p k) := by
  have hw := h.counter_notMem
  have hold : ∀ n ∈ l.alive, (l.split c x p k).slots n = l.slots n := by
    intro n hn
    have hne : n ≠ c.counter := fun hc => hw (hc ▸ hn)
    exact Function.update_of_ne hne _ _
  have hnew : (l.split c x p k).slots c.counter = l.slots p ++ (c.nodes x).value.take k :=
    Function.update_self _ _ _
  refine ⟨(hold _ h.tree.root_mem).trans hv.root, ?_⟩
  intro n hn' hnr q hq
  rcases Finset.mem_insert.mp hn' with rfl | hn
  · rw [Shape.Splits.nodes_new h hs] at hq ⊢
    obtain rfl : p = q := Option.some.inj hq
    rw [hnew, hold p (Shape.Splits.parent_mem h hs)]
  · rw [hold n hn]
    by_cases hx : n = x
    · subst hx
      rw [Shape.Splits.nodes_child h hs] at hq ⊢
      obtain rfl : c.counter = q := Option.some.inj hq
      rw [hnew, List.append_assoc, List.take_append_drop, hv.step n hs.mem hnr p hs.parent]
    · obtain ⟨hpar, -, hval, -⟩ := Shape.Splits.nodes_old h hs hn hx
      rw [hpar] at hq
      rw [hold q (h.tree.parent_mem hn hnr hq), hval, hv.step n hn hnr q hq]

theorem Slots.addLeaf (hv : Slots c l) (h : Shape cfg c l) {p : NodeId} (hp : p ∈ l.alive)
    {f : ChildKey} {key : RadixKey} {value : List ℤ} :
    Slots (addLeaf c p f key value) (l.addLeaf c p key value) := by
  have hw := h.counter_notMem
  have hne : ∀ n ∈ l.alive, n ≠ c.counter := fun n hn hc => hw (hc ▸ hn)
  have hold : ∀ n ∈ l.alive, (l.addLeaf c p key value).slots n = l.slots n := fun n hn =>
    Function.update_of_ne (hne n hn) _ _
  refine ⟨(hold _ h.tree.root_mem).trans hv.root, ?_⟩
  intro n hn' hnr q hq
  rcases Finset.mem_insert.mp hn' with rfl | hn
  · rw [addLeaf_new (hne p hp)] at hq ⊢
    obtain rfl : p = q := Option.some.inj hq
    rw [hold p hp]
    exact Function.update_self _ _ _
  · rw [(addLeaf_old (hne n hn)).1] at hq
    rw [hold n hn, hold q (h.tree.parent_mem hn hnr hq), (addLeaf_old (hne n hn)).2.2.1,
      hv.step n hn hnr q hq]

theorem Inv.split (h : Inv cfg c l locks) {x p : NodeId} {k : ℕ}
    (hs : Shape.Splits cfg c l x p k) :
    Inv cfg (Shape.splitCache cfg c x p k) (l.split c x p k) locks :=
  ⟨h.shape.split hs, h.books.split h.shape hs, h.locks.split h.shape hs,
    h.slots.split h.shape hs⟩

theorem Inv.addLeaf (h : Inv cfg c l locks) {p : NodeId} {key : RadixKey}
    (ha : Shape.Attaches cfg c l p key) (value : List ℤ) :
    Inv cfg (addLeaf c p (RadixKey.childKeyOf key.extraKey (key.units.take cfg.pageSize)) key value)
      (l.addLeaf c p key value) locks :=
  ⟨h.shape.addLeaf ha value, h.books.addLeaf h.shape ha value, h.locks.addLeaf h.shape ha.mem,
    h.slots.addLeaf h.shape ha.mem⟩

/-- Changing lock counts leaves the slots alone. -/
theorem Slots.relocked (hv : Slots c l) {c' : Cache} {d : NodeId → ℤ} (hr : Relocked c c' d) :
    Slots c' l := by
  refine ⟨hv.root, ?_⟩
  intro n hn hnr p hp
  rw [hr.parent] at hp
  rw [hr.value]
  exact hv.step n hn hnr p hp

theorem Slots.evicting (hv : Slots c l) {e : Eviction} (he : Evicting cfg c l locks e) :
    Slots e.cache { l with alive := l.alive \ e.removed.toFinset } := by
  refine ⟨hv.root, ?_⟩
  intro n hn hnr p hp
  obtain ⟨hpar, -, hval, -⟩ := he.same n
  rw [hpar] at hp
  rw [hval]
  exact hv.step n (Finset.mem_sdiff.mp hn).1 hnr p hp

/-- Locking keeps the invariant. -/
theorem Inv.incLockRef (h : Inv cfg c l locks) {n : NodeId} (hn : n ∈ l.alive) :
    ∃ c', incLockRef c n = .ok (c', c'.evictableSize - c.evictableSize) ∧
      Inv cfg c' l (n :: locks) ∧ Relocked c c' (walkChange l n 1) := by
  obtain ⟨c', hok, hb, hl, hr⟩ := incLockRef_ok h.shape h.books h.locks hn
  exact ⟨c', hok, ⟨hr.shape h.shape, hb, hl, h.slots.relocked hr⟩, hr⟩

/-- Undoing a lock keeps the invariant. -/
theorem Inv.decLockRef (h : Inv cfg c l locks) {n : NodeId} (hn : n ∈ locks) :
    ∃ c', decLockRef c n = .ok (c', c'.evictableSize - c.evictableSize) ∧
      Inv cfg c' l (locks.erase n) ∧ Relocked c c' (walkChange l n (-1)) := by
  obtain ⟨c', hok, hb, hl, hr⟩ := decLockRef_ok h.shape h.books h.locks hn
  exact ⟨c', hok, ⟨hr.shape h.shape, hb, hl, h.slots.relocked hr⟩, hr⟩

/-- Evicting keeps the invariant. -/
theorem Inv.evict (h : Inv cfg c l locks) (strategy : Cache → List NodeId → ℕ) (numTokens : ℕ) :
    ∃ e, evict cfg c strategy numTokens = .ok e ∧
      Inv cfg e.cache { l with alive := l.alive \ e.removed.toFinset } locks ∧
      Evicting cfg c l locks e ∧ (e.numEvicted < numTokens → e.cache.evictableLeaves = []) := by
  obtain ⟨e, hok, he, hstop⟩ := evict_ok h.shape h.books h.locks strategy numTokens
  exact ⟨e, hok, ⟨he.shape, he.books, he.locks, h.slots.evicting he⟩, he, hstop⟩

theorem Inv.reset (cfg : Config) : Inv cfg reset Layout.empty [] := by
  refine ⟨Shape.reset cfg, Books.reset, ⟨fun n hn => ?_, ?_⟩, ⟨rfl, ?_⟩⟩
  · cases hn
  · intro n hn hnr
    exact absurd (Finset.mem_singleton.mp hn) hnr
  · intro n hn hnr
    exact absurd (Finset.mem_singleton.mp hn) hnr

/-! ### Meeting a child -/

/-- The cache and its layout are as they were, or one node was split. -/
def SplitOnce (cfg : Config) (c : Cache) (l : Layout) (c' : Cache) (l' : Layout) : Prop :=
  (c' = c ∧ l' = l) ∨ ∃ x p k, Shape.Splits cfg c l x p k ∧
    c' = Shape.splitCache cfg c x p k ∧ l' = l.split c x p k

theorem SplitOnce.inv {c' : Cache} {l' : Layout} (hs : SplitOnce cfg c l c' l')
    (h : Inv cfg c l locks) : Inv cfg c' l' locks := by
  rcases hs with ⟨rfl, rfl⟩ | ⟨x, p, k, hs, rfl, rfl⟩
  · exact h
  · exact h.split hs

/-- **Where a way down ends**: at a node that continues the start by a part of the key, and
from which the rest of the key goes nowhere. -/
structure Landed (cfg : Config) (c : Cache) (l : Layout) (n : NodeId) (key : RadixKey)
    (c' : Cache) (l' : Layout) (n' : NodeId) (key' : RadixKey) : Prop where
  /-- At most one node was split on the way. -/
  once : SplitOnce cfg c l c' l'
  mem : n' ∈ l'.alive
  extraKey_node : n' ≠ rootNode → (c'.nodes n').key.extraKey = key.extraKey
  extraKey : key'.extraKey = key.extraKey
  dvd : cfg.pageSize ∣ key'.len
  /-- What was gone down and what is left is the key. -/
  path : l'.path n' ++ key'.units = l.path n ++ key.units
  below : (l.path n).length ≤ (l'.path n').length
  /-- The rest goes nowhere. -/
  stop : key'.len = 0 ∨ (c'.nodes n').children.lookup
    (RadixKey.childKeyOf key'.extraKey (key'.units.take cfg.pageSize)) = none

/-- The variables of a way down: a node, and a key of whole pages to go on with. -/
structure Going (cfg : Config) (c : Cache) (l : Layout) (n : NodeId) (key : RadixKey) : Prop where
  mem : n ∈ l.alive
  extraKey : n ≠ rootNode → (c.nodes n).key.extraKey = key.extraKey
  dvd : cfg.pageSize ∣ key.len

/-- The length to which a child's key and the key agree, in pages. -/
def agreed (cfg : Config) (c : Cache) (x : NodeId) (key : RadixKey) : ℕ :=
  lcp (c.nodes x).key.units key.units / cfg.pageSize * cfg.pageSize

/-- **The child under the next page.** -/
structure Meets (cfg : Config) (c : Cache) (l : Layout) (n x : NodeId) (key : RadixKey) : Prop where
  mem : x ∈ l.alive
  ne_root : x ≠ rootNode
  parent : (c.nodes x).parent = some n
  extraKey : (c.nodes x).key.extraKey = key.extraKey
  /-- The comparison of the keys. -/
  matched : (c.nodes x).key.matchWith key cfg.pageSize = .ok (agreed cfg c x key)
  pos : 0 < agreed cfg c x key
  dvd : cfg.pageSize ∣ agreed cfg c x key
  le_child : agreed cfg c x key ≤ (c.nodes x).key.len
  le_key : agreed cfg c x key ≤ key.len
  take_eq : (c.nodes x).key.units.take (agreed cfg c x key) = key.units.take (agreed cfg c x key)

theorem Going.meets {n x : NodeId} {key : RadixKey} (hg : Going cfg c l n key) (h : Shape cfg c l)
    (hpos : 0 < key.len) (hx : (c.nodes n).children.lookup
      (RadixKey.childKeyOf key.extraKey (key.units.take cfg.pageSize)) = some x) :
    Meets cfg c l n x key := by
  obtain ⟨hxal, hxr, hxp, hfile⟩ := h.child n hg.mem _ x hx
  rw [TreeNode.fileKey, RadixKey.childKeyOf_inj] at hfile
  have hps : cfg.pageSize ≤ key.len := Nat.le_of_dvd hpos hg.dvd
  have hpx := h.pageSize_le hxal hxr
  have hview : (c.nodes x).key.isBigram = key.isBigram :=
    RadixKey.isBigram_eq_of_page cfg.pos hpx hfile.2.symm
  have hlcp : cfg.pageSize ≤ lcp (c.nodes x).key.units key.units := by
    rw [le_lcp_iff, RadixKey.length_units, RadixKey.length_units]
    exact ⟨hpx, hps, hfile.2.symm⟩
  have hle : agreed cfg c x key ≤ lcp (c.nodes x).key.units key.units := Nat.div_mul_le_self _ _
  have hspec := le_lcp_iff.mp hle
  rw [RadixKey.length_units, RadixKey.length_units] at hspec
  refine ⟨hxal, hxr, hxp, hfile.1.symm, RadixKey.matchWith_eq cfg.pos hfile.1.symm hview, ?_,
    Nat.dvd_mul_left _ _, hspec.1, hspec.2.1, hspec.2.2⟩
  exact lt_of_lt_of_le cfg.pos ((le_div_mul_iff dvd_rfl).mpr hlcp)

namespace Meets

variable {n x : NodeId} {key : RadixKey}

theorem splits (hm : Meets cfg c l n x key) (hlt : agreed cfg c x key < (c.nodes x).key.len) :
    Shape.Splits cfg c l x n (agreed cfg c x key) :=
  ⟨hm.mem, hm.ne_root, hm.parent, hm.pos, hlt, hm.dvd⟩

/-- **The child is matched in part**: it is split, and the way ends above it. -/
theorem landed_split (hm : Meets cfg c l n x key) (h : Shape cfg c l)
    (hg : Going cfg c l n key) (hlt : agreed cfg c x key < (c.nodes x).key.len) :
    Landed cfg c l n key (Shape.splitCache cfg c x n (agreed cfg c x key))
      (l.split c x n (agreed cfg c x key)) c.counter
      (key.slice (agreed cfg c x key) key.len) := by
  have hs := hm.splits hlt
  have hpath : (l.split c x n (agreed cfg c x key)).path c.counter
      = l.path n ++ key.units.take (agreed cfg c x key) := by
    rw [Shape.Splits.path_new, hm.take_eq]
  have hunits : (key.slice (agreed cfg c x key) key.len).units
      = key.units.drop (agreed cfg c x key) := by
    rw [RadixKey.units_slice, ← RadixKey.length_units, List.take_length]
  have hlen : (key.slice (agreed cfg c x key) key.len).len = key.len - agreed cfg c x key := by
    rw [RadixKey.len_slice, min_self]
  have hdvd := Nat.dvd_sub hg.dvd hm.dvd
  refine ⟨Or.inr ⟨x, n, _, hs, rfl, rfl⟩, Finset.mem_insert_self _ _, ?_,
    RadixKey.extraKey_slice _ _ _, hlen ▸ hdvd, ?_, ?_, ?_⟩
  · intro _
    rw [Shape.Splits.nodes_new h hs, RadixKey.extraKey_slice, hm.extraKey]
  · rw [hpath, hunits, List.append_assoc, List.take_append_drop]
  · rw [hpath, List.length_append]
    omega
  · rw [hlen]
    by_cases hrest : key.len - agreed cfg c x key = 0
    · exact Or.inl hrest
    refine Or.inr ?_
    rw [Shape.Splits.nodes_new h hs, RadixKey.extraKey_slice, Dict.lookup_cons, if_neg]
    · rfl
    -- were the next page the child's, the keys would agree on one page more
    rw [hm.extraKey, RadixKey.childKeyOf_inj, hunits, RadixKey.units_slice,
      ← (c.nodes x).key.length_units, List.take_length]
    rintro ⟨-, hpage⟩
    have hroom : agreed cfg c x key + cfg.pageSize ≤ key.len := by
      have := Nat.le_of_dvd (by omega) hdvd
      omega
    have hroomx : agreed cfg c x key + cfg.pageSize ≤ (c.nodes x).key.len := by
      have := Nat.le_of_dvd (by omega) (Nat.dvd_sub (h.key_pages x hm.mem hm.ne_root).2 hm.dvd)
      omega
    have hmore : agreed cfg c x key + cfg.pageSize ≤ lcp (c.nodes x).key.units key.units := by
      rw [le_lcp_iff, RadixKey.length_units, RadixKey.length_units]
      refine ⟨hroomx, hroom, ?_⟩
      rw [List.take_add, List.take_add, hm.take_eq, hpage]
    have := (le_div_mul_iff (dvd_add hm.dvd dvd_rfl)).mpr hmore
    have hps := cfg.pos
    change _ ≤ agreed cfg c x key at this
    omega

/-- **The child is matched in full**: the way goes on from it. -/
theorem going (hm : Meets cfg c l n x key) (hg : Going cfg c l n key) :
    Going cfg c l x (key.slice (agreed cfg c x key) key.len) := by
  refine ⟨hm.mem, fun _ => ?_, ?_⟩
  · rw [RadixKey.extraKey_slice, hm.extraKey]
  · rw [RadixKey.len_slice, min_self]
    exact Nat.dvd_sub hg.dvd hm.dvd

theorem landed_full (hm : Meets cfg c l n x key) (h : Shape cfg c l)
    (hfull : ¬agreed cfg c x key < (c.nodes x).key.len) {c' : Cache} {l' : Layout} {n' : NodeId}
    {key' : RadixKey}
    (hl : Landed cfg c l x (key.slice (agreed cfg c x key) key.len) c' l' n' key') :
    Landed cfg c l n key c' l' n' key' := by
  have hlen : agreed cfg c x key = (c.nodes x).key.len := le_antisymm hm.le_child (not_lt.mp hfull)
  have hxpath := h.path_eq x hm.mem hm.ne_root n hm.parent
  refine ⟨hl.once, hl.mem, ?_, ?_, hl.dvd, ?_, ?_, hl.stop⟩
  · intro hr
    rw [hl.extraKey_node hr, RadixKey.extraKey_slice]
  · rw [hl.extraKey, RadixKey.extraKey_slice]
  · have htake : (c.nodes x).key.units = key.units.take (agreed cfg c x key) := by
      rw [← hm.take_eq, hlen, ← RadixKey.length_units, List.take_length]
    rw [hl.path, hxpath, htake, RadixKey.units_slice, ← key.length_units, List.take_length,
      List.append_assoc, List.take_append_drop]
  · have := hl.below
    rw [hxpath, List.length_append] at this
    omega

end Meets

/-- A way that has ended. -/
theorem Going.landed {n : NodeId} {key : RadixKey} (hg : Going cfg c l n key)
    (hstop : key.len = 0 ∨ (c.nodes n).children.lookup
      (RadixKey.childKeyOf key.extraKey (key.units.take cfg.pageSize)) = none) :
    Landed cfg c l n key c l n key :=
  ⟨Or.inl ⟨rfl, rfl⟩, hg.mem, hg.extraKey, rfl, hg.dvd, rfl, le_rfl, hstop⟩

/-! ### The loops -/

/-- `child_key` in the loops: that of the key while there is one. -/
theorem nextChildKey_eq {key : RadixKey} (hdvd : cfg.pageSize ∣ key.len) (f : ChildKey) :
    nextChildKey cfg key f = .ok (if 0 < key.len
      then RadixKey.childKeyOf key.extraKey (key.units.take cfg.pageSize) else f) := by
  rw [nextChildKey]
  split
  · next hpos => rw [RadixKey.childKey_eq cfg.pos (Nat.le_of_dvd hpos hdvd)]
  · rfl

/-- **The loop of `match_prefix`** ends where the rest of the key goes nowhere, with the slots
of the way it went. -/
theorem matchLoop_ok (h : Shape cfg c l) (hv : Slots c l) {fuel : ℕ} {n : NodeId} {key : RadixKey}
    {f : ChildKey} (value : List (List ℤ)) (hg : Going cfg c l n key)
    (hf : 0 < key.len → f = RadixKey.childKeyOf key.extraKey (key.units.take cfg.pageSize))
    (hfuel : key.len < fuel) :
    ∃ c' l' vals n' key', matchLoop cfg fuel c n key f value = .ok (c', value ++ vals, n') ∧
      Landed cfg c l n key c' l' n' key' ∧ l'.slots n' = l.slots n ++ vals.flatten := by
  induction fuel generalizing n key f value with
  | zero => omega
  | succ fuel ih =>
    rw [matchLoop]
    split
    · next hzero =>
      exact ⟨c, l, [], n, key, by rw [List.append_nil], hg.landed (Or.inl hzero), by simp⟩
    next hpos =>
    have hpos : 0 < key.len := Nat.pos_of_ne_zero hpos
    rw [hf hpos]
    split
    · next hnone =>
      exact ⟨c, l, [], n, key, by rw [List.append_nil], hg.landed (Or.inr hnone), by simp⟩
    next x hx =>
    have hm := hg.meets h hpos hx
    simp only [bind, Except.bind, hm.matched]
    split
    · next hlt =>
      have hs := hm.splits hlt
      refine ⟨_, _, [(c.nodes x).value.take (agreed cfg c x key)], c.counter, _, ?_,
        hm.landed_split h hg hlt, ?_⟩
      · simp only [Shape.Splits.splitNode_eq h hs, Shape.Splits.nodes_new h hs]
      · rw [Layout.split, List.flatten_singleton]
        exact Function.update_self _ _ _
    · next hfull =>
      have hle := hm.le_key
      have hap := hm.pos
      have hg' := hm.going hg
      rw [nextChildKey_eq hg'.dvd]
      obtain ⟨c', l', vals, n', key', hok, hland, hslots⟩ := ih
        (f := if 0 < (key.slice (agreed cfg c x key) key.len).len
          then RadixKey.childKeyOf (key.slice (agreed cfg c x key) key.len).extraKey
            ((key.slice (agreed cfg c x key) key.len).units.take cfg.pageSize)
          else RadixKey.childKeyOf key.extraKey (key.units.take cfg.pageSize))
        (value ++ [(c.nodes x).value]) hg' (fun hp => if_pos hp)
        (by rw [RadixKey.len_slice, min_self]; omega)
      refine ⟨c', l', (c.nodes x).value :: vals, n', key', ?_, hm.landed_full h hfull hland, ?_⟩
      · simp only [hok, List.append_assoc, List.singleton_append]
      · rw [hslots, hv.step x hm.mem hm.ne_root n hm.parent, List.flatten_cons, List.append_assoc]

/-- A loop of `insert` that has nowhere to go ends. -/
theorem insertLoop_stop {fuel : ℕ} {d : Descent}
    (hstop : d.key.len = 0 ∨ (d.cache.nodes d.node).children.lookup d.childKey = none) :
    insertLoop cfg (fuel + 1) d = .ok d := by
  rw [insertLoop]
  split
  · rfl
  · next hpos => rw [hstop.resolve_left hpos]

/-- **The loop of `insert`** ends where the rest of the key goes nowhere. It has counted the
way it went, and has the slots of the rest. -/
theorem insertLoop_ok (h : Shape cfg c l) {fuel : ℕ} {d : Descent} (hc : d.cache = c)
    (hg : Going cfg c l d.node d.key)
    (hf : 0 < d.key.len →
      d.childKey = RadixKey.childKeyOf d.key.extraKey (d.key.units.take cfg.pageSize))
    (hfuel : d.key.len < fuel) :
    ∃ d' l', insertLoop cfg fuel d = .ok d' ∧
      Landed cfg c l d.node d.key d'.cache l' d'.node d'.key ∧
      (0 < d'.key.len →
        d'.childKey = RadixKey.childKeyOf d'.key.extraKey (d'.key.units.take cfg.pageSize)) ∧
      d'.totalPrefixLength + (l.path d.node).length
        = d.totalPrefixLength + (l'.path d'.node).length ∧
      d'.value = d.value.drop (d'.totalPrefixLength - d.totalPrefixLength) := by
  induction fuel generalizing d with
  | zero => omega
  | succ fuel ih =>
    obtain ⟨cache, n, key, value, f, total⟩ := d
    obtain rfl : cache = c := hc
    dsimp only at hg hf hfuel
    rw [insertLoop]
    dsimp only
    split
    · next hzero =>
      exact ⟨_, l, rfl, hg.landed (Or.inl hzero), hf, rfl, by rw [Nat.sub_self, List.drop_zero]⟩
    next hpos =>
    have hpos : 0 < key.len := Nat.pos_of_ne_zero hpos
    obtain rfl := hf hpos
    split
    · next hnone =>
      exact ⟨_, l, rfl, hg.landed (Or.inr hnone), hf, rfl, by rw [Nat.sub_self, List.drop_zero]⟩
    next x hx =>
    have hm := hg.meets h hpos hx
    have hle := hm.le_key
    have hap := hm.pos
    have hg' := hm.going hg
    simp only [bind, Except.bind, hm.matched, enterChild]
    by_cases hlt : agreed cfg cache x key < (cache.nodes x).key.len
    · have hs := hm.splits hlt
      have hland := hm.landed_split h hg hlt
      simp only [if_pos hlt, Shape.Splits.splitNode_eq h hs, nextChildKey_eq hg'.dvd]
      rw [show fuel = (fuel - 1) + 1 by omega, insertLoop_stop]
      · refine ⟨_, _, rfl, hland, fun hp => if_pos hp, ?_, ?_⟩
        · dsimp only
          rw [Shape.Splits.path_new, List.length_append, List.length_take, RadixKey.length_units]
          have := hm.le_child
          omega
        · dsimp only
          rw [Nat.add_sub_cancel_left]
      · dsimp only
        rcases hland.stop with hz | hn
        · exact Or.inl hz
        · by_cases hz : (key.slice (agreed cfg cache x key) key.len).len = 0
          · exact Or.inl hz
          · rw [if_pos (Nat.pos_of_ne_zero hz)]
            exact Or.inr hn
    · have hlen : agreed cfg cache x key = (cache.nodes x).key.len :=
        le_antisymm hm.le_child (not_lt.mp hlt)
      simp only [if_neg hlt, nextChildKey_eq hg'.dvd]
      obtain ⟨d', l', hok, hland, hf', htotal, hvalue⟩ := ih
        (d := { cache := cache, node := x, key := key.slice (agreed cfg cache x key) key.len
                value := value.drop (agreed cfg cache x key)
                childKey := if 0 < (key.slice (agreed cfg cache x key) key.len).len
                  then RadixKey.childKeyOf (key.slice (agreed cfg cache x key) key.len).extraKey
                    ((key.slice (agreed cfg cache x key) key.len).units.take cfg.pageSize)
                  else RadixKey.childKeyOf key.extraKey (key.units.take cfg.pageSize)
                totalPrefixLength := total + agreed cfg cache x key })
        rfl hg' (fun hp => if_pos hp)
        (by dsimp only; rw [RadixKey.len_slice, min_self]; omega)
      dsimp only at hland htotal hvalue
      have hbelow := hland.below
      have hxpath : (l.path x).length = (l.path n).length + agreed cfg cache x key := by
        rw [h.path_eq x hm.mem hm.ne_root n hm.parent, List.length_append, RadixKey.length_units,
          hlen]
      refine ⟨d', l', hok, hm.landed_full h hlt hland, hf', ?_, ?_⟩
      · omega
      · rw [hvalue, List.drop_drop]
        congr 1
        omega

/-! ### The operations -/

theorem len_cacheKey (key : RadixKey) :
    (cacheKey cfg key).len = (key.toBigramView cfg.isEagle).len / cfg.pageSize * cfg.pageSize :=
  RadixKey.len_pageAligned _ _

theorem dvd_len_cacheKey (key : RadixKey) : cfg.pageSize ∣ (cacheKey cfg key).len := by
  rw [len_cacheKey]
  exact Nat.dvd_mul_left _ _

@[simp] theorem extraKey_cacheKey (key : RadixKey) :
    (cacheKey cfg key).extraKey = key.extraKey := by
  rw [cacheKey, RadixKey.extraKey_pageAligned, RadixKey.extraKey_toBigramView]

/-- Every way down starts at the root. -/
theorem Inv.going_root (h : Inv cfg c l locks) (key : RadixKey) :
    Going cfg c l rootNode (cacheKey cfg key) :=
  ⟨h.shape.tree.root_mem, fun hr => absurd rfl hr, dvd_len_cacheKey key⟩

/-- **`match_prefix`** ends where the key leads, with the slots of the way. -/
theorem Inv.matchPrefix (h : Inv cfg c l locks) (key : RadixKey) :
    ∃ c' l' n' key', matchPrefix cfg c key = .ok (c', l'.slots n', n') ∧
      Landed cfg c l rootNode (cacheKey cfg key) c' l' n' key' := by
  have hg := h.going_root key
  rw [Radix.matchPrefix]
  dsimp only
  split
  · next hzero =>
    refine ⟨c, l, rootNode, _, by rw [h.slots.root], hg.landed (Or.inl ?_)⟩
    rw [len_cacheKey, hzero, Nat.zero_div, Nat.zero_mul]
  split
  · next hzero => exact ⟨c, l, rootNode, _, by rw [h.slots.root], hg.landed (Or.inl hzero)⟩
  next hpos =>
  have hpos : 0 < (cacheKey cfg key).len := Nat.pos_of_ne_zero hpos
  have hkey := RadixKey.childKey_eq (k := cacheKey cfg key) cfg.pos
    (Nat.le_of_dvd hpos hg.dvd)
  obtain ⟨c', l', vals, n', key', hok, hland, hslots⟩ := matchLoop_ok h.shape h.slots [] hg
    (fun _ => rfl) (Nat.lt_add_one _)
  refine ⟨c', l', n', key', ?_, hland⟩
  rw [← cacheKey, matchPrefixHelper, hkey]
  simp only [bind, Except.bind, hok]
  rw [hslots, h.slots.root, List.nil_append, List.nil_append]

/-- What `insert` makes of where it landed. -/
inductive Attached (cfg : Config) (c : Cache) (l : Layout) (n : NodeId) (key : RadixKey)
    (value : List ℤ) : Cache → Layout → NodeId → Prop
  /-- Nothing was left to add. -/
  | there : key.len = 0 → Attached cfg c l n key value c l n
  /-- The rest became a leaf. -/
  | leaf : 0 < key.len → Attached cfg c l n key value
      (Radix.addLeaf c n (RadixKey.childKeyOf key.extraKey (key.units.take cfg.pageSize)) key value)
      (l.addLeaf c n key value) c.counter

/-- Where a leaf is added after a way down. -/
theorem Landed.attaches {n n' : NodeId} {key key' : RadixKey} {c' : Cache} {l' : Layout}
    (hl : Landed cfg c l n key c' l' n' key') (hpos : 0 < key'.len) :
    Shape.Attaches cfg c' l' n' key' :=
  ⟨hl.mem, hpos, hl.dvd, fun hr => (hl.extraKey_node hr).trans hl.extraKey.symm,
    hl.stop.resolve_left hpos.ne'⟩

theorem Attached.inv {n n' m : NodeId} {key key' : RadixKey} {value : List ℤ} {c' c'' : Cache}
    {l' l'' : Layout} (ha : Attached cfg c' l' n' key' value c'' l'' m)
    (hl : Landed cfg c l n key c' l' n' key') (h : Inv cfg c l locks) :
    Inv cfg c'' l'' locks ∧ m ∈ l''.alive := by
  have h' := hl.once.inv h
  cases ha with
  | there _ => exact ⟨h', hl.mem⟩
  | leaf hpos => exact ⟨h'.addLeaf (hl.attaches hpos) value, Finset.mem_insert_self _ _⟩

/-- **`insert`** ends where the key leads, reports how far it led, and adds the rest. -/
theorem Inv.insert (h : Inv cfg c l locks) (key : RadixKey) (value : Option (List ℤ)) :
    ∃ c' l' n' key' c'' l'' m, insert cfg c key value = .ok (c'', (l'.path n').length, m) ∧
      Landed cfg c l rootNode (cacheKey cfg key) c' l' n' key' ∧
      Attached cfg c' l' n' key' ((cacheValue cfg key value).drop (l'.path n').length) c'' l''
        m := by
  have hg := h.going_root key
  rw [Radix.insert, insertHelper]
  split
  · next hzero =>
    refine ⟨c, l, rootNode, _, c, l, rootNode, ?_, hg.landed (Or.inl hzero), .there hzero⟩
    rw [h.shape.root_path]
    rfl
  next hpos =>
  have hpos : 0 < (cacheKey cfg key).len := Nat.pos_of_ne_zero hpos
  have hkey := RadixKey.childKey_eq (k := cacheKey cfg key) cfg.pos (Nat.le_of_dvd hpos hg.dvd)
  obtain ⟨d, l', hok, hland, hf, htotal, hvalue⟩ := insertLoop_ok
    (d := { cache := c, node := rootNode, key := cacheKey cfg key, value := cacheValue cfg key value
            childKey := RadixKey.childKeyOf (cacheKey cfg key).extraKey
              ((cacheKey cfg key).units.take cfg.pageSize)
            totalPrefixLength := 0 })
    h.shape rfl hg (fun _ => rfl) (Nat.lt_add_one _)
  dsimp only at htotal hvalue
  rw [h.shape.root_path, List.length_nil, Nat.zero_add, Nat.add_zero] at htotal
  rw [Nat.sub_zero, htotal] at hvalue
  refine ⟨d.cache, l', d.node, d.key, ?_⟩
  rw [hkey]
  simp only [bind, Except.bind, hok]
  rw [attach, htotal]
  split
  · next hrest =>
    rw [hf hrest, hvalue]
    exact ⟨_, _, _, rfl, hland, .leaf hrest⟩
  · next hrest => exact ⟨_, _, _, rfl, hland, .there (by omega)⟩

end Radix

end HtSglang
