import HtSglang.MemCache.RadixShape

/-!
# The books of the radix cache

The cache keeps three things beside the tree that it never recomputes: how much of the tree
is unlocked, how much is locked, and which nodes are unlocked leaves
(`HtSglang.Radix.Books`). They are stated by the lock counts, whatever these are. That the
lock count of a node is the number of locks held on it and below it is a second invariant
(`HtSglang.Radix.Locks`); it says which changes of the counts a walk to the root makes, and the
books follow every such change node by node (`HtSglang.Radix.Books.relock`).
-/

namespace HtSglang

namespace Radix

/-- What a node adds to the evictable size. -/
def TreeNode.evictable (n : TreeNode) : ℤ := if n.lockRef = 0 then n.key.len else 0

/-- What a node adds to the protected size. -/
def TreeNode.guarded (n : TreeNode) : ℤ := if n.lockRef = 0 then 0 else n.key.len

/-- **The books.** -/
structure Books (c : Cache) (l : Layout) : Prop where
  /-- `evictable_size_` is the size of the unlocked nodes. -/
  evictable : c.evictableSize = ∑ n ∈ l.alive.erase rootNode, (c.nodes n).evictable
  /-- `protected_size_` is the size of the locked nodes. -/
  guarded : c.protectedSize = ∑ n ∈ l.alive.erase rootNode, (c.nodes n).guarded
  /-- `evictable_leaves` are the unlocked nodes without children. -/
  leaves : ∀ n, n ∈ c.evictableLeaves ↔
    n ∈ l.alive ∧ n ≠ rootNode ∧ (c.nodes n).lockRef = 0 ∧ (c.nodes n).children = []
  nodup : c.evictableLeaves.Nodup
  nonneg : ∀ n ∈ l.alive, 0 ≤ (c.nodes n).lockRef
  /-- The root is locked for good. -/
  root_lock : (c.nodes rootNode).lockRef = 1

/-- **The locks**: what is locked is in the tree, and a node counts the locks on it and
below it. -/
structure Locks (c : Cache) (l : Layout) (locks : List NodeId) : Prop where
  mem : ∀ n ∈ locks, n ∈ l.alive
  count : ∀ n ∈ l.alive, n ≠ rootNode →
    (c.nodes n).lockRef = (locks.countP fun m => decide (n ∈ l.above m) : ℕ)

/-! ### Sums over the tree -/

section Sums

variable {f f' : NodeId → ℤ} {s : Finset NodeId} {x w : NodeId}

/-- A sum in which one term changes. -/
theorem sum_change (hx : x ∈ s) (hold : ∀ n ∈ s, n ≠ x → f' n = f n) :
    ∑ n ∈ s, f' n = ∑ n ∈ s, f n + (f' x - f x) := by
  rw [← Finset.add_sum_erase s f' hx, ← Finset.add_sum_erase s f hx]
  have : ∑ n ∈ s.erase x, f' n = ∑ n ∈ s.erase x, f n :=
    Finset.sum_congr rfl fun n hn =>
      hold n (Finset.mem_of_mem_erase hn) (Finset.ne_of_mem_erase hn)
  rw [this]
  ring

/-- A sum in which one term is split into two. -/
theorem sum_split {M : Type*} [AddCommMonoid M] {f f' : NodeId → M} (hx : x ∈ s) (hw : w ∉ s)
    (hold : ∀ n ∈ s, n ≠ x → f' n = f n) (hsum : f' w + f' x = f x) :
    ∑ n ∈ Insert.insert w s, f' n = ∑ n ∈ s, f n := by
  rw [Finset.sum_insert hw, ← Finset.add_sum_erase s f' hx, ← Finset.add_sum_erase s f hx,
    ← add_assoc, hsum]
  congr 1
  exact Finset.sum_congr rfl fun n hn =>
    hold n (Finset.mem_of_mem_erase hn) (Finset.ne_of_mem_erase hn)

end Sums

/-! ### Leaf status -/

section LeafStatus

variable {c : Cache} {n m : NodeId}

theorem mem_updateLeafStatus :
    m ∈ (updateLeafStatus c n).evictableLeaves ↔
      if m = n then (c.nodes n).lockRef ≤ 0 ∧ (c.nodes n).children = []
      else m ∈ c.evictableLeaves := by
  rw [updateLeafStatus]
  dsimp only
  split
  · next h =>
    rw [List.mem_filter]
    split
    · next hmn =>
      subst hmn
      refine iff_of_false (fun hc => by simp at hc) ?_
      rintro ⟨h0, h1⟩
      rcases h with h | h
      · omega
      · exact h h1
    · next hmn => simp [hmn]
  · next h =>
    have h := not_or.mp h
    have hst : (c.nodes n).lockRef ≤ 0 ∧ (c.nodes n).children = [] :=
      ⟨not_lt.mp h.1, not_not.mp h.2⟩
    split
    · next hin =>
      split
      · next hmn => exact iff_of_true (hmn ▸ hin) hst
      · rfl
    · rw [List.mem_append, List.mem_singleton]
      split
      · next hmn => exact iff_of_true (Or.inr hmn) hst
      · next hmn => exact or_iff_left hmn

theorem nodup_updateLeafStatus (h : c.evictableLeaves.Nodup) :
    (updateLeafStatus c n).evictableLeaves.Nodup := by
  rw [updateLeafStatus]
  dsimp only
  split
  · exact h.filter _
  · split
    · exact h
    · next hin =>
      rw [List.nodup_append]
      refine ⟨h, List.nodup_singleton n, ?_⟩
      intro a ha b hb
      rw [List.mem_singleton.mp hb]
      exact fun hc => hin (hc ▸ ha)

end LeafStatus

namespace Books

variable {cfg : Config} {c : Cache} {l : Layout} {n m p x : NodeId} {k : ℕ}

/-! ### A split, a new leaf -/

/-- **A split keeps the books.** -/
theorem split (hb : Books c l) (h : Shape cfg c l) (hs : Shape.Splits cfg c l x p k) :
    Books (Shape.splitCache cfg c x p k) (l.split c x p k) := by
  have hpal := Shape.Splits.parent_mem h hs
  have hpx := Shape.Splits.ne_parent h hs
  have hw := h.counter_notMem
  have hwr : c.counter ≠ rootNode := fun hc => hw (hc ▸ h.tree.root_mem)
  have herase : (l.split c x p k).alive.erase rootNode
      = Insert.insert c.counter (l.alive.erase rootNode) :=
    Finset.erase_insert_of_ne hwr
  have hwS : c.counter ∉ l.alive.erase rootNode := fun hc => hw (Finset.mem_of_mem_erase hc)
  have hxS : x ∈ l.alive.erase rootNode := Finset.mem_erase.mpr ⟨hs.ne_root, hs.mem⟩
  have hlt := hs.lt
  have hlockx : ((Shape.splitCache cfg c x p k).nodes x).lockRef = (c.nodes x).lockRef := by
    rw [Shape.Splits.nodes_child h hs]
  have hpleaf : (c.nodes p).children ≠ [] := by
    intro hc
    exact h.parent_ne_of_leaf hc x hs.mem hs.ne_root hs.parent
  refine ⟨?_, ?_, ?_, hb.nodup, ?_, ?_⟩
  case refine_1 =>
    rw [herase]
    refine hb.evictable.trans (sum_split hxS hwS ?_ ?_).symm
    · intro n hn hnx
      have hold := Shape.Splits.nodes_old h hs (Finset.mem_of_mem_erase hn) hnx
      rw [TreeNode.evictable, TreeNode.evictable, hold.2.1, hold.2.2.2]
    · rw [TreeNode.evictable, TreeNode.evictable, TreeNode.evictable,
        Shape.Splits.nodes_new h hs, Shape.Splits.nodes_child h hs]
      dsimp only
      split
      · rw [RadixKey.len_slice, RadixKey.len_slice]
        omega
      · rfl
  case refine_2 =>
    rw [herase]
    refine hb.guarded.trans (sum_split hxS hwS ?_ ?_).symm
    · intro n hn hnx
      have hold := Shape.Splits.nodes_old h hs (Finset.mem_of_mem_erase hn) hnx
      rw [TreeNode.guarded, TreeNode.guarded, hold.2.1, hold.2.2.2]
    · rw [TreeNode.guarded, TreeNode.guarded, TreeNode.guarded,
        Shape.Splits.nodes_new h hs, Shape.Splits.nodes_child h hs]
      dsimp only
      split
      · rfl
      · rw [RadixKey.len_slice, RadixKey.len_slice]
        omega
  case refine_3 =>
    intro n
    change n ∈ c.evictableLeaves ↔ n ∈ Insert.insert c.counter l.alive ∧ _
    rw [hb.leaves, Finset.mem_insert]
    by_cases hnw : n = c.counter
    · subst hnw
      refine iff_of_false (fun hc => hw hc.1) ?_
      rintro ⟨-, -, -, hch⟩
      rw [Shape.Splits.nodes_new h hs] at hch
      cases hch
    rw [or_iff_right hnw]
    refine and_congr_right fun hn => and_congr_right fun _ => ?_
    by_cases hnp : n = p
    · subst hnp
      rw [Shape.Splits.nodes_parent h hs]
      exact iff_of_false (fun hc => hpleaf hc.2) (fun hc => Dict.set_ne_nil _ _ _ hc.2)
    · by_cases hnx : n = x
      · subst hnx
        rw [Shape.Splits.nodes_child h hs]
      · rw [Shape.Splits.nodes_other h hn hnx hnp]
  case refine_4 =>
    intro n hnew
    rcases Finset.mem_insert.mp hnew with rfl | hn
    · rw [Shape.Splits.nodes_new h hs]
      exact hb.nonneg x hs.mem
    · by_cases hnx : n = x
      · subst hnx
        rw [hlockx]
        exact hb.nonneg n hn
      · rw [(Shape.Splits.nodes_old h hs hn hnx).2.2.2]
        exact hb.nonneg n hn
  case refine_5 =>
    rw [(Shape.Splits.nodes_old h hs h.tree.root_mem hs.ne_root.symm).2.2.2]
    exact hb.root_lock

/-- **A new leaf keeps the books.** -/
theorem addLeaf (hb : Books c l) (h : Shape cfg c l) {key : RadixKey}
    (ha : Shape.Attaches cfg c l p key) (value : List ℤ) :
    Books (addLeaf c p (RadixKey.childKeyOf key.extraKey (key.units.take cfg.pageSize)) key value)
      (l.addLeaf c p key value) := by
  have hw := h.counter_notMem
  have hne : ∀ n ∈ l.alive, n ≠ c.counter := fun n hn hc => hw (hc ▸ hn)
  have hwr : c.counter ≠ rootNode := fun hc => hw (hc ▸ h.tree.root_mem)
  have hp := hne p ha.mem
  have herase : (l.addLeaf c p key value).alive.erase rootNode
      = Insert.insert c.counter (l.alive.erase rootNode) :=
    Finset.erase_insert_of_ne hwr
  have hwS : c.counter ∉ l.alive.erase rootNode := fun hc => hw (Finset.mem_of_mem_erase hc)
  set f := RadixKey.childKeyOf key.extraKey (key.units.take cfg.pageSize) with hf
  refine ⟨?_, ?_, ?_, ?_, ?_, ?_⟩
  case refine_1 =>
    change c.evictableSize + key.len = _
    rw [herase, Finset.sum_insert hwS, addLeaf_new hp, hb.evictable, add_comm]
    congr 1
    refine Finset.sum_congr rfl fun n hn => ?_
    have hnw := hne n (Finset.mem_of_mem_erase hn)
    rw [TreeNode.evictable, TreeNode.evictable, (addLeaf_old hnw).2.1, (addLeaf_old hnw).2.2.2]
  case refine_2 =>
    change c.protectedSize = _
    have hnew : ((Radix.addLeaf c p f key value).nodes c.counter).guarded = 0 := by
      rw [addLeaf_new hp]
      rfl
    rw [herase, Finset.sum_insert hwS, hnew, hb.guarded, zero_add]
    refine Finset.sum_congr rfl fun n hn => ?_
    have hnw := hne n (Finset.mem_of_mem_erase hn)
    rw [TreeNode.guarded, TreeNode.guarded, (addLeaf_old hnw).2.1, (addLeaf_old hnw).2.2.2]
  case refine_3 =>
    intro n
    -- the status of the parent, then that of the leaf, is brought up to date
    rw [show n ∈ (Radix.addLeaf c p f key value).evictableLeaves ↔
        if n = c.counter then True else if n = p then False else n ∈ c.evictableLeaves from ?_]
    · change _ ↔ n ∈ Insert.insert c.counter l.alive ∧ _
      rw [Finset.mem_insert]
      split
      · next hnw =>
        subst hnw
        rw [addLeaf_new hp]
        exact iff_of_true trivial ⟨Or.inl rfl, hwr, rfl, rfl⟩
      · next hnw =>
        rw [or_iff_right hnw]
        split
        · next hnp =>
          subst hnp
          rw [addLeaf_parent hp]
          exact iff_of_false id (fun hc => Dict.set_ne_nil _ _ _ hc.2.2.2)
        · next hnp => rw [hb.leaves, addLeaf_other hnw hnp]
    · have hnodes : (Radix.addLeaf c p f key value).nodes c.counter = _ := addLeaf_new hp
      have hparent : (Radix.addLeaf c p f key value).nodes p = _ := addLeaf_parent hp
      rw [Radix.addLeaf] at hnodes hparent ⊢
      simp only [nodes_updateLeafStatus] at hnodes hparent
      rw [mem_updateLeafStatus, mem_updateLeafStatus]
      simp only [nodes_updateLeafStatus, hnodes, hparent]
      split
      · exact iff_of_true ⟨le_rfl, trivial⟩ trivial
      · split
        · exact iff_of_false (fun hc => Dict.set_ne_nil _ _ _ hc.2) id
        · rfl
  case refine_4 => exact nodup_updateLeafStatus (nodup_updateLeafStatus hb.nodup)
  case refine_5 =>
    intro n hnew
    rcases Finset.mem_insert.mp hnew with rfl | hn
    · rw [addLeaf_new hp]
    · rw [(addLeaf_old (hne n hn)).2.2.2]
      exact hb.nonneg n hn
  case refine_6 =>
    rw [(addLeaf_old (hne _ h.tree.root_mem)).2.2.2]
    exact hb.root_lock

/-! ### A leaf less, a lock more -/

/-- **A leaf less keeps the books**: its size is taken off, and the status of its parent is
brought up to date. -/
theorem removeLeaf (hb : Books c l) (h : Shape cfg c l) (hx : x ∈ c.evictableLeaves)
    (hp : (c.nodes x).parent = some p) :
    Books (updateLeafStatus
      { c with
        nodes := Function.update c.nodes p
          { c.nodes p with
            children := Dict.erase (c.nodes p).children ((c.nodes x).fileKey cfg) }
        evictableSize := c.evictableSize - (c.nodes x).key.len
        evictableLeaves := c.evictableLeaves.filter fun m => m ≠ x } p) (l.removeLeaf x) := by
  obtain ⟨hxal, hxr, hxlock, hxleaf⟩ := (hb.leaves x).mp hx
  have hpal := h.tree.parent_mem hxal hxr hp
  have hpx : p ≠ x := by
    rintro rfl
    exact h.parent_ne_of_leaf hxleaf p hxal hxr hp
  have hnodes : ∀ n, ∀ {f : TreeNode → ℤ},
    (∀ a b : TreeNode, a.key = b.key → a.lockRef = b.lockRef →
      f a = f b) → f (Function.update c.nodes p
        { c.nodes p with
          children := Dict.erase (c.nodes p).children ((c.nodes x).fileKey cfg) } n)
        = f (c.nodes n) := by
    intro n f hf
    rw [Function.update_apply]
    split
    · next hc =>
      subst hc
      exact hf _ _ rfl rfl
    · rfl
  have hsum : ∀ f : NodeId → ℤ, ∑ n ∈ l.alive.erase rootNode, f n
      = f x + ∑ n ∈ (l.alive.erase x).erase rootNode, f n := by
    intro f
    rw [← Finset.add_sum_erase _ f (Finset.mem_erase.mpr ⟨hxr, hxal⟩), Finset.erase_right_comm]
  refine ⟨?_, ?_, ?_, nodup_updateLeafStatus (hb.nodup.filter _), ?_, ?_⟩
  case refine_1 =>
    change c.evictableSize - (c.nodes x).key.len = ∑ n ∈ (l.alive.erase x).erase rootNode, _
    have hx : (c.nodes x).evictable = (c.nodes x).key.len := if_pos hxlock
    rw [hb.evictable, hsum, hx, add_sub_cancel_left]
    refine Finset.sum_congr rfl fun n _ => (hnodes n fun a b hk hl => ?_).symm
    rw [TreeNode.evictable, TreeNode.evictable, hk, hl]
  case refine_2 =>
    change c.protectedSize = ∑ n ∈ (l.alive.erase x).erase rootNode, _
    have hx : (c.nodes x).guarded = 0 := if_pos hxlock
    rw [hb.guarded, hsum, hx, zero_add]
    refine Finset.sum_congr rfl fun n _ => (hnodes n fun a b hk hl => ?_).symm
    rw [TreeNode.guarded, TreeNode.guarded, hk, hl]
  case refine_3 =>
    intro n
    rw [mem_updateLeafStatus]
    dsimp only
    rw [nodes_updateLeafStatus]
    change _ ↔ n ∈ l.alive.erase x ∧ _
    rw [Finset.mem_erase]
    dsimp only
    split
    · next hnp =>
      subst hnp
      rw [Function.update_self]
      have hnn := hb.nonneg n hpal
      constructor
      · rintro ⟨h0, h1⟩
        dsimp only at h0 h1 ⊢
        refine ⟨⟨hpx, hpal⟩, ?_, by omega, h1⟩
        rintro rfl
        rw [hb.root_lock] at h0
        omega
      · rintro ⟨-, -, h0, h1⟩
        exact ⟨h0.le, h1⟩
    · next hnp =>
      rw [Function.update_of_ne hnp, List.mem_filter, hb.leaves]
      simp only [decide_eq_true_eq]
      tauto
  case refine_4 =>
    intro n hn
    have := hb.nonneg n (Finset.mem_of_mem_erase hn)
    rw [nodes_updateLeafStatus]
    dsimp only
    rw [hnodes n (f := TreeNode.lockRef) fun a b _ hl => hl]
    exact this
  case refine_5 =>
    rw [nodes_updateLeafStatus]
    dsimp only
    rw [hnodes rootNode (f := TreeNode.lockRef) fun a b _ hl => hl]
    exact hb.root_lock

/-- **A change of one lock count keeps the books** when the node's size is moved to the
other side as the count becomes or ceases to be zero. -/
theorem relock (hb : Books c l) (hn : n ∈ l.alive) (hnr : n ≠ rootNode) {v e g : ℤ} (hv : 0 ≤ v)
    (he : e = c.evictableSize
      + ({ c.nodes n with lockRef := v }.evictable - (c.nodes n).evictable))
    (hg : g = c.protectedSize + ({ c.nodes n with lockRef := v }.guarded - (c.nodes n).guarded)) :
    Books (updateLeafStatus
      { c with
        nodes := Function.update c.nodes n { c.nodes n with lockRef := v }
        evictableSize := e
        protectedSize := g } n) l := by
  have hnS : n ∈ l.alive.erase rootNode := Finset.mem_erase.mpr ⟨hnr, hn⟩
  refine ⟨?_, ?_, ?_, nodup_updateLeafStatus hb.nodup, ?_, ?_⟩
  case refine_1 =>
    change e = ∑ m ∈ _, (Function.update c.nodes n { c.nodes n with lockRef := v } m).evictable
    rw [sum_change (f := fun m => (c.nodes m).evictable) hnS, ← hb.evictable, Function.update_self,
      he]
    intro m _ hmn
    rw [Function.update_of_ne hmn]
  case refine_2 =>
    change g = ∑ m ∈ _, (Function.update c.nodes n { c.nodes n with lockRef := v } m).guarded
    rw [sum_change (f := fun m => (c.nodes m).guarded) hnS, ← hb.guarded, Function.update_self, hg]
    intro m _ hmn
    rw [Function.update_of_ne hmn]
  case refine_3 =>
    intro m
    rw [mem_updateLeafStatus]
    dsimp only
    rw [nodes_updateLeafStatus]
    dsimp only
    split
    · next hmn =>
      subst hmn
      rw [Function.update_self]
      dsimp only
      exact ⟨fun ⟨h0, h1⟩ => ⟨hn, hnr, by omega, h1⟩, fun ⟨_, _, h0, h1⟩ => ⟨h0.le, h1⟩⟩
    · next hmn => rw [Function.update_of_ne hmn, hb.leaves]
  case refine_4 =>
    intro m hm
    rw [nodes_updateLeafStatus]
    dsimp only
    rw [Function.update_apply]
    split
    · exact hv
    · exact hb.nonneg m hm
  case refine_5 =>
    rw [nodes_updateLeafStatus]
    dsimp only
    rw [Function.update_of_ne hnr.symm]
    exact hb.root_lock

theorem incNode (hb : Books c l) (hn : n ∈ l.alive) (hnr : n ≠ rootNode) :
    Books (incNode c n) l := by
  have h0 := hb.nonneg n hn
  refine hb.relock hn hnr (v := (c.nodes n).lockRef + 1) (by omega) ?_ ?_
  · simp only [TreeNode.evictable, show (c.nodes n).lockRef + 1 ≠ 0 by omega, if_false]
    split <;> omega
  · simp only [TreeNode.guarded, show (c.nodes n).lockRef + 1 ≠ 0 by omega, if_false]
    split <;> omega

theorem decNode (hb : Books c l) (hn : n ∈ l.alive) (hnr : n ≠ rootNode)
    (hpos : 0 < (c.nodes n).lockRef) : Books (decNode c n) l := by
  refine hb.relock hn hnr (v := (c.nodes n).lockRef - 1) (by omega) ?_ ?_
  · simp only [TreeNode.evictable, show (c.nodes n).lockRef ≠ 0 by omega, if_false]
    split <;> split <;> omega
  · simp only [TreeNode.guarded, show (c.nodes n).lockRef ≠ 0 by omega, if_false]
    split <;> split <;> omega

/-- An empty cache has its books right. -/
theorem reset : Books reset Layout.empty := by
  have hempty : Layout.empty.alive.erase rootNode = ∅ := by decide
  refine ⟨?_, ?_, ?_, List.nodup_nil, ?_, rfl⟩
  · rw [hempty]
    rfl
  · rw [hempty]
    rfl
  · intro n
    refine iff_of_false (List.not_mem_nil) ?_
    rintro ⟨hn, hne, -⟩
    exact hne (Finset.mem_singleton.mp hn)
  · intro n _
    exact Int.one_nonneg

end Books

namespace Locks

variable {cfg : Config} {c : Cache} {l : Layout} {locks : List NodeId} {n m p x : NodeId} {k : ℕ}

/-- **A split keeps the locks**: the new node has been given the count of the one below it. -/
theorem split (hl : Locks c l locks) (h : Shape cfg c l) (hs : Shape.Splits cfg c l x p k) :
    Locks (Shape.splitCache cfg c x p k) (l.split c x p k) locks := by
  have hw := h.counter_notMem
  have hne : ∀ n ∈ l.alive, n ≠ c.counter := fun n hn hc => hw (hc ▸ hn)
  refine ⟨fun n hn => Finset.mem_insert_of_mem (hl.mem n hn), ?_⟩
  intro n hnew hnr
  have hold : ∀ n ∈ l.alive, (locks.countP fun m => decide (n ∈ (l.split c x p k).above m))
      = locks.countP fun m => decide (n ∈ l.above m) := by
    intro n hn
    refine List.countP_congr fun m hm => ?_
    simp only [decide_eq_true_eq]
    exact Ancestry.mem_splitAbove_old (hne m (hl.mem m hm)) (hne n hn)
  rcases Finset.mem_insert.mp hnew with rfl | hn
  · rw [Shape.Splits.nodes_new h hs]
    refine (hl.count x hs.mem hs.ne_root).trans (congrArg Nat.cast ?_)
    refine List.countP_congr fun m hm => ?_
    have hm' := hl.mem m hm
    simp only [decide_eq_true_eq]
    exact (Ancestry.mem_splitAbove_new (hne m hm')
      (fun hc => hw (h.tree.above_subset hm' hc))).symm
  · rw [hold n hn]
    by_cases hnx : n = x
    · subst hnx
      rw [Shape.Splits.nodes_child h hs]
      exact hl.count n hn hnr
    · rw [(Shape.Splits.nodes_old h hs hn hnx).2.2.2]
      exact hl.count n hn hnr

/-- **A new leaf keeps the locks.** -/
theorem addLeaf (hl : Locks c l locks) (h : Shape cfg c l) (hp : p ∈ l.alive) {f : ChildKey}
    {key : RadixKey} {value : List ℤ} :
    Locks (addLeaf c p f key value) (l.addLeaf c p key value) locks := by
  have hw := h.counter_notMem
  have hne : ∀ n ∈ l.alive, n ≠ c.counter := fun n hn hc => hw (hc ▸ hn)
  have habove : ∀ m ∈ locks, (l.addLeaf c p key value).above m = l.above m :=
    fun m hm => Function.update_of_ne (hne m (hl.mem m hm)) _ _
  refine ⟨fun n hn => Finset.mem_insert_of_mem (hl.mem n hn), ?_⟩
  intro n hnew hnr
  have hcount : (locks.countP fun m => decide (n ∈ (l.addLeaf c p key value).above m))
      = locks.countP fun m => decide (n ∈ l.above m) := by
    refine List.countP_congr fun m hm => ?_
    rw [habove m hm]
  rw [hcount]
  rcases Finset.mem_insert.mp hnew with rfl | hn
  · rw [addLeaf_new (hne p hp)]
    -- nobody has locked it yet
    have : (locks.countP fun m => decide (c.counter ∈ l.above m)) = 0 := by
      rw [List.countP_eq_zero]
      intro m hm
      simp only [decide_eq_true_eq]
      exact fun hc => hw (h.tree.above_subset (hl.mem m hm) hc)
    rw [this]
    rfl
  · rw [(addLeaf_old (hne n hn)).2.2.2]
    exact hl.count n hn hnr

/-- A node that is not locked is not above a lock. -/
theorem notMem_above (hl : Locks c l locks) (hx : x ∈ l.alive) (hxr : x ≠ rootNode)
    (hlock : (c.nodes x).lockRef = 0) : ∀ m ∈ locks, x ∉ l.above m := by
  have h0 := hl.count x hx hxr
  rw [hlock] at h0
  have h0 : (locks.countP fun m => decide (x ∈ l.above m)) = 0 := by exact_mod_cast h0.symm
  intro m hm hc
  exact List.countP_eq_zero.mp h0 m hm (decide_eq_true hc)

/-- **A leaf less keeps the locks.** -/
theorem removeLeaf (hl : Locks c l locks) (h : Shape cfg c l) {c' : Cache} (hx : x ∈ l.alive)
    (hxr : x ≠ rootNode) (hlock : (c.nodes x).lockRef = 0)
    (hsame : ∀ n, (c'.nodes n).lockRef = (c.nodes n).lockRef) :
    Locks c' (l.removeLeaf x) locks := by
  refine ⟨fun n hn => Finset.mem_erase.mpr ⟨?_, hl.mem n hn⟩, ?_⟩
  · rintro rfl
    exact hl.notMem_above hx hxr hlock n hn (h.tree.self_mem_above hx)
  · intro n hn hnr
    rw [hsame]
    exact hl.count n (Finset.mem_of_mem_erase hn) hnr

end Locks

end Radix

end HtSglang
