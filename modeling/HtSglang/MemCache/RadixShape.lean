import HtSglang.Library.Ancestry
import HtSglang.MemCache.RadixCache

/-!
# The shape of the radix tree

What makes the nodes of a cache a radix tree (`HtSglang.Radix.Shape`): the parent pointers
lead to the root, the children of a node are the nodes that point to it, each filed under
the first page of its key, and no key is empty or ends inside a page. Beside the pointers we
keep what they determine – the live nodes, the units from the root to a node, the slots
of these, and what is above a node – as a layout (`HtSglang.Radix.Layout`).

The fact that everything about matching comes from is that a position is reached in one way
(`HtSglang.Radix.Shape.mem_above_of_prefix`): when two nodes continue the same units, the one that
holds the end of them is above the other.

The three ways the tree changes keep the shape: `HtSglang.Radix.Shape.split`,
`HtSglang.Radix.Shape.addLeaf`, `HtSglang.Radix.Shape.removeLeaf`.
-/

namespace HtSglang

namespace Radix

/-- The child key a node is filed under. -/
def TreeNode.fileKey (cfg : Config) (n : TreeNode) : ChildKey :=
  RadixKey.childKeyOf n.key.extraKey (n.key.units.take cfg.pageSize)

/-- What the pointers of a cache determine. -/
structure Layout where
  /-- The nodes of the tree. -/
  alive : Finset NodeId
  /-- The units from the root to a node. -/
  path : NodeId → List LogicalUnit
  /-- A node, its parent, and so on up to the root. -/
  above : NodeId → Finset NodeId
  /-- The slots from the root to a node. -/
  slots : NodeId → List ℤ

/-- **The shape of the tree.** -/
structure Shape (cfg : Config) (c : Cache) (l : Layout) : Prop where
  /-- The parent pointers lead to the root. -/
  tree : Ancestry rootNode l.alive (fun n => (c.nodes n).parent) l.above
    (fun n => (l.path n).length)
  fresh : ∀ n ∈ l.alive, n < c.counter
  root_path : l.path rootNode = []
  /-- Keys are whole pages. -/
  key_pages : ∀ n ∈ l.alive, n ≠ rootNode →
    0 < (c.nodes n).key.len ∧ cfg.pageSize ∣ (c.nodes n).key.len
  /-- A node continues its parent. -/
  path_eq : ∀ n ∈ l.alive, n ≠ rootNode → ∀ p, (c.nodes n).parent = some p →
    l.path n = l.path p ++ (c.nodes n).key.units
  /-- Only the children of the root choose an extra key. -/
  extraKey_eq : ∀ n ∈ l.alive, n ≠ rootNode → ∀ p, (c.nodes n).parent = some p →
    p ≠ rootNode → (c.nodes p).key.extraKey = (c.nodes n).key.extraKey
  /-- A node is filed at its parent. -/
  filed : ∀ n ∈ l.alive, n ≠ rootNode → ∀ p, (c.nodes n).parent = some p →
    (c.nodes p).children.lookup ((c.nodes n).fileKey cfg) = some n
  /-- Only nodes that point to a node are filed at it. -/
  child : ∀ n ∈ l.alive, ∀ k m, (c.nodes n).children.lookup k = some m →
    m ∈ l.alive ∧ m ≠ rootNode ∧ (c.nodes m).parent = some n ∧ k = (c.nodes m).fileKey cfg

namespace Shape

variable {cfg : Config} {c : Cache} {l : Layout} {n m p x : NodeId}

section Structure

variable (h : Shape cfg c l)
include h

theorem pageSize_le (hn : n ∈ l.alive) (hne : n ≠ rootNode) :
    cfg.pageSize ≤ (c.nodes n).key.len :=
  Nat.le_of_dvd (h.key_pages n hn hne).1 (h.key_pages n hn hne).2

theorem counter_notMem : c.counter ∉ l.alive := fun hc => lt_irrefl _ (h.fresh _ hc)

/-- The child key of a node of the tree. -/
theorem childKey_eq (hn : n ∈ l.alive) (hne : n ≠ rootNode) :
    (c.nodes n).key.childKey cfg.pageSize = .ok ((c.nodes n).fileKey cfg) :=
  RadixKey.childKey_eq cfg.pos (h.pageSize_le hn hne)

theorem exists_parent (hn : n ∈ l.alive) (hne : n ≠ rootNode) :
    ∃ p ∈ l.alive, (c.nodes n).parent = some p := by
  obtain ⟨p, hp, hpar, -⟩ := h.tree.step n hn hne
  exact ⟨p, hp, hpar⟩

theorem path_isPrefix (hn : n ∈ l.alive) (hm : m ∈ l.above n) : l.path m <+: l.path n := by
  refine h.tree.induction (C := fun n => ∀ m ∈ l.above n, l.path m <+: l.path n) ?_ ?_ n hn m hm
  · intro m hm
    rw [h.tree.above_root, Finset.mem_singleton] at hm
    exact hm ▸ List.prefix_rfl
  · intro n hn p _ hne hp ih m hm
    rw [h.tree.above_eq hn hne hp, Finset.mem_insert] at hm
    rcases hm with rfl | hm
    · exact List.prefix_rfl
    · rw [h.path_eq n hn hne p hp]
      exact (ih m hm).trans (List.prefix_append _ _)

theorem dvd_length_path (hn : n ∈ l.alive) : cfg.pageSize ∣ (l.path n).length := by
  refine h.tree.induction (C := fun n => cfg.pageSize ∣ (l.path n).length) ?_ ?_ n hn
  · rw [h.root_path]
    exact dvd_zero _
  · intro n hn p _ hne hp ih
    rw [h.path_eq n hn hne p hp, List.length_append, RadixKey.length_units]
    exact dvd_add ih (h.key_pages n hn hne).2

/-- All of a path below the root is under one extra key. -/
theorem extraKey_of_mem_above (hn : n ∈ l.alive) (hm : m ∈ l.above n) (hmr : m ≠ rootNode) :
    (c.nodes m).key.extraKey = (c.nodes n).key.extraKey := by
  refine h.tree.induction (C := fun n => ∀ m ∈ l.above n, m ≠ rootNode →
    (c.nodes m).key.extraKey = (c.nodes n).key.extraKey) ?_ ?_ n hn m hm hmr
  · intro m hm hmr
    rw [h.tree.above_root, Finset.mem_singleton] at hm
    exact absurd hm hmr
  · intro n hn p hp hne hpar ih m hm hmr
    rw [h.tree.above_eq hn hne hpar, Finset.mem_insert] at hm
    rcases hm with rfl | hm
    · rfl
    · have hpr : p ≠ rootNode := by
        rintro rfl
        rw [h.tree.above_root, Finset.mem_singleton] at hm
        exact hmr hm
      rw [ih m hm hmr, h.extraKey_eq n hn hne p hpar hpr]

/-- The page of a node's key is the page of its path past its parent. -/
theorem page_eq (hn : n ∈ l.alive) (hne : n ≠ rootNode) (hp : (c.nodes n).parent = some p) :
    ((l.path n).drop (l.path p).length).take cfg.pageSize
      = (c.nodes n).key.units.take cfg.pageSize := by
  rw [h.path_eq n hn hne p hp, List.drop_left]

/-- Children of one node that continue the same units for a page are the same. -/
theorem child_unique (hn : n ∈ l.alive) (hnr : n ≠ rootNode) (hm : m ∈ l.alive)
    (hmr : m ≠ rootNode) (hnp : (c.nodes n).parent = some p) (hmp : (c.nodes m).parent = some p)
    (he : (c.nodes n).key.extraKey = (c.nodes m).key.extraKey)
    (hpage : (c.nodes n).key.units.take cfg.pageSize = (c.nodes m).key.units.take cfg.pageSize) :
    n = m := by
  have hfile : (c.nodes n).fileKey cfg = (c.nodes m).fileKey cfg := by
    rw [TreeNode.fileKey, TreeNode.fileKey, he, hpage]
  have hn' := h.filed n hn hnr p hnp
  rw [hfile, h.filed m hm hmr p hmp] at hn'
  exact (Option.some.inj hn').symm

/-- **A position is reached in one way**: a node that holds the end of some units is above
every node that continues them under the same extra key. -/
theorem mem_above_of_prefix {u : List LogicalUnit} (hn : n ∈ l.alive) (hm : m ∈ l.alive)
    (hmr : m ≠ rootNode) (he : n ≠ rootNode → (c.nodes n).key.extraKey = (c.nodes m).key.extraKey)
    (hun : u <+: l.path n) (hum : u <+: l.path m) (hdvd : cfg.pageSize ∣ u.length)
    (hlast : ∀ p, n ≠ rootNode → (c.nodes n).parent = some p → (l.path p).length < u.length) :
    n ∈ l.above m := by
  -- from the root down: the parent is above, so one of its children is, and it has our page
  refine h.tree.induction (C := fun n => ∀ u : List LogicalUnit,
    (n ≠ rootNode → (c.nodes n).key.extraKey = (c.nodes m).key.extraKey) → u <+: l.path n →
    u <+: l.path m → cfg.pageSize ∣ u.length →
    (∀ p, n ≠ rootNode → (c.nodes n).parent = some p → (l.path p).length < u.length) →
    n ∈ l.above m) ?_ ?_ n hn u he hun hum hdvd hlast
  · intro _ _ _ _ _ _
    exact h.tree.root_mem_above hm
  · intro n hn p hp hne hpar ih u he hun hum hdvd hlast
    have hlt := hlast p hne hpar
    have hpu : l.path p <+: u := by
      refine List.prefix_of_prefix_length_le ?_ hun hlt.le
      rw [h.path_eq n hn hne p hpar]
      exact List.prefix_append _ _
    have hpm : p ∈ l.above m := by
      refine ih (l.path p) (fun hpr => ?_) List.prefix_rfl (hpu.trans hum) (h.dvd_length_path hp) ?_
      · rw [h.extraKey_eq n hn hne p hpar hpr, he hne]
      · intro q hpr hq
        exact h.tree.depth_lt hp hpr hq
    have hlen := hum.length_le
    have hpne : p ≠ m := by
      rintro rfl
      omega
    obtain ⟨k, hkm, hk, hkr, hkp⟩ := h.tree.exists_child hm hpm hpne
    have hroom := add_le_of_dvd_of_lt (h.dvd_length_path hp) hdvd hlt
    have hkpage : ((l.path k).drop (l.path p).length).take cfg.pageSize
        = ((l.path m).drop (l.path p).length).take cfg.pageSize := by
      refine drop_take_eq_of_prefix List.prefix_rfl (h.path_isPrefix hm hkm) ?_
      rw [h.path_eq k hk hkr p hkp, List.length_append, RadixKey.length_units]
      exact Nat.add_le_add_left (h.pageSize_le hk hkr) _
    have hnk : n = k := by
      refine h.child_unique hn hne hk hkr hpar hkp ?_ ?_
      · rw [he hne, h.extraKey_of_mem_above hm hkm hkr]
      · rw [← h.page_eq hn hne hpar, ← h.page_eq hk hkr hkp, hkpage]
        exact drop_take_eq_of_prefix hun hum hroom
    exact hnk ▸ hkm

end Structure

end Shape

/-! ### A split -/

section Split

variable {c : Cache} {x p : NodeId} {lower upper : ChildKey} {k : ℕ}

/-- The node a split makes. -/
theorem splitAt_new (hp : p ≠ c.counter) (hx : x ≠ c.counter) :
    (splitAt c x p lower upper k).nodes c.counter =
      { children := [(lower, x)]
        parent := some p
        key := (c.nodes x).key.slice 0 k
        value := (c.nodes x).value.take k
        lockRef := (c.nodes x).lockRef } := by
  simp [splitAt, Function.update_of_ne hp.symm, Function.update_of_ne hx.symm]

/-- The node that is split. -/
theorem splitAt_child (hxp : x ≠ p) :
    (splitAt c x p lower upper k).nodes x =
      { c.nodes x with
        parent := some c.counter
        key := (c.nodes x).key.slice k (c.nodes x).key.len
        value := (c.nodes x).value.drop k } := by
  simp [splitAt, Function.update_of_ne hxp]

/-- The parent of the node that is split. -/
theorem splitAt_parent (hp : p ≠ c.counter) (hxp : x ≠ p) :
    (splitAt c x p lower upper k).nodes p =
      { c.nodes p with children := Dict.set (c.nodes p).children upper c.counter } := by
  simp [splitAt, Function.update_of_ne hp, Function.update_of_ne hxp.symm]

/-- All other nodes. -/
theorem splitAt_other {n : NodeId} (hn : n ≠ c.counter) (hx : n ≠ x) (hp : n ≠ p) :
    (splitAt c x p lower upper k).nodes n = c.nodes n := by
  simp [splitAt, Function.update_of_ne hn, Function.update_of_ne hx, Function.update_of_ne hp]

/-- The layout after a split. -/
def Layout.split (l : Layout) (c : Cache) (x p : NodeId) (k : ℕ) : Layout where
  alive := Insert.insert c.counter l.alive
  path := Function.update l.path c.counter (l.path p ++ (c.nodes x).key.units.take k)
  above := Ancestry.splitAbove l.above c.counter x p
  slots := Function.update l.slots c.counter (l.slots p ++ (c.nodes x).value.take k)

end Split

namespace Shape

variable {cfg : Config} {c : Cache} {l : Layout} {n m p x : NodeId} {k : ℕ}

/-- Where a node may be split. -/
structure Splits (cfg : Config) (c : Cache) (l : Layout) (x p : NodeId) (k : ℕ) : Prop where
  mem : x ∈ l.alive
  ne_root : x ≠ rootNode
  parent : (c.nodes x).parent = some p
  pos : 0 < k
  lt : k < (c.nodes x).key.len
  dvd : cfg.pageSize ∣ k

/-- The cache after a split, with the child keys it computes. -/
def splitCache (cfg : Config) (c : Cache) (x p : NodeId) (k : ℕ) : Cache :=
  splitAt c x p (RadixKey.childKeyOf (c.nodes x).key.extraKey
      (((c.nodes x).key.slice k (c.nodes x).key.len).units.take cfg.pageSize))
    ((c.nodes x).fileKey cfg) k

namespace Splits

theorem pageSize_le (hs : Splits cfg c l x p k) : cfg.pageSize ≤ k := Nat.le_of_dvd hs.pos hs.dvd

variable (h : Shape cfg c l) (hs : Splits cfg c l x p k)
include h hs

theorem parent_mem : p ∈ l.alive := h.tree.parent_mem hs.mem hs.ne_root hs.parent

theorem ne_parent : x ≠ p := by
  have := h.tree.depth_lt hs.mem hs.ne_root hs.parent
  rintro rfl
  exact lt_irrefl _ this

omit hs in
theorem ne_counter (hn : n ∈ l.alive) : n ≠ c.counter := fun hc => h.counter_notMem (hc ▸ hn)

/-- `_split_node` on a node of the tree. -/
theorem splitNode_eq :
    splitNode cfg c (c.nodes x).key x k = .ok (splitCache cfg c x p k, c.counter) := by
  have hlow : cfg.pageSize ≤ ((c.nodes x).key.slice k (c.nodes x).key.len).len := by
    rw [RadixKey.len_slice, min_self]
    have := hs.lt
    exact Nat.le_of_dvd (by omega) (Nat.dvd_sub (h.key_pages x hs.mem hs.ne_root).2 hs.dvd)
  rw [splitNode, RadixKey.childKey_eq cfg.pos hlow, h.childKey_eq hs.mem hs.ne_root,
    RadixKey.extraKey_slice]
  simp only [bind, Except.bind, hs.parent]
  rfl

theorem nodes_new : (splitCache cfg c x p k).nodes c.counter =
    { children := [(RadixKey.childKeyOf (c.nodes x).key.extraKey
        (((c.nodes x).key.slice k (c.nodes x).key.len).units.take cfg.pageSize), x)]
      parent := some p
      key := (c.nodes x).key.slice 0 k
      value := (c.nodes x).value.take k
      lockRef := (c.nodes x).lockRef } :=
  splitAt_new (ne_counter h (parent_mem h hs)) (ne_counter h hs.mem)

theorem nodes_child : (splitCache cfg c x p k).nodes x =
    { c.nodes x with
      parent := some c.counter
      key := (c.nodes x).key.slice k (c.nodes x).key.len
      value := (c.nodes x).value.drop k } :=
  splitAt_child (ne_parent h hs)

theorem nodes_parent : (splitCache cfg c x p k).nodes p =
    { c.nodes p with
      children := Dict.set (c.nodes p).children ((c.nodes x).fileKey cfg) c.counter } :=
  splitAt_parent (ne_counter h (parent_mem h hs)) (ne_parent h hs)

omit hs in
theorem nodes_other (hn : n ∈ l.alive) (hx : n ≠ x) (hp : n ≠ p) :
    (splitCache cfg c x p k).nodes n = c.nodes n :=
  splitAt_other (ne_counter h hn) hx hp

/-- A split leaves every old node but the one that is split as it was, children apart. -/
theorem nodes_old (hn : n ∈ l.alive) (hx : n ≠ x) :
    ((splitCache cfg c x p k).nodes n).parent = (c.nodes n).parent ∧
      ((splitCache cfg c x p k).nodes n).key = (c.nodes n).key ∧
      ((splitCache cfg c x p k).nodes n).value = (c.nodes n).value ∧
      ((splitCache cfg c x p k).nodes n).lockRef = (c.nodes n).lockRef := by
  by_cases hp : n = p
  · subst hp
    rw [nodes_parent h hs]
    exact ⟨rfl, rfl, rfl, rfl⟩
  · rw [nodes_other h hn hx hp]
    exact ⟨rfl, rfl, rfl, rfl⟩

theorem fileKey_new : ((splitCache cfg c x p k).nodes c.counter).fileKey cfg
    = (c.nodes x).fileKey cfg := by
  rw [nodes_new h hs, TreeNode.fileKey, TreeNode.fileKey, RadixKey.extraKey_slice,
    RadixKey.units_slice, List.drop_zero, List.take_take, min_eq_left hs.pageSize_le]

theorem fileKey_child : ((splitCache cfg c x p k).nodes x).fileKey cfg
    = RadixKey.childKeyOf (c.nodes x).key.extraKey
      (((c.nodes x).key.slice k (c.nodes x).key.len).units.take cfg.pageSize) := by
  rw [nodes_child h hs, TreeNode.fileKey, RadixKey.extraKey_slice]

theorem fileKey_old (hn : n ∈ l.alive) (hx : n ≠ x) :
    ((splitCache cfg c x p k).nodes n).fileKey cfg = (c.nodes n).fileKey cfg := by
  rw [TreeNode.fileKey, TreeNode.fileKey, (nodes_old h hs hn hx).2.1]

theorem extraKey_old (hn : n ∈ l.alive) :
    ((splitCache cfg c x p k).nodes n).key.extraKey = (c.nodes n).key.extraKey := by
  by_cases hx : n = x
  · subst hx
    rw [nodes_child h hs, RadixKey.extraKey_slice]
  · rw [(nodes_old h hs hn hx).2.1]

omit hs in
theorem path_old (hn : n ∈ l.alive) : (l.split c x p k).path n = l.path n := by
  have hne : n ≠ c.counter := fun hc => h.counter_notMem (hc ▸ hn)
  exact Function.update_of_ne hne _ _

omit h hs in
theorem path_new : (l.split c x p k).path c.counter = l.path p ++ (c.nodes x).key.units.take k :=
  Function.update_self _ _ _

/-- What is filed where after a split. -/
theorem lookup_parent {f : ChildKey} (hf : f ≠ (c.nodes x).fileKey cfg) :
    ((splitCache cfg c x p k).nodes p).children.lookup f = (c.nodes p).children.lookup f := by
  rw [nodes_parent h hs]
  exact Dict.lookup_set_of_ne _ _ hf

theorem lookup_old (hn : n ∈ l.alive) {f : ChildKey} (hf : n = p → f ≠ (c.nodes x).fileKey cfg) :
    ((splitCache cfg c x p k).nodes n).children.lookup f = (c.nodes n).children.lookup f := by
  by_cases hp : n = p
  · subst hp
    exact lookup_parent h hs (hf rfl)
  · by_cases hx : n = x
    · subst hx
      rw [nodes_child h hs]
    · rw [nodes_other h hn hx hp]

theorem ancestry : Ancestry rootNode (l.split c x p k).alive
    (fun n => ((splitCache cfg c x p k).nodes n).parent) (l.split c x p k).above
    (fun n => ((l.split c x p k).path n).length) := by
  refine h.tree.split hs.mem hs.ne_root hs.parent h.counter_notMem ?_ ?_ ?_ ⟨?_, ?_⟩ ?_
  · simp only [nodes_new h hs]
  · simp only [nodes_child h hs]
  · intro m hm hmx
    exact (nodes_old h hs hm hmx).1
  · have := hs.pos
    have := hs.lt
    simp only [path_new, List.length_append, List.length_take, RadixKey.length_units]
    omega
  · have := hs.lt
    simp only [path_new, List.length_append, List.length_take, RadixKey.length_units,
      h.path_eq x hs.mem hs.ne_root p hs.parent]
    omega
  · intro m hm
    simp only [path_old h hm]

/-- **The edges after a split**: the new node is below the parent, the node that is split below
the new one, and every other node where it was. -/
theorem edge_cases {q : NodeId} (hn : n ∈ (l.split c x p k).alive)
    (hq : ((splitCache cfg c x p k).nodes n).parent = some q) :
    n = c.counter ∧ q = p ∨ n = x ∧ q = c.counter ∨
      n ∈ l.alive ∧ n ≠ x ∧ (c.nodes n).parent = some q := by
  rcases Finset.mem_insert.mp hn with rfl | hn
  · rw [nodes_new h hs] at hq
    exact .inl ⟨rfl, (Option.some.inj hq).symm⟩
  · by_cases hx : n = x
    · subst hx
      rw [nodes_child h hs] at hq
      exact .inr (.inl ⟨rfl, (Option.some.inj hq).symm⟩)
    · rw [(nodes_old h hs hn hx).1] at hq
      exact .inr (.inr ⟨hn, hx, hq⟩)

theorem key_pages (hn : n ∈ (l.split c x p k).alive) (hne : n ≠ rootNode) :
    0 < ((splitCache cfg c x p k).nodes n).key.len ∧
      cfg.pageSize ∣ ((splitCache cfg c x p k).nodes n).key.len := by
  have hlt := hs.lt
  rcases Finset.mem_insert.mp hn with rfl | hn
  · rw [nodes_new h hs, RadixKey.len_slice, Nat.sub_zero, min_eq_left hlt.le]
    exact ⟨hs.pos, hs.dvd⟩
  · by_cases hx : n = x
    · subst hx
      rw [nodes_child h hs, RadixKey.len_slice, min_self]
      exact ⟨by omega, Nat.dvd_sub (h.key_pages n hs.mem hne).2 hs.dvd⟩
    · rw [(nodes_old h hs hn hx).2.1]
      exact h.key_pages n hn hne

theorem path_eq {q : NodeId} (hn : n ∈ (l.split c x p k).alive) (hne : n ≠ rootNode)
    (hq : ((splitCache cfg c x p k).nodes n).parent = some q) :
    (l.split c x p k).path n
      = (l.split c x p k).path q ++ ((splitCache cfg c x p k).nodes n).key.units := by
  rcases edge_cases h hs hn hq with ⟨rfl, rfl⟩ | ⟨rfl, rfl⟩ | ⟨hn, hx, hq⟩
  · rw [path_new, path_old h (parent_mem h hs), nodes_new h hs, RadixKey.units_slice,
      List.drop_zero]
  · rw [path_old h hs.mem, path_new, nodes_child h hs, RadixKey.units_slice,
      ← RadixKey.length_units, List.take_length, List.append_assoc, List.take_append_drop,
      h.path_eq n hs.mem hne p hs.parent]
  · rw [path_old h hn, path_old h (h.tree.parent_mem hn hne hq), (nodes_old h hs hn hx).2.1,
      h.path_eq n hn hne q hq]

theorem extraKey_eq {q : NodeId} (hn : n ∈ (l.split c x p k).alive) (hne : n ≠ rootNode)
    (hq : ((splitCache cfg c x p k).nodes n).parent = some q) (hqr : q ≠ rootNode) :
    ((splitCache cfg c x p k).nodes q).key.extraKey
      = ((splitCache cfg c x p k).nodes n).key.extraKey := by
  rcases edge_cases h hs hn hq with ⟨rfl, rfl⟩ | ⟨rfl, rfl⟩ | ⟨hn, hx, hq⟩
  · rw [extraKey_old h hs (parent_mem h hs), nodes_new h hs, RadixKey.extraKey_slice]
    exact h.extraKey_eq x hs.mem hs.ne_root q hs.parent hqr
  · rw [extraKey_old h hs hs.mem, nodes_new h hs, RadixKey.extraKey_slice]
  · rw [extraKey_old h hs hn, extraKey_old h hs (h.tree.parent_mem hn hne hq)]
    exact h.extraKey_eq n hn hne q hq hqr

theorem filed {q : NodeId} (hn : n ∈ (l.split c x p k).alive) (hne : n ≠ rootNode)
    (hq : ((splitCache cfg c x p k).nodes n).parent = some q) :
    ((splitCache cfg c x p k).nodes q).children.lookup
      (((splitCache cfg c x p k).nodes n).fileKey cfg) = some n := by
  rcases edge_cases h hs hn hq with ⟨rfl, rfl⟩ | ⟨rfl, rfl⟩ | ⟨hn, hx, hq⟩
  · rw [fileKey_new h hs, nodes_parent h hs]
    exact Dict.lookup_set_self _ _ _
  · rw [fileKey_child h hs, nodes_new h hs, Dict.lookup_cons, if_pos rfl]
  · have hfiled := h.filed n hn hne q hq
    rw [fileKey_old h hs hn hx, lookup_old h hs (h.tree.parent_mem hn hne hq), hfiled]
    rintro rfl hf
    -- the place of the node that is split is its own
    rw [hf, h.filed x hs.mem hs.ne_root q hs.parent] at hfiled
    exact hx (Option.some.inj hfiled).symm

theorem child {f : ChildKey} (hn : n ∈ (l.split c x p k).alive)
    (hf : ((splitCache cfg c x p k).nodes n).children.lookup f = some m) :
    m ∈ (l.split c x p k).alive ∧ m ≠ rootNode ∧
      ((splitCache cfg c x p k).nodes m).parent = some n ∧
      f = ((splitCache cfg c x p k).nodes m).fileKey cfg := by
  rcases Finset.mem_insert.mp hn with rfl | hn
  · rw [nodes_new h hs, Dict.lookup_cons] at hf
    split at hf
    · next hfk =>
      obtain rfl : x = m := Option.some.inj hf
      refine ⟨Finset.mem_insert_of_mem hs.mem, hs.ne_root, ?_, ?_⟩
      · rw [nodes_child h hs]
      · rw [fileKey_child h hs, hfk]
    · cases hf
  · by_cases hplace : n = p ∧ f = (c.nodes x).fileKey cfg
    · obtain ⟨rfl, rfl⟩ := hplace
      rw [nodes_parent h hs, Dict.lookup_set_self] at hf
      obtain rfl : c.counter = m := Option.some.inj hf
      refine ⟨Finset.mem_insert_self _ _, (ne_counter h h.tree.root_mem).symm, ?_, ?_⟩
      · rw [nodes_new h hs]
      · rw [fileKey_new h hs]
    · rw [lookup_old h hs hn (fun hp hfx => hplace ⟨hp, hfx⟩)] at hf
      obtain ⟨hm, hmr, hmp, hmf⟩ := h.child n hn f m hf
      have hmx : m ≠ x := by
        rintro rfl
        rw [hs.parent] at hmp
        exact hplace ⟨(Option.some.inj hmp).symm, hmf⟩
      refine ⟨Finset.mem_insert_of_mem hm, hmr, ?_, ?_⟩
      · rw [(nodes_old h hs hm hmx).1, hmp]
      · rw [fileKey_old h hs hm hmx, hmf]

end Splits

/-- **A split keeps the shape.** -/
theorem split (h : Shape cfg c l) (hs : Splits cfg c l x p k) :
    Shape cfg (splitCache cfg c x p k) (l.split c x p k) where
  tree := Splits.ancestry h hs
  fresh n hn := by
    change n < c.counter + 1
    rcases Finset.mem_insert.mp hn with rfl | hn
    · exact Nat.lt_succ_self _
    · exact Nat.lt_succ_of_lt (h.fresh n hn)
  root_path := by rw [Splits.path_old h h.tree.root_mem, h.root_path]
  key_pages _ hn := Splits.key_pages h hs hn
  path_eq _ hn hne _ := Splits.path_eq h hs hn hne
  extraKey_eq _ hn hne _ := Splits.extraKey_eq h hs hn hne
  filed _ hn hne _ := Splits.filed h hs hn hne
  child _ hn _ _ := Splits.child h hs hn

end Shape

/-! ### A new leaf -/

section AddLeaf

variable {c : Cache} {p : NodeId} {f : ChildKey} {key : RadixKey} {value : List ℤ}

@[simp] theorem nodes_updateLeafStatus (c : Cache) (n : NodeId) :
    (updateLeafStatus c n).nodes = c.nodes := rfl

@[simp] theorem counter_addLeaf : (addLeaf c p f key value).counter = c.counter + 1 := rfl

/-- The new leaf. -/
theorem addLeaf_new (hp : p ≠ c.counter) :
    (addLeaf c p f key value).nodes c.counter =
      { children := [], parent := some p, key := key, value := value, lockRef := 0 } := by
  simp [addLeaf, Function.update_of_ne hp.symm]

/-- Its parent. -/
theorem addLeaf_parent (hp : p ≠ c.counter) :
    (addLeaf c p f key value).nodes p =
      { c.nodes p with children := Dict.set (c.nodes p).children f c.counter } := by
  simp [addLeaf, Function.update_of_ne hp]

/-- All other nodes. -/
theorem addLeaf_other {n : NodeId} (hn : n ≠ c.counter) (hp : n ≠ p) :
    (addLeaf c p f key value).nodes n = c.nodes n := by
  simp [addLeaf, Function.update_of_ne hn, Function.update_of_ne hp]

/-- A new leaf leaves every old node as it was, children apart. -/
theorem addLeaf_old {n : NodeId} (hn : n ≠ c.counter) :
    ((addLeaf c p f key value).nodes n).parent = (c.nodes n).parent ∧
      ((addLeaf c p f key value).nodes n).key = (c.nodes n).key ∧
      ((addLeaf c p f key value).nodes n).value = (c.nodes n).value ∧
      ((addLeaf c p f key value).nodes n).lockRef = (c.nodes n).lockRef := by
  by_cases hp : n = p
  · subst hp
    rw [addLeaf_parent hn]
    exact ⟨rfl, rfl, rfl, rfl⟩
  · rw [addLeaf_other hn hp]
    exact ⟨rfl, rfl, rfl, rfl⟩

/-- The layout with a new leaf. -/
def Layout.addLeaf (l : Layout) (c : Cache) (p : NodeId) (key : RadixKey) (value : List ℤ) :
    Layout where
  alive := Insert.insert c.counter l.alive
  path := Function.update l.path c.counter (l.path p ++ key.units)
  above := Function.update l.above c.counter (Insert.insert c.counter (l.above p))
  slots := Function.update l.slots c.counter (l.slots p ++ value)

/-- The layout without a leaf. -/
def Layout.removeLeaf (l : Layout) (x : NodeId) : Layout :=
  { l with alive := l.alive.erase x }

end AddLeaf

namespace Shape

variable {cfg : Config} {c : Cache} {l : Layout} {n m p x : NodeId}

/-- Where a leaf may be added. -/
structure Attaches (cfg : Config) (c : Cache) (l : Layout) (p : NodeId) (key : RadixKey) :
    Prop where
  mem : p ∈ l.alive
  pos : 0 < key.len
  dvd : cfg.pageSize ∣ key.len
  extraKey : p ≠ rootNode → (c.nodes p).key.extraKey = key.extraKey
  /-- The place is empty. -/
  vacant : (c.nodes p).children.lookup
    (RadixKey.childKeyOf key.extraKey (key.units.take cfg.pageSize)) = none

/-- **A new leaf keeps the shape.** -/
theorem addLeaf (h : Shape cfg c l) {key : RadixKey} (ha : Attaches cfg c l p key)
    (value : List ℤ) :
    Shape cfg (addLeaf c p (RadixKey.childKeyOf key.extraKey (key.units.take cfg.pageSize)) key
      value) (l.addLeaf c p key value) := by
  have hne : ∀ n ∈ l.alive, n ≠ c.counter := fun n hn hc => h.counter_notMem (hc ▸ hn)
  have hp := hne p ha.mem
  have hpath : ∀ n ∈ l.alive, (l.addLeaf c p key value).path n = l.path n :=
    fun n hn => Function.update_of_ne (hne n hn) _ _
  have hpathnew : (l.addLeaf c p key value).path c.counter = l.path p ++ key.units :=
    Function.update_self _ _ _
  refine ⟨?_, ?_, ?_, ?_, ?_, ?_, ?_, ?_⟩
  case refine_1 =>
    refine h.tree.addLeaf ha.mem h.counter_notMem ?_ (Function.update_self _ _ _) ?_ ?_
    · simp only [addLeaf_new hp]
    · have := ha.pos
      simp only [hpathnew, List.length_append, RadixKey.length_units]
      omega
    · intro m hm
      refine ⟨(addLeaf_old (hne m hm)).1, Function.update_of_ne (hne m hm) _ _, ?_⟩
      simp only [hpath m hm]
  case refine_2 =>
    intro n hnew
    rw [counter_addLeaf]
    rcases Finset.mem_insert.mp hnew with rfl | hn
    · exact Nat.lt_succ_self _
    · exact Nat.lt_succ_of_lt (h.fresh n hn)
  case refine_3 => rw [hpath _ h.tree.root_mem, h.root_path]
  case refine_4 =>
    intro n hnew hnr
    rcases Finset.mem_insert.mp hnew with rfl | hn
    · rw [addLeaf_new hp]
      exact ⟨ha.pos, ha.dvd⟩
    · rw [(addLeaf_old (hne n hn)).2.1]
      exact h.key_pages n hn hnr
  case refine_5 =>
    intro n hnew hnr q hq
    rcases Finset.mem_insert.mp hnew with rfl | hn
    · rw [addLeaf_new hp] at hq ⊢
      obtain rfl : p = q := Option.some.inj hq
      rw [hpathnew, hpath p ha.mem]
    · rw [(addLeaf_old (hne n hn)).1] at hq
      rw [hpath n hn, hpath q (h.tree.parent_mem hn hnr hq), (addLeaf_old (hne n hn)).2.1,
        h.path_eq n hn hnr q hq]
  case refine_6 =>
    intro n hnew hnr q hq hqr
    rcases Finset.mem_insert.mp hnew with rfl | hn
    · rw [addLeaf_new hp] at hq ⊢
      obtain rfl : p = q := Option.some.inj hq
      rw [(addLeaf_old hp).2.1]
      exact ha.extraKey hqr
    · rw [(addLeaf_old (hne n hn)).1] at hq
      rw [(addLeaf_old (hne n hn)).2.1, (addLeaf_old (hne q (h.tree.parent_mem hn hnr hq))).2.1]
      exact h.extraKey_eq n hn hnr q hq hqr
  case refine_7 =>
    intro n hnew hnr q hq
    rcases Finset.mem_insert.mp hnew with rfl | hn
    · rw [addLeaf_new hp] at hq ⊢
      obtain rfl : p = q := Option.some.inj hq
      rw [addLeaf_parent hp]
      exact Dict.lookup_set_self _ _ _
    · rw [(addLeaf_old (hne n hn)).1] at hq
      have hfiled := h.filed n hn hnr q hq
      have hq' := hne q (h.tree.parent_mem hn hnr hq)
      rw [TreeNode.fileKey, (addLeaf_old (hne n hn)).2.1, ← TreeNode.fileKey]
      by_cases hqp : q = p
      · subst hqp
        rw [addLeaf_parent hq', Dict.lookup_set_of_ne, hfiled]
        rintro hf
        rw [hf, ha.vacant] at hfiled
        cases hfiled
      · rw [addLeaf_other hq' hqp, hfiled]
  case refine_8 =>
    intro n hnew g m hg
    rcases Finset.mem_insert.mp hnew with rfl | hn
    · rw [addLeaf_new hp] at hg
      cases hg
    · by_cases hplace : n = p ∧ g = RadixKey.childKeyOf key.extraKey (key.units.take cfg.pageSize)
      · obtain ⟨rfl, rfl⟩ := hplace
        rw [addLeaf_parent hp, Dict.lookup_set_self] at hg
        obtain rfl : c.counter = m := Option.some.inj hg
        refine ⟨Finset.mem_insert_self _ _, (hne _ h.tree.root_mem).symm, ?_, ?_⟩
        · rw [addLeaf_new hp]
        · rw [addLeaf_new hp, TreeNode.fileKey]
      · have hold : (c.nodes n).children.lookup g = some m := by
          by_cases hnp : n = p
          · subst hnp
            rwa [addLeaf_parent hp, Dict.lookup_set_of_ne _ _ (fun hc => hplace ⟨rfl, hc⟩)] at hg
          · rwa [addLeaf_other (hne n hn) hnp] at hg
        obtain ⟨hm, hmr, hmp, hmf⟩ := h.child n hn g m hold
        refine ⟨Finset.mem_insert_of_mem hm, hmr, ?_, ?_⟩
        · rw [(addLeaf_old (hne m hm)).1, hmp]
        · rw [hmf, TreeNode.fileKey, TreeNode.fileKey, (addLeaf_old (hne m hm)).2.1]

/-! ### A leaf less -/

/-- A node without children has no node below it. -/
theorem parent_ne_of_leaf (h : Shape cfg c l) (hleaf : (c.nodes x).children = []) :
    ∀ m ∈ l.alive, m ≠ rootNode → (c.nodes m).parent ≠ some x := by
  intro m hm hmr hp
  have := h.filed m hm hmr x hp
  rw [hleaf] at this
  cases this

/-- **A leaf less keeps the shape**: the leaf is no longer filed at its parent, and nothing
else about the nodes of the tree changed. -/
theorem removeLeaf (h : Shape cfg c l) {c' : Cache} (hx : x ∈ l.alive) (hxr : x ≠ rootNode)
    (hp : (c.nodes x).parent = some p) (hleaf : (c.nodes x).children = [])
    (hcounter : c'.counter = c.counter)
    (hnodes : c'.nodes = Function.update c.nodes p
      { c.nodes p with children := Dict.erase (c.nodes p).children ((c.nodes x).fileKey cfg) }) :
    Shape cfg c' (l.removeLeaf x) := by
  have hkey : ∀ n, (c'.nodes n).key = (c.nodes n).key := by
    intro n
    rw [hnodes, Function.update_apply]
    split
    · next hc => rw [hc]
    · rfl
  have hparent : ∀ n, (c'.nodes n).parent = (c.nodes n).parent := by
    intro n
    rw [hnodes, Function.update_apply]
    split
    · next hc => rw [hc]
    · rfl
  have hfile : ∀ n, (c'.nodes n).fileKey cfg = (c.nodes n).fileKey cfg := by
    intro n
    rw [TreeNode.fileKey, TreeNode.fileKey, hkey]
  have hlookup : ∀ n f, ¬(n = p ∧ f = (c.nodes x).fileKey cfg) →
      (c'.nodes n).children.lookup f = (c.nodes n).children.lookup f := by
    intro n f hnf
    rw [hnodes, Function.update_apply]
    split
    · next hc =>
      subst hc
      exact Dict.lookup_erase_of_ne _ (fun hf => hnf ⟨rfl, hf⟩)
    · rfl
  have hmem : ∀ {n}, n ∈ (l.removeLeaf x).alive → n ∈ l.alive := fun hn =>
    Finset.mem_of_mem_erase hn
  have hnx : ∀ {n}, n ∈ (l.removeLeaf x).alive → n ≠ x := fun hn => Finset.ne_of_mem_erase hn
  refine ⟨?_, ?_, h.root_path, ?_, ?_, ?_, ?_, ?_⟩
  · exact (h.tree.removeLeaf hxr (h.parent_ne_of_leaf hleaf)).congr_parent fun n _ => hparent n
  · intro n hn
    rw [hcounter]
    exact h.fresh n (hmem hn)
  · intro n hn hnr
    rw [hkey]
    exact h.key_pages n (hmem hn) hnr
  · intro n hn hnr q hq
    rw [hparent] at hq
    rw [hkey]
    exact h.path_eq n (hmem hn) hnr q hq
  · intro n hn hnr q hq hqr
    rw [hparent] at hq
    rw [hkey, hkey]
    exact h.extraKey_eq n (hmem hn) hnr q hq hqr
  · intro n hn hnr q hq
    rw [hparent] at hq
    have hfiled := h.filed n (hmem hn) hnr q hq
    rw [hfile, hlookup, hfiled]
    rintro ⟨rfl, hf⟩
    rw [hf, h.filed x hx hxr q hp] at hfiled
    exact hnx hn (Option.some.inj hfiled).symm
  · intro n hn f m hf
    by_cases hplace : n = p ∧ f = (c.nodes x).fileKey cfg
    · obtain ⟨rfl, rfl⟩ := hplace
      rw [hnodes, Function.update_self, Dict.lookup_erase_self] at hf
      cases hf
    · rw [hlookup n f hplace] at hf
      obtain ⟨hm, hmr, hmp, hmf⟩ := h.child n (hmem hn) f m hf
      refine ⟨Finset.mem_erase.mpr ⟨?_, hm⟩, hmr, (hparent m).trans hmp, hmf.trans (hfile m).symm⟩
      rintro rfl
      rw [hp] at hmp
      exact hplace ⟨(Option.some.inj hmp).symm, hmf⟩

/-- The shape is about pointers, keys and children only. -/
theorem congr (h : Shape cfg c l) {c' : Cache} (hcounter : c'.counter = c.counter)
    (hparent : ∀ n, (c'.nodes n).parent = (c.nodes n).parent)
    (hkey : ∀ n, (c'.nodes n).key = (c.nodes n).key)
    (hchildren : ∀ n, (c'.nodes n).children = (c.nodes n).children) : Shape cfg c' l := by
  refine ⟨h.tree.congr_parent fun n _ => hparent n, ?_, h.root_path, ?_, ?_, ?_, ?_, ?_⟩
  all_goals simp only [hcounter, hparent, hkey, hchildren, TreeNode.fileKey]
  · exact h.fresh
  · exact h.key_pages
  · exact h.path_eq
  · exact h.extraKey_eq
  · exact h.filed
  · exact h.child

end Shape

/-- The layout of an empty cache. -/
def Layout.empty : Layout where
  alive := {rootNode}
  path := fun _ => []
  above := fun _ => {rootNode}
  slots := fun _ => []

/-- **An empty cache has the shape.** -/
theorem Shape.reset (cfg : Config) : Shape cfg reset Layout.empty := by
  have hroot : ∀ {n : NodeId}, n ∈ Layout.empty.alive → n = rootNode := Finset.mem_singleton.mp
  refine ⟨⟨Finset.mem_singleton_self _, rfl, ?_⟩, ?_, rfl, ?_, ?_, ?_, ?_, ?_⟩
  · intro n hn hne
    exact absurd (hroot hn) hne
  · intro n hn
    rw [hroot hn]
    exact Nat.one_pos
  · intro n hn hne
    exact absurd (hroot hn) hne
  · intro n hn hne
    exact absurd (hroot hn) hne
  · intro n hn hne
    exact absurd (hroot hn) hne
  · intro n hn hne
    exact absurd (hroot hn) hne
  · intro n _ f m hf
    cases hf

end Radix

end HtSglang
