import Mathlib
import HtSglang.Library.Dict
import HtSglang.Library.Loop

/-!
# The n-gram trie in its node pool

The n-gram speculator keeps the token windows it has seen in a trie whose nodes come from a
pool of fixed size. `HtSglang.NgramTrie.insert` walks every suffix of the inserted tokens, cut
to the trie's depth, down from the root; when the pool could run dry
`HtSglang.NgramTrie.squeeze` first takes nodes back from the tail of one list of all nodes,
the global least-recently-used list, without looking at the tree.

Nodes are addresses `0 … capacity - 1`. The lists the source splices through stored iterators
hold each node once, so a splice is an `erase` and a `cons` here; `sorted_children` is the list
its comparator orders. Reading the back of an empty list or taking a node from an empty pool
has no meaning in the source and is the error `undefined`. Frequencies are 32-bit integers
that wrap; versions and the epoch are 64-bit counters, unbounded here, and
`HtSglang.NgramTrie.InRange` says that none has left its range.

## What the structure rests on

`HtSglang.NgramTrie.Shape` is the invariant: free and listed nodes share out the pool, the
child tables and the parent fields say the same, and in the global list no node stands behind
one of its children. The last part is what makes the tail of the list a leaf, so that taking
it back never fails. It is kept by one token's step of a walk, by taking back one node and by
the move of a whole path to the front – not by moving one node of it.
-/

namespace HtSglang

namespace NgramTrie

/-! ### The nodes and the pool -/

/-- A node: its children by token, its own token and parent, its children by recency and by
frequency, its frequency and the generation of its address. -/
structure TrieNode where
  child : List (ℤ × ℕ) := []
  token : ℤ := 0
  parent : ℕ := 0
  lru : List ℕ := []
  freq : ℤ := 0
  version : ℕ := 1
  sortedChildren : List ℕ := []

/-- What a call can throw, and `undefined` where the source has no behaviour. -/
inductive TrieError
  | insufficientNodes
  | stillHasChildren
  | undefined
  deriving DecidableEq

/-- The trie: the nodes by address, the free ones (the next to be handed out first), the
global recency list, the root and the epoch. -/
structure Trie where
  nodes : ℕ → TrieNode
  pool : List ℕ
  globalLru : List ℕ
  root : ℕ
  epoch : ℕ

namespace Trie

/-- A node written in place. -/
def modify (s : Trie) (n : ℕ) (f : TrieNode → TrieNode) : Trie :=
  { s with nodes := Function.update s.nodes n (f (s.nodes n)) }

/-- The value `CompareByFreq` orders by: the larger frequency first, then the smaller token,
then the smaller address. -/
def key (s : Trie) (n : ℕ) : ℤ ×ₗ ℤ ×ₗ ℕ :=
  toLex (-(s.nodes n).freq, toLex ((s.nodes n).token, n))

/-- `CompareByFreq`. -/
def Before (s : Trie) (a b : ℕ) : Prop := s.key a < s.key b

instance (s : Trie) : DecidableRel s.Before := fun _ _ => inferInstanceAs (Decidable (_ < _))

/-- `sorted_children.insert(node)`. -/
def insertSorted (s : Trie) (n : ℕ) (l : List ℕ) : List ℕ := l.orderedInsert s.Before n

/-- The nodes of the tree: the root and the listed ones. -/
def live (s : Trie) : List ℕ := s.root :: s.globalLru

/-- The address reached from a node by a string of tokens. -/
def locate (s : Trie) : List ℤ → ℕ → Option ℕ
  | [], cursor => some cursor
  | token :: rest, cursor => ((s.nodes cursor).child.lookup token).bind (s.locate rest)

end Trie

/-- The value a 32-bit integer takes. -/
def int32 (x : ℤ) : ℤ := (x + 2 ^ 31) % 2 ^ 32 - 2 ^ 31

/-- `getNode`: the next free address, its node made new but for the version. -/
def getNode (s : Trie) : Except TrieError (ℕ × Trie) :=
  match s.pool with
  | [] => .error .undefined
  | n :: pool =>
    .ok (n, { s.modify n fun v => { version := v.version } with pool := pool })

/-- The tail the constructor and `reset` share: every address is free, in order, and the last
one becomes the root. -/
def refill (capacity : ℕ) (nodes : ℕ → TrieNode) (epoch : ℕ) : Except TrieError Trie := do
  let (root, s) ← getNode ⟨nodes, (List.range capacity).reverse, [], 0, epoch⟩
  .ok { s with root := root }

/-- The constructor. -/
def Trie.new (capacity : ℕ) : Except TrieError Trie := refill capacity (fun _ => {}) 1

/-- `reset`. The nodes keep what they hold; they are made new when they are handed out. -/
def reset (capacity : ℕ) (s : Trie) : Except TrieError Trie :=
  refill capacity s.nodes (s.epoch + 1)

/-! ### Taking nodes back -/

/-- The writes of a round of `squeeze`: the tail `last` of the global list is unlinked from its
parent, retired and freed. -/
def pruned (s : Trie) (last : ℕ) : Trie :=
  let t := s.modify (s.nodes last).parent fun p =>
    { p with
      lru := p.lru.erase last
      sortedChildren := p.sortedChildren.erase last
      child := Dict.erase p.child (s.nodes last).token }
  let t := t.modify last fun v => { v with version := v.version + 1 }
  { t with globalLru := s.globalLru.dropLast, pool := last :: s.pool }

/-- One round of `squeeze`. -/
def release (s : Trie) : Except TrieError Trie :=
  match s.globalLru.getLast? with
  | none => .error .undefined
  | some last =>
    if (s.nodes last).child ≠ [] then .error .stillHasChildren else .ok (pruned s last)

/-- The loop of `squeeze`. -/
def releaseAll : ℕ → Trie → Except TrieError Trie
  | 0, s => .ok s
  | count + 1, s => release s >>= releaseAll count

/-- `squeeze`. -/
def squeeze (capacity : ℕ) (s : Trie) (count : ℕ) : Except TrieError Trie :=
  if capacity < s.pool.length + count then .error .insufficientNodes else releaseAll count s

/-! ### Inserting -/

/-- The writes of `insert` that put a node below the cursor. -/
def link (s : Trie) (cursor : ℕ) (token : ℤ) (node : ℕ) : Trie :=
  let s := s.modify cursor fun c =>
    { c with child := Dict.set c.child token node, lru := node :: c.lru }
  let s := { s with globalLru := s.globalLru ++ [node] }
  let s := s.modify node fun v => { v with token := token, parent := cursor, freq := 1 }
  s.modify cursor fun c => { c with sortedChildren := s.insertSorted node c.sortedChildren }

/-- The branch of `insert` for a token the cursor has no child for. -/
def extend (s : Trie) (cursor : ℕ) (token : ℤ) : Except TrieError (ℕ × Trie) := do
  let (node, s) ← getNode s
  .ok (node, link s cursor token node)

/-- The branch of `insert` for a token the cursor has a child for. -/
def touch (s : Trie) (cursor node : ℕ) : Trie :=
  let s := s.modify cursor fun c => { c with sortedChildren := c.sortedChildren.erase node }
  let s := s.modify node fun v => { v with freq := int32 (v.freq + 1) }
  s.modify cursor fun c =>
    { c with
      sortedChildren := s.insertSorted node c.sortedChildren
      lru := node :: c.lru.erase node }

/-- One token of the walk: the node it leads to. -/
def visit (s : Trie) (cursor : ℕ) (token : ℤ) : Except TrieError (ℕ × Trie) :=
  match (s.nodes cursor).child.lookup token with
  | none => extend s cursor token
  | some node => .ok (node, touch s cursor node)

/-- The walk of one suffix, with the path it takes. -/
def descend : List ℤ → ℕ → Trie → Except TrieError (List ℕ × Trie)
  | [], _, s => .ok ([], s)
  | token :: rest, cursor, s => do
    let (node, s) ← visit s cursor token
    let (path, s) ← descend rest node s
    .ok (node :: path, s)

/-- The splices after a walk, the deepest node of the path first. -/
def toFront (path : List ℕ) (lru : List ℕ) : List ℕ :=
  path.foldr (fun n l => n :: l.erase n) lru

/-- The room made before a walk: as if every token of it needed a new node. -/
def makeRoom (capacity : ℕ) (s : Trie) (needed : ℕ) : Except TrieError Trie :=
  if s.pool.length < needed then squeeze capacity s (needed - s.pool.length) else .ok s

/-- One round of the loop of `insert`. -/
def insertSuffix (capacity : ℕ) (s : Trie) (tokens : List ℤ) : Except TrieError Trie := do
  let s ← makeRoom capacity s tokens.length
  let (path, s) ← descend tokens s.root s
  .ok { s with globalLru := toFront path s.globalLru }

/-- The non-empty suffixes of the tokens, each cut to the depth of the trie. -/
def suffixes (maxDepth : ℕ) (tokens : List ℤ) : List (List ℤ) :=
  tokens.tails.dropLast.map (List.take maxDepth)

/-- The loop of `insert`: the trie it leaves and what it threw. The only throw that leaves a
trie behind, for want of nodes, comes before the round has changed anything. -/
def insertAll (capacity : ℕ) : List (List ℤ) → Trie → Trie × Option TrieError
  | [], s => (s, none)
  | tokens :: rest, s =>
    match insertSuffix capacity s tokens with
    | .error e => (s, some e)
    | .ok s => insertAll capacity rest s

/-- `insert`. -/
def insert (capacity maxDepth : ℕ) (s : Trie) (tokens : List ℤ) : Trie × Option TrieError :=
  insertAll capacity (suffixes maxDepth tokens) s

/-! ### What the node writes change -/

section Fields

variable {s t : Trie} {c n m : ℕ}

theorem modify_nodes (f : TrieNode → TrieNode) :
    (s.modify n f).nodes m = if m = n then f (s.nodes n) else s.nodes m :=
  Function.update_apply _ _ _ _

/-- A write that keeps a field of the node it writes keeps it everywhere. -/
theorem modify_field {α : Type*} (g : TrieNode → α) {f : TrieNode → TrieNode}
    (hf : ∀ v, g (f v) = g v) (m : ℕ) : g ((s.modify n f).nodes m) = g (s.nodes m) := by
  rw [modify_nodes]
  split_ifs with h
  · rw [hf, h]
  · rfl

/-- A touch keeps every field but the frequency and the two orders of the children. -/
theorem touch_field {α : Type*} (g : TrieNode → α)
    (hl : ∀ v l, g { v with sortedChildren := l } = g v)
    (hr : ∀ v l l', g { v with sortedChildren := l, lru := l' } = g v)
    (hf : ∀ v x, g { v with freq := x } = g v) : g ((touch s c n).nodes m) = g (s.nodes m) :=
  ((modify_field g (fun v => hr v _ _) m).trans (modify_field g (fun v => hf v _) m)).trans
    (modify_field g (fun v => hl v _) m)

@[simp] theorem touch_child : ((touch s c n).nodes m).child = (s.nodes m).child :=
  touch_field TrieNode.child (fun _ _ => rfl) (fun _ _ _ => rfl) (fun _ _ => rfl)

@[simp] theorem touch_parent : ((touch s c n).nodes m).parent = (s.nodes m).parent :=
  touch_field TrieNode.parent (fun _ _ => rfl) (fun _ _ _ => rfl) (fun _ _ => rfl)

@[simp] theorem touch_token : ((touch s c n).nodes m).token = (s.nodes m).token :=
  touch_field TrieNode.token (fun _ _ => rfl) (fun _ _ _ => rfl) (fun _ _ => rfl)

@[simp] theorem touch_version : ((touch s c n).nodes m).version = (s.nodes m).version :=
  touch_field TrieNode.version (fun _ _ => rfl) (fun _ _ _ => rfl) (fun _ _ => rfl)

theorem touch_freq : ((touch s c n).nodes m).freq
    = if m = n then int32 ((s.nodes n).freq + 1) else (s.nodes m).freq := by
  simp only [touch, modify_nodes]
  grind

theorem touch_lru (hne : c ≠ n) : ((touch s c n).nodes m).lru
    = if m = c then n :: (s.nodes c).lru.erase n else (s.nodes m).lru := by
  simp only [touch, modify_nodes]
  grind

/-- The comparator reads frequencies and tokens only. -/
theorem before_congr (hf : ∀ v, (t.nodes v).freq = (s.nodes v).freq)
    (ht : ∀ v, (t.nodes v).token = (s.nodes v).token) : t.Before = s.Before := by
  funext a b
  simp only [Trie.Before, Trie.key, hf, ht]

theorem insertSorted_congr (hf : ∀ v, (t.nodes v).freq = (s.nodes v).freq)
    (ht : ∀ v, (t.nodes v).token = (s.nodes v).token) (l : List ℕ) :
    t.insertSorted n l = s.insertSorted n l := by
  simp only [Trie.insertSorted]
  congr 1
  exact before_congr hf ht

/-- The child is put back where the comparator of the new frequencies wants it. -/
theorem touch_sorted (hne : c ≠ n) : ((touch s c n).nodes m).sortedChildren
    = if m = c then (touch s c n).insertSorted n ((s.nodes c).sortedChildren.erase n)
      else (s.nodes m).sortedChildren := by
  split_ifs with hm
  · subst hm
    conv_lhs => rw [touch]
    simp only [Trie.modify, Function.update_self, Function.update_of_ne hne]
    refine insertSorted_congr (fun v => ?_) (fun v => ?_) _
    · simp only [touch, Trie.modify, Function.update_apply]
      grind
    · simp only [touch, Trie.modify, Function.update_apply]
      grind
  · simp only [touch, modify_nodes]
    grind

@[simp] theorem touch_globalLru : (touch s c n).globalLru = s.globalLru := rfl

@[simp] theorem touch_live : (touch s c n).live = s.live := rfl

@[simp] theorem touch_pool : (touch s c n).pool = s.pool := rfl

@[simp] theorem touch_root : (touch s c n).root = s.root := rfl

@[simp] theorem touch_epoch : (touch s c n).epoch = s.epoch := rfl

/-- The trie after `extend` has been handed the address `n` and left the given pool. -/
def grown (s : Trie) (c : ℕ) (token : ℤ) (n : ℕ) (pool : List ℕ) : Trie :=
  link { s.modify n fun v => { version := v.version } with pool := pool } c token n

variable {token : ℤ} {pool : List ℕ}

theorem extend_eq_ok {r : ℕ × Trie} : extend s c token = .ok r
    ↔ ∃ n pool, s.pool = n :: pool ∧ r = (n, grown s c token n pool) := by
  cases hp : s.pool with
  | nil => simp [extend, getNode, hp, bind, Except.bind]
  | cons n pool =>
    simp only [extend, getNode, hp, bind, Except.bind, Except.ok.injEq, List.cons.injEq]
    refine ⟨fun h => ⟨n, pool, ⟨rfl, rfl⟩, h.symm⟩, ?_⟩
    rintro ⟨_, _, ⟨rfl, rfl⟩, rfl⟩
    rfl

/-- What one token of a walk can do: put a new node below the cursor, or count the child that
is there. -/
theorem visit_eq_ok : visit s c token = .ok (n, t) ↔
    ((s.nodes c).child.lookup token = none ∧
      ∃ pool, s.pool = n :: pool ∧ t = grown s c token n pool) ∨
    ((s.nodes c).child.lookup token = some n ∧ t = touch s c n) := by
  rw [visit]
  cases hl : (s.nodes c).child.lookup token with
  | none => simp [extend_eq_ok]
  | some m => grind

/-- The parts of a walk that returned. -/
theorem descend_cons_eq_ok {rest : List ℤ} {path : List ℕ} :
    descend (token :: rest) c s = .ok (path, t) ↔
      ∃ n s₁ path', visit s c token = .ok (n, s₁) ∧ descend rest n s₁ = .ok (path', t) ∧
        path = n :: path' := by
  simp only [descend, bind_eq_ok, Prod.exists, Except.ok.injEq, Prod.mk.injEq]
  grind

theorem releaseAll_succ_eq_ok {count : ℕ} : releaseAll (count + 1) s = .ok t ↔
    ∃ s₁, release s = .ok s₁ ∧ releaseAll count s₁ = .ok t :=
  bind_eq_ok

@[simp] theorem grown_globalLru :
    (grown s c token n pool).globalLru = s.globalLru ++ [n] := rfl

@[simp] theorem grown_pool : (grown s c token n pool).pool = pool := rfl

@[simp] theorem grown_root : (grown s c token n pool).root = s.root := rfl

@[simp] theorem grown_epoch : (grown s c token n pool).epoch = s.epoch := rfl

theorem grown_child (hne : c ≠ n) : ((grown s c token n pool).nodes m).child
    = if m = n then [] else if m = c then Dict.set (s.nodes c).child token n
      else (s.nodes m).child := by
  simp only [grown, link, modify_nodes]
  grind

theorem grown_parent (hne : c ≠ n) : ((grown s c token n pool).nodes m).parent
    = if m = n then c else (s.nodes m).parent := by
  simp only [grown, link, modify_nodes]
  grind

theorem grown_token (hne : c ≠ n) : ((grown s c token n pool).nodes m).token
    = if m = n then token else (s.nodes m).token := by
  simp only [grown, link, modify_nodes]
  grind

theorem grown_freq (hne : c ≠ n) : ((grown s c token n pool).nodes m).freq
    = if m = n then 1 else (s.nodes m).freq := by
  simp only [grown, link, modify_nodes]
  grind

@[simp] theorem grown_version : ((grown s c token n pool).nodes m).version
    = (s.nodes m).version := by
  simp only [grown, link, modify_nodes]
  grind

theorem grown_lru (hne : c ≠ n) : ((grown s c token n pool).nodes m).lru
    = if m = n then [] else if m = c then n :: (s.nodes c).lru else (s.nodes m).lru := by
  simp only [grown, link, modify_nodes]
  grind

theorem grown_sorted (hne : c ≠ n) : ((grown s c token n pool).nodes m).sortedChildren
    = if m = n then [] else
      if m = c then (grown s c token n pool).insertSorted n (s.nodes c).sortedChildren
      else (s.nodes m).sortedChildren := by
  rcases eq_or_ne m c with rfl | hm
  · rw [if_neg hne, if_pos rfl]
    conv_lhs => rw [grown, link]
    simp only [Trie.modify, Function.update_self, Function.update_of_ne hne]
    refine insertSorted_congr (fun v => ?_) (fun v => ?_) _
    · simp only [grown, link, Trie.modify, Function.update_apply]
      grind
    · simp only [grown, link, Trie.modify, Function.update_apply]
      grind
  · simp only [grown, link, modify_nodes]
    grind

theorem release_eq_ok : release s = .ok t
    ↔ ∃ n, s.globalLru.getLast? = some n ∧ (s.nodes n).child = [] ∧ t = pruned s n := by
  cases hl : s.globalLru.getLast? with
  | none => simp [release, hl]
  | some n =>
    simp only [release, hl, Option.some.injEq]
    by_cases hc : (s.nodes n).child = []
    · rw [if_neg (not_not.mpr hc), Except.ok.injEq]
      refine ⟨fun h => ⟨n, rfl, hc, h.symm⟩, ?_⟩
      rintro ⟨_, rfl, -, rfl⟩
      rfl
    · rw [if_pos hc]
      refine ⟨fun h => by simp at h, ?_⟩
      rintro ⟨_, rfl, hc', -⟩
      exact absurd hc' hc

@[simp] theorem pruned_globalLru : (pruned s n).globalLru = s.globalLru.dropLast := rfl

@[simp] theorem pruned_pool : (pruned s n).pool = n :: s.pool := rfl

@[simp] theorem pruned_root : (pruned s n).root = s.root := rfl

@[simp] theorem pruned_epoch : (pruned s n).epoch = s.epoch := rfl

theorem pruned_child (hne : (s.nodes n).parent ≠ n) : ((pruned s n).nodes m).child
    = if m = (s.nodes n).parent then Dict.erase (s.nodes m).child (s.nodes n).token
      else (s.nodes m).child := by
  simp only [pruned, modify_nodes]
  grind

@[simp] theorem pruned_parent : ((pruned s n).nodes m).parent = (s.nodes m).parent := by
  simp only [pruned, modify_nodes]
  grind

@[simp] theorem pruned_token : ((pruned s n).nodes m).token = (s.nodes m).token := by
  simp only [pruned, modify_nodes]
  grind

@[simp] theorem pruned_freq : ((pruned s n).nodes m).freq = (s.nodes m).freq := by
  simp only [pruned, modify_nodes]
  grind

theorem pruned_version : ((pruned s n).nodes m).version
    = if m = n then (s.nodes m).version + 1 else (s.nodes m).version := by
  simp only [pruned, modify_nodes]
  grind

theorem pruned_lru : ((pruned s n).nodes m).lru
    = if m = (s.nodes n).parent then (s.nodes m).lru.erase n else (s.nodes m).lru := by
  simp only [pruned, modify_nodes]
  grind

theorem pruned_sorted : ((pruned s n).nodes m).sortedChildren
    = if m = (s.nodes n).parent then (s.nodes m).sortedChildren.erase n
      else (s.nodes m).sortedChildren := by
  simp only [pruned, modify_nodes]
  grind

end Fields

/-! ### The shape of the trie -/

/-- The structural invariant: free and listed nodes share out the pool, child tables and
parent fields say the same, no node stands behind a child of its own in the global list, and
both orders of a node's children list exactly them. -/
structure Shape (capacity : ℕ) (s : Trie) : Prop where
  perm : (s.live ++ s.pool).Perm (List.range capacity)
  child : ∀ p ∈ s.live, ∀ e ∈ (s.nodes p).child,
    e.2 ∈ s.globalLru ∧ (s.nodes e.2).parent = p ∧ (s.nodes e.2).token = e.1
  parent : ∀ n ∈ s.globalLru, (s.nodes n).parent ∈ s.live ∧ (s.nodes n).parent ≠ n ∧
    (s.nodes (s.nodes n).parent).child.lookup (s.nodes n).token = some n
  keys : ∀ p ∈ s.live, (Dict.keys (s.nodes p).child).Nodup
  order : s.globalLru.Pairwise fun a b => (s.nodes a).parent ≠ b
  lru : ∀ p ∈ s.live, (s.nodes p).lru.Perm ((s.nodes p).child.map Prod.snd)
  sorted : ∀ p ∈ s.live, (s.nodes p).sortedChildren.Perm ((s.nodes p).child.map Prod.snd) ∧
    (s.nodes p).sortedChildren.Pairwise s.Before

section Shape

variable {capacity : ℕ} {s t : Trie} {c n p : ℕ} {token : ℤ} {pool : List ℕ}

theorem mem_live_of_mem (h : n ∈ s.globalLru) : n ∈ s.live := List.mem_cons_of_mem _ h

theorem root_mem_live : s.root ∈ s.live := List.mem_cons_self

theorem Shape.nodup (h : Shape capacity s) : (s.live ++ s.pool).Nodup :=
  h.perm.nodup_iff.mpr List.nodup_range

theorem Shape.live_nodup (h : Shape capacity s) : s.live.Nodup :=
  (List.nodup_append.mp h.nodup).1

theorem Shape.root_notMem (h : Shape capacity s) : s.root ∉ s.globalLru :=
  (List.nodup_cons.mp h.live_nodup).1

theorem Shape.globalLru_nodup (h : Shape capacity s) : s.globalLru.Nodup :=
  (List.nodup_cons.mp h.live_nodup).2

theorem Shape.notMem_live (h : Shape capacity s) (hn : n ∈ s.pool) : n ∉ s.live :=
  fun hl => (List.nodup_append.mp h.nodup).2.2 n hl n hn rfl

theorem Shape.child_of_lookup (h : Shape capacity s) (hc : c ∈ s.live)
    (hl : (s.nodes c).child.lookup token = some n) :
    n ∈ s.globalLru ∧ (s.nodes n).parent = c ∧ (s.nodes n).token = token :=
  h.child c hc _ (Dict.mem_of_lookup hl)

/-- The children of a node are different nodes: their tokens are. -/
theorem Shape.child_nodup (h : Shape capacity s) (hp : p ∈ s.live) :
    ((s.nodes p).child.map Prod.snd).Nodup := by
  refine List.Nodup.map_on (fun e he e' he' heq => ?_) ((h.keys p hp).of_map _)
  obtain ⟨-, -, hk⟩ := h.child p hp e he
  obtain ⟨-, -, hk'⟩ := h.child p hp e' he'
  exact Prod.ext (hk.symm.trans ((congrArg (fun v => (s.nodes v).token) heq).trans hk')) heq

/-- A node is among the children of its parent only. -/
theorem Shape.mem_child_iff (h : Shape capacity s) (hn : n ∈ s.globalLru) (hp : p ∈ s.live) :
    n ∈ (s.nodes p).child.map Prod.snd ↔ (s.nodes n).parent = p := by
  constructor
  · rintro hmem
    obtain ⟨e, he, rfl⟩ := List.mem_map.mp hmem
    exact (h.child p hp e he).2.1
  · rintro rfl
    exact List.mem_map.mpr ⟨_, Dict.mem_of_lookup (h.parent n hn).2.2, rfl⟩

/-- Inserting an absent element keeps the order of the comparator. -/
theorem pairwise_insertSorted {l : List ℕ} (hl : l.Pairwise s.Before) (hn : n ∉ l) :
    (s.insertSorted n l).Pairwise s.Before := by
  induction l with
  | nil => simp [Trie.insertSorted]
  | cons a l ih =>
    obtain ⟨ha, hl'⟩ := List.pairwise_cons.mp hl
    obtain ⟨hna, hnl⟩ := not_or.mp (fun hc => hn (List.mem_cons.mpr hc))
    rw [Trie.insertSorted, List.orderedInsert_cons]
    split_ifs with hb
    · exact List.pairwise_cons.mpr ⟨fun b hbm => (List.mem_cons.mp hbm).elim (fun e => e ▸ hb)
        (fun hm => lt_trans hb (ha b hm)), hl⟩
    · refine List.pairwise_cons.mpr ⟨fun b hbm => ?_, ih hl' hnl⟩
      rcases (List.mem_orderedInsert _).mp hbm with rfl | hm
      · refine lt_of_le_of_ne (not_lt.mp hb) fun he => hna ?_
        exact (congrArg (fun k : ℤ ×ₗ ℤ ×ₗ ℕ => (ofLex (ofLex k).2).2) he).symm
      · exact ha b hm

/-- An order of children survives where neither frequency nor token changes. -/
theorem pairwise_before_congr {l : List ℕ} (hl : l.Pairwise s.Before)
    (hk : ∀ v ∈ l, t.key v = s.key v) : l.Pairwise t.Before :=
  hl.imp_of_mem fun ha hb hab => by
    rw [Trie.Before, hk _ ha, hk _ hb]
    exact hab

theorem key_congr (hf : (t.nodes n).freq = (s.nodes n).freq)
    (ht : (t.nodes n).token = (s.nodes n).token) : t.key n = s.key n := by
  rw [Trie.key, Trie.key, hf, ht]

/-- A touch keeps the shape. -/
theorem Shape.touch (h : Shape capacity s) (hc : c ∈ s.live)
    (hl : (s.nodes c).child.lookup token = some n) : Shape capacity (touch s c n) := by
  obtain ⟨hn, hpar, -⟩ := h.child_of_lookup hc hl
  have hne : c ≠ n := hpar ▸ (h.parent n hn).2.1
  have hmem : n ∈ (s.nodes c).child.map Prod.snd := (h.mem_child_iff hn hc).mpr hpar
  have hkey : ∀ v, v ≠ n → (NgramTrie.touch s c n).key v = s.key v := fun v hv =>
    key_congr (by rw [touch_freq, if_neg hv]) touch_token
  refine ⟨h.perm, ?_, ?_, ?_, ?_, ?_, ?_⟩
  · simpa only [touch_child, touch_parent, touch_token, touch_live, touch_globalLru] using h.child
  · simpa only [touch_child, touch_parent, touch_token, touch_live, touch_globalLru] using h.parent
  · simpa only [touch_child, touch_live] using h.keys
  · simpa only [touch_parent, touch_globalLru] using h.order
  · intro p hp
    rw [touch_lru hne, touch_child]
    split_ifs with hpc
    · subst hpc
      have hin : n ∈ (s.nodes p).lru := (h.lru p hp).mem_iff.mpr hmem
      exact (List.perm_cons_erase hin).symm.trans (h.lru p hp)
    · exact h.lru p hp
  · intro p hp
    obtain ⟨hperm, hsort⟩ := h.sorted p hp
    rw [touch_sorted hne, touch_child]
    split_ifs with hpc
    · subst hpc
      have hin : n ∈ (s.nodes p).sortedChildren := hperm.mem_iff.mpr hmem
      have hnd : (s.nodes p).sortedChildren.Nodup := hperm.nodup_iff.mpr (h.child_nodup hp)
      refine ⟨((List.perm_orderedInsert _ _ _).trans (List.perm_cons_erase hin).symm).trans
        hperm, ?_⟩
      refine pairwise_insertSorted (pairwise_before_congr (hsort.sublist List.erase_sublist)
        fun v hv => hkey v ?_) hnd.not_mem_erase
      rintro rfl
      exact hnd.not_mem_erase hv
    · refine ⟨hperm, pairwise_before_congr hsort fun v hv => hkey v ?_⟩
      rintro rfl
      exact hpc (((h.mem_child_iff hn hp).mp (hperm.mem_iff.mp hv)).symm.trans hpar)

section Grown

variable (h : Shape capacity s) (hc : c ∈ s.live) (hl : (s.nodes c).child.lookup token = none)
  (hp : s.pool = n :: pool)

theorem mem_live_grown {v : ℕ} : v ∈ (grown s c token n pool).live ↔ v ∈ s.live ∨ v = n := by
  simp [Trie.live, or_assoc]

include h hp in
/-- The node handed out is not in the tree. -/
theorem Shape.ne_of_mem_live {v : ℕ} (hv : v ∈ s.live) : v ≠ n := by
  rintro rfl
  exact h.notMem_live (hp ▸ List.mem_cons_self) hv

include h hc hl hp in
/-- The children of the nodes there were: the new one is the cursor's. -/
theorem Shape.grown_children (hv : p ∈ s.live) : ((grown s c token n pool).nodes p).child
    = (s.nodes p).child ++ if p = c then [(token, n)] else [] := by
  rw [grown_child (h.ne_of_mem_live hp hc), if_neg (h.ne_of_mem_live hp hv)]
  split_ifs with hpc
  · rw [hpc, Dict.set_of_notMem n (Dict.lookup_eq_none.mp hl)]
  · rw [List.append_nil]

include h hc hl hp in
theorem Shape.grown_entry (hv : p ∈ (grown s c token n pool).live) {e : ℤ × ℕ}
    (he : e ∈ ((grown s c token n pool).nodes p).child) :
    e.2 ∈ s.globalLru ++ [n] ∧ ((grown s c token n pool).nodes e.2).parent = p ∧
      ((grown s c token n pool).nodes e.2).token = e.1 := by
  have hne := h.ne_of_mem_live hp hc
  rw [grown_parent hne, grown_token hne]
  rcases mem_live_grown.mp hv with hv | rfl
  · rw [h.grown_children hc hl hp hv, List.mem_append] at he
    rcases he with he | he
    · obtain ⟨h₁, h₂, h₃⟩ := h.child p hv e he
      have hen := h.ne_of_mem_live hp (mem_live_of_mem h₁)
      rw [if_neg hen, if_neg hen]
      exact ⟨List.mem_append_left _ h₁, h₂, h₃⟩
    · split_ifs at he with hpc
      · obtain rfl := List.mem_singleton.mp he
        rw [if_pos rfl, if_pos rfl]
        exact ⟨List.mem_append_right _ List.mem_cons_self, hpc.symm, rfl⟩
      · exact absurd he List.not_mem_nil
  · rw [grown_child hne, if_pos rfl] at he
    exact absurd he List.not_mem_nil

include h hc hl hp in
theorem Shape.grown_linked {m : ℕ} (hm : m ∈ (grown s c token n pool).globalLru) :
    ((grown s c token n pool).nodes m).parent ∈ s.live ∧
      ((grown s c token n pool).nodes ((grown s c token n pool).nodes m).parent).child.lookup
        ((grown s c token n pool).nodes m).token = some m := by
  have hne := h.ne_of_mem_live hp hc
  rw [grown_parent hne, grown_token hne]
  rcases List.mem_append.mp hm with hm | hm
  · obtain ⟨h₁, -, h₃⟩ := h.parent m hm
    have hmn := h.ne_of_mem_live hp (mem_live_of_mem hm)
    rw [if_neg hmn, if_neg hmn, h.grown_children hc hl hp h₁, List.lookup_append, h₃]
    exact ⟨h₁, rfl⟩
  · obtain rfl := List.mem_singleton.mp hm
    rw [if_pos rfl, if_pos rfl, grown_child hne, if_neg hne, if_pos rfl]
    exact ⟨hc, Dict.lookup_set_self _ _ _⟩

include h hc hl hp in
/-- Both orders of the children get the new one. -/
theorem Shape.grown_orders (hv : p ∈ s.live) :
    ((grown s c token n pool).nodes p).lru.Perm
        (((grown s c token n pool).nodes p).child.map Prod.snd) ∧
      ((grown s c token n pool).nodes p).sortedChildren.Perm
        (((grown s c token n pool).nodes p).child.map Prod.snd) ∧
      ((grown s c token n pool).nodes p).sortedChildren.Pairwise
        (grown s c token n pool).Before := by
  have hne := h.ne_of_mem_live hp hc
  have hvn := h.ne_of_mem_live hp hv
  obtain ⟨hperm, hsort⟩ := h.sorted p hv
  have hold : ∀ v ∈ (s.nodes p).sortedChildren, v ≠ n := by
    intro v hmem
    obtain ⟨e, he, rfl⟩ := List.mem_map.mp (hperm.mem_iff.mp hmem)
    exact h.ne_of_mem_live hp (mem_live_of_mem (h.child p hv e he).1)
  have hsort' := pairwise_before_congr (t := grown s c token n pool) hsort fun v hmem =>
    key_congr (by rw [grown_freq hne, if_neg (hold v hmem)])
      (by rw [grown_token hne, if_neg (hold v hmem)])
  rw [grown_lru hne, grown_sorted hne, if_neg hvn, if_neg hvn, h.grown_children hc hl hp hv,
    List.map_append]
  split_ifs with hpc
  · subst hpc
    have hlast := (List.perm_append_singleton n ((s.nodes p).child.map Prod.snd)).symm
    exact ⟨((h.lru p hv).cons n).trans hlast,
      ((List.perm_orderedInsert _ _ _).trans (hperm.cons n)).trans hlast,
      pairwise_insertSorted hsort' fun hmem => hold n hmem rfl⟩
  · simp only [List.map_nil, List.append_nil]
    exact ⟨h.lru p hv, hperm, hsort'⟩

include h hc hl hp in
/-- A new child keeps the shape. -/
theorem Shape.grown : Shape capacity (grown s c token n pool) := by
  have hne := h.ne_of_mem_live hp hc
  have hnew : ((NgramTrie.grown s c token n pool).nodes n).child = [] := by
    rw [grown_child hne, if_pos rfl]
  refine ⟨?_, fun p hv e he => h.grown_entry hc hl hp hv he, fun m hm => ?_, fun p hv => ?_, ?_,
    fun p hv => ?_, fun p hv => ?_⟩
  · have hperm := h.perm
    rw [hp] at hperm
    simpa [Trie.live] using hperm
  · obtain ⟨hpar, hlook⟩ := h.grown_linked hc hl hp hm
    refine ⟨mem_live_grown.mpr (.inl hpar), fun heq => ?_, hlook⟩
    rcases List.mem_append.mp hm with hm | hm
    · rw [grown_parent hne, if_neg (h.ne_of_mem_live hp (mem_live_of_mem hm))] at heq
      exact (h.parent m hm).2.1 heq
    · exact h.ne_of_mem_live hp hpar (heq.trans (List.mem_singleton.mp hm))
  · rcases mem_live_grown.mp hv with hv | rfl
    · rw [grown_child hne, if_neg (h.ne_of_mem_live hp hv)]
      split_ifs with hpc
      · exact Dict.nodup_keys_set (h.keys c hc) _ _
      · exact h.keys p hv
    · rw [hnew]
      exact List.nodup_nil
  · refine List.pairwise_append.mpr ⟨?_, List.pairwise_singleton _ _, ?_⟩
    · refine h.order.imp_of_mem fun ha _ hab => ?_
      rw [grown_parent hne, if_neg (h.ne_of_mem_live hp (mem_live_of_mem ha))]
      exact hab
    · intro a ha b hb
      rw [grown_parent hne, if_neg (h.ne_of_mem_live hp (mem_live_of_mem ha)),
        List.mem_singleton.mp hb]
      exact h.ne_of_mem_live hp (h.parent a ha).1
  · rcases mem_live_grown.mp hv with hv | rfl
    · exact (h.grown_orders hc hl hp hv).1
    · rw [grown_lru hne, hnew, if_pos rfl]
      exact List.Perm.nil
  · rcases mem_live_grown.mp hv with hv | rfl
    · exact (h.grown_orders hc hl hp hv).2
    · rw [grown_sorted hne, hnew, if_pos rfl]
      exact ⟨List.Perm.nil, List.Pairwise.nil⟩

end Grown

section Pruned

variable {l : List ℕ} (h : Shape capacity s) (hl : s.globalLru = l ++ [n])

include hl in
theorem last_mem : n ∈ s.globalLru := hl ▸ List.mem_append_right _ List.mem_cons_self

include h hl in
theorem Shape.mem_pruned {v : ℕ} : v ∈ (pruned s n).globalLru ↔ v ∈ s.globalLru ∧ v ≠ n := by
  have hnd := h.globalLru_nodup
  rw [hl, ← List.concat_eq_append, List.nodup_concat] at hnd
  rw [pruned_globalLru, hl, List.dropLast_concat, List.mem_append, List.mem_singleton]
  constructor
  · exact fun hv => ⟨.inl hv, fun hvn => hnd.1 (hvn ▸ hv)⟩
  · exact fun hv => hv.1.resolve_right hv.2

include h hl in
theorem Shape.mem_live_pruned {v : ℕ} : v ∈ (pruned s n).live ↔ v ∈ s.live ∧ v ≠ n := by
  have hroot : s.root ≠ n := fun he => h.root_notMem (he ▸ last_mem hl)
  rw [Trie.live, Trie.live, List.mem_cons, List.mem_cons, h.mem_pruned hl, pruned_root]
  grind

include h hl in
/-- **The tail has no child**: one would stand behind it. -/
theorem Shape.parent_ne_last : ∀ a ∈ s.globalLru, (s.nodes a).parent ≠ n := by
  intro a ha
  have horder := h.order
  rw [hl] at horder
  by_cases han : a = n
  · exact han ▸ (h.parent a ha).2.1
  · rw [hl, List.mem_append, List.mem_singleton] at ha
    exact (List.pairwise_append.mp horder).2.2 a (ha.resolve_right han) n List.mem_cons_self

include h hl in
theorem Shape.child_of_last : (s.nodes n).child = [] := by
  refine List.eq_nil_iff_forall_not_mem.mpr fun e he => ?_
  obtain ⟨hmem, hpar, -⟩ := h.child n (mem_live_of_mem (last_mem hl)) e he
  exact h.parent_ne_last hl e.2 hmem hpar

/-- An order of the children of the parent is one of the others once the node is taken out. -/
theorem Shape.erase_perm (h : Shape capacity s) (hn : n ∈ s.globalLru) {l' : List ℕ}
    (hl' : l'.Perm ((s.nodes (s.nodes n).parent).child.map Prod.snd)) : (l'.erase n).Perm
      ((Dict.erase (s.nodes (s.nodes n).parent).child (s.nodes n).token).map Prod.snd) := by
  obtain ⟨hpar, -, hlook⟩ := h.parent n hn
  obtain ⟨d₁, d₂, hd, -, herase⟩ := Dict.exists_cut hlook
  have hcut : ((s.nodes (s.nodes n).parent).child.map Prod.snd).Perm
      (n :: (Dict.erase (s.nodes (s.nodes n).parent).child (s.nodes n).token).map Prod.snd) := by
    rw [herase (h.keys _ hpar), hd, List.map_append, List.map_append]
    exact List.perm_middle
  simpa using (hl'.trans hcut).erase n

include h hl in
theorem Shape.pruned_entry (hv : p ∈ s.live) {e : ℤ × ℕ}
    (he : e ∈ ((pruned s n).nodes p).child) :
    e.2 ∈ (pruned s n).globalLru ∧ (s.nodes e.2).parent = p ∧ (s.nodes e.2).token = e.1 := by
  rw [pruned_child (h.parent n (last_mem hl)).2.1] at he
  have hold : e ∈ (s.nodes p).child := by
    split_ifs at he
    · exact (List.mem_filter.mp he).1
    · exact he
  obtain ⟨h₁, h₂, h₃⟩ := h.child p hv e hold
  refine ⟨(h.mem_pruned hl).mpr ⟨h₁, fun hen => ?_⟩, h₂, h₃⟩
  rw [hen] at h₂ h₃
  rw [if_pos h₂.symm] at he
  exact of_decide_eq_true (List.mem_filter.mp he).2 h₃.symm

include h hl in
/-- Taking back the tail keeps the shape. -/
theorem Shape.pruned : Shape capacity (pruned s n) := by
  have hn := last_mem hl
  obtain ⟨hpar, hne, hlook⟩ := h.parent n hn
  have hlive : ∀ {v}, v ∈ (NgramTrie.pruned s n).live → v ∈ s.live := fun hv =>
    ((h.mem_live_pruned hl).mp hv).1
  refine ⟨?_, fun p hv e he => ?_, fun m hm => ?_, fun p hv => ?_, ?_, fun p hv => ?_,
    fun p hv => ?_⟩
  · have hperm := h.perm
    rw [Trie.live, hl] at hperm
    simpa [Trie.live, hl] using hperm
  · rw [pruned_parent, pruned_token]
    exact h.pruned_entry hl (hlive hv) he
  · obtain ⟨hm, hmn⟩ := (h.mem_pruned hl).mp hm
    obtain ⟨h₁, h₂, h₃⟩ := h.parent m hm
    rw [pruned_parent, pruned_token, pruned_child hne]
    refine ⟨(h.mem_live_pruned hl).mpr ⟨h₁, h.parent_ne_last hl m hm⟩, h₂, ?_⟩
    split_ifs with hpc
    · rw [Dict.lookup_erase_of_ne, h₃]
      intro ht
      rw [ht, hpc, hlook] at h₃
      exact hmn (Option.some.inj h₃).symm
    · exact h₃
  · rw [pruned_child hne]
    split_ifs with hpc
    · exact Dict.nodup_keys_erase (h.keys p (hlive hv)) _
    · exact h.keys p (hlive hv)
  · simpa only [pruned_parent, pruned_globalLru] using
      h.order.sublist (List.dropLast_sublist _)
  · rw [pruned_lru, pruned_child hne]
    split_ifs with hpc
    · rw [hpc]
      exact h.erase_perm hn (h.lru _ hpar)
    · exact h.lru p (hlive hv)
  · obtain ⟨hperm, hsort⟩ := h.sorted p (hlive hv)
    have hsort' := pairwise_before_congr (t := NgramTrie.pruned s n) hsort
      fun v _ => key_congr pruned_freq pruned_token
    rw [pruned_sorted, pruned_child hne]
    split_ifs with hpc
    · refine ⟨?_, hsort'.sublist List.erase_sublist⟩
      rw [hpc] at hperm ⊢
      exact h.erase_perm hn hperm
    · exact ⟨hperm, hsort'⟩

end Pruned

end Shape

/-! ### Strings and the nodes they reach -/

section Locate

variable {capacity : ℕ} {s t : Trie} {c n m v : ℕ} {token : ℤ} {pool : List ℕ} {p q : List ℤ}

theorem locate_append : s.locate (p ++ q) c = (s.locate p c).bind (s.locate q) := by
  induction p generalizing c with
  | nil => rfl
  | cons token p ih =>
    simp only [List.cons_append, Trie.locate]
    cases (s.nodes c).child.lookup token with
    | none => rfl
    | some n => exact ih

theorem locate_cons_eq_some : s.locate (token :: p) c = some v
    ↔ ∃ n, (s.nodes c).child.lookup token = some n ∧ s.locate p n = some v := by
  rw [Trie.locate, Option.bind_eq_some_iff]

/-- What is reached from the tree is in the tree. -/
theorem Shape.locate_mem (h : Shape capacity s) (hc : c ∈ s.live) (hp : s.locate p c = some v) :
    v ∈ s.live := by
  induction p generalizing c with
  | nil => exact Option.some.inj hp ▸ hc
  | cons token p ih =>
    obtain ⟨n, hn, hp⟩ := locate_cons_eq_some.mp hp
    exact ih (mem_live_of_mem (h.child_of_lookup hc hn).1) hp

theorem touch_locate : (touch s c n).locate p m = s.locate p m := by
  induction p generalizing m with
  | nil => rfl
  | cons token p ih =>
    simp only [Trie.locate, touch_child]
    exact congrArg _ (funext fun _ => ih)

/-- A new child changes no way through the tree there was. -/
theorem Shape.grown_locate (h : Shape capacity s) (hc : c ∈ s.live)
    (hl : (s.nodes c).child.lookup token = none) (hp : s.pool = n :: pool) (hm : m ∈ s.live)
    (hv : s.locate p m = some v) : (NgramTrie.grown s c token n pool).locate p m = some v := by
  induction p generalizing m with
  | nil => exact hv
  | cons token' p ih =>
    obtain ⟨x, hx, hv⟩ := locate_cons_eq_some.mp hv
    refine locate_cons_eq_some.mpr
      ⟨x, ?_, ih (mem_live_of_mem (h.child_of_lookup hm hx).1) hv⟩
    rw [h.grown_children hc hl hp hm, List.lookup_append, hx]
    rfl

/-- Taking back the tail changes no way through the tree but the one to it. -/
theorem Shape.pruned_locate (h : Shape capacity s) {l : List ℕ} (hl : s.globalLru = l ++ [n])
    (hv : s.locate p m = some v) (hne : v ≠ n) :
    (NgramTrie.pruned s n).locate p m = some v := by
  obtain ⟨-, hpar, hlook⟩ := h.parent n (last_mem hl)
  induction p generalizing m with
  | nil => exact hv
  | cons token p ih =>
    obtain ⟨x, hx, hv⟩ := locate_cons_eq_some.mp hv
    refine locate_cons_eq_some.mpr ⟨x, ?_, ih hv⟩
    rw [pruned_child hpar]
    split_ifs with hmp
    · subst hmp
      rw [Dict.lookup_erase_of_ne, hx]
      rintro rfl
      -- the way would go on from the leaf
      obtain rfl : n = x := Option.some.inj (hlook.symm.trans hx)
      cases p with
      | nil => exact hne (Option.some.inj hv).symm
      | cons token p =>
        obtain ⟨y, hy, -⟩ := locate_cons_eq_some.mp hv
        rw [h.child_of_last hl] at hy
        cases hy
    · exact hx

/-- What inserting keeps: the root, the epoch, the generations, and every way through the
tree. -/
structure Grows (s t : Trie) : Prop where
  root : t.root = s.root
  epoch : t.epoch = s.epoch
  version : ∀ v, (t.nodes v).version = (s.nodes v).version
  live : ∀ v ∈ s.live, v ∈ t.live
  locate : ∀ p : List ℤ, ∀ m ∈ s.live, ∀ v, s.locate p m = some v → t.locate p m = some v

theorem Grows.refl (s : Trie) : Grows s s :=
  ⟨rfl, rfl, fun _ => rfl, fun _ h => h, fun _ _ _ _ h => h⟩

theorem Grows.trans {u : Trie} (h : Grows s t) (h' : Grows t u) : Grows s u :=
  ⟨h'.root.trans h.root, h'.epoch.trans h.epoch, fun v => (h'.version v).trans (h.version v),
    fun v hv => h'.live v (h.live v hv),
    fun p m hm v hv => h'.locate p m (h.live m hm) v (h.locate p m hm v hv)⟩

/-- **One token of a walk** keeps the shape and links the node it leads to. -/
theorem visit_ok (h : Shape capacity s) (hc : c ∈ s.live) (hv : visit s c token = .ok (n, t)) :
    Shape capacity t ∧ Grows s t ∧ (t.nodes c).child.lookup token = some n := by
  obtain ⟨hl, pool, hp, rfl⟩ | ⟨hl, rfl⟩ := visit_eq_ok.mp hv
  · have hne := h.ne_of_mem_live hp hc
    refine ⟨h.grown hc hl hp, ⟨rfl, rfl, fun v => grown_version, ?_, ?_⟩, ?_⟩
    · exact fun v hv => mem_live_grown.mpr (.inl hv)
    · exact fun p m hm v hv => h.grown_locate hc hl hp hm hv
    · rw [grown_child hne, if_neg hne, if_pos rfl, Dict.lookup_set_self]
  · refine ⟨h.touch hc hl, ⟨rfl, rfl, fun v => touch_version, fun v hv => hv, ?_⟩, ?_⟩
    · exact fun p m _ v hv => touch_locate.trans hv
    · rw [touch_child, hl]

/-- A path down the tree, below the given node. -/
def Linked (s : Trie) : ℕ → List ℕ → Prop
  | _, [] => True
  | c, n :: path => n ∈ s.globalLru ∧ (s.nodes n).parent = c ∧ Linked s n path

/-- **A walk** keeps the shape, and its path hangs together. -/
theorem descend_ok {tokens : List ℤ} {path : List ℕ} (h : Shape capacity s) (hc : c ∈ s.live)
    (hd : descend tokens c s = .ok (path, t)) :
    Shape capacity t ∧ Grows s t ∧ Linked t c path := by
  induction tokens generalizing c s path with
  | nil =>
    obtain ⟨rfl, rfl⟩ := Prod.mk.inj (Except.ok.inj hd)
    exact ⟨h, .refl _, trivial⟩
  | cons token rest ih =>
    obtain ⟨n, s₁, path, hv, hr, rfl⟩ := descend_cons_eq_ok.mp hd
    obtain ⟨h₁, hg₁, hl₁⟩ := visit_ok h hc hv
    have hn := mem_live_of_mem (h₁.child_of_lookup (hg₁.live c hc) hl₁).1
    obtain ⟨h₂, hg₂, hlink⟩ := ih h₁ hn hr
    have hstep : t.locate [token] c = some n :=
      hg₂.locate [token] c (hg₁.live c hc) n (locate_cons_eq_some.mpr ⟨n, hl₁, rfl⟩)
    obtain ⟨n', hn', heq⟩ := locate_cons_eq_some.mp hstep
    obtain rfl : n' = n := Option.some.inj heq
    obtain ⟨hmem, hpar, -⟩ := h₂.child_of_lookup ((hg₁.trans hg₂).live c hc) hn'
    exact ⟨h₂, hg₁.trans hg₂, hmem, hpar, hlink⟩

end Locate

/-! ### The path goes to the front -/

section Front

variable {capacity : ℕ} {s t : Trie} {c n : ℕ} {path l : List ℕ}

/-- A node stands behind its parent. -/
theorem Shape.idxOf_lt (h : Shape capacity s) (hn : n ∈ s.globalLru)
    (hp : (s.nodes n).parent ∈ s.globalLru) :
    s.globalLru.idxOf (s.nodes n).parent < s.globalLru.idxOf n := by
  by_contra hlt
  rcases (not_lt.mp hlt).lt_or_eq with hlt | heq
  · refine List.pairwise_iff_getElem.mp h.order _ _ (List.idxOf_lt_length_of_mem hn)
      (List.idxOf_lt_length_of_mem hp) hlt ?_
    rw [List.getElem_idxOf, List.getElem_idxOf]
  · exact (h.parent n hn).2.1 ((List.idxOf_inj hn).mp heq).symm

/-- Along a path every node stands behind the ones above it. -/
theorem Shape.linked_idxOf_lt (h : Shape capacity s) (hc : c ∈ s.globalLru)
    (hl : Linked s c path) : ∀ b ∈ path, s.globalLru.idxOf c < s.globalLru.idxOf b := by
  induction path generalizing c with
  | nil => exact fun b hb => absurd hb List.not_mem_nil
  | cons n path ih =>
    obtain ⟨hn, rfl, hl⟩ := hl
    have hlt := h.idxOf_lt hn hc
    intro b hb
    rcases List.mem_cons.mp hb with rfl | hb
    · exact hlt
    · exact hlt.trans (ih hn hl b hb)

theorem Shape.linked_pairwise (h : Shape capacity s) (hl : Linked s c path) :
    path.Pairwise fun a b => s.globalLru.idxOf a < s.globalLru.idxOf b := by
  induction path generalizing c with
  | nil => exact List.Pairwise.nil
  | cons n path ih =>
    obtain ⟨hn, -, hl⟩ := hl
    exact List.pairwise_cons.mpr ⟨h.linked_idxOf_lt hn hl, ih hl⟩

theorem Linked.mem (hl : Linked s c path) : ∀ n ∈ path,
    n ∈ s.globalLru ∧ ((s.nodes n).parent = c ∨ (s.nodes n).parent ∈ path) := by
  induction path generalizing c with
  | nil => exact fun n hn => absurd hn List.not_mem_nil
  | cons a path ih =>
    obtain ⟨ha, hpar, hl⟩ := hl
    intro n hn
    rcases List.mem_cons.mp hn with rfl | hn
    · exact ⟨ha, .inl hpar⟩
    · obtain ⟨hmem, hor⟩ := ih hl n hn
      exact ⟨hmem, .inr (hor.elim (fun he => he ▸ List.mem_cons_self)
        (List.mem_cons_of_mem _))⟩

/-- The splices put the path first and keep the order of the rest. -/
theorem toFront_eq (hpath : path.Nodup) (hl : l.Nodup) :
    toFront path l = path ++ l.filter (· ∉ path) := by
  induction path with
  | nil => simp [toFront]
  | cons n path ih =>
    obtain ⟨hn, hpath⟩ := List.nodup_cons.mp hpath
    rw [toFront, List.foldr_cons, ← toFront, ih hpath, List.erase_append_right _ hn,
      (hl.filter _).erase_eq_filter, List.filter_filter, List.cons_append]
    congr 2
    refine List.filter_congr fun v _ => ?_
    by_cases hv : v = n <;> simp [hv]

/-- Reordering the global list so that no node stands behind a child keeps the shape. -/
theorem Shape.reorder (h : Shape capacity s) (hl : l.Perm s.globalLru)
    (ho : l.Pairwise fun a b => (s.nodes a).parent ≠ b) :
    Shape capacity { s with globalLru := l } := by
  have hlive : ∀ {v}, v ∈ ({ s with globalLru := l } : Trie).live ↔ v ∈ s.live :=
    (hl.cons s.root).mem_iff
  refine ⟨((hl.cons s.root).append_right s.pool).trans h.perm, ?_, ?_, ?_, ho, ?_, ?_⟩
  · intro p hp e he
    obtain ⟨h₁, h₂⟩ := h.child p (hlive.mp hp) e he
    exact ⟨hl.mem_iff.mpr h₁, h₂⟩
  · intro n hn
    obtain ⟨h₁, h₂⟩ := h.parent n (hl.mem_iff.mp hn)
    exact ⟨hlive.mpr h₁, h₂⟩
  · exact fun p hp => h.keys p (hlive.mp hp)
  · exact fun p hp => h.lru p (hlive.mp hp)
  · exact fun p hp => h.sorted p (hlive.mp hp)

/-- **A walk's path moved to the front** keeps the shape: what is above a node of the path is
in front of it on the path or the root. -/
theorem Shape.toFront (h : Shape capacity s) (hl : Linked s s.root path) :
    (toFront path s.globalLru).Perm s.globalLru ∧
      Shape capacity { s with globalLru := toFront path s.globalLru } := by
  have hpw := h.linked_pairwise hl
  have hnd : path.Nodup := hpw.imp fun hab => fun he => absurd (he ▸ hab) (lt_irrefl _)
  have heq := toFront_eq hnd h.globalLru_nodup
  have hperm : (NgramTrie.toFront path s.globalLru).Perm s.globalLru := by
    rw [heq]
    refine (List.perm_ext_iff_of_nodup ?_ h.globalLru_nodup).mpr fun v => ?_
    · refine List.nodup_append.mpr ⟨hnd, h.globalLru_nodup.filter _, ?_⟩
      rintro a ha b hb rfl
      simp [ha] at hb
    · by_cases hv : v ∈ path <;> simp [hv, (hl.mem v · |>.1)]
  refine ⟨hperm, h.reorder hperm ?_⟩
  rw [heq]
  refine List.pairwise_append.mpr ⟨?_, h.order.sublist List.filter_sublist, ?_⟩
  · refine hpw.imp_of_mem fun ha hb hab hpar => ?_
    have := h.idxOf_lt (hl.mem _ ha).1 (hpar ▸ (hl.mem _ hb).1)
    rw [hpar] at this
    exact absurd (this.trans hab) (lt_irrefl _)
  · intro a ha b hb hpar
    obtain ⟨hb, hnb⟩ := List.mem_filter.mp hb
    rcases (hl.mem a ha).2 with hroot | hmem
    · exact h.root_notMem (hroot ▸ hpar ▸ hb)
    · exact of_decide_eq_true hnb (hpar ▸ hmem)

end Front

/-! ### Making room, and a round -/

section Round

variable {capacity count : ℕ} {s t : Trie} {tokens : List ℤ}

/-- What taking nodes back keeps: the root and the epoch; a generation only grows, and a way
to a node is lost only with the node's generation. -/
structure Ages (s t : Trie) : Prop where
  root : t.root = s.root
  epoch : t.epoch = s.epoch
  version : ∀ v, (s.nodes v).version ≤ (t.nodes v).version
  locate : ∀ p v, s.locate p s.root = some v →
    t.locate p s.root = some v ∨ (s.nodes v).version < (t.nodes v).version

theorem Ages.refl (s : Trie) : Ages s s :=
  ⟨rfl, rfl, fun _ => le_rfl, fun _ _ h => .inl h⟩

theorem Ages.trans {u : Trie} (h : Ages s t) (h' : Ages t u) : Ages s u := by
  refine ⟨h'.root.trans h.root, h'.epoch.trans h.epoch,
    fun v => (h.version v).trans (h'.version v), fun p v hv => ?_⟩
  rcases h.locate p v hv with hv | hlt
  · rw [← h.root] at hv ⊢
    exact (h'.locate p v hv).imp id (lt_of_le_of_lt (h.version v))
  · exact .inr (lt_of_lt_of_le hlt (h'.version v))

theorem Grows.ages (h : Grows s t) : Ages s t :=
  ⟨h.root, h.epoch, fun v => (h.version v).ge,
    fun p v hv => .inl (h.locate p _ root_mem_live v hv)⟩

theorem release_ok (h : Shape capacity s) (hr : release s = .ok t) :
    Shape capacity t ∧ Ages s t ∧ t.pool.length = s.pool.length + 1 := by
  obtain ⟨n, hn, -, rfl⟩ := release_eq_ok.mp hr
  obtain ⟨l, hl⟩ := List.getLast?_eq_some_iff.mp hn
  refine ⟨h.pruned hl, ⟨rfl, rfl, fun v => ?_, fun p v hv => ?_⟩, by simp⟩
  · rw [pruned_version]
    split_ifs <;> omega
  · by_cases hvn : v = n
    · right
      rw [pruned_version, if_pos hvn]
      omega
    · exact .inl (h.pruned_locate hl hv hvn)

theorem releaseAll_ok (h : Shape capacity s) (hr : releaseAll count s = .ok t) :
    Shape capacity t ∧ Ages s t ∧ t.pool.length = s.pool.length + count := by
  induction count generalizing s with
  | zero =>
    obtain rfl : s = t := Except.ok.inj hr
    exact ⟨h, .refl _, rfl⟩
  | succ count ih =>
    obtain ⟨s₁, hs, hr⟩ := releaseAll_succ_eq_ok.mp hr
    obtain ⟨h₁, ha₁, hlen⟩ := release_ok h hs
    obtain ⟨h₂, ha₂, hlen'⟩ := ih h₁ hr
    exact ⟨h₂, ha₁.trans ha₂, by omega⟩

theorem squeeze_ok (h : Shape capacity s) (hr : squeeze capacity s count = .ok t) :
    Shape capacity t ∧ Ages s t ∧ t.pool.length = s.pool.length + count := by
  rw [squeeze] at hr
  split at hr
  · cases hr
  · exact releaseAll_ok h hr

theorem makeRoom_ok {needed : ℕ} (h : Shape capacity s)
    (hr : makeRoom capacity s needed = .ok t) :
    Shape capacity t ∧ Ages s t ∧ needed ≤ t.pool.length := by
  rw [makeRoom] at hr
  split at hr
  · obtain ⟨h₁, ha, hlen⟩ := squeeze_ok h hr
    exact ⟨h₁, ha, by omega⟩
  · obtain rfl : s = t := Except.ok.inj hr
    exact ⟨h, .refl _, by omega⟩

/-- The parts of a round that returned. -/
theorem insertSuffix_eq_ok : insertSuffix capacity s tokens = .ok t ↔
    ∃ s₁ path s₂, makeRoom capacity s tokens.length = .ok s₁ ∧
      descend tokens s₁.root s₁ = .ok (path, s₂) ∧
      t = { s₂ with globalLru := toFront path s₂.globalLru } := by
  simp only [insertSuffix, bind_eq_ok, Prod.exists, Except.ok.injEq]
  grind

/-- The nodes of a reordered trie are reached as before. -/
theorem locate_reorder {l : List ℕ} {p : List ℤ} {m : ℕ} :
    ({ s with globalLru := l } : Trie).locate p m = s.locate p m := by
  induction p generalizing m with
  | nil => rfl
  | cons token p ih => exact congrArg _ (funext fun _ => ih)

/-- **A round of `insert`** keeps the shape. -/
theorem insertSuffix_ok (h : Shape capacity s) (hr : insertSuffix capacity s tokens = .ok t) :
    Shape capacity t ∧ Ages s t := by
  obtain ⟨s₁, path, s₂, hm, hd, rfl⟩ := insertSuffix_eq_ok.mp hr
  obtain ⟨h₁, ha₁, -⟩ := makeRoom_ok h hm
  obtain ⟨h₂, hg, hl⟩ := descend_ok h₁ root_mem_live hd
  rw [← hg.root] at hl
  obtain ⟨-, h₃⟩ := h₂.toFront hl
  have ha₂ := ha₁.trans hg.ages
  exact ⟨h₃, ⟨ha₂.root, ha₂.epoch, ha₂.version,
    fun p v hv => (ha₂.locate p v hv).imp (locate_reorder.trans ·) id⟩⟩

/-- The constructor and `reset` build a trie of the root alone. -/
theorem refill_eq_ok {nodes : ℕ → TrieNode} {epoch : ℕ} (hr : refill capacity nodes epoch = .ok t) :
    Shape capacity t ∧ t.globalLru = [] ∧ t.epoch = epoch := by
  rw [refill, getNode] at hr
  cases hp : (List.range capacity).reverse with
  | nil => simp [hp, bind, Except.bind] at hr
  | cons n pool =>
    simp only [hp, bind, Except.bind, Except.ok.injEq] at hr
    subst hr
    have hnode : ∀ p ∈ [n], Function.update nodes n { version := (nodes n).version } p
        = { version := (nodes n).version } := by
      intro p hp
      rw [List.mem_singleton.mp hp, Function.update_self]
    refine ⟨⟨?_, ?_, ?_, ?_, List.Pairwise.nil, ?_, ?_⟩, rfl, rfl⟩
    · exact (List.Perm.of_eq hp.symm).trans (List.reverse_perm _)
    · intro p hpl e he
      have : e ∈ ([] : List (ℤ × ℕ)) := by simpa only [Trie.modify, hnode p hpl] using he
      exact absurd this List.not_mem_nil
    · exact fun m hm => absurd hm List.not_mem_nil
    · intro p hpl
      simp only [Trie.modify, hnode p hpl]
      exact List.nodup_nil
    · intro p hpl
      simp only [Trie.modify, hnode p hpl]
      exact List.Perm.nil
    · intro p hpl
      simp only [Trie.modify, hnode p hpl]
      exact ⟨List.Perm.nil, List.Pairwise.nil⟩

theorem exists_refill {nodes : ℕ → TrieNode} {epoch : ℕ} (hc : 0 < capacity) :
    ∃ t, refill capacity nodes epoch = .ok t := by
  cases hp : (List.range capacity).reverse with
  | nil => simp at hp; omega
  | cons n pool => exact ⟨_, by rw [refill, getNode, hp]; rfl⟩

end Round

end NgramTrie

end HtSglang
