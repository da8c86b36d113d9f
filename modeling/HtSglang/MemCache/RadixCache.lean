import HtSglang.Library.Dict
import HtSglang.MemCache.RadixKey

/-!
# The radix cache

`RadixCache` of `mem_cache/radix_cache.py`: a tree of nodes, each with a piece of a key and
the slots of that piece, its children filed under the first page of their keys. Nodes are
objects of the program, so the tree is a store of nodes by identity
(`HtSglang.Radix.Cache`): a request keeps the identity of a node while the tree around it is
split, and an evicted node is still there for whoever holds it.

Which leaf is evicted first is the business of an eviction strategy. The strategy is the
choice of the position that is popped from the heap of candidates, whatever it looks at.
-/

namespace HtSglang

namespace Radix

/-- The parameters of the cache. -/
structure Config where
  pageSize : ℕ
  /-- `is_eagle`: all keys are taken in the bigram view. -/
  isEagle : Bool
  pos : 0 < pageSize

/-- The identity of a node. -/
abbrev NodeId := ℕ

/-- `TreeNode`. -/
structure TreeNode where
  /-- The children, by child key. -/
  children : List (ChildKey × NodeId)
  /-- The parent; the root has none. -/
  parent : Option NodeId
  /-- The piece of a key. -/
  key : RadixKey
  value : List ℤ
  lockRef : ℤ

/-- `RadixCache`. -/
structure Cache where
  /-- The nodes there are or were. -/
  nodes : NodeId → TreeNode
  /-- `TreeNode.counter`: the next identity. -/
  counter : ℕ
  evictableSize : ℤ
  protectedSize : ℤ
  /-- `evictable_leaves`, a set: without duplicates, in no order. -/
  evictableLeaves : List NodeId

/-- `root_node`. -/
def rootNode : NodeId := 0

/-- A node without content, as the root is made. -/
def emptyNode : TreeNode where
  children := []
  parent := none
  key := { tokenIds := [], extraKey := none, isBigram := false, limit := none }
  value := []
  lockRef := 1

/-- `reset`. -/
def reset : Cache where
  nodes := fun _ => emptyNode
  counter := 1
  evictableSize := 0
  protectedSize := 0
  evictableLeaves := []

section Operations

variable (cfg : Config)

/-! ### Leaves -/

/-- `_update_leaf_status`. -/
def updateLeafStatus (c : Cache) (n : NodeId) : Cache :=
  { c with
    evictableLeaves :=
      if 0 < (c.nodes n).lockRef ∨ (c.nodes n).children ≠ [] then
        c.evictableLeaves.filter fun m => m ≠ n
      else if n ∈ c.evictableLeaves then c.evictableLeaves
      else c.evictableLeaves ++ [n] }

/-- `_delete_leaf`. -/
def deleteLeaf (c : Cache) (n : NodeId) : Except RadixError Cache := do
  let key ← (c.nodes n).key.childKey cfg.pageSize
  match (c.nodes n).parent with
  | none => .error .noParent
  | some p =>
    if (c.nodes p).children.lookup key ≠ some n then .error .notAChild
    else
      .ok (updateLeafStatus
        { c with
          nodes := Function.update c.nodes p
            { c.nodes p with children := Dict.erase (c.nodes p).children key }
          evictableSize := c.evictableSize - (c.nodes n).key.len
          evictableLeaves := c.evictableLeaves.filter fun m => m ≠ n } p)

/-! ### Splitting -/

/-- What `_split_node` does when it has the parent and the two child keys: a new node takes
the first `splitLen` units of the child and its place. -/
def splitAt (c : Cache) (child p : NodeId) (lower upper : ChildKey) (splitLen : ℕ) : Cache :=
  let ch := c.nodes child
  let newNode := c.counter
  let nodes := Function.update c.nodes newNode
    { children := [(lower, child)]
      parent := some p
      key := ch.key.slice 0 splitLen
      value := ch.value.take splitLen
      lockRef := ch.lockRef }
  let nodes := Function.update nodes child
    { ch with
      parent := some newNode
      key := ch.key.slice splitLen ch.key.len
      value := ch.value.drop splitLen }
  let nodes := Function.update nodes p
    { nodes p with children := Dict.set (nodes p).children upper newNode }
  { c with nodes := nodes, counter := c.counter + 1 }

/-- `_split_node`: the cache and the new node. -/
def splitNode (c : Cache) (key : RadixKey) (child : NodeId) (splitLen : ℕ) :
    Except RadixError (Cache × NodeId) := do
  let lower ← (key.slice splitLen key.len).childKey cfg.pageSize
  let upper ← key.childKey cfg.pageSize
  match (c.nodes child).parent with
  | none => .error .noParent
  | some p => .ok (splitAt c child p lower upper splitLen, c.counter)

/-- The child key of what is left of a key; the old one stays when nothing is left. -/
def nextChildKey (key : RadixKey) (childKey : ChildKey) : Except RadixError ChildKey :=
  if 0 < key.len then key.childKey cfg.pageSize else .ok childKey

/-! ### Matching -/

/-- The loop of `_match_prefix_helper`. -/
def matchLoop : ℕ → Cache → NodeId → RadixKey → ChildKey → List (List ℤ) →
    Except RadixError (Cache × List (List ℤ) × NodeId)
  | 0, _, _, _, _, _ => .error .unfinished
  | fuel + 1, c, node, key, childKey, value =>
    if key.len = 0 then .ok (c, value, node)
    else
      match (c.nodes node).children.lookup childKey with
      | none => .ok (c, value, node)
      | some child => do
        let prefixLen ← (c.nodes child).key.matchWith key cfg.pageSize
        if prefixLen < (c.nodes child).key.len then
          let r ← splitNode cfg c (c.nodes child).key child prefixLen
          .ok (r.1, value ++ [(r.1.nodes r.2).value], r.2)
        else
          let key := key.slice prefixLen key.len
          let childKey ← nextChildKey cfg key childKey
          matchLoop fuel c child key childKey (value ++ [(c.nodes child).value])

/-- `_match_prefix_helper`. -/
def matchPrefixHelper (c : Cache) (node : NodeId) (key : RadixKey) :
    Except RadixError (Cache × List (List ℤ) × NodeId) := do
  let childKey ← key.childKey cfg.pageSize
  matchLoop cfg (key.len + 1) c node key childKey []

/-- `match_prefix`: the cache, the slots and the last node. -/
def matchPrefix (c : Cache) (key : RadixKey) : Except RadixError (Cache × List ℤ × NodeId) :=
  let key := key.toBigramView cfg.isEagle
  if key.len = 0 then .ok (c, [], rootNode)
  else
    let key := key.pageAligned cfg.pageSize
    if key.len = 0 then .ok (c, [], rootNode)
    else do
      let r ← matchPrefixHelper cfg c rootNode key
      .ok (r.1, r.2.1.flatten, r.2.2)

/-! ### Inserting -/

/-- The variables of the loop of `_insert_helper`. -/
structure Descent where
  cache : Cache
  /-- The node that was reached. -/
  node : NodeId
  /-- What is left of the key. -/
  key : RadixKey
  /-- The slots of what is left. -/
  value : List ℤ
  childKey : ChildKey
  totalPrefixLength : ℕ

/-- The node an insertion goes on from: the child when its key is matched in full, and the
new node above it when it had to be split. -/
def enterChild (c : Cache) (child : NodeId) (prefixLen : ℕ) :
    Except RadixError (Cache × NodeId) :=
  if prefixLen < (c.nodes child).key.len then splitNode cfg c (c.nodes child).key child prefixLen
  else .ok (c, child)

/-- The loop of `_insert_helper`. -/
def insertLoop : ℕ → Descent → Except RadixError Descent
  | 0, _ => .error .unfinished
  | fuel + 1, d =>
    if d.key.len = 0 then .ok d
    else
      match (d.cache.nodes d.node).children.lookup d.childKey with
      | none => .ok d
      | some child => do
        let prefixLen ← (d.cache.nodes child).key.matchWith d.key cfg.pageSize
        let r ← enterChild cfg d.cache child prefixLen
        let key := d.key.slice prefixLen d.key.len
        let childKey ← nextChildKey cfg key d.childKey
        insertLoop fuel
          { cache := r.1
            node := r.2
            key := key
            value := d.value.drop prefixLen
            childKey := childKey
            totalPrefixLength := d.totalPrefixLength + prefixLen }

/-- A new leaf for a key and its slots. -/
def addLeaf (c : Cache) (node : NodeId) (childKey : ChildKey) (key : RadixKey) (value : List ℤ) :
    Cache :=
  let newNode := c.counter
  let nodes := Function.update c.nodes newNode
    { children := [], parent := some node, key := key, value := value, lockRef := 0 }
  let nodes := Function.update nodes node
    { nodes node with children := Dict.set (nodes node).children childKey newNode }
  let c := { c with
    nodes := nodes
    counter := c.counter + 1
    evictableSize := c.evictableSize + key.len }
  updateLeafStatus (updateLeafStatus c node) newNode

/-- The end of `_insert_helper`: what is left of the key becomes a leaf. -/
def attach (d : Descent) : Cache × ℕ × NodeId :=
  if 0 < d.key.len then
    (addLeaf d.cache d.node d.childKey d.key d.value, d.totalPrefixLength, d.cache.counter)
  else (d.cache, d.totalPrefixLength, d.node)

/-- `_insert_helper`: the cache, the length that was there and the last node. -/
def insertHelper (c : Cache) (node : NodeId) (key : RadixKey) (value : List ℤ) :
    Except RadixError (Cache × ℕ × NodeId) :=
  if key.len = 0 then .ok (c, 0, node)
  else do
    let childKey ← key.childKey cfg.pageSize
    let d ← insertLoop cfg (key.len + 1)
      { cache := c, node := node, key := key, value := value, childKey := childKey
        totalPrefixLength := 0 }
    .ok (attach d)

/-- The key under which `match_prefix` and `insert` look: bigrams if so configured, whole
pages only. -/
def cacheKey (key : RadixKey) : RadixKey :=
  (key.toBigramView cfg.isEagle).pageAligned cfg.pageSize

/-- The slots `insert` stores: those it is given, or the token ids when it is given none. -/
def cacheValue (key : RadixKey) (value : Option (List ℤ)) : List ℤ :=
  match key.bigramValue cfg.isEagle value with
  | some v => v.take (cacheKey cfg key).len
  | none => (cacheKey cfg key).tokenIds.take (cacheKey cfg key).len

/-- `insert`. -/
def insert (c : Cache) (key : RadixKey) (value : Option (List ℤ)) :
    Except RadixError (Cache × ℕ × NodeId) :=
  insertHelper cfg c rootNode (cacheKey cfg key) (cacheValue cfg key value)

/-! ### Locking -/

/-- One node of `inc_lock_ref`. -/
def incNode (c : Cache) (n : NodeId) : Cache :=
  let node := c.nodes n
  let moved : ℤ := if node.lockRef = 0 then node.key.len else 0
  updateLeafStatus
    { c with
      nodes := Function.update c.nodes n { node with lockRef := node.lockRef + 1 }
      evictableSize := c.evictableSize - moved
      protectedSize := c.protectedSize + moved } n

/-- The loop of `inc_lock_ref`. -/
def incLoop : ℕ → Cache → NodeId → ℤ → Except RadixError (Cache × ℤ)
  | 0, _, _, _ => .error .unfinished
  | fuel + 1, c, n, delta =>
    if n = rootNode then .ok (c, delta)
    else
      match (c.nodes n).parent with
      | none => .error .noParent
      | some p =>
        incLoop fuel (incNode c n) p
          (if (c.nodes n).lockRef = 0 then delta - (c.nodes n).key.len else delta)

/-- `inc_lock_ref`: the cache and the change of the evictable size. -/
def incLockRef (c : Cache) (n : NodeId) : Except RadixError (Cache × ℤ) :=
  incLoop (c.counter + 1) c n 0

/-- One node of `dec_lock_ref`. -/
def decNode (c : Cache) (n : NodeId) : Cache :=
  let node := c.nodes n
  let moved : ℤ := if node.lockRef = 1 then node.key.len else 0
  updateLeafStatus
    { c with
      nodes := Function.update c.nodes n { node with lockRef := node.lockRef - 1 }
      evictableSize := c.evictableSize + moved
      protectedSize := c.protectedSize - moved } n

/-- The loop of `dec_lock_ref`. -/
def decLoop : ℕ → Cache → NodeId → ℤ → Except RadixError (Cache × ℤ)
  | 0, _, _, _ => .error .unfinished
  | fuel + 1, c, n, delta =>
    if n = rootNode then .ok (c, delta)
    else
      match (c.nodes n).parent with
      | none => .error .nodeFromAnotherTree
      | some p =>
        decLoop fuel (decNode c n) p
          (if (c.nodes n).lockRef = 1 then delta + (c.nodes n).key.len else delta)

/-- `dec_lock_ref`. -/
def decLockRef (c : Cache) (n : NodeId) : Except RadixError (Cache × ℤ) :=
  decLoop (c.counter + 1) c n 0

/-! ### Evicting -/

/-- The variables of `evict`. -/
structure Eviction where
  cache : Cache
  /-- `eviction_heap`. -/
  heap : List NodeId
  numEvicted : ℕ
  /-- What was given back to the allocator, call by call. -/
  freed : List (List ℤ)
  /-- The nodes that were reported as removed. -/
  removed : List NodeId

/-- One round of `evict`, with the position that is popped. -/
def evictOne (e : Eviction) (i : ℕ) : Except RadixError Eviction := do
  let x := e.heap.getD i rootNode
  let c ← deleteLeaf cfg e.cache x
  match (c.nodes x).parent with
  | none => .error .noParent
  | some p =>
    let heap := e.heap.eraseIdx i
    .ok
      { cache := c
        heap := if (c.nodes p).children = [] ∧ (c.nodes p).lockRef = 0 then heap ++ [p] else heap
        numEvicted := e.numEvicted + (e.cache.nodes x).value.length
        freed := e.freed ++ [(e.cache.nodes x).value]
        removed := e.removed ++ [x] }

/-- The loop of `evict`. -/
def evictLoop (strategy : Cache → List NodeId → ℕ) (numTokens : ℕ) :
    ℕ → Eviction → Except RadixError Eviction
  | 0, _ => .error .unfinished
  | fuel + 1, e =>
    if e.numEvicted < numTokens ∧ e.heap ≠ [] then do
      let e ← evictOne cfg e (strategy e.cache e.heap % e.heap.length)
      evictLoop strategy numTokens fuel e
    else .ok e

/-- `evict`. -/
def evict (c : Cache) (strategy : Cache → List NodeId → ℕ) (numTokens : ℕ) :
    Except RadixError Eviction :=
  evictLoop cfg strategy numTokens (c.counter + 1)
    { cache := c, heap := c.evictableLeaves, numEvicted := 0, freed := [], removed := [] }

end Operations

end Radix

end HtSglang
