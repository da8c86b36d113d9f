import HtSglang.Library.OpRun
import HtSglang.MemCache.RadixDescent

/-!
# The radix cache in use

The cache used through its operations: matching, inserting, locking and unlocking nodes that
were returned, evicting (`HtSglang.Radix.system`). Beside the cache the state remembers what the
users did: the nodes they were given, the locks they hold, the nodes that were evicted, and
the inserts and evictions so far.

The books are stated on the tree as one finds it from the root
(`HtSglang.Radix.InTree`, `HtSglang.Radix.Below`), without the layout of the proofs. They are exact
in every state that is reached by locking only nodes that have not been evicted since they
were returned (`HtSglang.Radix.radix_books_exact`); a lock on an evicted node is counted in
books it is no longer part of (`HtSglang.Radix.stale_lock_breaks_books`).
-/

namespace HtSglang

namespace Radix

/-! ### The system -/

/-- What happened to the contents of the cache. -/
inductive Event
  /-- Slots were given for the units of a key. -/
  | insert (extraKey : Option String) (units : List LogicalUnit) (slots : List ℤ)
  /-- A node was evicted: the units from the root to its end, and how many were its own. -/
  | evict (extraKey : Option String) (units : List LogicalUnit) (own : ℕ)

/-- The cache and what its users did. -/
structure State where
  cache : Cache
  /-- The nodes returned by matches and inserts. -/
  returned : List NodeId
  /-- The outstanding locks. -/
  locks : List NodeId
  /-- The nodes that were evicted. -/
  evicted : List NodeId
  /-- What happened to the contents, latest first. -/
  log : List Event

/-- An operation on the cache. -/
inductive Op
  | insert (key : RadixKey) (value : Option (List ℤ))
  | matchPrefix (key : RadixKey)
  | incLockRef (n : NodeId)
  | decLockRef (n : NodeId)
  /-- `evict`, under an eviction strategy. -/
  | evict (strategy : Cache → List NodeId → ℕ) (numTokens : ℕ)

/-- The units from the root to a node, collected on the way up. -/
def unitsLoop (c : Cache) : ℕ → NodeId → List LogicalUnit → List LogicalUnit
  | 0, _, units => units
  | fuel + 1, n, units =>
    if n = rootNode then units
    else
      match (c.nodes n).parent with
      | none => units
      | some p => unitsLoop c fuel p ((c.nodes n).key.units ++ units)

/-- The units from the root to a node. -/
def unitsTo (c : Cache) (n : NodeId) : List LogicalUnit := unitsLoop c (c.counter + 1) n []

/-- The event of an eviction, in the cache from which the node is evicted. -/
def evictEvent (c : Cache) (n : NodeId) : Event :=
  .evict (c.nodes n).key.extraKey (unitsTo c n) (c.nodes n).key.len

variable (cfg : Config)

/-- The event of an insertion: the units of the key, and the slots it is given – its token
ids when it is given none. -/
def insertEvent (key : RadixKey) (value : Option (List ℤ)) : Event :=
  .insert key.extraKey (key.toBigramView cfg.isEagle).units (value.getD key.tokenIds)

/-- One operation. -/
def step (s : State) : Op → Except RadixError State
  | .insert key value => do
    let r ← insert cfg s.cache key value
    .ok { s with
      cache := r.1
      returned := r.2.2 :: s.returned
      log := insertEvent cfg key value :: s.log }
  | .matchPrefix key => do
    let r ← matchPrefix cfg s.cache key
    .ok { s with cache := r.1, returned := r.2.2 :: s.returned }
  | .incLockRef n => do
    let r ← incLockRef s.cache n
    .ok { s with cache := r.1, locks := n :: s.locks }
  | .decLockRef n => do
    let r ← decLockRef s.cache n
    .ok { s with cache := r.1, locks := s.locks.erase n }
  | .evict strategy numTokens => do
    let e ← evict cfg s.cache strategy numTokens
    .ok { s with
      cache := e.cache
      evicted := e.removed ++ s.evicted
      log := e.removed.reverse.map (evictEvent s.cache) ++ s.log }

/-- What the users promise: they lock nodes they were given, and undo locks they hold. -/
def Permitted (s : State) : Op → Prop
  | .incLockRef n => n ∈ s.returned
  | .decLockRef n => n ∈ s.locks
  | _ => True

instance (s : State) (op : Op) : Decidable (Permitted s op) :=
  match op with
  | .incLockRef n => inferInstanceAs (Decidable (n ∈ s.returned))
  | .decLockRef n => inferInstanceAs (Decidable (n ∈ s.locks))
  | .insert _ _ => .isTrue trivial
  | .matchPrefix _ => .isTrue trivial
  | .evict _ _ => .isTrue trivial

/-- The radix cache in use. -/
def system : OpSystem State Op RadixError where
  step := step cfg
  Permitted := Permitted

instance (s : State) (op : Op) : Decidable ((system cfg).Permitted s op) :=
  inferInstanceAs (Decidable (Permitted s op))

/-- A new cache. -/
def start : State where
  cache := reset
  returned := []
  locks := []
  evicted := []
  log := []

/-- No lock is taken on a node that was evicted since it was returned. -/
def LocksPresent (s : State) : Op → Prop
  | .incLockRef n => n ∉ s.evicted
  | _ => True

instance (s : State) (op : Op) : Decidable (LocksPresent s op) :=
  match op with
  | .incLockRef n => inferInstanceAs (Decidable (n ∉ s.evicted))
  | .decLockRef _ => .isTrue trivial
  | .insert _ _ => .isTrue trivial
  | .matchPrefix _ => .isTrue trivial
  | .evict _ _ => .isTrue trivial

/-! ### The tree from the root -/

/-- A node is filed as a child of another one. -/
def ChildOf (c : Cache) (n m : NodeId) : Prop := ∃ k, (c.nodes n).children.lookup k = some m

/-- A node is in the subtree of another one. -/
def Below (c : Cache) : NodeId → NodeId → Prop := Relation.ReflTransGen (ChildOf c)

/-- A node is in the tree. -/
def InTree (c : Cache) (n : NodeId) : Prop := Below c rootNode n

open Classical in
/-- **The books are exact.** -/
structure BooksExact (cfg : Config) (c : Cache) (locks : List NodeId) : Prop where
  /-- A node counts the locks in its subtree. -/
  lockRef : ∀ n, InTree c n → n ≠ rootNode →
    (c.nodes n).lockRef = (locks.countP fun m => decide (Below c n m) : ℕ)
  /-- The two sizes are those of the unlocked and of the locked nodes. -/
  sizes : ∃ nodes : Finset NodeId, (∀ n, n ∈ nodes ↔ InTree c n ∧ n ≠ rootNode) ∧
    c.evictableSize = ∑ n ∈ nodes with (c.nodes n).lockRef = 0, ((c.nodes n).key.len : ℤ) ∧
    c.protectedSize = ∑ n ∈ nodes with 0 < (c.nodes n).lockRef, ((c.nodes n).key.len : ℤ)
  /-- `evictable_leaves` is the set of the unlocked nodes without children. -/
  leaves : ∀ n, n ∈ c.evictableLeaves ↔
    InTree c n ∧ n ≠ rootNode ∧ (c.nodes n).lockRef = 0 ∧ (c.nodes n).children = []
  leaves_nodup : c.evictableLeaves.Nodup
  keys : ∀ n, InTree c n → n ≠ rootNode →
    0 < (c.nodes n).key.len ∧ cfg.pageSize ∣ (c.nodes n).key.len
  /-- Nodes are filed under their own child key. -/
  filed : ∀ n m k, InTree c n → (c.nodes n).children.lookup k = some m →
    (c.nodes m).key.childKey cfg.pageSize = .ok k ∧ (c.nodes m).parent = some n

/-- **An eviction is exact**: it removes unlocked nodes of the tree, frees the slots of each
of them once and nothing else, and stops early only when no unlocked leaf is left. -/
structure EvictExact (c : Cache) (numTokens : ℕ) (e : Eviction) : Prop where
  nodup : e.removed.Nodup
  /-- What is removed was in the tree and not locked. -/
  unlocked : ∀ n ∈ e.removed, InTree c n ∧ n ≠ rootNode ∧ (c.nodes n).lockRef = 0
  rest : ∀ n, InTree e.cache n ↔ InTree c n ∧ n ∉ e.removed
  /-- What is freed are the slots of what is removed. -/
  freed : e.freed = e.removed.map fun n => (c.nodes n).value
  counted : e.numEvicted = (e.freed.map List.length).sum
  /-- It stops early only for want of leaves. -/
  early : e.numEvicted < numTokens → ∀ n, InTree e.cache n → n ≠ rootNode →
    (e.cache.nodes n).lockRef = 0 → (e.cache.nodes n).children ≠ []

section Tree

variable {cfg} {c : Cache} {l : Layout} {locks : List NodeId} {n m : NodeId}

theorem Shape.below_iff (h : Shape cfg c l) (hn : n ∈ l.alive) :
    Below c n m ↔ m ∈ l.alive ∧ n ∈ l.above m := by
  constructor
  · intro hm
    induction hm with
    | refl => exact ⟨hn, h.tree.self_mem_above hn⟩
    | tail _ hb ih =>
      obtain ⟨k, hk⟩ := hb
      obtain ⟨hbal, hbr, hbp, -⟩ := h.child _ ih.1 k _ hk
      exact ⟨hbal, h.tree.above_eq hbal hbr hbp ▸ Finset.mem_insert_of_mem ih.2⟩
  · rintro ⟨hm, hab⟩
    refine h.tree.induction (C := fun m => ∀ n ∈ l.above m, Below c n m) ?_ ?_ m hm n hab
    · intro n hn
      rw [h.tree.above_root, Finset.mem_singleton] at hn
      exact hn ▸ .refl
    · intro m hm p _ hmr hp ih n hn
      rw [h.tree.above_eq hm hmr hp, Finset.mem_insert] at hn
      rcases hn with rfl | hn
      · exact .refl
      · exact (ih n hn).tail ⟨_, h.filed m hm hmr p hp⟩

/-- The nodes of the layout are those one finds from the root. -/
theorem Shape.inTree_iff (h : Shape cfg c l) : InTree c n ↔ n ∈ l.alive := by
  rw [InTree, h.below_iff h.tree.root_mem]
  exact ⟨fun hn => hn.1, fun hn => ⟨hn, h.tree.root_mem_above hn⟩⟩

/-- The invariant makes the books exact. -/
theorem Inv.booksExact (h : Inv cfg c l locks) : BooksExact cfg c locks := by
  classical
  refine ⟨?_, ?_, ?_, h.books.nodup, ?_, ?_⟩
  · intro n hn hnr
    have hn := h.shape.inTree_iff.mp hn
    rw [h.locks.count n hn hnr]
    refine congrArg Nat.cast (List.countP_congr fun m hm => ?_)
    simp only [decide_eq_true_eq]
    rw [h.shape.below_iff hn]
    exact ⟨fun hab => ⟨h.locks.mem m hm, hab⟩, fun hab => hab.2⟩
  · refine ⟨l.alive.erase rootNode, ?_, ?_, ?_⟩
    · intro n
      rw [Finset.mem_erase, h.shape.inTree_iff, and_comm]
    · rw [h.books.evictable, Finset.sum_filter]
      rfl
    · rw [h.books.guarded, Finset.sum_filter]
      refine Finset.sum_congr rfl fun n hn => ?_
      have := h.books.nonneg n (Finset.mem_of_mem_erase hn)
      rw [TreeNode.guarded]
      split
      · next hz => rw [if_neg (by omega)]
      · next hz => rw [if_pos (by omega)]
  · intro n
    rw [h.books.leaves, h.shape.inTree_iff]
  · intro n hn hnr
    exact h.shape.key_pages n (h.shape.inTree_iff.mp hn) hnr
  · intro n m k hn hk
    obtain ⟨hm, hmr, hmp, hmf⟩ := h.shape.child n (h.shape.inTree_iff.mp hn) k m hk
    exact ⟨hmf ▸ h.shape.childKey_eq hm hmr, hmp⟩

/-- Under the invariant every eviction is exact. -/
theorem Inv.evictExact (h : Inv cfg c l locks) (strategy : Cache → List NodeId → ℕ)
    (numTokens : ℕ) :
    ∃ e, Radix.evict cfg c strategy numTokens = .ok e ∧ EvictExact c numTokens e := by
  obtain ⟨e, hok, h', he, hearly⟩ := h.evict strategy numTokens
  refine ⟨e, hok, he.removed_nodup, ?_, ?_, he.freed, he.counted, ?_⟩
  · intro n hn
    rw [h.shape.inTree_iff]
    exact he.removed_mem n hn
  · intro n
    rw [h'.shape.inTree_iff, h.shape.inTree_iff, Finset.mem_sdiff, List.mem_toFinset]
  · intro hlt n hn hnr hlock hleaf
    have hmem := (h'.books.leaves n).mpr ⟨h'.shape.inTree_iff.mp hn, hnr, hlock, hleaf⟩
    rw [hearly hlt] at hmem
    cases hmem

end Tree

/-! ### Runs -/

/-- **The invariant of a run**: that of the cache, and a node that was returned is in the
tree or was evicted. -/
structure Running (cfg : Config) (s : State) (l : Layout) : Prop where
  inv : Inv cfg s.cache l s.locks
  returned : ∀ n ∈ s.returned, n ∈ l.alive ∨ n ∈ s.evicted
  /-- The identities of evicted nodes are not used again. -/
  evicted : ∀ n ∈ s.evicted, n ∉ l.alive ∧ n < s.cache.counter

section Runs

variable {cfg} {s : State} {l : Layout}

theorem SplitOnce.grows {c c' : Cache} {l' : Layout} (hs : SplitOnce cfg c l c' l') :
    (∀ n ∈ l.alive, n ∈ l'.alive) ∧ c.counter ≤ c'.counter ∧
      ∀ n < c.counter, n ∈ l'.alive → n ∈ l.alive := by
  rcases hs with ⟨rfl, rfl⟩ | ⟨x, p, k, -, rfl, rfl⟩
  · exact ⟨fun _ hn => hn, le_rfl, fun _ _ hn => hn⟩
  · refine ⟨fun n hn => Finset.mem_insert_of_mem hn, Nat.le_succ _, fun n hlt hn => ?_⟩
    rcases Finset.mem_insert.mp hn with rfl | hn
    · exact absurd hlt (lt_irrefl _)
    · exact hn

theorem Attached.grows {c c' : Cache} {l' : Layout} {n m : NodeId} {key : RadixKey}
    {value : List ℤ} (ha : Attached cfg c l n key value c' l' m) :
    (∀ n ∈ l.alive, n ∈ l'.alive) ∧ c.counter ≤ c'.counter ∧
      ∀ n < c.counter, n ∈ l'.alive → n ∈ l.alive := by
  cases ha with
  | there _ => exact ⟨fun _ hn => hn, le_rfl, fun _ _ hn => hn⟩
  | leaf _ =>
    refine ⟨fun n hn => Finset.mem_insert_of_mem hn, Nat.le_succ _, fun n hlt hn => ?_⟩
    rcases Finset.mem_insert.mp hn with rfl | hn
    · exact absurd hlt (lt_irrefl _)
    · exact hn

/-- **What an operation does** to the state and to the layout of its tree. -/
inductive Stepped (cfg : Config) (s : State) (l : Layout) : Op → State → Layout → Prop
  /-- An insert goes down and adds what is left. -/
  | insert {key key' : RadixKey} {value : Option (List ℤ)} {c₁ c₂ : Cache} {l₁ l₂ : Layout}
      {n m : NodeId} (hland : Landed cfg s.cache l rootNode (cacheKey cfg key) c₁ l₁ n key')
      (hatt : Attached cfg c₁ l₁ n key' ((cacheValue cfg key value).drop (l₁.path n).length)
        c₂ l₂ m) :
      Stepped cfg s l (.insert key value)
        { s with
          cache := c₂
          returned := m :: s.returned
          log := insertEvent cfg key value :: s.log } l₂
  /-- A match goes down. -/
  | matchPrefix {key key' : RadixKey} {c₁ : Cache} {l₁ : Layout} {n : NodeId}
      (hland : Landed cfg s.cache l rootNode (cacheKey cfg key) c₁ l₁ n key') :
      Stepped cfg s l (.matchPrefix key)
        { s with cache := c₁, returned := n :: s.returned } l₁
  /-- Locking and unlocking change lock counts. -/
  | relock {op : Op} {c₁ : Cache} {locks : List NodeId} {d : NodeId → ℤ}
      (hinv : Inv cfg c₁ l locks) (hrel : Relocked s.cache c₁ d) :
      Stepped cfg s l op { s with cache := c₁, locks := locks } l
  /-- An eviction removes nodes. -/
  | evict {strategy : Cache → List NodeId → ℕ} {numTokens : ℕ} {e : Eviction}
      (hinv : Inv cfg e.cache { l with alive := l.alive \ e.removed.toFinset } s.locks)
      (he : Evicting cfg s.cache l s.locks e) :
      Stepped cfg s l (.evict strategy numTokens)
        { s with
          cache := e.cache
          evicted := e.removed ++ s.evicted
          log := e.removed.reverse.map (evictEvent s.cache) ++ s.log }
        { l with alive := l.alive \ e.removed.toFinset }

/-- **No operation fails** that is permitted and locks no evicted node. -/
theorem Running.exists_step (hr : Running cfg s l) {op : Op} (hperm : Permitted s op)
    (hguard : LocksPresent s op) :
    ∃ s' l', Radix.step cfg s op = .ok s' ∧ Stepped cfg s l op s' l' := by
  cases op with
  | insert key value =>
    obtain ⟨c', l', n', key', c'', l'', m, hok, hland, hatt⟩ := hr.inv.insert key value
    refine ⟨_, l'', ?_, .insert hland hatt⟩
    simp only [Radix.step, bind, Except.bind, hok]
  | matchPrefix key =>
    obtain ⟨c', l', n', key', hok, hland⟩ := hr.inv.matchPrefix key
    refine ⟨_, l', ?_, .matchPrefix hland⟩
    simp only [Radix.step, bind, Except.bind, hok]
  | incLockRef n =>
    obtain ⟨c', hok, hinv, hrel⟩ := hr.inv.incLockRef ((hr.returned n hperm).resolve_right hguard)
    refine ⟨_, l, ?_, .relock hinv hrel⟩
    simp only [Radix.step, bind, Except.bind, hok]
  | decLockRef n =>
    obtain ⟨c', hok, hinv, hrel⟩ := hr.inv.decLockRef (n := n) hperm
    refine ⟨_, l, ?_, .relock hinv hrel⟩
    simp only [Radix.step, bind, Except.bind, hok]
  | evict strategy numTokens =>
    obtain ⟨e, hok, hinv, he, -⟩ := hr.inv.evict strategy numTokens
    refine ⟨_, _, ?_, .evict hinv he⟩
    simp only [Radix.step, bind, Except.bind, hok]

/-- A change that only adds nodes keeps what is known of returned and evicted ones. -/
theorem Running.grow (hr : Running cfg s l) {c' : Cache} {l' : Layout} {m : NodeId}
    (log : List Event) (hinv : Inv cfg c' l' s.locks) (hm : m ∈ l'.alive)
    (hg : (∀ n ∈ l.alive, n ∈ l'.alive) ∧ s.cache.counter ≤ c'.counter ∧
      ∀ n < s.cache.counter, n ∈ l'.alive → n ∈ l.alive) :
    Running cfg { s with cache := c', returned := m :: s.returned, log := log } l' := by
  refine ⟨hinv, ?_, ?_⟩
  · intro n hn
    rcases List.mem_cons.mp hn with rfl | hn
    · exact Or.inl hm
    · exact (hr.returned n hn).imp_left (hg.1 n)
  · intro n hn
    obtain ⟨hnal, hlt⟩ := hr.evicted n hn
    exact ⟨fun hc => hnal (hg.2.2 n hlt hc), hlt.trans_le hg.2.1⟩

/-- **Every operation keeps the invariant of runs.** -/
theorem Running.stepped (hr : Running cfg s l) {op : Op} {s' : State} {l' : Layout}
    (hst : Stepped cfg s l op s' l') : Running cfg s' l' := by
  cases hst with
  | insert hland hatt =>
    obtain ⟨hinv, hm⟩ := hatt.inv hland hr.inv
    have hg := hland.once.grows
    have hg' := hatt.grows
    refine hr.grow _ hinv hm ⟨fun n hn => hg'.1 n (hg.1 n hn), hg.2.1.trans hg'.2.1, ?_⟩
    exact fun n hlt hn => hg.2.2 n hlt (hg'.2.2 n (hlt.trans_le hg.2.1) hn)
  | matchPrefix hland =>
    exact hr.grow s.log (hland.once.inv hr.inv) hland.mem hland.once.grows
  | relock hinv hrel =>
    refine ⟨hinv, hr.returned, fun m hm => ?_⟩
    rw [hrel.counter]
    exact hr.evicted m hm
  | evict hinv he =>
    rename_i e
    refine ⟨hinv, ?_, ?_⟩
    · intro n hn
      rcases hr.returned n hn with hal | hev
      · by_cases hrem : n ∈ e.removed
        · exact Or.inr (List.mem_append_left _ hrem)
        · exact Or.inl (Finset.mem_sdiff.mpr ⟨hal, fun hc => hrem (List.mem_toFinset.mp hc)⟩)
      · exact Or.inr (List.mem_append_right _ hev)
    · intro n hn
      rw [he.counter]
      rcases List.mem_append.mp hn with hrem | hev
      · exact ⟨fun hc => (Finset.mem_sdiff.mp hc).2 (List.mem_toFinset.mpr hrem),
          hr.inv.shape.fresh n (he.removed_mem n hrem).1⟩
      · exact ⟨fun hc => (hr.evicted n hev).1 (Finset.mem_sdiff.mp hc).1, (hr.evicted n hev).2⟩

theorem Running.start (cfg : Config) : Running cfg start Layout.empty :=
  ⟨Inv.reset cfg, (fun _ hn => nomatch hn), (fun _ hn => nomatch hn)⟩

theorem reaches_running (h : (system cfg).Reaches LocksPresent start s) :
    ∃ l, Running cfg s l := by
  refine h.invariant (I := fun s => ∃ l, Running cfg s l) ⟨_, Running.start cfg⟩ ?_
  rintro s op s' ⟨l, hr⟩ hperm hguard hok
  obtain ⟨s₁, l₁, hok₁, hst⟩ := hr.exists_step hperm hguard
  obtain rfl : s₁ = s' := Except.ok.inj (hok₁.symm.trans hok)
  exact ⟨l₁, hr.stepped hst⟩

end Runs

/-- **The books of the radix cache are exact** in every state that is reached by locking
only nodes that were not evicted since they were returned; evictions are, too, and no
operation fails. -/
theorem radix_books_exact {s : State} (h : (system cfg).Reaches LocksPresent start s) :
    BooksExact cfg s.cache s.locks ∧
      (∀ strategy numTokens, ∃ e, evict cfg s.cache strategy numTokens = .ok e ∧
        EvictExact s.cache numTokens e) ∧
      ∀ op, Permitted s op → LocksPresent s op → ∃ s', (system cfg).step s op = .ok s' := by
  obtain ⟨l, hr⟩ := reaches_running h
  refine ⟨hr.inv.booksExact, hr.inv.evictExact, ?_⟩
  intro op hperm hguard
  obtain ⟨s', -, hok, -⟩ := hr.exists_step hperm hguard
  exact ⟨s', hok⟩

/-- A key of plain tokens. -/
def plainKey (tokens : List ℤ) : RadixKey :=
  { tokenIds := tokens, extraKey := none, isBigram := false, limit := none }

/-- Pages of one token. -/
def tokenPages : Config := { pageSize := 1, isEagle := false, pos := Nat.one_pos }

/-- Two prompts that share a token are inserted, the longer one is locked where the first
one split it, and one token is evicted. -/
def lockAndEvict : List Op :=
  [.insert (plainKey [1, 2, 3]) (some [10, 11, 12]), .insert (plainKey [1, 5]) (some [20, 21]),
    .matchPrefix (plainKey [1, 2, 3]), .incLockRef 1, .evict (fun _ _ => 0) 1, .decLockRef 1]

theorem radix_books_exact_lockAndEvict :
    ∃ s, (system tokenPages).Reaches LocksPresent start s ∧ s.cache.evictableSize = 3 ∧
      BooksExact tokenPages s.cache s.locks := by
  have hrun : ((system tokenPages).run LocksPresent start lockAndEvict).any
      (fun s => s.cache.evictableSize == 3) = true := by decide +kernel
  obtain ⟨s, hs, hsize⟩ := (Option.any_eq_true _ _).mp hrun
  have hreach := OpSystem.Reaches.of_run .refl hs
  exact ⟨s, hreach, eq_of_beq hsize, (radix_books_exact tokenPages hreach).1⟩

/-- A prompt is inserted and evicted, and then the node that was returned for it is locked. -/
def lockEvicted : List Op :=
  [.insert (plainKey [1]) (some [10]), .evict (fun _ _ => 0) 1, .incLockRef 1]

/-- **A lock on an evicted node breaks the books**: the evictable size drops below zero. -/
theorem stale_lock_breaks_books :
    ∃ s, (system tokenPages).Reaches (fun _ _ => True) start s ∧
      ¬BooksExact tokenPages s.cache s.locks := by
  have hrun : ((system tokenPages).run (fun _ _ => True) start lockEvicted).any
      (fun s => s.cache.evictableSize == -1) = true := by decide +kernel
  obtain ⟨s, hs, hsize⟩ := (Option.any_eq_true _ _).mp hrun
  refine ⟨s, OpSystem.Reaches.of_run .refl hs, fun hexact => ?_⟩
  obtain ⟨nodes, -, hev, -⟩ := hexact.sizes
  rw [eq_of_beq hsize] at hev
  have : 0 ≤ ∑ n ∈ nodes with (s.cache.nodes n).lockRef = 0, ((s.cache.nodes n).key.len : ℤ) :=
    Finset.sum_nonneg fun n _ => Int.natCast_nonneg _
  omega

end Radix

end HtSglang
