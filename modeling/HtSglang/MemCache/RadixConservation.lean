import HtSglang.MemCache.RadixRequests

/-!
# Slots are conserved

Every page of the pool is free, in one node of the tree, or among the slots that were allocated
for one request: `HtSglang.Radix.Requests.Conserving`, kept by every step that does not cache a
request beyond where its own slots begin while it is protected further than that
(`HtSglang.Radix.Requests.KeepsSlots`). A request that goes on from all of its match is protected
up to where its own slots begin, so without clamps every step is of that kind.

An insert divides the slots a request allocated in three: up to the length that was in the tree
they are duplicates and are freed, from there to the end of the key the tree takes them, and
the rest stays with the request (`HtSglang.Radix.Requests.ReqOk.inserted`).
-/

namespace HtSglang

namespace Radix

namespace Requests

variable {S : Setup} {s : State} {c c' : Cache} {l l' : Layout} {r : Req}

/-! ### The keys of requests -/

/-- The units of tokens, in the view of the cache. -/
def viewUnits (S : Setup) (tokens : List ℤ) : List LogicalUnit :=
  if S.cache.isEagle then bigrams tokens else tokens.map .token

/-- How many units of so many tokens are cached. -/
def keyLen (S : Setup) (n : ℕ) : ℕ :=
  (if S.cache.isEagle then n - 1 else n) / S.cache.pageSize * S.cache.pageSize

theorem keyLen_le (S : Setup) (n : ℕ) : keyLen S n ≤ n := by
  have hdiv := Nat.div_mul_le_self (if S.cache.isEagle then n - 1 else n) S.cache.pageSize
  rw [keyLen]
  refine hdiv.trans ?_
  split <;> omega

theorem dvd_keyLen (S : Setup) (n : ℕ) : S.cache.pageSize ∣ keyLen S n := Nat.dvd_mul_left _ _

/-- More slots are enough for the key when they are one more than before. -/
theorem le_keyLen {k m n : ℕ} (hk : S.cache.pageSize ∣ k) (hkm : k ≤ m) (hmn : m < n) :
    k ≤ keyLen S n := by
  rw [keyLen, le_div_mul_iff hk]
  split <;> omega

theorem viewUnits_take (S : Setup) (tokens : List ℤ) (n : ℕ) :
    viewUnits S (tokens.take n)
      = (viewUnits S tokens).take (if S.cache.isEagle then n - 1 else n) := by
  rw [viewUnits, viewUnits]
  split
  · rw [take_bigrams]
    rcases n with _ | n
    · rcases tokens with _ | ⟨t, ts⟩ <;> rfl
    · rfl
  · rw [List.map_take]

theorem len_reqKey (hroom : r.row.length ≤ r.tokens.length) :
    (reqKey S r).len = keyLen S r.row.length := by
  rw [reqKey, RadixKey.len_pageAligned, RadixKey.len, RadixKey.rawLen, List.length_take,
    min_eq_left hroom]
  rfl

theorem toBigramView_reqKey : (reqKey S r).toBigramView S.cache.isEagle = reqKey S r := by
  have : (reqKey S r).isBigram = S.cache.isEagle := by
    rw [reqKey, RadixKey.pageAligned]
    split
    · rfl
    · rw [RadixKey.isBigram_slice]
  rw [RadixKey.toBigramView, this, if_neg]
  exact fun hc => hc.2 hc.1

theorem len_cacheKey_reqKey (hroom : r.row.length ≤ r.tokens.length) :
    (cacheKey S.cache (reqKey S r)).len = keyLen S r.row.length := by
  rw [len_cacheKey, toBigramView_reqKey, len_reqKey hroom, keyLen,
    Nat.mul_div_cancel _ S.cache.pos]

/-- **The key of a request is a prefix of its tokens.** -/
theorem units_cacheKey_reqKey (hroom : r.row.length ≤ r.tokens.length) :
    (cacheKey S.cache (reqKey S r)).units
      = (viewUnits S r.tokens).take (keyLen S r.row.length) := by
  rw [cacheKey_units, toBigramView_reqKey, len_cacheKey_reqKey hroom, reqKey,
    RadixKey.units_pageAligned, RadixKey.units_of_noLimit, ← viewUnits, viewUnits_take,
    List.take_take, List.take_take]
  congr 1
  have hlen := len_reqKey (S := S) hroom
  rw [reqKey, RadixKey.len_pageAligned] at hlen
  rw [hlen, min_self, keyLen]
  exact min_eq_left (Nat.div_mul_le_self _ _)

theorem extraKey_reqKey : (reqKey S r).extraKey = r.extraKey := RadixKey.extraKey_pageAligned _ _

/-- What a request is matched with is a prefix of its tokens. -/
theorem units_cacheKey_isPrefix (tokens : List ℤ) (extraKey : Option String) (limit : Option ℕ) :
    (cacheKey S.cache (RadixKey.mk tokens extraKey false limit)).units <+: viewUnits S tokens := by
  rw [cacheKey_units]
  refine (List.take_prefix _ _).trans ?_
  rw [RadixKey.units_eq, viewUnits, RadixKey.toBigramView]
  cases S.cache.isEagle
  · exact List.take_prefix _ _
  · exact List.take_prefix _ _

/-! ### Requests -/

/-- The pages a request holds. -/
def ownPages (S : Setup) (r : Req) : List ℤ := pagesOf S.cache.pageSize (r.row.drop r.ownFrom)

/-- The pages the requests hold. -/
def reqPages (S : Setup) (reqs : List (ℕ × Req)) : Multiset ℤ :=
  (reqs.map fun x => (ownPages S x.2 : Multiset ℤ)).sum

/-- **What holds of a request.** -/
structure ReqOk (S : Setup) (c : Cache) (l : Layout) (r : Req) : Prop where
  mem : r.lastNode ∈ l.alive
  /-- The node is on the way of its tokens. -/
  path : l.path r.lastNode <+: viewUnits S r.tokens
  /-- It is protected up to the node. -/
  protectedLen : r.protectedLen = (l.path r.lastNode).length
  /-- The node is under its extra key. -/
  extraKey : r.lastNode ≠ rootNode → (c.nodes r.lastNode).key.extraKey = r.extraKey
  room : r.row.length ≤ r.tokens.length
  /-- Its own slots begin in the row. -/
  own_le : r.ownFrom ≤ r.row.length
  /-- Not after what is protected. -/
  own_le_protected : r.ownFrom ≤ r.protectedLen
  /-- They begin with a page. -/
  own_dvd : S.cache.pageSize ∣ r.ownFrom
  /-- They are in pages. -/
  paged : ∃ pages, Paged S.cache.pageSize (r.row.drop r.ownFrom) pages
  /-- When it has a row, its key goes as far as that. -/
  pooled : r.pooled = true → r.ownFrom ≤ keyLen S r.row.length

theorem ReqOk.grows (h : ReqOk S c l r) (hg : Grows c l c' l') : ReqOk S c' l' r := by
  refine ⟨hg.mem _ h.mem, ?_, ?_, fun hr => ?_, h.room, h.own_le, h.own_le_protected, h.own_dvd,
    h.paged, h.pooled⟩
  · rw [hg.path _ h.mem]
    exact h.path
  · rw [hg.path _ h.mem]
    exact h.protectedLen
  · rw [hg.extraKey _ h.mem]
    exact h.extraKey hr

/-- A slice of the row that begins in the request's own slots. -/
theorem ReqOk.slices (h : ReqOk S c l r) {p k : ℕ} (hp : r.ownFrom ≤ p) (hpk : p ≤ k)
    (hk : k ≤ r.row.length) (hpd : S.cache.pageSize ∣ p) (hkd : S.cache.pageSize ∣ k) :
    (∃ P, Paged S.cache.pageSize ((r.row.take p).drop r.ownFrom) P) ∧
      (∃ P, Paged S.cache.pageSize ((r.row.take k).drop p) P) ∧
      (∃ P, Paged S.cache.pageSize (r.row.drop k) P) ∧
      (ownPages S r : Multiset ℤ)
        = pagesOf S.cache.pageSize ((r.row.take p).drop r.ownFrom)
          + pagesOf S.cache.pageSize ((r.row.take k).drop p)
          + pagesOf S.cache.pageSize (r.row.drop k) := by
  obtain ⟨pages, hpages⟩ := h.paged
  have hd := h.own_dvd
  obtain ⟨h1, ⟨P2, h2⟩, hcut⟩ := pagesOf_cut S.cache hpages (Nat.dvd_sub hpd hd)
    (by rw [List.length_drop]; omega)
  rw [List.drop_drop, Nat.add_sub_cancel' hp] at h2 hcut
  obtain ⟨h3, h4, hcut'⟩ := pagesOf_cut S.cache h2 (Nat.dvd_sub hkd hpd)
    (by rw [List.length_drop]; omega)
  rw [List.drop_drop, Nat.add_sub_cancel' hpk] at h4 hcut'
  rw [List.take_drop, Nat.add_sub_cancel' hp] at h1 hcut
  rw [List.take_drop, Nat.add_sub_cancel' hpk] at h3 hcut'
  refine ⟨h1, h3, h4, ?_⟩
  rw [ownPages, ← hcut, ← hcut', Multiset.coe_add, Multiset.coe_add, List.append_assoc]

/-! ### The state -/

/-- All pages of the pool. -/
def allPages (S : Setup) : Multiset ℤ :=
  ((List.range S.numPages).map fun i : ℕ => (i : ℤ) + 1 : List ℤ)

theorem nodup_allPages (S : Setup) : (allPages S).Nodup := by
  refine Multiset.coe_nodup.mpr (List.Nodup.map (fun a b h => ?_) List.nodup_range)
  omega

/-- The locks the requests hold. -/
def lockedNodes (reqs : List (ℕ × Req)) : List NodeId := reqs.map fun x => x.2.lastNode

/-- **The invariant**: every page is in one place. -/
structure Conserving (S : Setup) (s : State) (l : Layout) : Prop where
  /-- The cache, with the locks of the requests. -/
  inv : Inv S.cache s.cache l (lockedNodes s.reqs)
  stocked : Stocked S.cache s.cache l
  keys : (Dict.keys s.reqs).Nodup
  reqs : ∀ x ∈ s.reqs, ReqOk S s.cache l x.2
  /-- Every page is in one place. -/
  conserved : (s.allocator.pages : Multiset ℤ) + treePages S.cache s.cache l + reqPages S s.reqs
    = allPages S

/-- The requests when one of them is looked at. -/
structure Focus (reqs : List (ℕ × Req)) (rid : ℕ) (r : Req) (d₁ d₂ : List (ℕ × Req)) : Prop where
  eq : reqs = d₁ ++ (rid, r) :: d₂
  set : ∀ r', Dict.set reqs rid r' = d₁ ++ (rid, r') :: d₂
  erase : Dict.erase reqs rid = d₁ ++ d₂

theorem Conserving.focus (h : Conserving S s l) {rid : ℕ} (hr : s.reqs.lookup rid = some r) :
    ∃ d₁ d₂, Focus s.reqs rid r d₁ d₂ := by
  obtain ⟨d₁, d₂, heq, hset, herase⟩ := Dict.exists_cut hr
  exact ⟨d₁, d₂, heq, hset, herase h.keys⟩

theorem reqPages_middle (d₁ d₂ : List (ℕ × Req)) (x : ℕ × Req) :
    reqPages S (d₁ ++ x :: d₂) = ownPages S x.2 + reqPages S (d₁ ++ d₂) := by
  rw [reqPages, reqPages, List.map_append, List.map_cons, List.sum_append, List.sum_cons,
    List.map_append, List.sum_append]
  abel

theorem lockedNodes_middle (d₁ d₂ : List (ℕ × Req)) (x : ℕ × Req) :
    (lockedNodes (d₁ ++ x :: d₂)).Perm (x.2.lastNode :: lockedNodes (d₁ ++ d₂)) := by
  rw [lockedNodes, lockedNodes, List.map_append, List.map_cons, List.map_append]
  exact List.perm_middle

theorem Focus.mem {reqs d₁ d₂ : List (ℕ × Req)} {rid : ℕ} (hf : Focus reqs rid r d₁ d₂) :
    (rid, r) ∈ reqs := by
  rw [hf.eq]
  exact List.mem_append_right _ List.mem_cons_self

/-- What holds of the others and of the one holds of all. -/
theorem Focus.forall_set {reqs d₁ d₂ : List (ℕ × Req)} {rid : ℕ} (hf : Focus reqs rid r d₁ d₂)
    {P Q : Req → Prop} (hall : ∀ x ∈ reqs, P x.2) (hPQ : ∀ r, P r → Q r) {r' : Req} (hr' : Q r') :
    ∀ x ∈ Dict.set reqs rid r', Q x.2 := by
  intro x hx
  rw [hf.set] at hx
  rw [hf.eq] at hall
  rcases List.mem_append.mp hx with hx | hx
  · exact hPQ _ (hall x (List.mem_append_left _ hx))
  · rcases List.mem_cons.mp hx with rfl | hx
    · exact hr'
    · exact hPQ _ (hall x (List.mem_append_right _ (List.mem_cons_of_mem _ hx)))

/-! ### Steps without an insert -/

/-- Only the tree around the requests changes. -/
theorem Conserving.regrown (h : Conserving S s l) (hinv : Inv S.cache c' l' (lockedNodes s.reqs))
    (hst : Stocked S.cache c' l' ∧ treePages S.cache c' l' = treePages S.cache s.cache l)
    (hg : Grows s.cache l c' l') : Conserving S { s with cache := c' } l' := by
  refine ⟨hinv, hst.1, h.keys, fun x hx => (h.reqs x hx).grows hg, ?_⟩
  rw [hst.2]
  exact h.conserved

/-- `match_prefix`. -/
theorem Conserving.matchPrefix (h : Conserving S s l) (key : RadixKey) :
    ∃ c' l' n' key', matchPrefix S.cache s.cache key = .ok (c', l'.slots n', n') ∧
      Landed S.cache s.cache l rootNode (cacheKey S.cache key) c' l' n' key' ∧
      (l'.slots n').length = (l'.path n').length ∧ Conserving S { s with cache := c' } l' := by
  obtain ⟨c', l', n', key', hok, hland⟩ := h.inv.matchPrefix key
  have hinv := hland.once.inv h.inv
  have hst := h.stocked.splitOnce h.inv.shape hland.once
  exact ⟨c', l', n', key', hok, hland, hst.1.filled.length_slots hinv.shape hinv.slots hland.mem,
    h.regrown hinv hst (hland.once.grown h.inv.shape)⟩

/-- A request that was looked at is replaced by one that has the same pages and lock. -/
theorem Conserving.replace (h : Conserving S s l) {rid : ℕ} (hr : s.reqs.lookup rid = some r)
    {r' : Req} (hok : ReqOk S s.cache l r') (hnode : r'.lastNode = r.lastNode)
    (hpages : ownPages S r' = ownPages S r) :
    Conserving S { s with reqs := Dict.set s.reqs rid r' } l := by
  obtain ⟨d₁, d₂, hf⟩ := h.focus hr
  have hlocks : lockedNodes (Dict.set s.reqs rid r') = lockedNodes s.reqs := by
    rw [hf.set, hf.eq, lockedNodes, lockedNodes, List.map_append, List.map_append, List.map_cons,
      List.map_cons, hnode]
  refine ⟨?_, h.stocked, Dict.nodup_keys_set h.keys _ _, hf.forall_set h.reqs (fun _ hr => hr) hok,
    ?_⟩
  · rw [hlocks]
    exact h.inv
  · have := h.conserved
    rw [hf.eq, reqPages_middle] at this
    rw [hf.set, reqPages_middle, hpages]
    exact this

/-- More tokens. -/
theorem ReqOk.addTokens (h : ReqOk S c l r) (tokens : List ℤ) :
    ReqOk S c l { r with tokens := r.tokens ++ tokens } := by
  refine ⟨h.mem, h.path.trans ?_, h.protectedLen, h.extraKey, ?_, h.own_le, h.own_le_protected,
    h.own_dvd, h.paged, h.pooled⟩
  · have := viewUnits_take S (r.tokens ++ tokens) r.tokens.length
    rw [List.take_left] at this
    rw [this]
    exact List.take_prefix _ _
  · rw [List.length_append]
    exact h.room.trans (Nat.le_add_right _ _)

/-- `evict`. -/
theorem Conserving.evict (h : Conserving S s l) (strategy : Cache → List NodeId → ℕ)
    (numTokens : ℕ) :
    ∃ e, Radix.evict S.cache s.cache strategy numTokens = .ok e ∧
      Conserving S { s with
        cache := e.cache
        allocator := e.freed.foldl (Pool.free S.pool) s.allocator }
        { l with alive := l.alive \ e.removed.toFinset } := by
  obtain ⟨e, hok, hinv, he, -⟩ := h.inv.evict strategy numTokens
  obtain ⟨hst, hpages⟩ := h.stocked.evicting he
  refine ⟨e, hok, hinv, hst, h.keys, ?_, ?_⟩
  · intro x hx
    have hr := h.reqs x hx
    have hmem := he.locks.mem x.2.lastNode (List.mem_map.mpr ⟨x, hx, rfl⟩)
    refine ⟨hmem, hr.path, hr.protectedLen, fun hroot => ?_, hr.room, hr.own_le,
      hr.own_le_protected, hr.own_dvd, hr.paged, hr.pooled⟩
    rw [(he.same _).2.1]
    exact hr.extraKey hroot
  · have hcons := h.conserved
    rw [← hpages] at hcons
    rw [Pool.coe_pages_foldl_free S.pool, ← hcons]
    · change (e.freed.map fun v => (pagesOf S.cache.pageSize v : Multiset ℤ)).sum + _ + _ + _ = _
      abel
    · intro v hv
      rw [he.freed] at hv
      obtain ⟨n, hn, rfl⟩ := List.mem_map.mp hv
      have hmem := he.removed_mem n hn
      exact h.stocked.paged n hmem.1 hmem.2.1
    · refine Multiset.nodup_of_le ?_ (nodup_allPages S)
      rw [← hcons]
      exact (Multiset.le_add_left _ _).trans
        ((Multiset.le_add_left _ _).trans (Multiset.le_add_right _ _))

/-- **A request starts**: it holds a lock and no pages. -/
theorem Conserving.start (h : Conserving S s l) {rid : ℕ} (hrid : rid ∉ Dict.keys s.reqs)
    (tokens : List ℤ) (extraKey : Option String) (limit : Option ℕ) {told : Option ℕ}
    (htold : ∀ t ∈ told, S.cache.pageSize ∣ t) :
    ∃ s' l' indices node, Requests.start S s rid tokens extraKey limit told = .ok s' ∧
      Conserving S s' l' ∧
      s'.reqs = s.reqs ++ [(rid, admitted tokens extraKey told indices node)] := by
  obtain ⟨c₁, l', n, key', hok, hland, hlen, h₁⟩ := h.matchPrefix
    { tokenIds := tokens, extraKey := extraKey, isBigram := false, limit := limit }
  obtain ⟨c₂, hinc, hinv, hrel⟩ := h₁.inv.incLockRef hland.mem
  have hpath : l'.path n <+: viewUnits S tokens :=
    (hland.path_isPrefix h.inv.shape).trans (units_cacheKey_isPrefix tokens extraKey limit)
  have hview : (l'.path n).length ≤ tokens.length := by
    refine hpath.length_le.trans ?_
    rw [viewUnits]
    split
    · rw [length_bigrams]
      omega
    · rw [List.length_map]
  have hset := Dict.set_of_notMem (admitted tokens extraKey told (l'.slots n) n) hrid
  have hnone : ownPages S (admitted tokens extraKey told (l'.slots n) n) = [] := by
    rw [ownPages, admitted, List.drop_length, (Paged.nil S.cache.pos).pagesOf_eq S.cache.pos]
  -- the row is what was matched, or whole pages of it
  have hadmit : ReqOk S c₂ l' (admitted tokens extraKey told (l'.slots n) n) := by
    have hle : ((l'.slots n).take (told.getD (l'.slots n).length)).length ≤ (l'.slots n).length :=
      List.length_take_le' _ _
    refine ⟨hland.mem, hpath, hlen, fun hr => ?_, ?_, le_rfl, hle, ?_, ?_, fun hc => nomatch hc⟩
    · rw [hrel.key, admitted, hland.extraKey_node hr, extraKey_cacheKey]
    · rw [admitted]
      dsimp only
      omega
    · have hdvd := h₁.inv.shape.dvd_length_path hland.mem
      rw [admitted, List.length_take, hlen]
      rcases told with _ | t
      · rw [Option.getD_none, min_self]
        exact hdvd
      · rcases min_choice t (l'.path n).length with hm | hm
        · rw [Option.getD_some, hm]
          exact htold t rfl
        · rw [Option.getD_some, hm]
          exact hdvd
    · rw [admitted, List.drop_length]
      exact ⟨[], Paged.nil S.cache.pos⟩
  have hst := h₁.stocked.relocked hrel
  refine ⟨{ s with
    cache := c₂
    reqs := Dict.set s.reqs rid (admitted tokens extraKey told (l'.slots n) n) }, l', _, _, ?_,
    ⟨?_, hst.1, Dict.nodup_keys_set h.keys _ _, ?_, ?_⟩, hset⟩
  · simp only [Requests.start, bind, Except.bind, lift, hok, hinc, Except.mapError]
  · refine hinv.perm ?_
    dsimp only
    rw [hset, lockedNodes, lockedNodes, List.map_append]
    exact (List.perm_append_singleton _ _).symm
  · intro x hx
    dsimp only at hx
    rw [hset] at hx
    rcases List.mem_append.mp hx with hx | hx
    · exact (h₁.reqs x hx).grows hrel.grown
    · rw [List.mem_singleton.mp hx]
      exact hadmit
  · dsimp only
    rw [hst.2, hset, reqPages_middle, hnone, Multiset.coe_nil, zero_add, List.append_nil]
    exact h₁.conserved

/-! ### Allocating -/

/-- A request takes slots. -/
theorem ReqOk.grow (h : ReqOk S c l r) {out new : List ℤ} (hpos : 0 < out.length)
    (hroom : r.row.length + out.length ≤ r.tokens.length)
    (hout : ∀ pages, Paged S.cache.pageSize (r.row.drop r.ownFrom) pages →
      Paged S.cache.pageSize (r.row.drop r.ownFrom ++ out) (pages ++ new)) :
    ReqOk S c l { r with row := r.row ++ out, pooled := true } ∧
      ownPages S { r with row := r.row ++ out, pooled := true } = ownPages S r ++ new := by
  obtain ⟨pages, hpages⟩ := h.paged
  have hdrop : (r.row ++ out).drop r.ownFrom = r.row.drop r.ownFrom ++ out :=
    List.drop_append_of_le_length h.own_le
  have hle := h.own_le
  refine ⟨⟨h.mem, h.path, h.protectedLen, h.extraKey, ?_, ?_, h.own_le_protected, h.own_dvd, ?_,
    fun _ => ?_⟩, ?_⟩
  · rw [List.length_append]
    exact hroom
  · rw [List.length_append]
    exact hle.trans (Nat.le_add_right _ _)
  · exact ⟨_, hdrop ▸ hout pages hpages⟩
  · exact le_keyLen h.own_dvd hle (by rw [List.length_append]; omega)
  · rw [ownPages, ownPages, hdrop, (hout pages hpages).pagesOf_eq S.cache.pos,
      hpages.pagesOf_eq S.cache.pos]

/-- What the requests of a batch ask for. -/
def AsksFor (reqs : List (ℕ × Req)) (rid : ℕ) (a : List ℤ × ℕ) : Prop :=
  ∃ r, reqs.lookup rid = some r ∧ a.1 = r.row.drop r.ownFrom ∧ 0 < a.2 ∧
    r.row.length + a.2 ≤ r.tokens.length

/-- What a batch asks for depends on its requests only. -/
theorem asksFor_congr {reqs reqs' : List (ℕ × Req)} {rids : List ℕ} {asked : List (List ℤ × ℕ)}
    (h : ∀ rid ∈ rids, reqs'.lookup rid = reqs.lookup rid)
    (hasked : List.Forall₂ (AsksFor reqs) rids asked) :
    List.Forall₂ (AsksFor reqs') rids asked := by
  induction hasked with
  | nil => exact .nil
  | cons hhead _ ih =>
    refine .cons ?_ (ih fun rid hrid => h rid (List.mem_cons_of_mem _ hrid))
    obtain ⟨r, hr, hrest⟩ := hhead
    exact ⟨r, (h _ List.mem_cons_self).trans hr, hrest⟩

/-- **A batch takes slots**: the pages that leave the free list are those the requests get. -/
theorem Conserving.writeRows {asked : List (List ℤ × ℕ)} {pages rest : List ℤ}
    {outs : List (List ℤ)} (hg : Pool.Granted S.cache.pageSize asked pages outs rest)
    {rids : List ℕ}
    (hrids : rids.Nodup) {released : List ℤ}
    (hasked : List.Forall₂ (AsksFor s.reqs) rids asked)
    (h : Conserving S { s with allocator := { freePages := pages, releasePages := released } } l) :
    Conserving S { s with
      allocator := { freePages := rest, releasePages := released }
      reqs := Requests.writeRows s.reqs rids outs } l ∧
      ∀ P : Req → Prop, (∀ (r : Req) row, P r → P { r with row := row, pooled := true }) →
        (∀ x ∈ s.reqs, P x.2) → ∀ x ∈ Requests.writeRows s.reqs rids outs, P x.2 := by
  induction hg generalizing s rids with
  | nil free =>
    cases hasked
    exact ⟨h, fun P _ hall => hall⟩
  | @cons slots out new free rest n asked outs hlen hout hg ih =>
    cases hasked with
    | @cons rid _ rids _ hhead htail =>
    obtain ⟨r, hr, hslots, hpos, hroom⟩ := hhead
    obtain ⟨hrid, hrids⟩ := List.nodup_cons.mp hrids
    dsimp only at hslots hpos hroom
    subst hslots hlen
    have hmem : (rid, r) ∈ s.reqs := Dict.mem_of_lookup hr
    obtain ⟨hok, hown⟩ := (h.reqs _ hmem).grow hpos hroom hout
    have hwrite : writeRow s.reqs rid out
        = Dict.set s.reqs rid { r with row := r.row ++ out, pooled := true } := by
      rw [writeRow, hr]
    obtain ⟨d₁, d₂, hf⟩ := h.focus hr
    have h₁ : Conserving S { s with
        allocator := { freePages := free, releasePages := released }
        reqs := writeRow s.reqs rid out } l := by
      rw [hwrite]
      have hlocks : lockedNodes (Dict.set s.reqs rid { r with row := r.row ++ out, pooled := true })
          = lockedNodes s.reqs := by
        rw [hf.set, hf.eq]
        simp only [lockedNodes, List.map_append, List.map_cons]
      refine ⟨?_, h.stocked, Dict.nodup_keys_set h.keys _ _,
        hf.forall_set h.reqs (fun _ hr => hr) hok, ?_⟩
      · dsimp only
        rw [hlocks]
        exact h.inv
      · have hcons := h.conserved
        dsimp only [Pool.Allocator.pages] at hcons ⊢
        rw [hf.eq, reqPages_middle] at hcons
        rw [hf.set, reqPages_middle, hown, ← hcons]
        simp only [← Multiset.coe_add]
        abel
    have htail' : List.Forall₂ (AsksFor (writeRow s.reqs rid out)) rids asked := by
      refine asksFor_congr (fun rid' hrid' => ?_) htail
      rw [hwrite, Dict.lookup_set_of_ne]
      exact fun hc => hrid (hc ▸ hrid')
    obtain ⟨hc, hP⟩ := ih (s := { s with reqs := writeRow s.reqs rid out }) hrids htail' h₁
    refine ⟨hc, fun P hstep hall => hP P hstep ?_⟩
    rw [hwrite]
    exact hf.forall_set hall (fun _ hr => hr) (hstep r _ (hall _ hmem))

/-! ### Caching -/

/-- **The tree takes the slots of a request from a place on**: it has grown by the pages of the key
from `p` on, and had everything that the request is protected for. -/
structure Takes (S : Setup) (c : Cache) (l : Layout) (r : Req) (c' : Cache) (l' : Layout) (p : ℕ) :
    Prop where
  stocked : Stocked S.cache c' l'
  /-- It took the rest of the key. -/
  pages : treePages S.cache c' l' = treePages S.cache c l +
    (pagesOf S.cache.pageSize ((r.row.take (keyLen S r.row.length)).drop p) : Multiset ℤ)
  grows : Grows c l c' l'
  dvd : S.cache.pageSize ∣ p
  le : p ≤ keyLen S r.row.length
  /-- What is protected was there. -/
  covers : min (keyLen S r.row.length) r.protectedLen ≤ p

/-- **An insert** finds what the request is protected for, and takes the rest of the key. -/
theorem ReqOk.inserted {locks : List NodeId} (hr : ReqOk S c l r) (hpool : r.pooled = true)
    (hinv : Inv S.cache c l locks) (hst : Stocked S.cache c l) :
    ∃ c' l' p m, insert S.cache c (reqKey S r) (some (r.row.take (reqKey S r).len))
        = .ok (c', p, m) ∧
      Inv S.cache c' l' locks ∧ Takes S c l r c' l' p ∧ m ∈ l'.alive ∧
      l'.path m = (cacheKey S.cache (reqKey S r)).units ∧
      (m ≠ rootNode → (c'.nodes m).key.extraKey = r.extraKey) := by
  obtain ⟨c₁, l₁, n, key', c₂, l₂, m, hok, hland, hatt⟩ :=
    hinv.insert (reqKey S r) (some (r.row.take (reqKey S r).len))
  have h₁ := hland.once.inv hinv
  obtain ⟨h₂, hm⟩ := hatt.inv hland hinv
  have hst₁ := hst.splitOnce hinv.shape hland.once
  have hkey := units_cacheKey_reqKey (S := S) hr.room
  have hlen := len_cacheKey_reqKey (S := S) hr.room
  have hprefix := hland.path_isPrefix hinv.shape
  have hdvd := h₁.shape.dvd_length_path hland.mem
  have hkeyle := keyLen_le S r.row.length
  have hle : (l₁.path n).length ≤ keyLen S r.row.length := by
    have := hprefix.length_le
    rwa [RadixKey.length_units, hlen] at this
  have hcovers : min (keyLen S r.row.length) r.protectedLen ≤ (l₁.path n).length := by
    have hplen := hr.protectedLen
    have hu : (l.path r.lastNode).take (keyLen S r.row.length) <+:
        (cacheKey S.cache (reqKey S r)).units := by
      rw [hkey]
      exact hr.path.take _
    have hul : ((l.path r.lastNode).take (keyLen S r.row.length)).length
        = min (keyLen S r.row.length) r.protectedLen := by
      rw [List.length_take, ← hplen]
    rw [← hul]
    refine hland.covers hinv.shape h₁.shape hr.mem ?_ (List.take_prefix _ _) hu ?_
    · intro hroot
      rw [hr.extraKey hroot, extraKey_cacheKey, extraKey_reqKey]
    · rw [hul]
      rcases min_choice (keyLen S r.row.length) r.protectedLen with hm | hm
      · rw [hm]
        exact dvd_keyLen S _
      · rw [hm, hplen]
        exact hinv.shape.dvd_length_path hr.mem
  have hvalue : (cacheValue S.cache (reqKey S r) (some (r.row.take (reqKey S r).len))).drop
      (l₁.path n).length = (r.row.take (keyLen S r.row.length)).drop (l₁.path n).length := by
    rw [cacheValue_eq, Option.getD_some, hlen, len_reqKey hr.room, List.take_take, min_self]
  rw [hvalue] at hatt
  have hvlen :
      ((r.row.take (keyLen S r.row.length)).drop (l₁.path n).length).length = key'.len := by
    have := congrArg List.length hland.path
    rw [hinv.shape.root_path, List.nil_append, List.length_append, RadixKey.length_units,
      RadixKey.length_units, hlen] at this
    rw [List.length_drop, List.length_take, min_eq_left hkeyle]
    omega
  have hown : r.ownFrom ≤ (l₁.path n).length :=
    (le_min (hr.pooled hpool) hr.own_le_protected).trans hcovers
  obtain ⟨-, ⟨P, hP⟩, -, -⟩ := hr.slices hown hle hkeyle hdvd (dvd_keyLen S _)
  have hst₂ := hst₁.1.attached h₁.shape hland.mem hP hvlen hatt
  obtain ⟨hpath, hextra⟩ := hatt.end_eq hland h₁.shape
  refine ⟨c₂, l₂, _, m, hok, h₂, ⟨hst₂.1, ?_, ?_, hdvd, hle, hcovers⟩, hm, ?_, fun hroot => ?_⟩
  · rw [hst₂.2, hst₁.2, hP.pagesOf_eq S.cache.pos]
  · exact (hland.once.grown hinv.shape).trans (hatt.grown h₁.shape)
  · rw [hpath, hinv.shape.root_path, List.nil_append]
  · rw [hextra hroot, extraKey_cacheKey, extraKey_reqKey]

/-- Without an insert the tree takes nothing. -/
theorem takes_none (hst : Stocked S.cache c l) (r : Req) :
    Takes S c l r c l (keyLen S r.row.length) := by
  refine ⟨hst, ?_, ⟨fun _ hn => hn, fun _ _ => rfl, fun _ _ => rfl⟩, dvd_keyLen S _, le_rfl,
    min_le_left _ _⟩
  rw [List.drop_eq_nil_of_le (List.length_take_le _ _),
    (Paged.nil S.cache.pos).pagesOf_eq S.cache.pos,
    Multiset.coe_nil, add_zero]

/-- What is freed are the request's own slots that were in the tree. -/
theorem Takes.freed_eq {p : ℕ} (ht : Takes S c l r c' l' p) (hr : ReqOk S c l r)
    (hkeeps : min (keyLen S r.row.length) r.protectedLen ≤ r.ownFrom) :
    (r.row.take p).drop r.protectedLen = (r.row.take p).drop r.ownFrom := by
  have hown := hr.own_le_protected
  have hle := ht.le
  rcases min_le_iff.mp hkeeps with hk | hk
  · have hlen : (r.row.take p).length ≤ p := List.length_take_le _ _
    rw [List.drop_eq_nil_of_le (by omega), List.drop_eq_nil_of_le (by omega)]
  · rw [le_antisymm hk hown]

/-- **Duplicates are freed and the tree takes the rest of the key**: with what the request keeps,
every page is where it was or has moved. -/
theorem Conserving.settle (h : Conserving S s l) {rid p : ℕ} {d₁ d₂ : List (ℕ × Req)}
    (hf : Focus s.reqs rid r d₁ d₂) (hpool : r.pooled = true)
    (hkeeps : min (keyLen S r.row.length) r.protectedLen ≤ r.ownFrom)
    (ht : Takes S s.cache l r c' l' p) :
    (∃ P, Paged S.cache.pageSize (r.row.drop (keyLen S r.row.length)) P) ∧
      ((Pool.free S.pool s.allocator ((r.row.take p).drop r.protectedLen)).pages : Multiset ℤ)
        + treePages S.cache c' l' + (pagesOf S.cache.pageSize (r.row.drop (keyLen S r.row.length))
          + reqPages S (d₁ ++ d₂)) = allPages S := by
  have hr := h.reqs _ hf.mem
  dsimp only at hr
  have hown : r.ownFrom ≤ p := (le_min (hr.pooled hpool) hr.own_le_protected).trans ht.covers
  obtain ⟨hfreed, -, hkept, hsum⟩ := hr.slices hown ht.le (keyLen_le S _) ht.dvd (dvd_keyLen S _)
  have hcons := h.conserved
  rw [hf.eq, reqPages_middle] at hcons
  dsimp only at hcons
  rw [hsum] at hcons
  have hnodup : (pagesOf S.cache.pageSize ((r.row.take p).drop r.ownFrom)).Nodup := by
    refine Multiset.coe_nodup.mp (Multiset.nodup_of_le ?_ (nodup_allPages S))
    rw [← hcons]
    refine le_trans ?_ (Multiset.le_add_left _ _)
    exact (Multiset.le_add_right _ _).trans
      ((Multiset.le_add_right _ _).trans (Multiset.le_add_right _ _))
  refine ⟨hkept, ?_⟩
  rw [ht.freed_eq hr hkeeps, Pool.coe_pages_free S.pool hfreed hnodup, ht.pages, ← hcons]
  change (pagesOf S.cache.pageSize ((r.row.take p).drop r.ownFrom) : Multiset ℤ) + _ + _ + _ = _
  abel

/-- The row after `cache_unfinished_req`: the key is the tree's, the rest is what it was. -/
theorem drop_row {row new : List ℤ} {k p : ℕ} (hk : k ≤ row.length) (hnew : new.length = k) :
    (row.take p ++ new.drop p ++ row.drop (max p k)).drop k = row.drop k ∧
      (row.take p ++ new.drop p ++ row.drop (max p k)).length = row.length := by
  rcases le_total p k with hpk | hkp
  · have hlen : (row.take p ++ new.drop p).length = k := by
      rw [List.length_append, List.length_take, List.length_drop]
      omega
    rw [max_eq_right hpk]
    refine ⟨?_, ?_⟩
    · rw [List.drop_append_of_le_length hlen.ge, List.drop_eq_nil_of_le hlen.le, List.nil_append]
    · rw [List.length_append, hlen, List.length_drop]
      omega
  · have hnil : new.drop p = [] := List.drop_eq_nil_of_le (by omega)
    rw [hnil, List.append_nil, max_eq_left hkp, List.take_append_drop]
    exact ⟨rfl, rfl⟩

/-- **`cache_unfinished_req`.** -/
theorem Conserving.cacheUnfinished (h : Conserving S s l) {rid : ℕ}
    (hlook : s.reqs.lookup rid = some r) (hpool : r.pooled = true)
    (hkeeps : min (reqKey S r).len r.protectedLen ≤ r.ownFrom) :
    ∃ s' l' r', Requests.cacheUnfinished S s rid = .ok s' ∧ Conserving S s' l' ∧
      s'.reqs = Dict.set s.reqs rid r' ∧ r'.ownFrom = r'.protectedLen := by
  obtain ⟨d₁, d₂, hf⟩ := h.focus hlook
  have hr := h.reqs _ hf.mem
  dsimp only at hr
  have hklen := len_reqKey (S := S) hr.room
  obtain ⟨c₁, l₁, p, m, hins, hinv₁, ht, hm, hmpath, hmextra⟩ := hr.inserted hpool h.inv h.stocked
  rw [hklen] at hkeeps hins
  obtain ⟨hkept, hcons⟩ := h.settle hf hpool hkeeps ht
  -- the match finds the whole key
  obtain ⟨c₂, l₂, n, key', hmatch, hland⟩ := hinv₁.matchPrefix (reqKey S r)
  have hinv₂ := hland.once.inv hinv₁
  have hst₂ := ht.stocked.splitOnce hinv₁.shape hland.once
  have hslots := hst₂.1.filled.length_slots hinv₂.shape hinv₂.slots hland.mem
  have hkey := units_cacheKey_reqKey (S := S) hr.room
  have hlen := len_cacheKey_reqKey (S := S) hr.room
  have hpath : l₂.path n = (cacheKey S.cache (reqKey S r)).units := by
    refine (hland.path_isPrefix hinv₁.shape).eq_of_length_le ?_
    refine hland.covers hinv₁.shape hinv₂.shape hm ?_ (hmpath ▸ List.prefix_rfl) List.prefix_rfl ?_
    · intro hroot
      rw [hmextra hroot, extraKey_cacheKey, extraKey_reqKey]
    · rw [RadixKey.length_units]
      exact dvd_len_cacheKey _
  have hnew : (l₂.slots n).length = keyLen S r.row.length := by
    rw [hslots, hpath, RadixKey.length_units, hlen]
  -- the locks
  have hold : r.lastNode ∈ lockedNodes s.reqs := List.mem_map.mpr ⟨_, hf.mem, rfl⟩
  obtain ⟨c₃, hdec, hinv₃, hrel₃⟩ := hinv₂.decLockRef hold
  obtain ⟨c₄, hinc, hinv₄, hrel₄⟩ := hinv₃.incLockRef hland.mem
  have hst₄ := (hst₂.1.relocked hrel₃).1.relocked hrel₄
  have hgrows : Grows s.cache l c₄ l₂ :=
    ((ht.grows.trans (hland.once.grown hinv₁.shape)).trans hrel₃.grown).trans hrel₄.grown
  obtain ⟨hdrop, hrowlen⟩ := drop_row (p := r.protectedLen) (keyLen_le S r.row.length) hnew
  let r' : Req := { r with
    row := r.row.take r.protectedLen ++ (l₂.slots n).drop r.protectedLen
      ++ r.row.drop (max r.protectedLen (l₂.slots n).length)
    protectedLen := (l₂.slots n).length
    lastNode := n
    ownFrom := (l₂.slots n).length }
  have hown : ownPages S r' = pagesOf S.cache.pageSize (r.row.drop (keyLen S r.row.length)) := by
    rw [ownPages]
    dsimp only [r']
    rw [hnew, hdrop]
  have hr' : ReqOk S c₄ l₂ r' := by
    refine ⟨hland.mem, ?_, hslots, ?_, ?_, ?_, le_rfl, ?_, ?_, fun _ => ?_⟩
    · rw [hpath, hkey]
      exact List.take_prefix _ _
    · intro hroot
      rw [hrel₄.key, hrel₃.key, hland.extraKey_node hroot, extraKey_cacheKey, extraKey_reqKey]
    · dsimp only [r']
      rw [hnew, hrowlen]
      exact hr.room
    · dsimp only [r']
      rw [hnew, hrowlen]
      exact keyLen_le S _
    · dsimp only [r']
      rw [hnew]
      exact dvd_keyLen S _
    · dsimp only [r']
      rw [hnew, hdrop]
      exact hkept
    · dsimp only [r']
      rw [hnew, hrowlen]
  refine ⟨{ cache := c₄
            allocator := Pool.free S.pool s.allocator ((r.row.take p).drop r.protectedLen)
            reqs := Dict.set s.reqs rid r' }, l₂, r', ?_, ⟨?_, hst₄.1, ?_, ?_, ?_⟩, rfl, rfl⟩
  · simp only [Requests.cacheUnfinished, hlook, bind, Except.bind, lift, hins, hmatch, hdec, hinc,
      Except.mapError, hklen, hnew, ne_eq, not_true_eq_false, if_false, r']
  · refine hinv₄.perm ?_
    dsimp only
    rw [hf.set]
    refine List.Perm.trans (List.Perm.cons _ ?_) (lockedNodes_middle d₁ d₂ (rid, r')).symm
    rw [hf.eq]
    have := (lockedNodes_middle d₁ d₂ (rid, r)).erase r.lastNode
    rwa [List.erase_cons_head] at this
  · exact Dict.nodup_keys_set h.keys _ _
  · exact hf.forall_set h.reqs (fun _ hx => hx.grows hgrows) hr'
  · dsimp only
    rw [hst₄.2, (hst₂.1.relocked hrel₃).2, hst₂.2, hf.set, reqPages_middle]
    dsimp only
    rw [hown]
    exact hcons

/-- **`cache_finished_req`.** -/
theorem Conserving.cacheFinished (h : Conserving S s l) {rid : ℕ}
    (hlook : s.reqs.lookup rid = some r) (hpool : r.pooled = true)
    (hkeeps : min (reqKey S r).len r.protectedLen ≤ r.ownFrom) (isInsert : Bool) :
    ∃ s' l', Requests.cacheFinished S s rid isInsert = .ok s' ∧ Conserving S s' l' ∧
      ∀ x ∈ s'.reqs, x ∈ s.reqs := by
  obtain ⟨d₁, d₂, hf⟩ := h.focus hlook
  have hr := h.reqs _ hf.mem
  dsimp only at hr
  have hklen := len_reqKey (S := S) hr.room
  rw [hklen] at hkeeps
  obtain ⟨c₁, l₁, p, hins, hinv₁, ht⟩ : ∃ c₁ l₁ p, finishInsert S s r isInsert = .ok (c₁, p) ∧
      Inv S.cache c₁ l₁ (lockedNodes s.reqs) ∧ Takes S s.cache l r c₁ l₁ p := by
    rw [finishInsert]
    split
    · obtain ⟨c₁, l₁, p, m, hins, hinv₁, ht, -⟩ := hr.inserted hpool h.inv h.stocked
      refine ⟨c₁, l₁, p, ?_, hinv₁, ht⟩
      simp only [bind, Except.bind, lift, hins, Except.mapError]
    · rw [hklen]
      exact ⟨s.cache, l, _, rfl, h.inv, takes_none h.stocked r⟩
  obtain ⟨hkept, hcons⟩ := h.settle hf hpool hkeeps ht
  have hold : r.lastNode ∈ lockedNodes s.reqs := List.mem_map.mpr ⟨_, hf.mem, rfl⟩
  obtain ⟨c₂, hdec, hinv₂, hrel⟩ := hinv₁.decLockRef hold
  have hst := ht.stocked.relocked hrel
  have hsub : ∀ x ∈ d₁ ++ d₂, x ∈ s.reqs := by
    intro x hx
    rw [hf.eq]
    rcases List.mem_append.mp hx with hx | hx
    · exact List.mem_append_left _ hx
    · exact List.mem_append_right _ (List.mem_cons_of_mem _ hx)
  refine ⟨{ cache := c₂
            allocator := Pool.free S.pool
              (Pool.free S.pool s.allocator ((r.row.take p).drop r.protectedLen))
              (r.row.drop (reqKey S r).len)
            reqs := Dict.erase s.reqs rid }, l₁, ?_,
    ⟨?_, hst.1, Dict.nodup_keys_erase h.keys _, ?_, ?_⟩, ?_⟩
  · simp only [Requests.cacheFinished, hlook, bind, Except.bind, hins, lift, hdec, Except.mapError]
  · refine hinv₂.perm ?_
    dsimp only
    rw [hf.erase, hf.eq]
    have := (lockedNodes_middle d₁ d₂ (rid, r)).erase r.lastNode
    rwa [List.erase_cons_head] at this
  · intro x hx
    dsimp only at hx
    rw [hf.erase] at hx
    exact (h.reqs x (hsub x hx)).grows (ht.grows.trans hrel.grown)
  · have hnodup : (pagesOf S.cache.pageSize (r.row.drop (keyLen S r.row.length))).Nodup := by
      refine Multiset.coe_nodup.mp (Multiset.nodup_of_le ?_ (nodup_allPages S))
      rw [← hcons]
      exact (Multiset.le_add_right _ _).trans (Multiset.le_add_left _ _)
    dsimp only
    rw [hst.2, hf.erase, hklen, Pool.coe_pages_free S.pool hkept hnodup, ← hcons]
    change (pagesOf S.cache.pageSize (r.row.drop (keyLen S r.row.length)) : Multiset ℤ) + _ + _
      + _ = _
    abel
  · intro x hx
    dsimp only at hx
    rw [hf.erase] at hx
    exact hsub x hx

/-! ### Steps -/

/-- Every request is protected up to where its own slots begin. -/
def Straight (s : State) : Prop := ∀ x ∈ s.reqs, x.2.ownFrom = x.2.protectedLen

/-- What the allocator is told about a request fits what the request holds. -/
theorem ReqOk.continues (h : ReqOk S c l r) (n : ℕ) :
    ({ prefixLen := r.row.length, seqLen := r.row.length + n
       lastLoc := r.row.getLast?.getD (-1) } : Pool.Extend).Continues S.pool
        (r.row.drop r.ownFrom) := by
  obtain ⟨k, hk⟩ := h.own_dvd
  have hle := h.own_le
  refine ⟨?_, ?_, Nat.le_add_right _ _⟩
  · change _ % S.cache.pageSize = _ % S.cache.pageSize
    rw [List.length_drop, ← Nat.add_mul_mod_self_left (r.row.length - r.ownFrom) S.cache.pageSize k,
      ← hk, Nat.sub_add_cancel hle]
  · intro hmod
    have hlt : r.ownFrom < r.row.length := by
      by_contra hge
      rw [List.length_drop, Nat.sub_eq_zero_of_le (not_lt.mp hge), Nat.zero_mod] at hmod
      exact hmod rfl
    have hne : r.row ≠ [] := List.ne_nil_of_length_pos (by omega)
    rw [List.getLast?_drop, if_neg (by omega), List.getLast?_eq_some_getLast hne, Option.getD_some]

/-- A batch that can grow asks for what it is granted. -/
theorem Conserving.asks (h : Conserving S s l) (batch : List (ℕ × ℕ))
    (hb : ∀ b ∈ batch, 0 < b.2 ∧ CanGrow s b.1 b.2) :
    ∃ asked, Pool.Asks S.pool (batch.map fun b => extendOf s.reqs b.1 b.2) asked ∧
      List.Forall₂ (AsksFor s.reqs) (batch.map Prod.fst) asked := by
  induction batch with
  | nil => exact ⟨[], .nil, .nil⟩
  | cons b batch ih =>
    obtain ⟨asked, hasks, hfor⟩ := ih fun b hb' => hb b (List.mem_cons_of_mem _ hb')
    obtain ⟨hpos, hgrow⟩ := hb b List.mem_cons_self
    obtain ⟨r, hr, hroom⟩ := (Option.any_eq_true _ _).mp hgrow
    have hroom := of_decide_eq_true hroom
    have hext : extendOf s.reqs b.1 b.2 = Pool.Extend.mk r.row.length (r.row.length + b.2)
        (r.row.getLast?.getD (-1)) := by
      simp only [extendOf, hr, Option.elim_some]
    refine ⟨(r.row.drop r.ownFrom, b.2) :: asked, ?_, .cons ⟨r, hr, rfl, hpos, hroom⟩ hfor⟩
    rw [List.map_cons, hext]
    exact .cons ⟨(h.reqs _ (Dict.mem_of_lookup hr)).continues b.2,
      (Nat.add_sub_cancel_left _ _).symm⟩ hasks

/-- **Rows grow**, unless memory is out. -/
theorem Conserving.grow (h : Conserving S s l) {rids : List ℕ} (hrids : rids.Nodup)
    {asked : List (List ℤ × ℕ)} (hfor : List.Forall₂ (AsksFor s.reqs) rids asked)
    {got : Option (Pool.Allocator × List (List ℤ))}
    (hgot : ∀ a outs, got = some (a, outs) →
      ∃ pages, Pool.Allocates S.pool s.allocator asked a outs pages) :
    (∃ s', Requests.grow s rids got = .ok s' ∧ Conserving S s' l ∧ (Straight s → Straight s')) ∨
      Requests.grow s rids got = .error .outOfMemory := by
  rcases got with _ | ⟨a, outs⟩
  · exact Or.inr rfl
  · refine Or.inl ⟨_, rfl, ?_⟩
    obtain ⟨pages, hbefore, hgranted⟩ := hgot a outs rfl
    have h₁ : Conserving S { s with
        allocator := { freePages := pages, releasePages := a.releasePages } } l := by
      refine ⟨h.inv, h.stocked, h.keys, h.reqs, ?_⟩
      rw [← h.conserved]
      exact congrArg (· + treePages S.cache s.cache l + reqPages S s.reqs)
        (Multiset.coe_eq_coe.mpr hbefore)
    obtain ⟨hc, hP⟩ := Conserving.writeRows hgranted hrids hfor h₁
    exact ⟨hc, hP (fun r => r.ownFrom = r.protectedLen) fun _ _ hr => hr⟩

/-- **Every step keeps every page in one place**, and fails only when memory is out. -/
theorem Conserving.step (h : Conserving S s l) {op : Op} (hperm : Permitted S s op)
    (hkeeps : KeepsSlots S s op) :
    (∃ s' l', Requests.step S s op = .ok s' ∧ Conserving S s' l' ∧
      (Unclamped s op → Straight s → Straight s')) ∨
      Requests.step S s op = .error .outOfMemory := by
  cases op with
  | matchPrefix key =>
    obtain ⟨c', l', n', key', hok, -, -, h'⟩ := h.matchPrefix key
    refine Or.inl ⟨_, l', ?_, h', fun _ hs => hs⟩
    simp only [Requests.step, bind, Except.bind, lift, hok, Except.mapError]
  | start rid tokens extraKey limit told =>
    obtain ⟨s', l', indices, node, hok, h', hreqs⟩ :=
      h.start hperm.1 tokens extraKey limit hperm.2
    refine Or.inl ⟨s', l', hok, h', ?_⟩
    rintro rfl hs x hx
    rw [hreqs] at hx
    rcases List.mem_append.mp hx with hx | hx
    · exact hs x hx
    · rw [List.mem_singleton.mp hx, admitted]
      dsimp only
      rw [Option.getD_none, List.take_length]
  | addTokens rid tokens =>
    obtain ⟨r, hr⟩ : ∃ r, s.reqs.lookup rid = some r := by
      rw [← Option.ne_none_iff_exists']
      exact fun hc => Dict.lookup_eq_none.mp hc hperm
    have hmem := Dict.mem_of_lookup hr
    refine Or.inl ⟨_, l, ?_, h.replace hr ((h.reqs _ hmem).addTokens tokens) rfl rfl,
      fun _ hs => ?_⟩
    · simp only [Requests.step, hr]
    · obtain ⟨d₁, d₂, hf⟩ := h.focus hr
      exact hf.forall_set (P := fun r => r.ownFrom = r.protectedLen) hs (fun _ hr => hr) (hs _ hmem)
  | extend batch =>
    obtain ⟨asked, hasks, hfor⟩ := h.asks batch hperm.2
    refine (h.grow hperm.1 hfor fun a outs hok =>
      Pool.allocForExtend_allocates hasks hok).imp_left ?_
    rintro ⟨s', hok, h', hs⟩
    exact ⟨s', l, hok, h', fun _ => hs⟩
  | decode batch =>
    obtain ⟨asked, hasks, hfor⟩ := h.asks (batch.map fun rid => (rid, 1)) (by
      intro b hb
      obtain ⟨rid, hrid, rfl⟩ := List.mem_map.mp hb
      exact ⟨Nat.one_pos, hperm.2 rid hrid⟩)
    rw [List.map_map] at hasks hfor
    rw [show (Prod.fst ∘ fun rid : ℕ => (rid, 1)) = id from rfl, List.map_id] at hfor
    refine (h.grow hperm.1 hfor fun a outs hok =>
      Pool.allocForDecode_allocates hasks ?_ hok).imp_left ?_
    · intro e he
      obtain ⟨rid, -, rfl⟩ := List.mem_map.mp he
      rfl
    · rintro ⟨s', hok, h', hs⟩
      exact ⟨s', l, hok, h', fun _ => hs⟩
  | cacheUnfinished rid =>
    obtain ⟨r, hr, hpool⟩ := (Option.any_eq_true _ _).mp hperm
    have hkeeps := of_decide_eq_true ((Option.all_eq_true _ _).mp hkeeps r hr)
    obtain ⟨s', l', r', hok, h', hreqs, hr'⟩ := h.cacheUnfinished hr hpool hkeeps
    refine Or.inl ⟨s', l', hok, h', fun _ hs => ?_⟩
    obtain ⟨d₁, d₂, hf⟩ := h.focus hr
    rw [Straight, hreqs]
    exact hf.forall_set (P := fun r => r.ownFrom = r.protectedLen) hs (fun _ hr => hr) hr'
  | cacheFinished rid isInsert =>
    obtain ⟨r, hr, hpool⟩ := (Option.any_eq_true _ _).mp hperm
    have hkeeps := of_decide_eq_true ((Option.all_eq_true _ _).mp hkeeps r hr)
    obtain ⟨s', l', hok, h', hreqs⟩ := h.cacheFinished hr hpool hkeeps isInsert
    exact Or.inl ⟨s', l', hok, h', fun _ hs x hx => hs x (hreqs x hx)⟩
  | evict strategy numTokens =>
    obtain ⟨e, hok, h'⟩ := h.evict strategy numTokens
    refine Or.inl ⟨_, _, ?_, h', fun _ hs => hs⟩
    simp only [Requests.step, bind, Except.bind, lift, hok, Except.mapError]

/-- A request that goes on from all of its match keeps its slots. -/
theorem Straight.keepsSlots (hs : Straight s) (op : Op) : KeepsSlots S s op := by
  have hall : ∀ rid, (s.reqs.lookup rid).all
      (fun r => decide (min (reqKey S r).len r.protectedLen ≤ r.ownFrom)) = true := by
    intro rid
    refine (Option.all_eq_true _ _).mpr fun r hr => decide_eq_true ?_
    rw [hs _ (Dict.mem_of_lookup hr)]
    exact min_le_right _ _
  cases op with
  | cacheUnfinished rid => exact hall rid
  | cacheFinished rid _ => exact hall rid
  | _ => trivial

theorem Conserving.init (S : Setup) : Conserving S (init S) Layout.empty := by
  have hroot : ∀ {n : NodeId}, n ∈ Layout.empty.alive → n = rootNode := Finset.mem_singleton.mp
  refine ⟨Inv.reset S.cache, ⟨fun n hn hnr => absurd (hroot hn) hnr,
    fun n hn hnr => absurd (hroot hn) hnr⟩, List.nodup_nil, (fun _ hx => nomatch hx), ?_⟩
  have htree : treePages S.cache reset Layout.empty = 0 := by
    rw [treePages]
    exact Finset.sum_empty
  rw [Requests.init, htree, reqPages, List.map_nil, List.sum_nil, add_zero, add_zero,
    Pool.Allocator.pages, Pool.clear, List.append_nil]
  rfl

/-! ### Runs -/

/-- **Every page is in one place**: it is free, in one node of the tree, or in the slots of one
request from a place in its row on. -/
structure PagesExact (S : Setup) (s : State) (begins : Req → ℕ) : Prop where
  /-- Every page of the pool is counted once. -/
  conserved : ∃ nodes : Finset NodeId, (∀ n, n ∈ nodes ↔ InTree s.cache n ∧ n ≠ rootNode) ∧
    (s.allocator.pages : Multiset ℤ)
      + ∑ n ∈ nodes, (pagesOf S.cache.pageSize (s.cache.nodes n).value : Multiset ℤ)
      + (s.reqs.map fun x =>
          (pagesOf S.cache.pageSize (x.2.row.drop (begins x.2)) : Multiset ℤ)).sum = allPages S
  /-- A node has whole pages. -/
  node : ∀ n, InTree s.cache n → n ≠ rootNode →
    (s.cache.nodes n).value
      = pageSlots S.cache.pageSize (pagesOf S.cache.pageSize (s.cache.nodes n).value)
  /-- A request has pages, the last perhaps in part. -/
  request : ∀ x ∈ s.reqs, Paged S.cache.pageSize (x.2.row.drop (begins x.2))
    (pagesOf S.cache.pageSize (x.2.row.drop (begins x.2)))

theorem Conserving.pagesExact (h : Conserving S s l) : PagesExact S s Req.ownFrom := by
  refine ⟨⟨l.alive.erase rootNode, fun n => ?_, h.conserved⟩, ?_, ?_⟩
  · rw [Finset.mem_erase, h.inv.shape.inTree_iff, and_comm]
  · intro n hn hnr
    have hn := h.inv.shape.inTree_iff.mp hn
    obtain ⟨P, hP⟩ := h.stocked.paged n hn hnr
    refine (hP.self S.cache.pos).eq_pageSlots S.cache.pos ?_
    rw [h.stocked.filled n hn hnr]
    exact (h.inv.shape.key_pages n hn hnr).2
  · intro x hx
    obtain ⟨P, hP⟩ := (h.reqs x hx).paged
    exact hP.self S.cache.pos

/-- When nothing is cached and no request runs, every page is free. -/
theorem PagesExact.all_free {begins : Req → ℕ} (h : PagesExact S s begins) (hreqs : s.reqs = [])
    (htree : ∀ n, InTree s.cache n → n = rootNode) :
    (s.allocator.pages : Multiset ℤ) = allPages S := by
  obtain ⟨nodes, hnodes, hcons⟩ := h.conserved
  have hempty : nodes = ∅ := by
    refine Finset.eq_empty_of_forall_notMem fun n hn => ?_
    obtain ⟨hin, hnr⟩ := (hnodes n).mp hn
    exact hnr (htree n hin)
  rw [hempty, Finset.sum_empty, hreqs, List.map_nil, List.sum_nil, add_zero, add_zero] at hcons
  exact hcons

/-- **Everything can be evicted** when no request runs. -/
theorem Conserving.evict_all (h : Conserving S s l) (hreqs : s.reqs = [])
    (strategy : Cache → List NodeId → ℕ) {numTokens : ℕ} (hle : s.cache.evictableSize ≤ numTokens) :
    ∃ s', Requests.step S s (.evict strategy numTokens) = .ok s' ∧
      (s'.allocator.pages : Multiset ℤ) = allPages S := by
  obtain ⟨e, hok, h'⟩ := h.evict strategy numTokens
  obtain ⟨e₁, hok₁, hinv, he, hearly⟩ := h.inv.evict strategy numTokens
  obtain rfl : e₁ = e := Except.ok.inj (hok₁.symm.trans hok)
  have hinv' : Inv S.cache s.cache l [] := by
    have := h.inv
    rwa [hreqs] at this
  have hzero : ∀ n ∈ l.alive.erase rootNode, (s.cache.nodes n).lockRef = 0 := by
    intro n hn
    obtain ⟨hnr, hn⟩ := Finset.mem_erase.mp hn
    rw [hinv'.locks.count n hn hnr]
    rfl
  have hsub := he.removed_subset
  have hcount := he.numEvicted_eq h.stocked.filled
  have htotal : s.cache.evictableSize = ∑ n ∈ l.alive.erase rootNode,
    ((s.cache.nodes n).key.len : ℤ) := by
    rw [h.inv.books.evictable]
    exact Finset.sum_congr rfl fun n hn => by rw [TreeNode.evictable, if_pos (hzero n hn)]
  refine ⟨_, ?_, h'.pagesExact.all_free hreqs fun n hn => ?_⟩
  · simp only [Requests.step, bind, Except.bind, lift, hok, Except.mapError]
  · have hn := h'.inv.shape.inTree_iff.mp hn
    by_cases hlt : e₁.numEvicted < numTokens
    · rw [hreqs] at hinv
      exact hinv.eq_root (hearly hlt) hn
    · -- as much was evicted as there was, so nothing is left
      by_contra hnr
      obtain ⟨hnal, hnrem⟩ := Finset.mem_sdiff.mp hn
      have hpos := (h.inv.shape.key_pages n hnal hnr).1
      have hsum := Finset.sum_sdiff hsub (f := fun n => ((s.cache.nodes n).key.len : ℤ))
      have hone := Finset.single_le_sum (f := fun n => ((s.cache.nodes n).key.len : ℤ))
        (fun i _ => Int.natCast_nonneg _)
        (Finset.mem_sdiff.mpr ⟨Finset.mem_erase.mpr ⟨hnr, hnal⟩, hnrem⟩)
      omega

/-- The invariant holds of what unclamped requests come to. -/
theorem exists_conserving {s : State} (h : (system S).Reaches Unclamped (init S) s) :
    ∃ l, Conserving S s l ∧ Straight s := by
  refine h.invariant (I := fun s => ∃ l, Conserving S s l ∧ Straight s)
    ⟨_, Conserving.init S, fun _ hx => nomatch hx⟩ ?_
  rintro s op s' ⟨l, hc, hs⟩ hperm hguard hok
  rcases hc.step hperm (hs.keepsSlots op) with ⟨s₁, l₁, hok₁, hc₁, hs₁⟩ | herr
  · obtain rfl : s₁ = s' := Except.ok.inj (hok₁.symm.trans hok)
    exact ⟨l₁, hc₁, hs₁ hguard hs⟩
  · exact absurd (hok.symm.trans herr) (by simp)

/-- **KV slots are conserved across request lifecycles.** -/
theorem radix_slots_conserved {s : State} (h : (system S).Reaches Unclamped (init S) s) :
    PagesExact S s Req.protectedLen ∧
      (s.reqs = [] → (∀ n, InTree s.cache n → n = rootNode) →
        (s.allocator.pages : Multiset ℤ) = allPages S) ∧
      (s.reqs = [] → ∀ strategy numTokens, s.cache.evictableSize ≤ (numTokens : ℕ) →
        ∃ s', (system S).step s (.evict strategy numTokens) = .ok s' ∧
          (s'.allocator.pages : Multiset ℤ) = allPages S) ∧
      ∀ op, Permitted S s op → Unclamped s op →
        (∃ s', (system S).step s op = .ok s') ∨ (system S).step s op = .error .outOfMemory := by
  obtain ⟨l, hc, hs⟩ := exists_conserving h
  have hexact : PagesExact S s Req.protectedLen := by
    have hsame : ∀ x ∈ s.reqs, x.2.row.drop x.2.ownFrom = x.2.row.drop x.2.protectedLen :=
      fun x hx => by rw [hs x hx]
    obtain ⟨⟨nodes, hnodes, hcons⟩, hnode, hreq⟩ := hc.pagesExact
    refine ⟨⟨nodes, hnodes, ?_⟩, hnode, fun x hx => hsame x hx ▸ hreq x hx⟩
    rw [← hcons]
    congr 2
    exact List.map_congr_left fun x hx => by rw [hsame x hx]
  refine ⟨hexact, hexact.all_free, fun hreqs strategy _ hle => hc.evict_all hreqs strategy hle,
    fun op hperm _ => ?_⟩
  rcases hc.step hperm (hs.keepsSlots op) with ⟨s', -, hok, -⟩ | herr
  · exact Or.inl ⟨s', hok⟩
  · exact Or.inr herr

/-- Pages of two slots, six of them, sorted when they are released. -/
def pairPool : Setup where
  cache := pairPages
  paged := true
  needSort := true
  numPages := 6
  token := fun h => nomatch h

/-- Two requests with the same prompt run side by side and both cache it; the second finds the
first one's slots in the tree. -/
def twins : List Op :=
  [.start 1 [7, 8, 9, 7, 8] none none none, .start 2 [7, 8, 9, 7, 8] none none none,
    .extend [(1, 3), (2, 5)], .cacheUnfinished 1, .extend [(1, 2)], .cacheUnfinished 2,
    .cacheUnfinished 1, .addTokens 1 [5], .decode [1], .cacheFinished 1 true,
    .cacheFinished 2 false]

theorem radix_slots_conserved_twins :
    ∃ s, (system pairPool).Reaches Unclamped (init pairPool) s ∧ s.reqs = [] ∧
      s.cache.evictableSize = 6 ∧ PagesExact pairPool s Req.protectedLen := by
  have hrun : ((system pairPool).run Unclamped (init pairPool) twins).any
      (fun s => s.reqs.isEmpty && s.cache.evictableSize == 6) = true := by decide +kernel
  obtain ⟨s, hs, hend⟩ := (Option.any_eq_true _ _).mp hrun
  obtain ⟨hreqs, hsize⟩ := Bool.and_eq_true_iff.mp hend
  have hreach := OpSystem.Reaches.of_run .refl hs
  exact ⟨s, hreach, List.isEmpty_iff.mp hreqs, eq_of_beq hsize, (radix_slots_conserved hreach).1⟩

end Requests

end Radix

end HtSglang
