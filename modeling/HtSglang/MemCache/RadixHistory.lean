import HtSglang.MemCache.RadixSystem

/-!
# What a match returns

The contents of the cache, as its users know them: from the inserts and evictions alone, without a
tree. A position is an extra key and some whole pages of units; it is cached when some insert
covered it and it was not evicted since (`HtSglang.Radix.Cached`), and its slots are those of the
insert that created it (`HtSglang.Radix.CreatedBy`). An insert over a position that is cached does
not change it.

The tree is a representation of this (`HtSglang.Radix.Recorded`), kept by every operation, and
`match_prefix` returns the longest cached prefix, with the slots of the inserts that created its
positions (`HtSglang.Radix.radix_match_exact`).
-/

namespace HtSglang

namespace Radix

/-! ### Contents by history -/

/-- An event evicts a position: it is among the units that were the node's own. -/
def Event.Evicts (extraKey : Option String) (u : List LogicalUnit) : Event → Prop
  | .insert _ _ _ => False
  | .evict e units own => e = extraKey ∧ u <+: units ∧ units.length < u.length + own

/-- **A position is cached**: an insert covered it, and it was not evicted since. -/
def Cached (extraKey : Option String) (u : List LogicalUnit) : List Event → Prop
  | [] => False
  | .insert e units _ :: log => e = extraKey ∧ u <+: units ∨ Cached extraKey u log
  | .evict e units own :: log =>
    ¬(Event.evict e units own).Evicts extraKey u ∧ Cached extraKey u log

/-- **The slots by which a position was created**: those of the first insert that covered it
since it was evicted last. -/
def CreatedBy (extraKey : Option String) (u : List LogicalUnit) (slots : List ℤ) :
    List Event → Prop
  | [] => False
  | .insert e units v :: log =>
    (e = extraKey ∧ u <+: units ∧ ¬Cached extraKey u log ∧ slots = v) ∨
      CreatedBy extraKey u slots log
  | .evict e units own :: log =>
    ¬(Event.evict e units own).Evicts extraKey u ∧ CreatedBy extraKey u slots log

section History

variable {e : Option String} {u : List LogicalUnit} {log : List Event}

/-- What is cached was created. -/
theorem cached_iff_createdBy : Cached e u log ↔ ∃ v, CreatedBy e u v log := by
  induction log with
  | nil => exact ⟨fun h => h.elim, fun ⟨_, h⟩ => h.elim⟩
  | cons ev log ih =>
    cases ev with
    | insert e' units v' =>
      simp only [Cached, CreatedBy, exists_or, ih]
      constructor
      · rintro (⟨he, hu⟩ | hc)
        · by_cases hc : ∃ v, CreatedBy e u v log
          · exact Or.inr hc
          · exact Or.inl ⟨v', he, hu, hc, rfl⟩
        · exact Or.inr hc
      · rintro (⟨v, he, hu, -⟩ | hc)
        · exact Or.inl ⟨he, hu⟩
        · exact Or.inr hc
    | evict e' units own =>
      simp only [Cached, CreatedBy, ih, exists_and_left]

/-- Evictions take away what they cover. -/
theorem createdBy_evictions {v : List ℤ} {evs : List Event}
    (hevs : ∀ ev ∈ evs, ∃ e' units own, ev = .evict e' units own) :
    CreatedBy e u v (evs ++ log) ↔ (∀ ev ∈ evs, ¬ev.Evicts e u) ∧ CreatedBy e u v log := by
  induction evs with
  | nil => simp
  | cons ev evs ih =>
    obtain ⟨e', units, own, rfl⟩ := hevs ev List.mem_cons_self
    rw [List.cons_append, CreatedBy, ih fun ev hev => hevs ev (List.mem_cons_of_mem _ hev),
      List.forall_mem_cons, and_assoc]

end History

/-! ### The contents of the tree -/

variable {cfg : Config} {c c' : Cache} {l l' : Layout} {locks : List NodeId}

/-- A position: whole pages of units, at least one. -/
def Position (cfg : Config) (u : List LogicalUnit) : Prop :=
  0 < u.length ∧ cfg.pageSize ∣ u.length

/-- The last page of the slots of some units. -/
def lastPage (cfg : Config) (u : List LogicalUnit) (slots : List ℤ) : List ℤ :=
  (slots.drop (u.length - cfg.pageSize)).take cfg.pageSize

/-- Every unit in the tree has a slot. -/
def Filled (c : Cache) (l : Layout) : Prop :=
  ∀ n ∈ l.alive, n ≠ rootNode → (c.nodes n).value.length = (c.nodes n).key.len

/-- The tree holds a position, with the slots of its last page. -/
def Holds (cfg : Config) (c : Cache) (l : Layout) (e : Option String) (u : List LogicalUnit)
    (page : List ℤ) : Prop :=
  ∃ n ∈ l.alive, n ≠ rootNode ∧ (c.nodes n).key.extraKey = e ∧ u <+: l.path n ∧
    page = lastPage cfg u (l.slots n)

theorem Position.pageSize_le {u : List LogicalUnit} (hu : Position cfg u) :
    cfg.pageSize ≤ u.length := Nat.le_of_dvd hu.1 hu.2

/-- Slots that extend each other agree on a page inside. -/
theorem lastPage_eq {u : List LogicalUnit} (hu : Position cfg u) {s t : List ℤ} (hst : s <+: t)
    (hlen : u.length ≤ s.length) : lastPage cfg u s = lastPage cfg u t := by
  have := hu.pageSize_le
  exact drop_take_eq_of_prefix List.prefix_rfl hst (by omega)

section Slots

variable {n m : NodeId}

theorem Filled.length_slots (hf : Filled c l) (h : Shape cfg c l) (hv : Slots c l)
    (hn : n ∈ l.alive) : (l.slots n).length = (l.path n).length := by
  refine h.tree.induction (C := fun n => (l.slots n).length = (l.path n).length) ?_ ?_ n hn
  · rw [hv.root, h.root_path]
    rfl
  · intro n hn p _ hnr hp ih
    rw [hv.step n hn hnr p hp, h.path_eq n hn hnr p hp, List.length_append, List.length_append, ih,
      hf n hn hnr, RadixKey.length_units]

theorem Slots.isPrefix (hv : Slots c l) (h : Shape cfg c l) (hn : n ∈ l.alive)
    (hm : m ∈ l.above n) : l.slots m <+: l.slots n := by
  refine h.tree.induction (C := fun n => ∀ m ∈ l.above n, l.slots m <+: l.slots n) ?_ ?_ n hn m hm
  · intro m hm
    rw [h.tree.above_root, Finset.mem_singleton] at hm
    exact hm ▸ List.prefix_rfl
  · intro n hn p _ hnr hp ih m hm
    rw [h.tree.above_eq hn hnr hp, Finset.mem_insert] at hm
    rcases hm with rfl | hm
    · exact List.prefix_rfl
    · rw [hv.step n hn hnr p hp]
      exact (ih m hm).trans (List.prefix_append _ _)

/-- A position on the way to a node ends in some node on that way. -/
theorem Shape.exists_cover (h : Shape cfg c l) {u : List LogicalUnit} (hu : 0 < u.length)
    (hn : n ∈ l.alive) (hun : u <+: l.path n) :
    ∃ m ∈ l.above n, m ≠ rootNode ∧ u <+: l.path m ∧
      ∀ p, (c.nodes m).parent = some p → (l.path p).length < u.length := by
  refine h.tree.induction (C := fun n => u <+: l.path n → ∃ m ∈ l.above n, m ≠ rootNode ∧
    u <+: l.path m ∧ ∀ p, (c.nodes m).parent = some p → (l.path p).length < u.length) ?_ ?_ n hn hun
  · intro hun
    have := hun.length_le
    rw [h.root_path, List.length_nil] at this
    omega
  · intro n hn p hp hnr hpar ih hun
    by_cases hlt : (l.path p).length < u.length
    · refine ⟨n, h.tree.self_mem_above hn, hnr, hun, fun q hq => ?_⟩
      rw [hpar] at hq
      exact Option.some.inj hq ▸ hlt
    · have hup : u <+: l.path p := by
        refine List.prefix_of_prefix_length_le hun ?_ (not_lt.mp hlt)
        rw [h.path_eq n hn hnr p hpar]
        exact List.prefix_append _ _
      obtain ⟨m, hm, hrest⟩ := ih hup
      exact ⟨m, h.tree.above_eq hn hnr hpar ▸ Finset.mem_insert_of_mem hm, hrest⟩

end Slots

/-! ### Matching and splitting -/

theorem Filled.split (hf : Filled c l) (h : Shape cfg c l) {x p : NodeId} {k : ℕ}
    (hs : Shape.Splits cfg c l x p k) :
    Filled (Shape.splitCache cfg c x p k) (l.split c x p k) := by
  have hx := hf x hs.mem hs.ne_root
  have hlt := hs.lt
  intro n hn' hnr
  rcases Finset.mem_insert.mp hn' with rfl | hn
  · rw [Shape.Splits.nodes_new h hs, List.length_take, RadixKey.len_slice, hx, Nat.sub_zero]
  · by_cases hnx : n = x
    · subst hnx
      rw [Shape.Splits.nodes_child h hs, List.length_drop, RadixKey.len_slice, hx, min_self]
    · obtain ⟨-, hkey, hval, -⟩ := Shape.Splits.nodes_old h hs hn hnx
      rw [hkey, hval]
      exact hf n hn hnr

theorem SplitOnce.filled (hs : SplitOnce cfg c l c' l') (hf : Filled c l) (h : Shape cfg c l) :
    Filled c' l' := by
  rcases hs with ⟨rfl, rfl⟩ | ⟨x, p, k, hs, rfl, rfl⟩
  · exact hf
  · exact hf.split h hs

/-- **A split changes nothing about the contents.** -/
theorem SplitOnce.holds_iff (hs : SplitOnce cfg c l c' l') (h : Inv cfg c l locks)
    (hf : Filled c l) {e : Option String} {u : List LogicalUnit} (hu : Position cfg u)
    {page : List ℤ} : Holds cfg c' l' e u page ↔ Holds cfg c l e u page := by
  rcases hs with ⟨rfl, rfl⟩ | ⟨x, p, k, hs, rfl, rfl⟩
  · rfl
  have h' := h.split hs
  have hold : ∀ n ∈ l.alive, (l.split c x p k).slots n = l.slots n := by
    intro n hn
    have hne : n ≠ c.counter := fun hc => h.shape.counter_notMem (hc ▸ hn)
    exact Function.update_of_ne hne _ _
  constructor
  · rintro ⟨n, hn', hnr, he, hun, hpage⟩
    rcases Finset.mem_insert.mp hn' with rfl | hn
    · -- the new node is above the one it was split off
      have hab : c.counter ∈ (l.split c x p k).above x := by
        change _ ∈ Ancestry.splitAbove _ _ _ _ _
        have hxw : x ≠ c.counter := fun hc => h.shape.counter_notMem (hc ▸ hs.mem)
        rw [Ancestry.mem_splitAbove_new hxw
          (fun hc => h.shape.counter_notMem (h.shape.tree.above_subset hs.mem hc))]
        exact h.shape.tree.self_mem_above hs.mem
      have hxmem : x ∈ (l.split c x p k).alive := Finset.mem_insert_of_mem hs.mem
      have hux := hun.trans (h'.shape.path_isPrefix hxmem hab)
      rw [Shape.Splits.path_old h.shape hs.mem] at hux
      refine ⟨x, hs.mem, hs.ne_root, ?_, hux, ?_⟩
      · rw [Shape.Splits.nodes_new h.shape hs, RadixKey.extraKey_slice] at he
        exact he
      · rw [hpage, lastPage_eq hu (h'.slots.isPrefix h'.shape hxmem hab), hold x hs.mem]
        rw [(hf.split h.shape hs).length_slots h'.shape h'.slots hn']
        exact hun.length_le
    · rw [Shape.Splits.path_old h.shape hn] at hun
      rw [Shape.Splits.extraKey_old h.shape hs hn] at he
      rw [hold n hn] at hpage
      exact ⟨n, hn, hnr, he, hun, hpage⟩
  · rintro ⟨n, hn, hnr, he, hun, hpage⟩
    refine ⟨n, Finset.mem_insert_of_mem hn, hnr, ?_, ?_, ?_⟩
    · rw [Shape.Splits.extraKey_old h.shape hs hn, he]
    · rw [Shape.Splits.path_old h.shape hn]
      exact hun
    · rw [hold n hn, hpage]

/-- **Where a way down ends is as far as the contents go**: the prefixes of the key that the
tree holds are those that were gone down. -/
theorem Landed.holds_iff {key key' : RadixKey} {n' : NodeId} {l₀ : Layout} {c₀ : Cache}
    (hl : Landed cfg c₀ l₀ rootNode key c l n' key') (h₀ : Shape cfg c₀ l₀)
    (h : Shape cfg c l) {u : List LogicalUnit} (hu : Position cfg u) (huk : u <+: key.units) :
    (∃ page, Holds cfg c l key.extraKey u page) ↔ u.length ≤ (l.path n').length := by
  have hpath : l.path n' ++ key'.units = key.units := by
    rw [hl.path, h₀.root_path, List.nil_append]
  have hnk : l.path n' <+: key.units := hpath ▸ List.prefix_append _ _
  constructor
  · rintro ⟨page, m, hm, hmr, he, hum, -⟩
    by_contra hlt
    have hlt : (l.path n').length < u.length := not_le.mp hlt
    have hnu : l.path n' <+: u := List.prefix_of_prefix_length_le hnk huk hlt.le
    -- the end is above the node that holds the position, so one of its children is
    have hab : n' ∈ l.above m := by
      refine h.mem_above_of_prefix hl.mem hm hmr ?_ List.prefix_rfl (hnu.trans hum)
        (h.dvd_length_path hl.mem) fun p hr hp => h.tree.depth_lt hl.mem hr hp
      intro hr
      rw [hl.extraKey_node hr, he]
    have hne : n' ≠ m := by
      rintro rfl
      have := hum.length_le
      omega
    obtain ⟨k, hkm, hk, hkr, hkp⟩ := h.tree.exists_child hm hab hne
    have hroom := add_le_of_dvd_of_lt (h.dvd_length_path hl.mem) hu.2 hlt
    have hpage : (c.nodes k).key.units.take cfg.pageSize = key'.units.take cfg.pageSize := by
      have hkeq : ((l.path k).drop (l.path n').length).take cfg.pageSize
          = ((l.path m).drop (l.path n').length).take cfg.pageSize := by
        refine drop_take_eq_of_prefix List.prefix_rfl (h.path_isPrefix hm hkm) ?_
        rw [h.path_eq k hk hkr n' hkp, List.length_append, RadixKey.length_units]
        exact Nat.add_le_add_left (h.pageSize_le hk hkr) _
      rw [← h.page_eq hk hkr hkp, hkeq, drop_take_eq_of_prefix hum huk hroom, ← hpath,
        List.drop_left]
    have hfiled := h.filed k hk hkr n' hkp
    rw [TreeNode.fileKey, hpage, h.extraKey_of_mem_above hm hkm hkr, he, ← hl.extraKey] at hfiled
    rcases hl.stop with hz | hnone
    · have hlen := congrArg List.length hpath
      have := huk.length_le
      rw [List.length_append, RadixKey.length_units, hz] at hlen
      omega
    · rw [hnone] at hfiled
      cases hfiled
  · intro hle
    have hnr : n' ≠ rootNode := by
      rintro rfl
      have := hu.1
      rw [h.root_path, List.length_nil] at hle
      omega
    exact ⟨_, n', hl.mem, hnr, hl.extraKey_node hnr,
      List.prefix_of_prefix_length_le huk hnk hle, rfl⟩

/-! ### The tree records the history -/

/-- **The tree records the history**: it holds what is cached, with the slots it was created
by. -/
def Recorded (cfg : Config) (c : Cache) (l : Layout) (log : List Event) : Prop :=
  ∀ e u, Position cfg u → ∀ page, Holds cfg c l e u page ↔
    ∃ v, CreatedBy e u v log ∧ page = lastPage cfg u v

theorem Recorded.cached_iff {log : List Event} (hr : Recorded cfg c l log) {e : Option String}
    {u : List LogicalUnit} (hu : Position cfg u) :
    Cached e u log ↔ ∃ page, Holds cfg c l e u page := by
  rw [cached_iff_createdBy]
  constructor
  · rintro ⟨v, hv⟩
    exact ⟨_, (hr e u hu _).mpr ⟨v, hv, rfl⟩⟩
  · rintro ⟨page, hpage⟩
    obtain ⟨v, hv, -⟩ := (hr e u hu page).mp hpage
    exact ⟨v, hv⟩

theorem Recorded.splitOnce {log : List Event} (hr : Recorded cfg c l log)
    (hs : SplitOnce cfg c l c' l') (h : Inv cfg c l locks) (hf : Filled c l) :
    Recorded cfg c' l' log := by
  intro e u hu page
  rw [hs.holds_iff h hf hu]
  exact hr e u hu page

/-! ### Inserting -/

section Insert

variable {key key' : RadixKey} {value : Option (List ℤ)}

/-- The pages of a key are a prefix of it. -/
theorem cacheKey_units (key : RadixKey) :
    (cacheKey cfg key).units =
      (key.toBigramView cfg.isEagle).units.take (cacheKey cfg key).len := by
  rw [len_cacheKey, cacheKey, RadixKey.units_pageAligned]

theorem prefix_cacheKey_iff {u : List LogicalUnit} (hu : Position cfg u) :
    u <+: (cacheKey cfg key).units ↔ u <+: (key.toBigramView cfg.isEagle).units := by
  constructor
  · rw [cacheKey_units]
    exact fun h => h.trans (List.take_prefix _ _)
  · intro h
    have hle := h.length_le
    rw [RadixKey.length_units] at hle
    rw [cacheKey_units, List.prefix_take_iff]
    exact ⟨h, by rw [len_cacheKey]; exact (le_div_mul_iff hu.2).mpr hle⟩

/-- **The slots an insert stores** are the first of those it was given. -/
theorem cacheValue_eq (key : RadixKey) (value : Option (List ℤ)) :
    cacheValue cfg key value = (value.getD key.tokenIds).take (cacheKey cfg key).len := by
  have hle : (cacheKey cfg key).len ≤ (key.toBigramView cfg.isEagle).len := by
    rw [len_cacheKey]
    exact Nat.div_mul_le_self _ _
  rw [cacheValue]
  rcases value with _ | v
  · have hnone : key.bigramValue cfg.isEagle none = none := by
      rw [RadixKey.bigramValue]
      split <;> rfl
    rw [hnone, Option.getD_none, ← key.tokenIds_toBigramView cfg.isEagle]
    dsimp only
    rw [cacheKey, RadixKey.pageAligned]
    generalize key.toBigramView cfg.isEagle = k
    split
    · rfl
    · have hk : k.len / cfg.pageSize * cfg.pageSize ≤ k.len := Nat.div_mul_le_self _ _
      rw [RadixKey.len_slice, min_eq_left hk, Nat.sub_zero, RadixKey.slice, min_eq_left hk,
        Nat.zero_min]
      split
      · split
        · rw [window, List.drop_zero, List.take_take, min_eq_left (Nat.le_succ _)]
        · next hz =>
          rw [Nat.eq_zero_of_not_pos hz, List.take_zero, List.take_zero]
      · rw [window, List.drop_zero, List.take_take, min_self]
  · rw [Option.getD_some, RadixKey.bigramValue]
    split
    · next w hw =>
      split at hw
      · obtain rfl : _ = w := Option.some.inj hw
        rw [List.take_take, min_eq_left hle]
      · obtain rfl : v = w := Option.some.inj hw
        rfl
    · next hw =>
      split at hw <;> cases hw

/-- Every unit that is stored is given a slot. -/
def GivesSlots (cfg : Config) (key : RadixKey) (value : Option (List ℤ)) : Prop :=
  ∀ v, value = some v → (cacheKey cfg key).len ≤ v.length

theorem GivesSlots.length_cacheValue (hg : GivesSlots cfg key value) :
    (cacheValue cfg key value).length = (cacheKey cfg key).len := by
  rw [cacheValue_eq, List.length_take]
  refine min_eq_left ?_
  rcases value with _ | v
  · have hlen : (cacheKey cfg key).len ≤ (key.toBigramView cfg.isEagle).len := by
      rw [len_cacheKey]
      exact Nat.div_mul_le_self _ _
    have hview := (key.toBigramView cfg.isEagle).len_le
    rw [RadixKey.tokenIds_toBigramView] at hview
    rw [Option.getD_none]
    omega
  · exact hg v rfl

theorem Filled.attached {n m : NodeId} {v : List ℤ} (hf : Filled c l) (h : Shape cfg c l)
    (hn : n ∈ l.alive) (hv : 0 < key.len → v.length = key.len)
    (ha : Attached cfg c l n key v c' l' m) : Filled c' l' := by
  cases ha with
  | there _ => exact hf
  | leaf hpos =>
    have hne : ∀ n ∈ l.alive, n ≠ c.counter := fun n hn hc => h.counter_notMem (hc ▸ hn)
    intro k hk' hkr
    rcases Finset.mem_insert.mp hk' with rfl | hk
    · rw [addLeaf_new (hne n hn)]
      exact hv hpos
    · rw [(addLeaf_old (hne k hk)).2.1, (addLeaf_old (hne k hk)).2.2.1]
      exact hf k hk hkr

/-- What a new leaf adds to the contents: the positions on the way to it. -/
theorem holds_addLeaf_iff {n : NodeId} {f : ChildKey} {v : List ℤ} (h : Shape cfg c l)
    (hn : n ∈ l.alive) {e : Option String} {u : List LogicalUnit} {page : List ℤ} :
    Holds cfg (addLeaf c n f key v) (l.addLeaf c n key v) e u page ↔
      Holds cfg c l e u page ∨ (key.extraKey = e ∧ u <+: l.path n ++ key.units ∧
        page = lastPage cfg u (l.slots n ++ v)) := by
  have hne : ∀ n ∈ l.alive, n ≠ c.counter := fun n hn hc => h.counter_notMem (hc ▸ hn)
  have hpath : ∀ n ∈ l.alive, (l.addLeaf c n key v).path n = l.path n := fun n hn =>
    Function.update_of_ne (hne n hn) _ _
  have hold : ∀ k ∈ l.alive, ((addLeaf c n f key v).nodes k).key.extraKey
      = (c.nodes k).key.extraKey ∧ (l.addLeaf c n key v).path k = l.path k ∧
        (l.addLeaf c n key v).slots k = l.slots k := by
    intro k hk
    refine ⟨?_, Function.update_of_ne (hne k hk) _ _, Function.update_of_ne (hne k hk) _ _⟩
    rw [(addLeaf_old (hne k hk)).2.1]
  have hnew : ((addLeaf c n f key v).nodes c.counter).key.extraKey = key.extraKey ∧
      (l.addLeaf c n key v).path c.counter = l.path n ++ key.units ∧
        (l.addLeaf c n key v).slots c.counter = l.slots n ++ v := by
    refine ⟨?_, Function.update_self _ _ _, Function.update_self _ _ _⟩
    rw [addLeaf_new (hne n hn)]
  constructor
  · rintro ⟨k, hk', hkr, he, huk, hpage⟩
    rcases Finset.mem_insert.mp hk' with rfl | hk
    · rw [hnew.1] at he
      rw [hnew.2.1] at huk
      rw [hnew.2.2] at hpage
      exact Or.inr ⟨he, huk, hpage⟩
    · rw [(hold k hk).1] at he
      rw [(hold k hk).2.1] at huk
      rw [(hold k hk).2.2] at hpage
      exact Or.inl ⟨k, hk, hkr, he, huk, hpage⟩
  · rintro (⟨k, hk, hkr, he, huk, hpage⟩ | ⟨he, huk, hpage⟩)
    · refine ⟨k, Finset.mem_insert_of_mem hk, hkr, ?_, ?_, ?_⟩
      · rw [(hold k hk).1, he]
      · rw [(hold k hk).2.1]
        exact huk
      · rw [(hold k hk).2.2, hpage]
    · refine ⟨c.counter, Finset.mem_insert_self _ _, (hne _ h.tree.root_mem).symm, ?_, ?_, ?_⟩
      · rw [hnew.1, he]
      · rw [hnew.2.1]
        exact huk
      · rw [hnew.2.2, hpage]

/-- What the tree had before a leaf is added below `n` stays as it was. -/
theorem holds_addLeaf_iff_of_le {n : NodeId} {f : ChildKey} {v : List ℤ} (h : Shape cfg c l)
    (hn : n ∈ l.alive) (hne : n ≠ rootNode → (c.nodes n).key.extraKey = key.extraKey)
    (hslots : (l.slots n).length = (l.path n).length) {u : List LogicalUnit} {page : List ℤ}
    (hu : Position cfg u) (hle : u.length ≤ (l.path n).length) :
    Holds cfg (addLeaf c n f key v) (l.addLeaf c n key v) key.extraKey u page ↔
      Holds cfg c l key.extraKey u page := by
  rw [holds_addLeaf_iff h hn]
  refine ⟨?_, Or.inl⟩
  rintro (hold | ⟨-, huk, hpage⟩)
  · exact hold
  · have hnr : n ≠ rootNode := by
      rintro rfl
      have := hu.1
      rw [h.root_path, List.length_nil] at hle
      omega
    refine ⟨n, hn, hnr, hne hnr, ?_, ?_⟩
    · exact List.prefix_of_prefix_length_le huk (List.prefix_append _ _) hle
    · rw [hpage]
      exact (lastPage_eq hu (List.prefix_append _ _) (hslots.symm ▸ hle)).symm

/-- The page that a new leaf has at a position beyond the tree is the one that was given. -/
theorem lastPage_slots_append {n : NodeId} (h : Shape cfg c l) (hn : n ∈ l.alive)
    (hslots : (l.slots n).length = (l.path n).length) {u : List LogicalUnit}
    (hu : Position cfg u) (huk : u <+: (cacheKey cfg key).units)
    (hlt : (l.path n).length < u.length) :
    lastPage cfg u (l.slots n ++ (cacheValue cfg key value).drop (l.path n).length) =
      lastPage cfg u (value.getD key.tokenIds) := by
  have hps := hu.pageSize_le
  have hroom : (l.path n).length ≤ u.length - cfg.pageSize := by
    have := add_le_of_dvd_of_lt (h.dvd_length_path hn) hu.2 hlt
    omega
  have huK : u.length ≤ (cacheKey cfg key).len := by
    have := huk.length_le
    rwa [RadixKey.length_units] at this
  rw [lastPage, lastPage, List.drop_append, List.drop_eq_nil_of_le (by omega), hslots,
    List.nil_append, List.drop_drop, Nat.add_sub_cancel' hroom, cacheValue_eq,
    List.drop_take, List.take_take, min_eq_left (by omega)]

/-- **An insert is recorded.** -/
theorem Recorded.insert {log : List Event} (hr : Recorded cfg c l log) (h : Inv cfg c l locks)
    (hf : Filled c l) {c₁ c₂ : Cache} {l₁ l₂ : Layout} {n m : NodeId}
    (hland : Landed cfg c l rootNode (cacheKey cfg key) c₁ l₁ n key')
    (hatt : Attached cfg c₁ l₁ n key' ((cacheValue cfg key value).drop (l₁.path n).length)
      c₂ l₂ m) :
    Recorded cfg c₂ l₂ (insertEvent cfg key value :: log) := by
  have h₁ := hland.once.inv h
  have hf₁ := hland.once.filled hf h.shape
  have hr₁ := hr.splitOnce hland.once h hf
  have hpath : l₁.path n ++ key'.units = (cacheKey cfg key).units := by
    rw [hland.path, h.shape.root_path, List.nil_append]
  have hek : key'.extraKey = key.extraKey := hland.extraKey.trans (extraKey_cacheKey key)
  have hslots := hf₁.length_slots h₁.shape h₁.slots hland.mem
  intro e u hu page
  simp only [insertEvent, CreatedBy]
  -- the contents before the leaf is added
  have hbefore := hr₁ e u hu page
  by_cases hcov : key.extraKey = e ∧ u <+: (key.toBigramView cfg.isEagle).units
  · obtain ⟨rfl, hun⟩ := hcov
    have huk := (prefix_cacheKey_iff hu).mpr hun
    have hreach := hland.holds_iff h.shape h₁.shape hu huk
    rw [extraKey_cacheKey] at hreach
    have hcached := hr₁.cached_iff (e := key.extraKey) hu
    by_cases hle : u.length ≤ (l₁.path n).length
    · -- it was there before, and stays as it was
      have hc : Cached key.extraKey u log := hcached.mpr (hreach.mpr hle)
      have hiff : Holds cfg c₂ l₂ key.extraKey u page ↔ Holds cfg c₁ l₁ key.extraKey u page := by
        cases hatt with
        | there _ => rfl
        | leaf _ =>
          rw [← hek]
          refine holds_addLeaf_iff_of_le h₁.shape hland.mem (fun hnr => ?_) hslots hu hle
          rw [hland.extraKey_node hnr, extraKey_cacheKey, hek]
      rw [hiff, hbefore]
      exact ⟨fun ⟨v, hv, hp⟩ => ⟨v, Or.inr hv, hp⟩, fun ⟨v, hv, hp⟩ =>
        ⟨v, hv.resolve_left fun hn => hn.2.2.1 hc, hp⟩⟩
    · -- it is new, and the leaf has the slots that were given
      have hnc : ¬Cached key.extraKey u log := fun hc => hle (hreach.mp (hcached.mp hc))
      have hnh : ¬Holds cfg c₁ l₁ key.extraKey u page := fun hh => hle (hreach.mp ⟨page, hh⟩)
      have hlt := not_le.mp hle
      have hpos : 0 < key'.len := by
        have hlen := congrArg List.length hpath
        have := huk.length_le
        rw [List.length_append, key'.length_units] at hlen
        omega
      cases hatt with
      | there hz => omega
      | leaf _ =>
        rw [holds_addLeaf_iff h₁.shape hland.mem, hek, hpath,
          lastPage_slots_append h₁.shape hland.mem hslots hu huk hlt]
        constructor
        · rintro (hold | ⟨-, -, hpage⟩)
          · exact absurd hold hnh
          · exact ⟨_, Or.inl ⟨rfl, hun, hnc, rfl⟩, hpage⟩
        · rintro ⟨v, ⟨-, -, -, rfl⟩ | hv, hpage⟩
          · exact Or.inr ⟨rfl, huk, hpage⟩
          · exact absurd (cached_iff_createdBy.mpr ⟨v, hv⟩) hnc
  · -- another position
    have hiff : Holds cfg c₂ l₂ e u page ↔ Holds cfg c₁ l₁ e u page := by
      cases hatt with
      | there _ => rfl
      | leaf _ =>
        rw [holds_addLeaf_iff h₁.shape hland.mem, hek, hpath]
        refine ⟨fun hor => hor.resolve_right ?_, Or.inl⟩
        rintro ⟨he, huk, -⟩
        exact hcov ⟨he, (prefix_cacheKey_iff hu).mp huk⟩
    rw [hiff, hbefore]
    exact ⟨fun ⟨v, hv, hp⟩ => ⟨v, Or.inr hv, hp⟩, fun ⟨v, hv, hp⟩ =>
      ⟨v, hv.resolve_left fun hn => hcov ⟨hn.1, hn.2.1⟩, hp⟩⟩

end Insert

/-! ### Evicting -/

/-- The units of a node's way up are its path. -/
theorem unitsLoop_eq (h : Shape cfg c l) {fuel : ℕ} {n : NodeId} {us : List LogicalUnit}
    (hn : n ∈ l.alive) (hfuel : (l.above n).card < fuel + 1) :
    unitsLoop c (fuel + 1) n us = l.path n ++ us := by
  induction fuel generalizing n us with
  | zero =>
    have := Finset.card_pos.mpr ⟨n, h.tree.self_mem_above hn⟩
    omega
  | succ fuel ih =>
    rw [unitsLoop]
    split
    · next hr => rw [hr, h.root_path, List.nil_append]
    · next hnr =>
      obtain ⟨p, hp, hpar⟩ := h.exists_parent hn hnr
      have hcard := h.tree.card_above_parent hn hnr hpar
      simp only [hpar]
      rw [ih hp (by omega), h.path_eq n hn hnr p hpar, List.append_assoc]

theorem unitsTo_eq (h : Shape cfg c l) {n : NodeId} (hn : n ∈ l.alive) :
    unitsTo c n = l.path n := by
  rw [unitsTo, unitsLoop_eq h hn (h.card_above_lt hn), List.append_nil]

/-- The event of a node's eviction evicts the positions that end in the node. -/
theorem evicts_evictEvent_iff (h : Shape cfg c l) {n p : NodeId} (hn : n ∈ l.alive)
    (hnr : n ≠ rootNode) (hp : (c.nodes n).parent = some p) {e : Option String}
    {u : List LogicalUnit} :
    (evictEvent c n).Evicts e u ↔
      (c.nodes n).key.extraKey = e ∧ u <+: l.path n ∧ (l.path p).length < u.length := by
  rw [evictEvent, Event.Evicts, unitsTo_eq h hn, h.path_eq n hn hnr p hp, List.length_append,
    RadixKey.length_units]
  refine and_congr_right fun _ => and_congr_right fun _ => ?_
  omega

theorem Filled.evicting {e : Eviction} (hf : Filled c l) (he : Evicting cfg c l locks e) :
    Filled e.cache { l with alive := l.alive \ e.removed.toFinset } := by
  intro n hn hnr
  obtain ⟨-, hkey, hval, -⟩ := he.same n
  rw [hkey, hval]
  exact hf n (Finset.mem_sdiff.mp hn).1 hnr

/-- **An eviction is recorded**: what the tree no longer holds are the positions that ended in
a node that was removed. -/
theorem Recorded.evict {log : List Event} {e : Eviction} (hr : Recorded cfg c l log)
    (h : Inv cfg c l locks) (hf : Filled c l) (he : Evicting cfg c l locks e) :
    Recorded cfg e.cache { l with alive := l.alive \ e.removed.toFinset }
      (e.removed.reverse.map (evictEvent c) ++ log) := by
  intro ek u hu page
  have hev : ∀ v, CreatedBy ek u v (e.removed.reverse.map (evictEvent c) ++ log) ↔
      (∀ r ∈ e.removed, ¬(evictEvent c r).Evicts ek u) ∧ CreatedBy ek u v log := by
    intro v
    rw [createdBy_evictions]
    · simp only [List.mem_map, List.mem_reverse, forall_exists_index, and_imp,
        forall_apply_eq_imp_iff₂]
    · intro ev hev
      obtain ⟨r, -, rfl⟩ := List.mem_map.mp hev
      exact ⟨_, _, _, rfl⟩
  simp only [hev, and_assoc, exists_and_left]
  rw [← hr ek u hu page]
  constructor
  · rintro ⟨n, hn, hnr, hek, hun, hpage⟩
    have hnal := (Finset.mem_sdiff.mp hn).1
    rw [(he.same n).2.1] at hek
    refine ⟨fun r hrem hevicts => ?_, n, hnal, hnr, hek, hun, hpage⟩
    -- a removed node that held the position would be above one that is still there
    obtain ⟨hral, hrr, -⟩ := he.removed_mem r hrem
    obtain ⟨p, -, hp⟩ := h.shape.exists_parent hral hrr
    obtain ⟨hre, hur, hlt⟩ := (evicts_evictEvent_iff h.shape hral hrr hp).mp hevicts
    have hab : r ∈ l.above n := by
      refine h.shape.mem_above_of_prefix hral hnal hnr (fun _ => hre.trans hek.symm) hur hun hu.2 ?_
      intro q _ hq
      rw [hp] at hq
      exact Option.some.inj hq ▸ hlt
    have := he.shape.tree.above_subset hn hab
    exact (Finset.mem_sdiff.mp this).2 (List.mem_toFinset.mpr hrem)
  · rintro ⟨hno, n, hn, hnr, hek, hun, hpage⟩
    obtain ⟨m, hmn, hmr, hum, hlast⟩ := h.shape.exists_cover hu.1 hn hun
    have hm := h.shape.tree.above_subset hn hmn
    obtain ⟨p, -, hp⟩ := h.shape.exists_parent hm hmr
    have hme := (h.shape.extraKey_of_mem_above hn hmn hmr).trans hek
    have hmrem : m ∉ e.removed := fun hc =>
      hno m hc ((evicts_evictEvent_iff h.shape hm hmr hp).mpr ⟨hme, hum, hlast p hp⟩)
    refine ⟨m, Finset.mem_sdiff.mpr ⟨hm, fun hc => hmrem (List.mem_toFinset.mp hc)⟩, hmr, ?_,
      hum, ?_⟩
    · rw [(he.same m).2.1, hme]
    · rw [hpage]
      refine (lastPage_eq hu (h.slots.isPrefix h.shape hn hmn) ?_).symm
      rw [hf.length_slots h.shape h.slots hm]
      exact hum.length_le

/-! ### Runs -/

/-- The users lock no evicted node, and give a slot to every unit they insert. -/
def Orderly (cfg : Config) (s : State) : Op → Prop
  | .incLockRef n => n ∉ s.evicted
  | .insert key value => GivesSlots cfg key value
  | _ => True

instance (key : RadixKey) (value : Option (List ℤ)) : Decidable (GivesSlots cfg key value) :=
  match value with
  | none => .isTrue fun _ hv => nomatch hv
  | some v => decidable_of_iff ((cacheKey cfg key).len ≤ v.length)
      ⟨fun h _ hw => Option.some.inj hw ▸ h, fun h => h v rfl⟩

instance (s : State) (op : Op) : Decidable (Orderly cfg s op) :=
  match op with
  | .incLockRef n => inferInstanceAs (Decidable (n ∉ s.evicted))
  | .insert key value => inferInstanceAs (Decidable (GivesSlots cfg key value))
  | .decLockRef _ => .isTrue trivial
  | .matchPrefix _ => .isTrue trivial
  | .evict _ _ => .isTrue trivial

theorem Orderly.locksPresent {s : State} {op : Op} (h : Orderly cfg s op) : LocksPresent s op := by
  cases op <;> first | exact h | trivial

/-- Contents do not depend on locks. -/
theorem Holds.relocked_iff {d : NodeId → ℤ} (hr : Relocked c c' d) {e : Option String}
    {u : List LogicalUnit} {page : List ℤ} :
    Holds cfg c' l e u page ↔ Holds cfg c l e u page := by
  simp only [Holds, hr.key]

theorem Filled.relocked {d : NodeId → ℤ} (hf : Filled c l) (hr : Relocked c c' d) :
    Filled c' l := by
  intro n hn hnr
  rw [hr.key, hr.value]
  exact hf n hn hnr

/-- The invariant of a run with its history. -/
structure Remembers (cfg : Config) (s : State) (l : Layout) : Prop where
  run : Running cfg s l
  filled : Filled s.cache l
  recorded : Recorded cfg s.cache l s.log

/-- **Every operation is recorded.** -/
theorem Remembers.stepped {s s' : State} (hm : Remembers cfg s l) {op : Op} {l' : Layout}
    (hguard : Orderly cfg s op) (hst : Stepped cfg s l op s' l') : Remembers cfg s' l' := by
  have h := hm.run.inv
  suffices hrest : Filled s'.cache l' ∧ Recorded cfg s'.cache l' s'.log from
    ⟨hm.run.stepped hst, hrest.1, hrest.2⟩
  cases hst with
  | insert hland hatt =>
    rename_i key key' value c₁ c₂ l₁ n m
    have hlen : ((cacheValue cfg key value).drop (l₁.path n).length).length = key'.len := by
      have hpath := congrArg List.length hland.path
      rw [h.shape.root_path, List.nil_append, List.length_append, RadixKey.length_units,
        RadixKey.length_units] at hpath
      rw [List.length_drop, GivesSlots.length_cacheValue hguard]
      omega
    exact ⟨(hland.once.filled hm.filled h.shape).attached (hland.once.inv h).shape hland.mem
      (fun _ => hlen) hatt, hm.recorded.insert h hm.filled hland hatt⟩
  | matchPrefix hland =>
    exact ⟨hland.once.filled hm.filled h.shape, hm.recorded.splitOnce hland.once h hm.filled⟩
  | relock hinv hrel =>
    refine ⟨hm.filled.relocked hrel, fun e u hu page => ?_⟩
    rw [Holds.relocked_iff hrel]
    exact hm.recorded e u hu page
  | evict hinv he => exact ⟨hm.filled.evicting he, hm.recorded.evict h hm.filled he⟩

theorem Remembers.start (cfg : Config) : Remembers cfg start Layout.empty := by
  have hroot : ∀ {n : NodeId}, n ∈ Layout.empty.alive → n = rootNode := Finset.mem_singleton.mp
  refine ⟨Running.start cfg, fun n hn hnr => absurd (hroot hn) hnr, fun e u hu page => ?_⟩
  constructor
  · rintro ⟨n, hn, hnr, -⟩
    exact absurd (hroot hn) hnr
  · rintro ⟨v, hv, -⟩
    exact hv.elim

theorem reaches_remembers {s : State} (h : (system cfg).Reaches (Orderly cfg) start s) :
    ∃ l, Remembers cfg s l := by
  refine h.invariant (I := fun s => ∃ l, Remembers cfg s l) ⟨_, Remembers.start cfg⟩ ?_
  rintro s op s' ⟨l, hm⟩ hperm hguard hok
  obtain ⟨s₁, l₁, hok₁, hst⟩ := hm.run.exists_step hperm hguard.locksPresent
  obtain rfl : s₁ = s' := Except.ok.inj (hok₁.symm.trans hok)
  exact ⟨l₁, hm.stepped hguard hst⟩

/-- **A match is exact**: its length is that of the longest cached prefix of whole pages,
and its slots are those of the inserts that created its positions. -/
structure MatchExact (cfg : Config) (log : List Event) (key : RadixKey) (indices : List ℤ) :
    Prop where
  /-- The longest cached prefix. -/
  longest : IsGreatest {k | cfg.pageSize ∣ k ∧ k ≤ (key.toBigramView cfg.isEagle).len ∧
    (0 < k → Cached key.extraKey ((key.toBigramView cfg.isEagle).units.take k) log)} indices.length
  /-- Slot by slot, at the page the unit is in. -/
  slots : ∀ i < indices.length, ∃ v, CreatedBy key.extraKey
    ((key.toBigramView cfg.isEagle).units.take ((i / cfg.pageSize + 1) * cfg.pageSize)) v log ∧
      indices[i]? = v[i]?

/-- A slot of a list, by its page. -/
theorem getElem?_lastPage {u : List LogicalUnit} {i : ℕ} (slots : List ℤ)
    (hu : u.length = (i / cfg.pageSize + 1) * cfg.pageSize) :
    (lastPage cfg u slots)[i % cfg.pageSize]? = slots[i]? := by
  have hpos := cfg.pos
  have hmod : i % cfg.pageSize < cfg.pageSize := Nat.mod_lt _ hpos
  have hi := Nat.div_add_mod' i cfg.pageSize
  rw [lastPage, List.getElem?_take_of_lt hmod, List.getElem?_drop, hu, Nat.add_mul, Nat.one_mul,
    Nat.add_sub_cancel, hi]

/-- What a match lands on is exact. -/
theorem Landed.matchExact {log : List Event} {key key' : RadixKey} {n' : NodeId}
    (hl : Landed cfg c l rootNode (cacheKey cfg key) c' l' n' key') (h : Inv cfg c l locks)
    (hf : Filled c l) (hr : Recorded cfg c l log) :
    MatchExact cfg log key (l'.slots n') := by
  have h' := hl.once.inv h
  have hf' := hl.once.filled hf h.shape
  have hr' := hr.splitOnce hl.once h hf
  have hlen := hf'.length_slots h'.shape h'.slots hl.mem
  have hpath : l'.path n' ++ key'.units = (cacheKey cfg key).units := by
    rw [hl.path, h.shape.root_path, List.nil_append]
  have hnk : l'.path n' <+: (cacheKey cfg key).units := hpath ▸ List.prefix_append _ _
  have hnlen : (l'.path n').length ≤ (key.toBigramView cfg.isEagle).len := by
    have := hnk.length_le
    rw [RadixKey.length_units, len_cacheKey] at this
    exact this.trans (Nat.div_mul_le_self _ _)
  have hdvd := h'.shape.dvd_length_path hl.mem
  -- a prefix of whole pages is a position
  have hpos : ∀ k, 0 < k → cfg.pageSize ∣ k → k ≤ (key.toBigramView cfg.isEagle).len →
      ((key.toBigramView cfg.isEagle).units.take k).length = k ∧
        Position cfg ((key.toBigramView cfg.isEagle).units.take k) := by
    intro k hk hkd hkl
    have hkk : ((key.toBigramView cfg.isEagle).units.take k).length = k := by
      rw [List.length_take, RadixKey.length_units, min_eq_left hkl]
    exact ⟨hkk, hkk.symm ▸ hk, hkk.symm ▸ hkd⟩
  have hcached : ∀ k, 0 < k → cfg.pageSize ∣ k → k ≤ (key.toBigramView cfg.isEagle).len →
      (Cached key.extraKey ((key.toBigramView cfg.isEagle).units.take k) log ↔
        k ≤ (l'.path n').length) := by
    intro k hk hkd hkl
    obtain ⟨hkk, hp⟩ := hpos k hk hkd hkl
    have := hl.holds_iff h.shape h'.shape hp
      ((prefix_cacheKey_iff hp).mpr (List.take_prefix _ _))
    rw [extraKey_cacheKey, ← hr'.cached_iff hp, hkk] at this
    exact this
  rw [hlen.symm] at hnlen hdvd
  refine ⟨⟨⟨hdvd, hnlen, fun hk => (hcached _ hk hdvd hnlen).mpr hlen.le⟩, ?_⟩, ?_⟩
  · rintro k ⟨hkd, hkl, hk⟩
    rcases Nat.eq_zero_or_pos k with rfl | hkp
    · exact Nat.zero_le _
    · rw [hlen]
      exact (hcached k hkp hkd hkl).mp (hk hkp)
  · intro i hi
    have hps := cfg.pos
    have hkd : cfg.pageSize ∣ (i / cfg.pageSize + 1) * cfg.pageSize := Nat.dvd_mul_left _ _
    have hkle : (i / cfg.pageSize + 1) * cfg.pageSize ≤ (l'.slots n').length := by
      have hfloor := Nat.div_mul_le_self i cfg.pageSize
      have := add_le_of_dvd_of_lt (Nat.dvd_mul_left cfg.pageSize (i / cfg.pageSize)) hdvd
        (by omega)
      rw [Nat.add_mul, Nat.one_mul]
      exact this
    have hkp : 0 < (i / cfg.pageSize + 1) * cfg.pageSize := Nat.mul_pos (Nat.succ_pos _) hps
    obtain ⟨hkk, hp⟩ := hpos _ hkp hkd (hkle.trans hnlen)
    have hun : (key.toBigramView cfg.isEagle).units.take ((i / cfg.pageSize + 1) * cfg.pageSize)
        <+: l'.path n' := by
      refine List.prefix_of_prefix_length_le
        ((prefix_cacheKey_iff hp).mpr (List.take_prefix _ _)) hnk
        ?_
      rw [hkk, ← hlen]
      exact hkle
    have hnr : n' ≠ rootNode := by
      rintro rfl
      rw [h'.slots.root, List.length_nil] at hkle
      omega
    obtain ⟨v, hv, hpage⟩ := (hr' key.extraKey _ hp _).mp ⟨n', hl.mem, hnr,
      (hl.extraKey_node hnr).trans (extraKey_cacheKey key), hun, rfl⟩
    refine ⟨v, hv, ?_⟩
    have hslot : (lastPage cfg _ (l'.slots n'))[i % cfg.pageSize]? = (l'.slots n')[i]? :=
      getElem?_lastPage _ hkk
    rw [← hslot, hpage, getElem?_lastPage v hkk]

/-- **`match_prefix` is exactly the longest cached prefix**, for every history and every key;
and `insert` reports the length that `match_prefix` would have returned. -/
theorem radix_match_exact {s : State} (h : (system cfg).Reaches (Orderly cfg) start s)
    (key : RadixKey) :
    ∃ c' indices n, matchPrefix cfg s.cache key = .ok (c', indices, n) ∧
      MatchExact cfg s.log key indices ∧
      ∀ value, ∃ c'' m, insert cfg s.cache key value = .ok (c'', indices.length, m) := by
  obtain ⟨l, hm⟩ := reaches_remembers h
  have hinv := hm.run.inv
  obtain ⟨c', l', n', key', hok, hland⟩ := hinv.matchPrefix key
  have hexact := hland.matchExact hinv hm.filled hm.recorded
  refine ⟨c', l'.slots n', n', hok, hexact, fun value => ?_⟩
  obtain ⟨c₁, l₁, n₁, key₁, c₂, l₂, m, hins, hland₁, -⟩ := hinv.insert key value
  have hexact₁ := hland₁.matchExact hinv hm.filled hm.recorded
  have hlen₁ := (hland₁.once.filled hm.filled hinv.shape).length_slots
    (hland₁.once.inv hinv).shape (hland₁.once.inv hinv).slots hland₁.mem
  refine ⟨c₂, m, ?_⟩
  rw [hins, ← hlen₁, hexact₁.longest.unique hexact.longest]

/-- Pages of two tokens. -/
def pairPages : Config := { pageSize := 2, isEagle := false, pos := Nat.two_pos }

/-- Two prompts that part inside their second page, and an eviction. -/
def insertAndEvict : List Op :=
  [.insert (plainKey [1, 2, 3, 4]) (some [10, 11, 12, 13]),
    .insert (plainKey [1, 2, 3, 5]) (some [20, 21, 22, 23]), .evict (fun _ _ => 0) 1]

theorem radix_match_exact_insertAndEvict :
    ∃ s, (system pairPages).Reaches (Orderly pairPages) start s ∧
      (∃ c' n, matchPrefix pairPages s.cache (plainKey [1, 2, 3, 5, 7])
        = .ok (c', [10, 11, 22, 23], n)) ∧
      MatchExact pairPages s.log (plainKey [1, 2, 3, 5, 7]) [10, 11, 22, 23] := by
  have hrun : ((system pairPages).run (Orderly pairPages) start insertAndEvict).any (fun s =>
      match matchPrefix pairPages s.cache (plainKey [1, 2, 3, 5, 7]) with
      | .ok r => r.2.1 == [10, 11, 22, 23]
      | .error _ => false) = true := by decide +kernel
  obtain ⟨s, hs, hres⟩ := (Option.any_eq_true _ _).mp hrun
  have hreach := OpSystem.Reaches.of_run .refl hs
  obtain ⟨c', indices, n, hok, hexact, -⟩ := radix_match_exact hreach (plainKey [1, 2, 3, 5, 7])
  rw [hok] at hres
  obtain rfl : indices = [10, 11, 22, 23] := eq_of_beq hres
  exact ⟨s, hreach, ⟨c', n, hok⟩, hexact⟩

end Radix

end HtSglang
