import Mathlib
import HtSglang.Ngram.Trie

/-!
# Runs of the n-gram trie

What holds of the trie after every sequence of `insert` and `reset` calls, when the pool is
larger than the depth. The shape of `HtSglang.NgramTrie.Shape` is kept by every round, and no
round fails: it frees at most as many nodes as are listed, and the tail of the list is always
a leaf. `HtSglang.NgramTrie.WellFormed` restates the shape in terms of what is reachable from
the root.

The frequencies are another matter. Every walk adds one to each node on its way, so a node
counts at least as often as its children do together – as long as the counter does not run
over. It is a 32-bit integer that nothing halts: a node that is touched at `2 ^ 31 - 1` turns
negative. The frequency part (`HtSglang.NgramTrie.Weighted`) is therefore proved of the runs in
which no such touch happens (`HtSglang.NgramTrie.RunFits`), and a run with such a touch is
given.
-/

namespace HtSglang

namespace NgramTrie

/-! ### No round fails -/

section Total

variable {capacity count : ℕ} {s t : Trie} {tokens : List ℤ}

theorem Shape.length_add (h : Shape capacity s) :
    s.globalLru.length + 1 + s.pool.length = capacity := by
  simpa [Trie.live, add_right_comm] using h.perm.length_eq

theorem exists_release (h : Shape capacity s) (hne : s.globalLru ≠ []) :
    ∃ t, release s = .ok t := by
  have hl := List.dropLast_append_getLast hne
  exact ⟨_, release_eq_ok.mpr
    ⟨_, List.getLast?_eq_some_getLast hne, h.child_of_last hl.symm, rfl⟩⟩

theorem exists_releaseAll (h : Shape capacity s) (hc : count ≤ s.globalLru.length) :
    ∃ t, releaseAll count s = .ok t := by
  induction count generalizing s with
  | zero => exact ⟨s, rfl⟩
  | succ count ih =>
    obtain ⟨s₁, hs₁⟩ := exists_release h (List.ne_nil_of_length_pos (by omega))
    obtain ⟨h₁, -, hlen⟩ := release_ok h hs₁
    have hsum := h.length_add
    have hsum₁ := h₁.length_add
    obtain ⟨t, ht⟩ := ih h₁ (by omega)
    exact ⟨t, releaseAll_succ_eq_ok.mpr ⟨s₁, hs₁, ht⟩⟩

theorem exists_makeRoom {needed : ℕ} (h : Shape capacity s) (hn : needed < capacity) :
    ∃ t, makeRoom capacity s needed = .ok t := by
  have hsum := h.length_add
  rw [makeRoom]
  split_ifs with hlt
  · rw [squeeze, if_neg (by omega)]
    exact exists_releaseAll h (by omega)
  · exact ⟨s, rfl⟩

/-- A walk needs no more new nodes than it has tokens. -/
theorem exists_descend {c : ℕ} (hp : tokens.length ≤ s.pool.length) :
    ∃ r, descend tokens c s = .ok r := by
  induction tokens generalizing c s with
  | nil => exact ⟨_, rfl⟩
  | cons token rest ih =>
    have hlen : rest.length + 1 ≤ s.pool.length := hp
    have hv : ∃ n s₁, visit s c token = .ok (n, s₁) ∧ rest.length ≤ s₁.pool.length := by
      cases hl : (s.nodes c).child.lookup token with
      | none =>
        obtain ⟨n, pool, hpool⟩ := List.exists_cons_of_length_pos
          (lt_of_lt_of_le (Nat.succ_pos _) hlen)
        refine ⟨n, grown s c token n pool, visit_eq_ok.mpr (.inl ⟨hl, pool, hpool, rfl⟩), ?_⟩
        rw [hpool] at hlen
        exact Nat.le_of_succ_le_succ hlen
      | some n =>
        refine ⟨n, touch s c n, visit_eq_ok.mpr (.inr ⟨hl, rfl⟩), ?_⟩
        rw [touch_pool]
        omega
    obtain ⟨n, s₁, hv, hlen₁⟩ := hv
    obtain ⟨⟨path, s₂⟩, hd⟩ := ih (c := n) hlen₁
    exact ⟨(n :: path, s₂), descend_cons_eq_ok.mpr ⟨n, s₁, path, hv, hd, rfl⟩⟩

theorem exists_insertSuffix (h : Shape capacity s) (ht : tokens.length < capacity) :
    ∃ t, insertSuffix capacity s tokens = .ok t := by
  obtain ⟨s₁, hs₁⟩ := exists_makeRoom h ht
  obtain ⟨-, -, hlen⟩ := makeRoom_ok h hs₁
  obtain ⟨⟨path, s₂⟩, hd⟩ := exists_descend (c := s₁.root) hlen
  exact ⟨_, insertSuffix_eq_ok.mpr ⟨s₁, path, s₂, hs₁, hd, rfl⟩⟩

end Total

/-! ### Frequencies -/

/-- The frequencies of the children of a node, together. -/
def Trie.childSum (s : Trie) (p : ℕ) : ℤ :=
  ((s.nodes p).child.map fun e => (s.nodes e.2).freq).sum

/-- Every node but the root counts, and at least as often as its children together. -/
def Weighted (s : Trie) : Prop :=
  ∀ n ∈ s.globalLru, 0 < (s.nodes n).freq ∧ s.childSum n ≤ (s.nodes n).freq

/-- A walk increments no frequency at the end of the range. A walk that has left the tree it
found makes new nodes only. -/
def fits : List ℤ → ℕ → Trie → Prop
  | [], _, _ => True
  | token :: rest, cursor, s =>
    match (s.nodes cursor).child.lookup token with
    | none => True
    | some node => (s.nodes node).freq + 1 < 2 ^ 31 ∧ fits rest node (touch s cursor node)

section Weights

variable {capacity count : ℕ} {s t : Trie} {c n p : ℕ} {token : ℤ} {pool : List ℕ}
  {tokens : List ℤ}

theorem int32_of_lt {x : ℤ} (h₀ : 0 ≤ x) (h : x < 2 ^ 31) : int32 x = x := by
  rw [int32]
  omega

/-- The sum over the children of a node, one of them taken out. -/
theorem Shape.childSum_cut (h : Shape capacity s) (hc : c ∈ s.live)
    (hl : (s.nodes c).child.lookup token = some n) (f : ℕ → ℤ) :
    ((s.nodes c).child.map fun e => f e.2).sum
      = f n + ((Dict.erase (s.nodes c).child token).map fun e => f e.2).sum := by
  obtain ⟨d₁, d₂, hd, -, herase⟩ := Dict.exists_cut hl
  rw [herase (h.keys c hc), hd]
  simp only [List.map_append, List.map_cons, List.sum_append, List.sum_cons]
  ring

/-- The child with a token is none of the children with another one. -/
theorem Shape.ne_of_mem_erase (h : Shape capacity s) (hc : c ∈ s.live)
    (hl : (s.nodes c).child.lookup token = some n) :
    ∀ e ∈ Dict.erase (s.nodes c).child token, e.2 ≠ n := by
  intro e he hen
  obtain ⟨he, hne⟩ := List.mem_filter.mp he
  refine of_decide_eq_true hne ?_
  rw [← (h.child c hc e he).2.2, hen]
  exact (h.child_of_lookup hc hl).2.2

/-- The sum of a node that is not the parent of the one node whose frequency changes. -/
theorem childSum_congr (hchild : (t.nodes p).child = (s.nodes p).child)
    (hf : ∀ e ∈ (s.nodes p).child, (t.nodes e.2).freq = (s.nodes e.2).freq) :
    t.childSum p = s.childSum p := by
  rw [Trie.childSum, Trie.childSum, hchild]
  exact congrArg List.sum (List.map_congr_left hf)

theorem Weighted.pruned (h : Shape capacity s) (hw : Weighted s) {l : List ℕ}
    (hl : s.globalLru = l ++ [n]) : Weighted (pruned s n) := by
  have hn := last_mem hl
  obtain ⟨hpar, hne, hlook⟩ := h.parent n hn
  intro v hv
  have hv : v ∈ s.globalLru := List.mem_of_mem_dropLast hv
  obtain ⟨hpos, hle⟩ := hw v hv
  rw [pruned_freq]
  refine ⟨hpos, le_trans ?_ hle⟩
  by_cases hvp : v = (s.nodes n).parent
  · have hcut := h.childSum_cut hpar hlook fun x => (s.nodes x).freq
    have hn₀ := (hw n hn).1
    rw [Trie.childSum, Trie.childSum, pruned_child hne, if_pos hvp, hvp, hcut]
    simp only [pruned_freq]
    omega
  · refine (childSum_congr ?_ fun e _ => pruned_freq).le
    rw [pruned_child hne, if_neg hvp]

theorem Weighted.releaseAll (h : Shape capacity s) (hw : Weighted s)
    (hr : releaseAll count s = .ok t) : Weighted t := by
  induction count generalizing s with
  | zero => exact Except.ok.inj hr ▸ hw
  | succ count ih =>
    obtain ⟨s₁, hs, hr⟩ := releaseAll_succ_eq_ok.mp hr
    obtain ⟨n, hn, -, rfl⟩ := release_eq_ok.mp hs
    obtain ⟨l, hl⟩ := List.getLast?_eq_some_iff.mp hn
    exact ih (h.pruned hl) (Weighted.pruned h hw hl) hr

theorem Weighted.makeRoom {needed : ℕ} (h : Shape capacity s) (hw : Weighted s)
    (hr : makeRoom capacity s needed = .ok t) : Weighted t := by
  rw [NgramTrie.makeRoom] at hr
  split at hr
  · rw [squeeze] at hr
    split at hr
    · cases hr
    · exact hw.releaseAll h hr
  · exact Except.ok.inj hr ▸ hw

/-- What a touch does to the sums: one more below the cursor. -/
theorem touch_childSum (h : Shape capacity s) (hc : c ∈ s.live)
    (hl : (s.nodes c).child.lookup token = some n) (h₀ : 0 < (s.nodes n).freq)
    (hfit : (s.nodes n).freq + 1 < 2 ^ 31) (hp : p ∈ s.live) :
    (touch s c n).childSum p = s.childSum p + if p = c then 1 else 0 := by
  obtain ⟨hn, hpar, -⟩ := h.child_of_lookup hc hl
  have hfn : ((touch s c n).nodes n).freq = (s.nodes n).freq + 1 := by
    rw [touch_freq, if_pos rfl, int32_of_lt (by omega) hfit]
  split_ifs with hpc
  · subst hpc
    have hcut := h.childSum_cut hp hl
    rw [Trie.childSum, Trie.childSum, touch_child, hcut fun x => ((touch s p n).nodes x).freq,
      hcut fun x => (s.nodes x).freq, hfn]
    have hrest : ((Dict.erase (s.nodes p).child token).map fun e =>
        ((touch s p n).nodes e.2).freq)
          = (Dict.erase (s.nodes p).child token).map fun e => (s.nodes e.2).freq :=
      List.map_congr_left fun e he => by rw [touch_freq, if_neg (h.ne_of_mem_erase hp hl e he)]
    rw [hrest]
    ring
  · rw [add_zero]
    refine childSum_congr touch_child fun e he => ?_
    rw [touch_freq, if_neg]
    intro hen
    exact hpc ((h.child p hp e he).2.1.symm.trans (hen ▸ hpar))

/-- What a new child does to the sums: the same. -/
theorem grown_childSum (h : Shape capacity s) (hc : c ∈ s.live)
    (hl : (s.nodes c).child.lookup token = none) (hpool : s.pool = n :: pool) (hp : p ∈ s.live) :
    (grown s c token n pool).childSum p = s.childSum p + if p = c then 1 else 0 := by
  have hne := h.ne_of_mem_live hpool hc
  have hold : ∀ e ∈ (s.nodes p).child,
      ((grown s c token n pool).nodes e.2).freq = (s.nodes e.2).freq := by
    intro e he
    rw [grown_freq hne, if_neg (h.ne_of_mem_live hpool (mem_live_of_mem (h.child p hp e he).1))]
  rw [Trie.childSum, Trie.childSum, h.grown_children hc hl hpool hp, List.map_append,
    List.sum_append, List.map_congr_left hold]
  split_ifs
  · simp [grown_freq hne]
  · simp

/-- A node has room for one more count below it: it is the root, or it was just counted. -/
def Slack (s : Trie) (c : ℕ) : Prop := c = s.root ∨ s.childSum c + 1 ≤ (s.nodes c).freq

/-- **One token of a walk** uses the room at the cursor and makes room at the next node. -/
theorem Weighted.visit (h : Shape capacity s) (hw : Weighted s) (hc : c ∈ s.live)
    (hs : Slack s c) (hfit : ∀ n, (s.nodes c).child.lookup token = some n →
      (s.nodes n).freq + 1 < 2 ^ 31) (hv : visit s c token = .ok (n, t)) :
    Weighted t ∧ Slack t n := by
  -- what both branches do
  suffices hstep : (∀ p ∈ s.live, t.childSum p = s.childSum p + if p = c then 1 else 0) ∧
      (∀ p ∈ s.globalLru, p ≠ n → (t.nodes p).freq = (s.nodes p).freq) ∧
      (∀ p ∈ t.globalLru, p ≠ n → p ∈ s.globalLru) ∧ n ≠ s.root ∧ t.root = s.root ∧
      0 < (t.nodes n).freq ∧ t.childSum n + 1 ≤ (t.nodes n).freq by
    obtain ⟨hsum, hfreq, hmem, hroot, hroot', hpos, hslack⟩ := hstep
    refine ⟨fun p hp => ?_, .inr hslack⟩
    rcases eq_or_ne p n with rfl | hpn
    · exact ⟨hpos, by omega⟩
    · have hp := hmem p hp hpn
      obtain ⟨h₀, hle⟩ := hw p hp
      rw [hfreq p hp hpn, hsum p (mem_live_of_mem hp)]
      refine ⟨h₀, ?_⟩
      split_ifs with hpc
      · subst hpc
        exact hs.resolve_left fun hr => h.root_notMem (hr ▸ hp)
      · omega
  obtain ⟨hl, pool, hp, rfl⟩ | ⟨hl, rfl⟩ := visit_eq_ok.mp hv
  · have hne := h.ne_of_mem_live hp hc
    have hfn : ((grown s c token n pool).nodes n).freq = 1 := by rw [grown_freq hne, if_pos rfl]
    refine ⟨fun p => grown_childSum h hc hl hp, ?_, ?_, ?_, rfl, ?_, ?_⟩
    · intro p _ hpn
      rw [grown_freq hne, if_neg hpn]
    · intro p hp hpn
      exact (List.mem_append.mp hp).resolve_right fun hs => hpn (List.mem_singleton.mp hs)
    · exact (h.ne_of_mem_live hp root_mem_live).symm
    · rw [hfn]
      exact one_pos
    · rw [hfn, Trie.childSum, grown_child hne, if_pos rfl]
      rfl
  · obtain ⟨hn, hpar, -⟩ := h.child_of_lookup hc hl
    obtain ⟨h₀, hle⟩ := hw n hn
    have hne : n ≠ c := fun hnc => (h.parent n hn).2.1 (hpar.trans hnc.symm)
    have hfn : ((touch s c n).nodes n).freq = (s.nodes n).freq + 1 := by
      rw [touch_freq, if_pos rfl, int32_of_lt (by omega) (hfit n hl)]
    refine ⟨fun p => touch_childSum h hc hl h₀ (hfit n hl), ?_, fun p hp _ => hp, ?_, rfl, ?_, ?_⟩
    · intro p _ hpn
      rw [touch_freq, if_neg hpn]
    · exact fun hr => h.root_notMem (hr ▸ hn)
    · omega
    · rw [hfn, touch_childSum h hc hl h₀ (hfit n hl) (mem_live_of_mem hn), if_neg hne]
      omega

theorem fits_of_child_nil (hn : (s.nodes n).child = []) : fits tokens n s := by
  cases tokens with
  | nil => trivial
  | cons token rest =>
    rw [fits, hn]
    trivial

/-- **A walk** keeps the frequencies, when every increment on its way fits. -/
theorem Weighted.descend {path : List ℕ} (h : Shape capacity s) (hw : Weighted s)
    (hc : c ∈ s.live) (hs : Slack s c) (hfit : fits tokens c s)
    (hd : descend tokens c s = .ok (path, t)) : Weighted t := by
  induction tokens generalizing c s path with
  | nil =>
    obtain ⟨-, rfl⟩ := Prod.mk.inj (Except.ok.inj hd)
    exact hw
  | cons token rest ih =>
    obtain ⟨n, s₁, path, hv, hr, -⟩ := descend_cons_eq_ok.mp hd
    obtain ⟨h₁, hg₁, hl₁⟩ := visit_ok h hc hv
    have hn := mem_live_of_mem (h₁.child_of_lookup (hg₁.live c hc) hl₁).1
    have hfits : (∀ m, (s.nodes c).child.lookup token = some m →
        (s.nodes m).freq + 1 < 2 ^ 31) ∧ fits rest n s₁ := by
      rw [fits] at hfit
      obtain ⟨hl, pool, hp, rfl⟩ | ⟨hl, rfl⟩ := visit_eq_ok.mp hv
      · refine ⟨fun m hm => absurd (hl.symm.trans hm) (by simp), fits_of_child_nil ?_⟩
        rw [grown_child (h.ne_of_mem_live hp hc), if_pos rfl]
      · rw [hl] at hfit ⊢
        exact ⟨fun m' hm' => Option.some.inj hm' ▸ hfit.1, hfit.2⟩
    obtain ⟨hw₁, hs₁⟩ := Weighted.visit h hw hc hs hfits.1 hv
    exact ih h₁ hw₁ hn hs₁ hfits.2 hr

end Weights

/-! ### Well-formed tries -/

/-- A node is reachable when some string leads to it. -/
def Trie.Reachable (s : Trie) (n : ℕ) : Prop := ∃ p, s.locate p s.root = some n

/-- The children of a node. -/
def Trie.children (s : Trie) (p : ℕ) : List ℕ := (s.nodes p).child.map Prod.snd

/-- **The trie is well formed**: free and reachable nodes share out the pool, the global list
has every reachable node but the root once and in front of its descendants, both orders of the
children of a node list exactly them, and one of them goes by frequency, then token. -/
structure WellFormed (capacity : ℕ) (s : Trie) : Prop where
  pool_nodup : s.pool.Nodup
  partition : ∀ n, (n < capacity ↔ s.Reachable n ∨ n ∈ s.pool) ∧
    ¬ (s.Reachable n ∧ n ∈ s.pool)
  globalLru_nodup : s.globalLru.Nodup
  mem_globalLru : ∀ n, n ∈ s.globalLru ↔ s.Reachable n ∧ n ≠ s.root
  descendant : ∀ a ∈ s.globalLru, ∀ q ≠ [], ∀ b, s.locate q a = some b →
    b ∈ s.globalLru ∧ s.globalLru.idxOf a < s.globalLru.idxOf b
  lru : ∀ p, s.Reachable p → (s.nodes p).lru.Perm (s.children p)
  sorted : ∀ p, s.Reachable p → (s.nodes p).sortedChildren.Perm (s.children p)
  sorted_order : ∀ p, s.Reachable p → (s.nodes p).sortedChildren.Pairwise fun a b =>
    (s.nodes b).freq < (s.nodes a).freq ∨
      (s.nodes b).freq = (s.nodes a).freq ∧ (s.nodes a).token < (s.nodes b).token

section WellFormed

variable {capacity : ℕ} {s : Trie} {n : ℕ}

/-- The nodes in the tree are the reachable ones: a listed node hangs below a node in front of
it. -/
theorem Shape.reachable_iff (h : Shape capacity s) : s.Reachable n ↔ n ∈ s.live := by
  refine ⟨fun ⟨p, hp⟩ => h.locate_mem root_mem_live hp, fun hn => ?_⟩
  induction hk : s.globalLru.idxOf n using Nat.strong_induction_on generalizing n with
  | _ k ih =>
    rcases List.mem_cons.mp hn with rfl | hn
    · exact ⟨[], rfl⟩
    · obtain ⟨hpar, -, hl⟩ := h.parent n hn
      have hreach : s.Reachable (s.nodes n).parent := by
        rcases List.mem_cons.mp hpar with hroot | hmem
        · exact ⟨[], congrArg some hroot.symm⟩
        · exact ih _ (hk ▸ h.idxOf_lt hn hmem) hpar rfl
      obtain ⟨p, hp⟩ := hreach
      refine ⟨p ++ [(s.nodes n).token], ?_⟩
      rw [locate_append, hp]
      exact locate_cons_eq_some.mpr ⟨n, hl, rfl⟩

theorem Shape.descendant (h : Shape capacity s) {a b : ℕ} {q : List ℤ} (ha : a ∈ s.globalLru)
    (hq : q ≠ []) (hb : s.locate q a = some b) :
    b ∈ s.globalLru ∧ s.globalLru.idxOf a < s.globalLru.idxOf b := by
  induction q generalizing a with
  | nil => exact absurd rfl hq
  | cons token q ih =>
    obtain ⟨x, hx, hq'⟩ := locate_cons_eq_some.mp hb
    obtain ⟨hmem, rfl, -⟩ := h.child_of_lookup (mem_live_of_mem ha) hx
    have hlt := h.idxOf_lt hmem ha
    rcases eq_or_ne q [] with rfl | hq
    · obtain rfl : x = b := Option.some.inj hq'
      exact ⟨hmem, hlt⟩
    · obtain ⟨hbm, hlt'⟩ := ih hmem hq hq'
      exact ⟨hbm, hlt.trans hlt'⟩

theorem Shape.wellFormed (h : Shape capacity s) : WellFormed capacity s := by
  have hnd := List.nodup_append.mp h.nodup
  refine ⟨hnd.2.1, fun n => ⟨?_, ?_⟩, h.globalLru_nodup, fun n => ?_,
    fun a ha q hq b hb => h.descendant ha hq hb, fun p hp => h.lru p (h.reachable_iff.mp hp),
    fun p hp => (h.sorted p (h.reachable_iff.mp hp)).1, fun p hp => ?_⟩
  · rw [h.reachable_iff, ← List.mem_append, h.perm.mem_iff, List.mem_range]
  · rintro ⟨hr, hp⟩
    exact hnd.2.2 n (h.reachable_iff.mp hr) n hp rfl
  · rw [h.reachable_iff, Trie.live, List.mem_cons]
    constructor
    · exact fun hn => ⟨.inr hn, fun hr => h.root_notMem (hr ▸ hn)⟩
    · rintro ⟨hor, hne⟩
      exact hor.resolve_left hne
  · have hp := h.reachable_iff.mp hp
    obtain ⟨hperm, hsort⟩ := h.sorted p hp
    refine hsort.imp_of_mem fun {a b} ha hb hab => ?_
    rw [Trie.Before, Trie.key, Trie.key, Prod.Lex.toLex_lt_toLex, Prod.Lex.toLex_lt_toLex] at hab
    rcases hab with hlt | ⟨heq, hlt | ⟨htok, hlt⟩⟩
    · exact .inl (neg_lt_neg_iff.mp hlt)
    · exact .inr ⟨(neg_inj.mp heq).symm, hlt⟩
    · -- two children of a node with one token are one
      obtain ⟨e, he, rfl⟩ := List.mem_map.mp (hperm.mem_iff.mp ha)
      obtain ⟨e', he', rfl⟩ := List.mem_map.mp (hperm.mem_iff.mp hb)
      have hk := Dict.lookup_of_mem (h.keys p hp) he
      have hk' := Dict.lookup_of_mem (h.keys p hp) he'
      have htok : e.1 = e'.1 :=
        ((h.child p hp e he).2.2.symm.trans htok).trans (h.child p hp e' he').2.2
      rw [htok, hk'] at hk
      exact absurd hlt (by rw [Option.some.inj hk]; exact lt_irrefl _)

end WellFormed

/-! ### Runs -/

/-- A call on the trie. -/
inductive Op
  | insert (tokens : List ℤ)
  | reset

/-- A call, which throws or returns. -/
def call (capacity maxDepth : ℕ) (s : Trie) : Op → Except TrieError Trie
  | .insert tokens =>
    match insert capacity maxDepth s tokens with
    | (t, none) => .ok t
    | (_, some e) => .error e
  | .reset => reset capacity s

/-- The trie after a sequence of calls. -/
def run (capacity maxDepth : ℕ) (ops : List Op) : Except TrieError Trie := do
  let s ← Trie.new capacity
  ops.foldlM (call capacity maxDepth) s

/-- No round of an `insert` increments a frequency at the end of the range. -/
def InsertFits (capacity : ℕ) : List (List ℤ) → Trie → Prop
  | [], _ => True
  | tokens :: rest, s =>
    (∀ t, makeRoom capacity s tokens.length = .ok t → fits tokens t.root t) ∧
      ∀ t, insertSuffix capacity s tokens = .ok t → InsertFits capacity rest t

/-- No call from the given trie on does. -/
def CallsFit (capacity maxDepth : ℕ) : List Op → Trie → Prop
  | [], _ => True
  | op :: ops, s =>
    (∀ tokens, op = .insert tokens → InsertFits capacity (suffixes maxDepth tokens) s) ∧
      ∀ t, call capacity maxDepth s op = .ok t → CallsFit capacity maxDepth ops t

/-- No call of the run does. -/
def RunFits (capacity maxDepth : ℕ) (ops : List Op) : Prop :=
  ∀ s, Trie.new capacity = .ok s → CallsFit capacity maxDepth ops s

section Run

variable {capacity maxDepth : ℕ} {s t : Trie}

theorem length_of_mem_suffixes {tokens l : List ℤ} (hl : l ∈ suffixes maxDepth tokens) :
    l.length ≤ maxDepth := by
  obtain ⟨l', -, rfl⟩ := List.mem_map.mp hl
  exact List.length_take_le _ _

theorem Weighted.insertSuffix {tokens : List ℤ} (h : Shape capacity s) (hw : Weighted s)
    (hfit : ∀ t, NgramTrie.makeRoom capacity s tokens.length = .ok t → fits tokens t.root t)
    (hr : insertSuffix capacity s tokens = .ok t) : Weighted t := by
  obtain ⟨s₁, path, s₂, hm, hd, rfl⟩ := insertSuffix_eq_ok.mp hr
  obtain ⟨h₁, -, -⟩ := makeRoom_ok h hm
  have hw₂ := (hw.makeRoom h hm).descend h₁ root_mem_live (.inl rfl) (hfit s₁ hm) hd
  obtain ⟨h₂, hg, hl⟩ := descend_ok h₁ root_mem_live hd
  rw [← hg.root] at hl
  obtain ⟨hperm, -⟩ := h₂.toFront hl
  exact fun n hn => hw₂ n (hperm.mem_iff.mp hn)

/-- The rounds of an `insert` return, keep the shape, and keep the frequencies when they
fit. -/
theorem insertAll_spec {l : List (List ℤ)} (h : Shape capacity s)
    (hl : ∀ tokens ∈ l, tokens.length < capacity) :
    ∃ t, insertAll capacity l s = (t, none) ∧ Shape capacity t ∧
      (Weighted s → InsertFits capacity l s → Weighted t) := by
  induction l generalizing s with
  | nil => exact ⟨s, rfl, h, fun hw _ => hw⟩
  | cons tokens rest ih =>
    obtain ⟨hlen, hrest⟩ := List.forall_mem_cons.mp hl
    obtain ⟨s₁, hs₁⟩ := exists_insertSuffix h hlen
    obtain ⟨t, ht, hshape, hw⟩ := ih (insertSuffix_ok h hs₁).1 hrest
    refine ⟨t, by rw [insertAll, hs₁]; exact ht, hshape, fun hws hfit => ?_⟩
    exact hw (hws.insertSuffix h hfit.1 hs₁) (hfit.2 s₁ hs₁)

theorem call_spec (hc : maxDepth < capacity) (h : Shape capacity s) (op : Op) :
    ∃ t, call capacity maxDepth s op = .ok t ∧ Shape capacity t ∧
      (Weighted s → (∀ tokens, op = .insert tokens →
        InsertFits capacity (suffixes maxDepth tokens) s) → Weighted t) := by
  cases op with
  | insert tokens =>
    obtain ⟨t, ht, hshape, hw⟩ := insertAll_spec h fun l hl =>
      lt_of_le_of_lt (length_of_mem_suffixes hl) hc
    exact ⟨t, by rw [call, insert, ht], hshape, fun hws hfit => hw hws (hfit tokens rfl)⟩
  | reset =>
    obtain ⟨t, ht⟩ := exists_refill (by omega : 0 < capacity)
    obtain ⟨hshape, hnil, -⟩ := refill_eq_ok ht
    refine ⟨t, ht, hshape, fun _ _ n hn => ?_⟩
    rw [hnil] at hn
    exact absurd hn List.not_mem_nil

theorem foldlM_call_spec (hc : maxDepth < capacity) (h : Shape capacity s) (ops : List Op) :
    ∃ t, ops.foldlM (call capacity maxDepth) s = .ok t ∧ Shape capacity t ∧
      (Weighted s → CallsFit capacity maxDepth ops s → Weighted t) := by
  induction ops generalizing s with
  | nil => exact ⟨s, rfl, h, fun hw _ => hw⟩
  | cons op ops ih =>
    obtain ⟨s₁, hs₁, hshape₁, hw₁⟩ := call_spec hc h op
    obtain ⟨t, ht, hshape, hw⟩ := ih hshape₁
    refine ⟨t, by rw [List.foldlM_cons, hs₁]; exact ht, hshape, fun hws hfit => ?_⟩
    exact hw (hw₁ hws hfit.1) (hfit.2 s₁ hs₁)

/-- **The trie stays well formed in bounded memory.** With a pool larger than the depth, every
sequence of calls returns and leaves a well-formed trie; and in every run in which no
frequency is incremented at the end of its range, every node but the root counts, and at least
as often as its children together. -/
theorem run_wellFormed (hc : maxDepth < capacity) (ops : List Op) :
    ∃ s, run capacity maxDepth ops = .ok s ∧ WellFormed capacity s ∧
      (RunFits capacity maxDepth ops → Weighted s) := by
  obtain ⟨s₀, hs₀⟩ := exists_refill (by omega : 0 < capacity)
  obtain ⟨h₀, hnil, -⟩ := refill_eq_ok hs₀
  obtain ⟨s, hs, hshape, hw⟩ := foldlM_call_spec hc h₀ ops
  refine ⟨s, by rw [run, Trie.new, hs₀]; exact hs, hshape.wellFormed, fun hfit => ?_⟩
  refine hw (fun n hn => ?_) (hfit s₀ hs₀)
  rw [hnil] at hn
  exact absurd hn List.not_mem_nil

/-- A pool of three nodes: the node of `0 1` is taken back for the one of `1`, and then the one
of `0`, since the next `1` is first taken for a new node; `1` is counted twice. -/
theorem run_wellFormed_twice : ∃ s, run 3 2 [.insert [0, 1], .insert [1]] = .ok s ∧
    WellFormed 3 s ∧ Weighted s ∧ ∃ n, s.globalLru = [n] ∧ (s.nodes n).freq = 2 := by
  obtain ⟨s, hs, hwf, hw⟩ := run_wellFormed (by decide : 2 < 3) [.insert [0, 1], .insert [1]]
  have hfit : RunFits 3 2 [.insert [0, 1], .insert [1]] := by
    intro s₀ hs₀
    obtain rfl := Except.ok.inj hs₀
    refine ⟨fun tokens htokens => ?_, fun t ht => ⟨fun tokens htokens => ?_, fun _ _ => trivial⟩⟩
    · obtain rfl := Op.insert.inj htokens
      refine ⟨fun t ht => ?_, fun t ht => ⟨fun u hu => ?_, fun _ _ => trivial⟩⟩
      · obtain rfl := Except.ok.inj ht
        trivial
      · obtain rfl := Except.ok.inj ht
        obtain rfl := Except.ok.inj hu
        trivial
    · obtain rfl := Except.ok.inj ht
      obtain rfl := Op.insert.inj htokens
      refine ⟨fun u hu => ?_, fun _ _ => trivial⟩
      obtain rfl := Except.ok.inj hu
      exact ⟨by decide, trivial⟩
  obtain rfl := Except.ok.inj hs
  exact ⟨_, rfl, hwf, hw hfit, _, rfl, by decide⟩

end Run

/-! ### A counter that runs over -/

section Overflow

variable {capacity : ℕ} {s : Trie} {n : ℕ}

/-- A round that finds its one token below the root, with a node to spare, only counts. -/
theorem insertSuffix_singleton (h : Shape capacity s) {token : ℤ}
    (hl : (s.nodes s.root).child.lookup token = some n) (hp : s.pool ≠ []) :
    ∃ t, insertSuffix capacity s [token] = .ok t ∧ Shape capacity t ∧ t.root = s.root ∧
      (t.nodes t.root).child.lookup token = some n ∧ t.pool ≠ [] ∧
      (t.nodes n).freq = int32 ((s.nodes n).freq + 1) := by
  have hroom : makeRoom capacity s [token].length = .ok s := by
    rw [makeRoom, if_neg]
    have := List.length_pos_of_ne_nil hp
    simp only [List.length_singleton]
    omega
  have hd : descend [token] s.root s = .ok ([n], touch s s.root n) := by
    simp [descend, visit, hl, bind, Except.bind]
  have hr := insertSuffix_eq_ok.mpr ⟨s, [n], _, hroom, hd, rfl⟩
  refine ⟨_, hr, (insertSuffix_ok h hr).1, rfl, ?_, hp, ?_⟩
  · exact (congrArg (List.lookup token) touch_child).trans hl
  · exact touch_freq.trans (if_pos rfl)

theorem int32_int32_add_one (x : ℤ) : int32 (int32 x + 1) = int32 (x + 1) := by
  rw [int32, int32, int32]
  omega

/-- Inserting one token over and over counts it, in 32 bits. -/
theorem foldlM_replicate (h : Shape capacity s) {token : ℤ}
    (hl : (s.nodes s.root).child.lookup token = some n) (hp : s.pool ≠ []) {x : ℤ}
    (hx : (s.nodes n).freq = int32 x) (k : ℕ) :
    ∃ t, (List.replicate k (.insert [token])).foldlM (call capacity 2) s = .ok t ∧
      n ∈ t.globalLru ∧ (t.nodes n).freq = int32 (x + k) := by
  induction k generalizing s x with
  | zero => exact ⟨s, rfl, (h.child_of_lookup root_mem_live hl).1, by simpa using hx⟩
  | succ k ih =>
    obtain ⟨s₁, hs₁, h₁, -, hl₁, hp₁, hfreq⟩ := insertSuffix_singleton h hl hp
    rw [hx, int32_int32_add_one] at hfreq
    have hcall : call capacity 2 s (.insert [token]) = .ok s₁ := by
      simp [call, insert, suffixes, insertAll, hs₁]
    obtain ⟨t, ht, hmem, hx'⟩ := ih h₁ hl₁ hp₁ hfreq
    refine ⟨t, by rw [List.replicate_succ, List.foldlM_cons, hcall]; exact ht, hmem, ?_⟩
    rw [hx']
    push_cast
    congr 1
    ring

/-- One token, inserted over and over. -/
theorem run_replicate (k : ℕ) : ∃ s, run 3 2 (List.replicate (k + 1) (.insert [0])) = .ok s ∧
    ∃ n ∈ s.globalLru, (s.nodes n).freq = int32 (1 + k) := by
  obtain ⟨s₀, s₁, hs₀, hs₁, hcall, hl, hp, hf⟩ : ∃ s₀ s₁, Trie.new 3 = .ok s₀ ∧
      insertSuffix 3 s₀ [0] = .ok s₁ ∧ call 3 2 s₀ (.insert [0]) = .ok s₁ ∧
      (s₁.nodes s₁.root).child.lookup 0 = some 1 ∧ s₁.pool ≠ [] ∧
      (s₁.nodes 1).freq = int32 1 :=
    ⟨_, _, rfl, rfl, rfl, rfl, by decide, by decide⟩
  have h₁ := (insertSuffix_ok (refill_eq_ok hs₀).1 hs₁).1
  obtain ⟨t, ht, hmem, hfreq⟩ := foldlM_replicate h₁ hl hp hf k
  refine ⟨t, ?_, 1, hmem, hfreq⟩
  rw [run, hs₀, List.replicate_succ]
  simpa only [List.foldlM_cons, bind, Except.bind, hcall] using ht

/-- A run in which a frequency turns negative: `2 ^ 31` times the same token. -/
theorem frequency_runs_over : ∃ s, run 3 2 (List.replicate (2 ^ 31) (.insert [0])) = .ok s ∧
    ∃ n ∈ s.globalLru, (s.nodes n).freq < 0 := by
  obtain ⟨s, hs, n, hn, hfreq⟩ := run_replicate (2 ^ 31 - 1)
  refine ⟨s, hs, n, hn, ?_⟩
  rw [hfreq]
  decide

end Overflow

end NgramTrie

end HtSglang
