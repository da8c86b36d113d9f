import Mathlib
import HtSglang.Ngram.Trie

/-!
# Incremental matching against the n-gram trie

A request keeps, between its decode steps, the trie nodes its last tokens lead to: one cached
reference for each suffix, with the generation of the node. `HtSglang.NgramTrie.matchAnchors`
extends the cached references by the tokens that came since, when they are all still valid, and
looks every suffix up again otherwise (`HtSglang.NgramTrie.rebuild`). In between, the trie is
inserted into, squeezed and reset.

What the generations and the epoch give is that no reference leads astray: a reference that
resolves is the node its suffix spells now (`HtSglang.NgramTrie.Sound`). What they do not give
is that nothing is missed. A suffix the trie did not have is cached as the null reference,
which validates for ever: when the suffix is inserted later, the extended state still has
nothing for it nor for anything that extends it. `HtSglang.NgramTrie.match_fresh_iff` says
that this is the only difference from a fresh lookup.
-/

namespace HtSglang

namespace NgramTrie

/-! ### The cached state -/

/-- A `NodeRef`: nothing, or an address with the generation it was captured at. -/
abbrev NodeRef : Type := Option (ℕ × ℕ)

/-- A `MatchState`. -/
structure MatchState where
  trieEpoch : ℕ := 0
  processedTotalLen : ℕ := 0
  anchors : List NodeRef := []

/-- `capture`. -/
def capture (s : Trie) (node : Option ℕ) : NodeRef :=
  node.map fun n => (n, (s.nodes n).version)

/-- `resolve`: of the state it reads the epoch only. -/
def resolve (s : Trie) (epoch : ℕ) : NodeRef → Option ℕ
  | none => none
  | some (ptr, version) =>
    if epoch ≠ s.epoch ∨ (s.nodes ptr).version ≠ version then none else some ptr

/-- `validateMatchState_`. -/
def validate (s : Trie) (st : MatchState) : Bool :=
  decide (st.trieEpoch = s.epoch) &&
    st.anchors.all fun ref => ref.isNone || (resolve s st.trieEpoch ref).isSome

/-- `rebuildMatchState_`. -/
def rebuild (s : Trie) (maxDepth : ℕ) (context : List ℤ) (totalLen : ℕ) : MatchState where
  trieEpoch := s.epoch
  processedTotalLen := totalLen
  anchors := (List.range (min context.length maxDepth)).map fun i =>
    capture s (s.locate (context.rtake (i + 1)) s.root)

/-- One cached reference extended by a token; nothing when it has gone stale. -/
def advanceRef (s : Trie) (epoch : ℕ) (token : ℤ) : NodeRef → Option NodeRef
  | none => some none
  | some ref => (resolve s epoch (some ref)).map fun prev =>
    capture s ((s.nodes prev).child.lookup token)

/-- One round of `advanceMatchState_`: the reference for the last token alone, then the cached
ones extended, as far as the depth goes. -/
def advanceOne (s : Trie) (maxDepth epoch : ℕ) (anchors : List NodeRef) (token : ℤ) :
    Option (List NodeRef) :=
  let nextDepth := min (anchors.length + 1) maxDepth
  ((anchors.take (nextDepth - 1)).mapM (advanceRef s epoch token)).map fun next =>
    (capture s ((s.nodes s.root).child.lookup token) :: next).take maxDepth

/-- `advanceMatchState_`. -/
def advance (s : Trie) (maxDepth : ℕ) (st : MatchState) (tokens : List ℤ) (totalLen : ℕ) :
    Option MatchState :=
  if validate s st then
    (tokens.foldlM (advanceOne s maxDepth st.trieEpoch) st.anchors).map fun anchors =>
      { st with anchors := anchors, processedTotalLen := totalLen }
  else none

/-- `getExpandableAnchors_`: the deepest first. -/
def expandable (s : Trie) (st : MatchState) : List (ℕ × ℕ) :=
  (List.range st.anchors.length).reverse.filterMap fun i =>
    ((st.anchors[i]?).bind (resolve s st.trieEpoch)).bind fun n =>
      if (s.nodes n).child ≠ [] then some (n, i + 1) else none

/-- The test `match` makes before it tries to extend the state. -/
def canAdvance (s : Trie) (maxDepth : ℕ) (context : List ℤ) (st : MatchState) (totalLen : ℕ) :
    Bool :=
  decide (st.trieEpoch = s.epoch ∧ st.processedTotalLen ≤ totalLen ∧
    totalLen - st.processedTotalLen ≤ context.length ∧
    st.anchors.length = min st.processedTotalLen maxDepth)

/-- `match`: the expandable anchors and the state it leaves. -/
def matchAnchors (s : Trie) (maxDepth : ℕ) (context : List ℤ) (st : MatchState)
    (totalLen : ℕ) : List (ℕ × ℕ) × MatchState :=
  let appended := totalLen - st.processedTotalLen
  let next :=
    if canAdvance s maxDepth context st totalLen then
      (advance s maxDepth st (context.rtake appended) totalLen).getD
        (rebuild s maxDepth context totalLen)
    else rebuild s maxDepth context totalLen
  (expandable s next, next)

/-! ### The histories -/

/-- The trie, and for each request its tokens so far and its cached state. -/
structure System (ι : Type*) where
  trie : Trie
  seqs : ι → List ℤ
  states : ι → MatchState

/-- A context a request may pass: a suffix of its tokens, as long as the depth asks for. -/
def IsContext (maxDepth : ℕ) (seq context : List ℤ) : Prop :=
  context <:+ seq ∧ min seq.length maxDepth ≤ context.length

/-- A call on the trie, or a match of a request whose tokens have grown. An `insert` may throw
for want of nodes and then leaves what its earlier rounds made; a `squeeze` that throws leaves
the trie as it is. -/
inductive Next {ι : Type*} [DecidableEq ι] (capacity maxDepth : ℕ) : System ι → System ι → Prop
  | insert {σ : System ι} (tokens : List ℤ) {t : Trie} {e : Option TrieError} :
    insert capacity maxDepth σ.trie tokens = (t, e) →
    (e = none ∨ e = some .insufficientNodes) → Next capacity maxDepth σ { σ with trie := t }
  | squeeze {σ : System ι} (count : ℕ) {t : Trie} :
    squeeze capacity σ.trie count = .ok t → Next capacity maxDepth σ { σ with trie := t }
  | reset {σ : System ι} {t : Trie} :
    reset capacity σ.trie = .ok t → Next capacity maxDepth σ { σ with trie := t }
  | matched {σ : System ι} (i : ι) (more context : List ℤ) :
    IsContext maxDepth (σ.seqs i ++ more) context →
    Next capacity maxDepth σ
      { σ with
        seqs := Function.update σ.seqs i (σ.seqs i ++ more)
        states := Function.update σ.states i
          (matchAnchors σ.trie maxDepth context (σ.states i) (σ.seqs i ++ more).length).2 }

/-- A new trie, and requests that have not begun. -/
def Start {ι : Type*} (capacity : ℕ) (σ : System ι) : Prop :=
  Trie.new capacity = .ok σ.trie ∧ ∀ i, σ.seqs i = [] ∧ σ.states i = {}

/-- The epoch and the generations fit in 64 bits. -/
def InRange (capacity : ℕ) (s : Trie) : Prop :=
  s.epoch < 2 ^ 64 ∧ ∀ n < capacity, (s.nodes n).version < 2 ^ 64

instance (capacity : ℕ) (s : Trie) : Decidable (InRange capacity s) :=
  inferInstanceAs (Decidable (_ ∧ _))

/-- The systems the calls lead to while no counter runs over. -/
def Arises {ι : Type*} [DecidableEq ι] (capacity maxDepth : ℕ) (σ : System ι) : Prop :=
  ∃ σ₀, Start capacity σ₀ ∧ Relation.ReflTransGen
    (fun τ υ => Next capacity maxDepth τ υ ∧ InRange capacity υ.trie) σ₀ σ

/-! ### References that resolve -/

section Refs

variable {s t : Trie} {maxDepth n : ℕ} {token : ℤ} {X Y : ℕ → Option ℕ}

/-- The anchors captured now from the nodes found for the suffixes of lengths `1 … n`. -/
def captured (s : Trie) (n : ℕ) (X : ℕ → Option ℕ) : List NodeRef :=
  (List.range n).map fun i => capture s (X i)

theorem resolve_capture (x : Option ℕ) : resolve s s.epoch (capture s x) = x := by
  cases x with
  | none => rfl
  | some v => simp [capture, resolve]

theorem advanceRef_capture (x : Option ℕ) : advanceRef s s.epoch token (capture s x)
    = some (capture s (x.bind fun v => (s.nodes v).child.lookup token)) := by
  cases x with
  | none => rfl
  | some v => simp [advanceRef, capture, resolve]

/-- The nodes found one token later. -/
def shifted (s : Trie) (token : ℤ) (X : ℕ → Option ℕ) : ℕ → Option ℕ
  | 0 => (s.nodes s.root).child.lookup token
  | i + 1 => (X i).bind fun v => (s.nodes v).child.lookup token

theorem advanceOne_captured (hn : n ≤ maxDepth) :
    advanceOne s maxDepth s.epoch (captured s n X) token
      = some (captured s (min (n + 1) maxDepth) (shifted s token X)) := by
  have hmap : ∀ k, ((captured s n X).take k).mapM (advanceRef s s.epoch token)
      = some (((List.range n).take k).map fun i => capture s (shifted s token X (i + 1))) := by
    intro k
    rw [captured, ← List.map_take, List.mapM_map]
    induction (List.range n).take k with
    | nil => rfl
    | cons i l ih =>
      rw [List.mapM_cons, ih, Function.comp_apply, advanceRef_capture]
      rfl
  rw [advanceOne, hmap]
  simp only [captured, List.length_map, List.length_range, Option.map_some, Option.some.injEq]
  rcases Nat.eq_zero_or_pos maxDepth with rfl | hpos
  · simp
  · obtain ⟨k, hk⟩ : ∃ k, min (n + 1) maxDepth = k + 1 := ⟨min (n + 1) maxDepth - 1, by omega⟩
    rw [hk, Nat.add_sub_cancel, List.take_range, List.range_succ_eq_map, List.map_cons,
      List.map_map, List.take_of_length_le]
    · congr 2
      · congr 1
        omega
    · simp only [List.length_cons, List.length_map, List.length_range]
      omega

/-- The nodes found some tokens later: for the suffixes inside the new tokens those the root
leads to, for the others those the cached ones lead to. -/
def extended (s : Trie) (more : List ℤ) (X : ℕ → Option ℕ) (j : ℕ) : Option ℕ :=
  if j < more.length then s.locate (more.rtake (j + 1)) s.root
  else (X (j - more.length)).bind (s.locate more)

theorem rtake_cons_of_le {more : List ℤ} {k : ℕ} (hk : k ≤ more.length) :
    (token :: more).rtake k = more.rtake k := by
  rw [List.rtake, List.rtake, List.length_cons, Nat.succ_sub hk, List.drop_succ_cons]

theorem extended_shifted (more : List ℤ) :
    extended s more (shifted s token X) = extended s (token :: more) X := by
  funext j
  rw [extended, extended, List.length_cons]
  rcases lt_trichotomy j more.length with hj | rfl | hj
  · rw [if_pos hj, if_pos (by omega), rtake_cons_of_le (by omega)]
  · rw [if_neg (lt_irrefl _), if_pos (Nat.lt_succ_self _), Nat.sub_self]
    have hall : (token :: more).rtake (more.length + 1) = token :: more := by simp [List.rtake]
    rw [hall]
    rfl
  · rw [if_neg (by omega), if_neg (by omega)]
    obtain ⟨k, hk⟩ : ∃ k, j - more.length = k + 1 := ⟨j - more.length - 1, by omega⟩
    rw [hk, show j - (more.length + 1) = k by omega, shifted, Option.bind_assoc]
    rfl

theorem foldlM_advanceOne (hn : n ≤ maxDepth) (more : List ℤ) :
    more.foldlM (advanceOne s maxDepth s.epoch) (captured s n X)
      = some (captured s (min (n + more.length) maxDepth) (extended s more X)) := by
  induction more generalizing n X with
  | nil =>
    have : extended s [] X = X := by
      funext j
      simp [extended, Trie.locate]
    simp [this, min_eq_left hn]
  | cons token more ih =>
    rw [List.foldlM_cons, advanceOne_captured hn]
    refine (ih (min_le_right _ _)).trans ?_
    rw [extended_shifted]
    congr 2
    simp only [List.length_cons]
    omega

/-- An entry of the result: the node, when it can be expanded, with its depth. -/
def entry (s : Trie) (X : ℕ → Option ℕ) (j : ℕ) : Option (ℕ × ℕ) :=
  (X j).bind fun v => if (s.nodes v).child ≠ [] then some (v, j + 1) else none

theorem expandable_captured {st : MatchState} (he : st.trieEpoch = s.epoch)
    (ha : st.anchors = captured s n X) :
    expandable s st = (List.range n).reverse.filterMap (entry s X) := by
  rw [expandable, ha, he]
  have hlen : (captured s n X).length = n := by simp [captured]
  rw [hlen]
  refine List.filterMap_congr fun i hi => ?_
  have hi : i < n := by simpa using hi
  rw [entry, captured, List.getElem?_map, List.getElem?_range hi]
  exact congrArg (Option.bind · _) (resolve_capture _)

theorem mem_entries {d v : ℕ} : (v, d) ∈ (List.range n).reverse.filterMap (entry s X) ↔
    ∃ j < n, entry s X j = some (v, d) := by
  simp [List.mem_filterMap]

theorem entry_eq_some {d j v : ℕ} : entry s X j = some (v, d) ↔
    X j = some v ∧ (s.nodes v).child ≠ [] ∧ d = j + 1 := by
  rw [entry, Option.bind_eq_some_iff]
  constructor
  · rintro ⟨x, hx, hv⟩
    split_ifs at hv with hc
    obtain ⟨rfl, rfl⟩ := Prod.mk.inj (Option.some.inj hv)
    exact ⟨hx, hc, rfl⟩
  · rintro ⟨hx, hc, rfl⟩
    exact ⟨v, hx, if_pos hc⟩

/-- The results are the same when every depth gives the same: the depth is in the entry. -/
theorem entries_eq_iff : (List.range n).reverse.filterMap (entry s X)
      = (List.range n).reverse.filterMap (entry s Y) ↔
    ∀ j < n, entry s X j = entry s Y j := by
  constructor
  · intro h j hj
    have hiff : ∀ X Y : ℕ → Option ℕ, (List.range n).reverse.filterMap (entry s X)
        = (List.range n).reverse.filterMap (entry s Y) → ∀ e, entry s X j = some e →
        entry s Y j = some e := by
      rintro X Y h ⟨v, d⟩ he
      have hmem := mem_entries.mpr ⟨j, hj, he⟩
      rw [h] at hmem
      obtain ⟨j', -, he'⟩ := mem_entries.mp hmem
      obtain rfl : j' = j := by
        have h₁ := (entry_eq_some.mp he).2.2
        have h₂ := (entry_eq_some.mp he').2.2
        omega
      exact he'
    exact Option.ext fun e => ⟨hiff X Y h e, hiff Y X h.symm e⟩
  · intro h
    exact List.filterMap_congr fun j hj => h j (by simpa using hj)

end Refs

/-! ### The invariant of a cached state -/

/-- **A cached state leads nowhere it should not**: under the current epoch it has a reference
for each suffix of the tokens it has seen, and one whose generation is current is the node the
suffix spells. A reference is never ahead of its node, so that a stale one stays stale. -/
structure Sound (s : Trie) (maxDepth : ℕ) (seq : List ℤ) (st : MatchState) : Prop where
  epoch_le : st.trieEpoch ≤ s.epoch
  processed : st.trieEpoch = s.epoch → st.processedTotalLen = seq.length
  length : st.trieEpoch = s.epoch → st.anchors.length = min seq.length maxDepth
  ref : st.trieEpoch = s.epoch → ∀ i ptr version : ℕ,
    st.anchors[i]? = some (some (ptr, version)) → version ≤ (s.nodes ptr).version ∧
      ((s.nodes ptr).version = version → s.locate (seq.rtake (i + 1)) s.root = some ptr)

section Sound

variable {capacity maxDepth n : ℕ} {s t : Trie} {seq more context : List ℤ} {st : MatchState}
  {X : ℕ → Option ℕ}

theorem Sound.ages (h : Sound s maxDepth seq st) (ha : Ages s t) : Sound t maxDepth seq st := by
  refine ⟨ha.epoch ▸ h.epoch_le, ha.epoch ▸ h.processed, ha.epoch ▸ h.length, ?_⟩
  intro he i ptr version href
  obtain ⟨hle, hloc⟩ := h.ref (he.trans ha.epoch) i ptr version href
  have hmono := ha.version ptr
  refine ⟨hle.trans hmono, fun hv => ?_⟩
  -- the generation has not moved since the capture, so the node is where it was
  rcases ha.locate _ _ (hloc (by omega)) with hloc | hlt
  · rw [ha.root]
    exact hloc
  · omega

theorem Sound.of_epoch_lt (hlt : st.trieEpoch < s.epoch) : Sound s maxDepth seq st :=
  ⟨hlt.le, fun he => absurd he hlt.ne, fun he => absurd he hlt.ne, fun he => absurd he hlt.ne⟩

theorem captured_getElem? {i : ℕ} {ref : NodeRef} (h : (captured s n X)[i]? = some ref) :
    i < n ∧ ref = capture s (X i) := by
  have hi : i < n := by
    have := (List.getElem?_eq_some_iff.mp h).1
    simpa [captured] using this
  rw [captured, List.getElem?_map, List.getElem?_range hi] at h
  exact ⟨hi, (Option.some.inj h).symm⟩

theorem sound_captured
    (hX : ∀ j < min seq.length maxDepth, ∀ v, X j = some v →
      s.locate (seq.rtake (j + 1)) s.root = some v) :
    Sound s maxDepth seq ⟨s.epoch, seq.length, captured s (min seq.length maxDepth) X⟩ := by
  refine ⟨le_rfl, fun _ => rfl, fun _ => by simp [captured], fun _ i ptr version href => ?_⟩
  obtain ⟨hi, hcap⟩ := captured_getElem? href
  cases hx : X i with
  | none => simp [hx, capture] at hcap
  | some v =>
    simp only [hx, capture, Option.map_some, Option.some.injEq, Prod.mk.injEq] at hcap
    obtain ⟨rfl, rfl⟩ := hcap
    exact ⟨le_rfl, fun _ => hX i hi _ hx⟩

/-- A validated state is what would be captured now from the nodes it has. -/
theorem Sound.captured (h : Sound s maxDepth seq st) (hv : validate s st = true) :
    ∃ X, st.anchors = captured s (min seq.length maxDepth) X ∧
      (∀ j v : ℕ, X j = some v → s.locate (seq.rtake (j + 1)) s.root = some v) ∧
      ∀ j < min seq.length maxDepth, X j = none → st.anchors[j]? = some none := by
  obtain ⟨he, hall⟩ := Bool.and_eq_true_iff.mp hv
  have he := of_decide_eq_true he
  have hcur : ∀ i ptr version : ℕ, st.anchors[i]? = some (some (ptr, version)) →
      (s.nodes ptr).version = version := by
    intro i ptr version href
    have := List.all_eq_true.mp hall _ (List.mem_of_getElem? href)
    simpa [resolve, he] using this
  refine ⟨fun j => (st.anchors[j]?.join).map Prod.fst, ?_, ?_, ?_⟩
  · rw [← h.length he]
    refine List.ext_getElem? fun i => ?_
    rcases lt_or_ge i st.anchors.length with hi | hi
    · rw [NgramTrie.captured, List.getElem?_map, List.getElem?_range hi,
        List.getElem?_eq_getElem hi]
      cases href : st.anchors[i] with
      | none => simp [href, capture, hi]
      | some ref =>
        have := hcur i ref.1 ref.2 (by rw [List.getElem?_eq_getElem hi, href])
        simp [href, capture, hi, this]
    · rw [List.getElem?_eq_none hi, List.getElem?_eq_none (by simpa [NgramTrie.captured] using hi)]
  · intro j v hj
    obtain ⟨⟨ptr, version⟩, href, rfl⟩ := Option.map_eq_some_iff.mp hj
    have href := Option.join_eq_some_iff.mp href
    exact (h.ref he j ptr version href).2 (hcur j ptr version href)
  · intro j hj hnone
    have hj : j < st.anchors.length := h.length he ▸ hj
    dsimp only at hnone
    rw [List.getElem?_eq_getElem hj] at hnone ⊢
    simpa using hnone

end Sound

/-! ### One match -/

/-- A miss that has become stale: a suffix that had no node when it was cached and that now,
with the tokens since, leads to a node that can be expanded. -/
def StaleMiss (s : Trie) (maxDepth : ℕ) (context : List ℤ) (st : MatchState) (totalLen : ℕ) :
    Prop :=
  ∃ i v : ℕ, st.anchors[i]? = some none ∧
    i + (totalLen - st.processedTotalLen) < min totalLen maxDepth ∧
    s.locate (context.rtake (i + (totalLen - st.processedTotalLen) + 1)) s.root = some v ∧
    (s.nodes v).child ≠ []

section Match

variable {capacity maxDepth : ℕ} {s : Trie} {seq more context : List ℤ} {st : MatchState}

theorem rtake_of_suffix {l : List ℤ} (h : context <:+ l) {k : ℕ} (hk : k ≤ context.length) :
    context.rtake k = l.rtake k := by
  obtain ⟨l', rfl⟩ := h
  have hnil : l'.drop (l'.length + (context.length - k)) = [] :=
    List.drop_eq_nil_of_le (Nat.le_add_right _ _)
  rw [List.rtake, List.rtake, List.length_append, Nat.add_sub_assoc hk, List.drop_append, hnil,
    List.nil_append, Nat.add_sub_cancel_left]

theorem rtake_append_of_le {k : ℕ} (hk : k ≤ more.length) :
    (seq ++ more).rtake k = more.rtake k :=
  (rtake_of_suffix (List.suffix_append _ _) hk).symm

theorem rtake_append_add (k : ℕ) : (seq ++ more).rtake (k + more.length)
    = seq.rtake k ++ more := by
  rw [List.rtake, List.rtake, List.length_append, Nat.add_sub_add_right,
    List.drop_append_of_le_length (Nat.sub_le _ _)]

theorem IsContext.min_length (h : IsContext maxDepth seq context) :
    min context.length maxDepth = min seq.length maxDepth := by
  have := h.1.length_le
  have := h.2
  omega

theorem IsContext.rtake (h : IsContext maxDepth seq context) {j : ℕ}
    (hj : j < min seq.length maxDepth) : context.rtake (j + 1) = seq.rtake (j + 1) :=
  rtake_of_suffix h.1 (by have := h.2; omega)

theorem rebuild_anchors (h : IsContext maxDepth seq context) :
    rebuild s maxDepth context seq.length = ⟨s.epoch, seq.length,
      captured s (min seq.length maxDepth) fun j => s.locate (context.rtake (j + 1)) s.root⟩ := by
  rw [rebuild, h.min_length]
  rfl

/-- What a match does: it looks everything up, or it extends what is cached. -/
theorem matchAnchors_state (hs : Sound s maxDepth seq st)
    (hc : IsContext maxDepth (seq ++ more) context) :
    (¬ (canAdvance s maxDepth context st (seq ++ more).length = true ∧ validate s st = true) ∧
      (matchAnchors s maxDepth context st (seq ++ more).length).2
        = rebuild s maxDepth context (seq ++ more).length) ∨
    (canAdvance s maxDepth context st (seq ++ more).length = true ∧ validate s st = true ∧
      (seq ++ more).length - st.processedTotalLen = more.length ∧
      ∃ X, (∀ j v : ℕ, X j = some v → s.locate (seq.rtake (j + 1)) s.root = some v) ∧
        (∀ j < min seq.length maxDepth, X j = none ↔ st.anchors[j]? = some none) ∧
        (matchAnchors s maxDepth context st (seq ++ more).length).2 = ⟨s.epoch,
          (seq ++ more).length,
          captured s (min (seq ++ more).length maxDepth) (extended s more X)⟩) := by
  by_cases hadv : canAdvance s maxDepth context st (seq ++ more).length = true
  · by_cases hval : validate s st = true
    · right
      obtain ⟨he, -, happ, -⟩ := of_decide_eq_true hadv
      have hlen : (seq ++ more).length - st.processedTotalLen = more.length := by
        rw [hs.processed he, List.length_append, Nat.add_sub_cancel_left]
      obtain ⟨X, hX, hloc, hnone⟩ := hs.captured hval
      refine ⟨hadv, hval, hlen, X, hloc, fun j hj => ⟨hnone j hj, fun hj' => ?_⟩, ?_⟩
      · rw [hX] at hj'
        obtain ⟨-, hcap⟩ := captured_getElem? hj'
        cases hx : X j with
        | none => rfl
        | some v => simp [hx, capture] at hcap
      · have htokens : context.rtake more.length = more := by
          rw [rtake_of_suffix hc.1 (hlen ▸ happ), rtake_append_of_le le_rfl]
          simp [List.rtake]
        have hmin : min (min seq.length maxDepth + more.length) maxDepth
            = min (seq ++ more).length maxDepth := by
          rw [List.length_append]
          omega
        simp only [matchAnchors, hadv, if_true, hlen, htokens, advance, hval, hX, he,
          foldlM_advanceOne (min_le_right _ _), hmin, Option.map_some, Option.getD_some]
    · left
      refine ⟨fun hc => hval hc.2, ?_⟩
      simp only [matchAnchors, hadv, if_true, advance, hval, Bool.false_eq_true, if_false,
        Option.getD_none]
  · left
    refine ⟨fun hc => hadv hc.1, ?_⟩
    simp only [matchAnchors, hadv, Bool.false_eq_true, if_false]

/-- An extended reference is the node of the extended suffix, when there was one to extend. -/
theorem extended_eq (more : List ℤ) (X : ℕ → Option ℕ)
    (hloc : ∀ j v : ℕ, X j = some v → s.locate (seq.rtake (j + 1)) s.root = some v) (j : ℕ) :
    extended s more X j = s.locate ((seq ++ more).rtake (j + 1)) s.root ∨
      more.length ≤ j ∧ X (j - more.length) = none ∧ extended s more X j = none := by
  rw [extended]
  split_ifs with hj
  · exact .inl (by rw [rtake_append_of_le hj])
  · cases hx : X (j - more.length) with
    | none => exact .inr ⟨by omega, rfl, rfl⟩
    | some v =>
      left
      have : j + 1 = (j - more.length + 1) + more.length := by omega
      rw [this, rtake_append_add, locate_append, hloc _ v hx]

theorem matchAnchors_sound (hs : Sound s maxDepth seq st)
    (hc : IsContext maxDepth (seq ++ more) context) :
    Sound s maxDepth (seq ++ more)
      (matchAnchors s maxDepth context st (seq ++ more).length).2 := by
  rcases matchAnchors_state hs hc with ⟨-, heq⟩ | ⟨-, -, -, X, hloc, -, heq⟩
  · rw [heq, rebuild_anchors hc]
    refine sound_captured fun j hj v hv => ?_
    rw [← hc.rtake hj]
    exact hv
  · rw [heq]
    refine sound_captured fun j _ v hv => ?_
    rcases extended_eq more X hloc j with h | ⟨-, -, h⟩
    · exact h ▸ hv
    · rw [h] at hv
      cases hv

/-- The nodes a match returns are those the suffixes of the context spell now. -/
theorem matchAnchors_locate (hs : Sound s maxDepth seq st)
    (hc : IsContext maxDepth (seq ++ more) context) {v d : ℕ}
    (hmem : (v, d) ∈ (matchAnchors s maxDepth context st (seq ++ more).length).1) :
    s.locate (context.rtake d) s.root = some v := by
  obtain ⟨n, X, he, ha, hX⟩ : ∃ n X,
      (matchAnchors s maxDepth context st (seq ++ more).length).2.trieEpoch = s.epoch ∧
      (matchAnchors s maxDepth context st (seq ++ more).length).2.anchors = captured s n X ∧
      ∀ j < n, ∀ v, X j = some v → s.locate (context.rtake (j + 1)) s.root = some v := by
    rcases matchAnchors_state hs hc with ⟨-, heq⟩ | ⟨-, -, -, X, hloc, -, heq⟩
    · rw [heq, rebuild_anchors hc]
      exact ⟨_, _, rfl, rfl, fun j _ v hv => hv⟩
    · rw [heq]
      refine ⟨_, _, rfl, rfl, fun j hj v hv => ?_⟩
      rw [hc.rtake hj]
      rcases extended_eq more X hloc j with h | ⟨-, -, h⟩
      · exact h ▸ hv
      · rw [h] at hv
        cases hv
  have hres := expandable_captured he ha
  have hmem : (v, d) ∈ expandable s
    (matchAnchors s maxDepth context st (seq ++ more).length).2 := hmem
  rw [hres] at hmem
  obtain ⟨j, hj, hentry⟩ := mem_entries.mp hmem
  obtain ⟨hv, -, rfl⟩ := entry_eq_some.mp hentry
  exact hX j hj v hv

/-- **One match is a fresh one** unless it extends a stale miss. -/
theorem matchAnchors_eq_iff (hs : Sound s maxDepth seq st)
    (hc : IsContext maxDepth (seq ++ more) context) :
    (matchAnchors s maxDepth context st (seq ++ more).length).1
        = expandable s (rebuild s maxDepth context (seq ++ more).length) ↔
      ¬ (canAdvance s maxDepth context st (seq ++ more).length = true ∧ validate s st = true ∧
        StaleMiss s maxDepth context st (seq ++ more).length) := by
  have hfst : (matchAnchors s maxDepth context st (seq ++ more).length).1
      = expandable s (matchAnchors s maxDepth context st (seq ++ more).length).2 := rfl
  rw [hfst]
  rcases matchAnchors_state hs hc with ⟨hno, heq⟩ | ⟨hadv, hval, happ, X, hloc, hnone, heq⟩
  · rw [heq]
    exact iff_of_true rfl fun h => hno ⟨h.1, h.2.1⟩
  · rw [heq, rebuild_anchors hc, expandable_captured rfl rfl, expandable_captured rfl rfl,
      entries_eq_iff]
    set N := min (seq ++ more).length maxDepth with hN
    -- a depth inside the cached range
    have hcached : ∀ j < N, more.length ≤ j → j - more.length < min seq.length maxDepth := by
      intro j hj hle
      rw [hN, List.length_append] at hj
      omega
    constructor
    · rintro hall ⟨-, -, i, v, hi, hlt, hv, hchild⟩
      rw [happ] at hlt hv
      have hsub : i + more.length - more.length = i := Nat.add_sub_cancel _ _
      have hmiss : X i = none := by
        refine (hnone i ?_).mpr hi
        have := hcached _ hlt (Nat.le_add_left _ _)
        rwa [hsub] at this
      have hentry := hall _ hlt
      rw [entry, extended, if_neg (by omega), hsub, hmiss] at hentry
      have := entry_eq_some (X := fun j => s.locate (context.rtake (j + 1)) s.root)
        (s := s) (j := i + more.length) |>.mpr ⟨hv, hchild, rfl⟩
      rw [← hentry] at this
      cases this
    · intro hno j hj
      rcases extended_eq more X hloc j with h | ⟨hle, hx, h⟩
      · rw [entry, entry, h, hc.rtake hj]
      · have hl : entry s (extended s more X) j = none := by rw [entry, h]; rfl
        rw [hl]
        refine (Option.eq_none_iff_forall_ne_some.mpr ?_).symm
        rintro ⟨v, d⟩ hentry
        obtain ⟨hv, hchild, -⟩ := entry_eq_some.mp hentry
        refine hno ⟨hadv, hval, j - more.length, v, (hnone _ (hcached j hj hle)).mp hx, ?_, ?_,
          hchild⟩
        · rw [happ, Nat.sub_add_cancel hle]
          exact hj
        · rw [happ, Nat.sub_add_cancel hle]
          exact hv

end Match

/-! ### Whole histories -/

section History

variable {ι : Type*} [DecidableEq ι] {capacity maxDepth : ℕ} {σ τ : System ι}

theorem insertAll_ages {s t : Trie} {l : List (List ℤ)} {e : Option TrieError}
    (h : Shape capacity s) (hr : insertAll capacity l s = (t, e)) :
    Shape capacity t ∧ Ages s t := by
  induction l generalizing s with
  | nil =>
    obtain ⟨rfl, -⟩ := Prod.mk.inj hr
    exact ⟨h, .refl _⟩
  | cons tokens rest ih =>
    rw [insertAll] at hr
    split at hr
    · obtain ⟨rfl, -⟩ := Prod.mk.inj hr
      exact ⟨h, .refl _⟩
    · next s₁ hs₁ =>
      obtain ⟨h₁, ha₁⟩ := insertSuffix_ok h hs₁
      obtain ⟨h₂, ha₂⟩ := ih h₁ hr
      exact ⟨h₂, ha₁.trans ha₂⟩

/-- The invariant of a history. -/
structure Inv (capacity maxDepth : ℕ) (σ : System ι) : Prop where
  shape : Shape capacity σ.trie
  sound : ∀ i, Sound σ.trie maxDepth (σ.seqs i) (σ.states i)

omit [DecidableEq ι] in
theorem Inv.start (h : Start capacity σ) : Inv capacity maxDepth σ := by
  obtain ⟨hshape, -, hepoch⟩ := refill_eq_ok h.1
  refine ⟨hshape, fun i => .of_epoch_lt ?_⟩
  rw [(h.2 i).2, hepoch]
  exact one_pos

theorem Inv.next (h : Inv capacity maxDepth σ) (hn : Next capacity maxDepth σ τ) :
    Inv capacity maxDepth τ := by
  cases hn with
  | insert tokens hr _ =>
    obtain ⟨hshape, ha⟩ := insertAll_ages h.shape hr
    exact ⟨hshape, fun i => (h.sound i).ages ha⟩
  | squeeze count hr =>
    obtain ⟨hshape, ha, -⟩ := squeeze_ok h.shape hr
    exact ⟨hshape, fun i => (h.sound i).ages ha⟩
  | reset hr =>
    obtain ⟨hshape, -, hepoch⟩ := refill_eq_ok hr
    refine ⟨hshape, fun i => .of_epoch_lt ?_⟩
    rw [hepoch]
    exact Nat.lt_succ_of_le (h.sound i).epoch_le
  | matched i more context hc =>
    refine ⟨h.shape, fun k => ?_⟩
    rcases eq_or_ne k i with rfl | hk
    · simp only [Function.update_self]
      exact matchAnchors_sound (h.sound k) hc
    · simp only [Function.update_of_ne hk]
      exact h.sound k

theorem Arises.inv (h : Arises capacity maxDepth σ) : Inv capacity maxDepth σ := by
  obtain ⟨σ₀, h₀, hr⟩ := h
  induction hr with
  | refl => exact .start h₀
  | tail _ hn ih => exact ih.next hn.1

/-- **An incremental match is a fresh one exactly when it extends no stale miss.** After every
history, for every request and every context it may pass, the expandable anchors are those a
rebuild would give now unless the state is extended and one of its misses has come to lead
somewhere since; and every anchor is the node its suffix of the context spells now, so that it
is in the tree and not in the pool. -/
theorem match_fresh_iff (h : Arises capacity maxDepth σ) (i : ι) (more context : List ℤ)
    (hc : IsContext maxDepth (σ.seqs i ++ more) context) :
    ((matchAnchors σ.trie maxDepth context (σ.states i) (σ.seqs i ++ more).length).1
        = expandable σ.trie (rebuild σ.trie maxDepth context (σ.seqs i ++ more).length) ↔
      ¬ (canAdvance σ.trie maxDepth context (σ.states i) (σ.seqs i ++ more).length = true ∧
        validate σ.trie (σ.states i) = true ∧
        StaleMiss σ.trie maxDepth context (σ.states i) (σ.seqs i ++ more).length)) ∧
    ∀ v d, (v, d) ∈ (matchAnchors σ.trie maxDepth context (σ.states i)
        (σ.seqs i ++ more).length).1 →
      σ.trie.locate (context.rtake d) σ.trie.root = some v ∧ v ∈ σ.trie.live ∧
        v ∉ σ.trie.pool := by
  have hinv := h.inv
  refine ⟨matchAnchors_eq_iff (hinv.sound i) hc, fun v d hmem => ?_⟩
  have hloc := matchAnchors_locate (hinv.sound i) hc hmem
  have hlive := hinv.shape.locate_mem root_mem_live hloc
  exact ⟨hloc, hlive, fun hp => hinv.shape.notMem_live hp hlive⟩

/-- A match of the only request. -/
theorem Next.matched_unit {s : Trie} {seq : List ℤ} {st : MatchState} (more context : List ℤ)
    (hc : IsContext maxDepth (seq ++ more) context) :
    Next capacity maxDepth (⟨s, fun _ => seq, fun _ => st⟩ : System Unit)
      ⟨s, fun _ => seq ++ more,
        fun _ => (matchAnchors s maxDepth context st (seq ++ more).length).2⟩ := by
  have hstep : Next capacity maxDepth (⟨s, fun _ => seq, fun _ => st⟩ : System Unit) _ :=
    .matched () more context hc
  have hfun : ∀ {α : Type} (f : Unit → α) (a : α), Function.update f () a = fun _ => a :=
    fun f a => funext fun _ => Function.update_self _ _ _
  simpa only [hfun] using hstep

/-- `1 2 3` is inserted and a request matches `1`; then it goes on with `2`. The cached node of
`1` is extended, and the match is what a fresh one finds. -/
theorem match_fresh_extended : ∃ σ : System Unit, Arises 8 3 σ ∧ σ.seqs () = [1] ∧
    IsContext 3 (σ.seqs () ++ [2]) [1, 2] ∧
    canAdvance σ.trie 3 [1, 2] (σ.states ()) (σ.seqs () ++ [2]).length = true ∧
    validate σ.trie (σ.states ()) = true ∧
    (matchAnchors σ.trie 3 [1, 2] (σ.states ()) (σ.seqs () ++ [2]).length).1
      = expandable σ.trie (rebuild σ.trie 3 [1, 2] (σ.seqs () ++ [2]).length) ∧
    (expandable σ.trie (rebuild σ.trie 3 [1, 2] (σ.seqs () ++ [2]).length)).length = 2 := by
  obtain ⟨s₀, t, st, hs₀, ht, hin, hst, hnone, hadv, hval, hlen⟩ : ∃ s₀ t st,
      Trie.new 8 = .ok s₀ ∧ insert 8 3 s₀ [1, 2, 3] = (t, none) ∧ InRange 8 t ∧
      (matchAnchors t 3 [1] {} 1).2 = st ∧ none ∉ st.anchors ∧
      canAdvance t 3 [1, 2] st 2 = true ∧ validate t st = true ∧
      (expandable t (rebuild t 3 [1, 2] 2)).length = 2 :=
    ⟨_, _, _, rfl, rfl, by decide, rfl, by decide, by decide, by decide, by decide⟩
  have hnext : Next 8 3 (⟨t, fun _ => [], fun _ => {}⟩ : System Unit)
      ⟨t, fun _ => [1], fun _ => st⟩ :=
    hst ▸ .matched_unit [1] [1] ⟨List.suffix_rfl, by simp⟩
  have harises : Arises 8 3 (⟨t, fun _ => [1], fun _ => st⟩ : System Unit) :=
    ⟨⟨s₀, fun _ => [], fun _ => {}⟩, ⟨hs₀, fun _ => ⟨rfl, rfl⟩⟩,
      (Relation.ReflTransGen.single ⟨.insert [1, 2, 3] ht (.inl rfl), hin⟩).tail ⟨hnext, hin⟩⟩
  have hc : IsContext 3 ([1] ++ [2]) [1, 2] := ⟨List.suffix_rfl, by decide⟩
  refine ⟨_, harises, rfl, hc, hadv, hval,
    (match_fresh_iff harises () [2] [1, 2] hc).1.mpr ?_, hlen⟩
  rintro ⟨-, -, i, v, hi, -⟩
  exact hnone (List.mem_of_getElem? hi)

/-- A request has matched `1` against an empty trie; then `1 2 3` is inserted, and the request
goes on with `2`. The cached miss of `1` hides the node of `1 2`. -/
theorem stale_miss_hides : ∃ σ : System Unit, Arises 8 3 σ ∧ σ.seqs () = [1] ∧
    IsContext 3 (σ.seqs () ++ [2]) [1, 2] ∧
    (matchAnchors σ.trie 3 [1, 2] (σ.states ()) (σ.seqs () ++ [2]).length).1
      ≠ expandable σ.trie (rebuild σ.trie 3 [1, 2] (σ.seqs () ++ [2]).length) := by
  obtain ⟨s₀, t, st, hs₀, hin₀, hst, ht, hin, hne⟩ : ∃ s₀ t st, Trie.new 8 = .ok s₀ ∧
      InRange 8 s₀ ∧ (matchAnchors s₀ 3 [1] {} 1).2 = st ∧
      insert 8 3 s₀ [1, 2, 3] = (t, none) ∧ InRange 8 t ∧
      (matchAnchors t 3 [1, 2] st 2).1 ≠ expandable t (rebuild t 3 [1, 2] 2) :=
    ⟨_, _, _, rfl, by decide, rfl, rfl, by decide, by decide⟩
  have hnext : Next 8 3 (⟨s₀, fun _ => [], fun _ => {}⟩ : System Unit)
      ⟨s₀, fun _ => [1], fun _ => st⟩ :=
    hst ▸ .matched_unit [1] [1] ⟨List.suffix_rfl, by simp⟩
  exact ⟨⟨t, fun _ => [1], fun _ => st⟩, ⟨⟨s₀, fun _ => [], fun _ => {}⟩,
    ⟨hs₀, fun _ => ⟨rfl, rfl⟩⟩, (Relation.ReflTransGen.single ⟨hnext, hin₀⟩).tail
      ⟨.insert [1, 2, 3] ht (.inl rfl), hin⟩⟩, rfl, ⟨List.suffix_rfl, by simp⟩, hne⟩

end History

end NgramTrie

end HtSglang
