import Mathlib

/-!
# Trees given by parent pointers

A tree that a program keeps as nodes with parent pointers: a finite set of live nodes, a
root among them, and for every other live node a parent that is live and nearer to the
root. What is on the way from a node to the root is kept beside it as a set
(`HtSglang.Ancestry`, the argument `above`): the node, its parent, and so on. The set
is determined by the pointers (`HtSglang.Ancestry.above_eq`), and it is what invariants
about paths – locks taken on all of a node's ancestors, for one – are stated with.

The three ways such a tree changes are here: a node is put between another one and its
parent (`HtSglang.Ancestry.split`), a leaf is added (`HtSglang.Ancestry.addLeaf`), a leaf is
taken away (`HtSglang.Ancestry.removeLeaf`).
-/

namespace HtSglang

variable {ι : Type*} [DecidableEq ι]

/-- **A tree given by parent pointers**, with what is above each node and a depth that
the pointers lower. -/
structure Ancestry (root : ι) (alive : Finset ι) (parent : ι → Option ι) (above : ι → Finset ι)
    (depth : ι → ℕ) : Prop where
  root_mem : root ∈ alive
  above_root : above root = {root}
  step : ∀ n ∈ alive, n ≠ root →
    ∃ p ∈ alive, parent n = some p ∧ above n = insert n (above p) ∧ depth p < depth n

namespace Ancestry

variable {root : ι} {alive : Finset ι} {parent : ι → Option ι} {above : ι → Finset ι}
  {depth : ι → ℕ} {m n p : ι}

section Structure

variable (h : Ancestry root alive parent above depth)
include h

theorem parent_mem (hn : n ∈ alive) (hne : n ≠ root) (hp : parent n = some p) : p ∈ alive := by
  obtain ⟨q, hq, hq', -⟩ := h.step n hn hne
  obtain rfl : q = p := Option.some.inj (hq'.symm.trans hp)
  exact hq

theorem above_eq (hn : n ∈ alive) (hne : n ≠ root) (hp : parent n = some p) :
    above n = insert n (above p) := by
  obtain ⟨q, -, hq', hab, -⟩ := h.step n hn hne
  obtain rfl : q = p := Option.some.inj (hq'.symm.trans hp)
  exact hab

theorem depth_lt (hn : n ∈ alive) (hne : n ≠ root) (hp : parent n = some p) :
    depth p < depth n := by
  obtain ⟨q, -, hq', -, hd⟩ := h.step n hn hne
  obtain rfl : q = p := Option.some.inj (hq'.symm.trans hp)
  exact hd

/-- **Induction from the root.** -/
theorem induction {C : ι → Prop} (hroot : C root)
    (hstep : ∀ n ∈ alive, ∀ p ∈ alive, n ≠ root → parent n = some p → C p → C n) :
    ∀ n ∈ alive, C n := by
  intro n hn
  -- the depth goes down along the pointers
  induction hd : depth n using Nat.strong_induction_on generalizing n with
  | _ d ih =>
    by_cases hne : n = root
    · exact hne ▸ hroot
    · obtain ⟨p, hp, hpar, -, hlt⟩ := h.step n hn hne
      exact hstep n hn p hp hne hpar (ih _ (hd ▸ hlt) p hp rfl)

theorem self_mem_above (hn : n ∈ alive) : n ∈ above n := by
  by_cases hne : n = root
  · rw [hne, h.above_root]
    exact Finset.mem_singleton_self _
  · obtain ⟨p, -, -, hab, -⟩ := h.step n hn hne
    rw [hab]
    exact Finset.mem_insert_self _ _

theorem above_subset (hn : n ∈ alive) : above n ⊆ alive := by
  refine h.induction (C := fun n => above n ⊆ alive) ?_ ?_ n hn
  · rw [h.above_root, Finset.singleton_subset_iff]
    exact h.root_mem
  · intro n hn p _ hne hp ih
    rw [h.above_eq hn hne hp]
    exact Finset.insert_subset hn ih

theorem root_mem_above (hn : n ∈ alive) : root ∈ above n := by
  refine h.induction (C := fun n => root ∈ above n) ?_ ?_ n hn
  · rw [h.above_root]
    exact Finset.mem_singleton_self _
  · intro n hn p _ hne hp ih
    rw [h.above_eq hn hne hp]
    exact Finset.mem_insert_of_mem ih

/-- What is above a node, and is not the node, is less deep. -/
theorem depth_lt_of_mem (hn : n ∈ alive) (hm : m ∈ above n) (hmn : m ≠ n) :
    depth m < depth n := by
  refine h.induction (C := fun n => ∀ m ∈ above n, m ≠ n → depth m < depth n) ?_ ?_ n hn m hm hmn
  · intro m hm hne
    rw [h.above_root, Finset.mem_singleton] at hm
    exact absurd hm hne
  · intro n hn p _ hne hp ih m hm hmn
    rw [h.above_eq hn hne hp, Finset.mem_insert] at hm
    have hm := hm.resolve_left hmn
    have hlt := h.depth_lt hn hne hp
    by_cases hmp : m = p
    · exact hmp ▸ hlt
    · exact (ih m hm hmp).trans hlt

theorem notMem_above_parent (hn : n ∈ alive) (hne : n ≠ root) (hp : parent n = some p) :
    n ∉ above p := by
  intro hmem
  have hlt := h.depth_lt hn hne hp
  have hpn : n ≠ p := by
    rintro rfl
    omega
  have := h.depth_lt_of_mem (h.parent_mem hn hne hp) hmem hpn
  omega

/-- A node is above what is below it. -/
theorem above_subset_above (hn : n ∈ alive) (hm : m ∈ above n) : above m ⊆ above n := by
  refine h.induction (C := fun n => ∀ m ∈ above n, above m ⊆ above n) ?_ ?_ n hn m hm
  · intro m hm
    rw [h.above_root, Finset.mem_singleton] at hm
    exact hm ▸ Finset.Subset.refl _
  · intro n hn p _ hne hp ih m hm
    have hab := h.above_eq hn hne hp
    rw [hab, Finset.mem_insert] at hm
    rcases hm with rfl | hm
    · exact Finset.Subset.refl _
    · rw [hab]
      exact (ih m hm).trans (Finset.subset_insert _ _)

/-- The way from a node down to one below it starts with a child. -/
theorem exists_child (hn : n ∈ alive) (hm : m ∈ above n) (hmn : m ≠ n) :
    ∃ k ∈ above n, k ∈ alive ∧ k ≠ root ∧ parent k = some m := by
  refine h.induction (C := fun n => ∀ m ∈ above n, m ≠ n →
    ∃ k ∈ above n, k ∈ alive ∧ k ≠ root ∧ parent k = some m) ?_ ?_ n hn m hm hmn
  · intro m hm hne
    rw [h.above_root, Finset.mem_singleton] at hm
    exact absurd hm hne
  · intro n hn p _ hne hp ih m hm hmn
    have hab := h.above_eq hn hne hp
    rw [hab, Finset.mem_insert] at hm
    have hm := hm.resolve_left hmn
    by_cases hmp : m = p
    · exact ⟨n, h.self_mem_above hn, hn, hne, hmp ▸ hp⟩
    · obtain ⟨k, hk, hkal⟩ := ih m hm hmp
      exact ⟨k, hab ▸ Finset.mem_insert_of_mem hk, hkal⟩

theorem card_above_le (hn : n ∈ alive) : (above n).card ≤ alive.card :=
  Finset.card_le_card (h.above_subset hn)

/-- The way up gets shorter by one. -/
theorem card_above_parent (hn : n ∈ alive) (hne : n ≠ root) (hp : parent n = some p) :
    (above n).card = (above p).card + 1 := by
  rw [h.above_eq hn hne hp, Finset.card_insert_of_notMem (h.notMem_above_parent hn hne hp)]

end Structure

/-! ### Changes -/

/-- What is above a node after `w` was put between `x` and its parent `p`. -/
def splitAbove (above : ι → Finset ι) (w x p m : ι) : Finset ι :=
  if m = w then insert w (above p) else if x ∈ above m then insert w (above m) else above m

theorem mem_splitAbove_old {w x p m n : ι} (hmw : m ≠ w) (hnw : n ≠ w) :
    n ∈ splitAbove above w x p m ↔ n ∈ above m := by
  rw [splitAbove, if_neg hmw]
  split
  · rw [Finset.mem_insert]
    exact or_iff_right hnw
  · rfl

theorem mem_splitAbove_new {w x p m : ι} (hmw : m ≠ w) (hw : w ∉ above m) :
    w ∈ splitAbove above w x p m ↔ x ∈ above m := by
  rw [splitAbove, if_neg hmw]
  split
  · next hx => simp [hx]
  · next hx => simp [hx, hw]

/-- **A node is put between another one and its parent.** -/
theorem split (h : Ancestry root alive parent above depth) {parent' : ι → Option ι}
    {depth' : ι → ℕ} {w x p : ι} (hx : x ∈ alive) (hne : x ≠ root) (hp : parent x = some p)
    (hw : w ∉ alive) (hpw : parent' w = some p) (hpx : parent' x = some w)
    (hold : ∀ m ∈ alive, m ≠ x → parent' m = parent m)
    (hdw : depth p < depth' w ∧ depth' w < depth x) (hdold : ∀ m ∈ alive, depth' m = depth m) :
    Ancestry root (insert w alive) parent' (splitAbove above w x p) depth' := by
  have hne' : ∀ m ∈ alive, m ≠ w := fun m hm hc => hw (hc ▸ hm)
  have hpal := h.parent_mem hx hne hp
  have hxp := h.notMem_above_parent hx hne hp
  have hp' : splitAbove above w x p p = above p := by
    rw [splitAbove, if_neg (hne' p hpal), if_neg hxp]
  refine ⟨Finset.mem_insert_of_mem h.root_mem, ?_, ?_⟩
  · rw [splitAbove, if_neg (hne' root h.root_mem), h.above_root, if_neg]
    rw [Finset.mem_singleton]
    exact hne
  · intro n hn hnr
    rcases Finset.mem_insert.mp hn with rfl | hn
    · refine ⟨p, Finset.mem_insert_of_mem hpal, hpw, ?_, hdold p hpal ▸ hdw.1⟩
      rw [hp', splitAbove, if_pos rfl]
    by_cases hnx : n = x
    · subst hnx
      refine ⟨w, Finset.mem_insert_self _ _, hpx, ?_, hdold n hn ▸ hdw.2⟩
      rw [splitAbove, if_neg (hne' n hn), if_pos (h.self_mem_above hn), splitAbove, if_pos rfl,
        h.above_eq hn hnr hp, Finset.insert_comm]
    · obtain ⟨q, hq, hqp, hab, hd⟩ := h.step n hn hnr
      refine ⟨q, Finset.mem_insert_of_mem hq, (hold n hn hnx).trans hqp, ?_, ?_⟩
      · have hiff : x ∈ above n ↔ x ∈ above q := by
          rw [hab, Finset.mem_insert]
          exact or_iff_right (fun hc => hnx hc.symm)
        rw [splitAbove, splitAbove, if_neg (hne' n hn), if_neg (hne' q hq)]
        simp only [hiff]
        split
        · rw [hab, Finset.insert_comm]
        · exact hab
      · rw [hdold n hn, hdold q hq]
        exact hd

/-- **A leaf is added.** -/
theorem addLeaf (h : Ancestry root alive parent above depth) {parent' : ι → Option ι}
    {above' : ι → Finset ι} {depth' : ι → ℕ} {w p : ι} (hp : p ∈ alive) (hw : w ∉ alive)
    (hpw : parent' w = some p) (habw : above' w = insert w (above p)) (hdw : depth p < depth' w)
    (hold : ∀ m ∈ alive, parent' m = parent m ∧ above' m = above m ∧ depth' m = depth m) :
    Ancestry root (insert w alive) parent' above' depth' := by
  refine ⟨Finset.mem_insert_of_mem h.root_mem, ?_, ?_⟩
  · rw [(hold root h.root_mem).2.1, h.above_root]
  · intro n hn hnr
    rcases Finset.mem_insert.mp hn with rfl | hn
    · refine ⟨p, Finset.mem_insert_of_mem hp, hpw, ?_, ?_⟩
      · rw [habw, (hold p hp).2.1]
      · rw [(hold p hp).2.2]
        exact hdw
    · obtain ⟨q, hq, hqp, hab, hd⟩ := h.step n hn hnr
      refine ⟨q, Finset.mem_insert_of_mem hq, (hold n hn).1.trans hqp, ?_, ?_⟩
      · rw [(hold n hn).2.1, (hold q hq).2.1, hab]
      · rw [(hold n hn).2.2, (hold q hq).2.2]
        exact hd

/-- **A leaf is taken away.** -/
theorem removeLeaf (h : Ancestry root alive parent above depth) {x : ι} (hne : x ≠ root)
    (hleaf : ∀ m ∈ alive, m ≠ root → parent m ≠ some x) :
    Ancestry root (alive.erase x) parent above depth := by
  refine ⟨Finset.mem_erase.mpr ⟨hne.symm, h.root_mem⟩, h.above_root, ?_⟩
  intro n hn hnr
  obtain ⟨q, hq, hqp, hrest⟩ := h.step n (Finset.mem_of_mem_erase hn) hnr
  refine ⟨q, Finset.mem_erase.mpr ⟨?_, hq⟩, hqp, hrest⟩
  rintro rfl
  exact hleaf n (Finset.mem_of_mem_erase hn) hnr hqp

/-- The pointers of the live nodes are all that counts. -/
theorem congr_parent (h : Ancestry root alive parent above depth) {parent' : ι → Option ι}
    (heq : ∀ n ∈ alive, parent' n = parent n) : Ancestry root alive parent' above depth :=
  ⟨h.root_mem, h.above_root, fun n hn hne => by
    obtain ⟨p, hp, hpar, hrest⟩ := h.step n hn hne
    exact ⟨p, hp, (heq n hn).trans hpar, hrest⟩⟩

end Ancestry

end HtSglang
