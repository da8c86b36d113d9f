import Mathlib

/-!
# Entries of a list

A Python list of numbers that is updated in place, one entry at a time (`List.modify`), and read
with a default. What an update does to an entry is `HtSglang.getD_modify`, what it does to the sum
is `HtSglang.sum_modify`, and a sum over the entries is `HtSglang.sum_eq_sum_getD`. Lists whose
entries are from finite sets are finitely many (`HtSglang.finite_forall₂`), and below bounds there
is one of every sum (`HtSglang.exists_vector`).
-/

namespace HtSglang

section Entries

variable {α : Type*}

/-- An entry after an update. -/
theorem getD_modify {l : List α} {r : ℕ} (hr : r < l.length) (i : ℕ) (f : α → α) (d : α) :
    (l.modify i f).getD r d = if i = r then f (l.getD r d) else l.getD r d := by
  rw [List.getD_eq_getElem?_getD, List.getElem?_modify, List.getElem?_eq_getElem hr,
    List.getD_eq_getElem _ _ hr]
  rfl

/-- The sum after an update. -/
theorem sum_modify [AddCommMonoid α] {l : List α} {i : ℕ} (hi : i < l.length) (f : α → α) :
    (l.modify i f).sum + l[i] = l.sum + f l[i] := by
  induction l generalizing i with
  | nil => exact absurd hi (Nat.not_lt_zero _)
  | cons a l ih =>
    cases i with
    | zero =>
      simp only [List.modify_zero_cons, List.sum_cons, List.getElem_cons_zero]
      abel
    | succ i =>
      have hrest := ih (Nat.lt_of_succ_lt_succ hi)
      simp only [List.modify_succ_cons, List.sum_cons, List.getElem_cons_succ, add_assoc]
      rw [hrest]

/-- What holds of all entries. -/
theorem forall_mem_iff_getD {l : List α} {P : α → Prop} (d : α) :
    (∀ x ∈ l, P x) ↔ ∀ r < l.length, P (l.getD r d) := by
  constructor
  · intro h r hr
    rw [List.getD_eq_getElem _ _ hr]
    exact h _ (List.getElem_mem hr)
  · intro h x hx
    obtain ⟨r, hr, rfl⟩ := List.getElem_of_mem hx
    rw [← List.getD_eq_getElem _ d hr]
    exact h r hr

/-- A relation between two lists, when an entry of the second one is updated. -/
theorem forall₂_modify {β : Type*} {R : α → β → Prop} {l : List α} {u : List β}
    (h : List.Forall₂ R l u) {i : ℕ} {f : β → β}
    (hf : ∀ a b, l[i]? = some a → u[i]? = some b → R a b → R a (f b)) :
    List.Forall₂ R l (u.modify i f) := by
  induction h generalizing i with
  | nil =>
    rw [List.modify_nil]
    exact .nil
  | cons hab hrest ih =>
    cases i with
    | zero => exact .cons (hf _ _ rfl rfl hab) hrest
    | succ i => exact .cons hab (ih hf)

/-- A sum over the entries. -/
theorem sum_eq_sum_getD [AddCommMonoid α] (l : List α) (d : α) :
    l.sum = ∑ r ∈ Finset.range l.length, l.getD r d := by
  induction l with
  | nil => rfl
  | cons a l ih =>
    rw [List.sum_cons, List.length_cons, Finset.sum_range_succ', ih, add_comm]
    rfl

/-- **Finitely many lists**, when there are finitely many choices for each entry. -/
theorem finite_forall₂ {β : Type*} {R : α → β → Prop} {l : List α}
    (h : ∀ a ∈ l, {b | R a b}.Finite) : {u | List.Forall₂ R l u}.Finite := by
  induction l with
  | nil =>
    refine (Set.finite_singleton []).subset fun u hu => ?_
    exact List.forall₂_nil_left_iff.mp hu
  | cons a l ih =>
    have hrest := ih fun a' ha' => h a' (List.mem_cons_of_mem _ ha')
    refine ((h a List.mem_cons_self).image2 List.cons hrest).subset fun u hu => ?_
    obtain ⟨b, u', hab, hu', rfl⟩ := List.forall₂_cons_left_iff.mp hu
    exact ⟨b, hab, u', hu', rfl⟩

/-- **Below bounds** every sum between their number and their sum is that of a list. -/
theorem exists_vector {bounds : List ℕ} {g : ℕ} (hpos : ∀ b ∈ bounds, 1 ≤ b)
    (hlow : bounds.length ≤ g) (hhigh : g ≤ bounds.sum) :
    ∃ v, List.Forall₂ (fun b x => x ≤ b) bounds v ∧ (∀ x ∈ v, 1 ≤ x) ∧ v.sum = g := by
  induction bounds generalizing g with
  | nil =>
    rw [List.sum_nil, Nat.le_zero] at hhigh
    exact ⟨[], .nil, fun x hx => absurd hx List.not_mem_nil, hhigh.symm⟩
  | cons b bounds ih =>
    rw [List.length_cons] at hlow
    rw [List.sum_cons] at hhigh
    have hb := hpos b List.mem_cons_self
    -- as much as possible at the first rank, with one unit left for each other rank
    have hx : ∃ x, 1 ≤ x ∧ x ≤ b ∧ bounds.length ≤ g - x ∧ g - x ≤ bounds.sum ∧ x ≤ g := by
      have hlen : bounds.length ≤ bounds.sum := by
        have := List.card_nsmul_le_sum bounds 1 fun x hx => hpos x (List.mem_cons_of_mem _ hx)
        rwa [smul_eq_mul, mul_one] at this
      rcases le_total b (g - bounds.length) with hle | hle
      · exact ⟨b, hb, le_rfl, by omega, by omega, by omega⟩
      · exact ⟨g - bounds.length, by omega, hle, by omega, by omega, by omega⟩
    obtain ⟨x, hx1, hxb, hlow', hhigh', hxg⟩ := hx
    obtain ⟨v, hv, hvpos, hvsum⟩ := ih (fun b hb => hpos b (List.mem_cons_of_mem _ hb)) hlow' hhigh'
    refine ⟨x :: v, .cons hxb hv, fun y hy => ?_, ?_⟩
    · rcases List.mem_cons.mp hy with rfl | hy
      · exact hx1
      · exact hvpos y hy
    · rw [List.sum_cons, hvsum]
      omega

end Entries

end HtSglang
