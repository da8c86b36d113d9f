import Mathlib

/-!
# Cutting an interval into runs

The integers below `b` are cut into `s` non-empty runs; a cut is the list of the ends of its runs
(`HtSglang.IsCut`). When every run has a value, the value of a cut is the smallest one, and the best
cut is found by going over the place of its last boundary. `HtSglang.maximin` is that recursion,
`HtSglang.le_maximin_iff` says that it is exact, and `HtSglang.cutTable` is the table a program
fills, with the boundary chosen at every entry, from which `HtSglang.walkBack` reads a best cut
(`HtSglang.isCut_walkBack`).

The values are in a linear order with a least element, which stands for a run that is not allowed.
The dual order gives the smallest maximum in place of the largest minimum.
-/

namespace HtSglang

/-! ### Cuts -/

/-- `bounds` are the ends of `s` non-empty runs that fill the integers below `b`, and run `i`, from
`p` to `q`, satisfies `P i p q`. -/
inductive IsCut (P : ℕ → ℕ → ℕ → Prop) : ℕ → ℕ → List ℕ → Prop
  | nil : IsCut P 0 0 []
  | snoc {s p b : ℕ} {bounds : List ℕ} (h : IsCut P s p bounds) (hp : p < b) (hP : P s p b) :
      IsCut P (s + 1) b (bounds ++ [b])

/-- The runs of a cut. -/
def spans (bounds : List ℕ) : List (ℕ × ℕ) := (0 :: bounds).zip bounds

namespace IsCut

variable {P Q : ℕ → ℕ → ℕ → Prop} {s b : ℕ} {bounds : List ℕ}

theorem mono (h : IsCut P s b bounds) (hPQ : ∀ i p q, P i p q → Q i p q) :
    IsCut Q s b bounds := by
  induction h with
  | nil => exact .nil
  | snoc _ hp hP ih => exact .snoc ih hp (hPQ _ _ _ hP)

theorem length_eq (h : IsCut P s b bounds) : bounds.length = s := by
  induction h with
  | nil => rfl
  | snoc _ _ _ ih => rw [List.length_append, ih]; rfl

theorem getLast_eq (h : IsCut P s b bounds) : (0 :: bounds).getLast (List.cons_ne_nil _ _) = b := by
  cases h with
  | nil => rfl
  | snoc _ _ _ => simp

end IsCut

theorem isCut_nil_iff {P : ℕ → ℕ → ℕ → Prop} {s b : ℕ} : IsCut P s b [] ↔ s = 0 ∧ b = 0 := by
  constructor
  · intro h
    generalize hl : ([] : List ℕ) = l at h
    cases h with
    | nil => exact ⟨rfl, rfl⟩
    | snoc _ _ _ => simp at hl
  · rintro ⟨rfl, rfl⟩
    exact .nil

theorem isCut_append_iff {P : ℕ → ℕ → ℕ → Prop} {s b c : ℕ} {bounds : List ℕ} :
    IsCut P s b (bounds ++ [c]) ↔
      ∃ t p, s = t + 1 ∧ b = c ∧ IsCut P t p bounds ∧ p < c ∧ P t p c := by
  constructor
  · intro h
    generalize hl : bounds ++ [c] = l at h
    cases h with
    | nil => simp at hl
    | @snoc t p _ bounds' h hp hP =>
      obtain ⟨rfl, hc⟩ := List.append_inj' hl rfl
      cases hc
      exact ⟨t, p, rfl, rfl, h, hp, hP⟩
  · rintro ⟨t, p, rfl, rfl, h, hp, hP⟩
    exact .snoc h hp hP

theorem length_spans (bounds : List ℕ) : (spans bounds).length = bounds.length := by
  simp [spans]

theorem zip_cons_append (a b : ℕ) (l : List ℕ) :
    (a :: (l ++ [b])).zip (l ++ [b]) =
      (a :: l).zip l ++ [((a :: l).getLast (List.cons_ne_nil _ _), b)] := by
  induction l generalizing a with
  | nil => rfl
  | cons c l ih =>
    rw [List.cons_append, List.zip_cons_cons, ih c, List.zip_cons_cons, List.cons_append,
      List.getLast_cons (List.cons_ne_nil c l)]

theorem spans_append (bounds : List ℕ) (b : ℕ) :
    spans (bounds ++ [b]) =
      spans bounds ++ [((0 :: bounds).getLast (List.cons_ne_nil _ _), b)] :=
  zip_cons_append 0 b bounds

/-- What a cut asks of its runs, run by run. -/
theorem isCut_iff {P : ℕ → ℕ → ℕ → Prop} {s b : ℕ} {bounds : List ℕ} :
    IsCut P s b bounds ↔ IsCut (fun _ _ _ => True) s b bounds ∧
      ∀ i p q, (spans bounds)[i]? = some (p, q) → P i p q := by
  constructor
  · intro h
    refine ⟨h.mono fun _ _ _ _ => trivial, ?_⟩
    induction h with
    | nil => simp [spans]
    | @snoc s p b bounds h hp hP ih =>
      intro i p' q' hi
      rw [spans_append, h.getLast_eq, List.getElem?_append, length_spans, h.length_eq] at hi
      split_ifs at hi with hlt
      · exact ih i p' q' hi
      · obtain ⟨hsub, hpair⟩ := List.getElem?_eq_some_iff.mp hi
        have hzero : i - s = 0 := by simpa using hsub
        have his : i = s := by omega
        simp only [hzero, List.getElem_cons_zero, Prod.mk.injEq] at hpair
        obtain ⟨rfl, rfl⟩ := hpair
        exact his ▸ hP
  · rintro ⟨h, hall⟩
    induction h with
    | nil => exact .nil
    | @snoc s p b bounds h hp _ ih =>
      rw [spans_append, h.getLast_eq] at hall
      refine .snoc (ih fun i p' q' hi => hall i p' q' ?_) hp (hall s p b ?_)
      · rw [List.getElem?_append_left (List.getElem?_eq_some_iff.mp hi).1]
        exact hi
      · rw [List.getElem?_append_right (by rw [length_spans, h.length_eq]), length_spans,
          h.length_eq, Nat.sub_self]
        rfl

/-! ### The largest minimum -/

section Maximin

variable {β : Type*} [LinearOrder β] [OrderBot β] (h : ℕ → ℕ → ℕ → β) (top : β)

/-- The largest value a cut of the integers below `b` into `s` runs can have, where a cut without
runs has the value `top`. -/
def maximin : ℕ → ℕ → β
  | 0, b => if b = 0 then top else ⊥
  | s + 1, b => (Finset.range b).sup fun p => maximin s p ⊓ h s p b

/-- The recursion is exact: it reaches a value exactly when a cut does. -/
theorem le_maximin_iff {v : β} (hv : ⊥ < v) (htop : v ≤ top) (s b : ℕ) :
    v ≤ maximin h top s b ↔ ∃ bounds, IsCut (fun i p q => v ≤ h i p q) s b bounds := by
  induction s generalizing b with
  | zero =>
    rw [maximin]
    split_ifs with hb
    · subst hb
      exact ⟨fun _ => ⟨[], .nil⟩, fun _ => htop⟩
    · refine ⟨fun hle => absurd hle (not_le_of_gt hv), ?_⟩
      rintro ⟨bounds, hcut⟩
      cases hcut
      exact absurd rfl hb
  | succ s ih =>
    rw [maximin, Finset.le_sup_iff hv]
    constructor
    · rintro ⟨p, hp, hle⟩
      obtain ⟨hfront, hlast⟩ := le_inf_iff.mp hle
      obtain ⟨bounds, hcut⟩ := (ih p).mp hfront
      exact ⟨bounds ++ [b], hcut.snoc (Finset.mem_range.mp hp) hlast⟩
    · rintro ⟨bounds, hcut⟩
      cases hcut with
      | @snoc _ p _ bounds hcut hp hlast =>
        exact ⟨p, Finset.mem_range.mpr hp, le_inf ((ih p).mpr ⟨bounds, hcut⟩) hlast⟩

/-- There are no more runs than integers. -/
theorem maximin_eq_bot {s b : ℕ} (hsb : b < s) : maximin h top s b = ⊥ := by
  induction s generalizing b with
  | zero => exact absurd hsb (Nat.not_lt_zero _)
  | succ s ih =>
    rw [maximin, Finset.sup_eq_bot_iff]
    intro p hp
    rw [ih (by have := Finset.mem_range.mp hp; omega), bot_inf_eq]

theorem maximin_le_top (s b : ℕ) : maximin h top s b ≤ top := by
  induction s generalizing b with
  | zero =>
    rw [maximin]
    split_ifs
    · exact le_rfl
    · exact bot_le
  | succ s ih =>
    rw [maximin]
    exact Finset.sup_le fun p _ => inf_le_left.trans (ih p)

/-! ### The table -/

/-- A later candidate replaces the best one so far only when it is better. -/
def improve (f : ℕ → β) (acc : β × ℕ) (p : ℕ) : β × ℕ := if acc.1 < f p then (f p, p) else acc

/-- The best of the candidates, and the first that has its value. -/
def bestOf (f : ℕ → β) (l : List ℕ) : β × ℕ := l.foldl (improve f) (⊥, 0)

omit [OrderBot β] in
theorem foldl_improve_fst (f : ℕ → β) (l : List ℕ) (acc : β × ℕ) :
    (l.foldl (improve f) acc).1 = l.foldl (fun a p => a ⊔ f p) acc.1 := by
  induction l generalizing acc with
  | nil => rfl
  | cons p l ih =>
    rw [List.foldl_cons, List.foldl_cons, ih]
    congr 1
    unfold improve
    split_ifs with hlt
    · exact (sup_eq_right.mpr hlt.le).symm
    · exact (sup_eq_left.mpr (not_lt.mp hlt)).symm

theorem foldl_sup_eq (f : ℕ → β) (l : List ℕ) (a : β) :
    l.foldl (fun a p => a ⊔ f p) a = a ⊔ l.toFinset.sup f := by
  induction l generalizing a with
  | nil => simp
  | cons p l ih => rw [List.foldl_cons, ih, List.toFinset_cons, Finset.sup_insert, sup_assoc]

theorem bestOf_fst (f : ℕ → β) (l : List ℕ) : (bestOf f l).1 = l.toFinset.sup f := by
  rw [bestOf, foldl_improve_fst, foldl_sup_eq, bot_sup_eq]

/-- The candidate that was kept has the value that was kept, unless none was. -/
theorem bestOf_snd (f : ℕ → β) (l : List ℕ) (hne : (bestOf f l).1 ≠ ⊥) :
    (bestOf f l).2 ∈ l ∧ f (bestOf f l).2 = (bestOf f l).1 := by
  suffices hall : ∀ (l : List ℕ) (acc : β × ℕ), l.foldl (improve f) acc = acc ∨
      (l.foldl (improve f) acc).2 ∈ l ∧
        f (l.foldl (improve f) acc).2 = (l.foldl (improve f) acc).1 by
    rcases hall l (⊥, 0) with hacc | hfound
    · exact absurd (congrArg Prod.fst hacc) hne
    · exact hfound
  intro l
  induction l with
  | nil => exact fun acc => .inl rfl
  | cons p l ih =>
    intro acc
    rw [List.foldl_cons]
    rcases ih (improve f acc p) with hacc | ⟨hmem, hval⟩
    · rw [hacc]
      unfold improve
      split_ifs with hlt
      · exact .inr ⟨List.mem_cons_self, rfl⟩
      · exact .inl rfl
    · exact .inr ⟨List.mem_cons_of_mem _ hmem, hval⟩

/-- The table a program fills to cut `n` into `k` runs: the value of an entry and the boundary
before its last run. An entry that leaves too little for the remaining runs is not filled. -/
def cutTable (k n : ℕ) : ℕ → ℕ → β × ℕ
  | 0, b => (if b = 0 then top else ⊥, 0)
  | s + 1, b =>
    if s + 1 ≤ b ∧ b ≤ n - (k - (s + 1)) then
      bestOf (fun p => (cutTable k n s p).1 ⊓ h s p b) (List.range' s (b - s))
    else (⊥, 0)

/-- What is filled is the value of the recursion. -/
theorem cutTable_fst {k n s b : ℕ} (hs : s ≤ k) (hk : k ≤ n) (hb : b ≤ n - (k - s)) :
    (cutTable h top k n s b).1 = maximin h top s b := by
  induction s generalizing b with
  | zero => rfl
  | succ s ih =>
    by_cases hsb : s + 1 ≤ b
    · rw [cutTable, if_pos ⟨hsb, hb⟩, bestOf_fst, maximin]
      apply le_antisymm
      · refine Finset.sup_le fun p hp => ?_
        obtain ⟨hlow, hhigh⟩ := List.mem_range'_1.mp (List.mem_toFinset.mp hp)
        rw [ih (by omega) (by omega)]
        exact Finset.le_sup (f := fun p => maximin h top s p ⊓ h s p b)
          (Finset.mem_range.mpr (by omega))
      · refine Finset.sup_le fun p hp => ?_
        have hpb := Finset.mem_range.mp hp
        by_cases hps : p < s
        · rw [maximin_eq_bot h top hps, bot_inf_eq]
          exact bot_le
        · rw [← ih (by omega) (by omega)]
          exact Finset.le_sup (f := fun p => (cutTable h top k n s p).1 ⊓ h s p b)
            (List.mem_toFinset.mpr (List.mem_range'_1.mpr (by omega)))
    · rw [cutTable, if_neg fun hin => hsb hin.1, maximin_eq_bot h top (by omega)]

/-- The cut that the chosen boundaries spell. -/
def walkBack (choice : ℕ → ℕ → ℕ) : ℕ → ℕ → List ℕ
  | 0, _ => []
  | s + 1, b => walkBack choice s (choice (s + 1) b) ++ [b]

/-- Read back from an entry that has a value, the chosen boundaries are a cut of that value. -/
theorem isCut_walkBack {k n s b : ℕ} (hne : (cutTable h top k n s b).1 ≠ ⊥) :
    IsCut (fun i p q => (cutTable h top k n s b).1 ≤ h i p q) s b
      (walkBack (fun s b => (cutTable h top k n s b).2) s b) := by
  induction s generalizing b with
  | zero =>
    have hb : b = 0 := by
      by_contra hb
      exact hne (if_neg hb)
    rw [hb]
    exact .nil
  | succ s ih =>
    have hin : s + 1 ≤ b ∧ b ≤ n - (k - (s + 1)) := by
      by_contra hout
      exact hne (by rw [cutTable, if_neg hout])
    have hentry : cutTable h top k n (s + 1) b =
        bestOf (fun p => (cutTable h top k n s p).1 ⊓ h s p b) (List.range' s (b - s)) := by
      rw [cutTable, if_pos hin]
    obtain ⟨hmem, hval⟩ := bestOf_snd _ _ (hentry ▸ hne)
    rw [← hentry] at hmem hval
    have hfront : (cutTable h top k n (s + 1) b).1 ≤
        (cutTable h top k n s (cutTable h top k n (s + 1) b).2).1 := by
      rw [← hval]
      exact inf_le_left
    have hlast : (cutTable h top k n (s + 1) b).1 ≤ h s (cutTable h top k n (s + 1) b).2 b := by
      rw [← hval]
      exact inf_le_right
    have hcut := ih fun hbot => hne (le_bot_iff.mp (hbot ▸ hfront))
    exact (hcut.mono fun i p q hle => hfront.trans hle).snoc
      (by have := List.mem_range'_1.mp hmem; omega) hlast

end Maximin

end HtSglang
