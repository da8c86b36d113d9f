import Mathlib

/-!
# Greedy splits

A list is cut into consecutive pieces. An element has a load, a finite set; the load of a piece
is the union, and a piece may hold no more than a bound. `HtSglang.greedy` cuts only when it has
to, and no split has fewer pieces (`HtSglang.length_greedy_le`).
-/

namespace HtSglang

variable {α β : Type*} [DecidableEq β] {load : α → Finset β} {bound : ℕ}

/-- The load of a piece. -/
def loadOf (load : α → Finset β) (l : List α) : Finset β := l.foldr (fun a s => load a ∪ s) ∅

@[simp] theorem loadOf_nil : loadOf load [] = ∅ := rfl

@[simp] theorem loadOf_cons (a : α) (l : List α) : loadOf load (a :: l) = load a ∪ loadOf load l :=
  rfl

@[simp] theorem loadOf_append (l l' : List α) :
    loadOf load (l ++ l') = loadOf load l ∪ loadOf load l' := by
  induction l with
  | nil => simp
  | cons a l ih => simp [ih, Finset.union_assoc]

theorem mem_loadOf {l : List α} {b : β} : b ∈ loadOf load l ↔ ∃ a ∈ l, b ∈ load a := by
  induction l with
  | nil => simp
  | cons a l ih => simp [ih]

/-- The greedy split of what is left, with a piece that is open. -/
def greedy (load : α → Finset β) (bound : ℕ) : List α → List α → List (List α)
  | cur, [] => [cur]
  | cur, a :: l =>
    if bound < (loadOf load cur ∪ load a).card then cur :: greedy load bound [a] l
    else greedy load bound (cur ++ [a]) l

theorem flatten_greedy (cur l : List α) : (greedy load bound cur l).flatten = cur ++ l := by
  induction l generalizing cur with
  | nil => simp [greedy]
  | cons a l ih =>
    rw [greedy]
    split
    · simp [ih]
    · simp [ih]

theorem card_greedy_le (cur : List α) {l : List α} (hcur : (loadOf load cur).card ≤ bound)
    (hl : ∀ a ∈ l, (load a).card ≤ bound) :
    ∀ piece ∈ greedy load bound cur l, (loadOf load piece).card ≤ bound := by
  induction l generalizing cur with
  | nil => simpa [greedy] using hcur
  | cons a l ih =>
    have hrest := fun b hb => hl b (List.mem_cons_of_mem a hb)
    rw [greedy]
    split
    · have hnew := ih [a] (by simpa using hl a List.mem_cons_self) hrest
      exact List.forall_mem_cons.mpr ⟨hcur, hnew⟩
    · next hfits => exact ih _ (by simpa using hfits) hrest

/-- **No split has fewer pieces.** The open piece is ahead of the first piece of the other split:
whatever that one still takes fits here too. -/
theorem length_greedy_le (cur first : List α) (rest : List (List α)) {l : List α}
    (hl : first ++ rest.flatten = l)
    (hfirst : (loadOf load cur ∪ loadOf load first).card ≤ bound)
    (hrest : ∀ piece ∈ rest, (loadOf load piece).card ≤ bound) :
    (greedy load bound cur l).length ≤ rest.length + 1 := by
  induction l generalizing cur first rest with
  | nil => simp [greedy]
  | cons a l ih =>
    cases first with
    | cons b first =>
      -- the other split's piece goes on with the same element, and so does this one
      obtain ⟨rfl, htail⟩ : b = a ∧ first ++ rest.flatten = l := by simpa using hl
      rw [loadOf_cons, ← Finset.union_assoc] at hfirst
      have hfits : (loadOf load cur ∪ load b).card ≤ bound :=
        (Finset.card_le_card Finset.subset_union_left).trans hfirst
      rw [greedy, if_neg (not_lt.mpr hfits)]
      exact ih _ first rest htail (by simpa using hfirst) hrest
    | nil =>
      -- the other split opens a piece: drop the empty ones before it
      induction rest with
      | nil => simp at hl
      | cons piece rest ihrest =>
        obtain ⟨hpiece, hothers⟩ := List.forall_mem_cons.mp hrest
        cases piece with
        | nil =>
          refine (ihrest hothers (by simpa using hl)).trans ?_
          simp
        | cons b piece =>
          obtain ⟨rfl, htail⟩ : b = a ∧ piece ++ rest.flatten = l := by simpa using hl
          rw [loadOf_cons] at hpiece
          rw [greedy]
          split
          · have hnew := ih [b] piece rest htail (by simpa using hpiece) hothers
            simpa using hnew
          · next hfits =>
            have hshort : (loadOf load piece).card ≤ bound :=
              (Finset.card_le_card Finset.subset_union_right).trans hpiece
            exact ih (cur ++ [b]) [] (piece :: rest) (by simpa using htail)
              (by simpa using hfits) (List.forall_mem_cons.mpr ⟨hshort, hothers⟩)

/-- The greedy split of a list. -/
def pieces (load : α → Finset β) (bound : ℕ) : List α → List (List α)
  | [] => []
  | a :: l => greedy load bound [a] l

theorem flatten_pieces (load : α → Finset β) (bound : ℕ) (l : List α) :
    (pieces load bound l).flatten = l := by
  cases l with
  | nil => rfl
  | cons a l => exact flatten_greedy [a] l

theorem card_pieces_le {l : List α} (hl : ∀ a ∈ l, (load a).card ≤ bound) :
    ∀ piece ∈ pieces load bound l, (loadOf load piece).card ≤ bound := by
  cases l with
  | nil => simp [pieces]
  | cons a l =>
    obtain ⟨ha, hl⟩ := List.forall_mem_cons.mp hl
    exact card_greedy_le [a] (by simpa using ha) hl

/-- **The greedy split is minimal.** -/
theorem length_pieces_le {ws : List (List α)} {l : List α} (hl : ws.flatten = l)
    (hws : ∀ w ∈ ws, (loadOf load w).card ≤ bound) :
    (pieces load bound l).length ≤ ws.length := by
  cases l with
  | nil => simp [pieces]
  | cons a l =>
    induction ws with
    | nil => simp at hl
    | cons w ws ih =>
      obtain ⟨hw, hrest⟩ := List.forall_mem_cons.mp hws
      cases w with
      | nil =>
        refine (ih hrest (by simpa using hl)).trans ?_
        simp
      | cons b w =>
        obtain ⟨rfl, htail⟩ : b = a ∧ w ++ ws.flatten = l := by simpa using hl
        rw [List.length_cons]
        exact length_greedy_le [b] w ws htail (by simpa using hw) hrest

end HtSglang
