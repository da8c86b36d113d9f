import Mathlib

/-!
# Keeping the best

A search walks through candidates and keeps the best one it has met. What such a search does to the
best one so far is a relation (`HtSglang.Searched`) that composes: one search after another goes
through the candidates of both (`HtSglang.Searched.trans`), and a loop of searches through those of
all of them (`HtSglang.Searched.foldl`).
-/

namespace HtSglang

/-- **A search through candidates**, from the best one so far: what it ends with is the one before
or a candidate, and neither the one before nor any candidate costs less. -/
structure Searched {α β : Type*} [LE β] (cost : α → β) (C : α → Prop) (best result : Option α) :
    Prop where
  mem : ∀ r, result = some r → best = some r ∨ C r
  le_best : ∀ b, best = some b → ∃ r, result = some r ∧ cost r ≤ cost b
  le : ∀ c, C c → ∃ r, result = some r ∧ cost r ≤ cost c

namespace Searched

variable {α β ι : Type*} [Preorder β] {cost : α → β} {C C' : α → Prop} {b b' b'' : Option α}

/-- Without candidates. -/
theorem refl (hC : ∀ c, ¬C c) (b : Option α) : Searched cost C b b where
  mem _ hr := Or.inl hr
  le_best b' hb := ⟨b', hb, le_rfl⟩
  le c hc := absurd hc (hC c)

/-- **One search after another.** -/
theorem trans (h : Searched cost C b b') (h' : Searched cost C' b' b'') :
    Searched cost (fun c => C c ∨ C' c) b b'' where
  mem r hr := by
    rcases h'.mem r hr with hr | hr
    · exact (h.mem r hr).imp_right Or.inl
    · exact Or.inr (Or.inr hr)
  le_best c hc := by
    obtain ⟨r, hr, hle⟩ := h.le_best c hc
    obtain ⟨r', hr', hle'⟩ := h'.le_best r hr
    exact ⟨r', hr', hle'.trans hle⟩
  le c hc := by
    rcases hc with hc | hc
    · obtain ⟨r, hr, hle⟩ := h.le c hc
      obtain ⟨r', hr', hle'⟩ := h'.le_best r hr
      exact ⟨r', hr', hle'.trans hle⟩
    · exact h'.le c hc

/-- The same candidates. -/
theorem congr (h : Searched cost C b b') (hC : ∀ c, C' c ↔ C c) : Searched cost C' b b' where
  mem r hr := (h.mem r hr).imp_right (hC r).mpr
  le_best := h.le_best
  le c hc := h.le c ((hC c).mp hc)

/-- **A loop of searches.** -/
theorem foldl {f : Option α → ι → Option α} {D : ι → α → Prop} {l : List ι}
    (hf : ∀ b, ∀ i ∈ l, Searched cost (D i) b (f b i)) (b : Option α) :
    Searched cost (fun c => ∃ i ∈ l, D i c) b (l.foldl f b) := by
  induction l generalizing b with
  | nil => exact refl (fun c ⟨_, hi, _⟩ => nomatch hi) b
  | cons i l ih =>
    have hhead := hf b i List.mem_cons_self
    have hrest := ih (fun b j hj => hf b j (List.mem_cons_of_mem _ hj)) (f b i)
    refine (hhead.trans hrest).congr fun c => ?_
    rw [List.exists_mem_cons_iff]

end Searched

end HtSglang
