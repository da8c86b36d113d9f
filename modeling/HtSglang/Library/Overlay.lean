import Mathlib

/-!
# Slices written back

A slice assignment `full[off : off + n] = part` replaces a stretch of a list (`HtSglang.splice`). A
list into which slices of another one have been written has the entries of the other one where a
slice was and its own entries elsewhere (`HtSglang.overlay`). One more slice adds its places
(`HtSglang.splice_overlay`), and when all places are there, the other list is restored
(`HtSglang.overlay_of_forall`).
-/

namespace HtSglang

variable {α : Type*}

/-- `full[off : off + n] = part`, with a part of `n` entries. -/
def splice (full : List α) (off : ℕ) (part : List α) : List α :=
  full.take off ++ part ++ full.drop (off + part.length)

/-- The entries of the first list at some places, and of the second one elsewhere. -/
def overlay (p : ℕ → Bool) (t l : List α) : List α :=
  (t.zip l).zipIdx.map fun x => if p x.2 then x.1.1 else x.1.2

section Splice

theorem length_splice {full part : List α} {off : ℕ} (h : off + part.length ≤ full.length) :
    (splice full off part).length = full.length := by
  rw [splice, List.length_append, List.length_append, List.length_take, List.length_drop]
  omega

theorem getElem?_splice {full part : List α} {off : ℕ} (h : off + part.length ≤ full.length)
    (i : ℕ) : (splice full off part)[i]? =
      if off ≤ i ∧ i < off + part.length then part[i - off]? else full[i]? := by
  have htake : (full.take off).length = off := by
    rw [List.length_take]
    omega
  rw [splice, List.append_assoc, List.getElem?_append, htake]
  by_cases hlow : i < off
  · rw [if_pos hlow, if_neg (by omega), List.getElem?_take_of_lt hlow]
  · rw [if_neg hlow, List.getElem?_append]
    by_cases hhigh : i - off < part.length
    · rw [if_pos hhigh, if_pos (by omega)]
    · rw [if_neg hhigh, if_neg (by omega), List.getElem?_drop]
      congr 1
      omega

end Splice

section Overlay

variable {p q : ℕ → Bool} {t l : List α}

theorem length_overlay (h : t.length = l.length) : (overlay p t l).length = t.length := by
  rw [overlay, List.length_map, List.length_zipIdx, List.length_zip, h, min_self]

theorem getElem?_overlay (h : t.length = l.length) (i : ℕ) :
    (overlay p t l)[i]? = if p i then t[i]? else l[i]? := by
  rw [overlay, List.getElem?_map, List.getElem?_zipIdx, Nat.zero_add]
  by_cases hi : i < t.length
  · rw [List.getElem?_eq_getElem (show i < (t.zip l).length by rw [List.length_zip]; omega),
      List.getElem_zip, List.getElem?_eq_getElem hi, List.getElem?_eq_getElem (h ▸ hi)]
    rw [Option.map_some, Option.map_some]
    exact apply_ite some _ _ _
  · rw [List.getElem?_eq_none (show (t.zip l).length ≤ i by rw [List.length_zip]; omega),
      List.getElem?_eq_none (not_lt.mp hi), List.getElem?_eq_none (h ▸ not_lt.mp hi), ite_self]
    rfl

theorem mem_overlay {x : α} (hx : x ∈ overlay p t l) : x ∈ t ∨ x ∈ l := by
  obtain ⟨⟨⟨a, b⟩, i⟩, hmem, rfl⟩ := List.mem_map.mp hx
  have hzip := List.of_mem_zip (List.fst_mem_of_mem_zipIdx hmem)
  dsimp only
  split
  · exact Or.inl hzip.1
  · exact Or.inr hzip.2

theorem overlay_congr (h : ∀ i < t.length, p i = q i) : overlay p t l = overlay q t l := by
  refine List.map_congr_left fun x hx => ?_
  have hlt := List.snd_lt_of_mem_zipIdx hx
  rw [List.length_zip] at hlt
  rw [h x.2 (by omega)]

/-- With all places, the first list is restored. -/
theorem overlay_of_forall (h : t.length = l.length) (hp : ∀ i < t.length, p i = true) :
    overlay p t l = t := by
  refine List.ext_getElem? fun i => ?_
  rw [getElem?_overlay h]
  by_cases hi : i < t.length
  · rw [if_pos (hp i hi)]
  · rw [List.getElem?_eq_none (not_lt.mp hi), List.getElem?_eq_none (h ▸ not_lt.mp hi), ite_self]

theorem overlay_false (h : t.length = l.length) : overlay (fun _ => false) t l = l := by
  refine List.ext_getElem? fun i => ?_
  rw [getElem?_overlay h, if_neg Bool.false_ne_true]

/-- **One more slice adds its places.** -/
theorem splice_overlay (h : t.length = l.length) {off n : ℕ} (hn : off + n ≤ t.length) :
    splice (overlay p t l) off ((t.drop off).take n) =
      overlay (fun i => p i || (decide (off ≤ i) && decide (i < off + n))) t l := by
  have hlen : ((t.drop off).take n).length = n := by
    rw [List.length_take, List.length_drop]
    omega
  refine List.ext_getElem? fun i => ?_
  rw [getElem?_splice (by rw [length_overlay h, hlen]; exact hn), hlen, getElem?_overlay h,
    getElem?_overlay h]
  by_cases hi : off ≤ i ∧ i < off + n
  · rw [if_pos hi, if_pos (by simp [hi.1, hi.2]), List.getElem?_take_of_lt (by omega),
      List.getElem?_drop]
    congr 1
    omega
  · have hout : (decide (off ≤ i) && decide (i < off + n)) = false := by
      rw [← Bool.decide_and, decide_eq_false hi]
    rw [if_neg hi, hout, Bool.or_false]

end Overlay

end HtSglang
