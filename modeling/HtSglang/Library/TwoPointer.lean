import Mathlib

/-!
# Packing by two pointers

Things stand at integer heights in a band, some of them occupied and the rest holes. A
walk takes the topmost occupied one again and again, and moves it into the lowest hole
that is left, until the two cross, or either runs out. Then the band is packed: what is
occupied is exactly its bottom (`HtSglang.TwoPointer.packed`).

The heights are those of an arbitrary injective function, so that the same statement
serves a band that is filled from below and one that is filled from above.
-/

namespace HtSglang

namespace TwoPointer

/-- **An interval split into a lower and an upper part** is cut at the size of the upper
part. -/
theorem lower_iff_of_split (base level : ℤ) (Lower : ℤ → Prop) (upper : Finset ℤ)
    (hlower : ∀ z, Lower z → base ≤ z ∧ z < level ∧ ∀ b ∈ upper, z < b)
    (hupper : ∀ b ∈ upper, base ≤ b ∧ b < level)
    (hcover : ∀ z, base ≤ z → z < level → Lower z ∨ z ∈ upper) (z : ℤ) :
    Lower z ↔ base ≤ z ∧ z < level - upper.card := by
  constructor
  · intro hz
    obtain ⟨hbase, hlevel, hbelow⟩ := hlower z hz
    have hsub : upper ⊆ Finset.Ioo z level := by
      intro b hb
      rw [Finset.mem_Ioo]
      exact ⟨hbelow b hb, (hupper b hb).2⟩
    have hcard := Finset.card_le_card hsub
    rw [Int.card_Ioo] at hcard
    omega
  · rintro ⟨hbase, hz⟩
    refine (hcover z hbase (by omega)).resolve_right fun hmem => ?_
    -- everything from an upper element on is upper
    have hsub : Finset.Ico z level ⊆ upper := by
      intro b hb
      rw [Finset.mem_Ico] at hb
      refine (hcover b (by omega) hb.2).resolve_left fun hb' => ?_
      have := (hlower b hb').2.2 z hmem
      omega
    have hcard := Finset.card_le_card hsub
    have := (hupper z hmem).2
    rw [Int.card_Ico] at hcard
    omega

section Walk

variable {α : Type*} {d : α → ℤ} {base level : ℤ} {Occupied : α → Prop} {holes srcs : List α}

/-- How a walk stands: the occupied things that were taken are the topmost ones, each of
them above the hole it went to. -/
structure Taken (d : α → ℤ) (Occupied : α → Prop) (holes srcs : List α) : Prop where
  length_le : srcs.length ≤ holes.length
  pairwise : srcs.Pairwise fun s s' => d s' < d s
  occupied : ∀ s ∈ srcs, Occupied s
  /-- Nothing that was left is above them. -/
  topmost : ∀ p, Occupied p → p ∉ srcs → ∀ s ∈ srcs, d p < d s
  above : ∀ h ∈ holes.take srcs.length, ∀ s ∈ srcs, d h < d s

/-- **A walk that ended has packed the band.** It ended because the holes ran out, or
because everything that was left is below the next hole. -/
theorem packed (hd : Function.Injective d) (hsurj : Function.Surjective d)
    (hholes : holes.Pairwise fun h h' => d h < d h')
    (hband : ∀ p, base ≤ d p ∧ d p < level ↔ Occupied p ∨ p ∈ holes)
    (hdisj : ∀ p ∈ holes, ¬Occupied p) (h : Taken d Occupied holes srcs)
    (hend : ∀ b ∈ holes.drop srcs.length, ∀ p, Occupied p → p ∉ srcs → d p < d b) (p : α) :
    base ≤ d p ∧ d p < level - holes.length ↔
      Occupied p ∧ p ∉ srcs ∨ p ∈ holes.take srcs.length := by
  classical
  have hsplit : holes.take srcs.length ++ holes.drop srcs.length = holes :=
    List.take_append_drop _ _
  have hmemTake : ∀ p ∈ holes.take srcs.length, p ∈ holes := fun p hp => List.mem_of_mem_take hp
  have hmemDrop : ∀ p ∈ holes.drop srcs.length, p ∈ holes := fun p hp => List.mem_of_mem_drop hp
  -- what is vacated or still a hole, as a list without repetition
  let upper := srcs ++ holes.drop srcs.length
  have hnodup : (upper.map d).Nodup := by
    have hs : srcs.Nodup := h.pairwise.imp fun hlt => by
      rintro rfl
      exact lt_irrefl _ hlt
    have hh : holes.Nodup := hholes.imp fun hlt => by
      rintro rfl
      exact lt_irrefl _ hlt
    refine List.Nodup.map hd (List.nodup_append.mpr ⟨hs, hh.sublist (List.drop_sublist _ _), ?_⟩)
    rintro s hsmem b hb rfl
    exact hdisj s (hmemDrop s hb) (h.occupied s hsmem)
  have hcard : ((upper.map d).toFinset.card : ℤ) = holes.length := by
    rw [List.toFinset_card_of_nodup hnodup, List.length_map, List.length_append, List.length_drop]
    have := h.length_le
    omega
  have hlow : ∀ q, Occupied q ∧ q ∉ srcs ∨ q ∈ holes.take srcs.length → ∀ b ∈ upper, d q < d b := by
    rintro q (⟨hq, hqs⟩ | hq) b hb
    · rcases List.mem_append.mp hb with hb | hb
      · exact h.topmost q hq hqs b hb
      · exact hend b hb q hq hqs
    · rcases List.mem_append.mp hb with hb | hb
      · exact h.above q hq b hb
      · rw [← hsplit] at hholes
        exact (List.pairwise_append.mp hholes).2.2 q hq b hb
  have key := lower_iff_of_split base level
    (fun z => ∃ q, d q = z ∧ (Occupied q ∧ q ∉ srcs ∨ q ∈ holes.take srcs.length))
    (upper.map d).toFinset ?_ ?_ ?_ (d p)
  · rw [hcard] at key
    rw [← key]
    constructor
    · rintro ⟨q, hq, hlow⟩
      rwa [← hd hq]
    · exact fun hp => ⟨p, rfl, hp⟩
  · rintro z ⟨q, rfl, hq⟩
    have hin := (hband q).mpr (hq.imp And.left (hmemTake q))
    refine ⟨hin.1, hin.2, fun b hb => ?_⟩
    rw [List.mem_toFinset, List.mem_map] at hb
    obtain ⟨b', hb', rfl⟩ := hb
    exact hlow q hq b' hb'
  · intro b hb
    rw [List.mem_toFinset, List.mem_map] at hb
    obtain ⟨b', hb', rfl⟩ := hb
    refine (hband b').mpr ?_
    exact (List.mem_append.mp hb').imp (h.occupied b') (hmemDrop b')
  · intro z hbase hlevel
    obtain ⟨q, rfl⟩ := hsurj z
    rw [List.mem_toFinset, List.mem_map]
    rcases (hband q).mp ⟨hbase, hlevel⟩ with hq | hq
    · by_cases hqs : q ∈ srcs
      · exact Or.inr ⟨q, List.mem_append_left _ hqs, rfl⟩
      · exact Or.inl ⟨q, rfl, Or.inl ⟨hq, hqs⟩⟩
    · rw [← hsplit, List.mem_append] at hq
      rcases hq with hq | hq
      · exact Or.inl ⟨q, rfl, Or.inr hq⟩
      · exact Or.inr ⟨q, List.mem_append_right _ hq, rfl⟩

end Walk

end TwoPointer

end HtSglang
