import Mathlib

/-!
# Insertion-ordered dictionaries

The dictionaries of the modelled programs keep their entries in insertion order,
and several loops depend on it. They are association lists here, with the three
operations the programs use: `List.lookup` reads, `HtSglang.Dict.set` writes –
in place when the key is there, at the end when it is not – and
`HtSglang.Dict.erase` deletes. A dictionary is well formed when its keys are
distinct, which every operation keeps.
-/

namespace HtSglang

namespace Dict

variable {κ α : Type*}

/-- The keys of a dictionary, in insertion order. -/
def keys (d : List (κ × α)) : List κ := d.map Prod.fst

@[simp] theorem keys_nil : keys ([] : List (κ × α)) = [] := rfl

@[simp] theorem keys_cons (e : κ × α) (d : List (κ × α)) : keys (e :: d) = e.1 :: keys d := rfl

@[simp] theorem keys_append (d e : List (κ × α)) : keys (d ++ e) = keys d ++ keys e := by
  simp [keys]

variable [DecidableEq κ]

/-- `d[k] = a`: in place when the key is there, at the end when it is not. -/
def set (d : List (κ × α)) (k : κ) (a : α) : List (κ × α) :=
  match d with
  | [] => [(k, a)]
  | (k', a') :: d => if k' = k then (k, a) :: d else (k', a') :: set d k a

/-- `del d[k]`. -/
def erase (d : List (κ × α)) (k : κ) : List (κ × α) := d.filter fun e => e.1 ≠ k

@[simp] theorem lookup_nil (k : κ) : ([] : List (κ × α)).lookup k = none := rfl

theorem lookup_cons (k' : κ) (a : α) (d : List (κ × α)) (k : κ) :
    ((k', a) :: d).lookup k = if k' = k then some a else d.lookup k := by
  rw [List.lookup_cons]
  rcases eq_or_ne k' k with rfl | h
  · simp
  · rw [if_neg h]
    have : (k == k') = false := by simpa using h.symm
    rw [this]

/-- A key that is not there reads nothing. -/
theorem lookup_eq_none {d : List (κ × α)} {k : κ} : d.lookup k = none ↔ k ∉ keys d := by
  induction d with
  | nil => simp
  | cons e d ih =>
    obtain ⟨k', a⟩ := e
    rw [lookup_cons, keys_cons, List.mem_cons, not_or]
    split
    · next h => simp [h]
    · next h => exact ih.trans ⟨fun hc => ⟨fun he => h he.symm, hc⟩, fun hc => hc.2⟩

theorem mem_of_lookup {d : List (κ × α)} {k : κ} {a : α} (h : d.lookup k = some a) :
    (k, a) ∈ d := by
  induction d with
  | nil => simp at h
  | cons e d ih =>
    obtain ⟨k', a'⟩ := e
    rw [lookup_cons] at h
    split at h
    · next hk =>
      obtain rfl : a' = a := by simpa using h
      simp [hk]
    · exact List.mem_cons_of_mem _ (ih h)

/-- In a well-formed dictionary an entry is what its key reads. -/
theorem lookup_of_mem {d : List (κ × α)} (hd : (keys d).Nodup) {k : κ} {a : α}
    (h : (k, a) ∈ d) : d.lookup k = some a := by
  induction d with
  | nil => simp at h
  | cons e d ih =>
    obtain ⟨k', a'⟩ := e
    obtain ⟨hk', hd'⟩ := List.nodup_cons.mp hd
    rw [lookup_cons]
    rcases List.mem_cons.mp h with heq | hmem
    · obtain ⟨rfl, rfl⟩ := Prod.mk.inj heq
      rw [if_pos rfl]
    · have hne : k' ≠ k := by
        rintro rfl
        exact hk' (List.mem_map.mpr ⟨_, hmem, rfl⟩)
      rw [if_neg hne]
      exact ih hd' hmem

@[simp] theorem lookup_set_self (d : List (κ × α)) (k : κ) (a : α) :
    (set d k a).lookup k = some a := by
  induction d with
  | nil => simp [set]
  | cons e d ih =>
    obtain ⟨k', a'⟩ := e
    simp only [set]
    split
    · rw [lookup_cons, if_pos rfl]
    · next h => rw [lookup_cons, if_neg h, ih]

theorem set_ne_nil (d : List (κ × α)) (k : κ) (a : α) : set d k a ≠ [] := by
  intro hc
  have := lookup_set_self d k a
  rw [hc] at this
  cases this

theorem lookup_set_of_ne (d : List (κ × α)) {k k' : κ} (a : α) (h : k' ≠ k) :
    (set d k a).lookup k' = d.lookup k' := by
  induction d with
  | nil => rw [set, lookup_cons, if_neg h.symm]
  | cons e d ih =>
    obtain ⟨l, b⟩ := e
    simp only [set]
    split
    · next hl =>
      rw [lookup_cons, lookup_cons, if_neg h.symm, if_neg (fun hc => h (hc.symm.trans hl))]
    · rw [lookup_cons, lookup_cons, ih]

theorem set_of_notMem {d : List (κ × α)} {k : κ} (a : α) (h : k ∉ keys d) :
    set d k a = d ++ [(k, a)] := by
  induction d with
  | nil => rfl
  | cons e d ih =>
    obtain ⟨l, b⟩ := e
    obtain ⟨hne, hmem⟩ := not_or.mp (fun hc => h (List.mem_cons.mpr hc))
    simp only [set]
    rw [if_neg (fun hc => hne hc.symm), ih hmem]
    rfl

theorem keys_set_of_mem {d : List (κ × α)} {k : κ} (a : α) (h : k ∈ keys d) :
    keys (set d k a) = keys d := by
  induction d with
  | nil => simp at h
  | cons e d ih =>
    obtain ⟨l, b⟩ := e
    simp only [set]
    split
    · next hl => simp [hl]
    · next hl =>
      rcases List.mem_cons.mp h with hc | hmem
      · exact absurd hc.symm hl
      · simp [ih hmem]

/-- Writing keeps the keys distinct. -/
theorem nodup_keys_set {d : List (κ × α)} (hd : (keys d).Nodup) (k : κ) (a : α) :
    (keys (set d k a)).Nodup := by
  by_cases h : k ∈ keys d
  · rw [keys_set_of_mem a h]
    exact hd
  · rw [set_of_notMem a h, keys_append, List.nodup_append]
    refine ⟨hd, by simp, ?_⟩
    intro x hx y hy
    simp only [keys_cons, keys_nil, List.mem_singleton] at hy
    rw [hy]
    exact fun hc => h (hc ▸ hx)

theorem mem_keys_set {d : List (κ × α)} {k k' : κ} {a : α} :
    k' ∈ keys (set d k a) ↔ k' = k ∨ k' ∈ keys d := by
  by_cases h : k ∈ keys d
  · rw [keys_set_of_mem a h]
    exact ⟨Or.inr, fun hc => hc.elim (fun he => he ▸ h) id⟩
  · rw [set_of_notMem a h, keys_append, List.mem_append, keys_cons, keys_nil,
      List.mem_singleton]
    exact or_comm

theorem mem_keys_erase {d : List (κ × α)} {k k' : κ} :
    k' ∈ keys (erase d k) ↔ k' ≠ k ∧ k' ∈ keys d := by
  simp only [keys, erase, List.mem_map, List.mem_filter, decide_eq_true_eq]
  constructor
  · rintro ⟨e, ⟨he, hne⟩, rfl⟩
    exact ⟨hne, e, he, rfl⟩
  · rintro ⟨hne, e, he, rfl⟩
    exact ⟨e, ⟨he, hne⟩, rfl⟩

@[simp] theorem lookup_erase_self (d : List (κ × α)) (k : κ) : (erase d k).lookup k = none := by
  rw [lookup_eq_none]
  intro hmem
  obtain ⟨e, he, hk⟩ := List.mem_map.mp hmem
  exact of_decide_eq_true (List.mem_filter.mp he).2 hk

theorem lookup_erase_of_ne (d : List (κ × α)) {k k' : κ} (h : k' ≠ k) :
    (erase d k).lookup k' = d.lookup k' := by
  induction d with
  | nil => rfl
  | cons e d ih =>
    obtain ⟨l, b⟩ := e
    rw [erase, List.filter_cons]
    split
    · rw [lookup_cons, lookup_cons]
      split
      · rfl
      · exact ih
    · next hl =>
      have hl : l = k := by simpa using hl
      rw [lookup_cons, if_neg (fun hc => h (hc.symm.trans hl))]
      exact ih

/-- Deleting keeps the keys distinct. -/
theorem nodup_keys_erase {d : List (κ × α)} (hd : (keys d).Nodup) (k : κ) :
    (keys (erase d k)).Nodup :=
  hd.sublist (List.filter_sublist.map Prod.fst)

/-- **The place of an entry**: writing and deleting change the dictionary there only. -/
theorem exists_cut {d : List (κ × α)} {k : κ} {a : α} (h : d.lookup k = some a) :
    ∃ d₁ d₂, d = d₁ ++ (k, a) :: d₂ ∧ (∀ b, set d k b = d₁ ++ (k, b) :: d₂) ∧
      ((keys d).Nodup → erase d k = d₁ ++ d₂) := by
  induction d with
  | nil => simp at h
  | cons e d ih =>
    obtain ⟨k', a'⟩ := e
    rw [lookup_cons] at h
    split at h
    · next hk =>
      subst hk
      obtain rfl : a' = a := by simpa using h
      refine ⟨[], d, rfl, fun b => by simp [set], fun hd => ?_⟩
      have hk' := (List.nodup_cons.mp hd).1
      rw [erase, List.filter_cons_of_neg (by simp), List.nil_append]
      refine List.filter_eq_self.mpr fun e he => ?_
      exact decide_eq_true fun hc => hk' (List.mem_map.mpr ⟨e, he, hc⟩)
    · next hk =>
      obtain ⟨d₁, d₂, rfl, hset, herase⟩ := ih h
      refine ⟨(k', a') :: d₁, d₂, rfl, fun b => ?_, fun hd => ?_⟩
      · rw [set, if_neg hk, hset]
        rfl
      · rw [erase, List.filter_cons_of_pos (by simpa using hk), ← erase,
          herase (List.nodup_cons.mp hd).2]
        rfl

section Sum

variable [AddCommMonoid α]

theorem sum_set_of_notMem {d : List (κ × α)} {k : κ} (a : α) (h : k ∉ keys d) :
    ((set d k a).map Prod.snd).sum = (d.map Prod.snd).sum + a := by
  rw [set_of_notMem a h]
  simp

theorem sum_set_of_lookup {d : List (κ × α)} {k : κ} (a : α) {b : α} (h : d.lookup k = some b) :
    ((set d k a).map Prod.snd).sum + b = (d.map Prod.snd).sum + a := by
  obtain ⟨d₁, d₂, rfl, hset, -⟩ := exists_cut h
  rw [hset]
  simp only [List.map_append, List.map_cons, List.sum_append, List.sum_cons]
  abel

theorem sum_erase {d : List (κ × α)} (hd : (keys d).Nodup) (k : κ) :
    ((erase d k).map Prod.snd).sum + (d.lookup k).getD 0 = (d.map Prod.snd).sum := by
  cases h : d.lookup k with
  | none =>
    have hself : erase d k = d := List.filter_eq_self.mpr fun e he =>
      decide_eq_true fun hc => lookup_eq_none.mp h (List.mem_map.mpr ⟨e, he, hc⟩)
    rw [hself, Option.getD_none, add_zero]
  | some a =>
    obtain ⟨d₁, d₂, rfl, -, herase⟩ := exists_cut h
    rw [herase hd]
    simp only [List.map_append, List.map_cons, List.sum_append, List.sum_cons, Option.getD_some]
    abel

end Sum

/-- **Writing a whole dictionary over another**, none of whose values it raises: the total
grows by no more than what the new keys bring. -/
theorem sum_foldl_set_le [AddCommMonoid α] [PartialOrder α] [IsOrderedCancelAddMonoid α]
    {d l : List (κ × α)} (hl : (keys l).Nodup)
    (hle : ∀ e ∈ l, ∀ b, d.lookup e.1 = some b → e.2 ≤ b) :
    ((l.foldl (fun d e => set d e.1 e.2) d).map Prod.snd).sum ≤
      (d.map Prod.snd).sum + ((l.filter fun e => e.1 ∉ keys d).map Prod.snd).sum := by
  induction l generalizing d with
  | nil => simp
  | cons e l ih =>
    obtain ⟨hfresh, hl'⟩ := List.nodup_cons.mp hl
    have hne : ∀ e' ∈ l, e'.1 ≠ e.1 := fun e' he' hc => hfresh (hc ▸ List.mem_map_of_mem he')
    have hrest := ih (d := set d e.1 e.2) hl' fun e' he' b hb =>
      hle e' (List.mem_cons_of_mem _ he') b (lookup_set_of_ne d e.2 (hne e' he') ▸ hb)
    -- the keys of the rest are new to the written dictionary exactly when they were before
    have hfilter : (l.filter fun e' => e'.1 ∉ keys (set d e.1 e.2)) =
        l.filter fun e' => e'.1 ∉ keys d := by
      refine List.filter_congr fun e' he' => ?_
      simp [mem_keys_set, hne e' he']
    rw [hfilter] at hrest
    refine hrest.trans ?_
    rcases hb : d.lookup e.1 with _ | b
    · have hmem := lookup_eq_none.mp hb
      rw [List.filter_cons_of_pos (by simpa using hmem), sum_set_of_notMem _ hmem,
        List.map_cons, List.sum_cons, add_assoc]
    · have hmem : e.1 ∈ keys d := List.mem_map.mpr ⟨_, mem_of_lookup hb, rfl⟩
      rw [List.filter_cons_of_neg (by simpa using hmem)]
      refine add_le_add_left (le_of_add_le_add_right (a := b) ?_) _
      rw [sum_set_of_lookup _ hb]
      exact add_le_add_right (hle e List.mem_cons_self b hb) _

/-- What a well-formed dictionary reads does not depend on the order of its entries. -/
theorem lookup_eq_of_perm {d d' : List (κ × α)} (hd : (keys d).Nodup) (h : d'.Perm d) (k : κ) :
    d'.lookup k = d.lookup k := by
  have hd' : (keys d').Nodup := (h.map Prod.fst).nodup_iff.mpr hd
  rcases hl : d.lookup k with _ | a
  · rw [lookup_eq_none] at hl ⊢
    exact fun hm => hl ((h.map Prod.fst).mem_iff.mp hm)
  · exact lookup_of_mem hd' (h.mem_iff.mpr (mem_of_lookup hl))

/-- A dictionary that reads nothing is empty. -/
theorem eq_nil_of_lookup {d : List (κ × α)} (h : ∀ k, d.lookup k = none) : d = [] := by
  rcases d with _ | ⟨⟨k, a⟩, d⟩
  · rfl
  · have := h k
    rw [lookup_cons, if_pos rfl] at this
    cases this

end Dict

end HtSglang
