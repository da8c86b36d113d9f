import Mathlib

/-!
# Loops that can fail

A loop whose body may raise is a `List.foldlM` or a `List.mapM` in `Except`. A proof that such a
loop does *not* raise has always the same shape – an invariant indexed by the part of the list
already walked – so it is packaged here once: `HtSglang.foldlM_ok` for a loop with an accumulator,
`HtSglang.mapM_ok` for one that collects. Whether one raises that collects is
`HtSglang.mapM_isOk_iff`.
A sequence that succeeded is taken apart with `HtSglang.bind_eq_ok`, a loop that collects in
`Option` with `HtSglang.mapM_eq_some`.
-/

namespace HtSglang

section Loop

variable {ε α β : Type*}

/-- A sequence succeeds exactly when both of its parts do. -/
theorem bind_eq_ok.{u} {α β : Type u} {x : Except ε α} {f : α → Except ε β} {b : β} :
    (x >>= f) = .ok b ↔ ∃ a, x = .ok a ∧ f a = .ok b := by
  cases x with
  | error e => simp [bind, Except.bind]
  | ok a => simp [bind, Except.bind]

theorem map_eq_ok {x : Except ε α} {f : α → β} {b : β} (h : x.map f = .ok b) :
    ∃ a, x = .ok a ∧ f a = b := by
  cases x with
  | error e => cases h
  | ok a => exact ⟨a, rfl, Except.ok.inj h⟩

/-- **The invariant rule of a loop that can fail.** When every step from the
invariant at the walked part `done` succeeds and re-establishes it at
`done ++ [a]`, the loop succeeds and ends in the invariant at the whole list. -/
theorem foldlM_ok (step : β → α → Except ε β) (I : List α → β → Prop) {l : List α}
    (hstep : ∀ done a todo b, l = done ++ a :: todo → I done b →
      ∃ b', step b a = .ok b' ∧ I (done ++ [a]) b')
    {b : β} (h0 : I [] b) : ∃ b', l.foldlM step b = .ok b' ∧ I l b' := by
  suffices h : ∀ (todo done : List α) (b : β), l = done ++ todo → I done b →
      ∃ b', todo.foldlM step b = .ok b' ∧ I l b' by
    exact h l [] b rfl h0
  intro todo
  induction todo with
  | nil =>
    intro done b hl hI
    exact ⟨b, rfl, by simpa [hl] using hI⟩
  | cons a todo ih =>
    intro done b hl hI
    obtain ⟨b', hb', hI'⟩ := hstep done a todo b hl hI
    obtain ⟨b'', hb'', hI''⟩ := ih (done ++ [a]) b' (by simp [hl]) hI'
    refine ⟨b'', ?_, hI''⟩
    rw [List.foldlM_cons, hb']
    exact hb''

/-- **A collecting loop whose body never fails** collects what its body returns. -/
theorem mapM_ok {f : α → Except ε β} {g : α → β} {l : List α} (h : ∀ a ∈ l, f a = .ok (g a)) :
    l.mapM f = .ok (l.map g) := by
  induction l with
  | nil => rfl
  | cons a l ih =>
    rw [List.mapM_cons, h a (by simp), ih fun x hx => h x (by simp [hx])]
    rfl

/-- **A collecting loop goes through** when its body fails at no entry. -/
theorem mapM_isOk_iff {f : α → Except ε β} {l : List α} :
    (∃ bs, l.mapM f = .ok bs) ↔ ∀ a ∈ l, ∃ b, f a = .ok b := by
  induction l with
  | nil => simp [pure, Except.pure]
  | cons a l ih =>
    rw [List.forall_mem_cons, ← ih, List.mapM_cons]
    cases f a with
    | error e => simp [bind, Except.bind]
    | ok b =>
      cases l.mapM f with
      | error e => simp [bind, Except.bind]
      | ok bs => simp [bind, Except.bind, pure, Except.pure]

/-- **What a collecting loop collects**: what its body returns at the entries. -/
theorem mapM_eq_ok {f : α → Except ε β} {l : List α} {bs : List β} :
    l.mapM f = .ok bs ↔ List.Forall₂ (fun a b => f a = .ok b) l bs := by
  induction l generalizing bs with
  | nil =>
    rw [List.forall₂_nil_left_iff]
    exact ⟨fun h => (Except.ok.inj h).symm, fun h => h ▸ rfl⟩
  | cons a l ih =>
    rw [List.mapM_cons, List.forall₂_cons_left_iff]
    constructor
    · intro h
      cases hb : f a with
      | error e =>
        rw [hb] at h
        cases h
      | ok b =>
        cases hbs : l.mapM f with
        | error e =>
          rw [hb, hbs] at h
          cases h
        | ok bs' =>
          rw [hb, hbs] at h
          cases h
          exact ⟨b, bs', rfl, ih.mp hbs, rfl⟩
    · rintro ⟨b, bs', hb, hbs, rfl⟩
      rw [hb, ih.mpr hbs]
      rfl

/-- What is in the lists that a loop collects. -/
theorem mem_flatten_of_mapM {f : α → Except ε (List β)} {l : List α} {bs : List (List β)}
    (h : l.mapM f = .ok bs) {x : β} : x ∈ bs.flatten ↔ ∃ a ∈ l, ∃ b, f a = .ok b ∧ x ∈ b := by
  induction mapM_eq_ok.mp h with
  | nil => simp
  | @cons a b l bs hab hrest ih => simp [hab, ih (mapM_eq_ok.mpr hrest)]

/-- **A collecting loop that may stop** goes through when its body does at every entry. -/
theorem mapM_eq_some {f : α → Option β} {l : List α} {bs : List β} :
    l.mapM f = some bs ↔ List.Forall₂ (fun a b => f a = some b) l bs := by
  induction l generalizing bs with
  | nil =>
    rw [List.forall₂_nil_left_iff]
    exact ⟨fun h => (Option.some.inj h).symm, fun h => h ▸ rfl⟩
  | cons a l ih =>
    rw [List.mapM_cons, List.forall₂_cons_left_iff]
    simp only [Option.bind_eq_bind, Option.bind_eq_some_iff, Option.pure_def, Option.some.injEq, ih]
    constructor
    · rintro ⟨b, hb, bs', hbs', rfl⟩
      exact ⟨b, bs', hb, hbs', rfl⟩
    · rintro ⟨b, bs', hb, hbs', rfl⟩
      exact ⟨b, hb, bs', hbs', rfl⟩

/-- What such a loop collects. -/
theorem mapM_eq_some_map {f : α → Option β} {l : List α} {bs : List β} (d : β) :
    l.mapM f = some bs ↔ (∀ a ∈ l, f a ≠ none) ∧ bs = l.map fun a => (f a).getD d := by
  rw [mapM_eq_some]
  constructor
  · intro h
    induction h with
    | nil => exact ⟨fun a ha => absurd ha List.not_mem_nil, rfl⟩
    | cons hab _ ih =>
      refine ⟨List.forall_mem_cons.mpr ⟨by rw [hab]; exact Option.some_ne_none _, ih.1⟩, ?_⟩
      rw [List.map_cons, hab, ← ih.2]
      rfl
  · rintro ⟨hsome, rfl⟩
    rw [List.forall₂_map_right_iff, List.forall₂_same]
    intro a ha
    obtain ⟨b, hb⟩ := Option.ne_none_iff_exists'.mp (hsome a ha)
    rw [hb]
    rfl

/-- **A collecting loop that does not stop.** -/
theorem exists_mapM_some {f : α → Option β} {l : List α} (h : ∀ a ∈ l, ∃ b, f a = some b) :
    ∃ bs, l.mapM f = some bs ∧ ∀ b, b ∈ bs ↔ ∃ a ∈ l, f a = some b := by
  induction l with
  | nil => exact ⟨[], rfl, by simp⟩
  | cons a l ih =>
    obtain ⟨b, hb⟩ := h a (List.mem_cons_self ..)
    obtain ⟨bs, hbs, hmem⟩ := ih fun x hx => h x (List.mem_cons_of_mem _ hx)
    refine ⟨b :: bs, by rw [List.mapM_cons, hb, hbs]; rfl, fun x => ?_⟩
    simp [hb, hmem, eq_comm]

end Loop

end HtSglang
