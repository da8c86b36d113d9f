import HtSglang.MemCache.LruFileEvictor

/-!
# The books of the file evictor

A write is in flight from the reservation that admits it to its commit or its abort. The evictor
(`HtSglang.FileEvictor.State`) notes the writes in flight, so that their entries stay, and adds up
the sizes of its entries. Here it is used through its operations
(`HtSglang.FileEvictor.system`), and what is in flight is written down beside it
(`HtSglang.FileEvictor.Run`), each write with whether eviction was configured when it was reserved.

The sum is right whatever happens, as long as no file is listed twice when the directory is read
(`HtSglang.FileEvictor.Books`). The note of a write is lost or kept too long in three ways: the
limits are lifted between the halves of a write, and the second half does nothing; the evictor is
cleared while a write is in flight; two writes of one key are in flight, and the first to end takes
the note with it. `HtSglang.FileEvictor.Orderly` excludes these, and then the books match what is in
flight along every run: `HtSglang.FileEvictor.books_match_inflight`. The first of the three is
`HtSglang.FileEvictor.lifted_limit_keeps_note`.
-/

namespace HtSglang

namespace FileEvictor

/-! ### The sum -/

section Books

variable {Key : Type} [DecidableEq Key] {s s' : State Key}

/-- **The sum is right**: every key has one entry, and the bytes in use are those of the
entries. -/
structure Books (s : State Key) : Prop where
  nodup : (Dict.keys s.lru).Nodup
  total : s.totalBytes = bytes s.lru

/-- The files of a directory, each listed once. -/
def DistinctFiles (env : Env Key) : Prop := (env.existing.map fun e => e.2.1).Nodup

instance (env : Env Key) : Decidable (DistinctFiles env) :=
  inferInstanceAs (Decidable (env.existing.map fun e => e.2.1).Nodup)

omit [DecidableEq Key] in
theorem Books.shrinks {gone : List (Key × ℕ)} (h : Books s) (hgone : Shrinks s s' gone) :
    Books s' := by
  constructor
  · have hkeys := (hgone.perm.map Prod.fst).nodup_iff.mp h.nodup
    rw [List.map_append] at hkeys
    exact hkeys.of_append_right
  · rw [hgone.total, h.total, bytes_perm hgone.perm, bytes_append]
    omega

/-- What is deleted leaves the sum. -/
theorem Books.bytes_erase (h : Books s) (key : Key) :
    (bytes (Dict.erase s.lru key) : ℤ) = s.totalBytes - ((s.lru.lookup key).getD 0 : ℕ) := by
  have hsum := Dict.sum_erase h.nodup key
  rw [h.total, bytes, bytes]
  omega

/-- An entry at the recent end, in place of the one that the key has. -/
theorem Books.nodup_moved (h : Books s) (key : Key) (size : ℕ) :
    (Dict.keys (Dict.erase s.lru key ++ [(key, size)])).Nodup := by
  rw [Dict.keys_append, List.nodup_append]
  refine ⟨Dict.nodup_keys_erase h.nodup key, by simp, fun k hk k' hk' => ?_⟩
  rw [Dict.keys_cons, Dict.keys_nil, List.mem_singleton] at hk'
  rw [hk']
  exact (Dict.mem_keys_erase.mp hk).1

theorem Books.admitKey (h : Books s) (key : Key) (valueBytes : ℕ) :
    Books (s.admitKey key valueBytes) := by
  refine ⟨h.nodup_moved key valueBytes, ?_⟩
  have herase := h.bytes_erase key
  simp only [State.admitKey, bytes_append, bytes_cons, bytes_nil]
  omega

theorem Books.commit (h : Books s) (cfg : Config) (key : Key) (actual : Option ℕ) :
    Books (s.commit cfg key actual) := by
  rw [State.commit]
  split
  · exact h
  simp only
  split
  · next actual prev hprev =>
    split
    · refine ⟨Dict.nodup_keys_set h.nodup key actual, ?_⟩
      have hset := Dict.sum_set_of_lookup actual hprev
      have htotal := h.total
      simp only [bytes] at htotal ⊢
      omega
    · exact ⟨h.nodup, h.total⟩
  · exact ⟨h.nodup, h.total⟩

theorem Books.abort (h : Books s) (cfg : Config) (key : Key) : Books (s.abort cfg key) := by
  rw [State.abort]
  split
  · exact h
  · exact ⟨Dict.nodup_keys_erase h.nodup key, (h.bytes_erase key).symm⟩

theorem Books.touch (h : Books s) (cfg : Config) (key : Key) (size : Option ℕ) :
    Books (s.touch cfg key size) := by
  unfold State.touch
  split
  · exact h
  split
  · next known hknown =>
    refine ⟨h.nodup_moved key known, ?_⟩
    have herase := h.bytes_erase key
    rw [hknown, Option.getD_some] at herase
    rw [bytes_append, bytes_cons, bytes_nil]
    simp only
    omega
  · next hnone =>
    split
    · exact h
    · next size =>
      constructor
      · rw [← Dict.set_of_notMem size (Dict.lookup_eq_none.mp hnone)]
        exact Dict.nodup_keys_set h.nodup key size
      · rw [bytes_append, bytes_cons, bytes_nil, Nat.add_zero, Nat.cast_add, ← h.total]

omit [DecidableEq Key] in
theorem Books.clear (s : State Key) : Books s.clear := ⟨List.nodup_nil, rfl⟩

/-- Files whose keys are new are added. -/
theorem Books.scan {files : List (ℚ × Key × ℕ)} (h : Books s)
    (hnodup : (files.map fun e => e.2.1).Nodup) (hnew : ∀ e ∈ files, e.2.1 ∉ Dict.keys s.lru) :
    Books (files.foldl (fun s e =>
      { s with lru := Dict.set s.lru e.2.1 e.2.2, totalBytes := s.totalBytes + e.2.2 }) s) := by
  induction files generalizing s with
  | nil => exact h
  | cons e files ih =>
    obtain ⟨hfresh, hnodup⟩ := List.nodup_cons.mp hnodup
    have hnotMem := hnew e List.mem_cons_self
    rw [List.foldl_cons]
    refine ih ⟨Dict.nodup_keys_set h.nodup _ _, ?_⟩ hnodup fun e' he' hmem => ?_
    · have hset := Dict.sum_set_of_notMem e.2.2 hnotMem
      have htotal := h.total
      simp only [bytes] at htotal ⊢
      omega
    · rcases Dict.mem_keys_set.mp hmem with heq | hmem
      · exact hfresh (List.mem_map.mpr ⟨e', he', heq⟩)
      · exact hnew e' (List.mem_cons_of_mem e he') hmem

/-- The scan of a directory by an evictor that has no entries. -/
theorem Books.scanExistingFiles {env : Env Key} (h : Books s) (hfiles : DistinctFiles env)
    (hempty : s.lru = []) : Books (s.scanExistingFiles env) := by
  refine h.scan ?_ fun e _ => ?_
  · exact ((List.perm_insertionSort _ _).map fun e : ℚ × Key × ℕ => e.2.1).nodup_iff.mpr hfiles
  · rw [hempty]
    exact List.not_mem_nil

omit [DecidableEq Key] in
theorem Books.clampMaxSizeToFs (h : Books s) (env : Env Key) : Books (s.clampMaxSizeToFs env) := by
  rw [State.clampMaxSizeToFs]
  split
  · simp only
    split
    · exact ⟨h.nodup, h.total⟩
    · exact h
  · exact h

omit [DecidableEq Key] in
theorem lru_clampMaxSizeToFs (env : Env Key) (s : State Key) :
    (s.clampMaxSizeToFs env).lru = s.lru := by
  rw [State.clampMaxSizeToFs]
  split
  · simp only
    split
    · rfl
    · rfl
  · rfl

theorem Books.enforceLimits (h : Books s) (cfg : Config) (env : Env Key) :
    Books (s.enforceLimits cfg env) := by
  obtain ⟨gone, hgone⟩ := enforceLimits_shrinks cfg env s
  exact h.shrinks hgone

theorem Books.setLimits (h : Books s) (cfg : Config) {env : Env Key}
    (hfiles : ¬s.enabled cfg ∧ s.lru = [] → DistinctFiles env)
    (maxSizeBytes minFreeBytes : Option ℤ) :
    Books (s.setLimits cfg env maxSizeBytes minFreeBytes) := by
  have hlimits : Books (s.withLimits cfg maxSizeBytes minFreeBytes) := ⟨h.nodup, h.total⟩
  have hclamped := hlimits.clampMaxSizeToFs env
  have hscanned : Books (if ¬s.enabled cfg ∧
      ((s.withLimits cfg maxSizeBytes minFreeBytes).clampMaxSizeToFs env).lru = [] then
      ((s.withLimits cfg maxSizeBytes minFreeBytes).clampMaxSizeToFs env).scanExistingFiles env else
      (s.withLimits cfg maxSizeBytes minFreeBytes).clampMaxSizeToFs env) := by
    split
    · next hscan =>
      have hlru := hscan.2
      rw [lru_clampMaxSizeToFs] at hlru
      exact hclamped.scanExistingFiles (hfiles ⟨hscan.1, hlru⟩) hscan.2
    · exact hclamped
  have henforced := hscanned.enforceLimits cfg env
  rw [State.setLimits]
  split
  · exact hlimits
  · exact ⟨henforced.nodup, henforced.total⟩

theorem Books.init (cfg : Config) {env : Env Key} (hfiles : DistinctFiles env)
    (maxSizeBytes minFreeBytes : ℤ) : Books (State.init cfg env maxSizeBytes minFreeBytes) := by
  simp only [State.init]
  split
  · exact ⟨List.nodup_nil, rfl⟩
  · refine (Books.scanExistingFiles (Books.clampMaxSizeToFs ?_ env) hfiles ?_).enforceLimits cfg env
    · exact ⟨List.nodup_nil, rfl⟩
    · rw [lru_clampMaxSizeToFs]

/-! ### What is in flight -/

theorem pendingWrites_scanExistingFiles (env : Env Key) (s : State Key) :
    (s.scanExistingFiles env).pendingWrites = s.pendingWrites := by
  rw [State.scanExistingFiles]
  generalize (env.existing.insertionSort fun a b => a.1 ≤ b.1) = files
  induction files generalizing s with
  | nil => rfl
  | cons e files ih => exact ih _

omit [DecidableEq Key] in
theorem pendingWrites_clampMaxSizeToFs (env : Env Key) (s : State Key) :
    (s.clampMaxSizeToFs env).pendingWrites = s.pendingWrites := by
  rw [State.clampMaxSizeToFs]
  split
  · simp only
    split
    · rfl
    · rfl
  · rfl

theorem pendingWrites_enforceLimits (cfg : Config) (env : Env Key) (s : State Key) :
    (s.enforceLimits cfg env).pendingWrites = s.pendingWrites := by
  obtain ⟨gone, hgone⟩ := enforceLimits_shrinks cfg env s
  exact hgone.pending

theorem pendingWrites_setLimits (cfg : Config) (env : Env Key) (s : State Key)
    (maxSizeBytes minFreeBytes : Option ℤ) :
    (s.setLimits cfg env maxSizeBytes minFreeBytes).pendingWrites = s.pendingWrites := by
  rw [State.setLimits]
  split
  · rfl
  · simp only [pendingWrites_enforceLimits]
    split
    · rw [pendingWrites_scanExistingFiles, pendingWrites_clampMaxSizeToFs]
      rfl
    · rw [pendingWrites_clampMaxSizeToFs]
      rfl

theorem pendingWrites_init (cfg : Config) (env : Env Key) (maxSizeBytes minFreeBytes : ℤ) :
    (State.init cfg env maxSizeBytes minFreeBytes).pendingWrites = ∅ := by
  simp only [State.init]
  split
  · rfl
  · rw [pendingWrites_enforceLimits, pendingWrites_scanExistingFiles,
      pendingWrites_clampMaxSizeToFs]

theorem pendingWrites_commit (cfg : Config) (s : State Key) (key : Key) (actual : Option ℕ) :
    (s.commit cfg key actual).pendingWrites =
      if s.enabled cfg then s.pendingWrites.erase key else s.pendingWrites := by
  rw [State.commit]
  cases s.enabled cfg with
  | false => rfl
  | true =>
    simp only [not_true_eq_false, if_false, if_true]
    split
    · split
      · rfl
      · rfl
    · rfl

theorem pendingWrites_abort (cfg : Config) (s : State Key) (key : Key) :
    (s.abort cfg key).pendingWrites =
      if s.enabled cfg then s.pendingWrites.erase key else s.pendingWrites := by
  rw [State.abort]
  cases s.enabled cfg with
  | false => rfl
  | true => rfl

theorem pendingWrites_touch (cfg : Config) (s : State Key) (key : Key) (size : Option ℕ) :
    (s.touch cfg key size).pendingWrites = s.pendingWrites := by
  unfold State.touch
  split
  · rfl
  split
  · rfl
  split
  · rfl
  · rfl

end Books

/-! ### Runs -/

/-- The evictor, and beside it what is in flight. -/
structure Run (Key : Type) where
  state : State Key
  /-- The keys that are reserved and neither committed nor aborted, each with whether eviction was
  configured at the reservation. -/
  inflight : List (Key × Bool)

/-- The operations. -/
inductive Op (Key : Type)
  | reserve (env : Env Key) (key : Key) (valueBytes : ℕ)
  | commit (key : Key) (actual : Option ℕ)
  | abort (key : Key)
  | touch (key : Key) (size : Option ℕ)
  | clear
  | setLimits (env : Env Key) (maxSizeBytes minFreeBytes : Option ℤ)

section Runs

variable {Key : Type} [DecidableEq Key] {cfg : Config} {r r' : Run Key}

/-- One operation. A reservation that is refused puts nothing in flight. -/
def Run.step (cfg : Config) (r : Run Key) : Op Key → Run Key
  | .reserve env key valueBytes =>
    let reserved := r.state.reserve cfg env key valueBytes
    ⟨reserved.2, if reserved.1 then (key, r.state.configured) :: r.inflight else r.inflight⟩
  | .commit key actual => ⟨r.state.commit cfg key actual, r.inflight.eraseP (·.1 = key)⟩
  | .abort key => ⟨r.state.abort cfg key, r.inflight.eraseP (·.1 = key)⟩
  | .touch key size => ⟨r.state.touch cfg key size, r.inflight⟩
  | .clear => ⟨r.state.clear, r.inflight⟩
  | .setLimits env maxSizeBytes minFreeBytes =>
    ⟨r.state.setLimits cfg env maxSizeBytes minFreeBytes, r.inflight⟩

/-- What the callers promise: a write is committed or aborted after it was admitted, and once. -/
def Permitted (r : Run Key) : Op Key → Prop
  | .commit key _ => key ∈ Dict.keys r.inflight
  | .abort key => key ∈ Dict.keys r.inflight
  | _ => True

instance (r : Run Key) (op : Op Key) : Decidable (Permitted r op) :=
  match op with
  | .commit key _ => inferInstanceAs (Decidable (key ∈ Dict.keys r.inflight))
  | .abort key => inferInstanceAs (Decidable (key ∈ Dict.keys r.inflight))
  | .reserve .. => .isTrue trivial
  | .touch .. => .isTrue trivial
  | .clear => .isTrue trivial
  | .setLimits .. => .isTrue trivial

/-- The evictor in use. -/
def system (cfg : Config) : OpSystem (Run Key) (Op Key) Empty where
  step r op := .ok (r.step cfg op)
  Permitted := Permitted

instance (cfg : Config) (r : Run Key) (op : Op Key) : Decidable ((system cfg).Permitted r op) :=
  inferInstanceAs (Decidable (Permitted r op))

/-- A new evictor. -/
def start (cfg : Config) (env : Env Key) (maxSizeBytes minFreeBytes : ℤ) : Run Key :=
  ⟨State.init cfg env maxSizeBytes minFreeBytes, []⟩

/-- **The condition on the end of a write**: under eviction no other write of the key that was
reserved under eviction is in flight; without it, the write was not the only one. -/
def EndsNoted (cfg : Config) (r : Run Key) (key : Key) : Prop :=
  (key, true) ∈ r.inflight.eraseP (·.1 = key) ↔
    (key, true) ∈ r.inflight ∧ r.state.enabled cfg = false

/-- **The condition on an operation**: a write ends as its note does, none that was reserved under
eviction is forgotten, and a directory that is read has distinct files. -/
def Orderly (cfg : Config) (r : Run Key) : Op Key → Prop
  | .commit key _ => EndsNoted cfg r key
  | .abort key => EndsNoted cfg r key
  | .clear => ∀ w ∈ r.inflight, w.2 = false
  | .setLimits env _ _ => ¬r.state.enabled cfg ∧ r.state.lru = [] → DistinctFiles env
  | _ => True

instance (cfg : Config) (r : Run Key) (key : Key) : Decidable (EndsNoted cfg r key) :=
  inferInstanceAs (Decidable (_ ↔ _))

instance (cfg : Config) (r : Run Key) (op : Op Key) : Decidable (Orderly cfg r op) :=
  match op with
  | .commit key _ => inferInstanceAs (Decidable (EndsNoted cfg r key))
  | .abort key => inferInstanceAs (Decidable (EndsNoted cfg r key))
  | .clear => inferInstanceAs (Decidable (∀ w ∈ r.inflight, w.2 = false))
  | .setLimits _ _ _ => inferInstanceAs (Decidable (_ → _))
  | .reserve .. => .isTrue trivial
  | .touch .. => .isTrue trivial

/-- **The books match**: the sum is right, and the notes are of the writes in flight that were
reserved under eviction. -/
structure BooksMatch (r : Run Key) : Prop where
  total : r.state.totalBytes = bytes r.state.lru
  pending : ∀ key, key ∈ r.state.pendingWrites ↔ (key, true) ∈ r.inflight

/-- What is kept along a run. -/
structure Inv (r : Run Key) : Prop where
  books : Books r.state
  /-- The notes are of the writes in flight that were reserved under eviction. -/
  pending : ∀ key, key ∈ r.state.pendingWrites ↔ (key, true) ∈ r.inflight

/-- The end of a write: its note is erased if eviction is enabled. -/
theorem Inv.ends (h : Inv r) {key : Key} {s' : State Key} (hbooks : Books s')
    (hpending : s'.pendingWrites =
      if r.state.enabled cfg then r.state.pendingWrites.erase key else r.state.pendingWrites)
    (hends : EndsNoted cfg r key) : Inv ⟨s', r.inflight.eraseP (·.1 = key)⟩ := by
  refine ⟨hbooks, fun k => ?_⟩
  rcases eq_or_ne k key with rfl | hne
  · rw [EndsNoted] at hends
    simp only [hpending, hends]
    split
    · next henabled => simp [henabled]
    · next hdisabled => rw [h.pending k, and_iff_left (by simpa using hdisabled)]
  · -- the other keys keep their writes and their notes
    rw [List.mem_eraseP_of_neg (by simpa using hne), ← h.pending k]
    simp only [hpending]
    split
    · exact Finset.mem_erase.trans (and_iff_right hne)
    · rfl

/-- A write that is admitted. -/
theorem Inv.reserve (h : Inv r) (env : Env Key) (key : Key) (valueBytes : ℕ) :
    Inv (r.step cfg (.reserve env key valueBytes)) := by
  rw [Run.step]
  rcases reserve_cases cfg env r.state key valueBytes with ⟨s', gone, hs, hgone⟩ | ⟨hconf, hs⟩ |
    ⟨hconf, s', gone, hs, hgone, -⟩
  · rw [hs]
    exact ⟨h.books.shrinks hgone, fun k => hgone.pending ▸ h.pending k⟩
  · rw [hs, hconf]
    refine ⟨h.books, fun k => ?_⟩
    simpa using h.pending k
  · rw [hs, hconf]
    refine ⟨(h.books.shrinks hgone).admitKey key valueBytes, fun k => ?_⟩
    have hk := h.pending k
    simp only [State.admitKey, Finset.mem_insert, hgone.pending, hk, if_true, List.mem_cons,
      Prod.mk.injEq, and_true]

/-- **One operation** keeps the invariant. -/
theorem Inv.step (h : Inv r) {op : Op Key} (horderly : Orderly cfg r op) :
    Inv (r.step cfg op) := by
  cases op with
  | reserve env key valueBytes => exact h.reserve env key valueBytes
  | commit key actual =>
    exact h.ends (h.books.commit cfg key actual) (pendingWrites_commit cfg r.state key actual)
      horderly
  | abort key =>
    exact h.ends (h.books.abort cfg key) (pendingWrites_abort cfg r.state key) horderly
  | touch key size =>
    refine ⟨h.books.touch cfg key size, fun k => ?_⟩
    rw [Run.step, pendingWrites_touch]
    exact h.pending k
  | clear =>
    refine ⟨Books.clear r.state, fun k => ?_⟩
    exact ⟨fun hk => absurd hk (Finset.notMem_empty k),
      fun hk => absurd (horderly (k, true) hk) Bool.true_eq_false.mp⟩
  | setLimits env maxSizeBytes minFreeBytes =>
    refine ⟨h.books.setLimits cfg horderly maxSizeBytes minFreeBytes, fun k => ?_⟩
    rw [Run.step, pendingWrites_setLimits]
    exact h.pending k

theorem Inv.start (cfg : Config) {env : Env Key} (hfiles : DistinctFiles env)
    (maxSizeBytes minFreeBytes : ℤ) : Inv (start cfg env maxSizeBytes minFreeBytes) := by
  refine ⟨Books.init cfg hfiles maxSizeBytes minFreeBytes, fun k => ?_⟩
  rw [FileEvictor.start, pendingWrites_init]
  simp

/-- **The books match the writes in flight**, in every state that orderly operations reach. -/
theorem books_match_inflight (cfg : Config) {env : Env Key} (hfiles : DistinctFiles env)
    (maxSizeBytes minFreeBytes : ℤ)
    (hreach : (system cfg).Reaches (Orderly cfg) (start cfg env maxSizeBytes minFreeBytes) r) :
    BooksMatch r := by
  have hinv : Inv r := hreach.invariant (Inv.start cfg hfiles maxSizeBytes minFreeBytes)
    fun r op r' h _ horderly hstep => by
      cases hstep
      exact h.step horderly
  exact ⟨hinv.books.total, hinv.pending⟩

end Runs

/-- A cap is lowered while a write is in flight, and the write ends. -/
theorem books_match_inflight_lowered :
    ∃ r : Run ℕ, (system soleOwner).run (Orderly soleOwner) (start soleOwner pinnedOne 20 0)
        [.reserve pinnedOne 0 4, .touch 2 (some 3), .setLimits pinnedOne (some 10) none,
          .reserve pinnedOne 3 2, .commit 0 (some 5)] = some r ∧
      3 ∈ r.state.pendingWrites ∧ BooksMatch r := by
  have hrun : ((system soleOwner).run (Orderly soleOwner) (start soleOwner pinnedOne 20 0)
      [.reserve pinnedOne 0 4, .touch 2 (some 3), .setLimits pinnedOne (some 10) none,
        .reserve pinnedOne 3 2, .commit 0 (some 5)]).any (fun r : Run ℕ =>
      decide (3 ∈ r.state.pendingWrites)) = true := by
    decide +kernel
  obtain ⟨r, hr, hend⟩ := (Option.any_eq_true _ _).mp hrun
  have hfiles : DistinctFiles pinnedOne := by decide
  exact ⟨r, hr, of_decide_eq_true hend,
    books_match_inflight soleOwner hfiles 20 0 (OpSystem.Reaches.of_run .refl hr)⟩

/-- **A note is kept for good**: a write is reserved under a cap, the cap is lifted, and the write
is committed. Nothing is in flight, but the note of it stays, also when a cap is imposed again. -/
theorem lifted_limit_keeps_note :
    ∃ r : Run ℕ, (system soleOwner).Reaches (fun _ _ => True) (start soleOwner pinnedOne 20 0) r ∧
      DistinctFiles pinnedOne ∧ r.inflight = [] ∧ r.state.configured = true ∧
      0 ∈ r.state.pendingWrites ∧ ¬BooksMatch r := by
  have hrun : ((system soleOwner).run (fun _ _ => True) (start soleOwner pinnedOne 20 0)
      [.reserve pinnedOne 0 4, .setLimits pinnedOne (some 0) (some 0), .commit 0 (some 4),
        .setLimits pinnedOne (some 20) none]).any (fun r : Run ℕ =>
      decide (r.inflight = [] ∧ r.state.configured = true ∧ 0 ∈ r.state.pendingWrites)) = true := by
    decide +kernel
  obtain ⟨r, hr, hend⟩ := (Option.any_eq_true _ _).mp hrun
  obtain ⟨hinflight, hconf, hnote⟩ := of_decide_eq_true hend
  refine ⟨r, OpSystem.Reaches.of_run .refl hr, by decide, hinflight, hconf, hnote, fun hmatch => ?_⟩
  have hin := (hmatch.pending 0).mp hnote
  rw [hinflight] at hin
  exact absurd hin List.not_mem_nil

end FileEvictor

end HtSglang
