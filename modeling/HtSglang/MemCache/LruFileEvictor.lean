import HtSglang.Library.Dict
import HtSglang.Library.OpRun

/-!
# The file evictor

`LRUFileEvictor` (`mem_cache/storage/file/lru_file_evictor.py`) bounds the disk space of a
directory of pages. It keeps the sizes of the files in the order of their last use, and admits a
write after it has unlinked as many of the oldest files as necessary. A write has two halves: it is
reserved (`HtSglang.FileEvictor.State.reserve`), and committed or aborted when it has landed or
failed; in between its entry must not be evicted, nor may an entry that is pinned.

Entries that must stay are moved to the recent end when eviction comes across them
(`HtSglang.FileEvictor.State.evictOneLru`), and the loop has a budget of such moves, which every
eviction renews (`HtSglang.FileEvictor.evictLoop`). It ends, and evicts the oldest of the entries
that may go, one after the other, until it is told to stop or none is left
(`HtSglang.FileEvictor.evictLoop_exact`). What is used of it elsewhere is only that it moves
entries around and takes some away (`HtSglang.FileEvictor.Shrinks`).

What comes from outside is given to every operation: which files are pinned, what the file system
answers, and the time (`HtSglang.FileEvictor.Env`).
-/

namespace HtSglang

namespace FileEvictor

/-! ### State -/

/-- What is fixed at construction. -/
structure Config where
  isStorageOwner : Bool
  /-- Whether `max_size_scope` is `"shared"`. -/
  shared : Bool
  writerCount : ℤ
  /-- `int(max_size_bytes * eviction_ratio)`, as floating point computes it. -/
  watermark : ℤ → ℤ
  /-- `min_free_bytes * _FREE_SPACE_RECOVERY_FACTOR`, as floating point computes it. -/
  recovery : ℤ → ℚ

/-- The evictor. -/
structure State (Key : Type) where
  /-- `_lru`: the sizes of the files, the oldest first. -/
  lru : List (Key × ℕ)
  pendingWrites : Finset Key
  totalBytes : ℤ
  maxSizeBytes : ℤ
  minFreeBytes : ℤ
  /-- `_eviction_configured`. -/
  configured : Bool
  writeStopped : Bool
  lastFreeProbe : ℚ
  refusedSinceStop : ℕ
  /-- With a cap, eviction is configured. -/
  configured_of_pos : 0 < maxSizeBytes → configured = true

/-- How an unlink ends. -/
inductive Unlink
  /-- The file is gone now. -/
  | removed
  /-- It was gone before. -/
  | missing
  /-- It is still there. -/
  | failed
  deriving DecidableEq, Repr

/-- The calls of `statvfs`; an operation makes each of them at most once. -/
inductive Probe
  /-- To clamp the cap. -/
  | clamp
  /-- The watchdog's own. -/
  | watchdog
  /-- The watchdog, before it evicts. -/
  | watchdogBefore
  /-- The watchdog, after it has evicted. -/
  | watchdogAfter
  /-- The watchdog, once more. -/
  | watchdogAgain
  /-- The watermark, before eviction. -/
  | before
  /-- The watermark, after eviction. -/
  | after
  deriving DecidableEq, Repr

/-- What an operation is told from outside. -/
structure Env (Key : Type) where
  /-- The pin ledger. -/
  pinned : Key → Bool
  /-- What `os.remove` does to the file of a key. -/
  unlink : Key → Unlink
  /-- The total and the available bytes of the file system, where they can be asked for. -/
  fs : Probe → Option (ℤ × ℤ)
  /-- The files of this rank: their times, keys and allocated sizes. -/
  existing : List (ℚ × Key × ℕ)
  /-- `time.monotonic()`. -/
  now : ℚ

section Code

variable {Key : Type} [DecidableEq Key]

/-- `enabled`. -/
def State.enabled (cfg : Config) (s : State Key) : Bool := s.configured && cfg.isStorageOwner

/-! ### Evicting -/

/-- What happens to the oldest entry. -/
inductive Outcome (Key : Type)
  /-- It left the index, and so many bytes are reclaimed. -/
  | evicted (stem : Key) (freed : ℕ)
  /-- It must stay and is the most recent one now. -/
  | skipped
  /-- There is none, or its file could not be removed. -/
  | stop

/-- `_evict_one_lru_locked`. -/
def State.evictOneLru (env : Env Key) (s : State Key) : Outcome Key × State Key :=
  match s.lru with
  | [] => (.stop, s)
  | (evictStem, evictSize) :: rest =>
    if evictStem ∈ s.pendingWrites ∨ env.pinned evictStem then
      (.skipped, { s with lru := rest ++ [(evictStem, evictSize)] })
    else
      match env.unlink evictStem with
      | .removed => (.evicted evictStem evictSize,
          { s with lru := rest, totalBytes := s.totalBytes - evictSize })
      | .missing => (.evicted evictStem 0,
          { s with lru := rest, totalBytes := s.totalBytes - evictSize })
      | .failed => (.stop, s)

/-- An eviction leaves fewer entries, and a skipped one as many. -/
theorem State.length_evictOneLru (env : Env Key) (s s' : State Key) :
    (∀ stem freed, s.evictOneLru env = (.evicted stem freed, s') →
        s'.lru.length < s.lru.length) ∧
      (s.evictOneLru env = (.skipped, s') → s'.lru.length = s.lru.length) := by
  rw [evictOneLru]
  split
  · exact ⟨fun _ _ h => (by cases h), fun h => (by cases h)⟩
  · next stem size rest hlru =>
    rw [hlru]
    split
    · refine ⟨fun _ _ h => (by cases h), fun h => ?_⟩
      cases h
      simp
    · split
      · refine ⟨fun _ _ h => ?_, fun h => (by cases h)⟩
        cases h
        simp
      · refine ⟨fun _ _ h => ?_, fun h => (by cases h)⟩
        cases h
        simp
      · exact ⟨fun _ _ h => (by cases h), fun h => (by cases h)⟩

/-- The loop of `_evict_while`: what it leaves, the bytes that it reclaims, and the keys that it
evicts, in order. The condition sees the bytes in use and the bytes reclaimed so far. -/
def evictLoop (env : Env Key) (shouldContinue : ℤ → ℕ → Bool) (s : State Key)
    (attemptsLeft reclaimed : ℕ) : State Key × ℕ × List Key :=
  if s.lru ≠ [] ∧ 0 < attemptsLeft ∧ shouldContinue s.totalBytes reclaimed then
    match h : s.evictOneLru env with
    | (.stop, s') => (s', reclaimed, [])
    | (.skipped, s') => evictLoop env shouldContinue s' (attemptsLeft - 1) reclaimed
    | (.evicted stem freed, s') =>
      let rest := evictLoop env shouldContinue s' s'.lru.length (reclaimed + freed)
      (rest.1, rest.2.1, stem :: rest.2.2)
  else (s, reclaimed, [])
termination_by (s.lru.length, attemptsLeft)
decreasing_by
  · have hlen := (State.length_evictOneLru env s s').2 h
    rw [hlen]
    exact Prod.Lex.right _ (by omega)
  · exact Prod.Lex.left _ _ ((State.length_evictOneLru env s s').1 _ _ h)

/-- `_evict_while`. -/
def State.evictWhile (env : Env Key) (shouldContinue : ℤ → ℕ → Bool) (s : State Key) :
    State Key × ℕ × List Key :=
  evictLoop env shouldContinue s s.lru.length 0

/-- `_evict_locked`. -/
def State.evictLocked (cfg : Config) (env : Env Key) (s : State Key) (neededBytes : ℤ) :
    State Key :=
  if s.maxSizeBytes ≤ 0 then s
  else
    let target := max 0 (cfg.watermark s.maxSizeBytes - neededBytes)
    (s.evictWhile env fun totalBytes _ => totalBytes > target).1

/-- `_enforce_free_space_locked`, with its two probes. -/
def State.enforceFreeSpaceLocked (env : Env Key) (first second : Probe) (s : State Key)
    (valueBytes : ℤ) : Bool × State Key :=
  if s.minFreeBytes ≤ 0 then (true, s)
  else
    match env.fs first with
    | none => (true, s)
    | some (_, free) =>
      let s' := (s.evictWhile env fun _ reclaimed =>
        free + reclaimed - valueBytes < s.minFreeBytes).1
      match env.fs second with
      | none => (true, s')
      | some (_, free') => (decide (free' - valueBytes ≥ s.minFreeBytes), s')

/-- `_release_write_stop_locked`. -/
def State.releaseWriteStopLocked (cfg : Config) (s : State Key) (free : ℤ) : State Key :=
  if ¬s.writeStopped then s
  else if (free : ℚ) < cfg.recovery s.minFreeBytes then s
  else { s with writeStopped := false, refusedSinceStop := 0 }

/-- The part of `check_free_space` below the watermark. -/
def State.buyBackFreeSpace (cfg : Config) (env : Env Key) (s : State Key) (free : ℤ) :
    Bool × State Key :=
  let s' := (s.enforceFreeSpaceLocked env .watchdogBefore .watchdogAfter 0).2
  let free' := match env.fs .watchdogAgain with
    | some (_, free') => free'
    | none => free
  if free' ≥ s'.minFreeBytes then (true, s'.releaseWriteStopLocked cfg free')
  else if ¬s'.writeStopped then (false, { s' with writeStopped := true, refusedSinceStop := 0 })
  else (false, s')

/-- `check_free_space`, not forced. -/
def State.checkFreeSpace (cfg : Config) (env : Env Key) (s : State Key) : Bool × State Key :=
  if s.minFreeBytes ≤ 0 ∨ ¬s.enabled cfg then (true, s)
  else if env.now - s.lastFreeProbe < 5 then (!s.writeStopped, s)
  else
    let s₁ := { s with lastFreeProbe := env.now }
    match env.fs .watchdog with
    | none => (!s₁.writeStopped, s₁)
    | some (_, free) =>
      if free ≥ s₁.minFreeBytes then
        let s₂ := s₁.releaseWriteStopLocked cfg free
        (!s₂.writeStopped, s₂)
      else s₁.buyBackFreeSpace cfg env free

/-! ### The operations -/

/-- The end of `reserve`: the key is the most recent one and in flight. -/
def State.admitKey (s : State Key) (key : Key) (valueBytes : ℕ) : State Key :=
  { s with
    lru := Dict.erase s.lru key ++ [(key, valueBytes)]
    pendingWrites := insert key s.pendingWrites
    totalBytes := s.totalBytes - ((s.lru.lookup key).getD 0 : ℕ) + valueBytes }

/-- The part of `reserve` under the cap: whether there is room, after evicting for it. -/
def State.makeRoom (cfg : Config) (env : Env Key) (s : State Key) (valueBytes : ℕ) :
    Bool × State Key :=
  if s.maxSizeBytes > 0 ∧ s.totalBytes + valueBytes > s.maxSizeBytes then
    let s' := s.evictLocked cfg env valueBytes
    (decide (s'.totalBytes + valueBytes ≤ s'.maxSizeBytes), s')
  else (true, s)

/-- `reserve`. -/
def State.reserve (cfg : Config) (env : Env Key) (s : State Key) (key : Key) (valueBytes : ℕ) :
    Bool × State Key :=
  if ¬s.configured then (true, s)
  else if ¬cfg.isStorageOwner then (false, s)
  else if s.maxSizeBytes > 0 ∧ valueBytes > s.maxSizeBytes then (false, s)
  else
    match s.checkFreeSpace cfg env with
    | (false, s₁) => (false, { s₁ with refusedSinceStop := s₁.refusedSinceStop + 1 })
    | (true, s₁) =>
      match s₁.makeRoom cfg env valueBytes with
      | (false, s₂) => (false, s₂)
      | (true, s₂) =>
        if s₂.minFreeBytes > 0 then
          match s₂.enforceFreeSpaceLocked env .before .after valueBytes with
          | (false, s₃) => (false, s₃)
          | (true, s₃) => (true, s₃.admitKey key valueBytes)
        else (true, s₂.admitKey key valueBytes)

/-- `commit`; `actual` is the allocated size of the file, if it can be asked for. -/
def State.commit (cfg : Config) (s : State Key) (key : Key) (actual : Option ℕ) : State Key :=
  if ¬s.enabled cfg then s
  else
    let s₁ := { s with pendingWrites := s.pendingWrites.erase key }
    match actual, s.lru.lookup key with
    | some actual, some prev =>
      if prev ≠ actual then
        { s₁ with
          lru := Dict.set s.lru key actual
          totalBytes := s.totalBytes + (actual - prev : ℤ) }
      else s₁
    | _, _ => s₁

/-- `abort`. -/
def State.abort (cfg : Config) (s : State Key) (key : Key) : State Key :=
  if ¬s.enabled cfg then s
  else
    { s with
      lru := Dict.erase s.lru key
      pendingWrites := s.pendingWrites.erase key
      totalBytes := s.totalBytes - ((s.lru.lookup key).getD 0 : ℕ) }

/-- `touch`; `size` is the allocated size of the file, if it can be asked for. -/
def State.touch (cfg : Config) (s : State Key) (key : Key) (size : Option ℕ) : State Key :=
  if ¬s.enabled cfg then s
  else
    match s.lru.lookup key with
    | some known => { s with lru := Dict.erase s.lru key ++ [(key, known)] }
    | none =>
      match size with
      | none => s
      | some size => { s with lru := s.lru ++ [(key, size)], totalBytes := s.totalBytes + size }

/-- `clear`. -/
def State.clear (s : State Key) : State Key :=
  { s with lru := [], pendingWrites := ∅, totalBytes := 0 }

/-- `_clamp_max_size_to_fs`. -/
def State.clampMaxSizeToFs (env : Env Key) (s : State Key) : State Key :=
  match env.fs .clamp with
  | some (total, _) =>
    let safeMax := max 0 (total - s.minFreeBytes)
    if h : s.maxSizeBytes > 0 ∧ s.maxSizeBytes > safeMax then
      { s with maxSizeBytes := safeMax, configured_of_pos := fun _ => s.configured_of_pos h.1 }
    else s
  | none => s

/-- `_scan_existing_files`: the oldest file first. -/
def State.scanExistingFiles (env : Env Key) (s : State Key) : State Key :=
  (env.existing.insertionSort fun a b => a.1 ≤ b.1).foldl
    (fun s e => { s with lru := Dict.set s.lru e.2.1 e.2.2, totalBytes := s.totalBytes + e.2.2 }) s

/-- The end of `set_limits` and of the constructor: evict down to the limits. -/
def State.enforceLimits (cfg : Config) (env : Env Key) (s : State Key) : State Key :=
  let s₁ := if s.maxSizeBytes > 0 ∧ s.totalBytes > s.maxSizeBytes then s.evictLocked cfg env 0
    else s
  if s₁.minFreeBytes > 0 then (s₁.enforceFreeSpaceLocked env .before .after 0).2 else s₁

/-- A cap for the directory, as the share of this rank. -/
def Config.share (cfg : Config) (maxSizeBytes : ℤ) : ℤ :=
  if cfg.shared ∧ cfg.writerCount > 1 then max 0 maxSizeBytes / cfg.writerCount
  else max 0 maxSizeBytes

/-- The first part of `set_limits`: the limits, and whether there are any. -/
def State.withLimits (cfg : Config) (s : State Key) (maxSizeBytes minFreeBytes : Option ℤ) :
    State Key :=
  let newMax := match maxSizeBytes with
    | some m => cfg.share m
    | none => s.maxSizeBytes
  let newMin := match minFreeBytes with
    | some m => max 0 m
    | none => s.minFreeBytes
  { s with
    maxSizeBytes := newMax
    minFreeBytes := newMin
    configured := decide (newMax > 0 ∨ newMin > 0)
    configured_of_pos := fun h => decide_eq_true (Or.inl h) }

/-- `set_limits`. -/
def State.setLimits (cfg : Config) (env : Env Key) (s : State Key)
    (maxSizeBytes minFreeBytes : Option ℤ) : State Key :=
  let s₁ := s.withLimits cfg maxSizeBytes minFreeBytes
  if ¬s₁.enabled cfg then s₁
  else
    let s₂ := s₁.clampMaxSizeToFs env
    let s₃ := if ¬s.enabled cfg ∧ s₂.lru = [] then s₂.scanExistingFiles env else s₂
    let s₄ := s₃.enforceLimits cfg env
    { s₄ with
      writeStopped := if s₄.minFreeBytes > 0 then s₄.writeStopped else false
      lastFreeProbe := 0 }

/-- The constructor, from the sizes that the configuration gives. -/
def State.init (cfg : Config) (env : Env Key) (maxSizeBytes minFreeBytes : ℤ) : State Key :=
  let s : State Key :=
    { lru := []
      pendingWrites := ∅
      totalBytes := 0
      maxSizeBytes := cfg.share maxSizeBytes
      minFreeBytes := max 0 minFreeBytes
      configured := decide (cfg.share maxSizeBytes > 0 ∨ max 0 minFreeBytes > 0)
      writeStopped := false
      lastFreeProbe := 0
      refusedSinceStop := 0
      configured_of_pos := fun h => decide_eq_true (Or.inl h) }
  if ¬s.enabled cfg then s
  else ((s.clampMaxSizeToFs env).scanExistingFiles env).enforceLimits cfg env

end Code

/-! ### What eviction takes away -/

section Shrinks

variable {Key : Type} {s s' s'' : State Key}

/-- The bytes of some entries. -/
def bytes (entries : List (Key × ℕ)) : ℕ := (entries.map Prod.snd).sum

@[simp] theorem bytes_nil : bytes ([] : List (Key × ℕ)) = 0 := rfl

@[simp] theorem bytes_cons (e : Key × ℕ) (l : List (Key × ℕ)) : bytes (e :: l) = e.2 + bytes l := by
  simp [bytes]

@[simp] theorem bytes_append (l l' : List (Key × ℕ)) : bytes (l ++ l') = bytes l + bytes l' := by
  simp [bytes]

theorem bytes_perm {l l' : List (Key × ℕ)} (h : l.Perm l') : bytes l = bytes l' :=
  (h.map Prod.snd).sum_eq

/-- **What an eviction leaves**: some entries are gone, none of them in flight, and the others are
there, in whatever order. -/
structure Shrinks (s s' : State Key) (gone : List (Key × ℕ)) : Prop where
  perm : s.lru.Perm (gone ++ s'.lru)
  total : s'.totalBytes = s.totalBytes - bytes gone
  notPending : ∀ e ∈ gone, e.1 ∉ s.pendingWrites
  pending : s'.pendingWrites = s.pendingWrites
  maxSize : s'.maxSizeBytes = s.maxSizeBytes
  minFree : s'.minFreeBytes = s.minFreeBytes
  configured : s'.configured = s.configured

theorem Shrinks.refl (s : State Key) : Shrinks s s [] :=
  ⟨List.Perm.refl _, by simp, by simp, rfl, rfl, rfl, rfl⟩

theorem Shrinks.trans {gone gone' : List (Key × ℕ)} (h : Shrinks s s' gone)
    (h' : Shrinks s' s'' gone') : Shrinks s s'' (gone ++ gone') := by
  refine ⟨?_, ?_, fun e he => ?_, h'.pending.trans h.pending, h'.maxSize.trans h.maxSize,
    h'.minFree.trans h.minFree, h'.configured.trans h.configured⟩
  · rw [List.append_assoc]
    exact h.perm.trans (h'.perm.append_left gone)
  · rw [h'.total, h.total, bytes_append]
    omega
  · rcases List.mem_append.mp he with he | he
    · exact h.notPending e he
    · exact h.pending ▸ h'.notPending e he

/-- The notes of the watchdog are nothing that evictions are about. -/
theorem Shrinks.notes {gone : List (Key × ℕ)} (h : Shrinks s s' gone) (stopped : Bool)
    (probe : ℚ) (refused : ℕ) : Shrinks s { s' with
      writeStopped := stopped
      lastFreeProbe := probe
      refusedSinceStop := refused } gone :=
  ⟨h.perm, h.total, h.notPending, h.pending, h.maxSize, h.minFree, h.configured⟩

theorem releaseWriteStopLocked_shrinks (cfg : Config) (s : State Key) (free : ℤ) :
    Shrinks s (s.releaseWriteStopLocked cfg free) [] := by
  rw [State.releaseWriteStopLocked]
  split
  · exact Shrinks.refl s
  split
  · exact Shrinks.refl s
  · exact (Shrinks.refl s).notes false s.lastFreeProbe 0

variable [DecidableEq Key]

/-- **One round** skips the oldest entry, evicts it, or leaves everything as it is. -/
theorem evictOneLru_cases (env : Env Key) (s : State Key) :
    ((s.lru = [] ∨ ∃ key, env.unlink key = .failed) ∧ s.evictOneLru env = (.stop, s)) ∨
    (∃ e rest, s.lru = e :: rest ∧ (e.1 ∈ s.pendingWrites ∨ env.pinned e.1 = true) ∧
      s.evictOneLru env = (.skipped, { s with lru := rest ++ [e] })) ∨
    (∃ e rest freed, s.lru = e :: rest ∧ e.1 ∉ s.pendingWrites ∧ env.pinned e.1 = false ∧
      (env.unlink e.1 = .removed → freed = e.2) ∧
      s.evictOneLru env = (.evicted e.1 freed,
        { s with lru := rest, totalBytes := s.totalBytes - e.2 })) := by
  rw [State.evictOneLru]
  split
  · next hlru => exact Or.inl ⟨Or.inl hlru, rfl⟩
  · next stem size rest hlru =>
    split
    · next hstay => exact Or.inr (Or.inl ⟨(stem, size), rest, hlru, hstay, rfl⟩)
    · next hstay =>
      rw [not_or, Bool.not_eq_true] at hstay
      split
      · exact Or.inr (Or.inr ⟨(stem, size), rest, size, hlru, hstay.1, hstay.2, fun _ => rfl, rfl⟩)
      · next hmissing =>
        refine Or.inr (Or.inr ⟨(stem, size), rest, 0, hlru, hstay.1, hstay.2, fun hremoved => ?_,
          rfl⟩)
        cases hmissing.symm.trans hremoved
      · next hfailed => exact Or.inl ⟨Or.inr ⟨stem, hfailed⟩, rfl⟩

/-- What one round takes away. -/
theorem evictOneLru_shrinks (env : Env Key) (s : State Key) :
    ∃ gone, Shrinks s (s.evictOneLru env).2 gone := by
  rcases evictOneLru_cases env s with ⟨-, h⟩ | ⟨e, rest, hlru, -, h⟩ |
    ⟨e, rest, freed, hlru, hp, -, -, h⟩
  · rw [h]
    exact ⟨[], Shrinks.refl s⟩
  · rw [h]
    refine ⟨[], ?_, by simp, by simp, rfl, rfl, rfl, rfl⟩
    rw [hlru, List.nil_append]
    exact (List.perm_append_singleton e rest).symm
  · rw [h]
    refine ⟨[e], ?_, by simp, fun e' he' => ?_, rfl, rfl, rfl, rfl⟩
    · rw [hlru]
      exact List.Perm.refl _
    · rw [List.mem_singleton.mp he']
      exact hp

/-- **The loop takes entries away.** -/
theorem evictLoop_shrinks (env : Env Key) (shouldContinue : ℤ → ℕ → Bool) (s : State Key)
    (attemptsLeft reclaimed : ℕ) :
    ∃ gone, Shrinks s (evictLoop env shouldContinue s attemptsLeft reclaimed).1 gone := by
  fun_induction evictLoop env shouldContinue s attemptsLeft reclaimed with
  | case1 s attempts reclaimed hgo s' h =>
    have hround := evictOneLru_shrinks env s
    rwa [h] at hround
  | case2 s attempts reclaimed hgo s' h ih =>
    obtain ⟨gone, hround⟩ := evictOneLru_shrinks env s
    obtain ⟨gone', hrest⟩ := ih
    rw [h] at hround
    exact ⟨_, hround.trans hrest⟩
  | case3 s attempts reclaimed hgo stem freed s' h rest ih =>
    obtain ⟨gone, hround⟩ := evictOneLru_shrinks env s
    obtain ⟨gone', hrest⟩ := ih
    rw [h] at hround
    exact ⟨_, hround.trans hrest⟩
  | case4 s attempts reclaimed hstop => exact ⟨[], Shrinks.refl s⟩

theorem evictLocked_shrinks (cfg : Config) (env : Env Key) (s : State Key) (neededBytes : ℤ) :
    ∃ gone, Shrinks s (s.evictLocked cfg env neededBytes) gone := by
  rw [State.evictLocked]
  split
  · exact ⟨[], Shrinks.refl s⟩
  · exact evictLoop_shrinks env _ s _ _

theorem enforceFreeSpaceLocked_shrinks (env : Env Key) (first second : Probe) (s : State Key)
    (valueBytes : ℤ) :
    ∃ gone, Shrinks s (s.enforceFreeSpaceLocked env first second valueBytes).2 gone := by
  rw [State.enforceFreeSpaceLocked]
  split
  · exact ⟨[], Shrinks.refl s⟩
  split
  · exact ⟨[], Shrinks.refl s⟩
  split
  · exact evictLoop_shrinks env _ s _ _
  · exact evictLoop_shrinks env _ s _ _

theorem buyBackFreeSpace_shrinks (cfg : Config) (env : Env Key) (s : State Key) (free : ℤ) :
    ∃ gone, Shrinks s (s.buyBackFreeSpace cfg env free).2 gone := by
  obtain ⟨gone, hgone⟩ := enforceFreeSpaceLocked_shrinks env .watchdogBefore .watchdogAfter s 0
  generalize hs : (s.enforceFreeSpaceLocked env .watchdogBefore .watchdogAfter 0).2 = s' at hgone
  -- Whatever the last probe says, nothing but the notes changes any more.
  have hend : ∀ free' : ℤ, ∃ gone, Shrinks s (if free' ≥ s'.minFreeBytes then
      (true, s'.releaseWriteStopLocked cfg free') else if ¬s'.writeStopped then
      (false, { s' with writeStopped := true, refusedSinceStop := 0 }) else (false, s')).2
        gone := by
    intro free'
    split
    · exact ⟨_, hgone.trans (releaseWriteStopLocked_shrinks cfg _ _)⟩
    split
    · exact ⟨gone, hgone.notes true s'.lastFreeProbe 0⟩
    · exact ⟨gone, hgone⟩
  subst hs
  exact hend _

theorem checkFreeSpace_shrinks (cfg : Config) (env : Env Key) (s : State Key) :
    ∃ gone, Shrinks s (s.checkFreeSpace cfg env).2 gone := by
  have hnoted := (Shrinks.refl s).notes s.writeStopped env.now s.refusedSinceStop
  rw [State.checkFreeSpace]
  split
  · exact ⟨[], Shrinks.refl s⟩
  split
  · exact ⟨[], Shrinks.refl s⟩
  simp only
  split
  · exact ⟨[], hnoted⟩
  split
  · exact ⟨_, hnoted.trans (releaseWriteStopLocked_shrinks cfg _ _)⟩
  · obtain ⟨gone, hgone⟩ := buyBackFreeSpace_shrinks cfg env { s with lastFreeProbe := env.now } _
    exact ⟨_, hnoted.trans hgone⟩

theorem makeRoom_shrinks (cfg : Config) (env : Env Key) (s : State Key) (valueBytes : ℕ) :
    ∃ gone, Shrinks s (s.makeRoom cfg env valueBytes).2 gone := by
  rw [State.makeRoom]
  split
  · exact evictLocked_shrinks cfg env s valueBytes
  · exact ⟨[], Shrinks.refl s⟩

/-- Room that was made is there. -/
theorem makeRoom_fits (cfg : Config) (env : Env Key) (s : State Key) (valueBytes : ℕ)
    (hroom : (s.makeRoom cfg env valueBytes).1 = true) (hmax : 0 < s.maxSizeBytes) :
    (s.makeRoom cfg env valueBytes).2.totalBytes + valueBytes ≤ s.maxSizeBytes := by
  obtain ⟨gone, hgone⟩ := evictLocked_shrinks cfg env s valueBytes
  rw [State.makeRoom] at hroom ⊢
  by_cases hfull : s.maxSizeBytes > 0 ∧ s.totalBytes + valueBytes > s.maxSizeBytes
  · rw [if_pos hfull] at hroom ⊢
    rw [← hgone.maxSize]
    exact of_decide_eq_true hroom
  · rw [if_neg hfull]
    simp only
    omega

theorem enforceLimits_shrinks (cfg : Config) (env : Env Key) (s : State Key) :
    ∃ gone, Shrinks s (s.enforceLimits cfg env) gone := by
  have hfree : ∀ s₁ gone, Shrinks s s₁ gone → ∃ gone', Shrinks s
      (if s₁.minFreeBytes > 0 then (s₁.enforceFreeSpaceLocked env .before .after 0).2 else s₁)
      gone' := by
    intro s₁ gone hgone
    split
    · obtain ⟨gone', hgone'⟩ := enforceFreeSpaceLocked_shrinks env .before .after s₁ 0
      exact ⟨_, hgone.trans hgone'⟩
    · exact ⟨gone, hgone⟩
  rw [State.enforceLimits]
  by_cases hcap : s.maxSizeBytes > 0 ∧ s.totalBytes > s.maxSizeBytes
  · obtain ⟨gone, hgone⟩ := evictLocked_shrinks cfg env s 0
    rw [if_pos hcap]
    exact hfree _ gone hgone
  · rw [if_neg hcap]
    exact hfree s [] (Shrinks.refl s)

/-- **What a reservation does**: it is refused, and entries may be gone; or it is admitted without
a look, because eviction is not configured; or entries may be gone, and the key is in. In the last
case the key fits under a cap. -/
theorem reserve_cases (cfg : Config) (env : Env Key) (s : State Key) (key : Key)
    (valueBytes : ℕ) :
    (∃ s' gone, s.reserve cfg env key valueBytes = (false, s') ∧ Shrinks s s' gone) ∨
    (s.configured = false ∧ s.reserve cfg env key valueBytes = (true, s)) ∨
    (s.configured = true ∧ ∃ s' gone,
      s.reserve cfg env key valueBytes = (true, s'.admitKey key valueBytes) ∧ Shrinks s s' gone ∧
        (0 < s.maxSizeBytes → s'.totalBytes + valueBytes ≤ s.maxSizeBytes)) := by
  rw [State.reserve]
  split
  · next hconf => exact Or.inr (Or.inl ⟨by simpa using hconf, rfl⟩)
  next hconf =>
  split
  · exact Or.inl ⟨s, [], rfl, Shrinks.refl s⟩
  split
  · exact Or.inl ⟨s, [], rfl, Shrinks.refl s⟩
  obtain ⟨gone₁, h₁⟩ := checkFreeSpace_shrinks cfg env s
  split
  · next s₁ hcheck =>
    rw [hcheck] at h₁
    exact Or.inl ⟨_, gone₁, rfl, h₁.notes s₁.writeStopped s₁.lastFreeProbe _⟩
  next s₁ hcheck =>
  rw [hcheck] at h₁
  obtain ⟨gone₂, h₂⟩ := makeRoom_shrinks cfg env s₁ valueBytes
  have hroom := makeRoom_fits cfg env s₁ valueBytes
  split
  · next s₂ hmake =>
    rw [hmake] at h₂
    exact Or.inl ⟨s₂, _, rfl, h₁.trans h₂⟩
  next s₂ hmake =>
  rw [hmake] at h₂ hroom
  have h₁₂ := h₁.trans h₂
  have hfits : 0 < s.maxSizeBytes → s₂.totalBytes + valueBytes ≤ s.maxSizeBytes := by
    rw [← h₁.maxSize]
    exact hroom rfl
  split
  · obtain ⟨gone₃, h₃⟩ := enforceFreeSpaceLocked_shrinks env .before .after s₂ (valueBytes : ℤ)
    split
    · next s₃ hfree =>
      rw [hfree] at h₃
      exact Or.inl ⟨s₃, _, rfl, h₁₂.trans h₃⟩
    · next s₃ hfree =>
      rw [hfree] at h₃
      refine Or.inr (Or.inr ⟨by simpa using hconf, s₃, _, rfl, h₁₂.trans h₃, fun hmax => ?_⟩)
      have htotal := h₃.total
      have hle := hfits hmax
      simp only at htotal
      omega
  · exact Or.inr (Or.inr ⟨by simpa using hconf, s₂, _, rfl, h₁₂, hfits⟩)

end Shrinks

/-! ### What eviction takes, exactly -/

section Exact

variable {Key : Type} [DecidableEq Key] {env : Env Key} {shouldContinue : ℤ → ℕ → Bool}
  {s s' : State Key}

/-- Whether an entry may go: it is neither in flight nor pinned. -/
def State.mayGo (env : Env Key) (s : State Key) (e : Key × ℕ) : Bool :=
  decide (e.1 ∉ s.pendingWrites) && !env.pinned e.1

/-- The entries that may go, the oldest first. -/
def State.evictable (env : Env Key) (s : State Key) : List (Key × ℕ) :=
  s.lru.filter (s.mayGo env)

theorem State.mayGo_eq_true_iff (e : Key × ℕ) :
    s.mayGo env e = true ↔ e.1 ∉ s.pendingWrites ∧ env.pinned e.1 = false := by
  simp [State.mayGo]

theorem State.mayGo_eq_false (e : Key × ℕ) (h : e.1 ∈ s.pendingWrites ∨ env.pinned e.1 = true) :
    s.mayGo env e = false := by
  rw [← Bool.not_eq_true, State.mayGo_eq_true_iff]
  rintro ⟨hpending, hpinned⟩
  rcases h with h | h
  · exact hpending h
  · exact Bool.noConfusion (hpinned.symm.trans h)

/-- **The first `k` of the entries that may go are gone**, and it had to be `k` of them: before
each of them the condition asked for more, and after them it does not, or there are none left. -/
structure EvictsOldest (env : Env Key) (shouldContinue : ℤ → ℕ → Bool) (s : State Key)
    (reclaimed : ℕ) (result : State Key × ℕ × List Key) (k : ℕ) : Prop where
  le : k ≤ (s.evictable env).length
  evicted : result.2.2 = ((s.evictable env).take k).map Prod.fst
  freed : result.2.1 = reclaimed + bytes ((s.evictable env).take k)
  total : result.1.totalBytes = s.totalBytes - bytes ((s.evictable env).take k)
  /-- All others stay: those that may go, and those that must not. -/
  left : result.1.lru.Perm
    ((s.evictable env).drop k ++ s.lru.filter fun e => !s.mayGo env e)
  pending : result.1.pendingWrites = s.pendingWrites
  /-- Each of them was asked for. -/
  asked : ∀ j < k, shouldContinue (s.totalBytes - bytes ((s.evictable env).take j))
    (reclaimed + bytes ((s.evictable env).take j)) = true
  /-- No more is asked for, or nothing is left. -/
  enough : k = (s.evictable env).length ∨
    shouldContinue (s.totalBytes - bytes ((s.evictable env).take k))
      (reclaimed + bytes ((s.evictable env).take k)) = false

/-- Nothing is evicted where nothing may go, or nothing is asked for. -/
theorem EvictsOldest.none (reclaimed : ℕ)
    (h : s.evictable env = [] ∨ shouldContinue s.totalBytes reclaimed = false) :
    EvictsOldest env shouldContinue s reclaimed (s, reclaimed, []) 0 := by
  refine ⟨Nat.zero_le _, rfl, by simp, by simp, ?_, rfl, fun j hj => absurd hj (Nat.not_lt_zero j),
    ?_⟩
  · rw [List.drop_zero]
    exact (List.filter_append_perm _ _).symm
  · rcases h with h | h
    · exact Or.inl (by rw [h]; rfl)
    · exact Or.inr (by simpa using h)

/-- An entry that must stay may be moved to the recent end first. -/
theorem EvictsOldest.skip {e : Key × ℕ} {rest : List (Key × ℕ)} {reclaimed k : ℕ}
    {result : State Key × ℕ × List Key} (hlru : s.lru = e :: rest) (hstay : s.mayGo env e = false)
    (h : EvictsOldest env shouldContinue { s with lru := rest ++ [e] } reclaimed result k) :
    EvictsOldest env shouldContinue s reclaimed result k := by
  have hsame : State.evictable env { s with lru := rest ++ [e] } = s.evictable env := by
    rw [State.evictable, State.evictable, hlru]
    change (rest ++ [e]).filter (s.mayGo env) = _
    rw [List.filter_append, List.filter_cons_of_neg (by simp [hstay]),
      List.filter_cons_of_neg (by simp [hstay]), List.filter_nil, List.append_nil]
  have hothers : ((rest ++ [e]).filter fun e => !s.mayGo env e).Perm
      (s.lru.filter fun e => !s.mayGo env e) := by
    rw [hlru]
    exact (List.perm_append_singleton e rest).filter _
  obtain ⟨hle, hevicted, hreclaimed, htotal, hleft, hpending, hasked, henough⟩ := h
  rw [hsame] at hle hevicted hreclaimed htotal hleft henough
  simp only [hsame] at hasked
  exact ⟨hle, hevicted, hreclaimed, htotal, hleft.trans (hothers.append_left _), hpending, hasked,
    henough⟩

/-- The oldest entry may go first, if it is asked for. -/
theorem EvictsOldest.evict {e : Key × ℕ} {rest : List (Key × ℕ)} {reclaimed k : ℕ}
    {result : State Key × ℕ × List Key} (hlru : s.lru = e :: rest) (hgo : s.mayGo env e = true)
    (hasks : shouldContinue s.totalBytes reclaimed = true)
    (h : EvictsOldest env shouldContinue
      { s with lru := rest, totalBytes := s.totalBytes - e.2 } (reclaimed + e.2) result k) :
    EvictsOldest env shouldContinue s reclaimed (result.1, result.2.1, e.1 :: result.2.2)
      (k + 1) := by
  have hnext : s.evictable env =
      e :: State.evictable env { s with lru := rest, totalBytes := s.totalBytes - e.2 } := by
    rw [State.evictable, hlru, List.filter_cons_of_pos hgo]
    rfl
  have hothers : s.lru.filter (fun e => !s.mayGo env e) = rest.filter fun e => !s.mayGo env e := by
    rw [hlru, List.filter_cons_of_neg (by simp [hgo])]
  generalize hE : State.evictable env { s with lru := rest, totalBytes := s.totalBytes - e.2 } = E
    at h hnext
  obtain ⟨hle, hevicted, hreclaimed, htotal, hleft, hpending, hasked, henough⟩ := h
  rw [hE] at hle hevicted hreclaimed htotal hleft henough
  simp only [hE] at hasked
  -- What the condition sees after the entry and `j` more.
  have hsees : ∀ j, (s.totalBytes - (bytes ((e :: E).take (j + 1)) : ℕ) =
      s.totalBytes - e.2 - (bytes (E.take j) : ℕ)) ∧
      reclaimed + bytes ((e :: E).take (j + 1)) = reclaimed + e.2 + bytes (E.take j) := by
    intro j
    rw [List.take_succ_cons, bytes_cons]
    omega
  refine ⟨?_, ?_, ?_, ?_, ?_, hpending, ?_, ?_⟩
  · rw [hnext, List.length_cons]
    omega
  · rw [hnext, List.take_succ_cons, List.map_cons, hevicted]
  · rw [hnext, (hsees k).2, hreclaimed]
  · rw [hnext, (hsees k).1, htotal]
  · rw [hnext, List.drop_succ_cons, hothers]
    exact hleft
  · intro j hj
    rw [hnext]
    cases j with
    | zero => simpa using hasks
    | succ j =>
      rw [(hsees j).1, (hsees j).2]
      exact hasked j (by omega)
  · rw [hnext, (hsees k).1, (hsees k).2, List.length_cons]
    exact henough.imp (fun h => by omega) id

/-- **The loop evicts the oldest entries that may go.** The budget is enough for the entries that
it has not come across since the last eviction, `todo`; the others must stay. -/
theorem evictLoop_exact (env : Env Key) (shouldContinue : ℤ → ℕ → Bool)
    (hremoved : ∀ key, env.unlink key = .removed) (s : State Key) (attemptsLeft reclaimed : ℕ) :
    ∀ todo skipped, s.lru = todo ++ skipped → (∀ e ∈ skipped, s.mayGo env e = false) →
      todo.length ≤ attemptsLeft → ∃ k, EvictsOldest env shouldContinue s reclaimed
        (evictLoop env shouldContinue s attemptsLeft reclaimed) k := by
  fun_induction evictLoop env shouldContinue s attemptsLeft reclaimed with
  | case1 s attempts reclaimed hgo s' h =>
    rcases evictOneLru_cases env s with ⟨hstop | ⟨key, hfailed⟩, -⟩ | ⟨_, _, _, -, hskip⟩ |
      ⟨_, _, _, _, -, -, -, hevict⟩
    · exact absurd hstop hgo.1
    · cases (hremoved key).symm.trans hfailed
    · cases hskip.symm.trans h
    · cases hevict.symm.trans h
  | case2 s attempts reclaimed hgo s' h ih =>
    intro todo skipped hlru hskipped hbudget
    rcases evictOneLru_cases env s with ⟨-, hstop⟩ | ⟨e, rest, hhead, hstay, hskip⟩ |
      ⟨_, _, _, _, -, -, -, hevict⟩
    · cases hstop.symm.trans h
    · cases hskip.symm.trans h
      have hmust := State.mayGo_eq_false e hstay
      -- The entry is the first to do, or all have been skipped and it comes up once more.
      have hrotated : ∃ todo' skipped', rest ++ [e] = todo' ++ skipped' ∧
          (∀ e ∈ skipped', s.mayGo env e = false) ∧ todo'.length ≤ attempts - 1 := by
        cases todo with
        | nil =>
          have hrest : e :: rest = skipped := hhead.symm.trans hlru
          refine ⟨[], rest ++ [e], rfl, fun e' he' => hskipped e' ?_, Nat.zero_le _⟩
          rw [← hrest]
          exact (List.perm_append_singleton e rest).mem_iff.mp he'
        | cons first todo =>
          obtain ⟨rfl, rfl⟩ := List.cons.inj (hhead.symm.trans hlru)
          refine ⟨todo, skipped ++ [e], List.append_assoc _ _ _, fun e' he' => ?_, ?_⟩
          · rcases List.mem_append.mp he' with he' | he'
            · exact hskipped e' he'
            · rw [List.mem_singleton.mp he']
              exact hmust
          · rw [List.length_cons] at hbudget
            omega
      obtain ⟨todo', skipped', hsplit, hskipped', hbudget'⟩ := hrotated
      obtain ⟨k, hk⟩ := ih todo' skipped' hsplit hskipped' hbudget'
      exact ⟨k, hk.skip hhead hmust⟩
    · cases hevict.symm.trans h
  | case3 s attempts reclaimed hgo stem freed s' h rest ih =>
    intro todo skipped hlru hskipped hbudget
    rcases evictOneLru_cases env s with ⟨-, hstop⟩ | ⟨_, _, _, -, hskip⟩ |
      ⟨e, others, freed, hhead, hpending, hpinned, hfreed, hevict⟩
    · cases hstop.symm.trans h
    · cases hskip.symm.trans h
    · cases hevict.symm.trans h
      obtain ⟨k, hk⟩ := ih others [] (List.append_nil others).symm (by simp) le_rfl
      have hmay := (State.mayGo_eq_true_iff e).mpr ⟨hpending, hpinned⟩
      have hwhole := hfreed (hremoved e.1)
      subst hwhole
      exact ⟨k + 1, hk.evict hhead hmay hgo.2.2⟩
  | case4 s attempts reclaimed hstop =>
    intro todo skipped hlru hskipped hbudget
    refine ⟨0, EvictsOldest.none reclaimed ?_⟩
    rw [not_and_or, not_and_or, ne_eq, not_not, Bool.not_eq_true] at hstop
    rcases hstop with hempty | hspent | hasks
    · left
      rw [State.evictable, hempty, List.filter_nil]
    · left
      have htodo : todo = [] := List.length_eq_zero_iff.mp (by omega)
      rw [State.evictable, hlru, htodo, List.nil_append, List.filter_eq_nil_iff]
      intro e he
      rw [hskipped e he]
      exact Bool.false_ne_true
    · exact Or.inr hasks

/-- What `_evict_while` evicts. -/
theorem evictWhile_exact (env : Env Key) (shouldContinue : ℤ → ℕ → Bool)
    (hremoved : ∀ key, env.unlink key = .removed) (s : State Key) :
    ∃ k, EvictsOldest env shouldContinue s 0 (s.evictWhile env shouldContinue) k :=
  evictLoop_exact env shouldContinue hremoved s s.lru.length 0 s.lru []
    (List.append_nil s.lru).symm (by simp) le_rfl

/-- What is evicted was allowed to go. -/
theorem EvictsOldest.mayGo {reclaimed k : ℕ} {result : State Key × ℕ × List Key}
    (h : EvictsOldest env shouldContinue s reclaimed result k) :
    ∀ key ∈ result.2.2, key ∉ s.pendingWrites ∧ env.pinned key = false := by
  intro key hkey
  rw [h.evicted] at hkey
  obtain ⟨e, he, rfl⟩ := List.mem_map.mp hkey
  exact (State.mayGo_eq_true_iff e).mp (List.mem_filter.mp (List.mem_of_mem_take he)).2

theorem reserve_maxSizeBytes (cfg : Config) (env : Env Key) (s : State Key) (key : Key)
    (valueBytes : ℕ) : (s.reserve cfg env key valueBytes).2.maxSizeBytes = s.maxSizeBytes := by
  rcases reserve_cases cfg env s key valueBytes with ⟨s', gone, h, hgone⟩ | ⟨-, h⟩ |
    ⟨-, s', gone, h, hgone, -⟩
  · rw [h]
    exact hgone.maxSize
  · rw [h]
  · rw [h]
    exact hgone.maxSize

/-- **A key that is admitted under a cap is in under the cap.** -/
theorem reserve_le_max (cfg : Config) (env : Env Key) (s : State Key) (key : Key)
    (valueBytes : ℕ) (hmax : 0 < s.maxSizeBytes)
    (hadmitted : (s.reserve cfg env key valueBytes).1 = true) :
    (s.reserve cfg env key valueBytes).2.totalBytes ≤ s.maxSizeBytes := by
  rcases reserve_cases cfg env s key valueBytes with ⟨s', gone, h, -⟩ | ⟨hconf, -⟩ |
    ⟨-, s', gone, h, -, hfits⟩
  · rw [h] at hadmitted
    exact absurd hadmitted Bool.false_ne_true
  · exact absurd (hconf.symm.trans (s.configured_of_pos hmax)) Bool.false_ne_true
  · rw [h]
    have hle := hfits hmax
    simp only [State.admitKey]
    omega

/-- **A key that is refused is not added**, nor is anything else. -/
theorem reserve_refused (cfg : Config) (env : Env Key) (s : State Key) (key : Key)
    (valueBytes : ℕ) (hrefused : (s.reserve cfg env key valueBytes).1 = false) :
    ∀ e ∈ (s.reserve cfg env key valueBytes).2.lru, e ∈ s.lru := by
  rcases reserve_cases cfg env s key valueBytes with ⟨s', gone, h, hgone⟩ | ⟨-, h⟩ |
    ⟨-, s', gone, h, -, -⟩
  · rw [h]
    intro e he
    exact hgone.perm.mem_iff.mpr (List.mem_append_right gone he)
  · rw [h] at hrefused
    cases hrefused
  · rw [h] at hrefused
    cases hrefused

/-- **Eviction takes the necessary entries.** If every unlink succeeds, `_evict_while` evicts
exactly the oldest of the entries that are neither in flight nor pinned, as many as it takes until
its condition fails, or all of them; hence never one that is in flight or pinned. A reservation
that is admitted under a cap leaves the bytes in use under it, and one that is refused adds
nothing. -/
theorem evicts_necessary_entries (cfg : Config) (env : Env Key) (s : State Key) :
    ((∀ key, env.unlink key = .removed) → ∀ shouldContinue : ℤ → ℕ → Bool,
      (∃ k, EvictsOldest env shouldContinue s 0 (s.evictWhile env shouldContinue) k) ∧
        ∀ key ∈ (s.evictWhile env shouldContinue).2.2,
          key ∉ s.pendingWrites ∧ env.pinned key = false) ∧
    ∀ key valueBytes,
      (0 < s.maxSizeBytes → (s.reserve cfg env key valueBytes).1 = true →
        (s.reserve cfg env key valueBytes).2.totalBytes ≤
          (s.reserve cfg env key valueBytes).2.maxSizeBytes) ∧
      ((s.reserve cfg env key valueBytes).1 = false →
        ∀ e ∈ (s.reserve cfg env key valueBytes).2.lru, e ∈ s.lru) := by
  refine ⟨fun hremoved shouldContinue => ?_, fun key valueBytes => ⟨fun hmax hadmitted => ?_,
    reserve_refused cfg env s key valueBytes⟩⟩
  · obtain ⟨k, hk⟩ := evictWhile_exact env shouldContinue hremoved s
    exact ⟨⟨k, hk⟩, hk.mayGo⟩
  · rw [reserve_maxSizeBytes]
    exact reserve_le_max cfg env s key valueBytes hmax hadmitted

/-- A rank that owns its storage, with a cap that is its own and no slack. -/
def soleOwner : Config :=
  { isStorageOwner := true
    shared := false
    writerCount := 1
    watermark := id
    recovery := fun minFreeBytes => minFreeBytes }

/-- Nothing is pinned but the key 1, every file can be removed, and there is nothing on disk. -/
def pinnedOne : Env ℕ :=
  { pinned := fun key => key == 1
    unlink := fun _ => .removed
    fs := fun _ => none
    existing := []
    now := 0 }

/-- Four files under a cap of 20 bytes; 0 is in flight. -/
def fourFiles : State ℕ :=
  { lru := [(0, 4), (1, 3), (2, 5), (3, 2)]
    pendingWrites := {0}
    totalBytes := 14
    maxSizeBytes := 20
    minFreeBytes := 0
    configured := true
    writeStopped := false
    lastFreeProbe := 0
    refusedSinceStop := 0
    configured_of_pos := fun _ => rfl }

theorem evicts_necessary_entries_fourFiles :
    (∃ k, EvictsOldest pinnedOne (fun totalBytes _ => totalBytes > 10) fourFiles 0
      (fourFiles.evictWhile pinnedOne fun totalBytes _ => totalBytes > 10) k) ∧
    (fourFiles.reserve soleOwner pinnedOne 4 6).2.totalBytes ≤
      (fourFiles.reserve soleOwner pinnedOne 4 6).2.maxSizeBytes ∧
    ∀ e ∈ (fourFiles.reserve soleOwner pinnedOne 4 21).2.lru, e ∈ fourFiles.lru :=
  ⟨((evicts_necessary_entries soleOwner pinnedOne fourFiles).1 (fun _ => rfl) _).1,
    ((evicts_necessary_entries soleOwner pinnedOne fourFiles).2 4 6).1 (by decide) (by decide),
    ((evicts_necessary_entries soleOwner pinnedOne fourFiles).2 4 21).2 (by decide)⟩

end Exact

end FileEvictor

end HtSglang
