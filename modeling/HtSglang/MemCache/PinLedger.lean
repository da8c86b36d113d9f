import HtSglang.Library.Dict
import HtSglang.Library.OpRun

/-!
# The pin ledger

A checkpoint pins the store entries it references, so that eviction skips them. The
ledger (`HtSglang.PinLedger.Ledger`) keeps three indexes – which checkpoints hold a
stem, the size of a stem, which stems a checkpoint references – and one file per
checkpoint from which a later process rebuilds them. A store
(`HtSglang.PinLedger.Store`) is the ledger with its directory.

What the ledger is for is much less: a partial map from checkpoints to what each of them
references. `HtSglang.PinLedger.Represents` says that the indexes are those of such a
map, and each operation acts on the map as it should
(`HtSglang.PinLedger.Represents.install`, `HtSglang.PinLedger.Represents.release`,
`HtSglang.PinLedger.represents_load`) – with one exception. `_install` overwrites what a
checkpoint references but never takes the checkpoint out of the holders of a stem it no
longer references, so a checkpoint that is pinned again must reference at least what it
did. `_install` also overwrites the size of a stem that is already pinned, which the
budget check before it does not count.

The file of a checkpoint is the path that its name makes with `pin_dir`, and the name is not looked
at: `./a` makes the path of `a`, and `c/d` one in a directory that is not there, on which the write
fails after the indexes have changed. Which name of the directory a path leads to is a parameter,
`pinEntry`.

Over whole histories of operations the map is the fold of the pins and the unpins
(`HtSglang.PinLedger.mostRecent`), and `HtSglang.PinLedger.pin_ledger_exact` is about
every history of plain names in which no pin drops a reference or enlarges a pinned stem. Without
that condition a stem stays pinned for good: `HtSglang.PinLedger.pin_ledger_stale`.
-/

namespace HtSglang

namespace PinLedger

variable {κ σ : Type*}

/-! ### The directory -/

/-- A name in `pin_dir`: one that ends in `PIN_SUFFIX`, with what stands before it, or
another one. -/
inductive FileName (κ : Type*) where
  /-- `<checkpoint_id>.pin.json`. -/
  | pin (checkpointId : κ)
  /-- Any other name. -/
  | other (name : String)
  deriving DecidableEq

/-- What a pin file that parses holds. A field that is missing or empty is `none`. -/
structure Raw (κ σ : Type*) where
  /-- `raw.get("checkpoint_id")`. -/
  checkpointId : Option κ
  /-- `raw.get("stems")`: the sizes by stem. -/
  stems : Option (List (σ × ℤ))
  /-- `raw.get("created_at")`. -/
  createdAt : Option ℤ
  deriving DecidableEq

/-- The contents of a file. -/
inductive File (κ σ : Type*) where
  /-- Opening or parsing it fails. -/
  | unreadable
  /-- It parses. -/
  | json (raw : Raw κ σ)
  deriving DecidableEq

/-! ### The ledger -/

/-- Which stems are pinned, by which checkpoints, at what cost. -/
structure Ledger (κ σ : Type*) where
  /-- The budget, which binds when it is positive. -/
  budgetBytes : ℤ
  /-- The checkpoints that hold a stem. -/
  byStem : List (σ × List κ)
  /-- The size of a stem. -/
  sizes : List (σ × ℤ)
  /-- The stems a checkpoint references. -/
  byCheckpoint : List (κ × List σ)
  /-- When a checkpoint was first pinned. -/
  created : List (κ × ℤ)
  deriving DecidableEq

/-- A ledger with its directory. -/
structure Store (κ σ : Type*) where
  /-- The indexes in memory. -/
  ledger : Ledger κ σ
  /-- The files of `pin_dir`. -/
  files : List (FileName κ × File κ σ)
  deriving DecidableEq

/-- `PinBudgetExceeded`. -/
structure PinBudgetExceeded (κ : Type*) where
  /-- The checkpoint that is refused. -/
  checkpointId : κ
  /-- The bytes it would add. -/
  want : ℤ
  /-- The bytes already pinned. -/
  held : ℤ
  budget : ℤ

/-- What `pin` raises. -/
inductive PinError (κ : Type*) where
  /-- The budget does not allow it. -/
  | budget (e : PinBudgetExceeded κ)
  /-- The pin file cannot be written. -/
  | osError

/-- `PinResult`. -/
structure PinResult (κ σ : Type*) where
  checkpointId : κ
  /-- What it references, sorted. -/
  stems : List σ
  /-- The bytes that were not pinned before. -/
  bytesAdded : ℤ
  /-- The bytes another checkpoint had pinned already. -/
  bytesShared : ℤ
  /-- References that were not pinned; filled in by callers. -/
  unpinned : List σ := []

/-- `PinLedger.__init__`. -/
def Ledger.init (budgetBytes : ℤ) : Ledger κ σ := ⟨budgetBytes, [], [], [], []⟩

section Operations

variable [DecidableEq κ] [LinearOrder σ]

/-- One turn of the loop of `_install`. -/
def installStem (checkpointId : κ) (L : Ledger κ σ) (entry : σ × ℤ) : Ledger κ σ :=
  { L with
    byStem := Dict.set L.byStem entry.1
      (((L.byStem.lookup entry.1).getD []).insert checkpointId)
    sizes := Dict.set L.sizes entry.1 entry.2 }

/-- `_install`. -/
def install (L : Ledger κ σ) (checkpointId : κ) (sizes : List (σ × ℤ)) (createdAt : ℤ) :
    Ledger κ σ :=
  sizes.foldl (installStem checkpointId)
    { L with
      byCheckpoint := Dict.set L.byCheckpoint checkpointId (Dict.keys sizes)
      created := Dict.set L.created checkpointId createdAt }

/-- What `load` does with one name of the directory. -/
def loadFile (L : Ledger κ σ) (entry : FileName κ × File κ σ) : Ledger κ σ :=
  match entry with
  | (.pin name, .json raw) =>
    install L (raw.checkpointId.getD name) (raw.stems.getD []) (raw.createdAt.getD 0)
  | (.pin _, .unreadable) => L
  | (.other _, _) => L

/-- `load`, with the directory in the order in which `os.listdir` gives it. -/
def load (L : Ledger κ σ) (listing : List (FileName κ × File κ σ)) : Ledger κ σ :=
  listing.foldl loadFile (Ledger.init L.budgetBytes)

variable (pinEntry : κ → Option κ)

/-- `_persist`, at the name of `pin_dir` that `_pin_path` leads to; `none` where it leads to none
and the file cannot be opened. -/
def persist (s : Store κ σ) (checkpointId : κ) (sizes : List (σ × ℤ)) (now : ℤ) :
    Option (Store κ σ) :=
  let raw : Raw κ σ :=
    { checkpointId := some checkpointId
      stems := some sizes
      createdAt := some ((s.ledger.created.lookup checkpointId).getD now) }
  (pinEntry checkpointId).map fun name =>
    { s with files := Dict.set s.files (.pin name) (.json raw) }

/-- `is_pinned`. -/
def Ledger.isPinned (L : Ledger κ σ) (stem : σ) : Bool := decide (stem ∈ Dict.keys L.byStem)

/-- `pinned_bytes`. -/
def Ledger.pinnedBytes (L : Ledger κ σ) : ℤ := (L.sizes.map Prod.snd).sum

/-- The bytes of the references that are not pinned yet. -/
def Ledger.newBytes (L : Ledger κ σ) (sizes : List (σ × ℤ)) : ℤ :=
  ((sizes.filter fun e => !L.isPinned e.1).map Prod.snd).sum

/-- The bytes of the references that are pinned already. -/
def Ledger.sharedBytes (L : Ledger κ σ) (sizes : List (σ × ℤ)) : ℤ :=
  ((sizes.filter fun e => L.isPinned e.1).map Prod.snd).sum

/-- `pin`. An exception leaves whatever state the statements before it have made, so the
store comes with the outcome and not inside of it. -/
def pin (s : Store κ σ) (checkpointId : κ) (sizes : List (σ × ℤ)) (now : ℤ) :
    Store κ σ × Except (PinError κ) (PinResult κ σ) :=
  let L := s.ledger
  let newBytes := L.newBytes sizes
  let shared := L.sharedBytes sizes
  if 0 < L.budgetBytes ∧ L.budgetBytes < L.pinnedBytes + newBytes then
    (s, .error (.budget ⟨checkpointId, newBytes, L.pinnedBytes, L.budgetBytes⟩))
  else
    let createdAt := (L.created.lookup checkpointId).getD now
    let installed := { s with ledger := install L checkpointId sizes createdAt }
    match persist pinEntry installed checkpointId sizes now with
    | none => (installed, .error .osError)
    | some s' =>
      (s', .ok { checkpointId := checkpointId
                 stems := (Dict.keys sizes).insertionSort (· ≤ ·)
                 bytesAdded := newBytes
                 bytesShared := shared })

/-- One turn of the loop of `unpin`: the ledger and the bytes freed so far. -/
def releaseStem (checkpointId : κ) (acc : Ledger κ σ × ℤ) (stem : σ) : Ledger κ σ × ℤ :=
  match acc.1.byStem.lookup stem with
  | none => acc
  | some holders =>
    let holders' := holders.filter (· ≠ checkpointId)
    if holders' = [] then
      ({ acc.1 with
          byStem := Dict.erase acc.1.byStem stem
          sizes := Dict.erase acc.1.sizes stem },
        acc.2 + (acc.1.sizes.lookup stem).getD 0)
    else ({ acc.1 with byStem := Dict.set acc.1.byStem stem holders' }, acc.2)

/-- What `unpin` does to the indexes. -/
def release (L : Ledger κ σ) (checkpointId : κ) : Ledger κ σ × ℤ :=
  ((L.byCheckpoint.lookup checkpointId).getD []).foldl (releaseStem checkpointId)
    ({ L with
        byCheckpoint := Dict.erase L.byCheckpoint checkpointId
        created := Dict.erase L.created checkpointId }, 0)

/-- `unpin`, with the bytes actually freed. -/
def unpin (s : Store κ σ) (checkpointId : κ) : Store κ σ × ℤ :=
  let released := release s.ledger checkpointId
  let files := match pinEntry checkpointId with
    | none => s.files
    | some name => Dict.erase s.files (.pin name)
  (⟨released.1, files⟩, released.2)

/-- The checkpoints `reap_orphans` is going to unpin. -/
def orphans (s : Store κ σ) (manifestExists : κ → Bool) (olderThan now : ℤ) : List κ :=
  Dict.keys (s.ledger.created.filter fun e => e.2 ≤ now - olderThan ∧ !manifestExists e.1)

/-- `reap_orphans`, with the reaped checkpoints. -/
def reapOrphans (s : Store κ σ) (manifestExists : κ → Bool) (olderThan now : ℤ) :
    Store κ σ × List κ :=
  let candidates := orphans s manifestExists olderThan now
  (candidates.foldl (fun s cid => (unpin pinEntry s cid).1) s, candidates)

end Operations

/-! ### Maps of references -/

/-- What a checkpoint references. -/
def refs (r : Option (List (σ × ℤ))) : List σ := (r.map Dict.keys).getD []

@[simp] theorem refs_none : refs (none : Option (List (σ × ℤ))) = [] := rfl

@[simp] theorem refs_some (r : List (σ × ℤ)) : refs (some r) = Dict.keys r := rfl

/-! ### What a directory says -/

section Directory

variable [DecidableEq κ]

/-- What a file says its checkpoint references. -/
def File.pins : File κ σ → Option (List (σ × ℤ))
  | .unreadable => none
  | .json raw => some (raw.stems.getD [])

/-- What the files of a directory say a checkpoint references. -/
def filePins (files : List (FileName κ × File κ σ)) (ck : κ) : Option (List (σ × ℤ)) :=
  (files.lookup (.pin ck)).bind File.pins

/-- A directory as the ledger leaves it: one entry for a name, and in each pin file that
can be read the checkpoint the file is named after. Other files may be there, and pin
files that cannot be read. -/
structure WellFormed (files : List (FileName κ × File κ σ)) : Prop where
  nodup : (Dict.keys files).Nodup
  /-- A pin file is about the checkpoint it is named after. -/
  named : ∀ ck raw, (FileName.pin ck, File.json raw) ∈ files → raw.checkpointId.getD ck = ck

@[simp] theorem filePins_nil (ck : κ) :
    filePins ([] : List (FileName κ × File κ σ)) ck = none := rfl

theorem filePins_cons (e : FileName κ × File κ σ) (files : List (FileName κ × File κ σ))
    (ck : κ) : filePins (e :: files) ck =
      if e.1 = .pin ck then e.2.pins else filePins files ck := by
  rw [filePins, Dict.lookup_cons]
  split <;> rfl

theorem filePins_eq_none {files : List (FileName κ × File κ σ)} {ck : κ}
    (h : FileName.pin ck ∉ Dict.keys files) : filePins files ck = none := by
  rw [filePins, Dict.lookup_eq_none.mpr h, Option.bind_none]

theorem filePins_set (files : List (FileName κ × File κ σ)) (ck : κ) (file : File κ σ) :
    filePins (Dict.set files (.pin ck) file) = Function.update (filePins files) ck file.pins := by
  funext ck'
  rcases eq_or_ne ck' ck with rfl | hne
  · simp [filePins]
  · rw [Function.update_of_ne hne, filePins, filePins, Dict.lookup_set_of_ne]
    exact fun hc => hne (FileName.pin.inj hc)

theorem filePins_erase (files : List (FileName κ × File κ σ)) (ck : κ) :
    filePins (Dict.erase files (.pin ck)) = Function.update (filePins files) ck none := by
  funext ck'
  rcases eq_or_ne ck' ck with rfl | hne
  · simp [filePins]
  · rw [Function.update_of_ne hne, filePins, filePins, Dict.lookup_erase_of_ne]
    exact fun hc => hne (FileName.pin.inj hc)

/-- Writing a checkpoint's own pin file keeps the directory well formed. -/
theorem WellFormed.set {files : List (FileName κ × File κ σ)} (h : WellFormed files) {ck : κ}
    {raw : Raw κ σ} (hraw : raw.checkpointId = some ck) :
    WellFormed (Dict.set files (.pin ck) (.json raw)) := by
  have hnodup := Dict.nodup_keys_set h.nodup (.pin ck) (.json raw)
  refine ⟨hnodup, fun ck' raw' hm => ?_⟩
  have hl := Dict.lookup_of_mem hnodup hm
  rcases eq_or_ne ck' ck with rfl | hne
  · rw [Dict.lookup_set_self, Option.some.injEq, File.json.injEq] at hl
    rw [← hl, hraw, Option.getD_some]
  · rw [Dict.lookup_set_of_ne _ _ fun hc => hne (FileName.pin.inj hc)] at hl
    exact h.named ck' raw' (Dict.mem_of_lookup hl)

/-- Removing a file keeps the directory well formed. -/
theorem WellFormed.erase {files : List (FileName κ × File κ σ)} (h : WellFormed files)
    (name : FileName κ) : WellFormed (Dict.erase files name) :=
  ⟨Dict.nodup_keys_erase h.nodup name,
    fun ck raw hm => h.named ck raw (List.mem_of_mem_filter hm)⟩

end Directory

/-! ### The ledger that stands for a map of references -/

section Refinement

variable [LinearOrder σ]

/-- The checkpoints that hold a stem, as the ledger has them. -/
def Ledger.holders (L : Ledger κ σ) (stem : σ) : List κ := (L.byStem.lookup stem).getD []

/-- A stem is pinned when something holds it. -/
theorem mem_keys_byStem {L : Ledger κ σ} (hheld : ∀ stem, L.byStem.lookup stem ≠ some [])
    (stem : σ) : stem ∈ Dict.keys L.byStem ↔ ∃ ck, ck ∈ L.holders stem := by
  constructor
  · intro hmem
    obtain ⟨hs, hl⟩ := Option.ne_none_iff_exists'.mp
      (fun hc => Dict.lookup_eq_none.mp hc hmem)
    rcases hs with _ | ⟨ck, hs⟩
    · exact absurd hl (hheld stem)
    · exact ⟨ck, by simp [Ledger.holders, hl]⟩
  · rintro ⟨ck, hck⟩
    by_contra hmem
    rw [Ledger.holders, Dict.lookup_eq_none.mpr hmem] at hck
    exact List.not_mem_nil hck

variable [DecidableEq κ]

/-- **The ledger of a map of references**: its indexes are what one would compute from
the map. -/
structure Represents (L : Ledger κ σ) (pins : κ → Option (List (σ × ℤ))) : Prop where
  /-- A checkpoint's stems are what it references. -/
  checkpoints : ∀ ck, L.byCheckpoint.lookup ck = (pins ck).map Dict.keys
  /-- A stem's holders are the checkpoints that reference it. -/
  holders : ∀ stem ck, ck ∈ L.holders stem ↔ stem ∈ refs (pins ck)
  held : ∀ stem, L.byStem.lookup stem ≠ some []
  /-- The stems with a size are the pinned ones. -/
  sized : ∀ stem, stem ∈ Dict.keys L.sizes ↔ stem ∈ Dict.keys L.byStem

/-- **The pinned stems** are those some checkpoint references. -/
theorem Represents.isPinned_iff {L : Ledger κ σ} {pins : κ → Option (List (σ × ℤ))}
    (h : Represents L pins) (stem : σ) :
    L.isPinned stem = true ↔ ∃ ck, stem ∈ refs (pins ck) := by
  rw [Ledger.isPinned, decide_eq_true_iff, mem_keys_byStem h.held]
  exact exists_congr fun ck => h.holders stem ck

/-- A new ledger stands for the empty map. -/
theorem represents_init (budgetBytes : ℤ) :
    Represents (Ledger.init budgetBytes : Ledger κ σ) fun _ => none where
  checkpoints _ := rfl
  holders _ _ := by simp [Ledger.init, Ledger.holders]
  held _ := by simp [Ledger.init]
  sized _ := Iff.rfl

/-! ### Pinning -/

theorem holders_installStem (ck : κ) (L : Ledger κ σ) (e : σ × ℤ) (stem : σ) (ck' : κ) :
    ck' ∈ (installStem ck L e).holders stem ↔
      ck' ∈ L.holders stem ∨ (ck' = ck ∧ stem = e.1) := by
  rcases eq_or_ne stem e.1 with rfl | hne
  · simp only [Ledger.holders, installStem, Dict.lookup_set_self, Option.getD_some,
      List.mem_insert_iff, and_true]
    exact or_comm
  · simp [Ledger.holders, installStem, Dict.lookup_set_of_ne _ _ hne, hne]

/-- **What the loop of `_install` does to the holders**: the checkpoint is added to those
of each stem it goes over. -/
theorem holders_foldl_installStem (ck : κ) (l : List (σ × ℤ)) (L : Ledger κ σ) (stem : σ)
    (ck' : κ) :
    ck' ∈ (l.foldl (installStem ck) L).holders stem ↔
      ck' ∈ L.holders stem ∨ (ck' = ck ∧ stem ∈ Dict.keys l) := by
  induction l generalizing L with
  | nil => simp
  | cons e l ih =>
    rw [List.foldl_cons, ih, holders_installStem, Dict.keys_cons, List.mem_cons]
    tauto

/-- What the loop of `_install` leaves as it is, and the two facts about stems that it
keeps. -/
theorem foldl_installStem_keeps (ck : κ) (l : List (σ × ℤ)) (L : Ledger κ σ) :
    (l.foldl (installStem ck) L).byCheckpoint = L.byCheckpoint ∧
      (l.foldl (installStem ck) L).budgetBytes = L.budgetBytes ∧
      ((∀ stem, L.byStem.lookup stem ≠ some []) →
        ∀ stem, (l.foldl (installStem ck) L).byStem.lookup stem ≠ some []) ∧
      ((∀ stem, stem ∈ Dict.keys L.sizes ↔ stem ∈ Dict.keys L.byStem) →
        ∀ stem, stem ∈ Dict.keys (l.foldl (installStem ck) L).sizes ↔
          stem ∈ Dict.keys (l.foldl (installStem ck) L).byStem) := by
  induction l generalizing L with
  | nil => exact ⟨rfl, rfl, id, id⟩
  | cons e l ih =>
    obtain ⟨hck, hbudget, hheld, hsized⟩ := ih (installStem ck L e)
    refine ⟨hck, hbudget, fun h => hheld fun stem => ?_, fun h => hsized fun stem => ?_⟩
    · rcases eq_or_ne stem e.1 with rfl | hne
      · rw [installStem, Dict.lookup_set_self]
        simp only [ne_eq, Option.some.injEq]
        exact List.ne_nil_of_mem (List.mem_insert_self)
      · rw [installStem, Dict.lookup_set_of_ne _ _ hne]
        exact h stem
    · simp only [installStem, Dict.mem_keys_set, h stem]

/-- **`_install` records a checkpoint's references**, as long as the checkpoint references
at least what it did. -/
theorem Represents.install {L : Ledger κ σ} {pins : κ → Option (List (σ × ℤ))}
    (h : Represents L pins) (ck : κ) (sizes : List (σ × ℤ)) (createdAt : ℤ)
    (hkeep : ∀ stem ∈ refs (pins ck), stem ∈ Dict.keys sizes) :
    Represents (install L ck sizes createdAt) (Function.update pins ck (some sizes)) := by
  obtain ⟨hcks, -, hheld, hsized⟩ := foldl_installStem_keeps ck sizes
    { L with
      byCheckpoint := Dict.set L.byCheckpoint ck (Dict.keys sizes)
      created := Dict.set L.created ck createdAt }
  refine ⟨fun ck' => ?_, fun stem ck' => ?_, hheld h.held, hsized h.sized⟩
  · rw [PinLedger.install, hcks]
    rcases eq_or_ne ck' ck with rfl | hne
    · simp
    · simp only [Dict.lookup_set_of_ne _ _ hne, Function.update_of_ne hne]
      exact h.checkpoints ck'
  · rw [PinLedger.install, holders_foldl_installStem]
    have hold := h.holders stem ck'
    rcases eq_or_ne ck' ck with rfl | hne
    · rw [Function.update_self, refs_some]
      exact ⟨fun hc => hc.elim (fun hm => hkeep stem (hold.mp hm)) And.right,
        fun hm => .inr ⟨rfl, hm⟩⟩
    · rw [Function.update_of_ne hne]
      exact ⟨fun hc => hold.mp (hc.resolve_right fun hc => hne hc.1), fun hm => .inl (hold.mpr hm)⟩

/-! ### Unpinning -/

theorem holders_releaseStem (ck : κ) (acc : Ledger κ σ × ℤ) (stem stem' : σ) (ck' : κ) :
    ck' ∈ (releaseStem ck acc stem).1.holders stem' ↔
      ck' ∈ acc.1.holders stem' ∧ ¬(ck' = ck ∧ stem' = stem) := by
  rw [releaseStem]
  rcases hl : acc.1.byStem.lookup stem with _ | holders
  · refine ⟨fun hm => ⟨hm, ?_⟩, And.left⟩
    rintro ⟨rfl, rfl⟩
    rw [Ledger.holders, hl] at hm
    exact List.not_mem_nil hm
  · dsimp only
    split
    · next hnil =>
      rcases eq_or_ne stem' stem with rfl | hne
      · have hall := List.filter_eq_nil_iff.mp hnil
        simp only [Ledger.holders, Dict.lookup_erase_self, hl, Option.getD_none,
          Option.getD_some, List.not_mem_nil, false_iff, not_and]
        exact fun hm hc => hc (by simpa using hall ck' hm) trivial
      · simp [Ledger.holders, Dict.lookup_erase_of_ne _ hne, hne]
    · rcases eq_or_ne stem' stem with rfl | hne
      · simp [Ledger.holders, hl]
      · simp [Ledger.holders, Dict.lookup_set_of_ne _ _ hne, hne]

/-- **What the loop of `unpin` does to the holders**: the checkpoint is taken out of those
of each stem it goes over. -/
theorem holders_foldl_releaseStem (ck : κ) (l : List σ) (acc : Ledger κ σ × ℤ) (stem : σ)
    (ck' : κ) :
    ck' ∈ (l.foldl (releaseStem ck) acc).1.holders stem ↔
      ck' ∈ acc.1.holders stem ∧ ¬(ck' = ck ∧ stem ∈ l) := by
  induction l generalizing acc with
  | nil => simp
  | cons x l ih =>
    rw [List.foldl_cons, ih, holders_releaseStem, List.mem_cons]
    tauto

theorem releaseStem_keeps (ck : κ) (acc : Ledger κ σ × ℤ) (stem : σ) :
    (releaseStem ck acc stem).1.byCheckpoint = acc.1.byCheckpoint ∧
      ((∀ x, acc.1.byStem.lookup x ≠ some []) →
        ∀ x, (releaseStem ck acc stem).1.byStem.lookup x ≠ some []) ∧
      ((∀ x, x ∈ Dict.keys acc.1.sizes ↔ x ∈ Dict.keys acc.1.byStem) →
        ∀ x, x ∈ Dict.keys (releaseStem ck acc stem).1.sizes ↔
          x ∈ Dict.keys (releaseStem ck acc stem).1.byStem) := by
  rw [releaseStem]
  rcases hl : acc.1.byStem.lookup stem with _ | holders
  · exact ⟨rfl, id, id⟩
  · dsimp only
    have hmem : stem ∈ Dict.keys acc.1.byStem :=
      List.mem_map_of_mem (Dict.mem_of_lookup hl)
    split
    · refine ⟨rfl, fun h x => ?_, fun h x => ?_⟩
      · rcases eq_or_ne x stem with rfl | hne
        · simp
        · simpa only [Dict.lookup_erase_of_ne _ hne] using h x
      · simp only [Dict.mem_keys_erase, h x]
    · next hnil =>
      refine ⟨rfl, fun h x => ?_, fun h x => ?_⟩
      · rcases eq_or_ne x stem with rfl | hne
        · simpa using hnil
        · simpa only [Dict.lookup_set_of_ne _ _ hne] using h x
      · rw [h x, Dict.keys_set_of_mem _ hmem]

/-- What the loop of `unpin` leaves as it is, and the two facts about stems that it
keeps. -/
theorem foldl_releaseStem_keeps (ck : κ) (l : List σ) (acc : Ledger κ σ × ℤ) :
    (l.foldl (releaseStem ck) acc).1.byCheckpoint = acc.1.byCheckpoint ∧
      ((∀ x, acc.1.byStem.lookup x ≠ some []) →
        ∀ x, (l.foldl (releaseStem ck) acc).1.byStem.lookup x ≠ some []) ∧
      ((∀ x, x ∈ Dict.keys acc.1.sizes ↔ x ∈ Dict.keys acc.1.byStem) →
        ∀ x, x ∈ Dict.keys (l.foldl (releaseStem ck) acc).1.sizes ↔
          x ∈ Dict.keys (l.foldl (releaseStem ck) acc).1.byStem) := by
  induction l generalizing acc with
  | nil => exact ⟨rfl, id, id⟩
  | cons x l ih =>
    obtain ⟨hck, hheld, hsized⟩ := ih (releaseStem ck acc x)
    obtain ⟨hck', hheld', hsized'⟩ := releaseStem_keeps ck acc x
    exact ⟨hck.trans hck', fun h => hheld (hheld' h), fun h => hsized (hsized' h)⟩

/-- **`unpin` takes a checkpoint's references away**, and those of no other checkpoint. -/
theorem Represents.release {L : Ledger κ σ} {pins : κ → Option (List (σ × ℤ))}
    (h : Represents L pins) (ck : κ) :
    Represents (release L ck).1 (Function.update pins ck none) := by
  have hstems : (L.byCheckpoint.lookup ck).getD [] = refs (pins ck) := by
    rw [h.checkpoints ck]
    rfl
  obtain ⟨hcks, hheld, hsized⟩ := foldl_releaseStem_keeps ck (refs (pins ck))
    ({ L with
        byCheckpoint := Dict.erase L.byCheckpoint ck
        created := Dict.erase L.created ck }, 0)
  rw [PinLedger.release, hstems]
  refine ⟨fun ck' => ?_, fun stem ck' => ?_, hheld h.held, hsized h.sized⟩
  · rw [hcks]
    rcases eq_or_ne ck' ck with rfl | hne
    · simp
    · simp only [Dict.lookup_erase_of_ne _ hne, Function.update_of_ne hne]
      exact h.checkpoints ck'
  · rw [holders_foldl_releaseStem]
    have hold := h.holders stem ck'
    rcases eq_or_ne ck' ck with rfl | hne
    · rw [Function.update_self, refs_none]
      exact ⟨fun hc => absurd ⟨rfl, hold.mp hc.1⟩ hc.2, fun hm => absurd hm List.not_mem_nil⟩
    · rw [Function.update_of_ne hne]
      exact ⟨fun hc => hold.mp hc.1, fun hm => ⟨hold.mpr hm, fun hc => hne hc.1⟩⟩

/-! ### Loading -/

/-- **One name of the directory**: what `load` adds to a map that does not have the file's
checkpoint yet. -/
theorem Represents.loadFile {L : Ledger κ σ} {pins : κ → Option (List (σ × ℤ))}
    (h : Represents L pins) {e : FileName κ × File κ σ} (hwf : WellFormed [e])
    (hnew : ∀ ck, e.1 = .pin ck → pins ck = none) :
    Represents (loadFile L e) fun ck => (filePins [e] ck).or (pins ck) := by
  rcases e with ⟨name | name, _ | raw⟩
  · -- an unreadable pin file is skipped
    simpa [PinLedger.loadFile, filePins_cons, File.pins] using h
  · have hins := h.install name (raw.stems.getD []) (raw.createdAt.getD 0) (by simp [hnew name rfl])
    rw [PinLedger.loadFile, hwf.named name raw List.mem_cons_self]
    refine (congrArg (Represents _) (funext fun ck => ?_)).mp hins
    rcases eq_or_ne ck name with rfl | hne
    · simp [filePins_cons, File.pins]
    · simp [filePins_cons, hne.symm, Function.update_of_ne hne]
  · simpa [PinLedger.loadFile, filePins_cons] using h
  · simpa [PinLedger.loadFile, filePins_cons] using h

/-- **The loop of `load`** adds to a map the references the files name, when the map has
none of their checkpoints yet. -/
theorem Represents.foldl_loadFile {files : List (FileName κ × File κ σ)}
    (hfiles : WellFormed files) {L : Ledger κ σ} {pins : κ → Option (List (σ × ℤ))}
    (h : Represents L pins) (hnew : ∀ ck, FileName.pin ck ∈ Dict.keys files → pins ck = none) :
    Represents (files.foldl PinLedger.loadFile L) fun ck => (filePins files ck).or (pins ck) := by
  induction files generalizing L pins with
  | nil => simpa using h
  | cons e files ih =>
    obtain ⟨hfresh, hnodup⟩ := List.nodup_cons.mp hfiles.nodup
    have hhead : WellFormed [e] := ⟨by simp, fun ck raw hm => hfiles.named ck raw
      (List.mem_cons.mpr (.inl (List.mem_singleton.mp hm)))⟩
    have hrest : WellFormed files :=
      ⟨hnodup, fun ck raw hm => hfiles.named ck raw (List.mem_cons_of_mem _ hm)⟩
    have hone := h.loadFile hhead fun ck hc => hnew ck (by simp [hc])
    have hrec := ih hrest hone fun ck hm => by
      have hne : e.1 ≠ .pin ck := fun hc => hfresh (hc ▸ hm)
      rw [filePins_cons, if_neg hne, hnew ck (List.mem_cons_of_mem _ hm)]
      rfl
    refine (congrArg (Represents _) (funext fun ck => ?_)).mp hrec
    rw [filePins_cons, filePins_cons]
    split
    · next hc =>
      rw [filePins_eq_none (hc ▸ hfresh), Option.none_or]
    · rfl

/-- **`load` rebuilds the ledger of the references the files name**, in whatever order the
directory lists them. -/
theorem represents_load {files listing : List (FileName κ × File κ σ)}
    (hfiles : WellFormed files) (hlisting : listing.Perm files) (L : Ledger κ σ) :
    Represents (load L listing) (filePins files) := by
  have hwf : WellFormed listing :=
    ⟨(hlisting.map Prod.fst).nodup_iff.mpr hfiles.nodup,
      fun ck raw hm => hfiles.named ck raw (hlisting.mem_iff.mp hm)⟩
  have h := (represents_init L.budgetBytes : Represents (Ledger.init (κ := κ) (σ := σ) _) _)
    |>.foldl_loadFile hwf fun _ _ => rfl
  refine (congrArg (Represents _) (funext fun ck => ?_)).mp h
  rw [Option.or_none, filePins, filePins, Dict.lookup_eq_of_perm hfiles.nodup hlisting]

/-! ### Memory and directory -/

/-- **A store in step with a map of references**: in memory and on disk. -/
structure InStep (s : Store κ σ) (pins : κ → Option (List (σ × ℤ))) : Prop where
  represents : Represents s.ledger pins
  files_eq : filePins s.files = pins
  wellFormed : WellFormed s.files

variable {pinEntry : κ → Option κ} {s : Store κ σ} {pins : κ → Option (List (σ × ℤ))}

/-- A store that has loaded its directory is in step with it. -/
theorem InStep.loaded {files listing : List (FileName κ × File κ σ)} (hfiles : WellFormed files)
    (hlisting : listing.Perm files) (L : Ledger κ σ) :
    InStep ⟨load L listing, files⟩ (filePins files) :=
  ⟨represents_load hfiles hlisting L, rfl, hfiles⟩

/-- **A pin that goes through**: the budget allowed it, and the file was written. -/
theorem pin_eq_ok {ck : κ} {sizes : List (σ × ℤ)} {now : ℤ} {r : PinResult κ σ}
    (hok : (pin pinEntry s ck sizes now).2 = .ok r) :
    ¬(0 < s.ledger.budgetBytes ∧
        s.ledger.budgetBytes < s.ledger.pinnedBytes + s.ledger.newBytes sizes) ∧
      ∃ createdAt s', persist pinEntry { s with ledger := install s.ledger ck sizes createdAt }
        ck sizes now = some s' ∧ (pin pinEntry s ck sizes now).1 = s' := by
  rw [pin] at hok ⊢
  dsimp only at hok ⊢
  split at hok
  · cases hok
  next hbudget =>
  rw [if_neg hbudget]
  split at hok
  · cases hok
  next s' hs' =>
  exact ⟨hbudget, _, s', hs', rfl⟩

/-- What a pin that goes through leaves. -/
theorem InStep.pin_ok (h : InStep s pins) {ck : κ} (hplain : pinEntry ck = some ck)
    {sizes : List (σ × ℤ)} {now : ℤ} (hkeep : ∀ stem ∈ refs (pins ck), stem ∈ Dict.keys sizes)
    {r : PinResult κ σ} (hok : (pin pinEntry s ck sizes now).2 = .ok r) :
    InStep (pin pinEntry s ck sizes now).1 (Function.update pins ck (some sizes)) := by
  obtain ⟨-, createdAt, s', hs', heq⟩ := pin_eq_ok hok
  rw [persist, hplain, Option.map_some, Option.some.injEq] at hs'
  rw [heq, ← hs']
  refine ⟨h.represents.install ck sizes _ hkeep, ?_, h.wellFormed.set rfl⟩
  rw [filePins_set, h.files_eq]
  rfl

/-- A pin that the budget refuses changes nothing. -/
theorem pin_budget {ck : κ} {sizes : List (σ × ℤ)} {now : ℤ} {e : PinBudgetExceeded κ}
    (herr : (pin pinEntry s ck sizes now).2 = .error (.budget e)) :
    (pin pinEntry s ck sizes now).1 = s := by
  rw [pin] at herr ⊢
  dsimp only at herr ⊢
  split at herr
  · next hbudget => rw [if_pos hbudget]
  · split at herr
    · cases herr
    · cases herr

/-- The file of a plain name can be written. -/
theorem pin_ne_osError {ck : κ} (hplain : pinEntry ck = some ck) {sizes : List (σ × ℤ)} {now : ℤ} :
    (pin pinEntry s ck sizes now).2 ≠ .error .osError := by
  rw [pin]
  dsimp only [persist]
  rw [hplain]
  split
  · simp
  · simp

/-- What an unpin leaves. -/
theorem InStep.unpin (h : InStep s pins) {ck : κ} (hplain : pinEntry ck = some ck) :
    InStep (unpin pinEntry s ck).1 (Function.update pins ck none) := by
  rw [PinLedger.unpin, hplain]
  exact ⟨h.represents.release ck, by rw [filePins_erase, h.files_eq], h.wellFormed.erase _⟩

omit [LinearOrder σ] in
theorem update_none_eq (pins : κ → Option (List (σ × ℤ))) (ck : κ) (cks : List κ) :
    (fun ck' => if ck' ∈ cks then none else Function.update pins ck none ck') =
      fun ck' => if ck' ∈ ck :: cks then none else pins ck' := by
  funext ck'
  rcases eq_or_ne ck' ck with rfl | hne
  · simp
  · simp [hne]

/-- What unpinning several checkpoints leaves in memory, whatever their names. -/
theorem Represents.foldl_unpin (h : Represents s.ledger pins) (cks : List κ) :
    Represents (cks.foldl (fun s ck => (PinLedger.unpin pinEntry s ck).1) s).ledger
      fun ck => if ck ∈ cks then none else pins ck := by
  induction cks generalizing s pins with
  | nil => simpa using h
  | cons ck cks ih =>
    rw [← update_none_eq]
    exact ih (h.release ck)

/-- What unpinning several checkpoints with plain names leaves. -/
theorem InStep.foldl_unpin (h : InStep s pins) {cks : List κ}
    (hplain : ∀ ck ∈ cks, pinEntry ck = some ck) :
    InStep (cks.foldl (fun s ck => (PinLedger.unpin pinEntry s ck).1) s)
      fun ck => if ck ∈ cks then none else pins ck := by
  induction cks generalizing s pins with
  | nil => simpa using h
  | cons ck cks ih =>
    obtain ⟨hck, hcks⟩ := List.forall_mem_cons.mp hplain
    rw [← update_none_eq]
    exact ih (h.unpin hck) hcks

/-! ### The budget -/

theorem sizes_install (L : Ledger κ σ) (ck : κ) (sizes : List (σ × ℤ)) (createdAt : ℤ) :
    (install L ck sizes createdAt).sizes =
      sizes.foldl (fun d e => Dict.set d e.1 e.2) L.sizes := by
  have hfold (L : Ledger κ σ) : (sizes.foldl (installStem ck) L).sizes =
      sizes.foldl (fun d e => Dict.set d e.1 e.2) L.sizes := by
    induction sizes generalizing L with
    | nil => rfl
    | cons e sizes ih => exact ih _
  exact hfold _

/-- **The budget holds after a pin that goes through**, when the pin enlarges no stem that
is pinned already. -/
theorem Represents.pinnedBytes_le (h : Represents s.ledger pins) {ck : κ}
    {sizes : List (σ × ℤ)} {now : ℤ} (hsizes : (Dict.keys sizes).Nodup)
    (hle : ∀ e ∈ sizes, ∀ b, s.ledger.sizes.lookup e.1 = some b → e.2 ≤ b)
    (hpos : 0 < s.ledger.budgetBytes) {r : PinResult κ σ}
    (hok : (pin pinEntry s ck sizes now).2 = .ok r) :
    (pin pinEntry s ck sizes now).1.ledger.pinnedBytes ≤ s.ledger.budgetBytes := by
  obtain ⟨hbudget, createdAt, s', hs', heq⟩ := pin_eq_ok hok
  have hfits : s.ledger.pinnedBytes + s.ledger.newBytes sizes ≤ s.ledger.budgetBytes :=
    not_lt.mp fun hc => hbudget ⟨hpos, hc⟩
  have hnew : s.ledger.newBytes sizes =
      ((sizes.filter fun e => e.1 ∉ Dict.keys s.ledger.sizes).map Prod.snd).sum := by
    rw [Ledger.newBytes]
    congr 2
    refine List.filter_congr fun e _ => ?_
    simp [Ledger.isPinned, h.sized]
  rw [hnew] at hfits
  obtain ⟨name, -, rfl⟩ := Option.map_eq_some_iff.mp hs'
  rw [heq, Ledger.pinnedBytes, sizes_install]
  exact (Dict.sum_foldl_set_le hsizes hle).trans hfits

end Refinement

/-! ### Histories -/

/-- What happened to a checkpoint's references. -/
inductive Event (κ σ : Type*) where
  /-- It was pinned with these. -/
  | pinned (ck : κ) (sizes : List (σ × ℤ))
  /-- It was unpinned. -/
  | unpinned (ck : κ)
  deriving DecidableEq

section MostRecent

variable [DecidableEq κ]

/-- The references of a checkpoint's most recent pin, none when it has been unpinned
since. Histories have the newest event first. -/
def mostRecent (history : List (Event κ σ)) (ck : κ) :
    Option (List (σ × ℤ)) :=
  match history with
  | [] => none
  | .pinned ck' sizes :: history => if ck' = ck then some sizes else mostRecent history ck
  | .unpinned ck' :: history => if ck' = ck then none else mostRecent history ck

theorem mostRecent_pinned (history : List (Event κ σ)) (ck : κ) (sizes : List (σ × ℤ)) :
    mostRecent (.pinned ck sizes :: history) =
      Function.update (mostRecent history) ck (some sizes) := by
  funext ck'
  rw [mostRecent, Function.update_apply]
  exact if_congr eq_comm rfl rfl

theorem mostRecent_unpinned (history : List (Event κ σ)) (ck : κ) :
    mostRecent (.unpinned ck :: history) = Function.update (mostRecent history) ck none := by
  funext ck'
  rw [mostRecent, Function.update_apply]
  exact if_congr eq_comm rfl rfl

theorem mostRecent_foldl_unpinned (cks : List κ) (history : List (Event κ σ)) :
    mostRecent (cks.foldl (fun history ck => .unpinned ck :: history) history) =
      fun ck => if ck ∈ cks then none else mostRecent history ck := by
  induction cks generalizing history with
  | nil => simp
  | cons ck cks ih =>
    rw [List.foldl_cons, ih, mostRecent_unpinned]
    funext ck'
    rcases eq_or_ne ck' ck with rfl | hne
    · simp
    · simp [hne]

end MostRecent

/-- A store and what has happened to it. -/
structure State (κ σ : Type*) where
  store : Store κ σ
  /-- What has happened, the newest first. -/
  history : List (Event κ σ)

/-- The operations. -/
inductive Op (κ σ : Type*) where
  /-- `load`, with the directory in the order of the listing. -/
  | load (listing : List (FileName κ × File κ σ))
  /-- `pin` at a time. -/
  | pin (ck : κ) (sizes : List (σ × ℤ)) (now : ℤ)
  | unpin (ck : κ)
  /-- `reap_orphans` at a time, with the manifests that exist. -/
  | reapOrphans (manifestExists : κ → Bool) (olderThan now : ℤ)

section Runs

variable [DecidableEq κ] [LinearOrder σ] (pinEntry : κ → Option κ)

/-- One operation. A refused pin is an outcome like any other: its caller goes on. -/
def step (s : State κ σ) : Op κ σ → State κ σ
  | .load listing => { s with store := { s.store with ledger := load s.store.ledger listing } }
  | .pin ck sizes now =>
    let pinned := pin pinEntry s.store ck sizes now
    match pinned.2 with
    | .ok _ => ⟨pinned.1, .pinned ck sizes :: s.history⟩
    | .error _ => ⟨pinned.1, s.history⟩
  | .unpin ck => ⟨(unpin pinEntry s.store ck).1, .unpinned ck :: s.history⟩
  | .reapOrphans manifestExists olderThan now =>
    let reaped := reapOrphans pinEntry s.store manifestExists olderThan now
    ⟨reaped.1, reaped.2.foldl (fun history ck => .unpinned ck :: history) s.history⟩

/-- A listing has the directory's entries, in some order, and the sizes of a pin are a
dictionary. -/
def Permitted (s : State κ σ) : Op κ σ → Prop
  | .load listing => listing.Perm s.store.files
  | .pin _ sizes _ => (Dict.keys sizes).Nodup
  | .unpin _ => True
  | .reapOrphans .. => True

instance (s : State κ σ) (op : Op κ σ) : Decidable (Permitted s op) :=
  match op with
  | .load listing => inferInstanceAs (Decidable (listing.Perm s.store.files))
  | .pin _ sizes _ => inferInstanceAs (Decidable (Dict.keys sizes).Nodup)
  | .unpin _ => .isTrue trivial
  | .reapOrphans .. => .isTrue trivial

/-- The ledger as a system. -/
def system : OpSystem (State κ σ) (Op κ σ) Empty where
  step s op := .ok (step pinEntry s op)
  Permitted := Permitted

/-- The pin a file of an earlier ledger stands for. -/
def loadedEvent : FileName κ × File κ σ → Option (Event κ σ)
  | (.pin ck, .json raw) => some (.pinned ck (raw.stems.getD []))
  | (.pin _, .unreadable) => none
  | (.other _, _) => none

/-- A ledger that has loaded a directory that earlier ones have left. -/
def start (budgetBytes : ℤ) (files : List (FileName κ × File κ σ)) : State κ σ where
  store := ⟨load (Ledger.init budgetBytes) files, files⟩
  history := files.filterMap loadedEvent

/-- **The condition on a step**: whatever is pinned or unpinned has a plain name, which leads to the
file of that name; and a pin names everything its checkpoint holds, and gives a stem that is pinned
already no more bytes than are recorded for it. -/
def Keeps (s : State κ σ) : Op κ σ → Prop
  | .load _ => True
  | .pin ck sizes _ => pinEntry ck = some ck ∧
    (∀ stem ∈ (s.store.ledger.byCheckpoint.lookup ck).getD [], stem ∈ Dict.keys sizes) ∧
      ∀ e ∈ sizes, e.2 ≤ (s.store.ledger.sizes.lookup e.1).getD e.2
  | .unpin ck => pinEntry ck = some ck
  | .reapOrphans manifestExists olderThan now =>
    ∀ ck ∈ orphans s.store manifestExists olderThan now, pinEntry ck = some ck

instance (s : State κ σ) (op : Op κ σ) : Decidable (Keeps pinEntry s op) := by
  cases op <;> unfold Keeps <;> infer_instance

variable {pinEntry}

/-- **The invariant**: the store is in step with the most recent pins. -/
def Exact (s : State κ σ) : Prop := InStep s.store (mostRecent s.history)

theorem mostRecent_start (budgetBytes : ℤ) (files : List (FileName κ × File κ σ)) (ck : κ)
    (hnodup : (Dict.keys files).Nodup) :
    mostRecent (start budgetBytes files).history ck = filePins files ck := by
  rw [start]
  dsimp only
  induction files with
  | nil => rfl
  | cons e files ih =>
    obtain ⟨hfresh, hnodup⟩ := List.nodup_cons.mp hnodup
    have hrest := ih hnodup
    rw [filePins_cons]
    rcases e with ⟨name | name, _ | raw⟩
    · rw [List.filterMap_cons_none rfl, hrest]
      split
      · next hc => exact filePins_eq_none (hc ▸ hfresh)
      · rfl
    · have hevent : loadedEvent (FileName.pin name, File.json raw) =
          some (.pinned name (raw.stems.getD [])) := rfl
      rw [List.filterMap_cons_some hevent, mostRecent, hrest]
      simp [File.pins]
    · rw [List.filterMap_cons_none rfl, hrest, if_neg (by simp)]
    · rw [List.filterMap_cons_none rfl, hrest, if_neg (by simp)]

theorem exact_start (budgetBytes : ℤ) {files : List (FileName κ × File κ σ)}
    (hfiles : WellFormed files) : Exact (start budgetBytes files) := by
  have h := InStep.loaded hfiles (List.Perm.refl files) (Ledger.init budgetBytes)
  refine (congrArg (InStep _) (funext fun ck => ?_)).mp h
  exact (mostRecent_start budgetBytes files ck hfiles.nodup).symm

/-- What a checkpoint holds is what its most recent pin names. -/
theorem Exact.keeps {s : State κ σ} (h : Exact s) {ck : κ} {sizes : List (σ × ℤ)}
    (hkeep : ∀ stem ∈ (s.store.ledger.byCheckpoint.lookup ck).getD [],
      stem ∈ Dict.keys sizes) : ∀ stem ∈ refs (mostRecent s.history ck),
      stem ∈ Dict.keys sizes := by
  rw [h.represents.checkpoints ck] at hkeep
  exact hkeep

/-- **One operation.** -/
theorem Exact.step {s : State κ σ} (h : Exact s) {op : Op κ σ} (hperm : Permitted s op)
    (hkeeps : Keeps pinEntry s op) : Exact (PinLedger.step pinEntry s op) := by
  cases op with
  | load listing =>
    have hload := InStep.loaded h.wellFormed hperm s.store.ledger
    rw [h.files_eq] at hload
    exact hload
  | pin ck sizes now =>
    rw [PinLedger.step]
    rcases hp : (pin pinEntry s.store ck sizes now).2 with (e | -) | r
    · rw [pin_budget hp]
      exact h
    · exact absurd hp (pin_ne_osError hkeeps.1)
    · rw [Exact, mostRecent_pinned]
      exact InStep.pin_ok h hkeeps.1 (h.keeps hkeeps.2.1) hp
  | unpin ck =>
    rw [Exact, PinLedger.step, mostRecent_unpinned]
    exact InStep.unpin h hkeeps
  | reapOrphans manifestExists olderThan now =>
    rw [Exact, PinLedger.step, mostRecent_foldl_unpinned]
    exact InStep.foldl_unpin h hkeeps

/-- **Every history** of plain names in which no pin drops a reference. -/
theorem exact_of_reaches {budgetBytes : ℤ} {files : List (FileName κ × File κ σ)}
    (hfiles : WellFormed files) {s : State κ σ}
    (h : (system pinEntry).Reaches (Keeps pinEntry) (start budgetBytes files) s) : Exact s := by
  refine h.invariant (exact_start budgetBytes hfiles) fun s op s' hs hperm hkeeps hok => ?_
  obtain rfl : PinLedger.step pinEntry s op = s' := Except.ok.inj hok
  exact hs.step hperm hkeeps

/-- **The pin ledger is an exact reference count** in every history of plain names in which no pin
drops a reference of its checkpoint or enlarges a pinned stem: a stem is pinned exactly when the
most recent pin of a checkpoint that has not been unpinned names it; unpinning all of those leaves
nothing pinned; a pin that goes through keeps to a positive budget, and one that is refused changes
nothing; and a fresh ledger that loads the directory, in whatever order it is listed, has the same
pinned stems and the same references for every checkpoint. -/
theorem pin_ledger_exact {budgetBytes : ℤ} {files : List (FileName κ × File κ σ)}
    (hfiles : WellFormed files) {s : State κ σ}
    (h : (system pinEntry).Reaches (Keeps pinEntry) (start budgetBytes files) s) :
    (∀ stem, s.store.ledger.isPinned stem = true ↔
      ∃ ck sizes, mostRecent s.history ck = some sizes ∧ stem ∈ Dict.keys sizes) ∧
    (∀ cks : List κ, (∀ ck, mostRecent s.history ck ≠ none → ck ∈ cks) →
      ∀ stem, (cks.foldl (fun s ck => (unpin pinEntry s ck).1) s.store).ledger.isPinned stem =
        false) ∧
    (∀ ck sizes now r, Permitted s (.pin ck sizes now) → Keeps pinEntry s (.pin ck sizes now) →
      0 < s.store.ledger.budgetBytes → (pin pinEntry s.store ck sizes now).2 = .ok r →
      (pin pinEntry s.store ck sizes now).1.ledger.pinnedBytes ≤ s.store.ledger.budgetBytes) ∧
    (∀ ck sizes now e, (pin pinEntry s.store ck sizes now).2 = .error (.budget e) →
      (pin pinEntry s.store ck sizes now).1 = s.store) ∧
    ∀ (listing : List (FileName κ × File κ σ)) (budgetBytes' : ℤ),
      listing.Perm s.store.files →
      (∀ stem, (load (Ledger.init budgetBytes') listing).isPinned stem =
        s.store.ledger.isPinned stem) ∧
      ∀ ck, (load (Ledger.init budgetBytes') listing).byCheckpoint.lookup ck =
        s.store.ledger.byCheckpoint.lookup ck := by
  have hs := exact_of_reaches hfiles h
  refine ⟨fun stem => ?_, fun cks hall stem => ?_, fun ck sizes now r hperm hkeeps hpos hok => ?_,
    fun ck sizes now e herr => pin_budget herr, fun listing budgetBytes' hlisting => ?_⟩
  · rw [hs.represents.isPinned_iff]
    refine exists_congr fun ck => ?_
    rcases mostRecent s.history ck with _ | sizes <;> simp
  · rw [← Bool.not_eq_true, (hs.represents.foldl_unpin cks).isPinned_iff]
    rintro ⟨ck, hm⟩
    split at hm
    · exact List.not_mem_nil hm
    · next hout =>
      have hnone : mostRecent s.history ck = none := not_not.mp fun hc => hout (hall ck hc)
      rw [hnone] at hm
      exact List.not_mem_nil hm
  · refine hs.represents.pinnedBytes_le hperm (fun e he b hb => ?_) hpos hok
    have hle := hkeeps.2.2 e he
    rwa [hb] at hle
  · have hload := represents_load hs.wellFormed hlisting (Ledger.init budgetBytes')
    rw [hs.files_eq] at hload
    refine ⟨fun stem => ?_, fun ck => ?_⟩
    · rw [Bool.eq_iff_iff]
      exact (hload.isPinned_iff stem).trans (hs.represents.isPinned_iff stem).symm
    · exact (hload.checkpoints ck).trans (hs.represents.checkpoints ck).symm

end Runs

/-! ### Runs -/

instance (pinEntry : ℕ → Option ℕ) (s : State ℕ ℕ) (op : Op ℕ ℕ) :
    Decidable ((system pinEntry).Permitted s op) := inferInstanceAs (Decidable (Permitted s op))

/-- Two plain names, a second path to the first, and a path in a directory that is not there: `a`,
`b`, `./a` and `c/d`. -/
def fourNames (ck : ℕ) : Option ℕ := [some 0, some 1, some 0].getD ck none

/-- Two checkpoints that share a stem: the first is pinned again with one more, the directory
is loaded, and the first is unpinned. -/
def sharedStem : List (Op ℕ ℕ) :=
  [.pin 0 [(10, 4)] 1, .pin 1 [(10, 4)] 2, .pin 0 [(10, 4), (11, 3)] 3,
    .load [(.pin 1, .json ⟨some 1, some [(10, 4)], some 2⟩),
      (.pin 0, .json ⟨some 0, some [(10, 4), (11, 3)], some 1⟩)],
    .unpin 0]

/-- The shared stem is still pinned, and not the other one. -/
theorem pin_ledger_exact_sharedStem :
    ∃ s : State ℕ ℕ, (system fourNames).run (Keeps fourNames) (start 8 []) sharedStem = some s ∧
      s.store.ledger.isPinned 10 = true ∧ s.store.ledger.isPinned 11 = false ∧
      (∀ stem, s.store.ledger.isPinned stem = true ↔
        ∃ ck sizes, mostRecent s.history ck = some sizes ∧ stem ∈ Dict.keys sizes) ∧
      ∀ stem, (load (Ledger.init 8) s.store.files).isPinned stem =
        s.store.ledger.isPinned stem := by
  have hrun : ((system fourNames).run (Keeps fourNames) (start 8 []) sharedStem).any
      (fun s : State ℕ ℕ => s.store.ledger.isPinned 10 && !s.store.ledger.isPinned 11) = true := by
    decide +kernel
  obtain ⟨s, hs, hend⟩ := (Option.any_eq_true _ _).mp hrun
  obtain ⟨hin, hout⟩ := Bool.and_eq_true_iff.mp hend
  have hfiles : WellFormed ([] : List (FileName ℕ × File ℕ ℕ)) := ⟨List.nodup_nil, by simp⟩
  obtain ⟨hpinned, -, -, -, hfresh⟩ := pin_ledger_exact hfiles (OpSystem.Reaches.of_run .refl hs)
  exact ⟨s, hs, hin, Bool.not_eq_eq_eq_not.mp hout, hpinned, (hfresh _ 8 (.refl _)).1⟩

/-- **A reference that is dropped stays pinned, and a stem can outgrow the budget.** A
checkpoint is pinned with one stem and again with another: the first stem is pinned although
no pin that is in force names it, it stays so when the checkpoint is unpinned, and a fresh
ledger does not know of it. With a budget of ten bytes a stem of one byte is pinned
again, by a second checkpoint, with a hundred. And a fresh ledger does not know of a stem whose file
was written over under another name, or could not be written. -/
theorem pin_ledger_stale :
    (∃ s : State ℕ ℕ, (system fourNames).Reaches (fun _ _ => True) (start 0 []) s ∧
      s.store.ledger.isPinned 10 = true ∧
      (¬∃ ck sizes, mostRecent s.history ck = some sizes ∧ 10 ∈ Dict.keys sizes) ∧
      (∀ ck, mostRecent s.history ck ≠ none → ck = 0) ∧
      (unpin fourNames s.store 0).1.ledger.isPinned 10 = true ∧
      (load (Ledger.init 0) s.store.files).isPinned 10 = false) ∧
    (∃ (s : State ℕ ℕ) (r : PinResult ℕ ℕ),
      (system fourNames).Reaches (fun _ _ => True) (start 10 []) s ∧
      Permitted s (.pin 1 [(10, 100)] 2) ∧ (pin fourNames s.store 1 [(10, 100)] 2).2 = .ok r ∧
      0 < s.store.ledger.budgetBytes ∧
      s.store.ledger.budgetBytes <
        (pin fourNames s.store 1 [(10, 100)] 2).1.ledger.pinnedBytes) ∧
    ∀ ops ∈ ([[.pin 0 [(10, 1)] 1, .pin 2 [(11, 1)] 2], [.pin 3 [(10, 1)] 1]] :
        List (List (Op ℕ ℕ))),
      ((system fourNames).run (fun _ _ => True) (start 0 []) ops).any (fun s : State ℕ ℕ =>
        s.store.ledger.isPinned 10 &&
          !(load (Ledger.init 0) s.store.files).isPinned 10) = true := by
  refine ⟨?_, ?_, by decide +kernel⟩
  · have hrun : ((system fourNames).run (fun _ _ => True) (start 0 [])
        [.pin 0 [(10, 1)] 1, .pin 0 [(11, 1)] 2]).any (fun s : State ℕ ℕ =>
        decide (s.history = [.pinned 0 [(11, 1)], .pinned 0 [(10, 1)]] ∧
          s.store.ledger.isPinned 10 = true ∧
          (unpin fourNames s.store 0).1.ledger.isPinned 10 = true ∧
          (load (Ledger.init 0) s.store.files).isPinned 10 = false)) = true := by decide +kernel
    obtain ⟨s, hs, hend⟩ := (Option.any_eq_true _ _).mp hrun
    obtain ⟨hhist, hin, hstay, hfresh⟩ := of_decide_eq_true hend
    have hmost (ck : ℕ) : mostRecent s.history ck = if 0 = ck then some [(11, 1)] else none := by
      rw [hhist, mostRecent, mostRecent, mostRecent]
      split <;> rfl
    refine ⟨s, OpSystem.Reaches.of_run .refl hs, hin, ?_, fun ck hne => ?_, hstay, hfresh⟩
    · rintro ⟨ck, sizes, hsome, hmem⟩
      rw [hmost] at hsome
      split at hsome
      · obtain rfl := Option.some.inj hsome
        exact absurd hmem (by decide)
      · cases hsome
    · rw [hmost] at hne
      exact (by_contra fun hc => hne (if_neg fun h => hc h.symm))
  · have hrun : ((system fourNames).run (fun _ _ => True) (start 10 []) [.pin 0 [(10, 1)] 1]).any
        (fun s : State ℕ ℕ => decide ((pin fourNames s.store 1 [(10, 100)] 2).2.isOk = true ∧
          s.store.ledger.budgetBytes = 10 ∧
          (pin fourNames s.store 1 [(10, 100)] 2).1.ledger.pinnedBytes = 100)) = true := by
      decide +kernel
    obtain ⟨s, hs, hend⟩ := (Option.any_eq_true _ _).mp hrun
    obtain ⟨hok, hbudget, hbytes⟩ := of_decide_eq_true hend
    rcases hp : (pin fourNames s.store 1 [(10, 100)] 2).2 with e | r
    · rw [hp] at hok
      cases hok
    · refine ⟨s, r, OpSystem.Reaches.of_run .refl hs, List.nodup_singleton 10, hp, ?_, ?_⟩
      · rw [hbudget]
        decide
      · rw [hbudget, hbytes]
        decide

end PinLedger

end HtSglang
