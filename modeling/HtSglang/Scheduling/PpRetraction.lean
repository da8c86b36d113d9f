import HtSglang.Library.OpRun
import HtSglang.Scheduling.PpAdmission

/-!
# Retractions on a pipeline

A request that a later rank retracts goes back to the first rank, which remembers how much the
retracting rank had – the *floor* of the request – and cuts the next match to it. If what is
announced next never exceeds the floor, the announced lengths go down with every retraction,
and there are only finitely many of them.

The cut is made before the request is admitted, and two paths announce more than was cut.
`PrefillAdder.add_one_req` loads back what the host still has and appends it to the prefix; and
a request in the middle of a chunked prefill is admitted by `add_chunked_req`, before the loop
that cuts. `HtSglang.PpAdmission.WithinFloor` says of what the caches answer that neither goes past
a floor; then the cut holds (`HtSglang.PpAdmission.executedPrefix_le`).

A run (`HtSglang.PpAdmission.system`) announces passes and takes them back in any order; the
outcome of a pass is `HtSglang.PpAdmission.chain`, with whatever the ranks hold at that time.
The history of a request – the lengths at which it was retracted since it was last served – is
written down beside the guard. The invariant is `HtSglang.PpAdmission.Consistent`: the floor of
a request is below its last retraction, and so is what is under way for it.
-/

namespace HtSglang

namespace PpAdmission

variable {ρ : Type} [DecidableEq ρ]

/-! ### Passes -/

/-- A request that the first rank admits, with what the caches answer for it. -/
inductive Candidate (ρ : Type)
  /-- From the waiting queue: its match on the device, its three host hits, how much is loaded
  back if something is, and how much is computed. -/
  | waiting (rid : ρ) (deviceMatch hostHit swaHostHit mambaHostHit loadedBack extendLen : ℕ)
  /-- The request in the middle of a chunked prefill: how much is computed, and the chunk. -/
  | chunked (rid : ρ) (computed extendLen : ℕ)
  deriving DecidableEq, Repr

namespace Candidate

/-- The request. -/
def rid : Candidate ρ → ρ
  | waiting rid .. => rid
  | chunked rid .. => rid

/-- The chunk that is computed. -/
def extendLen : Candidate ρ → ℕ
  | waiting _ _ _ _ _ _ extendLen => extendLen
  | chunked _ _ extendLen => extendLen

/-- `needs_host_load_back`. -/
def needsHostLoadBack : Candidate ρ → Bool
  | waiting _ _ hostHit swaHostHit mambaHostHit _ _ =>
    decide (0 < hostHit) || decide (0 < swaHostHit) || decide (0 < mambaHostHit)
  | chunked .. => false

/-- The prefix with which the first rank runs the request. -/
def executedPrefix (ppSize : ℕ) (g : Guard ρ) : Candidate ρ → ℕ
  | c@(waiting rid deviceMatch _ _ _ loadedBack _) =>
    let told := if 1 < ppSize then prefixLenFor g rid deviceMatch else deviceMatch
    -- the load-back follows the cut
    if c.needsHostLoadBack then told + loadedBack else told
  | chunked _ computed _ => computed

/-- The request as the first rank's batch has it. -/
def execute (ppSize : ℕ) (g : Guard ρ) (c : Candidate ρ) : Req ρ :=
  { rid := c.rid
    prefixLen := c.executedPrefix ppSize g
    extendRange := some (c.executedPrefix ppSize g, c.executedPrefix ppSize g + c.extendLen)
    fillLen := none }

/-- What is announced of the request. -/
def entry (ppSize : ℕ) (g : Guard ρ) (c : Candidate ρ) : Entry ρ :=
  { rid := c.rid
    prefixLen := c.executedPrefix ppSize g
    extendLen := c.extendLen }

end Candidate

/-- The first rank's state, with the history of each request. -/
structure State (ρ : Type) where
  /-- `_pp_admission_guard`. -/
  guard : Guard ρ := []
  /-- The announced lengths at which a request was retracted since it was last served, the
  latest first. -/
  history : ρ → List ℕ := fun _ => []
  /-- The decisions under way, as they will come back. -/
  inFlight : List (Decision ρ) := []

/-- What comes back for an entry, in the history. -/
def note (h : ρ → List ℕ) (e : Entry ρ) : ρ → List ℕ :=
  if e.retracted then Function.update h e.rid (e.prefixLen :: h e.rid)
  else if e.admitted then Function.update h e.rid []
  else h

/-- What happens at the first rank. -/
inductive Op (ρ : Type)
  /-- A pass is announced, and goes down the chain. -/
  | announce (mbId : ℕ) (candidates : List (Candidate ρ)) (hops : List (Hop ρ))
  /-- The decision of the `i`-th pass under way comes back with its output. -/
  | absorb (i : ℕ)
  deriving DecidableEq, Repr

/-- One step. -/
def step (ppSize : ℕ) (s : State ρ) : Op ρ → Except (PPScheduleRefused ρ) (State ρ)
  | .announce mbId candidates hops => do
    let d ← buildPpAdmissionDecision mbId (candidates.map (Candidate.execute ppSize s.guard))
      ppSize (some s.guard) true
    return { s with inFlight := s.inFlight ++ [(chain ppSize 1 hops (d, false)).1] }
  | .absorb i =>
    match s.inFlight[i]? with
    | none => .ok s
    | some d => .ok
      { guard := recordReturnTrip s.guard d
        history := d.entries.foldl note s.history
        inFlight := s.inFlight.eraseIdx i }

/-- A pass has one hop for each later rank, and no request twice. -/
def Permitted (ppSize : ℕ) : Op ρ → Prop
  | .announce _ candidates hops =>
    hops.length + 1 = ppSize ∧ (candidates.map Candidate.rid).Nodup
  | .absorb _ => True

instance (ppSize : ℕ) (op : Op ρ) : Decidable (Permitted ppSize op) := by
  cases op <;> unfold Permitted <;> infer_instance

/-- The first rank of a pipeline. -/
def system (ppSize : ℕ) : OpSystem (State ρ) (Op ρ) (PPScheduleRefused ρ) where
  step := step ppSize
  Permitted _ := Permitted ppSize

instance (ppSize : ℕ) (s : State ρ) (op : Op ρ) : Decidable ((system ppSize).Permitted s op) :=
  inferInstanceAs (Decidable (Permitted ppSize op))

/-- **Nothing goes past a floor**: of a waiting request nothing is loaded back, or no more than the
floor leaves room for above the match; of a carried chunk no more than the floor is computed. -/
def WithinFloor (g : Guard ρ) : Candidate ρ → Prop
  | c@(.waiting rid deviceMatch _ _ _ loadedBack _) => ∀ floor ∈ g.lookup rid,
    c.needsHostLoadBack = true → loadedBack = 0 ∨ deviceMatch + loadedBack ≤ floor
  | .chunked rid computed _ => ∀ floor ∈ g.lookup rid, computed ≤ floor

instance (g : Guard ρ) (c : Candidate ρ) : Decidable (WithinFloor g c) := by
  cases c <;> unfold WithinFloor <;> infer_instance

/-- **A pass in order**: each of its requests is not under way already, and nothing of it goes past
its floor. -/
def Orderly (s : State ρ) : Op ρ → Prop
  | .announce _ candidates _ => ∀ c ∈ candidates,
    c.rid ∉ (s.inFlight.flatMap Decision.entries).map Entry.rid ∧ WithinFloor s.guard c
  | .absorb _ => True

instance (s : State ρ) (op : Op ρ) : Decidable (Orderly s op) := by
  cases op <;> unfold Orderly <;> infer_instance

/-- Then the request runs with no more than its floor. -/
theorem executedPrefix_le {ppSize : ℕ} (hsize : 1 < ppSize) {g : Guard ρ} {c : Candidate ρ}
    (h : WithinFloor g c) {floor : ℕ} (hfloor : g.lookup c.rid = some floor) :
    c.executedPrefix ppSize g ≤ floor := by
  cases c with
  | chunked rid computed extendLen => exact h floor hfloor
  | waiting rid deviceMatch hostHit swaHostHit mambaHostHit loadedBack extendLen =>
    have hcut : prefixLenFor g rid deviceMatch = min deviceMatch floor := by
      rw [prefixLenFor, show g.lookup rid = some floor from hfloor]
    have hback := h floor hfloor
    rw [Candidate.executedPrefix, if_pos hsize, hcut]
    split
    · next hneeds =>
      rcases hback hneeds with hzero | hroom
      · rw [hzero]
        exact min_le_right _ _
      · exact (Nat.add_le_add_right (min_le_left _ _) _).trans hroom
    · exact min_le_right _ _

/-! ### The announced decision -/

theorem buildEntry_execute (ppSize : ℕ) (g : Guard ρ) (c : Candidate ρ) :
    buildEntry ppSize (some g) true (c.execute ppSize g) = .ok (c.entry ppSize g) := by
  simp [buildEntry, executedExtent, Candidate.execute, Candidate.entry]

theorem build_execute (ppSize mbId : ℕ) (g : Guard ρ) (candidates : List (Candidate ρ)) :
    buildPpAdmissionDecision mbId (candidates.map (Candidate.execute ppSize g)) ppSize
        (some g) true =
      .ok { mbId := mbId, entries := candidates.map (Candidate.entry ppSize g) } := by
  have hentries : (candidates.map (Candidate.execute ppSize g)).mapM
      (buildEntry ppSize (some g) true) =
        (.ok (candidates.map (Candidate.entry ppSize g)) :
          Except (PPScheduleRefused ρ) (List (Entry ρ))) := by
    rw [List.mapM_map]
    simp only [Function.comp_def, buildEntry_execute]
    exact List.mapM_pure
  rw [buildPpAdmissionDecision, hentries]
  rfl

/-- What comes back of a fresh entry: the request and the length are those announced, and a
retraction tells of less. -/
theorem Amended.of_entry {ppSize : ℕ} {g : Guard ρ} {c : Candidate ρ} {e : Entry ρ}
    (h : Amended (c.entry ppSize g) e) :
    e.rid = c.rid ∧ e.prefixLen = c.executedPrefix ppSize g ∧
      (e.retracted = true → ∃ o, e.observedLocal = some o ∧ o < e.prefixLen) := by
  refine ⟨h.rid_eq, h.prefixLen_eq, fun hretracted => ?_⟩
  cases h with
  | refl => cases hretracted
  | dropped _ => cases hretracted
  | retracted rank observed _ hlt => exact ⟨observed, rfl, hlt⟩

/-! ### The invariant -/

/-- **The guard and the history agree** with each other and with the entries under way. -/
structure Consistent (g : Guard ρ) (h : ρ → List ℕ) (es : List (Entry ρ)) : Prop where
  /-- A floor is below the last retraction. -/
  floor : ∀ rid t, (h rid).head? = some t → ∃ f, g.lookup rid = some f ∧ f < t
  /-- Each retraction was at a smaller length than the one before it. -/
  ascending : ∀ rid, (h rid).Pairwise (· < ·)
  pos : ∀ rid, ∀ t ∈ h rid, 0 < t
  distinct : (es.map Entry.rid).Nodup
  /-- What is under way is below the last retraction. -/
  less : ∀ e ∈ es, ∀ t, (h e.rid).head? = some t → e.prefixLen < t
  /-- A retraction tells of less than was announced. -/
  observed : ∀ e ∈ es, e.retracted = true → ∃ o, e.observedLocal = some o ∧ o < e.prefixLen

theorem forall_lt_of_head {l : List ℕ} (hl : l.Pairwise (· < ·)) {n : ℕ}
    (hn : ∀ t, l.head? = some t → n < t) : ∀ t ∈ l, n < t := by
  cases l with
  | nil => simp
  | cons a l =>
    intro t ht
    have ha : n < a := hn a rfl
    rcases List.mem_cons.mp ht with rfl | ht
    · exact ha
    · exact ha.trans ((List.pairwise_cons.mp hl).1 t ht)

theorem Consistent.perm {g : Guard ρ} {h : ρ → List ℕ} {es es' : List (Entry ρ)}
    (hc : Consistent g h es) (hperm : es.Perm es') : Consistent g h es' where
  floor := hc.floor
  ascending := hc.ascending
  pos := hc.pos
  distinct := (hperm.map Entry.rid).nodup_iff.mp hc.distinct
  less e he := hc.less e (hperm.mem_iff.mpr he)
  observed e he := hc.observed e (hperm.mem_iff.mpr he)

/-- A retraction comes back. -/
theorem Consistent.retract {g : Guard ρ} {h : ρ → List ℕ} {e : Entry ρ} {es : List (Entry ρ)}
    (hc : Consistent g h (e :: es)) (hretracted : e.retracted = true) :
    Consistent (recordEntry g e) (note h e) es := by
  obtain ⟨o, hobserved, hlt⟩ := hc.observed e List.mem_cons_self hretracted
  obtain ⟨hfresh, hdistinct⟩ := List.nodup_cons.mp hc.distinct
  have hnote : note h e = Function.update h e.rid (e.prefixLen :: h e.rid) := by
    rw [note, if_pos hretracted]
  -- the new floor is at most what was observed
  obtain ⟨f, hrecord, hf⟩ : ∃ f, recordEntry g e = Dict.set g e.rid f ∧ f ≤ o := by
    rw [recordEntry, if_pos hretracted, hobserved]
    cases g.lookup e.rid with
    | none => exact ⟨o, rfl, le_rfl⟩
    | some existing => exact ⟨min existing o, rfl, min_le_right _ _⟩
  have hne : ∀ e' ∈ es, e'.rid ≠ e.rid := fun e' he' heq =>
    hfresh (heq ▸ List.mem_map_of_mem he')
  have hbelow := forall_lt_of_head (hc.ascending e.rid) (hc.less e List.mem_cons_self)
  rw [hnote, hrecord]
  refine ⟨fun rid t ht => ?_, fun rid => ?_, fun rid t ht => ?_, hdistinct,
    fun e' he' t ht => ?_, fun e' he' => hc.observed e' (List.mem_cons_of_mem _ he')⟩
  · by_cases hrid : rid = e.rid
    · subst hrid
      obtain rfl : e.prefixLen = t := by simpa using ht
      exact ⟨f, Dict.lookup_set_self .., hf.trans_lt hlt⟩
    · rw [Function.update_of_ne hrid] at ht
      rw [Dict.lookup_set_of_ne g f hrid]
      exact hc.floor rid t ht
  · by_cases hrid : rid = e.rid
    · subst hrid
      rw [Function.update_self]
      exact List.pairwise_cons.mpr ⟨hbelow, hc.ascending _⟩
    · rw [Function.update_of_ne hrid]
      exact hc.ascending rid
  · by_cases hrid : rid = e.rid
    · subst hrid
      rw [Function.update_self] at ht
      rcases List.mem_cons.mp ht with rfl | ht
      · exact Nat.zero_lt_of_lt hlt
      · exact hc.pos _ t ht
    · rw [Function.update_of_ne hrid] at ht
      exact hc.pos rid t ht
  · rw [Function.update_of_ne (hne e' he')] at ht
    exact hc.less e' (List.mem_cons_of_mem _ he') t ht

/-- A request was served. -/
theorem Consistent.serve {g : Guard ρ} {h : ρ → List ℕ} {e : Entry ρ} {es : List (Entry ρ)}
    (hc : Consistent g h (e :: es)) :
    Consistent (Dict.erase g e.rid) (Function.update h e.rid []) es := by
  obtain ⟨hfresh, hdistinct⟩ := List.nodup_cons.mp hc.distinct
  refine ⟨fun rid t ht => ?_, fun rid => ?_, fun rid t ht => ?_, hdistinct,
    fun e' he' t ht => ?_, fun e' he' => hc.observed e' (List.mem_cons_of_mem _ he')⟩
  all_goals try by_cases hrid : rid = e.rid
  · subst hrid
    simp at ht
  · rw [Function.update_of_ne hrid] at ht
    rw [Dict.lookup_erase_of_ne g hrid]
    exact hc.floor rid t ht
  · subst hrid
    simp
  · rw [Function.update_of_ne hrid]
    exact hc.ascending rid
  · subst hrid
    simp at ht
  · rw [Function.update_of_ne hrid] at ht
    exact hc.pos rid t ht
  · have hne : e'.rid ≠ e.rid := fun heq => hfresh (heq ▸ List.mem_map_of_mem he')
    rw [Function.update_of_ne hne] at ht
    exact hc.less e' (List.mem_cons_of_mem _ he') t ht

/-- **One entry comes back.** -/
theorem Consistent.record {g : Guard ρ} {h : ρ → List ℕ} {e : Entry ρ} {es : List (Entry ρ)}
    (hc : Consistent g h (e :: es)) : Consistent (recordEntry g e) (note h e) es := by
  by_cases hretracted : e.retracted = true
  · exact hc.retract hretracted
  rw [recordEntry, note, if_neg hretracted, if_neg hretracted]
  split
  · exact hc.serve
  · exact ⟨hc.floor, hc.ascending, hc.pos, (List.nodup_cons.mp hc.distinct).2,
      fun e' he' => hc.less e' (List.mem_cons_of_mem _ he'),
      fun e' he' => hc.observed e' (List.mem_cons_of_mem _ he')⟩

/-- A whole decision comes back. -/
theorem Consistent.recordAll {g : Guard ρ} {h : ρ → List ℕ} {es rest : List (Entry ρ)}
    (hc : Consistent g h (es ++ rest)) :
    Consistent (es.foldl recordEntry g) (es.foldl note h) rest := by
  induction es generalizing g h with
  | nil => exact hc
  | cons e es ih => exact ih hc.record

/-- The invariant of a run. -/
def State.Inv (s : State ρ) : Prop :=
  Consistent s.guard s.history (s.inFlight.flatMap Decision.entries)

theorem inv_init : ({} : State ρ).Inv :=
  ⟨by simp, by simp, by simp, by simp, by simp, by simp⟩

/-- **What is announced is below the last retraction.** -/
theorem State.Inv.announced_lt {ppSize : ℕ} (hsize : 1 < ppSize) {s : State ρ} (hinv : s.Inv)
    {c : Candidate ρ} (hfloor : WithinFloor s.guard c) {t : ℕ}
    (ht : (s.history c.rid).head? = some t) : c.executedPrefix ppSize s.guard < t := by
  obtain ⟨f, hlookup, hlt⟩ := hinv.floor c.rid t ht
  exact (executedPrefix_le hsize hfloor hlookup).trans_lt hlt

/-- What is announced, and what will come back of it. -/
theorem step_announce {ppSize mbId : ℕ} {s s' : State ρ} {candidates : List (Candidate ρ)}
    {hops : List (Hop ρ)} (h : step ppSize s (.announce mbId candidates hops) = .ok s') :
    ∃ d : Decision ρ, s' = { s with inFlight := s.inFlight ++ [d] } ∧
      List.Forall₂ Amended (candidates.map (Candidate.entry ppSize s.guard)) d.entries := by
  rw [step, build_execute] at h
  obtain rfl := Except.ok.inj h
  exact ⟨_, rfl, chain_amended ppSize 1 hops
    (⟨mbId, candidates.map (Candidate.entry ppSize s.guard)⟩, false)⟩

omit [DecidableEq ρ] in
/-- Every entry of an amended decision comes from an announced one. -/
theorem exists_amended {l l' : List (Entry ρ)} (h : List.Forall₂ Amended l l') {e' : Entry ρ}
    (he' : e' ∈ l') : ∃ e ∈ l, Amended e e' := by
  induction h with
  | nil => cases he'
  | cons hab _ ih =>
    rcases List.mem_cons.mp he' with rfl | he'
    · exact ⟨_, List.mem_cons_self, hab⟩
    · obtain ⟨e, he, hamended⟩ := ih he'
      exact ⟨e, List.mem_cons_of_mem _ he, hamended⟩

omit [DecidableEq ρ] in
theorem map_rid_amended {l l' : List (Entry ρ)} (h : List.Forall₂ Amended l l') :
    l'.map Entry.rid = l.map Entry.rid := by
  induction h with
  | nil => rfl
  | cons hab _ ih => rw [List.map_cons, List.map_cons, hab.rid_eq, ih]

/-- **One step keeps the invariant.** -/
theorem step_inv {ppSize : ℕ} (hsize : 1 < ppSize) {s s' : State ρ} {op : Op ρ} (hinv : s.Inv)
    (hperm : Permitted ppSize op) (horderly : Orderly s op)
    (h : step ppSize s op = .ok s') : s'.Inv := by
  cases op with
  | announce mbId candidates hops =>
    obtain ⟨d, rfl, hamended⟩ := step_announce h
    have hrids : d.entries.map Entry.rid = candidates.map Candidate.rid := by
      rw [map_rid_amended hamended, List.map_map]
      rfl
    have hentry : ∀ e ∈ d.entries, ∃ c ∈ candidates, Amended (c.entry ppSize s.guard) e := by
      intro e he
      obtain ⟨e₀, he₀, hae⟩ := exists_amended hamended he
      obtain ⟨c, hc, rfl⟩ := List.mem_map.mp he₀
      exact ⟨c, hc, hae⟩
    have hflat : (s.inFlight ++ [d]).flatMap Decision.entries =
        s.inFlight.flatMap Decision.entries ++ d.entries := by
      simp
    rw [State.Inv, hflat]
    refine ⟨hinv.floor, hinv.ascending, hinv.pos, ?_, fun e he t ht => ?_, fun e he => ?_⟩
    · rw [List.map_append, List.nodup_append, hrids]
      refine ⟨hinv.distinct, hperm.2, fun r hr r' hr' heq => ?_⟩
      obtain ⟨c, hc, rfl⟩ := List.mem_map.mp hr'
      exact (horderly c hc).1 (heq ▸ hr)
    · rcases List.mem_append.mp he with he | he
      · exact hinv.less e he t ht
      · obtain ⟨c, hc, hae⟩ := hentry e he
        obtain ⟨hrid, hlen, -⟩ := hae.of_entry
        rw [hlen]
        exact hinv.announced_lt hsize (horderly c hc).2 (hrid ▸ ht)
    · rcases List.mem_append.mp he with he | he
      · exact hinv.observed e he
      · obtain ⟨c, -, hae⟩ := hentry e he
        exact hae.of_entry.2.2
  | absorb i =>
    rw [step] at h
    split at h
    · obtain rfl := Except.ok.inj h
      exact hinv
    · next d hd =>
      obtain rfl := Except.ok.inj h
      obtain ⟨hi, rfl⟩ := List.getElem?_eq_some_iff.mp hd
      have hflat := (List.getElem_cons_eraseIdx_perm hi).flatMap_right Decision.entries
      exact (hinv.perm hflat.symm).recordAll

theorem reaches_inv {ppSize : ℕ} (hsize : 1 < ppSize) {s : State ρ}
    (h : (system ppSize).Reaches Orderly {} s) : s.Inv :=
  h.invariant inv_init fun _ _ _ hinv hperm horderly hok => step_inv hsize hinv hperm horderly hok

/-- As many retractions as the first announced length allows. -/
theorem length_add_le_getLast {l : List ℕ} (hl : l.Pairwise (· < ·)) {k : ℕ}
    (hk : ∀ t ∈ l, k < t) {told : ℕ} (htold : l.getLast? = some told) : l.length + k ≤ told := by
  induction l generalizing k with
  | nil => cases htold
  | cons a l ih =>
    have ha : k < a := hk a List.mem_cons_self
    cases l with
    | nil =>
      obtain rfl : a = told := by simpa using htold
      simpa [Nat.add_comm] using ha
    | cons b l =>
      obtain ⟨hab, hl'⟩ := List.pairwise_cons.mp hl
      have hrest := ih hl' hab (by simpa using htold)
      simp only [List.length_cons] at hrest ⊢
      omega

/-- **Retractions make progress** in every run whose passes are in order. Each retraction of a
request is at a smaller announced length than the one before, there are at most as many as the
first announced length, and whatever is announced next is smaller again. -/
theorem retraction_progress (ppSize : ℕ) (hsize : 1 < ppSize) (s : State ρ)
    (h : (system ppSize).Reaches Orderly {} s) :
    (∀ rid, (s.history rid).Pairwise (· < ·)) ∧
    (∀ rid told, (s.history rid).getLast? = some told → (s.history rid).length ≤ told) ∧
    (∀ mbId candidates hops, Permitted ppSize (.announce mbId candidates hops) →
      Orderly s (.announce mbId candidates hops) →
      ∃ d, step ppSize s (.announce mbId candidates hops) =
          .ok { s with inFlight := s.inFlight ++ [d] } ∧
        d.entries.map Entry.rid = candidates.map Candidate.rid ∧
        ∀ e ∈ d.entries, ∀ t, (s.history e.rid).head? = some t → e.prefixLen < t) := by
  have hinv := reaches_inv hsize h
  refine ⟨hinv.ascending, fun rid told htold => ?_, fun mbId candidates hops _ horderly => ?_⟩
  · exact length_add_le_getLast (hinv.ascending rid) (hinv.pos rid) htold
  · obtain ⟨s', hok⟩ : ∃ s', step ppSize s (.announce mbId candidates hops) = .ok s' := by
      rw [step, build_execute]
      exact ⟨_, rfl⟩
    obtain ⟨d, rfl, hamended⟩ := step_announce hok
    refine ⟨d, hok, ?_, fun e he t ht => ?_⟩
    · rw [map_rid_amended hamended, List.map_map]
      rfl
    · obtain ⟨e₀, he₀, hae⟩ := exists_amended hamended he
      obtain ⟨c, hc, rfl⟩ := List.mem_map.mp he₀
      obtain ⟨hrid, hlen, -⟩ := hae.of_entry
      rw [hlen]
      exact hinv.announced_lt hsize (horderly c hc).2 (hrid ▸ ht)

/-- A pass of one waiting request on three ranks, the second of which holds `local₁` of it. -/
def passOfOne (deviceMatch hostHit local₁ : ℕ) : Op ℕ :=
  .announce 0 [.waiting 0 deviceMatch hostHit 0 0 hostHit 4]
    [{ locals := [(0, local₁)] }, { locals := [(0, 16)] }]

/-- The second rank loses more of the request after its first retraction, and is asked for less each
time, at last for three tokens and two that are loaded back. -/
theorem retraction_progress_shrinking :
    ∃ s : State ℕ, (system 3).Reaches Orderly {} s ∧ s.history 0 = [6, 8] ∧
      ∃ d, step 3 s (passOfOne 3 2 5) = .ok { s with inFlight := s.inFlight ++ [d] } ∧
        ∀ e ∈ d.entries, ∀ t, (s.history e.rid).head? = some t → e.prefixLen < t := by
  have hrun : ((system 3).run Orderly ({} : State ℕ)
      [passOfOne 8 0 6, .absorb 0, passOfOne 8 0 5, .absorb 0]).any (fun s =>
        decide (s.history 0 = [6, 8] ∧ Orderly s (passOfOne 3 2 5))) = true := by
    decide +kernel
  obtain ⟨s, hs, hend⟩ := (Option.any_eq_true _ _).mp hrun
  obtain ⟨hhistory, horderly⟩ := of_decide_eq_true hend
  have hreaches := OpSystem.Reaches.of_run .refl hs
  obtain ⟨d, hok, -, hless⟩ := (retraction_progress 3 (by decide) s hreaches).2.2 _ _ _
    (show Permitted 3 (passOfOne 3 2 5) by decide) horderly
  exact ⟨s, hreaches, hhistory, d, hok, hless⟩

/-- **A retraction need not make progress.** The first rank has 8 tokens of the request and the
second 6; before the next pass the first rank's cache has moved 4 of its 8 to the host, and
loading them back makes 8 again. And a request in the middle of a chunked prefill, of which one
token is computed and which the second rank does not find, is announced at length 1 twice. -/
theorem retraction_repeats :
    (((system 3).run (fun _ _ => True) ({} : State ℕ)
      [passOfOne 8 0 6, .absorb 0, passOfOne 4 4 6, .absorb 0]).any fun s =>
        decide (s.history 0 = [8, 8] ∧ s.guard = [(0, 6)])) = true ∧
    (((system 2).run (fun _ _ => True) ({} : State ℕ)
      [.announce 0 [.chunked 0 1 4] [{ locals := [] }], .absorb 0,
        .announce 0 [.chunked 0 1 4] [{ locals := [] }], .absorb 0]).any fun s =>
        decide (s.history 0 = [1, 1] ∧ s.guard = [(0, 0)])) = true := by
  decide +kernel

end PpAdmission

end HtSglang
