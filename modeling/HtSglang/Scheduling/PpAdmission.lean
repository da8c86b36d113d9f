import HtSglang.Library.Dict
import HtSglang.Library.Loop

/-!
# Admission decisions on a pipeline

Under pipeline parallelism only the first rank decides which requests are in a batch and how
much of each is reused from the cache. What it decided travels down the chain as a list of
entries (`managers/pp_admission_congruence.py`). A later rank may have less of a request in
its own cache than the entry says; it cannot run such an entry, so it *retracts* it and
writes down what it has (`HtSglang.PpAdmission.reconcilePpAdmissionDecision`), and the whole
pass is given up there (`HtSglang.PpAdmission.voidPpAdmissionDecision`). The decision, with
everything the ranks wrote into it, returns to the first rank.

What a rank can do to an entry is said once, by `HtSglang.PpAdmission.Amended`: nothing, drop
it, or retract it with a local match that is shorter than what was asked for – and only the
first rank that touches it can. `HtSglang.PpAdmission.chain_amended` is the same for the whole
chain.
-/

namespace HtSglang

namespace PpAdmission

/-! ### Decisions -/

/-- `PPAdmissionEntry`: the decision about one request, as it crosses the wire. -/
structure Entry (ρ : Type) where
  rid : ρ
  /-- `prefix_len`: how many leading tokens are reused. -/
  prefixLen : ℕ
  /-- `extend_len`: how many are computed. -/
  extendLen : ℕ
  admitted : Bool := true
  retracted : Bool := false
  retractedByRank : Option ℕ := none
  /-- `observed_local`: what the retracting rank has. -/
  observedLocal : Option ℕ := none
  deriving DecidableEq, Repr

/-- `PPAdmissionDecision`: the decision about one microbatch slot. -/
structure Decision (ρ : Type) where
  mbId : ℕ
  entries : List (Entry ρ)
  deriving DecidableEq, Repr

/-- What a rank holds of each request that it was asked about. -/
abbrev LocalMatches (ρ : Type) := List (ρ × ℕ)

section Decisions

variable {ρ : Type} [DecidableEq ρ]

/-! ### What the first rank remembers -/

/-- `PPAdmissionCongruenceGuard._learned_floor`. -/
abbrev Guard (ρ : Type) := List (ρ × ℕ)

/-- `prefix_len_for`: a candidate length, cut to the floor of the request. -/
def prefixLenFor (g : Guard ρ) (rid : ρ) (candidate : ℕ) : ℕ :=
  match g.lookup rid with
  | none => candidate
  | some floor => min candidate floor

/-- One entry of a decision that came back. -/
def recordEntry (g : Guard ρ) (e : Entry ρ) : Guard ρ :=
  if e.retracted then
    match e.observedLocal with
    | none => g
    | some observed =>
      match g.lookup e.rid with
      | none => Dict.set g e.rid observed
      | some existing => Dict.set g e.rid (min existing observed)
  else if e.admitted then Dict.erase g e.rid
  else g

/-- `record_return_trip`. -/
def recordReturnTrip (g : Guard ρ) (d : Decision ρ) : Guard ρ := d.entries.foldl recordEntry g

/-! ### The first rank's decision -/

/-- What is read of a request of the first rank's batch. -/
structure Req (ρ : Type) where
  rid : ρ
  /-- `len(prefix_indices)`. -/
  prefixLen : ℕ
  /-- `extend_range`: start and end. -/
  extendRange : Option (ℕ × ℕ)
  /-- `len(full_untruncated_fill_ids)`. -/
  fillLen : Option ℕ
  deriving DecidableEq, Repr

/-- `PPScheduleRefused`. -/
inductive PPScheduleRefused (ρ : Type)
  /-- The request has no executed geometry. -/
  | unbuildable (rid : ρ)
  deriving DecidableEq, Repr

/-- `_executed_extent`: start and length. -/
def executedExtent (r : Req ρ) : Option (ℕ × ℕ) := r.extendRange.map fun e => (e.1, e.2 - e.1)

/-- One entry of `build_pp_admission_decision`. -/
def buildEntry (ppSize : ℕ) (guard : Option (Guard ρ)) (requireExecutedGeometry : Bool)
    (r : Req ρ) : Except (PPScheduleRefused ρ) (Entry ρ) :=
  match executedExtent r with
  | some e => .ok { rid := r.rid, prefixLen := e.1, extendLen := e.2 }
  | none =>
    if requireExecutedGeometry then .error (.unbuildable r.rid)
    else
      -- `extend_input_len` is set nowhere, so the length always comes from the fill
      let rawExtendLen := (r.fillLen.map fun n => n - r.prefixLen).getD 0
      let told :=
        match guard with
        | some g => if 1 < ppSize then prefixLenFor g r.rid r.prefixLen else r.prefixLen
        | none => r.prefixLen
      .ok { rid := r.rid, prefixLen := told, extendLen := rawExtendLen + (r.prefixLen - told) }

/-- `build_pp_admission_decision`. -/
def buildPpAdmissionDecision (mbId : ℕ) (reqs : List (Req ρ)) (ppSize : ℕ)
    (guard : Option (Guard ρ)) (requireExecutedGeometry : Bool) :
    Except (PPScheduleRefused ρ) (Decision ρ) := do
  let entries ← reqs.mapM (buildEntry ppSize guard requireExecutedGeometry)
  return { mbId := mbId, entries := entries }

/-! ### A rank's part -/

/-- Still to be run: admitted, and not retracted. -/
def Entry.live (e : Entry ρ) : Bool := e.admitted && !e.retracted

/-- `local_match_lens.get(rid, 0)`. -/
def localMatch (locals : LocalMatches ρ) (rid : ρ) : ℕ := (locals.lookup rid).getD 0

/-- An entry as a rank leaves it. -/
def reconcileEntry (locals : LocalMatches ρ) (rank : ℕ) (e : Entry ρ) : Entry ρ :=
  if !e.admitted || e.retracted then e
  else if e.prefixLen ≤ localMatch locals e.rid then e
  else { e with
    admitted := false
    retracted := true
    retractedByRank := some rank
    observedLocal := some (localMatch locals e.rid) }

/-- `reconcile_pp_admission_decision`: what the rank may run, and what it forwards. -/
def reconcilePpAdmissionDecision (d : Decision ρ) (locals : LocalMatches ρ) (rank ppSize : ℕ) :
    List (ρ × ℕ) × Decision ρ :=
  if ppSize ≤ 1 then
    ((d.entries.filter fun e => e.admitted).map fun e => (e.rid, e.prefixLen), d)
  else
    ((d.entries.filter fun e => e.live && decide (e.prefixLen ≤ localMatch locals e.rid)).map
      fun e => (e.rid, e.prefixLen),
      { d with entries := d.entries.map (reconcileEntry locals rank) })

/-- `entries_retracted_by_rank`. -/
def entriesRetractedByRank (d : Decision ρ) (rank : ℕ) : List (Entry ρ) :=
  d.entries.filter fun e => e.retracted && decide (e.retractedByRank = some rank)

/-- An entry of a pass that is given up. -/
def voidEntry (e : Entry ρ) : Entry ρ := if e.live then { e with admitted := false } else e

/-- `void_pp_admission_decision`: what is still admitted is dropped, retractions stay. -/
def voidPpAdmissionDecision (d : Decision ρ) : Decision ρ :=
  if ¬(d.entries.any fun e => e.live) then d else { d with entries := d.entries.map voidEntry }

/-- `pp_pass_should_void`: this rank retracted something, or an earlier one gave the pass up. -/
def ppPassShouldVoid (amended : Decision ρ) (rank : ℕ) (incomingVoided : Bool) : Bool :=
  incomingVoided || !(entriesRetractedByRank amended rank).isEmpty

/-- `_pp_void_retracted_pass`, after the reconciliation: what the rank may run, what it
forwards, and whether the pass is given up. -/
def receiveDecision (d : Decision ρ) (voided : Bool) (locals : LocalMatches ρ) (rank ppSize : ℕ) :
    List (ρ × ℕ) × Decision ρ × Bool :=
  let r := reconcilePpAdmissionDecision d locals rank ppSize
  if ppPassShouldVoid r.2 rank voided then ([], voidPpAdmissionDecision r.2, true)
  else (r.1, r.2, false)

/-- What one rank brings to a pass. -/
structure Hop (ρ : Type) where
  /-- What it holds of the requests. -/
  locals : LocalMatches ρ
  /-- Whether it gives the pass up after all: its batch cannot be built as the decision says
  (`_pp_refuse_forwarded_schedule`), or the rank before it launched nothing
  (`_pp_void_pass_without_upstream_launch`). -/
  givesUp : Bool := false
  deriving DecidableEq, Repr

/-- A rank's part in a pass: the decision it forwards, and whether the pass is given up. -/
def hop (ppSize rank : ℕ) (h : Hop ρ) (s : Decision ρ × Bool) : Decision ρ × Bool :=
  let r := receiveDecision s.1 s.2 h.locals rank ppSize
  if h.givesUp then (voidPpAdmissionDecision r.2.1, true) else r.2

/-- The decision after the ranks from `rank` on. -/
def chain (ppSize : ℕ) : ℕ → List (Hop ρ) → Decision ρ × Bool → Decision ρ × Bool
  | _, [], s => s
  | rank, h :: rest, s => chain ppSize (rank + 1) rest (hop ppSize rank h s)

/-! ### What can become of an entry -/

/-- **What can become of an entry**: nothing; or, when it is still to be run, it is dropped, or
it is retracted by a rank that has less than was asked for. -/
inductive Amended : Entry ρ → Entry ρ → Prop
  /-- It stays. -/
  | refl (e : Entry ρ) : Amended e e
  /-- It is dropped with the pass. -/
  | dropped {e : Entry ρ} : e.live = true → Amended e { e with admitted := false }
  | retracted {e : Entry ρ} (rank observed : ℕ) : e.live = true → observed < e.prefixLen →
      Amended e { e with
        admitted := false
        retracted := true
        retractedByRank := some rank
        observedLocal := some observed }

omit [DecidableEq ρ] in
/-- An entry that is no longer to be run is left alone. -/
theorem Amended.eq_of_not_live {e e' : Entry ρ} (h : Amended e e') (hl : e.live = false) :
    e' = e := by
  cases h with
  | refl => rfl
  | dropped hlive => simp [hl] at hlive
  | retracted _ _ hlive => simp [hl] at hlive

omit [DecidableEq ρ] in
/-- Only the first change counts. -/
theorem Amended.trans {e e' e'' : Entry ρ} (h : Amended e e') (h' : Amended e' e'') :
    Amended e e'' := by
  cases h with
  | refl => exact h'
  | dropped hlive =>
    rw [h'.eq_of_not_live (by simp [Entry.live])]
    exact .dropped hlive
  | retracted rank observed hlive hlt =>
    rw [h'.eq_of_not_live (by simp [Entry.live])]
    exact .retracted rank observed hlive hlt

omit [DecidableEq ρ] in
theorem Amended.rid_eq {e e' : Entry ρ} (h : Amended e e') : e'.rid = e.rid := by
  cases h <;> rfl

omit [DecidableEq ρ] in
theorem Amended.prefixLen_eq {e e' : Entry ρ} (h : Amended e e') : e'.prefixLen = e.prefixLen := by
  cases h <;> rfl

theorem reconcileEntry_amended (locals : LocalMatches ρ) (rank : ℕ) (e : Entry ρ) :
    Amended e (reconcileEntry locals rank e) := by
  rw [reconcileEntry]
  split
  · exact .refl e
  next hlive =>
  split
  · exact .refl e
  · next hshort =>
    exact .retracted rank _ (by simpa [Entry.live] using hlive) (not_le.mp hshort)

omit [DecidableEq ρ] in
theorem voidEntry_amended (e : Entry ρ) : Amended e (voidEntry e) := by
  rw [voidEntry]
  split
  · next hlive => exact .dropped hlive
  · exact .refl e

omit [DecidableEq ρ] in
theorem forall₂_map_of {R : Entry ρ → Entry ρ → Prop} {f : Entry ρ → Entry ρ} (h : ∀ e, R e (f e))
    (l : List (Entry ρ)) : List.Forall₂ R l (l.map f) := by
  rw [List.forall₂_map_right_iff]
  exact List.forall₂_same.mpr fun e _ => h e

omit [DecidableEq ρ] in
theorem forall₂_amended_trans {l l' l'' : List (Entry ρ)} (h : List.Forall₂ Amended l l')
    (h' : List.Forall₂ Amended l' l'') : List.Forall₂ Amended l l'' := by
  induction h generalizing l'' with
  | nil => exact h'
  | cons hab _ ih =>
    cases h' with
    | cons hbc hrest => exact .cons (hab.trans hbc) (ih hrest)

theorem reconcile_amended (d : Decision ρ) (locals : LocalMatches ρ) (rank ppSize : ℕ) :
    List.Forall₂ Amended d.entries
      (reconcilePpAdmissionDecision d locals rank ppSize).2.entries := by
  rw [reconcilePpAdmissionDecision]
  split
  · exact List.forall₂_same.mpr fun e _ => .refl e
  · exact forall₂_map_of (reconcileEntry_amended locals rank) _

omit [DecidableEq ρ] in
theorem void_amended (d : Decision ρ) :
    List.Forall₂ Amended d.entries (voidPpAdmissionDecision d).entries := by
  rw [voidPpAdmissionDecision]
  split
  · exact List.forall₂_same.mpr fun e _ => .refl e
  · exact forall₂_map_of voidEntry_amended _

theorem receiveDecision_amended (d : Decision ρ) (voided : Bool) (locals : LocalMatches ρ)
    (rank ppSize : ℕ) :
    List.Forall₂ Amended d.entries
      (receiveDecision d voided locals rank ppSize).2.1.entries := by
  have hreconcile := reconcile_amended d locals rank ppSize
  rw [receiveDecision]
  split
  · exact forall₂_amended_trans hreconcile (void_amended _)
  · exact hreconcile

theorem hop_amended (ppSize rank : ℕ) (h : Hop ρ) (s : Decision ρ × Bool) :
    List.Forall₂ Amended s.1.entries (hop ppSize rank h s).1.entries := by
  have hreceive := receiveDecision_amended s.1 s.2 h.locals rank ppSize
  rw [hop]
  split
  · exact forall₂_amended_trans hreceive (void_amended _)
  · exact hreceive

/-- **What the chain can do to a decision.** -/
theorem chain_amended (ppSize rank : ℕ) (hops : List (Hop ρ)) (s : Decision ρ × Bool) :
    List.Forall₂ Amended s.1.entries (chain ppSize rank hops s).1.entries := by
  induction hops generalizing rank s with
  | nil => exact List.forall₂_same.mpr fun e _ => .refl e
  | cons h rest ih =>
    exact forall₂_amended_trans (hop_amended ppSize rank h s) (ih (rank + 1) _)

end Decisions

end PpAdmission

end HtSglang
