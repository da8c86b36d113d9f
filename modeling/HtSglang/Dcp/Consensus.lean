import HtSglang.Dcp.ReshardRuntime

/-!
# The reshard consensus of a group

The ranks of a group run their runtimes (`HtSglang.Dcp.KvReshardRuntime`) independently: each
is armed when its delivery of the request arrives, each counts its own rounds, each
reads its own scheduler, memory and pool. The only thing that couples them is the
collective: a rank that reaches a boundary blocks in it until every rank has
entered, and then all of them leave it with the same reduced payload.

The group is a transition system (`HtSglang.Dcp.Group.Step`) in which every step but
the collective is a step of one rank, at its own pace; a rank may be armed, may
serve requests and may even reach its next boundary while another one is still busy
with the last. The invariant (`HtSglang.Dcp.Group.Inv`) is that there is one epoch
and one vector *at which the group lands*: a rank that has left the boundary is
there, and a rank that has not will be there when its half-round succeeds. The
current vector is never exchanged; that it is common is carried from boundary to
boundary by the target, which is.
-/

namespace HtSglang

namespace Dcp

open MinReduce KvReshardRuntime

variable {g : RowFormat}

/-! ### What the reduction decides -/

theorem verdict_of_ne_desync {n : ℕ} {reduced : List ℤ}
    (h : ∀ fields, verdict n reduced ≠ .desync fields) :
    ∀ i ∈ eqChecked n reduced, lowAt reduced i = highAt reduced i := by
  intro i hi
  by_contra hne
  have hmem : i ∈ (eqChecked n reduced).filter fun i => lowAt reduced i ≠ highAt reduced i := by
    simp [hi, hne]
  exact h _ (if_pos (List.ne_nil_of_mem hmem))

theorem verdict_eq_move {n : ℕ} {reduced : List ℤ} (h : verdict n reduced = .move) :
    (∀ i ∈ eqChecked n reduced, lowAt reduced i = highAt reduced i) ∧
      lowAt reduced 0 ≠ 0 ∧ lowAt reduced 1 ≠ 0 ∧ lowAt reduced 2 ≠ 0 := by
  refine ⟨verdict_of_ne_desync (by simp [h]), ?_⟩
  simp only [verdict] at h
  split at h
  · cases h
  split at h
  · cases h
  split at h
  · cases h
  split at h
  · cases h
  next h0 h1 h2 => exact ⟨h0, h1, h2⟩

/-- What a proposal says about the runtime it comes from. -/
theorem propose_spec {rt : KvReshardRuntime g} {rd : Readings} {p : Proposal}
    (h : rt.propose rd = .ok p) :
    p.armed = rt.pending.isSome ∧ p.epoch = rt.epoch ∧
      p.vec = rt.pending.getD (List.replicate rt.size 0) ∧
      (p.ready = true → ∃ target tr slots, rt.pending = some target ∧ p.plan = some tr ∧
        planMove slots rt.current target rt.rank = .ok tr) := by
  rw [propose] at h
  split at h
  · next hpend =>
    cases h
    simp [hpend]
  · next target hpend =>
    split at h
    · rcases hplan : planMove rd.liveSlots rt.current target rt.rank with e | tr
      · rw [hplan] at h
        cases h
      · rw [hplan] at h
        cases h
        refine ⟨by simp [hpend], rfl, by simp [hpend], fun _ => ?_⟩
        exact ⟨target, tr, rd.liveSlots, hpend, rfl, hplan⟩
    · cases h
      simp [hpend]

theorem length_vec_of_propose {rt : KvReshardRuntime g} {rd : Readings} {p : Proposal}
    (h : rt.propose rd = .ok p) : p.vec.length = rt.size := by
  rw [(propose_spec h).2.2.1]
  cases hpend : rt.pending with
  | none => simp
  | some v => exact rt.length_allowed v (rt.pending_mem v hpend)

section Reduce

variable {n : ℕ} {rts : Fin n → KvReshardRuntime g} {ps : Fin n → Proposal}

/-- What the collective returns when every rank has entered it. -/
def reduceAll (ps : Fin n → Proposal) : List ℤ :=
  minReduce ((List.finRange n).map fun r => (ps r).payload)

/-- Every rank of the group has proposed what its runtime says. -/
def AllPropose (rts : Fin n → KvReshardRuntime g) (ps : Fin n → Proposal) : Prop :=
  ∀ r, (rts r).size = n ∧ ∃ rd, (rts r).propose rd = .ok (ps r)

theorem AllPropose.length_values (h : AllPropose rts ps) (r : Fin n) :
    (ps r).values.length = 4 + n := by
  obtain ⟨hsize, rd, hrd⟩ := h r
  have := length_vec_of_propose hrd
  simp only [Proposal.values, List.length_append, List.length_cons, List.length_nil, this, hsize]

theorem finRange_ne_nil (r : Fin n) : List.finRange n ≠ [] :=
  List.ne_nil_of_mem (List.mem_finRange r)

/-- The collective returns a payload of the length every rank expects. -/
theorem AllPropose.length_reduceAll (h : AllPropose rts ps) (r : Fin n) :
    (reduceAll ps).length = (ps r).payload.length := by
  rw [Proposal.payload, length_encode, h.length_values r]
  exact length_minReduce_encode (fun r => (ps r).values) (finRange_ne_nil r)
    (fun x _ => h.length_values x) (by omega)

/-- A yes-or-no field is never read as anything but `0` unless everybody says yes. -/
theorem AllPropose.all_of_lowAt_ne_zero (h : AllPropose rts ps) {i : ℕ} (hi : i < 4 + n)
    (field : Proposal → Bool) (hfield : ∀ p : Proposal, p.values.getD i 0 = (field p).toNat)
    (hne : lowAt (reduceAll ps) i ≠ 0) (r : Fin n) : field (ps r) = true := by
  obtain ⟨hle, x, -, hx⟩ := lowAt_spec (fun r => (ps r).values) (finRange_ne_nil r)
    (fun x _ => h.length_values x) hi
  have hr := hle r (List.mem_finRange r)
  have hpos : lowAt (reduceAll ps) i = 1 := by
    have hx' : lowAt (reduceAll ps) i = (field (ps x)).toNat := hx.trans (hfield (ps x))
    cases hfx : field (ps x)
    · rw [hfx] at hx'
      exact absurd hx' hne
    · rw [hx', hfx]
      rfl
  rw [hfield] at hr
  change lowAt (reduceAll ps) i ≤ _ at hr
  rw [hpos] at hr
  cases hfr : field (ps r)
  · rw [hfr] at hr
    exact absurd hr (by decide)
  · rfl

/-- **A group that moves, moves to one target**: every rank is armed with it, and
every rank has a plan for it. -/
theorem AllPropose.target_of_move (h : AllPropose rts ps)
    (hmove : verdict n (reduceAll ps) = .move) :
    ∃ target, ∀ r, (rts r).pending = some target ∧ ∃ tr slots, (ps r).plan = some tr ∧
      planMove slots (rts r).current target (rts r).rank = .ok tr := by
  rcases Nat.eq_zero_or_pos n with rfl | hn
  · exact ⟨[], fun r => r.elim0⟩
  obtain ⟨heq, h0, h1, -⟩ := verdict_eq_move hmove
  have harmed := h.all_of_lowAt_ne_zero (i := 0) (by omega) Proposal.armed (fun _ => rfl) h0
  have hready := h.all_of_lowAt_ne_zero (i := 1) (by omega) Proposal.ready (fun _ => rfl) h1
  -- with every rank armed the vector is one of the compared fields, entry by entry
  have hlow : lowAt (reduceAll ps) 0 = 1 := by
    obtain ⟨-, x, -, hx⟩ := lowAt_spec (fun r => (ps r).values) (finRange_ne_nil ⟨0, hn⟩)
      (fun x _ => h.length_values x) (show 0 < 4 + n by omega)
    refine hx.trans ?_
    simp [Proposal.values, harmed x]
  have hvec : ∀ r s, (ps r).vec = (ps s).vec := by
    intro r s
    refine List.ext_getElem ?_ fun i hi hi' => ?_
    · have hr := h.length_values r
      have hs := h.length_values s
      simp only [Proposal.values, List.length_append, List.length_cons, List.length_nil] at hr hs
      omega
    · have hin : i < n := by
        have hr := h.length_values r
        simp only [Proposal.values, List.length_append, List.length_cons,
          List.length_nil] at hr
        omega
      have hi4 := heq (4 + i) (by simp [eqChecked, hlow, hin])
      have hall := (lowAt_eq_highAt_iff (fun r => (ps r).values) (finRange_ne_nil r)
        (fun x _ => h.length_values x)
        (show 4 + i < 4 + n by omega)).mp hi4 r (List.mem_finRange r) s (List.mem_finRange s)
      have hget : ∀ x : Fin n, (ps x).values.getD (4 + i) 0 = (ps x).vec.getD i 0 := by
        intro x
        rw [Proposal.values, List.getD_append_right _ _ _ _ (by simp)]
        simp
      rw [hget, hget, List.getD_eq_getElem _ _ hi, List.getD_eq_getElem _ _ hi'] at hall
      exact hall
  refine ⟨(ps ⟨0, hn⟩).vec, fun r => ?_⟩
  obtain ⟨-, rd, hrd⟩ := h r
  obtain ⟨target, tr, slots, hpend, hplan, htr⟩ := (propose_spec hrd).2.2.2 (hready r)
  have htarget : target = (ps ⟨0, hn⟩).vec := by
    rw [← hvec r, (propose_spec hrd).2.2.1, hpend]
    rfl
  subst htarget
  exact ⟨hpend, tr, slots, hplan, htr⟩

end Reduce

/-! ### The group -/

/-- Where a rank is in its round. -/
inductive Phase
  /-- Between two rounds. -/
  | running
  /-- Blocked in the collective, with this proposal. -/
  | posted (p : Proposal)
  /-- Out of the collective, with its proposal and the reduced payload. -/
  | returned (p : Proposal) (reduced : List ℤ)
  /-- Stopped by an error. -/
  | raised (e : KvReshardError)

/-- A rank of the group. -/
structure RankState (g : RowFormat) where
  runtime : KvReshardRuntime g
  phase : Phase

/-- `on_round`, up to the collective. -/
def RankState.enter (st : RankState g) (rd : Readings) : RankState g :=
  match st.runtime.enterRound rd with
  | (rt, .ok none) => ⟨rt, .running⟩
  | (rt, .ok (some p)) => ⟨rt, .posted p⟩
  | (rt, .error e) => ⟨rt, .raised e⟩

/-- `on_round`, from the collective on. -/
def RankState.leave (st : RankState g) (p : Proposal) (reduced : List ℤ) (inp : MoveInputs) :
    RankState g :=
  match st.runtime.resolve p reduced inp with
  | .ok rt => ⟨rt, .running⟩
  | .error e => ⟨st.runtime, .raised e⟩

/-- A rank that has neither raised nor is in the second half of a round. -/
def RankState.Settled (st : RankState g) : Prop :=
  st.phase = .running ∨ ∃ p, st.phase = .posted p

/-- A group of `n` ranks. -/
abbrev Group (g : RowFormat) (n : ℕ) := Fin n → RankState g

namespace Group

variable {n : ℕ}

/-- **A step of the group.** Everything but the collective is a step of one rank. -/
inductive Step : Group g n → Group g n → Prop
  /-- A rank is armed, or refuses to be. -/
  | arm {s : Group g n} (r : Fin n) (vec : List ℤ) (h : (s r).phase = .running) :
      Step s (Function.update s r ⟨((s r).runtime.arm vec).2, .running⟩)
  /-- A rank serves requests, which changes its pool. -/
  | serve {s : Group g n} (r : Fin n) (pool : KvPoolView g) (h : (s r).phase = .running) :
      Step s (Function.update s r ⟨{ (s r).runtime with pool := pool }, .running⟩)
  /-- A rank begins a round, with whatever it reads. -/
  | enter {s : Group g n} (r : Fin n) (rd : Readings) (h : (s r).phase = .running) :
      Step s (Function.update s r ((s r).enter rd))
  /-- Every rank has entered the collective, and it returns. -/
  | collective {s : Group g n} (ps : Fin n → Proposal) (h : ∀ r, (s r).phase = .posted (ps r)) :
      Step s fun r => ⟨(s r).runtime, .returned (ps r) (reduceAll ps)⟩
  /-- A rank finishes its round, with whatever the exchange returns to it. -/
  | leave {s : Group g n} (r : Fin n) {p : Proposal} {reduced : List ℤ} (inp : MoveInputs)
      (h : (s r).phase = .returned p reduced) :
      Step s (Function.update s r ((s r).leave p reduced inp))

/-- The group at boot: every rank has constructed its runtime with the same interval
and the same boot vector. -/
def Initial (interval : ℕ) (boot : List ℤ) (s : Group g n) : Prop :=
  ∀ r, (s r).phase = .running ∧ ∃ allowed guards floor pool,
    KvReshardRuntime.init n r allowed boot interval guards floor pool = .ok (s r).runtime

/-- The states a group can reach from boot. -/
def Reachable (interval : ℕ) (boot : List ℤ) (s : Group g n) : Prop :=
  ∃ s₀, Initial interval boot s₀ ∧ Relation.ReflTransGen Step s₀ s

/-! ### The invariant -/

/-- A rank lands at epoch `e` on vector `c`: it is there, or it is about to leave a
boundary whose verdict takes it there. -/
def Lands (n e : ℕ) (c : List ℤ) (st : RankState g) : Prop :=
  st.runtime.size = n ∧
  match st.phase with
  | .running => st.runtime.epoch = e ∧ st.runtime.current = c
  | .posted p =>
    (st.runtime.epoch = e ∧ st.runtime.current = c) ∧ ∃ rd, st.runtime.propose rd = .ok p
  | .returned _ reduced =>
    match verdict n reduced with
    | .desync _ => True
    | .move => st.runtime.epoch + 1 = e ∧ st.runtime.pending = some c
    | _ => st.runtime.epoch = e ∧ st.runtime.current = c
  | .raised _ => True

theorem Lands.posted {e : ℕ} {c : List ℤ} {st : RankState g} (h : Lands n e c st) {p : Proposal}
    (hp : st.phase = .posted p) : st.runtime.size = n ∧
      (st.runtime.epoch = e ∧ st.runtime.current = c) ∧ ∃ rd, st.runtime.propose rd = .ok p := by
  simpa only [Lands, hp] using h

theorem Lands.running {e : ℕ} {c : List ℤ} {st : RankState g} (h : Lands n e c st)
    (hrun : st.phase = .running) :
    st.runtime.size = n ∧ st.runtime.epoch = e ∧ st.runtime.current = c := by
  simpa only [Lands, hrun] using h

/-- **The invariant of the group**: there is one epoch and one vector at which every
rank lands. -/
def Inv (s : Group g n) : Prop := ∃ e c, ∀ r, Lands n e c (s r)

theorem arm_frame (rt : KvReshardRuntime g) (vec : List ℤ) :
    (rt.arm vec).2.size = rt.size ∧ (rt.arm vec).2.epoch = rt.epoch ∧
      (rt.arm vec).2.current = rt.current := by
  unfold KvReshardRuntime.arm
  split_ifs <;> exact ⟨rfl, rfl, rfl⟩

theorem lands_enter {e : ℕ} {c : List ℤ} {st : RankState g} (h : Lands n e c st)
    (hrun : st.phase = .running) (rd : Readings) : Lands n e c (st.enter rd) := by
  obtain ⟨hsize, hst⟩ := h
  rw [hrun] at hst
  unfold RankState.enter KvReshardRuntime.enterRound
  simp only
  split_ifs
  · exact ⟨hsize, hst⟩
  · rcases hp : KvReshardRuntime.propose { st.runtime with round := st.runtime.round + 1 } rd
      with err | p
    · exact ⟨hsize, trivial⟩
    · exact ⟨hsize, hst, rd, hp⟩

/-- A rank that finishes a round lands where its verdict said, or has raised. -/
theorem lands_leave {e : ℕ} {c : List ℤ} {st : RankState g} (h : Lands n e c st) {p : Proposal}
    {reduced : List ℤ} (hret : st.phase = .returned p reduced) (inp : MoveInputs) :
    Lands n e c (st.leave p reduced inp) := by
  obtain ⟨hsize, hst⟩ := h
  rw [hret] at hst
  unfold RankState.leave
  rcases hres : st.runtime.resolve p reduced inp with err | rt
  · exact ⟨hsize, trivial⟩
  · unfold KvReshardRuntime.resolve at hres
    split at hres
    · cases hres
    rw [hsize] at hres
    simp only [applyVerdict] at hst hres
    rcases hv : verdict n reduced with fields | _ | _ | _ | _
    · rw [hv] at hres
      cases hres
    · rw [hv] at hres hst
      cases hres
      exact ⟨hsize, hst⟩
    · rw [hv] at hres hst
      cases hres
      exact ⟨hsize, hst⟩
    · rw [hv] at hres hst
      cases hres
      exact ⟨hsize, hst⟩
    · rw [hv] at hres hst
      obtain ⟨hsz, hep, hpend⟩ := runExecute_ok hres
      refine ⟨hsz.trans hsize, hep.trans hst.1, ?_⟩
      rw [hst.2] at hpend
      exact (Option.some.inj hpend).symm

/-- **The collective keeps the group together**: whatever its verdict is, there is one
epoch and one vector to which it takes every rank. -/
theorem inv_collective {e : ℕ} {c : List ℤ} {s : Group g n} (h : ∀ r, Lands n e c (s r))
    {ps : Fin n → Proposal} (hps : ∀ r, (s r).phase = .posted (ps r)) :
    Inv fun r => (⟨(s r).runtime, .returned (ps r) (reduceAll ps)⟩ : RankState g) := by
  have hposted := fun r => (h r).posted (hps r)
  by_cases hmove : verdict n (reduceAll ps) = .move
  · have hall : AllPropose (fun r => (s r).runtime) ps := fun r => ⟨(hposted r).1, (hposted r).2.2⟩
    obtain ⟨target, htarget⟩ := hall.target_of_move hmove
    refine ⟨e + 1, target, fun r => ⟨(hposted r).1, ?_⟩⟩
    simp only [hmove]
    exact ⟨by rw [(hposted r).2.1.1], (htarget r).1⟩
  · refine ⟨e, c, fun r => ⟨(hposted r).1, ?_⟩⟩
    rcases hv : verdict n (reduceAll ps) with fields | _ | _ | _ | _
    · simp only [hv]
    · simpa only [hv] using (hposted r).2.1
    · simpa only [hv] using (hposted r).2.1
    · simpa only [hv] using (hposted r).2.1
    · exact absurd hv hmove

theorem forall_update {P : RankState g → Prop} {s : Group g n} (h : ∀ r, P (s r)) (r : Fin n)
    {st : RankState g} (hst : P st) (r' : Fin n) : P (Function.update s r st r') := by
  rcases eq_or_ne r' r with rfl | hne
  · rwa [Function.update_self]
  · rw [Function.update_of_ne hne]
    exact h r'

/-- Every step keeps the invariant. -/
theorem Inv.step {s s' : Group g n} (h : Inv s) (hstep : Step s s') : Inv s' := by
  obtain ⟨e, c, h⟩ := h
  cases hstep with
  | arm r vec hrun =>
    obtain ⟨h1, h2, h3⟩ := arm_frame (s r).runtime vec
    have hr := (h r).running hrun
    exact ⟨e, c, forall_update h r ⟨h1.trans hr.1, h2.trans hr.2.1, h3.trans hr.2.2⟩⟩
  | serve r pool hrun =>
    exact ⟨e, c, forall_update h r ((h r).running hrun)⟩
  | enter r rd hrun => exact ⟨e, c, forall_update h r (lands_enter (h r) hrun rd)⟩
  | collective ps hps => exact inv_collective h hps
  | leave r inp hret => exact ⟨e, c, forall_update h r (lands_leave (h r) hret inp)⟩

theorem Initial.inv {interval : ℕ} {boot : List ℤ} {s : Group g n} (h : Initial interval boot s) :
    Inv s := by
  refine ⟨0, boot, fun r => ?_⟩
  obtain ⟨hrun, allowed, guards, floor, pool, hinit⟩ := h r
  obtain ⟨hsize, -, -, hcur, hep⟩ := init_ok hinit
  exact ⟨hsize, by rw [hrun]; exact ⟨hep, hcur⟩⟩

/-- **The invariant holds in every reachable state.** -/
theorem Reachable.inv {interval : ℕ} {boot : List ℤ} {s : Group g n}
    (h : Reachable interval boot s) : Inv s := by
  obtain ⟨s₀, h₀, hrun⟩ := h
  induction hrun with
  | refl => exact h₀.inv
  | tail _ hstep ih => exact ih.step hstep

/-! ### Agreement -/

/-- At a boundary every rank applies the same verdict. -/
theorem resolve_eq {rts : Fin n → KvReshardRuntime g} {ps : Fin n → Proposal}
    (h : AllPropose rts ps) (r : Fin n) (inp : MoveInputs) :
    (rts r).resolve (ps r) (reduceAll ps) inp =
      (rts r).applyVerdict (verdict n (reduceAll ps)) (ps r) inp := by
  rw [resolve, if_neg (by simp [h.length_reduceAll r]), (h r).1]

/-- **The consensus keeps the group in agreement.** In every state a group reaches
from boot – whatever the ranks were armed with and when, whatever they read – when
the collective returns at a boundary, either every rank raises the desync error, or
every rank waits unchanged, or every rank refuses and disarms, or every rank
executes, from one common current vector, the plan of a move to one common target.
And whenever no rank has raised and none is in the second half of a round, all
ranks have the same epoch and the same current vector. -/
theorem consensus_agreement {interval : ℕ} {boot : List ℤ} {s : Group g n}
    (h : Reachable interval boot s) :
    (∀ ps : Fin n → Proposal, (∀ r, (s r).phase = .posted (ps r)) →
      (∃ fields, ∀ r inp, (s r).runtime.resolve (ps r) (reduceAll ps) inp
        = .error (.desync (s r).runtime.round fields)) ∨
      (∀ r inp, (s r).runtime.resolve (ps r) (reduceAll ps) inp = .ok (s r).runtime) ∨
      (∀ r inp, (s r).runtime.resolve (ps r) (reduceAll ps) inp
        = .ok (s r).runtime.refuseForHeadroom) ∨
      ∃ current target, ∀ r, (s r).runtime.current = current ∧
        ∃ hmem tr slots, planMove slots current target (s r).runtime.rank = .ok tr ∧
          ∀ inp, (s r).runtime.resolve (ps r) (reduceAll ps) inp =
            (executePlan inp.env inp.received tr target (s r).runtime.pool).map
              ((s r).runtime.cutoverTo target hmem)) ∧
    ((∀ r, (s r).Settled) → ∀ r r', (s r).runtime.epoch = (s r').runtime.epoch ∧
      (s r).runtime.current = (s r').runtime.current) := by
  obtain ⟨e, c, hinv⟩ := h.inv
  constructor
  · intro ps hps
    have hposted := fun r => (hinv r).posted (hps r)
    have hall : AllPropose (fun r => (s r).runtime) ps := fun r => ⟨(hposted r).1, (hposted r).2.2⟩
    have hres := resolve_eq hall
    rcases hv : verdict n (reduceAll ps) with fields | _ | _ | _ | _
    · exact .inl ⟨fields, fun r inp => by rw [hres, hv, applyVerdict]⟩
    · exact .inr (.inl fun r inp => by rw [hres, hv, applyVerdict])
    · exact .inr (.inl fun r inp => by rw [hres, hv, applyVerdict])
    · exact .inr (.inr (.inl fun r inp => by rw [hres, hv, applyVerdict]))
    · obtain ⟨target, htarget⟩ := hall.target_of_move hv
      refine .inr (.inr (.inr ⟨c, target, fun r => ⟨(hposted r).2.1.2, ?_⟩⟩))
      obtain ⟨hpend, tr, slots, hplan, htr⟩ := htarget r
      refine ⟨(s r).runtime.pending_mem target hpend, tr, slots, (hposted r).2.1.2 ▸ htr,
        fun inp => ?_⟩
      rw [hres, hv, applyVerdict, hplan]
      exact runExecute_of_plan hpend tr inp
  · intro hsettled r r'
    have hat : ∀ r, (s r).runtime.epoch = e ∧ (s r).runtime.current = c := by
      intro r
      rcases hsettled r with hrun | ⟨p, hp⟩
      · exact ((hinv r).running hrun).2
      · exact ((hinv r).posted hp).2.1
    exact ⟨(hat r).1.trans (hat r').1.symm, (hat r).2.trans (hat r').2.symm⟩

/-- Two ranks of a group, armed one after the other, both blocked at a boundary. -/
theorem consensus_agreement_two_ranks :
    ∃ s : Group ⟨0, fun _ => 0, fun _ => 0⟩ 2, Reachable 1 [1, 3] s ∧
      (∀ r, ∃ p, (s r).phase = .posted p ∧ p.ready = true) ∧
      (s 0).runtime.epoch = (s 1).runtime.epoch ∧
      (s 0).runtime.current = (s 1).runtime.current := by
  let s₀ : Group ⟨0, fun _ => 0, fun _ => 0⟩ 2 := fun r =>
    { phase := .running
      runtime :=
        { size := 2
          rank := r
          allowed := [[1, 3], [3, 1]]
          interval := 1
          blockingGuards := []
          corridorFloorBytes := 0
          pool := ⟨8, fun _ _ => [], fun _ _ => [], fun _ _ => rfl, fun _ _ => rfl⟩
          round := 0
          epoch := 0
          current := [1, 3]
          pending := none
          refusedHeadroom := 0
          two_le_size := by decide
          length_allowed := by decide
          current_mem := by decide
          pending_mem := fun v hv => by simp at hv } }
  have h₀ : Initial 1 [1, 3] s₀ := fun r => ⟨rfl, [[1, 3], [3, 1]], [], 0, _, rfl⟩
  have hrun := Relation.ReflTransGen.refl (a := s₀)
    |>.tail (Step.arm 0 [3, 1] rfl)
    |>.tail (Step.arm 1 [3, 1] rfl)
    |>.tail (Step.enter 0 ⟨none, true, [0, 1, 2, 5], none⟩ rfl)
    |>.tail (Step.enter 1 ⟨none, true, [0, 1, 2, 5], none⟩ rfl)
  obtain ⟨s, hs, hpost⟩ : ∃ s, Relation.ReflTransGen Step s₀ s ∧
      ∀ r, ∃ p, (s r).phase = .posted p ∧ p.ready = true := by
    refine ⟨_, hrun, Fin.forall_fin_two.mpr ⟨⟨_, rfl, ?_⟩, ⟨_, rfl, ?_⟩⟩⟩
    · rfl
    · rfl
  exact ⟨s, ⟨s₀, h₀, hs⟩, hpost, (consensus_agreement ⟨s₀, h₀, hs⟩).2
    (fun r => .inr ((hpost r).imp fun _ hp => hp.1)) 0 1⟩

end Group

end Dcp

end HtSglang
