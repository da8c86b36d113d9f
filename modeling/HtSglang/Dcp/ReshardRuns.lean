import HtSglang.Dcp.Cutover

/-!
# Serving while the pool moves

Between two reshards the backends write token after token and requests come and go. To them the
pools of a group are one map from slots to rows, kept here beside the pools
(`HtSglang.Dcp.Serving.written`): a write changes it at one slot, a reshard not at all. After any
run, a live slot has one owner, and that rank reads what was written last
(`HtSglang.Dcp.Serving.reads_last_write`).
-/

namespace HtSglang

namespace Dcp

/-- The K and V bytes of one token, on every layer. -/
structure TokenKv (g : RowFormat) where
  /-- `k_full`. -/
  k : ℕ → List UInt8
  /-- `v_full`. -/
  v : ℕ → List UInt8
  length_k : ∀ layer, (k layer).length = g.kBytes layer
  length_v : ∀ layer, (v layer).length = g.vBytes layer

variable {g : RowFormat} {n : ℕ}

/-- `_dcp_write_scatter` of a weighted backend: the masked kernel writes the row of a slot the rank
owns, and nothing for another. -/
def KvPoolView.writeScatter (p : KvPoolView g) (b : OwnerBounds) (L : ℤ) (x : TokenKv g) :
    KvPoolView g :=
  let w := dcpWeightedWriteSlots b L
  { p with
    k := fun layer row => if w.2 = true ∧ row = w.1 then x.k layer else p.k layer row
    v := fun layer row => if w.2 = true ∧ row = w.1 then x.v layer else p.v layer row
    length_k := fun layer row => by
      split
      · exact x.length_k layer
      · exact p.length_k layer row
    length_v := fun layer row => by
      split
      · exact x.length_v layer
      · exact p.length_v layer row }

theorem KvPoolView.row_writeScatter (p : KvPoolView g) (b : OwnerBounds) (L : ℤ) (x : TokenKv g)
    (layer : ℕ) (row : ℤ) :
    (p.writeScatter b L x).row layer row =
      if (dcpWeightedWriteSlots b L).2 = true ∧ row = (dcpWeightedWriteSlots b L).1 then
        x.k layer ++ x.v layer
      else p.row layer row := by
  simp only [KvPoolView.row, writeScatter]
  split
  · rfl
  · rfl

/-- A group that serves: the installed vector, the pools of its ranks and the live slots, and what
was last written to each slot. -/
structure Serving (g : RowFormat) where
  vector : List ℤ
  pools : ℕ → KvPoolView g
  live : List ℤ
  written : ℤ → TokenKv g

namespace Serving

/-- The bounds a backend holds while the vector is installed. -/
def bounds (s : Serving g) (n r : ℕ) : OwnerBounds :=
  dcpWeightedOwnerBounds (setCpTokenRatios s.vector) n r

/-- A forward writes one slot, on all ranks. -/
def write (s : Serving g) (n : ℕ) (L : ℤ) (x : TokenKv g) : Serving g :=
  { s with
    pools := fun r => (s.pools r).writeScatter (s.bounds n r) L x
    live := L :: s.live
    written := Function.update s.written L x }

/-- What happens to a group: a write, requests that end, and a reshard with its cutover, over an
exchange that delivers. The target is one that mover and readers take the same way. -/
inductive Step (n : ℕ) : Serving g → Serving g → Prop
  | write (s : Serving g) (L : ℤ) (x : TokenKv g) (h0 : 0 ≤ L) (h31 : L < 2 ^ 31) :
      Step n s (s.write n L x)
  | free (s : Serving g) (live : List ℤ) (hsub : live ⊆ s.live) : Step n s { s with live := live }
  | move (s : Serving g) (env : ℕ → MoverEnv) (received : ℕ → ℕ → Option (List UInt8))
      (new : List ℤ) (pools : ℕ → KvPoolView g) (hnew : IsShareVector n new)
      (heff : effectiveRatios (setCpTokenRatios new) n = new)
      (hexch : ∀ r < n, ∀ p < n, r ≠ p → ∀ out,
        outgoing (env r) s.live s.vector new r (s.pools r) = .ok out →
          received p r = out.lookup p)
      (hok : ∀ p < n, execute (env p) (received p) s.live s.vector new p (s.pools p)
        = .ok (pools p)) :
      Step n s { s with vector := new, pools := pools }

/-- The pools hold the map. -/
structure Kept (n : ℕ) (s : Serving g) : Prop where
  vector : IsShareVector n s.vector
  effective : effectiveRatios (setCpTokenRatios s.vector) n = s.vector
  live : ∀ L ∈ s.live, 0 ≤ L ∧ L < 2 ^ 31
  rows : ∀ L ∈ s.live, ∀ layer < g.numLayers,
    storedRow s.vector s.pools layer L = (s.written L).k layer ++ (s.written L).v layer

variable {s s' : Serving g}

theorem Kept.agreesAt (h : Kept n s) {r : ℕ} (hr : r < n) {L : ℤ} (h0 : 0 ≤ L)
    (h31 : L < 2 ^ 31) : AgreesAt s.vector (s.bounds n r) r L :=
  agreesAt_of_effectiveRatios h.vector h.effective hr h0 h31

theorem Kept.write (h : Kept n s) (hn : 0 < n) {L : ℤ} (x : TokenKv g) (h0 : 0 ≤ L)
    (h31 : L < 2 ^ 31) : Kept n (s.write n L x) := by
  refine ⟨h.vector, h.effective, ?_, fun L' hL' layer hlayer => ?_⟩
  · rintro L' (_ | ⟨_, hL'⟩)
    · exact ⟨h0, h31⟩
    · exact h.live L' hL'
  have hown := ownerOf_lt h.vector hn L'
  have hat := h.agreesAt hown h0 h31
  simp only [storedRow, Serving.write, KvPoolView.row_writeScatter]
  by_cases hne : L' = L
  · subst hne
    rw [if_pos ⟨hat.write_owned.mpr rfl, (hat.write_row rfl).symm⟩, Function.update_self]
  · rw [if_neg, Function.update_of_ne hne]
    · exact h.rows L' ((List.mem_cons.mp hL').resolve_left hne) layer hlayer
    · -- no other slot of the rank is packed in this row
      rintro ⟨howned, hrow⟩
      have hL := hat.write_owned.mp howned
      rw [hat.write_row hL] at hrow
      exact hne (rowsOf_injOn h.vector hown rfl hL hrow)

theorem Kept.outgoing_eq (h : Kept n s) {new : List ℤ} (hnew : IsShareVector n new)
    (env : MoverEnv) {r : ℕ} (hr : r < n) : outgoing env s.live s.vector new r (s.pools r) =
      .ok (packPayloads env (s.pools r) (transitionOf (unique s.live) s.vector new r)) := by
  rw [outgoing, planMove_eq_ok h.vector hnew (fun L hL => (h.live L hL).1) hr]
  rfl

theorem Kept.step (h : Kept n s) (hn : 0 < n) (hstep : Step n s s') : Kept n s' := by
  cases hstep with
  | write L x h0 h31 => exact h.write hn x h0 h31
  | free live hsub =>
    exact ⟨h.vector, h.effective, fun L hL => h.live L (hsub hL), fun L hL => h.rows L (hsub hL)⟩
  | move env received new pools hnew heff hexch hok =>
    have hslots : ∀ L ∈ s.live, 0 ≤ L := fun L hL => (h.live L hL).1
    refine ⟨hnew, heff, h.live, fun L hL layer hlayer => ?_⟩
    have hp := ownerOf_lt hnew hn L
    have hmove := hok _ hp
    -- a move that succeeded has passed the bounds check
    have hfit : (transitionOf (unique s.live) s.vector new (ownerOf L new)).maxNewRow
        < (s.pools (ownerOf L new)).numRows := by
      by_contra hge
      rw [execute, planMove_eq_ok h.vector hnew hslots hp] at hmove
      simp [executePlan, bind, Except.bind, not_lt.mp hge] at hmove
    obtain ⟨q, hq, hrow⟩ := execute_ok h.vector hnew hslots hp (fun r hr hrp =>
      hexch r hr _ hp hrp _ (h.outgoing_eq hnew _ hr)) hfit
    obtain rfl : q = pools (ownerOf L new) := Except.ok.inj (hq.symm.trans hmove)
    exact (hrow L hL rfl layer hlayer).trans (h.rows L hL layer hlayer)

/-- **A reshard goes through** when its rows fit and the exchange hands every payload on. -/
theorem Kept.exists_move (h : Kept n s) (new : List ℤ) (hnew : IsShareVector n new)
    (heff : effectiveRatios (setCpTokenRatios new) n = new) (env : ℕ → MoverEnv)
    (hfit : ∀ p < n, (transitionOf (unique s.live) s.vector new p).maxNewRow
      < (s.pools p).numRows) :
    ∃ pools, Step n s { s with vector := new, pools := pools } := by
  have hslots : ∀ L ∈ s.live, 0 ≤ L := fun L hL => (h.live L hL).1
  have hex : ∀ p, ∃ q, p < n → execute (env p) (fun r => (packPayloads (env r) (s.pools r)
      (transitionOf (unique s.live) s.vector new r)).lookup p) s.live s.vector new p (s.pools p)
        = .ok q := by
    intro p
    by_cases hp : p < n
    · obtain ⟨q, hq, -⟩ := execute_ok h.vector hnew hslots hp (fun _ _ _ => rfl) (hfit p hp)
      exact ⟨q, fun _ => hq⟩
    · exact ⟨s.pools p, fun h => absurd h hp⟩
  choose pools hpools using hex
  refine ⟨pools, .move s env _ new pools hnew heff (fun r hr p _ _ out hout => ?_) hpools⟩
  rw [h.outgoing_eq hnew _ hr] at hout
  exact congrArg _ (Except.ok.inj hout)

theorem Kept.run (h : Kept n s) (hn : 0 < n) (hrun : Relation.ReflTransGen (Step n) s s') :
    Kept n s' := by
  induction hrun with
  | refl => exact h
  | tail _ hstep ih => exact ih.step hn hstep

/-- **A live slot reads what was last written to it**, on one rank and no other, after any run of
writes, frees and reshards that starts with no live slot. -/
theorem reads_last_write (hn : 0 < n) (hvec : IsShareVector n s.vector)
    (heff : effectiveRatios (setCpTokenRatios s.vector) n = s.vector) (hempty : s.live = [])
    (hrun : Relation.ReflTransGen (Step n) s s') {L : ℤ} (hL : L ∈ s'.live) :
    ∃ r < n, (∀ r' < n, (dcpWeightedReadSlots (s'.bounds n r') L).2 = true ↔ r' = r) ∧
      ∀ layer < g.numLayers, (s'.pools r).row layer (dcpWeightedReadSlots (s'.bounds n r) L).1
        = (s'.written L).k layer ++ (s'.written L).v layer := by
  have hkept : Kept n s' :=
    Kept.run ⟨hvec, heff, by simp [hempty], by simp [hempty]⟩ hn hrun
  obtain ⟨h0, h31⟩ := hkept.live L hL
  have hown := ownerOf_lt hkept.vector hn L
  refine ⟨_, hown, fun r' hr' => ?_, fun layer hlayer => ?_⟩
  · rw [(hkept.agreesAt hr' h0 h31).read_owned]
    exact eq_comm
  · rw [(hkept.agreesAt hown h0 h31).read_row rfl]
    exact hkept.rows L hL layer hlayer

/-- Slot `2`, written under `1, 1` and read on rank `1` after a move to `1, 3`. -/
theorem reads_last_write_moved :
    ∃ s : Serving ⟨1, fun _ => 1, fun _ => 1⟩, s.vector = [1, 3] ∧
      (s.pools 1).row 0 (dcpWeightedReadSlots (s.bounds 2 1) 2).1 = [7, 9] := by
  let x : TokenKv ⟨1, fun _ => 1, fun _ => 1⟩ :=
    ⟨fun _ => [7], fun _ => [9], fun _ => rfl, fun _ => rfl⟩
  let s : Serving ⟨1, fun _ => 1, fun _ => 1⟩ :=
    ⟨[1, 1], fun _ => ⟨8, fun _ _ => [0], fun _ _ => [0], fun _ _ => rfl, fun _ _ => rfl⟩, [],
      fun _ => x⟩
  have hs : Kept 2 s := ⟨⟨rfl, by decide⟩, by decide, nofun, nofun⟩
  obtain ⟨pools, hmove⟩ := (hs.write (by decide) x (L := 2) (by decide) (by decide)).exists_move
    [1, 3] ⟨rfl, by decide⟩ (by decide) (fun _ => ⟨none, none⟩)
    (fun p hp => by interval_cases p <;> decide)
  obtain ⟨r, -, hone, hrow⟩ := reads_last_write (by decide) hs.vector hs.effective rfl
    ((Relation.ReflTransGen.single (Step.write s 2 x (by decide) (by decide))).tail hmove)
    (List.mem_cons_self ..)
  obtain rfl := (hone 1 (by decide)).mp rfl
  exact ⟨_, rfl, hrow 0 (by decide)⟩

end Serving

end Dcp

end HtSglang
