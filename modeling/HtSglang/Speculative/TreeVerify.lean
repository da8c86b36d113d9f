import Mathlib
import HtSglang.Library.Scatter

/-!
# Verifying a draft tree

A round of n-gram speculation on one request. The corpus match lays out a tree of draft tokens
and writes down, for each entry, which entries it sees (`HtSglang.TreeVerify.Draft.mask`); a kernel
reads the tree back out of that mask alone (`HtSglang.TreeVerify.nextToken`,
`HtSglang.TreeVerify.nextSibling`); the target model runs once over all entries; and a second
kernel walks down from the root as long as some child carries the token the target picked
(`HtSglang.TreeVerify.verifyTreeGreedy`). The KV rows of the entries on the way are then moved to
the front, where the next round expects the rows of the request.

The target model is any function of the rows before a token (`HtSglang.TreeVerify.Target`), and a
draft is any tree. All entries of a round are sampled with the penalties and processors of the
tokens committed before it; where these do not change the picks, what comes out after any number of
rounds is what the target would have picked one token at a time. Entries and slots are counted from
the start of the request's block.
-/

namespace HtSglang

namespace TreeVerify

/-! ### The draft -/

/-- What `fillResult` has laid out when it comes to the mask: the tokens, and for each but the
first the entry it hangs below, which stands before it. -/
structure Draft where
  /-- `draft_token_num`. -/
  size : ℕ
  /-- `info.token`. -/
  token : ℕ → ℤ
  /-- `prevs`. -/
  prev : ℕ → ℕ
  prev_lt : ∀ i, 0 < i → prev i < i

/-- The mask of `fillResult`: as many entries of the row of `prev` as there are up to `prev`, and
the own one. -/
def Draft.mask (d : Draft) (i j : ℕ) : Bool :=
  if _h : 0 < i then decide (j ≤ d.prev i) && d.mask (d.prev i) j || j == i else j == 0
termination_by i
decreasing_by exact d.prev_lt i _h

/-- The entries in front of `i` that it sees. -/
def before (mask : ℕ → ℕ → Bool) (i : ℕ) : List ℕ := (List.range i).filter (mask i)

/-- The tokens from the root down to an entry. -/
def Draft.path (d : Draft) (i : ℕ) : List ℤ := (before d.mask i ++ [i]).map d.token

section Mask

variable {d : Draft} {i j : ℕ}

theorem Draft.mask_le (h : d.mask i j = true) : j ≤ i := by
  rw [Draft.mask] at h
  split at h
  · next hi =>
    have := d.prev_lt i hi
    simp only [Bool.or_eq_true, Bool.and_eq_true, decide_eq_true_eq, beq_iff_eq] at h
    omega
  · simp only [beq_iff_eq] at h
    omega

theorem Draft.mask_of_lt (hj : j < i) : d.mask i j = d.mask (d.prev i) j := by
  rw [Draft.mask, dif_pos (by omega), beq_eq_false_iff_ne.mpr hj.ne, Bool.or_false]
  cases hm : d.mask (d.prev i) j with
  | false => exact Bool.and_false _
  | true => rw [decide_eq_true (Draft.mask_le hm), Bool.and_true]

theorem Draft.mask_self (i : ℕ) : d.mask i i = true := by
  rw [Draft.mask]
  split
  · rw [beq_self_eq_true, Bool.or_true]
  · simp only [beq_iff_eq]
    omega

/-- **What an entry sees** is what the entry above it sees, and that entry. -/
theorem before_mask (hi : 0 < i) :
    before d.mask i = before d.mask (d.prev i) ++ [d.prev i] := by
  have hp := d.prev_lt i hi
  have hrange : List.range i =
      List.range (d.prev i + 1) ++ (List.range (i - (d.prev i + 1))).map (d.prev i + 1 + ·) := by
    rw [← List.range_add]
    congr 1
    omega
  have hrest :
      ((List.range (i - (d.prev i + 1))).map (d.prev i + 1 + ·)).filter (d.mask i) = [] := by
    refine List.filter_eq_nil_iff.mpr fun j hj hm => ?_
    obtain ⟨k, hk, rfl⟩ := List.mem_map.mp hj
    rw [Draft.mask_of_lt (by have := List.mem_range.mp hk; omega)] at hm
    have := Draft.mask_le hm
    omega
  have hlow : (List.range (d.prev i)).filter (d.mask i) = before d.mask (d.prev i) :=
    List.filter_congr fun j hj => Draft.mask_of_lt ((List.mem_range.mp hj).trans hp)
  rw [before, hrange, List.filter_append, hrest, List.append_nil, List.range_succ,
    List.filter_append, hlow, List.filter_singleton, Draft.mask_of_lt hp, Draft.mask_self]
  rfl

theorem Draft.path_of_pos (hi : 0 < i) : d.path i = d.path (d.prev i) ++ [d.token i] := by
  rw [Draft.path, before_mask hi, List.map_append, List.map_singleton, Draft.path]

end Mask

/-! ### Reading the tree back -/

/-- The first loop of `reconstructIndicesFromTreeMask`: the depth of an entry and its parent. -/
def scanRow (mask : ℕ → ℕ → Bool) (tid : ℕ) : ℕ × Option ℕ :=
  (List.range tid).reverse.foldl
    (fun s i => if mask tid i then (s.1 + 1, s.2.or (some i)) else s) (0, none)

/-- `positions`. -/
def position (mask : ℕ → ℕ → Bool) (verifiedSeqLen tid : ℕ) : ℕ :=
  (scanRow mask tid).1 + verifiedSeqLen

/-- `retrive_next_token`: the first entry behind that sees this one. -/
def nextToken (mask : ℕ → ℕ → Bool) (size tid : ℕ) : Option ℕ :=
  (List.range' (tid + 1) (size - (tid + 1))).find? (mask · tid)

/-- `retrive_next_sibling`: the first entry behind that sees the parent and nothing between. -/
def nextSibling (mask : ℕ → ℕ → Bool) (size tid : ℕ) : Option ℕ :=
  (scanRow mask tid).2.bind fun parent =>
    (List.range' (tid + 1) (size - (tid + 1))).find? fun i =>
      mask i parent && !(List.range' (parent + 1) (i - (parent + 1))).any (mask i)

section Reconstruct

variable {d : Draft} {i c : ℕ}

theorem scanRow_eq (mask : ℕ → ℕ → Bool) (tid : ℕ) :
    scanRow mask tid = ((before mask tid).length, (before mask tid).getLast?) := by
  have hloop : ∀ (l : List ℕ) (s : ℕ × Option ℕ),
      l.foldl (fun s i => if mask tid i then (s.1 + 1, s.2.or (some i)) else s) s
        = (s.1 + (l.filter (mask tid)).length, s.2.or (l.filter (mask tid)).head?) := by
    intro l
    induction l with
    | nil => simp
    | cons a l ih =>
      intro s
      rw [List.foldl_cons, ih]
      by_cases ha : mask tid a <;> simp [ha]
      omega
  rw [scanRow, hloop, List.filter_reverse, List.length_reverse, List.head?_reverse]
  simp [before]

/-- The parent that the scan finds. -/
theorem scanRow_parent (hi : 0 < i) : (scanRow d.mask i).2 = some (d.prev i) := by
  rw [scanRow_eq, before_mask hi, List.getLast?_concat]

/-- An entry seen by another lies on the way to it, and so does a child of it. -/
theorem exists_child (hm : d.mask c i = true) (hi : i < c) :
    ∃ c', i < c' ∧ c' ≤ c ∧ d.prev c' = i := by
  induction c using Nat.strong_induction_on with
  | _ c ih =>
    by_cases hc : d.prev c = i
    · exact ⟨c, hi, le_rfl, hc⟩
    rw [Draft.mask_of_lt hi] at hm
    have hp := d.prev_lt c (by omega)
    obtain ⟨c', hlt, hle, hprev⟩ := ih _ hp hm (lt_of_le_of_ne (Draft.mask_le hm) (Ne.symm hc))
    exact ⟨c', hlt, by omega, hprev⟩

theorem mask_prev (hc : 0 < c) : d.mask c (d.prev c) = true := by
  rw [Draft.mask_of_lt (d.prev_lt c hc), Draft.mask_self]

/-- **The next token** of an entry is its first child. -/
theorem nextToken_eq (i : ℕ) : nextToken d.mask d.size i =
    (List.range' (i + 1) (d.size - (i + 1))).find? (d.prev · = i) := by
  rw [nextToken]
  cases hq : (List.range' (i + 1) (d.size - (i + 1))).find? (d.prev · = i) with
  | none =>
    refine List.find?_eq_none.mpr fun c hc hm => ?_
    obtain ⟨hlo, hhi⟩ := List.mem_range'_1.mp hc
    obtain ⟨c', hlt, hle, hprev⟩ := exists_child hm hlo
    exact List.find?_eq_none.mp hq c' (List.mem_range'_1.mpr ⟨hlt, by omega⟩) (by simpa using hprev)
  | some c =>
    obtain ⟨hprev, hmem, hfirst⟩ := List.find?_range'_eq_some.mp hq
    obtain ⟨hlo, hhi⟩ := List.mem_range'_1.mp hmem
    have hprev : d.prev c = i := by simpa using hprev
    refine List.find?_range'_eq_some.mpr ⟨hprev ▸ mask_prev (by omega), hmem, fun j hj hjc => ?_⟩
    -- an entry before the first child that sees `i` would have a child of `i` before it
    by_contra hm
    obtain ⟨c', hlt, hle, hprev'⟩ := exists_child (by simpa using hm) hj
    have := hfirst c' hlt (by omega)
    simp [hprev'] at this

/-- **The next sibling** of an entry is the next child of the same parent. -/
theorem nextSibling_eq (hc : 0 < c) : nextSibling d.mask d.size c =
    (List.range' (c + 1) (d.size - (c + 1))).find? (d.prev · = d.prev c) := by
  rw [nextSibling, scanRow_parent hc, Option.bind_some]
  refine List.find?_congr fun i hi => ?_
  obtain ⟨hlo, -⟩ := List.mem_range'_1.mp hi
  have hpc := d.prev_lt c hc
  have hpi := d.prev_lt i (by omega)
  have hlast : ∀ j, d.prev i < j → j < i → d.mask i j = false := by
    intro j hj hji
    rw [Draft.mask_of_lt hji]
    by_contra hm
    exact absurd (Draft.mask_le (by simpa using hm)) (not_le.mpr hj)
  rw [Bool.eq_iff_iff]
  simp only [Bool.and_eq_true, Bool.not_eq_true', List.any_eq_false, List.mem_range'_1,
    decide_eq_true_eq]
  constructor
  · rintro ⟨hm, hnone⟩
    rcases lt_trichotomy (d.prev i) (d.prev c) with hlt | heq | hgt
    · rw [hlast _ hlt (by omega)] at hm
      cases hm
    · exact heq
    · exact absurd (mask_prev (by omega)) (hnone (d.prev i) ⟨hgt, by omega⟩)
  · intro heq
    refine ⟨heq ▸ mask_prev (by omega), fun j hj => ?_⟩
    rw [hlast j (by omega) (by omega)]
    simp

/-- **The kernel reads the draft tree back out of its mask**: every entry is one position behind
the entry it hangs below, the next token of an entry is its first child, and the next sibling of a
child the next child of the same entry. -/
theorem reconstruct_tree (d : Draft) (seqLen i : ℕ) :
    nextToken d.mask d.size i = (List.range' (i + 1) (d.size - (i + 1))).find? (d.prev · = i) ∧
      position d.mask seqLen 0 = seqLen ∧
      (0 < i → position d.mask seqLen i = position d.mask seqLen (d.prev i) + 1 ∧
        nextSibling d.mask d.size i =
          (List.range' (i + 1) (d.size - (i + 1))).find? (d.prev · = d.prev i)) := by
  refine ⟨nextToken_eq i, Nat.zero_add _, fun hi => ⟨?_, nextSibling_eq hi⟩⟩
  rw [position, position, scanRow_eq, scanRow_eq, before_mask hi, List.length_append]
  exact Nat.add_right_comm ..

end Reconstruct

/-! ### The target model -/

/-- A target model with its KV cache: the row of a token after the rows in front of it, and the
token that the greedy sampler picks after some rows. -/
structure Target (KV S : Type*) where
  /-- The row of a token. -/
  row : List KV → ℤ → KV
  /-- The argmax of the logits, after the penalties and processors. -/
  pick : S → List KV → ℤ

namespace Target

variable {KV S : Type*} (M : Target KV S)

/-- There are no penalties and no processors with a state. -/
def Stateless : Prop := ∀ s s' rows, M.pick s rows = M.pick s' rows

/-- The rows of some tokens, computed one after the other. -/
def rows (tokens : List ℤ) : List KV := tokens.foldl (fun rs t => rs ++ [M.row rs t]) []

/-- The token after some tokens. -/
def next (s : S) (tokens : List ℤ) : ℤ := M.pick s (M.rows tokens)

/-- **Plain greedy decoding**: the next `k` tokens, one at a time. -/
def greedy (s : S) : ℕ → List ℤ → List ℤ
  | 0, _ => []
  | k + 1, tokens => M.next s tokens :: greedy s k (tokens ++ [M.next s tokens])

/-- The row of an entry: it sees the cached rows and those of the entries its mask names. -/
def entryRow (mask : ℕ → ℕ → Bool) (token : ℕ → ℤ) (cached : List KV) (i : ℕ) : KV :=
  M.row (cached ++ (before mask i).attach.map fun j => entryRow mask token cached j.1) (token i)
termination_by i
decreasing_by exact List.mem_range.mp (List.mem_of_mem_filter j.2)

/-- `target_predict`: what the model picks after an entry; all entries have one sampling state. -/
def predict (s : S) (mask : ℕ → ℕ → Bool) (token : ℕ → ℤ) (cached : List KV) (i : ℕ) : ℤ :=
  M.pick s (cached ++ (before mask i ++ [i]).map (M.entryRow mask token cached))

theorem rows_concat (tokens : List ℤ) (t : ℤ) :
    M.rows (tokens ++ [t]) = M.rows tokens ++ [M.row (M.rows tokens) t] := by
  rw [rows, List.foldl_append]
  rfl

@[simp] theorem length_greedy (s : S) (k : ℕ) (tokens : List ℤ) :
    (M.greedy s k tokens).length = k := by
  induction k generalizing tokens with
  | zero => rfl
  | succ k ih => rw [greedy, List.length_cons, ih]

theorem greedy_add (s : S) (k m : ℕ) (tokens : List ℤ) :
    M.greedy s (k + m) tokens =
      M.greedy s k tokens ++ M.greedy s m (tokens ++ M.greedy s k tokens) := by
  induction k generalizing tokens with
  | zero => simp [greedy]
  | succ k ih =>
    rw [Nat.add_right_comm, greedy, greedy, ih, List.append_assoc, List.cons_append]
    rfl

variable {M} in
theorem Stateless.greedy_eq (h : M.Stateless) (s s' : S) (k : ℕ) (tokens : List ℤ) :
    M.greedy s k tokens = M.greedy s' k tokens := by
  induction k generalizing tokens with
  | zero => rfl
  | succ k ih =>
    have hnext : M.next s tokens = M.next s' tokens := h s s' _
    rw [greedy, greedy, hnext, ih]

/-- **The tree forward is the plain one along every path.** -/
theorem rows_path (d : Draft) (context : List ℤ) (i : ℕ) :
    M.rows context ++ (before d.mask i ++ [i]).map (M.entryRow d.mask d.token (M.rows context))
      = M.rows (context ++ d.path i) := by
  induction i using Nat.strong_induction_on with
  | _ i ih =>
    have hrow : M.entryRow d.mask d.token (M.rows context) i = M.row (M.rows context ++
        (before d.mask i).map (M.entryRow d.mask d.token (M.rows context))) (d.token i) := by
      rw [entryRow, List.attach_map_val]
    rcases Nat.eq_zero_or_pos i with rfl | hi
    · rw [Draft.path, show before d.mask 0 = [] from rfl, List.nil_append, List.map_singleton,
        List.map_singleton, rows_concat, hrow]
      simp [before]
    · have habove := ih _ (d.prev_lt i hi)
      rw [← before_mask hi] at habove
      rw [Draft.path_of_pos hi, ← List.append_assoc, rows_concat, ← habove, List.map_append,
        ← List.append_assoc, List.map_singleton, hrow]

theorem predict_eq (s : S) (d : Draft) (context : List ℤ) (i : ℕ) :
    M.predict s d.mask d.token (M.rows context) i = M.next s (context ++ d.path i) := by
  rw [predict, rows_path, next]

end Target

/-! ### The walk down the tree -/

/-- What `VerifyTreeGreedy` has written, and where it stands. -/
structure Verified where
  predicts : ℕ → ℤ
  /-- The entries of `accept_index` so far; `accept_token_num` is one less. -/
  acceptIndex : List ℕ
  /-- `last_accepted_retrive_idx`. -/
  last : ℕ

/-- The inner loop: along the siblings to the first that carries the target's token. -/
def findSibling (sibling : ℕ → Option ℕ) (token : ℕ → ℤ) (target : ℤ) : ℕ → Option ℕ → Option ℕ
  | fuel + 1, some c =>
    if token c = target then some c else findSibling sibling token target fuel (sibling c)
  | _, _ => none

/-- The outer loop. -/
def verifyLoop (mask : ℕ → ℕ → Bool) (size : ℕ) (token target : ℕ → ℤ) : ℕ → Verified → Verified
  | 0, s => s
  | steps + 1, s =>
    match findSibling (nextSibling mask size) token (target s.last) size
        (nextToken mask size s.last) with
    | none => s
    | some c => verifyLoop mask size token target steps
        { predicts := Function.update s.predicts s.last (target s.last)
          acceptIndex := s.acceptIndex ++ [c]
          last := c }

/-- `VerifyTreeGreedy`, with `num_speculative_tokens` columns of `accept_index`. -/
def verifyTreeGreedy (mask : ℕ → ℕ → Bool) (size : ℕ) (token target : ℕ → ℤ)
    (numSpeculativeTokens : ℕ) : Verified :=
  let s := verifyLoop mask size token target (numSpeculativeTokens - 1) ⟨fun _ => 0, [0], 0⟩
  { s with predicts := Function.update s.predicts s.last (target s.last) }

section Walk

variable {d : Draft} {target : ℕ → ℤ} {steps cur : ℕ}

theorem findSibling_range' {sibling : ℕ → Option ℕ} {token : ℕ → ℤ} {t : ℤ} {Q : ℕ → Bool}
    {a m fuel : ℕ} (hm : m ≤ fuel) (hsib : ∀ c, a ≤ c → c < a + m → Q c = true →
      sibling c = (List.range' (c + 1) (a + m - (c + 1))).find? Q) :
    findSibling sibling token t fuel ((List.range' a m).find? Q)
      = (List.range' a m).find? fun c => Q c && decide (token c = t) := by
  induction m generalizing a fuel with
  | zero => cases fuel <;> rfl
  | succ m ih =>
    have hrest : ∀ fuel, m ≤ fuel → _ := fun fuel hf => ih (a := a + 1) hf
      fun c hc hcm hq => (hsib c (by omega) (by omega) hq).trans (by congr 2; omega)
    rw [List.range'_succ, List.find?_cons, List.find?_cons]
    cases hQ : Q a with
    | false => simpa using hrest fuel (by omega)
    | true =>
      obtain ⟨fuel, rfl⟩ : ∃ k, fuel = k + 1 := ⟨fuel - 1, by omega⟩
      by_cases ht : token a = t
      · simp [findSibling, ht]
      · have hnext := hsib a le_rfl (by omega) hQ
        rw [show a + (m + 1) - (a + 1) = m by omega] at hnext
        simpa [findSibling, ht, hnext] using hrest fuel (by omega)

/-- The first child of an entry that carries a token. -/
def Draft.child (d : Draft) (cur : ℕ) (t : ℤ) : Option ℕ :=
  (List.range' (cur + 1) (d.size - (cur + 1))).find? fun c =>
    decide (d.prev c = cur) && decide (d.token c = t)

/-- The way down the tree by the target's tokens. -/
def Draft.walk (d : Draft) (target : ℕ → ℤ) : ℕ → ℕ → List ℕ
  | 0, _ => []
  | steps + 1, cur =>
    match d.child cur (target cur) with
    | none => []
    | some c => c :: d.walk target steps c

theorem Draft.child_eq_some {c : ℕ} {t : ℤ} (h : d.child cur t = some c) :
    cur < c ∧ c < d.size ∧ d.prev c = cur ∧ d.token c = t := by
  obtain ⟨hc, hmem, -⟩ := List.find?_range'_eq_some.mp h
  obtain ⟨hlo, hhi⟩ := List.mem_range'_1.mp hmem
  obtain ⟨hprev, htok⟩ := Bool.and_eq_true_iff.mp hc
  exact ⟨hlo, by omega, of_decide_eq_true hprev, of_decide_eq_true htok⟩

/-- **The inner loop** finds the first child with the target's token. -/
theorem findSibling_draft (d : Draft) (cur : ℕ) (t : ℤ) :
    findSibling (nextSibling d.mask d.size) d.token t d.size (nextToken d.mask d.size cur)
      = d.child cur t := by
  rw [nextToken_eq]
  refine findSibling_range' (by omega) fun c hc hcm hq => ?_
  rw [nextSibling_eq (by omega), of_decide_eq_true hq]
  congr 2
  omega

/-- **The outer loop** takes the walk, and leaves the target's token at each entry it leaves. -/
theorem verifyLoop_eq (d : Draft) (target : ℕ → ℤ) (steps : ℕ) (s : Verified)
    (hs : ∀ i ∈ s.acceptIndex, i = s.last ∨ s.predicts i = target i) :
    (verifyLoop d.mask d.size d.token target steps s).acceptIndex
        = s.acceptIndex ++ d.walk target steps s.last ∧
      ∀ i ∈ (verifyLoop d.mask d.size d.token target steps s).acceptIndex,
        i = (verifyLoop d.mask d.size d.token target steps s).last ∨
          (verifyLoop d.mask d.size d.token target steps s).predicts i = target i := by
  induction steps generalizing s with
  | zero => exact ⟨(List.append_nil _).symm, hs⟩
  | succ steps ih =>
    rw [verifyLoop, findSibling_draft, Draft.walk]
    cases d.child s.last (target s.last) with
    | none => exact ⟨(List.append_nil _).symm, hs⟩
    | some c =>
      have hnext := ih ⟨Function.update s.predicts s.last (target s.last),
        s.acceptIndex ++ [c], c⟩ (by
          intro i hi
          rcases List.mem_append.mp hi with hi | hi
          · right
            by_cases hlast : i = s.last
            · exact hlast ▸ Function.update_self ..
            · exact (Function.update_of_ne hlast _ _).trans ((hs i hi).resolve_left hlast)
          · exact .inl (List.mem_singleton.mp hi))
      simpa using hnext

/-- **The kernel** accepts the walk from the root, and its predictions there are the target's. -/
theorem verifyTreeGreedy_eq (d : Draft) (target : ℕ → ℤ) (num : ℕ) :
    (verifyTreeGreedy d.mask d.size d.token target num).acceptIndex =
        0 :: d.walk target (num - 1) 0 ∧
      ∀ i ∈ (verifyTreeGreedy d.mask d.size d.token target num).acceptIndex,
        (verifyTreeGreedy d.mask d.size d.token target num).predicts i = target i := by
  obtain ⟨hacc, hpred⟩ := verifyLoop_eq d target (num - 1) ⟨fun _ => 0, [0], 0⟩
    (fun i hi => .inl (List.mem_singleton.mp hi))
  refine ⟨hacc, fun i hi => ?_⟩
  by_cases hlast : i = (verifyLoop d.mask d.size d.token target (num - 1) ⟨fun _ => 0, [0], 0⟩).last
  · rw [verifyTreeGreedy, hlast]
    exact Function.update_self ..
  · exact (Function.update_of_ne hlast _ _).trans ((hpred i hi).resolve_left hlast)

/-- A way down the tree from an entry. -/
def Draft.Descends (d : Draft) : ℕ → List ℕ → Prop
  | _, [] => True
  | cur, c :: cs => cur < c ∧ c < d.size ∧ d.prev c = cur ∧ d.Descends c cs

theorem Draft.descends_walk : d.Descends cur (d.walk target steps cur) := by
  induction steps generalizing cur with
  | zero => trivial
  | succ steps ih =>
    rw [Draft.walk]
    cases hc : d.child cur (target cur) with
    | none => trivial
    | some c =>
      obtain ⟨hlt, hsize, hprev, -⟩ := Draft.child_eq_some hc
      exact ⟨hlt, hsize, hprev, ih⟩

theorem Draft.Descends.lt_size {cs : List ℕ} (h : d.Descends cur cs) : ∀ i ∈ cs, i < d.size := by
  induction cs generalizing cur with
  | nil => simp
  | cons c cs ih => exact List.forall_mem_cons.mpr ⟨h.2.1, ih h.2.2.2⟩

/-- What the last entry of a way down sees is the way to its start and the way itself. -/
theorem Draft.Descends.exists_last {cs : List ℕ} (h : d.Descends cur cs) :
    ∃ last, before d.mask last ++ [last] = before d.mask cur ++ cur :: cs := by
  induction cs generalizing cur with
  | nil => exact ⟨cur, rfl⟩
  | cons c cs ih =>
    obtain ⟨hlt, -, hprev, hrest⟩ := h
    obtain ⟨last, hlast⟩ := ih hrest
    refine ⟨last, ?_⟩
    rw [hlast, before_mask (by omega), hprev, List.append_assoc]
    rfl

theorem Draft.map_token_walk : (d.walk target steps cur).map d.token
    = ((cur :: d.walk target steps cur).map target).dropLast := by
  induction steps generalizing cur with
  | zero => rfl
  | succ steps ih =>
    rw [Draft.walk]
    cases hc : d.child cur (target cur) with
    | none => rfl
    | some c =>
      rw [List.map_cons, ih, (Draft.child_eq_some hc).2.2.2]
      rfl

section Greedy

variable {KV S : Type*} {M : Target KV S} {s : S} {context : List ℤ}
  (htarget : ∀ i, target i = M.next s (context ++ d.path i))

include htarget

/-- **The walk is greedy decoding**: the target's tokens along it are the next ones. -/
theorem walk_greedy (steps cur : ℕ) : (cur :: d.walk target steps cur).map target
    = M.greedy s ((d.walk target steps cur).length + 1) (context ++ d.path cur) := by
  induction steps generalizing cur with
  | zero => simp [Draft.walk, Target.greedy, htarget]
  | succ steps ih =>
    rw [Draft.walk]
    cases hc : d.child cur (target cur) with
    | none => simp [Target.greedy, htarget]
    | some c =>
      obtain ⟨hlt, -, hprev, htok⟩ := Draft.child_eq_some hc
      have hpath : context ++ d.path c =
          context ++ d.path cur ++ [M.next s (context ++ d.path cur)] := by
        rw [Draft.path_of_pos (by omega), hprev, htok, htarget, List.append_assoc]
      rw [List.map_cons, ih, hpath, htarget]
      rfl

/-- **The walk is the longest** of the ways down that agree with greedy decoding, when of two
children of an entry that carry the same token the second is a leaf. -/
theorem length_le_walk (steps : ℕ) (htwin : ∀ a < d.size, ∀ b < d.size, 0 < a → a < b →
      d.prev a = d.prev b → d.token a = d.token b → ∀ c < d.size, d.prev c ≠ b)
    {cs : List ℕ} (h : d.Descends cur cs) (hle : cs.length ≤ steps)
    (hcs : cs.map d.token = M.greedy s cs.length (context ++ d.path cur)) :
    cs.length ≤ (d.walk target steps cur).length := by
  induction cs generalizing cur steps with
  | nil => exact Nat.zero_le _
  | cons c cs ih =>
    obtain ⟨hlt, hsize, hprev, hrest⟩ := h
    obtain ⟨steps, rfl⟩ : ∃ k, steps = k + 1 := ⟨steps - 1, by simp at hle; omega⟩
    obtain ⟨htok, hcs⟩ := List.cons.inj hcs
    rw [← htok] at hcs
    have hpath : context ++ d.path c = context ++ d.path cur ++ [d.token c] := by
      rw [Draft.path_of_pos (by omega), hprev, List.append_assoc]
    rw [← hpath] at hcs
    rw [← htarget] at htok
    rw [Draft.walk]
    cases hchild : d.child cur (target cur) with
    | none =>
      have := List.find?_eq_none.mp hchild c (List.mem_range'_1.mpr ⟨hlt, by omega⟩)
      simp [hprev, htok] at this
    | some c' =>
      obtain ⟨hlt', hsize', hprev', htok'⟩ := Draft.child_eq_some hchild
      rcases lt_trichotomy c c' with hless | rfl | hmore
      · -- the walk takes the first child with the token
        have := (List.find?_range'_eq_some.mp hchild).2.2 c hlt hless
        simp [hprev, htok] at this
      · exact Nat.succ_le_succ (ih steps hrest (by simpa using hle) hcs)
      · have hleaf := htwin c' hsize' c hsize (by omega) hmore (hprev'.trans hprev.symm)
          (htok'.trans htok.symm)
        cases cs with
        | nil => exact Nat.succ_le_succ (Nat.zero_le _)
        | cons c'' cs => exact absurd hrest.2.2.1 (hleaf c'' hrest.2.1)

end Greedy

end Walk

/-! ### Rounds -/

/-- A request in the decode batch. -/
structure Request (KV S : Type*) where
  /-- `origin_input_ids + output_ids`. -/
  tokens : List ℤ
  /-- The entry of `seq_lens`. -/
  seqLen : ℕ
  /-- The row of `req_to_token`. -/
  slots : ℕ → ℕ
  /-- The KV cache, by slot. -/
  cache : ℕ → KV
  /-- `sampling_info`: the penalties and the processors, for the tokens so far. -/
  sampling : S
  slots_injective : Function.Injective slots

namespace Request

variable {KV S : Type*} (M : Target KV S)

/-- The rows that the entries of a draft find in the cache. -/
def cached (r : Request KV S) : List KV := (List.range r.seqLen).map fun p => r.cache (r.slots p)

/-- What the verify kernel returns for a draft. -/
def verified (r : Request KV S) (d : Draft) (numSpeculativeTokens : ℕ) : Verified :=
  verifyTreeGreedy d.mask d.size d.token (M.predict r.sampling d.mask d.token r.cached)
    numSpeculativeTokens

/-- The cache after the forward, which writes the row of every entry behind the sequence. -/
def forward (r : Request KV S) (d : Draft) : ℕ → KV :=
  scatter r.cache ((List.range d.size).map fun i => r.slots (r.seqLen + i))
    ((List.range d.size).map (M.entryRow d.mask d.token r.cached))

/-- `forward_batch_generation`: draft, forward, verify, and the move of the accepted rows
(`move_accept_tokens_to_target_kvcache`), which reads all of them before it writes. -/
def round (r : Request KV S) (d : Draft) (numSpeculativeTokens : ℕ) : Request KV S :=
  let v := r.verified M d numSpeculativeTokens
  { r with
    tokens := r.tokens ++ v.acceptIndex.map v.predicts
    seqLen := r.seqLen + v.acceptIndex.length
    cache := scatter (r.forward M d)
      ((List.range v.acceptIndex.length).map fun j => r.slots (r.seqLen + j))
      ((List.range v.acceptIndex.length).map fun j =>
        r.forward M d (r.slots (r.seqLen + v.acceptIndex.getD j 0))) }

/-- The cache holds the rows of all tokens but the last. -/
structure Coherent (r : Request KV S) : Prop where
  length_tokens : r.tokens.length = r.seqLen + 1
  cached_eq : r.cached = M.rows r.tokens.dropLast

/-- A round with some draft below the last token, and a sampling state that follows it in whatever
way. -/
def Step (r r' : Request KV S) : Prop :=
  ∃ (d : Draft) (num : ℕ) (s : S), 0 < d.size ∧ r.tokens.getLast? = some (d.token 0) ∧
    r' = { r.round M d num with sampling := s }

variable {M} {r r' : Request KV S} {d : Draft} {num : ℕ}

theorem Coherent.predict_eq (h : r.Coherent M) (d : Draft) (i : ℕ) :
    M.predict r.sampling d.mask d.token r.cached i =
      M.next r.sampling (r.tokens.dropLast ++ d.path i) := by
  rw [h.cached_eq, Target.predict_eq]

theorem dropLast_append_root (hlast : r.tokens.getLast? = some (d.token 0)) :
    r.tokens.dropLast ++ d.path 0 = r.tokens :=
  List.dropLast_append_getLast? _ hlast

/-- **The entries that a round accepts** carry the next tokens of greedy decoding, and what the
round emits are these and one more. -/
theorem Coherent.verified_eq (h : r.Coherent M) (num : ℕ)
    (hlast : r.tokens.getLast? = some (d.token 0)) :
    ∃ cs, d.Descends 0 cs ∧ (r.verified M d num).acceptIndex = 0 :: cs ∧
      cs.map d.token = M.greedy r.sampling cs.length r.tokens ∧
      (0 :: cs).map (r.verified M d num).predicts =
        M.greedy r.sampling (cs.length + 1) r.tokens := by
  obtain ⟨hacc, hpred⟩ := verifyTreeGreedy_eq d (M.predict r.sampling d.mask d.token r.cached) num
  have hgreedy := walk_greedy (h.predict_eq d) (num - 1) 0
  rw [dropLast_append_root hlast] at hgreedy
  refine ⟨_, Draft.descends_walk, hacc, ?_, ?_⟩
  · rw [Draft.map_token_walk, hgreedy, Target.greedy_add, Target.greedy, Target.greedy,
      List.dropLast_concat]
  · rw [← hgreedy, List.map_congr_left (hacc ▸ hpred)]

/-- The move leaves the cached rows alone and puts the accepted ones behind them. -/
theorem cached_round (haccept : ∀ i ∈ (r.verified M d num).acceptIndex, i < d.size) :
    (r.round M d num).cached = r.cached ++
      (r.verified M d num).acceptIndex.map (M.entryRow d.mask d.token r.cached) := by
  have hnodup (m : ℕ) : ((List.range m).map fun j => r.slots (r.seqLen + j)).Nodup :=
    List.nodup_range.map fun a b hab => Nat.add_left_cancel (r.slots_injective hab)
  have hforward : ∀ i < d.size, r.forward M d (r.slots (r.seqLen + i)) =
      M.entryRow d.mask d.token r.cached i :=
    fun i hi => scatter_map _ _ (hnodup _) (List.mem_range.mpr hi)
  have hbehind : ∀ p < r.seqLen, ∀ j, r.slots (r.seqLen + j) ≠ r.slots p := by
    intro p hp j heq
    have := r.slots_injective heq
    omega
  rw [cached, round, List.range_add, List.map_append]
  refine congrArg₂ (· ++ ·) (List.map_congr_left fun p hp => ?_) (List.ext_getElem (by simp) ?_)
  · have hp := List.mem_range.mp hp
    exact (scatter_map_of_ne _ _ fun j _ => hbehind p hp j).trans
      (scatter_map_of_ne _ _ fun j _ => hbehind p hp j)
  · intro j hj hj'
    have hj : j < (r.verified M d num).acceptIndex.length := by simpa using hj
    simp only [List.getElem_map, List.getElem_range]
    refine (scatter_map _ _ (hnodup _) (List.mem_range.mpr hj)).trans ?_
    rw [List.getD_eq_getElem _ _ hj, hforward _ (haccept _ (List.getElem_mem hj))]

/-- **A round** emits the next tokens of greedy decoding with its sampling state, and keeps the
cache coherent. -/
theorem Coherent.step (h : r.Coherent M) (hstep : Step M r r') : r'.Coherent M ∧
    ∃ k, r'.tokens = r.tokens ++ M.greedy r.sampling (k + 1) r.tokens := by
  obtain ⟨d, num, s, hsize, hlast, rfl⟩ := hstep
  obtain ⟨cs, hdown, hacc, htoken, hemit⟩ := h.verified_eq num hlast
  have htokens : (r.round M d num).tokens =
      r.tokens ++ M.greedy r.sampling (cs.length + 1) r.tokens := by
    rw [← hemit, ← hacc]
    rfl
  suffices hround : (r.round M d num).Coherent M from
    ⟨⟨hround.length_tokens, hround.cached_eq⟩, cs.length, htokens⟩
  refine ⟨?_, ?_⟩
  · rw [htokens, List.length_append, h.length_tokens, Target.length_greedy, round, hacc]
    exact Nat.add_right_comm ..
  · obtain ⟨last, hseen⟩ := hdown.exists_last
    have hrows := M.rows_path d r.tokens.dropLast last
    rw [Draft.path, hseen, ← h.cached_eq] at hrows
    rw [cached_round (hacc ▸ List.forall_mem_cons.mpr ⟨hsize, hdown.lt_size⟩), hacc]
    refine hrows.trans (congrArg M.rows ?_)
    rw [htokens, Target.greedy_add, Target.greedy, Target.greedy, ← List.append_assoc,
      List.dropLast_concat, ← htoken]
    conv_rhs => rw [← dropLast_append_root hlast]
    rw [List.append_assoc]
    rfl

/-- **Speculation is lossless** without penalties and processors with a state: after any rounds,
with any drafts, a request has the tokens it had and the next tokens of plain greedy decoding, its
cache holds the rows of these, and a further round adds at least one. -/
theorem speculation_lossless (hM : M.Stateless) (h : r.Coherent M)
    (hrun : Relation.ReflTransGen (Step M) r r') :
    r'.Coherent M ∧ (∃ k, r'.tokens = r.tokens ++ M.greedy r.sampling k r.tokens) ∧
      ∀ r'', Step M r' r'' → r'.tokens.length < r''.tokens.length := by
  have hkeep : r'.Coherent M ∧ ∃ k, r'.tokens = r.tokens ++ M.greedy r.sampling k r.tokens := by
    induction hrun with
    | refl => exact ⟨h, 0, (List.append_nil _).symm⟩
    | tail _ hstep ih =>
      obtain ⟨hb, k, hk⟩ := ih
      obtain ⟨hc, m, hm⟩ := hb.step hstep
      refine ⟨hc, k + (m + 1), ?_⟩
      rw [hm, hM.greedy_eq _ r.sampling, hk, M.greedy_add _ k (m + 1), List.append_assoc]
  refine ⟨hkeep.1, hkeep.2, fun r'' hstep => ?_⟩
  obtain ⟨-, k, hk⟩ := hkeep.1.step hstep
  simp [hk]

/-- **A round accepts all it could**: no way down the tree that agrees with greedy decoding by the
picks of the round is longer than the accepted one. Two children of an entry may carry the same
token only if the second is a leaf, as the entries are that a short draft is filled up with. -/
theorem accepts_longest (h : r.Coherent M) (hlast : r.tokens.getLast? = some (d.token 0))
    (htwin : ∀ a < d.size, ∀ b < d.size, 0 < a → a < b →
      d.prev a = d.prev b → d.token a = d.token b → ∀ c < d.size, d.prev c ≠ b)
    (cs : List ℕ) (hdown : d.Descends 0 cs) (hnum : cs.length < num)
    (hcs : cs.map d.token = M.greedy r.sampling cs.length r.tokens) :
    cs.length < (r.verified M d num).acceptIndex.length := by
  have hlongest := length_le_walk (h.predict_eq d) (num - 1) htwin hdown (by omega)
    ((dropLast_append_root hlast).symm ▸ hcs)
  rw [verified, (verifyTreeGreedy_eq ..).1]
  exact Nat.lt_succ_of_le hlongest

/-- A model that counts, and a request of which it has seen nothing. -/
def counter : Target ℤ ℕ where
  row _ t := t
  pick _ rows := rows.getLastD 0 + 1

def freshRequest : Request ℤ ℕ := ⟨[5], 0, id, fun _ => 0, 0, Function.injective_id⟩

/-- A draft with two guesses after the last token, of which the second goes on, filled up to six
entries. -/
def branchingDraft : Draft where
  size := 6
  token i := [5, 9, 6, 7].getD i 0
  prev i := [0, 0, 0, 2].getD i 0
  prev_lt i hi := by
    rcases lt_or_ge i 4 with h | h
    · interval_cases i <;> decide
    · rw [List.getD_eq_default _ _ h]
      exact hi

theorem freshRequest_coherent : freshRequest.Coherent counter := ⟨rfl, rfl⟩

theorem speculation_lossless_counter :
    ∃ k, (freshRequest.round counter branchingDraft 4).tokens = [5] ++ counter.greedy 0 k [5] :=
  (speculation_lossless (fun _ _ _ => rfl) freshRequest_coherent
    (.single ⟨branchingDraft, 4, 1, by decide, rfl, rfl⟩)).2.1

theorem accepts_longest_counter :
    2 < (freshRequest.verified counter branchingDraft 4).acceptIndex.length :=
  accepts_longest (d := branchingDraft) freshRequest_coherent rfl
    (by
      intro a ha b hb
      change a < 6 at ha
      change b < 6 at hb
      interval_cases a <;> interval_cases b <;> decide) [2, 3]
    ⟨by decide, by decide, rfl, by decide, by decide, rfl, trivial⟩ (by decide) (by decide)

end Request

end TreeVerify

end HtSglang
