import HtSglang.Scheduling.IgnoreEosAdmission

/-!
# Needless refusals of requests that ignore the end of sequence

`HtSglang.IgnoreEos.simulate` goes through the list of the requests as through the points in time
at which they end. In any order, what it lets through is safe; but only in ascending order of the
tokens left does a refusal mean that the tokens do run out.

The tokens left are those of `max_new_tokens` where nothing is taken off for the chance that a
request ends early (`HtSglang.IgnoreEos.WholeFactor`). The free tokens at a time are
`HtSglang.IgnoreEos.freeAt`, which depends on no order. If the list is sorted, a refusal means that
they fall to the reserve when one of the requests ends (`HtSglang.IgnoreEos.drops_of_simulate`). The
list is sorted by the first offer, and an insertion keeps it sorted, except that of a request which
has more tokens left than all others: it is put before the last entry, so that the tokens of the
last are not given back when it ends, and two requests are taken to decode for as long
(`HtSglang.IgnoreEos.refusal_needless`). Without such an offer, every refusal is justified:
`HtSglang.IgnoreEos.refusal_justified`.
-/

namespace HtSglang

namespace IgnoreEos

/-! ### The trajectory -/

/-- The factor of the request is `1`: it ignores the end of sequence, or nothing is taken off for
the chance that it ends early. Otherwise `tokens_left` is a rounded product. -/
def WholeFactor (cfg : Config) (r : Req) : Prop := r.ignoreEos = true ∨ cfg.newTokenRatio = 1

instance (cfg : Config) (r : Req) : Decidable (WholeFactor cfg r) :=
  inferInstanceAs (Decidable (_ ∨ _))

/-- What a request really has left and occupies, if it has something left. -/
def Req.entry (r : Req) : Option (ℚ × ℕ) :=
  if r.left = 0 then none else some (r.left, r.occupied)

theorem reqState_eq_entry {cfg : Config} {r : Req} (h : WholeFactor cfg r) :
    reqState cfg r = r.entry := by
  have hfactor : (if r.ignoreEos then 1 else cfg.newTokenRatio) = 1 := by
    split
    · rfl
    · next hignore => exact h.resolve_left hignore
  have hleft : tokensLeft cfg r = (r.maxNewTokens : ℚ) - r.outputLen := by
    rw [tokensLeft, hfactor, mul_one]
  rw [reqState, Req.entry, hleft, Req.left]
  rcases le_or_gt r.maxNewTokens r.outputLen with hle | hlt
  · rw [if_pos (Nat.sub_eq_zero_of_le hle), if_pos (sub_nonpos.mpr (Nat.cast_le.mpr hle))]
  · rw [if_neg (Nat.sub_ne_zero_of_lt hlt), if_neg (not_le.mpr (sub_pos.mpr (Nat.cast_lt.mpr hlt))),
      Nat.cast_sub hlt.le]

/-- The tokens that are free at `t`, when all requests decode in lockstep and those that have ended
have given back what they occupied. -/
def freeAt (curRemTokens : ℤ) (states : List (ℚ × ℕ)) (t : ℚ) : ℚ :=
  curRemTokens + freedBy states t - growth states t

/-- At the end of some request, the free tokens are not more than the reserve. -/
def Drops (curRemTokens : ℤ) (states : List (ℚ × ℕ)) : Prop :=
  ∃ e ∈ states, freeAt curRemTokens states e.1 ≤ ignoreEosReserveTokens * alive states e.1

instance (curRemTokens : ℤ) (states : List (ℚ × ℕ)) : Decidable (Drops curRemTokens states) :=
  inferInstanceAs (Decidable (∃ e ∈ states, _))

theorem Drops.perm {curRemTokens : ℤ} {states states' : List (ℚ × ℕ)} (hperm : states.Perm states')
    (h : Drops curRemTokens states) : Drops curRemTokens states' := by
  obtain ⟨e, he, hdrop⟩ := h
  refine ⟨e, hperm.mem_iff.mp he, ?_⟩
  rwa [freeAt, growth, alive_perm hperm, freedBy_perm hperm] at hdrop

/-- Entries in ascending order of the tokens left. -/
def Ascending (states : List (ℚ × ℕ)) : Prop := states.Pairwise fun x y => x.1 ≤ y.1

/-- Only requests before an entry can have ended when it ends. -/
theorem freedBy_le {before rest : List (ℚ × ℕ)} {e : ℚ × ℕ}
    (hsorted : Ascending (before ++ e :: rest)) :
    freedBy (before ++ e :: rest) e.1 ≤ (before.map Prod.snd).sum := by
  obtain ⟨-, hrest, -⟩ := List.pairwise_append.mp hsorted
  have hnone : (e :: rest).filter (fun s => s.1 < e.1) = [] := by
    refine List.filter_eq_nil_iff.mpr fun s hs => ?_
    rcases List.mem_cons.mp hs with rfl | hs
    · simp
    · simpa using (List.pairwise_cons.mp hrest).1 s hs
  rw [freedBy, List.filter_append, hnone, List.append_nil]
  exact (List.filter_sublist.map Prod.snd).sum_le_sum fun _ _ => Nat.zero_le _

/-- An entry and those behind it still decode when it ends. -/
theorem length_le_alive {before rest : List (ℚ × ℕ)} {e : ℚ × ℕ}
    (hsorted : Ascending (before ++ e :: rest)) :
    rest.length + 1 ≤ alive (before ++ e :: rest) e.1 := by
  obtain ⟨-, hrest, -⟩ := List.pairwise_append.mp hsorted
  have hall : (e :: rest).countP (fun s => e.1 ≤ s.1) = (e :: rest).length := by
    refine List.countP_eq_length.mpr fun s hs => ?_
    rcases List.mem_cons.mp hs with rfl | hs
    · simp
    · simpa using (List.pairwise_cons.mp hrest).1 s hs
  rw [alive, List.countP_append, hall, List.length_cons]
  exact Nat.le_add_left _ _

/-- **A refusal over a sorted list is justified**: the free tokens do fall to the reserve. -/
theorem drops_of_simulate {curRemTokens : ℤ} (before : List (ℚ × ℕ)) {states : List (ℚ × ℕ)}
    (hsorted : Ascending (before ++ states)) (hpos : ∀ e ∈ states, 0 < e.1)
    (h : simulate curRemTokens states (before.map Prod.snd).sum = false) :
    Drops curRemTokens (before ++ states) := by
  induction states generalizing before with
  | nil => cases h
  | cons e rest ih =>
    rw [simulate] at h
    split at h
    next hpoint =>
      -- At the end of `e`, no more has been given back and no fewer decode than was taken here.
      refine ⟨e, by simp, ?_⟩
      have hback : (freedBy (before ++ e :: rest) e.1 : ℚ) ≤ (before.map Prod.snd).sum := by
        exact_mod_cast freedBy_le hsorted
      have halive : ((rest.length + 1 : ℕ) : ℚ) ≤ alive (before ++ e :: rest) e.1 := by
        exact_mod_cast length_le_alive hsorted
      have hfactor : (0 : ℚ) ≤ e.1 + ignoreEosReserveTokens := by
        have := hpos e List.mem_cons_self
        positivity
      have hscaled := mul_le_mul_of_nonneg_left halive hfactor
      rw [freeAt, growth]
      linarith
    next =>
      have hassoc : before ++ e :: rest = (before ++ [e]) ++ rest := by simp
      rw [hassoc] at hsorted ⊢
      refine ih _ hsorted (fun s hs => hpos s (List.mem_cons_of_mem e hs)) ?_
      simpa using h

/-! ### The order of the list -/

theorem insertState_eq {states : List (ℚ × ℕ)} {e : ℚ × ℕ}
    (h : states = [] ∨ ∃ s ∈ states, e.1 ≤ s.1) :
    insertState states e = states.orderedInsert (fun x y => x.1 ≤ y.1) e := by
  induction states with
  | nil => rfl
  | cons s states ih =>
    by_cases hs : e.1 ≤ s.1
    · simp [insertState, List.findIdx?_cons, hs]
    · obtain ⟨s', hs', hle⟩ : ∃ s' ∈ states, e.1 ≤ s'.1 := by simpa [hs] using h
      have hrest := ih (Or.inr ⟨s', hs', hle⟩)
      have hany : (states.any fun s => e.1 ≤ s.1) = true :=
        List.any_eq_true.mpr ⟨s', hs', decide_eq_true hle⟩
      obtain ⟨i, hi⟩ : ∃ i, (states.findIdx? fun s => e.1 ≤ s.1) = some i :=
        Option.isSome_iff_exists.mp (List.findIdx?_isSome.trans hany)
      rw [insertState, hi] at hrest
      simp only [insertState, List.findIdx?_cons, hs, decide_false, hi, List.orderedInsert_cons,
        if_false, Option.map_some, Bool.false_eq_true]
      rw [← hrest]
      rfl

/-- A request that has no tokens left, or not more than some other one, or that is the only one
with tokens left. -/
def NotLongest (others : List Req) (req : Req) : Prop :=
  req.left = 0 ∨ (∀ r ∈ others, r.left = 0) ∨ ∃ r ∈ others, req.left ≤ r.left

theorem ascending_insertState {others : List Req} {req : Req} {states : List (ℚ × ℕ)} {e : ℚ × ℕ}
    (hperm : states.Perm (others.filterMap Req.entry)) (hsorted : Ascending states)
    (hreq : req.entry = some e) (hlongest : NotLongest others req) :
    Ascending (insertState states e) := by
  have hsome : req.left ≠ 0 := by
    intro hnone
    rw [Req.entry, if_pos hnone] at hreq
    cases hreq
  rw [Req.entry, if_neg hsome] at hreq
  obtain rfl := Option.some.inj hreq
  rw [insertState_eq]
  · exact hsorted.orderedInsert _ _
  · rcases hlongest with hnone | hnone | ⟨r, hr, hle⟩
    · exact absurd hnone hsome
    · refine Or.inl (List.perm_nil.mp ?_)
      have hempty : others.filterMap Req.entry = [] :=
        List.filterMap_eq_nil_iff.mpr fun r hr => if_pos (hnone r hr)
      rwa [hempty] at hperm
    · have hlisted : r.entry = some ((r.left : ℚ), r.occupied) := if_neg (by omega)
      exact Or.inr ⟨_, hperm.mem_iff.mpr (List.mem_filterMap.mpr ⟨r, hr, hlisted⟩),
        Nat.cast_le.mpr hle⟩

/-! ### A round of offers -/

section Offers

variable {cfg : Config} {a a' : Adder} {req : Req}

/-- The adder after offers that are all answered with `CONTINUE`. -/
def offerEach (cfg : Config) : Adder → List (Req × Bool) → Option Adder
  | a, [] => some a
  | a, (req, allowed) :: offers =>
    match a.addOneReqIgnoreEos cfg req allowed with
    | .ok (.continue, a') => offerEach cfg a' offers
    | _ => none

/-- The loop over the list is reached and answers `NO_TOKEN`. -/
def Adder.LoopRefuses (cfg : Config) (a : Adder) (req : Req) : Prop :=
  ¬(cfg.ceilPagedTokens ((req.occupied : ℤ) - req.prefixIndicesLen) : ℚ) >
      min (a.curRemTokens cfg : ℚ) (a.remTotalTokens cfg) ∧
    simulate (a.curRemTokens cfg - cfg.ceilPagedTokens ((req.occupied : ℤ) - req.prefixIndicesLen))
      (a.statesWith cfg req) 0 = false

instance (cfg : Config) (a : Adder) (req : Req) : Decidable (a.LoopRefuses cfg req) :=
  inferInstanceAs (Decidable (_ ∧ _))

/-- A request that is answered with `CONTINUE` is admitted and listed. -/
theorem admitted_of_continue {allowed : Bool}
    (h : a.addOneReqIgnoreEos cfg req allowed = .ok (.continue, a')) :
    a'.canRunList = a.canRunList ++ [req] ∧ a'.reqStates = some (a.statesWith cfg req) := by
  rw [Adder.addOneReqIgnoreEos] at h
  dsimp only at h
  split at h
  · simp at h
  split at h
  · simp at h
  split at h
  · simp at h
  rw [Adder.admitReq] at h
  split at h
  · obtain ⟨-, rfl⟩ : _ ∧ _ = a' := by simpa using h
    exact ⟨rfl, rfl⟩
  split at h
  · obtain ⟨-, rfl⟩ : _ ∧ _ = a' := by simpa using h
    exact ⟨rfl, rfl⟩
  split at h
  · simp at h
  split at h
  · simp at h
  obtain ⟨-, rfl⟩ : _ ∧ _ = a' := by simpa using h
  exact ⟨rfl, rfl⟩

/-- The requests that run and those that were offered before. -/
def Config.withOffers (cfg : Config) (earlier : List Req) : List Req :=
  cfg.running.map Running.toReq ++ earlier

theorem withOffers_append (earlier later : List Req) :
    cfg.withOffers (earlier ++ later) = cfg.withOffers earlier ++ later :=
  (List.append_assoc ..).symm

theorem filterMap_reqState {requests : List Req} (h : ∀ r ∈ requests, WholeFactor cfg r) :
    requests.filterMap (reqState cfg) = requests.filterMap Req.entry :=
  List.filterMap_congr fun r hr => reqState_eq_entry (h r hr)

/-- What holds of the list after the offers `earlier`: there is none yet, or it is sorted and has
exactly the requests that run and those offered. -/
def Listed (cfg : Config) (earlier : List Req) (a : Adder) : Prop :=
  a.canRunList = earlier ∧ (a.reqStates = none ∧ earlier = [] ∨ ∃ states,
    a.reqStates = some states ∧ earlier ≠ [] ∧ Ascending states ∧
      states.Perm ((cfg.withOffers earlier).filterMap (reqState cfg)))

/-- The list with one more request. -/
theorem Listed.statesWith {earlier : List Req} (h : Listed cfg earlier a)
    (hwhole : ∀ r ∈ cfg.withOffers (earlier ++ [req]), WholeFactor cfg r)
    (hlongest : earlier ≠ [] → NotLongest (cfg.withOffers earlier) req) :
    Ascending (a.statesWith cfg req) ∧ (a.statesWith cfg req).Perm
      ((cfg.withOffers (earlier ++ [req])).filterMap (reqState cfg)) := by
  obtain ⟨rfl, hlist⟩ := h
  refine ⟨?_, statesWith_perm ?_ req⟩
  · rw [withOffers_append] at hwhole
    rw [Adder.statesWith]
    rcases hlist with ⟨hnone, -⟩ | ⟨states, hsome, hne, hsorted, hperm⟩
    · rw [hnone]
      exact List.pairwise_insertionSort _ _
    · rw [hsome, reqState_eq_entry (hwhole req (by simp))]
      rw [filterMap_reqState fun r hr => hwhole r (List.mem_append_left _ hr)] at hperm
      cases hreq : req.entry with
      | none => exact hsorted
      | some e => exact ascending_insertState hperm hsorted hreq (hlongest hne)
  · rcases hlist with ⟨hnone, hempty⟩ | ⟨states, hsome, -, -, hperm⟩
    · exact Or.inl ⟨hnone, hempty⟩
    · exact Or.inr ⟨states, hsome, hperm⟩

/-- In a list of offers, none but the first may decode longer than all requests before it. -/
def NoneLongest (cfg : Config) : (earlier offers : List Req) → Prop
  | _, [] => True
  | earlier, req :: offers =>
    (earlier ≠ [] → NotLongest (cfg.withOffers earlier) req) ∧
      NoneLongest cfg (earlier ++ [req]) offers

/-- **A round of offers keeps the list sorted.** -/
theorem Listed.offerEach {earlier : List Req} {offers : List (Req × Bool)} {rest : List Req}
    (h : Listed cfg earlier a)
    (hwhole : ∀ r ∈ cfg.withOffers (earlier ++ offers.map Prod.fst), WholeFactor cfg r)
    (hlongest : NoneLongest cfg earlier (offers.map Prod.fst ++ rest))
    (hrun : offerEach cfg a offers = some a') :
    Listed cfg (earlier ++ offers.map Prod.fst) a' ∧
      NoneLongest cfg (earlier ++ offers.map Prod.fst) rest := by
  induction offers generalizing a earlier with
  | nil =>
    obtain rfl := Option.some.inj hrun
    simpa using ⟨h, hlongest⟩
  | cons o offers ih =>
    obtain ⟨req, allowed⟩ := o
    obtain ⟨hreq, hrest⟩ := hlongest
    have hassoc : earlier ++ ((req, allowed) :: offers).map Prod.fst =
        (earlier ++ [req]) ++ offers.map Prod.fst := by simp
    rw [hassoc] at hwhole ⊢
    rw [IgnoreEos.offerEach] at hrun
    split at hrun
    next a₁ hok =>
      obtain ⟨hlist, hstates⟩ := admitted_of_continue hok
      have hfirst : ∀ r ∈ cfg.withOffers (earlier ++ [req]), WholeFactor cfg r := by
        rw [withOffers_append] at hwhole
        exact fun r hr => hwhole r (List.mem_append_left _ hr)
      obtain ⟨hsorted, hperm⟩ := h.statesWith hfirst hreq
      have hlisted : Listed cfg (earlier ++ [req]) a₁ :=
        ⟨hlist.trans (congrArg (· ++ [req]) h.1), Or.inr ⟨_, hstates, by simp, hsorted, hperm⟩⟩
      exact ih hlisted hwhole hrest hrun
    next => cases hrun

theorem pos_of_mem_entries {requests : List Req} {e : ℚ × ℕ}
    (he : e ∈ requests.filterMap Req.entry) : 0 < e.1 := by
  obtain ⟨r, -, hr⟩ := List.mem_filterMap.mp he
  rw [Req.entry] at hr
  split at hr
  · cases hr
  next hpos =>
    obtain rfl := Option.some.inj hr
    exact Nat.cast_pos.mpr (Nat.pos_of_ne_zero hpos)

/-- **No refusal of the loop is needless**, as long as every request has the factor `1` and none but
the first is offered that decodes longer than all others: when all running and admitted requests and
the one that is refused decode in lockstep, then at the end of one of them the free tokens are not
more than the reserve. -/
theorem refusal_justified (cfg : Config) (hpage : cfg.pageSize = 1) (remInputTokens : ℤ)
    (remChunkTokens : Option ℤ) (numMixedDecodeTokens : ℕ) (offers : List (Req × Bool)) (a : Adder)
    (hrun : offerEach cfg (Adder.init cfg remInputTokens remChunkTokens numMixedDecodeTokens)
      offers = some a) (req : Req)
    (hwhole : ∀ r ∈ cfg.withOffers (offers.map Prod.fst ++ [req]), WholeFactor cfg r)
    (hlongest : NoneLongest cfg [] (offers.map Prod.fst ++ [req]))
    (hrefused : a.LoopRefuses cfg req) :
    Drops (a.curRemTokens cfg - ((req.occupied : ℤ) - req.prefixIndicesLen))
      ((cfg.withOffers (a.canRunList ++ [req])).filterMap Req.entry) := by
  have hinit : Listed cfg [] (Adder.init cfg remInputTokens remChunkTokens numMixedDecodeTokens) :=
    ⟨rfl, Or.inl ⟨rfl, rfl⟩⟩
  have hbefore : ∀ r ∈ cfg.withOffers (offers.map Prod.fst), WholeFactor cfg r := fun r hr =>
    hwhole r (by rw [withOffers_append]; exact List.mem_append_left _ hr)
  obtain ⟨hlisted, hreq, -⟩ := hinit.offerEach hbefore hlongest hrun
  rw [List.nil_append] at hlisted hreq
  obtain ⟨hsorted, hperm⟩ := hlisted.statesWith hwhole hreq
  rw [filterMap_reqState hwhole] at hperm
  obtain ⟨-, hloop⟩ := hrefused
  rw [ceilPagedTokens_of_one hpage] at hloop
  rw [hlisted.1]
  exact (drops_of_simulate [] hsorted
    (fun e he => pos_of_mem_entries (hperm.mem_iff.mp he)) hloop).perm hperm

end Offers

/-- A pool of 30 tokens without running requests. -/
def smallPool : Config := tokenPool 30 1 []

/-- After a request for 20 tokens, one for 15 is refused. -/
theorem refusal_justified_second :
    ∃ a, offerEach smallPool (Adder.init smallPool 100 none 0) [(fresh 1 20, true)] = some a ∧
      a.LoopRefuses smallPool (fresh 1 15) ∧
      Drops (a.curRemTokens smallPool - 1) ((a.canRunList ++ [fresh 1 15]).filterMap
        Req.entry) := by
  have hrefuses : ((offerEach smallPool (Adder.init smallPool 100 none 0)
      [(fresh 1 20, true)]).map fun a => decide (a.LoopRefuses smallPool (fresh 1 15))) =
      some true := by
    decide +kernel
  obtain ⟨a, hrun, hrefused⟩ := Option.map_eq_some_iff.mp hrefuses
  have hlongest : NoneLongest smallPool [] [fresh 1 20, fresh 1 15] := by
    refine ⟨fun hne => absurd rfl hne, fun _ => Or.inr (Or.inr ⟨fresh 1 20, ?_, ?_⟩), trivial⟩
    · exact List.mem_append_right _ (List.mem_singleton_self _)
    · decide
  have hrefused := of_decide_eq_true hrefused
  exact ⟨a, hrun, hrefused, refusal_justified smallPool rfl 100 none 0 [(fresh 1 20, true)] a hrun
    (fresh 1 15) (by decide) hlongest hrefused⟩

/-- **A refusal can be needless.** In a pool of 30 tokens, a request for 5 tokens is admitted and
then one for 20 is refused, although the free tokens never fall to the reserve: there are 17 left
when the first ends and 8 when the second does. -/
theorem refusal_needless :
    ((offerEach smallPool (Adder.init smallPool 100 none 0) [(fresh 1 5, true)]).map fun a =>
      (decide (a.LoopRefuses smallPool (fresh 1 20)),
        (a.addOneReqIgnoreEos smallPool (fresh 1 20) true).toOption.map Prod.fst,
        decide (Drops (a.curRemTokens smallPool - 1) ((a.canRunList ++ [fresh 1 20]).filterMap
          Req.entry)))) = some (true, some .noToken, false) := by
  decide +kernel

end IgnoreEos

end HtSglang
