import HtSglang.Generation.FinishState
import HtSglang.Generation.Detokenizer

/-!
# Stop strings

Three places look at a stop string. The scheduler looks for it in the text of the last tokens,
as many as the stop string's own encoding has and one more; the streamer holds text back while
the end of that tail could begin a stop string (`HtSglang.Generation.checkMatchStopStrPrefix`); the
detokenizer cuts the text at the one that was matched.

They do not always agree. The model may spell a stop string with more tokens than its encoding
has, and then nobody sees it; of several stop strings in the tail the first of the list counts and
not the first in the text; and a request that does not stream still sends its text now and then,
without looking. `HtSglang.Generation.InTime` says of the tokens and the intervals when a stop
string is kept back, and `HtSglang.Generation.stop_trimmed_iff` that exactly then a request finishes
at the token that completes a stop string and has emitted the text before it. A streaming request
does so when the tail reaches back to where the stop string begins
(`HtSglang.Generation.caughtInTime_of_window`).
-/

namespace HtSglang

namespace Generation

open LossyUtf8

/-! ### The streamer -/

/-- When the output of a request is sent. -/
structure Streaming where
  stream : Bool
  /-- Its own interval. -/
  streamInterval : Option ℕ
  /-- The interval of requests without one. -/
  defaultStreamInterval : ℕ
  /-- The interval of requests that do not stream. -/
  defaultForceStreamInterval : ℕ

/-- `sampling_params.stream_interval or default_stream_interval`. -/
def Streaming.interval (st : Streaming) : ℕ :=
  match st.streamInterval with
  | none => st.defaultStreamInterval
  | some k => if k = 0 then st.defaultStreamInterval else k

/-- `check_match_stop_str_prefix`. -/
def checkMatchStopStrPrefix (p : Params) (outputIds : List ℤ) : Bool :=
  let tail := tailStr p outputIds 1
  if tail = [] then false
  else
    p.stopStrs.any fun s =>
      s ≠ [] && (decide (s <:+: tail) ||
        (List.range' 1 (min tail.length s.length)).any fun i =>
          tail.drop (tail.length - i) = s.take i)

/-- `should_output` of `_GenerationStreamAccumulator.accept`. -/
def shouldOutput (p : Params) (st : Streaming) (r : Req) : Bool :=
  if r.finishedReason.isSome then true
  else if st.stream then
    (if 1 < st.interval then r.outputIds.length % st.interval = 1
      else r.outputIds.length % st.interval = 0) &&
      !checkMatchStopStrPrefix p r.outputIds
  else r.outputIds.length % st.defaultForceStreamInterval = 0

/-- What the detokenizer is told of the reason. -/
def FinishReason.matched : FinishReason → Matched
  | .length _ => .nothing
  | .matchedStr s => .str s
  | .matchedToken t => .token t

/-- A request and what was sent of it. -/
structure Progress where
  req : Req
  /-- Its messages and its text. -/
  session : Session

/-- One generated token. -/
def Progress.step (p : Params) (st : Streaming) (d : Decoder) (prompt : List ℤ)
    (g : Progress) (t : ℤ) : Progress :=
  if g.req.finishedReason.isSome then g
  else
    let req := accept p g.req [t]
    if shouldOutput p st req then
      ⟨req, g.session.send d prompt (req.outputIdsThroughStop.drop g.session.outputIds.length)
        (req.finishedReason.map FinishReason.matched)⟩
    else ⟨req, g.session⟩

/-- A request after the tokens of a stream. -/
def generate (p : Params) (st : Streaming) (d : Decoder) (prompt stream : List ℤ) : Progress :=
  stream.foldl (Progress.step p st d prompt) ⟨.new, .new⟩

/-- **The decoding of a tokenizer with fixed texts**: everything is complete. -/
def Tokenizer.decoding (tok : Tokenizer) : Decoding where
  decode := tok.decode
  settled := tok.decode
  Complete _ := True
  complete_nil := trivial
  decode_nil := rfl
  decode_append _ _ := List.flatMap_append
  complete_append _ _ _ := trivial
  settled_append _ _ := List.flatMap_append
  settled_prefix as bs := by
    rw [Tokenizer.decode, Tokenizer.decode, List.flatMap_append]
    exact List.prefix_append _ _
  settled_prefix_decode _ := List.prefix_rfl
  settled_eq_of_complete _ := rfl
  complete_of_getLast _ := trivial
  length_decode_le _ := Nat.le_succ _

/-- The detokenizer of such a tokenizer, which does not keep matched stops. -/
def Tokenizer.decoder (tok : Tokenizer) (toolCalls : Bool) : Decoder :=
  tok.decoding.decoder false toolCalls

/-! ### What is wanted -/

/-- A stop string is in the text of the first `n` tokens. -/
def Completes (p : Params) (stream : List ℤ) (n : ℕ) : Prop :=
  ∃ s ∈ p.stopStrs, s <:+: p.tokenizer.decode (stream.take n)

instance (p : Params) (stream : List ℤ) (n : ℕ) : Decidable (Completes p stream n) :=
  inferInstanceAs (Decidable (∃ s ∈ p.stopStrs, _))

/-- Where the earliest stop string of a text begins. -/
def earliestStop (p : Params) (text : List Char) : Option ℕ :=
  (p.stopStrs.filterMap fun s => findText s text).min?

/-- **What was sent never goes back** while the tokens come. -/
def Ahead (p : Params) (st : Streaming) (d : Decoder) (prompt ids : List ℤ) : Prop :=
  ∀ n < ids.length, (generate p st d prompt (ids.take n)).session.sentOffset ≤
    (generate p st d prompt (ids.take (n + 1))).session.sentOffset

/-- **A stop string is caught in time** at the `m`th token: the first of the list that is in the
tail begins at `e`, what was sent before never went back, and nothing after `e` was sent. -/
structure CaughtInTime (p : Params) (st : Streaming) (d : Decoder) (prompt stream : List ℤ)
    (m e : ℕ) : Prop where
  seen : ∃ s, p.stopStrs.find? (fun s => InTail p (stream.take m) 1 s) = some s ∧
    findText s (p.tokenizer.decode (stream.take m)) = some e
  ahead : Ahead p st d prompt (stream.take (m - 1))
  sent : (generate p st d prompt (stream.take (m - 1))).session.sentOffset ≤ e

/-- Output is due after so many tokens. -/
def Streaming.Due (st : Streaming) (n : ℕ) : Prop :=
  if st.stream then (if 1 < st.interval then n % st.interval = 1 else n % st.interval = 0)
  else n % st.defaultForceStreamInterval = 0

/-- The text of the last tokens ends with the beginning of a stop string. -/
def EndsInStop (p : Params) (ids : List ℤ) : Prop :=
  ∃ s ∈ p.stopStrs, ∃ i, 0 < i ∧ i ≤ s.length ∧ s.take i <:+ tailStr p ids 1

/-- **A stop string is kept back until the `m`th token**: of the stop strings in the text of the
last tokens the first of the list begins at `e`, and whenever output was due whose text goes past
`e`, the request streams and the text of the last tokens ended with the beginning of a stop string.
-/
structure InTime (p : Params) (st : Streaming) (stream : List ℤ) (m e : ℕ) : Prop where
  seen : ∃ s, p.stopStrs.find? (fun s => InTail p (stream.take m) 1 s) = some s ∧
    findText s (p.tokenizer.decode (stream.take m)) = some e
  /-- What is due is kept back. -/
  held : ∀ j, 0 < j → j < m → st.Due j → e < (p.tokenizer.decode (stream.take j)).length →
    st.stream = true ∧ EndsInStop p (stream.take j)

/-! ### Finding a text -/

theorem findText_spec {s : List Char} (text : List Char) {pos : ℕ}
    (h : findText s text = some pos) :
    pos ≤ text.length ∧ s <+: text.drop pos := by
  induction text generalizing pos with
  | nil =>
    rw [findText] at h
    split at h
    · next hs =>
      obtain rfl := Option.some.inj h
      rw [hs]
      exact ⟨le_rfl, List.nil_prefix⟩
    · cases h
  | cons c text ih =>
    rw [findText] at h
    split at h
    · next hpre =>
      obtain rfl := Option.some.inj h
      exact ⟨Nat.zero_le _, hpre⟩
    · obtain ⟨q, hq, rfl⟩ := Option.map_eq_some_iff.mp h
      obtain ⟨hle, hpre⟩ := ih hq
      exact ⟨Nat.succ_le_succ hle, hpre⟩

theorem exists_findText {s text : List Char} (h : s <:+: text) :
    ∃ pos, findText s text = some pos := by
  induction text with
  | nil =>
    rw [List.infix_nil] at h
    exact ⟨0, if_pos h⟩
  | cons c text ih =>
    rw [findText]
    split
    · exact ⟨0, rfl⟩
    · next hno =>
      obtain ⟨pos, hpos⟩ := ih ((List.infix_cons_iff.mp h).resolve_left hno)
      exact ⟨pos + 1, by rw [hpos, Option.map_some]⟩

theorem earliestStop_le {p : Params} {text s : List Char} {e pos : ℕ}
    (he : earliestStop p text = some e) (hs : s ∈ p.stopStrs) (hpos : findText s text = some pos) :
    e ≤ pos :=
  (List.min?_eq_some_iff.mp he).2 pos (List.mem_filterMap.mpr ⟨s, hs, hpos⟩)

/-! ### Before a stop string -/

/-- The tail is part of the text. -/
theorem tailStr_isInfix (p : Params) (ids : List ℤ) (newLen : ℕ) :
    tailStr p ids newLen <:+: p.tokenizer.decode ids := by
  rw [tailStr]
  split
  · exact List.nil_infix
  · exact decode_infix (List.drop_suffix _ _).isInfix

/-- What the streamer looks for, in a tail without a whole stop string. -/
theorem checkMatchStopStrPrefix_iff {p : Params} {ids : List ℤ}
    (hnone : ∀ s ∈ p.stopStrs, ¬s <:+: tailStr p ids 1) :
    checkMatchStopStrPrefix p ids = true ↔ EndsInStop p ids := by
  have hne {s : List Char} (hs : s ∈ p.stopStrs) : s ≠ [] := by
    rintro rfl
    exact hnone [] hs List.nil_infix
  have hsuffix (s : List Char) (i : ℕ) (hi : i ≤ (tailStr p ids 1).length) (his : i ≤ s.length) :
      (tailStr p ids 1).drop ((tailStr p ids 1).length - i) = s.take i ↔
        s.take i <:+ tailStr p ids 1 := by
    rw [List.suffix_iff_eq_drop, List.length_take_of_le his, eq_comm]
  rw [checkMatchStopStrPrefix]
  split
  · next hnil =>
    refine iff_of_false Bool.false_ne_true ?_
    rintro ⟨s, -, i, hi, his, hsuf⟩
    have hle := hsuf.length_le
    rw [hnil, List.length_take_of_le his, List.length_nil] at hle
    omega
  rw [List.any_eq_true]
  refine exists_congr fun s => and_congr_right fun hs => ?_
  simp only [Bool.and_eq_true, Bool.or_eq_true, decide_eq_true_eq, hne hs, ne_eq,
    not_false_eq_true, true_and, hnone s hs, false_or, List.any_eq_true, List.mem_range'_1]
  refine exists_congr fun i => ⟨?_, ?_⟩
  · rintro ⟨hi, heq⟩
    exact ⟨by omega, by omega, (hsuffix s i (by omega) (by omega)).mp heq⟩
  · rintro ⟨hpos, his, hsuf⟩
    have hle := hsuf.length_le
    rw [List.length_take_of_le his] at hle
    exact ⟨by omega, (hsuffix s i hle his).mpr hsuf⟩

theorem shouldOutput_iff {p : Params} (st : Streaming) {ids : List ℤ}
    (hnone : ∀ s ∈ p.stopStrs, ¬s <:+: tailStr p ids 1) :
    shouldOutput p st ⟨ids, none, none⟩ = true ↔
      st.Due ids.length ∧ ¬(st.stream = true ∧ EndsInStop p ids) := by
  rw [← checkMatchStopStrPrefix_iff hnone, shouldOutput, Streaming.Due, if_neg (by simp)]
  cases st.stream with
  | false => simp
  | true =>
    rw [if_pos rfl, if_pos rfl]
    split <;> simp

section Run

variable {p : Params} {st : Streaming} {prompt : List ℤ} {toolCalls : Bool}

/-- **A request that has not stopped**: all tokens are its output, a part of them was sent, when
the streamer allowed it. -/
structure Running (p : Params) (st : Streaming) (prompt : List ℤ) (toolCalls : Bool)
    (ids : List ℤ) (s : DecodeStatus) : Prop where
  req : (generate p st (p.tokenizer.decoder toolCalls) prompt ids).req =
    ⟨ids, none, none⟩
  emits : Emits p.tokenizer.decoding prompt
    (Ahead p st (p.tokenizer.decoder toolCalls) prompt ids)
    (generate p st (p.tokenizer.decoder toolCalls) prompt ids).session s
  sent : (generate p st (p.tokenizer.decoder toolCalls) prompt ids).session.outputIds
    <+: ids
  allowed : (generate p st (p.tokenizer.decoder toolCalls) prompt
      ids).session.outputIds = [] ∨
    shouldOutput p st ⟨(generate p st (p.tokenizer.decoder toolCalls) prompt
      ids).session.outputIds, none, none⟩ = true
  /-- Whatever was allowed was sent. -/
  latest : ∀ j, 0 < j → j ≤ ids.length → shouldOutput p st ⟨ids.take j, none, none⟩ = true →
    j ≤ (generate p st (p.tokenizer.decoder toolCalls) prompt ids).session.outputIds.length
  /-- All of its text was, without replacement characters. -/
  sentText : (∀ ids, replacement ∉ p.tokenizer.decode ids) → s.sentOffset = (p.tokenizer.decode
    (generate p st (p.tokenizer.decoder toolCalls) prompt ids).session.outputIds).length

theorem ahead_append_singleton {d : Decoder} {ids : List ℤ} {t : ℤ} :
    Ahead p st d prompt (ids ++ [t]) ↔ Ahead p st d prompt ids ∧
      (generate p st d prompt ids).session.sentOffset ≤
        (generate p st d prompt (ids ++ [t])).session.sentOffset := by
  have hlen : (ids ++ [t]).length = ids.length + 1 := by simp
  have htake (n : ℕ) (hn : n ≤ ids.length) : (ids ++ [t]).take n = ids.take n :=
    List.take_append_of_le_length hn
  constructor
  · intro h
    refine ⟨fun n hn => ?_, ?_⟩
    · have := h n (by omega)
      rwa [htake n hn.le, htake (n + 1) hn] at this
    · have := h ids.length (by omega)
      rwa [htake _ le_rfl, List.take_length, ← hlen, List.take_length] at this
  · rintro ⟨h, hlast⟩ n hn
    rcases Nat.lt_or_ge n ids.length with hlt | hge
    · rw [htake n hlt.le, htake (n + 1) hlt]
      exact h n hlt
    · obtain rfl : n = ids.length := by omega
      rwa [htake _ le_rfl, List.take_length, ← hlen, List.take_length]

theorem running_nil : Running p st prompt toolCalls [] (.start prompt) := by
  refine ⟨rfl, ?_, List.nil_prefix, .inl rfl, fun j hpos hj => absurd hj (not_le.mpr hpos),
    fun _ => rfl⟩
  have hahead : Ahead p st (p.tokenizer.decoder toolCalls) prompt [] = True :=
    eq_true fun n hn => absurd hn (Nat.not_lt_zero n)
  rw [hahead]
  exact emits_new trivial

theorem generate_append_singleton (p : Params) (st : Streaming) (d : Decoder)
    (prompt ids : List ℤ) (t : ℤ) :
    generate p st d prompt (ids ++ [t]) = (generate p st d prompt ids).step p st d prompt t := by
  rw [generate, List.foldl_append]
  rfl

theorem generate_eq_foldl_drop (p : Params) (st : Streaming) (d : Decoder)
    (prompt stream : List ℤ) (k : ℕ) :
    generate p st d prompt stream = (stream.drop k).foldl (Progress.step p st d prompt)
      (generate p st d prompt (stream.take k)) := by
  rw [generate, generate, ← List.foldl_append, List.take_append_drop]

/-- The new tokens of a message complete what was sent. -/
theorem append_drop_of_prefix {sent ids : List ℤ} (h : sent <+: ids) :
    sent ++ ids.drop sent.length = ids := by
  obtain ⟨rest, rfl⟩ := h
  rw [List.drop_left]

/-- **One token that does not stop the request**: the output is sent, or not. -/
theorem Running.generate_eq {ids : List ℤ} {s : DecodeStatus}
    (h : Running p st prompt toolCalls ids s) {t : ℤ}
    (ht : accept p ⟨ids, none, none⟩ [t] = ⟨ids ++ [t], none, none⟩) :
    generate p st (p.tokenizer.decoder toolCalls) prompt (ids ++ [t]) =
      ⟨⟨ids ++ [t], none, none⟩,
        if shouldOutput p st ⟨ids ++ [t], none, none⟩ then
          (generate p st (p.tokenizer.decoder toolCalls) prompt ids).session.send
            (p.tokenizer.decoder toolCalls) prompt ((ids ++ [t]).drop
              (generate p st (p.tokenizer.decoder toolCalls) prompt
                ids).session.outputIds.length) none
        else (generate p st (p.tokenizer.decoder toolCalls) prompt ids).session⟩ := by
  rw [generate_append_singleton, Progress.step, h.req, ht, if_neg (by simp)]
  dsimp only
  split
  · rfl
  · rfl

theorem Running.step {ids : List ℤ} {s : DecodeStatus} (h : Running p st prompt toolCalls ids s)
    {t : ℤ} (ht : accept p ⟨ids, none, none⟩ [t] = ⟨ids ++ [t], none, none⟩) :
    ∃ s', Running p st prompt toolCalls (ids ++ [t]) s' := by
  have hstep := h.generate_eq ht
  have hpre : (generate p st (p.tokenizer.decoder toolCalls) prompt ids).session.outputIds <+:
      ids ++ [t] := h.sent.trans (List.prefix_append _ _)
  split at hstep
  · next hout =>
    have hsent := h.emits.send false toolCalls ((ids ++ [t]).drop
      (generate p st (p.tokenizer.decoder toolCalls) prompt ids).session.outputIds.length)
    have hids : (generate p st (p.tokenizer.decoder toolCalls) prompt
        (ids ++ [t])).session.outputIds = ids ++ [t] := by
      rw [hstep]
      exact append_drop_of_prefix hpre
    refine ⟨s.next p.tokenizer.decoding ((ids ++ [t]).drop
      (generate p st (p.tokenizer.decoder toolCalls) prompt ids).session.outputIds.length),
      ?_, ?_, ?_, .inr ?_, ?_, fun hno => ?_⟩
    · rw [hstep]
    · rw [← h.emits.linked.sentOffset_eq, ← hsent.linked.sentOffset_eq] at hsent
      rw [ahead_append_singleton, hstep]
      exact hsent
    · rw [hids]
    · rwa [hids]
    · rw [hids]
      exact fun j _ hj _ => hj
    · rw [hids, h.emits.sentOffset_next fun hc => hno _ (List.mem_of_getLast? hc),
        append_drop_of_prefix hpre]
      rfl
  · next hout =>
    refine ⟨s, ?_, ?_, ?_, ?_, fun j hpos hj hdue => ?_, ?_⟩
    · rw [hstep]
    · rw [ahead_append_singleton, hstep, and_iff_left le_rfl]
      exact h.emits
    · rw [hstep]
      exact hpre
    · rw [hstep]
      exact h.allowed
    · rw [hstep]
      rw [List.length_append, List.length_singleton] at hj
      rcases Nat.lt_or_ge ids.length j with hgt | hle
      · rw [List.take_of_length_le (by simp; omega)] at hdue
        exact absurd hdue hout
      · rw [List.take_append_of_le_length hle] at hdue
        exact h.latest j hpos hle hdue
    · rw [hstep]
      exact h.sentText

/-- Without replacement characters what was sent does not go back. -/
theorem Running.sentOffset_le {ids : List ℤ} {s : DecodeStatus}
    (h : Running p st prompt toolCalls ids s) {t : ℤ}
    (ht : accept p ⟨ids, none, none⟩ [t] = ⟨ids ++ [t], none, none⟩)
    (hno : ∀ ids, replacement ∉ p.tokenizer.decode ids) :
    (generate p st (p.tokenizer.decoder toolCalls) prompt ids).session.sentOffset ≤
      (generate p st (p.tokenizer.decoder toolCalls) prompt (ids ++ [t])).session.sentOffset := by
  rw [h.generate_eq ht]
  dsimp only
  split
  · have hsent := h.emits.toFollows.send false toolCalls ((ids ++ [t]).drop
      (generate p st (p.tokenizer.decoder toolCalls) prompt ids).session.outputIds.length)
    rw [h.emits.linked.sentOffset_eq]
    refine le_trans ?_ hsent.linked.sentOffset_eq.ge
    exact h.emits.sentOffset_le fun hc => hno _ (List.mem_of_getLast? hc)
  · exact le_rfl

/-- **One token that is no stop token**: the request stops if a stop string is in the tail. -/
theorem accept_singleton {ids : List ℤ} {t : ℤ} (hmax : (ids ++ [t]).length < p.maxNewTokens)
    (hvocab : 0 ≤ t ∧ t < p.vocabSize) (hno : matchesToken p t = false) :
    accept p ⟨ids, none, none⟩ [t] =
      match p.stopStrs.find? fun s => InTail p (ids ++ [t]) 1 s with
      | some s => ⟨ids ++ [t], some (.matchedStr s), some (ids ++ [t]).length⟩
      | none => ⟨ids ++ [t], none, none⟩ := by
  rw [accept_eq (by simpa using hvocab), if_neg (not_le.mpr hmax), List.length_singleton]
  rcases hfind : p.stopStrs.find? fun s => InTail p (ids ++ [t]) 1 s with _ | s
  · simp [List.findIdx?_cons, hno]
  · have hdec := List.find?_some hfind
    have hone : 1 ≤ (ids ++ [t]).length := by simp
    obtain ⟨hlow, hhigh, -⟩ := locateStrStop_spec (p := p) Nat.one_pos hone (of_decide_eq_true hdec)
    have hcut : locateStrStop p (ids ++ [t]) 1 s = (ids ++ [t]).length := by omega
    dsimp only
    rw [hcut]

/-- **The tokens before a stop string is complete** do not stop the request. -/
theorem accept_take {stream : List ℤ} {m : ℕ} (hm : m ≤ stream.length)
    (hmax : m < p.maxNewTokens) (hvocab : ∀ t ∈ stream, 0 ≤ t ∧ t < p.vocabSize)
    (hno : ∀ t ∈ stream, matchesToken p t = false)
    (hfirst : ∀ n < m, ¬Completes p stream n) {n : ℕ} (hn : n + 1 < m) :
    ∃ t, stream.take (n + 1) = stream.take n ++ [t] ∧
      accept p ⟨stream.take n, none, none⟩ [t] = ⟨stream.take n ++ [t], none, none⟩ := by
  have hlt : n < stream.length := by omega
  have htake : stream.take (n + 1) = stream.take n ++ [stream[n]] := by
    rw [List.take_concat_get']
  have hlen : (stream.take (n + 1)).length = n + 1 := List.length_take_of_le hlt
  refine ⟨stream[n], htake, ?_⟩
  rw [accept_singleton (by rw [← htake, hlen]; omega) (hvocab _ (List.getElem_mem hlt))
    (hno _ (List.getElem_mem hlt)), ← htake]
  have hnone : (p.stopStrs.find? fun s => InTail p (stream.take (n + 1)) 1 s) = none := by
    refine List.find?_eq_none.mpr fun s hs hin => hfirst (n + 1) hn ⟨s, hs, ?_⟩
    exact (of_decide_eq_true hin : InTail p _ 1 s).trans (tailStr_isInfix p _ 1)
  rw [hnone]

theorem running_take (st : Streaming) (prompt : List ℤ) (toolCalls : Bool) {stream : List ℤ}
    {m : ℕ} (hm : m ≤ stream.length) (hmax : m < p.maxNewTokens)
    (hvocab : ∀ t ∈ stream, 0 ≤ t ∧ t < p.vocabSize)
    (hno : ∀ t ∈ stream, matchesToken p t = false)
    (hfirst : ∀ n < m, ¬Completes p stream n) (n : ℕ) (hn : n < m) :
    ∃ s, Running p st prompt toolCalls (stream.take n) s := by
  induction n with
  | zero => exact ⟨_, running_nil⟩
  | succ n ih =>
    obtain ⟨s, hs⟩ := ih (by omega)
    obtain ⟨t, htake, hacc⟩ := accept_take hm hmax hvocab hno hfirst hn
    rw [htake]
    exact hs.step hacc

/-- A request that has stopped stays as it is. -/
theorem foldl_step_of_finished {d : Decoder} {g : Progress}
    (h : g.req.finishedReason.isSome = true) (ts : List ℤ) :
    ts.foldl (Progress.step p st d prompt) g = g := by
  induction ts with
  | nil => rfl
  | cons t ts ih => rw [List.foldl_cons, Progress.step, if_pos h, ih]

theorem length_updateFinishState (p : Params) (r : Req) (newLen : ℕ) :
    (updateFinishState p r newLen).outputIds.length = r.outputIds.length := by
  rw [updateFinishState]
  split
  · rfl
  split
  · rfl
  dsimp only
  rcases hvocab : checkVocabBoundaryFinish p r (lastTokens newLen r.outputIds) with _ | r'
  · rcases hstr : checkStrBasedFinish p r newLen with _ | r'
    · rcases htok : checkTokenBasedFinish p r (lastTokens newLen r.outputIds) with _ | r'
      · rfl
      · rw [checkTokenBasedFinish] at htok
        split at htok
        · cases htok
        · obtain ⟨i, -, rfl⟩ := Option.map_eq_some_iff.mp htok
          rfl
    · obtain ⟨s, -, rfl⟩ := Option.map_eq_some_iff.mp hstr
      rfl
  · obtain ⟨i, -, rfl⟩ := Option.map_eq_some_iff.mp hvocab
    rw [Option.some_or, Option.getD_some]
    rcases p.stopTokenIds with _ | ⟨t, -⟩ <;> rcases p.eosTokenIds with _ | ⟨t', -⟩ <;>
      simp only [List.length_set]

/-- A request that has not stopped gets longer. -/
theorem length_step {d : Decoder} {g : Progress} (h : g.req.finishedReason = none) (t : ℤ) :
    (g.step p st d prompt t).req.outputIds.length = g.req.outputIds.length + 1 := by
  have hfin : ¬g.req.finishedReason.isSome = true := by simp [h]
  have hacc : (accept p g.req [t]).outputIds.length = g.req.outputIds.length + 1 := by
    rw [accept, if_neg hfin, length_updateFinishState, List.length_append]
    rfl
  rw [Progress.step, if_neg hfin]
  dsimp only
  split
  · exact hacc
  · exact hacc

/-- Output is not taken back. -/
theorem length_le_foldl_step (p : Params) (st : Streaming) (d : Decoder) (prompt : List ℤ)
    (g : Progress) (ts : List ℤ) :
    g.req.outputIds.length ≤
      (ts.foldl (Progress.step p st d prompt) g).req.outputIds.length := by
  induction ts generalizing g with
  | nil => exact le_rfl
  | cons t ts ih =>
    refine le_trans ?_ (ih _)
    rcases hfin : g.req.finishedReason with _ | r
    · rw [length_step hfin]
      exact Nat.le_succ _
    · rw [Progress.step, if_pos (by rw [hfin]; rfl)]

/-- **What was sent does not reach the stop string** exactly when all that was due and goes past it
was kept back. -/
theorem Running.sentOffset_le_iff {stream : List ℤ} {m e : ℕ} {s : DecodeStatus}
    (h : Running p st prompt toolCalls (stream.take (m - 1)) s) (hm : m ≤ stream.length)
    (hrepl : ∀ ids, replacement ∉ p.tokenizer.decode ids)
    (hfirst : ∀ n < m, ¬Completes p stream n) :
    (generate p st (p.tokenizer.decoder toolCalls) prompt
        (stream.take (m - 1))).session.sentOffset ≤ e ↔
      ∀ j, 0 < j → j < m → st.Due j → e < (p.tokenizer.decode (stream.take j)).length →
        st.stream = true ∧ EndsInStop p (stream.take j) := by
  have hout (j : ℕ) (hj : j < m) : shouldOutput p st ⟨stream.take j, none, none⟩ = true ↔
      st.Due j ∧ ¬(st.stream = true ∧ EndsInStop p (stream.take j)) := by
    rw [shouldOutput_iff st fun s hs hin =>
      hfirst j hj ⟨s, hs, hin.trans (tailStr_isInfix p _ 1)⟩, List.length_take_of_le (by omega)]
  rw [h.emits.linked.sentOffset_eq, h.sentText hrepl]
  have hsent := h.sent
  have hallowed := h.allowed
  have hlatest := h.latest
  generalize (generate p st (p.tokenizer.decoder toolCalls) prompt
    (stream.take (m - 1))).session.outputIds = o at hsent hallowed hlatest
  have hlen : (stream.take (m - 1)).length = m - 1 := List.length_take_of_le (by omega)
  have hole := hsent.length_le
  -- the tokens that were sent are the first ones
  have ho : o = stream.take o.length :=
    List.prefix_iff_eq_take.mp (hsent.trans (List.take_prefix _ _))
  constructor
  · intro hle j hpos hj hdue hpast
    by_contra hheld
    have hlt := hlatest j hpos (by omega) (by
      rw [List.take_take, min_eq_left (by omega)]
      exact (hout j hj).mpr ⟨hdue, hheld⟩)
    obtain ⟨rest, hrest⟩ : stream.take j <+: o := by
      rw [ho]
      exact List.take_prefix_take_left hlt
    rw [← hrest, Tokenizer.decode, List.flatMap_append, List.length_append] at hle
    exact absurd hpast (not_lt.mpr ((Nat.le_add_right _ _).trans hle))
  · intro hheld
    by_contra hgt
    rcases Nat.eq_zero_or_pos o.length with hzero | hpos
    · rw [List.length_eq_zero_iff.mp hzero] at hgt
      exact hgt (Nat.zero_le e)
    rcases hallowed with hnil | hallowed
    · rw [hnil] at hpos
      exact absurd hpos (Nat.lt_irrefl 0)
    rw [ho] at hallowed hgt
    obtain ⟨hdue, hfree⟩ := (hout o.length (by omega)).mp hallowed
    exact hfree (hheld _ hpos (by omega) hdue (not_le.mp hgt))

end Run

/-! ### At the stop string -/

section AtStop

variable {p : Params} {st : Streaming} {toolCalls : Bool} {prompt stream : List ℤ} {m e : ℕ}
  (hstops : ∀ s ∈ p.stopStrs, s ≠ []) (hvocab : ∀ t ∈ stream, 0 ≤ t ∧ t < p.vocabSize)
  (hno : ∀ t ∈ stream, matchesToken p t = false) (hm : m ≤ stream.length)
  (hmax : m < p.maxNewTokens) (hfirst : ∀ n < m, ¬Completes p stream n)

include hvocab hno hm hmax hfirst

/-- **Caught in time** means kept back, without replacement characters. -/
theorem caughtInTime_iff (htext : ∀ t, replacement ∉ p.tokenizer.text t) (hpos : 0 < m) :
    CaughtInTime p st (p.tokenizer.decoder toolCalls) prompt stream m e ↔
      InTime p st stream m e := by
  have hrepl : ∀ ids, replacement ∉ p.tokenizer.decode ids := by
    intro ids hmem
    obtain ⟨t, -, ht⟩ := List.mem_flatMap.mp hmem
    exact htext t ht
  obtain ⟨s, hs⟩ := running_take st prompt toolCalls hm hmax hvocab hno hfirst (m - 1) (by omega)
  have hiff := hs.sentOffset_le_iff (e := e) hm hrepl hfirst
  refine ⟨fun h => ⟨h.seen, hiff.mp h.sent⟩, fun h => ⟨h.seen, fun n hn => ?_, hiff.mpr h.held⟩⟩
  rw [List.length_take] at hn
  obtain ⟨s', hs'⟩ := running_take st prompt toolCalls hm hmax hvocab hno hfirst n (by omega)
  obtain ⟨t, htake, hacc⟩ := accept_take hm hmax hvocab hno hfirst (n := n) (by omega)
  rw [List.take_take, List.take_take, min_eq_left (by omega), min_eq_left (by omega), htake]
  exact hs'.sentOffset_le hacc hrepl

/-- A stop string that is in no tail is not seen: the request goes on. -/
theorem not_finished_of_unseen (hpos : 0 < m)
    (hnone : (p.stopStrs.find? fun s => InTail p (stream.take m) 1 s) = none) :
    ¬((generate p st (p.tokenizer.decoder toolCalls) prompt stream).req.finishedReason ≠ none ∧
      (generate p st (p.tokenizer.decoder toolCalls) prompt stream).req.outputIds =
        stream.take m) := by
  obtain ⟨k, rfl⟩ : ∃ k, m = k + 1 := ⟨m - 1, by omega⟩
  have hmem : stream[k] ∈ stream := List.getElem_mem hm
  have htake : stream.take (k + 1) = stream.take k ++ [stream[k]] := by
    rw [List.take_concat_get']
  have hlen : (stream.take (k + 1)).length = k + 1 := List.length_take_of_le hm
  obtain ⟨s, hs⟩ := running_take st prompt toolCalls hm hmax hvocab hno hfirst k
    (Nat.lt_succ_self k)
  have hacc := accept_singleton (by rw [← htake, hlen]; exact hmax) (hvocab _ hmem) (hno _ hmem)
  rw [← htake, hnone] at hacc
  rw [htake] at hacc
  have hreq := (hs.step hacc).choose_spec.req
  rw [← htake] at hreq
  rintro ⟨hfin, hout⟩
  rw [generate_eq_foldl_drop p st (p.tokenizer.decoder toolCalls) prompt stream (k + 1)]
    at hfin hout
  rcases hrest : stream.drop (k + 1) with _ | ⟨t, ts⟩
  · rw [hrest, List.foldl_nil, hreq] at hfin
    exact hfin rfl
  · have hle := length_le_foldl_step p st (p.tokenizer.decoder toolCalls) prompt
      ((generate p st (p.tokenizer.decoder toolCalls) prompt (stream.take (k + 1))).step p st
        (p.tokenizer.decoder toolCalls) prompt t) ts
    rw [length_step (by rw [hreq]), hreq] at hle
    rw [hrest, List.foldl_cons] at hout
    rw [hout] at hle
    exact absurd hle (Nat.not_succ_le_self _)

/-- The stop string that is seen stops the request, and its tokens are sent. -/
theorem generate_of_seen (hpos : 0 < m) {s : List Char}
    (hfind : (p.stopStrs.find? fun s => InTail p (stream.take m) 1 s) = some s) :
    generate p st (p.tokenizer.decoder toolCalls) prompt stream =
      ⟨⟨stream.take m, some (.matchedStr s), some m⟩,
        (generate p st (p.tokenizer.decoder toolCalls) prompt (stream.take (m - 1))).session.send
          (p.tokenizer.decoder toolCalls) prompt ((stream.take m).drop
            (generate p st (p.tokenizer.decoder toolCalls) prompt
              (stream.take (m - 1))).session.outputIds.length) (some (.str s))⟩ := by
  obtain ⟨k, rfl⟩ : ∃ k, m = k + 1 := ⟨m - 1, by omega⟩
  have hmem : stream[k] ∈ stream := List.getElem_mem hm
  have htake : stream.take (k + 1) = stream.take k ++ [stream[k]] := by
    rw [List.take_concat_get']
  have hlen : (stream.take (k + 1)).length = k + 1 := List.length_take_of_le hm
  obtain ⟨s₀, hs₀⟩ := running_take st prompt toolCalls hm hmax hvocab hno hfirst k
    (Nat.lt_succ_self k)
  have hacc := accept_singleton (by rw [← htake, hlen]; exact hmax) (hvocab _ hmem) (hno _ hmem)
  rw [← htake, hlen, hfind] at hacc
  have hthrough : (⟨stream.take (k + 1), some (.matchedStr s), some (k + 1)⟩ :
      Req).outputIdsThroughStop = stream.take (k + 1) := by
    rw [Req.outputIdsThroughStop]
    dsimp only
    rw [List.take_take, min_self]
  have hgen := generate_append_singleton p st (p.tokenizer.decoder toolCalls) prompt
    (stream.take k) stream[k]
  have hout : shouldOutput p st ⟨stream.take (k + 1), some (.matchedStr s), some (k + 1)⟩ =
      true := rfl
  rw [← htake, Progress.step, hs₀.req, hacc, if_neg (by simp)] at hgen
  dsimp only at hgen
  rw [if_pos hout, hthrough] at hgen
  rw [generate_eq_foldl_drop p st (p.tokenizer.decoder toolCalls) prompt stream (k + 1),
    foldl_step_of_finished (by rw [hgen]; rfl), hgen]
  rfl

include hstops in
/-- A request stops at its stop string and has emitted the text before it exactly when the stop
string is caught in time. -/
theorem trimmed_iff_caughtInTime (hpos : 0 < m)
    (he : earliestStop p (p.tokenizer.decode (stream.take m)) = some e) :
    ((generate p st (p.tokenizer.decoder toolCalls) prompt stream).req.finishedReason ≠ none ∧
      (generate p st (p.tokenizer.decoder toolCalls) prompt stream).req.outputIds =
        stream.take m ∧
      (generate p st (p.tokenizer.decoder toolCalls) prompt stream).session.emitted =
        (p.tokenizer.decode (stream.take m)).take e) ↔
    CaughtInTime p st (p.tokenizer.decoder toolCalls) prompt stream m e := by
  rcases hfind : p.stopStrs.find? fun s => InTail p (stream.take m) 1 s with _ | s
  · refine iff_of_false (fun h => ?_) fun h => ?_
    · exact not_finished_of_unseen hvocab hno hm hmax hfirst hpos hfind ⟨h.1, h.2.1⟩
    · obtain ⟨s, hs, -⟩ := h.seen
      rw [hfind] at hs
      cases hs
  obtain ⟨s₀, hs₀⟩ := running_take st prompt toolCalls hm hmax hvocab hno hfirst (m - 1) (by omega)
  have hin : s <:+: p.tokenizer.decode (stream.take m) := by
    have hdec := List.find?_some hfind
    exact (of_decide_eq_true hdec : InTail p _ 1 s).trans (tailStr_isInfix p _ 1)
  have hs : s ∈ p.stopStrs := List.mem_of_find?_eq_some hfind
  obtain ⟨pos, hfound⟩ := exists_findText hin
  have hids := append_drop_of_prefix
    (hs₀.sent.trans (List.take_prefix_take_left (Nat.sub_le m 1)))
  have htrim : trimText (p.tokenizer.decode (stream.take m)) (some (.str s)) false =
      (p.tokenizer.decode (stream.take m)).take pos := by
    rw [trimText, if_neg (hstops s hs), hfound]
    rfl
  have hfinish := hs₀.emits.finish_iff false toolCalls ((stream.take m).drop
    (generate p st (p.tokenizer.decoder toolCalls) prompt
      (stream.take (m - 1))).session.outputIds.length) (m := .str s) (fun t hc => by cases hc)
    (by rw [hids]; exact htrim) (by rw [hids]; exact (findText_spec _ hfound).1)
    (earliestStop_le he hs hfound)
  rw [hids] at hfinish
  rw [generate_of_seen hvocab hno hm hmax hfirst hpos hfind]
  constructor
  · rintro ⟨-, -, hemitted⟩
    obtain ⟨hahead, hsent, rfl⟩ := hfinish.mp hemitted
    exact ⟨⟨s, hfind, hfound⟩, hahead, hsent⟩
  · rintro ⟨⟨s', hs', hfound'⟩, hahead, hsent⟩
    obtain rfl := Option.some.inj (hfind.symm.trans hs')
    obtain rfl : pos = e := Option.some.inj (hfound.symm.trans hfound')
    exact ⟨Option.some_ne_none _, rfl, hfinish.mpr ⟨hahead, hsent, rfl⟩⟩

end AtStop

theorem pos_of_completes {p : Params} {stream : List ℤ} {m : ℕ}
    (hstops : ∀ s ∈ p.stopStrs, s ≠ []) (h : Completes p stream m) : 0 < m := by
  rcases Nat.eq_zero_or_pos m with rfl | hpos
  · obtain ⟨s, hs, hin⟩ := h
    exact absurd (List.infix_nil.mp hin) (hstops s hs)
  · exact hpos

/-- **When a stop string does not reach the client.** For every tokenizer with fixed texts of whole
characters, all stop strings, every way of streaming and every stream without stop tokens whose text
has a stop string for the first time after `m` tokens, fewer than the largest number: the request
finishes there and the text before the earliest stop string is what was emitted, if and only if the
stop string is kept back until then. -/
theorem stop_trimmed_iff (p : Params) (st : Streaming) (toolCalls : Bool) (prompt stream : List ℤ)
    (m e : ℕ) (htext : ∀ t, replacement ∉ p.tokenizer.text t) (hstops : ∀ s ∈ p.stopStrs, s ≠ [])
    (hvocab : ∀ t ∈ stream, 0 ≤ t ∧ t < p.vocabSize)
    (hno : ∀ t ∈ stream, matchesToken p t = false) (hm : m ≤ stream.length)
    (hmax : m < p.maxNewTokens) (hcomplete : Completes p stream m)
    (hfirst : ∀ n < m, ¬Completes p stream n)
    (he : earliestStop p (p.tokenizer.decode (stream.take m)) = some e) :
    ((generate p st (p.tokenizer.decoder toolCalls) prompt stream).req.finishedReason ≠ none ∧
      (generate p st (p.tokenizer.decoder toolCalls) prompt stream).req.outputIds =
        stream.take m ∧
      (generate p st (p.tokenizer.decoder toolCalls) prompt stream).session.emitted =
        (p.tokenizer.decode (stream.take m)).take e) ↔
    InTime p st stream m e := by
  have hpos := pos_of_completes hstops hcomplete
  rw [trimmed_iff_caughtInTime hstops hvocab hno hm hmax hfirst hpos he]
  exact caughtInTime_iff hvocab hno hm hmax hfirst htext hpos

/-- Tokens for the letters `a`, `b` and `c`, and one for all three of them, which is how that text
is encoded. -/
def letters : Tokenizer where
  text t := if t = 1 then ['a'] else if t = 2 then ['b'] else if t = 3 then ['c']
    else if t = 4 then ['a', 'b', 'c'] else ['x']
  encode s := if s = ['a', 'b', 'c'] then [4]
    else s.map fun c => if c = 'a' then 1 else if c = 'b' then 2 else if c = 'c' then 3 else 0
  eosTokenId := some 9
  additionalStopTokenIds := []

/-- A request with such tokens. -/
def spelled (stopStrs : List (List Char)) : Params where
  tokenizer := letters
  maxNewTokens := 10
  stopStrs := stopStrs
  stopTokenIds := []
  ignoreEos := false
  eosTokenIds := [9]
  vocabSize := 10

/-- Every token is streamed. -/
def everyToken : Streaming := ⟨true, none, 1, 50⟩

theorem replacement_notMem_letters (stopStrs : List (List Char)) :
    ∀ t, replacement ∉ (spelled stopStrs).tokenizer.text t := by
  intro t
  simp only [spelled, letters]
  split_ifs <;> decide

/-- The text goes past the beginning of `bc` at the second token, which is kept back. -/
theorem stop_trimmed_of_two_letters :
    (generate (spelled [['b', 'c']]) everyToken (letters.decoder false) [0]
        [1, 2, 3, 1]).req.finishedReason ≠ none ∧
      (generate (spelled [['b', 'c']]) everyToken (letters.decoder false) [0]
        [1, 2, 3, 1]).session.emitted = ['a'] := by
  have hheld : ∀ j, 0 < j → j < 3 → everyToken.Due j →
      1 < ((spelled [['b', 'c']]).tokenizer.decode ([1, 2, 3, 1].take j)).length →
      everyToken.stream = true ∧ EndsInStop (spelled [['b', 'c']]) ([1, 2, 3, 1].take j) := by
    intro j hpos hj _ hpast
    interval_cases j
    · exact absurd hpast (by decide)
    · exact ⟨rfl, ['b', 'c'], by decide, 1, by decide, by decide, by decide⟩
  obtain ⟨hfin, -, hemitted⟩ := (stop_trimmed_iff (spelled [['b', 'c']]) everyToken false [0]
    [1, 2, 3, 1] 3 1 (replacement_notMem_letters _) (by decide) (by decide) (by decide) (by decide)
    (by decide) (by decide) (by decide) (by decide)).mpr ⟨⟨['b', 'c'], by decide, by decide⟩, hheld⟩
  exact ⟨hfin, hemitted⟩

/-- **A stop string reaches the client**: `abc` is one token when it is encoded, so that the tail
is two tokens long, but the model spells it with three. The request does not stop, and at the
third token, when the tail is `bc`, the streamer sends all of it. -/
theorem stop_string_emitted :
    Completes (spelled [['a', 'b', 'c']]) [1, 2, 3] 3 ∧
      (∀ n < 3, ¬Completes (spelled [['a', 'b', 'c']]) [1, 2, 3] n) ∧
      (generate (spelled [['a', 'b', 'c']]) everyToken (letters.decoder false) [0]
        [1, 2, 3]).req.finishedReason = none ∧
      (generate (spelled [['a', 'b', 'c']]) everyToken (letters.decoder false) [0]
        [1, 2, 3]).session.emitted = ['a', 'b', 'c'] := by
  decide

/-! ### Windows that are long enough -/

theorem decode_append (tok : Tokenizer) (as bs : List ℤ) :
    tok.decode (as ++ bs) = tok.decode as ++ tok.decode bs :=
  List.flatMap_append

/-- **The tail ends inside a stop string** when the text does, and the tail reaches back to where
the stop string begins. -/
theorem endsInStop_of_begins {p : Params} {ids : List ℤ} {s : List Char} {e : ℕ}
    (hs : s ∈ p.stopStrs) (hlt : e < (p.tokenizer.decode ids).length)
    (hbegins : (p.tokenizer.decode ids).drop e <+: s)
    (hwindow : (p.tokenizer.decode (ids.take (ids.length - (stopStrMaxLen p + 1)))).length ≤ e) :
    EndsInStop p ids := by
  have hstops : p.stopStrs ≠ [] := List.ne_nil_of_mem hs
  have htail : tailStr p ids 1 = (p.tokenizer.decode ids).drop
      (p.tokenizer.decode (ids.take (ids.length - (stopStrMaxLen p + 1)))).length := by
    have hsub : ids.length - min (stopStrMaxLen p + 1 + (1 - 1)) ids.length =
        ids.length - (stopStrMaxLen p + 1) := by omega
    rw [tailStr, if_neg hstops, lastTokens, stopMatchTailLen, hsub]
    conv_rhs => rw [← List.take_append_drop (ids.length - (stopStrMaxLen p + 1)) ids,
      decode_append]
    rw [List.take_append_drop, List.drop_left]
  have hle := hbegins.length_le
  have hprefix := List.prefix_iff_eq_take.mp hbegins
  refine ⟨s, hs, ((p.tokenizer.decode ids).drop e).length, ?_, hle, ?_⟩
  · rw [List.length_drop]
    omega
  · rw [← hprefix, htail]
    exact List.drop_suffix_drop_left _ hwindow

/-- **A streaming request catches a stop string in time** when no token has a replacement
character and the tail at the token that completes the stop string reaches back to its beginning. -/
theorem caughtInTime_of_window (p : Params) (st : Streaming) (toolCalls : Bool)
    (prompt stream : List ℤ) (m e : ℕ) (hstream : st.stream = true)
    (htext : ∀ t, replacement ∉ p.tokenizer.text t)
    (hvocab : ∀ t ∈ stream, 0 ≤ t ∧ t < p.vocabSize)
    (hno : ∀ t ∈ stream, matchesToken p t = false) (hm : m ≤ stream.length)
    (hmax : m < p.maxNewTokens) (hpos : 0 < m) (hfirst : ∀ n < m, ¬Completes p stream n)
    (hseen : ∃ s, p.stopStrs.find? (fun s => InTail p (stream.take m) 1 s) = some s ∧
      findText s (p.tokenizer.decode (stream.take m)) = some e)
    (hwindow : (p.tokenizer.decode (stream.take (m - (stopStrMaxLen p + 1)))).length ≤ e) :
    CaughtInTime p st (p.tokenizer.decoder toolCalls) prompt stream m e := by
  refine (caughtInTime_iff hvocab hno hm hmax hfirst htext hpos).mpr
    ⟨hseen, fun j _ hj _ hlt => ⟨hstream, ?_⟩⟩
  obtain ⟨s, hfind, hfound⟩ := hseen
  have hs : s ∈ p.stopStrs := List.mem_of_find?_eq_some hfind
  have hjlen : (stream.take j).length = j := List.length_take_of_le (by omega)
  -- the stop string begins in the first `j` tokens and does not end there
  have hsplit : stream.take m = stream.take j ++ (stream.take m).drop j := by
    conv_lhs => rw [← List.take_append_drop j (stream.take m), List.take_take,
      min_eq_left hj.le]
  have hbegins : (p.tokenizer.decode (stream.take j)).drop e <+: s := by
    have hpre := (findText_spec _ hfound).2
    rw [hsplit, decode_append, List.drop_append_of_le_length hlt.le] at hpre
    refine (List.prefix_or_prefix_of_prefix (List.prefix_append _ _) hpre).resolve_right
      fun hc => hfirst j hj ⟨s, hs, ?_⟩
    exact hc.isInfix.trans (List.drop_suffix _ _).isInfix
  refine endsInStop_of_begins hs hlt hbegins (le_trans ?_ hwindow)
  rw [hjlen, List.take_take, min_eq_left (Nat.sub_le _ _)]
  obtain ⟨rest, hrest⟩ : stream.take (j - (stopStrMaxLen p + 1)) <+:
      stream.take (m - (stopStrMaxLen p + 1)) := List.take_prefix_take_left (by omega)
  rw [← hrest, decode_append, List.length_append]
  exact Nat.le_add_right _ _

theorem caughtInTime_of_window_two_letters :
    CaughtInTime (spelled [['b', 'c']]) everyToken (letters.decoder false) [0] [1, 2, 3, 1] 3 1 :=
  caughtInTime_of_window (spelled [['b', 'c']]) everyToken false [0] [1, 2, 3, 1] 3 1 rfl
    (replacement_notMem_letters _) (by decide) (by decide) (by decide) (by decide) (by decide)
    (by decide) ⟨['b', 'c'], by decide, by decide⟩ (by decide)

end Generation

end HtSglang
