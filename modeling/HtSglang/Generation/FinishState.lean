import Mathlib

/-!
# When a request stops

After each forward the scheduler appends the accepted tokens to a request – one, or several
under speculative decoding – and `update_finish_state` looks for a reason to stop: the length, a
stop string in the text of the last tokens, a stop token. Each reason computes where to cut the
output.

With one token per step the cut is always the current length. With several, the reasons are tried
in a fixed order and not by position, so that a window may be cut after the first token that would
have stopped the request (`HtSglang.Generation.StopsAt`), and the text of a longer tail has stop
strings that no single token completes. `HtSglang.Generation.WindowInOrder` says of the tokens of a
window where the stops have to fall, and `HtSglang.Generation.windows_eq_singles_iff` that windows
change nothing exactly when the first one with a stop is in order.

There are no regular expressions, no grammar and no abort here. The text a request carries for
the detokenizer (`decoded_text`) is empty throughout.
-/

namespace HtSglang

namespace Generation

/-! ### The model -/

/-- A tokenizer whose decoding is the concatenation of fixed texts. -/
structure Tokenizer where
  /-- The text of a token. -/
  text : ℤ → List Char
  /-- The tokens of a text. -/
  encode : List Char → List ℤ
  /-- The end of a sequence. -/
  eosTokenId : Option ℤ
  /-- More tokens that stop a request. -/
  additionalStopTokenIds : List ℤ

/-- `decode`. -/
def Tokenizer.decode (tok : Tokenizer) (ids : List ℤ) : List Char := ids.flatMap tok.text

/-- What of a request does not change: its sampling parameters, its tokenizer, the tokens that
stop it and the size of the vocabulary. -/
structure Params where
  tokenizer : Tokenizer
  maxNewTokens : ℕ
  stopStrs : List (List Char)
  stopTokenIds : List ℤ
  ignoreEos : Bool
  /-- The stop tokens of the model. -/
  eosTokenIds : List ℤ
  vocabSize : ℤ

/-- Why a request has stopped. -/
inductive FinishReason where
  /-- `FINISH_LENGTH`. -/
  | length (length : ℕ)
  /-- `FINISH_MATCHED_STR`. -/
  | matchedStr (matched : List Char)
  /-- `FINISH_MATCHED_TOKEN`. -/
  | matchedToken (matched : ℤ)
  deriving DecidableEq

/-- What of a request changes. -/
structure Req where
  outputIds : List ℤ
  /-- Why it has stopped. -/
  finishedReason : Option FinishReason
  /-- How many of the tokens count. -/
  finishedLen : Option ℕ
  deriving DecidableEq

/-- A request without output. -/
def Req.new : Req := ⟨[], none, none⟩

/-- `output_ids_through_stop`. -/
def Req.outputIdsThroughStop (r : Req) : List ℤ :=
  match r.finishedLen with
  | some n => r.outputIds.take n
  | none => r.outputIds

/-- `stop_str_max_len`: the longest encoding of a stop string. -/
def stopStrMaxLen (p : Params) : ℕ :=
  p.stopStrs.foldl (fun m s => max m (p.tokenizer.encode s).length) 0

/-- `_stop_match_tail_len`. -/
def stopMatchTailLen (p : Params) (outputIds : List ℤ) (newAcceptedLen : ℕ) : ℕ :=
  min (stopStrMaxLen p + 1 + (newAcceptedLen - 1)) outputIds.length

/-- `output_ids[-k:]`. -/
def lastTokens (k : ℕ) (ids : List ℤ) : List ℤ := ids.drop (ids.length - k)

/-- `tail_str`. -/
def tailStr (p : Params) (outputIds : List ℤ) (newAcceptedLen : ℕ) : List Char :=
  if p.stopStrs = [] then []
  else p.tokenizer.decode (lastTokens (stopMatchTailLen p outputIds newAcceptedLen) outputIds)

/-- `_locate_str_stop_finished_len`. -/
def locateStrStop (p : Params) (outputIds : List ℤ) (newAcceptedLen : ℕ) (stopStr : List Char) :
    ℕ :=
  let tailLen := stopMatchTailLen p outputIds newAcceptedLen
  let start := outputIds.length - tailLen
  let tokenWindow := outputIds.drop start
  let low := max 1 (tokenWindow.length + 1 - newAcceptedLen)
  match (List.range' low (tokenWindow.length - low)).find? fun tokenCount =>
    stopStr <:+: p.tokenizer.decode (tokenWindow.take tokenCount) with
  | some tokenCount => start + tokenCount
  | none => outputIds.length

/-- `decoded_text` of a request. -/
def decodedText : List Char := []

/-- `_check_str_based_finish`. -/
def checkStrBasedFinish (p : Params) (r : Req) (newAcceptedLen : ℕ) : Option Req :=
  let tail := tailStr p r.outputIds newAcceptedLen
  (p.stopStrs.find? fun s => s <:+: tail ∨ s <:+: decodedText).map fun s =>
    { r with
      finishedReason := some (.matchedStr s)
      finishedLen := if s <:+: tail then some (locateStrStop p r.outputIds newAcceptedLen s)
        else r.finishedLen }

/-- A token stops the request. -/
def matchesToken (p : Params) (t : ℤ) : Bool :=
  t ∈ p.stopTokenIds || t ∈ p.eosTokenIds || p.tokenizer.eosTokenId = some t ||
    t ∈ p.tokenizer.additionalStopTokenIds

/-- `_check_token_based_finish`. -/
def checkTokenBasedFinish (p : Params) (r : Req) (newAcceptedTokens : List ℤ) : Option Req :=
  if p.ignoreEos then none
  else
    (newAcceptedTokens.findIdx? (matchesToken p)).map fun i =>
      { r with
        finishedReason := some (.matchedToken (newAcceptedTokens.getD i 0))
        finishedLen := some (r.outputIds.length - newAcceptedTokens.length + i + 1) }

/-- `_check_vocab_boundary_finish`. -/
def checkVocabBoundaryFinish (p : Params) (r : Req) (newAcceptedTokens : List ℤ) : Option Req :=
  (newAcceptedTokens.findIdx? fun t => p.vocabSize ≤ t ∨ t < 0).map fun i =>
    let offset := r.outputIds.length - newAcceptedTokens.length + i
    let ids := match p.stopTokenIds with
      | t :: _ => r.outputIds.set offset t
      | [] => r.outputIds
    let ids := match p.eosTokenIds with
      | t :: _ => ids.set offset t
      | [] => ids
    ⟨ids, some (.matchedStr "NaN happened".toList), some (offset + 1)⟩

/-- `update_finish_state`. -/
def updateFinishState (p : Params) (r : Req) (newAcceptedLen : ℕ) : Req :=
  if r.finishedReason.isSome then r
  else if p.maxNewTokens ≤ r.outputIds.length then
    { r with
      finishedReason := some (.length p.maxNewTokens)
      finishedLen := some p.maxNewTokens }
  else
    let newAcceptedTokens := lastTokens newAcceptedLen r.outputIds
    ((checkVocabBoundaryFinish p r newAcceptedTokens).or
      ((checkStrBasedFinish p r newAcceptedLen).or
        (checkTokenBasedFinish p r newAcceptedTokens))).getD r

/-- The accept loop for one request: a window of tokens, if the request has not stopped. -/
def accept (p : Params) (r : Req) (window : List ℤ) : Req :=
  if r.finishedReason.isSome then r
  else updateFinishState p { r with outputIds := r.outputIds ++ window } window.length

/-- A request after a list of windows. -/
def feed (p : Params) (windows : List (List ℤ)) : Req := windows.foldl (accept p) .new

/-! ### What the checks find -/

theorem decode_infix {tok : Tokenizer} {ids ids' : List ℤ} (h : ids <:+: ids') :
    tok.decode ids <:+: tok.decode ids' := by
  obtain ⟨l, r, rfl⟩ := h
  rw [Tokenizer.decode, Tokenizer.decode, List.flatMap_append, List.flatMap_append]
  exact ⟨_, _, rfl⟩

/-- A stop string is found in the tail. -/
def InTail (p : Params) (ids : List ℤ) (newLen : ℕ) (s : List Char) : Prop :=
  s <:+: tailStr p ids newLen

instance (p : Params) (ids : List ℤ) (newLen : ℕ) (s : List Char) :
    Decidable (InTail p ids newLen s) :=
  inferInstanceAs (Decidable (_ <:+: _))

/-- The stop string is in the part of the tail that ends with the `n`-th token. -/
def CompleteBy (p : Params) (ids : List ℤ) (newLen : ℕ) (s : List Char) (n : ℕ) : Prop :=
  s <:+: p.tokenizer.decode ((ids.take n).drop (ids.length - stopMatchTailLen p ids newLen))

/-- A stop string in the tail is complete by the last token. -/
theorem InTail.completeBy {p : Params} {ids : List ℤ} {newLen : ℕ} {s : List Char}
    (h : InTail p ids newLen s) : CompleteBy p ids newLen s ids.length := by
  rw [InTail, tailStr] at h
  rw [CompleteBy, List.take_length]
  split at h
  · rw [List.infix_nil.mp h]
    exact List.nil_infix
  · exact h

/-- **Where a stop string is cut**: at the first of the new tokens by which it is complete. -/
theorem locateStrStop_spec {p : Params} {ids : List ℤ} {newLen : ℕ} (hpos : 0 < newLen)
    (hle : newLen ≤ ids.length) {s : List Char} (hin : InTail p ids newLen s) :
    ids.length - newLen < locateStrStop p ids newLen s ∧
      locateStrStop p ids newLen s ≤ ids.length ∧
      CompleteBy p ids newLen s (locateStrStop p ids newLen s) ∧
      ∀ n, ids.length - newLen < n → n < locateStrStop p ids newLen s →
        ¬CompleteBy p ids newLen s n := by
  have hcomplete := hin.completeBy
  have htail : newLen ≤ stopMatchTailLen p ids newLen ∧
      stopMatchTailLen p ids newLen ≤ ids.length := by
    rw [stopMatchTailLen]
    omega
  have hby (n : ℕ) (hn : ids.length - stopMatchTailLen p ids newLen ≤ n) :
      CompleteBy p ids newLen s n ↔ s <:+: p.tokenizer.decode
        ((ids.drop (ids.length - stopMatchTailLen p ids newLen)).take
          (n - (ids.length - stopMatchTailLen p ids newLen))) := by
    rw [CompleteBy, List.drop_take]
  rw [locateStrStop]
  generalize stopMatchTailLen p ids newLen = k at htail hby
  simp only [List.length_drop, Nat.sub_sub_self htail.2]
  have hlow : max 1 (k + 1 - newLen) = k + 1 - newLen := by omega
  rw [hlow]
  split
  · next tokenCount hfind =>
    obtain ⟨hfound, hmem, hfirst⟩ := List.find?_range'_eq_some.mp hfind
    rw [List.mem_range'_1] at hmem
    refine ⟨by omega, by omega, ?_, fun n hn hlt hc => ?_⟩
    · rw [hby _ (by omega), Nat.add_sub_cancel_left]
      exact of_decide_eq_true hfound
    · have hno := hfirst (n - (ids.length - k)) (by omega) (by omega)
      rw [hby n (by omega)] at hc
      simp [hc] at hno
  · next hnone =>
    refine ⟨by omega, le_rfl, hcomplete, fun n hn hlt hc => ?_⟩
    rw [hby n (by omega)] at hc
    exact List.find?_eq_none.mp hnone (n - (ids.length - k))
      (List.mem_range'_1.mpr ⟨by omega, by omega⟩) (decide_eq_true hc)

theorem lastTokens_append (before window : List ℤ) :
    lastTokens window.length (before ++ window) = window := by
  rw [lastTokens, List.length_append, Nat.add_sub_cancel, List.drop_left]

/-- **The checks by string**, without the empty `decoded_text`. -/
theorem checkStrBasedFinish_eq (p : Params) (ids : List ℤ) (newLen : ℕ) :
    checkStrBasedFinish p ⟨ids, none, none⟩ newLen =
      (p.stopStrs.find? fun s => InTail p ids newLen s).map fun s =>
        ⟨ids, some (.matchedStr s), some (locateStrStop p ids newLen s)⟩ := by
  have hiff (s : List Char) : (s <:+: tailStr p ids newLen ∨ s <:+: decodedText) ↔
      InTail p ids newLen s := by
    refine ⟨fun h => h.elim id fun hnil => ?_, Or.inl⟩
    rw [decodedText, List.infix_nil] at hnil
    rw [hnil]
    exact List.nil_infix
  rw [checkStrBasedFinish]
  simp only [hiff]
  rcases hfind : p.stopStrs.find? fun s => InTail p ids newLen s with _ | s
  · rfl
  · have hdec := List.find?_some hfind
    have hin : s <:+: tailStr p ids newLen := of_decide_eq_true hdec
    rw [Option.map_some, Option.map_some, if_pos hin]

/-- Tokens of the vocabulary pass. -/
theorem checkVocabBoundaryFinish_eq_none {p : Params} {r : Req} {ids : List ℤ}
    (h : ∀ t ∈ ids, 0 ≤ t ∧ t < p.vocabSize) : checkVocabBoundaryFinish p r ids = none := by
  rw [checkVocabBoundaryFinish, Option.map_eq_none_iff, List.findIdx?_eq_none_iff]
  intro t ht
  obtain ⟨hlow, hhigh⟩ := h t ht
  exact decide_eq_false fun hc => by omega

/-- **The state after a window**, by the reason that applies first. -/
theorem updateFinishState_eq {p : Params} {ids : List ℤ} {newLen : ℕ}
    (hvocab : ∀ t ∈ lastTokens newLen ids, 0 ≤ t ∧ t < p.vocabSize) :
    updateFinishState p ⟨ids, none, none⟩ newLen =
      if p.maxNewTokens ≤ ids.length then
        ⟨ids, some (.length p.maxNewTokens), some p.maxNewTokens⟩
      else ((checkStrBasedFinish p ⟨ids, none, none⟩ newLen).or
        (checkTokenBasedFinish p ⟨ids, none, none⟩ (lastTokens newLen ids))).getD
          ⟨ids, none, none⟩ := by
  rw [updateFinishState, if_neg (by simp)]
  split
  · rfl
  · dsimp only
    rw [checkVocabBoundaryFinish_eq_none hvocab, Option.none_or]

/-- **One window**, by the reason that applies first. -/
theorem accept_eq {p : Params} {before window : List ℤ}
    (hvocab : ∀ t ∈ window, 0 ≤ t ∧ t < p.vocabSize) :
    accept p ⟨before, none, none⟩ window =
      if p.maxNewTokens ≤ (before ++ window).length then
        ⟨before ++ window, some (.length p.maxNewTokens), some p.maxNewTokens⟩
      else match p.stopStrs.find? fun s => InTail p (before ++ window) window.length s with
        | some s => ⟨before ++ window, some (.matchedStr s),
            some (locateStrStop p (before ++ window) window.length s)⟩
        | none => match if p.ignoreEos then none else window.findIdx? (matchesToken p) with
          | some i => ⟨before ++ window, some (.matchedToken (window.getD i 0)),
              some (before.length + i + 1)⟩
          | none => ⟨before ++ window, none, none⟩ := by
  have hlast := lastTokens_append before window
  rw [accept, if_neg (by simp), updateFinishState_eq (by rwa [hlast])]
  split
  · rfl
  rw [checkStrBasedFinish_eq, hlast, checkTokenBasedFinish]
  rcases p.stopStrs.find? fun s => InTail p (before ++ window) window.length s with _ | s
  · rw [Option.map_none, Option.none_or]
    split
    · rfl
    rcases window.findIdx? (matchesToken p) with _ | i
    · rfl
    · rw [Option.map_some, Option.getD_some, List.length_append, Nat.add_sub_cancel]
  · rfl

/-! ### Where the stops fall -/

/-- **The `n`-th token of a stream stops the request**, fed one token at a time: it is the last that
is allowed, completes a stop string in the text of the last tokens, or is a stop token. -/
def StopsAt (p : Params) (stream : List ℤ) (n : ℕ) : Prop :=
  p.maxNewTokens ≤ n ∨ (∃ s ∈ p.stopStrs, InTail p (stream.take n) 1 s) ∨
    (p.ignoreEos = false ∧ ∃ t, stream[n - 1]? = some t ∧ matchesToken p t = true)

/-- The place `c` is the first after `low` that stops the request, or the end of the stream. -/
def FirstStop (p : Params) (stream : List ℤ) (low c : ℕ) : Prop :=
  (∀ n, low < n → n < c → ¬StopsAt p stream n) ∧ (StopsAt p stream c ∨ c = stream.length)

/-- A window without a stop: it does not reach the largest number of tokens, and there is no stop
string in its tail and no stop token in it. -/
def Quiet (p : Params) (before window : List ℤ) : Prop :=
  (before ++ window).length < p.maxNewTokens ∧
    (∀ s ∈ p.stopStrs, ¬InTail p (before ++ window) window.length s) ∧
    (p.ignoreEos = false → ∀ t ∈ window, matchesToken p t = false)

/-- **A window in order.** If it reaches the largest number of tokens, nothing in it stops the
request before. Otherwise, if there are stop strings in its tail, the first of the list is completed
by the first token of the window that stops the request. -/
def WindowInOrder (p : Params) (stream before window : List ℤ) : Prop :=
  (p.maxNewTokens ≤ (before ++ window).length →
    ∀ n, before.length < n → n < p.maxNewTokens → ¬StopsAt p stream n) ∧
  ((before ++ window).length < p.maxNewTokens → ∀ s,
    (p.stopStrs.find? fun s => InTail p (before ++ window) window.length s) = some s →
    ∀ c, before.length < c → c ≤ (before ++ window).length →
      CompleteBy p (before ++ window) window.length s c →
      (∀ n, before.length < n → n < c → ¬CompleteBy p (before ++ window) window.length s n) →
      FirstStop p stream before.length c)

/-- The first window with a stop is in order. -/
def CutInOrder (p : Params) (stream : List ℤ) : (before : List ℤ) → List (List ℤ) → Prop
  | _, [] => True
  | before, window :: windows => WindowInOrder p stream before window ∧
    (Quiet p before window → CutInOrder p stream (before ++ window) windows)

section Window

variable {p : Params} {before window more : List ℤ}

theorem find?_of_quiet (h : Quiet p before window) :
    (p.stopStrs.find? fun s => InTail p (before ++ window) window.length s) = none :=
  List.find?_eq_none.mpr fun s hs hin => h.2.1 s hs (of_decide_eq_true hin)

theorem Quiet.windowInOrder (h : Quiet p before window) (stream : List ℤ) :
    WindowInOrder p stream before window := by
  refine ⟨fun hmax => absurd h.1 (not_lt.mpr hmax), fun _ s hs => ?_⟩
  rw [find?_of_quiet h] at hs
  cases hs

/-- **The tail after one token is part of the tail of the window** the token is in. -/
theorem InTail.of_prefix {n : ℕ} {s : List Char} (h : InTail p ((before ++ window).take n) 1 s)
    (hlow : before.length < n) (hhigh : n ≤ (before ++ window).length) :
    InTail p (before ++ window) window.length s := by
  refine h.trans ?_
  rw [tailStr, tailStr]
  split
  · exact List.infix_rfl
  refine decode_infix ?_
  have hlen : ((before ++ window).take n).length = n := List.length_take_of_le hhigh
  rw [lastTokens, lastTokens, stopMatchTailLen, stopMatchTailLen, hlen, List.drop_take]
  rw [List.length_append] at hhigh ⊢
  have hle : before.length + window.length -
      min (stopStrMaxLen p + 1 + (window.length - 1)) (before.length + window.length) ≤
      n - min (stopStrMaxLen p + 1 + (1 - 1)) n := by omega
  exact (List.take_prefix _ _).isInfix.trans (List.drop_suffix_drop_left _ hle).isInfix

theorem getElem?_window {n : ℕ} (hlow : before.length < n)
    (hhigh : n ≤ (before ++ window).length) :
    (before ++ window ++ more)[n - 1]? = window[n - 1 - before.length]? := by
  rw [List.getElem?_append_left (by omega), List.getElem?_append_right (by omega)]

/-- **Without a stop string in the tail** of a window only stop tokens stop the request in it. -/
theorem stopsAt_iff (hmax : (before ++ window).length < p.maxNewTokens)
    (hstr : ∀ s ∈ p.stopStrs, ¬InTail p (before ++ window) window.length s) {n : ℕ}
    (hlow : before.length < n) (hhigh : n ≤ (before ++ window).length) :
    StopsAt p (before ++ window ++ more) n ↔ p.ignoreEos = false ∧
      ∃ t, window[n - 1 - before.length]? = some t ∧ matchesToken p t = true := by
  rw [StopsAt, or_iff_right (by omega), getElem?_window hlow hhigh, or_iff_right]
  rintro ⟨s, hs, hin⟩
  rw [List.take_append_of_le_length hhigh] at hin
  exact hstr s hs (hin.of_prefix hlow hhigh)

theorem Quiet.not_stopsAt (h : Quiet p before window) {n : ℕ} (hlow : before.length < n)
    (hhigh : n ≤ (before ++ window).length) : ¬StopsAt p (before ++ window ++ more) n := by
  rw [stopsAt_iff h.1 h.2.1 hlow hhigh]
  rintro ⟨hign, t, ht, hmatch⟩
  rw [h.2.2 hign t (List.mem_of_getElem? ht)] at hmatch
  cases hmatch

/-- A window of one token that has a stop in it is in order. -/
theorem windowInOrder_singleton (t : ℤ) : WindowInOrder p (before ++ [t] ++ more) before [t] := by
  have hlen : (before ++ [t]).length = before.length + 1 := by simp
  refine ⟨fun hmax n hlow hhigh => by omega, fun _ s hs c hlow hhigh _ _ => ?_⟩
  obtain rfl : c = (before ++ [t]).length := by omega
  refine ⟨fun n hn hlt => by omega, .inl (.inr (.inl ⟨s, List.mem_of_find?_eq_some hs, ?_⟩))⟩
  rw [List.take_left]
  have hin := List.find?_some hs
  exact of_decide_eq_true hin

/-- Without a stop string in the tail the first stop token of the window is the first stop. -/
theorem firstStop_of_findIdx (hmax : (before ++ window).length < p.maxNewTokens)
    (hstr : ∀ s ∈ p.stopStrs, ¬InTail p (before ++ window) window.length s)
    (hign : p.ignoreEos = false) {i : ℕ} (hidx : window.findIdx? (matchesToken p) = some i) :
    FirstStop p (before ++ window ++ more) before.length (before.length + i + 1) := by
  have hlen : (before ++ window).length = before.length + window.length := List.length_append
  obtain ⟨hi, hmatch, hfirst⟩ := List.findIdx?_eq_some_iff_getElem.mp hidx
  constructor
  · intro n hn hnc hstop
    obtain ⟨-, t, ht, hm⟩ := (stopsAt_iff hmax hstr hn (by omega)).mp hstop
    obtain ⟨hlt, rfl⟩ := List.getElem?_eq_some_iff.mp ht
    exact hfirst _ (by omega) hm
  · refine .inl ((stopsAt_iff hmax hstr (by omega) (by omega)).mpr ⟨hign, window[i], ?_, hmatch⟩)
    rw [show before.length + i + 1 - 1 - before.length = i by omega, List.getElem?_eq_getElem hi]

/-- **One window.** The request goes on when there is no stop in it. Otherwise it is cut in the
window, and at the first place that stops it exactly when the window is in order. -/
theorem accept_cases (hne : window ≠ []) (hlt : before.length < p.maxNewTokens)
    (hvocab : ∀ t ∈ window, 0 ≤ t ∧ t < p.vocabSize) :
    (Quiet p before window ∧
      accept p ⟨before, none, none⟩ window = ⟨before ++ window, none, none⟩) ∨
    ¬Quiet p before window ∧ ∃ r c,
      accept p ⟨before, none, none⟩ window = ⟨before ++ window, some r, some c⟩ ∧
      before.length < c ∧ c ≤ (before ++ window).length ∧
      ∀ more, WindowInOrder p (before ++ window ++ more) before window ↔
        FirstStop p (before ++ window ++ more) before.length c := by
  have hlen : (before ++ window).length = before.length + window.length := List.length_append
  have hpos : 0 < window.length := List.length_pos_iff.mpr hne
  rw [accept_eq hvocab]
  by_cases hmax : p.maxNewTokens ≤ (before ++ window).length
  · -- the length
    refine .inr ⟨fun h => absurd h.1 (not_lt.mpr hmax), _, _, if_pos hmax, hlt, hmax,
      fun more => ?_⟩
    rw [WindowInOrder, FirstStop, and_iff_left fun h => absurd h (not_lt.mpr hmax),
      and_iff_left (.inl (.inl le_rfl))]
    exact ⟨fun h => h hmax, fun h _ => h⟩
  have hmax' := not_le.mp hmax
  rw [if_neg hmax]
  rcases hfind : p.stopStrs.find? fun s => InTail p (before ++ window) window.length s with _ | s
  · have hstr (s : List Char) (hs : s ∈ p.stopStrs) :
        ¬InTail p (before ++ window) window.length s := fun hin =>
      List.find?_eq_none.mp hfind s hs (decide_eq_true hin)
    dsimp only
    rcases htok : if p.ignoreEos then none else window.findIdx? (matchesToken p) with _ | i
    · refine .inl ⟨⟨hmax', hstr, fun hign t ht => ?_⟩, rfl⟩
      rw [hign, if_neg Bool.false_ne_true, List.findIdx?_eq_none_iff] at htok
      exact htok t ht
    · -- a stop token
      obtain ⟨hign, hidx⟩ : p.ignoreEos = false ∧ window.findIdx? (matchesToken p) = some i := by
        cases hign : p.ignoreEos <;> simp_all
      obtain ⟨hi, hmatch, -⟩ := List.findIdx?_eq_some_iff_getElem.mp hidx
      refine .inr ⟨fun h => ?_, _, _, rfl, by omega, by omega, fun more =>
        iff_of_true ?_ (firstStop_of_findIdx hmax' hstr hign hidx)⟩
      · rw [h.2.2 hign _ (List.getElem_mem hi)] at hmatch
        cases hmatch
      · exact ⟨fun h => absurd h hmax, fun _ s hs => by rw [hfind] at hs; cases hs⟩
  · -- a stop string
    have hdec := List.find?_some hfind
    have hin : InTail p (before ++ window) window.length s := of_decide_eq_true hdec
    obtain ⟨hlow, hhigh, hby, hfirst⟩ := locateStrStop_spec hpos (by omega) hin
    rw [show (before ++ window).length - window.length = before.length by omega] at hlow hfirst
    refine .inr ⟨fun h => h.2.1 s (List.mem_of_find?_eq_some hfind) hin, _, _, rfl, hlow, hhigh,
      fun more => ⟨fun h => h.2 hmax' s hfind _ hlow hhigh hby hfirst,
        fun h => ⟨fun hc => absurd hc hmax, fun _ s' hs' c hc _ hcby hcfirst => ?_⟩⟩⟩
    obtain rfl := Option.some.inj (hfind.symm.trans hs')
    rcases lt_trichotomy c (locateStrStop p (before ++ window) window.length s) with hl | rfl | hg
    · exact absurd hcby (hfirst c hc hl)
    · exact h
    · exact absurd hby (hcfirst _ hlow hg)

end Window

/-! ### Windows against single tokens -/

/-- A request that has stopped stays as it is. -/
theorem foldl_accept_of_finished {p : Params} {r : Req} (h : r.finishedReason.isSome = true)
    (windows : List (List ℤ)) : windows.foldl (accept p) r = r := by
  induction windows with
  | nil => rfl
  | cons w windows ih => rw [List.foldl_cons, accept, if_pos h, ih]

/-- **Where a list of windows is cut**: at the first place that stops the request exactly when the
windows are in order. -/
theorem exists_cut {p : Params} {stream : List ℤ} (windows : List (List ℤ)) (before : List ℤ)
    (hstream : stream = before ++ windows.flatten) (hlt : before.length < p.maxNewTokens)
    (hne : ∀ w ∈ windows, w ≠ []) (hvocab : ∀ t ∈ stream, 0 ≤ t ∧ t < p.vocabSize) :
    ∃ c, (windows.foldl (accept p) ⟨before, none, none⟩).outputIdsThroughStop = stream.take c ∧
      c ≤ stream.length ∧ (before.length < c ∨ c = stream.length) ∧
      (CutInOrder p stream before windows ↔ FirstStop p stream before.length c) := by
  induction windows generalizing before with
  | nil =>
    rw [List.flatten_nil, List.append_nil] at hstream
    subst hstream
    refine ⟨stream.length, (List.take_length (l := stream)).symm, le_rfl, .inr rfl,
      iff_of_true trivial ⟨fun n hn hlt => absurd hn (not_lt.mpr hlt.le), .inr rfl⟩⟩
  | cons w windows ih =>
    obtain ⟨hw, hrest⟩ := List.forall_mem_cons.mp hne
    rw [List.flatten_cons, ← List.append_assoc] at hstream
    have hwvocab : ∀ t ∈ w, 0 ≤ t ∧ t < p.vocabSize := fun t ht =>
      hvocab t (by rw [hstream]; simp [ht])
    rw [List.foldl_cons, CutInOrder]
    rcases accept_cases hw hlt hwvocab with ⟨hquiet, hacc⟩ | ⟨hloud, r, c, hacc, hlow, hhigh, hiff⟩
    · obtain ⟨c, hout, hle, hafter, hcut⟩ := ih (before ++ w) hstream hquiet.1 hrest
      have hlen : (before ++ w).length ≤ stream.length := by rw [hstream]; simp
      have hle' : before.length ≤ (before ++ w).length := by simp
      refine ⟨c, by rw [hacc, hout], hle, by omega, ?_⟩
      rw [and_iff_right (hquiet.windowInOrder stream), forall_prop_of_true hquiet, hcut]
      refine and_congr_left fun _ => ⟨fun h n hn hnc => ?_, fun h n hn => h n (by omega)⟩
      rcases le_or_gt n (before ++ w).length with hin | hout
      · rw [hstream]
        exact hquiet.not_stopsAt hn hin
      · exact h n hout hnc
    · have hle : c ≤ stream.length := by rw [hstream, List.length_append]; omega
      refine ⟨c, ?_, hle, .inl hlow, ?_⟩
      · rw [hacc, foldl_accept_of_finished rfl, hstream, List.take_append_of_le_length hhigh]
        rfl
      · rw [hstream, ← hiff, and_iff_left fun h => absurd h hloud]

/-- Single tokens are in order. -/
theorem cutInOrder_singles (p : Params) (ts before : List ℤ) :
    CutInOrder p (before ++ ts) before (ts.map fun t => [t]) := by
  induction ts generalizing before with
  | nil => trivial
  | cons t ts ih =>
    rw [List.append_cons]
    exact ⟨windowInOrder_singleton t, fun _ => ih (before ++ [t])⟩

/-- There is one first place that stops a request. -/
theorem FirstStop.le {p : Params} {stream : List ℤ} {a b : ℕ} (ha : FirstStop p stream 0 a)
    (hb : FirstStop p stream 0 b) (hpos : 0 < a ∨ a = stream.length) (hle : b ≤ stream.length) :
    b ≤ a := by
  by_contra hlt
  rcases ha.2 with hstop | hend
  · exact hb.1 a (by omega) (not_le.mp hlt) hstop
  · omega

/-- **When windows do not change where a request stops.** For every stream of tokens of the
vocabulary and every way to cut it into windows, the windows report the same tokens as one
token at a time if and only if the first window with a stop is in order. -/
theorem windows_eq_singles_iff (p : Params) (windows : List (List ℤ))
    (hmax : 1 ≤ p.maxNewTokens) (hne : ∀ w ∈ windows, w ≠ [])
    (hvocab : ∀ t ∈ windows.flatten, 0 ≤ t ∧ t < p.vocabSize) :
    (feed p windows).outputIdsThroughStop =
        (feed p (windows.flatten.map fun t => [t])).outputIdsThroughStop ↔
      CutInOrder p windows.flatten [] windows := by
  have hflat : (windows.flatten.map fun t => [t]).flatten = windows.flatten := by
    rw [← List.flatMap_def, List.flatMap_singleton']
  have hsingle : ∀ w ∈ windows.flatten.map fun t => [t], w ≠ [] := by
    intro w hw
    obtain ⟨t, -, rfl⟩ := List.mem_map.mp hw
    exact List.cons_ne_nil t []
  obtain ⟨c, hout, hle, hpos, hcut⟩ :=
    exists_cut windows [] (List.nil_append _).symm hmax hne hvocab
  obtain ⟨m, hsingles, hmle, hmpos, hmcut⟩ := exists_cut (windows.flatten.map fun t => [t]) []
    hflat.symm hmax hsingle hvocab
  have hm := hmcut.mp (cutInOrder_singles p windows.flatten [])
  rw [feed, Req.new, hout, feed, Req.new, hsingles, hcut]
  constructor
  · intro heq
    have hlen := congrArg List.length heq
    rw [List.length_take_of_le hle, List.length_take_of_le hmle] at hlen
    exact hlen ▸ hm
  · intro hc
    rw [le_antisymm (hm.le hc hmpos hle) (hc.le hm hpos hmle)]

/-- A request for two tokens that the token 2 stops. -/
def twoTokens : Params where
  tokenizer := ⟨fun _ => ['a'], fun s => s.map fun _ => 1, some 2, []⟩
  maxNewTokens := 2
  stopStrs := []
  stopTokenIds := []
  ignoreEos := false
  eosTokenIds := [2]
  vocabSize := 10

/-- A window whose only stop is its last token reports what single tokens do. -/
theorem windows_eq_singles_of_stop_at_end :
    (feed twoTokens [[1, 2]]).outputIdsThroughStop =
      (feed twoTokens [[1], [2]]).outputIdsThroughStop := by
  refine (windows_eq_singles_iff twoTokens [[1, 2]] (by decide) (by decide) (by decide)).mpr
    ⟨⟨fun _ n hlow hhigh hstop => ?_, fun hlt => absurd hlt (by decide)⟩, fun _ => trivial⟩
  obtain rfl : n = 1 := by
    have : n < 2 := hhigh
    have : 0 < n := hlow
    omega
  rcases hstop with hmax | ⟨s, hs, -⟩ | ⟨-, t, ht, hmatch⟩
  · exact absurd hmax (by decide)
  · cases hs
  · cases ht
    exact absurd hmatch (by decide)

/-- **The length is checked before the stop tokens**: a window that reaches the largest length
is cut there, although its first token would have stopped the request. -/
theorem windows_ne_singles :
    (feed twoTokens [[2, 1]]).outputIdsThroughStop = [2, 1] ∧
      (feed twoTokens [[2], [1]]).outputIdsThroughStop = [2] := by
  decide

end Generation

end HtSglang
