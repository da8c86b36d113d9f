import HtSglang.Library.CommonPrefix

/-!
# Keys of the radix cache

`RadixKey` of `mem_cache/radix_cache.py`: a view of an array of token ids, possibly cut
at a limit, under an optional extra key. Its logical units are its tokens or, in the bigram
view, its pairs of neighbouring tokens (`HtSglang.Radix.RadixKey.units`); a slice of a
bigram view keeps one token more than it has units, so that the pairs at its ends survive.

What the cache does with a key – cut it at page boundaries, compare it with another one,
file it under its first page – is determined by the extra key and the units:
`HtSglang.Radix.RadixKey.units_slice`, `HtSglang.Radix.RadixKey.matchWith_eq`,
`HtSglang.Radix.RadixKey.childKey_eq`. The comparison works on the token arrays, not on the
units, disregards the limits and repairs the result afterwards.
-/

namespace HtSglang

namespace Radix

/-- A logical unit of a key. -/
inductive LogicalUnit
  /-- A token, in the plain view. -/
  | token (t : ℤ)
  /-- A pair of neighbouring tokens, in the bigram view. -/
  | bigram (t u : ℤ)
deriving DecidableEq, Repr

/-- What the dictionary of a node's children is keyed by: the first page of a key,
in the name space of its extra key. -/
inductive ChildKey
  /-- No extra key. -/
  | plain (page : List LogicalUnit)
  /-- The pair of the extra key and the page. -/
  | named (extraKey : String) (page : List LogicalUnit)
deriving DecidableEq, Repr

/-- What the cache can raise. -/
inductive RadixError
  /-- `ValueError`: two keys that are compared have different extra keys. -/
  | extraKeyMismatch (self other : Option String)
  /-- `IndexError`: a key shorter than a page is asked for its child key. -/
  | indexOutOfRange
  /-- `AttributeError`: the parent of a node without one is used. -/
  | noParent
  /-- `AssertionError`: "parent does not have child key". -/
  | notAChild
  /-- `AssertionError`: "This request holds the node from another tree". -/
  | nodeFromAnotherTree
  /-- A loop was cut off. -/
  | unfinished
deriving DecidableEq, Repr

/-- `RadixKey`. -/
structure RadixKey where
  /-- The tokens, in both views. -/
  tokenIds : List ℤ
  /-- The name space. -/
  extraKey : Option String
  /-- The bigram view. -/
  isBigram : Bool
  /-- A cap on the tokens. -/
  limit : Option ℕ
deriving DecidableEq, Repr

/-- The pairs of neighbouring tokens. -/
def bigrams : List ℤ → List LogicalUnit
  | t :: u :: ts => .bigram t u :: bigrams (u :: ts)
  | _ => []

namespace RadixKey

/-! ### The operations -/

/-- `_raw_len`. -/
def rawLen (k : RadixKey) : ℕ :=
  match k.limit with
  | some l => if l < k.tokenIds.length then l else k.tokenIds.length
  | none => k.tokenIds.length

/-- `__len__`: the number of logical units. -/
def len (k : RadixKey) : ℕ := if k.isBigram then k.rawLen - 1 else k.rawLen

/-- `__iter__`: the logical units. -/
def units (k : RadixKey) : List LogicalUnit :=
  let raw := k.tokenIds.take k.rawLen
  if k.isBigram then bigrams raw else raw.map .token

/-- `__getitem__` on a slice: the units from `start` up to `stop`. The slice has no limit. -/
def slice (k : RadixKey) (start stop : ℕ) : RadixKey :=
  let start := min start k.len
  let stop := min stop k.len
  if k.isBigram then
    -- one token more than units, and no dangling token when there are none
    { tokenIds := if start < stop then window k.tokenIds start (stop + 1) else []
      extraKey := k.extraKey, isBigram := true, limit := none }
  else
    { tokenIds := window k.tokenIds start stop
      extraKey := k.extraKey, isBigram := false, limit := none }

/-- `page_aligned`. With pages of one unit it is the key itself, limit included. -/
def pageAligned (k : RadixKey) (pageSize : ℕ) : RadixKey :=
  if pageSize = 1 then k else k.slice 0 (k.len / pageSize * pageSize)

/-- `maybe_to_bigram_view`, for the key. -/
def toBigramView (k : RadixKey) (isEagle : Bool) : RadixKey :=
  if isEagle ∧ ¬k.isBigram then { k with isBigram := true } else k

/-- `maybe_to_bigram_view`, for the value that goes with the key: when the view changes it
is cut to the number of bigrams. -/
def bigramValue (k : RadixKey) (isEagle : Bool) (value : Option (List ℤ)) : Option (List ℤ) :=
  if isEagle ∧ ¬k.isBigram then value.map fun v => v.take (k.toBigramView isEagle).len else value

/-- `match`: the number of units two keys share, rounded down to pages. The token arrays
are compared as they are; the lengths come in afterwards. -/
def matchWith (k other : RadixKey) (pageSize : ℕ) : Except RadixError ℕ :=
  if k.extraKey ≠ other.extraKey then .error (.extraKeyMismatch k.extraKey other.extraKey)
  else
    let matchedTokens := firstDifference k.tokenIds other.tokenIds
    if k.isBigram then
      let matched := min (matchedTokens - 1) (min k.len other.len)
      .ok (if 1 < pageSize then matched / pageSize * pageSize else matched)
    else
      let matched := min matchedTokens (min k.len other.len)
      .ok (if pageSize = 1 then matched else matched / pageSize * pageSize)

/-- A page in the name space of an extra key. -/
def childKeyOf (extraKey : Option String) (page : List LogicalUnit) : ChildKey :=
  match extraKey with
  | none => .plain page
  | some e => .named e page

/-- `child_key`. -/
def childKey (k : RadixKey) (pageSize : ℕ) : Except RadixError ChildKey :=
  if k.isBigram then
    if k.tokenIds.length < pageSize + 1 then .error .indexOutOfRange
    else .ok (childKeyOf k.extraKey (bigrams (k.tokenIds.take (pageSize + 1))))
  else if pageSize = 1 ∧ k.tokenIds = [] then .error .indexOutOfRange
  else .ok (childKeyOf k.extraKey ((k.tokenIds.take pageSize).map .token))

end RadixKey

/-! ### Bigrams -/

@[simp] theorem length_bigrams (ts : List ℤ) : (bigrams ts).length = ts.length - 1 := by
  fun_induction bigrams ts with
  | case1 t u ts ih => simp only [List.length_cons, ih]; omega
  | case2 ts h =>
    rcases ts with _ | ⟨t, _ | ⟨u, ts⟩⟩
    · rfl
    · rfl
    · exact absurd rfl (h t u ts)

theorem bigrams_cons_cons (t u : ℤ) (ts : List ℤ) :
    bigrams (t :: u :: ts) = .bigram t u :: bigrams (u :: ts) := rfl

theorem take_bigrams (ts : List ℤ) (n : ℕ) : (bigrams ts).take n = bigrams (ts.take (n + 1)) := by
  induction n generalizing ts with
  | zero => rcases ts with _ | ⟨t, ts⟩ <;> rfl
  | succ n ih =>
    rcases ts with _ | ⟨t, _ | ⟨u, ts⟩⟩
    · rfl
    · rfl
    · rw [bigrams_cons_cons, List.take_succ_cons, List.take_succ_cons, List.take_succ_cons,
        bigrams_cons_cons, ih, List.take_succ_cons]

theorem drop_bigrams (ts : List ℤ) (n : ℕ) : (bigrams ts).drop n = bigrams (ts.drop n) := by
  induction n generalizing ts with
  | zero => rfl
  | succ n ih =>
    rcases ts with _ | ⟨t, _ | ⟨u, ts⟩⟩
    · rfl
    · simp [bigrams]
    · rw [bigrams_cons_cons, List.drop_succ_cons, List.drop_succ_cons, ih]

/-- Two bigram views agree on one unit less than their token arrays. -/
theorem lcp_bigrams (s t : List ℤ) : lcp (bigrams s) (bigrams t) = lcp s t - 1 := by
  induction s generalizing t with
  | nil => simp [bigrams]
  | cons a s ih =>
    rcases s with _ | ⟨a', s⟩
    · have := lcp_le_left [a] t
      simp only [List.length_cons, List.length_nil] at this
      rw [show bigrams [a] = [] from rfl, lcp_nil]
      omega
    rcases t with _ | ⟨b, _ | ⟨b', t⟩⟩
    · simp [bigrams]
    · have := lcp_le_right (a :: a' :: s) [b]
      simp only [List.length_cons, List.length_nil] at this
      rw [show bigrams [b] = [] from rfl, lcp_nil_right]
      omega
    rw [bigrams_cons_cons, bigrams_cons_cons, lcp_cons, lcp_cons a b, ih]
    simp only [LogicalUnit.bigram.injEq]
    by_cases hab : a = b
    · by_cases hab' : a' = b'
      · simp [hab, hab', lcp_cons]
      · simp [hab, hab', lcp_cons]
    · simp [hab]

theorem lcp_map_token (s t : List ℤ) :
    lcp (s.map LogicalUnit.token) (t.map LogicalUnit.token) = lcp s t := by
  induction s generalizing t with
  | nil => simp
  | cons a s ih =>
    rcases t with _ | ⟨b, t⟩
    · simp
    · simp only [List.map_cons, lcp_cons, ih, LogicalUnit.token.injEq]

/-! ### Pages -/

/-- A multiple of the page size is below a number exactly when it is below its pages. -/
theorem le_div_mul_iff {p k n : ℕ} (hk : p ∣ k) : k ≤ n / p * p ↔ k ≤ n := by
  obtain ⟨j, rfl⟩ := hk
  rcases Nat.eq_zero_or_pos p with rfl | hp
  · simp
  rw [Nat.mul_comm p j, Nat.mul_le_mul_right_iff hp, Nat.le_div_iff_mul_le hp]

/-- Between different multiples of the page size there is a page. -/
theorem add_le_of_dvd_of_lt {p m n : ℕ} (hm : p ∣ m) (hn : p ∣ n) (h : m < n) : m + p ≤ n := by
  have := Nat.le_of_dvd (by omega) (Nat.dvd_sub hn hm)
  omega

namespace RadixKey

variable {k other : RadixKey} {pageSize : ℕ}

/-! ### Keys by their units -/

theorem rawLen_eq (k : RadixKey) :
    k.rawLen = min (k.limit.getD k.tokenIds.length) k.tokenIds.length := by
  rw [rawLen]
  split
  · next l h =>
    rw [h, Option.getD_some]
    split <;> omega
  · next h => simp [h]

theorem rawLen_le (k : RadixKey) : k.rawLen ≤ k.tokenIds.length := by
  rw [rawLen_eq]
  exact min_le_right _ _

theorem len_le (k : RadixKey) : k.len ≤ k.tokenIds.length := by
  have := k.rawLen_le
  rw [len]
  split <;> omega

/-- The units are those of the tokens, cut at the length. -/
theorem units_eq (k : RadixKey) :
    k.units = ((if k.isBigram then bigrams k.tokenIds else k.tokenIds.map .token)).take k.len := by
  rw [units, len]
  split
  · rw [take_bigrams]
    rcases Nat.eq_zero_or_pos k.rawLen with h | h
    · rw [h]
      rcases k.tokenIds with _ | ⟨t, ts⟩ <;> rfl
    · rw [Nat.sub_add_cancel h]
  · rw [List.map_take]

@[simp] theorem length_units (k : RadixKey) : k.units.length = k.len := by
  have := k.rawLen_le
  rw [units_eq, List.length_take, len]
  split
  · rw [length_bigrams]
    omega
  · rw [List.length_map]
    omega

@[simp] theorem extraKey_slice (k : RadixKey) (a b : ℕ) : (k.slice a b).extraKey = k.extraKey := by
  rw [slice]
  split <;> rfl

@[simp] theorem isBigram_slice (k : RadixKey) (a b : ℕ) : (k.slice a b).isBigram = k.isBigram := by
  rw [slice]
  split
  · next h => exact h.symm
  · next h => exact (Bool.eq_false_of_not_eq_true h).symm

/-- The units of a key without a limit. -/
theorem units_of_noLimit (ts : List ℤ) (e : Option String) (b : Bool) :
    (RadixKey.mk ts e b none).units = if b then bigrams ts else ts.map .token := by
  simp [units, rawLen]

/-- **The units of a slice** are the slice of the units. -/
theorem units_slice (k : RadixKey) (a b : ℕ) :
    (k.slice a b).units = (k.units.take b).drop a := by
  have hcut : (k.units.take b).drop a
      = (k.units.take (min b k.len)).drop (min a k.len) := by
    rw [← length_units, ← List.take_eq_take_min]
    rcases le_total a k.units.length with h | h
    · rw [min_eq_left h]
    · rw [min_eq_right h, List.drop_eq_nil_of_le (by rw [List.length_take]; omega),
        List.drop_eq_nil_of_le (by rw [List.length_take]; omega)]
  rw [hcut, slice]
  generalize min a k.len = a, hb : min b k.len = b
  have hb' : b ≤ k.len := hb ▸ min_le_right _ _
  rw [units_eq k, List.take_take, min_eq_left hb']
  split
  · rw [units_of_noLimit, if_pos rfl]
    split
    · rw [take_bigrams, drop_bigrams, window]
    · rw [List.drop_eq_nil_of_le (by simp; omega)]
      rfl
  · rw [units_of_noLimit, if_neg Bool.false_ne_true, window, ← List.map_take, ← List.map_drop]

@[simp] theorem len_slice (k : RadixKey) (a b : ℕ) :
    (k.slice a b).len = min b k.len - a := by
  rw [← length_units, units_slice, List.length_drop, List.length_take, length_units]

@[simp] theorem extraKey_pageAligned (k : RadixKey) (pageSize : ℕ) :
    (k.pageAligned pageSize).extraKey = k.extraKey := by
  rw [pageAligned]
  split
  · rfl
  · rw [extraKey_slice]

/-- The units of a key cut at its pages. -/
theorem units_pageAligned (k : RadixKey) (pageSize : ℕ) :
    (k.pageAligned pageSize).units = k.units.take (k.len / pageSize * pageSize) := by
  rw [pageAligned]
  split
  · next h => rw [h, Nat.div_one, Nat.mul_one, ← length_units, List.take_length]
  · rw [units_slice, List.drop_zero]

@[simp] theorem len_pageAligned (k : RadixKey) (pageSize : ℕ) :
    (k.pageAligned pageSize).len = k.len / pageSize * pageSize := by
  rw [← length_units, units_pageAligned, List.length_take, length_units]
  exact min_eq_left (Nat.div_mul_le_self _ _)

@[simp] theorem tokenIds_toBigramView (k : RadixKey) (isEagle : Bool) :
    (k.toBigramView isEagle).tokenIds = k.tokenIds := by
  rw [toBigramView]
  split <;> rfl

@[simp] theorem extraKey_toBigramView (k : RadixKey) (isEagle : Bool) :
    (k.toBigramView isEagle).extraKey = k.extraKey := by
  rw [toBigramView]
  split <;> rfl

/-! ### Child keys -/

/-- A child key determines the extra key and the page. -/
@[simp] theorem childKeyOf_inj {e e' : Option String} {p p' : List LogicalUnit} :
    childKeyOf e p = childKeyOf e' p' ↔ e = e' ∧ p = p' := by
  rcases e with _ | e <;> rcases e' with _ | e' <;> simp [childKeyOf]

/-- **The child key** of a key with a page is its first page, under its extra key. -/
theorem childKey_eq (hp : 0 < pageSize) (h : pageSize ≤ k.len) :
    k.childKey pageSize = .ok (childKeyOf k.extraKey (k.units.take pageSize)) := by
  have hraw := k.rawLen_le
  rw [units_eq, List.take_take, min_eq_left h, childKey]
  rw [len] at h
  split
  · next hb =>
    rw [if_pos hb] at h
    rw [if_neg (by omega), take_bigrams]
  · next hb =>
    rw [if_neg hb] at h
    rw [if_neg, List.map_take]
    rintro ⟨-, hnil⟩
    rw [hnil, List.length_nil] at hraw
    omega

/-- Keys that share a first page are in the same view. -/
theorem isBigram_eq_of_page (hp : 0 < pageSize) (h : pageSize ≤ k.len)
    (heq : k.units.take pageSize = other.units.take pageSize) : k.isBigram = other.isBigram := by
  have hview : ∀ k : RadixKey, ∀ u ∈ k.units,
      k.isBigram = (match u with | .token _ => false | .bigram _ _ => true) := by
    intro k u hu
    rw [units] at hu
    split at hu
    · next hb =>
      rw [hb]
      revert hu
      generalize k.tokenIds.take k.rawLen = ts
      fun_induction bigrams ts with
      | case1 t v ts ih =>
        rw [List.mem_cons]
        rintro (rfl | hu)
        · rfl
        · exact ih hu
      | case2 => simp
    · next hb =>
      obtain ⟨t, -, rfl⟩ := List.mem_map.mp hu
      exact Bool.eq_false_of_not_eq_true hb
  obtain ⟨u, hu⟩ := List.exists_mem_of_length_pos
    (l := k.units.take pageSize) (by rw [List.length_take, length_units]; omega)
  rw [hview k u (List.mem_of_mem_take hu), hview other u (List.mem_of_mem_take (heq ▸ hu))]

/-- **The comparison of two keys** in the same view: what their units share, rounded down
to pages. -/
theorem matchWith_eq (hp : 0 < pageSize) (he : k.extraKey = other.extraKey)
    (hb : k.isBigram = other.isBigram) :
    k.matchWith other pageSize = .ok (lcp k.units other.units / pageSize * pageSize) := by
  rw [matchWith, if_neg (not_not.mpr he), firstDifference_eq, units_eq k, units_eq other, ← hb,
    lcp_take]
  split
  · rw [lcp_bigrams]
    split
    · rfl
    · obtain rfl : pageSize = 1 := by omega
      rw [Nat.div_one, Nat.mul_one]
  · rw [lcp_map_token]
    split
    · next hp => rw [hp, Nat.div_one, Nat.mul_one]
    · rfl

end RadixKey

end Radix

end HtSglang
