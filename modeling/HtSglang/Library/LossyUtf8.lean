import Mathlib

/-!
# Decoding UTF-8 with replacement characters

The decoder that turns any bytes into a text: a well-formed sequence becomes its character, and
every maximal part of a sequence that cannot be continued becomes one replacement character. It
goes through the bytes with what it has of an unfinished sequence (`HtSglang.LossyUtf8.scan`);
a sequence that is unfinished at the end becomes a replacement character, too
(`HtSglang.LossyUtf8.decode`).

What makes decoding in pieces possible is that the text read so far, apart from the unfinished
sequence, does not depend on what follows (`HtSglang.LossyUtf8.scan_append`). Where no sequence is
unfinished the rest can be decoded on its own (`HtSglang.LossyUtf8.decode_append`), and a text that
does not end with a replacement character has no unfinished sequence
(`HtSglang.LossyUtf8.scan_eq_none_of_getLast`).
-/

namespace HtSglang

namespace LossyUtf8

/-- The replacement character. -/
def replacement : Char := '�'

/-- An unfinished sequence: the bits read, how many bytes are missing, and what the next one may
be. -/
structure Unfinished where
  /-- The bits read. -/
  code : ℕ
  /-- The missing bytes. -/
  needed : ℕ
  /-- The least next byte. -/
  lower : UInt8
  /-- The greatest next byte. -/
  upper : UInt8
  deriving DecidableEq

/-- A byte where a sequence starts. -/
def start (b : UInt8) : List Char × Option Unfinished :=
  if b ≤ 0x7F then ([Char.ofNat b.toNat], none)
  else if 0xC2 ≤ b ∧ b ≤ 0xDF then ([], some ⟨b.toNat % 32, 1, 0x80, 0xBF⟩)
  else if 0xE0 ≤ b ∧ b ≤ 0xEF then
    ([], some ⟨b.toNat % 16, 2, if b = 0xE0 then 0xA0 else 0x80, if b = 0xED then 0x9F else 0xBF⟩)
  else if 0xF0 ≤ b ∧ b ≤ 0xF4 then
    ([], some ⟨b.toNat % 8, 3, if b = 0xF0 then 0x90 else 0x80, if b = 0xF4 then 0x8F else 0xBF⟩)
  else ([replacement], none)

/-- One byte. -/
def step (s : Option Unfinished) (b : UInt8) : List Char × Option Unfinished :=
  match s with
  | none => start b
  | some q =>
    if q.lower ≤ b ∧ b ≤ q.upper then
      let code := q.code * 64 + b.toNat % 64
      if q.needed ≤ 1 then ([Char.ofNat code], none)
      else ([], some ⟨code, q.needed - 1, 0x80, 0xBF⟩)
    else (replacement :: (start b).1, (start b).2)

/-- The text of a list of bytes, and the sequence that is unfinished at its end. -/
def scan (s : Option Unfinished) : List UInt8 → List Char × Option Unfinished
  | [] => ([], s)
  | b :: bs => ((step s b).1 ++ (scan (step s b).2 bs).1, (scan (step s b).2 bs).2)

/-- What is written for an unfinished sequence at the end. -/
def flush (s : Option Unfinished) : List Char := if s.isSome then [replacement] else []

/-- **The decoder.** -/
def decode (bs : List UInt8) : List Char := (scan none bs).1 ++ flush (scan none bs).2

/-- **Bytes that follow** continue where the scan was. -/
theorem scan_append (s : Option Unfinished) (as bs : List UInt8) :
    scan s (as ++ bs) =
      ((scan s as).1 ++ (scan (scan s as).2 bs).1, (scan (scan s as).2 bs).2) := by
  induction as generalizing s with
  | nil => rfl
  | cons a as ih => rw [List.cons_append, scan, scan, ih, List.append_assoc]

/-- Where nothing is unfinished the rest is decoded on its own. -/
theorem decode_append {as : List UInt8} (h : (scan none as).2 = none) (bs : List UInt8) :
    decode (as ++ bs) = decode as ++ decode bs := by
  have hflush : flush none = [] := rfl
  rw [decode, decode, decode, scan_append, h, hflush, List.append_nil, List.append_assoc]

/-- A text that does not end with a replacement character is finished. -/
theorem scan_eq_none_of_getLast {bs : List UInt8} (h : (decode bs).getLast? ≠ some replacement) :
    (scan none bs).2 = none := by
  by_contra hsome
  refine h ?_
  rw [decode, flush, if_pos (Option.isSome_iff_ne_none.mpr hsome), List.getLast?_concat]

end LossyUtf8

end HtSglang
