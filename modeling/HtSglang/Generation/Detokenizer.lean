import HtSglang.Library.LossyUtf8

/-!
# The detokenizer

The scheduler sends the tokens of a request in messages; the detokenizer turns each message into
text. It commits text only when it does not end with a replacement character, since more tokens
may complete a character; of text it cannot commit it already emits a prefix that looks
printable (`HtSglang.Generation.findPrintableText`) and remembers how much it has sent.

The printable prefix of a longer text may be shorter, however: the offset of what was sent then
goes back, and the text between is sent again. The text that is emitted is what the tokens decode
to exactly when the text that is not committed never gets a shorter printable prefix
(`HtSglang.Generation.emitted_eq_decode_iff`).

A message has the tokens that are new to the detokenizer; the first one starts with the last
tokens of the prompt, for context. Of a batch only one request is followed, and its status is
not evicted. `decoded_text` of a request is empty, and the special-token switches are part of the
tokenizer.
-/

namespace HtSglang

namespace Generation

open LossyUtf8

/-! ### Printable text -/

/-- `_is_chinese_char`. -/
def isChineseChar (cp : ℕ) : Bool :=
  (0x4E00 ≤ cp && cp ≤ 0x9FFF) || (0x3400 ≤ cp && cp ≤ 0x4DBF) ||
  (0x20000 ≤ cp && cp ≤ 0x2A6DF) || (0x2A700 ≤ cp && cp ≤ 0x2B73F) ||
  (0x2B740 ≤ cp && cp ≤ 0x2B81F) || (0x2B820 ≤ cp && cp ≤ 0x2CEAF) ||
  (0xF900 ≤ cp && cp ≤ 0xFAFF) || (0x2F800 ≤ cp && cp ≤ 0x2FA1F)

/-- `text[: text.rfind(" ") + 1]`. -/
def throughLastSpace (text : List Char) : List Char :=
  (text.reverse.dropWhile (· ≠ ' ')).reverse

/-- `find_printable_text`. -/
def findPrintableText (text : List Char) : List Char :=
  if text.getLast? = some '\n' then text
  else if text.getLast?.any fun c => isChineseChar c.toNat then text
  else if text.dropLast.getLast?.any fun c => isChineseChar c.toNat then text.dropLast
  else throughLastSpace text

/-! ### The request's side -/

/-- `INIT_INCREMENTAL_DETOKENIZATION_OFFSET`. -/
def initIncrementalDetokenizationOffset : ℕ := 5

/-- What a request remembers of the messages it has sent. -/
structure Sender where
  /-- The offset of the prompt's last tokens and that of the prompt's end. -/
  offsets : Option (ℕ × ℕ)
  /-- The last tokens of the prompt and the output. -/
  surrAndDecodeIds : List ℤ
  /-- How much of the output is in `surrAndDecodeIds`. -/
  curDecodeIdsLen : ℕ
  /-- How much of `surrAndDecodeIds` has been sent. -/
  sendDecodeIdOffset : ℕ

/-- A request that has sent nothing. -/
def Sender.new : Sender := ⟨none, [], 0, 0⟩

/-- `init_incremental_detokenize`. -/
def Sender.initIncrementalDetokenize (s : Sender) (originInputIds outputIds : List ℤ) : Sender :=
  match s.offsets with
  | none =>
    let readOffset := originInputIds.length
    let surrOffset := readOffset - initIncrementalDetokenizationOffset
    { s with
      offsets := some (surrOffset, readOffset)
      surrAndDecodeIds := originInputIds.drop surrOffset ++ outputIds
      curDecodeIdsLen := outputIds.length }
  | some _ =>
    { s with
      surrAndDecodeIds := s.surrAndDecodeIds ++ outputIds.drop s.curDecodeIdsLen
      curDecodeIdsLen := outputIds.length }

/-- What a finished request has matched. -/
inductive Matched where
  /-- Nothing: it has reached its length. -/
  | nothing
  /-- A stop string. -/
  | str (s : List Char)
  /-- A stop token. -/
  | token (t : ℤ)
  deriving DecidableEq

/-- One request's part of a `BatchTokenIDOutput`. -/
structure Message where
  /-- The new tokens. -/
  decodeIds : List ℤ
  /-- Where the prompt's tokens end, in the first message. -/
  readOffset : ℕ
  /-- What was matched, if the request has finished. -/
  finished : Option Matched

/-- The message for the output so far. -/
def Sender.message (s : Sender) (originInputIds outputIds : List ℤ) (finished : Option Matched) :
    Sender × Message :=
  let s' := s.initIncrementalDetokenize originInputIds outputIds
  let readOffset := (s'.offsets.map fun o => o.2 - o.1).getD 0
  ({ s' with sendDecodeIdOffset := s'.surrAndDecodeIds.length },
    ⟨s'.surrAndDecodeIds.drop s.sendDecodeIdOffset, readOffset, finished⟩)

/-! ### The detokenizer's side -/

/-- `DecodeStatus`. -/
structure DecodeStatus where
  /-- The committed text. -/
  decodedText : List Char
  decodeIds : List ℤ
  /-- Where the context starts. -/
  surrOffset : ℕ
  /-- Where the tokens of the uncommitted text start. -/
  readOffset : ℕ
  sentOffset : ℕ
  deriving DecidableEq

/-- The first occurrence of a text in another one. -/
def findText (pattern : List Char) : List Char → Option ℕ
  | [] => if pattern = [] then some 0 else none
  | c :: text => if pattern <+: c :: text then some 0 else (findText pattern text).map (· + 1)

/-- `trim_matched_stop` for a text. -/
def trimText (text : List Char) (finished : Option Matched) (noStopTrim : Bool) : List Char :=
  match finished with
  | some (.str m) =>
    if m = [] then text
    else
      match findText m text with
      | none => text
      | some pos => if noStopTrim then text.take (pos + m.length) else text.take pos
  | _ => text

/-- The token of a tool call, which is one of the tokens that end a sequence. -/
def toolCallToken : ℤ := 200012

/-- `trim_matched_stop` for tokens. -/
def trimIds (toolCalls : Bool) (ids : List ℤ) (finished : Option Matched) (noStopTrim : Bool) :
    List ℤ :=
  match finished with
  | some (.token t) =>
    if t = 0 ∨ noStopTrim then ids
    else if ids.getLast? = some toolCallToken ∧ toolCalls then ids
    else ids.dropLast
  | _ => ids

/-- What of the detokenizer does not change. -/
structure Decoder where
  /-- The tokenizer's decoding. -/
  decode : List ℤ → List Char
  /-- Whether matched stops are kept. -/
  noStopTrim : Bool
  /-- Whether tool calls are parsed. -/
  toolCalls : Bool

/-- The status a message is worked on with. -/
def receive (status : Option DecodeStatus) (m : Message) : DecodeStatus :=
  match status with
  | none => ⟨[], m.decodeIds, 0, m.readOffset, 0⟩
  | some s => { s with decodeIds := s.decodeIds ++ m.decodeIds }

/-- `_decode_batch_token_id_output` for one request: the status that is kept, and the text. -/
def decodeStep (d : Decoder) (status : Option DecodeStatus) (m : Message) :
    Option DecodeStatus × List Char :=
  let s := receive status m
  let readIds := trimIds d.toolCalls (s.decodeIds.drop s.surrOffset) m.finished d.noStopTrim
  let surrIds := (s.decodeIds.take s.readOffset).drop s.surrOffset
  let newText := (d.decode readIds).drop (d.decode surrIds).length
  match m.finished with
  | none =>
    let pending := s.sentOffset - s.decodedText.length
    if newText ≠ [] ∧ newText.getLast? ≠ some replacement then
      let decodedText := s.decodedText ++ newText
      (some ⟨decodedText, s.decodeIds, s.readOffset, s.decodeIds.length, decodedText.length⟩,
        newText.drop pending)
    else
      let printable := findPrintableText newText
      (some { s with sentOffset := s.decodedText.length + printable.length },
        printable.drop pending)
  | some _ =>
    let output := trimText (s.decodedText ++ newText) m.finished d.noStopTrim
    (none, output.drop s.sentOffset)

/-! ### A whole request -/

/-- A request, its detokenizer and the text that was emitted. -/
structure Session where
  /-- The output so far. -/
  outputIds : List ℤ
  /-- The request's side. -/
  sender : Sender
  /-- The detokenizer's side. -/
  status : Option DecodeStatus
  emitted : List Char

/-- Nothing is sent yet. -/
def Session.new : Session := ⟨[], .new, none, []⟩

/-- The next tokens are sent. -/
def Session.send (d : Decoder) (prompt : List ℤ) (x : Session) (chunk : List ℤ)
    (finished : Option Matched) : Session :=
  let outputIds := x.outputIds ++ chunk
  let sent := x.sender.message prompt outputIds finished
  let decoded := decodeStep d x.status sent.2
  ⟨outputIds, sent.1, decoded.1, x.emitted ++ decoded.2⟩

/-- Messages that do not finish the request. -/
def Session.run (d : Decoder) (prompt : List ℤ) (chunks : List (List ℤ)) : Session :=
  chunks.foldl (fun x chunk => x.send d prompt chunk none) .new

/-- How much text has been sent. -/
def Session.sentOffset (x : Session) : ℕ := (x.status.map DecodeStatus.sentOffset).getD 0

/-! ### What is printable -/

theorem findPrintableText_isPrefix (text : List Char) : findPrintableText text <+: text := by
  rw [findPrintableText]
  split
  · exact List.prefix_rfl
  split
  · exact List.prefix_rfl
  split
  · exact List.dropLast_prefix text
  · rw [throughLastSpace, ← List.reverse_suffix, List.reverse_reverse]
    exact List.dropWhile_suffix _

/-- **A replacement character at the end is not printed.** -/
theorem length_findPrintableText_lt {text : List Char} (h : text.getLast? = some replacement) :
    (findPrintableText text).length < text.length := by
  obtain ⟨init, rfl⟩ := List.getLast?_eq_some_iff.mp h
  rw [findPrintableText, h, if_neg (by decide), if_neg (by decide)]
  split
  · simp
  · have hdrop : throughLastSpace (init ++ [replacement]) = throughLastSpace init := by
      rw [throughLastSpace, throughLastSpace, List.reverse_concat, List.dropWhile_cons_of_pos]
      decide
    rw [hdrop, List.length_append, List.length_singleton, Nat.lt_succ_iff, throughLastSpace,
      List.length_reverse, ← @List.length_reverse _ init]
    exact (List.dropWhile_suffix _).length_le

/-! ### Decodings -/

/-- **A decoding of tokens**, and how much of a text is settled before all tokens are there. -/
structure Decoding where
  decode : List ℤ → List Char
  /-- The text that more tokens do not change. -/
  settled : List ℤ → List Char
  /-- No character is unfinished at the end of tokens. -/
  Complete : List ℤ → Prop
  complete_nil : Complete []
  decode_nil : decode [] = []
  /-- Text follows complete tokens. -/
  decode_append {as : List ℤ} : Complete as → ∀ bs, decode (as ++ bs) = decode as ++ decode bs
  /-- After complete tokens, tokens are complete when they are so on their own. -/
  complete_append {as : List ℤ} : Complete as → ∀ bs, Complete bs → Complete (as ++ bs)
  /-- Settled text follows complete tokens. -/
  settled_append {as : List ℤ} : Complete as → ∀ bs, settled (as ++ bs) = decode as ++ settled bs
  settled_prefix : ∀ as bs, settled as <+: settled (as ++ bs)
  settled_prefix_decode : ∀ ids, settled ids <+: decode ids
  /-- All of the text of complete tokens is settled. -/
  settled_eq_of_complete {ids : List ℤ} : Complete ids → settled ids = decode ids
  /-- A text is complete unless it ends with a replacement character. -/
  complete_of_getLast {ids : List ℤ} : (decode ids).getLast? ≠ some replacement → Complete ids
  /-- At most one character is not settled. -/
  length_decode_le : ∀ ids, (decode ids).length ≤ (settled ids).length + 1

/-- The detokenizer of a decoding. -/
def Decoding.decoder (D : Decoding) (noStopTrim toolCalls : Bool) : Decoder :=
  ⟨D.decode, noStopTrim, toolCalls⟩

/-- The text of a message is committed. -/
def Commits (text : List Char) : Prop := text ≠ [] ∧ text.getLast? ≠ some replacement

instance (text : List Char) : Decidable (Commits text) := inferInstanceAs (Decidable (_ ∧ _))

/-- What of the text of a message is sent by then. -/
def sendable (text : List Char) : List Char :=
  if Commits text then text else findPrintableText text

/-- Without a replacement character at the end all of the text is sent. -/
theorem sendable_eq_self {text : List Char} (h : text.getLast? ≠ some replacement) :
    sendable text = text := by
  rw [sendable]
  split
  · rfl
  · next hno =>
    obtain rfl : text = [] := by_contra fun hne => hno ⟨hne, h⟩
    rfl

theorem sendable_of_replacement {text : List Char} (h : text.getLast? = some replacement) :
    sendable text = findPrintableText text := if_neg fun hc => hc.2 h

/-- **What is sent is settled.** -/
theorem Decoding.sendable_prefix_settled (D : Decoding) (ids : List ℤ) :
    sendable (D.decode ids) <+: D.settled ids := by
  by_cases h : (D.decode ids).getLast? = some replacement
  · rw [sendable_of_replacement h]
    refine List.prefix_of_prefix_length_le (findPrintableText_isPrefix _)
      (D.settled_prefix_decode ids) ?_
    have hlt := length_findPrintableText_lt h
    have hle := D.length_decode_le ids
    omega
  · rw [sendable_eq_self h, D.settled_eq_of_complete (D.complete_of_getLast h)]

/-! ### Bytes of tokens -/

section Bytes

variable (tokenBytes : ℤ → List UInt8)

/-- The bytes of a list of tokens. -/
def bytesOf (ids : List ℤ) : List UInt8 := ids.flatMap tokenBytes

/-- The tokenizer's decoding: the bytes of the tokens, one after the other, as UTF-8. -/
def decodeTokens (ids : List ℤ) : List Char := decode (bytesOf tokenBytes ids)

/-- The text that more tokens do not change. -/
def settled (ids : List ℤ) : List Char := (scan none (bytesOf tokenBytes ids)).1

/-- No character is unfinished at the end of a list of tokens. -/
def Complete (ids : List ℤ) : Prop := (scan none (bytesOf tokenBytes ids)).2 = none

instance (ids : List ℤ) : Decidable (Complete tokenBytes ids) := inferInstanceAs (Decidable (_ = _))

variable {tokenBytes}

theorem bytesOf_append (as bs : List ℤ) :
    bytesOf tokenBytes (as ++ bs) = bytesOf tokenBytes as ++ bytesOf tokenBytes bs :=
  List.flatMap_append

theorem complete_nil : Complete tokenBytes [] := rfl

theorem decodeTokens_append {as : List ℤ} (h : Complete tokenBytes as) (bs : List ℤ) :
    decodeTokens tokenBytes (as ++ bs) =
      decodeTokens tokenBytes as ++ decodeTokens tokenBytes bs := by
  rw [decodeTokens, bytesOf_append, decode_append h]
  rfl

/-- After complete tokens, tokens are complete when they are so on their own. -/
theorem complete_append_iff {as : List ℤ} (h : Complete tokenBytes as) (bs : List ℤ) :
    Complete tokenBytes (as ++ bs) ↔ Complete tokenBytes bs := by
  rw [Complete, Complete, bytesOf_append, scan_append, h]

theorem settled_prefix (as bs : List ℤ) :
    settled tokenBytes as <+: settled tokenBytes (as ++ bs) := by
  rw [settled, settled, bytesOf_append, scan_append]
  exact List.prefix_append _ _

theorem settled_prefix_decodeTokens (ids : List ℤ) :
    settled tokenBytes ids <+: decodeTokens tokenBytes ids :=
  List.prefix_append _ _

/-- At most one character is not settled. -/
theorem length_decodeTokens_le (ids : List ℤ) :
    (decodeTokens tokenBytes ids).length ≤ (settled tokenBytes ids).length + 1 := by
  rw [decodeTokens, decode, List.length_append, flush]
  split
  · exact le_rfl
  · exact Nat.le_succ _

theorem settled_eq_of_complete {ids : List ℤ} (h : Complete tokenBytes ids) :
    settled tokenBytes ids = decodeTokens tokenBytes ids := by
  rw [decodeTokens, decode, h]
  exact (List.append_nil _).symm

/-- The settled text after complete tokens. -/
theorem settled_append {as : List ℤ} (h : Complete tokenBytes as) (bs : List ℤ) :
    settled tokenBytes (as ++ bs) = decodeTokens tokenBytes as ++ settled tokenBytes bs := by
  rw [← settled_eq_of_complete h, settled, bytesOf_append, scan_append, h]
  rfl

variable (tokenBytes) in
/-- **The decoding of a byte-level tokenizer.** -/
def byteDecoding : Decoding where
  decode := decodeTokens tokenBytes
  settled := settled tokenBytes
  Complete := Complete tokenBytes
  complete_nil := complete_nil
  decode_nil := rfl
  decode_append := decodeTokens_append
  complete_append h bs := (complete_append_iff h bs).mpr
  settled_append := settled_append
  settled_prefix := settled_prefix
  settled_prefix_decode := settled_prefix_decodeTokens
  settled_eq_of_complete := settled_eq_of_complete
  complete_of_getLast := scan_eq_none_of_getLast
  length_decode_le := length_decodeTokens_le

end Bytes

/-! ### Messages -/

/-- The last tokens of the prompt. -/
def promptTail (prompt : List ℤ) : List ℤ :=
  prompt.drop (prompt.length - initIncrementalDetokenizationOffset)

/-- The status before the first message. -/
def DecodeStatus.start (prompt : List ℤ) : DecodeStatus :=
  ⟨[], promptTail prompt, 0, (promptTail prompt).length, 0⟩

/-- **The two sides agree** on the tokens that were sent; `s` is the detokenizer's status, or
what it is about to be. -/
structure Linked (prompt : List ℤ) (x : Session) (s : DecodeStatus) : Prop where
  /-- The tokens are the last of the prompt and the output. -/
  ids : s.decodeIds = promptTail prompt ++ x.outputIds
  /-- Nothing has been sent, or everything. -/
  sides : (x.sender = .new ∧ x.status = none ∧ x.outputIds = [] ∧ s = .start prompt) ∨
    (x.status = some s ∧ x.sender.offsets.isSome ∧
      x.sender.surrAndDecodeIds = promptTail prompt ++ x.outputIds ∧
      x.sender.curDecodeIdsLen = x.outputIds.length ∧
      x.sender.sendDecodeIdOffset = (promptTail prompt ++ x.outputIds).length)

theorem linked_new (prompt : List ℤ) : Linked prompt .new (.start prompt) :=
  ⟨(List.append_nil _).symm, .inl ⟨rfl, rfl, rfl, rfl⟩⟩

theorem Linked.sentOffset_eq {prompt : List ℤ} {x : Session} {s : DecodeStatus}
    (h : Linked prompt x s) : x.sentOffset = s.sentOffset := by
  rw [Session.sentOffset]
  rcases h.sides with ⟨-, hstatus, -, rfl⟩ | ⟨hstatus, -⟩
  · rw [hstatus]
    rfl
  · rw [hstatus]
    rfl

/-- **A message brings the new tokens.** -/
theorem Linked.message {prompt : List ℤ} {x : Session} {s : DecodeStatus} (h : Linked prompt x s)
    (chunk : List ℤ) (finished : Option Matched) :
    receive x.status (x.sender.message prompt (x.outputIds ++ chunk) finished).2 =
        { s with decodeIds := s.decodeIds ++ chunk } ∧
      (x.sender.message prompt (x.outputIds ++ chunk) finished).2.finished = finished ∧
      (x.sender.message prompt (x.outputIds ++ chunk) finished).1.offsets.isSome ∧
      (x.sender.message prompt (x.outputIds ++ chunk) finished).1.surrAndDecodeIds =
        promptTail prompt ++ (x.outputIds ++ chunk) ∧
      (x.sender.message prompt (x.outputIds ++ chunk) finished).1.curDecodeIdsLen =
        (x.outputIds ++ chunk).length ∧
      (x.sender.message prompt (x.outputIds ++ chunk) finished).1.sendDecodeIdOffset =
        (promptTail prompt ++ (x.outputIds ++ chunk)).length := by
  rcases h.sides with ⟨hsender, hstatus, hout, rfl⟩ | ⟨hstatus, hoff, hids, hcur, hsend⟩
  · rw [hsender, hstatus, hout]
    refine ⟨?_, rfl, rfl, rfl, rfl, rfl⟩
    have hlen : prompt.length - (prompt.length - initIncrementalDetokenizationOffset) =
        (promptTail prompt).length := by rw [promptTail, List.length_drop]
    rw [receive, DecodeStatus.start]
    simp only [Sender.message, Sender.initIncrementalDetokenize, Sender.new, Option.map_some,
      Option.getD_some, List.drop_zero, hlen]
    rfl
  · obtain ⟨o, ho⟩ := Option.isSome_iff_exists.mp hoff
    have hnew : x.sender.surrAndDecodeIds ++ (x.outputIds ++ chunk).drop x.sender.curDecodeIdsLen =
        promptTail prompt ++ (x.outputIds ++ chunk) := by
      rw [hids, hcur, List.drop_left, List.append_assoc]
    simp only [Sender.message, Sender.initIncrementalDetokenize, ho, hnew, hstatus, receive,
      Option.isSome_some, and_self, and_true]
    rw [hsend, ← List.append_assoc, List.drop_left]

/-- The two sides agree after a message that does not finish the request. -/
theorem Linked.send {d : Decoder} {prompt : List ℤ} {x : Session} {s s' : DecodeStatus}
    (h : Linked prompt x s) (chunk : List ℤ)
    (hs' : (decodeStep d x.status (x.sender.message prompt (x.outputIds ++ chunk) none).2).1 =
      some s') (hids : s'.decodeIds = s.decodeIds ++ chunk) :
    Linked prompt (x.send d prompt chunk none) s' := by
  obtain ⟨-, -, hoff, hsurr, hcur, hsend⟩ := h.message chunk none
  refine ⟨?_, .inr ⟨hs', hoff, hsurr, hcur, hsend⟩⟩
  rw [hids, h.ids, List.append_assoc]
  rfl

/-! ### Emitted text -/

section Emitted

variable {D : Decoding} {prompt : List ℤ}

/-- **What the detokenizer knows**: the committed text is that of the tokens before the read
offset, the context is complete, and what has been sent is settled. -/
structure Follows (D : Decoding) (prompt : List ℤ) (x : Session) (s : DecodeStatus) : Prop where
  linked : Linked prompt x s
  surr_le : s.surrOffset ≤ s.readOffset
  read_le : s.readOffset ≤ s.decodeIds.length
  context : D.Complete ((s.decodeIds.take s.readOffset).drop s.surrOffset)
  committed : ∃ out, x.outputIds = out ++ s.decodeIds.drop s.readOffset ∧ D.Complete out ∧
    s.decodedText = D.decode out
  low : s.decodedText.length ≤ s.sentOffset
  high : s.sentOffset ≤ (D.settled x.outputIds).length

theorem follows_new (hprompt : D.Complete (promptTail prompt)) :
    Follows D prompt .new (.start prompt) := by
  refine ⟨linked_new prompt, Nat.zero_le _, le_rfl, ?_, ⟨[], ?_, D.complete_nil, ?_⟩, le_rfl,
    Nat.zero_le _⟩
  · rw [DecodeStatus.start, List.take_length]
    exact hprompt
  · rw [DecodeStatus.start, List.drop_length]
    rfl
  · rw [D.decode_nil]
    rfl

/-- **The new text** is that of the tokens after the read offset. -/
theorem Follows.newText {x : Session} {s : DecodeStatus} (h : Follows D prompt x s)
    (chunk : List ℤ) :
    (D.decode ((s.decodeIds ++ chunk).drop s.surrOffset)).drop
        (D.decode (((s.decodeIds ++ chunk).take s.readOffset).drop s.surrOffset)).length =
      D.decode (s.decodeIds.drop s.readOffset ++ chunk) := by
  have hsplit : (s.decodeIds ++ chunk).drop s.surrOffset =
      (s.decodeIds.take s.readOffset).drop s.surrOffset ++
        (s.decodeIds.drop s.readOffset ++ chunk) := by
    rw [← List.append_assoc, ← List.drop_append_of_le_length (by
        rw [List.length_take_of_le h.read_le]
        exact h.surr_le), List.take_append_drop,
      List.drop_append_of_le_length (h.surr_le.trans h.read_le)]
  rw [hsplit, List.take_append_of_le_length h.read_le, D.decode_append h.context, List.drop_left]

/-- The text that a message brings, with what was not committed before. -/
def DecodeStatus.newText (D : Decoding) (s : DecodeStatus) (chunk : List ℤ) : List Char :=
  D.decode (s.decodeIds.drop s.readOffset ++ chunk)

/-- **The status after a message** that does not finish the request. -/
def DecodeStatus.next (D : Decoding) (s : DecodeStatus) (chunk : List ℤ) : DecodeStatus where
  decodedText :=
    if Commits (s.newText D chunk) then s.decodedText ++ s.newText D chunk else s.decodedText
  decodeIds := s.decodeIds ++ chunk
  surrOffset := if Commits (s.newText D chunk) then s.readOffset else s.surrOffset
  readOffset := if Commits (s.newText D chunk) then (s.decodeIds ++ chunk).length else s.readOffset
  sentOffset := s.decodedText.length + (sendable (s.newText D chunk)).length

/-- **What the detokenizer makes of a message** that does not finish the request. -/
theorem Follows.decodeStep_eq {x : Session} {s : DecodeStatus} (h : Follows D prompt x s)
    (noStopTrim toolCalls : Bool) (chunk : List ℤ) :
    decodeStep (D.decoder noStopTrim toolCalls) x.status
        (x.sender.message prompt (x.outputIds ++ chunk) none).2 =
      (some (s.next D chunk),
        (sendable (s.newText D chunk)).drop (s.sentOffset - s.decodedText.length)) := by
  obtain ⟨hreceive, hfinished, -⟩ := h.linked.message chunk none
  have hnew : (D.decode ((s.decodeIds ++ chunk).drop s.surrOffset)).drop
      (D.decode (((s.decodeIds ++ chunk).take s.readOffset).drop s.surrOffset)).length =
      s.newText D chunk := h.newText chunk
  rw [decodeStep]
  simp only [hreceive, hfinished, Decoding.decoder, trimIds, hnew]
  by_cases hcommit : Commits (s.newText D chunk)
  · simp only [DecodeStatus.next, sendable, if_pos hcommit, List.length_append]
    exact if_pos hcommit
  · simp only [DecodeStatus.next, sendable, if_neg hcommit]
    exact if_neg hcommit

/-- The settled text after a message. -/
theorem Follows.settled_eq {x : Session} {s : DecodeStatus} (h : Follows D prompt x s)
    (chunk : List ℤ) : D.settled (x.outputIds ++ chunk) =
      s.decodedText ++ D.settled (s.decodeIds.drop s.readOffset ++ chunk) := by
  obtain ⟨out, hout, hcomplete, htext⟩ := h.committed
  rw [hout, List.append_assoc, D.settled_append hcomplete, htext]

/-- Up to what is sent by then, it is the committed text and what is sent of the rest. -/
theorem Follows.take_settled {x : Session} {s : DecodeStatus} (h : Follows D prompt x s)
    (chunk : List ℤ) : (D.settled (x.outputIds ++ chunk)).take (s.next D chunk).sentOffset =
      s.decodedText ++ sendable (s.newText D chunk) := by
  rw [h.settled_eq, DecodeStatus.next, List.take_length_add_append, DecodeStatus.newText,
    ← List.prefix_iff_eq_take.mp (D.sendable_prefix_settled _)]

/-- **One message that does not finish the request.** -/
theorem Follows.send {x : Session} {s : DecodeStatus} (h : Follows D prompt x s)
    (noStopTrim toolCalls : Bool) (chunk : List ℤ) :
    Follows D prompt (x.send (D.decoder noStopTrim toolCalls) prompt chunk none)
      (s.next D chunk) := by
  obtain ⟨out, hout, hcomplete, htext⟩ := h.committed
  have hlinked : Linked prompt (x.send (D.decoder noStopTrim toolCalls) prompt chunk none)
      (s.next D chunk) := h.linked.send chunk (by rw [h.decodeStep_eq]) rfl
  have houtput : (x.send (D.decoder noStopTrim toolCalls) prompt chunk none).outputIds =
      out ++ (s.decodeIds.drop s.readOffset ++ chunk) := by
    rw [← List.append_assoc, ← hout]
    rfl
  have hread : s.readOffset ≤ (s.decodeIds ++ chunk).length := by
    rw [List.length_append]
    exact h.read_le.trans (Nat.le_add_right _ _)
  have hdrop : (s.decodeIds ++ chunk).drop s.readOffset =
      s.decodeIds.drop s.readOffset ++ chunk := List.drop_append_of_le_length h.read_le
  have hhigh : (s.next D chunk).sentOffset ≤ (D.settled (x.outputIds ++ chunk)).length := by
    rw [h.settled_eq, List.length_append]
    exact Nat.add_le_add_left (D.sendable_prefix_settled _).length_le _
  by_cases hcommit : Commits (s.newText D chunk)
  · -- the text is complete and committed
    have hcomp : D.Complete (s.decodeIds.drop s.readOffset ++ chunk) :=
      D.complete_of_getLast hcommit.2
    refine ⟨hlinked, ?_, ?_, ?_, ⟨_, ?_, D.complete_append hcomplete _ hcomp, ?_⟩, ?_, hhigh⟩
    all_goals simp only [DecodeStatus.next, if_pos hcommit]
    · exact hread
    · exact le_rfl
    · rwa [List.take_length, hdrop]
    · rw [houtput, List.drop_length, List.append_nil]
    · rw [D.decode_append hcomplete, htext, DecodeStatus.newText]
    · rw [sendable, if_pos hcommit, List.length_append]
  · -- the text is not committed, and a printable prefix of it is sent
    refine ⟨hlinked, ?_, ?_, ?_, ⟨out, ?_, hcomplete, ?_⟩, ?_, hhigh⟩
    all_goals simp only [DecodeStatus.next, if_neg hcommit]
    · exact h.surr_le
    · exact hread
    · rw [List.take_append_of_le_length h.read_le]
      exact h.context
    · rw [houtput, hdrop]
    · exact htext
    · exact Nat.le_add_right _ _

/-- Without a replacement character at the end all of the text is sent by then. -/
theorem Follows.sentOffset_next {x : Session} {s : DecodeStatus} (h : Follows D prompt x s)
    {chunk : List ℤ} (hlast : (s.newText D chunk).getLast? ≠ some replacement) :
    (s.next D chunk).sentOffset = (D.settled (x.outputIds ++ chunk)).length := by
  rw [h.settled_eq, List.length_append, D.settled_eq_of_complete (D.complete_of_getLast hlast),
    DecodeStatus.next, sendable_eq_self hlast, DecodeStatus.newText]

/-- So what was sent does not go back. -/
theorem Follows.sentOffset_le {x : Session} {s : DecodeStatus} (h : Follows D prompt x s)
    {chunk : List ℤ} (hlast : (s.newText D chunk).getLast? ≠ some replacement) :
    s.sentOffset ≤ (s.next D chunk).sentOffset := by
  rw [h.sentOffset_next hlast]
  exact h.high.trans (D.settled_prefix x.outputIds chunk).length_le

/-- **The last message** emits the rest of the text, as it is trimmed. -/
theorem Follows.finish {x : Session} {s : DecodeStatus} (h : Follows D prompt x s)
    (noStopTrim toolCalls : Bool) (chunk : List ℤ) {m : Matched} (hm : ∀ t, m ≠ .token t) :
    (x.send (D.decoder noStopTrim toolCalls) prompt chunk (some m)).emitted =
      x.emitted ++ (trimText (D.decode (x.outputIds ++ chunk)) (some m) noStopTrim).drop
        s.sentOffset := by
  obtain ⟨out, hout, hcomplete, htext⟩ := h.committed
  obtain ⟨hreceive, hfinished, -⟩ := h.linked.message chunk (some m)
  have hall : D.decode (x.outputIds ++ chunk) = s.decodedText ++
      D.decode (s.decodeIds.drop s.readOffset ++ chunk) := by
    rw [hout, List.append_assoc, D.decode_append hcomplete, htext]
  have htrim : ∀ ids, trimIds toolCalls ids (some m) noStopTrim = ids := by
    intro ids
    cases m with
    | nothing => rfl
    | str _ => rfl
    | token t => exact absurd rfl (hm t)
  rw [hall, Session.send, decodeStep]
  simp only [hreceive, hfinished, Decoding.decoder, htrim, h.newText chunk]

/-- **What has been emitted.** As long as what was sent does not go back, it is the settled text
up to the offset; once that has gone back, it is longer. -/
structure Emits (D : Decoding) (prompt : List ℤ) (steady : Prop) (x : Session)
    (s : DecodeStatus) : Prop extends Follows D prompt x s where
  exact : steady → x.emitted = (D.settled x.outputIds).take s.sentOffset
  more : ¬steady → s.sentOffset < x.emitted.length

theorem emits_new (hprompt : D.Complete (promptTail prompt)) :
    Emits D prompt True .new (.start prompt) :=
  ⟨follows_new hprompt, fun _ => rfl, fun hno => absurd trivial hno⟩

/-- **One message**, and whether the offset goes back in it. -/
theorem Emits.send {steady : Prop} {x : Session} {s : DecodeStatus}
    (h : Emits D prompt steady x s) (noStopTrim toolCalls : Bool) (chunk : List ℤ) :
    Emits D prompt (steady ∧ s.sentOffset ≤ (s.next D chunk).sentOffset)
      (x.send (D.decoder noStopTrim toolCalls) prompt chunk none) (s.next D chunk) := by
  have hsent := h.toFollows.send noStopTrim toolCalls chunk
  have htake := h.take_settled chunk
  have hhigh := h.high
  have hlow := h.low
  have houtput : (x.send (D.decoder noStopTrim toolCalls) prompt chunk none).outputIds =
      x.outputIds ++ chunk := rfl
  have hemitted : (x.send (D.decoder noStopTrim toolCalls) prompt chunk none).emitted =
      x.emitted ++ (s.decodedText ++ sendable (s.newText D chunk)).drop s.sentOffset := by
    rw [List.drop_append, List.drop_eq_nil_of_le hlow, List.nil_append, Session.send,
      h.decodeStep_eq]
  have hlen : (s.decodedText ++ sendable (s.newText D chunk)).length =
      (s.next D chunk).sentOffset := List.length_append
  refine ⟨hsent, ?_, ?_⟩
  · rintro ⟨hst, hle⟩
    obtain ⟨rest, hrest⟩ := D.settled_prefix x.outputIds chunk
    have hbefore : (D.settled x.outputIds).take s.sentOffset =
        (D.settled (x.outputIds ++ chunk)).take s.sentOffset := by
      rw [← hrest, List.take_append_of_le_length hhigh]
    rw [hemitted, houtput, h.exact hst, hbefore, ← htake]
    conv_rhs => rw [← List.take_append_drop s.sentOffset
      ((D.settled (x.outputIds ++ chunk)).take (s.next D chunk).sentOffset), List.take_take,
      min_eq_left hle]
  · intro hno
    rw [hemitted, List.length_append, List.length_drop, hlen]
    by_cases hst : steady
    · have hlt : (s.next D chunk).sentOffset < s.sentOffset := by
        by_contra hle
        exact hno ⟨hst, not_lt.mp hle⟩
      rw [h.exact hst, List.length_take_of_le hhigh]
      omega
    · have hmore := h.more hst
      omega

/-- **The whole text.** When the last message trims the text to `pos` characters, the first `e`
of which are wanted, they are what has been emitted exactly when the offset did not go back, no
more than they were sent, and the text is trimmed there. -/
theorem Emits.finish_iff {steady : Prop} {x : Session} {s : DecodeStatus}
    (h : Emits D prompt steady x s) (noStopTrim toolCalls : Bool) (chunk : List ℤ) {m : Matched}
    (hm : ∀ t, m ≠ .token t) {pos e : ℕ}
    (htrim : trimText (D.decode (x.outputIds ++ chunk)) (some m) noStopTrim =
      (D.decode (x.outputIds ++ chunk)).take pos)
    (hpos : pos ≤ (D.decode (x.outputIds ++ chunk)).length) (he : e ≤ pos) :
    (x.send (D.decoder noStopTrim toolCalls) prompt chunk (some m)).emitted =
        (D.decode (x.outputIds ++ chunk)).take e ↔
      steady ∧ x.sentOffset ≤ e ∧ pos = e := by
  have hpre : D.settled x.outputIds <+: D.decode (x.outputIds ++ chunk) :=
    (D.settled_prefix _ _).trans (D.settled_prefix_decode _)
  have hhigh := h.high
  rw [h.finish noStopTrim toolCalls chunk hm, htrim, h.linked.sentOffset_eq]
  by_cases hst : steady
  · obtain ⟨rest, hrest⟩ := hpre
    have hlen : (D.settled x.outputIds).length ≤ (D.decode (x.outputIds ++ chunk)).length := by
      rw [← hrest, List.length_append]
      exact Nat.le_add_right _ _
    have htake : (D.settled x.outputIds).take s.sentOffset =
        (D.decode (x.outputIds ++ chunk)).take s.sentOffset := by
      rw [← hrest, List.take_append_of_le_length hhigh]
    rw [h.exact hst, htake]
    constructor
    · intro heq
      have hlength := congrArg List.length heq
      rw [List.length_append, List.length_drop, List.length_take_of_le (by omega),
        List.length_take_of_le hpos, List.length_take_of_le (by omega)] at hlength
      exact ⟨hst, by omega, by omega⟩
    · rintro ⟨-, hle, rfl⟩
      conv_rhs => rw [← List.take_append_drop s.sentOffset
        ((D.decode (x.outputIds ++ chunk)).take pos), List.take_take, min_eq_left hle]
  · refine iff_of_false (fun heq => ?_) fun hc => hst hc.1
    have hmore := h.more hst
    have hlength := congrArg List.length heq
    rw [List.length_append, List.length_drop, List.length_take_of_le hpos,
      List.length_take_of_le (he.trans hpos)] at hlength
    omega

/-- The whole text, when nothing is trimmed. -/
theorem Emits.finish_nothing_iff {steady : Prop} {x : Session} {s : DecodeStatus}
    (h : Emits D prompt steady x s) (noStopTrim toolCalls : Bool) (chunk : List ℤ) :
    (x.send (D.decoder noStopTrim toolCalls) prompt chunk (some .nothing)).emitted =
      D.decode (x.outputIds ++ chunk) ↔ steady := by
  have hpre : D.settled x.outputIds <+: D.decode (x.outputIds ++ chunk) :=
    (D.settled_prefix _ _).trans (D.settled_prefix_decode _)
  have hsent : x.sentOffset ≤ (D.decode (x.outputIds ++ chunk)).length := by
    rw [h.linked.sentOffset_eq]
    exact h.high.trans hpre.length_le
  have htrim : trimText (D.decode (x.outputIds ++ chunk)) (some .nothing) noStopTrim =
      (D.decode (x.outputIds ++ chunk)).take (D.decode (x.outputIds ++ chunk)).length :=
    List.take_length.symm
  have hiff := h.finish_iff noStopTrim toolCalls chunk (fun t hc => by cases hc) htrim le_rfl le_rfl
  rw [List.take_length] at hiff
  exact hiff.trans ⟨fun hc => hc.1, fun hst => ⟨hst, hsent, rfl⟩⟩

end Emitted

/-! ### Streamed text -/

section Streamed

variable {tokenBytes : ℤ → List UInt8} {prompt : List ℤ}

/-- The detokenizer of a byte-level tokenizer. -/
def byteDecoder (tokenBytes : ℤ → List UInt8) (noStopTrim toolCalls : Bool) : Decoder :=
  ⟨decodeTokens tokenBytes, noStopTrim, toolCalls⟩

/-- The tokens whose text waits for more, after a message: all since the last one whose text did not
end with a replacement character. -/
def pendingAfter (decode : List ℤ → List Char) (pending chunk : List ℤ) : List ℤ :=
  if (decode (pending ++ chunk)).getLast? = some replacement then pending ++ chunk else []

/-- **The printable text never gets shorter**, while it waits for more. -/
def Steady (decode : List ℤ → List Char) : (pending : List ℤ) → (chunks : List (List ℤ)) → Prop
  | _, [] => True
  | pending, chunk :: chunks =>
    ((decode (pending ++ chunk)).getLast? = some replacement →
      (findPrintableText (decode pending)).length ≤
        (findPrintableText (decode (pending ++ chunk))).length) ∧
    Steady decode (pendingAfter decode pending chunk) chunks

/-- **What waits at the detokenizer**: some tokens after the read offset, behind others without
text, and their printable text has been sent. -/
structure Waits (D : Decoding) (pending : List ℤ) (s : DecodeStatus) : Prop where
  ids : ∃ empty, s.decodeIds.drop s.readOffset = empty ++ pending ∧ D.Complete empty ∧
    D.decode empty = []
  sent : s.sentOffset = s.decodedText.length + (findPrintableText (D.decode pending)).length

theorem waits_start (D : Decoding) (prompt : List ℤ) : Waits D [] (.start prompt) := by
  refine ⟨⟨[], ?_, D.complete_nil, D.decode_nil⟩, ?_⟩
  · rw [DecodeStatus.start, List.drop_length]
    rfl
  · rw [D.decode_nil]
    rfl

theorem Waits.newText_eq {D : Decoding} {pending : List ℤ} {s : DecodeStatus}
    (h : Waits D pending s) (chunk : List ℤ) : s.newText D chunk = D.decode (pending ++ chunk) := by
  obtain ⟨empty, hids, hcomplete, hnil⟩ := h.ids
  rw [DecodeStatus.newText, hids, List.append_assoc, D.decode_append hcomplete, hnil,
    List.nil_append]

/-- What waits after a message. -/
theorem Waits.next {D : Decoding} {pending : List ℤ} {x : Session} {s : DecodeStatus}
    (h : Waits D pending s) (hfollows : Follows D prompt x s) (chunk : List ℤ) :
    Waits D (pendingAfter D.decode pending chunk) (s.next D chunk) := by
  obtain ⟨empty, hids, hcomplete, hnil⟩ := h.ids
  have hdrop : (s.decodeIds ++ chunk).drop s.readOffset = empty ++ (pending ++ chunk) := by
    rw [List.drop_append_of_le_length hfollows.read_le, hids, List.append_assoc]
  rw [pendingAfter, ← h.newText_eq]
  by_cases hlast : (s.newText D chunk).getLast? = some replacement
  · have hcommit : ¬Commits (s.newText D chunk) := fun hc => hc.2 hlast
    rw [if_pos hlast]
    refine ⟨⟨empty, ?_, hcomplete, hnil⟩, ?_⟩
    · simpa only [DecodeStatus.next, if_neg hcommit] using hdrop
    · simp only [DecodeStatus.next, if_neg hcommit, sendable_of_replacement hlast]
      rw [h.newText_eq]
  · rw [if_neg hlast]
    by_cases hcommit : Commits (s.newText D chunk)
    · refine ⟨⟨[], ?_, D.complete_nil, D.decode_nil⟩, ?_⟩
      · simp only [DecodeStatus.next, if_pos hcommit, List.drop_length, List.append_nil]
      · simp only [DecodeStatus.next, if_pos hcommit, sendable_eq_self hlast, D.decode_nil,
          List.length_append]
        rfl
    · -- the tokens have no text at all
      have htext : s.newText D chunk = [] := by_contra fun hne => hcommit ⟨hne, hlast⟩
      rw [h.newText_eq] at htext hlast
      refine ⟨⟨empty ++ (pending ++ chunk), ?_,
        D.complete_append hcomplete _ (D.complete_of_getLast hlast), ?_⟩, ?_⟩
      · simpa only [DecodeStatus.next, if_neg hcommit, List.append_nil] using hdrop
      · rw [D.decode_append hcomplete, hnil, htext]
        rfl
      · simp only [DecodeStatus.next, if_neg hcommit]
        rw [h.newText_eq, htext, D.decode_nil]
        rfl

/-- The offset goes back when the printable text gets shorter. -/
theorem Waits.sentOffset_le_iff {D : Decoding} {pending : List ℤ} {x : Session} {s : DecodeStatus}
    (h : Waits D pending s) (hfollows : Follows D prompt x s) (chunk : List ℤ) :
    s.sentOffset ≤ (s.next D chunk).sentOffset ↔
      ((D.decode (pending ++ chunk)).getLast? = some replacement →
        (findPrintableText (D.decode pending)).length ≤
          (findPrintableText (D.decode (pending ++ chunk))).length) := by
  by_cases hlast : (D.decode (pending ++ chunk)).getLast? = some replacement
  · rw [forall_prop_of_true hlast, h.sent, DecodeStatus.next, h.newText_eq,
      sendable_of_replacement hlast]
    exact Nat.add_le_add_iff_left
  · rw [← h.newText_eq] at hlast
    exact iff_of_true (hfollows.sentOffset_le hlast) fun hc =>
      absurd (h.newText_eq chunk ▸ hc) hlast

/-- **A list of messages.** -/
theorem Emits.run {D : Decoding} (noStopTrim toolCalls : Bool) (chunks : List (List ℤ))
    {steady : Prop} {x : Session} {s : DecodeStatus} {pending : List ℤ}
    (h : Emits D prompt steady x s) (hwaits : Waits D pending s) :
    ∃ s', Emits D prompt (steady ∧ Steady D.decode pending chunks) (chunks.foldl (fun x chunk =>
        x.send (D.decoder noStopTrim toolCalls) prompt chunk none) x) s' ∧
      (chunks.foldl (fun x chunk =>
        x.send (D.decoder noStopTrim toolCalls) prompt chunk none) x).outputIds =
          x.outputIds ++ chunks.flatten := by
  induction chunks generalizing x s pending steady with
  | nil =>
    rw [Steady, and_true]
    exact ⟨s, h, (List.append_nil _).symm⟩
  | cons chunk chunks ih =>
    have hsend := h.send noStopTrim toolCalls chunk
    rw [hwaits.sentOffset_le_iff h.toFollows] at hsend
    obtain ⟨s', hs', hout⟩ := ih hsend (hwaits.next h.toFollows chunk)
    rw [and_assoc] at hs'
    refine ⟨s', hs', ?_⟩
    rw [List.foldl_cons, hout, List.flatten_cons, ← List.append_assoc]
    rfl

/-- **Streamed text is the decoded text exactly when it is sent steadily.** For every byte-level
tokenizer, every prompt whose last tokens are complete, every list of messages and a last one
that finishes the request without a matched stop: the emitted texts, one after the other, are
what the output tokens decode to if and only if no message that leaves an unfinished character at
the end makes the printable text shorter that waits. -/
theorem emitted_eq_decode_iff (tokenBytes : ℤ → List UInt8) (noStopTrim toolCalls : Bool)
    (prompt : List ℤ) (hprompt : Complete tokenBytes (promptTail prompt)) (chunks : List (List ℤ))
    (last : List ℤ) :
    ((Session.run (byteDecoder tokenBytes noStopTrim toolCalls) prompt chunks).send
        (byteDecoder tokenBytes noStopTrim toolCalls) prompt last (some .nothing)).emitted =
      decodeTokens tokenBytes (chunks.flatten ++ last) ↔
    Steady (decodeTokens tokenBytes) [] chunks := by
  obtain ⟨s, hs, hout⟩ := (emits_new (D := byteDecoding tokenBytes) hprompt).run noStopTrim
    toolCalls chunks (waits_start _ prompt)
  have hfinish := hs.finish_nothing_iff noStopTrim toolCalls last
  rw [hout] at hfinish
  exact hfinish.trans (Iff.of_eq (true_and _))

end Streamed

/-- Three tokens: 中 and the first byte of é, the second byte of é and the first of another é,
and its second byte. -/
def splitBytes : ℤ → List UInt8
  | 1 => [0xE4, 0xB8, 0xAD, 0xC3]
  | 2 => [0xA9, 0xC3]
  | 3 => [0xA9]
  | _ => [0x20]

/-- The second message completes an é and brings another 中, so the printable text that waits gets
longer. -/
theorem emitted_eq_decode_of_longer :
    ((Session.run (byteDecoder splitBytes false false) [0] [[1], [3, 1]]).send
        (byteDecoder splitBytes false false) [0] [3] (some .nothing)).emitted =
      decodeTokens splitBytes [1, 3, 1, 3] :=
  (emitted_eq_decode_iff splitBytes false false [0] (by decide) [[1], [3, 1]] [3]).mpr
    ⟨by decide, by decide, trivial⟩

/-- **Text is sent twice**: after the first message 中 is printable, after the second one, whose
text ends with an é and an unfinished character, nothing is, and so the last message sends 中
again. -/
theorem emitted_ne_decode :
    Complete splitBytes (promptTail [0]) ∧
      ((Session.run (byteDecoder splitBytes false false) [0] [[1], [2]]).send
        (byteDecoder splitBytes false false) [0] [3] (some .nothing)).emitted = "中中éé".toList ∧
      decodeTokens splitBytes [1, 2, 3] = "中éé".toList := by
  decide

end Generation

end HtSglang
