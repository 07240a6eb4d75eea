/-
`decision_build_block_response` (`decision.c`) with its stores: what it writes
into `body[1024]` and into the caller's `out`, and that what is there when it
succeeds is one HTTP response whose header tells the truth about its body.
-/
import SecureProxy.CacheControl
import SecureProxy.CacheHeader
import SecureProxy.Decision
import SecureProxy.Lib.Memory
import SecureProxy.Lib.Scan

namespace SecureProxy

open Bytes Lines Memory

/-- `sizeof(body)`. -/
def blockBodySize : Nat := 1024

/-- The value returned, and the stores into `out`. -/
structure BlockResponse where
  ret : Nat
  writes : List Write
  deriving DecidableEq, Repr

/-- `decision_build_block_response`; `stack` is what stood in `body` before. -/
def decisionBuildBlockResponseStores (stack : Mem) (outLen : Nat) (requestId : UInt64) (reason : DecisionReason) :
    BlockResponse :=
  let body := stores stack (printed blockBodySize (blockBody requestId reason))
  let blen := (snprintf blockBodySize (blockBody requestId reason)).2
  if blen ≥ blockBodySize then ⟨0, []⟩
  else
    let header := blockHeader requestId blen
    let hlen := (snprintf outLen header).2
    if hlen + blen + 1 > outLen then ⟨0, printed outLen header⟩
    else ⟨hlen + blen, printed outLen header ++ copy hlen (load body 0 (blen + 1))⟩

/-- What stands in `out` of the response, after the call. -/
def BlockResponse.page (r : BlockResponse) (out : Mem) : List Byte := load (stores out r.writes) 0 r.ret

/-- The values of a field in a header, without the blanks around them. -/
def fieldValues (name : String) (raw : List (List Byte)) : List (List Byte) :=
  ((fieldLines raw).filter (named name ·)).map fun line => trim (line.drop (bytes name).length)

/-- The text of the element the page shows the request ID in. -/
def shownId (body : List Byte) : Option (List Byte) :=
  (Scan.strstr (bytes "<code id=\"request-id\">") body).map fun s =>
    (s.drop (bytes "<code id=\"request-id\">").length).takeWhile (· != ch '<')

/-! ## The text -/

/-- A number is printed without the byte `b`. -/
theorem notMem_decimal {b : Byte} (hb : isDigit b = false) (n : Nat) : b ∉ decimal n := by
  intro hmem
  rw [isDigit_of_mem_decimal hmem] at hb
  cases hb

variable (id : UInt64) (reason : DecisionReason)

/-- The page up to the request ID. -/
def blockBodyFront : List Byte :=
  blockBodyOpen ++ bytes (decisionReasonName reason) ++ bytes "\">" ++ bytes (reasonHeadline reason) ++
    bytes "</span></p>\n<p>" ++ bytes (reasonExplanation reason) ++ bytes "</p>\n<p>Request ID: "

theorem blockBody_eq : blockBody id reason =
    blockBodyFront reason ++ (bytes "<code id=\"request-id\">" ++ (decimal id.toNat ++ blockBodyClose)) := by
  have hlast : bytes "</p>\n<p>Request ID: <code id=\"request-id\">" =
      bytes "</p>\n<p>Request ID: " ++ bytes "<code id=\"request-id\">" := by
    rw [bytes_ofList, bytes_ofList, bytes_ofList]
    rfl
  simp only [blockBody, blockBodyFront, hlast, List.append_assoc]

/-- There is no other `<code>` in it. -/
theorem blockBodyFront_code : ¬ [ch '<', ch 'c'] <:+: blockBodyFront reason ++ [ch '<'] := by
  cases reason <;> simp only [blockBodyFront, blockBodyOpen, decisionReasonName, reasonHeadline, reasonExplanation]
  all_goals
    repeat rw [bytes_ofList]
    decide +kernel

theorem shownId_blockBody : shownId (blockBody id reason) = some (decimal id.toNat) := by
  have hcode : bytes "<code id=\"request-id\">" = ch '<' :: ch 'c' :: bytes "ode id=\"request-id\">" := by
    rw [bytes_ofList, bytes_ofList]
    rfl
  have hclose : blockBodyClose = ch '<' :: blockBodyClose.tail := by
    rw [blockBodyClose, bytes_ofList]
    rfl
  rw [shownId, blockBody_eq, hcode, Scan.strstr_first (blockBodyFront_code reason), Option.map_some, List.drop_left,
    hclose, takeWhile_line (notMem_decimal (by decide) _)]

/-- The lines of the header. -/
def blockHeaderLines (bodyLen : Nat) : List (List Byte) :=
  [bytes "HTTP/1.1 403 Forbidden\r", bytes "Content-Type: text/html; charset=utf-8\r",
    bytes "Content-Length: " ++ decimal bodyLen ++ [ch '\r'], bytes "X-Request-Id: " ++ decimal id.toNat ++ [ch '\r'],
    bytes "Cache-Control: no-store\r", bytes "X-Content-Type-Options: nosniff\r", bytes "Connection: close\r", [ch '\r']]

theorem render_blockHeaderLines (bodyLen : Nat) : render (ch '\n') (blockHeaderLines id bodyLen) = blockHeader id bodyLen := by
  have hopen : blockHeaderOpen = bytes "HTTP/1.1 403 Forbidden\r" ++ [ch '\n'] ++
      bytes "Content-Type: text/html; charset=utf-8\r" ++ [ch '\n'] ++ bytes "Content-Length: " := by
    rw [blockHeaderOpen]
    repeat rw [bytes_ofList]
    rfl
  have hid : bytes "\r\nX-Request-Id: " = [ch '\r', ch '\n'] ++ bytes "X-Request-Id: " := by
    rw [bytes_ofList, bytes_ofList]
    rfl
  have hclose : blockHeaderClose = [ch '\r', ch '\n'] ++ bytes "Cache-Control: no-store\r" ++ [ch '\n'] ++
      bytes "X-Content-Type-Options: nosniff\r" ++ [ch '\n'] ++ bytes "Connection: close\r" ++ [ch '\n'] ++
      [ch '\r', ch '\n'] := by
    rw [blockHeaderClose]
    repeat rw [bytes_ofList]
    rfl
  simp only [blockHeaderLines, render_cons, render_nil, blockHeader, hopen, hid, hclose, List.append_assoc,
    List.cons_append, List.nil_append]

/-- A line with a number in it does not end the header. -/
theorem numberLine_plain (name : List Byte) (hlf : ch '\n' ∉ name) (hlen : 2 ≤ name.length) (n : Nat) :
    ch '\n' ∉ name ++ decimal n ++ [ch '\r'] ∧ isEmptyLine (name ++ decimal n ++ [ch '\r']) = false := by
  constructor
  · have hdigits := notMem_decimal (b := ch '\n') (by decide) n
    have hcr : ch '\n' ≠ ch '\r' := by decide
    simp [hlf, hdigits, hcr]
  · rw [Bool.eq_false_iff]
    intro hempty
    have hle : (name ++ decimal n ++ [ch '\r']).length ≤ 1 := by
      rcases isEmptyLine_iff.1 hempty with h | h <;> rw [h] <;> simp
    simp only [List.length_append, List.length_singleton] at hle
    omega

theorem blockHeaderLines_block (bodyLen : Nat) : IsBlock (ch '\n') isEmptyLine (blockHeaderLines id bodyLen) := by
  obtain ⟨hlen, hlen'⟩ := numberLine_plain (bytes "Content-Length: ") (by decide) (by decide) bodyLen
  obtain ⟨hid, hid'⟩ := numberLine_plain (bytes "X-Request-Id: ") (by decide) (by decide) id.toNat
  exact .cons (by decide) (by decide) <| .cons (by decide) (by decide) <| .cons hlen hlen' <| .cons hid hid' <|
    .cons (by decide) (by decide) <| .cons (by decide) (by decide) <| .cons (by decide) (by decide) <|
    .last (by decide) (by decide)

theorem dropCr_concat (line : List Byte) : dropCr (line ++ [ch '\r']) = line := by
  simp [dropCr]

theorem fieldLines_blockHeader (bodyLen : Nat) : fieldLines (blockHeaderLines id bodyLen) =
    [bytes "Content-Type: text/html; charset=utf-8", bytes "Content-Length: " ++ decimal bodyLen,
      bytes "X-Request-Id: " ++ decimal id.toNat, bytes "Cache-Control: no-store",
      bytes "X-Content-Type-Options: nosniff", bytes "Connection: close", []] := by
  simp only [fieldLines, blockHeaderLines, List.map_cons, List.map_nil, List.tail_cons, dropCr_concat]
  repeat rw [bytes_ofList]
  rfl

/-- What follows a name does not matter to it. -/
theorem named_append {name : String} {line : List Byte} (h : (bytes name).length ≤ line.length) (rest : List Byte) :
    named name (line ++ rest) ↔ named name line := by
  simp only [named, List.map_append]
  refine ⟨fun hpre => ?_, fun hpre => hpre.trans (List.prefix_append ..)⟩
  exact List.prefix_of_prefix_length_le hpre (List.prefix_append ..) (by simpa using h)

/-- The value of a field that holds a number. -/
theorem trim_decimal (n : Nat) : trim (ch ' ' :: decimal n) = decimal n := by
  have hblank : ∀ b ∈ decimal n, isBlank b = false := fun b hb => by
    have hdigit := isDigit_of_mem_decimal hb
    rw [Bool.eq_false_iff]
    intro h
    rcases Bool.or_eq_true_iff.1 h with h | h
    · rw [beq_iff_eq.1 h] at hdigit
      exact absurd hdigit (by decide)
    · rw [beq_iff_eq.1 h] at hdigit
      exact absurd hdigit (by decide)
  rw [trim, List.dropWhile_cons_of_pos (by decide), List.dropWhile_eq_self_iff.2, List.rdropWhile_eq_self_iff.2]
  · intro hne
    simp [hblank _ (List.getLast_mem hne)]
  · intro hpos
    simp [hblank _ (List.getElem_mem hpos)]

/-- A field has the first letter of its name. -/
theorem named_head {name : String} {b : Byte} (line : List Byte) (h : named name (b :: line)) :
    ∀ c ∈ (bytes name).head?, c = toLower b := by
  obtain ⟨rest, hrest⟩ := h
  intro c hc
  cases hname : bytes name with
  | nil =>
    rw [hname] at hc
    cases hc
  | cons c' name' =>
    rw [hname] at hc hrest
    cases hc
    exact (List.cons.inj hrest).1

/-- A field that only one line has, and that holds a number. -/
theorem fieldValues_number {name : String} {raw before after : List (List Byte)} {label : List Byte} {n : Nat}
    (hraw : fieldLines raw = before ++ (label ++ ch ' ' :: decimal n) :: after) (hlen : label.length = (bytes name).length)
    (hlabel : named name label) (hbefore : ∀ line ∈ before, ¬ named name line) (hafter : ∀ line ∈ after, ¬ named name line) :
    fieldValues name raw = [decimal n] := by
  have hnamed : named name (label ++ ch ' ' :: decimal n) := (named_append hlen.ge _).2 hlabel
  have hnone : ∀ lines : List (List Byte), (∀ line ∈ lines, ¬ named name line) →
      lines.filter (named name ·) = [] := fun lines h => List.filter_eq_nil_iff.2 (by simpa using h)
  rw [fieldValues, hraw, List.filter_append, hnone before hbefore, List.filter_cons_of_pos (by simpa using hnamed),
    hnone after hafter, List.nil_append, List.map_singleton, ← hlen, List.drop_left, trim_decimal]

/-- The two lines of the header that hold a number. -/
theorem numberLine_eq (n : Nat) :
    bytes "Content-Length: " ++ decimal n = bytes "Content-Length:" ++ ch ' ' :: decimal n ∧
      bytes "X-Request-Id: " ++ decimal n = bytes "X-Request-Id:" ++ ch ' ' :: decimal n := by
  constructor <;> simp [bytes]

theorem fieldValues_contentLength (bodyLen : Nat) :
    fieldValues "content-length:" (blockHeaderLines id bodyLen) = [decimal bodyLen] := by
  have hid : ¬ named "content-length:" (bytes "X-Request-Id: " ++ decimal id.toNat) := fun h =>
    absurd (named_head (bytes "-Request-Id: " ++ decimal id.toNat) h (ch 'c') rfl) (by decide)
  have hraw := fieldLines_blockHeader id bodyLen
  rw [(numberLine_eq bodyLen).1] at hraw
  refine @fieldValues_number _ _ [_] _ _ _ hraw (by decide) (by decide) (by decide) ?_
  rw [List.forall_mem_cons]
  exact ⟨hid, by decide⟩

theorem fieldValues_requestId (bodyLen : Nat) :
    fieldValues "x-request-id:" (blockHeaderLines id bodyLen) = [decimal id.toNat] := by
  have hlen : ¬ named "x-request-id:" (bytes "Content-Length: " ++ decimal bodyLen) := fun h =>
    absurd (named_head (bytes "ontent-Length: " ++ decimal bodyLen) h (ch 'x') rfl) (by decide)
  have hraw := fieldLines_blockHeader id bodyLen
  rw [(numberLine_eq id.toNat).2] at hraw
  refine @fieldValues_number _ _ [_, _] _ _ _ hraw (by decide) (by decide) ?_ (by decide)
  rw [List.forall_mem_cons]
  exact ⟨by decide, by simpa using hlen⟩

/-! ## The stores -/

/-- The header of the page. -/
def blockPageHeader : List Byte := blockHeader id (blockBody id reason).length

/-- What the response takes, with its NUL. -/
def blockPageSize : Nat := (blockPageHeader id reason).length + (blockBody id reason).length + 1

theorem blockPageSize_le : blockPageSize id reason ≤ 2048 := by
  have hbody := blockBody_length_lt id reason
  have hheader := blockHeader_length_lt id hbody
  simp only [blockPageSize, blockPageHeader]
  omega

variable (stack out : Mem) (outLen : Nat)

/-- The body is never cut, so there are two cases. -/
theorem blockResponse_eq : decisionBuildBlockResponseStores stack outLen id reason =
    if blockPageSize id reason > outLen then ⟨0, printed outLen (blockPageHeader id reason)⟩
    else ⟨(blockPageHeader id reason).length + (blockBody id reason).length,
      printed outLen (blockPageHeader id reason) ++ copy (blockPageHeader id reason).length (blockBody id reason ++ [0])⟩ := by
  have hbody := blockBody_length_lt id reason
  have hfits : (blockBody id reason).length < blockBodySize := Nat.lt_of_lt_of_le hbody (by decide)
  simp only [decisionBuildBlockResponseStores, snprintf, load_printed hfits]
  rw [if_neg (Nat.not_le.2 hfits)]
  rfl

/-- What is in `out` when there is room: the header, over its NUL the body, and
a NUL. -/
theorem load_blockResponse (h : blockPageSize id reason ≤ outLen) :
    load (stores out (decisionBuildBlockResponseStores stack outLen id reason).writes) 0 (blockPageSize id reason) =
      blockPageHeader id reason ++ blockBody id reason ++ [0] := by
  have hroom : (blockPageHeader id reason).length < outLen := by
    simp only [blockPageSize] at h
    omega
  have hheader := load_printed hroom out
  rw [load_add] at hheader
  have hfront := (List.append_inj hheader (by simp)).1
  have hsize : blockPageSize id reason = (blockPageHeader id reason).length + (blockBody id reason ++ [0]).length := by
    simp [blockPageSize, Nat.add_assoc]
  rw [blockResponse_eq, if_neg (Nat.not_lt.2 h), stores_append, hsize, load_add,
    load_copy_outside (.inl (Nat.le_of_eq (Nat.zero_add _))), hfront, Nat.zero_add, load_copy, List.append_assoc]

/-- What the call promises of its result `r`, given `out`. -/
structure BlockResponseOk (r : BlockResponse) : Prop where
  /-- The body is never truncated. -/
  whole : (snprintf blockBodySize (blockBody id reason)).1 = blockBody id reason
  refused : outLen < (blockPageHeader id reason).length + (blockBody id reason).length + 1 → r.ret = 0
  built : (blockPageHeader id reason).length + (blockBody id reason).length + 1 ≤ outLen →
    r.ret = (blockPageHeader id reason).length + (blockBody id reason).length ∧
      r.page out = blockPageHeader id reason ++ blockBody id reason ∧ stores out r.writes r.ret = 0
  inBounds : ∀ w ∈ r.writes, w.index < outLen
  enough : 2048 ≤ outLen → r.ret ≠ 0
  /-- The page is cut at its first empty line; what the header says is so. -/
  page : r.ret ≠ 0 → ∃ raw body shown, HeaderBlock (r.page out) raw body ∧
    fieldValues "content-length:" raw = [decimal body.length] ∧
    fieldValues "x-request-id:" raw = [shown] ∧ shownId body = some shown ∧ shown = decimal id.toNat

/-- The page is one response: its header ends at the first empty line. -/
theorem blockPage_headerBlock : HeaderBlock (blockPageHeader id reason ++ blockBody id reason)
    (blockHeaderLines id (blockBody id reason).length) (blockBody id reason) :=
  ⟨blockHeaderLines_block id _, by rw [render_blockHeaderLines, blockPageHeader]⟩

theorem blockResponse_inBounds : ∀ w ∈ (decisionBuildBlockResponseStores stack outLen id reason).writes,
    w.index < outLen := by
  intro w hw
  rw [blockResponse_eq] at hw
  split at hw
  · exact index_of_mem_printed hw
  · rename_i hroom
    rcases List.mem_append.1 hw with hw | hw
    · exact index_of_mem_printed hw
    · have := (index_of_mem_copy hw).2
      simp only [List.length_append, List.length_singleton] at this
      simp only [blockPageSize] at hroom
      omega

/-- There is room: all of the page, and the NUL. -/
theorem blockResponse_built (h : blockPageSize id reason ≤ outLen) :
    let r := decisionBuildBlockResponseStores stack outLen id reason
    r.ret = (blockPageHeader id reason).length + (blockBody id reason).length ∧
      r.page out = blockPageHeader id reason ++ blockBody id reason ∧ stores out r.writes r.ret = 0 := by
  intro r
  have hret : r.ret = (blockPageHeader id reason).length + (blockBody id reason).length := by
    simp only [r, blockResponse_eq, if_neg (Nat.not_lt.2 h)]
  have hload := load_blockResponse id reason stack out outLen h
  rw [show blockPageSize id reason = r.ret + 1 by rw [hret]; rfl, load_add] at hload
  obtain ⟨hpage, hnul⟩ := List.append_inj hload (by simp [hret])
  refine ⟨hret, hpage, ?_⟩
  simpa [load] using hnul

theorem blockResponse_refused (h : outLen < blockPageSize id reason) :
    (decisionBuildBlockResponseStores stack outLen id reason).ret = 0 := by
  rw [blockResponse_eq, if_pos h]

/-- It returns 0 only where it refuses. -/
theorem blockResponse_ret_ne_zero (h : blockPageSize id reason ≤ outLen) :
    (decisionBuildBlockResponseStores stack outLen id reason).ret ≠ 0 := by
  have hopen : blockHeaderOpen ≠ [] := by decide
  rw [(blockResponse_built id reason stack stack outLen h).1]
  simp [blockPageHeader, blockHeader, hopen]

/-- It is what `decisionBuildBlockResponse` says. -/
theorem decisionBuildBlockResponse_page : decisionBuildBlockResponse outLen id reason =
    if (decisionBuildBlockResponseStores stack outLen id reason).ret = 0 then none
    else some ((decisionBuildBlockResponseStores stack outLen id reason).page out) := by
  have hbody : ¬ (blockBody id reason).length ≥ 1024 := by
    have := blockBody_length_lt id reason
    omega
  simp only [decisionBuildBlockResponse, hbody, if_false]
  by_cases h : blockPageSize id reason ≤ outLen
  · obtain ⟨-, hpage, -⟩ := blockResponse_built id reason stack out outLen h
    rw [if_neg (blockResponse_ret_ne_zero id reason stack outLen h), hpage]
    exact if_neg (Nat.not_lt.2 h)
  · rw [if_pos (blockResponse_refused id reason stack outLen (Nat.not_le.1 h))]
    exact if_pos (Nat.not_le.1 h)

/-- **The block page.** -/
theorem decisionBuildBlockResponse_ok : BlockResponseOk id reason out outLen
    (decisionBuildBlockResponseStores stack outLen id reason) where
  whole := by
    have := blockBody_length_lt id reason
    exact List.take_of_length_le (Nat.le_trans (Nat.le_of_lt this) (by decide))
  refused h := blockResponse_refused id reason stack outLen h
  built h := blockResponse_built id reason stack out outLen h
  inBounds := blockResponse_inBounds id reason stack outLen
  enough h := blockResponse_ret_ne_zero id reason stack outLen ((blockPageSize_le id reason).trans h)
  page h := by
    have hroom : blockPageSize id reason ≤ outLen := by
      by_contra hlt
      exact h (blockResponse_refused id reason stack outLen (Nat.not_le.1 hlt))
    obtain ⟨-, hpage, -⟩ := blockResponse_built id reason stack out outLen hroom
    rw [hpage]
    exact ⟨_, _, _, blockPage_headerBlock id reason, fieldValues_contentLength id _, fieldValues_requestId id _,
      shownId_blockBody id reason, rfl⟩

end SecureProxy
