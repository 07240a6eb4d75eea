/-
`client.c`: the command-line client. It sends the URL it is given to the proxy
as a request line and saves what comes back.

`request_line` is a local array, so what a call reads behind its end is on the
stack; `stack` is what stands there, any of it possible. The answers of the
calls on its socket are lists, as in `Socket`; the proxy has closed where
those of `recv` have run out. What is printed to stderr is left out.
-/
import SecureProxy.Lib.Memory
import SecureProxy.Lib.Scan
import SecureProxy.Parser
import SecureProxy.Socket

namespace SecureProxy

open Bytes Memory

def defaultProxyPort : Nat := 8080
def readChunkSize : Nat := 8192
def filenameSize : Nat := 300
def requestLineSize : Nat := maxUrlLen + 2

/-- An argument of the program: a C string. -/
structure Arg where
  text : List Byte
  noNul : 0 ∉ text

/-! ## The request line -/

/-- `"%s\n"` of the URL. -/
def requestText (url : Arg) : List Byte := url.text ++ [ch '\n']

/-- `req_len`: what `snprintf` returns, -1 for a length no `int` has. -/
def reqLen (url : Arg) : Int :=
  let len := (snprintf requestLineSize (requestText url)).2
  if len < 2 ^ 31 then len else -1

/-- `request_line` and what is behind it, after the `snprintf`. -/
def requestLine (stack : Mem) (url : Arg) : Mem := stores stack (printed requestLineSize (requestText url))

/-- What `main` passes to `send_all`: `req_len` bytes from `request_line` on. -/
def passedToSendAll (stack : Mem) (url : Arg) : Option (List Byte) :=
  if reqLen url < 0 then none else some (load (requestLine stack url) 0 (reqLen url).toNat)

/-- `main` passes the URL and one LF to `send_all`, and nothing that is not
stored in `request_line`. -/
structure PassesUrl (stack : Mem) (url : Arg) : Prop where
  bytes : passedToSendAll stack url = some (url.text ++ [ch '\n'])
  stored : reqLen url ≤ (snprintf requestLineSize (requestText url)).1.length

/-- A URL the proxy would accept as to its length is stored whole. -/
theorem passedToSendAll_of_le {url : Arg} (h : url.text.length ≤ maxUrlLen) (stack : Mem) :
    reqLen url = url.text.length + 1 ∧ passedToSendAll stack url = some (url.text ++ [ch '\n']) := by
  have hmax : maxUrlLen = 2048 := rfl
  have hlen : (requestText url).length = url.text.length + 1 := by simp [requestText]
  have hreq : reqLen url = url.text.length + 1 := by
    simp only [reqLen, snprintf, hlen]
    rw [if_pos (by omega)]
    rfl
  refine ⟨hreq, ?_⟩
  have hall : load (requestLine stack url) 0 ((requestText url).length + 1) = requestText url ++ [0] :=
    load_printed (by simp only [requestLineSize]; omega) stack
  rw [load_add] at hall
  have hline := (List.append_inj hall (by simp)).1
  rw [passedToSendAll, if_neg (by omega), hreq]
  rw [hlen] at hline
  exact congrArg some hline

/-- Of a longer one as much is passed as `snprintf` says it has, which is more
than it stores: the beginning, the NUL, and what stands behind the array. -/
theorem passedToSendAll_of_gt {url : Arg} (h : maxUrlLen < url.text.length) (hint : url.text.length + 1 < 2 ^ 31)
    (stack : Mem) : passedToSendAll stack url = some (url.text.take (maxUrlLen + 1) ++
      0 :: load stack requestLineSize (url.text.length - (maxUrlLen + 1))) := by
  have hlen : (requestText url).length = url.text.length + 1 := by simp [requestText]
  have hreq : reqLen url = (url.text.length + 1 : Nat) := by
    simp only [reqLen, snprintf, hlen]
    exact if_pos hint
  have hstored : (requestText url).take (requestLineSize - 1) = url.text.take (maxUrlLen + 1) :=
    List.take_append_of_le_length h
  have hline : requestLine stack url = stores stack (copy 0 (url.text.take (maxUrlLen + 1) ++ [0])) := by
    rw [requestLine, printed, if_neg (by simp [requestLineSize]), snprintf, hstored]
  have hsize : (url.text.take (maxUrlLen + 1) ++ [0]).length = requestLineSize := by
    simp only [List.length_append, List.length_take, List.length_singleton, requestLineSize]
    omega
  have hn : url.text.length + 1 = requestLineSize + (url.text.length - (maxUrlLen + 1)) := by
    simp only [requestLineSize]
    omega
  have hfront := load_copy stack 0 (url.text.take (maxUrlLen + 1) ++ [0])
  rw [hsize] at hfront
  rw [passedToSendAll, if_neg (by omega), hreq, Int.toNat_natCast, hline, hn, load_add, hfront,
    load_copy_outside (.inr (by omega)), Nat.zero_add, List.append_assoc, List.singleton_append]

theorem passesUrl_long {url : Arg} (h : maxUrlLen < url.text.length) (stack : Mem) : ¬ PassesUrl stack url := by
  intro hpass
  have hbytes := hpass.bytes
  by_cases hint : url.text.length + 1 < 2 ^ 31
  · rw [passedToSendAll_of_gt h hint, Option.some.injEq] at hbytes
    have hnul : 0 ∈ url.text ++ [ch '\n'] := hbytes ▸ by simp
    rcases List.mem_append.1 hnul with hnul | hnul
    · exact url.noNul hnul
    · simp [ch] at hnul
  · have hreq : reqLen url = -1 := if_neg (by simpa [snprintf, requestText] using hint)
    rw [passedToSendAll, if_pos (by omega)] at hbytes
    cases hbytes

/-- One byte longer than the proxy allows. -/
def longUrl : Arg :=
  ⟨List.replicate (maxUrlLen + 1) (ch 'a'), fun h => absurd (List.eq_of_mem_replicate h) (by decide)⟩

theorem passesUrl_longUrl : ¬ PassesUrl (fun _ => 0) longUrl :=
  passesUrl_long (Nat.lt_of_lt_of_eq (Nat.lt_succ_self _) List.length_replicate.symm) _

/-- The URL and one LF are passed, all stored, exactly where the URL is no
longer than the proxy allows. -/
theorem passesUrl_iff (stack : Mem) (url : Arg) : PassesUrl stack url ↔ url.text.length ≤ maxUrlLen := by
  constructor
  · intro h
    by_contra hlong
    exact passesUrl_long (by omega) stack h
  · intro h
    obtain ⟨hreq, hbytes⟩ := passedToSendAll_of_le h stack
    refine ⟨hbytes, ?_⟩
    rw [hreq]
    simp only [snprintf, requestLineSize, requestText, List.length_take, List.length_append, List.length_singleton]
    omega

/-! ## The file -/

def hostStart (url : Arg) : List Byte :=
  match Scan.strstr (bytes "://") url.text with
  | some s => s.drop 3
  | none => url.text

/-- A byte the host ends at. -/
def endsHost (b : Byte) : Bool := b == ch '/' || b == ch ':' || b == ch '?' || b == ch '#'

/-- The bytes the loop copies; five and the NUL are kept free. -/
def hostName (outLen : Nat) (url : Arg) : List Byte :=
  ((hostStart url).takeWhile fun b => !endsHost b).take (outLen - 6)

/-- The stores of `derive_output_filename` into `out`. -/
def deriveOutputFilename (outLen : Nat) (url : Arg) : List Write :=
  let name := hostName outLen url
  copy 0 name ++
    if name.isEmpty then printed outLen (bytes "response.html") else copy name.length (bytes ".html" ++ [0])

/-- The file name it leaves there. -/
def outputFilename (outLen : Nat) (url : Arg) : List Byte :=
  let name := hostName outLen url
  if name.isEmpty then (snprintf outLen (bytes "response.html")).1 else name ++ bytes ".html"

theorem hostName_length {outLen : Nat} {url : Arg} (h : hostName outLen url ≠ []) :
    (hostName outLen url).length + 6 ≤ outLen := by
  have hle : (hostName outLen url).length ≤ outLen - 6 := by simp [hostName]
  have hpos := List.length_pos_iff.2 h
  omega

/-- Whatever the URL, the name stays within the array and is a C string there. -/
theorem deriveOutputFilename_stores (outLen : Nat) (url : Arg) (m : Mem) :
    (∀ w ∈ deriveOutputFilename outLen url, w.index < outLen) ∧
      (0 < outLen → load (stores m (deriveOutputFilename outLen url)) 0 ((outputFilename outLen url).length + 1) =
        outputFilename outLen url ++ [0]) := by
  unfold deriveOutputFilename outputFilename
  by_cases hname : hostName outLen url = []
  · simp only [hname, copy, List.isEmpty_nil, if_true, List.nil_append]
    refine ⟨fun w hw => index_of_mem_printed hw, fun hpos => ?_⟩
    have hlen : ((snprintf outLen (bytes "response.html")).1).length + 1 =
        ((snprintf outLen (bytes "response.html")).1 ++ [0]).length := by simp
    rw [printed, if_neg (by omega), hlen, load_copy]
  · have hroom := hostName_length hname
    have hfalse : (hostName outLen url).isEmpty = false := by simpa using hname
    have hhtml : (bytes ".html" ++ [0]).length = 6 := by decide
    simp only [hfalse, Bool.false_eq_true, if_false, List.mem_append, stores_append]
    refine ⟨fun w hw => ?_, fun _ => ?_⟩
    · rcases hw with hw | hw
      · have := (index_of_mem_copy hw).2
        omega
      · have := (index_of_mem_copy hw).2
        omega
    · have hlen : (hostName outLen url ++ bytes ".html").length + 1 =
          (hostName outLen url).length + (bytes ".html" ++ [0]).length := by
        simp only [List.length_append, List.length_singleton]
        omega
      rw [hlen, load_add, load_copy_outside (.inl (by omega)), load_copy, Nat.zero_add, load_copy,
        ← List.append_assoc]

/-! ## The proxy's port -/

/-- The sign of a number, and what is behind it. -/
def signOf : List Byte → Bool × List Byte
  | [] => (false, [])
  | b :: s => if b = ch '-' then (true, s) else if b = ch '+' then (false, s) else (false, b :: s)

/-- `strtol` in base 10: the number, held within `long`, and the text behind it. -/
def strtol (s : List Byte) : Int × List Byte :=
  let (negative, t) := signOf (s.dropWhile isSpace)
  let digits := t.takeWhile isDigit
  if digits.isEmpty then (0, s)
  else (if negative then max (-2 ^ 63) (-numVal digits) else min (2 ^ 63 - 1) (numVal digits), t.dropWhile isDigit)

/-- `proxy_port`, with the value of `PROXY_PORT`. -/
def proxyPort : Option (List Byte) → Nat
  | none => defaultProxyPort
  | some e =>
    if e.isEmpty then defaultProxyPort
    else
      let (v, rest) := strtol e
      if rest.isEmpty ∧ 1 ≤ v ∧ v ≤ 65535 then v.toNat else defaultProxyPort

theorem proxyPort_range (e : Option (List Byte)) : 1 ≤ proxyPort e ∧ proxyPort e ≤ 65535 := by
  have hdefault : 1 ≤ defaultProxyPort ∧ defaultProxyPort ≤ 65535 := by decide
  cases e with
  | none => exact hdefault
  | some e =>
    have hcases : proxyPort (some e) = defaultProxyPort ∨
        (1 ≤ (strtol e).1 ∧ (strtol e).1 ≤ 65535) ∧ proxyPort (some e) = (strtol e).1.toNat := by
      rw [proxyPort]
      split
      · exact .inl rfl
      · dsimp only
        split
        · rename_i hv
          exact .inr ⟨hv.2, rfl⟩
        · exact .inl rfl
    rcases hcases with h | ⟨hv, h⟩
    · rw [h]
      exact hdefault
    · rw [h]
      omega

/-! ## `main` -/

/-- What the calls of `main` answer. -/
structure MainEnv where
  proxyPort : Option (List Byte) := none
  fopen : List Byte → Bool
  socket : Bool
  connect : Nat → Bool
  stack : Mem
  writes : List WriteOutcome
  recvs : List (RecvOutcome readChunkSize)

inductive MainEvent where
  | fopen (filename : List Byte)
  | connect (port : Nat)
  | sendAll (passed : List Byte) (calls : List WriteCall)
  | fwrite (chunk : List Byte)
  | fclose
  | close
  /-- The line printed at the end. -/
  | saved (filename : List Byte) (total : Nat)
  deriving DecidableEq, Repr

structure MainResult where
  exitCode : Nat
  events : List MainEvent
  deriving DecidableEq, Repr

/-- The receive loop: the chunks it gets, and whether it ends without error. -/
def receiveLoop : List (RecvOutcome readChunkSize) → List (List Byte) × Bool
  | [] | .eof :: _ => ([], true)
  | .data c :: rs => (c.bytes :: (receiveLoop rs).1, (receiveLoop rs).2)
  | .eagain :: _ | .eintr :: _ | .err :: _ => ([], false)

/-- `main` from the request on; the file is open and the proxy connected. -/
def exchange (env : MainEnv) (url : Arg) (filename : List Byte) : MainResult :=
  match passedToSendAll env.stack url with
  | none => ⟨1, [.fclose, .close]⟩
  | some passed =>
    let sent := sendAll passed env.writes
    let send := MainEvent.sendAll passed sent.calls
    if sent.rc = none then ⟨1, [send, .fclose, .close]⟩
    else
      let (chunks, ok) := receiveLoop env.recvs
      let got := send :: chunks.map .fwrite ++ [.fclose, .close]
      if ok then ⟨0, got ++ [.saved filename chunks.flatten.length]⟩ else ⟨1, got⟩

/-- `connect_to_proxy`, which ends the program where it fails, and the rest. -/
def connectAndExchange (env : MainEnv) (url : Arg) (filename : List Byte) : MainResult :=
  let port := SecureProxy.proxyPort env.proxyPort
  if !env.socket then ⟨1, []⟩
  else if !env.connect port then ⟨1, [.connect port, .close]⟩
  else
    let r := exchange env url filename
    { r with events := .connect port :: r.events }

def openAndExchange (env : MainEnv) (url : Arg) (filename : List Byte) : MainResult :=
  if !env.fopen filename then ⟨2, [.fopen filename]⟩
  else
    let r := connectAndExchange env url filename
    { r with events := .fopen filename :: r.events }

/-- `main`, with the arguments behind the program's name. -/
def clientMain (env : MainEnv) : List Arg → MainResult
  | [url] => openAndExchange env url (outputFilename filenameSize url)
  | [url, file] =>
    if file.text.length ≥ filenameSize then ⟨2, []⟩
    else openAndExchange env url (snprintf filenameSize file.text).1
  | _ => ⟨2, []⟩

/-- The bytes a run has written to its file. -/
def written (events : List MainEvent) : List Byte :=
  events.flatMap fun
    | .fwrite chunk => chunk
    | _ => []

/-- What a run has sent, and what it says it has saved. -/
structure Exchanged (env : MainEnv) (url : Arg) (r : MainResult) : Prop where
  sent : ∀ passed calls, .sendAll passed calls ∈ r.events →
    passedToSendAll env.stack url = some passed ∧ calls = (sendAll passed env.writes).calls
  saved : ∀ filename total, .saved filename total ∈ r.events → r.exitCode = 0 ∧ total = (written r.events).length

theorem written_chunks (chunks : List (List Byte)) : written (chunks.map .fwrite) = chunks.flatten := by
  simp [written, List.flatMap_def, Function.comp_def]

/-- It is the request line that is sent, once, and the total printed is that of
the file. -/
theorem exchange_exchanged (env : MainEnv) (url : Arg) (filename : List Byte) :
    Exchanged env url (exchange env url filename) := by
  unfold exchange
  cases hpassed : passedToSendAll env.stack url with
  | none => exact ⟨by simp, by simp⟩
  | some passed =>
    dsimp only
    split
    · exact ⟨by simp [hpassed], by simp⟩
    · split
      · refine ⟨by simp [hpassed], fun name total h => ⟨rfl, ?_⟩⟩
        have hsaved : name = filename ∧ total = (receiveLoop env.recvs).1.flatten.length := by simpa using h
        rw [hsaved.2, ← written_chunks]
        simp [written]
      · exact ⟨by simp [hpassed], by simp⟩

/-- The calls before that do not count. -/
theorem Exchanged.cons {env : MainEnv} {url : Arg} {r : MainResult} (h : Exchanged env url r) {e : MainEvent}
    (he : (∃ filename, e = .fopen filename) ∨ ∃ port, e = .connect port) :
    Exchanged env url { r with events := e :: r.events } := by
  rcases he with ⟨filename, rfl⟩ | ⟨port, rfl⟩
  · exact ⟨by simpa using h.sent, by simpa [written] using h.saved⟩
  · exact ⟨by simpa using h.sent, by simpa [written] using h.saved⟩

theorem openAndExchange_exchanged (env : MainEnv) (url : Arg) (filename : List Byte) :
    Exchanged env url (openAndExchange env url filename) := by
  unfold openAndExchange
  split
  · exact ⟨by simp, by simp⟩
  · refine Exchanged.cons ?_ (.inl ⟨_, rfl⟩)
    unfold connectAndExchange
    dsimp only
    split
    · exact ⟨by simp, by simp⟩
    · split
      · exact ⟨by simp, by simp⟩
      · exact (exchange_exchanged env url filename).cons (.inr ⟨_, rfl⟩)

theorem clientMain_exchanged (env : MainEnv) (url : Arg) (rest : List Arg) :
    Exchanged env url (clientMain env (url :: rest)) := by
  match rest with
  | [] => exact openAndExchange_exchanged env url _
  | [file] =>
    simp only [clientMain]
    split
    · exact ⟨by simp, by simp⟩
    · exact openAndExchange_exchanged env url _
  | _ :: _ :: _ => exact ⟨by simp [clientMain], by simp [clientMain]⟩

end SecureProxy
