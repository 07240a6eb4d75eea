/-
The request the proxy sends to an origin. For a URL the parser accepted it
fits its buffer, and it is four lines and no more: what the client chose
stands in the path and in the `Host` line, without a byte that could end a
line or a word.
-/
import SecureProxy.FetchFacts

namespace SecureProxy

open Bytes

/-- The lines of the request. -/
def requestLines (url : ParsedUrl) : List (List Byte) :=
  [bytes "GET " ++ url.path ++ bytes " HTTP/1.0", bytes "Host: " ++ url.host, bytes "Connection: close", []]

theorem originRequest_eq (url : ParsedUrl) : originRequest url = (requestLines url).flatMap (· ++ bytes "\r\n") := by
  have hhost : bytes " HTTP/1.0\r\nHost: " = bytes " HTTP/1.0" ++ bytes "\r\n" ++ bytes "Host: " := by decide
  have hclose : bytes "\r\nConnection: close\r\n\r\n" =
      bytes "\r\n" ++ bytes "Connection: close" ++ bytes "\r\n" ++ bytes "\r\n" := by decide
  simp [originRequest, requestLines, hhost, hclose]

/-- No line of the request holds a line end. -/
theorem requestLines_plain {url : ParsedUrl} (hok : UrlOk url) :
    ∀ line ∈ requestLines url, ch '\r' ∉ line ∧ ch '\n' ∉ line := by
  have hhost : ch '\r' ∉ url.host ∧ ch '\n' ∉ url.host :=
    ⟨fun hm => (isParsedHostByte_not_delim (hok.hostBytes _ hm)).2.2.1 rfl,
      fun hm => (isParsedHostByte_not_delim (hok.hostBytes _ hm)).2.2.2.1 rfl⟩
  have hpath : ch '\r' ∉ url.path ∧ ch '\n' ∉ url.path :=
    ⟨fun hm => absurd (hok.pathBytes _ hm).1 (by decide), fun hm => absurd (hok.pathBytes _ hm).1 (by decide)⟩
  have hlits : (ch '\r' ∉ bytes "GET " ∧ ch '\n' ∉ bytes "GET ") ∧
      (ch '\r' ∉ bytes " HTTP/1.0" ∧ ch '\n' ∉ bytes " HTTP/1.0") ∧
      (ch '\r' ∉ bytes "Host: " ∧ ch '\n' ∉ bytes "Host: ") ∧
      ch '\r' ∉ bytes "Connection: close" ∧ ch '\n' ∉ bytes "Connection: close" := by decide
  simp [requestLines, hhost, hpath, hlits]

/-- The path is one word. -/
theorem requestLine_words {url : ParsedUrl} (hok : UrlOk url) :
    (bytes "GET " ++ url.path ++ bytes " HTTP/1.0").splitOn (ch ' ') = [bytes "GET", url.path, bytes "HTTP/1.0"] := by
  have hspace : ch ' ' ∉ url.path := fun hm => absurd (hok.pathBytes _ hm).1 (by decide)
  have hget : bytes "GET " ++ url.path ++ bytes " HTTP/1.0" = bytes "GET" ++ ch ' ' :: (url.path ++ ch ' ' :: bytes "HTTP/1.0") := by
    have h1 : bytes "GET " = bytes "GET" ++ [ch ' '] := by decide
    have h2 : bytes " HTTP/1.0" = ch ' ' :: bytes "HTTP/1.0" := by decide
    simp [h1, h2]
  rw [hget, List.splitOn_append_cons_self_of_not_mem (by decide), List.splitOn_append_cons_self_of_not_mem hspace,
    List.splitOn_eq_singleton (by decide)]

/-- The origin is sent the request, as far as the connection takes it, or
nothing. -/
theorem fetchAndRelay_toOrigin (allowPrivate : Bool) (env : FetchEnv) (url : ParsedUrl) (limit : Nat) :
    (fetchAndRelay allowPrivate env url limit).toOrigin = [] ∨
      (fetchAndRelay allowPrivate env url limit).toOrigin = (sendAll (originRequest url) env.requestWrites).calls := by
  unfold fetchAndRelay
  dsimp only
  split
  · split
    · exact .inr rfl
    · exact .inr rfl
  · exact .inl rfl

/-- **The request of an accepted URL is one HTTP/1.0 request.** It fits the
buffer with its NUL, so `snprintf` stores all of it and what is sent is it; its
line ends are those of its four lines, and its first line is three words. -/
theorem originRequest_wellFormed {u : List Byte} {r : ParsedUrl} (h : parseHttpUrl u = .ok r) :
    (originRequest r).length < maxHostLen + maxPathLen + 64 ∧
      snprintf (maxHostLen + maxPathLen + 64) (originRequest r) = (originRequest r, (originRequest r).length) ∧
      (∀ allowPrivate env limit, (fetchAndRelay allowPrivate env r limit).toOrigin = [] ∨
        (fetchAndRelay allowPrivate env r limit).toOrigin = (sendAll (originRequest r) env.requestWrites).calls) ∧
      originRequest r = [bytes "GET " ++ r.path ++ bytes " HTTP/1.0", bytes "Host: " ++ r.host, bytes "Connection: close",
        []].flatMap (· ++ bytes "\r\n") ∧
      (∀ line ∈ [bytes "GET " ++ r.path ++ bytes " HTTP/1.0", bytes "Host: " ++ r.host, bytes "Connection: close", []],
        ch '\r' ∉ line ∧ ch '\n' ∉ line) ∧
      (bytes "GET " ++ r.path ++ bytes " HTTP/1.0").splitOn (ch ' ') = [bytes "GET", r.path, bytes "HTTP/1.0"] := by
  have hok := parseHttpUrl_urlOk h
  have hfits := originRequest_fits hok
  refine ⟨hfits, ?_, fun allowPrivate env limit => fetchAndRelay_toOrigin allowPrivate env r limit, originRequest_eq r,
    requestLines_plain hok, requestLine_words hok⟩
  rw [snprintf, List.take_of_length_le (by omega)]

/-- The request for a URL with a query. -/
theorem originRequest_wellFormed_query :
    let r : ParsedUrl := ⟨bytes "a.test", 80, bytes "/?q=%0d%0aX:1"⟩
    parseHttpUrl (bytes "http://a.test?q=%0d%0aX:1") = .ok r ∧
      snprintf (maxHostLen + maxPathLen + 64) (originRequest r) = (originRequest r, (originRequest r).length) ∧
      (bytes "GET " ++ r.path ++ bytes " HTTP/1.0").splitOn (ch ' ') = [bytes "GET", r.path, bytes "HTTP/1.0"] := by
  intro r
  have h : parseHttpUrl (bytes "http://a.test?q=%0d%0aX:1") = .ok r := by decide
  obtain ⟨-, hstored, -, -, -, hwords⟩ := originRequest_wellFormed h
  exact ⟨h, hstored, hwords⟩

end SecureProxy
