/-
The keys of the cache. `cache_make_key` joins host, port and path with a ':'
and a ' ', and no parsed host holds the one nor any port the other: the key of
a URL is always there, short enough, and of no other URL.
-/
import SecureProxy.Cache
import SecureProxy.ParserFacts

namespace SecureProxy

open Bytes

/-- The key of a URL, in full. -/
def urlKey (url : ParsedUrl) : List Byte := url.host ++ ch ':' :: decimal url.port ++ ch ' ' :: url.path

theorem length_urlKey_lt {url : ParsedUrl} (hok : UrlOk url) : (urlKey url).length < cacheKeyMax := by
  have hhost := hok.hostLen
  have hpath := hok.pathLen
  have hport := length_decimal_le (k := 5) (by decide) (Nat.lt_of_le_of_lt hok.portLe (by decide))
  simp only [maxHostLen, maxPathLen] at hhost hpath
  simp only [urlKey, List.length_append, List.length_cons, cacheKeyMax]
  omega

/-- Neither the host nor the key is cut. -/
theorem cacheMakeKey_eq {url : ParsedUrl} (hok : UrlOk url) :
    cacheMakeKey cacheKeyMax url.host url.port url.path = some (urlKey url) := by
  have hhost : url.host.length ≤ 299 := by
    have := hok.hostLen
    simp only [maxHostLen] at this
    omega
  have hlen := length_urlKey_lt hok
  unfold cacheMakeKey
  rw [List.take_of_length_le hhost, parsedHost_toLower hok.hostBytes]
  exact if_neg (Nat.not_le.2 hlen)

/-- The parser lets no ':' into a host, and no port has a space. -/
theorem urlKey_inj {url url' : ParsedUrl} (hok : UrlOk url) (hok' : UrlOk url') (h : urlKey url = urlKey url') :
    url = url' := by
  have hcolon : ∀ {u : ParsedUrl}, UrlOk u → ch ':' ∉ u.host := fun hu hm =>
    (isParsedHostByte_not_delim (hu.hostBytes _ hm)).1 rfl
  have hspace : ∀ n, ch ' ' ∉ decimal n := fun n hm => isDigit_ne_space (isDigit_of_mem_decimal hm) rfl
  simp only [urlKey, List.append_assoc, List.cons_append] at h
  obtain ⟨hhost, hrest⟩ := eq_of_first (hcolon hok) (hcolon hok') h
  obtain ⟨hport, hpath⟩ := eq_of_first (hspace _) (hspace _) hrest
  obtain ⟨host, port, path⟩ := url
  obtain ⟨host', port', path'⟩ := url'
  obtain rfl : port = port' := decimal_inj hport
  obtain rfl : host = host' := hhost
  obtain rfl : path = path' := hpath
  rfl

/-- **Every accepted URL has a key, and no two have the same.** The key is the
host, the port and the path in full, and `cache_store` does not refuse it for
its length. -/
theorem cacheMakeKey_urls {u u' : List Byte} {r r' : ParsedUrl} (h : parseHttpUrl u = .ok r) (h' : parseHttpUrl u' = .ok r') :
    (∃ key, cacheMakeKey cacheKeyMax r.host r.port r.path = some key ∧
        key = r.host ++ ch ':' :: decimal r.port ++ ch ' ' :: r.path ∧ key.length < cacheKeyMax) ∧
      (cacheMakeKey cacheKeyMax r.host r.port r.path = cacheMakeKey cacheKeyMax r'.host r'.port r'.path →
        r.host = r'.host ∧ r.port = r'.port ∧ r.path = r'.path) := by
  have hok := parseHttpUrl_urlOk h
  have hok' := parseHttpUrl_urlOk h'
  refine ⟨⟨urlKey r, cacheMakeKey_eq hok, rfl, length_urlKey_lt hok⟩, fun heq => ?_⟩
  rw [cacheMakeKey_eq hok, cacheMakeKey_eq hok', Option.some.injEq] at heq
  obtain rfl := urlKey_inj hok hok' heq
  exact ⟨rfl, rfl, rfl⟩

/-- Two spellings of one URL, and the key they share. -/
theorem cacheMakeKey_urls_spelled :
    let r : ParsedUrl := ⟨bytes "a.test", 80, bytes "/x"⟩
    parseHttpUrl (bytes "http://A.test/x") = .ok r ∧ parseHttpUrl (bytes "HTTP://a.TEST:080/x") = .ok r ∧
      ∃ key, cacheMakeKey cacheKeyMax r.host r.port r.path = some key ∧ key.length < cacheKeyMax := by
  intro r
  have h : parseHttpUrl (bytes "http://A.test/x") = .ok r := by decide
  have h' : parseHttpUrl (bytes "HTTP://a.TEST:080/x") = .ok r := by decide
  obtain ⟨⟨key, hkey, -, hlen⟩, -⟩ := cacheMakeKey_urls h h'
  exact ⟨h, h', key, hkey, hlen⟩

end SecureProxy
