import ProxyServer.RequestLine

/-!
The key under which the servers cache a response, and the target they connect
to. A parsed host has no slash and a parsed path begins with one, so host and
path can be read off the key; the port of the target is not in it.
-/
namespace ProxyServer

open CStrings ParsedRequest

namespace RequestLine

/-- `port` once the servers have set the default. -/
def effectivePort (req : RequestLine) : CString := req.port.getD "80".toList

/-- The key that `find` and `add` are called with. -/
def url (req : RequestLine) : CString := req.host ++ req.path

/-- What `createServerSocket` connects to. -/
def target (req : RequestLine) : CString × CString := (req.host, req.effectivePort)

structure HasOrigin (req : RequestLine) : Prop where
  host : '/' ∉ req.host
  path : ∃ rest, req.path = '/' :: rest

theorem url_eq_iff {req req' : RequestLine} (h : req.HasOrigin) (h' : req'.HasOrigin) :
    req.url = req'.url ↔ req.host = req'.host ∧ req.path = req'.path := by
  obtain ⟨rest, hpath⟩ := h.path
  obtain ⟨rest', hpath'⟩ := h'.path
  rw [url, url, hpath, hpath']
  constructor
  · intro heq
    obtain ⟨hhost, hrest⟩ := append_cons_unique h.host h'.host heq
    exact ⟨hhost, by rw [hrest]⟩
  · intro heq
    obtain ⟨hhost, htail⟩ := heq
    rw [hhost, htail]

/-- What the parser makes of a request line has the shape. -/
theorem hasOrigin_fields {t : RequestText} {errnoEinval : Bool} (h : t.Accepted errnoEinval) :
    t.fields.HasOrigin := by
  refine ⟨?_, t.pathTail.drop 1, rfl⟩
  intro hc
  have hmem : '/' ∈ t.hostText := by
    simp only [RequestText.hostText, List.mem_append]
    exact Or.inr (Or.inl hc)
  exact h.shape.hostText '/' hmem List.mem_cons_self

/-- The keys of two accepted requests are equal just when host, effective port
and path are, and equal keys have one target, exactly when the requests do not
differ in the port alone. -/
theorem url_determines_origin_iff {buf buf' : List Char} {errnoEinval errnoEinval' : Bool}
    {pr pr' : ParsedRequest} {req req' : RequestLine}
    (hparse : parse create buf errnoEinval = .ok pr) (hreq : pr.requestLine = some req)
    (hparse' : parse create buf' errnoEinval' = .ok pr') (hreq' : pr'.requestLine = some req') :
    ((req.url = req'.url ↔ req.host = req'.host ∧ req.effectivePort = req'.effectivePort ∧
        req.path = req'.path) ∧ (req.url = req'.url → req.target = req'.target)) ↔
      ¬ (req.host = req'.host ∧ req.path = req'.path ∧
        req.effectivePort ≠ req'.effectivePort) := by
  obtain ⟨t, haccepted, hfields, _⟩ := parse_fields hparse
  obtain ⟨t', haccepted', hfields', _⟩ := parse_fields hparse'
  obtain rfl : req = t.fields := Option.some.inj (hreq.symm.trans hfields)
  obtain rfl : req' = t'.fields := Option.some.inj (hreq'.symm.trans hfields')
  rw [url_eq_iff (hasOrigin_fields haccepted) (hasOrigin_fields haccepted')]
  constructor
  · intro hclaim hports
    obtain ⟨hhost, hpath, hport⟩ := hports
    exact hport (hclaim.1.mp ⟨hhost, hpath⟩).2.1
  · intro hports
    have hport : ∀ hsame : t.fields.host = t'.fields.host ∧ t.fields.path = t'.fields.path,
        t.fields.effectivePort = t'.fields.effectivePort := by
      intro hsame
      by_contra hne
      exact hports ⟨hsame.1, hsame.2, hne⟩
    refine ⟨⟨?_, ?_⟩, ?_⟩
    · intro hsame
      exact ⟨hsame.1, hport hsame, hsame.2⟩
    · intro hall
      exact ⟨hall.1, hall.2.2⟩
    · intro hsame
      show (_, _) = (_, _)
      rw [hsame.1, hport hsame]

theorem url_determines_origin_iff_paths :
    let req : RequestLine := ⟨"GET".toList, "http".toList, "h".toList, none, "/".toList,
      "HTTP/1.0".toList⟩
    let req' : RequestLine := ⟨"GET".toList, "http".toList, "h".toList, some "81".toList,
      "/p".toList, "HTTP/1.0".toList⟩
    ((req.url = req'.url ↔ req.host = req'.host ∧ req.effectivePort = req'.effectivePort ∧
        req.path = req'.path) ∧ (req.url = req'.url → req.target = req'.target)) ↔
      ¬ (req.host = req'.host ∧ req.path = req'.path ∧
        req.effectivePort ≠ req'.effectivePort) := by
  intro req req'
  have hparse : parse create "GET http://h/ HTTP/1.0\r\n\r\n".toList false =
      .ok ⟨some req, [], 8⟩ := by decide
  have hparse' : parse create "GET http://h:81/p HTTP/1.0\r\n\r\n".toList false =
      .ok ⟨some req', [], 8⟩ := by decide
  exact url_determines_origin_iff hparse rfl hparse' rfl

/-- Requests for ports 80 and 81 of a host have one key. -/
theorem url_forgets_port :
    ¬ ∀ (buf buf' : List Char) (pr pr' : ParsedRequest) (req req' : RequestLine),
      parse create buf false = .ok pr → pr.requestLine = some req →
      parse create buf' false = .ok pr' → pr'.requestLine = some req' →
      ((req.url = req'.url ↔ req.host = req'.host ∧ req.effectivePort = req'.effectivePort ∧
        req.path = req'.path) ∧ (req.url = req'.url → req.target = req'.target)) := by
  intro h
  have hclaim := h "GET http://h/ HTTP/1.0\r\n\r\n".toList
    "GET http://h:81/ HTTP/1.0\r\n\r\n".toList
    ⟨some ⟨"GET".toList, "http".toList, "h".toList, none, "/".toList, "HTTP/1.0".toList⟩, [], 8⟩
    ⟨some ⟨"GET".toList, "http".toList, "h".toList, some "81".toList, "/".toList,
      "HTTP/1.0".toList⟩, [], 8⟩ _ _ (by decide) rfl (by decide) rfl
  exact absurd (hclaim.2 rfl) (by decide)

end RequestLine

end ProxyServer
