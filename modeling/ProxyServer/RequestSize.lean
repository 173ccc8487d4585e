import ProxyServer.RequestLine
import ProxyServer.ProxyUtils
import Mathlib.Data.List.Flatten

/-!
An accepted request prints far below 2 GiB, whatever the buffer: each turn of
the header loop adds a header that is no longer than the rest of the buffer and
goes on at least three characters later.
-/
namespace ProxyServer

open CStrings ParseError

namespace ParsedHeader

open OrderedTable

/-- What the live headers print. -/
def printedSize (pr : ParsedRequest) : ℕ := (pr.live.flatMap headerText).length

theorem length_flatMap_set (t : List (CString × CString)) (key value : CString) :
    ((OrderedTable.set t key value).flatMap headerText).length ≤
      (t.flatMap headerText).length + (key.length + value.length + 4) := by
  have hfilter : ∀ p, ((t.filter p).flatMap headerText).length ≤ (t.flatMap headerText).length :=
    fun p => (List.filter_sublist.flatMap headerText).length_le
  rw [OrderedTable.set, List.flatMap_append, List.length_append, List.flatMap_singleton,
    length_headerText]
  exact Nat.add_le_add_right (hfilter _) _

theorem parse_length {pr pr' : ParsedRequest} {line : List Char} (h : parse pr line = .ok pr') :
    ∃ key value, pr' = set pr key value ∧ key.length + value.length + 4 ≤ line.length := by
  obtain ⟨found, hfound, h⟩ := bind_ok h
  obtain ⟨index1, hindex1, h⟩ := bind_ok h
  obtain ⟨found2, hfound2, h⟩ := bind_ok h
  obtain ⟨index2, hindex2, h⟩ := bind_ok h
  rw [orRejected_ok hindex1] at hfound
  obtain ⟨u, rfl, _, _, rest, rfl⟩ := index_eq_some (orUndefined_ok hfound)
  rw [orUndefined_ok hindex2] at hfound2
  obtain ⟨v, hv, _, ⟨w, rfl⟩, _⟩ := strstr_eq_some (orUndefined_ok hfound2)
  refine ⟨_, _, (Except.ok.inj h).symm, ?_⟩
  have hlen := congrArg List.length hv
  simp only [List.length_drop, List.length_cons, List.length_append, crlf, List.length_nil,
    List.length_take] at hlen ⊢
  omega

end ParsedHeader

namespace ParsedRequest

open ParsedHeader OrderedTable

theorem parseHeaders_printedSize (n fuel : ℕ) :
    ∀ {pr pr' : ParsedRequest} {currentHeader : List Char}, (keys pr.live).Nodup →
      parseHeaders fuel pr currentHeader = .ok pr' → currentHeader.length ≤ n →
      (keys pr'.live).Nodup ∧
        3 * printedSize pr' ≤ 3 * printedSize pr + currentHeader.length * n := by
  induction fuel with
  | zero =>
    intro pr pr' currentHeader _ h _
    contradiction
  | succ fuel ih =>
    intro pr pr' currentHeader hnodup h hle
    rw [parseHeaders] at h
    split at h
    · contradiction
    · split at h
      · cases h
        exact ⟨hnodup, by omega⟩
      · split at h
        · cases h
          exact ⟨hnodup, by omega⟩
        · rename_i hstart
          obtain ⟨pr₁, hheader, h⟩ := bind_ok h
          obtain ⟨key, value, rfl, hlen⟩ := parse_length hheader
          have hlive := live_set hnodup key value
          have hnodup₁ : (keys (set pr key value).live).Nodup := by
            rw [hlive]
            exact nodup_set hnodup key value
          have hsize : printedSize (set pr key value) ≤
              printedSize pr + (key.length + value.length + 4) := by
            rw [printedSize, hlive]
            exact length_flatMap_set pr.live key value
          have hstop : 3 * printedSize (set pr key value) ≤
              3 * printedSize pr + currentHeader.length * n := by
            have hmul := Nat.mul_le_mul_left currentHeader.length (by omega : 3 ≤ n)
            omega
          obtain ⟨next, hnext, h⟩ := bind_ok h
          cases next with
          | none =>
            cases h
            exact ⟨hnodup₁, hstop⟩
          | some next =>
            obtain ⟨text, _, h⟩ := bind_ok h
            split at h
            · cases h
              exact ⟨hnodup₁, hstop⟩
            · have hshorter : (next.drop 2).length + 3 ≤ currentHeader.length := by
                obtain ⟨u, rfl, _, ⟨rest, rfl⟩, _⟩ := strstr_eq_some (orUndefined_ok hnext)
                have hu : u ≠ [] := by
                  rintro rfl
                  exact hstart (List.isPrefixOf_iff_prefix.mpr (List.prefix_append crlf rest))
                have hpos := List.length_pos_of_ne_nil hu
                simp only [List.length_append, crlf, List.length_cons, List.length_nil,
                  List.length_drop]
                omega
              obtain ⟨hnodup', hrest⟩ := ih hnodup₁ h (by omega)
              refine ⟨hnodup', ?_⟩
              have hmul := Nat.mul_le_mul_right n hshorter
              rw [Nat.add_mul] at hmul
              omega

theorem parse_printedSize {buf : List Char} {errnoEinval : Bool} {pr : ParsedRequest}
    (h : parse create buf errnoEinval = .ok pr) :
    (keys pr.live).Nodup ∧ printedSize pr ≤ 1431655765 := by
  obtain ⟨u, rest, line, hbuf, _, _, _, hheaders⟩ := parse_ok h
  have hlen := length_of_parse h
  have hsum := congrArg List.length hbuf
  simp only [List.length_append, List.length_cons, List.length_nil] at hsum
  have hrest : rest.length ≤ 65536 := by omega
  have hempty : (keys (live { create with requestLine := some line })).Nodup := by
    simp [live, create, keys]
  obtain ⟨hnodup, hsize⟩ := parseHeaders_printedSize 65536 _ hempty hheaders hrest
  have hzero : printedSize { create with requestLine := some line } = 0 := rfl
  have hmul := Nat.mul_le_mul_right 65536 hrest
  exact ⟨hnodup, by omega⟩

theorem length_infix {t : RequestText} (h : t.text.length ≤ 65535) :
    t.fields.host.length ≤ 65535 ∧ t.fields.path.length ≤ 65536 ∧
      t.fields.version.length ≤ 65535 := by
  have hhost := t.host_isInfix.length_le
  have hpath := t.pathTail_isInfix.length_le
  have hversion := t.version_isInfix.length_le
  simp only [RequestText.fields, List.length_cons, List.length_drop]
  omega

/-- The conversion of an accepted request succeeds. -/
theorem convert_of_parse {buf : List Char} {errnoEinval : Bool} {pr : ParsedRequest}
    (h : parse create buf errnoEinval = .ok pr) :
    ∃ line req, pr.requestLine = some line ∧
      ProxyUtils.convertRequestToString pr =
        some (req, ProxyUtils.upstreamText line (ProxyUtils.upstreamTable line pr.live)) := by
  obtain ⟨t, _, hline, hlen⟩ := parse_fields h
  obtain ⟨hnodup, hsize⟩ := parse_printedSize h
  obtain ⟨hhost, hpath, hversion⟩ := length_infix hlen
  have hmethod : t.fields.method.length = 3 := rfl
  have hhostSet := length_flatMap_set pr.live "Host".toList t.fields.host
  have hconnectionSet := length_flatMap_set (OrderedTable.set pr.live "Host".toList t.fields.host)
    "Connection".toList "close".toList
  have hlt : (ProxyUtils.upstreamText t.fields
      (ProxyUtils.upstreamTable t.fields pr.live)).length < 2 ^ 31 - 1 := by
    rw [ProxyUtils.upstreamText, ProxyUtils.upstreamTable]
    rw [printedSize] at hsize
    simp only [List.length_append, crlf, List.length_cons, List.length_nil] at *
    have hnames : "Host".toList.length = 4 ∧ "Connection".toList.length = 10 ∧
        "close".toList.length = 5 ∧ " ".toList.length = 1 := ⟨rfl, rfl, rfl, rfl⟩
    omega
  obtain ⟨req, hconvert, _⟩ := ProxyUtils.convertRequestToString_spec hline hnodup hlt
  exact ⟨t.fields, req, hline, hconvert⟩

end ParsedRequest

end ProxyServer
