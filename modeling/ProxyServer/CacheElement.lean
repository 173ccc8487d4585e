import ProxyServer.CStrings
import ProxyServer.ReferenceCache
import Mathlib.Data.List.AList
import Mathlib.Data.List.Nodup

/-!
Cached responses. Every element is made by one `new` and lives in one list
node, so the address `ptr` also names the node an iterator designates. Lists of
elements with distinct addresses are read and unlinked by address; where the
URLs are distinct as well, unlinking an element unlinks its URL and no other.
-/
namespace ProxyServer

structure CacheElement where
  data : List Char
  len : ℤ
  url : CString
  lruTimeTrack : ℤ
  ptr : ℕ
  deriving DecidableEq, Repr

/-- A call on a cache; `now` is what `time(nullptr)` returns in it. -/
inductive CacheOp
  | find (url : CString) (now : ℤ)
  | add (url : CString) (data : List Char) (len : ℤ) (now : ℤ)
  | remove (url : CString)
  deriving DecidableEq, Repr

def CacheOp.access : CacheOp → Access CString
  | .find url _ => .find url
  | .add url _ _ _ => .add url
  | .remove url => .remove url

namespace CacheElement

/-- `new`, `strdup`, `malloc` and `memcpy` of the two `add` functions. -/
def make (url : CString) (data : List Char) (len now : ℤ) (ptr : ℕ) : CacheElement :=
  { data := data.take len.toNat, len := len, url := url, lruTimeTrack := now, ptr := ptr }

/-- `*it` for an iterator into `l`; `none` where it dangles. -/
def deref (l : List CacheElement) (it : ℕ) : Option CacheElement :=
  l.find? (fun e => e.ptr == it)

/-- `erase(it)`. -/
def unlink (l : List CacheElement) (it : ℕ) : List CacheElement :=
  l.filter (fun e => e.ptr != it)

/-- Assignment to `lru_time_track` through the pointer `it`, seen from `e`. -/
def retime (it : ℕ) (now : ℤ) (e : CacheElement) : CacheElement :=
  if e.ptr = it then { e with lruTimeTrack := now } else e

def setTime (l : List CacheElement) (it : ℕ) (now : ℤ) : List CacheElement :=
  l.map (retime it now)

@[simp] theorem retime_url (it : ℕ) (now : ℤ) (e : CacheElement) :
    (retime it now e).url = e.url := by
  unfold retime
  split <;> rfl

@[simp] theorem retime_ptr (it : ℕ) (now : ℤ) (e : CacheElement) :
    (retime it now e).ptr = e.ptr := by
  unfold retime
  split <;> rfl

@[simp] theorem retime_data (it : ℕ) (now : ℤ) (e : CacheElement) :
    (retime it now e).data = e.data := by
  unfold retime
  split <;> rfl

@[simp] theorem retime_len (it : ℕ) (now : ℤ) (e : CacheElement) :
    (retime it now e).len = e.len := by
  unfold retime
  split <;> rfl

/-- The same response under the same URL, at the same address. -/
structure Same (x y : CacheElement) : Prop where
  ptr : x.ptr = y.ptr
  url : x.url = y.url
  data : x.data = y.data
  len : x.len = y.len

theorem Same.refl (x : CacheElement) : Same x x := ⟨rfl, rfl, rfl, rfl⟩

theorem same_retime (it : ℕ) (now : ℤ) (e : CacheElement) : Same (retime it now e) e :=
  ⟨retime_ptr it now e, retime_url it now e, retime_data it now e, retime_len it now e⟩

theorem retime_self (now : ℤ) (e : CacheElement) :
    retime e.ptr now e = { e with lruTimeTrack := now } := if_pos rfl

theorem retime_of_ne {it : ℕ} (now : ℤ) {e : CacheElement} (h : e.ptr ≠ it) :
    retime it now e = e := if_neg h

theorem eq_of_ptr {l : List CacheElement} (h : (l.map (·.ptr)).Nodup) {e e' : CacheElement}
    (he : e ∈ l) (he' : e' ∈ l) (hp : e.ptr = e'.ptr) : e = e' :=
  List.inj_on_of_nodup_map h he he' hp

theorem eq_of_url {l : List CacheElement} (h : (l.map (·.url)).Nodup) {e e' : CacheElement}
    (he : e ∈ l) (he' : e' ∈ l) (hu : e.url = e'.url) : e = e' :=
  List.inj_on_of_nodup_map h he he' hu

theorem mem_of_deref {l : List CacheElement} {it : ℕ} {e : CacheElement}
    (h : deref l it = some e) : e ∈ l ∧ e.ptr = it := by
  refine ⟨List.mem_of_find?_eq_some h, ?_⟩
  simpa using List.find?_some h

theorem deref_of_mem {l : List CacheElement} (h : (l.map (·.ptr)).Nodup) {e : CacheElement}
    (he : e ∈ l) : deref l e.ptr = some e := by
  cases hd : deref l e.ptr with
  | none =>
    have hnot := List.find?_eq_none.mp hd e he
    simp at hnot
  | some e' =>
    obtain ⟨he', hp⟩ := mem_of_deref hd
    exact congrArg some (eq_of_ptr h he' he hp)

theorem mem_unlink {l : List CacheElement} {it : ℕ} {e : CacheElement} :
    e ∈ unlink l it ↔ e ∈ l ∧ e.ptr ≠ it := by
  simp [unlink]

theorem unlink_sublist (l : List CacheElement) (it : ℕ) : (unlink l it).Sublist l :=
  List.filter_sublist

/-- Unlinking an element by its address removes exactly its URL. -/
theorem url_unlink {l : List CacheElement} (hp : (l.map (·.ptr)).Nodup)
    (hu : (l.map (·.url)).Nodup) {e : CacheElement} (he : e ∈ l) :
    (unlink l e.ptr).map (·.url) = (l.map (·.url)).erase e.url := by
  rw [hu.erase_eq_filter, List.filter_map]
  congr 1
  apply List.filter_congr
  intro x hx
  simp only [Function.comp_apply]
  rw [Bool.eq_iff_iff, bne_iff_ne, bne_iff_ne, not_iff_not]
  constructor
  · intro h
    rw [eq_of_ptr hp hx he h]
  · intro h
    rw [eq_of_url hu hx he h]

/-- Unlinking the last element leaves the ones before it. -/
theorem unlink_last {l : List CacheElement} {v : CacheElement}
    (h : ((l ++ [v]).map (·.ptr)).Nodup) : unlink (l ++ [v]) v.ptr = l := by
  rw [List.map_append, List.nodup_append] at h
  unfold unlink
  rw [List.filter_append, List.filter_eq_self.mpr]
  · simp
  · intro x hx
    have hne := h.2.2 x.ptr (List.mem_map_of_mem hx) v.ptr (by simp)
    simpa using hne

theorem setTime_of_ne {l : List CacheElement} {it : ℕ} (now : ℤ)
    (h : ∀ e ∈ l, e.ptr ≠ it) : setTime l it now = l := by
  have hid : l.map (retime it now) = l.map id :=
    List.map_congr_left (fun e he => retime_of_ne now (h e he))
  rw [setTime, hid, List.map_id]

end CacheElement

end ProxyServer
