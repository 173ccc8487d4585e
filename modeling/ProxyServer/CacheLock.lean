import ProxyServer.TimedCacheSize
import Mathlib.Logic.Function.Basic

/-!
The mutex of the C cache. `find`, `remove_cache_element` and `add_cache_element`
lock it for their whole body, and an add that has to make room calls
`remove_cache_element` with the mutex locked. The mutex is not recursive, so this
thread waits for itself, and every other one that comes to the cache waits too.
As long as each add finds room the thread that has the mutex is never blocked.
-/
namespace ProxyServer.V1

/-- The arguments of an add; callers pass the length of the data. -/
structure AddArgs where
  data : CString
  size : ℤ
  url : CString
  copies : data.length ≤ size
  deriving DecidableEq

namespace AddArgs

def elementSize (a : AddArgs) : ℤ := V1.elementSize a.size a.url

def Fits (a : AddArgs) : Prop := a.elementSize ≤ maxElementSize

instance (a : AddArgs) : Decidable a.Fits := inferInstanceAs (Decidable (_ ≤ _))

end AddArgs

/-- The functions a thread calls. -/
inductive CacheCall
  | find (url : CString)
  | remove
  | add (a : AddArgs)
  deriving DecidableEq

/-- Where a thread is. A removal returns to its thread, or to the add that has
called it. -/
inductive Point
  | idle
  | findLock (url : CString)
  | findBody (url : CString)
  | removeLock (caller : Option AddArgs)
  | removeBody (caller : Option AddArgs)
  | removeUnlock (caller : Option AddArgs)
  | addLock (a : AddArgs)
  | addSize (a : AddArgs)
  | addTest (a : AddArgs)
  | addInsert (a : AddArgs)
  | unlock
  deriving DecidableEq

/-- An add as its thread sees it: where it has to make room it does not return. -/
def lockedAdd (c : Cache) (data : CString) (size : ℤ) (url : CString) (now : ℤ) :
    Option (ℤ × Cache) :=
  if elementSize size url ≤ maxElementSize ∧ ¬ Room c (elementSize size url) then none
  else addCacheElement c data size url now

structure LockedCache (W : Type*) where
  cache : Cache
  owner : Option W
  point : W → Point

namespace LockedCache

open CStrings

variable {W : Type*}

/-- A thread calls a function, or takes the next step of the one it is in, with
what `time(NULL)` answers there. -/
inductive Step (W : Type*)
  | call (w : W) (c : CacheCall)
  | thread (w : W) (now : ℤ)

def start : LockedCache W := ⟨Cache.empty, none, fun _ => .idle⟩

def entry : CacheCall → Point
  | .find url => .findLock url
  | .remove => .removeLock none
  | .add a => .addLock a

section Step
variable [DecidableEq W]

def goto (s : LockedCache W) (w : W) (p : Point) : LockedCache W :=
  { s with point := Function.update s.point w p }

/-- `pthread_mutex_lock`; a thread waits as long as the mutex is locked, whoever
has locked it. -/
def acquire (s : LockedCache W) (w : W) (p : Point) : Option (LockedCache W) :=
  if s.owner.isNone then some ({ s with owner := some w }.goto w p) else none

def release (s : LockedCache W) (w : W) (p : Point) : LockedCache W :=
  { s with owner := none }.goto w p

def threadStep (s : LockedCache W) (w : W) (now : ℤ) : Point → Option (LockedCache W)
  | .idle => none
  | .findLock url => s.acquire w (.findBody url)
  | .findBody url => some ({ s with cache := (find s.cache url now).2 }.goto w .unlock)
  | .removeLock caller => s.acquire w (.removeBody caller)
  | .removeBody caller =>
      some ({ s with cache := removeCacheElement s.cache }.goto w (.removeUnlock caller))
  | .removeUnlock caller => some (s.release w (caller.elim .idle .addTest))
  | .addLock a => s.acquire w (.addSize a)
  | .addSize a => some (s.goto w (if a.Fits then .addTest a else .unlock))
  | .addTest a =>
      some (s.goto w (if Room s.cache a.elementSize then .addInsert a else .removeLock (some a)))
  | .addInsert a =>
      (insert s.cache a.data a.size a.url now).map (fun c => { s with cache := c }.goto w .unlock)
  | .unlock => some (s.release w .idle)

def step (s : LockedCache W) : Step W → Option (LockedCache W)
  | .call w c => if s.point w = .idle then some (s.goto w (entry c)) else none
  | .thread w now => s.threadStep w now (s.point w)

@[simp] theorem goto_cache (s : LockedCache W) (w : W) (p : Point) :
    (s.goto w p).cache = s.cache := rfl

@[simp] theorem goto_owner (s : LockedCache W) (w : W) (p : Point) :
    (s.goto w p).owner = s.owner := rfl

@[simp] theorem goto_point (s : LockedCache W) (w : W) (p : Point) :
    (s.goto w p).point = Function.update s.point w p := rfl

end Step

section Points

/-- The next step of the thread is a call of `pthread_mutex_lock`. -/
def callsLock : Point → Bool
  | .findLock _ | .removeLock _ | .addLock _ => true
  | _ => false

def holdsLock : Point → Bool
  | .idle | .findLock _ | .addLock _ | .removeLock none => false
  | _ => true

/-- The body of a removal that an add has called. -/
def nested : Point → Bool
  | .removeBody (some _) | .removeUnlock (some _) => true
  | _ => false

/-- The thread that has the mutex there goes on to return. -/
def Returns (c : Cache) : Point → Prop
  | .addSize a => a.Fits → Room c a.elementSize
  | .addTest a => Room c a.elementSize
  | .removeLock (some _) => False
  | _ => True

end Points

/-- The owner of the mutex is where it has it, and no removal inside an add gets
to its body. -/
structure Guarded (s : LockedCache W) : Prop where
  owner : ∀ w, s.owner = some w ↔ holdsLock (s.point w) = true
  nested : ∀ w, nested (s.point w) = false

/-- No thread calls `pthread_mutex_lock` with the mutex already its own. -/
def NoRelock (s : LockedCache W) : Prop :=
  ∀ w, callsLock (s.point w) = true → s.owner ≠ some w

/-- A thread that goes on alone returns within `k` steps and leaves the mutex free. -/
def ReturnsWithin [DecidableEq W] (k : ℕ) (s : LockedCache W) (w : W) (now : ℤ) (c : Cache) :
    Prop :=
  ∃ n, n ≤ k ∧ ∃ t, Runs.run step s (List.replicate n (.thread w now)) = some t ∧
    t.point w = .idle ∧ t.owner = none ∧ t.cache = c

/-- The thread that has the mutex returns from its call. -/
def HolderReturns [DecidableEq W] (s : LockedCache W) : Prop :=
  ∀ w, s.owner = some w → ∀ now, ∃ c, ReturnsWithin 4 s w now c

/-- An add that gets the mutex for an element that may be stored finds room. -/
def FindsRoom (s : LockedCache W) : Step W → Prop
  | .call _ _ => True
  | .thread w _ => ∀ a, s.point w = .addLock a → s.owner = none → a.Fits →
      Room s.cache a.elementSize

namespace Guarded

variable {s : LockedCache W}

theorem start : Guarded (start : LockedCache W) :=
  ⟨fun _ => ⟨fun h => by contradiction, fun h => by contradiction⟩, fun _ => rfl⟩

theorem point_of_owner (h : Guarded s) {w : W} (hw : s.owner = some w) :
    holdsLock (s.point w) = true := (h.owner w).mp hw

variable [DecidableEq W] {w : W} {p : Point}

/-- A step of one thread; for the others the mutex is theirs or not as before. -/
theorem update (h : Guarded s) (c : Cache) {owner : Option W}
    (hself : owner = some w ↔ holdsLock p = true)
    (hothers : ∀ v, v ≠ w → (owner = some v ↔ s.owner = some v))
    (hn : LockedCache.nested p = false) : Guarded ⟨c, owner, Function.update s.point w p⟩ := by
  constructor
  · intro v
    dsimp only
    by_cases hv : v = w
    · rw [hv, Function.update_self]
      exact hself
    · rw [Function.update_of_ne hv]
      exact (hothers v hv).trans (h.owner v)
  · intro v
    dsimp only
    by_cases hv : v = w
    · rw [hv, Function.update_self]
      exact hn
    · rw [Function.update_of_ne hv]
      exact h.nested v

theorem acquire (h : Guarded s) (hfree : s.owner = none) (hp : holdsLock p = true)
    (hn : LockedCache.nested p = false) :
    Guarded ({ s with owner := some w }.goto w p) := by
  refine h.update s.cache (iff_of_true rfl hp) ?_ hn
  intro v hv
  rw [hfree]
  exact iff_of_false (fun heq => hv (Option.some.inj heq).symm) (fun heq => by contradiction)

theorem stay (h : Guarded s) (c : Cache) (hp : holdsLock p = holdsLock (s.point w))
    (hn : LockedCache.nested p = false) : Guarded ({ s with cache := c }.goto w p) :=
  h.update c (by rw [hp]; exact h.owner w) (fun _ _ => Iff.rfl) hn

theorem release (h : Guarded s) (hw : holdsLock (s.point w) = true) :
    Guarded (s.release w .idle) := by
  refine h.update s.cache (iff_of_false (fun heq => by contradiction) Bool.false_ne_true) ?_ rfl
  intro v hv
  rw [(h.owner w).mpr hw]
  exact iff_of_false (fun heq => by contradiction) (fun heq => hv (Option.some.inj heq).symm)

end Guarded

section Steps
variable [DecidableEq W] {s s' : LockedCache W} {w : W} {now : ℤ}

/-- The point at which a thread has got the mutex. -/
def entered : Point → Option Point
  | .findLock url => some (.findBody url)
  | .removeLock none => some (.removeBody none)
  | .addLock a => some (.addSize a)
  | _ => none

theorem acquire_some {p : Point} (h : s.acquire w p = some s') :
    s.owner = none ∧ s' = { s with owner := some w }.goto w p := by
  unfold acquire at h
  split at h
  case isTrue hfree =>
    cases h
    exact ⟨Option.isNone_iff_eq_none.mp hfree, rfl⟩
  case isFalse => contradiction

theorem acquire_of_free (hfree : s.owner = none) (p : Point) :
    s.acquire w p = some ({ s with owner := some w }.goto w p) :=
  if_pos (Option.isNone_iff_eq_none.mpr hfree)

theorem insert_addArgs (c : Cache) (a : AddArgs) (now : ℤ) :
    ∃ c', insert c a.data a.size a.url now = some c' :=
  ⟨_, if_neg (not_lt.mpr a.copies)⟩

theorem addCacheElement_of_room {c c' : Cache} {a : AddArgs} (hfits : a.Fits)
    (hroom : Room c a.elementSize) (hc : insert c a.data a.size a.url now = some c') :
    addCacheElement c a.data a.size a.url now = some (1, c') := by
  have hsmall : ¬ maxElementSize < elementSize a.size a.url := not_lt.mpr hfits
  have hevict := evictLoop_of_room hroom c.elements.length
  rw [AddArgs.elementSize] at hevict
  rw [addCacheElement, if_neg hsmall, hevict]
  simp only [Option.bind_eq_bind, Option.bind_some, hc]

/-- A step of a thread gets the mutex, works on the cache with it, or gives it
back. -/
theorem thread_cases (h : Guarded s) (hstep : s.step (.thread w now) = some s') :
    (∃ p, s.owner = none ∧ entered (s.point w) = some p ∧
      s' = { s with owner := some w }.goto w p) ∨
    (∃ c p, holdsLock (s.point w) = true ∧ holdsLock p = true ∧ nested p = false ∧
      (Returns s.cache (s.point w) ↔ Returns c p) ∧ s' = { s with cache := c }.goto w p) ∨
    (holdsLock (s.point w) = true ∧ Returns s.cache (s.point w) ∧ s' = s.release w .idle) := by
  have hnested := h.nested w
  rw [step] at hstep
  cases hp : s.point w with
  | idle =>
    rw [hp] at hstep
    contradiction
  | findLock url =>
    rw [hp] at hstep
    obtain ⟨hfree, rfl⟩ := acquire_some hstep
    exact Or.inl ⟨_, hfree, rfl, rfl⟩
  | findBody url =>
    rw [hp] at hstep
    cases hstep
    exact Or.inr (Or.inl ⟨_, .unlock, rfl, rfl, rfl, Iff.rfl, rfl⟩)
  | removeLock caller =>
    rw [hp] at hstep
    obtain ⟨hfree, rfl⟩ := acquire_some hstep
    cases caller with
    | none => exact Or.inl ⟨_, hfree, rfl, rfl⟩
    | some a =>
      have howner := (h.owner w).mpr (by rw [hp]; rfl)
      rw [hfree] at howner
      contradiction
  | removeBody caller =>
    rw [hp] at hstep hnested
    cases caller with
    | none =>
      cases hstep
      exact Or.inr (Or.inl ⟨_, .removeUnlock none, rfl, rfl, rfl, Iff.rfl, rfl⟩)
    | some a => contradiction
  | removeUnlock caller =>
    rw [hp] at hstep hnested
    cases caller with
    | none =>
      cases hstep
      exact Or.inr (Or.inr ⟨rfl, trivial, rfl⟩)
    | some a => contradiction
  | addLock a =>
    rw [hp] at hstep
    obtain ⟨hfree, rfl⟩ := acquire_some hstep
    exact Or.inl ⟨_, hfree, rfl, rfl⟩
  | addSize a =>
    rw [hp] at hstep
    cases hstep
    by_cases hfits : a.Fits
    · rw [if_pos hfits]
      exact Or.inr (Or.inl ⟨s.cache, .addTest a, rfl, rfl, rfl,
        ⟨fun hroom => hroom hfits, fun hroom _ => hroom⟩, rfl⟩)
    · rw [if_neg hfits]
      exact Or.inr (Or.inl ⟨s.cache, .unlock, rfl, rfl, rfl,
        iff_of_true (fun h => absurd h hfits) trivial, rfl⟩)
  | addTest a =>
    rw [hp] at hstep
    cases hstep
    by_cases hroom : Room s.cache a.elementSize
    · rw [if_pos hroom]
      exact Or.inr (Or.inl ⟨s.cache, .addInsert a, rfl, rfl, rfl,
        iff_of_true hroom trivial, rfl⟩)
    · rw [if_neg hroom]
      exact Or.inr (Or.inl ⟨s.cache, .removeLock (some a), rfl, rfl, rfl,
        iff_of_false hroom not_false, rfl⟩)
  | addInsert a =>
    rw [hp] at hstep
    obtain ⟨c, _, rfl⟩ := Option.map_eq_some_iff.mp hstep
    exact Or.inr (Or.inl ⟨c, .unlock, rfl, rfl, rfl, Iff.rfl, rfl⟩)
  | unlock =>
    rw [hp] at hstep
    cases hstep
    exact Or.inr (Or.inr ⟨rfl, trivial, rfl⟩)

theorem entered_cases {p p' : Point} (h : entered p = some p') :
    holdsLock p = false ∧ holdsLock p' = true ∧ nested p' = false := by
  unfold entered at h
  split at h
  · cases h
    exact ⟨rfl, rfl, rfl⟩
  · cases h
    exact ⟨rfl, rfl, rfl⟩
  · cases h
    exact ⟨rfl, rfl, rfl⟩
  · contradiction

theorem entered_returns {p p' : Point} (h : entered p = some p') (c : Cache) :
    Returns c p' ↔ ∀ a, p = .addLock a → a.Fits → Room c a.elementSize := by
  unfold entered at h
  split at h
  case h_3 a =>
    cases h
    constructor
    · intro hreturns b hb
      cases hb
      exact hreturns
    · exact fun hroom => hroom a rfl
  case h_4 => contradiction
  all_goals
    cases h
    exact iff_of_true trivial (fun a ha => by contradiction)

theorem call_some {c : CacheCall} (hstep : s.step (.call w c) = some s') :
    s.point w = .idle ∧ s' = s.goto w (entry c) := by
  rw [step] at hstep
  split at hstep
  case isTrue hidle =>
    cases hstep
    exact ⟨hidle, rfl⟩
  case isFalse => contradiction

theorem entry_free (c : CacheCall) : holdsLock (entry c) = false ∧ nested (entry c) = false := by
  cases c <;> exact ⟨rfl, rfl⟩

theorem Guarded.step (h : Guarded s) {l : Step W} (hstep : s.step l = some s') : Guarded s' := by
  cases l with
  | call w c =>
    obtain ⟨hidle, rfl⟩ := call_some hstep
    obtain ⟨hfree, hnested⟩ := entry_free c
    exact h.stay s.cache (by rw [hidle, hfree]; rfl) hnested
  | thread w now =>
    rcases thread_cases h hstep with ⟨p, hfree, hentered, rfl⟩ |
      ⟨c, p, hholds, hp, hnested, _, rfl⟩ | ⟨hholds, _, rfl⟩
    · obtain ⟨_, hp, hnested⟩ := entered_cases hentered
      exact h.acquire hfree hp hnested
    · exact h.stay c (hp.trans hholds.symm) hnested
    · exact h.release hholds

end Steps

section Doomed
variable {s s' : LockedCache W} {w : W}

/-- The thread has the mutex and has called, or will call, for it again. -/
structure Doomed (w : W) (s : LockedCache W) : Prop where
  guarded : Guarded s
  owner : s.owner = some w
  point : ¬ Returns s.cache (s.point w)

theorem Doomed.not_idle (h : Doomed w s) : s.point w ≠ .idle := by
  intro hidle
  apply h.point
  rw [hidle]
  trivial

variable [DecidableEq W]

/-- Only its thread can move, and it gets no further than the second call for
the mutex. -/
theorem Doomed.step (h : Doomed w s) {l : Step W} (hstep : s.step l = some s') : Doomed w s' := by
  have hguarded := h.guarded.step hstep
  have hholds := h.guarded.point_of_owner h.owner
  cases l with
  | call v c =>
    obtain ⟨hidle, rfl⟩ := call_some hstep
    have hv : w ≠ v := by
      rintro rfl
      exact h.not_idle hidle
    refine ⟨hguarded, h.owner, ?_⟩
    rw [goto_point, Function.update_of_ne hv]
    exact h.point
  | thread v now =>
    rcases thread_cases h.guarded hstep with ⟨p, hfree, _, _⟩ | ⟨c, p, hv, _, _, hreturns, rfl⟩ |
      ⟨hv, hreturns, rfl⟩
    · rw [h.owner] at hfree
      contradiction
    · have heq := (h.guarded.owner v).mpr hv
      rw [h.owner] at heq
      obtain rfl := Option.some.inj heq
      refine ⟨hguarded, h.owner, ?_⟩
      rw [goto_point, Function.update_self]
      exact mt hreturns.mpr h.point
    · have heq := (h.guarded.owner v).mpr hv
      rw [h.owner] at heq
      obtain rfl := Option.some.inj heq
      exact absurd hreturns h.point

theorem Doomed.run (h : Doomed w s) {labels : List (LockedCache.Step W)}
    (hrun : Runs.run LockedCache.step s labels = some s') : Doomed w s' :=
  Runs.run_invariant LockedCache.step (Doomed w) (fun _ _ _ hs hstep => hs.step hstep) labels s s'
    h hrun

end Doomed

section Returning
variable [DecidableEq W] {s s' : LockedCache W} {w : W} {now : ℤ} {k : ℕ} {c : Cache}

theorem ReturnsWithin.succ (h : ReturnsWithin k s' w now c)
    (hstep : s.step (.thread w now) = some s') : ReturnsWithin (k + 1) s w now c := by
  obtain ⟨n, hn, t, hrun, ht⟩ := h
  refine ⟨n + 1, Nat.succ_le_succ hn, t, ?_, ht⟩
  rw [List.replicate_succ, Runs.run_cons, hstep]
  exact hrun

theorem ReturnsWithin.mono {m : ℕ} (h : ReturnsWithin k s w now c) (hle : k ≤ m) :
    ReturnsWithin m s w now c := by
  obtain ⟨n, hn, hrun⟩ := h
  exact ⟨n, hn.trans hle, hrun⟩

theorem returnsWithin_release (hstep : s.step (.thread w now) = some (s.release w .idle)) :
    ReturnsWithin 1 s w now s.cache := by
  refine ⟨1, le_refl 1, s.release w .idle, ?_, ?_, rfl, rfl⟩
  · rw [List.replicate_one, Runs.run_cons, hstep]
    rfl
  · rw [release, goto_point, Function.update_self]

theorem returnsWithin_unlock (hp : s.point w = .unlock) : ReturnsWithin 1 s w now s.cache :=
  returnsWithin_release (by rw [step, hp]; rfl)

theorem returnsWithin_removeUnlock (hp : s.point w = .removeUnlock none) :
    ReturnsWithin 1 s w now s.cache :=
  returnsWithin_release (by rw [step, hp]; rfl)

theorem returnsWithin_addInsert {a : AddArgs} (hp : s.point w = .addInsert a)
    (hc : insert s.cache a.data a.size a.url now = some c) : ReturnsWithin 2 s w now c := by
  have hnext : ReturnsWithin 1 ({ s with cache := c }.goto w .unlock) w now c :=
    returnsWithin_unlock (Function.update_self w _ s.point)
  exact hnext.succ (by rw [step, hp, threadStep, hc]; rfl)

theorem returnsWithin_addTest {a : AddArgs} (hp : s.point w = .addTest a)
    (hroom : Room s.cache a.elementSize) (hc : insert s.cache a.data a.size a.url now = some c) :
    ReturnsWithin 3 s w now c := by
  have hnext : ReturnsWithin 2 (s.goto w (.addInsert a)) w now c :=
    returnsWithin_addInsert (Function.update_self w _ s.point) hc
  exact hnext.succ (by rw [step, hp, threadStep, if_pos hroom])

/-- With room an add that has the mutex returns with what the call leaves. -/
theorem returnsWithin_addSize {a : AddArgs} (hp : s.point w = .addSize a)
    (hroom : a.Fits → Room s.cache a.elementSize) :
    ∃ answer c, addCacheElement s.cache a.data a.size a.url now = some (answer, c) ∧
      ReturnsWithin 4 s w now c := by
  by_cases hfits : a.Fits
  · obtain ⟨c, hc⟩ := insert_addArgs s.cache a now
    have hnext : ReturnsWithin 3 (s.goto w (.addTest a)) w now c :=
      returnsWithin_addTest (Function.update_self w _ s.point) (hroom hfits) hc
    exact ⟨1, c, addCacheElement_of_room hfits (hroom hfits) hc,
      hnext.succ (by rw [step, hp, threadStep, if_pos hfits])⟩
  · have hnext : ReturnsWithin 1 (s.goto w .unlock) w now s.cache :=
      returnsWithin_unlock (Function.update_self w _ s.point)
    refine ⟨0, s.cache, if_pos (not_le.mp hfits), ?_⟩
    exact (hnext.succ (by rw [step, hp, threadStep, if_neg hfits])).mono (by decide)

/-- From a point where the thread goes on to return it does so alone. -/
theorem returnsWithin_of_returns (hguarded : Guarded s) (howner : s.owner = some w)
    (h : Returns s.cache (s.point w)) : ∃ c, ReturnsWithin 4 s w now c := by
  have hholds := hguarded.point_of_owner howner
  have hnested := hguarded.nested w
  cases hp : s.point w with
  | findBody url =>
    have hnext : ReturnsWithin 1 ({ s with cache := (find s.cache url now).2 }.goto w .unlock)
        w now _ := returnsWithin_unlock (Function.update_self w _ s.point)
    exact ⟨_, (hnext.succ (by rw [step, hp]; rfl)).mono (by decide)⟩
  | removeLock caller =>
    rw [hp] at h hholds
    cases caller with
    | none => contradiction
    | some a => exact absurd h not_false
  | removeBody caller =>
    rw [hp] at hnested
    cases caller with
    | none =>
      have hnext : ReturnsWithin 1 ({ s with cache := removeCacheElement s.cache }.goto w
          (.removeUnlock none)) w now _ :=
        returnsWithin_removeUnlock (Function.update_self w _ s.point)
      exact ⟨_, (hnext.succ (by rw [step, hp]; rfl)).mono (by decide)⟩
    | some a => contradiction
  | removeUnlock caller =>
    rw [hp] at hnested
    cases caller with
    | none => exact ⟨_, (returnsWithin_removeUnlock hp).mono (by decide)⟩
    | some a => contradiction
  | addSize a =>
    rw [hp] at h
    obtain ⟨_, c, _, hreturns⟩ := returnsWithin_addSize hp h
    exact ⟨c, hreturns⟩
  | addTest a =>
    rw [hp] at h
    obtain ⟨c, hc⟩ := insert_addArgs s.cache a now
    exact ⟨c, (returnsWithin_addTest hp h hc).mono (by decide)⟩
  | addInsert a =>
    obtain ⟨c, hc⟩ := insert_addArgs s.cache a now
    exact ⟨c, (returnsWithin_addInsert hp hc).mono (by decide)⟩
  | unlock => exact ⟨_, (returnsWithin_unlock hp).mono (by decide)⟩
  | _ =>
    rw [hp] at hholds
    contradiction

/-- The thread that has the mutex is at a point from which it goes on to return
exactly when it does return, and then nobody calls for his own mutex. -/
theorem returns_iff (hguarded : Guarded s) :
    (NoRelock s ∧ HolderReturns s) ↔ ∀ w, s.owner = some w → Returns s.cache (s.point w) := by
  constructor
  · intro h w howner
    by_contra hreturns
    have hdoomed : Doomed w s := ⟨hguarded, howner, hreturns⟩
    obtain ⟨_, _, _, t, hrun, hidle, _⟩ := h.2 w howner 0
    exact (hdoomed.run hrun).not_idle hidle
  · intro h
    refine ⟨?_, fun w howner now => returnsWithin_of_returns hguarded howner (h w howner)⟩
    intro w hcalls howner
    have hreturns := h w howner
    have hholds := hguarded.point_of_owner howner
    cases hp : s.point w with
    | removeLock caller =>
      rw [hp] at hreturns hholds
      cases caller with
      | none => contradiction
      | some a => exact hreturns
    | _ =>
      rw [hp] at hcalls hholds
      contradiction

theorem findsRoom_of_blocked {l : Step W} (hstep : s.step l = none) : FindsRoom s l := by
  cases l with
  | call v c => trivial
  | thread v now =>
    intro a hp hfree
    rw [step, hp, threadStep, acquire_of_free hfree] at hstep
    contradiction

/-- A step keeps this exactly when an add that gets the mutex finds room. -/
theorem step_returns_iff (hguarded : Guarded s)
    (h : ∀ w, s.owner = some w → Returns s.cache (s.point w)) {l : Step W}
    (hstep : s.step l = some s') :
    (∀ w, s'.owner = some w → Returns s'.cache (s'.point w)) ↔ FindsRoom s l := by
  cases l with
  | call v c =>
    obtain ⟨hidle, rfl⟩ := call_some hstep
    refine iff_of_true ?_ trivial
    intro w howner
    have hv : w ≠ v := by
      rintro rfl
      have hholds := hguarded.point_of_owner howner
      rw [hidle] at hholds
      contradiction
    rw [goto_point, Function.update_of_ne hv]
    exact h w howner
  | thread v now =>
    rcases thread_cases hguarded hstep with ⟨p, hfree, hentered, rfl⟩ |
      ⟨c, p, hv, _, _, hreturns, rfl⟩ | ⟨hv, hreturns, rfl⟩
    · have hnew : (∀ w, some v = some w → Returns s.cache (Function.update s.point v p w)) ↔
          Returns s.cache p := by
        constructor
        · intro hall
          have hself := hall v rfl
          rwa [Function.update_self] at hself
        · rintro hp w heq
          rw [← Option.some.inj heq, Function.update_self]
          exact hp
      refine hnew.trans ((entered_returns hentered s.cache).trans ?_)
      exact ⟨fun hroom a ha _ => hroom a ha, fun hroom a ha => hroom a ha hfree⟩
    · have hself := (hguarded.owner v).mpr hv
      refine iff_of_true ?_ (fun a _ hfree => by rw [hself] at hfree; contradiction)
      intro w howner
      rw [goto_owner, hself] at howner
      rw [← Option.some.inj howner, goto_point, Function.update_self]
      exact hreturns.mp (h v hself)
    · have hself := (hguarded.owner v).mpr hv
      refine iff_of_true ?_ (fun a _ hfree => by rw [hself] at hfree; contradiction)
      intro w howner
      contradiction

end Returning

section Runs
variable [DecidableEq W] {labels : List (Step W)}

theorem Guarded.run {s t : LockedCache W} (h : Guarded s)
    (hrun : Runs.run LockedCache.step s labels = some t) : Guarded t :=
  Runs.run_invariant LockedCache.step Guarded (fun _ _ _ hs hstep => hs.step hstep) labels s t h
    hrun

/-- All along a run no thread calls for its own mutex and the thread that has it
returns, exactly when every add that gets the mutex finds room; otherwise the run
passes a state from which a thread that has the mutex never returns. -/
theorem adds_complete_iff (labels : List (Step W)) :
    ((∀ ms, ms <+: labels → ∀ t, Runs.run step start ms = some t →
      NoRelock t ∧ HolderReturns t) ↔ Runs.EveryStep step FindsRoom start labels) ∧
    (¬ Runs.EveryStep step FindsRoom start labels →
      ∃ ms t w, ms <+: labels ∧ Runs.run step start ms = some t ∧
        ∀ more u, Runs.run step t more = some u → u.owner = some w ∧ u.point w ≠ .idle) := by
  have hiff : (∀ ms, ms <+: labels → ∀ t, Runs.run step start ms = some t →
      ∀ w, t.owner = some w → Returns t.cache (t.point w)) ↔
      Runs.EveryStep step FindsRoom start labels := by
    refine Runs.everyStep_iff_prefixes step Guarded (fun result => ∀ t, result = some t →
      ∀ w, t.owner = some w → Returns t.cache (t.point w)) FindsRoom ?_
      (fun _ _ _ h _ hstep => h.step hstep) labels start Guarded.start ?_
    · intro t l hguarded ht
      cases hstep : step t l with
      | none => exact iff_of_true (fun _ h => by contradiction) (findsRoom_of_blocked hstep)
      | some u =>
        rw [← step_returns_iff hguarded (ht t rfl) hstep]
        exact ⟨fun h => h u rfl, fun h v hv => Option.some.inj hv ▸ h⟩
    · intro t ht w howner
      cases ht
      contradiction
  have hreturns : (∀ ms, ms <+: labels → ∀ t, Runs.run step start ms = some t →
      NoRelock t ∧ HolderReturns t) ↔ (∀ ms, ms <+: labels → ∀ t,
        Runs.run step start ms = some t → ∀ w, t.owner = some w →
          Returns t.cache (t.point w)) :=
    forall_congr' fun ms => forall_congr' fun _ => forall_congr' fun t => forall_congr' fun ht =>
      returns_iff (Guarded.start.run ht)
  refine ⟨hreturns.trans hiff, ?_⟩
  rw [← hiff]
  intro hnot
  push Not at hnot
  obtain ⟨ms, hms, t, ht, w, howner, hpoint⟩ := hnot
  refine ⟨ms, t, w, hms, ht, ?_⟩
  intro more u hu
  have hdoomed : Doomed w u := Doomed.run ⟨Guarded.start.run ht, howner, hpoint⟩ hu
  exact ⟨hdoomed.owner, hdoomed.not_idle⟩

/-- A thread calls an add while the mutex is free, and gets it. -/
theorem add_locks {s : LockedCache W} {w : W} (hidle : s.point w = .idle) (hfree : s.owner = none)
    (a : AddArgs) (now : ℤ) :
    ∃ t, Runs.run step s [.call w (.add a), .thread w now] = some t ∧ t.owner = some w ∧
      t.point w = .addSize a ∧ t.cache = s.cache := by
  have hcall : s.step (.call w (.add a)) = some (s.goto w (.addLock a)) := if_pos hidle
  have hfree' : (s.goto w (.addLock a)).owner = none := hfree
  refine ⟨{ s.goto w (.addLock a) with owner := some w }.goto w (.addSize a), ?_, rfl, ?_, rfl⟩
  · rw [Runs.run_cons, hcall, Option.bind_some, Runs.run_cons, step, goto_point,
      Function.update_self, threadStep, acquire_of_free hfree']
    rfl
  · rw [goto_point, Function.update_self]

/-- An add at a free mutex that finds room, with nobody between its steps. -/
theorem add_returns {s : LockedCache W} {w : W} (hidle : s.point w = .idle)
    (hfree : s.owner = none) {a : AddArgs} (hroom : a.Fits → Room s.cache a.elementSize) (now : ℤ) :
    ∃ labels t answer, Runs.run step s labels = some t ∧ t.point w = .idle ∧ t.owner = none ∧
      lockedAdd s.cache a.data a.size a.url now = some (answer, t.cache) := by
  obtain ⟨s₁, hlock, _, hpoint, hcache⟩ := add_locks hidle hfree a now
  have hadd : lockedAdd s.cache a.data a.size a.url now =
      addCacheElement s₁.cache a.data a.size a.url now := by
    rw [hcache]
    exact if_neg (fun hfull => hfull.2 (hroom hfull.1))
  rw [← hcache] at hroom
  obtain ⟨answer, c, hc, n, _, t, hrun, hidle', hfree', rfl⟩ := returnsWithin_addSize hpoint hroom
  refine ⟨[.call w (.add a), .thread w now] ++ List.replicate n (.thread w now), t, answer, ?_,
    hidle', hfree', hadd.trans hc⟩
  rw [Runs.run_append, hlock]
  exact hrun

/-- One that has to make room gets the mutex and does not return. -/
theorem add_never_returns {s : LockedCache W} {w : W} (hguarded : Guarded s)
    (hidle : s.point w = .idle) (hfree : s.owner = none) {a : AddArgs} (hfits : a.Fits)
    (hfull : ¬ Room s.cache a.elementSize) (now : ℤ) :
    lockedAdd s.cache a.data a.size a.url now = none ∧
      ∃ t, Runs.run step s [.call w (.add a), .thread w now] = some t ∧ Doomed w t := by
  obtain ⟨t, hlock, howner, hpoint, hcache⟩ := add_locks hidle hfree a now
  refine ⟨if_pos ⟨hfits, hfull⟩, t, hlock, ?_, howner, ?_⟩
  · exact hguarded.run hlock
  · rw [hpoint, hcache]
    exact fun hreturns => hfull (hreturns hfits)

end Runs

section Sequential

/-- What the tests of an add have shown on the way to its insertion. -/
def Tested (c : Cache) : Point → Prop
  | .addTest a => a.Fits
  | .addInsert a => a.Fits ∧ Room c a.elementSize
  | _ => True

variable [DecidableEq W] {s s' : LockedCache W} {w : W} {now : ℤ}

theorem tested_of_free {p : Point} (hp : holdsLock p = false) (c : Cache) : Tested c p := by
  cases p with
  | addTest a => contradiction
  | addInsert a => contradiction
  | _ => trivial

/-- A step of a thread leaves the cache as it is or, with the mutex, does what one
of the calls does. -/
theorem thread_call (h : Guarded s) (htested : Tested s.cache (s.point w))
    (hstep : s.step (.thread w now) = some s') :
    ∃ p, s'.point = Function.update s.point w p ∧ Tested s'.cache p ∧
      (s'.cache = s.cache ∨
        holdsLock (s.point w) = true ∧ ∃ call, V1.step s.cache call = some s'.cache) := by
  rw [step] at hstep
  cases hp : s.point w with
  | idle =>
    rw [hp] at hstep
    contradiction
  | findLock url =>
    rw [hp] at hstep
    obtain ⟨_, rfl⟩ := acquire_some hstep
    exact ⟨_, rfl, trivial, Or.inl rfl⟩
  | findBody url =>
    rw [hp] at hstep
    cases hstep
    exact ⟨_, rfl, trivial, Or.inr ⟨rfl, .find url now, rfl⟩⟩
  | removeLock caller =>
    rw [hp] at hstep
    obtain ⟨_, rfl⟩ := acquire_some hstep
    exact ⟨_, rfl, trivial, Or.inl rfl⟩
  | removeBody caller =>
    rw [hp] at hstep
    cases hstep
    exact ⟨_, rfl, trivial, Or.inr ⟨rfl, .remove, rfl⟩⟩
  | removeUnlock caller =>
    have hnested := h.nested w
    rw [hp] at hstep hnested
    cases caller with
    | none =>
      cases hstep
      exact ⟨_, rfl, trivial, Or.inl rfl⟩
    | some a => contradiction
  | addLock a =>
    rw [hp] at hstep
    obtain ⟨_, rfl⟩ := acquire_some hstep
    exact ⟨_, rfl, trivial, Or.inl rfl⟩
  | addSize a =>
    rw [hp] at hstep
    cases hstep
    refine ⟨_, rfl, ?_, Or.inl rfl⟩
    by_cases hfits : a.Fits
    · rw [if_pos hfits]
      exact hfits
    · rw [if_neg hfits]
      trivial
  | addTest a =>
    rw [hp] at hstep htested
    cases hstep
    refine ⟨_, rfl, ?_, Or.inl rfl⟩
    by_cases hroom : Room s.cache a.elementSize
    · rw [if_pos hroom]
      exact ⟨htested, hroom⟩
    · rw [if_neg hroom]
      trivial
  | addInsert a =>
    rw [hp] at hstep htested
    obtain ⟨c, hc, rfl⟩ := Option.map_eq_some_iff.mp hstep
    refine ⟨_, rfl, trivial, Or.inr ⟨rfl, .add a.data a.size a.url now, ?_⟩⟩
    rw [V1.step, addCacheElement_of_room htested.1 htested.2 hc]
    rfl
  | unlock =>
    rw [hp] at hstep
    cases hstep
    exact ⟨_, rfl, trivial, Or.inl rfl⟩

/-- The calls that have worked on the cache, one after the other. -/
structure Serialized (s : LockedCache W) : Prop where
  guarded : Guarded s
  tested : ∀ w, Tested s.cache (s.point w)
  calls : ∃ calls, Runs.run V1.step Cache.empty calls = some s.cache

theorem Serialized.step (h : Serialized s) {l : Step W} (hstep : s.step l = some s') :
    Serialized s' := by
  have hguarded := h.guarded.step hstep
  cases l with
  | call w c =>
    obtain ⟨hidle, rfl⟩ := call_some hstep
    refine ⟨hguarded, ?_, h.calls⟩
    intro v
    rw [goto_point, goto_cache]
    by_cases hv : v = w
    · rw [hv, Function.update_self]
      exact tested_of_free (entry_free c).1 s.cache
    · rw [Function.update_of_ne hv]
      exact h.tested v
  | thread w now =>
    obtain ⟨p, hpoint, hp, hcache⟩ := thread_call h.guarded (h.tested w) hstep
    refine ⟨hguarded, ?_, ?_⟩
    · intro v
      rw [hpoint]
      by_cases hv : v = w
      · rw [hv, Function.update_self]
        exact hp
      · rw [Function.update_of_ne hv]
        rcases hcache with hsame | ⟨hholds, _⟩
        · rw [hsame]
          exact h.tested v
        · apply tested_of_free
          have howner := (h.guarded.owner w).mpr hholds
          rw [← Bool.not_eq_true, ← h.guarded.owner v, howner]
          exact fun heq => hv (Option.some.inj heq).symm
    · rcases hcache with hsame | ⟨_, call, hcall⟩
      · rw [hsame]
        exact h.calls
      · obtain ⟨calls, hrun⟩ := h.calls
        refine ⟨calls ++ [call], ?_⟩
        rw [Runs.run_concat, hrun]
        exact hcall

/-- Behind the mutex the cache goes through a sequence of calls, as it does for a
single thread. -/
theorem serialized_run {labels : List (Step W)} (hrun : Runs.run step start labels = some s) :
    Serialized s := by
  have hstart : Serialized (start : LockedCache W) :=
    ⟨Guarded.start, fun _ => trivial, [], rfl⟩
  exact Runs.run_invariant step Serialized (fun _ _ _ h hstep => h.step hstep) labels start s
    hstart hrun

end Sequential

section Full

/-- Some adds of one size, one after the other, have been stored. -/
structure Filled (k : ℕ) (s : LockedCache Unit) : Prop where
  cacheSize : s.cache.cacheSize = k * 10485042
  owner : s.owner = none
  idle : s.point () = .idle

theorem Filled.room_iff {k : ℕ} {s : LockedCache Unit} (h : Filled k s) (hk : k ≤ 20) :
    Room s.cache 10485042 ↔ k < 20 := by
  have hlimit : maxSize = 209715200 := rfl
  have hsum := h.cacheSize
  rw [Room, toInt_eq_self (by omega) (by omega)]
  omega

theorem Filled.next {a : AddArgs} (ha : a.elementSize = 10485042) {k : ℕ} {s : LockedCache Unit}
    (h : Filled k s) (hk : k < 20) :
    ∃ labels t, Runs.run step s labels = some t ∧ Filled (k + 1) t := by
  have hfits : a.elementSize ≤ maxElementSize := by
    rw [ha]
    decide
  have hroom : Room s.cache (V1.elementSize a.size a.url) := by
    rw [← AddArgs.elementSize, ha]
    exact (h.room_iff (by omega)).mpr hk
  obtain ⟨labels, t, answer, hrun, hidle, hfree, hadd⟩ := add_returns h.idle h.owner
    (fun _ => hroom) 0
  refine ⟨labels, t, hrun, ?_, hfree, hidle⟩
  rw [lockedAdd, if_neg (fun hfull => hfull.2 hroom)] at hadd
  rcases addCacheElement_cases hadd with ⟨hlarge, _⟩ | ⟨_, _, _, c, hevict, heq⟩
  · exact absurd hlarge (not_lt.mpr hfits)
  · rw [evictLoop_of_room hroom] at hevict
    obtain rfl := Option.some.inj hevict
    have hsum := h.cacheSize
    rw [heq]
    dsimp only
    rw [← AddArgs.elementSize, ha, toInt_eq_self (by omega) (by omega)]
    omega

/-- Twenty elements of nearly 10 MiB fill the cache, and the thread that stores
one more calls for the mutex it has. -/
theorem relocks_when_full : ¬ ∀ (labels : List (Step Unit)) (s : LockedCache Unit),
    Runs.run step start labels = some s → NoRelock s := by
  intro hall
  obtain ⟨data, hlength⟩ : ∃ data : CString, data.length = 10484975 :=
    ⟨List.replicate 10484975 'a', List.length_replicate⟩
  obtain ⟨a, ha⟩ : ∃ a : AddArgs, a.elementSize = 10485042 :=
    ⟨⟨data, 10484975, "GET http://h/ HTTP/1.0\r\n\r\n".toList, by omega⟩,
      (by decide : elementSize 10484975 "GET http://h/ HTTP/1.0\r\n\r\n".toList = 10485042)⟩
  have hfits : a.Fits := by
    rw [AddArgs.Fits, ha]
    decide
  have hstart : Filled 0 (start : LockedCache Unit) := ⟨by decide, rfl, rfl⟩
  obtain ⟨labels, s, hrun, hfull⟩ :=
    Runs.run_stages step Filled 20 (fun k hk _ h => h.next ha hk) hstart
  have hroom : ¬ Room s.cache a.elementSize := by
    rw [ha, hfull.room_iff (le_refl 20)]
    exact lt_irrefl 20
  obtain ⟨s₁, hlock, howner, hpoint, hcache⟩ := add_locks hfull.idle hfull.owner a 0
  rw [← hcache] at hroom
  have hsize : s₁.step (.thread () 0) = some (s₁.goto () (.addTest a)) := by
    rw [step, hpoint, threadStep, if_pos hfits]
  have htest : (s₁.goto () (.addTest a)).step (.thread () 0) =
      some ((s₁.goto () (.addTest a)).goto () (.removeLock (some a))) := by
    rw [step, goto_point, Function.update_self, threadStep, goto_cache, if_neg hroom]
  have hrelock := hall
    (labels ++ ([.call () (.add a), .thread () 0] ++ [.thread () 0, .thread () 0]))
    ((s₁.goto () (.addTest a)).goto () (.removeLock (some a))) (by
      rw [Runs.run_append, hrun, Option.bind_some, Runs.run_append, hlock, Option.bind_some,
        Runs.run_cons, hsize, Option.bind_some, Runs.run_cons, htest]
      rfl)
  exact hrelock () (by rw [goto_point, Function.update_self]; rfl) howner

end Full

end LockedCache

end ProxyServer.V1
