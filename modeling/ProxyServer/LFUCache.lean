import ProxyServer.FrequencyList
import ProxyServer.Runs

/-!
The LFU cache: a list of frequency nodes, each with its elements, and a map
from URLs to a node and an iterator into its elements. The node list is
libstdc++'s circular list, so `std::next(end())` is `begin()`. Operations
return `none` where the code would follow a pointer or iterator that dangles or
run off the list; under the invariant that list and map agree no call does.
-/
namespace ProxyServer

structure LFUCache where
  capacity : ℕ
  cacheMap : AList (fun _ : CString => ℕ × ℕ)
  frequencyList : List FrequencyNode
  fresh : ℕ

namespace LFUCache

open CacheElement FrequencyList

def create (cap : ℕ) : LFUCache := ⟨cap, ∅, [⟨0, 0, []⟩], 1⟩

/-- `std::find_if`; the position past the last node stands for `end()`. -/
def findIf (l : Nodes) (nextFrequency : ℕ) : ℕ :=
  l.findIdx (fun node => decide (nextFrequency ≤ node.frequency))

/-- `std::next` on the circular list. -/
def next (l : Nodes) (i : ℕ) : ℕ := if i = l.length then 0 else i + 1

def insertNode (c : LFUCache) (i nextFrequency : ℕ) : LFUCache × ℕ :=
  ({ c with
      frequencyList := c.frequencyList.insertIdx i ⟨c.fresh, nextFrequency, []⟩
      fresh := c.fresh + 1 }, c.fresh)

/-- The node `next_it` ends up at: the one after the position found, when it
has the frequency wanted, else a new one inserted there. -/
def nextNode (c : LFUCache) (nextFrequency : ℕ) : LFUCache × ℕ :=
  let i := next c.frequencyList (findIf c.frequencyList nextFrequency)
  match c.frequencyList[i]? with
  | none => c.insertNode i nextFrequency
  | some node =>
      if node.frequency = nextFrequency then (c, node.addr) else c.insertNode i nextFrequency

def incrementFrequency (c : LFUCache) (url : CString) : Option LFUCache :=
  (c.cacheMap.lookup url).bind (fun entry =>
    (nodeAt c.frequencyList entry.1).bind (fun node =>
      (deref node.elements entry.2).map (fun elem =>
        let c' := (c.nextNode (node.frequency + 1)).1
        let nextIt := (c.nextNode (node.frequency + 1)).2
        let spliced := atNode (atNode c'.frequencyList entry.1 (fun es => unlink es entry.2))
          nextIt (fun es => elem :: es)
        { c' with
          cacheMap := c'.cacheMap.insert url (nextIt, entry.2)
          frequencyList := prune spliced entry.1 })))

/-- The scan of `evict`; `none` where it would run past the last node. -/
def leastFrequent (l : Nodes) : Option FrequencyNode :=
  l.find? (fun node => !node.elements.isEmpty)

def evict (c : LFUCache) : Option LFUCache :=
  (leastFrequent c.frequencyList).bind (fun node =>
    node.elements.getLast?.map (fun victim =>
      { c with
        cacheMap := c.cacheMap.erase victim.url
        frequencyList := prune (atNode c.frequencyList node.addr List.dropLast) node.addr }))

def setTimes (l : Nodes) (it : ℕ) (now : ℤ) : Nodes :=
  l.map (fun node => { node with elements := setTime node.elements it now })

def find (c : LFUCache) (url : CString) (now : ℤ) : Option (LFUCache × Option CacheElement) :=
  match c.cacheMap.lookup url with
  | none => some (c, none)
  | some (_, it) =>
      (c.incrementFrequency url).bind (fun c =>
        let c := { c with frequencyList := setTimes c.frequencyList it now }
        (deref (elements c.frequencyList) it).map (fun elem => (c, some elem)))

/-- The new element goes to the front of the front node and into the map. -/
def pushFront (c : LFUCache) (url : CString) (data : List Char) (len now : ℤ) :
    Option LFUCache :=
  c.frequencyList.head?.map (fun front =>
    { c with
      cacheMap := c.cacheMap.insert url (front.addr, c.fresh)
      frequencyList := atNode c.frequencyList front.addr
        (fun es => CacheElement.make url data len now c.fresh :: es)
      fresh := c.fresh + 1 })

def add (c : LFUCache) (url : CString) (data : List Char) (len now : ℤ) : Option LFUCache :=
  match c.cacheMap.lookup url with
  | some _ => c.incrementFrequency url
  | none =>
      (if c.capacity ≤ c.cacheMap.keys.length then c.evict else some c).bind
        (fun c => c.pushFront url data len now)

def remove (c : LFUCache) (url : CString) : Option LFUCache :=
  match c.cacheMap.lookup url with
  | none => some c
  | some (n, it) =>
      (nodeAt c.frequencyList n).bind (fun node =>
        (deref node.elements it).map (fun _ =>
          { c with
            frequencyList := atNode c.frequencyList n (fun es => unlink es it)
            cacheMap := c.cacheMap.erase url }))

def step (c : LFUCache) : CacheOp → Option LFUCache
  | .find url now => (c.find url now).map Prod.fst
  | .add url data len now => c.add url data len now
  | .remove url => c.remove url

def urls (c : LFUCache) : List CString := (elements c.frequencyList).map (·.url)

end LFUCache

end ProxyServer
