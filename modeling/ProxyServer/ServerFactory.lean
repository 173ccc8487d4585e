import ProxyServer.CacheStrategy
import ProxyServer.ProxyParse

/-!
The arguments of `main` and the servers and caches made from them. A number is
read as `std::stoi` reads it; the constructors are called as the factory calls
them, with a default for the number of threads.
-/
namespace ProxyServer

open CStrings

inductive StoiError
  | invalidArgument
  | outOfRange
  deriving DecidableEq, Repr

/-- `strtol` finds a number at the start of the text. -/
def converts (s : CString) : Bool :=
  let s := s.dropWhile ParsedRequest.isSpace
  let s := if s.head? == some '-' || s.head? == some '+' then s.tail else s
  s.head?.any Char.isDigit

def stoi (s : CString) : Except StoiError ℤ :=
  if converts s then
    if (ParsedRequest.strtol s).2 ∨ (ParsedRequest.strtol s).1 < -2 ^ 31 ∨
        2 ^ 31 ≤ (ParsedRequest.strtol s).1
    then .error .outOfRange else .ok (ParsedRequest.strtol s).1
  else .error .invalidArgument

/-- How `main` ends before a server is made. -/
inductive ArgumentError
  | usage (program : CString)
  | stoi (error : StoiError)
  deriving DecidableEq, Repr

def ArgumentError.message : ArgumentError → String
  | .usage program => "Usage: " ++ String.ofList program ++
      " <server_type> <cache_type> <port> [num_threads] [cache_size]\n" ++
      "Server types: Threadpool, Semaphore\n" ++
      "Cache types: LRUCache, LFUCache\n" ++
      "Port: Any valid port number (e.g., 8080)\n" ++
      "Num threads: (Optional) Number of threads for the server\n" ++
      "Cache size: (Optional) Maximum number of elements in the cache\n"
  | .stoi .invalidArgument => "Error: Invalid argument. Please provide valid numbers for port, " ++
      "num_threads, and cache_size.\n"
  | .stoi .outOfRange => "Error: Number out of range for port, num_threads, or cache_size.\n"

structure Arguments where
  serverType : String
  cacheType : String
  port : ℤ
  numThreads : ℤ
  cacheSize : ℤ

/-- An argument that may be missing. -/
def stoiOr (default : ℤ) : Option CString → Except StoiError ℤ
  | none => .ok default
  | some s => stoi s

def readArguments (program : CString) : List CString → Except ArgumentError Arguments
  | serverType :: cacheType :: port :: rest =>
      if 2 < rest.length then .error (.usage program)
      else do
        let port ← (stoi port).mapError .stoi
        let numThreads ← (stoiOr 25 rest[0]?).mapError .stoi
        let cacheSize ← (stoiOr 100 rest[1]?).mapError .stoi
        return ⟨String.ofList serverType, String.ofList cacheType, port, numThreads, cacheSize⟩
  | _ => .error (.usage program)

/-- The server made, with the number of threads its constructor was given. -/
inductive HTTPServer
  | threadPool (cache : CacheStrategy) (numThreads : ℤ)
  | semaphore (cache : CacheStrategy) (numThreads : ℤ)

/-- The default argument of both constructors. -/
def defaultNumThreads : ℤ := 25

def HTTPServer.cache : HTTPServer → CacheStrategy
  | .threadPool cache _ => cache
  | .semaphore cache _ => cache

/-- `none` where the factory throws. It does not pass `numThreads` on. -/
def createHTTPServer (serverType cacheType : String) (_numThreads cacheSize : ℤ) :
    Option HTTPServer := do
  let cache ← CacheStrategy.createCacheStrategy cacheType cacheSize
  if serverType = "Threadpool" then some (.threadPool cache defaultNumThreads)
  else if serverType = "Semaphore" then some (.semaphore cache defaultNumThreads)
  else none

theorem createHTTPServer_cases {serverType cacheType : String} {numThreads cacheSize : ℤ}
    {server : HTTPServer}
    (h : createHTTPServer serverType cacheType numThreads cacheSize = some server) :
    ∃ cache, CacheStrategy.createCacheStrategy cacheType cacheSize = some cache ∧
      (server = .threadPool cache 25 ∨ server = .semaphore cache 25) := by
  obtain ⟨cache, hcache, hserver⟩ := Option.bind_eq_some_iff.mp h
  refine ⟨cache, hcache, ?_⟩
  split at hserver
  · exact Or.inl (Option.some.inj hserver).symm
  · split at hserver
    · exact Or.inr (Option.some.inj hserver).symm
    · contradiction

theorem stoi_range {s : CString} {n : ℤ} (h : stoi s = .ok n) : -2 ^ 31 ≤ n ∧ n < 2 ^ 31 := by
  unfold stoi at h
  split at h
  · split at h
    · contradiction
    · rename_i hrange
      cases h
      simp only [not_or, not_lt, not_le] at hrange
      exact hrange.2
  · contradiction

theorem stoiOr_range {default : ℤ} (hdefault : -2 ^ 31 ≤ default ∧ default < 2 ^ 31)
    {s : Option CString} {n : ℤ} (h : stoiOr default s = .ok n) : -2 ^ 31 ≤ n ∧ n < 2 ^ 31 := by
  cases s with
  | none =>
    cases h
    exact hdefault
  | some s => exact stoi_range h

theorem mapError_ok {ε ε' α : Type*} {f : ε → ε'} {x : Except ε α} {a : α}
    (h : x.mapError f = .ok a) : x = .ok a := by
  cases x with
  | error e => contradiction
  | ok b => exact congrArg Except.ok (Except.ok.inj h)

theorem readArguments_range {program : CString} {argv : List CString} {arguments : Arguments}
    (h : readArguments program argv = .ok arguments) :
    (-2 ^ 31 ≤ arguments.numThreads ∧ arguments.numThreads < 2 ^ 31) ∧
      -2 ^ 31 ≤ arguments.cacheSize ∧ arguments.cacheSize < 2 ^ 31 := by
  unfold readArguments at h
  split at h
  · split at h
    · contradiction
    · obtain ⟨port, _, h⟩ := ParseError.bind_ok h
      obtain ⟨numThreads, hthreads, h⟩ := ParseError.bind_ok h
      obtain ⟨cacheSize, hsize, h⟩ := ParseError.bind_ok h
      cases h
      exact ⟨stoiOr_range (by omega) (mapError_ok hthreads),
        stoiOr_range (by omega) (mapError_ok hsize)⟩
  · contradiction

end ProxyServer
