import ProxyServer.ProxyUtils
import ProxyServer.ProxyParse
import ProxyServer.CacheKey

/-!
`ThreadPoolServer::handleClient` and `SemaphoreServer::datafromclient`, which are
the same code: receive until the first blank line, parse, look the key up, and
send the client either the cached response or what the origin sends. Memory is
always to be had; everything else that a peer can answer is an argument.
-/
namespace ProxyServer

open CStrings

/-- What the worker has allocated, counted and received. -/
structure RequestMessage where
  maxBufferSize : ℕ
  total : ℕ
  text : CString
  deriving DecidableEq, Repr

namespace RequestMessage

def empty : RequestMessage := ⟨5000, 0, []⟩

/-- Counting, `realloc` and `strncat`; `none` where `buf`, an `int` or the
allocation is too small. -/
def append (m : RequestMessage) (buf : List Char) : Option RequestMessage :=
  let total := m.total + buf.length
  let maxBufferSize := if m.maxBufferSize < total then m.maxBufferSize * 2 else m.maxBufferSize
  let text := m.text ++ buf.takeWhile (· != nul)
  if 5000 < buf.length ∨ 2 ^ 31 ≤ total ∨ 2 ^ 31 ≤ maxBufferSize ∨ maxBufferSize ≤ text.length
  then none else some ⟨maxBufferSize, total, text⟩

/-- The message when the loop ends; after the last answer the client has closed. -/
def receive (m : RequestMessage) : List RecvResult → Except Fatal CString
  | [] => .ok m.text
  | recvd :: recvs =>
      if crlf ++ crlf <:+: m.text then .ok m.text
      else match recvd with
        | .error => .error (.exited 1)
        | .data [] => .ok m.text
        | .data buf =>
            match m.append buf with
            | none => .error .undefined
            | some m => receive m recvs

end RequestMessage

/-- What a client sends and how it takes what it is sent. -/
structure Client where
  recvs : List RecvResult
  sends : ℕ → SendResult

/-- How an origin takes the request and what it sends. A connection that failed
answers with errors. -/
structure Origin where
  recvs : List RecvResult
  sends : ℕ → SendResult

/-- What a worker finds: the cache, the time at its two calls, and the origins
by host and port. -/
structure Surroundings where
  cache : CacheStrategy
  findTime : ℤ
  addTime : ℤ
  origin : CString → CString → Origin

/-- `ParsedRequest_parse` with the branch after it. -/
def parseRequest (text : CString) (errnoEinval : Bool) : Except Fatal ParsedRequest :=
  match ParsedRequest.parse ParsedRequest.create text errnoEinval with
  | .ok req => .ok req
  | .error .undefined => .error .undefined
  | .error (.rejected _) => .error (.exited 0)

/-- The part after parsing: the cache and what the client got. -/
def respond (client : Client) (s : Surroundings) (req : ParsedRequest) :
    Except Fatal (CacheStrategy × List Char) :=
  match req.requestLine, ProxyUtils.convertRequestToString req with
  | some line, some (_, browserReq) =>
      match s.cache.find line.url s.findTime with
      | none => .error .undefined
      | some (cache, some response) => do
          let newsockfd ← ProxyUtils.writeToSocket client.sends response.data response.len ⟨0, []⟩
          return (cache, newsockfd.wire)
      | some (cache, none) => do
          let origin := s.origin line.host line.effectivePort
          let _ ← ProxyUtils.writeToSocket origin.sends browserReq browserReq.length ⟨0, []⟩
          let (cache, newsockfd) ←
            ProxyUtils.writeToClient client.sends origin.recvs cache line.url s.addTime ⟨0, []⟩
          return (cache, newsockfd.wire)
  | _, _ => .error .undefined

/-- The common body of the two workers. -/
def serveClient (client : Client) (errnoEinval : Bool) (s : Surroundings) :
    Except Fatal (CacheStrategy × List Char) := do
  let text ← RequestMessage.empty.receive client.recvs
  let req ← parseRequest text errnoEinval
  respond client s req

def ThreadPoolServer.handleClient := serveClient

def SemaphoreServer.datafromclient := serveClient

end ProxyServer
