/-
  Calculator.Main — the program: it answers its arguments, or serves until it is interrupted.

  What is served, said and recorded is decided by `Program` and `Http`. Here the arguments,
  the variables and the document are fetched, the address is bound, requests are handed
  over one after another, and what is to be written is written.
-/

import Calculator.Program
import Std.Async
import Std.Http

namespace Calculator.Main

/-! ## Surroundings -/

def documentAt (path : String) : IO Settings.Source := do
  try
    let bytes ← IO.FS.readBinFile path
    return match String.fromUTF8? bytes with
      | some content => .text content
      | none => .unreadable
  catch
    | .permissionDenied .. => return .unreadable
    | _ => return .missing path

def documentOf (arguments : List String) : IO Settings.Source :=
  match CommandLine.parse arguments with
  | .ok ⟨some path, _, _, _⟩ => documentAt path
  | _ => return .none

/-! ## Addresses -/

/-- The address to bind, without the scope of an address with groups, for which there is no place in it. -/
def socketAddress : SocketAddress → Std.Net.SocketAddress
  | .v4 ip port => .v4 ⟨⟨#v[.ofNat ip.a, .ofNat ip.b, .ofNat ip.c, .ofNat ip.d]⟩, .ofNat port⟩
  | .v6 groups _ port => .v6 ⟨⟨.ofFn fun i : Fin 8 => .ofNat (groups.getD i 0)⟩, .ofNat port⟩

/-! ## Requests -/

def requestOf (r : Std.Http.Request Std.Http.Body.Stream) : Std.Async.ContextAsync Http.Request := do
  let body : ByteArray ← r.body.readAll
  return ⟨toString r.line.method, toString r.line.uri, body.data.toList⟩

def withHeader (b : Std.Http.Response.Builder) (name : String) (value : Option String) : Std.Http.Response.Builder :=
  match value with
  | some text => (b.header? name text).getD b
  | none => b

def responseOf (r : Http.Reply) : Std.Async.Async (Std.Http.Response Std.Http.Body.Any) := do
  let status := (Std.Http.Status.ofCode none (.ofNat r.status)).getD .internalServerError
  let head := withHeader (withHeader (Std.Http.Response.withStatus status) "content-type" r.contentType) "allow" r.allow
  return head.body (.ofBody (← Std.Http.Body.Full.ofString r.body))

def record (journal : Journal.Filter) (entries : List Journal.Entry) : IO Unit := do
  for e in Journal.shown journal entries do
    IO.println e.line
  (← IO.getStdout).flush

/-- Serves one request with the service as it is then. -/
def handle (journal : Journal.Filter) (service : IO.Ref Service) (r : Std.Http.Request Std.Http.Body.Stream) :
    Std.Async.ContextAsync (Std.Http.Response Std.Http.Body.Any) := do
  let request ← requestOf r
  let exchange ← service.modifyGet fun s =>
    let exchange := Http.respond s request
    (exchange, exchange.service)
  record journal exchange.entries
  responseOf exchange.reply

/-! ## Runs -/

def conclude : Program.Outcome → IO UInt32
  | .ended code output complaint => do
    IO.print output
    unless complaint.isEmpty do IO.eprintln complaint
    return .ofNat code
  | .listening .. => return 0

def listen (address : SocketAddress) (journal : Journal.Filter) : IO UInt32 := do
  let interrupted ← Std.Async.Signal.Waiter.mk .sigint false
  let service ← IO.mkRef Service.fresh
  let handler := Std.Http.Server.Handler.ofFn (handle journal service)
  let started ← (Std.Http.Server.serve (socketAddress address) handler).block.toBaseIO
  match started with
  | .error _ => conclude (Program.cannotBind address)
  | .ok server =>
    record journal [.bound]
    discard (← interrupted.wait).block
    record journal [.shuttingDown]
    server.shutdownAndWait.block
    return 0

end Calculator.Main

open Calculator in
def main (arguments : List String) : IO UInt32 := do
  let document ← Main.documentOf arguments
  let environment ← Std.Internal.UV.System.osEnviron
  match Program.start ⟨environment.toList, fun _ => document, fun _ => true⟩ arguments with
  | .listening address journal => Main.listen address journal
  | outcome => Main.conclude outcome
