/-
  Calculator.Http — requests and their answers.

  One path is served. A POST there submits an expression, a GET greets with the last correct
  result, a HEAD is a GET without its body, and any other method is refused with the list
  of those three. Only a POST answered 200 changes what the service remembers.

  The path is compared as written: nothing is decoded, and case matters. A query or a
  fragment is not part of it, nor are the scheme and the host of an absolute target.
-/

import Calculator.Journal
import Calculator.Json.Compact
import Calculator.Service
import Calculator.Submission

namespace Calculator

structure Http.Request where
  method : String
  /-- The target as it is sent: a path, or an absolute address. -/
  target : String
  body : List UInt8
  deriving DecidableEq, Repr

structure Http.Reply where
  status : Nat
  body : String
  contentType : Option String
  /-- The methods that are served, told with a refusal. -/
  allow : Option String
  deriving DecidableEq, Repr

/-- One request served: the answer, what the journal records, and the service after it. -/
structure Http.Exchange where
  reply : Http.Reply
  entries : List Journal.Entry
  service : Service
  deriving DecidableEq, Repr

namespace Http

/-! ## Targets -/

/-- What follows the first `://`. -/
def afterScheme? : List Char → Option (List Char)
  | ':' :: '/' :: '/' :: rest => some rest
  | _ :: rest => afterScheme? rest
  | [] => none

def pathOf (target : String) : List Char :=
  let chars := target.toList
  let fromPath :=
    if chars.head? = some '/' then chars
    else match afterScheme? chars with
      | some rest => rest.dropWhile fun c => !(['/', '?', '#'].contains c)
      | none => chars
  fromPath.takeWhile fun c => c != '?' && c != '#'

def calculatePath : List Char := "/api/v1/calculate".toList

/-! ## Answers -/

namespace Reply

def empty (status : Nat) : Reply := ⟨status, "", none, none⟩

def json (status : Nat) (name value : String) : Reply :=
  ⟨status, Json.compact (.object [(name, .text value)]), some "application/json", none⟩

def plain (status : Nat) (text : String) : Reply := ⟨status, text, some "text/plain; charset=utf-8", none⟩

def notFound : Reply := empty 404

def methodNotAllowed : Reply := ⟨405, "", none, some "POST,GET,HEAD"⟩

def tooLarge : Reply := plain 413 "Failed to buffer the request body: length limit exceeded"

def bodyRejected : Reply := json 400 "error" "Invalid request body"

def expressionRejected : Reply := json 422 "error" "Expression is not valid"

def result (text : String) : Reply := json 200 "result" text

def withoutBody (r : Reply) : Reply := { r with body := "" }

end Reply

def bodyLimit : Nat := 2 * 1024 * 1024

def submit (s : Service) (body : List UInt8) : Exchange :=
  if body.length > bodyLimit then ⟨.tooLarge, [], s⟩
  else match Submission.decode body with
    | .error _ => ⟨.bodyRejected, [.bodyRejected], s⟩
    | .ok field =>
      match field.bind Field.text? with
      | none => ⟨.expressionRejected, [.expressionNotText], s⟩
      | some expression =>
        match s.calculate expression with
        | (.ok text, after) => ⟨.result text, [.calculated, .evaluated], after⟩
        | (.error _, after) => ⟨.expressionRejected, [.expressionRejected], after⟩

def respond (s : Service) (r : Request) : Exchange :=
  if pathOf r.target = calculatePath then
    match r.method with
    | "POST" => submit s r.body
    | "GET" => ⟨.plain 200 s.greeting, [], s⟩
    | "HEAD" => ⟨(Reply.plain 200 s.greeting).withoutBody, [], s⟩
    | _ => ⟨.methodNotAllowed, [], s⟩
  else ⟨.notFound, [], s⟩

def serve (s : Service) : List Request → List Exchange
  | [] => []
  | r :: requests =>
    let exchange := respond s r
    exchange :: serve exchange.service requests

def journalOf (exchanges : List Exchange) : List Journal.Entry :=
  .bound :: exchanges.flatMap Exchange.entries ++ [.shuttingDown]

end Http

end Calculator
